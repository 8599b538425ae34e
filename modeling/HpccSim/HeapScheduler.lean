import HpccSim.Schedulers
import HpccSim.Lib.BinaryHeap
import Mathlib.Data.List.GetD

/-!
# The event heap

`HeapScheduler` keeps the events in an array, as a binary heap whose root is at index `1`; the
item at index `0` is wasted. `Insert` puts the event at the end and moves it towards the root,
`RemoveNext` takes the root, replaces it by the last event and moves that one away from the root.

`Remove` also replaces the event by the last one, but moves that one only away from the root.
Where it comes before the parent of its new place, it stays there and the heap is no longer one.

## Main definitions

* `HeapScheduler`, with `bottomUp`, `topDown`, `insert`, `removeNext`, `remove` of the source.
* `HeapScheduler.Rep`: the array is a heap, and its events are those of the multiset.
* `HeapScheduler.KeepsOrder`: what `Remove` needs of the event to keep the heap.

## Main results

* `HeapScheduler.lawful`, `HeapScheduler.reliable`.
* `HeapScheduler.ordered_remove_iff`: `Remove` keeps the heap exactly if `KeepsOrder` holds.
-/

namespace HpccSim

open Scheduler

/-- `HeapScheduler`: `m_heap`. -/
structure HeapScheduler (ι : Type*) where
  heap : List (Event ι)
  deriving DecidableEq

namespace HeapScheduler

variable {ι : Type*} [Inhabited ι]

/-- The item that is wasted at the start of the array. -/
def empty : Event ι := ⟨default, ⟨0, 0, 0⟩⟩

/-- The constructor. -/
def init : HeapScheduler ι := ⟨[empty]⟩

/-- `Parent`. -/
def parent (id : ℕ) : ℕ := id / 2

/-- `LeftChild`. -/
def leftChild (id : ℕ) : ℕ := id * 2

/-- `RightChild`. -/
def rightChild (id : ℕ) : ℕ := id * 2 + 1

/-- `Root`. -/
def root : ℕ := 1

/-- `IsRoot`. -/
def isRoot (id : ℕ) : Bool := id = root

section Operations

variable (q : HeapScheduler ι)

/-- `m_heap[id]`. -/
def entry (id : ℕ) : Event ι := q.heap.getD id empty

/-- `Last`. -/
def last : ℕ := q.heap.length - 1

/-- `IsBottom`. -/
def isBottom (id : ℕ) : Bool := q.heap.length ≤ id

/-- `Exch`. -/
def exch (a b : ℕ) : HeapScheduler ι := ⟨(q.heap.set a (q.entry b)).set b (q.entry a)⟩

/-- `IsLessStrictly`. -/
def isLessStrictly (a b : ℕ) : Bool := (q.entry a).lt (q.entry b)

/-- `Smallest`. -/
def smallest (a b : ℕ) : ℕ := if q.isLessStrictly a b then a else b

/-- `IsEmpty`. -/
def isEmpty : Bool := q.heap.length = 1

/-- `m_heap.push_back`. -/
def pushBack (ev : Event ι) : HeapScheduler ι := ⟨q.heap ++ [ev]⟩

/-- `m_heap.pop_back`. -/
def popBack : HeapScheduler ι := ⟨q.heap.dropLast⟩

/-- The loop of `BottomUp`; the index is at least halved each time. -/
def bottomUpLoop : ℕ → HeapScheduler ι → ℕ → HeapScheduler ι
  | 0, q, _ => q
  | n + 1, q, index =>
    if !isRoot index && q.isLessStrictly index (parent index) then
      bottomUpLoop n (q.exch index (parent index)) (parent index)
    else q

/-- `BottomUp`. -/
def bottomUp : HeapScheduler ι := bottomUpLoop q.heap.length q q.last

/-- The loop of `TopDown` and what follows it; the index is at least doubled each time. -/
def topDownLoop : ℕ → HeapScheduler ι → ℕ → HeapScheduler ι
  | 0, q, _ => q
  | n + 1, q, index =>
    if !q.isBottom (rightChild index) then
      let tmp := q.smallest (leftChild index) (rightChild index)
      if q.isLessStrictly index tmp then q
      else topDownLoop n (q.exch index tmp) tmp
    else if q.isBottom index then q
    else if q.isBottom (leftChild index) then q
    else if q.isLessStrictly index (leftChild index) then q
    else q.exch index (leftChild index)

/-- `TopDown`. -/
def topDown (start : ℕ) : HeapScheduler ι := topDownLoop q.heap.length q start

/-- `Insert`. -/
def insert (ev : Event ι) : HeapScheduler ι := (q.pushBack ev).bottomUp

/-- `RemoveNext`. The exchange asserts that there is a root. -/
def removeNext : Option (Event ι × HeapScheduler ι) :=
  if root < q.heap.length then
    some (q.entry root, ((q.exch root q.last).popBack).topDown root)
  else none

/-- The event at the index `i` gives way to the last one. -/
def removeAt (i : ℕ) : HeapScheduler ι := ((q.exch i q.last).popBack).topDown i

/-- The index that the loop of `Remove` stops at, from `i` on. -/
def findFrom (ev : Event ι) : ℕ → List (Event ι) → Option ℕ
  | _, [] => none
  | i, x :: xs => if ev.uid = x.uid then some i else findFrom ev (i + 1) xs

/-- `Remove`. It asserts that the event is found, with its `EventImpl`. -/
def remove [DecidableEq ι] (q : HeapScheduler ι) (ev : Event ι) : Option (HeapScheduler ι) :=
  (findFrom ev 1 q.heap.tail).bind fun i =>
    if (q.entry i).impl = ev.impl then some (q.removeAt i) else none

end Operations

instance [DecidableEq ι] : PriorityQueue (HeapScheduler ι) (Event ι) where
  insert q ev := some (q.insert ev)
  isEmpty := isEmpty
  peekNext q := if q.isEmpty then none else some (q.entry root)
  removeNext := removeNext
  remove := remove

/-! ### The array -/

section Array

variable {q q' q'' : HeapScheduler ι} {ev : Event ι} {a b i k : ℕ}

/-- The keys by index. -/
def rankAt (q : HeapScheduler ι) (i : ℕ) : ℕ ×ₗ ℕ := (q.entry i).rank

@[simp] theorem length_exch : (q.exch a b).heap.length = q.heap.length := by simp [exch]

omit [Inhabited ι] in
@[simp] theorem length_popBack : q.popBack.heap.length = q.heap.length - 1 :=
  List.length_dropLast

theorem entry_eq_getElem (h : i < q.heap.length) : q.entry i = q.heap[i] :=
  List.getD_eq_getElem _ _ h

theorem entry_exch_left (ha : a < q.heap.length) : (q.exch a b).entry a = q.entry b := by
  rw [entry_eq_getElem (by simpa using ha)]
  by_cases hab : a = b
  · subst hab
    simp [exch]
  · simp [exch, Ne.symm hab]

theorem entry_exch_right (hb : b < q.heap.length) : (q.exch a b).entry b = q.entry a := by
  rw [entry_eq_getElem (by simpa using hb)]
  simp [exch]

theorem entry_exch_of_ne (ha : k ≠ a) (hb : k ≠ b) : (q.exch a b).entry k = q.entry k := by
  simp [exch, entry, List.getD_eq_getElem?_getD, ha.symm, hb.symm]

theorem entry_pushBack_of_lt (h : k < q.heap.length) : (q.pushBack ev).entry k = q.entry k :=
  List.getD_append _ _ _ _ h

theorem entry_popBack_of_lt (h : k < q.heap.length - 1) : q.popBack.entry k = q.entry k := by
  rw [entry_eq_getElem (by simpa using h), entry_eq_getElem (by omega)]
  exact List.getElem_dropLast _

theorem exch_perm (ha : a < q.heap.length) (hb : b < q.heap.length) :
    (q.exch a b).heap.Perm q.heap := by
  rw [exch, entry_eq_getElem ha, entry_eq_getElem hb]
  exact List.set_set_perm ha hb

/-- The same items, behind the same wasted one. -/
def SameItems (q q' : HeapScheduler ι) : Prop := q'.heap.Perm q.heap ∧ q'.entry 0 = q.entry 0

theorem SameItems.refl (q : HeapScheduler ι) : SameItems q q := ⟨.refl _, rfl⟩

theorem SameItems.trans (h : SameItems q q') (h' : SameItems q' q'') : SameItems q q'' :=
  ⟨h'.1.trans h.1, h'.2.trans h.2⟩

theorem SameItems.last_eq (h : SameItems q q') : q'.last = q.last :=
  congrArg (· - 1) h.1.length_eq

theorem sameItems_exch (ha : 1 ≤ a) (hb : 1 ≤ b) (ha' : a < q.heap.length)
    (hb' : b < q.heap.length) : SameItems q (q.exch a b) :=
  ⟨exch_perm ha' hb', entry_exch_of_ne (by omega) (by omega)⟩

/-- Behind the wasted item are the same events in some order. -/
theorem SameItems.exists_perm {d : Event ι} {l : List (Event ι)} (h : SameItems q q')
    (hq : q.heap = d :: l) : ∃ l', q'.heap = d :: l' ∧ l'.Perm l := by
  obtain ⟨hperm, hzero⟩ := h
  rw [hq] at hperm
  obtain ⟨d', l', hq'⟩ : ∃ d' l', q'.heap = d' :: l' := by
    cases hheap : q'.heap with
    | nil => simp [hheap] at hperm
    | cons d' l' => exact ⟨d', l', rfl⟩
  have hd : d' = d := by simpa [entry, hq, hq'] using hzero
  subst hd
  rw [hq'] at hperm
  exact ⟨l', hq', hperm.cons_inv⟩

end Array

/-! ### The loops -/

section Loops

variable {q : HeapScheduler ι} {a b n index : ℕ}

theorem isLessStrictly_iff : q.isLessStrictly a b = true ↔ q.rankAt a < q.rankAt b :=
  Event.lt_iff

/-- An exchange of two events, and nothing else. -/
theorem rankAt_exch (ha : a < q.heap.length) (hb : b < q.heap.length) :
    (q.exch a b).rankAt a = q.rankAt b ∧ (q.exch a b).rankAt b = q.rankAt a ∧
      ∀ j, j ≠ a → j ≠ b → (q.exch a b).rankAt j = q.rankAt j :=
  ⟨congrArg Event.rank (entry_exch_left ha), congrArg Event.rank (entry_exch_right hb),
    fun _ hja hjb => congrArg Event.rank (entry_exch_of_ne hja hjb)⟩

@[simp] theorem last_exch : (q.exch a b).last = q.last := by rw [last, length_exch, last]

/-- **`BottomUp` repairs the heap** where only the event at `index` may come before its parent. -/
theorem bottomUpLoop_spec (hfuel : index ≤ n) (h1 : 1 ≤ index) (hlast : index ≤ q.last)
    (hup : BinaryHeap.UpReady q.rankAt q.last index) :
    BinaryHeap.Ordered (bottomUpLoop n q index).rankAt q.last ∧
      SameItems q (bottomUpLoop n q index) := by
  induction n generalizing q index with
  | zero => omega
  | succ n ih =>
    have hlen : index < q.heap.length := by
      unfold last at hlast
      omega
    rw [bottomUpLoop]
    split_ifs with hcond
    · rw [Bool.and_eq_true, isRoot, Bool.not_eq_true', decide_eq_false_iff_not, root,
        isLessStrictly_iff, parent] at hcond
      obtain ⟨hroot, hlt⟩ := hcond
      obtain ⟨hg, hg', hother⟩ := rankAt_exch (q := q) hlen (by omega : index / 2 < _)
      have hready : BinaryHeap.UpReady (q.exch index (index / 2)).rankAt q.last (index / 2) :=
        hup.exchange (by omega) hlast hlt hg hg' hother
      have hl : (q.exch index (index / 2)).last = q.last := last_exch
      obtain ⟨hord, hitems⟩ := ih (q := q.exch index (index / 2)) (by omega) (by omega)
        (by omega) (hl.symm ▸ hready)
      rw [hl] at hord
      exact ⟨hord, (sameItems_exch (by omega) (by omega) hlen (by omega)).trans hitems⟩
    · refine ⟨hup.ordered fun h2 _ => not_lt.1 fun hlt => hcond ?_, .refl q⟩
      rw [Bool.and_eq_true, isLessStrictly_iff, isRoot, Bool.not_eq_true',
        decide_eq_false_iff_not, root]
      exact ⟨by omega, hlt⟩

/-- The smaller of two children. -/
theorem smallest_spec (q : HeapScheduler ι) (a b : ℕ) :
    (q.smallest a b = a ∨ q.smallest a b = b) ∧
      q.rankAt (q.smallest a b) ≤ q.rankAt a ∧ q.rankAt (q.smallest a b) ≤ q.rankAt b := by
  rw [smallest]
  split_ifs with hlt
  · exact ⟨.inl rfl, le_rfl, (isLessStrictly_iff.1 hlt).le⟩
  · exact ⟨.inr rfl, not_lt.1 fun h => hlt (isLessStrictly_iff.2 h), le_rfl⟩

/-- An exchange with a child that is the smallest and not larger. -/
theorem downReady_exch {c : ℕ} (hdown : BinaryHeap.DownReady q.rankAt q.last index)
    (h1 : 1 ≤ index) (hc : c / 2 = index) (hlast : c ≤ q.last)
    (hmin : ∀ j, j ≤ q.last → j / 2 = index → q.rankAt c ≤ q.rankAt j)
    (hle : ¬ q.isLessStrictly index c = true) :
    BinaryHeap.DownReady (q.exch index c).rankAt q.last c ∧ SameItems q (q.exch index c) := by
  have hlen : c < q.heap.length := by
    unfold last at hlast
    omega
  obtain ⟨hg, hg', hother⟩ := rankAt_exch (q := q) (by omega : index < _) hlen
  rw [isLessStrictly_iff, not_lt] at hle
  exact ⟨hdown.exchange hc (by omega) hlast hle (fun j _ => hmin j) hg hg' hother,
    sameItems_exch h1 (by omega) (by omega) hlen⟩

omit [Inhabited ι] in
theorem isBottom_iff (h : 1 ≤ index) : q.isBottom index = true ↔ q.last < index := by
  rw [isBottom, decide_eq_true_eq, last]
  omega

/-- **`TopDown` repairs the heap** where only the children of `index` may come before it. -/
theorem topDownLoop_spec (hfuel : q.last < index + n) (h1 : 1 ≤ index)
    (hdown : BinaryHeap.DownReady q.rankAt q.last index) :
    BinaryHeap.Ordered (topDownLoop n q index).rankAt q.last ∧
      SameItems q (topDownLoop n q index) := by
  have hiff := BinaryHeap.ordered_iff_of_downReady hdown
  induction n generalizing q index with
  | zero => exact ⟨hiff.2 fun j hj hn hji => by omega, .refl q⟩
  | succ n ih =>
    rw [topDownLoop, rightChild, leftChild]
    by_cases hright : q.isBottom (index * 2 + 1) = true
    · have hlast : q.last < index * 2 + 1 := (isBottom_iff (by omega)).1 hright
      rw [if_neg (by rw [hright]; exact Bool.false_ne_true)]
      split_ifs with hindex hleft hless
      · rw [isBottom_iff h1] at hindex
        exact ⟨hiff.2 fun j hj hn hji => by omega, .refl q⟩
      · rw [isBottom_iff (by omega)] at hleft
        exact ⟨hiff.2 fun j hj hn hji => by omega, .refl q⟩
      · -- only the left child is there, and comes after the event
        refine ⟨hiff.2 fun j hj hn hji => ?_, .refl q⟩
        rw [show j = index * 2 by omega]
        exact (isLessStrictly_iff.1 hless).le
      · rw [isBottom_iff (by omega)] at hleft
        obtain ⟨hdown', hsame⟩ := downReady_exch hdown h1 (c := index * 2) (by omega) (by omega)
          (fun j hn hji => by rw [show j = index * 2 by omega]) hless
        exact ⟨(BinaryHeap.ordered_iff_of_downReady hdown').2 fun j hj hn hji => by omega, hsame⟩
    · have hlast : index * 2 + 1 ≤ q.last :=
        Nat.le_of_not_lt fun h => hright ((isBottom_iff (by omega)).2 h)
      obtain ⟨hor, hl, hr⟩ := smallest_spec q (index * 2) (index * 2 + 1)
      rw [if_pos (by rw [Bool.not_eq_true] at hright; rw [hright]; rfl)]
      generalize q.smallest (index * 2) (index * 2 + 1) = c at *
      have hmin : ∀ j, j ≤ q.last → j / 2 = index → q.rankAt c ≤ q.rankAt j := by
        intro j hn hji
        rcases (by omega : j = index * 2 ∨ j = index * 2 + 1) with rfl | rfl
        · exact hl
        · exact hr
      dsimp only
      split_ifs with hless
      · exact ⟨hiff.2 fun j hj hn hji => (isLessStrictly_iff.1 hless).le.trans (hmin j hn hji),
          .refl q⟩
      · -- the smaller of the two children takes its place
        obtain ⟨hdown', hsame⟩ := downReady_exch hdown h1 (by omega) (by omega) hmin hless
        have hl : (q.exch index c).last = q.last := last_exch
        rw [← hl] at hdown'
        obtain ⟨hord, hitems⟩ := ih (by omega) (by omega) hdown'
          (BinaryHeap.ordered_iff_of_downReady hdown')
        rw [hl] at hord
        exact ⟨hord, hsame.trans hitems⟩

end Loops

/-! ### The heap and its events -/

/-- The array is a heap behind the wasted item, and its events are those of the multiset. -/
def Rep {τ : Type*} (q : HeapScheduler ι) (_ : τ) (s : Multiset (Event ι)) : Prop :=
  BinaryHeap.Ordered q.rankAt q.last ∧ ∃ d l, q.heap = d :: l ∧ (l : Multiset (Event ι)) = s

theorem rep_init {τ : Type*} (f : τ) : Rep (init : HeapScheduler ι) f 0 :=
  ⟨BinaryHeap.ordered_zero, empty, [], rfl, rfl⟩

section Heap

variable {τ : Type*} {q : HeapScheduler ι} {d ev : Event ι} {l : List (Event ι)} {f : τ} {i : ℕ}
  {s : Multiset (Event ι)}

omit [Inhabited ι] in
theorem last_eq_length (hq : q.heap = d :: l) : q.last = l.length := by rw [last, hq]; rfl

theorem entry_mem (hq : q.heap = d :: l) (h1 : 1 ≤ i) (hi : i ≤ q.last) : q.entry i ∈ l := by
  obtain ⟨k, rfl⟩ := Nat.exists_eq_add_of_le' h1
  have hlt : k < l.length := by
    have := last_eq_length hq
    omega
  rw [entry, hq, List.getD_cons_succ, List.getD_eq_getElem _ _ hlt]
  exact List.getElem_mem hlt

theorem exists_entry_eq (hq : q.heap = d :: l) (hev : ev ∈ l) :
    ∃ i, 1 ≤ i ∧ i ≤ q.last ∧ q.entry i = ev := by
  obtain ⟨k, hk, rfl⟩ := List.getElem_of_mem hev
  refine ⟨k + 1, by omega, last_eq_length hq ▸ hk, ?_⟩
  rw [entry, hq, List.getD_cons_succ, List.getD_eq_getElem _ _ hk]

/-- **The root comes before all other events.** -/
theorem root_le (hord : BinaryHeap.Ordered q.rankAt q.last) (hq : q.heap = d :: l) :
    ∀ x ∈ l, (q.entry root).rank ≤ x.rank := by
  intro x hx
  obtain ⟨i, h1, hi, rfl⟩ := exists_entry_eq hq hx
  exact hord.root_le h1 hi

theorem rep_insert (h : Rep q f s) : Rep (q.insert ev) f (ev ::ₘ s) := by
  obtain ⟨hord, d, l, hq, rfl⟩ := h
  have hpush : (q.pushBack ev).heap = d :: (l ++ [ev]) := by rw [pushBack, hq]; rfl
  have hlast : (q.pushBack ev).last = q.last + 1 := by
    rw [last_eq_length hpush, last_eq_length hq, List.length_append, List.length_singleton]
  have hready : BinaryHeap.UpReady (q.pushBack ev).rankAt (q.pushBack ev).last
      (q.pushBack ev).last := by
    rw [hlast]
    refine (hord.congr le_rfl fun j _ hj => congrArg Event.rank ?_).upReady_succ
    exact entry_pushBack_of_lt (by rw [hq]; exact Nat.lt_succ_of_le (last_eq_length hq ▸ hj))
  have hlen : (q.pushBack ev).last ≤ (q.pushBack ev).heap.length := Nat.sub_le _ _
  obtain ⟨hord', hsame⟩ := bottomUpLoop_spec hlen (by omega) le_rfl hready
  obtain ⟨l', hl', hperm⟩ := hsame.exists_perm hpush
  refine ⟨?_, d, l', hl', Multiset.coe_eq_coe.2 (hperm.trans (List.perm_append_singleton ev l))⟩
  rwa [insert, bottomUp, hsame.last_eq]

/-! ### Removing an event -/

/-- **When `Remove` keeps the heap**: the event is the last or the root, or the last does not come
before the parent of the event. -/
def KeepsOrder (q : HeapScheduler ι) (i : ℕ) : Prop :=
  i = q.last ∨ i = root ∨ q.rankAt (i / 2) ≤ q.rankAt q.last

/-- The last event takes the place of the one at `i`, and the others stay. -/
theorem rankAt_popBack_exch (h1 : 1 ≤ i) (hi : i ≤ q.last) :
    (i < q.last → (q.exch i q.last).popBack.rankAt i = q.rankAt q.last) ∧
      ∀ j, j ≤ q.last - 1 → j ≠ i → (q.exch i q.last).popBack.rankAt j = q.rankAt j := by
  have hlen : q.last < q.heap.length := by
    unfold last at *
    omega
  have hpop {j : ℕ} (hj : j < q.last) :
      (q.exch i q.last).popBack.rankAt j = (q.exch i q.last).rankAt j :=
    congrArg Event.rank (entry_popBack_of_lt (by rw [length_exch]; exact hj))
  obtain ⟨hleft, -, hother⟩ := rankAt_exch (q := q) (a := i) (by omega) hlen
  exact ⟨fun hlt => (hpop hlt).trans hleft,
    fun j hj hne => (hpop (by omega)).trans (hother j hne (by omega))⟩

theorem last_popBack_exch : (q.exch i q.last).popBack.last = q.last - 1 := by
  rw [last, length_popBack, length_exch, last]

/-- All events but the one at `i` are still there. -/
theorem exists_popBack_exch (hq : q.heap = d :: l) (h1 : 1 ≤ i) (hi : i ≤ q.last) :
    ∃ l', (q.exch i q.last).popBack.heap = d :: l' ∧ l.Perm (q.entry i :: l') := by
  have hlen : q.last < q.heap.length := by
    unfold last at *
    omega
  obtain ⟨l₁, hl₁, hperm⟩ :=
    (sameItems_exch (q := q) h1 (h1.trans hi) (by omega) hlen).exists_perm hq
  obtain ⟨l', x, rfl⟩ : ∃ l' x, l₁ = l' ++ [x] := by
    rcases List.eq_nil_or_concat l₁ with rfl | h
    · have hzero := hperm.length_eq
      rw [← last_eq_length hq, List.length_nil] at hzero
      omega
    · simpa only [List.concat_eq_append] using h
  have hx : x = q.entry i := by
    rw [← entry_exch_right (a := i) hlen, entry, hl₁, last_eq_length hq, ← hperm.length_eq]
    simp
  refine ⟨l', ?_, hperm.symm.trans (hx ▸ List.perm_append_singleton x l')⟩
  rw [popBack, hl₁, ← List.cons_append, List.dropLast_concat]

theorem rep_removeAt (hord : BinaryHeap.Ordered q.rankAt q.last) (hq : q.heap = d :: l)
    (h1 : 1 ≤ i) (hi : i ≤ q.last) (hkeep : KeepsOrder q i) :
    ∃ l' : List (Event ι), Rep (q.removeAt i) f l' ∧ l.Perm (q.entry i :: l') := by
  obtain ⟨hat, hother⟩ := rankAt_popBack_exch h1 hi
  have hready : BinaryHeap.DownReady (q.exch i q.last).popBack.rankAt (q.last - 1) i := by
    refine hord.downReady (Nat.sub_le _ _) (fun h2 hlt => ?_) hother
    rw [hat (by omega)]
    rcases hkeep with heq | heq | hle
    · omega
    · unfold root at heq
      omega
    · exact hle
  rw [← last_popBack_exch (i := i)] at hready
  obtain ⟨hord', hsame⟩ := topDownLoop_spec (n := (q.exch i q.last).popBack.heap.length)
    (by unfold last; omega) h1 hready
  obtain ⟨l₁, hl₁, hperm⟩ := exists_popBack_exch hq h1 hi
  obtain ⟨l', hl', hperm'⟩ := hsame.exists_perm hl₁
  refine ⟨l', ⟨?_, d, l', hl', rfl⟩, hperm.trans (hperm'.symm.cons _)⟩
  rwa [removeAt, topDown, hsame.last_eq]

/-- An event that comes before its children stays where it is. -/
theorem topDownLoop_eq_self {n index : ℕ} (h1 : 1 ≤ index)
    (h : ∀ j, j ≤ q.last → j / 2 = index → q.rankAt index < q.rankAt j) :
    topDownLoop n q index = q := by
  cases n with
  | zero => rfl
  | succ n =>
    rw [topDownLoop, rightChild, leftChild]
    by_cases hright : q.isBottom (index * 2 + 1) = true
    · rw [if_neg (by rw [hright]; exact Bool.false_ne_true)]
      split_ifs with hindex hleft hless
      · rfl
      · rfl
      · rfl
      · rw [isBottom_iff (by omega), not_lt] at hleft
        exact absurd (isLessStrictly_iff.2 (h _ hleft (by omega))) hless
    · have hlast : index * 2 + 1 ≤ q.last :=
        Nat.le_of_not_lt fun h => hright ((isBottom_iff (by omega)).2 h)
      rw [if_pos (by rw [Bool.not_eq_true] at hright; rw [hright]; rfl)]
      refine if_pos (isLessStrictly_iff.2 ?_)
      rcases (smallest_spec q (index * 2) (index * 2 + 1)).1 with heq | heq
      · rw [heq]
        exact h _ (by omega) (by omega)
      · rw [heq]
        exact h _ hlast (by omega)

/-- **When `Remove` keeps the heap**: exactly if the event is the last or the root, or the last
does not come before the parent of the event. -/
theorem ordered_removeAt_iff (hord : BinaryHeap.Ordered q.rankAt q.last) (hq : q.heap = d :: l)
    (h1 : 1 ≤ i) (hi : i ≤ q.last) :
    BinaryHeap.Ordered (q.removeAt i).rankAt (q.removeAt i).last ↔ KeepsOrder q i := by
  refine ⟨fun hord' => ?_, fun hkeep => ?_⟩
  · by_contra hkeep
    rw [KeepsOrder, root, not_or, not_or, not_le] at hkeep
    obtain ⟨hne, hroot, hlt⟩ := hkeep
    obtain ⟨hat, hother⟩ := rankAt_popBack_exch h1 hi
    have hat := hat (by omega)
    -- the last event comes before the parent of its new place, and so before all below it
    have hself : q.removeAt i = (q.exch i q.last).popBack := by
      refine topDownLoop_eq_self h1 fun j hj hji => ?_
      rw [last_popBack_exch] at hj
      rw [hat, hother j hj (by omega)]
      calc q.rankAt q.last < q.rankAt (i / 2) := hlt
        _ ≤ q.rankAt i := hord i (by omega) hi
        _ = q.rankAt (j / 2) := by rw [hji]
        _ ≤ q.rankAt j := hord j (by omega) (by omega)
    rw [hself, last_popBack_exch] at hord'
    have hle := hord' i (by omega) (by omega)
    rw [hat, hother (i / 2) (by omega) (by omega)] at hle
    exact absurd hlt (not_lt.2 hle)
  · obtain ⟨l', hrep, -⟩ := rep_removeAt (f := ()) hord hq h1 hi hkeep
    exact hrep.1

omit [Inhabited ι] in
/-- The loop of `Remove` stops at an event with the identifier. -/
theorem findFrom_spec {k : ℕ} (h : findFrom ev k l = some i) :
    ∃ j x, i = k + j ∧ l[j]? = some x ∧ x.uid = ev.uid := by
  induction l generalizing k with
  | nil => cases h
  | cons x xs ih =>
    rw [findFrom] at h
    split_ifs at h with hx
    · cases h
      exact ⟨0, x, rfl, rfl, hx.symm⟩
    · obtain ⟨j, y, rfl, hy, huid⟩ := ih h
      exact ⟨j + 1, y, by omega, hy, huid⟩

omit [Inhabited ι] in
theorem exists_findFrom (hev : ev ∈ l) (k : ℕ) : ∃ i, findFrom ev k l = some i := by
  induction l generalizing k with
  | nil => cases hev
  | cons x xs ih =>
    rw [findFrom]
    split_ifs with hx
    · exact ⟨k, rfl⟩
    · rcases List.mem_cons.1 hev with rfl | hmem
      · exact absurd rfl hx
      · exact ih hmem (k + 1)

/-- The event is found at its index, if no other has its identifier. -/
theorem findFrom_entry (hq : q.heap = d :: l) (hl : (l : Multiset (Event ι)) = ev ::ₘ s)
    (hfresh : Fresh s ev) (h : findFrom ev 1 q.heap.tail = some i) :
    1 ≤ i ∧ i ≤ q.last ∧ q.entry i = ev := by
  rw [hq, List.tail_cons] at h
  obtain ⟨j, x, rfl, hx, huid⟩ := findFrom_spec h
  obtain ⟨hj, rfl⟩ := List.getElem?_eq_some_iff.1 hx
  refine ⟨by omega, by rw [last_eq_length hq]; omega, ?_⟩
  rw [Nat.add_comm, entry, hq, List.getD_cons_succ, List.getD_eq_getElem _ _ hj]
  exact eq_of_fresh hfresh (hl ▸ Multiset.mem_coe.2 (List.getElem_mem hj)) huid

end Heap

section Laws

variable [DecidableEq ι] {τ : Type*} [Preorder τ] (admits : Event ι → Prop) (time : Event ι → τ)

/-- An event may be removed if that keeps the heap. -/
def CanRemove (q : HeapScheduler ι) (ev : Event ι) : Prop :=
  ∀ i, findFrom ev 1 q.heap.tail = some i → KeepsOrder q i

instance (q : HeapScheduler ι) (i : ℕ) : Decidable (q.KeepsOrder i) :=
  inferInstanceAs (Decidable (_ ∨ _ ∨ _))

instance (q : HeapScheduler ι) (ev : Event ι) : Decidable (q.CanRemove ev) :=
  decidable_of_iff (∀ i ∈ findFrom ev 1 q.heap.tail, KeepsOrder q i) Iff.rfl

/-- **The heap implements the event list**, as long as `Remove` keeps the heap. It relies neither on
the times of the events nor on their order. -/
theorem lawful :
    PriorityQueue.Lawful admits time Event.rank Event.uid (Rep (ι := ι)) CanRemove where
  isEmpty_iff := by
    rintro q f s ⟨-, d, l, hq, rfl⟩
    change q.isEmpty = true ↔ _
    rw [isEmpty, decide_eq_true_eq, hq, Multiset.coe_eq_zero, List.length_cons,
      Nat.add_eq_right, List.length_eq_zero_iff]
  insert := by
    intro q f s e r' hrep _ _ _ h
    cases h
    exact rep_insert hrep
  peekNext := by
    rintro q f s e ⟨hord, d, l, hq, rfl⟩ h
    change (if q.isEmpty then none else some (q.entry root)) = some e at h
    split_ifs at h with hempty
    cases h
    have hlen : 1 ≤ q.last := by
      rw [isEmpty, decide_eq_true_eq, hq, List.length_cons] at hempty
      rw [last_eq_length hq]
      omega
    exact ⟨Multiset.mem_coe.2 (entry_mem hq le_rfl hlen), root_le hord hq⟩
  removeNext := by
    rintro q f s e r' ⟨hord, d, l, hq, rfl⟩ h
    change q.removeNext = some (e, r') at h
    rw [removeNext] at h
    split_ifs at h with hlen
    obtain ⟨rfl, rfl⟩ := Prod.mk.inj (Option.some.inj h)
    have hlast : root ≤ q.last := by
      rw [last]
      omega
    obtain ⟨l', hrep, hperm⟩ :=
      rep_removeAt (f := time (q.entry root)) hord hq le_rfl hlast (.inr (.inl rfl))
    refine ⟨l', Multiset.coe_eq_coe.2 hperm, fun x hx => root_le hord hq x ?_, hrep⟩
    exact hperm.mem_iff.2 (List.mem_cons_of_mem _ hx)
  remove := by
    rintro q f s e r' ⟨hord, d, l, hq, hl⟩ hfresh hcan h
    obtain ⟨i, hi, h⟩ := Option.bind_eq_some_iff.1 (show q.remove e = some r' from h)
    split_ifs at h
    cases h
    obtain ⟨h1, hlast, rfl⟩ := findFrom_entry hq hl hfresh hi
    obtain ⟨l', hrep, hperm⟩ := rep_removeAt (f := f) hord hq h1 hlast (hcan i hi)
    have hcons : q.entry i ::ₘ (l' : Multiset (Event ι)) = q.entry i ::ₘ s :=
      (Multiset.coe_eq_coe.2 hperm).symm.trans hl
    rwa [← (Multiset.cons_inj_right (q.entry i)).1 hcons]

theorem reliable :
    PriorityQueue.Reliable (ρ := HeapScheduler ι) admits time Event.uid Rep where
  insert _ _ _ _ := ⟨_, rfl⟩
  peekNext := by
    rintro q f s ⟨-, d, l, hq, rfl⟩ h
    refine ⟨q.entry root, if_neg ?_⟩
    rw [isEmpty, decide_eq_true_eq, hq, List.length_cons, Nat.add_eq_right,
      List.length_eq_zero_iff]
    exact fun hl => h (hl ▸ rfl)
  removeNext := by
    rintro q f s ⟨-, d, l, hq, rfl⟩ h
    refine ⟨_, if_pos ?_⟩
    rw [hq, List.length_cons, root, Nat.lt_succ_iff, Nat.succ_le_iff, List.length_pos_iff]
    exact fun hl => h (hl ▸ rfl)
  remove := by
    rintro q f s e ⟨-, d, l, hq, hl⟩ hfresh
    have hmem : e ∈ q.heap.tail := by
      rw [hq, List.tail_cons, ← Multiset.mem_coe, hl]
      exact Multiset.mem_cons_self e s
    obtain ⟨i, hi⟩ := exists_findFrom hmem 1
    obtain ⟨-, -, hentry⟩ := findFrom_entry hq hl hfresh hi
    exact ⟨q.removeAt i, Option.bind_eq_some_iff.2 ⟨i, hi, if_pos (by rw [hentry])⟩⟩

/-- **The heap is a priority queue**: whatever is inserted, taken and removed, in any order, as long
as every `Remove` keeps the heap, the event handed out is always the earliest of those inserted and
neither handed out nor removed. -/
theorem behaves_as_priority_queue {calls : List (PriorityQueue.Call (Event ι))}
    {acts : List (PriorityQueue.Act (Event ι))} {q : HeapScheduler ι}
    (hobeys : PriorityQueue.Obeys (fun _ => True) (fun _ => 0) Event.uid CanRemove
      (init : HeapScheduler ι) (0 : ℕ) 0 calls)
    (hrun : PriorityQueue.run init calls = some (acts, q)) :
    ∃ t, PriorityQueue.Behaves Event.rank 0 acts t ∧ q.Rep (0 : ℕ) t := by
  obtain ⟨f, t, hbeh, ht⟩ := (lawful (fun _ => True) fun _ => 0).behaves (rep_init 0) hobeys hrun
  exact ⟨t, hbeh, ht⟩

/-- Three events, of which one is taken and one removed. -/
theorem behaves_as_priority_queue_three :
    ∃ q : HeapScheduler ℕ, PriorityQueue.run (init : HeapScheduler ℕ)
        [.insert ⟨0, 7, 4, 0⟩, .insert ⟨1, 3, 5, 0⟩, .insert ⟨2, 9, 6, 0⟩, .removeNext,
          .remove ⟨0, 7, 4, 0⟩] =
        some ([.inserted ⟨0, 7, 4, 0⟩, .inserted ⟨1, 3, 5, 0⟩, .inserted ⟨2, 9, 6, 0⟩,
          .taken ⟨1, 3, 5, 0⟩, .removed ⟨0, 7, 4, 0⟩], q) ∧
      ∃ t, PriorityQueue.Behaves Event.rank 0 [.inserted ⟨0, 7, 4, 0⟩, .inserted ⟨1, 3, 5, 0⟩,
        .inserted ⟨2, 9, 6, 0⟩, .taken ⟨1, 3, 5, 0⟩, .removed ⟨0, 7, 4, 0⟩] t ∧
        q.Rep (0 : ℕ) t := by
  refine ⟨⟨[⟨0, 0, 0, 0⟩, ⟨2, 9, 6, 0⟩]⟩, by decide +kernel, ?_⟩
  refine behaves_as_priority_queue ?_ (show PriorityQueue.run _ [.insert ⟨0, 7, 4, 0⟩,
    .insert ⟨1, 3, 5, 0⟩, .insert ⟨2, 9, 6, 0⟩, .removeNext, .remove ⟨0, 7, 4, 0⟩] = _ by
      decide +kernel)
  decide +kernel

/-- **When `Remove` keeps the heap**: an event that is held, with an identifier of its own, can
always be removed, and what is left is a heap exactly if the event was the last or the root, or
the last one does not come before the parent of the event. -/
theorem remove_keeps_heap_iff {q : HeapScheduler ι} {ev : Event ι} {s : Multiset (Event ι)}
    (h : q.Rep () (ev ::ₘ s)) (hfresh : Fresh s ev) :
    ∃ i q', q.entry i = ev ∧ 1 ≤ i ∧ i ≤ q.last ∧ q.remove ev = some q' ∧
      (BinaryHeap.Ordered q'.rankAt q'.last ↔
        i = q.last ∨ i = root ∨ (q.entry (i / 2)).rank ≤ (q.entry q.last).rank) := by
  obtain ⟨hord, d, l, hq, hl⟩ := h
  have hmem : ev ∈ q.heap.tail := by
    rw [hq, List.tail_cons, ← Multiset.mem_coe, hl]
    exact Multiset.mem_cons_self ev s
  obtain ⟨i, hi⟩ := exists_findFrom hmem 1
  obtain ⟨h1, hlast, hentry⟩ := findFrom_entry hq hl hfresh hi
  exact ⟨i, q.removeAt i, hentry, h1, hlast,
    Option.bind_eq_some_iff.2 ⟨i, hi, if_pos (by rw [hentry])⟩,
    ordered_removeAt_iff hord hq h1 hlast⟩

/-- The event at the index `5` gives way to the last one, which comes before its new parent. -/
theorem remove_keeps_heap_iff_broken :
    ∃ q q' : HeapScheduler ℕ,
      q.heap = [⟨0, 0, 0, 0⟩, ⟨1, 1, 4, 0⟩, ⟨2, 8, 5, 0⟩, ⟨3, 2, 6, 0⟩, ⟨4, 9, 7, 0⟩,
        ⟨5, 9, 8, 0⟩, ⟨6, 3, 9, 0⟩] ∧
      q.remove ⟨5, 9, 8, 0⟩ = some q' ∧ BinaryHeap.Ordered q.rankAt q.last ∧
      ¬ BinaryHeap.Ordered q'.rankAt q'.last := by
  have hrep : Rep (⟨[⟨0, 0, 0, 0⟩, ⟨1, 1, 4, 0⟩, ⟨2, 8, 5, 0⟩, ⟨3, 2, 6, 0⟩, ⟨4, 9, 7, 0⟩,
      ⟨5, 9, 8, 0⟩, ⟨6, 3, 9, 0⟩]⟩ : HeapScheduler ℕ) ()
      (⟨5, 9, 8, 0⟩ ::ₘ {⟨1, 1, 4, 0⟩, ⟨2, 8, 5, 0⟩, ⟨3, 2, 6, 0⟩, ⟨4, 9, 7, 0⟩, ⟨6, 3, 9, 0⟩}) :=
    ⟨by decide +kernel, _, _, rfl, by decide +kernel⟩
  obtain ⟨i, q', hentry, h1, hlast, hremove, hiff⟩ :=
    remove_keeps_heap_iff hrep (by decide +kernel)
  refine ⟨_, q', rfl, hremove, hrep.1, fun hord => ?_⟩
  -- the event is at one index only
  have hi : ∀ i ≤ 6, (entry (⟨[⟨0, 0, 0, 0⟩, ⟨1, 1, 4, 0⟩, ⟨2, 8, 5, 0⟩, ⟨3, 2, 6, 0⟩,
      ⟨4, 9, 7, 0⟩, ⟨5, 9, 8, 0⟩, ⟨6, 3, 9, 0⟩]⟩ : HeapScheduler ℕ) i) = ⟨5, 9, 8, 0⟩ → i = 5 := by
    decide +kernel
  obtain rfl := hi i hlast hentry
  exact absurd (hiff.1 hord) (by decide +kernel)

end Laws

end HeapScheduler

end HpccSim
