import HpccSim.Lib.PriorityQueue
import Mathlib.Algebra.Ring.Nat
import Mathlib.Data.List.Sort
import Mathlib.Data.Prod.Lex

/-!
# The event lists of the simulator

A `Scheduler` keeps the events that are to run, ordered by their times and, at the same time, by
their identifiers. Its abstract base class is `PriorityQueue`; this file models the list and the
map that implement it. A failed assertion, or the use of an iterator that points at nothing, is a
failure of the operation.

## Main definitions

* `Scheduler.EventKey`, `Scheduler.Event`, `EventKey.lt`, `EventKey.rank`.
* `ListScheduler`: a sorted list, searched from its front.
* `MapScheduler`: a `std::map` from keys to events.
* `Scheduler.Lawful`, `Scheduler.Reliable`: the laws of a queue, for events.

## Main results

* `ListScheduler.lawful`, `ListScheduler.reliable`, `MapScheduler.lawful`, `MapScheduler.reliable`.
-/

namespace HpccSim

namespace Scheduler

/-- `Scheduler::EventKey`. -/
structure EventKey where
  ts : ℕ
  uid : ℕ
  context : ℕ
  deriving DecidableEq, Repr

/-- `operator <` on keys. -/
def EventKey.lt (a b : EventKey) : Bool :=
  if a.ts < b.ts then true else if a.ts = b.ts ∧ a.uid < b.uid then true else false

/-- The place of a key in the order, in which the context plays no part. -/
def EventKey.rank (a : EventKey) : ℕ ×ₗ ℕ := toLex (a.ts, a.uid)

/-- `Scheduler::Event`, with a reference to its `EventImpl`. -/
structure Event (ι : Type*) where
  impl : ι
  key : EventKey
  deriving DecidableEq, Repr

variable {ι : Type*}

/-- `operator <` on events. -/
def Event.lt (a b : Event ι) : Bool := a.key.lt b.key

/-- The time of an event. -/
def Event.ts (e : Event ι) : ℕ := e.key.ts

/-- The identifier of an event. -/
def Event.uid (e : Event ι) : ℕ := e.key.uid

/-- The place of an event in the order. -/
def Event.rank (e : Event ι) : ℕ ×ₗ ℕ := e.key.rank

theorem EventKey.rank_lt_iff {a b : EventKey} :
    a.rank < b.rank ↔ a.ts < b.ts ∨ a.ts = b.ts ∧ a.uid < b.uid :=
  Prod.Lex.toLex_lt_toLex

theorem EventKey.rank_le_iff {a b : EventKey} :
    a.rank ≤ b.rank ↔ a.ts < b.ts ∨ a.ts = b.ts ∧ a.uid ≤ b.uid :=
  Prod.Lex.toLex_le_toLex

theorem EventKey.lt_iff {a b : EventKey} : a.lt b = true ↔ a.rank < b.rank := by
  rw [EventKey.rank_lt_iff, EventKey.lt]
  split_ifs <;> simp_all

theorem Event.lt_iff {a b : Event ι} : a.lt b = true ↔ a.rank < b.rank := EventKey.lt_iff

theorem Event.ts_le_of_rank_le {a b : Event ι} (h : a.rank ≤ b.rank) : a.ts ≤ b.ts := by
  rcases EventKey.rank_le_iff.1 h with h | ⟨h, -⟩
  · exact h.le
  · exact h.le

theorem Event.uid_eq_of_rank_eq (a b : Event ι) (h : a.rank = b.rank) : a.uid = b.uid :=
  congrArg (fun p => (ofLex p).2) h

/-- `Schedule` asserts that the time of an event is not negative as a `Time`. -/
def IsTime (e : Event ι) : Prop := e.ts < 2 ^ 63

instance (e : Event ι) : Decidable (IsTime e) := Nat.decLt _ _

/-- The laws of a queue, for events. -/
abbrev Lawful {ρ : Type*} [PriorityQueue ρ (Event ι)] (Rep : ρ → ℕ → Multiset (Event ι) → Prop)
    (CanRemove : ρ → Event ι → Prop) : Prop :=
  PriorityQueue.Lawful IsTime Event.ts Event.rank Event.uid Rep CanRemove

/-- A queue of events that does not fail. -/
abbrev Reliable {ρ : Type*} [PriorityQueue ρ (Event ι)]
    (Rep : ρ → ℕ → Multiset (Event ι) → Prop) : Prop :=
  PriorityQueue.Reliable IsTime Event.ts Event.uid Rep

/-- No event of `s` has the identifier of `e`. -/
abbrev Fresh (s : Multiset (Event ι)) (e : Event ι) : Prop := PriorityQueue.Fresh Event.uid s e

/-! ### Lists of events in their order -/

/-- The events are in their order. -/
def Sorted (l : List (Event ι)) : Prop := l.Pairwise fun a b => a.rank ≤ b.rank

/-- The loop of `Insert`: the event goes in front of the first one that it comes before. -/
def insertBefore (e : Event ι) : List (Event ι) → List (Event ι)
  | [] => [e]
  | x :: xs => if e.lt x then e :: x :: xs else x :: insertBefore e xs

/-- The loop of `Remove`: the first event with the identifier of `e` is erased. That it is `e` is
asserted. -/
def eraseUid [DecidableEq ι] (e : Event ι) : List (Event ι) → Option (List (Event ι))
  | [] => none
  | x :: xs =>
    if x.uid = e.uid then if e.impl = x.impl then some xs else none
    else (eraseUid e xs).map (x :: ·)

variable {l l' : List (Event ι)} {e : Event ι}

theorem insertBefore_perm (e : Event ι) (l : List (Event ι)) :
    (insertBefore e l).Perm (e :: l) := by
  induction l with
  | nil => rfl
  | cons x xs ih =>
    rw [insertBefore]
    split_ifs
    · rfl
    · exact (ih.cons x).trans (.swap e x xs)

theorem coe_insertBefore (e : Event ι) (l : List (Event ι)) :
    (insertBefore e l : Multiset (Event ι)) = e ::ₘ (l : Multiset (Event ι)) :=
  Multiset.coe_eq_coe.2 (insertBefore_perm e l)

theorem Sorted.insertBefore (h : Sorted l) (e : Event ι) : Sorted (insertBefore e l) := by
  induction l with
  | nil => exact List.pairwise_singleton _ e
  | cons x xs ih =>
    obtain ⟨hx, hxs⟩ := List.pairwise_cons.1 h
    rw [Scheduler.insertBefore]
    split_ifs with hlt
    · have hex : e.rank ≤ x.rank := (Event.lt_iff.1 hlt).le
      refine List.pairwise_cons.2 ⟨fun y hy => ?_, h⟩
      rcases List.mem_cons.1 hy with rfl | hy
      · exact hex
      · exact hex.trans (hx y hy)
    · have hxe : x.rank ≤ e.rank := not_lt.1 fun hn => hlt (Event.lt_iff.2 hn)
      refine List.pairwise_cons.2 ⟨fun y hy => ?_, ih hxs⟩
      rcases List.mem_cons.1 ((insertBefore_perm e xs).mem_iff.1 hy) with rfl | hy
      · exact hxe
      · exact hx y hy

/-- The front of a sorted list is the least of its events. -/
theorem Sorted.head_le (h : Sorted (e :: l)) : ∀ x ∈ l, e.rank ≤ x.rank :=
  (List.pairwise_cons.1 h).1

theorem Sorted.head?_le (hs : Sorted l) (h : l.head? = some e) :
    ∀ x ∈ l, e.rank ≤ x.rank := by
  obtain ⟨l', rfl⟩ := List.head?_eq_some_iff.1 h
  intro x hx
  rcases List.mem_cons.1 hx with rfl | hx
  · exact le_rfl
  · exact hs.head_le x hx

/-- An event added to others that have other identifiers is the only one with its own. -/
theorem eq_of_fresh {s : Multiset (Event ι)} (he : Fresh s e) {x : Event ι} (hx : x ∈ e ::ₘ s)
    (h : x.uid = e.uid) : x = e := by
  rcases Multiset.mem_cons.1 hx with rfl | hx
  · rfl
  · exact absurd h (he x hx)

variable [DecidableEq ι]

/-- Some event has the identifier if the search does not run off the end. -/
theorem exists_of_eraseUid (h : eraseUid e l = some l') :
    ∃ x : Event ι, x.uid = e.uid ∧ l.Perm (x :: l') ∧ l'.Sublist l := by
  induction l generalizing l' with
  | nil => cases h
  | cons x xs ih =>
    rw [eraseUid] at h
    split_ifs at h with hx himpl
    · cases h
      exact ⟨x, hx, .refl _, List.sublist_cons_self x _⟩
    · obtain ⟨ys, hys, rfl⟩ := Option.map_eq_some_iff.1 h
      obtain ⟨y, hy, hperm, hsub⟩ := ih hys
      exact ⟨y, hy, (hperm.cons x).trans (.swap y x ys), hsub.cons_cons x⟩

theorem Sorted.eraseUid (hs : Sorted l) (h : eraseUid e l = some l') : Sorted l' := by
  obtain ⟨x, -, -, hsub⟩ := exists_of_eraseUid h
  exact hs.sublist hsub

/-- What is erased is the event itself, if it is the only one with its identifier. -/
theorem coe_of_eraseUid {s : Multiset (Event ι)} (hl : (l : Multiset (Event ι)) = e ::ₘ s)
    (he : Fresh s e) (h : eraseUid e l = some l') : (l' : Multiset (Event ι)) = s := by
  obtain ⟨x, hx, hperm, -⟩ := exists_of_eraseUid h
  have hcons : x ::ₘ (l' : Multiset (Event ι)) = e ::ₘ s := by
    rw [← hl]
    exact (Multiset.coe_eq_coe.2 hperm).symm
  obtain rfl := eq_of_fresh he (hcons ▸ Multiset.mem_cons_self x _) hx
  exact (Multiset.cons_inj_right x).1 hcons

/-- An event that is held is found, if it is the only one with its identifier. -/
theorem exists_eraseUid (h : e ∈ l) (huniq : ∀ x ∈ l, x.uid = e.uid → x = e) :
    ∃ l', eraseUid e l = some l' := by
  induction l with
  | nil => cases h
  | cons x xs ih =>
    rw [eraseUid]
    by_cases hx : x.uid = e.uid
    · rw [huniq x List.mem_cons_self hx, if_pos rfl, if_pos rfl]
      exact ⟨xs, rfl⟩
    · have hmem : e ∈ xs := by
        rcases List.mem_cons.1 h with rfl | hmem
        · exact absurd rfl hx
        · exact hmem
      obtain ⟨ys, hys⟩ := ih hmem fun y hy => huniq y (List.mem_cons_of_mem x hy)
      exact ⟨x :: ys, by rw [if_neg hx, hys]; rfl⟩

end Scheduler

open Scheduler

variable {ι : Type*}

/-! ### The list -/

/-- `ListScheduler`: `m_events`. -/
structure ListScheduler (ι : Type*) where
  events : List (Event ι)
  deriving DecidableEq

namespace ListScheduler

/-- `Insert`. -/
def insert (q : ListScheduler ι) (ev : Event ι) : ListScheduler ι := ⟨insertBefore ev q.events⟩

/-- `RemoveNext`. -/
def removeNext (q : ListScheduler ι) : Option (Event ι × ListScheduler ι) :=
  match q.events with
  | [] => none
  | next :: l => some (next, ⟨l⟩)

/-- `Remove`. -/
def remove [DecidableEq ι] (q : ListScheduler ι) (ev : Event ι) : Option (ListScheduler ι) :=
  (eraseUid ev q.events).map fun l => ⟨l⟩

instance [DecidableEq ι] : PriorityQueue (ListScheduler ι) (Event ι) where
  insert q ev := some (q.insert ev)
  isEmpty q := q.events.isEmpty
  peekNext q := q.events.head?
  removeNext := removeNext
  remove := remove

/-- The list is sorted, and its events are those of the multiset. -/
def Rep (q : ListScheduler ι) (_ : ℕ) (s : Multiset (Event ι)) : Prop :=
  Sorted q.events ∧ (q.events : Multiset (Event ι)) = s

theorem rep_empty (f : ℕ) : Rep (⟨[]⟩ : ListScheduler ι) f 0 := ⟨.nil, rfl⟩

variable [DecidableEq ι]

/-- **The list implements the event list.** -/
theorem lawful : Lawful (ι := ι) Rep fun _ _ => True where
  isEmpty_iff := by
    rintro ⟨l⟩ f s ⟨-, rfl⟩
    exact List.isEmpty_iff.trans (Multiset.coe_eq_zero l).symm
  insert := by
    rintro ⟨l⟩ f s e r' ⟨hs, rfl⟩ - - - h
    cases h
    exact ⟨hs.insertBefore e, coe_insertBefore e l⟩
  peekNext := by
    rintro ⟨l⟩ f s e ⟨hs, rfl⟩ h
    exact ⟨Multiset.mem_coe.2 (List.mem_of_head? h), hs.head?_le h⟩
  removeNext := by
    rintro ⟨_ | ⟨x, l⟩⟩ f s e r' ⟨hs, rfl⟩ h
    · cases h
    · cases h
      exact ⟨l, rfl, hs.head_le, (List.pairwise_cons.1 hs).2, rfl⟩
  remove := by
    rintro ⟨l⟩ f s e r' ⟨hs, hl⟩ he - h
    obtain ⟨l', hl', rfl⟩ := Option.map_eq_some_iff.1 h
    exact ⟨hs.eraseUid hl', coe_of_eraseUid hl he hl'⟩

theorem reliable : Reliable (ι := ι) (ρ := ListScheduler ι) Rep where
  insert _ _ _ _ := ⟨_, rfl⟩
  peekNext := by
    rintro ⟨_ | ⟨x, l⟩⟩ f s ⟨-, rfl⟩ h
    · exact absurd rfl h
    · exact ⟨x, rfl⟩
  removeNext := by
    rintro ⟨_ | ⟨x, l⟩⟩ f s ⟨-, rfl⟩ h
    · exact absurd rfl h
    · exact ⟨(x, ⟨l⟩), rfl⟩
  remove := by
    rintro ⟨l⟩ f s e ⟨-, hl⟩ he
    have hmem : e ∈ (l : Multiset (Event ι)) := hl ▸ Multiset.mem_cons_self e s
    obtain ⟨l', hl'⟩ := exists_eraseUid (Multiset.mem_coe.1 hmem) fun x hx =>
      eq_of_fresh he (hl ▸ Multiset.mem_coe.2 hx)
    exact ⟨⟨l'⟩, Option.map_eq_some_iff.2 ⟨l', hl', rfl⟩⟩

end ListScheduler

/-! ### The map -/

/-- `MapScheduler`: `m_list`, the events of the map in the order of their keys. -/
structure MapScheduler (ι : Type*) where
  list : List (Event ι)
  deriving DecidableEq

namespace MapScheduler

/-- The map takes two keys for the same if neither comes before the other. -/
def sameKey (e x : Event ι) : Bool := !e.lt x && !x.lt e

/-- `m_list.find` and `m_list.erase`; the assertion compares the `EventImpl`s. -/
def eraseKey [DecidableEq ι] (e : Event ι) : List (Event ι) → Option (List (Event ι))
  | [] => none
  | x :: xs =>
    if sameKey e x then if x.impl = e.impl then some xs else none
    else (eraseKey e xs).map (x :: ·)

/-- `Insert`. The map does not replace an event with the same key; the assertion then fails. -/
def insert (q : MapScheduler ι) (ev : Event ι) : Option (MapScheduler ι) :=
  if q.list.any (sameKey ev) then none else some ⟨insertBefore ev q.list⟩

/-- `RemoveNext`. -/
def removeNext (q : MapScheduler ι) : Option (Event ι × MapScheduler ι) :=
  match q.list with
  | [] => none
  | next :: l => some (next, ⟨l⟩)

/-- `Remove`. -/
def remove [DecidableEq ι] (q : MapScheduler ι) (ev : Event ι) : Option (MapScheduler ι) :=
  (eraseKey ev q.list).map fun l => ⟨l⟩

instance [DecidableEq ι] : PriorityQueue (MapScheduler ι) (Event ι) where
  insert := insert
  isEmpty q := q.list.isEmpty
  peekNext q := q.list.head?
  removeNext := removeNext
  remove := remove

/-- The map is sorted, and its events are those of the multiset. -/
def Rep (q : MapScheduler ι) (_ : ℕ) (s : Multiset (Event ι)) : Prop :=
  Sorted q.list ∧ (q.list : Multiset (Event ι)) = s

theorem rep_empty (f : ℕ) : Rep (⟨[]⟩ : MapScheduler ι) f 0 := ⟨.nil, rfl⟩

theorem sameKey_iff {e x : Event ι} : sameKey e x = true ↔ e.rank = x.rank := by
  have hnot {a b : Event ι} : a.lt b = false ↔ b.rank ≤ a.rank := by
    rw [← not_lt, ← Event.lt_iff, Bool.not_eq_true]
  rw [sameKey, Bool.and_eq_true, Bool.not_eq_true', Bool.not_eq_true', hnot, hnot]
  exact ⟨fun h => le_antisymm h.2 h.1, fun h => ⟨h.ge, h.le⟩⟩

/-- No event of the map has the key of one with a new identifier. -/
theorem any_sameKey_eq_false {e : Event ι} {l : List (Event ι)}
    (he : Fresh (l : Multiset (Event ι)) e) : l.any (sameKey e) = false := by
  rw [List.any_eq_false]
  intro x hx hsame
  exact he x hx (Event.uid_eq_of_rank_eq e x (sameKey_iff.1 hsame)).symm

variable [DecidableEq ι]

/-- Among events with different identifiers, the key and the identifier find the same. -/
theorem eraseKey_eq {e : Event ι} {l : List (Event ι)}
    (huniq : ∀ x ∈ l, x.uid = e.uid → x = e) : eraseKey e l = eraseUid e l := by
  induction l with
  | nil => rfl
  | cons x xs ih =>
    have hiff : sameKey e x = true ↔ x.uid = e.uid :=
      ⟨fun h => (Event.uid_eq_of_rank_eq e x (sameKey_iff.1 h)).symm,
        fun h => sameKey_iff.2 (congrArg Event.rank (huniq x List.mem_cons_self h)).symm⟩
    rw [eraseKey, eraseUid, ih fun y hy => huniq y (List.mem_cons_of_mem x hy)]
    simp only [hiff, eq_comm]

/-- **The map implements the event list.** -/
theorem lawful : Lawful (ι := ι) Rep fun _ _ => True where
  isEmpty_iff := by
    rintro ⟨l⟩ f s ⟨-, rfl⟩
    exact List.isEmpty_iff.trans (Multiset.coe_eq_zero l).symm
  insert := by
    rintro ⟨l⟩ f s e r' ⟨hs, rfl⟩ - - he h
    change MapScheduler.insert ⟨l⟩ e = some r' at h
    rw [MapScheduler.insert, any_sameKey_eq_false he] at h
    cases h
    exact ⟨hs.insertBefore e, coe_insertBefore e l⟩
  peekNext := by
    rintro ⟨l⟩ f s e ⟨hs, rfl⟩ h
    exact ⟨Multiset.mem_coe.2 (List.mem_of_head? h), hs.head?_le h⟩
  removeNext := by
    rintro ⟨_ | ⟨x, l⟩⟩ f s e r' ⟨hs, rfl⟩ h
    · cases h
    · cases h
      exact ⟨l, rfl, hs.head_le, (List.pairwise_cons.1 hs).2, rfl⟩
  remove := by
    rintro ⟨l⟩ f s e r' ⟨hs, hl⟩ he - h
    obtain ⟨l', hl', rfl⟩ := Option.map_eq_some_iff.1 h
    rw [eraseKey_eq fun x hx => eq_of_fresh he (hl ▸ Multiset.mem_coe.2 hx)] at hl'
    exact ⟨hs.eraseUid hl', coe_of_eraseUid hl he hl'⟩

theorem reliable : Reliable (ι := ι) (ρ := MapScheduler ι) Rep where
  insert := by
    rintro ⟨l⟩ f s e ⟨-, rfl⟩ - - he
    exact ⟨⟨insertBefore e l⟩, if_neg (by simpa using any_sameKey_eq_false he)⟩
  peekNext := by
    rintro ⟨_ | ⟨x, l⟩⟩ f s ⟨-, rfl⟩ h
    · exact absurd rfl h
    · exact ⟨x, rfl⟩
  removeNext := by
    rintro ⟨_ | ⟨x, l⟩⟩ f s ⟨-, rfl⟩ h
    · exact absurd rfl h
    · exact ⟨(x, ⟨l⟩), rfl⟩
  remove := by
    rintro ⟨l⟩ f s e ⟨-, hl⟩ he
    have huniq : ∀ x ∈ l, x.uid = e.uid → x = e := fun x hx =>
      eq_of_fresh he (hl ▸ Multiset.mem_coe.2 hx)
    have hmem : e ∈ (l : Multiset (Event ι)) := hl ▸ Multiset.mem_cons_self e s
    obtain ⟨l', hl'⟩ := exists_eraseUid (Multiset.mem_coe.1 hmem) huniq
    exact ⟨⟨l'⟩, Option.map_eq_some_iff.2 ⟨l', (eraseKey_eq huniq).trans hl', rfl⟩⟩

end MapScheduler

end HpccSim
