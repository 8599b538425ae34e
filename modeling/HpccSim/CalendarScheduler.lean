import HpccSim.Schedulers
import Mathlib.Data.List.GetD
import Mathlib.Algebra.Order.Group.Multiset
import Mathlib.Algebra.Order.BigOperators.Group.List
import Mathlib.Algebra.Order.Group.Nat

/-!
# The calendar queue

`CalendarScheduler` spreads the events over buckets, as over the days of a year: a day lasts
`m_width`, a year has `m_nBuckets` days, and the events of a day are in one bucket in every year.
The next event is looked for from the day of the last one on, for one year; if no event falls in
it, the least of the first events of all buckets is taken.

When the queue has grown or shrunk, the number of buckets is doubled or halved, and the width is
estimated anew from the separation of the next events, which are taken out and put back for it.
The estimate is computed with 64 bits and returned with 32, where it may become `0`; the division
in `Hash` then fails.

## Main definitions

* `CalendarScheduler`, with the operations of the source.
* `CalendarScheduler.Rep`: the events are in the buckets of their days, none before the last one.

## Main results

* `CalendarScheduler.search_spec`: the search finds the next event.
* `CalendarScheduler.lawful`: what the calendar does to its events, unless it divides by zero.
-/

namespace HpccSim

open Scheduler

/-- `CalendarScheduler`. -/
structure CalendarScheduler (ι : Type*) where
  buckets : List (List (Event ι))
  nBuckets : ℕ
  width : ℕ
  lastBucket : ℕ
  bucketTop : ℕ
  lastPrio : ℕ
  qSize : ℕ
  deriving DecidableEq

namespace CalendarScheduler

variable {ι : Type*}

/-- What the loop over the buckets ends with: an event of the year, or the least first event. -/
inductive Found where
  | next (bucket bucketTop : ℕ)
  | least (minBucket : Option ℕ) (minKey : EventKey)

section Operations

variable (q : CalendarScheduler ι)

/-- `Hash`. -/
def hash (ts : ℕ) : ℕ := ts / q.width % q.nBuckets

/-- `m_buckets[i]`. -/
def bucket (i : ℕ) : List (Event ι) := q.buckets.getD i []

/-- `Init`, which divides by the width; the number of events is not touched. -/
def init (nBuckets width startPrio : ℕ) : Option (CalendarScheduler ι) :=
  if width = 0 then none
  else some
    { buckets := List.replicate nBuckets []
      nBuckets := nBuckets
      width := width
      lastPrio := startPrio
      lastBucket := startPrio / width % nBuckets
      bucketTop := (startPrio / width + 1) * width % 2 ^ 64
      qSize := q.qSize }

/-- The constructor. -/
def new : CalendarScheduler ι := ⟨[[], []], 2, 1, 0, 1, 0, 0⟩

/-- `DoInsert`. -/
def doInsert (ev : Event ι) : CalendarScheduler ι :=
  { q with
    buckets := q.buckets.set (q.hash ev.ts) (insertBefore ev (q.bucket (q.hash ev.ts))) }

/-- The loop of `PeekNext` and `DoRemoveNext` over the buckets, `n` of which are left. -/
def search : ℕ → ℕ → ℕ → Option ℕ → EventKey → Found
  | 0, _, _, minBucket, minKey => .least minBucket minKey
  | n + 1, i, bucketTop, minBucket, minKey =>
    match q.bucket i with
    | [] => search n ((i + 1) % q.nBuckets) ((bucketTop + q.width) % 2 ^ 64) minBucket minKey
    | next :: _ =>
      if next.ts < bucketTop then .next i bucketTop
      else if next.key.lt minKey then
        search n ((i + 1) % q.nBuckets) ((bucketTop + q.width) % 2 ^ 64) (some i) next.key
      else search n ((i + 1) % q.nBuckets) ((bucketTop + q.width) % 2 ^ 64) minBucket minKey

/-- The search of a year, from the day of the last event on. -/
def found (minKey : EventKey) : Found :=
  q.search q.nBuckets q.lastBucket q.bucketTop none minKey

/-- The first event of the bucket `i` is taken out. -/
def popFront (i : ℕ) : Option (Event ι × CalendarScheduler ι) :=
  match q.bucket i with
  | [] => none
  | next :: rest => some (next, { q with buckets := q.buckets.set i rest })

/-- `IsEmpty`. -/
def isEmpty : Bool := q.qSize = 0

/-- `PeekNext`. -/
def peekNext : Option (Event ι) :=
  if q.isEmpty then none
  else
    match q.found ⟨2 ^ 64 - 1, 2 ^ 32 - 1, 0⟩ with
    | .next i _ => (q.bucket i).head?
    | .least (some i) _ => (q.bucket i).head?
    | .least none _ => none

/-- `DoRemoveNext`. -/
def doRemoveNext : Option (Event ι × CalendarScheduler ι) :=
  if q.isEmpty then none
  else
    match q.found ⟨2 ^ 64 - 1, 0, 0xffffffff⟩ with
    | .next i bucketTop => (q.popFront i).map fun p =>
        (p.1, { p.2 with lastBucket := i, lastPrio := p.1.ts, bucketTop := bucketTop })
    | .least (some i) minKey => (q.popFront i).map fun p =>
        (p.1, { p.2 with
          lastPrio := minKey.ts
          lastBucket := q.hash minKey.ts
          bucketTop := (minKey.ts / q.width + 1) * q.width % 2 ^ 64 })
    | .least none _ => none

/-- The first `n` events of the queue are taken out. -/
def takeSamples : ℕ → CalendarScheduler ι → Option (List (Event ι) × CalendarScheduler ι)
  | 0, q => some ([], q)
  | n + 1, q => q.doRemoveNext.bind fun p =>
      (takeSamples n p.2).map fun r => (p.1 :: r.1, r.2)

/-- The separations of the times, each from the next. -/
def separations : List (Event ι) → List ℕ
  | [] => []
  | [_] => []
  | cur :: next :: rest => (next.ts - cur.ts) :: separations (next :: rest)

/-- The estimate of `CalculateNewWidth` from the samples, as it is returned. -/
def estimate (samples : List (Event ι)) : ℕ :=
  let twiceAvg := (separations samples).sum / (samples.length - 1) * 2
  let totalSeparation := ((separations samples).filter (· ≤ twiceAvg)).sum
  max (totalSeparation * 3 % 2 ^ 64) 1 % 2 ^ 32

/-- The number of samples of `CalculateNewWidth`. -/
def nSamples : ℕ := min (if q.qSize ≤ 5 then q.qSize else 5 + q.qSize / 10) 25

/-- `CalculateNewWidth`, and the queue after it: the samples are put back and the state of the
search restored. -/
def calculateNewWidth : Option (ℕ × CalendarScheduler ι) :=
  if q.qSize < 2 then some (1, q)
  else (takeSamples q.nSamples q).map fun p =>
    let back := p.1.foldl doInsert p.2
    (estimate p.1, { back with
      lastBucket := q.lastBucket
      bucketTop := q.bucketTop
      lastPrio := q.lastPrio })

/-- `DoResize`. -/
def doResize (newSize newWidth : ℕ) : Option (CalendarScheduler ι) :=
  (q.init newSize newWidth q.lastPrio).map fun fresh => q.buckets.flatten.foldl doInsert fresh

/-- `Resize`. -/
def resize (newSize : ℕ) : Option (CalendarScheduler ι) :=
  q.calculateNewWidth.bind fun p => p.2.doResize newSize p.1

/-- `ResizeUp`. -/
def resizeUp : Option (CalendarScheduler ι) :=
  if q.qSize > q.nBuckets * 2 ∧ q.nBuckets < 32768 then q.resize (q.nBuckets * 2) else some q

/-- `ResizeDown`. -/
def resizeDown : Option (CalendarScheduler ι) :=
  if q.qSize < q.nBuckets / 2 then q.resize (q.nBuckets / 2) else some q

/-- `Insert`, before it calls `ResizeUp`. -/
def withEvent (ev : Event ι) : CalendarScheduler ι :=
  { q.doInsert ev with qSize := q.qSize + 1 }

/-- `Insert`. -/
def insert (ev : Event ι) : Option (CalendarScheduler ι) := (q.withEvent ev).resizeUp

/-- `RemoveNext`. -/
def removeNext : Option (Event ι × CalendarScheduler ι) :=
  q.doRemoveNext.bind fun p =>
    { p.2 with qSize := p.2.qSize - 1 }.resizeDown.map fun q' => (p.1, q')

/-- `Remove`. -/
def remove [DecidableEq ι] (q : CalendarScheduler ι) (ev : Event ι) :
    Option (CalendarScheduler ι) :=
  if q.isEmpty then none
  else (eraseUid ev (q.bucket (q.hash ev.ts))).bind fun l =>
    { q with buckets := q.buckets.set (q.hash ev.ts) l, qSize := q.qSize - 1 }.resizeDown

end Operations

instance [DecidableEq ι] : PriorityQueue (CalendarScheduler ι) (Event ι) where
  insert := insert
  isEmpty := isEmpty
  peekNext := peekNext
  removeNext := removeNext
  remove := remove

/-! ### The buckets -/

/-- The events `s` are in the buckets of their days, each bucket sorted. -/
structure Holds (q : CalendarScheduler ι) (s : Multiset (Event ι)) : Prop where
  length_eq : q.buckets.length = q.nBuckets
  pos : 0 < q.nBuckets
  le : q.nBuckets ≤ 65536
  width_pos : 0 < q.width
  width_lt : q.width < 2 ^ 32
  sorted : ∀ i, Sorted (q.bucket i)
  hash_eq : ∀ i, ∀ e ∈ q.bucket i, q.hash e.ts = i
  content : (q.buckets.flatten : Multiset (Event ι)) = s

/-- The day of the last event is where the search starts, and no event is before it. -/
structure Searchable (q : CalendarScheduler ι) (s : Multiset (Event ι)) : Prop where
  lastPrio_le : ∀ e ∈ s, q.lastPrio ≤ e.ts
  isTime : ∀ e ∈ s, IsTime e
  lastPrio_lt : q.lastPrio < 2 ^ 63
  lastBucket_eq : q.lastBucket = q.hash q.lastPrio
  bucketTop_eq : q.bucketTop = (q.lastPrio / q.width + 1) * q.width

variable {q q' : CalendarScheduler ι} {s : Multiset (Event ι)} {e : Event ι} {i j f : ℕ}

/-- A list is one of its entries and the others, which stay when the entry is replaced. -/
theorem exists_flatten_set {α : Type*} (L : List (List α)) (hi : i < L.length) :
    ∃ rest : Multiset α, (L.flatten : Multiset α) = (L.getD i [] : Multiset α) + rest ∧
      ∀ l : List α, ((L.set i l).flatten : Multiset α) = (l : Multiset α) + rest := by
  induction L generalizing i with
  | nil => exact absurd hi (Nat.not_lt_zero i)
  | cons x xs ih =>
    cases i with
    | zero => exact ⟨xs.flatten, rfl, fun l => rfl⟩
    | succ i =>
      obtain ⟨rest, heq, hset⟩ := ih (Nat.lt_of_succ_lt_succ hi)
      refine ⟨(x : Multiset α) + rest, ?_, fun l => ?_⟩
      · rw [List.flatten_cons, ← Multiset.coe_add, heq, List.getD_cons_succ, add_left_comm]
      · rw [List.set_cons_succ, List.flatten_cons, ← Multiset.coe_add, hset, add_left_comm]

theorem bucket_set (l : List (Event ι)) (hi : i < q.buckets.length) :
    ({ q with buckets := q.buckets.set i l } : CalendarScheduler ι).bucket j =
      if j = i then l else q.bucket j := by
  rw [bucket, bucket, List.getD_eq_getElem?_getD, List.getD_eq_getElem?_getD, List.getElem?_set]
  split_ifs with hij hji hji
  · rfl
  · exact absurd hij.symm hji
  · exact absurd hji.symm hij
  · rfl

namespace Holds

theorem hash_lt (h : Holds q s) (ts : ℕ) : q.hash ts < q.nBuckets := Nat.mod_lt _ h.pos

theorem lt_length (h : Holds q s) (ts : ℕ) : q.hash ts < q.buckets.length :=
  h.length_eq ▸ h.hash_lt ts

/-- An event is in the bucket of its day. -/
theorem mem_iff (h : Holds q s) : e ∈ s ↔ e ∈ q.bucket (q.hash e.ts) := by
  rw [← h.content, Multiset.mem_coe, List.mem_flatten]
  constructor
  · rintro ⟨l, hl, he⟩
    obtain ⟨i, hi, rfl⟩ := List.getElem_of_mem hl
    have hmem : e ∈ q.bucket i := by rwa [bucket, List.getD_eq_getElem _ _ hi]
    rwa [h.hash_eq i e hmem]
  · intro he
    rw [bucket, List.getD_eq_getElem _ _ (h.lt_length e.ts)] at he
    exact ⟨_, List.getElem_mem _, he⟩

/-- **A bucket is replaced**, and the other events stay. -/
theorem set_bucket (h : Holds q s) (hi : i < q.nBuckets) :
    ∃ rest, s = (q.bucket i : Multiset (Event ι)) + rest ∧ ∀ l : List (Event ι), Sorted l →
      (∀ e ∈ l, q.hash e.ts = i) →
      Holds { q with buckets := q.buckets.set i l } ((l : Multiset (Event ι)) + rest) := by
  have hlen : i < q.buckets.length := h.length_eq ▸ hi
  obtain ⟨rest, heq, hset⟩ := exists_flatten_set q.buckets hlen
  refine ⟨rest, h.content.symm.trans heq, fun l hl hhash => { h with
    length_eq := (List.length_set ..).trans h.length_eq
    sorted := fun j => ?_
    hash_eq := fun j e he => ?_
    content := hset l }⟩
  · rw [bucket_set l hlen]
    split_ifs
    · exact hl
    · exact h.sorted j
  · rw [bucket_set l hlen] at he
    split_ifs at he with hji
    · exact (hhash e he).trans hji.symm
    · exact h.hash_eq j e he

/-- **`DoInsert`** puts the event into the bucket of its day. -/
theorem doInsert (h : Holds q s) (e : Event ι) : Holds (q.doInsert e) (e ::ₘ s) := by
  obtain ⟨rest, rfl, hset⟩ := h.set_bucket (h.hash_lt e.ts)
  have hnew := hset (insertBefore e (q.bucket (q.hash e.ts))) ((h.sorted _).insertBefore e)
    fun x hx => by
      rcases List.mem_cons.1 ((insertBefore_perm e _).mem_iff.1 hx) with rfl | hx
      · rfl
      · exact h.hash_eq _ x hx
  rw [coe_insertBefore, Multiset.cons_add] at hnew
  exact hnew

theorem foldl_doInsert (h : Holds q s) (l : List (Event ι)) :
    Holds (l.foldl CalendarScheduler.doInsert q) ((l : Multiset (Event ι)) + s) := by
  induction l generalizing q s with
  | nil => rwa [Multiset.coe_nil, zero_add]
  | cons e l ih =>
    have hl := ih (h.doInsert e)
    rwa [Multiset.add_cons, ← Multiset.cons_add] at hl

/-- **The front of a bucket** is taken out. -/
theorem popFront (h : Holds q s) (hp : q.popFront i = some (e, q')) :
    ∃ t rest, s = e ::ₘ t ∧ q.bucket i = e :: rest ∧
      q' = { q with buckets := q.buckets.set i rest } ∧ Holds q' t := by
  cases hb : q.bucket i with
  | nil =>
    rw [CalendarScheduler.popFront, hb] at hp
    cases hp
  | cons x rest =>
    rw [CalendarScheduler.popFront, hb] at hp
    cases hp
    have hi : i < q.nBuckets := by
      by_contra hge
      rw [bucket, List.getD_eq_default _ _ (by rw [h.length_eq]; omega)] at hb
      cases hb
    obtain ⟨others, rfl, hset⟩ := h.set_bucket hi
    have hsorted := h.sorted i
    rw [hb] at hsorted
    refine ⟨(rest : Multiset (Event ι)) + others, rest, ?_, rfl, rfl,
      hset rest (List.pairwise_cons.1 hsorted).2 fun x hx => ?_⟩
    · rw [hb, ← Multiset.cons_coe, Multiset.cons_add]
    · exact h.hash_eq i x (hb ▸ List.mem_cons_of_mem _ hx)

end Holds

/-! ### The search -/

/-- What the search has found is the next event, or there is none. -/
def Finds (q : CalendarScheduler ι) (s : Multiset (Event ι)) : Found → Prop
  | .next i bucketTop => ∃ e rest, q.bucket i = e :: rest ∧ (∀ x ∈ s, e.rank ≤ x.rank) ∧
      i = q.hash e.ts ∧ bucketTop = (e.ts / q.width + 1) * q.width
  | .least (some i) minKey => ∃ e rest, q.bucket i = e :: rest ∧ (∀ x ∈ s, e.rank ≤ x.rank) ∧
      e.key = minKey
  | .least none _ => s = 0

/-- What the loop knows after `k` buckets: the least of their first events. -/
def Seen (q : CalendarScheduler ι) (k : ℕ) : Option ℕ → EventKey → Prop
  | none, minKey => (∀ j < k, q.bucket ((q.lastPrio / q.width + j) % q.nBuckets) = []) ∧
      2 ^ 63 ≤ minKey.ts
  | some b, minKey => ∃ e rest, q.bucket b = e :: rest ∧ e.key = minKey ∧
      ∀ j < k, ∀ x ∈ q.bucket ((q.lastPrio / q.width + j) % q.nBuckets), e.rank ≤ x.rank

/-- Every bucket is seen in one year. -/
theorem exists_add_mod {n b : ℕ} (hb : b < n) (d : ℕ) : ∃ j < n, (d + j) % n = b := by
  have hd : d % n < n := Nat.mod_lt _ (by omega)
  by_cases hle : d % n ≤ b
  · refine ⟨b - d % n, by omega, ?_⟩
    rw [← Nat.mod_add_mod, Nat.add_sub_cancel' hle, Nat.mod_eq_of_lt hb]
  · refine ⟨b + n - d % n, by omega, ?_⟩
    rw [← Nat.mod_add_mod, show d % n + (b + n - d % n) = b + n by omega, Nat.add_mod_right,
      Nat.mod_eq_of_lt hb]

/-- The times of a year do not overflow. -/
theorem Holds.top_lt (h : Holds q s) (hs : Searchable q s) {k : ℕ} (hk : k ≤ q.nBuckets) :
    (q.lastPrio / q.width + k + 1) * q.width < 2 ^ 64 := by
  have hday : q.lastPrio / q.width * q.width ≤ q.lastPrio := Nat.div_mul_le_self _ _
  have hyear : (k + 1) * q.width ≤ 65537 * 2 ^ 32 :=
    Nat.mul_le_mul (by have := h.le; omega) h.width_lt.le
  have hlt := hs.lastPrio_lt
  rw [Nat.add_assoc, Nat.add_mul]
  omega

/-- The events of a day that is not over come before all events of later days. -/
theorem Holds.rank_le_of_day (h : Holds q s) {e x : Event ι} {rest : List (Event ι)} {d : ℕ}
    (hb : q.bucket (d % q.nBuckets) = e :: rest) (htop : e.ts < (d + 1) * q.width) (hx : x ∈ s)
    (hd : d ≤ x.ts / q.width) : e.rank ≤ x.rank := by
  rcases hd.lt_or_eq with hlt | heq
  · have hts : (d + 1) * q.width ≤ x.ts := (Nat.le_div_iff_mul_le h.width_pos).1 hlt
    exact (EventKey.rank_lt_iff.2 (.inl (htop.trans_le hts))).le
  · have hmem := h.mem_iff.1 hx
    rw [hash, ← heq, hb] at hmem
    have hsorted := h.sorted (d % q.nBuckets)
    rw [hb] at hsorted
    rcases List.mem_cons.1 hmem with rfl | hmem
    · exact le_rfl
    · exact hsorted.head_le x hmem

/-- A day is over when the first event of its bucket falls on a later one. -/
theorem Holds.day_succ (h : Holds q s) {x : Event ι} {d : ℕ}
    (hb : ∀ x ∈ q.bucket (d % q.nBuckets), (d + 1) * q.width ≤ x.ts) (hx : x ∈ s)
    (hd : d ≤ x.ts / q.width) : d + 1 ≤ x.ts / q.width := by
  rcases hd.lt_or_eq with hlt | heq
  · exact hlt
  · have hmem := h.mem_iff.1 hx
    rw [hash, ← heq] at hmem
    exact (Nat.le_div_iff_mul_le h.width_pos).2 (hb x hmem)

namespace Seen

variable {k : ℕ} {minBucket : Option ℕ} {minKey : EventKey} {rest : List (Event ι)}

/-- An empty bucket. -/
theorem succ_of_nil (h : Seen q k minBucket minKey)
    (hb : q.bucket ((q.lastPrio / q.width + k) % q.nBuckets) = []) :
    Seen q (k + 1) minBucket minKey := by
  cases minBucket with
  | none =>
    refine ⟨fun j hj => ?_, h.2⟩
    rcases (Nat.le_of_lt_succ hj).lt_or_eq with hlt | rfl
    · exact h.1 j hlt
    · exact hb
  | some b =>
    obtain ⟨e, rest, he, hkey, hmin⟩ := h
    refine ⟨e, rest, he, hkey, fun j hj x hx => ?_⟩
    rcases (Nat.le_of_lt_succ hj).lt_or_eq with hlt | rfl
    · exact hmin j hlt x hx
    · rw [hb] at hx
      cases hx

/-- A bucket whose first event comes before those seen. -/
theorem succ_of_lt (h : Seen q k minBucket minKey)
    (hb : q.bucket ((q.lastPrio / q.width + k) % q.nBuckets) = e :: rest)
    (hlt : e.key.rank < minKey.rank)
    (hfront : ∀ x ∈ q.bucket ((q.lastPrio / q.width + k) % q.nBuckets), e.rank ≤ x.rank) :
    Seen q (k + 1) (some ((q.lastPrio / q.width + k) % q.nBuckets)) e.key := by
  refine ⟨e, rest, hb, rfl, fun j hj x hx => ?_⟩
  rcases (Nat.le_of_lt_succ hj).lt_or_eq with hj | rfl
  · cases minBucket with
    | none =>
      rw [h.1 j hj] at hx
      cases hx
    | some b =>
      obtain ⟨e', rest', -, rfl, hmin⟩ := h
      exact hlt.le.trans (hmin j hj x hx)
  · exact hfront x hx

/-- A bucket whose first event does not come before the least of those seen. -/
theorem succ_of_not_lt (h : Seen q k minBucket minKey) (ht : IsTime e)
    (hlt : ¬ e.key.rank < minKey.rank)
    (hfront : ∀ x ∈ q.bucket ((q.lastPrio / q.width + k) % q.nBuckets), e.rank ≤ x.rank) :
    Seen q (k + 1) minBucket minKey := by
  cases minBucket with
  | none => exact absurd (EventKey.rank_lt_iff.2 (.inl (ht.trans_le h.2))) hlt
  | some b =>
    obtain ⟨e', rest', hb, rfl, hmin⟩ := h
    refine ⟨e', rest', hb, rfl, fun j hj x hx => ?_⟩
    rcases (Nat.le_of_lt_succ hj).lt_or_eq with hj | rfl
    · exact hmin j hj x hx
    · exact (not_lt.1 hlt).trans (hfront x hx)

end Seen

/-- **The search finds the next event**: with `n` buckets left after `k`, when all events fall on
one of the days left or later. -/
theorem search_spec (h : Holds q s) (hs : Searchable q s) {n k : ℕ} {minBucket : Option ℕ}
    {minKey : EventKey} (hk : k + n = q.nBuckets)
    (hday : ∀ e ∈ s, q.lastPrio / q.width + k ≤ e.ts / q.width)
    (hseen : Seen q k minBucket minKey) :
    Finds q s (q.search n ((q.lastPrio / q.width + k) % q.nBuckets)
      ((q.lastPrio / q.width + k + 1) * q.width) minBucket minKey) := by
  induction n generalizing k minBucket minKey with
  | zero =>
    -- all buckets are seen
    have hall {x : Event ι} (hx : x ∈ s) : ∃ j < k,
        x ∈ q.bucket ((q.lastPrio / q.width + j) % q.nBuckets) := by
      obtain ⟨j, hj, hmod⟩ := exists_add_mod (h.hash_lt x.ts) (q.lastPrio / q.width)
      exact ⟨j, by omega, hmod ▸ h.mem_iff.1 hx⟩
    cases minBucket with
    | none =>
      refine Multiset.eq_zero_of_forall_notMem fun x hx => ?_
      obtain ⟨j, hj, hmem⟩ := hall hx
      rw [hseen.1 j hj] at hmem
      cases hmem
    | some b =>
      obtain ⟨e, rest, hb, hkey, hmin⟩ := hseen
      refine ⟨e, rest, hb, fun x hx => ?_, hkey⟩
      obtain ⟨j, hj, hmem⟩ := hall hx
      exact hmin j hj x hmem
  | succ n ih =>
    have hnext : ((q.lastPrio / q.width + k) % q.nBuckets + 1) % q.nBuckets =
        (q.lastPrio / q.width + (k + 1)) % q.nBuckets := by
      rw [Nat.mod_add_mod, Nat.add_assoc]
    have htop : ((q.lastPrio / q.width + k + 1) * q.width + q.width) % 2 ^ 64 =
        (q.lastPrio / q.width + (k + 1) + 1) * q.width := by
      rw [← Nat.succ_mul, Nat.succ_eq_add_one, Nat.add_assoc _ k 1]
      exact Nat.mod_eq_of_lt (h.top_lt hs (by omega))
    rw [search, hnext, htop]
    split
    · next hb =>
      have hlate : ∀ x ∈ q.bucket ((q.lastPrio / q.width + k) % q.nBuckets),
          (q.lastPrio / q.width + k + 1) * q.width ≤ x.ts := by simp [hb]
      exact ih (by omega) (fun x hx => h.day_succ hlate hx (hday x hx)) (hseen.succ_of_nil hb)
    · next e rest hb =>
      have hfront {x : Event ι} (hx : x ∈ q.bucket ((q.lastPrio / q.width + k) % q.nBuckets)) :
          e.rank ≤ x.rank := by
        have hsorted := h.sorted ((q.lastPrio / q.width + k) % q.nBuckets)
        rw [hb] at hsorted hx
        rcases List.mem_cons.1 hx with rfl | hx
        · exact le_rfl
        · exact hsorted.head_le x hx
      have hmem : e ∈ q.bucket ((q.lastPrio / q.width + k) % q.nBuckets) :=
        hb ▸ List.mem_cons_self
      have hes : e ∈ s := h.mem_iff.2 (h.hash_eq _ e hmem ▸ hmem)
      by_cases hlt : e.ts < (q.lastPrio / q.width + k + 1) * q.width
      · rw [if_pos hlt]
        have hd : q.lastPrio / q.width + k = e.ts / q.width :=
          le_antisymm (hday e hes) (Nat.le_of_lt_succ ((Nat.div_lt_iff_lt_mul h.width_pos).2 hlt))
        exact ⟨e, rest, hb, fun x hx => h.rank_le_of_day hb hlt hx (hday x hx),
          (h.hash_eq _ e hmem).symm, by rw [hd]⟩
      · rw [if_neg hlt]
        have hlate : ∀ x ∈ q.bucket ((q.lastPrio / q.width + k) % q.nBuckets),
            (q.lastPrio / q.width + k + 1) * q.width ≤ x.ts := fun x hx =>
          (not_lt.1 hlt).trans (Event.ts_le_of_rank_le (hfront hx))
        have hday' : ∀ x ∈ s, q.lastPrio / q.width + (k + 1) ≤ x.ts / q.width := fun x hx =>
          h.day_succ hlate hx (hday x hx)
        split_ifs with hless
        · exact ih (by omega) hday' (hseen.succ_of_lt hb (EventKey.lt_iff.1 hless) fun x => hfront)
        · exact ih (by omega) hday' (hseen.succ_of_not_lt (hs.isTime e hes)
            (fun hn => hless (EventKey.lt_iff.2 hn)) fun x => hfront)

/-- The whole year is searched. -/
theorem found_spec (h : Holds q s) (hs : Searchable q s) {k : EventKey} (hkey : 2 ^ 63 ≤ k.ts) :
    Finds q s (q.found k) := by
  have hseen : Seen q 0 none k := ⟨fun j hj => absurd hj (Nat.not_lt_zero j), hkey⟩
  have hspec := search_spec h hs (Nat.zero_add q.nBuckets)
    (fun e he => Nat.div_le_div_right (hs.lastPrio_le e he)) hseen
  rw [Nat.add_zero] at hspec
  rw [found, hs.lastBucket_eq, hs.bucketTop_eq]
  exact hspec

/-- The end of a day does not overflow. -/
theorem Holds.dayTop_mod (h : Holds q s) {ts : ℕ} (hts : ts < 2 ^ 63) :
    (ts / q.width + 1) * q.width % 2 ^ 64 = (ts / q.width + 1) * q.width := by
  have hday : ts / q.width * q.width ≤ ts := Nat.div_mul_le_self _ _
  have hw := h.width_lt
  refine Nat.mod_eq_of_lt ?_
  rw [Nat.add_mul, Nat.one_mul]
  omega

/-- **`DoRemoveNext`** takes the next event, and remembers its day. -/
theorem doRemoveNext_spec (h : Holds q s) (hs : Searchable q s)
    (hq : q.doRemoveNext = some (e, q')) :
    ∃ t, s = e ::ₘ t ∧ (∀ x ∈ t, e.rank ≤ x.rank) ∧ Holds q' t ∧ Searchable q' t ∧
      q'.lastPrio = e.ts ∧ q'.qSize = q.qSize ∧ q'.nBuckets = q.nBuckets ∧
      q'.width = q.width := by
  have hfound := found_spec h hs (k := ⟨2 ^ 64 - 1, 0, 0xffffffff⟩) (by decide)
  rw [doRemoveNext] at hq
  split_ifs at hq
  split at hq
  · next i bucketTop heq =>
    rw [heq] at hfound
    obtain ⟨⟨e₁, q₁⟩, hp, hq⟩ := Option.map_eq_some_iff.1 hq
    cases hq
    obtain ⟨t, rest, rfl, hb, rfl, ht⟩ := h.popFront hp
    obtain ⟨e₂, rest₂, hb₂, hmin, hi, htop⟩ := hfound
    obtain ⟨rfl, rfl⟩ := List.cons_eq_cons.1 (hb.symm.trans hb₂)
    refine ⟨t, rfl, fun x hx => hmin x (Multiset.mem_cons_of_mem hx), { ht with }, ?_, rfl, rfl,
      rfl, rfl⟩
    exact
      { lastPrio_le := fun x hx =>
          Event.ts_le_of_rank_le (hmin x (Multiset.mem_cons_of_mem hx))
        isTime := fun x hx => hs.isTime x (Multiset.mem_cons_of_mem hx)
        lastPrio_lt := hs.isTime e₁ (Multiset.mem_cons_self _ _)
        lastBucket_eq := hi
        bucketTop_eq := htop }
  · next i minKey heq =>
    rw [heq] at hfound
    obtain ⟨⟨e₁, q₁⟩, hp, hq⟩ := Option.map_eq_some_iff.1 hq
    cases hq
    obtain ⟨t, rest, rfl, hb, rfl, ht⟩ := h.popFront hp
    obtain ⟨e₂, rest₂, hb₂, hmin, rfl⟩ := hfound
    obtain ⟨rfl, rfl⟩ := List.cons_eq_cons.1 (hb.symm.trans hb₂)
    refine ⟨t, rfl, fun x hx => hmin x (Multiset.mem_cons_of_mem hx), { ht with }, ?_, rfl, rfl,
      rfl, rfl⟩
    exact
      { lastPrio_le := fun x hx =>
          Event.ts_le_of_rank_le (hmin x (Multiset.mem_cons_of_mem hx))
        isTime := fun x hx => hs.isTime x (Multiset.mem_cons_of_mem hx)
        lastPrio_lt := hs.isTime e₁ (Multiset.mem_cons_self _ _)
        lastBucket_eq := rfl
        bucketTop_eq := h.dayTop_mod (hs.isTime e₁ (Multiset.mem_cons_self _ _)) }
  · cases hq

/-- The events taken out as samples are the ones missing, in their order. -/
theorem takeSamples_spec (h : Holds q s) (hs : Searchable q s) {n : ℕ} {l : List (Event ι)}
    (hq : takeSamples n q = some (l, q')) :
    ∃ t, (l : Multiset (Event ι)) + t = s ∧ Sorted l ∧ Holds q' t ∧ q'.qSize = q.qSize ∧
      q'.nBuckets = q.nBuckets ∧ q'.width = q.width := by
  induction n generalizing q s l with
  | zero =>
    cases hq
    exact ⟨s, by rw [Multiset.coe_nil, zero_add], .nil, h, rfl, rfl, rfl⟩
  | succ n ih =>
    obtain ⟨⟨e, q₁⟩, hnext, hq⟩ := Option.bind_eq_some_iff.1 hq
    obtain ⟨⟨l₁, q₂⟩, hrest, hq⟩ := Option.map_eq_some_iff.1 hq
    cases hq
    obtain ⟨t, rfl, hmin, h₁, hs₁, -, hsize, hn, hw⟩ := doRemoveNext_spec h hs hnext
    obtain ⟨t', rfl, hsorted, h₂, hsize₂, hn₂, hw₂⟩ := ih h₁ hs₁ hrest
    refine ⟨t', by rw [← Multiset.cons_coe, Multiset.cons_add], ?_, h₂, hsize₂.trans hsize,
      hn₂.trans hn, hw₂.trans hw⟩
    exact List.pairwise_cons.2 ⟨fun x hx => hmin x (Multiset.mem_add.2 (.inl hx)), hsorted⟩

@[simp] theorem foldl_doInsert_eq (l : List (Event ι)) (q : CalendarScheduler ι) :
    ∃ buckets, l.foldl doInsert q = { q with buckets := buckets } := by
  induction l generalizing q with
  | nil => exact ⟨q.buckets, rfl⟩
  | cons e l ih => exact ih (q.doInsert e)

/-- **`CalculateNewWidth`** puts all samples back. -/
theorem calculateNewWidth_spec (h : Holds q s) (hs : Searchable q s) {w : ℕ}
    (hq : q.calculateNewWidth = some (w, q')) :
    Holds q' s ∧ q'.lastPrio = q.lastPrio ∧ q'.qSize = q.qSize ∧ w < 2 ^ 32 := by
  rw [calculateNewWidth] at hq
  split_ifs at hq
  · cases hq
    exact ⟨h, rfl, rfl, by decide⟩
  · obtain ⟨⟨l, q₁⟩, hl, hq⟩ := Option.map_eq_some_iff.1 hq
    cases hq
    obtain ⟨t, rfl, -, h₁, hsize, -, -⟩ := takeSamples_spec h hs hl
    have hback := h₁.foldl_doInsert l
    obtain ⟨buckets, heq⟩ := foldl_doInsert_eq l q₁
    refine ⟨{ hback with }, rfl, ?_, Nat.mod_lt _ (Nat.two_pow_pos 32)⟩
    dsimp only
    rw [heq]
    exact hsize

/-- **`DoResize`** moves all events into new buckets. -/
theorem doResize_spec (h : Holds q s) (hprio : ∀ e ∈ s, q.lastPrio ≤ e.ts)
    (htime : ∀ e ∈ s, IsTime e) (hlt : q.lastPrio < 2 ^ 63) {n w : ℕ} (hn : 0 < n)
    (hn' : n ≤ 65536) (hw : w < 2 ^ 32) (hq : q.doResize n w = some q') :
    Holds q' s ∧ Searchable q' s ∧ q'.lastPrio = q.lastPrio ∧ q'.qSize = q.qSize := by
  obtain ⟨fresh, hfresh, rfl⟩ := Option.map_eq_some_iff.1 hq
  rw [init] at hfresh
  split_ifs at hfresh with hw0
  cases hfresh
  have hempty (i : ℕ) : (List.replicate n ([] : List (Event ι))).getD i [] = [] := by
    rw [List.getD_eq_getElem?_getD, List.getElem?_replicate]
    split_ifs <;> rfl
  set fresh : CalendarScheduler ι := ⟨List.replicate n [], n, w, q.lastPrio / w % n,
    (q.lastPrio / w + 1) * w % 2 ^ 64, q.lastPrio, q.qSize⟩ with hfresh
  have hnil : Holds fresh 0 :=
    { length_eq := List.length_replicate
      pos := hn
      le := hn'
      width_pos := Nat.pos_of_ne_zero hw0
      width_lt := hw
      sorted := fun i => by rw [bucket, hempty]; exact .nil
      hash_eq := fun i e he => by rw [bucket, hempty] at he; cases he
      content := by
        rw [Multiset.coe_eq_zero, List.flatten_eq_nil_iff]
        exact fun l hl => List.eq_of_mem_replicate hl }
  have hall := hnil.foldl_doInsert q.buckets.flatten
  rw [add_zero, h.content] at hall
  obtain ⟨buckets, heq⟩ := foldl_doInsert_eq q.buckets.flatten fresh
  rw [heq] at hall ⊢
  refine ⟨hall, ⟨hprio, htime, hlt, rfl, ?_⟩, rfl, rfl⟩
  exact hnil.dayTop_mod hlt

/-! ### The operations -/

/-- The events are in the buckets of their days, none before the last one, which had the time
`f`. -/
def Rep (q : CalendarScheduler ι) (f : ℕ) (s : Multiset (Event ι)) : Prop :=
  Holds q s ∧ Searchable q s ∧ q.qSize = s.card ∧ q.lastPrio = f

theorem rep_new : Rep (new : CalendarScheduler ι) 0 0 :=
  ⟨{ length_eq := rfl
     pos := Nat.two_pos
     le := show 2 ≤ 65536 by decide
     width_pos := Nat.one_pos
     width_lt := show 1 < 2 ^ 32 by decide
     sorted := fun i => by rcases i with _ | _ | i <;> exact .nil
     hash_eq := fun i e he => by rcases i with _ | _ | i <;> cases he
     content := rfl },
    ⟨by simp, by simp, show 0 < 2 ^ 63 by decide, by simp [new, hash], by simp [new]⟩, rfl, rfl⟩

/-- **A resize** changes neither the events nor the time of the last one. -/
theorem Rep.resize (h : Rep q f s) {n : ℕ} (hn : 0 < n) (hn' : n ≤ 65536)
    (hq : q.resize n = some q') : Rep q' f s := by
  obtain ⟨hh, hs, hsize, hf⟩ := h
  obtain ⟨⟨w, q₁⟩, hw, hq⟩ := Option.bind_eq_some_iff.1 hq
  obtain ⟨h₁, hprio, hsize₁, hlt⟩ := calculateNewWidth_spec hh hs hw
  obtain ⟨h₂, hs₂, hprio₂, hsize₂⟩ := doResize_spec h₁ (fun e he => hprio ▸ hs.lastPrio_le e he)
    hs.isTime (hprio ▸ hs.lastPrio_lt) hn hn' hlt hq
  exact ⟨h₂, hs₂, hsize₂.trans (hsize₁.trans hsize), hprio₂.trans (hprio.trans hf)⟩

theorem Rep.resizeUp (h : Rep q f s) (hq : q.resizeUp = some q') : Rep q' f s := by
  rw [CalendarScheduler.resizeUp] at hq
  split_ifs at hq with hn
  · exact h.resize (by have := h.1.pos; omega) (by omega) hq
  · cases hq
    exact h

theorem Rep.resizeDown (h : Rep q f s) (hq : q.resizeDown = some q') : Rep q' f s := by
  rw [CalendarScheduler.resizeDown] at hq
  split_ifs at hq with hn
  · exact h.resize (by omega) (by have := h.1.le; omega) hq
  · cases hq
    exact h

/-- An event is inserted and counted. -/
theorem Rep.withEvent (h : Rep q f s) (htime : IsTime e) (hf : f ≤ e.ts) :
    Rep (q.withEvent e) f (e ::ₘ s) := by
  obtain ⟨h, hs, hsize, rfl⟩ := h
  refine ⟨{ h.doInsert e with }, { hs with
    lastPrio_le := fun x hx => ?_
    isTime := fun x hx => ?_ }, by rw [Multiset.card_cons, ← hsize]; rfl, rfl⟩
  · rcases Multiset.mem_cons.1 hx with rfl | hx
    · exact hf
    · exact hs.lastPrio_le x hx
  · rcases Multiset.mem_cons.1 hx with rfl | hx
    · exact htime
    · exact hs.isTime x hx

variable [DecidableEq ι]

/-- **The calendar implements the event list**, unless it divides by zero. -/
theorem lawful : Lawful (ι := ι) Rep fun _ _ => True where
  isEmpty_iff := by
    rintro q f s ⟨-, -, hsize, -⟩
    change decide (q.qSize = 0) = true ↔ _
    rw [decide_eq_true_eq, hsize, Multiset.card_eq_zero]
  insert := by
    intro q f s e q' h htime hf _ hq
    exact (h.withEvent htime hf).resizeUp hq
  peekNext := by
    rintro q f s e ⟨h, hs, hsize, rfl⟩ hq
    have hfound := found_spec h hs (k := ⟨2 ^ 64 - 1, 2 ^ 32 - 1, 0⟩) (by decide)
    change q.peekNext = some e at hq
    rw [peekNext] at hq
    have hfront {i : ℕ} {e₁ : Event ι} {rest : List (Event ι)} (hb : q.bucket i = e₁ :: rest)
        (hmin : ∀ x ∈ s, e₁.rank ≤ x.rank) (he : (q.bucket i).head? = some e) :
        e ∈ s ∧ ∀ x ∈ s, e.rank ≤ x.rank := by
      rw [hb] at he
      cases he
      have hmem : e ∈ q.bucket i := hb ▸ List.mem_cons_self
      exact ⟨h.mem_iff.2 (h.hash_eq _ e hmem ▸ hmem), hmin⟩
    split_ifs at hq
    split at hq
    · next i bucketTop heq =>
      rw [heq] at hfound
      obtain ⟨e₁, rest, hb, hmin, -⟩ := hfound
      exact hfront hb hmin hq
    · next i minKey heq =>
      rw [heq] at hfound
      obtain ⟨e₁, rest, hb, hmin, -⟩ := hfound
      exact hfront hb hmin hq
    · cases hq
  removeNext := by
    rintro q f s e q' ⟨h, hs, hsize, rfl⟩ hq
    obtain ⟨⟨e₁, q₁⟩, hnext, hq⟩ := Option.bind_eq_some_iff.1 (show q.removeNext = _ from hq)
    obtain ⟨q₂, hdown, hq⟩ := Option.map_eq_some_iff.1 hq
    cases hq
    obtain ⟨t, rfl, hmin, h₁, hs₁, hprio, hsize₁, -, -⟩ := doRemoveNext_spec h hs hnext
    have hrep : Rep { q₁ with qSize := q₁.qSize - 1 } _ t :=
      ⟨{ h₁ with }, { hs₁ with }, by
        rw [hsize₁, hsize, Multiset.card_cons, Nat.add_sub_cancel], hprio⟩
    exact ⟨t, rfl, hmin, hrep.resizeDown hdown⟩
  remove := by
    rintro q f s e q' ⟨h, hs, hsize, rfl⟩ hfresh - hq
    change q.remove e = some q' at hq
    rw [remove] at hq
    split_ifs at hq
    obtain ⟨l, hl, hdown⟩ := Option.bind_eq_some_iff.1 hq
    obtain ⟨rest, heq, hset⟩ := h.set_bucket (h.hash_lt e.ts)
    have hmem : e ∈ q.bucket (q.hash e.ts) := h.mem_iff.1 (Multiset.mem_cons_self e s)
    obtain ⟨others, hothers⟩ := Multiset.exists_cons_of_mem (Multiset.mem_coe.2 hmem)
    have hs' : s = others + rest := by
      rw [hothers, Multiset.cons_add] at heq
      exact (Multiset.cons_inj_right e).1 heq
    have hl' : (l : Multiset (Event ι)) = others :=
      coe_of_eraseUid hothers (fun x hx => hfresh x (hs' ▸ Multiset.mem_add.2 (.inl hx))) hl
    have hsub := (exists_of_eraseUid hl).choose_spec.2.2
    have hnew := hset l ((h.sorted _).eraseUid hl) fun x hx => h.hash_eq _ x (hsub.subset hx)
    rw [hl', ← hs'] at hnew
    have hrep : Rep { q with
        buckets := q.buckets.set (q.hash e.ts) l, qSize := q.qSize - 1 } q.lastPrio s :=
      ⟨{ hnew with }, { hs with
        lastPrio_le := fun x hx => hs.lastPrio_le x (Multiset.mem_cons_of_mem hx)
        isTime := fun x hx => hs.isTime x (Multiset.mem_cons_of_mem hx) }, by
        rw [hsize, Multiset.card_cons, Nat.add_sub_cancel], rfl⟩
    exact hrep.resizeDown hdown

/-! ### The division by zero -/

omit [DecidableEq ι] in
/-- There is a next event if there is any. -/
theorem exists_doRemoveNext (h : Holds q s) (hs : Searchable q s) (hsize : q.qSize ≠ 0)
    (h0 : s ≠ 0) : ∃ p, q.doRemoveNext = some p := by
  have hfound := found_spec h hs (k := ⟨2 ^ 64 - 1, 0, 0xffffffff⟩) (by decide)
  have hpop {i : ℕ} {e : Event ι} {rest : List (Event ι)} (hb : q.bucket i = e :: rest) :
      q.popFront i = some (e, { q with buckets := q.buckets.set i rest }) := by
    rw [popFront, hb]
  rw [doRemoveNext, isEmpty, decide_eq_false hsize, if_neg Bool.false_ne_true]
  split
  · next i bucketTop heq =>
    rw [heq] at hfound
    obtain ⟨e, rest, hb, -⟩ := hfound
    rw [hpop hb]
    exact ⟨_, rfl⟩
  · next i minKey heq =>
    rw [heq] at hfound
    obtain ⟨e, rest, hb, -⟩ := hfound
    rw [hpop hb]
    exact ⟨_, rfl⟩
  · next minKey heq =>
    rw [heq] at hfound
    exact absurd hfound h0

omit [DecidableEq ι] in
theorem exists_takeSamples (h : Holds q s) (hs : Searchable q s) (hsize : q.qSize ≠ 0) {n : ℕ}
    (hn : n ≤ s.card) : ∃ p, takeSamples n q = some p := by
  induction n generalizing q s with
  | zero => exact ⟨_, rfl⟩
  | succ n ih =>
    have h0 : s ≠ 0 := by
      rintro rfl
      exact absurd hn (Nat.not_succ_le_zero n)
    obtain ⟨⟨e, q₁⟩, hnext⟩ := exists_doRemoveNext h hs hsize h0
    obtain ⟨t, rfl, -, h₁, hs₁, -, hsize₁, -, -⟩ := doRemoveNext_spec h hs hnext
    rw [Multiset.card_cons] at hn
    obtain ⟨p, hp⟩ := ih h₁ hs₁ (hsize₁ ▸ hsize) (Nat.le_of_succ_le_succ hn)
    refine ⟨(e :: p.1, p.2), Option.bind_eq_some_iff.2 ⟨(e, q₁), hnext, ?_⟩⟩
    rw [hp]
    rfl

omit [DecidableEq ι] in
theorem nSamples_le (q : CalendarScheduler ι) : q.nSamples ≤ q.qSize := by
  unfold nSamples
  split_ifs <;> omega

omit [DecidableEq ι] in
/-- **When a resize fails**: exactly if the estimate of the width, of the next events in their
order, is returned as `0`. -/
theorem Rep.exists_resize_iff (h : Rep q f s) {n : ℕ} :
    (∃ q', q.resize n = some q') ↔
      (2 ≤ q.qSize → ∀ l q₁, takeSamples q.nSamples q = some (l, q₁) → estimate l ≠ 0) := by
  obtain ⟨hh, hs, hsize, hf⟩ := h
  have hwidth {w : ℕ} {q₁ : CalendarScheduler ι} : (∃ q', q₁.doResize n w = some q') ↔ w ≠ 0 := by
    rw [doResize, init]
    split_ifs with hw
    · exact ⟨fun ⟨_, h⟩ => (by cases h), fun h => absurd hw h⟩
    · exact ⟨fun _ => hw, fun _ => ⟨_, rfl⟩⟩
  rw [CalendarScheduler.resize, calculateNewWidth]
  split_ifs with h2
  · rw [Option.bind_some, hwidth]
    exact ⟨fun _ hle => absurd h2 (not_lt.2 hle), fun _ => Nat.one_ne_zero⟩
  · obtain ⟨⟨l, q₁⟩, hl⟩ := exists_takeSamples hh hs (by omega)
      (q.nSamples_le.trans hsize.le)
    rw [hl, Option.map_some, Option.bind_some, hwidth]
    constructor
    · intro hne _ l' q₁' heq
      cases heq
      exact hne
    · exact fun hall => hall (not_lt.1 h2) l q₁ rfl

omit [DecidableEq ι] in
/-- The separations of sorted times add up to the separation of the first from the last. -/
theorem sum_separations {l : List (Event ι)} (hl : Sorted l) (hne : l ≠ []) :
    (separations l).sum = (l.getLast hne).ts - (l.head hne).ts ∧
      (l.head hne).ts ≤ (l.getLast hne).ts := by
  induction l with
  | nil => exact absurd rfl hne
  | cons a l ih =>
    cases l with
    | nil => exact ⟨(Nat.sub_self _).symm, le_rfl⟩
    | cons b l =>
      obtain ⟨hsum, hle⟩ := ih (List.pairwise_cons.1 hl).2 (List.cons_ne_nil b l)
      have hab := Event.ts_le_of_rank_le (hl.head_le b List.mem_cons_self)
      rw [List.head_cons] at hsum hle
      rw [separations, List.sum_cons, hsum, List.head_cons,
        List.getLast_cons (List.cons_ne_nil b l)]
      omega

omit [DecidableEq ι] in
/-- The estimate is not `0` if the samples are less than a third of `2 ^ 32` apart. -/
theorem estimate_ne_zero {l : List (Event ι)} (hl : Sorted l)
    (hspan : ∀ x ∈ l, ∀ y ∈ l, 3 * (y.ts - x.ts) < 2 ^ 32) : estimate l ≠ 0 := by
  have hsum : 3 * (separations l).sum < 2 ^ 32 := by
    cases l with
    | nil => exact Nat.two_pow_pos 32
    | cons a l =>
      rw [(sum_separations hl (List.cons_ne_nil a l)).1]
      exact hspan _ (List.head_mem _) _ (List.getLast_mem _)
  have hnear (twiceAvg : ℕ) :
      ((separations l).filter (· ≤ twiceAvg)).sum ≤ (separations l).sum :=
    List.filter_sublist.sum_le_sum fun _ _ => Nat.zero_le _
  rw [estimate]
  generalize (separations l).sum / (l.length - 1) * 2 = twiceAvg
  have hlt : ((separations l).filter (· ≤ twiceAvg)).sum * 3 < 2 ^ 32 := by
    have := hnear twiceAvg
    omega
  generalize ((separations l).filter (· ≤ twiceAvg)).sum * 3 = total at hlt
  rw [Nat.mod_eq_of_lt (hlt.trans (by decide)), Nat.mod_eq_of_lt (max_lt hlt (by decide))]
  exact (lt_max_of_lt_right Nat.one_pos).ne'

/-- **The calendar is a priority queue**: whatever is inserted, taken and removed, in any order,
however often the buckets are resized, the event handed out is always the earliest of those
inserted and neither handed out nor removed, if none is inserted with a time before that of the
last one handed out. -/
theorem calendar_behaves_as_priority_queue {calls : List (PriorityQueue.Call (Event ι))}
    {acts : List (PriorityQueue.Act (Event ι))} {q : CalendarScheduler ι}
    (hobeys : PriorityQueue.Obeys IsTime Event.ts Event.uid (fun _ _ => True)
      (new : CalendarScheduler ι) 0 0 calls)
    (hrun : PriorityQueue.run new calls = some (acts, q)) :
    ∃ f t, PriorityQueue.Behaves Event.rank 0 acts t ∧ q.Rep f t :=
  lawful.behaves rep_new hobeys hrun

/-- Five events, for which the number of buckets is doubled; one of them is taken. -/
theorem calendar_behaves_as_priority_queue_five :
    ∃ q : CalendarScheduler ℕ, PriorityQueue.run (new : CalendarScheduler ℕ)
        [.insert ⟨0, 70, 4, 0⟩, .insert ⟨1, 30, 5, 0⟩, .insert ⟨2, 90, 6, 0⟩,
          .insert ⟨3, 45, 7, 0⟩, .insert ⟨4, 50, 8, 0⟩, .removeNext] =
        some ([.inserted ⟨0, 70, 4, 0⟩, .inserted ⟨1, 30, 5, 0⟩, .inserted ⟨2, 90, 6, 0⟩,
          .inserted ⟨3, 45, 7, 0⟩, .inserted ⟨4, 50, 8, 0⟩, .taken ⟨1, 30, 5, 0⟩], q) ∧
      ∃ f t, PriorityQueue.Behaves Event.rank 0
        [.inserted ⟨0, 70, 4, 0⟩, .inserted ⟨1, 30, 5, 0⟩, .inserted ⟨2, 90, 6, 0⟩,
          .inserted ⟨3, 45, 7, 0⟩, .inserted ⟨4, 50, 8, 0⟩, .taken ⟨1, 30, 5, 0⟩] t ∧
          q.Rep f t := by
  refine ⟨⟨[[⟨3, 45, 7, 0⟩, ⟨4, 50, 8, 0⟩, ⟨0, 70, 4, 0⟩, ⟨2, 90, 6, 0⟩], [], [], []],
    4, 180, 0, 180, 30, 4⟩, by decide +kernel, ?_⟩
  refine calendar_behaves_as_priority_queue ?_ (show PriorityQueue.run _
    [.insert ⟨0, 70, 4, 0⟩, .insert ⟨1, 30, 5, 0⟩, .insert ⟨2, 90, 6, 0⟩, .insert ⟨3, 45, 7, 0⟩,
      .insert ⟨4, 50, 8, 0⟩, .removeNext] = _ by decide +kernel)
  decide +kernel

omit [DecidableEq ι] in
/-- **When `Insert` divides by zero**: exactly if the number of buckets is to be doubled and the
width estimated from the next events comes back as `0`. It never does while the events held are
less than a third of `2 ^ 32` apart. -/
theorem insert_fails_iff (h : Rep q f s) (htime : IsTime e) (hf : f ≤ e.ts) :
    (q.insert e = none ↔ q.nBuckets * 2 < q.qSize + 1 ∧ q.nBuckets < 32768 ∧
      ∃ l q₁, takeSamples (q.withEvent e).nSamples (q.withEvent e) = some (l, q₁) ∧
        estimate l = 0) ∧
    ((∀ x ∈ e ::ₘ s, ∀ y ∈ e ::ₘ s, 3 * (y.ts - x.ts) < 2 ^ 32) → q.insert e ≠ none) := by
  have hrep := h.withEvent htime hf
  have hiff : q.insert e = none ↔ q.nBuckets * 2 < q.qSize + 1 ∧ q.nBuckets < 32768 ∧
      ∃ l q₁, takeSamples (q.withEvent e).nSamples (q.withEvent e) = some (l, q₁) ∧
        estimate l = 0 := by
    have hpos := h.1.pos
    have hsome := hrep.exists_resize_iff (n := q.nBuckets * 2)
    rw [insert, CalendarScheduler.resizeUp, Option.eq_none_iff_forall_ne_some]
    change (∀ q', (if q.qSize + 1 > q.nBuckets * 2 ∧ q.nBuckets < 32768 then
      (q.withEvent e).resize (q.nBuckets * 2) else some (q.withEvent e)) ≠ some q') ↔ _
    split_ifs with hdue
    · have h2 : 2 ≤ (q.withEvent e).qSize := by
        change 2 ≤ q.qSize + 1
        omega
      rw [← not_exists, hsome]
      constructor
      · intro hfail
        simp only [not_forall, not_not] at hfail
        obtain ⟨-, l, q₁, hl, hzero⟩ := hfail
        exact ⟨hdue.1, hdue.2, l, q₁, hl, hzero⟩
      · rintro ⟨-, -, l, q₁, hl, hzero⟩ hall
        exact hall h2 l q₁ hl hzero
    · exact ⟨fun hall => absurd rfl (hall _), fun hfail => absurd ⟨hfail.1, hfail.2.1⟩ hdue⟩
  refine ⟨hiff, fun hspan hnone => ?_⟩
  obtain ⟨-, -, l, q₁, hl, hzero⟩ := hiff.1 hnone
  obtain ⟨t, heq, hsorted, -⟩ := takeSamples_spec hrep.1 hrep.2.1 hl
  refine estimate_ne_zero hsorted (fun x hx y hy => hspan x ?_ y ?_) hzero
  · exact heq ▸ Multiset.mem_add.2 (.inl (Multiset.mem_coe.2 hx))
  · exact heq ▸ Multiset.mem_add.2 (.inl (Multiset.mem_coe.2 hy))

/-- Four events, each `2 ^ 30` from the next, and a fifth one: three times the sum of their
separations is a multiple of `2 ^ 32`. -/
theorem insert_fails_iff_five :
    CalendarScheduler.insert (⟨[[⟨0, 0, 4, 0⟩, ⟨1, 2 ^ 30, 5, 0⟩, ⟨2, 2 ^ 31, 6, 0⟩,
      ⟨3, 3 * 2 ^ 30, 7, 0⟩], []], 2, 1, 0, 1, 0, 4⟩ : CalendarScheduler ℕ)
      ⟨4, 2 ^ 32, 8, 0⟩ = none := by
  have hrep : Rep (⟨[[⟨0, 0, 4, 0⟩, ⟨1, 2 ^ 30, 5, 0⟩, ⟨2, 2 ^ 31, 6, 0⟩, ⟨3, 3 * 2 ^ 30, 7, 0⟩],
      []], 2, 1, 0, 1, 0, 4⟩ : CalendarScheduler ℕ) 0
      {⟨0, 0, 4, 0⟩, ⟨1, 2 ^ 30, 5, 0⟩, ⟨2, 2 ^ 31, 6, 0⟩, ⟨3, 3 * 2 ^ 30, 7, 0⟩} :=
    ⟨{ length_eq := rfl
       pos := by decide
       le := by decide
       width_pos := by decide
       width_lt := by decide
       sorted := fun i => by
        rcases i with _ | _ | i
        · exact show List.Pairwise _ _ by decide +kernel
        · exact .nil
        · exact .nil
       hash_eq := fun i => by
        rcases i with _ | _ | i
        · decide +kernel
        · exact fun e he => by cases he
        · exact fun e he => by cases he
       content := rfl },
      ⟨by decide +kernel, by decide +kernel, by decide +kernel, by decide +kernel,
        by decide +kernel⟩, rfl, rfl⟩
  have hzero : (takeSamples 5 (withEvent (⟨[[⟨0, 0, 4, 0⟩, ⟨1, 2 ^ 30, 5, 0⟩, ⟨2, 2 ^ 31, 6, 0⟩,
      ⟨3, 3 * 2 ^ 30, 7, 0⟩], []], 2, 1, 0, 1, 0, 4⟩ : CalendarScheduler ℕ)
      ⟨4, 2 ^ 32, 8, 0⟩)).map (fun p => estimate p.1) = some 0 := by
    decide +kernel
  obtain ⟨⟨l, q₁⟩, hl, hest⟩ := Option.map_eq_some_iff.1 hzero
  exact (insert_fails_iff hrep (by decide +kernel) (Nat.zero_le _)).1.2
    ⟨by decide, by decide, l, q₁, hl, hest⟩

end CalendarScheduler

end HpccSim
