import HpccSim.SketchWindow
import Mathlib.Algebra.Order.Field.Basic
import Mathlib.Order.Bounds.Basic
import Mathlib.Order.Lattice.Nat
import Mathlib.Tactic.NormNum.Basic

/-!
# The rate that a sketch measures

`Query` divides the bytes it finds for a flow by the time since the first packet in its buckets.
Each bucket keeps the time at which it was first written in its window, and `Query` takes the least
one of all rows and of all windows in which every row has bytes. A packet of another flow that
shares a bucket may be earlier than those of the flow. Then the duration is too long, and the rate
may be too low.

## Main definitions

* `MySketch.rate`: the rate that `Query` computes, before the conversion to an integer.
* `MySketch.arrivals`: the packets passed to `Update`, by window, each with its time.
* `MySketch.flowTimes`, `MySketch.sharedTimes`: the times of the live packets of a flow, and of
  those in the buckets that are read for it.

## Main results

* `MySketch.rate_ge`: the rate is at least that of the bytes of the flow since the first packet in
  the buckets that are read for it.
-/

namespace HpccSim

namespace MySketch

variable {c : SketchConfig}

/-! ### The rate -/

/-- The rate that `Query` computes, as a `double`. -/
def rate (c : SketchConfig) (s : MySketch) (f : FiveTuple) (now : ℕ) : ℚ :=
  let s := s.refresh c f now
  let delta := getSeconds now - s.start c f
  if |delta| < 1 / 1000000000000 then 25000000000 else (s.size c f * 8).toNat / delta

/-- `Query` returns that rate. -/
theorem query_eq (s : MySketch) (f : FiveTuple) (now : ℕ) :
    s.query c f now = (s.refresh c f now, truncate (s.rate c f now)) := by
  have hbig : truncate 25000000000 = 25000000000 := by
    norm_num [truncate]
    rfl
  simp only [query, rate]
  split_ifs
  · rw [hbig]
  · rfl

/-! ### Arrivals -/

/-- A packet passed to `Update`, and when. -/
structure Arrival where
  flow : FiveTuple
  size : UInt32
  time : ℕ

/-- The packet alone. -/
def Arrival.packet (a : Arrival) : FiveTuple × UInt32 := (a.flow, a.size)

/-- The effect of an operation on the arrivals. -/
def Op.arrive (σ : Timeline Arrival) : Op → Timeline Arrival
  | .update f w now => σ.push { flow := f, size := w, time := now }
  | .nextWindow => σ.advance
  | .query _ _ => σ

/-- The packets passed to `Update`, by window, each with its time. -/
def arrivals (ops : List Op) : Timeline Arrival := ops.foldl Op.arrive .empty

/-- The time that an operation reads. -/
def Op.time? : Op → Option ℕ
  | .update _ _ now => some now
  | .nextWindow => none
  | .query _ now => some now

/-- The clock does not go back from one operation to the next. -/
def InOrder (ops : List Op) : Prop := (ops.filterMap Op.time?).Pairwise (· ≤ ·)

instance (ops : List Op) : Decidable (InOrder ops) :=
  inferInstanceAs (Decidable ((ops.filterMap Op.time?).Pairwise _))

theorem map_arrive (σ : Timeline Arrival) (op : Op) :
    (op.arrive σ).map Arrival.packet = Op.record (σ.map Arrival.packet) op := by
  cases op <;> rfl

theorem arrivals_concat (ops : List Op) (op : Op) :
    arrivals (ops ++ [op]) = op.arrive (arrivals ops) := by
  rw [arrivals, arrivals, List.foldl_append, List.foldl_cons, List.foldl_nil]

/-- Without the times the arrivals are the history. -/
theorem map_arrivals (ops : List Op) : (arrivals ops).map Arrival.packet = history ops := by
  induction ops using List.reverseRecOn with
  | nil => rfl
  | append_singleton ops op ih =>
    rw [arrivals_concat, map_arrive, ih, history_concat]

/-- What arrived was passed to `Update`. -/
theorem mem_arrivals {ops : List Op} {e : ℕ × Arrival} (he : e ∈ (arrivals ops).log) :
    .update e.2.flow e.2.size e.2.time ∈ ops := by
  induction ops using List.reverseRecOn with
  | nil => exact absurd he List.not_mem_nil
  | append_singleton ops op ih =>
    rw [arrivals_concat] at he
    refine List.mem_append.2 ?_
    cases op with
    | update f w now =>
      rcases List.mem_cons.1 he with rfl | he
      · exact .inr (List.mem_singleton.2 rfl)
      · exact .inl (ih he)
    | nextWindow => exact .inl (ih he)
    | query f now => exact .inl (ih he)

theorem InOrder.before {ops : List Op} {op : Op} (h : InOrder (ops ++ [op])) : InOrder ops := by
  rw [InOrder, List.filterMap_append] at h
  exact (List.pairwise_append.1 h).1

/-- What arrived before an operation that reads the clock is no later. -/
theorem InOrder.time_le {ops : List Op} {op : Op} (h : InOrder (ops ++ [op])) {now : ℕ}
    (hnow : op.time? = some now) {e : ℕ × Arrival} (he : e ∈ (arrivals ops).log) :
    e.2.time ≤ now := by
  rw [InOrder, List.filterMap_append] at h
  refine (List.pairwise_append.1 h).2.2 _ ?_ now ?_
  · exact List.mem_filterMap.2 ⟨_, mem_arrivals he, rfl⟩
  · simp [hnow]

/-! ### The times of the buckets -/

/-- The live packets in the slot `j` that are hashed to the column `k` of the row `i`. -/
def sharing (c : SketchConfig) (σ : Timeline Arrival) (j i k : ℕ) : List Arrival :=
  (σ.slot c.nWindows j).filter fun e => key c e.flow i = k

variable {s : MySketch} {σ : Timeline Arrival}

theorem map_sharing (j i k : ℕ) :
    (sharing c σ j i k).map Arrival.packet = hashed c (σ.map Arrival.packet) j i k := by
  rw [hashed, Timeline.slot_map, List.filter_map]
  rfl

theorem sharing_advance (j i k : ℕ) :
    sharing c σ.advance j i k =
      if j = (σ.window + 1) % c.nWindows then [] else sharing c σ j i k := by
  rw [sharing, Timeline.slot_advance]
  split_ifs <;> rfl

theorem sharing_push (hn : 0 < c.nWindows) (e : Arrival) (j i k : ℕ) :
    sharing c (σ.push e) j i k =
      if j = σ.window % c.nWindows ∧ key c e.flow i = k then e :: sharing c σ j i k
      else sharing c σ j i k := by
  rw [sharing, Timeline.slot_push hn]
  by_cases hslot : j = σ.window % c.nWindows
  · by_cases hk : key c e.flow i = k <;> simp [hslot, hk, sharing]
  · simp [hslot, sharing]

theorem mem_sharing {j i k : ℕ} {e : Arrival} :
    e ∈ sharing c σ j i k ↔
      ∃ q, (q, e) ∈ σ.live c.nWindows ∧ q % c.nWindows = j ∧ key c e.flow i = k := by
  rw [sharing, List.mem_filter, Timeline.mem_slot, decide_eq_true_eq]
  constructor
  · rintro ⟨⟨q, hq, hslot⟩, hk⟩
    exact ⟨q, hq, hslot, hk⟩
  · rintro ⟨q, hq, hslot, hk⟩
    exact ⟨⟨q, hq, hslot⟩, hk⟩

theorem mem_log_of_mem_sharing {j i k : ℕ} {e : Arrival} (he : e ∈ sharing c σ j i k) :
    ∃ q, (q, e) ∈ σ.log := by
  obtain ⟨q, hq, -⟩ := mem_sharing.1 he
  exact ⟨q, List.mem_of_mem_filter hq⟩

/-- The bucket has the time of the first one of the packets `l`. -/
def Data.Since (d : Data) (l : List Arrival) : Prop :=
  ∃ t, IsLeast {t | ∃ e ∈ l, e.time = t} t ∧ d.t = getSeconds t

/-- `data::update` with no bytes leaves the time alone. -/
theorem Data.update_zero_t (d : Data) (q m : ℤ) (now : ℕ) : (d.update 0 q m now).t = d.t := by
  rw [Data.update_zero]
  split_ifs <;> rfl

/-- `data::update` with some bytes sets the time of a bucket that was empty or too old. -/
theorem Data.update_pos_t {w : ℤ} (hw : w ≠ 0) (d : Data) (q m : ℤ) (now : ℕ) :
    (d.update w q m now).t =
      if (d.update 0 q m now).n = 0 then getSeconds now else d.t := by
  rw [Data.update_zero, Data.update, if_pos hw]
  split_ifs <;> rfl

/-- Packets that are not empty have bytes. -/
theorem ofNat_bytesOf_ne_zero {l : List Arrival} (hne : l ≠ []) (hsize : ∀ e ∈ l, 0 < e.size)
    (hfit : bytesOf (l.map Arrival.packet) < 2 ^ 64) :
    UInt64.ofNat (bytesOf (l.map Arrival.packet)) ≠ 0 := by
  have hpos : 0 < bytesOf (l.map Arrival.packet) := by
    obtain ⟨e, he⟩ := List.exists_mem_of_ne_nil l hne
    have hle : e.size.toNat ≤ bytesOf (l.map Arrival.packet) :=
      List.single_le_sum (fun _ _ => Nat.zero_le _) _
        (List.mem_map.2 ⟨e.packet, List.mem_map_of_mem he, rfl⟩)
    exact (UInt32.lt_iff_toNat_lt.1 (hsize e he)).trans_le hle
  intro h
  have hnat := congrArg UInt64.toNat h
  rw [UInt64.toNat_ofNat_of_lt' hfit] at hnat
  exact hpos.ne' hnat

/-- A packet that is written to a bucket which has the time of the first packet: it has so still. -/
theorem Data.Since.write {d : Data} {l : List Arrival} {q n j : ℕ} {a : Arrival}
    (hold : d.Holds q n j (l.map Arrival.packet)) (hq : q < 2 ^ 31) (hsince : l ≠ [] → d.Since l)
    (hsize : ∀ e ∈ l, 0 < e.size) (hfit : bytesOf (l.map Arrival.packet) < 2 ^ 64)
    (htime : ∀ e ∈ l, e.time ≤ a.time) {w : ℤ} (hw : w ≠ 0) :
    (d.update w q n a.time).Since (a :: l) := by
  have hzero := (hold.refresh hq a.time).1
  have hcons : {t | ∃ e ∈ a :: l, e.time = t} = insert a.time {t | ∃ e ∈ l, e.time = t} := by
    ext t
    simp [eq_comm]
  rw [Data.Since, Data.update_pos_t hw, hzero, hcons]
  rcases eq_or_ne l [] with rfl | hne
  · -- the bucket was empty or too old
    refine ⟨a.time, ?_, if_pos rfl⟩
    simp [IsLeast]
  · obtain ⟨t, ht, heq⟩ := hsince hne
    obtain ⟨e, he, rfl⟩ := ht.1
    refine ⟨e.time, ?_, by rw [if_neg (ofNat_bytesOf_ne_zero hne hsize hfit), heq]⟩
    have hmin := ht.insert a.time
    rwa [min_eq_right (htime e he)] at hmin

/-- Every bucket says what it should about the packets that arrived, and since when. -/
structure Clocked (c : SketchConfig) (s : MySketch) (σ : Timeline Arrival) : Prop where
  buckets : Buckets c s (σ.map Arrival.packet)
  size : ∀ e ∈ σ.log, 0 < e.2.size
  since : ∀ j < c.nWindows, ∀ i < c.nRows, ∀ k, sharing c σ j i k ≠ [] →
    bytesOf ((sharing c σ j i k).map Arrival.packet) < 2 ^ 64 →
      (s.counters j i k).Since (sharing c σ j i k)

theorem clocked_init (c : SketchConfig) (start : ℕ) : Clocked c (init c start) .empty where
  buckets := buckets_init c start
  size _ he := absurd he List.not_mem_nil
  since _ _ _ _ _ hne := absurd rfl hne

theorem Clocked.nextWindow (h : Clocked c s σ) (hw : σ.advance.window < 2 ^ 31) :
    Clocked c (s.nextWindow c) σ.advance where
  buckets := h.buckets.nextWindow hw
  size := h.size
  since j hj i hi k := by
    rw [sharing_advance]
    split_ifs
    · exact fun hne => absurd rfl hne
    · exact h.since j hj i hi k

theorem Clocked.refresh (h : Clocked c s σ) (f : FiveTuple) (now : ℕ) :
    Clocked c (s.refresh c f now) σ where
  buckets := h.buckets.refresh f now
  size := h.size
  since j hj i hi k hne hfit := by
    obtain ⟨t, ht, heq⟩ := h.since j hj i hi k hne hfit
    refine ⟨t, ht, ?_⟩
    rw [refresh_counters hj hi]
    split_ifs
    · rw [Data.update_zero_t, heq]
    · exact heq

theorem Clocked.queryAll (h : Clocked c s σ) (now : ℕ) (fs : List FiveTuple) :
    Clocked c (queryAll c now fs s).1 σ := by
  induction fs generalizing s with
  | nil => exact h
  | cons f fs ih => exact ih (h.refresh f now)

theorem Clocked.record (h : Clocked c s σ) (hn : 0 < c.nWindows) {f : FiveTuple} {w : UInt32}
    (hpos : 0 < w) (hw : w.toNat < 2 ^ 31) {now : ℕ} (hnow : ∀ e ∈ σ.log, e.2.time ≤ now) :
    Clocked c (s.record c f w.toUInt64 now) (σ.push { flow := f, size := w, time := now }) := by
  have hold : ∀ j < c.nWindows, ∀ i < c.nRows, ∀ k,
      (s.counters j i k).Holds σ.window c.nWindows j
        ((sharing c σ j i k).map Arrival.packet) := by
    intro j hj i hi k
    rw [map_sharing]
    exact h.buckets.holds j hj i hi k
  have hcur : s.curWindow = σ.window % c.nWindows := h.buckets.curWindow
  have hcnt : s.cntWindows = σ.window := h.buckets.cntWindows
  have hnonzero : toInt w.toUInt64 ≠ 0 := by
    rw [toInt_toUInt64 hw]
    have hnat := UInt32.lt_iff_toNat_lt.1 hpos
    exact Int.natCast_ne_zero.2 hnat.ne'
  refine ⟨h.buckets.record hn hpos hw now, ?_, fun j hj i hi k => ?_⟩
  · rintro e he
    rcases List.mem_cons.1 he with rfl | he
    · exact hpos
    · exact h.size e he
  rw [record_counters, touch_counters hj hi, sharing_push hn, ← hcur, hcnt]
  by_cases hk : k = key c f i
  · by_cases hslot : j = s.curWindow
    · -- the bucket the packet is written to
      rw [if_pos hk, if_pos hslot, if_pos ⟨hslot, hk.symm⟩]
      rintro - hfit
      rw [List.map_cons, bytesOf_cons] at hfit
      have hfit' : bytesOf ((sharing c σ j i k).map Arrival.packet) < 2 ^ 64 :=
        lt_of_le_of_lt (Nat.le_add_left _ _) hfit
      have hsize : ∀ e ∈ sharing c σ j i k, 0 < e.size := by
        intro e he
        obtain ⟨q, hq⟩ := mem_log_of_mem_sharing he
        exact h.size _ hq
      have htime : ∀ e ∈ sharing c σ j i k, e.time ≤ now := by
        intro e he
        obtain ⟨q, hq⟩ := mem_log_of_mem_sharing he
        exact hnow _ hq
      have hsince := h.since j hj i hi k
      exact Data.Since.write (a := { flow := f, size := w, time := now }) (hold j hj i hi k)
        h.buckets.window_lt (fun hne => hsince hne hfit') hsize hfit' htime hnonzero
    · rw [if_pos hk, if_neg hslot, if_neg (fun hand => hslot hand.1)]
      intro hne hfit
      obtain ⟨t, ht, heq⟩ := h.since j hj i hi k hne hfit
      exact ⟨t, ht, by rw [Data.update_zero_t, heq]⟩
  · rw [if_neg hk, if_neg (fun hand => hk hand.2.symm)]
    exact h.since j hj i hi k

section Run

variable (hn : 0 < c.nWindows)

include hn

theorem Clocked.step (h : Clocked c s σ) {op : Op} (hop : op.Fits)
    (hw : (op.arrive σ).window < 2 ^ 31)
    (hnow : ∀ now ∈ op.time?, ∀ e ∈ σ.log, e.2.time ≤ now) :
    Clocked c (s.step c op) (op.arrive σ) := by
  cases op with
  | update f w now =>
    obtain ⟨hpos, hw⟩ := hop
    have hrecord := h.record (f := f) hn hpos hw (hnow now rfl)
    have hall := (hrecord.refresh f now).queryAll now
      (((s.record c f w.toUInt64 now).query c f now).1.flowKeys.insert f)
    exact ⟨⟨hall.buckets.window_lt, hall.buckets.cntWindows, hall.buckets.curWindow,
      hall.buckets.holds⟩, hall.size, hall.since⟩
  | nextWindow => exact h.nextWindow hw
  | query f now => exact h.refresh f now

/-- The buckets have the right times after every sequence of operations. -/
theorem run_clocked (start : ℕ) {ops : List Op} (hops : ∀ op ∈ ops, op.Fits)
    (hw : WindowsFit c (history ops)) (horder : InOrder ops) :
    Clocked c (run c start ops) (arrivals ops) := by
  induction ops using List.reverseRecOn with
  | nil => exact clocked_init c start
  | append_singleton ops op ih =>
    have hlt := hw.window_lt
    rw [← map_arrivals, Timeline.window_map, arrivals_concat] at hlt
    rw [history_concat] at hw
    rw [run_concat, arrivals_concat]
    have hbefore := ih (fun o ho => hops o (List.mem_append_left _ ho)) hw.of_record horder.before
    exact hbefore.step hn (hops op (by simp)) hlt fun now hnow e he => horder.time_le hnow he

omit hn in
theorem Clocked.queryAllCalls (h : Clocked c s σ) (now : ℕ) (fs : List FiveTuple) :
    ∀ e ∈ s.queryAllCalls c now fs, Clocked c e.1 σ := by
  induction fs generalizing s with
  | nil => exact fun e he => absurd he List.not_mem_nil
  | cons f fs ih =>
    rintro e he
    rcases List.mem_cons.1 he with rfl | he
    · exact h
    · exact ih (h.refresh f now) e he

/-- Every call of `Query` finds the times right. -/
theorem Clocked.queryCalls (h : Clocked c s σ) {op : Op} (hop : op.Fits)
    (hnow : ∀ now ∈ op.time?, ∀ e ∈ σ.log, e.2.time ≤ now) :
    ∀ e ∈ s.queryCalls c op, Clocked c e.1 (op.arrive σ) := by
  rintro e he
  cases op with
  | update f w now =>
    obtain ⟨hpos, hw⟩ := hop
    have hrecord := h.record (f := f) hn hpos hw (hnow now rfl)
    rcases List.mem_cons.1 he with rfl | he
    · exact hrecord
    · exact (hrecord.refresh f now).queryAllCalls now _ e he
  | nextWindow => exact absurd he List.not_mem_nil
  | query f now =>
    obtain rfl := List.mem_singleton.1 he
    exact h

end Run

/-! ### The start of the measurement -/

/-- The minimum that `Query` takes of the times in a window is the least one of the rows. -/
theorem minTime_isLeast (hr : 0 < c.nRows) (s : MySketch) (f : FiveTuple) (j : ℕ) :
    IsLeast {t | ∃ i < c.nRows, (s.counters j i (key c f i)).t = t} (s.minTime c f j) := by
  have hbody : (fun tm t : ℚ => if tm > t then t else tm) = keepLeast id := by
    funext tm t
    rfl
  have hset : {t | ∃ i < c.nRows, (s.counters j i (key c f i)).t = t} =
      {t | t ∈ (List.range c.nRows).map fun i => (s.counters j i (key c f i)).t} := by
    ext t
    simp
  rw [minTime, hbody, hset]
  split
  · next hnil =>
    rw [List.map_eq_nil_iff, List.range_eq_nil] at hnil
    omega
  · next x xs hcons =>
    rw [hcons]
    exact foldl_keepLeast (u := id) x xs

/-- The start that `Query` computes is the least time of the windows in which it finds bytes, if it
is before the end of time. -/
theorem start_isLeast (s : MySketch) (f : FiveTuple) :
    IsLeast (insert 10000000000
      {t | ∃ j < c.nWindows, s.minBytes c f j ≠ 0 ∧ s.minTime c f j = t}) (s.start c f) := by
  have hset : insert 10000000000
        {t | ∃ j < c.nWindows, s.minBytes c f j ≠ 0 ∧ s.minTime c f j = t} =
      {t | t ∈ (10000000000 : ℚ) :: ((List.range c.nWindows).filter
        fun j => s.minBytes c f j ≠ 0).map (s.minTime c f)} := by
    ext t
    simp [and_assoc]
  have hstart : s.start c f = (((List.range c.nWindows).filter
      fun j => s.minBytes c f j ≠ 0).map (s.minTime c f)).foldl (keepLeast id) 10000000000 := by
    rw [start, List.foldl_map, List.foldl_filter]
    congr 1
    funext t j
    simp only [keepLeast, id, decide_eq_true_eq, ite_and]
  rw [hset, hstart]
  exact foldl_keepLeast (u := id) _ _

/-! ### Which packets start it -/

/-- The times of the live packets of the flow. -/
def flowTimes (c : SketchConfig) (σ : Timeline Arrival) (f : FiveTuple) : Set ℕ :=
  {t | ∃ e ∈ σ.live c.nWindows, e.2.flow = f ∧ e.2.time = t}

theorem isLeast_flowTimes_iff {f : FiveTuple} {t : ℕ} :
    IsLeast (flowTimes c σ f) t ↔
      (∃ e ∈ σ.live c.nWindows, e.2.flow = f ∧ e.2.time = t) ∧
        ∀ e ∈ σ.live c.nWindows, e.2.flow = f → t ≤ e.2.time := by
  refine and_congr Iff.rfl ⟨fun h e he hf => h ⟨e, he, hf, rfl⟩, ?_⟩
  rintro h _ ⟨e, he, hf, rfl⟩
  exact h e he hf

instance (f : FiveTuple) (t : ℕ) : Decidable (IsLeast (flowTimes c σ f) t) :=
  decidable_of_iff' _ isLeast_flowTimes_iff

/-- In the slot `j`, the bucket of the flow in each row holds a live packet, of whatever flow. -/
def Counted (c : SketchConfig) (σ : Timeline Arrival) (f : FiveTuple) (j : ℕ) : Prop :=
  ∀ i < c.nRows, sharing c σ j i (key c f i) ≠ []

/-- The times of the live packets that share a bucket with the flow, in a window in which the flow
is found to have bytes. -/
def sharedTimes (c : SketchConfig) (σ : Timeline Arrival) (f : FiveTuple) : Set ℕ :=
  {t | ∃ j < c.nWindows, Counted c σ f j ∧
    ∃ i < c.nRows, ∃ e ∈ sharing c σ j i (key c f i), e.time = t}

/-- The packets of the flow are among those. -/
theorem flowTimes_subset (hn : 0 < c.nWindows) (hr : 0 < c.nRows) (f : FiveTuple) :
    flowTimes c σ f ⊆ sharedTimes c σ f := by
  rintro _ ⟨⟨q, e⟩, he, rfl, rfl⟩
  have hin : ∀ i, e ∈ sharing c σ (q % c.nWindows) i (key c e.flow i) :=
    fun i => mem_sharing.2 ⟨q, he, rfl, rfl⟩
  exact ⟨q % c.nWindows, Nat.mod_lt _ hn, fun i _ => List.ne_nil_of_mem (hin i), 0, hr, e, hin 0,
    rfl⟩

theorem getSeconds_le {a b : ℕ} : getSeconds a ≤ getSeconds b ↔ a ≤ b := by
  rw [getSeconds, getSeconds, div_le_div_iff_of_pos_right (by norm_num)]
  norm_cast

section Estimate

variable (hn : 0 < c.nWindows) (hr : 0 < c.nRows) {f : FiveTuple} {now t : ℕ}

include hn hr

/-- `Query` finds bytes in the windows that are counted. -/
theorem Clocked.minBytes_ne_zero_iff (h : Clocked c s σ)
    (hfit : liveBytes c (σ.map Arrival.packet) < 2 ^ 64) {j : ℕ} (hj : j < c.nWindows) :
    (s.refresh c f now).minBytes c f j ≠ 0 ↔ Counted c σ f j := by
  have hbytes : ∀ i < c.nRows, ((s.refresh c f now).counters j i (key c f i)).n =
      .ofNat (bytesOf ((sharing c σ j i (key c f i)).map Arrival.packet)) := by
    intro i hi
    rw [map_sharing]
    exact h.buckets.n_refresh f now hj hi
  obtain ⟨⟨i, hi, heq⟩, hle⟩ := minBytes_least hr (s.refresh c f now) f j
  constructor
  · intro hne i hi hnil
    have hzero := hle i hi
    rw [hbytes i hi, hnil] at hzero
    refine hne (UInt64.toNat_inj.1 ?_)
    exact Nat.le_zero.1 (UInt64.le_iff_toNat_le.1 hzero)
  · intro hcounted
    rw [heq, hbytes i hi]
    refine ofNat_bytesOf_ne_zero (hcounted i hi) (fun e he => ?_) ?_
    · obtain ⟨q, hq⟩ := mem_log_of_mem_sharing he
      exact h.size _ hq
    · rw [map_sharing]
      exact (bytesOf_hashed_le hn hj).trans_lt hfit

/-- **The measurement starts with the first packet in the buckets that are read.** -/
theorem Clocked.start_eq (h : Clocked c s σ)
    (hfit : liveBytes c (σ.map Arrival.packet) < 2 ^ 64)
    (ht : IsLeast (sharedTimes c σ f) t) (hlt : t ≤ 10 ^ 19) :
    (s.refresh c f now).start c f = getSeconds t := by
  have hsince : ∀ {j i : ℕ}, j < c.nWindows → i < c.nRows → Counted c σ f j →
      ((s.refresh c f now).counters j i (key c f i)).Since (sharing c σ j i (key c f i)) := by
    intro j i hj hi hcounted
    refine (h.refresh f now).since j hj i hi _ (hcounted i hi) ?_
    rw [map_sharing]
    exact (bytesOf_hashed_le hn hj).trans_lt hfit
  have hiff : ∀ {j}, j < c.nWindows →
      ((s.refresh c f now).minBytes c f j ≠ 0 ↔ Counted c σ f j) :=
    fun hj => h.minBytes_ne_zero_iff hn hr hfit hj
  obtain ⟨hstart, hle⟩ := start_isLeast (c := c) (s.refresh c f now) f
  refine le_antisymm ?_ ?_
  · obtain ⟨j, hj, hcounted, i, hi, e, he, rfl⟩ := ht.1
    obtain ⟨u, hu, heq⟩ := hsince hj hi hcounted
    calc (s.refresh c f now).start c f
        ≤ (s.refresh c f now).minTime c f j := hle (.inr ⟨j, hj, (hiff hj).2 hcounted, rfl⟩)
      _ ≤ ((s.refresh c f now).counters j i (key c f i)).t :=
        (minTime_isLeast hr _ f j).2 ⟨i, hi, rfl⟩
      _ = getSeconds u := heq
      _ ≤ getSeconds e.time := getSeconds_le.2 (hu.2 ⟨e, he, rfl⟩)
  · rcases hstart with hend | ⟨j, hj, hbytes, heq⟩
    · rw [hend]
      have hcast : getSeconds ((10 ^ 19 : ℕ) : ℤ) = 10000000000 := by norm_num [getSeconds]
      rw [← hcast]
      exact getSeconds_le.2 hlt
    · have hcounted := (hiff hj).1 hbytes
      obtain ⟨i, hi, hmin⟩ := (minTime_isLeast hr (s.refresh c f now) f j).1
      obtain ⟨u, ⟨⟨e, he, rfl⟩, -⟩, htime⟩ := hsince hj hi hcounted
      rw [← heq, ← hmin, htime]
      exact getSeconds_le.2 (ht.2 ⟨j, hj, hcounted, i, hi, e, he, rfl⟩)

/-- The rate is that of the bytes found since then. -/
theorem Clocked.rate_eq (h : Clocked c s σ)
    (hfit : liveBytes c (σ.map Arrival.packet) < 2 ^ 61) (hnow : now < 2 ^ 63)
    (ht : IsLeast (sharedTimes c σ f) t)
    (hdelta : 1 / 1000000000000 ≤ getSeconds now - getSeconds t) :
    s.rate c f now =
      8 * ((s.refresh c f now).size c f).toNat / (getSeconds now - getSeconds t) := by
  have hbefore : t ≤ now := by
    rw [← getSeconds_le, ← sub_nonneg]
    exact le_trans (by norm_num) hdelta
  have hstart : (s.refresh c f now).start c f = getSeconds t :=
    h.start_eq hn hr (hfit.trans (by norm_num)) ht (by omega)
  have hsize := (h.buckets.size_bounds hn hr (hfit.trans (by norm_num)) f now).2
  have height : ((s.refresh c f now).size c f * 8).toNat =
      8 * ((s.refresh c f now).size c f).toNat := by
    have hlit : (8 : UInt64).toNat = 8 := rfl
    rw [UInt64.toNat_mul, hlit, Nat.mul_comm, Nat.mod_eq_of_lt]
    omega
  have habs : ¬ |getSeconds now - getSeconds t| < 1 / 1000000000000 :=
    not_lt.2 (hdelta.trans (le_abs_self _))
  simp only [rate, hstart]
  rw [if_neg habs, height]
  norm_cast

end Estimate

/-- **The rate is at least that of the flow's bytes since the first packet in its buckets.**
Whatever the operations before, if the flow has live packets and the first one is not from just now,
every call of `Query` computes at least the rate of the live bytes of the flow since the first live
packet that shares a bucket with it in a window that is counted. The packets are of `1` to
`2 ^ 31 - 1` bytes, the numbers of the windows fit in an `int` and `8` times the live bytes in 64
bits, and the clock does not go back. -/
theorem rate_ge (c : SketchConfig) (hn : 0 < c.nWindows) (hr : 0 < c.nRows) (start : ℕ)
    (ops : List Op) (op : Op) (hops : ∀ o ∈ ops ++ [op], o.Fits)
    (hw : WindowsFit c (history (ops ++ [op]))) (horder : InOrder (ops ++ [op]))
    (hnow : op.now < 2 ^ 63) (hfit : liveBytes c (history (ops ++ [op])) < 2 ^ 61) :
    ∀ e ∈ (run c start ops).queryCalls c op, ∀ t : ℕ,
      IsLeast (flowTimes c (arrivals (ops ++ [op])) e.2) t →
      1 / 1000000000000 ≤ getSeconds op.now - getSeconds t →
      ∃ T ≤ t, IsLeast (sharedTimes c (arrivals (ops ++ [op])) e.2) T ∧
        8 * flowBytes c (history (ops ++ [op])) e.2 / (getSeconds op.now - getSeconds T) ≤
          e.1.rate c e.2 op.now := by
  rintro ⟨s, f⟩ he t ht hdelta
  rw [history_concat] at hw
  have hrun := run_clocked hn start (fun o ho => hops o (List.mem_append_left _ ho)) hw.of_record
    horder.before
  have hclocked := hrun.queryCalls hn (hops op (by simp))
    (fun now hnow e he => horder.time_le hnow he) (s, f) he
  rw [← arrivals_concat] at hclocked
  rw [← map_arrivals] at hfit ⊢
  have hshared : (sharedTimes c (arrivals (ops ++ [op])) f).Nonempty :=
    ⟨t, flowTimes_subset hn hr f ht.1⟩
  obtain ⟨T, hT⟩ : ∃ T, IsLeast (sharedTimes c (arrivals (ops ++ [op])) f) T :=
    ⟨_, Nat.sInf_mem hshared, fun _ => Nat.sInf_le⟩
  have hle : T ≤ t := hT.2 (flowTimes_subset hn hr f ht.1)
  have hdelta' : 1 / 1000000000000 ≤ getSeconds op.now - getSeconds T :=
    hdelta.trans (sub_le_sub_left (getSeconds_le.2 hle) _)
  have hpos : 0 ≤ getSeconds op.now - getSeconds T := le_trans (by norm_num) hdelta'
  have hsize := (hclocked.buckets.size_bounds hn hr (hfit.trans (by norm_num)) f op.now).1
  have hcast : (flowBytes c ((arrivals (ops ++ [op])).map Arrival.packet) f : ℚ) ≤
      ((s.refresh c f op.now).size c f).toNat := by exact_mod_cast hsize
  refine ⟨T, hle, hT, ?_⟩
  rw [hclocked.rate_eq hn hr hfit hnow hT hdelta']
  gcongr

/-- A flow with two packets, and one of another column between them. -/
def apart : List Op :=
  [.update smallFlow 1000 0, .update { smallFlow with sip := 0x0b000002 } 500 3000, .nextWindow,
    .update smallFlow 1000 6000]

theorem rate_ge_apart :
    (∀ o ∈ apart ++ [.query smallFlow 7000], o.Fits) ∧
    WindowsFit smallSketch (history (apart ++ [.query smallFlow 7000])) ∧
    InOrder (apart ++ [.query smallFlow 7000]) ∧
    ∃ T ≤ 0,
      IsLeast (sharedTimes smallSketch (arrivals (apart ++ [.query smallFlow 7000])) smallFlow) T ∧
      8 * flowBytes smallSketch (history (apart ++ [.query smallFlow 7000])) smallFlow /
          (getSeconds 7000 - getSeconds T) ≤
        (run smallSketch 0 apart).rate smallSketch smallFlow 7000 :=
  ⟨by decide, by decide, by decide, rate_ge smallSketch (by decide) (by decide) 0 _
    (.query smallFlow 7000) (by decide) (by decide) (by decide) (by decide) (by decide)
    (_, smallFlow) List.mem_cons_self 0 (by decide +kernel) (by decide +kernel)⟩

/-- A packet of another flow in the same bucket, `5` microseconds before that of the flow. -/
def overlaid : List Op :=
  [.update { smallFlow with sip := 0x0b000005 } 100 0, .update smallFlow 1000 5000]

/-- The rate is `1.7` instead of `80` gigabits a second. -/
theorem rate_lt_of_earlier :
    ¬ ∀ t : ℕ, IsLeast (flowTimes smallSketch (arrivals overlaid) smallFlow) t →
      1 / 1000000000000 ≤ getSeconds 5100 - getSeconds t →
      8 * flowBytes smallSketch (history overlaid) smallFlow / (getSeconds 5100 - getSeconds t) ≤
        (run smallSketch 0 overlaid).rate smallSketch smallFlow 5100 := by
  intro h
  have hrate := h 5000 (by decide +kernel) (by decide +kernel)
  exact absurd hrate (by decide +kernel)

end MySketch

end HpccSim
