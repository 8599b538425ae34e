import HpccSim.Lib.KeepBest
import HpccSim.MySketch
import Mathlib.Algebra.BigOperators.Group.Finset.Sigma
import Mathlib.Algebra.BigOperators.Intervals
import Mathlib.Algebra.BigOperators.Ring.Finset
import Mathlib.Tactic.Ring

/-!
# The sliding window of a sketch

The books that a sketch keeps incrementally are those of the packets passed to `Update` in the last
`m_nWindows` windows: the bytes of each slot and in all, the last window in which each column of
row `0` was touched, the number of columns of each slot and in all, and the bytes of every bucket
that is not too old.

## Main definitions

* `MySketch.Books`: the books are those of the history.
* `MySketch.Data.Holds`: what a bucket says about the live packets that were hashed to it.

## Main results

* `MySketch.run_books`: the books are right after every sequence of operations.
* `MySketch.window_invariants`: the invariants of the sliding window.
* `MySketch.query_bounds`: the estimate of a flow is between its bytes and all bytes.
-/

namespace HpccSim

namespace MySketch

variable {c : SketchConfig} {s t : MySketch} {τ : Timeline (FiveTuple × UInt32)}

/-! ### What the queries leave alone -/

/-- The two states differ in the buckets and the flow keys only. -/
def SameBooks (s t : MySketch) : Prop :=
  t = { s with counters := t.counters, flowKeys := t.flowKeys }

theorem SameBooks.trans {u : MySketch} (h : SameBooks s t) (h' : SameBooks t u) :
    SameBooks s u := by
  rw [SameBooks] at h h' ⊢
  rw [h', h]

theorem sameBooks_queryAll (now : ℕ) (fs : List FiveTuple) (s : MySketch) :
    SameBooks s (queryAll c now fs s).1 := by
  induction fs generalizing s with
  | nil => rfl
  | cons f fs ih => exact SameBooks.trans (t := (s.query c f now).1) rfl (ih _)

/-- What `Update` does to the books, it does before the queries. -/
theorem sameBooks_update (s : MySketch) (f : FiveTuple) (w : UInt32) (now : ℕ) :
    SameBooks (s.record c f w.toUInt64 now) (s.update c f w now).1 := by
  have hall := sameBooks_queryAll (c := c) now
    (((s.record c f w.toUInt64 now).query c f now).1.flowKeys.insert f)
    ((s.record c f w.toUInt64 now).query c f now).1
  have hquery : SameBooks (s.record c f w.toUInt64 now)
      ((s.record c f w.toUInt64 now).query c f now).1 := rfl
  have hkeys : ∀ (u : MySketch) l, SameBooks u { u with flowKeys := l } := fun _ _ => rfl
  exact (hquery.trans hall).trans (hkeys _ _)

/-! ### Runs -/

theorem run_concat (start : ℕ) (ops : List Op) (op : Op) :
    run c start (ops ++ [op]) = (run c start ops).step c op := by
  rw [run, run, List.foldl_append, List.foldl_cons, List.foldl_nil]

theorem history_concat (ops : List Op) (op : Op) :
    history (ops ++ [op]) = Op.record (history ops) op := by
  rw [history, history, List.foldl_append, List.foldl_cons, List.foldl_nil]

/-! ### The number of the window -/

/-- An `int` that is in range does not wrap. -/
theorem wrapInt_eq {x : ℤ} (hlow : -2 ^ 31 ≤ x) (hhigh : x < 2 ^ 31) : wrapInt x = x :=
  Int.bmod_eq_of_le_mul_two (by omega) (by omega)

instance (τ : Timeline (FiveTuple × UInt32)) : Decidable (WindowsFit c τ) :=
  inferInstanceAs (Decidable (_ ∧ _))

theorem WindowsFit.window_lt (h : WindowsFit c τ) : τ.window < 2 ^ 31 := by
  have hlt := h.2
  omega

theorem WindowsFit.of_record {op : Op} (h : WindowsFit c (Op.record τ op)) : WindowsFit c τ := by
  cases op with
  | update f w now => exact h
  | nextWindow =>
    obtain ⟨hn, hwindow⟩ := h
    rw [Op.record, Timeline.window_advance] at hwindow
    exact ⟨hn, by omega⟩
  | query f now => exact h

/-! ### The books -/

/-- The packet touches the column `k` of row `0`. -/
def touches (c : SketchConfig) (k : ℕ) (e : FiveTuple × UInt32) : Bool :=
  0 < c.nRows ∧ key c e.1 0 = k

/-- The last window in which the column `k` was touched is live, in the slot `j`. -/
def lastIn (c : SketchConfig) (τ : Timeline (FiveTuple × UInt32)) (k j : ℕ) : Bool :=
  (τ.last (touches c k)).any fun q => τ.window < q + c.nWindows ∧ q % c.nWindows = j

/-- The last window in which the column `k` was touched; before it is, a window too old to be
live. -/
def lastTouch (c : SketchConfig) (τ : Timeline (FiveTuple × UInt32)) (k : ℕ) : ℤ :=
  match τ.last (touches c k) with
  | some q => q
  | none => -c.nWindows

/-- The books of a sketch that was initialised at the time `start` are those of the history `τ`. -/
structure Books (c : SketchConfig) (start : ℕ) (s : MySketch)
    (τ : Timeline (FiveTuple × UInt32)) : Prop where
  cntWindows : s.cntWindows = (τ.window : ℤ)
  curWindow : s.curWindow = τ.window % c.nWindows
  startTime : s.startTime = start + (τ.window + 1 - c.nWindows) * c.windowSize
  bytes : ∀ j < c.nWindows, s.bytes j = .ofNat (bytesOf (τ.slot c.nWindows j))
  totalBytes : s.totalBytes = .ofNat (liveBytes c τ)
  B : ∀ k, s.B k = lastTouch c τ k
  cntB : ∀ j < c.nWindows,
    s.cntB j = ∑ k ∈ Finset.range c.nColumns, if lastIn c τ k j then 1 else 0
  card : s.card = ∑ j ∈ Finset.range c.nWindows, s.cntB j

theorem Books.of_sameBooks {start : ℕ} (h : Books c start s τ) (hst : SameBooks s t) :
    Books c start t τ := by
  rw [hst]
  exact ⟨h.cntWindows, h.curWindow, h.startTime, h.bytes, h.totalBytes, h.B, h.cntB, h.card⟩

theorem books_init (c : SketchConfig) (hn : 0 < c.nWindows) (start : ℕ) :
    Books c start (init c start) .empty where
  cntWindows := rfl
  curWindow := (Nat.zero_mod _).symm
  startTime := by
    have hzero : 0 + 1 - c.nWindows = 0 := by omega
    simp [init, hzero]
  bytes _ _ := rfl
  totalBytes := rfl
  B _ := rfl
  cntB _ _ := by simp [init, lastIn]
  card := by simp [init]

/-! ### The next window -/

section NextWindow

variable {start : ℕ} (h : Books c start s τ) (hn : 0 < c.nWindows)
  (hw : WindowsFit c τ.advance)

/-- Only the slot that the next window takes over loses columns. -/
theorem lastIn_advance (k j : ℕ) :
    lastIn c τ.advance k j = if j = (τ.window + 1) % c.nWindows then false else lastIn c τ k j := by
  rw [lastIn, lastIn, Timeline.last_advance, Timeline.window_advance]
  cases hlast : τ.last (touches c k) with
  | none => simp
  | some q =>
    have hiff := Timeline.lt_add_iff_of_lt (n := c.nWindows) (Timeline.last_le hlast)
    simp only [Option.any_some, hiff]
    split_ifs with hj
    · simp [hj]
      tauto
    · rw [decide_eq_decide]
      constructor
      · rintro ⟨⟨-, hlt⟩, hslot⟩
        exact ⟨hlt, hslot⟩
      · rintro ⟨hlt, hslot⟩
        exact ⟨⟨fun heq => hj (hslot.symm.trans heq), hlt⟩, hslot⟩

theorem liveBytes_eq_sum (hn : 0 < c.nWindows) (τ : Timeline (FiveTuple × UInt32)) :
    liveBytes c τ = ∑ j ∈ Finset.range c.nWindows, bytesOf (τ.slot c.nWindows j) :=
  (Timeline.sum_slot hn fun e : FiveTuple × UInt32 => e.2.toNat).symm

/-- The bytes of the slot that the next window takes over expire. -/
theorem liveBytes_advance (τ : Timeline (FiveTuple × UInt32)) :
    liveBytes c τ.advance + bytesOf (τ.slot c.nWindows ((τ.window + 1) % c.nWindows)) =
      liveBytes c τ :=
  Timeline.sum_live_advance fun e : FiveTuple × UInt32 => e.2.toNat

include h hn hw

theorem Books.nextWindow : Books c start (s.nextWindow c) τ.advance := by
  have hcnt : wrapInt (s.cntWindows + 1) = (τ.window + 1 : ℕ) := by
    have hlt := hw.2
    rw [Timeline.window_advance] at hlt
    rw [h.cntWindows, wrapInt_eq (by omega) (by omega), Nat.cast_add_one]
  have hcur : (s.curWindow + 1) % c.nWindows = (τ.window + 1) % c.nWindows := by
    rw [h.curWindow, Nat.mod_add_mod]
  have hlt : (τ.window + 1) % c.nWindows < c.nWindows := Nat.mod_lt _ hn
  refine ⟨hcnt, hcur, ?_, ?_, ?_, h.B, ?_, ?_⟩
  · have hstart : (s.nextWindow c).startTime = if wrapInt (s.cntWindows + 1) ≥ c.nWindows
        then s.startTime + c.windowSize else s.startTime := rfl
    rw [hstart, hcnt, h.startTime, Timeline.window_advance]
    simp only [ge_iff_le, Nat.cast_le]
    split_ifs with hge
    · have hsucc : τ.window + 1 + 1 - c.nWindows = τ.window + 1 - c.nWindows + 1 := by omega
      rw [hsucc, Nat.succ_mul, Nat.add_assoc]
    · have hzero : τ.window + 1 - c.nWindows = 0 := by omega
      have hzero' : τ.window + 1 + 1 - c.nWindows = 0 := by omega
      rw [hzero, hzero']
  · intro j hj
    have hbytes : (s.nextWindow c).bytes = Function.update s.bytes
        ((s.curWindow + 1) % c.nWindows) 0 := rfl
    rw [hbytes, hcur, Timeline.slot_advance]
    split_ifs with hslot
    · rw [hslot, Function.update_self]
      rfl
    · rw [Function.update_of_ne hslot, h.bytes j hj]
  · have htotal : (s.nextWindow c).totalBytes =
        s.totalBytes - s.bytes ((s.curWindow + 1) % c.nWindows) := rfl
    rw [htotal, hcur, h.totalBytes, h.bytes _ hlt, ← liveBytes_advance τ, UInt64.ofNat_add,
      UInt64.add_sub_cancel]
  · intro j hj
    have hcnt : (s.nextWindow c).cntB = Function.update s.cntB
        ((s.curWindow + 1) % c.nWindows) 0 := rfl
    rw [hcnt, hcur]
    by_cases hslot : j = (τ.window + 1) % c.nWindows
    · simp [lastIn_advance, hslot]
    · simp only [lastIn_advance, if_neg hslot, Function.update_of_ne hslot, h.cntB j hj]
  · have hcard : (s.nextWindow c).card = s.card - s.cntB ((s.curWindow + 1) % c.nWindows) := rfl
    have hcnt : (s.nextWindow c).cntB = Function.update s.cntB
        ((s.curWindow + 1) % c.nWindows) 0 := rfl
    rw [hcard, hcnt, hcur, h.card, Finset.sum_update_of_mem (Finset.mem_range.2 hlt), zero_add,
      ← Finset.sum_erase_eq_sub (Finset.mem_range.2 hlt), Finset.erase_eq]

end NextWindow

/-! ### A packet -/

section Record

variable {start : ℕ} {f : FiveTuple} {w : UInt32}

/-- Adding to one term of a sum. -/
theorem sum_update_add {n j : ℕ} (hj : j < n) (g : ℕ → ℤ) (x : ℤ) :
    ∑ i ∈ Finset.range n, Function.update g j (g j + x) i = ∑ i ∈ Finset.range n, g i + x := by
  rw [Finset.sum_update_of_mem (Finset.mem_range.2 hj), ← Finset.erase_eq,
    Finset.sum_erase_eq_sub (Finset.mem_range.2 hj)]
  ring

/-- A packet moves the column it touches to the slot of the current window. -/
theorem lastIn_push (hn : 0 < c.nWindows) (e : FiveTuple × UInt32) (k j : ℕ) :
    lastIn c (τ.push e) k j =
      if touches c k e then decide (j = τ.window % c.nWindows) else lastIn c τ k j := by
  rw [lastIn, Timeline.last_push, Timeline.window_push]
  split_ifs with htouch
  · rw [Option.any_some, decide_eq_decide]
    exact ⟨fun h => h.2.symm, fun h => ⟨by omega, h.symm⟩⟩
  · rfl

/-- The column `k`, if it is live, leaves the slot it was last touched in. -/
theorem Books.leaveB (h : Books c start s τ) (hn : 0 < c.nWindows) (hw : WindowsFit c τ) (k : ℕ) :
    (∀ j < c.nWindows,
      (s.leaveB c k).cntB j = s.cntB j - if lastIn c τ k j then 1 else 0) ∧
    (s.leaveB c k).card = ∑ j ∈ Finset.range c.nWindows, (s.leaveB c k).cntB j := by
  have hwindow := hw.2
  cases hlast : τ.last (touches c k) with
  | none =>
    have hB : s.B k = -c.nWindows := by rw [h.B, lastTouch, hlast]
    have hnot : ¬ wrapInt ((τ.window : ℤ) - -(c.nWindows : ℤ)) < c.nWindows := by
      rw [wrapInt_eq (by omega) (by omega)]
      omega
    simp only [MySketch.leaveB, h.cntWindows, hB, hnot, if_false, lastIn, hlast, Option.any_none]
    exact ⟨fun j _ => by simp, h.card⟩
  | some q =>
    have hB : s.B k = q := by rw [h.B, lastTouch, hlast]
    have hslot : ((q : ℤ).tmod c.nWindows).toNat = q % c.nWindows := by
      rw [← Int.ofNat_tmod, Int.toNat_natCast]
    have hle := Timeline.last_le hlast
    have hage : wrapInt ((τ.window : ℤ) - q) = τ.window - q := wrapInt_eq (by omega) (by omega)
    by_cases hlive : τ.window < q + c.nWindows
    · have hlive' : (τ.window : ℤ) - q < c.nWindows := by omega
      have hlt : q % c.nWindows < c.nWindows := Nat.mod_lt _ hn
      simp only [MySketch.leaveB, h.cntWindows, hB, hage, hlive', if_true, hslot, lastIn, hlast,
        Option.any_some]
      refine ⟨fun j _ => ?_, ?_⟩
      · by_cases hj : j = q % c.nWindows
        · simp [hj, hlive]
        · simp [hj, Ne.symm hj]
      · rw [h.card, sub_eq_add_neg, sub_eq_add_neg, sum_update_add hlt]
    · have hlive' : ¬ (τ.window : ℤ) - q < c.nWindows := by omega
      simp only [MySketch.leaveB, h.cntWindows, hB, hage, hlive', if_false, lastIn, hlast,
        Option.any_some, hlive]
      exact ⟨fun j _ => by simp, h.card⟩

/-- `leaveB` touches the counts of columns only. -/
theorem leaveB_eq (s : MySketch) (k : ℕ) : s.leaveB c k =
    { s with cntB := (s.leaveB c k).cntB, card := (s.leaveB c k).card } := by
  rw [MySketch.leaveB]
  split_ifs <;> rfl

/-- The counts of columns when the column `k` is touched. -/
theorem Books.updateB (h : Books c start s τ) (hn : 0 < c.nWindows) (hw : WindowsFit c τ) {k : ℕ}
    (hk : k < c.nColumns) {e : FiveTuple × UInt32} (htouch : ∀ i, touches c i e = decide (i = k)) :
    (∀ j < c.nWindows, (s.updateB c k).cntB j =
      ∑ i ∈ Finset.range c.nColumns, if lastIn c (τ.push e) i j then 1 else 0) ∧
    (s.updateB c k).card = ∑ j ∈ Finset.range c.nWindows, (s.updateB c k).cntB j := by
  obtain ⟨hleave, hcard⟩ := h.leaveB hn hw k
  have hcur : (s.leaveB c k).curWindow = s.curWindow := by rw [leaveB_eq]
  have hlt : s.curWindow < c.nWindows := by
    rw [h.curWindow]
    exact Nat.mod_lt _ hn
  have hcnt : (s.updateB c k).cntB = Function.update (s.leaveB c k).cntB s.curWindow
      ((s.leaveB c k).cntB s.curWindow + 1) := by
    rw [MySketch.updateB, hcur]
  have hcard' : (s.updateB c k).card = (s.leaveB c k).card + 1 := rfl
  refine ⟨fun j hj => ?_, by rw [hcnt, hcard', sum_update_add hlt, hcard]⟩
  -- the sums over the columns differ at `k` only
  have hmem : k ∈ Finset.range c.nColumns := Finset.mem_range.2 hk
  have hrest : ∑ i ∈ (Finset.range c.nColumns).erase k,
        (if lastIn c (τ.push e) i j then (1 : ℤ) else 0) =
      ∑ i ∈ (Finset.range c.nColumns).erase k, if lastIn c τ i j then 1 else 0 := by
    refine Finset.sum_congr rfl fun i hi => ?_
    rw [lastIn_push hn, htouch, decide_eq_false (Finset.ne_of_mem_erase hi)]
    rfl
  rw [← Finset.add_sum_erase _ _ hmem, hrest, Finset.sum_erase_eq_sub hmem, ← h.cntB j hj,
    lastIn_push hn, htouch, decide_eq_true rfl, if_pos rfl, ← h.curWindow, hcnt]
  by_cases hslot : j = s.curWindow
  · subst hslot
    rw [Function.update_self, hleave _ hj]
    simp
    ring
  · rw [Function.update_of_ne hslot, hleave j hj]
    simp [hslot]

/-- `updateB` touches the books of the columns only. -/
theorem updateB_of_bytes (s : MySketch) (k : ℕ) (n : UInt64) (l : ℕ → UInt64)
    (d : ℕ → ℕ → ℕ → Data) :
    ({ s with totalBytes := n, bytes := l, counters := d } : MySketch).updateB c k =
      { s.updateB c k with totalBytes := n, bytes := l, counters := d } := by
  rw [MySketch.updateB, MySketch.updateB, MySketch.leaveB, MySketch.leaveB]
  split_ifs <;> rfl

theorem liveBytes_push (hn : 0 < c.nWindows) :
    UInt64.ofNat (liveBytes c (τ.push (f, w))) = .ofNat (liveBytes c τ) + w.toUInt64 := by
  have hlive : liveBytes c (τ.push (f, w)) = w.toNat + liveBytes c τ := by
    rw [liveBytes, Timeline.live_push hn]
    rfl
  rw [hlive, UInt64.ofNat_add, UInt64.ofNat_uInt32ToNat, UInt64.add_comm]

/-- The bytes of the slots when a packet is recorded. -/
theorem Books.bytes_push (h : Books c start s τ) (hn : 0 < c.nWindows) {j : ℕ}
    (hj : j < c.nWindows) :
    Function.update s.bytes s.curWindow (s.bytes s.curWindow + w.toUInt64) j =
      .ofNat (bytesOf ((τ.push (f, w)).slot c.nWindows j)) := by
  rw [Timeline.slot_push hn, ← h.curWindow]
  split_ifs with hslot
  · subst hslot
    rw [Function.update_self, h.bytes _ hj, bytesOf, bytesOf, List.map_cons, List.sum_cons,
      UInt64.ofNat_add, UInt64.ofNat_uInt32ToNat, UInt64.add_comm]
  · rw [Function.update_of_ne hslot, h.bytes j hj]

theorem lastTouch_push (e : FiveTuple × UInt32) (k : ℕ) :
    lastTouch c (τ.push e) k = if touches c k e then (τ.window : ℤ) else lastTouch c τ k := by
  rw [lastTouch, Timeline.last_push]
  split_ifs <;> rfl

theorem Books.record (h : Books c start s τ) (hn : 0 < c.nWindows) (hc : 0 < c.nColumns)
    (hw : WindowsFit c τ) (now : ℕ) :
    Books c start (s.record c f w.toUInt64 now) (τ.push (f, w)) := by
  have htotal : s.totalBytes + w.toUInt64 = .ofNat (liveBytes c (τ.push (f, w))) := by
    rw [h.totalBytes, liveBytes_push hn]
  have hbytes : ∀ j < c.nWindows,
      Function.update s.bytes s.curWindow (s.bytes s.curWindow + w.toUInt64) j =
        .ofNat (bytesOf ((τ.push (f, w)).slot c.nWindows j)) := fun _ hj => h.bytes_push hn hj
  by_cases hrows : 0 < c.nRows
  · have htouch : ∀ k, touches c k (f, w) = decide (k = key c f 0) := fun k => by
      simp [touches, hrows, eq_comm]
    obtain ⟨hcnt, hcard⟩ := h.updateB hn hw (Nat.mod_lt _ hc) htouch
    have hB : (s.updateB c (key c f 0)).B = Function.update s.B (key c f 0) s.cntWindows := by
      rw [MySketch.updateB, leaveB_eq]
    have hrest : s.updateB c (key c f 0) = { s with
        B := (s.updateB c (key c f 0)).B
        cntB := (s.updateB c (key c f 0)).cntB
        card := (s.updateB c (key c f 0)).card } := by
      rw [MySketch.updateB, leaveB_eq]
    have hrec : s.record c f w.toUInt64 now = { s.updateB c (key c f 0) with
        totalBytes := s.totalBytes + w.toUInt64
        bytes := Function.update s.bytes s.curWindow (s.bytes s.curWindow + w.toUInt64)
        counters := (s.touch c f (fun j => if j = s.curWindow then toInt w.toUInt64 else 0)
          now).counters } := by
      rw [MySketch.record, if_pos hrows]
      exact updateB_of_bytes s ..
    rw [hrec]
    refine ⟨?_, ?_, ?_, hbytes, htotal, fun k => ?_, hcnt, hcard⟩
    · rw [hrest]
      exact h.cntWindows
    · rw [hrest]
      exact h.curWindow
    · rw [hrest]
      exact h.startTime
    · show (s.updateB c (key c f 0)).B k = _
      rw [hB, lastTouch_push, htouch]
      by_cases hk : k = key c f 0
      · simp [hk, h.cntWindows]
      · simp [hk, h.B]
  · have htouch : ∀ k, touches c k (f, w) = false := fun k => by simp [touches, hrows]
    have hrec : s.record c f w.toUInt64 now = { s with
        totalBytes := s.totalBytes + w.toUInt64
        bytes := Function.update s.bytes s.curWindow (s.bytes s.curWindow + w.toUInt64)
        counters := (s.record c f w.toUInt64 now).counters } := by
      rw [MySketch.record, if_neg hrows]
      rfl
    rw [hrec]
    refine ⟨h.cntWindows, h.curWindow, h.startTime, hbytes, htotal, fun k => ?_, fun j hj => ?_,
      h.card⟩
    · rw [lastTouch_push, htouch]
      exact h.B k
    · simp only [lastIn_push hn, htouch]
      exact h.cntB j hj

end Record

/-! ### Every sequence of operations -/

section Run

variable {start : ℕ} (hn : 0 < c.nWindows) (hc : 0 < c.nColumns)

include hn hc

theorem Books.step (h : Books c start s τ) {op : Op} (hw : WindowsFit c (Op.record τ op)) :
    Books c start (s.step c op) (Op.record τ op) := by
  cases op with
  | update f w now =>
    exact (h.record hn hc hw.of_record now).of_sameBooks (sameBooks_update s f w now)
  | nextWindow => exact h.nextWindow hn hw
  | query f now => exact h.of_sameBooks rfl

/-- **The books are right after every sequence of operations** in which the numbers of the windows
fit. -/
theorem run_books (start : ℕ) {ops : List Op} (hw : WindowsFit c (history ops)) :
    Books c start (run c start ops) (history ops) := by
  induction ops using List.reverseRecOn with
  | nil => exact books_init c hn start
  | append_singleton ops op ih =>
    rw [history_concat] at hw
    rw [run_concat, history_concat]
    exact (ih hw.of_record).step hn hc hw

end Run

/-! ### The invariants of the sliding window -/

/-- The columns of row `0` that were touched in the live windows. -/
def liveColumns (c : SketchConfig) (τ : Timeline (FiveTuple × UInt32)) : Finset ℕ :=
  (Finset.range c.nColumns).filter fun k => (τ.live c.nWindows).any fun e => touches c k e.2

/-- The invariants of the sliding window of a sketch that was initialised at the time `start`, if
the packets passed to `Update` are those of `τ`. -/
structure WindowInvariants (c : SketchConfig) (start : ℕ) (s : MySketch)
    (τ : Timeline (FiveTuple × UInt32)) : Prop where
  cntWindows : s.cntWindows = (τ.window : ℤ)
  curWindow : (s.curWindow : ℤ) = s.cntWindows % c.nWindows
  totalBytes : s.totalBytes.toNat = ∑ j ∈ Finset.range c.nWindows, (s.bytes j).toNat
  live : s.totalBytes.toNat = liveBytes c τ
  card : s.card = ∑ j ∈ Finset.range c.nWindows, s.cntB j
  columns : s.card = (liveColumns c τ).card
  cntB : ∀ j < c.nWindows, 0 ≤ s.cntB j
  /-- The subtraction that the next window makes does not wrap. -/
  next : s.bytes ((s.curWindow + 1) % c.nWindows) ≤ s.totalBytes
  startTime : (s.startTime : ℤ) = start + max 0 (s.cntWindows - c.nWindows + 1) * c.windowSize

/-- A column is counted in one slot if it is live, and else in none. -/
theorem sum_lastIn (hn : 0 < c.nWindows) (k : ℕ) :
    ∑ j ∈ Finset.range c.nWindows, (if lastIn c τ k j then (1 : ℤ) else 0) =
      if (τ.live c.nWindows).any fun e => touches c k e.2 then 1 else 0 := by
  have hany : ((τ.live c.nWindows).any fun e => touches c k e.2) = true ↔
      ∃ q, τ.last (touches c k) = some q ∧ τ.window < q + c.nWindows := by
    rw [List.any_eq_true, Timeline.exists_live_iff]
  by_cases hlive : ((τ.live c.nWindows).any fun e => touches c k e.2) = true
  · obtain ⟨q, hlast, hq⟩ := hany.1 hlive
    have hslot : ∀ j, lastIn c τ k j = decide (q % c.nWindows = j) := fun j => by
      simp [lastIn, hlast, hq]
    simp only [hslot, decide_eq_true_eq, hlive, if_true]
    rw [Finset.sum_ite_eq, if_pos (Finset.mem_range.2 (Nat.mod_lt _ hn))]
  · have hslot : ∀ j, lastIn c τ k j = false := by
      intro j
      rw [lastIn, Option.any_eq_false]
      intro q hq
      have hnot : ¬ τ.window < q + c.nWindows := fun hlt => hlive (hany.2 ⟨q, hq, hlt⟩)
      simp [hnot]
    simp [hslot, hlive]

theorem Books.card_eq (hn : 0 < c.nWindows) {start : ℕ} (h : Books c start s τ) :
    s.card = (liveColumns c τ).card := by
  have hslots : s.card = ∑ j ∈ Finset.range c.nWindows, ∑ k ∈ Finset.range c.nColumns,
      if lastIn c τ k j then (1 : ℤ) else 0 := by
    rw [h.card]
    exact Finset.sum_congr rfl fun j hj => h.cntB j (Finset.mem_range.1 hj)
  rw [hslots, Finset.sum_comm, Finset.sum_congr rfl fun k _ => sum_lastIn hn k, Finset.sum_boole,
    liveColumns]

/-- The bytes of a slot, if those of all slots fit in 64 bits. -/
theorem Books.toNat_bytes (hn : 0 < c.nWindows) {start : ℕ} (h : Books c start s τ)
    (hfit : liveBytes c τ < 2 ^ 64) {j : ℕ} (hj : j < c.nWindows) :
    (s.bytes j).toNat = bytesOf (τ.slot c.nWindows j) := by
  have hle := Finset.single_le_sum (f := fun j => bytesOf (τ.slot c.nWindows j))
    (fun _ _ => Nat.zero_le _) (Finset.mem_range.2 hj)
  rw [← liveBytes_eq_sum hn] at hle
  rw [h.bytes j hj, UInt64.toNat_ofNat_of_lt' (lt_of_le_of_lt hle hfit)]

/-- **The invariants of the sliding window.** They hold after every sequence of operations, if the
numbers of the windows fit in an `int`, and the bytes of the live windows in 64 bits. -/
theorem window_invariants (c : SketchConfig) (hn : 0 < c.nWindows) (hc : 0 < c.nColumns)
    (start : ℕ) (ops : List Op) (hw : WindowsFit c (history ops))
    (hfit : liveBytes c (history ops) < 2 ^ 64) :
    WindowInvariants c start (run c start ops) (history ops) := by
  have h := run_books hn hc start hw
  have htotal : (run c start ops).totalBytes.toNat = liveBytes c (history ops) := by
    rw [h.totalBytes, UInt64.toNat_ofNat_of_lt' hfit]
  have hsum : ∑ j ∈ Finset.range c.nWindows, ((run c start ops).bytes j).toNat =
      liveBytes c (history ops) := by
    rw [liveBytes_eq_sum hn]
    exact Finset.sum_congr rfl fun j hj => h.toNat_bytes hn hfit (Finset.mem_range.1 hj)
  refine ⟨h.cntWindows, ?_, htotal.trans hsum.symm, htotal, h.card, h.card_eq hn, ?_, ?_, ?_⟩
  · rw [h.cntWindows, h.curWindow, Int.natCast_mod]
  · intro j hj
    rw [h.cntB j hj]
    exact Finset.sum_nonneg fun k _ => by split_ifs <;> decide
  · rw [UInt64.le_iff_toNat_le, htotal, ← hsum]
    exact Finset.single_le_sum (f := fun j => ((run c start ops).bytes j).toNat)
      (fun _ _ => Nat.zero_le _) (Finset.mem_range.2 (Nat.mod_lt _ hn))
  · have hsub : max 0 (((history ops).window : ℤ) - c.nWindows + 1) =
        ((history ops).window + 1 - c.nWindows : ℕ) := by omega
    rw [h.cntWindows, h.startTime, hsub]
    push_cast
    rfl

/-- A sketch of one row and two windows. The logarithm is that of the one point it is taken at. -/
def smallSketch : SketchConfig where
  nRows := 1
  nColumns := 4
  nWindows := 2
  windowSize := 6000
  h := 1
  rate := 25000000000
  hash f i := f.sip + .ofNat i
  log x := if x = 3 / 4 then -28768207245178 / 100000000000000 else 0
  round := id

/-- A flow. -/
def smallFlow : FiveTuple where
  sip := 0x0b000001
  dip := 0x0b000101
  sport := 10000
  dport := 100
  pg := 3

theorem window_invariants_three_packets :
    WindowsFit smallSketch (history [.update smallFlow 1000 0, .nextWindow,
      .update smallFlow 1500 6000, .nextWindow, .update smallFlow 1048 12000]) ∧
    liveBytes smallSketch (history [.update smallFlow 1000 0, .nextWindow,
      .update smallFlow 1500 6000, .nextWindow, .update smallFlow 1048 12000]) = 2548 ∧
    WindowInvariants smallSketch 0 (run smallSketch 0 [.update smallFlow 1000 0, .nextWindow,
      .update smallFlow 1500 6000, .nextWindow, .update smallFlow 1048 12000])
      (history [.update smallFlow 1000 0, .nextWindow, .update smallFlow 1500 6000, .nextWindow,
        .update smallFlow 1048 12000]) :=
  ⟨by decide, by decide,
    window_invariants _ (by decide) (by decide) _ _ (by decide) (by decide)⟩

theorem liveBytes_replicate (hn : 0 < c.nWindows) (f : FiveTuple) (w : UInt32) (now n : ℕ) :
    liveBytes c (history (List.replicate n (.update f w now))) = n * w.toNat := by
  induction n with
  | zero => simp [history, liveBytes]
  | succ n ih =>
    rw [history] at ih ⊢
    rw [List.replicate_succ', List.foldl_append, List.foldl_cons, List.foldl_nil, Op.record,
      liveBytes, Timeline.live_push hn, List.map_cons, List.sum_cons, ← liveBytes, ih,
      Nat.succ_mul, Nat.add_comm]

/-- Once the bytes of the live windows do not fit in 64 bits, `m_totalBytes` is not their number. -/
theorem totalBytes_wrapped :
    ¬ WindowInvariants smallSketch 0
      (run smallSketch 0 (List.replicate 4294967298 (.update smallFlow 4294967295 0)))
      (history (List.replicate 4294967298 (.update smallFlow 4294967295 0))) := by
  intro h
  have hlive := h.live
  rw [liveBytes_replicate (by decide)] at hlive
  have hlt := (run smallSketch 0
    (List.replicate 4294967298 (.update smallFlow 4294967295 0))).totalBytes.toNat_lt
  have hw : (4294967295 : UInt32).toNat = 4294967295 := rfl
  omega

/-! ### Buckets -/

theorem bytesOf_cons (e : FiveTuple × UInt32) (l : List (FiveTuple × UInt32)) :
    bytesOf (e :: l) = e.2.toNat + bytesOf l := rfl

/-- What a bucket of the slot `j` says in the window `q`, if `l` are the live packets hashed to it:
either there are none, and it is empty or too old, or it was last written in a live window of the
slot and holds their bytes. -/
def Data.Holds (d : Data) (q n j : ℕ) (l : List (FiveTuple × UInt32)) : Prop :=
  l = [] ∧ (d.n = 0 ∨ 0 ≤ d.e ∧ (n : ℤ) ≤ q - d.e) ∨
    ∃ k : ℕ, d.e = k ∧ k ≤ q ∧ q < k + n ∧ k % n = j ∧ d.n = .ofNat (bytesOf l)

/-- `data::update` with no bytes. -/
theorem Data.update_zero (d : Data) (q m : ℤ) (now : ℕ) :
    d.update 0 q m now = if wrapInt (q - d.e) ≥ m then { d with n := 0 } else d := by
  simp [Data.update]

section Bucket

variable {d : Data} {q n j : ℕ} {l : List (FiveTuple × UInt32)}

/-- A bucket that was looked at holds the bytes of the live packets, and says so still. -/
theorem Data.Holds.refresh (h : d.Holds q n j l) (hq : q < 2 ^ 31) (now : ℕ) :
    (d.update 0 q n now).n = .ofNat (bytesOf l) ∧ (d.update 0 q n now).Holds q n j l := by
  rw [Data.update_zero]
  rcases h with ⟨rfl, hempty⟩ | ⟨k, he, hkq, hlive, hslot, hbytes⟩
  · split_ifs with hold
    · exact ⟨rfl, .inl ⟨rfl, .inl rfl⟩⟩
    · have hzero : d.n = 0 := hempty.resolve_right fun ⟨he, hage⟩ => hold <| by
        rwa [wrapInt_eq (by omega) (by omega)]
      exact ⟨hzero, .inl ⟨rfl, .inl hzero⟩⟩
  · have hold : ¬ wrapInt ((q : ℤ) - d.e) ≥ n := by
      rw [wrapInt_eq (by omega) (by omega)]
      omega
    rw [if_neg hold]
    exact ⟨hbytes, .inr ⟨k, he, hkq, hlive, hslot, hbytes⟩⟩

/-- `data::update` with some bytes adds them to what the bucket holds. -/
theorem Data.update_pos {w : ℤ} (hw : w ≠ 0) (d : Data) (q m : ℤ) (now : ℕ) :
    (d.update w q m now).n = (d.update 0 q m now).n + .ofInt w ∧ (d.update w q m now).e = q := by
  rw [Data.update_zero, Data.update, if_pos hw]
  exact ⟨rfl, rfl⟩

/-- A size of less than `2 ^ 31` bytes survives the conversion to `int`. -/
theorem toInt_toUInt64 {w : UInt32} (hw : w.toNat < 2 ^ 31) : toInt w.toUInt64 = w.toNat := by
  rw [toInt, UInt32.toNat_toUInt64]
  exact wrapInt_eq (by omega) (by omega)

theorem ofInt_natCast (n : ℕ) : UInt64.ofInt n = .ofNat n := by
  rw [← UInt64.toNat_inj, UInt64.ofInt]
  simp
  omega

/-- A packet of less than `2 ^ 31` bytes is added to the bucket it is hashed to. -/
theorem Data.Holds.write (h : d.Holds q n j l) (hq : q < 2 ^ 31) (hn : 0 < n) (hj : q % n = j)
    {f : FiveTuple} {w : UInt32} (hpos : 0 < w) (hw : w.toNat < 2 ^ 31) (now : ℕ) :
    (d.update (toInt w.toUInt64) q n now).Holds q n j ((f, w) :: l) := by
  have htoNat : 0 < w.toNat := UInt32.lt_iff_toNat_lt.1 hpos
  have hint : toInt w.toUInt64 = w.toNat := toInt_toUInt64 hw
  have hne : (w.toNat : ℤ) ≠ 0 := by omega
  obtain ⟨hn', he⟩ := Data.update_pos hne d q n now
  rw [hint]
  refine .inr ⟨q, he, le_rfl, by omega, hj, ?_⟩
  rw [hn', (h.refresh hq now).1, bytesOf_cons, UInt64.ofNat_add, UInt64.add_comm, ofInt_natCast]

/-- When the next window begins, the buckets of the slot it takes over are too old. -/
theorem Data.Holds.advance (h : d.Holds q n j l) :
    d.Holds (q + 1) n j (if j = (q + 1) % n then [] else l) := by
  rcases h with ⟨rfl, hempty⟩ | ⟨k, he, hkq, hlive, hslot, hbytes⟩
  · exact .inl ⟨ite_self [], hempty.imp_right fun hold => by omega⟩
  · have hiff := Timeline.lt_add_iff_of_lt (n := n) hkq
    split_ifs with hj
    · exact .inl ⟨rfl, .inr (by omega)⟩
    · exact .inr ⟨k, he, by omega, hiff.2 ⟨fun heq => hj (hslot.symm.trans heq), hlive⟩, hslot,
        hbytes⟩

end Bucket

/-- The live packets of the slot `j` that are hashed to the column `k` of the row `i`. -/
def hashed (c : SketchConfig) (τ : Timeline (FiveTuple × UInt32)) (j i k : ℕ) :
    List (FiveTuple × UInt32) :=
  (τ.slot c.nWindows j).filter fun e => key c e.1 i = k

theorem hashed_advance (j i k : ℕ) :
    hashed c τ.advance j i k =
      if j = (τ.window + 1) % c.nWindows then [] else hashed c τ j i k := by
  rw [hashed, Timeline.slot_advance]
  split_ifs <;> rfl

theorem hashed_push (hn : 0 < c.nWindows) (e : FiveTuple × UInt32) (j i k : ℕ) :
    hashed c (τ.push e) j i k =
      if j = τ.window % c.nWindows ∧ key c e.1 i = k then e :: hashed c τ j i k
      else hashed c τ j i k := by
  rw [hashed, Timeline.slot_push hn]
  by_cases hslot : j = τ.window % c.nWindows
  · by_cases hk : key c e.1 i = k <;> simp [hslot, hk, hashed]
  · simp [hslot, hashed]

/-! ### What the operations do to a bucket -/

section Touched

variable {j i : ℕ} (hj : j < c.nWindows) (hi : i < c.nRows)

include hj hi

theorem touch_counters (s : MySketch) (f : FiveTuple) (w : ℕ → ℤ) (now k : ℕ) :
    (s.touch c f w now).counters j i k =
      if k = key c f i then (s.counters j i k).update (w j) s.cntWindows c.nWindows now
      else s.counters j i k := by
  show (if j < c.nWindows ∧ i < c.nRows ∧ k = key c f i then _ else _) = _
  by_cases hk : k = key c f i
  · rw [if_pos ⟨hj, hi, hk⟩, if_pos hk]
  · rw [if_neg (fun hand => hk hand.2.2), if_neg hk]

/-- `Query` looks at the buckets of the flow with no bytes. -/
theorem refresh_counters (s : MySketch) (f : FiveTuple) (now k : ℕ) :
    (s.refresh c f now).counters j i k =
      if k = key c f i then (s.counters j i k).update 0 s.cntWindows c.nWindows now
      else s.counters j i k := touch_counters hj hi s f _ now k

end Touched

/-- `Update` writes the packet to the buckets of its flow in the current window, and looks at those
in the others. -/
theorem record_counters (s : MySketch) (f : FiveTuple) (w : UInt64) (now : ℕ) :
    (s.record c f w now).counters =
      (s.touch c f (fun j => if j = s.curWindow then toInt w else 0) now).counters := by
  rw [MySketch.record]
  split_ifs
  · rw [MySketch.updateB, leaveB_eq]
    rfl
  · rfl

theorem record_windows (s : MySketch) (f : FiveTuple) (w : UInt64) (now : ℕ) :
    (s.record c f w now).cntWindows = s.cntWindows ∧
      (s.record c f w now).curWindow = s.curWindow := by
  rw [MySketch.record]
  split_ifs
  · rw [MySketch.updateB, leaveB_eq]
    exact ⟨rfl, rfl⟩
  · exact ⟨rfl, rfl⟩

/-- Every bucket says what it should about the packets of the history `τ`. -/
structure Buckets (c : SketchConfig) (s : MySketch) (τ : Timeline (FiveTuple × UInt32)) : Prop where
  window_lt : τ.window < 2 ^ 31
  cntWindows : s.cntWindows = (τ.window : ℤ)
  curWindow : s.curWindow = τ.window % c.nWindows
  holds : ∀ j < c.nWindows, ∀ i < c.nRows, ∀ k,
    (s.counters j i k).Holds τ.window c.nWindows j (hashed c τ j i k)

theorem buckets_init (c : SketchConfig) (start : ℕ) : Buckets c (init c start) .empty where
  window_lt := Nat.two_pow_pos 31
  cntWindows := rfl
  curWindow := (Nat.zero_mod _).symm
  holds _ _ _ _ _ := .inl ⟨rfl, .inl rfl⟩

theorem Buckets.nextWindow (h : Buckets c s τ) (hw : τ.advance.window < 2 ^ 31) :
    Buckets c (s.nextWindow c) τ.advance where
  window_lt := hw
  cntWindows := by
    rw [Timeline.window_advance] at hw
    show wrapInt (s.cntWindows + 1) = _
    rw [h.cntWindows, Timeline.window_advance, wrapInt_eq (by omega) (by omega), Nat.cast_add_one]
  curWindow := by
    show (s.curWindow + 1) % c.nWindows = _
    rw [h.curWindow, Nat.mod_add_mod, Timeline.window_advance]
  holds j hj i hi k := by
    rw [hashed_advance]
    exact (h.holds j hj i hi k).advance

theorem Buckets.refresh (h : Buckets c s τ) (f : FiveTuple) (now : ℕ) :
    Buckets c (s.refresh c f now) τ where
  window_lt := h.window_lt
  cntWindows := h.cntWindows
  curWindow := h.curWindow
  holds j hj i hi k := by
    rw [refresh_counters hj hi]
    split_ifs
    · rw [h.cntWindows]
      exact ((h.holds j hj i hi k).refresh h.window_lt now).2
    · exact h.holds j hj i hi k

theorem Buckets.queryAll (h : Buckets c s τ) (now : ℕ) (fs : List FiveTuple) :
    Buckets c (queryAll c now fs s).1 τ := by
  induction fs generalizing s with
  | nil => exact h
  | cons f fs ih => exact ih (h.refresh f now)

theorem Buckets.record (h : Buckets c s τ) (hn : 0 < c.nWindows) {f : FiveTuple} {w : UInt32}
    (hpos : 0 < w) (hw : w.toNat < 2 ^ 31) (now : ℕ) :
    Buckets c (s.record c f w.toUInt64 now) (τ.push (f, w)) := by
  obtain ⟨hcnt, hcur⟩ := s.record_windows (c := c) f w.toUInt64 now
  refine ⟨h.window_lt, hcnt.trans h.cntWindows, hcur.trans h.curWindow, fun j hj i hi k => ?_⟩
  have hold := h.holds j hj i hi k
  rw [record_counters, touch_counters hj hi, hashed_push hn, Timeline.window_push, ← h.curWindow]
  by_cases hk : k = key c f i
  · rw [if_pos hk, h.cntWindows]
    by_cases hslot : j = s.curWindow
    · rw [if_pos hslot, if_pos ⟨hslot, hk.symm⟩]
      exact hold.write h.window_lt hn (h.curWindow.symm.trans hslot.symm) hpos hw now
    · rw [if_neg hslot, if_neg (fun hand => hslot hand.1)]
      exact (hold.refresh h.window_lt now).2
  · rw [if_neg hk, if_neg (fun hand => hk hand.2.symm)]
    exact hold

/-! ### The estimate -/

/-- The minimum that `Query` takes over the rows is the bytes of one of the buckets, and no bucket
of the flow has less. -/
theorem minBytes_least (hr : 0 < c.nRows) (s : MySketch) (f : FiveTuple) (j : ℕ) :
    (∃ i < c.nRows, s.minBytes c f j = (s.counters j i (key c f i)).n) ∧
      ∀ i < c.nRows, s.minBytes c f j ≤ (s.counters j i (key c f i)).n := by
  have hbody : (fun re n : UInt64 => if re > n then n else re) = keepLeast UInt64.toNat := by
    funext re n
    exact if_congr UInt64.lt_iff_toNat_lt rfl rfl
  have hmem : ∀ i < c.nRows, (s.counters j i (key c f i)).n ∈
      (List.range c.nRows).map fun i => (s.counters j i (key c f i)).n :=
    fun i hi => List.mem_map.2 ⟨i, List.mem_range.2 hi, rfl⟩
  rw [minBytes, hbody]
  split
  · next hnil =>
    rw [hnil] at hmem
    exact absurd (hmem 0 hr) List.not_mem_nil
  · next x xs hcons =>
    rw [hcons] at hmem
    obtain ⟨hin, hle⟩ := foldl_keepLeast (u := UInt64.toNat) x xs
    rw [← hcons] at hin
    obtain ⟨i, hi, heq⟩ := List.mem_map.1 hin
    exact ⟨⟨i, List.mem_range.1 hi, heq.symm⟩,
      fun i hi => UInt64.le_iff_toNat_le.2 (hle _ (hmem i hi))⟩

/-- A part of a list has no more bytes. -/
theorem bytesOf_filter_le (p : FiveTuple × UInt32 → Bool) (l : List (FiveTuple × UInt32)) :
    bytesOf (l.filter p) ≤ bytesOf l :=
  (List.filter_sublist.map _).sum_le_sum fun _ _ => Nat.zero_le _

/-- The bytes of a flow are shared out among the slots. -/
theorem flowBytes_eq_sum (hn : 0 < c.nWindows) (τ : Timeline (FiveTuple × UInt32)) (f : FiveTuple) :
    flowBytes c τ f =
      ∑ j ∈ Finset.range c.nWindows, bytesOf ((τ.slot c.nWindows j).filter fun e => e.1 = f) := by
  have hslot : ∀ j, bytesOf ((τ.slot c.nWindows j).filter fun e => e.1 = f) =
      ((τ.slot c.nWindows j).map fun e => if decide (e.1 = f) then e.2.toNat else 0).sum :=
    fun j => tally_eq_sum_ite _
  rw [Finset.sum_congr rfl fun j _ => hslot j, flowBytes, tally_eq_sum_ite,
    Timeline.sum_slot hn fun e : FiveTuple × UInt32 => if decide (e.1 = f) then e.2.toNat else 0]

/-- The live packets in a bucket have no more than the live bytes. -/
theorem bytesOf_hashed_le (hn : 0 < c.nWindows) {j i k : ℕ} (hj : j < c.nWindows) :
    bytesOf (hashed c τ j i k) ≤ liveBytes c τ := by
  rw [liveBytes_eq_sum hn]
  exact (bytesOf_filter_le _ _).trans (Finset.single_le_sum
    (f := fun j => bytesOf (τ.slot c.nWindows j)) (fun _ _ => Nat.zero_le _)
    (Finset.mem_range.2 hj))

section Estimate

variable {start : ℕ} (hn : 0 < c.nWindows) (hr : 0 < c.nRows)

/-- After `Query` looked at them, the buckets of a flow hold the live bytes hashed to them: what an
earlier window left in the slot is not counted. -/
theorem Buckets.n_refresh (h : Buckets c s τ) (f : FiveTuple) (now : ℕ) {j i : ℕ}
    (hj : j < c.nWindows) (hi : i < c.nRows) :
    ((s.refresh c f now).counters j i (key c f i)).n =
      .ofNat (bytesOf (hashed c τ j i (key c f i))) := by
  rw [refresh_counters hj hi, if_pos rfl, h.cntWindows]
  exact ((h.holds j hj i hi _).refresh h.window_lt now).1

include hn hr in
/-- The sum that `Query` computes is between the bytes of the flow and those of all flows. -/
theorem Buckets.size_bounds (h : Buckets c s τ) (hfit : liveBytes c τ < 2 ^ 64) (f : FiveTuple)
    (now : ℕ) :
    flowBytes c τ f ≤ ((s.refresh c f now).size c f).toNat ∧
      ((s.refresh c f now).size c f).toNat ≤ liveBytes c τ := by
  have hlive := liveBytes_eq_sum hn τ
  have hslot : ∀ j ∈ Finset.range c.nWindows,
      bytesOf ((τ.slot c.nWindows j).filter fun e => e.1 = f) ≤
        ((s.refresh c f now).minBytes c f j).toNat ∧
      ((s.refresh c f now).minBytes c f j).toNat ≤ bytesOf (τ.slot c.nWindows j) := by
    intro j hj
    obtain ⟨⟨i, hi, hmin⟩, -⟩ := minBytes_least hr (s.refresh c f now) f j
    have hle : bytesOf (hashed c τ j i (key c f i)) ≤ bytesOf (τ.slot c.nWindows j) :=
      bytesOf_filter_le _ _
    have hlt : bytesOf (hashed c τ j i (key c f i)) < 2 ^ 64 :=
      (bytesOf_hashed_le hn (Finset.mem_range.1 hj)).trans_lt hfit
    rw [hmin, h.n_refresh f now (Finset.mem_range.1 hj) hi, UInt64.toNat_ofNat_of_lt' hlt]
    refine ⟨?_, hle⟩
    -- the packets of the flow are among those hashed to its column
    have hsame : (τ.slot c.nWindows j).filter (fun e => e.1 = f) =
        (hashed c τ j i (key c f i)).filter fun e => e.1 = f := by
      rw [hashed, List.filter_filter]
      refine List.filter_congr fun e _ => ?_
      by_cases he : e.1 = f <;> simp [he]
    rw [hsame]
    exact bytesOf_filter_le _ _
  have hsize : ((s.refresh c f now).size c f).toNat =
      ∑ j ∈ Finset.range c.nWindows, ((s.refresh c f now).minBytes c f j).toNat := by
    have hsum : ∑ j ∈ Finset.range c.nWindows, ((s.refresh c f now).minBytes c f j).toNat =
        ((List.range c.nWindows).map fun j => ((s.refresh c f now).minBytes c f j).toNat).sum :=
      Multiset.sum_coe _
    have hle := Finset.sum_le_sum fun j hj => (hslot j hj).2
    rw [hsum] at hle ⊢
    have hadd := foldl_add_toNat
      ((List.range c.nWindows).map fun j => (s.refresh c f now).minBytes c f j) 0
    rw [List.map_map, List.foldl_map] at hadd
    have hzero : (0 : UInt64).toNat = 0 := rfl
    rw [hzero, Nat.zero_add] at hadd
    exact hadd (lt_of_le_of_lt (hle.trans hlive.ge) hfit)
  rw [hsize, flowBytes_eq_sum hn, hlive]
  exact ⟨Finset.sum_le_sum fun j hj => (hslot j hj).1, Finset.sum_le_sum fun j hj => (hslot j hj).2⟩

/-- The packets of the operation are of a size that the conversion to `int` keeps. -/
def Op.Fits : Op → Prop
  | .update _ w _ => 0 < w ∧ w.toNat < 2 ^ 31
  | .nextWindow => True
  | .query _ _ => True

instance : DecidablePred Op.Fits
  | .update _ w _ => inferInstanceAs (Decidable (0 < w ∧ w.toNat < 2 ^ 31))
  | .nextWindow => .isTrue trivial
  | .query _ _ => .isTrue trivial

include hn in
theorem Buckets.step (h : Buckets c s τ) {op : Op} (hop : op.Fits)
    (hw : (Op.record τ op).window < 2 ^ 31) :
    Buckets c (s.step c op) (Op.record τ op) := by
  cases op with
  | update f w now =>
    obtain ⟨hpos, hw⟩ := hop
    have hall := (((h.record (f := f) hn hpos hw now).refresh f now).queryAll now
      (((s.record c f w.toUInt64 now).query c f now).1.flowKeys.insert f))
    exact ⟨hall.window_lt, hall.cntWindows, hall.curWindow, hall.holds⟩
  | nextWindow => exact h.nextWindow hw
  | query f now => exact h.refresh f now

include hn in
/-- The buckets are right after every sequence of operations with packets of such sizes. -/
theorem run_buckets (start : ℕ) {ops : List Op} (hops : ∀ op ∈ ops, op.Fits)
    (hw : WindowsFit c (history ops)) : Buckets c (run c start ops) (history ops) := by
  induction ops using List.reverseRecOn with
  | nil => exact buckets_init c start
  | append_singleton ops op ih =>
    rw [history_concat] at hw
    rw [run_concat, history_concat]
    have hbefore := ih (fun o ho => hops o (List.mem_append_left _ ho)) hw.of_record
    exact hbefore.step hn (hops op (by simp)) hw.window_lt

theorem Buckets.queryAllCalls (h : Books c start s τ) (h' : Buckets c s τ) (now : ℕ)
    (fs : List FiveTuple) :
    ∀ e ∈ s.queryAllCalls c now fs, Books c start e.1 τ ∧ Buckets c e.1 τ := by
  induction fs generalizing s with
  | nil => exact fun e he => absurd he List.not_mem_nil
  | cons f fs ih =>
    rintro e he
    rcases List.mem_cons.1 he with rfl | he
    · exact ⟨h, h'⟩
    · exact ih (h.of_sameBooks (t := (s.query c f now).1) rfl) (h'.refresh f now) e he

include hn in
/-- Every call of `Query` finds the books and the buckets right. -/
theorem Buckets.queryCalls (hc : 0 < c.nColumns) (h : Books c start s τ) (h' : Buckets c s τ)
    {op : Op} (hop : op.Fits) (hfit : WindowsFit c τ) :
    ∀ e ∈ s.queryCalls c op,
      Books c start e.1 (Op.record τ op) ∧ Buckets c e.1 (Op.record τ op) := by
  rintro e he
  cases op with
  | update f w now =>
    obtain ⟨hpos, hw⟩ := hop
    have hbooks := h.record (f := f) (w := w) hn hc hfit now
    have hbuckets := h'.record (f := f) hn hpos hw now
    rcases List.mem_cons.1 he with rfl | he
    · exact ⟨hbooks, hbuckets⟩
    · have hafter := hbooks.of_sameBooks (t := ((s.record c f w.toUInt64 now).query c f now).1) rfl
      exact queryAllCalls hafter (hbuckets.refresh f now) now _ e he
  | nextWindow => exact absurd he List.not_mem_nil
  | query f now =>
    obtain rfl := List.mem_singleton.1 he
    exact ⟨h, h'⟩

end Estimate

/-- The sum that `Query` computes for the flow `f` in the state `s` is between the live bytes of the
flow and `m_totalBytes`, if the packets passed to `Update` are those of `τ`. -/
structure TwoSided (c : SketchConfig) (s : MySketch) (f : FiveTuple) (now : ℕ)
    (τ : Timeline (FiveTuple × UInt32)) : Prop where
  lower : flowBytes c τ f ≤ ((s.refresh c f now).size c f).toNat
  upper : (s.refresh c f now).size c f ≤ s.totalBytes
  /-- Each bucket that is read counts the live packets hashed to it, and nothing else. -/
  live : ∀ j < c.nWindows, ∀ i < c.nRows, ((s.refresh c f now).counters j i (key c f i)).n.toNat =
    bytesOf (hashed c τ j i (key c f i))

/-- **The estimate is a two-sided bound.** Whatever the operations before, every call of `Query`
computes at least the live bytes of the flow and at most `m_totalBytes`, if the packets are of
`1` to `2 ^ 31 - 1` bytes, the numbers of the windows fit in an `int` and the live bytes in 64
bits. -/
theorem query_bounds (c : SketchConfig) (hn : 0 < c.nWindows) (hr : 0 < c.nRows)
    (hc : 0 < c.nColumns) (start : ℕ) (ops : List Op) (op : Op)
    (hops : ∀ o ∈ ops ++ [op], o.Fits) (hw : WindowsFit c (history (ops ++ [op])))
    (hfit : liveBytes c (history (ops ++ [op])) < 2 ^ 64) :
    ∀ e ∈ (run c start ops).queryCalls c op,
      TwoSided c e.1 e.2 op.now (history (ops ++ [op])) := by
  rintro ⟨s, f⟩ he
  rw [history_concat] at hfit hw ⊢
  have hbuckets := run_buckets hn start (fun o ho => hops o (List.mem_append_left _ ho))
    hw.of_record
  obtain ⟨hb, hk⟩ := Buckets.queryCalls hn hc (run_books hn hc start hw.of_record) hbuckets
    (hops op (by simp)) hw.of_record (s, f) he
  obtain ⟨hlower, hupper⟩ := hk.size_bounds hn hr hfit f op.now
  refine ⟨hlower, ?_, fun j hj i hi => ?_⟩
  · rw [UInt64.le_iff_toNat_le, hb.totalBytes, UInt64.toNat_ofNat_of_lt' hfit]
    exact hupper
  · have hlt := (bytesOf_hashed_le (i := i) (k := key c f i) hn hj).trans_lt hfit
    rw [hk.n_refresh f op.now hj hi, UInt64.toNat_ofNat_of_lt' hlt]

/-- Three flows share the columns of the small sketch. -/
theorem query_bounds_small :
    (∀ o ∈ [Op.update smallFlow 1000 0, .nextWindow,
      .update { smallFlow with sip := 0x0b000005 } 500 6000, .nextWindow] ++
        [.query smallFlow 12000],
      o.Fits) ∧
    WindowsFit smallSketch (history ([.update smallFlow 1000 0, .nextWindow,
        .update { smallFlow with sip := 0x0b000005 } 500 6000, .nextWindow] ++
        [.query smallFlow 12000])) ∧
    ∀ e ∈ (run smallSketch 0 [.update smallFlow 1000 0, .nextWindow,
        .update { smallFlow with sip := 0x0b000005 } 500 6000, .nextWindow]).queryCalls smallSketch
        (.query smallFlow 12000),
      TwoSided smallSketch e.1 e.2 12000 (history ([.update smallFlow 1000 0, .nextWindow,
        .update { smallFlow with sip := 0x0b000005 } 500 6000, .nextWindow] ++
        [.query smallFlow 12000])) :=
  ⟨by decide, by decide, query_bounds _ (by decide) (by decide) (by decide) _ _ _ (by decide)
    (by decide) (by decide)⟩

/-- `data::update` takes the size of a packet as an `int`: one of `2 ^ 31` bytes is subtracted. -/
theorem query_bounds_narrowed :
    ¬ ∀ e ∈ (run smallSketch 0 []).queryCalls smallSketch (.update smallFlow 2147483648 0),
      TwoSided smallSketch e.1 e.2 0 (history [.update smallFlow 2147483648 0]) := by
  intro h
  have hupper := (h _ List.mem_cons_self).upper
  exact absurd hupper (by decide +kernel)

end MySketch

end HpccSim
