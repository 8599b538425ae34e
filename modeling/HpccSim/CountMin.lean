import HpccSim.CmSketch
import Mathlib.Tactic.NormNum

/-!
# The counters of a count-min sketch

As long as the new values of the counters survive their conversions to `uint32_t`, each counter is
the sum of the bytes that were added to it in the live subwindows, and the cardinality is the number
of nonzero counters of row `0`. The first new value that does not survive makes one of them wrong.

## Main definitions

* `CmSketch.Splits`: the books of each subwindow, which no conversion touches.
* `CmSketch.Totals`: the books of all live subwindows.

## Main results

* `CmSketch.holds_iff_survives`: the counters are right in all states of a run exactly if all new
  values of the run survive.
-/

namespace HpccSim

namespace CmSketch

variable {ι : Type*} {c : CmConfig ι} {s : CmSketch} {t t' : Traced ι} {x : ι}

/-! ### Cardinalities -/

section Nonzero

variable {M : Type*} [Zero M] [DecidableEq M] {m n : ℕ} {v w : ℕ → M}

theorem nonzero_le (m : ℕ) (v : ℕ → M) : nonzero m v ≤ m := by
  have hle : nonzero m v ≤ ∑ _j ∈ Finset.range m, 1 :=
    Finset.sum_le_sum fun j _ => by split_ifs <;> omega
  simpa using hle

theorem nonzero_congr {M' : Type*} [Zero M'] [DecidableEq M'] {w : ℕ → M'}
    (h : ∀ j < m, v j = 0 ↔ w j = 0) : nonzero m v = nonzero m w :=
  Finset.sum_congr rfl fun j hj => by simp only [Ne, h j (Finset.mem_range.1 hj)]

theorem nonzero_succ (m : ℕ) (v : ℕ → M) :
    nonzero (m + 1) v = nonzero m v + if v m ≠ 0 then 1 else 0 :=
  Finset.sum_range_succ _ m

/-- A value that changes changes the number of nonzero values with it. -/
theorem nonzero_add_of_eq_off (hn : n < m) (h : ∀ j < m, j ≠ n → v j = w j) :
    nonzero m v + (if w n ≠ 0 then 1 else 0) = nonzero m w + if v n ≠ 0 then 1 else 0 :=
  sum_add_of_eq_off (f := fun j => if v j ≠ 0 then 1 else 0)
    (g := fun j => if w j ≠ 0 then 1 else 0) (Finset.mem_range.2 hn) fun j hj hne => by
      simp only [h j (Finset.mem_range.1 hj) hne]

end Nonzero

/-- What `UpdateCardinality` does for a value that changes. -/
theorem updateCardinality_add (v w card : UInt32) :
    updateCardinality v w card + .ofNat (if v ≠ 0 then 1 else 0) =
      card + .ofNat (if w ≠ 0 then 1 else 0) := by
  have hsub : card - 1 + 1 = card := UInt32.sub_add_cancel card 1
  simp only [updateCardinality]
  split_ifs
  · exact congrArg (· + 1) hsub
  · exact UInt32.add_zero _
  · exact hsub.trans (UInt32.add_zero card).symm
  · rfl

/-- What it does for one value after the other. -/
theorem foldl_updateCardinality (v w : ℕ → UInt32) (card : UInt32) (m : ℕ) :
    (List.range m).foldl (fun card j => updateCardinality (v j) (w j) card) card +
      .ofNat (nonzero m v) = card + .ofNat (nonzero m w) := by
  induction m with
  | zero => rfl
  | succ m ih =>
    rw [List.range_succ, List.foldl_append, List.foldl_cons, List.foldl_nil, nonzero_succ,
      nonzero_succ, UInt32.ofNat_add, UInt32.ofNat_add, ← UInt32.add_assoc card, ← ih,
      UInt32.add_comm (.ofNat (nonzero m v)), ← UInt32.add_assoc, updateCardinality_add,
      UInt32.add_assoc, UInt32.add_assoc, UInt32.add_comm (.ofNat (nonzero m v))]

/-! ### The books of each subwindow -/

/-- The books of each subwindow, and of the bytes sent, are right. -/
structure Splits (c : CmConfig ι) (t : Traced ι) : Prop where
  pointer : t.sketch.pointer = t.added.window % c.granularity
  window : t.sent.window = t.added.window
  split : ∀ g < c.granularity, ∀ i < c.depth, ∀ j < c.width, t.sketch.counterSplit g i j =
    .ofNat ((t.added.slot c.granularity g).map (share c i j)).sum
  splitTx : ∀ g < c.granularity, t.sketch.splitTxbytes g =
    .ofNat ((t.sent.slot c.granularity g).map UInt32.toNat).sum
  total : t.sketch.totalTxbytes =
    .ofNat ((t.sent.live c.granularity).map fun e => e.2.toNat).sum

theorem splits_start : Splits c .start where
  pointer := (Nat.zero_mod _).symm
  window := rfl
  split _ _ _ _ _ _ := rfl
  splitTx _ _ := rfl
  total := rfl

theorem ofNat_sum_cons {α : Type*} (f : α → ℕ) (a : α) (l : List α) :
    UInt64.ofNat ((a :: l).map f).sum = .ofNat (l.map f).sum + .ofNat (f a) := by
  rw [List.map_cons, List.sum_cons, Nat.add_comm, UInt64.ofNat_add]

/-- The bytes of a packet in its bucket. -/
theorem add_share (v : UInt64) (x : ι) (sz : UInt32) (i j : ℕ) :
    v + .ofNat (share c i j (x, sz)) = if j = pos c x i then v + sz.toUInt64 else v := by
  simp only [share, eq_comm (a := j)]
  split_ifs
  · rw [UInt64.ofNat_uInt32ToNat]
  · exact UInt64.add_zero v

theorem Splits.updateCounter (h : Splits c t) {x : ι} {sz : UInt32}
    (hop : step c t (.updateCounter x sz) = some t') : Splits c t' := by
  cases hop
  simp only [updateCounter_eq, updatedRows]
  refine ⟨h.pointer, h.window, fun g hg i hi j hj => ?_, h.splitTx, h.total⟩
  simp only [Timeline.slot_push c.granularity_pos, h.split g hg i hi j hj, h.pointer, hi, true_and]
  by_cases hcur : g = t.added.window % c.granularity
  · rw [if_pos hcur, ← hcur, ofNat_sum_cons, add_share]
    simp only [true_and]
  · simp only [hcur, false_and, if_false]

theorem Splits.updateTxBytes (h : Splits c t) {sz : UInt32}
    (hop : step c t (.updateTxBytes sz) = some t') : Splits c t' := by
  cases hop
  refine ⟨h.pointer, h.window, h.split, fun g hg => ?_, ?_⟩
  · simp only [CmSketch.updateTxBytes, Timeline.slot_push c.granularity_pos, h.pointer, h.window]
    by_cases hcur : g = t.added.window % c.granularity
    · rw [if_pos hcur, hcur, Function.update_self, ofNat_sum_cons, ← h.splitTx _ (hcur ▸ hg),
        UInt64.ofNat_uInt32ToNat]
    · rw [if_neg hcur, Function.update_of_ne hcur, h.splitTx g hg]
  · simp only [CmSketch.updateTxBytes, Timeline.live_push c.granularity_pos, h.total]
    rw [ofNat_sum_cons, UInt64.ofNat_uInt32ToNat]

/-- The subwindow that is used next. -/
theorem Splits.next (h : Splits c t) :
    (t.sketch.pointer + 1) % c.granularity = (t.added.window + 1) % c.granularity := by
  rw [h.pointer, Nat.mod_add_mod]

theorem next_lt (n : ℕ) : n % c.granularity < c.granularity := Nat.mod_lt n c.granularity_pos

theorem Splits.clearWindow (h : Splits c t) (hop : step c t .clearWindow = some t') :
    Splits c t' := by
  cases hop
  simp only [clearWindow_eq, clearedRows, takeOver, h.next]
  refine ⟨rfl, congrArg (· + 1) h.window, fun g hg i hi j hj => ?_, fun g hg => ?_, ?_⟩
  · simp only [Timeline.slot_advance, hi, hj, and_true, h.split g hg i hi j hj]
    split_ifs <;> rfl
  · simp only [Timeline.slot_advance, h.window]
    by_cases hcur : g = (t.added.window + 1) % c.granularity
    · rw [if_pos hcur, hcur, Function.update_self]
      rfl
    · rw [if_neg hcur, Function.update_of_ne hcur, h.splitTx g hg]
  · have hsum := Timeline.sum_live_advance (τ := t.sent) (n := c.granularity) UInt32.toNat
    rw [h.window] at hsum
    simp only [h.total, h.splitTx _ (next_lt _), ← hsum, UInt64.ofNat_add, UInt64.add_sub_cancel]

/-- Every call keeps the books of each subwindow. -/
theorem Splits.step (h : Splits c t) {op : Op ι} (hop : step c t op = some t') :
    Splits c t' := by
  cases op with
  | updateCounter x sz => exact h.updateCounter hop
  | updateTxBytes sz => exact h.updateTxBytes hop
  | clearWindow => exact h.clearWindow hop

/-! ### The books of all live subwindows -/

/-- The books of all live subwindows are right, and no counter of row `0` has lost its bytes in the
conversion to `uint32_t`. -/
structure Totals (c : CmConfig ι) (t : Traced ι) : Prop where
  counter : ∀ i < c.depth, ∀ j < c.width, t.sketch.counter i j =
    .ofNat ((t.added.live c.granularity).map fun e => share c i j e.2).sum
  card : t.sketch.card = .ofNat (nonzero c.width (t.sketch.counter 0))
  small : ∀ j < c.width, (t.sketch.counter 0 j).toUInt32 = 0 → t.sketch.counter 0 j = 0

theorem totals_start : Totals c .start where
  counter _ _ _ _ := rfl
  card := by simp [Traced.start, init, nonzero]
  small _ _ _ := rfl

theorem pos_lt (x : ι) (i : ℕ) : pos c x i < c.width := Nat.mod_lt _ c.width_pos

/-- A value that keeps its bytes is nonzero before and after the conversion to `uint32_t`. -/
theorem toUInt32_ne_zero_iff {v : UInt64} (h : v.toUInt32 = 0 → v = 0) :
    v.toUInt32 ≠ 0 ↔ v ≠ 0 :=
  not_congr ⟨h, fun h => by rw [h]; rfl⟩

theorem toUInt64_eq_zero_iff {v : UInt32} : v.toUInt64 = 0 ↔ v = 0 :=
  ⟨fun h => by simpa using congrArg UInt64.toUInt32 h, fun h => by rw [h]; rfl⟩

/-- The new cardinality, from a balance of the old one. -/
theorem card_of_balance {card card' : UInt32} {n n' a b : ℕ} (hcard : card = .ofNat n)
    (h : card' + .ofNat a = card + .ofNat b) (hn : n' + a = n + b) : card' = .ofNat n' := by
  rw [hcard, ← UInt32.ofNat_add, ← hn, UInt32.ofNat_add] at h
  exact (UInt32.add_left_inj _).1 h

/-- The counters of a row after a packet. -/
theorem counter_updateCounter {i : ℕ} (hi : i < c.depth) (x : ι) (sz : UInt32) :
    (updateCounter c s x sz).counter i = fun j =>
      if j = pos c x i then s.counter i j + sz.toUInt64 else s.counter i j := by
  simp only [updateCounter_eq, updatedRows, hi, true_and]

/-- The change of the cardinality by a packet. -/
theorem card_updateCounter
    (h : (s.counter 0 (pos c x 0)).toUInt32 = 0 → s.counter 0 (pos c x 0) = 0)
    (sz : UInt32) :
    (updateCounter c s x sz).card + .ofNat (if s.counter 0 (pos c x 0) ≠ 0 then 1 else 0) =
      s.card + .ofNat
        (if (s.counter 0 (pos c x 0) + sz.toUInt64).toUInt32 ≠ 0 then 1 else 0) := by
  have hadd := updateCardinality_add (s.counter 0 (pos c x 0)).toUInt32
    (s.counter 0 (pos c x 0) + sz.toUInt64).toUInt32 s.card
  simp only [toUInt32_ne_zero_iff h] at hadd
  simp only [updateCounter_eq, updatedRows, c.depth_pos, if_true]
  exact hadd

/-- The change of the number of nonzero counters of row `0` by a packet. -/
theorem nonzero_updateCounter (x : ι) (sz : UInt32) :
    nonzero c.width ((updateCounter c s x sz).counter 0) +
        (if s.counter 0 (pos c x 0) ≠ 0 then 1 else 0) =
      nonzero c.width (s.counter 0) +
        if s.counter 0 (pos c x 0) + sz.toUInt64 ≠ 0 then 1 else 0 := by
  have hchange := nonzero_add_of_eq_off (v := (updateCounter c s x sz).counter 0)
    (w := s.counter 0) (pos_lt x 0) fun j _ hne => by
      rw [counter_updateCounter c.depth_pos]
      exact if_neg hne
  have hnew : (updateCounter c s x sz).counter 0 (pos c x 0) =
      s.counter 0 (pos c x 0) + sz.toUInt64 := by
    rw [counter_updateCounter c.depth_pos]
    exact if_pos rfl
  rwa [hnew] at hchange

/-- **A packet.** If the new counter of row `0` keeps its bytes, so do the books. -/
theorem Totals.updateCounter (h : Totals c t) {x : ι} {sz : UInt32}
    (hC : Survives c t (.updateCounter x sz)) (hop : step c t (.updateCounter x sz) = some t') :
    Totals c t' := by
  cases hop
  refine ⟨fun i hi j hj => ?_, ?_, fun j hj => ?_⟩
  · simp only [counter_updateCounter hi, Timeline.live_push c.granularity_pos]
    rw [ofNat_sum_cons, add_share, h.counter i hi j hj]
  · have hcard := card_updateCounter (x := x) (h.small _ (pos_lt x 0)) sz
    simp only [toUInt32_ne_zero_iff hC] at hcard
    exact card_of_balance h.card hcard (nonzero_updateCounter x sz)
  · simp only [counter_updateCounter c.depth_pos]
    split_ifs with hpos
    · subst hpos
      exact hC
    · exact h.small j hj

/-- The counters of a row in the next subwindow. -/
theorem counter_clearWindow {i j : ℕ} (hi : i < c.depth) (hj : j < c.width) :
    (clearWindow c s).counter i j = (s.counter i j -
      s.counterSplit ((s.pointer + 1) % c.granularity) i j).toUInt32.toUInt64 := by
  simp only [clearWindow_eq, clearedRows, takeOver, hi, hj, and_self, if_true]

/-- What is left of a counter are the bytes of the new live subwindows. -/
theorem Splits.left (hS : Splits c t) (h : Totals c t) {i j : ℕ} (hi : i < c.depth)
    (hj : j < c.width) :
    t.sketch.counter i j - t.sketch.counterSplit ((t.sketch.pointer + 1) % c.granularity) i j =
      .ofNat ((t.added.advance.live c.granularity).map fun e => share c i j e.2).sum := by
  have hsum := Timeline.sum_live_advance (τ := t.added) (n := c.granularity) (share c i j)
  rw [hS.next, h.counter i hi j hj, hS.split _ (next_lt _) i hi j hj, ← hsum, UInt64.ofNat_add,
    UInt64.add_sub_cancel]

/-- The change of the cardinality by the next subwindow. -/
theorem card_clearWindow (h : ∀ j < c.width, (s.counter 0 j).toUInt32 = 0 → s.counter 0 j = 0) :
    (clearWindow c s).card + .ofNat (nonzero c.width (s.counter 0)) =
      s.card + .ofNat (nonzero c.width ((clearWindow c s).counter 0)) := by
  have hadd := foldl_updateCardinality (fun j => (s.counter 0 j).toUInt32)
    (fun j => (s.counter 0 j -
      s.counterSplit ((s.pointer + 1) % c.granularity) 0 j).toUInt32) s.card c.width
  have hold : nonzero c.width (fun j => (s.counter 0 j).toUInt32) =
      nonzero c.width (s.counter 0) :=
    nonzero_congr fun j hj => ⟨h j hj, fun h => by rw [h]; rfl⟩
  have hnew : nonzero c.width (fun j => (s.counter 0 j -
      s.counterSplit ((s.pointer + 1) % c.granularity) 0 j).toUInt32) =
        nonzero c.width ((clearWindow c s).counter 0) :=
    nonzero_congr fun j hj => by
      rw [counter_clearWindow c.depth_pos hj, toUInt64_eq_zero_iff]
  rw [hold, hnew] at hadd
  simp only [clearWindow_eq, clearedRows, c.depth_pos, if_true] at hadd ⊢
  exact hadd

/-- A value below `2 ^ 32` is kept by the conversion to `uint32_t`. -/
theorem toUInt64_toUInt32_of_lt {v : UInt64} (h : v < 2 ^ 32) : v.toUInt32.toUInt64 = v := by
  have hlt : v.toNat < 2 ^ 32 := UInt64.lt_iff_toNat_lt.1 h
  rw [← UInt64.toNat_inj, UInt32.toNat_toUInt64, UInt64.toNat_toUInt32, Nat.mod_eq_of_lt hlt]

/-- **The next subwindow.** If what is left in every counter fits into `uint32_t`, the books are
right again. -/
theorem Totals.clearWindow (h : Totals c t) (hS : Splits c t) (hC : Survives c t .clearWindow)
    (hop : step c t .clearWindow = some t') : Totals c t' := by
  cases hop
  refine ⟨fun i hi j hj => ?_, ?_, fun j hj hzero => ?_⟩
  · have hkeep := (counter_clearWindow (s := t.sketch) hi hj).trans
      (toUInt64_toUInt32_of_lt (hC i hi j hj))
    exact hkeep.trans (hS.left h hi hj)
  · exact card_of_balance h.card (card_clearWindow h.small) (Nat.add_comm _ _)
  · simp only [counter_clearWindow c.depth_pos hj, UInt32.toUInt32_toUInt64] at hzero ⊢
    rw [hzero]
    rfl

/-- **One call.** A call that survives keeps all books. -/
theorem Totals.step (h : Totals c t) (hS : Splits c t) {op : Op ι} (hC : Survives c t op)
    (hop : step c t op = some t') : Totals c t' := by
  cases op with
  | updateCounter x sz => exact h.updateCounter hC hop
  | updateTxBytes sz =>
    cases hop
    exact ⟨h.counter, h.card, h.small⟩
  | clearWindow => exact h.clearWindow hS hC hop

/-! ### What the counters say -/

theorem toNat_ofNat {n : ℕ} (h : n < 2 ^ 64) : (UInt64.ofNat n).toNat = n :=
  UInt64.toNat_ofNat_of_lt' h

/-- A number of bytes that fits, subwindow by subwindow. -/
theorem sum_slot_toNat {α : Type*} {τ : Timeline α} {n : ℕ} (hn : 0 < n) {f : α → ℕ}
    (h : ((τ.live n).map fun e => f e.2).sum < 2 ^ 64) {v : ℕ → UInt64}
    (hv : ∀ g < n, v g = .ofNat ((τ.slot n g).map f).sum) :
    ((τ.live n).map fun e => f e.2).sum = ∑ g ∈ Finset.range n, (v g).toNat := by
  rw [← Timeline.sum_slot hn] at h ⊢
  refine Finset.sum_congr rfl fun g hg => ?_
  have hle := Finset.single_le_sum (f := fun g => ((τ.slot n g).map f).sum)
    (fun _ _ => Nat.zero_le _) hg
  rw [hv g (Finset.mem_range.1 hg), toNat_ofNat (hle.trans_lt h)]

/-- The live bytes of a bucket fit. -/
theorem WindowBytes.share_lt (hB : WindowBytes c t) (i j : ℕ) :
    ((t.added.live c.granularity).map fun e => share c i j e.2).sum < 2 ^ 64 := by
  refine lt_of_le_of_lt (List.sum_le_sum fun e _ => ?_) hB.1
  rw [share]
  split_ifs
  · exact le_rfl
  · exact Nat.zero_le _

/-- The live bytes of a bucket, subwindow by subwindow. -/
theorem Splits.sum_split (hS : Splits c t) (hB : WindowBytes c t) {i j : ℕ} (hi : i < c.depth)
    (hj : j < c.width) : ((t.added.live c.granularity).map fun e => share c i j e.2).sum =
      ∑ g ∈ Finset.range c.granularity, (t.sketch.counterSplit g i j).toNat :=
  sum_slot_toNat c.granularity_pos (hB.share_lt i j) fun g hg => hS.split g hg i hi j hj

theorem toNat_ofNat_nonzero (v : ℕ → UInt64) :
    (UInt32.ofNat (nonzero c.width v)).toNat = nonzero c.width v :=
  UInt32.toNat_ofNat_of_lt' ((nonzero_le c.width v).trans_lt c.width_lt)

variable [DecidableEq ι]

/-- The bytes of an item are among those of its buckets. -/
theorem bytesOf_le (t : Traced ι) (x : ι) (i : ℕ) : bytesOf c t x ≤
    ((t.added.live c.granularity).map fun e => share c i (pos c x i) e.2).sum := by
  refine List.sum_le_sum fun e _ => ?_
  split_ifs with hx
  · rw [share, hx, if_pos rfl]
  · exact Nat.zero_le _

/-- What the counters say when all books are right. -/
theorem Totals.holds (h : Totals c t) (hS : Splits c t) (hB : WindowBytes c t) : Holds c t := by
  have htoNat {i j : ℕ} (hi : i < c.depth) (hj : j < c.width) : (t.sketch.counter i j).toNat =
      ((t.added.live c.granularity).map fun e => share c i j e.2).sum := by
    rw [h.counter i hi j hj, toNat_ofNat (hB.share_lt i j)]
  refine ⟨fun i hi j hj => ?_, ?_, ?_, fun x i hi => ?_⟩
  · exact (htoNat hi hj).trans (hS.sum_split hB hi hj)
  · rw [hS.total, toNat_ofNat hB.2]
    exact sum_slot_toNat c.granularity_pos hB.2 hS.splitTx
  · rw [h.card, toNat_ofNat_nonzero]
  · exact (bytesOf_le t x i).trans_eq (htoNat hi (pos_lt x i)).symm

/-- A new counter of row `0` that loses its bytes on the way to `UpdateCardinality` makes the
cardinality wrong. -/
theorem not_holds_updateCounter (h : Totals c t) {sz : UInt32}
    (hC : ¬Survives c t (.updateCounter x sz))
    (hop : step c t (.updateCounter x sz) = some t') : ¬Holds c t' := by
  cases hop
  intro hH
  obtain ⟨hzero, hne⟩ := Classical.not_imp.1 hC
  have hcard := card_updateCounter (x := x) (h.small _ (pos_lt x 0)) sz
  have hcount := nonzero_updateCounter (c := c) (s := t.sketch) x sz
  have hholds : (CmSketch.updateCounter c t.sketch x sz).card =
      .ofNat (nonzero c.width ((CmSketch.updateCounter c t.sketch x sz).counter 0)) := by
    rw [← hH.card, UInt32.ofNat_toNat]
  rw [if_neg (not_not.2 hzero), hholds, h.card, ← UInt32.ofNat_add, hcount, if_pos hne,
    UInt32.ofNat_add] at hcard
  exact absurd ((UInt32.add_right_inj _).1 hcard) (by decide)

/-- A counter that does not fit into `uint32_t` is no longer the sum of its subwindows. -/
theorem not_holds_clearWindow (h : Totals c t) (hS : Splits c t) (hC : ¬Survives c t .clearWindow)
    (hop : step c t .clearWindow = some t') (hB : WindowBytes c t') : ¬Holds c t' := by
  intro hH
  have hS' := hS.step hop
  cases hop
  simp only [Survives, not_forall] at hC
  obtain ⟨i, hi, j, hj, hbig⟩ := hC
  have hleft := hS.left h hi hj
  have hsum := (hH.counter i hi j hj).trans (hS'.sum_split hB hi hj).symm
  have hlt := (t.sketch.counter i j - t.sketch.counterSplit
    ((t.sketch.pointer + 1) % c.granularity) i j).toUInt32.toNat_lt
  simp only [counter_clearWindow hi hj, UInt32.toNat_toUInt64] at hsum
  rw [hsum, ← toNat_ofNat (hB.share_lt i j), ← hleft] at hlt
  exact hbig (UInt64.lt_iff_toNat_lt.2 hlt)

/-- **The counters in a run.** If the bytes of the live subwindows always fit into `uint64_t`, the
counters are right in all states of a run exactly if the new values of all calls survive their
conversions to `uint32_t`. -/
theorem holds_iff_survives (c : CmConfig ι) (ops : List (Op ι))
    (hB : Run.Always (step c) (WindowBytes c) .start ops) :
    Run.Always (step c) (Holds c) .start ops ↔ Run.Along (step c) (Survives c) .start ops := by
  have hstart : Splits c .start ∧ Totals c .start := ⟨splits_start, totals_start⟩
  have hkeep (t : Traced ι) (op : Op ι) (t' : Traced ι) (h : Splits c t ∧ Totals c t)
      (hC : Survives c t op) (hop : step c t op = some t') : Splits c t' ∧ Totals c t' :=
    ⟨h.1.step hop, h.2.step h.1 hC hop⟩
  constructor
  · intro hH
    refine Run.along_of_always (I := fun t => Splits c t ∧ Totals c t)
      (fun t op t' hI _ => hkeep t op t' hI) (fun t op hI _ hC => ?_) hstart (hB.and hH)
    cases op with
    | updateCounter x sz =>
      exact ⟨_, rfl, fun h => not_holds_updateCounter hI.2 hC rfl h.2⟩
    | updateTxBytes sz => exact absurd trivial hC
    | clearWindow => exact ⟨_, rfl, fun h => not_holds_clearWindow hI.2 hI.1 hC rfl h.1 h.2⟩
  · intro hC
    have hbooks := Run.always_of_invariant hkeep (fun _ h => h) hstart hC
    exact (hB.and hbooks).mono fun t h => h.2.2.holds h.2.1 h.1

/-- Two subwindows with one bucket. -/
def oneBucket : CmConfig Unit where
  depth := 1
  width := 1
  granularity := 2
  hash _ _ := 0
  depth_pos := by decide
  width_pos := by decide
  granularity_pos := by decide
  width_lt := by decide

theorem holds_oneBucket :
    Run.Always (step oneBucket) (Holds oneBucket) .start [.updateCounter () 1000, .clearWindow] :=
  (holds_iff_survives oneBucket [.updateCounter () 1000, .clearWindow]
    (by simp only [Run.Always, step, Option.some.injEq, forall_eq']; decide +kernel)).2
    (by decide +kernel)

/-- Two packets of `2 ^ 31` bytes: the counter is `2 ^ 32`, the cardinality is `0`. -/
theorem not_holds_oneBucket :
    Run.Always (step oneBucket) (WindowBytes oneBucket) .start
      [.updateCounter () 2147483648, .updateCounter () 2147483648] ∧
    ¬Run.Always (step oneBucket) (Holds oneBucket) .start
      [.updateCounter () 2147483648, .updateCounter () 2147483648] := by
  simp only [Run.Always, step, Option.some.injEq, forall_eq']
  refine ⟨by decide +kernel, fun h => ?_⟩
  have hcard := h.2.2.card
  exact absurd hcard (by decide +kernel)

end CmSketch

end HpccSim
