import Mathlib.Algebra.BigOperators.Group.List.Basic
import Mathlib.Algebra.Order.Group.Nat
import Mathlib.Algebra.Ring.Nat
import Mathlib.Order.Nat
import Mathlib.Data.List.Perm.Basic
import Mathlib.Logic.Function.Basic

/-!
# A pool shared under dynamic thresholds

A pool of `T` units is shared by queues `i : ι`. A queue may grow to `free >>> a i`, where `free`
is what all queues together leave unused just before and `a i` is the shift of the queue. The
threshold shrinks as the pool fills, so the total in use depends on the order in which the queues
grew. This file bounds it: the queues can be listed in the order of their last growth, and each of
them then fits in a `2^{-a i}` part of what the earlier ones leave.

## Main definitions

* `SharedPool.leftover a T l`: what is left of `T` units when the queues of `l` grow in turn, each
  to its threshold.
* `SharedPool.fill a T l`: the occupancy reached in this way.
* `SharedPool.FilledIn a x T l`: the occupancy `x` respects the thresholds when the queues of `l`
  are filled in turn.

## Main results

* `SharedPool.FilledIn.leftover_add_sum_le`: no occupancy filled in the order `l` leaves less than
  `leftover a T l`.
* `SharedPool.FilledIn.of_le`: queues may shrink.
* `SharedPool.FilledIn.grow`: a queue may grow to the threshold of the moment; it then comes last.
-/

namespace SharedPool

variable {ι : Type*} (a : ι → ℕ)

/-- What is left of `T` units when the queues of `l` grow in turn, each to its threshold. -/
def leftover : ℕ → List ι → ℕ
  | T, [] => T
  | T, i :: l => leftover (T - T >>> a i) l

/-- The occupancy `x` respects the thresholds when the queues of `l` are filled in turn. -/
def FilledIn (x : ι → ℕ) : ℕ → List ι → Prop
  | _, [] => True
  | T, i :: l => x i ≤ T >>> a i ∧ FilledIn x (T - x i) l

/-- The occupancy when the queues of `l` grow in turn, each to its threshold. -/
def fill [DecidableEq ι] : ℕ → List ι → ι → ℕ
  | _, [] => fun _ => 0
  | T, i :: l => Function.update (fill (T - T >>> a i) l) i (T >>> a i)

variable {a}

theorem shiftRight_mono {T T' : ℕ} (h : T ≤ T') (k : ℕ) : T >>> k ≤ T' >>> k := by
  simp only [Nat.shiftRight_eq_div_pow]
  exact Nat.div_le_div_right h

/-- One more unit in the pool raises a threshold by at most one unit. -/
theorem sub_shiftRight_mono {T T' : ℕ} (h : T ≤ T') (k : ℕ) : T - T >>> k ≤ T' - T' >>> k := by
  induction T', h using Nat.le_induction with
  | base => exact le_rfl
  | succ n _ ih =>
    have hle : (n + 1) >>> k ≤ n >>> k + 1 := by
      have hpos := Nat.two_pow_pos k
      simp only [Nat.shiftRight_eq_div_pow]
      rw [← Nat.add_div_right n hpos]
      exact Nat.div_le_div_right (by omega)
    have := Nat.shiftRight_le n k
    omega

theorem leftover_mono {T T' : ℕ} (h : T ≤ T') (l : List ι) : leftover a T l ≤ leftover a T' l := by
  induction l generalizing T T' with
  | nil => exact h
  | cons i l ih => exact ih (sub_shiftRight_mono h (a i))

theorem leftover_le (T : ℕ) (l : List ι) : leftover a T l ≤ T := by
  induction l generalizing T with
  | nil => exact le_rfl
  | cons i l ih => exact (ih _).trans (Nat.sub_le _ _)

/-- If all shifts are the same, the order does not matter. -/
theorem leftover_const {k : ℕ} (h : ∀ i, a i = k) (T : ℕ) (l : List ι) :
    leftover a T l = (fun T => T - T >>> k)^[l.length] T := by
  induction l generalizing T with
  | nil => rfl
  | cons i l ih => rw [leftover, ih, h i, List.length_cons, Function.iterate_succ_apply]

theorem filledIn_zero (T : ℕ) (l : List ι) : FilledIn a (fun _ => 0) T l := by
  induction l generalizing T with
  | nil => trivial
  | cons i l ih => exact ⟨Nat.zero_le _, ih _⟩

/-! ### The occupancy that leaves the least -/

section Fill

variable [DecidableEq ι] {T : ℕ} {l : List ι}

theorem sum_update_of_notMem {x : ι → ℕ} {i : ι} {v : ℕ} (h : i ∉ l) :
    (l.map (Function.update x i v)).sum = (l.map x).sum := by
  congr 1
  refine List.map_congr_left fun j hj => Function.update_of_ne ?_ _ _
  rintro rfl
  exact h hj

/-- Filling the queues in turn leaves exactly `leftover`. -/
theorem leftover_add_sum_fill (hl : l.Nodup) :
    leftover a T l + (l.map (fill a T l)).sum = T := by
  induction l generalizing T with
  | nil => rfl
  | cons i l ih =>
    obtain ⟨hi, hl⟩ := List.nodup_cons.1 hl
    have := ih hl (T := T - T >>> a i)
    have := Nat.shiftRight_le T (a i)
    simp only [leftover, fill, List.map_cons, List.sum_cons, Function.update_self,
      sum_update_of_notMem hi]
    omega

/-- In the end every queue is at or above the threshold. -/
theorem leftover_shiftRight_le_fill {i : ι} (hi : i ∈ l) :
    leftover a T l >>> a i ≤ fill a T l i := by
  induction l generalizing T with
  | nil => cases hi
  | cons j l ih =>
    by_cases hij : i = j
    · subst hij
      rw [fill, Function.update_self]
      exact shiftRight_mono (leftover_le T (i :: l)) _
    · rw [fill, Function.update_of_ne hij]
      exact ih ((List.mem_cons.1 hi).resolve_left hij)

theorem fill_le (i : ι) : fill a T l i ≤ T := by
  induction l generalizing T with
  | nil => exact Nat.zero_le _
  | cons j l ih =>
    by_cases hij : i = j
    · subst hij
      rw [fill, Function.update_self]
      exact Nat.shiftRight_le _ _
    · rw [fill, Function.update_of_ne hij]
      exact ih.trans (Nat.sub_le _ _)

end Fill

namespace FilledIn

variable {x y : ι → ℕ} {T : ℕ} {l : List ι}

/-- No occupancy filled in the order `l` leaves less than filling each queue to its threshold. -/
theorem leftover_add_sum_le (h : FilledIn a x T l) : leftover a T l + (l.map x).sum ≤ T := by
  induction l generalizing T with
  | nil => exact le_rfl
  | cons i l ih =>
    have hx : x i ≤ T := h.1.trans (Nat.shiftRight_le T (a i))
    have hmono : leftover a (T - T >>> a i) l ≤ leftover a (T - x i) l :=
      leftover_mono (by have := h.1; omega) l
    have := ih h.2
    simp only [leftover, List.map_cons, List.sum_cons]
    omega

theorem of_pool_le {T' : ℕ} (hT : T ≤ T') (h : FilledIn a x T l) : FilledIn a x T' l := by
  induction l generalizing T T' with
  | nil => trivial
  | cons i l ih => exact ⟨h.1.trans (shiftRight_mono hT _), ih (by omega) h.2⟩

/-- Queues may shrink. -/
theorem of_le (hxy : ∀ i, y i ≤ x i) (h : FilledIn a x T l) : FilledIn a y T l := by
  induction l generalizing T with
  | nil => trivial
  | cons i l ih =>
    exact ⟨(hxy i).trans h.1, of_pool_le (Nat.sub_le_sub_left (hxy i) T) (ih h.2)⟩

theorem congr (hxy : ∀ i ∈ l, y i = x i) (h : FilledIn a x T l) : FilledIn a y T l := by
  induction l generalizing T with
  | nil => trivial
  | cons i l ih =>
    have hi := hxy i List.mem_cons_self
    exact ⟨hi ▸ h.1, hi ▸ ih (fun j hj => hxy j (List.mem_cons_of_mem _ hj)) h.2⟩

theorem concat {i : ι} (h : FilledIn a x T l) (hi : x i ≤ (T - (l.map x).sum) >>> a i) :
    FilledIn a x T (l ++ [i]) := by
  induction l generalizing T with
  | nil => exact ⟨by simpa using hi, trivial⟩
  | cons j l ih =>
    refine ⟨h.1, ih h.2 ?_⟩
    simpa [Nat.sub_sub] using hi

theorem erase [DecidableEq ι] (i : ι) (h : FilledIn a x T l) : FilledIn a x T (l.erase i) := by
  induction l generalizing T with
  | nil => exact h
  | cons j l ih =>
    rw [List.erase_cons]
    split
    · exact of_pool_le (Nat.sub_le _ _) h.2
    · exact ⟨h.1, ih h.2⟩

/-- A queue may be left out. -/
theorem exists_perm_cons [DecidableEq ι] {i : ι} (hil : i ∈ l) (h : FilledIn a x T l) :
    ∃ l' : List ι, l.Perm (i :: l') ∧ FilledIn a x T l' :=
  ⟨l.erase i, List.perm_cons_erase hil, h.erase i⟩

/-- **Growth to the threshold of the moment.** A queue may grow to at most the shifted free part of
the pool; it comes last in the new order. -/
theorem grow [DecidableEq ι] {i : ι} {v : ℕ} (hl : l.Nodup) (hil : i ∈ l) (h : FilledIn a x T l)
    (hv : v ≤ (T - (l.map x).sum) >>> a i) :
    ∃ l' : List ι, l'.Perm l ∧ FilledIn a (Function.update x i v) T l' := by
  have hsame : ∀ j ∈ l.erase i, Function.update x i v j = x j := fun j hj =>
    Function.update_of_ne (fun hji => hl.not_mem_erase (hji ▸ hj)) _ _
  have hsum : ((l.erase i).map (Function.update x i v)).sum ≤ (l.map x).sum := by
    rw [List.map_congr_left hsame, ((List.perm_cons_erase hil).map x).sum_eq]
    simp
  refine ⟨l.erase i ++ [i],
    List.perm_append_comm.trans (List.perm_cons_erase hil).symm,
    concat (congr hsame (h.erase i)) ?_⟩
  rw [Function.update_self]
  exact hv.trans (shiftRight_mono (Nat.sub_le_sub_left hsum T) _)

end FilledIn

end SharedPool
