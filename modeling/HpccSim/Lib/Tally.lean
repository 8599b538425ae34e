import Mathlib.Algebra.BigOperators.Group.Finset.Basic
import Mathlib.Algebra.BigOperators.Group.List.Basic
import Mathlib.Algebra.Order.BigOperators.Group.Finset
import Mathlib.Algebra.Order.Group.Nat
import Mathlib.Algebra.Ring.Nat

/-!
# Weighing the items of a list

`tally w p l` is the total weight of the items of `l` that satisfy `p`. It is the meaning of a
counter that is increased when an item enters a collection and decreased when it leaves.

## Main results

* `tally_cons`, `tally_append`, `tally_erase_add`: how a tally changes.
* `le_tally_of_mem`, `tally_eq_zero_iff`: what a tally says about the items.
* `sum_add_of_eq_off`: a sum changes by the change of its only changed term.
-/

variable {α ι : Type*}

/-- The total weight `w` of the items of `l` satisfying `p`. -/
def tally (w : α → ℕ) (p : α → Bool) (l : List α) : ℕ := ((l.filter p).map w).sum

variable {w : α → ℕ} {p : α → Bool}

@[simp] theorem tally_nil : tally w p [] = 0 := rfl

theorem tally_cons (x : α) (l : List α) :
    tally w p (x :: l) = (if p x then w x else 0) + tally w p l := by
  cases h : p x <;> simp [tally, h]

theorem tally_eq_sum_ite (l : List α) :
    tally w p l = (l.map fun x => if p x then w x else 0).sum := by
  induction l with
  | nil => rfl
  | cons x l ih => rw [tally_cons, ih, List.map_cons, List.sum_cons]

theorem tally_append (l l' : List α) : tally w p (l ++ l') = tally w p l + tally w p l' := by
  simp [tally]

theorem tally_perm {l l' : List α} (h : l.Perm l') : tally w p l = tally w p l' :=
  ((h.filter p).map w).sum_eq

/-- Taking out an item takes its weight out of the tally. -/
theorem tally_erase_add [DecidableEq α] {x : α} {l : List α} (h : x ∈ l) :
    tally w p (l.erase x) + (if p x then w x else 0) = tally w p l := by
  rw [tally_perm (List.perm_cons_erase h), tally_cons, Nat.add_comm]

theorem le_tally_of_mem {x : α} {l : List α} (h : x ∈ l) (hx : p x) : w x ≤ tally w p l := by
  induction l with
  | nil => cases h
  | cons y l ih =>
    rw [tally_cons]
    rcases List.mem_cons.1 h with rfl | h
    · simp [hx]
    · exact (ih h).trans (Nat.le_add_left _ _)

theorem tally_eq_zero_iff {l : List α} : tally w p l = 0 ↔ ∀ x ∈ l, p x → w x = 0 := by
  induction l with
  | nil => simp
  | cons y l ih =>
    rw [tally_cons, Nat.add_eq_zero_iff, ih]
    cases h : p y <;> simp [h]

/-- If two functions differ on `s` at `i` only, so do their sums. -/
theorem sum_add_of_eq_off [DecidableEq ι] {s : Finset ι} {i : ι} (hi : i ∈ s) {f g : ι → ℕ}
    (h : ∀ j ∈ s, j ≠ i → f j = g j) : ∑ j ∈ s, f j + g i = ∑ j ∈ s, g j + f i := by
  have hrest : ∑ j ∈ s.erase i, f j = ∑ j ∈ s.erase i, g j :=
    Finset.sum_congr rfl fun j hj => h j (Finset.mem_of_mem_erase hj) (Finset.ne_of_mem_erase hj)
  rw [← Finset.add_sum_erase s f hi, ← Finset.add_sum_erase s g hi, hrest]
  omega
