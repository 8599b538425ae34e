import Mathlib.Data.Nat.Notation
import Mathlib.Tactic.SplitIfs

/-!
# Ranges that follow each other

A range is given by its start and its length. Ranges tile `[a, b)` if the first starts at `a`, each
of the others where the one before it ends, and the last ends at `b`.

## Main definitions

* `Tiling.Tiles a l b`: the ranges of `l` tile `[a, b)`.
* `Tiling.covering x l`: the number of ranges of `l` that contain `x`.

## Main results

* `Tiling.Tiles.covering_eq`: what tiles `[a, b)` contains each number of it once, and no other.
-/

namespace Tiling

/-- The ranges of `l` follow each other from `a` to `b`. -/
def Tiles : ℕ → List (ℕ × ℕ) → ℕ → Prop
  | a, [], b => a = b
  | a, r :: l, b => r.1 = a ∧ Tiles (a + r.2) l b

/-- The number of ranges of `l` that contain `x`. -/
def covering (x : ℕ) (l : List (ℕ × ℕ)) : ℕ := l.countP fun r => decide (r.1 ≤ x ∧ x < r.1 + r.2)

variable {a b c n : ℕ} {l l' : List (ℕ × ℕ)}

theorem Tiles.nil (a : ℕ) : Tiles a [] a := rfl

theorem Tiles.append (h : Tiles a l b) (h' : Tiles b l' c) : Tiles a (l ++ l') c := by
  induction l generalizing a with
  | nil =>
    cases h
    exact h'
  | cons r l ih => exact ⟨h.1, ih h.2⟩

theorem Tiles.concat (h : Tiles a l b) (n : ℕ) : Tiles a (l ++ [(b, n)]) (b + n) :=
  h.append ⟨rfl, rfl⟩

theorem Tiles.le (h : Tiles a l b) : a ≤ b := by
  induction l generalizing a with
  | nil => exact Nat.le_of_eq h
  | cons r l ih =>
    have := ih h.2
    omega

/-- **Exactly once**: ranges that tile `[a, b)` contain each number of it once and no other. -/
theorem Tiles.covering_eq (h : Tiles a l b) (x : ℕ) :
    covering x l = if a ≤ x ∧ x < b then 1 else 0 := by
  induction l generalizing a with
  | nil =>
    have hab : a = b := h
    rw [if_neg (by omega)]
    rfl
  | cons r l ih =>
    obtain ⟨hstart, hrest⟩ := h
    have hle := hrest.le
    have hcount := ih hrest
    rw [covering] at hcount ⊢
    rw [List.countP_cons, hcount]
    simp only [decide_eq_true_eq]
    split_ifs <;> omega

end Tiling
