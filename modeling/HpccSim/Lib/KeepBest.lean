import Mathlib.Data.List.Induction
import Mathlib.Order.Lattice

/-!
# Keeping the best

A loop that looks for a greatest value keeps the best one so far, and something that goes with it,
and replaces both by those of an element that is strictly better. It starts with a value to beat. A
loop that looks for a least element keeps the least one so far, and starts with an element.

## Main definitions

* `keepBest u p`: the loop body, for the values `u` and what goes with them, `p`.
* `keepLeast u`: the loop body for the least element in terms of `u`.

## Main results

* `foldl_keepBest`: in the end there is what the loop started with, if no element beats it, or else
  what belongs to an element that no other one beats.
* `foldl_keepLeast`: in the end there is one of the elements, and it is least.
-/

variable {ι α β : Type*} [LinearOrder α]

/-- The loop body: keep the better one of the pair so far and that of the element `i`. -/
def keepBest (u : ι → α) (p : ι → β) (best : α × β) (i : ι) : α × β :=
  if best.1 < u i then (u i, p i) else best

variable {u : ι → α} {p : ι → β}

/-- What goes with the best may be changed before or after. -/
theorem foldl_keepBest_comp {γ : Type*} (f : β → γ) (start : α × β) (l : List ι) :
    l.foldl (keepBest u (f ∘ p)) (start.1, f start.2) =
      ((l.foldl (keepBest u p) start).1, f (l.foldl (keepBest u p) start).2) := by
  induction l generalizing start with
  | nil => rfl
  | cons i l ih =>
    have hstep : keepBest u (f ∘ p) (start.1, f start.2) i =
        ((keepBest u p start i).1, f (keepBest u p start i).2) := by
      simp only [keepBest]
      split_ifs <;> rfl
    rw [List.foldl_cons, List.foldl_cons, hstep, ih]

/-- **The best of a list.** -/
theorem foldl_keepBest (start : α × β) (l : List ι) :
    (l.foldl (keepBest u p) start = start ∧ ∀ j ∈ l, u j ≤ start.1) ∨
      ∃ i ∈ l, l.foldl (keepBest u p) start = (u i, p i) ∧ start.1 < u i ∧
        ∀ j ∈ l, u j ≤ u i := by
  induction l using List.reverseRecOn with
  | nil => exact .inl ⟨rfl, fun j hj => absurd hj List.not_mem_nil⟩
  | append_singleton l k ih =>
    rw [List.foldl_append, List.foldl_cons, List.foldl_nil]
    simp only [List.mem_append, List.mem_singleton]
    rcases ih with ⟨heq, hle⟩ | ⟨i, hi, heq, hlt, hle⟩
    · rw [heq, keepBest]
      split_ifs with hk
      · refine .inr ⟨k, .inr rfl, rfl, hk, ?_⟩
        rintro j (hj | rfl)
        · exact (hle j hj).trans hk.le
        · exact le_rfl
      · refine .inl ⟨rfl, ?_⟩
        rintro j (hj | rfl)
        · exact hle j hj
        · exact not_lt.1 hk
    · rw [heq, keepBest]
      split_ifs with hk
      · refine .inr ⟨k, .inr rfl, rfl, hlt.trans hk, ?_⟩
        rintro j (hj | rfl)
        · exact (hle j hj).trans hk.le
        · exact le_rfl
      · refine .inr ⟨i, .inl hi, rfl, hlt, ?_⟩
        rintro j (hj | rfl)
        · exact hle j hj
        · exact not_lt.1 hk

/-- The loop body: keep the lesser one of the element so far and the next. -/
def keepLeast (u : ι → α) (least i : ι) : ι := if u i < u least then i else least

/-- **The least of a list.** -/
theorem foldl_keepLeast (i : ι) (l : List ι) :
    l.foldl (keepLeast u) i ∈ i :: l ∧ ∀ j ∈ i :: l, u (l.foldl (keepLeast u) i) ≤ u j := by
  induction l using List.reverseRecOn with
  | nil => simp
  | append_singleton l k ih =>
    obtain ⟨hmem, hle⟩ := ih
    rw [List.foldl_append, List.foldl_cons, List.foldl_nil, keepLeast, ← List.cons_append]
    simp only [List.mem_append, List.mem_singleton]
    split_ifs with hk
    · refine ⟨.inr rfl, ?_⟩
      rintro j (hj | rfl)
      · exact hk.le.trans (hle j hj)
      · exact le_rfl
    · refine ⟨.inl hmem, ?_⟩
      rintro j (hj | rfl)
      · exact hle j hj
      · exact not_lt.1 hk
