import Mathlib.Algebra.Order.Field.Basic
import Mathlib.Data.List.Chain
import Mathlib.Tactic.FieldSimp
import Mathlib.Tactic.Linarith
import Mathlib.Tactic.Ring

/-!
# Piecewise linear functions

A list of points, both coordinates of which increase from one point to the next, is the graph of a
piecewise linear function. It is evaluated by a search for the first segment that does not end
before the argument. Exchanging the coordinates of all points gives the inverse function.

## Main definitions

* `PiecewiseLinear.Increasing`: both coordinates increase from one point to the next.
* `PiecewiseLinear.eval`: the value at a point, by a linear search for its segment.
* `PiecewiseLinear.area`: the area below the graph up to a point, by the same search.

## Main results

* `PiecewiseLinear.eval_map_swap`: the points with their coordinates exchanged give the inverse.
* `PiecewiseLinear.eval_lt_eval`: the function is strictly increasing.
* `PiecewiseLinear.area_le_area`: the area below a nonnegative function grows.
* `PiecewiseLinear.area_last`: the whole area is the sum of the trapezoids.
-/

namespace PiecewiseLinear

variable {K : Type*}

/-! ### Points in order -/

section Order

variable [LinearOrder K]

/-- Both coordinates are larger at `q` than at `p`. -/
def Below (p q : K × K) : Prop := p.1 < q.1 ∧ p.2 < q.2

/-- Both coordinates increase from one point to the next. -/
def Increasing (ps : List (K × K)) : Prop := ps.IsChain Below

variable {p q : K × K} {ps : List (K × K)}

theorem Below.swap (h : Below p q) : Below p.swap q.swap := ⟨h.2, h.1⟩

theorem increasing_cons_cons : Increasing (p :: q :: ps) ↔ Below p q ∧ Increasing (q :: ps) :=
  List.isChain_cons_cons

/-- Exchanging the coordinates keeps the points in order. -/
theorem Increasing.map_swap (h : Increasing ps) : Increasing (ps.map Prod.swap) :=
  List.isChain_map_of_isChain Prod.swap (fun _ _ hpq => hpq.swap) h

/-- No point is beyond the last one. -/
theorem Increasing.le_last (h : Increasing (p :: ps)) :
    p.1 ≤ (ps.getLastD p).1 ∧ p.2 ≤ (ps.getLastD p).2 := by
  induction ps generalizing p with
  | nil => exact ⟨le_rfl, le_rfl⟩
  | cons q ps ih =>
    obtain ⟨hpq, hqs⟩ := increasing_cons_cons.1 h
    rw [List.getLastD_cons]
    exact ⟨hpq.1.le.trans (ih hqs).1, hpq.2.le.trans (ih hqs).2⟩

end Order

/-! ### One segment -/

section Segment

variable [Field K]

/-- The value at `x` of the line through `p` and `q`. -/
def lerp (p q : K × K) (x : K) : K := p.2 + (q.2 - p.2) / (q.1 - p.1) * (x - p.1)

/-- The area between `p` and `q`. -/
def trapezoid (p q : K × K) : K := (q.1 - p.1) * (p.2 + q.2) / 2

/-- The sum of all trapezoids. -/
def total : List (K × K) → K
  | p :: q :: ps => trapezoid p q + total (q :: ps)
  | _ => 0

variable {p q : K × K}

@[simp] theorem total_singleton (p : K × K) : total [p] = 0 := rfl

theorem lerp_left : lerp p q p.1 = p.2 := by simp [lerp]

variable [LinearOrder K]

theorem lerp_right (h : Below p q) : lerp p q q.1 = q.2 := by
  have hne : q.1 - p.1 ≠ 0 := sub_ne_zero.2 h.1.ne'
  rw [lerp, div_mul_cancel₀ _ hne, add_sub_cancel]

/-- Exchanging the coordinates of the two points inverts the line. -/
theorem lerp_swap (h : Below p q) (x : K) : lerp p.swap q.swap (lerp p q x) = x := by
  have hx : q.1 - p.1 ≠ 0 := sub_ne_zero.2 h.1.ne'
  have hy : q.2 - p.2 ≠ 0 := sub_ne_zero.2 h.2.ne'
  simp only [lerp, Prod.fst_swap, Prod.snd_swap]
  field_simp
  ring

variable [IsStrictOrderedRing K]

theorem slope_pos (h : Below p q) : 0 < (q.2 - p.2) / (q.1 - p.1) :=
  div_pos (sub_pos.2 h.2) (sub_pos.2 h.1)

theorem lerp_lt_lerp (h : Below p q) {x x' : K} (hx : x < x') : lerp p q x < lerp p q x' := by
  have hmul := mul_lt_mul_of_pos_left (sub_lt_sub_right hx p.1) (slope_pos h)
  exact add_lt_add_right hmul p.2

theorem lerp_le_lerp (h : Below p q) {x x' : K} (hx : x ≤ x') : lerp p q x ≤ lerp p q x' := by
  rcases hx.eq_or_lt with rfl | hx
  · exact le_rfl
  · exact (lerp_lt_lerp h hx).le

/-- Left of the right end, the line is below its value there. -/
theorem lerp_le_right (h : Below p q) {x : K} (hx : x ≤ q.1) : lerp p q x ≤ q.2 :=
  (lerp_le_lerp h hx).trans_eq (lerp_right h)

/-- Right of the left end, the line is above its value there. -/
theorem left_lt_lerp (h : Below p q) {x : K} (hx : p.1 < x) : p.2 < lerp p q x :=
  lerp_left.symm.trans_lt (lerp_lt_lerp h hx)

theorem left_le_lerp (h : Below p q) {x : K} (hx : p.1 ≤ x) : p.2 ≤ lerp p q x :=
  lerp_left.symm.trans_le (lerp_le_lerp h hx)

theorem trapezoid_nonneg {x y : K} (hp : 0 ≤ p.2) (hx : p.1 ≤ x) (hy : 0 ≤ y) :
    0 ≤ trapezoid p (x, y) :=
  div_nonneg (mul_nonneg (sub_nonneg.2 hx) (add_nonneg hp hy)) zero_le_two

/-- Cut off earlier, a segment of a nonnegative function has less area below it. -/
theorem trapezoid_le_trapezoid (h : Below p q) (hp : 0 ≤ p.2) {x x' : K} (hx : p.1 ≤ x)
    (hx' : x ≤ x') : trapezoid p (x, lerp p q x) ≤ trapezoid p (x', lerp p q x') := by
  have hy : 0 ≤ p.2 + lerp p q x := add_nonneg hp (hp.trans (left_le_lerp h hx))
  have hx₀ : 0 ≤ x' - p.1 := sub_nonneg.2 (hx.trans hx')
  refine div_le_div_of_nonneg_right ?_ zero_le_two
  exact mul_le_mul (sub_le_sub_right hx' _) (add_le_add_right (lerp_le_lerp h hx') _) hy hx₀

end Segment

/-! ### The value -/

section Eval

variable [Field K] [LinearOrder K]

/-- The value at `x`, in the first segment that does not end before `x`. -/
def eval : List (K × K) → K → Option K
  | p :: q :: ps, x => if x ≤ q.1 then some (lerp p q x) else eval (q :: ps) x
  | _, _ => none

variable {p q : K × K} {ps : List (K × K)} {x x' y y' : K}

theorem eval_cons_cons_eq_some : eval (p :: q :: ps) x = some y ↔
    x ≤ q.1 ∧ lerp p q x = y ∨ q.1 < x ∧ eval (q :: ps) x = some y := by
  rw [eval]
  by_cases hq : x ≤ q.1
  · simp [hq]
  · simp [hq, not_le.1 hq]

/-- Up to the last point there is a value. -/
theorem exists_eval (hne : ps ≠ []) (hx : x ≤ (ps.getLastD p).1) :
    ∃ y, eval (p :: ps) x = some y := by
  induction ps generalizing p with
  | nil => exact absurd rfl hne
  | cons q ps ih =>
    rw [List.getLastD_cons] at hx
    simp only [eval_cons_cons_eq_some]
    rcases le_or_gt x q.1 with hq | hq
    · exact ⟨_, .inl ⟨hq, rfl⟩⟩
    · have hps : ps ≠ [] := by
        rintro rfl
        exact absurd hx (not_le.2 hq)
      obtain ⟨y, hy⟩ := ih hps hx
      exact ⟨y, .inr ⟨hq, hy⟩⟩

variable [IsStrictOrderedRing K]

/-- Beyond the first point, the value is larger than that of the first point. -/
theorem lt_of_eval (h : Increasing (p :: ps)) (hx : p.1 < x) (he : eval (p :: ps) x = some y) :
    p.2 < y := by
  induction ps generalizing p with
  | nil => cases he
  | cons q ps ih =>
    obtain ⟨hpq, hqs⟩ := increasing_cons_cons.1 h
    rcases eval_cons_cons_eq_some.1 he with ⟨-, rfl⟩ | ⟨hq, he⟩
    · exact left_lt_lerp hpq hx
    · exact hpq.2.trans (ih hqs hq he)

/-- From the first point on, the value is at least that of the first point. -/
theorem le_of_eval (h : Increasing (p :: ps)) (hx : p.1 ≤ x) (he : eval (p :: ps) x = some y) :
    p.2 ≤ y := by
  rcases hx.eq_or_lt with rfl | hx
  · cases ps with
    | nil => cases he
    | cons q ps =>
      obtain ⟨hpq, -⟩ := increasing_cons_cons.1 h
      rcases eval_cons_cons_eq_some.1 he with ⟨-, rfl⟩ | ⟨hq, -⟩
      · exact lerp_left.ge
      · exact absurd hpq.1 hq.not_gt
  · exact (lt_of_eval h hx he).le

/-- The value is at most that of the last point. -/
theorem eval_le_last (h : Increasing (p :: ps)) (he : eval (p :: ps) x = some y) :
    y ≤ (ps.getLastD p).2 := by
  induction ps generalizing p with
  | nil => cases he
  | cons q ps ih =>
    obtain ⟨hpq, hqs⟩ := increasing_cons_cons.1 h
    rw [List.getLastD_cons]
    rcases eval_cons_cons_eq_some.1 he with ⟨hq, rfl⟩ | ⟨-, he⟩
    · exact (lerp_le_right hpq hq).trans hqs.le_last.2
    · exact ih hqs he

/-- **The inverse.** The points with their coordinates exchanged give back the argument. -/
theorem eval_map_swap (h : Increasing (p :: ps)) (he : eval (p :: ps) x = some y) :
    eval ((p :: ps).map Prod.swap) y = some x := by
  induction ps generalizing p with
  | nil => cases he
  | cons q ps ih =>
    obtain ⟨hpq, hqs⟩ := increasing_cons_cons.1 h
    refine eval_cons_cons_eq_some.2 ?_
    rcases eval_cons_cons_eq_some.1 he with ⟨hq, rfl⟩ | ⟨hq, he⟩
    · exact .inl ⟨lerp_le_right hpq hq, lerp_swap hpq x⟩
    · exact .inr ⟨lt_of_eval hqs hq he, ih hqs he⟩

/-- **Monotonicity.** A larger argument has a larger value. -/
theorem eval_lt_eval (h : Increasing (p :: ps)) (hx : x < x') (he : eval (p :: ps) x = some y)
    (he' : eval (p :: ps) x' = some y') : y < y' := by
  induction ps generalizing p with
  | nil => cases he
  | cons q ps ih =>
    obtain ⟨hpq, hqs⟩ := increasing_cons_cons.1 h
    rcases eval_cons_cons_eq_some.1 he with ⟨hq, rfl⟩ | ⟨hq, he⟩
    · rcases eval_cons_cons_eq_some.1 he' with ⟨-, rfl⟩ | ⟨hq', he'⟩
      · exact lerp_lt_lerp hpq hx
      · exact (lerp_le_right hpq hq).trans_lt (lt_of_eval hqs hq' he')
    · rcases eval_cons_cons_eq_some.1 he' with ⟨hq', -⟩ | ⟨-, he'⟩
      · exact absurd (hq.trans hx) hq'.not_gt
      · exact ih hqs he he'

end Eval

/-! ### The area -/

section Area

variable [Field K] [LinearOrder K]

/-- The area below the graph from the first point to `x`. -/
def area : List (K × K) → K → K
  | p :: q :: ps, x =>
    if x ≤ q.1 then trapezoid p (x, lerp p q x) else trapezoid p q + area (q :: ps) x
  | _, _ => 0

variable {p q : K × K} {ps : List (K × K)} {x x' : K}

theorem area_of_le (hx : x ≤ q.1) : area (p :: q :: ps) x = trapezoid p (x, lerp p q x) :=
  if_pos hx

theorem area_of_lt (hx : q.1 < x) :
    area (p :: q :: ps) x = trapezoid p q + area (q :: ps) x :=
  if_neg hx.not_ge

/-- **The whole area.** Up to the last point the area is the sum of all trapezoids. -/
theorem area_last (h : Increasing (p :: ps)) :
    area (p :: ps) (ps.getLastD p).1 = total (p :: ps) := by
  induction ps generalizing p with
  | nil => rfl
  | cons q ps ih =>
    obtain ⟨hpq, hqs⟩ := increasing_cons_cons.1 h
    rw [List.getLastD_cons, total]
    cases ps with
    | nil =>
      rw [List.getLastD_nil, area_of_le le_rfl, lerp_right hpq, total_singleton, add_zero]
    | cons r ps =>
      obtain ⟨hqr, hrs⟩ := increasing_cons_cons.1 hqs
      have hlt : q.1 < ((r :: ps).getLastD q).1 := by
        rw [List.getLastD_cons]
        exact hqr.1.trans_le hrs.le_last.1
      rw [area_of_lt hlt, ih hqs]

variable [IsStrictOrderedRing K]

theorem area_nonneg (h : Increasing (p :: ps)) (hp : 0 ≤ p.2) (hx : p.1 ≤ x) :
    0 ≤ area (p :: ps) x := by
  induction ps generalizing p with
  | nil => exact le_rfl
  | cons q ps ih =>
    obtain ⟨hpq, hqs⟩ := increasing_cons_cons.1 h
    have hq₀ : 0 ≤ q.2 := hp.trans hpq.2.le
    rcases le_or_gt x q.1 with hq | hq
    · rw [area_of_le hq]
      exact trapezoid_nonneg hp hx (hp.trans (left_le_lerp hpq hx))
    · rw [area_of_lt hq]
      exact add_nonneg (trapezoid_nonneg hp hpq.1.le hq₀) (ih hqs hq₀ hq.le)

/-- **The area grows.** The area below a nonnegative function does not decrease. -/
theorem area_le_area (h : Increasing (p :: ps)) (hp : 0 ≤ p.2) (hx : p.1 ≤ x) (hx' : x ≤ x') :
    area (p :: ps) x ≤ area (p :: ps) x' := by
  induction ps generalizing p with
  | nil => exact le_rfl
  | cons q ps ih =>
    obtain ⟨hpq, hqs⟩ := increasing_cons_cons.1 h
    have hq₀ : 0 ≤ q.2 := hp.trans hpq.2.le
    rcases le_or_gt x q.1 with hq | hq
    · rcases le_or_gt x' q.1 with hq' | hq'
      · rw [area_of_le hq, area_of_le hq']
        exact trapezoid_le_trapezoid hpq hp hx hx'
      · have hseg := trapezoid_le_trapezoid hpq hp hx hq
        rw [lerp_right hpq] at hseg
        rw [area_of_le hq, area_of_lt hq']
        exact hseg.trans (le_add_of_nonneg_right (area_nonneg hqs hq₀ hq'.le))
    · rw [area_of_lt hq, area_of_lt (hq.trans_le hx')]
      exact add_le_add_right (ih hqs hq₀ hq.le) _

end Area

end PiecewiseLinear
