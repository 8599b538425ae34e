import HpccSim.Lib.PiecewiseLinear
import Mathlib.Tactic.NormNum

/-!
# Random numbers with a given distribution

The traffic generator draws flow sizes from a distribution given by points of its cumulative
distribution function, each a value and the percentage of the sizes that do not exceed it. Between
two points the function is linear. Numbers are exact.

## Main definitions

* `testCdf`: which lists of points are accepted.
* `CustomRand`: a generator with an accepted list of points.
* `CustomRand.getValueFromPercentile`, `CustomRand.getPercentileFromValue`: the distribution
  function and its inverse.
* `CustomRand.getAvg`, `CustomRand.getIntegralY`: the mean, and what the sizes up to a percentile
  contribute to it.

## Main results

* `CustomRand.consistent`: the two functions are strictly increasing and inverse to each other, and
  the integral over all percentiles is the mean.
-/

namespace HpccSim

open PiecewiseLinear

/-! ### The test -/

/-- The loop of `testCdf`: both coordinates increase. -/
def increasingCdf : List (ℚ × ℚ) → Bool
  | (x₀, y₀) :: (x₁, y₁) :: cdf =>
    if y₁ ≤ y₀ ∨ x₁ ≤ x₀ then false else increasingCdf ((x₁, y₁) :: cdf)
  | _ => true

/-- Whether the points are accepted; `none` is the exception for an empty list. -/
def testCdf (cdf : List (ℚ × ℚ)) : Option Bool := do
  let first ← cdf.head?
  if first.2 ≠ 0 then
    return false
  let last ← cdf.getLast?
  if last.2 ≠ 100 then
    return false
  return increasingCdf cdf

theorem increasing_of_increasingCdf :
    {cdf : List (ℚ × ℚ)} → increasingCdf cdf = true → Increasing cdf
  | [], _ => .nil
  | [p], _ => .singleton p
  | p :: q :: ps, h => by
    by_cases hle : q.2 ≤ p.2 ∨ q.1 ≤ p.1
    · rw [increasingCdf, if_pos hle] at h
      cases h
    · rw [increasingCdf, if_neg hle] at h
      push Not at hle
      exact increasing_cons_cons.2 ⟨⟨hle.2, hle.1⟩, increasing_of_increasingCdf h⟩

/-- What an accepted list of points looks like. -/
theorem of_testCdf {cdf : List (ℚ × ℚ)} (h : testCdf cdf = some true) :
    ∃ p ps, cdf = p :: ps ∧ ps ≠ [] ∧ p.2 = 0 ∧ (ps.getLastD p).2 = 100 ∧
      Increasing (p :: ps) := by
  match cdf with
  | [] => cases h
  | p :: ps =>
    have hlast : (p :: ps).getLast? = some (ps.getLastD p) := by
      rw [List.getLast?_cons, List.getLastD_eq_getLast?]
    simp only [testCdf, List.head?_cons, hlast, Option.bind_eq_bind, Option.bind_some] at h
    by_cases hp : p.2 ≠ 0
    · rw [if_pos hp] at h
      cases h
    rw [if_neg hp] at h
    by_cases hq : (ps.getLastD p).2 ≠ 100
    · rw [if_pos hq] at h
      cases h
    rw [if_neg hq] at h
    rw [not_not] at hp hq
    refine ⟨p, ps, rfl, ?_, hp, hq, increasing_of_increasingCdf (Option.some.inj h)⟩
    rintro rfl
    rw [List.getLastD_nil, hp] at hq
    norm_num at hq

/-! ### The generator -/

/-- A generator, with the points that `setCdf` has accepted. -/
structure CustomRand where
  cdf : List (ℚ × ℚ)
  accepted : testCdf cdf = some true

namespace CustomRand

/-- The generator with the given points, if they are accepted. -/
def setCdf (cdf : List (ℚ × ℚ)) : Option CustomRand :=
  if h : testCdf cdf = some true then some ⟨cdf, h⟩ else none

/-- The loop of `getAvg`. -/
def avgLoop : ℚ → ℚ × ℚ → List (ℚ × ℚ) → ℚ
  | s, _, [] => s
  | s, (last_x, last_y), (x, y) :: cdf =>
    avgLoop (s + (x + last_x) / 2 * (y - last_y)) (x, y) cdf

/-- The mean. -/
def getAvg (r : CustomRand) : Option ℚ :=
  match r.cdf with
  | [] => none
  | c :: cdf => some (avgLoop 0 c cdf / 100)

/-- The loop of `getPercentileFromValue`. -/
def percentileLoop (x : ℚ) : List (ℚ × ℚ) → Option ℚ
  | (x₀, y₀) :: (x₁, y₁) :: cdf =>
    if x ≤ x₁ then some (y₀ + (y₁ - y₀) / (x₁ - x₀) * (x - x₀))
    else percentileLoop x ((x₁, y₁) :: cdf)
  | _ => none

/-- The percentile of a value, `-1` for a value out of range. -/
def getPercentileFromValue (r : CustomRand) (x : ℚ) : Option ℚ := do
  let last ← r.cdf.getLast?
  if x < 0 ∨ x > last.1 then
    return -1
  percentileLoop x r.cdf

/-- The loop of `getValueFromPercentile`. -/
def valueLoop (y : ℚ) : List (ℚ × ℚ) → Option ℚ
  | (x₀, y₀) :: (x₁, y₁) :: cdf =>
    if y ≤ y₁ then some (x₀ + (x₁ - x₀) / (y₁ - y₀) * (y - y₀))
    else valueLoop y ((x₁, y₁) :: cdf)
  | _ => none

/-- The value at a percentile. -/
def getValueFromPercentile (r : CustomRand) (y : ℚ) : Option ℚ :=
  valueLoop y r.cdf

/-- The loop of `getIntegralY`. -/
def integralLoop (y : ℚ) : ℚ → List (ℚ × ℚ) → ℚ
  | s, (x₀, y₀) :: (x₁, y₁) :: cdf =>
    if y ≤ y₁ then s + 1 / 2 * (x₀ + x₀ + (x₁ - x₀) / (y₁ - y₀) * (y - y₀)) * (y - y₀) / 100
    else integralLoop y (s + 1 / 2 * (x₁ + x₀) * (y₁ - y₀) / 100) ((x₁, y₁) :: cdf)
  | s, _ => s

/-- What the values up to the percentile `y` contribute to the mean. -/
def getIntegralY (r : CustomRand) (y : ℚ) : ℚ := integralLoop y 0 r.cdf

/-- The value drawn for the random number `u`, between 0 and 1. -/
def rand (r : CustomRand) (u : ℚ) : Option ℚ := r.getValueFromPercentile (u * 100)

/-! ### Piecewise linear functions -/

theorem percentileLoop_eq (x : ℚ) : (cdf : List (ℚ × ℚ)) → percentileLoop x cdf = eval cdf x
  | [] => rfl
  | [_] => rfl
  | p :: q :: ps => by
    rw [percentileLoop, percentileLoop_eq x (q :: ps)]
    rfl

theorem valueLoop_eq (y : ℚ) :
    (cdf : List (ℚ × ℚ)) → valueLoop y cdf = eval (cdf.map Prod.swap) y
  | [] => rfl
  | [_] => rfl
  | p :: q :: ps => by
    rw [valueLoop, valueLoop_eq y (q :: ps)]
    rfl

theorem avgLoop_eq (s : ℚ) (c : ℚ × ℚ) (cdf : List (ℚ × ℚ)) :
    avgLoop s c cdf = s + total ((c :: cdf).map Prod.swap) := by
  induction cdf generalizing s c with
  | nil => exact (add_zero s).symm
  | cons d cdf ih =>
    have hseg : (d.1 + c.1) / 2 * (d.2 - c.2) = trapezoid c.swap d.swap := by
      simp only [trapezoid, Prod.fst_swap, Prod.snd_swap]
      ring
    rw [avgLoop, ih, hseg, List.map_cons, List.map_cons, List.map_cons, total, add_assoc]

theorem integralLoop_eq (y s : ℚ) :
    (cdf : List (ℚ × ℚ)) → integralLoop y s cdf = s + area (cdf.map Prod.swap) y / 100
  | [] => by simp [integralLoop, area]
  | [_] => by simp [integralLoop, area]
  | p :: q :: ps => by
    rw [integralLoop, integralLoop_eq y _ (q :: ps)]
    simp only [List.map_cons]
    rcases le_or_gt y q.2 with hy | hy
    · rw [if_pos hy, area_of_le (q := q.swap) hy]
      simp only [trapezoid, lerp, Prod.fst_swap, Prod.snd_swap]
      ring
    · rw [if_neg hy.not_ge, area_of_lt (q := q.swap) hy]
      simp only [trapezoid, Prod.fst_swap, Prod.snd_swap]
      ring

/-! ### The range of a distribution -/

section Range

variable (r : CustomRand)

/-- The points of a generator. -/
theorem exists_points : ∃ p ps, r.cdf = p :: ps ∧ ps ≠ [] ∧ p.2 = 0 ∧
    (ps.getLastD p).2 = 100 ∧ Increasing (p :: ps) :=
  of_testCdf r.accepted

theorem cdf_ne_nil : r.cdf ≠ [] := by
  obtain ⟨p, ps, hr, -⟩ := r.exists_points
  rw [hr]
  exact List.cons_ne_nil p ps

/-- The first value. -/
def least : ℚ := (r.cdf.head r.cdf_ne_nil).1

/-- The last value. -/
def largest : ℚ := (r.cdf.getLast r.cdf_ne_nil).1

theorem exists_points_of_range : ∃ p ps, r.cdf = p :: ps ∧ ps ≠ [] ∧ p.2 = 0 ∧
    (ps.getLastD p).2 = 100 ∧ Increasing (p :: ps) ∧ r.least = p.1 ∧
      r.largest = (ps.getLastD p).1 := by
  obtain ⟨p, ps, hr, hps, hp, hlast, hinc⟩ := r.exists_points
  refine ⟨p, ps, hr, hps, hp, hlast, hinc, ?_, ?_⟩
  · simp only [least, hr, List.head_cons]
  · simp only [largest, hr, List.getLast_eq_getLastD]

variable {r} {x x' y y' : ℚ}

/-- A value in range is looked up among the points. -/
theorem getPercentileFromValue_eq (hx : 0 ≤ x) (hx' : x ≤ r.largest) :
    r.getPercentileFromValue x = eval r.cdf x := by
  have hlast : r.cdf.getLast? = some (r.cdf.getLast r.cdf_ne_nil) :=
    List.getLast?_eq_some_getLast r.cdf_ne_nil
  have hrange : ¬(x < 0 ∨ x > (r.cdf.getLast r.cdf_ne_nil).1) :=
    not_or.2 ⟨hx.not_gt, hx'.not_gt⟩
  rw [getPercentileFromValue, hlast, Option.bind_eq_bind, Option.bind_some, if_neg hrange,
    percentileLoop_eq]

theorem getValueFromPercentile_eq : r.getValueFromPercentile y = eval (r.cdf.map Prod.swap) y :=
  valueLoop_eq y r.cdf

theorem least_le_largest : r.least ≤ r.largest := by
  obtain ⟨p, ps, -, -, -, -, hinc, hleast, hlargest⟩ := r.exists_points_of_range
  rw [hleast, hlargest]
  exact hinc.le_last.1

/-- Every percentile has a value in range. -/
theorem exists_value (hy : 0 ≤ y) (hy' : y ≤ 100) : ∃ x, r.getValueFromPercentile y = some x ∧
    r.least ≤ x ∧ x ≤ r.largest := by
  obtain ⟨p, ps, hr, hps, hp, hlast, hinc, hleast, hlargest⟩ := r.exists_points_of_range
  have hswap : Increasing (p.swap :: ps.map Prod.swap) := hinc.map_swap
  have hend : (ps.map Prod.swap).getLastD p.swap = (ps.getLastD p).swap := List.getLastD_map
  obtain ⟨x, hx⟩ : ∃ x, eval (p.swap :: ps.map Prod.swap) y = some x := by
    refine exists_eval (by simpa using hps) ?_
    rw [hend]
    exact hy'.trans_eq hlast.symm
  have hlow := le_of_eval hswap (hp.trans_le hy) hx
  have hhigh := eval_le_last hswap hx
  rw [hend] at hhigh
  refine ⟨x, ?_, hleast.trans_le hlow, hhigh.trans_eq hlargest.symm⟩
  rw [getValueFromPercentile_eq, hr]
  exact hx

/-- Every value in range has a percentile. -/
theorem exists_percentile (h₀ : 0 ≤ r.least) (hx : r.least ≤ x) (hx' : x ≤ r.largest) :
    ∃ y, r.getPercentileFromValue x = some y ∧ 0 ≤ y ∧ y ≤ 100 := by
  rw [getPercentileFromValue_eq (h₀.trans hx) hx']
  obtain ⟨p, ps, hr, hps, hp, hlast, hinc, hleast, hlargest⟩ := r.exists_points_of_range
  obtain ⟨y, hy⟩ := exists_eval hps (hx'.trans_eq hlargest)
  rw [hr]
  exact ⟨y, hy, hp.symm.trans_le (le_of_eval hinc (hleast.symm.trans_le hx) hy),
    (eval_le_last hinc hy).trans_eq hlast⟩

/-- The percentile of the value at a percentile is that percentile. -/
theorem getPercentile_of_getValue (h₀ : 0 ≤ r.least) (hy : 0 ≤ y) (hy' : y ≤ 100)
    (hx : r.getValueFromPercentile y = some x) : r.getPercentileFromValue x = some y := by
  obtain ⟨x', hx', hlow, hhigh⟩ := exists_value hy hy'
  obtain rfl := Option.some.inj (hx.symm.trans hx')
  rw [getPercentileFromValue_eq (h₀.trans hlow) hhigh]
  rw [getValueFromPercentile_eq] at hx
  obtain ⟨p, ps, hr, -, -, -, hinc, -, -⟩ := r.exists_points_of_range
  rw [hr] at hx ⊢
  have hback := eval_map_swap hinc.map_swap hx
  rwa [← List.map_cons, List.map_map, Prod.swap_swap_eq, List.map_id] at hback

/-- The value at the percentile of a value is that value. -/
theorem getValue_of_getPercentile (h₀ : 0 ≤ r.least) (hx : r.least ≤ x) (hx' : x ≤ r.largest)
    (hy : r.getPercentileFromValue x = some y) : r.getValueFromPercentile y = some x := by
  rw [getPercentileFromValue_eq (h₀.trans hx) hx'] at hy
  rw [getValueFromPercentile_eq]
  obtain ⟨p, ps, hr, -, -, -, hinc, -, -⟩ := r.exists_points_of_range
  rw [hr] at hy ⊢
  exact eval_map_swap hinc hy

theorem value_lt_value (hyy' : y < y') (hx : r.getValueFromPercentile y = some x)
    (hx' : r.getValueFromPercentile y' = some x') : x < x' := by
  rw [getValueFromPercentile_eq] at hx hx'
  obtain ⟨p, ps, hr, -, -, -, hinc, -, -⟩ := r.exists_points_of_range
  rw [hr] at hx hx'
  exact eval_lt_eval hinc.map_swap hyy' hx hx'

theorem percentile_lt_percentile (h₀ : 0 ≤ x) (hxx' : x < x') (hlarge : x' ≤ r.largest)
    (hy : r.getPercentileFromValue x = some y) (hy' : r.getPercentileFromValue x' = some y') :
    y < y' := by
  rw [getPercentileFromValue_eq h₀ (hxx'.le.trans hlarge)] at hy
  rw [getPercentileFromValue_eq (h₀.trans hxx'.le) hlarge] at hy'
  obtain ⟨p, ps, hr, -, -, -, hinc, -, -⟩ := r.exists_points_of_range
  rw [hr] at hy hy'
  exact eval_lt_eval hinc hxx' hy hy'

/-- The value at the percentile 100 is the largest one. -/
theorem value_hundred (h₀ : 0 ≤ r.least) : r.getValueFromPercentile 100 = some r.largest := by
  obtain ⟨x, hx, -, hle⟩ := r.exists_value (y := 100) (by norm_num) le_rfl
  obtain ⟨y, hy, -, hy'⟩ := exists_percentile h₀ least_le_largest le_rfl
  have hback := getValue_of_getPercentile h₀ least_le_largest le_rfl hy
  rcases hy'.eq_or_lt with rfl | hlt
  · exact hback
  · exact absurd (value_lt_value hlt hback hx) hle.not_gt

end Range

/-! ### The mean -/

section Mean

variable {r : CustomRand} {y y' : ℚ}

theorem getIntegralY_eq : r.getIntegralY y = area (r.cdf.map Prod.swap) y / 100 := by
  rw [getIntegralY, integralLoop_eq, zero_add]

/-- The mean is the sum of all trapezoids. -/
theorem getAvg_eq : r.getAvg = some (total (r.cdf.map Prod.swap) / 100) := by
  obtain ⟨p, ps, hr, -⟩ := r.exists_points
  rw [getAvg, hr]
  simp only [avgLoop_eq, zero_add]

/-- The integral over all percentiles is the mean. -/
theorem getAvg_eq_getIntegralY : r.getAvg = some (r.getIntegralY 100) := by
  rw [getAvg_eq, getIntegralY_eq]
  obtain ⟨p, ps, hr, -, -, hlast, hinc⟩ := r.exists_points
  have hend : (ps.map Prod.swap).getLastD p.swap = (ps.getLastD p).swap := List.getLastD_map
  have harea : area (p.swap :: ps.map Prod.swap) _ = total (p.swap :: ps.map Prod.swap) :=
    area_last hinc.map_swap
  rw [hend, Prod.fst_swap, hlast] at harea
  rw [hr, List.map_cons, harea]

/-- The integral does not decrease from one percentile to a larger one. -/
theorem getIntegralY_le (h₀ : 0 ≤ r.least) (hy : 0 ≤ y) (hyy' : y ≤ y') :
    r.getIntegralY y ≤ r.getIntegralY y' := by
  rw [getIntegralY_eq, getIntegralY_eq]
  obtain ⟨p, ps, hr, -, hp, -, hinc, hleast, -⟩ := r.exists_points_of_range
  rw [hr]
  refine div_le_div_of_nonneg_right ?_ (by norm_num)
  have hswap : Increasing (p.swap :: ps.map Prod.swap) := hinc.map_swap
  exact area_le_area hswap (h₀.trans_eq hleast) (hp.trans_le hy) hyy'

/-- **The distribution is consistent.** The value of a percentile and the percentile of a value
are strictly increasing and inverse to each other, and the integral over the percentiles grows
from percentile to percentile up to the mean. -/
theorem consistent (r : CustomRand) (h₀ : 0 ≤ r.least) :
    (∀ y, 0 ≤ y → y ≤ 100 →
      ∃ x, r.getValueFromPercentile y = some x ∧ r.getPercentileFromValue x = some y) ∧
    (∀ x, r.least ≤ x → x ≤ r.largest →
      ∃ y, r.getPercentileFromValue x = some y ∧ r.getValueFromPercentile y = some x) ∧
    (∀ y y', 0 ≤ y → y < y' → y' ≤ 100 →
      ∃ x x', r.getValueFromPercentile y = some x ∧ r.getValueFromPercentile y' = some x' ∧
        x < x') ∧
    (∀ x x', r.least ≤ x → x < x' → x' ≤ r.largest →
      ∃ y y', r.getPercentileFromValue x = some y ∧ r.getPercentileFromValue x' = some y' ∧
        y < y') ∧
    r.getAvg = some (r.getIntegralY 100) ∧
    (∀ y y', 0 ≤ y → y ≤ y' → y' ≤ 100 → r.getIntegralY y ≤ r.getIntegralY y') := by
  refine ⟨fun y hy hy' => ?_, fun x hx hx' => ?_, fun y y' hy hyy' hy' => ?_,
    fun x x' hx hxx' hx' => ?_, getAvg_eq_getIntegralY,
    fun y y' hy hyy' _ => getIntegralY_le h₀ hy hyy'⟩
  · obtain ⟨x, hx, -, -⟩ := r.exists_value hy hy'
    exact ⟨x, hx, getPercentile_of_getValue h₀ hy hy' hx⟩
  · obtain ⟨y, hy, -, -⟩ := exists_percentile h₀ hx hx'
    exact ⟨y, hy, getValue_of_getPercentile h₀ hx hx' hy⟩
  · obtain ⟨x, hx, -, -⟩ := r.exists_value hy (hyy'.le.trans hy')
    obtain ⟨x', hx', -, -⟩ := r.exists_value (hy.trans hyy'.le) hy'
    exact ⟨x, x', hx, hx', value_lt_value hyy' hx hx'⟩
  · obtain ⟨y, hy, -, -⟩ := exists_percentile h₀ hx (hxx'.le.trans hx')
    obtain ⟨y', hy', -, -⟩ := exists_percentile h₀ (hx.trans hxx'.le) hx'
    exact ⟨y, y', hy, hy', percentile_lt_percentile (h₀.trans hx) hxx' hx' hy hy'⟩

end Mean

/-- Three points, with sizes between 100 and 400. -/
def sample : CustomRand where
  cdf := [(100, 0), (200, 50), (400, 100)]
  accepted := by decide +kernel

theorem consistent_sample :
    (∃ x, sample.getValueFromPercentile 75 = some x ∧ sample.getPercentileFromValue x = some 75) ∧
    sample.getAvg = some (sample.getIntegralY 100) := by
  have h := consistent sample (by decide +kernel)
  exact ⟨h.1 75 (by norm_num) (by norm_num), h.2.2.2.2.1⟩

end CustomRand

end HpccSim
