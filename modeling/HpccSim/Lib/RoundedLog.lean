import Mathlib.Analysis.SpecialFunctions.Log.Base

/-!
# Rounded logarithms

The logarithm of a rational number to a rational base above `1`, rounded to an integer, and the
binary logarithm of it, rounded up. Both can be computed, with powers only.

## Main definitions

* `RoundedLog.ceilLog`, `RoundedLog.floorLog`: the logarithm, rounded up and down.
* `RoundedLog.ceilLogLog`: its binary logarithm, rounded up.

## Main results

* `RoundedLog.ceilLog_le_iff`, `RoundedLog.le_floorLog_iff`: comparing them with a number.
* `RoundedLog.ceilLog_eq_ceil`, `RoundedLog.floorLog_eq_floor`, `RoundedLog.ceilLogLog_eq_ceil`:
  they are those of the real logarithms.
-/

namespace RoundedLog

variable {b : ℚ} (hb : 1 < b) {x : ℚ} {n : ℕ}

include hb in
theorem exists_le_pow (x : ℚ) : ∃ n : ℕ, x ≤ b ^ n :=
  (pow_unbounded_of_one_lt x hb).imp fun _ h => h.le

include hb in
theorem exists_le_pow_pow (x : ℚ) : ∃ n : ℕ, x ≤ b ^ 2 ^ n := by
  obtain ⟨n, hn⟩ := exists_le_pow hb x
  exact ⟨n, hn.trans (pow_le_pow_right₀ hb.le (Nat.lt_two_pow_self).le)⟩

include hb in
theorem exists_lt_pow_pow (x : ℚ) : ∃ n : ℕ, x < b ^ 2 ^ n := by
  obtain ⟨n, hn⟩ := pow_unbounded_of_one_lt x hb
  exact ⟨n, hn.trans_le (pow_le_pow_right₀ hb.le (Nat.lt_two_pow_self).le)⟩

/-- The logarithm of `x`, rounded up. -/
def ceilLog (x : ℚ) : ℕ := Nat.find (exists_le_pow hb x)

/-- The logarithm of `x`, rounded down. -/
def floorLog (x : ℚ) : ℕ := Nat.find (pow_unbounded_of_one_lt x hb) - 1

/-- The binary logarithm of the logarithm of `x`, rounded up. -/
def ceilLogLog (hx : 1 < x) : ℤ :=
  if b < x then (Nat.find (exists_le_pow_pow hb x) : ℤ)
  else 1 - (Nat.find (exists_lt_pow_pow hx b) : ℤ)

/-! ### Powers -/

theorem ceilLog_le_iff : ceilLog hb x ≤ n ↔ x ≤ b ^ n := by
  constructor
  · intro h
    exact (Nat.find_spec (exists_le_pow hb x)).trans (pow_le_pow_right₀ hb.le h)
  · exact fun h => Nat.find_min' (exists_le_pow hb x) h

theorem le_floorLog_iff (hx : 1 ≤ x) : n ≤ floorLog hb x ↔ b ^ n ≤ x := by
  have hspec := Nat.find_spec (pow_unbounded_of_one_lt x hb)
  have hpos : Nat.find (pow_unbounded_of_one_lt x hb) ≠ 0 := by
    intro h0
    rw [h0, pow_zero] at hspec
    exact absurd hspec hx.not_gt
  constructor
  · intro h
    have hlt : n < Nat.find (pow_unbounded_of_one_lt x hb) := by
      rw [floorLog] at h
      omega
    exact not_lt.1 (Nat.find_min (pow_unbounded_of_one_lt x hb) hlt)
  · intro h
    have hlt : n < Nat.find (pow_unbounded_of_one_lt x hb) := by
      by_contra hle
      exact absurd (hspec.trans_le (pow_le_pow_right₀ hb.le (not_lt.1 hle))) h.not_gt
    exact Nat.le_sub_one_of_lt hlt

/-- The logarithm is between two numbers. -/
theorem ceilLog_eq_succ (hlt : b ^ n < x) (hle : x ≤ b ^ (n + 1)) : ceilLog hb x = n + 1 := by
  refine le_antisymm ((ceilLog_le_iff hb).2 hle) ?_
  by_contra h
  exact absurd ((ceilLog_le_iff hb).1 (Nat.lt_succ_iff.1 (not_le.1 h))) hlt.not_ge

theorem floorLog_eq (hx : 1 ≤ x) (hle : b ^ n ≤ x) (hlt : x < b ^ (n + 1)) :
    floorLog hb x = n := by
  refine le_antisymm ?_ ((le_floorLog_iff hb hx).2 hle)
  by_contra h
  exact absurd ((le_floorLog_iff hb hx).1 (not_le.1 h)) hlt.not_ge

/-- The binary logarithm of the logarithm is between two numbers. -/
theorem ceilLogLog_eq_succ (hx : 1 < x) (hlt : b ^ 2 ^ n < x) (hle : x ≤ b ^ 2 ^ (n + 1)) :
    ceilLogLog hb hx = (n + 1 : ℕ) := by
  have hbx : b < x := (le_self_pow₀ hb.le (pow_ne_zero n two_ne_zero)).trans_lt hlt
  rw [ceilLogLog, if_pos hbx]
  refine congrArg _ ((Nat.find_eq_iff _).2 ⟨hle, fun m hm => ?_⟩)
  exact not_le.2 ((pow_le_pow_right₀ hb.le
    (Nat.pow_le_pow_right (by norm_num) (Nat.lt_succ_iff.1 hm))).trans_lt hlt)

/-! ### Real logarithms -/

section Real

include hb

theorem one_lt_cast : (1 : ℝ) < b := by exact_mod_cast hb

theorem logb_le_natCast (hx : 0 < x) : Real.logb b x ≤ n ↔ x ≤ b ^ n := by
  have hx' : (0 : ℝ) < x := by exact_mod_cast hx
  rw [Real.logb_le_iff_le_rpow (one_lt_cast hb) hx', Real.rpow_natCast]
  exact_mod_cast Iff.rfl

theorem natCast_le_logb (hx : 0 < x) : (n : ℝ) ≤ Real.logb b x ↔ b ^ n ≤ x := by
  have hx' : (0 : ℝ) < x := by exact_mod_cast hx
  rw [Real.le_logb_iff_rpow_le (one_lt_cast hb) hx', Real.rpow_natCast]
  exact_mod_cast Iff.rfl

/-- **The logarithm, rounded up**, is that of the real numbers. -/
theorem ceilLog_eq_ceil (hx : 1 ≤ x) : (ceilLog hb x : ℤ) = ⌈Real.logb b x⌉ := by
  have hpos : 0 < x := zero_lt_one.trans_le hx
  have hnonneg : 0 ≤ ⌈Real.logb b x⌉ := by
    refine Int.ceil_nonneg (Real.logb_nonneg (one_lt_cast hb) ?_)
    exact_mod_cast hx
  obtain ⟨m, hm⟩ := Int.eq_ofNat_of_zero_le hnonneg
  rw [hm]
  refine congrArg _ (eq_of_forall_ge_iff fun n => ?_)
  have hle : m ≤ n ↔ ⌈Real.logb b x⌉ ≤ (n : ℤ) := by
    rw [hm]
    exact Int.ofNat_le.symm
  rw [ceilLog_le_iff, hle, Int.ceil_le, Int.cast_natCast, logb_le_natCast hb hpos]

/-- **The logarithm, rounded down**, likewise. -/
theorem floorLog_eq_floor (hx : 1 ≤ x) : (floorLog hb x : ℤ) = ⌊Real.logb b x⌋ := by
  have hpos : 0 < x := zero_lt_one.trans_le hx
  have hnonneg : 0 ≤ ⌊Real.logb b x⌋ := by
    refine Int.floor_nonneg.2 (Real.logb_nonneg (one_lt_cast hb) ?_)
    exact_mod_cast hx
  obtain ⟨m, hm⟩ := Int.eq_ofNat_of_zero_le hnonneg
  rw [hm]
  refine congrArg _ (eq_of_forall_le_iff fun n => ?_)
  have hle : n ≤ m ↔ (n : ℤ) ≤ ⌊Real.logb b x⌋ := by
    rw [hm]
    exact Int.ofNat_le.symm
  rw [le_floorLog_iff hb hx, hle, Int.le_floor, Int.cast_natCast, natCast_le_logb hb hpos]

theorem logb_logb_le_natCast (hx : 1 < x) :
    Real.logb 2 (Real.logb b x) ≤ n ↔ x ≤ b ^ 2 ^ n := by
  have hlog : 0 < Real.logb b x :=
    Real.logb_pos (one_lt_cast hb) (by exact_mod_cast hx)
  rw [Real.logb_le_iff_le_rpow one_lt_two hlog, Real.rpow_natCast,
    ← logb_le_natCast hb (zero_lt_one.trans hx)]
  norm_num

theorem logb_logb_le_neg (hx : 1 < x) :
    Real.logb 2 (Real.logb b x) ≤ -(n : ℝ) ↔ x ^ 2 ^ n ≤ b := by
  have hlog : 0 < Real.logb b x :=
    Real.logb_pos (one_lt_cast hb) (by exact_mod_cast hx)
  have hpow : (0 : ℝ) < 2 ^ n := by positivity
  have hx' : (0 : ℝ) < x := by exact_mod_cast zero_lt_one.trans hx
  rw [Real.logb_le_iff_le_rpow one_lt_two hlog, Real.rpow_neg zero_le_two, Real.rpow_natCast,
    le_inv_comm₀ hlog hpow, le_inv_comm₀ hpow hlog, ← one_div, le_div_iff₀ hpow, mul_comm]
  have hmul : (2 : ℝ) ^ n * Real.logb b x = Real.logb b (x ^ 2 ^ n) := by
    rw [Real.logb_pow]
    norm_num
  rw [hmul, Real.logb_le_iff_le_rpow (one_lt_cast hb) (by positivity), Real.rpow_one]
  exact_mod_cast Iff.rfl

/-- **The binary logarithm of the logarithm, rounded up**, likewise. -/
theorem ceilLogLog_eq_ceil (hx : 1 < x) :
    ceilLogLog hb hx = ⌈Real.logb 2 (Real.logb b x)⌉ := by
  have hlog : 0 < Real.logb b x :=
    Real.logb_pos (one_lt_cast hb) (by exact_mod_cast hx)
  rw [ceilLogLog]
  split_ifs with hbx
  · have hnonneg : 0 ≤ ⌈Real.logb 2 (Real.logb b x)⌉ := by
      by_contra hneg
      have hle : Real.logb 2 (Real.logb b x) ≤ -((0 : ℕ) : ℝ) := by
        rw [Nat.cast_zero, neg_zero]
        exact_mod_cast Int.ceil_le.1 (not_le.1 hneg).le
      rw [logb_logb_le_neg hb hx, pow_zero, pow_one] at hle
      exact absurd hle hbx.not_ge
    obtain ⟨m, hm⟩ := Int.eq_ofNat_of_zero_le hnonneg
    rw [hm]
    refine congrArg _ (eq_of_forall_ge_iff fun n => ?_)
    have hle : m ≤ n ↔ ⌈Real.logb 2 (Real.logb b x)⌉ ≤ (n : ℤ) := by
      rw [hm]
      exact Int.ofNat_le.symm
    rw [hle, Int.ceil_le, Int.cast_natCast, logb_logb_le_natCast hb hx]
    constructor
    · intro h
      exact (Nat.find_spec (exists_le_pow_pow hb x)).trans
        (pow_le_pow_right₀ hb.le (Nat.pow_le_pow_right (by norm_num) h))
    · exact fun h => Nat.find_min' (exists_le_pow_pow hb x) h
  · have hspec := Nat.find_spec (exists_lt_pow_pow hx b)
    have hnonpos : 0 ≤ -⌈Real.logb 2 (Real.logb b x)⌉ := by
      refine Int.neg_nonneg_of_nonpos (Int.ceil_le.2 ?_)
      have hle := (logb_logb_le_neg (n := 0) hb hx).2 (by simpa using hbx)
      simpa using hle
    obtain ⟨m, hm⟩ := Int.eq_ofNat_of_zero_le hnonpos
    have hmax {n : ℕ} : n ≤ m ↔ n < Nat.find (exists_lt_pow_pow hx b) := by
      have hle : n ≤ m ↔ ⌈Real.logb 2 (Real.logb b x)⌉ ≤ -(n : ℤ) := by omega
      rw [hle, Int.ceil_le, Int.cast_neg, Int.cast_natCast, logb_logb_le_neg hb hx]
      constructor
      · intro h
        by_contra hge
        exact absurd (hspec.trans_le (pow_le_pow_right₀ hx.le
          (Nat.pow_le_pow_right (by norm_num) (not_lt.1 hge)))) h.not_gt
      · exact fun h => not_lt.1 (Nat.find_min (exists_lt_pow_pow hx b) h)
    have hlt : m < Nat.find (exists_lt_pow_pow hx b) := hmax.1 le_rfl
    have hge : ¬ m + 1 < Nat.find (exists_lt_pow_pow hx b) := fun h => by
      have := hmax.2 h
      omega
    omega

end Real

end RoundedLog
