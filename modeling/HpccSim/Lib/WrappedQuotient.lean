import Mathlib.Algebra.Order.Ring.Nat
import Mathlib.Data.Nat.ModEq

/-!
# Quotients of wrapped numerators

A quotient is computed in machine arithmetic: the numerator is reduced modulo `m` before it is
divided. As long as the divisor is not larger than `m`, the reduction never goes unnoticed: the
quotient is the exact one if and only if the numerator did not wrap.

## Main results

* `WrappedQuotient.div_lt_div`: what is lost in the numerator is seen in the quotient.
* `WrappedQuotient.max_mod_div_eq_iff`: the quotient, rounded up to `1`, is exact exactly if the
  numerator fits.
* `WrappedQuotient.mod_mul_mod_div_eq_iff`: the same for a quotient whose numerator has a factor
  that is reduced before.
-/

namespace WrappedQuotient

variable {a k m d n p x : ℕ}

/-- If the numerator is too small by at least the divisor, then so is the quotient by `1`. -/
theorem div_lt_div (hd : 0 < d) (h : n + d ≤ p) : n / d < p / d := by
  have hle := Nat.div_le_div_right (c := d) h
  rw [Nat.add_div_right _ hd] at hle
  exact hle

/-- A number that wraps loses at least the modulus. -/
theorem mod_add_le (h : m ≤ p) : p % m + m ≤ p := by
  rcases Nat.eq_zero_or_pos m with rfl | hm
  · exact (Nat.mod_zero p).le
  · have hsub : (p - m) % m = p % m := (Nat.mod_eq_sub_mod h).symm
    have hle := Nat.mod_le (p - m) m
    omega

/-- **The quotient is exact** exactly if the numerator fits, also if a quotient `0` is replaced by
`1`. -/
theorem max_mod_div_eq_iff (hd : 0 < d) (hdm : 2 * d ≤ m) :
    max 1 (p % m / d) = max 1 (p / d) ↔ p < m := by
  constructor
  · intro h
    by_contra! hm
    have hadd := mod_add_le hm
    have hlt := div_lt_div hd (by omega : p % m + d ≤ p)
    have htwo : 2 ≤ p / d := (Nat.le_div_iff_mul_le hd).2 (hdm.trans hm)
    omega
  · intro h
    rw [Nat.mod_eq_of_lt h]

/-- A factor that wraps makes the product wrap further. -/
theorem mod_mul_mod_add_le (hm : m ≤ a * k) (h : m ≤ x * k) : x % a * k % m + m ≤ x * k := by
  rcases Nat.lt_or_ge x a with hx | hx
  · rw [Nat.mod_eq_of_lt hx]
    exact mod_add_le h
  · have hmul : (x % a + a) * k ≤ x * k := Nat.mul_le_mul_right k (mod_add_le hx)
    rw [Nat.add_mul] at hmul
    have hle := Nat.mod_le (x % a * k) m
    omega

/-- **The quotient is exact** exactly if the product fits: reducing a factor beforehand modulo `a`
changes nothing to that, provided that `a` itself is too large a factor. -/
theorem mod_mul_mod_div_eq_iff (hd : 0 < d) (hdm : d ≤ m) (hm : m ≤ a * k) :
    x % a * k % m / d = x * k / d ↔ x * k < m := by
  constructor
  · intro h
    by_contra! hx
    have hadd := mod_mul_mod_add_le hm hx
    exact (div_lt_div hd (by omega : x % a * k % m + d ≤ x * k)).ne h
  · intro h
    have hx : x < a := Nat.lt_of_mul_lt_mul_right (h.trans_le hm)
    rw [Nat.mod_eq_of_lt hx, Nat.mod_eq_of_lt h]

end WrappedQuotient
