import Mathlib.Data.Nat.ModEq
import Mathlib.Tactic.SplitIfs

/-!
# Counters that wrap

A counter that only grows is reported in `w` bits, possibly in units of `u`. Two reports determine
how much it has grown, as long as that is less than `2 ^ w` of the units; and one report determines
the counter, as long as the counter itself is.

## Main definitions

* `WrappedCounter.delta`: the growth, from the later report and the earlier one.

## Main results

* `WrappedCounter.delta_mod`: the growth is recovered.
* `WrappedCounter.units_sub_lt`: counted in units it is off by less than a unit.
* `WrappedCounter.report_iff`: what a single report is worth.
-/

namespace WrappedCounter

variable {w u x y a b : ℕ}

/-- The growth between two reports in `w` bits, the later one first. -/
def delta (w a b : ℕ) : ℕ := if a ≥ b then a - b else a + 2 ^ w - b

/-- **The growth is recovered**, at any values of the counter. -/
theorem delta_mod (hle : y ≤ x) (hlt : x - y < 2 ^ w) :
    delta w (x % 2 ^ w) (y % 2 ^ w) = x - y := by
  obtain ⟨d, rfl⟩ := Nat.exists_eq_add_of_le hle
  rw [Nat.add_sub_cancel_left] at hlt ⊢
  have hy : y % 2 ^ w < 2 ^ w := Nat.mod_lt _ (Nat.two_pow_pos w)
  have hadd : (y + d) % 2 ^ w =
      if 2 ^ w ≤ y % 2 ^ w + d % 2 ^ w then y % 2 ^ w + d % 2 ^ w - 2 ^ w
      else y % 2 ^ w + d % 2 ^ w := Nat.add_mod_eq_ite
  rw [Nat.mod_eq_of_lt hlt] at hadd
  rw [delta, hadd]
  split_ifs <;> omega

/-- No growth is reported exactly if the two reports are the same. -/
theorem delta_eq_zero_iff (hb : b < 2 ^ w) : delta w a b = 0 ↔ a = b := by
  rw [delta]
  split_ifs <;> omega

/-- **Counted in units**, the growth is off by less than a unit. -/
theorem units_sub_lt (hu : 0 < u) (hle : y ≤ x) :
    u * (x / u - y / u) < x - y + u ∧ x - y < u * (x / u - y / u) + u := by
  have hx := Nat.div_add_mod x u
  have hy := Nat.div_add_mod y u
  have hxu := Nat.mod_lt x hu
  have hyu := Nat.mod_lt y hu
  have hmono : u * (y / u) ≤ u * (x / u) := Nat.mul_le_mul_left u (Nat.div_le_div_right hle)
  rw [Nat.mul_sub]
  omega

/-- **A single report** of a counter in units of `u` is off by less than a unit exactly if the
counter is less than `2 ^ w` units. -/
theorem report_iff (hu : 0 < u) :
    (x / u % 2 ^ w * u ≤ x ∧ x < x / u % 2 ^ w * u + u) ↔ x < 2 ^ w * u := by
  have hx := Nat.div_add_mod' x u
  have hxu := Nat.mod_lt x hu
  rw [← Nat.div_lt_iff_lt_mul hu]
  constructor
  · rintro ⟨-, hlt⟩
    have hle : x / u ≤ x / u % 2 ^ w := by
      rw [← Nat.succ_mul] at hlt
      exact Nat.lt_succ_iff.1 ((Nat.div_lt_iff_lt_mul hu).2 hlt)
    exact hle.trans_lt (Nat.mod_lt _ (Nat.two_pow_pos w))
  · intro hlt
    rw [Nat.mod_eq_of_lt hlt]
    omega

end WrappedCounter
