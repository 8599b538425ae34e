import Mathlib.Data.Int.Log
import Mathlib.Data.Rat.Floor

/-!
# Doubles as rounded rational numbers

The doubles, of 53 bits each: a rational number, an infinity, or not a number. The result of an
operation is the exact one, rounded to the nearest multiple of the last place of the doubles of its
size, and infinite if that is too great. Zero has no sign.

## Main definitions

* `Double`, `Double.add`, `Double.mul`, `Double.div`: the doubles and their operations.
* `Double.lastPlace`, `Double.rounded`: the last place and the rounding.
* `Double.IsDouble`: the rational numbers that need not be rounded.
* `Double.Between`: a double is finite and within bounds.

## Main results

* `Double.rounded_of_isDouble`, `Double.monotone_rounded`: rounding keeps doubles and the order.
* `Double.le_rounded`, `Double.rounded_le`: it changes a number by a factor of at most `2`.
* `Double.rounded_add_of_le`: what is much smaller than a double is lost if it is added.
-/

/-- The doubles; `inf true` is negative. -/
inductive Double where
  | num (v : ℚ)
  | inf (neg : Bool)
  | nan
  deriving DecidableEq

namespace Double

/-! ### The nearest integer -/

/-- The integer next to a rational number; halves go to even integers. -/
def nearest (v : ℚ) : ℤ :=
  if v - ⌊v⌋ < 1 / 2 ∨ v - ⌊v⌋ = 1 / 2 ∧ ⌊v⌋ % 2 = 0 then ⌊v⌋ else ⌊v⌋ + 1

theorem nearest_mono {v w : ℚ} (h : v ≤ w) : nearest v ≤ nearest w := by
  have hfloor : ⌊v⌋ ≤ ⌊w⌋ := Int.floor_le_floor h
  rcases hfloor.lt_or_eq with hlt | heq
  · rw [nearest, nearest]
    split_ifs <;> omega
  · rw [nearest, nearest, ← heq]
    split_ifs with hv hw hw
    · exact le_rfl
    · exact Int.le_add_one le_rfl
    · refine absurd ?_ hv
      rcases hw with hw | ⟨hw, heven⟩
      · exact .inl (lt_of_le_of_lt (sub_le_sub_right h _) hw)
      · rcases (hw ▸ sub_le_sub_right h _ : v - ⌊v⌋ ≤ 1 / 2).lt_or_eq with hlt | hhalf
        · exact .inl hlt
        · exact .inr ⟨hhalf, heven⟩
    · exact le_rfl

theorem nearest_intCast (n : ℤ) : nearest n = n := by
  simp [nearest]

theorem nearest_neg (v : ℚ) : nearest (-v) = -nearest v := by
  obtain ⟨n, hn⟩ : ∃ n, n = ⌊v⌋ := ⟨_, rfl⟩
  have hle : (n : ℚ) ≤ v := hn ▸ Int.floor_le v
  have hlt : v < n + 1 := hn ▸ Int.lt_floor_add_one v
  rcases hle.eq_or_lt with heq | hne
  · rw [← heq, ← Int.cast_neg, nearest_intCast, nearest_intCast]
  · have hneg : ⌊-v⌋ = -n - 1 := by
      rw [Int.floor_eq_iff]
      push_cast
      constructor <;> linarith
    have hrest : -v - ((-n - 1 : ℤ) : ℚ) = 1 - (v - n) := by
      push_cast
      ring
    rw [nearest, nearest, hneg, ← hn, hrest]
    rcases lt_trichotomy (v - n) (1 / 2) with h | h | h
    · rw [if_neg (by rintro (h' | ⟨h', -⟩) <;> linarith), if_pos (.inl h)]
      omega
    · rw [h]
      norm_num
      split_ifs <;> omega
    · rw [if_pos (.inl (by linarith)), if_neg (by rintro (h' | ⟨h', -⟩) <;> linarith)]
      omega

/-! ### Rounding -/

/-- The exponent of the last place of the doubles of the size of `x`. -/
def lastPlace (x : ℚ) : ℤ := max (Int.log 2 |x| - 52) (-1074)

/-- The nearest double, were there no greatest one; in the middle, the one with an even digit. -/
def rounded (x : ℚ) : ℚ := nearest (x / 2 ^ lastPlace x) * 2 ^ lastPlace x

/-- `x` is a double, if there were no greatest one. -/
def IsDouble (x : ℚ) : Prop := ∃ (n : ℕ) (e : ℤ), n < 2 ^ 53 ∧ -1074 ≤ e ∧ x = n * 2 ^ e

section Rounding

variable {x y s : ℚ} {e : ℤ}

theorem two_zpow_pos (e : ℤ) : (0 : ℚ) < 2 ^ e := zpow_pos two_pos e

theorem isDouble_zero : IsDouble 0 := ⟨0, 0, by norm_num, by norm_num, by norm_num⟩

theorem isDouble_zpow (he : -1074 ≤ e) : IsDouble (2 ^ e) :=
  ⟨1, e, by norm_num, he, by norm_num⟩

theorem isDouble_natCast {n : ℕ} (hn : n < 2 ^ 53) : IsDouble n :=
  ⟨n, 0, hn, by norm_num, by norm_num⟩

theorem zpow_log_le (hx : 0 < x) : (2 : ℚ) ^ Int.log 2 x ≤ x := by
  exact_mod_cast Int.zpow_log_le_self one_lt_two hx

theorem lt_zpow_log (x : ℚ) : x < (2 : ℚ) ^ (Int.log 2 x + 1) := by
  exact_mod_cast Int.lt_zpow_succ_log_self one_lt_two x

theorem log_lt (hx : 0 < x) (h : x < 2 ^ e) : Int.log 2 x < e :=
  (Int.lt_zpow_iff_log_lt one_lt_two hx).1 (by exact_mod_cast h)

theorem le_log (hx : 0 < x) (h : 2 ^ e ≤ x) : e ≤ Int.log 2 x :=
  (Int.zpow_le_iff_le_log one_lt_two hx).1 (by exact_mod_cast h)

theorem lastPlace_of_nonneg (hx : 0 ≤ x) : lastPlace x = max (Int.log 2 x - 52) (-1074) := by
  rw [lastPlace, abs_of_nonneg hx]

theorem lastPlace_mono (hx : 0 < x) (hxy : x ≤ y) : lastPlace x ≤ lastPlace y := by
  rw [lastPlace_of_nonneg hx.le, lastPlace_of_nonneg (hx.le.trans hxy)]
  exact max_le_max (sub_le_sub_right (Int.log_mono_right hx hxy) _) le_rfl

/-- A double is a multiple of its last place. -/
theorem IsDouble.exists_nat (h : IsDouble x) : ∃ n : ℕ, x = n * 2 ^ lastPlace x := by
  obtain ⟨n, e, hn, he, rfl⟩ := h
  rcases Nat.eq_zero_or_pos n with rfl | hpos
  · exact ⟨0, by simp⟩
  · have hx : (0 : ℚ) < n * 2 ^ e := mul_pos (Nat.cast_pos.2 hpos) (two_zpow_pos e)
    have hlt : (n : ℚ) * 2 ^ e < 2 ^ (53 + e) := by
      rw [zpow_add₀ two_ne_zero]
      exact mul_lt_mul_of_pos_right (by exact_mod_cast hn) (two_zpow_pos e)
    have hlog := log_lt hx hlt
    have hle : lastPlace (n * 2 ^ e) ≤ e := by
      rw [lastPlace_of_nonneg hx.le]
      exact max_le (by omega) he
    refine ⟨n * 2 ^ (e - lastPlace (n * 2 ^ e)).toNat, ?_⟩
    have hsplit : (2 : ℚ) ^ e =
        2 ^ (e - lastPlace (n * 2 ^ e)).toNat * 2 ^ lastPlace (n * 2 ^ e) := by
      rw [← zpow_natCast, ← zpow_add₀ two_ne_zero, Int.toNat_of_nonneg (by omega), sub_add_cancel]
    push_cast
    rw [mul_assoc, ← hsplit]

/-- **A double is not rounded.** -/
theorem rounded_of_isDouble (h : IsDouble x) : rounded x = x := by
  obtain ⟨n, hn⟩ := h.exists_nat
  have hdiv : x / 2 ^ lastPlace x = (n : ℤ) := by
    rw [div_eq_iff (two_zpow_pos _).ne', Int.cast_natCast]
    exact hn
  rw [rounded, hdiv, nearest_intCast, Int.cast_natCast, ← hn]

/-- A number has at most `2 ^ 53` last places. -/
theorem div_lastPlace_le (hx : 0 ≤ x) : x / 2 ^ lastPlace x ≤ ((2 ^ 53 : ℤ) : ℚ) := by
  have hle : Int.log 2 x - 52 ≤ lastPlace x := by
    rw [lastPlace_of_nonneg hx]
    exact le_max_left _ _
  have hpow : (2 : ℚ) ^ (Int.log 2 x + 1) ≤ 2 ^ (53 + lastPlace x) :=
    zpow_le_zpow_right₀ one_le_two (by omega)
  rw [zpow_add₀ two_ne_zero 53] at hpow
  rw [div_le_iff₀ (two_zpow_pos _)]
  refine ((lt_zpow_log x).le.trans hpow).trans_eq ?_
  norm_num

theorem nearest_div_lastPlace_le (hx : 0 ≤ x) : nearest (x / 2 ^ lastPlace x) ≤ 2 ^ 53 :=
  (nearest_mono (div_lastPlace_le hx)).trans_eq (nearest_intCast _)

theorem nearest_div_lastPlace_nonneg (hx : 0 ≤ x) : 0 ≤ nearest (x / 2 ^ lastPlace x) := by
  have h := nearest_mono (div_nonneg hx (two_zpow_pos (lastPlace x)).le)
  rwa [← Int.cast_zero, nearest_intCast] at h

/-- **Rounding keeps the order.** -/
theorem rounded_mono (hx : 0 ≤ x) (hxy : x ≤ y) : rounded x ≤ rounded y := by
  rcases hx.eq_or_lt with rfl | hx
  · rw [rounded_of_isDouble isDouble_zero]
    have h := nearest_div_lastPlace_nonneg hxy
    exact mul_nonneg (by exact_mod_cast h) (two_zpow_pos _).le
  rcases (lastPlace_mono hx hxy).eq_or_lt with heq | hlt
  · rw [rounded, rounded, heq]
    refine mul_le_mul_of_nonneg_right ?_ (two_zpow_pos _).le
    exact_mod_cast nearest_mono (div_le_div_of_nonneg_right hxy (two_zpow_pos _).le)
  · -- the last place of `y` is greater, and a power of two is between the numbers
    have hy : 0 < y := hx.trans_le hxy
    have hmin : -1074 ≤ lastPlace x := le_max_right _ _
    have hlog : lastPlace y = Int.log 2 y - 52 := by
      rw [lastPlace_of_nonneg hy.le] at hlt ⊢
      omega
    have hydiv : ((2 ^ 52 : ℤ) : ℚ) ≤ y / 2 ^ lastPlace y := by
      rw [le_div_iff₀ (two_zpow_pos _), hlog]
      refine Eq.trans_le ?_ (zpow_log_le hy)
      rw [show Int.log 2 y = 52 + (Int.log 2 y - 52) by omega, zpow_add₀ two_ne_zero]
      norm_num
    have hxn : (nearest (x / 2 ^ lastPlace x) : ℚ) ≤ 2 ^ 53 := by
      exact_mod_cast nearest_div_lastPlace_le hx.le
    have hyn : (2 ^ 52 : ℚ) ≤ nearest (y / 2 ^ lastPlace y) := by
      exact_mod_cast (nearest_intCast _).symm.trans_le (nearest_mono hydiv)
    calc rounded x ≤ 2 ^ 53 * 2 ^ lastPlace x :=
          mul_le_mul_of_nonneg_right hxn (two_zpow_pos _).le
      _ = 2 ^ 52 * 2 ^ (1 + lastPlace x) := by
          rw [zpow_add₀ two_ne_zero]
          ring
      _ ≤ 2 ^ 52 * 2 ^ lastPlace y :=
          mul_le_mul_of_nonneg_left (zpow_le_zpow_right₀ one_le_two (by omega)) (by norm_num)
      _ ≤ rounded y := mul_le_mul_of_nonneg_right hyn (two_zpow_pos _).le

theorem rounded_neg (x : ℚ) : rounded (-x) = -rounded x := by
  rw [rounded, rounded, lastPlace, lastPlace, abs_neg, neg_div, nearest_neg, Int.cast_neg, neg_mul]

theorem rounded_nonneg (hx : 0 ≤ x) : 0 ≤ rounded x :=
  (rounded_of_isDouble isDouble_zero).symm.trans_le (rounded_mono le_rfl hx)

theorem monotone_rounded : Monotone rounded := by
  intro x y hxy
  rcases le_total 0 x with hx | hx
  · exact rounded_mono hx hxy
  · rcases le_total 0 y with hy | hy
    · have h := rounded_nonneg (neg_nonneg.2 hx)
      rw [rounded_neg] at h
      exact (neg_nonneg.1 h).trans (rounded_nonneg hy)
    · have h := rounded_mono (neg_nonneg.2 hy) (neg_le_neg hxy)
      rw [rounded_neg, rounded_neg] at h
      exact neg_le_neg_iff.1 h

/-- **Integers of up to 53 bits are not rounded.** -/
theorem rounded_intCast {z : ℤ} (hz : |z| ≤ 2 ^ 53) : rounded z = z := by
  have hnat {n : ℕ} (hn : n ≤ 2 ^ 53) : rounded n = n := by
    rcases hn.eq_or_lt with rfl | hlt
    · have h := rounded_of_isDouble (isDouble_zpow (e := 53) (by norm_num))
      exact_mod_cast h
    · exact rounded_of_isDouble (isDouble_natCast hlt)
  obtain ⟨n, rfl | rfl⟩ := z.eq_nat_or_neg
  · rw [Nat.abs_cast] at hz
    exact_mod_cast hnat (by exact_mod_cast hz)
  · rw [abs_neg, Nat.abs_cast] at hz
    rw [Int.cast_neg, Int.cast_natCast, rounded_neg, hnat (by exact_mod_cast hz)]

theorem rounded_le_of_isDouble (hy : IsDouble y) (hx : 0 ≤ x) (hxy : x ≤ y) : rounded x ≤ y :=
  (rounded_mono hx hxy).trans_eq (rounded_of_isDouble hy)

theorem le_rounded_of_isDouble (hx : IsDouble x) (h0 : 0 ≤ x) (hxy : x ≤ y) : x ≤ rounded y :=
  (rounded_of_isDouble hx).symm.trans_le (rounded_mono h0 hxy)

/-- **Rounding** at most doubles a number, -/
theorem rounded_le (hx : 2 ^ (-1074 : ℤ) ≤ x) : rounded x ≤ 2 * x := by
  have hpos : 0 < x := (two_zpow_pos _).trans_le hx
  have hlog := le_log hpos hx
  calc rounded x ≤ 2 ^ (Int.log 2 x + 1) :=
        rounded_le_of_isDouble (isDouble_zpow (by omega)) hpos.le (lt_zpow_log x).le
    _ = 2 * 2 ^ Int.log 2 x := by
        rw [zpow_add_one₀ two_ne_zero, mul_comm]
    _ ≤ 2 * x := mul_le_mul_of_nonneg_left (zpow_log_le hpos) two_pos.le

/-- and at most halves it. -/
theorem le_rounded (hx : 2 ^ (-1074 : ℤ) ≤ x) : x / 2 ≤ rounded x := by
  have hpos : 0 < x := (two_zpow_pos _).trans_le hx
  have hlog := le_log hpos hx
  calc x / 2 ≤ 2 ^ (Int.log 2 x + 1) / 2 :=
        div_le_div_of_nonneg_right (lt_zpow_log x).le two_pos.le
    _ = 2 ^ Int.log 2 x := by
        rw [zpow_add_one₀ two_ne_zero, mul_div_cancel_right₀ _ two_ne_zero]
    _ ≤ rounded x :=
        le_rounded_of_isDouble (isDouble_zpow hlog) (two_zpow_pos _).le (zpow_log_le hpos)

/-- A multiple of a rounded number by a power of two is a double, if its last place is. -/
theorem isDouble_rounded_mul_zpow (hx : 0 ≤ x) (he : -1074 ≤ lastPlace x + e) :
    IsDouble (rounded x * 2 ^ e) := by
  rcases hx.eq_or_lt with rfl | hpos
  · rw [rounded_of_isDouble isDouble_zero, zero_mul]
    exact isDouble_zero
  have hn := nearest_div_lastPlace_le hx
  have hn0 := nearest_div_lastPlace_nonneg hx
  have hcast : ((nearest (x / 2 ^ lastPlace x)).toNat : ℚ) = nearest (x / 2 ^ lastPlace x) := by
    exact_mod_cast Int.toNat_of_nonneg hn0
  rcases hn.eq_or_lt with heq | hlt
  · refine ⟨1, 53 + (lastPlace x + e), by norm_num, by omega, ?_⟩
    rw [rounded, heq, mul_assoc, ← zpow_add₀ two_ne_zero, zpow_add₀ two_ne_zero 53]
    norm_num
  · refine ⟨(nearest (x / 2 ^ lastPlace x)).toNat, lastPlace x + e, by omega, he, ?_⟩
    rw [hcast, rounded, mul_assoc, ← zpow_add₀ two_ne_zero]

/-- **What is much smaller than a double is lost** if it is added. -/
theorem rounded_add_of_le (hx : IsDouble x) (hnormal : 2 ^ (-1022 : ℤ) ≤ x) (hs : 0 ≤ s)
    (hsx : s * 2 ^ 54 ≤ x) : rounded (x + s) = x := by
  have hpos : 0 < x := (two_zpow_pos _).trans_le hnormal
  obtain ⟨n, hn⟩ := hx.exists_nat
  have hlog := le_log hpos hnormal
  have hplace : lastPlace x = Int.log 2 x - 52 := by
    rw [lastPlace_of_nonneg hpos.le]
    exact max_eq_left (by omega)
  obtain ⟨p, hp⟩ : ∃ p : ℚ, p = 2 ^ lastPlace x := ⟨_, rfl⟩
  have hp0 : 0 < p := hp ▸ two_zpow_pos _
  have htop : (2 : ℚ) ^ (Int.log 2 x + 1) = 2 ^ 53 * p := by
    rw [hp, hplace, ← zpow_natCast, ← zpow_add₀ two_ne_zero]
    congr 1
    push_cast
    omega
  rw [← hp] at hn
  have hlt := lt_zpow_log x
  rw [htop] at hlt
  -- the next multiple of the last place is at most the next power of two
  have hn1 : (n : ℚ) + 1 ≤ 2 ^ 53 := by
    have h : (n : ℚ) < 2 ^ 53 := by
      rw [hn] at hlt
      exact lt_of_mul_lt_mul_right hlt hp0.le
    exact_mod_cast h
  have hsmall : s < p / 2 := by linarith
  have hsum : x + s < 2 ^ (Int.log 2 x + 1) := by
    rw [htop, hn]
    have h := mul_le_mul_of_nonneg_right hn1 hp0.le
    linarith
  have hsame : lastPlace (x + s) = lastPlace x := by
    have hle := Int.log_mono_right (b := 2) hpos (le_add_of_nonneg_right hs)
    have hge := log_lt (hpos.trans_le (le_add_of_nonneg_right hs)) hsum
    rw [lastPlace_of_nonneg hpos.le, lastPlace_of_nonneg (add_nonneg hpos.le hs)]
    omega
  have hnear : nearest ((x + s) / p) = n := by
    have hdiv : (x + s) / p = (n : ℚ) + s / p := by
      rw [hn, add_div, mul_div_cancel_right₀ _ hp0.ne']
    have hlt1 : s / p < 1 / 2 := by
      rw [div_lt_iff₀ hp0]
      linarith
    have hfloor : ⌊(x + s) / p⌋ = n := by
      have hzero : ⌊s / p⌋ = 0 := Int.floor_eq_zero_iff.2 ⟨by positivity, by linarith⟩
      rw [hdiv, Int.floor_natCast_add, hzero, add_zero]
    have hrest : (x + s) / p - (n : ℤ) < 1 / 2 := by
      rwa [hdiv, Int.cast_natCast, add_sub_cancel_left]
    rw [nearest, hfloor, if_pos (.inl hrest)]
  rw [rounded, hsame, ← hp, hnear, Int.cast_natCast, hn]

end Rounding

/-! ### Operations -/

/-- The double for the exact result `x`. -/
def ofRat (x : ℚ) : Double :=
  if |rounded x| < 2 ^ 1024 then num (rounded x) else inf (decide (x < 0))

/-- `double(n)` -/
def ofNat (n : ℕ) : Double := ofRat n

def neg : Double → Double
  | num x => num (-x)
  | inf s => inf (!s)
  | nan => nan

def add : Double → Double → Double
  | num x, num y => ofRat (x + y)
  | nan, _ | _, nan => nan
  | inf s, inf s' => if s = s' then inf s else nan
  | inf s, num _ | num _, inf s => inf s

def sub (x y : Double) : Double := add x (neg y)

def mul : Double → Double → Double
  | num x, num y => ofRat (x * y)
  | nan, _ | _, nan => nan
  | inf s, inf s' => inf (s != s')
  | inf s, num y | num y, inf s => if y = 0 then nan else inf (s != decide (y < 0))

def div : Double → Double → Double
  | num x, num y =>
    if y ≠ 0 then ofRat (x / y) else if x = 0 then nan else inf (decide (x < 0))
  | nan, _ | _, nan => nan
  | inf _, inf _ => nan
  | inf s, num y => inf (s != decide (y < 0))
  | num _, inf _ => num 0

/-- `x <= y` -/
def le : Double → Double → Bool
  | num x, num y => x ≤ y
  | nan, _ | _, nan => false
  | inf s, inf s' => s || !s'
  | inf s, num _ => s
  | num _, inf s => !s

/-- `x < y` -/
def lt : Double → Double → Bool
  | num x, num y => x < y
  | nan, _ | _, nan => false
  | inf s, inf s' => s && !s'
  | inf s, num _ => s
  | num _, inf s => !s

/-- `x >= 1` -/
def geOne : Double → Bool
  | num x => 1 ≤ x
  | inf s => !s
  | nan => false

section Order

variable {x y : ℚ}

theorem rounded_zero : rounded 0 = 0 := rounded_of_isDouble isDouble_zero

theorem ofRat_zero : ofRat 0 = num 0 := by
  rw [ofRat, rounded_zero, abs_zero]
  exact if_pos (by positivity)

/-- The result of an operation is a number, or infinite. -/
theorem ofRat_cases (x : ℚ) : (ofRat x = num (rounded x) ∧ |rounded x| < 2 ^ 1024) ∨
    (ofRat x = inf false ∧ 2 ^ 1024 ≤ rounded x) ∨
    (ofRat x = inf true ∧ rounded x ≤ -2 ^ 1024) := by
  rw [ofRat]
  split_ifs with h
  · exact .inl ⟨rfl, h⟩
  rw [not_lt, le_abs] at h
  rcases lt_or_ge x 0 with hx | hx
  · have hneg : rounded x ≤ 0 := (monotone_rounded hx.le).trans_eq rounded_zero
    have hpos : (0 : ℚ) < 2 ^ 1024 := by positivity
    refine .inr (.inr ⟨by rw [decide_eq_true hx], ?_⟩)
    rcases h with h | h
    · exact absurd (hpos.trans_le h) hneg.not_gt
    · exact le_neg.1 h
  · have hnonneg := rounded_nonneg hx
    have hpos : (0 : ℚ) < 2 ^ 1024 := by positivity
    refine .inr (.inl ⟨by rw [decide_eq_false hx.not_gt], ?_⟩)
    rcases h with h | h
    · exact h
    · exact absurd (hpos.trans_le h) (neg_nonpos.2 hnonneg).not_gt

/-- **Operations keep the order** of their exact results. -/
theorem ofRat_mono (hxy : x ≤ y) : le (ofRat x) (ofRat y) = true := by
  have hr := monotone_rounded hxy
  rcases ofRat_cases x with ⟨hx, hx'⟩ | ⟨hx, hx'⟩ | ⟨hx, -⟩ <;>
    rcases ofRat_cases y with ⟨hy, hy'⟩ | ⟨hy, -⟩ | ⟨hy, hy'⟩ <;> rw [hx, hy]
  · exact decide_eq_true hr
  · rfl
  · exact absurd (neg_lt_of_abs_lt hx') (hr.trans hy').not_gt
  · exact absurd ((le_abs_self _).trans_lt hy') (hx'.trans hr).not_gt
  · rfl
  · have hpos : (0 : ℚ) < 2 ^ 1024 := by positivity
    exact absurd hx' ((hr.trans hy').trans_lt (neg_lt_self hpos)).not_ge
  · rfl
  · rfl
  · rfl

theorem ofRat_le_inf (x : ℚ) : le (ofRat x) (inf false) = true := by
  rcases ofRat_cases x with ⟨hx, -⟩ | ⟨hx, -⟩ | ⟨hx, -⟩ <;> rw [hx] <;> rfl

theorem inf_le_ofRat (x : ℚ) : le (inf true) (ofRat x) = true := by
  rcases ofRat_cases x with ⟨hx, -⟩ | ⟨hx, -⟩ | ⟨hx, -⟩ <;> rw [hx] <;> rfl

end Order

/-- The value of a double, if it is finite. -/
def value : Double → ℚ
  | num x => x
  | inf _ | nan => 0

/-- The double is finite, and not below `n * 2 ^ i` nor above `2 ^ j`. With `n = 0` there is no
lower bound. -/
def Within (n : ℕ) (i j : ℤ) (d : Double) : Prop := ∃ v, d = num v ∧ n * 2 ^ i ≤ v ∧ v ≤ 2 ^ j

section Within

variable {x : ℚ} {d d' : Double} {m n n' : ℕ} {i i' j j' : ℤ}

theorem mul_zpow_nonneg (n : ℕ) (i : ℤ) : (0 : ℚ) ≤ n * 2 ^ i :=
  mul_nonneg n.cast_nonneg (two_zpow_pos i).le

/-- Below a power of two that is a double, the result is finite. -/
theorem ofRat_eq (hx : 0 ≤ x) (hj : -1074 ≤ j) (htop : j < 1024) (hxj : x ≤ 2 ^ j) :
    ofRat x = num (rounded x) := by
  have hhigh : rounded x ≤ 2 ^ j := rounded_le_of_isDouble (isDouble_zpow hj) hx hxj
  have hmax : (2 : ℚ) ^ j < 2 ^ 1024 := by
    rw [← zpow_natCast]
    exact zpow_lt_zpow_right₀ one_lt_two htop
  refine if_pos ?_
  rw [abs_of_nonneg (rounded_nonneg hx)]
  exact hhigh.trans_lt hmax

theorem within_ofRat (hn : n < 2 ^ 53) (hi : -1074 ≤ i) (hj : -1074 ≤ j) (htop : j < 1024)
    (hx : n * 2 ^ i ≤ x) (hxj : x ≤ 2 ^ j) : Within n i j (ofRat x) := by
  have h0 := mul_zpow_nonneg n i
  have hlow : n * 2 ^ i ≤ rounded x := le_rounded_of_isDouble ⟨n, i, hn, hi, rfl⟩ h0 hx
  have hhigh : rounded x ≤ 2 ^ j := rounded_le_of_isDouble (isDouble_zpow hj) (h0.trans hx) hxj
  exact ⟨rounded x, ofRat_eq (h0.trans hx) hj htop hxj, hlow, hhigh⟩

theorem Within.mono (h : Within n i j d) (hn : n' ≤ n) (hi : i' ≤ i) (hj : j ≤ j') :
    Within n' i' j' d := by
  obtain ⟨v, hv, hlow, hhigh⟩ := h
  refine ⟨v, hv, le_trans ?_ hlow, hhigh.trans (zpow_le_zpow_right₀ one_le_two hj)⟩
  exact mul_le_mul (Nat.cast_le.2 hn) (zpow_le_zpow_right₀ one_le_two hi) (two_zpow_pos _).le
    n.cast_nonneg

/-- A natural number is at least `1`, unless it is `0`. -/
theorem within_ofNat (hj : 0 ≤ j) (htop : j < 1024) (hm : (m : ℚ) ≤ 2 ^ j) :
    Within (min m 1) 0 j (ofNat m) := by
  refine within_ofRat (by omega) (by norm_num) (by omega) htop ?_ hm
  rw [zpow_zero, mul_one]
  exact_mod_cast min_le_left m 1

theorem Within.mul (h : Within n i j d) (h' : Within 1 i' j' d') (hn : n < 2 ^ 53)
    (hi : -1074 ≤ i + i') (hj : -1074 ≤ j + j') (htop : j + j' < 1024) :
    Within n (i + i') (j + j') (mul d d') := by
  obtain ⟨v, rfl, hlow, hhigh⟩ := h
  obtain ⟨w, rfl, hlow', hhigh'⟩ := h'
  have h0 := mul_zpow_nonneg n i
  rw [Nat.cast_one, one_mul] at hlow'
  refine within_ofRat hn hi hj htop ?_ ?_
  · rw [zpow_add₀ two_ne_zero, ← mul_assoc]
    exact mul_le_mul hlow hlow' (two_zpow_pos _).le (h0.trans hlow)
  · rw [zpow_add₀ two_ne_zero]
    exact mul_le_mul hhigh hhigh' ((two_zpow_pos _).le.trans hlow') (two_zpow_pos _).le

theorem Within.div (h : Within n i j d) (h' : Within 1 i' j' d') (hn : n < 2 ^ 53)
    (hi : -1074 ≤ i - j') (hj : -1074 ≤ j - i') (htop : j - i' < 1024) :
    Within n (i - j') (j - i') (div d d') := by
  obtain ⟨v, rfl, hlow, hhigh⟩ := h
  obtain ⟨w, rfl, hlow', hhigh'⟩ := h'
  have h0 := mul_zpow_nonneg n i
  rw [Nat.cast_one, one_mul] at hlow'
  have hw : 0 < w := (two_zpow_pos _).trans_le hlow'
  have hdiv : Double.div (num v) (num w) = ofRat (v / w) := if_pos hw.ne'
  rw [hdiv]
  refine within_ofRat hn hi hj htop ?_ ?_
  · rw [zpow_sub₀ two_ne_zero, ← mul_div_assoc]
    exact div_le_div₀ (h0.trans hlow) hlow hw hhigh'
  · rw [zpow_sub₀ two_ne_zero]
    exact div_le_div₀ (two_zpow_pos _).le hhigh (two_zpow_pos _) hlow'

theorem Within.add (h : Within n i j d) (h' : Within n' i j d') (hn : n < 2 ^ 53)
    (hn' : n' < 2 ^ 53) (hi : -1074 ≤ i) (hj : -1074 ≤ j + 1) (htop : j + 1 < 1024) :
    Within (max n n') i (j + 1) (add d d') := by
  obtain ⟨v, rfl, hlow, hhigh⟩ := h
  obtain ⟨w, rfl, hlow', hhigh'⟩ := h'
  have hv := (mul_zpow_nonneg n i).trans hlow
  have hw := (mul_zpow_nonneg n' i).trans hlow'
  refine within_ofRat (max_lt hn hn') hi hj htop ?_ ?_
  · rcases le_total n n' with hle | hle
    · rw [max_eq_right hle]
      linarith
    · rw [max_eq_left hle]
      linarith
  · rw [zpow_add_one₀ two_ne_zero]
    linarith

theorem ofNat_zero : ofNat 0 = num 0 := by
  rw [ofNat, Nat.cast_zero, ofRat_zero]

theorem num_zero_mul (h : Within n i j d) : mul (num 0) d = num 0 := by
  obtain ⟨v, rfl, -, -⟩ := h
  rw [mul, zero_mul, ofRat_zero]

theorem num_zero_div (h : Within 1 i j d) : div (num 0) d = num 0 := by
  obtain ⟨v, rfl, hlow, -⟩ := h
  rw [Nat.cast_one, one_mul] at hlow
  have hdiv : div (num 0) (num v) = ofRat (0 / v) :=
    if_pos ((two_zpow_pos i).trans_le hlow).ne'
  rw [hdiv, zero_div, ofRat_zero]

theorem Within.ne_zero (h : Within 1 i j d) : d ≠ num 0 := by
  obtain ⟨v, rfl, hlow, -⟩ := h
  rw [Nat.cast_one, one_mul] at hlow
  intro h0
  cases h0
  exact (two_zpow_pos i).not_ge hlow

end Within

end Double
