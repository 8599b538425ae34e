import HpccSim.Lib.Double

/-!
# The floating-point numbers of Python

What a script does with floating-point numbers, as a structure of operations: those that raise an
exception have no result then. Two sets of numbers have these operations, the rational numbers,
which are exact, and the doubles, whose results are rounded, may be infinite and may be undefined.
What holds of a script for all numbers that meet the rules of `PyFloat.Lawful` holds for both.

## Main definitions

* `PyFloat`: the operations.
* `PyFloat.Lawful`: signs and orders are kept.
* `PyFloat.exact`, `PyFloat.double`: the rational numbers and the doubles.

## Main results

* `PyFloat.lawful_exact`, `PyFloat.lawful_double`: both meet the rules.
-/

/-- The operations on floating-point numbers. -/
structure PyFloat (F : Type) where
  /-- `float(i)`; an integer that is too great has an infinite one. -/
  ofInt : ℤ → F
  add : F → F → F
  sub : F → F → F
  mul : F → F → F
  /-- `/`; a division by zero raises an exception. -/
  div : F → F → Option F
  /-- `int(x)`; infinite and undefined numbers raise an exception. -/
  int : F → Option ℤ
  /-- `x <= y` -/
  le : F → F → Bool
  /-- `i > x` for an integer, which is not rounded. -/
  ltInt : F → ℤ → Bool
  /-- `1e-9` -/
  nano : F
  /-- The number that `%.9f` prints, in units of its last place, if it prints a number. -/
  fixed9 : F → Option ℤ

namespace PyFloat

variable {F : Type}

/-- `x == y`. -/
def eq (fl : PyFloat F) (x y : F) : Bool := fl.le x y && fl.le y x

/-- Products have the sign of their factors, integers that of the number they are cut from, and
roundings keep the order. -/
structure Lawful (fl : PyFloat F) : Prop where
  /-- A factor of a product that has an integer is a number. -/
  sign : ∀ x y, fl.int (fl.mul x y) ≠ none →
    fl.le (fl.ofInt 0) y = true ∨ fl.le y (fl.ofInt 0) = true
  mul_nonneg : ∀ x y, fl.int (fl.mul x y) ≠ none → fl.le (fl.ofInt 0) x = true →
    fl.le (fl.ofInt 0) y = true → fl.le (fl.ofInt 0) (fl.mul x y) = true
  mul_nonpos : ∀ x y, fl.int (fl.mul x y) ≠ none → fl.le (fl.ofInt 0) x = true →
    fl.le y (fl.ofInt 0) = true → fl.le (fl.mul x y) (fl.ofInt 0) = true
  int_nonneg : ∀ x i, fl.le (fl.ofInt 0) x = true → fl.int x = some i → 0 ≤ i
  int_nonpos : ∀ x i, fl.le x (fl.ofInt 0) = true → fl.int x = some i → i ≤ 0
  ltInt_mono : ∀ x i j, fl.ltInt x i = true → i ≤ j → fl.ltInt x j = true
  ofInt_mono : ∀ i j, i ≤ j → fl.le (fl.ofInt i) (fl.ofInt j) = true
  mul_nano_mono : ∀ x y, fl.le x y = true → fl.le (fl.mul x fl.nano) (fl.mul y fl.nano) = true
  fixed9_mono : ∀ x y i j, fl.le x y = true → fl.fixed9 x = some i → fl.fixed9 y = some j → i ≤ j

namespace Lawful

variable {fl : PyFloat F}

/-- Multiples of a number by numbers that are not negative have one sign. -/
theorem int_mul_cases (h : fl.Lawful) (y : F) :
    (∀ x i, fl.le (fl.ofInt 0) x = true → fl.int (fl.mul x y) = some i → 0 ≤ i) ∨
      ∀ x i, fl.le (fl.ofInt 0) x = true → fl.int (fl.mul x y) = some i → i ≤ 0 := by
  by_cases hy : fl.le (fl.ofInt 0) y = true
  · refine .inl fun x i hx hi => ?_
    have hne : fl.int (fl.mul x y) ≠ none := hi ▸ Option.some_ne_none i
    exact h.int_nonneg _ i (h.mul_nonneg x y hne hx hy) hi
  · refine .inr fun x i hx hi => ?_
    have hne : fl.int (fl.mul x y) ≠ none := hi ▸ Option.some_ne_none i
    have hy' := (h.sign x y hne).resolve_left hy
    exact h.int_nonpos _ i (h.mul_nonpos x y hne hx hy') hi

theorem fixed9_nano_mono (h : fl.Lawful) {i j k l : ℤ} (hij : i ≤ j)
    (hk : fl.fixed9 (fl.mul (fl.ofInt i) fl.nano) = some k)
    (hl : fl.fixed9 (fl.mul (fl.ofInt j) fl.nano) = some l) : k ≤ l :=
  h.fixed9_mono _ _ k l (h.mul_nano_mono _ _ (h.ofInt_mono i j hij)) hk hl

end Lawful

/-! ### Exact numbers -/

/-- A rational number without its fractional part. -/
def cut (v : ℚ) : ℤ := v.num.tdiv v.den

theorem cut_eq_floor {v : ℚ} (hv : 0 ≤ v) : cut v = ⌊v⌋ := by
  rw [cut, Rat.floor_def', Int.tdiv_eq_ediv_of_nonneg (Rat.num_nonneg.2 hv)]

theorem cut_nonneg {v : ℚ} (hv : 0 ≤ v) : 0 ≤ cut v := by
  rw [cut_eq_floor hv]
  exact Int.floor_nonneg.2 hv

theorem cut_nonpos {v : ℚ} (hv : v ≤ 0) : cut v ≤ 0 := by
  have hneg := cut_nonneg (neg_nonneg.2 hv)
  rw [cut, Rat.num_neg_eq_neg_num, Rat.den_neg_eq_den, Int.neg_tdiv] at hneg
  exact neg_nonneg.1 hneg

/-- The rational numbers. -/
def exact : PyFloat ℚ where
  ofInt i := i
  add x y := x + y
  sub x y := x - y
  mul x y := x * y
  div x y := if y = 0 then none else some (x / y)
  int x := some (cut x)
  le x y := x ≤ y
  ltInt x i := x < i
  nano := 1 / 1000000000
  fixed9 x := some (Double.nearest (x * 1000000000))

theorem lawful_exact : exact.Lawful where
  sign x y _ := by simpa [exact] using le_total 0 y
  mul_nonneg x y _ hx hy := by
    simp only [exact, Int.cast_zero, decide_eq_true_eq] at hx hy ⊢
    exact Rat.mul_nonneg hx hy
  mul_nonpos x y _ hx hy := by
    simp only [exact, Int.cast_zero, decide_eq_true_eq] at hx hy ⊢
    exact mul_nonpos_of_nonneg_of_nonpos hx hy
  int_nonneg x i hx hi := by
    simp only [exact, Int.cast_zero, decide_eq_true_eq, Option.some.injEq] at hx hi
    exact hi ▸ cut_nonneg hx
  int_nonpos x i hx hi := by
    simp only [exact, Int.cast_zero, decide_eq_true_eq, Option.some.injEq] at hx hi
    exact hi ▸ cut_nonpos hx
  ltInt_mono x i j hi hij := by
    simp only [exact, decide_eq_true_eq] at hi ⊢
    exact hi.trans_le (Int.cast_le.2 hij)
  ofInt_mono i j hij := by
    simp only [exact, decide_eq_true_eq]
    exact Int.cast_le.2 hij
  mul_nano_mono x y hxy := by
    simp only [exact, decide_eq_true_eq] at hxy ⊢
    exact mul_le_mul_of_nonneg_right hxy (by norm_num)
  fixed9_mono x y i j hxy hi hj := by
    simp only [exact, decide_eq_true_eq, Option.some.injEq] at hxy hi hj
    rw [← hi, ← hj]
    exact Double.nearest_mono (mul_le_mul_of_nonneg_right hxy (by norm_num))

/-! ### Doubles -/

open Double (num inf nan)

/-- The doubles. -/
def double : PyFloat Double where
  ofInt i := Double.ofRat i
  add := Double.add
  sub := Double.sub
  mul := Double.mul
  div x y := if y = num 0 then none else some (Double.div x y)
  int
    | num v => some (cut v)
    | inf _ | nan => none
  le := Double.le
  ltInt
    | num v, i => v < i
    | inf s, _ => s
    | nan, _ => false
  nano := Double.ofRat (1 / 1000000000)
  fixed9
    | num v => some (Double.nearest (v * 1000000000))
    | inf _ | nan => none

theorem double_ofInt_zero : double.ofInt 0 = num 0 := by
  have h : double.ofInt 0 = Double.ofRat ((0 : ℤ) : ℚ) := rfl
  rw [h, Int.cast_zero, Double.ofRat_zero]

/-- A product that has an integer is one of numbers. -/
theorem exists_num_of_int_mul {x y : Double} (h : double.int (double.mul x y) ≠ none) :
    ∃ a b, x = num a ∧ y = num b ∧ double.mul x y = Double.ofRat (a * b) := by
  cases x with
  | num a =>
    cases y with
    | num b => exact ⟨a, b, rfl, rfl, rfl⟩
    | inf s =>
      simp only [double, Double.mul] at h
      split_ifs at h <;> exact absurd rfl h
    | nan => exact absurd rfl h
  | inf s =>
    cases y with
    | num b =>
      simp only [double, Double.mul] at h
      split_ifs at h <;> exact absurd rfl h
    | inf | nan => exact absurd rfl h
  | nan => exact absurd rfl h

theorem exists_nano : ∃ v, double.nano = num v ∧ 0 < v := by
  have hv : (2 : ℚ) ^ (-1074 : ℤ) ≤ 1 / 1000000000 :=
    (zpow_le_zpow_right₀ one_le_two (by norm_num : (-1074 : ℤ) ≤ -30)).trans (by norm_num)
  refine ⟨_, Double.ofRat_eq (j := 0) (by norm_num) (by norm_num) (by norm_num) (by norm_num), ?_⟩
  have h := Double.le_rounded hv
  norm_num at h ⊢
  linarith

theorem lawful_double : double.Lawful where
  sign x y h := by
    rw [double_ofInt_zero]
    cases y with
    | num v => simpa [double, Double.le] using le_total 0 v
    | inf s => cases s <;> simp [double, Double.le]
    | nan => cases x <;> exact absurd rfl h
  mul_nonneg x y h hx hy := by
    obtain ⟨a, b, rfl, rfl, hmul⟩ := exists_num_of_int_mul h
    rw [double_ofInt_zero] at hx hy ⊢
    rw [hmul, ← Double.ofRat_zero]
    exact Double.ofRat_mono (mul_nonneg (of_decide_eq_true hx) (of_decide_eq_true hy))
  mul_nonpos x y h hx hy := by
    obtain ⟨a, b, rfl, rfl, hmul⟩ := exists_num_of_int_mul h
    rw [double_ofInt_zero] at hx hy ⊢
    rw [hmul, ← Double.ofRat_zero]
    exact Double.ofRat_mono
      (mul_nonpos_of_nonneg_of_nonpos (of_decide_eq_true hx) (of_decide_eq_true hy))
  int_nonneg x i hx hi := by
    rw [double_ofInt_zero] at hx
    cases x with
    | num v =>
      obtain rfl := Option.some.inj hi
      exact cut_nonneg (of_decide_eq_true hx)
    | inf | nan => cases hi
  int_nonpos x i hx hi := by
    rw [double_ofInt_zero] at hx
    cases x with
    | num v =>
      obtain rfl := Option.some.inj hi
      exact cut_nonpos (of_decide_eq_true hx)
    | inf | nan => cases hi
  ltInt_mono x i j hi hij := by
    cases x with
    | num v => exact decide_eq_true ((of_decide_eq_true hi).trans_le (Int.cast_le.2 hij))
    | inf | nan => exact hi
  ofInt_mono i j hij := Double.ofRat_mono (Int.cast_le.2 hij)
  mul_nano_mono x y hxy := by
    obtain ⟨v, hv, hpos⟩ := exists_nano
    have hinf (s : Bool) : Double.mul (inf s) (num v) = inf s := by
      simp [Double.mul, hpos.ne', hpos.not_gt]
    rw [hv]
    cases x with
    | num a =>
      cases y with
      | num b =>
        exact Double.ofRat_mono (mul_le_mul_of_nonneg_right (of_decide_eq_true hxy) hpos.le)
      | inf s =>
        have hs : s = false := by simpa [double, Double.le] using hxy
        show Double.le (Double.ofRat (a * v)) (Double.mul (inf s) (num v)) = true
        rw [hinf, hs]
        exact Double.ofRat_le_inf (a * v)
      | nan => cases hxy
    | inf s =>
      cases y with
      | num b =>
        have hs : s = true := by simpa [double, Double.le] using hxy
        show Double.le (Double.mul (inf s) (num v)) (Double.ofRat (b * v)) = true
        rw [hinf, hs]
        exact Double.inf_le_ofRat (b * v)
      | inf s' =>
        show Double.le (Double.mul (inf s) (num v)) (Double.mul (inf s') (num v)) = true
        rw [hinf, hinf]
        exact hxy
      | nan => cases hxy
    | nan => cases y <;> cases hxy
  fixed9_mono x y i j hxy hi hj := by
    cases x with
    | num v =>
      cases y with
      | num w =>
        obtain rfl := Option.some.inj hi
        obtain rfl := Option.some.inj hj
        exact Double.nearest_mono
          (mul_le_mul_of_nonneg_right (of_decide_eq_true hxy) (by norm_num))
      | inf | nan => cases hj
    | inf | nan => cases hi

end PyFloat
