import Mathlib.Data.List.TakeWhile
import Mathlib.Tactic.Linarith

/-!
# Decimal numbers in a text

Numbers as a program prints them, and the number that a text starts with. A number that is printed
over the start of a text may be read together with digits that were there before.

## Main definitions

* `Decimal.text`: an integer.
* `Decimal.fixed`: a number with a given number of decimals.
* `Decimal.readNat`: the number at the start of a text.
* `Decimal.overwrite`: a text written over the start of another.

## Main results

* `Decimal.readNat_eq_iff`: when a number is read back with a text behind it.
-/

namespace Decimal

/-- The digits of a number. -/
def digits (n : ℕ) : List Char := Nat.toDigits 10 n

/-- An integer. -/
def text : ℤ → List Char
  | .ofNat n => digits n
  | .negSucc n => '-' :: digits (n + 1)

/-- The number `z / 10 ^ k`, with `k` decimals. -/
def fixed (k : ℕ) (z : ℤ) : List Char :=
  let frac := digits (z.natAbs % 10 ^ k)
  (if z < 0 then ['-'] else []) ++ digits (z.natAbs / 10 ^ k) ++ '.' ::
    (List.replicate (k - frac.length) '0' ++ frac)

/-- The value of a list of digits. -/
def value (l : List Char) : ℕ := Nat.ofDigitChars 10 l 0

/-- The number that a text starts with, if it starts with a digit. -/
def readNat (l : List Char) : Option ℕ :=
  match l.takeWhile Char.isDigit with
  | [] => none
  | c :: cs => some (value (c :: cs))

/-- The text `l` after `new` was written over its start. -/
def overwrite (new l : List Char) : List Char := new ++ l.drop new.length

/-! ### Digits -/

section Digits

variable {l : List Char} {n : ℕ} {c : Char}

theorem digits_ne_nil : digits n ≠ [] := Nat.toDigits_ne_nil

theorem isDigit_of_mem_digits (hc : c ∈ digits n) : c.isDigit :=
  Nat.isDigit_of_mem_toDigits (by decide) (by decide) hc

theorem length_digits_pos : 0 < (digits n).length := Nat.length_toDigits_pos

/-- The lengths of numbers, also of those of 32, 16 and 8 bits. -/
theorem length_digits_le {k : ℕ} (hk : 0 < k) (hn : n < 10 ^ k) : (digits n).length ≤ k :=
  (Nat.length_toDigits_le_iff (by decide) hk).2 hn

theorem length_digits_uint32 (v : UInt32) : (digits v.toNat).length ≤ 10 :=
  length_digits_le (by decide) (v.toNat_lt.trans (by decide))

theorem length_digits_uint16 (v : UInt16) : (digits v.toNat).length ≤ 5 :=
  length_digits_le (by decide) (v.toNat_lt.trans (by decide))

theorem length_digits_uint8 (v : UInt8) : (digits v.toNat).length ≤ 3 :=
  length_digits_le (by decide) (v.toNat_lt.trans (by decide))

theorem value_digits : value (digits n) = n := Nat.ofDigitChars_ten_toDigits

/-- Digits behind a number multiply it. -/
theorem value_digits_append : value (digits n ++ l) = 10 ^ l.length * n + value l := by
  rw [value, Nat.ofDigitChars_append, ← value, value_digits,
    Nat.ofDigitChars_eq_ofDigitChars_zero, value]

theorem value_cons : value (c :: l) = 10 ^ l.length * (c.toNat - '0'.toNat) + value l := by
  rw [value, Nat.ofDigitChars_cons, Nat.mul_zero, Nat.zero_add,
    Nat.ofDigitChars_eq_ofDigitChars_zero, value]

theorem eq_zero_of_isDigit (hc : c.isDigit) (h : c.toNat - '0'.toNat = 0) : c = '0' := by
  have hle := (Char.isDigit_iff_toNat.1 hc).1
  exact Char.toNat_inj.1 (le_antisymm (Nat.le_of_sub_eq_zero h) hle)

/-- Only zeros have the value zero. -/
theorem value_eq_zero_iff (hl : ∀ c ∈ l, c.isDigit) : value l = 0 ↔ ∀ c ∈ l, c = '0' := by
  induction l with
  | nil => simp [value]
  | cons c l ih =>
    have hpow : 10 ^ l.length ≠ 0 := by positivity
    have hc : c.toNat - '0'.toNat = 0 ↔ c = '0' :=
      ⟨eq_zero_of_isDigit (hl c List.mem_cons_self), fun h => by rw [h, Nat.sub_self]⟩
    rw [value_cons, Nat.add_eq_zero_iff, mul_eq_zero, or_iff_right hpow, hc,
      ih fun c hc => hl c (List.mem_cons_of_mem _ hc), List.forall_mem_cons]

theorem length_text_pos (z : ℤ) : 0 < (text z).length := by
  cases z <;> simp [text, digits, Nat.length_toDigits_pos]

/-- Only the first character can be a sign. -/
theorem isDigit_of_mem_tail_text {z : ℤ} (hc : c ∈ (text z).tail) : c.isDigit := by
  cases z with
  | ofNat n => exact isDigit_of_mem_digits (List.mem_of_mem_tail hc)
  | negSucc n => exact isDigit_of_mem_digits hc

/-- A line break is no part of a number. -/
theorem newline_notMem_digits : '\n' ∉ digits n := fun h =>
  absurd (isDigit_of_mem_digits h) (by decide)

theorem newline_notMem_text (z : ℤ) : '\n' ∉ text z := by
  cases z with
  | ofNat n => exact newline_notMem_digits
  | negSucc n => exact List.not_mem_cons_of_ne_of_not_mem (by decide) newline_notMem_digits

theorem newline_notMem_fixed (k : ℕ) (z : ℤ) : '\n' ∉ fixed k z := by
  have hsign : '\n' ∉ if z < 0 then ['-'] else [] := by split_ifs <;> decide
  simp [fixed, newline_notMem_digits, hsign]

end Digits

/-! ### Reading a number back -/

section Read

variable {l : List Char} {n : ℕ}

theorem takeWhile_digits_append :
    (digits n ++ l).takeWhile Char.isDigit = digits n ++ l.takeWhile Char.isDigit :=
  List.takeWhile_append_of_pos fun _ hc => isDigit_of_mem_digits hc

/-- A character that is no digit ends a number. -/
theorem takeWhile_append_cons {r : List Char} {c : Char} (hc : c.isDigit = false) :
    (l ++ c :: r).takeWhile Char.isDigit = l.takeWhile Char.isDigit := by
  induction l with
  | nil => simp [hc]
  | cons d l ih => rw [List.cons_append, List.takeWhile_cons, List.takeWhile_cons, ih]

theorem readNat_append_cons {r : List Char} {c : Char} (hc : c.isDigit = false) :
    readNat (l ++ c :: r) = readNat l := by
  rw [readNat, readNat, takeWhile_append_cons hc]

theorem readNat_digits_append :
    readNat (digits n ++ l) = some (10 ^ (l.takeWhile Char.isDigit).length * n +
      value (l.takeWhile Char.isDigit)) := by
  rw [← value_digits_append, readNat, takeWhile_digits_append]
  cases h : digits n with
  | nil => exact absurd h digits_ne_nil
  | cons c cs => rfl

/-- A number is not read as a smaller one. -/
theorem le_of_readNat {m : ℕ} (h : readNat (digits n ++ l) = some m) : n ≤ m := by
  rw [readNat_digits_append] at h
  obtain rfl := Option.some.inj h
  have hpow : 0 < 10 ^ (l.takeWhile Char.isDigit).length := by positivity
  exact (Nat.le_mul_of_pos_left n hpow).trans (Nat.le_add_right _ _)

/-- **Reading back.** A number is read back if no digit follows it, or if it is zero and only zeros
follow it. -/
theorem readNat_eq_iff : readNat (digits n ++ l) = some n ↔
    l.takeWhile Char.isDigit = [] ∨ n = 0 ∧ ∀ c ∈ l.takeWhile Char.isDigit, c = '0' := by
  have hdigit : ∀ c ∈ l.takeWhile Char.isDigit, c.isDigit := fun c hc =>
    List.mem_takeWhile_imp hc
  rw [readNat_digits_append, Option.some_inj, ← value_eq_zero_iff hdigit]
  generalize l.takeWhile Char.isDigit = t
  cases t with
  | nil => simp [value]
  | cons c t =>
    have hpow : 1 ≤ 10 ^ t.length := Nat.one_le_pow _ _ (by decide)
    have hlen : 10 ^ (c :: t).length = 10 * 10 ^ t.length := by
      rw [List.length_cons, pow_succ, mul_comm]
    constructor
    · intro h
      refine .inr ?_
      rw [hlen] at h
      constructor
      · nlinarith
      · nlinarith
    · rintro (h | ⟨rfl, h⟩)
      · cases h
      · rw [h, Nat.mul_zero]

end Read

end Decimal
