import Mathlib.Data.Nat.Bitwise
import Mathlib.Algebra.BigOperators.Group.List.Basic

/-!
# Bit fields

A word that is cut into fields of fixed widths, the lowest bits first. Storing values in the fields
and reading the fields back are mutually inverse; in particular fields stored side by side determine
the word and are determined by it.

## Main definitions

* `BitField.pack`: the word with the given fields.
* `BitField.unpack`: the fields of a word.
* `BitField.get`, `BitField.set`: one field of a word.

## Main results

* `BitField.unpack_pack`: what was stored is read back.
* `BitField.pack_inj`: fields that fit are determined by the word.
* `BitField.get_set_self`, `BitField.get_set_of_ne`: a field that is stored is read back, and the
  others stay.
* `BitField.or_shiftLeft`: a word assembled by shifts is packed.
-/

namespace BitField

/-- The word whose fields, of the widths `ws`, hold the values `vs` cut to their width. -/
def pack : List ℕ → List ℕ → ℕ
  | w :: ws, v :: vs => v % 2 ^ w + 2 ^ w * pack ws vs
  | _, _ => 0

/-- The fields of the widths `ws` of a word. -/
def unpack : List ℕ → ℕ → List ℕ
  | [], _ => []
  | w :: ws, n => n % 2 ^ w :: unpack ws (n / 2 ^ w)

/-- The values fit in fields of the widths `ws`. -/
def Fits : List ℕ → List ℕ → Prop := List.Forall₂ fun w v => v < 2 ^ w

variable {ws vs us : List ℕ}

theorem fits_unpack (ws : List ℕ) (n : ℕ) : Fits ws (unpack ws n) := by
  induction ws generalizing n with
  | nil => exact .nil
  | cons w ws ih => exact .cons (Nat.mod_lt _ (Nat.two_pow_pos w)) (ih _)

/-- A word takes as many bits as its fields together. -/
theorem pack_lt (ws vs : List ℕ) : pack ws vs < 2 ^ ws.sum := by
  induction ws generalizing vs with
  | nil => simp [pack]
  | cons w ws ih =>
    cases vs with
    | nil => exact Nat.two_pow_pos _
    | cons v vs =>
      have hmod : v % 2 ^ w < 2 ^ w := Nat.mod_lt _ (Nat.two_pow_pos w)
      have hle : 2 ^ w * (pack ws vs + 1) ≤ 2 ^ w * 2 ^ ws.sum := Nat.mul_le_mul_left _ (ih vs)
      rw [Nat.mul_succ] at hle
      rw [pack, List.sum_cons, Nat.pow_add]
      omega

/-- **What was stored is read back.** -/
theorem unpack_pack (h : Fits ws vs) : unpack ws (pack ws vs) = vs := by
  induction h with
  | nil => rfl
  | cons hlt _ ih =>
    rw [pack, unpack, Nat.add_mul_mod_self_left, Nat.mod_mod, Nat.mod_eq_of_lt hlt,
      Nat.add_mul_div_left _ _ (Nat.two_pow_pos _), Nat.div_eq_of_lt hlt, Nat.zero_add, ih]

/-- **Fields that fit are determined by the word.** -/
theorem pack_inj (h : Fits ws vs) (h' : Fits ws us) : pack ws vs = pack ws us ↔ vs = us := by
  constructor
  · intro heq
    rw [← unpack_pack h, heq, unpack_pack h']
  · exact congrArg _

/-! ### Single fields -/

/-- The field `i` of a word. -/
def get (ws : List ℕ) (i n : ℕ) : ℕ := (unpack ws n).getD i 0

/-- Store `v` in the field `i` of a word. -/
def set (ws : List ℕ) (i v n : ℕ) : ℕ := pack ws ((unpack ws n).set i v)

@[simp] theorem length_unpack (ws : List ℕ) (n : ℕ) : (unpack ws n).length = ws.length := by
  induction ws generalizing n with
  | nil => rfl
  | cons w ws ih => rw [unpack, List.length_cons, ih, List.length_cons]

/-- A word that is assembled from values that do not all fit has them cut to their width. -/
theorem unpack_pack_mod (h : ws.length = vs.length) :
    unpack ws (pack ws vs) = List.zipWith (fun w v => v % 2 ^ w) ws vs := by
  induction ws generalizing vs with
  | nil => rfl
  | cons w ws ih =>
    cases vs with
    | nil => cases h
    | cons v vs =>
      have hlt : v % 2 ^ w < 2 ^ w := Nat.mod_lt _ (Nat.two_pow_pos w)
      rw [pack, unpack, Nat.add_mul_mod_self_left, Nat.mod_mod,
        Nat.add_mul_div_left _ _ (Nat.two_pow_pos _), Nat.div_eq_of_lt hlt, Nat.zero_add,
        ih (Nat.succ.inj h), List.zipWith_cons_cons]

theorem get_set {i j : ℕ} (v n : ℕ) :
    get ws j (set ws i v n) =
      ((List.zipWith (fun w v => v % 2 ^ w) ws ((unpack ws n).set i v))[j]?).getD 0 := by
  rw [get, set, unpack_pack_mod (by simp), List.getD_eq_getElem?_getD]

/-- **A field that is stored is read back**, cut to its width. -/
theorem get_set_self {i : ℕ} (hi : i < ws.length) (v n : ℕ) :
    get ws i (set ws i v n) = v % 2 ^ ws[i] := by
  rw [get_set, List.getElem?_zipWith, List.getElem?_eq_getElem hi,
    List.getElem?_set_self (by simpa using hi)]
  rfl

/-- **The other fields stay.** -/
theorem get_set_of_ne {i j : ℕ} (h : j ≠ i) (v n : ℕ) : get ws j (set ws i v n) = get ws j n := by
  have hself : List.zipWith (fun w v => v % 2 ^ w) ws (unpack ws n) = unpack ws n := by
    rw [← unpack_pack_mod (length_unpack ws n).symm, unpack_pack (fits_unpack ws n)]
  have hat := congrArg (fun l => l[j]?) hself
  simp only [List.getElem?_zipWith] at hat
  rw [get_set, List.getElem?_zipWith, List.getElem?_set_ne h.symm, hat, get,
    List.getD_eq_getElem?_getD]

theorem get_lt {i : ℕ} (hi : i < ws.length) (n : ℕ) : get ws i n < 2 ^ ws[i] := by
  induction ws generalizing i n with
  | nil => exact absurd hi (Nat.not_lt_zero i)
  | cons w ws ih =>
    cases i with
    | zero => exact Nat.mod_lt n (Nat.two_pow_pos w)
    | succ i => exact ih (Nat.lt_of_succ_lt_succ hi) (n / 2 ^ w)

theorem set_lt (ws : List ℕ) (i v n : ℕ) : set ws i v n < 2 ^ ws.sum := pack_lt _ _

/-- A field stored above `w` bits that are taken, as shifting and masking store it. -/
theorem or_shiftLeft {w v : ℕ} (n : ℕ) (h : v < 2 ^ w) : n <<< w ||| v = v + 2 ^ w * n := by
  rw [← Nat.shiftLeft_add_eq_or_of_lt h, Nat.shiftLeft_eq, Nat.mul_comm, Nat.add_comm]

end BitField
