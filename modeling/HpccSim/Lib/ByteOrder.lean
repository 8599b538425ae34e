import Mathlib.Algebra.Order.Group.Nat
import Mathlib.Data.Nat.Basic

/-!
# Byte orders and readers

Numbers written as bytes, the least significant byte first or last, and programs that read them
back from the front of a sequence of bytes.

## Main definitions

* `ByteOrder.encode`, `ByteOrder.decode`: numbers as bytes, least significant byte first.
* `ByteOrder.Reader`: a program that reads bytes; reading beyond the end fails.
* `ByteOrder.take`, `ByteOrder.readLE`, `ByteOrder.readBE`.
* `ByteOrder.load`, `ByteOrder.store`: numbers at an address in a sequence of bytes.

## Main results

* `ByteOrder.decode_encode`, `ByteOrder.encode_decode`: the two are inverse to each other.
* `ByteOrder.encode_add`: a number is written in two parts.
* `ByteOrder.run_readLE`, `ByteOrder.run_readBE`: what was written is read back, and the rest stays.
* `ByteOrder.load_append`, `ByteOrder.store_append`: access to a number between other bytes.
-/

namespace ByteOrder

abbrev Bytes := List UInt8

/-- The lowest `n` bytes of `v`, least significant byte first. -/
def encode : ℕ → ℕ → Bytes
  | 0, _ => []
  | n + 1, v => UInt8.ofNat (v % 256) :: encode n (v / 256)

/-- The number whose bytes are given, least significant byte first. -/
def decode : Bytes → ℕ
  | [] => 0
  | b :: bs => b.toNat + 256 * decode bs

@[simp] theorem length_encode (n v : ℕ) : (encode n v).length = n := by
  induction n generalizing v with
  | zero => rfl
  | succ n ih => rw [encode, List.length_cons, ih]

theorem toNat_ofNat_mod (v : ℕ) : (UInt8.ofNat (v % 256)).toNat = v % 256 :=
  UInt8.toNat_ofNat_of_lt' (Nat.mod_lt _ (by decide))

/-- **What was written is read back**, up to the bytes that were cut off. -/
theorem decode_encode (n v : ℕ) : decode (encode n v) = v % 256 ^ n := by
  induction n generalizing v with
  | zero => rw [Nat.pow_zero, Nat.mod_one, encode, decode]
  | succ n ih =>
    rw [encode, decode, ih, toNat_ofNat_mod, Nat.pow_succ', Nat.mod_mul]

/-- **Bytes are those of their number.** -/
theorem encode_decode (l : Bytes) : encode l.length (decode l) = l := by
  induction l with
  | nil => rfl
  | cons b l ih =>
    have hb := b.toNat_lt
    have hmod : (b.toNat + 256 * decode l) % 256 = b.toNat := by omega
    have hdiv : (b.toNat + 256 * decode l) / 256 = decode l := by omega
    rw [List.length_cons, decode, encode, hmod, hdiv, ih, UInt8.ofNat_toNat]

/-- **A number is written in two parts.** -/
theorem encode_add (m n v : ℕ) : encode (m + n) v = encode m v ++ encode n (v / 256 ^ m) := by
  induction m generalizing v with
  | zero => rw [Nat.zero_add, Nat.pow_zero, Nat.div_one, encode, List.nil_append]
  | succ m ih =>
    rw [Nat.succ_add, encode, encode, ih, Nat.div_div_eq_div_mul, Nat.pow_succ', List.cons_append]

/-- Only the bytes that are written matter. -/
theorem encode_mod (n v : ℕ) : encode n (v % 256 ^ n) = encode n v := by
  rw [← decode_encode]
  simpa using encode_decode (encode n v)

/-! ### Readers -/

/-- A program that reads bytes from the front of a sequence. -/
abbrev Reader := StateT Bytes Option

/-- Read `n` bytes. -/
def take (n : ℕ) : Reader Bytes := fun s =>
  if n ≤ s.length then some (s.take n, s.drop n) else none

/-- Read a number of `n` bytes, least significant byte first. -/
def readLE (n : ℕ) : Reader ℕ := decode <$> take n

/-- Read a number of `n` bytes, most significant byte first. -/
def readBE (n : ℕ) : Reader ℕ := (fun l => decode l.reverse) <$> take n

variable {n : ℕ}

theorem run_take {l : Bytes} (h : l.length = n) (rest : Bytes) :
    (take n).run (l ++ rest) = some (l, rest) := by
  subst h
  show (if _ then _ else _) = _
  rw [if_pos (by simp)]
  simp

theorem run_readLE (v : ℕ) (rest : Bytes) :
    (readLE n).run (encode n v ++ rest) = some (v % 256 ^ n, rest) := by
  rw [readLE, StateT.run_map, run_take (length_encode n v), ← decode_encode]
  rfl

theorem run_readBE (v : ℕ) (rest : Bytes) :
    (readBE n).run ((encode n v).reverse ++ rest) = some (v % 256 ^ n, rest) := by
  rw [readBE, StateT.run_map, run_take (by simp), ← decode_encode]
  simp

/-! ### Memory -/

/-- The number of `n` bytes at the address `a`. -/
def load (n a : ℕ) (p : Bytes) : ℕ := decode ((p.drop a).take n)

/-- Put the number `v` of `n` bytes at the address `a`. -/
def store (n a v : ℕ) (p : Bytes) : Bytes := p.take a ++ encode n v ++ p.drop (a + n)

variable {a : ℕ} {l m : Bytes}

theorem load_append (hl : l.length = a) (v : ℕ) (r : Bytes) :
    load n a (l ++ (encode n v ++ r)) = v % 256 ^ n := by
  rw [load, List.drop_left' hl, List.take_left' (length_encode n v), decode_encode]

theorem store_append (hl : l.length = a) (hm : m.length = n) (v : ℕ) (r : Bytes) :
    store n a v (l ++ (m ++ r)) = l ++ (encode n v ++ r) := by
  have hdrop : (l ++ (m ++ r)).drop (a + n) = r := by
    rw [← List.drop_drop, List.drop_left' hl, List.drop_left' hm]
  rw [store, List.take_left' hl, hdrop, List.append_assoc]

end ByteOrder
