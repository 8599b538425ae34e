import Mathlib.Data.Int.CardIntervalMod

/-!
# Mixing the bits of a word

The operations from which hash functions of words are made. None of them loses anything: they are
injective on words of 32 bits.

## Main definitions

* `WordMixing.rotate`, `WordMixing.mixDown`: the word rotated, and combined with its upper bits.

## Main results

* `WordMixing.mul_injective`, `WordMixing.add_injective`, `WordMixing.xor_injective`,
  `WordMixing.rotate_injective`, `WordMixing.mixDown_injective`.
* `WordMixing.card_mod_eq`: a function that loses nothing spreads the words evenly over the
  residues.
-/

namespace WordMixing

/-- The word rotated to the left by `n`, written with two shifts; `m` is what is left of the 32
bits. -/
def rotate (n m : UInt32) (x : UInt32) : UInt32 := (x <<< n) ||| (x >>> m)

/-- The word combined with its upper bits. -/
def mixDown (n : UInt32) (x : UInt32) : UInt32 := x ^^^ (x >>> n)

variable {c d n m : UInt32}

theorem mul_injective (h : c * d = 1) : Function.Injective fun x : UInt32 => x * c := by
  refine Function.LeftInverse.injective (g := fun x => x * d) fun x => ?_
  change x * c * d = x
  rw [UInt32.mul_assoc, h, UInt32.mul_one]

theorem add_injective (c : UInt32) : Function.Injective fun x : UInt32 => x + c :=
  Function.LeftInverse.injective (g := fun x => x - c) fun x => UInt32.add_sub_cancel x c

theorem xor_injective (c : UInt32) : Function.Injective fun x : UInt32 => x ^^^ c :=
  Function.LeftInverse.injective (g := fun x => x ^^^ c) fun x => by
    change x ^^^ c ^^^ c = x
    rw [UInt32.xor_assoc, UInt32.xor_self, UInt32.xor_zero]

/-- **Rotating back restores the word.** -/
theorem rotate_rotate (hn : 0 < n.toNat) (hm : 0 < m.toNat) (h : n.toNat + m.toNat = 32)
    (x : UInt32) : rotate m n (rotate n m x) = x := by
  have hn32 : n.toNat % 32 = n.toNat := Nat.mod_eq_of_lt (by omega)
  have hm32 : m.toNat % 32 = m.toNat := Nat.mod_eq_of_lt (by omega)
  refine UInt32.toBitVec_inj.1 (BitVec.eq_of_getLsbD_eq fun i hi => ?_)
  have hhigh : ∀ j, 32 ≤ j → x.toBitVec.getLsbD j = false := fun j hj =>
    BitVec.getLsbD_of_ge x.toBitVec j hj
  simp only [rotate, UInt32.toBitVec_or, UInt32.toBitVec_shiftLeft, UInt32.toBitVec_shiftRight,
    BitVec.getLsbD_or, BitVec.shiftLeft_eq', BitVec.ushiftRight_eq',
    BitVec.toNat_umod, UInt32.toNat_toBitVec, BitVec.getLsbD_shiftLeft, BitVec.getLsbD_ushiftRight]
  change _ = x.toBitVec.getLsbD i
  -- the low bits come from the right shift and the others from the left shift
  by_cases him : i < m.toNat
  · have hlow : n.toNat + i < 32 := by omega
    simp [hn32, hm32, him, hlow, hhigh (m.toNat + (n.toNat + i)) (by omega)]
  · have hbit : m.toNat + (i - m.toNat) = i := by omega
    have hsub : i - m.toNat < n.toNat := by omega
    simp [hn32, hm32, him, hbit, hsub, hhigh (m.toNat + (n.toNat + i)) (by omega), hi,
      show ¬ n.toNat + i < 32 by omega]

theorem rotate_injective (hn : 0 < n.toNat) (hm : 0 < m.toNat) (h : n.toNat + m.toNat = 32) :
    Function.Injective (rotate n m) :=
  Function.LeftInverse.injective (rotate_rotate hn hm h)

/-- A word shifted to the right by nothing but zeros. -/
theorem shiftRight_eq_zero {k : ℕ} (x : BitVec 32) (hk : 32 ≤ k) : x >>> k = 0#32 :=
  BitVec.eq_of_getLsbD_eq fun i _ => by
    rw [BitVec.getLsbD_ushiftRight, BitVec.getLsbD_of_ge _ _ (by omega), BitVec.getLsbD_zero]

/-- **The upper bits, which stay, give back the others**: in two steps, if `n` is at least a third
of the 32 bits. -/
theorem mixDown_injective (hn : n.toNat < 32) (h : 32 ≤ 3 * n.toNat) :
    Function.Injective (mixDown n) := by
  have hmod : n.toNat % 32 = n.toNat := Nat.mod_eq_of_lt hn
  have hbits : ∀ x : UInt32, (mixDown n x).toBitVec = x.toBitVec ^^^ (x.toBitVec >>> n.toNat) := by
    intro x
    simp only [mixDown, UInt32.toBitVec_xor, UInt32.toBitVec_shiftRight, BitVec.ushiftRight_eq',
      BitVec.toNat_umod, UInt32.toNat_toBitVec]
    congr 2
  intro x y hxy
  have heq := congrArg UInt32.toBitVec hxy
  rw [hbits, hbits] at heq
  have hback : ∀ v : BitVec 32, v = (v ^^^ (v >>> n.toNat)) ^^^
      ((v ^^^ (v >>> n.toNat)) >>> n.toNat) ^^^
      ((v ^^^ (v >>> n.toNat)) >>> n.toNat >>> n.toNat) := by
    intro v
    have hzero : v >>> (n.toNat + n.toNat + n.toNat) = 0#32 := shiftRight_eq_zero v (by omega)
    rw [BitVec.ushiftRight_xor_distrib, BitVec.ushiftRight_xor_distrib, ← BitVec.shiftRight_add v,
      ← BitVec.shiftRight_add v, hzero]
    simp [BitVec.xor_assoc]
  refine UInt32.toBitVec_inj.1 ?_
  rw [hback x.toBitVec, heq, ← hback]

/-- **A function that loses nothing spreads the words evenly**: each residue modulo `k` is that of
as many words as it has among the numbers below `2 ^ 32`. -/
theorem card_mod_eq {F : UInt32 → UInt32} (hF : Function.Injective F) {k j : ℕ} (hj : j < k) :
    ((Finset.range (2 ^ 32)).filter fun w => (F (.ofNat w)).toNat % k = j).card =
      2 ^ 32 / k + if j < 2 ^ 32 % k then 1 else 0 := by
  have hinj : Set.InjOn (fun w => (F (.ofNat w)).toNat) (Finset.range (2 ^ 32) : Set ℕ) := by
    intro w hw w' hw' heq
    have hword := congrArg UInt32.toNat (hF (UInt32.toNat_inj.1 heq))
    rwa [UInt32.toNat_ofNat_of_lt' (Finset.mem_range.1 (Finset.mem_coe.1 hw)),
      UInt32.toNat_ofNat_of_lt' (Finset.mem_range.1 (Finset.mem_coe.1 hw'))] at hword
  -- the values are all the numbers below `2 ^ 32`
  have himage : (Finset.range (2 ^ 32)).image (fun w => (F (.ofNat w)).toNat) =
      Finset.range (2 ^ 32) := by
    refine Finset.eq_of_subset_of_card_le (fun v hv => ?_) ?_
    · obtain ⟨w, -, rfl⟩ := Finset.mem_image.1 hv
      exact Finset.mem_range.2 (F (.ofNat w)).toNat_lt
    · rw [Finset.card_image_of_injOn hinj]
  have hcount := Nat.count_modEq_card (2 ^ 32) (Nat.zero_lt_of_lt hj) j
  rw [Nat.mod_eq_of_lt hj] at hcount
  calc ((Finset.range (2 ^ 32)).filter fun w => (F (.ofNat w)).toNat % k = j).card
      = (((Finset.range (2 ^ 32)).image fun w => (F (.ofNat w)).toNat).filter
          fun v => v % k = j).card := by
        rw [Finset.filter_image,
          Finset.card_image_of_injOn (hinj.mono fun w hw => (Finset.mem_filter.1 hw).1)]
    _ = Nat.count (fun v => v ≡ j [MOD k]) (2 ^ 32) := by
        rw [himage, Nat.count_eq_card_filter_range]
        refine congrArg Finset.card (Finset.filter_congr fun v _ => ?_)
        rw [Nat.ModEq, Nat.mod_eq_of_lt hj]
    _ = _ := hcount

end WordMixing
