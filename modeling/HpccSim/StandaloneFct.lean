import HpccSim.CustomHeader
import HpccSim.Lib.WrappedQuotient
import Mathlib.Algebra.Order.Floor.Div

/-!
# The baseline of completion times

When a flow has finished, `qp_finish` (`third.cc` and `convergence.cc`) writes how long it has taken
and how long it would have taken alone, `standalone_fct`: the base round trip plus the time its
bytes, headers included, need at the bottleneck. It counts the bytes in 32 bits and multiplies them
by `8000000000` in 64 bits. The product wraps from `2.3` GB on, before the count does; from there on
the baseline is always too small, whatever the bandwidth.

## Main definitions

* `totalBytes`, `standaloneFct`: as `qp_finish` computes them.
* `bytesOnWire`: the bytes of a flow with their headers, over `ℕ`.
* `IsBaseline`: the value is the one meant at a size.

## Main results

* `isBaseline_iff`: the value is the one meant exactly if the product and the sum fit.
* `threeGigabytes_not_isBaseline`: a flow of 3 GB.
-/

namespace HpccSim

open CustomHeader

section

variable (c : IntConfig) (packetPayloadSize : UInt32) (baseRtt b size : UInt64)

/-- `CustomHeader::GetStaticWholeHeaderSize`. -/
def CustomHeader.getStaticWholeHeaderSize : ℕ := 14 + 20 + getUdpHeaderSize c

/-- The headers of a packet without INT, as `qp_finish` counts them. -/
def headerBytes : ℕ := getStaticWholeHeaderSize c - IntHeader.getStaticSize c

/-- `total_bytes` of `qp_finish`. -/
def totalBytes : UInt32 :=
  (size + ((size - 1) / packetPayloadSize.toUInt64 + 1) * UInt64.ofNat (headerBytes c)).toUInt32

/-- `standalone_fct` of `qp_finish`. -/
def standaloneFct : UInt64 :=
  baseRtt + (totalBytes c packetPayloadSize size).toUInt64 * 8000000000 / b

/-- The bytes of a flow of `size` bytes with the headers of its packets. -/
def bytesOnWire (payload size : ℕ) : ℕ := size + size ⌈/⌉ payload * headerBytes c

/-- The baseline `fct`, given as a function of the size, is the one meant at `size`: the base round
trip and the time on the wire in ns, so that a shorter flow has no larger one. -/
structure IsBaseline (fct : UInt64 → UInt64) : Prop where
  eq : (fct size).toNat = baseRtt.toNat +
    8 * 10 ^ 9 * bytesOnWire c packetPayloadSize.toNat size.toNat / b.toNat
  mono : ∀ size', 1 ≤ size' → size' ≤ size → fct size' ≤ fct size

/-- The product and the sum of `qp_finish` fit in 64 bits. -/
def Fits : Prop :=
  bytesOnWire c packetPayloadSize.toNat size.toNat * 8000000000 < 2 ^ 64 ∧
    baseRtt.toNat + bytesOnWire c packetPayloadSize.toNat size.toNat * 8000000000 / b.toNat < 2 ^ 64

instance : Decidable (Fits c packetPayloadSize baseRtt b size) :=
  inferInstanceAs (Decidable (_ ∧ _))

end

variable {c : IntConfig} {packetPayloadSize : UInt32} {baseRtt b size : UInt64}

/-- The headers have 48 bytes, in every mode of INT. -/
@[simp] theorem headerBytes_eq : headerBytes c = 48 := by
  simp only [headerBytes, getStaticWholeHeaderSize, getUdpHeaderSize]
  omega

theorem bytesOnWire_mono {payload m n : ℕ} (h : m ≤ n) :
    bytesOnWire c payload m ≤ bytesOnWire c payload n := by
  have hceil : m ⌈/⌉ payload ≤ n ⌈/⌉ payload := by
    rw [Nat.ceilDiv_eq_add_pred_div, Nat.ceilDiv_eq_add_pred_div]
    exact Nat.div_le_div_right (by omega)
  exact Nat.add_le_add h (Nat.mul_le_mul_right _ hceil)

/-- The number of packets as `qp_finish` counts them. -/
theorem sub_one_div_add_one {m payload : ℕ} (hm : 1 ≤ m) (hp : 1 ≤ payload) :
    (m - 1) / payload + 1 = m ⌈/⌉ payload := by
  rw [Nat.ceilDiv_eq_add_pred_div, ← Nat.add_div_right _ hp]
  congr 1
  omega

/-- `total_bytes` is the count reduced to 32 bits. -/
theorem toNat_totalBytes (hsize : 1 ≤ size) (hp : 1 ≤ packetPayloadSize) :
    (totalBytes c packetPayloadSize size).toNat =
      bytesOnWire c packetPayloadSize.toNat size.toNat % 2 ^ 32 := by
  have hone : (1 : UInt64).toNat = 1 := rfl
  have hsub : (size - 1).toNat = size.toNat - 1 := UInt64.toNat_sub_of_le _ _ hsize
  have hceil := sub_one_div_add_one (UInt64.le_iff_toNat_le.1 hsize) (UInt32.le_iff_toNat_le.1 hp)
  rw [totalBytes, bytesOnWire, ← hceil, headerBytes_eq, UInt64.toNat_toUInt32, UInt64.toNat_add,
    UInt64.toNat_mul, UInt64.toNat_add, UInt64.toNat_div, hsub, UInt32.toNat_toUInt64, hone,
    UInt64.toNat_ofNat']
  omega

/-- The value as it is computed: the count wraps, the product wraps, and the sum does. -/
theorem toNat_standaloneFct (hsize : 1 ≤ size) (hp : 1 ≤ packetPayloadSize) :
    (standaloneFct c packetPayloadSize baseRtt b size).toNat =
      (baseRtt.toNat + bytesOnWire c packetPayloadSize.toNat size.toNat % 2 ^ 32 * 8000000000
        % 2 ^ 64 / b.toNat) % 2 ^ 64 := by
  rw [standaloneFct, UInt64.toNat_add, UInt64.toNat_div, UInt64.toNat_mul, UInt32.toNat_toUInt64,
    toNat_totalBytes hsize hp]
  rfl

theorem toNat_standaloneFct_of_fits (hsize : 1 ≤ size) (hp : 1 ≤ packetPayloadSize)
    (h : Fits c packetPayloadSize baseRtt b size) :
    (standaloneFct c packetPayloadSize baseRtt b size).toNat = baseRtt.toNat +
      bytesOnWire c packetPayloadSize.toNat size.toNat * 8000000000 / b.toNat := by
  have hlt : bytesOnWire c packetPayloadSize.toNat size.toNat < 2 ^ 32 := by
    have := h.1
    omega
  rw [toNat_standaloneFct hsize hp, Nat.mod_eq_of_lt hlt, Nat.mod_eq_of_lt h.1,
    Nat.mod_eq_of_lt h.2]

/-- A shorter flow fits if a longer one does. -/
theorem Fits.mono (h : Fits c packetPayloadSize baseRtt b size) {size' : UInt64}
    (hle : size' ≤ size) : Fits c packetPayloadSize baseRtt b size' := by
  have hbytes : bytesOnWire c packetPayloadSize.toNat size'.toNat ≤
      bytesOnWire c packetPayloadSize.toNat size.toNat :=
    bytesOnWire_mono (UInt64.le_iff_toNat_le.1 hle)
  have hmul := Nat.mul_le_mul_right 8000000000 hbytes
  exact ⟨hmul.trans_lt h.1, (Nat.add_le_add_left (Nat.div_le_div_right hmul) _).trans_lt h.2⟩

/-- If the product or the sum does not fit, the value is too small. -/
theorem fits_of_eq (hsize : 1 ≤ size) (hp : 1 ≤ packetPayloadSize) (hb : 0 < b)
    (h : (standaloneFct c packetPayloadSize baseRtt b size).toNat = baseRtt.toNat +
      bytesOnWire c packetPayloadSize.toNat size.toNat * 8000000000 / b.toNat) :
    Fits c packetPayloadSize baseRtt b size := by
  have hlt := UInt64.toNat_lt (standaloneFct c packetPayloadSize baseRtt b size)
  have hb' : 0 < b.toNat := UInt64.lt_iff_toNat_lt.1 hb
  have hb64 := UInt64.toNat_lt b
  refine ⟨?_, h ▸ hlt⟩
  have hle := Nat.mod_le (baseRtt.toNat +
    bytesOnWire c packetPayloadSize.toNat size.toNat % 2 ^ 32 * 8000000000 % 2 ^ 64 / b.toNat)
    (2 ^ 64)
  rw [← toNat_standaloneFct hsize hp, h] at hle
  refine (WrappedQuotient.mod_mul_mod_div_eq_iff (a := 2 ^ 32) (k := 8000000000) hb' hb64.le
    (by decide)).1 ?_
  refine le_antisymm (Nat.div_le_div_right ?_) (Nat.le_of_add_le_add_left hle)
  exact (Nat.mod_le _ _).trans (Nat.mul_le_mul_right _ (Nat.mod_le _ _))

/-- **The baseline is the one meant** exactly if the product with `8000000000` and the sum fit in 64
bits. -/
theorem isBaseline_iff (hsize : 1 ≤ size) (hp : 1 ≤ packetPayloadSize) (hb : 0 < b) :
    IsBaseline c packetPayloadSize baseRtt b size (standaloneFct c packetPayloadSize baseRtt b) ↔
      Fits c packetPayloadSize baseRtt b size := by
  have hcomm : ∀ n, 8 * 10 ^ 9 * n = n * 8000000000 := fun n => by omega
  constructor
  · intro h
    have heq := h.eq
    rw [hcomm] at heq
    exact fits_of_eq hsize hp hb heq
  · intro h
    refine ⟨by rw [hcomm, toNat_standaloneFct_of_fits hsize hp h], fun size' hone hle => ?_⟩
    rw [UInt64.le_iff_toNat_le, toNat_standaloneFct_of_fits hone hp (h.mono hle),
      toNat_standaloneFct_of_fits hsize hp h]
    exact Nat.add_le_add_left (Nat.div_le_div_right (Nat.mul_le_mul_right _
      (bytesOnWire_mono (UInt64.le_iff_toNat_le.1 hle)))) _

/-- A gigabyte in packets of 1000 bytes at 100 Gb/s. -/
theorem gigabyte_isBaseline :
    IsBaseline ⟨.normal, 1, 1⟩ 1000 8000 100000000000 1000000000
      (standaloneFct ⟨.normal, 1, 1⟩ 1000 8000 100000000000) :=
  (isBaseline_iff (by decide) (by decide) (by decide)).2 (by decide +kernel)

/-- **Three gigabytes** wrap: the baseline is 67 ms, not 252 ms, and less than that of two. -/
theorem threeGigabytes_not_isBaseline :
    (standaloneFct ⟨.normal, 1, 1⟩ 1000 8000 100000000000 3000000000).toNat = 67060559 ∧
      8000 + 8 * 10 ^ 9 * bytesOnWire ⟨.normal, 1, 1⟩ 1000 3000000000 / 100000000000 = 251528000 ∧
      standaloneFct ⟨.normal, 1, 1⟩ 1000 8000 100000000000 3000000000 <
        standaloneFct ⟨.normal, 1, 1⟩ 1000 8000 100000000000 2000000000 ∧
      ¬ IsBaseline ⟨.normal, 1, 1⟩ 1000 8000 100000000000 3000000000
        (standaloneFct ⟨.normal, 1, 1⟩ 1000 8000 100000000000) := by
  refine ⟨by decide +kernel, by decide +kernel, by decide +kernel, fun h => ?_⟩
  exact absurd h.eq (by decide +kernel)

end HpccSim
