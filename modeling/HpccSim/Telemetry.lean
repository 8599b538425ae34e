import HpccSim.IntStamp
import HpccSim.Lib.WrappedCounter

/-!
# Reading the telemetry

A stamp has 24 bits for the time, 20 for the bytes sent, in units of `byteUnit * multi`, 20 for
those of big flows, in units of `byteUnit`, and 16 for the bytes waiting, in units of
`qlenUnit * multi` (`int-header.h`). The sender takes differences of two stamps of a hop, which the
wrapping of the fields does not disturb. The bytes waiting are not a difference: a queue of `2 ^ 16`
units or more is reported modulo `2 ^ 16` units.

The differences are computed in `int`, to which a bit field is promoted, and the products in
`uint32_t`.

## Main definitions

* `IntHop.getHBytesDelta`: the difference in the bytes of big flows.
* `Promoted`: the arithmetic of the differences, with its overflows.

## Main results

* `getQlen_pushHop_iff`: the bytes waiting are reported to a unit exactly below `2 ^ 16` units.
* `stamp_deltas`: differences of stamps are exact, or exact to a unit, and nothing overflows.
-/

namespace HpccSim

open WrappedCounter

namespace IntHop

variable (h b : IntHop)

/-- `GetHBytesDelta`. -/
def getHBytesDelta : UInt32 :=
  if h.heavyBytes ≥ b.heavyBytes then .ofNat (h.heavyBytes - b.heavyBytes) * byteUnit
  else .ofNat (h.heavyBytes + 2 ^ 20 - b.heavyBytes) * byteUnit

theorem time_lt : h.time < 2 ^ 24 := @BitField.get_lt widths 1 (by decide) _

theorem bytes_lt : h.bytes < 2 ^ 20 := @BitField.get_lt widths 2 (by decide) _

theorem heavyBytes_lt : h.heavyBytes < 2 ^ 20 := @BitField.get_lt myWidths 0 (by decide) _

theorem getTimeDelta_eq : h.getTimeDelta b = delta 24 h.time b.time := rfl

/-- No time has passed between two stamps exactly if their times are the same. -/
theorem getTimeDelta_eq_zero_iff : h.getTimeDelta b = 0 ↔ h.time = b.time :=
  delta_eq_zero_iff b.time_lt

theorem getBytesDelta_eq (c : IntConfig) :
    h.getBytesDelta c b = .ofNat (delta 20 h.bytes b.bytes) * byteUnit * c.multi := by
  rw [getBytesDelta, delta]
  split_ifs <;> rfl

theorem getHBytesDelta_eq :
    h.getHBytesDelta b = .ofNat (delta 20 h.heavyBytes b.heavyBytes) * byteUnit := by
  rw [getHBytesDelta, delta]
  split_ifs <;> rfl

end IntHop

/-! ### Records behind a path -/

/-- What holds of an empty record and is kept by the stamps holds of the records behind a path, of
any length. -/
theorem forall_hop_pushes {c : IntConfig} {P : IntHop → Prop} {ds : List Departure}
    (hzero : P .zero) (hstamp : ∀ d ∈ ds, ∀ h, P h → P (h.stamp c d.now d.txBytes d.nBytesTotal
      d.bitRate d.isBigFlow d.txHeavyBytes d.card)) (i : Fin maxHop) :
    P ((pushes c ds .new).hop i) := by
  induction ds using List.reverseRecOn generalizing i with
  | nil => exact hzero
  | append_singleton ds d hind =>
    have hprev := hind fun d' hd' => hstamp d' (List.mem_append_left _ hd')
    have hlast : pushes c (ds ++ [d]) .new = d.push c (pushes c ds .new) := by
      rw [pushes, List.foldl_append]
      rfl
    rw [hlast, Departure.push]
    by_cases hmode : c.mode = .normal
    · rw [IntHeader.pushHop_eq hmode]
      dsimp only
      by_cases hi : i = ⟨(pushes c ds .new).nhop.toNat % maxHop, Nat.mod_lt _ (by decide)⟩
      · rw [hi, Function.update_self]
        exact hstamp d (by simp) _ (hprev _)
      · rw [Function.update_of_ne hi]
        exact hprev i
    · rw [IntHeader.pushHop, if_neg hmode]
      exact hprev i

/-- The codes that are stored for rates. -/
theorem IntHop.rateCode_le {rate : UInt64} {code : ℕ} (h : rateCode rate = some code) :
    code ≤ 6 := by
  simp only [rateCode] at h
  split_ifs at h <;> cases h <;> decide

/-- The rate of the line of a record behind a path is one of the table. -/
theorem getLineRate_pushes_ne_zero (c : IntConfig) (ds : List Departure) (i : Fin maxHop) :
    ((pushes c ds .new).hop i).getLineRate.toNat ≠ 0 := by
  have hcode : ((pushes c ds .new).hop i).lineRate ≤ 6 := by
    refine forall_hop_pushes (P := fun h => h.lineRate ≤ 6) (by decide) (fun d _ h hh => ?_) i
    have hrate := (IntHop.get_store_of_ne (h := h.set c d.now d.txBytes d.nBytesTotal d.bitRate)
      (if d.isBigFlow then 1 else 0) (show 0 ≠ 4 by decide)).trans IntHop.lineRate_set
    refine (le_of_eq hrate).trans ?_
    cases hc : IntHop.rateCode d.bitRate with
    | none => exact hh
    | some code => exact IntHop.rateCode_le hc
  rw [IntHop.getLineRate]
  generalize ((pushes c ds .new).hop i).lineRate = code at hcode
  revert code
  decide

/-- A packet leaves a 100 Gb/s port that has sent `txBytes`, with nothing waiting. -/
def Departure.ofPort (now txBytes : UInt64) (card : UInt32) : Departure where
  egressCongested := false
  now := now
  txBytes := txBytes
  nBytesTotal := 0
  bitRate := 100000000000
  isBigFlow := false
  txHeavyBytes := 0
  card := card

/-! ### The bytes waiting -/

/-- The bytes waiting that a record reports, over the natural numbers. -/
theorem IntHop.toNat_getQlen_of_qlen {c : IntConfig} {h : IntHop} {qlen : UInt32}
    (hfit : 80 * c.multi.toNat < 2 ^ 32)
    (hq : h.qlen = (qlen / (qlenUnit * c.multi)).toNat % 2 ^ 16) :
    (h.getQlen c).toNat =
      qlen.toNat / (80 * c.multi.toNat) % 2 ^ 16 * (80 * c.multi.toNat) := by
  have hunit : (qlenUnit * c.multi).toNat = 80 * c.multi.toNat := by
    rw [UInt32.toNat_mul]
    exact Nat.mod_eq_of_lt hfit
  have hq' : h.qlen = qlen.toNat / (80 * c.multi.toNat) % 2 ^ 16 := by
    rw [hq, UInt32.toNat_div, hunit]
  have hle : qlen.toNat / (80 * c.multi.toNat) % 2 ^ 16 * (80 * c.multi.toNat) ≤ qlen.toNat :=
    (Nat.mul_le_mul_right _ (Nat.mod_le _ _)).trans (Nat.div_mul_le_self _ _)
  have hlt := hle.trans_lt qlen.toNat_lt
  have hassoc : h.getQlen c = .ofNat h.qlen * (qlenUnit * c.multi) := UInt32.mul_assoc _ _ _
  have hfield : (UInt32.ofNat h.qlen).toNat = h.qlen := by
    refine UInt32.toNat_ofNat_of_lt' ?_
    rw [hq]
    exact (Nat.mod_lt _ (Nat.two_pow_pos 16)).trans (by decide)
  rw [hassoc, UInt32.toNat_mul, hunit, hfield, hq']
  exact Nat.mod_eq_of_lt hlt

/-- **The bytes waiting** that `PushHop` writes are read back to a unit exactly if there are less
than `2 ^ 16` units of them. -/
theorem getQlen_pushHop_iff {c : IntConfig} (hmode : c.mode = .normal) (hmulti : 1 ≤ c.multi.toNat)
    (hfit : 80 * c.multi.toNat < 2 ^ 32) (ih : IntHeader) (time bytes : UInt64) (qlen : UInt32)
    (rate : UInt64) (isBigflow : Bool) (heavyBytes : UInt64) (card : UInt32) (p : UInt16) :
    let idx : Fin maxHop := ⟨ih.nhop.toNat % maxHop, Nat.mod_lt _ (by decide)⟩
    let h := (ih.pushHop c time bytes qlen rate isBigflow heavyBytes card p).hop idx
    ((h.getQlen c).toNat ≤ qlen.toNat ∧
        qlen.toNat < (h.getQlen c).toNat + 80 * c.multi.toNat) ↔
      qlen.toNat < 2 ^ 16 * (80 * c.multi.toNat) := by
  intro idx h
  have hstamp : h = (ih.hop idx).stamp c time bytes qlen rate isBigflow heavyBytes card := by
    simp only [h, IntHeader.pushHop_eq hmode]
    exact Function.update_self _ _ _
  have hq : h.qlen = (qlen / (IntHop.qlenUnit * c.multi)).toNat % 2 ^ 16 := by
    rw [hstamp]
    exact (IntHop.get_store_of_ne _ (by decide)).trans IntHop.qlen_set
  rw [IntHop.toNat_getQlen_of_qlen hfit hq]
  exact report_iff (by omega)

/-- A queue of 4000 packets. -/
theorem getQlen_pushHop_iff_4000_packets :
    let c : IntConfig := ⟨.normal, 2, 1⟩
    let h := (IntHeader.new.pushHop c 1000 5000 4000000 100000000000 false 0 0 0).hop 0
    ((h.getQlen c).toNat ≤ 4000000 ∧ 4000000 < (h.getQlen c).toNat + 80 * 1) ↔
      4000000 < 2 ^ 16 * (80 * 1) :=
  getQlen_pushHop_iff (c := ⟨.normal, 2, 1⟩) rfl (by decide) (by decide) .new 1000 5000 4000000
    100000000000 false 0 0 0

/-- **A queue of 5 MiB**, of a buffer of 32 MiB, is reported empty. -/
theorem deep_queue_reported_empty :
    ¬ ∀ c : IntConfig, c.mode = .normal → 1 ≤ c.multi.toNat → 80 * c.multi.toNat < 2 ^ 32 →
      ∀ (ih : IntHeader) (time bytes : UInt64) (qlen : UInt32) (rate : UInt64) (isBigflow : Bool)
        (heavyBytes : UInt64) (card : UInt32) (p : UInt16),
        qlen.toNat ≤ 32 * 2 ^ 20 →
        let idx : Fin maxHop := ⟨ih.nhop.toNat % maxHop, Nat.mod_lt _ (by decide)⟩
        let h := (ih.pushHop c time bytes qlen rate isBigflow heavyBytes card p).hop idx
        (h.getQlen c).toNat ≤ qlen.toNat ∧
          qlen.toNat < (h.getQlen c).toNat + 80 * c.multi.toNat := by
  intro h
  have h' := (h ⟨.normal, 2, 1⟩ rfl (by decide) (by decide) .new 0 0 5242880 100000000000 false 0
    0 0 (by decide)).2
  revert h'
  decide +kernel

/-! ### Differences -/

namespace Promoted

/-- The result of an operation on `int`, if it does not overflow. -/
def toInt (z : ℤ) : Option ℤ := if -2 ^ 31 ≤ z ∧ z < 2 ^ 31 then some z else none

/-- The result of an operation on `uint32_t`, if it does not overflow. -/
def toUInt32 (n : ℕ) : Option ℕ := if n < 2 ^ 32 then some n else none

/-- The difference of two bit fields of `w` bits, in `int`. -/
def fieldDelta (w a b : ℕ) : Option ℤ :=
  if a ≥ b then toInt (a - b) else (toInt (a + 2 ^ w)).bind fun s => toInt (s - b)

/-- `GetTimeDelta`. -/
def getTimeDelta (h b : IntHop) : Option ℤ := fieldDelta 24 h.time b.time

/-- `GetBytesDelta`. The difference is converted to `uint32_t`, the type of `byteUnit`. -/
def getBytesDelta (c : IntConfig) (h b : IntHop) : Option ℕ := do
  let units ← fieldDelta 20 h.bytes b.bytes
  let bytes ← toUInt32 (units.toNat * IntHop.byteUnit.toNat)
  toUInt32 (bytes * c.multi.toNat)

/-- `GetHBytesDelta`. -/
def getHBytesDelta (h b : IntHop) : Option ℕ := do
  let units ← fieldDelta 20 h.heavyBytes b.heavyBytes
  toUInt32 (units.toNat * IntHop.byteUnit.toNat)

/-- The difference of two fields of at most 24 bits does not overflow. -/
theorem fieldDelta_eq {w a b : ℕ} (hw : w ≤ 24) (ha : a < 2 ^ w) (hb : b < 2 ^ w) :
    fieldDelta w a b = some (delta w a b : ℤ) := by
  have hpow : (2 : ℕ) ^ w ≤ 2 ^ 24 := Nat.pow_le_pow_right (by decide) hw
  have hcast : ((2 ^ w : ℕ) : ℤ) = 2 ^ w := by norm_cast
  rw [fieldDelta, delta]
  split_ifs with h
  · rw [toInt, if_pos (by omega), Nat.cast_sub h]
  · have hsum : toInt (a + 2 ^ w) = some ((a : ℤ) + 2 ^ w) := if_pos (by omega)
    have hle : b ≤ a + 2 ^ w := by omega
    rw [hsum, Option.bind_some, toInt, if_pos (by omega), Nat.cast_sub hle, Nat.cast_add, hcast]

end Promoted

section Deltas

variable {c : IntConfig} {a b : Departure}

/-- Two stamps report the time that has passed. -/
theorem getTimeDelta_stamp (hle : b.now.toNat ≤ a.now.toNat)
    (hlt : a.now.toNat - b.now.toNat < 2 ^ 24) :
    (a.stamp c).getTimeDelta (b.stamp c) = a.now.toNat - b.now.toNat := by
  rw [IntHop.getTimeDelta_eq, a.stampedOn_stamp.time, b.stampedOn_stamp.time, delta_mod hle hlt]

/-- The units of the bytes sent that a stamp reports. -/
theorem bytes_stamp (hmulti : c.multi.toNat ≤ 32) (d : Departure) :
    (d.stamp c).bytes = d.txBytes.toNat / (128 * c.multi.toNat) % 2 ^ 20 := by
  have hunit : (IntHop.byteUnit * c.multi).toUInt64.toNat = 128 * c.multi.toNat := by
    have hlt : 128 * c.multi.toNat < 2 ^ 32 := by omega
    rw [UInt32.toNat_toUInt64, UInt32.toNat_mul]
    exact Nat.mod_eq_of_lt hlt
  rw [d.stampedOn_stamp.bytes, UInt64.toNat_div, hunit]

theorem heavyBytes_stamp (d : Departure) :
    (d.stamp c).heavyBytes = d.txHeavyBytes.toNat / 128 % 2 ^ 20 := by
  rw [d.stampedOn_stamp.heavyBytes, UInt64.toNat_div]
  rfl

/-- A number of units, in bytes. -/
theorem toNat_mul_byteUnit {d : ℕ} (hd : d < 2 ^ 20) :
    (UInt32.ofNat d * IntHop.byteUnit).toNat = d * 128 := by
  have hlt : d < 2 ^ 32 := hd.trans (by decide)
  rw [UInt32.toNat_mul, UInt32.toNat_ofNat_of_lt' hlt]
  have hmul : d * 128 < 2 ^ 32 := by omega
  exact Nat.mod_eq_of_lt hmul

/-- The largest number of units there can be does not overflow `uint32_t` in bytes. -/
theorem units_lt {d m : ℕ} (hd : d < 2 ^ 20) (hm : m ≤ 32) : d * 128 * m < 2 ^ 32 :=
  calc d * 128 * m ≤ d * 128 * 32 := Nat.mul_le_mul_left _ hm
    _ < 2 ^ 32 := by omega

/-- Two stamps report the bytes sent, in units. -/
theorem getBytesDelta_stamp (hmulti : c.multi.toNat ≤ 32) (hle : b.txBytes.toNat ≤ a.txBytes.toNat)
    (hlt : a.txBytes.toNat / (128 * c.multi.toNat) - b.txBytes.toNat / (128 * c.multi.toNat) <
      2 ^ 20) :
    ((a.stamp c).getBytesDelta c (b.stamp c)).toNat = 128 * c.multi.toNat *
        (a.txBytes.toNat / (128 * c.multi.toNat) - b.txBytes.toNat / (128 * c.multi.toNat)) ∧
      Promoted.getBytesDelta c (a.stamp c) (b.stamp c) =
        some ((a.stamp c).getBytesDelta c (b.stamp c)).toNat := by
  have hdelta := delta_mod (Nat.div_le_div_right hle) hlt
  rw [← bytes_stamp hmulti, ← bytes_stamp hmulti] at hdelta
  have hfield := Promoted.fieldDelta_eq (by decide) (a.stamp c).bytes_lt (b.stamp c).bytes_lt
  rw [IntHop.getBytesDelta_eq, Promoted.getBytesDelta, hfield, hdelta]
  generalize a.txBytes.toNat / (128 * c.multi.toNat) -
    b.txBytes.toNat / (128 * c.multi.toNat) = d at hlt
  have hbytes := toNat_mul_byteUnit hlt
  have hprod := units_lt hlt hmulti
  have hval : (UInt32.ofNat d * IntHop.byteUnit * c.multi).toNat = d * 128 * c.multi.toNat := by
    rw [UInt32.toNat_mul, hbytes, Nat.mod_eq_of_lt hprod]
  have hbyteUnit : IntHop.byteUnit.toNat = 128 := rfl
  rw [hval]
  refine ⟨by rw [Nat.mul_assoc, Nat.mul_comm], ?_⟩
  simp only [Option.bind_eq_bind, Option.bind_some, Int.toNat_natCast, hbyteUnit,
    Promoted.toUInt32]
  rw [if_pos (by omega), Option.bind_some, if_pos hprod]

/-- Two stamps report the bytes sent of big flows, in units. -/
theorem getHBytesDelta_stamp (hle : b.txHeavyBytes.toNat ≤ a.txHeavyBytes.toNat)
    (hlt : a.txHeavyBytes.toNat / 128 - b.txHeavyBytes.toNat / 128 < 2 ^ 20) :
    ((a.stamp c).getHBytesDelta (b.stamp c)).toNat =
        128 * (a.txHeavyBytes.toNat / 128 - b.txHeavyBytes.toNat / 128) ∧
      Promoted.getHBytesDelta (a.stamp c) (b.stamp c) =
        some ((a.stamp c).getHBytesDelta (b.stamp c)).toNat := by
  have hdelta := delta_mod (Nat.div_le_div_right hle) hlt
  rw [← heavyBytes_stamp (c := c), ← heavyBytes_stamp (c := c)] at hdelta
  have hfield := Promoted.fieldDelta_eq (by decide) (a.stamp c).heavyBytes_lt
    (b.stamp c).heavyBytes_lt
  have hbyteUnit : IntHop.byteUnit.toNat = 128 := rfl
  rw [IntHop.getHBytesDelta_eq, Promoted.getHBytesDelta, hfield, hdelta, toNat_mul_byteUnit hlt]
  refine ⟨Nat.mul_comm _ _, ?_⟩
  simp only [Option.bind_eq_bind, Option.bind_some, Int.toNat_natCast, hbyteUnit,
    Promoted.toUInt32]
  rw [if_pos (by omega)]

end Deltas

/-- **Differences of stamps are recovered.** Let a departure follow another one from the same port,
with counters that have grown by less than the fields can tell: the difference of the times of the
two stamps is exact, those of the bytes are exact in their units and to a unit, and the arithmetic
does not overflow. -/
theorem stamp_deltas (c : IntConfig) (hmulti : 1 ≤ c.multi.toNat) (hmulti' : c.multi.toNat ≤ 32)
    (b a : Departure) (htime : b.now.toNat ≤ a.now.toNat)
    (htime' : a.now.toNat - b.now.toNat < 2 ^ 24) (hbytes : b.txBytes.toNat ≤ a.txBytes.toNat)
    (hbytes' : a.txBytes.toNat / (128 * c.multi.toNat) - b.txBytes.toNat / (128 * c.multi.toNat) <
      2 ^ 20) (hheavy : b.txHeavyBytes.toNat ≤ a.txHeavyBytes.toNat)
    (hheavy' : a.txHeavyBytes.toNat / 128 - b.txHeavyBytes.toNat / 128 < 2 ^ 20) :
    let unit := 128 * c.multi.toNat
    let time := a.now.toNat - b.now.toNat
    let bytes := unit * (a.txBytes.toNat / unit - b.txBytes.toNat / unit)
    let heavyBytes := 128 * (a.txHeavyBytes.toNat / 128 - b.txHeavyBytes.toNat / 128)
    ((a.stamp c).getTimeDelta (b.stamp c) = time ∧
        Promoted.getTimeDelta (a.stamp c) (b.stamp c) = some (time : ℤ)) ∧
      (((a.stamp c).getBytesDelta c (b.stamp c)).toNat = bytes ∧
        Promoted.getBytesDelta c (a.stamp c) (b.stamp c) = some bytes ∧
        bytes < a.txBytes.toNat - b.txBytes.toNat + unit ∧
        a.txBytes.toNat - b.txBytes.toNat < bytes + unit) ∧
      ((a.stamp c).getHBytesDelta (b.stamp c)).toNat = heavyBytes ∧
        Promoted.getHBytesDelta (a.stamp c) (b.stamp c) = some heavyBytes ∧
        heavyBytes < a.txHeavyBytes.toNat - b.txHeavyBytes.toNat + 128 ∧
        a.txHeavyBytes.toNat - b.txHeavyBytes.toNat < heavyBytes + 128 := by
  intro unit time bytes heavyBytes
  have hunit : 0 < unit := Nat.mul_pos (by decide) hmulti
  obtain ⟨hval, hpromoted⟩ := getBytesDelta_stamp hmulti' hbytes hbytes'
  obtain ⟨hval', hpromoted'⟩ := getHBytesDelta_stamp (c := c) hheavy hheavy'
  have hdelta := getTimeDelta_stamp (c := c) htime htime'
  refine ⟨⟨hdelta, ?_⟩,
    ⟨hval, hpromoted.trans (congrArg some hval), units_sub_lt hunit hbytes⟩, hval',
    hpromoted'.trans (congrArg some hval'), units_sub_lt (by decide) hheavy⟩
  rw [IntHop.getTimeDelta_eq] at hdelta
  have hfield := Promoted.fieldDelta_eq (by decide) (a.stamp c).time_lt (b.stamp c).time_lt
  rw [hdelta] at hfield
  exact hfield

/-- Stamps across a wrap of each of the fields, with the largest multiplier. -/
theorem stamp_deltas_across_wraps :
    let c : IntConfig := ⟨.normal, 2, 32⟩
    let b : Departure := ⟨false, 16777000, 4294963200, 0, 100000000000, true, 134217600, 3⟩
    let a : Departure := ⟨false, 16778000, 4294975488, 0, 100000000000, true, 134218240, 3⟩
    (a.stamp c).getTimeDelta (b.stamp c) = 1000 ∧
      ((a.stamp c).getBytesDelta c (b.stamp c)).toNat = 12288 ∧
      ((a.stamp c).getHBytesDelta (b.stamp c)).toNat = 640 := by
  intro c b a
  have h := stamp_deltas c (by decide) (by decide) b a (by decide +kernel) (by decide +kernel)
    (by decide +kernel) (by decide +kernel) (by decide +kernel) (by decide +kernel)
  exact ⟨h.1.1.trans (by decide +kernel), h.2.1.1.trans (by decide +kernel),
    h.2.2.1.trans (by decide +kernel)⟩

end HpccSim
