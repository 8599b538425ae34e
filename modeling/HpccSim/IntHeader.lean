import HpccSim.Lib.BitField
import HpccSim.Lib.ByteOrder
import Mathlib.Data.Fin.Tuple.Basic
import Mathlib.Data.UInt

/-!
# In-band telemetry

`Buffer::Iterator` (`buffer.cc`) writes and reads numbers in host order (least significant byte
first) or network order. `IntHeader` (`int-header.h`, `int-header.cc`) is the telemetry that a data
packet collects: in mode `NORMAL` a record for each of up to five switches, in mode `TS` a time
stamp, in mode `PINT` a sampled utilisation. The three share their memory; a record is two words
that are cut into bit fields, of which the first has the lowest bits.

## Main definitions

* `writeU8`, `writeU16`, …, `readNtohU32`: `Buffer::Iterator`.
* `IntHop`, `IntHeader`, with `IntHop.set`, `IntHeader.pushHop`.
* `IntHeader.serialize`, `IntHeader.deserialize`.

## Main results

* `run_readU16`, …, `run_readNtohU32`: what was written is read back.
* `IntHeader.run_deserialize`: so is an `IntHeader`, as far as its mode has it.
-/

namespace HpccSim

open ByteOrder

/-! ### `Buffer::Iterator` -/

def writeU8 (data : UInt8) : Bytes := encode 1 data.toNat
def writeU16 (data : UInt16) : Bytes := encode 2 data.toNat
def writeU32 (data : UInt32) : Bytes := encode 4 data.toNat
def writeU64 (data : UInt64) : Bytes := encode 8 data.toNat
def writeHtonU16 (data : UInt16) : Bytes := (encode 2 data.toNat).reverse
def writeHtonU32 (data : UInt32) : Bytes := (encode 4 data.toNat).reverse

def readU8 : Reader UInt8 := UInt8.ofNat <$> readLE 1
def readU16 : Reader UInt16 := UInt16.ofNat <$> readLE 2
def readU32 : Reader UInt32 := UInt32.ofNat <$> readLE 4
def readU64 : Reader UInt64 := UInt64.ofNat <$> readLE 8
def readNtohU16 : Reader UInt16 := UInt16.ofNat <$> readBE 2
def readNtohU32 : Reader UInt32 := UInt32.ofNat <$> readBE 4

/-- `Buffer::Iterator::Next`. -/
def next (delta : ℕ) : Reader Unit := fun i => some ((), i.drop delta)

section Iterator

variable (rest : Bytes)

@[simp] theorem run_readU8 (v : UInt8) : readU8.run (writeU8 v ++ rest) = some (v, rest) := by
  have hmod : v.toNat % 256 ^ 1 = v.toNat := Nat.mod_eq_of_lt v.toNat_lt
  rw [readU8, writeU8, StateT.run_map, run_readLE, hmod]
  exact congrArg (fun x => some (x, rest)) UInt8.ofNat_toNat

@[simp] theorem run_readU16 (v : UInt16) : readU16.run (writeU16 v ++ rest) = some (v, rest) := by
  have hmod : v.toNat % 256 ^ 2 = v.toNat := Nat.mod_eq_of_lt v.toNat_lt
  rw [readU16, writeU16, StateT.run_map, run_readLE, hmod]
  exact congrArg (fun x => some (x, rest)) UInt16.ofNat_toNat

@[simp] theorem run_readU32 (v : UInt32) : readU32.run (writeU32 v ++ rest) = some (v, rest) := by
  have hmod : v.toNat % 256 ^ 4 = v.toNat := Nat.mod_eq_of_lt v.toNat_lt
  rw [readU32, writeU32, StateT.run_map, run_readLE, hmod]
  exact congrArg (fun x => some (x, rest)) UInt32.ofNat_toNat

@[simp] theorem run_readU64 (v : UInt64) : readU64.run (writeU64 v ++ rest) = some (v, rest) := by
  have hmod : v.toNat % 256 ^ 8 = v.toNat := Nat.mod_eq_of_lt v.toNat_lt
  rw [readU64, writeU64, StateT.run_map, run_readLE, hmod]
  exact congrArg (fun x => some (x, rest)) UInt64.ofNat_toNat

@[simp] theorem run_readNtohU16 (v : UInt16) :
    readNtohU16.run (writeHtonU16 v ++ rest) = some (v, rest) := by
  have hmod : v.toNat % 256 ^ 2 = v.toNat := Nat.mod_eq_of_lt v.toNat_lt
  rw [readNtohU16, writeHtonU16, StateT.run_map, run_readBE, hmod]
  exact congrArg (fun x => some (x, rest)) UInt16.ofNat_toNat

@[simp] theorem run_readNtohU32 (v : UInt32) :
    readNtohU32.run (writeHtonU32 v ++ rest) = some (v, rest) := by
  have hmod : v.toNat % 256 ^ 4 = v.toNat := Nat.mod_eq_of_lt v.toNat_lt
  rw [readNtohU32, writeHtonU32, StateT.run_map, run_readBE, hmod]
  exact congrArg (fun x => some (x, rest)) UInt32.ofNat_toNat

@[simp] theorem run_next_zero : (next 0).run rest = some ((), rest) := rfl

@[simp] theorem run_next {l : Bytes} {n : ℕ} (h : l.length ≤ n) :
    (next n).run (l ++ rest) = (next (n - l.length)).run rest := by
  have hdrop : (l ++ rest).drop n = rest.drop (n - l.length) := by
    rw [List.drop_append, List.drop_eq_nil_of_le h, List.nil_append]
  exact congrArg (fun x => some ((), x)) hdrop

@[simp] theorem length_writeU8 (v : UInt8) : (writeU8 v).length = 1 := length_encode _ _
@[simp] theorem length_writeU16 (v : UInt16) : (writeU16 v).length = 2 := length_encode _ _
@[simp] theorem length_writeU32 (v : UInt32) : (writeU32 v).length = 4 := length_encode _ _
@[simp] theorem length_writeU64 (v : UInt64) : (writeU64 v).length = 8 := length_encode _ _
@[simp] theorem length_writeHtonU16 (v : UInt16) : (writeHtonU16 v).length = 2 := by
  simp [writeHtonU16]
@[simp] theorem length_writeHtonU32 (v : UInt32) : (writeHtonU32 v).length = 4 := by
  simp [writeHtonU32]

end Iterator

/-! ### `IntHeader` -/

/-- `IntHeader::Mode`. -/
inductive IntMode where
  | normal
  | ts
  | pint
  | none
  deriving DecidableEq

/-- The static members of `IntHop` and `IntHeader`. -/
structure IntConfig where
  mode : IntMode
  pintBytes : ℕ
  multi : UInt32

/-- `IntHop`: the two words that its unions are views of. -/
structure IntHop where
  buf : UInt64
  myBuf : UInt64
  deriving DecidableEq

namespace IntHop

/-- The widths of `lineRate`, `time`, `bytes`, `qlen` and `bigflow`. -/
def widths : List ℕ := [3, 24, 20, 16, 1]

/-- The widths of `heavyBytes` and `card1`. -/
def myWidths : List ℕ := [20, 44]

/-- The default, all fields `0`. -/
def zero : IntHop := ⟨0, 0⟩

variable (h : IntHop)

def lineRate : ℕ := BitField.get widths 0 h.buf.toNat
def time : ℕ := BitField.get widths 1 h.buf.toNat
def bytes : ℕ := BitField.get widths 2 h.buf.toNat
def qlen : ℕ := BitField.get widths 3 h.buf.toNat
def bigflow : ℕ := BitField.get widths 4 h.buf.toNat
def heavyBytes : ℕ := BitField.get myWidths 0 h.myBuf.toNat
def card1 : ℕ := BitField.get myWidths 1 h.myBuf.toNat

/-- The assignment to the field `i` of the first word. -/
def store (i v : ℕ) : IntHop := { h with buf := .ofNat (BitField.set widths i v h.buf.toNat) }

/-- The assignment to the field `i` of the second word. -/
def storeMy (i v : ℕ) : IntHop :=
  { h with myBuf := .ofNat (BitField.set myWidths i v h.myBuf.toNat) }

/-- `byteUnit`. -/
def byteUnit : UInt32 := 128

/-- `qlenUnit`. -/
def qlenUnit : UInt32 := 80

/-- The code that `Set` stores for a rate; others leave the field as it is. -/
def rateCode (rate : UInt64) : Option ℕ :=
  if rate = 25000000000 then some 0
  else if rate = 50000000000 then some 1
  else if rate = 100000000000 then some 2
  else if rate = 200000000000 then some 3
  else if rate = 400000000000 then some 4
  else if rate = 2000000000 then some 5
  else if rate = 10000000000 then some 6
  else none

/-- `lineRateValues`. -/
def lineRateValues : List UInt64 :=
  [25000000000, 50000000000, 100000000000, 200000000000, 400000000000, 2000000000, 10000000000, 0]

/-- `GetLineRate`. -/
def getLineRate : UInt64 := lineRateValues.getD h.lineRate 0

/-- `GetQlen`. -/
def getQlen (c : IntConfig) : UInt32 := .ofNat h.qlen * qlenUnit * c.multi

/-- `GetTimeDelta`. -/
def getTimeDelta (b : IntHop) : ℕ :=
  if h.time ≥ b.time then h.time - b.time else h.time + 2 ^ 24 - b.time

/-- `GetBytesDelta`. -/
def getBytesDelta (c : IntConfig) (b : IntHop) : UInt32 :=
  if h.bytes ≥ b.bytes then .ofNat (h.bytes - b.bytes) * byteUnit * c.multi
  else .ofNat (h.bytes + 2 ^ 20 - b.bytes) * byteUnit * c.multi

/-- The field `card0` of the other view of the second word. -/
def card0 : ℕ := BitField.get [48, 16] 1 h.myBuf.toNat

/-- `IntHop::Set`. -/
def set (c : IntConfig) (time bytes : UInt64) (qlen : UInt32) (rate : UInt64) : IntHop :=
  let h := h.store 1 time.toNat
  let h := h.store 2 (bytes / (byteUnit * c.multi).toUInt64).toNat
  let h := h.store 3 (qlen / (qlenUnit * c.multi)).toNat
  match rateCode rate with
  | some code => h.store 0 code
  | none => h

/-- `IntHop::SetMyCC`, which does not use its first argument. -/
def setMyCC (heavyBytes : UInt64) (card : UInt32) : IntHop :=
  (h.storeMy 0 (heavyBytes / byteUnit.toUInt64).toNat).storeMy 1 card.toNat

/-- What `PushHop` does to a record. -/
def stamp (c : IntConfig) (time bytes : UInt64) (qlen : UInt32) (rate : UInt64) (isBigflow : Bool)
    (heavyBytes : UInt64) (card : UInt32) : IntHop :=
  ((h.set c time bytes qlen rate).store 4 (if isBigflow then 1 else 0)).setMyCC heavyBytes card

/-- The loop body of `IntHeader::Serialize`: `buf[0]`, `buf[1]`, `myBuf[0]`, `myBuf[1]`. -/
def serialize : Bytes :=
  writeU32 h.buf.toUInt32 ++ writeU32 (h.buf >>> 32).toUInt32 ++
    writeU32 h.myBuf.toUInt32 ++ writeU32 (h.myBuf >>> 32).toUInt32

/-- The word with the halves `lo` and `hi`. -/
def word (lo hi : UInt32) : UInt64 := lo.toUInt64 ||| (hi.toUInt64 <<< 32)

/-- The loop body of `IntHeader::Deserialize`. -/
def deserialize : Reader IntHop := do
  let buf0 ← readU32
  let buf1 ← readU32
  let myBuf0 ← readU32
  let myBuf1 ← readU32
  return { buf := word buf0 buf1, myBuf := word myBuf0 myBuf1 }

theorem toNat_word (lo hi : UInt32) : (word lo hi).toNat = lo.toNat + 2 ^ 32 * hi.toNat := by
  have hlo := lo.toNat_lt
  have hhi := hi.toNat_lt
  have hshift : hi.toNat <<< 32 % 2 ^ 64 = hi.toNat <<< 32 := by
    rw [Nat.shiftLeft_eq]
    omega
  have hor : (word lo hi).toNat = lo.toNat ||| (hi.toNat <<< 32 % 2 ^ 64) := by
    simp [word, UInt64.toNat_or, UInt64.toNat_shiftLeft]
  rw [hor, hshift, Nat.or_comm, BitField.or_shiftLeft _ hlo]

theorem toNat_shiftRight_toUInt32 (w : UInt64) :
    (w >>> 32).toUInt32.toNat = w.toNat / 2 ^ 32 := by
  have hw := w.toNat_lt
  have hlt : w.toNat / 2 ^ 32 < 2 ^ 32 := by omega
  simp [UInt64.toNat_shiftRight, Nat.shiftRight_eq_div_pow]
  omega

theorem word_halves (w : UInt64) : word w.toUInt32 (w >>> 32).toUInt32 = w := by
  rw [← UInt64.toNat_inj, toNat_word, toNat_shiftRight_toUInt32, UInt64.toNat_toUInt32]
  omega

@[simp] theorem length_serialize : h.serialize.length = 16 := by simp [serialize]

/-- A record is read back. -/
@[simp] theorem run_deserialize (rest : Bytes) :
    deserialize.run (h.serialize ++ rest) = some (h, rest) := by
  simp [deserialize, serialize, word_halves]

end IntHop

/-- `maxHop`. -/
abbrev maxHop : ℕ := 5

/-- `IntHeader`. The members `ts` and `pint.power` are views of the start of the memory. -/
structure IntHeader where
  hop : Fin maxHop → IntHop
  nhop : UInt16
  magicOption : UInt16
  deriving DecidableEq

namespace IntHeader

/-- `IntHeader::IntHeader`. -/
def new : IntHeader where
  hop _ := .zero
  nhop := 0
  magicOption := 0

variable (c : IntConfig) (ih : IntHeader)

/-- The member `ts`. -/
def ts : UInt64 := (ih.hop 0).buf

/-- The member `pint.power`. -/
def power : UInt16 := (ih.hop 0).buf.toUInt16

/-- The assignment to `ts`. -/
def setTs (ts : UInt64) : IntHeader :=
  { ih with hop := Function.update ih.hop 0 { ih.hop 0 with buf := ts } }

/-- The assignment to `pint.power`. -/
def setPower (power : UInt16) : IntHeader :=
  ih.setTs ((ih.ts &&& 0xffffffffffff0000) ||| power.toUInt64)

/-- The assignment to `pint.power_lo8`. -/
def setPowerLo8 (power : UInt8) : IntHeader :=
  ih.setTs ((ih.ts &&& 0xffffffffffffff00) ||| power.toUInt64)

/-- `IntHeader::GetStaticSize`. -/
def getStaticSize : ℕ :=
  match c.mode with
  | .normal => 16 * maxHop + 2 + 2
  | .ts => 8
  | .pint => 2
  | .none => 0

/-- `IntHeader::PushHop`. -/
def pushHop (time bytes : UInt64) (qlen : UInt32) (rate : UInt64) (isBigflow : Bool)
    (heavyBytes : UInt64) (card : UInt32) (p : UInt16) : IntHeader :=
  if c.mode = .normal then
    let idx : Fin maxHop := ⟨ih.nhop.toNat % maxHop, Nat.mod_lt _ (by decide)⟩
    { hop := Function.update ih.hop idx
        ((ih.hop idx).stamp c time bytes qlen rate isBigflow heavyBytes card)
      nhop := ih.nhop + 1
      magicOption := ih.magicOption ||| (if isBigflow then (1 : UInt16) else 0) |||
        ((p % 8) <<< UInt16.ofNat (3 * idx + 1)) }
  else
    ih

/-- The loop of `IntHeader::Serialize`. -/
def serializeHops : {n : ℕ} → (Fin n → IntHop) → Bytes
  | 0, _ => []
  | _ + 1, hop => (hop 0).serialize ++ serializeHops (Fin.tail hop)

/-- The loop of `IntHeader::Deserialize`. -/
def deserializeHops : (n : ℕ) → Reader (Fin n → IntHop)
  | 0 => return Fin.elim0
  | n + 1 => do
    let h ← IntHop.deserialize
    let hops ← deserializeHops n
    return Fin.cons h hops

/-- `IntHeader::Serialize`. -/
def serialize : Bytes :=
  match c.mode with
  | .normal => serializeHops ih.hop ++ writeU16 ih.nhop ++ writeU16 ih.magicOption
  | .ts => writeU64 ih.ts
  | .pint =>
    if c.pintBytes = 1 then writeU8 ih.power.toUInt8
    else if c.pintBytes = 2 then writeU16 ih.power
    else []
  | .none => []

/-- `IntHeader::Deserialize`. -/
def deserialize : Reader IntHeader :=
  match c.mode with
  | .normal => do
    let hop ← deserializeHops maxHop
    let nhop ← readU16
    let magicOption ← readU16
    return { hop := hop, nhop := nhop, magicOption := magicOption }
  | .ts => do
    let ts ← readU64
    return ih.setTs ts
  | .pint =>
    if c.pintBytes = 1 then do
      let lo8 ← readU8
      return ih.setPowerLo8 lo8
    else if c.pintBytes = 2 then do
      let power ← readU16
      return ih.setPower power
    else
      return ih
  | .none => return ih

/-- The two agree in what an `IntHeader` of the mode has. -/
def Agrees (ih ih' : IntHeader) : Prop :=
  match c.mode with
  | .normal => ih = ih'
  | .ts => ih.ts = ih'.ts
  | .pint => ih.power = ih'.power
  | .none => True

variable {c ih}

theorem pushHop_eq (hmode : c.mode = .normal) (time bytes : UInt64) (qlen : UInt32) (rate : UInt64)
    (isBigflow : Bool) (heavyBytes : UInt64) (card : UInt32) (p : UInt16) :
    ih.pushHop c time bytes qlen rate isBigflow heavyBytes card p =
      { hop := Function.update ih.hop ⟨ih.nhop.toNat % maxHop, Nat.mod_lt _ (by decide)⟩
          ((ih.hop ⟨ih.nhop.toNat % maxHop, Nat.mod_lt _ (by decide)⟩).stamp c time bytes qlen rate
            isBigflow heavyBytes card)
        nhop := ih.nhop + 1
        magicOption := ih.magicOption ||| (if isBigflow then (1 : UInt16) else 0) |||
          ((p % 8) <<< UInt16.ofNat (3 * (ih.nhop.toNat % maxHop) + 1)) } :=
  if_pos hmode

@[simp] theorem ts_setTs (ts : UInt64) : (ih.setTs ts).ts = ts := by
  simp [IntHeader.ts, setTs]

@[simp] theorem power_setPower (power : UInt16) : (ih.setPower power).power = power := by
  have hlow : ∀ w : UInt64, ((w &&& 0xffffffffffff0000) ||| power.toUInt64).toUInt16 = power := by
    intro w
    have hmask : (0xffffffffffff0000 : UInt64).toUInt16 = 0 := rfl
    rw [UInt64.toUInt16_or, UInt64.toUInt16_and, hmask]
    simp
  have hpower : (ih.setPower power).power =
      ((ih.ts &&& 0xffffffffffff0000) ||| power.toUInt64).toUInt16 := by
    simp [IntHeader.power, setPower, setTs]
  rw [hpower, hlow]

theorem length_serializeHops {n : ℕ} (hop : Fin n → IntHop) :
    (serializeHops hop).length = 16 * n := by
  induction n with
  | zero => rfl
  | succ n ih =>
    rw [serializeHops, List.length_append, IntHop.length_serialize, ih]
    omega

/-- **`Serialize` writes as many bytes as `GetStaticSize` says.** -/
theorem length_serialize (hpint : c.mode = .pint → c.pintBytes = 2) (ih : IntHeader) :
    (ih.serialize c).length = getStaticSize c := by
  rw [serialize, getStaticSize]
  cases hmode : c.mode with
  | normal => simp [length_serializeHops]
  | ts => simp
  | pint => simp [hpint hmode]
  | none => rfl

theorem run_deserializeHops {n : ℕ} (hop : Fin n → IntHop) (rest : Bytes) :
    (deserializeHops n).run (serializeHops hop ++ rest) = some (hop, rest) := by
  induction n with
  | zero =>
    have hempty : hop = Fin.elim0 := funext fun i => i.elim0
    rw [hempty]
    rfl
  | succ n ih =>
    simp [deserializeHops, serializeHops, ih]

/-- **What was written is read back**, as far as the mode has it. -/
theorem run_deserialize (hpint : c.mode = .pint → c.pintBytes = 2) (ih prev : IntHeader)
    (rest : Bytes) : ∃ ih', (prev.deserialize c).run (ih.serialize c ++ rest) = some (ih', rest) ∧
      ih'.Agrees c ih := by
  rw [serialize, deserialize]
  cases hmode : c.mode with
  | normal => exact ⟨ih, by simp [run_deserializeHops], by simp [Agrees, hmode]⟩
  | ts => exact ⟨prev.setTs ih.ts, by simp, by simp [Agrees, hmode]⟩
  | pint => exact ⟨prev.setPower ih.power, by simp [hpint hmode], by simp [Agrees, hmode]⟩
  | none => exact ⟨prev, rfl, by simp [Agrees, hmode]⟩

end IntHeader

end HpccSim
