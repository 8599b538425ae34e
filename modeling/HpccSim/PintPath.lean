import HpccSim.IntStamp
import HpccSim.Lib.RoundedLog

/-!
# The power of PINT

In HPCC-PINT the telemetry of a packet is one number, the power to which a base has to be raised to
get the utilisation of the most utilised link (`Pint::encode_u`, `pint.cc`); a switch writes its
power if it is greater than the one in the packet (`SwitchNode::SwitchNotifyDequeue`). The width of
the field, `pint_bytes`, is that of the power of the largest utilisation that is expected,
`max_concurrent`. Nothing keeps a utilisation below that, and with the default base its power is
itself one more than a byte can hold; a power that is written into one byte loses the rest.

The logarithms are those of exact arithmetic. How a switch estimates its utilisation is left open.

## Main definitions

* `LogBase`, with `LogBase.encodeU`, `LogBase.getNBytes`: the encoding.
* `IntHeader.getPower`, `IntHeader.setPowerBytes`: the field, and `Overlay` the same in place.
* `switchNotifyDequeuePint`, `senderPower`: a packet on its way, and what the sender reads.

## Main results

* `LogBase.getNBits_eq_ceil`: the number of bits is that of the real logarithms.
* `LogBase.encodeU_lt`: which utilisations have a power below `256`.
* `senderPower_eq_max_iff`: when the sender reads the maximum of the path.
-/

namespace HpccSim

open ByteOrder RoundedLog

/-! ### The encoding -/

/-- `Pint::max_concurrent`. -/
def maxConcurrent : ℕ := 512

/-- `Pint::log_base`. -/
structure LogBase where
  base : ℚ
  one_lt : 1 < base

namespace LogBase

variable (b : LogBase)

/-- `Pint::get_n_bits`. -/
def getNBits : ℤ :=
  ceilLogLog b.one_lt (x := ((maxConcurrent * maxConcurrent : ℕ) : ℚ)) (by decide +kernel)

/-- `Pint::get_n_bytes`, with the division of C. -/
def getNBytes : ℤ := if b.getNBits = 0 then 0 else (b.getNBits - 1).tdiv 8 + 1

/-- `u_toInt` of `Pint::encode_u`. -/
def uToInt (u : ℚ) : UInt32 :=
  let uToInt : UInt32 := .ofNat ⌈u * maxConcurrent⌉.toNat
  if uToInt = 0 then 1 else uToInt

/-- `Pint::encode_u`, for the value of `rand()`. -/
def encodeU (u : ℚ) (rand : ℕ) : UInt16 :=
  let pUpper : UInt16 := .ofNat (ceilLog b.one_lt (uToInt u).toNat)
  let pLower : UInt16 := .ofNat (floorLog b.one_lt (uToInt u).toNat)
  let lower := b.base ^ pLower.toNat
  let upper := if pUpper = pLower then b.base ^ pUpper.toNat * b.base else b.base ^ pUpper.toNat
  if ((rand % 65536 : ℕ) : ℚ) < ((uToInt u).toNat - lower) / (upper - lower) * 65536 then pUpper
  else pLower

variable {b}

/-- The number of bits is that of the real logarithms. -/
theorem getNBits_eq_ceil :
    b.getNBits = ⌈Real.logb 2 (Real.logb b.base (maxConcurrent * maxConcurrent : ℕ))⌉ :=
  (ceilLogLog_eq_ceil b.one_lt _).trans (by norm_cast)

theorem one_le_uToInt (u : ℚ) : 1 ≤ (uToInt u).toNat := by
  rw [uToInt]
  split_ifs with h
  · decide
  · exact Nat.one_le_iff_ne_zero.2 fun h0 => h (UInt32.toNat_inj.1 h0)

/-- A power is that of the utilisation, rounded up or down. -/
theorem encodeU_eq (u : ℚ) (rand : ℕ) :
    b.encodeU u rand = .ofNat (ceilLog b.one_lt (uToInt u).toNat) ∨
      b.encodeU u rand = .ofNat (floorLog b.one_lt (uToInt u).toNat) := by
  rw [encodeU]
  exact ite_eq_or_eq _ _ _

/-- **A small utilisation has a small power**, whatever the value of `rand()`. -/
theorem encodeU_lt {u : ℚ} (hu : ((uToInt u).toNat : ℚ) ≤ b.base ^ 255) (rand : ℕ) :
    (b.encodeU u rand).toNat < 256 := by
  have hone : (1 : ℚ) ≤ (uToInt u).toNat := by exact_mod_cast one_le_uToInt u
  have hupper : ceilLog b.one_lt (uToInt u).toNat ≤ 255 := (ceilLog_le_iff b.one_lt).2 hu
  have hlower : floorLog b.one_lt (uToInt u).toNat ≤ 255 := by
    have hle := ((le_floorLog_iff b.one_lt hone).1 le_rfl).trans hu
    exact (pow_le_pow_iff_right₀ b.one_lt).1 hle
  rcases encodeU_eq u rand with h | h
  · rw [h, UInt16.toNat_ofNat']
    omega
  · rw [h, UInt16.toNat_ofNat']
    omega

end LogBase

/-! ### The field -/

namespace IntHeader

variable (c : IntConfig) (ih : IntHeader)

/-- `IntHeader::GetPower`. -/
def getPower : UInt16 :=
  if c.mode = .pint then
    if c.pintBytes = 1 then ih.power.toUInt8.toUInt16 else ih.power
  else 0

/-- `IntHeader::SetPower`, which assigns one of the two members. -/
def setPowerBytes (power : UInt16) : IntHeader :=
  if c.mode = .pint then
    if c.pintBytes = 1 then ih.setPowerLo8 power.toUInt8 else ih.setPower power
  else ih

variable {c ih}

theorem toUInt8_power_setPowerLo8 (v : UInt8) : (ih.setPowerLo8 v).power.toUInt8 = v := by
  have hmask : (0xffffffffffffff00 : UInt64).toUInt8 = 0 := rfl
  have hpower : (ih.setPowerLo8 v).power.toUInt8 =
      ((ih.ts &&& 0xffffffffffffff00) ||| v.toUInt64).toUInt8 := by
    simp [IntHeader.power, setPowerLo8, setTs]
  rw [hpower, UInt64.toUInt8_or, UInt64.toUInt8_and, hmask]
  simp

/-- What is read is what was written, as far as the field is wide. -/
theorem getPower_setPowerBytes (hmode : c.mode = .pint) (power : UInt16) :
    (ih.setPowerBytes c power).getPower c =
      if c.pintBytes = 1 then power.toUInt8.toUInt16 else power := by
  rw [getPower, setPowerBytes, if_pos hmode, if_pos hmode]
  split_ifs
  · rw [toUInt8_power_setPowerLo8]
  · rw [power_setPower]

section Pint

variable (hmode : c.mode = .pint) (hbytes : c.pintBytes = 1 ∨ c.pintBytes = 2)

include hmode hbytes

theorem length_serialize_pint (ih : IntHeader) : (ih.serialize c).length = c.pintBytes := by
  rw [serialize, hmode]
  rcases hbytes with h | h <;> simp [h]

/-- **The power is read back.** -/
theorem run_deserialize_pint (ih prev : IntHeader) (rest : Bytes) :
    ∃ ih', (prev.deserialize c).run (ih.serialize c ++ rest) = some (ih', rest) ∧
      ih'.getPower c = ih.getPower c := by
  rw [serialize, deserialize, hmode]
  rcases hbytes with h | h
  · refine ⟨prev.setPowerLo8 ih.power.toUInt8, by simp [h], ?_⟩
    simp [getPower, hmode, h, toUInt8_power_setPowerLo8]
  · refine ⟨prev.setPower ih.power, by simp [h], ?_⟩
    simp [getPower, hmode, h]

end Pint

end IntHeader

namespace Overlay

variable (c : IntConfig)

/-- `IntHeader::GetPower` on the `IntHeader` at the address `a`. -/
def getPower (a : ℕ) (p : Bytes) : UInt16 :=
  if c.mode = .pint then
    if c.pintBytes = 1 then (UInt8.ofNat (load 1 a p)).toUInt16 else loadU16 a p
  else 0

/-- `IntHeader::SetPower` on the `IntHeader` at the address `a`. -/
def setPower (a : ℕ) (power : UInt16) (p : Bytes) : Bytes :=
  if c.mode = .pint then
    if c.pintBytes = 1 then store 1 a power.toUInt8.toNat p else storeU16 a power p
  else p

variable {c} {a : ℕ} {l : Bytes} (hmode : c.mode = .pint)
  (hbytes : c.pintBytes = 1 ∨ c.pintBytes = 2) (hl : l.length = a)

include hmode hbytes hl

/-- The power in the memory is that of the `IntHeader` that is serialized there. -/
theorem getPower_append (ih : IntHeader) (r : Bytes) :
    getPower c a (l ++ (ih.serialize c ++ r)) = ih.getPower c := by
  rw [getPower, IntHeader.getPower, IntHeader.serialize, hmode, if_pos rfl, if_pos rfl]
  rcases hbytes with h | h
  · have hmod : ih.power.toUInt8.toNat % 256 ^ 1 = ih.power.toUInt8.toNat :=
      Nat.mod_eq_of_lt ih.power.toUInt8.toNat_lt
    simp only [h, if_true]
    rw [writeU8, load_append hl, hmod, UInt8.ofNat_toNat]
  · simp only [h, OfNat.ofNat_ne_one, if_false, if_true]
    exact loadU16_append hl _ _

/-- **`SetPower` on the memory** is `SetPower` on the `IntHeader` that is serialized there. -/
theorem setPower_append (power : UInt16) (ih : IntHeader) (r : Bytes) :
    setPower c a power (l ++ (ih.serialize c ++ r)) =
      l ++ ((ih.setPowerBytes c power).serialize c ++ r) := by
  rw [setPower, IntHeader.setPowerBytes, IntHeader.serialize, IntHeader.serialize, hmode,
    if_pos rfl, if_pos rfl]
  rcases hbytes with h | h
  · simp only [h, if_true, IntHeader.toUInt8_power_setPowerLo8]
    exact store_append hl (length_writeU8 _) _ _
  · simp only [h, OfNat.ofNat_ne_one, if_false, if_true, IntHeader.power_setPower]
    exact storeU16_append hl _ _ _

end Overlay

/-! ### Switches -/

/-- What a switch knows when a packet leaves it, with its estimate of the utilisation of the port
and the value of `rand()`. -/
structure PintDeparture extends Departure where
  newU : ℚ
  nonneg : 0 ≤ newU
  rand : ℕ

variable (c : IntConfig) (b : LogBase)

/-- The power of a switch. -/
def PintDeparture.power (d : PintDeparture) : UInt16 := b.encodeU d.newU d.rand

/-- What `SwitchNode::SwitchNotifyDequeue` does to the bytes of a packet if `m_ccMode` is `10`. -/
def switchNotifyDequeuePint (p : Bytes) (d : PintDeparture) : Option Bytes := do
  let p ← d.markPacket p
  if p[14 + 9]? = some 0x11 then
    if d.power b > Overlay.getPower c (14 + 20 + 8 + 6) p then
      return Overlay.setPower c (14 + 20 + 8 + 6) (d.power b) p
    else
      return p
  else
    return p

/-- A packet on its way through switches. -/
def forwardPint (ds : List PintDeparture) (p : Bytes) : Option Bytes :=
  ds.foldlM (switchNotifyDequeuePint c b) p

/-- The power that the sender reads from the reply to a data packet: the packet passes the switches
`ds`, the reply the switches `ds'`. -/
def senderPower (ds ds' : List PintDeparture) (nack : Bool) (expectedSeq : UInt32) (ipid : UInt16)
    (p : Bytes) : Option UInt16 := do
  let p ← forwardPint c b ds p
  let ack ← receiveUdpReply c nack expectedSeq ipid p
  let ack ← forwardPint c b ds' ack
  let ih ← ackTelemetry c ack
  return ih.getPower c

/-- The greatest power of a path. -/
def maxPower (ds : List PintDeparture) : ℕ := (ds.map fun d => (d.power b).toNat).foldl max 0

/-- The telemetry behind a switch. -/
def PintDeparture.push (d : PintDeparture) (ih : IntHeader) : IntHeader :=
  if d.power b > ih.getPower c then ih.setPowerBytes c (d.power b) else ih

/-- The telemetry behind some switches. -/
def pintPushes (ds : List PintDeparture) (ih : IntHeader) : IntHeader :=
  ds.foldl (fun ih d => d.push c b ih) ih

/-- The header behind some switches. -/
def pintMarks (ds : List PintDeparture) (ip : Ipv4Header) : Ipv4Header :=
  marks (ds.map PintDeparture.toDeparture) ip

section Forward

variable {c b} {ip : Ipv4Header} (hip : ip.Plain)

open CustomHeader

include hip

/-- A packet of another protocol is only marked. -/
theorem forwardPint_addIpv4 {protocol : UInt8} (hudp : protocol ≠ 0x11) (ds : List PintDeparture)
    (p : Bytes) : forwardPint c b ds (addIpv4 ip protocol p) =
      some (addIpv4 (pintMarks ds ip) protocol p) := by
  induction ds generalizing ip with
  | nil => rfl
  | cons d ds ih =>
    have hstep : switchNotifyDequeuePint c b (addIpv4 ip protocol p) d =
        some (addIpv4 (d.mark ip) protocol p) := by
      rw [switchNotifyDequeuePint, mark_addIpv4 hip, Option.bind_eq_bind, Option.bind_some,
        addIpv4_protocol, if_neg fun h => hudp (Option.some.inj h)]
      rfl
    rw [forwardPint, List.foldlM_cons, hstep]
    exact ih (hip.mark d.toDeparture)

section DataPacket

variable (hmode : c.mode = .pint) (hbytes : c.pintBytes = 1 ∨ c.pintBytes = 2) (udp : UdpHeader)
  (seq : UInt32) (pg : UInt16) (payloadSize : UInt32)

include hmode hbytes

omit hip in
/-- A data packet: the bytes in front of the power, the power, and the bytes behind it. -/
theorem dataPacket_pint_eq (ip : Ipv4Header) : ∃ (size : ℕ) (r : Bytes), ∀ ih : IntHeader,
    dataPacket c ip udp ⟨seq, pg, ih⟩ payloadSize = addIpv4 ip 0x11
      (udp.serialize size ++ SeqTsHeader.serialize c ⟨seq, pg, ih⟩ ++ r) := by
  refine ⟨8 + (8 + payloadSize.toNat), List.replicate (2 - c.pintBytes) 0 ++
    createPacket payloadSize, fun ih => ?_⟩
  have hlen : (SeqTsHeader.serialize c ⟨seq, pg, ih⟩).length = 6 + c.pintBytes := by
    simp [SeqTsHeader.serialize, IntHeader.length_serialize_pint hmode hbytes]
    omega
  have hsize : SeqTsHeader.getSerializedSize c = 8 := by
    simp [SeqTsHeader.getSerializedSize, IntHeader.getStaticSize, hmode]
  have hpad : 8 - (6 + c.pintBytes) = 2 - c.pintBytes := by omega
  have hinner : addHeader (SeqTsHeader.getSerializedSize c)
      (SeqTsHeader.serialize c ⟨seq, pg, ih⟩) (createPacket payloadSize) =
        SeqTsHeader.serialize c ⟨seq, pg, ih⟩ ++
          (List.replicate (2 - c.pintBytes) 0 ++ createPacket payloadSize) := by
    rw [addHeader, hsize, hlen, hpad, List.append_assoc]
  have hinnerLen : (SeqTsHeader.serialize c ⟨seq, pg, ih⟩ ++
      (List.replicate (2 - c.pintBytes) 0 ++ createPacket payloadSize)).length =
        8 + payloadSize.toNat := by
    rw [List.length_append, hlen, List.length_append, List.length_replicate, length_createPacket]
    omega
  rw [dataPacket, hinner, hinnerLen, addHeader_eq (length_udpSerialize _ _), List.append_assoc]

omit hip in
/-- The power of a data packet is where the switch looks for it. -/
theorem dataPacket_pint_split (ip : Ipv4Header) : ∃ l r : Bytes, l.length = 14 + 20 + 8 + 6 ∧
    ∀ ih, dataPacket c ip udp ⟨seq, pg, ih⟩ payloadSize = l ++ (ih.serialize c ++ r) := by
  obtain ⟨size, r, hpacket⟩ := dataPacket_pint_eq hmode hbytes udp seq pg payloadSize ip
  let n := 8 + (6 + c.pintBytes) + r.length
  let ip' := { ip with protocol := 0x11, payloadSize := UInt16.ofNat n }
  refine ⟨pppSerialize 0x0021 ++ (ip'.serialize ++ (udp.serialize size ++
    (writeHtonU32 seq ++ writeHtonU16 pg))), r, by simp, fun ih => ?_⟩
  have hlen : (udp.serialize size ++ SeqTsHeader.serialize c ⟨seq, pg, ih⟩ ++ r).length = n := by
    simp [SeqTsHeader.serialize, IntHeader.length_serialize_pint hmode hbytes, n]
    omega
  rw [hpacket, addIpv4_eq, hlen]
  simp [SeqTsHeader.serialize, ip']

/-- A data packet is marked, and its power raised. -/
theorem switchNotifyDequeuePint_dataPacket (d : PintDeparture) (ih : IntHeader) :
    switchNotifyDequeuePint c b (dataPacket c ip udp ⟨seq, pg, ih⟩ payloadSize) d =
      some (dataPacket c (d.mark ip) udp ⟨seq, pg, d.push c b ih⟩ payloadSize) := by
  obtain ⟨l, r, hl, hsplit⟩ :=
    dataPacket_pint_split hmode hbytes udp seq pg payloadSize (d.mark ip)
  have hmark : d.markPacket (dataPacket c ip udp ⟨seq, pg, ih⟩ payloadSize) =
      some (dataPacket c (d.mark ip) udp ⟨seq, pg, ih⟩ payloadSize) :=
    mark_addIpv4 hip d.toDeparture 0x11 _
  have hprotocol : (dataPacket c (d.mark ip) udp ⟨seq, pg, ih⟩ payloadSize)[14 + 9]? = some 0x11 :=
    addIpv4_protocol 0x11 _
  rw [switchNotifyDequeuePint, hmark, Option.bind_eq_bind, Option.bind_some, if_pos hprotocol,
    PintDeparture.push, hsplit, Overlay.getPower_append hmode hbytes hl,
    Overlay.setPower_append hmode hbytes hl]
  split_ifs
  · rw [hsplit]
    rfl
  · rw [hsplit]
    rfl

/-- **A data packet behind some switches.** -/
theorem forwardPint_dataPacket (ds : List PintDeparture) (ih : IntHeader) :
    forwardPint c b ds (dataPacket c ip udp ⟨seq, pg, ih⟩ payloadSize) =
      some (dataPacket c (pintMarks ds ip) udp ⟨seq, pg, pintPushes c b ds ih⟩ payloadSize) := by
  induction ds generalizing ip ih with
  | nil => rfl
  | cons d ds hind =>
    rw [forwardPint, List.foldlM_cons, switchNotifyDequeuePint_dataPacket hip hmode hbytes]
    exact hind (hip.mark d.toDeparture) _

omit hip in
theorem run_deserializeInt_pint (ch : CustomHeader) (hget : ch.getInt ≠ 0) (ih : IntHeader)
    (rest : Bytes) : ∃ ih', (ch.deserializeInt c).run (ih.serialize c ++ rest) = some (ih', rest) ∧
      ih'.getPower c = ih.getPower c := by
  rw [deserializeInt, if_pos hget]
  exact IntHeader.run_deserialize_pint hmode hbytes ih _ rest

omit hip in
/-- The power of a data packet is parsed. -/
theorem deserialize_dataPacket_pint (ip : Ipv4Header) (ih : IntHeader) :
    ∃ ih', (new 7).deserialize c (dataPacket c ip udp ⟨seq, pg, ih⟩ payloadSize) =
        some ({ ofIpv4 { ip with protocol := 0x11 } with
          l4 := .udp ⟨udp.sourcePort, udp.destinationPort, 0, pg, seq, ih'⟩ },
          34 + getUdpHeaderSize c) ∧ ih'.getPower c = ih.getPower c := by
  obtain ⟨size, r, hpacket⟩ := dataPacket_pint_eq hmode hbytes udp seq pg payloadSize ip
  have hone : (1 : UInt32) ≠ 0 := by decide
  obtain ⟨ih', hrun, hpower⟩ := run_deserializeInt_pint hmode hbytes
    (ofIpv4 { ip with protocol := 0x11 }) hone ih r
  refine ⟨ih', ?_, hpower⟩
  rw [hpacket]
  exact deserialize_addIpv4 ip 0x11 _ fun l3 hl3 => deserializeL4_udp _ rfl rfl hl3
    (run_deserializeUdp_of hone udp size ⟨seq, pg, ih⟩ hrun) _

omit hip in
/-- The power of a reply is parsed. -/
theorem ackTelemetry_ackPacket_pint (ip : Ipv4Header) (nack : Bool) (seqh : QbbHeader) :
    ∃ ih', ackTelemetry c (ackPacket c ip nack seqh) = some ih' ∧
      ih'.getPower c = seqh.ih.getPower c := by
  have hone : (1 : UInt32) ≠ 0 := by decide
  obtain ⟨r, hpacket⟩ : ∃ r, ackPacket c ip nack seqh =
      addIpv4 ip (if nack then 0xFD else 0xFC) (seqh.serialize c ++ r) :=
    ⟨_, congrArg (addIpv4 ip _) (List.append_assoc _ _ _)⟩
  obtain ⟨ih', hrun, hpower⟩ := run_deserializeInt_pint hmode hbytes
    (ofIpv4 { ip with protocol := if nack then 0xFD else 0xFC }) hone seqh.ih r
  refine ⟨ih', ?_, hpower⟩
  rw [ackTelemetry, hpacket, deserialize_addIpv4 ip _ _ fun l3 _ =>
    deserializeL4_ack _ rfl (ackProtocol nack) (run_deserializeAck_of seqh hrun) _ _]
  rfl

/-- **What the sender reads** is the power behind the switches that the data packet has passed. -/
theorem senderPower_dataPacket (ds ds' : List PintDeparture) (nack : Bool) (expectedSeq : UInt32)
    (ipid : UInt16) (ih : IntHeader) :
    senderPower c b ds ds' nack expectedSeq ipid (dataPacket c ip udp ⟨seq, pg, ih⟩ payloadSize) =
      some ((pintPushes c b ds ih).getPower c) := by
  obtain ⟨ih₁, hparse, hpower₁⟩ := deserialize_dataPacket_pint hmode hbytes udp seq pg payloadSize
    (pintMarks ds ip) (pintPushes c b ds ih)
  obtain ⟨head, seqh, hhead, rfl, hreply⟩ : ∃ (head : Ipv4Header) (seqh : QbbHeader),
      head.Plain ∧ seqh.ih = ih₁ ∧ receiveUdpReply c nack expectedSeq ipid
        (dataPacket c (pintMarks ds ip) udp ⟨seq, pg, pintPushes c b ds ih⟩ payloadSize) =
          some (ackPacket c head nack seqh) := by
    refine ⟨
      { payloadSize := 0, identification := ipid, tos := 0, ttl := 64, protocol := 0, flags := 0,
        fragmentOffset := 0, source := (pintMarks ds ip).destination,
        destination := (pintMarks ds ip).source },
      { sport := udp.destinationPort, dport := udp.sourcePort, pg := pg, seq := expectedSeq,
        ih := ih₁, flags := if (pintMarks ds ip).tos &&& 0x3 ≠ 0 then 1 else 0 },
      ⟨rfl, rfl⟩, rfl, ?_⟩
    rw [receiveUdpReply, hparse]
    rfl
  have hprotocol : (if nack then 0xFD else 0xFC : UInt8) ≠ 0x11 := by
    cases nack <;> decide
  have hforward : forwardPint c b ds' (ackPacket c head nack seqh) =
      some (ackPacket c (pintMarks ds' head) nack seqh) :=
    forwardPint_addIpv4 hhead hprotocol ds' _
  obtain ⟨ih₂, htelemetry, hpower₂⟩ :=
    ackTelemetry_ackPacket_pint hmode hbytes (pintMarks ds' head) nack seqh
  rw [senderPower, forwardPint_dataPacket hip hmode hbytes]
  simp only [Option.bind_eq_bind, Option.bind_some, hreply, hforward, htelemetry]
  exact congrArg some (hpower₂.trans hpower₁)

end DataPacket

end Forward

/-! ### The maximum -/

section Maximum

variable {c b} (hmode : c.mode = .pint)

include hmode

/-- A field of one byte holds less than `256`. -/
theorem getPower_lt (hbytes : c.pintBytes = 1) (ih : IntHeader) : (ih.getPower c).toNat < 256 := by
  rw [IntHeader.getPower, if_pos hmode, if_pos hbytes, UInt8.toNat_toUInt16]
  exact ih.power.toUInt8.toNat_lt

/-- A power that fits is kept if it is greater. -/
theorem getPower_push {d : PintDeparture} (hfit : c.pintBytes = 1 → (d.power b).toNat < 256)
    (ih : IntHeader) :
    ((d.push c b ih).getPower c).toNat = max (ih.getPower c).toNat (d.power b).toNat := by
  rw [PintDeparture.push]
  split_ifs with hgt
  · have hlt := UInt16.lt_iff_toNat_lt.1 hgt
    rw [IntHeader.getPower_setPowerBytes hmode, max_eq_right hlt.le]
    split_ifs with h
    · rw [UInt8.toNat_toUInt16, UInt16.toNat_toUInt8, Nat.mod_eq_of_lt (hfit h)]
    · rfl
  · exact (max_eq_left (UInt16.le_iff_toNat_le.1 (UInt16.not_lt.1 hgt))).symm

/-- The power behind some switches is the maximum, if all of them fit. -/
theorem getPower_pintPushes {ds : List PintDeparture}
    (hfit : ∀ d ∈ ds, c.pintBytes = 1 → (d.power b).toNat < 256) (ih : IntHeader) :
    ((pintPushes c b ds ih).getPower c).toNat =
      (ds.map fun d => (d.power b).toNat).foldl max (ih.getPower c).toNat := by
  induction ds generalizing ih with
  | nil => rfl
  | cons d ds hind =>
    rw [List.map_cons, List.foldl_cons, ← getPower_push hmode (hfit d List.mem_cons_self) ih]
    exact hind (fun d' hd' => hfit d' (List.mem_cons_of_mem _ hd')) _

omit hmode in
theorem le_foldl_max (l : List ℕ) (a : ℕ) : a ≤ l.foldl max a ∧ ∀ x ∈ l, x ≤ l.foldl max a := by
  induction l generalizing a with
  | nil => exact ⟨le_rfl, fun x hx => absurd hx List.not_mem_nil⟩
  | cons y l ih =>
    obtain ⟨hacc, hmem⟩ := ih (max a y)
    refine ⟨(le_max_left a y).trans hacc, fun x hx => ?_⟩
    rcases List.mem_cons.1 hx with rfl | hx
    · exact (le_max_right a x).trans hacc
    · exact hmem x hx

/-- **PINT carries the maximum of the path** exactly if the field has two bytes or no power needs
more than one. -/
theorem senderPower_eq_max_iff (hbytes : (c.pintBytes : ℤ) = b.getNBytes)
    (hwidth : b.getNBytes = 1 ∨ b.getNBytes = 2) (sip dip : UInt32) (sport dport pg ipid : UInt16)
    (sndNxt : UInt64) (payloadSize : UInt32) (ds ds' : List PintDeparture) (nack : Bool)
    (expectedSeq : UInt32) (ipid' : UInt16) :
    (∃ power, senderPower c b ds ds' nack expectedSeq ipid'
        (getNxtPacket c sip dip sport dport pg ipid sndNxt payloadSize) = some power ∧
      power.toNat = maxPower b ds) ↔
      b.getNBytes = 2 ∨ ∀ d ∈ ds, (d.power b).toNat < 256 := by
  have hbytes' : c.pintBytes = 1 ∨ c.pintBytes = 2 := by omega
  have hplain : ({
      payloadSize := 0, identification := ipid, tos := 0, ttl := 64, protocol := 0, flags := 0,
      fragmentOffset := 0, source := sip, destination := dip } : Ipv4Header).Plain := ⟨rfl, rfl⟩
  have hsender := senderPower_dataPacket (b := b) hplain hmode hbytes'
    { sourcePort := sport, destinationPort := dport } sndNxt.toUInt32 pg payloadSize ds ds' nack
    expectedSeq ipid' .new
  rw [getNxtPacket, hsender]
  have hnew : ((IntHeader.new).getPower c).toNat = 0 := by
    rw [IntHeader.getPower]
    split_ifs <;> rfl
  constructor
  · rintro ⟨power, hpower, hmax⟩
    by_contra hcon
    obtain ⟨htwo, hbig⟩ := not_or.1 hcon
    push Not at hbig
    obtain ⟨d, hd, hge⟩ := hbig
    cases hpower
    have hlt := getPower_lt (c := c) hmode (by omega) (pintPushes c b ds .new)
    have hle := (le_foldl_max (ds.map fun d => (d.power b).toNat) 0).2 _
      (List.mem_map_of_mem hd)
    rw [← maxPower] at hle
    omega
  · intro hfit
    refine ⟨_, rfl, ?_⟩
    rw [getPower_pintPushes hmode ?_, hnew, maxPower]
    intro d hd hone
    rcases hfit with h | h
    · omega
    · exact h d hd

end Maximum

/-! ### The default base -/

/-- The default of `log_base`. -/
def defaultBase : LogBase := ⟨105 / 100, by norm_num⟩

/-- With the default base the power has one byte. -/
theorem getNBytes_defaultBase : defaultBase.getNBytes = 1 := by
  have hbits : defaultBase.getNBits = (7 + 1 : ℕ) :=
    ceilLogLog_eq_succ _ _ (by decide +kernel) (by decide +kernel)
  rw [LogBase.getNBytes, hbits]
  decide

/-- The power of the largest utilisation that is expected needs another bit. -/
theorem encodeU_defaultBase : defaultBase.encodeU 512 0 = 256 := by
  have hu : LogBase.uToInt 512 = 262144 := by decide +kernel
  have hlt : (105 / 100 : ℚ) ^ 255 < 262144 := by decide +kernel
  have hle : (262144 : ℚ) ≤ (105 / 100 : ℚ) ^ 256 := by decide +kernel
  have hupper : ceilLog defaultBase.one_lt ((262144 : ℕ) : ℚ) = 256 :=
    ceilLog_eq_succ _ (by exact_mod_cast hlt) (by exact_mod_cast hle)
  have hlower : floorLog defaultBase.one_lt ((262144 : ℕ) : ℚ) = 255 :=
    floorLog_eq _ (by norm_num) (by exact_mod_cast hlt.le) (lt_of_le_of_ne (by exact_mod_cast hle)
      (by decide +kernel))
  have hcast : (262144 : UInt32).toNat = 262144 := rfl
  rw [LogBase.encodeU, hu, hcast, hupper, hlower]
  decide +kernel

/-- A switch with the utilisation `u`. -/
def utilised (u : ℚ) (nonneg : 0 ≤ u) : PintDeparture where
  egressCongested := false
  now := 8000
  txBytes := 1000
  nBytesTotal := 0
  bitRate := 100000000000
  isBigFlow := false
  txHeavyBytes := 0
  card := 0
  newU := u
  nonneg := nonneg
  rand := 0

/-- A path of two switches, the first of which is the more utilised one. -/
def twoSwitches : List PintDeparture :=
  [utilised (3 / 2) (by norm_num), utilised (1 / 2) (by norm_num)]

/-- The two powers fit. -/
theorem senderPower_eq_max_iff_twoSwitches :
    ∃ power, senderPower ⟨.pint, 1, 1⟩ defaultBase twoSwitches twoSwitches false 1000 7
        (getNxtPacket ⟨.pint, 1, 1⟩ 0x0b000001 0x0b000101 10000 100 3 7 0 1000) = some power ∧
      power.toNat = maxPower defaultBase twoSwitches := by
  refine (senderPower_eq_max_iff rfl getNBytes_defaultBase.symm (.inl getNBytes_defaultBase) _ _ _ _
    _ _ _ _ _ _ _ _ _).2 (.inr fun d hd => ?_)
  rcases List.mem_cons.1 hd with rfl | hd
  · exact LogBase.encodeU_lt (by decide +kernel) _
  · obtain rfl := List.mem_singleton.1 hd
    exact LogBase.encodeU_lt (by decide +kernel) _

/-- **A utilisation of `512`** has the power `256` of the default base, which one byte does not
hold. -/
theorem senderPower_ne_max :
    ¬ ∀ (c : IntConfig) (b : LogBase), c.mode = .pint → (c.pintBytes : ℤ) = b.getNBytes →
      b.getNBytes = 1 ∨ b.getNBytes = 2 → ∀ sip dip sport dport pg ipid sndNxt payloadSize ds ds'
        nack expectedSeq ipid', ∃ power, senderPower c b ds ds' nack expectedSeq ipid'
          (getNxtPacket c sip dip sport dport pg ipid sndNxt payloadSize) = some power ∧
        power.toNat = maxPower b ds := by
  intro h
  obtain ⟨power, hpower, hmax⟩ := h ⟨.pint, 1, 1⟩ defaultBase rfl getNBytes_defaultBase.symm
    (.inl getNBytes_defaultBase) 0x0b000001 0x0b000101 10000 100 3 7 0 1000
    [utilised 512 (by norm_num)] [] false 1000 7
  rw [getNxtPacket, senderPower_dataPacket ⟨rfl, rfl⟩ rfl (.inl rfl)] at hpower
  cases hpower
  have hlt := getPower_lt (c := ⟨.pint, 1, 1⟩) rfl rfl
    (pintPushes ⟨.pint, 1, 1⟩ defaultBase [utilised 512 (by norm_num)] .new)
  have hpow : (utilised 512 (by norm_num)).power defaultBase = 256 := encodeU_defaultBase
  rw [hmax, maxPower, List.map_cons, hpow] at hlt
  revert hlt
  decide

end HpccSim
