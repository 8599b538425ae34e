import HpccSim.EgressQueue
import HpccSim.IntHeader

/-!
# Headers on the wire

The packets of the simulation are built by one set of header classes and parsed by another.
`SeqTsHeader`, `UdpHeader`, `qbbHeader`, `PauseHeader`, `CnHeader`, `Ipv4Header` and `PppHeader`
each write their fields in front of what is there already; `CustomHeader` (`custom-header.cc`) reads
all layers in one pass and reports how long they are.

A packet is the sequence of its bytes. The union of `CustomHeader` holds the member that was written
last; a member that has not been written has no value in the source, and the default here.

## Main definitions

* `SeqTsHeader`, `UdpHeader`, `QbbHeader`, `CnHeader`, `Ipv4Header`, with `serialize`.
* `dataPacket`, `ackPacket`, `pfcPacket`, `cnpPacket`: the packets that are built.
* `CustomHeader`, with `deserialize` and `getSerializedSize`.

## Main results

* `CustomHeader.deserialize_packets`: what was written is what is parsed, and the sizes agree.
-/

namespace HpccSim

open ByteOrder

/-! ### The headers that are written -/

/-- `SeqTsHeader`. -/
structure SeqTsHeader where
  seq : UInt32
  pg : UInt16
  ih : IntHeader

/-- `UdpHeader`, without a checksum. -/
structure UdpHeader where
  sourcePort : UInt16
  destinationPort : UInt16

/-- `qbbHeader`. -/
structure QbbHeader where
  sport : UInt16
  dport : UInt16
  flags : UInt16
  pg : UInt16
  seq : UInt32
  ih : IntHeader

/-- `CnHeader`. -/
structure CnHeader where
  fid : UInt16
  qIndex : UInt8
  ecnBits : UInt8
  qfb : UInt16
  total : UInt16

/-- `Ipv4Header`, without a checksum. -/
structure Ipv4Header where
  payloadSize : UInt16
  identification : UInt16
  tos : UInt8
  ttl : UInt8
  protocol : UInt8
  flags : UInt8
  fragmentOffset : UInt16
  source : UInt32
  destination : UInt32

variable (c : IntConfig)

/-- `SeqTsHeader::GetSerializedSize`. -/
def SeqTsHeader.getSerializedSize : ℕ := 6 + IntHeader.getStaticSize c

/-- `SeqTsHeader::Serialize`. -/
def SeqTsHeader.serialize (h : SeqTsHeader) : Bytes :=
  writeHtonU32 h.seq ++ writeHtonU16 h.pg ++ h.ih.serialize c

/-- `UdpHeader::Serialize`, at the start of a packet of `size` bytes. -/
def UdpHeader.serialize (h : UdpHeader) (size : ℕ) : Bytes :=
  writeHtonU16 h.sourcePort ++ writeHtonU16 h.destinationPort ++ writeHtonU16 (.ofNat size) ++
    writeU16 0

/-- `qbbHeader::GetSerializedSize`. -/
def QbbHeader.getSerializedSize : ℕ := 2 + 2 + 2 + 2 + 4 + IntHeader.getStaticSize c

/-- `qbbHeader::Serialize`. -/
def QbbHeader.serialize (h : QbbHeader) : Bytes :=
  writeU16 h.sport ++ writeU16 h.dport ++ writeU16 h.flags ++ writeU16 h.pg ++ writeU32 h.seq ++
    h.ih.serialize c

/-- `PauseHeader::Serialize`; the class is kept in 8 bits. -/
def PauseHeader.serialize (h : PauseHeader) : Bytes :=
  writeU32 h.time ++ writeU32 h.qlen ++ writeU8 (.ofNat h.qIndex)

/-- `CnHeader::Serialize`. -/
def CnHeader.serialize (h : CnHeader) : Bytes :=
  writeU8 h.qIndex ++ writeU16 h.fid ++ writeU8 h.ecnBits ++ writeU16 h.qfb ++ writeU16 h.total

/-- The byte of the flags and the upper bits of the offset in `Ipv4Header::Serialize`. -/
def Ipv4Header.flagsFrag (h : Ipv4Header) : UInt8 :=
  let flagsFrag := (((h.fragmentOffset / 8) >>> 8) &&& 0x1f).toUInt8
  let flagsFrag := if h.flags &&& 1 ≠ 0 then flagsFrag ||| 0x40 else flagsFrag
  if h.flags &&& 2 ≠ 0 then flagsFrag ||| 0x20 else flagsFrag

/-- `Ipv4Header::Serialize`. -/
def Ipv4Header.serialize (h : Ipv4Header) : Bytes :=
  writeU8 0x45 ++ writeU8 h.tos ++ writeHtonU16 (h.payloadSize + 5 * 4) ++
    writeHtonU16 h.identification ++ writeU8 h.flagsFrag ++
    writeU8 ((h.fragmentOffset / 8) &&& 0xff).toUInt8 ++ writeU8 h.ttl ++ writeU8 h.protocol ++
    writeHtonU16 0 ++ writeHtonU32 h.source ++ writeHtonU32 h.destination

/-- `PppHeader::Serialize`. -/
def pppSerialize (protocol : UInt16) : Bytes :=
  writeHtonU16 protocol ++ writeU64 0 ++ writeU32 0

/-! ### The packets that are built -/

/-- `Packet::AddHeader`: make room for `size` bytes in front of `p` and write the header there. A
byte that the header does not write is `0`. -/
def addHeader (size : ℕ) (header p : Bytes) : Bytes :=
  header ++ List.replicate (size - header.length) 0 ++ p

/-- `Create<Packet>`. -/
def createPacket (size : UInt32) : Bytes := List.replicate size.toNat 0

/-- Add the `Ipv4Header` `ip`, with the protocol and the payload size set, and the `PppHeader`. -/
def addIpv4 (ip : Ipv4Header) (protocol : UInt8) (p : Bytes) : Bytes :=
  let ip := { ip with protocol := protocol, payloadSize := .ofNat p.length }
  addHeader 14 (pppSerialize 0x0021) (addHeader 20 ip.serialize p)

/-- The data packet of `RdmaHw::GetNxtPacket`. -/
def dataPacket (ip : Ipv4Header) (udp : UdpHeader) (seqTs : SeqTsHeader) (payloadSize : UInt32) :
    Bytes :=
  let p :=
    addHeader (SeqTsHeader.getSerializedSize c) (seqTs.serialize c) (createPacket payloadSize)
  addIpv4 ip 0x11 (addHeader 8 (udp.serialize (8 + p.length)) p)

/-- The reply of `RdmaHw::ReceiveUdp`, an ACK or a NACK. -/
def ackPacket (ip : Ipv4Header) (nack : Bool) (seqh : QbbHeader) : Bytes :=
  let payloadSize := 60 - 14 - 20 - QbbHeader.getSerializedSize c
  addIpv4 ip (if nack then 0xFD else 0xFC)
    (addHeader (QbbHeader.getSerializedSize c) (seqh.serialize c)
      (createPacket (.ofNat payloadSize)))

/-- The PFC frame of `QbbNetDevice::SendPfc`. -/
def pfcPacket (ip : Ipv4Header) (pauseh : PauseHeader) : Bytes :=
  addIpv4 ip 0xFE (addHeader 9 pauseh.serialize (createPacket 0))

/-- A congestion notification: a `CnHeader` behind an `Ipv4Header` of protocol `0xFF`. -/
def cnpPacket (ip : Ipv4Header) (cn : CnHeader) (payloadSize : UInt32) : Bytes :=
  addIpv4 ip 0xFF (addHeader 8 cn.serialize (createPacket payloadSize))

/-! ### The header that is parsed -/

/-- The member `tcp` of the union. -/
structure TcpFields where
  sport : UInt16
  dport : UInt16
  seq : UInt32
  ack : UInt32
  length : UInt8
  tcpFlags : UInt8
  windowSize : UInt16
  urgentPointer : UInt16
  optionBuf : Bytes
  deriving Inhabited

/-- The member `udp`. -/
structure UdpFields where
  sport : UInt16
  dport : UInt16
  payloadSize : UInt16
  pg : UInt16
  seq : UInt32
  ih : IntHeader

/-- The member `cnp`. -/
structure CnpFields where
  fid : UInt16
  qIndex : UInt8
  qfb : UInt16
  ecnBits : UInt8
  total : UInt16

/-- The member `ack`. -/
structure AckFields where
  sport : UInt16
  dport : UInt16
  flags : UInt16
  pg : UInt16
  seq : UInt32
  ih : IntHeader

/-- The member `pfc`. -/
structure PfcFields where
  time : UInt32
  qlen : UInt32
  qIndex : UInt8

/-- The union of `CustomHeader`: the member that was written last. -/
inductive L4 where
  | none
  | tcp (h : TcpFields)
  | udp (h : UdpFields)
  | cnp (h : CnpFields)
  | ack (h : AckFields)
  | pfc (h : PfcFields)

namespace L4

/-- The member `tcp`. -/
def getTcp : L4 → TcpFields
  | .tcp h => h
  | _ => default

/-- The member `udp.payload_size`. -/
def getPayloadSize : L4 → UInt16
  | .udp h => h.payloadSize
  | _ => 0

/-- The members `udp.ih` and `ack.ih`, which have the same place. -/
def getIh : L4 → IntHeader
  | .udp h => h.ih
  | .ack h => h.ih
  | _ => .new

end L4

/-- `CustomHeader`. -/
structure CustomHeader where
  brief : UInt32
  headerType : UInt32
  getInt : UInt32
  pppProto : UInt16
  payloadSize : UInt16
  ipid : UInt16
  tos : UInt8
  ttl : UInt8
  l3Prot : UInt8
  ipv4Flags : UInt8
  fragmentOffset : UInt16
  sip : UInt32
  dip : UInt32
  checksum : UInt16
  headerSize : UInt16
  l4 : L4

namespace CustomHeader

/-- `CustomHeader::L2_Header`, `L3_Header` and `L4_Header`. -/
def l2Header : UInt32 := 1
def l3Header : UInt32 := 2
def l4Header : UInt32 := 4

/-- `CustomHeader::CustomHeader`. -/
def new (headerType : UInt32) : CustomHeader where
  brief := 1
  headerType := headerType
  getInt := 1
  pppProto := 0
  payloadSize := 0
  ipid := 0
  tos := 0
  ttl := 0
  l3Prot := 0
  ipv4Flags := 0
  fragmentOffset := 0
  sip := 0
  dip := 0
  checksum := 0
  headerSize := 5 * 4
  l4 := .none

/-- `GetAckSerializedSize`. -/
def getAckSerializedSize : ℕ := 2 + 2 + 2 + 2 + 4 + IntHeader.getStaticSize c

/-- `GetUdpHeaderSize`. -/
def getUdpHeaderSize : ℕ := 8 + 2 + 4 + IntHeader.getStaticSize c

variable (ch : CustomHeader)

/-- `GetSerializedSize`. -/
def getSerializedSize : ℕ :=
  (if ch.headerType &&& l2Header ≠ 0 then 14 else 0) +
  (if ch.headerType &&& l3Header ≠ 0 then 5 * 4 else 0) +
  (if ch.headerType &&& l4Header ≠ 0 then
    if ch.l3Prot = 0x6 then ch.l4.getTcp.length.toNat * 4
    else if ch.l3Prot = 0x11 then getUdpHeaderSize c
    else if ch.l3Prot = 0xFC ∨ ch.l3Prot = 0xFD then getAckSerializedSize c
    else if ch.l3Prot = 0xFF then 8
    else if ch.l3Prot = 0xFE then 9
    else 0
  else 0)

/-- `GetIpv4EcnBits`. -/
def getIpv4EcnBits : UInt8 := ch.tos &&& 0x3

/-- The part of `Deserialize` for layer 2: the header, and the size of the layer. -/
def deserializeL2 : Reader (CustomHeader × ℕ) :=
  if ch.headerType &&& l2Header ≠ 0 then do
    let pppProto ← readNtohU16
    next 12
    return ({ ch with pppProto := pppProto }, 14)
  else
    return (ch, 0)

/-- The part for layer 3; `none` if the version is not 4. -/
def deserializeL3 (start : Bytes) (l2Size : ℕ) : Reader (CustomHeader × Option ℕ) :=
  if ch.headerType &&& l3Header ≠ 0 then do
    set (start.drop l2Size)
    let verIhl ← readU8
    let headerSize : UInt16 := (verIhl &&& 0x0f).toUInt16 * 4
    if verIhl >>> 4 ≠ 4 then
      return (ch, none)
    else if ch.brief ≠ 0 then do
      let tos ← readU8
      next 2
      let ipid ← readNtohU16
      next 3
      let l3Prot ← readU8
      next 2
      let sip ← readNtohU32
      let dip ← readNtohU32
      return ({ ch with tos := tos, ipid := ipid, l3Prot := l3Prot, sip := sip, dip := dip },
        some headerSize.toNat)
    else do
      let tos ← readU8
      let size ← readNtohU16
      let ipid ← readNtohU16
      let flags ← readU8
      let frag ← readU8
      let ttl ← readU8
      let l3Prot ← readU8
      let checksum ← readU16
      let sip ← readNtohU32
      let dip ← readNtohU32
      return ({ ch with
        tos := tos
        payloadSize := size - headerSize
        ipid := ipid
        ipv4Flags := (if flags &&& 0x40 ≠ 0 then (1 : UInt8) else 0) |||
          (if flags &&& 0x20 ≠ 0 then (2 : UInt8) else 0)
        fragmentOffset := (((flags &&& 0x1f).toUInt16 <<< 8) ||| frag.toUInt16) <<< 3
        ttl := ttl
        l3Prot := l3Prot
        checksum := checksum
        sip := sip
        dip := dip
        headerSize := headerSize }, some headerSize.toNat)
  else
    return (ch, some 0)

/-- The branch of `Deserialize` for TCP; `none` if the options are discarded. -/
def deserializeTcp : Reader (TcpFields × Option ℕ) := do
  let sport ← readNtohU16
  let dport ← readNtohU16
  let seq ← readNtohU32
  let ack ← readNtohU32
  let field ← readNtohU16
  let tcpFlags := (field &&& 0x3f).toUInt8
  let tcp := { ch.l4.getTcp with
    sport := sport, dport := dport, seq := seq, ack := ack, tcpFlags := tcpFlags }
  if ch.brief ≠ 0 then
    return (tcp, some (tcp.length.toNat * 4))
  else do
    let length := (field >>> 12).toUInt8
    let windowSize ← readNtohU16
    next 2
    let urgentPointer ← readNtohU16
    let tcp := { tcp with
      length := length, windowSize := windowSize, urgentPointer := urgentPointer }
    let optionLen : UInt32 := (length.toUInt32 - 5) * 4
    if optionLen > 32 then
      return (tcp, none)
    else do
      let optionBuf ← take optionLen.toNat
      return ({ tcp with optionBuf := optionBuf }, some (length.toNat * 4))

/-- The end of the UDP header. -/
def deserializeUdpSize : Reader UInt16 :=
  if ch.brief ≠ 0 then do
    next 4
    return ch.l4.getPayloadSize
  else do
    let payloadSize ← readNtohU16
    next 2
    return payloadSize

/-- The `IntHeader`, if it is asked for. -/
def deserializeInt : Reader IntHeader :=
  if ch.getInt ≠ 0 then ch.l4.getIh.deserialize c else return ch.l4.getIh

/-- The branch for UDP and `SeqTsHeader`. -/
def deserializeUdp : Reader UdpFields := do
  let sport ← readNtohU16
  let dport ← readNtohU16
  let payloadSize ← ch.deserializeUdpSize
  let seq ← readNtohU32
  let pg ← readNtohU16
  let ih ← ch.deserializeInt c
  return {
    sport := sport, dport := dport, payloadSize := payloadSize, pg := pg, seq := seq, ih := ih }

/-- The branch for congestion notifications. -/
def deserializeCnp : Reader CnpFields := do
  let qIndex ← readU8
  let fid ← readU16
  let ecnBits ← readU8
  let qfb ← readU16
  let total ← readU16
  return { fid := fid, qIndex := qIndex, qfb := qfb, ecnBits := ecnBits, total := total }

/-- The branch for ACKs and NACKs. -/
def deserializeAck : Reader AckFields := do
  let sport ← readU16
  let dport ← readU16
  let flags ← readU16
  let pg ← readU16
  let seq ← readU32
  let ih ← ch.deserializeInt c
  return { sport := sport, dport := dport, flags := flags, pg := pg, seq := seq, ih := ih }

/-- The branch for PFC frames. -/
def deserializePfc : Reader PfcFields := do
  let time ← readU32
  let qlen ← readU32
  let qIndex ← readU8
  return { time := time, qlen := qlen, qIndex := qIndex }

/-- The part for layer 4, which starts at `offset`; `none` if the options of TCP are discarded. -/
def deserializeL4 (start : Bytes) (offset : ℕ) : Reader (CustomHeader × Option ℕ) :=
  if ch.headerType &&& l4Header ≠ 0 then
    if ch.l3Prot = 0x6 then do
      set (start.drop offset)
      let r ← ch.deserializeTcp
      return ({ ch with l4 := .tcp r.1 }, r.2)
    else if ch.l3Prot = 0x11 then do
      set (start.drop offset)
      let udp ← ch.deserializeUdp c
      return ({ ch with l4 := .udp udp }, some (getUdpHeaderSize c))
    else if ch.l3Prot = 0xFF then do
      let cnp ← deserializeCnp
      return ({ ch with l4 := .cnp cnp }, some 8)
    else if ch.l3Prot = 0xFC ∨ ch.l3Prot = 0xFD then do
      let ack ← ch.deserializeAck c
      return ({ ch with l4 := .ack ack }, some (getAckSerializedSize c))
    else if ch.l3Prot = 0xFE then do
      let pfc ← deserializePfc
      return ({ ch with l4 := .pfc pfc }, some 9)
    else
      return (ch, some 0)
  else
    return (ch, some 0)

/-- `Deserialize`: the header afterwards, and the value returned; `none` if it reads beyond the end
of the packet. -/
def deserialize (start : Bytes) : Option (CustomHeader × ℕ) := do
  let ((ch, l2Size), i) ← ch.deserializeL2.run start
  let ((ch, l3Size), i) ← (ch.deserializeL3 start l2Size).run i
  match l3Size with
  | none => return (ch, 0)
  | some l3Size =>
    let ((ch, l4Size), _) ← (ch.deserializeL4 c start (l2Size + l3Size)).run i
    match l4Size with
    | none => return (ch, 20)
    | some l4Size => return (ch, l2Size + l3Size + l4Size)

/-! ### What is parsed -/

section Parse

variable {c}

theorem addHeader_eq {size : ℕ} {header : Bytes} (h : header.length = size) (p : Bytes) :
    addHeader size header p = header ++ p := by
  simp [addHeader, h]

@[simp] theorem length_pppSerialize (protocol : UInt16) : (pppSerialize protocol).length = 14 := by
  simp [pppSerialize]

@[simp] theorem length_ipv4Serialize (ip : Ipv4Header) : ip.serialize.length = 20 := by
  simp [Ipv4Header.serialize]

@[simp] theorem length_udpSerialize (udp : UdpHeader) (size : ℕ) :
    (udp.serialize size).length = 8 := by
  simp [UdpHeader.serialize]

theorem ackProtocol (nack : Bool) : (if nack then 0xFD else 0xFC : UInt8) = 0xFC ∨
    (if nack then 0xFD else 0xFC : UInt8) = 0xFD := by
  cases nack
  · exact .inl rfl
  · exact .inr rfl

@[simp] theorem length_createPacket (size : UInt32) : (createPacket size).length = size.toNat := by
  simp [createPacket]

theorem addIpv4_eq (ip : Ipv4Header) (protocol : UInt8) (p : Bytes) :
    addIpv4 ip protocol p = pppSerialize 0x0021 ++
      ({ ip with protocol := protocol, payloadSize := .ofNat p.length }.serialize ++ p) := by
  rw [addIpv4, addHeader_eq (length_pppSerialize _), addHeader_eq (length_ipv4Serialize _)]

/-- Layers 2 and 3 of a packet that is parsed for all layers. -/
def ofIpv4 (ip : Ipv4Header) : CustomHeader :=
  { new 7 with
    pppProto := 0x0021
    tos := ip.tos
    ipid := ip.identification
    l3Prot := ip.protocol
    sip := ip.source
    dip := ip.destination }

theorem run_deserializeL2 (protocol : UInt16) (rest : Bytes) :
    (new 7).deserializeL2.run (pppSerialize protocol ++ rest) =
      some (({ new 7 with pppProto := protocol }, 14), rest) := by
  have htype : (new 7).headerType &&& l2Header ≠ 0 := by decide
  rw [deserializeL2, if_pos htype, pppSerialize]
  simp

theorem run_deserializeL3 (ip : Ipv4Header) (rest i : Bytes) :
    ({ new 7 with pppProto := 0x0021 }.deserializeL3
      (pppSerialize 0x0021 ++ (ip.serialize ++ rest)) 14).run i =
        some ((ofIpv4 ip, some 20), rest) := by
  have htype : (new 7).headerType &&& l3Header ≠ 0 := by decide
  have hbrief : (new 7).brief ≠ 0 := by decide
  have hver : (0x45 : UInt8) >>> 4 = 4 := by decide
  have hdrop : (pppSerialize 0x0021 ++ (ip.serialize ++ rest)).drop 14 = ip.serialize ++ rest :=
    List.drop_left' (length_pppSerialize _)
  rw [deserializeL3, if_pos htype, hdrop, Ipv4Header.serialize]
  simp [hbrief, hver, ofIpv4]

/-- **A packet with an `Ipv4Header`** is parsed as the header says, and then as layer 4 has it. -/
theorem deserialize_addIpv4 (ip : Ipv4Header) (protocol : UInt8) (p : Bytes)
    {ch : CustomHeader} {n : ℕ} {i : Bytes}
    (hl4 : ∀ l3 : Bytes, l3.length = 34 →
      ((ofIpv4 { ip with protocol := protocol }).deserializeL4 c (l3 ++ p) 34).run p =
        some ((ch, some n), i)) :
    (new 7).deserialize c (addIpv4 ip protocol p) = some (ch, 34 + n) := by
  obtain ⟨ip', hip⟩ : ∃ ip' : Ipv4Header, ip' = { ip with
    protocol := protocol, payloadSize := .ofNat p.length } := ⟨_, rfl⟩
  have hsame : ofIpv4 ip' = ofIpv4 { ip with protocol := protocol } := by rw [hip]; rfl
  have hparse := hl4 (pppSerialize 0x0021 ++ ip'.serialize) (by simp)
  rw [addIpv4_eq, ← hip, deserialize, run_deserializeL2]
  simp only [Option.bind_eq_bind, Option.bind_some, run_deserializeL3]
  rw [← List.append_assoc (pppSerialize 0x0021), hsame, hparse]
  rfl

theorem run_deserializeInt (hpint : c.mode = .pint → c.pintBytes = 2) {ch : CustomHeader}
    (hget : ch.getInt ≠ 0) (ih : IntHeader) (rest : Bytes) :
    ∃ ih', (ch.deserializeInt c).run (ih.serialize c ++ rest) = some (ih', rest) ∧
      ih'.Agrees c ih := by
  rw [deserializeInt, if_pos hget]
  exact IntHeader.run_deserialize hpint ih _ rest

/-- The header that is parsed says what the `Ipv4Header` of the packet says. -/
structure ReadsIpv4 (ch : CustomHeader) (ip : Ipv4Header) (protocol : UInt8) : Prop where
  sip : ch.sip = ip.source
  dip : ch.dip = ip.destination
  tos : ch.tos = ip.tos
  ecnBits : ch.getIpv4EcnBits = ip.tos &&& 0x3
  protocol : ch.l3Prot = protocol
  ipid : ch.ipid = ip.identification

/-- The sizes that are computed are those of the packet `p`: the headers, and the payload that
`ReceiveUdp` takes to be behind them. -/
structure ReadsSize (c : IntConfig) (ch : CustomHeader) (n : ℕ) (p : Bytes) (payloadSize : UInt32) :
    Prop where
  returned : ch.getSerializedSize c = n
  header : p.length = ch.getSerializedSize c + payloadSize.toNat
  payload : UInt32.ofNat p.length - .ofNat (ch.getSerializedSize c) = payloadSize

theorem ReadsSize.of_length {ch : CustomHeader} {n : ℕ} {p : Bytes} {payloadSize : UInt32}
    (hn : ch.getSerializedSize c = n) (hp : p.length = n + payloadSize.toNat) :
    ReadsSize c ch n p payloadSize := by
  refine ⟨hn, by rw [hn, hp], ?_⟩
  rw [hn, hp, UInt32.ofNat_add, UInt32.ofNat_toNat, UInt32.add_comm, UInt32.add_sub_cancel]

theorem length_addIpv4 (ip : Ipv4Header) (protocol : UInt8) (p : Bytes) :
    (addIpv4 ip protocol p).length = 34 + p.length := by
  rw [addIpv4_eq]
  simp
  omega

theorem deserializeL4_udp (ch : CustomHeader) (htype : ch.headerType = 7) (hprot : ch.l3Prot = 0x11)
    {l p : Bytes} {offset : ℕ} (hl : l.length = offset) {udp : UdpFields} {i : Bytes}
    (hrun : (ch.deserializeUdp c).run p = some (udp, i)) (j : Bytes) :
    (ch.deserializeL4 c (l ++ p) offset).run j =
      some (({ ch with l4 := .udp udp }, some (getUdpHeaderSize c)), i) := by
  have htype : ch.headerType &&& l4Header ≠ 0 := by
    rw [htype]
    decide
  have htcp : ch.l3Prot ≠ 0x6 := by
    rw [hprot]
    decide
  rw [deserializeL4, if_pos htype, if_neg htcp, if_pos hprot, List.drop_left' hl]
  simp only [StateT.run_bind, StateT.run_set, hrun, StateT.run_pure, Option.pure_def,
    Option.bind_eq_bind, Option.bind_some]

theorem deserializeL4_ack (ch : CustomHeader) (htype : ch.headerType = 7)
    (hprot : ch.l3Prot = 0xFC ∨ ch.l3Prot = 0xFD) {p : Bytes} {ack : AckFields} {i : Bytes}
    (hrun : (ch.deserializeAck c).run p = some (ack, i)) (start : Bytes) (offset : ℕ) :
    (ch.deserializeL4 c start offset).run p =
      some (({ ch with l4 := .ack ack }, some (getAckSerializedSize c)), i) := by
  have htype : ch.headerType &&& l4Header ≠ 0 := by
    rw [htype]
    decide
  obtain ⟨htcp, hudp, hcnp⟩ : ch.l3Prot ≠ 0x6 ∧ ch.l3Prot ≠ 0x11 ∧ ch.l3Prot ≠ 0xFF := by
    rcases hprot with hprot | hprot <;> rw [hprot] <;> decide
  rw [deserializeL4, if_pos htype, if_neg htcp, if_neg hudp, if_neg hcnp, if_pos hprot]
  simp only [StateT.run_bind, hrun, StateT.run_pure, Option.pure_def, Option.bind_eq_bind,
    Option.bind_some]

theorem deserializeL4_cnp (ch : CustomHeader) (htype : ch.headerType = 7) (hprot : ch.l3Prot = 0xFF)
    {p : Bytes} {cnp : CnpFields} {i : Bytes} (hrun : deserializeCnp.run p = some (cnp, i))
    (start : Bytes) (offset : ℕ) :
    (ch.deserializeL4 c start offset).run p =
      some (({ ch with l4 := .cnp cnp }, some 8), i) := by
  have htype : ch.headerType &&& l4Header ≠ 0 := by
    rw [htype]
    decide
  obtain ⟨htcp, hudp⟩ : ch.l3Prot ≠ 0x6 ∧ ch.l3Prot ≠ 0x11 := by
    rw [hprot]
    decide
  rw [deserializeL4, if_pos htype, if_neg htcp, if_neg hudp, if_pos hprot]
  simp only [StateT.run_bind, hrun, StateT.run_pure, Option.pure_def, Option.bind_eq_bind,
    Option.bind_some]

theorem deserializeL4_pfc (ch : CustomHeader) (htype : ch.headerType = 7) (hprot : ch.l3Prot = 0xFE)
    {p : Bytes} {pfc : PfcFields} {i : Bytes} (hrun : deserializePfc.run p = some (pfc, i))
    (start : Bytes) (offset : ℕ) :
    (ch.deserializeL4 c start offset).run p =
      some (({ ch with l4 := .pfc pfc }, some 9), i) := by
  have htype : ch.headerType &&& l4Header ≠ 0 := by
    rw [htype]
    decide
  obtain ⟨htcp, hudp, hcnp, hack⟩ : ch.l3Prot ≠ 0x6 ∧ ch.l3Prot ≠ 0x11 ∧ ch.l3Prot ≠ 0xFF ∧
      ¬(ch.l3Prot = 0xFC ∨ ch.l3Prot = 0xFD) := by
    rw [hprot]
    decide
  rw [deserializeL4, if_pos htype, if_neg htcp, if_neg hudp, if_neg hcnp, if_neg hack, if_pos hprot]
  simp only [StateT.run_bind, hrun, StateT.run_pure, Option.pure_def, Option.bind_eq_bind,
    Option.bind_some]

/-- The size of the header, as the protocol has it. -/
theorem getSerializedSize_eq {ch : CustomHeader} (htype : ch.headerType = 7) :
    ch.getSerializedSize c = 34 +
      (if ch.l3Prot = 0x6 then ch.l4.getTcp.length.toNat * 4
      else if ch.l3Prot = 0x11 then getUdpHeaderSize c
      else if ch.l3Prot = 0xFC ∨ ch.l3Prot = 0xFD then getAckSerializedSize c
      else if ch.l3Prot = 0xFF then 8
      else if ch.l3Prot = 0xFE then 9
      else 0) := by
  have hl2 : ch.headerType &&& l2Header ≠ 0 := by
    rw [htype]
    decide
  have hl3 : ch.headerType &&& l3Header ≠ 0 := by
    rw [htype]
    decide
  have hl4 : ch.headerType &&& l4Header ≠ 0 := by
    rw [htype]
    decide
  rw [getSerializedSize, if_pos hl2, if_pos hl3, if_pos hl4]

/-- The UDP header and the `SeqTsHeader` are parsed as the telemetry is. -/
theorem run_deserializeUdp_of {ch : CustomHeader} (hbrief : ch.brief ≠ 0) (udp : UdpHeader)
    (size : ℕ) (seqTs : SeqTsHeader) {ih : IntHeader} {rest : Bytes}
    (hih : (ch.deserializeInt c).run (seqTs.ih.serialize c ++ rest) = some (ih, rest)) :
    (ch.deserializeUdp c).run (udp.serialize size ++ seqTs.serialize c ++ rest) =
      some (⟨udp.sourcePort, udp.destinationPort, ch.l4.getPayloadSize, seqTs.pg, seqTs.seq, ih⟩,
        rest) := by
  rw [deserializeUdp, deserializeUdpSize, if_pos hbrief, UdpHeader.serialize, SeqTsHeader.serialize]
  simp [hih]

/-- A `qbbHeader` is parsed as the telemetry is. -/
theorem run_deserializeAck_of {ch : CustomHeader} (seqh : QbbHeader) {ih : IntHeader}
    {rest : Bytes}
    (hih : (ch.deserializeInt c).run (seqh.ih.serialize c ++ rest) = some (ih, rest)) :
    (ch.deserializeAck c).run (seqh.serialize c ++ rest) =
      some (⟨seqh.sport, seqh.dport, seqh.flags, seqh.pg, seqh.seq, ih⟩, rest) := by
  rw [deserializeAck, QbbHeader.serialize]
  simp [hih]

section Packets

variable (hpint : c.mode = .pint → c.pintBytes = 2) (ip : Ipv4Header)

include hpint

theorem length_seqTs (h : SeqTsHeader) :
    (h.serialize c).length = SeqTsHeader.getSerializedSize c := by
  simp [SeqTsHeader.serialize, SeqTsHeader.getSerializedSize, IntHeader.length_serialize hpint]
  omega

theorem length_qbb (h : QbbHeader) : (h.serialize c).length = QbbHeader.getSerializedSize c := by
  simp [QbbHeader.serialize, QbbHeader.getSerializedSize, IntHeader.length_serialize hpint]
  omega

theorem dataPacket_eq (udp : UdpHeader) (seqTs : SeqTsHeader) (payloadSize : UInt32) :
    dataPacket c ip udp seqTs payloadSize = addIpv4 ip 0x11
      (udp.serialize (8 + (seqTs.serialize c ++ createPacket payloadSize).length) ++
        seqTs.serialize c ++ createPacket payloadSize) := by
  rw [dataPacket, addHeader_eq (length_seqTs hpint seqTs), addHeader_eq (length_udpSerialize _ _),
    List.append_assoc]

theorem ackPacket_eq (nack : Bool) (seqh : QbbHeader) :
    ackPacket c ip nack seqh = addIpv4 ip (if nack then 0xFD else 0xFC) (seqh.serialize c ++
      createPacket (.ofNat (60 - 14 - 20 - QbbHeader.getSerializedSize c))) := by
  rw [ackPacket, addHeader_eq (length_qbb hpint seqh)]

/-- The UDP header and the `SeqTsHeader` are parsed together. -/
theorem run_deserializeUdp (ch : CustomHeader) (hbrief : ch.brief ≠ 0) (hget : ch.getInt ≠ 0)
    (udp : UdpHeader) (size : ℕ) (seqTs : SeqTsHeader) (rest : Bytes) :
    ∃ ih, (ch.deserializeUdp c).run (udp.serialize size ++ seqTs.serialize c ++ rest) =
        some (⟨udp.sourcePort, udp.destinationPort, ch.l4.getPayloadSize, seqTs.pg, seqTs.seq, ih⟩,
          rest) ∧ ih.Agrees c seqTs.ih := by
  obtain ⟨ih, hih, hagrees⟩ := run_deserializeInt hpint hget seqTs.ih rest
  exact ⟨ih, run_deserializeUdp_of hbrief udp size seqTs hih, hagrees⟩

/-- A `qbbHeader` is parsed. -/
theorem run_deserializeAck (ch : CustomHeader) (hget : ch.getInt ≠ 0) (seqh : QbbHeader)
    (rest : Bytes) : ∃ ih, (ch.deserializeAck c).run (seqh.serialize c ++ rest) =
        some (⟨seqh.sport, seqh.dport, seqh.flags, seqh.pg, seqh.seq, ih⟩, rest) ∧
      ih.Agrees c seqh.ih := by
  obtain ⟨ih, hih, hagrees⟩ := run_deserializeInt hpint hget seqh.ih rest
  exact ⟨ih, run_deserializeAck_of seqh hih, hagrees⟩

/-- Data packets. -/
theorem deserialize_dataPacket_eq (udp : UdpHeader) (seqTs : SeqTsHeader) (payloadSize : UInt32) :
    ∃ ih, (new 7).deserialize c (dataPacket c ip udp seqTs payloadSize) =
        some ({ ofIpv4 { ip with protocol := 0x11 } with
          l4 := .udp ⟨udp.sourcePort, udp.destinationPort, 0, seqTs.pg, seqTs.seq, ih⟩ },
          34 + getUdpHeaderSize c) ∧ ih.Agrees c seqTs.ih := by
  have hone : (1 : UInt32) ≠ 0 := by decide
  obtain ⟨ih, hrun, hagrees⟩ := run_deserializeUdp hpint (ofIpv4 { ip with protocol := 0x11 })
    hone hone udp (8 + (seqTs.serialize c ++ createPacket payloadSize).length) seqTs
    (createPacket payloadSize)
  refine ⟨ih, ?_, hagrees⟩
  rw [dataPacket_eq hpint]
  exact deserialize_addIpv4 ip 0x11 _ fun l3 hl3 => deserializeL4_udp _ rfl rfl hl3 hrun _

theorem deserialize_dataPacket (udp : UdpHeader) (seqTs : SeqTsHeader) (payloadSize : UInt32) :
    ∃ ch n h, (new 7).deserialize c (dataPacket c ip udp seqTs payloadSize) = some (ch, n) ∧
      ch.ReadsIpv4 ip 0x11 ∧ ReadsSize c ch n (dataPacket c ip udp seqTs payloadSize) payloadSize ∧
      ch.l4 = .udp h ∧ h.sport = udp.sourcePort ∧ h.dport = udp.destinationPort ∧
      h.pg = seqTs.pg ∧ h.seq = seqTs.seq ∧ h.ih.Agrees c seqTs.ih := by
  obtain ⟨ih, hparse, hagrees⟩ := deserialize_dataPacket_eq hpint ip udp seqTs payloadSize
  refine ⟨_, _, _, hparse, ⟨rfl, rfl, rfl, rfl, rfl, rfl⟩,
    .of_length (getSerializedSize_eq rfl) ?_, rfl, rfl, rfl, rfl, rfl, hagrees⟩
  rw [dataPacket_eq hpint, length_addIpv4, List.length_append, List.length_append,
    length_udpSerialize, length_seqTs hpint, length_createPacket, getUdpHeaderSize,
    SeqTsHeader.getSerializedSize]
  omega

/-- ACKs and NACKs. -/
theorem deserialize_ackPacket_eq (nack : Bool) (seqh : QbbHeader) :
    ∃ ih, (new 7).deserialize c (ackPacket c ip nack seqh) =
        some ({ ofIpv4 { ip with protocol := if nack then 0xFD else 0xFC } with
          l4 := .ack ⟨seqh.sport, seqh.dport, seqh.flags, seqh.pg, seqh.seq, ih⟩ },
          34 + getAckSerializedSize c) ∧ ih.Agrees c seqh.ih := by
  have hone : (1 : UInt32) ≠ 0 := by decide
  obtain ⟨ih, hrun, hagrees⟩ := run_deserializeAck hpint
    (ofIpv4 { ip with protocol := if nack then 0xFD else 0xFC }) hone seqh
    (createPacket (.ofNat (60 - 14 - 20 - QbbHeader.getSerializedSize c)))
  refine ⟨ih, ?_, hagrees⟩
  rw [ackPacket_eq hpint]
  exact deserialize_addIpv4 ip _ _ fun l3 _ => deserializeL4_ack _ rfl (ackProtocol nack) hrun _ _

theorem deserialize_ackPacket (nack : Bool) (seqh : QbbHeader) :
    ∃ ch n h, (new 7).deserialize c (ackPacket c ip nack seqh) = some (ch, n) ∧
      ch.ReadsIpv4 ip (if nack then 0xFD else 0xFC) ∧
      ReadsSize c ch n (ackPacket c ip nack seqh)
        (.ofNat (60 - 14 - 20 - QbbHeader.getSerializedSize c)) ∧
      ch.l4 = .ack h ∧ h.sport = seqh.sport ∧ h.dport = seqh.dport ∧ h.flags = seqh.flags ∧
      h.pg = seqh.pg ∧ h.seq = seqh.seq ∧ h.ih.Agrees c seqh.ih := by
  obtain ⟨ih, hparse, hagrees⟩ := deserialize_ackPacket_eq hpint ip nack seqh
  refine ⟨_, _, _, hparse, ⟨rfl, rfl, rfl, rfl, rfl, rfl⟩,
    .of_length ((getSerializedSize_eq rfl).trans ?_) ?_, rfl, rfl, rfl, rfl, rfl, rfl, hagrees⟩
  · cases nack <;> rfl
  · rw [ackPacket_eq hpint, length_addIpv4, List.length_append, length_qbb hpint,
      length_createPacket, getAckSerializedSize, QbbHeader.getSerializedSize]
    omega

end Packets

/-- PFC frames. -/
theorem deserialize_pfcPacket (ip : Ipv4Header) (pauseh : PauseHeader) :
    ∃ ch n h, (new 7).deserialize c (pfcPacket ip pauseh) = some (ch, n) ∧
      ch.ReadsIpv4 ip 0xFE ∧ ReadsSize c ch n (pfcPacket ip pauseh) 0 ∧
      ch.l4 = .pfc h ∧ h.time = pauseh.time ∧ h.qlen = pauseh.qlen ∧
      h.qIndex = .ofNat pauseh.qIndex := by
  have hlen : pauseh.serialize.length = 9 := by simp [PauseHeader.serialize]
  have hpacket : pfcPacket ip pauseh = addIpv4 ip 0xFE (pauseh.serialize ++ createPacket 0) := by
    rw [pfcPacket, addHeader_eq hlen]
  let ipv4 := ofIpv4 { ip with protocol := 0xFE }
  let h : PfcFields := ⟨pauseh.time, pauseh.qlen, .ofNat pauseh.qIndex⟩
  let ch : CustomHeader := { ipv4 with l4 := .pfc h }
  have hrun : deserializePfc.run (pauseh.serialize ++ createPacket 0) =
      some (h, createPacket 0) := by
    rw [deserializePfc, PauseHeader.serialize]
    simp [h]
  have hparse := deserialize_addIpv4 (c := c) ip 0xFE _ fun l3 _ =>
    deserializeL4_pfc ipv4 rfl rfl hrun _ _
  rw [hpacket]
  refine ⟨ch, _, h, hparse, ⟨rfl, rfl, rfl, rfl, rfl, rfl⟩,
    .of_length (getSerializedSize_eq rfl) ?_, rfl, rfl, rfl, rfl⟩
  rw [length_addIpv4, List.length_append, hlen, length_createPacket, Nat.add_assoc]

/-- Congestion notifications. -/
theorem deserialize_cnpPacket (ip : Ipv4Header) (cn : CnHeader) (payloadSize : UInt32) :
    ∃ ch n, (new 7).deserialize c (cnpPacket ip cn payloadSize) = some (ch, n) ∧
      ch.ReadsIpv4 ip 0xFF ∧ ReadsSize c ch n (cnpPacket ip cn payloadSize) payloadSize ∧
      ch.l4 = .cnp ⟨cn.fid, cn.qIndex, cn.qfb, cn.ecnBits, cn.total⟩ := by
  have hlen : cn.serialize.length = 8 := by simp [CnHeader.serialize]
  have hpacket : cnpPacket ip cn payloadSize =
      addIpv4 ip 0xFF (cn.serialize ++ createPacket payloadSize) := by
    rw [cnpPacket, addHeader_eq hlen]
  let ipv4 := ofIpv4 { ip with protocol := 0xFF }
  let h : CnpFields := ⟨cn.fid, cn.qIndex, cn.qfb, cn.ecnBits, cn.total⟩
  let ch : CustomHeader := { ipv4 with l4 := .cnp h }
  have hrun : deserializeCnp.run (cn.serialize ++ createPacket payloadSize) =
      some (h, createPacket payloadSize) := by
    rw [deserializeCnp, CnHeader.serialize]
    simp [h]
  have hparse := deserialize_addIpv4 (c := c) ip 0xFF _ fun l3 _ =>
    deserializeL4_cnp ipv4 rfl rfl hrun _ _
  rw [hpacket]
  refine ⟨ch, _, hparse, ⟨rfl, rfl, rfl, rfl, rfl, rfl⟩,
    .of_length (getSerializedSize_eq rfl) ?_, rfl⟩
  rw [length_addIpv4, List.length_append, hlen, length_createPacket, Nat.add_assoc]

/-- **The headers that are written and the one that is parsed agree**: for every packet that is
built, what `CustomHeader` reads from all layers is what the separate headers wrote, and it knows
the size of the headers, so that the payload behind them is the one the packet was created with. -/
theorem deserialize_packets (hpint : c.mode = .pint → c.pintBytes = 2) (ip : Ipv4Header) :
    (∀ (udp : UdpHeader) (seqTs : SeqTsHeader) (payloadSize : UInt32),
      ∃ ch n h, (new 7).deserialize c (dataPacket c ip udp seqTs payloadSize) = some (ch, n) ∧
        ch.ReadsIpv4 ip 0x11 ∧
        ReadsSize c ch n (dataPacket c ip udp seqTs payloadSize) payloadSize ∧
        ch.l4 = .udp h ∧ h.sport = udp.sourcePort ∧ h.dport = udp.destinationPort ∧
        h.pg = seqTs.pg ∧ h.seq = seqTs.seq ∧ h.ih.Agrees c seqTs.ih) ∧
    (∀ (nack : Bool) (seqh : QbbHeader),
      ∃ ch n h, (new 7).deserialize c (ackPacket c ip nack seqh) = some (ch, n) ∧
        ch.ReadsIpv4 ip (if nack then 0xFD else 0xFC) ∧
        ReadsSize c ch n (ackPacket c ip nack seqh)
          (.ofNat (60 - 14 - 20 - QbbHeader.getSerializedSize c)) ∧
        ch.l4 = .ack h ∧ h.sport = seqh.sport ∧ h.dport = seqh.dport ∧ h.flags = seqh.flags ∧
        h.pg = seqh.pg ∧ h.seq = seqh.seq ∧ h.ih.Agrees c seqh.ih) ∧
    (∀ pauseh : PauseHeader,
      ∃ ch n h, (new 7).deserialize c (pfcPacket ip pauseh) = some (ch, n) ∧
        ch.ReadsIpv4 ip 0xFE ∧ ReadsSize c ch n (pfcPacket ip pauseh) 0 ∧
        ch.l4 = .pfc h ∧ h.time = pauseh.time ∧ h.qlen = pauseh.qlen ∧
        h.qIndex = .ofNat pauseh.qIndex) ∧
    (∀ (cn : CnHeader) (payloadSize : UInt32),
      ∃ ch n, (new 7).deserialize c (cnpPacket ip cn payloadSize) = some (ch, n) ∧
        ch.ReadsIpv4 ip 0xFF ∧ ReadsSize c ch n (cnpPacket ip cn payloadSize) payloadSize ∧
        ch.l4 = .cnp ⟨cn.fid, cn.qIndex, cn.qfb, cn.ecnBits, cn.total⟩) :=
  ⟨deserialize_dataPacket hpint ip, deserialize_ackPacket hpint ip, deserialize_pfcPacket ip,
    deserialize_cnpPacket ip⟩

/-- A data packet in mode `PINT`. -/
theorem deserialize_packets_pint :
    let c : IntConfig := ⟨.pint, 2, 1⟩
    let ip : Ipv4Header := ⟨0, 7, 3, 64, 0, 0, 0, 0x0b000001, 0x0b000101⟩
    let udp : UdpHeader := ⟨10000, 100⟩
    let seqTs : SeqTsHeader := ⟨4000, 3, (IntHeader.new).setPower 600⟩
    ∃ ch n h, (new 7).deserialize c (dataPacket c ip udp seqTs 1000) = some (ch, n) ∧
      ch.ReadsIpv4 ip 0x11 ∧ ReadsSize c ch n (dataPacket c ip udp seqTs 1000) 1000 ∧
      ch.l4 = .udp h ∧ h.sport = udp.sourcePort ∧ h.dport = udp.destinationPort ∧
      h.pg = seqTs.pg ∧ h.seq = seqTs.seq ∧ h.ih.Agrees c seqTs.ih :=
  (deserialize_packets (fun _ => rfl) _).1 _ _ _

end Parse

end CustomHeader

end HpccSim
