import HpccSim.CustomHeader

/-!
# Telemetry in place

A switch of `HPCC` stamps a data packet when it leaves (`SwitchNode::SwitchNotifyDequeue`): it casts
the bytes behind the `SeqTsHeader` to an `IntHeader` and calls `PushHop` on it, so that every
assignment loads a word of the packet, changes a bit field of it and stores it again. Before that it
may have set the ECN bits, for which it takes the headers off and puts them on again. The receiver
parses the packet and sends the telemetry back with the ACK.

## Main definitions

* `Overlay.assign`, `Overlay.pushHop`: `PushHop` on the memory of a packet.
* `Departure`, `switchNotifyDequeue`, `forward`: packets on their way through switches.
* `getNxtPacket`, `receiveUdpReply`: data packets and the replies to them.

## Main results

* `Overlay.pushHop_append`: `PushHop` on the memory is `PushHop` on what is serialized there.
* `forward_getNxtPacket`: what a data packet looks like behind some switches.
* `stamping_commutes`: stamping and parsing commute, and the sender gets the stamps of the path.
-/

namespace HpccSim

open ByteOrder

/-! ### The serialized records -/

namespace IntHop

/-- The two halves of a word are its bytes. -/
theorem writeU64_eq (w : UInt64) :
    writeU64 w = writeU32 w.toUInt32 ++ writeU32 (w >>> 32).toUInt32 := by
  have hlo : encode 4 w.toUInt32.toNat = encode 4 w.toNat := by
    rw [UInt64.toNat_toUInt32]
    exact encode_mod 4 w.toNat
  rw [writeU64, writeU32, writeU32, toNat_shiftRight_toUInt32, hlo]
  exact encode_add 4 4 w.toNat

theorem serialize_eq (h : IntHop) : h.serialize = writeU64 h.buf ++ writeU64 h.myBuf := by
  rw [serialize, writeU64_eq, writeU64_eq, List.append_assoc, List.append_assoc]

end IntHop

namespace IntHeader

/-- The record `i` in the serialized records: what is in front of it and behind it does not depend
on it. -/
theorem serializeHops_split {n : ℕ} (hop : Fin n → IntHop) (i : Fin n) :
    ∃ l r : Bytes, l.length = 16 * i ∧
      ∀ h, serializeHops (Function.update hop i h) = l ++ (h.serialize ++ r) := by
  induction n with
  | zero => exact i.elim0
  | succ n ih =>
    induction i using Fin.cases with
    | zero =>
      refine ⟨[], serializeHops (Fin.tail hop), rfl, fun h => ?_⟩
      rw [serializeHops, Function.update_self, Fin.tail_update_zero, List.nil_append]
    | succ i =>
      obtain ⟨l, r, hl, hsplit⟩ := ih (Fin.tail hop) i
      refine ⟨(hop 0).serialize ++ l, r, ?_, fun h => ?_⟩
      · rw [List.length_append, IntHop.length_serialize, hl, Fin.val_succ]
        omega
      · rw [serializeHops, Function.update_of_ne (Fin.succ_ne_zero i).symm, Fin.tail_update_succ,
          hsplit, List.append_assoc]

end IntHeader

/-! ### The overlay -/

namespace Overlay

/-- An assignment to the field `i` of the 64-bit word at the address `a`. -/
def assign (widths : List ℕ) (i v a : ℕ) (p : Bytes) : Bytes :=
  store 8 a (BitField.set widths i v (load 8 a p)) p

variable (c : IntConfig) (time bytes : UInt64) (qlen : UInt32) (rate : UInt64) (isBigflow : Bool)
  (heavyBytes : UInt64) (card : UInt32) (portion : UInt16)

/-- `IntHop::Set` on the `IntHop` at the address `a`. -/
def set (a : ℕ) (p : Bytes) : Bytes :=
  let p := assign IntHop.widths 1 time.toNat a p
  let p := assign IntHop.widths 2 (bytes / (IntHop.byteUnit * c.multi).toUInt64).toNat a p
  let p := assign IntHop.widths 3 (qlen / (IntHop.qlenUnit * c.multi)).toNat a p
  match IntHop.rateCode rate with
  | some code => assign IntHop.widths 0 code a p
  | none => p

/-- `IntHop::SetMyCC` on the `IntHop` at the address `a`. -/
def setMyCC (a : ℕ) (p : Bytes) : Bytes :=
  let p := assign IntHop.myWidths 0 (heavyBytes / IntHop.byteUnit.toUInt64).toNat (a + 8) p
  assign IntHop.myWidths 1 card.toNat (a + 8) p

/-- The 16-bit number at the address `a`. -/
def loadU16 (a : ℕ) (p : Bytes) : UInt16 := .ofNat (load 2 a p)

/-- The assignment to the 16-bit number at the address `a`. -/
def storeU16 (a : ℕ) (v : UInt16) (p : Bytes) : Bytes := store 2 a v.toNat p

/-- `IntHeader::PushHop` on the `IntHeader` at the address `a`, whose `nhop` is at `a + 80` and
whose `magic_option` is at `a + 82`. -/
def pushHop (a : ℕ) (p : Bytes) : Bytes :=
  if c.mode = .normal then
    let idx := (loadU16 (a + 80) p).toNat % maxHop
    let p := set c time bytes qlen rate (a + 16 * idx) p
    let p := assign IntHop.widths 4 (if isBigflow then 1 else 0) (a + 16 * idx) p
    let p := setMyCC heavyBytes card (a + 16 * idx) p
    let p := storeU16 (a + 80) (loadU16 (a + 80) p + 1) p
    let p := storeU16 (a + 82) (loadU16 (a + 82) p ||| (if isBigflow then (1 : UInt16) else 0)) p
    storeU16 (a + 82) (loadU16 (a + 82) p ||| ((portion % 8) <<< UInt16.ofNat (3 * idx + 1))) p
  else
    p

section Append

variable {c} {a : ℕ} {l : Bytes} (hl : l.length = a)

include hl

theorem assign_append (widths : List ℕ) (i v : ℕ) (w : UInt64) (r : Bytes) :
    assign widths i v a (l ++ (writeU64 w ++ r)) =
      l ++ (writeU64 (.ofNat (BitField.set widths i v w.toNat)) ++ r) := by
  have hw : w.toNat % 256 ^ 8 = w.toNat := Nat.mod_eq_of_lt w.toNat_lt
  rw [assign, writeU64, load_append hl, store_append hl (length_encode _ _), hw, writeU64,
    UInt64.toNat_ofNat', ← encode_mod]
  rfl

theorem assign_buf (i v : ℕ) (h : IntHop) (r : Bytes) :
    assign IntHop.widths i v a (l ++ (h.serialize ++ r)) =
      l ++ ((h.store i v).serialize ++ r) := by
  rw [IntHop.serialize_eq, IntHop.serialize_eq, List.append_assoc, assign_append hl,
    List.append_assoc, IntHop.store]

theorem assign_myBuf (i v : ℕ) (h : IntHop) (r : Bytes) :
    assign IntHop.myWidths i v (a + 8) (l ++ (h.serialize ++ r)) =
      l ++ ((h.storeMy i v).serialize ++ r) := by
  have hl' : (l ++ writeU64 h.buf).length = a + 8 := by simp [hl]
  rw [IntHop.serialize_eq, IntHop.serialize_eq, List.append_assoc, ← List.append_assoc l,
    assign_append hl', List.append_assoc, List.append_assoc, IntHop.storeMy]

theorem set_append (h : IntHop) (r : Bytes) :
    set c time bytes qlen rate a (l ++ (h.serialize ++ r)) =
      l ++ ((h.set c time bytes qlen rate).serialize ++ r) := by
  rw [set, IntHop.set]
  simp only [assign_buf hl]
  cases IntHop.rateCode rate <;> rfl

theorem setMyCC_append (h : IntHop) (r : Bytes) :
    setMyCC heavyBytes card a (l ++ (h.serialize ++ r)) =
      l ++ ((h.setMyCC heavyBytes card).serialize ++ r) := by
  rw [setMyCC, assign_myBuf hl, assign_myBuf hl, IntHop.setMyCC]

theorem loadU16_append (v : UInt16) (r : Bytes) : loadU16 a (l ++ (writeU16 v ++ r)) = v := by
  have hv : v.toNat % 256 ^ 2 = v.toNat := Nat.mod_eq_of_lt v.toNat_lt
  rw [loadU16, writeU16, load_append hl, hv, UInt16.ofNat_toNat]

theorem storeU16_append (v w : UInt16) (r : Bytes) :
    storeU16 a v (l ++ (writeU16 w ++ r)) = l ++ (writeU16 v ++ r) :=
  store_append hl (length_writeU16 w) _ _

/-- The assignments to the record `i`. -/
theorem stamp_append (hop : Fin maxHop → IntHop) (i : Fin maxHop) (r : Bytes) :
    setMyCC heavyBytes card (a + 16 * i)
      (assign IntHop.widths 4 (if isBigflow then 1 else 0) (a + 16 * i)
        (set c time bytes qlen rate (a + 16 * i) (l ++ (IntHeader.serializeHops hop ++ r)))) =
      l ++ (IntHeader.serializeHops (Function.update hop i
        ((hop i).stamp c time bytes qlen rate isBigflow heavyBytes card)) ++ r) := by
  obtain ⟨pre, post, hpre, hsplit⟩ := IntHeader.serializeHops_split hop i
  have hself := hsplit (hop i)
  rw [Function.update_eq_self] at hself
  have hlen : (l ++ pre).length = a + 16 * i := by rw [List.length_append, hl, hpre]
  have hassoc : ∀ h : IntHop, l ++ ((pre ++ (h.serialize ++ post)) ++ r) =
      (l ++ pre) ++ (h.serialize ++ (post ++ r)) := fun h => by simp
  rw [hself, hsplit, hassoc, hassoc, set_append _ _ _ _ hlen, assign_buf hlen,
    setMyCC_append _ _ hlen, IntHop.stamp]

/-- **`PushHop` on the memory** is `PushHop` on the `IntHeader` that is serialized there; the bytes
around it stay. -/
theorem pushHop_append (hmode : c.mode = .normal) (ih : IntHeader) (r : Bytes) :
    pushHop c time bytes qlen rate isBigflow heavyBytes card portion a
        (l ++ (ih.serialize c ++ r)) =
      l ++ ((ih.pushHop c time bytes qlen rate isBigflow heavyBytes card portion).serialize c ++
        r) := by
  have hser : ∀ ih : IntHeader, ih.serialize c =
      IntHeader.serializeHops ih.hop ++ (writeU16 ih.nhop ++ writeU16 ih.magicOption) := by
    intro ih
    rw [IntHeader.serialize, hmode]
    exact List.append_assoc _ _ _
  have hnhop : ∀ hop : Fin maxHop → IntHop, (l ++ IntHeader.serializeHops hop).length = a + 80 :=
    fun hop => by
      rw [List.length_append, hl, IntHeader.length_serializeHops]
      rfl
  have hmagic : ∀ (hop : Fin maxHop → IntHop) (nhop : UInt16),
      (l ++ IntHeader.serializeHops hop ++ writeU16 nhop).length = a + 82 := fun hop nhop => by
    rw [List.length_append, hnhop, length_writeU16]
  have hassoc : ∀ (hop : Fin maxHop → IntHop) (nhop : UInt16) (t : Bytes),
      l ++ (IntHeader.serializeHops hop ++ (writeU16 nhop ++ t)) =
        l ++ IntHeader.serializeHops hop ++ writeU16 nhop ++ t := fun hop nhop t => by simp
  have hload : ∀ (hop : Fin maxHop → IntHop) (nhop : UInt16) (t : Bytes), loadU16 (a + 80)
      (l ++ (IntHeader.serializeHops hop ++ (writeU16 nhop ++ t))) = nhop := fun hop nhop t => by
    rw [← List.append_assoc, loadU16_append (hnhop hop)]
  have hstore : ∀ (hop : Fin maxHop → IntHop) (v nhop : UInt16) (t : Bytes), storeU16 (a + 80) v
      (l ++ (IntHeader.serializeHops hop ++ (writeU16 nhop ++ t))) =
        l ++ (IntHeader.serializeHops hop ++ (writeU16 v ++ t)) := fun hop v nhop t => by
    rw [← List.append_assoc, storeU16_append (hnhop hop), List.append_assoc]
  have hload' : ∀ (hop : Fin maxHop → IntHop) (nhop magic : UInt16), loadU16 (a + 82)
      (l ++ (IntHeader.serializeHops hop ++ (writeU16 nhop ++ (writeU16 magic ++ r)))) = magic :=
    fun hop nhop magic => by rw [hassoc, loadU16_append (hmagic hop nhop)]
  have hstore' : ∀ (hop : Fin maxHop → IntHop) (v nhop magic : UInt16), storeU16 (a + 82) v
      (l ++ (IntHeader.serializeHops hop ++ (writeU16 nhop ++ (writeU16 magic ++ r)))) =
        l ++ (IntHeader.serializeHops hop ++ (writeU16 nhop ++ (writeU16 v ++ r))) :=
    fun hop v nhop magic => by rw [hassoc, storeU16_append (hmagic hop nhop), ← hassoc]
  let i : Fin maxHop := ⟨ih.nhop.toNat % maxHop, Nat.mod_lt _ (by decide)⟩
  have hi : ih.nhop.toNat % maxHop = i := rfl
  rw [hser, hser, pushHop, if_pos hmode, IntHeader.pushHop_eq hmode]
  simp only [List.append_assoc, hload, hi, stamp_append _ _ _ _ _ _ _ hl, hstore, hload', hstore']

end Append

end Overlay

/-! ### Switches -/

/-- `PppHeader::Deserialize`. -/
def pppDeserialize : Reader UInt16 := do
  let protocol ← readNtohU16
  next 12
  return protocol

namespace Ipv4Header

/-- `Ipv4Header::Deserialize`, with `m_headerSize`; it asserts the version. -/
def deserialize : Reader (Ipv4Header × ℕ) := do
  let verIhl ← readU8
  let headerSize : UInt16 := (verIhl &&& 0x0f).toUInt16 * 4
  if verIhl >>> 4 = 4 then do
    let tos ← readU8
    let size ← readNtohU16
    let identification ← readNtohU16
    let flags ← readU8
    let frag ← readU8
    let ttl ← readU8
    let protocol ← readU8
    next 2
    let source ← readNtohU32
    let destination ← readNtohU32
    return ({
      payloadSize := size - headerSize
      identification := identification
      tos := tos
      ttl := ttl
      protocol := protocol
      flags := (if flags &&& 0x40 ≠ 0 then (1 : UInt8) else 0) |||
        (if flags &&& 0x20 ≠ 0 then (2 : UInt8) else 0)
      fragmentOffset := (((flags &&& 0x1f).toUInt16 <<< 8) ||| frag.toUInt16) <<< 3
      source := source
      destination := destination }, headerSize.toNat)
  else
    failure

/-- `Ipv4Header::SetEcn`. -/
def setEcn (h : Ipv4Header) (ecn : UInt8) : Ipv4Header :=
  { h with tos := (h.tos &&& 0xFC) ||| ecn }

end Ipv4Header

/-- The ECN mark of `SwitchNotifyDequeue`. -/
def markEcn (p : Bytes) : Option Bytes := do
  let (protocol, _) ← pppDeserialize.run p
  let p := p.drop 14
  let ((h, headerSize), _) ← Ipv4Header.deserialize.run p
  let p := p.drop headerSize
  return addHeader 14 (pppSerialize protocol) (addHeader headerSize (h.setEcn 0x03).serialize p)

/-- What a switch knows when a packet leaves it: whether the packet is to be marked, the time, and
of the port the bytes sent, the bytes waiting, the rate and the bytes sent of big flows, and the tag
that the sketch has put on the packet. -/
structure Departure where
  egressCongested : Bool
  now : UInt64
  txBytes : UInt64
  nBytesTotal : UInt32
  bitRate : UInt64
  isBigFlow : Bool
  txHeavyBytes : UInt64
  card : UInt32

variable (c : IntConfig)

/-- The bytes of a packet after `m_ecnEnabled` is dealt with. -/
def Departure.markPacket (d : Departure) (p : Bytes) : Option Bytes :=
  if d.egressCongested then markEcn p else some p

/-- What `SwitchNode::SwitchNotifyDequeue` does to the bytes of a packet if `m_ccMode` is `3`. -/
def switchNotifyDequeue (p : Bytes) (d : Departure) : Option Bytes := do
  let p ← d.markPacket p
  if p[14 + 9]? = some 0x11 then
    return Overlay.pushHop c d.now d.txBytes d.nBytesTotal d.bitRate d.isBigFlow d.txHeavyBytes
      d.card 0 (14 + 20 + 8 + 6) p
  else
    return p

/-- A packet on its way through switches. -/
def forward (ds : List Departure) (p : Bytes) : Option Bytes := ds.foldlM (switchNotifyDequeue c) p

/-- The packet of `RdmaHw::GetNxtPacket`, from the fields of the queue pair. -/
def getNxtPacket (sip dip : UInt32) (sport dport pg ipid : UInt16) (sndNxt : UInt64)
    (payloadSize : UInt32) : Bytes :=
  dataPacket c
    { payloadSize := 0, identification := ipid, tos := 0, ttl := 64, protocol := 0, flags := 0,
      fragmentOffset := 0, source := sip, destination := dip }
    { sourcePort := sport, destinationPort := dport }
    { seq := sndNxt.toUInt32, pg := pg, ih := .new } payloadSize

/-- The ACK or NACK of `RdmaHw::ReceiveUdp`, for the next expected sequence number. -/
def receiveUdpReply (nack : Bool) (expectedSeq : UInt32) (ipid : UInt16) (p : Bytes) :
    Option Bytes := do
  let (ch, _) ← (CustomHeader.new 7).deserialize c p
  match ch.l4 with
  | .udp udp =>
    return ackPacket c
      { payloadSize := 0, identification := ipid, tos := 0, ttl := 64, protocol := 0, flags := 0,
        fragmentOffset := 0, source := ch.dip, destination := ch.sip }
      nack
      { sport := udp.dport, dport := udp.sport, pg := udp.pg, seq := expectedSeq, ih := udp.ih,
        flags := if ch.getIpv4EcnBits ≠ 0 then 1 else 0 }
  | _ => none

/-- The telemetry `ch.ack.ih` of a reply, as `RdmaHw::ReceiveAck` reads it. -/
def ackTelemetry (p : Bytes) : Option IntHeader := do
  let (ch, _) ← (CustomHeader.new 7).deserialize c p
  match ch.l4 with
  | .ack ack => return ack.ih
  | _ => none

namespace Departure

variable (d : Departure)

/-- The header behind the switch. -/
def mark (ip : Ipv4Header) : Ipv4Header := if d.egressCongested then ip.setEcn 0x03 else ip

/-- The telemetry behind the switch. -/
def push (ih : IntHeader) : IntHeader :=
  ih.pushHop c d.now d.txBytes d.nBytesTotal d.bitRate d.isBigFlow d.txHeavyBytes d.card 0

/-- The stamp of the switch. -/
def stamp : IntHop :=
  IntHop.zero.stamp c d.now d.txBytes d.nBytesTotal d.bitRate d.isBigFlow d.txHeavyBytes d.card

end Departure

/-- The header behind some switches. -/
def marks (ds : List Departure) (ip : Ipv4Header) : Ipv4Header :=
  ds.foldl (fun ip d => d.mark ip) ip

/-- The telemetry behind some switches. -/
def pushes (ds : List Departure) (ih : IntHeader) : IntHeader :=
  ds.foldl (fun ih d => d.push c ih) ih

/-- A header that is neither a fragment nor forbids fragments, as all are that are built. -/
structure Ipv4Header.Plain (ip : Ipv4Header) : Prop where
  flags : ip.flags = 0
  fragmentOffset : ip.fragmentOffset = 0

section Forward

variable {c} {ip : Ipv4Header} (hip : ip.Plain)

open CustomHeader

@[simp] theorem run_pppDeserialize (protocol : UInt16) (rest : Bytes) :
    pppDeserialize.run (pppSerialize protocol ++ rest) = some (protocol, rest) := by
  simp [pppDeserialize, pppSerialize]

include hip

theorem run_ipv4Deserialize (rest : Bytes) :
    Ipv4Header.deserialize.run (ip.serialize ++ rest) = some ((ip, 20), rest) := by
  have hver : (0x45 : UInt8) >>> 4 = 4 := by decide
  have hflags : ip.flagsFrag = 0 := by
    rw [Ipv4Header.flagsFrag, hip.flags, hip.fragmentOffset]
    decide
  have hihl : ((69 &&& 15) * 4 : UInt16) = 20 := by decide
  rw [Ipv4Header.deserialize, Ipv4Header.serialize, hflags]
  simp only [hip.fragmentOffset]
  simp [hver]
  rw [hihl, UInt16.add_sub_cancel]
  exact congrArg₂ (fun flags frag =>
    ({ ip with flags := flags, fragmentOffset := frag } : Ipv4Header)) hip.flags.symm
    hip.fragmentOffset.symm

theorem markEcn_addIpv4 (protocol : UInt8) (p : Bytes) :
    markEcn (addIpv4 ip protocol p) = some (addIpv4 (ip.setEcn 0x03) protocol p) := by
  have hplain : ({ ip with protocol := protocol, payloadSize := .ofNat p.length } :
      Ipv4Header).Plain := ⟨hip.flags, hip.fragmentOffset⟩
  rw [addIpv4_eq, markEcn, run_pppDeserialize]
  simp only [Option.bind_eq_bind, Option.bind_some, List.drop_left' (length_pppSerialize _),
    run_ipv4Deserialize hplain, List.drop_left' (length_ipv4Serialize _)]
  rfl

theorem Ipv4Header.Plain.mark (d : Departure) : (d.mark ip).Plain := by
  rw [Departure.mark]
  split
  · exact ⟨hip.flags, hip.fragmentOffset⟩
  · exact hip

/-- A packet is marked. -/
theorem mark_addIpv4 (d : Departure) (protocol : UInt8) (p : Bytes) :
    d.markPacket (addIpv4 ip protocol p) = some (addIpv4 (d.mark ip) protocol p) := by
  rw [Departure.markPacket, Departure.mark]
  split
  · exact markEcn_addIpv4 hip protocol p
  · rfl

omit hip in
/-- The protocol is the byte that the switch looks at. -/
theorem addIpv4_protocol (protocol : UInt8) (p : Bytes) :
    (addIpv4 ip protocol p)[14 + 9]? = some protocol := by
  obtain ⟨size, hsize⟩ : ∃ size, size = UInt16.ofNat p.length := ⟨_, rfl⟩
  have hlen : (pppSerialize 0x0021).length = 14 := length_pppSerialize _
  rw [addIpv4_eq, ← hsize, List.getElem?_append_right (by rw [hlen]; decide), hlen]
  simp [Ipv4Header.serialize, writeU8, writeHtonU16, encode]

/-- A packet of another protocol is only marked. -/
theorem switchNotifyDequeue_addIpv4 {protocol : UInt8} (hudp : protocol ≠ 0x11) (d : Departure)
    (p : Bytes) : switchNotifyDequeue c (addIpv4 ip protocol p) d =
      some (addIpv4 (d.mark ip) protocol p) := by
  rw [switchNotifyDequeue, mark_addIpv4 hip, Option.bind_eq_bind, Option.bind_some,
    addIpv4_protocol, if_neg fun h => hudp (Option.some.inj h)]
  rfl

theorem forward_addIpv4 {protocol : UInt8} (hudp : protocol ≠ 0x11) (ds : List Departure)
    (p : Bytes) : forward c ds (addIpv4 ip protocol p) =
      some (addIpv4 (marks ds ip) protocol p) := by
  induction ds generalizing ip with
  | nil => rfl
  | cons d ds ih =>
    rw [forward, List.foldlM_cons, switchNotifyDequeue_addIpv4 hip hudp]
    exact ih (hip.mark d)

section DataPacket

variable (hmode : c.mode = .normal) (udp : UdpHeader) (seq : UInt32) (pg : UInt16)
  (payloadSize : UInt32)

include hmode

omit hip in
theorem pintBytes_of_normal : c.mode = .pint → c.pintBytes = 2 := fun hpint => by
  rw [hmode] at hpint
  cases hpint

omit hip in
/-- The telemetry of a data packet is where the switch looks for it: what is in front of it and
behind it does not depend on it. -/
theorem dataPacket_split (ip : Ipv4Header) : ∃ l : Bytes, l.length = 14 + 20 + 8 + 6 ∧
    ∀ ih, dataPacket c ip udp ⟨seq, pg, ih⟩ payloadSize =
      l ++ (ih.serialize c ++ createPacket payloadSize) := by
  have hpint := pintBytes_of_normal hmode
  have hlen : ∀ ih : IntHeader, (ih.serialize c).length = IntHeader.getStaticSize c :=
    IntHeader.length_serialize hpint
  let size := 8 + (6 + IntHeader.getStaticSize c + payloadSize.toNat)
  let ip' := { ip with protocol := 0x11, payloadSize := UInt16.ofNat size }
  refine ⟨pppSerialize 0x0021 ++ (ip'.serialize ++ (udp.serialize size ++
    (writeHtonU32 seq ++ writeHtonU16 pg))), by simp, fun ih => ?_⟩
  have hudp : 8 + (SeqTsHeader.serialize c ⟨seq, pg, ih⟩ ++ createPacket payloadSize).length =
      size := by
    simp [SeqTsHeader.serialize, hlen, size]
    omega
  have hip : (udp.serialize size ++ SeqTsHeader.serialize c ⟨seq, pg, ih⟩ ++
      createPacket payloadSize).length = size := by
    simp [SeqTsHeader.serialize, hlen, size]
    omega
  rw [dataPacket_eq hpint, addIpv4_eq, hudp, hip]
  simp [SeqTsHeader.serialize, ip']

omit hip in
/-- Data packets that differ in their telemetry differ nowhere else. -/
theorem dataPacket_frame (ip : Ipv4Header) (ih ih' : IntHeader) :
    (dataPacket c ip udp ⟨seq, pg, ih'⟩ payloadSize).length =
        (dataPacket c ip udp ⟨seq, pg, ih⟩ payloadSize).length ∧
      ∀ i, i < 14 + 20 + 8 + 6 ∨ 14 + 20 + 8 + 6 + IntHeader.getStaticSize c ≤ i →
        (dataPacket c ip udp ⟨seq, pg, ih'⟩ payloadSize)[i]? =
          (dataPacket c ip udp ⟨seq, pg, ih⟩ payloadSize)[i]? := by
  obtain ⟨l, hl, hsplit⟩ := dataPacket_split hmode udp seq pg payloadSize ip
  have hlen : ∀ ih : IntHeader, (ih.serialize c).length = IntHeader.getStaticSize c :=
    IntHeader.length_serialize (pintBytes_of_normal hmode)
  rw [hsplit, hsplit]
  refine ⟨by simp [hlen], fun i hi => ?_⟩
  rcases hi with hi | hi
  · rw [List.getElem?_append_left (hl ▸ hi), List.getElem?_append_left (hl ▸ hi)]
  · have hle : l.length ≤ i := hl ▸ (Nat.le_add_right _ _).trans hi
    have hle' : IntHeader.getStaticSize c ≤ i - l.length := by
      rw [hl]
      omega
    rw [List.getElem?_append_right hle, List.getElem?_append_right hle,
      List.getElem?_append_right (by rw [hlen]; exact hle'),
      List.getElem?_append_right (by rw [hlen]; exact hle'), hlen, hlen]

omit hip in
/-- `PushHop` on the memory of a data packet. -/
theorem pushHop_dataPacket (ip : Ipv4Header) (time bytes : UInt64) (qlen : UInt32) (rate : UInt64)
    (isBigflow : Bool) (heavyBytes : UInt64) (card : UInt32) (portion : UInt16) (ih : IntHeader) :
    Overlay.pushHop c time bytes qlen rate isBigflow heavyBytes card portion (14 + 20 + 8 + 6)
        (dataPacket c ip udp ⟨seq, pg, ih⟩ payloadSize) =
      dataPacket c ip udp ⟨seq, pg, ih.pushHop c time bytes qlen rate isBigflow heavyBytes card
        portion⟩ payloadSize := by
  obtain ⟨l, hl, hsplit⟩ := dataPacket_split hmode udp seq pg payloadSize ip
  rw [hsplit, hsplit, Overlay.pushHop_append _ _ _ _ _ _ _ _ hl hmode]

/-- A data packet is marked and stamped. -/
theorem switchNotifyDequeue_dataPacket (d : Departure) (ih : IntHeader) :
    switchNotifyDequeue c (dataPacket c ip udp ⟨seq, pg, ih⟩ payloadSize) d =
      some (dataPacket c (d.mark ip) udp ⟨seq, pg, d.push c ih⟩ payloadSize) := by
  have hpint := pintBytes_of_normal hmode
  have hstamp := pushHop_dataPacket hmode udp seq pg payloadSize (d.mark ip) d.now d.txBytes
    d.nBytesTotal d.bitRate d.isBigFlow d.txHeavyBytes d.card 0 ih
  rw [dataPacket_eq hpint (d.mark ip)] at hstamp
  rw [dataPacket_eq hpint, switchNotifyDequeue, mark_addIpv4 hip, Option.bind_eq_bind,
    Option.bind_some, addIpv4_protocol, if_pos rfl, hstamp]
  rfl

/-- **A data packet behind some switches**: it is the packet with the ECN bits they set and the
telemetry they pushed. -/
theorem forward_dataPacket (ds : List Departure) (ih : IntHeader) :
    forward c ds (dataPacket c ip udp ⟨seq, pg, ih⟩ payloadSize) =
      some (dataPacket c (marks ds ip) udp ⟨seq, pg, pushes c ds ih⟩ payloadSize) := by
  induction ds generalizing ip ih with
  | nil => rfl
  | cons d ds hind =>
    rw [forward, List.foldlM_cons, switchNotifyDequeue_dataPacket hip hmode]
    exact hind (hip.mark d) _

end DataPacket

end Forward

/-! ### The stamps of a path -/

namespace IntHop

variable {h : IntHop} {i j : ℕ} (v : ℕ)

theorem toNat_store : (h.store i v).buf.toNat = BitField.set widths i v h.buf.toNat :=
  UInt64.toNat_ofNat_of_lt' (BitField.set_lt widths i v _)

theorem toNat_storeMy : (h.storeMy i v).myBuf.toNat = BitField.set myWidths i v h.myBuf.toNat :=
  UInt64.toNat_ofNat_of_lt' (BitField.set_lt myWidths i v _)

theorem get_store_self (hi : i < widths.length) :
    BitField.get widths i (h.store i v).buf.toNat = v % 2 ^ widths[i] := by
  rw [toNat_store, BitField.get_set_self hi]

theorem get_store_of_ne (hij : j ≠ i) :
    BitField.get widths j (h.store i v).buf.toNat = BitField.get widths j h.buf.toNat := by
  rw [toNat_store, BitField.get_set_of_ne hij]

theorem get_storeMy_self (hi : i < myWidths.length) :
    BitField.get myWidths i (h.storeMy i v).myBuf.toNat = v % 2 ^ myWidths[i] := by
  rw [toNat_storeMy, BitField.get_set_self hi]

theorem get_storeMy_of_ne (hij : j ≠ i) :
    BitField.get myWidths j (h.storeMy i v).myBuf.toNat =
      BitField.get myWidths j h.myBuf.toNat := by
  rw [toNat_storeMy, BitField.get_set_of_ne hij]

/-- The code that is stored for a rate is that of the rate. -/
theorem lineRateValues_rateCode {rate : UInt64} {code : ℕ} (h : rateCode rate = some code) :
    code < 8 ∧ lineRateValues.getD code 0 = rate := by
  simp only [rateCode] at h
  split_ifs at h with h0 h1 h2 h3 h4 h5 h6 <;> cases h
  · exact ⟨by decide, h0.symm⟩
  · exact ⟨by decide, h1.symm⟩
  · exact ⟨by decide, h2.symm⟩
  · exact ⟨by decide, h3.symm⟩
  · exact ⟨by decide, h4.symm⟩
  · exact ⟨by decide, h5.symm⟩
  · exact ⟨by decide, h6.symm⟩

section Set

variable {c : IntConfig} {time bytes : UInt64} {qlen : UInt32} {rate : UInt64}

/-- The rate is written last, or not at all. -/
theorem get_set_of_ne_zero (hj : j ≠ 0) :
    BitField.get widths j (h.set c time bytes qlen rate).buf.toNat =
      BitField.get widths j (((h.store 1 time.toNat).store 2
        (bytes / (byteUnit * c.multi).toUInt64).toNat).store 3
          (qlen / (qlenUnit * c.multi)).toNat).buf.toNat := by
  rw [set]
  split
  · exact get_store_of_ne _ hj
  · rfl

theorem lineRate_set :
    (h.set c time bytes qlen rate).lineRate = (rateCode rate).getD h.lineRate := by
  rw [lineRate, set]
  cases hcode : rateCode rate with
  | some code =>
    have hlt : code < 2 ^ 3 := (lineRateValues_rateCode hcode).1
    exact (get_store_self code (by decide)).trans (Nat.mod_eq_of_lt hlt)
  | none =>
    exact (get_store_of_ne _ (by decide)).trans
      ((get_store_of_ne _ (by decide)).trans (get_store_of_ne _ (by decide)))

theorem time_set : (h.set c time bytes qlen rate).time = time.toNat % 2 ^ 24 := by
  rw [IntHop.time, get_set_of_ne_zero (by decide), get_store_of_ne _ (by decide),
    get_store_of_ne _ (by decide), get_store_self _ (by decide)]
  rfl

theorem bytes_set : (h.set c time bytes qlen rate).bytes =
    (bytes / (byteUnit * c.multi).toUInt64).toNat % 2 ^ 20 := by
  rw [IntHop.bytes, get_set_of_ne_zero (by decide), get_store_of_ne _ (by decide),
    get_store_self _ (by decide)]
  rfl

theorem qlen_set : (h.set c time bytes qlen rate).qlen =
    (qlen / (qlenUnit * c.multi)).toNat % 2 ^ 16 := by
  rw [IntHop.qlen, get_set_of_ne_zero (by decide), get_store_self _ (by decide)]
  rfl

end Set

end IntHop

/-- A record tells what the switch knew when the packet left it: the rate of the port, the time, the
bytes sent and waiting in their units, and what is known of the big flows, each cut to the width of
its field. For a rate that has no code, the field of the rate is not written. -/
structure Departure.StampedOn (c : IntConfig) (d : Departure) (h : IntHop) : Prop where
  lineRate : h.lineRate = (IntHop.rateCode d.bitRate).getD 0
  getLineRate : (IntHop.rateCode d.bitRate).isSome → h.getLineRate = d.bitRate
  time : h.time = d.now.toNat % 2 ^ 24
  bytes : h.bytes = (d.txBytes / (IntHop.byteUnit * c.multi).toUInt64).toNat % 2 ^ 20
  qlen : h.qlen = (d.nBytesTotal / (IntHop.qlenUnit * c.multi)).toNat % 2 ^ 16
  bigflow : h.bigflow = if d.isBigFlow then 1 else 0
  heavyBytes : h.heavyBytes = (d.txHeavyBytes / IntHop.byteUnit.toUInt64).toNat % 2 ^ 20
  card1 : h.card1 = d.card.toNat

section Path

variable {c : IntConfig}

theorem Departure.stampedOn_stamp (d : Departure) : d.StampedOn c (d.stamp c) := by
  have hcard : d.card.toNat % 2 ^ 44 = d.card.toNat :=
    Nat.mod_eq_of_lt (d.card.toNat_lt.trans (by decide))
  have hbig : (if d.isBigFlow then 1 else 0) % 2 ^ 1 = if d.isBigFlow then 1 else 0 := by
    split <;> rfl
  have hrate : (d.stamp c).lineRate = (IntHop.rateCode d.bitRate).getD 0 :=
    (IntHop.get_store_of_ne _ (by decide)).trans IntHop.lineRate_set
  refine ⟨hrate, fun hsome => ?_, ?_, ?_, ?_, ?_, ?_, ?_⟩
  · obtain ⟨code, hcode⟩ := Option.isSome_iff_exists.1 hsome
    rw [IntHop.getLineRate, hrate, hcode]
    exact (IntHop.lineRateValues_rateCode hcode).2
  · exact (IntHop.get_store_of_ne _ (by decide)).trans IntHop.time_set
  · exact (IntHop.get_store_of_ne _ (by decide)).trans IntHop.bytes_set
  · exact (IntHop.get_store_of_ne _ (by decide)).trans IntHop.qlen_set
  · exact (IntHop.get_store_self _ (by decide)).trans hbig
  · exact (IntHop.get_storeMy_of_ne _ (by decide)).trans (IntHop.get_storeMy_self _ (by decide))
  · exact (IntHop.get_storeMy_self _ (by decide)).trans hcard

/-- **The telemetry behind a path** of at most `maxHop` switches: a record for each. -/
theorem pushes_new (hmode : c.mode = .normal) {ds : List Departure} (hk : ds.length ≤ maxHop) :
    (pushes c ds .new).nhop = .ofNat ds.length ∧ ∀ i : Fin maxHop, (pushes c ds .new).hop i =
      if hi : i.val < ds.length then ds[i.val].stamp c else .zero := by
  induction ds using List.reverseRecOn with
  | nil => exact ⟨rfl, fun i => rfl⟩
  | append_singleton ds d hind =>
    rw [List.length_append, List.length_singleton] at hk
    obtain ⟨hnhop, hhop⟩ := hind (Nat.le_of_succ_le hk)
    have hidx : (pushes c ds .new).nhop.toNat % maxHop = ds.length := by
      have hlt : ds.length < UInt16.size := lt_of_lt_of_le hk (by decide)
      rw [hnhop, UInt16.toNat_ofNat_of_lt' hlt, Nat.mod_eq_of_lt hk]
    have hlast : pushes c (ds ++ [d]) .new = d.push c (pushes c ds .new) := by
      rw [pushes, List.foldl_append]
      rfl
    rw [hlast, Departure.push, IntHeader.pushHop_eq hmode]
    refine ⟨?_, fun i => ?_⟩
    · show (pushes c ds .new).nhop + 1 = _
      rw [hnhop, List.length_append, UInt16.ofNat_add]
      rfl
    · simp only [hidx]
      rcases lt_trichotomy i.val ds.length with hlt | heq | hgt
      · have hne : i ≠ ⟨ds.length, hk⟩ := fun h => hlt.ne (congrArg Fin.val h)
        rw [Function.update_of_ne hne, hhop, dif_pos hlt, dif_pos (by simp; omega),
          List.getElem_append_left hlt]
      · obtain rfl : i = ⟨ds.length, hk⟩ := Fin.ext heq
        rw [Function.update_self, hhop, dif_neg (lt_irrefl _), dif_pos (by simp)]
        simp [Departure.stamp]
      · have hne : i ≠ ⟨ds.length, hk⟩ := fun h => hgt.ne' (congrArg Fin.val h)
        rw [Function.update_of_ne hne, hhop, dif_neg (by omega), dif_neg (by simp; omega)]

/-! ### Stamping and parsing -/

open CustomHeader

/-- A data packet is parsed exactly. -/
theorem deserialize_dataPacket_normal (hmode : c.mode = .normal) (ip : Ipv4Header)
    (udp : UdpHeader) (seqTs : SeqTsHeader) (payloadSize : UInt32) :
    (new 7).deserialize c (dataPacket c ip udp seqTs payloadSize) =
      some ({ ofIpv4 { ip with protocol := 0x11 } with
        l4 := .udp ⟨udp.sourcePort, udp.destinationPort, 0, seqTs.pg, seqTs.seq, seqTs.ih⟩ },
        34 + getUdpHeaderSize c) := by
  obtain ⟨ih, hparse, hagrees⟩ :=
    deserialize_dataPacket_eq (pintBytes_of_normal hmode) ip udp seqTs payloadSize
  rw [IntHeader.Agrees, hmode] at hagrees
  subst hagrees
  exact hparse

/-- The reply to a data packet carries its telemetry. -/
theorem receiveUdpReply_dataPacket (hmode : c.mode = .normal) (ip : Ipv4Header) (udp : UdpHeader)
    (seqTs : SeqTsHeader) (payloadSize : UInt32) (nack : Bool) (expectedSeq : UInt32)
    (ipid : UInt16) :
    ∃ (head : Ipv4Header) (seqh : QbbHeader), head.Plain ∧ seqh.ih = seqTs.ih ∧
      receiveUdpReply c nack expectedSeq ipid (dataPacket c ip udp seqTs payloadSize) =
        some (ackPacket c head nack seqh) := by
  refine ⟨
    { payloadSize := 0, identification := ipid, tos := 0, ttl := 64, protocol := 0, flags := 0,
      fragmentOffset := 0, source := ip.destination, destination := ip.source },
    { sport := udp.destinationPort, dport := udp.sourcePort, pg := seqTs.pg, seq := expectedSeq,
      ih := seqTs.ih, flags := if ip.tos &&& 0x3 ≠ 0 then 1 else 0 }, ⟨rfl, rfl⟩, rfl, ?_⟩
  rw [receiveUdpReply, deserialize_dataPacket_normal hmode]
  rfl

/-- A reply brings its telemetry to the sender, whatever switches it passes. -/
theorem ackTelemetry_forward (hmode : c.mode = .normal) {ip : Ipv4Header} (hip : ip.Plain)
    (nack : Bool) (seqh : QbbHeader) (ds : List Departure) :
    ∃ ack', forward c ds (ackPacket c ip nack seqh) = some ack' ∧
      ackTelemetry c ack' = some seqh.ih := by
  have hpint := pintBytes_of_normal hmode
  have hprotocol : (if nack then 0xFD else 0xFC : UInt8) ≠ 0x11 := by
    cases nack <;> decide
  have hforward := forward_addIpv4 (c := c) hip hprotocol ds (seqh.serialize c ++
    createPacket (.ofNat (60 - 14 - 20 - QbbHeader.getSerializedSize c)))
  rw [← ackPacket_eq hpint, ← ackPacket_eq hpint] at hforward
  refine ⟨_, hforward, ?_⟩
  obtain ⟨ih, hparse, hagrees⟩ := deserialize_ackPacket_eq hpint (marks ds ip) nack seqh
  rw [IntHeader.Agrees, hmode] at hagrees
  subst hagrees
  rw [ackTelemetry, hparse]
  rfl

/-- **Stamping in place and parsing commute.** Take a data packet of `GetNxtPacket` behind any
switches. It parses as a packet with telemetry; calling `PushHop` on the memory of the packet and
parsing it gives what calling `PushHop` on the telemetry that was parsed gives, and the other bytes
of the packet stay. After at most `maxHop` switches, the reply brings the sender as many records as
there were switches, each the stamp of its switch, whatever switches the reply passes. -/
theorem stamping_commutes (hmode : c.mode = .normal) (sip dip : UInt32)
    (sport dport pg ipid : UInt16) (sndNxt : UInt64) (payloadSize : UInt32)
    (ds : List Departure) :
    ∃ p ch n udp,
      forward c ds (getNxtPacket c sip dip sport dport pg ipid sndNxt payloadSize) = some p ∧
      (new 7).deserialize c p = some (ch, n) ∧ ch.l4 = .udp udp ∧
      (∀ (time bytes : UInt64) (qlen : UInt32) (rate : UInt64) (isBigflow : Bool)
          (heavyBytes : UInt64) (card : UInt32) (portion : UInt16),
        let p' := Overlay.pushHop c time bytes qlen rate isBigflow heavyBytes card portion
          (14 + 20 + 8 + 6) p
        (new 7).deserialize c p' = some ({ ch with l4 := .udp { udp with
          ih := udp.ih.pushHop c time bytes qlen rate isBigflow heavyBytes card portion } }, n) ∧
        p'.length = p.length ∧
        ∀ i, i < 14 + 20 + 8 + 6 ∨ 14 + 20 + 8 + 6 + IntHeader.getStaticSize c ≤ i →
          p'[i]? = p[i]?) ∧
      (ds.length ≤ maxHop →
        ∀ (nack : Bool) (expectedSeq : UInt32) (ipid' : UInt16) (ds' : List Departure),
          ∃ ack ack' ih, receiveUdpReply c nack expectedSeq ipid' p = some ack ∧
            forward c ds' ack = some ack' ∧ ackTelemetry c ack' = some ih ∧
            ih.nhop = .ofNat ds.length ∧
            ∀ i (hi : i < ds.length), ∃ hmax : i < maxHop,
              ds[i].StampedOn c (ih.hop ⟨i, hmax⟩)) := by
  let ip : Ipv4Header :=
    { payloadSize := 0, identification := ipid, tos := 0, ttl := 64, protocol := 0, flags := 0,
      fragmentOffset := 0, source := sip, destination := dip }
  let udp : UdpHeader := { sourcePort := sport, destinationPort := dport }
  let seq := sndNxt.toUInt32
  have hip : ip.Plain := ⟨rfl, rfl⟩
  refine ⟨_, _, _, _, forward_dataPacket hip hmode udp seq pg payloadSize ds .new,
    deserialize_dataPacket_normal hmode _ _ _ _, rfl, ?_, ?_⟩
  · intro time bytes qlen rate isBigflow heavyBytes card portion
    rw [pushHop_dataPacket hmode]
    exact ⟨deserialize_dataPacket_normal hmode _ _ _ _, dataPacket_frame hmode udp seq pg _ _ _ _⟩
  · intro hk nack expectedSeq ipid' ds'
    obtain ⟨hnhop, hhop⟩ := pushes_new hmode hk
    obtain ⟨head, seqh, hhead, hih, hreply⟩ := receiveUdpReply_dataPacket hmode (marks ds ip) udp
      ⟨seq, pg, pushes c ds .new⟩ payloadSize nack expectedSeq ipid'
    obtain ⟨ack', hforward, htelemetry⟩ := ackTelemetry_forward hmode hhead nack seqh ds'
    refine ⟨_, ack', pushes c ds .new, hreply, hforward, by rw [htelemetry, hih], hnhop,
      fun i hi => ⟨lt_of_lt_of_le hi hk, ?_⟩⟩
    rw [hhop, dif_pos hi]
    exact Departure.stampedOn_stamp _

end Path

/-- A path of two switches, of which the second sets the ECN bits. -/
theorem stamping_commutes_two_switches :
    let c : IntConfig := ⟨.normal, 2, 1⟩
    let ds : List Departure := [⟨false, 1000, 5000, 0, 100000000000, true, 4000, 3⟩,
      ⟨true, 2000, 9000, 1600, 25000000000, true, 8000, 4⟩]
    ∃ p ack ack' ih,
      forward c ds (getNxtPacket c 0x0b000001 0x0b000101 10000 100 3 0 0 1000) = some p ∧
        receiveUdpReply c false 1000 0 p = some ack ∧ forward c ds ack = some ack' ∧
        ackTelemetry c ack' = some ih ∧ ih.nhop = 2 ∧
        ∀ i (hi : i < ds.length), ∃ hmax : i < maxHop, ds[i].StampedOn c (ih.hop ⟨i, hmax⟩) := by
  intro c ds
  obtain ⟨p, -, -, -, hp, -, -, -, hecho⟩ := stamping_commutes (c := c) rfl 0x0b000001 0x0b000101
    10000 100 3 0 0 1000 ds
  obtain ⟨ack, ack', ih, hack, hforward, htelemetry, hnhop, hstamps⟩ :=
    hecho (by decide) false 1000 0 ds
  exact ⟨p, ack, ack', ih, hp, hack, hforward, htelemetry, hnhop, hstamps⟩

end HpccSim
