import HpccSim.CustomHeader

/-!
# A custom header on the wire

`CustomHeader` can also write itself. What it writes for all layers, it reads back when it is not
brief: the fields of the protocol are restored, those it does not write are left alone. An ACK keeps
its telemetry in `ack.ih` and writes `udp.ih`, which has the same place.

## Main definitions

* `CustomHeader.serialize`: `CustomHeader::Serialize`.
* `CustomHeader.Carried`: the headers that the wire format can carry.
* `CustomHeader.Restores`: the fields that are restored.

## Main results

* `CustomHeader.deserialize_serialize_append`: the round trip, with the sizes.
-/

namespace HpccSim

open ByteOrder

/-- The options of TCP, as many as its length says. -/
def TcpFields.options (h : TcpFields) : Bytes := h.optionBuf.take ((h.length.toNat - 5) * 4)

namespace CustomHeader

/-! ### The writer -/

section Serialize

variable (c : IntConfig) (ch : CustomHeader)

/-- The fields of an `Ipv4Header`. -/
def toIpv4 : Ipv4Header where
  payloadSize := ch.payloadSize
  identification := ch.ipid
  tos := ch.tos
  ttl := ch.ttl
  protocol := ch.l3Prot
  flags := ch.ipv4Flags
  fragmentOffset := ch.fragmentOffset
  source := ch.sip
  destination := ch.dip

/-- The part of `Serialize` for layer 3, which writes what `Ipv4Header::Serialize` does. -/
def serializeL3 : Bytes := ch.toIpv4.serialize

/-- The branch for TCP. -/
def serializeTcp (h : TcpFields) : Bytes :=
  let optionLen : UInt32 := (h.length.toUInt32 - 5) * 4
  writeHtonU16 h.sport ++ writeHtonU16 h.dport ++ writeHtonU32 h.seq ++ writeHtonU32 h.ack ++
    writeHtonU16 ((h.length.toUInt16 <<< 12) ||| h.tcpFlags.toUInt16) ++
    writeHtonU16 h.windowSize ++ writeHtonU16 0 ++ writeHtonU16 h.urgentPointer ++
    if optionLen ≤ 32 then h.optionBuf.take optionLen.toNat else []

/-- The branch for UDP. -/
def serializeUdp (h : UdpFields) : Bytes :=
  writeHtonU16 h.sport ++ writeHtonU16 h.dport ++ writeHtonU16 h.payloadSize ++ writeHtonU16 0 ++
    writeHtonU32 h.seq ++ writeHtonU16 h.pg ++ h.ih.serialize c

/-- The branch for congestion notifications. -/
def serializeCnp (h : CnpFields) : Bytes :=
  writeU8 h.qIndex ++ writeU16 h.fid ++ writeU8 h.ecnBits ++ writeU16 h.qfb ++ writeU16 h.total

/-- The branch for ACKs and NACKs, with the `IntHeader` that stands at the place of `udp.ih`. -/
def serializeAck (h : AckFields) (ih : IntHeader) : Bytes :=
  writeU16 h.sport ++ writeU16 h.dport ++ writeU16 h.flags ++ writeU16 h.pg ++ writeU32 h.seq ++
    ih.serialize c

/-- The branch for PFC frames. -/
def serializePfc (h : PfcFields) : Bytes :=
  writeU32 h.time ++ writeU32 h.qlen ++ writeU8 h.qIndex

/-- The part for layer 4. The member of the union is the one of the protocol; another one has no
value there. -/
def serializeL4 : Bytes :=
  if ch.l3Prot = 0x6 then
    match ch.l4 with
    | .tcp h => serializeTcp h
    | _ => []
  else if ch.l3Prot = 0x11 then
    match ch.l4 with
    | .udp h => serializeUdp c h
    | _ => []
  else if ch.l3Prot = 0xFF then
    match ch.l4 with
    | .cnp h => serializeCnp h
    | _ => []
  else if ch.l3Prot = 0xFC ∨ ch.l3Prot = 0xFD then
    match ch.l4 with
    | .ack h => serializeAck c h ch.l4.getIh
    | _ => []
  else if ch.l3Prot = 0xFE then
    match ch.l4 with
    | .pfc h => serializePfc h
    | _ => []
  else []

/-- `Serialize`. -/
def serialize : Bytes :=
  (if ch.headerType &&& l2Header ≠ 0 then pppSerialize ch.pppProto else []) ++
    ((if ch.headerType &&& l3Header ≠ 0 then ch.serializeL3 else []) ++
      if ch.headerType &&& l4Header ≠ 0 then ch.serializeL4 c else [])

end Serialize

/-! ### What is carried -/

/-- The header has a member of the union for its protocol, and all its values fit into the format:
the words of TCP and its flags, the options that are read back, the flags and the units of the
fragment. The buffer for the options has 32 bytes. -/
structure Carried (ch : CustomHeader) : Prop where
  headerType : ch.headerType = 7
  fragmentOffset : ch.fragmentOffset % 8 = 0
  ipv4Flags : ch.ipv4Flags ≤ 3
  checksum : ch.checksum = 0
  l4 : match ch.l4 with
    | .none => False
    | .tcp h => ch.l3Prot = 0x6 ∧ 5 ≤ h.length ∧ h.length ≤ 13 ∧ h.tcpFlags ≤ 0x3F ∧
      h.optionBuf.length = 32
    | .udp _ => ch.l3Prot = 0x11
    | .cnp _ => ch.l3Prot = 0xFF
    | .ack _ => ch.l3Prot = 0xFC ∨ ch.l3Prot = 0xFD
    | .pfc _ => ch.l3Prot = 0xFE

/-- The member of the union is restored, as far as the protocol has it. -/
def L4Restores (c : IntConfig) : L4 → L4 → Prop
  | .tcp h', .tcp h => { h' with optionBuf := h'.options } = { h with optionBuf := h.options }
  | .udp h', .udp h => { h' with ih := h.ih } = h ∧ h'.ih.Agrees c h.ih
  | .cnp h', .cnp h => h' = h
  | .ack h', .ack h => { h' with ih := h.ih } = h ∧ h'.ih.Agrees c h.ih
  | .pfc h', .pfc h => h' = h
  | _, _ => False

/-- The fields of `ch` that the protocol carries are those of `ch'`. -/
structure Restores (c : IntConfig) (ch' ch : CustomHeader) : Prop where
  pppProto : ch'.pppProto = ch.pppProto
  payloadSize : ch'.payloadSize = ch.payloadSize
  ipid : ch'.ipid = ch.ipid
  tos : ch'.tos = ch.tos
  ttl : ch'.ttl = ch.ttl
  l3Prot : ch'.l3Prot = ch.l3Prot
  ipv4Flags : ch'.ipv4Flags = ch.ipv4Flags
  fragmentOffset : ch'.fragmentOffset = ch.fragmentOffset
  sip : ch'.sip = ch.sip
  dip : ch'.dip = ch.dip
  checksum : ch'.checksum = ch.checksum
  l4 : L4Restores c ch'.l4 ch.l4

/-! ### Fields that are packed -/

section Packed

/-- A property of two small bytes, checked for all of them. -/
theorem forall₂_lt_of_nat {P : UInt8 → UInt8 → Prop} {m n : ℕ}
    (h : ∀ k < m, ∀ l < n, P (.ofNat k) (.ofNat l)) {v w : UInt8} (hv : v.toNat < m)
    (hw : w.toNat < n) : P v w := by
  have hP := h v.toNat hv w.toNat hw
  rwa [UInt8.ofNat_toNat, UInt8.ofNat_toNat] at hP

/-- The field of TCP that has its length and its flags. -/
def tcpField (length flags : UInt8) : UInt16 := (length.toUInt16 <<< 12) ||| flags.toUInt16

theorem tcpField_spec {length flags : UInt8} (hlength : length ≤ 13) (hflags : flags ≤ 0x3F) :
    (tcpField length flags &&& 0x3f).toUInt8 = flags ∧
      (tcpField length flags >>> 12).toUInt8 = length :=
  forall₂_lt_of_nat (m := 14) (n := 64)
    (P := fun length flags => (tcpField length flags &&& 0x3f).toUInt8 = flags ∧
      (tcpField length flags >>> 12).toUInt8 = length)
    (by decide +kernel) (Nat.lt_succ_of_le (UInt8.le_iff_toNat_le.1 hlength))
    (Nat.lt_succ_of_le (UInt8.le_iff_toNat_le.1 hflags))

/-- The byte of the flags and the upper bits of a fragment offset. -/
def flagsByte (hi flags : UInt8) : UInt8 :=
  let flagsFrag := if flags &&& 1 ≠ 0 then hi ||| 0x40 else hi
  if flags &&& 2 ≠ 0 then flagsFrag ||| 0x20 else flagsFrag

theorem flagsByte_spec {hi flags : UInt8} (hhi : hi.toNat < 32) (hflags : flags ≤ 3) :
    ((if flagsByte hi flags &&& 0x40 ≠ 0 then (1 : UInt8) else 0) |||
      (if flagsByte hi flags &&& 0x20 ≠ 0 then (2 : UInt8) else 0)) = flags ∧
      flagsByte hi flags &&& 0x1f = hi :=
  forall₂_lt_of_nat (m := 32) (n := 4)
    (P := fun hi flags => ((if flagsByte hi flags &&& 0x40 ≠ 0 then (1 : UInt8) else 0) |||
      (if flagsByte hi flags &&& 0x20 ≠ 0 then (2 : UInt8) else 0)) = flags ∧
      flagsByte hi flags &&& 0x1f = hi)
    (by decide +kernel) hhi (Nat.lt_succ_of_le (UInt8.le_iff_toNat_le.1 hflags))

/-- The upper bits of a fragment offset, in units of 8 bytes. -/
def fragHi (offset : UInt16) : UInt8 := (((offset / 8) >>> 8) &&& 0x1f).toUInt8

/-- The lower bits. -/
def fragLo (offset : UInt16) : UInt8 := ((offset / 8) &&& 0xff).toUInt8

theorem toNat_fragHi (offset : UInt16) : (fragHi offset).toNat = offset.toNat / 8 / 256 := by
  have hlt := offset.toNat_lt
  have hand : offset.toNat / 8 / 256 % 256 &&& 31 = offset.toNat / 8 / 256 % 256 % 2 ^ 5 :=
    Nat.and_two_pow_sub_one_eq_mod _ 5
  simp [fragHi, Nat.shiftRight_eq_div_pow, hand]
  omega

theorem toNat_fragLo (offset : UInt16) : (fragLo offset).toNat = offset.toNat / 8 % 256 := by
  have hand : offset.toNat / 8 % 256 &&& 255 = offset.toNat / 8 % 256 % 2 ^ 8 :=
    Nat.and_two_pow_sub_one_eq_mod _ 8
  simp [fragLo, hand]

/-- The fragment offset is put together again. -/
theorem frag_spec {offset : UInt16} (h : offset % 8 = 0) :
    (((fragHi offset).toUInt16 <<< 8) ||| (fragLo offset).toUInt16) <<< 3 = offset := by
  have hlt := offset.toNat_lt
  have hmod : offset.toNat % 8 = 0 := by simpa using congrArg UInt16.toNat h
  have hhi : (offset.toNat / 8 / 256) <<< 8 % 65536 = (offset.toNat / 8 / 256) <<< 8 := by
    rw [Nat.shiftLeft_eq]
    omega
  have hlo : offset.toNat / 8 % 256 < 2 ^ 8 := Nat.mod_lt _ (by decide)
  have hor : (offset.toNat / 8 / 256) <<< 8 ||| offset.toNat / 8 % 256 = offset.toNat / 8 := by
    rw [BitField.or_shiftLeft _ hlo]
    omega
  rw [← UInt16.toNat_inj]
  simp [toNat_fragHi, toNat_fragLo]
  rw [hhi, hor, Nat.shiftLeft_eq]
  omega

end Packed

/-! ### The layers -/

section Layers

variable {c : IntConfig} {prev ch : CustomHeader}

/-- The header `prev` after layers 2 and 3 of `ch` were read into it. -/
def readL3 (prev ch : CustomHeader) : CustomHeader :=
  { prev with
    pppProto := ch.pppProto
    tos := ch.tos
    payloadSize := ch.payloadSize
    ipid := ch.ipid
    ipv4Flags := ch.ipv4Flags
    fragmentOffset := ch.fragmentOffset
    ttl := ch.ttl
    l3Prot := ch.l3Prot
    checksum := 0
    sip := ch.sip
    dip := ch.dip
    headerSize := 20 }

theorem run_deserializeL2_of (htype : prev.headerType = 7) (protocol : UInt16) (rest : Bytes) :
    prev.deserializeL2.run (pppSerialize protocol ++ rest) =
      some (({ prev with pppProto := protocol }, 14), rest) := by
  have htype : prev.headerType &&& l2Header ≠ 0 := by
    rw [htype]
    decide
  rw [deserializeL2, if_pos htype, pppSerialize]
  simp

theorem run_deserializeL3_of (htype : prev.headerType = 7) (hbrief : prev.brief = 0)
    (hch : Carried ch) (rest i : Bytes) :
    ({ prev with pppProto := ch.pppProto }.deserializeL3
      (pppSerialize ch.pppProto ++ (ch.serializeL3 ++ rest)) 14).run i =
        some ((readL3 prev ch, some 20), rest) := by
  have htype : prev.headerType &&& l3Header ≠ 0 := by
    rw [htype]
    decide
  have hver : (0x45 : UInt8) >>> 4 = 4 := by decide
  have hsize : ((0x45 : UInt8) &&& 0x0f).toUInt16 * 4 = 20 := by decide
  have hfour : (5 * 4 : UInt16) = 20 := by decide
  have hdrop : (pppSerialize ch.pppProto ++ (ch.serializeL3 ++ rest)).drop 14 =
      ch.serializeL3 ++ rest := List.drop_left' (length_pppSerialize _)
  have hhi : (fragHi ch.fragmentOffset).toNat < 32 := by
    have hlt := ch.fragmentOffset.toNat_lt
    rw [toNat_fragHi]
    omega
  obtain ⟨hflags, hfrag⟩ := flagsByte_spec hhi hch.ipv4Flags
  have hoffset := frag_spec hch.fragmentOffset
  have hbyte : ch.toIpv4.flagsFrag = flagsByte (fragHi ch.fragmentOffset) ch.ipv4Flags := rfl
  have hlow : ((ch.toIpv4.fragmentOffset / 8) &&& 0xff).toUInt8 = fragLo ch.fragmentOffset := rfl
  have hzero : writeHtonU16 0 = writeU16 0 := by decide
  rw [deserializeL3, if_pos htype, hdrop, serializeL3, Ipv4Header.serialize, hbyte, hlow, hzero]
  simp only [List.append_assoc, StateT.run_bind, StateT.run_set, Option.pure_def,
    Option.bind_eq_bind, Option.bind_some, run_readU8, hver, ne_eq, not_true_eq_false, if_false,
    hbrief, run_readNtohU16, run_readNtohU32, run_readU16, StateT.run_pure, hfrag, hoffset, hsize]
  rw [hflags, hfour, UInt16.add_sub_cancel, readL3, hbrief]
  rfl

/-- All layers are written. -/
theorem serialize_eq (htype : ch.headerType = 7) : ch.serialize c =
    pppSerialize ch.pppProto ++ (ch.serializeL3 ++ ch.serializeL4 c) := by
  have hl2 : ch.headerType &&& l2Header ≠ 0 := by
    rw [htype]
    decide
  have hl3 : ch.headerType &&& l3Header ≠ 0 := by
    rw [htype]
    decide
  have hl4 : ch.headerType &&& l4Header ≠ 0 := by
    rw [htype]
    decide
  rw [serialize, if_pos hl2, if_pos hl3, if_pos hl4]

/-- Layers 2 and 3 of `ch` are read into `prev`, and then layer 4, wherever that leads. -/
theorem deserialize_of_L4 (htype : prev.headerType = 7) (hbrief : prev.brief = 0)
    (hch : Carried ch) (rest : Bytes) {l4 : L4} {n : ℕ} {i : Bytes}
    (hl4 : ∀ l3 : Bytes, l3.length = 34 →
      ((readL3 prev ch).deserializeL4 c (l3 ++ (ch.serializeL4 c ++ rest)) 34).run
        (ch.serializeL4 c ++ rest) = some (({ readL3 prev ch with l4 := l4 }, some n), i)) :
    prev.deserialize c (ch.serialize c ++ rest) =
      some ({ readL3 prev ch with l4 := l4 }, 34 + n) := by
  have hparse := hl4 (pppSerialize ch.pppProto ++ ch.serializeL3)
    (by simp [serializeL3])
  rw [serialize_eq hch.headerType, List.append_assoc, List.append_assoc, deserialize,
    run_deserializeL2_of htype]
  simp only [Option.bind_eq_bind, Option.bind_some, run_deserializeL3_of htype hbrief hch]
  rw [← List.append_assoc (pppSerialize ch.pppProto), hparse]
  rfl

/-- A checksum that is skipped. -/
theorem run_next_two (rest : Bytes) : (next 2).run (writeHtonU16 0 ++ rest) = some ((), rest) := by
  rw [run_next rest (by simp)]
  simp

/-- The length of the options, as the writer and the reader compute it. -/
theorem toNat_optionLen {length : UInt8} (hlow : 5 ≤ length) :
    ((length.toUInt32 - 5) * 4).toNat = (length.toNat - 5) * 4 := by
  have hlow' : 5 ≤ length.toNat := UInt8.le_iff_toNat_le.1 hlow
  have hsub : (length.toUInt32 - 5).toNat = length.toNat - 5 :=
    UInt32.toNat_sub_of_le _ _ (UInt32.le_iff_toNat_le.2 hlow')
  have hlt : (length.toNat - 5) * 4 < 2 ^ 32 := by
    have := length.toNat_lt
    omega
  rw [UInt32.toNat_mul, hsub]
  exact Nat.mod_eq_of_lt hlt

theorem optionLen_le {length : UInt8} (hlow : 5 ≤ length) (hhigh : length ≤ 13) :
    (length.toUInt32 - 5) * 4 ≤ 32 := by
  have hhigh' : length.toNat ≤ 13 := UInt8.le_iff_toNat_le.1 hhigh
  have hnat : (length.toNat - 5) * 4 ≤ 32 := by omega
  rw [UInt32.le_iff_toNat_le, toNat_optionLen hlow]
  exact hnat

theorem length_options {h : TcpFields} (hhigh : h.length ≤ 13)
    (hbuf : h.optionBuf.length = 32) : h.options.length = (h.length.toNat - 5) * 4 := by
  have hhigh' : h.length.toNat ≤ 13 := UInt8.le_iff_toNat_le.1 hhigh
  rw [TcpFields.options, List.length_take, hbuf]
  omega

/-- TCP. -/
theorem run_deserializeTcp_of (hbrief : ch.brief = 0) {h : TcpFields} (hlow : 5 ≤ h.length)
    (hhigh : h.length ≤ 13) (hflags : h.tcpFlags ≤ 0x3F) (hbuf : h.optionBuf.length = 32)
    (rest : Bytes) : ch.deserializeTcp.run (serializeTcp h ++ rest) =
      some (({ h with optionBuf := h.options }, some (h.length.toNat * 4)), rest) := by
  obtain ⟨hflag, hlength⟩ := tcpField_spec hhigh hflags
  have hle := optionLen_le hlow hhigh
  have hnot : ¬(h.length.toUInt32 - 5) * 4 > 32 := UInt32.not_lt.2 hle
  have hoptions : (h.optionBuf.take ((h.length.toNat - 5) * 4)).length =
      (h.length.toNat - 5) * 4 := length_options hhigh hbuf
  have hfield : (h.length.toUInt16 <<< 12) ||| h.tcpFlags.toUInt16 =
    tcpField h.length h.tcpFlags := rfl
  rw [serializeTcp, hfield, deserializeTcp]
  simp only [hle, hnot, if_true, toNat_optionLen hlow, List.append_assoc, StateT.run_bind,
    Option.pure_def, Option.bind_eq_bind, Option.bind_some, run_readNtohU16, run_readNtohU32,
    StateT.run_pure, hbrief, ne_eq, not_true_eq_false, if_false, hflag, hlength, run_next_two,
    run_take hoptions]
  rfl

theorem deserializeL4_tcp (htype : ch.headerType = 7) (hprot : ch.l3Prot = 0x6)
    {l p : Bytes} {offset : ℕ} (hl : l.length = offset) {r : TcpFields × Option ℕ} {i : Bytes}
    (hrun : ch.deserializeTcp.run p = some (r, i)) (j : Bytes) :
    (ch.deserializeL4 c (l ++ p) offset).run j =
      some (({ ch with l4 := .tcp r.1 }, r.2), i) := by
  have htype : ch.headerType &&& l4Header ≠ 0 := by
    rw [htype]
    decide
  rw [deserializeL4, if_pos htype, if_pos hprot, List.drop_left' hl]
  simp only [StateT.run_bind, StateT.run_set, hrun, StateT.run_pure, Option.pure_def,
    Option.bind_eq_bind, Option.bind_some]

/-- UDP. -/
theorem run_deserializeUdp_full (hbrief : ch.brief = 0) (hget : ch.getInt = 1)
    (hpint : c.mode = .pint → c.pintBytes = 2) (h : UdpFields) (rest : Bytes) :
    ∃ ih, (ch.deserializeUdp c).run (serializeUdp c h ++ rest) =
      some ({ h with ih := ih }, rest) ∧ ih.Agrees c h.ih := by
  have hget : ch.getInt ≠ 0 := by
    rw [hget]
    decide
  obtain ⟨ih, hih, hagrees⟩ := run_deserializeInt hpint hget h.ih rest
  refine ⟨ih, ?_, hagrees⟩
  rw [serializeUdp, deserializeUdp, deserializeUdpSize, if_neg (not_not.2 hbrief)]
  simp only [List.append_assoc, StateT.run_bind, Option.pure_def, Option.bind_eq_bind,
    Option.bind_some, run_readNtohU16, run_readNtohU32, StateT.run_pure, run_next_two, hih]

/-- ACKs and NACKs. -/
theorem run_deserializeAck_full (hget : ch.getInt = 1)
    (hpint : c.mode = .pint → c.pintBytes = 2) (h : AckFields) (rest : Bytes) :
    ∃ ih, (ch.deserializeAck c).run (serializeAck c h h.ih ++ rest) =
      some ({ h with ih := ih }, rest) ∧ ih.Agrees c h.ih := by
  have hget : ch.getInt ≠ 0 := by
    rw [hget]
    decide
  obtain ⟨ih, hih, hagrees⟩ := run_deserializeInt hpint hget h.ih rest
  refine ⟨ih, ?_, hagrees⟩
  rw [serializeAck, deserializeAck]
  simp [hih]

/-- Congestion notifications. -/
theorem run_deserializeCnp_full (h : CnpFields) (rest : Bytes) :
    deserializeCnp.run (serializeCnp h ++ rest) = some (h, rest) := by
  rw [serializeCnp, deserializeCnp]
  simp

/-- PFC frames. -/
theorem run_deserializePfc_full (h : PfcFields) (rest : Bytes) :
    deserializePfc.run (serializePfc h ++ rest) = some (h, rest) := by
  rw [serializePfc, deserializePfc]
  simp

/-! ### Layer 4 -/

/-- Layer 4 of `ch` is read back into `prev`, and has the size that is expected. -/
structure ReadsBack (c : IntConfig) (prev ch : CustomHeader) (rest : Bytes) (l4 : L4) (n : ℕ) :
    Prop where
  run : ∀ l3 : Bytes, l3.length = 34 →
    (prev.deserializeL4 c (l3 ++ (ch.serializeL4 c ++ rest)) 34).run (ch.serializeL4 c ++ rest) =
      some (({ prev with l4 := l4 }, some n), rest)
  restores : L4Restores c l4 ch.l4
  length : (ch.serializeL4 c).length = n
  size : ch.getSerializedSize c = 34 + n

variable (hch : Carried ch) (htype : prev.headerType = 7) (hprev : prev.l3Prot = ch.l3Prot)
  (rest : Bytes)

include hch htype hprev

theorem readsBack_tcp (hbrief : prev.brief = 0) {h : TcpFields} (hl4 : ch.l4 = .tcp h) :
    ∃ l4 n, ReadsBack c prev ch rest l4 n := by
  have hcarried := hch.l4
  rw [hl4] at hcarried
  obtain ⟨hprot, hlow, hhigh, hflags, hbuf⟩ := hcarried
  have hser : ch.serializeL4 c = serializeTcp h := by rw [serializeL4, if_pos hprot, hl4]
  have hrun := run_deserializeTcp_of hbrief hlow hhigh hflags hbuf rest
  refine ⟨.tcp { h with optionBuf := h.options }, h.length.toNat * 4, fun l3 hl3 => ?_, ?_, ?_, ?_⟩
  · rw [hser]
    exact deserializeL4_tcp htype (hprev.trans hprot) hl3 hrun _
  · rw [hl4, L4Restores, TcpFields.options, TcpFields.options, List.take_take, min_self]
  · have hlow' : 5 ≤ h.length.toNat := UInt8.le_iff_toNat_le.1 hlow
    rw [hser, serializeTcp, if_pos (optionLen_le hlow hhigh), toNat_optionLen hlow,
      ← TcpFields.options, List.length_append, length_options hhigh hbuf]
    simp
    omega
  · rw [getSerializedSize_eq hch.headerType, if_pos hprot, hl4]
    rfl

theorem readsBack_udp (hbrief : prev.brief = 0) (hget : prev.getInt = 1)
    (hpint : c.mode = .pint → c.pintBytes = 2) {h : UdpFields} (hl4 : ch.l4 = .udp h) :
    ∃ l4 n, ReadsBack c prev ch rest l4 n := by
  have hprot := hch.l4
  rw [hl4] at hprot
  have hser : ch.serializeL4 c = serializeUdp c h := by
    rw [serializeL4, hprot, hl4]
    rfl
  obtain ⟨ih, hrun, hagrees⟩ := run_deserializeUdp_full hbrief hget hpint h rest
  refine ⟨.udp { h with ih := ih }, getUdpHeaderSize c, fun l3 hl3 => ?_, ?_, ?_, ?_⟩
  · rw [hser]
    exact deserializeL4_udp prev htype (hprev.trans hprot) hl3 hrun _
  · rw [hl4]
    exact ⟨rfl, hagrees⟩
  · rw [hser]
    simp [serializeUdp, getUdpHeaderSize, IntHeader.length_serialize hpint]
    omega
  · rw [getSerializedSize_eq hch.headerType, hprot]
    rfl

theorem readsBack_cnp {h : CnpFields} (hl4 : ch.l4 = .cnp h) :
    ∃ l4 n, ReadsBack c prev ch rest l4 n := by
  have hprot := hch.l4
  rw [hl4] at hprot
  have hser : ch.serializeL4 c = serializeCnp h := by
    rw [serializeL4, hprot, hl4]
    rfl
  refine ⟨.cnp h, 8, fun l3 _ => ?_, ?_, ?_, ?_⟩
  · rw [hser]
    exact deserializeL4_cnp prev htype (hprev.trans hprot) (run_deserializeCnp_full h rest) _ _
  · rw [hl4]
    rfl
  · rw [hser]
    simp [serializeCnp]
  · rw [getSerializedSize_eq hch.headerType, hprot]
    rfl

theorem readsBack_ack (hget : prev.getInt = 1) (hpint : c.mode = .pint → c.pintBytes = 2)
    {h : AckFields} (hl4 : ch.l4 = .ack h) : ∃ l4 n, ReadsBack c prev ch rest l4 n := by
  have hprot := hch.l4
  rw [hl4] at hprot
  have hser : ch.serializeL4 c = serializeAck c h h.ih := by
    rcases hprot with hprot | hprot <;> rw [serializeL4, hprot, hl4] <;> rfl
  obtain ⟨ih, hrun, hagrees⟩ := run_deserializeAck_full hget hpint h rest
  refine ⟨.ack { h with ih := ih }, getAckSerializedSize c, fun l3 _ => ?_, ?_, ?_, ?_⟩
  · rw [hser]
    exact deserializeL4_ack prev htype (hprev ▸ hprot) hrun _ _
  · rw [hl4]
    exact ⟨rfl, hagrees⟩
  · rw [hser]
    simp [serializeAck, getAckSerializedSize, IntHeader.length_serialize hpint]
    omega
  · rw [getSerializedSize_eq hch.headerType]
    rcases hprot with hprot | hprot <;> rw [hprot] <;> rfl

theorem readsBack_pfc {h : PfcFields} (hl4 : ch.l4 = .pfc h) :
    ∃ l4 n, ReadsBack c prev ch rest l4 n := by
  have hprot := hch.l4
  rw [hl4] at hprot
  have hser : ch.serializeL4 c = serializePfc h := by
    rw [serializeL4, hprot, hl4]
    rfl
  refine ⟨.pfc h, 9, fun l3 _ => ?_, ?_, ?_, ?_⟩
  · rw [hser]
    exact deserializeL4_pfc prev htype (hprev.trans hprot) (run_deserializePfc_full h rest) _ _
  · rw [hl4]
    rfl
  · rw [hser]
    simp [serializePfc]
  · rw [getSerializedSize_eq hch.headerType, hprot]
    rfl

end Layers

/-! ### The round trip -/

/-- **The round trip.** A header that the format can carry is read back from what it has written,
into any header that reads all layers and is not brief: every field that the protocol carries is
restored. The number of bytes written and the value returned are both the size of the header. -/
theorem deserialize_serialize_append (c : IntConfig) (hpint : c.mode = .pint → c.pintBytes = 2)
    (prev ch : CustomHeader) (htype : prev.headerType = 7) (hbrief : prev.brief = 0)
    (hget : prev.getInt = 1) (hch : Carried ch) (rest : Bytes) :
    ∃ ch', prev.deserialize c (ch.serialize c ++ rest) = some (ch', ch.getSerializedSize c) ∧
      Restores c ch' ch ∧ (ch.serialize c).length = ch.getSerializedSize c := by
  have htype' : (readL3 prev ch).headerType = 7 := htype
  have hprot : (readL3 prev ch).l3Prot = ch.l3Prot := rfl
  have hbrief' : (readL3 prev ch).brief = 0 := hbrief
  have hget' : (readL3 prev ch).getInt = 1 := hget
  obtain ⟨l4, n, h⟩ : ∃ l4 n, ReadsBack c (readL3 prev ch) ch rest l4 n := by
    have hsome := hch.l4
    cases hl4 : ch.l4 with
    | none =>
      rw [hl4] at hsome
      exact hsome.elim
    | tcp h => exact readsBack_tcp hch htype' hprot rest hbrief' hl4
    | udp h => exact readsBack_udp hch htype' hprot rest hbrief' hget' hpint hl4
    | cnp h => exact readsBack_cnp hch htype' hprot rest hl4
    | ack h => exact readsBack_ack hch htype' hprot rest hget' hpint hl4
    | pfc h => exact readsBack_pfc hch htype' hprot rest hl4
  refine ⟨{ readL3 prev ch with l4 := l4 }, ?_, ?_, ?_⟩
  · rw [h.size]
    exact deserialize_of_L4 htype hbrief hch rest h.run
  · exact ⟨rfl, rfl, rfl, rfl, rfl, rfl, rfl, rfl, rfl, rfl, hch.checksum.symm, h.restores⟩
  · rw [serialize_eq hch.headerType, h.size, List.length_append, List.length_append,
      length_pppSerialize, serializeL3, length_ipv4Serialize, h.length]
    omega

/-- A SYN with one word of options, under a PINT of two bytes. -/
def syn : CustomHeader :=
  { new 7 with
    pppProto := 0x21
    payloadSize := 24
    ttl := 64
    l3Prot := 0x6
    ipv4Flags := 2
    fragmentOffset := 8
    sip := 0x0b000001
    dip := 0x0b000101
    l4 := .tcp
      { sport := 10000
        dport := 100
        windowSize := 0xffff
        urgentPointer := 0
        tcpFlags := 0x02
        length := 6
        seq := 1
        ack := 0
        optionBuf := [2, 4, 0x05, 0xb4] ++ List.replicate 28 0 } }

theorem deserialize_syn : ∃ ch', ({ new 7 with brief := 0 } : CustomHeader).deserialize
      ⟨.pint, 2, 1⟩ (syn.serialize ⟨.pint, 2, 1⟩ ++ [0xde, 0xad]) =
        some (ch', syn.getSerializedSize ⟨.pint, 2, 1⟩) ∧
      Restores ⟨.pint, 2, 1⟩ ch' syn ∧
      (syn.serialize ⟨.pint, 2, 1⟩).length = syn.getSerializedSize ⟨.pint, 2, 1⟩ :=
  deserialize_serialize_append _ (fun _ => rfl) _ syn rfl rfl rfl
    ⟨rfl, by decide, by decide, rfl, by refine ⟨rfl, ?_, ?_, ?_, rfl⟩ <;> decide⟩ _

end CustomHeader

end HpccSim
