import HpccSim.QueuePair

/-!
# The transport

The part of `RdmaHw` (`rdma-hw.cc`) that moves the data of a queue pair: segmentation at the
sender (`GetNxtPacket`), the check of the sequence number and the reply at the receiver
(`ReceiveUdp`, `ReceiverCheckSeq`), and the reaction to the reply (`ReceiveAck`, `RecoverQueue`).
ECN marks and telemetry are left out: they concern the congestion control only.

A division by `m_chunk` that the source executes with `m_chunk = 0` is a step that does not exist
(`none`).

## Main definitions

* `RdmaHw`: the attributes.
* `RdmaHw.getNxtPacket`, `RdmaHw.receiveUdp`, `RdmaHw.receiverCheckSeq`, `RdmaHw.processAck`.

## Main results

* `RdmaHw.getNxtPacket_spec`: the packet made and the sender after it.
* `RdmaHw.receiveUdp_cases`: what the receiver does with a packet.
* `RdmaHw.processAck_eq_some`: what the sender does with a reply.
-/

namespace HpccSim

/-- The attributes of `RdmaHw` that the transport reads. `nackInterval` is in time steps. -/
structure RdmaHw where
  mtu : UInt32
  chunk : UInt32
  ackInterval : UInt32
  nackInterval : ℕ
  backto0 : Bool
  varWin : Bool

/-- What `AddQueuePair` is called with. -/
structure Flow where
  size : UInt64
  pg : UInt16
  sip : UInt32
  dip : UInt32
  sport : UInt16
  dport : UInt16
  win : UInt32

/-- A data packet: `SeqTsHeader` and the length of the payload. -/
structure DataPacket where
  seq : UInt32
  size : UInt32
  deriving DecidableEq

/-- A reply, of protocol `0xFD` (`nack`) or `0xFC`. -/
structure AckFrame where
  nack : Bool
  seq : UInt32
  deriving DecidableEq

/-- The result of `ReceiverCheckSeq`. -/
inductive SeqVerdict where
  /-- `1`: in order, acknowledge. -/
  | ack
  /-- `2`: a gap, send a NACK. -/
  | nack
  /-- `3` -/
  | duplicate
  /-- `4`: a gap for which a NACK has been sent recently. -/
  | nackHeld
  /-- `5`: in order, no acknowledgement. -/
  | accepted
  deriving DecidableEq

/-- The packet was in order and has been taken in. -/
def SeqVerdict.accepts (v : SeqVerdict) : Bool := v = .ack || v = .accepted

namespace RdmaHw

variable (hw : RdmaHw)

/-- The queue pair that `AddQueuePair` makes, at time `now` on a device of rate `bps`. -/
def newQp (now : ℕ) (bps : UInt64) (f : Flow) : RdmaQueuePair where
  pg := f.pg
  sip := f.sip
  dip := f.dip
  sport := f.sport
  dport := f.dport
  size := f.size
  sndNxt := 0
  sndUna := 0
  win := f.win
  varWin := hw.varWin
  rate := bps
  maxRate := bps
  nextAvail := now

/-- `RdmaHw::GetNxtPacket`. -/
def getNxtPacket (qp : RdmaQueuePair) : DataPacket × RdmaQueuePair :=
  let left := qp.getBytesLeft.toUInt32
  let payloadSize := if hw.mtu < left then hw.mtu else left
  ({ seq := qp.sndNxt.toUInt32, size := payloadSize },
    { qp with sndNxt := qp.sndNxt + payloadSize.toUInt64 })

/-- `RdmaHw::RecoverQueue`. -/
def recoverQueue (qp : RdmaQueuePair) : RdmaQueuePair := { qp with sndNxt := qp.sndUna }

/-- `RdmaHw::ReceiverCheckSeq`. -/
def receiverCheckSeq (now : ℕ) (seq : UInt32) (q : RdmaRxQueuePair) (size : UInt32) :
    Option (SeqVerdict × RdmaRxQueuePair) :=
  let expected := q.receiverNextExpectedSeq
  if seq = expected then
    let q := { q with receiverNextExpectedSeq := expected + size }
    if q.receiverNextExpectedSeq ≥ q.milestoneRx.toUInt32 then
      some (.ack, { q with milestoneRx := q.milestoneRx + hw.ackInterval.toInt32 })
    else if hw.chunk = 0 then
      none
    else if q.receiverNextExpectedSeq % hw.chunk = 0 then
      some (.ack, q)
    else
      some (.accepted, q)
  else if seq > expected then
    if now ≥ q.nackTimer ∨ q.lastNACK ≠ expected then
      let q := { q with nackTimer := now + hw.nackInterval, lastNACK := expected }
      if hw.backto0 then
        if hw.chunk = 0 then
          none
        else
          some (.nack,
            { q with receiverNextExpectedSeq := q.receiverNextExpectedSeq / hw.chunk * hw.chunk })
      else
        some (.nack, q)
    else
      some (.nackHeld, q)
  else
    some (.duplicate, q)

/-- The reply that `ReceiveUdp` builds, if any. -/
def reply (q : RdmaRxQueuePair) : SeqVerdict → List AckFrame
  | .ack => [{ nack := false, seq := q.receiverNextExpectedSeq }]
  | .nack => [{ nack := true, seq := q.receiverNextExpectedSeq }]
  | _ => []

/-- `RdmaHw::ReceiveUdp`, for the receiving queue pair that `GetRxQp` finds or else creates. -/
def receiveUdp (now : ℕ) (rxQp : Option RdmaRxQueuePair) (p : DataPacket) :
    Option (SeqVerdict × RdmaRxQueuePair) :=
  let q := rxQp.getD .new
  hw.receiverCheckSeq now p.seq { q with milestoneRx := hw.ackInterval.toInt32 } p.size

/-- The call of `Acknowledge` in `RdmaHw::ReceiveAck`. -/
def acknowledge (qp : RdmaQueuePair) (seq : UInt32) : Option RdmaQueuePair :=
  if !hw.backto0 then
    some (qp.acknowledge seq.toUInt64)
  else if hw.chunk = 0 then
    none
  else
    some (qp.acknowledge (seq / hw.chunk * hw.chunk).toUInt64)

/-- The end of `RdmaHw::ReceiveAck`: a NACK makes the sender go back. -/
def recoverOnNack (ch : AckFrame) (qp : RdmaQueuePair) : RdmaQueuePair :=
  if ch.nack then recoverQueue qp else qp

/-- `RdmaHw::ReceiveAck` for the queue pair it has found, and whether it calls `QpComplete`. -/
def processAck (qp : RdmaQueuePair) (ch : AckFrame) : Option (RdmaQueuePair × Bool) :=
  if hw.ackInterval = 0 then
    some (recoverOnNack ch qp, false)
  else
    (hw.acknowledge qp ch.seq).map fun qp => (recoverOnNack ch qp, qp.isFinished)

/-! ### Specifications -/

section Spec

variable {hw} {qp qp' : RdmaQueuePair} {q q' : RdmaRxQueuePair}

/-- Of a flow of less than `2 ^ 32` bytes, with some left to send, the next packet carries at most
`m_mtu` of them. -/
theorem getNxtPacket_spec (hw : RdmaHw) (hsize : qp.size.toNat < 2 ^ 32)
    (hle : qp.sndNxt.toNat ≤ qp.size.toNat) :
    (hw.getNxtPacket qp).1.seq.toNat = qp.sndNxt.toNat ∧
      (hw.getNxtPacket qp).1.size.toNat =
        min hw.mtu.toNat (qp.size.toNat - qp.sndNxt.toNat) ∧
      (hw.getNxtPacket qp).2.sndNxt.toNat =
        qp.sndNxt.toNat + (hw.getNxtPacket qp).1.size.toNat := by
  have hleft : qp.getBytesLeft.toUInt32.toNat = qp.size.toNat - qp.sndNxt.toNat := by
    rw [UInt64.toNat_toUInt32, RdmaQueuePair.toNat_getBytesLeft]
    omega
  have hpayload : (hw.getNxtPacket qp).1.size.toNat =
      min hw.mtu.toNat (qp.size.toNat - qp.sndNxt.toNat) := by
    simp only [getNxtPacket]
    split_ifs with h
    · rw [UInt32.lt_iff_toNat_lt, hleft] at h
      omega
    · rw [UInt32.lt_iff_toNat_lt, hleft] at h
      rw [hleft]
      omega
  refine ⟨?_, hpayload, ?_⟩
  · simp only [getNxtPacket, UInt64.toNat_toUInt32]
    omega
  · have hadd : (hw.getNxtPacket qp).2.sndNxt =
        qp.sndNxt + (hw.getNxtPacket qp).1.size.toUInt64 := rfl
    rw [hadd, UInt64.toNat_add, UInt32.toNat_toUInt64]
    omega

@[simp] theorem size_getNxtPacket : (hw.getNxtPacket qp).2.size = qp.size := rfl

@[simp] theorem sndUna_getNxtPacket : (hw.getNxtPacket qp).2.sndUna = qp.sndUna := rfl

/-- What the receiver does with a packet: it takes in the one it expects, and otherwise keeps
its place, or goes back to the start of the chunk if it sends a NACK. -/
theorem receiverCheckSeq_cases {now : ℕ} {seq size : UInt32} {v : SeqVerdict}
    (h : hw.receiverCheckSeq now seq q size = some (v, q')) :
    (seq = q.receiverNextExpectedSeq ∧
      q'.receiverNextExpectedSeq = q.receiverNextExpectedSeq + size ∧
      v = if q'.receiverNextExpectedSeq ≥ q.milestoneRx.toUInt32 ∨
        q'.receiverNextExpectedSeq % hw.chunk = 0 then .ack else .accepted) ∨
    (v = .nack ∧ seq > q.receiverNextExpectedSeq ∧
      q'.receiverNextExpectedSeq = if hw.backto0 then
        q.receiverNextExpectedSeq / hw.chunk * hw.chunk else q.receiverNextExpectedSeq) ∨
    ((v = .nackHeld ∧ seq > q.receiverNextExpectedSeq ∨
      v = .duplicate ∧ seq < q.receiverNextExpectedSeq) ∧ q' = q) := by
  simp only [receiverCheckSeq] at h
  split_ifs at h with h₁ h₂ h₃ h₄ h₅ h₆ h₇ h₈
  · cases h
    exact .inl ⟨h₁, rfl, by simp [h₂]⟩
  · cases h
    exact .inl ⟨h₁, rfl, by simp [h₄]⟩
  · cases h
    refine .inl ⟨h₁, rfl, ?_⟩
    rw [if_neg]
    rintro (h | h)
    · exact h₂ h
    · exact h₄ h
  · cases h
    exact .inr (.inl ⟨rfl, h₅, by rw [if_pos h₇]⟩)
  · cases h
    exact .inr (.inl ⟨rfl, h₅, by rw [if_neg h₇]⟩)
  · cases h
    exact .inr (.inr ⟨.inl ⟨rfl, h₅⟩, rfl⟩)
  · cases h
    have hlt : seq < q.receiverNextExpectedSeq := by
      have hne : seq.toNat ≠ q.receiverNextExpectedSeq.toNat := mt UInt32.toNat_inj.1 h₁
      rw [gt_iff_lt, UInt32.lt_iff_toNat_lt] at h₅
      rw [UInt32.lt_iff_toNat_lt]
      omega
    exact .inr (.inr ⟨.inr ⟨rfl, hlt⟩, rfl⟩)

/-- What `ReceiveUdp` does with a packet in order. -/
theorem receiveUdp_of_seq_eq {now : ℕ} {rxQp : Option RdmaRxQueuePair} {p : DataPacket}
    {v : SeqVerdict} (h : hw.receiveUdp now rxQp p = some (v, q'))
    (hseq : p.seq = (rxQp.getD .new).receiverNextExpectedSeq) :
    q'.receiverNextExpectedSeq = p.seq + p.size ∧
      v = if p.seq + p.size ≥ hw.ackInterval ∨ (p.seq + p.size) % hw.chunk = 0 then .ack
        else .accepted := by
  have hself : hw.ackInterval.toInt32.toUInt32 = hw.ackInterval := rfl
  rcases receiverCheckSeq_cases h with ⟨-, hq, hv⟩ | ⟨-, hlt, -⟩ | ⟨⟨-, hlt⟩ | ⟨-, hlt⟩, -⟩
  · simp only [hself] at hq hv
    rw [← hseq] at hq
    rw [hq] at hv
    exact ⟨hq, hv⟩
  all_goals
    simp only [← hseq] at hlt
    exact absurd hlt (UInt32.lt_irrefl _)

/-- **What the receiver does**, over the natural numbers: it moves on by a packet it takes in, and
otherwise stays or goes back. -/
theorem receiveUdp_cases {now : ℕ} {rxQp : Option RdmaRxQueuePair} {p : DataPacket}
    {v : SeqVerdict} (h : hw.receiveUdp now rxQp p = some (v, q'))
    (hfit : p.seq.toNat + p.size.toNat < 2 ^ 32) :
    (v.accepts = true ∧ p.seq = (rxQp.getD .new).receiverNextExpectedSeq ∧
      q'.receiverNextExpectedSeq.toNat = p.seq.toNat + p.size.toNat) ∨
    (v.accepts = false ∧
      q'.receiverNextExpectedSeq.toNat ≤ (rxQp.getD .new).receiverNextExpectedSeq.toNat ∧
      (hw.backto0 = false →
        q'.receiverNextExpectedSeq = (rxQp.getD .new).receiverNextExpectedSeq)) := by
  rcases receiverCheckSeq_cases h with ⟨hseq, -, -⟩ | ⟨rfl, -, hq⟩ | ⟨⟨rfl, -⟩ | ⟨rfl, -⟩, rfl⟩
  · obtain ⟨hq, hv⟩ := receiveUdp_of_seq_eq h hseq
    refine .inl ⟨?_, hseq, ?_⟩
    · rw [hv]
      split_ifs <;> rfl
    · rw [hq, UInt32.toNat_add, Nat.mod_eq_of_lt hfit]
  · refine .inr ⟨rfl, ?_, fun hback => by rw [hq, hback]; rfl⟩
    rw [hq]
    split_ifs
    · rw [UInt32.toNat_mul, UInt32.toNat_div]
      exact (Nat.mod_le _ _).trans (Nat.div_mul_le_self _ _)
    · exact le_rfl
  · exact .inr ⟨rfl, le_rfl, fun _ => rfl⟩
  · exact .inr ⟨rfl, le_rfl, fun _ => rfl⟩

theorem seq_of_mem_reply {v : SeqVerdict} {a : AckFrame} (h : a ∈ reply q v) :
    a.seq = q.receiverNextExpectedSeq := by
  cases v <;> simp_all [reply]

/-- What a reply with number `seq` acknowledges. -/
def ackedSeq (hw : RdmaHw) (seq : UInt32) : ℕ :=
  if hw.ackInterval = 0 then
    0
  else if hw.backto0 then
    seq.toNat / hw.chunk.toNat * hw.chunk.toNat
  else
    seq.toNat

theorem ackedSeq_le (hw : RdmaHw) (seq : UInt32) : hw.ackedSeq seq ≤ seq.toNat := by
  rw [ackedSeq]
  split_ifs
  · exact Nat.zero_le _
  · exact Nat.div_mul_le_self _ _
  · exact le_rfl

/-- **What the sender does** with a reply: it takes note of what is acknowledged and, for a NACK,
goes back to it. -/
theorem processAck_eq_some {ch : AckFrame} {done : Bool}
    (h : hw.processAck qp ch = some (qp', done)) :
    ∃ una nxt : UInt64, qp' = { qp with sndUna := una, sndNxt := nxt } ∧
      una.toNat = max qp.sndUna.toNat (hw.ackedSeq ch.seq) ∧
      nxt = (if ch.nack then una else qp.sndNxt) ∧
      (done = true ↔ hw.ackInterval ≠ 0 ∧ qp.size.toNat ≤ una.toNat) := by
  have hrecover : ∀ una : UInt64, recoverOnNack ch { qp with sndUna := una } =
      { qp with sndUna := una, sndNxt := if ch.nack then una else qp.sndNxt } := by
    intro una
    rw [recoverOnNack]
    split_ifs <;> rfl
  simp only [processAck] at h
  split_ifs at h with hint
  · cases h
    exact ⟨qp.sndUna, _, hrecover _, by simp [ackedSeq, hint], rfl, by simp [hint]⟩
  · obtain ⟨qp₁, hack, hqp⟩ := Option.map_eq_some_iff.1 h
    cases hqp
    obtain ⟨ack, rfl, hval⟩ : ∃ ack, qp₁ = qp.acknowledge ack ∧
        ack.toNat = hw.ackedSeq ch.seq := by
      simp only [acknowledge] at hack
      split_ifs at hack with hback
      · cases hack
        refine ⟨_, rfl, ?_⟩
        rw [ackedSeq, if_neg hint, if_neg (by simpa using hback), UInt32.toNat_toUInt64]
      · cases hack
        refine ⟨_, rfl, ?_⟩
        rw [ackedSeq, if_neg hint, if_pos (by simpa using hback), UInt32.toNat_toUInt64,
          UInt32.toNat_mul, UInt32.toNat_div, Nat.mod_eq_of_lt]
        exact Nat.lt_of_le_of_lt (Nat.div_mul_le_self _ _) ch.seq.toNat_lt
    have hacked : qp.acknowledge ack = { qp with sndUna := (qp.acknowledge ack).sndUna } := by
      rw [RdmaQueuePair.acknowledge]
      split_ifs <;> rfl
    refine ⟨(qp.acknowledge ack).sndUna, _, ?_, ?_, rfl, ?_⟩
    · rw [← hrecover, ← hacked]
    · rw [RdmaQueuePair.toNat_sndUna_acknowledge, hval]
    · rw [RdmaQueuePair.isFinished_iff, RdmaQueuePair.size_acknowledge]
      simp [hint]

/-- With a chunk size, or without going back to zero, a reply is always processed. -/
theorem exists_processAck (h : hw.backto0 = false ∨ hw.chunk ≠ 0) (qp : RdmaQueuePair)
    (ch : AckFrame) : ∃ qp' done, hw.processAck qp ch = some (qp', done) := by
  have hack : ∃ qp', hw.acknowledge qp ch.seq = some qp' := by
    rw [acknowledge]
    split_ifs with hback hchunk
    · exact ⟨_, rfl⟩
    · rcases h with h | h
      · simp [h] at hback
      · exact absurd hchunk h
    · exact ⟨_, rfl⟩
  obtain ⟨qp', hqp'⟩ := hack
  by_cases hint : hw.ackInterval = 0 <;> simp [processAck, hqp', hint]

/-- With a chunk size a packet is always processed. -/
theorem exists_receiveUdp (h : hw.chunk ≠ 0) (now : ℕ) (rxQp : Option RdmaRxQueuePair)
    (p : DataPacket) : ∃ v q, hw.receiveUdp now rxQp p = some (v, q) := by
  simp only [receiveUdp, receiverCheckSeq, h, if_false]
  split_ifs <;> exact ⟨_, _, rfl⟩

end Spec

end RdmaHw

end HpccSim
