import HpccSim.Lib.Run
import HpccSim.Lib.Spacing
import HpccSim.RdmaHw

/-!
# ACKs of the milestone rule

`ReceiverCheckSeq` acknowledges a packet in order that reaches the milestone, and then moves the
milestone on by `m_ack_interval`; but `ReceiveUdp` sets the milestone back to `m_ack_interval` for
every packet, before the check. So once a queue pair has received that much, every packet in order
is acknowledged, and there is one ACK for each interval only if the packets themselves are large
enough.

## Main definitions

* `RdmaHw.byMilestone`: an ACK is one of the milestone rule.
* `RdmaHw.arrive`: a packet in order arrives, and the ACKs of the rule are counted.
* `RdmaHw.RespectsInterval`: there is at most one ACK for each interval.
* `RdmaHw.packetEnds`: where the packets end.

## Main results

* `RdmaHw.respectsInterval_iff`: the interval is respected exactly if the packets are spaced by it.
* `RdmaHw.smallPackets_break_interval`: packets of 1000 bytes with an interval of 2000.
-/

namespace HpccSim

namespace RdmaHw

open Spacing

/-- A receiving queue pair, once there is one, with the number of ACKs that the milestone rule has
generated. -/
structure CountedRx where
  rxQp : Option RdmaRxQueuePair
  milestoneAcks : ℕ

/-- `ReceiverNextExpectedSeq`. -/
def CountedRx.expected (s : CountedRx) : UInt32 := (s.rxQp.getD .new).receiverNextExpectedSeq

/-- No packet has arrived. -/
def CountedRx.init : CountedRx := ⟨none, 0⟩

section

variable (hw : RdmaHw)

/-- The ACK is one of the milestone rule: it has moved the milestone from where `ReceiveUdp` had set
it. -/
def byMilestone (v : SeqVerdict) (q : RdmaRxQueuePair) : Bool :=
  v = .ack && q.milestoneRx ≠ hw.ackInterval.toInt32

/-- The packet in order with `p.2` bytes arrives at the time `p.1`. -/
def arrive (s : CountedRx) (p : ℕ × UInt32) : Option CountedRx :=
  (hw.receiveUdp p.1 s.rxQp { seq := s.expected, size := p.2 }).map fun (v, q) =>
    { rxQp := some q
      milestoneAcks := s.milestoneAcks + if hw.byMilestone v q then 1 else 0 }

/-- There has been at most one ACK of the milestone rule for each interval received. -/
def RespectsInterval (s : CountedRx) : Prop :=
  s.milestoneAcks ≤ s.expected.toNat / hw.ackInterval.toNat

end

/-- Where packets of the sizes `l` end that start at `seq`, in the 32 bits of the headers. -/
def packetEnds : UInt32 → List UInt32 → List ℕ
  | _, [] => []
  | seq, size :: l => (seq + size).toNat :: packetEnds (seq + size) l

variable {hw : RdmaHw}

/-! ### A packet in order -/

section InOrder

variable {now : ℕ} {rxQp : Option RdmaRxQueuePair} {p : DataPacket}
  (hseq : p.seq = (rxQp.getD .new).receiverNextExpectedSeq)

include hseq

/-- If it does not end before the interval, it is acknowledged by the milestone rule. -/
theorem receiveUdp_of_le (h : hw.ackInterval ≤ p.seq + p.size) :
    hw.receiveUdp now rxQp p = some (.ack, { rxQp.getD .new with
      receiverNextExpectedSeq := p.seq + p.size
      milestoneRx := hw.ackInterval.toInt32 + hw.ackInterval.toInt32 }) := by
  have hself : hw.ackInterval.toInt32.toUInt32 = hw.ackInterval := rfl
  simp only [receiveUdp, receiverCheckSeq, ← hseq, if_true, hself, ge_iff_le, if_pos h]

/-- If it ends before the interval, the chunk decides. -/
theorem receiveUdp_of_lt (h : p.seq + p.size < hw.ackInterval) :
    hw.receiveUdp now rxQp p =
      if hw.chunk = 0 then none
      else some (if (p.seq + p.size) % hw.chunk = 0 then .ack else .accepted,
        { rxQp.getD .new with
          receiverNextExpectedSeq := p.seq + p.size
          milestoneRx := hw.ackInterval.toInt32 }) := by
  have hself : hw.ackInterval.toInt32.toUInt32 = hw.ackInterval := rfl
  simp only [receiveUdp, receiverCheckSeq, ← hseq, if_true, hself, ge_iff_le,
    if_neg (UInt32.not_le.2 h)]
  split_ifs <;> rfl

end InOrder

/-- The rule moves the milestone, if there is an interval. -/
theorem byMilestone_ack_iff {q : RdmaRxQueuePair}
    (h : q.milestoneRx = hw.ackInterval.toInt32 + hw.ackInterval.toInt32) :
    hw.byMilestone .ack q = true ↔ hw.ackInterval ≠ 0 := by
  have hzero : hw.ackInterval.toInt32 = 0 ↔ hw.ackInterval = 0 := by
    refine ⟨fun h => ?_, fun h => by rw [h]; rfl⟩
    rw [← UInt32.toUInt32_toInt32 hw.ackInterval, h]
    rfl
  simp [byMilestone, h, hzero]

/-- If the milestone is where it was, the ACK is not one of the rule. -/
theorem byMilestone_of_eq {v : SeqVerdict} {q : RdmaRxQueuePair}
    (h : q.milestoneRx = hw.ackInterval.toInt32) : hw.byMilestone v q = false := by
  simp [byMilestone, h]

/-- **A packet in order** is acknowledged by the milestone rule exactly if it does not end before
the interval. -/
theorem arrive_eq_some (hint : hw.ackInterval ≠ 0) (hchunk : hw.chunk ≠ 0) (s : CountedRx)
    (p : ℕ × UInt32) : ∃ t, arrive hw s p = some t ∧ t.expected = s.expected + p.2 ∧
      t.milestoneAcks =
        if hw.ackInterval.toNat ≤ (s.expected + p.2).toNat then s.milestoneAcks + 1
        else s.milestoneAcks := by
  have hseq : (⟨s.expected, p.2⟩ : DataPacket).seq = (s.rxQp.getD .new).receiverNextExpectedSeq :=
    rfl
  rw [arrive]
  rcases Nat.lt_or_ge (s.expected + p.2).toNat hw.ackInterval.toNat with hlt | hge
  · rw [receiveUdp_of_lt hseq (UInt32.lt_iff_toNat_lt.2 hlt), if_neg hchunk,
      if_neg (Nat.not_le.2 hlt)]
    exact ⟨_, rfl, rfl, congrArg (s.milestoneAcks + if · then 1 else 0) (byMilestone_of_eq rfl)⟩
  · rw [receiveUdp_of_le hseq (UInt32.le_iff_toNat_le.2 hge), if_pos hge]
    exact ⟨_, rfl, rfl, congrArg (s.milestoneAcks + ·) (if_pos ((byMilestone_ack_iff rfl).2 hint))⟩

/-! ### Runs -/

/-- From any state on, the interval is respected exactly if the ACKs keep within the ends of the
packets. -/
theorem always_respectsInterval_iff (hint : hw.ackInterval ≠ 0) (hchunk : hw.chunk ≠ 0)
    (ps : List (ℕ × UInt32)) (s : CountedRx) :
    Run.Always (arrive hw) hw.RespectsInterval s ps ↔ hw.RespectsInterval s ∧
      Within hw.ackInterval.toNat s.milestoneAcks (packetEnds s.expected (ps.map Prod.snd)) := by
  induction ps generalizing s with
  | nil => simp [Run.Always, packetEnds, Within]
  | cons p ps ih =>
    obtain ⟨t, hstep, hexp, hacks⟩ := arrive_eq_some hint hchunk s p
    have hpos : 0 < hw.ackInterval.toNat :=
      Nat.pos_of_ne_zero fun h => hint (UInt32.toNat_inj.1 h)
    have hhead : hw.RespectsInterval t ↔
        t.milestoneAcks * hw.ackInterval.toNat ≤ (s.expected + p.2).toNat := by
      rw [RespectsInterval, Nat.le_div_iff_mul_le hpos, hexp]
    have hnext : (∀ t', arrive hw s p = some t' →
        Run.Always (arrive hw) hw.RespectsInterval t' ps) ↔
          Run.Always (arrive hw) hw.RespectsInterval t ps := by
      simp [hstep]
    rw [Run.Always, hnext, ih t, hhead, hexp, List.map_cons, packetEnds, Within, ← hacks]

/-- **There is one ACK for each interval** exactly if, from any packet on that does not end before
the interval, packet number `n` does not end before `n` intervals. -/
theorem respectsInterval_iff (hint : 1 ≤ hw.ackInterval) (hchunk : 1 ≤ hw.chunk)
    (ps : List (ℕ × UInt32)) :
    Run.Always (arrive hw) hw.RespectsInterval .init ps ↔
      Spaced hw.ackInterval.toNat (packetEnds 0 (ps.map Prod.snd)) := by
  have hne {n : UInt32} (h : 1 ≤ n) : n ≠ 0 := by
    rintro rfl
    exact absurd h (by decide)
  rw [always_respectsInterval_iff (hne hint) (hne hchunk), ← within_zero_iff]
  exact and_iff_right (Nat.zero_le _)

/-- Packets that are as large as the interval respect it. -/
theorem largePackets_respect_interval :
    Run.Always (arrive ⟨1000, 4000, 1000, 500000, false, false⟩)
      (RespectsInterval ⟨1000, 4000, 1000, 500000, false, false⟩) .init
      [(0, 1000), (100, 1000), (200, 1000)] := by
  rw [respectsInterval_iff (by decide) (by decide), ← within_zero_iff]
  simp [packetEnds, Within]

/-- **Packets of half the interval**: the third one is acknowledged as well, the second ACK within
3000 bytes. -/
theorem smallPackets_break_interval :
    (Run.exec (arrive ⟨1000, 4000, 2000, 500000, false, false⟩) .init
      [(0, 1000), (100, 1000), (200, 1000)]).map (fun s => (s.expected, s.milestoneAcks)) =
        some (3000, 2) ∧
      ¬ Run.Always (arrive ⟨1000, 4000, 2000, 500000, false, false⟩)
        (RespectsInterval ⟨1000, 4000, 2000, 500000, false, false⟩) .init
        [(0, 1000), (100, 1000), (200, 1000)] := by
  refine ⟨by decide +kernel, fun h => ?_⟩
  have hlive := (always_respectsInterval_iff (by decide) (by decide) _ _).1 h
  have hspaced := within_zero_iff.1 hlive.2
  exact absurd (hspaced 1 2 2000 3000 (by decide) rfl rfl (by decide)) (by decide)

end RdmaHw

end HpccSim
