import HpccSim.AckInterval

/-!
# The settings that are documented as zero

`L2ChunkSize` and `L2AckInterval` are documented as disabled by `0`. The receiver and the sender do
not treat `0` that way: `ReceiverCheckSeq` and `ReceiveAck` divide by `m_chunk` whenever they come
to it, and a milestone of `0` is reached by every packet, so every packet in order is acknowledged.

## Main definitions

* `Exchange`, `Exchange.step`: the two ends of a queue pair; a division by zero is a step that does
  not exist.
* `Exchange.Safe`: the settings do what is documented in a step.
* `Exchange.Avoids`: the step does not come to a setting that is zero.

## Main results

* `Exchange.along_safe_iff`: the settings do what is documented exactly in the runs whose steps do
  not come to a setting that is zero.
* `Exchange.forall_along_safe_iff`: in all runs, exactly if none is zero.
* `Exchange.zeroSettings_not_safe`: the first packet, or its ACK, comes to one.
-/

namespace HpccSim

/-- The two ends of a queue pair: the sender, as long as it is in `m_qpMap`, the receiver, once
there is one, and the replies that have been sent. -/
structure Exchange where
  qp : Option RdmaQueuePair
  rxQp : Option RdmaRxQueuePair
  replies : List AckFrame

namespace Exchange

/-- A data packet arrives, at a time, or the `k`th reply. -/
inductive Op where
  | data (now : ℕ) (p : DataPacket)
  | reply (k : ℕ)

/-- Nothing has been sent. -/
def init (qp : RdmaQueuePair) : Exchange := ⟨some qp, none, []⟩

section

variable (hw : RdmaHw) (s : Exchange)

/-- `ReceiverNextExpectedSeq`. -/
def expected : UInt32 := (s.rxQp.getD .new).receiverNextExpectedSeq

/-- `ReceiveUdp` or `ReceiveAck`, the latter with `QpComplete` and its callback. Replies may be
lost, repeated and reordered. -/
def step : Op → Option Exchange
  | .data now p => (hw.receiveUdp now s.rxQp p).map fun (v, q) =>
      { s with rxQp := some q, replies := s.replies ++ RdmaHw.reply q v }
  | .reply k =>
    match s.qp, s.replies[k]? with
    | some qp, some ch => (hw.processAck qp ch).map fun (qp, done) =>
        if done then { s with qp := none, rxQp := none } else { s with qp := some qp }
    | _, _ => some s

/-- In a step there is no division by zero; an ACK for a packet in order is not sent if
`m_ack_interval` is `0`, and only by the milestone rule if `m_chunk` is `0`. -/
def Safe (op : Op) : Prop :=
  (step hw s op).isSome = true ∧
    match op with
    | .data now p => ∀ q, hw.receiveUdp now s.rxQp p = some (.ack, q) → p.seq = s.expected →
        hw.ackInterval ≠ 0 ∧ (hw.chunk = 0 → hw.byMilestone .ack q = true)
    | .reply _ => True

/-- A gap makes the receiver send a NACK. -/
def NackDue (now : ℕ) : Prop :=
  now ≥ (s.rxQp.getD .new).nackTimer ∨ (s.rxQp.getD .new).lastNACK ≠ s.expected

/-- The step does not come to a setting that is zero. A packet in order comes to `m_ack_interval`
always, and to `m_chunk` if it ends before the interval; going back to zero, a NACK that is sent
comes to `m_chunk`, and so does a reply that is received by a sender that acknowledges at all. -/
def Avoids : Op → Prop
  | .data now p =>
    (p.seq = s.expected → hw.ackInterval ≠ 0 ∧ (p.seq + p.size < hw.ackInterval → hw.chunk ≠ 0)) ∧
      (p.seq > s.expected → s.NackDue now → hw.backto0 = true → hw.chunk ≠ 0)
  | .reply k =>
    s.qp.isSome = true → k < s.replies.length → hw.ackInterval ≠ 0 → hw.backto0 = true →
      hw.chunk ≠ 0

end

variable {hw : RdmaHw} {s : Exchange}

/-! ### A data packet -/

/-- The settings do what is documented for a packet in order exactly if there is an interval, and a
chunk in case the packet ends before the interval. -/
theorem safe_inOrder_iff {now : ℕ} {p : DataPacket} (hseq : p.seq = s.expected) :
    Safe hw s (.data now p) ↔
      hw.ackInterval ≠ 0 ∧ (p.seq + p.size < hw.ackInterval → hw.chunk ≠ 0) := by
  simp only [Safe, step, Option.isSome_map, hseq, true_implies]
  rw [← hseq]
  rcases UInt32.lt_or_le (p.seq + p.size) hw.ackInterval with hlt | hle
  · have hint : hw.ackInterval ≠ 0 := by
      rintro h
      rw [h] at hlt
      exact absurd hlt (by simp)
    rw [RdmaHw.receiveUdp_of_lt hseq hlt]
    by_cases hchunk : hw.chunk = 0
    · simp [hchunk, hlt]
    · simp [hchunk, hint]
  · rw [RdmaHw.receiveUdp_of_le hseq hle]
    have hnot : ¬ p.seq + p.size < hw.ackInterval := UInt32.not_lt.2 hle
    simp only [Option.isSome_some, true_and, hnot, false_implies, and_true, Option.some.injEq,
      Prod.mk.injEq, forall_eq']
    rw [RdmaHw.byMilestone_ack_iff rfl]
    tauto

/-- Past a gap, exactly if there is a chunk in case a NACK goes back to zero. -/
theorem safe_gap_iff {now : ℕ} {p : DataPacket} (hseq : p.seq > s.expected) :
    Safe hw s (.data now p) ↔ (s.NackDue now → hw.backto0 = true → hw.chunk ≠ 0) := by
  have hne : ¬ p.seq = (s.rxQp.getD .new).receiverNextExpectedSeq :=
    fun h => absurd hseq (h ▸ UInt32.lt_irrefl _)
  have hseq' : p.seq > (s.rxQp.getD .new).receiverNextExpectedSeq := hseq
  simp only [Safe, step, Option.isSome_map, RdmaHw.receiveUdp, RdmaHw.receiverCheckSeq, hne,
    false_implies, implies_true, and_true, if_false, hseq', if_true, NackDue, expected]
  by_cases hdue : now ≥ (s.rxQp.getD .new).nackTimer ∨ (s.rxQp.getD .new).lastNACK ≠
      (s.rxQp.getD .new).receiverNextExpectedSeq
  · by_cases hback : hw.backto0 = true <;> by_cases hchunk : hw.chunk = 0 <;>
      simp [hdue, hback, hchunk]
  · simp [hdue]

/-- A duplicate does not come to any of the settings. -/
theorem safe_duplicate {now : ℕ} {p : DataPacket} (hseq : p.seq < s.expected) :
    Safe hw s (.data now p) := by
  have hne : ¬ p.seq = (s.rxQp.getD .new).receiverNextExpectedSeq :=
    fun h => absurd hseq (h ▸ UInt32.lt_irrefl _)
  have hseq' : ¬ p.seq > (s.rxQp.getD .new).receiverNextExpectedSeq :=
    UInt32.not_lt.2 (UInt32.le_of_lt hseq)
  simp [Safe, step, RdmaHw.receiveUdp, RdmaHw.receiverCheckSeq, hne, hseq', expected]

/-! ### Any step -/

/-- A reply is processed exactly if there is a chunk in case it is rounded down to one. -/
theorem isSome_processAck_iff {qp : RdmaQueuePair} {ch : AckFrame} :
    (hw.processAck qp ch).isSome = true ↔
      (hw.ackInterval ≠ 0 → hw.backto0 = true → hw.chunk ≠ 0) := by
  by_cases hint : hw.ackInterval = 0 <;> by_cases hback : hw.backto0 = true <;>
    by_cases hchunk : hw.chunk = 0 <;>
      simp [RdmaHw.processAck, RdmaHw.acknowledge, hint, hback, hchunk]

theorem safe_reply_iff {k : ℕ} : Safe hw s (.reply k) ↔ Avoids hw s (.reply k) := by
  simp only [Safe, and_true, step, Avoids]
  cases hqp : s.qp with
  | none => simp
  | some qp =>
    cases hch : s.replies[k]? with
    | none => simp [Nat.not_lt.2 (List.getElem?_eq_none_iff.1 hch)]
    | some ch =>
      have hlt : k < s.replies.length := (List.getElem?_eq_some_iff.1 hch).1
      simp only [Option.isSome_map, isSome_processAck_iff, Option.isSome_some, hlt, true_implies]

/-! ### Any step -/

/-- **A step does what is documented** exactly if it does not come to a setting that is zero. -/
theorem safe_iff_avoids (op : Op) : Safe hw s op ↔ Avoids hw s op := by
  cases op with
  | reply k => exact safe_reply_iff
  | data now p =>
    have hirrefl : ¬ s.expected < s.expected := UInt32.lt_irrefl _
    by_cases heq : p.seq = s.expected
    · rw [safe_inOrder_iff heq]
      simp [Avoids, heq, hirrefl]
    · rcases UInt32.lt_or_lt_of_ne heq with hlt | hgt
      · have hnot : ¬ s.expected < p.seq := UInt32.not_lt.2 (UInt32.le_of_lt hlt)
        exact iff_of_true (safe_duplicate hlt) (by simp [Avoids, heq, hnot])
      · rw [safe_gap_iff hgt]
        simp [Avoids, heq, hgt]

/-- **The settings do what is documented** exactly in the runs whose steps do not come to one that
is zero. -/
theorem along_safe_iff (hw : RdmaHw) (qp : RdmaQueuePair) (ops : List Op) :
    Run.Along (step hw) (Safe hw) (init qp) ops ↔ Run.Along (step hw) (Avoids hw) (init qp) ops :=
  Run.along_iff_along (I := fun _ => True) (fun _ op _ _ => safe_iff_avoids op)
    (fun _ _ _ _ _ _ => trivial) trivial

/-- They do in every run exactly if none is zero: a packet in order can end at any number, and after
a wrap before any interval. -/
theorem forall_along_safe_iff (hw : RdmaHw) (qp : RdmaQueuePair) :
    (∀ ops, Run.Along (step hw) (Safe hw) (init qp) ops) ↔
      hw.ackInterval ≠ 0 ∧ hw.chunk ≠ 0 := by
  constructor
  · intro h
    obtain ⟨hfirst, hrest⟩ := h [.data 0 ⟨0, 0xffffffff⟩, .data 0 ⟨0xffffffff, 1⟩]
    have hint : hw.ackInterval ≠ 0 := ((safe_inOrder_iff rfl).1 hfirst).1
    have hle : hw.ackInterval ≤ (0 : UInt32) + 0xffffffff := by
      rw [UInt32.le_iff_toNat_le]
      exact Nat.le_of_lt_succ hw.ackInterval.toNat_lt
    obtain ⟨hsecond, -⟩ := hrest _ (congrArg (Option.map _) (RdmaHw.receiveUdp_of_le rfl hle))
    refine ⟨hint, ((safe_inOrder_iff rfl).1 hsecond).2 ?_⟩
    rw [UInt32.lt_iff_toNat_lt]
    exact Nat.pos_of_ne_zero fun h0 => hint (UInt32.toNat_inj.1 h0)
  · rintro ⟨hint, hchunk⟩ ops
    refine Run.along_of_forall (fun s op _ => safe_iff_avoids op |>.2 ?_) _
    cases op with
    | data now p => exact ⟨fun _ => ⟨hint, fun _ => hchunk⟩, fun _ _ _ => hchunk⟩
    | reply k => exact fun _ _ _ _ => hchunk

/-- A flow of 10000 bytes without a window. -/
def shortFlow : RdmaQueuePair :=
  RdmaHw.newQp ⟨1000, 0, 0, 500000, false, false⟩ 0 100000000000
    ⟨10000, 3, 0x0b000001, 0x0b000101, 10000, 100, 0⟩

/-- **The zero settings are not safe.** Without a chunk the first packet makes `ReceiverCheckSeq`
divide by zero, unless it ends past the interval; then its ACK makes `ReceiveAck` do so, going back
to zero. Without an interval the first packet is acknowledged. -/
theorem zeroSettings_not_safe :
    step ⟨1000, 0, 2000, 500000, false, false⟩ (init shortFlow) (.data 0 ⟨0, 1000⟩) = none ∧
      Run.exec (step ⟨1000, 0, 1, 500000, true, false⟩) (init shortFlow)
        [.data 0 ⟨0, 1000⟩, .reply 0] = none ∧
      (step ⟨1000, 4000, 0, 500000, false, false⟩ (init shortFlow) (.data 0 ⟨0, 1000⟩)).map
        (fun s => s.replies) = some [⟨false, 1000⟩] ∧
      ¬ Safe ⟨1000, 0, 2000, 500000, false, false⟩ (init shortFlow) (.data 0 ⟨0, 1000⟩) ∧
      ¬ Safe ⟨1000, 4000, 0, 500000, false, false⟩ (init shortFlow) (.data 0 ⟨0, 1000⟩) := by
  refine ⟨by rfl, by rfl, by rfl, fun h => ?_, fun h => ?_⟩
  · exact ((safe_inOrder_iff rfl).1 h).2 (by decide) rfl
  · exact ((safe_inOrder_iff rfl).1 h).1 rfl

end Exchange

end HpccSim
