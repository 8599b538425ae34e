import HpccSim.RateGate
import Mathlib.Tactic.Abel

/-!
# Pacing

A queue pair does not send before `m_nextAvail`. `PktSent` sets it to the time the packet takes at
the rate of the moment; when the rate changes before the next packet, `ChangeRate` adds the
difference between the time the packet would take at the new rate and the one it takes at the old
rate (`rdma-hw.cc`). In HPCC and HPCC-PINT every assignment to `m_rate` is in `ChangeRate`, so the
differences cancel, however each of the times is rounded.

Times are elements of a commutative group, the integers or those of 64 bits, and `Seconds` of
`CalculateTxTime` is any function of the rate and the size.

## Main definitions

* `PaceConfig`, `PacedQp`, with `PacedQp.pktSent`, `PacedQp.changeRate`.
* `rateChange`: the rate with which an ACK calls `ChangeRate`.
* `PacedQp.step`: sending, changes of the rate, replies and rewinds.

## Main results

* `receiveReply_rate`: an ACK changes the rate by `ChangeRate` only.
* `PacedQp.nextAvail_eq`: after any events since the last packet, the pacing is that of the rate.
-/

namespace HpccSim

namespace CongestionControl

/-! ### Where the rate changes -/

section RateChange

variable (c : Config) (qp : Qp)

/-- The rate with which `UpdateRateHp` calls `ChangeRate`, if it does. -/
def rateChangeHp (ih : IntHeader) (fastReact : Bool) : Option ℕ :=
  let f := feedback c qp ih fastReact
  if qp.hp.lastUpdateSeq ≠ 0 ∧ ih.nhop.toNat ≤ maxHop ∧ f.updatedAny = true then
    some (if c.multipleRate then multiRate c qp ih f
      else (react c qp f.hp.curRate f.hp.incStage (singleU qp f) (singleAi c f)).1)
  else none

/-- The rate with which `UpdateRateHpPint` calls `ChangeRate`, if it does. -/
def rateChangeHpPint (a : Ack) : Option ℕ :=
  if qp.hpccPint.lastUpdateSeq ≠ 0 ∧ a.rand % 65536 < c.pintSmplThresh then
    some (react c qp qp.hpccPint.curRate qp.hpccPint.incStage (c.decodeU a.ih.power) c.rai).1
  else none

/-- The rate with which `ReceiveAck` calls `ChangeRate`, if it does. The other modes assign the rate
themselves. -/
def rateChange (a : Ack) : Option ℕ :=
  match c.ccMode with
  | .hpcc =>
    if a.seq > qp.hp.lastUpdateSeq then rateChangeHp c qp a.ih false
    else if c.fastReact then rateChangeHp c qp a.ih true
    else none
  | .hpccPint => rateChangeHpPint c qp a
  | .dcqcn | .timely | .dctcp => none

/-- The modes that change the rate by `ChangeRate`. -/
def Paces : Prop := c.ccMode = .hpcc ∨ c.ccMode = .hpccPint

variable {c qp}

theorem rate_applyRate (fastReact : Bool) (f : Feedback) (newRate newIncStage : ℕ) :
    (applyRate fastReact f newRate newIncStage qp).rate =
      if f.updatedAny then newRate else qp.rate := by
  rw [applyRate]
  split_ifs <;> rfl

theorem rate_respondHp (ih : IntHeader) (fastReact : Bool) :
    (respondHp c qp ih fastReact).rate =
      if (feedback c qp ih fastReact).updatedAny then
        if c.multipleRate then multiRate c qp ih (feedback c qp ih fastReact)
        else (react c qp (feedback c qp ih fastReact).hp.curRate
          (feedback c qp ih fastReact).hp.incStage (singleU qp (feedback c qp ih fastReact))
          (singleAi c (feedback c qp ih fastReact))).1
      else qp.rate := by
  rw [respondHp]
  cases hany : (feedback c qp ih fastReact).updatedAny <;> cases c.multipleRate <;>
    cases fastReact <;> simp [rate_applyRate, hany]

theorem rate_updateRateHp (a : Ack) (fastReact : Bool) :
    (updateRateHp c qp a fastReact).rate = (rateChangeHp c qp a.ih fastReact).getD qp.rate := by
  rw [updateRateHp, rateChangeHp]
  by_cases hseq : qp.hp.lastUpdateSeq = 0
  · simp [hseq]
  · by_cases hhop : a.ih.nhop.toNat ≤ maxHop
    · cases hany : (feedback c qp a.ih fastReact).updatedAny <;>
        simp [hseq, hhop, hany, apply_ite Qp.rate, rate_respondHp]
    · simp [hseq, hhop, apply_ite Qp.rate]

theorem rate_updateRateHpPint (a : Ack) (fastReact : Bool) :
    (updateRateHpPint c qp a fastReact).rate =
      if qp.hpccPint.lastUpdateSeq = 0 then qp.rate
      else
        (react c qp qp.hpccPint.curRate qp.hpccPint.incStage (c.decodeU a.ih.power) c.rai).1 := by
  rw [updateRateHpPint]
  by_cases hseq : qp.hpccPint.lastUpdateSeq = 0
  · simp [hseq]
  · cases fastReact <;> simp [hseq, changeRate]

/-- **An ACK changes the rate by `ChangeRate` only.** -/
theorem receiveReply_rate (hmode : Paces c) (a : Ack) (newIncStage : ℕ) :
    (receiveReply c qp a newIncStage).rate = (rateChange c qp a).getD qp.rate := by
  have hrate : (receiveReply c qp a newIncStage).rate = (receiveAck c qp a).rate := by
    rw [receiveReply]
    split_ifs <;> rfl
  rw [hrate, rateChange]
  rcases hmode with h | h
  · rw [receiveAck_hpcc h, h, handleAckHp]
    simp only [fastReactHp]
    split_ifs
    · exact rate_updateRateHp a false
    · exact rate_updateRateHp a true
    · rfl
  · rw [receiveAck_hpccPint h, h, handleAckHpPint]
    simp only [rateChangeHpPint]
    by_cases hsample : a.rand % 65536 < c.pintSmplThresh
    · rw [if_neg (UInt32.not_le.2 hsample), rate_updateRateHpPint]
      by_cases hseq : qp.hpccPint.lastUpdateSeq = 0 <;> simp [hseq, hsample]
    · rw [if_pos (UInt32.not_lt.1 hsample)]
      simp [hsample]

end RateChange

/-! ### Paced queue pairs -/

variable {T : Type*} [AddCommGroup T]

/-- What pacing depends on: `m_rateBound`, `m_tInterframeGap` of the device, the size of the headers
of a data packet, and `Seconds` of `CalculateTxTime`. -/
structure PaceConfig (T : Type*) where
  rateBound : Bool
  interframeGap : T
  headerSize : UInt32
  txTime : ℕ → UInt32 → T

/-- A queue pair with `m_nextAvail` and `lastPktSize`. -/
structure PacedQp (T : Type*) where
  flow : RdmaQueuePair
  cc : Qp
  nextAvail : T
  lastPktSize : UInt32

/-- What happens to a queue pair. -/
inductive PaceOp (T : Type*) where
  /-- A packet is sent at the time `now`. -/
  | send (now : T)
  /-- `ChangeRate` is called. -/
  | changeRate (newRate : ℕ)
  /-- An ACK or a NACK arrives; `m_nextAvail` is computed here, not part of it. -/
  | reply (r : Reply)
  /-- `RecoverQueue` is called. -/
  | rewind

namespace PacedQp

variable (pc : PaceConfig T) (q : PacedQp T)

/-- `RdmaHw::UpdateNextAvail`. -/
def updateNextAvail (now : T) (pktSize : UInt32) : PacedQp T :=
  let sendingTime :=
    if pc.rateBound then pc.interframeGap + pc.txTime q.cc.rate pktSize
    else pc.interframeGap + pc.txTime q.cc.maxRate pktSize
  { q with nextAvail := now + sendingTime }

/-- `RdmaHw::PktSent`. -/
def pktSent (now : T) (pktSize : UInt32) : PacedQp T :=
  updateNextAvail pc { q with lastPktSize := pktSize } now pktSize

/-- `RdmaHw::ChangeRate`. -/
def changeRate (newRate : ℕ) : PacedQp T :=
  let sendingTime := pc.txTime q.cc.rate q.lastPktSize
  let newSendingTime := pc.txTime newRate q.lastPktSize
  { q with
    nextAvail := q.nextAvail + newSendingTime - sendingTime
    cc := CongestionControl.changeRate q.cc newRate }

variable (c : Config) (hw : RdmaHw)

/-- The packet that is sent next, with its headers. -/
def nextPktSize : UInt32 := (hw.getNxtPacket q.flow).1.size + pc.headerSize

/-- `ReceiveAck`: the call of `ChangeRate` in it, if there is one, and what else it does to the
controller. -/
def receive (a : Ack) (newIncStage : ℕ) : PacedQp T :=
  let cc := receiveReply c q.cc a newIncStage
  match rateChange c q.cc a with
  | some newRate => { q.changeRate pc newRate with cc := cc }
  | none => { q with cc := cc }

/-- One event. -/
def step (q : PacedQp T) : PaceOp T → Option (PacedQp T)
  | .send now =>
    if q.flow.getBytesLeft = 0 then none
    else some ({ q with flow := (hw.getNxtPacket q.flow).2 }.pktSent pc now (q.nextPktSize pc hw))
  | .changeRate newRate => some (q.changeRate pc newRate)
  | .reply r => (hw.processAck q.flow r.ch).map fun (flow, finished) =>
      { q.receive pc c (r.ack flow.sndNxt finished) r.newIncStage with flow := flow }
  | .rewind => some { q with flow := RdmaHw.recoverQueue q.flow }

/-- The last packet was sent at the time `t` with `s` bytes, and the pacing is that of the rate. -/
structure OnPace (t : T) (s : UInt32) : Prop where
  lastPktSize : q.lastPktSize = s
  nextAvail : q.nextAvail = t + pc.interframeGap + pc.txTime q.cc.rate s

variable {pc q c hw} {t : T} {s : UInt32}

/-- Sending sets the pace. -/
theorem onPace_pktSent (hbound : pc.rateBound = true) (t : T) (s : UInt32) :
    (q.pktSent pc t s).OnPace pc t s where
  lastPktSize := rfl
  nextAvail := by
    rw [pktSent, updateNextAvail, if_pos hbound, add_assoc]

/-- **`ChangeRate` keeps it**: what it takes off `m_nextAvail` is what was added for the rate
before. -/
theorem OnPace.changeRate (h : q.OnPace pc t s) (newRate : ℕ) :
    (q.changeRate pc newRate).OnPace pc t s where
  lastPktSize := h.lastPktSize
  nextAvail := by
    have hold := h.nextAvail
    simp only [PacedQp.changeRate, CongestionControl.changeRate, h.lastPktSize, hold]
    abel

/-- An ACK keeps it, as it changes the rate by `ChangeRate` only. -/
theorem OnPace.receive (hmode : Paces c) (h : q.OnPace pc t s) (a : Ack) (newIncStage : ℕ) :
    (q.receive pc c a newIncStage).OnPace pc t s := by
  have hrate : (receiveReply c q.cc a newIncStage).rate = (rateChange c q.cc a).getD q.cc.rate :=
    receiveReply_rate hmode a newIncStage
  rw [PacedQp.receive]
  cases hchange : rateChange c q.cc a with
  | none =>
    rw [hchange, Option.getD_none] at hrate
    exact ⟨h.lastPktSize, by rw [hrate]; exact h.nextAvail⟩
  | some newRate =>
    rw [hchange, Option.getD_some] at hrate
    exact ⟨h.lastPktSize, by rw [hrate]; exact (h.changeRate newRate).nextAvail⟩

/-- Every event but the next packet keeps it. -/
theorem OnPace.step (hmode : Paces c) (h : q.OnPace pc t s) {op : PaceOp T} {q' : PacedQp T}
    (hop : ∀ now, op ≠ .send now) (hstep : step pc c hw q op = some q') : q'.OnPace pc t s := by
  cases op with
  | send now => exact absurd rfl (hop now)
  | changeRate newRate =>
    cases hstep
    exact h.changeRate newRate
  | reply r =>
    obtain ⟨⟨flow, finished⟩, -, rfl⟩ := Option.map_eq_some_iff.1 hstep
    have hack := h.receive hmode (r.ack flow.sndNxt finished) r.newIncStage
    exact ⟨hack.lastPktSize, hack.nextAvail⟩
  | rewind =>
    cases hstep
    exact ⟨h.lastPktSize, h.nextAvail⟩

/-- **The pacing is that of the current rate**, after any replies, changes of the rate and rewinds
since the last packet. -/
theorem nextAvail_eq (hbound : pc.rateBound = true) (hmode : Paces c) {t : T}
    {q₀ q₁ q₂ : PacedQp T} {ops : List (PaceOp T)} (hsend : step pc c hw q₀ (.send t) = some q₁)
    (hops : ∀ op ∈ ops, ∀ now, op ≠ .send now) (hexec : Run.exec (step pc c hw) q₁ ops = some q₂) :
    q₂.lastPktSize = q₀.nextPktSize pc hw ∧
      q₂.nextAvail = t + pc.interframeGap + pc.txTime q₂.cc.rate (q₀.nextPktSize pc hw) := by
  have h₁ : q₁.OnPace pc t (q₀.nextPktSize pc hw) := by
    simp only [step] at hsend
    split_ifs at hsend
    cases hsend
    exact onPace_pktSent hbound t _
  have h₂ : q₂.OnPace pc t (q₀.nextPktSize pc hw) :=
    Run.exec_induction (I := fun q => q.OnPace pc t (q₀.nextPktSize pc hw))
      (C := fun _ op => ∀ now, op ≠ .send now) (fun _ _ _ h hop hstep => h.step hmode hop hstep) h₁
      (Run.along_of_forall (fun _ => hops) q₁) hexec
  exact ⟨h₂.lastPktSize, h₂.nextAvail⟩

/-- Times in nanoseconds, rounded down. -/
def nanoPace : PaceConfig ℤ where
  rateBound := true
  interframeGap := 0
  headerSize := 48
  txTime rate size := 8 * 10 ^ 9 * size.toNat / rate

/-- A flow of HPCC at 100 Gb/s. -/
def pacedFlow : PacedQp ℤ where
  flow := RdmaHw.newQp ⟨1000, 4000, 1, 500000, false, false⟩ 0 100000000000
    ⟨10000, 3, 0x0b000001, 0x0b000101, 10000, 100, 0⟩
  cc := addQueuePair (.defaults .hpcc 100000000000 ⟨.normal, 1, 1⟩) 0 8000
  nextAvail := 0
  lastPktSize := 0

/-- Two changes of the rate, with a rewind between them: 1048 bytes take 167 ns at 50 Gb/s. -/
theorem nextAvail_eq_two_changes :
    ∃ q, Run.exec (step nanoPace (.defaults .hpcc 100000000000 ⟨.normal, 1, 1⟩)
        ⟨1000, 4000, 1, 500000, false, false⟩) pacedFlow
        [.send 1000, .changeRate 30000000000, .rewind, .changeRate 50000000000] = some q ∧
      q.nextAvail = 1000 + 0 + 167 :=
  have hsend : step nanoPace (.defaults .hpcc 100000000000 ⟨.normal, 1, 1⟩)
      ⟨1000, 4000, 1, 500000, false, false⟩ pacedFlow (.send 1000) = some _ := rfl
  have hops : ∀ op ∈ ([.changeRate 30000000000, .rewind, .changeRate 50000000000] :
      List (PaceOp ℤ)), ∀ now, op ≠ .send now := by simp
  ⟨_, rfl, (nextAvail_eq rfl (.inl rfl) hsend hops rfl).2⟩

end PacedQp

end CongestionControl

end HpccSim
