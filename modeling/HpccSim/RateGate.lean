import HpccSim.CongestionControl
import HpccSim.Lib.Gate
import HpccSim.RdmaHw

/-!
# The round-trip gate of HPCC

HPCC and HPCC-PINT keep a reference rate, from which the rate in use is computed at every ACK. The
reference itself is replaced only by an ACK beyond `m_lastUpdateSeq`, which is then moved up to
`snd_nxt` (`HandleAckHp`, `UpdateRateHp`, `HandleAckHpPint`, `UpdateRateHpPint` in `rdma-hw.cc`). A
NACK takes `snd_nxt` back, but never `m_lastUpdateSeq`.

HPCC-PINT does not look at every ACK: one that is not sampled is not compared with
`m_lastUpdateSeq` at all.

## Main definitions

* `Sender`: the transport of a queue pair and the variables of its controller.
* `Reference`: the reference rate and what goes with it.
* `Sender.Opens`: a reply is a full update.
* `gate`: the gate that this makes.

## Main results

* `receiveReply_cases`: a reply is a full update, or leaves the reference alone.
* `reference_once_per_rtt`: the reference changes at most once per round trip.
* `unsampled_ack_keeps_seq`: an ACK that is not sampled leaves `m_lastUpdateSeq` behind.
-/

namespace HpccSim

namespace CongestionControl

/-! ### Senders -/

/-- A queue pair: what the transport knows about the flow, and what the controller does. -/
structure Sender where
  flow : RdmaQueuePair
  cc : Qp

/-- A reply and what is not up to the sender: the telemetry, the mark of a congestion, the time, the
value of `rand()`, the `m_nextAvail` that `ChangeRate` computes, and the value `new_incStage` has if
it is not assigned. -/
structure Reply where
  ch : AckFrame
  cnp : Bool
  ih : IntHeader
  now : UInt64
  rand : UInt32
  nextAvail : ℕ
  newIncStage : ℕ

variable (c : Config) (hw : RdmaHw)

/-- What a reply brings to the controller of a queue pair, once the transport has processed it. -/
def Reply.ack (r : Reply) (sndNxt : UInt64) (finished : Bool) : Ack where
  seq := r.ch.seq
  cnp := r.cnp
  ih := r.ih
  now := r.now
  sndNxt := sndNxt
  finished := finished
  rand := r.rand

/-- The `m_lastUpdateSeq` of the mode. -/
def lastUpdateSeq (qp : Qp) : UInt32 :=
  match c.ccMode with
  | .hpccPint => qp.hpccPint.lastUpdateSeq
  | .dcqcn | .hpcc | .timely | .dctcp => qp.hp.lastUpdateSeq

/-- A reply with the sequence number `seq` is a full update. With HPCC-PINT it has to be sampled. -/
def FullUpdate (qp : Qp) (seq rand : UInt32) : Prop :=
  seq > lastUpdateSeq c qp ∧ (c.ccMode = .hpccPint → rand % 65536 < c.pintSmplThresh)

instance (qp : Qp) (seq rand : UInt32) : Decidable (FullUpdate c qp seq rand) :=
  inferInstanceAs (Decidable (_ ∧ _))

/-- `ReceiveAck`, for the controller. If there are several rates, `hp.m_incStage` is assigned
`new_incStage`, which has no value then. -/
def receiveReply (qp : Qp) (a : Ack) (newIncStage : ℕ) : Qp :=
  let qp' := receiveAck c qp a
  if c.ccMode = .hpcc ∧ c.multipleRate = true ∧ FullUpdate c qp a.seq a.rand ∧
      qp.hp.lastUpdateSeq ≠ 0 ∧ a.ih.nhop.toNat ≤ maxHop ∧
      (feedback c qp a.ih false).updatedAny = true then
    { qp' with hp := { qp'.hp with incStage := newIncStage } }
  else qp'

/-- What happens to a queue pair. -/
inductive SenderOp where
  /-- A packet is sent. -/
  | send
  /-- An ACK or a NACK arrives. -/
  | reply (r : Reply)

/-- The sequence number of a reply. -/
def SenderOp.seq : SenderOp → UInt32
  | .send => 0
  | .reply r => r.ch.seq

namespace Sender

/-- One event. A packet is sent only if there are bytes left. -/
def step (S : Sender) : SenderOp → Option Sender
  | .send =>
    if S.flow.getBytesLeft = 0 then none else some { S with flow := (hw.getNxtPacket S.flow).2 }
  | .reply r =>
    (hw.processAck S.flow r.ch).map fun (flow, finished) =>
      let cc := receiveReply c S.cc (r.ack flow.sndNxt finished) r.newIncStage
      { flow :=
          { flow with
            rate := .ofNat cc.rate
            nextAvail := if cc.rate = S.cc.rate then flow.nextAvail else r.nextAvail }
        cc := cc }

/-- A flow of less than `2 ^ 32` bytes, with sequence numbers of 32 bits. -/
structure Small (S : Sender) : Prop where
  size : S.flow.size.toNat < 2 ^ 32
  sndNxt : S.flow.sndNxt.toNat < 2 ^ 32
  sndUna : S.flow.sndUna.toNat < 2 ^ 32

/-- The event is a full update. -/
def Opens (S : Sender) : SenderOp → Prop
  | .send => False
  | .reply r => FullUpdate c S.cc r.ch.seq r.rand

end Sender

/-- The reference rate of a controller, and what goes with it. -/
structure Reference where
  lastUpdateSeq : UInt32
  curRate : ℕ
  incStage : ℕ
  rc : Fin maxHop → ℕ
  hopIncStage : Fin maxHop → ℕ

/-- The reference of HPCC. -/
def Hp.reference (hp : Hp) : Reference where
  lastUpdateSeq := hp.lastUpdateSeq
  curRate := hp.curRate
  incStage := hp.incStage
  rc i := (hp.hopState i).rc
  hopIncStage i := (hp.hopState i).incStage

/-- The reference of the mode. HPCC-PINT has no rates of the hops, and leaves those of HPCC. -/
def reference (qp : Qp) : Reference :=
  match c.ccMode with
  | .hpccPint =>
    { qp.hp.reference with
      lastUpdateSeq := qp.hpccPint.lastUpdateSeq
      curRate := qp.hpccPint.curRate
      incStage := qp.hpccPint.incStage }
  | .dcqcn | .hpcc | .timely | .dctcp => qp.hp.reference

/-- The two differ only in the rate, the stored telemetry and the estimates of the utilisation. -/
def SameReference (qp qp' : Qp) : Prop :=
  ∃ rate hp, qp' = { qp with rate := rate, hp := hp } ∧ hp.reference = qp.hp.reference

variable {c hw}

theorem SameReference.refl (qp : Qp) : SameReference qp qp := ⟨qp.rate, qp.hp, rfl, rfl⟩

/-- What is the same without HPCC's reference is so with the mode's. -/
theorem SameReference.reference_eq {qp qp' : Qp} (h : SameReference qp qp') :
    reference c qp' = reference c qp := by
  obtain ⟨rate, hp, rfl, hhp⟩ := h
  rw [reference, reference]
  split
  · rw [hhp]
  · exact hhp
  · exact hhp
  · exact hhp
  · exact hhp

/-- `m_lastUpdateSeq` is moved up only. -/
theorem toNat_raise (next last : UInt32) :
    (if next > last then next else last).toNat = max last.toNat next.toNat := by
  split_ifs with h
  · exact (max_eq_right (UInt32.lt_iff_toNat_lt.1 h).le).symm
  · exact (max_eq_left (not_lt.1 (mt UInt32.lt_iff_toNat_lt.2 h))).symm

/-! ### HPCC -/

/-- The loop over the hops leaves the reference. -/
theorem feedbackHop_reference (qp : Qp) (ih : IntHeader) (fr : Bool) (f : Feedback)
    (i : Fin maxHop) : (feedbackHop c qp ih fr f i).hp.reference = f.hp.reference := by
  rw [feedbackHop]
  dsimp only
  split_ifs
  · rfl
  · -- only the estimate of the hop is written
    have hrc (j : Fin maxHop) (u : ℚ) :
        Function.update f.hp.hopState i { f.hp.hopState i with u := u } j =
          { f.hp.hopState j with
            u := if j = i then u else (f.hp.hopState j).u } := by
      by_cases hj : j = i
      · subst hj
        simp
      · simp [hj]
    simp only [Hp.reference, hrc]
  · rfl
  · rfl

theorem feedback_reference (qp : Qp) (ih : IntHeader) (fr : Bool) :
    (feedback c qp ih fr).hp.reference = qp.hp.reference := by
  refine List.foldlRecOn (motive := fun f : Feedback => f.hp.reference = qp.hp.reference)
    (hops ih) _ rfl fun f hf i _ => ?_
  exact (feedbackHop_reference qp ih fr f i).trans hf

/-- A fast reaction writes the rate only. -/
theorem applyRate_fast (f : Feedback) (newRate newIncStage : ℕ) (qp : Qp) :
    ∃ rate, applyRate true f newRate newIncStage qp = { qp with rate := rate } := by
  rw [applyRate]
  by_cases hany : f.updatedAny = true
  · exact ⟨newRate, by rw [if_pos hany]; rfl⟩
  · exact ⟨qp.rate, by rw [if_neg hany]⟩

/-- A fast reaction leaves the reference. -/
theorem respondHp_fast (qp : Qp) (ih : IntHeader) : SameReference qp (respondHp c qp ih true) := by
  have hf := feedback_reference (c := c) qp ih true
  rw [respondHp]
  dsimp only
  by_cases hmr : c.multipleRate = true
  · rw [if_pos hmr, if_pos rfl]
    obtain ⟨rate, h⟩ := applyRate_fast (feedback c qp ih true)
      (multiRate c qp ih (feedback c qp ih true)) 0 { qp with hp := (feedback c qp ih true).hp }
    exact ⟨rate, _, h, hf⟩
  · rw [if_neg hmr]
    generalize (if (feedback c qp ih true).updatedAny = true then _ else _) = u
    generalize react c qp _ _ u _ = new
    obtain ⟨rate, h⟩ := applyRate_fast (feedback c qp ih true) new.1 new.2
      { qp with hp := { (feedback c qp ih true).hp with u := u } }
    exact ⟨rate, _, h, hf⟩

/-- The reaction leaves `m_lastUpdateSeq`. -/
theorem respondHp_lastUpdateSeq (qp : Qp) (ih : IntHeader) (fr : Bool) :
    (respondHp c qp ih fr).hp.lastUpdateSeq = qp.hp.lastUpdateSeq := by
  have hf : (feedback c qp ih fr).hp.lastUpdateSeq = qp.hp.lastUpdateSeq :=
    congrArg Reference.lastUpdateSeq (feedback_reference qp ih fr)
  have happly (f : Feedback) (rate stage : ℕ) (qp' : Qp) :
      (applyRate fr f rate stage qp').hp.lastUpdateSeq = qp'.hp.lastUpdateSeq := by
    rw [applyRate]
    dsimp only [changeRate]
    split_ifs <;> rfl
  rw [respondHp]
  dsimp only
  split_ifs
  · exact (happly _ _ _ _).trans hf
  · exact (happly _ _ _ _).trans hf
  · exact (happly _ _ _ _).trans hf
  · exact (happly _ _ _ _).trans hf

/-- **An ACK in HPCC** that is no full update leaves the reference, and one that is moves
`m_lastUpdateSeq` up to `snd_nxt`. -/
theorem handleAckHp_cases {qp : Qp} (h0 : qp.hp.lastUpdateSeq ≠ 0) (a : Ack) :
    (¬ a.seq > qp.hp.lastUpdateSeq → SameReference qp (handleAckHp c qp a)) ∧
      (a.seq > qp.hp.lastUpdateSeq → (handleAckHp c qp a).hp.lastUpdateSeq.toNat =
        max qp.hp.lastUpdateSeq.toNat a.sndNxt.toUInt32.toNat) := by
  constructor
  · intro hle
    rw [handleAckHp, if_neg hle, fastReactHp]
    split_ifs
    · simp only [updateRateHp, if_neg h0, Bool.true_eq_false, false_and, if_false]
      split_ifs
      · exact respondHp_fast qp a.ih
      · exact .refl qp
    · exact .refl qp
  · intro hgt
    have hresp : (if a.ih.nhop.toNat ≤ maxHop then respondHp c qp a.ih false
        else qp).hp.lastUpdateSeq = qp.hp.lastUpdateSeq := by
      split_ifs
      · exact respondHp_lastUpdateSeq qp a.ih false
      · rfl
    rw [handleAckHp, if_pos hgt, updateRateHp]
    simp only [if_neg h0, true_and]
    generalize (if a.ih.nhop.toNat ≤ maxHop then _ else qp) = qp' at hresp ⊢
    rw [← toNat_raise, hresp]
    split_ifs
    · rfl
    · rw [hresp]

/-! ### HPCC-PINT -/

/-- **An ACK in HPCC-PINT**, likewise. -/
theorem handleAckHpPint_cases {qp : Qp} (hm : c.ccMode = .hpccPint)
    (h0 : qp.hpccPint.lastUpdateSeq ≠ 0) (a : Ack) :
    (¬ FullUpdate c qp a.seq a.rand → SameReference qp (handleAckHpPint c qp a)) ∧
      (FullUpdate c qp a.seq a.rand → (handleAckHpPint c qp a).hpccPint.lastUpdateSeq.toNat =
        max qp.hpccPint.lastUpdateSeq.toNat a.sndNxt.toUInt32.toNat) := by
  have hfull : FullUpdate c qp a.seq a.rand ↔
      a.seq > qp.hpccPint.lastUpdateSeq ∧ a.rand % 65536 < c.pintSmplThresh := by
    simp [FullUpdate, lastUpdateSeq, hm]
  rw [hfull, handleAckHpPint]
  constructor
  · intro hle
    split_ifs with hs
    · exact .refl qp
    · have hseq : ¬ a.seq > qp.hpccPint.lastUpdateSeq := fun h => hle ⟨h, UInt32.not_le.1 hs⟩
      simp only [updateRateHpPint, if_neg h0, decide_eq_true hseq, if_true, changeRate]
      exact ⟨_, _, rfl, rfl⟩
  · rintro ⟨hgt, hs⟩
    have hfast : decide (¬ a.seq > qp.hpccPint.lastUpdateSeq) = false :=
      decide_eq_false (not_not_intro hgt)
    rw [if_neg (UInt32.not_le.2 hs), updateRateHpPint, hfast]
    simp only [if_neg h0, Bool.false_eq_true, if_false, changeRate]
    exact toNat_raise _ _

/-! ### Replies -/

/-- The full update that assigns an unset `new_incStage` leaves the rest as `ReceiveAck` does. -/
theorem receiveReply_eq (qp : Qp) (a : Ack) (newIncStage : ℕ) :
    receiveReply c qp a newIncStage = receiveAck c qp a ∨
      FullUpdate c qp a.seq a.rand ∧ c.ccMode = .hpcc ∧
        receiveReply c qp a newIncStage =
          { receiveAck c qp a with
            hp := { (receiveAck c qp a).hp with incStage := newIncStage } } := by
  rw [receiveReply]
  dsimp only
  split_ifs with h
  · exact .inr ⟨h.2.2.1, h.1, rfl⟩
  · exact .inl rfl

/-- **A reply** that is no full update leaves the reference, and one that is moves
`m_lastUpdateSeq` up to `snd_nxt`. -/
theorem receiveReply_cases (hm : c.ccMode = .hpcc ∨ c.ccMode = .hpccPint) {qp : Qp}
    (h0 : lastUpdateSeq c qp ≠ 0) (a : Ack) (newIncStage : ℕ) :
    (¬ FullUpdate c qp a.seq a.rand → SameReference qp (receiveReply c qp a newIncStage)) ∧
      (FullUpdate c qp a.seq a.rand →
        (lastUpdateSeq c (receiveReply c qp a newIncStage)).toNat =
          max (lastUpdateSeq c qp).toNat a.sndNxt.toUInt32.toNat) := by
  have hack : (¬ FullUpdate c qp a.seq a.rand → SameReference qp (receiveAck c qp a)) ∧
      (FullUpdate c qp a.seq a.rand → (lastUpdateSeq c (receiveAck c qp a)).toNat =
        max (lastUpdateSeq c qp).toNat a.sndNxt.toUInt32.toNat) := by
    rcases hm with hm | hm
    · have hseq (qp : Qp) : lastUpdateSeq c qp = qp.hp.lastUpdateSeq := by rw [lastUpdateSeq, hm]
      have hfull : FullUpdate c qp a.seq a.rand ↔ a.seq > qp.hp.lastUpdateSeq := by
        simp [FullUpdate, hseq, hm]
      rw [hfull, receiveAck_hpcc hm, hseq, hseq]
      exact handleAckHp_cases (by rwa [← hseq]) a
    · have hseq (qp : Qp) : lastUpdateSeq c qp = qp.hpccPint.lastUpdateSeq := by
        rw [lastUpdateSeq, hm]
      rw [receiveAck_hpccPint hm, hseq, hseq]
      exact handleAckHpPint_cases hm (by rwa [← hseq]) a
  rcases receiveReply_eq (c := c) qp a newIncStage with heq | ⟨hfull, hm', heq⟩
  · rw [heq]
    exact hack
  · refine ⟨fun h => absurd hfull h, fun h => ?_⟩
    rw [heq, ← hack.2 h, lastUpdateSeq, lastUpdateSeq, hm']

/-! ### The gate -/

namespace Sender

variable {S S' T : Sender}

/-- **What a reply does** to a queue pair. -/
theorem step_reply {r : Reply} (h : S.step c hw (.reply r) = some S') :
    ∃ flow finished, hw.processAck S.flow r.ch = some (flow, finished) ∧
      S'.cc = receiveReply c S.cc (r.ack flow.sndNxt finished) r.newIncStage ∧
      S'.flow.size = flow.size ∧ S'.flow.sndNxt = flow.sndNxt ∧ S'.flow.sndUna = flow.sndUna := by
  obtain ⟨⟨flow, finished⟩, hp, hS⟩ := Option.map_eq_some_iff.1 h
  cases hS
  exact ⟨flow, finished, hp, rfl, rfl, rfl, rfl⟩

/-- `AddQueuePair`. -/
theorem small_newQp {f : Flow} (hsize : f.size.toNat < 2 ^ 32) (now : ℕ) (bps : UInt64) (cc : Qp) :
    Small { flow := hw.newQp now bps f, cc := cc } :=
  ⟨hsize, Nat.two_pow_pos 32, Nat.two_pow_pos 32⟩

theorem Small.step {op : SenderOp} (hS : S.Small) (h : S.step c hw op = some S') : S'.Small := by
  cases op with
  | send =>
    obtain ⟨hleft, hS'⟩ := Option.ite_none_left_eq_some.1 h
    cases hS'
    rw [RdmaQueuePair.getBytesLeft_eq_zero_iff, not_le] at hleft
    obtain ⟨-, hpayload, hnext⟩ := RdmaHw.getNxtPacket_spec hw hS.size hleft.le
    refine ⟨hS.size, ?_, hS.sndUna⟩
    have hsize := hS.size
    show (hw.getNxtPacket S.flow).2.sndNxt.toNat < 2 ^ 32
    omega
  | reply r =>
    obtain ⟨flow, finished, hp, -, hsize, hnxt, huna⟩ := step_reply h
    obtain ⟨una, nxt, rfl, hval, rfl, -⟩ := RdmaHw.processAck_eq_some hp
    have hle := RdmaHw.ackedSeq_le hw r.ch.seq
    have hseq := r.ch.seq.toNat_lt
    have hlt : una.toNat < 2 ^ 32 := by
      rw [hval]
      exact max_lt hS.sndUna (hle.trans_lt hseq)
    refine ⟨hsize ▸ hS.size, ?_, huna ▸ hlt⟩
    rw [hnxt]
    dsimp only
    split_ifs
    · exact hlt
    · exact hS.sndNxt

/-- What the steps of a sender keep. -/
structure Running (c : Config) (S : Sender) : Prop extends S.Small where
  started : lastUpdateSeq c S.cc ≠ 0

end Sender

open Sender

/-- An event that is no full update leaves the reference. -/
theorem step_sameReference (hm : c.ccMode = .hpcc ∨ c.ccMode = .hpccPint) {S S' : Sender}
    {op : SenderOp} (hS : S.Running c) (h : S.step c hw op = some S') (ho : ¬ S.Opens c op) :
    SameReference S.cc S'.cc := by
  cases op with
  | send =>
    obtain ⟨-, hS'⟩ := Option.ite_none_left_eq_some.1 h
    cases hS'
    exact .refl S.cc
  | reply r =>
    obtain ⟨flow, finished, -, hcc, -⟩ := step_reply h
    rw [hcc]
    exact (receiveReply_cases hm hS.started _ _).1 ho

/-- A full update moves `m_lastUpdateSeq` up to `snd_nxt`. -/
theorem step_lastUpdateSeq (hm : c.ccMode = .hpcc ∨ c.ccMode = .hpccPint) {S S' : Sender}
    {op : SenderOp} (hS : S.Running c) (h : S.step c hw op = some S') (ho : S.Opens c op) :
    (lastUpdateSeq c S'.cc).toNat =
      max (lastUpdateSeq c S.cc).toNat S'.flow.sndNxt.toNat := by
  cases op with
  | send => exact ho.elim
  | reply r =>
    have hsmall := (hS.toSmall.step h).sndNxt
    obtain ⟨flow, finished, -, hcc, -, hnxt, -⟩ := step_reply h
    rw [hnxt] at hsmall ⊢
    rw [hcc, (receiveReply_cases hm hS.started (r.ack flow.sndNxt finished) r.newIncStage).2 ho]
    have hmod : (r.ack flow.sndNxt finished).sndNxt.toUInt32.toNat = flow.sndNxt.toNat := by
      rw [Reply.ack, UInt64.toNat_toUInt32]
      exact Nat.mod_eq_of_lt hsmall
    rw [hmod]

/-- `m_lastUpdateSeq` never goes back. -/
theorem lastUpdateSeq_le (hm : c.ccMode = .hpcc ∨ c.ccMode = .hpccPint) {S S' : Sender}
    {op : SenderOp} (hS : S.Running c) (h : S.step c hw op = some S') :
    (lastUpdateSeq c S.cc).toNat ≤ (lastUpdateSeq c S'.cc).toNat := by
  by_cases ho : S.Opens c op
  · rw [step_lastUpdateSeq hm hS h ho]
    exact le_max_left _ _
  · have href := (step_sameReference hm hS h ho).reference_eq (c := c)
    have hseq (qp : Qp) : lastUpdateSeq c qp = (reference c qp).lastUpdateSeq := by
      rw [lastUpdateSeq, reference]
      split <;> rfl
    rw [hseq, hseq, href]

/-- An event that changes the reference is a full update. -/
theorem opens_of_reference_ne (hm : c.ccMode = .hpcc ∨ c.ccMode = .hpccPint) {S S' : Sender}
    {op : SenderOp} (hS : S.Running c) (h : S.step c hw op = some S')
    (hne : reference c S'.cc ≠ reference c S.cc) : S.Opens c op := by
  by_contra ho
  exact hne (step_sameReference hm hS h ho).reference_eq

/-- **The round-trip gate.** Its mark is `m_lastUpdateSeq`, its front `snd_nxt`. -/
def gate (hm : c.ccMode = .hpcc ∨ c.ccMode = .hpccPint) : Gate (Sender.step c hw) where
  Inv := Running c
  mark S := (lastUpdateSeq c S.cc).toNat
  front S := S.flow.sndNxt.toNat
  key op := op.seq.toNat
  Opens := Sender.Opens c
  inv_step hS h := ⟨hS.toSmall.step h, fun h0 => by
    have hle := lastUpdateSeq_le hm hS h
    have hne := mt UInt32.toNat_inj.1 hS.started
    rw [h0] at hle
    exact hne (Nat.le_zero.1 hle)⟩
  mark_le_step hS h := lastUpdateSeq_le hm hS h
  front_le_step hS h ho := (le_max_right _ _).trans_eq (step_lastUpdateSeq hm hS h ho).symm
  mark_lt_key := by
    rintro S (_ | r) ho
    · exact ho.elim
    · exact UInt32.lt_iff_toNat_lt.1 ho.1

/-- **The reference changes at most once per round trip.** In a run from a state in which
`m_lastUpdateSeq` is set, it never goes back; whatever is no full update changes only the rate, the
stored telemetry and the estimates; from a full update on, `m_lastUpdateSeq` is at least the
`snd_nxt` of then; and of two changes of the reference the second is due to an ACK beyond the
`snd_nxt` of the first. -/
theorem reference_once_per_rtt (c : Config) (hw : RdmaHw)
    (hm : c.ccMode = .hpcc ∨ c.ccMode = .hpccPint) {S T : Sender} (hS : S.Small)
    (h0 : lastUpdateSeq c S.cc ≠ 0) {ops : List SenderOp}
    (hrun : Run.exec (Sender.step c hw) S ops = some T) :
    (lastUpdateSeq c S.cc).toNat ≤ (lastUpdateSeq c T.cc).toNat ∧
      ∀ op T', T.step c hw op = some T' →
        (¬ T.Opens c op → SameReference T.cc T'.cc ∧ reference c T'.cc = reference c T.cc) ∧
        (T.Opens c op → ∀ ops' U, Run.exec (Sender.step c hw) T' ops' = some U →
          T'.flow.sndNxt.toNat ≤ (lastUpdateSeq c U.cc).toNat) ∧
        (reference c T'.cc ≠ reference c T.cc →
          ∀ ops' U op' U', Run.exec (Sender.step c hw) T' ops' = some U →
            U.step c hw op' = some U' → reference c U'.cc ≠ reference c U.cc →
            ∃ r, op' = .reply r ∧ T'.flow.sndNxt.toNat < r.ch.seq.toNat) := by
  have hrunning : S.Running c := ⟨hS, h0⟩
  let G : Gate (Sender.step c hw) := gate hm
  have hT : T.Running c := G.inv_exec hrunning hrun
  refine ⟨G.mark_le hrunning hrun, fun op T' hstep => ⟨fun ho => ?_, fun ho ops' U hU => ?_,
    fun hne ops' U op' U' hU hstep' hne' => ?_⟩⟩
  · have hsame := step_sameReference hm hT hstep ho
    exact ⟨hsame, hsame.reference_eq⟩
  · exact G.front_le_mark hT ho hstep hU
  · have hU' : U.Running c := G.inv_exec (G.inv_step hT hstep) hU
    have ho := opens_of_reference_ne hm hT hstep hne
    have ho' := opens_of_reference_ne hm hU' hstep' hne'
    have hlt := G.front_lt_key hT ho hstep hU ho'
    cases op' with
    | send => exact ho'.elim
    | reply r => exact ⟨r, rfl, hlt⟩

/-- A sender of a flow of 100 kB that has sent 5000 bytes, and updated its reference last when it
had sent 1000. -/
def underway (c : Config) : Sender where
  flow := { RdmaHw.newQp ⟨1000, 4000, 1, 500000, false, false⟩ 0 100000000000
    { size := 100000, pg := 3, sip := 1, dip := 2, sport := 10000, dport := 100, win := 0 } with
    sndNxt := 5000 }
  cc :=
    let qp := addQueuePair c 0 8000
    { qp with
      hp := { qp.hp with lastUpdateSeq := 1000 }
      hpccPint := { qp.hpccPint with lastUpdateSeq := 1000 } }

/-- An ACK without telemetry. -/
def bareAck (seq rand : UInt32) : Reply where
  ch := { nack := false, seq := seq }
  cnp := false
  ih := .new
  now := 8000
  rand := rand
  nextAvail := 0
  newIncStage := 0

/-- A full update of HPCC while a packet is on its way. -/
theorem reference_once_per_rtt_underway :
    let c := Config.defaults .hpcc (100 * 10 ^ 9) { mode := .normal, pintBytes := 2, multi := 1 }
    let hw : RdmaHw := ⟨1000, 4000, 1, 500000, false, false⟩
    ∃ T, (underway c).step c hw (.reply (bareAck 2000 0)) = some T ∧
      5000 ≤ (lastUpdateSeq c T.cc).toNat := by
  intro c hw
  have hsmall : (underway c).Small := ⟨by decide, by decide, by decide⟩
  have hrun : Run.exec (Sender.step c hw) (underway c) [] = some (underway c) := rfl
  have h := (reference_once_per_rtt c hw (.inl rfl) hsmall (by decide) hrun).2
    (.reply (bareAck 2000 0)) _ rfl
  exact ⟨_, rfl, h.2.1 ⟨by decide, by decide⟩ [] _ rfl⟩

/-- **An ACK that is not sampled** by HPCC-PINT leaves `m_lastUpdateSeq` behind `snd_nxt`. -/
theorem unsampled_ack_keeps_seq :
    ¬ ∀ (c : Config) (hw : RdmaHw), c.ccMode = .hpcc ∨ c.ccMode = .hpccPint →
      ∀ S : Sender, S.Small → lastUpdateSeq c S.cc ≠ 0 →
        ∀ r T, S.step c hw (.reply r) = some T → r.ch.seq > lastUpdateSeq c S.cc →
          T.flow.sndNxt.toNat ≤ (lastUpdateSeq c T.cc).toNat := by
  intro h
  let c : Config :=
    { Config.defaults .hpccPint (100 * 10 ^ 9) { mode := .pint, pintBytes := 2, multi := 1 } with
      pintSmplThresh := 32768 }
  have h' := h c ⟨1000, 4000, 1, 500000, false, false⟩ (.inr rfl) (underway c)
    ⟨by decide, by decide, by decide⟩ (by decide) (bareAck 2000 40000) _ rfl (by decide)
  revert h'
  decide

end CongestionControl

end HpccSim
