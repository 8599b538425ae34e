import HpccSim.RateGate

/-!
# DCTCP and its window

`HandleAckDctcp` (`rdma-hw.cc`) has two gates. An ACK beyond `m_lastUpdateSeq` starts a new batch,
over which `m_alpha` is averaged; a marked ACK reduces the rate unless the queue pair is in CWR,
which an ACK beyond `m_highSeq` ends. Both are set to a copy of `snd_nxt` in 32 bits.

The end of CWR and the next reduction need not be due to the same ACK, and the reduction does not
look at the sequence number: once CWR has ended, an ACK that was overtaken, or a NACK that goes back
to the start of a chunk, reduces the rate as well. What holds is that an ACK beyond the window has
come in between.

## Main definitions

* `StartsBatch`, `ExitsCwr`, `Reduces`: what an ACK does.
* `Sender.Covered`: an ACK is not beyond `snd_nxt`.

## Main results

* `handleAckDctcp_eq`: the effect of an ACK.
* `reduces_once_per_window`: between two reductions the window has been acknowledged.
* `overtaken_ack_reduces`: the second of two reductions due to an ACK within the window.
-/

namespace HpccSim

namespace CongestionControl

/-! ### What an ACK does -/

section Handler

variable (c : Config) (qp : Qp)

/-- The ACK starts a new batch. -/
def StartsBatch (seq : UInt32) : Prop := seq > qp.dctcp.lastUpdateSeq

/-- The ACK ends CWR. -/
def ExitsCwr (seq : UInt32) : Prop := qp.dctcp.caState = 1 ∧ seq > qp.dctcp.highSeq

/-- The ACK reduces the rate. -/
def Reduces (seq : UInt32) (cnp : Bool) : Prop :=
  cnp = true ∧ (qp.dctcp.caState = 0 ∨ ExitsCwr qp seq)

instance (seq : UInt32) : Decidable (StartsBatch qp seq) := inferInstanceAs (Decidable (_ > _))

instance (seq : UInt32) : Decidable (ExitsCwr qp seq) := inferInstanceAs (Decidable (_ ∧ _))

instance (seq : UInt32) (cnp : Bool) : Decidable (Reduces qp seq cnp) :=
  inferInstanceAs (Decidable (_ ∧ _))

/-- `dctcp` after the first part of `HandleAckDctcp`. -/
def afterAlpha (a : Ack) : Dctcp :=
  let d := { qp.dctcp with ecnCnt := qp.dctcp.ecnCnt + (if a.cnp then 1 else 0) }
  if StartsBatch qp a.seq then updateAlphaDctcp c d a else d

/-- `m_caState` unless the rate is reduced. -/
def caStateAfter (seq : UInt32) : ℕ := if ExitsCwr qp seq then 0 else qp.dctcp.caState

variable {c qp} {a : Ack}

/-- The first part leaves CWR alone. -/
theorem afterAlpha_cwr : (afterAlpha c qp a).caState = qp.dctcp.caState ∧
    (afterAlpha c qp a).highSeq = qp.dctcp.highSeq := by
  simp only [afterAlpha, updateAlphaDctcp]
  split_ifs <;> exact ⟨rfl, rfl⟩

/-- The first part keeps `m_alpha` in the unit interval. -/
theorem inUnit_afterAlpha (hg : InUnit c.g) (h : InUnit qp.dctcp.alpha) :
    InUnit (afterAlpha c qp a).alpha := by
  rw [afterAlpha]
  by_cases hb : StartsBatch qp a.seq
  · rw [if_pos hb]
    refine updateAlphaDctcp_alpha hg ?_ a
    exact h
  · rw [if_neg hb]
    exact h

/-- **The effect of an ACK**: it reduces the rate and enters CWR, or else it may end CWR, and raises
the rate if it starts a batch out of CWR. -/
theorem handleAckDctcp_eq (c : Config) (qp : Qp) (a : Ack) :
    handleAckDctcp c qp a =
      if Reduces qp a.seq a.cnp then
        { qp with
          rate := max c.minRate (mulRate qp.rate (1 - (afterAlpha c qp a).alpha / 2))
          dctcp := { afterAlpha c qp a with caState := 1, highSeq := a.sndNxt.toUInt32 } }
      else
        { qp with
          rate :=
            if StartsBatch qp a.seq ∧ caStateAfter qp a.seq = 0 then
              min qp.maxRate (qp.rate + c.dctcpRai)
            else qp.rate
          dctcp := { afterAlpha c qp a with caState := caStateAfter qp a.seq } } := by
  obtain ⟨hca, hhigh⟩ : (afterAlpha c qp a).caState = _ ∧ (afterAlpha c qp a).highSeq = _ :=
    afterAlpha_cwr
  have hexit : ((afterAlpha c qp a).caState = 1 ∧ a.seq > (afterAlpha c qp a).highSeq) ↔
      ExitsCwr qp a.seq := by
    rw [hca, hhigh]
    rfl
  have hd : (if ExitsCwr qp a.seq then { afterAlpha c qp a with caState := 0 }
      else afterAlpha c qp a) = { afterAlpha c qp a with caState := caStateAfter qp a.seq } := by
    rw [caStateAfter]
    split_ifs
    · rfl
    · rw [← hca]
  have hreduce : (a.cnp = true ∧ caStateAfter qp a.seq = 0) ↔ Reduces qp a.seq a.cnp := by
    rw [Reduces, caStateAfter]
    split_ifs with h <;> simp [h]
  have hunfold : handleAckDctcp c qp a =
      let d := if (afterAlpha c qp a).caState = 1 ∧ a.seq > (afterAlpha c qp a).highSeq then
        { afterAlpha c qp a with caState := 0 } else afterAlpha c qp a
      let qp' :=
        if a.cnp ∧ d.caState = 0 then
          { qp with
            rate := max c.minRate (mulRate qp.rate (1 - d.alpha / 2))
            dctcp := { d with caState := 1, highSeq := a.sndNxt.toUInt32 } }
        else { qp with dctcp := d }
      if qp'.dctcp.caState = 0 ∧ StartsBatch qp a.seq then
        { qp' with rate := min qp'.maxRate (qp'.rate + c.dctcpRai) }
      else qp' := by
    simp only [handleAckDctcp, afterAlpha, StartsBatch, decide_eq_true_eq]
    rfl
  rw [hunfold]
  simp only [hexit, hd, hreduce]
  by_cases hr : Reduces qp a.seq a.cnp
  · simp [hr]
  · by_cases hb : StartsBatch qp a.seq <;> by_cases hs : caStateAfter qp a.seq = 0 <;>
      simp [hr, hb, hs]

/-- The batch and `m_alpha` are those after the first part. -/
theorem handleAckDctcp_batch (c : Config) (qp : Qp) (a : Ack) :
    (handleAckDctcp c qp a).dctcp.alpha = (afterAlpha c qp a).alpha ∧
      (handleAckDctcp c qp a).dctcp.lastUpdateSeq = (afterAlpha c qp a).lastUpdateSeq ∧
      (handleAckDctcp c qp a).dctcp.batchSizeOfAlpha = (afterAlpha c qp a).batchSizeOfAlpha := by
  rw [handleAckDctcp_eq]
  split_ifs <;> exact ⟨rfl, rfl, rfl⟩

/-! ### The divisor -/

/-- The ACK divides by `m_batchSizeOfAlpha`. -/
def DividesByBatch (qp : Qp) (seq : UInt32) : Prop :=
  StartsBatch qp seq ∧ qp.dctcp.lastUpdateSeq ≠ 0

/-- A batch has a size, unless no ACK is beyond its end. -/
def BatchSized (d : Dctcp) : Prop :=
  d.lastUpdateSeq = 0 ∨ d.lastUpdateSeq.toNat = 2 ^ 32 - 1 ∨ 1 ≤ d.batchSizeOfAlpha.toNat

theorem BatchSized.of_dividesByBatch (h : BatchSized qp.dctcp) {seq : UInt32}
    (hdiv : DividesByBatch qp seq) : 1 ≤ qp.dctcp.batchSizeOfAlpha.toNat := by
  rcases h with h | h | h
  · exact absurd h hdiv.2
  · have hlt := UInt32.lt_iff_toNat_lt.1 hdiv.1
    have := seq.toNat_lt
    omega
  · exact h

/-- A batch of fewer than `2 ^ 32 - 1` bytes has a size. -/
theorem one_le_batchSize {n mtu : UInt64} (hn : n.toNat + 1 < 2 ^ 32) :
    1 ≤ (n / mtu + 1).toUInt32.toNat := by
  have hlt : n.toNat / mtu.toNat + 1 < 2 ^ 32 :=
    (Nat.succ_le_succ (Nat.div_le_self n.toNat mtu.toNat)).trans_lt hn
  rw [UInt64.toNat_toUInt32, UInt64.toNat_add, UInt64.toNat_div, UInt64.toNat_one,
    Nat.mod_eq_of_lt (hlt.trans (by decide)), Nat.mod_eq_of_lt hlt]
  exact Nat.le_add_left 1 _

/-- An ACK that is not beyond `snd_nxt` leaves batches with a size. -/
theorem BatchSized.afterAlpha (h : BatchSized qp.dctcp) (hnxt : a.sndNxt.toNat < 2 ^ 32)
    (hseq : a.seq.toNat ≤ a.sndNxt.toNat) : BatchSized (afterAlpha c qp a) := by
  rw [CongestionControl.afterAlpha]
  by_cases hb : StartsBatch qp a.seq
  · rw [if_pos hb, updateAlphaDctcp]
    by_cases hzero : qp.dctcp.lastUpdateSeq = 0
    · -- the first batch takes in all that has been sent
      rw [if_pos hzero]
      by_cases hlast : a.sndNxt.toNat + 1 < 2 ^ 32
      · exact .inr (.inr (one_le_batchSize hlast))
      · refine .inr (.inl ?_)
        show a.sndNxt.toUInt32.toNat = 2 ^ 32 - 1
        rw [UInt64.toNat_toUInt32, Nat.mod_eq_of_lt hnxt]
        omega
    · -- the sequence number is beyond the last batch, hence positive
      rw [if_neg hzero]
      have hpos := UInt32.lt_iff_toNat_lt.1 hb
      have hsub : (a.sndNxt - a.seq.toUInt64).toNat = a.sndNxt.toNat - a.seq.toNat := by
        rw [UInt64.toNat_sub_of_le _ _ (by rwa [UInt64.le_iff_toNat_le, UInt32.toNat_toUInt64]),
          UInt32.toNat_toUInt64]
      refine .inr (.inr (one_le_batchSize ?_))
      rw [hsub]
      omega
  · rw [if_neg hb]
    exact h

end Handler

/-! ### Senders -/

variable {c : Config} {hw : RdmaHw}

namespace Sender

/-- The event reduces the rate. -/
def Reduces (S : Sender) : SenderOp → Prop
  | .send => False
  | .reply r => CongestionControl.Reduces S.cc r.ch.seq r.cnp

instance (S : Sender) : ∀ op, Decidable (S.Reduces op)
  | .send => inferInstanceAs (Decidable False)
  | .reply r => inferInstanceAs (Decidable (CongestionControl.Reduces S.cc r.ch.seq r.cnp))

/-- A reply is not beyond `snd_nxt` when the controller comes to it. -/
def Covered (hw : RdmaHw) (S : Sender) : SenderOp → Prop
  | .send => True
  | .reply r => ∀ flow finished, hw.processAck S.flow r.ch = some (flow, finished) →
      r.ch.seq.toNat ≤ flow.sndNxt.toNat

variable {S S' T : Sender}

/-- The queue pair that `AddQueuePair` makes, in both respects. -/
def start (c : Config) (hw : RdmaHw) (f : Flow) (now : ℕ) (bps : UInt64) (baseRtt : UInt64) :
    Sender where
  flow := hw.newQp now bps f
  cc := addQueuePair c f.win baseRtt

theorem dctcp_start (f : Flow) (now : ℕ) (bps baseRtt : UInt64) :
    (start c hw f now bps baseRtt).cc.dctcp = (Qp.new f.win baseRtt).dctcp := by
  rw [start, addQueuePair, initRates]
  split <;> rfl

/-- A reply is handled by `HandleAckDctcp`, with the `snd_nxt` of after `RecoverQueue`. -/
theorem step_reply_dctcp (hm : c.ccMode = .dctcp) {r : Reply}
    (h : S.step c hw (.reply r) = some S') :
    ∃ finished, S'.cc = handleAckDctcp c S.cc (r.ack S'.flow.sndNxt finished) ∧
      ∀ flow fin, hw.processAck S.flow r.ch = some (flow, fin) →
        S'.flow.sndNxt = flow.sndNxt := by
  obtain ⟨flow, finished, hp, hcc, -, hnxt, -⟩ := step_reply h
  have hne : c.ccMode ≠ .dcqcn := by rw [hm]; decide
  refine ⟨finished, ?_, fun flow' fin hp' => ?_⟩
  · rw [hcc, hnxt, receiveReply]
    simp only [hm, reduceCtorEq, false_and, if_false, receiveAck, qpComplete_of_ne hne, ite_self]
  · rw [hp] at hp'
    cases hp'
    exact hnxt

/-! ### From one reduction to the next -/

/-- CWR, with `m_highSeq` set to `H`. -/
def InCwr (S : Sender) (H : UInt32) : Prop :=
  S.cc.dctcp.caState = 1 ∧ S.cc.dctcp.highSeq = H

/-- A reduction enters CWR, up to `snd_nxt`. -/
theorem inCwr_of_reduces (hm : c.ccMode = .dctcp) {r : Reply} (hr : S.Reduces (.reply r))
    (h : S.step c hw (.reply r) = some S') : S'.InCwr S'.flow.sndNxt.toUInt32 := by
  obtain ⟨finished, hcc, -⟩ := step_reply_dctcp hm h
  have hr' : CongestionControl.Reduces S.cc (r.ack S'.flow.sndNxt finished).seq
      (r.ack S'.flow.sndNxt finished).cnp := hr
  rw [InCwr, hcc, handleAckDctcp_eq, if_pos hr']
  exact ⟨rfl, rfl⟩

/-- Without a reduction CWR is left only by an ACK beyond `m_highSeq`. -/
theorem InCwr.step (hm : c.ccMode = .dctcp) {H : UInt32} (hS : S.InCwr H) {op : SenderOp}
    (hr : ¬ S.Reduces op) (h : S.step c hw op = some S') : S'.InCwr H ∨ H < op.seq := by
  cases op with
  | send =>
    obtain ⟨-, hS'⟩ := Option.ite_none_left_eq_some.1 h
    cases hS'
    exact .inl hS
  | reply r =>
    obtain ⟨finished, hcc, -⟩ := step_reply_dctcp hm h
    have hr' : ¬ CongestionControl.Reduces S.cc (r.ack S'.flow.sndNxt finished).seq
        (r.ack S'.flow.sndNxt finished).cnp := hr
    have hhigh : (afterAlpha c S.cc (r.ack S'.flow.sndNxt finished)).highSeq = _ :=
      afterAlpha_cwr.2
    by_cases hexit : ExitsCwr S.cc r.ch.seq
    · exact .inr (hS.2 ▸ hexit.2)
    · have hca : caStateAfter S.cc (r.ack S'.flow.sndNxt finished).seq = S.cc.dctcp.caState :=
        if_neg hexit
      rw [InCwr, hcc, handleAckDctcp_eq, if_neg hr']
      exact .inl ⟨hca.trans hS.1, hhigh.trans hS.2⟩

/-- Until the next reduction there is CWR, or an ACK has been beyond `m_highSeq`. -/
theorem InCwr.exec (hm : c.ccMode = .dctcp) {H : UInt32} {U : Sender} {ops : List SenderOp}
    (hS : S.InCwr H) (hno : Run.Along (Sender.step c hw) (fun S op => ¬ S.Reduces op) S ops)
    (h : Run.exec (Sender.step c hw) S ops = some U) :
    U.InCwr H ∨ ∃ op ∈ ops, H < op.seq := by
  induction ops generalizing S with
  | nil =>
    cases h
    exact .inl hS
  | cons op ops ih =>
    obtain ⟨S', hstep, hexec⟩ := Run.exec_cons_eq_some.1 h
    rcases hS.step hm hno.1 hstep with hcwr | hlt
    · rcases ih hcwr (hno.2 S' hstep) hexec with hcwr' | ⟨op', hmem, hlt⟩
      · exact .inl hcwr'
      · exact .inr ⟨op', List.mem_cons_of_mem _ hmem, hlt⟩
    · exact .inr ⟨op, List.mem_cons_self, hlt⟩

/-- The next reduction is in a state in which an ACK has been beyond `m_highSeq`, or due to one. -/
theorem InCwr.exists_beyond (hm : c.ccMode = .dctcp) {H : UInt32} {U : Sender}
    {ops : List SenderOp} {r : Reply} (hS : S.InCwr H)
    (hno : Run.Along (Sender.step c hw) (fun S op => ¬ S.Reduces op) S ops)
    (h : Run.exec (Sender.step c hw) S ops = some U) (hr : U.Reduces (.reply r)) :
    ∃ op ∈ ops ++ [.reply r], H < op.seq := by
  rcases hS.exec hm hno h with ⟨hca, hhigh⟩ | ⟨op, hmem, hlt⟩
  · rcases hr.2 with hca' | hexit
    · rw [hca'] at hca
      cases hca
    · exact ⟨.reply r, List.mem_append_right _ List.mem_cons_self, hhigh ▸ hexit.2⟩
  · exact ⟨op, List.mem_append_left _ hmem, hlt⟩

/-! ### Invariants -/

/-- `m_alpha` after an event. -/
theorem alpha_step (hm : c.ccMode = .dctcp) (hg : InUnit c.g) (hS : InUnit S.cc.dctcp.alpha)
    {op : SenderOp} (h : S.step c hw op = some S') : InUnit S'.cc.dctcp.alpha := by
  cases op with
  | send =>
    obtain ⟨-, hS'⟩ := Option.ite_none_left_eq_some.1 h
    cases hS'
    exact hS
  | reply r =>
    obtain ⟨finished, hcc, -⟩ := step_reply_dctcp hm h
    rw [hcc, (handleAckDctcp_batch c S.cc _).1]
    exact inUnit_afterAlpha hg hS

/-- Batches keep a size as long as no ACK is beyond `snd_nxt`. -/
theorem batchSized_step (hm : c.ccMode = .dctcp) (hS : BatchSized S.cc.dctcp) {op : SenderOp}
    (hsmall : S'.Small) (hcov : S.Covered hw op) (h : S.step c hw op = some S') :
    BatchSized S'.cc.dctcp := by
  cases op with
  | send =>
    obtain ⟨-, hS'⟩ := Option.ite_none_left_eq_some.1 h
    cases hS'
    exact hS
  | reply r =>
    obtain ⟨finished, hcc, hnxt⟩ := step_reply_dctcp hm h
    obtain ⟨flow, fin, hp, -⟩ := step_reply h
    have hseq : r.ch.seq.toNat ≤ S'.flow.sndNxt.toNat := by
      rw [hnxt flow fin hp]
      exact hcov flow fin hp
    obtain ⟨-, hlast, hbatch⟩ := handleAckDctcp_batch c S.cc (r.ack S'.flow.sndNxt finished)
    rw [hcc, BatchSized, hlast, hbatch]
    exact hS.afterAlpha hsmall.sndNxt hseq

end Sender

open Sender

/-- **DCTCP reduces at most once per window.** In every run of a queue pair of fewer than `2 ^ 32`
bytes, `m_alpha` stays in the unit interval; a reply that does not reduce the rate raises it
exactly if it starts a new batch and there is no CWR after it, and one that does enters CWR; of two
reductions with none between them, the second or an event before it is an ACK beyond the `snd_nxt`
of the first; and a batch has a size when `frac` is computed with it, if no ACK so far has been
beyond `snd_nxt`. -/
theorem reduces_once_per_window (hm : c.ccMode = .dctcp) (hg : InUnit c.g) {f : Flow}
    (hsize : f.size.toNat < 2 ^ 32) {now : ℕ} {bps baseRtt : UInt64} {ops : List SenderOp}
    {T : Sender} (hrun : Run.exec (Sender.step c hw) (start c hw f now bps baseRtt) ops = some T) :
    InUnit T.cc.dctcp.alpha ∧
      ∀ r T', T.step c hw (.reply r) = some T' →
        (T.Reduces (.reply r) →
          T'.cc.rate = max c.minRate (mulRate T.cc.rate (1 - T'.cc.dctcp.alpha / 2)) ∧
          T'.cc.dctcp.caState = 1 ∧
          ∀ ops' U r', Run.Along (Sender.step c hw) (fun S op => ¬ S.Reduces op) T' ops' →
            Run.exec (Sender.step c hw) T' ops' = some U → U.Reduces (.reply r') →
            ∃ op ∈ ops' ++ [.reply r'], T'.flow.sndNxt.toNat < op.seq.toNat) ∧
        (¬ T.Reduces (.reply r) → T'.cc.rate =
          if StartsBatch T.cc r.ch.seq ∧ T'.cc.dctcp.caState = 0 then
            min T.cc.maxRate (T.cc.rate + c.dctcpRai)
          else T.cc.rate) ∧
        (Run.Along (Sender.step c hw) (Covered hw) (start c hw f now bps baseRtt) ops →
          DividesByBatch T.cc r.ch.seq → 1 ≤ T.cc.dctcp.batchSizeOfAlpha.toNat) := by
  have hstart : (start c hw f now bps baseRtt).cc.dctcp = (Qp.new f.win baseRtt).dctcp :=
    dctcp_start f now bps baseRtt
  have hsmall : T.Small := Run.exec_invariant (fun _ _ _ hS hstep => hS.step hstep)
    (small_newQp hsize now bps _) hrun
  have halpha : InUnit T.cc.dctcp.alpha := Run.exec_invariant
    (I := fun S : Sender => InUnit S.cc.dctcp.alpha)
    (fun _ _ _ hS hstep => alpha_step hm hg hS hstep) (hstart ▸ inUnit_one) hrun
  refine ⟨halpha, fun r T' hstep => ?_⟩
  obtain ⟨finished, hcc, -⟩ := step_reply_dctcp hm hstep
  have hiff : T.Reduces (.reply r) ↔ CongestionControl.Reduces T.cc
      (r.ack T'.flow.sndNxt finished).seq (r.ack T'.flow.sndNxt finished).cnp := Iff.rfl
  refine ⟨fun hr => ⟨?_, (inCwr_of_reduces hm hr hstep).1, ?_⟩, fun hr => ?_, fun hcov hdiv => ?_⟩
  · rw [hcc, handleAckDctcp_eq, if_pos (hiff.1 hr)]
  · intro ops' U r' hno hexec hr'
    obtain ⟨op, hmem, hlt⟩ :=
      (inCwr_of_reduces hm hr hstep).exists_beyond hm hno hexec hr'
    refine ⟨op, hmem, ?_⟩
    rw [UInt32.lt_iff_toNat_lt, UInt64.toNat_toUInt32,
      Nat.mod_eq_of_lt (hsmall.step hstep).sndNxt] at hlt
    exact hlt
  · rw [hcc, handleAckDctcp_eq, if_neg (mt hiff.2 hr)]
    rfl
  · have hsized : T.Small ∧ BatchSized T.cc.dctcp :=
      Run.exec_induction (I := fun S : Sender => S.Small ∧ BatchSized S.cc.dctcp)
        (fun _ _ _ hS hop h =>
          ⟨hS.1.step h, batchSized_step hm hS.2 (hS.1.step h) hop h⟩)
        ⟨small_newQp hsize now bps _, hstart ▸ .inl rfl⟩ hcov hrun
    exact hsized.2.of_dividesByBatch hdiv

/-- A flow of 100 kB with DCTCP at 100 Gb/s. -/
def dctcpStart : Sender :=
  start (.defaults .dctcp 100000000000 ⟨.normal, 1, 1⟩) ⟨1000, 4000, 1, 500000, false, false⟩
    ⟨100000, 3, 0x0b000001, 0x0b000101, 10000, 100, 0⟩ 0 100000000000 8000

/-- The steps of that flow. -/
def dctcpStep : Sender → SenderOp → Option Sender :=
  Sender.step (.defaults .dctcp 100000000000 ⟨.normal, 1, 1⟩)
    ⟨1000, 4000, 1, 500000, false, false⟩

/-- The flow with six packets sent. -/
def sixSent : Sender :=
  (Run.exec dctcpStep dctcpStart (List.replicate 6 .send)).get (by decide +kernel)

/-- A marked ACK. -/
def markedAck (seq : UInt32) : Reply := { bareAck seq 0 with cnp := true }

/-- The flow after the first reduction, due to the ACK of the first packet. -/
def sixReduced : Sender := (dctcpStep sixSent (.reply (markedAck 1000))).get (by decide +kernel)

/-- Two more packets, and the ACK of the seventh. -/
def windowAcked : Sender :=
  (Run.exec dctcpStep sixReduced [.send, .send, .reply (bareAck 7000 0)]).get (by decide +kernel)

/-- No reduction in between. -/
theorem along_windowAcked : Run.Along dctcpStep (fun S op => ¬ S.Reduces op) sixReduced
    [.send, .send, .reply (bareAck 7000 0)] := by
  decide +kernel

/-- The ACK of the seventh packet is beyond the 6000 bytes sent at the first reduction. -/
theorem reduces_once_per_window_six :
    ∃ op ∈ ([.send, .send, .reply (bareAck 7000 0), .reply (markedAck 5000)] : List SenderOp),
      sixReduced.flow.sndNxt.toNat < op.seq.toNat :=
  have hg : InUnit (1 / 16 : ℚ) := ⟨by decide +kernel, by decide +kernel⟩
  have h := (reduces_once_per_window rfl hg (by decide +kernel)
    (T := sixSent) (Option.some_get _).symm).2 (markedAck 1000) sixReduced
    (Option.some_get _).symm
  (h.1 (by decide +kernel)).2.2 _ windowAcked (markedAck 5000) along_windowAcked
    (Option.some_get _).symm (by decide +kernel)

/-- **The reduction itself may be due to an ACK within the window**: that of the fifth packet,
overtaken by that of the seventh. -/
theorem overtaken_ack_reduces :
    ¬ ∀ (c : Config) (hw : RdmaHw), c.ccMode = .dctcp → 1 ≤ c.mtu.toNat → InUnit c.g →
      ∀ f : Flow, f.size.toNat < 2 ^ 32 → ∀ (now : ℕ) (bps baseRtt : UInt64) ops T,
        Run.exec (Sender.step c hw) (start c hw f now bps baseRtt) ops = some T →
        ∀ r T', T.step c hw (.reply r) = some T' → T.Reduces (.reply r) →
        ∀ ops' U r', Run.Along (Sender.step c hw) (fun S op => ¬ S.Reduces op) T' ops' →
          Run.exec (Sender.step c hw) T' ops' = some U → U.Reduces (.reply r') →
          T'.flow.sndNxt.toNat < r'.ch.seq.toNat := by
  intro h
  have hlt : sixReduced.flow.sndNxt.toNat < (5000 : UInt32).toNat :=
    h _ _ rfl (by decide +kernel) ⟨by decide +kernel, by decide +kernel⟩ _ (by decide +kernel) _ _ _
      _ sixSent (Option.some_get _).symm (markedAck 1000) sixReduced (Option.some_get _).symm
      (by decide +kernel) _ windowAcked (markedAck 5000) along_windowAcked
      (Option.some_get _).symm (by decide +kernel)
  revert hlt
  decide +kernel

end CongestionControl

end HpccSim
