import HpccSim.Host

/-!
# Completing once and falling silent

Two things call `QpComplete`: the reply that acknowledges the last byte, and the event scheduled for
`endTime`. Neither looks whether the other has happened, and neither takes the queue pair out of the
group of its device. So a queue pair completes once and is silent afterwards exactly if the event
finds it not complete, and both leave it nothing to send: no bytes, or a window that stays closed.

## Main definitions

* `RdmaQueuePair.Muted`: nothing can be sent, whatever the rate.
* `Host.Silent`: nothing happens to a queue pair after its completion.
* `Host.CompletesQuietly`: the condition on the two events.
* `Host.Tidy`: the invariant.

## Main results

* `Host.always_onceAndSilent`: in every run along the condition a queue pair completes at most once
  and sends nothing afterwards.
* `Host.exists_completed_twice`: a queue pair that completes twice, and one that goes on sending.
-/

namespace HpccSim

namespace RdmaQueuePair

/-- The queue pair has nothing to send, or a closed window at every rate. -/
def Muted (qp : RdmaQueuePair) : Prop :=
  qp.getBytesLeft = 0 ∨ ∀ rate, { qp with rate := rate }.isWinBound = true

variable {qp : RdmaQueuePair}

theorem Muted.isEligible_eq_false (h : qp.Muted) : qp.isEligible = false := by
  rcases h with h | h
  · simp [isEligible, h]
  · have := h qp.rate
    simp [isEligible, this]

theorem Muted.setRate (h : qp.Muted) (rate : UInt64) (avail : ℕ) :
    { qp with rate := rate, nextAvail := avail }.Muted := h

theorem muted_of_size_le (h : qp.size.toNat ≤ qp.sndNxt.toNat) : qp.Muted :=
  .inl (getBytesLeft_eq_zero_iff.2 h)

/-- Every window but `0` stays closed once all is acknowledged. -/
theorem muted_of_win (hwin : qp.win ≠ 0) (hvar : qp.varWin = true → qp.maxRate ≠ 1)
    (hlt : qp.sndNxt.toNat < qp.sndUna.toNat) (hacked : qp.sndUna.toNat < 2 ^ 32) : qp.Muted := by
  have hfly : (qp.sndNxt - qp.sndUna).toNat = 2 ^ 64 - qp.sndUna.toNat + qp.sndNxt.toNat := by
    rw [UInt64.toNat_sub]
    omega
  have hne : qp.win.toNat ≠ 0 := by simpa [← UInt32.toNat_inj] using hwin
  have hwlt := qp.win.toNat_lt
  refine .inr fun rate => isWinBound_iff.2 ?_
  change _ ∧ _ ≤ (qp.sndNxt - qp.sndUna).toNat
  rw [hfly, getWin, if_neg hwin]
  split_ifs with hv
  · have hmax : qp.maxRate.toNat ≠ 1 := by simpa [← UInt64.toNat_inj] using hvar hv
    have hdiv : (qp.win.toUInt64 * rate / qp.maxRate).toNat < 2 ^ 63 := by
      rw [UInt64.toNat_div]
      have hprod := (qp.win.toUInt64 * rate).toNat_lt
      rcases Nat.lt_or_ge 1 qp.maxRate.toNat with hbig | hsmall
      · exact Nat.div_lt_of_lt_mul (by omega)
      · have hzero : qp.maxRate.toNat = 0 := by omega
        rw [hzero, Nat.div_zero]
        decide
    simp only
    split_ifs with hw
    · rw [UInt64.toNat_one]
      omega
    · have hpos : (qp.win.toUInt64 * rate / qp.maxRate).toNat ≠ 0 := by
        simpa [← UInt64.toNat_inj] using hw
      omega
  · change qp.win.toUInt64.toNat ≠ 0 ∧ qp.win.toUInt64.toNat ≤ _
    rw [UInt32.toNat_toUInt64]
    omega

end RdmaQueuePair

namespace Host

/-- The queue pair an entry is about. -/
def Event.id : Event → ℕ
  | .complete id => id
  | .sent id => id

/-- Nothing is logged for a queue pair after its completion. -/
def Silent (l : List Event) : Prop := l.Pairwise fun e e' => e' ≠ .complete e.id

/-- Each queue pair has completed at most once and has sent nothing since. -/
def OnceAndSilent (h : Host) : Prop :=
  (∀ id, h.trace.count (.complete id) ≤ 1) ∧
    ∀ id l l', h.trace = l ++ .complete id :: l' → .sent id ∉ l

theorem Silent.count_le {l : List Event} (h : Silent l) (id : ℕ) :
    l.count (.complete id) ≤ 1 := by
  induction l with
  | nil => simp
  | cons e l ih =>
    obtain ⟨hhead, htail⟩ := List.pairwise_cons.1 h
    rw [List.count_cons]
    split_ifs with he
    · have he' : e = .complete id := by simpa using he
      subst he'
      have hnone : l.count (.complete id) = 0 :=
        List.count_eq_zero.2 fun hmem => hhead _ hmem rfl
      omega
    · exact ih htail

theorem Silent.not_sent {l l' : List Event} {id : ℕ} (h : Silent (l ++ .complete id :: l')) :
    .sent id ∉ l := by
  intro hmem
  exact (List.pairwise_append.1 h).2.2 _ hmem _ List.mem_cons_self rfl

/-- The event for `endTime` finds a queue pair that is not complete and muted; the reply that
finishes a queue pair, unless it is a NACK, finds all bytes sent or a window that closes. -/
def CompletesQuietly (c : HostConfig) (h : Host) : Op → Prop
  | .endTime k => ∀ e, h.endTimes[k]? = some e →
      .complete e.2 ∉ h.trace ∧ (h.qps e.2).Muted
  | .receiveAck sip dport pg ch _ => ∀ id, h.getQp sip dport pg = some id → ch.nack = false →
      (h.qps id).size.toNat ≤ max (h.qps id).sndUna.toNat (c.hw.ackedSeq ch.seq) →
      (h.qps id).size.toNat ≤ (h.qps id).sndNxt.toNat ∨
        (h.qps id).win ≠ 0 ∧ ((h.qps id).varWin = true → (h.qps id).maxRate ≠ 1)
  | _ => True

/-- The queue pairs in `m_qpMap` are not complete, the complete ones are muted, and only an empty
flow is finished without being complete. -/
structure Tidy (h : Host) : Prop where
  mapped : ∀ e ∈ h.qpMap, e.2 < h.created ∧ e.1 = (h.qps e.2).key ∧ .complete e.2 ∉ h.trace
  muted : ∀ id, .complete id ∈ h.trace → id < h.created ∧ (h.qps id).Muted
  unfinished : ∀ id, .complete id ∉ h.trace → (h.qps id).isFinished = true →
    (h.qps id).size.toNat = 0
  acked : ∀ id, (h.qps id).sndUna.toNat < 2 ^ 32
  endTimes : ∀ e ∈ h.endTimes, e.2 < h.created
  silent : Silent h.trace

variable {c : HostConfig} {h h' : Host} {id : ℕ}

namespace Tidy

theorem onceAndSilent (h : Tidy h') : OnceAndSilent h' :=
  ⟨h.silent.count_le, fun _ _ _ heq => (heq ▸ h.silent).not_sent⟩

theorem not_eligible (hh : Tidy h) (id : ℕ) (hfin : (h.qps id).isFinished = true) :
    (h.qps id).isEligible = false := by
  by_cases hc : .complete id ∈ h.trace
  · exact (hh.muted id hc).2.isEligible_eq_false
  · have hz := hh.unfinished id hc hfin
    exact (RdmaQueuePair.muted_of_size_le (by omega)).isEligible_eq_false

/-- The devices, the routes and the time do not matter. -/
theorem congr (hh : Tidy h) (hcreated : h'.created = h.created) (hqps : h'.qps = h.qps)
    (hmap : h'.qpMap = h.qpMap) (hend : ∀ e ∈ h'.endTimes, e ∈ h.endTimes)
    (htrace : h'.trace = h.trace) : Tidy h' where
  mapped := by
    rw [hmap, hcreated, hqps, htrace]
    exact hh.mapped
  muted := by
    rw [hcreated, hqps, htrace]
    exact hh.muted
  unfinished := by
    rw [hqps, htrace]
    exact hh.unfinished
  acked := by
    rw [hqps]
    exact hh.acked
  endTimes e he := by
    rw [hcreated]
    exact hh.endTimes e (hend e he)
  silent := by
    rw [htrace]
    exact hh.silent

/-- A queue pair changes, but does not become finished. -/
theorem setQp (hh : Tidy h) {qp : RdmaQueuePair} (hkey : qp.key = (h.qps id).key)
    (hacked : qp.sndUna.toNat < 2 ^ 32)
    (hfin : .complete id ∉ h.trace → qp.isFinished = true → qp.size.toNat = 0)
    (hmuted : .complete id ∈ h.trace → qp.Muted) : Tidy (h.setQp id qp) := by
  refine ⟨fun e he => ?_, fun id' hc => ?_, fun id' hc => ?_, fun id' => ?_, hh.endTimes,
    hh.silent⟩
  all_goals simp only [Host.setQp, Function.update_apply] at *
  · obtain ⟨hlt, hk, hc⟩ := hh.mapped e he
    refine ⟨hlt, ?_, hc⟩
    split_ifs with hid
    · rw [hkey, ← hid]
      exact hk
    · exact hk
  · obtain ⟨hlt, hm⟩ := hh.muted id' hc
    refine ⟨hlt, ?_⟩
    split_ifs with hid
    · exact hmuted (hid ▸ hc)
    · exact hm
  · split_ifs with hid
    · exact hfin (hid ▸ hc)
    · exact hh.unfinished id' hc
  · split_ifs
    · exact hacked
    · exact hh.acked id'

/-- A queue pair changes in nothing that is acknowledged. -/
theorem setQp_of_sndUna_eq (hh : Tidy h) {qp : RdmaQueuePair} (hkey : qp.key = (h.qps id).key)
    (hsize : qp.size = (h.qps id).size) (huna : qp.sndUna = (h.qps id).sndUna)
    (hmuted : .complete id ∈ h.trace → qp.Muted) : Tidy (h.setQp id qp) := by
  refine hh.setQp hkey (by rw [huna]; exact hh.acked id) (fun hc hfin => ?_) hmuted
  rw [hsize]
  refine hh.unfinished id hc ?_
  rw [RdmaQueuePair.isFinished_iff] at hfin ⊢
  rwa [hsize, huna] at hfin

/-- A packet of a queue pair that is not complete is logged. -/
theorem logSent (hh : Tidy h) (hid : .complete id ∉ h.trace) : Tidy (h.log (.sent id)) := by
  refine ⟨fun e he => ?_, fun id' hc => ?_, fun id' hc => ?_, hh.acked, hh.endTimes, ?_⟩
  · obtain ⟨hlt, hk, hc⟩ := hh.mapped e he
    exact ⟨hlt, hk, by simpa [log] using hc⟩
  · exact hh.muted id' (by simpa [log] using hc)
  · exact hh.unfinished id' (by simpa [log] using hc)
  · refine List.pairwise_cons.2 ⟨fun e he heq => ?_, hh.silent⟩
    exact hid (heq ▸ he)

/-- **A transmit opportunity.** -/
theorem transmit (hh : Tidy h) {i : ℕ} (htx : h.dequeueAndTransmit c i = some h') : Tidy h' := by
  have ht := dequeueAndTransmit_transmits hh.not_eligible htx
  rcases ht.sends with ⟨hqps, htrace⟩ | ⟨id, nxt, avail, hel, hqps, htrace⟩
  · exact hh.congr ht.created hqps ht.qpMap (fun e he => ht.endTimes ▸ he) htrace
  · have hopen : .complete id ∉ h.trace := by
      intro hc
      have := (hh.muted id hc).2.isEligible_eq_false
      rw [hel] at this
      cases this
    have hset : Tidy ((h.log (.sent id)).setQp id
        { h.qps id with sndNxt := nxt, nextAvail := avail }) :=
      (hh.logSent hopen).setQp_of_sndUna_eq rfl rfl rfl fun hc =>
        absurd (by simpa [log] using hc) hopen
    exact hset.congr ht.created hqps ht.qpMap (fun e he => ht.endTimes ▸ he) htrace

theorem setNic (hh : Tidy h) (i : ℕ) (nic : Nic) : Tidy (h.setNic i nic) :=
  hh.congr rfl rfl rfl (fun _ he => he) rfl

/-- **Completion** of a queue pair that is not complete, in a state that is muted. -/
theorem qpComplete (hh : Tidy h) (hlt : id < h.created) (hopen : .complete id ∉ h.trace)
    {qp : RdmaQueuePair} (hkey : qp.key = (h.qps id).key) (hacked : qp.sndUna.toNat < 2 ^ 32)
    (hmuted : qp.Muted) : Tidy ((h.setQp id qp).qpComplete id) := by
  refine ⟨fun e he => ?_, fun id' hc => ?_, fun id' hc => ?_, fun id' => ?_, hh.endTimes, ?_⟩
  · obtain ⟨hmem, hne⟩ := List.mem_filter.1 he
    obtain ⟨hlt', hk, hc⟩ := hh.mapped e hmem
    have hid : e.2 ≠ id := by
      intro hid
      simp [Host.setQp, hkey, hk, hid] at hne
    refine ⟨hlt', ?_, fun hc' => ?_⟩
    · simpa [Host.qpComplete, Host.setQp, log, hid] using hk
    · rcases List.mem_cons.1 hc' with heq | hc'
      · cases heq
        exact hid rfl
      · exact hc hc'
  · by_cases hid : id' = id
    · subst hid
      exact ⟨hlt, by simpa [Host.qpComplete, Host.setQp, log] using hmuted⟩
    · have hc' : .complete id' ∈ h.trace := by
        rcases List.mem_cons.1 hc with heq | hc
        · cases heq
          exact absurd rfl hid
        · exact hc
      simpa [Host.qpComplete, Host.setQp, log, hid] using hh.muted id' hc'
  · have hid : id' ≠ id := by
      rintro rfl
      exact hc List.mem_cons_self
    have hc' : .complete id' ∉ h.trace := fun hmem => hc (List.mem_cons_of_mem _ hmem)
    simpa [Host.qpComplete, Host.setQp, log, hid] using hh.unfinished id' hc'
  · simp only [Host.qpComplete, Host.setQp, log, Function.update_apply]
    split_ifs
    · exact hacked
    · exact hh.acked id'
  · refine List.pairwise_cons.2 ⟨fun e he heq => ?_, hh.silent⟩
    exact hopen (heq ▸ he)

/-- The event for `endTime`. -/
theorem endTime (hh : Tidy h) {k : ℕ} (hquiet : CompletesQuietly c h (.endTime k))
    (hstep : h.step c (.endTime k) = some h') : Tidy h' := by
  simp only [step, Option.bind_eq_bind, Option.bind_eq_some_iff] at hstep
  obtain ⟨e, he, hstep⟩ := hstep
  split_ifs at hstep
  cases hstep
  obtain ⟨hopen, hmuted⟩ := hquiet e he
  have hrest : Tidy { h with endTimes := h.endTimes.eraseIdx k } :=
    hh.congr rfl rfl rfl (fun _ he => List.mem_of_mem_eraseIdx he) rfl
  have hlt : e.2 < h.created := hh.endTimes e (List.mem_of_getElem? he)
  have hdone := hrest.qpComplete hlt hopen rfl (hh.acked e.2) hmuted
  rwa [Host.setQp, Function.update_eq_self] at hdone

/-- A reply is processed, and the queue pair completed if that finishes it. -/
theorem processAck (hh : Tidy h) {ch : AckFrame} {qp : RdmaQueuePair} {done : Bool}
    (hlt : id < h.created) (hopen : .complete id ∉ h.trace)
    (hquiet : ch.nack = false →
      (h.qps id).size.toNat ≤ max (h.qps id).sndUna.toNat (c.hw.ackedSeq ch.seq) →
      (h.qps id).size.toNat ≤ (h.qps id).sndNxt.toNat ∨
        (h.qps id).win ≠ 0 ∧ ((h.qps id).varWin = true → (h.qps id).maxRate ≠ 1))
    (hqp : c.hw.processAck (h.qps id) ch = some (qp, done)) :
    Tidy (if done then (h.setQp id qp).qpComplete id else h.setQp id qp) := by
  obtain ⟨una, nxt, rfl, huna, hnxt, hdone⟩ := RdmaHw.processAck_eq_some hqp
  have hseq := c.hw.ackedSeq_le ch.seq
  have hseqlt := ch.seq.toNat_lt
  have hacked : una.toNat < 2 ^ 32 := by
    have := hh.acked id
    omega
  split_ifs with hd
  · refine hh.qpComplete hlt hopen rfl hacked ?_
    have hall := (hdone.1 hd).2
    cases hnack : ch.nack with
    | true =>
      simp only [hnack, if_true] at hnxt
      subst hnxt
      exact RdmaQueuePair.muted_of_size_le hall
    | false =>
      simp only [hnack, Bool.false_eq_true, if_false] at hnxt
      subst hnxt
      rcases Nat.lt_or_ge (h.qps id).sndNxt.toNat (h.qps id).size.toNat with hlt' | hge
      · rcases hquiet hnack (by omega) with hle | ⟨hwin, hvar⟩
        · exact RdmaQueuePair.muted_of_size_le hle
        · exact RdmaQueuePair.muted_of_win hwin hvar (Nat.lt_of_lt_of_le hlt' hall) hacked
      · exact RdmaQueuePair.muted_of_size_le hge
  · refine hh.setQp rfl hacked (fun hc hfin => ?_) fun hc => absurd hc hopen
    rw [RdmaQueuePair.isFinished_iff] at hfin
    by_cases hint : c.hw.ackInterval = 0
    · -- nothing is acknowledged
      have hzero : c.hw.ackedSeq ch.seq = 0 := by rw [RdmaHw.ackedSeq, if_pos hint]
      refine hh.unfinished id hopen (RdmaQueuePair.isFinished_iff.2 ?_)
      simp only at hfin
      omega
    · exact absurd (hdone.2 ⟨hint, hfin⟩) hd

/-- The congestion control sets a rate. -/
theorem changeRate (hh : Tidy h) {rate : UInt64} {avail : Option ℕ}
    (hrate : h.changeRate c id rate avail = some h') : Tidy h' := by
  have hset : ∀ t, Tidy (h.setQp id { h.qps id with rate := rate, nextAvail := t }) := fun t =>
    hh.setQp_of_sndUna_eq rfl rfl rfl fun hc => (hh.muted id hc).2.setRate rate t
  cases avail with
  | none =>
    cases hrate
    exact hset (h.qps id).nextAvail
  | some t =>
    simp only [Host.changeRate, Option.bind_eq_bind, Option.bind_eq_some_iff] at hrate
    obtain ⟨i, -, hrate⟩ := hrate
    cases hrate
    rw [updateNextAvail]
    split
    · split_ifs
      · exact (hset t).setNic i _
      · exact hset t
    · exact hset t

theorem receiveAck (hh : Tidy h) {sip : UInt32} {dport pg : UInt16} {ch : AckFrame}
    {cc : Option (UInt64 × Option ℕ)}
    (hquiet : CompletesQuietly c h (.receiveAck sip dport pg ch cc))
    (hack : h.receiveAck c sip dport pg ch cc = some h') : Tidy h' := by
  rw [Host.receiveAck] at hack
  split at hack
  · cases hack
    exact hh
  · next id hid =>
    simp only [Option.bind_eq_bind, Option.bind_eq_some_iff] at hack
    obtain ⟨i, -, ⟨qp, done⟩, hqp, h₁, hcc, htx⟩ := hack
    obtain ⟨l₁, l₂, hmap, -⟩ := List.lookup_eq_some_iff.1 hid
    obtain ⟨hlt, -, hopen⟩ := hh.mapped (getQpKey sip dport pg, id) (by rw [hmap]; simp)
    have hdone := hh.processAck hlt hopen (hquiet id hid) hqp
    refine transmit (c := c) (h := h₁) ?_ htx
    rcases cc with - | ⟨rate, avail⟩
    · cases hcc
      exact hdone
    · exact hdone.changeRate hcc

theorem addQueuePair (hh : Tidy h) {f : Flow} {endTime : Option ℕ}
    (hadd : h.addQueuePair c f endTime = some h') : Tidy h' := by
  simp only [Host.addQueuePair, Option.bind_eq_bind, Option.bind_eq_some_iff] at hadd
  obtain ⟨i, -, htx⟩ := hadd
  refine transmit (setNic ?_ i _) htx
  have hnew : .complete h.created ∉ h.trace := fun hc => Nat.lt_irrefl _ (hh.muted _ hc).1
  refine ⟨fun e he => ?_, fun id hc => ?_, fun id hc => ?_, fun id => ?_, fun e he => ?_, hh.silent⟩
  · rcases List.mem_cons.1 he with rfl | he
    · exact ⟨Nat.lt_succ_self _, by simp, hnew⟩
    · obtain ⟨hlt, hk, hc⟩ := hh.mapped e (List.mem_filter.1 he).1
      have hne : e.2 ≠ h.created := Nat.ne_of_lt hlt
      exact ⟨Nat.lt_succ_of_lt hlt, by simpa [hne] using hk, hc⟩
  · obtain ⟨hlt, hm⟩ := hh.muted id hc
    have hne : id ≠ h.created := Nat.ne_of_lt hlt
    exact ⟨Nat.lt_succ_of_lt hlt, by simpa [hne] using hm⟩
  · simp only [Function.update_apply]
    split_ifs
    · intro hfin
      rw [RdmaQueuePair.isFinished_iff] at hfin
      exact Nat.le_zero.1 hfin
    · exact hh.unfinished id hc
  · simp only [Function.update_apply]
    split_ifs
    · exact (by decide : (0 : ℕ) < 2 ^ 32)
    · exact hh.acked id
  · rcases List.mem_append.1 he with he | he
    · exact Nat.lt_succ_of_lt (hh.endTimes e he)
    · obtain ⟨t, -, rfl⟩ := Option.map_eq_some_iff.1 (Option.mem_toList.1 he)
      exact Nat.lt_succ_self _

/-- The queue pairs are assigned anew, one by one. -/
theorem reassign (hh : Tidy h) {order : List (UInt64 × ℕ)}
    (hre : Host.reassign c order h = some h') : Tidy h' := by
  induction order generalizing h with
  | nil =>
    cases hre
    exact hh
  | cons e es ih =>
    simp only [Host.reassign, Option.bind_eq_bind, Option.bind_eq_some_iff] at hre
    obtain ⟨i, -, h₁, htx, hre⟩ := hre
    exact ih (transmit (hh.setNic i _) htx) hre

/-- **One event** along the condition. -/
theorem step (hh : Tidy h) {op : Op} (hquiet : CompletesQuietly c h op)
    (hstep : h.step c op = some h') : Tidy h' := by
  cases op with
  | addQueuePair f endTime => exact hh.addQueuePair hstep
  | endTime k => exact hh.endTime hquiet hstep
  | receiveAck sip dport pg ch cc => exact hh.receiveAck hquiet hstep
  | changeRate id rate avail => exact hh.changeRate hstep
  | reply i ch => exact transmit (hh.setNic i _) hstep
  | transmitComplete i =>
    simp only [Host.step] at hstep
    split_ifs at hstep
    exact transmit (hh.setNic i _) hstep
  | nextSend i =>
    simp only [Host.step] at hstep
    split_ifs at hstep
    exact transmit (hh.setNic i _) hstep
  | receivePfc i pfc =>
    simp only [Host.step, Host.receivePfc] at hstep
    split_ifs at hstep
    · cases hstep
      exact hh
    · cases hstep
      exact hh
    · cases hstep
      exact hh.setNic i _
    · exact transmit (hh.setNic i _) hstep
  | takeDown i =>
    cases hstep
    exact hh.setNic i _
  | setTable rtTable =>
    cases hstep
    exact hh.congr rfl rfl rfl (fun _ he => he) rfl
  | redistributeQp order =>
    simp only [Host.step] at hstep
    split_ifs at hstep
    refine reassign ?_ hstep
    exact hh.congr rfl rfl rfl (fun _ he => he) rfl
  | tick dt =>
    simp only [Host.step] at hstep
    split_ifs at hstep
    cases hstep
    exact hh.congr rfl rfl rfl (fun _ he => he) rfl

theorem init (c : HostConfig) (rtTable : UInt32 → List ℕ) : Tidy (init c rtTable) where
  mapped _ he := by cases he
  muted _ hc := by cases hc
  unfinished _ _ _ := rfl
  acked _ := (by decide : (0 : ℕ) < 2 ^ 32)
  endTimes _ he := by cases he
  silent := List.Pairwise.nil

end Tidy

/-- **A queue pair completes at most once and is silent afterwards**, in every state of every run
whose events complete queue pairs quietly. -/
theorem always_onceAndSilent {rtTable : UInt32 → List ℕ} {ops : List Op}
    (hquiet : Run.Along (step c) (CompletesQuietly c) (init c rtTable) ops) :
    Run.Always (step c) OnceAndSilent (init c rtTable) ops :=
  Run.always_of_invariant (I := Tidy) (fun _ _ _ hh hC hstep => hh.step hC hstep)
    (fun _ hh => hh.onceAndSilent) (.init c rtTable) hquiet

/-- A flow of one packet that is acknowledged. -/
theorem always_onceAndSilent_one_packet :
    Run.Always
      (step (single { mtu := 1000, chunk := 4000, ackInterval := 1, nackInterval := 500,
                      backto0 := false, varWin := false } 100))
      OnceAndSilent
      (init (single { mtu := 1000, chunk := 4000, ackInterval := 1, nackInterval := 500,
                      backto0 := false, varWin := false } 100) fun _ => [1])
      [.addQueuePair { size := 1000, pg := 3, sip := 1, dip := 2, sport := 10000, dport := 100,
                       win := 0 } none,
        .receiveAck 2 10000 3 ⟨false, 1000⟩ none, .transmitComplete 1] := by
  refine always_onceAndSilent ⟨trivial, fun h hadd => ⟨?_, fun _ _ => ?_⟩⟩
  · intro id hid _ _
    have hval : (step (single { mtu := 1000, chunk := 4000, ackInterval := 1, nackInterval := 500
                                backto0 := false, varWin := false } 100)
        (init (single { mtu := 1000, chunk := 4000, ackInterval := 1, nackInterval := 500
                        backto0 := false, varWin := false } 100) fun _ => [1])
        (.addQueuePair { size := 1000, pg := 3, sip := 1, dip := 2, sport := 10000, dport := 100
                         win := 0 } none)).map
          (fun h => (h.getQp 2 10000 3, (h.qps 0).size, (h.qps 0).sndNxt)) =
        some (some 0, 1000, 1000) := by
      decide +kernel
    rw [hadd, Option.map_some, Option.some.injEq, Prod.mk.injEq, Prod.mk.injEq] at hval
    obtain ⟨hget, hsize, hnxt⟩ := hval
    cases hid.symm.trans hget
    exact .inl (by rw [hsize, hnxt])
  · exact ⟨trivial, fun _ _ => trivial⟩

/-- **A queue pair can complete twice, and send after completion.** The event for `endTime` comes
after the last byte has been acknowledged; or it comes before the last packet has been sent. -/
theorem exists_completed_twice :
    let c : HostConfig := single
      { mtu := 1000, chunk := 4000, ackInterval := 1, nackInterval := 500, backto0 := false
        varWin := false } 100
    let f : Flow :=
      { size := 1000, pg := 3, sip := 1, dip := 2, sport := 10000, dport := 100, win := 0 }
    (∃ h, Run.exec (step c) (init c fun _ => [1])
        [.addQueuePair f (some 10), .transmitComplete 1, .receiveAck 2 10000 3 ⟨false, 1000⟩ none,
          .tick 10, .endTime 0] = some h ∧ h.trace = [.complete 0, .complete 0, .sent 0]) ∧
      ∃ h, Run.exec (step c) (init c fun _ => [1])
        [.addQueuePair { f with size := 2000 } (some 10), .tick 10, .endTime 0,
          .transmitComplete 1] = some h ∧ h.trace = [.sent 0, .complete 0, .sent 0] := by
  intro c f
  have htwice : (Run.exec (step c) (init c fun _ => [1])
      [.addQueuePair f (some 10), .transmitComplete 1, .receiveAck 2 10000 3 ⟨false, 1000⟩ none,
        .tick 10, .endTime 0]).map Host.trace =
      some [.complete 0, .complete 0, .sent 0] := by
    decide +kernel
  have hsends : (Run.exec (step c) (init c fun _ => [1])
      [.addQueuePair { f with size := 2000 } (some 10), .tick 10, .endTime 0,
        .transmitComplete 1]).map Host.trace =
      some [.sent 0, .complete 0, .sent 0] := by
    decide +kernel
  obtain ⟨h₁, hrun₁, htrace₁⟩ := Option.map_eq_some_iff.1 htwice
  obtain ⟨h₂, hrun₂, htrace₂⟩ := Option.map_eq_some_iff.1 hsends
  exact ⟨⟨h₁, hrun₁, htrace₁⟩, h₂, hrun₂, htrace₂⟩

end Host

end HpccSim
