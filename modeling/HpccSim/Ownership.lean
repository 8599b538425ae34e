import HpccSim.FlowService
import HpccSim.WakeUp

/-!
# Who owns a flow

A queue pair of a host is known twice (`rdma-hw.cc`): by `m_qpMap`, and by the group of the device
that sends for it. `AddQueuePair` enters it in both, `QpComplete` takes it out of the first,
`GetNextQindex` out of the second, and `RedistributeQp` empties all groups and fills them again,
with devices transmitting meanwhile. Every queue pair that is not finished stays in exactly one
group.

## Main definitions

* `Host.OwnedOnce`: the property.
* `Host.FreshKeys`: the condition on an event: no `endTime`, and no key of a flow still going on.
* `Host.Ledger`: the invariant, with the queue pairs that are still to be assigned.

## Main results

* `Host.Ledger.transmit`: a transmit opportunity keeps it.
* `Host.always_ownedOnce`: the property holds in every state of every run.
-/

namespace HpccSim

namespace Host

variable (c : HostConfig) (h : Host)

/-- Every queue pair of `m_qpMap` that is not finished is in the group of exactly one device, once,
and every queue pair of a group that is not finished is in `m_qpMap`. -/
def OwnedOnce : Prop :=
  (∀ e ∈ h.qpMap, (h.qps e.2).isFinished = false →
    ∃ i, (h.nics i).queue.qpGrp.count e.2 = 1 ∧ ∀ j, j ≠ i → e.2 ∉ (h.nics j).queue.qpGrp) ∧
  ∀ i, ∀ id ∈ (h.nics i).queue.qpGrp, (h.qps id).isFinished = false → ∃ key, (key, id) ∈ h.qpMap

/-- Flows are added without `endTime`, and with the key of no flow that is not finished. -/
def FreshKeys : Op → Prop
  | .addQueuePair f endTime => endTime = none ∧
      ∀ e ∈ h.qpMap, e.1 = getQpKey f.dip f.sport f.pg → (h.qps e.2).isFinished = true
  | .endTime _ => False
  | _ => True

instance (h : Host) (op : Op) : Decidable (FreshKeys h op) :=
  match op with
  | .addQueuePair f endTime => inferInstanceAs (Decidable (endTime = none ∧
      ∀ e ∈ h.qpMap, e.1 = getQpKey f.dip f.sport f.pg → (h.qps e.2).isFinished = true))
  | .endTime _ => inferInstanceAs (Decidable False)
  | .receiveAck .. | .changeRate .. | .reply .. | .transmitComplete _ | .nextSend _
  | .receivePfc .. | .takeDown _ | .setTable _ | .redistributeQp _ | .tick _ =>
    inferInstanceAs (Decidable True)

/-- The invariant, when the queue pairs `todo` are still to be assigned to a device. -/
structure Ledger (todo : List ℕ) (h : Host) : Prop where
  mapped : ∀ e ∈ h.qpMap, e.2 < h.created ∧ e.1 = (h.qps e.2).key
  keys : (h.qpMap.map Prod.fst).Nodup
  lt : ∀ i, ∀ id ∈ (h.nics i).queue.qpGrp, id < h.created
  owner : ∀ e ∈ h.qpMap, (h.qps e.2).isFinished = false → e.2 ∉ todo →
    ∃ i, (h.nics i).queue.qpGrp.count e.2 = 1 ∧ ∀ j, j ≠ i → e.2 ∉ (h.nics j).queue.qpGrp
  waiting : ∀ id ∈ todo, ∀ i, id ∉ (h.nics i).queue.qpGrp
  inMap : ∀ i, ∀ id ∈ (h.nics i).queue.qpGrp, (h.qps id).isFinished = false →
    ∃ key, (key, id) ∈ h.qpMap

variable {c h} {h' : Host} {todo : List ℕ} {i id : ℕ}

namespace Ledger

theorem ownedOnce (hh : Ledger [] h) : OwnedOnce h :=
  ⟨fun e he hopen => hh.owner e he hopen List.not_mem_nil, hh.inMap⟩

/-- A key belongs to one queue pair. -/
theorem eq_of_key (hh : Ledger todo h) {e e' : UInt64 × ℕ} (he : e ∈ h.qpMap)
    (he' : e' ∈ h.qpMap) (hkey : e.1 = e'.1) : e = e' :=
  List.inj_on_of_nodup_map hh.keys he he' hkey

/-- Groups may lose finished queue pairs, and queue pairs may become finished. -/
theorem congr (hh : Ledger todo h) (hcreated : h'.created = h.created)
    (hmap : h'.qpMap = h.qpMap)
    (hqps : ∀ id, (h'.qps id).key = (h.qps id).key ∧
      ((h'.qps id).isFinished = false → (h.qps id).isFinished = false))
    (hsub : ∀ i, (h'.nics i).queue.qpGrp.Sublist (h.nics i).queue.qpGrp)
    (hkeep : ∀ i, ((h'.nics i).queue.qpGrp.filter fun id => !(h.qps id).isFinished) =
      (h.nics i).queue.qpGrp.filter fun id => !(h.qps id).isFinished) : Ledger todo h' where
  mapped e he := by
    rw [hmap] at he
    rw [hcreated, (hqps e.2).1]
    exact hh.mapped e he
  keys := by
    rw [hmap]
    exact hh.keys
  lt i id hid := by
    rw [hcreated]
    exact hh.lt i id ((hsub i).subset hid)
  owner e he hopen hnot := by
    rw [hmap] at he
    have hopen' := (hqps e.2).2 hopen
    obtain ⟨i, hcount, hothers⟩ := hh.owner e he hopen' hnot
    refine ⟨i, ?_, fun j hj hmem => hothers j hj ((hsub j).subset hmem)⟩
    rw [← hcount,
      ← List.count_filter (p := fun id => !(h.qps id).isFinished) (by simpa using hopen'), hkeep i,
      List.count_filter (by simpa using hopen')]
  waiting id hid i hmem := hh.waiting id hid i ((hsub i).subset hmem)
  inMap i id hid hopen := by
    rw [hmap]
    exact hh.inMap i id ((hsub i).subset hid) ((hqps id).2 hopen)

/-- A device changes, but not its group. -/
theorem setNic (hh : Ledger todo h) {nic : Nic} (hgrp : nic.queue.qpGrp = (h.nics i).queue.qpGrp) :
    Ledger todo (h.setNic i nic) := by
  have hsame (j : ℕ) : ((h.setNic i nic).nics j).queue.qpGrp = (h.nics j).queue.qpGrp := by
    by_cases hj : j = i
    · subst hj
      rw [nics_setNic_self, hgrp]
    · rw [nics_setNic_of_ne hj]
  exact hh.congr rfl rfl (fun _ => ⟨rfl, fun hopen => hopen⟩) (fun j => by rw [hsame])
    fun j => by rw [hsame]

/-- A queue pair changes, and does not become unfinished. -/
theorem setQp (hh : Ledger todo h) {qp : RdmaQueuePair} (hkey : qp.key = (h.qps id).key)
    (hfin : qp.isFinished = false → (h.qps id).isFinished = false) :
    Ledger todo (h.setQp id qp) := by
  refine hh.congr rfl rfl (fun id' => ?_) (fun _ => List.Sublist.refl _) fun _ => rfl
  by_cases hid : id' = id
  · subst hid
    rw [qps_setQp_self]
    exact ⟨hkey, hfin⟩
  · rw [qps_setQp_of_ne hid]
    exact ⟨rfl, fun hopen => hopen⟩

/-- **A transmit opportunity** removes finished queue pairs from a group. -/
theorem transmit (hh : Ledger todo h) (htx : h.dequeueAndTransmit c i = some h') :
    Ledger todo h' := by
  have hf := (dequeueAndTransmit_frame htx).1
  have hqps (id : ℕ) : (h'.qps id).key = (h.qps id).key ∧
      ((h'.qps id).isFinished = false → (h.qps id).isFinished = false) := by
    rcases hf.qps id with heq | ⟨-, nxt, avail, heq⟩
    · rw [heq]
      exact ⟨rfl, fun hopen => hopen⟩
    · rw [heq]
      exact ⟨rfl, fun hopen => hopen⟩
  by_cases hup : (h.nics i).linkUp = true ∧ (h.nics i).txBusy = false
  · obtain ⟨r, hr, hqueue⟩ := Option.map_eq_some_iff.1
      (dequeueQindex_of_dequeueAndTransmit hup.1 hup.2 htx)
    have hgrp := RdmaEgressQueue.dequeueQindex_qpGrp hr
    rw [hqueue] at hgrp
    refine hh.congr hf.created hf.qpMap hqps (fun j => ?_) fun j => ?_
    · by_cases hj : j = i
      · subst hj
        rw [hgrp]
        exact (RdmaEgressQueue.getNextQindex_snd_sublist _ _ _ _ _).1
      · rw [hf.nics j hj]
    · by_cases hj : j = i
      · subst hj
        rw [hgrp]
        exact RdmaEgressQueue.filter_getNextQindex _ _ _ _ _
      · rw [hf.nics j hj]
  · have heq : h' = h := by
      rw [dequeueAndTransmit] at htx
      cases hl : (h.nics i).linkUp with
      | false => simpa [hl] using htx.symm
      | true =>
        have hb : (h.nics i).txBusy = true := by simpa [hl] using hup
        simpa [hl, hb] using htx.symm
    rwa [heq]

/-- A transmit opportunity after a change of a device. -/
theorem setNic_transmit (hh : Ledger todo h) {nic : Nic} {j : ℕ}
    (htx : (h.setNic i nic).dequeueAndTransmit c j = some h')
    (hgrp : nic.queue.qpGrp = (h.nics i).queue.qpGrp) : Ledger todo h' :=
  (hh.setNic hgrp).transmit htx

/-- **Completion**: a finished queue pair leaves `m_qpMap`. -/
theorem qpComplete (hh : Ledger todo h) (hfin : (h.qps id).isFinished = true)
    {key : UInt64} (hid : (key, id) ∈ h.qpMap) : Ledger todo (h.qpComplete id) where
  mapped e he := hh.mapped e (List.mem_filter.1 he).1
  keys := hh.keys.sublist (List.filter_sublist.map _)
  lt := hh.lt
  owner e he := hh.owner e (List.mem_filter.1 he).1
  waiting := hh.waiting
  inMap i id' hid' hopen := by
    obtain ⟨key', hmem⟩ := hh.inMap i id' hid' hopen
    refine ⟨key', List.mem_filter.2 ⟨hmem, bne_iff_ne.2 fun hkey => ?_⟩⟩
    have heq := hh.eq_of_key hmem hid (hkey.trans (hh.mapped _ hid).2.symm)
    cases heq
    exact Bool.false_ne_true (hopen.symm.trans hfin)

theorem updateNextAvail (hh : Ledger todo h) (i t : ℕ) : Ledger todo (h.updateNextAvail i t) := by
  rcases updateNextAvail_cases h i t with heq | ⟨-, -, -, heq⟩
  · rwa [heq]
  · rw [heq]
    exact hh.setNic rfl

theorem changeRate (hh : Ledger todo h) {rate : UInt64} {avail : Option ℕ}
    (hrate : h.changeRate c id rate avail = some h') : Ledger todo h' := by
  cases avail with
  | none =>
    cases hrate
    exact hh.setQp rfl fun hopen => hopen
  | some t =>
    simp only [Host.changeRate, Option.bind_eq_bind, Option.bind_eq_some_iff] at hrate
    obtain ⟨i, -, hrate⟩ := hrate
    cases hrate
    have hset : Ledger todo (h.setQp id { h.qps id with rate := rate, nextAvail := t }) :=
      hh.setQp rfl fun hopen => hopen
    exact hset.updateNextAvail i t

/-- A reply: a queue pair that it finishes leaves `m_qpMap`. -/
theorem takeAck (hh : Ledger todo h) {sip : UInt32} {dport pg : UInt16} {ch : AckFrame}
    {cc : Option (UInt64 × Option ℕ)} {g : Host × ℕ}
    (hg : h.takeAck c sip dport pg ch cc = some g) : Ledger todo g.1 := by
  simp only [Host.takeAck, Option.bind_eq_bind, Option.bind_eq_some_iff] at hg
  obtain ⟨id, hid, i, -, ⟨qp, done⟩, hr, h₁, hcc, hg⟩ := hg
  cases hg
  obtain ⟨l₁, l₂, hmap, -⟩ := List.lookup_eq_some_iff.1 hid
  have hmem : (getQpKey sip dport pg, id) ∈ h.qpMap := by simp [hmap]
  obtain ⟨una, nxt, rfl, huna, -, hdone⟩ := RdmaHw.processAck_eq_some hr
  have hset : Ledger todo (h.setQp id { h.qps id with sndUna := una, sndNxt := nxt }) := by
    refine hh.setQp rfl fun hopen => ?_
    by_contra hfin
    have hle := RdmaQueuePair.isFinished_iff.1 (by simpa using hfin)
    have hle' : (h.qps id).size.toNat ≤ una.toNat := by omega
    have hfin' : RdmaQueuePair.isFinished { h.qps id with sndUna := una, sndNxt := nxt } = true :=
      RdmaQueuePair.isFinished_iff.2 hle'
    rw [hopen] at hfin'
    cases hfin'
  have hcompleted : Ledger todo (if done then
      (h.setQp id { h.qps id with sndUna := una, sndNxt := nxt }).qpComplete id
      else h.setQp id { h.qps id with sndUna := una, sndNxt := nxt }) := by
    split_ifs with hd
    · refine hset.qpComplete ?_ hmem
      rw [qps_setQp_self]
      exact RdmaQueuePair.isFinished_iff.2 (hdone.1 hd).2
    · exact hset
  rcases cc with - | ⟨rate, avail⟩
  · cases hcc
    exact hcompleted
  · exact hcompleted.changeRate hcc

/-- `AddQp` of a queue pair that is to be assigned. -/
theorem addQp (hh : Ledger (id :: todo) h) {key : UInt64} (hid : (key, id) ∈ h.qpMap)
    (hnot : id ∉ todo) :
    Ledger todo (h.setNic i { h.nics i with
      queue := { (h.nics i).queue with qpGrp := (h.nics i).queue.qpGrp ++ [id] } }) where
  mapped := hh.mapped
  keys := hh.keys
  lt j id' hid' := by
    rcases mem_group_setNic hid' with hid' | ⟨-, rfl⟩
    · exact hh.lt j id' hid'
    · exact (hh.mapped _ hid).1
  owner e he hopen htodo := by
    by_cases heq : e.2 = id
    · have hnone : (h.nics i).queue.qpGrp.count e.2 = 0 :=
        List.count_eq_zero.2 (heq ▸ hh.waiting id List.mem_cons_self i)
      refine ⟨i, ?_, fun j hj hmem => ?_⟩
      · rw [nics_setNic_self, List.count_append, hnone, heq]
        simp
      · rw [nics_setNic_of_ne hj, heq] at hmem
        exact hh.waiting id List.mem_cons_self j hmem
    · obtain ⟨i', hcount, hothers⟩ := hh.owner e he hopen (by simp [heq, htodo])
      refine ⟨i', ?_, fun j hj hmem => ?_⟩
      · by_cases hi' : i' = i
        · subst hi'
          rw [nics_setNic_self, List.count_append, hcount, List.count_singleton]
          simp [Ne.symm heq]
        · rw [nics_setNic_of_ne hi', hcount]
      · rcases mem_group_setNic hmem with hmem | ⟨-, heq'⟩
        · exact hothers j hj hmem
        · exact heq heq'
  waiting id' hid' j hmem := by
    rcases mem_group_setNic hmem with hmem | ⟨-, rfl⟩
    · exact hh.waiting id' (List.mem_cons_of_mem _ hid') j hmem
    · exact hnot hid'
  inMap j id' hid' hopen := by
    rcases mem_group_setNic hid' with hid' | ⟨-, rfl⟩
    · exact hh.inMap j id' hid' hopen
    · exact ⟨key, hid⟩

/-- A new flow enters the books and a group. -/
theorem enlist (hh : Ledger [] h) {f : Flow}
    (hfresh : ∀ e ∈ h.qpMap, e.1 = getQpKey f.dip f.sport f.pg → (h.qps e.2).isFinished = true)
    {g : Host × ℕ} (hg : h.enlist c f none = some g) : Ledger [] g.1 := by
  simp only [Host.enlist, Option.bind_eq_bind, Option.bind_eq_some_iff] at hg
  obtain ⟨i, -, hg⟩ := hg
  cases hg
  have hnone (j : ℕ) : h.created ∉ (h.nics j).queue.qpGrp := fun hmem =>
    Nat.lt_irrefl _ (hh.lt j _ hmem)
  have hold {id : ℕ} (hlt : id < h.created) :
      Function.update h.qps h.created (c.hw.newQp h.now (c.bps i) f) id = h.qps id :=
    Function.update_of_ne (Nat.ne_of_lt hlt) _ _
  have hfirst : (getQpKey f.dip f.sport f.pg, h.created) ∈
      (getQpKey f.dip f.sport f.pg, h.created) ::
        h.qpMap.filter fun e => e.1 != getQpKey f.dip f.sport f.pg := List.mem_cons_self
  have hnil : h.created ∉ ([] : List ℕ) := List.not_mem_nil
  refine addQp ⟨fun e he => ?_, ?_,
    fun j id hid => Nat.lt_succ_of_lt (hh.lt j id hid), fun e he hopen hnew => ?_,
    fun id hid j => ?_, fun j id hid hopen => ?_⟩ hfirst hnil
  · rcases List.mem_cons.1 he with rfl | he
    · exact ⟨Nat.lt_succ_self _, by simp only [Function.update_self]⟩
    · obtain ⟨hlt, hkey⟩ := hh.mapped e (List.mem_filter.1 he).1
      exact ⟨Nat.lt_succ_of_lt hlt, by simp only [hold hlt, hkey]⟩
  · refine List.nodup_cons.2 ⟨fun hmem => ?_, hh.keys.sublist (List.filter_sublist.map _)⟩
    obtain ⟨e, he, heq⟩ := List.mem_map.1 hmem
    exact bne_iff_ne.1 (List.mem_filter.1 he).2 heq
  · rcases List.mem_cons.1 he with rfl | he
    · exact absurd (List.mem_singleton_self _) hnew
    · have he := (List.mem_filter.1 he).1
      simp only [hold (hh.mapped e he).1] at hopen
      exact hh.owner e he hopen List.not_mem_nil
  · rw [List.mem_singleton.1 hid]
    exact hnone j
  · have hlt := hh.lt j id hid
    simp only [hold hlt] at hopen
    obtain ⟨key, hmem⟩ := hh.inMap j id hid hopen
    refine ⟨key, List.mem_cons_of_mem _ (List.mem_filter.2 ⟨hmem, bne_iff_ne.2 fun hkey => ?_⟩)⟩
    have hfin := hfresh _ hmem hkey
    rw [hopen] at hfin
    cases hfin

/-- **Redistribution** assigns the queue pairs one by one, with transmit opportunities between. -/
theorem reassign {order : List (UInt64 × ℕ)} (hh : Ledger (order.map Prod.snd) h)
    (hsub : ∀ e ∈ order, e ∈ h.qpMap) (hnodup : (order.map Prod.snd).Nodup)
    (hre : Host.reassign c order h = some h') : Ledger [] h' := by
  induction order generalizing h with
  | nil =>
    cases hre
    exact hh
  | cons e es ih =>
    rw [reassign_cons] at hre
    simp only [Option.bind_eq_some_iff] at hre
    obtain ⟨g, hg, h₁, htx, hre⟩ := hre
    simp only [regroup, Option.bind_eq_bind, Option.bind_eq_some_iff] at hg
    obtain ⟨i, -, hg⟩ := hg
    cases hg
    obtain ⟨hnot, hnodup⟩ := List.nodup_cons.1 hnodup
    have hadd := hh.addQp (i := i) (hsub e List.mem_cons_self) hnot
    refine ih (hadd.transmit htx) (fun e' he' => ?_) hnodup hre
    rw [(dequeueAndTransmit_frame htx).1.qpMap]
    exact hsub e' (List.mem_cons_of_mem _ he')

theorem redistributeQp (hh : Ledger [] h) {order : List (UInt64 × ℕ)}
    (hperm : order.Perm h.qpMap) (hre : h.redistributeQp c order = some h') : Ledger [] h' := by
  have hids : (order.map Prod.snd).Nodup := by
    refine (hperm.map Prod.snd).nodup_iff.2 (hh.keys.of_map.map_on fun e he e' he' heq => ?_)
    refine hh.eq_of_key he he' ?_
    rw [(hh.mapped e he).2, (hh.mapped e' he').2, heq]
  let g : Host := { h with nics := fun i =>
    { h.nics i with queue := { (h.nics i).queue with qpGrp := [] } } }
  have hempty (i id : ℕ) : id ∉ (g.nics i).queue.qpGrp := List.not_mem_nil
  have hledger : Ledger (order.map Prod.snd) g :=
    ⟨hh.mapped, hh.keys, fun i id hid => absurd hid (hempty i id),
      fun e he _ hnot => absurd (List.mem_map_of_mem (hperm.mem_iff.2 he)) hnot,
      fun id _ i => hempty i id, fun i id hid => absurd hid (hempty i id)⟩
  exact hledger.reassign (fun e he => hperm.mem_iff.1 he) hids hre

/-- **One event** along the condition. -/
theorem step (hh : Ledger [] h) {op : Op} (hC : FreshKeys h op) (hstep : h.step c op = some h') :
    Ledger [] h' := by
  cases op with
  | addQueuePair f endTime =>
    obtain ⟨rfl, hfresh⟩ := hC
    rw [Host.step, addQueuePair_eq] at hstep
    obtain ⟨g, hg, htx⟩ := Option.bind_eq_some_iff.1 hstep
    exact (hh.enlist hfresh hg).transmit htx
  | endTime k => exact absurd hC not_false
  | receiveAck sip dport pg ch cc =>
    rcases receiveAck_cases hstep with rfl | ⟨g, hg, htx⟩
    · exact hh
    · exact (hh.takeAck hg).transmit htx
  | changeRate id rate avail => exact hh.changeRate hstep
  | reply i ch =>
    simp only [Host.step] at hstep
    exact hh.setNic_transmit hstep rfl
  | transmitComplete i =>
    simp only [Host.step] at hstep
    split_ifs at hstep
    exact hh.setNic_transmit hstep rfl
  | nextSend i =>
    simp only [Host.step] at hstep
    split_ifs at hstep
    exact hh.setNic_transmit hstep rfl
  | receivePfc i pfc =>
    simp only [Host.step, Host.receivePfc] at hstep
    split_ifs at hstep
    · cases hstep
      exact hh
    · cases hstep
      exact hh
    · cases hstep
      exact hh.setNic rfl
    · exact hh.setNic_transmit hstep rfl
  | takeDown i =>
    cases hstep
    exact hh.setNic rfl
  | setTable rtTable =>
    cases hstep
    exact hh.congr rfl rfl (fun _ => ⟨rfl, fun hopen => hopen⟩) (fun _ => List.Sublist.refl _)
      fun _ => rfl
  | redistributeQp order =>
    simp only [Host.step] at hstep
    split_ifs at hstep with hperm
    exact hh.redistributeQp hperm hstep
  | tick dt =>
    simp only [Host.step] at hstep
    split_ifs at hstep
    cases hstep
    exact hh.congr rfl rfl (fun _ => ⟨rfl, fun hopen => hopen⟩) (fun _ => List.Sublist.refl _)
      fun _ => rfl

theorem init (c : HostConfig) (rtTable : UInt32 → List ℕ) : Ledger [] (init c rtTable) where
  mapped _ he := by cases he
  keys := List.nodup_nil
  lt _ _ hid := by cases hid
  owner _ he := by cases he
  waiting _ hid := by cases hid
  inMap _ _ hid := by cases hid

end Ledger

/-- **Every live flow is owned by exactly one device**, in every state of every run. -/
theorem always_ownedOnce {rtTable : UInt32 → List ℕ} {ops : List Op}
    (hC : Run.Along (step c) FreshKeys (init c rtTable) ops) :
    Run.Always (step c) OwnedOnce (init c rtTable) ops :=
  Run.always_of_invariant (I := Ledger []) (fun _ _ _ hh hC hstep => hh.step hC hstep)
    (fun _ hh => hh.ownedOnce) (.init c rtTable) hC

/-- A host with two devices, `1` and `2`. -/
def twoNics : HostConfig where
  __ := paced
  nNics := 3

/-- Two flows, one of them completed by a reply, are moved from one device to another. -/
theorem always_ownedOnce_moved :
    Run.Always (step twoNics) OwnedOnce (init twoNics fun _ => [1])
      [.addQueuePair (tenPackets 3) none, .addQueuePair (tenPackets 4) none,
        .receiveAck 2 10000 3 { nack := false, seq := 10000 } none,
        .setTable fun _ => [2], .redistributeQp [(getQpKey 2 10000 4, 1)],
        .transmitComplete 2] := by
  refine always_ownedOnce ?_
  decide +kernel

end Host

end HpccSim
