import HpccSim.Host

/-!
# Waking up a device

When `DequeueAndTransmit` finds nothing to send, it arms `m_nextSend` for the earliest `m_nextAvail`
of the queue pairs with bytes left (`qbb-net-device.cc`). `GetNextQindex` asks for more: the class
must not be paused, and the window must be open. A queue pair that is held up so and available
already makes the earliest time one that has passed, and nothing is armed. And an event that is
pending stays, even for a queue pair that is available earlier. A device that has queue pairs
waiting for their time is woken up exactly if neither happens.

## Main definitions

* `Host.WakesUp`: a device that may send later will be woken up in time.
* `Host.Strands`: a transmit opportunity at which one of the two happens.
* `Host.opportunities`: the transmit opportunities of an event.
* `Host.WakesInTime`: the condition on an event.

## Main results

* `Host.dequeueAndTransmit_wakesUp_iff`: a transmit opportunity is followed by a wake-up in time
  exactly if it does not strand.
* `Host.always_wakesUp`: in every run along the condition every device is woken up in time.
* `Host.exists_not_wakesUp`: a queue pair that waits for its time behind a paused one is left alone.
-/

namespace HpccSim

namespace Host

open RdmaEgressQueue (isSendable)

variable (c : HostConfig) (h : Host)

/-- The queue pairs of the device `i` that may send, pacing apart. -/
def sendable (i : ℕ) : List ℕ :=
  (h.nics i).queue.qpGrp.filter fun id => isSendable (h.nics i).paused (h.qps id)

/-- If the device `i` is ready and has queue pairs that may send, `m_nextSend` is pending, for no
later than the first of them is available. -/
def WakesUp (i : ℕ) : Prop :=
  (h.nics i).linkUp = true → (h.nics i).txBusy = false →
    ∀ m, ((h.sendable i).map fun id => (h.qps id).nextAvail).min? = some m →
      ∃ t, (h.nics i).nextSend = some t ∧ t ≤ max h.now m

/-- With nothing to send now, the device `i` has a queue pair that may send later. It is not woken
up for it: `m_nextSend` is not pending, and another queue pair with bytes left is available
already; or `m_nextSend` is pending for a later time. -/
def Strands (i : ℕ) : Prop :=
  let nic := h.nics i
  nic.linkUp = true ∧ nic.txBusy = false ∧
    (nic.paused c.ackQIdx = true ∨ nic.queue.ackQ = []) ∧
    (∀ id ∈ nic.queue.qpGrp,
      isSendable nic.paused (h.qps id) = true → h.now < (h.qps id).nextAvail) ∧
    ∃ id ∈ nic.queue.qpGrp, isSendable nic.paused (h.qps id) = true ∧
      (nic.nextSend = none ∧ (∃ id' ∈ nic.queue.qpGrp, (h.qps id').getBytesLeft ≠ 0 ∧
          (h.qps id').isFinished = false ∧ (h.qps id').nextAvail ≤ h.now) ∨
        ∃ t ∈ nic.nextSend, (h.qps id).nextAvail < t)

/-! ### The transmit opportunities of an event -/

/-- `RdmaHw::AddQueuePair` up to `NewQp`. -/
def enlist (f : Flow) (endTime : Option ℕ) : Option (Host × ℕ) := do
  let id := h.created
  let i ← h.getNicIdxOfQp c (c.hw.newQp h.now 0 f)
  let qp := c.hw.newQp h.now (c.bps i) f
  let nic := h.nics i
  let h := { h with
    created := h.created + 1
    qps := Function.update h.qps id qp
    qpMap := (qp.key, id) :: h.qpMap.filter fun e => e.1 != qp.key
    endTimes := h.endTimes ++ (endTime.map fun t => (h.now + t, id)).toList }
  return (h.setNic i { nic with queue := { nic.queue with qpGrp := nic.queue.qpGrp ++ [id] } }, i)

/-- `RdmaHw::ReceiveAck` up to `TriggerTransmit`. -/
def takeAck (sip : UInt32) (dport pg : UInt16) (ch : AckFrame) (cc : Option (UInt64 × Option ℕ)) :
    Option (Host × ℕ) := do
  let id ← h.getQp sip dport pg
  let i ← h.getNicIdxOfQp c (h.qps id)
  let r ← c.hw.processAck (h.qps id) ch
  let h := h.setQp id r.1
  let h := if r.2 then h.qpComplete id else h
  let h ← h.handleAck c id cc
  return (h, i)

/-- The body of the loop of `RdmaHw::RedistributeQp` up to `ReassignedQp`. -/
def regroup (e : UInt64 × ℕ) : Option (Host × ℕ) := do
  let i ← h.getNicIdxOfQp c (h.qps e.2)
  let nic := h.nics i
  return (h.setNic i { nic with queue := { nic.queue with qpGrp := nic.queue.qpGrp ++ [e.2] } }, i)

/-- The transmit opportunities in the loop of `RdmaHw::RedistributeQp`. -/
def regroupings : List (UInt64 × ℕ) → Host → List (Host × ℕ)
  | [], _ => []
  | e :: es, h =>
    match h.regroup c e with
    | none => []
    | some g => g :: ((g.1.dequeueAndTransmit c g.2).map (regroupings es)).getD []

/-- The calls of `DequeueAndTransmit` in an event, each with the state and the device. -/
def opportunities : Op → List (Host × ℕ)
  | .addQueuePair f endTime => (h.enlist c f endTime).toList
  | .receiveAck sip dport pg ch cc => (h.takeAck c sip dport pg ch cc).toList
  | .reply i ch =>
    let nic := h.nics i
    [(h.setNic i { nic with queue := { nic.queue with ackQ := nic.queue.ackQ ++ [ch] } }, i)]
  | .transmitComplete i =>
    if (h.nics i).txBusy then [(h.setNic i { h.nics i with txBusy := false }, i)] else []
  | .nextSend i =>
    if (h.nics i).nextSend = some h.now then
      [(h.setNic i { h.nics i with nextSend := none }, i)]
    else []
  | .receivePfc i pfc =>
    let nic := h.nics i
    if nic.linkUp && nic.qbbEnabled && !decide (pfc.time > 0) then
      [(h.setNic i { nic with paused := Function.update nic.paused pfc.qIndex false }, i)]
    else []
  | .redistributeQp order =>
    if order.Perm h.qpMap then
      regroupings c order
        { h with nics := fun i =>
            { h.nics i with queue := { (h.nics i).queue with qpGrp := [] } } }
    else []
  | _ => []

/-- A queue pair is in the group of no device but its own. -/
def Placed (id : ℕ) : Prop :=
  ∀ j, id ∈ (h.nics j).queue.qpGrp → h.getNicIdxOfQp c (h.qps id) = some j

/-- The condition: no transmit opportunity strands; a queue pair whose reply comes in, or whose
`m_nextAvail` changes, is with its device; and no rate set by a timer opens a window at a device
that is ready. -/
def WakesInTime (op : Op) : Prop :=
  (∀ g ∈ h.opportunities c op, ¬ Strands c g.1 g.2) ∧
    match op with
    | .receiveAck sip dport pg _ _ => ∀ id ∈ h.getQp sip dport pg, Placed c h id
    | .changeRate id rate avail =>
      (avail ≠ none → Placed c h id) ∧
        ∀ i, id ∈ (h.nics i).queue.qpGrp → (h.nics i).linkUp = true → (h.nics i).txBusy = false →
          isSendable (h.nics i).paused { h.qps id with rate := rate } = true →
          isSendable (h.nics i).paused (h.qps id) = true
    | _ => True

/-- The groups hold queue pairs that have been added, each at most one device's. -/
structure Grouped (h : Host) : Prop where
  lt : ∀ i, ∀ id ∈ (h.nics i).queue.qpGrp, id < h.created
  mapped : ∀ e ∈ h.qpMap, e.2 < h.created
  unique : ∀ i j id, id ∈ (h.nics i).queue.qpGrp → id ∈ (h.nics j).queue.qpGrp → i = j

/-- The invariant. -/
structure Awake (h : Host) : Prop extends Grouped h where
  wakesUp : ∀ i, h.WakesUp i

variable {c h} {h' : Host} {i j id : ℕ}

@[simp] theorem nics_setNic_self (h : Host) (i : ℕ) (nic : Nic) :
    (h.setNic i nic).nics i = nic := by
  simp [Host.setNic]

theorem nics_setNic_of_ne (hij : j ≠ i) (nic : Nic) : (h.setNic i nic).nics j = h.nics j := by
  simp [Host.setNic, hij]

@[simp] theorem setNic_setNic (h : Host) (i : ℕ) (nic nic' : Nic) :
    (h.setNic i nic).setNic i nic' = h.setNic i nic' := by
  simp [Host.setNic]

@[simp] theorem qps_setQp_self (h : Host) (id : ℕ) (qp : RdmaQueuePair) :
    (h.setQp id qp).qps id = qp := by
  simp [Host.setQp]

theorem qps_setQp_of_ne {id' : ℕ} (hid : id' ≠ id) (qp : RdmaQueuePair) :
    (h.setQp id qp).qps id' = h.qps id' := by
  simp [Host.setQp, hid]

@[simp] theorem qps_setNic (h : Host) (i : ℕ) (nic : Nic) : (h.setNic i nic).qps = h.qps := rfl

@[simp] theorem now_setNic (h : Host) (i : ℕ) (nic : Nic) : (h.setNic i nic).now = h.now := rfl

/-! ### The wake-up of a device -/

theorem mem_sendable :
    id ∈ h.sendable i ↔
      id ∈ (h.nics i).queue.qpGrp ∧ isSendable (h.nics i).paused (h.qps id) = true :=
  List.mem_filter

/-- The wake-up is in time for each queue pair that may send. -/
theorem wakesUp_iff :
    h.WakesUp i ↔ ((h.nics i).linkUp = true → (h.nics i).txBusy = false → ∀ id ∈ h.sendable i,
      ∃ t, (h.nics i).nextSend = some t ∧ t ≤ max h.now (h.qps id).nextAvail) := by
  refine forall_congr' fun _ => forall_congr' fun _ => ⟨fun hm id hid => ?_, fun hid m hm => ?_⟩
  · have hmem : (h.qps id).nextAvail ∈ (h.sendable i).map fun id => (h.qps id).nextAvail :=
      List.mem_map_of_mem hid
    obtain ⟨m, hmin⟩ := Option.isSome_iff_exists.1
      (List.isSome_min?_of_mem hmem)
    obtain ⟨t, hnext, ht⟩ := hm m hmin
    have hle : m ≤ (h.qps id).nextAvail := (List.min?_eq_some_iff.1 hmin).2 _ hmem
    exact ⟨t, hnext, ht.trans (max_le_max_left _ hle)⟩
  · obtain ⟨id, hmem, rfl⟩ := List.mem_map.1 (List.min?_mem hm)
    exact hid id hmem

/-- A device keeps its wake-up if no queue pair comes up, and none becomes available earlier. -/
theorem WakesUp.mono (hw : h.WakesUp i) (hnow : h.now ≤ h'.now)
    (hlink : (h'.nics i).linkUp = true → (h.nics i).linkUp = true)
    (hbusy : (h'.nics i).txBusy = false → (h.nics i).txBusy = false)
    (hnext : (h'.nics i).nextSend = (h.nics i).nextSend)
    (hsend : (h.nics i).linkUp = true → (h.nics i).txBusy = false → ∀ id ∈ h'.sendable i,
      id ∈ h.sendable i ∧ (h.qps id).nextAvail ≤ (h'.qps id).nextAvail) : h'.WakesUp i := by
  rw [wakesUp_iff] at hw ⊢
  intro hl hb id hid
  obtain ⟨hid', hle⟩ := hsend (hlink hl) (hbusy hb) id hid
  obtain ⟨t, ht, htle⟩ := hw (hlink hl) (hbusy hb) id hid'
  exact ⟨t, hnext.trans ht, htle.trans (max_le_max hnow hle)⟩

/-- A device keeps its wake-up if nothing changes for it. -/
theorem WakesUp.congr (hw : h.WakesUp i) (hnow : h.now ≤ h'.now) (hnic : h'.nics i = h.nics i)
    (hqps : ∀ id ∈ (h.nics i).queue.qpGrp, h'.qps id = h.qps id) : h'.WakesUp i := by
  refine hw.mono hnow (by rw [hnic]; exact id) (by rw [hnic]; exact id) (by rw [hnic])
    fun _ _ id hid => ?_
  rw [mem_sendable, hnic] at hid
  rw [hqps id hid.1] at hid ⊢
  exact ⟨mem_sendable.2 hid, le_refl _⟩

/-! ### A transmit opportunity -/

/-- What a transmit opportunity of the device `i` leaves alone. -/
structure Frame (h h' : Host) (i : ℕ) : Prop where
  now : h'.now = h.now
  created : h'.created = h.created
  qpMap : h'.qpMap = h.qpMap
  rtTable : h'.rtTable = h.rtTable
  nics : ∀ j, j ≠ i → h'.nics j = h.nics j
  group : ∀ id ∈ (h'.nics i).queue.qpGrp, id ∈ (h.nics i).queue.qpGrp
  qps : ∀ id, h'.qps id = h.qps id ∨ id ∈ (h.nics i).queue.qpGrp ∧
    ∃ nxt avail, h'.qps id = { h.qps id with sndNxt := nxt, nextAvail := avail }

theorem Frame.setNic (h : Host) (i : ℕ) {nic : Nic}
    (hgrp : ∀ id ∈ nic.queue.qpGrp, id ∈ (h.nics i).queue.qpGrp) : Frame h (h.setNic i nic) i where
  now := rfl
  created := rfl
  qpMap := rfl
  rtTable := rfl
  nics _ hj := nics_setNic_of_ne hj nic
  group := by simpa using hgrp
  qps _ := .inl rfl

theorem Frame.refl (h : Host) (i : ℕ) : Frame h h i :=
  ⟨rfl, rfl, rfl, rfl, fun _ _ => rfl, fun _ hid => hid, fun _ => .inl rfl⟩

/-- The state of a host at the end of `DequeueAndTransmit` if there is nothing to send. -/
def idled (c : HostConfig) (h : Host) (i : ℕ) : Host :=
  (h.setNic i { h.nics i with
    queue := ((h.nics i).queue.getNextQindex h.qps (h.nics i).paused h.now c.ackQIdx).2 })
      |>.scheduleNextSend i

/-- **A transmit opportunity**, seen from the devices: the device is down or busy, before or after,
or it has found nothing to send. -/
theorem dequeueAndTransmit_frame (htx : h.dequeueAndTransmit c i = some h') :
    Frame h h' i ∧
      ((h'.nics i).linkUp = false ∨ (h'.nics i).txBusy = true ∨
        (h.nics i).linkUp = true ∧ (h.nics i).txBusy = false ∧
          ((h.nics i).queue.getNextQindex h.qps (h.nics i).paused h.now c.ackQIdx).1 = .idle ∧
            h' = h.idled c i) := by
  simp only [dequeueAndTransmit] at htx
  split_ifs at htx with hl hb
  · cases htx
    exact ⟨.refl h i, .inl (by simpa using hl)⟩
  · cases htx
    exact ⟨.refl h i, .inr (.inl hb)⟩
  · have hgrp : ∀ id ∈ ((h.nics i).queue.getNextQindex h.qps (h.nics i).paused h.now
        c.ackQIdx).2.qpGrp, id ∈ (h.nics i).queue.qpGrp := fun id hid =>
      RdmaEgressQueue.getNextQindex_qpGrp hid
    cases hnext : ((h.nics i).queue.getNextQindex h.qps (h.nics i).paused h.now c.ackQIdx).1 with
    | highPrio =>
      simp only [hnext, Option.some.injEq] at htx
      subst htx
      exact ⟨.setNic h i hgrp, .inr (.inl (by simp [Host.setNic]))⟩
    | idle =>
      simp only [hnext, Option.some.injEq] at htx
      subst htx
      refine ⟨?_, .inr (.inr ⟨by simpa using hl, by simpa using hb, rfl, rfl⟩)⟩
      have hset : Frame h (h.setNic i { h.nics i with queue :=
          ((h.nics i).queue.getNextQindex h.qps (h.nics i).paused h.now c.ackQIdx).2 }) i :=
        .setNic h i hgrp
      rcases scheduleNextSend_cases (h.setNic i _) i with heq | ⟨t, heq⟩
      · rw [heq]
        exact hset
      · rw [heq, setNic_setNic]
        exact Frame.setNic h i (by simpa using hgrp)
    | qp idx =>
      simp only [hnext] at htx
      obtain ⟨id, hid, hsent⟩ := Option.map_eq_some_iff.1 htx
      have hmem : id ∈ (h.nics i).queue.qpGrp := hgrp id (List.mem_of_getElem? hid)
      subst hsent
      refine ⟨⟨rfl, rfl, rfl, rfl, fun j hj => Function.update_of_ne hj _ _, ?_, fun id' => ?_⟩,
        .inr (.inl ?_)⟩
      · simpa [pktSent, log, Host.setQp, Host.setNic] using hgrp
      · by_cases hid' : id' = id
        · subst hid'
          let sent := c.hw.getNxtPacket (h.qps id')
          refine .inr ⟨hmem, sent.2.sndNxt,
            h.nextAvailAfter c sent.2 (sent.1.size + c.headerSize), ?_⟩
          simp only [pktSent, log, Host.setQp, Host.setNic, Function.update_self]
          rfl
        · left
          simp [pktSent, log, Host.setQp, Host.setNic, hid']
      · simp [pktSent, log, Host.setQp, Host.setNic]

/-- The times at which the queue pairs with bytes left are available, those that `GetNextQindex`
has left in the group. -/
def availTimes (c : HostConfig) (h : Host) (i : ℕ) : List ℕ :=
  (((h.nics i).queue.getNextQindex h.qps (h.nics i).paused h.now c.ackQIdx).2.qpGrp.filter
    fun id => (h.qps id).getBytesLeft != 0).map fun id => (h.qps id).nextAvail

theorem idled_of_pending {t : ℕ} (hnext : (h.nics i).nextSend = some t) :
    h.idled c i = h.setNic i { h.nics i with
      queue := ((h.nics i).queue.getNextQindex h.qps (h.nics i).paused h.now c.ackQIdx).2 } := by
  simp only [idled, scheduleNextSend, nics_setNic_self, hnext]

theorem idled_of_not_pending (hnext : (h.nics i).nextSend = none) :
    h.idled c i = h.setNic i { h.nics i with
      queue := ((h.nics i).queue.getNextQindex h.qps (h.nics i).paused h.now c.ackQIdx).2
      nextSend := (h.availTimes c i).min?.filter fun t => decide (h.now < t) } := by
  simp only [idled, scheduleNextSend, nics_setNic_self, qps_setNic, now_setNic, hnext, availTimes]
  generalize (List.map (fun id => (h.qps id).nextAvail) _).min? = first
  cases first with
  | none => simp
  | some t =>
    by_cases ht : h.now < t
    · simp [ht, Option.filter]
    · simp [ht, Option.filter]

/-- What a device that has found nothing to send sees of its state. -/
theorem mem_sendable_idled :
    id ∈ (h.idled c i).sendable i ↔
      id ∈ ((h.nics i).queue.getNextQindex h.qps (h.nics i).paused h.now c.ackQIdx).2.qpGrp ∧
        isSendable (h.nics i).paused (h.qps id) = true := by
  rw [mem_sendable]
  cases hnext : (h.nics i).nextSend with
  | none => simp [idled_of_not_pending hnext]
  | some t => simp [idled_of_pending hnext]

theorem qps_idled (c : HostConfig) (h : Host) (i : ℕ) : (h.idled c i).qps = h.qps := by
  cases hnext : (h.nics i).nextSend with
  | none => simp [idled_of_not_pending hnext]
  | some t => simp [idled_of_pending hnext]

theorem now_idled (c : HostConfig) (h : Host) (i : ℕ) : (h.idled c i).now = h.now := by
  cases hnext : (h.nics i).nextSend with
  | none => simp [idled_of_not_pending hnext]
  | some t => simp [idled_of_pending hnext]

/-- A queue pair that may send has bytes left. -/
theorem getBytesLeft_ne_zero {paused : ℕ → Bool} {qp : RdmaQueuePair}
    (hsend : isSendable paused qp = true) : qp.getBytesLeft ≠ 0 := by
  rw [isSendable, RdmaQueuePair.isEligible, Bool.and_eq_true, Bool.and_eq_true,
    decide_eq_true_eq] at hsend
  exact fun h0 => absurd (h0 ▸ hsend.2.1) (by decide)

theorem mem_availTimes {t : ℕ} :
    t ∈ h.availTimes c i ↔
      ∃ id ∈ ((h.nics i).queue.getNextQindex h.qps (h.nics i).paused h.now c.ackQIdx).2.qpGrp,
        (h.qps id).getBytesLeft ≠ 0 ∧ (h.qps id).nextAvail = t := by
  simp [availTimes, and_assoc]

/-- With nothing to send, a device that is not stranded is woken up in time. -/
theorem idled_wakesUp (hl : (h.nics i).linkUp = true) (hb : (h.nics i).txBusy = false)
    (hidle : ((h.nics i).queue.getNextQindex h.qps (h.nics i).paused h.now c.ackQIdx).1 = .idle)
    (hs : ¬ Strands c h i) : (h.idled c i).WakesUp i := by
  obtain ⟨hack, hlater⟩ := RdmaEgressQueue.getNextQindex_eq_idle_iff.1 hidle
  rw [wakesUp_iff, now_idled, qps_idled]
  intro _ _ id hid
  obtain ⟨hleft, hsend⟩ := mem_sendable_idled.1 hid
  have hmem := RdmaEgressQueue.getNextQindex_qpGrp hleft
  have havail := hlater id hmem hsend
  cases hnext : (h.nics i).nextSend with
  | some t =>
    refine ⟨t, by rw [idled_of_pending hnext, nics_setNic_self, hnext], ?_⟩
    by_contra hlate
    have hlt : (h.qps id).nextAvail < t := by omega
    exact hs ⟨hl, hb, hack, hlater, id, hmem, hsend, .inr ⟨t, hnext, hlt⟩⟩
  | none =>
    rw [idled_of_not_pending hnext, nics_setNic_self]
    have hin : (h.qps id).nextAvail ∈ h.availTimes c i :=
      mem_availTimes.2 ⟨id, hleft, getBytesLeft_ne_zero hsend, rfl⟩
    obtain ⟨m, hm⟩ := Option.isSome_iff_exists.1 (List.isSome_min?_of_mem hin)
    obtain ⟨hmin, hmle⟩ := List.min?_eq_some_iff.1 hm
    have hle := hmle _ hin
    -- a queue pair that is available already is held up, so it is not finished
    have hgt : h.now < m := by
      by_contra hle'
      obtain ⟨id', hleft', hbytes, rfl⟩ := mem_availTimes.1 hmin
      have hmem' := RdmaEgressQueue.getNextQindex_qpGrp hleft'
      have hheld : isSendable (h.nics i).paused (h.qps id') = false := by
        by_contra hs'
        have := hlater id' hmem' (by simpa using hs')
        omega
      exact hs ⟨hl, hb, hack, hlater, id, hmem, hsend, .inl ⟨hnext, id', hmem', hbytes,
        RdmaEgressQueue.not_finished_of_idle hidle hleft' hheld, by omega⟩⟩
    refine ⟨m, ?_, by omega⟩
    simp [hm, Option.filter, hgt]

/-- A device that is stranded is not, if finished queue pairs have nothing to send. -/
theorem idled_not_wakesUp
    (hfin : ∀ id, (h.qps id).isFinished = true → (h.qps id).isEligible = false)
    (hs : Strands c h i) : ¬ (h.idled c i).WakesUp i := by
  obtain ⟨hl, hb, hack, hlater, id, hmem, hsend, hwhy⟩ := hs
  have hidle := RdmaEgressQueue.getNextQindex_eq_idle_iff.2 ⟨hack, hlater⟩
  have hopen : (h.qps id).isFinished = false := by
    by_contra hf
    have hel := hfin id (by simpa using hf)
    simp [isSendable, hel] at hsend
  have hleft : id ∈
      ((h.nics i).queue.getNextQindex h.qps (h.nics i).paused h.now c.ackQIdx).2.qpGrp :=
    RdmaEgressQueue.mem_getNextQindex hmem hopen
  have havail := hlater id hmem hsend
  rw [wakesUp_iff, now_idled, qps_idled]
  intro hw
  rcases hwhy with ⟨hnext, id', hmem', hbytes, hopen', havail'⟩ | ⟨t, hnext, ht⟩
  · rw [idled_of_not_pending hnext, nics_setNic_self] at hw
    obtain ⟨t, ht, -⟩ := hw hl hb id
      (by rw [← idled_of_not_pending hnext]; exact mem_sendable_idled.2 ⟨hleft, hsend⟩)
    obtain ⟨hm, hgt⟩ := Option.filter_eq_some_iff.1 ht
    have hin : (h.qps id').nextAvail ∈ h.availTimes c i :=
      mem_availTimes.2 ⟨id', RdmaEgressQueue.mem_getNextQindex hmem' hopen', hbytes, rfl⟩
    have hle := (List.min?_eq_some_iff.1 hm).2 _ hin
    have hgt' : h.now < t := by simpa using hgt
    omega
  · rw [idled_of_pending hnext, nics_setNic_self] at hw
    obtain ⟨t', ht', hle⟩ := hw hl hb id
      (by rw [← idled_of_pending hnext]; exact mem_sendable_idled.2 ⟨hleft, hsend⟩)
    cases ht'.symm.trans hnext
    omega

/-- **A transmit opportunity** of a device that is up and not busy is followed by a wake-up in time
exactly if it does not strand, finished queue pairs having nothing to send. -/
theorem dequeueAndTransmit_wakesUp_iff
    (hfin : ∀ id, (h.qps id).isFinished = true → (h.qps id).isEligible = false)
    (htx : h.dequeueAndTransmit c i = some h') : h'.WakesUp i ↔ ¬ Strands c h i := by
  refine ⟨fun hw hs => ?_, fun hs => ?_⟩
  · obtain ⟨hl, hb, hack, hlater, -⟩ := id hs
    have hidle := RdmaEgressQueue.getNextQindex_eq_idle_iff.2 ⟨hack, hlater⟩
    have heq : h.dequeueAndTransmit c i = some (h.idled c i) := by
      simp only [dequeueAndTransmit, hidle]
      rw [if_neg (by simp [hl]), if_neg (by simp [hb])]
      rfl
    cases htx.symm.trans heq
    exact idled_not_wakesUp hfin hs hw
  · rcases (dequeueAndTransmit_frame htx).2 with hdown | hbusy | ⟨hl, hb, hidle, rfl⟩
    · intro hl
      rw [hdown] at hl
      cases hl
    · intro _ hb
      rw [hbusy] at hb
      cases hb
    · exact idled_wakesUp hl hb hidle hs

/-- The groups after a transmit opportunity. -/
theorem Frame.mem_group (hf : Frame h h' i) (hid : id ∈ (h'.nics j).queue.qpGrp) :
    id ∈ (h.nics j).queue.qpGrp := by
  by_cases hj : j = i
  · subst hj
    exact hf.group id hid
  · rwa [hf.nics j hj] at hid

/-- Groups may lose queue pairs. -/
theorem Grouped.congr (hg : Grouped h) (hcreated : h'.created = h.created)
    (hmap : ∀ e ∈ h'.qpMap, e ∈ h.qpMap)
    (hgrp : ∀ i, ∀ id ∈ (h'.nics i).queue.qpGrp, id ∈ (h.nics i).queue.qpGrp) : Grouped h' where
  lt i id hid := by
    rw [hcreated]
    exact hg.lt i id (hgrp i id hid)
  mapped e he := by
    rw [hcreated]
    exact hg.mapped e (hmap e he)
  unique i j id hi hj := hg.unique i j id (hgrp i id hi) (hgrp j id hj)

theorem Grouped.frame (hg : Grouped h) (hf : Frame h h' i) : Grouped h' :=
  hg.congr hf.created (fun e he => by rwa [hf.qpMap] at he) fun _ _ hid => hf.mem_group hid

/-- **A transmit opportunity** of the device `i`, all others being woken up in time. -/
theorem Grouped.transmit (hg : Grouped h) (ho : ∀ j, j ≠ i → h.WakesUp j)
    (hs : ¬ Strands c h i) (htx : h.dequeueAndTransmit c i = some h') : Awake h' := by
  obtain ⟨hf, hout⟩ := dequeueAndTransmit_frame htx
  refine ⟨hg.frame hf, fun j => ?_⟩
  by_cases hj : j = i
  · subst hj
    rcases hout with hdown | hbusy | ⟨hl, hb, hidle, rfl⟩
    · intro hl
      rw [hdown] at hl
      cases hl
    · intro _ hb
      rw [hbusy] at hb
      cases hb
    · exact idled_wakesUp hl hb hidle hs
  · refine (ho j hj).congr hf.now.ge (hf.nics j hj) fun id hid => ?_
    rcases hf.qps id with heq | ⟨hid', -⟩
    · exact heq
    · exact absurd (hg.unique j i id hid hid') hj

/-! ### The events -/

/-- A device other than `i` does not see a change of the device `i`. -/
theorem WakesUp.setNic (hw : h.WakesUp j) (hj : j ≠ i) (nic : Nic) :
    (h.setNic i nic).WakesUp j :=
  hw.congr (le_refl _) (nics_setNic_of_ne hj nic) fun _ _ => rfl

theorem Grouped.setNic (hg : Grouped h) {nic : Nic}
    (hgrp : ∀ id ∈ nic.queue.qpGrp, id ∈ (h.nics i).queue.qpGrp) : Grouped (h.setNic i nic) :=
  hg.frame (.setNic h i hgrp)

/-- A transmit opportunity after a change of the device `i`. -/
theorem Awake.setNic_transmit (ha : Awake h) {nic : Nic}
    (htx : (h.setNic i nic).dequeueAndTransmit c i = some h')
    (hs : ¬ Strands c (h.setNic i nic) i)
    (hgrp : nic.queue.qpGrp = (h.nics i).queue.qpGrp) : Awake h' :=
  (ha.toGrouped.setNic fun _ hid => hgrp ▸ hid).transmit
    (fun _ hj => (ha.wakesUp _).setNic hj nic) hs htx

/-- The device `i` changes, but not so that it needs a wake-up it does not have. -/
theorem Awake.setNic (ha : Awake h) {nic : Nic} (hw : (h.setNic i nic).WakesUp i)
    (hgrp : nic.queue.qpGrp = (h.nics i).queue.qpGrp) : Awake (h.setNic i nic) := by
  refine ⟨ha.toGrouped.setNic fun _ hid => hgrp ▸ hid, fun j => ?_⟩
  by_cases hj : j = i
  · subst hj
    exact hw
  · exact (ha.wakesUp j).setNic hj nic

/-- The books do not matter. -/
theorem Awake.congr (ha : Awake h) (hnow : h.now ≤ h'.now) (hcreated : h'.created = h.created)
    (hmap : ∀ e ∈ h'.qpMap, e ∈ h.qpMap) (hnics : h'.nics = h.nics) (hqps : h'.qps = h.qps) :
    Awake h' where
  toGrouped := ha.toGrouped.congr hcreated hmap fun i id hid => by rwa [hnics] at hid
  wakesUp i := (ha.wakesUp i).congr hnow (by rw [hnics]) fun id _ => by rw [hqps]

/-! ### Rates -/

/-- `UpdateNextAvail` only moves a wake-up forward. -/
theorem updateNextAvail_cases (h : Host) (i t : ℕ) :
    h.updateNextAvail i t = h ∨ ∃ t₀, (h.nics i).nextSend = some t₀ ∧ t < t₀ ∧
      h.updateNextAvail i t = h.setNic i { h.nics i with nextSend := some (max t h.now) } := by
  rw [Host.updateNextAvail]
  cases hnext : (h.nics i).nextSend with
  | none => exact .inl rfl
  | some t₀ =>
    by_cases ht : t < t₀
    · exact .inr ⟨t₀, rfl, ht, if_pos ht⟩
    · exact .inl (if_neg ht)

theorem WakesUp.updateNextAvail (hw : h.WakesUp j) (i t : ℕ) :
    (h.updateNextAvail i t).WakesUp j := by
  rcases updateNextAvail_cases h i t with heq | ⟨t₀, hnext, hlt, heq⟩
  · rwa [heq]
  · rw [heq]
    by_cases hj : j = i
    · subst hj
      rw [wakesUp_iff] at hw ⊢
      intro hl hb id hid
      rw [nics_setNic_self] at hl hb
      rw [mem_sendable, nics_setNic_self] at hid
      obtain ⟨t₁, ht₁, hle⟩ := hw hl hb id (mem_sendable.2 hid)
      cases hnext.symm.trans ht₁
      refine ⟨max t h.now, by rw [nics_setNic_self], ?_⟩
      rw [now_setNic, qps_setNic]
      omega
    · exact hw.setNic hj _

theorem Grouped.updateNextAvail (hg : Grouped h) (i t : ℕ) : Grouped (h.updateNextAvail i t) := by
  rcases updateNextAvail_cases h i t with heq | ⟨-, -, -, heq⟩
  · rwa [heq]
  · rw [heq]
    exact hg.setNic fun _ hid => hid

/-- A queue pair of another device changes. -/
theorem WakesUp.setQp (hw : h.WakesUp j) (hid : id ∉ (h.nics j).queue.qpGrp)
    (qp : RdmaQueuePair) : (h.setQp id qp).WakesUp j := by
  refine hw.congr (le_refl _) rfl fun id' hid' => ?_
  have hne : id' ≠ id := by
    rintro rfl
    exact hid hid'
  exact qps_setQp_of_ne hne qp

theorem Grouped.setQp (hg : Grouped h) (id : ℕ) (qp : RdmaQueuePair) : Grouped (h.setQp id qp) :=
  hg.congr rfl (fun _ he => he) fun _ _ hid => hid

theorem Grouped.changeRate (hg : Grouped h) {rate : UInt64} {avail : Option ℕ}
    (hrate : h.changeRate c id rate avail = some h') : Grouped h' := by
  cases avail with
  | none =>
    cases hrate
    exact hg.setQp id _
  | some t =>
    simp only [Host.changeRate, Option.bind_eq_bind, Option.bind_eq_some_iff] at hrate
    obtain ⟨i, -, hrate⟩ := hrate
    cases hrate
    exact (hg.setQp id _).updateNextAvail i t

/-- A rate changes at another device. -/
theorem WakesUp.changeRate (hw : h.WakesUp j) (hid : id ∉ (h.nics j).queue.qpGrp) {rate : UInt64}
    {avail : Option ℕ} (hrate : h.changeRate c id rate avail = some h') : h'.WakesUp j := by
  cases avail with
  | none =>
    cases hrate
    exact hw.setQp hid _
  | some t =>
    simp only [Host.changeRate, Option.bind_eq_bind, Option.bind_eq_some_iff] at hrate
    obtain ⟨i, -, hrate⟩ := hrate
    cases hrate
    exact (hw.setQp hid _).updateNextAvail i t

theorem updateNextAvail_of_pending {t t₀ : ℕ} (hnext : (h.nics i).nextSend = some t₀) :
    h.updateNextAvail i t =
      h.setNic i { h.nics i with nextSend := some (if t < t₀ then max t h.now else t₀) } := by
  simp only [Host.updateNextAvail, hnext]
  split_ifs with ht
  · rfl
  · simp [Host.setNic, ← hnext]

theorem updateNextAvail_of_not_pending {t : ℕ} (hnext : (h.nics i).nextSend = none) :
    h.updateNextAvail i t = h := by
  simp only [Host.updateNextAvail, hnext]

/-- The rate of a queue pair of the device `i` changes, and with it the time from which it may
send: `UpdateNextAvail` wakes the device up for that. -/
theorem WakesUp.changeRate_self (hw : h.WakesUp i) {rate : UInt64} {t : ℕ}
    (hwin : (h.nics i).linkUp = true → (h.nics i).txBusy = false →
      isSendable (h.nics i).paused { h.qps id with rate := rate } = true →
      isSendable (h.nics i).paused (h.qps id) = true) :
    ((h.setQp id { h.qps id with rate := rate, nextAvail := t }).updateNextAvail i t).WakesUp
      i := by
  let g := h.setQp id { h.qps id with rate := rate, nextAvail := t }
  -- the queue pairs that may send then may send now
  have hold (hl : (h.nics i).linkUp = true) (hb : (h.nics i).txBusy = false) (id' : ℕ)
      (hid' : id' ∈ g.sendable i) : ∃ t₀, (h.nics i).nextSend = some t₀ ∧
        t₀ ≤ max h.now (h.qps id').nextAvail := by
    obtain ⟨hmem, hsend⟩ := mem_sendable.1 hid'
    refine wakesUp_iff.1 hw hl hb id' (mem_sendable.2 ⟨hmem, ?_⟩)
    by_cases heq : id' = id
    · subst heq
      rw [qps_setQp_self] at hsend
      exact hwin hl hb hsend
    · rwa [qps_setQp_of_ne heq] at hsend
  have hgnic : g.nics i = h.nics i := rfl
  rw [wakesUp_iff]
  cases hnext : (h.nics i).nextSend with
  | none =>
    rw [updateNextAvail_of_not_pending (hgnic ▸ hnext)]
    intro hl hb id' hid'
    obtain ⟨t₀, ht₀, -⟩ := hold hl hb id' hid'
    rw [hnext] at ht₀
    cases ht₀
  | some t₀ =>
    rw [updateNextAvail_of_pending (hgnic ▸ hnext), nics_setNic_self, now_setNic, qps_setNic]
    intro hl hb id' hid'
    have hid'' : id' ∈ g.sendable i := by
      rw [mem_sendable] at hid' ⊢
      simpa using hid'
    obtain ⟨t₁, ht₁, hle⟩ := hold hl hb id' hid''
    cases ht₁.symm.trans hnext
    refine ⟨_, rfl, ?_⟩
    change _ ≤ max h.now (g.qps id').nextAvail
    change (if t < t₀ then max t h.now else t₀) ≤ _
    by_cases heq : id' = id
    · have havail : (g.qps id').nextAvail = t := by rw [heq, qps_setQp_self]
      rw [havail]
      split_ifs <;> omega
    · rw [qps_setQp_of_ne heq]
      split_ifs <;> omega

/-- A timer of the congestion control sets a rate. -/
theorem Awake.changeRate (ha : Awake h) {rate : UInt64} {avail : Option ℕ}
    (hC : WakesInTime c h (.changeRate id rate avail))
    (hrate : h.changeRate c id rate avail = some h') : Awake h' := by
  obtain ⟨-, hplaced, hwin⟩ := hC
  refine ⟨ha.toGrouped.changeRate hrate, fun j => ?_⟩
  by_cases hid : id ∈ (h.nics j).queue.qpGrp
  · cases avail with
    | none =>
      cases hrate
      refine (ha.wakesUp j).mono (le_refl _) (fun hl => hl) (fun hb => hb) rfl
        fun hl hb id' hid' => ?_
      obtain ⟨hmem, hsend⟩ := mem_sendable.1 hid'
      by_cases heq : id' = id
      · subst heq
        rw [qps_setQp_self] at hsend ⊢
        exact ⟨mem_sendable.2 ⟨hmem, hwin j hid hl hb hsend⟩, le_refl _⟩
      · rw [qps_setQp_of_ne heq] at hsend ⊢
        exact ⟨mem_sendable.2 ⟨hmem, hsend⟩, le_refl _⟩
    | some t =>
      simp only [Host.changeRate, Option.bind_eq_bind, Option.bind_eq_some_iff] at hrate
      obtain ⟨i, hi, hrate⟩ := hrate
      cases hrate
      cases hi.symm.trans (hplaced (by simp) j hid)
      exact (ha.wakesUp j).changeRate_self (hwin j hid)
  · exact (ha.wakesUp j).changeRate hid hrate

/-! ### Events with one transmit opportunity -/

theorem addQueuePair_eq (c : HostConfig) (h : Host) (f : Flow) (endTime : Option ℕ) :
    h.addQueuePair c f endTime =
      (h.enlist c f endTime).bind fun g => g.1.dequeueAndTransmit c g.2 := by
  simp only [Host.addQueuePair, enlist, Option.bind_eq_bind]
  cases h.getNicIdxOfQp c (c.hw.newQp h.now 0 f) with
  | none => rfl
  | some i => rfl

/-- The groups after `AddQp`. -/
theorem mem_group_setNic {id' : ℕ} (hid : id ∈ ((h.setNic i { h.nics i with
      queue := { (h.nics i).queue with qpGrp := (h.nics i).queue.qpGrp ++ [id'] } }).nics
        j).queue.qpGrp) :
    id ∈ (h.nics j).queue.qpGrp ∨ j = i ∧ id = id' := by
  by_cases hj : j = i
  · subst hj
    rw [nics_setNic_self] at hid
    rcases List.mem_append.1 hid with hid | hid
    · exact .inl hid
    · exact .inr ⟨rfl, List.mem_singleton.1 hid⟩
  · rw [nics_setNic_of_ne hj] at hid
    exact .inl hid

/-- A new queue pair is in the group of one device, which is about to transmit. -/
theorem Awake.enlist (ha : Awake h) {f : Flow} {endTime : Option ℕ} {g : Host × ℕ}
    (hg : h.enlist c f endTime = some g) : Grouped g.1 ∧ ∀ j, j ≠ g.2 → g.1.WakesUp j := by
  simp only [Host.enlist, Option.bind_eq_bind, Option.bind_eq_some_iff] at hg
  obtain ⟨i, -, hg⟩ := hg
  cases hg
  have hfresh (j : ℕ) : h.created ∉ (h.nics j).queue.qpGrp := fun hmem =>
    Nat.lt_irrefl _ (ha.lt j _ hmem)
  refine ⟨⟨fun j id hid => ?_, fun e he => ?_, fun j k id hj hk => ?_⟩, fun j hj => ?_⟩
  · rcases mem_group_setNic hid with hid | ⟨-, rfl⟩
    · exact Nat.lt_succ_of_lt (ha.lt j id hid)
    · exact Nat.lt_succ_self _
  · rcases List.mem_cons.1 he with rfl | he
    · exact Nat.lt_succ_self _
    · exact Nat.lt_succ_of_lt (ha.mapped e (List.mem_filter.1 he).1)
  · rcases mem_group_setNic hj with hj' | ⟨rfl, rfl⟩
    · rcases mem_group_setNic hk with hk' | ⟨rfl, rfl⟩
      · exact ha.unique j k id hj' hk'
      · exact absurd hj' (hfresh j)
    · rcases mem_group_setNic hk with hk' | ⟨rfl, -⟩
      · exact absurd hk' (hfresh k)
      · rfl
  · refine (ha.wakesUp j).congr (le_refl _) (Function.update_of_ne hj _ _) fun id hid => ?_
    exact Function.update_of_ne (Nat.ne_of_lt (ha.lt j id hid)) _ _

theorem receiveAck_cases {sip : UInt32} {dport pg : UInt16} {ch : AckFrame}
    {cc : Option (UInt64 × Option ℕ)} (hack : h.receiveAck c sip dport pg ch cc = some h') :
    h' = h ∨ ∃ g, h.takeAck c sip dport pg ch cc = some g ∧
      g.1.dequeueAndTransmit c g.2 = some h' := by
  rw [Host.receiveAck] at hack
  split at hack
  · cases hack
    exact .inl rfl
  · next id hid =>
    simp only [Option.bind_eq_bind, Option.bind_eq_some_iff] at hack
    obtain ⟨i, hi, r, hr, g, hg, htx⟩ := hack
    refine .inr ⟨(g, i), ?_, htx⟩
    simp only [takeAck, hid, hi, hr, hg, Option.bind_eq_bind, Option.bind_some]
    rfl

/-- A reply is about a queue pair of one device, which is about to transmit. -/
theorem Awake.takeAck (ha : Awake h) {sip : UInt32} {dport pg : UInt16} {ch : AckFrame}
    {cc : Option (UInt64 × Option ℕ)} (hplaced : ∀ id ∈ h.getQp sip dport pg, Placed c h id)
    {g : Host × ℕ} (hg : h.takeAck c sip dport pg ch cc = some g) :
    Grouped g.1 ∧ ∀ j, j ≠ g.2 → g.1.WakesUp j := by
  simp only [Host.takeAck, Option.bind_eq_bind, Option.bind_eq_some_iff] at hg
  obtain ⟨id, hid, i, hi, r, -, h₁, hcc, hg⟩ := hg
  cases hg
  have hother (j : ℕ) (hj : j ≠ i) : id ∉ (h.nics j).queue.qpGrp := fun hmem =>
    hj (Option.some.inj ((hplaced id hid j hmem).symm.trans hi))
  have hset : Grouped (h.setQp id r.1) ∧ ∀ j, j ≠ i → (h.setQp id r.1).WakesUp j :=
    ⟨ha.toGrouped.setQp id r.1, fun j hj => (ha.wakesUp j).setQp (hother j hj) r.1⟩
  have hdone : Grouped (if r.2 then (h.setQp id r.1).qpComplete id else h.setQp id r.1) ∧
      ∀ j, j ≠ i →
        (if r.2 then (h.setQp id r.1).qpComplete id else h.setQp id r.1).WakesUp j := by
    split_ifs
    · exact ⟨hset.1.congr rfl (fun _ he => (List.mem_filter.1 he).1) fun _ _ hid => hid,
        fun j hj => (hset.2 j hj).congr (le_refl _) rfl fun _ _ => rfl⟩
    · exact hset
  have hnics : (if r.2 then (h.setQp id r.1).qpComplete id else h.setQp id r.1).nics = h.nics := by
    split_ifs <;> rfl
  rcases cc with - | ⟨rate, avail⟩
  · cases hcc
    exact hdone
  · refine ⟨hdone.1.changeRate hcc, fun j hj => (hdone.2 j hj).changeRate ?_ hcc⟩
    rw [hnics]
    exact hother j hj

/-! ### Redistribution -/

theorem reassign_cons (c : HostConfig) (h : Host) (e : UInt64 × ℕ) (es : List (UInt64 × ℕ)) :
    reassign c (e :: es) h = (h.regroup c e).bind fun g =>
      (g.1.dequeueAndTransmit c g.2).bind (reassign c es) := by
  simp only [reassign, regroup, Option.bind_eq_bind]
  cases h.getNicIdxOfQp c (h.qps e.2) with
  | none => rfl
  | some i => rfl

/-- What a queue pair's device depends on. -/
theorem getNicIdxOfQp_congr {qp qp' : RdmaQueuePair} (htable : h'.rtTable = h.rtTable)
    (hsip : qp'.sip = qp.sip) (hdip : qp'.dip = qp.dip) (hsport : qp'.sport = qp.sport)
    (hdport : qp'.dport = qp.dport) : h'.getNicIdxOfQp c qp' = h.getNicIdxOfQp c qp := by
  simp only [getNicIdxOfQp, htable, hsip, hdip, hsport, hdport]

/-- The groups hold the queue pairs of their devices, as during the redistribution. -/
structure Sorted (c : HostConfig) (h : Host) : Prop where
  lt : ∀ i, ∀ id ∈ (h.nics i).queue.qpGrp, id < h.created
  mapped : ∀ e ∈ h.qpMap, e.2 < h.created
  placed : ∀ id, Placed c h id

theorem Sorted.grouped (hs : Sorted c h) : Grouped h where
  lt := hs.lt
  mapped := hs.mapped
  unique i j id hi hj := Option.some.inj ((hs.placed id i hi).symm.trans (hs.placed id j hj))

theorem Sorted.frame (hs : Sorted c h) (hf : Frame h h' i) : Sorted c h' where
  lt := (hs.grouped.frame hf).lt
  mapped := (hs.grouped.frame hf).mapped
  placed id j hid := by
    rw [← hs.placed id j (hf.mem_group hid)]
    rcases hf.qps id with heq | ⟨-, nxt, avail, heq⟩
    · rw [heq]
      exact getNicIdxOfQp_congr hf.rtTable rfl rfl rfl rfl
    · rw [heq]
      exact getNicIdxOfQp_congr hf.rtTable rfl rfl rfl rfl

/-- A queue pair goes to its device, which is about to transmit. -/
theorem Sorted.regroup (hs : Sorted c h) (hw : ∀ j, h.WakesUp j) {e : UInt64 × ℕ}
    (he : e ∈ h.qpMap) {g : Host × ℕ} (hg : h.regroup c e = some g) :
    Sorted c g.1 ∧ (∀ j, j ≠ g.2 → g.1.WakesUp j) ∧ g.1.qpMap = h.qpMap := by
  simp only [Host.regroup, Option.bind_eq_bind, Option.bind_eq_some_iff] at hg
  obtain ⟨i, hi, hg⟩ := hg
  cases hg
  refine ⟨⟨fun j id hid => ?_, hs.mapped, fun id j hid => ?_⟩, fun j hj => (hw j).setNic hj _, rfl⟩
  · rcases mem_group_setNic hid with hid | ⟨-, rfl⟩
    · exact hs.lt j id hid
    · exact hs.mapped e he
  · rcases mem_group_setNic hid with hid | ⟨rfl, rfl⟩
    · exact hs.placed id j hid
    · exact hi

/-- **Redistribution** of the queue pairs, one by one. -/
theorem Sorted.reassign (hs : Sorted c h) (hw : ∀ j, h.WakesUp j) {order : List (UInt64 × ℕ)}
    (hsub : ∀ e ∈ order, e ∈ h.qpMap) (hC : ∀ g ∈ regroupings c order h, ¬ Strands c g.1 g.2)
    (hre : reassign c order h = some h') : Awake h' := by
  induction order generalizing h with
  | nil =>
    cases hre
    exact ⟨hs.grouped, hw⟩
  | cons e es ih =>
    rw [reassign_cons] at hre
    simp only [Option.bind_eq_some_iff] at hre
    obtain ⟨g, hg, h₁, htx, hre⟩ := hre
    simp only [regroupings, hg, htx, Option.map_some, Option.getD_some] at hC
    obtain ⟨hs', hw', hmap⟩ := hs.regroup hw (hsub e List.mem_cons_self) hg
    have hf := (dequeueAndTransmit_frame htx).1
    have ha := hs'.grouped.transmit hw' (hC g List.mem_cons_self) htx
    refine ih (hs'.frame hf) ha.wakesUp (fun e' he' => ?_)
      (fun g' hg' => hC g' (List.mem_cons_of_mem _ hg')) hre
    rw [hf.qpMap, hmap]
    exact hsub e' (List.mem_cons_of_mem _ he')

theorem Awake.redistributeQp (ha : Awake h) {order : List (UInt64 × ℕ)}
    (hperm : order.Perm h.qpMap) (hC : WakesInTime c h (.redistributeQp order))
    (hre : h.redistributeQp c order = some h') : Awake h' := by
  let g : Host := { h with nics := fun i =>
    { h.nics i with queue := { (h.nics i).queue with qpGrp := [] } } }
  have hempty (j id : ℕ) : id ∉ (g.nics j).queue.qpGrp := List.not_mem_nil
  have hs : Sorted c g :=
    ⟨fun j id hid => absurd hid (hempty j id), ha.mapped,
      fun id j hid => absurd hid (hempty j id)⟩
  have hw (j : ℕ) : g.WakesUp j :=
    wakesUp_iff.2 fun _ _ id hid => absurd (mem_sendable.1 hid).1 (hempty j id)
  have hC' := hC.1
  simp only [opportunities] at hC'
  rw [if_pos hperm] at hC'
  exact hs.reassign hw (fun e he => hperm.mem_iff.1 he) hC' hre

/-! ### Runs -/

/-- A PFC frame: a class that is paused brings up no queue pair. -/
theorem Awake.receivePfc (ha : Awake h) {pfc : PauseHeader}
    (hC : WakesInTime c h (.receivePfc i pfc)) (hpfc : h.receivePfc c i pfc = some h') :
    Awake h' := by
  simp only [Host.receivePfc] at hpfc
  split_ifs at hpfc with hl hq ht
  · cases hpfc
    exact ha
  · cases hpfc
    exact ha
  · cases hpfc
    refine ha.setNic ((ha.wakesUp i).mono (le_refl _) ?_ ?_ ?_ ?_) rfl
    · rw [nics_setNic_self]
      exact fun hl => hl
    · rw [nics_setNic_self]
      exact fun hb => hb
    · rw [nics_setNic_self]
    · intro _ _ id hid
      rw [mem_sendable, nics_setNic_self] at hid
      refine ⟨mem_sendable.2 ⟨hid.1, ?_⟩, le_refl _⟩
      have hsend := hid.2
      simp only [isSendable, Bool.and_eq_true, Bool.not_eq_true', Function.update_apply] at hsend ⊢
      split_ifs at hsend with hclass
      · cases hsend.1
      · exact hsend
  · refine ha.setNic_transmit hpfc (hC.1 (_, i) ?_) rfl
    have hgo : ((h.nics i).linkUp && (h.nics i).qbbEnabled && !decide (pfc.time > 0)) = true := by
      simp only [Bool.not_eq_true', Bool.not_eq_false] at hl hq
      simp [hl, hq, ht]
    simp only [opportunities]
    rw [if_pos hgo]
    exact List.mem_singleton_self _

/-- **One event** along the condition. -/
theorem Awake.step (ha : Awake h) {op : Op} (hC : WakesInTime c h op)
    (hstep : h.step c op = some h') : Awake h' := by
  cases op with
  | addQueuePair f endTime =>
    rw [Host.step, addQueuePair_eq] at hstep
    obtain ⟨g, hg, htx⟩ := Option.bind_eq_some_iff.1 hstep
    obtain ⟨hgrouped, hw⟩ := ha.enlist hg
    exact hgrouped.transmit hw (hC.1 g (by simp [opportunities, hg])) htx
  | endTime k =>
    simp only [Host.step, Option.bind_eq_bind, Option.bind_eq_some_iff] at hstep
    obtain ⟨e, -, hstep⟩ := hstep
    split_ifs at hstep
    cases hstep
    exact ha.congr (le_refl _) rfl (fun _ he => (List.mem_filter.1 he).1) rfl rfl
  | receiveAck sip dport pg ch cc =>
    rcases receiveAck_cases hstep with rfl | ⟨g, hg, htx⟩
    · exact ha
    · obtain ⟨hgrouped, hw⟩ := ha.takeAck hC.2 hg
      exact hgrouped.transmit hw (hC.1 g (by simp [opportunities, hg])) htx
  | changeRate id rate avail => exact ha.changeRate hC hstep
  | reply i ch =>
    simp only [Host.step] at hstep
    exact ha.setNic_transmit hstep (hC.1 (_, i) List.mem_cons_self) rfl
  | transmitComplete i =>
    simp only [Host.step] at hstep
    split_ifs at hstep with hb
    refine ha.setNic_transmit hstep (hC.1 (_, i) ?_) rfl
    simp only [opportunities]
    rw [if_pos hb]
    exact List.mem_singleton_self _
  | nextSend i =>
    simp only [Host.step] at hstep
    split_ifs at hstep with hb
    refine ha.setNic_transmit hstep (hC.1 (_, i) ?_) rfl
    simp only [opportunities]
    rw [if_pos hb]
    exact List.mem_singleton_self _
  | receivePfc i pfc => exact ha.receivePfc hC hstep
  | takeDown i =>
    cases hstep
    refine ha.setNic (fun hl => ?_) rfl
    rw [nics_setNic_self] at hl
    cases hl
  | setTable rtTable =>
    cases hstep
    exact ha.congr (le_refl _) rfl (fun _ he => he) rfl rfl
  | redistributeQp order =>
    simp only [Host.step] at hstep
    split_ifs at hstep with hperm
    exact ha.redistributeQp hperm hC hstep
  | tick dt =>
    simp only [Host.step] at hstep
    split_ifs at hstep
    cases hstep
    exact ha.congr (Nat.le_add_right _ _) rfl (fun _ he => he) rfl rfl

theorem Awake.init (c : HostConfig) (rtTable : UInt32 → List ℕ) : Awake (init c rtTable) where
  lt _ _ hid := by cases hid
  mapped _ he := by cases he
  unique _ _ _ hi := by cases hi
  wakesUp _ := wakesUp_iff.2 fun _ _ _ hid => by cases (mem_sendable.1 hid).1

instance (c : HostConfig) (h : Host) (i : ℕ) : Decidable (Strands c h i) := by
  delta Strands
  infer_instance

instance (h : Host) (i : ℕ) : Decidable (h.WakesUp i) :=
  decidable_of_iff ((h.nics i).linkUp = true → (h.nics i).txBusy = false → ∀ id ∈ h.sendable i,
    ∃ t ∈ (h.nics i).nextSend, t ≤ max h.now (h.qps id).nextAvail) wakesUp_iff.symm

/-- A host with one device, of index `1`, on which a packet takes `100` units of time at the rate
`1`. -/
def paced : HostConfig :=
  { single
      { mtu := 1000, chunk := 4000, ackInterval := 1, nackInterval := 500, backto0 := false
        varWin := false } 100 with
    txTime := fun rate _ => 100 / rate.toNat }

/-- A flow of ten packets. -/
def tenPackets (pg : UInt16) : Flow where
  size := 10000
  pg := pg
  sip := 1
  dip := 2
  sport := 10000
  dport := 100
  win := 0

/-- **Every device is woken up in time**, in every state of every run along the condition. -/
theorem always_wakesUp {rtTable : UInt32 → List ℕ} {ops : List Op}
    (hC : Run.Along (step c) (WakesInTime c) (init c rtTable) ops) :
    Run.Always (step c) (fun h => ∀ i, h.WakesUp i) (init c rtTable) ops :=
  Run.always_of_invariant (I := Awake) (fun _ _ _ ha hC hstep => ha.step hC hstep)
    (fun _ ha => ha.wakesUp) (.init c rtTable) hC

/-- Without a window, the rate does not matter for what may be sent. -/
theorem isSendable_setRate {paused : ℕ → Bool} {qp : RdmaQueuePair} (hwin : qp.win = 0)
    (rate : UInt64) : isSendable paused { qp with rate := rate } = isSendable paused qp := by
  have hopen (rate : UInt64) : { qp with rate := rate }.isWinBound = false := by
    simp [RdmaQueuePair.isWinBound, RdmaQueuePair.getWin, hwin]
  rw [isSendable, isSendable, RdmaQueuePair.isEligible, RdmaQueuePair.isEligible, hopen rate]
  exact congrArg (fun b => !paused qp.pg.toNat && (decide (qp.getBytesLeft > 0) && !b))
    (hopen qp.rate).symm

/-- A flow that is slowed down, waits for its time and is woken up. -/
theorem always_wakesUp_slow :
    Run.Always (step paced) (fun h => ∀ i, h.WakesUp i) (init paced fun _ => [1])
      [.addQueuePair (tenPackets 3) none, .changeRate 0 50 none, .tick 1, .transmitComplete 1,
        .tick 1, .transmitComplete 1, .tick 1, .nextSend 1] := by
  have halong : Run.Along (step paced)
      (fun h op => (∀ g ∈ h.opportunities paced op, ¬ Strands paced g.1 g.2) ∧
        (h.qps 0).win = 0) (init paced fun _ => [1])
      [.addQueuePair (tenPackets 3) none, .changeRate 0 50 none, .tick 1, .transmitComplete 1,
        .tick 1, .transmitComplete 1, .tick 1, .nextSend 1] := by
    decide +kernel
  refine always_wakesUp (halong.mono fun h op hop hC => ?_)
  simp only [List.mem_cons, List.not_mem_nil, or_false] at hop
  rcases hop with rfl | rfl | rfl | rfl | rfl | rfl | rfl | rfl
  · exact ⟨hC.1, trivial⟩
  · exact ⟨hC.1, fun hne => absurd rfl hne, fun i _ _ _ hs => isSendable_setRate hC.2 50 ▸ hs⟩
  all_goals exact ⟨hC.1, trivial⟩

/-- **A device can be left asleep.** A queue pair that is paused, and would be available, hides that
another one waits for its time; or the device is asleep for longer than a queue pair that was added
later has to wait. -/
theorem exists_not_wakesUp :
    (∃ h, Run.exec (step paced) (init paced fun _ => [1])
        [.addQueuePair (tenPackets 3) none, .receivePfc 1 { time := 5, qlen := 0, qIndex := 3 },
          .addQueuePair (tenPackets 4) none, .tick 1, .transmitComplete 1, .changeRate 1 50 none,
          .tick 1, .transmitComplete 1, .tick 1, .transmitComplete 1] = some h ∧
      (h.nics 1).nextSend = none ∧ ¬ h.WakesUp 1) ∧
    ∃ h, Run.exec (step paced) (init paced fun _ => [1])
        [.addQueuePair (tenPackets 3) none, .changeRate 0 1 none, .tick 1, .transmitComplete 1,
          .tick 1, .transmitComplete 1, .addQueuePair (tenPackets 4) none, .changeRate 1 50 none,
          .tick 1, .transmitComplete 1, .tick 1, .transmitComplete 1] = some h ∧
      (h.nics 1).nextSend = some 101 ∧ ¬ h.WakesUp 1 := by
  have hpaused : (Run.exec (step paced) (init paced fun _ => [1])
      [.addQueuePair (tenPackets 3) none, .receivePfc 1 { time := 5, qlen := 0, qIndex := 3 },
        .addQueuePair (tenPackets 4) none, .tick 1, .transmitComplete 1, .changeRate 1 50 none,
        .tick 1, .transmitComplete 1, .tick 1, .transmitComplete 1]).map
          (fun h => ((h.nics 1).nextSend, decide (h.WakesUp 1))) = some (none, false) := by
    decide +kernel
  have hlate : (Run.exec (step paced) (init paced fun _ => [1])
      [.addQueuePair (tenPackets 3) none, .changeRate 0 1 none, .tick 1, .transmitComplete 1,
        .tick 1, .transmitComplete 1, .addQueuePair (tenPackets 4) none, .changeRate 1 50 none,
        .tick 1, .transmitComplete 1, .tick 1, .transmitComplete 1]).map
          (fun h => ((h.nics 1).nextSend, decide (h.WakesUp 1))) = some (some 101, false) := by
    decide +kernel
  obtain ⟨h₁, hrun₁, hval₁⟩ := Option.map_eq_some_iff.1 hpaused
  obtain ⟨h₂, hrun₂, hval₂⟩ := Option.map_eq_some_iff.1 hlate
  obtain ⟨hnext₁, hw₁⟩ := Prod.mk.inj hval₁
  obtain ⟨hnext₂, hw₂⟩ := Prod.mk.inj hval₂
  exact ⟨⟨h₁, hrun₁, hnext₁, of_decide_eq_false hw₁⟩, h₂, hrun₂, hnext₂,
    of_decide_eq_false hw₂⟩

end Host

end HpccSim
