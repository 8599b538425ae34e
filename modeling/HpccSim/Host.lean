import HpccSim.EgressQueue
import HpccSim.Lib.Run
import HpccSim.RdmaEgressQueue

/-!
# A host

`RdmaHw` (`rdma-hw.cc`) on the `QbbNetDevice`s of a host (`qbb-net-device.cc`): queue pairs are
added, assigned to a device by a hash, served in turn, paced, acknowledged and completed. Two
mechanisms keep track of them: `m_qpMap`, by which a reply finds its queue pair, and the groups of
the devices, from which `GetNextQindex` takes them. Completion removes a queue pair from the first;
it leaves the second when `GetNextQindex` finds it finished.

Queue pairs are numbered in the order of `AddQueuePair`. Besides the state of the source a host
carries a log of what happened (`trace`, newest entry first). A step that the source does not
survive, an assertion or an index out of range, does not exist (`none`). The congestion control is
free to set rates.

## Main definitions

* `HostConfig`, `Nic`, `Host`.
* `Host.dequeueAndTransmit`, `Host.qpComplete`, `Host.addQueuePair`, `Host.receiveAck`,
  `Host.changeRate`, `Host.redistributeQp`.
* `Host.Op`, `Host.step`: the events a host reacts to.

## Main results

* `Host.Transmits`, `Host.dequeueAndTransmit_transmits`: what a transmit opportunity does.
-/

namespace HpccSim

/-- The configuration of a host and its devices. `txTime` is the time a number of bytes takes at a
rate, and `getHash` is `RdmaQueuePair::GetHash`. -/
structure HostConfig where
  hw : RdmaHw
  nNics : ℕ
  bps : ℕ → UInt64
  ackQIdx : ℕ
  rateBound : Bool
  interframeGap : ℕ
  headerSize : UInt32
  txTime : UInt64 → UInt32 → ℕ
  getHash : UInt32 → UInt32 → UInt16 → UInt16 → ℕ

/-- `QbbNetDevice`, as a host uses it. `nextSend` is the time of the event `m_nextSend`, if it is
pending. -/
structure Nic where
  linkUp : Bool
  /-- `m_txMachineState == BUSY` -/
  txBusy : Bool
  paused : ℕ → Bool
  qbbEnabled : Bool
  queue : RdmaEgressQueue
  nextSend : Option ℕ

namespace Host

/-- An entry of the log. -/
inductive Event where
  /-- `QpComplete` is called for a queue pair. -/
  | complete (id : ℕ)
  /-- A packet of a queue pair is sent. -/
  | sent (id : ℕ)
  deriving DecidableEq

end Host

/-- `RdmaHw` and the devices it controls. `endTimes` are the pending calls of `QpComplete` that
`AddQueuePair` has scheduled, each with its time. -/
structure Host where
  now : ℕ
  /-- The number of queue pairs added so far. -/
  created : ℕ
  qps : ℕ → RdmaQueuePair
  qpMap : List (UInt64 × ℕ)
  rtTable : UInt32 → List ℕ
  nics : ℕ → Nic
  endTimes : List (ℕ × ℕ)
  trace : List Host.Event

/-- `RdmaHw::GetQpKey`. -/
def getQpKey (dip : UInt32) (sport pg : UInt16) : UInt64 :=
  (dip.toUInt64 <<< 32) ||| (sport.toUInt64 <<< 16) ||| pg.toUInt64

/-- The key of a queue pair in `m_qpMap`. -/
def RdmaQueuePair.key (qp : RdmaQueuePair) : UInt64 := getQpKey qp.dip qp.sport qp.pg

namespace Host

variable (c : HostConfig) (h : Host)

/-- Append an entry to the log. -/
def log (e : Event) : Host := { h with trace := e :: h.trace }

/-- Replace the queue pair `id`. -/
def setQp (id : ℕ) (qp : RdmaQueuePair) : Host := { h with qps := Function.update h.qps id qp }

/-- Replace the device `i`. -/
def setNic (i : ℕ) (nic : Nic) : Host := { h with nics := Function.update h.nics i nic }

/-- `RdmaHw::GetNicIdxOfQp`; it asserts that there is a device. -/
def getNicIdxOfQp (qp : RdmaQueuePair) : Option ℕ :=
  let v := h.rtTable qp.dip
  v[c.getHash qp.sip qp.dip qp.sport qp.dport % v.length]?

/-- `RdmaHw::GetQp`. -/
def getQp (dip : UInt32) (sport pg : UInt16) : Option ℕ := h.qpMap.lookup (getQpKey dip sport pg)

/-- The value `RdmaHw::UpdateNextAvail` gives `m_nextAvail` for a packet of `size` bytes. -/
def nextAvailAfter (qp : RdmaQueuePair) (size : UInt32) : ℕ :=
  h.now + (c.interframeGap + c.txTime (if c.rateBound then qp.rate else qp.maxRate) size)

/-- `RdmaHw::PktSent`, for a payload of `size` bytes. -/
def pktSent (id : ℕ) (size : UInt32) : Host :=
  let qp := h.qps id
  h.setQp id { qp with nextAvail := h.nextAvailAfter c qp (size + c.headerSize) }

/-- The end of `QbbNetDevice::DequeueAndTransmit` when there is nothing to send: wake up when the
first queue pair with bytes left becomes available. The maximum simulation time is not reached. -/
def scheduleNextSend (i : ℕ) : Host :=
  let nic := h.nics i
  let avail := (nic.queue.qpGrp.filter fun id => (h.qps id).getBytesLeft != 0).map fun id =>
    (h.qps id).nextAvail
  match nic.nextSend, avail.min? with
  | none, some t => if t > h.now then h.setNic i { nic with nextSend := some t } else h
  | _, _ => h

/-- `QbbNetDevice::DequeueAndTransmit`, for a node that is a host; `none` if the index is out of
the range of the group. -/
def dequeueAndTransmit (i : ℕ) : Option Host :=
  let nic := h.nics i
  if !nic.linkUp then
    some h
  else if nic.txBusy then
    some h
  else
    let next := nic.queue.getNextQindex h.qps nic.paused h.now c.ackQIdx
    match next.1 with
    | .highPrio =>
      some (h.setNic i
        { nic with queue := { next.2 with ackQ := next.2.ackQ.tail }, txBusy := true })
    | .qp idx =>
      next.2.qpGrp[idx]?.map fun id =>
        let sent := c.hw.getNxtPacket (h.qps id)
        (((h.setNic i { nic with queue := { next.2 with rrlast := idx }, txBusy := true }).setQp id
          sent.2).log (.sent id)).pktSent c id sent.1.size
    | .idle => some ((h.setNic i { nic with queue := next.2 }).scheduleNextSend i)

/-- `RdmaHw::QpComplete`; the callbacks it makes, which log the completion and have the receiver
forget the queue pair, are the entry of the log. -/
def qpComplete (id : ℕ) : Host :=
  { h.log (.complete id) with qpMap := h.qpMap.filter fun e => e.1 != (h.qps id).key }

/-- `RdmaHw::AddQueuePair`; `endTime` is `none` for `-1`. -/
def addQueuePair (f : Flow) (endTime : Option ℕ) : Option Host := do
  let id := h.created
  let i ← h.getNicIdxOfQp c (c.hw.newQp h.now 0 f)
  let qp := c.hw.newQp h.now (c.bps i) f
  let nic := h.nics i
  let h := { h with
    created := h.created + 1
    qps := Function.update h.qps id qp
    qpMap := (qp.key, id) :: h.qpMap.filter fun e => e.1 != qp.key
    endTimes := h.endTimes ++ (endTime.map fun t => (h.now + t, id)).toList }
  (h.setNic i { nic with queue := { nic.queue with qpGrp := nic.queue.qpGrp ++ [id] } })
    |>.dequeueAndTransmit c i

/-- `QbbNetDevice::UpdateNextAvail`. -/
def updateNextAvail (i t : ℕ) : Host :=
  let nic := h.nics i
  match nic.nextSend with
  | some t₀ => if t < t₀ then h.setNic i { nic with nextSend := some (max t h.now) } else h
  | none => h

/-- The congestion control sets the rate of a queue pair: directly, or by `RdmaHw::ChangeRate`,
which also moves `m_nextAvail` to `avail`. -/
def changeRate (id : ℕ) (rate : UInt64) : Option ℕ → Option Host
  | none => some (h.setQp id { h.qps id with rate := rate })
  | some avail => do
    let i ← h.getNicIdxOfQp c (h.qps id)
    return (h.setQp id { h.qps id with rate := rate, nextAvail := avail }).updateNextAvail i avail

/-- The reaction of the congestion control to a reply: it may set the rate. -/
def handleAck (id : ℕ) : Option (UInt64 × Option ℕ) → Option Host
  | none => some h
  | some (rate, avail) => h.changeRate c id rate avail

/-- `RdmaHw::ReceiveAck` of a reply from `sip`; `cc` is what the congestion control does. -/
def receiveAck (sip : UInt32) (dport pg : UInt16) (ch : AckFrame)
    (cc : Option (UInt64 × Option ℕ)) : Option Host :=
  match h.getQp sip dport pg with
  | none => some h
  | some id => do
    let i ← h.getNicIdxOfQp c (h.qps id)
    let r ← c.hw.processAck (h.qps id) ch
    let h := h.setQp id r.1
    let h := if r.2 then h.qpComplete id else h
    let h ← h.handleAck c id cc
    h.dequeueAndTransmit c i

/-- The loop of `RdmaHw::RedistributeQp`, over the entries of `m_qpMap` in some order. -/
def reassign : List (UInt64 × ℕ) → Host → Option Host
  | [], h => some h
  | e :: es, h => do
    let i ← h.getNicIdxOfQp c (h.qps e.2)
    let nic := h.nics i
    let h ← (h.setNic i
      { nic with queue := { nic.queue with qpGrp := nic.queue.qpGrp ++ [e.2] } })
        |>.dequeueAndTransmit c i
    reassign es h

/-- `RdmaHw::RedistributeQp`. -/
def redistributeQp (order : List (UInt64 × ℕ)) : Option Host :=
  reassign c order
    { h with nics := fun i =>
        { h.nics i with queue := { (h.nics i).queue with qpGrp := [] } } }

/-- What a host reacts to. -/
inductive Op where
  | addQueuePair (f : Flow) (endTime : Option ℕ)
  /-- The `k`th pending call of `QpComplete` takes place. -/
  | endTime (k : ℕ)
  | receiveAck (sip : UInt32) (dport pg : UInt16) (ch : AckFrame) (cc : Option (UInt64 × Option ℕ))
  /-- A timer of the congestion control sets a rate. -/
  | changeRate (id : ℕ) (rate : UInt64) (avail : Option ℕ)
  /-- The receiving side of the host replies by the device `i`. -/
  | reply (i : ℕ) (ch : AckFrame)
  | transmitComplete (i : ℕ)
  /-- The event `m_nextSend` of the device `i` takes place. -/
  | nextSend (i : ℕ)
  | receivePfc (i : ℕ) (pfc : PauseHeader)
  | takeDown (i : ℕ)
  | setTable (rtTable : UInt32 → List ℕ)
  | redistributeQp (order : List (UInt64 × ℕ))
  /-- Time passes, up to the next event. -/
  | tick (dt : ℕ)

/-- `QbbNetDevice::Receive` of a PFC frame. -/
def receivePfc (i : ℕ) (pfc : PauseHeader) : Option Host :=
  let nic := h.nics i
  if !nic.linkUp then
    some h
  else if !nic.qbbEnabled then
    some h
  else if pfc.time > 0 then
    some (h.setNic i { nic with paused := Function.update nic.paused pfc.qIndex true })
  else
    (h.setNic i { nic with paused := Function.update nic.paused pfc.qIndex false })
      |>.dequeueAndTransmit c i

/-- One event. -/
def step : Op → Option Host
  | .addQueuePair f endTime => h.addQueuePair c f endTime
  | .endTime k => do
    let e ← h.endTimes[k]?
    if e.1 = h.now then
      some ({ h with endTimes := h.endTimes.eraseIdx k }.qpComplete e.2)
    else
      none
  | .receiveAck sip dport pg ch cc => h.receiveAck c sip dport pg ch cc
  | .changeRate id rate avail => h.changeRate c id rate avail
  | .reply i ch =>
    let nic := h.nics i
    (h.setNic i { nic with queue := { nic.queue with ackQ := nic.queue.ackQ ++ [ch] } })
      |>.dequeueAndTransmit c i
  | .transmitComplete i =>
    if (h.nics i).txBusy then
      (h.setNic i { h.nics i with txBusy := false }).dequeueAndTransmit c i
    else
      none
  | .nextSend i =>
    if (h.nics i).nextSend = some h.now then
      (h.setNic i { h.nics i with nextSend := none }).dequeueAndTransmit c i
    else
      none
  | .receivePfc i pfc => h.receivePfc c i pfc
  | .takeDown i =>
    let nic := h.nics i
    some (h.setNic i { nic with queue := { nic.queue with ackQ := [] }, linkUp := false })
  | .setTable rtTable => some { h with rtTable := rtTable }
  | .redistributeQp order => if order.Perm h.qpMap then h.redistributeQp c order else none
  | .tick dt =>
    if (∀ e ∈ h.endTimes, h.now + dt ≤ e.1) ∧
        ∀ i ∈ List.range c.nNics, ∀ t ∈ (h.nics i).nextSend, h.now + dt ≤ t then
      some { h with now := h.now + dt }
    else
      none

/-- A host that starts: no queue pairs, all links up. -/
def init (rtTable : UInt32 → List ℕ) : Host where
  now := 0
  created := 0
  qps _ :=
    c.hw.newQp 0 0 { size := 0, pg := 0, sip := 0, dip := 0, sport := 0, dport := 0, win := 0 }
  qpMap := []
  rtTable := rtTable
  nics _ :=
    { linkUp := true
      txBusy := false
      paused := fun _ => false
      qbbEnabled := true
      queue := { ackQ := [], rrlast := 0, qpGrp := [] }
      nextSend := none }
  endTimes := []
  trace := []

/-- A host with one device, of index `1`, on which each packet takes one unit of time. -/
def single (hw : RdmaHw) (bps : UInt64) : HostConfig where
  hw := hw
  nNics := 2
  bps _ := bps
  ackQIdx := 3
  rateBound := true
  interframeGap := 0
  headerSize := 62
  txTime _ _ := 1
  getHash _ _ _ _ := 0

/-! ### What a transmit opportunity does -/

/-- Between `h` and `h'` a device has had an opportunity to transmit: the books stay, and at most
one packet has been sent, of a queue pair that was eligible. -/
structure Transmits (h h' : Host) : Prop where
  created : h'.created = h.created
  qpMap : h'.qpMap = h.qpMap
  endTimes : h'.endTimes = h.endTimes
  sends : h'.qps = h.qps ∧ h'.trace = h.trace ∨
    ∃ id nxt avail, (h.qps id).isEligible = true ∧
      h'.qps = Function.update h.qps id { h.qps id with sndNxt := nxt, nextAvail := avail } ∧
      h'.trace = .sent id :: h.trace

section Transmits

variable {c h} {h' : Host}

theorem scheduleNextSend_cases (h : Host) (i : ℕ) :
    h.scheduleNextSend i = h ∨
      ∃ t, h.scheduleNextSend i = h.setNic i { h.nics i with nextSend := some t } := by
  simp only [scheduleNextSend]
  split
  · split_ifs
    · exact .inr ⟨_, rfl⟩
    · exact .inl rfl
  · exact .inl rfl

/-- **A transmit opportunity** sends at most one packet, of an eligible queue pair, if finished
queue pairs have nothing to send. -/
theorem dequeueAndTransmit_transmits {i : ℕ}
    (hfin : ∀ id, (h.qps id).isFinished = true → (h.qps id).isEligible = false)
    (htx : h.dequeueAndTransmit c i = some h') : Transmits h h' := by
  simp only [dequeueAndTransmit] at htx
  split_ifs at htx
  · cases htx
    exact ⟨rfl, rfl, rfl, .inl ⟨rfl, rfl⟩⟩
  · cases htx
    exact ⟨rfl, rfl, rfl, .inl ⟨rfl, rfl⟩⟩
  · cases hnext : ((h.nics i).queue.getNextQindex h.qps (h.nics i).paused h.now c.ackQIdx).1 with
    | highPrio =>
      simp only [hnext, Option.some.injEq] at htx
      subst htx
      exact ⟨rfl, rfl, rfl, .inl ⟨rfl, rfl⟩⟩
    | idle =>
      simp only [hnext, Option.some.injEq] at htx
      subst htx
      rcases scheduleNextSend_cases (h.setNic i _) i with heq | ⟨t, heq⟩
      all_goals
        rw [heq]
        exact ⟨rfl, rfl, rfl, .inl ⟨rfl, rfl⟩⟩
    | qp idx =>
      simp only [hnext] at htx
      obtain ⟨id, hid, hsend, -⟩ := RdmaEgressQueue.getNextQindex_spec hfin hnext
      rw [hid, Option.map_some, Option.some.injEq] at htx
      subst htx
      have hel : (h.qps id).isEligible = true := by
        rw [RdmaEgressQueue.isSendable, Bool.and_eq_true] at hsend
        exact hsend.2
      let sent := c.hw.getNxtPacket (h.qps id)
      refine ⟨rfl, rfl, rfl, .inr ⟨id, sent.2.sndNxt,
        h.nextAvailAfter c sent.2 (sent.1.size + c.headerSize), hel, ?_, rfl⟩⟩
      simp only [pktSent, log, setQp, setNic, Function.update_self, Function.update_idem]
      rfl

end Transmits

end Host

end HpccSim
