import HpccSim.EgressQueue
import HpccSim.Lib.Run

/-!
# A switch

`SwitchNode` (`switch-node.cc`) with its `QbbNetDevice`s (`qbb-net-device.cc`): packets come in by
a port, pass the admission control of the MMU, wait in the `BEgressQueue` of their output port and
leave. Admission and departure may make the switch send a PFC frame out of the port the packet
came in by, which re-enters `DequeueAndTransmit` of that port before the caller has finished. The
functions on this path take the re-entered call as an argument, and `dequeueAndTransmit` closes
the loop with a bound on the nesting; `Switch.transmit_eq` shows that the bound is never reached.

The switch carries what left it by each port and has not been received yet (`wire`), and a log of
what happened (`trace`, newest entry first).

## Main definitions

* `Switch`, `Device`, `Switch.Event`: the state.
* `Switch.sendToDev`, `Switch.switchNotifyDequeue`, `Switch.checkAndSendPfc`,
  `Switch.checkAndSendResume`, `Switch.sendPfc`, `Switch.switchSend`, `Switch.transmit`.
* `Switch.Op`, `Switch.step`: the events a switch reacts to.

## Main results

* `Switch.transmit_eq`: `DequeueAndTransmit` satisfies the recursion of the source.
* `Switch.transmit_rel`: what a chain of nested calls does, from what one call does.
* `Switch.step_cases`: what one event does.
-/

namespace HpccSim

/-- `QbbNetDevice`, as a switch uses it. -/
structure Device where
  linkUp : Bool
  /-- `m_txMachineState == BUSY` -/
  txBusy : Bool
  paused : ℕ → Bool
  queue : BEgressQueue
  qbbEnabled : Bool
  pausetime : UInt32

/-- The argument `type` of `QbbNetDevice::SendPfc`, `0` and `1` in the source. -/
inductive PfcType where
  | pause
  | resume
  deriving DecidableEq

/-- The fields of `CustomHeader` that `SendToDev` reads; `dip` and the other fields that
`GetOutDev` hashes are represented by the port it returns. -/
structure Header where
  l3Prot : ℕ
  pg : ℕ

namespace Switch

/-- An entry of the log. -/
inductive Event where
  /-- A packet reaches the admission control. -/
  | arrived (inDev qIndex : ℕ) (size : UInt32)
  /-- It is refused there. -/
  | dropped (inDev qIndex : ℕ) (size : UInt32)
  | setPause (inDev qIndex : ℕ)
  | setResume (inDev qIndex : ℕ)
  | sentPfc (dev qIndex : ℕ) (type : PfcType)
  /-- The egress queue of `dev` does not take a packet in. -/
  | lost (dev qIndex : ℕ) (p : Packet)
  deriving DecidableEq

end Switch

/-- `SwitchNode`. -/
structure Switch where
  nDevices : ℕ
  ackHighPrio : Bool
  mmu : SwitchMmu
  devices : ℕ → Device
  /-- `m_bytes[inDev][outDev][qidx]` -/
  bytes : ℕ → ℕ → ℕ → UInt32
  /-- The packets that left by a port and have not been received yet, oldest first. -/
  wire : ℕ → List Packet
  trace : List Switch.Event

/-- The length of a PFC frame: `PauseHeader`, `Ipv4Header` and `PppHeader`. -/
def pfcSize : UInt32 := 9 + 20 + 14

namespace Device

/-- The frame that `QbbNetDevice::SendPfc` builds; it carries no `FlowIdTag`. -/
def pfcFrame (dev : Device) (qIndex : ℕ) (type : PfcType) : Packet where
  size := pfcSize
  flowId := 0
  pfc := some
    { time := if type = .pause then dev.pausetime else 0
      qlen := dev.queue.getNBytes qIndex
      qIndex := qIndex }

end Device

namespace Switch

variable (s : Switch)

/-- Append an entry to the log. -/
def log (e : Event) : Switch := { s with trace := e :: s.trace }

/-- Replace the device `d`. -/
def setDevice (d : ℕ) (dev : Device) : Switch :=
  { s with devices := Function.update s.devices d dev }

/-- Replace the queue of the device `d`. -/
def setQueue (d : ℕ) (Q : BEgressQueue) : Switch :=
  s.setDevice d { s.devices d with queue := Q }

/-- The packets of class `qIndex` waiting at the device `d`. -/
def held (d qIndex : ℕ) : List Packet := (s.devices d).queue.held qIndex

/-- `QbbNetDevice::TransmitStart`: the device is busy and the packet on the wire. -/
def transmitStart (d : ℕ) (p : Packet) : Switch :=
  { s.setDevice d { s.devices d with txBusy := true } with
    wire := Function.update s.wire d (s.wire d ++ [p]) }

section Reentrant

/-! ### The functions that re-enter `DequeueAndTransmit` -/

-- the call that is re-entered, for a device
variable (dequeueAndTransmit : ℕ → Switch → Switch)

/-- The state in which `QbbNetDevice::SwitchSend` calls `DequeueAndTransmit`. -/
def enqueue (d qIndex : ℕ) (p : Packet) : Switch :=
  let Q := (s.devices d).queue
  let s := s.setQueue d (Q.enqueue p qIndex).2
  if Q.accepts p qIndex then s else s.log (.lost d qIndex p)

/-- `QbbNetDevice::SwitchSend`. -/
def switchSend (d qIndex : ℕ) (p : Packet) : Switch :=
  dequeueAndTransmit d (s.enqueue d qIndex p)

/-- The state in which `QbbNetDevice::SendPfc` calls `DequeueAndTransmit`. -/
def enqueuePfc (d qIndex : ℕ) (type : PfcType) : Switch :=
  (s.log (.sentPfc d qIndex type)).enqueue d 0 ((s.devices d).pfcFrame qIndex type)

/-- `QbbNetDevice::SendPfc`. -/
def sendPfc (d qIndex : ℕ) (type : PfcType) : Switch :=
  dequeueAndTransmit d (s.enqueuePfc d qIndex type)

/-- `SwitchMmu::SetPause`, logged. -/
def setPause (inDev qIndex : ℕ) : Switch :=
  { s.log (.setPause inDev qIndex) with mmu := s.mmu.setPause inDev qIndex }

/-- `SwitchMmu::SetResume`, logged. -/
def setResume (inDev qIndex : ℕ) : Switch :=
  { s.log (.setResume inDev qIndex) with mmu := s.mmu.setResume inDev qIndex }

/-- `SwitchNode::CheckAndSendPfc`. -/
def checkAndSendPfc (inDev qIndex : ℕ) : Switch :=
  if s.mmu.checkShouldPause inDev qIndex then
    (s.sendPfc dequeueAndTransmit inDev qIndex .pause).setPause inDev qIndex
  else
    s

/-- `SwitchNode::CheckAndSendResume`. -/
def checkAndSendResume (inDev qIndex : ℕ) : Switch :=
  if s.mmu.checkShouldResume inDev qIndex then
    (s.sendPfc dequeueAndTransmit inDev qIndex .resume).setResume inDev qIndex
  else
    s

/-- The accounting at the head of `SwitchNode::SwitchNotifyDequeue`. -/
def discharge (ifIndex qIndex : ℕ) (p : Packet) : Switch :=
  { s with
    mmu := (s.mmu.removeFromIngressAdmission p.flowId qIndex p.size).removeFromEgressAdmission
      ifIndex qIndex p.size
    bytes := Function.update s.bytes p.flowId
      (setAt (s.bytes p.flowId) ifIndex qIndex (s.bytes p.flowId ifIndex qIndex - p.size)) }

/-- `SwitchNode::SwitchNotifyDequeue`; ECN marking and telemetry, which rewrite the packet but
keep its size, are left out. -/
def switchNotifyDequeue (ifIndex qIndex : ℕ) (p : Packet) : Switch :=
  if qIndex ≠ 0 then
    (s.discharge ifIndex qIndex p).checkAndSendResume dequeueAndTransmit p.flowId qIndex
  else
    s

/-- The body of `QbbNetDevice::DequeueAndTransmit`, for a node that is a switch. -/
def dequeueAndTransmitBody (d : ℕ) : Switch :=
  if d < s.nDevices then
    let dev := s.devices d
    if !dev.linkUp then
      s
    else if dev.txBusy then
      s
    else
      match dev.queue.dequeueRR dev.paused with
      | none => s
      | some (p, Q) =>
        ((s.setQueue d Q).switchNotifyDequeue dequeueAndTransmit d Q.getLastQueue p).transmitStart
          d p
  else
    s

end Reentrant

/-- `QbbNetDevice::DequeueAndTransmit`, nested at most `n` deep. -/
def dequeueAndTransmit : ℕ → ℕ → Switch → Switch
  | 0, _, s => s
  | n + 1, d, s => s.dequeueAndTransmitBody (dequeueAndTransmit n) d

/-- The number of packets in the queues that are not of class `0`. -/
def backlog : ℕ :=
  ∑ d ∈ Finset.range s.nDevices, ∑ q ∈ Finset.range (qCnt - 1), (s.held d (q + 1)).length

/-- `QbbNetDevice::DequeueAndTransmit`: each nested call is preceded by the departure of a packet
that is not of class `0`. -/
def transmit (d : ℕ) (s : Switch) : Switch := dequeueAndTransmit (s.backlog + 1) d s

/-- The state after admission control, in which `SendToDev` calls `CheckAndSendPfc`. -/
def charge (idx qIndex : ℕ) (p : Packet) : Switch :=
  { s with
    mmu := (s.mmu.updateIngressAdmission p.flowId qIndex p.size).updateEgressAdmission
      idx qIndex p.size }

/-- The class `SendToDev` puts a packet in. -/
def qIndexOf (ch : Header) : ℕ :=
  if ch.l3Prot = 0xFF ∨ ch.l3Prot = 0xFE ∨
      (s.ackHighPrio ∧ (ch.l3Prot = 0xFD ∨ ch.l3Prot = 0xFC)) then
    0
  else if ch.l3Prot = 0x06 then
    1
  else
    ch.pg

/-- The count of `m_bytes` at the end of `SendToDev`. -/
def countBytes (idx qIndex : ℕ) (p : Packet) : Switch :=
  { s with
    bytes := Function.update s.bytes p.flowId
      (setAt (s.bytes p.flowId) idx qIndex (s.bytes p.flowId idx qIndex + p.size)) }

/-- `SwitchNode::SendToDev`; `idx` is what `GetOutDev` returns, `none` for a missing route. That
the output link is up, which the source asserts, is not assumed. -/
def sendToDev (idx : Option ℕ) (ch : Header) (p : Packet) : Switch :=
  match idx with
  | none => s
  | some idx =>
    let qIndex := s.qIndexOf ch
    let inDev := p.flowId
    if qIndex ≠ 0 then
      let s := s.log (.arrived inDev qIndex p.size)
      if s.mmu.checkIngressAdmission inDev qIndex p.size ∧
          s.mmu.checkEgressAdmission idx qIndex p.size then
        (((s.charge idx qIndex p).checkAndSendPfc transmit inDev qIndex).countBytes
          idx qIndex p).switchSend transmit idx qIndex p
      else
        s.log (.dropped inDev qIndex p.size)
    else
      (s.countBytes idx qIndex p).switchSend transmit idx qIndex p

/-- What a switch reacts to. -/
inductive Op where
  /-- `QbbNetDevice::Receive` of a packet that is not a PFC frame. -/
  | receive (dev : ℕ) (ch : Header) (size : UInt32) (idx : Option ℕ)
  /-- `QbbNetDevice::Receive` of a PFC frame. -/
  | receivePfc (dev : ℕ) (pfc : PauseHeader)
  /-- `QbbNetDevice::TransmitComplete`. -/
  | transmitComplete (dev : ℕ)
  /-- `QbbNetDevice::TakeDown`. -/
  | takeDown (dev : ℕ)

/-- `QbbNetDevice::Receive` of a packet that is not a PFC frame. -/
def receive (d : ℕ) (ch : Header) (size : UInt32) (idx : Option ℕ) : Switch :=
  if (s.devices d).linkUp then
    s.sendToDev idx ch { size := size, flowId := d, pfc := none }
  else
    s

/-- Set `m_paused[qIndex]` of the device `d`. -/
def setPaused (d qIndex : ℕ) (b : Bool) : Switch :=
  s.setDevice d { s.devices d with paused := Function.update (s.devices d).paused qIndex b }

/-- `QbbNetDevice::Receive` of a PFC frame. -/
def receivePfc (d : ℕ) (pfc : PauseHeader) : Switch :=
  if !(s.devices d).linkUp then
    s
  else if !(s.devices d).qbbEnabled then
    s
  else if pfc.time > 0 then
    s.setPaused d pfc.qIndex true
  else
    (s.setPaused d pfc.qIndex false).transmit d

/-- The device `d` is ready to transmit. -/
def setReady (d : ℕ) : Switch := s.setDevice d { s.devices d with txBusy := false }

/-- `QbbNetDevice::TransmitComplete`. -/
def transmitComplete (d : ℕ) : Switch := (s.setReady d).transmit d

/-- `QbbNetDevice::TakeDown`, for a node that is a switch. -/
def takeDown (d : ℕ) : Switch :=
  let Q := (s.devices d).queue
  s.setDevice d
    { s.devices d with
      paused := fun _ => false
      queue := Q.drain Q.packetCount
      linkUp := false }

/-- One event. Ports and classes are within the arrays of the source, and a transmission that
completes has been started. -/
def step : Op → Option Switch
  | .receive d ch size idx =>
    if d < s.nDevices ∧ (∀ i ∈ idx, i < s.nDevices) ∧ s.qIndexOf ch < qCnt then
      some (s.receive d ch size idx)
    else
      none
  | .receivePfc d pfc =>
    if d < s.nDevices ∧ pfc.qIndex < qCnt then some (s.receivePfc d pfc) else none
  | .transmitComplete d =>
    if d < s.nDevices ∧ (s.devices d).txBusy then some (s.transmitComplete d) else none
  | .takeDown d => if d < s.nDevices then some (s.takeDown d) else none

/-! ### What the operations do to the queues -/

section Held

variable {s} {d : ℕ} {p : Packet} {Q : BEgressQueue}

theorem held_setDevice (dev : Device) (d' q : ℕ) :
    (s.setDevice d dev).held d' q = if d' = d then dev.queue.held q else s.held d' q := by
  by_cases h : d' = d
  · subst h
    simp [held, setDevice]
  · simp [held, setDevice, h]

theorem held_setDevice_of_queue_eq (dev : Device) (h : dev.queue = (s.devices d).queue)
    (d' q : ℕ) : (s.setDevice d dev).held d' q = s.held d' q := by
  rw [held_setDevice]
  split_ifs with hd
  · rw [h, hd]
    rfl
  · rfl

theorem held_setQueue (d' q : ℕ) :
    (s.setQueue d Q).held d' q = if d' = d then Q.held q else s.held d' q :=
  held_setDevice _ d' q

@[simp] theorem held_log (e : Event) (d q : ℕ) : (s.log e).held d q = s.held d q := rfl

@[simp] theorem held_transmitStart (d' q : ℕ) : (s.transmitStart d p).held d' q = s.held d' q :=
  held_setDevice_of_queue_eq { s.devices d with txBusy := true } rfl d' q

@[simp] theorem held_countBytes (i q d' q' : ℕ) :
    (s.countBytes i q p).held d' q' = s.held d' q' := rfl

theorem held_setPaused {q : ℕ} (b : Bool) (d' q' : ℕ) :
    (s.setPaused d q b).held d' q' = s.held d' q' :=
  held_setDevice_of_queue_eq
    { s.devices d with paused := Function.update (s.devices d).paused q b } rfl d' q'

theorem held_setReady (d' q' : ℕ) : (s.setReady d).held d' q' = s.held d' q' :=
  held_setDevice_of_queue_eq { s.devices d with txBusy := false } rfl d' q'

theorem held_enqueue (q d' q' : ℕ) :
    (s.enqueue d q p).held d' q' =
      if d' = d ∧ q' = q ∧ (s.devices d).queue.accepts p q then s.held d q ++ [p]
      else s.held d' q' := by
  have hheld : (s.enqueue d q p).held d' q' =
      (s.setQueue d ((s.devices d).queue.enqueue p q).2).held d' q' := by
    simp only [enqueue]
    split_ifs <;> rfl
  rw [hheld, held_setQueue, BEgressQueue.held_enqueue]
  by_cases hd : d' = d
  · subst hd
    by_cases hq : q' = q
    · subst hq
      by_cases ha : (s.devices d').queue.accepts p q' <;> simp [ha, held]
    · by_cases ha : (s.devices d').queue.accepts p q <;> simp [ha, hq, held]
  · simp [hd]

/-- A packet of class `0` does not change the other classes. -/
theorem held_enqueue_zero {q' : ℕ} (d' : ℕ) (h : q' ≠ 0) :
    (s.enqueue d 0 p).held d' q' = s.held d' q' := by
  rw [held_enqueue, if_neg fun hc => h hc.2.1]

theorem held_enqueuePfc {q' : ℕ} (d q d' : ℕ) (t : PfcType) (h : q' ≠ 0) :
    (s.enqueuePfc d q t).held d' q' = s.held d' q' :=
  held_enqueue_zero d' h

end Held

/-! ### What the operations do to the MMU and the log -/

section Frame

variable {s} {d q : ℕ} {p : Packet} {t : PfcType}

@[simp] theorem mmu_log (e : Event) : (s.log e).mmu = s.mmu := rfl
@[simp] theorem mmu_countBytes : (s.countBytes d q p).mmu = s.mmu := rfl
@[simp] theorem mmu_setPause : (s.setPause d q).mmu = s.mmu.setPause d q := rfl
@[simp] theorem mmu_setResume : (s.setResume d q).mmu = s.mmu.setResume d q := rfl

@[simp] theorem mmu_enqueue : (s.enqueue d q p).mmu = s.mmu := by
  simp only [enqueue]
  split_ifs <;> rfl

@[simp] theorem mmu_enqueuePfc : (s.enqueuePfc d q t).mmu = s.mmu := mmu_enqueue

@[simp] theorem trace_log (e : Event) : (s.log e).trace = e :: s.trace := rfl
@[simp] theorem trace_charge : (s.charge d q p).trace = s.trace := rfl
@[simp] theorem trace_setPause : (s.setPause d q).trace = .setPause d q :: s.trace := rfl
@[simp] theorem trace_setResume : (s.setResume d q).trace = .setResume d q :: s.trace := rfl

theorem trace_enqueue (s : Switch) (d q : ℕ) (p : Packet) :
    (s.enqueue d q p).trace =
      if (s.devices d).queue.accepts p q then s.trace else .lost d q p :: s.trace := by
  simp only [enqueue]
  split_ifs <;> rfl

end Frame

/-! ### The nesting of the calls -/

/-- The device `d` is ready and `DequeueRR` takes the packet `p`, leaving the queue `Q`. -/
structure Serves (d : ℕ) (p : Packet) (Q : BEgressQueue) : Prop where
  lt : d < s.nDevices
  linkUp : (s.devices d).linkUp = true
  ready : (s.devices d).txBusy = false
  next : (s.devices d).queue.dequeueRR (s.devices d).paused = some (p, Q)

section Nesting

variable {s} {d : ℕ} {p : Packet} {Q : BEgressQueue}

/-- `DequeueAndTransmit` does nothing or serves a packet. -/
theorem dequeueAndTransmitBody_cases (f : ℕ → Switch → Switch) (d : ℕ) :
    s.dequeueAndTransmitBody f d = s ∧ (∀ p Q, ¬ s.Serves d p Q) ∨
    ∃ p Q, s.Serves d p Q ∧
      s.dequeueAndTransmitBody f d =
        ((s.setQueue d Q).switchNotifyDequeue f d Q.qlast p).transmitStart d p := by
  simp only [dequeueAndTransmitBody]
  split_ifs with hlt hup hbusy
  · exact .inl ⟨rfl, fun p Q h => by simp [h.linkUp] at hup⟩
  · exact .inl ⟨rfl, fun p Q h => by simp [h.ready] at hbusy⟩
  · split
    · next hnone => exact .inl ⟨rfl, fun p Q h => by simp [h.next] at hnone⟩
    · next p Q hsome =>
      exact .inr ⟨p, Q, ⟨hlt, by simpa using hup, by simpa using hbusy, hsome⟩, rfl⟩
  · exact .inl ⟨rfl, fun p Q h => hlt h.lt⟩

theorem Serves.held_eq (h : s.Serves d p Q) :
    s.held d Q.qlast = p :: Q.held Q.qlast ∧ ∀ q, q ≠ Q.qlast → Q.held q = s.held d q := by
  obtain ⟨-, hheld, hrest, -⟩ := BEgressQueue.dequeueRR_eq_some h.next
  exact ⟨hheld, hrest⟩

theorem Serves.qlast_lt (h : s.Serves d p Q) : Q.qlast < qCnt :=
  (BEgressQueue.dequeueRR_eq_some h.next).1

/-- Serving a packet that is not of class `0` shrinks the backlog. -/
theorem Serves.backlog_setQueue (h : s.Serves d p Q) (hq : Q.qlast ≠ 0) :
    (s.setQueue d Q).backlog + 1 = s.backlog := by
  obtain ⟨hheld, hrest⟩ := h.held_eq
  have hdev : ∑ q ∈ Finset.range (qCnt - 1), (Q.held (q + 1)).length + 1 =
      ∑ q ∈ Finset.range (qCnt - 1), (s.held d (q + 1)).length := by
    have hmem : Q.qlast - 1 ∈ Finset.range (qCnt - 1) := by
      have := h.qlast_lt
      exact Finset.mem_range.2 (by omega)
    have hsum := sum_add_of_eq_off hmem (f := fun q => (Q.held (q + 1)).length)
      (g := fun q => (s.held d (q + 1)).length)
      fun q _ hne => by rw [hrest (q + 1) (by omega)]
    have hpred : Q.qlast - 1 + 1 = Q.qlast := by omega
    simp only [hpred, hheld, List.length_cons] at hsum
    omega
  have hsum := sum_add_of_eq_off (Finset.mem_range.2 h.lt)
    (f := fun d' => ∑ q ∈ Finset.range (qCnt - 1), ((s.setQueue d Q).held d' (q + 1)).length)
    (g := fun d' => ∑ q ∈ Finset.range (qCnt - 1), (s.held d' (q + 1)).length)
    fun d' _ hne => by simp only [held_setQueue, if_neg hne]
  simp only [held_setQueue, if_true] at hsum
  have hnd : (s.setQueue d Q).nDevices = s.nDevices := rfl
  simp only [backlog, hnd, held_setQueue]
  omega

theorem backlog_discharge (i q : ℕ) : (s.discharge i q p).backlog = s.backlog := rfl

theorem nDevices_enqueue (q : ℕ) : (s.enqueue d q p).nDevices = s.nDevices := by
  simp only [enqueue]
  split_ifs <;> rfl

theorem nDevices_enqueuePfc (s : Switch) (d q : ℕ) (t : PfcType) :
    (s.enqueuePfc d q t).nDevices = s.nDevices :=
  nDevices_enqueue 0

theorem backlog_enqueuePfc (q : ℕ) (t : PfcType) :
    (s.enqueuePfc d q t).backlog = s.backlog := by
  have hnd := nDevices_enqueuePfc s d q t
  simp only [backlog, hnd, held_enqueuePfc _ _ _ _ (Nat.succ_ne_zero _)]

/-- The nested calls of a departure are made with a smaller backlog: only they matter. -/
theorem switchNotifyDequeue_congr {f g : ℕ → Switch → Switch} (h : s.Serves d p Q)
    (hfg : ∀ d' t, t.backlog < s.backlog → f d' t = g d' t) :
    (s.setQueue d Q).switchNotifyDequeue f d Q.qlast p =
      (s.setQueue d Q).switchNotifyDequeue g d Q.qlast p := by
  simp only [switchNotifyDequeue, checkAndSendResume, sendPfc]
  split_ifs with hq
  · rw [hfg]
    have := h.backlog_setQueue hq
    rw [backlog_enqueuePfc, backlog_discharge]
    omega
  · rfl
  · rfl

theorem dequeueAndTransmitBody_congr {f g : ℕ → Switch → Switch}
    (hfg : ∀ d' t, t.backlog < s.backlog → f d' t = g d' t) :
    s.dequeueAndTransmitBody f d = s.dequeueAndTransmitBody g d := by
  rcases dequeueAndTransmitBody_cases f d with ⟨hf, hno⟩ | ⟨p, Q, h, hf⟩
  · rcases dequeueAndTransmitBody_cases g d with ⟨hg, -⟩ | ⟨p, Q, h, -⟩
    · rw [hf, hg]
    · exact absurd h (hno p Q)
  · rcases dequeueAndTransmitBody_cases g d with ⟨-, hno⟩ | ⟨p', Q', h', hg⟩
    · exact absurd h (hno p Q)
    · obtain ⟨rfl, rfl⟩ : p = p' ∧ Q = Q' := by
        have := h.next.symm.trans h'.next
        simpa using this
      rw [hf, hg, switchNotifyDequeue_congr h hfg]

/-- Any bound above the backlog gives the same result. -/
theorem dequeueAndTransmit_of_backlog_lt {n m : ℕ} (hn : s.backlog < n) (hm : s.backlog < m) :
    dequeueAndTransmit n d s = dequeueAndTransmit m d s := by
  induction n generalizing m d s with
  | zero => omega
  | succ n ih =>
    obtain ⟨m, rfl⟩ : ∃ k, m = k + 1 := ⟨m - 1, by omega⟩
    exact dequeueAndTransmitBody_congr fun d' t ht => ih (by omega) (by omega)

/-- **The bound on the nesting is never reached**: `DequeueAndTransmit` satisfies the recursion of
the source. -/
theorem transmit_eq (d : ℕ) (s : Switch) :
    transmit d s = s.dequeueAndTransmitBody transmit d :=
  dequeueAndTransmitBody_congr fun _ _ ht =>
    dequeueAndTransmit_of_backlog_lt ht (Nat.lt_succ_self _)

/-- The state in which a packet that is not of class `0` has left its queue and the MMU. -/
def departed (s : Switch) (d : ℕ) (p : Packet) (Q : BEgressQueue) : Switch :=
  (s.setQueue d Q).discharge d Q.qlast p

/-- With a packet in class `0`, `DequeueAndTransmit` at most puts one of that class on the wire. -/
def ControlOnly (d : ℕ) (s t : Switch) : Prop :=
  t = s ∨ ∃ p Q, s.Serves d p Q ∧ Q.qlast = 0 ∧ t = (s.setQueue d Q).transmitStart d p

theorem transmit_of_held_zero (h : s.held d 0 ≠ []) : ControlOnly d s (transmit d s) := by
  rw [transmit_eq]
  rcases dequeueAndTransmitBody_cases transmit d with ⟨heq, -⟩ | ⟨p, Q, hserves, heq⟩
  · exact .inl heq
  · have hq : Q.qlast = 0 := BEgressQueue.qlast_eq_zero hserves.next h
    refine .inr ⟨p, Q, hserves, hq, ?_⟩
    rw [heq, hq]
    rfl

/-- **What a chain of nested calls does.** A relation holds between the states before and after
`DequeueAndTransmit` if it holds for an idle call, for the departure of a packet of class `0`, and
for that of any other packet: without a resume, and with a resume whose nested call it holds for. -/
theorem transmit_rel {R : Switch → Switch → Prop} (hrefl : ∀ s, R s s)
    (hcontrol : ∀ s d p Q, s.Serves d p Q → Q.qlast = 0 → R s ((s.setQueue d Q).transmitStart d p))
    (hdata : ∀ s d p Q, s.Serves d p Q → Q.qlast ≠ 0 →
      (s.departed d p Q).mmu.checkShouldResume p.flowId Q.qlast = false →
      R s ((s.departed d p Q).transmitStart d p))
    (hresume : ∀ s d p Q t, s.Serves d p Q → Q.qlast ≠ 0 →
      (s.departed d p Q).mmu.checkShouldResume p.flowId Q.qlast = true →
      R ((s.departed d p Q).enqueuePfc p.flowId Q.qlast .resume) t →
      (((s.departed d p Q).enqueuePfc p.flowId Q.qlast .resume).held p.flowId 0 ≠ [] →
        ControlOnly p.flowId ((s.departed d p Q).enqueuePfc p.flowId Q.qlast .resume) t) →
      R s ((t.setResume p.flowId Q.qlast).transmitStart d p))
    (d : ℕ) (s : Switch) : R s (transmit d s) := by
  induction hb : s.backlog using Nat.strong_induction_on generalizing d s with
  | _ n ih =>
    subst hb
    rw [transmit_eq]
    rcases dequeueAndTransmitBody_cases transmit d with ⟨heq, -⟩ | ⟨p, Q, h, heq⟩
    · rw [heq]
      exact hrefl s
    · rw [heq]
      by_cases hq : Q.qlast = 0
      · rw [hq]
        exact hcontrol s d p Q h hq
      · rw [switchNotifyDequeue, if_pos hq, checkAndSendResume]
        split_ifs with hres
        · refine hresume s d p Q _ h hq hres (ih _ ?_ _ _ rfl) transmit_of_held_zero
          have := h.backlog_setQueue hq
          rw [backlog_enqueuePfc, departed, backlog_discharge]
          omega
        · exact hdata s d p Q h hq (Bool.eq_false_iff.2 hres)

/-! ### What stays -/

/-- The devices and the configuration of the MMU stay, and the log grows. -/
structure Continues (s t : Switch) : Prop where
  nDevices : t.nDevices = s.nDevices
  config : t.mmu.toMmuConfig = s.mmu.toMmuConfig
  suffix : s.trace <:+ t.trace

namespace Continues

variable {t u : Switch}

theorem refl (s : Switch) : Continues s s := ⟨rfl, rfl, List.suffix_rfl⟩

theorem trans (h : Continues s t) (h' : Continues t u) : Continues s u :=
  ⟨h'.nDevices.trans h.nDevices, h'.config.trans h.config, h.suffix.trans h'.suffix⟩

theorem log (s : Switch) (e : Event) : Continues s (s.log e) :=
  ⟨rfl, rfl, List.suffix_cons _ _⟩

theorem enqueue (s : Switch) (d q : ℕ) (p : Packet) : Continues s (s.enqueue d q p) := by
  refine ⟨nDevices_enqueue q, by simp, ?_⟩
  rw [trace_enqueue]
  split_ifs
  · exact List.suffix_rfl
  · exact List.suffix_cons _ _

theorem enqueuePfc (s : Switch) (d q : ℕ) (ty : PfcType) : Continues s (s.enqueuePfc d q ty) :=
  (log s (.sentPfc d q ty)).trans (enqueue _ d 0 _)

theorem setPause (s : Switch) (i q : ℕ) : Continues s (s.setPause i q) :=
  ⟨rfl, rfl, List.suffix_cons _ _⟩

theorem setResume (s : Switch) (i q : ℕ) : Continues s (s.setResume i q) :=
  ⟨rfl, rfl, List.suffix_cons _ _⟩

theorem transmitStart (s : Switch) (d : ℕ) (p : Packet) : Continues s (s.transmitStart d p) :=
  ⟨rfl, rfl, List.suffix_rfl⟩

theorem setPaused (s : Switch) (d q : ℕ) (b : Bool) : Continues s (s.setPaused d q b) :=
  ⟨rfl, rfl, List.suffix_rfl⟩

theorem setReady (s : Switch) (d : ℕ) : Continues s (s.setReady d) :=
  ⟨rfl, rfl, List.suffix_rfl⟩

theorem departed (s : Switch) (d : ℕ) (p : Packet) (Q : BEgressQueue) :
    Continues s (s.departed d p Q) :=
  ⟨rfl, rfl, List.suffix_rfl⟩

theorem transmit (d : ℕ) (s : Switch) : Continues s (transmit d s) := by
  refine transmit_rel (R := Continues) refl ?_ ?_ ?_ d s
  · intro s d p Q _ _
    exact ⟨rfl, rfl, List.suffix_rfl⟩
  · intro s d p Q _ _ _
    exact (departed s d p Q).trans (transmitStart _ d p)
  · intro s d p Q t _ _ _ ht _
    exact (((departed s d p Q).trans (enqueuePfc _ _ _ _)).trans ht).trans
      ((setResume t _ _).trans (transmitStart _ d p))

theorem switchSend (s : Switch) (d q : ℕ) (p : Packet) :
    Continues s (s.switchSend Switch.transmit d q p) :=
  (enqueue s d q p).trans (transmit d _)

theorem checkAndSendPfc (s : Switch) (i q : ℕ) :
    Continues s (s.checkAndSendPfc Switch.transmit i q) := by
  rw [Switch.checkAndSendPfc]
  split_ifs
  · exact ((enqueuePfc s i q .pause).trans (transmit i _)).trans (setPause _ i q)
  · exact refl s

end Continues

end Nesting

/-! ### The branches of `SendToDev` -/

section SendToDev

variable {s} {ch : Header} {p : Packet}

/-- The books of an admitted packet, before it is enqueued at the device `idx`. -/
def takeIn (s : Switch) (idx qIndex : ℕ) (p : Packet) : Switch :=
  (((s.log (.arrived p.flowId qIndex p.size)).charge idx qIndex p).checkAndSendPfc transmit
    p.flowId qIndex).countBytes idx qIndex p

theorem Continues.takeIn (s : Switch) (i q : ℕ) (p : Packet) : Continues s (s.takeIn i q p) := by
  have hcharge : Continues s ((s.log (.arrived p.flowId q p.size)).charge i q p) :=
    ⟨rfl, by simp [charge], List.suffix_cons _ _⟩
  have hcount : ∀ t : Switch, Continues t (t.countBytes i q p) := fun t =>
    ⟨rfl, rfl, List.suffix_rfl⟩
  exact (hcharge.trans (checkAndSendPfc _ _ _)).trans (hcount _)

/-- **What `SendToDev` does** with a packet: nothing without a route; send it, in class `0`;
refuse it; or admit and send it. -/
theorem sendToDev_cases (s : Switch) (idx : Option ℕ) (ch : Header) (p : Packet) :
    s.sendToDev idx ch p = s ∨
    (∃ i ∈ idx, s.sendToDev idx ch p = (s.countBytes i 0 p).switchSend transmit i 0 p) ∨
    (s.qIndexOf ch ≠ 0 ∧
      s.mmu.checkIngressAdmission p.flowId (s.qIndexOf ch) p.size = false ∧
      s.sendToDev idx ch p = (s.log (.arrived p.flowId (s.qIndexOf ch) p.size)).log
        (.dropped p.flowId (s.qIndexOf ch) p.size)) ∨
    ∃ i ∈ idx, s.qIndexOf ch ≠ 0 ∧
      s.mmu.checkIngressAdmission p.flowId (s.qIndexOf ch) p.size = true ∧
      s.sendToDev idx ch p =
        (s.takeIn i (s.qIndexOf ch) p).switchSend transmit i (s.qIndexOf ch) p := by
  cases idx with
  | none => exact .inl rfl
  | some i =>
    simp only [sendToDev]
    split_ifs with hq hadm
    · exact .inr (.inr (.inr ⟨i, rfl, hq, hadm.1, rfl⟩))
    · refine .inr (.inr (.inl ⟨hq, ?_, rfl⟩))
      exact Bool.eq_false_iff.2 fun h => hadm ⟨h, rfl⟩
    · rw [not_not.1 hq]
      exact .inr (.inl ⟨i, rfl, rfl⟩)

theorem Continues.sendToDev (s : Switch) (idx : Option ℕ) (ch : Header) (p : Packet) :
    Continues s (s.sendToDev idx ch p) := by
  rcases sendToDev_cases s idx ch p with heq | ⟨i, -, heq⟩ | ⟨-, -, heq⟩ | ⟨i, -, -, -, heq⟩
  all_goals rw [heq]
  · exact refl s
  · have hcount : Continues s (s.countBytes i 0 p) := ⟨rfl, rfl, List.suffix_rfl⟩
    exact hcount.trans (switchSend _ i 0 p)
  · exact (log s _).trans (log _ _)
  · exact (takeIn s i _ p).trans (switchSend _ i _ p)

/-- **What one event does**: nothing; the arrival of a packet; the beginning or the end of a pause
or of a transmission at a device, the end followed by `DequeueAndTransmit`; or `TakeDown`. -/
theorem step_cases {t : Switch} {op : Op} (hstep : s.step op = some t) :
    t = s ∨
    (∃ d ch n idx, op = .receive d ch n idx ∧ (s.devices d).linkUp = true ∧
      (∀ i ∈ idx, i < s.nDevices) ∧ t = s.sendToDev idx ch ⟨n, d, none⟩) ∨
    (∃ d q, t = s.setPaused d q true) ∨
    (∃ d q, t = transmit d (s.setPaused d q false)) ∨
    (∃ d, t = transmit d (s.setReady d)) ∨
    ∃ d, op = .takeDown d ∧ t = s.takeDown d := by
  cases op with
  | receive d ch n idx =>
    simp only [step] at hstep
    split_ifs at hstep with hguard
    cases hstep
    rw [receive]
    split_ifs with hup
    · exact .inr (.inl ⟨d, ch, n, idx, rfl, hup, hguard.2.1, rfl⟩)
    · exact .inl rfl
  | receivePfc d pfc =>
    simp only [step] at hstep
    split_ifs at hstep
    cases hstep
    rw [receivePfc]
    split_ifs
    · exact .inl rfl
    · exact .inl rfl
    · exact .inr (.inr (.inl ⟨d, pfc.qIndex, rfl⟩))
    · exact .inr (.inr (.inr (.inl ⟨d, pfc.qIndex, rfl⟩)))
  | transmitComplete d =>
    simp only [step] at hstep
    split_ifs at hstep
    cases hstep
    exact .inr (.inr (.inr (.inr (.inl ⟨d, rfl⟩))))
  | takeDown d =>
    simp only [step] at hstep
    split_ifs at hstep
    cases hstep
    exact .inr (.inr (.inr (.inr (.inr ⟨d, rfl, rfl⟩))))

/-- No event changes the configuration or shortens the log. -/
theorem Continues.step {t : Switch} {op : Op} (hstep : s.step op = some t) : Continues s t := by
  rcases step_cases hstep with rfl | ⟨d, ch, n, idx, -, -, -, rfl⟩ | ⟨d, q, rfl⟩ | ⟨d, q, rfl⟩ |
    ⟨d, rfl⟩ | ⟨d, -, rfl⟩
  · exact refl t
  · exact sendToDev s idx ch _
  · exact setPaused s d q true
  · exact (setPaused s d q false).trans (transmit d _)
  · exact (setReady s d).trans (transmit d _)
  · exact ⟨rfl, rfl, List.suffix_rfl⟩

end SendToDev

/-- The configuration of a switch. -/
structure Config where
  nDevices : ℕ
  ackHighPrio : Bool
  mmu : MmuConfig
  maxBytes : ℕ → ℕ
  qbbEnabled : ℕ → Bool
  pausetime : ℕ → UInt32

/-- A switch whose devices have the attribute defaults. -/
def Config.default (nDevices : ℕ) (mmu : MmuConfig) : Config where
  nDevices := nDevices
  ackHighPrio := false
  mmu := mmu
  maxBytes _ := 1000 * 1024 * 1024
  qbbEnabled _ := true
  pausetime _ := 5

/-- A switch that starts: all links up, nothing charged, queued or in flight. -/
def init (c : Config) : Switch where
  nDevices := c.nDevices
  ackHighPrio := c.ackHighPrio
  mmu := c.mmu.init
  devices d :=
    { linkUp := true
      txBusy := false
      paused := fun _ => false
      queue := .empty (c.maxBytes d)
      qbbEnabled := c.qbbEnabled d
      pausetime := c.pausetime d }
  bytes _ _ _ := 0
  wire _ := []
  trace := []

@[simp] theorem held_init (c : Config) (d q : ℕ) : (init c).held d q = [] := rfl

end Switch

end HpccSim
