import HpccSim.IdlePorts

/-!
# Whether the transmitter is ready

`DequeueAndTransmit` takes a packet out of the queue of a port, calls back into the switch, and only
then starts the transmitter. The callback may send a resume frame, and so re-enter the function for
the port the packet came in by, before the first port is marked busy. If that is the first port
itself, `TransmitStart` may be called for it twice. No other port can come up again: all ports but
the first have nothing to send, except the resume frame, whose departure calls nothing back.

## Main definitions

* `Switch.transmitStarts`, `Switch.starts`: the calls of `TransmitStart`, each with the state it
  finds.
* `Switch.chain`: the ports for which nested calls of `DequeueAndTransmit` take a packet.
* `Switch.TurnsBack`: the departure of a packet makes the port send another one.

## Main results

* `Switch.wire_step`: an event puts on the wire exactly what these calls are made with.
* `Switch.ready_iff_nodup`: the transmitter is ready in every call of a chain exactly if no port is
  repeated.
* `Switch.nodup_chain_iff`: which is the case unless the first port turns back.
* `Switch.transmitter_ready_iff`: the same for whole runs.
-/

namespace HpccSim

namespace Switch

/-- A call of `QbbNetDevice::TransmitStart` and the state it finds. -/
structure Start where
  dev : ℕ
  packet : Packet
  found : Switch

/-- `m_txMachineState == READY`. -/
def Start.ready (x : Start) : Bool := !(x.found.devices x.dev).txBusy

variable (s : Switch)

/-- The nested call of `DequeueAndTransmit`, if the departure of a packet from `d` makes the switch
send a resume frame: its port, and the state it finds. -/
def resumeCall (d : ℕ) (p : Packet) (Q : BEgressQueue) : Option (ℕ × Switch) :=
  if Q.getLastQueue ≠ 0 ∧
      (s.departed d p Q).mmu.checkShouldResume p.flowId Q.getLastQueue then
    some (p.flowId, (s.departed d p Q).enqueuePfc p.flowId Q.getLastQueue .resume)
  else
    none

/-- The calls of `TransmitStart` in a call of `DequeueAndTransmit`, nested at most `n` deep. -/
def transmitStarts : ℕ → ℕ → Switch → List Start
  | 0, _, _ => []
  | n + 1, d, s =>
    match s.served d with
    | none => []
    | some (p, Q) =>
      (match s.resumeCall d p Q with
        | none => []
        | some (d', t) => transmitStarts n d' t) ++
      [⟨d, p, (s.setQueue d Q).switchNotifyDequeue (dequeueAndTransmit n) d Q.getLastQueue p⟩]

/-- The ports for which nested calls of `DequeueAndTransmit` take a packet, the outermost first. -/
def chain : ℕ → ℕ → Switch → List ℕ
  | 0, _, _ => []
  | n + 1, d, s =>
    match s.served d with
    | none => []
    | some (p, Q) =>
      d :: match s.resumeCall d p Q with
        | none => []
        | some (d', t) => chain n d' t

/-- The calls of `DequeueAndTransmit` in `SendToDev` that are not nested: the port, and the
state. -/
def sendToDevCalls (idx : Option ℕ) (ch : Header) (p : Packet) : List (ℕ × Switch) :=
  match idx with
  | none => []
  | some idx =>
    let qIndex := s.qIndexOf ch
    let inDev := p.flowId
    if qIndex ≠ 0 then
      let s := s.log (.arrived inDev qIndex p.size)
      if s.mmu.checkIngressAdmission inDev qIndex p.size ∧
          s.mmu.checkEgressAdmission idx qIndex p.size then
        let s := s.charge idx qIndex p
        (if s.mmu.checkShouldPause inDev qIndex then [(inDev, s.enqueuePfc inDev qIndex .pause)]
          else []) ++
        [(idx, ((s.checkAndSendPfc transmit inDev qIndex).countBytes idx qIndex p).enqueue
          idx qIndex p)]
      else
        []
    else
      [(idx, (s.countBytes idx qIndex p).enqueue idx qIndex p)]

/-- The calls of `DequeueAndTransmit` in an event that are not nested. -/
def dequeueCalls : Op → List (ℕ × Switch)
  | .receive d ch size idx =>
    if (s.devices d).linkUp then
      s.sendToDevCalls idx ch { size := size, flowId := d, pfc := none }
    else
      []
  | .receivePfc d pfc =>
    if !(s.devices d).linkUp then
      []
    else if !(s.devices d).qbbEnabled then
      []
    else if pfc.time > 0 then
      []
    else
      [(d, s.setPaused d pfc.qIndex false)]
  | .transmitComplete d => [(d, s.setReady d)]
  | .takeDown _ => []

/-- The calls of `TransmitStart` in some calls of `DequeueAndTransmit`. -/
def startsOf (calls : List (ℕ × Switch)) : List Start :=
  calls.flatMap fun e => transmitStarts (e.2.backlog + 1) e.1 e.2

/-- The calls of `TransmitStart` in an event. -/
def starts (op : Op) : List Start := startsOf (s.dequeueCalls op)

/-- The packet that the port `d` sends next came in by `d` itself, its departure ends the pause of
its class, and with the resume frame in its queue the port would send another packet. -/
def TurnsBack (d : ℕ) : Prop :=
  ∃ p Q, s.Serves d p Q ∧ p.flowId = d ∧ Q.getLastQueue ≠ 0 ∧
    ((s.mmu.removeFromIngressAdmission d Q.getLastQueue p.size).removeFromEgressAdmission d
      Q.getLastQueue p.size).checkShouldResume d Q.getLastQueue = true ∧
    (Q.enqueue ({ s.devices d with queue := Q }.pfcFrame Q.getLastQueue .resume) 0).2.dequeueRR
      (s.devices d).paused ≠ none

variable {s} {d e n : ℕ} {p : Packet} {Q : BEgressQueue}

/-! ### What one call does -/

/-- The ports are as busy, and the wires carry the same, as before. -/
structure SameWires (s t : Switch) : Prop where
  txBusy : ∀ i, (t.devices i).txBusy = (s.devices i).txBusy
  wire : t.wire = s.wire

namespace SameWires

variable {t u : Switch}

theorem trans (h : SameWires s t) (h' : SameWires t u) : SameWires s u :=
  ⟨fun i => (h'.txBusy i).trans (h.txBusy i), h'.wire.trans h.wire⟩

theorem setDevice {dev : Device} (h : dev.txBusy = (s.devices d).txBusy) :
    SameWires s (s.setDevice d dev) := by
  refine ⟨fun i => ?_, rfl⟩
  rw [Switch.setDevice]
  by_cases hi : i = d
  · simp [hi, h]
  · simp [hi]

theorem enqueue (s : Switch) (d q : ℕ) (p : Packet) : SameWires s (s.enqueue d q p) := by
  have hset : SameWires s (s.setQueue d ((s.devices d).queue.enqueue p q).2) := setDevice rfl
  rw [Switch.enqueue]
  split_ifs
  · exact hset
  · exact hset.trans ⟨fun _ => rfl, rfl⟩

theorem enqueuePfc (s : Switch) (d q : ℕ) (ty : PfcType) : SameWires s (s.enqueuePfc d q ty) :=
  (⟨fun _ => rfl, rfl⟩ : SameWires s (s.log (.sentPfc d q ty))).trans (enqueue _ d 0 _)

theorem departed (s : Switch) (d : ℕ) (p : Packet) (Q : BEgressQueue) :
    SameWires s (s.departed d p Q) :=
  (setDevice rfl : SameWires s (s.setQueue d Q)).trans ⟨fun _ => rfl, rfl⟩

end SameWires

theorem txBusy_transmitStart (i : ℕ) :
    ((s.transmitStart d p).devices i).txBusy = (decide (i = d) || (s.devices i).txBusy) := by
  rw [transmitStart, setDevice]
  by_cases hi : i = d
  · simp [hi]
  · simp [hi]

theorem resumeCall_eq_some {t : Switch} (h : s.resumeCall d p Q = some (e, t)) :
    (Q.getLastQueue ≠ 0 ∧
      (s.departed d p Q).mmu.checkShouldResume p.flowId Q.getLastQueue = true) ∧
      p.flowId = e ∧ (s.departed d p Q).enqueuePfc p.flowId Q.getLastQueue .resume = t := by
  rw [resumeCall] at h
  split_ifs at h with hres
  cases h
  exact ⟨hres, rfl, rfl⟩

theorem SameWires.resumeCall {t : Switch} (h : s.resumeCall d p Q = some (e, t)) :
    SameWires s t := by
  rw [Switch.resumeCall] at h
  split_ifs at h
  cases h
  exact (departed s d p Q).trans (enqueuePfc _ _ _ _)

/-- Without a nested call, the departure of a packet touches the books only. -/
theorem notify_of_none (f : ℕ → Switch → Switch) (h : s.resumeCall d p Q = none) :
    SameWires s ((s.setQueue d Q).switchNotifyDequeue f d Q.getLastQueue p) := by
  rw [resumeCall] at h
  rw [switchNotifyDequeue, checkAndSendResume]
  split_ifs with hq hres
  · rw [if_pos ⟨hq, hres⟩] at h
    cases h
  · exact .departed s d p Q
  · exact .setDevice rfl

/-- With one, it is what the nested call does, and the end of the pause. -/
theorem notify_of_some {t : Switch} (f : ℕ → Switch → Switch)
    (h : s.resumeCall d p Q = some (e, t)) :
    (s.setQueue d Q).switchNotifyDequeue f d Q.getLastQueue p =
      (f e t).setResume p.flowId Q.getLastQueue := by
  rw [resumeCall] at h
  split_ifs at h with hres
  cases h
  rw [switchNotifyDequeue, if_pos hres.1, checkAndSendResume]
  exact if_pos hres.2

theorem dequeueAndTransmit_of_none (h : s.served d = none) (n : ℕ) :
    dequeueAndTransmit n d s = s := by
  cases n with
  | zero => rfl
  | succ n =>
    rcases dequeueAndTransmitBody_cases (dequeueAndTransmit n) d with ⟨heq, -⟩ | ⟨p, Q, hserves, -⟩
    · exact heq
    · exact absurd hserves (served_eq_none.1 h p Q)

theorem dequeueAndTransmit_of_some (h : s.served d = some (p, Q)) (n : ℕ) :
    dequeueAndTransmit (n + 1) d s =
      ((s.setQueue d Q).switchNotifyDequeue (dequeueAndTransmit n) d Q.getLastQueue
        p).transmitStart d p := by
  rw [served_eq_some] at h
  rcases dequeueAndTransmitBody_cases (dequeueAndTransmit n) d with ⟨-, hno⟩ | ⟨p', Q', h', heq⟩
  · exact absurd h (hno p Q)
  · obtain ⟨rfl, rfl⟩ : p = p' ∧ Q = Q' := by simpa using h.next.symm.trans h'.next
    exact heq

/-! ### What a chain of calls does -/

/-- **The ports of the chain, and no others, become busy.** -/
theorem txBusy_dequeueAndTransmit (n d : ℕ) (s : Switch) (i : ℕ) :
    ((dequeueAndTransmit n d s).devices i).txBusy =
      (decide (i ∈ chain n d s) || (s.devices i).txBusy) := by
  induction n generalizing d s with
  | zero => simp [dequeueAndTransmit, chain]
  | succ n ih =>
    cases hserved : s.served d with
    | none => simp [dequeueAndTransmit_of_none hserved, chain, hserved]
    | some r =>
      obtain ⟨p, Q⟩ := r
      rw [dequeueAndTransmit_of_some hserved, txBusy_transmitStart]
      cases hcall : s.resumeCall d p Q with
      | none =>
        rw [(notify_of_none _ hcall).txBusy]
        simp [chain, hserved, hcall]
      | some r =>
        obtain ⟨e, t⟩ := r
        have hsame := SameWires.resumeCall hcall
        have hresume : ((Switch.setResume (dequeueAndTransmit n e t) p.flowId
            Q.getLastQueue).devices i).txBusy = ((dequeueAndTransmit n e t).devices i).txBusy := rfl
        rw [notify_of_some _ hcall, hresume, ih, hsame.txBusy]
        simp [chain, hserved, hcall, Bool.or_assoc]

/-- **The transmitter is ready in every call of a chain exactly if no port is repeated.** -/
theorem ready_iff_nodup (n d : ℕ) (s : Switch) :
    (∀ x ∈ transmitStarts n d s, x.ready = true) ↔ (chain n d s).Nodup := by
  induction n generalizing d s with
  | zero => simp [transmitStarts, chain]
  | succ n ih =>
    cases hserved : s.served d with
    | none => simp [transmitStarts, chain, hserved]
    | some r =>
      obtain ⟨p, Q⟩ := r
      have hready := (served_eq_some.1 hserved).ready
      cases hcall : s.resumeCall d p Q with
      | none =>
        have hbusy := (notify_of_none (dequeueAndTransmit n) hcall).txBusy d
        simp [transmitStarts, chain, hserved, hcall, Start.ready, hbusy, hready]
      | some r =>
        obtain ⟨e, t⟩ := r
        -- the outer call finds its port busy if the nested ones have started it
        have hbusy : (((s.setQueue d Q).switchNotifyDequeue (dequeueAndTransmit n) d Q.getLastQueue
            p).devices d).txBusy = decide (d ∈ chain n e t) := by
          have hresume : ((Switch.setResume (dequeueAndTransmit n e t) p.flowId
              Q.getLastQueue).devices d).txBusy = ((dequeueAndTransmit n e t).devices d).txBusy :=
            rfl
          rw [notify_of_some _ hcall, hresume, txBusy_dequeueAndTransmit,
            (SameWires.resumeCall hcall).txBusy, hready, Bool.or_false]
        have hstart : Start.ready ⟨d, p, (s.setQueue d Q).switchNotifyDequeue
            (dequeueAndTransmit n) d Q.getLastQueue p⟩ = true ↔ d ∉ chain n e t := by
          simp [Start.ready, hbusy]
        simp only [transmitStarts, chain, hserved, hcall, List.forall_mem_append,
          List.forall_mem_singleton, List.nodup_cons]
        rw [ih, hstart, and_comm]

/-- The packets that the calls put on the wire of the port `i`. -/
def putOn (i : ℕ) (l : List Start) : List Packet := (l.filter fun x => x.dev = i).map Start.packet

theorem putOn_append (i : ℕ) (l l' : List Start) : putOn i (l ++ l') = putOn i l ++ putOn i l' := by
  simp [putOn]

/-- A chain puts on the wires what its calls of `TransmitStart` are made with. -/
theorem wire_dequeueAndTransmit (n d : ℕ) (s : Switch) (i : ℕ) :
    (dequeueAndTransmit n d s).wire i = s.wire i ++ putOn i (transmitStarts n d s) := by
  induction n generalizing d s with
  | zero => simp [dequeueAndTransmit, transmitStarts, putOn]
  | succ n ih =>
    cases hserved : s.served d with
    | none => simp [dequeueAndTransmit_of_none hserved, transmitStarts, hserved, putOn]
    | some r =>
      obtain ⟨p, Q⟩ := r
      have hstart : ∀ u : Switch, (u.transmitStart d p).wire i =
          u.wire i ++ putOn i [⟨d, p, u⟩] := by
        intro u
        rw [transmitStart, putOn]
        by_cases hi : i = d
        · simp [hi]
        · simp [hi, Ne.symm hi]
      rw [dequeueAndTransmit_of_some hserved, hstart]
      simp only [transmitStarts, hserved]
      cases hcall : s.resumeCall d p Q with
      | none => simp [(notify_of_none _ hcall).wire]
      | some r =>
        obtain ⟨e, t⟩ := r
        have hresume :
            (Switch.setResume (dequeueAndTransmit n e t) p.flowId Q.getLastQueue).wire i =
            (dequeueAndTransmit n e t).wire i := rfl
        rw [putOn_append, ← List.append_assoc, ← (SameWires.resumeCall hcall).wire, ← ih, ← hresume,
          ← notify_of_some _ hcall]

/-! ### Events -/

theorem wire_transmit (d : ℕ) (s : Switch) (i : ℕ) :
    (transmit d s).wire i = s.wire i ++ putOn i (transmitStarts (s.backlog + 1) d s) :=
  wire_dequeueAndTransmit _ d s i

theorem startsOf_append (l l' : List (ℕ × Switch)) :
    startsOf (l ++ l') = startsOf l ++ startsOf l' :=
  List.flatMap_append

theorem wire_transmit_of_eq {u : Switch} (h : u.wire = s.wire) (d i : ℕ) :
    (transmit d u).wire i = s.wire i ++ putOn i (startsOf [(d, u)]) := by
  rw [wire_transmit, h, startsOf, List.flatMap_singleton]

/-- What admission does to the wires, it does by a pause frame. -/
theorem wire_checkAndSendPfc (s : Switch) (d q i : ℕ) :
    (s.checkAndSendPfc transmit d q).wire i = s.wire i ++ putOn i (startsOf
      (if s.mmu.checkShouldPause d q then [(d, s.enqueuePfc d q .pause)] else [])) := by
  rw [checkAndSendPfc]
  split_ifs
  · exact wire_transmit_of_eq (SameWires.enqueuePfc s d q .pause).wire d i
  · simp [startsOf, putOn]

theorem wire_sendToDev (s : Switch) (idx : Option ℕ) (ch : Header) (p : Packet) (i : ℕ) :
    (s.sendToDev idx ch p).wire i = s.wire i ++ putOn i (startsOf (s.sendToDevCalls idx ch p)) := by
  have hcount : ∀ (u : Switch) j q, SameWires u ((u.countBytes j q p).enqueue j q p) := fun u j q =>
    (⟨fun _ => rfl, rfl⟩ : SameWires u (u.countBytes j q p)).trans (.enqueue _ j q p)
  cases idx with
  | none => simp [sendToDev, sendToDevCalls, startsOf, putOn]
  | some idx =>
    simp only [sendToDev, sendToDevCalls]
    split_ifs with hq hadm hpause
    · rw [switchSend, wire_transmit_of_eq (hcount _ idx _).wire, wire_checkAndSendPfc,
        if_pos hpause, startsOf_append, putOn_append, List.append_assoc]
      rfl
    · rw [switchSend, wire_transmit_of_eq (hcount _ idx _).wire, wire_checkAndSendPfc,
        if_neg hpause, startsOf_append, putOn_append, List.append_assoc]
      rfl
    · simp [startsOf, putOn, log]
    · exact wire_transmit_of_eq (hcount s idx _).wire idx i

/-- **An event puts on the wires what its calls of `TransmitStart` are made with**: there are no
others. -/
theorem wire_step {t : Switch} {op : Op} (h : s.step op = some t) (i : ℕ) :
    t.wire i = s.wire i ++ putOn i (s.starts op) := by
  have hnone : s.wire i = s.wire i ++ putOn i [] := by simp [putOn]
  cases op with
  | receive d ch size idx =>
    simp only [step] at h
    split_ifs at h
    cases h
    rw [receive, starts, dequeueCalls]
    split_ifs
    · exact wire_sendToDev s idx ch _ i
    · exact hnone
  | receivePfc d pfc =>
    simp only [step] at h
    split_ifs at h
    cases h
    rw [receivePfc, starts, dequeueCalls]
    split_ifs
    · exact hnone
    · exact hnone
    · exact hnone
    · exact wire_transmit_of_eq (u := s.setPaused d pfc.qIndex false) rfl d i
  | transmitComplete d =>
    simp only [step] at h
    split_ifs at h
    cases h
    exact wire_transmit_of_eq (u := s.setReady d) rfl d i
  | takeDown d =>
    simp only [step] at h
    split_ifs at h
    cases h
    exact hnone

/-! ### The length of a chain -/

theorem enqueuePfc_held_zero {q : ℕ} {ty : PfcType}
    (h : (s.devices d).queue.accepts ((s.devices d).pfcFrame q ty) 0 = true) :
    (s.enqueuePfc d q ty).held d 0 ≠ [] := by
  have hheld : (s.enqueuePfc d q ty).held d 0 = s.held d 0 ++ [(s.devices d).pfcFrame q ty] := by
    rw [enqueuePfc, held_enqueue, if_pos ⟨rfl, rfl, h⟩]
    rfl
  simp [hheld]

/-- A port that had nothing to send, and has something with the resume frame in its queue, has a
packet in class `0`: a full queue stays as it is. -/
theorem held_zero_of_serves {q : ℕ} {ty : PfcType} (hcount : (s.devices d).queue.Counted)
    (hidle : s.served d = none) (hserves : (s.enqueuePfc d q ty).Serves d p Q) :
    (s.enqueuePfc d q ty).held d 0 ≠ [] := by
  by_cases hacc : (s.devices d).queue.accepts ((s.devices d).pfcFrame q ty) 0 = true
  · exact enqueuePfc_held_zero hacc
  have hheld : (s.enqueuePfc d q ty).held d 0 = s.held d 0 := by
    rw [enqueuePfc, held_enqueue, if_neg fun h => hacc h.2.2]
    rfl
  rw [hheld]
  intro hnil
  have hroom : (s.devices d).queue.hasRoom ((s.devices d).pfcFrame q ty) = false := by
    have hinner : ((s.devices d).queue.queues 0).accepts ((s.devices d).pfcFrame q ty) = true :=
      (hcount 0).accepts_of_nil hnil (show pfcSize.toNat < 30000 * 65535 by decide)
    rwa [BEgressQueue.accepts, hinner, Bool.and_true, Bool.not_eq_true] at hacc
  have hsame : (s.enqueuePfc d q ty).served d = s.served d :=
    served_congr (nDevices_enqueuePfc s d q ty) 
      (devices_enqueue_of_full (s := s.log (.sentPfc d q ty)) hroom d)
  rw [served_eq_some.2 hserves, hidle] at hsame
  cases hsame

/-- The port sends another packet if it has one with the resume frame in its queue. -/
theorem served_resumeCall_self (hserves : s.Serves d p Q) (q : ℕ) :
    ((s.departed d p Q).enqueuePfc d q .resume).served d =
      (Q.enqueue ({ s.devices d with queue := Q }.pfcFrame q .resume) 0).2.dequeueRR
        (s.devices d).paused := by
  have hdev : ((s.departed d p Q).devices d) = { s.devices d with queue := Q } :=
    Function.update_self _ _ _
  have hnext : ((s.departed d p Q).enqueuePfc d q .resume).devices d =
      { s.devices d with
        queue := (Q.enqueue ({ s.devices d with queue := Q }.pfcFrame q .resume) 0).2 } := by
    have hself := devices_enqueue_self (s := (s.departed d p Q).log (.sentPfc d q .resume))
      (d := d) (p := ((s.departed d p Q).devices d).pfcFrame q .resume) 0
    have hlog : ((s.departed d p Q).log (.sentPfc d q .resume)).devices d =
        { s.devices d with queue := Q } := hdev
    rw [hlog, hdev] at hself
    rw [enqueuePfc, hdev]
    exact hself
  have hn : ((s.departed d p Q).enqueuePfc d q .resume).nDevices = s.nDevices :=
    nDevices_enqueuePfc _ _ _ _
  rw [served, hn, hnext, if_pos hserves.lt, if_neg (by simp [hserves.linkUp]),
    if_neg (by simp [hserves.ready])]

/-- **A chain has at most two ports**: the other ports have nothing to send but the resume frame,
and its departure makes no call. It comes back exactly if the first port does. -/
theorem nodup_chain_iff (h : Settled {d} s) :
    (chain (s.backlog + 1) d s).Nodup ↔ ¬ s.TurnsBack d := by
  cases hserved : s.served d with
  | none =>
    have hno : ¬ s.TurnsBack d := by
      rintro ⟨p, Q, hserves, -⟩
      exact served_eq_none.1 hserved p Q hserves
    simp [chain, hserved, hno]
  | some r =>
    obtain ⟨p, Q⟩ := r
    have hserves := served_eq_some.1 hserved
    have hturns : s.TurnsBack d ↔ p.flowId = d ∧ Q.getLastQueue ≠ 0 ∧
        (s.departed d p Q).mmu.checkShouldResume d Q.getLastQueue = true ∧
        ((s.departed d p Q).enqueuePfc d Q.getLastQueue .resume).served d ≠ none := by
      rw [served_resumeCall_self hserves]
      constructor
      · rintro ⟨p', Q', hserves', hback⟩
        obtain ⟨rfl, rfl⟩ : p = p' ∧ Q = Q' := by simpa using hserves.next.symm.trans hserves'.next
        obtain ⟨rfl, hback⟩ := hback
        exact ⟨rfl, hback⟩
      · rintro ⟨rfl, hback⟩
        exact ⟨p, Q, hserves, rfl, hback⟩
    cases hcall : s.resumeCall d p Q with
    | none =>
      have hno : ¬ s.TurnsBack d := by
        rw [hturns]
        rintro ⟨rfl, hq, hres, -⟩
        rw [resumeCall, if_pos ⟨hq, hres⟩] at hcall
        cases hcall
      simp [chain, hserved, hcall, hno]
    | some r =>
      obtain ⟨e, t⟩ := r
      obtain ⟨⟨hq, hres⟩, rfl, rfl⟩ := resumeCall_eq_some hcall
      -- the packet that leaves is part of the backlog, so the nested call is made
      rw [← hserves.backlog_setQueue hq]
      cases hnext : ((s.departed d p Q).enqueuePfc p.flowId Q.getLastQueue .resume).served
          p.flowId with
      | none =>
        have hno : ¬ s.TurnsBack d := by
          rw [hturns]
          rintro ⟨heq, -, -, hne⟩
          rw [heq] at hnext
          exact hne hnext
        simp [chain, hserved, hcall, hnext, hno]
      | some r =>
        obtain ⟨p', Q'⟩ := r
        by_cases he : p.flowId = d
        · subst he
          have hyes : s.TurnsBack p.flowId := hturns.2 ⟨rfl, hq, hres, by simp [hnext]⟩
          simp [chain, hserved, hcall, hnext, hyes]
        · have hno : ¬ s.TurnsBack d := fun hback => he (hturns.1 hback).1
          have hcount : (s.departed d p Q).Counted := h.counted.serves hserves
          have hidle : (s.departed d p Q).served p.flowId = none :=
            (served_departed_of_ne he).trans (h.idle _ he)
          have hzero : Q'.qlast = 0 :=
            BEgressQueue.qlast_eq_zero (served_eq_some.1 hnext).next
              (held_zero_of_serves (hcount _) hidle (served_eq_some.1 hnext))
          -- a packet of class `0` goes first, and its departure makes no call
          have hlast : ((s.departed d p Q).enqueuePfc p.flowId Q.getLastQueue .resume).resumeCall
              p.flowId p' Q' = none := by
            rw [resumeCall, if_neg]
            exact fun hand => hand.1 hzero
          simp [chain, hserved, hcall, hnext, hlast, hno, Ne.symm he]

/-- The calls of an event that are not nested are made while all other ports are settled. -/
theorem settled_of_mem_dequeueCalls {op : Op} (h : Settled ∅ s) {e : ℕ × Switch}
    (he : e ∈ s.dequeueCalls op) : Settled {e.1} e.2 := by
  cases op with
  | receive d ch size idx =>
    rw [dequeueCalls] at he
    split_ifs at he
    · cases idx with
      | none => cases he
      | some i =>
        simp only [sendToDevCalls] at he
        split_ifs at he with hq hadm hpause
        · have hcharge : Settled ∅ ((s.log (.arrived d (s.qIndexOf ch) size)).charge i
              (s.qIndexOf ch) ⟨size, d, none⟩) := h.congr rfl rfl
          rcases List.mem_cons.1 he with rfl | he
          · exact hcharge.enqueuePfc (s.qIndexOf ch) .pause
          · obtain rfl := List.mem_singleton.1 he
            exact (h.takeIn i (s.qIndexOf ch) ⟨size, d, none⟩).enqueue (s.qIndexOf ch) _
        · obtain rfl := List.mem_singleton.1 he
          exact (h.takeIn i (s.qIndexOf ch) ⟨size, d, none⟩).enqueue (s.qIndexOf ch) _
        · cases he
        · obtain rfl := List.mem_singleton.1 he
          have hcount : Settled ∅ (s.countBytes i (s.qIndexOf ch) ⟨size, d, none⟩) :=
            h.congr rfl rfl
          exact hcount.enqueue (s.qIndexOf ch) _
    · cases he
  | receivePfc d pfc =>
    rw [dequeueCalls] at he
    split_ifs at he
    · cases he
    · cases he
    · cases he
    · obtain rfl := List.mem_singleton.1 he
      exact h.setPaused pfc.qIndex false
  | transmitComplete d =>
    obtain rfl := List.mem_singleton.1 he
    exact h.setReady
  | takeDown d => cases he

/-- **The transmitter is never started while busy** in the events of a run exactly if no port for
which `DequeueAndTransmit` is called turns back. -/
theorem transmitter_ready_iff (c : Config) (ops : List Op) :
    Run.Along step (fun s op => ∀ x ∈ s.starts op, x.ready = true) (init c) ops ↔
      Run.Along step (fun s op => ∀ e ∈ s.dequeueCalls op, ¬ e.2.TurnsBack e.1) (init c) ops := by
  refine Run.along_iff_along (I := Settled ∅) (fun s op _ h => ?_)
    (fun s op t h _ hstep => h.step hstep) (.init c)
  simp only [starts, startsOf, List.forall_mem_flatMap, ready_iff_nodup]
  exact forall₂_congr fun e he => nodup_chain_iff (settled_of_mem_dequeueCalls h he)

/-- A packet leaves by the port it came in by, after a pause: its departure sends the resume frame
by the same port, and `TransmitStart` is called twice. -/
theorem transmitter_restarted :
    ¬ Run.Along step (fun s op => ∀ x ∈ s.starts op, x.ready = true)
      (init (.default 2
        { bufferSize := 2000, pfcAShift := fun _ => 0, reserve := 0, headroom := fun _ => 2000,
          resumeOffset := 0, totalHdrm := 2000, totalRsrv := 0 }))
      [.receive 1 ⟨0x11, 3⟩ 1000 (some 1), .transmitComplete 1] := by
  decide +kernel

end Switch

end HpccSim
