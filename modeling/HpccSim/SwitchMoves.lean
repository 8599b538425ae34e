import HpccSim.PfcLink

/-!
# The moves of the packets in a switch

Whatever a switch does in one event, its packets only move: a packet is queued behind those of its
class, the oldest packet of a class goes on the wire, or it is thrown away. This file reads the
moves of an event off the code and shows that they account for all queues and wires. As moves do
not look at the packets, anything attached to the packets moves along with them.

`SendPfc` re-enters the transmit path, so the order of the moves is that of the nested calls. It is
the order of the source as long as class `0` takes every frame in: the nested call then serves that
class and does not nest further. From the first frame on that is refused, the moves are not those of
the packets of the switch any more.

## Main definitions

* `Switch.Slot`, `Switch.slots`: where packets are in a switch.
* `Switch.Move`, `Switch.Move.apply`: how they move.
* `Switch.stepMoves`: the moves of an event.

## Main results

* `Switch.slots_step`: the moves of an event lead from the packets before to those after it.
* `Switch.stepMoves_receive`, `Switch.stepMoves_receive_of_nothingLost`: what becomes of a packet
  that is received.
* `Switch.applyAll_quiet`, `Switch.lane_push`: moves keep the order of the packets of a class.
-/

namespace HpccSim

namespace Switch

/-- Where a packet is: in a class of the egress queue of a device, or on the wire behind it. -/
inductive Slot where
  | queue (d q : ℕ)
  | wire (d : ℕ)
  deriving DecidableEq

theorem Slot.wire_ne_queue (d d' q : ℕ) : Slot.wire d ≠ .queue d' q := nofun

/-- The packets of a switch. -/
def slots (s : Switch) : Slot → List Packet
  | .queue d q => s.held d q
  | .wire d => s.wire d

/-- A move of a packet. -/
inductive Move (α : Type*) where
  /-- It is queued. -/
  | push (d q : ℕ) (a : α)
  /-- The oldest one of a class goes on the wire. -/
  | send (d q : ℕ)
  /-- The oldest one of a class is thrown away. -/
  | discard (d q : ℕ)

namespace Move

variable {α β : Type*}

/-- What a move does. -/
def apply (S : Slot → List α) : Move α → Slot → List α
  | .push d q a => Function.update S (.queue d q) (S (.queue d q) ++ [a])
  | .send d q =>
    Function.update (Function.update S (.queue d q) (S (.queue d q)).tail) (.wire d)
      (S (.wire d) ++ (S (.queue d q)).head?.toList)
  | .discard d q => Function.update S (.queue d q) (S (.queue d q)).tail

/-- What some moves do, one after the other. -/
def applyAll (S : Slot → List α) (ms : List (Move α)) : Slot → List α := ms.foldl apply S

/-- The move of a packet to which something is attached. -/
def map (f : α → β) : Move α → Move β
  | .push d q a => .push d q (f a)
  | .send d q => .send d q
  | .discard d q => .discard d q

@[simp] theorem applyAll_nil (S : Slot → List α) : applyAll S [] = S := rfl

@[simp] theorem applyAll_cons (S : Slot → List α) (m : Move α) (ms : List (Move α)) :
    applyAll S (m :: ms) = applyAll (m.apply S) ms := rfl

theorem applyAll_append (S : Slot → List α) (ms ms' : List (Move α)) :
    applyAll S (ms ++ ms') = applyAll (applyAll S ms) ms' :=
  List.foldl_append

theorem apply_map (f : α → β) (S : Slot → List α) (m : Move α) :
    (m.map f).apply (fun k => (S k).map f) = fun k => ((m.apply S) k).map f := by
  funext k
  cases m with
  | push d q a =>
    simp only [map, apply, Function.update_apply]
    split_ifs <;> simp
  | send d q =>
    simp only [map, apply, Function.update_apply]
    split_ifs
    · cases S (.queue d q) <;> simp
    · simp
    · rfl
  | discard d q =>
    simp only [map, apply, Function.update_apply]
    split_ifs <;> simp

/-- What is attached to the packets moves with them. -/
theorem applyAll_map (f : α → β) (S : Slot → List α) (ms : List (Move α)) :
    applyAll (fun k => (S k).map f) (ms.map (Move.map f)) =
      fun k => ((applyAll S ms) k).map f := by
  induction ms generalizing S with
  | nil => rfl
  | cons m ms ih => rw [List.map_cons, applyAll_cons, apply_map, ih, applyAll_cons]

end Move

/-! ### The moves of an event -/

section Moves

variable (s : Switch)

/-- The packet that `DequeueAndTransmit` of a device takes, and the queue after it. -/
def serving (d : ℕ) : Option (Packet × BEgressQueue) :=
  if d < s.nDevices ∧ (s.devices d).linkUp ∧ (s.devices d).txBusy = false then
    (s.devices d).queue.dequeueRR (s.devices d).paused
  else
    none

/-- `BEgressQueue::Enqueue`. -/
def enqueueMoves (d q : ℕ) (p : Packet) : List (Move Packet) :=
  if (s.devices d).queue.accepts p q then [.push d q p] else []

/-- `DequeueAndTransmit` with a packet in class `0`. -/
def controlMoves (d : ℕ) : List (Move Packet) :=
  match s.serving d with
  | none => []
  | some (_, Q) => [.send d Q.qlast]

/-- `QbbNetDevice::SendPfc`. -/
def sendPfcMoves (d qIndex : ℕ) (type : PfcType) : List (Move Packet) :=
  s.enqueueMoves d 0 ((s.devices d).pfcFrame qIndex type) ++
    (s.enqueuePfc d qIndex type).controlMoves d

/-- `SwitchNode::CheckAndSendPfc`. -/
def checkAndSendPfcMoves (inDev qIndex : ℕ) : List (Move Packet) :=
  if s.mmu.checkShouldPause inDev qIndex then s.sendPfcMoves inDev qIndex .pause else []

/-- `SwitchNode::CheckAndSendResume`. -/
def checkAndSendResumeMoves (inDev qIndex : ℕ) : List (Move Packet) :=
  if s.mmu.checkShouldResume inDev qIndex then s.sendPfcMoves inDev qIndex .resume else []

/-- `QbbNetDevice::DequeueAndTransmit`. -/
def transmitMoves (d : ℕ) : List (Move Packet) :=
  match s.serving d with
  | none => []
  | some (p, Q) =>
    (if Q.qlast ≠ 0 then (s.departed d p Q).checkAndSendResumeMoves p.flowId Q.qlast else []) ++
      [.send d Q.qlast]

/-- `QbbNetDevice::SwitchSend`. -/
def switchSendMoves (d qIndex : ℕ) (p : Packet) : List (Move Packet) :=
  s.enqueueMoves d qIndex p ++ (s.enqueue d qIndex p).transmitMoves d

/-- `SwitchNode::SendToDev`. -/
def sendToDevMoves (idx : Option ℕ) (ch : Header) (p : Packet) : List (Move Packet) :=
  match idx with
  | none => []
  | some idx =>
    let qIndex := s.qIndexOf ch
    if qIndex ≠ 0 then
      if s.mmu.checkIngressAdmission p.flowId qIndex p.size ∧
          s.mmu.checkEgressAdmission idx qIndex p.size then
        ((s.log (.arrived p.flowId qIndex p.size)).charge idx qIndex p).checkAndSendPfcMoves
            p.flowId qIndex ++
          (s.takeIn idx qIndex p).switchSendMoves idx qIndex p
      else
        []
    else
      (s.countBytes idx 0 p).switchSendMoves idx 0 p

/-- The loop of `QbbNetDevice::TakeDown`. -/
def drainMoves (d : ℕ) : ℕ → BEgressQueue → List (Move Packet)
  | 0, _ => []
  | n + 1, Q =>
    match Q.dequeueRR fun _ => false with
    | none => []
    | some (_, Q') => .discard d Q'.qlast :: drainMoves d n Q'

/-- The moves of an event. -/
def stepMoves : Op → List (Move Packet)
  | .receive d ch size idx =>
    if (s.devices d).linkUp then s.sendToDevMoves idx ch ⟨size, d, none⟩ else []
  | .receivePfc d pfc =>
    if (s.devices d).linkUp ∧ (s.devices d).qbbEnabled ∧ ¬ pfc.time > 0 then
      (s.setPaused d pfc.qIndex false).transmitMoves d
    else
      []
  | .transmitComplete d => (s.setReady d).transmitMoves d
  | .takeDown d => drainMoves d (s.devices d).queue.packetCount (s.devices d).queue

end Moves

/-! ### Moves of class `0` do not meddle with the other classes -/

namespace Move

variable {α : Type*}

/-- The class of the packet that moves. -/
def qIndex : Move α → ℕ
  | .push _ q _ => q
  | .send _ q => q
  | .discard _ q => q

variable {S : Slot → List α} {m : Move α} {ms : List (Move α)} {d q : ℕ}

theorem apply_update (h : m.qIndex ≠ q) (l : List α) :
    m.apply (Function.update S (.queue d q) l) =
      Function.update (m.apply S) (.queue d q) l := by
  cases m with
  | push d' q' a =>
    have hne : Slot.queue d' q' ≠ .queue d q := fun heq => h (Slot.queue.inj heq).2
    rw [apply, apply, Function.update_of_ne hne, Function.update_comm hne]
  | send d' q' =>
    have hne : Slot.queue d' q' ≠ .queue d q := fun heq => h (Slot.queue.inj heq).2
    have hwire := Slot.wire_ne_queue d' d q
    rw [apply, apply, Function.update_of_ne hne, Function.update_of_ne hwire,
      Function.update_comm hne.symm, Function.update_comm hwire.symm]
  | discard d' q' =>
    have hne : Slot.queue d' q' ≠ .queue d q := fun heq => h (Slot.queue.inj heq).2
    rw [apply, apply, Function.update_of_ne hne, Function.update_comm hne]

theorem apply_queue (h : m.qIndex ≠ q) : m.apply S (.queue d q) = S (.queue d q) := by
  have hupdate := congrFun (apply_update (S := S) (d := d) h (S (.queue d q))) (.queue d q)
  rwa [Function.update_eq_self, Function.update_self] at hupdate

theorem applyAll_update (h : ∀ m ∈ ms, m.qIndex ≠ q) (l : List α) :
    applyAll (Function.update S (.queue d q) l) ms =
      Function.update (applyAll S ms) (.queue d q) l := by
  induction ms generalizing S with
  | nil => rfl
  | cons m ms ih =>
    rw [applyAll_cons, apply_update (h m List.mem_cons_self),
      ih fun m' hm' => h m' (List.mem_cons_of_mem m hm'), applyAll_cons]

theorem applyAll_queue (h : ∀ m ∈ ms, m.qIndex ≠ q) :
    applyAll S ms (.queue d q) = S (.queue d q) := by
  induction ms generalizing S with
  | nil => rfl
  | cons m ms ih =>
    rw [applyAll_cons, ih fun m' hm' => h m' (List.mem_cons_of_mem m hm'),
      apply_queue (h m List.mem_cons_self)]

end Move

/-! ### The moves account for the packets -/

section Slots

variable {s t : Switch} {d q i : ℕ} {p : Packet} {Q : BEgressQueue} {ty : PfcType}

open Move

theorem serving_eq_some_iff : s.serving d = some (p, Q) ↔ s.Serves d p Q := by
  rw [serving]
  constructor
  · intro h
    split_ifs at h with hready
    exact ⟨hready.1, hready.2.1, hready.2.2, h⟩
  · intro h
    rw [if_pos ⟨h.lt, h.linkUp, h.ready⟩, h.next]

theorem slots_congr (hheld : ∀ d q, t.held d q = s.held d q) (hwire : t.wire = s.wire) :
    t.slots = s.slots := by
  funext k
  cases k with
  | queue d q => exact hheld d q
  | wire d => exact congrFun hwire d

theorem slots_enqueue : (s.enqueue d q p).slots = applyAll s.slots (s.enqueueMoves d q p) := by
  rw [enqueueMoves]
  split_ifs with hacc
  · funext k
    rw [applyAll_cons, applyAll_nil, Move.apply, Function.update_apply]
    cases k with
    | queue d' q' =>
      simp only [slots, Slot.queue.injEq, held_enqueue, hacc, and_true]
    | wire d' => simp [slots, wire_enqueue]
  · exact slots_congr (fun d' q' => by rw [held_enqueue, if_neg fun h => hacc h.2.2])
      (wire_enqueue q)

/-- The packet served leaves its class. -/
theorem slots_setQueue (h : s.Serves d p Q) :
    (s.setQueue d Q).slots =
      Function.update s.slots (.queue d Q.qlast) (s.slots (.queue d Q.qlast)).tail := by
  obtain ⟨hheld, hrest⟩ := h.held_eq
  funext k
  rw [Function.update_apply]
  cases k with
  | queue d' q' =>
    simp only [slots, Slot.queue.injEq, held_setQueue, hheld, List.tail_cons]
    by_cases hd : d' = d
    · subst hd
      by_cases hq : q' = Q.qlast
      · simp [hq]
      · simp [hq, hrest q' hq]
    · simp [hd]
  | wire d' => simp [slots, setQueue, setDevice]

theorem slots_transmitStart :
    (s.transmitStart d p).slots = Function.update s.slots (.wire d) (s.wire d ++ [p]) := by
  funext k
  rw [Function.update_apply]
  cases k with
  | queue d' q' => simp [slots]
  | wire d' =>
    simp only [slots, transmitStart, Slot.wire.injEq, Function.update_apply]

/-- **A packet goes from its class to the wire**, also when packets of other classes have moved in
between. -/
theorem slots_send (ms : List (Move Packet)) (h : s.Serves d p Q)
    (hms : ∀ m ∈ ms, m.qIndex ≠ Q.qlast)
    (ht : t.slots = applyAll (s.setQueue d Q).slots ms) :
    (t.transmitStart d p).slots = applyAll s.slots (ms ++ [.send d Q.qlast]) := by
  have hqueue : (applyAll s.slots ms) (.queue d Q.qlast) = p :: Q.held Q.qlast := by
    rw [applyAll_queue hms]
    exact h.held_eq.1
  rw [slots_setQueue h, applyAll_update hms] at ht
  have hwire : t.wire d = applyAll s.slots ms (.wire d) := by
    change t.slots (.wire d) = _
    rw [ht, Function.update_of_ne (Slot.wire_ne_queue d d Q.qlast)]
  have htail : s.slots (.queue d Q.qlast) = p :: Q.held Q.qlast := h.held_eq.1
  rw [slots_transmitStart, applyAll_append, applyAll_cons, applyAll_nil, Move.apply, hqueue, hwire,
    ht, htail]
  rfl

/-- With a packet in class `0`, the call serves that class or none. -/
theorem controlMoves_of_held (h : s.held d 0 ≠ []) :
    (transmit d s).slots = applyAll s.slots (s.controlMoves d) ∧
      ∀ m ∈ s.controlMoves d, m.qIndex = 0 := by
  rw [transmit_eq, controlMoves]
  rcases dequeueAndTransmitBody_cases transmit d with ⟨heq, hno⟩ | ⟨p, Q, hserves, heq⟩
  · have hnone : s.serving d = none :=
      Option.eq_none_iff_forall_ne_some.2 fun r hsome => hno r.1 r.2 (serving_eq_some_iff.1 hsome)
    rw [hnone, heq]
    exact ⟨rfl, List.forall_mem_nil _⟩
  · have hq : Q.qlast = 0 := BEgressQueue.qlast_eq_zero hserves.next h
    rw [serving_eq_some_iff.2 hserves, heq, switchNotifyDequeue, if_neg (not_not.2 hq)]
    refine ⟨slots_send [] hserves (List.forall_mem_nil _) rfl, fun m hm => ?_⟩
    rw [List.mem_singleton.1 hm]
    exact hq

/-- A frame that is not lost, and what the nested call does. -/
theorem slots_sendPfc
    (hacc : (s.devices i).queue.accepts ((s.devices i).pfcFrame q ty) 0 = true) :
    (s.sendPfc transmit i q ty).slots = applyAll s.slots (s.sendPfcMoves i q ty) ∧
      ∀ m ∈ s.sendPfcMoves i q ty, m.qIndex = 0 := by
  have hheld : (s.enqueuePfc i q ty).held i 0 ≠ [] := by
    rw [enqueuePfc, held_enqueue, if_pos ⟨rfl, rfl, hacc⟩]
    exact List.append_ne_nil_of_right_ne_nil _ (List.cons_ne_nil _ _)
  obtain ⟨hslots, hzero⟩ := controlMoves_of_held hheld
  constructor
  · rw [sendPfc, hslots, sendPfcMoves, applyAll_append]
    congr 1
    exact slots_enqueue
  · intro m hm
    rcases List.mem_append.1 hm with hm | hm
    · rw [enqueueMoves, if_pos hacc] at hm
      rw [List.mem_singleton.1 hm]
      rfl
    · exact hzero m hm

theorem slots_checkAndSendPfc (h : NoControlLost (s.checkAndSendPfc transmit i q).trace) :
    (s.checkAndSendPfc transmit i q).slots =
      applyAll s.slots (s.checkAndSendPfcMoves i q) := by
  rw [checkAndSendPfc, checkAndSendPfcMoves] at *
  split_ifs at h ⊢ with hpause
  · have hacc := accepts_of_noControlLost (Continues.transmit i (s.enqueuePfc i q .pause))
      (h.suffix (Continues.setPause _ i q).suffix)
    rw [← (slots_sendPfc hacc).1]
    rfl
  · rfl

/-- **The moves of `DequeueAndTransmit`.** -/
theorem slots_transmit (h : NoControlLost (transmit d s).trace) :
    (transmit d s).slots = applyAll s.slots (s.transmitMoves d) := by
  rw [transmit_eq, transmitMoves] at *
  rcases dequeueAndTransmitBody_cases transmit d with ⟨heq, hno⟩ | ⟨p, Q, hserves, heq⟩
  · have hnone : s.serving d = none :=
      Option.eq_none_iff_forall_ne_some.2 fun r hsome => hno r.1 r.2 (serving_eq_some_iff.1 hsome)
    rw [hnone, heq]
    rfl
  · rw [serving_eq_some_iff.2 hserves, heq]
    rw [heq, switchNotifyDequeue] at h
    rw [switchNotifyDequeue]
    dsimp only
    split_ifs at h ⊢ with hq
    · rw [checkAndSendResume] at h ⊢
      change NoControlLost (transmitStart (if (s.departed d p Q).mmu.checkShouldResume _ _ = true
        then _ else _) _ _).trace at h
      change (transmitStart (if (s.departed d p Q).mmu.checkShouldResume _ _ = true
        then _ else _) _ _).slots = _
      rw [checkAndSendResumeMoves]
      split_ifs at h ⊢ with hres
      · have hacc := accepts_of_noControlLost
          (Continues.transmit p.flowId ((s.departed d p Q).enqueuePfc p.flowId Q.qlast .resume))
          (h.suffix ((Continues.setResume _ p.flowId Q.qlast).trans (.transmitStart _ d p)).suffix)
        obtain ⟨hslots, hzero⟩ := slots_sendPfc hacc
        exact slots_send _ hserves (fun m hm => hzero m hm ▸ Ne.symm hq) hslots
      · exact slots_send [] hserves (List.forall_mem_nil _) rfl
    · exact slots_send [] hserves (List.forall_mem_nil _) rfl

theorem slots_switchSend (h : NoControlLost (s.switchSend transmit d q p).trace) :
    (s.switchSend transmit d q p).slots = applyAll s.slots (s.switchSendMoves d q p) := by
  rw [switchSend, slots_transmit h, slots_enqueue, switchSendMoves, applyAll_append]

/-- **The moves of `SendToDev`.** -/
theorem slots_sendToDev {idx : Option ℕ} {ch : Header}
    (h : NoControlLost (s.sendToDev idx ch p).trace) :
    (s.sendToDev idx ch p).slots = applyAll s.slots (s.sendToDevMoves idx ch p) := by
  cases idx with
  | none => rfl
  | some idx =>
    rw [sendToDev, sendToDevMoves] at *
    dsimp only at h ⊢
    by_cases hq : s.qIndexOf ch ≠ 0
    · rw [if_pos hq] at h ⊢
      rw [if_pos hq]
      by_cases hadm : s.mmu.checkIngressAdmission p.flowId (s.qIndexOf ch) p.size ∧
          s.mmu.checkEgressAdmission idx (s.qIndexOf ch) p.size
      · rw [mmu_log, if_pos hadm] at h ⊢
        rw [if_pos hadm]
        have hcount : ∀ t : Switch, (t.countBytes idx (s.qIndexOf ch) p).slots = t.slots :=
          fun _ => rfl
        have hpause := h.suffix (Continues.switchSend _ _ _ _).suffix
        rw [slots_switchSend h, hcount, slots_checkAndSendPfc hpause, applyAll_append]
        rfl
      · rw [mmu_log, if_neg hadm, if_neg hadm]
        rfl
    · rw [if_neg hq] at h ⊢
      rw [if_neg hq]
      rw [not_not.1 hq] at h ⊢
      exact slots_switchSend h

theorem held_drain (d n : ℕ) (Q : BEgressQueue) (S : Slot → List Packet)
    (hS : ∀ q, S (.queue d q) = Q.held q) (q : ℕ) :
    applyAll S (drainMoves d n Q) (.queue d q) = (Q.drain n).held q := by
  induction n generalizing Q S with
  | zero => exact hS q
  | succ n ih =>
    rw [drainMoves, BEgressQueue.drain]
    cases hnext : Q.dequeueRR fun _ => false with
    | none => exact hS q
    | some r =>
      obtain ⟨-, hheld, hrest, -⟩ := BEgressQueue.dequeueRR_eq_some hnext
      refine ih r.2 _ fun q' => ?_
      rw [Move.apply, Function.update_apply]
      split_ifs with hq
      · rw [(Slot.queue.inj hq).2, hS, hheld, List.tail_cons]
      · rw [hS, hrest q' fun heq => hq (heq ▸ rfl)]

theorem applyAll_drainMoves (d n : ℕ) (Q : BEgressQueue) (S : Slot → List Packet) {k : Slot}
    (hk : ∀ q, k ≠ .queue d q) : applyAll S (drainMoves d n Q) k = S k := by
  induction n generalizing Q S with
  | zero => rfl
  | succ n ih =>
    rw [drainMoves]
    cases Q.dequeueRR fun _ => false with
    | none => rfl
    | some r => exact (ih r.2 _).trans (Function.update_of_ne (hk _) _ _)

theorem slots_takeDown : (s.takeDown d).slots =
    applyAll s.slots (drainMoves d (s.devices d).queue.packetCount (s.devices d).queue) := by
  funext k
  cases k with
  | queue d' q =>
    by_cases hd : d' = d
    · subst hd
      rw [held_drain d' _ _ _ (fun q => rfl) q]
      exact (held_setDevice _ d' q).trans (if_pos rfl)
    · rw [applyAll_drainMoves d _ _ _ fun q' heq => hd (Slot.queue.inj heq).1]
      exact (held_setDevice _ d' q).trans (if_neg hd)
  | wire d' => rw [applyAll_drainMoves d _ _ _ fun q' => Slot.wire_ne_queue d' d q']; rfl

/-- **The moves of an event** lead from the packets before it to those after it, as long as class
`0` takes every frame in. -/
theorem slots_step {op : Op} (hstep : s.step op = some t) (h : NoControlLost t.trace) :
    t.slots = applyAll s.slots (s.stepMoves op) := by
  have hready : ∀ d, (s.setReady d).slots = s.slots := fun d => slots_congr held_setReady rfl
  have hpaused : ∀ d q b, (s.setPaused d q b).slots = s.slots := fun d q b =>
    slots_congr (held_setPaused b) rfl
  cases op with
  | receive d ch size idx =>
    simp only [step] at hstep
    split_ifs at hstep
    cases hstep
    rw [receive, stepMoves] at *
    split_ifs at h ⊢
    · exact slots_sendToDev h
    · rfl
  | receivePfc d pfc =>
    simp only [step] at hstep
    split_ifs at hstep
    cases hstep
    rw [receivePfc] at h ⊢
    rw [stepMoves]
    by_cases hup : (s.devices d).linkUp = true
    · by_cases hqbb : (s.devices d).qbbEnabled = true
      · by_cases htime : pfc.time > 0
        · simp only [hup, hqbb, htime, not_true, and_false, if_true, if_false] at h ⊢
          exact hpaused d pfc.qIndex true
        · simp only [hup, hqbb, htime, Bool.not_true, Bool.false_eq_true, not_false_iff, and_self,
            if_true, if_false] at h ⊢
          rw [slots_transmit h, hpaused]
      · simp [hup, hqbb]
    · simp [hup]
  | transmitComplete d =>
    simp only [step] at hstep
    split_ifs at hstep
    cases hstep
    rw [transmitComplete] at h ⊢
    rw [slots_transmit h, hready]
    rfl
  | takeDown d =>
    simp only [step] at hstep
    split_ifs at hstep
    cases hstep
    exact slots_takeDown

/-- No packet is thrown away, and only PFC frames are queued. -/
def Move.OnlyFrames : Move Packet → Prop
  | .push _ _ p => p.pfc ≠ none
  | .send _ _ => True
  | .discard _ _ => False

theorem onlyFrames_sendPfcMoves : ∀ m ∈ s.sendPfcMoves d q ty, m.OnlyFrames := by
  intro m hm
  rcases List.mem_append.1 hm with hm | hm
  · rw [enqueueMoves] at hm
    split_ifs at hm
    · rw [List.mem_singleton.1 hm]
      exact Option.some_ne_none _
    · cases hm
  · rw [controlMoves] at hm
    cases hserving : (s.enqueuePfc d q ty).serving d with
    | none => rw [hserving] at hm; cases hm
    | some r =>
      rw [hserving] at hm
      rw [List.mem_singleton.1 hm]
      trivial

theorem onlyFrames_checkAndSendPfcMoves :
    ∀ m ∈ s.checkAndSendPfcMoves d q, m.OnlyFrames := by
  rw [checkAndSendPfcMoves]
  split_ifs
  · exact onlyFrames_sendPfcMoves
  · exact nofun

theorem onlyFrames_transmitMoves : ∀ m ∈ s.transmitMoves d, m.OnlyFrames := by
  intro m hm
  rw [transmitMoves] at hm
  cases hserving : s.serving d with
  | none => rw [hserving] at hm; cases hm
  | some r =>
    rw [hserving] at hm
    rcases List.mem_append.1 hm with hm | hm
    · rw [checkAndSendResumeMoves] at hm
      split_ifs at hm
      · exact onlyFrames_sendPfcMoves m hm
      · cases hm
      · cases hm
    · rw [List.mem_singleton.1 hm]
      trivial

/-- **What is queued in an event**: frames and, for a packet that is received, at most that packet
once, at the device it is routed to and in its class. -/
theorem stepMoves_receive (s : Switch) (d : ℕ) (ch : Header) (size : UInt32) (idx : Option ℕ) :
    (∀ m ∈ s.stepMoves (.receive d ch size idx), m.OnlyFrames) ∨
    ∃ i ∈ idx, ∃ ms ms', s.stepMoves (.receive d ch size idx) =
        ms ++ .push i (s.qIndexOf ch) ⟨size, d, none⟩ :: ms' ∧
      (∀ m ∈ ms, m.OnlyFrames) ∧ ∀ m ∈ ms', m.OnlyFrames := by
  have hsend : ∀ (t : Switch) (i q : ℕ) (p : Packet),
      (∀ m ∈ t.switchSendMoves i q p, m.OnlyFrames) ∨
      ∃ ms', t.switchSendMoves i q p = .push i q p :: ms' ∧ ∀ m ∈ ms', m.OnlyFrames := by
    intro t i q p
    rw [switchSendMoves, enqueueMoves]
    split_ifs
    · exact .inr ⟨_, rfl, onlyFrames_transmitMoves⟩
    · exact .inl onlyFrames_transmitMoves
  rw [stepMoves]
  split_ifs
  · cases idx with
    | none => exact .inl nofun
    | some i =>
      rw [sendToDevMoves]
      dsimp only
      split_ifs with hq hadm
      · rcases hsend (s.takeIn i (s.qIndexOf ch) ⟨size, d, none⟩) i (s.qIndexOf ch)
          ⟨size, d, none⟩ with honly | ⟨ms', heq, honly⟩
        · refine .inl fun m hm => ?_
          rcases List.mem_append.1 hm with hm | hm
          · exact onlyFrames_checkAndSendPfcMoves m hm
          · exact honly m hm
        · exact .inr ⟨i, rfl, _, ms', by rw [heq], onlyFrames_checkAndSendPfcMoves, honly⟩
      · exact .inl nofun
      · rw [not_not.1 hq]
        rcases hsend (s.countBytes i 0 ⟨size, d, none⟩) i 0 ⟨size, d, none⟩ with
          honly | ⟨ms', heq, honly⟩
        · exact .inl honly
        · exact .inr ⟨i, rfl, [], ms', heq, nofun, honly⟩
  · exact .inl nofun

/-- Nothing but frames is queued in another event, unless a device is taken down. -/
theorem onlyFrames_stepMoves {op : Op} (hreceive : ∀ d ch size idx, op ≠ .receive d ch size idx)
    (hdown : ∀ d, op ≠ .takeDown d) : ∀ m ∈ s.stepMoves op, m.OnlyFrames := by
  cases op with
  | receive d ch size idx => exact absurd rfl (hreceive d ch size idx)
  | receivePfc d pfc =>
    rw [stepMoves]
    split_ifs
    · exact onlyFrames_transmitMoves
    · exact nofun
  | transmitComplete d => exact onlyFrames_transmitMoves
  | takeDown d => exact absurd rfl (hdown d)

/-- Only packets of the device that is taken down are thrown away. -/
theorem drainMoves_eq_map (d n : ℕ) (Q : BEgressQueue) :
    ∃ qs : List ℕ, drainMoves d n Q = qs.map (.discard d) := by
  induction n generalizing Q with
  | zero => exact ⟨[], rfl⟩
  | succ n ih =>
    rw [drainMoves]
    cases Q.dequeueRR fun _ => false with
    | none => exact ⟨[], rfl⟩
    | some r =>
      obtain ⟨qs, hqs⟩ := ih r.2
      exact ⟨r.2.qlast :: qs, by rw [List.map_cons, ← hqs]⟩

end Slots

/-! ### Links and losses -/

/-- No link goes up or down, and the priorities stay. -/
structure SameLinks (s t : Switch) : Prop where
  ackHighPrio : t.ackHighPrio = s.ackHighPrio
  linkUp : ∀ d, (t.devices d).linkUp = (s.devices d).linkUp

namespace SameLinks

variable {s t u : Switch} {d q : ℕ} {p : Packet}

theorem refl (s : Switch) : SameLinks s s := ⟨rfl, fun _ => rfl⟩

theorem trans (h : SameLinks s t) (h' : SameLinks t u) : SameLinks s u :=
  ⟨h'.ackHighPrio.trans h.ackHighPrio, fun d => (h'.linkUp d).trans (h.linkUp d)⟩

theorem setDevice (dev : Device) (h : dev.linkUp = (s.devices d).linkUp) :
    SameLinks s (s.setDevice d dev) := by
  refine ⟨rfl, fun d' => ?_⟩
  change (Function.update s.devices d dev d').linkUp = _
  rw [Function.update_apply]
  split_ifs with hd
  · rw [h, hd]
  · rfl

theorem enqueue (s : Switch) (d q : ℕ) (p : Packet) : SameLinks s (s.enqueue d q p) := by
  have hset : SameLinks s (s.setQueue d ((s.devices d).queue.enqueue p q).2) :=
    setDevice { s.devices d with queue := _ } rfl
  rw [Switch.enqueue]
  split_ifs
  · exact hset
  · exact ⟨hset.ackHighPrio, hset.linkUp⟩

theorem enqueuePfc (s : Switch) (d q : ℕ) (ty : PfcType) : SameLinks s (s.enqueuePfc d q ty) :=
  have h := enqueue (s.log (.sentPfc d q ty)) d 0 ((s.devices d).pfcFrame q ty)
  ⟨h.ackHighPrio, h.linkUp⟩

theorem transmitStart (s : Switch) (d : ℕ) (p : Packet) : SameLinks s (s.transmitStart d p) :=
  have h := setDevice (s := s) (d := d) { s.devices d with txBusy := true } rfl
  ⟨h.ackHighPrio, h.linkUp⟩

theorem departed (s : Switch) (d : ℕ) (p : Packet) (Q : BEgressQueue) :
    SameLinks s (s.departed d p Q) :=
  have h := setDevice (s := s) (d := d) { s.devices d with queue := Q } rfl
  ⟨h.ackHighPrio, h.linkUp⟩

theorem setResume (s : Switch) (i q : ℕ) : SameLinks s (s.setResume i q) := ⟨rfl, fun _ => rfl⟩

theorem setPause (s : Switch) (i q : ℕ) : SameLinks s (s.setPause i q) := ⟨rfl, fun _ => rfl⟩

theorem setReady (s : Switch) (d : ℕ) : SameLinks s (s.setReady d) :=
  setDevice { s.devices d with txBusy := false } rfl

theorem setPaused (s : Switch) (d q : ℕ) (b : Bool) : SameLinks s (s.setPaused d q b) :=
  setDevice { s.devices d with paused := _ } rfl

theorem transmit (d : ℕ) (s : Switch) : SameLinks s (transmit d s) := by
  refine transmit_rel (R := SameLinks) refl ?_ ?_ ?_ d s
  · intro s d p Q _ _
    exact (setDevice { s.devices d with queue := Q } rfl).trans (transmitStart _ d p)
  · intro s d p Q _ _ _
    exact (departed s d p Q).trans (transmitStart _ d p)
  · intro s d p Q t _ _ _ ht _
    exact (((departed s d p Q).trans (enqueuePfc _ _ _ _)).trans ht).trans
      ((setResume t _ _).trans (transmitStart _ d p))

theorem checkAndSendPfc (s : Switch) (i q : ℕ) :
    SameLinks s (s.checkAndSendPfc Switch.transmit i q) := by
  rw [Switch.checkAndSendPfc]
  split_ifs
  · exact ((enqueuePfc s i q .pause).trans (transmit i _)).trans (setPause _ i q)
  · exact refl s

theorem takeIn (s : Switch) (i q : ℕ) (p : Packet) : SameLinks s (s.takeIn i q p) := by
  have h := checkAndSendPfc ((s.log (.arrived p.flowId q p.size)).charge i q p) p.flowId q
  exact ⟨h.ackHighPrio, h.linkUp⟩

theorem sendToDev (s : Switch) (idx : Option ℕ) (ch : Header) (p : Packet) :
    SameLinks s (s.sendToDev idx ch p) := by
  have hsend : ∀ (t : Switch) (i q : ℕ), SameLinks t (t.switchSend Switch.transmit i q p) :=
    fun t i q => (enqueue t i q p).trans (transmit i _)
  rcases sendToDev_cases s idx ch p with heq | ⟨i, -, heq⟩ | ⟨-, -, heq⟩ | ⟨i, -, -, -, heq⟩
  all_goals rw [heq]
  · exact refl s
  · have h := hsend (s.countBytes i 0 p) i 0
    exact ⟨h.ackHighPrio, h.linkUp⟩
  · exact ⟨rfl, fun _ => rfl⟩
  · exact (takeIn s i _ p).trans (hsend _ i _)

/-- Only `TakeDown` changes links. -/
theorem step {op : Switch.Op} (hstep : s.step op = some t) (hop : ∀ d, op ≠ .takeDown d) :
    SameLinks s t := by
  rcases step_cases hstep with rfl | ⟨d, ch, n, idx, -, -, -, rfl⟩ | ⟨d, q, rfl⟩ | ⟨d, q, rfl⟩ |
    ⟨d, rfl⟩ | ⟨d, heq, -⟩
  · exact refl t
  · exact sendToDev s idx ch _
  · exact setPaused s d q true
  · exact (setPaused s d q false).trans (transmit d _)
  · exact (setReady s d).trans (transmit d _)
  · exact absurd heq (hop d)

end SameLinks

/-- The priorities stay in any event. -/
theorem ackHighPrio_step {s t : Switch} {op : Op} (hstep : s.step op = some t) :
    t.ackHighPrio = s.ackHighPrio := by
  by_cases hop : ∀ d, op ≠ .takeDown d
  · exact (SameLinks.step hstep hop).ackHighPrio
  · simp only [ne_eq, not_forall, not_not] at hop
    obtain ⟨d, rfl⟩ := hop
    simp only [step] at hstep
    split_ifs at hstep
    cases hstep
    rfl

/-- No packet has been refused by the admission control or by an egress queue. -/
def NothingLost (l : List Event) : Prop :=
  (∀ d q n, .dropped d q n ∉ l) ∧ ∀ d q p, .lost d q p ∉ l

instance (l : List Event) : Decidable (NothingLost l) :=
  decidable_of_iff (l.all (fun
    | .dropped .. => false
    | .lost .. => false
    | _ => true) = true) <| by
      rw [List.all_eq_true]
      constructor
      · intro h
        exact ⟨fun d q n hmem => absurd (h _ hmem) Bool.false_ne_true,
          fun d q p hmem => absurd (h _ hmem) Bool.false_ne_true⟩
      · rintro ⟨hdropped, hlost⟩ e he
        cases e with
        | dropped d q n => exact absurd he (hdropped d q n)
        | lost d q p => exact absurd he (hlost d q p)
        | _ => rfl

theorem NothingLost.suffix {l l' : List Event} (h : NothingLost l) (hl : l' <:+ l) :
    NothingLost l' :=
  ⟨fun d q n hmem => h.1 d q n (hl.subset hmem), fun d q p hmem => h.2 d q p (hl.subset hmem)⟩

/-- **When nothing is lost, a packet that is received is queued.** -/
theorem stepMoves_receive_of_nothingLost {s t : Switch} {d i : ℕ} {ch : Header} {size : UInt32}
    (hstep : s.step (.receive d ch size (some i)) = some t) (hup : (s.devices d).linkUp = true)
    (h : NothingLost t.trace) :
    ∃ ms ms', s.stepMoves (.receive d ch size (some i)) =
        ms ++ .push i (s.qIndexOf ch) ⟨size, d, none⟩ :: ms' ∧
      (∀ m ∈ ms, m.OnlyFrames) ∧ ∀ m ∈ ms', m.OnlyFrames := by
  have hsend : ∀ (t : Switch) (q : ℕ) (p : Packet),
      NothingLost (t.switchSend transmit i q p).trace →
      t.switchSendMoves i q p = .push i q p :: (t.enqueue i q p).transmitMoves i := by
    intro t q p hlost
    have hacc : (t.devices i).queue.accepts p q = true := by
      by_contra hacc
      have htrace := trace_enqueue t i q p
      rw [if_neg hacc] at htrace
      exact (hlost.suffix (Continues.transmit i (t.enqueue i q p)).suffix).2 i q p
        (htrace ▸ List.mem_cons_self)
    rw [switchSendMoves, enqueueMoves, if_pos hacc]
    rfl
  simp only [step] at hstep
  split_ifs at hstep
  cases hstep
  rw [receive, if_pos hup, sendToDev] at h
  rw [stepMoves, if_pos hup, sendToDevMoves]
  dsimp only at h ⊢
  by_cases hq : s.qIndexOf ch ≠ 0
  · rw [if_pos hq] at h ⊢
    by_cases hadm : s.mmu.checkIngressAdmission d (s.qIndexOf ch) size ∧
        s.mmu.checkEgressAdmission i (s.qIndexOf ch) size
    · rw [mmu_log, if_pos hadm] at h
      have htaken := hsend (s.takeIn i (s.qIndexOf ch) ⟨size, d, none⟩) _ _ h
      rw [if_pos hadm, htaken]
      exact ⟨_, _, rfl, onlyFrames_checkAndSendPfcMoves, onlyFrames_transmitMoves⟩
    · rw [mmu_log, if_neg hadm] at h
      exact absurd List.mem_cons_self (h.1 d (s.qIndexOf ch) size)
  · rw [if_neg hq, not_not.1 hq] at h
    rw [if_neg hq, not_not.1 hq, hsend _ _ _ h]
    exact ⟨[], _, rfl, List.forall_mem_nil _, onlyFrames_transmitMoves⟩

/-! ### The order of the packets of a class -/

section Lane

variable {α : Type*} (sel : α → Bool) (d q : ℕ)

/-- The packets selected that leave by the device `d` and have waited in its class `q`. -/
def lane (S : Slot → List α) : List α := (S (.wire d) ++ S (.queue d q)).filter sel

/-- The packets selected wait in the class `q` of the device `d` or have left by `d`. -/
def Confined (S : Slot → List α) : Prop :=
  ∀ k, k ≠ .wire d → k ≠ .queue d q → ∀ a ∈ S k, sel a = false

/-- No packet is thrown away, and none of those selected is queued. -/
def Move.Quiet : Move α → Prop
  | .push _ _ a => sel a = false
  | .send _ _ => True
  | .discard _ _ => False

variable {sel d q} {S : Slot → List α} {m : Move α} {ms : List (Move α)} {a : α}

theorem Confined.update {k : Slot} {l : List α} (h : Confined sel d q S)
    (hk : k ≠ .wire d → k ≠ .queue d q → ∀ a ∈ l, sel a = false) :
    Confined sel d q (Function.update S k l) := by
  intro k' hwire hqueue a ha
  rw [Function.update_apply] at ha
  split_ifs at ha with heq
  · subst heq
    exact hk hwire hqueue a ha
  · exact h k' hwire hqueue a ha

theorem Confined.pop (h : Confined sel d q S) (d' q' : ℕ) :
    Confined sel d q (Function.update S (.queue d' q') (S (.queue d' q')).tail) :=
  h.update fun hwire hqueue a ha => h _ hwire hqueue a (List.mem_of_mem_tail ha)

/-- A packet at the head of another class is not selected. -/
theorem Confined.head (h : Confined sel d q S) {d' q' : ℕ} (hne : Slot.queue d' q' ≠ .queue d q) :
    ∀ a ∈ (S (.queue d' q')).head?.toList, sel a = false := fun a ha =>
  h (.queue d' q') (Slot.wire_ne_queue d d' q').symm hne a
    (List.mem_of_mem_head? (Option.mem_toList.1 ha))

theorem Confined.apply (h : Confined sel d q S)
    (hpush : ∀ d' q' a, m = .push d' q' a → sel a = true → d' = d ∧ q' = q) :
    Confined sel d q (m.apply S) := by
  cases m with
  | push d' q' a =>
    refine h.update fun hwire hqueue b hb => ?_
    rcases List.mem_append.1 hb with hb | hb
    · exact h _ hwire hqueue b hb
    · rw [List.mem_singleton.1 hb, Bool.eq_false_iff]
      intro hsel
      obtain ⟨rfl, rfl⟩ := hpush d' q' a rfl hsel
      exact hqueue rfl
  | send d' q' =>
    refine (h.pop d' q').update fun hwire hqueue b hb => ?_
    rcases List.mem_append.1 hb with hb | hb
    · exact h _ hwire hqueue b hb
    · exact h.head (fun heq => hwire (by rw [(Slot.queue.inj heq).1])) b hb
  | discard d' q' => exact h.pop d' q'

/-- **A quiet move leaves the packets selected in their order.** -/
theorem lane_apply (h : Confined sel d q S) (hm : m.Quiet sel) :
    lane sel d q (m.apply S) = lane sel d q S := by
  rw [lane, lane]
  cases m with
  | push d' q' a =>
    have hwire := Slot.wire_ne_queue d d' q'
    have hsel : sel a = false := hm
    rw [Move.apply, Function.update_of_ne hwire, Function.update_apply]
    split_ifs with heq
    · rw [heq]
      simp [hsel]
    · rfl
  | send d' q' =>
    have hqueue : (Slot.queue d q) ≠ .wire d' := (Slot.wire_ne_queue d' d q).symm
    have hwire := Slot.wire_ne_queue d d' q'
    rw [Move.apply, Function.update_of_ne hqueue]
    by_cases hslot : Slot.queue d' q' = .queue d q
    · obtain ⟨rfl, rfl⟩ := Slot.queue.inj hslot
      rw [Function.update_self, Function.update_self, List.append_assoc]
      cases S (.queue d' q') <;> rfl
    · rw [Function.update_of_ne fun heq => hslot heq.symm, Function.update_apply]
      split_ifs with heq
      · obtain rfl := Slot.wire.inj heq
        have hhead : (S (.queue d q')).head?.toList.filter sel = [] :=
          List.filter_eq_nil_iff.2 fun a ha => by simp [h.head hslot a ha]
        rw [List.append_assoc, List.filter_append, List.filter_append, List.filter_append, hhead,
          List.nil_append]
      · rw [Function.update_of_ne hwire]
  | discard d' q' => exact absurd hm nofun

theorem applyAll_quiet (h : Confined sel d q S) (hms : ∀ m ∈ ms, m.Quiet sel) :
    Confined sel d q (Move.applyAll S ms) ∧
      lane sel d q (Move.applyAll S ms) = lane sel d q S := by
  induction ms generalizing S with
  | nil => exact ⟨h, rfl⟩
  | cons m ms ih =>
    have hm := hms m List.mem_cons_self
    have hconf : Confined sel d q (m.apply S) := h.apply fun d' q' a heq hsel => by
      subst heq
      exact absurd hsel (Bool.eq_false_iff.1 hm)
    obtain ⟨hconf', hlane⟩ := ih hconf fun m' hm' => hms m' (List.mem_cons_of_mem m hm')
    exact ⟨hconf', hlane.trans (lane_apply h hm)⟩

/-- A packet selected comes last. -/
theorem lane_push (ha : sel a = true) :
    lane sel d q ((Move.push d q a).apply S) = lane sel d q S ++ [a] := by
  rw [lane, lane, Move.apply, Function.update_self,
    Function.update_of_ne (Slot.wire_ne_queue d d q)]
  simp [ha]

/-- A packet selected is put on the wire behind an empty class. -/
theorem lane_wire (hqueue : ∀ b ∈ S (.queue d q), sel b = false) (ha : sel a = true) :
    lane sel d q (Function.update S (.wire d) (S (.wire d) ++ [a])) = lane sel d q S ++ [a] := by
  have hnil : (S (.queue d q)).filter sel = [] :=
    List.filter_eq_nil_iff.2 fun b hb => by simp [hqueue b hb]
  rw [lane, lane, Function.update_self, Function.update_of_ne (Slot.wire_ne_queue d d q).symm,
    List.filter_append, List.filter_append, List.filter_append, hnil, List.append_nil,
    List.append_nil, List.filter_cons_of_pos ha, List.filter_nil]

/-- A packet that is not selected changes nothing. -/
theorem lane_append_of_not {k : Slot} (ha : sel a = false) :
    lane sel d q (Function.update S k (S k ++ [a])) = lane sel d q S := by
  have hslot : ∀ k', (Function.update S k (S k ++ [a]) k').filter sel = (S k').filter sel := by
    intro k'
    rw [Function.update_apply]
    split_ifs with heq
    · rw [heq, List.filter_append, List.filter_cons_of_neg (Bool.eq_false_iff.1 ha),
        List.filter_nil, List.append_nil]
    · rfl
  rw [lane, lane, List.filter_append, List.filter_append, hslot, hslot]

/-- A class is emptied. -/
theorem lane_clear (d' q' : ℕ) :
    (lane sel d q (Function.update S (.queue d' q') [])).Sublist (lane sel d q S) := by
  rw [lane, lane, Function.update_of_ne (Slot.wire_ne_queue d d' q')]
  refine List.Sublist.filter sel (List.Sublist.append_left ?_ _)
  rw [Function.update_apply]
  split_ifs
  · exact List.nil_sublist _
  · exact List.Sublist.refl _

/-- Those that are thrown away leave the order of the others. -/
theorem lane_discard (d' q' : ℕ) :
    (lane sel d q ((Move.discard d' q').apply S)).Sublist (lane sel d q S) := by
  rw [lane, lane, Move.apply, Function.update_of_ne (Slot.wire_ne_queue d d' q')]
  refine List.Sublist.filter sel (List.Sublist.append_left ?_ _)
  rw [Function.update_apply]
  split_ifs with heq
  · rw [heq]
    exact List.tail_sublist _
  · exact List.Sublist.refl _

theorem applyAll_discard (h : Confined sel d q S) (d' : ℕ) (qs : List ℕ) :
    Confined sel d q (Move.applyAll S (qs.map (Move.discard d'))) ∧
      (lane sel d q (Move.applyAll S (qs.map (Move.discard d')))).Sublist (lane sel d q S) := by
  induction qs generalizing S with
  | nil => exact ⟨h, List.Sublist.refl _⟩
  | cons q' qs ih =>
    have hnext : Confined sel d q ((Move.discard d' q' : Move α).apply S) := h.apply nofun
    obtain ⟨hconf, hlane⟩ := ih hnext
    exact ⟨hconf, hlane.trans (lane_discard d' q')⟩

end Lane

end Switch

end HpccSim
