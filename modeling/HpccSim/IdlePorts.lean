import HpccSim.SwitchNode

/-!
# Idle ports

Whatever is put in the queue of a port, and whenever its transmission or a pause ends, the switch
calls `DequeueAndTransmit` for the port. So between the events no port that is ready has a packet
that it may send, and within an event the one for which the call is made is the only such port.

## Main definitions

* `Switch.served`: what `DequeueAndTransmit` takes out of the queue of a port.
* `DropTailQueue.Counted`: the queue counts the bytes it holds, modulo `2 ^ 32`.
* `Switch.Settled`: the ports outside of a set have nothing to send, and all queues count.

## Main results

* `Switch.Settled.transmit`: `DequeueAndTransmit` settles the port it is called for.
* `Switch.Settled.step`: all ports are settled between the events.
-/

namespace HpccSim

/-! ### The queues -/

/-- A queue with the attribute defaults, which counts its bytes modulo `2 ^ 32`. -/
structure DropTailQueue.Counted (D : DropTailQueue) : Prop where
  mode : D.mode = .bytes
  maxBytes : D.maxBytes = 30000 * 65535
  bytes : D.bytesInQueue.toNat = (D.packets.map fun p => p.size.toNat).sum % 2 ^ 32

namespace DropTailQueue.Counted

variable {D D' : DropTailQueue} {p : Packet}

theorem default : DropTailQueue.default.Counted := ⟨rfl, rfl, rfl⟩

theorem enqueue (h : D.Counted) (p : Packet) : (D.enqueue p).Counted := by
  rw [DropTailQueue.enqueue]
  split_ifs
  · refine ⟨h.mode, h.maxBytes, ?_⟩
    rw [UInt32.toNat_add, h.bytes, List.map_append, List.sum_append, Nat.mod_add_mod]
    rfl
  · exact h

theorem dequeue (h : D.Counted) (hD : D.dequeue = some (p, D')) : D'.Counted := by
  rw [DropTailQueue.dequeue] at hD
  split at hD
  · cases hD
  · next rest hpackets =>
    cases hD
    refine ⟨h.mode, h.maxBytes, ?_⟩
    have hbytes := h.bytes
    rw [hpackets, List.map_cons, List.sum_cons] at hbytes
    have hlt := p.size.toNat_lt
    have hsub : (D.bytesInQueue - p.size).toNat =
        (rest.map fun p => p.size.toNat).sum % 2 ^ 32 := by
      rw [UInt32.toNat_sub, hbytes]
      omega
    exact hsub

/-- An empty queue takes in a packet that is smaller than the bound. -/
theorem accepts_of_nil (h : D.Counted) (hnil : D.packets = [])
    (hp : p.size.toNat < 30000 * 65535) : D.accepts p = true := by
  have hbytes := h.bytes
  rw [hnil] at hbytes
  obtain hzero : D.bytesInQueue = 0 := UInt32.toNat_inj.1 hbytes
  have hlt : p.size < 1966050000 := UInt32.lt_iff_toNat_lt.2 hp
  simp [accepts, h.mode, h.maxBytes, hzero, hlt]

end DropTailQueue.Counted

namespace BEgressQueue

variable {Q Q' : BEgressQueue} {p : Packet} {paused paused' : ℕ → Bool}

/-- All classes count their bytes. -/
def Counted (Q : BEgressQueue) : Prop := ∀ q, (Q.queues q).Counted

theorem counted_empty (maxBytes : ℕ) : (empty maxBytes).Counted := fun _ => .default

theorem Counted.enqueue (h : Q.Counted) (p : Packet) (q : ℕ) : (Q.enqueue p q).2.Counted := by
  intro q'
  rw [BEgressQueue.enqueue]
  split_ifs
  · by_cases hq : q' = q
    · subst hq
      simpa using (h q').enqueue p
    · simpa [hq] using h q'
  · exact h q'

theorem Counted.dequeueRR (h : Q.Counted) (hQ : Q.dequeueRR paused = some (p, Q')) :
    Q'.Counted := by
  rw [BEgressQueue.dequeueRR] at hQ
  split_ifs at hQ
  obtain ⟨q, -, hQ⟩ := Option.bind_eq_some_iff.1 hQ
  obtain ⟨⟨p', D⟩, hD, hQ⟩ := Option.map_eq_some_iff.1 hQ
  cases hQ
  intro q'
  by_cases hq : q' = q
  · subst hq
    simpa using (h q').dequeue hD
  · simpa [hq] using h q'

theorem Counted.drain (h : Q.Counted) (n : ℕ) : (Q.drain n).Counted := by
  induction n generalizing Q with
  | zero => exact h
  | succ n ih =>
    rw [BEgressQueue.drain]
    split
    · exact h
    · next p Q' hsome => exact ih (h.dequeueRR hsome)

/-- `DequeueRR` finds nothing exactly if no class may be served. -/
theorem dequeueRR_eq_none_iff :
    Q.dequeueRR paused = none ↔ Q.bytesInQueueTotal = 0 ∨ Q.nextClass paused = none := by
  rw [dequeueRR]
  split_ifs with htot
  · simp [htot]
  · simp only [htot, false_or]
    cases hq : Q.nextClass paused with
    | none => simp
    | some q =>
      have hheld : Q.held q ≠ [] := by
        rw [nextClass] at hq
        split_ifs at hq with h₀
        · cases hq
          exact h₀
        · have hfound := List.find?_some hq
          simpa using (Bool.and_eq_true_iff.1 hfound).2
      obtain ⟨p, rest, hpackets⟩ := List.exists_cons_of_ne_nil hheld
      have hD : (Q.queues q).packets = p :: rest := hpackets
      simp [DropTailQueue.dequeue, hD]

/-- A further pause gives it no more to find. -/
theorem dequeueRR_eq_none_of_le (hle : ∀ q, paused q = true → paused' q = true)
    (h : Q.dequeueRR paused = none) : Q.dequeueRR paused' = none := by
  rw [dequeueRR_eq_none_iff] at h ⊢
  refine h.imp_right fun h => ?_
  rw [nextClass] at h ⊢
  split_ifs at h ⊢ with h₀
  rw [List.find?_eq_none] at h ⊢
  intro q hq hnext
  refine h q hq ?_
  rw [Bool.and_eq_true, Bool.not_eq_true'] at hnext ⊢
  exact ⟨Bool.eq_false_iff.2 fun hp => Bool.false_ne_true (hnext.1.symm.trans (hle q hp)), hnext.2⟩

end BEgressQueue

namespace Switch

/-! ### What a port would send -/

/-- What `DequeueAndTransmit` takes out of the queue of the port `d`. -/
def served (s : Switch) (d : ℕ) : Option (Packet × BEgressQueue) :=
  if d < s.nDevices then
    if !(s.devices d).linkUp then
      none
    else if (s.devices d).txBusy then
      none
    else
      (s.devices d).queue.dequeueRR (s.devices d).paused
  else
    none

variable {s t : Switch} {d e i : ℕ} {p : Packet} {Q : BEgressQueue}

theorem served_eq_some : s.served d = some (p, Q) ↔ s.Serves d p Q := by
  rw [served]
  constructor
  · intro h
    split_ifs at h with hlt hup hbusy
    exact ⟨hlt, by simpa using hup, by simpa using hbusy, h⟩
  · rintro ⟨hlt, hup, hready, hnext⟩
    simp [hlt, hup, hready, hnext]

theorem served_eq_none : s.served d = none ↔ ∀ p Q, ¬ s.Serves d p Q := by
  constructor
  · intro h p Q hserves
    rw [served_eq_some.2 hserves] at h
    cases h
  · intro h
    cases hserved : s.served d with
    | none => rfl
    | some r => exact absurd (served_eq_some.1 hserved) (h r.1 r.2)

theorem served_congr (hn : t.nDevices = s.nDevices) (hdev : t.devices d = s.devices d) :
    t.served d = s.served d := by
  rw [served, served, hn, hdev]

theorem served_setDevice_of_ne (dev : Device) (h : i ≠ d) :
    (s.setDevice d dev).served i = s.served i :=
  served_congr rfl (Function.update_of_ne h _ _)

theorem served_transmitStart_self : (s.transmitStart d p).served d = none := by
  simp [served, transmitStart, setDevice]

theorem served_transmitStart_of_ne (h : i ≠ d) :
    (s.transmitStart d p).served i = s.served i :=
  served_congr rfl (Function.update_of_ne h _ _)

theorem devices_enqueue_of_ne (q : ℕ) (h : i ≠ d) :
    (s.enqueue d q p).devices i = s.devices i := by
  rw [enqueue]
  split_ifs
  all_goals exact Function.update_of_ne h _ _

theorem devices_enqueue_self (q : ℕ) :
    (s.enqueue d q p).devices d =
      { s.devices d with queue := ((s.devices d).queue.enqueue p q).2 } := by
  rw [enqueue]
  split_ifs
  all_goals exact Function.update_self _ _ _

/-- A full queue stays as it is. -/
theorem devices_enqueue_of_full {q : ℕ} (h : (s.devices d).queue.hasRoom p = false) (i : ℕ) :
    (s.enqueue d q p).devices i = s.devices i := by
  by_cases hi : i = d
  · rw [hi, devices_enqueue_self, BEgressQueue.enqueue, if_neg (by simp [h])]
  · exact devices_enqueue_of_ne q hi

theorem served_enqueue_of_ne (q : ℕ) (h : i ≠ d) : (s.enqueue d q p).served i = s.served i :=
  served_congr (nDevices_enqueue q) (devices_enqueue_of_ne q h)

theorem served_enqueuePfc_of_ne (q : ℕ) (ty : PfcType) (h : i ≠ d) :
    (s.enqueuePfc d q ty).served i = s.served i :=
  served_enqueue_of_ne 0 h

theorem served_departed_of_ne (h : i ≠ d) : (s.departed d p Q).served i = s.served i :=
  served_congr rfl (Function.update_of_ne h _ _)

/-- After `DequeueAndTransmit` the port is busy, or had nothing to send. -/
theorem served_transmit_self (d : ℕ) (s : Switch) : (transmit d s).served d = none := by
  rw [transmit_eq]
  rcases dequeueAndTransmitBody_cases transmit d with ⟨heq, hno⟩ | ⟨p, Q, -, heq⟩
  · rw [heq]
    exact served_eq_none.2 hno
  · rw [heq]
    exact served_transmitStart_self

/-- The other ports have nothing to send after it either, the port of a resume frame included, for
which `DequeueAndTransmit` is called as well. -/
theorem served_transmit_of_none (d : ℕ) (h : s.served i = none) :
    (transmit d s).served i = none := by
  by_cases hi : i = d
  · subst hi
    exact served_transmit_self i s
  induction hb : s.backlog using Nat.strong_induction_on generalizing d s with
  | _ n ih =>
    subst hb
    rw [transmit_eq]
    rcases dequeueAndTransmitBody_cases transmit d with ⟨heq, -⟩ | ⟨p, Q, hserves, heq⟩
    · rw [heq]
      exact h
    · rw [heq, served_transmitStart_of_ne hi, switchNotifyDequeue]
      split_ifs with hq
      · have hdep : (s.departed d p Q).served i = none := (served_departed_of_ne hi).trans h
        rw [checkAndSendResume]
        split_ifs with hres
        · have hset : ∀ (t : Switch) q, (t.setResume p.flowId q).served i = t.served i :=
            fun t q => served_congr rfl rfl
          rw [hset, sendPfc]
          by_cases he : i = p.flowId
          · subst he
            exact served_transmit_self p.flowId _
          · refine ih _ ?_ _ ((served_enqueuePfc_of_ne _ _ he).trans hdep) he rfl
            have := hserves.backlog_setQueue hq
            rw [backlog_enqueuePfc, backlog_discharge]
            omega
        · exact hdep
      · exact (served_setDevice_of_ne _ hi).trans h

/-! ### Between the events -/

/-- All queues count their bytes. -/
def Counted (s : Switch) : Prop := ∀ i, (s.devices i).queue.Counted

namespace Counted

theorem setDevice (h : s.Counted) {dev : Device} (hdev : dev.queue.Counted) :
    (s.setDevice d dev).Counted := by
  intro i
  by_cases hi : i = d
  · subst hi
    simpa [Switch.setDevice] using hdev
  · simpa [Switch.setDevice, hi] using h i

theorem transmitStart (h : s.Counted) (d : ℕ) (p : Packet) : (s.transmitStart d p).Counted := by
  have hbusy : (s.setDevice d { s.devices d with txBusy := true }).Counted := h.setDevice (h d)
  exact hbusy

theorem enqueue (h : s.Counted) (d q : ℕ) (p : Packet) : (s.enqueue d q p).Counted := by
  have hset : (s.setQueue d ((s.devices d).queue.enqueue p q).2).Counted :=
    h.setDevice ((h d).enqueue p q)
  rw [Switch.enqueue]
  split_ifs
  all_goals exact hset

theorem serves (h : s.Counted) (hserves : s.Serves d p Q) : (s.setQueue d Q).Counted :=
  h.setDevice ((h d).dequeueRR hserves.next)

theorem transmit (h : s.Counted) (d : ℕ) : (transmit d s).Counted := by
  refine transmit_rel (R := fun s t => s.Counted → t.Counted) (fun _ h => h) ?_ ?_ ?_ d s h
  · intro s d p Q hserves _ h
    exact (h.serves hserves).transmitStart d p
  · intro s d p Q hserves _ _ h
    exact transmitStart (s := s.departed d p Q) (h.serves hserves) d p
  · intro s d p Q t hserves _ _ ih _ h
    have hcall : ((s.departed d p Q).enqueuePfc p.flowId Q.qlast .resume).Counted :=
      enqueue (s := (s.departed d p Q).log _) (h.serves hserves) p.flowId 0 _
    exact transmitStart (s := t.setResume p.flowId Q.qlast) (ih hcall) d p

end Counted

/-- The ports outside of a set have nothing to send, and all queues count their bytes. -/
structure Settled (D : Set ℕ) (s : Switch) : Prop where
  idle : ∀ i, i ∉ D → s.served i = none
  counted : s.Counted

namespace Settled

variable {D : Set ℕ} {op : Op}

theorem init (c : Config) : Settled ∅ (init c) where
  idle i _ := by
    have hnone : (BEgressQueue.empty (c.maxBytes i)).dequeueRR (fun _ => false) = none := rfl
    simp [served, Switch.init, hnone]
  counted i := BEgressQueue.counted_empty _

theorem congr (h : Settled D s) (hn : t.nDevices = s.nDevices) (hdev : t.devices = s.devices) :
    Settled D t :=
  ⟨fun i hi => (served_congr hn (congrFun hdev i)).trans (h.idle i hi),
    fun i => by rw [hdev]; exact h.counted i⟩

/-- A change of one port unsettles that port only. -/
theorem setDevice (h : Settled ∅ s) {dev : Device} (hdev : dev.queue.Counted) :
    Settled {d} (s.setDevice d dev) :=
  ⟨fun i hi => (served_setDevice_of_ne dev hi).trans (h.idle i id), h.counted.setDevice hdev⟩

theorem of_served (h : Settled {d} s) (hd : s.served d = none) : Settled ∅ s := by
  refine ⟨fun i _ => ?_, h.counted⟩
  by_cases hi : i = d
  · rw [hi]
    exact hd
  · exact h.idle i hi

theorem setPaused (h : Settled ∅ s) (q : ℕ) (b : Bool) : Settled {d} (s.setPaused d q b) :=
  h.setDevice (h.counted d)

theorem setReady (h : Settled ∅ s) : Settled {d} (s.setReady d) := h.setDevice (h.counted d)

theorem enqueue (h : Settled ∅ s) (q : ℕ) (p : Packet) : Settled {d} (s.enqueue d q p) :=
  ⟨fun i hi => (served_enqueue_of_ne q hi).trans (h.idle i id), h.counted.enqueue d q p⟩

theorem enqueuePfc (h : Settled ∅ s) (q : ℕ) (ty : PfcType) : Settled {d} (s.enqueuePfc d q ty) :=
  (h.congr (t := s.log (.sentPfc d q ty)) rfl rfl).enqueue 0 _

/-- **`DequeueAndTransmit` settles the port** it is called for. -/
theorem transmit (h : Settled {d} s) : Settled ∅ (transmit d s) := by
  refine ⟨fun i _ => ?_, h.counted.transmit d⟩
  by_cases hi : i = d
  · rw [hi]
    exact served_transmit_self d s
  · exact served_transmit_of_none d (h.idle i hi)

theorem checkAndSendPfc (h : Settled ∅ s) (i q : ℕ) :
    Settled ∅ (s.checkAndSendPfc Switch.transmit i q) := by
  rw [Switch.checkAndSendPfc]
  split_ifs
  · exact (h.enqueuePfc q .pause).transmit.congr rfl rfl
  · exact h

theorem takeIn (h : Settled ∅ s) (i q : ℕ) (p : Packet) : Settled ∅ (s.takeIn i q p) := by
  have hcharge : Settled ∅ ((s.log (.arrived p.flowId q p.size)).charge i q p) :=
    h.congr rfl rfl
  exact (hcharge.checkAndSendPfc p.flowId q).congr rfl rfl

theorem sendToDev (h : Settled ∅ s) (idx : Option ℕ) (ch : Header) (p : Packet) :
    Settled ∅ (s.sendToDev idx ch p) := by
  rcases sendToDev_cases s idx ch p with heq | ⟨i, -, heq⟩ | ⟨-, -, heq⟩ | ⟨i, -, -, -, heq⟩
  all_goals rw [heq]
  · exact h
  · have hcount : Settled ∅ (s.countBytes i 0 p) := h.congr rfl rfl
    exact (hcount.enqueue 0 p).transmit
  · exact h.congr rfl rfl
  · exact ((h.takeIn i _ p).enqueue _ p).transmit

/-- A pause gives the port nothing to send. -/
theorem pause (h : Settled ∅ s) (q : ℕ) : Settled ∅ (s.setPaused d q true) := by
  refine (h.setPaused q true).of_served ?_
  have hd := h.idle d id
  have hpause : ∀ q', (s.devices d).paused q' = true →
      Function.update (s.devices d).paused q true q' = true := by
    intro q' hq'
    by_cases hq : q' = q
    · simp [hq]
    · simpa [hq] using hq'
  rw [served] at hd
  simp only [served, Switch.setPaused, Switch.setDevice, Function.update_self]
  split_ifs with hlt hup hbusy
  · rfl
  · rfl
  · rw [if_pos hlt, if_neg hup, if_neg hbusy] at hd
    exact BEgressQueue.dequeueRR_eq_none_of_le hpause hd
  · rfl

theorem takeDown (h : Settled ∅ s) (d : ℕ) : Settled ∅ (s.takeDown d) := by
  have hset : Settled {d} (s.takeDown d) := h.setDevice ((h.counted d).drain _)
  refine hset.of_served ?_
  simp [served, Switch.takeDown, Switch.setDevice]

/-- **Between the events all ports are settled.** -/
theorem step (h : Settled ∅ s) (hstep : s.step op = some t) : Settled ∅ t := by
  rcases step_cases hstep with rfl | ⟨d, ch, n, idx, -, -, -, rfl⟩ | ⟨d, q, rfl⟩ | ⟨d, q, rfl⟩ |
    ⟨d, rfl⟩ | ⟨d, -, rfl⟩
  · exact h
  · exact h.sendToDev idx ch _
  · exact h.pause q
  · exact (h.setPaused q false).transmit
  · exact h.setReady.transmit
  · exact h.takeDown d

end Settled

end Switch

end HpccSim
