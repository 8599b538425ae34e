import HpccSim.SwitchNode

/-!
# Both ends of a link agree on PFC

A PFC frame is on its way from `SendPfc` to the peer: first in class `0` of the egress queue, then
on the wire. This file adds the peers to the switch and follows the frames. The frames of a queue
are sent in the order pause, resume, pause, … because `paused` of the MMU decides which one is
next; they arrive in that order because class `0` and the link are first in, first out. So the
peer's flag is that of the frames delivered, the flag of the MMU that of the frames sent, and they
are equal when nothing is under way.

`SendPfc` re-enters the transmit path before the flag of the MMU is updated. That is harmless as
long as class `0` takes every frame in: the nested call then finds a frame there and sends nothing
else.

## Main definitions

* `Peer`, `PfcLink`: the device at the other end of each port, and the system.
* `Switch.pfcSent`: the frames sent for a queue, read off the log.
* `Alternates`: pause, resume, pause, …
* `Switch.PfcFlow`: what has been sent is delivered, on the wire or in class `0`.

## Main results

* `PfcLink.agree_of_run`: the frames alternate, no `Resume` meets a queue that is not paused, and
  the flags agree whenever no frame is under way.
-/

namespace HpccSim

/-- The list runs pause, resume, pause, …, where `true` stands for pause. -/
def Alternates (l : List Bool) : Prop := ∀ i b, l[i]? = some b → b = decide (i % 2 = 0)

theorem Alternates.append {l : List Bool} {b : Bool} (h : Alternates l)
    (hb : b = decide (l.length % 2 = 0)) : Alternates (l ++ [b]) := by
  intro i b' hi
  rcases Nat.lt_trichotomy i l.length with hlt | heq | hgt
  · rw [List.getElem?_append_left hlt] at hi
    exact h i b' hi
  · subst heq
    rw [List.getElem?_append_right le_rfl, Nat.sub_self] at hi
    cases hi
    exact hb
  · rw [List.getElem?_eq_none (by simp; omega)] at hi
    cases hi

theorem Alternates.next {l l' : List Bool} {b : Bool} (h : Alternates (l ++ b :: l')) :
    b = decide (l.length % 2 = 0) :=
  h l.length b (by simp)

/-- The PFC frames for class `q` among some packets, as pauses and resumes. -/
def pfcs (q : ℕ) (l : List Packet) : List Bool :=
  l.filterMap fun p => p.pfc.bind fun h => if q = h.qIndex then some (decide (h.time > 0)) else none

@[simp] theorem pfcs_append (q : ℕ) (l l' : List Packet) :
    pfcs q (l ++ l') = pfcs q l ++ pfcs q l' :=
  List.filterMap_append

theorem pfcs_cons (q : ℕ) (p : Packet) (l : List Packet) :
    pfcs q (p :: l) = pfcs q [p] ++ pfcs q l :=
  pfcs_append q [p] l

theorem pfcs_of_data (q : ℕ) {p : Packet} (h : p.pfc = none) : pfcs q [p] = [] := by
  simp [pfcs, h]

namespace Switch

/-- The frames that `SendPfc` of device `d` has sent for class `q`, oldest first. -/
def pfcSent (d q : ℕ) : List Event → List Bool
  | [] => []
  | .sentPfc d' q' ty :: l =>
    if d = d' ∧ q = q' then pfcSent d q l ++ [decide (ty = .pause)] else pfcSent d q l
  | _ :: l => pfcSent d q l

/-- Class `0` takes in every packet. -/
def NoControlLost (l : List Event) : Prop := ∀ d p, .lost d 0 p ∉ l

theorem NoControlLost.suffix {l l' : List Event} (h : NoControlLost l) (hl : l' <:+ l) :
    NoControlLost l' :=
  fun d p hmem => h d p (hl.subset hmem)

/-- What will be delivered by port `d`: the wire, then class `0`. -/
def control (s : Switch) (d : ℕ) : List Packet := s.wire d ++ s.held d 0

/-- The frames sent are those delivered, `D`, and those under way; only class `0` holds frames. -/
structure PfcFlow (D : ℕ → List Packet) (s : Switch) : Prop where
  flow : ∀ d q, pfcSent d q s.trace = pfcs q (D d ++ s.control d)
  alternates : ∀ d q, Alternates (pfcSent d q s.trace)
  pausetime : ∀ d, (s.devices d).pausetime > 0
  data : ∀ d q, q ≠ 0 → ∀ r ∈ s.held d q, r.pfc = none

/-- The MMU marks a queue as paused if the last frame sent was a pause. -/
def Agrees (s : Switch) : Prop :=
  ∀ d q, s.mmu.paused d q = decide ((pfcSent d q s.trace).length % 2 = 1)

section Flow

variable {D : ℕ → List Packet} {s t : Switch} {d : ℕ} {p : Packet} {Q : BEgressQueue}

theorem pausetime_setDevice (dev : Device) (h : dev.pausetime = (s.devices d).pausetime)
    (d' : ℕ) : ((s.setDevice d dev).devices d').pausetime = (s.devices d').pausetime := by
  by_cases hd : d' = d
  · subst hd
    simpa [setDevice] using h
  · simp [setDevice, hd]

theorem pausetime_setQueue (d' : ℕ) :
    ((s.setQueue d Q).devices d').pausetime = (s.devices d').pausetime :=
  pausetime_setDevice { s.devices d with queue := Q } rfl d'

theorem pausetime_transmitStart (d' : ℕ) :
    ((s.transmitStart d p).devices d').pausetime = (s.devices d').pausetime :=
  pausetime_setDevice { s.devices d with txBusy := true } rfl d'

theorem pausetime_enqueue (q d' : ℕ) :
    ((s.enqueue d q p).devices d').pausetime = (s.devices d').pausetime := by
  simp only [enqueue]
  split_ifs
  · exact pausetime_setQueue d'
  · exact pausetime_setQueue d'

theorem wire_enqueue (q : ℕ) : (s.enqueue d q p).wire = s.wire := by
  simp only [enqueue]
  split_ifs <;> rfl

theorem pfcSent_enqueue (q d' q' : ℕ) :
    pfcSent d' q' (s.enqueue d q p).trace = pfcSent d' q' s.trace := by
  rw [trace_enqueue]
  split_ifs <;> rfl

theorem control_transmitStart (d' : ℕ) :
    (s.transmitStart d p).control d' =
      if d' = d then s.wire d ++ [p] ++ s.held d 0 else s.control d' := by
  simp only [control, held_transmitStart]
  by_cases hd : d' = d
  · subst hd
    simp [transmitStart]
  · simp [transmitStart, setDevice, hd]

namespace PfcFlow

/-- Operations that neither send nor move a frame. -/
theorem congr (h : PfcFlow D s) (htrace : ∀ d q, pfcSent d q t.trace = pfcSent d q s.trace)
    (hcontrol : ∀ d q, pfcs q (t.control d) = pfcs q (s.control d))
    (hpause : ∀ d, (t.devices d).pausetime = (s.devices d).pausetime)
    (hdata : ∀ d q, q ≠ 0 → ∀ r ∈ t.held d q, r.pfc = none) : PfcFlow D t := by
  refine ⟨fun d q => ?_, fun d q => ?_, fun d => ?_, hdata⟩
  · rw [htrace, h.flow, pfcs_append, pfcs_append, hcontrol]
  · rw [htrace]
    exact h.alternates d q
  · rw [hpause]
    exact h.pausetime d

theorem setPause (h : PfcFlow D s) (i q : ℕ) : PfcFlow D (s.setPause i q) :=
  h.congr (fun _ _ => rfl) (fun _ _ => rfl) (fun _ => rfl) h.data

theorem setResume (h : PfcFlow D s) (i q : ℕ) : PfcFlow D (s.setResume i q) :=
  h.congr (fun _ _ => rfl) (fun _ _ => rfl) (fun _ => rfl) h.data

/-- A packet of another class leaves: it is no frame. -/
theorem departed (h : PfcFlow D s) (hs : s.Serves d p Q) (hq : Q.qlast ≠ 0) :
    PfcFlow D (s.departed d p Q) ∧ p.pfc = none := by
  obtain ⟨hheld, hrest⟩ := hs.held_eq
  have hp : p.pfc = none := h.data d Q.qlast hq p (by rw [hheld]; exact List.mem_cons_self)
  refine ⟨h.congr (fun _ _ => rfl) (fun d' q => ?_) pausetime_setQueue
    fun d' q hq' r hr => ?_, hp⟩
  · change pfcs q (s.wire d' ++ (s.setQueue d Q).held d' 0) = _
    rw [held_setQueue]
    split_ifs with hd
    · rw [hrest 0 (Ne.symm hq), hd]
      rfl
    · rfl
  · change r ∈ (s.setQueue d Q).held d' q at hr
    rw [held_setQueue] at hr
    split_ifs at hr with hd
    · subst hd
      by_cases hq'' : q = Q.qlast
      · subst hq''
        exact h.data d' _ hq' r (by rw [hheld]; exact List.mem_cons_of_mem _ hr)
      · exact h.data d' q hq' r (by rwa [← hrest q hq''])
    · exact h.data d' q hq' r hr

/-- A packet that is no frame goes on the wire. -/
theorem transmitStart (h : PfcFlow D s) (d : ℕ) (hp : p.pfc = none) :
    PfcFlow D (s.transmitStart d p) := by
  refine h.congr (fun _ _ => rfl) (fun d' q => ?_) pausetime_transmitStart
    fun d' q hq r hr => h.data d' q hq r (by simpa using hr)
  rw [control_transmitStart]
  split_ifs with hd
  · subst hd
    simp only [control, pfcs_append, pfcs_of_data q hp, List.append_nil]
  · rfl

/-- A packet moves from class `0` to the wire. -/
theorem controlSent (h : PfcFlow D s) (hs : s.Serves d p Q) (hq : Q.qlast = 0) :
    PfcFlow D ((s.setQueue d Q).transmitStart d p) := by
  obtain ⟨hheld, hrest⟩ := hs.held_eq
  rw [hq] at hheld hrest
  refine h.congr (fun _ _ => rfl) (fun d' q => ?_) (fun d' => ?_) fun d' q hq' r hr => ?_
  · rw [control_transmitStart]
    split_ifs with hd
    · subst hd
      change pfcs q (s.wire d' ++ [p] ++ (s.setQueue d' Q).held d' 0) = _
      rw [held_setQueue, if_pos rfl, control, hheld]
      simp
    · change pfcs q (s.wire d' ++ (s.setQueue d Q).held d' 0) = _
      rw [held_setQueue, if_neg hd]
      rfl
  · rw [pausetime_transmitStart, pausetime_setQueue]
  · rw [held_transmitStart, held_setQueue] at hr
    split_ifs at hr with hd
    · rw [hrest q hq', ← hd] at hr
      exact h.data d' q hq' r hr
    · exact h.data d' q hq' r hr

theorem controlOnly (h : PfcFlow D s) (hst : ControlOnly d s t) : PfcFlow D t := by
  rcases hst with rfl | ⟨p, Q, hs, hq, rfl⟩
  · exact h
  · exact h.controlSent hs hq

/-- A packet that is no frame is enqueued, or lost. -/
theorem enqueue (h : PfcFlow D s) (i q : ℕ) (hp : p.pfc = none) : PfcFlow D (s.enqueue i q p) := by
  refine h.congr (fun d' q' => pfcSent_enqueue q d' q') (fun d' q' => ?_)
    (fun d' => pausetime_enqueue q d') fun d' q' hq' r hr => ?_
  · simp only [control, wire_enqueue, held_enqueue, pfcs_append]
    split_ifs with hc
    · obtain ⟨rfl, rfl, -⟩ := hc
      simp only [pfcs_append, pfcs_of_data q' hp, List.append_nil]
    · rfl
  · rw [held_enqueue] at hr
    split_ifs at hr with hc
    · obtain ⟨rfl, rfl, -⟩ := hc
      rcases List.mem_append.1 hr with hr | hr
      · exact h.data d' q' hq' r hr
      · rwa [List.mem_singleton.1 hr]
    · exact h.data d' q' hq' r hr

/-- A frame is sent and taken in by class `0`. -/
theorem enqueuePfc (h : PfcFlow D s) {i q : ℕ} {ty : PfcType}
    (hty : decide (ty = .pause) = decide ((pfcSent i q s.trace).length % 2 = 0))
    (hacc : (s.devices i).queue.accepts ((s.devices i).pfcFrame q ty) 0 = true) :
    PfcFlow D (s.enqueuePfc i q ty) := by
  have hframe : ∀ q', pfcs q' [(s.devices i).pfcFrame q ty] =
      if q' = q then [decide (ty = .pause)] else [] := by
    intro q'
    have hpos := h.pausetime i
    by_cases hq : q' = q
    · cases ty <;> simp [pfcs, Device.pfcFrame, hq, hpos]
    · simp [pfcs, Device.pfcFrame, hq]
  have hsent : ∀ d' q', pfcSent d' q' (s.enqueuePfc i q ty).trace =
      if d' = i ∧ q' = q then pfcSent d' q' s.trace ++ [decide (ty = .pause)]
      else pfcSent d' q' s.trace := by
    intro d' q'
    rw [Switch.enqueuePfc, pfcSent_enqueue]
    rfl
  have hcontrol : ∀ d', (s.enqueuePfc i q ty).control d' =
      if d' = i then s.control i ++ [(s.devices i).pfcFrame q ty] else s.control d' := by
    intro d'
    have hacc' : ((s.log (.sentPfc i q ty)).devices i).queue.accepts
        ((s.devices i).pfcFrame q ty) 0 = true := hacc
    rw [Switch.enqueuePfc, control, wire_enqueue, held_enqueue]
    by_cases hd : d' = i
    · rw [if_pos ⟨hd, rfl, hacc'⟩, if_pos hd, hd, control, List.append_assoc]
      rfl
    · rw [if_neg fun hc => hd hc.1, if_neg hd]
      rfl
  refine ⟨fun d' q' => ?_, fun d' q' => ?_, fun d' => ?_, fun d' q' hq' r hr => ?_⟩
  · have hflow := h.flow d' q'
    rw [hsent, hcontrol]
    by_cases hd : d' = i
    · subst hd
      simp only [pfcs_append] at hflow
      simp only [true_and, if_true, pfcs_append, hframe, hflow, List.append_assoc]
      split_ifs <;> simp
    · rw [if_neg fun hc => hd hc.1, if_neg hd]
      exact hflow
  · rw [hsent]
    split_ifs with hc
    · obtain ⟨rfl, rfl⟩ := hc
      exact (h.alternates d' q').append hty
    · exact h.alternates d' q'
  · rw [Switch.enqueuePfc, pausetime_enqueue]
    exact h.pausetime d'
  · rw [held_enqueuePfc i q d' ty hq'] at hr
    exact h.data d' q' hq' r hr

end PfcFlow

theorem pfcSent_of_controlOnly (ht : ControlOnly d s t) : t.trace = s.trace ∧ t.mmu = s.mmu := by
  rcases ht with rfl | ⟨p, Q, -, -, rfl⟩ <;> exact ⟨rfl, rfl⟩

theorem Agrees.congr (h : s.Agrees) (hpaused : t.mmu.paused = s.mmu.paused)
    (htrace : ∀ d q, pfcSent d q t.trace = pfcSent d q s.trace) : t.Agrees := fun d q => by
  rw [hpaused, htrace]
  exact h d q

/-- A frame that class `0` takes in is not lost. -/
theorem accepts_of_noControlLost {i q : ℕ} {ty : PfcType}
    (hcont : Continues (s.enqueuePfc i q ty) t) (h : NoControlLost t.trace) :
    (s.devices i).queue.accepts ((s.devices i).pfcFrame q ty) 0 = true := by
  by_contra hacc
  have hmem : .lost i 0 ((s.devices i).pfcFrame q ty) ∈ (s.enqueuePfc i q ty).trace := by
    have hacc' : ¬ ((s.log (.sentPfc i q ty)).devices i).queue.accepts
        ((s.devices i).pfcFrame q ty) 0 = true := hacc
    rw [Switch.enqueuePfc, trace_enqueue, if_neg hacc']
    exact List.mem_cons_self
  exact h i _ (hcont.suffix.subset hmem)

/-- Between events the flag of the MMU is that of the last frame sent. -/
structure PfcInv (D : ℕ → List Packet) (s : Switch) : Prop where
  flow : PfcFlow D s
  agrees : s.Agrees

namespace PfcInv

variable {i q : ℕ}

/-- The frame that changes the flag is sent; the nested call sends class `0` only. -/
theorem sendPfc {ty : PfcType} (h : PfcInv D s) (hflag : s.mmu.paused i q = decide (ty = .resume))
    (hcont : Continues (s.enqueuePfc i q ty) t) (hlost : NoControlLost t.trace)
    (hctrl : (s.enqueuePfc i q ty).held i 0 ≠ [] → ControlOnly i (s.enqueuePfc i q ty) t) :
    PfcFlow D t ∧ ∀ d' q', setAt t.mmu.paused i q (decide (ty = .pause)) d' q' =
      decide ((pfcSent d' q' t.trace).length % 2 = 1) := by
  have hacc := accepts_of_noControlLost hcont hlost
  have hheld : (s.enqueuePfc i q ty).held i 0 ≠ [] := by
    rw [Switch.enqueuePfc, held_enqueue, if_pos ⟨rfl, rfl, hacc⟩]
    simp
  have hpar := h.agrees i q
  have hty : decide (ty = .pause) = decide ((pfcSent i q s.trace).length % 2 = 0) := by
    rw [hflag] at hpar
    cases ty with
    | pause =>
      have : ¬ (pfcSent i q s.trace).length % 2 = 1 := by simpa using hpar
      simp
      omega
    | resume =>
      have : (pfcSent i q s.trace).length % 2 = 1 := by simpa using hpar
      simp [this]
  refine ⟨(h.flow.enqueuePfc hty hacc).controlOnly (hctrl hheld), fun d' q' => ?_⟩
  obtain ⟨htrace, hmmu⟩ := pfcSent_of_controlOnly (hctrl hheld)
  rw [htrace, hmmu, mmu_enqueuePfc, Switch.enqueuePfc, pfcSent_enqueue, setAt]
  simp only [log, pfcSent]
  split_ifs with hc
  · obtain ⟨rfl, rfl⟩ := hc
    rw [hty, List.length_append, List.length_singleton]
    exact decide_eq_decide.2 (by omega)
  · exact h.agrees d' q'

theorem departed (h : PfcInv D s) (hs : s.Serves d p Q) (hq : Q.qlast ≠ 0) :
    PfcInv D (s.departed d p Q) ∧ p.pfc = none :=
  ⟨⟨(h.flow.departed hs hq).1, h.agrees.congr rfl fun _ _ => rfl⟩, (h.flow.departed hs hq).2⟩

theorem transmitStart (h : PfcInv D s) (d : ℕ) (hp : p.pfc = none) :
    PfcInv D (s.transmitStart d p) :=
  ⟨h.flow.transmitStart d hp, h.agrees.congr rfl fun _ _ => rfl⟩

theorem transmit (h : PfcInv D s) (d : ℕ) (hlost : NoControlLost (transmit d s).trace) :
    PfcInv D (transmit d s) := by
  have hrel : Continues s (Switch.transmit d s) ∧ (NoControlLost (Switch.transmit d s).trace →
      PfcInv D s → PfcInv D (Switch.transmit d s)) := by
    refine transmit_rel
      (R := fun s t => Continues s t ∧ (NoControlLost t.trace → PfcInv D s → PfcInv D t))
      (fun s => ⟨.refl s, fun _ h => h⟩) ?_ ?_ ?_ d s
    · intro s d p Q hs hq
      refine ⟨⟨rfl, rfl, List.suffix_rfl⟩, fun _ h => ⟨h.flow.controlSent hs hq, ?_⟩⟩
      exact h.agrees.congr rfl fun _ _ => rfl
    · intro s d p Q hs hq _
      refine ⟨(Continues.departed s d p Q).trans (.transmitStart _ d p), fun _ h => ?_⟩
      obtain ⟨hdep, hp⟩ := h.departed hs hq
      exact hdep.transmitStart d hp
    · intro s d p Q t hs hq hres ht hctrl
      have hset := (Continues.setResume t p.flowId Q.qlast).trans (.transmitStart _ d p)
      refine ⟨(((Continues.departed s d p Q).trans (.enqueuePfc _ _ _ _)).trans ht.1).trans hset,
        fun hlost h => ?_⟩
      obtain ⟨hdep, hp⟩ := h.departed hs hq
      have hpaused := (SwitchMmu.checkShouldResume_eq_true hres).1
      have hflag : (s.departed d p Q).mmu.paused p.flowId Q.qlast =
          decide (PfcType.resume = .resume) := hpaused
      obtain ⟨hflow, hagrees⟩ := hdep.sendPfc hflag ht.1 (hlost.suffix hset.suffix) hctrl
      refine PfcInv.transmitStart ⟨hflow.setResume _ _, fun d' q' => ?_⟩ d hp
      exact hagrees d' q'
  exact hrel.2 hlost h

theorem switchSend (h : PfcInv D s) (d q : ℕ) (hp : p.pfc = none)
    (hlost : NoControlLost (s.switchSend Switch.transmit d q p).trace) :
    PfcInv D (s.switchSend Switch.transmit d q p) := by
  have henq : PfcInv D (s.enqueue d q p) :=
    ⟨h.flow.enqueue d q hp,
      h.agrees.congr (by rw [mmu_enqueue]) fun d' q' => pfcSent_enqueue q d' q'⟩
  exact henq.transmit d hlost

theorem checkAndSendPfc (h : PfcInv D s) (i q : ℕ)
    (hlost : NoControlLost (s.checkAndSendPfc Switch.transmit i q).trace) :
    PfcInv D (s.checkAndSendPfc Switch.transmit i q) := by
  rw [Switch.checkAndSendPfc] at hlost ⊢
  split_ifs at hlost ⊢ with hpause
  · have hflag : s.mmu.paused i q = decide (PfcType.pause = .resume) :=
      ((SwitchMmu.checkShouldPause_eq_true_iff _ _ _).1 hpause).1
    obtain ⟨hflow, hagrees⟩ := h.sendPfc hflag (.transmit i _)
      (hlost.suffix (Continues.setPause _ i q).suffix) transmit_of_held_zero
    exact ⟨hflow.setPause i q, fun d' q' => hagrees d' q'⟩
  · exact h

/-- Operations on the books of the switch. -/
theorem congr (h : PfcInv D s) (hdev : ∀ d, (t.devices d).pausetime = (s.devices d).pausetime)
    (hheld : ∀ d q, t.held d q = s.held d q) (hwire : t.wire = s.wire)
    (hpaused : t.mmu.paused = s.mmu.paused)
    (htrace : ∀ d q, pfcSent d q t.trace = pfcSent d q s.trace) : PfcInv D t := by
  refine ⟨h.flow.congr htrace (fun d q => ?_) hdev fun d q hq r hr => ?_,
    h.agrees.congr hpaused htrace⟩
  · rw [control, control, hheld, hwire]
  · exact h.flow.data d q hq r (hheld d q ▸ hr)

theorem sendToDev (h : PfcInv D s) (idx : Option ℕ) (ch : Header) (hp : p.pfc = none)
    (hlost : NoControlLost (s.sendToDev idx ch p).trace) : PfcInv D (s.sendToDev idx ch p) := by
  have hcount : ∀ {s : Switch} (j q' : ℕ), PfcInv D s → PfcInv D (s.countBytes j q' p) :=
    fun j q' h => h.congr (fun _ => rfl) (fun _ _ => rfl) rfl rfl fun _ _ => rfl
  rcases sendToDev_cases s idx ch p with heq | ⟨j, -, heq⟩ | ⟨-, -, heq⟩ | ⟨j, -, -, -, heq⟩
  all_goals rw [heq] at hlost ⊢
  · exact h
  · exact (hcount j 0 h).switchSend j 0 hp hlost
  · exact h.congr (fun _ => rfl) (fun _ _ => rfl) rfl rfl fun _ _ => rfl
  · have hcharge : PfcInv D ((s.log (.arrived p.flowId (s.qIndexOf ch) p.size)).charge j
        (s.qIndexOf ch) p) :=
      h.congr (fun _ => rfl) (fun _ _ => rfl) rfl (by simp [charge]) fun _ _ => rfl
    have htaken := hcharge.checkAndSendPfc p.flowId (s.qIndexOf ch)
      (hlost.suffix (Continues.switchSend (s.takeIn j _ p) j _ p).suffix)
    exact (hcount j _ htaken).switchSend j _ hp hlost

theorem setPaused (h : PfcInv D s) (d q : ℕ) (b : Bool) : PfcInv D (s.setPaused d q b) :=
  h.congr
    (pausetime_setDevice
      { s.devices d with paused := Function.update (s.devices d).paused q b } rfl)
    (held_setPaused b) rfl rfl fun _ _ => rfl

theorem setReady (h : PfcInv D s) (d : ℕ) : PfcInv D (s.setReady d) :=
  h.congr (pausetime_setDevice { s.devices d with txBusy := false } rfl) held_setReady rfl rfl
    fun _ _ => rfl

/-- **Agreement of the switch.** Every event but `TakeDown` keeps it. -/
theorem step (h : PfcInv D s) {op : Op} (hdown : ∀ d, op ≠ .takeDown d)
    (hstep : s.step op = some t) (hlost : NoControlLost t.trace) : PfcInv D t := by
  rcases step_cases hstep with rfl | ⟨d, ch, n, idx, -, -, -, rfl⟩ | ⟨d, q, rfl⟩ | ⟨d, q, rfl⟩ |
    ⟨d, rfl⟩ | ⟨d, hop, -⟩
  · exact h
  · exact h.sendToDev idx ch rfl hlost
  · exact h.setPaused d q true
  · exact (h.setPaused d q false).transmit d hlost
  · exact (h.setReady d).transmit d hlost
  · exact absurd hop (hdown d)

theorem init {c : Config} (hpos : ∀ d, c.pausetime d > 0) : PfcInv (fun _ => []) (init c) := by
  refine ⟨⟨fun _ _ => rfl, fun d q i b hi => ?_, hpos, fun d q _ r hr => ?_⟩, fun _ _ => rfl⟩
  · simp [Switch.init, pfcSent] at hi
  · rw [held_init] at hr
    cases hr

end PfcInv

end Flow

end Switch

/-! ### The link -/

/-- `QbbNetDevice` at the other end of a link, as far as PFC is concerned. `resumeFailed` tells
whether the assertion of `Resume` has failed; its `DequeueAndTransmit` touches neither field. -/
structure Peer where
  qbbEnabled : Bool
  paused : ℕ → Bool
  resumeFailed : Bool

namespace Peer

variable (peer : Peer)

/-- `QbbNetDevice::Resume`. -/
def resume (qIndex : ℕ) : Peer :=
  { peer with
    resumeFailed := peer.resumeFailed || !peer.paused qIndex
    paused := Function.update peer.paused qIndex false }

/-- `QbbNetDevice::Receive`. -/
def receive (p : Packet) : Peer :=
  match p.pfc with
  | none => peer
  | some h =>
    if !peer.qbbEnabled then
      peer
    else if h.time > 0 then
      { peer with paused := Function.update peer.paused h.qIndex true }
    else
      peer.resume h.qIndex

end Peer

/-- A switch and the devices its ports are linked to; `delivered` is what each has received. -/
structure PfcLink where
  switch : Switch
  peers : ℕ → Peer
  delivered : ℕ → List Packet

namespace PfcLink

/-- The events: one of the switch, or a packet arrives at the peer of the port `d`. -/
inductive Op where
  | switch (op : Switch.Op)
  | deliver (d : ℕ)

/-- One event; a link delivers in order. -/
def step (l : PfcLink) : Op → Option PfcLink
  | .switch op => (l.switch.step op).map fun s => { l with switch := s }
  | .deliver d =>
    match l.switch.wire d with
    | [] => none
    | p :: ps => some
      { switch := { l.switch with wire := Function.update l.switch.wire d ps }
        peers := Function.update l.peers d ((l.peers d).receive p)
        delivered := Function.update l.delivered d (l.delivered d ++ [p]) }

/-- Nothing has been sent and no peer is paused. -/
def init (c : Switch.Config) : PfcLink where
  switch := .init c
  peers _ := { qbbEnabled := true, paused := fun _ => false, resumeFailed := false }
  delivered _ := []

/-- The switch is in order, and each peer follows the frames delivered to it. -/
structure Inv (l : PfcLink) : Prop where
  switch : Switch.PfcInv l.delivered l.switch
  enabled : ∀ d, (l.peers d).qbbEnabled = true
  paused : ∀ d q, (l.peers d).paused q = decide ((pfcs q (l.delivered d)).length % 2 = 1)
  resumed : ∀ d, (l.peers d).resumeFailed = false

/-- A peer that is about to receive what the frames sent foresee. -/
theorem receive_spec {peer : Peer} (p : Packet) {past : List Packet} {next : ℕ → List Bool}
    (hen : peer.qbbEnabled = true)
    (hpaused : ∀ q, peer.paused q = decide ((pfcs q past).length % 2 = 1))
    (halt : ∀ q, Alternates (pfcs q past ++ pfcs q [p] ++ next q)) :
    (peer.receive p).qbbEnabled = true ∧
      (∀ q, (peer.receive p).paused q = decide ((pfcs q (past ++ [p])).length % 2 = 1)) ∧
      (peer.receive p).resumeFailed = peer.resumeFailed := by
  cases hp : p.pfc with
  | none => simp [Peer.receive, hp, pfcs_of_data, hen, hpaused]
  | some h =>
    have hframe : ∀ q, pfcs q [p] = if q = h.qIndex then [decide (h.time > 0)] else [] := by
      intro q
      by_cases hq : q = h.qIndex <;> simp [pfcs, hp, hq]
    have hnext := halt h.qIndex
    rw [hframe, if_pos rfl, List.append_assoc] at hnext
    have hty := hnext.next
    have hpar := hpaused h.qIndex
    by_cases hpos : h.time > 0
    · have heven : (pfcs h.qIndex past).length % 2 = 0 := by simpa [hpos] using hty
      refine ⟨by simp [Peer.receive, hp, hen, hpos], fun q => ?_, by
        simp [Peer.receive, hp, hen, hpos]⟩
      by_cases hq : q = h.qIndex
      · subst hq
        simp [Peer.receive, hp, hen, hpos, hframe]
        omega
      · simp [Peer.receive, hp, hen, hpos, hframe, hq, hpaused]
    · have hodd : (pfcs h.qIndex past).length % 2 = 1 := by
        have : ¬ (pfcs h.qIndex past).length % 2 = 0 := by simpa [hpos] using hty
        omega
      refine ⟨by simp [Peer.receive, Peer.resume, hp, hen, hpos], fun q => ?_, by
        simp [Peer.receive, Peer.resume, hp, hen, hpos, hpar, hodd]⟩
      by_cases hq : q = h.qIndex
      · subst hq
        simp [Peer.receive, Peer.resume, hp, hen, hpos, hframe]
        omega
      · simp [Peer.receive, Peer.resume, hp, hen, hpos, hframe, hq, hpaused]

variable {l l' : PfcLink}

/-- The oldest packet on a wire is delivered. -/
theorem Inv.deliver (h : Inv l) (d : ℕ) (hstep : l.step (.deliver d) = some l') : Inv l' := by
  cases hw : l.switch.wire d with
  | nil => simp [step, hw] at hstep
  | cons p ps =>
    simp only [step, hw, Option.some.injEq] at hstep
    subst hstep
    have hcontrol : l.switch.control d = p :: (ps ++ l.switch.held d 0) := by
      rw [Switch.control, hw, List.cons_append]
    have halt : ∀ q, Alternates
        (pfcs q (l.delivered d) ++ pfcs q [p] ++ pfcs q (ps ++ l.switch.held d 0)) := by
      intro q
      have halt := h.switch.flow.alternates d q
      rwa [h.switch.flow.flow, hcontrol, pfcs_append, pfcs_cons, ← List.append_assoc] at halt
    obtain ⟨hen, hpaused, hres⟩ := receive_spec p (h.enabled d) (h.paused d) halt
    refine ⟨⟨⟨fun d' q => ?_, h.switch.flow.alternates, h.switch.flow.pausetime,
      h.switch.flow.data⟩, h.switch.agrees⟩, fun d' => ?_, fun d' q => ?_, fun d' => ?_⟩
    · refine (h.switch.flow.flow d' q).trans ?_
      by_cases hd : d' = d
      · subst hd
        rw [hcontrol]
        simp [Switch.control, Switch.held]
      · simp [Switch.control, hd, Switch.held]
    all_goals by_cases hd : d' = d
    · subst hd
      simpa using hen
    · simpa [hd] using h.enabled d'
    · subst hd
      simpa using hpaused q
    · simpa [hd] using h.paused d' q
    · subst hd
      simpa [h.resumed] using hres
    · simpa [hd] using h.resumed d'

theorem step_suffix {op : Op} (hstep : l.step op = some l') :
    l.switch.trace <:+ l'.switch.trace := by
  cases op with
  | switch op =>
    obtain ⟨s, hs, rfl⟩ := Option.map_eq_some_iff.1 hstep
    exact (Switch.Continues.step hs).suffix
  | deliver d =>
    simp only [step] at hstep
    split at hstep
    · cases hstep
    · cases hstep
      exact List.suffix_rfl

theorem Inv.step (h : Inv l) {op : Op} (hdown : ∀ d, op ≠ .switch (.takeDown d))
    (hstep : l.step op = some l') (hlost : Switch.NoControlLost l'.switch.trace) : Inv l' := by
  cases op with
  | switch op =>
    obtain ⟨s, hs, rfl⟩ := Option.map_eq_some_iff.1 hstep
    have hswitch := h.switch.step (fun d hd => hdown d (by rw [hd])) hs hlost
    exact ⟨hswitch, h.enabled, h.paused, h.resumed⟩
  | deliver d => exact h.deliver d hstep

theorem inv_init {c : Switch.Config} (hpos : ∀ d, c.pausetime d > 0) : Inv (init c) :=
  ⟨.init hpos, fun _ => rfl, fun _ _ => rfl, fun _ => rfl⟩

/-- **Both ends of a link agree on PFC.** In every run without `TakeDown` in which class `0` takes
every packet in, the frames sent for a queue alternate, starting with a pause; the assertion of
`Resume` holds; and the two flags are equal whenever no frame for the queue is under way. -/
theorem agree_of_run {c : Switch.Config} {ops : List Op} (hpos : ∀ d, c.pausetime d > 0)
    (hrun : Run.exec step (init c) ops = some l) (hdown : ∀ d, .switch (.takeDown d) ∉ ops)
    (hlost : Switch.NoControlLost l.switch.trace) :
    ∀ d, (l.peers d).resumeFailed = false ∧ ∀ q,
      Alternates (Switch.pfcSent d q l.switch.trace) ∧
      (pfcs q (l.switch.control d) = [] →
        (l.peers d).paused q = l.switch.mmu.paused d q) := by
  have hC : Run.Along step (fun _ op => ∀ d, op ≠ .switch (.takeDown d)) (init c) ops := by
    refine Run.along_of_forall (fun _ op hop d hd => ?_) _
    subst hd
    exact hdown d hop
  have hinv : Inv l := Run.exec_induction
    (I := fun l => Switch.NoControlLost l.switch.trace → Inv l)
    (fun l op l' h hop hstep hlost => (h (hlost.suffix (step_suffix hstep))).step hop hstep hlost)
    (fun _ => inv_init hpos) hC hrun hlost
  refine fun d => ⟨hinv.resumed d, fun q => ⟨hinv.switch.flow.alternates d q, fun hnone => ?_⟩⟩
  rw [hinv.paused, hinv.switch.agrees, hinv.switch.flow.flow, pfcs_append, hnone, List.append_nil]

/-- A switch without shared pool: pause, resume and pause are delivered to the peer. -/
theorem agree_of_run_three_frames :
    ∃ l, Run.exec step
        (init (.default 3
          { bufferSize := 1000, pfcAShift := fun _ => 0, reserve := 0, headroom := fun _ => 1000,
            resumeOffset := 0, totalHdrm := 1000, totalRsrv := 0 }))
        [.switch (.receive 1 ⟨0x11, 3⟩ 1000 (some 2)), .deliver 1,
          .switch (.receive 1 ⟨0x11, 3⟩ 1000 (some 2)), .switch (.transmitComplete 1), .deliver 1,
          .switch (.transmitComplete 1), .deliver 1] = some l ∧
      Switch.pfcSent 1 3 l.switch.trace = [true, false, true] ∧
      (l.peers 1).resumeFailed = false ∧ (l.peers 1).paused 3 = l.switch.mmu.paused 1 3 := by
  let c : Switch.Config := .default 3
    { bufferSize := 1000, pfcAShift := fun _ => 0, reserve := 0, headroom := fun _ => 1000
      resumeOffset := 0, totalHdrm := 1000, totalRsrv := 0 }
  have hval : (Run.exec step (init c) [.switch (.receive 1 ⟨0x11, 3⟩ 1000 (some 2)), .deliver 1,
      .switch (.receive 1 ⟨0x11, 3⟩ 1000 (some 2)), .switch (.transmitComplete 1), .deliver 1,
      .switch (.transmitComplete 1), .deliver 1]).map
        (fun l => (pfcs 3 (l.switch.control 1), l.switch.trace)) =
      some ([], [.setPause 1 3, .sentPfc 1 3 .pause, .arrived 1 3 1000, .setResume 1 3,
        .sentPfc 1 3 .resume, .setPause 1 3, .sentPfc 1 3 .pause, .arrived 1 3 1000]) := by
    decide +kernel
  obtain ⟨l, hrun, hl⟩ := Option.map_eq_some_iff.1 hval
  obtain ⟨hnone, htrace⟩ := Prod.ext_iff.1 hl
  simp only at hnone htrace
  have hagree := agree_of_run (fun _ => (by decide : (5 : UInt32) > 0)) hrun (by simp)
    (by rw [htrace]; intro d p hmem; simp at hmem) 1
  exact ⟨l, hrun, by rw [htrace]; decide, hagree.1, (hagree.2 3).2 hnone⟩

end PfcLink

end HpccSim
