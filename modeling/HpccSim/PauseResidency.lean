import HpccSim.Conservation

/-!
# No permanent pause

A resume is considered only when a packet of the paused input queue leaves, against a threshold
that all other queues move. It is nevertheless never missed: when the last packet leaves, both
counters of the queue are zero, and the test succeeds whatever the threshold. So a queue stays
paused only as long as one of its packets is held.

While `SendPfc` is under way the flags lag behind: the queue of a packet that is admitted but not
yet enqueued may be paused with nothing held, and so may a queue whose resume has been sent but
not yet recorded. The invariant carries both kinds of exceptions.

## Main definitions

* `Switch.Resident`: a packet of the input queue is held.
* `Switch.PausedResident`: the invariant.

## Main results

* `Switch.resident_of_paused`: a paused queue has a resident packet, and the departure of the last
  one sends a resume.
-/

namespace HpccSim

namespace Switch

/-- Some device holds a packet of the input queue `(p, q)`. -/
def Resident (s : Switch) (p q : ℕ) : Prop :=
  ∃ d < s.nDevices, ∃ r ∈ s.held d q, r.flowId = p

/-- A packet of the input queue `(p, q)` is in hand. -/
def Held (x : List InHand) (p q : ℕ) : Prop := ∃ r ∈ x, r.packet.flowId = p ∧ r.qIndex = q

variable {s t : Switch} {d q : ℕ} {p : Packet} {Q : BEgressQueue} {x : List InHand}
  {pend : ℕ → ℕ → Prop}

theorem residentBytes_eq_zero {i q : ℕ} (h : ¬ s.Resident i q) : s.residentBytes i q = 0 := by
  refine Finset.sum_eq_zero fun d hd => tally_eq_zero_iff.2 fun r hr hi => ?_
  exact absurd ⟨d, Finset.mem_range.1 hd, r, hr, (of_decide_eq_true hi).symm⟩ h

theorem inBytes_eq_zero {i q : ℕ} (h : ¬ Held x i q) : inBytes x i q = 0 := by
  refine tally_eq_zero_iff.2 fun r hr hi => ?_
  obtain ⟨rfl, rfl⟩ := of_decide_eq_true hi
  exact absurd ⟨r, hr, rfl, rfl⟩ h

/-- **With no packet left, the test for a resume succeeds**, for every threshold. -/
theorem Accounted.checkShouldResume (h : Accounted x s) {i q : ℕ} (hq : q ≠ 0)
    (hres : ¬ s.Resident i q) (hx : ¬ Held x i q) (hp : s.mmu.paused i q = true) :
    s.mmu.checkShouldResume i q = true := by
  have hle := h.hdrm i q hq
  have hsum := h.ingress i q hq
  rw [residentBytes_eq_zero hres, inBytes_eq_zero hx] at hle hsum
  have hhdrm : s.mmu.hdrmBytes i q = 0 := UInt32.toNat_inj.1 (Nat.le_zero.1 hle)
  have hing : s.mmu.ingressBytes i q = 0 := by
    rw [hhdrm] at hsum
    simpa using hsum
  rw [SwitchMmu.checkShouldResume_eq_true_iff]
  refine ⟨hp, hhdrm, .inl ?_⟩
  rw [SwitchMmu.getSharedUsed, hing, if_neg]
  simp

/-- A paused queue has a resident packet, or one in hand, or its resume is pending. -/
structure PausedResident (pend : ℕ → ℕ → Prop) (x : List InHand) (s : Switch) : Prop where
  accounted : Accounted x s
  paused : ∀ i q, s.mmu.paused i q = true → pend i q ∨ s.Resident i q ∨ Held x i q
  zero : ∀ i, s.mmu.paused i 0 = false

namespace PausedResident

/-- Operations that keep the flags of the MMU and the queues of the classes other than `0`. -/
theorem congr (h : PausedResident pend x s) (ha : Accounted x t)
    (hp : t.mmu.paused = s.mmu.paused) (hn : t.nDevices = s.nDevices)
    (hheld : ∀ d q, q ≠ 0 → t.held d q = s.held d q) : PausedResident pend x t := by
  refine ⟨ha, fun i q hpq => ?_, fun i => by rw [hp, h.zero]⟩
  rw [hp] at hpq
  have hq : q ≠ 0 := by
    rintro rfl
    rw [h.zero] at hpq
    cases hpq
  rcases h.paused i q hpq with h₁ | ⟨d, hd, r, hr, hi⟩ | h₃
  · exact .inl h₁
  · exact .inr (.inl ⟨d, hn ▸ hd, r, by rwa [hheld d q hq], hi⟩)
  · exact .inr (.inr h₃)

theorem enqueuePfc (h : PausedResident pend x s) (d q : ℕ) (ty : PfcType) :
    PausedResident pend x (s.enqueuePfc d q ty) :=
  h.congr (h.accounted.enqueuePfc d q ty) (by simp) (nDevices_enqueuePfc s d q ty)
    fun d' _ hq => held_enqueuePfc d q d' ty hq

theorem transmitStart (h : PausedResident pend x s) (d : ℕ) (p : Packet) :
    PausedResident pend x (s.transmitStart d p) :=
  h.congr (h.accounted.transmitStart d p) rfl rfl fun d' q _ => held_transmitStart d' q

/-- After a departure the resume of the queue of the packet is pending. -/
theorem departed (h : PausedResident pend x s) (hs : s.Serves d p Q) :
    PausedResident (fun i q => pend i q ∨ i = p.flowId ∧ q = Q.qlast) x (s.departed d p Q) := by
  obtain ⟨hheld, hrest⟩ := hs.held_eq
  refine ⟨h.accounted.departed hs, fun i q hpq => ?_, h.zero⟩
  by_cases hiq : i = p.flowId ∧ q = Q.qlast
  · exact .inl (.inr hiq)
  · rcases h.paused i q hpq with h₁ | ⟨d', hd', r, hr, hi⟩ | h₃
    · exact .inl (.inl h₁)
    · refine .inr (.inl ⟨d', hd', r, ?_, hi⟩)
      change r ∈ (s.setQueue d Q).held d' q
      rw [held_setQueue]
      split_ifs with hd
      · subst hd
        by_cases hq : q = Q.qlast
        · subst hq
          rw [hheld] at hr
          rcases List.mem_cons.1 hr with rfl | hr
          · exact absurd ⟨hi.symm, rfl⟩ hiq
          · exact hr
        · rwa [hrest q hq]
      · exact hr
    · exact .inr (.inr h₃)

/-- Without a resume, the queue of the departed packet is not paused or has another packet. -/
theorem of_departed (h : PausedResident (fun i q => pend i q ∨ i = p.flowId ∧ q = Q.qlast) x s)
    (hq : Q.qlast ≠ 0) (hres : s.mmu.checkShouldResume p.flowId Q.qlast = false) :
    PausedResident pend x s := by
  refine ⟨h.accounted, fun i q hpq => ?_, h.zero⟩
  rcases h.paused i q hpq with (h₁ | ⟨rfl, rfl⟩) | h₂
  · exact .inl h₁
  · by_contra hno
    simp only [not_or] at hno
    rw [h.accounted.checkShouldResume hq hno.2.1 hno.2.2 hpq] at hres
    cases hres
  · exact .inr h₂

/-- Recording the resume of a queue removes it from the pending ones. -/
theorem setResume {i₀ q₀ : ℕ}
    (h : PausedResident (fun i q => pend i q ∨ i = i₀ ∧ q = q₀) x s) :
    PausedResident pend x (s.setResume i₀ q₀) := by
  refine ⟨h.accounted.setResume i₀ q₀, fun i q hpq => ?_, fun i => ?_⟩
  · by_cases hiq : i = i₀ ∧ q = q₀
    · obtain ⟨rfl, rfl⟩ := hiq
      simp at hpq
    · rw [mmu_setResume, SwitchMmu.setResume_paused, setAt_of_ne _ hiq] at hpq
      rcases h.paused i q hpq with (h₁ | h₁) | h₂
      · exact .inl h₁
      · exact absurd h₁ hiq
      · exact .inr h₂
  · rw [mmu_setResume, SwitchMmu.setResume_paused, setAt]
    split_ifs
    · rfl
    · exact h.zero i

/-- `DequeueAndTransmit` keeps the invariant, whatever is in hand or pending around the call. -/
theorem transmit (h : PausedResident pend x s) (d : ℕ) : PausedResident pend x (transmit d s) := by
  refine transmit_rel
    (R := fun s t => ∀ pend, PausedResident pend x s → PausedResident pend x t)
    (fun _ _ h => h) ?_ ?_ ?_ d s pend h
  · intro s d p Q hs hq pend h
    have hheld : ∀ d' q, q ≠ 0 → ((s.setQueue d Q).transmitStart d p).held d' q = s.held d' q := by
      intro d' q hq'
      rw [held_transmitStart, held_setQueue]
      split_ifs with hd
      · rw [hs.held_eq.2 q (by omega), hd]
      · rfl
    exact h.congr (h.accounted.congr rfl rfl rfl rfl hheld) rfl rfl hheld
  · intro s d p Q hs hq hres pend h
    exact ((h.departed hs).of_departed hq hres).transmitStart d p
  · intro s d p Q t hs _ _ ht _ pend h
    exact (ht _ ((h.departed hs).enqueuePfc _ _ _)).setResume.transmitStart d p

theorem setPause (h : PausedResident pend x s) {i q : ℕ} (hq : q ≠ 0) (hx : Held x i q) :
    PausedResident pend x (s.setPause i q) := by
  refine ⟨h.accounted.setPause i q, fun i' q' hpq => ?_, fun i' => ?_⟩
  · by_cases hiq : i' = i ∧ q' = q
    · obtain ⟨rfl, rfl⟩ := hiq
      exact .inr (.inr hx)
    · rw [mmu_setPause, SwitchMmu.setPause_paused, setAt_of_ne _ hiq] at hpq
      exact h.paused i' q' hpq
  · rw [mmu_setPause, SwitchMmu.setPause_paused, setAt_of_ne _ fun hc => hq hc.2.symm]
    exact h.zero i'

/-- The packet that is admitted is in hand until it is enqueued. -/
theorem takeIn (h : PausedResident pend x s) (hq : q ≠ 0) (i : ℕ) :
    PausedResident pend (⟨i, q, p⟩ :: x) (s.takeIn i q p) := by
  have hlog : Accounted x (s.log (.arrived p.flowId q p.size)) :=
    h.accounted.congr rfl rfl rfl rfl fun _ _ _ => rfl
  have hcharge : PausedResident pend (⟨i, q, p⟩ :: x)
      ((s.log (.arrived p.flowId q p.size)).charge i q p) := by
    refine ⟨hlog.charge i q p, fun j q' hpq => ?_, fun j => ?_⟩
    · simp only [charge, mmu_log, SwitchMmu.updateEgressAdmission_paused,
        SwitchMmu.updateIngressAdmission_paused] at hpq
      rcases h.paused j q' hpq with h₁ | h₂ | ⟨r, hr, hheld⟩
      · exact .inl h₁
      · exact .inr (.inl h₂)
      · exact .inr (.inr ⟨r, List.mem_cons_of_mem _ hr, hheld⟩)
    · simpa [charge] using h.zero j
  have hpfc : PausedResident pend (⟨i, q, p⟩ :: x)
      (((s.log (.arrived p.flowId q p.size)).charge i q p).checkAndSendPfc Switch.transmit
        p.flowId q) := by
    rw [checkAndSendPfc]
    split_ifs
    · exact ((hcharge.enqueuePfc p.flowId q .pause).transmit p.flowId).setPause hq
        ⟨_, List.mem_cons_self, rfl, rfl⟩
    · exact hcharge
  exact ⟨hpfc.accounted.congr rfl rfl rfl rfl fun _ _ _ => rfl, hpfc.paused, hpfc.zero⟩

/-- The packet in hand is taken in by its queue and so becomes resident. -/
theorem enqueue {i : ℕ} (h : PausedResident pend (⟨i, q, p⟩ :: x) s) (hi : i < s.nDevices)
    (hacc : (s.devices i).queue.accepts p q = true) :
    PausedResident pend x (s.enqueue i q p) := by
  refine ⟨h.accounted.enqueue hi hacc, fun j q' hpq => ?_, fun j => by simpa using h.zero j⟩
  rw [mmu_enqueue] at hpq
  have hmem : ∀ d r, r ∈ s.held d q' → r ∈ (s.enqueue i q p).held d q' := by
    intro d r hr
    rw [held_enqueue]
    split_ifs with hc
    · obtain ⟨rfl, rfl, -⟩ := hc
      exact List.mem_append_left _ hr
    · exact hr
  rcases h.paused j q' hpq with h₁ | ⟨d, hd, r, hr, hj⟩ | ⟨r, hr, hj, hq'⟩
  · exact .inl h₁
  · exact .inr (.inl ⟨d, by rwa [nDevices_enqueue], r, hmem d r hr, hj⟩)
  · rcases List.mem_cons.1 hr with rfl | hr
    · subst hq'
      refine .inr (.inl ⟨i, by rwa [nDevices_enqueue], p, ?_, hj⟩)
      simp [held_enqueue, hacc]
    · exact .inr (.inr ⟨r, hr, hj, hq'⟩)

end PausedResident

/-! ### Runs -/

/-- No packet of a class other than `0` is lost at an egress queue. -/
def NoneLost (l : List Event) : Prop := ∀ d q r, q ≠ 0 → .lost d q r ∉ l

theorem accepts_of_noneLost {i : ℕ} (hq : q ≠ 0)
    (h : NoneLost (s.switchSend transmit i q p).trace) :
    (s.devices i).queue.accepts p q = true := by
  by_contra hacc
  refine h i q p hq ((Continues.transmit i (s.enqueue i q p)).suffix.subset ?_)
  rw [trace_enqueue, if_neg hacc]
  exact List.mem_cons_self

/-- The arrival of a packet. -/
theorem PausedResident.sendToDev (h : PausedResident pend [] s) {ch : Header} {n : UInt32} {d : ℕ}
    {idx : Option ℕ} (hidx : ∀ i ∈ idx, i < s.nDevices)
    (hlost : NoneLost (s.sendToDev idx ch ⟨n, d, none⟩).trace) :
    PausedResident pend [] (s.sendToDev idx ch ⟨n, d, none⟩) := by
  rcases sendToDev_cases s idx ch ⟨n, d, none⟩ with
    heq | ⟨i, -, heq⟩ | ⟨-, -, heq⟩ | ⟨i, hi, hq, -, heq⟩
  all_goals rw [heq] at hlost ⊢
  · exact h
  · have hheld : ∀ d' q', q' ≠ 0 → ((s.countBytes i 0 ⟨n, d, none⟩).enqueue i 0
        ⟨n, d, none⟩).held d' q' = s.held d' q' := fun d' _ hq' => held_enqueue_zero d' hq'
    have hsent : PausedResident pend []
        ((s.countBytes i 0 ⟨n, d, none⟩).enqueue i 0 ⟨n, d, none⟩) :=
      h.congr (h.accounted.congr (by simp) (by simp) (by simp) (nDevices_enqueue 0) hheld)
        (by simp) (nDevices_enqueue 0) hheld
    exact hsent.transmit i
  · exact ⟨h.accounted.congr rfl rfl rfl rfl fun _ _ _ => rfl, h.paused, h.zero⟩
  · have htaken := h.takeIn (p := ⟨n, d, none⟩) hq i
    have hlt : i < (s.takeIn i (s.qIndexOf ch) ⟨n, d, none⟩).nDevices := by
      rw [(Continues.takeIn s i _ _).nDevices]
      exact hidx i hi
    exact (htaken.enqueue hlt (accepts_of_noneLost hq hlost)).transmit i

theorem PausedResident.setPaused (h : PausedResident pend x s) (d q : ℕ) (b : Bool) :
    PausedResident pend x (s.setPaused d q b) :=
  h.congr (h.accounted.congr rfl rfl rfl rfl fun d' q' _ => held_setPaused b d' q') rfl rfl
    fun d' q' _ => held_setPaused b d' q'

theorem PausedResident.setReady (h : PausedResident pend x s) (d : ℕ) :
    PausedResident pend x (s.setReady d) :=
  h.congr (h.accounted.congr rfl rfl rfl rfl fun d' q' _ => held_setReady d' q') rfl rfl
    fun d' q' _ => held_setReady d' q'

theorem PausedResident.step (h : PausedResident pend [] s) {op : Op}
    (hdown : ∀ d, op ≠ .takeDown d) (hstep : s.step op = some t) (hlost : NoneLost t.trace) :
    PausedResident pend [] t := by
  rcases step_cases hstep with rfl | ⟨d, ch, n, idx, -, -, hidx, rfl⟩ | ⟨d, q, rfl⟩ |
    ⟨d, q, rfl⟩ | ⟨d, rfl⟩ | ⟨d, hop, -⟩
  · exact h
  · exact h.sendToDev hidx hlost
  · exact h.setPaused d q true
  · exact (h.setPaused d q false).transmit d
  · exact (h.setReady d).transmit d
  · exact absurd hop (hdown d)

theorem PausedResident.init (c : Config) : PausedResident pend [] (init c) := by
  refine ⟨.init c, fun i q hpq => ?_, fun i => rfl⟩
  cases hpq

theorem NoneLost.suffix {l l' : List Event} (h : NoneLost l) (hl : l' <:+ l) : NoneLost l' :=
  fun d q r hq hmem => h d q r hq (hl.subset hmem)

theorem pausedResident_of_run {c : Config} {ops : List Op}
    (hrun : Run.exec step (init c) ops = some s) (hdown : ∀ d, .takeDown d ∉ ops)
    (hlost : NoneLost s.trace) : PausedResident (fun _ _ => False) [] s := by
  have hC : Run.Along step (fun _ op => ∀ d, op ≠ .takeDown d) (Switch.init c) ops := by
    refine Run.along_of_forall (fun _ op hop d hd => ?_) _
    subst hd
    exact hdown d hop
  refine Run.exec_induction
    (I := fun s => NoneLost s.trace → PausedResident (fun _ _ => False) [] s)
    (fun s op t h hop hstep hlost => ?_) (fun _ => .init c) hC hrun hlost
  exact (h (hlost.suffix (Continues.step hstep).suffix)).step hop hstep hlost

/-- Between `s` and `t` the queue `(i, q)` is resumed only with a frame sent. -/
def ResumeSent (i q : ℕ) (s t : Switch) : Prop :=
  ∃ new, t.trace = new ++ s.trace ∧
    (s.mmu.paused i q = true → t.mmu.paused i q = false → .sentPfc i q .resume ∈ new)

namespace ResumeSent

variable {u : Switch} {i q : ℕ}

theorem of_continues (h : Continues s t)
    (hp : s.mmu.paused i q = true → t.mmu.paused i q = true) : ResumeSent i q s t := by
  obtain ⟨new, hnew⟩ := h.suffix
  refine ⟨new, hnew.symm, fun hs ht => ?_⟩
  rw [hp hs] at ht
  cases ht

theorem trans (h : ResumeSent i q s t) (h' : ResumeSent i q t u) : ResumeSent i q s u := by
  obtain ⟨new, hnew, hsent⟩ := h
  obtain ⟨new', hnew', hsent'⟩ := h'
  refine ⟨new' ++ new, by rw [hnew', hnew, List.append_assoc], fun hs hu => ?_⟩
  cases ht : t.mmu.paused i q with
  | false => exact List.mem_append_right _ (hsent hs ht)
  | true => exact List.mem_append_left _ (hsent' ht hu)

/-- The frame is sent first and the flag reset after the nested call. -/
theorem enqueuePfc_setResume {i' q' : ℕ}
    (h : ResumeSent i q (s.enqueuePfc i' q' .resume) t)
    (ht : Continues (s.enqueuePfc i' q' .resume) t) :
    ResumeSent i q s (t.setResume i' q') := by
  have hlog : Continues (s.log (.sentPfc i' q' .resume)) (t.setResume i' q') :=
    ((Continues.enqueue _ i' 0 _).trans ht).trans (.setResume t i' q')
  by_cases hiq : i = i' ∧ q = q'
  · obtain ⟨rfl, rfl⟩ := hiq
    obtain ⟨new, hnew⟩ := hlog.suffix
    refine ⟨new ++ [.sentPfc i q .resume], ?_, fun _ _ => ?_⟩
    · rw [← hnew, trace_log, List.append_assoc, List.singleton_append]
    · exact List.mem_append_right _ List.mem_cons_self
  · refine ((of_continues (.enqueuePfc s i' q' .resume) fun hs => by simpa using hs).trans
      h).trans (of_continues (.setResume t i' q') fun hs => ?_)
    rwa [mmu_setResume, SwitchMmu.setResume_paused, setAt_of_ne _ hiq]

theorem transmit (d : ℕ) (s : Switch) : ResumeSent i q s (transmit d s) := by
  have hrel : Continues s (Switch.transmit d s) ∧ ResumeSent i q s (Switch.transmit d s) := by
    refine transmit_rel (R := fun s t => Continues s t ∧ ResumeSent i q s t)
      (fun s => ⟨.refl s, of_continues (.refl s) id⟩) ?_ ?_ ?_ d s
    · intro s d p Q _ _
      have hcont : Continues s ((s.setQueue d Q).transmitStart d p) := ⟨rfl, rfl, List.suffix_rfl⟩
      exact ⟨hcont, of_continues hcont id⟩
    · intro s d p Q _ _ _
      have hcont := (Continues.departed s d p Q).trans (.transmitStart _ d p)
      exact ⟨hcont, of_continues hcont id⟩
    · intro s d p Q t _ _ _ ht _
      have hdep := Continues.departed s d p Q
      have hcont := ((hdep.trans (.enqueuePfc _ p.flowId Q.qlast .resume)).trans ht.1).trans
        ((Continues.setResume t p.flowId Q.qlast).trans (.transmitStart _ d p))
      refine ⟨hcont, ?_⟩
      exact ((of_continues hdep id).trans (enqueuePfc_setResume ht.2 ht.1)).trans
        (of_continues (.transmitStart _ d p) id)
  exact hrel.2

theorem takeIn (s : Switch) (j q' : ℕ) (p : Packet) : ResumeSent i q s (s.takeIn j q' p) := by
  have hcharge : Continues s ((s.log (.arrived p.flowId q' p.size)).charge j q' p) :=
    ⟨rfl, by simp [charge], List.suffix_cons _ _⟩
  have hfirst : ResumeSent i q s ((s.log (.arrived p.flowId q' p.size)).charge j q' p) :=
    of_continues hcharge fun hs => by simpa [charge] using hs
  have hlast : ∀ t : Switch, ResumeSent i q t (t.countBytes j q' p) := fun t =>
    of_continues ⟨rfl, rfl, List.suffix_rfl⟩ id
  refine hfirst.trans (.trans ?_ (hlast _))
  rw [checkAndSendPfc]
  split_ifs
  · refine ((of_continues (.enqueuePfc _ _ q' .pause) fun hs => by simpa using hs).trans
      (transmit _ _)).trans (of_continues (.setPause _ _ _) fun hs => ?_)
    rw [mmu_setPause, SwitchMmu.setPause_paused, setAt]
    split_ifs
    · rfl
    · exact hs
  · exact of_continues (.refl _) id

theorem switchSend (s : Switch) (d q' : ℕ) (p : Packet) :
    ResumeSent i q s (s.switchSend Switch.transmit d q' p) :=
  (of_continues (.enqueue s d q' p) fun hs => by simpa using hs).trans (transmit d _)

theorem sendToDev (s : Switch) (idx : Option ℕ) (ch : Header) (p : Packet) :
    ResumeSent i q s (s.sendToDev idx ch p) := by
  have hcont := Continues.sendToDev s idx ch p
  rcases sendToDev_cases s idx ch p with heq | ⟨j, -, heq⟩ | ⟨-, -, heq⟩ | ⟨j, -, -, -, heq⟩
  all_goals rw [heq] at hcont ⊢
  · exact of_continues hcont id
  · have hcount : ResumeSent i q s (s.countBytes j 0 p) :=
      of_continues ⟨rfl, rfl, List.suffix_rfl⟩ id
    exact hcount.trans (switchSend _ j 0 p)
  · exact of_continues hcont id
  · exact (takeIn s j _ p).trans (switchSend _ j _ p)

theorem step {op : Op} (hstep : s.step op = some t) : ResumeSent i q s t := by
  have hcont := Continues.step hstep
  rcases step_cases hstep with rfl | ⟨d, ch, n, idx, -, -, -, rfl⟩ | ⟨d, q', rfl⟩ |
    ⟨d, q', rfl⟩ | ⟨d, rfl⟩ | ⟨d, -, rfl⟩
  · exact of_continues hcont id
  · exact sendToDev s idx ch _
  · exact of_continues hcont id
  · exact (of_continues (.setPaused s d q' false) id).trans (transmit d _)
  · exact (of_continues (.setReady s d) id).trans (transmit d _)
  · exact of_continues hcont id

end ResumeSent

/-- **No permanent pause.** In every run without `TakeDown` in which no admitted packet is lost at
an egress queue, a paused input queue has a resident packet; and an event in which the last one
departs sends a resume. -/
theorem resident_of_paused {c : Config} {ops : List Op}
    (hrun : Run.exec step (init c) ops = some s) (hdown : ∀ d, .takeDown d ∉ ops)
    (hlost : NoneLost s.trace) :
    (∀ i q, s.mmu.paused i q = true → s.Resident i q) ∧
      ∀ op t, s.step op = some t → (∀ d, op ≠ .takeDown d) → NoneLost t.trace →
        ∀ i q, s.mmu.paused i q = true → ¬ t.Resident i q →
          ∃ new, t.trace = new ++ s.trace ∧ .sentPfc i q .resume ∈ new := by
  have hinv := pausedResident_of_run hrun hdown hlost
  have hres : ∀ {u : Switch}, PausedResident (fun _ _ => False) [] u →
      ∀ i q, u.mmu.paused i q = true → u.Resident i q := by
    intro u hu i q hpq
    rcases hu.paused i q hpq with h | h | ⟨r, hr, -⟩
    · exact h.elim
    · exact h
    · cases hr
  refine ⟨hres hinv, fun op t hstep hop hlost' i q hpq hno => ?_⟩
  obtain ⟨new, hnew, hsent⟩ := ResumeSent.step (i := i) (q := q) hstep
  refine ⟨new, hnew, hsent hpq (Bool.eq_false_iff.2 fun ht => ?_)⟩
  exact hno (hres (hinv.step hop hstep hlost') i q ht)

/-- A switch without shared pool: the second of two packets waits and keeps its queue paused. -/
theorem resident_of_paused_two_packets :
    ∃ s, Run.exec step
        (init (.default 3
          { bufferSize := 1000, pfcAShift := fun _ => 0, reserve := 0, headroom := fun _ => 1000,
            resumeOffset := 0, totalHdrm := 1000, totalRsrv := 0 }))
        [.receive 1 ⟨0x11, 3⟩ 1000 (some 2), .receive 1 ⟨0x11, 3⟩ 1000 (some 2)] = some s ∧
      s.mmu.paused 1 3 = true ∧ s.Resident 1 3 := by
  let c : Config := .default 3
    { bufferSize := 1000, pfcAShift := fun _ => 0, reserve := 0, headroom := fun _ => 1000
      resumeOffset := 0, totalHdrm := 1000, totalRsrv := 0 }
  have hval : (Run.exec step (init c) [.receive 1 ⟨0x11, 3⟩ 1000 (some 2),
      .receive 1 ⟨0x11, 3⟩ 1000 (some 2)]).map (fun s => (s.mmu.paused 1 3, s.trace)) =
      some (true, [.setPause 1 3, .sentPfc 1 3 .pause, .arrived 1 3 1000, .setResume 1 3,
        .sentPfc 1 3 .resume, .setPause 1 3, .sentPfc 1 3 .pause, .arrived 1 3 1000]) := by
    decide +kernel
  obtain ⟨s, hrun, hs⟩ := Option.map_eq_some_iff.1 hval
  obtain ⟨hpaused, htrace⟩ := Prod.ext_iff.1 hs
  simp only at hpaused htrace
  refine ⟨s, hrun, hpaused,
    (resident_of_paused hrun (by simp) fun d q r _ hmem => ?_).1 1 3 hpaused⟩
  rw [htrace] at hmem
  simp at hmem

end Switch

end HpccSim
