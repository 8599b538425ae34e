import HpccSim.SwitchNode

/-!
# PFC keeps a switch lossless

An input queue `(inDev, qIndex)` is paused from `SetPause` to the next `SetResume`. Whatever the
other queues do to the dynamic threshold, no packet of the queue is refused as long as each packet,
and all packets of each pause together, fit in the headroom of the port. The reason is that the
headroom of a queue is used during a pause only, by packets that arrived in it: outside a pause
`hdrm_bytes` is zero, and it does not exceed the bytes of the pause so far.

## Main definitions

* `Switch.episodeBytes`: the bytes that arrived in the current pause, read off the log.
* `Switch.EpisodesFit`: every packet and every pause fits in the headroom.
* `Switch.Drained`: what `DequeueAndTransmit` can do to a queue.

## Main results

* `Switch.notMem_dropped_of_episodesFit`: then no packet of the queue is refused.
-/

namespace HpccSim

namespace Switch

/-- The size of the packet that arrived last on `(p, q)`. -/
def lastArrival (p q : ℕ) : List Event → ℕ
  | [] => 0
  | .arrived p' q' n :: l => if p = p' ∧ q = q' then n.toNat else lastArrival p q l
  | _ :: l => lastArrival p q l

/-- The bytes that arrived on `(p, q)` in the current pause, the packet that triggered it
included; `none` outside a pause. -/
def episodeBytes (p q : ℕ) : List Event → Option ℕ
  | [] => none
  | .arrived p' q' n :: l =>
    if p = p' ∧ q = q' then (episodeBytes p q l).map (· + n.toNat) else episodeBytes p q l
  | .setPause p' q' :: l =>
    if p = p' ∧ q = q' then some (lastArrival p q l) else episodeBytes p q l
  | .setResume p' q' :: l => if p = p' ∧ q = q' then none else episodeBytes p q l
  | _ :: l => episodeBytes p q l

/-- On `(p, q)` every packet, and every pause at any moment, fits in `size` bytes. -/
def EpisodesFit (p q size : ℕ) (l : List Event) : Prop :=
  (∀ n, .arrived p q n ∈ l → n.toNat ≤ size) ∧
    ∀ l', l' <:+ l → ∀ n, episodeBytes p q l' = some n → n ≤ size

theorem EpisodesFit.suffix {p q size : ℕ} {l l' : List Event} (h : EpisodesFit p q size l)
    (hl : l' <:+ l) : EpisodesFit p q size l' :=
  ⟨fun n hn => h.1 n (hl.subset hn), fun _ hl' => h.2 _ (hl'.trans hl)⟩

/-- The bytes that have arrived at all. -/
def arrivedBytes : List Event → ℕ
  | [] => 0
  | .arrived _ _ n :: l => arrivedBytes l + n.toNat
  | _ :: l => arrivedBytes l

theorem arrivedBytes_suffix {l l' : List Event} (h : l' <:+ l) :
    arrivedBytes l' ≤ arrivedBytes l := by
  obtain ⟨l'', rfl⟩ := h
  induction l'' with
  | nil => exact le_rfl
  | cons e l'' ih =>
    cases e with
    | arrived p q n => exact ih.trans (Nat.le_add_right _ _)
    | _ => exact ih

theorem lastArrival_le (p q : ℕ) (l : List Event) : lastArrival p q l ≤ arrivedBytes l := by
  induction l with
  | nil => exact le_rfl
  | cons e l ih =>
    cases e with
    | arrived p' q' n =>
      rw [lastArrival, arrivedBytes]
      split_ifs
      · exact Nat.le_add_left _ _
      · exact ih.trans (Nat.le_add_right _ _)
    | _ => exact ih

/-- A pause has no more bytes than have arrived. -/
theorem episodeBytes_le {p q : ℕ} {l : List Event} {n : ℕ} (h : episodeBytes p q l = some n) :
    n ≤ arrivedBytes l := by
  induction l generalizing n with
  | nil => cases h
  | cons e l ih =>
    cases e with
    | arrived p' q' m =>
      rw [episodeBytes] at h
      rw [arrivedBytes]
      split_ifs at h
      · obtain ⟨k, hk, rfl⟩ := Option.map_eq_some_iff.1 h
        exact Nat.add_le_add_right (ih hk) _
      · exact (ih h).trans (Nat.le_add_right _ _)
    | setPause p' q' =>
      rw [episodeBytes] at h
      split_ifs at h
      · cases h
        exact lastArrival_le p q l
      · exact ih h
    | setResume p' q' =>
      rw [episodeBytes] at h
      split_ifs at h
      exact ih h
    | _ => exact ih h

theorem le_arrivedBytes {p q : ℕ} {n : UInt32} {l : List Event} (h : .arrived p q n ∈ l) :
    n.toNat ≤ arrivedBytes l := by
  obtain ⟨l', l'', rfl⟩ := List.append_of_mem h
  refine le_trans ?_ (arrivedBytes_suffix (List.suffix_append l' _))
  exact Nat.le_add_left _ _

/-- If all that has arrived fits, every packet and every pause does. -/
theorem EpisodesFit.of_arrivedBytes {p q size : ℕ} {l : List Event} (h : arrivedBytes l ≤ size) :
    EpisodesFit p q size l :=
  ⟨fun _ hn => (le_arrivedBytes hn).trans h, fun _ hl' _ hn =>
    (episodeBytes_le hn).trans ((arrivedBytes_suffix hl').trans h)⟩

/-! ### What `DequeueAndTransmit` does to an input queue -/

section Drained

variable {p q : ℕ} {s t u : Switch}

/-- Between `s` and `t` packets of `(p, q)` may have left, and its pause may have ended, which
needs an empty headroom. -/
structure Drained (p q : ℕ) (s t : Switch) : Prop where
  dropped : ∀ n, .dropped p q n ∈ t.trace → .dropped p q n ∈ s.trace
  arrival : lastArrival p q t.trace = lastArrival p q s.trace
  hdrm : (t.mmu.hdrmBytes p q).toNat ≤ (s.mmu.hdrmBytes p q).toNat
  pause : t.mmu.paused p q = s.mmu.paused p q ∧
      episodeBytes p q t.trace = episodeBytes p q s.trace ∨
    s.mmu.paused p q = true ∧ t.mmu.paused p q = false ∧
      episodeBytes p q t.trace = none ∧ (t.mmu.hdrmBytes p q).toNat = 0

namespace Drained

theorem refl (s : Switch) : Drained p q s s :=
  ⟨fun _ h => h, rfl, le_rfl, .inl ⟨rfl, rfl⟩⟩

theorem trans (h : Drained p q s t) (h' : Drained p q t u) : Drained p q s u where
  dropped n hn := h.dropped n (h'.dropped n hn)
  arrival := h'.arrival.trans h.arrival
  hdrm := h'.hdrm.trans h.hdrm
  pause := by
    have hle := h'.hdrm
    rcases h.pause with ⟨hp, he⟩ | ⟨hp, hp', he, hz⟩
    · rw [← hp, ← he]
      exact h'.pause
    · rcases h'.pause with ⟨hq, hf⟩ | ⟨hq, -⟩
      · exact .inr ⟨hp, hq.trans hp', hf.trans he, by omega⟩
      · rw [hp'] at hq
        cases hq

/-- Operations that touch neither the MMU nor the log. -/
theorem of_eq (hm : t.mmu = s.mmu) (ht : t.trace = s.trace) : Drained p q s t := by
  refine ⟨fun n hn => ht ▸ hn, by rw [ht], by rw [hm], .inl ⟨?_, ?_⟩⟩
  · rw [hm]
  · rw [ht]

theorem enqueue (d q' : ℕ) (r : Packet) : Drained p q s (s.enqueue d q' r) := by
  refine ⟨fun n hn => ?_, ?_, by simp, .inl ⟨by simp, ?_⟩⟩
  all_goals rw [trace_enqueue] at *
  · split_ifs at hn
    · exact hn
    · simpa using hn
  all_goals split_ifs <;> rfl

theorem log_sentPfc (d q' : ℕ) (ty : PfcType) : Drained p q s (s.log (.sentPfc d q' ty)) :=
  ⟨fun n hn => by simpa using hn, rfl, le_rfl, .inl ⟨rfl, rfl⟩⟩

theorem enqueuePfc (d q' : ℕ) (ty : PfcType) : Drained p q s (s.enqueuePfc d q' ty) :=
  (log_sentPfc d q' ty).trans (.enqueue d 0 _)

theorem discharge (d q' : ℕ) (r : Packet) : Drained p q s (s.discharge d q' r) := by
  refine ⟨fun _ hn => hn, rfl, ?_, .inl ⟨rfl, rfl⟩⟩
  simp only [Switch.discharge, SwitchMmu.removeFromEgressAdmission_hdrmBytes,
    SwitchMmu.removeFromIngressAdmission_hdrmBytes]
  by_cases h : p = r.flowId ∧ q = q'
  · obtain ⟨rfl, rfl⟩ := h
    rw [setAt_self, SwitchMmu.toNat_hdrmBytes_sub_fromHdrm]
    exact Nat.sub_le _ _
  · rw [setAt_of_ne _ h]

/-- The pause of another queue ends. -/
theorem setResume_of_ne {p' q' : ℕ} (h : ¬ (p = p' ∧ q = q')) :
    Drained p q s (s.setResume p' q') := by
  refine ⟨fun n hn => by simpa using hn, rfl, le_rfl, .inl ⟨?_, ?_⟩⟩
  · simp [setAt_of_ne _ h]
  · simp [episodeBytes, h]

/-- A pause of another queue begins. -/
theorem setPause_of_ne {p' q' : ℕ} (h : ¬ (p = p' ∧ q = q')) :
    Drained p q s (s.setPause p' q') := by
  refine ⟨fun n hn => by simpa using hn, rfl, le_rfl, .inl ⟨?_, ?_⟩⟩
  · simp [setAt_of_ne _ h]
  · simp [episodeBytes, h]

/-- The pause of the queue ends. -/
theorem setResume_self (hs : Drained p q s t) (hp : s.mmu.paused p q = true)
    (hz : (t.mmu.hdrmBytes p q).toNat = 0) : Drained p q s (t.setResume p q) where
  dropped n hn := hs.dropped n (by simpa using hn)
  arrival := hs.arrival
  hdrm := hs.hdrm
  pause := .inr ⟨hp, by simp, by simp [episodeBytes], hz⟩

theorem departed (d : ℕ) (r : Packet) (Q : BEgressQueue) :
    Drained p q s (s.departed d r Q) := by
  have hset : Drained p q s (s.setQueue d Q) := of_eq rfl rfl
  exact hset.trans (discharge d Q.qlast r)

/-- **`DequeueAndTransmit` only drains**: it ends a pause only with an empty headroom. -/
theorem transmit (d : ℕ) (s : Switch) : Drained p q s (transmit d s) := by
  refine transmit_rel (R := Drained p q) refl ?_ ?_ ?_ d s
  · intro s d r Q _ _
    exact of_eq rfl rfl
  · intro s d r Q _ _ _
    exact (departed d r Q).trans (of_eq rfl rfl)
  · intro s d r Q t _ _ hres ht _
    have hst := ((departed d r Q).trans (enqueuePfc r.flowId Q.qlast .resume)).trans ht
    refine Drained.trans ?_ (of_eq (s := t.setResume r.flowId Q.qlast) rfl rfl)
    by_cases h : p = r.flowId ∧ q = Q.qlast
    · obtain ⟨rfl, rfl⟩ := h
      -- the headroom was empty when the resume was decided, and stayed so in the nested call
      obtain ⟨hp, hz⟩ := SwitchMmu.checkShouldResume_eq_true hres
      refine setResume_self hst hp ?_
      have := ht.hdrm
      rw [mmu_enqueuePfc, hz] at this
      exact Nat.le_zero.1 this
    · exact hst.trans (setResume_of_ne h)

theorem switchSend (d q' : ℕ) (r : Packet) : Drained p q s (s.switchSend Switch.transmit d q' r) :=
  (enqueue d q' r).trans (transmit d _)

theorem checkAndSendPfc_of_ne {p' q' : ℕ} (h : ¬ (p = p' ∧ q = q')) :
    Drained p q s (s.checkAndSendPfc Switch.transmit p' q') := by
  rw [checkAndSendPfc]
  split_ifs
  · exact ((enqueuePfc p' q' .pause).trans (transmit p' _)).trans (setPause_of_ne h)
  · exact refl s

theorem countBytes (d q' : ℕ) (r : Packet) : Drained p q s (s.countBytes d q' r) :=
  of_eq rfl rfl

theorem arrived_of_ne {p' q' : ℕ} (h : ¬ (p = p' ∧ q = q')) (n : UInt32) :
    Drained p q s (s.log (.arrived p' q' n)) :=
  ⟨fun n hn => by simpa using hn, by simp [lastArrival, h], le_rfl,
    .inl ⟨rfl, by simp [episodeBytes, h]⟩⟩

theorem dropped_of_ne {p' q' : ℕ} (h : ¬ (p = p' ∧ q = q')) (n : UInt32) :
    Drained p q s (s.log (.dropped p' q' n)) := by
  refine ⟨fun n hn => ?_, rfl, le_rfl, .inl ⟨rfl, rfl⟩⟩
  rcases List.mem_cons.1 hn with heq | hn
  · injection heq with h₁ h₂
    exact absurd ⟨h₁, h₂⟩ h
  · exact hn

theorem charge_of_ne {r : Packet} {q' : ℕ} (h : ¬ (p = r.flowId ∧ q = q')) (d : ℕ) :
    Drained p q s (s.charge d q' r) := by
  refine ⟨fun _ hn => hn, rfl, ?_, .inl ⟨?_, rfl⟩⟩
  · simp only [charge, SwitchMmu.updateEgressAdmission_hdrmBytes]
    rcases s.mmu.updateIngressAdmission_hdrmBytes r.flowId q' r.size with heq | heq
    · rw [heq]
    · rw [heq, setAt_of_ne _ h]
  · simp [charge]

/-- The arrival of a packet for another queue. -/
theorem sendToDev_of_ne {idx : Option ℕ} {ch : Header} {r : Packet}
    (h : ¬ (p = r.flowId ∧ q = s.qIndexOf ch)) : Drained p q s (s.sendToDev idx ch r) := by
  rcases sendToDev_cases s idx ch r with heq | ⟨i, -, heq⟩ | ⟨-, -, heq⟩ | ⟨i, -, -, -, heq⟩
  all_goals rw [heq]
  · exact refl s
  · exact (countBytes i 0 r).trans (switchSend i 0 r)
  · exact (arrived_of_ne h _).trans (dropped_of_ne h _)
  · exact ((((arrived_of_ne h _).trans (charge_of_ne h i)).trans (checkAndSendPfc_of_ne h)).trans
      (countBytes i _ r)).trans (switchSend i _ r)

/-- An event is an arrival for the queue, or it only drains the queue. -/
theorem step {op : Op} (hop : ∀ ch n idx, op = .receive p ch n idx → q ≠ s.qIndexOf ch)
    (hstep : s.step op = some t) : Drained p q s t := by
  rcases step_cases hstep with rfl | ⟨d, ch, n, idx, rfl, -, -, rfl⟩ | ⟨d, q', rfl⟩ |
    ⟨d, q', rfl⟩ | ⟨d, rfl⟩ | ⟨d, -, rfl⟩
  · exact refl t
  · refine sendToDev_of_ne ?_
    rintro ⟨rfl, hq⟩
    exact hop ch n idx rfl hq
  · exact of_eq rfl rfl
  · have hset : Drained p q s (s.setPaused d q' false) := of_eq rfl rfl
    exact hset.trans (transmit d _)
  · have hset : Drained p q s (s.setReady d) := of_eq rfl rfl
    exact hset.trans (transmit d _)
  · exact of_eq rfl rfl

end Drained

end Drained

/-! ### The headroom is covered by the pause -/

section Covered

variable {p q : ℕ} {s t : Switch}

/-- The queue uses its headroom during a pause only, for packets that arrived in it, and none of
its packets has been refused. -/
structure Covered (p q : ℕ) (s : Switch) : Prop where
  paused : s.mmu.paused p q = (episodeBytes p q s.trace).isSome
  hdrm : (s.mmu.hdrmBytes p q).toNat ≤ (episodeBytes p q s.trace).getD 0
  dropped : ∀ n, .dropped p q n ∉ s.trace

namespace Covered

theorem drained (h : Covered p q s) (hst : Drained p q s t) : Covered p q t := by
  refine ⟨?_, ?_, fun n hn => h.dropped n (hst.dropped n hn)⟩
  · rcases hst.pause with ⟨hp, he⟩ | ⟨-, hp, he, -⟩
    · rw [hp, he, h.paused]
    · rw [hp, he]
      rfl
  · rcases hst.pause with ⟨-, he⟩ | ⟨-, -, he, hz⟩
    · rw [he]
      exact hst.hdrm.trans h.hdrm
    · omega

/-- `CheckAndSendPfc` after a packet has been charged: outside a pause the headroom holds at most
that packet, and then a pause begins. -/
theorem checkAndSendPfc (hp : s.mmu.paused p q = (episodeBytes p q s.trace).isSome)
    (hle : (s.mmu.hdrmBytes p q).toNat ≤
      (episodeBytes p q s.trace).getD (lastArrival p q s.trace))
    (hdrop : ∀ n, .dropped p q n ∉ s.trace) :
    Covered p q (s.checkAndSendPfc transmit p q) := by
  rw [Switch.checkAndSendPfc]
  split_ifs with hpause
  · obtain ⟨hoff, -⟩ := (SwitchMmu.checkShouldPause_eq_true_iff _ _ _).1 hpause
    rw [hoff, eq_comm, Option.isSome_eq_false_iff, Option.isNone_iff_eq_none] at hp
    rw [hp, Option.getD_none] at hle
    have ht : Drained p q s (s.sendPfc transmit p q .pause) :=
      (Drained.enqueuePfc p q .pause).trans (.transmit p _)
    refine ⟨by simp [episodeBytes], ?_, fun n hn => hdrop n (ht.dropped n (by simpa using hn))⟩
    simp only [mmu_setPause, SwitchMmu.setPause_hdrmBytes, trace_setPause, episodeBytes, and_self,
      if_true, Option.getD_some]
    rw [ht.arrival]
    exact ht.hdrm.trans hle
  · refine ⟨hp, ?_, hdrop⟩
    cases he : episodeBytes p q s.trace with
    | some e => simpa [he] using hle
    | none =>
      rw [he, Option.isSome_none] at hp
      rw [SwitchMmu.checkShouldPause_eq_true_iff, not_and, not_or] at hpause
      have hz := (hpause hp).1
      rw [gt_iff_lt, UInt32.lt_iff_toNat_lt, UInt32.toNat_zero] at hz
      rw [Option.getD_none]
      omega

/-- **A packet of the queue is admitted by the headroom**, as long as it and the pause fit. -/
theorem checkIngressAdmission (h : Covered p q s) {n : UInt32}
    (hfit : EpisodesFit p q (s.mmu.headroom p).toNat (.arrived p q n :: s.trace)) :
    s.mmu.checkIngressAdmission p q n = true := by
  have hone := hfit.1 n List.mem_cons_self
  have hsum : n.toNat + (s.mmu.hdrmBytes p q).toNat ≤ (s.mmu.headroom p).toNat := by
    have hle := h.hdrm
    cases he : episodeBytes p q s.trace with
    | none =>
      rw [he, Option.getD_none] at hle
      omega
    | some e =>
      rw [he, Option.getD_some] at hle
      have := hfit.2 _ List.suffix_rfl (e + n.toNat) (by simp [episodeBytes, he])
      omega
  have hlt := (s.mmu.headroom p).toNat_lt
  rw [SwitchMmu.checkIngressAdmission_eq_true_iff, UInt32.le_iff_toNat_le, UInt32.toNat_add,
    Nat.mod_eq_of_lt (by omega)]
  exact .inl hsum

/-- The admission of a packet of the queue. -/
theorem takeIn (h : Covered p q s) {r : Packet} (hr : r.flowId = p) (i : ℕ) :
    Covered p q (s.takeIn i q r) := by
  subst hr
  refine (checkAndSendPfc ?_ ?_ ?_).drained (.countBytes i q r)
  · simp [charge, episodeBytes, h.paused]
  · have hle := h.hdrm
    have hadd : ((s.charge i q r).mmu.hdrmBytes r.flowId q).toNat ≤
        (s.mmu.hdrmBytes r.flowId q).toNat + r.size.toNat := by
      simp only [charge, SwitchMmu.updateEgressAdmission_hdrmBytes]
      rcases s.mmu.updateIngressAdmission_hdrmBytes r.flowId q r.size with heq | heq
      · rw [heq]
        exact Nat.le_add_right _ _
      · rw [heq, setAt_self, UInt32.toNat_add]
        exact Nat.mod_le _ _
    refine hadd.trans ?_
    cases he : episodeBytes r.flowId q s.trace with
    | none =>
      rw [he, Option.getD_none] at hle
      simp only [trace_charge, trace_log, episodeBytes, lastArrival, he, and_self, if_true,
        Option.map_none, Option.getD_none]
      omega
    | some e =>
      rw [he, Option.getD_some] at hle
      simp only [trace_charge, trace_log, episodeBytes, he, and_self, if_true, Option.map_some,
        Option.getD_some]
      omega
  · intro n hn
    exact h.dropped n (by simpa using hn)

/-- The arrival of a packet of the queue. -/
theorem sendToDev (h : Covered p q s) {idx : Option ℕ} {ch : Header} {r : Packet}
    (hr : r.flowId = p) (hq : s.qIndexOf ch = q)
    (hfit : EpisodesFit p q (s.mmu.headroom p).toNat (s.sendToDev idx ch r).trace) :
    Covered p q (s.sendToDev idx ch r) := by
  rcases sendToDev_cases s idx ch r with heq | ⟨i, -, heq⟩ | ⟨-, hno, heq⟩ | ⟨i, -, -, -, heq⟩
  · rwa [heq]
  · rw [heq]
    exact h.drained ((Drained.countBytes i 0 r).trans (.switchSend i 0 r))
  · rw [heq, hr, hq] at hfit
    rw [hr, hq, h.checkIngressAdmission (hfit.suffix (List.suffix_cons _ _))] at hno
    cases hno
  · rw [heq, hq]
    exact (h.takeIn hr i).drained (.switchSend i q r)

theorem step (h : Covered p q s) {op : Op} (hstep : s.step op = some t)
    (hfit : EpisodesFit p q (s.mmu.headroom p).toNat t.trace) : Covered p q t := by
  by_cases hop : ∃ ch n idx, op = .receive p ch n idx ∧ q = s.qIndexOf ch
  · obtain ⟨ch, n, idx, rfl, hq⟩ := hop
    simp only [Switch.step] at hstep
    split_ifs at hstep
    cases hstep
    rw [receive] at hfit ⊢
    split_ifs at hfit ⊢
    · exact h.sendToDev rfl hq.symm hfit
    · exact h
  · exact h.drained (.step (fun ch n idx heq hq => hop ⟨ch, n, idx, heq, hq⟩) hstep)

end Covered

end Covered

/-- As long as the packets and pauses of the queue have fit in the headroom of its port, the
headroom is covered. -/
structure Guarded (c : Config) (p q : ℕ) (s : Switch) : Prop where
  config : s.mmu.toMmuConfig = c.mmu
  covered : EpisodesFit p q (c.mmu.headroom p).toNat s.trace → Covered p q s

namespace Guarded

variable {c : Config} {p q : ℕ} {s t : Switch}

theorem init : Guarded c p q (init c) where
  config := rfl
  covered _ := ⟨rfl, le_rfl, fun _ hn => by cases hn⟩

theorem step (hs : Guarded c p q s) {op : Op} (hstep : s.step op = some t) : Guarded c p q t := by
  have hcont := Continues.step hstep
  refine ⟨hcont.config.trans hs.config, fun hfit => ?_⟩
  exact (hs.covered (hfit.suffix hcont.suffix)).step hstep (by rwa [hs.config])

end Guarded

/-- **Lossless PFC.** In every run of a switch, if every packet of a queue and every pause of it
fits in the headroom of its port, admission control never refuses a packet of the queue. -/
theorem notMem_dropped_of_episodesFit {c : Config} {ops : List Op} {s : Switch} {p q : ℕ}
    (hrun : Run.exec step (init c) ops = some s)
    (hfit : EpisodesFit p q (c.mmu.headroom p).toNat s.trace) (n : UInt32) :
    .dropped p q n ∉ s.trace := by
  have hinv : Guarded c p q s :=
    Run.exec_invariant (fun _ _ _ hs hstep => hs.step hstep) Guarded.init hrun
  exact (hinv.covered hfit).dropped n

/-- A switch without shared pool: the packet is charged to the headroom, its queue paused and, as
the packet leaves at once, resumed. -/
theorem notMem_dropped_one_packet :
    ∃ s, Run.exec step
        (init (.default 3
          { bufferSize := 1000, pfcAShift := fun _ => 0, reserve := 0, headroom := fun _ => 1000,
            resumeOffset := 0, totalHdrm := 1000, totalRsrv := 0 }))
        [.receive 1 ⟨0x11, 3⟩ 1000 (some 2)] = some s ∧
      s.trace = [.setResume 1 3, .sentPfc 1 3 .resume, .setPause 1 3, .sentPfc 1 3 .pause,
        .arrived 1 3 1000] ∧
      ∀ n, .dropped 1 3 n ∉ s.trace := by
  let c : Config := .default 3
    { bufferSize := 1000, pfcAShift := fun _ => 0, reserve := 0, headroom := fun _ => 1000
      resumeOffset := 0, totalHdrm := 1000, totalRsrv := 0 }
  have htrace : (Run.exec step (init c) [.receive 1 ⟨0x11, 3⟩ 1000 (some 2)]).map trace =
      some [.setResume 1 3, .sentPfc 1 3 .resume, .setPause 1 3, .sentPfc 1 3 .pause,
        .arrived 1 3 1000] := by
    decide +kernel
  obtain ⟨s, hrun, hs⟩ := Option.map_eq_some_iff.1 htrace
  refine ⟨s, hrun, hs, notMem_dropped_of_episodesFit hrun ?_⟩
  rw [hs]
  refine ⟨fun n hn => ?_, fun l hl n hn => ?_⟩
  · simp only [List.mem_cons, reduceCtorEq, Event.arrived.injEq, true_and, List.not_mem_nil,
      or_false, false_or] at hn
    rw [hn]
    decide
  · simp only [List.suffix_cons_iff, List.suffix_nil] at hl
    have hle : n = 1000 := by
      rcases hl with rfl | rfl | rfl | rfl | rfl | rfl <;>
        simp_all [episodeBytes, lastArrival]
    exact hle.le

end Switch

end HpccSim
