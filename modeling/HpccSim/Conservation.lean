import HpccSim.SwitchNode

/-!
# Conservation of the buffered bytes

The counters of the MMU and the packets in the `BEgressQueue`s are updated by different functions:
admission charges a packet before it is enqueued, and `SwitchNotifyDequeue` discharges it after it
has been dequeued. This file relates the two, through all nested transmissions. They part when an
admitted packet is not taken in by its queue, and when `TakeDown` drops packets without telling
the MMU.

The counters wrap, so the relation carried through a run is one of `uint32_t` values, with an
upper bound for `hdrm_bytes`; from these follows equality while fewer than `2 ^ 32` bytes are
held.

## Main definitions

* `Switch.heldBytes`, `Switch.residentBytes`: the bytes held for an output and from an input queue.
* `Switch.Accounted`: the relation, given the packets that are between admission and queue.
* `Switch.Conserved`: the counters equal the bytes held.
* `Switch.Preserving`: the step neither loses a packet nor overflows a counter.

## Main results

* `Switch.conserved_of_run`: every run of preserving steps conserves the bytes.
* `Switch.not_conserved_of_takeDown`: taking down a port with packets waiting does not.
-/

namespace HpccSim

namespace Switch

/-- A packet that is admitted for class `qIndex` of device `idx` and not yet enqueued there. -/
structure InHand where
  idx : ℕ
  qIndex : ℕ
  packet : Packet

/-- The bytes in class `q` of device `d`. -/
def heldBytes (s : Switch) (d q : ℕ) : ℕ :=
  tally (fun r => r.size.toNat) (fun _ => true) (s.held d q)

/-- The bytes in class `q`, over all devices, that came in by port `p`. -/
def residentBytes (s : Switch) (p q : ℕ) : ℕ :=
  ∑ d ∈ Finset.range s.nDevices,
    tally (fun r => r.size.toNat) (fun r : Packet => p = r.flowId) (s.held d q)

/-- The bytes in hand for class `q` of device `d`. -/
def outBytes (x : List InHand) (d q : ℕ) : ℕ :=
  tally (fun r => r.packet.size.toNat) (fun r : InHand => d = r.idx ∧ q = r.qIndex) x

/-- The bytes in hand that came in by port `p` for class `q`. -/
def inBytes (x : List InHand) (p q : ℕ) : ℕ :=
  tally (fun r => r.packet.size.toNat) (fun r : InHand => p = r.packet.flowId ∧ q = r.qIndex) x

theorem outBytes_cons (r : InHand) (x : List InHand) (d q : ℕ) :
    outBytes (r :: x) d q =
      (if d = r.idx ∧ q = r.qIndex then r.packet.size.toNat else 0) + outBytes x d q := by
  simp only [outBytes, tally_cons, decide_eq_true_eq]

theorem inBytes_cons (r : InHand) (x : List InHand) (p q : ℕ) :
    inBytes (r :: x) p q =
      (if p = r.packet.flowId ∧ q = r.qIndex then r.packet.size.toNat else 0) + inBytes x p q := by
  simp only [inBytes, tally_cons, decide_eq_true_eq]

variable {s t : Switch} {d q : ℕ} {p : Packet} {Q : BEgressQueue}

/-! ### How the bytes change -/

theorem heldBytes_congr (h : s.held d q = t.held d q) : s.heldBytes d q = t.heldBytes d q := by
  rw [heldBytes, heldBytes, h]

theorem residentBytes_congr (hn : s.nDevices = t.nDevices) (h : ∀ d, s.held d q = t.held d q)
    (i : ℕ) : s.residentBytes i q = t.residentBytes i q := by
  simp only [residentBytes, hn, h]

theorem heldBytes_setQueue (h : s.Serves d p Q) (d' q' : ℕ) :
    (s.setQueue d Q).heldBytes d' q' + (if d' = d ∧ q' = Q.qlast then p.size.toNat else 0) =
      s.heldBytes d' q' := by
  obtain ⟨hheld, hrest⟩ := h.held_eq
  simp only [heldBytes, held_setQueue]
  by_cases hd : d' = d
  · subst hd
    by_cases hq : q' = Q.qlast
    · subst hq
      simp only [if_true, and_self, hheld, tally_cons]
      omega
    · simp [hq, hrest q' hq]
  · simp [hd]

theorem residentBytes_setQueue (h : s.Serves d p Q) (i q' : ℕ) :
    (s.setQueue d Q).residentBytes i q' +
        (if i = p.flowId ∧ q' = Q.qlast then p.size.toNat else 0) =
      s.residentBytes i q' := by
  obtain ⟨hheld, hrest⟩ := h.held_eq
  have hsum := sum_add_of_eq_off (Finset.mem_range.2 h.lt)
    (f := fun d' => tally (fun r => r.size.toNat) (fun r : Packet => i = r.flowId)
      ((s.setQueue d Q).held d' q'))
    (g := fun d' => tally (fun r => r.size.toNat) (fun r : Packet => i = r.flowId) (s.held d' q'))
    fun d' _ hne => by simp only [held_setQueue, if_neg hne]
  have hnd : (s.setQueue d Q).nDevices = s.nDevices := rfl
  simp only [residentBytes, hnd]
  simp only [held_setQueue, if_true] at hsum ⊢
  by_cases hq : q' = Q.qlast
  · subst hq
    by_cases hi : i = p.flowId
    · subst hi
      simp only [hheld, tally_cons, decide_true, if_true, and_self] at hsum ⊢
      omega
    · simp only [hheld, tally_cons, hi, decide_false, Bool.false_eq_true, if_false,
        false_and] at hsum ⊢
      omega
  · simp only [hrest q' hq, hq, and_false, if_false] at hsum ⊢
    omega

theorem heldBytes_enqueue (hacc : (s.devices d).queue.accepts p q = true) (d' q' : ℕ) :
    (s.enqueue d q p).heldBytes d' q' =
      s.heldBytes d' q' + if d' = d ∧ q' = q then p.size.toNat else 0 := by
  simp only [heldBytes, held_enqueue, hacc, and_true]
  split_ifs with h
  · obtain ⟨rfl, rfl⟩ := h
    simp [tally_append, tally_cons]
  · rfl

theorem residentBytes_enqueue (hd : d < s.nDevices)
    (hacc : (s.devices d).queue.accepts p q = true) (i q' : ℕ) :
    (s.enqueue d q p).residentBytes i q' =
      s.residentBytes i q' + if i = p.flowId ∧ q' = q then p.size.toNat else 0 := by
  have hsum := sum_add_of_eq_off (Finset.mem_range.2 hd)
    (f := fun d' => tally (fun r => r.size.toNat) (fun r : Packet => i = r.flowId)
      ((s.enqueue d q p).held d' q'))
    (g := fun d' => tally (fun r => r.size.toNat) (fun r : Packet => i = r.flowId) (s.held d' q'))
    fun d' _ hne => by simp only [held_enqueue, hne, false_and, if_false]
  simp only [residentBytes, nDevices_enqueue]
  simp only [held_enqueue, hacc, true_and, and_true] at hsum ⊢
  by_cases hq : q' = q
  · subst hq
    by_cases hi : i = p.flowId
    · subst hi
      simp only [if_true, tally_append, tally_cons, tally_nil, decide_true, and_true] at hsum ⊢
      omega
    · simp only [if_true, tally_append, tally_cons, tally_nil, hi, decide_false,
        Bool.false_eq_true, if_false, and_true] at hsum ⊢
      omega
  · simp only [hq, and_false, if_false] at hsum ⊢
    omega

/-! ### The relation between counters and packets -/

/-- With the packets `x` in hand, the counters of the MMU are what the queues hold, modulo
`2 ^ 32`, and the headroom holds no more than that. -/
structure Accounted (x : List InHand) (s : Switch) : Prop where
  ingress : ∀ p q, q ≠ 0 → s.mmu.ingressBytes p q + s.mmu.hdrmBytes p q =
    UInt32.ofNat (s.residentBytes p q + inBytes x p q)
  hdrm : ∀ p q, q ≠ 0 → (s.mmu.hdrmBytes p q).toNat ≤ s.residentBytes p q + inBytes x p q
  egress : ∀ d q, q ≠ 0 → s.mmu.egressBytes d q = UInt32.ofNat (s.heldBytes d q + outBytes x d q)

namespace Accounted

variable {x : List InHand}

theorem init (c : Config) : Accounted [] (init c) := by
  refine ⟨fun p q _ => ?_, fun p q _ => ?_, fun d q _ => ?_⟩ <;>
    simp [Switch.init, MmuConfig.init, residentBytes, heldBytes, inBytes, outBytes, held]

/-- Operations that keep the counters and the queues of the classes other than `0`. -/
theorem congr (h : Accounted x s) (hi : t.mmu.ingressBytes = s.mmu.ingressBytes)
    (hh : t.mmu.hdrmBytes = s.mmu.hdrmBytes) (he : t.mmu.egressBytes = s.mmu.egressBytes)
    (hn : t.nDevices = s.nDevices) (hheld : ∀ d q, q ≠ 0 → t.held d q = s.held d q) :
    Accounted x t := by
  refine ⟨fun p q hq => ?_, fun p q hq => ?_, fun d q hq => ?_⟩
  · rw [hi, hh, h.ingress p q hq, residentBytes_congr hn fun d => hheld d q hq]
  · rw [hh, residentBytes_congr hn fun d => hheld d q hq]
    exact h.hdrm p q hq
  · rw [he, h.egress d q hq, heldBytes_congr (hheld d q hq)]

theorem enqueuePfc (h : Accounted x s) (d q : ℕ) (ty : PfcType) :
    Accounted x (s.enqueuePfc d q ty) :=
  h.congr (by simp) (by simp) (by simp) (nDevices_enqueue 0)
    fun d' q' hq => held_enqueuePfc d q d' ty hq

theorem transmitStart (h : Accounted x s) (d : ℕ) (p : Packet) :
    Accounted x (s.transmitStart d p) :=
  h.congr rfl rfl rfl rfl fun d' q _ => held_transmitStart d' q

theorem setResume (h : Accounted x s) (p q : ℕ) : Accounted x (s.setResume p q) :=
  h.congr rfl rfl rfl rfl fun _ _ _ => rfl

theorem setPause (h : Accounted x s) (p q : ℕ) : Accounted x (s.setPause p q) :=
  h.congr rfl rfl rfl rfl fun _ _ _ => rfl

/-- A packet leaves its queue and the MMU. -/
theorem departed (h : Accounted x s) (hs : s.Serves d p Q) : Accounted x (s.departed d p Q) := by
  refine ⟨fun i q hq => ?_, fun i q hq => ?_, fun d' q hq => ?_⟩
  · have hres := residentBytes_setQueue hs i q
    have hsum := h.ingress i q hq
    rw [← hres] at hsum
    have hadd := s.mmu.removeFromIngressAdmission_add p.flowId Q.qlast p.size i q
    change (s.mmu.removeFromIngressAdmission p.flowId Q.qlast p.size).ingressBytes i q +
      (s.mmu.removeFromIngressAdmission p.flowId Q.qlast p.size).hdrmBytes i q =
        UInt32.ofNat ((s.setQueue d Q).residentBytes i q + inBytes x i q)
    rw [hadd, hsum]
    split_ifs
    · simp only [UInt32.ofNat_add, UInt32.ofNat_toNat]
      grind
    · rfl
  · have hres := residentBytes_setQueue hs i q
    have hle := h.hdrm i q hq
    change ((s.mmu.removeFromIngressAdmission p.flowId Q.qlast p.size).hdrmBytes i q).toNat ≤
      (s.setQueue d Q).residentBytes i q + inBytes x i q
    rw [SwitchMmu.removeFromIngressAdmission_hdrmBytes]
    by_cases hiq : i = p.flowId ∧ q = Q.qlast
    · obtain ⟨rfl, rfl⟩ := hiq
      simp only [and_self, if_true] at hres
      rw [setAt_self, SwitchMmu.toNat_hdrmBytes_sub_fromHdrm]
      omega
    · rw [if_neg hiq] at hres
      rw [setAt_of_ne _ hiq]
      omega
  · have hheld := heldBytes_setQueue hs d' q
    have hsum := h.egress d' q hq
    rw [← hheld] at hsum
    change setAt s.mmu.egressBytes d Q.qlast (s.mmu.egressBytes d Q.qlast - p.size) d' q =
      UInt32.ofNat ((s.setQueue d Q).heldBytes d' q + outBytes x d' q)
    by_cases hdq : d' = d ∧ q = Q.qlast
    · obtain ⟨rfl, rfl⟩ := hdq
      simp only [and_self, if_true] at hsum
      rw [setAt_self, hsum]
      simp only [UInt32.ofNat_add, UInt32.ofNat_toNat]
      grind
    · rw [if_neg hdq] at hsum
      rw [setAt_of_ne _ hdq]
      exact hsum

/-- `DequeueAndTransmit` keeps the relation. -/
theorem transmit (h : Accounted x s) (d : ℕ) : Accounted x (transmit d s) := by
  refine transmit_rel (R := fun s t => Accounted x s → Accounted x t) (fun _ h => h) ?_ ?_ ?_ d s h
  · intro s d p Q hs hq h
    have hset : Accounted x (s.setQueue d Q) := h.congr rfl rfl rfl rfl fun d' q hq' => by
      rw [held_setQueue]
      split_ifs with hd
      · rw [hs.held_eq.2 q (by omega), hd]
      · rfl
    exact hset.transmitStart d p
  · intro s d p Q hs _ _ h
    exact (h.departed hs).transmitStart d p
  · intro s d p Q t hs _ _ ht _ h
    exact ((ht ((h.departed hs).enqueuePfc _ _ _)).setResume _ _).transmitStart d p

/-- An admitted packet is charged to the MMU. -/
theorem charge (h : Accounted x s) (i q : ℕ) (p : Packet) :
    Accounted (⟨i, q, p⟩ :: x) (s.charge i q p) := by
  refine ⟨fun j q' hq => ?_, fun j q' hq => ?_, fun d' q' hq => ?_⟩
  · have hsum := h.ingress j q' hq
    have hadd := s.mmu.updateIngressAdmission_add p.flowId q p.size j q'
    change (s.mmu.updateIngressAdmission p.flowId q p.size).ingressBytes j q' +
      (s.mmu.updateIngressAdmission p.flowId q p.size).hdrmBytes j q' =
        UInt32.ofNat (s.residentBytes j q' + inBytes (⟨i, q, p⟩ :: x) j q')
    rw [hadd, hsum, inBytes_cons]
    split_ifs
    · simp only [UInt32.ofNat_add, UInt32.ofNat_toNat]
      grind
    · rw [Nat.zero_add]
  · have hle := h.hdrm j q' hq
    change ((s.mmu.updateIngressAdmission p.flowId q p.size).hdrmBytes j q').toNat ≤
      s.residentBytes j q' + inBytes (⟨i, q, p⟩ :: x) j q'
    rw [inBytes_cons]
    rcases s.mmu.updateIngressAdmission_hdrmBytes p.flowId q p.size with heq | heq
    · rw [heq]
      omega
    · rw [heq]
      by_cases hj : j = p.flowId ∧ q' = q
      · obtain ⟨rfl, rfl⟩ := hj
        have := Nat.mod_le ((s.mmu.hdrmBytes p.flowId q').toNat + p.size.toNat) (2 ^ 32)
        simp only [setAt_self, UInt32.toNat_add, and_self, if_true]
        omega
      · rw [setAt_of_ne _ hj]
        omega
  · have hsum := h.egress d' q' hq
    change setAt (s.mmu.updateIngressAdmission p.flowId q p.size).egressBytes i q
      ((s.mmu.updateIngressAdmission p.flowId q p.size).egressBytes i q + p.size) d' q' =
        UInt32.ofNat (s.heldBytes d' q' + outBytes (⟨i, q, p⟩ :: x) d' q')
    rw [SwitchMmu.updateIngressAdmission_egressBytes, outBytes_cons]
    by_cases hd : d' = i ∧ q' = q
    · obtain ⟨rfl, rfl⟩ := hd
      rw [setAt_self, hsum]
      simp only [and_self, if_true, UInt32.ofNat_add, UInt32.ofNat_toNat]
      grind
    · rw [setAt_of_ne _ hd, hsum, if_neg hd, Nat.zero_add]

/-- The packet in hand is taken in by its queue. -/
theorem enqueue {i : ℕ} (h : Accounted (⟨i, q, p⟩ :: x) s) (hi : i < s.nDevices)
    (hacc : (s.devices i).queue.accepts p q = true) : Accounted x (s.enqueue i q p) := by
  refine ⟨fun j q' hq => ?_, fun j q' hq => ?_, fun d' q' hq => ?_⟩
  · rw [mmu_enqueue, h.ingress j q' hq, residentBytes_enqueue hi hacc, inBytes_cons, Nat.add_assoc]
  · have hle := h.hdrm j q' hq
    simp only [inBytes_cons] at hle
    rw [mmu_enqueue, residentBytes_enqueue hi hacc]
    omega
  · rw [mmu_enqueue, h.egress d' q' hq, heldBytes_enqueue hacc, outBytes_cons, Nat.add_assoc]

theorem checkAndSendPfc (h : Accounted x s) (p q : ℕ) :
    Accounted x (s.checkAndSendPfc Switch.transmit p q) := by
  rw [Switch.checkAndSendPfc]
  split_ifs
  · exact ((h.enqueuePfc p q .pause).transmit p).setPause p q
  · exact h

/-- A packet is admitted and sent, and its queue takes it in. -/
theorem takeIn (h : Accounted x s) {i : ℕ} (hi : i < s.nDevices)
    (hacc : ((s.takeIn i q p).devices i).queue.accepts p q = true) :
    Accounted x ((s.takeIn i q p).switchSend Switch.transmit i q p) := by
  have hlog : Accounted x (s.log (.arrived p.flowId q p.size)) :=
    h.congr rfl rfl rfl rfl fun _ _ _ => rfl
  have htaken : Accounted (⟨i, q, p⟩ :: x) (s.takeIn i q p) :=
    ((hlog.charge i q p).checkAndSendPfc p.flowId q).congr rfl rfl rfl rfl fun _ _ _ => rfl
  exact (htaken.enqueue (by rwa [(Continues.takeIn s i q p).nDevices]) hacc).transmit i

end Accounted

/-! ### The bytes held only shrink between arrivals -/

/-- No class but `0` holds more bytes in `t` than in `s`. -/
structure Shrinks (s t : Switch) : Prop where
  resident : ∀ p q, q ≠ 0 → t.residentBytes p q ≤ s.residentBytes p q
  held : ∀ d q, q ≠ 0 → t.heldBytes d q ≤ s.heldBytes d q

namespace Shrinks

theorem trans {u : Switch} (h : Shrinks s t) (h' : Shrinks t u) : Shrinks s u :=
  ⟨fun p q hq => (h'.resident p q hq).trans (h.resident p q hq),
    fun d q hq => (h'.held d q hq).trans (h.held d q hq)⟩

theorem of_eq (hn : t.nDevices = s.nDevices) (h : ∀ d q, q ≠ 0 → t.held d q = s.held d q) :
    Shrinks s t :=
  ⟨fun p _ hq => (residentBytes_congr hn (fun d => h d _ hq) p).le,
    fun d q hq => (heldBytes_congr (h d q hq)).le⟩

theorem setQueue (h : s.Serves d p Q) : Shrinks s (s.setQueue d Q) :=
  ⟨fun i q _ => (Nat.le_add_right _ _).trans (residentBytes_setQueue h i q).le,
    fun d' q _ => (Nat.le_add_right _ _).trans (heldBytes_setQueue h d' q).le⟩

theorem departed (h : s.Serves d p Q) : Shrinks s (s.departed d p Q) :=
  (setQueue h).trans (of_eq rfl fun _ _ _ => rfl)

theorem enqueuePfc (d q : ℕ) (ty : PfcType) : Shrinks s (s.enqueuePfc d q ty) :=
  of_eq (nDevices_enqueue 0) fun d' _ hq => held_enqueuePfc d q d' ty hq

theorem transmit (d : ℕ) (s : Switch) : Shrinks s (transmit d s) := by
  refine transmit_rel (R := Shrinks) (fun s => of_eq rfl fun _ _ _ => rfl) ?_ ?_ ?_ d s
  · intro s d p Q hs _
    exact (setQueue hs).trans (of_eq rfl fun d' q _ => held_transmitStart d' q)
  · intro s d p Q hs _ _
    exact (departed hs).trans (of_eq rfl fun d' q _ => held_transmitStart d' q)
  · intro s d p Q t hs _ _ ht _
    exact (((departed hs).trans (enqueuePfc _ _ _)).trans ht).trans
      (of_eq rfl fun d' q _ => held_transmitStart d' q)

theorem setPause (h : Shrinks s t) (i q : ℕ) : Shrinks s (t.setPause i q) :=
  h.trans (of_eq rfl fun _ _ _ => rfl)

theorem countBytes (h : Shrinks s t) (i q : ℕ) (p : Packet) : Shrinks s (t.countBytes i q p) :=
  h.trans (of_eq rfl fun _ _ _ => rfl)

theorem takeIn (i q : ℕ) (p : Packet) : Shrinks s (s.takeIn i q p) := by
  have hcharge : Shrinks s ((s.log (.arrived p.flowId q p.size)).charge i q p) :=
    of_eq rfl fun _ _ _ => rfl
  refine countBytes ?_ i q p
  rw [checkAndSendPfc]
  split_ifs
  · exact setPause ((hcharge.trans (enqueuePfc _ _ _)).trans (transmit _ _)) p.flowId q
  · exact hcharge

end Shrinks

/-! ### Conservation -/

/-- **The counters equal the bytes held**, for every output and every input queue. -/
def Conserved (s : Switch) : Prop :=
  (∀ d q, q ≠ 0 → (s.mmu.egressBytes d q).toNat = s.heldBytes d q) ∧
    ∀ p q, q ≠ 0 → (s.mmu.ingressBytes p q).toNat + (s.mmu.hdrmBytes p q).toNat =
      s.residentBytes p q

/-- An admitted packet is taken in by its queue, and does not raise the bytes of its input and of
its output queue to `2 ^ 32`; a device that is taken down holds packets of class `0` only. -/
def Preserving (s : Switch) : Op → Prop
  | .receive d ch n idx =>
    (s.devices d).linkUp = true → ∀ i ∈ idx, s.qIndexOf ch ≠ 0 →
      s.mmu.checkIngressAdmission d (s.qIndexOf ch) n = true →
        ((s.takeIn i (s.qIndexOf ch) ⟨n, d, none⟩).devices i).queue.accepts ⟨n, d, none⟩
            (s.qIndexOf ch) = true ∧
          s.residentBytes d (s.qIndexOf ch) + n.toNat < 2 ^ 32 ∧
          s.heldBytes i (s.qIndexOf ch) + n.toNat < 2 ^ 32
  | .takeDown d => ∀ q < qCnt, q ≠ 0 → s.held d q = []
  | _ => True

instance (s : Switch) : (op : Op) → Decidable (Preserving s op)
  | .receive d ch n idx =>
    inferInstanceAs (Decidable ((s.devices d).linkUp = true → ∀ i ∈ idx, s.qIndexOf ch ≠ 0 →
      s.mmu.checkIngressAdmission d (s.qIndexOf ch) n = true → _ ∧ _ ∧ _))
  | .takeDown d => inferInstanceAs (Decidable (∀ q < qCnt, q ≠ 0 → s.held d q = []))
  | .receivePfc _ _ | .transmitComplete _ => .isTrue trivial

/-- What preserving steps keep. -/
structure Kept (s : Switch) : Prop where
  accounted : Accounted [] s
  resident : ∀ p q, q ≠ 0 → s.residentBytes p q < 2 ^ 32
  held : ∀ d q, q ≠ 0 → s.heldBytes d q < 2 ^ 32

namespace Kept

theorem init (c : Config) : Kept (init c) := by
  refine ⟨.init c, fun p q _ => ?_, fun d q _ => ?_⟩ <;>
    simp [residentBytes, heldBytes]

theorem shrinks (h : Kept s) (ha : Accounted [] t) (hst : Shrinks s t) : Kept t :=
  ⟨ha, fun p q hq => (hst.resident p q hq).trans_lt (h.resident p q hq),
    fun d q hq => (hst.held d q hq).trans_lt (h.held d q hq)⟩

/-- Operations that keep the counters and the queues of the classes other than `0`. -/
theorem congr (h : Kept s) (hm : t.mmu = s.mmu) (hn : t.nDevices = s.nDevices)
    (hheld : ∀ d q, q ≠ 0 → t.held d q = s.held d q) : Kept t :=
  h.shrinks (h.accounted.congr (by rw [hm]) (by rw [hm]) (by rw [hm]) hn hheld) (.of_eq hn hheld)

theorem transmit (h : Kept s) (d : ℕ) : Kept (transmit d s) :=
  h.shrinks (h.accounted.transmit d) (.transmit d s)

theorem conserved (h : Kept s) : Conserved s := by
  refine ⟨fun d q hq => ?_, fun p q hq => ?_⟩
  · rw [h.accounted.egress d q hq, UInt32.toNat_ofNat']
    exact Nat.mod_eq_of_lt (h.held d q hq)
  · have hsum := congrArg UInt32.toNat (h.accounted.ingress p q hq)
    have hle := h.accounted.hdrm p q hq
    have hlt := h.resident p q hq
    have hing := (s.mmu.ingressBytes p q).toNat_lt
    simp only [UInt32.toNat_add, UInt32.toNat_ofNat', inBytes, tally_nil, Nat.add_zero] at hsum hle
    omega

/-- The arrival of a packet. -/
theorem sendToDev (h : Kept s) {ch : Header} {n : UInt32} {idx : Option ℕ}
    (hup : (s.devices d).linkUp = true) (hidx : ∀ i ∈ idx, i < s.nDevices)
    (hC : Preserving s (.receive d ch n idx)) : Kept (s.sendToDev idx ch ⟨n, d, none⟩) := by
  rcases sendToDev_cases s idx ch ⟨n, d, none⟩ with
    heq | ⟨i, -, heq⟩ | ⟨-, -, heq⟩ | ⟨i, hi, hq, hadm, heq⟩
  all_goals rw [heq]
  · exact h
  · have hsent : Kept ((s.countBytes i 0 ⟨n, d, none⟩).enqueue i 0 ⟨n, d, none⟩) :=
      h.congr (by simp) (nDevices_enqueue 0) fun d' _ hq' => held_enqueue_zero d' hq'
    exact hsent.transmit i
  · exact h.congr rfl rfl fun _ _ _ => rfl
  · obtain ⟨hacc, hres, hheld⟩ := hC hup i hi hq hadm
    have hlt := hidx i hi
    have htaken := Shrinks.takeIn (s := s) i (s.qIndexOf ch) ⟨n, d, none⟩
    have hsent := Shrinks.transmit i ((s.takeIn i (s.qIndexOf ch) ⟨n, d, none⟩).enqueue i
      (s.qIndexOf ch) ⟨n, d, none⟩)
    refine ⟨h.accounted.takeIn hlt hacc, fun p q' hq' => ?_, fun d' q' hq' => ?_⟩
    · have h₁ := hsent.resident p q' hq'
      rw [residentBytes_enqueue (by rwa [(Continues.takeIn s i _ _).nDevices]) hacc] at h₁
      have h₂ := htaken.resident p q' hq'
      have h₃ := h.resident p q' hq'
      refine h₁.trans_lt ?_
      split_ifs with hc
      · obtain ⟨rfl, rfl⟩ := hc
        simp only at *
        omega
      · omega
    · have h₁ := hsent.held d' q' hq'
      rw [heldBytes_enqueue hacc] at h₁
      have h₂ := htaken.held d' q' hq'
      have h₃ := h.held d' q' hq'
      refine h₁.trans_lt ?_
      split_ifs with hc
      · obtain ⟨rfl, rfl⟩ := hc
        simp only at *
        omega
      · omega

theorem setPaused (h : Kept s) (d q : ℕ) (b : Bool) : Kept (s.setPaused d q b) :=
  h.congr rfl rfl fun d' q' _ => held_setPaused b d' q'

/-- A device without packets of a class other than `0` is taken down. -/
theorem takeDown (h : Kept s) (hC : Preserving s (.takeDown d)) : Kept (s.takeDown d) := by
  refine h.congr rfl rfl fun d' q' hq' => ?_
  rw [Switch.takeDown, held_setDevice]
  split_ifs with hd
  · subst hd
    rcases lt_or_ge q' qCnt with hlt | hge
    · rw [hC q' hlt hq']
      exact BEgressQueue.held_drain_of_eq_nil (hC q' hlt hq')
    · exact BEgressQueue.held_drain_of_le hge
  · rfl

theorem step (h : Kept s) {op : Op} (hC : Preserving s op) (hstep : s.step op = some t) :
    Kept t := by
  rcases step_cases hstep with rfl | ⟨d, ch, n, idx, rfl, hup, hidx, rfl⟩ | ⟨d, q, rfl⟩ |
    ⟨d, q, rfl⟩ | ⟨d, rfl⟩ | ⟨d, rfl, rfl⟩
  · exact h
  · exact h.sendToDev hup hidx hC
  · exact h.setPaused d q true
  · exact (h.setPaused d q false).transmit d
  · have hset : Kept (s.setReady d) := h.congr rfl rfl fun d' q' _ => held_setReady d' q'
    exact hset.transmit d
  · exact h.takeDown hC

end Kept

/-- **Conservation.** In every run of preserving steps the counters equal the bytes held. -/
theorem conserved_of_run {c : Config} {ops : List Op}
    (hops : Run.Along step Preserving (init c) ops) : Run.Always step Conserved (init c) ops :=
  Run.always_of_invariant (I := Kept) (fun _ _ _ h hC hstep => h.step hC hstep)
    (fun _ h => h.conserved) (.init c) hops

/-- Two packets for the same port: the second one waits until the first one has been sent. -/
theorem conserved_of_run_two_packets :
    Run.Always step Conserved (init (.default 3 .default))
      [.receive 1 ⟨0x11, 3⟩ 1000 (some 2), .receive 1 ⟨0x11, 3⟩ 1000 (some 2),
        .transmitComplete 2] :=
  conserved_of_run (by decide +kernel)

/-- The port with the waiting packet is taken down instead: the packet is gone, the MMU still
charges it. -/
theorem not_conserved_of_takeDown :
    ¬ Run.Always step Conserved (init (.default 3 .default))
      [.receive 1 ⟨0x11, 3⟩ 1000 (some 2), .receive 1 ⟨0x11, 3⟩ 1000 (some 2), .takeDown 2] := by
  intro h
  have hlast : (Run.exec step (init (.default 3 .default))
      [.receive 1 ⟨0x11, 3⟩ 1000 (some 2), .receive 1 ⟨0x11, 3⟩ 1000 (some 2),
        .takeDown 2]).map (fun s =>
      ((s.mmu.egressBytes 2 3).toNat, s.heldBytes 2 3)) = some (1000, 0) := by
    decide +kernel
  obtain ⟨s, hs, hval⟩ := Option.map_eq_some_iff.1 hlast
  obtain ⟨hegress, hheld⟩ := Prod.ext_iff.1 hval
  have := (h.last hs).1 2 3 (by decide)
  simp only at hegress hheld
  omega

end Switch

end HpccSim
