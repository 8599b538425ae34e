import HpccSim.BufferCommitment

/-!
# Is the reserve of a queue guaranteed?

`UpdateIngressAdmission` charges a packet to the reserve of its queue as long as that is not used
up. `CheckIngressAdmission`, which comes before, does not look at the reserve: it admits what fits
in the headroom or under the threshold. With a threshold of at least the reserve that makes no
difference. Below that, the headroom has to stand in for the threshold, and a queue can have used
its headroom before its reserve.

How far the threshold sinks depends on the other queues: each of them grows to its threshold, in
some order.

## Main definitions

* `Buffer.ReserveGuaranteed`: no packet that fits in the reserve of a queue is dropped.
* `MmuConfig.leastThreshold`: the threshold of a queue when the others have grown in some order.
* `MmuConfig.CoversReserve`: at a threshold the headroom of a port stands in for it.

## Main results

* `Buffer.reserveGuaranteed_iff`: the reserve is guaranteed in every run exactly if it is covered at
  every least threshold.
* `Buffer.smallBuffer_refuses_reserve`: a queue with room in its reserve whose packet is dropped.
-/

namespace HpccSim

namespace MmuConfig

variable (c : MmuConfig)

/-- The shared pool as `GetPfcThreshold` computes it. -/
def pool : ℕ := (c.bufferSize - c.totalHdrm - c.totalRsrv).toNat

/-- The configuration with the totals taken off the buffer beforehand. -/
def pooled : MmuConfig :=
  { c with
    bufferSize := c.bufferSize - c.totalHdrm - c.totalRsrv
    totalHdrm := 0
    totalRsrv := 0 }

/-- The threshold of the queue `x` when the queues of `l` have grown in turn, each to its
threshold, and `x` holds nothing beyond its reserve. -/
def leastThreshold (x : ℕ × ℕ) (l : List (ℕ × ℕ)) : ℕ :=
  SharedPool.leftover c.aShift c.pool l >>> c.aShift x

/-- At the threshold `T` the port admits what fits in the reserve: the threshold is not below the
reserve, or the headroom is not, and the headroom cannot be used up before the reserve. -/
def CoversReserve (p T : ℕ) : Prop :=
  T < c.reserve.toNat →
    c.reserve.toNat ≤ (c.headroom p).toNat ∧ (c.headroom p).toNat ≤ 2 * T + 1

variable {c}

/-- If the totals fit in the buffer, the pool is what they leave. -/
theorem pool_eq_sharedSize (h : c.totalHdrm.toNat + c.totalRsrv.toNat ≤ c.bufferSize.toNat) :
    c.pool = c.sharedSize := by
  have hhdrm : c.totalHdrm ≤ c.bufferSize := UInt32.le_iff_toNat_le.2 (by omega)
  have hsub := UInt32.toNat_sub_of_le _ _ hhdrm
  have hrsrv : c.totalRsrv ≤ c.bufferSize - c.totalHdrm := UInt32.le_iff_toNat_le.2 (by omega)
  rw [pool, sharedSize, UInt32.toNat_sub_of_le _ _ hrsrv, hsub]

@[simp] theorem pool_pooled : c.pooled.pool = c.pool := by simp [pool, pooled]

theorem CoversReserve.mono {p T T' : ℕ} (h : c.CoversReserve p T) (hT : T ≤ T') :
    c.CoversReserve p T' := by
  intro hlt
  obtain ⟨hle, hle'⟩ := h (hT.trans_lt hlt)
  exact ⟨hle, by omega⟩

end MmuConfig

namespace Buffer

/-- A packet of the queue that fits in its reserve is admitted. -/
def ReserveGuaranteed (p q : ℕ) (b : Buffer) : Prop :=
  ∀ psize : UInt32, (b.mmu.ingressBytes p q).toNat + psize.toNat ≤ b.mmu.reserve.toNat →
    b.mmu.checkIngressAdmission p q psize = true

/-! ### Runs in which the reserve is guaranteed -/

section Guaranteed

variable {c : MmuConfig} {nPort p q : ℕ} {b b' : Buffer}

/-- A queue within its reserve has at least the threshold that the other queues leave. -/
theorem Bounded.exists_leastThreshold_le (h : Bounded c nPort b) (hn : nPort < pCnt)
    (hx : (p, q) ∈ HpccSim.lossless nPort)
    (hing : (b.mmu.ingressBytes p q).toNat ≤ c.reserve.toNat) :
    ∃ l, ((p, q) :: l).Perm (HpccSim.lossless nPort) ∧
      c.leastThreshold (p, q) l ≤ (b.mmu.getPfcThreshold p).toNat := by
  obtain ⟨l, hl, hfill⟩ := h.filled
  have hexc : b.mmu.excess p q = 0 := by
    rw [SwitchMmu.excess, h.config]
    exact Nat.sub_eq_zero_of_le hing
  obtain ⟨l', hperm, hfill'⟩ := hfill.exists_perm_cons (hl.mem_iff.2 hx)
  have hl' : ((p, q) :: l').Perm (HpccSim.lossless nPort) := hperm.symm.trans hl
  have hsum := h.sharedUsedBytes_eq hn hl'
  rw [List.map_cons, List.sum_cons, hexc, Nat.zero_add] at hsum
  have hle := hfill'.leftover_add_sum_le
  rw [← hsum] at hle
  refine ⟨l', hl', ?_⟩
  have hfit := (Nat.le_add_right _ _).trans h.inv.sound
  rw [h.config] at hfit
  rw [h.inv.sound.toNat_getPfcThreshold, h.config, MmuConfig.leastThreshold,
    MmuConfig.pool_eq_sharedSize hfit]
  exact SharedPool.shiftRight_mono (Nat.le_sub_of_add_le hle) _

/-- How a queue comes to use its headroom: at some moment it held `i` bytes, the threshold was `T`
and a packet went beyond both. It has not held less since. -/
structure HeldBack (c : MmuConfig) (nPort p q : ℕ) (b : Buffer) : Prop where
  bounded : Bounded c nPort b
  held : b.mmu.hdrmBytes p q ≠ 0 → ∃ i T, i ≤ (b.mmu.ingressBytes p q).toNat ∧
    c.reserve.toNat + T < (c.headroom p).toNat + i ∧
    (i ≤ c.reserve.toNat → ∃ l, ((p, q) :: l).Perm (HpccSim.lossless nPort) ∧
      c.leastThreshold (p, q) l ≤ T)

namespace HeldBack

theorem init (h : c.totalHdrm.toNat + c.totalRsrv.toNat ≤ c.bufferSize.toNat) :
    HeldBack c nPort p q (Buffer.init c) where
  bounded := bounded_init h
  held hne := absurd rfl hne

/-- If neither counter of the queue falls, unless its headroom becomes empty, nothing changes. -/
theorem of_le (h : HeldBack c nPort p q b) (hb : Bounded c nPort b')
    (hle : b'.mmu.hdrmBytes p q ≠ 0 → b.mmu.hdrmBytes p q ≠ 0 ∧
      (b.mmu.ingressBytes p q).toNat ≤ (b'.mmu.ingressBytes p q).toNat) :
    HeldBack c nPort p q b' := by
  refine ⟨hb, fun hne => ?_⟩
  obtain ⟨hne', hing⟩ := hle hne
  obtain ⟨i, T, hi, hT, hl⟩ := h.held hne'
  exact ⟨i, T, hi.trans hing, hT, hl⟩

/-- A packet that goes to an empty headroom goes beyond the threshold. -/
theorem of_chargedToHdrm (h : Bounded c nPort b) (hn : nPort < pCnt)
    (hx : (p, q) ∈ HpccSim.lossless nPort) {psize : UInt32} (hc : b.mmu.ChargedToHdrm p q psize)
    (hle : psize.toNat ≤ (c.headroom p).toNat) :
    ∃ i T, i ≤ (b.mmu.ingressBytes p q).toNat ∧
      c.reserve.toNat + T < (c.headroom p).toNat + i ∧
      (i ≤ c.reserve.toNat → ∃ l, ((p, q) :: l).Perm (HpccSim.lossless nPort) ∧
        c.leastThreshold (p, q) l ≤ T) := by
  refine ⟨_, (b.mmu.getPfcThreshold p).toNat, le_rfl, ?_, h.exists_leastThreshold_le hn hx⟩
  obtain ⟨hrsv, hthr⟩ := hc
  rw [UInt32.lt_iff_toNat_lt,
    UInt32.toNat_sub_of_le _ _ (UInt32.le_of_lt hrsv), h.config] at hthr
  rw [UInt32.lt_iff_toNat_lt, h.config] at hrsv
  have hadd := (UInt32.toNat_add (b.mmu.ingressBytes p q) psize).trans_le (Nat.mod_le _ _)
  omega

theorem offer (h : HeldBack c nPort p q b) (hn : nPort < pCnt)
    (hx : (p, q) ∈ HpccSim.lossless nPort) {r : Charged}
    (hadm : b.mmu.checkIngressAdmission r.port r.qIndex r.size = true)
    (hC : Lossless nPort b (.offer r)) :
    HeldBack c nPort p q
      ⟨b.mmu.updateIngressAdmission r.port r.qIndex r.size, r :: b.resident⟩ := by
  have hb := h.bounded.offer hn hadm hC
  have hfit := hC.2 hadm
  by_cases hpq : p = r.port ∧ q = r.qIndex
  · obtain ⟨rfl, rfl⟩ := hpq
    rcases SwitchMmu.updateIngressAdmission_cases hfit with ⟨hc, -, heq⟩ | ⟨inc, -, hlt, -, heq⟩
    · by_cases hzero : b.mmu.hdrmBytes r.port r.qIndex = 0
      · have hle := hc.hdrmBytes_add_le hadm hfit
        rw [hzero, UInt32.toNat_zero, Nat.zero_add, h.bounded.config] at hle
        refine ⟨hb, fun _ => ?_⟩
        rw [heq]
        exact of_chargedToHdrm (b := b) h.bounded hn hx hc hle
      · exact h.of_le hb fun _ => ⟨hzero, by rw [heq]⟩
    · refine h.of_le hb fun hne => ?_
      rw [heq] at hne ⊢
      refine ⟨hne, ?_⟩
      simp only [setAt_self, UInt32.toNat_add, Nat.mod_eq_of_lt hlt]
      exact Nat.le_add_right _ _
  · refine h.of_le hb fun hne => ?_
    rcases SwitchMmu.updateIngressAdmission_cases hfit with ⟨-, -, heq⟩ | ⟨inc, -, -, -, heq⟩
    · simp only [heq, setAt_of_ne _ hpq] at hne ⊢
      exact ⟨hne, le_rfl⟩
    · simp only [heq, setAt_of_ne _ hpq] at hne ⊢
      exact ⟨hne, le_rfl⟩

/-- A release empties the headroom first. -/
theorem release (h : HeldBack c nPort p q b) {r : Charged} (hr : r ∈ b.resident) :
    HeldBack c nPort p q
      ⟨b.mmu.removeFromIngressAdmission r.port r.qIndex r.size, b.resident.erase r⟩ := by
  refine h.of_le (h.bounded.release hr) fun hne => ?_
  simp only [SwitchMmu.removeFromIngressAdmission] at hne ⊢
  by_cases hpq : p = r.port ∧ q = r.qIndex
  · obtain ⟨rfl, rfl⟩ := hpq
    simp only [setAt_self] at hne ⊢
    have hfrom := b.mmu.toNat_fromHdrm r.port r.qIndex r.size
    have hsub := b.mmu.toNat_hdrmBytes_sub_fromHdrm r.port r.qIndex r.size
    have hpos : (b.mmu.hdrmBytes r.port r.qIndex -
        b.mmu.fromHdrm r.port r.qIndex r.size).toNat ≠ 0 := fun h0 => hne (UInt32.toNat_inj.1 h0)
    have hall : b.mmu.fromHdrm r.port r.qIndex r.size = r.size := UInt32.toNat_inj.1 (by omega)
    refine ⟨?_, by rw [hall]; simp⟩
    rintro hzero
    have := congrArg UInt32.toNat hzero
    rw [UInt32.toNat_zero] at this
    omega
  · simp only [setAt_of_ne _ hpq] at hne ⊢
    exact ⟨hne, le_rfl⟩

theorem step (h : HeldBack c nPort p q b) (hn : nPort < pCnt)
    (hx : (p, q) ∈ HpccSim.lossless nPort) {op : Op} (hC : Lossless nPort b op)
    (hstep : b.step op = some b') : HeldBack c nPort p q b' := by
  cases op with
  | offer r =>
    simp only [Buffer.step] at hstep
    split_ifs at hstep with hq hadm
    · cases hstep
      exact h.offer hn hx hadm hC
    · cases hstep
      exact h
  | release r =>
    simp only [Buffer.step] at hstep
    split_ifs at hstep with hr
    cases hstep
    exact h.release hr

/-- If the reserve is covered, what fits in it is admitted: a queue that has used up its headroom
has more in its reserve than the threshold leaves out. -/
theorem reserveGuaranteed (h : HeldBack c nPort p q b) (hn : nPort < pCnt)
    (hx : (p, q) ∈ HpccSim.lossless nPort)
    (hcov : ∀ l, ((p, q) :: l).Perm (HpccSim.lossless nPort) →
      c.CoversReserve p (c.leastThreshold (p, q) l)) : ReserveGuaranteed p q b := by
  intro psize hle
  rw [h.bounded.config] at hle
  have hexc : b.mmu.excess p q = 0 := by
    rw [SwitchMmu.excess, h.bounded.config]
    omega
  obtain ⟨l, hl, hT⟩ := h.bounded.exists_leastThreshold_le hn hx (by omega)
  have hcovT := (hcov l hl).mono hT
  rw [SwitchMmu.checkIngressAdmission_eq_true_iff]
  by_contra hno
  rw [not_or, UInt32.not_le, UInt32.not_le] at hno
  obtain ⟨hhdrm, hthr⟩ := hno
  rw [UInt32.lt_iff_toNat_lt, UInt32.toNat_add, h.bounded.config] at hhdrm
  rw [UInt32.lt_iff_toNat_lt, UInt32.toNat_add, SwitchMmu.toNat_getSharedUsed, hexc] at hthr
  have hmod := Nat.mod_le (psize.toNat + (b.mmu.hdrmBytes p q).toNat) (2 ^ 32)
  have hmod' := Nat.mod_le (psize.toNat + 0) (2 ^ 32)
  obtain ⟨hroom, hdouble⟩ := hcovT (by omega)
  by_cases hzero : b.mmu.hdrmBytes p q = 0
  · rw [hzero, UInt32.toNat_zero] at hmod hhdrm
    omega
  · obtain ⟨i, T', hi, hT', hl'⟩ := h.held hzero
    obtain ⟨l', hperm, hleast⟩ := hl' (by omega)
    have hcovT' := (hcov l' hperm).mono hleast
    by_cases hlt : T' < c.reserve.toNat
    · have := (hcovT' hlt).2
      omega
    · omega

end HeldBack

end Guaranteed

/-! ### A run in which it is not -/

section Refused

variable {c : MmuConfig} {nPort p q : ℕ} {f g : ℕ × ℕ → ℕ} {b : Buffer}

/-- A packet beyond the threshold and the headroom is dropped, whatever its reserve. -/
theorem At.not_reserveGuaranteed (h : At c nPort f g b) (hn : nPort < pCnt) {s : ℕ}
    (hfit : f (p, q) + s ≤ c.reserve.toNat) (hroom : (c.headroom p).toNat < g (p, q) + s)
    (hlt : g (p, q) + s < 2 ^ 32)
    (hthr : (c.sharedSize - drawn c nPort f) >>> c.aShift (p, q) < s) :
    ¬ ReserveGuaranteed p q b := by
  intro hguar
  have hs : (UInt32.ofNat s).toNat = s := UInt32.toNat_ofNat_of_lt' (show s < 2 ^ 32 by omega)
  obtain ⟨hing, hhdrm, hrsv, hhead⟩ := h.counters p q
  have hexc : b.mmu.excess p q = 0 := by
    rw [SwitchMmu.excess]
    omega
  have hpfc := h.threshold hn (p, q)
  have hadm := hguar (UInt32.ofNat s) (by omega)
  rw [SwitchMmu.checkIngressAdmission_eq_true_iff, UInt32.le_iff_toNat_le, UInt32.le_iff_toNat_le,
    UInt32.toNat_add, UInt32.toNat_add, SwitchMmu.toNat_getSharedUsed, hs, hexc] at hadm
  simp only at hpfc
  omega

/-- The other queues grow in the order `l`. -/
theorem exists_at_leastThreshold (hn : nPort < pCnt)
    (h : c.totalHdrm.toNat + c.totalRsrv.toNat ≤ c.bufferSize.toNat)
    (hsum : ∀ x ∈ lossless nPort,
      c.reserve.toNat + c.sharedSize + (c.headroom x.1).toNat < 2 ^ 32)
    {l : List (ℕ × ℕ)} (hl : ((p, q) :: l).Perm (lossless nPort)) :
    ∃ f b, Run.Reach step (Lossless nPort) (init c) b ∧ At c nPort f (fun _ => 0) b ∧
      f (p, q) = 0 ∧
      (c.sharedSize - drawn c nPort f) >>> c.aShift (p, q) = c.leastThreshold (p, q) l := by
  obtain ⟨hnot, hnd⟩ := List.nodup_cons.1 (hl.nodup_iff.2 (nodup_lossless nPort))
  have hmem : ∀ y ∈ l, y ∈ lossless nPort := fun y hy =>
    hl.mem_iff.1 (List.mem_cons_of_mem _ hy)
  have h₀ : At c nPort (fun _ => 0) (fun _ => 0) (init c) :=
    ⟨bounded_init h, fun _ => rfl, fun _ => rfl⟩
  obtain ⟨b₁, hreach₁, h₁⟩ :=
    h₀.fill_reserves hn hmem hnd (fun _ => Nat.zero_le _) (fun _ _ => rfl)
  have hdrawn : drawn c nPort (fun y => if y ∈ l then c.usableReserve y else 0) = 0 := by
    refine List.sum_eq_zero fun n hn => ?_
    obtain ⟨y, -, rfl⟩ := List.mem_map.1 hn
    refine Nat.sub_eq_zero_of_le ?_
    simp only [MmuConfig.usableReserve]
    split_ifs <;> omega
  obtain ⟨f, b₂, hreach₂, h₂, hf, hfree⟩ := h₁.fill_pool (T := c.sharedSize) hn hmem hnd
    (by rw [hdrawn, Nat.zero_add]) (fun _ hy => if_pos hy) hsum
  refine ⟨f, b₂, hreach₁.trans hreach₂, h₂, ?_, ?_⟩
  · rw [hf, if_neg hnot, if_neg hnot]
  · have hleft : c.sharedSize - drawn c nPort f = SharedPool.leftover c.aShift c.sharedSize l := by
      omega
    rw [MmuConfig.leastThreshold, MmuConfig.pool_eq_sharedSize h, hleft]

/-- **If the reserve is not covered** at a least threshold, some run leads to a packet that is
dropped: at once if the headroom is below the reserve, and otherwise after the reserve has been
filled up to the threshold and the headroom has been used up. -/
theorem exists_not_reserveGuaranteed (hn : nPort < pCnt)
    (h : c.totalHdrm.toNat + c.totalRsrv.toNat ≤ c.bufferSize.toNat)
    (hsum : ∀ x ∈ lossless nPort,
      c.reserve.toNat + c.sharedSize + (c.headroom x.1).toNat < 2 ^ 32)
    {l : List (ℕ × ℕ)} (hl : ((p, q) :: l).Perm (lossless nPort))
    (hnot : ¬ c.CoversReserve p (c.leastThreshold (p, q) l)) :
    ∃ b, Run.Reach step (Lossless nPort) (init c) b ∧ ¬ ReserveGuaranteed p q b := by
  obtain ⟨f, b, hreach, hb, hzero, hT⟩ := exists_at_leastThreshold hn h hsum hl
  have hx : (p, q) ∈ lossless nPort := hl.mem_iff.1 List.mem_cons_self
  have hbig := hsum _ hx
  set T := c.leastThreshold (p, q) l
  simp only [MmuConfig.CoversReserve, Classical.not_imp, not_and_or, Nat.not_le] at hnot hbig
  obtain ⟨hlt, hroom⟩ := hnot
  rcases Nat.lt_or_ge (c.headroom p).toNat c.reserve.toNat with hsmall | hlarge
  · exact ⟨b, hreach, hb.not_reserveGuaranteed hn (s := c.reserve.toNat) (by omega) (by omega)
      (by omega) (by omega)⟩
  · -- the packet that leaves `T + 1` bytes of the reserve is admitted by the headroom
    obtain ⟨b₁, hreach₁, h₁⟩ := hb.offer_ingress (s := c.reserve.toNat - T - 1) hn hx
      (by omega) (by omega) (.inl (by simp only; omega))
    have hdrawn := drawn_update (c := c) (f := f) hx (f (p, q) + (c.reserve.toNat - T - 1))
    rw [hzero] at h₁ hdrawn
    have hdrawn' : drawn c nPort (Function.update f (p, q) (0 + (c.reserve.toNat - T - 1))) =
        drawn c nPort f := by
      omega
    obtain ⟨b₂, hreach₂, h₂⟩ := h₁.offer_hdrm (s := (c.headroom p).toNat) hn hx
      (by rw [Function.update_self]; omega) (by rw [hdrawn', hT, Function.update_self]; omega)
      (by simp only; omega)
    refine ⟨b₂, (hreach.trans hreach₁).trans hreach₂,
      h₂.not_reserveGuaranteed hn (s := T + 1) ?_ ?_ ?_ ?_⟩
    · rw [Function.update_self]
      omega
    · rw [Function.update_self]
      omega
    · rw [Function.update_self]
      omega
    · rw [hdrawn', hT]
      exact Nat.lt_succ_self T

end Refused

/-! ### All configurations -/

end Buffer

namespace SwitchMmu

variable (m : SwitchMmu) (port qIndex : ℕ) (psize : UInt32)

/-- The MMU with the totals taken off the buffer beforehand. -/
def pooled : SwitchMmu := { m with toMmuConfig := m.toMmuConfig.pooled }

@[simp] theorem getPfcThreshold_pooled :
    m.pooled.getPfcThreshold port = m.getPfcThreshold port := by
  simp [getPfcThreshold, pooled, MmuConfig.pooled]

@[simp] theorem checkIngressAdmission_pooled :
    m.pooled.checkIngressAdmission port qIndex psize =
      m.checkIngressAdmission port qIndex psize := by
  rw [checkIngressAdmission, checkIngressAdmission, getPfcThreshold_pooled]
  rfl

theorem updateIngressAdmission_pooled :
    m.pooled.updateIngressAdmission port qIndex psize =
      (m.updateIngressAdmission port qIndex psize).pooled := by
  simp only [updateIngressAdmission, getPfcThreshold_pooled, apply_ite pooled]
  rfl

theorem fits_pooled : m.pooled.Fits port qIndex psize ↔ m.Fits port qIndex psize := by
  have hc : m.pooled.ChargedToHdrm port qIndex psize ↔ m.ChargedToHdrm port qIndex psize := by
    rw [ChargedToHdrm, ChargedToHdrm, getPfcThreshold_pooled]
    rfl
  simp only [Fits, hc]
  rfl

end SwitchMmu

namespace Buffer

/-- The buffer with the totals taken off beforehand. -/
def pooled (b : Buffer) : Buffer := ⟨b.mmu.pooled, b.resident⟩

/-- The MMU reads the totals only to take them off. -/
theorem step_pooled (b : Buffer) (op : Op) : step b.pooled op = (step b op).map pooled := by
  cases op with
  | offer r =>
    simp only [step, pooled, SwitchMmu.checkIngressAdmission_pooled,
      SwitchMmu.updateIngressAdmission_pooled, apply_ite (Option.map _)]
    rfl
  | release r =>
    simp only [step, pooled, apply_ite (Option.map _)]
    rfl

theorem lossless_pooled {nPort : ℕ} (b : Buffer) (op : Op) :
    Lossless nPort b.pooled op ↔ Lossless nPort b op := by
  cases op with
  | offer r =>
    simp only [Lossless, NoOverflow, pooled, SwitchMmu.checkIngressAdmission_pooled,
      SwitchMmu.fits_pooled]
  | release r => exact Iff.rfl

theorem reserveGuaranteed_pooled {p q : ℕ} (b : Buffer) :
    ReserveGuaranteed p q b.pooled ↔ ReserveGuaranteed p q b := by
  simp only [ReserveGuaranteed, pooled, SwitchMmu.checkIngressAdmission_pooled]
  rfl

/-- **The reserve of a queue is guaranteed** in every run without overflow if it is covered at the
threshold that the other queues leave, in whatever order they grow; and the converse holds as long
as the sums of `ConfigNPort` do not wrap and fit in the buffer. -/
theorem reserveGuaranteed_iff {c₀ : MmuConfig} {nPort p q : ℕ} (hn : nPort < pCnt)
    (hx : (p, q) ∈ lossless nPort) :
    ((∀ l, ((p, q) :: l).Perm (lossless nPort) → (c₀.configNPort nPort).CoversReserve p
        ((c₀.configNPort nPort).leastThreshold (p, q) l)) →
      ∀ ops, Run.Along step (Lossless nPort) (init (c₀.configNPort nPort)) ops →
        Run.Always step (ReserveGuaranteed p q) (init (c₀.configNPort nPort)) ops) ∧
    (c₀.TotalsExact nPort →
      (c₀.configNPort nPort).totalHdrm.toNat + (c₀.configNPort nPort).totalRsrv.toNat ≤
        (c₀.configNPort nPort).bufferSize.toNat →
      (∀ ops, Run.Along step (Lossless nPort) (init (c₀.configNPort nPort)) ops →
        Run.Always step (ReserveGuaranteed p q) (init (c₀.configNPort nPort)) ops) →
      ∀ l, ((p, q) :: l).Perm (lossless nPort) → (c₀.configNPort nPort).CoversReserve p
        ((c₀.configNPort nPort).leastThreshold (p, q) l)) := by
  set c := c₀.configNPort nPort with hc
  constructor
  · intro hcov ops hops
    have hinit : (init c).pooled = init c.pooled := rfl
    have hops' : Run.Along step (Lossless nPort) (init c.pooled) ops := by
      rw [← hinit, Run.along_map_iff step_pooled]
      exact hops.mono fun b op _ h => (lossless_pooled b op).2 h
    have halways : Run.Always step (ReserveGuaranteed p q) (init c.pooled) ops := by
      refine Run.always_of_invariant (I := HeldBack c.pooled nPort p q)
        (fun _ _ _ hb hC hstep => hb.step hn hx hC hstep)
        (fun b hb => hb.reserveGuaranteed hn hx fun l hl => ?_) (.init (Nat.zero_le _)) hops'
      have := hcov l hl
      rwa [MmuConfig.leastThreshold, ← MmuConfig.pool_pooled] at this
    rw [← hinit, Run.always_map_iff step_pooled] at halways
    simpa only [reserveGuaranteed_pooled] using halways
  · intro htot h hruns l hl
    by_contra hnot
    obtain ⟨b, ⟨ops, hops, hexec⟩, hrefused⟩ :=
      exists_not_reserveGuaranteed hn h (htot.reserve_add_sharedSize_lt h) hl hnot
    exact hrefused ((hruns ops hops).last hexec)

/-- The default configuration with thresholds of an eighth of the free pool, as `third.cc` has
them. -/
def eighths : MmuConfig := { MmuConfig.default with pfcAShift := fun _ => 3 }

/-- One port: six other queues leave enough of 12 MB for a reserve of 4 KB, here for a packet that
passes through. -/
theorem reserveGuaranteed_onePort :
    Run.Always step (ReserveGuaranteed 1 3) (init (eighths.configNPort 1))
      [.offer ⟨1, 3, 1000⟩, .release ⟨1, 3, 1000⟩] := by
  refine (reserveGuaranteed_iff (by decide) (by decide)).1 (fun l hl => ?_) _ (by decide +kernel)
  have hlen : l.length = 6 := by
    have := hl.length_eq
    rw [List.length_cons] at this
    exact Nat.succ_injective this
  have hleft := SharedPool.leftover_const (a := (eighths.configNPort 1).aShift) (k := 3)
    (fun _ => rfl) (eighths.configNPort 1).pool l
  rw [MmuConfig.leastThreshold, hleft, hlen]
  exact fun hlt => absurd hlt (by decide)

/-- One port with a headroom of 5000 bytes: two queues use up the pool of 8192, a third holds 3000
bytes in its reserve of 4096 and 5000 in its headroom. Its next 1000 bytes are dropped. -/
theorem smallBuffer_refuses_reserve :
    let c := (MmuConfig.default.configHdrm 1 5000).configBufferSize 17288
    let ops : List Op := [.offer ⟨1, 1, 8192⟩, .offer ⟨1, 2, 4096⟩, .offer ⟨1, 2, 4096⟩,
      .offer ⟨1, 3, 3000⟩, .offer ⟨1, 3, 5000⟩]
    (1, 3) ∈ lossless 1 ∧ c.TotalsExact 1 ∧
      (c.configNPort 1).totalHdrm.toNat + (c.configNPort 1).totalRsrv.toNat ≤
        (c.configNPort 1).bufferSize.toNat ∧
      Run.Along step (Lossless 1) (init (c.configNPort 1)) ops ∧
      ¬ Run.Always step (ReserveGuaranteed 1 3) (init (c.configNPort 1)) ops := by
  intro c ops
  refine ⟨by decide, ⟨by decide, by decide⟩, by decide, by decide +kernel, fun h => ?_⟩
  have hlast : (Run.exec step (init (c.configNPort 1)) ops).map (fun b =>
      decide ((b.mmu.ingressBytes 1 3).toNat + 1000 ≤ b.mmu.reserve.toNat) &&
        !b.mmu.checkIngressAdmission 1 3 1000) = some true := by
    decide +kernel
  obtain ⟨b, hb, hval⟩ := Option.map_eq_some_iff.1 hlast
  rw [Bool.and_eq_true, decide_eq_true_eq, Bool.not_eq_true'] at hval
  exact absurd (h.last hb 1000 hval.1) (by rw [hval.2]; decide)

end Buffer

end HpccSim
