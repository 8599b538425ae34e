import HpccSim.Lib.SharedPool
import HpccSim.MmuBuffer
import Mathlib.Algebra.BigOperators.Group.List.Lemmas
import Mathlib.Data.List.Nodup
import Mathlib.Data.List.ProdSigma

/-!
# How much of the buffer can be committed

`ConfigNPort` sets aside one headroom and one reserve for each port; the admission test grants
them to each class of each port. This file determines how much the lossless classes `1, …, 7` of
the ports `1, …, nPort` can hold together. Beyond headroom and reserve a queue takes at most
`free >>> pfc_a_shift` of the shared pool, `free` being what is left of it at that moment, so the
order in which the queues grow matters.

## Main definitions

* `Buffer.committed`: the sum of `ingress_bytes + hdrm_bytes` over all queues.
* `lossless nPort`: the queues in question.
* `MmuConfig.worstCase nPort l`: every queue takes its headroom and its reserve, and the queues
  take their part of the shared pool in the order `l`.

## Main results

* `Buffer.committable_iff_worstCase_le`: the buffer is never overcommitted if and only if the
  worst case fits in it, for every order.
-/

namespace HpccSim

/-- The lossless queues of a switch with `nPort` ports. -/
def lossless (nPort : ℕ) : List (ℕ × ℕ) := List.range' 1 nPort ×ˢ List.range' 1 (qCnt - 1)

theorem mem_lossless {nPort : ℕ} {x : ℕ × ℕ} :
    x ∈ lossless nPort ↔ (1 ≤ x.1 ∧ x.1 ≤ nPort) ∧ 1 ≤ x.2 ∧ x.2 < qCnt := by
  obtain ⟨p, q⟩ := x
  simp only [lossless, List.mem_product, List.mem_range'_1, qCnt]
  omega

theorem nodup_lossless (nPort : ℕ) : (lossless nPort).Nodup :=
  List.Nodup.product List.nodup_range' List.nodup_range'

/-- A sum over all queues whose terms vanish off the lossless ones. -/
theorem sum_queues {nPort : ℕ} (hn : nPort < pCnt) {l : List (ℕ × ℕ)}
    (hl : l.Perm (lossless nPort)) {f : ℕ × ℕ → ℕ} (hf : ∀ x, x ∉ l → f x = 0) :
    ∑ x ∈ queues pCnt qCnt, f x = (l.map f).sum := by
  rw [← List.sum_toFinset _ (hl.nodup_iff.2 (nodup_lossless nPort))]
  refine (Finset.sum_subset (fun x hx => ?_) fun x _ hx => hf x ?_).symm
  · rw [List.mem_toFinset, hl.mem_iff, mem_lossless] at hx
    exact mem_queues.2 ⟨by omega, hx.2.2⟩
  · rwa [List.mem_toFinset] at hx

namespace MmuConfig

variable (c : MmuConfig)

/-- The shift that turns the free part of the pool into the threshold of a queue. -/
def aShift (x : ℕ × ℕ) : ℕ := (c.pfcAShift x.1).toNat % 32

/-- Some packet that is not empty is admitted at the port when the buffer is empty. -/
def Usable (p : ℕ) : Prop :=
  0 < (c.headroom p).toNat ∨ 0 < c.sharedSize >>> ((c.pfcAShift p).toNat % 32)

instance (p : ℕ) : Decidable (c.Usable p) := inferInstanceAs (Decidable (_ ∨ _))

/-- The reserve of a queue, if packets get into it. -/
def usableReserve (x : ℕ × ℕ) : ℕ := if c.Usable x.1 then c.reserve.toNat else 0

/-- What a queue can take without touching the shared pool. -/
def ownShare (x : ℕ × ℕ) : ℕ := (c.headroom x.1).toNat + c.usableReserve x

/-- Every lossless queue takes its headroom and its reserve, and the queues grow into the shared
pool in the order `l`, each to its threshold. -/
def worstCase (nPort : ℕ) (l : List (ℕ × ℕ)) : ℕ :=
  ((lossless nPort).map c.ownShare).sum +
    (c.sharedSize - SharedPool.leftover c.aShift c.sharedSize l)

/-- The totals that `ConfigNPort` computes for `nPort` ports do not wrap. -/
def TotalsExact (nPort : ℕ) : Prop :=
  (∑ p ∈ Finset.range nPort, (c.headroom (p + 1)).toNat) < 2 ^ 32 ∧
    nPort * c.reserve.toNat < 2 ^ 32

@[simp] theorem configNPort_headroom (nPort : ℕ) :
    (c.configNPort nPort).headroom = c.headroom := by
  induction nPort with
  | zero => rfl
  | succ n ih => exact ih

@[simp] theorem configNPort_reserve (nPort : ℕ) : (c.configNPort nPort).reserve = c.reserve := by
  induction nPort with
  | zero => rfl
  | succ n ih => exact ih

variable {c}

theorem TotalsExact.toNat_totalHdrm {nPort : ℕ} (h : c.TotalsExact nPort) :
    (c.configNPort nPort).totalHdrm.toNat =
      ∑ p ∈ Finset.range nPort, (c.headroom (p + 1)).toNat := by
  obtain ⟨h, -⟩ := h
  induction nPort with
  | zero => rfl
  | succ n ih =>
    rw [Finset.sum_range_succ] at h ⊢
    have hn := ih (by omega)
    rw [← hn] at h ⊢
    rw [configNPort, UInt32.toNat_add, Nat.mod_eq_of_lt h]

theorem TotalsExact.toNat_totalRsrv {nPort : ℕ} (h : c.TotalsExact nPort) :
    (c.configNPort nPort).totalRsrv.toNat = nPort * c.reserve.toNat := by
  obtain ⟨-, h⟩ := h
  induction nPort with
  | zero => simp [configNPort]
  | succ n ih =>
    rw [Nat.succ_mul] at h ⊢
    have hn := ih (by omega)
    rw [← hn] at h ⊢
    rw [configNPort, UInt32.toNat_add, Nat.mod_eq_of_lt h]

/-- A queue that takes its reserve, its headroom and the whole pool does not overflow. -/
theorem TotalsExact.reserve_add_sharedSize_lt {nPort : ℕ} (htot : c.TotalsExact nPort)
    (h : (c.configNPort nPort).totalHdrm.toNat + (c.configNPort nPort).totalRsrv.toNat ≤
      (c.configNPort nPort).bufferSize.toNat) :
    ∀ x ∈ lossless nPort, (c.configNPort nPort).reserve.toNat +
      (c.configNPort nPort).sharedSize + ((c.configNPort nPort).headroom x.1).toNat < 2 ^ 32 := by
  intro x hx
  obtain ⟨⟨hpos, hle⟩, -⟩ := mem_lossless.1 hx
  have hhdrm : (c.headroom x.1).toNat ≤ (c.configNPort nPort).totalHdrm.toNat := by
    rw [htot.toNat_totalHdrm]
    obtain ⟨p, hp⟩ : ∃ p, x.1 = p + 1 := ⟨x.1 - 1, by omega⟩
    rw [hp]
    exact Finset.single_le_sum (f := fun p => (c.headroom (p + 1)).toNat)
      (fun _ _ => Nat.zero_le _) (Finset.mem_range.2 (by omega))
  have hrsv : c.reserve.toNat ≤ (c.configNPort nPort).totalRsrv.toNat := by
    rw [htot.toNat_totalRsrv]
    exact Nat.le_mul_of_pos_left _ (by omega)
  have hlt := (c.configNPort nPort).bufferSize.toNat_lt
  rw [configNPort_headroom, configNPort_reserve, sharedSize]
  omega

end MmuConfig

namespace Buffer

/-- The bytes charged to all queues together. -/
def committed (b : Buffer) : ℕ :=
  ∑ x ∈ queues pCnt qCnt, ((b.mmu.ingressBytes x.1 x.2).toNat + (b.mmu.hdrmBytes x.1 x.2).toNat)

/-- The operation stays on the lossless queues and does not overflow a counter. -/
def Lossless (nPort : ℕ) (b : Buffer) : Op → Prop
  | .offer p => (p.port, p.qIndex) ∈ lossless nPort ∧ NoOverflow b (.offer p)
  | .release _ => True

instance (nPort : ℕ) (b : Buffer) : (op : Op) → Decidable (Lossless nPort b op)
  | .offer p =>
    inferInstanceAs (Decidable ((p.port, p.qIndex) ∈ lossless nPort ∧ NoOverflow b (.offer p)))
  | .release _ => .isTrue trivial

/-! ### The bound -/

section Bound

variable {c : MmuConfig} {nPort : ℕ} {b b' : Buffer} {op : Op}

/-- What bounds the queues: those of an unusable port stay empty, and the parts of the others in
the shared pool respect the thresholds in some order. -/
structure Bounded (c : MmuConfig) (nPort : ℕ) (b : Buffer) : Prop where
  inv : b.Inv
  config : b.mmu.toMmuConfig = c
  lossless : ∀ r ∈ b.resident, (r.port, r.qIndex) ∈ lossless nPort
  unusable : ∀ p q, ¬ c.Usable p → b.mmu.ingressBytes p q = 0
  filled : ∃ l : List (ℕ × ℕ), l.Perm (HpccSim.lossless nPort) ∧
    SharedPool.FilledIn c.aShift (fun x => b.mmu.excess x.1 x.2) c.sharedSize l

theorem bounded_init (h : c.totalHdrm.toNat + c.totalRsrv.toNat ≤ c.bufferSize.toNat) :
    Bounded c nPort (init c) where
  inv := inv_init h
  config := rfl
  lossless r hr := by cases hr
  unusable p q _ := rfl
  filled := by
    refine ⟨_, .refl _, ?_⟩
    have hzero : (fun x : ℕ × ℕ => (init c).mmu.excess x.1 x.2) = fun _ => 0 := by
      funext x
      simp [init, MmuConfig.init, SwitchMmu.excess]
    rw [hzero]
    exact SharedPool.filledIn_zero _ _

namespace Bounded

/-- Nothing is charged to the other queues. -/
theorem eq_zero (h : Bounded c nPort b) {p q : ℕ} (hpq : (p, q) ∉ HpccSim.lossless nPort) :
    (b.mmu.ingressBytes p q).toNat + (b.mmu.hdrmBytes p q).toNat = 0 := by
  rw [h.inv.bytes p q, residentBytes, tally_eq_zero_iff]
  intro r hr hcls
  obtain ⟨rfl, rfl⟩ := of_decide_eq_true hcls
  exact absurd (h.lossless r hr) hpq

/-- The pool is what the lossless queues hold beyond their reserves. -/
theorem sharedUsedBytes_eq (h : Bounded c nPort b) (hn : nPort < pCnt) {l : List (ℕ × ℕ)}
    (hl : l.Perm (HpccSim.lossless nPort)) :
    b.mmu.sharedUsedBytes.toNat = (l.map fun x => b.mmu.excess x.1 x.2).sum := by
  rw [h.inv.shared]
  refine sum_queues hn hl fun x hx => ?_
  have := h.eq_zero (p := x.1) (q := x.2) (fun hmem => hx (hl.mem_iff.2 hmem))
  have := b.mmu.excess_le_ingressBytes x.1 x.2
  omega

/-- An unusable port admits empty packets only. -/
theorem size_eq_zero (h : Bounded c nPort b) {r : Charged} (hr : ¬ c.Usable r.port)
    (hadm : b.mmu.checkIngressAdmission r.port r.qIndex r.size = true) : r.size = 0 := by
  have hing := h.unusable r.port r.qIndex hr
  have hhdrm := h.inv.hdrm r.port r.qIndex
  have hthr := h.inv.sound.toNat_getPfcThreshold r.port
  simp only [MmuConfig.Usable, not_or, Nat.not_lt, Nat.le_zero, ← h.config] at hr
  have hle := SharedPool.shiftRight_mono
    (Nat.sub_le b.mmu.sharedSize b.mmu.sharedUsedBytes.toNat)
    ((b.mmu.pfcAShift r.port).toNat % 32)
  have hexc := b.mmu.excess_le_ingressBytes r.port r.qIndex
  rw [hing, UInt32.toNat_zero] at hexc
  have hsize := r.size.toNat_lt
  rw [SwitchMmu.checkIngressAdmission_eq_true_iff] at hadm
  simp only [UInt32.le_iff_toNat_le, UInt32.toNat_add, SwitchMmu.toNat_getSharedUsed] at hadm
  rw [← UInt32.toNat_inj, UInt32.toNat_zero]
  omega

/-- Admitting a packet: its queue, if it takes from the pool, becomes the last in the order. -/
theorem offer (h : Bounded c nPort b) (hn : nPort < pCnt) {r : Charged}
    (hadm : b.mmu.checkIngressAdmission r.port r.qIndex r.size = true)
    (hC : Lossless nPort b (.offer r)) :
    Bounded c nPort ⟨b.mmu.updateIngressAdmission r.port r.qIndex r.size, r :: b.resident⟩ := by
  obtain ⟨hmem, hfit⟩ := hC
  obtain ⟨hport, hq⟩ := mem_lossless.1 hmem
  have hinv := h.inv.offer ⟨by omega, hq.2⟩ hadm hfit
  obtain ⟨l, hl, hfill⟩ := h.filled
  refine ⟨hinv, by simpa using h.config, fun r' hr' => ?_, fun p q hp => ?_, ?_⟩
  · rcases List.mem_cons.1 hr' with rfl | hr'
    · exact hmem
    · exact h.lossless r' hr'
  · have hold := h.unusable p q hp
    by_cases hpq : p = r.port ∧ q = r.qIndex
    · obtain ⟨rfl, rfl⟩ := hpq
      have hzero := h.size_eq_zero hp hadm
      rcases SwitchMmu.updateIngressAdmission_cases (hfit hadm) with
        ⟨-, -, heq⟩ | ⟨inc, -, -, -, heq⟩
      · rw [heq]
        exact hold
      · simp only [heq, setAt_self]
        rw [hold, hzero]
        rfl
    · rcases SwitchMmu.updateIngressAdmission_cases (hfit hadm) with
        ⟨-, -, heq⟩ | ⟨inc, -, -, -, heq⟩ <;> simp only [heq, setAt_of_ne _ hpq, hold]
  · rcases SwitchMmu.updateIngressAdmission_cases (hfit hadm) with
      ⟨-, -, heq⟩ | ⟨inc, -, hlt, hle, heq⟩
    · exact ⟨l, hl, by rw [heq]; exact hfill⟩
    · have hexc : (fun x : ℕ × ℕ =>
          (b.mmu.updateIngressAdmission r.port r.qIndex r.size).excess x.1 x.2) =
          Function.update (fun x : ℕ × ℕ => b.mmu.excess x.1 x.2) (r.port, r.qIndex)
            ((b.mmu.ingressBytes r.port r.qIndex).toNat + r.size.toNat -
              c.reserve.toNat) := by
        rw [← h.config]
        funext x
        by_cases hx : x = (r.port, r.qIndex)
        · subst hx
          simp only [heq, SwitchMmu.excess, setAt_self, UInt32.toNat_add, Nat.mod_eq_of_lt hlt,
            Function.update_self]
        · have hx' : ¬ (x.1 = r.port ∧ x.2 = r.qIndex) := fun h => hx (Prod.ext h.1 h.2)
          rw [Function.update_of_ne hx]
          simp only [heq, SwitchMmu.excess, setAt_of_ne _ hx']
      rw [h.inv.sound.toNat_getPfcThreshold, h.sharedUsedBytes_eq hn hl] at hle
      obtain ⟨l', hl', hfill'⟩ := hfill.grow (i := (r.port, r.qIndex))
        (hl.nodup_iff.2 (nodup_lossless nPort)) (hl.mem_iff.2 hmem) (h.config ▸ hle)
      exact ⟨l', hl'.trans hl, by rw [hexc]; exact hfill'⟩

/-- Releasing a packet: the queues only shrink. -/
theorem release (h : Bounded c nPort b) {r : Charged} (hr : r ∈ b.resident) :
    Bounded c nPort
      ⟨b.mmu.removeFromIngressAdmission r.port r.qIndex r.size, b.resident.erase r⟩ := by
  have hle : ∀ p q, ((b.mmu.removeFromIngressAdmission r.port r.qIndex r.size).ingressBytes
      p q).toNat ≤ (b.mmu.ingressBytes p q).toNat := by
    intro p q
    simp only [SwitchMmu.removeFromIngressAdmission]
    by_cases hpq : p = r.port ∧ q = r.qIndex
    · obtain ⟨rfl, rfl⟩ := hpq
      obtain ⟨-, -, hing, -⟩ := h.inv.release_safe hr
      rw [setAt_self, UInt32.toNat_sub_of_le _ _ hing]
      exact Nat.sub_le _ _
    · rw [setAt_of_ne _ hpq]
  obtain ⟨l, hl, hfill⟩ := h.filled
  refine ⟨h.inv.release hr, h.config, fun r' hr' => h.lossless r' (List.mem_of_mem_erase hr'),
    fun p q hp => ?_, l, hl, hfill.of_le fun x => Nat.sub_le_sub_right (hle x.1 x.2) _⟩
  have hzero := hle p q
  rw [h.unusable p q hp, UInt32.toNat_zero, Nat.le_zero] at hzero
  exact UInt32.toNat_inj.1 (by rw [hzero, UInt32.toNat_zero])

theorem step (h : Bounded c nPort b) (hn : nPort < pCnt) (hC : Lossless nPort b op)
    (hstep : b.step op = some b') : Bounded c nPort b' := by
  cases op with
  | offer r =>
    simp only [Buffer.step] at hstep
    split_ifs at hstep with hq hadm
    · cases hstep
      exact h.offer hn hadm hC
    · cases hstep
      exact h
  | release r =>
    simp only [Buffer.step] at hstep
    split_ifs at hstep with hr
    cases hstep
    exact h.release hr

theorem of_exec (hn : nPort < pCnt)
    (h : c.totalHdrm.toNat + c.totalRsrv.toNat ≤ c.bufferSize.toNat) {ops : List Op}
    (hops : Run.Along Buffer.step (Lossless nPort) (init c) ops)
    (hexec : Run.exec Buffer.step (init c) ops = some b) : Bounded c nPort b :=
  Run.exec_induction (fun _ _ _ hb hC hstep => hb.step hn hC hstep) (bounded_init h) hops hexec

/-- The worst case of some order bounds what is committed. -/
theorem committed_le (h : Bounded c nPort b) (hn : nPort < pCnt) :
    ∃ l : List (ℕ × ℕ), l.Perm (HpccSim.lossless nPort) ∧ b.committed ≤ c.worstCase nPort l := by
  obtain ⟨l, hl, hfill⟩ := h.filled
  refine ⟨l, hl, ?_⟩
  have hsum : b.committed = ((HpccSim.lossless nPort).map fun x =>
      (b.mmu.ingressBytes x.1 x.2).toNat + (b.mmu.hdrmBytes x.1 x.2).toNat).sum :=
    sum_queues hn (.refl _) fun x hx => h.eq_zero hx
  have hterm : ∀ x ∈ HpccSim.lossless nPort,
      (b.mmu.ingressBytes x.1 x.2).toNat + (b.mmu.hdrmBytes x.1 x.2).toNat ≤
        c.ownShare x + b.mmu.excess x.1 x.2 := by
    intro x _
    have hhdrm := h.inv.hdrm x.1 x.2
    have hconf := h.config
    simp only [MmuConfig.ownShare, MmuConfig.usableReserve, SwitchMmu.excess, ← hconf]
    split_ifs with hu
    · omega
    · have := h.unusable x.1 x.2 (hconf ▸ hu)
      rw [this, UInt32.toNat_zero]
      omega
  have hpool := hfill.leftover_add_sum_le
  rw [(hl.map _).sum_eq] at hpool
  calc b.committed
      ≤ ((HpccSim.lossless nPort).map fun x => c.ownShare x + b.mmu.excess x.1 x.2).sum :=
        hsum.trans_le (List.sum_le_sum hterm)
    _ = ((HpccSim.lossless nPort).map c.ownShare).sum +
          ((HpccSim.lossless nPort).map fun x => b.mmu.excess x.1 x.2).sum := List.sum_map_add
    _ ≤ c.worstCase nPort l := by
        simp only [MmuConfig.worstCase]
        omega

end Bounded

end Bound

/-! ### A run that reaches the worst case -/

section Tight

variable {c : MmuConfig} {nPort : ℕ} {f g : ℕ × ℕ → ℕ} {b : Buffer} {x : ℕ × ℕ} {s : ℕ}

/-- The counters of the buffer are `f` and `g`. -/
structure At (c : MmuConfig) (nPort : ℕ) (f g : ℕ × ℕ → ℕ) (b : Buffer) : Prop where
  bounded : Bounded c nPort b
  ingress : ∀ x, (b.mmu.ingressBytes x.1 x.2).toNat = f x
  hdrm : ∀ x, (b.mmu.hdrmBytes x.1 x.2).toNat = g x

/-- What the queues hold beyond their reserves. -/
def drawn (c : MmuConfig) (nPort : ℕ) (f : ℕ × ℕ → ℕ) : ℕ :=
  ((lossless nPort).map fun y => f y - c.reserve.toNat).sum

/-- A queue fills its reserve at most. -/
theorem usableReserve_le (y : ℕ × ℕ) : c.usableReserve y ≤ c.reserve.toNat := by
  rw [MmuConfig.usableReserve]
  split_ifs
  · exact le_rfl
  · exact Nat.zero_le _

/-- The reserves take nothing from the pool. -/
theorem drawn_reserves :
    drawn c nPort (fun y => if y ∈ lossless nPort then c.usableReserve y else 0) = 0 := by
  refine List.sum_eq_zero fun n hmem => ?_
  obtain ⟨y, hy, rfl⟩ := List.mem_map.1 hmem
  simp only [if_pos hy]
  exact Nat.sub_eq_zero_of_le (usableReserve_le y)

theorem drawn_update (hx : x ∈ lossless nPort) (v : ℕ) :
    drawn c nPort (Function.update f x v) + (f x - c.reserve.toNat) =
      drawn c nPort f + (v - c.reserve.toNat) := by
  have hrest : ∀ y ∈ (lossless nPort).erase x,
      Function.update f x v y - c.reserve.toNat = f y - c.reserve.toNat := by
    intro y hy
    rw [Function.update_of_ne]
    rintro rfl
    exact (nodup_lossless nPort).not_mem_erase hy
  simp only [drawn, ((List.perm_cons_erase hx).map _).sum_eq, List.map_cons, List.sum_cons,
    List.map_congr_left hrest, Function.update_self]
  omega

namespace At

theorem threshold (h : At c nPort f g b) (hn : nPort < pCnt) (x : ℕ × ℕ) :
    (b.mmu.getPfcThreshold x.1).toNat = (c.sharedSize - drawn c nPort f) >>> c.aShift x := by
  have hconf := h.bounded.config
  rw [h.bounded.inv.sound.toNat_getPfcThreshold, h.bounded.sharedUsedBytes_eq hn (.refl _)]
  simp only [SwitchMmu.excess, h.ingress, drawn, MmuConfig.aShift, ← hconf]

theorem counters (h : At c nPort f g b) (p q : ℕ) :
    (b.mmu.ingressBytes p q).toNat = f (p, q) ∧ (b.mmu.hdrmBytes p q).toNat = g (p, q) ∧
      b.mmu.reserve.toNat = c.reserve.toNat ∧ (b.mmu.headroom p).toNat = (c.headroom p).toNat :=
  ⟨h.ingress (p, q), h.hdrm (p, q), by rw [h.bounded.config], by rw [h.bounded.config]⟩

private theorem reach_offer (h : At c nPort f g b) (hn : nPort < pCnt) {r : Charged}
    (hr : (r.port, r.qIndex) ∈ lossless nPort)
    (hadm : b.mmu.checkIngressAdmission r.port r.qIndex r.size = true)
    (hfit : b.mmu.Fits r.port r.qIndex r.size) :
    Run.Reach Buffer.step (Lossless nPort) b
        ⟨b.mmu.updateIngressAdmission r.port r.qIndex r.size, r :: b.resident⟩ ∧
      Bounded c nPort
        ⟨b.mmu.updateIngressAdmission r.port r.qIndex r.size, r :: b.resident⟩ := by
  have hC : Lossless nPort b (.offer r) := ⟨hr, fun _ => hfit⟩
  obtain ⟨hport, hq⟩ := mem_lossless.1 hr
  refine ⟨.single hC ?_, h.bounded.offer hn hadm hC⟩
  rw [Buffer.step, if_pos ⟨by omega, hq.2⟩, if_pos hadm]

private theorem toNat_setAt {t : ℕ → ℕ → UInt32} {v : UInt32} {p q : ℕ}
    (ht : ∀ x : ℕ × ℕ, (t x.1 x.2).toNat = f x) (hv : v.toNat = s) (x : ℕ × ℕ) :
    (setAt t p q v x.1 x.2).toNat = Function.update f (p, q) s x := by
  by_cases hx : x = (p, q)
  · rw [hx, Function.update_self, setAt_self, hv]
  · rw [Function.update_of_ne hx, setAt_of_ne _ fun h => hx (Prod.ext h.1 h.2), ht]

/-- A packet within the threshold raises `ingress_bytes` of its queue. -/
theorem offer_ingress (h : At c nPort f g b) (hn : nPort < pCnt) (hx : x ∈ lossless nPort)
    (hfit : f x + s < 2 ^ 32)
    (hthr : f x + s - c.reserve.toNat ≤ (c.sharedSize - drawn c nPort f) >>> c.aShift x)
    (hadm : g x + s ≤ (c.headroom x.1).toNat ∨
      f x - c.reserve.toNat + s ≤ (c.sharedSize - drawn c nPort f) >>> c.aShift x) :
    ∃ b', Run.Reach Buffer.step (Lossless nPort) b b' ∧
      At c nPort (Function.update f x (f x + s)) g b' := by
  obtain ⟨p, q⟩ := x
  have hs : (UInt32.ofNat s).toNat = s :=
    UInt32.toNat_ofNat_of_lt' (show s < 2 ^ 32 by omega)
  obtain ⟨hing, hhdrm, hrsv, hroom⟩ := h.counters p q
  have hpfc : (b.mmu.getPfcThreshold p).toNat =
    (c.sharedSize - drawn c nPort f) >>> c.aShift (p, q) := h.threshold hn (p, q)
  simp only at hadm
  have hadd : (b.mmu.ingressBytes p q + UInt32.ofNat s).toNat = f (p, q) + s := by
    rw [UInt32.toNat_add, hs, hing, Nat.mod_eq_of_lt hfit]
  have hcheck : b.mmu.checkIngressAdmission p q (UInt32.ofNat s) = true := by
    have hlt := (b.mmu.getPfcThreshold p).toNat_lt
    have hlt' := (b.mmu.headroom p).toNat_lt
    rw [SwitchMmu.checkIngressAdmission_eq_true_iff, UInt32.le_iff_toNat_le,
      UInt32.le_iff_toNat_le, UInt32.toNat_add, UInt32.toNat_add, hs,
      SwitchMmu.toNat_getSharedUsed, SwitchMmu.excess]
    omega
  have hnot : ¬ b.mmu.ChargedToHdrm p q (UInt32.ofNat s) := by
    rintro ⟨h₁, h₂⟩
    rw [UInt32.lt_iff_toNat_lt] at h₁ h₂
    rw [UInt32.toNat_sub_of_le _ _ (UInt32.le_iff_toNat_le.2 (Nat.le_of_lt h₁)), hadd] at h₂
    omega
  have hfits : b.mmu.Fits p q (UInt32.ofNat s) := by
    rw [SwitchMmu.Fits, if_neg hnot, hs, hing]
    exact hfit
  obtain ⟨hreach, hbounded⟩ := reach_offer h hn (r := ⟨p, q, UInt32.ofNat s⟩) hx hcheck hfits
  refine ⟨_, hreach, hbounded, ?_, ?_⟩
  all_goals
    rcases SwitchMmu.updateIngressAdmission_cases hfits with ⟨hc, -, -⟩ | ⟨inc, -, -, -, heq⟩
    · exact absurd hc hnot
    · simp only [heq]
      first
        | exact toNat_setAt h.ingress hadd
        | exact h.hdrm

/-- A packet beyond the threshold raises `hdrm_bytes` of its queue. -/
theorem offer_hdrm (h : At c nPort f g b) (hn : nPort < pCnt) (hx : x ∈ lossless nPort)
    (hfit : f x + s < 2 ^ 32)
    (hthr : (c.sharedSize - drawn c nPort f) >>> c.aShift x < f x + s - c.reserve.toNat)
    (hadm : g x + s ≤ (c.headroom x.1).toNat) :
    ∃ b', Run.Reach Buffer.step (Lossless nPort) b b' ∧
      At c nPort f (Function.update g x (g x + s)) b' := by
  obtain ⟨p, q⟩ := x
  have hs : (UInt32.ofNat s).toNat = s :=
    UInt32.toNat_ofNat_of_lt' (show s < 2 ^ 32 by omega)
  obtain ⟨hing, hhdrm, hrsv, hroom⟩ := h.counters p q
  have hpfc : (b.mmu.getPfcThreshold p).toNat =
    (c.sharedSize - drawn c nPort f) >>> c.aShift (p, q) := h.threshold hn (p, q)
  simp only at hadm
  have hlt := (b.mmu.headroom p).toNat_lt
  have hadd : (b.mmu.ingressBytes p q + UInt32.ofNat s).toNat = f (p, q) + s := by
    rw [UInt32.toNat_add, hs, hing, Nat.mod_eq_of_lt hfit]
  have hadd' : (b.mmu.hdrmBytes p q + UInt32.ofNat s).toNat = g (p, q) + s := by
    rw [UInt32.toNat_add, hs, hhdrm, Nat.mod_eq_of_lt (by omega)]
  have hcheck : b.mmu.checkIngressAdmission p q (UInt32.ofNat s) = true := by
    rw [SwitchMmu.checkIngressAdmission_eq_true_iff, UInt32.le_iff_toNat_le, UInt32.add_comm,
      hadd', hroom]
    exact .inl hadm
  have hc : b.mmu.ChargedToHdrm p q (UInt32.ofNat s) := by
    have hle : b.mmu.reserve < b.mmu.ingressBytes p q + UInt32.ofNat s := by
      rw [UInt32.lt_iff_toNat_lt, hadd]
      omega
    refine ⟨hle, ?_⟩
    rw [UInt32.lt_iff_toNat_lt] at hle ⊢
    rw [UInt32.toNat_sub_of_le _ _ (UInt32.le_iff_toNat_le.2 (Nat.le_of_lt hle)), hadd]
    omega
  have hfits : b.mmu.Fits p q (UInt32.ofNat s) := by
    rw [SwitchMmu.Fits, if_pos hc, hs]
    omega
  obtain ⟨hreach, hbounded⟩ := reach_offer h hn (r := ⟨p, q, UInt32.ofNat s⟩) hx hcheck hfits
  have heq : b.mmu.updateIngressAdmission p q (UInt32.ofNat s) = { b.mmu with
      hdrmBytes := setAt b.mmu.hdrmBytes p q (b.mmu.hdrmBytes p q + UInt32.ofNat s) } :=
    SwitchMmu.updateIngressAdmission_of_chargedToHdrm hc
  refine ⟨_, hreach, hbounded, ?_, ?_⟩
  · simp only [heq]
    exact h.ingress
  · simp only [heq]
    exact toNat_setAt h.hdrm hadd'

/-- Packets of one byte fill the reserve of a usable queue. -/
private theorem fill_reserve (h : At c nPort f g b) (hn : nPort < pCnt) (hx : x ∈ lossless nPort)
    (hu : c.Usable x.1) (hf : ∀ y, f y ≤ c.reserve.toNat) (hfx : f x = 0) (hgx : g x = 0)
    {k : ℕ} (hk : k ≤ c.reserve.toNat) :
    ∃ b', Run.Reach Buffer.step (Lossless nPort) b b' ∧
      At c nPort (Function.update f x k) g b' := by
  induction k with
  | zero => exact ⟨b, .refl b, by rwa [← hfx, Function.update_eq_self]⟩
  | succ k ih =>
    obtain ⟨b₁, hreach, h₁⟩ := ih (by omega)
    have hle : ∀ y, Function.update f x k y ≤ c.reserve.toNat := by
      intro y
      by_cases hy : y = x
      · rw [hy, Function.update_self]
        omega
      · rw [Function.update_of_ne hy]
        exact hf y
    have hdrawn : drawn c nPort (Function.update f x k) = 0 := by
      refine List.sum_eq_zero fun n hmem => ?_
      obtain ⟨y, -, rfl⟩ := List.mem_map.1 hmem
      exact Nat.sub_eq_zero_of_le (hle y)
    have hlt := c.reserve.toNat_lt
    obtain ⟨b₂, hreach', h₂⟩ := h₁.offer_ingress (s := 1) hn hx
      (by rw [Function.update_self]; omega)
      (by rw [Function.update_self, Nat.sub_eq_zero_of_le (by omega)]; exact Nat.zero_le _)
      (by
        rw [hdrawn, Function.update_self, hgx]
        rcases hu with hu | hu
        · exact .inl (by omega)
        · rw [Nat.sub_zero, Nat.sub_eq_zero_of_le (by omega)]
          exact .inr hu)
    rw [Function.update_self, Function.update_idem] at h₂
    exact ⟨b₂, hreach.trans hreach', h₂⟩

/-- First the reserves of all usable queues are filled. -/
theorem fill_reserves (hn : nPort < pCnt) {l : List (ℕ × ℕ)}
    (hl : ∀ y ∈ l, y ∈ lossless nPort) (hnd : l.Nodup) (h : At c nPort f (fun _ => 0) b)
    (hf : ∀ y, f y ≤ c.reserve.toNat) (hfl : ∀ y ∈ l, f y = 0) :
    ∃ b', Run.Reach Buffer.step (Lossless nPort) b b' ∧
      At c nPort (fun y => if y ∈ l then c.usableReserve y else f y) (fun _ => 0) b' := by
  induction l generalizing f b with
  | nil => exact ⟨b, .refl b, by simpa using h⟩
  | cons x l ih =>
    obtain ⟨hx, hnd⟩ := List.nodup_cons.1 hnd
    have hfx := hfl x List.mem_cons_self
    have hmem := hl x List.mem_cons_self
    obtain ⟨b₁, hreach, h₁⟩ : ∃ b', Run.Reach Buffer.step (Lossless nPort) b b' ∧
        At c nPort (Function.update f x (c.usableReserve x)) (fun _ => 0) b' := by
      by_cases hu : c.Usable x.1
      · rw [MmuConfig.usableReserve, if_pos hu]
        exact h.fill_reserve hn hmem hu hf hfx rfl le_rfl
      · have hsame : Function.update f x (c.usableReserve x) = f := by
          rw [MmuConfig.usableReserve, if_neg hu, ← hfx, Function.update_eq_self]
        rw [hsame]
        exact ⟨b, .refl b, h⟩
    have hle : ∀ y, Function.update f x (c.usableReserve x) y ≤ c.reserve.toNat := by
      intro y
      by_cases hy : y = x
      · rw [hy, Function.update_self]
        exact usableReserve_le x
      · rw [Function.update_of_ne hy]
        exact hf y
    obtain ⟨b₂, hreach', h₂⟩ := ih (fun y hy => hl y (List.mem_cons_of_mem _ hy)) hnd h₁ hle
      (fun y hy => by
        rw [Function.update_of_ne (by rintro rfl; exact hx hy)]
        exact hfl y (List.mem_cons_of_mem _ hy))
    refine ⟨b₂, hreach.trans hreach', ?_⟩
    convert h₂ using 2 with y
    by_cases hyx : y = x
    · subst hyx
      simp [hx]
    · simp [hyx]

/-- Then the queues of `l` grow in turn, each by one packet that takes it to its threshold. -/
theorem fill_pool (hn : nPort < pCnt) {l : List (ℕ × ℕ)} {T : ℕ}
    (hl : ∀ y ∈ l, y ∈ lossless nPort) (hnd : l.Nodup) (h : At c nPort f (fun _ => 0) b)
    (hT : drawn c nPort f + T = c.sharedSize) (hfl : ∀ y ∈ l, f y = c.usableReserve y)
    (hsum : ∀ x ∈ lossless nPort,
      c.reserve.toNat + c.sharedSize + (c.headroom x.1).toNat < 2 ^ 32) :
    ∃ f' b', Run.Reach Buffer.step (Lossless nPort) b b' ∧ At c nPort f' (fun _ => 0) b' ∧
      (∀ y, f' y = if y ∈ l then c.usableReserve y + SharedPool.fill c.aShift T l y else f y) ∧
      drawn c nPort f' + SharedPool.leftover c.aShift T l = c.sharedSize := by
  induction l generalizing f b T with
  | nil => exact ⟨f, b, .refl b, h, by simp, hT⟩
  | cons x l ih =>
    obtain ⟨hx, hnd⟩ := List.nodup_cons.1 hnd
    have hfx := hfl x List.mem_cons_self
    have hmem := hl x List.mem_cons_self
    have hle := Nat.shiftRight_le T (c.aShift x)
    have hfree : c.sharedSize - drawn c nPort f = T := by omega
    obtain ⟨s, hs⟩ : ∃ s, T >>> c.aShift x = s := ⟨_, rfl⟩
    have hdrawn := drawn_update (c := c) (f := f) hmem (f x + s)
    obtain ⟨b₁, hreach, h₁, hT₁⟩ : ∃ b', Run.Reach Buffer.step (Lossless nPort) b b' ∧
        At c nPort (Function.update f x (f x + s)) (fun _ => 0) b' ∧
        drawn c nPort (Function.update f x (f x + s)) + (T - s) = c.sharedSize := by
      rcases Nat.eq_zero_or_pos s with rfl | hpos
      · rw [Nat.add_zero, Function.update_eq_self, Nat.sub_zero]
        exact ⟨b, .refl b, h, hT⟩
      · have hu : c.Usable x.1 :=
          .inr ((hs ▸ hpos).trans_le (SharedPool.shiftRight_mono (by omega) (c.aShift x)))
        rw [MmuConfig.usableReserve, if_pos hu] at hfx
        rw [hs] at hle
        have := hsum x hmem
        obtain ⟨b₁, hreach, h₁⟩ := h.offer_ingress (s := s) hn hmem (by omega)
          (by rw [hfree, hs]; omega) (.inr (by rw [hfree, hs]; omega))
        exact ⟨b₁, hreach, h₁, by omega⟩
    rw [← hs] at h₁ hT₁
    obtain ⟨f', b₂, hreach', h₂, hf', hT₂⟩ :=
      ih (fun y hy => hl y (List.mem_cons_of_mem _ hy)) hnd h₁ hT₁
        (fun y hy => by
          rw [Function.update_of_ne (by rintro rfl; exact hx hy)]
          exact hfl y (List.mem_cons_of_mem _ hy))
    refine ⟨f', b₂, hreach.trans hreach', h₂, fun y => ?_, hT₂⟩
    rw [hf' y]
    by_cases hyx : y = x
    · subst hyx
      simp [hx, SharedPool.fill, hfx]
    · simp [hyx, SharedPool.fill]

/-- In the end every queue takes one packet into its headroom. -/
private theorem fill_hdrm (hn : nPort < pCnt) {l : List (ℕ × ℕ)}
    (hl : ∀ y ∈ l, y ∈ lossless nPort) (hnd : l.Nodup) (h : At c nPort f g b)
    (hg : ∀ y ∈ l, g y = 0)
    (hf : ∀ y ∈ l, 0 < (c.headroom y.1).toNat → f y + (c.headroom y.1).toNat < 2 ^ 32 ∧
      (c.sharedSize - drawn c nPort f) >>> c.aShift y <
        f y + (c.headroom y.1).toNat - c.reserve.toNat) :
    ∃ b', Run.Reach Buffer.step (Lossless nPort) b b' ∧
      At c nPort f (fun y => if y ∈ l then (c.headroom y.1).toNat else g y) b' := by
  induction l generalizing g b with
  | nil => exact ⟨b, .refl b, by simpa using h⟩
  | cons x l ih =>
    obtain ⟨hx, hnd⟩ := List.nodup_cons.1 hnd
    have hgx := hg x List.mem_cons_self
    obtain ⟨b₁, hreach, h₁⟩ : ∃ b', Run.Reach Buffer.step (Lossless nPort) b b' ∧
        At c nPort f (Function.update g x (c.headroom x.1).toNat) b' := by
      rcases Nat.eq_zero_or_pos (c.headroom x.1).toNat with hz | hpos
      · rw [hz, ← hgx, Function.update_eq_self]
        exact ⟨b, .refl b, h⟩
      · obtain ⟨hfit, hthr⟩ := hf x List.mem_cons_self hpos
        obtain ⟨b₁, hreach, h₁⟩ := h.offer_hdrm hn (hl x List.mem_cons_self) hfit hthr (by omega)
        rw [hgx, Nat.zero_add] at h₁
        exact ⟨b₁, hreach, h₁⟩
    obtain ⟨b₂, hreach', h₂⟩ := ih (fun y hy => hl y (List.mem_cons_of_mem _ hy)) hnd h₁
      (fun y hy => by
        rw [Function.update_of_ne (by rintro rfl; exact hx hy)]
        exact hg y (List.mem_cons_of_mem _ hy))
      (fun y hy => hf y (List.mem_cons_of_mem _ hy))
    refine ⟨b₂, hreach.trans hreach', ?_⟩
    convert h₂ using 2 with y
    by_cases hyx : y = x
    · subst hyx
      simp [hx]
    · simp [hyx]

end At

/-- **The worst case occurs.** Filling the reserves, then the pool in the order `l`, then the
headrooms, a run without overflow commits the worst case of that order. -/
theorem exists_committed_eq_worstCase (hn : nPort < pCnt)
    (h : c.totalHdrm.toNat + c.totalRsrv.toNat ≤ c.bufferSize.toNat)
    (hsum : ∀ x ∈ lossless nPort,
      c.reserve.toNat + c.sharedSize + (c.headroom x.1).toNat < 2 ^ 32)
    {l : List (ℕ × ℕ)} (hl : l.Perm (lossless nPort)) :
    ∃ b, Run.Reach step (Lossless nPort) (init c) b ∧ b.committed = c.worstCase nPort l := by
  have h₀ : At c nPort (fun _ => 0) (fun _ => 0) (init c) :=
    ⟨bounded_init h, fun _ => rfl, fun _ => rfl⟩
  obtain ⟨b₁, hreach₁, h₁⟩ := h₀.fill_reserves hn (fun _ hy => hy) (nodup_lossless nPort)
    (fun _ => Nat.zero_le _) (fun _ _ => rfl)
  have hnd := hl.nodup_iff.2 (nodup_lossless nPort)
  obtain ⟨f, b₂, hreach₂, h₂, hf, hfree⟩ := h₁.fill_pool (T := c.sharedSize) hn
    (fun _ hy => hl.mem_iff.1 hy) hnd (by rw [drawn_reserves, Nat.zero_add])
    (fun _ hy => if_pos (hl.mem_iff.1 hy)) hsum
  have hf' : ∀ y ∈ lossless nPort,
      f y = c.usableReserve y + SharedPool.fill c.aShift c.sharedSize l y := fun y hy => by
    rw [hf, if_pos (hl.mem_iff.2 hy)]
  obtain ⟨b₃, hreach₃, h₃⟩ := h₂.fill_hdrm hn (fun _ hy => hy) (nodup_lossless nPort)
    (fun _ _ => rfl) (fun y hy hpos => by
      have hfill := SharedPool.fill_le (a := c.aShift) (T := c.sharedSize) (l := l) y
      have hlast := SharedPool.leftover_shiftRight_le_fill (a := c.aShift) (T := c.sharedSize)
        (hl.mem_iff.2 hy)
      have hrsv : c.usableReserve y ≤ c.reserve.toNat := usableReserve_le y
      have hbig := hsum y hy
      refine ⟨by rw [hf' y hy]; omega, ?_⟩
      rw [← hfree, Nat.add_sub_cancel_left, hf' y hy, MmuConfig.usableReserve,
        if_pos (.inl hpos)]
      exact lt_of_le_of_lt hlast (by omega))
  refine ⟨b₃, (hreach₁.trans hreach₂).trans hreach₃, ?_⟩
  have hpool := SharedPool.leftover_add_sum_fill (a := c.aShift) (T := c.sharedSize) hnd
  rw [(hl.map _).sum_eq] at hpool
  have hqueue : ∀ x ∈ lossless nPort,
      (b₃.mmu.ingressBytes x.1 x.2).toNat + (b₃.mmu.hdrmBytes x.1 x.2).toNat =
        c.ownShare x + SharedPool.fill c.aShift c.sharedSize l x := by
    intro x hx
    rw [h₃.ingress x, h₃.hdrm x, if_pos hx, hf' x hx, MmuConfig.ownShare]
    omega
  calc b₃.committed
      = ((lossless nPort).map fun x =>
          (b₃.mmu.ingressBytes x.1 x.2).toNat + (b₃.mmu.hdrmBytes x.1 x.2).toNat).sum :=
        sum_queues hn (.refl _) fun x hx => h₃.bounded.eq_zero hx
    _ = ((lossless nPort).map fun x =>
          c.ownShare x + SharedPool.fill c.aShift c.sharedSize l x).sum := by
        rw [List.map_congr_left hqueue]
    _ = ((lossless nPort).map c.ownShare).sum +
          ((lossless nPort).map (SharedPool.fill c.aShift c.sharedSize l)).sum :=
        List.sum_map_add
    _ = c.worstCase nPort l := by
        rw [MmuConfig.worstCase]
        omega

end Tight

/-! ### The buffer size -/

/-- What all queues together hold fits in the buffer. -/
def Committable (b : Buffer) : Prop := b.committed ≤ b.mmu.bufferSize.toNat

/-- **When the buffer is never overcommitted.** If the worst case of every order fits in the
buffer, then so does what any run without overflow commits; and the converse holds as long as the
sums of `ConfigNPort` do not wrap. -/
theorem committable_iff_worstCase_le {c₀ : MmuConfig} {nPort : ℕ} (hn : nPort < pCnt)
    (h : (c₀.configNPort nPort).totalHdrm.toNat + (c₀.configNPort nPort).totalRsrv.toNat ≤
      (c₀.configNPort nPort).bufferSize.toNat) :
    ((∀ l, l.Perm (lossless nPort) →
        (c₀.configNPort nPort).worstCase nPort l ≤ (c₀.configNPort nPort).bufferSize.toNat) →
      ∀ ops, Run.Along step (Lossless nPort) (init (c₀.configNPort nPort)) ops →
        Run.Always step Committable (init (c₀.configNPort nPort)) ops) ∧
    (c₀.TotalsExact nPort →
      (∀ ops, Run.Along step (Lossless nPort) (init (c₀.configNPort nPort)) ops →
        Run.Always step Committable (init (c₀.configNPort nPort)) ops) →
      ∀ l, l.Perm (lossless nPort) →
        (c₀.configNPort nPort).worstCase nPort l ≤ (c₀.configNPort nPort).bufferSize.toNat) := by
  constructor
  · intro hworst ops hops
    refine Run.always_of_invariant (I := Bounded (c₀.configNPort nPort) nPort)
      (fun _ _ _ hb hC hstep => hb.step hn hC hstep) (fun b hb => ?_) (bounded_init h) hops
    obtain ⟨l, hl, hle⟩ := hb.committed_le hn
    rw [Committable, hb.config]
    exact hle.trans (hworst l hl)
  · intro htot hruns l hl
    obtain ⟨b, ⟨ops, hops, hexec⟩, heq⟩ :=
      exists_committed_eq_worstCase hn h (htot.reserve_add_sharedSize_lt h) hl
    have hlast := (hruns ops hops).last hexec
    rwa [Committable, heq, (Bounded.of_exec hn h hops hexec).config] at hlast

/-- A switch with two ports and the default configuration. -/
theorem committable_iff_worstCase_le_default :
    ((∀ l, l.Perm (lossless 2) →
        (MmuConfig.default.configNPort 2).worstCase 2 l ≤ 12582912) →
      ∀ ops, Run.Along step (Lossless 2) (init (MmuConfig.default.configNPort 2)) ops →
        Run.Always step Committable (init (MmuConfig.default.configNPort 2)) ops) ∧
    (MmuConfig.default.TotalsExact 2 →
      (∀ ops, Run.Along step (Lossless 2) (init (MmuConfig.default.configNPort 2)) ops →
        Run.Always step Committable (init (MmuConfig.default.configNPort 2)) ops) →
      ∀ l, l.Perm (lossless 2) →
        (MmuConfig.default.configNPort 2).worstCase 2 l ≤ 12582912) :=
  committable_iff_worstCase_le (by decide) (by decide)

/-- One port whose headroom and reserve make up the whole buffer: two classes with three packets
each hold more than the buffer. -/
theorem smallBuffer_overcommitted :
    let c := ((MmuConfig.default.configHdrm 1 1000).configBufferSize 5096).configNPort 1
    let ops : List Op :=
      [.offer ⟨1, 1, 1000⟩, .offer ⟨1, 1, 1000⟩, .offer ⟨1, 1, 1000⟩,
        .offer ⟨1, 2, 1000⟩, .offer ⟨1, 2, 1000⟩, .offer ⟨1, 2, 1000⟩]
    c.totalHdrm.toNat + c.totalRsrv.toNat ≤ c.bufferSize.toNat ∧
      Run.Along step (Lossless 1) (init c) ops ∧ ¬ Run.Always step Committable (init c) ops := by
  intro c ops
  refine ⟨by decide, by decide +kernel, fun h => ?_⟩
  have hlast : (Run.exec step (init c) ops).map (fun b =>
      decide ((b.mmu.ingressBytes 1 1).toNat = 3000 ∧ (b.mmu.ingressBytes 1 2).toNat = 3000 ∧
        b.mmu.bufferSize.toNat = 5096)) = some true := by
    decide +kernel
  obtain ⟨b, hb, hval⟩ := Option.map_eq_some_iff.1 hlast
  obtain ⟨h₁, h₂, hsize⟩ := of_decide_eq_true hval
  have hle : b.committed ≤ b.mmu.bufferSize.toNat := h.last hb
  have hsub : ∑ x ∈ {((1 : ℕ), (1 : ℕ)), ((1 : ℕ), (2 : ℕ))},
      ((b.mmu.ingressBytes x.1 x.2).toNat + (b.mmu.hdrmBytes x.1 x.2).toNat) ≤ b.committed :=
    Finset.sum_le_sum_of_subset fun x hx => by
      rcases Finset.mem_insert.1 hx with rfl | hx
      · exact mem_queues.2 (by decide)
      · rw [Finset.mem_singleton.1 hx]
        exact mem_queues.2 (by decide)
  rw [Finset.sum_pair (by decide)] at hsub
  simp only [h₁, h₂] at hsub
  omega

end Buffer

end HpccSim
