import HpccSim.Lib.Run
import HpccSim.Lib.Tally
import HpccSim.SwitchMmu

/-!
# Packets charged to a switch buffer

The memory management unit keeps counters only; the packets they stand for are held elsewhere.
This file puts the two together: a `Buffer` is an MMU with the list of the packets charged to it.
A packet offered to the buffer is charged by `UpdateIngressAdmission` if `CheckIngressAdmission`
admits it and ignored otherwise; a resident packet may be released, by
`RemoveFromIngressAdmission`. Every run of the switch drives the ingress counters through such a
sequence of operations.

## Main definitions

* `Buffer`, `Buffer.Op`, `Buffer.step`.
* `Buffer.NoOverflow`: charging the packet keeps the counters of its queue below `2 ^ 32`.
* `Buffer.Exact`: the counters say exactly what is resident, and no subtraction wraps.

## Main results

* `Buffer.exact_of_run`: the accounting is exact throughout every run without overflow.
-/

namespace HpccSim

/-- A packet as the ingress side of the MMU sees it: its input port, class and size. -/
structure Charged where
  port : ℕ
  qIndex : ℕ
  size : UInt32
  deriving DecidableEq

/-- The MMU together with the packets charged to it. -/
structure Buffer where
  mmu : SwitchMmu
  resident : List Charged

/-- The queues with ports below `n` and classes below `k`. -/
@[irreducible] def queues (n k : ℕ) : Finset (ℕ × ℕ) := Finset.range n ×ˢ Finset.range k

@[simp] theorem mem_queues {n k : ℕ} {x : ℕ × ℕ} : x ∈ queues n k ↔ x.1 < n ∧ x.2 < k := by
  simp [queues]

/-- The bytes a list of packets charges to one queue. -/
def residentBytes (l : List Charged) (p q : ℕ) : ℕ :=
  tally (fun r => r.size.toNat) (fun r : Charged => p = r.port ∧ q = r.qIndex) l

theorem residentBytes_cons (r : Charged) (l : List Charged) (p q : ℕ) :
    residentBytes (r :: l) p q =
      (if p = r.port ∧ q = r.qIndex then r.size.toNat else 0) + residentBytes l p q := by
  simp only [residentBytes, tally_cons, decide_eq_true_eq]

theorem residentBytes_erase {r : Charged} {l : List Charged} (hr : r ∈ l) (p q : ℕ) :
    residentBytes (l.erase r) p q + (if p = r.port ∧ q = r.qIndex then r.size.toNat else 0) =
      residentBytes l p q := by
  rw [residentBytes, residentBytes, ← tally_erase_add hr]
  simp only [decide_eq_true_eq]

/-- A packet of the list is part of what is charged to its queue. -/
theorem size_le_residentBytes {r : Charged} {l : List Charged} (hr : r ∈ l) :
    r.size.toNat ≤ residentBytes l r.port r.qIndex :=
  le_tally_of_mem (w := fun r : Charged => r.size.toNat) hr (by simp)

namespace Buffer

/-- What may happen to a buffer. -/
inductive Op where
  | offer (p : Charged)
  | release (p : Charged)

/-- One operation. Indices beyond the arrays of the MMU are not offered, and only resident
packets are released. -/
def step (b : Buffer) : Op → Option Buffer
  | .offer p =>
    if p.port < pCnt ∧ p.qIndex < qCnt then
      if b.mmu.checkIngressAdmission p.port p.qIndex p.size then
        some ⟨b.mmu.updateIngressAdmission p.port p.qIndex p.size, p :: b.resident⟩
      else
        some b
    else
      none
  | .release p =>
    if p ∈ b.resident then
      some ⟨b.mmu.removeFromIngressAdmission p.port p.qIndex p.size, b.resident.erase p⟩
    else
      none

/-- The zeroed MMU of a configuration, with nothing charged to it. -/
def init (c : MmuConfig) : Buffer := ⟨c.init, []⟩

/-- If the operation admits a packet, the counter the packet is charged to does not overflow. -/
def NoOverflow (b : Buffer) : Op → Prop
  | .offer p => b.mmu.checkIngressAdmission p.port p.qIndex p.size = true →
      b.mmu.Fits p.port p.qIndex p.size
  | .release _ => True

/-- No subtraction of `RemoveFromIngressAdmission` wraps when it releases the packet `r`. -/
def ReleaseSafe (m : SwitchMmu) (r : Charged) : Prop :=
  m.fromHdrm r.port r.qIndex r.size ≤ r.size ∧
  m.fromHdrm r.port r.qIndex r.size ≤ m.hdrmBytes r.port r.qIndex ∧
  r.size - m.fromHdrm r.port r.qIndex r.size ≤ m.ingressBytes r.port r.qIndex ∧
  m.fromShared r.port r.qIndex r.size ≤ m.sharedUsedBytes

/-- **Exact accounting.** The counters of every queue add up to what is resident in it, the
headroom of no port is exceeded, the shared counter is the sum of what the queues hold beyond
their reserves, no release of a resident packet wraps, and neither does the threshold. -/
structure Exact (b : Buffer) : Prop where
  bytes : ∀ p q, (b.mmu.ingressBytes p q).toNat + (b.mmu.hdrmBytes p q).toNat =
    residentBytes b.resident p q
  hdrm : ∀ p q, b.mmu.hdrmBytes p q ≤ b.mmu.headroom p
  shared : b.mmu.sharedUsedBytes.toNat = ∑ x ∈ queues pCnt qCnt, b.mmu.excess x.1 x.2
  release : ∀ r ∈ b.resident, ReleaseSafe b.mmu r
  pool : b.mmu.sharedUsedBytes.toNat + b.mmu.totalHdrm.toNat + b.mmu.totalRsrv.toNat ≤
    b.mmu.bufferSize.toNat

/-- What the steps preserve: exact accounting, with the subtractions left to `release_safe`. -/
structure Inv (b : Buffer) : Prop where
  bytes : ∀ p q, (b.mmu.ingressBytes p q).toNat + (b.mmu.hdrmBytes p q).toNat =
    residentBytes b.resident p q
  hdrm : ∀ p q, (b.mmu.hdrmBytes p q).toNat ≤ (b.mmu.headroom p).toNat
  shared : b.mmu.sharedUsedBytes.toNat = ∑ x ∈ queues pCnt qCnt, b.mmu.excess x.1 x.2
  mem : ∀ r ∈ b.resident, r.port < pCnt ∧ r.qIndex < qCnt
  sound : b.mmu.Sound

variable {b : Buffer}

theorem inv_init {c : MmuConfig} (h : c.totalHdrm.toNat + c.totalRsrv.toNat ≤ c.bufferSize.toNat) :
    (init c).Inv where
  bytes p q := by simp [init, MmuConfig.init, residentBytes]
  hdrm p q := by simp [init, MmuConfig.init]
  shared := by simp [init, MmuConfig.init, SwitchMmu.excess]
  mem r hr := by simp [init] at hr
  sound := by simpa [SwitchMmu.Sound, init, MmuConfig.init] using h

/-! ### One step -/

section Step

variable {r : Charged}

/-- A resident packet is covered by the counters of its queue. -/
theorem Inv.size_le (h : b.Inv) (hr : r ∈ b.resident) :
    r.size.toNat ≤ (b.mmu.ingressBytes r.port r.qIndex).toNat +
      (b.mmu.hdrmBytes r.port r.qIndex).toNat := by
  rw [h.bytes]
  exact size_le_residentBytes hr

/-- The pool covers what any one queue holds beyond its reserve. -/
theorem Inv.excess_le (h : b.Inv) {p q : ℕ} (hpq : p < pCnt ∧ q < qCnt) :
    b.mmu.excess p q ≤ b.mmu.sharedUsedBytes.toNat := by
  rw [h.shared]
  exact Finset.single_le_sum (f := fun x : ℕ × ℕ => b.mmu.excess x.1 x.2)
    (fun _ _ => Nat.zero_le _) (a := (p, q)) (mem_queues.2 hpq)

/-- The excesses of two states that differ in one queue. -/
theorem sum_excess_add (m m' : SwitchMmu) {port qIndex : ℕ} (hq : port < pCnt ∧ qIndex < qCnt)
    (hoff : ∀ p q, ¬ (p = port ∧ q = qIndex) → m'.excess p q = m.excess p q) :
    ∑ x ∈ queues pCnt qCnt, m'.excess x.1 x.2 + m.excess port qIndex =
      ∑ x ∈ queues pCnt qCnt, m.excess x.1 x.2 + m'.excess port qIndex :=
  sum_add_of_eq_off (i := (port, qIndex)) (f := fun x => m'.excess x.1 x.2)
    (g := fun x => m.excess x.1 x.2) (mem_queues.2 hq)
    fun x _ hne => hoff x.1 x.2 fun h => hne (Prod.ext h.1 h.2)

theorem Inv.mem_cons (h : b.Inv) (hq : r.port < pCnt ∧ r.qIndex < qCnt) :
    ∀ r' ∈ r :: b.resident, r'.port < pCnt ∧ r'.qIndex < qCnt := by
  intro r' hr'
  rcases List.mem_cons.1 hr' with rfl | hr'
  · exact hq
  · exact h.mem r' hr'

/-- A packet is charged to the headroom. -/
theorem Inv.chargeHdrm (h : b.Inv) (hq : r.port < pCnt ∧ r.qIndex < qCnt)
    (hfit : (b.mmu.hdrmBytes r.port r.qIndex).toNat + r.size.toNat < 2 ^ 32)
    (hroom : (b.mmu.hdrmBytes r.port r.qIndex).toNat + r.size.toNat ≤
      (b.mmu.headroom r.port).toNat) :
    Inv ⟨{ b.mmu with
      hdrmBytes := setAt b.mmu.hdrmBytes r.port r.qIndex
        (b.mmu.hdrmBytes r.port r.qIndex + r.size) }, r :: b.resident⟩ := by
  refine ⟨fun p q => ?_, fun p q => ?_, h.shared, h.mem_cons hq, h.sound⟩
  · rw [residentBytes_cons, ← h.bytes p q]
    by_cases hpq : p = r.port ∧ q = r.qIndex
    · obtain ⟨rfl, rfl⟩ := hpq
      simp only [setAt_self, UInt32.toNat_add, and_self, if_true]
      omega
    · simp [setAt_of_ne _ hpq, hpq]
  · by_cases hpq : p = r.port ∧ q = r.qIndex
    · obtain ⟨rfl, rfl⟩ := hpq
      simp only [setAt_self, UInt32.toNat_add]
      omega
    · simpa [setAt_of_ne _ hpq] using h.hdrm p q

/-- A packet is charged to the reserve and the pool, which takes `inc` bytes. -/
theorem Inv.chargeIngress (h : b.Inv) (hq : r.port < pCnt ∧ r.qIndex < qCnt) {inc : UInt32}
    (hinc : inc.toNat = (b.mmu.ingressBytes r.port r.qIndex).toNat + r.size.toNat -
      b.mmu.reserve.toNat - b.mmu.excess r.port r.qIndex)
    (hfit : (b.mmu.ingressBytes r.port r.qIndex).toNat + r.size.toNat < 2 ^ 32)
    (hle : (b.mmu.ingressBytes r.port r.qIndex).toNat + r.size.toNat - b.mmu.reserve.toNat ≤
      (b.mmu.getPfcThreshold r.port).toNat) :
    Inv ⟨{ b.mmu with
      ingressBytes :=
        setAt b.mmu.ingressBytes r.port r.qIndex (b.mmu.ingressBytes r.port r.qIndex + r.size)
      sharedUsedBytes := b.mmu.sharedUsedBytes + inc }, r :: b.resident⟩ := by
  have hthr := h.sound.toNat_getPfcThreshold r.port
  have hexc := b.mmu.excess_le_ingressBytes r.port r.qIndex
  have hpool : b.mmu.sharedUsedBytes.toNat + inc.toNat ≤ b.mmu.sharedSize := by
    have := Nat.shiftRight_le (b.mmu.sharedSize - b.mmu.sharedUsedBytes.toNat)
      ((b.mmu.pfcAShift r.port).toNat % 32)
    have := h.sound
    simp only [SwitchMmu.Sound, MmuConfig.sharedSize] at *
    omega
  have hsize : b.mmu.sharedSize ≤ b.mmu.bufferSize.toNat := by
    simp only [MmuConfig.sharedSize]
    omega
  have hlt := b.mmu.bufferSize.toNat_lt
  have hshared : (b.mmu.sharedUsedBytes + inc).toNat =
      b.mmu.sharedUsedBytes.toNat + inc.toNat := by
    rw [UInt32.toNat_add, Nat.mod_eq_of_lt (by omega)]
  refine ⟨fun p q => ?_, h.hdrm, ?_, h.mem_cons hq, ?_⟩
  · rw [residentBytes_cons, ← h.bytes p q]
    by_cases hpq : p = r.port ∧ q = r.qIndex
    · obtain ⟨rfl, rfl⟩ := hpq
      simp only [setAt_self, UInt32.toNat_add, and_self, if_true]
      omega
    · simp [setAt_of_ne _ hpq, hpq]
  · have hself : SwitchMmu.excess { b.mmu with
        ingressBytes := setAt b.mmu.ingressBytes r.port r.qIndex
          (b.mmu.ingressBytes r.port r.qIndex + r.size)
        sharedUsedBytes := b.mmu.sharedUsedBytes + inc } r.port r.qIndex =
        (b.mmu.ingressBytes r.port r.qIndex).toNat + r.size.toNat - b.mmu.reserve.toNat := by
      simp only [SwitchMmu.excess, setAt_self, UInt32.toNat_add, Nat.mod_eq_of_lt hfit]
    have hsum := sum_excess_add b.mmu
      { b.mmu with
        ingressBytes := setAt b.mmu.ingressBytes r.port r.qIndex
          (b.mmu.ingressBytes r.port r.qIndex + r.size)
        sharedUsedBytes := b.mmu.sharedUsedBytes + inc } hq
      fun p q hpq => by simp [SwitchMmu.excess, setAt_of_ne _ hpq]
    have := h.shared
    simp only [hself, hshared] at hsum ⊢
    simp only [SwitchMmu.excess] at *
    omega
  · have := h.sound
    simp only [SwitchMmu.Sound, MmuConfig.sharedSize, hshared] at *
    omega

/-- Admitting a packet keeps the accounting exact. -/
theorem Inv.offer (h : b.Inv) (hq : r.port < pCnt ∧ r.qIndex < qCnt)
    (hadm : b.mmu.checkIngressAdmission r.port r.qIndex r.size = true)
    (hfit : NoOverflow b (.offer r)) :
    Inv ⟨b.mmu.updateIngressAdmission r.port r.qIndex r.size, r :: b.resident⟩ := by
  rcases SwitchMmu.updateIngressAdmission_cases (hfit hadm) with
    ⟨hc, hh, heq⟩ | ⟨inc, hinc, hi, hle, heq⟩
  · rw [heq]
    exact h.chargeHdrm hq hh (hc.hdrmBytes_add_le hadm (hfit hadm))
  · rw [heq]
    exact h.chargeIngress hq hinc hi hle

/-- Releasing a resident packet subtracts no more than is there. -/
theorem Inv.release_safe (h : b.Inv) (hr : r ∈ b.resident) : ReleaseSafe b.mmu r := by
  have hsize := h.size_le hr
  have hpool := h.excess_le (h.mem r hr)
  have hfrom := b.mmu.toNat_fromHdrm r.port r.qIndex r.size
  have hle : b.mmu.fromHdrm r.port r.qIndex r.size ≤ r.size :=
    UInt32.le_iff_toNat_le.2 (by omega)
  refine ⟨hle, UInt32.le_iff_toNat_le.2 (by omega), UInt32.le_iff_toNat_le.2 ?_,
    UInt32.le_iff_toNat_le.2 ?_⟩
  · rw [UInt32.toNat_sub_of_le _ _ hle]
    omega
  · rw [SwitchMmu.toNat_fromShared]
    omega

/-- Releasing a resident packet keeps the accounting exact. -/
theorem Inv.release (h : b.Inv) (hr : r ∈ b.resident) :
    Inv ⟨b.mmu.removeFromIngressAdmission r.port r.qIndex r.size, b.resident.erase r⟩ := by
  obtain ⟨hle, hhdrm, hing, hshr⟩ := h.release_safe hr
  have hfrom := b.mmu.toNat_fromHdrm r.port r.qIndex r.size
  have hsub := b.mmu.toNat_hdrmBytes_sub_fromHdrm r.port r.qIndex r.size
  have hing' := UInt32.toNat_sub_of_le _ _ hing
  have hshr' := UInt32.toNat_sub_of_le _ _ hshr
  rw [UInt32.toNat_sub_of_le _ _ hle] at hing'
  have hsize := h.size_le hr
  refine ⟨fun p q => ?_, fun p q => ?_, ?_, fun r' hr' => h.mem r' (List.mem_of_mem_erase hr'), ?_⟩
  · have herase := residentBytes_erase hr p q
    have hbytes := h.bytes p q
    simp only [SwitchMmu.removeFromIngressAdmission]
    by_cases hpq : p = r.port ∧ q = r.qIndex
    · obtain ⟨rfl, rfl⟩ := hpq
      simp only [setAt_self, and_self, if_true] at herase ⊢
      omega
    · simp only [setAt_of_ne _ hpq, if_neg hpq] at herase ⊢
      omega
  · have hhdrm := h.hdrm p q
    simp only [SwitchMmu.removeFromIngressAdmission]
    by_cases hpq : p = r.port ∧ q = r.qIndex
    · obtain ⟨rfl, rfl⟩ := hpq
      simp only [setAt_self]
      omega
    · simpa only [setAt_of_ne _ hpq] using hhdrm
  · have hexc : SwitchMmu.excess (b.mmu.removeFromIngressAdmission r.port r.qIndex r.size)
          r.port r.qIndex + (b.mmu.fromShared r.port r.qIndex r.size).toNat =
        b.mmu.excess r.port r.qIndex := by
      rw [SwitchMmu.toNat_fromShared]
      simp only [SwitchMmu.excess, SwitchMmu.removeFromIngressAdmission, setAt_self]
      omega
    have hsum := sum_excess_add b.mmu
      (b.mmu.removeFromIngressAdmission r.port r.qIndex r.size) (h.mem r hr)
      fun p q hpq => by
        simp [SwitchMmu.excess, SwitchMmu.removeFromIngressAdmission, setAt_of_ne _ hpq]
    have hshared := h.shared
    simp only [SwitchMmu.removeFromIngressAdmission, hshr'] at hsum hexc ⊢
    omega
  · have hsound := h.sound
    simp only [SwitchMmu.Sound, SwitchMmu.removeFromIngressAdmission, hshr'] at hsound ⊢
    omega

end Step

/-! ### Runs -/

theorem Inv.step {b' : Buffer} (op : Op) (h : b.Inv) (hfit : NoOverflow b op)
    (hstep : b.step op = some b') : b'.Inv := by
  cases op with
  | offer r =>
    simp only [Buffer.step] at hstep
    split_ifs at hstep with hq hadm
    · cases hstep
      exact h.offer hq hadm hfit
    · cases hstep
      exact h
  | release r =>
    simp only [Buffer.step] at hstep
    split_ifs at hstep with hr
    cases hstep
    exact h.release hr

theorem Inv.exact (h : b.Inv) : b.Exact where
  bytes := h.bytes
  hdrm p q := UInt32.le_iff_toNat_le.2 (h.hdrm p q)
  shared := h.shared
  release r hr := h.release_safe hr
  pool := by
    have := h.sound
    simp only [SwitchMmu.Sound] at this
    omega

/-- **Exact accounting.** If the configured pools fit in the buffer, the counters are exact in
every state of a run in which no counter overflows. -/
theorem exact_of_run {c : MmuConfig} {ops : List Op}
    (h : c.totalHdrm.toNat + c.totalRsrv.toNat ≤ c.bufferSize.toNat)
    (hfit : Run.Along step NoOverflow (init c) ops) :
    Run.Always step Exact (init c) ops :=
  Run.always_of_invariant (fun _ op _ hb hC hstep => hb.step op hC hstep) (fun _ hb => hb.exact)
    (inv_init h) hfit

instance (b : Buffer) : (op : Op) → Decidable (NoOverflow b op)
  | .offer p =>
    inferInstanceAs (Decidable (b.mmu.checkIngressAdmission p.port p.qIndex p.size = true →
      b.mmu.Fits p.port p.qIndex p.size))
  | .release _ => .isTrue trivial

/-- A packet passing through a switch with one port. -/
theorem exact_of_run_one_packet :
    Run.Always step Exact (init (MmuConfig.default.configNPort 1))
      [.offer ⟨1, 3, 1000⟩, .release ⟨1, 3, 1000⟩] :=
  exact_of_run (by decide) (by decide +kernel)

/-- Without the bound a wrapped sum passes the admission test: with one byte in the headroom, a
packet of `2 ^ 32 - 1` bytes is admitted and resets the counter of the headroom. -/
theorem not_exact_of_overflow :
    let c := (MmuConfig.default.configHdrm 1 2).configNPort 1
    let ops : List Op := [.offer ⟨1, 3, 12578814⟩, .offer ⟨1, 3, 1⟩, .offer ⟨1, 3, 4294967295⟩]
    c.totalHdrm.toNat + c.totalRsrv.toNat ≤ c.bufferSize.toNat ∧
      ¬ Run.Always step Exact (init c) ops := by
  intro c ops
  refine ⟨by decide, fun h => ?_⟩
  have hlast : (Run.exec step (init c) ops).map (fun b => decide
      ((b.mmu.ingressBytes 1 3).toNat + (b.mmu.hdrmBytes 1 3).toNat =
        residentBytes b.resident 1 3)) = some false := by
    decide +kernel
  obtain ⟨b, hb, hne⟩ := Option.map_eq_some_iff.1 hlast
  exact of_decide_eq_false hne ((h.last hb).bytes 1 3)

end Buffer

end HpccSim
