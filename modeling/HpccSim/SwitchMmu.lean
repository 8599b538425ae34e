import Mathlib.Algebra.Ring.Nat
import Mathlib.Tactic.SplitIfs

/-!
# The memory management unit of a switch

`SwitchMmu` (`switch-mmu.h`, `switch-mmu.cc`) accounts for the bytes a switch buffers. A byte of
input port `port` and class `qIndex` is charged to the reserve of its queue, to the pool shared by
all queues, or to the headroom of its queue; `ingress_bytes` counts the first two together,
`hdrm_bytes` the third, and `shared_used_bytes` the use of the pool. The admission test, the
charging of a packet, its release and the PFC decisions are translated one by one. All counters
are `uint32_t`, so `+` and `-` on them wrap.

## Main definitions

* `MmuConfig`, `SwitchMmu`: the two halves of the class, `// config` and `// runtime`.
* `SwitchMmu.checkIngressAdmission`, `SwitchMmu.updateIngressAdmission`,
  `SwitchMmu.removeFromIngressAdmission` and their egress counterparts.
* `SwitchMmu.checkShouldPause`, `SwitchMmu.checkShouldResume`, `SwitchMmu.setPause`,
  `SwitchMmu.setResume`.
* `MmuConfig.configHdrm`, `MmuConfig.configNPort`, `MmuConfig.configBufferSize`.

## Main results

* `SwitchMmu.updateIngressAdmission_cases`: a packet is charged as a whole to the headroom, or to
  `ingress_bytes` with the pool taking what exceeds the reserve.
-/

namespace HpccSim

/-- `SwitchMmu::pCnt`, the number of port slots; port `0` is not used. -/
def pCnt : ℕ := 257

/-- `SwitchMmu::qCnt`, the number of classes. -/
def qCnt : ℕ := 8

/-- The table `f` with the entry at `(p, q)` replaced by `v`. -/
def setAt {α : Type*} (f : ℕ → ℕ → α) (p q : ℕ) (v : α) : ℕ → ℕ → α :=
  fun p' q' => if p' = p ∧ q' = q then v else f p' q'

@[simp] theorem setAt_self {α : Type*} (f : ℕ → ℕ → α) (p q : ℕ) (v : α) :
    setAt f p q v p q = v := by
  simp [setAt]

theorem setAt_of_ne {α : Type*} (f : ℕ → ℕ → α) {p q p' q' : ℕ} (h : ¬ (p' = p ∧ q' = q)) (v : α) :
    setAt f p q v p' q' = f p' q' := by
  simp [setAt, h]

/-- The configuration of `SwitchMmu`. The arrays have `pCnt` entries in the source. -/
structure MmuConfig where
  bufferSize : UInt32
  /-- A shift count of 32 or more is undefined in the source; here it is taken modulo 32. -/
  pfcAShift : ℕ → UInt32
  reserve : UInt32
  headroom : ℕ → UInt32
  resumeOffset : UInt32
  totalHdrm : UInt32
  totalRsrv : UInt32

/-- The runtime state of `SwitchMmu`, a table entry for each input port and class (`egressBytes`:
output port and class). -/
structure SwitchMmu extends MmuConfig where
  sharedUsedBytes : UInt32
  hdrmBytes : ℕ → ℕ → UInt32
  ingressBytes : ℕ → ℕ → UInt32
  paused : ℕ → ℕ → Bool
  egressBytes : ℕ → ℕ → UInt32

namespace MmuConfig

/-- The constants `SwitchMmu::SwitchMmu` sets; the fields it leaves alone are `0`. -/
def default : MmuConfig where
  bufferSize := 12 * 1024 * 1024
  pfcAShift _ := 0
  reserve := 4 * 1024
  headroom _ := 0
  resumeOffset := 3 * 1024
  totalHdrm := 0
  totalRsrv := 0

/-- `SwitchMmu::ConfigHdrm`. -/
def configHdrm (c : MmuConfig) (port : ℕ) (size : UInt32) : MmuConfig :=
  { c with headroom := fun p => if p = port then size else c.headroom p }

/-- `SwitchMmu::ConfigNPort`: the loop over the ports `1, …, nPort`. -/
def configNPort (c : MmuConfig) : ℕ → MmuConfig
  | 0 => { c with totalHdrm := 0, totalRsrv := 0 }
  | n + 1 =>
    let c' := c.configNPort n
    { c' with
      totalHdrm := c'.totalHdrm + c.headroom (n + 1)
      totalRsrv := c'.totalRsrv + c.reserve }

/-- `SwitchMmu::ConfigBufferSize`. -/
def configBufferSize (c : MmuConfig) (size : UInt32) : MmuConfig :=
  { c with bufferSize := size }

/-- The part of the buffer shared by all queues: what neither headroom nor reserve takes. -/
def sharedSize (c : MmuConfig) : ℕ :=
  c.bufferSize.toNat - c.totalHdrm.toNat - c.totalRsrv.toNat

/-- The state `SwitchMmu::SwitchMmu` starts from: every counter zero, nothing paused. -/
def init (c : MmuConfig) : SwitchMmu where
  toMmuConfig := c
  sharedUsedBytes := 0
  hdrmBytes _ _ := 0
  ingressBytes _ _ := 0
  paused _ _ := false
  egressBytes _ _ := 0

end MmuConfig

namespace SwitchMmu

variable (m : SwitchMmu) (port qIndex : ℕ) (psize : UInt32)

/-- `SwitchMmu::GetPfcThreshold`. -/
def getPfcThreshold : UInt32 :=
  (m.bufferSize - m.totalHdrm - m.totalRsrv - m.sharedUsedBytes) >>> m.pfcAShift port

/-- `SwitchMmu::GetSharedUsed`. -/
def getSharedUsed : UInt32 :=
  let used := m.ingressBytes port qIndex
  if used > m.reserve then used - m.reserve else 0

/-- `SwitchMmu::CheckIngressAdmission`. -/
def checkIngressAdmission : Bool :=
  if psize + m.hdrmBytes port qIndex > m.headroom port ∧
      psize + m.getSharedUsed port qIndex > m.getPfcThreshold port then
    false
  else
    true

/-- `SwitchMmu::CheckEgressAdmission`. -/
def checkEgressAdmission (_m : SwitchMmu) (_port _qIndex : ℕ) (_psize : UInt32) : Bool := true

/-- `SwitchMmu::UpdateIngressAdmission`. -/
def updateIngressAdmission : SwitchMmu :=
  let newBytes := m.ingressBytes port qIndex + psize
  if newBytes ≤ m.reserve then
    { m with ingressBytes := setAt m.ingressBytes port qIndex (m.ingressBytes port qIndex + psize) }
  else
    let thresh := m.getPfcThreshold port
    if newBytes - m.reserve > thresh then
      { m with hdrmBytes := setAt m.hdrmBytes port qIndex (m.hdrmBytes port qIndex + psize) }
    else
      { m with
        ingressBytes := setAt m.ingressBytes port qIndex (m.ingressBytes port qIndex + psize)
        sharedUsedBytes := m.sharedUsedBytes + min psize (newBytes - m.reserve) }

/-- `SwitchMmu::UpdateEgressAdmission`. -/
def updateEgressAdmission : SwitchMmu :=
  { m with egressBytes := setAt m.egressBytes port qIndex (m.egressBytes port qIndex + psize) }

/-- The local `from_hdrm` of `SwitchMmu::RemoveFromIngressAdmission`. -/
def fromHdrm : UInt32 := min (m.hdrmBytes port qIndex) psize

/-- The local `from_shared` of `SwitchMmu::RemoveFromIngressAdmission`. -/
def fromShared : UInt32 :=
  min (psize - m.fromHdrm port qIndex psize)
    (if m.ingressBytes port qIndex > m.reserve then m.ingressBytes port qIndex - m.reserve else 0)

/-- `SwitchMmu::RemoveFromIngressAdmission`. -/
def removeFromIngressAdmission : SwitchMmu :=
  let fromHdrm := m.fromHdrm port qIndex psize
  let fromShared := m.fromShared port qIndex psize
  { m with
    hdrmBytes := setAt m.hdrmBytes port qIndex (m.hdrmBytes port qIndex - fromHdrm)
    ingressBytes :=
      setAt m.ingressBytes port qIndex (m.ingressBytes port qIndex - (psize - fromHdrm))
    sharedUsedBytes := m.sharedUsedBytes - fromShared }

/-- `SwitchMmu::RemoveFromEgressAdmission`. -/
def removeFromEgressAdmission : SwitchMmu :=
  { m with egressBytes := setAt m.egressBytes port qIndex (m.egressBytes port qIndex - psize) }

/-- `SwitchMmu::CheckShouldPause`. -/
def checkShouldPause : Bool :=
  !m.paused port qIndex && (decide (m.hdrmBytes port qIndex > 0) ||
    decide (m.getSharedUsed port qIndex ≥ m.getPfcThreshold port))

/-- `SwitchMmu::CheckShouldResume`. -/
def checkShouldResume : Bool :=
  if !m.paused port qIndex then
    false
  else
    let sharedUsed := m.getSharedUsed port qIndex
    m.hdrmBytes port qIndex == 0 &&
      (sharedUsed == 0 || decide (sharedUsed + m.resumeOffset ≤ m.getPfcThreshold port))

/-- `SwitchMmu::SetPause`. -/
def setPause : SwitchMmu := { m with paused := setAt m.paused port qIndex true }

/-- `SwitchMmu::SetResume`. -/
def setResume : SwitchMmu := { m with paused := setAt m.paused port qIndex false }

/-! ### What the operations leave alone -/

section Frame

@[simp] theorem updateIngressAdmission_toMmuConfig :
    (m.updateIngressAdmission port qIndex psize).toMmuConfig = m.toMmuConfig := by
  simp only [updateIngressAdmission]
  split_ifs <;> rfl

@[simp] theorem updateIngressAdmission_paused :
    (m.updateIngressAdmission port qIndex psize).paused = m.paused := by
  simp only [updateIngressAdmission]
  split_ifs <;> rfl

@[simp] theorem updateIngressAdmission_egressBytes :
    (m.updateIngressAdmission port qIndex psize).egressBytes = m.egressBytes := by
  simp only [updateIngressAdmission]
  split_ifs <;> rfl

@[simp] theorem updateEgressAdmission_toMmuConfig :
    (m.updateEgressAdmission port qIndex psize).toMmuConfig = m.toMmuConfig := rfl

@[simp] theorem updateEgressAdmission_paused :
    (m.updateEgressAdmission port qIndex psize).paused = m.paused := rfl

@[simp] theorem updateEgressAdmission_hdrmBytes :
    (m.updateEgressAdmission port qIndex psize).hdrmBytes = m.hdrmBytes := rfl

@[simp] theorem removeFromEgressAdmission_hdrmBytes :
    (m.removeFromEgressAdmission port qIndex psize).hdrmBytes = m.hdrmBytes := rfl

@[simp] theorem setPause_hdrmBytes : (m.setPause port qIndex).hdrmBytes = m.hdrmBytes := rfl

@[simp] theorem setPause_paused :
    (m.setPause port qIndex).paused = setAt m.paused port qIndex true := rfl

@[simp] theorem setResume_paused :
    (m.setResume port qIndex).paused = setAt m.paused port qIndex false := rfl

end Frame

/-! ### Charging and releasing a packet, for all values of the counters -/

/-- A packet is admitted when it fits in the headroom or under the threshold. -/
theorem checkIngressAdmission_eq_true_iff :
    m.checkIngressAdmission port qIndex psize = true ↔
      psize + m.hdrmBytes port qIndex ≤ m.headroom port ∨
      psize + m.getSharedUsed port qIndex ≤ m.getPfcThreshold port := by
  simp only [checkIngressAdmission, gt_iff_lt, UInt32.lt_iff_toNat_lt, UInt32.le_iff_toNat_le]
  split_ifs with h
  · constructor
    · intro h'
      cases h'
    · omega
  · refine iff_of_true rfl ?_
    omega

theorem checkShouldPause_eq_true_iff :
    m.checkShouldPause port qIndex = true ↔
      m.paused port qIndex = false ∧
        (m.hdrmBytes port qIndex > 0 ∨
          m.getSharedUsed port qIndex ≥ m.getPfcThreshold port) := by
  simp [checkShouldPause]

theorem checkShouldResume_eq_true_iff :
    m.checkShouldResume port qIndex = true ↔
      m.paused port qIndex = true ∧ m.hdrmBytes port qIndex = 0 ∧
        (m.getSharedUsed port qIndex = 0 ∨
          m.getSharedUsed port qIndex + m.resumeOffset ≤ m.getPfcThreshold port) := by
  simp only [checkShouldResume]
  split_ifs with h
  · simp_all
  · simp_all

/-- A resume is sent for a paused queue with an empty headroom only. -/
theorem checkShouldResume_eq_true {m : SwitchMmu} {port qIndex : ℕ}
    (h : m.checkShouldResume port qIndex = true) :
    m.paused port qIndex = true ∧ m.hdrmBytes port qIndex = 0 := by
  obtain ⟨hp, hz, -⟩ := (checkShouldResume_eq_true_iff m _ _).1 h
  exact ⟨hp, hz⟩

/-- The headroom of a queue either stays or takes the whole packet. -/
theorem updateIngressAdmission_hdrmBytes :
    (m.updateIngressAdmission port qIndex psize).hdrmBytes = m.hdrmBytes ∨
    (m.updateIngressAdmission port qIndex psize).hdrmBytes =
      setAt m.hdrmBytes port qIndex (m.hdrmBytes port qIndex + psize) := by
  simp only [updateIngressAdmission]
  split_ifs
  · exact .inl rfl
  · exact .inr rfl
  · exact .inl rfl

/-- The two counters of a queue together grow by the packet, modulo `2 ^ 32`. -/
theorem updateIngressAdmission_add (p q : ℕ) :
    (m.updateIngressAdmission port qIndex psize).ingressBytes p q +
        (m.updateIngressAdmission port qIndex psize).hdrmBytes p q =
      if p = port ∧ q = qIndex then m.ingressBytes p q + m.hdrmBytes p q + psize
      else m.ingressBytes p q + m.hdrmBytes p q := by
  by_cases h : p = port ∧ q = qIndex
  · obtain ⟨rfl, rfl⟩ := h
    simp only [updateIngressAdmission]
    split_ifs <;> simp <;> grind
  · simp only [updateIngressAdmission]
    split_ifs <;> simp [setAt_of_ne _ h]

theorem removeFromIngressAdmission_hdrmBytes :
    (m.removeFromIngressAdmission port qIndex psize).hdrmBytes =
      setAt m.hdrmBytes port qIndex (m.hdrmBytes port qIndex - m.fromHdrm port qIndex psize) := rfl

/-- The two counters of a queue together shrink by the packet, modulo `2 ^ 32`. -/
theorem removeFromIngressAdmission_add (p q : ℕ) :
    (m.removeFromIngressAdmission port qIndex psize).ingressBytes p q +
        (m.removeFromIngressAdmission port qIndex psize).hdrmBytes p q =
      if p = port ∧ q = qIndex then m.ingressBytes p q + m.hdrmBytes p q - psize
      else m.ingressBytes p q + m.hdrmBytes p q := by
  by_cases h : p = port ∧ q = qIndex
  · obtain ⟨rfl, rfl⟩ := h
    simp only [removeFromIngressAdmission, setAt_self]
    grind
  · simp [removeFromIngressAdmission, setAt_of_ne _ h, h]

theorem toNat_fromHdrm :
    (m.fromHdrm port qIndex psize).toNat = min (m.hdrmBytes port qIndex).toNat psize.toNat := by
  simp only [fromHdrm, Std.min_eq_if, UInt32.le_iff_toNat_le]
  split <;> omega

/-- A release takes from the headroom what it can: nothing underflows there. -/
theorem toNat_hdrmBytes_sub_fromHdrm :
    (m.hdrmBytes port qIndex - m.fromHdrm port qIndex psize).toNat =
      (m.hdrmBytes port qIndex).toNat - psize.toNat := by
  have hle : m.fromHdrm port qIndex psize ≤ m.hdrmBytes port qIndex := by
    rw [UInt32.le_iff_toNat_le, toNat_fromHdrm]
    exact Nat.min_le_left _ _
  rw [UInt32.toNat_sub_of_le _ _ hle, toNat_fromHdrm]
  omega

/-! ### The pools, for counters that do not overflow -/

/-- The bytes of a queue beyond its reserve. -/
def excess (p q : ℕ) : ℕ := (m.ingressBytes p q).toNat - m.reserve.toNat

theorem excess_le_ingressBytes (p q : ℕ) : m.excess p q ≤ (m.ingressBytes p q).toNat :=
  Nat.sub_le _ _

theorem toNat_getSharedUsed : (m.getSharedUsed port qIndex).toNat = m.excess port qIndex := by
  simp only [getSharedUsed, excess, gt_iff_lt, UInt32.lt_iff_toNat_lt]
  split_ifs with h
  · rw [UInt32.toNat_sub_of_le _ _ (UInt32.le_iff_toNat_le.2 (Nat.le_of_lt h))]
  · simp only [UInt32.toNat_zero]
    omega

theorem toNat_fromShared :
    (m.fromShared port qIndex psize).toNat =
      min (psize.toNat - (m.hdrmBytes port qIndex).toNat) (m.excess port qIndex) := by
  have hfrom := m.toNat_fromHdrm port qIndex psize
  have hsub : (psize - m.fromHdrm port qIndex psize).toNat =
      psize.toNat - (m.hdrmBytes port qIndex).toNat := by
    rw [UInt32.toNat_sub_of_le _ _ (UInt32.le_iff_toNat_le.2 (by omega)), hfrom]
    omega
  have hexc := m.toNat_getSharedUsed port qIndex
  simp only [getSharedUsed] at hexc
  simp only [fromShared, Std.min_eq_if, UInt32.le_iff_toNat_le, hsub, hexc]
  split <;> omega

/-- The configured and the shared part of the buffer fit in it. -/
def Sound : Prop :=
  m.totalHdrm.toNat + m.totalRsrv.toNat + m.sharedUsedBytes.toNat ≤ m.bufferSize.toNat

/-- `UpdateIngressAdmission` charges the packet to the headroom of its queue. -/
def ChargedToHdrm : Prop :=
  m.reserve < m.ingressBytes port qIndex + psize ∧
    m.getPfcThreshold port < m.ingressBytes port qIndex + psize - m.reserve

instance : Decidable (m.ChargedToHdrm port qIndex psize) :=
  inferInstanceAs (Decidable (_ ∧ _))

/-- The counter that `UpdateIngressAdmission` adds the packet to does not overflow. -/
def Fits : Prop :=
  if m.ChargedToHdrm port qIndex psize then (m.hdrmBytes port qIndex).toNat + psize.toNat < 2 ^ 32
  else (m.ingressBytes port qIndex).toNat + psize.toNat < 2 ^ 32

instance : Decidable (m.Fits port qIndex psize) :=
  inferInstanceAs (Decidable (if m.ChargedToHdrm port qIndex psize then _ < _ else _ < _))

variable {m}

/-- In a sound state the threshold is the shifted free part of the pool. -/
theorem Sound.toNat_getPfcThreshold (h : m.Sound) :
    (m.getPfcThreshold port).toNat =
      (m.sharedSize - m.sharedUsedBytes.toNat) >>> ((m.pfcAShift port).toNat % 32) := by
  simp only [Sound] at h
  have h₁ : m.totalHdrm ≤ m.bufferSize := UInt32.le_iff_toNat_le.2 (by omega)
  have e₁ := UInt32.toNat_sub_of_le _ _ h₁
  have h₂ : m.totalRsrv ≤ m.bufferSize - m.totalHdrm := UInt32.le_iff_toNat_le.2 (by omega)
  have e₂ := UInt32.toNat_sub_of_le _ _ h₂
  have h₃ : m.sharedUsedBytes ≤ m.bufferSize - m.totalHdrm - m.totalRsrv :=
    UInt32.le_iff_toNat_le.2 (by omega)
  have e₃ := UInt32.toNat_sub_of_le _ _ h₃
  rw [getPfcThreshold, UInt32.toNat_shiftRight, e₃, e₂, e₁]
  rfl

variable {port qIndex psize}

/-- A packet charged to the headroom was admitted by the headroom: it fits there. -/
theorem ChargedToHdrm.hdrmBytes_add_le (h : m.ChargedToHdrm port qIndex psize)
    (hadm : m.checkIngressAdmission port qIndex psize = true)
    (hfit : m.Fits port qIndex psize) :
    (m.hdrmBytes port qIndex).toNat + psize.toNat ≤ (m.headroom port).toNat := by
  rw [Fits, if_pos h] at hfit
  obtain ⟨hrsv, hthr⟩ := h
  rw [UInt32.lt_iff_toNat_lt] at hrsv
  rw [UInt32.lt_iff_toNat_lt,
    UInt32.toNat_sub_of_le _ _ (UInt32.le_iff_toNat_le.2 (Nat.le_of_lt hrsv))] at hthr
  rw [UInt32.toNat_add] at hrsv hthr
  rcases (checkIngressAdmission_eq_true_iff m _ _ _).1 hadm with hle | hle
  · rw [UInt32.le_iff_toNat_le, UInt32.toNat_add] at hle
    omega
  · -- the test of the admission and the one of the charging compare the same sum
    rw [UInt32.le_iff_toNat_le, UInt32.toNat_add, toNat_getSharedUsed] at hle
    have hing := (m.ingressBytes port qIndex).toNat_lt
    have hpsz := psize.toNat_lt
    simp only [excess] at hle
    omega

theorem updateIngressAdmission_of_chargedToHdrm (h : m.ChargedToHdrm port qIndex psize) :
    m.updateIngressAdmission port qIndex psize =
      { m with hdrmBytes := setAt m.hdrmBytes port qIndex (m.hdrmBytes port qIndex + psize) } := by
  simp only [updateIngressAdmission, if_neg (UInt32.not_le.2 h.1), gt_iff_lt, if_pos h.2]

/-- **How a packet is charged.** Without overflow the packet goes as a whole to the headroom, or
to `ingress_bytes` when its queue stays within the threshold, the pool taking the part above the
reserve. -/
theorem updateIngressAdmission_cases (h : m.Fits port qIndex psize) :
    (m.ChargedToHdrm port qIndex psize ∧
      (m.hdrmBytes port qIndex).toNat + psize.toNat < 2 ^ 32 ∧
      m.updateIngressAdmission port qIndex psize =
        { m with hdrmBytes := setAt m.hdrmBytes port qIndex (m.hdrmBytes port qIndex + psize) }) ∨
    ∃ inc : UInt32,
      inc.toNat =
        (m.ingressBytes port qIndex).toNat + psize.toNat - m.reserve.toNat - m.excess port qIndex ∧
      (m.ingressBytes port qIndex).toNat + psize.toNat < 2 ^ 32 ∧
      (m.ingressBytes port qIndex).toNat + psize.toNat - m.reserve.toNat ≤
        (m.getPfcThreshold port).toNat ∧
      m.updateIngressAdmission port qIndex psize =
        { m with
          ingressBytes :=
            setAt m.ingressBytes port qIndex (m.ingressBytes port qIndex + psize)
          sharedUsedBytes := m.sharedUsedBytes + inc } := by
  by_cases hc : m.ChargedToHdrm port qIndex psize
  · rw [Fits, if_pos hc] at h
    exact .inl ⟨hc, h, updateIngressAdmission_of_chargedToHdrm hc⟩
  · rw [Fits, if_neg hc] at h
    have hnew : (m.ingressBytes port qIndex + psize).toNat =
        (m.ingressBytes port qIndex).toNat + psize.toNat := by
      rw [UInt32.toNat_add, Nat.mod_eq_of_lt h]
    right
    by_cases hrsv : m.ingressBytes port qIndex + psize ≤ m.reserve
    · have hrsv' := UInt32.le_iff_toNat_le.1 hrsv
      refine ⟨0, ?_, h, by omega, ?_⟩
      · simp only [excess, UInt32.toNat_zero]
        omega
      · simp [updateIngressAdmission, hrsv]
    · have hrsv' := UInt32.not_le.1 hrsv
      have hthr : ¬ m.getPfcThreshold port < m.ingressBytes port qIndex + psize - m.reserve :=
        fun hlt => hc ⟨hrsv', hlt⟩
      rw [UInt32.lt_iff_toNat_lt] at hrsv'
      have hsub : (m.ingressBytes port qIndex + psize - m.reserve).toNat =
          (m.ingressBytes port qIndex).toNat + psize.toNat - m.reserve.toNat := by
        rw [UInt32.toNat_sub_of_le _ _ (UInt32.le_iff_toNat_le.2 (Nat.le_of_lt hrsv')), hnew]
      have hthr' := hthr
      rw [UInt32.lt_iff_toNat_lt, hsub] at hthr'
      refine ⟨min psize (m.ingressBytes port qIndex + psize - m.reserve), ?_, h, by omega, ?_⟩
      · simp only [Std.min_eq_if, UInt32.le_iff_toNat_le, hsub, excess]
        split <;> omega
      · simp only [updateIngressAdmission, if_neg hrsv, gt_iff_lt, if_neg hthr]

end SwitchMmu

end HpccSim
