import HpccSim.Lib.WrappedQuotient
import HpccSim.QueuePair

/-!
# Variable windows

With `m_var_win` the window of a queue pair follows its rate: `GetWin` scales `m_win` by
`m_rate / m_max_rate`, and `HpGetCurWin` by `hp.m_curRate / m_max_rate`, at least `1`
(`rdma-queue-pair.cc`). The product of `m_win` and the rate is taken in 64 bits. Up to 400 Gb/s and
windows of about 46 MB it fits; a larger window wraps, and the quotient is then wrong at every rate
that makes it wrap, without any further exception.

## Main definitions

* `HpQueuePair`, with `hpGetCurWin`.
* `FollowsRate`: a window is the one meant at a rate.

## Main results

* `HpQueuePair.followsRate_iff`: the windows are the ones meant exactly if the product fits.
* `HpQueuePair.longPath_not_followsRate`: a window of 64 MiB at 400 Gb/s.
-/

namespace HpccSim

/-- A queue pair with the rate that HPCC computes, `hp.m_curRate`. -/
structure HpQueuePair extends RdmaQueuePair where
  curRate : UInt64

/-- The window `window`, given as a function of the rate, is the one meant at the rate `r`: `win`
scaled by `r / maxRate` and at least `1`, so that it is not more than `win` and lower rates do not
have larger windows. -/
structure FollowsRate (window : UInt64 → UInt64) (win : UInt32) (maxRate r : UInt64) : Prop where
  eq : (window r).toNat = max 1 (win.toNat * r.toNat / maxRate.toNat)
  one_le : 1 ≤ window r
  le_win : window r ≤ win.toUInt64
  mono : ∀ r', 0 < r' → r' ≤ r → window r' ≤ window r

namespace HpQueuePair

variable (qp : HpQueuePair)

/-- `RdmaQueuePair::HpGetCurWin`. -/
def hpGetCurWin : UInt64 :=
  if qp.win = 0 then
    0
  else if qp.varWin then
    let w := qp.win.toUInt64 * qp.curRate / qp.maxRate
    if w = 0 then 1 else w
  else
    qp.win.toUInt64

/-- `GetWin` at another rate. -/
def getWinAt (r : UInt64) : UInt64 := { qp.toRdmaQueuePair with rate := r }.getWin

/-- `HpGetCurWin` at another rate. -/
def hpGetCurWinAt (r : UInt64) : UInt64 := { qp with curRate := r }.hpGetCurWin

@[simp] theorem getWinAt_rate : qp.getWinAt qp.rate = qp.getWin := rfl

@[simp] theorem hpGetCurWinAt_curRate : qp.hpGetCurWinAt qp.curRate = qp.hpGetCurWin := rfl

/-- The two windows are one function of the rate. -/
theorem hpGetCurWinAt_eq : qp.hpGetCurWinAt = qp.getWinAt := rfl

section

variable {qp} {r : UInt64} (hwin : 0 < qp.win) (hvar : qp.varWin = true)

include hwin hvar

/-- The window as it is computed: the product wraps before it is divided. -/
theorem toNat_getWinAt : (qp.getWinAt r).toNat =
    max 1 (qp.win.toNat * r.toNat % 2 ^ 64 / qp.maxRate.toNat) := by
  have hne : qp.win ≠ 0 := fun h => absurd hwin (by rw [h]; decide)
  have hdiv : (qp.win.toUInt64 * r / qp.maxRate).toNat =
      qp.win.toNat * r.toNat % 2 ^ 64 / qp.maxRate.toNat := by
    rw [UInt64.toNat_div, UInt64.toNat_mul, UInt32.toNat_toUInt64]
  have heq : qp.getWinAt r = if qp.win.toUInt64 * r / qp.maxRate = 0 then 1
      else qp.win.toUInt64 * r / qp.maxRate := by
    simp only [getWinAt, RdmaQueuePair.getWin, hne, hvar, if_false, if_true]
  rw [heq, ← hdiv]
  split_ifs with h
  · rw [h]
    rfl
  · have hpos : (qp.win.toUInt64 * r / qp.maxRate).toNat ≠ 0 := fun h0 =>
      h (UInt64.toNat_inj.1 h0)
    omega

theorem one_le_getWinAt : 1 ≤ qp.getWinAt r := by
  rw [UInt64.le_iff_toNat_le, toNat_getWinAt hwin hvar]
  exact le_max_left _ _

/-- A scaled window is at most the window. -/
theorem getWinAt_le (hr : r ≤ qp.maxRate) : qp.getWinAt r ≤ qp.win.toUInt64 := by
  rw [UInt64.le_iff_toNat_le, toNat_getWinAt hwin hvar, UInt32.toNat_toUInt64]
  refine max_le (UInt32.lt_iff_toNat_lt.1 hwin) ?_
  calc qp.win.toNat * r.toNat % 2 ^ 64 / qp.maxRate.toNat
      ≤ qp.win.toNat * qp.maxRate.toNat / qp.maxRate.toNat :=
        Nat.div_le_div_right ((Nat.mod_le _ _).trans
          (Nat.mul_le_mul_left _ (UInt64.le_iff_toNat_le.1 hr)))
    _ ≤ qp.win.toNat := Nat.div_le_of_le_mul (Nat.mul_comm _ _).le

/-- As long as the product fits, a lower rate has no larger window. -/
theorem getWinAt_mono (hfit : qp.win.toNat * r.toNat < 2 ^ 64) {r' : UInt64} (hr' : r' ≤ r) :
    qp.getWinAt r' ≤ qp.getWinAt r := by
  have hle : qp.win.toNat * r'.toNat ≤ qp.win.toNat * r.toNat :=
    Nat.mul_le_mul_left _ (UInt64.le_iff_toNat_le.1 hr')
  rw [UInt64.le_iff_toNat_le, toNat_getWinAt hwin hvar, toNat_getWinAt hwin hvar,
    Nat.mod_eq_of_lt hfit, Nat.mod_eq_of_lt (hle.trans_lt hfit)]
  exact max_le_max le_rfl (Nat.div_le_div_right hle)

/-- The window is the one meant exactly if the product fits. -/
theorem followsRate_getWinAt_iff (hmax : qp.maxRate ≤ 400000000000) (hpos : 0 < r)
    (hr : r ≤ qp.maxRate) :
    FollowsRate qp.getWinAt qp.win qp.maxRate r ↔ qp.win.toNat * r.toNat < 2 ^ 64 := by
  have hmax' : qp.maxRate.toNat ≤ 400000000000 := UInt64.le_iff_toNat_le.1 hmax
  have hr' : r.toNat ≤ qp.maxRate.toNat := UInt64.le_iff_toNat_le.1 hr
  have hpos' : 0 < r.toNat := UInt64.lt_iff_toNat_lt.1 hpos
  have hexact : (qp.getWinAt r).toNat = max 1 (qp.win.toNat * r.toNat / qp.maxRate.toNat) ↔
      qp.win.toNat * r.toNat < 2 ^ 64 := by
    rw [toNat_getWinAt hwin hvar]
    exact WrappedQuotient.max_mod_div_eq_iff (by omega) (by omega)
  constructor
  · intro h
    exact hexact.1 h.eq
  · intro hfit
    exact
      { eq := hexact.2 hfit
        one_le := one_le_getWinAt hwin hvar
        le_win := getWinAt_le hwin hvar hr
        mono := fun _ _ h => getWinAt_mono hwin hvar hfit h }

end

/-- **A variable window is exact** exactly if its product fits in 64 bits, in both computations. -/
theorem followsRate_iff (hwin : 0 < qp.win) (hvar : qp.varWin = true)
    (hmax : qp.maxRate ≤ 400000000000) :
    (0 < qp.rate → qp.rate ≤ qp.maxRate →
      (FollowsRate qp.getWinAt qp.win qp.maxRate qp.rate ↔
        qp.win.toNat * qp.rate.toNat < 2 ^ 64)) ∧
    (0 < qp.curRate → qp.curRate ≤ qp.maxRate →
      (FollowsRate qp.hpGetCurWinAt qp.win qp.maxRate qp.curRate ↔
        qp.win.toNat * qp.curRate.toNat < 2 ^ 64)) :=
  ⟨followsRate_getWinAt_iff hwin hvar hmax,
    (qp.hpGetCurWinAt_eq ▸ followsRate_getWinAt_iff hwin hvar hmax)⟩

/-- A queue pair on a path of 400 Gb/s whose round trip takes 1.34 ms. -/
def longPath (rate : UInt64) : HpQueuePair where
  pg := 3
  sip := 0x0b000001
  dip := 0x0b000101
  sport := 10000
  dport := 100
  size := 1000000000
  sndNxt := 0
  sndUna := 0
  win := 67108864
  varWin := true
  rate := rate
  maxRate := 400000000000
  nextAvail := 0
  curRate := rate

/-- At half the rate the product fits. -/
theorem longPath_followsRate :
    FollowsRate (longPath 200000000000).getWinAt 67108864 400000000000 200000000000 ∧
      FollowsRate (longPath 200000000000).hpGetCurWinAt 67108864 400000000000 200000000000 :=
  have h := (longPath 200000000000).followsRate_iff (by decide) rfl (by decide)
  ⟨(h.1 (by decide) (by decide)).2 (by decide), (h.2 (by decide) (by decide)).2 (by decide)⟩

/-- **At the full rate the window is less than a third** of what it should be. -/
theorem longPath_not_followsRate :
    (longPath 400000000000).getWin = 20992003 ∧
      (longPath 400000000000).hpGetCurWin = 20992003 ∧
      max 1 (67108864 * 400000000000 / 400000000000) = 67108864 ∧
      ¬ FollowsRate (longPath 400000000000).getWinAt 67108864 400000000000 400000000000 ∧
      ¬ FollowsRate (longPath 400000000000).hpGetCurWinAt 67108864 400000000000 400000000000 := by
  have hwin : (longPath 400000000000).getWin = 20992003 := by decide +kernel
  have hne : ¬ FollowsRate (longPath 400000000000).getWinAt 67108864 400000000000 400000000000 := by
    intro h
    have heq := h.eq
    rw [show (longPath 400000000000).getWinAt 400000000000 = 20992003 from hwin] at heq
    exact absurd heq (by decide)
  exact ⟨hwin, hwin, rfl, hne, hne⟩

end HpQueuePair

end HpccSim
