import Mathlib.Data.UInt

/-!
# Queue pairs

`RdmaQueuePair` and `RdmaRxQueuePair` (`rdma-queue-pair.cc`): what a sender knows about a flow and
what its receiver does. Sequence numbers count bytes; the sender keeps them in 64 bits and the
receiver, as the headers, in 32. The congestion control is represented by the rate it sets: its own
variables, and the telemetry it reads, are left out.

## Main definitions

* `RdmaQueuePair`, with `getBytesLeft`, `acknowledge`, `getOnTheFly`, `getWin`, `isWinBound` and
  `isFinished`.
* `RdmaRxQueuePair`.

## Main results

* `RdmaQueuePair.toNat_getBytesLeft`, `RdmaQueuePair.toNat_sndUna_acknowledge`,
  `RdmaQueuePair.toNat_getOnTheFly`, `RdmaQueuePair.isFinished_iff`: the same over `ℕ`.
-/

namespace HpccSim

/-- `RdmaQueuePair`. -/
structure RdmaQueuePair where
  pg : UInt16
  sip : UInt32
  dip : UInt32
  sport : UInt16
  dport : UInt16
  size : UInt64
  /-- The sequence number to send next. -/
  sndNxt : UInt64
  /-- The lowest one not acknowledged. -/
  sndUna : UInt64
  win : UInt32
  varWin : Bool
  rate : UInt64
  maxRate : UInt64
  /-- The time before which nothing is sent. -/
  nextAvail : ℕ

namespace RdmaQueuePair

variable (qp : RdmaQueuePair)

/-- `RdmaQueuePair::GetBytesLeft`. -/
def getBytesLeft : UInt64 := if qp.size ≥ qp.sndNxt then qp.size - qp.sndNxt else 0

/-- `RdmaQueuePair::Acknowledge`. -/
def acknowledge (ack : UInt64) : RdmaQueuePair :=
  if ack > qp.sndUna then { qp with sndUna := ack } else qp

/-- `RdmaQueuePair::GetOnTheFly`. -/
def getOnTheFly : UInt64 := qp.sndNxt - qp.sndUna

/-- `RdmaQueuePair::GetWin`. The rate of a device is not `0`; the division of the source traps on
it, this one gives `0`. -/
def getWin : UInt64 :=
  if qp.win = 0 then
    0
  else if qp.varWin then
    let w := qp.win.toUInt64 * qp.rate / qp.maxRate
    if w = 0 then 1 else w
  else
    qp.win.toUInt64

/-- `RdmaQueuePair::IsWinBound`. -/
def isWinBound : Bool := qp.getWin != 0 && decide (qp.getOnTheFly ≥ qp.getWin)

/-- `RdmaQueuePair::IsFinished`. -/
def isFinished : Bool := decide (qp.sndUna ≥ qp.size)

/-- There is something to send and the window allows it, as `GetNextQindex` tests. -/
def isEligible : Bool := decide (qp.getBytesLeft > 0) && !qp.isWinBound

/-! ### The same over the natural numbers -/

section Nat

variable {qp}

theorem toNat_getBytesLeft : qp.getBytesLeft.toNat = qp.size.toNat - qp.sndNxt.toNat := by
  rw [getBytesLeft]
  split_ifs with h
  · exact UInt64.toNat_sub_of_le _ _ h
  · have := UInt64.not_le.1 h
    rw [UInt64.lt_iff_toNat_lt] at this
    rw [UInt64.toNat_zero]
    omega

theorem getBytesLeft_eq_zero_iff : qp.getBytesLeft = 0 ↔ qp.size.toNat ≤ qp.sndNxt.toNat := by
  rw [← UInt64.toNat_inj, toNat_getBytesLeft, UInt64.toNat_zero]
  omega

theorem toNat_sndUna_acknowledge (ack : UInt64) :
    (qp.acknowledge ack).sndUna.toNat = max qp.sndUna.toNat ack.toNat := by
  rw [acknowledge]
  split_ifs with h
  · have := UInt64.lt_iff_toNat_lt.1 h
    simp only
    omega
  · have := mt UInt64.lt_iff_toNat_lt.2 h
    omega

@[simp] theorem size_acknowledge (ack : UInt64) : (qp.acknowledge ack).size = qp.size := by
  rw [acknowledge]
  split_ifs <;> rfl

theorem toNat_getOnTheFly (h : qp.sndUna.toNat ≤ qp.sndNxt.toNat) :
    qp.getOnTheFly.toNat = qp.sndNxt.toNat - qp.sndUna.toNat :=
  UInt64.toNat_sub_of_le _ _ (UInt64.le_iff_toNat_le.2 h)

theorem isFinished_iff : qp.isFinished = true ↔ qp.size.toNat ≤ qp.sndUna.toNat := by
  simp [isFinished, UInt64.le_iff_toNat_le]

theorem isWinBound_iff :
    qp.isWinBound = true ↔ qp.getWin.toNat ≠ 0 ∧ qp.getWin.toNat ≤ qp.getOnTheFly.toNat := by
  simp [isWinBound, UInt64.le_iff_toNat_le, ← UInt64.toNat_inj]

end Nat

end RdmaQueuePair

/-- `RdmaRxQueuePair`; `m_milestone_rx` is signed in the source. -/
structure RdmaRxQueuePair where
  receiverNextExpectedSeq : UInt32
  nackTimer : ℕ
  milestoneRx : Int32
  lastNACK : UInt32

/-- `RdmaRxQueuePair::RdmaRxQueuePair`. -/
def RdmaRxQueuePair.new : RdmaRxQueuePair where
  receiverNextExpectedSeq := 0
  nackTimer := 0
  milestoneRx := 0
  lastNACK := 0

end HpccSim
