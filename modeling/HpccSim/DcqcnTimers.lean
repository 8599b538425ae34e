import HpccSim.Lib.EventQueue
import HpccSim.RateGate

/-!
# The timers of DCQCN

In the mode of DCQCN a queue pair has three events: the update of `m_alpha`, the decrease of the
rate and its increase. Each schedules itself anew when it expires; the first two are started by the
first congestion notification, the third by a decrease, which cancels the one before
(`UpdateAlphaMlx`, `cnp_received_mlx`, `CheckRateDecreaseMlx`, `RateIncEventTimerMlx` in
`rdma-hw.cc`). `QpComplete` cancels all three.

`ReceiveAck` calls `QpComplete` before it looks at the notification that the same ACK carries. If
that is the first one, two events are scheduled for a queue pair that is complete, and nothing ever
cancels them.

## Main definitions

* `MlxEvent`, `Timers`, `TimerCall`: the events of a queue pair and the calls of the simulator.
* `TimedQp.step`: sending, replies, expiries in any order and the end time of the flow.
* `TimedQp.KeepsDiscipline`: the events are in order at every moment of a step.
* `TimedQp.CompletesOnFirstCnp`: a reply completes the queue pair and carries its first
  notification.

## Main results

* `TimedQp.along_tracked`: there is at most one event of each kind, and its handle refers to it.
* `TimedQp.step_cc`: an expiry is one of the controller.
* `TimedQp.disciplined_iff`: the events are in order unless a queue pair is completed so.
-/

namespace HpccSim

namespace CongestionControl

/-! ### Calls of the simulator -/

/-- The events of a queue pair: `m_eventUpdateAlpha`, `m_eventDecreaseRate` and `m_rpTimer`. -/
inductive MlxEvent where
  | updateAlpha
  | decreaseRate
  | rpTimer
  deriving DecidableEq

/-- The events of a queue pair, and whether `QpComplete` has run for it. -/
structure Timers extends EventQueue MlxEvent where
  completed : Bool

/-- What a function does to the events. -/
inductive TimerCall where
  /-- The event `i` expires. -/
  | expire (i : ℕ)
  /-- `Simulator::Schedule`, for the handle of the event. -/
  | schedule (k : MlxEvent)
  /-- `Simulator::Cancel` of the handle of the event. -/
  | cancel (k : MlxEvent)
  /-- `QpComplete` has cancelled the events. -/
  | completed
  deriving DecidableEq

namespace Timers

/-- One call. -/
def call (t : Timers) : TimerCall → Timers
  | .expire i => { t with toEventQueue := t.remove i }
  | .schedule k => { t with toEventQueue := t.toEventQueue.schedule k }
  | .cancel k => { t with toEventQueue := t.toEventQueue.cancel k }
  | .completed => { t with completed := true }

/-- The calls, one after the other; each of them is possible. -/
def step (t : Timers) (a : TimerCall) : Option Timers := some (t.call a)

/-- The events of a queue pair are in order: there is at most one of each kind, its handle refers to
it, and once `QpComplete` has run there is none. -/
structure Disciplined (t : Timers) : Prop where
  unique : t.pending.Pairwise fun e e' => e.2 ≠ e'.2
  handle : ∀ e ∈ t.pending, t.handle e.2 = some e.1
  completed : t.completed = true → t.pending = []

/-- No event is scheduled once `QpComplete` has run. -/
def Quiet (t : Timers) : TimerCall → Prop
  | .schedule _ => t.completed = false
  | _ => True

instance (t : Timers) : ∀ a, Decidable (t.Quiet a)
  | .schedule _ => inferInstanceAs (Decidable (_ = _))
  | .expire _ | .cancel _ | .completed => inferInstanceAs (Decidable True)

variable {t : Timers}

@[simp] theorem along_nil {C : Timers → TimerCall → Prop} : Run.Along step C t [] := trivial

@[simp] theorem along_cons {C : Timers → TimerCall → Prop} {a : TimerCall} {as : List TimerCall} :
    Run.Along step C t (a :: as) ↔ C t a ∧ Run.Along step C (t.call a) as := by
  simp [Run.Along, step]

theorem exec_eq (t : Timers) (as : List TimerCall) :
    Run.exec step t as = some (as.foldl call t) := by
  induction as generalizing t with
  | nil => rfl
  | cons a as ih => exact ih (t.call a)

end Timers

/-! ### Timed queue pairs -/

/-- A queue pair with its events. -/
structure TimedQp where
  flow : RdmaQueuePair
  cc : Qp
  timers : Timers

/-- What happens to a queue pair. -/
inductive TimedOp where
  /-- A packet is sent. -/
  | send
  /-- An ACK or a NACK arrives. -/
  | reply (r : Reply)
  /-- The event `i` expires. -/
  | expire (i : ℕ)
  /-- The end time of the flow. -/
  | complete

variable (c : Config) (hw : RdmaHw)

/-- The calls of `QpComplete`. -/
def qpCompleteCalls : List TimerCall :=
  (if c.ccMode = .dcqcn then [.cancel .updateAlpha, .cancel .decreaseRate, .cancel .rpTimer]
    else []) ++ [.completed]

/-- The calls of `cnp_received_mlx`. -/
def cnpReceivedCalls (qp : Qp) : List TimerCall :=
  if qp.mlx.firstCnp then [.schedule .updateAlpha, .schedule .decreaseRate] else []

/-- The calls of `ReceiveAck`. -/
def receiveAckCalls (qp : Qp) (finished cnp : Bool) : List TimerCall :=
  (if finished then qpCompleteCalls c else []) ++
    if cnp = true ∧ c.ccMode = .dcqcn then cnpReceivedCalls qp else []

/-- The calls of `UpdateAlphaMlx`, `CheckRateDecreaseMlx` and `RateIncEventTimerMlx`. -/
def expiryCalls (qp : Qp) : MlxEvent → List TimerCall
  | .updateAlpha => [.schedule .updateAlpha]
  | .decreaseRate =>
    .schedule .decreaseRate ::
      if qp.mlx.decreaseCnpArrived then [.cancel .rpTimer, .schedule .rpTimer] else []
  | .rpTimer => [.schedule .rpTimer]

/-- What the event does to the controller. -/
def expiry (qp : Qp) : MlxEvent → Qp
  | .updateAlpha => updateAlphaMlx c qp
  | .decreaseRate => checkRateDecreaseMlx c qp
  | .rpTimer => rateIncEventTimerMlx c qp

namespace TimedQp

variable (q : TimedQp)

/-- The queue pair that `AddQueuePair` makes. -/
def start (f : Flow) (now : ℕ) (bps baseRtt : UInt64) : TimedQp where
  flow := hw.newQp now bps f
  cc := addQueuePair c f.win baseRtt
  timers := { EventQueue.empty with completed := false }

/-- The calls that are made when something happens. `QpComplete` takes the queue pair out of
`m_qpMap`, so that `ReceiveAck` does not find it any more. -/
def calls : TimedOp → List TimerCall
  | .send => []
  | .reply r =>
    if q.timers.completed then []
    else
      match hw.processAck q.flow r.ch with
      | some (_, finished) => receiveAckCalls c q.cc finished r.cnp
      | none => []
  | .expire i =>
    match q.timers.kind? i with
    | some k => .expire i :: expiryCalls q.cc k
    | none => []
  | .complete => qpCompleteCalls c

/-- What it does to the flow and to the controller. An event that is not pending does not
expire. -/
def effect : TimedOp → Option (RdmaQueuePair × Qp)
  | .send =>
    if q.flow.getBytesLeft = 0 then none else some ((hw.getNxtPacket q.flow).2, q.cc)
  | .reply r =>
    if q.timers.completed then some (q.flow, q.cc)
    else (hw.processAck q.flow r.ch).map fun (flow, finished) =>
      (flow, receiveAck c q.cc (r.ack flow.sndNxt finished))
  | .expire i => (q.timers.kind? i).map fun k => (q.flow, expiry c q.cc k)
  | .complete => some (q.flow, qpComplete c q.cc)

/-- One event. -/
def step (q : TimedQp) (op : TimedOp) : Option TimedQp :=
  (q.effect c hw op).map fun (flow, cc) =>
    { flow := flow, cc := cc, timers := (q.calls c hw op).foldl Timers.call q.timers }

/-- The events are in order at every moment of the step, and none is scheduled once `QpComplete`
has run. -/
def KeepsDiscipline (op : TimedOp) : Prop :=
  Run.Always Timers.step Timers.Disciplined q.timers (q.calls c hw op) ∧
    Run.Along Timers.step Timers.Quiet q.timers (q.calls c hw op)

/-- A reply completes a queue pair: it acknowledges the last byte. -/
def Completes (seq : UInt32) : Prop :=
  hw.ackInterval ≠ 0 ∧ (hw.backto0 = true → hw.chunk ≠ 0) ∧
    q.flow.size.toNat ≤ max q.flow.sndUna.toNat (hw.ackedSeq seq)

/-- A reply completes a queue pair, and carries the first congestion notification for it. -/
def CompletesOnFirstCnp : TimedOp → Prop
  | .reply r => q.timers.completed = false ∧ q.Completes hw r.ch.seq ∧ r.cnp = true ∧
      q.cc.mlx.firstCnp = true
  | _ => False

instance (seq : UInt32) : Decidable (q.Completes hw seq) := inferInstanceAs (Decidable (_ ∧ _))

instance : ∀ op, Decidable (q.CompletesOnFirstCnp hw op)
  | .reply _ => inferInstanceAs (Decidable (_ ∧ _))
  | .send | .expire _ | .complete => inferInstanceAs (Decidable False)

end TimedQp

/-! ### One function -/

/-- An event is scheduled only if there is none of its kind. -/
def Timers.Fresh (t : Timers) : TimerCall → Prop
  | .schedule k => ¬ t.IsPending k
  | _ => True

/-- There is no event when `QpComplete` ends, and none is scheduled afterwards. -/
def Timers.Settled (t : Timers) : TimerCall → Prop
  | .schedule _ => t.completed = false
  | .completed => t.pending = []
  | _ => True

/-- The Boolean of the controller that stands for the event. -/
def flag (mlx : Mlx) : MlxEvent → Bool
  | .updateAlpha => mlx.eventUpdateAlpha
  | .decreaseRate => mlx.eventDecreaseRate
  | .rpTimer => mlx.rpTimer

namespace Timers

variable {t t' : Timers} {k j : MlxEvent} {i : ℕ} {a : TimerCall}

theorem call_tracked (h : t.Tracked) (ha : t.Fresh a) : (t.call a).Tracked := by
  cases a with
  | expire i => exact h.remove i
  | schedule k => exact h.schedule ha
  | cancel k => exact h.cancel k
  | completed => exact h

theorem call_settled (h : t.completed = true → t.pending = []) (ha : t.Settled a)
    (hc : (t.call a).completed = true) : (t.call a).pending = [] := by
  cases a with
  | expire i =>
    show t.pending.filter _ = []
    rw [h hc, List.filter_nil]
  | schedule k =>
    have hfalse : t.completed = false := ha
    exact absurd (hfalse.symm.trans hc) Bool.false_ne_true
  | cancel k =>
    have hnil := h hc
    simp only [call, EventQueue.cancel, EventQueue.remove]
    split <;> simp [hnil]
  | completed => exact ha

/-- After calls that are in order the events are tracked. -/
theorem foldl_tracked {as : List TimerCall} (h : t.Tracked) (has : Run.Along step Fresh t as) :
    (as.foldl call t).Tracked :=
  Run.exec_induction (I := fun t : Timers => t.Tracked)
    (fun _ _ _ h ha hstep => Option.some.inj hstep ▸ call_tracked h ha) h has (exec_eq t as)

/-- The events are in order all the time if they are so at first. -/
theorem always_disciplined {as : List TimerCall} (h : t.Tracked)
    (hc : t.completed = true → t.pending = []) (hfresh : Run.Along step Fresh t as)
    (hsettled : Run.Along step Settled t as) : Run.Always step Disciplined t as := by
  induction as generalizing t with
  | nil => exact ⟨h.pairwise, h.handle, hc⟩
  | cons a as ih =>
    rw [along_cons] at hfresh hsettled
    refine ⟨⟨h.pairwise, h.handle, hc⟩, fun t' ht' => ?_⟩
    cases ht'
    exact ih (call_tracked h hfresh.1) (call_settled hc hsettled.1) hfresh.2 hsettled.2

end Timers

open Timers

variable {c hw} {t : Timers} {qp : Qp} {k : MlxEvent} {i : ℕ}

/-- **`QpComplete`** leaves no event. -/
theorem qpCompleteCalls_spec (hm : c.ccMode = .dcqcn) (h : t.Tracked) :
    Run.Along Timers.step Fresh t (qpCompleteCalls c) ∧
      Run.Along Timers.step Settled t (qpCompleteCalls c) ∧
      ((qpCompleteCalls c).foldl call t).pending = [] ∧
      ((qpCompleteCalls c).foldl call t).completed = true := by
  have h₁ := h.cancel .updateAlpha
  have h₂ := h₁.cancel .decreaseRate
  have hnil : (((t.toEventQueue.cancel .updateAlpha).cancel .decreaseRate).cancel
      .rpTimer).pending = [] := by
    rw [EventQueue.pending_eq_nil_iff]
    intro k
    rw [h₂.isPending_cancel, h₁.isPending_cancel, h.isPending_cancel]
    cases k <;> simp
  rw [qpCompleteCalls, if_pos hm]
  refine ⟨?_, ?_, hnil, rfl⟩
  · simp [Fresh]
  · simpa [Settled, call] using hnil

/-- **`cnp_received_mlx`** starts two events if the notification is the first one. -/
theorem cnpReceivedCalls_spec (hfirst : qp.mlx.firstCnp = true → ∀ k, ¬ t.IsPending k) :
    Run.Along Timers.step Fresh t (cnpReceivedCalls qp) ∧
      (t.completed = false → Run.Along Timers.step Settled t (cnpReceivedCalls qp)) ∧
      (((cnpReceivedCalls qp).foldl call t).IsPending k ↔
        (qp.mlx.firstCnp = true ∧ k ≠ .rpTimer) ∨ t.IsPending k) := by
  rw [cnpReceivedCalls]
  by_cases hf : qp.mlx.firstCnp = true
  · rw [if_pos hf]
    have hnone := hfirst hf
    have hdec : ¬ (t.toEventQueue.schedule .updateAlpha).IsPending .decreaseRate := by
      rw [EventQueue.isPending_schedule]
      simp [hnone]
    refine ⟨?_, fun hc => ?_, ?_⟩
    · simp [Fresh, call, hnone, hdec]
    · simp [Settled, call, hc]
    · simp only [List.foldl_cons, List.foldl_nil, call, EventQueue.isPending_schedule, hnone, hf]
      cases k <;> simp
  · rw [if_neg hf]
    exact ⟨trivial, fun _ => trivial, by simp [hf]⟩

/-- **An event that expires** schedules itself anew, and a decrease of the rate the increase. -/
theorem expiryCalls_spec (h : t.Tracked) (hi : (i, k) ∈ t.pending) {j : MlxEvent} :
    Run.Along Timers.step Fresh t (.expire i :: expiryCalls qp k) ∧
      (t.completed = false →
        Run.Along Timers.step Settled t (.expire i :: expiryCalls qp k)) ∧
      (((TimerCall.expire i :: expiryCalls qp k).foldl call t).IsPending j ↔
        (k = .decreaseRate ∧ qp.mlx.decreaseCnpArrived = true ∧ j = .rpTimer) ∨
          t.IsPending j) := by
  -- the event that expires is the only one of its kind
  have hremove {l : MlxEvent} : (t.remove i).IsPending l ↔ l ≠ k ∧ t.IsPending l :=
    h.isPending_remove (h.handle _ hi)
  have hk : t.IsPending k := ⟨i, hi⟩
  cases k with
  | updateAlpha | rpTimer =>
    refine ⟨?_, fun hc => ?_, ?_⟩
    · simp [expiryCalls, Fresh, call, hremove]
    · simp [expiryCalls, Settled, call, EventQueue.remove, hc]
    · simp only [expiryCalls, List.foldl_cons, List.foldl_nil, call,
        EventQueue.isPending_schedule, hremove]
      cases j <;> simp [hk]
  | decreaseRate =>
    have hdec : ((t.remove i).schedule .decreaseRate).Tracked :=
      (h.remove i).schedule (by simp [hremove])
    cases hcnp : qp.mlx.decreaseCnpArrived with
    | false =>
      refine ⟨?_, fun hc => ?_, ?_⟩
      · simp [expiryCalls, hcnp, Fresh, call, hremove]
      · simp [expiryCalls, hcnp, Settled, call, EventQueue.remove, hc]
      · simp only [expiryCalls, hcnp, Bool.false_eq_true, if_false, List.foldl_cons,
          List.foldl_nil, call, EventQueue.isPending_schedule, hremove]
        cases j <;> simp [hk]
    | true =>
      refine ⟨?_, fun hc => ?_, ?_⟩
      · simp [expiryCalls, hcnp, Fresh, call, hremove, hdec.isPending_cancel]
      · simp [expiryCalls, hcnp, Settled, call, EventQueue.remove, hc]
      · simp only [expiryCalls, hcnp, if_true, List.foldl_cons, List.foldl_nil, call,
          EventQueue.isPending_schedule, hdec.isPending_cancel, hremove]
        cases j <;> simp [hk]

/-- **`ReceiveAck`** leaves the two events of a first notification, even if it completes the queue
pair. -/
theorem receiveAckCalls_spec (hm : c.ccMode = .dcqcn) (h : t.Tracked)
    (hfirst : qp.mlx.firstCnp = true → ∀ k, ¬ t.IsPending k) (finished cnp : Bool) :
    Run.Along Timers.step Fresh t (receiveAckCalls c qp finished cnp) ∧
      (t.completed = false → ¬ (finished = true ∧ cnp = true ∧ qp.mlx.firstCnp = true) →
        Run.Along Timers.step Settled t (receiveAckCalls c qp finished cnp)) ∧
      (((receiveAckCalls c qp finished cnp).foldl call t).IsPending k ↔
        (cnp = true ∧ qp.mlx.firstCnp = true ∧ k ≠ .rpTimer) ∨
          (finished = false ∧ t.IsPending k)) := by
  have hcnp : receiveAckCalls c qp finished cnp =
      (if finished then qpCompleteCalls c else []) ++ if cnp then cnpReceivedCalls qp else [] := by
    simp [receiveAckCalls, hm]
  rw [hcnp]
  cases finished with
  | false =>
    obtain ⟨hfresh, hsettled, hpending⟩ := cnpReceivedCalls_spec (k := k) hfirst
    cases cnp with
    | false => exact ⟨trivial, fun _ _ => trivial, by simp⟩
    | true =>
      refine ⟨hfresh, fun hc _ => hsettled hc, hpending.trans ?_⟩
      simp
  | true =>
    obtain ⟨hfresh₁, hsettled₁, hnil, -⟩ := qpCompleteCalls_spec hm h
    have hnone := EventQueue.pending_eq_nil_iff.1 hnil
    cases cnp with
    | false =>
      simp only [if_true, Bool.false_eq_true, if_false, List.append_nil]
      refine ⟨hfresh₁, fun _ _ => hsettled₁, ?_⟩
      simp [hnone]
    | true =>
      obtain ⟨hfresh₂, -, hpending⟩ :=
        cnpReceivedCalls_spec (k := k) fun _ : qp.mlx.firstCnp = true => hnone
      simp only [if_true, List.foldl_append]
      refine ⟨Run.along_append hfresh₁ (exec_eq _ _) hfresh₂, fun _ hfin => ?_, ?_⟩
      · -- the notification is not the first one
        have hcalls : cnpReceivedCalls qp = [] := if_neg fun hf => hfin ⟨trivial, trivial, hf⟩
        rwa [hcalls, List.append_nil]
      · rw [hpending]
        simp [hnone]

/-! ### The Booleans of the controller -/

theorem flag_receiveAck (hm : c.ccMode = .dcqcn) (qp : Qp) (a : Ack) (k : MlxEvent) :
    flag (receiveAck c qp a).mlx k = true ↔
      (a.cnp = true ∧ qp.mlx.firstCnp = true ∧ k ≠ .rpTimer) ∨
        (a.finished = false ∧ flag qp.mlx k = true) := by
  cases hfin : a.finished <;> cases hcnp : a.cnp <;> cases hf : qp.mlx.firstCnp <;> cases k <;>
    simp [receiveAck, hm, hfin, hcnp, qpComplete, cnpReceivedMlx, hf, flag]

theorem firstCnp_receiveAck (hm : c.ccMode = .dcqcn) (qp : Qp) (a : Ack) :
    (receiveAck c qp a).mlx.firstCnp = true ↔ a.cnp = false ∧ qp.mlx.firstCnp = true := by
  cases hfin : a.finished <;> cases hcnp : a.cnp <;> cases hf : qp.mlx.firstCnp <;>
    simp [receiveAck, hm, hfin, hcnp, qpComplete, cnpReceivedMlx, hf]

theorem flag_rateIncEventMlx (qp : Qp) (k : MlxEvent) :
    flag (rateIncEventMlx c qp).mlx k = flag qp.mlx k := by
  rw [rateIncEventMlx]
  split_ifs <;> cases k <;> rfl

theorem flag_expiry (qp : Qp) (k j : MlxEvent) :
    flag (expiry c qp k).mlx j = true ↔
      (k = .decreaseRate ∧ qp.mlx.decreaseCnpArrived = true ∧ j = .rpTimer) ∨ j = k ∨
        flag qp.mlx j = true := by
  cases k with
  | updateAlpha => cases j <;> simp [expiry, updateAlphaMlx, flag]
  | decreaseRate =>
    cases hcnp : qp.mlx.decreaseCnpArrived <;> cases j <;>
      simp [expiry, checkRateDecreaseMlx, hcnp, flag]
  | rpTimer =>
    have hflag : flag (expiry c qp .rpTimer).mlx j =
        flag { qp.mlx with rpTimer := true } j := by
      rw [← flag_rateIncEventMlx (c := c) { qp with mlx := { qp.mlx with rpTimer := true } } j]
      cases j <;> rfl
    rw [hflag]
    cases j <;> simp [flag]

theorem firstCnp_expiry (qp : Qp) (k : MlxEvent) :
    (expiry c qp k).mlx.firstCnp = qp.mlx.firstCnp := by
  cases k with
  | updateAlpha => rfl
  | decreaseRate =>
    simp only [expiry, checkRateDecreaseMlx]
    split_ifs <;> rfl
  | rpTimer =>
    simp only [expiry, rateIncEventTimerMlx, rateIncEventMlx]
    split_ifs <;> rfl

/-! ### The invariant -/

namespace TimedQp

variable {q q' : TimedQp} {op : TimedOp}

/-- The handles refer to the events, the Booleans of the controller say which there are, and there
is none before the first congestion notification. -/
structure Inv (q : TimedQp) : Prop where
  tracked : q.timers.Tracked
  flags : ∀ k, flag q.cc.mlx k = true ↔ q.timers.IsPending k
  first : q.cc.mlx.firstCnp = true → ∀ k, ¬ q.timers.IsPending k

theorem inv_start (c : Config) (hw : RdmaHw) (f : Flow) (now : ℕ) (bps baseRtt : UInt64) :
    (start c hw f now bps baseRtt).Inv where
  tracked := EventQueue.tracked_empty
  flags k := by
    have hmlx : flag (start c hw f now bps baseRtt).cc.mlx k = false := by
      simp only [start, addQueuePair, initRates]
      split <;> cases k <;> rfl
    rw [hmlx]
    simp [start, EventQueue.not_isPending_empty]
  first _ _ := EventQueue.not_isPending_empty

/-- **What a step makes**: the calls, and the controller that goes with them. -/
inductive Step (c : Config) (hw : RdmaHw) (q : TimedQp) : TimedOp → List TimerCall → TimedQp → Prop
  | send (flow : RdmaQueuePair) : Step c hw q .send [] { q with flow := flow }
  | lost (r : Reply) (hc : q.timers.completed = true) : Step c hw q (.reply r) [] q
  | reply (r : Reply) (flow : RdmaQueuePair) (finished : Bool) (hc : q.timers.completed = false)
      (hp : hw.processAck q.flow r.ch = some (flow, finished)) :
      Step c hw q (.reply r) (receiveAckCalls c q.cc finished r.cnp)
        { flow := flow
          cc := receiveAck c q.cc (r.ack flow.sndNxt finished)
          timers := (receiveAckCalls c q.cc finished r.cnp).foldl call q.timers }
  | expire (i : ℕ) (k : MlxEvent) (hk : q.timers.kind? i = some k) :
      Step c hw q (.expire i) (.expire i :: expiryCalls q.cc k)
        { flow := q.flow
          cc := expiry c q.cc k
          timers := (TimerCall.expire i :: expiryCalls q.cc k).foldl call q.timers }
  | complete : Step c hw q .complete (qpCompleteCalls c)
      { flow := q.flow
        cc := qpComplete c q.cc
        timers := (qpCompleteCalls c).foldl call q.timers }

/-- A step is one of these, and makes these calls. -/
theorem step_spec (h : q.step c hw op = some q') : Step c hw q op (q.calls c hw op) q' := by
  obtain ⟨⟨flow, cc⟩, heff, rfl⟩ := Option.map_eq_some_iff.1 h
  cases op with
  | send =>
    obtain ⟨-, heq⟩ := Option.ite_none_left_eq_some.1 heff
    cases heq
    exact .send _
  | complete =>
    cases heff
    exact .complete
  | reply r =>
    cases hc : q.timers.completed with
    | true =>
      have hcalls : q.calls c hw (.reply r) = [] := by simp [calls, hc]
      simp only [effect, hc, if_true, Option.some.injEq, Prod.mk.injEq] at heff
      obtain ⟨rfl, rfl⟩ := heff
      rw [hcalls]
      exact .lost r hc
    | false =>
      simp only [effect, hc, Bool.false_eq_true, if_false] at heff
      obtain ⟨⟨flow', finished⟩, hp, heq⟩ := Option.map_eq_some_iff.1 heff
      cases heq
      have hcalls : q.calls c hw (.reply r) = receiveAckCalls c q.cc finished r.cnp := by
        simp [calls, hc, hp]
      rw [hcalls]
      exact .reply r flow' finished hc hp
  | expire i =>
    obtain ⟨k, hk, heq⟩ := Option.map_eq_some_iff.1 heff
    cases heq
    have hcalls : q.calls c hw (.expire i) = .expire i :: expiryCalls q.cc k := by
      simp [calls, hk]
    rw [hcalls]
    exact .expire i k hk

/-- What is not possible makes no calls. -/
theorem calls_of_step_eq_none (h : q.step c hw op = none) : q.calls c hw op = [] := by
  rw [step, Option.map_eq_none_iff] at h
  cases op with
  | send => rfl
  | complete => cases h
  | reply r =>
    cases hc : q.timers.completed with
    | true => simp [calls, hc]
    | false =>
      simp only [effect, hc, Bool.false_eq_true, if_false, Option.map_eq_none_iff] at h
      simp [calls, hc, h]
  | expire i =>
    rw [effect, Option.map_eq_none_iff] at h
    simp [calls, h]

/-- **No event is scheduled while there is one of its kind.** -/
theorem Inv.along_fresh (hm : c.ccMode = .dcqcn) (h : q.Inv) (op : TimedOp) :
    Run.Along Timers.step Fresh q.timers (q.calls c hw op) := by
  cases hstep : q.step c hw op with
  | none =>
    rw [calls_of_step_eq_none hstep]
    trivial
  | some q' =>
    have hspec := step_spec hstep
    generalize q.calls c hw op = as at hspec ⊢
    cases hspec with
    | send => trivial
    | lost => trivial
    | reply => exact (receiveAckCalls_spec (k := .rpTimer) hm h.tracked h.first _ _).1
    | expire i k hk =>
      exact (expiryCalls_spec (j := .rpTimer) h.tracked (EventQueue.mem_of_kind?_eq_some hk)).1
    | complete => exact (qpCompleteCalls_spec hm h.tracked).1

theorem Inv.step (hm : c.ccMode = .dcqcn) (h : q.Inv) (hstep : q.step c hw op = some q') :
    q'.Inv := by
  have hfresh : Run.Along Timers.step Fresh q.timers (q.calls c hw op) := h.along_fresh hm op
  have hspec := step_spec hstep
  generalize q.calls c hw op = as at hfresh hspec
  have htracked := foldl_tracked h.tracked hfresh
  cases hspec with
  | send => exact ⟨h.tracked, h.flags, h.first⟩
  | lost => exact h
  | complete =>
    have hnone := EventQueue.pending_eq_nil_iff.1 (qpCompleteCalls_spec hm h.tracked).2.2.1
    refine ⟨htracked, fun k => iff_of_false ?_ (hnone k), fun _ => hnone⟩
    cases k <;> simp [qpComplete, hm, flag]
  | reply r flow finished =>
    refine ⟨htracked, fun k => ?_, fun hfirst k => ?_⟩
    · rw [flag_receiveAck hm, (receiveAckCalls_spec hm h.tracked h.first _ _).2.2, ← h.flags]
      rfl
    · obtain ⟨hcnp, hfirst⟩ := (firstCnp_receiveAck hm _ _).1 hfirst
      have hcnp' : r.cnp = false := hcnp
      rw [(receiveAckCalls_spec hm h.tracked h.first _ _).2.2]
      simp [hcnp', h.first hfirst k]
  | expire i k hk =>
    have hmem := EventQueue.mem_of_kind?_eq_some hk
    have hpending : q.timers.IsPending k := ⟨i, hmem⟩
    refine ⟨htracked, fun j => ?_, fun hfirst => ?_⟩
    · rw [flag_expiry, (expiryCalls_spec h.tracked hmem).2.2, h.flags]
      refine or_congr_right ⟨?_, .inr⟩
      rintro (rfl | hj)
      · exact hpending
      · exact hj
    · rw [firstCnp_expiry] at hfirst
      exact absurd hpending (h.first hfirst k)

/-- The event of the controller. -/
def ccOp : MlxEvent → Op
  | .updateAlpha => .updateAlpha
  | .decreaseRate => .decreaseRate
  | .rpTimer => .rpTimer

/-- **An expiry is one of the controller**, whose Boolean says that the event is pending. -/
theorem step_cc (h : q.Inv) {i : ℕ} (hstep : q.step c hw (.expire i) = some q') :
    ∃ k, q.timers.kind? i = some k ∧ CongestionControl.step c q.cc (ccOp k) = some q'.cc := by
  have hspec := step_spec hstep
  generalize q.calls c hw (.expire i) = as at hspec
  cases hspec with
  | expire i k hk =>
    have hflag : flag q.cc.mlx k = true :=
      (h.flags k).2 ⟨i, EventQueue.mem_of_kind?_eq_some hk⟩
    refine ⟨k, hk, ?_⟩
    cases k with
    | updateAlpha => exact if_pos hflag
    | decreaseRate => exact if_pos hflag
    | rpTimer => exact if_pos hflag

/-! ### Completion -/

theorem completes_iff {ch : AckFrame} :
    q.Completes hw ch.seq ↔ ∃ flow, hw.processAck q.flow ch = some (flow, true) := by
  constructor
  · rintro ⟨hint, hchunk, hle⟩
    obtain ⟨⟨flow, finished⟩, hp⟩ : ∃ p, hw.processAck q.flow ch = some p := by
      rw [RdmaHw.processAck, if_neg hint, RdmaHw.acknowledge]
      cases hback : hw.backto0 with
      | false => exact ⟨_, rfl⟩
      | true =>
        rw [if_neg (hchunk hback)]
        exact ⟨_, rfl⟩
    obtain ⟨una, nxt, -, huna, -, hfin⟩ := RdmaHw.processAck_eq_some hp
    have hdone : finished = true := hfin.2 ⟨hint, huna ▸ hle⟩
    exact ⟨flow, hdone ▸ hp⟩
  · rintro ⟨flow, hp⟩
    obtain ⟨una, nxt, -, huna, -, hfin⟩ := RdmaHw.processAck_eq_some hp
    obtain ⟨hint, hle⟩ := hfin.1 rfl
    refine ⟨hint, fun hback hchunk => ?_, huna ▸ hle⟩
    rw [RdmaHw.processAck, if_neg hint, RdmaHw.acknowledge] at hp
    simp [hback, hchunk] at hp

/-- No event is left by `QpComplete`, or scheduled after it, unless the reply that completes the
queue pair carries the first congestion notification. -/
theorem Inv.along_settled (hm : c.ccMode = .dcqcn) (h : q.Inv)
    (hc : q.timers.completed = true → q.timers.pending = [])
    (hclean : ¬ q.CompletesOnFirstCnp hw op) :
    Run.Along Timers.step Settled q.timers (q.calls c hw op) := by
  cases hstep : q.step c hw op with
  | none =>
    rw [calls_of_step_eq_none hstep]
    trivial
  | some q' =>
    have hspec := step_spec hstep
    generalize q.calls c hw op = as at hspec ⊢
    cases hspec with
    | send => trivial
    | lost => trivial
    | reply r flow finished hopen hp =>
      refine (receiveAckCalls_spec (k := .rpTimer) hm h.tracked h.first _ _).2.1 hopen ?_
      rintro ⟨rfl, hcnp, hfirst⟩
      exact hclean ⟨hopen, completes_iff.2 ⟨flow, hp⟩, hcnp, hfirst⟩
    | expire i k hk =>
      have hmem := EventQueue.mem_of_kind?_eq_some hk
      refine (expiryCalls_spec (j := .rpTimer) h.tracked hmem).2.1 ?_
      by_contra hopen
      rw [hc (by simpa using hopen)] at hmem
      cases hmem
    | complete => exact (qpCompleteCalls_spec hm h.tracked).2.1

/-- **One step** keeps the events in order exactly if it does not complete the queue pair on its
first congestion notification. -/
theorem Inv.keepsDiscipline_iff (hm : c.ccMode = .dcqcn) (h : q.Inv)
    (hc : q.timers.completed = true → q.timers.pending = []) :
    q.KeepsDiscipline c hw op ↔ ¬ q.CompletesOnFirstCnp hw op := by
  constructor
  · intro hkeeps hbad
    cases op with
    | send => exact hbad
    | expire i => exact hbad
    | complete => exact hbad
    | reply r =>
      obtain ⟨hopen, hcompletes, hcnp, hfirst⟩ := hbad
      obtain ⟨flow, hp⟩ := completes_iff.1 hcompletes
      have hcalls : q.calls c hw (.reply r) =
          qpCompleteCalls c ++ [.schedule .updateAlpha, .schedule .decreaseRate] := by
        simp [calls, hopen, hp, receiveAckCalls, hcnp, hm, cnpReceivedCalls, hfirst]
      have hquiet := hkeeps.2
      rw [hcalls, qpCompleteCalls, if_pos hm] at hquiet
      simp [Quiet, call] at hquiet
  · intro hclean
    have hsettled := h.along_settled hm hc hclean
    refine ⟨always_disciplined h.tracked hc (h.along_fresh hm op) hsettled,
      hsettled.mono fun t a _ ha => ?_⟩
    cases a with
    | schedule k => exact ha
    | expire i => trivial
    | cancel k => trivial
    | completed => trivial

/-- At every moment of a run there is at most one event of each kind, and its handle refers to it,
whatever the replies carry. -/
theorem along_tracked (hm : c.ccMode = .dcqcn) (hw : RdmaHw) (f : Flow) (now : ℕ)
    (bps baseRtt : UInt64) (ops : List TimedOp) :
    Run.Along (TimedQp.step c hw)
      (fun q op => Run.Always Timers.step (fun t => t.Tracked) q.timers (q.calls c hw op))
      (start c hw f now bps baseRtt) ops := by
  have hall : Run.Along (TimedQp.step c hw) (fun _ _ => True) (start c hw f now bps baseRtt) ops :=
    Run.along_of_forall (fun _ _ _ => trivial) _
  refine (Run.along_iff_along (I := Inv) (fun q op _ h => ⟨fun _ => ?_, fun _ => trivial⟩)
    (fun _ _ _ h _ hstep => h.step hm hstep) (inv_start c hw f now bps baseRtt)).1 hall
  exact Run.always_of_invariant (I := fun t : Timers => t.Tracked)
    (fun _ _ _ h ha hstep => Option.some.inj hstep ▸ call_tracked h ha) (fun _ h => h) h.tracked
    (h.along_fresh hm op)

/-- **The timers of DCQCN.** In a run of a queue pair there is at every moment at most one event of
each kind, its handle refers to it, and once `QpComplete` has run there is none and none is
scheduled, exactly if no reply that completes the queue pair carries its first congestion
notification. -/
theorem disciplined_iff (hm : c.ccMode = .dcqcn) (hw : RdmaHw) (f : Flow) (now : ℕ)
    (bps baseRtt : UInt64) (ops : List TimedOp) :
    Run.Along (TimedQp.step c hw) (fun q op => q.KeepsDiscipline c hw op)
        (start c hw f now bps baseRtt) ops ↔
      Run.Along (TimedQp.step c hw) (fun q op => ¬ q.CompletesOnFirstCnp hw op)
        (start c hw f now bps baseRtt) ops := by
  refine Iff.symm (Run.along_iff_along
    (I := fun q => q.Inv ∧ (q.timers.completed = true → q.timers.pending = []))
    (fun q op _ h => (h.1.keepsDiscipline_iff hm h.2).symm) (fun q op q' h hclean hstep => ?_)
    ⟨inv_start c hw f now bps baseRtt, fun _ => rfl⟩)
  have hlast := ((h.1.keepsDiscipline_iff hm h.2).2 hclean).1.last (exec_eq _ _)
  refine ⟨h.1.step hm hstep, ?_⟩
  obtain ⟨-, -, rfl⟩ := Option.map_eq_some_iff.1 hstep
  exact hlast.completed

/-- A flow of 1000 bytes with DCQCN at 100 Gb/s. -/
def dcqcnStart : TimedQp :=
  start (.defaults .dcqcn 100000000000 ⟨.normal, 1, 1⟩) ⟨1000, 4000, 1, 500000, false, false⟩
    ⟨1000, 3, 0x0b000001, 0x0b000101, 10000, 100, 0⟩ 0 100000000000 8000

/-- The ACK of all bytes, with or without a congestion notification. -/
def lastAck (cnp : Bool) : Reply := { bareAck 1000 0 with cnp := cnp }

/-- An ACK of nothing starts the events, and the last one cancels them. -/
theorem disciplined_iff_twoAcks :
    Run.Along (TimedQp.step (.defaults .dcqcn 100000000000 ⟨.normal, 1, 1⟩)
        ⟨1000, 4000, 1, 500000, false, false⟩)
      (fun q op => q.KeepsDiscipline (.defaults .dcqcn 100000000000 ⟨.normal, 1, 1⟩)
        ⟨1000, 4000, 1, 500000, false, false⟩ op)
      dcqcnStart
      [.send, .reply { bareAck 0 0 with cnp := true }, .expire 0, .expire 1,
        .reply (lastAck true)] :=
  (disciplined_iff rfl _ _ _ _ _ _).2 (by decide +kernel)

/-- **The first notification on the last ACK**: two events are scheduled after `QpComplete`. -/
theorem lastAck_not_disciplined :
    ¬ ∀ (c : Config) (hw : RdmaHw), c.ccMode = .dcqcn → ∀ f now bps baseRtt ops,
      Run.Along (TimedQp.step c hw) (fun q op => q.KeepsDiscipline c hw op)
        (start c hw f now bps baseRtt) ops := by
  intro h
  have hkeeps := h (.defaults .dcqcn 100000000000 ⟨.normal, 1, 1⟩)
    ⟨1000, 4000, 1, 500000, false, false⟩ rfl
    ⟨1000, 3, 0x0b000001, 0x0b000101, 10000, 100, 0⟩ 0 100000000000 8000
    [.send, .reply (lastAck true)]
  have hsent : TimedQp.step (.defaults .dcqcn 100000000000 ⟨.normal, 1, 1⟩)
      ⟨1000, 4000, 1, 500000, false, false⟩ dcqcnStart .send = some _ := rfl
  have hquiet := (hkeeps.2 _ hsent).1.2
  revert hquiet
  decide +kernel

end TimedQp

end CongestionControl

end HpccSim
