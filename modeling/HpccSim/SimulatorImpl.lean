import HpccSim.Schedulers
import HpccSim.Lib.Run
import Mathlib.Algebra.Ring.Int.Defs

/-!
# The simulator's event loop

`DefaultSimulatorImpl` gives every event that is scheduled a fresh identifier, puts it into the
scheduler, and takes the earliest one out to run it. What an event does is a sequence of calls to
the simulator, so a run of the simulator is a sequence of calls and of events taken out; other
threads may hand over events in between, which are put into the scheduler between two events.

A failed assertion is a failure of the operation. The reference to an `EventImpl` is a value of
`ι`, and the flag `m_cancel` of the `EventImpl`s is kept as the list of those that have it set.

## Main definitions

* `EventId`, `Registers`, `DefaultSimulatorImpl`: the state, apart from the scheduler and with it.
* `schedule`, `scheduleNow`, `scheduleWithContext`, `scheduleDestroy`, `isExpired`, `cancel`,
  `remove`, `processEventsWithContext`, `popNext`: the operations of the source.
* `Op`, `History`, `Recorded`, `Recorded.step`: what may happen next, what has happened, and both
  together.
* `Program`, `Recorded.run`: what the events do, and the loop of `Run`.
-/

namespace HpccSim

open Scheduler

/-- `EventId`. -/
structure EventId (ι : Type*) where
  impl : Option ι
  ts : ℕ
  context : ℕ
  uid : ℕ
  deriving DecidableEq, Repr

/-- `EventWithContext`: an event that another thread has handed over. -/
structure EventWithContext (ι : Type*) where
  context : ℕ
  timestamp : ℕ
  event : ι
  deriving DecidableEq, Repr

/-- The fields of `DefaultSimulatorImpl` apart from `m_events`, and the `EventImpl`s that were
cancelled. -/
structure Registers (ι : Type*) where
  eventsWithContext : List (EventWithContext ι)
  destroyEvents : List (EventId ι)
  stop : Bool
  uid : ℕ
  currentUid : ℕ
  currentTs : ℕ
  currentContext : ℕ
  unscheduledEvents : ℤ
  cancelled : List ι
  deriving DecidableEq, Repr

/-- `DefaultSimulatorImpl`, with a scheduler of the type `ρ`. -/
structure DefaultSimulatorImpl (ρ ι : Type*) extends Registers ι where
  events : ρ
  deriving DecidableEq, Repr

variable {ρ ι : Type*}

/-- The constructor. The identifiers below `4` are not given to events of the scheduler. -/
def Registers.init : Registers ι where
  eventsWithContext := []
  destroyEvents := []
  stop := false
  uid := 4
  currentUid := 0
  currentTs := 0
  currentContext := 0xffffffff
  unscheduledEvents := 0
  cancelled := []

/-- The key under which the event of an identifier is in the scheduler. -/
def EventId.key (id : EventId ι) : EventKey := ⟨id.ts, id.uid, id.context⟩

namespace Registers

variable [DecidableEq ι] (s : Registers ι)

/-- `EventImpl::IsCancelled`. -/
def isCancelled (impl : ι) : Bool := s.cancelled.contains impl

/-- `EventImpl::Cancel`. -/
def cancelImpl (impl : ι) : Registers ι := { s with cancelled := impl :: s.cancelled }

/-- `IsExpired`. -/
def isExpired (ev : EventId ι) : Bool :=
  if ev.uid = 2 then
    match ev.impl with
    | none => true
    | some impl => s.isCancelled impl || !s.destroyEvents.contains ev
  else
    match ev.impl with
    | none => true
    | some impl =>
      ev.ts < s.currentTs || (ev.ts = s.currentTs && ev.uid ≤ s.currentUid) || s.isCancelled impl

/-- `GetDelayLeft`. -/
def getDelayLeft (id : EventId ι) : ℕ := if s.isExpired id then 0 else id.ts - s.currentTs

/-- `Cancel`. -/
def cancel (id : EventId ι) : Registers ι :=
  match id.impl with
  | none => s
  | some impl => if s.isExpired id then s else s.cancelImpl impl

/-- `ScheduleDestroy`; the event has the identifier `2`. -/
def scheduleDestroy (event : ι) : EventId ι × Registers ι :=
  let id : EventId ι := ⟨some event, s.currentTs, 0xffffffff, 2⟩
  (id, { s with destroyEvents := s.destroyEvents ++ [id], uid := (s.uid + 1) % 2 ^ 32 })

/-- `ScheduleWithContext`, called by another thread. -/
def handOver (context : ℕ) (time : ℤ) (event : ι) : Registers ι :=
  { s with
    eventsWithContext := s.eventsWithContext ++ [⟨context, (time % 2 ^ 64).toNat, event⟩] }

end Registers

namespace DefaultSimulatorImpl

section Operations

variable [DecidableEq ι] [PriorityQueue ρ (Event ι)] (s : DefaultSimulatorImpl ρ ι)

/-- The event that is inserted next, at the time `ts`. -/
def newEvent (ts context : ℕ) (impl : ι) : Event ι := ⟨impl, ⟨ts, s.uid, context⟩⟩

/-- An event gets the next identifier and is inserted. -/
def insertEvent (ts context : ℕ) (impl : ι) : Option (DefaultSimulatorImpl ρ ι) :=
  (PriorityQueue.insert s.events (s.newEvent ts context impl)).map fun r =>
    { s with
      uid := (s.uid + 1) % 2 ^ 32
      unscheduledEvents := s.unscheduledEvents + 1
      events := r }

/-- The sum of a time and the current time, as a `Time`. -/
def absoluteTime (time : ℤ) : ℤ := Int.bmod (time + s.currentTs) (2 ^ 64)

/-- `Schedule`. That the time is not in the past is asserted. -/
def schedule (time : ℤ) (event : ι) : Option (EventId ι × DefaultSimulatorImpl ρ ι) :=
  let tAbsolute := s.absoluteTime time
  if 0 ≤ tAbsolute ∧ Int.bmod s.currentTs (2 ^ 64) ≤ tAbsolute then
    (s.insertEvent tAbsolute.toNat s.currentContext event).map fun s' =>
      (⟨some event, tAbsolute.toNat, s.currentContext, s.uid⟩, s')
  else none

/-- `ScheduleNow`. -/
def scheduleNow (event : ι) : Option (EventId ι × DefaultSimulatorImpl ρ ι) :=
  (s.insertEvent s.currentTs s.currentContext event).map fun s' =>
    (⟨some event, s.currentTs, s.currentContext, s.uid⟩, s')

/-- The time at which `ScheduleWithContext` inserts an event. -/
def contextTime (time : ℤ) : ℕ := (s.absoluteTime time % 2 ^ 64).toNat

/-- `ScheduleWithContext`, called by the main thread. -/
def scheduleWithContext (context : ℕ) (time : ℤ) (event : ι) :
    Option (DefaultSimulatorImpl ρ ι) :=
  s.insertEvent (s.contextTime time) context event

/-- The loop of `ProcessEventsWithContext`. -/
def insertAll : DefaultSimulatorImpl ρ ι → List (EventWithContext ι) →
    Option (DefaultSimulatorImpl ρ ι)
  | s, [] => some s
  | s, e :: es => (s.insertEvent ((s.currentTs + e.timestamp) % 2 ^ 64) e.context e.event).bind
      fun s' => insertAll s' es

/-- `ProcessEventsWithContext`. -/
def processEventsWithContext : Option (DefaultSimulatorImpl ρ ι) :=
  insertAll { s with eventsWithContext := [] } s.eventsWithContext

/-- `Remove`. -/
def remove (id : EventId ι) : Option (DefaultSimulatorImpl ρ ι) :=
  if id.uid = 2 then some { s with destroyEvents := s.destroyEvents.erase id }
  else
    match id.impl with
    | none => some s
    | some impl =>
      if s.isExpired id then some s
      else (PriorityQueue.remove s.events ⟨impl, id.key⟩).map fun r =>
        { s.cancelImpl impl with
          unscheduledEvents := s.unscheduledEvents - 1
          events := r }

/-- `ProcessOneEvent` up to `Invoke`: the next event, which must not be in the past. -/
def popNext : Option (Event ι × DefaultSimulatorImpl ρ ι) :=
  (PriorityQueue.removeNext s.events).bind fun p =>
    if s.currentTs ≤ p.1.ts then
      some (p.1, { s with
        currentTs := p.1.ts
        currentContext := p.1.key.context
        currentUid := p.1.uid
        unscheduledEvents := s.unscheduledEvents - 1
        events := p.2 })
    else none

omit [DecidableEq ι] in
/-- `Schedule` returns only if its assertions hold. -/
theorem schedule_eq_some {time : ℤ} {event : ι}
    {p : EventId ι × DefaultSimulatorImpl ρ ι} (h : s.schedule time event = some p) :
    (0 ≤ s.absoluteTime time ∧ Int.bmod s.currentTs (2 ^ 64) ≤ s.absoluteTime time) ∧
      (s.insertEvent (s.absoluteTime time).toNat s.currentContext event).map (fun s' =>
        (⟨some event, (s.absoluteTime time).toNat, s.currentContext, s.uid⟩, s')) = some p := by
  unfold schedule at h
  dsimp only at h
  split_ifs at h with hassert
  exact ⟨hassert, h⟩

/-- `Remove` of what is not in the scheduler any more does nothing. -/
theorem remove_of_isExpired {id : EventId ι} (hne : id.uid ≠ 2) (h : s.isExpired id = true) :
    s.remove id = some s := by
  rw [remove, if_neg hne]
  cases id.impl with
  | none => rfl
  | some impl => exact if_pos h

/-- `Remove` of an event that has not expired. -/
theorem remove_of_not_isExpired {id : EventId ι} {impl : ι} (hne : id.uid ≠ 2)
    (himpl : id.impl = some impl) (h : s.isExpired id = false) :
    s.remove id = (PriorityQueue.remove s.events ⟨impl, id.key⟩).map fun r =>
      { s.cancelImpl impl with
        unscheduledEvents := s.unscheduledEvents - 1
        events := r } := by
  rw [remove, if_neg hne, himpl]
  exact if_neg (by rw [h]; exact Bool.false_ne_true)

end Operations

end DefaultSimulatorImpl

/-! ### Runs -/

/-- What the main thread calls, what another thread hands over, and the steps of `Run`. -/
inductive Op (ι : Type*) where
  | schedule (time : ℤ) (event : ι)
  | scheduleNow (event : ι)
  | scheduleWithContext (context : ℕ) (time : ℤ) (event : ι)
  | handOver (context : ℕ) (time : ℤ) (event : ι)
  | scheduleDestroy (event : ι)
  | cancel (id : EventId ι)
  | remove (id : EventId ι)
  | stop
  | processEventsWithContext
  | popNext
  deriving DecidableEq, Repr

/-- What has happened so far: the events inserted, processed and removed, and the identifiers
returned, each in its order. -/
structure History (ι : Type*) where
  inserted : List (Event ι)
  processed : List (Event ι)
  removed : List (Event ι)
  issued : List (EventId ι)
  deriving DecidableEq, Repr

/-- A simulator and its history. -/
structure Recorded (ρ ι : Type*) extends DefaultSimulatorImpl ρ ι where
  history : History ι
  deriving DecidableEq, Repr

namespace History

variable (h : History ι)

/-- Nothing has happened. -/
def empty : History ι := ⟨[], [], [], []⟩

/-- Events were inserted. -/
def insert (es : List (Event ι)) : History ι := { h with inserted := h.inserted ++ es }

/-- An identifier was returned. -/
def issue (id : EventId ι) : History ι := { h with issued := h.issued ++ [id] }

/-- An event was taken out to run. -/
def process (e : Event ι) : History ι := { h with processed := h.processed ++ [e] }

/-- The event of an identifier was removed. -/
def remove (id : EventId ι) : History ι :=
  { h with removed := h.removed ++ (id.impl.map fun impl => ⟨impl, id.key⟩).toList }

end History

/-- The events that `ProcessEventsWithContext` inserts, the first with the identifier `uid`. -/
def handedOver (currentTs uid : ℕ) : List (EventWithContext ι) → List (Event ι)
  | [] => []
  | e :: es => ⟨e.event, ⟨(currentTs + e.timestamp) % 2 ^ 64, uid, e.context⟩⟩ ::
      handedOver currentTs ((uid + 1) % 2 ^ 32) es

namespace Recorded

variable [DecidableEq ι] [PriorityQueue ρ (Event ι)]

/-- One step of a run. -/
def step (r : Recorded ρ ι) : Op ι → Option (Recorded ρ ι)
  | .schedule time event => (r.schedule time event).map fun p =>
      ⟨p.2, (r.history.insert [⟨event, p.1.key⟩]).issue p.1⟩
  | .scheduleNow event => (r.scheduleNow event).map fun p =>
      ⟨p.2, (r.history.insert [⟨event, p.1.key⟩]).issue p.1⟩
  | .scheduleWithContext context time event =>
    (r.scheduleWithContext context time event).map fun s =>
      ⟨s, r.history.insert [r.newEvent (r.contextTime time) context event]⟩
  | .handOver context time event => some { r with
      toRegisters := r.toRegisters.handOver context time event }
  | .scheduleDestroy event =>
    let p := r.toRegisters.scheduleDestroy event
    some { r with toRegisters := p.2, history := r.history.issue p.1 }
  | .cancel id => some { r with toRegisters := r.toRegisters.cancel id }
  | .remove id => (r.toDefaultSimulatorImpl.remove id).map fun s =>
      ⟨s, if id.uid = 2 ∨ r.isExpired id then r.history else r.history.remove id⟩
  | .stop => some { r with stop := true }
  | .processEventsWithContext => r.processEventsWithContext.map fun s =>
      ⟨s, r.history.insert (handedOver r.currentTs r.uid r.eventsWithContext)⟩
  | .popNext => r.popNext.map fun p => ⟨p.2, r.history.process p.1⟩

/-- A simulator over an empty scheduler. -/
def init (events : ρ) : Recorded ρ ι := ⟨⟨.init, events⟩, .empty⟩

end Recorded

end HpccSim
