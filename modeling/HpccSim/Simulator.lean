import HpccSim.HeapScheduler
import HpccSim.CalendarScheduler
import HpccSim.SchedulerChoice

/-!
# The simulator with the schedulers of the source

The type of the scheduler is set by a global value, and the simulator calls it through its base
class. So a scheduler is one of four kinds, and the results on a run of the simulator hold for each
of them. The calendar may divide by zero, so that no assertion fails is shown for the other three.

The runs are those of `Recorded.Admissible`: the identifiers do not run out, `ScheduleWithContext`
asks for no time in the past, identifiers are used as they were returned, and over a heap a pending
event is removed only where that keeps the heap one.

## Main definitions

* `SchedulerType`, `AnyScheduler`, `AnyScheduler.create`.
* `ExactScheduler`: a list, a map or a heap.

## Main results

* `AnyScheduler.events_run_once_in_order`, `AnyScheduler.isExpired_exact`.
* `ExactScheduler.no_assertion_fails`.
* `ExactScheduler.replaced_scheduler_runs_alike`.
-/

namespace HpccSim

open Scheduler

variable {ι σ : Type*} [DecidableEq ι] [Inhabited ι]

/-- The kinds of schedulers. -/
inductive SchedulerType where
  | list
  | map
  | heap
  | calendar
  deriving DecidableEq, Repr

/-- A list, a map or a heap. -/
abbrev ExactScheduler (ι : Type*) := ListScheduler ι ⊕ MapScheduler ι ⊕ HeapScheduler ι

/-- A scheduler of one of the four kinds. -/
abbrev AnyScheduler (ι : Type*) := ExactScheduler ι ⊕ CalendarScheduler ι

namespace ExactScheduler

/-- The events of the scheduler. -/
def Rep (q : ExactScheduler ι) : ℕ → Multiset (Event ι) → Prop :=
  q.elim ListScheduler.Rep fun q => q.elim MapScheduler.Rep HeapScheduler.Rep

/-- A heap may remove only what keeps it one. -/
def CanRemove (q : ExactScheduler ι) : Event ι → Prop :=
  q.elim (fun _ _ => True) fun q => q.elim (fun _ _ => True) HeapScheduler.CanRemove

theorem lawful : Lawful (ι := ι) Rep CanRemove :=
  ListScheduler.lawful.sum (MapScheduler.lawful.sum (HeapScheduler.lawful IsTime Event.ts))

theorem reliable : Reliable (ι := ι) (ρ := ExactScheduler ι) Rep :=
  ListScheduler.reliable.sum (MapScheduler.reliable.sum (HeapScheduler.reliable IsTime Event.ts))

end ExactScheduler

namespace AnyScheduler

/-- The scheduler that the factory creates. -/
def create : SchedulerType → AnyScheduler ι
  | .list => .inl (.inl ⟨[]⟩)
  | .map => .inl (.inr (.inl ⟨[]⟩))
  | .heap => .inl (.inr (.inr .init))
  | .calendar => .inr .new

/-- The events of the scheduler. -/
def Rep (q : AnyScheduler ι) : ℕ → Multiset (Event ι) → Prop :=
  q.elim ExactScheduler.Rep CalendarScheduler.Rep

/-- A heap may remove only what keeps it one. -/
def CanRemove (q : AnyScheduler ι) : Event ι → Prop :=
  q.elim ExactScheduler.CanRemove fun _ _ => True

theorem lawful : Lawful (ι := ι) Rep CanRemove :=
  ExactScheduler.lawful.sum CalendarScheduler.lawful

omit [DecidableEq ι] in
theorem rep_create (k : SchedulerType) : Rep (create k : AnyScheduler ι) 0 0 := by
  cases k
  · exact ListScheduler.rep_empty 0
  · exact MapScheduler.rep_empty 0
  · exact HeapScheduler.rep_init 0
  · exact CalendarScheduler.rep_new

instance : ∀ (q : AnyScheduler ι) (e : Event ι), Decidable (q.CanRemove e)
  | .inl (.inl _), _ => isTrue trivial
  | .inl (.inr (.inl _)), _ => isTrue trivial
  | .inl (.inr (.inr q)), e => inferInstanceAs (Decidable (q.CanRemove e))
  | .inr _, _ => isTrue trivial

/-- **Every event once, in order**: in every admissible run, whatever its events do, those processed
come in the order of their times and, at the same time, of their identifiers, which increase along
the insertions; each event inserted was processed once, was removed or is still pending, and those
pending come after all that were processed. -/
theorem events_run_once_in_order (k : SchedulerType) {ops : List (Op ι)}
    {r : Recorded (AnyScheduler ι) ι}
    (hadm : Run.Along Recorded.step (Recorded.Admissible CanRemove) (.init (create k)) ops)
    (hrun : Run.exec Recorded.step (.init (create k)) ops = some r) :
    r.history.processed.Pairwise (fun a b => a.rank < b.rank) ∧
      r.history.inserted.Pairwise (fun a b => a.uid < b.uid) ∧
      ∃ f pending, r.events.Rep f pending ∧ r.unscheduledEvents = pending.card ∧
        (r.history.inserted : Multiset (Event ι)) = (r.history.processed : Multiset (Event ι)) +
          (r.history.removed : Multiset (Event ι)) + pending ∧
        ∀ e ∈ r.history.processed, ∀ e' ∈ pending, e.rank < e'.rank := by
  obtain ⟨f, pending, h⟩ := Recorded.exists_consistent lawful (rep_create k) hadm hrun
  exact ⟨h.sorted, h.increasing, f, pending, h.rep, h.unscheduled, h.accounts, fun e he e' he' =>
    (h.processed_le e he).trans_lt (h.later e' he')⟩

/-- Two events are scheduled and a third one at once; the first is removed before its time. -/
theorem events_run_once_in_order_heap :
    ∃ r : Recorded (AnyScheduler ℕ) ℕ,
      Run.exec Recorded.step (.init (create .heap)) [.schedule 10 0, .schedule 5 1, .scheduleNow 2,
        .popNext, .remove ⟨some 0, 10, 0xffffffff, 4⟩, .popNext] = some r ∧
      r.history.processed.map Event.impl = [2, 1] ∧
      r.history.processed.Pairwise (fun a b => a.rank < b.rank) := by
  obtain ⟨r, hrun, himpl⟩ := Option.map_eq_some_iff.1 (show (Run.exec Recorded.step
    (.init (create .heap : AnyScheduler ℕ)) [.schedule 10 0, .schedule 5 1, .scheduleNow 2,
      .popNext, .remove ⟨some 0, 10, 0xffffffff, 4⟩, .popNext]).map
        (fun r => r.history.processed.map Event.impl) = some [2, 1] by decide +kernel)
  exact ⟨r, hrun, himpl, (events_run_once_in_order .heap (by decide +kernel) hrun).1⟩

/-- **`IsExpired` is exact**: in every admissible run, an identifier returned by `Schedule` or
`ScheduleNow` has expired exactly if its event was taken out to run, was removed, or has a cancelled
`EventImpl`. A heap that a removal has broken may run events out of order, and then it is not. -/
theorem isExpired_exact (k : SchedulerType) {ops : List (Op ι)}
    {r : Recorded (AnyScheduler ι) ι} {id : EventId ι}
    (hadm : Run.Along Recorded.step (Recorded.Admissible CanRemove) (.init (create k)) ops)
    (hrun : Run.exec Recorded.step (.init (create k)) ops = some r)
    (hid : id ∈ r.history.issued) (hne : id.uid ≠ 2) :
    ∃ impl, id.impl = some impl ∧ ⟨impl, id.key⟩ ∈ r.history.inserted ∧
      (r.isExpired id = true ↔ ⟨impl, id.key⟩ ∈ r.history.processed ∨
        ⟨impl, id.key⟩ ∈ r.history.removed ∨ impl ∈ r.cancelled) :=
  Recorded.isExpired_iff lawful (rep_create k) hadm hrun hid hne

/-- Of two events at the same time the first has expired when it runs, and the second has not. -/
theorem isExpired_exact_map :
    ∃ r : Recorded (AnyScheduler ℕ) ℕ,
      Run.exec Recorded.step (.init (create .map))
        [.schedule 5 0, .schedule 5 1, .popNext] = some r ∧
      (r.isExpired ⟨some 0, 5, 0xffffffff, 4⟩ = true ↔
        (⟨0, 5, 4, 0xffffffff⟩ : Event ℕ) ∈ r.history.processed ∨
          ⟨0, 5, 4, 0xffffffff⟩ ∈ r.history.removed ∨ 0 ∈ r.cancelled) ∧
      r.isExpired ⟨some 1, 5, 0xffffffff, 5⟩ = false := by
  obtain ⟨r, hrun, hobs⟩ := Option.map_eq_some_iff.1 (show (Run.exec Recorded.step
    (.init (create .map : AnyScheduler ℕ)) [.schedule 5 0, .schedule 5 1, .popNext]).map
      (fun r => (r.history.issued, r.isExpired ⟨some 1, 5, 0xffffffff, 5⟩)) =
        some ([⟨some 0, 5, 0xffffffff, 4⟩, ⟨some 1, 5, 0xffffffff, 5⟩], false) by decide +kernel)
  obtain ⟨hissued, hnot⟩ := Prod.mk.inj hobs
  obtain ⟨impl, himpl, -, hiff⟩ := isExpired_exact .map (by decide +kernel) hrun
    (show ⟨some 0, 5, 0xffffffff, 4⟩ ∈ _ by rw [hissued]; exact List.mem_cons_self) (by decide)
  cases himpl
  exact ⟨r, hrun, hiff, hnot⟩

end AnyScheduler

namespace ExactScheduler

/-- An empty list, map or heap. -/
def IsNew (q : ExactScheduler ι) : Prop :=
  q = .inl ⟨[]⟩ ∨ q = .inr (.inl ⟨[]⟩) ∨ q = .inr (.inr .init)

omit [DecidableEq ι] in
theorem IsNew.rep {q : ExactScheduler ι} (h : q.IsNew) : q.Rep 0 0 := by
  rcases h with rfl | rfl | rfl
  · exact ListScheduler.rep_empty 0
  · exact MapScheduler.rep_empty 0
  · exact HeapScheduler.rep_init 0

instance (q : ExactScheduler ι) (e : Event ι) : Decidable (q.CanRemove e) :=
  inferInstanceAs (Decidable (AnyScheduler.CanRemove (.inl q) e))

/-- **No assertion fails and no event is lost**: over a list, a map or a heap every admissible run
goes through in which `Schedule` is not asked for a time in the past either and an event is taken
out only when there is one; and when the scheduler is empty at its end, the counter that `Run`
checks is `0` and every event inserted was processed or removed, once. -/
theorem no_assertion_fails {events : ExactScheduler ι} (hnew : events.IsNew) {ops : List (Op ι)}
    (hadm : Run.Along Recorded.step
      (fun r op => Recorded.Admissible CanRemove r op ∧ Recorded.Possible r op) (.init events)
      ops) :
    ∃ r, Run.exec Recorded.step (.init events) ops = some r ∧
      (PriorityQueue.isEmpty r.events = true → r.unscheduledEvents = 0 ∧
        r.history.inserted.Perm (r.history.processed ++ r.history.removed)) := by
  obtain ⟨r, hrun, -, -, hend⟩ := Recorded.exists_run lawful reliable hnew.rep hadm
  exact ⟨r, hrun, hend⟩

/-- A run over a heap, to its end. -/
theorem no_assertion_fails_heap :
    ∃ r, Run.exec Recorded.step (.init (.inr (.inr .init) : ExactScheduler ℕ))
        [.schedule 7 0, .schedule 3 1, .popNext, .popNext] = some r ∧
      (PriorityQueue.isEmpty r.events = true → r.unscheduledEvents = 0 ∧
        r.history.inserted.Perm (r.history.processed ++ r.history.removed)) :=
  no_assertion_fails (.inr (.inr rfl)) (by decide +kernel)

/-- **A replaced scheduler changes nothing**: after any admissible run over a list, a map or a heap,
`SetScheduler` with a new list succeeds; from then on, for every program whose events do only what
is admissible over the scheduler that was replaced, `Run` over the list ends in the same state of
the program, with the same registers and the same history as it does over that one. -/
theorem replaced_scheduler_runs_alike {events : ExactScheduler ι} (hnew : events.IsNew)
    {ops : List (Op ι)} {r : Recorded (ExactScheduler ι) ι}
    (hadm : Run.Along Recorded.step (Recorded.Admissible CanRemove) (.init events) ops)
    (hrun : Run.exec Recorded.step (.init events) ops = some r) {n : ℕ}
    (hn : r.unscheduledEvents ≤ n) :
    ∃ r', Recorded.setScheduler r n (⟨[]⟩ : ListScheduler ι) = some r' ∧
      ∀ (prog : Program σ ι) (m : ℕ) (st st' : σ) (t : Recorded (ExactScheduler ι) ι),
        Recorded.RunsAlong (Recorded.Admissible CanRemove) prog m st r →
        Recorded.run prog m st r = some (st', t) →
        ∃ t', Recorded.run prog m st r' = some (st', t') ∧ t.toRegisters = t'.toRegisters ∧
          t.history = t'.history :=
  Recorded.run_setScheduler lawful reliable ListScheduler.lawful ListScheduler.reliable hnew.rep
    (ListScheduler.rep_empty 0) hadm hrun hn

/-- Two events pending in a heap are moved into a list. -/
theorem replaced_scheduler_runs_alike_heap :
    ∃ r : Recorded (ExactScheduler ℕ) ℕ,
      Run.exec Recorded.step (.init (.inr (.inr .init))) [.schedule 7 0, .schedule 3 1] = some r ∧
      ∃ r', Recorded.setScheduler r 2 (⟨[]⟩ : ListScheduler ℕ) = some r' ∧
        ∀ (prog : Program ℕ ℕ) (m : ℕ) (st st' : ℕ) (t : Recorded (ExactScheduler ℕ) ℕ),
          Recorded.RunsAlong (Recorded.Admissible CanRemove) prog m st r →
          Recorded.run prog m st r = some (st', t) →
          ∃ t', Recorded.run prog m st r' = some (st', t') ∧ t.toRegisters = t'.toRegisters ∧
            t.history = t'.history := by
  obtain ⟨r, hrun, hcount⟩ := Option.map_eq_some_iff.1 (show (Run.exec Recorded.step
    (.init (.inr (.inr .init) : ExactScheduler ℕ)) [.schedule 7 0, .schedule 3 1]).map
      (fun r => r.unscheduledEvents) = some 2 by decide +kernel)
  exact ⟨r, hrun, replaced_scheduler_runs_alike (.inr (.inr rfl)) (by decide +kernel) hrun
    hcount.le⟩

end ExactScheduler

end HpccSim
