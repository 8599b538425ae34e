import Mathlib.Data.List.Basic
import Mathlib.Logic.Function.Basic

/-!
# Events and their handles

A simulator keeps the events that were scheduled and have neither expired nor been cancelled. An
event is cancelled through the handle that scheduling it has returned. Here a program has one
handle for each kind of event, which it overwrites whenever it schedules an event of the kind; an
event whose handle was overwritten can no longer be cancelled.

## Main definitions

* `EventQueue`: the pending events, the handles and the next identifier.
* `EventQueue.schedule`, `EventQueue.cancel`, `EventQueue.remove`.
* `EventQueue.Tracked`: no two events of a kind are pending, and the handles refer to them.

## Main results

* `EventQueue.Tracked.schedule`: scheduling an event of a kind that is not pending keeps this.
* `EventQueue.Tracked.isPending_cancel`: cancelling a kind cancels all its events, and no other.
-/

/-- The pending events of the kinds `κ`, each with its identifier, and the handle of each kind. -/
structure EventQueue (κ : Type*) where
  pending : List (ℕ × κ)
  handle : κ → Option ℕ
  nextId : ℕ

namespace EventQueue

variable {κ : Type*}

/-- Nothing has been scheduled. -/
def empty : EventQueue κ where
  pending := []
  handle _ := none
  nextId := 0

variable (q : EventQueue κ)

/-- The event `i` is no longer pending. -/
def remove (i : ℕ) : EventQueue κ := { q with pending := q.pending.filter fun e => e.1 ≠ i }

/-- The event that the handle of the kind refers to is cancelled, if it is pending. -/
def cancel (k : κ) : EventQueue κ :=
  match q.handle k with
  | some i => q.remove i
  | none => q

/-- The kind of a pending event. -/
def kind? (i : ℕ) : Option κ := (q.pending.find? fun e => e.1 = i).map Prod.snd

/-- An event of the kind is pending. -/
def IsPending (k : κ) : Prop := ∃ i, (i, k) ∈ q.pending

/-- No two events of a kind are pending, and its handle refers to the one that is. No two handles
are the same. -/
structure Tracked : Prop where
  pairwise : q.pending.Pairwise fun e e' => e.2 ≠ e'.2
  handle : ∀ e ∈ q.pending, q.handle e.2 = some e.1
  handle_lt : ∀ k i, q.handle k = some i → i < q.nextId
  handle_inj : ∀ k k' i, q.handle k = some i → q.handle k' = some i → k = k'

variable {q} {k j : κ} {i : ℕ}

theorem tracked_empty : (empty : EventQueue κ).Tracked where
  pairwise := .nil
  handle := by simp [empty]
  handle_lt := by simp [empty]
  handle_inj := by simp [empty]

theorem not_isPending_empty : ¬ (empty : EventQueue κ).IsPending k := by simp [IsPending, empty]

theorem pending_eq_nil_iff : q.pending = [] ↔ ∀ k, ¬ q.IsPending k := by
  simp only [IsPending, not_exists, List.eq_nil_iff_forall_not_mem, Prod.forall]
  exact forall_comm

theorem mem_of_kind?_eq_some (h : q.kind? i = some k) : (i, k) ∈ q.pending := by
  obtain ⟨e, he, rfl⟩ := Option.map_eq_some_iff.1 h
  have hi : e.1 = i := by simpa using List.find?_some he
  exact hi ▸ List.mem_of_find?_eq_some he

theorem Tracked.remove (h : q.Tracked) (i : ℕ) : (q.remove i).Tracked where
  pairwise := h.pairwise.filter _
  handle e he := h.handle e (List.mem_of_mem_filter he)
  handle_lt := h.handle_lt
  handle_inj := h.handle_inj

/-- Only the one event of its kind goes. -/
theorem Tracked.isPending_remove (h : q.Tracked) (hk : q.handle k = some i) :
    (q.remove i).IsPending j ↔ j ≠ k ∧ q.IsPending j := by
  constructor
  · rintro ⟨i', hmem⟩
    obtain ⟨hmem, hne⟩ := List.mem_filter.1 hmem
    refine ⟨?_, i', hmem⟩
    rintro rfl
    have hi : q.handle j = some i' := h.handle _ hmem
    rw [hk] at hi
    exact of_decide_eq_true hne (Option.some.inj hi).symm
  · rintro ⟨hne, i', hmem⟩
    refine ⟨i', List.mem_filter.2 ⟨hmem, decide_eq_true ?_⟩⟩
    rintro rfl
    exact hne (h.handle_inj _ _ _ (h.handle _ hmem) hk)

theorem Tracked.cancel (h : q.Tracked) (k : κ) : (q.cancel k).Tracked := by
  rw [EventQueue.cancel]
  split
  · exact h.remove _
  · exact h

/-- **Cancelling a kind** cancels all its events, and no other. -/
theorem Tracked.isPending_cancel (h : q.Tracked) :
    (q.cancel k).IsPending j ↔ j ≠ k ∧ q.IsPending j := by
  rw [EventQueue.cancel]
  cases hk : q.handle k with
  | some i => exact h.isPending_remove hk
  | none =>
    refine ⟨fun hj => ⟨?_, hj⟩, And.right⟩
    rintro rfl
    obtain ⟨i, hmem⟩ := hj
    have hi : q.handle j = some i := h.handle _ hmem
    rw [hk] at hi
    cases hi

variable [DecidableEq κ]

/-- An event of the kind is scheduled, and its handle kept. -/
def schedule (q : EventQueue κ) (k : κ) : EventQueue κ where
  pending := (q.nextId, k) :: q.pending
  handle := Function.update q.handle k (some q.nextId)
  nextId := q.nextId + 1

theorem isPending_schedule : (q.schedule k).IsPending j ↔ j = k ∨ q.IsPending j := by
  simp only [IsPending, schedule, List.mem_cons, Prod.mk.injEq, exists_or]
  simp

theorem handle_schedule_self : (q.schedule k).handle k = some q.nextId := Function.update_self ..

theorem handle_schedule_of_ne (h : j ≠ k) : (q.schedule k).handle j = q.handle j :=
  Function.update_of_ne h ..

/-- **Scheduling an event of a kind that is not pending** keeps the handles right. -/
theorem Tracked.schedule (h : q.Tracked) (hk : ¬ q.IsPending k) : (q.schedule k).Tracked := by
  -- the new identifier is that of no other handle
  have hold {j : κ} {i : ℕ} (hj : j ≠ k) (hi : (q.schedule k).handle j = some i) :
      q.handle j = some i := (handle_schedule_of_ne hj).symm.trans hi
  have hnew {i : ℕ} (hi : (q.schedule k).handle k = some i) : i = q.nextId :=
    Option.some.inj (hi.symm.trans handle_schedule_self)
  refine ⟨List.pairwise_cons.2 ⟨fun e he hek => hk ⟨e.1, ?_⟩, h.pairwise⟩, fun e he => ?_,
    fun j i hj => ?_, fun j j' i hj hj' => ?_⟩
  · rw [show k = e.2 from hek]
    exact he
  · rcases List.mem_cons.1 he with rfl | he
    · exact handle_schedule_self
    · have hne : e.2 ≠ k := fun hek => hk ⟨e.1, hek ▸ he⟩
      exact (handle_schedule_of_ne hne).trans (h.handle e he)
  · by_cases hjk : j = k
    · subst hjk
      exact Nat.lt_succ_of_le (Nat.le_of_eq (hnew hj))
    · exact Nat.lt_succ_of_lt (h.handle_lt j i (hold hjk hj))
  · by_cases hjk : j = k <;> by_cases hjk' : j' = k
    · rw [hjk, hjk']
    · subst hjk
      exact absurd (hnew hj) (Nat.ne_of_lt (h.handle_lt j' i (hold hjk' hj')))
    · subst hjk'
      exact absurd (hnew hj') (Nat.ne_of_lt (h.handle_lt j i (hold hjk hj)))
    · exact h.handle_inj j j' i (hold hjk hj) (hold hjk' hj')

end EventQueue
