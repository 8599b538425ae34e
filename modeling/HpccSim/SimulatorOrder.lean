import HpccSim.SimulatorImpl
import Mathlib.Algebra.Order.Group.Multiset

/-!
# The simulator runs every event once, in order

Whatever the events do, the simulator takes them out in the order of their times and, at the same
time, in the order in which they were scheduled. Every event that was inserted is processed once,
unless it was removed or is still pending, and the counter that `Run` checks at its end counts the
pending ones. An identifier has expired exactly if its event is no longer pending or its
`EventImpl` was cancelled.

All of this holds over any scheduler that obeys the laws of a queue. It needs that the counter of
identifiers has not come round, that nothing is scheduled into the past through
`ScheduleWithContext`, which does not check it, and that identifiers are used as they were
returned.

## Main definitions

* `Recorded.Admissible`: what a step of a run may do.
* `Recorded.Consistent`: the invariant of the runs, with the pending events.

## Main results

* `Recorded.Consistent.step`, `Recorded.Consistent.exec`: every step, and every run, keeps the
  invariant.
* `Recorded.Consistent.exists_step`: no assertion fails over a scheduler that does not fail.
-/

namespace HpccSim

open Scheduler

variable {ρ ι : Type*}

namespace Registers

/-- The place of the event that runs, or ran last, in the order of the events. -/
def rank (s : Registers ι) : ℕ ×ₗ ℕ := toLex (s.currentTs, s.currentUid)

end Registers

namespace Recorded

/-- An identifier that a client may hold: a null one, one of `ScheduleDestroy`, or one returned by
`Schedule` or `ScheduleNow`. -/
def Holds (r : Recorded ρ ι) (id : EventId ι) : Prop :=
  id.impl = none ∨ id.uid = 2 ∨ id ∈ r.history.issued

/-- There are identifiers left for `n` more events. -/
def HasUids (r : Recorded ρ ι) (n : ℕ) : Prop := r.uid + n < 2 ^ 32

/-- **What a step may do.** Nothing is scheduled into the past where the code does not check it,
the identifiers do not run out, a client uses only those it holds, and removes only events that
the scheduler can remove. -/
def Admissible [DecidableEq ι] (CanRemove : ρ → Event ι → Prop) (r : Recorded ρ ι) : Op ι → Prop
  | .schedule _ _ => r.HasUids 1
  | .scheduleNow _ => r.HasUids 1
  | .scheduleWithContext _ time _ => r.HasUids 1 ∧ 0 ≤ time ∧ time + r.currentTs < 2 ^ 63
  | .scheduleDestroy _ => r.HasUids 1
  | .cancel id => r.Holds id
  | .remove id => r.Holds id ∧ ∀ impl, id.impl = some impl → id.uid ≠ 2 → r.isExpired id = false →
      CanRemove r.events ⟨impl, id.key⟩
  | .processEventsWithContext => r.HasUids r.eventsWithContext.length ∧
      ∀ e ∈ r.eventsWithContext, r.currentTs + e.timestamp < 2 ^ 63
  | _ => True

instance (r : Recorded ρ ι) (n : ℕ) : Decidable (r.HasUids n) := Nat.decLt _ _

instance [DecidableEq ι] (r : Recorded ρ ι) (id : EventId ι) : Decidable (r.Holds id) :=
  inferInstanceAs (Decidable (_ ∨ _ ∨ _))

instance decidableAdmissible [DecidableEq ι] {CanRemove : ρ → Event ι → Prop}
    [∀ q e, Decidable (CanRemove q e)] (r : Recorded ρ ι) :
    ∀ op, Decidable (r.Admissible CanRemove op)
  | .schedule _ _ => inferInstanceAs (Decidable (r.HasUids 1))
  | .scheduleNow _ => inferInstanceAs (Decidable (r.HasUids 1))
  | .scheduleWithContext _ _ _ => inferInstanceAs (Decidable (_ ∧ _ ∧ _))
  | .handOver _ _ _ => isTrue trivial
  | .scheduleDestroy _ => inferInstanceAs (Decidable (r.HasUids 1))
  | .cancel id => inferInstanceAs (Decidable (r.Holds id))
  | .remove id =>
    decidable_of_iff (r.Holds id ∧ ∀ impl ∈ id.impl, id.uid ≠ 2 → r.isExpired id = false →
      CanRemove r.events ⟨impl, id.key⟩) Iff.rfl
  | .stop => isTrue trivial
  | .processEventsWithContext => inferInstanceAs (Decidable (_ ∧ _))
  | .popNext => isTrue trivial

/-- **The invariant**: the scheduler holds the events `pending`, which are those inserted and
neither processed nor removed; they come after the event that runs, and those processed do not. -/
structure Consistent (Rep : ρ → ℕ → Multiset (Event ι) → Prop) (r : Recorded ρ ι) (f : ℕ)
    (pending : Multiset (Event ι)) : Prop where
  rep : Rep r.events f pending
  floor_le : f ≤ r.currentTs
  currentTs_lt : r.currentTs < 2 ^ 63
  ts_lt : ∀ e ∈ pending, e.ts < 2 ^ 63
  accounts : (r.history.inserted : Multiset (Event ι)) =
    (r.history.processed : Multiset (Event ι)) + (r.history.removed : Multiset (Event ι)) + pending
  uid_ge : 4 ≤ r.uid
  uid_lt : ∀ e ∈ r.history.inserted, 4 ≤ e.uid ∧ e.uid < r.uid
  increasing : r.history.inserted.Pairwise fun a b => a.uid < b.uid
  unscheduled : r.unscheduledEvents = pending.card
  currentUid_lt : r.currentUid < r.uid
  sorted : r.history.processed.Pairwise fun a b => a.rank < b.rank
  processed_le : ∀ e ∈ r.history.processed, e.rank ≤ r.rank
  later : ∀ e ∈ pending, r.rank < e.rank
  issued : ∀ id ∈ r.history.issued, id.uid ≠ 2 →
    ∃ impl, id.impl = some impl ∧ ⟨impl, id.key⟩ ∈ r.history.inserted
  removed_cancelled : ∀ e ∈ r.history.removed, e.impl ∈ r.cancelled

variable {Rep : ρ → ℕ → Multiset (Event ι) → Prop} {CanRemove : ρ → Event ι → Prop}
  {r r' : Recorded ρ ι} {f : ℕ} {pending : Multiset (Event ι)}

theorem consistent_init {events : ρ} (h : Rep events 0 0) : Consistent Rep (init events) 0 0 where
  rep := h
  floor_le := le_rfl
  currentTs_lt := by simp [init, Registers.init]
  ts_lt := by simp
  accounts := rfl
  uid_ge := le_rfl
  uid_lt := by simp [init, History.empty]
  increasing := .nil
  unscheduled := rfl
  currentUid_lt := by simp [init, Registers.init]
  sorted := .nil
  processed_le := by simp [init, History.empty]
  later := by simp
  issued := by simp [init, History.empty]
  removed_cancelled := by simp [init, History.empty]

namespace Consistent

/-- No two events have the same identifier. -/
theorem nodup (h : Consistent Rep r f pending) : (r.history.inserted.map Event.uid).Nodup :=
  List.pairwise_map.2 (h.increasing.imp fun hlt => hlt.ne)

theorem mem_inserted (h : Consistent Rep r f pending) {e : Event ι} :
    e ∈ r.history.inserted ↔
      e ∈ r.history.processed ∨ e ∈ r.history.removed ∨ e ∈ pending := by
  rw [← Multiset.mem_coe, h.accounts, Multiset.mem_add, Multiset.mem_add, Multiset.mem_coe,
    Multiset.mem_coe, or_assoc]

theorem uid_lt_of_mem (h : Consistent Rep r f pending) {e : Event ι} (he : e ∈ pending) :
    e.uid < r.uid :=
  (h.uid_lt e (h.mem_inserted.2 (.inr (.inr he)))).2

/-- The next identifier is that of no pending event. -/
theorem fresh (h : Consistent Rep r f pending) {e : Event ι} (he : e.uid = r.uid) :
    Fresh pending e := fun _ hx heq =>
  absurd (h.uid_lt_of_mem hx) (by rw [heq, he]; exact lt_irrefl _)

/-- No two pending events have the same identifier. -/
theorem nodup_pending (h : Consistent Rep r f pending) : (pending.map Event.uid).Nodup := by
  have hall : Multiset.Nodup ((r.history.inserted : Multiset (Event ι)).map Event.uid) := h.nodup
  refine Multiset.nodup_of_le (Multiset.map_le_map ?_) hall
  rw [h.accounts]
  exact Multiset.le_add_left _ _

/-- The identifier of an event that was inserted is returned. -/
theorem issue (h : Consistent Rep r f pending) {id : EventId ι}
    (hid : id.uid ≠ 2 → ∃ impl, id.impl = some impl ∧ ⟨impl, id.key⟩ ∈ r.history.inserted) :
    Consistent Rep { r with history := r.history.issue id } f pending :=
  { h with
    issued := fun id' hid' hne => by
      rcases List.mem_append.1 hid' with hid' | hid'
      · exact h.issued id' hid' hne
      · rw [List.mem_singleton.1 hid'] at hne ⊢
        exact hid hne }

variable [PriorityQueue ρ (Event ι)]

/-- **An insertion** that is not in the past. -/
theorem insertEvent (hq : Lawful Rep CanRemove) (h : Consistent Rep r f pending) {ts context : ℕ}
    {impl : ι} {s : DefaultSimulatorImpl ρ ι} (hs : r.insertEvent ts context impl = some s)
    (hts : r.currentTs ≤ ts) (hts' : ts < 2 ^ 63) (huid : r.HasUids 1) :
    Consistent Rep ⟨s, r.history.insert [r.newEvent ts context impl]⟩ f
      (r.newEvent ts context impl ::ₘ pending) := by
  obtain ⟨events, hevents, rfl⟩ := Option.map_eq_some_iff.1 hs
  have hnext : (r.uid + 1) % 2 ^ 32 = r.uid + 1 := Nat.mod_eq_of_lt huid
  have hfresh : Fresh pending (r.newEvent ts context impl) := h.fresh rfl
  have hrank : r.rank < (r.newEvent ts context impl).rank := by
    rw [Registers.rank, Event.rank, EventKey.rank, Prod.Lex.toLex_lt_toLex]
    rcases hts.lt_or_eq with hlt | heq
    · exact .inl hlt
    · exact .inr ⟨heq, h.currentUid_lt⟩
  refine { h with
    rep := hq.insert h.rep hts' (h.floor_le.trans hts) hfresh hevents
    ts_lt := fun e he => ?_
    accounts := ?_
    uid_ge := ?_
    uid_lt := fun e he => ?_
    increasing := ?_
    unscheduled := ?_
    currentUid_lt := ?_
    later := fun e he => ?_
    issued := fun id hid hne => ?_ }
  · rcases Multiset.mem_cons.1 he with rfl | he
    · exact hts'
    · exact h.ts_lt e he
  · change ((r.history.inserted ++ [_] : List (Event ι)) : Multiset (Event ι)) = _
    rw [← Multiset.coe_add, h.accounts, Multiset.coe_singleton, add_assoc,
      ← Multiset.singleton_add, add_comm pending]
    rfl
  · change 4 ≤ (r.uid + 1) % 2 ^ 32
    rw [hnext]
    exact h.uid_ge.trans (Nat.le_succ _)
  · change 4 ≤ e.uid ∧ e.uid < (r.uid + 1) % 2 ^ 32
    rw [hnext]
    rcases List.mem_append.1 he with he | he
    · exact ⟨(h.uid_lt e he).1, (h.uid_lt e he).2.trans (Nat.lt_succ_self _)⟩
    · rw [List.mem_singleton.1 he]
      exact ⟨h.uid_ge, Nat.lt_succ_self _⟩
  · change (r.history.inserted ++ [_]).Pairwise _
    refine List.pairwise_append.2 ⟨h.increasing, List.pairwise_singleton _ _, fun a ha b hb => ?_⟩
    rw [List.mem_singleton.1 hb]
    exact (h.uid_lt a ha).2
  · change r.unscheduledEvents + 1 = _
    rw [h.unscheduled, Multiset.card_cons, Int.natCast_add, Int.natCast_one]
  · change r.currentUid < (r.uid + 1) % 2 ^ 32
    rw [hnext]
    exact h.currentUid_lt.trans (Nat.lt_succ_self _)
  · rcases Multiset.mem_cons.1 he with rfl | he
    · exact hrank
    · exact h.later e he
  · obtain ⟨impl', himpl, hmem⟩ := h.issued id hid hne
    exact ⟨impl', himpl, List.mem_append_left _ hmem⟩

/-- **All events handed over** are inserted. -/
theorem insertAll (hq : Lawful Rep CanRemove) {es : List (EventWithContext ι)}
    {s : DefaultSimulatorImpl ρ ι} (h : Consistent Rep r f pending)
    (hs : DefaultSimulatorImpl.insertAll r.toDefaultSimulatorImpl es = some s)
    (huid : r.HasUids es.length) (hes : ∀ e ∈ es, r.currentTs + e.timestamp < 2 ^ 63) :
    ∃ pending', Consistent Rep ⟨s, r.history.insert (handedOver r.currentTs r.uid es)⟩ f
      pending' := by
  induction es generalizing r pending with
  | nil =>
    cases hs
    exact ⟨pending, by simpa [handedOver, History.insert] using h⟩
  | cons e es ih =>
    obtain ⟨s₁, hs₁, hs⟩ := Option.bind_eq_some_iff.1 hs
    have he := hes e List.mem_cons_self
    rw [HasUids, List.length_cons] at huid
    have hmod : (r.currentTs + e.timestamp) % 2 ^ 64 = r.currentTs + e.timestamp :=
      Nat.mod_eq_of_lt (by omega)
    rw [hmod] at hs₁
    have h₁ := h.insertEvent hq hs₁ (Nat.le_add_right _ _) he (by rw [HasUids]; omega)
    obtain ⟨events, -, rfl⟩ := Option.map_eq_some_iff.1 hs₁
    have hnext : (r.uid + 1) % 2 ^ 32 = r.uid + 1 := Nat.mod_eq_of_lt (by omega)
    obtain ⟨pending', h'⟩ := ih h₁ hs (by rw [HasUids]; change (r.uid + 1) % 2 ^ 32 + _ < _; omega)
      fun e' he' => hes e' (List.mem_cons_of_mem e he')
    have hist : r.history.insert (handedOver r.currentTs r.uid (e :: es)) =
        (r.history.insert [r.newEvent (r.currentTs + e.timestamp) e.context e.event]).insert
          (handedOver r.currentTs ((r.uid + 1) % 2 ^ 32) es) := by
      rw [handedOver, hmod, History.insert, History.insert, History.insert, List.append_assoc]
      rfl
    exact ⟨pending', hist ▸ h'⟩

omit [PriorityQueue ρ (Event ι)] in
/-- The time that `Schedule` inserts an event at is not in the past. -/
theorem le_absoluteTime (h : Consistent Rep r f pending) {time : ℤ}
    (hpos : 0 ≤ r.absoluteTime time)
    (hle : Int.bmod r.currentTs (2 ^ 64) ≤ r.absoluteTime time) :
    r.currentTs ≤ (r.absoluteTime time).toNat ∧ (r.absoluteTime time).toNat < 2 ^ 63 := by
  have hcur := h.currentTs_lt
  have hbmod : Int.bmod (r.currentTs : ℤ) (2 ^ 64) = r.currentTs :=
    Int.bmod_eq_of_le (by omega) (by omega)
  have hlt : r.absoluteTime time < 2 ^ 63 :=
    Int.bmod_lt (x := time + r.currentTs) (Nat.two_pow_pos 64)
  rw [hbmod] at hle
  omega

omit [PriorityQueue ρ (Event ι)] in
/-- The time that `ScheduleWithContext` inserts an event at, if it is not in the past. -/
theorem contextTime_eq {time : ℤ} (hpos : 0 ≤ time) (hlt : time + r.currentTs < 2 ^ 63) :
    (r.contextTime time : ℤ) = time + r.currentTs := by
  have hbmod : r.absoluteTime time = time + r.currentTs :=
    Int.bmod_eq_of_le (by omega) (by omega)
  rw [DefaultSimulatorImpl.contextTime, hbmod]
  omega

/-- **The next event** is taken out to run. -/
theorem popNext (hq : Lawful Rep CanRemove) (h : Consistent Rep r f pending) {e : Event ι}
    {s : DefaultSimulatorImpl ρ ι} (hs : r.popNext = some (e, s)) :
    ∃ rest, pending = e ::ₘ rest ∧ (∀ x ∈ rest, e.rank < x.rank) ∧
      Consistent Rep ⟨s, r.history.process e⟩ e.ts rest := by
  obtain ⟨⟨e', events⟩, hnext, hs⟩ := Option.bind_eq_some_iff.1 hs
  split_ifs at hs with hts
  obtain ⟨rfl, rfl⟩ := Prod.mk.inj (Option.some.inj hs)
  obtain ⟨rest, rfl, hmin, hrep⟩ := hq.removeNext h.rep hnext
  have hmem : e' ∈ e' ::ₘ rest := Multiset.mem_cons_self e' rest
  have hfresh : Fresh rest e' := PriorityQueue.fresh_of_nodup h.nodup_pending
  have hlt : ∀ x ∈ rest, e'.rank < x.rank := fun x hx =>
    lt_of_le_of_ne (hmin x hx) fun heq => hfresh x hx (Event.uid_eq_of_rank_eq e' x heq).symm
  refine ⟨rest, rfl, hlt, { h with
    rep := hrep
    floor_le := le_rfl
    currentTs_lt := h.ts_lt e' hmem
    ts_lt := fun x hx => h.ts_lt x (Multiset.mem_cons_of_mem hx)
    accounts := ?_
    unscheduled := ?_
    currentUid_lt := h.uid_lt_of_mem hmem
    sorted := ?_
    processed_le := fun x hx => ?_
    later := hlt }⟩
  · change (r.history.inserted : Multiset (Event ι)) =
      ((r.history.processed ++ [e'] : List (Event ι)) : Multiset (Event ι)) + _ + _
    rw [h.accounts, ← Multiset.coe_add, Multiset.coe_singleton, ← Multiset.singleton_add]
    change _ = _ + _ + (r.history.removed : Multiset (Event ι)) + rest
    ac_rfl
  · change r.unscheduledEvents - 1 = _
    rw [h.unscheduled, Multiset.card_cons]
    omega
  · refine List.pairwise_append.2 ⟨h.sorted, List.pairwise_singleton _ _, fun x hx y hy => ?_⟩
    rw [List.mem_singleton.1 hy]
    exact (h.processed_le x hx).trans_lt (h.later e' hmem)
  · rcases List.mem_append.1 hx with hx | hx
    · exact ((h.processed_le x hx).trans_lt (h.later e' hmem)).le
    · rw [List.mem_singleton.1 hx]
      rfl

end Consistent

/-! ### Identifiers -/

variable [DecidableEq ι] {id : EventId ι} {impl : ι}

/-- An event of the scheduler has not expired exactly if it comes after the one that runs and its
`EventImpl` is not cancelled. -/
theorem isExpired_eq_false_iff (hne : id.uid ≠ 2) (himpl : id.impl = some impl) :
    r.isExpired id = false ↔ r.rank < id.key.rank ∧ impl ∉ r.cancelled := by
  rw [Registers.isExpired, if_neg hne, himpl, Registers.rank, EventKey.rank,
    Prod.Lex.toLex_lt_toLex]
  simp only [Registers.isCancelled, Bool.or_eq_false_iff, decide_eq_false_iff_not,
    Bool.and_eq_false_iff, List.contains_eq_mem, EventId.key]
  rw [and_congr_left_iff]
  intro _
  omega

namespace Consistent

/-- **When an identifier has expired**: unless its event is pending and its `EventImpl` is not
cancelled. -/
theorem isExpired_eq_false_iff (h : Consistent Rep r f pending) (hid : id ∈ r.history.issued)
    (hne : id.uid ≠ 2) :
    r.isExpired id = false ↔
      ∃ impl, id.impl = some impl ∧ ⟨impl, id.key⟩ ∈ pending ∧ impl ∉ r.cancelled := by
  obtain ⟨impl, himpl, hmem⟩ := h.issued id hid hne
  rw [Recorded.isExpired_eq_false_iff hne himpl]
  constructor
  · rintro ⟨hlt, hnc⟩
    refine ⟨impl, himpl, ?_, hnc⟩
    rcases h.mem_inserted.1 hmem with hp | hr | hp
    · exact absurd hlt (not_lt.2 (h.processed_le _ hp))
    · exact absurd (h.removed_cancelled _ hr) hnc
    · exact hp
  · rintro ⟨impl', himpl', hp, hnc⟩
    obtain rfl := Option.some.inj (himpl.symm.trans himpl')
    exact ⟨h.later _ hp, hnc⟩

/-- An identifier that has not expired was returned. -/
theorem mem_issued (hholds : r.Holds id) (hne : id.uid ≠ 2)
    (hexp : r.isExpired id = false) : id ∈ r.history.issued := by
  rcases hholds with hnone | h2 | hid
  · rw [Registers.isExpired, if_neg hne, hnone] at hexp
    cases hexp
  · exact absurd h2 hne
  · exact hid

variable [PriorityQueue ρ (Event ι)]

/-- **`Remove`** takes an event that has not expired out of the scheduler, and does nothing to the
scheduler otherwise. -/
theorem remove (hq : Lawful Rep CanRemove) (h : Consistent Rep r f pending)
    {s : DefaultSimulatorImpl ρ ι} (hs : r.toDefaultSimulatorImpl.remove id = some s)
    (hadm : r.Admissible CanRemove (.remove id)) :
    ∃ pending', Consistent Rep
      ⟨s, if id.uid = 2 ∨ r.isExpired id then r.history else r.history.remove id⟩ f pending' := by
  obtain ⟨hholds, hcan⟩ := hadm
  by_cases hne : id.uid = 2
  · rw [DefaultSimulatorImpl.remove, if_pos hne] at hs
    cases hs
    rw [if_pos (.inl hne)]
    exact ⟨pending, { h with }⟩
  · by_cases hexp : r.isExpired id = true
    · rw [r.remove_of_isExpired hne hexp] at hs
      cases hs
      rw [if_pos (.inr hexp)]
      exact ⟨pending, h⟩
    · rw [Bool.not_eq_true] at hexp
      obtain ⟨impl, himpl, hmem, hnc⟩ :=
        (h.isExpired_eq_false_iff (mem_issued hholds hne hexp) hne).1 hexp
      obtain ⟨rest, rfl⟩ := Multiset.exists_cons_of_mem hmem
      have hfresh := PriorityQueue.fresh_of_nodup h.nodup_pending
      rw [r.remove_of_not_isExpired hne himpl hexp] at hs
      obtain ⟨events, hevents, rfl⟩ := Option.map_eq_some_iff.1 hs
      rw [if_neg (by simp [hne, hexp]), History.remove, himpl]
      refine ⟨rest, { h with
        rep := hq.remove h.rep hfresh (hcan impl himpl hne hexp) hevents
        ts_lt := fun x hx => h.ts_lt x (Multiset.mem_cons_of_mem hx)
        accounts := ?_
        unscheduled := ?_
        later := fun x hx => h.later x (Multiset.mem_cons_of_mem hx)
        removed_cancelled := fun x hx => ?_ }⟩
      · change (r.history.inserted : Multiset (Event ι)) = _ +
          ((r.history.removed ++ [_] : List (Event ι)) : Multiset (Event ι)) + _
        rw [h.accounts, ← Multiset.coe_add, Multiset.coe_singleton, ← Multiset.singleton_add]
        ac_rfl
      · change r.unscheduledEvents - 1 = _
        rw [h.unscheduled, Multiset.card_cons]
        omega
      · rcases List.mem_append.1 hx with hx | hx
        · exact List.mem_cons_of_mem _ (h.removed_cancelled x hx)
        · rw [List.mem_singleton.1 hx]
          exact List.mem_cons_self

omit [PriorityQueue ρ (Event ι)] in
/-- **`Cancel`** touches no event of the scheduler. -/
theorem cancel (h : Consistent Rep r f pending) (id : EventId ι) :
    Consistent Rep { r with toRegisters := r.toRegisters.cancel id } f pending := by
  cases himpl : id.impl with
  | none =>
    rw [Registers.cancel, himpl]
    exact h
  | some impl =>
    rw [Registers.cancel, himpl]
    dsimp only
    split_ifs
    · exact h
    · exact { h with
        removed_cancelled := fun e he => List.mem_cons_of_mem _ (h.removed_cancelled e he) }

/-- **Every step keeps the invariant.** -/
theorem step (hq : Lawful Rep CanRemove) (h : Consistent Rep r f pending) {op : Op ι}
    (hadm : r.Admissible CanRemove op) (hstep : r.step op = some r') :
    ∃ f' pending', Consistent Rep r' f' pending' := by
  cases op with
  | schedule time event =>
    obtain ⟨⟨id, s⟩, hs, rfl⟩ := Option.map_eq_some_iff.1 hstep
    obtain ⟨hassert, hs⟩ := r.schedule_eq_some hs
    obtain ⟨s', hs', heq⟩ := Option.map_eq_some_iff.1 hs
    cases heq
    obtain ⟨hle, hlt⟩ := h.le_absoluteTime hassert.1 hassert.2
    exact ⟨f, _, (h.insertEvent hq hs' hle hlt hadm).issue fun _ =>
      ⟨event, rfl, List.mem_append_right _ List.mem_cons_self⟩⟩
  | scheduleNow event =>
    obtain ⟨p, hs, rfl⟩ := Option.map_eq_some_iff.1 hstep
    obtain ⟨s', hs', rfl⟩ := Option.map_eq_some_iff.1 hs
    exact ⟨f, _, (h.insertEvent hq hs' le_rfl h.currentTs_lt hadm).issue fun _ =>
      ⟨event, rfl, List.mem_append_right _ List.mem_cons_self⟩⟩
  | scheduleWithContext context time event =>
    obtain ⟨s, hs, rfl⟩ := Option.map_eq_some_iff.1 hstep
    obtain ⟨huid, hpos, hlt⟩ := hadm
    have htime := contextTime_eq hpos hlt
    exact ⟨f, _, h.insertEvent hq hs (by omega) (by omega) huid⟩
  | handOver context time event =>
    cases hstep
    exact ⟨f, pending, { h with }⟩
  | scheduleDestroy event =>
    cases hstep
    have hnext : (r.uid + 1) % 2 ^ 32 = r.uid + 1 := Nat.mod_eq_of_lt hadm
    refine ⟨f, pending, { h.issue fun hne => absurd rfl hne with
      uid_ge := ?_
      uid_lt := fun e he => ?_
      currentUid_lt := ?_ }⟩
    · change 4 ≤ (r.uid + 1) % 2 ^ 32
      rw [hnext]
      exact h.uid_ge.trans (Nat.le_succ _)
    · change 4 ≤ e.uid ∧ e.uid < (r.uid + 1) % 2 ^ 32
      rw [hnext]
      exact ⟨(h.uid_lt e he).1, (h.uid_lt e he).2.trans (Nat.lt_succ_self _)⟩
    · change r.currentUid < (r.uid + 1) % 2 ^ 32
      rw [hnext]
      exact h.currentUid_lt.trans (Nat.lt_succ_self _)
  | cancel id =>
    cases hstep
    exact ⟨f, pending, h.cancel id⟩
  | remove id =>
    obtain ⟨s, hs, rfl⟩ := Option.map_eq_some_iff.1 hstep
    exact ⟨f, h.remove hq hs hadm⟩
  | stop =>
    cases hstep
    exact ⟨f, pending, { h with }⟩
  | processEventsWithContext =>
    obtain ⟨s, hs, rfl⟩ := Option.map_eq_some_iff.1 hstep
    obtain ⟨pending', h'⟩ := insertAll (r := { r with eventsWithContext := [] }) hq { h with } hs
      hadm.1 hadm.2
    exact ⟨f, pending', h'⟩
  | popNext =>
    obtain ⟨⟨e, s⟩, hs, rfl⟩ := Option.map_eq_some_iff.1 hstep
    obtain ⟨rest, -, -, h'⟩ := h.popNext hq hs
    exact ⟨e.ts, rest, h'⟩

end Consistent

variable [PriorityQueue ρ (Event ι)]

/-- **Every run keeps the invariant.** -/
theorem exists_consistent (hq : Lawful Rep CanRemove) {events : ρ} (hempty : Rep events 0 0)
    {ops : List (Op ι)} (hadm : Run.Along step (Admissible CanRemove) (init events) ops)
    (hrun : Run.exec step (init events) ops = some r) :
    ∃ f pending, Consistent Rep r f pending :=
  Run.exec_induction (I := fun r => ∃ f pending, Consistent Rep r f pending)
    (fun _ _ _ ⟨_, _, h⟩ hadm hs => h.step hq hadm hs) ⟨0, 0, consistent_init hempty⟩ hadm hrun

/-! ### Every event once, in order -/

/-- **Events run in order**: those processed come in the order of their times and, at the same
time, of their identifiers; those still pending come after all of them. -/
theorem processed_sorted (hq : Lawful Rep CanRemove) {events : ρ} (hempty : Rep events 0 0)
    {ops : List (Op ι)} (hadm : Run.Along step (Admissible CanRemove) (init events) ops)
    (hrun : Run.exec step (init events) ops = some r) :
    r.history.processed.Pairwise (fun a b => a.rank < b.rank) ∧
      ∃ f pending, Rep r.events f pending ∧
        ∀ e ∈ r.history.processed, ∀ e' ∈ pending, e.rank < e'.rank := by
  obtain ⟨f, pending, h⟩ := exists_consistent hq hempty hadm hrun
  exact ⟨h.sorted, f, pending, h.rep, fun e he e' he' =>
    (h.processed_le e he).trans_lt (h.later e' he')⟩

/-- What the assertions ask for: `Schedule` is not asked for a time in the past, or for one that
overflows, and there is a next event when one is taken out. -/
def Possible (r : Recorded ρ ι) : Op ι → Prop
  | .schedule time _ => 0 ≤ time ∧ time + r.currentTs < 2 ^ 63
  | .popNext => PriorityQueue.isEmpty r.events = false
  | _ => True

instance decidablePossible (r : Recorded ρ ι) : ∀ op, Decidable (r.Possible op)
  | .schedule _ _ => inferInstanceAs (Decidable (_ ∧ _))
  | .popNext => inferInstanceAs (Decidable (_ = _))
  | .scheduleNow _ | .scheduleWithContext _ _ _ | .handOver _ _ _ | .scheduleDestroy _
  | .cancel _ | .remove _ | .stop | .processEventsWithContext => isTrue trivial

omit [DecidableEq ι] in
theorem Consistent.exists_insertEvent (hq : Reliable Rep) (h : Consistent Rep r f pending)
    {ts : ℕ} (context : ℕ) (impl : ι) (hts : r.currentTs ≤ ts) (hts' : ts < 2 ^ 63) :
    ∃ s, r.insertEvent ts context impl = some s := by
  obtain ⟨events, hevents⟩ := hq.insert (e := r.newEvent ts context impl) h.rep hts'
    (h.floor_le.trans hts) (h.fresh rfl)
  exact ⟨_, Option.map_eq_some_iff.2 ⟨events, hevents, rfl⟩⟩

omit [DecidableEq ι] in
theorem Consistent.exists_insertAll (hq : Lawful Rep CanRemove) (hrel : Reliable Rep)
    {es : List (EventWithContext ι)} (h : Consistent Rep r f pending)
    (huid : r.HasUids es.length) (hes : ∀ e ∈ es, r.currentTs + e.timestamp < 2 ^ 63) :
    ∃ s, DefaultSimulatorImpl.insertAll r.toDefaultSimulatorImpl es = some s := by
  induction es generalizing r pending with
  | nil => exact ⟨_, rfl⟩
  | cons e es ih =>
    have he := hes e List.mem_cons_self
    rw [HasUids, List.length_cons] at huid
    have hmod : (r.currentTs + e.timestamp) % 2 ^ 64 = r.currentTs + e.timestamp :=
      Nat.mod_eq_of_lt (by omega)
    obtain ⟨s, hs⟩ := h.exists_insertEvent hrel e.context e.event
      (Nat.le_add_right r.currentTs e.timestamp) he
    have h' := h.insertEvent hq hs (Nat.le_add_right _ _) he (by rw [HasUids]; omega)
    obtain ⟨events, -, rfl⟩ := Option.map_eq_some_iff.1 hs
    have hnext : (r.uid + 1) % 2 ^ 32 = r.uid + 1 := Nat.mod_eq_of_lt (by omega)
    obtain ⟨t, ht⟩ := ih h' (by rw [HasUids]; change (r.uid + 1) % 2 ^ 32 + _ < _; omega)
      fun e' he' => hes e' (List.mem_cons_of_mem e he')
    exact ⟨t, Option.bind_eq_some_iff.2 ⟨_, by rw [hmod]; exact hs, ht⟩⟩

/-- **No assertion fails** over a scheduler that does not fail. -/
theorem Consistent.exists_step (hq : Lawful Rep CanRemove) (hrel : Reliable Rep)
    (h : Consistent Rep r f pending) {op : Op ι} (hadm : r.Admissible CanRemove op)
    (hpos : r.Possible op) : ∃ r', r.step op = some r' := by
  suffices h : (r.step op).isSome by exact Option.isSome_iff_exists.1 h
  cases op with
  | schedule time event =>
    obtain ⟨hpos, hlt⟩ := hpos
    have habs : r.absoluteTime time = time + r.currentTs :=
      Int.bmod_eq_of_le (by omega) (by omega)
    have hcur : Int.bmod (r.currentTs : ℤ) (2 ^ 64) = r.currentTs :=
      Int.bmod_eq_of_le (by omega) (by omega)
    obtain ⟨s, hs⟩ := h.exists_insertEvent hrel r.currentContext event
      (show r.currentTs ≤ (r.absoluteTime time).toNat by omega) (by omega)
    rw [Recorded.step, DefaultSimulatorImpl.schedule]
    rw [if_pos ⟨by omega, by omega⟩, hs]
    rfl
  | scheduleNow event =>
    obtain ⟨s, hs⟩ := h.exists_insertEvent hrel r.currentContext event
      (le_refl r.currentTs) h.currentTs_lt
    rw [Recorded.step, DefaultSimulatorImpl.scheduleNow, hs]
    rfl
  | scheduleWithContext context time event =>
    obtain ⟨-, hpos, hlt⟩ := hadm
    have htime := contextTime_eq hpos hlt
    obtain ⟨s, hs⟩ := h.exists_insertEvent hrel context event
      (show r.currentTs ≤ r.contextTime time by omega) (by omega)
    rw [Recorded.step, DefaultSimulatorImpl.scheduleWithContext, hs]
    rfl
  | handOver context time event => rfl
  | scheduleDestroy event => rfl
  | cancel id => rfl
  | remove id =>
    rw [Recorded.step, Option.isSome_map]
    by_cases hne : id.uid = 2
    · rw [DefaultSimulatorImpl.remove, if_pos hne]
      rfl
    · by_cases hexp : r.isExpired id = true
      · rw [r.remove_of_isExpired hne hexp]
        rfl
      · rw [Bool.not_eq_true] at hexp
        obtain ⟨impl, himpl, hmem, -⟩ :=
          (h.isExpired_eq_false_iff (mem_issued hadm.1 hne hexp) hne).1 hexp
        obtain ⟨rest, rfl⟩ := Multiset.exists_cons_of_mem hmem
        obtain ⟨events, hevents⟩ :=
          hrel.remove h.rep (PriorityQueue.fresh_of_nodup h.nodup_pending)
        rw [r.remove_of_not_isExpired hne himpl hexp, hevents]
        rfl
  | stop => rfl
  | processEventsWithContext =>
    obtain ⟨s, hs⟩ := exists_insertAll (r := { r with eventsWithContext := [] }) hq hrel { h with }
      hadm.1 hadm.2
    rw [Recorded.step, DefaultSimulatorImpl.processEventsWithContext, hs]
    rfl
  | popNext =>
    have hne : pending ≠ 0 := fun h0 => by
      have hemp := (hq.isEmpty_iff h.rep).2 h0
      rw [show PriorityQueue.isEmpty r.events = false from hpos] at hemp
      cases hemp
    obtain ⟨⟨e, events⟩, hp⟩ := hrel.removeNext h.rep hne
    obtain ⟨rest, rfl, -, -⟩ := hq.removeNext h.rep hp
    have hlt := h.later e (Multiset.mem_cons_self e rest)
    have hts : r.currentTs ≤ e.ts := by
      rcases Prod.Lex.toLex_lt_toLex.1 hlt with hlt | ⟨heq, -⟩
      · exact Nat.le_of_lt hlt
      · exact heq.le
    rw [Recorded.step, DefaultSimulatorImpl.popNext, hp]
    simp [hts]

/-- **No event is lost, and no assertion fails**: over a scheduler that does not fail, the run goes
through; every event has an identifier of its own and is processed, removed or pending, once; and
when the scheduler is empty, as it is when `Run` ends by itself, the counter of unscheduled events
is `0`. -/
theorem exists_run (hq : Lawful Rep CanRemove) (hrel : Reliable Rep) {events : ρ}
    (hempty : Rep events 0 0) {ops : List (Op ι)}
    (hadm : Run.Along step (fun r op => Admissible CanRemove r op ∧ Possible r op) (init events)
      ops) :
    ∃ r, Run.exec step (init events) ops = some r ∧
      (r.history.inserted.map Event.uid).Nodup ∧
      (∃ f pending, Rep r.events f pending ∧ r.unscheduledEvents = pending.card ∧
        (r.history.inserted : Multiset (Event ι)) =
          (r.history.processed : Multiset (Event ι)) +
            (r.history.removed : Multiset (Event ι)) + pending) ∧
      (PriorityQueue.isEmpty r.events = true → r.unscheduledEvents = 0 ∧
        r.history.inserted.Perm (r.history.processed ++ r.history.removed)) := by
  obtain ⟨r, hrun, f, pending, h⟩ := Run.exists_exec
    (I := fun r => ∃ f pending, Consistent Rep r f pending)
    (fun r op ⟨f, pending, h⟩ ⟨hadm, hpos⟩ => by
      obtain ⟨r', hr'⟩ := h.exists_step hq hrel hadm hpos
      exact ⟨r', hr', h.step hq hadm hr'⟩)
    ⟨0, 0, consistent_init hempty⟩ hadm
  refine ⟨r, hrun, h.nodup, ⟨f, pending, h.rep, h.unscheduled, h.accounts⟩, fun hemp => ?_⟩
  have h0 : pending = 0 := (hq.isEmpty_iff h.rep).1 hemp
  have hacc := h.accounts
  rw [h0, add_zero, Multiset.coe_add, Multiset.coe_eq_coe] at hacc
  exact ⟨by rw [h.unscheduled, h0]; rfl, hacc⟩

omit [DecidableEq ι] [PriorityQueue ρ (Event ι)] in
/-- An event that was inserted is pending unless it was processed or removed. -/
theorem Consistent.mem_pending_iff (h : Consistent Rep r f pending) {e : Event ι}
    (he : e ∈ r.history.inserted) :
    e ∈ pending ↔ e ∉ r.history.processed ∧ e ∉ r.history.removed := by
  have hnodup : ((r.history.processed : Multiset (Event ι)) +
      (r.history.removed : Multiset (Event ι)) + pending).Nodup := by
    rw [← h.accounts]
    exact Multiset.coe_nodup.2 (List.Nodup.of_map _ h.nodup)
  rw [Multiset.nodup_add] at hnodup
  constructor
  · intro hp
    have hdisj := Multiset.disjoint_right.1 hnodup.2.2 hp
    rw [Multiset.mem_add, not_or] at hdisj
    exact hdisj
  · rintro ⟨hproc, hrem⟩
    rcases h.mem_inserted.1 he with hp | hr | hp
    · exact absurd hp hproc
    · exact absurd hr hrem
    · exact hp

/-- **`IsExpired` is exact**: an identifier returned by `Schedule` or `ScheduleNow` has expired
exactly if its event was taken out to run, was removed, or has a cancelled `EventImpl`. -/
theorem isExpired_iff (hq : Lawful Rep CanRemove) {events : ρ} (hempty : Rep events 0 0)
    {ops : List (Op ι)} (hadm : Run.Along step (Admissible CanRemove) (init events) ops)
    (hrun : Run.exec step (init events) ops = some r) (hid : id ∈ r.history.issued)
    (hne : id.uid ≠ 2) :
    ∃ impl, id.impl = some impl ∧ ⟨impl, id.key⟩ ∈ r.history.inserted ∧
      (r.isExpired id = true ↔ ⟨impl, id.key⟩ ∈ r.history.processed ∨
        ⟨impl, id.key⟩ ∈ r.history.removed ∨ impl ∈ r.cancelled) := by
  obtain ⟨f, pending, h⟩ := exists_consistent hq hempty hadm hrun
  obtain ⟨impl, himpl, hmem⟩ := h.issued id hid hne
  refine ⟨impl, himpl, hmem, ?_⟩
  rw [← not_iff_not, Bool.not_eq_true, h.isExpired_eq_false_iff hid hne, not_or, not_or,
    ← and_assoc, ← h.mem_pending_iff hmem]
  constructor
  · rintro ⟨impl', himpl', hp, hnc⟩
    obtain rfl := Option.some.inj (himpl.symm.trans himpl')
    exact ⟨hp, hnc⟩
  · rintro ⟨hp, hnc⟩
    exact ⟨impl, himpl, hp, hnc⟩

end Recorded

end HpccSim
