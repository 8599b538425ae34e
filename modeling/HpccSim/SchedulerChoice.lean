import HpccSim.SimulatorOrder

/-!
# The scheduler makes no difference

`SetScheduler` replaces the scheduler, moving its events into the new one, and may be called at any
time. Two simulators that differ only in their schedulers, where both schedulers hold the same
events, take the same events out and return the same identifiers. So a program cannot tell which
scheduler is used, or that it was replaced: `Run` calls the same handlers, at the same times and
with the same results.

## Main definitions

* `Recorded.setScheduler`: `SetScheduler` of the source.
* `Program`, `Recorded.run`: what the events do when they are invoked, and the loop of `Run`.
* `Recorded.SameRun`: the same registers and history over two schedulers.

## Main results

* `Recorded.SameRun.step`, `Recorded.SameRun.exec`: the same steps are possible, with the same
  effects.
* `Recorded.sameRun_setScheduler`, `Recorded.run_setScheduler`: a replaced scheduler changes
  nothing in the rest of the run.
-/

namespace HpccSim

open Scheduler

variable {ρ ρ' ι σ : Type*}

/-- What an event does when it is invoked: from its `EventImpl`, the state of the program and the
registers of the simulator follow the new state and the calls to the simulator. -/
abbrev Program (σ ι : Type*) := ι → σ → Registers ι → σ × List (Op ι)

namespace Recorded

section Model

variable [DecidableEq ι] [PriorityQueue ρ (Event ι)] [PriorityQueue ρ' (Event ι)]

/-- The loop of `SetScheduler`, over at most `n` events. -/
def moveAll : ℕ → ρ → ρ' → Option ρ'
  | 0, old, new => if PriorityQueue.isEmpty old then some new else none
  | n + 1, old, new =>
    if PriorityQueue.isEmpty old then some new
    else (PriorityQueue.removeNext old).bind fun p =>
      (PriorityQueue.insert new p.1).bind fun new' => moveAll n p.2 new'

/-- `SetScheduler`, with a scheduler just created. -/
def setScheduler (r : Recorded ρ ι) (n : ℕ) (scheduler : ρ') : Option (Recorded ρ' ι) :=
  (moveAll n r.events scheduler).map fun events => ⟨⟨r.toRegisters, events⟩, r.history⟩

/-- The steps of `ProcessOneEvent`: the next event is taken out and, if it is not cancelled,
invoked; then what other threads have handed over is inserted. -/
def oneEvent (prog : Program σ ι) (st : σ) (r : Recorded ρ ι) : σ × List (Op ι) :=
  match r.popNext with
  | none => (st, [.popNext])
  | some (next, s) =>
    if s.isCancelled next.impl then (st, [.popNext, .processEventsWithContext])
    else
      let p := prog next.impl st s.toRegisters
      (p.1, .popNext :: p.2 ++ [.processEventsWithContext])

/-- The loop of `Run`, over at most `n` events. -/
def run (prog : Program σ ι) : ℕ → σ → Recorded ρ ι → Option (σ × Recorded ρ ι)
  | 0, st, r => some (st, r)
  | n + 1, st, r =>
    if PriorityQueue.isEmpty r.events || r.stop then some (st, r)
    else
      let p := oneEvent prog st r
      (Run.exec step r p.2).bind fun r' => run prog n p.1 r'

/-- Every step of the loop is one that may be taken. -/
def RunsAlong (C : Recorded ρ ι → Op ι → Prop) (prog : Program σ ι) :
    ℕ → σ → Recorded ρ ι → Prop
  | 0, _, _ => True
  | n + 1, st, r =>
    (PriorityQueue.isEmpty r.events || r.stop) = false →
      let p := oneEvent prog st r
      Run.Along step C r p.2 ∧ ∀ r', Run.exec step r p.2 = some r' → RunsAlong C prog n p.1 r'

end Model

/-- The same registers and history over two schedulers, both in order. -/
structure SameRun (Rep : ρ → ℕ → Multiset (Event ι) → Prop)
    (Rep' : ρ' → ℕ → Multiset (Event ι) → Prop) (r : Recorded ρ ι) (r' : Recorded ρ' ι) : Prop where
  registers : r.toRegisters = r'.toRegisters
  history : r.history = r'.history
  left : ∃ f pending, Consistent Rep r f pending
  right : ∃ f pending, Consistent Rep' r' f pending

variable {Rep : ρ → ℕ → Multiset (Event ι) → Prop} {CanRemove : ρ → Event ι → Prop}
  {Rep' : ρ' → ℕ → Multiset (Event ι) → Prop} {r t : Recorded ρ ι} {r' : Recorded ρ' ι}

/-- The history says which events are pending. -/
theorem SameRun.exists_pending (h : SameRun Rep Rep' r r') :
    ∃ f f' pending, Consistent Rep r f pending ∧ Consistent Rep' r' f' pending := by
  obtain ⟨-, hist, ⟨f, pending, hl⟩, f', pending', hr⟩ := h
  have hacc := hl.accounts.symm.trans (hist ▸ hr.accounts)
  rw [hist] at hacc
  obtain rfl := add_left_cancel hacc
  exact ⟨f, f', pending, hl, hr⟩

namespace SameRun

/-- What may be done over one scheduler may be done over the other, if it can remove all events. -/
theorem admissible [DecidableEq ι] (h : SameRun Rep Rep' r r') {op : Op ι}
    (hadm : r.Admissible CanRemove op) : r'.Admissible (fun _ _ => True) op := by
  have huids {n : ℕ} (hn : r.HasUids n) : r'.HasUids n := by
    rw [HasUids, ← h.registers]
    exact hn
  have hholds {id : EventId ι} (hid : r.Holds id) : r'.Holds id := by
    rw [Holds, ← h.history]
    exact hid
  cases op with
  | schedule time event => exact huids hadm
  | scheduleNow event => exact huids hadm
  | scheduleWithContext context time event =>
    rw [Admissible, ← h.registers]
    exact ⟨huids hadm.1, hadm.2⟩
  | handOver context time event => trivial
  | scheduleDestroy event => exact huids hadm
  | cancel id => exact hholds hadm
  | remove id => exact ⟨hholds hadm.1, fun _ _ _ _ => trivial⟩
  | stop => trivial
  | processEventsWithContext =>
    rw [Admissible, ← h.registers]
    exact ⟨huids hadm.1, hadm.2⟩
  | popNext => trivial

variable [PriorityQueue ρ (Event ι)] [PriorityQueue ρ' (Event ι)]

/-- The same insertion into both. -/
theorem insertEvent (hrel : Reliable Rep') (h : SameRun Rep Rep' r r') {ts context : ℕ}
    {impl : ι} {s : DefaultSimulatorImpl ρ ι} (hs : r.insertEvent ts context impl = some s)
    (hts : r.currentTs ≤ ts) (hts' : ts < 2 ^ 63) :
    ∃ s', r'.insertEvent ts context impl = some s' ∧ s.toRegisters = s'.toRegisters := by
  obtain ⟨f, f', pending, hl, hr⟩ := h.exists_pending
  rw [h.registers] at hts
  obtain ⟨s', hs'⟩ := hr.exists_insertEvent hrel context impl hts hts'
  refine ⟨s', hs', ?_⟩
  obtain ⟨events, -, rfl⟩ := Option.map_eq_some_iff.1 hs
  obtain ⟨events', -, rfl⟩ := Option.map_eq_some_iff.1 hs'
  simp [h.registers]

/-- The same insertions of what other threads have handed over. -/
theorem insertAll (hq : Lawful Rep CanRemove) (hq' : Lawful Rep' fun _ _ => True)
    (hrel : Reliable Rep') {es : List (EventWithContext ι)} {s : DefaultSimulatorImpl ρ ι}
    (h : SameRun Rep Rep' r r')
    (hs : DefaultSimulatorImpl.insertAll r.toDefaultSimulatorImpl es = some s)
    (huid : r.HasUids es.length) (hes : ∀ e ∈ es, r.currentTs + e.timestamp < 2 ^ 63) :
    ∃ s', DefaultSimulatorImpl.insertAll r'.toDefaultSimulatorImpl es = some s' ∧
      s.toRegisters = s'.toRegisters := by
  induction es generalizing r r' with
  | nil =>
    cases hs
    exact ⟨_, rfl, h.registers⟩
  | cons e es ih =>
    obtain ⟨s₁, hs₁, hs⟩ := Option.bind_eq_some_iff.1 hs
    have he := hes e List.mem_cons_self
    have hmod : (r.currentTs + e.timestamp) % 2 ^ 64 = r.currentTs + e.timestamp :=
      Nat.mod_eq_of_lt (by omega)
    rw [HasUids, List.length_cons] at huid
    rw [hmod] at hs₁
    obtain ⟨s₁', hs₁', hregs⟩ := h.insertEvent hrel hs₁ (Nat.le_add_right _ _) he
    obtain ⟨f, f', pending, hl, hr⟩ := h.exists_pending
    have hone : r.HasUids 1 := by rw [HasUids]; omega
    have hl₁ := hl.insertEvent hq hs₁ (Nat.le_add_right _ _) he hone
    have hone' : r'.HasUids 1 := by rw [HasUids, ← h.registers]; exact hone
    rw [h.registers] at he
    have hr₁ := hr.insertEvent hq' hs₁' (by rw [h.registers]; exact Nat.le_add_right _ _)
      (by rw [h.registers]; exact he) hone'
    have hnext : SameRun Rep Rep' _ _ := ⟨hregs, congrArg₂ History.insert h.history (by
      rw [DefaultSimulatorImpl.newEvent, DefaultSimulatorImpl.newEvent, h.registers]),
      ⟨f, _, hl₁⟩, f', _, hr₁⟩
    obtain ⟨events, -, rfl⟩ := Option.map_eq_some_iff.1 hs₁
    have hmod' : (r.uid + 1) % 2 ^ 32 = r.uid + 1 := Nat.mod_eq_of_lt (by omega)
    obtain ⟨s', hs', hregs'⟩ := ih hnext hs
      (by rw [HasUids]; change (r.uid + 1) % 2 ^ 32 + _ < _; omega)
      fun e' he' => hes e' (List.mem_cons_of_mem e he')
    refine ⟨s', Option.bind_eq_some_iff.2 ⟨s₁', ?_, hs'⟩, hregs'⟩
    rw [← h.registers, hmod]
    exact hs₁'

/-- **The same step** is possible, with the same effect. -/
theorem step [DecidableEq ι] (hq : Lawful Rep CanRemove) (hq' : Lawful Rep' fun _ _ => True)
    (hrel : Reliable Rep') (h : SameRun Rep Rep' r r') {op : Op ι}
    (hadm : r.Admissible CanRemove op) (hstep : r.step op = some t) :
    ∃ t', r'.step op = some t' ∧ SameRun Rep Rep' t t' := by
  obtain ⟨f, f', pending, hl, hr⟩ := h.exists_pending
  have hadm' := h.admissible hadm
  -- it is enough to find the step: the invariant holds after it on both sides
  suffices hsuff : ∃ t', r'.step op = some t' ∧ t.toRegisters = t'.toRegisters ∧
      t.history = t'.history by
    obtain ⟨t', hstep', hregs, hist⟩ := hsuff
    exact ⟨t', hstep', hregs, hist, hl.step hq hadm hstep, hr.step hq' hadm' hstep'⟩
  have hregs := h.registers
  have hist := h.history
  cases op with
  | schedule time event =>
    obtain ⟨⟨id, s⟩, hs, rfl⟩ := Option.map_eq_some_iff.1 hstep
    obtain ⟨hassert, hs⟩ := r.schedule_eq_some hs
    obtain ⟨s₁, hs₁, heq⟩ := Option.map_eq_some_iff.1 hs
    cases heq
    obtain ⟨hle, hlt⟩ := hl.le_absoluteTime hassert.1 hassert.2
    obtain ⟨s', hs', hsame⟩ := h.insertEvent hrel hs₁ hle hlt
    have htime : r'.absoluteTime time = r.absoluteTime time := by
      rw [DefaultSimulatorImpl.absoluteTime, DefaultSimulatorImpl.absoluteTime, hregs]
    rw [Recorded.step, DefaultSimulatorImpl.schedule, htime]
    dsimp only
    rw [← hregs, if_pos hassert, hs']
    exact ⟨_, rfl, hsame, by rw [hist]⟩
  | scheduleNow event =>
    obtain ⟨p, hs, rfl⟩ := Option.map_eq_some_iff.1 hstep
    obtain ⟨s₁, hs₁, rfl⟩ := Option.map_eq_some_iff.1 hs
    obtain ⟨s', hs', hsame⟩ := h.insertEvent hrel hs₁ le_rfl hl.currentTs_lt
    rw [Recorded.step, DefaultSimulatorImpl.scheduleNow, ← hregs, hs']
    exact ⟨_, rfl, hsame, by rw [hist]⟩
  | scheduleWithContext context time event =>
    obtain ⟨s, hs, rfl⟩ := Option.map_eq_some_iff.1 hstep
    obtain ⟨-, hpos, hlt⟩ := hadm
    have htime := Consistent.contextTime_eq hpos hlt
    obtain ⟨s', hs', hsame⟩ := h.insertEvent hrel hs (by omega) (by omega)
    have htime' : r'.contextTime time = r.contextTime time := by
      rw [DefaultSimulatorImpl.contextTime, DefaultSimulatorImpl.contextTime,
        DefaultSimulatorImpl.absoluteTime, DefaultSimulatorImpl.absoluteTime, hregs]
    rw [Recorded.step, DefaultSimulatorImpl.scheduleWithContext, htime', hs']
    exact ⟨_, rfl, hsame, by
      rw [hist, DefaultSimulatorImpl.newEvent, DefaultSimulatorImpl.newEvent, hregs]⟩
  | handOver context time event =>
    cases hstep
    exact ⟨_, rfl, congrArg (Registers.handOver · context time event) hregs, hist⟩
  | scheduleDestroy event =>
    cases hstep
    exact ⟨_, rfl, congrArg (fun s => (Registers.scheduleDestroy s event).2) hregs, by
      dsimp only
      rw [hist, hregs]⟩
  | cancel id =>
    cases hstep
    exact ⟨_, rfl, congrArg (Registers.cancel · id) hregs, hist⟩
  | remove id =>
    obtain ⟨s, hs, rfl⟩ := Option.map_eq_some_iff.1 hstep
    obtain ⟨t', hstep'⟩ := hr.exists_step hq' hrel hadm' trivial
    refine ⟨t', hstep', ?_⟩
    obtain ⟨s', hs', rfl⟩ := Option.map_eq_some_iff.1 hstep'
    rw [← hregs, ← hist]
    refine ⟨?_, rfl⟩
    by_cases hne : id.uid = 2
    · rw [DefaultSimulatorImpl.remove, if_pos hne] at hs hs'
      cases hs
      cases hs'
      exact congrArg (fun s : Registers ι =>
        { s with destroyEvents := s.destroyEvents.erase id }) hregs
    · by_cases hexp : r.isExpired id = true
      · rw [r.remove_of_isExpired hne hexp] at hs
        rw [r'.remove_of_isExpired hne (hregs ▸ hexp)] at hs'
        cases hs
        cases hs'
        exact hregs
      · rw [Bool.not_eq_true] at hexp
        obtain ⟨impl, himpl, -⟩ := (hl.isExpired_eq_false_iff
          (Consistent.mem_issued hadm.1 hne hexp) hne).1 hexp
        rw [r.remove_of_not_isExpired hne himpl hexp] at hs
        rw [r'.remove_of_not_isExpired hne himpl (hregs ▸ hexp)] at hs'
        obtain ⟨events, -, rfl⟩ := Option.map_eq_some_iff.1 hs
        obtain ⟨events', -, rfl⟩ := Option.map_eq_some_iff.1 hs'
        exact congrArg (fun s : Registers ι =>
          { s.cancelImpl impl with unscheduledEvents := s.unscheduledEvents - 1 }) hregs
  | stop =>
    cases hstep
    exact ⟨_, rfl, congrArg (fun s : Registers ι => { s with stop := true }) hregs, hist⟩
  | processEventsWithContext =>
    obtain ⟨s, hs, rfl⟩ := Option.map_eq_some_iff.1 hstep
    have hcleared : SameRun Rep Rep' { r with eventsWithContext := [] }
        { r' with eventsWithContext := [] } :=
      ⟨congrArg (fun s : Registers ι => { s with eventsWithContext := [] }) hregs, hist,
        ⟨f, pending, { hl with }⟩, f', pending, { hr with }⟩
    obtain ⟨s', hs', hsame⟩ := hcleared.insertAll hq hq' hrel hs hadm.1 hadm.2
    refine ⟨_, Option.map_eq_some_iff.2 ⟨s', ?_, rfl⟩, hsame, by dsimp only; rw [hist, hregs]⟩
    rw [DefaultSimulatorImpl.processEventsWithContext,
      ← show r.eventsWithContext = r'.eventsWithContext from
        congrArg Registers.eventsWithContext hregs]
    exact hs'
  | popNext =>
    obtain ⟨⟨e, s⟩, hs, rfl⟩ := Option.map_eq_some_iff.1 hstep
    obtain ⟨⟨e₁, events⟩, hnext, hs⟩ := Option.bind_eq_some_iff.1 hs
    split_ifs at hs with hts
    cases hs
    have hne : pending ≠ 0 := by
      obtain ⟨rest, rfl, -⟩ := hq.removeNext hl.rep hnext
      exact Multiset.cons_ne_zero
    obtain ⟨⟨e', events'⟩, hnext'⟩ := hrel.removeNext hr.rep hne
    obtain ⟨rfl, -⟩ := PriorityQueue.removeNext_eq hq hq' Event.uid_eq_of_rank_eq hl.nodup_pending
      hl.rep hr.rep hnext hnext'
    rw [Recorded.step, DefaultSimulatorImpl.popNext, hnext', Option.bind_some, ← hregs, if_pos hts]
    exact ⟨_, rfl, rfl, by rw [hist]⟩

variable [DecidableEq ι]

/-- **The same steps** are possible, with the same effects. -/
theorem exec (hq : Lawful Rep CanRemove) (hq' : Lawful Rep' fun _ _ => True)
    (hrel : Reliable Rep') {ops : List (Op ι)} (h : SameRun Rep Rep' r r')
    (hadm : Run.Along Recorded.step (Admissible CanRemove) r ops)
    (hrun : Run.exec Recorded.step r ops = some t) :
    ∃ t', Run.exec Recorded.step r' ops = some t' ∧ SameRun Rep Rep' t t' := by
  induction ops generalizing r r' with
  | nil =>
    cases hrun
    exact ⟨r', rfl, h⟩
  | cons op ops ih =>
    obtain ⟨r₁, hstep, hrest⟩ := Run.exec_cons_eq_some.1 hrun
    obtain ⟨r₁', hstep', h₁⟩ := h.step hq hq' hrel hadm.1 hstep
    obtain ⟨t', hrest', ht⟩ := ih h₁ (hadm.2 r₁ hstep) hrest
    exact ⟨t', Run.exec_cons_eq_some.2 ⟨r₁', hstep', hrest'⟩, ht⟩

omit [DecidableEq ι] in
/-- The schedulers are empty together. -/
theorem isEmpty_eq (hq : Lawful Rep CanRemove) (hq' : Lawful Rep' fun _ _ => True)
    (h : SameRun Rep Rep' r r') :
    PriorityQueue.isEmpty r.events = PriorityQueue.isEmpty r'.events := by
  obtain ⟨f, f', pending, hl, hr⟩ := h.exists_pending
  rw [Bool.eq_iff_iff, hq.isEmpty_iff hl.rep, hq'.isEmpty_iff hr.rep]

/-- The next event does the same over both. -/
theorem oneEvent_eq (hq : Lawful Rep CanRemove) (hq' : Lawful Rep' fun _ _ => True)
    (hrel : Reliable Rep') (h : SameRun Rep Rep' r r') (prog : Program σ ι) (st : σ)
    {e : Event ι} {s : DefaultSimulatorImpl ρ ι} (hs : r.popNext = some (e, s)) :
    oneEvent prog st r = oneEvent prog st r' := by
  have hstep : r.step .popNext = some ⟨s, r.history.process e⟩ := by rw [Recorded.step, hs]; rfl
  have hadm : r.Admissible CanRemove .popNext := trivial
  obtain ⟨t', hstep', hsame⟩ := h.step hq hq' hrel hadm hstep
  obtain ⟨⟨e', s'⟩, hs', rfl⟩ := Option.map_eq_some_iff.1 hstep'
  have he : e = e' := by
    have hist := congrArg History.processed hsame.history
    rw [History.process, History.process, h.history] at hist
    exact List.singleton_inj.1 (List.append_cancel_left hist)
  have hregs : s.toRegisters = s'.toRegisters := hsame.registers
  rw [oneEvent, oneEvent, hs, hs', he]
  simp only [hregs]

end SameRun

/-- **The scheduler makes no difference to `Run`**: over a second scheduler that holds the same
events, the loop calls the same handlers with the same registers, and ends in the same state of the
program and the same registers. -/
theorem SameRun.run [DecidableEq ι] [PriorityQueue ρ (Event ι)] [PriorityQueue ρ' (Event ι)]
    (hq : Lawful Rep CanRemove) (hq' : Lawful Rep' fun _ _ => True) (hrel : Reliable Rep')
    (prog : Program σ ι) {n : ℕ} {st st' : σ} (h : SameRun Rep Rep' r r')
    (hadm : RunsAlong (Admissible CanRemove) prog n st r)
    (hrun : Recorded.run prog n st r = some (st', t)) :
    ∃ t', Recorded.run prog n st r' = some (st', t') ∧ SameRun Rep Rep' t t' := by
  induction n generalizing st r r' with
  | zero =>
    cases hrun
    exact ⟨r', rfl, h⟩
  | succ n ih =>
    have hdone : (PriorityQueue.isEmpty r'.events || r'.stop) =
        (PriorityQueue.isEmpty r.events || r.stop) := by
      rw [h.isEmpty_eq hq hq', h.registers]
    rw [Recorded.run, hdone]
    rw [Recorded.run] at hrun
    split_ifs at hrun ⊢ with hd
    · cases hrun
      exact ⟨r', rfl, h⟩
    · obtain ⟨r₁, hexec, hrest⟩ := Option.bind_eq_some_iff.1 hrun
      obtain ⟨halong, hnext⟩ := hadm (Bool.not_eq_true _ ▸ hd)
      obtain ⟨⟨e, s⟩, hs⟩ : ∃ p, r.popNext = some p := by
        cases hp : r.popNext with
        | some p => exact ⟨p, rfl⟩
        | none =>
          rw [oneEvent, hp, Run.exec_single, Recorded.step, hp] at hexec
          cases hexec
      rw [← h.oneEvent_eq hq hq' hrel prog st hs]
      obtain ⟨r₁', hexec', h₁⟩ := h.exec hq hq' hrel halong hexec
      obtain ⟨t', hrun', ht⟩ := ih h₁ (hnext r₁ hexec) hrest
      exact ⟨t', Option.bind_eq_some_iff.2 ⟨r₁', hexec', hrun'⟩, ht⟩

/-! ### Replacing the scheduler -/

section SetScheduler

variable [PriorityQueue ρ (Event ι)] [PriorityQueue ρ' (Event ι)]

/-- All events are moved, if the loop may go on for as many. -/
theorem exists_moveAll (hq : Lawful Rep CanRemove) (hrel : Reliable Rep)
    {CanRemove' : ρ' → Event ι → Prop} (hq' : Lawful Rep' CanRemove') (hrel' : Reliable Rep')
    {n f : ℕ} {old : ρ} {new : ρ'} {s s' : Multiset (Event ι)} (hold : Rep old f s)
    (hnew : Rep' new 0 s') (hts : ∀ e ∈ s, IsTime e) (hn : s.card ≤ n)
    (hnodup : ((s + s').map Event.uid).Nodup) :
    ∃ moved, moveAll n old new = some moved ∧ Rep' moved 0 (s + s') := by
  induction n generalizing old new f s s' with
  | zero =>
    obtain rfl := Multiset.card_eq_zero.1 (Nat.le_zero.1 hn)
    exact ⟨new, if_pos ((hq.isEmpty_iff hold).2 rfl), by rwa [zero_add]⟩
  | succ n ih =>
    by_cases h0 : s = 0
    · subst h0
      exact ⟨new, if_pos ((hq.isEmpty_iff hold).2 rfl), by rwa [zero_add]⟩
    · obtain ⟨⟨e, old'⟩, hnext⟩ := hrel.removeNext hold h0
      obtain ⟨rest, rfl, -, hold'⟩ := hq.removeNext hold hnext
      have hmove : e ::ₘ rest + s' = rest + e ::ₘ s' := by
        rw [Multiset.cons_add, Multiset.add_cons]
      have hfresh : Fresh s' e := by
        rw [Multiset.cons_add] at hnodup
        exact fun x hx => PriorityQueue.fresh_of_nodup hnodup x (Multiset.mem_add.2 (.inr hx))
      have htime := hts e (Multiset.mem_cons_self e rest)
      obtain ⟨new', hins⟩ := hrel'.insert hnew htime (Nat.zero_le _) hfresh
      rw [Multiset.card_cons] at hn
      rw [hmove] at hnodup ⊢
      obtain ⟨moved, hmoved, hrep⟩ := ih hold'
        (hq'.insert hnew htime (Nat.zero_le _) hfresh hins)
        (fun x hx => hts x (Multiset.mem_cons_of_mem hx)) (Nat.le_of_succ_le_succ hn) hnodup
      refine ⟨moved, ?_, hrep⟩
      rw [moveAll, if_neg fun hemp => h0 ((hq.isEmpty_iff hold).1 hemp), hnext, Option.bind_some,
        hins, Option.bind_some, hmoved]

/-- **`SetScheduler`** moves all events into the new scheduler. -/
theorem sameRun_setScheduler (hq : Lawful Rep CanRemove) (hrel : Reliable Rep)
    (hq' : Lawful Rep' fun _ _ => True) (hrel' : Reliable Rep') {f n : ℕ}
    {pending : Multiset (Event ι)} (h : Consistent Rep r f pending) (hn : pending.card ≤ n)
    {scheduler : ρ'} (hempty : Rep' scheduler 0 0) :
    ∃ r', setScheduler r n scheduler = some r' ∧ SameRun Rep Rep' r r' := by
  obtain ⟨moved, hmoved, hrep⟩ := exists_moveAll hq hrel hq' hrel' h.rep hempty h.ts_lt hn
    (by rw [add_zero]; exact h.nodup_pending)
  rw [add_zero] at hrep
  refine ⟨_, Option.map_eq_some_iff.2 ⟨moved, hmoved, rfl⟩, rfl, rfl, ⟨f, pending, h⟩, 0, pending,
    { h with rep := hrep, floor_le := Nat.zero_le _ }⟩

end SetScheduler

/-- **A replaced scheduler changes nothing**: whatever was done before over a scheduler that obeys
the laws, `SetScheduler` succeeds, and the rest of the run over the new scheduler is the same. -/
theorem run_setScheduler [DecidableEq ι] [PriorityQueue ρ (Event ι)] [PriorityQueue ρ' (Event ι)]
    (hq : Lawful Rep CanRemove) (hrel : Reliable Rep) (hq' : Lawful Rep' fun _ _ => True)
    (hrel' : Reliable Rep') {events : ρ} (hempty : Rep events 0 0) {scheduler : ρ'}
    (hempty' : Rep' scheduler 0 0) {ops : List (Op ι)}
    (hadm : Run.Along step (Admissible CanRemove) (init events) ops)
    (hops : Run.exec step (init events) ops = some r) {n : ℕ}
    (hn : r.unscheduledEvents ≤ n) :
    ∃ r', setScheduler r n scheduler = some r' ∧
      ∀ (prog : Program σ ι) (m : ℕ) (st st' : σ) (t : Recorded ρ ι),
        RunsAlong (Admissible CanRemove) prog m st r → run prog m st r = some (st', t) →
        ∃ t', run prog m st r' = some (st', t') ∧ t.toRegisters = t'.toRegisters ∧
          t.history = t'.history := by
  obtain ⟨f, pending, h⟩ := exists_consistent hq hempty hadm hops
  rw [h.unscheduled, Int.ofNat_le] at hn
  obtain ⟨r', hset, hsame⟩ := sameRun_setScheduler hq hrel hq' hrel' h hn hempty'
  refine ⟨r', hset, fun prog m st st' t hadm' hrun => ?_⟩
  obtain ⟨t', hrun', ht⟩ := hsame.run hq hq' hrel' prog hadm' hrun
  exact ⟨t', hrun', ht.registers, ht.history⟩

end Recorded

end HpccSim
