import Mathlib.Data.List.Infix

/-!
# Runs of a partial step function

A system is given by a step function `step : σ → α → Option σ`: in state `s` the action `a` is
either impossible (`none`) or leads to one state. Nondeterminism is the choice of the actions, so
a statement about every list of actions is a statement about every behaviour.

## Main definitions

* `Run.exec step s as`: the state after the actions `as`, if all of them are possible.
* `Run.Always step Q s as`: `Q` holds in every state passed through, the first included.
* `Run.Along step C s as`: every step taken, from its state and its action, satisfies `C`.
* `Run.Reach step C s t`: some run along `C` leads from `s` to `t`.

## Main results

* `Run.exec_induction`: an invariant kept by the steps satisfying `C` holds after a run along `C`.
* `Run.exec_invariant`: an invariant kept by every step holds after every run.
* `Run.always_of_invariant`: the same for all states passed through.
* `Run.along_of_always`: if the steps breaking `C` lead to bad states, a run through good states
  only goes along `C`.
* `Run.exec_eq_exec`: two runs by related actions end in the same state.
* `Run.along_map_iff`, `Run.always_map_iff`: the runs of a system seen through a function.
* `Run.reach_of_exec`: the runs of a system that another one simulates.
-/

namespace Run

variable {σ α : Type*} (step : σ → α → Option σ)

/-- The state after the actions `as` from `s`, if each of them is possible. -/
def exec : σ → List α → Option σ
  | s, [] => some s
  | s, a :: as => (step s a).bind fun s' => exec s' as

/-- `Q` holds in every state passed through by the actions `as` from `s`. -/
def Always (Q : σ → Prop) : σ → List α → Prop
  | s, [] => Q s
  | s, a :: as => Q s ∧ ∀ s', step s a = some s' → Always Q s' as

/-- Every step taken by the actions `as` from `s` satisfies `C`. -/
def Along (C : σ → α → Prop) : σ → List α → Prop
  | _, [] => True
  | s, a :: as => C s a ∧ ∀ s', step s a = some s' → Along C s' as

/-- Some run along `C` leads from `s` to `t`. -/
def Reach (C : σ → α → Prop) (s t : σ) : Prop :=
  ∃ as, Along step C s as ∧ exec step s as = some t

variable {step}

@[simp] theorem exec_nil (s : σ) : exec step s [] = some s := rfl

theorem exec_cons_eq_some {s t : σ} {a : α} {as : List α} :
    exec step s (a :: as) = some t ↔ ∃ s', step s a = some s' ∧ exec step s' as = some t := by
  simp [exec, Option.bind_eq_some_iff]

theorem exec_append_eq_some {s t : σ} {as bs : List α} :
    exec step s (as ++ bs) = some t ↔
      ∃ s', exec step s as = some s' ∧ exec step s' bs = some t := by
  induction as generalizing s with
  | nil => simp
  | cons a as ih =>
    simp only [List.cons_append, exec_cons_eq_some, ih]
    constructor
    · rintro ⟨s₁, h₁, s₂, h₂, h₃⟩
      exact ⟨s₂, ⟨s₁, h₁, h₂⟩, h₃⟩
    · rintro ⟨s₂, ⟨s₁, h₁, h₂⟩, h₃⟩
      exact ⟨s₁, h₁, s₂, h₂, h₃⟩

theorem exec_trans {s t u : σ} {as bs : List α} (h : exec step s as = some t)
    (h' : exec step t bs = some u) : exec step s (as ++ bs) = some u :=
  exec_append_eq_some.2 ⟨t, h, h'⟩

theorem exec_single {s t : σ} {a : α} : exec step s [a] = some t ↔ step s a = some t := by
  simp [exec_cons_eq_some]

/-- **Invariants along a run.** What holds at first and is kept by every step satisfying `C`
holds after a run along `C`. -/
theorem exec_induction {I : σ → Prop} {C : σ → α → Prop}
    (hstep : ∀ s a s', I s → C s a → step s a = some s' → I s')
    {s t : σ} {as : List α} (hs : I s) (hC : Along step C s as) (h : exec step s as = some t) :
    I t := by
  induction as generalizing s with
  | nil =>
    cases h
    exact hs
  | cons a as ih =>
    obtain ⟨s', h₁, h₂⟩ := exec_cons_eq_some.1 h
    exact ih (hstep s a s' hs hC.1 h₁) (hC.2 s' h₁) h₂

/-- If every step satisfying `C` is possible, and keeps the invariant, so is a run along `C`. -/
theorem exists_exec {I : σ → Prop} {C : σ → α → Prop}
    (hstep : ∀ s a, I s → C s a → ∃ s', step s a = some s' ∧ I s')
    {s : σ} {as : List α} (hs : I s) (hC : Along step C s as) :
    ∃ t, exec step s as = some t ∧ I t := by
  induction as generalizing s with
  | nil => exact ⟨s, rfl, hs⟩
  | cons a as ih =>
    obtain ⟨s', h₁, hs'⟩ := hstep s a hs hC.1
    obtain ⟨t, h₂, ht⟩ := ih hs' (hC.2 s' h₁)
    exact ⟨t, exec_cons_eq_some.2 ⟨s', h₁, h₂⟩, ht⟩

theorem along_of_forall {C : σ → α → Prop} {as : List α} (h : ∀ s, ∀ a ∈ as, C s a) (s : σ) :
    Along step C s as := by
  induction as generalizing s with
  | nil => trivial
  | cons a as ih =>
    exact ⟨h s a List.mem_cons_self,
      fun s' _ => ih (fun s b hb => h s b (List.mem_cons_of_mem _ hb)) s'⟩

/-- What holds at first and is kept by every step holds after every run. -/
theorem exec_invariant {I : σ → Prop} (hstep : ∀ s a s', I s → step s a = some s' → I s')
    {s t : σ} {as : List α} (hs : I s) (h : exec step s as = some t) : I t :=
  exec_induction (C := fun _ _ => True) (fun s a s' hs _ => hstep s a s' hs) hs
    (along_of_forall (fun _ _ _ => trivial) s) h

/-- A run along `C` is one along `C'`, if `C` implies `C'` for its actions. -/
theorem Along.mono {C C' : σ → α → Prop} {s : σ} {as : List α} (h : Along step C s as)
    (himp : ∀ s, ∀ a ∈ as, C s a → C' s a) : Along step C' s as := by
  induction as generalizing s with
  | nil => trivial
  | cons a as ih =>
    exact ⟨himp s a List.mem_cons_self h.1,
      fun s' hs' => ih (h.2 s' hs') fun t b hb => himp t b (List.mem_cons_of_mem _ hb)⟩

/-- If `C` and `C'` agree on the steps from the states satisfying an invariant, which the steps
satisfying `C` keep, a run goes along `C` exactly if it goes along `C'`. -/
theorem along_iff_along {I : σ → Prop} {C C' : σ → α → Prop} {s : σ} {as : List α}
    (hagree : ∀ s, ∀ a ∈ as, I s → (C s a ↔ C' s a))
    (hstep : ∀ s a s', I s → C s a → step s a = some s' → I s') (hs : I s) :
    Along step C s as ↔ Along step C' s as := by
  induction as generalizing s with
  | nil => exact Iff.rfl
  | cons a as ih =>
    have hrest {t : σ} (ht : I t) : Along step C t as ↔ Along step C' t as :=
      ih (fun u b hb => hagree u b (List.mem_cons_of_mem _ hb)) ht
    have ha := hagree s a List.mem_cons_self hs
    constructor
    · rintro ⟨hC, htail⟩
      exact ⟨ha.1 hC, fun s' h => (hrest (hstep s a s' hs hC h)).1 (htail s' h)⟩
    · rintro ⟨hC, htail⟩
      exact ⟨ha.2 hC, fun s' h => (hrest (hstep s a s' hs (ha.2 hC) h)).2 (htail s' h)⟩

/-- An invariant kept by the steps satisfying `C` holds in every state of a run along `C`. -/
theorem always_of_invariant {I Q : σ → Prop} {C : σ → α → Prop}
    (hstep : ∀ s a s', I s → C s a → step s a = some s' → I s') (hQ : ∀ s, I s → Q s)
    {s : σ} {as : List α} (hs : I s) (hC : Along step C s as) : Always step Q s as := by
  induction as generalizing s with
  | nil => exact hQ s hs
  | cons a as ih =>
    exact ⟨hQ s hs, fun s' h => ih (hstep s a s' hs hC.1 h) (hC.2 s' h)⟩

theorem Always.head {Q : σ → Prop} {s : σ} {as : List α} (h : Always step Q s as) : Q s := by
  cases as with
  | nil => exact h
  | cons a as => exact h.1

theorem Always.mono {P Q : σ → Prop} (himp : ∀ s, P s → Q s) {s : σ} {as : List α}
    (h : Always step P s as) : Always step Q s as := by
  induction as generalizing s with
  | nil => exact himp s h
  | cons a as ih => exact ⟨himp s h.1, fun s' hs' => ih (h.2 s' hs')⟩

theorem Always.and {P Q : σ → Prop} {s : σ} {as : List α} (h : Always step P s as)
    (h' : Always step Q s as) : Always step (fun s => P s ∧ Q s) s as := by
  induction as generalizing s with
  | nil => exact ⟨h, h'⟩
  | cons a as ih => exact ⟨⟨h.1, h'.1⟩, fun s' hs' => ih (h.2 s' hs') (h'.2 s' hs')⟩

theorem Always.last {Q : σ → Prop} {s t : σ} {as : List α} (h : Always step Q s as)
    (ht : exec step s as = some t) : Q t := by
  induction as generalizing s with
  | nil =>
    cases ht
    exact h
  | cons a as ih =>
    obtain ⟨s', h₁, h₂⟩ := exec_cons_eq_some.1 ht
    exact ih (h.2 s' h₁) h₂

instance decidableAlong {C : σ → α → Prop} [∀ s a, Decidable (C s a)] :
    ∀ s as, Decidable (Along step C s as)
  | _, [] => isTrue trivial
  | s, a :: as =>
    match h : step s a with
    | none => decidable_of_iff (C s a) (by simp [Along, h])
    | some s' =>
      have := decidableAlong (C := C) s' as
      decidable_of_iff (C s a ∧ Along step C s' as) (by simp [Along, h])

/-- If a step out of a good state that breaks `C` leads to a bad state, a run through good states
only goes along `C`. -/
theorem along_of_always {I Q : σ → Prop} {C : σ → α → Prop}
    (hstep : ∀ s a s', I s → Q s → C s a → step s a = some s' → I s')
    (hbad : ∀ s a, I s → Q s → ¬ C s a → ∃ s', step s a = some s' ∧ ¬ Q s')
    {s : σ} {as : List α} (hs : I s) (h : Always step Q s as) : Along step C s as := by
  induction as generalizing s with
  | nil => trivial
  | cons a as ih =>
    have hC : C s a := by
      by_contra hn
      obtain ⟨s', h₁, h₂⟩ := hbad s a hs h.1 hn
      exact h₂ (h.2 s' h₁).head
    exact ⟨hC, fun s' h' => ih (hstep s a s' hs h.1 hC h') (h.2 s' h')⟩

/-- If, from the states satisfying an invariant and `Q`, the steps satisfying `C` are those that
satisfy `C'` and lead to states satisfying `Q` again, then the runs along `C` are those along `C'`
through states satisfying `Q`. -/
theorem along_iff_along_and_always {I Q : σ → Prop} {C C' : σ → α → Prop}
    (hagree : ∀ s a, I s → Q s → (C s a ↔ C' s a ∧ ∀ s', step s a = some s' → Q s'))
    (hstep : ∀ s a s', I s → step s a = some s' → I s')
    {s : σ} {as : List α} (hs : I s) (hQ : Q s) :
    Along step C s as ↔ Along step C' s as ∧ Always step Q s as := by
  induction as generalizing s with
  | nil => exact ⟨fun _ => ⟨trivial, hQ⟩, fun _ => trivial⟩
  | cons a as ih =>
    have ha := hagree s a hs hQ
    constructor
    · rintro ⟨hC, htail⟩
      obtain ⟨hC', hnext⟩ := ha.1 hC
      have hrest {s' : σ} (h : step s a = some s') :=
        (ih (hstep s a s' hs h) (hnext s' h)).1 (htail s' h)
      exact ⟨⟨hC', fun s' h => (hrest h).1⟩, hQ, fun s' h => (hrest h).2⟩
    · rintro ⟨⟨hC', htail⟩, -, halways⟩
      have hnext {s' : σ} (h : step s a = some s') : Q s' := (halways s' h).head
      exact ⟨ha.2 ⟨hC', fun s' h => hnext h⟩, fun s' h =>
        (ih (hstep s a s' hs h) (hnext h)).2 ⟨htail s' h, halways s' h⟩⟩

/-- **Two runs.** If related actions that both satisfy `C` have the same effect, two runs along `C`
by related actions end in the same state. -/
theorem exec_eq_exec {I : σ → Prop} {C : σ → α → Prop} {R : α → α → Prop}
    (hsame : ∀ s a b, I s → R a b → C s a → C s b → step s a = step s b)
    (hstep : ∀ s a s', I s → step s a = some s' → I s')
    {s : σ} {as bs : List α} (hR : List.Forall₂ R as bs) (hs : I s) (hA : Along step C s as)
    (hB : Along step C s bs) : exec step s as = exec step s bs := by
  induction hR generalizing s with
  | nil => rfl
  | @cons a b as bs hab _ ih =>
    have heq := hsame s a b hs hab hA.1 hB.1
    rw [exec, exec, ← heq]
    cases hnext : step s a with
    | none => rfl
    | some s' => exact ih (hstep s a s' hs hnext) (hA.2 s' hnext) (hB.2 s' (heq ▸ hnext))

/-! ### A system seen through a function -/

section Map

variable {τ : Type*} {step' : τ → α → Option τ} {φ : σ → τ}

/-- If a function takes the steps of one system to those of another, it takes the runs along a
condition to the runs along it. -/
theorem along_map_iff {C : τ → α → Prop} (hφ : ∀ s a, step' (φ s) a = (step s a).map φ) {s : σ}
    {as : List α} : Along step' C (φ s) as ↔ Along step (fun s a => C (φ s) a) s as := by
  induction as generalizing s with
  | nil => exact Iff.rfl
  | cons a as ih =>
    simp only [Along, hφ, Option.map_eq_some_iff, forall_exists_index, and_imp,
      forall_apply_eq_imp_iff₂, ih]

/-- It also takes their states to each other. -/
theorem always_map_iff {Q : τ → Prop} (hφ : ∀ s a, step' (φ s) a = (step s a).map φ) {s : σ}
    {as : List α} : Always step' Q (φ s) as ↔ Always step (fun s => Q (φ s)) s as := by
  induction as generalizing s with
  | nil => exact Iff.rfl
  | cons a as ih =>
    simp only [Always, hφ, Option.map_eq_some_iff, forall_exists_index, and_imp,
      forall_apply_eq_imp_iff₂, ih]

end Map

/-! ### Building runs -/

theorem along_append {C : σ → α → Prop} {s t : σ} {as bs : List α} (h : Along step C s as)
    (ht : exec step s as = some t) (h' : Along step C t bs) : Along step C s (as ++ bs) := by
  induction as generalizing s with
  | nil =>
    cases ht
    exact h'
  | cons a as ih =>
    refine ⟨h.1, fun s' hs' => ih (h.2 s' hs') ?_⟩
    obtain ⟨s'', hs'', hrest⟩ := exec_cons_eq_some.1 ht
    cases hs'.symm.trans hs''
    exact hrest

namespace Reach

variable {C : σ → α → Prop} {s t u : σ}

theorem refl (s : σ) : Reach step C s s := ⟨[], trivial, rfl⟩

theorem trans (h : Reach step C s t) (h' : Reach step C t u) : Reach step C s u := by
  obtain ⟨as, hC, has⟩ := h
  obtain ⟨bs, hC', hbs⟩ := h'
  exact ⟨as ++ bs, along_append hC has hC', exec_trans has hbs⟩

theorem single {a : α} (hC : C s a) (h : step s a = some t) : Reach step C s t :=
  ⟨[a], ⟨hC, fun _ _ => trivial⟩, exec_single.2 h⟩

theorem mono {C' : σ → α → Prop} (h : Reach step C s t) (himp : ∀ s a, C s a → C' s a) :
    Reach step C' s t := by
  obtain ⟨as, hC, has⟩ := h
  exact ⟨as, hC.mono fun s a _ => himp s a, has⟩

/-- An invariant kept by the steps satisfying `C` holds wherever runs along `C` lead. -/
theorem invariant {I : σ → Prop} (h : Reach step C s t) (hs : I s)
    (hstep : ∀ s a s', I s → C s a → step s a = some s' → I s') : I t := by
  obtain ⟨as, hC, has⟩ := h
  exact exec_induction hstep hs hC has

end Reach

/-- **Simulation.** If each step along `C` is matched by a run along `C'` of another system, so is
each run along `C`. -/
theorem reach_of_exec {τ β : Type*} {step' : τ → β → Option τ} {I : σ → Prop} {C : σ → α → Prop}
    {C' : τ → β → Prop} {φ : σ → τ}
    (hsim : ∀ s a s', I s → C s a → step s a = some s' → I s' ∧ Reach step' C' (φ s) (φ s'))
    {s t : σ} {as : List α} (hs : I s) (hC : Along step C s as) (h : exec step s as = some t) :
    I t ∧ Reach step' C' (φ s) (φ t) := by
  refine exec_induction (I := fun u => I u ∧ Reach step' C' (φ s) (φ u)) ?_
    ⟨hs, Reach.refl (φ s)⟩ hC h
  rintro u a u' ⟨hu, hreach⟩ ha hstep
  obtain ⟨hu', hnext⟩ := hsim u a u' hu ha hstep
  exact ⟨hu', hreach.trans hnext⟩

end Run
