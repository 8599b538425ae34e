import HpccSim.Lib.Run

/-!
# Gates

A gate lets a quantity change at most once per round trip. A state has a mark and a front, the
number of the data sent last; an action may carry a number, of the data it answers. The gate opens
for the numbers beyond the mark, and moves the mark up to the front when it does. So whatever
changes only when the gate opens, changes again only for an answer to data beyond the front at the
last change.

## Main definitions

* `Gate step`: the mark, the front, when the gate opens, and what makes it a gate.

## Main results

* `Gate.mark_le`: the mark never goes back.
* `Gate.front_le_mark`: once the gate has opened, the mark is at least the front it left behind.
* `Gate.front_lt_key`: when it opens again, it is for a number beyond that front.
-/

/-- A gate of the system `step` on the states satisfying `Inv`, which its steps keep. The front is
that of the state after a step. -/
structure Gate {σ α : Type*} (step : σ → α → Option σ) where
  Inv : σ → Prop
  mark : σ → ℕ
  front : σ → ℕ
  key : α → ℕ
  Opens : σ → α → Prop
  inv_step : ∀ {s a s'}, Inv s → step s a = some s' → Inv s'
  mark_le_step : ∀ {s a s'}, Inv s → step s a = some s' → mark s ≤ mark s'
  front_le_step : ∀ {s a s'}, Inv s → step s a = some s' → Opens s a → front s' ≤ mark s'
  mark_lt_key : ∀ {s a}, Opens s a → mark s < key a

namespace Gate

variable {σ α : Type*} {step : σ → α → Option σ} (G : Gate step) {s s' t : σ} {a b : α}
  {as : List α}

include G in
/-- The invariant holds after a run. -/
theorem inv_exec (hs : G.Inv s) (h : Run.exec step s as = some t) : G.Inv t :=
  Run.exec_invariant (fun _ _ _ hi hstep => G.inv_step hi hstep) hs h

/-- **The mark never goes back.** -/
theorem mark_le (hs : G.Inv s) (h : Run.exec step s as = some t) : G.mark s ≤ G.mark t := by
  refine (Run.exec_invariant (I := fun u => G.Inv u ∧ G.mark s ≤ G.mark u)
    (fun u b u' hu hstep => ?_) ⟨hs, le_rfl⟩ h).2
  exact ⟨G.inv_step hu.1 hstep, hu.2.trans (G.mark_le_step hu.1 hstep)⟩

/-- **Once the gate has opened**, the mark is at least the front it left behind. -/
theorem front_le_mark (hs : G.Inv s) (ho : G.Opens s a) (hstep : step s a = some s')
    (h : Run.exec step s' as = some t) : G.front s' ≤ G.mark t :=
  calc G.front s' ≤ G.mark s' := G.front_le_step hs hstep ho
    _ ≤ G.mark t := G.mark_le (G.inv_step hs hstep) h

/-- **When the gate opens again**, it is for a number beyond the front at the last time. -/
theorem front_lt_key (hs : G.Inv s) (ho : G.Opens s a) (hstep : step s a = some s')
    (h : Run.exec step s' as = some t) (hb : G.Opens t b) : G.front s' < G.key b :=
  (G.front_le_mark hs ho hstep h).trans_lt (G.mark_lt_key hb)

end Gate
