import HpccSim.CongestionControl
import HpccSim.Lib.KeepBest

/-!
# The feedback of the hops

What the loop over the hops in `UpdateRateHp` (`rdma-hw.cc`) computes. Every hop of the telemetry
that is not passed over gives a utilisation, from its record and the one stored for it. With several
rates it enters the estimate of the hop; with a single one the greatest is looked for, and the time
and the cardinality that go with it.

## Main definitions

* `usedHops`, `hopU`, `hopEwma`: the hops, their utilisations and the estimates from these.
* `Reads`: the loop has read some hops.

## Main results

* `feedback_reads`: the loop reads the hops that are used.
-/

namespace HpccSim

namespace CongestionControl

variable (c : Config) (qp : Qp) (ih : IntHeader) (fastReact : Bool)

/-- The loop passes over the hop `i`. -/
def skipsHop (i : Fin maxHop) : Bool :=
  c.sampleFeedback && ((ih.hop i).getQlen c.int == 0) && fastReact

/-- The hops that the loop does not pass over. -/
def usedHops : List (Fin maxHop) := (hops ih).filter fun i => !skipsHop c ih fastReact i

/-- `tau` of the hop `i`. -/
def hopTau (i : Fin maxHop) : ℕ := (ih.hop i).getTimeDelta (qp.hp.hop i)

/-- `txRate` of the hop `i`. -/
def hopTxRate (i : Fin maxHop) : ℚ :=
  ((ih.hop i).getBytesDelta c.int (qp.hp.hop i)).toNat * 8 / ((hopTau qp ih i : ℚ) / 10 ^ 9)

/-- `qlenOverT` of the hop `i`. -/
def hopQlenOverT (i : Fin maxHop) : ℚ :=
  (min ((ih.hop i).getQlen c.int) ((qp.hp.hop i).getQlen c.int)).toNat * qp.maxRate / qp.win.toNat

/-- `u` of the hop `i`. -/
def hopU (i : Fin maxHop) : ℚ :=
  hopTxRate c qp ih i / (ih.hop i).getLineRate.toNat +
    hopQlenOverT c qp ih i / (ih.hop i).getLineRate.toNat

/-- `hp.hopState[i].u` with the feedback of the hop `i`. -/
def hopEwma (i : Fin maxHop) : ℚ :=
  let tau := min (hopTau qp ih i) qp.baseRtt.toNat
  ((qp.hp.hopState i).u * (qp.baseRtt.toNat - tau : ℕ) + hopU c qp ih i * tau) / qp.baseRtt.toNat

/-- The loop has read the hops `l`. -/
structure Reads (l : List (Fin maxHop)) (f : Feedback) : Prop where
  hop : ∀ i, f.hp.hop i = if i ∈ l then ih.hop i else qp.hp.hop i
  hopState : ∀ i, f.hp.hopState i =
    if c.multipleRate = true ∧ i ∈ l then { qp.hp.hopState i with u := hopEwma c qp ih i }
    else qp.hp.hopState i
  u : f.hp.u = qp.hp.u
  updated : ∀ i, f.updated i = decide (i ∈ l)
  updatedAny : f.updatedAny = true ↔ l ≠ []
  best : c.multipleRate = false → (f.U, f.dt, f.card) =
    l.foldl (keepBest (hopU c qp ih) fun i => (hopTau qp ih i, .ofNat (ih.hop i).card0))
      (0, 0, 0xffffffff)

variable {c qp ih fastReact}

theorem mem_usedHops {i : Fin maxHop} : i ∈ usedHops c ih fastReact ↔
    i.val < ih.nhop.toNat ∧ skipsHop c ih fastReact i = false := by
  simp [usedHops, hops, and_comm]

/-- The loop body, for a hop that it does not pass over and whose record and state have not been
written. -/
theorem feedbackHop_eq {f : Feedback} {i : Fin maxHop} (hhop : f.hp.hop i = qp.hp.hop i)
    (hstate : f.hp.hopState i = qp.hp.hopState i) (hskip : skipsHop c ih fastReact i = false) :
    feedbackHop c qp ih fastReact f i =
      let best :=
        if c.multipleRate then (f.U, f.dt, f.card)
        else keepBest (hopU c qp ih) (fun i => (hopTau qp ih i, .ofNat (ih.hop i).card0))
          (f.U, f.dt, f.card) i
      { hp := { f.hp with
          hop := Function.update f.hp.hop i (ih.hop i)
          hopState :=
            if c.multipleRate then Function.update f.hp.hopState i
              { qp.hp.hopState i with u := hopEwma c qp ih i }
            else f.hp.hopState }
        U := best.1
        dt := best.2.1
        card := best.2.2
        updated := Function.update f.updated i true
        updatedAny := true } := by
  rw [skipsHop] at hskip
  rw [feedbackHop]
  simp only [hskip, Bool.false_eq_true, if_false, hhop, hstate]
  by_cases hmr : c.multipleRate = true
  · simp only [hmr, if_true]
    rfl
  · simp only [hmr, Bool.false_eq_true, if_false]
    by_cases hu : f.U < hopU c qp ih i
    · have hbest : keepBest (hopU c qp ih)
          (fun i => (hopTau qp ih i, UInt32.ofNat (ih.hop i).card0)) (f.U, f.dt, f.card) i =
          (hopU c qp ih i, hopTau qp ih i, .ofNat (ih.hop i).card0) := if_pos hu
      rw [hbest]
      simp only [hopU, hopTxRate, hopQlenOverT, hopTau] at hu ⊢
      rw [if_pos hu]
    · have hbest : keepBest (hopU c qp ih)
          (fun i => (hopTau qp ih i, UInt32.ofNat (ih.hop i).card0)) (f.U, f.dt, f.card) i =
          (f.U, f.dt, f.card) := if_neg hu
      rw [hbest]
      simp only [hopU, hopTxRate, hopQlenOverT, hopTau] at hu
      rw [if_neg hu]

/-- One more hop. -/
theorem Reads.feedbackHop {l : List (Fin maxHop)} {f : Feedback} (h : Reads c qp ih l f)
    {i : Fin maxHop} (hi : i ∉ l) (hskip : skipsHop c ih fastReact i = false) :
    Reads c qp ih (l ++ [i]) (feedbackHop c qp ih fastReact f i) := by
  have hhop : f.hp.hop i = qp.hp.hop i := by rw [h.hop, if_neg hi]
  have hstate : f.hp.hopState i = qp.hp.hopState i := by
    rw [h.hopState, if_neg fun hl => hi hl.2]
  rw [feedbackHop_eq hhop hstate hskip]
  constructor
  case hop =>
    intro j
    by_cases hj : j = i
    · subst hj
      simp
    · simp [hj, h.hop]
  case hopState =>
    intro j
    by_cases hmr : c.multipleRate = true
    · by_cases hj : j = i
      · subst hj
        simp [hmr]
      · simp [hmr, hj, h.hopState]
    · simp [hmr, h.hopState]
  case u => exact h.u
  case updated =>
    intro j
    by_cases hj : j = i
    · subst hj
      simp
    · simp [hj, h.updated]
  case updatedAny => simp
  case best =>
    intro hmr
    rw [List.foldl_append, ← h.best hmr]
    simp [hmr]

/-- **The loop** reads the hops that are used. -/
theorem feedback_reads (c : Config) (qp : Qp) (ih : IntHeader) (fastReact : Bool) :
    Reads c qp ih (usedHops c ih fastReact) (feedback c qp ih fastReact) := by
  have hfold (l : List (Fin maxHop)) (hl : l.Nodup) :
      Reads c qp ih (l.filter fun i => !skipsHop c ih fastReact i)
        (l.foldl (CongestionControl.feedbackHop c qp ih fastReact)
          { hp := qp.hp, U := 0, dt := 0, card := 0xffffffff, updated := fun _ => false,
            updatedAny := false }) := by
    induction l using List.reverseRecOn with
    | nil =>
      exact ⟨fun i => by simp, fun i => by simp, rfl, fun i => rfl, by simp, fun _ => rfl⟩
    | append_singleton l i hind =>
      rw [List.nodup_append'] at hl
      have hi : i ∉ l := fun h => hl.2.2 h (List.mem_singleton_self i)
      have hread := hind hl.1
      rw [List.foldl_append, List.foldl_cons, List.foldl_nil, List.filter_append]
      cases hskip : skipsHop c ih fastReact i with
      | true =>
        -- the hop is passed over
        rw [List.filter_singleton, hskip, Bool.not_true, cond_false, List.append_nil,
          CongestionControl.feedbackHop]
        rw [skipsHop] at hskip
        simpa only [hskip, if_true] using hread
      | false =>
        rw [List.filter_singleton, hskip, Bool.not_false, cond_true]
        exact hread.feedbackHop (fun h => hi (List.mem_filter.1 h).1) hskip
  exact hfold (hops ih) ((List.nodup_finRange maxHop).filter _)

end CongestionControl

end HpccSim
