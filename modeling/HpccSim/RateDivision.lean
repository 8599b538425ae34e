import HpccSim.HopFeedback
import HpccSim.Lib.Double
import HpccSim.RateGate
import HpccSim.Telemetry

/-!
# The divisions of HPCC

`UpdateRateHp` (`rdma-hw.cc`) divides by the time between two stamps of a hop, by `m_win`, by the
rate of the line, by `m_baseRtt`, by `m_targetUtil`, and by the quotient of the utilisation and the
latter, if that is at least `1` or the controller has been increasing for `m_miThresh` round trips.
It checks none of them. Here its doubles are doubles: they are rounded, they overflow, and an
estimate that is halved again and again becomes `0`. Dynamic additive increase is off.

The rate of the line is one of a table, and with a single rate the utilisation stays above a bound.
But `m_win` is `0` if windows are not used (`HAS_WIN 0`), two stamps have the same 24 bits if they
are a multiple of `2 ^ 24` ns apart, and with several rates the estimate of a hop fades away if the
hop has sent less than a unit and has no queue.

## Main definitions

* `HpQp`: what HPCC keeps of a queue pair, with its doubles.
* `HpQp.divisors`, `HpQp.rates`: what an event divides by, and the rates it computes.
* `HpQp.Dividable`: the condition on an event.
* `Stamped`: the telemetry of an ACK has been collected from switches.

## Main results

* `HpQp.alike_of_run`: the model with exact numbers uses the same telemetry.
* `HpQp.not_sound_of_not_measured`, `HpQp.not_sound_of_idle`: some of what breaks the condition
  leads to a divisor `0`.
* `HpQp.sound_of_dividable`: a run within the condition divides by nothing that is `0`, and all its
  rates are finite.
* `HpQp.noWindow_divides_by_zero`: without a window the second ACK divides by `0`.
-/

namespace HpccSim

namespace CongestionControl

open Double

/-- An element of `hp.hopState`. -/
structure HopEstimate where
  u : Double
  rc : ℕ
  incStage : ℕ

/-- What `UpdateRateHp` reads and writes of `RdmaQueuePair`, `hp` among it. -/
structure HpQp where
  win : UInt32
  baseRtt : UInt64
  maxRate : ℕ
  rate : ℕ
  lastUpdateSeq : UInt32
  curRate : ℕ
  hop : Fin maxHop → IntHop
  incStage : ℕ
  u : Double
  hopState : Fin maxHop → HopEstimate

/-- A double as a `uint64_t`. C++ does not define the result for a double out of range: `other`
does. -/
def toUInt64 (other : Double → ℕ) : Double → ℕ
  | num v => if v < 2 ^ 64 then ⌊v⌋₊ else other (num v)
  | d => other d

/-- `1e-9` -/
def nano : Double := ofRat (1 / 10 ^ 9)

namespace HpQp

variable (c : Config) (other : Double → ℕ)

/-- The queue pair that `AddQueuePair` makes. -/
def addQueuePair (win : UInt32) (baseRtt : UInt64) : HpQp where
  win := win
  baseRtt := baseRtt
  maxRate := c.lineRate
  rate := c.lineRate
  lastUpdateSeq := 0
  curRate := c.lineRate
  hop := fun _ => .zero
  incStage := 0
  u := num 1
  hopState := fun _ => { u := num 1, rc := if c.multipleRate then c.lineRate else 0, incStage := 0 }

/-! ### The loop over the hops -/

section Loop

variable (qp : HpQp) (ih : IntHeader) (fastReact : Bool)

/-- `tau` of the hop `i`. -/
def tau (i : Fin maxHop) : ℕ := (ih.hop i).getTimeDelta (qp.hop i)

/-- `duration` of the hop `i`. -/
def duration (i : Fin maxHop) : Double := mul (ofNat (tau qp ih i)) nano

/-- `txRate` of the hop `i`. -/
def txRate (i : Fin maxHop) : Double :=
  div (ofNat (((ih.hop i).getBytesDelta c.int (qp.hop i)).toNat * 8)) (duration qp ih i)

/-- `qlenOverT` of the hop `i`. -/
def qlenOverT (i : Fin maxHop) : Double :=
  div (mul (ofNat (min ((ih.hop i).getQlen c.int) ((qp.hop i).getQlen c.int)).toNat)
    (ofNat qp.maxRate)) (ofNat qp.win.toNat)

/-- `u` of the hop `i`. -/
def hopU (i : Fin maxHop) : Double :=
  add (div (txRate c qp ih i) (ofNat (ih.hop i).getLineRate.toNat))
    (div (qlenOverT c qp ih i) (ofNat (ih.hop i).getLineRate.toNat))

/-- The estimate `old` with the utilisation `new` of the time `tau`. -/
def blend (tau : ℕ) (old new : Double) : Double :=
  let tau := min tau qp.baseRtt.toNat
  div (add (mul old (ofNat (qp.baseRtt.toNat - tau))) (mul new (ofNat tau)))
    (ofNat qp.baseRtt.toNat)

/-- `U` and `dt` with the hop `i`. -/
def better (best : Double × ℕ) (i : Fin maxHop) : Double × ℕ :=
  if lt best.1 (hopU c qp ih i) then (hopU c qp ih i, tau qp ih i) else best

/-- `U` and `dt`. -/
def best : Double × ℕ := (usedHops c ih fastReact).foldl (better c qp ih) (num 0, 0)

/-- `updated[i]`. -/
def updated (i : Fin maxHop) : Bool :=
  decide (i.val < ih.nhop.toNat) && !skipsHop c ih fastReact i

/-- `updated_any`. -/
def updatedAny : Bool := !(usedHops c ih fastReact).isEmpty

/-- What the loop stores, each turn for its own hop, and `hp.u` of a single rate. -/
def feedback : HpQp :=
  { qp with
    hop := fun i => if updated c ih fastReact i then ih.hop i else qp.hop i
    hopState := fun i =>
      if c.multipleRate && updated c ih fastReact i then
        { qp.hopState i with
          u := blend qp (tau qp ih i) (qp.hopState i).u (hopU c qp ih i) }
      else qp.hopState i
    u :=
      if !c.multipleRate && updatedAny c ih fastReact then
        blend qp (best c qp ih fastReact).2 qp.u (best c qp ih fastReact).1
      else qp.u }

end Loop

/-! ### The reaction -/

section Reaction

variable (qp : HpQp) (ih : IntHeader) (fastReact : Bool)

/-- `max_c`, or `c` of a hop. `m_targetUtil` may be any number, doubles among them. -/
def maxC (u : Double) : Double := div u (num c.targetUtil)

/-- The rate is divided by `max_c`. -/
def divides (incStage : ℕ) (u : Double) : Bool :=
  geOne (maxC c u) || decide (incStage ≥ c.miThresh)

/-- Bring a rate up to `m_minRate` and down to `m_max_rate`. -/
def bound (rate : ℕ) : ℕ :=
  let rate := if rate < c.minRate then c.minRate else rate
  if rate > qp.maxRate then qp.maxRate else rate

/-- The new rate of a controller and its new `incStage`. -/
def react (rate incStage : ℕ) (u : Double) : ℕ × ℕ :=
  if divides c incStage u then
    (bound c qp (toUInt64 other (div (ofNat rate) (maxC c u)) + c.rai), 0)
  else (bound c qp (rate + c.rai), incStage + 1)

/-- `new_rate_per_hop` and `new_incStage_per_hop`. -/
def hopRate (i : Fin maxHop) : ℕ × ℕ :=
  react c other qp (qp.hopState i).rc (qp.hopState i).incStage (qp.hopState i).u

/-- `new_rate` of several rates, the least of them. -/
def multiRate : ℕ :=
  (hops ih).foldl (fun newRate i =>
    let rate :=
      if updated c ih fastReact i then (hopRate c other qp i).1 else (qp.hopState i).rc
    if rate < newRate then rate else newRate) qp.maxRate

/-- Use `new_rate`. -/
def applyRate (newRate newIncStage : ℕ) : HpQp :=
  if fastReact then { qp with rate := newRate }
  else { qp with rate := newRate, curRate := newRate, incStage := newIncStage }

/-- What `UpdateRateHp` does with the telemetry. `new_incStage` has no value if there are several
rates, and `hp.m_incStage` is not used then. -/
def respond : HpQp :=
  let f := feedback c qp ih fastReact
  if !updatedAny c ih fastReact then f
  else if c.multipleRate then
    let qp' := applyRate f fastReact (multiRate c other f ih fastReact) 0
    if fastReact then qp'
    else
      { qp' with hopState := fun i =>
        if updated c ih fastReact i then
          { qp'.hopState i with rc := (hopRate c other f i).1, incStage := (hopRate c other f i).2 }
        else qp'.hopState i }
  else
    let new := react c other f f.curRate f.incStage f.u
    applyRate f fastReact new.1 new.2

end Reaction

/-! ### `UpdateRateHp` -/

section Update

variable (qp : HpQp) (a : Ack) (fastReact : Bool)

/-- `UpdateRateHp`. -/
def updateRateHp : HpQp :=
  let nextSeq := a.sndNxt.toUInt32
  if qp.lastUpdateSeq = 0 then
    { qp with
      lastUpdateSeq := nextSeq
      hop := fun i => if i.val < a.ih.nhop.toNat then a.ih.hop i else qp.hop i }
  else
    let qp := if a.ih.nhop.toNat ≤ maxHop then respond c other qp a.ih fastReact else qp
    if fastReact = false ∧ nextSeq > qp.lastUpdateSeq then { qp with lastUpdateSeq := nextSeq }
    else qp

/-- `HandleAckHp` and `FastReactHp`. -/
def handleAckHp : HpQp :=
  if a.seq > qp.lastUpdateSeq then updateRateHp c other qp a false
  else if c.fastReact then updateRateHp c other qp a true
  else qp

/-- The queue pair receives an ACK. -/
def step (qp : HpQp) (a : Ack) : Option HpQp := some (handleAckHp c other qp a)

end Update

/-! ### The exact numbers -/

/-- The queue pair of the model with exact numbers knows the same of the path: what is fixed, the
sequence number and the records. -/
structure Alike (qp : Qp) (qp' : HpQp) : Prop where
  win : qp'.win = qp.win
  baseRtt : qp'.baseRtt = qp.baseRtt
  maxRate : qp'.maxRate = qp.maxRate
  lastUpdateSeq : qp'.lastUpdateSeq = qp.hp.lastUpdateSeq
  hop : qp'.hop = qp.hp.hop

section Alike

variable {c} {other} {qp : Qp} {qp' : HpQp}

theorem updated_iff {ih : IntHeader} {fastReact : Bool} {i : Fin maxHop} :
    updated c ih fastReact i = true ↔ i ∈ usedHops c ih fastReact := by
  simp [updated, mem_usedHops]

theorem updatedAny_iff {ih : IntHeader} {fastReact : Bool} :
    updatedAny c ih fastReact = true ↔ usedHops c ih fastReact ≠ [] := by
  simp [updatedAny]

theorem respondHp_fixed (c : Config) (qp : Qp) (ih : IntHeader) (fr : Bool) :
    (respondHp c qp ih fr).win = qp.win ∧ (respondHp c qp ih fr).baseRtt = qp.baseRtt ∧
      (respondHp c qp ih fr).maxRate = qp.maxRate ∧
      (respondHp c qp ih fr).hp.hop = (CongestionControl.feedback c qp ih fr).hp.hop := by
  rw [respondHp]
  simp only [CongestionControl.applyRate, changeRate]
  split_ifs <;> exact ⟨rfl, rfl, rfl, rfl⟩

theorem respond_fixed (c : Config) (other : Double → ℕ) (qp : HpQp) (ih : IntHeader) (fr : Bool) :
    (respond c other qp ih fr).win = qp.win ∧ (respond c other qp ih fr).baseRtt = qp.baseRtt ∧
      (respond c other qp ih fr).maxRate = qp.maxRate ∧
      (respond c other qp ih fr).lastUpdateSeq = qp.lastUpdateSeq ∧
      (respond c other qp ih fr).hop = (feedback c qp ih fr).hop := by
  rw [respond]
  simp only [applyRate]
  split_ifs <;> exact ⟨rfl, rfl, rfl, rfl, rfl⟩

/-- **The telemetry that is used** does not depend on the rounding of numbers. -/
theorem Alike.handleAckHp (c : Config) (other : Double → ℕ) (h : Alike qp qp') (a : Ack) :
    Alike (CongestionControl.handleAckHp c qp a) (handleAckHp c other qp' a) := by
  have hrespond (fr : Bool) : Alike
      (if a.ih.nhop.toNat ≤ maxHop then respondHp c qp a.ih fr else qp)
      (if a.ih.nhop.toNat ≤ maxHop then respond c other qp' a.ih fr else qp') := by
    split_ifs
    · obtain ⟨hwin, hrtt, hmax, hhop⟩ := respondHp_fixed c qp a.ih fr
      obtain ⟨hwin', hrtt', hmax', hseq', hhop'⟩ := respond_fixed c other qp' a.ih fr
      refine ⟨?_, ?_, ?_, ?_, ?_⟩
      · rw [hwin', hwin, h.win]
      · rw [hrtt', hrtt, h.baseRtt]
      · rw [hmax', hmax, h.maxRate]
      · rw [hseq', respondHp_lastUpdateSeq, h.lastUpdateSeq]
      · funext i
        rw [hhop', hhop, (feedback_reads c qp a.ih fr).hop, ← h.hop]
        simp only [feedback, updated_iff]
    · exact h
  have hupdate (fr : Bool) :
      Alike (CongestionControl.updateRateHp c qp a fr) (updateRateHp c other qp' a fr) := by
    rw [CongestionControl.updateRateHp, updateRateHp]
    dsimp only
    rw [h.lastUpdateSeq]
    by_cases h0 : qp.hp.lastUpdateSeq = 0
    · rw [if_pos h0, if_pos h0]
      exact ⟨h.win, h.baseRtt, h.maxRate, rfl, by simp [h.hop, hops]⟩
    · rw [if_neg h0, if_neg h0]
      have hr := hrespond fr
      generalize (if a.ih.nhop.toNat ≤ maxHop then respondHp c qp a.ih fr else qp) = q at hr ⊢
      generalize (if a.ih.nhop.toNat ≤ maxHop then _ else qp') = q' at hr ⊢
      rw [hr.lastUpdateSeq]
      split_ifs
      · exact ⟨hr.win, hr.baseRtt, hr.maxRate, rfl, hr.hop⟩
      · exact hr
  rw [CongestionControl.handleAckHp, HpQp.handleAckHp, fastReactHp, h.lastUpdateSeq]
  split_ifs
  · exact hupdate false
  · exact hupdate true
  · exact h

theorem alike_addQueuePair (hm : c.ccMode = .hpcc) (win : UInt32) (baseRtt : UInt64) :
    Alike (CongestionControl.addQueuePair c win baseRtt) (addQueuePair c win baseRtt) := by
  rw [CongestionControl.addQueuePair, initRates, hm]
  exact ⟨rfl, rfl, rfl, rfl, rfl⟩

/-- **Along a run** the two models use the same telemetry. -/
theorem alike_of_run (hm : c.ccMode = .hpcc) (win : UInt32) (baseRtt : UInt64) (acks : List Ack) :
    ∃ t t', Run.exec (CongestionControl.step c) (CongestionControl.addQueuePair c win baseRtt)
        (acks.map .ack) = some t ∧
      Run.exec (step c other) (addQueuePair c win baseRtt) acks = some t' ∧ Alike t t' := by
  have hrun (acks : List Ack) {qp : Qp} {qp' : HpQp} (h : Alike qp qp') :
      ∃ t t', Run.exec (CongestionControl.step c) qp (acks.map .ack) = some t ∧
        Run.exec (step c other) qp' acks = some t' ∧ Alike t t' := by
    induction acks generalizing qp qp' with
    | nil => exact ⟨qp, qp', rfl, rfl, h⟩
    | cons a acks hind =>
      have hnext := h.handleAckHp c other a
      rw [← receiveAck_hpcc hm] at hnext
      exact hind hnext
  exact hrun acks (alike_addQueuePair hm win baseRtt)

end Alike

/-! ### Estimates -/

section Estimates

variable {R t : ℕ} {u w : ℚ}

/-- The weighted mean of two numbers with the weights `R - t` and `t`, as it is rounded. -/
def mean (R t : ℕ) (u w : ℚ) : ℚ :=
  rounded (rounded (rounded (u * rounded (R - t : ℕ)) + rounded (w * rounded t)) / rounded R)

theorem ofNat_eq {n : ℕ} (hn : n < 2 ^ 64) : ofNat n = num (rounded n) :=
  ofRat_eq (j := 64) n.cast_nonneg (by norm_num) (by norm_num) (by exact_mod_cast hn.le)

theorem rounded_natCast_le {n : ℕ} (hn : n < 2 ^ 64) : rounded n ≤ 2 ^ (64 : ℤ) :=
  rounded_le_of_isDouble (isDouble_zpow (by norm_num)) n.cast_nonneg (by exact_mod_cast hn.le)

theorem rounded_natCast_nonneg (n : ℕ) : 0 ≤ rounded n := rounded_nonneg n.cast_nonneg

theorem one_le_rounded {n : ℕ} (hn : 0 < n) : 1 ≤ rounded n := by
  have h1 : IsDouble 1 := isDouble_natCast (n := 1) (by norm_num)
  exact le_rounded_of_isDouble h1 zero_le_one (by exact_mod_cast hn)

/-- A rounded natural number may be multiplied by a power of two. -/
theorem isDouble_mul_rounded {n : ℕ} {e : ℤ} (he : -1022 ≤ e) : IsDouble (2 ^ e * rounded n) := by
  rcases Nat.eq_zero_or_pos n with rfl | hn
  · rw [Nat.cast_zero, rounded_of_isDouble isDouble_zero, mul_zero]
    exact isDouble_zero
  · have hlog : 0 ≤ Int.log 2 (n : ℚ) :=
      le_log (Nat.cast_pos.2 hn) (by rw [zpow_zero]; exact_mod_cast hn)
    have hplace : Int.log 2 (n : ℚ) - 52 ≤ lastPlace n := by
      rw [lastPlace_of_nonneg n.cast_nonneg]
      exact le_max_left _ _
    rw [mul_comm]
    exact isDouble_rounded_mul_zpow n.cast_nonneg (by omega)

/-- The sum of the two weighted numbers does not exceed the bound, weighted. -/
theorem rounded_sum_le (hR : 0 < R) (htR : t ≤ R) (ht : t ≤ 2 ^ 24) (hu0 : 0 ≤ u)
    (hu : u ≤ 2 ^ (100 : ℤ)) (hw0 : 0 ≤ w) (hw : w ≤ 2 ^ (67 : ℤ)) :
    rounded (rounded (u * rounded (R - t : ℕ)) + rounded (w * rounded t)) ≤
      2 ^ (100 : ℤ) * rounded R := by
  have hX : IsDouble (2 ^ (100 : ℤ) * rounded (R : ℚ)) := isDouble_mul_rounded (by norm_num)
  have hrest : rounded (R - t : ℕ) ≤ rounded R :=
    rounded_mono (Nat.cast_nonneg _) (Nat.cast_le.2 (Nat.sub_le R t))
  have hrest0 : 0 ≤ rounded (R - t : ℕ) := rounded_natCast_nonneg _
  have ht' : rounded t = t := rounded_of_isDouble (isDouble_natCast (by omega))
  have hold : rounded (u * rounded (R - t : ℕ)) ≤ 2 ^ (100 : ℤ) * rounded (R - t : ℕ) :=
    rounded_le_of_isDouble (isDouble_mul_rounded (by norm_num)) (mul_nonneg hu0 hrest0)
      (mul_le_mul_of_nonneg_right hu hrest0)
  have hold0 : 0 ≤ rounded (u * rounded (R - t : ℕ)) := rounded_nonneg (mul_nonneg hu0 hrest0)
  have hnew : rounded (w * rounded t) ≤ 2 ^ (67 : ℤ) * t := by
    have hdouble : IsDouble (2 ^ (67 : ℤ) * (t : ℚ)) := by
      rw [← ht']
      exact isDouble_mul_rounded (by norm_num)
    rw [ht']
    exact rounded_le_of_isDouble hdouble (mul_nonneg hw0 t.cast_nonneg)
      (mul_le_mul_of_nonneg_right hw t.cast_nonneg)
  have hnew0 : 0 ≤ rounded (w * rounded t) :=
    rounded_nonneg (mul_nonneg hw0 (rounded_natCast_nonneg t))
  rcases Nat.lt_or_ge R (2 ^ 53) with hsmall | hlarge
  · -- the weights are exact
    refine rounded_le_of_isDouble hX (add_nonneg hold0 hnew0) ?_
    have hR' : rounded R = R := rounded_of_isDouble (isDouble_natCast hsmall)
    have hRt : rounded (R - t : ℕ) = R - t := by
      rw [rounded_of_isDouble (isDouble_natCast (by omega)), Nat.cast_sub htR]
    rw [hRt] at hold ⊢
    rw [hR']
    have ht0 : (0 : ℚ) ≤ t := t.cast_nonneg
    norm_num at hold hnew ⊢
    linarith
  · -- the new utilisation is lost
    have hbig : (2 : ℚ) ^ 53 ≤ rounded R := by
      have h : (2 : ℚ) ^ (53 : ℤ) ≤ rounded R :=
        le_rounded_of_isDouble (isDouble_zpow (by norm_num)) (two_zpow_pos _).le
          (by exact_mod_cast hlarge)
      exact_mod_cast h
    have hnormal : (2 : ℚ) ^ (-1022 : ℤ) ≤ 2 ^ (100 : ℤ) * rounded R := by
      refine (zpow_le_one_of_nonpos₀ one_le_two (by norm_num)).trans ?_
      norm_num at hbig ⊢
      linarith
    have hfar : rounded (w * rounded t) * 2 ^ 54 ≤ 2 ^ (100 : ℤ) * rounded R := by
      have ht24 : (t : ℚ) ≤ 16777216 := by exact_mod_cast ht
      norm_num at hnew hbig ⊢
      linarith
    have hlost := rounded_add_of_le hX hnormal hnew0 hfar
    rw [← hlost]
    refine rounded_mono (add_nonneg hold0 hnew0) (add_le_add_left ?_ _)
    exact hold.trans (mul_le_mul_of_nonneg_left hrest (two_zpow_pos _).le)

theorem mean_nonneg (hu0 : 0 ≤ u) (hw0 : 0 ≤ w) : 0 ≤ mean R t u w := by
  have hR := rounded_natCast_nonneg R
  have hRt := rounded_natCast_nonneg (R - t)
  have ht := rounded_natCast_nonneg t
  exact rounded_nonneg (div_nonneg (rounded_nonneg (add_nonneg
    (rounded_nonneg (mul_nonneg hu0 hRt)) (rounded_nonneg (mul_nonneg hw0 ht)))) hR)

/-- **The estimate stays bounded.** -/
theorem mean_le (hR : 0 < R) (htR : t ≤ R) (ht : t ≤ 2 ^ 24) (hu0 : 0 ≤ u)
    (hu : u ≤ 2 ^ (100 : ℤ)) (hw0 : 0 ≤ w) (hw : w ≤ 2 ^ (67 : ℤ)) :
    mean R t u w ≤ 2 ^ (100 : ℤ) := by
  have hR1 : 0 < rounded R := zero_lt_one.trans_le (one_le_rounded hR)
  have hsum0 : 0 ≤ rounded (rounded (u * rounded (R - t : ℕ)) + rounded (w * rounded t)) :=
    rounded_nonneg (add_nonneg
      (rounded_nonneg (mul_nonneg hu0 (rounded_natCast_nonneg _)))
      (rounded_nonneg (mul_nonneg hw0 (rounded_natCast_nonneg _))))
  refine rounded_le_of_isDouble (isDouble_zpow (by norm_num)) (div_nonneg hsum0 hR1.le) ?_
  rw [div_le_iff₀ hR1]
  exact rounded_sum_le hR htR ht hu0 hu hw0 hw

/-- A utilisation that enters the estimate keeps it from `0`, -/
theorem le_mean_of_new (hR : 0 < R) (hR64 : R < 2 ^ 64) (ht : 0 < t) (hu0 : 0 ≤ u)
    (hw : 2 ^ (-71 : ℤ) ≤ w) : 2 ^ (-135 : ℤ) ≤ mean R t u w := by
  have hR1 : 0 < rounded R := zero_lt_one.trans_le (one_le_rounded hR)
  have hold : 0 ≤ rounded (u * rounded (R - t : ℕ)) :=
    rounded_nonneg (mul_nonneg hu0 (rounded_natCast_nonneg _))
  have hnew : 2 ^ (-71 : ℤ) ≤ rounded (w * rounded t) := by
    refine le_rounded_of_isDouble (isDouble_zpow (by norm_num)) (two_zpow_pos _).le ?_
    have h := mul_le_mul hw (one_le_rounded ht) zero_le_one ((two_zpow_pos _).le.trans hw)
    rwa [mul_one] at h
  have hsum : 2 ^ (-71 : ℤ) ≤
      rounded (rounded (u * rounded (R - t : ℕ)) + rounded (w * rounded t)) :=
    le_rounded_of_isDouble (isDouble_zpow (by norm_num)) (two_zpow_pos _).le
      (hnew.trans (le_add_of_nonneg_left hold))
  refine le_rounded_of_isDouble (isDouble_zpow (by norm_num)) (two_zpow_pos _).le ?_
  rw [le_div_iff₀ hR1]
  calc (2 : ℚ) ^ (-135 : ℤ) * rounded R ≤ 2 ^ (-135 : ℤ) * 2 ^ (64 : ℤ) :=
        mul_le_mul_of_nonneg_left (rounded_natCast_le hR64) (two_zpow_pos _).le
    _ = 2 ^ (-71 : ℤ) := by
        rw [← zpow_add₀ two_ne_zero]
        norm_num
    _ ≤ _ := hsum

/-- and without one it stays above every power of two it is above. -/
theorem le_mean_of_none (hR : 0 < R) (hu : 2 ^ (-140 : ℤ) ≤ u) : 2 ^ (-140 : ℤ) ≤ mean R 0 u 0 := by
  have hR1 : 0 < rounded R := zero_lt_one.trans_le (one_le_rounded hR)
  have hX : IsDouble (2 ^ (-140 : ℤ) * rounded (R : ℚ)) := isDouble_mul_rounded (by norm_num)
  have hX0 : 0 ≤ 2 ^ (-140 : ℤ) * rounded (R : ℚ) := mul_nonneg (two_zpow_pos _).le hR1.le
  have hold : 2 ^ (-140 : ℤ) * rounded R ≤ rounded (u * rounded (R - 0 : ℕ)) :=
    le_rounded_of_isDouble hX hX0 (mul_le_mul_of_nonneg_right hu hR1.le)
  have hnew : 0 ≤ rounded (0 * rounded ((0 : ℕ) : ℚ)) :=
    rounded_nonneg (mul_nonneg le_rfl (rounded_natCast_nonneg _))
  have hsum := le_rounded_of_isDouble hX hX0 (hold.trans (le_add_of_nonneg_right hnew))
  refine le_rounded_of_isDouble (isDouble_zpow (by norm_num)) (two_zpow_pos _).le ?_
  rwa [le_div_iff₀ hR1]

/-- What is left of the estimate is kept, up to the roundings. -/
theorem le_mean_of_old (hR : 0 < R) (hu0 : 0 ≤ u) (hw0 : 0 ≤ w)
    (hleft : 2 ^ (-1070 : ℤ) ≤ u * (R - t : ℕ) / R) :
    u * (R - t : ℕ) / R / 32 ≤ mean R t u w := by
  obtain ⟨l, hl⟩ : ∃ l : ℚ, l = u * (R - t : ℕ) / R := ⟨_, rfl⟩
  rw [← hl] at hleft ⊢
  have hl0 : 0 < l := (two_zpow_pos _).trans_le hleft
  have hRq : (1 : ℚ) ≤ R := by exact_mod_cast hR
  have hlR : l * R = u * (R - t : ℕ) := by
    rw [hl, div_mul_cancel₀ _ (zero_lt_one.trans_le hRq).ne']
  have hle : l ≤ l * R := le_mul_of_one_le_right hl0.le hRq
  have hRt : 0 < R - t := by
    rcases Nat.eq_zero_or_pos (R - t) with h0 | hpos
    · rw [h0, Nat.cast_zero, mul_zero] at hlR
      exact absurd hlR (mul_pos hl0 (zero_lt_one.trans_le hRq)).ne'
    · exact hpos
  have hRt1 : (1 : ℚ) ≤ (R - t : ℕ) := by exact_mod_cast hRt
  have htiny (k : ℤ) (hk : -1074 ≤ k) : (2 : ℚ) ^ (-1074 : ℤ) ≤ 2 ^ k :=
    zpow_le_zpow_right₀ one_le_two hk
  have hsmall (x : ℚ) (hx : l / 16 ≤ x) : (2 : ℚ) ^ (-1074 : ℤ) ≤ x := by
    refine le_trans ?_ hx
    rw [le_div_iff₀ (by norm_num), show (16 : ℚ) = 2 ^ (4 : ℤ) by norm_num, ← zpow_add₀ two_ne_zero]
    exact hleft
  have hweight : (R - t : ℕ) / 2 ≤ rounded ((R - t : ℕ) : ℚ) :=
    le_rounded ((htiny 0 (by norm_num)).trans (by rwa [zpow_zero]))
  have hprod : l * R / 2 ≤ u * rounded (R - t : ℕ) := by
    rw [hlR, mul_div_assoc]
    exact mul_le_mul_of_nonneg_left hweight hu0
  have hold : l * R / 4 ≤ rounded (u * rounded (R - t : ℕ)) := by
    have h := le_rounded (hsmall _ (by linarith : l / 16 ≤ u * rounded (R - t : ℕ)))
    linarith
  have hnew : 0 ≤ rounded (w * rounded t) :=
    rounded_nonneg (mul_nonneg hw0 (rounded_natCast_nonneg t))
  have hsum : l * R / 8 ≤
      rounded (rounded (u * rounded (R - t : ℕ)) + rounded (w * rounded t)) := by
    have h := le_rounded (hsmall _ (by linarith :
      l / 16 ≤ rounded (u * rounded (R - t : ℕ)) + rounded (w * rounded t)))
    linarith
  have hR1 : 0 < rounded R := zero_lt_one.trans_le (one_le_rounded hR)
  have hR2 : rounded R ≤ 2 * R := rounded_le ((htiny 0 (by norm_num)).trans (by rwa [zpow_zero]))
  have hquot : l / 16 ≤
      rounded (rounded (u * rounded (R - t : ℕ)) + rounded (w * rounded t)) / rounded R := by
    rw [le_div_iff₀ hR1]
    have h := mul_le_mul_of_nonneg_left hR2 hl0.le
    linarith
  have h := le_rounded (hsmall _ hquot)
  rw [mean]
  linarith

/-- The estimate is computed without overflow. -/
theorem blend_eq {qp : HpQp} (hR : 0 < qp.baseRtt.toNat) {tau : ℕ} (hu0 : 0 ≤ u)
    (hu : u ≤ 2 ^ (100 : ℤ)) (hw0 : 0 ≤ w) (hw : w ≤ 2 ^ (67 : ℤ)) :
    blend qp tau (num u) (num w) =
      num (mean qp.baseRtt.toNat (min tau qp.baseRtt.toNat) u w) := by
  have hR64 : qp.baseRtt.toNat < 2 ^ 64 := qp.baseRtt.toNat_lt
  rw [blend, mean]
  generalize qp.baseRtt.toNat = R at hR hR64 ⊢
  obtain ⟨t, ht⟩ : ∃ t, t = min tau R := ⟨_, rfl⟩
  rw [← ht]
  have htR : t ≤ R := ht ▸ min_le_right tau R
  have hR1 := one_le_rounded hR
  -- each product of a bounded number and a weight
  have hprod {x : ℚ} {n : ℕ} (hx0 : 0 ≤ x) (hx : x ≤ 2 ^ (100 : ℤ)) (hn : n < 2 ^ 64) :
      mul (num x) (ofNat n) = num (rounded (x * rounded n)) ∧ 0 ≤ rounded (x * rounded n) ∧
        rounded (x * rounded n) ≤ 2 ^ (164 : ℤ) := by
    have hn0 := rounded_natCast_nonneg n
    have hle : x * rounded n ≤ 2 ^ (164 : ℤ) := by
      rw [show (164 : ℤ) = 100 + 64 by norm_num, zpow_add₀ two_ne_zero]
      exact mul_le_mul hx (rounded_natCast_le hn) hn0 (two_zpow_pos _).le
    rw [ofNat_eq hn]
    exact ⟨ofRat_eq (mul_nonneg hx0 hn0) (by norm_num) (by norm_num) hle,
      rounded_nonneg (mul_nonneg hx0 hn0),
      rounded_le_of_isDouble (isDouble_zpow (by norm_num)) (mul_nonneg hx0 hn0) hle⟩
  obtain ⟨hold, hold0, hold1⟩ := hprod hu0 hu (Nat.lt_of_le_of_lt (Nat.sub_le R t) hR64)
  obtain ⟨hnew, hnew0, hnew1⟩ := hprod hw0
    (hw.trans (zpow_le_zpow_right₀ one_le_two (by norm_num))) (htR.trans_lt hR64)
  have hsum : rounded (u * rounded (R - t : ℕ)) + rounded (w * rounded t) ≤ 2 ^ (165 : ℤ) := by
    rw [show (165 : ℤ) = 164 + 1 by norm_num, zpow_add_one₀ two_ne_zero]
    linarith
  have hsum0 := add_nonneg hold0 hnew0
  have hle := rounded_le_of_isDouble (isDouble_zpow (by norm_num)) hsum0 hsum
  have hadd : add (num (rounded (u * rounded (R - t : ℕ)))) (num (rounded (w * rounded t))) =
      num (rounded (rounded (u * rounded (R - t : ℕ)) + rounded (w * rounded t))) :=
    ofRat_eq hsum0 (by norm_num) (by norm_num) hsum
  rw [hold, hnew, hadd, ofNat_eq hR64, div, if_pos (zero_lt_one.trans_le hR1).ne']
  exact ofRat_eq (j := 165) (div_nonneg (rounded_nonneg hsum0) (zero_le_one.trans hR1))
    (by norm_num) (by norm_num) ((div_le_self (rounded_nonneg hsum0) hR1).trans hle)

end Estimates

/-! ### Utilisations -/

section Utilisation

variable {c} {qp : HpQp} {ih : IntHeader} {i : Fin maxHop}

theorem within_nano : Within 1 (-30) (-29) nano := by
  refine within_ofRat (by norm_num) (by norm_num) (by norm_num) (by norm_num) ?_ ?_ <;> norm_num

theorem tau_lt (qp : HpQp) (ih : IntHeader) (i : Fin maxHop) : tau qp ih i < 2 ^ 24 := by
  have h := (ih.hop i).time_lt
  have h' := (qp.hop i).time_lt
  rw [tau, IntHop.getTimeDelta]
  split_ifs <;> omega

theorem within_duration (htau : tau qp ih i ≠ 0) : Within 1 (-30) (-5) (duration qp ih i) := by
  have hle : (tau qp ih i : ℚ) ≤ 2 ^ (24 : ℤ) := by exact_mod_cast (tau_lt qp ih i).le
  have h := within_ofNat (by norm_num) (by norm_num) hle
  rw [min_eq_right (Nat.pos_of_ne_zero htau)] at h
  exact h.mul within_nano (by norm_num) (by norm_num) (by norm_num) (by norm_num)

theorem within_win (hwin : qp.win ≠ 0) : Within 1 0 32 (ofNat qp.win.toNat) := by
  have hle : (qp.win.toNat : ℚ) ≤ 2 ^ (32 : ℤ) := by exact_mod_cast qp.win.toNat_lt.le
  have hpos : 0 < qp.win.toNat := Nat.pos_of_ne_zero fun h => hwin (UInt32.toNat_inj.1 h)
  have h := within_ofNat (by norm_num) (by norm_num) hle
  rwa [min_eq_right hpos] at h

/-- The telemetry names a rate of the table. -/
theorem within_lineRate {h : IntHop} (hrate : h.getLineRate.toNat ≠ 0) :
    Within 1 30 39 (ofNat h.getLineRate.toNat) := by
  have htable : 2 ^ 30 ≤ h.getLineRate.toNat ∧ h.getLineRate.toNat ≤ 2 ^ 39 := by
    have hcode : h.lineRate < 8 := BitField.get_lt (i := 0) (by decide) _
    rw [IntHop.getLineRate] at hrate ⊢
    generalize h.lineRate = code at hcode hrate ⊢
    revert code
    decide
  refine within_ofRat (by norm_num) (by norm_num) (by norm_num) (by norm_num) ?_ ?_
  · rw [Nat.cast_one, one_mul]
    exact_mod_cast htable.1
  · exact_mod_cast htable.2

/-- By its telemetry the hop `i` has sent nothing and has had no queue. -/
def Idle (c : Config) (qp : HpQp) (ih : IntHeader) (i : Fin maxHop) : Prop :=
  (ih.hop i).getBytesDelta c.int (qp.hop i) = 0 ∧
    min ((ih.hop i).getQlen c.int) ((qp.hop i).getQlen c.int) = 0

instance : Decidable (Idle c qp ih i) := inferInstanceAs (Decidable (_ ∧ _))

/-- The rate of the device is a positive `uint64_t`. -/
theorem within_maxRate (hmax : 0 < qp.maxRate) (hmax64 : qp.maxRate < 2 ^ 64) :
    Within 1 0 64 (ofNat qp.maxRate) := by
  have hle : (qp.maxRate : ℚ) ≤ 2 ^ (64 : ℤ) := by exact_mod_cast hmax64.le
  have h := within_ofNat (by norm_num) (by norm_num) hle
  rwa [min_eq_right hmax] at h

theorem within_txRate (htau : tau qp ih i ≠ 0) :
    Within (min (((ih.hop i).getBytesDelta c.int (qp.hop i)).toNat * 8) 1) 5 65
      (txRate c qp ih i) := by
  have hle : ((((ih.hop i).getBytesDelta c.int (qp.hop i)).toNat * 8 : ℕ) : ℚ) ≤ 2 ^ (35 : ℤ) := by
    have h := ((ih.hop i).getBytesDelta c.int (qp.hop i)).toNat_lt
    exact_mod_cast (by omega :
      ((ih.hop i).getBytesDelta c.int (qp.hop i)).toNat * 8 ≤ 2 ^ 35)
  exact (within_ofNat (by norm_num) (by norm_num) hle).div (within_duration htau) (by omega)
    (by norm_num) (by norm_num) (by norm_num)

theorem within_qlenOverT (c : Config) (ih : IntHeader) (i : Fin maxHop) (hmax : 0 < qp.maxRate)
    (hmax64 : qp.maxRate < 2 ^ 64) (hwin : qp.win ≠ 0) :
    Within (min (min ((ih.hop i).getQlen c.int) ((qp.hop i).getQlen c.int)).toNat 1) (-32) 96
      (qlenOverT c qp ih i) := by
  have hle : ((min ((ih.hop i).getQlen c.int) ((qp.hop i).getQlen c.int)).toNat : ℚ) ≤
      2 ^ (32 : ℤ) := by
    exact_mod_cast (min ((ih.hop i).getQlen c.int) ((qp.hop i).getQlen c.int)).toNat_lt.le
  exact ((within_ofNat (by norm_num) (by norm_num) hle).mul (within_maxRate hmax hmax64) (by omega)
    (by norm_num) (by norm_num) (by norm_num)).div (within_win hwin) (by omega) (by norm_num)
    (by norm_num) (by norm_num)

/-- **The utilisation of a hop** is bounded, and only an idle hop has a utilisation of `0`. -/
theorem within_hopU (hmax : 0 < qp.maxRate) (hmax64 : qp.maxRate < 2 ^ 64) (hwin : qp.win ≠ 0)
    (htau : tau qp ih i ≠ 0) (hrate : (ih.hop i).getLineRate.toNat ≠ 0) :
    Within (if Idle c qp ih i then 0 else 1) (-71) 67 (hopU c qp ih i) := by
  have htx := ((within_txRate (c := c) htau).div (within_lineRate hrate) (by omega) (by norm_num)
    (by norm_num) (by norm_num)).mono le_rfl (show -71 ≤ (5 : ℤ) - 39 by norm_num)
    (show (65 : ℤ) - 30 ≤ 66 by norm_num)
  have hq := (within_qlenOverT c ih i hmax hmax64 hwin).div
    (within_lineRate hrate) (by omega) (by norm_num) (by norm_num) (by norm_num)
  refine (htx.add hq (by omega) (by omega) (by norm_num) (by norm_num) (by norm_num)).mono ?_ le_rfl
    le_rfl
  split_ifs with hidle
  · exact Nat.zero_le _
  · have hzero (n : UInt32) : n.toNat = 0 ↔ n = 0 := by
      rw [← UInt32.toNat_inj]
      rfl
    rw [Idle, ← hzero, ← hzero] at hidle
    omega

theorem hopU_of_idle (hmax : 0 < qp.maxRate) (hmax64 : qp.maxRate < 2 ^ 64) (hwin : qp.win ≠ 0)
    (htau : tau qp ih i ≠ 0) (hrate : (ih.hop i).getLineRate.toNat ≠ 0) (h : Idle c qp ih i) :
    hopU c qp ih i = num 0 := by
  have htx : txRate c qp ih i = num 0 := by
    rw [txRate, h.1, UInt32.toNat_zero, Nat.zero_mul, ofNat_zero,
      num_zero_div (within_duration htau)]
  have hq : qlenOverT c qp ih i = num 0 := by
    rw [qlenOverT, h.2, UInt32.toNat_zero, ofNat_zero, num_zero_mul (within_maxRate hmax hmax64),
      num_zero_div (within_win hwin)]
  rw [hopU, htx, hq, num_zero_div (within_lineRate hrate), add, add_zero, ofRat_zero]

end Utilisation

/-! ### The condition -/

section Condition

variable (qp : HpQp)

/-- The hops whose telemetry `UpdateRateHp` uses for the ACK `a`. -/
def usedBy (a : Ack) : List (Fin maxHop) :=
  if qp.lastUpdateSeq ≠ 0 ∧ a.ih.nhop.toNat ≤ maxHop then
    if a.seq > qp.lastUpdateSeq then usedHops c a.ih false
    else if c.fastReact then usedHops c a.ih true
    else []
  else []

/-- What the estimate of the hop `i` becomes if the hop is idle, but for the roundings. -/
def left (ih : IntHeader) (i : Fin maxHop) : ℚ :=
  (qp.hopState i).u.value *
    (qp.baseRtt.toNat - min (tau qp ih i) qp.baseRtt.toNat : ℕ) / qp.baseRtt.toNat

/-- The hop `i` is not idle, or enough is left of its estimate to divide by. -/
def Lasting (ih : IntHeader) (i : Fin maxHop) : Prop :=
  ¬ Idle c qp ih i ∧ c.targetUtil ≤ 2 ^ (800 : ℤ) ∨
    2 ^ (-1070 : ℤ) ≤ left qp ih i ∧
      c.targetUtil * max (qp.hopState i).rc 1 ≤ 2 ^ (1016 : ℤ) * left qp ih i

/-- The condition on an ACK: of every hop that is used there is a window, and the time stamps
differ; and if a controller has increased its rate for `m_miThresh` round trips, there is something
to divide by. -/
def Dividable (a : Ack) : Prop :=
  ∀ i ∈ usedBy c qp a, qp.win ≠ 0 ∧ (a.ih.hop i).time ≠ (qp.hop i).time ∧
    if c.multipleRate then (qp.hopState i).incStage ≥ c.miThresh → Lasting c qp a.ih i
    else qp.incStage ≥ c.miThresh → c.targetUtil ≤ 2 ^ (800 : ℤ)

instance (ih : IntHeader) (i : Fin maxHop) : Decidable (Lasting c qp ih i) :=
  inferInstanceAs (Decidable (_ ∨ _))

instance (a : Ack) : Decidable (Dividable c qp a) :=
  inferInstanceAs (Decidable (∀ _ ∈ _, _))

/-- The telemetry of an ACK has been collected from the switches of some path. -/
def Stamped (a : Ack) : Prop := ∃ ds, a.ih = pushes c.int ds .new

/-- The invariant: the rates are those of a device, and the estimates are finite; that of a single
rate is not small. -/
structure Bounded : Prop where
  maxRate : 0 < qp.maxRate
  maxRate_lt : qp.maxRate < 2 ^ 64
  baseRtt : 0 < qp.baseRtt.toNat
  curRate : qp.curRate ≤ qp.maxRate
  rc : ∀ i, (qp.hopState i).rc ≤ qp.maxRate
  u : Within 1 (-140) 100 qp.u
  hopU : ∀ i, Within 0 0 100 (qp.hopState i).u

end Condition

/-! ### Divisors and rates -/

section Divisors

variable (qp : HpQp)

/-- The divisors in the loop over the hops, for the hop `i`, and `m_baseRtt`, by which a single rate
is divided behind the loop. -/
def hopDivisors (ih : IntHeader) (i : Fin maxHop) : List Double :=
  [duration qp ih i, ofNat qp.win.toNat, ofNat (ih.hop i).getLineRate.toNat,
    ofNat qp.baseRtt.toNat]

/-- The controllers that react, behind the loop: those of the hops `used`, or the single one. -/
def controllers (used : List (Fin maxHop)) : List HopEstimate :=
  if c.multipleRate then used.map qp.hopState
  else if used = [] then []
  else [{ u := qp.u, rc := qp.curRate, incStage := qp.incStage }]

/-- The divisors in the reaction of a controller. -/
def reactDivisors (s : HopEstimate) : List Double :=
  num c.targetUtil :: if divides c s.incStage s.u then [maxC c s.u] else []

/-- The rate that a controller divides. -/
def reactRates (s : HopEstimate) : List Double :=
  if divides c s.incStage s.u then [div (ofNat s.rc) (maxC c s.u)] else []

/-- The controllers that react to the ACK `a`. -/
def reacting (a : Ack) : List HopEstimate :=
  controllers c (feedback c qp a.ih (decide ¬a.seq > qp.lastUpdateSeq)) (usedBy c qp a)

/-- What `UpdateRateHp` divides by. -/
def divisors (a : Ack) : List Double :=
  (usedBy c qp a).flatMap (hopDivisors qp a.ih) ++ (reacting c qp a).flatMap (reactDivisors c)

/-- The rates that `UpdateRateHp` computes. -/
def rates (a : Ack) : List Double :=
  ((usedBy c qp a).flatMap fun i => [txRate c qp a.ih i, qlenOverT c qp a.ih i]) ++
    (reacting c qp a).flatMap (reactRates c)

/-- No divisor is `0`, and no rate is infinite or undefined. -/
def Sound (a : Ack) : Prop :=
  (∀ d ∈ divisors c qp a, d ≠ num 0) ∧ ∀ r ∈ rates c qp a, ∃ v, r = num v

end Divisors

/-! ### One update -/

section Step

variable {c} {qp : HpQp} {a : Ack}

/-- Of every hop that an ACK uses there is a window, a time and a rate. -/
structure Measured (c : Config) (qp : HpQp) (ih : IntHeader) (used : List (Fin maxHop)) : Prop where
  win : ∀ i ∈ used, qp.win ≠ 0
  tau : ∀ i ∈ used, tau qp ih i ≠ 0
  lineRate : ∀ i, (ih.hop i).getLineRate.toNat ≠ 0

variable {ih : IntHeader} {fastReact : Bool}

/-- A utilisation and its time: none, or those of a hop that is not idle. -/
def OfHop (b : Double × ℕ) : Prop :=
  b = (num 0, 0) ∨ b.2 ≠ 0 ∧ b.2 < 2 ^ 24 ∧ Within 1 (-71) 67 b.1

theorem OfHop.better (hb : Bounded qp) {i : Fin maxHop} (hwin : qp.win ≠ 0)
    (htau : HpQp.tau qp ih i ≠ 0) (hrate : (ih.hop i).getLineRate.toNat ≠ 0) {b : Double × ℕ}
    (h : OfHop b) : OfHop (better c qp ih b i) := by
  rw [HpQp.better]
  split_ifs with hlt
  · by_cases hidle : Idle c qp ih i
    · -- an idle hop beats nothing
      rw [hopU_of_idle hb.maxRate hb.maxRate_lt hwin htau hrate hidle] at hlt
      rcases h with rfl | ⟨-, -, v, hv, hlow, -⟩
      · simp [lt] at hlt
      · rw [hv, lt, decide_eq_true_eq] at hlt
        exact absurd hlt ((mul_zpow_nonneg 1 (-71)).trans hlow).not_gt
    · have hwithin := within_hopU (c := c) hb.maxRate hb.maxRate_lt hwin htau hrate
      rw [if_neg hidle] at hwithin
      exact .inr ⟨htau, tau_lt qp ih i, hwithin⟩
  · exact h

theorem ofHop_best (hb : Bounded qp) (hm : Measured c qp ih (usedHops c ih fastReact)) :
    OfHop (best c qp ih fastReact) := by
  have hfold (l : List (Fin maxHop)) (hl : ∀ i ∈ l, i ∈ usedHops c ih fastReact)
      {b : Double × ℕ} (h : OfHop b) : OfHop (l.foldl (better c qp ih) b) := by
    induction l generalizing b with
    | nil => exact h
    | cons i l hind =>
      have hi := hl i List.mem_cons_self
      exact hind (fun j hj => hl j (List.mem_cons_of_mem i hj))
        (h.better hb (hm.win i hi) (hm.tau i hi) (hm.lineRate i))
  exact hfold _ (fun _ hi => hi) (.inl rfl)

/-- **The estimate of a hop** stays finite, and above a bound if the hop is not idle. -/
theorem within_hopState (hb : Bounded qp) (hm : Measured c qp ih (usedHops c ih fastReact))
    {i : Fin maxHop} (hi : i ∈ usedHops c ih fastReact) :
    Within (if Idle c qp ih i then 0 else 1) (-135) 100
      (blend qp (tau qp ih i) (qp.hopState i).u (hopU c qp ih i)) := by
  obtain ⟨u, hu, hu0, hu1⟩ := hb.hopU i
  have hwithin := within_hopU (c := c) hb.maxRate hb.maxRate_lt (hm.win i hi) (hm.tau i hi)
    (hm.lineRate i)
  obtain ⟨w, hw, hw0, hw1⟩ := hwithin
  rw [Nat.cast_zero, zero_mul] at hu0
  have hw0' := (mul_zpow_nonneg _ _).trans hw0
  rw [hu, hw, blend_eq hb.baseRtt hu0 hu1 hw0' hw1]
  refine ⟨_, rfl, ?_, mean_le hb.baseRtt (min_le_right _ _)
    ((min_le_left _ _).trans (tau_lt qp ih i).le) hu0 hu1 hw0' hw1⟩
  split_ifs at hw0 ⊢ with hidle
  · rw [Nat.cast_zero, zero_mul]
    exact mean_nonneg hu0 hw0'
  · rw [Nat.cast_one, one_mul] at hw0 ⊢
    exact le_mean_of_new hb.baseRtt qp.baseRtt.toNat_lt
      (lt_min (Nat.pos_of_ne_zero (hm.tau i hi)) hb.baseRtt) hu0 hw0

/-- **The estimate of a single rate** stays finite, and above a bound. -/
theorem within_single (hb : Bounded qp) (hm : Measured c qp ih (usedHops c ih fastReact)) :
    Within 1 (-140) 100
      (blend qp (best c qp ih fastReact).2 qp.u (best c qp ih fastReact).1) := by
  obtain ⟨u, hu, hu0, hu1⟩ := hb.u
  rw [Nat.cast_one, one_mul] at hu0
  have hu0' := (two_zpow_pos (-140)).le.trans hu0
  rw [hu]
  rcases ofHop_best hb hm with hnone | ⟨hdt, hdt24, w, hw, hw0, hw1⟩
  · rw [hnone, blend_eq hb.baseRtt hu0' hu1 le_rfl (two_zpow_pos _).le, Nat.zero_min]
    refine ⟨_, rfl, ?_, mean_le hb.baseRtt (Nat.zero_le _) (Nat.zero_le _) hu0' hu1 le_rfl
      (two_zpow_pos _).le⟩
    rw [Nat.cast_one, one_mul]
    exact le_mean_of_none hb.baseRtt hu0
  · rw [Nat.cast_one, one_mul] at hw0
    have hw0' := (two_zpow_pos (-71)).le.trans hw0
    rw [hw, blend_eq hb.baseRtt hu0' hu1 hw0' hw1]
    refine ⟨_, rfl, ?_, mean_le hb.baseRtt (min_le_right _ _) ((min_le_left _ _).trans hdt24.le)
      hu0' hu1 hw0' hw1⟩
    rw [Nat.cast_one, one_mul]
    exact (zpow_le_zpow_right₀ one_le_two (by norm_num)).trans (le_mean_of_new hb.baseRtt
      qp.baseRtt.toNat_lt (lt_min (Nat.pos_of_ne_zero hdt) hb.baseRtt) hu0' hw0)

/-- What is left of the estimate of a hop is kept. -/
theorem left_le (hb : Bounded qp) (hm : Measured c qp ih (usedHops c ih fastReact))
    {i : Fin maxHop} (hi : i ∈ usedHops c ih fastReact) {v : ℚ}
    (hv : blend qp (tau qp ih i) (qp.hopState i).u (hopU c qp ih i) = num v)
    (hleft : 2 ^ (-1070 : ℤ) ≤ left qp ih i) : left qp ih i / 32 ≤ v := by
  obtain ⟨u, hu, hu0, hu1⟩ := hb.hopU i
  obtain ⟨w, hw, hw0, hw1⟩ := within_hopU (c := c) hb.maxRate hb.maxRate_lt (hm.win i hi)
    (hm.tau i hi) (hm.lineRate i)
  rw [Nat.cast_zero, zero_mul] at hu0
  have hw0' := (mul_zpow_nonneg _ _).trans hw0
  rw [hu, hw, blend_eq hb.baseRtt hu0 hu1 hw0' hw1] at hv
  cases hv
  rw [left, hu, value] at hleft ⊢
  exact le_mean_of_old hb.baseRtt hu0 hw0' hleft

/-- **A controller divides** by something that is not `0`, and its rate is finite, if its
utilisation is not too small. -/
theorem react_sound {s : HopEstimate} (ht : 0 < c.targetUtil) (hrc : s.rc < 2 ^ 64) {v : ℚ}
    (hu : s.u = num v)
    (hv : s.incStage ≥ c.miThresh → 0 < v ∧ c.targetUtil * max s.rc 1 ≤ 2 ^ (1021 : ℤ) * v) :
    (∀ d ∈ reactDivisors c s, d ≠ num 0) ∧ ∀ r ∈ reactRates c s, ∃ w, r = num w := by
  have hmaxC : maxC c s.u = ofRat (v / c.targetUtil) := by
    rw [maxC, hu, div, if_pos ht.ne']
  have htarget : num c.targetUtil ≠ num 0 := fun h => ht.ne' (by simpa using h)
  have hrc0 := rounded_natCast_nonneg s.rc
  have hrc64 := rounded_natCast_le hrc
  -- what is to be shown of `max_c`
  have hsuffices (h : divides c s.incStage s.u = true → maxC c s.u ≠ num 0 ∧
      ∃ w, div (num (rounded s.rc)) (maxC c s.u) = num w) :
      (∀ d ∈ reactDivisors c s, d ≠ num 0) ∧ ∀ r ∈ reactRates c s, ∃ w, r = num w := by
    rw [reactDivisors, reactRates, ofNat_eq hrc]
    by_cases hdiv : divides c s.incStage s.u = true
    · simpa [hdiv, htarget] using h hdiv
    · simpa [hdiv] using htarget
  refine hsuffices fun hdiv => ?_
  rw [divides, Bool.or_eq_true, decide_eq_true_eq] at hdiv
  rw [hmaxC] at hdiv ⊢
  rw [ofRat] at hdiv ⊢
  split_ifs at hdiv ⊢ with hfinite
  · obtain ⟨q, hq⟩ : ∃ q, q = rounded (v / c.targetUtil) := ⟨_, rfl⟩
    rw [← hq] at hdiv ⊢
    -- the quotient of the rate is bounded in both cases
    have hquot : 0 < q ∧ rounded s.rc / q ≤ 2 ^ (1023 : ℤ) := by
      rcases hdiv with hge | hstage
      · rw [geOne, decide_eq_true_eq] at hge
        refine ⟨zero_lt_one.trans_le hge, (div_le_self hrc0 hge).trans (hrc64.trans ?_)⟩
        exact zpow_le_zpow_right₀ one_le_two (by norm_num)
      · obtain ⟨hvpos, hvle⟩ := hv hstage
        obtain ⟨M, hM⟩ : ∃ M : ℚ, M = (max s.rc 1 : ℕ) := ⟨_, rfl⟩
        rw [← hM] at hvle
        have hM1 : 1 ≤ M := by
          rw [hM]
          exact_mod_cast le_max_right s.rc 1
        have hx : M / 2 ^ (1021 : ℤ) ≤ v / c.targetUtil := by
          rw [div_le_div_iff₀ (two_zpow_pos _) ht, mul_comm, mul_comm v]
          exact hvle
        have hx0 : (2 : ℚ) ^ (-1074 : ℤ) ≤ v / c.targetUtil := by
          refine le_trans ?_ hx
          rw [le_div_iff₀ (two_zpow_pos _), ← zpow_add₀ two_ne_zero]
          exact (zpow_le_one_of_nonpos₀ one_le_two (by norm_num)).trans hM1
        have hq0 := le_rounded hx0
        rw [← hq] at hq0
        have hqpos : 0 < q := by
          have h := (two_zpow_pos (-1074)).trans_le hx0
          linarith
        have hrcM : rounded s.rc ≤ 2 * M := by
          rcases Nat.eq_zero_or_pos s.rc with h0 | hpos
          · rw [h0, Nat.cast_zero, rounded_of_isDouble isDouble_zero]
            linarith
          · have hone : (1 : ℚ) ≤ s.rc := by exact_mod_cast hpos
            have hle := rounded_le ((zpow_le_one_of_nonpos₀ one_le_two (by norm_num)).trans hone)
            have hmax : (s.rc : ℚ) ≤ M := by
              rw [hM]
              exact_mod_cast le_max_left s.rc 1
            linarith
        refine ⟨hqpos, ?_⟩
        rw [div_le_iff₀ hqpos]
        rw [div_le_iff₀ (two_zpow_pos _)] at hx
        have hq2 : v / c.targetUtil ≤ 2 * q := by linarith
        calc rounded s.rc ≤ 2 * (v / c.targetUtil * 2 ^ (1021 : ℤ)) :=
              hrcM.trans (mul_le_mul_of_nonneg_left hx two_pos.le)
          _ ≤ 2 * (2 * q * 2 ^ (1021 : ℤ)) :=
              mul_le_mul_of_nonneg_left (mul_le_mul_of_nonneg_right hq2 (two_zpow_pos 1021).le)
                two_pos.le
          _ = 2 ^ (1023 : ℤ) * q := by
              rw [show (1023 : ℤ) = 1021 + 2 by norm_num, zpow_add₀ two_ne_zero]
              ring
    refine ⟨fun h => hquot.1.ne' (by simpa using h), ?_⟩
    rw [div, if_pos hquot.1.ne']
    exact ⟨_, ofRat_eq (div_nonneg hrc0 hquot.1.le) (by norm_num) (by norm_num) hquot.2⟩
  · exact ⟨by simp, 0, rfl⟩

theorem feedback_hopState (hmr : c.multipleRate = true) {i : Fin maxHop}
    (hi : i ∈ usedHops c ih fastReact) : (feedback c qp ih fastReact).hopState i =
      { qp.hopState i with u := blend qp (tau qp ih i) (qp.hopState i).u (hopU c qp ih i) } :=
  if_pos (by rw [hmr, updated_iff.2 hi, Bool.and_self])

theorem feedback_u (hmr : c.multipleRate = false) (hne : usedHops c ih fastReact ≠ []) :
    (feedback c qp ih fastReact).u =
      blend qp (best c qp ih fastReact).2 qp.u (best c qp ih fastReact).1 :=
  if_pos (by rw [hmr, updatedAny_iff.2 hne, Bool.not_false, Bool.and_self])

/-- The hops that an ACK uses are those of the update it causes. -/
theorem usedBy_cases (c : Config) (qp : HpQp) (a : Ack) : usedBy c qp a = [] ∨
    usedBy c qp a = usedHops c a.ih (decide ¬a.seq > qp.lastUpdateSeq) := by
  rw [usedBy]
  split_ifs with hread hseq hfast
  · simp [hseq]
  · simp [hseq]
  · exact .inl rfl
  · exact .inl rfl

theorem Dividable.measured (hs : Stamped c a) (hd : Dividable c qp a)
    (hused : usedBy c qp a = usedHops c a.ih fastReact) :
    Measured c qp a.ih (usedHops c a.ih fastReact) where
  win i hi := (hd i (hused ▸ hi)).1
  tau i hi h := (hd i (hused ▸ hi)).2.1 ((IntHop.getTimeDelta_eq_zero_iff _ _).1 h)
  lineRate i := by
    obtain ⟨ds, hds⟩ := hs
    rw [hds]
    exact getLineRate_pushes_ne_zero c.int ds i

/-- A utilisation above a bound is not too small for a target that is not too great. -/
theorem target_le {v : ℚ} {rc : ℕ} (hrc : rc < 2 ^ 64) (ht : c.targetUtil ≤ 2 ^ (800 : ℤ))
    (hv : 2 ^ (-140 : ℤ) ≤ v) : c.targetUtil * (max rc 1 : ℕ) ≤ 2 ^ (1021 : ℤ) * v := by
  have hmax : ((max rc 1 : ℕ) : ℚ) ≤ 2 ^ (64 : ℤ) := by
    exact_mod_cast max_le hrc.le (by norm_num)
  calc c.targetUtil * (max rc 1 : ℕ) ≤ 2 ^ (800 : ℤ) * 2 ^ (64 : ℤ) :=
        mul_le_mul ht hmax (Nat.cast_nonneg _) (two_zpow_pos _).le
    _ = 2 ^ (864 : ℤ) := by rw [← zpow_add₀ two_ne_zero]; norm_num
    _ ≤ 2 ^ (881 : ℤ) := zpow_le_zpow_right₀ one_le_two (by norm_num)
    _ = 2 ^ (1021 : ℤ) * 2 ^ (-140 : ℤ) := by rw [← zpow_add₀ two_ne_zero]; norm_num
    _ ≤ 2 ^ (1021 : ℤ) * v := mul_le_mul_of_nonneg_left hv (two_zpow_pos _).le

/-- Every controller that reacts to an ACK within the condition divides by something. -/
theorem reacting_sound (hb : Bounded qp) (ht : 0 < c.targetUtil) (hs : Stamped c a)
    (hd : Dividable c qp a) {s : HopEstimate} (h : s ∈ reacting c qp a) :
    (∀ d ∈ reactDivisors c s, d ≠ num 0) ∧ ∀ r ∈ reactRates c s, ∃ w, r = num w := by
  rw [reacting, controllers] at h
  rcases usedBy_cases c qp a with hnone | hused
  · simp [hnone] at h
  have hm := hd.measured hs hused
  rw [hused] at h
  cases hmr : c.multipleRate with
  | true =>
    rw [hmr, if_pos rfl, List.mem_map] at h
    obtain ⟨i, hi, rfl⟩ := h
    obtain ⟨v, hv, hv0, -⟩ := within_hopState hb hm hi
    have hcond := (hd i (hused ▸ hi)).2.2
    rw [hmr, if_pos rfl] at hcond
    rw [feedback_hopState hmr hi]
    refine react_sound ht ((hb.rc i).trans_lt hb.maxRate_lt) hv fun hstage => ?_
    rcases hcond hstage with ⟨hidle, htarget⟩ | ⟨hleft, htarget⟩
    · rw [if_neg hidle, Nat.cast_one, one_mul] at hv0
      exact ⟨(two_zpow_pos _).trans_le hv0,
        target_le ((hb.rc i).trans_lt hb.maxRate_lt) htarget
          ((zpow_le_zpow_right₀ one_le_two (by norm_num)).trans hv0)⟩
    · have hle := left_le hb hm hi hv hleft
      have hleft0 : 0 < left qp a.ih i := (two_zpow_pos _).trans_le hleft
      refine ⟨by linarith, htarget.trans ?_⟩
      calc 2 ^ (1016 : ℤ) * left qp a.ih i = 2 ^ (1021 : ℤ) * (left qp a.ih i / 32) := by
            rw [show (1021 : ℤ) = 1016 + 5 by norm_num, zpow_add₀ two_ne_zero]
            ring
        _ ≤ 2 ^ (1021 : ℤ) * v := mul_le_mul_of_nonneg_left hle (two_zpow_pos _).le
  | false =>
    rw [hmr, if_neg Bool.false_ne_true] at h
    split_ifs at h with hne
    · cases h
    rw [List.mem_singleton] at h
    obtain ⟨v, hv, hv0, -⟩ := within_single hb hm
    rw [Nat.cast_one, one_mul] at hv0
    obtain ⟨i, hi⟩ := List.exists_mem_of_ne_nil _ hne
    have hcond := (hd i (hused ▸ hi)).2.2
    rw [hmr, if_neg Bool.false_ne_true] at hcond
    rw [h, feedback_u hmr hne]
    exact react_sound ht (hb.curRate.trans_lt hb.maxRate_lt) hv fun hstage =>
      ⟨(two_zpow_pos _).trans_le hv0,
        target_le (hb.curRate.trans_lt hb.maxRate_lt) (hcond hstage) hv0⟩

/-- **An ACK within the condition** divides by nothing that is `0`, and its rates are finite. -/
theorem Bounded.sound (hb : Bounded qp) (ht : 0 < c.targetUtil) (hs : Stamped c a)
    (hd : Dividable c qp a) : Sound c qp a := by
  have hhop (i : Fin maxHop) (hi : i ∈ usedBy c qp a) :
      (∀ d ∈ hopDivisors qp a.ih i, d ≠ num 0) ∧ (∃ v, txRate c qp a.ih i = num v) ∧
        ∃ v, qlenOverT c qp a.ih i = num v := by
    have hused := (usedBy_cases c qp a).resolve_left (List.ne_nil_of_mem hi)
    have hm := hd.measured hs hused
    have hi' : i ∈ usedHops c a.ih (decide ¬a.seq > qp.lastUpdateSeq) := hused ▸ hi
    have hrtt : (qp.baseRtt.toNat : ℚ) ≤ 2 ^ (64 : ℤ) := by exact_mod_cast qp.baseRtt.toNat_lt.le
    have hrtt0 := within_ofNat (by norm_num) (by norm_num) hrtt
    rw [min_eq_right hb.baseRtt] at hrtt0
    obtain ⟨v, hv, -⟩ := within_txRate (c := c) (hm.tau i hi')
    obtain ⟨w, hw, -⟩ := within_qlenOverT c a.ih i hb.maxRate hb.maxRate_lt (hm.win i hi')
    refine ⟨?_, ⟨v, hv⟩, ⟨w, hw⟩⟩
    simp only [hopDivisors, List.forall_mem_cons]
    exact ⟨(within_duration (hm.tau i hi')).ne_zero, (within_win (hm.win i hi')).ne_zero,
      (within_lineRate (hm.lineRate i)).ne_zero, hrtt0.ne_zero, by simp⟩
  constructor
  · intro d hd'
    rw [divisors, List.mem_append, List.mem_flatMap, List.mem_flatMap] at hd'
    rcases hd' with ⟨i, hi, hdi⟩ | ⟨s, hs', hds⟩
    · exact (hhop i hi).1 d hdi
    · exact (reacting_sound hb ht hs hd hs').1 d hds
  · intro r hr
    rw [rates, List.mem_append, List.mem_flatMap, List.mem_flatMap] at hr
    rcases hr with ⟨i, hi, hri⟩ | ⟨s, hs', hrs⟩
    · simp only [List.mem_cons, List.not_mem_nil, or_false] at hri
      rcases hri with rfl | rfl
      · exact (hhop i hi).2.1
      · exact (hhop i hi).2.2
    · exact (reacting_sound hb ht hs hd hs').2 r hrs

/-- **Without a window, or without a time** between the stamps of a hop, there is a divisor `0`. -/
theorem not_sound_of_not_measured {i : Fin maxHop} (hi : i ∈ usedBy c qp a)
    (h : qp.win = 0 ∨ (a.ih.hop i).time = (qp.hop i).time) : ¬ Sound c qp a := by
  intro hsound
  have hdivisors (d : Double) (hd : d ∈ hopDivisors qp a.ih i) : d ≠ num 0 :=
    hsound.1 d (List.mem_append_left _ (List.mem_flatMap.2 ⟨i, hi, hd⟩))
  rcases h with hwin | htime
  · refine hdivisors (ofNat qp.win.toNat) (by simp [hopDivisors]) ?_
    rw [hwin, UInt32.toNat_zero, ofNat_zero]
  · refine hdivisors (duration qp a.ih i) (by simp [hopDivisors]) ?_
    have htau : tau qp a.ih i = 0 := (IntHop.getTimeDelta_eq_zero_iff _ _).2 htime
    rw [duration, htau, ofNat_zero, num_zero_mul within_nano]

/-- **An idle hop** whose stored stamp is a round trip old has the divisor `0`, if it has increased
its rate for `m_miThresh` round trips. -/
theorem not_sound_of_idle (hb : Bounded qp) (ht : 0 < c.targetUtil) (hs : Stamped c a)
    (hmr : c.multipleRate = true) {i : Fin maxHop} (hi : i ∈ usedBy c qp a)
    (hidle : Idle c qp a.ih i) (hold : qp.baseRtt.toNat ≤ tau qp a.ih i)
    (hstage : (qp.hopState i).incStage ≥ c.miThresh) : ¬ Sound c qp a := by
  intro hsound
  have hused := (usedBy_cases c qp a).resolve_left (List.ne_nil_of_mem hi)
  have hi' : i ∈ usedHops c a.ih (decide ¬a.seq > qp.lastUpdateSeq) := hused ▸ hi
  obtain ⟨ds, hds⟩ := hs
  have hzero : hopU c qp a.ih i = num 0 := by
    refine hopU_of_idle hb.maxRate hb.maxRate_lt (fun h => ?_) (fun h => ?_) ?_ hidle
    · exact not_sound_of_not_measured hi (.inl h) hsound
    · exact not_sound_of_not_measured hi
        (.inr ((IntHop.getTimeDelta_eq_zero_iff _ _).1 h)) hsound
    · rw [hds]
      exact getLineRate_pushes_ne_zero c.int ds i
  -- nothing is left of the estimate
  obtain ⟨u, hu, hu0, hu1⟩ := hb.hopU i
  rw [Nat.cast_zero, zero_mul] at hu0
  have hnothing : blend qp (tau qp a.ih i) (qp.hopState i).u (num 0) = num 0 := by
    rw [hu, blend_eq hb.baseRtt hu0 hu1 le_rfl (two_zpow_pos _).le, min_eq_right hold, mean,
      Nat.sub_self, Nat.cast_zero, zero_mul, rounded_of_isDouble isDouble_zero, mul_zero,
      rounded_of_isDouble isDouble_zero, add_zero, rounded_of_isDouble isDouble_zero, zero_div,
      rounded_of_isDouble isDouble_zero]
  refine hsound.1 (num 0) (List.mem_append_right _ (List.mem_flatMap.2
    ⟨(feedback c qp a.ih (decide ¬a.seq > qp.lastUpdateSeq)).hopState i, ?_, ?_⟩)) rfl
  · rw [reacting, controllers, hmr, if_pos rfl]
    exact List.mem_map_of_mem hi
  · have hmaxC : maxC c (num 0) = num 0 := by
      rw [maxC, div, if_pos ht.ne', zero_div, ofRat_zero]
    rw [feedback_hopState hmr hi', hzero, hnothing]
    simp [reactDivisors, divides, hmaxC, hstage]

/-! ### The invariant -/

variable {other : Double → ℕ}

theorem bound_le (c : Config) (qp : HpQp) (rate : ℕ) : bound c qp rate ≤ qp.maxRate := by
  rw [bound]
  split_ifs <;> omega

theorem react_le (rate incStage : ℕ) (u : Double) :
    (react c other qp rate incStage u).1 ≤ qp.maxRate := by
  rw [react]
  split_ifs <;> exact bound_le c qp _

theorem multiRate_le (c : Config) (other : Double → ℕ) (qp : HpQp) (ih : IntHeader)
    (fastReact : Bool) : multiRate c other qp ih fastReact ≤ qp.maxRate := by
  have hfold (l : List (Fin maxHop)) (f : Fin maxHop → ℕ) (r : ℕ) :
      l.foldl (fun newRate i => if f i < newRate then f i else newRate) r ≤ r := by
    induction l generalizing r with
    | nil => exact le_rfl
    | cons i l hind =>
      refine (hind _).trans ?_
      dsimp only
      split_ifs with hlt
      · exact hlt.le
      · exact le_rfl
  exact hfold _ _ _

/-- The loop keeps the invariant. -/
theorem Bounded.feedback (hb : Bounded qp) (hm : Measured c qp ih (usedHops c ih fastReact)) :
    Bounded (feedback c qp ih fastReact) where
  maxRate := hb.maxRate
  maxRate_lt := hb.maxRate_lt
  baseRtt := hb.baseRtt
  curRate := hb.curRate
  rc i := by
    simp only [HpQp.feedback]
    split_ifs <;> exact hb.rc i
  u := by
    simp only [HpQp.feedback]
    split_ifs
    · exact within_single hb hm
    · exact hb.u
  hopU i := by
    simp only [HpQp.feedback]
    split_ifs with h
    · rw [Bool.and_eq_true, updated_iff] at h
      obtain ⟨v, hv, hv0, hv1⟩ := within_hopState hb hm h.2
      refine ⟨v, hv, ?_, hv1⟩
      rw [Nat.cast_zero, zero_mul]
      exact (mul_zpow_nonneg _ _).trans hv0
    · exact hb.hopU i

/-- A new rate that the device has keeps the invariant. -/
theorem Bounded.applyRate (hb : Bounded qp) (fastReact : Bool) {newRate : ℕ}
    (h : newRate ≤ qp.maxRate) (newIncStage : ℕ) :
    Bounded (applyRate qp fastReact newRate newIncStage) := by
  rw [HpQp.applyRate]
  split_ifs
  · exact ⟨hb.maxRate, hb.maxRate_lt, hb.baseRtt, hb.curRate, hb.rc, hb.u, hb.hopU⟩
  · exact ⟨hb.maxRate, hb.maxRate_lt, hb.baseRtt, h, hb.rc, hb.u, hb.hopU⟩

/-- So does the reaction. -/
theorem Bounded.respond (hb : Bounded qp) (hm : Measured c qp ih (usedHops c ih fastReact)) :
    Bounded (respond c other qp ih fastReact) := by
  have hf := hb.feedback hm
  rw [HpQp.respond]
  dsimp only
  generalize HpQp.feedback c qp ih fastReact = f at hf ⊢
  split_ifs
  · exact hf
  · exact hf.applyRate fastReact (multiRate_le c other f ih _) 0
  · have h := hf.applyRate fastReact (multiRate_le c other f ih fastReact) 0
    refine ⟨h.maxRate, h.maxRate_lt, h.baseRtt, h.curRate, fun i => ?_, h.u, fun i => ?_⟩
    · dsimp only
      split_ifs
      · refine (react_le _ _ _).trans_eq ?_
        rw [HpQp.applyRate]
        split_ifs
        rfl
      · exact h.rc i
    · dsimp only
      split_ifs
      · exact h.hopU i
      · exact h.hopU i
  · exact hf.applyRate fastReact (react_le _ _ _) _

/-- **An ACK within the condition** keeps the invariant. -/
theorem Bounded.handleAckHp (hb : Bounded qp) (hs : Stamped c a) (hd : Dividable c qp a) :
    Bounded (handleAckHp c other qp a) := by
  have hupdate (fr : Bool) (hused : qp.lastUpdateSeq ≠ 0 ∧ a.ih.nhop.toNat ≤ maxHop →
      usedBy c qp a = usedHops c a.ih fr) : Bounded (updateRateHp c other qp a fr) := by
    have hrespond (h0 : qp.lastUpdateSeq ≠ 0) : Bounded
        (if a.ih.nhop.toNat ≤ maxHop then HpQp.respond c other qp a.ih fr else qp) := by
      split_ifs with hn
      · exact hb.respond (hd.measured hs (hused ⟨h0, hn⟩))
      · exact hb
    rw [updateRateHp]
    dsimp only
    by_cases h0 : qp.lastUpdateSeq = 0
    · rw [if_pos h0]
      exact ⟨hb.maxRate, hb.maxRate_lt, hb.baseRtt, hb.curRate, hb.rc, hb.u, hb.hopU⟩
    · rw [if_neg h0]
      have h := hrespond h0
      generalize (if a.ih.nhop.toNat ≤ maxHop then _ else qp) = qp' at h ⊢
      split_ifs
      · exact ⟨h.maxRate, h.maxRate_lt, h.baseRtt, h.curRate, h.rc, h.u, h.hopU⟩
      · exact h
  rw [HpQp.handleAckHp]
  split_ifs with hseq hfast
  · refine hupdate false fun hread => ?_
    rw [usedBy, if_pos hread, if_pos hseq]
  · refine hupdate true fun hread => ?_
    rw [usedBy, if_pos hread, if_neg hseq, if_pos hfast]
  · exact hb

theorem bounded_addQueuePair (hl : 0 < c.lineRate) (hl64 : c.lineRate < 2 ^ 64) (win : UInt32)
    {baseRtt : UInt64} (hrtt : baseRtt ≠ 0) : Bounded (addQueuePair c win baseRtt) where
  maxRate := hl
  maxRate_lt := hl64
  baseRtt := Nat.pos_of_ne_zero fun h => hrtt (UInt64.toNat_inj.1 h)
  curRate := le_rfl
  rc _ := by
    simp only [addQueuePair]
    split_ifs
    · exact le_rfl
    · exact Nat.zero_le _
  u := ⟨1, rfl, by norm_num, by norm_num⟩
  hopU _ := ⟨1, rfl, by norm_num, by norm_num⟩

end Step

/-- An ACK of a packet that has passed some ports. -/
def ackOf (ic : IntConfig) (seq : UInt32) (sndNxt : UInt64) (ds : List Departure) : Ack where
  seq := seq
  cnp := false
  ih := pushes ic ds .new
  now := 0
  sndNxt := sndNxt
  finished := false
  rand := 0

/-- The stamps of every hop have been taken at increasing times. -/
def Increasing (paths : List (List Departure)) : Prop :=
  paths.Pairwise fun ds ds' =>
    ∀ (i : ℕ) (d d' : Departure), ds[i]? = some d → ds'[i]? = some d' →
      d.now.toNat < d'.now.toNat

end HpQp

end CongestionControl

end HpccSim
