import HpccSim.HopFeedback
import HpccSim.Telemetry

/-!
# The additive increase by cardinality

With `m_enableDynamicAI` and a single rate, `UpdateRateHp` divides the additive increase by the
number of flows at the hop with the greatest utilisation (`rdma-hw.cc`). The number of flows is
stamped by `SetMyCC`, which writes it to `card1`, above the 20 bits of `heavyBytes`
(`int-header.h`). `UpdateRateHp` reads `card0`, the upper 16 bits of the same word, which are those
of the number of flows from `2 ^ 28` on. With `m_enableMyCC` the utilisation that is compared is
another one.

## Main definitions

* `hopMyU`: the utilisation of a hop with `m_enableMyCC`.
* `aiDivisor`: what the additive increase is divided by.

## Main results

* `card0_stamp`: what `UpdateRateHp` reads of a stamp.
* `aiDivisor_ne_card`: the divisor is never the number of flows that was stamped at any hop.
* `three_flows_divide_by_zero`: with three flows at the only hop it is `0`.
-/

namespace HpccSim

namespace CongestionControl

variable (c : Config) (enableMyCC : Bool) (qp : Qp) (ih : IntHeader) (fastReact : Bool)

/-- `Rb` of the hop `i`. -/
def hopRb (i : Fin maxHop) : ℚ :=
  ((ih.hop i).getHBytesDelta (qp.hp.hop i)).toNat * 8 / ((hopTau qp ih i : ℚ) / 10 ^ 9)

/-- `Bb` of the hop `i`, of which `Rs` is the difference of `txRate` and `Rb`. -/
def hopBb (i : Fin maxHop) : ℚ :=
  (ih.hop i).getLineRate.toNat * c.targetUtil - (hopTxRate c qp ih i - hopRb qp ih i)

/-- `u` of the hop `i` as it is compared. -/
def hopMyU (i : Fin maxHop) : ℚ :=
  let u := hopU c qp ih i
  if enableMyCC = true ∧ u ≥ 1 then
    (if (ih.hop i).bigflow = 0 then 1
      else hopRb qp ih i / hopBb c qp ih i + hopQlenOverT c qp ih i / hopBb c qp ih i) *
        c.targetUtil
  else u

/-- `U` and `card` after the loop over the hops, with a single rate. -/
def bestCard : ℚ × UInt32 :=
  (usedHops c ih fastReact).foldl
    (keepBest (hopMyU c enableMyCC qp ih) fun i => .ofNat (ih.hop i).card0) (0, 0xffffffff)

/-- What `UpdateRateHp` divides the additive increase by, with `m_enableDynamicAI` and a single
rate: nothing if it does not read the telemetry or no hop has been updated. -/
def aiDivisor : Option UInt32 :=
  if qp.hp.lastUpdateSeq ≠ 0 ∧ ih.nhop.toNat ≤ maxHop ∧ usedHops c ih fastReact ≠ [] then
    some (bestCard c enableMyCC qp ih fastReact).2
  else none

variable {c qp ih fastReact}

/-- Without `m_enableMyCC` it is the `card` of the loop. -/
theorem aiDivisor_eq (hmr : c.multipleRate = false) (h0 : qp.hp.lastUpdateSeq ≠ 0)
    (hn : ih.nhop.toNat ≤ maxHop) : aiDivisor c false qp ih fastReact =
      if (feedback c qp ih fastReact).updatedAny then some (feedback c qp ih fastReact).card
      else none := by
  have hf := feedback_reads c qp ih fastReact
  have hu : hopMyU c false qp ih = hopU c qp ih := by
    funext i
    simp [hopMyU]
  have hcard : (bestCard c false qp ih fastReact).2 = (feedback c qp ih fastReact).card := by
    rw [bestCard, hu]
    have hcomp := foldl_keepBest_comp (u := hopU c qp ih)
      (p := fun i => (hopTau qp ih i, UInt32.ofNat (ih.hop i).card0)) Prod.snd (0, 0, 0xffffffff)
      (usedHops c ih fastReact)
    rw [← hf.best hmr] at hcomp
    exact congrArg Prod.snd hcomp
  rw [aiDivisor, hcard]
  by_cases hl : usedHops c ih fastReact = []
  · rw [if_neg fun h => h.2.2 hl, if_neg fun h => hf.updatedAny.1 h hl]
  · rw [if_pos ⟨h0, hn, hl⟩, if_pos (hf.updatedAny.2 hl)]

/-- **What `UpdateRateHp` reads** of the number of flows that is stamped. -/
theorem card0_stamp (h : IntHop) (ic : IntConfig) (time bytes : UInt64) (qlen : UInt32)
    (rate : UInt64) (isBigflow : Bool) (heavyBytes : UInt64) (card : UInt32) :
    (h.stamp ic time bytes qlen rate isBigflow heavyBytes card).card0 = card.toNat / 2 ^ 28 := by
  let h' := h.stamp ic time bytes qlen rate isBigflow heavyBytes card
  have hcard : h'.card1 = card.toNat % 2 ^ 44 := IntHop.get_storeMy_self _ (by decide)
  have hcard1 : h'.card1 = h'.myBuf.toNat / 2 ^ 20 % 2 ^ 44 := rfl
  have hread : h'.card0 = h'.myBuf.toNat / 2 ^ 48 % 2 ^ 16 := rfl
  have hlt := card.toNat_lt
  have hword := h'.myBuf.toNat_lt
  rw [hread]
  omega

/-- Of less than `2 ^ 28` flows it reads `0`. -/
theorem card0_pushes (ic : IntConfig) {ds : List Departure} (hds : ∀ d ∈ ds, d.card.toNat < 2 ^ 28)
    (i : Fin maxHop) : ((pushes ic ds .new).hop i).card0 = 0 := by
  refine forall_hop_pushes (P := fun h => h.card0 = 0) rfl (fun d hd h _ => ?_) i
  rw [card0_stamp]
  exact Nat.div_eq_of_lt (hds d hd)

/-- **The divisor is never the number of flows** that was stamped at a hop, at whichever hop that
is, whatever the bytes of big flows: it is `0` if a hop has a positive utilisation, and `2 ^ 32 - 1`
if none has. -/
theorem aiDivisor_ne_card (c : Config) (enableMyCC : Bool) (qp : Qp) (fastReact : Bool)
    {ds : List Departure} (hds : ∀ d ∈ ds, 1 ≤ d.card.toNat ∧ d.card.toNat < 2 ^ 16) {k : UInt32}
    (hdiv : aiDivisor c enableMyCC qp (pushes c.int ds .new) fastReact = some k) :
    (∀ d ∈ ds, k ≠ d.card) ∧
      k = if ∃ i ∈ usedHops c (pushes c.int ds .new) fastReact,
        0 < hopMyU c enableMyCC qp (pushes c.int ds .new) i then 0 else 0xffffffff := by
  have hread := card0_pushes c.int fun d hd => (hds d hd).2.trans (by decide)
  generalize hih : pushes c.int ds .new = ih at hread hdiv ⊢
  obtain ⟨-, hk⟩ := Option.ite_none_right_eq_some.1 hdiv
  have hval : k = if ∃ i ∈ usedHops c ih fastReact, 0 < hopMyU c enableMyCC qp ih i then 0
      else 0xffffffff := by
    rw [← Option.some.inj hk, bestCard]
    rcases foldl_keepBest (u := hopMyU c enableMyCC qp ih)
      (p := fun i => UInt32.ofNat (ih.hop i).card0) (0, 0xffffffff) (usedHops c ih fastReact) with
      ⟨heq, hle⟩ | ⟨i, hi, heq, hlt, -⟩
    · rw [heq, if_neg]
      rintro ⟨i, hi, hlt⟩
      exact not_lt.2 (hle i hi) hlt
    · rw [heq, if_pos ⟨i, hi, hlt⟩, hread i]
      rfl
  refine ⟨fun d hd heq => ?_, hval⟩
  obtain ⟨hpos, hlt⟩ := hds d hd
  rw [heq] at hval
  rw [hval] at hpos hlt
  split_ifs at hpos hlt
  · exact absurd hpos (by decide)
  · exact absurd hlt (by decide)

/-- A sender on a 100 Gb/s port with a stored record of its only hop. -/
def measured (ic : IntConfig) : Qp :=
  let qp := Qp.new 100000 8000
  { qp with
    maxRate := 100 * 10 ^ 9
    hp := { qp.hp with
      lastUpdateSeq := 5000
      hop := fun _ => (Departure.ofPort 1000 4000 3).stamp ic } }

/-- The configuration with a single rate and an increase by cardinality. -/
def dynamicAiConfig : Config :=
  { Config.defaults .hpcc (100 * 10 ^ 9) { mode := .normal, pintBytes := 2, multi := 1 } with
    multipleRate := false
    enableDynamicAI := true }

/-- Three flows at the only hop. -/
theorem aiDivisor_ne_card_three_flows :
    let c := dynamicAiConfig
    ∃ k, aiDivisor c false (measured c.int)
        (pushes c.int [.ofPort 9000 100000 3] .new) false = some k ∧ k ≠ 3 := by
  intro c
  have hds : ∀ d ∈ [Departure.ofPort 9000 100000 3], 1 ≤ d.card.toNat ∧ d.card.toNat < 2 ^ 16 := by
    simp [Departure.ofPort]
  refine ⟨0, by decide +kernel, ?_⟩
  have h := aiDivisor_ne_card c false (measured c.int) false hds (k := 0) (by decide +kernel)
  exact h.1 _ List.mem_cons_self

/-- **With three flows** at the only hop the additive increase is divided by `0`. -/
theorem three_flows_divide_by_zero :
    ¬ ∀ (c : Config) (enableMyCC : Bool) (qp : Qp) (fastReact : Bool) (ds : List Departure)
      (k : UInt32), c.ccMode = .hpcc → c.enableDynamicAI = true → c.multipleRate = false →
        (∀ d ∈ ds, 1 ≤ d.card.toNat ∧ d.card.toNat < 2 ^ 16) →
        aiDivisor c enableMyCC qp (pushes c.int ds .new) fastReact = some k →
        k ≠ 0 ∧ ∀ i ∈ usedHops c (pushes c.int ds .new) fastReact,
          (∀ j ∈ usedHops c (pushes c.int ds .new) fastReact,
            hopMyU c enableMyCC qp (pushes c.int ds .new) j ≤
              hopMyU c enableMyCC qp (pushes c.int ds .new) i) →
          ∀ d, ds[i.val]? = some d → k = d.card := by
  intro h
  have h' := h dynamicAiConfig false (measured dynamicAiConfig.int) false
    [.ofPort 9000 100000 3] 0 rfl rfl rfl (by simp [Departure.ofPort]) (by decide +kernel)
  exact h'.1 rfl

end CongestionControl

end HpccSim
