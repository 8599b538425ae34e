import HpccSim.CustomRand
import Mathlib.Algebra.Order.Floor.Semiring
import Mathlib.Data.Rat.Floor

/-!
# Bins of flow sizes

From the distribution of the flow sizes a script makes bins for the plots. It goes down from the
largest size in steps of one percentile, and where such a step would more than halve the size, it
halves the size instead and takes the percentile of that.

## Main definitions

* `FlowBins.body`: one pass through the loop of the script.
* `flowBins`: the whole script, for a bound on the number of passes.

## Main results

* `flowBins_collects`: the script ends without an error, its bins decrease strictly from the
  largest size on, and never to less than half of a bin above 1000.
-/

namespace HpccSim

/-- The conversion to `int`, which rounds towards zero. -/
def int (v : ℚ) : ℤ := v.num.tdiv v.den

theorem int_eq_floor {v : ℚ} (hv : 0 ≤ v) : int v = ⌊v⌋ := by
  rw [int, Rat.floor_def', Int.tdiv_eq_ediv_of_nonneg (Rat.num_nonneg.2 hv)]

/-- How the script ends: with its bins, with its own error message, or with an exception. -/
inductive FlowBins.Outcome
  | collected (bins : List ℤ)
  | error (bins : List ℤ)
  | exception
deriving DecidableEq

/-- The variables of the loop. -/
structure FlowBins where
  x : ℤ
  p : ℚ
  bins : List ℤ

namespace FlowBins

/-- `x` is a new bin unless it is the last one. -/
def collect (x : ℤ) (bins : List ℤ) : List ℤ :=
  if bins.length = 0 ∨ bins.getLast? ≠ some x then bins ++ [x] else bins

/-- The second half of a pass: from the size `x` to the percentile `p₁`, or half way. -/
def descend (r : CustomRand) (x : ℤ) (bins : List ℤ) (p₁ : ℚ) : Outcome ⊕ FlowBins :=
  match r.getValueFromPercentile p₁ with
  | none => .inl .exception
  | some v =>
    if int v < x / 2 ∧ x > 1000 then
      match r.getPercentileFromValue (x / 2 : ℤ) with
      -- `None < 0` holds.
      | none => .inl (.error bins)
      | some p₁ => if p₁ < 0 then .inl (.error bins) else .inr ⟨x / 2, p₁, bins⟩
    else if p₁ < 0 then .inl (.error bins) else .inr ⟨int v, p₁, bins⟩

/-- One pass through the loop. -/
def body (r : CustomRand) (s : FlowBins) : Outcome ⊕ FlowBins :=
  let bins := collect s.x s.bins
  if s.p > 2 then descend r s.x bins (s.p - 1)
  else if s.p > 1 then descend r s.x bins 1
  else .inl (.collected bins)

/-- The loop, for at most `fuel` tests of its condition. -/
def loop (r : CustomRand) : ℕ → FlowBins → Option Outcome
  | 0, _ => none
  | fuel + 1, s =>
    if s.x > 0 then
      match body r s with
      | .inl o => some o
      | .inr s' => loop r fuel s'
    else some (.collected s.bins)

end FlowBins

/-- The script up to the end of its loop. -/
def flowBins (r : CustomRand) (fuel : ℕ) : Option FlowBins.Outcome :=
  match r.getValueFromPercentile 100 with
  | none => some .exception
  | some v => FlowBins.loop r fuel ⟨int v, 100, []⟩

namespace FlowBins

/-! ### The bins -/

/-- What the next bin `b'` is like after the bin `b`. -/
def Follows (b b' : ℤ) : Prop := b' < b ∧ (1000 < b → b / 2 ≤ b')

/-- The bins start with `top`, and each but the first follows the one before. -/
structure WellFormed (top : ℤ) (bins : List ℤ) : Prop where
  head : ∀ b ∈ bins.head?, b = top
  follows : bins.IsChain Follows
  pos : ∀ b ∈ bins, 0 < b

/-- The size `x` may be collected. -/
def Fits (top x : ℤ) (bins : List ℤ) : Prop :=
  match bins.getLast? with
  | none => x = top
  | some b => x = b ∨ Follows b x

variable {top x x' : ℤ} {bins : List ℤ}

theorem getLast?_collect : (collect x bins).getLast? = some x := by
  rw [collect]
  split_ifs with h
  · exact List.getLast?_concat
  · rw [not_or, not_not] at h
    exact h.2

theorem wellFormed_nil : WellFormed top [] where
  head := fun _ hb => nomatch hb
  follows := .nil
  pos := fun _ hb => absurd hb List.not_mem_nil

/-- A positive size that fits is collected. -/
theorem WellFormed.collect (h : WellFormed top bins) (hx : Fits top x bins) (hpos : 0 < x) :
    WellFormed top (collect x bins) := by
  rw [FlowBins.collect]
  split_ifs with hnew
  · refine ⟨?_, ?_, ?_⟩
    · intro b hb
      cases bins with
      | nil =>
        obtain rfl : x = b := by simpa using hb
        exact hx
      | cons a bins => exact h.head b hb
    · refine List.isChain_append.2 ⟨h.follows, .singleton x, ?_⟩
      rintro b hb _ ⟨⟩
      rw [Option.mem_def] at hb
      rw [Fits, hb] at hx
      rw [hb] at hnew
      rcases hx with rfl | hx
      · rcases hnew with hnil | hne
        · rw [List.length_eq_zero_iff.1 hnil] at hb
          cases hb
        · exact absurd rfl hne
      · exact hx
    · intro b hb
      rcases List.mem_append.1 hb with hb | hb
      · exact h.pos b hb
      · rw [List.mem_singleton.1 hb]
        exact hpos
  · exact h

/-- After `x` was collected, what equals or follows `x` fits. -/
theorem fits_collect (h : x' = x ∨ Follows x x') : Fits top x' (collect x bins) := by
  rw [Fits, getLast?_collect]
  exact h

/-! ### One pass -/

/-- The size `x` is the integer part of the value at the percentile `p`. -/
def Matches (r : CustomRand) (x : ℤ) (p : ℚ) : Prop :=
  1 ≤ p ∧ p ≤ 100 ∧ ∃ v, r.getValueFromPercentile p = some v ∧ x = ⌊v⌋

variable {r : CustomRand} {s : FlowBins} {p p₁ : ℚ}

theorem Matches.nonneg (h₀ : 0 ≤ r.least) (h : Matches r x p) : 0 ≤ x := by
  obtain ⟨hp, hp', v, hv, rfl⟩ := h
  obtain ⟨v', hv', hlow, -⟩ := r.exists_value (zero_le_one.trans hp) hp'
  obtain rfl := Option.some.inj (hv.symm.trans hv')
  exact Int.floor_nonneg.2 (h₀.trans hlow)

/-- A size strictly between the values at two percentiles has a percentile between them. -/
theorem exists_between {v v₁ : ℚ} (h₀ : 0 ≤ r.least) (hp₁ : 1 ≤ p₁) (hp₁p : p₁ < p)
    (hp : p ≤ 100) (hv₁ : r.getValueFromPercentile p₁ = some v₁)
    (hv : r.getValueFromPercentile p = some v) (hlt₁ : v₁ < x) (hlt : x < v) :
    ∃ p', r.getPercentileFromValue x = some p' ∧ p₁ < p' ∧ p' < p ∧ Matches r x p' := by
  have hp₁0 : 0 ≤ p₁ := zero_le_one.trans hp₁
  obtain ⟨v', hv', hlow₁, -⟩ := r.exists_value hp₁0 (hp₁p.le.trans hp)
  obtain rfl := Option.some.inj (hv₁.symm.trans hv')
  obtain ⟨v', hv', -, hhigh⟩ := r.exists_value (hp₁0.trans hp₁p.le) hp
  obtain rfl := Option.some.inj (hv.symm.trans hv')
  have hrange := hlow₁.trans hlt₁.le
  have hrange' := hlt.le.trans hhigh
  obtain ⟨p', hp', -, hp'100⟩ := CustomRand.exists_percentile h₀ hrange hrange'
  have hpv₁ := CustomRand.getPercentile_of_getValue h₀ hp₁0 (hp₁p.le.trans hp) hv₁
  have hpv := CustomRand.getPercentile_of_getValue h₀ (hp₁0.trans hp₁p.le) hp hv
  have hgt : p₁ < p' :=
    CustomRand.percentile_lt_percentile (h₀.trans hlow₁) hlt₁ hrange' hpv₁ hp'
  have hlt' : p' < p :=
    CustomRand.percentile_lt_percentile (h₀.trans hrange) hlt hhigh hp' hpv
  exact ⟨p', hp', hgt, hlt', hp₁.trans hgt.le, hp'100, _,
    CustomRand.getValue_of_getPercentile h₀ hrange hrange' hp', (Int.floor_intCast _).symm⟩

/-- **Descending.** From a size and its percentile the script comes to a smaller percentile and its
size. It either takes the percentile `p₁` asked for, or a smaller size. -/
theorem exists_descend (h₀ : 0 ≤ r.least) (h : Matches r x p) (hp₁ : 1 ≤ p₁) (hp : p₁ < p) :
    ∃ s', descend r x bins p₁ = .inr s' ∧ s'.bins = bins ∧ Matches r s'.x s'.p ∧
      (s'.x = x ∨ Follows x s'.x) ∧ (s'.p = p₁ ∨ s'.p < p ∧ s'.x < x) := by
  obtain ⟨-, hp100, v, hv, rfl⟩ := h
  have hp₁0 : 0 ≤ p₁ := zero_le_one.trans hp₁
  have hp₁100 : p₁ ≤ 100 := hp.le.trans hp100
  obtain ⟨v₁, hv₁, hlow₁, -⟩ := r.exists_value hp₁0 hp₁100
  have hvv : v₁ < v := CustomRand.value_lt_value hp hv₁ hv
  have hint : int v₁ = ⌊v₁⌋ := int_eq_floor (h₀.trans hlow₁)
  rw [descend, hv₁]
  simp only [hint]
  by_cases hhalf : ⌊v₁⌋ < ⌊v⌋ / 2 ∧ ⌊v⌋ > 1000
  · -- The half of the size lies strictly between the two values, so does its percentile.
    have hsmaller : ⌊v⌋ / 2 < ⌊v⌋ := by omega
    have hlt₁ : v₁ < (⌊v⌋ / 2 : ℤ) := Int.floor_lt.1 hhalf.1
    have hlt : ((⌊v⌋ / 2 : ℤ) : ℚ) < v := (Int.cast_lt.2 hsmaller).trans_le (Int.floor_le v)
    obtain ⟨p', hp', hgt, hlt', hmatch⟩ := exists_between h₀ hp₁ hp hp100 hv₁ hv hlt₁ hlt
    have hnn : ¬p' < 0 := (hp₁0.trans hgt.le).not_gt
    refine ⟨⟨⌊v⌋ / 2, p', bins⟩, ?_, rfl, hmatch, .inr ⟨hsmaller, fun _ => le_rfl⟩,
      .inr ⟨hlt', hsmaller⟩⟩
    rw [if_pos hhalf, hp']
    exact if_neg hnn
  · refine ⟨⟨⌊v₁⌋, p₁, bins⟩, ?_, rfl, ⟨hp₁, hp₁100, v₁, hv₁, rfl⟩, ?_, .inl rfl⟩
    · rw [if_neg hhalf, if_neg hp₁0.not_gt]
    · have hle : ⌊v₁⌋ ≤ ⌊v⌋ := Int.floor_mono hvv.le
      rcases hle.eq_or_lt with heq | hlt
      · exact .inl heq
      · exact .inr ⟨hlt, fun hbig => not_lt.1 fun h => hhalf ⟨h, hbig⟩⟩

/-- What holds each time the condition of the loop is tested. -/
structure Inv (r : CustomRand) (top : ℤ) (s : FlowBins) : Prop where
  isMatch : Matches r s.x s.p
  wellFormed : WellFormed top s.bins
  fits : Fits top s.x s.bins

/-- The loop makes progress in the size or in the percentile. -/
def measure (s : FlowBins) : ℕ := s.x.toNat + ⌈s.p⌉₊

/-- **One pass.** The invariant is kept and the measure decreases, or the pass is the last one. -/
theorem body_spec (h₀ : 0 ≤ r.least) (h : Inv r top s) (hx : 0 < s.x) :
    (∃ s', body r s = .inr s' ∧ Inv r top s' ∧ s'.bins ≠ [] ∧ s'.measure < s.measure) ∨
    ∃ bins, body r s = .inl (.collected bins) ∧ WellFormed top bins ∧ bins ≠ [] := by
  have hbins := h.wellFormed.collect h.fits hx
  have hne : collect s.x s.bins ≠ [] := by
    intro hnil
    have hlast : (collect s.x s.bins).getLast? = some s.x := getLast?_collect
    rw [hnil] at hlast
    cases hlast
  -- Both ways of descending end alike; only the percentile asked for differs.
  have hdown (p₁ : ℚ) (hp₁ : 1 ≤ p₁) (hp : p₁ < s.p) (hceil : ⌈p₁⌉₊ < ⌈s.p⌉₊)
      (hbody : body r s = descend r s.x (collect s.x s.bins) p₁) :
      ∃ s', body r s = .inr s' ∧ Inv r top s' ∧ s'.bins ≠ [] ∧ s'.measure < s.measure := by
    obtain ⟨s', hs', hb, hm, hf, hprog⟩ := exists_descend h₀ h.isMatch hp₁ hp
    refine ⟨s', hbody.trans hs', ⟨hm, hb ▸ hbins, hb ▸ fits_collect hf⟩, hb ▸ hne, ?_⟩
    have hx' := hm.nonneg h₀
    rw [measure, measure]
    rcases hprog with hprog | ⟨hp', hlt⟩
    · rw [hprog]
      have hle : s'.x ≤ s.x := by
        rcases hf with heq | hfol
        · exact heq.le
        · exact hfol.1.le
      omega
    · have hle : ⌈s'.p⌉₊ ≤ ⌈s.p⌉₊ := Nat.ceil_mono hp'.le
      omega
  rcases lt_or_ge 2 s.p with h2 | h2
  · refine .inl (hdown (s.p - 1) (by linarith) (by linarith) ?_ ?_)
    · have hceil := Nat.ceil_add_one (a := s.p - 1) (by linarith)
      rw [sub_add_cancel] at hceil
      omega
    · rw [body]
      exact if_pos h2
  rcases lt_or_ge 1 s.p with h1 | h1
  · refine .inl (hdown 1 le_rfl h1 ?_ ?_)
    · rw [Nat.ceil_one]
      exact Nat.lt_ceil.2 (by exact_mod_cast h1)
    · simp only [body, if_neg h2.not_gt, if_pos h1]
  · refine .inr ⟨_, ?_, hbins, hne⟩
    simp only [body, if_neg h2.not_gt, if_neg h1.not_gt]

/-! ### The loop -/

/-- **The loop.** With enough fuel the loop ends with well-formed bins, and if the size is positive
at first, there are some. -/
theorem exists_loop (h₀ : 0 ≤ r.least) (h : Inv r top s) :
    ∃ bins, (∀ fuel, s.measure < fuel → loop r fuel s = some (.collected bins)) ∧
      WellFormed top bins ∧ (bins = [] ↔ s.x ≤ 0 ∧ s.bins = []) := by
  induction hn : s.measure using Nat.strong_induction_on generalizing s with
  | _ n ih =>
    rcases lt_or_ge 0 s.x with hx | hx
    · have hloop (fuel : ℕ) : loop r (fuel + 1) s = match body r s with
          | .inl o => some o
          | .inr s' => loop r fuel s' := by
        rw [loop, if_pos hx]
      rcases body_spec h₀ h hx with ⟨s', hbody, hs', hne, hlt⟩ | ⟨bins, hbody, hwf, hne⟩
      · obtain ⟨bins, hfuel, hwf, hnil⟩ := ih s'.measure (hn ▸ hlt) hs' rfl
        refine ⟨bins, fun fuel hf => ?_, hwf, ?_⟩
        · obtain ⟨fuel, rfl⟩ := Nat.exists_eq_add_of_lt hf
          rw [hloop, hbody]
          exact hfuel _ (by omega)
        · exact iff_of_false (fun hb => hne (hnil.1 hb).2) fun hb => hb.1.not_gt hx
      · refine ⟨bins, fun fuel hf => ?_, hwf, iff_of_false hne fun hb => hb.1.not_gt hx⟩
        obtain ⟨fuel, rfl⟩ := Nat.exists_eq_add_of_lt hf
        rw [hloop, hbody]
    · refine ⟨s.bins, fun fuel hf => ?_, h.wellFormed, by simp [hx]⟩
      obtain ⟨fuel, rfl⟩ := Nat.exists_eq_add_of_lt hf
      rw [loop, if_neg hx.not_gt]

end FlowBins

open FlowBins

/-- **The bins.** The script ends without an error, after a number of passes bounded by the largest
size. If the largest size is less than one there are no bins. Otherwise they are positive, decrease
strictly from the integer part of the largest size, and the bin after one above 1000 is at least
its half. -/
theorem flowBins_collects (r : CustomRand) (h₀ : 0 ≤ r.least) :
    ∃ bins, (∀ fuel, ⌊r.largest⌋.toNat + 100 < fuel →
        flowBins r fuel = some (.collected bins)) ∧
      bins.Pairwise (· > ·) ∧ (∀ b ∈ bins, 0 < b) ∧
      (1 ≤ r.largest → bins.head? = some ⌊r.largest⌋) ∧ (r.largest < 1 → bins = []) ∧
      bins.IsChain fun b b' => 1000 < b → b / 2 ≤ b' := by
  have hlargest : 0 ≤ r.largest := h₀.trans CustomRand.least_le_largest
  have htop : r.getValueFromPercentile 100 = some r.largest := CustomRand.value_hundred h₀
  have hinv : Inv r ⌊r.largest⌋ ⟨⌊r.largest⌋, 100, []⟩ :=
    ⟨⟨by norm_num, le_rfl, _, htop, rfl⟩, wellFormed_nil, rfl⟩
  have hmeasure : FlowBins.measure ⟨⌊r.largest⌋, 100, []⟩ = ⌊r.largest⌋.toNat + 100 := by
    simp [FlowBins.measure]
  obtain ⟨bins, hfuel, hwf, hnil⟩ := exists_loop h₀ hinv
  refine ⟨bins, fun fuel hf => ?_, ?_, hwf.pos, fun hone => ?_, fun hlt => ?_, ?_⟩
  · rw [flowBins, htop]
    simp only [int_eq_floor hlargest]
    exact hfuel fuel (hmeasure.trans_lt hf)
  · have hdecr : bins.IsChain (· > ·) := hwf.follows.imp fun _ _ h => h.1
    exact List.isChain_iff_pairwise.1 hdecr
  · have hne : bins ≠ [] := fun hb => (Int.floor_pos.2 hone).not_ge (hnil.1 hb).1
    have hhead := List.head?_eq_some_head hne
    rw [hhead, hwf.head _ hhead]
  · exact hnil.2 ⟨Int.lt_add_one_iff.1 (Int.floor_lt.2 (by simpa using hlt)), rfl⟩
  · exact hwf.follows.imp fun _ _ h => h.2

/-- A distribution of sizes between 0 and 3000. -/
def uniform : CustomRand where
  cdf := [(0, 0), (3000, 100)]
  accepted := by decide +kernel

theorem flowBins_uniform : ∃ bins, flowBins uniform 3101 = some (.collected bins) ∧
    bins.Pairwise (· > ·) ∧ bins.head? = some ⌊uniform.largest⌋ := by
  obtain ⟨bins, hfuel, hdecr, -, hhead, -⟩ := flowBins_collects uniform (by decide +kernel)
  exact ⟨bins, hfuel 3101 (by decide +kernel), hdecr, hhead (by decide +kernel)⟩

/-- A distribution of sizes below one byte. -/
def tiny : CustomRand where
  cdf := [(0, 0), (1 / 2, 100)]
  accepted := by decide +kernel

/-- Below one byte the loop is not entered: no bin is the integer part of the largest size. -/
theorem flowBins_tiny : flowBins tiny 1 = some (.collected []) ∧
    ∀ fuel bins, flowBins tiny fuel = some (.collected bins) →
      bins.head? ≠ some ⌊tiny.largest⌋ := by
  have htop : tiny.getValueFromPercentile 100 = some (1 / 2) := by decide +kernel
  have hint : int (1 / 2) = 0 := by decide +kernel
  have hrun (fuel : ℕ) : flowBins tiny (fuel + 1) = some (.collected []) := by
    rw [flowBins, htop]
    simp only [hint]
    rfl
  refine ⟨hrun 0, fun fuel bins h => ?_⟩
  cases fuel with
  | zero =>
    rw [flowBins, htop] at h
    cases h
  | succ fuel =>
    rw [hrun] at h
    cases h
    exact nofun

end HpccSim
