import HpccSim.Lib.Bisection
import HpccSim.Lib.Double
import HpccSim.Lib.FairShare
import Mathlib.Algebra.Order.Field.Rat
import Mathlib.Algebra.Order.Ring.Nat
import Mathlib.Tactic.FieldSimp
import Mathlib.Tactic.Linarith
import Mathlib.Tactic.NormNum

/-!
# The threshold of big flows

`MySketch::GetThBinary` (`my-sketch.h`) sorts the measured rates of the flows, sums them up and
looks by binary search for the first flow whose rate reaches the share that the flows before it
leave to the others. That share is the rate each flow gets when the link rate is shared max-min
fairly; a flow is big if it uses it up. When the link is not used up, the flows near the largest
one are big.

The rates are `uint64_t`, and so are the sums of `dist`, which wrap. The numbers of type `double`
are rational: the conversions to it, the difference and the product with `m_h` are rounded by a
function `round`, such as `Double.rounded`, and the divisions are exact.

## Main definitions

* `MySketch.thresholdOf`: `GetThBinary`, from the rates of the flows.

## Main results

* `MySketch.thresholdOf_of_congested`: the share that is found uses up the link rate.
* `MySketch.thresholdOf_of_idle`: the threshold when the link is not used up.
* `MySketch.getThBinary_spec`: both, if the sum of the rates does not wrap and no conversion rounds.
-/

namespace HpccSim

namespace MySketch

/-- What `GetThBinary` finds: the index `re`, the quotient it puts into `tag.m_Rb`, and the
threshold it returns. -/
structure Threshold where
  re : ℤ
  Rb : ℚ
  th : UInt64
  deriving DecidableEq

/-- A vector at an `int`; `none` if that is out of range. -/
def elem (v : List UInt64) (i : ℤ) : Option UInt64 := if 0 ≤ i then v[i.toNat]? else none

/-- The vector `flowRates`: a `0` is pushed back, and it is sorted. -/
def flowRatesOf (rates : List UInt64) : List UInt64 := (rates ++ [0]).insertionSort (· ≤ ·)

/-- The vector `dist`, the sums of `flowRates`; its first element is not added. -/
def distOf (flowRates : List UInt64) : List UInt64 := flowRates.tail.scanl (· + ·) 0

-- the rounding of a number to `double`
variable (round : ℚ → ℚ)

variable (mRate : UInt64) (h : ℚ) (flowRates dist : List UInt64)

/-- `((double)m_rate - dist[i - 1]) / (dist.size() - i)`. -/
def shareAt (i : ℤ) : Option ℚ :=
  (elem dist (i - 1)).map fun d =>
    round (round mRate.toNat - round d.toNat) / ((dist.length : ℚ) - i)

/-- The test of the loop for a link that is used up: going on to the left. -/
def reachesShare (mid : ℤ) : Option Bool := do
  let share ← shareAt round mRate dist mid
  let rate ← elem flowRates mid
  return !decide (share > round rate.toNat)

/-- The test of the loop for a link that is not used up: going on to the left. -/
def nearLargest (mid : ℤ) : Option Bool := do
  let rate ← elem flowRates mid
  let back ← flowRates.getLast?
  return decide (round rate.toNat ≥ round (round back.toNat * h))

/-- `MySketch::GetThBinary`, from the rates of the flows that it has queried; `none` if an index
into `dist` or `flowRates` is out of range. -/
def thresholdOf (mRate : UInt64) (h : ℚ) (rates : List UInt64) : Option Threshold := do
  let flowRates := flowRatesOf rates
  let dist := distOf flowRates
  let back ← dist.getLast?
  let r : ℤ := dist.length - 1
  let re ←
    if back < mRate then Bisection.search (nearLargest round h flowRates) 1 r (-1)
    else Bisection.search (reachesShare round mRate flowRates dist) 1 r (-1)
  let Rb ← shareAt round mRate dist re
  let th ← elem flowRates re
  return { re := re, Rb := Rb, th := th }

/-! ### The vectors -/

section Vectors

variable {rates : List UInt64}

/-- The rates in increasing order. -/
def sorted (rates : List UInt64) : List UInt64 := rates.insertionSort (· ≤ ·)

theorem sorted_perm (rates : List UInt64) : (sorted rates).Perm rates :=
  List.perm_insertionSort _ rates

@[simp] theorem length_sorted (rates : List UInt64) : (sorted rates).length = rates.length :=
  (sorted_perm rates).length_eq

theorem pairwise_sorted (rates : List UInt64) : (sorted rates).Pairwise (· ≤ ·) :=
  List.pairwise_insertionSort _ rates

/-- The `0` that is pushed back comes first. -/
theorem flowRatesOf_eq (rates : List UInt64) : flowRatesOf rates = 0 :: sorted rates := by
  refine List.Perm.eq_of_pairwise (fun a b _ _ => UInt64.le_antisymm)
    (List.pairwise_insertionSort _ _) ?_ ?_
  · refine List.pairwise_cons.2 ⟨fun x _ => ?_, pairwise_sorted rates⟩
    exact UInt64.le_iff_toNat_le.2 (Nat.zero_le _)
  · have hperm : (flowRatesOf rates).Perm (rates ++ [0]) := List.perm_insertionSort _ _
    exact hperm.trans (List.perm_append_comm.trans ((sorted_perm rates).symm.cons 0))

/-- The sum of the rates, if it does not wrap. -/
theorem foldl_add_toNat (l : List UInt64) (a : UInt64)
    (hsum : a.toNat + (l.map UInt64.toNat).sum < 2 ^ 64) :
    (l.foldl (· + ·) a).toNat = a.toNat + (l.map UInt64.toNat).sum := by
  induction l generalizing a with
  | nil => simp
  | cons x l ih =>
    rw [List.map_cons, List.sum_cons] at hsum ⊢
    have hadd : (a + x).toNat = a.toNat + x.toNat := by
      rw [UInt64.toNat_add]
      exact Nat.mod_eq_of_lt (by omega)
    rw [List.foldl_cons, ih (a + x) (by omega), hadd]
    omega

/-- The rates as rational numbers. -/
def toRat (rates : List UInt64) : List ℚ := rates.map fun x => (x.toNat : ℚ)

theorem sum_toRat (rates : List UInt64) :
    (toRat rates).sum = ((rates.map UInt64.toNat).sum : ℕ) := by
  induction rates with
  | nil => rfl
  | cons x l ih =>
    simp only [toRat, List.map_cons, List.sum_cons, Nat.cast_add] at ih ⊢
    rw [ih]

theorem pairwise_toRat (rates : List UInt64) : (toRat (sorted rates)).Pairwise (· ≤ ·) := by
  refine List.pairwise_map.2 ((pairwise_sorted rates).imp fun {a b} hab => ?_)
  exact_mod_cast UInt64.le_iff_toNat_le.1 hab

theorem elem_flowRates (rates : List UInt64) (k : ℕ) :
    elem (flowRatesOf rates) (k + 1 : ℕ) = (sorted rates)[k]? := by
  rw [elem, if_pos (Int.natCast_nonneg _), Int.toNat_natCast, flowRatesOf_eq,
    List.getElem?_cons_succ]

theorem length_dist (rates : List UInt64) :
    (distOf (flowRatesOf rates)).length = rates.length + 1 := by
  rw [distOf, flowRatesOf_eq, List.tail_cons, List.length_scanl, length_sorted]

theorem sum_take_sorted_le (k : ℕ) :
    (((sorted rates).take k).map UInt64.toNat).sum ≤ (rates.map UInt64.toNat).sum := by
  have hle := (((sorted rates).take_sublist k).map UInt64.toNat).sum_le_sum fun _ _ =>
    Nat.zero_le _
  have heq : ((sorted rates).map UInt64.toNat).sum = (rates.map UInt64.toNat).sum :=
    ((sorted_perm rates).map _).sum_eq
  omega

variable (hsum : (rates.map UInt64.toNat).sum < 2 ^ 64)

include hsum

theorem sum_take_sorted_lt (k : ℕ) : (((sorted rates).take k).map UInt64.toNat).sum < 2 ^ 64 :=
  (sum_take_sorted_le k).trans_lt hsum

theorem elem_dist {k : ℕ} (hk : k ≤ rates.length) :
    ∃ d, elem (distOf (flowRatesOf rates)) k = some d ∧
      d.toNat = (((sorted rates).take k).map UInt64.toNat).sum := by
  refine ⟨((sorted rates).take k).foldl (· + ·) 0, ?_, ?_⟩
  · rw [elem, if_pos (Int.natCast_nonneg _), Int.toNat_natCast, distOf, flowRatesOf_eq,
      List.tail_cons, List.getElem?_scanl, if_pos (by rw [length_sorted]; exact hk)]
  · have := foldl_add_toNat ((sorted rates).take k) 0
      (by simpa using sum_take_sorted_lt hsum k)
    simpa using this

theorem back_dist : ∃ d, (distOf (flowRatesOf rates)).getLast? = some d ∧
    d.toNat = (rates.map UInt64.toNat).sum := by
  refine ⟨(sorted rates).foldl (· + ·) 0, ?_, ?_⟩
  · rw [distOf, flowRatesOf_eq, List.tail_cons, List.getLast?_scanl]
  · have heq : ((sorted rates).map UInt64.toNat).sum = (rates.map UInt64.toNat).sum :=
      ((sorted_perm rates).map _).sum_eq
    have := foldl_add_toNat (sorted rates) 0 (by simpa [heq] using hsum)
    simpa [heq] using this

end Vectors

/-! ### The two searches -/

section Searches

variable {rates : List UInt64} {mRate : UInt64} {h : ℚ} {round : ℚ → ℚ}

theorem length_toRat (rates : List UInt64) : (toRat rates).length = rates.length :=
  List.length_map _

/-- The rate of index `k + 1`. -/
theorem elem_flowRates_of_lt {k : ℕ} (hk : k < (toRat (sorted rates)).length) :
    ∃ x ∈ rates, elem (flowRatesOf rates) (k + 1 : ℕ) = some x ∧
      (x.toNat : ℚ) = (toRat (sorted rates))[k] := by
  have hk' : k < (sorted rates).length := by rwa [length_toRat] at hk
  refine ⟨(sorted rates)[k], (sorted_perm rates).mem_iff.1 (List.getElem_mem hk'), ?_, ?_⟩
  · rw [elem_flowRates, List.getElem?_eq_getElem hk']
  · simp [toRat]

/-- No integer up to the sum of the rates is rounded. -/
def Keeps (round : ℚ → ℚ) (rates : List UInt64) : Prop :=
  ∀ z : ℤ, |z| ≤ (rates.map UInt64.toNat).sum → round z = z

/-- The doubles do so up to `2 ^ 53`. -/
theorem keeps_rounded (h : (rates.map UInt64.toNat).sum ≤ 2 ^ 53) : Keeps Double.rounded rates :=
  fun _ hz => Double.rounded_intCast (hz.trans (by exact_mod_cast h))

/-- The numbers up to the sum are not rounded. -/
theorem Keeps.natCast (hround : Keeps round rates) {n : ℕ}
    (hn : n ≤ (rates.map UInt64.toNat).sum) : round n = n := by
  have h := hround n (by rw [Nat.abs_cast]; exact_mod_cast hn)
  rwa [Int.cast_natCast] at h

/-- A rate is not rounded. -/
theorem Keeps.rate (hround : Keeps round rates) {x : UInt64} (hx : x ∈ rates) :
    round x.toNat = x.toNat :=
  hround.natCast (List.single_le_sum (fun _ _ => Nat.zero_le _) _ (List.mem_map_of_mem hx))

theorem Keeps.getElem (hround : Keeps round rates) {k : ℕ}
    (hk : k < (toRat (sorted rates)).length) :
    round (toRat (sorted rates))[k] = (toRat (sorted rates))[k] := by
  obtain ⟨x, hmem, -, hrate⟩ := elem_flowRates_of_lt hk
  rw [← hrate, hround.rate hmem]

/-- The share that the flows before index `k + 1` leave to the others. -/
theorem shareAt_eq (hsum : (rates.map UInt64.toNat).sum < 2 ^ 64) {k : ℕ} (hk : k < rates.length) :
    shareAt round mRate (distOf (flowRatesOf rates)) (k + 1 : ℕ) =
      some (round (round mRate.toNat - round ((toRat (sorted rates)).take k).sum) /
        ((toRat (sorted rates)).length - k)) := by
  obtain ⟨d, hd, hdsum⟩ := elem_dist hsum hk.le
  have hpred : ((k + 1 : ℕ) : ℤ) - 1 = (k : ℕ) := by omega
  have htake : ((toRat (sorted rates)).take k).sum = (d.toNat : ℚ) := by
    rw [hdsum, ← sum_toRat, toRat, toRat, List.map_take]
  rw [shareAt, hpred, hd, Option.map_some, length_dist, htake, length_toRat, length_sorted]
  push_cast
  ring_nf

/-- If the link is used up, it is exactly that share. -/
theorem shareAt_eq_of_keeps (hround : Keeps round rates)
    (hsum : (rates.map UInt64.toNat).sum < 2 ^ 64)
    (hle : mRate.toNat ≤ (rates.map UInt64.toNat).sum) {k : ℕ} (hk : k < rates.length) :
    shareAt round mRate (distOf (flowRatesOf rates)) (k + 1 : ℕ) =
      some (((mRate.toNat : ℚ) - ((toRat (sorted rates)).take k).sum) /
        ((toRat (sorted rates)).length - k)) := by
  have htake : ((toRat (sorted rates)).take k).sum =
      ((((sorted rates).take k).map UInt64.toNat).sum : ℕ) := by
    rw [← sum_toRat, toRat, toRat, List.map_take]
  have hpart : (((sorted rates).take k).map UInt64.toNat).sum ≤ (rates.map UInt64.toNat).sum :=
    sum_take_sorted_le k
  have hdiff : round (((mRate.toNat : ℤ) -
      ((((sorted rates).take k).map UInt64.toNat).sum : ℕ) : ℤ) : ℚ) = _ :=
    hround _ (abs_le.2 ⟨by omega, by omega⟩)
  rw [Int.cast_sub, Int.cast_natCast, Int.cast_natCast] at hdiff
  rw [shareAt_eq hsum hk, hround.natCast hle, htake, hround.natCast hpart, hdiff]

theorem reachesShare_eq (hround : Keeps round rates)
    (hsum : (rates.map UInt64.toNat).sum < 2 ^ 64)
    (hle : mRate.toNat ≤ (rates.map UInt64.toNat).sum) {k : ℕ}
    (hk : k < (toRat (sorted rates)).length) :
    reachesShare round mRate (flowRatesOf rates) (distOf (flowRatesOf rates)) (k + 1 : ℕ) =
      some (decide ((mRate.toNat : ℚ) ≤
        FairShare.granted (toRat (sorted rates)) (toRat (sorted rates))[k])) := by
  obtain ⟨x, -, hx, hrate⟩ := elem_flowRates_of_lt hk
  have hlen : k < rates.length := by rwa [length_toRat, length_sorted] at hk
  have hpos : 0 < ((toRat (sorted rates)).length : ℚ) - k := sub_pos.2 (by exact_mod_cast hk)
  have hiff : ¬ ((mRate.toNat : ℚ) - ((toRat (sorted rates)).take k).sum) /
        ((toRat (sorted rates)).length - k) > (toRat (sorted rates))[k] ↔
      (mRate.toNat : ℚ) ≤ FairShare.granted (toRat (sorted rates)) (toRat (sorted rates))[k] := by
    rw [FairShare.granted_getElem (pairwise_toRat rates) hk, not_lt, div_le_iff₀ hpos,
      sub_le_iff_le_add', mul_comm]
  simp only [reachesShare, shareAt_eq_of_keeps hround hsum hle hlen, hx, Option.bind_eq_bind,
    Option.bind_some, hrate, hround.getElem hk, Option.pure_def, Option.some.injEq, ← decide_not]
  exact decide_eq_decide.2 hiff

theorem granted_perm {as bs : List ℚ} (hperm : as.Perm bs) (L : ℚ) :
    FairShare.granted as L = FairShare.granted bs L :=
  (hperm.map _).sum_eq

theorem toRat_perm (rates : List UInt64) : (toRat (sorted rates)).Perm (toRat rates) :=
  (sorted_perm rates).map _

theorem getElem_toRat_mono {j k : ℕ} (hjk : j ≤ k) (hk : k < (toRat (sorted rates)).length) :
    (toRat (sorted rates))[j] ≤ (toRat (sorted rates))[k] :=
  (pairwise_toRat rates).rel_get_of_le (a := ⟨j, by omega⟩) (b := ⟨k, hk⟩) hjk

/-- The largest demand is the last one, and at its level all are granted in full. -/
theorem granted_last (hne : rates ≠ []) :
    ∃ hk : rates.length - 1 < (toRat (sorted rates)).length,
      FairShare.granted (toRat (sorted rates)) (toRat (sorted rates))[rates.length - 1] =
        ((rates.map UInt64.toNat).sum : ℕ) := by
  have hpos := List.length_pos_of_ne_nil hne
  have hk : rates.length - 1 < (toRat (sorted rates)).length := by
    rw [length_toRat, length_sorted]
    omega
  refine ⟨hk, ?_⟩
  rw [← sum_toRat, ← (toRat_perm rates).sum_eq]
  refine FairShare.granted_eq_sum fun x hx => ?_
  obtain ⟨j, hj, rfl⟩ := List.getElem_of_mem hx
  have hjle : j ≤ rates.length - 1 := by
    rw [length_toRat, length_sorted] at hj
    omega
  exact getElem_toRat_mono hjle hk

/-- **A search among the sorted rates**: the first index at whose rate a monotone function reaches
`C`, if it does so at some rate. -/
theorem search_sorted (rates : List UInt64) {p : ℤ → Option Bool} {g : ℚ → ℚ} {C : ℚ}
    (hg : Monotone g)
    (hp : ∀ k (hk : k < (toRat (sorted rates)).length),
      p (k + 1 : ℕ) = some (decide (C ≤ g (toRat (sorted rates))[k])))
    (hex : ∃ k, ∃ hk : k < (toRat (sorted rates)).length, C ≤ g (toRat (sorted rates))[k]) :
    ∃ k, ∃ hk : k < (toRat (sorted rates)).length,
      Bisection.search p 1 rates.length (-1) = some ((k + 1 : ℕ) : ℤ) ∧
        C ≤ g (toRat (sorted rates))[k] ∧
        ∀ j (hj : j < (toRat (sorted rates)).length), j < k → g (toRat (sorted rates))[j] < C := by
  have hlen : (toRat (sorted rates)).length = rates.length := by
    rw [length_toRat, length_sorted]
  let b : ℕ → Bool := fun k =>
    if hk : k < (toRat (sorted rates)).length then decide (C ≤ g (toRat (sorted rates))[k])
    else false
  have hb : ∀ k (hk : k < (toRat (sorted rates)).length),
      b k = true ↔ C ≤ g (toRat (sorted rates))[k] := fun k hk => by simp [b, hk]
  obtain ⟨k, hk, hsearch, hbk, hfirst⟩ := Bisection.search_from_one (p := p) (b := b) (-1)
    (n := rates.length)
    (fun k hk => by
      rw [← hlen] at hk
      rw [hp k hk, Option.some.injEq, Bool.eq_iff_iff, hb k hk, decide_eq_true_eq])
    (fun j k hjk hk hbj => by
      rw [← hlen] at hk
      rw [hb j (by omega)] at hbj
      rw [hb k hk]
      exact hbj.trans (hg (getElem_toRat_mono hjk hk)))
    (by
      obtain ⟨k, hk, hC⟩ := hex
      exact ⟨k, hlen ▸ hk, (hb k hk).2 hC⟩)
  rw [← hlen] at hk
  refine ⟨k, hk, hsearch, (hb k hk).1 hbk, fun j _ hj => ?_⟩
  have := hfirst j hj
  rw [Bool.eq_false_iff, Ne, hb j (by omega), not_le] at this
  exact this

/-- The last index of both vectors. -/
theorem last_index (rates : List UInt64) :
    ((distOf (flowRatesOf rates)).length : ℤ) - 1 = rates.length := by
  rw [length_dist]
  push_cast
  ring

/-- **A link that is used up.** The search finds a flow; the share that the flows before it leave
to the others is the level at which the rates use up the link, and the flows whose rate reaches the
threshold are those that use up their share. -/
theorem thresholdOf_of_congested (hround : Keeps round rates)
    (hsum : (rates.map UInt64.toNat).sum < 2 ^ 64) (hne : rates ≠ [])
    (hle : mRate.toNat ≤ (rates.map UInt64.toNat).sum) :
    ∃ k < rates.length, ∃ t, thresholdOf round mRate h rates = some t ∧ t.re = (k + 1 : ℕ) ∧
      t.Rb = ((mRate.toNat : ℚ) - (toRat ((sorted rates).take k)).sum) / (rates.length - k) ∧
      FairShare.granted (toRat rates) t.Rb = mRate.toNat ∧
      ∀ x ∈ rates, t.th ≤ x ↔ t.Rb ≤ x.toNat := by
  set a := toRat (sorted rates) with ha
  have hlen : a.length = rates.length := by rw [ha, length_toRat, length_sorted]
  -- the larger the flow, the more is granted at its level; at the largest, everything is
  obtain ⟨k, hka, hsearch, hreach, hfirst⟩ := search_sorted rates
    (p := reachesShare round mRate (flowRatesOf rates) (distOf (flowRatesOf rates)))
    (fun _ _ => FairShare.granted_mono a) (fun k hk => reachesShare_eq hround hsum hle hk) (by
      obtain ⟨hk, hgranted⟩ := granted_last hne
      refine ⟨_, hk, ?_⟩
      rw [hgranted]
      exact_mod_cast hle)
  obtain ⟨hlt, hge, hgranted⟩ :=
    FairShare.granted_level (pairwise_toRat rates) hka hreach hfirst rfl
  have hk : k < rates.length := hlen ▸ hka
  obtain ⟨x, -, hx, hxrate⟩ := elem_flowRates_of_lt hka
  obtain ⟨d, hd, hdsum⟩ := back_dist hsum
  have hback : ¬ d < mRate := by
    rw [UInt64.lt_iff_toNat_lt, hdsum]
    omega
  refine ⟨k, hk, ⟨(k + 1 : ℕ), ((mRate.toNat : ℚ) - (a.take k).sum) / (a.length - k), x⟩,
    ?_, rfl, ?_, ?_, ?_⟩
  · simp only [thresholdOf, hd, Option.bind_eq_bind, Option.bind_some, if_neg hback, last_index,
      hsearch, shareAt_eq_of_keeps hround hsum hle hk, hx, Option.pure_def]
    rfl
  · simp only [ha, toRat, List.map_take, List.length_map, length_sorted]
  · rw [← granted_perm (toRat_perm rates)]
    exact hgranted
  · intro y hy
    have hya : (y.toNat : ℚ) ∈ a := List.mem_map_of_mem ((sorted_perm rates).mem_iff.2 hy)
    have hcast : x ≤ y ↔ (x.toNat : ℚ) ≤ y.toNat := by
      rw [UInt64.le_iff_toNat_le]
      exact_mod_cast Iff.rfl
    rw [hcast, hxrate]
    rw [← List.take_append_drop k a] at hya
    rcases List.mem_append.1 hya with hya | hya
    · -- below the share, and so below the threshold
      have hxge := hge _ (by rw [List.drop_eq_getElem_cons hka]; exact List.mem_cons_self)
      exact ⟨fun hxy => absurd (hxge.trans hxy) (not_le.2 (hlt _ hya)),
        fun hRy => absurd hRy (not_le.2 (hlt _ hya))⟩
    · exact ⟨fun _ => hge _ hya,
        fun _ => FairShare.getElem_le_of_mem_drop (pairwise_toRat rates) hka hya⟩

/-- `flowRates.back()` is the largest rate. -/
theorem back_flowRates {m : UInt64} (hm : m ∈ rates) (hmax : ∀ x ∈ rates, x ≤ m) :
    (flowRatesOf rates).getLast? = some m := by
  have hmem := (sorted_perm rates).mem_iff.2 hm
  have hne : sorted rates ≠ [] := List.ne_nil_of_mem hmem
  have hlast : (sorted rates).getLast hne = m := by
    refine UInt64.le_antisymm (hmax _ ?_) ((pairwise_sorted rates).rel_getLast hmem)
    exact (sorted_perm rates).mem_iff.1 (List.getLast_mem hne)
  rw [flowRatesOf_eq, List.getLast?_cons, List.getLast?_eq_some_getLast hne, hlast,
    Option.getD_some]

theorem nearLargest_eq (hround : Keeps round rates) {m : UInt64} (hm : m ∈ rates)
    (hmax : ∀ x ∈ rates, x ≤ m) {k : ℕ} (hk : k < (toRat (sorted rates)).length) :
    nearLargest round h (flowRatesOf rates) (k + 1 : ℕ) =
      some (decide (round (m.toNat * h) ≤ (toRat (sorted rates))[k])) := by
  obtain ⟨x, -, hx, hrate⟩ := elem_flowRates_of_lt hk
  simp only [nearLargest, hx, back_flowRates hm hmax, Option.bind_eq_bind, Option.bind_some,
    hround.rate hm, hrate, hround.getElem hk, Option.pure_def, ge_iff_le]

/-- **A link that is not used up.** The search finds the first flow whose rate is at least `m_h`
times the largest one, `m`, and its rate is the threshold. -/
theorem thresholdOf_of_idle (hmono : Monotone round) (hround : Keeps round rates) {m : UInt64}
    (hm : m ∈ rates) (hmax : ∀ x ∈ rates, x ≤ m)
    (hlt : (rates.map UInt64.toNat).sum < mRate.toNat) (h₁ : h ≤ 1) :
    ∃ k < rates.length, ∃ t, thresholdOf round mRate h rates = some t ∧ t.re = (k + 1 : ℕ) ∧
      (sorted rates)[k]? = some t.th ∧ round (m.toNat * h) ≤ t.th.toNat ∧
      ∀ x ∈ (sorted rates).take k, (x.toNat : ℚ) < round (m.toNat * h) := by
  have hsum : (rates.map UInt64.toNat).sum < 2 ^ 64 := hlt.trans mRate.toNat_lt
  -- the largest rate itself is large enough
  obtain ⟨k, hka, hsearch, hlarge, hfirst⟩ := search_sorted rates
    (p := nearLargest round h (flowRatesOf rates)) (g := id) monotone_id
    (fun k hk => nearLargest_eq hround hm hmax hk) (by
      obtain ⟨k, hk, hmk⟩ := List.getElem_of_mem ((sorted_perm rates).mem_iff.2 hm)
      have hval : round (m.toNat * h) ≤ m.toNat :=
        (hmono (mul_le_of_le_one_right (Nat.cast_nonneg _) h₁)).trans_eq (hround.rate hm)
      exact ⟨k, by rwa [length_toRat], by simpa [toRat, hmk] using hval⟩)
  have hk : k < rates.length := by rwa [length_toRat, length_sorted] at hka
  have hks : k < (sorted rates).length := by rwa [length_sorted]
  have hx : elem (flowRatesOf rates) (k + 1 : ℕ) = some (sorted rates)[k] := by
    rw [elem_flowRates, List.getElem?_eq_getElem hks]
  obtain ⟨d, hd, hdsum⟩ := back_dist hsum
  have hback : d < mRate := by
    rw [UInt64.lt_iff_toNat_lt, hdsum]
    exact hlt
  refine ⟨k, hk, ⟨(k + 1 : ℕ), round (round mRate.toNat -
    round ((toRat (sorted rates)).take k).sum) / ((toRat (sorted rates)).length - k),
    (sorted rates)[k]⟩, ?_, rfl, List.getElem?_eq_getElem hks, ?_, ?_⟩
  · simp only [thresholdOf, hd, Option.bind_eq_bind, Option.bind_some, if_pos hback, last_index,
      hsearch, shareAt_eq hsum hk, hx, Option.pure_def]
  · simpa [toRat] using hlarge
  · intro x hx
    obtain ⟨j, hj, rfl⟩ := List.getElem_of_mem hx
    have hjk : j < k := by
      rw [List.length_take] at hj
      omega
    simpa [toRat] using hfirst j (by omega) hjk

end Searches

/-! ### The max-min fair share -/

variable {mRate : UInt64} {h : ℚ} {rates : List UInt64}

/-- **`GetThBinary` computes the max-min fair share**, if the sum of the rates does not wrap and the
numbers up to it are not rounded. When the flows use up the link, the search finds an index, the
quotient there is the level at which the rates use up the link, and the flows that reach the
threshold are those that reach that level. When they do not, the search finds the first index whose
rate is at least `m_h` times the largest, as rounded. -/
theorem getThBinary_spec {round : ℚ → ℚ} (hmono : Monotone round) (hround : Keeps round rates)
    (hne : rates ≠ []) (hsum : (rates.map UInt64.toNat).sum < 2 ^ 64) :
    (mRate.toNat ≤ (rates.map UInt64.toNat).sum →
      ∃ k < rates.length, ∃ t, thresholdOf round mRate h rates = some t ∧ t.re = (k + 1 : ℕ) ∧
        t.Rb = ((mRate.toNat : ℚ) - (toRat ((sorted rates).take k)).sum) / (rates.length - k) ∧
        (rates.map fun x => min (x.toNat : ℚ) t.Rb).sum = mRate.toNat ∧
        ∀ x ∈ rates, t.th ≤ x ↔ t.Rb ≤ x.toNat) ∧
    ((rates.map UInt64.toNat).sum < mRate.toNat → h ≤ 1 →
      ∀ m ∈ rates, (∀ x ∈ rates, x ≤ m) →
        ∃ k < rates.length, ∃ t, thresholdOf round mRate h rates = some t ∧ t.re = (k + 1 : ℕ) ∧
          (sorted rates)[k]? = some t.th ∧ round (m.toNat * h) ≤ t.th.toNat ∧
          ∀ x ∈ (sorted rates).take k, (x.toNat : ℚ) < round (m.toNat * h)) := by
  refine ⟨fun hle => ?_,
    fun hlt h₁ m hm hmax => thresholdOf_of_idle hmono hround hm hmax hlt h₁⟩
  obtain ⟨k, hk, t, ht, hre, hRb, hgranted, hbig⟩ :=
    thresholdOf_of_congested (h := h) hround hsum hne hle
  refine ⟨k, hk, t, ht, hre, hRb, ?_, hbig⟩
  rw [← hgranted, FairShare.granted, toRat, List.map_map]
  rfl

/-- Three flows on a link of rate `6`, in doubles: each may use `2.5` of it. -/
theorem getThBinary_three_flows :
    ∃ k < 3, ∃ t, thresholdOf Double.rounded 6 1 [5, 1, 3] = some t ∧ t.re = (k + 1 : ℕ) ∧
      t.Rb = (6 - (toRat ((sorted [5, 1, 3]).take k)).sum) / (3 - k) ∧
      (([5, 1, 3] : List UInt64).map fun x => min (x.toNat : ℚ) t.Rb).sum = 6 ∧
      ∀ x ∈ ([5, 1, 3] : List UInt64), t.th ≤ x ↔ t.Rb ≤ x.toNat := by
  have hne : ([5, 1, 3] : List UInt64) ≠ [] := by decide
  have hle : (6 : UInt64).toNat ≤ (([5, 1, 3] : List UInt64).map UInt64.toNat).sum := by decide
  exact (getThBinary_spec (h := 1) Double.monotone_rounded (keeps_rounded (by decide)) hne
    (by decide)).1 hle

/-- Three flows whose rates, `2 ^ 62`, `2 ^ 62` and `2 ^ 63`, sum to `2 ^ 64`. The last sum of
`dist` is `0`, so that a link of rate `2 ^ 62` appears not to be used up, and the quotient is
negative. All numbers that occur are powers of two, or `0`, so that rounding changes nothing. -/
theorem getThBinary_wrapped :
    ([4611686018427387904, 4611686018427387904, 9223372036854775808] : List UInt64) ≠ [] ∧
      (∀ x ∈ ([4611686018427387904, 4611686018427387904, 9223372036854775808] : List UInt64),
        0 < x) ∧
      (4611686018427387904 : UInt64).toNat ≤ (([4611686018427387904, 4611686018427387904,
        9223372036854775808] : List UInt64).map UInt64.toNat).sum ∧
      ¬ ∃ t, thresholdOf Double.rounded 4611686018427387904 1
          [4611686018427387904, 4611686018427387904, 9223372036854775808] = some t ∧
        (([4611686018427387904, 4611686018427387904, 9223372036854775808] : List UInt64).map
          fun x => min (x.toNat : ℚ) t.Rb).sum = 4611686018427387904 := by
  have hthreshold : thresholdOf Double.rounded 4611686018427387904 1
      [4611686018427387904, 4611686018427387904, 9223372036854775808] =
      some ⟨3, -4611686018427387904, 9223372036854775808⟩ := by decide +kernel
  refine ⟨by decide, by simp, by decide, ?_⟩
  rintro ⟨t, ht, hsum⟩
  cases hthreshold.symm.trans ht
  have hle := min_le_right ((4611686018427387904 : UInt64).toNat : ℚ) (-4611686018427387904)
  have hle' := min_le_right ((9223372036854775808 : UInt64).toNat : ℚ) (-4611686018427387904)
  simp only [List.map_cons, List.map_nil, List.sum_cons, List.sum_nil] at hsum
  linarith

end MySketch

end HpccSim
