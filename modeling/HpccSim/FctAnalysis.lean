import Mathlib.Data.List.Forall2
import Mathlib.Data.List.TakeWhile
import Mathlib.Data.Rat.Defs
import Mathlib.Order.Basic
import Mathlib.Tactic.NormNum
import Mathlib.Tactic.Ring

/-!
# Bins of flow completion times

The analysis of the flow completion times sorts the flows by their sizes, cuts them into bins, and
prints for each bin a size and three quantiles of the slowdowns. The bins are cut either at equal
percentages of the number of flows, or at sizes given in a file. In both cases a bin may turn out
empty, and with equal percentages the last one may reach beyond the last flow. Neither is checked
before the flows of a bin are accessed.

## Main definitions

* `FctAnalysis.bins`: the bins of a list of flows, with all indices that are used.
* `FctAnalysis.Safe`: every index is inside its bin, no flow is in two bins, and all that is printed
  was read from the flows.
* `FctAnalysis.Fine`: when that is so, in terms of the flows and of the options.

## Main results

* `FctAnalysis.safe_iff`: the indices are safe exactly if the options fit the flows.
-/

namespace HpccSim

namespace FctAnalysis

/-- A flow: its size and its slowdown. -/
abbrev Tuple := ℕ × ℚ

/-- `std::sort` by either component, which may leave equal elements in any order. -/
structure StdSort where
  bySize : List Tuple → List Tuple
  bySlowdown : List Tuple → List Tuple
  bySize_perm : ∀ t, (bySize t).Perm t
  bySize_sorted : ∀ t, (bySize t).Pairwise fun a b => a.1 ≤ b.1
  bySlowdown_perm : ∀ t, (bySlowdown t).Perm t
  bySlowdown_sorted : ∀ t, (bySlowdown t).Pairwise fun a b => a.2 ≤ b.2

/-- A read of the flows: the index, and the column of sizes or slowdowns, in the order that the
flows have then. -/
structure Read where
  index : ℕ
  column : List ℚ

/-- What is read; `none` beyond the last flow. -/
def Read.value (e : Read) : Option ℚ := e.column[e.index]?

/-- A bin `[l, r)`, its row in the result, the size that is appended to the row first, if the bin is
that of a step, and the reads of flows whose values are appended then. -/
structure Bin where
  l : ℕ
  r : ℕ
  row : ℕ
  size : Option ℕ
  reads : List Read

namespace Bin

variable (b : Bin)

/-- The indices of flows that are used for the bin. -/
def indices : List ℕ := b.reads.map Read.index

/-- What is appended to the row of the bin. -/
def pushed : List (Option ℚ) :=
  (b.size.toList.map fun size => some (size : ℚ)) ++ b.reads.map Read.value

end Bin

/-- The subtraction of `uint64_t`. -/
def sub (a b : ℕ) : ℕ := (a + 2 ^ 64 - b) % 2 ^ 64

/-- The indices of the quantiles of a bin. -/
def quantiles (l r : ℕ) : List ℕ :=
  [(l + sub r l * 50 / 100) % 2 ^ 64, (l + sub r l * 95 / 100) % 2 ^ 64,
    (l + sub r l * 99 / 100) % 2 ^ 64]

/-- The flows after those of `[l, r)` were sorted. What `std::sort` does with a range that ends
before it starts is undefined. -/
def sortRange (f : List Tuple → List Tuple) (t : List Tuple) (l r : ℕ) : List Tuple :=
  if l ≤ r then t.take l ++ (f ((t.drop l).take (r - l)) ++ t.drop r) else t

/-- The values of `p` in the loops over the percentages. A step of 100 or more ends them at once, so
that `p` does not overflow. -/
def percents (step : ℕ) : ℕ → ℕ → List ℕ
  | 0, _ => []
  | fuel + 1, p => if p < 100 then p :: percents step fuel (p + step) else []

variable (S : StdSort)

/-- The bin from the percentage `p` on, and the flows as they are sorted for it. -/
def percentBin (step : ℕ) (t : List Tuple) (p : ℕ) : Bin × List Tuple :=
  let l := p * t.length % 2 ^ 64 / 100
  let r := (p + step) % 2 ^ 32 * t.length % 2 ^ 64 / 100
  let t' := sortRange S.bySlowdown t l r
  ({ l := l
     r := r
     row := p / step
     size := none
     reads := ⟨sub r 1, t.map fun a => (a.1 : ℚ)⟩ ::
      (quantiles l r).map fun x => ⟨x, t'.map Prod.snd⟩ }, t')

/-- The bins of equal percentages. -/
def percentBins (step : ℕ) : List Tuple → List ℕ → List Bin
  | _, [] => []
  | t, p :: ps => (percentBin S step t p).1 :: percentBins step (percentBin S step t p).2 ps

/-- The loop that looks for the end of a bin: the first flow larger than `limit`. -/
def advance (limit : ℕ) : List Tuple → ℕ → ℕ
  | [], r => r
  | a :: t, r => if a.1 ≤ limit then advance limit t (r + 1) else r

/-- The bin from `l` up to the size of a step, and the flows as they are sorted for it. -/
def stepBin (t : List Tuple) (l i : ℕ) (p : ℕ × ℚ) : Bin × List Tuple :=
  let r := advance p.1 (t.drop l) l
  let t' := sortRange S.bySlowdown t l r
  ({ l := l
     r := r
     row := i
     size := some p.1
     reads := (quantiles l r).map fun x => ⟨x, t'.map Prod.snd⟩ }, t')

/-- The bins between given sizes. -/
def stepBins : List Tuple → ℕ → ℕ → List (ℕ × ℚ) → List Bin
  | _, _, _, [] => []
  | t, l, i, p :: steps =>
    (stepBin S t l i p).1 :: stepBins (stepBin S t l i p).2 (stepBin S t l i p).1.r (i + 1) steps

/-- The number of rows of the result. -/
def rows (steps : List (ℕ × ℚ)) (step : ℕ) : ℕ :=
  if steps.length > 0 then steps.length else (percents step 100 0).length

/-- The bins of the flows of one file. -/
def bins (steps : List (ℕ × ℚ)) (step : ℕ) (tuples : List Tuple) : List Bin :=
  let t := S.bySize tuples
  if steps.length > 0 then stepBins S t 0 0 steps else percentBins S step t (percents step 100 0)

/-- Every index into the flows is inside its bin and exists, every row exists, and no flow is in
two bins. -/
def Inside (rows n : ℕ) (bins : List Bin) : Prop :=
  (∀ b ∈ bins, (∀ x ∈ b.indices, b.l ≤ x ∧ x < b.r ∧ x < n) ∧ b.row < rows) ∧
  bins.Pairwise fun b b' => ∀ x, b.l ≤ x → x < b.r → ¬(b'.l ≤ x ∧ x < b'.r)

/-- The indices are inside, and all that is appended to a row is given or read from the flows. -/
def Safe (rows n : ℕ) (bins : List Bin) : Prop :=
  Inside rows n bins ∧ ∀ b ∈ bins, none ∉ b.pushed

variable {S}

/-! ### When the options fit -/

/-- With `q` bins of equal percentages: the first bin is not empty, and the last one ends at the
last flow. All products are those of machine words. -/
def PercentsFit (step n : ℕ) : Prop :=
  100 ≤ step * n % 2 ^ 64 ∧ (99 + step) / step * (step * n % 2 ^ 64) < 2 ^ 64 ∧
    (99 + step) / step * (step * n % 2 ^ 64) < 100 * (n + 1)

/-- For each step some flow has a size up to that of the step, and larger than those of the steps
before. -/
def StepsFit (steps : List (ℕ × ℚ)) (tuples : List Tuple) : Prop :=
  ∀ i p, steps[i]? = some p → ∃ a ∈ tuples, a.1 ≤ p.1 ∧ ∀ p' ∈ steps.take i, p'.1 < a.1

/-- The options fit the flows. -/
def Fine (steps : List (ℕ × ℚ)) (step : ℕ) (tuples : List Tuple) : Prop :=
  if steps.length > 0 then StepsFit steps tuples else PercentsFit step tuples.length

/-! ### One bin -/

section Bin

variable {l r n x : ℕ} {t : List Tuple}

theorem sub_eq (h : l ≤ r) (hr : r < 2 ^ 64) : sub r l = r - l := by
  rw [sub, Nat.add_comm, Nat.add_sub_assoc h, Nat.add_mod_left,
    Nat.mod_eq_of_lt (lt_of_le_of_lt (Nat.sub_le r l) hr)]

/-- The indices of the quantiles of a nonempty bin are inside the bin. -/
theorem mem_quantiles (h : l < r) (hr : r < 2 ^ 64) (hx : x ∈ quantiles l r) : l ≤ x ∧ x < r := by
  have hin (q : ℕ) (hq : q < 100) : l ≤ (l + (r - l) * q / 100) % 2 ^ 64 ∧
      (l + (r - l) * q / 100) % 2 ^ 64 < r := by
    have hlt : (r - l) * q / 100 < r - l := by
      refine Nat.div_lt_of_lt_mul ?_
      rw [Nat.mul_comm]
      exact Nat.mul_lt_mul_of_pos_right hq (Nat.sub_pos_of_lt h)
    have hsum : l + (r - l) * q / 100 < r := by omega
    rw [Nat.mod_eq_of_lt (hsum.trans hr)]
    exact ⟨Nat.le_add_right _ _, hsum⟩
  rw [quantiles, sub_eq h.le hr] at hx
  simp only [List.mem_cons, List.not_mem_nil, or_false] at hx
  rcases hx with rfl | rfl | rfl
  · exact hin 50 (by norm_num)
  · exact hin 95 (by norm_num)
  · exact hin 99 (by norm_num)

/-- The first of the quantiles is inside the bin only if the bin is not empty. -/
theorem lt_of_quantiles (h : ∀ x ∈ quantiles l r, l ≤ x ∧ x < r) : l < r := by
  obtain ⟨hle, hlt⟩ := h _ List.mem_cons_self
  exact hle.trans_lt hlt

/-- Sorting a part of the flows keeps their number. -/
theorem length_sortRange : (sortRange S.bySlowdown t l r).length = t.length := by
  rw [sortRange]
  split_ifs with hl
  · rw [List.length_append, List.length_append, (S.bySlowdown_perm _).length_eq]
    simp only [List.length_take, List.length_drop]
    omega
  · rfl

/-- Sorting the flows up to `r` leaves those from `r` on in place. -/
theorem drop_sortRange (hl : l ≤ r) (hr : r ≤ t.length) :
    (sortRange S.bySlowdown t l r).drop r = t.drop r := by
  have hlen : (t.take l ++ S.bySlowdown ((t.drop l).take (r - l))).length = r := by
    rw [List.length_append, (S.bySlowdown_perm _).length_eq]
    simp only [List.length_take, List.length_drop]
    omega
  rw [sortRange, if_pos hl, ← List.append_assoc]
  exact List.drop_left' hlen

end Bin

/-! ### Equal percentages -/

section Percents

variable {step n fuel p i q : ℕ} {t : List Tuple}

/-- The percentages are the multiples of the step below 100, from `p` on. -/
theorem percents_eq (hstep : 1 ≤ step) (hfuel : 100 ≤ p + fuel) :
    percents step fuel p = (List.range ((99 + step - p) / step)).map fun i => p + i * step := by
  induction fuel generalizing p with
  | zero =>
    have hq : (99 + step - p) / step = 0 := Nat.div_eq_of_lt (by omega)
    rw [hq]
    rfl
  | succ fuel ih =>
    rw [percents]
    split_ifs with hp
    · have hq : (99 + step - p) / step = (99 + step - (p + step)) / step + 1 := by
        rw [← Nat.add_div_right _ hstep]
        congr 1
        omega
      rw [ih (by omega), hq, List.range_succ_eq_map, List.map_cons, List.map_map, Nat.zero_mul,
        Nat.add_zero]
      congr 1
      refine List.map_congr_left fun i _ => ?_
      simp only [Function.comp_apply, Nat.succ_mul]
      omega
    · have hq : (99 + step - p) / step = 0 := Nat.div_eq_of_lt (by omega)
      rw [hq]
      rfl

/-- Where the bin number `i` starts. -/
def cut (step n i : ℕ) : ℕ := i * (step * n) % 2 ^ 64 / 100

/-- What the bin number `i` of equal percentages is. -/
def IsPercentBin (step n i : ℕ) (b : Bin) : Prop :=
  b.l = cut step n i ∧ b.r = cut step n (i + 1) ∧ b.row = i ∧
    b.indices = sub b.r 1 :: quantiles b.l b.r

theorem isPercentBin (hstep : 1 ≤ step) (hstep' : step < 2 ^ 31) (hi : i * step < 100) :
    IsPercentBin step t.length i (percentBin S step t (i * step)).1 := by
  have hword : (i * step + step) % 2 ^ 32 = i * step + step := Nat.mod_eq_of_lt (by omega)
  refine ⟨?_, ?_, Nat.mul_div_cancel i hstep, rfl⟩
  · simp only [percentBin, cut, Nat.mul_assoc]
  · simp only [percentBin, cut, hword]
    congr 2
    ring

/-- The bins of equal percentages, one after the other. -/
theorem forall₂_percentBins (hstep : 1 ≤ step) (hstep' : step < 2 ^ 31) {is : List ℕ}
    (his : ∀ i ∈ is, i * step < 100) :
    List.Forall₂ (IsPercentBin step t.length) is (percentBins S step t (is.map (· * step))) := by
  induction is generalizing t with
  | nil => exact .nil
  | cons i is ih =>
    have hlen : (percentBin S step t (i * step)).2.length = t.length := length_sortRange
    refine .cons (isPercentBin hstep hstep' (his i List.mem_cons_self)) ?_
    rw [← hlen]
    exact ih fun j hj => his j (List.mem_cons_of_mem _ hj)

/-- The percentages are the multiples of the step, one for each bin. -/
theorem percents_zero (hstep : 1 ≤ step) :
    percents step 100 0 = (List.range ((99 + step) / step)).map (· * step) := by
  rw [percents_eq hstep (by norm_num)]
  simp only [Nat.zero_add, Nat.sub_zero]

theorem mul_lt_hundred (hi : i < (99 + step) / step) : i * step < 100 := by
  rcases Nat.eq_zero_or_pos step with rfl | hstep
  · exact absurd hi (by simp)
  · have hle := (Nat.le_div_iff_mul_le hstep).1 hi
    rw [Nat.succ_mul] at hle
    omega

variable (S t) in
/-- The bins of equal percentages, each with its number. -/
theorem percentBins_spec (hstep : 1 ≤ step) (hstep' : step < 2 ^ 31) :
    (percentBins S step t (percents step 100 0)).length = (99 + step) / step ∧
      ∀ i b, (percentBins S step t (percents step 100 0))[i]? = some b →
        IsPercentBin step t.length i b := by
  have hlt : ∀ i ∈ List.range ((99 + step) / step), i * step < 100 := fun i hi =>
    mul_lt_hundred (List.mem_range.1 hi)
  have hall := forall₂_percentBins (S := S) (t := t) hstep hstep' hlt
  rw [← percents_zero hstep] at hall
  refine ⟨by rw [← hall.length_eq, List.length_range], fun i b hb => ?_⟩
  obtain ⟨hi, rfl⟩ := List.getElem?_eq_some_iff.1 hb
  have hget := hall.get (i := i) (hall.length_eq ▸ hi) hi
  rwa [List.get_eq_getElem, List.getElem_range, List.get_eq_getElem] at hget

/-- The cuts grow if no bin is empty. -/
theorem cut_mono (h : ∀ i < q, cut step n i < cut step n (i + 1)) {j : ℕ} (hij : i ≤ j)
    (hj : j ≤ q) : cut step n i ≤ cut step n j := by
  induction j, hij using Nat.le_induction with
  | base => exact le_rfl
  | succ j _ ih => exact (ih (by omega)).trans (h j (by omega)).le

/-- The indices of a bin are inside the bin exactly if it has a flow. -/
theorem IsPercentBin.indices_iff {b : Bin} (h : IsPercentBin step n i b) :
    (∀ x ∈ b.indices, b.l ≤ x ∧ x < b.r ∧ x < n) ↔
      cut step n i < cut step n (i + 1) ∧ cut step n (i + 1) ≤ n := by
  obtain ⟨hl, hr, -, hix⟩ := h
  have hword : b.r < 2 ^ 64 := by
    rw [hr]
    exact (Nat.div_le_self _ _).trans_lt (Nat.mod_lt _ (by norm_num))
  rw [← hl, ← hr, hix, List.forall_mem_cons]
  constructor
  · rintro ⟨hlast, hall⟩
    have hlt : b.l < b.r := lt_of_quantiles fun x hx => ⟨(hall x hx).1, (hall x hx).2.1⟩
    rw [sub_eq (by omega) hword] at hlast
    exact ⟨hlt, by omega⟩
  · rintro ⟨hlt, hle⟩
    rw [sub_eq (by omega) hword]
    refine ⟨by omega, fun x hx => ?_⟩
    obtain ⟨hlx, hxr⟩ := mem_quantiles hlt hword hx
    exact ⟨hlx, hxr, hxr.trans_le hle⟩

/-- The indices are inside if each bin of equal percentages starts before its end, and ends at most
after the last flow, and only then. -/
theorem inside_percentBins_iff (hstep : 1 ≤ step) (hstep' : step < 2 ^ 31) :
    Inside (percents step 100 0).length t.length (percentBins S step t (percents step 100 0)) ↔
      ∀ i < (99 + step) / step, cut step t.length i < cut step t.length (i + 1) ∧
        cut step t.length (i + 1) ≤ t.length := by
  obtain ⟨hlen, hbin⟩ := percentBins_spec S t hstep hstep'
  constructor
  · rintro ⟨hidx, -⟩ i hi
    have hb := List.getElem?_eq_getElem (hlen.symm ▸ hi)
    exact (hbin i _ hb).indices_iff.1 (hidx _ (List.mem_of_getElem? hb)).1
  · intro hcut
    refine ⟨fun b hb => ?_, List.pairwise_iff_getElem.2 fun i j hi hj hij x hx hx' hbad => ?_⟩
    · obtain ⟨i, hi⟩ := List.mem_iff_getElem?.1 hb
      have hi' : i < (99 + step) / step := hlen ▸ (List.getElem?_eq_some_iff.1 hi).1
      refine ⟨(hbin i b hi).indices_iff.2 (hcut i hi'), ?_⟩
      obtain ⟨-, -, hrow, -⟩ := hbin i b hi
      rw [hrow, percents_zero hstep, List.length_map, List.length_range]
      exact hi'
    · obtain ⟨-, hr, -⟩ := hbin i _ (List.getElem?_eq_getElem hi)
      obtain ⟨hl, -⟩ := hbin j _ (List.getElem?_eq_getElem hj)
      have hle := cut_mono (fun i hi => (hcut i hi).1) (Nat.succ_le_of_lt hij) (hlen ▸ hj).le
      rw [← hr, ← hl] at hle
      omega

/-- The cuts are in order and inside the list exactly if the first bin has a flow and the last
one ends with the last flow. -/
theorem cuts_iff (hq : 0 < q) :
    (∀ i < q, cut step n i < cut step n (i + 1) ∧ cut step n (i + 1) ≤ n) ↔
      100 ≤ step * n % 2 ^ 64 ∧ q * (step * n % 2 ^ 64) < 2 ^ 64 ∧
        q * (step * n % 2 ^ 64) < 100 * (n + 1) := by
  have hcut (i : ℕ) : cut step n i = i * (step * n % 2 ^ 64) % 2 ^ 64 / 100 := by
    rw [cut, Nat.mul_mod_mod]
  simp only [hcut]
  generalize hM : 2 ^ 64 = M
  have hM0 : 0 < M := hM ▸ (by norm_num)
  have ha : step * n % M < M := Nat.mod_lt _ hM0
  generalize step * n % M = a at ha
  constructor
  · intro h
    -- As long as the cuts grow, the products do not wrap.
    have hfit (i : ℕ) (hi : i ≤ q) : i * a < M := by
      induction i with
      | zero => rwa [Nat.zero_mul]
      | succ i ih =>
        have hlt := (h i hi).1
        have hi' := ih (by omega)
        rw [Nat.mod_eq_of_lt hi'] at hlt
        by_contra! hwrap
        rw [Nat.succ_mul] at hlt hwrap
        have hmod : (i * a + a) % M = i * a + a - M := by
          rw [Nat.mod_eq_sub_mod hwrap]
          exact Nat.mod_eq_of_lt (by omega)
        rw [hmod] at hlt
        have hle := Nat.div_le_div_right (c := 100) (by omega : i * a + a - M ≤ i * a)
        omega
    obtain ⟨hfirst, -⟩ := h 0 hq
    rw [Nat.zero_mul, Nat.zero_mod, Nat.zero_add, Nat.one_mul, Nat.mod_eq_of_lt ha] at hfirst
    obtain ⟨-, hlast⟩ := h (q - 1) (by omega)
    rw [Nat.sub_add_cancel hq, Nat.mod_eq_of_lt (hfit q le_rfl)] at hlast
    exact ⟨by omega, hfit q le_rfl, by omega⟩
  · rintro ⟨hfirst, hword, hlast⟩ i hi
    have hle : (i + 1) * a ≤ q * a := Nat.mul_le_mul_right a hi
    rw [Nat.succ_mul] at hle ⊢
    rw [Nat.mod_eq_of_lt (by omega : i * a + a < M), Nat.mod_eq_of_lt (by omega : i * a < M)]
    omega

end Percents

/-! ### Given sizes -/

section Steps

variable {limit l i n : ℕ} {p : ℕ × ℚ} {steps : List (ℕ × ℚ)} {t u : List Tuple}

/-- The flows are in the order of their sizes. -/
def BySize (t : List Tuple) : Prop := t.Pairwise fun a b => a.1 ≤ b.1

theorem advance_eq (limit : ℕ) (t : List Tuple) (r : ℕ) :
    advance limit t r = r + (t.takeWhile fun a => a.1 ≤ limit).length := by
  induction t generalizing r with
  | nil => rfl
  | cons a t ih =>
    rw [advance, List.takeWhile_cons]
    by_cases ha : a.1 ≤ limit
    · rw [if_pos ha, if_pos (decide_eq_true ha), ih, List.length_cons]
      omega
    · rw [if_neg ha, if_neg (by simpa using ha)]
      rfl

theorem drop_takeWhile (f : Tuple → Bool) (t : List Tuple) :
    t.drop (t.takeWhile f).length = t.dropWhile f :=
  calc t.drop (t.takeWhile f).length
      = (t.takeWhile f ++ t.dropWhile f).drop (t.takeWhile f).length := by
        rw [List.takeWhile_append_dropWhile]
    _ = t.dropWhile f := List.drop_left

/-- What is left behind a size are the larger flows. -/
theorem mem_dropWhile (h : BySize t) {a : Tuple} :
    (a ∈ t.dropWhile fun a => a.1 ≤ limit) ↔ a ∈ t ∧ limit < a.1 := by
  induction t with
  | nil => simp
  | cons b t ih =>
    obtain ⟨hb, ht⟩ := List.pairwise_cons.1 h
    rw [List.dropWhile_cons]
    by_cases hle : b.1 ≤ limit
    · rw [if_pos (decide_eq_true hle), ih ht, List.mem_cons]
      constructor
      · exact fun h => ⟨.inr h.1, h.2⟩
      · rintro ⟨rfl | ha, hlt⟩
        · exact absurd hle hlt.not_ge
        · exact ⟨ha, hlt⟩
    · rw [if_neg (by simpa using hle)]
      refine ⟨fun ha => ⟨ha, ?_⟩, fun ha => ha.1⟩
      rcases List.mem_cons.1 ha with rfl | ha
      · exact not_le.1 hle
      · exact (not_le.1 hle).trans_le (hb a ha)

/-- Some flow is taken up to a size exactly if some flow has no larger size. -/
theorem takeWhile_ne_nil (h : BySize t) :
    0 < (t.takeWhile fun a => a.1 ≤ limit).length ↔ ∃ a ∈ t, a.1 ≤ limit := by
  cases t with
  | nil => simp
  | cons b t =>
    obtain ⟨hb, -⟩ := List.pairwise_cons.1 h
    rw [List.takeWhile_cons]
    by_cases hle : b.1 ≤ limit
    · rw [if_pos (decide_eq_true hle)]
      exact iff_of_true (Nat.succ_pos _) ⟨b, List.mem_cons_self, hle⟩
    · rw [if_neg (by simpa using hle)]
      refine iff_of_false (Nat.lt_irrefl 0) ?_
      rintro ⟨a, ha, hla⟩
      rcases List.mem_cons.1 ha with rfl | ha
      · exact hle hla
      · exact hle ((hb a ha).trans hla)

/-- The steps fit if the first one does, and the others fit the larger flows. -/
theorem stepsFit_cons (h : BySize t) : StepsFit (p :: steps) t ↔
    (∃ a ∈ t, a.1 ≤ p.1) ∧ StepsFit steps (t.dropWhile fun a => a.1 ≤ p.1) := by
  constructor
  · intro hfit
    refine ⟨?_, fun i p' hp' => ?_⟩
    · obtain ⟨a, ha, hle, -⟩ := hfit 0 p rfl
      exact ⟨a, ha, hle⟩
    · obtain ⟨a, ha, hle, hlt⟩ := hfit (i + 1) p' hp'
      rw [List.take_succ_cons] at hlt
      exact ⟨a, (mem_dropWhile h).2 ⟨ha, hlt p List.mem_cons_self⟩, hle,
        fun p'' hp'' => hlt p'' (List.mem_cons_of_mem _ hp'')⟩
  · rintro ⟨⟨a, ha, hle⟩, hfit⟩ i p' hp'
    cases i with
    | zero =>
      cases hp'
      exact ⟨a, ha, hle, fun _ h => absurd h List.not_mem_nil⟩
    | succ i =>
      obtain ⟨b, hb, hble, hlt⟩ := hfit i p' hp'
      obtain ⟨hbt, hbp⟩ := (mem_dropWhile h).1 hb
      refine ⟨b, hbt, hble, fun p'' hp'' => ?_⟩
      rw [List.take_succ_cons] at hp''
      rcases List.mem_cons.1 hp'' with rfl | hp''
      · exact hbp
      · exact hlt p'' hp''

/-- What every bin between given sizes is like. -/
structure IsStepBin (l n i m : ℕ) (b : Bin) : Prop where
  start : l ≤ b.l
  le : b.l ≤ b.r
  last : b.r ≤ n
  row : i ≤ b.row ∧ b.row < i + m
  indices : b.indices = quantiles b.l b.r

/-- **The bins between given sizes.** They follow each other inside the list of flows, and they are
nonempty exactly if the steps fit. -/
theorem stepBins_spec (hl : l ≤ t.length) (ht : BySize (t.drop l)) :
    (∀ b ∈ stepBins S t l i steps, IsStepBin l t.length i steps.length b) ∧
    (stepBins S t l i steps).Pairwise (fun b b' => b.r ≤ b'.l) ∧
    ((∀ b ∈ stepBins S t l i steps, b.l < b.r) ↔ StepsFit steps (t.drop l)) := by
  induction steps generalizing t l i with
  | nil =>
    refine ⟨fun b hb => absurd hb List.not_mem_nil, .nil, ?_⟩
    exact iff_of_true (fun b hb => absurd hb List.not_mem_nil) fun i p hp => nomatch hp
  | cons p steps ih =>
    set b := (stepBin S t l i p).1 with hb
    set t' := (stepBin S t l i p).2 with ht'
    have hstart : b.l = l := rfl
    have hend : b.r = l + ((t.drop l).takeWhile fun a => a.1 ≤ p.1).length := advance_eq _ _ _
    have hsplit := congrArg List.length
      (List.takeWhile_append_dropWhile (p := fun a : Tuple => a.1 ≤ p.1) (l := t.drop l))
    rw [List.length_append, List.length_drop] at hsplit
    have hle : l ≤ b.r := by omega
    have hlast : b.r ≤ t.length := by omega
    have hlen : t'.length = t.length := length_sortRange
    have hdrop : t'.drop b.r = (t.drop l).dropWhile fun a => a.1 ≤ p.1 := by
      have hrest : t'.drop b.r = t.drop b.r := drop_sortRange hle hlast
      rw [hrest, hend, ← List.drop_drop, drop_takeWhile]
    have hsorted : BySize (t'.drop b.r) := by
      rw [hdrop]
      exact ht.sublist (List.dropWhile_sublist _)
    obtain ⟨hall, hpair, hfit⟩ := ih (i := i + 1) (hlen ▸ hlast) hsorted
    rw [hlen] at hall
    rw [stepBins, ← hb, ← ht']
    refine ⟨?_, ?_, ?_⟩
    · refine List.forall_mem_cons.2 ⟨⟨le_rfl, hle, hlast, ⟨le_rfl, ?_⟩, rfl⟩, fun b' hb' => ?_⟩
      · rw [List.length_cons]
        exact Nat.lt_add_of_pos_right (Nat.succ_pos _)
      · obtain ⟨h₁, h₂, h₃, h₄, h₅⟩ := hall b' hb'
        rw [List.length_cons]
        exact ⟨hle.trans h₁, h₂, h₃, by omega, h₅⟩
    · exact List.pairwise_cons.2 ⟨fun b' hb' => (hall b' hb').start, hpair⟩
    · rw [List.forall_mem_cons, hfit, hdrop, stepsFit_cons ht, ← takeWhile_ne_nil ht, hend, hstart]
      simp

/-- The indices are inside if no bin is empty, that is, if the steps fit, and only then. -/
theorem inside_stepBins_iff (ht : BySize t) (hn : t.length < 2 ^ 64) :
    Inside steps.length t.length (stepBins S t 0 0 steps) ↔ StepsFit steps t := by
  obtain ⟨hall, hpair, hfit⟩ :=
    stepBins_spec (S := S) (i := 0) (l := 0) (Nat.zero_le t.length) ht
  rw [List.drop_zero] at hfit
  rw [← hfit]
  constructor
  · rintro ⟨hidx, -⟩ b hb
    have hix := (hidx b hb).1
    rw [(hall b hb).indices] at hix
    exact lt_of_quantiles fun x hx => ⟨(hix x hx).1, (hix x hx).2.1⟩
  · refine fun hne => ⟨fun b hb => ⟨fun x hx => ?_, ?_⟩, hpair.imp ?_⟩
    · have hword := (hall b hb).last.trans_lt hn
      rw [(hall b hb).indices] at hx
      obtain ⟨hle, hlt⟩ := mem_quantiles (hne b hb) hword hx
      exact ⟨hle, hlt, hlt.trans_le (hall b hb).last⟩
    · simpa using (hall b hb).row.2
    · intro b b' hle x _ hx hx'
      omega

end Steps

/-! ### What is printed -/

section Pushed

variable {step l i : ℕ} {steps : List (ℕ × ℚ)} {t : List Tuple} {b : Bin}

/-- Reads at existing indices give a value. -/
theorem none_notMem_pushed {n : ℕ} (hcolumn : ∀ e ∈ b.reads, e.column.length = n)
    (hindex : ∀ x ∈ b.indices, x < n) : none ∉ b.pushed := by
  intro hmem
  rcases List.mem_append.1 hmem with hsize | hread
  · obtain ⟨size, -, hnone⟩ := List.mem_map.1 hsize
    cases hnone
  · obtain ⟨e, he, hnone⟩ := List.mem_map.1 hread
    have hlt : e.index < e.column.length := by
      rw [hcolumn e he]
      exact hindex _ (List.mem_map_of_mem he)
    rw [Read.value, List.getElem?_eq_getElem hlt] at hnone
    cases hnone

/-- The columns have an entry for each flow. -/
theorem length_column_percentBins {ps : List ℕ} (hb : b ∈ percentBins S step t ps) :
    ∀ e ∈ b.reads, e.column.length = t.length := by
  induction ps generalizing t with
  | nil => exact absurd hb List.not_mem_nil
  | cons q ps ih =>
    have hlen : (percentBin S step t q).2.length = t.length := length_sortRange
    rcases List.mem_cons.1 hb with rfl | hb
    · intro e he
      rcases List.mem_cons.1 he with rfl | he
      · exact List.length_map _
      · obtain ⟨x, -, rfl⟩ := List.mem_map.1 he
        exact (List.length_map _).trans length_sortRange
    · exact hlen ▸ ih hb

theorem length_column_stepBins (hb : b ∈ stepBins S t l i steps) :
    ∀ e ∈ b.reads, e.column.length = t.length := by
  induction steps generalizing t l i with
  | nil => exact absurd hb List.not_mem_nil
  | cons p steps ih =>
    have hlen : (stepBin S t l i p).2.length = t.length := length_sortRange
    rcases List.mem_cons.1 hb with rfl | hb
    · intro e he
      obtain ⟨x, -, rfl⟩ := List.mem_map.1 he
      exact (List.length_map _).trans length_sortRange
    · exact hlen ▸ ih hb

/-- **With the indices inside, everything that is printed was read from the flows.** -/
theorem safe_iff_inside {rows step : ℕ} {steps : List (ℕ × ℚ)} {tuples : List Tuple} :
    Safe rows tuples.length (bins S steps step tuples) ↔
      Inside rows tuples.length (bins S steps step tuples) := by
  refine and_iff_left_of_imp fun h b hb => none_notMem_pushed (n := tuples.length) ?_
    fun x hx => ((h.1 b hb).1 x hx).2.2
  rw [← (S.bySize_perm tuples).length_eq]
  rw [bins] at hb
  split_ifs at hb
  · exact length_column_stepBins hb
  · exact length_column_percentBins hb

end Pushed

/-! ### Both kinds of bins -/

theorem stepsFit_perm {steps : List (ℕ × ℚ)} {t t' : List Tuple} (h : t.Perm t') :
    StepsFit steps t ↔ StepsFit steps t' := by
  simp only [StepsFit, h.mem_iff]

/-- **Safe indices.** Every index that the analysis uses is inside its bin, no flow is in two bins,
and all that is printed was read, exactly if the options fit the flows: with bins of equal
percentages the first one has a flow and the last one ends with the last flow, with given sizes
there is a flow for each of them. -/
theorem safe_iff (S : StdSort) (steps : List (ℕ × ℚ)) (step : ℕ) (tuples : List Tuple)
    (hstep : 1 ≤ step) (hstep' : step < 2 ^ 31) (hn : tuples.length < 2 ^ 64) :
    Safe (rows steps step) tuples.length (bins S steps step tuples) ↔ Fine steps step tuples := by
  have hperm := S.bySize_perm tuples
  have hlen : (S.bySize tuples).length = tuples.length := hperm.length_eq
  rw [← hlen] at hn
  rw [safe_iff_inside, rows, bins, Fine, ← hlen]
  by_cases hsteps : steps.length > 0
  · rw [if_pos hsteps, if_pos hsteps, if_pos hsteps, inside_stepBins_iff (S.bySize_sorted _) hn]
    exact stepsFit_perm hperm
  · have hq : 0 < (99 + step) / step := Nat.div_pos (by omega) hstep
    rw [if_neg hsteps, if_neg hsteps, if_neg hsteps, inside_percentBins_iff hstep hstep']
    exact cuts_iff hq

theorem pairwise_mergeSort {α : Type*} [LinearOrder α] (f : Tuple → α) (t : List Tuple) :
    (t.mergeSort fun a b => f a ≤ f b).Pairwise fun a b => f a ≤ f b := by
  have hsorted : (t.mergeSort fun a b => f a ≤ f b).Pairwise fun a b => decide (f a ≤ f b) :=
    List.pairwise_mergeSort
      (fun a b c hab hbc => by
        simpa using (of_decide_eq_true hab).trans (of_decide_eq_true hbc))
      (fun a b => by simpa using le_total (f a) (f b)) t
  exact hsorted.imp of_decide_eq_true

/-- A stable sort. -/
def stable : StdSort where
  bySize t := t.mergeSort fun a b => a.1 ≤ b.1
  bySlowdown t := t.mergeSort fun a b => a.2 ≤ b.2
  bySize_perm t := t.mergeSort_perm _
  bySize_sorted t := pairwise_mergeSort Prod.fst t
  bySlowdown_perm t := t.mergeSort_perm _
  bySlowdown_sorted t := pairwise_mergeSort Prod.snd t

theorem safe_two : Safe (rows [] 50) 2 (bins stable [] 50 [(1000, 1), (2000, 3)]) :=
  (safe_iff stable [] 50 [(1000, 1), (2000, 3)] (by norm_num) (by norm_num) (by norm_num)).2
    (by simp [Fine, PercentsFit])

/-- One flow, in bins of five percent: the first bin is empty, and the flow before its end is
read. -/
theorem not_safe_one : ¬Safe (rows [] 5) 1 (bins stable [] 5 [(1000, 1)]) := by
  have hone : stable.bySize [(1000, 1)] = [(1000, 1)] := List.mergeSort_singleton _
  rintro ⟨⟨hidx, -⟩, -⟩
  have hall := (hidx (percentBin stable 5 (stable.bySize [(1000, 1)]) 0).1 List.mem_cons_self).1
  have hend : (percentBin stable 5 (stable.bySize [(1000, 1)]) 0).1.r = 0 := by
    rw [hone]
    rfl
  have hlast := (hall _ List.mem_cons_self).2.1
  rw [hend] at hlast
  exact Nat.not_lt_zero _ hlast

end FctAnalysis

end HpccSim
