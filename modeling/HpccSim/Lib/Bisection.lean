import Mathlib.Data.Int.Order.Basic

/-!
# Binary search for the first index that satisfies a predicate

The loop keeps an interval `[l, r]` of indices that are not decided yet and the last index found to
satisfy the predicate. The predicate may fail to evaluate (`none`), as when it reads an array out of
range; then so does the search.

## Main definitions

* `Bisection.search`: the loop.

## Main results

* `Bisection.search_eq_some`: if the predicate evaluates on `[l, r]` and once it holds it holds from
  there on, the search finds the first index that satisfies it, or none if there is none.
* `Bisection.search_from_one`: the same for the indices from `1`, if some index satisfies it.
-/

namespace Bisection

/-- The loop `while (l <= r)` with `mid = (l + r) >> 1`: where `p mid` holds, remember `mid` in `re`
and go on to the left, else go on to the right. -/
def search (p : ℤ → Option Bool) (l r re : ℤ) : Option ℤ :=
  if l ≤ r then
    let mid := (l + r) / 2
    match p mid with
    | none => none
    | some true => search p l (mid - 1) mid
    | some false => search p (mid + 1) r re
  else
    some re
termination_by (r + 1 - l).toNat

variable {p : ℤ → Option Bool} {q : ℤ → Bool} {l r : ℤ} (re : ℤ)

/-- **What the search finds** for a predicate that stays true: the first index of `[l, r]` that
satisfies it, and `re` if there is none. -/
theorem search_eq_some (hp : ∀ i, l ≤ i → i ≤ r → p i = some (q i))
    (hmono : ∀ i j, l ≤ i → i ≤ j → j ≤ r → q i = true → q j = true) :
    ∃ k, search p l r re = some k ∧
      (k = re ∧ (∀ i, l ≤ i → i ≤ r → q i = false) ∨
        l ≤ k ∧ k ≤ r ∧ q k = true ∧ ∀ i, l ≤ i → i < k → q i = false) := by
  fun_induction search p l r re with
  | case1 l r re hle mid hnone =>
    rw [hp mid (by omega) (by omega)] at hnone
    cases hnone
  | case2 l r re hle mid htrue ih =>
    have hq : q mid = true := by
      rw [hp mid (by omega) (by omega)] at htrue
      exact Option.some.inj htrue
    obtain ⟨k, hk, hspec⟩ := ih (fun i hl hr => hp i hl (by omega))
      fun i j hl hij hr => hmono i j hl hij (by omega)
    refine ⟨k, hk, .inr ?_⟩
    rcases hspec with ⟨rfl, hnone⟩ | ⟨hl, hr, hqk, hfirst⟩
    · exact ⟨by omega, by omega, hq, fun i hl hi => hnone i hl (by omega)⟩
    · exact ⟨hl, by omega, hqk, hfirst⟩
  | case3 l r re hle mid hfalse ih =>
    have hq : q mid = false := by
      rw [hp mid (by omega) (by omega)] at hfalse
      exact Option.some.inj hfalse
    -- what is to the left of `mid` cannot satisfy the predicate, or `mid` would
    have hleft : ∀ i, l ≤ i → i ≤ mid → q i = false := fun i hl hi => by
      by_contra hne
      have := hmono i mid hl hi (by omega) (by simpa using hne)
      simp [hq] at this
    obtain ⟨k, hk, hspec⟩ := ih (fun i hl hr => hp i (by omega) hr)
      fun i j hl hij hr => hmono i j (by omega) hij hr
    refine ⟨k, hk, ?_⟩
    rcases hspec with ⟨rfl, hnone⟩ | ⟨hl, hr, hqk, hfirst⟩
    · refine .inl ⟨rfl, fun i hl hr => ?_⟩
      rcases le_or_gt i mid with hi | hi
      · exact hleft i hl hi
      · exact hnone i (by omega) hr
    · refine .inr ⟨by omega, hr, hqk, fun i hl hi => ?_⟩
      rcases le_or_gt i mid with him | him
      · exact hleft i hl him
      · exact hfirst i (by omega) hi
  | case4 l r re hle =>
    exact ⟨re, rfl, .inl ⟨rfl, fun i hl hr => absurd (le_trans hl hr) hle⟩⟩

/-- A search of the indices `1` to `n`, counted from `0` as `k + 1`, whose last index satisfies the
predicate. -/
theorem search_from_one {n : ℕ} {b : ℕ → Bool}
    (hp : ∀ k < n, p (k + 1 : ℕ) = some (b k))
    (hmono : ∀ j k, j ≤ k → k < n → b j = true → b k = true) (hlast : ∃ k < n, b k = true) :
    ∃ k < n, search p 1 n re = some ((k + 1 : ℕ) : ℤ) ∧ b k = true ∧ ∀ j < k, b j = false := by
  let q : ℤ → Bool := fun i => b (i.toNat - 1)
  have hq : ∀ k : ℕ, q (k + 1 : ℕ) = b k := fun k => by simp [q]
  have hcast : ∀ i : ℤ, 1 ≤ i → i ≤ n → ∃ k < n, i = (k + 1 : ℕ) := fun i h1 hn =>
    ⟨i.toNat - 1, by omega, by omega⟩
  have hspec := search_eq_some (p := p) (q := q) (l := 1) (r := n) re
    (fun i h1 hn => by
      obtain ⟨k, hk, rfl⟩ := hcast i h1 hn
      rw [hp k hk, hq])
    (fun i j h1 hij hn hqi => by
      obtain ⟨k, hk, rfl⟩ := hcast j (by omega) hn
      obtain ⟨m, -, rfl⟩ := hcast i h1 (by omega)
      rw [hq] at hqi ⊢
      exact hmono m k (by omega) hk hqi)
  obtain ⟨i, hi, ⟨-, hnone⟩ | ⟨h1, hn, hqi, hfirst⟩⟩ := hspec
  · obtain ⟨k, hk, hb⟩ := hlast
    have := hnone (k + 1 : ℕ) (by omega) (by omega)
    rw [hq, hb] at this
    cases this
  · obtain ⟨k, hk, rfl⟩ := hcast i h1 hn
    refine ⟨k, hk, hi, by rw [← hq]; exact hqi, fun j hj => ?_⟩
    rw [← hq]
    exact hfirst _ (by omega) (by omega)

end Bisection
