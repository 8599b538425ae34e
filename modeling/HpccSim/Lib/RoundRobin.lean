import Mathlib.Data.List.Nodup
import Mathlib.Data.List.Rotate

/-!
# Round robin

Items take turns in a circular order, a list whose head has the next turn. Serving an item passes
over those in front of it and leaves the order starting behind it. One that waits for its turn
without being passed over sees each other item served at most once: what has been served stands
behind it from then on, also if items leave the order, and new ones enter it.

## Main definitions

* `RoundRobin.Passed L c served`: the items `served` have been served while `c` waits.

## Main results

* `RoundRobin.Passed.serve`, `RoundRobin.Passed.insert`: the two ways the order changes.
* `RoundRobin.rotate_succ_of_split`: the order behind the item served.
-/

namespace RoundRobin

open List

variable {α : Type*} {L L' A B l l' served : List α} {c d e x : α}

/-- The items `served`, each once, have been served while `c` waits: in the order `L` none of them
has its turn before `c`. -/
structure Passed (L : List α) (c : α) (served : List α) : Prop where
  nodup : served.Nodup
  behind : ∀ d ∈ served, ¬ [d, c] <+ L

theorem pair_sublist_of_split (hc : c ∈ B) : [x, c] <+ A ++ x :: B :=
  (Sublist.cons_cons x (singleton_sublist.2 hc)).trans (sublist_append_right A _)

/-- Nothing has been served. -/
theorem Passed.nil (L : List α) (c : α) : Passed L c [] := ⟨nodup_nil, by simp⟩

/-- Items that have not been served may leave, and so may the others. -/
theorem Passed.sublist (h : Passed L c served) (hsub : L' <+ L) : Passed L' c served :=
  ⟨h.nodup, fun d hd hdc => h.behind d hd (hdc.trans hsub)⟩

/-- **A turn**: an item in front of `c` is served, for the first time. -/
theorem Passed.serve (h : Passed L c served) (hL : L.Nodup) (hsplit : L = A ++ x :: B)
    (hc : c ∈ B) : Passed (B ++ (A ++ [x])) c (x :: served) := by
  subst hsplit
  have hfresh : x ∉ served := fun hx => h.behind x hx (pair_sublist_of_split hc)
  obtain ⟨hA, hxB, hdisj⟩ := nodup_append'.1 hL
  obtain ⟨hx, -⟩ := nodup_cons.1 hxB
  have hcA : c ∉ A := fun hcA => hdisj hcA (mem_cons_of_mem x hc)
  have hcx : c ≠ x := fun heq => hx (heq ▸ hc)
  -- what precedes `c` in the new order precedes it in the part behind `x`
  have hpart {d : α} (hd : [d, c] <+ B ++ (A ++ [x])) : [d, c] <+ B := by
    obtain ⟨l₁, l₂, hl, h₁, h₂⟩ := sublist_append_iff.1 hd
    rcases l₂.eq_nil_or_concat with rfl | ⟨l₃, y, rfl⟩
    · rw [append_nil] at hl
      rwa [hl]
    · have hy : y = c := by
        have hlast := congrArg getLast? hl
        simpa using hlast.symm
      have hmem : c ∈ A ++ [x] := h₂.subset (by simp [hy])
      simp [hcA, hcx] at hmem
  refine ⟨nodup_cons.2 ⟨hfresh, h.nodup⟩, fun d hd hdc => ?_⟩
  rcases mem_cons.1 hd with rfl | hd
  · exact hx ((hpart hdc).subset mem_cons_self)
  · exact h.behind d hd ((hpart hdc).trans
      ((sublist_cons_self x B).trans (sublist_append_right A _)))

/-- A new item enters the order, wherever it may be. -/
theorem Passed.insert (h : Passed (A ++ B) c served) (hc : e ≠ c) (he : e ∉ served) :
    Passed (A ++ e :: B) c served := by
  refine ⟨h.nodup, fun d hd hdc => h.behind d hd ?_⟩
  have hde : d ≠ e := fun heq => he (heq ▸ hd)
  obtain ⟨l₁, l₂, hl, h₁, h₂⟩ := sublist_append_iff.1 hdc
  have hnot : e ∉ l₂ := by
    intro hmem
    have hmem' : e ∈ [d, c] := hl ▸ mem_append_right l₁ hmem
    rcases mem_pair.1 hmem' with heq | heq
    · exact hde heq.symm
    · exact hc heq
  rw [hl]
  refine h₁.append ?_
  rcases sublist_cons_iff.1 h₂ with h₂ | ⟨r, rfl, -⟩
  · exact h₂
  · exact absurd mem_cons_self hnot

/-! ### The order as a rotation -/

theorem rotate_range (n m : ℕ) :
    (range n).rotate m = (range n).map fun k => (k + m) % n := by
  refine ext_getElem (by simp) fun k hk hk' => ?_
  simp [getElem_rotate]

theorem rotate_eq_map_getD (l : List α) (m : ℕ) (d : α) :
    l.rotate m = ((range l.length).map fun k => (k + m) % l.length).map fun i => l.getD i d := by
  refine ext_getElem (by simp) fun k hk hk' => ?_
  have hpos : 0 < l.length := by
    rw [length_rotate] at hk
    omega
  simp [getElem_rotate, Nat.mod_lt _ hpos]

/-- **The order behind the item served.** -/
theorem rotate_succ_of_split (hl : l.Nodup) {n i : ℕ} (hsplit : l.rotate n = A ++ x :: B)
    (hi : l[i]? = some x) : l.rotate (i + 1) = B ++ (A ++ [x]) := by
  obtain ⟨hilt, hix⟩ := List.getElem?_eq_some_iff.1 hi
  have hlen : A.length < (l.rotate n).length := by
    rw [hsplit, length_append, length_cons]
    omega
  have hget : (l.rotate n)[A.length]? = some x := by
    rw [hsplit, getElem?_append_right (le_refl _), Nat.sub_self, getElem?_cons_zero]
  rw [getElem?_eq_getElem hlen, Option.some.injEq, getElem_rotate] at hget
  have hidx : (A.length + n) % l.length = i :=
    (hl.getElem_inj_iff).1 (hget.trans hix.symm)
  calc l.rotate (i + 1) = l.rotate (n + (A.length + 1)) := by
        rw [← rotate_mod l (n + (A.length + 1)), ← rotate_mod l (i + 1), ← hidx]
        congr 1
        rw [Nat.mod_add_mod]
        congr 1
        omega
    _ = ((A ++ [x]) ++ B).rotate (A ++ [x]).length := by
        rw [← rotate_rotate, hsplit, length_append, length_singleton, append_assoc,
          singleton_append]
    _ = B ++ (A ++ [x]) := rotate_append_length_eq _ _

/-- The parts of a list around an item shrink with the list. -/
private theorem split_sublist (hsub : l' <+ l) (hl : l.Nodup) {i j : ℕ} (hi : l[i]? = some x)
    (hj : l'[j]? = some x) : l'.take j <+ l.take i ∧ l'.drop (j + 1) <+ l.drop (i + 1) := by
  induction hsub generalizing i j with
  | slnil => simp at hi
  | cons a hsub ih =>
    obtain ⟨ha, hl⟩ := nodup_cons.1 hl
    cases i with
    | zero =>
      simp only [getElem?_cons_zero, Option.some.injEq] at hi
      exact absurd (hsub.subset (hi ▸ mem_of_getElem? hj)) ha
    | succ i =>
      obtain ⟨htake, hdrop⟩ := ih hl hi hj
      exact ⟨htake.cons a, hdrop⟩
  | cons_cons a hsub ih =>
    obtain ⟨ha, hl⟩ := nodup_cons.1 hl
    cases i with
    | zero =>
      simp only [getElem?_cons_zero, Option.some.injEq] at hi
      subst hi
      cases j with
      | zero => exact ⟨nil_sublist _, hsub⟩
      | succ j => exact absurd (hsub.subset (mem_of_getElem? hj)) ha
    | succ i =>
      cases j with
      | zero =>
        simp only [getElem?_cons_zero, Option.some.injEq] at hj
        exact absurd (hj ▸ mem_of_getElem? hi) ha
      | succ j =>
        obtain ⟨htake, hdrop⟩ := ih hl hi hj
        exact ⟨htake.cons_cons a, hdrop⟩

/-- Items that leave do not change the order of the others behind the item served. -/
theorem rotate_succ_sublist (hl : l.Nodup) (hsub : l' <+ l) {i j : ℕ} (hi : l[i]? = some x)
    (hj : l'[j]? = some x) : l'.rotate (j + 1) <+ l.rotate (i + 1) := by
  obtain ⟨htake, hdrop⟩ := split_sublist hsub hl hi hj
  have hilt := (List.getElem?_eq_some_iff.1 hi).1
  have hjlt := (List.getElem?_eq_some_iff.1 hj).1
  rw [rotate_eq_drop_append_take (Nat.succ_le_of_lt hilt),
    rotate_eq_drop_append_take (Nat.succ_le_of_lt hjlt), take_add_one, take_add_one, hi, hj]
  exact hdrop.append (htake.append (Sublist.refl _))

end RoundRobin
