import Mathlib.Algebra.BigOperators.Group.List.Lemmas
import Mathlib.Algebra.Order.BigOperators.Group.List
import Mathlib.Algebra.Order.Field.Basic
import Mathlib.Data.List.Sort
import Mathlib.Tactic.FieldSimp
import Mathlib.Tactic.Linarith
import Mathlib.Tactic.Ring

/-!
# Max-min fair shares of a capacity

Some demands share a capacity. At the level `L` each gets what it asks for, but at most `L`; the
fair share is at the level at which the grants use up the capacity. For sorted demands that level is
found at the first demand that is not granted in full.

## Main definitions

* `FairShare.granted`: what the demands get in all at a level.

## Main results

* `FairShare.granted_mono`: the higher the level, the more is granted.
* `FairShare.granted_append`: demands that are granted in full, and demands cut off at the level.
* `FairShare.granted_level`: the capacity is used up at the level of the first demand at whose own
  level the capacity is reached.
-/

namespace FairShare

section Sorted

variable {α : Type*} [LinearOrder α] {a : List α} {k : ℕ} (hsorted : a.Pairwise (· ≤ ·))

include hsorted

theorem le_of_mem_take {x y : α} (hx : x ∈ a.take k) (hy : y ∈ a.drop k) : x ≤ y := by
  rw [← List.take_append_drop k a] at hsorted
  exact (List.pairwise_append.1 hsorted).2.2 x hx y hy

theorem getElem_le_of_mem_drop (hk : k < a.length) {x : α} (hx : x ∈ a.drop k) : a[k] ≤ x := by
  rw [List.drop_eq_getElem_cons hk] at hx
  rcases List.mem_cons.1 hx with rfl | hx
  · exact le_rfl
  · have hdrop := hsorted.sublist (List.drop_sublist k a)
    rw [List.drop_eq_getElem_cons hk] at hdrop
    exact (List.pairwise_cons.1 hdrop).1 x hx

theorem le_getElem_of_mem_take (hk : k < a.length) {x : α} (hx : x ∈ a.take k) : x ≤ a[k] :=
  le_of_mem_take hsorted hx (by rw [List.drop_eq_getElem_cons hk]; exact List.mem_cons_self)

end Sorted

variable {K : Type*} [Field K] [LinearOrder K]

/-- What the demands `a` get in all when each gets at most `L`. -/
def granted (a : List K) (L : K) : K := (a.map fun x => min x L).sum

variable {a : List K} {C L : K} {k : ℕ}

theorem granted_mono [IsStrictOrderedRing K] (a : List K) {L L' : K} (h : L ≤ L') :
    granted a L ≤ granted a L' :=
  List.sum_le_sum fun x _ => min_le_min_left x h

/-- Demands below the level are granted in full, the others are cut off. -/
theorem granted_append {as bs : List K} (has : ∀ x ∈ as, x ≤ L) (hbs : ∀ x ∈ bs, L ≤ x) :
    granted (as ++ bs) L = as.sum + bs.length * L := by
  have hfull : as.map (fun x => min x L) = as := by
    conv_rhs => rw [← List.map_id as]
    exact List.map_congr_left fun x hx => min_eq_left (has x hx)
  have hcut : bs.map (fun x => min x L) = List.replicate bs.length L := by
    rw [← List.map_const']
    exact List.map_congr_left fun x hx => min_eq_right (hbs x hx)
  rw [granted, List.map_append, List.sum_append, hfull, hcut, List.sum_replicate, nsmul_eq_mul]

/-- At the level of all demands they are granted in full. -/
theorem granted_eq_sum (h : ∀ x ∈ a, x ≤ L) : granted a L = a.sum := by
  have happ : granted (a ++ []) L = a.sum + ([] : List K).length * L := granted_append h (by simp)
  simpa using happ

section Level

variable (hsorted : a.Pairwise (· ≤ ·)) (hk : k < a.length)

include hsorted hk

/-- What is granted at the level of one of the demands. -/
theorem granted_getElem : granted a a[k] = (a.take k).sum + ((a.length : K) - k) * a[k] := by
  have h := granted_append (fun _ => le_getElem_of_mem_take hsorted hk)
    (fun _ => getElem_le_of_mem_drop hsorted hk)
  rw [List.take_append_drop, List.length_drop, Nat.cast_sub hk.le] at h
  exact h

variable [IsStrictOrderedRing K]

/-- **The level that uses up the capacity.** If the demand `k` is the first at whose level the
capacity is reached, the capacity that the demands before it leave, shared among the others, is
above the demands before it and not above the others; at that level the grants use it up. -/
theorem granted_level (hC : C ≤ granted a a[k])
    (hfirst : ∀ j (hj : j < a.length), j < k → granted a a[j] < C)
    (hL : L = (C - (a.take k).sum) / ((a.length : K) - k)) :
    (∀ x ∈ a.take k, x < L) ∧ (∀ x ∈ a.drop k, L ≤ x) ∧ granted a L = C := by
  have hpos : 0 < (a.length : K) - k := sub_pos.2 (by exact_mod_cast hk)
  have hmul : L * ((a.length : K) - k) = C - (a.take k).sum := by
    rw [hL]
    exact div_mul_cancel₀ _ hpos.ne'
  have hge : ∀ x ∈ a.drop k, L ≤ x := by
    intro x hx
    refine le_trans ?_ (getElem_le_of_mem_drop hsorted hk hx)
    rw [granted_getElem hsorted hk] at hC
    refine le_of_mul_le_mul_right ?_ hpos
    rw [hmul]
    linarith
  have hlt : ∀ x ∈ a.take k, x < L := by
    intro x hx
    obtain ⟨j, rfl⟩ : ∃ j, k = j + 1 := by
      cases k with
      | zero => simp at hx
      | succ j => exact ⟨j, rfl⟩
    have hj : j < a.length := by omega
    have hbelow := hfirst j hj (Nat.lt_succ_self j)
    rw [granted_getElem hsorted hj] at hbelow
    -- the demand before `k` is the largest that is granted in full
    have htake : a.take (j + 1) = a.take j ++ [a[j]] := by rw [List.take_append_getElem]
    have hle : x ≤ a[j] := by
      rw [htake] at hx
      rcases List.mem_append.1 hx with hx | hx
      · exact le_getElem_of_mem_take hsorted hj hx
      · exact (List.mem_singleton.1 hx).le
    refine hle.trans_lt (lt_of_mul_lt_mul_right ?_ hpos.le)
    rw [hmul, htake, List.sum_append, List.sum_singleton]
    push_cast
    linarith
  refine ⟨hlt, hge, ?_⟩
  have h := granted_append (fun x hx => (hlt x hx).le) hge
  rw [List.take_append_drop, List.length_drop, Nat.cast_sub hk.le, mul_comm, hmul] at h
  rw [h]
  ring

end Level

end FairShare
