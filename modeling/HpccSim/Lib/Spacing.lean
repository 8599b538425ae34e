import Mathlib.Algebra.Order.Ring.Nat

/-!
# Events spaced by a distance

A meter is read again and again, and every reading that is at least `d` counts as an event. Meant is
one event for each distance `d` that the meter has gone through, so at most `e / d` events up to a
reading `e`. That is the case exactly if, from any event on, the readings go up by `d` at a time.

## Main definitions

* `Spacing.Within d m es`: after `m` earlier events, there are never more events in the readings
  `es` than meant.
* `Spacing.Spaced d es`: from any event on, reading number `n` is at least `n * d`.

## Main results

* `Spacing.within_zero_iff`: the two are the same.
-/

namespace Spacing

variable {d m e : ℕ} {es : List ℕ}

/-- After `m` events, every reading in `es` is at least `d` times the number of events up to it. -/
def Within (d : ℕ) : ℕ → List ℕ → Prop
  | _, [] => True
  | m, e :: es =>
    (if d ≤ e then m + 1 else m) * d ≤ e ∧ Within d (if d ≤ e then m + 1 else m) es

/-- From any event on, reading number `n` is at least `n * d`. -/
def Spaced (d : ℕ) (es : List ℕ) : Prop :=
  ∀ i j a b, i ≤ j → es[i]? = some a → es[j]? = some b → d ≤ a → (j - i + 1) * d ≤ b

/-- After an event every reading has to be one. -/
theorem within_iff_of_pos (hm : 0 < m) :
    Within d m es ↔ ∀ j b, es[j]? = some b → (m + j + 1) * d ≤ b := by
  induction es generalizing m with
  | nil => simp [Within]
  | cons e es ih =>
    have hone : d ≤ (m + 1) * d := Nat.le_mul_of_pos_left d m.succ_pos
    have hle : d ≤ m * d := Nat.le_mul_of_pos_left d hm
    have hnext : (if d ≤ e then m + 1 else m) * d ≤ e ↔ (m + 1) * d ≤ e := by
      split_ifs with h
      · rfl
      · omega
    constructor
    · rintro ⟨hhead, htail⟩ j b hj
      have he := hnext.1 hhead
      rw [if_pos (hone.trans he), ih m.succ_pos] at htail
      cases j with
      | zero =>
        cases hj
        exact he
      | succ j =>
        have := htail j b hj
        rwa [show m + (j + 1) + 1 = m + 1 + j + 1 by omega]
    · intro h
      have he : (m + 1) * d ≤ e := h 0 e rfl
      refine ⟨hnext.2 he, ?_⟩
      rw [if_pos (hone.trans he), ih m.succ_pos]
      intro j b hj
      have := h (j + 1) b hj
      rwa [show m + 1 + j + 1 = m + (j + 1) + 1 by omega]

/-- If the first reading is an event, only the distances from it matter. -/
theorem spaced_cons_of_le (h : d ≤ e) :
    Spaced d (e :: es) ↔ ∀ j b, es[j]? = some b → (j + 2) * d ≤ b := by
  constructor
  · intro hs j b hj
    exact hs 0 (j + 1) e b (Nat.zero_le _) rfl hj h
  · intro hs i j a b hij hi hj ha
    cases j with
    | zero =>
      cases Nat.le_zero.1 hij
      cases hi
      cases hj
      simpa using ha
    | succ j =>
      refine le_trans (Nat.mul_le_mul_right d ?_) (hs j b hj)
      omega

/-- If it is not, it does not matter. -/
theorem spaced_cons_of_lt (h : e < d) : Spaced d (e :: es) ↔ Spaced d es := by
  constructor
  · intro hs i j a b hij hi hj ha
    have := hs (i + 1) (j + 1) a b (by omega) hi hj ha
    rwa [Nat.add_sub_add_right] at this
  · intro hs i j a b hij hi hj ha
    cases i with
    | zero =>
      cases hi
      omega
    | succ i =>
      obtain ⟨k, rfl⟩ := Nat.exists_eq_add_of_le hij
      have := hs i (i + k) a b (Nat.le_add_right _ _) hi (by rwa [Nat.add_right_comm] at hj) ha
      rwa [Nat.add_sub_cancel_left] at this ⊢

/-- **Events are as rare as meant** exactly if they are spaced. -/
theorem within_zero_iff : Within d 0 es ↔ Spaced d es := by
  induction es with
  | nil => simp [Within, Spaced]
  | cons e es ih =>
    rcases Nat.lt_or_ge e d with h | h
    · rw [spaced_cons_of_lt h, Within, if_neg (Nat.not_le.2 h), Nat.zero_mul, ih]
      exact ⟨fun hs => hs.2, fun hs => ⟨Nat.zero_le e, hs⟩⟩
    · rw [spaced_cons_of_le h, Within, if_pos h, Nat.zero_add, Nat.one_mul,
        within_iff_of_pos Nat.one_pos]
      constructor
      · rintro ⟨-, hs⟩ j b hj
        have := hs j b hj
        rwa [show 1 + j + 1 = j + 2 by omega] at this
      · intro hs
        refine ⟨h, fun j b hj => ?_⟩
        rw [show 1 + j + 1 = j + 2 by omega]
        exact hs j b hj

end Spacing
