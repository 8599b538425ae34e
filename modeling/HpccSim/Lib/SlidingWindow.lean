import Mathlib.Algebra.BigOperators.Group.Finset.Basic
import Mathlib.Algebra.BigOperators.Group.Finset.Piecewise
import Mathlib.Algebra.Ring.Nat
import Mathlib.Data.Nat.ModEq

/-!
# A sliding window of the last `n` time slots

Time is cut into numbered windows, and items arrive in the window that is current. Of interest are
the items of the current window and the `n - 1` before it, the live ones. A structure that keeps a
sum for each of `n` slots, window `k` in slot `k % n`, can forget a whole window at once: when the
next window begins, the slot it will use is the one whose items have just expired.

## Main definitions

* `Timeline`: the items that arrived, each with its window.
* `Timeline.push`, `Timeline.advance`: an item arrives; the next window begins.
* `Timeline.live`, `Timeline.slot`: the live items, all of them and those of one slot.
* `Timeline.last`: the last window in which an item satisfying a predicate arrived.
* `Timeline.map`: the same timeline with less, or other, data about each item.

## Main results

* `Timeline.slot_push`, `Timeline.slot_advance`: what the two operations do to a slot.
* `Timeline.sum_slot`: the slots share out the live items.
* `Timeline.sum_live_advance`: what the live items lose when the next window begins.
* `Timeline.exists_live_iff`: some live item satisfies a predicate exactly if the last one does.
-/

/-- The items that arrived, newest first, each with the number of its window, and the number of the
current window. -/
structure Timeline (α : Type*) where
  window : ℕ
  log : List (ℕ × α)
  le_window : ∀ e ∈ log, e.1 ≤ window
  sorted : log.Pairwise fun e e' => e'.1 ≤ e.1

namespace Timeline

variable {α β : Type*} (τ : Timeline α) (n : ℕ)

/-- Nothing has arrived. -/
def empty : Timeline α where
  window := 0
  log := []
  le_window := by simp
  sorted := .nil

/-- An item arrives. -/
def push (a : α) : Timeline α where
  window := τ.window
  log := (τ.window, a) :: τ.log
  le_window := by simpa using fun k b h => τ.le_window (k, b) h
  sorted := List.pairwise_cons.2 ⟨τ.le_window, τ.sorted⟩

/-- The next window begins. -/
def advance : Timeline α where
  window := τ.window + 1
  log := τ.log
  le_window e he := (τ.le_window e he).trans (Nat.le_succ _)
  sorted := τ.sorted

/-- The items of the last `n` windows. -/
def live : List (ℕ × α) := τ.log.filter fun e => τ.window < e.1 + n

/-- The live items whose window uses the slot `j`. -/
def slot (j : ℕ) : List α := ((τ.live n).filter fun e => e.1 % n = j).map Prod.snd

/-- The last window in which an item satisfying `p` arrived. -/
def last (p : α → Bool) : Option ℕ := (τ.log.find? fun e => p e.2).map Prod.fst

/-- The image of each item. -/
def map (g : α → β) : Timeline β where
  window := τ.window
  log := τ.log.map (Prod.map id g)
  le_window e he := by
    obtain ⟨e', he', rfl⟩ := List.mem_map.1 he
    exact τ.le_window e' he'
  sorted := List.pairwise_map.2 τ.sorted

variable {τ n} {j : ℕ} {p : α → Bool}

@[simp] theorem window_empty : (empty : Timeline α).window = 0 := rfl
@[simp] theorem window_push (a : α) : (τ.push a).window = τ.window := rfl
@[simp] theorem window_advance : τ.advance.window = τ.window + 1 := rfl
@[simp] theorem live_empty : (empty : Timeline α).live n = [] := rfl
@[simp] theorem slot_empty : (empty : Timeline α).slot n j = [] := rfl

theorem live_push (hn : 0 < n) (a : α) : (τ.push a).live n = (τ.window, a) :: τ.live n := by
  have hlive : decide (τ.window < τ.window + n) = true := by simpa using hn
  rw [live, push, List.filter_cons, if_pos hlive]
  rfl

theorem mem_slot {a : α} : a ∈ τ.slot n j ↔ ∃ k, (k, a) ∈ τ.live n ∧ k % n = j := by
  simp [slot]

/-! ### Images -/

section Map

variable (g : α → β)

@[simp] theorem window_map : (τ.map g).window = τ.window := rfl
@[simp] theorem map_empty : (empty : Timeline α).map g = empty := rfl
@[simp] theorem map_push (a : α) : (τ.push a).map g = (τ.map g).push (g a) := rfl
@[simp] theorem map_advance : τ.advance.map g = (τ.map g).advance := rfl

theorem live_map : (τ.map g).live n = (τ.live n).map (Prod.map id g) := by
  show (τ.log.map (Prod.map id g)).filter _ = _
  rw [List.filter_map]
  rfl

/-- Slots are taken before or after the image. -/
theorem slot_map : (τ.map g).slot n j = (τ.slot n j).map g := by
  rw [slot, slot, live_map, List.filter_map, List.map_map, List.map_map]
  rfl

end Map

/-! ### Slots -/

/-- An item that arrives goes to the slot of the current window. -/
theorem slot_push (hn : 0 < n) (a : α) (j : ℕ) :
    (τ.push a).slot n j = if j = τ.window % n then a :: τ.slot n j else τ.slot n j := by
  rw [slot, live_push hn, List.filter_cons]
  by_cases hj : τ.window % n = j
  · simp [hj, slot]
  · simp [hj, Ne.symm hj, slot]

/-- A window that is live stays so unless it has the slot of the next one. -/
theorem lt_add_iff_of_lt {q k : ℕ} (hk : k ≤ q) :
    q + 1 < k + n ↔ k % n ≠ (q + 1) % n ∧ q < k + n := by
  constructor
  · intro hlt
    refine ⟨fun heq => ?_, by omega⟩
    -- two windows of one slot that are less than `n` apart are the same
    have hdvd : n ∣ q + 1 - k := (Nat.modEq_iff_dvd' (by omega)).1 heq
    have := Nat.le_of_dvd (by omega) hdvd
    omega
  · rintro ⟨hne, hlt⟩
    by_contra hge
    refine hne ?_
    have heq : q + 1 = k + n := by omega
    rw [heq, Nat.add_mod_right]

/-- What expires when the next window begins is what the slot of that window holds. -/
theorem live_advance :
    τ.advance.live n = (τ.live n).filter fun e => e.1 % n ≠ (τ.window + 1) % n := by
  rw [live, live, List.filter_filter]
  refine List.filter_congr fun e he => ?_
  have hiff := lt_add_iff_of_lt (n := n) (τ.le_window e he)
  rw [← Bool.decide_and]
  exact decide_eq_decide.2 hiff

/-- The slot of the window that begins is empty; the other slots stay. -/
theorem slot_advance (j : ℕ) :
    τ.advance.slot n j = if j = (τ.window + 1) % n then [] else τ.slot n j := by
  rw [slot, live_advance, List.filter_filter]
  split_ifs with hj
  · simp only [List.map_eq_nil_iff, List.filter_eq_nil_iff]
    intro e _ h
    simp [hj] at h
  · rw [slot]
    congr 1
    refine List.filter_congr fun e _ => ?_
    rw [Bool.eq_iff_iff]
    simp only [Bool.and_eq_true, decide_eq_true_eq, decide_not, Bool.not_eq_true',
      decide_eq_false_iff_not]
    exact ⟨fun h => h.1, fun h => ⟨h, fun heq => hj (h.symm.trans heq)⟩⟩

/-- **The slots share out the live items.** -/
theorem sum_slot {M : Type*} [AddCommMonoid M] (hn : 0 < n) (f : α → M) :
    ∑ j ∈ Finset.range n, ((τ.slot n j).map f).sum = ((τ.live n).map fun e => f e.2).sum := by
  simp only [slot]
  induction τ.live n with
  | nil => simp
  | cons e es ih =>
    have hsplit : ∀ j, (((e :: es).filter fun e => e.1 % n = j).map Prod.snd |>.map f).sum =
        (if j = e.1 % n then f e.2 else 0) +
          ((es.filter fun e => e.1 % n = j).map Prod.snd |>.map f).sum := by
      intro j
      rw [List.filter_cons]
      by_cases hj : e.1 % n = j
      · simp [hj]
      · simp [hj, Ne.symm hj]
    have hmem : e.1 % n ∈ Finset.range n := Finset.mem_range.2 (Nat.mod_lt _ hn)
    rw [Finset.sum_congr rfl fun j _ => hsplit j, Finset.sum_add_distrib, ih,
      Finset.sum_ite_eq' _ _ fun _ => f e.2, if_pos hmem, List.map_cons, List.sum_cons]

/-- What the live items lose when the next window begins is what its slot held. -/
theorem sum_live_advance {M : Type*} [AddCommMonoid M] (f : α → M) :
    ((τ.advance.live n).map fun e => f e.2).sum +
      ((τ.slot n ((τ.window + 1) % n)).map f).sum = ((τ.live n).map fun e => f e.2).sum := by
  rw [live_advance, slot, List.map_map]
  induction τ.live n with
  | nil => exact add_zero 0
  | cons e es ih =>
    rw [List.map_cons, List.sum_cons, ← ih]
    by_cases he : e.1 % n = (τ.window + 1) % n
    · simp [he, add_left_comm]
    · simp [he, add_assoc]

/-! ### The last item of a kind -/

@[simp] theorem last_empty : (empty : Timeline α).last p = none := rfl

theorem last_push (a : α) (p : α → Bool) :
    (τ.push a).last p = if p a then some τ.window else τ.last p := by
  simp only [last, push, List.find?_cons]
  split <;> simp_all

@[simp] theorem last_advance (p : α → Bool) : τ.advance.last p = τ.last p := rfl

theorem last_le {k : ℕ} (h : τ.last p = some k) : k ≤ τ.window := by
  obtain ⟨e, he, rfl⟩ := Option.map_eq_some_iff.1 h
  exact τ.le_window e (List.mem_of_find?_eq_some he)

/-- **A kind is live exactly if its last item is.** -/
theorem exists_live_iff :
    (∃ e ∈ τ.live n, p e.2 = true) ↔ ∃ k, τ.last p = some k ∧ τ.window < k + n := by
  constructor
  · rintro ⟨e, he, hp⟩
    obtain ⟨hlog, hlive⟩ := List.mem_filter.1 he
    obtain ⟨e', he'⟩ := Option.isSome_iff_exists.1
      (List.find?_isSome (p := fun e => p e.2) |>.2 ⟨e, hlog, hp⟩)
    refine ⟨e'.1, by rw [last, he']; rfl, ?_⟩
    -- the one found is the newest
    have hle : e.1 ≤ e'.1 := by
      obtain ⟨-, l₁, l₂, hsplit, hnot⟩ := List.find?_eq_some_iff_append.1 he'
      have hsorted := τ.sorted
      rw [hsplit] at hlog hsorted
      rcases List.mem_append.1 hlog with hin | hin
      · exact absurd hp (by simpa using hnot e hin)
      · rcases List.mem_cons.1 hin with rfl | hin
        · exact le_rfl
        · exact (List.pairwise_cons.1 (List.pairwise_append.1 hsorted).2.1).1 e hin
    simp only [decide_eq_true_eq] at hlive
    omega
  · rintro ⟨k, hk, hlive⟩
    obtain ⟨e, he, rfl⟩ := Option.map_eq_some_iff.1 hk
    exact ⟨e, List.mem_filter.2 ⟨List.mem_of_find?_eq_some he, by simpa using hlive⟩,
      List.find?_some (p := fun e : ℕ × α => p e.2) he⟩

end Timeline
