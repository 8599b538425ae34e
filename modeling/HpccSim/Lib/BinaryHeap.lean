import Mathlib.Data.Nat.Init
import Mathlib.Order.Lattice

/-!
# Binary heaps by position

A binary heap is a tree of keys at the positions `1, …, n`, the parent of the position `i` being
`i / 2`. It is *ordered* if no key is smaller than the one at its parent; then the smallest is at
the root. An exchange of two positions repairs a tree that is ordered except at one key, and moves
that key towards the root or away from it.

## Main definitions

* `BinaryHeap.Ordered f n`: no key is smaller than the one at its parent.
* `BinaryHeap.UpReady f n i`: only the key at `i` may be smaller than the one at its parent.
* `BinaryHeap.DownReady f n i`: only the children of `i` may have keys smaller than it.

## Main results

* `BinaryHeap.Ordered.root_le`: the smallest key is at the root.
* `BinaryHeap.UpReady.exchange`, `BinaryHeap.DownReady.exchange`: an exchange moves the key that
  is out of order by one level.
* `BinaryHeap.ordered_iff_of_downReady`: the tree is ordered exactly if no child is smaller.
-/

namespace BinaryHeap

variable {κ : Type*} [LinearOrder κ] (f g : ℕ → κ) (n m i : ℕ)

/-- No key is smaller than the one at its parent. -/
def Ordered : Prop := ∀ j, 2 ≤ j → j ≤ n → f (j / 2) ≤ f j

instance : Decidable (Ordered f n) :=
  decidable_of_iff (∀ j < n + 1, 2 ≤ j → f (j / 2) ≤ f j)
    ⟨fun h j hj hn => h j (Nat.lt_succ_of_le hn) hj, fun h j hn hj => h j hj (Nat.le_of_lt_succ hn)⟩

/-- The tree is ordered, except that the key at `i` may be smaller than the one at its parent. -/
structure UpReady : Prop where
  off : ∀ j, 2 ≤ j → j ≤ n → j ≠ i → f (j / 2) ≤ f j
  across : 2 ≤ i → ∀ j, 2 ≤ j → j ≤ n → j / 2 = i → f (i / 2) ≤ f j

/-- The tree is ordered, except that the key at `i` may be larger than those at its children. -/
structure DownReady : Prop where
  off : ∀ j, 2 ≤ j → j ≤ n → j / 2 ≠ i → f (j / 2) ≤ f j
  across : 2 ≤ i → ∀ j, 2 ≤ j → j ≤ n → j / 2 = i → f (i / 2) ≤ f j

variable {f g n m i}

theorem ordered_zero : Ordered f 0 := fun j hj hn => by omega

theorem Ordered.congr (h : Ordered f n) (hm : m ≤ n) (hfg : ∀ j, 1 ≤ j → j ≤ m → g j = f j) :
    Ordered g m := by
  intro j hj hn
  rw [hfg j (by omega) hn, hfg (j / 2) (by omega) (by omega)]
  exact h j hj (by omega)

/-- **The smallest key is at the root.** -/
theorem Ordered.root_le (h : Ordered f n) {j : ℕ} (hj : 1 ≤ j) (hn : j ≤ n) : f 1 ≤ f j := by
  induction j using Nat.strongRecOn with
  | ind j ih =>
    by_cases h1 : j = 1
    · rw [h1]
    · calc f 1 ≤ f (j / 2) := ih (j / 2) (by omega) (by omega) (by omega)
        _ ≤ f j := h j (by omega) hn

/-! ### Towards the root -/

/-- A key at the end of an ordered tree may be smaller than the one at its parent. -/
theorem Ordered.upReady_succ (h : Ordered f n) : UpReady f (n + 1) (n + 1) where
  off j hj hn hne := h j hj (by omega)
  across _ j _ hn hji := by omega

theorem UpReady.ordered (h : UpReady f n i) (hi : 2 ≤ i → i ≤ n → f (i / 2) ≤ f i) :
    Ordered f n := by
  intro j hj hn
  by_cases hji : j = i
  · subst hji
    exact hi hj hn
  · exact h.off j hj hn hji

/-- **An exchange with the parent**: the smaller key goes up, and may now be smaller than the one
at its new parent only. -/
theorem UpReady.exchange (h : UpReady f n i) (h2 : 2 ≤ i) (hn : i ≤ n)
    (hlt : f i < f (i / 2)) (hg : g i = f (i / 2)) (hg' : g (i / 2) = f i)
    (hfg : ∀ j, j ≠ i → j ≠ i / 2 → g j = f j) : UpReady g n (i / 2) where
  off j hj hjn hne := by
    by_cases hji : j = i
    · rw [hji, hg, hg']
      exact hlt.le
    · rw [hfg j hji hne]
      by_cases hp : j / 2 = i
      · rw [hp, hg]
        exact h.across h2 j hj hjn hp
      · by_cases hp' : j / 2 = i / 2
        · rw [hp', hg']
          exact hlt.le.trans (hp' ▸ h.off j hj hjn hji)
        · rw [hfg _ hp hp']
          exact h.off j hj hjn hji
  across hi2 j hj hjn hji := by
    have hup : f (i / 2 / 2) ≤ f (i / 2) := h.off (i / 2) hi2 (by omega) (by omega)
    rw [hfg (i / 2 / 2) (by omega) (by omega)]
    by_cases hjeq : j = i
    · rw [hjeq, hg]
      exact hup
    · rw [hfg j hjeq (by omega)]
      exact hup.trans (hji ▸ h.off j hj hjn hjeq)

/-! ### Away from the root -/

/-- **When the tree is ordered**: exactly if the key at `i` is larger than none at its children. -/
theorem ordered_iff_of_downReady (h : DownReady f n i) :
    Ordered f n ↔ ∀ j, 2 ≤ j → j ≤ n → j / 2 = i → f i ≤ f j := by
  constructor
  · intro hord j hj hn hji
    exact hji ▸ hord j hj hn
  · intro hchild j hj hn
    by_cases hji : j / 2 = i
    · rw [hji]
      exact hchild j hj hn hji
    · exact h.off j hj hn hji

/-- **An exchange with the smaller child**: the larger key goes down, and may now be larger than
those at its new children only. -/
theorem DownReady.exchange {c : ℕ} (h : DownReady f n i) (hc : c / 2 = i) (h2 : 2 ≤ c)
    (hn : c ≤ n) (hle : f c ≤ f i) (hmin : ∀ j, 2 ≤ j → j ≤ n → j / 2 = i → f c ≤ f j)
    (hg : g i = f c) (hg' : g c = f i) (hfg : ∀ j, j ≠ i → j ≠ c → g j = f j) :
    DownReady g n c where
  off j hj hjn hne := by
    by_cases hjc : j = c
    · rw [hjc, hc, hg, hg']
      exact hle
    · by_cases hp : j / 2 = i
      · rw [hp, hg, hfg j (by omega) hjc]
        exact hmin j hj hjn hp
      · by_cases hji : j = i
        · have hi2 : 2 ≤ i := by omega
          rw [hji, hg, hfg (i / 2) (by omega) (by omega)]
          exact h.across hi2 c h2 hn hc
        · rw [hfg j hji hjc, hfg (j / 2) hp hne]
          exact h.off j hj hjn hp
  across _ j hj hjn hjc := by
    rw [hc, hg, hfg j (by omega) (by omega)]
    calc f c = f (j / 2) := by rw [hjc]
      _ ≤ f j := h.off j hj hjn (by omega)

/-- **A key replaced in an ordered tree**: if the new one is not smaller than the one at the
parent, only the children may be out of order. -/
theorem Ordered.downReady (h : Ordered f n) (hm : m ≤ n) (hup : 2 ≤ i → i ≤ m → f (i / 2) ≤ g i)
    (hfg : ∀ j, j ≤ m → j ≠ i → g j = f j) : DownReady g m i where
  off j hj hjm hne := by
    rw [hfg (j / 2) (by omega) hne]
    by_cases hji : j = i
    · rw [hji]
      exact hup (by omega) (by omega)
    · rw [hfg j hjm hji]
      exact h j hj (by omega)
  across h2 j hj hjm hji := by
    rw [hfg (i / 2) (by omega) (by omega), hfg j hjm (by omega)]
    calc f (i / 2) ≤ f i := h i h2 (by omega)
      _ = f (j / 2) := by rw [hji]
      _ ≤ f j := h j hj (by omega)

end BinaryHeap
