import Mathlib.Data.Multiset.MapFold
import Mathlib.Order.Defs.LinearOrder

/-!
# Monotone priority queues

A priority queue holds entries and hands them out by their keys, the least first. The entries also
have identifiers, by which one of them is removed out of turn, and times. A queue is *monotone* if
it may rely on no entry being inserted with a time before that of the entry handed out last.

An implementation is compared with the multiset of the entries it holds: a relation `Rep r f s`
says that the state `r` stands for the entries `s`, the last of those handed out having the time
`f`. An operation that fails has no result.

## Main definitions

* `PriorityQueue`: the operations.
* `PriorityQueue.Lawful`: what an operation that does not fail does to the multiset.
* `PriorityQueue.Reliable`: no operation fails that is called as it should be.
* `PriorityQueue.Call`, `PriorityQueue.Act`, `PriorityQueue.run`: a client's calls, what they did,
  and a run of them.
* `PriorityQueue.Behaves`: the runs of the multiset itself.

## Main results

* `PriorityQueue.Lawful.behaves`: every run of a lawful queue is one of the multiset.
* `PriorityQueue.removeNext_eq`: two lawful queues that stand for the same entries, no two
  with the same identifier, hand out the same one.
* `PriorityQueue.Lawful.sum`, `PriorityQueue.Reliable.sum`: a queue that is one of two kinds.
-/

/-- The operations of a priority queue with states `ρ` and entries `ε`; `none` is a failure. -/
class PriorityQueue (ρ : Type*) (ε : outParam Type*) where
  insert : ρ → ε → Option ρ
  isEmpty : ρ → Bool
  peekNext : ρ → Option ε
  removeNext : ρ → Option (ε × ρ)
  remove : ρ → ε → Option ρ

namespace PriorityQueue

variable {ρ ρ' ε τ κ υ : Type*} [PriorityQueue ρ ε] [PriorityQueue ρ' ε] [Preorder τ]
  [LinearOrder κ] {admits : ε → Prop} {time : ε → τ} {key : ε → κ} {uid : ε → υ}

/-- No entry of `s` has the identifier of `e`. -/
def Fresh (uid : ε → υ) (s : Multiset ε) (e : ε) : Prop := ∀ x ∈ s, uid x ≠ uid e

variable (admits time key uid) in
/-- **A lawful queue**: what its operations do to the multiset of its entries, unless they fail.
An entry is inserted if the queue admits it, and removed out of turn if `CanRemove` allows it. -/
structure Lawful (Rep : ρ → τ → Multiset ε → Prop) (CanRemove : ρ → ε → Prop) : Prop where
  isEmpty_iff : ∀ {r f s}, Rep r f s → (isEmpty r = true ↔ s = 0)
  insert : ∀ {r f s e r'}, Rep r f s → admits e → f ≤ time e → Fresh uid s e →
    insert r e = some r' → Rep r' f (e ::ₘ s)
  peekNext : ∀ {r f s e}, Rep r f s → peekNext r = some e → e ∈ s ∧ ∀ x ∈ s, key e ≤ key x
  removeNext : ∀ {r f s e r'}, Rep r f s → removeNext r = some (e, r') →
    ∃ t, s = e ::ₘ t ∧ (∀ x ∈ t, key e ≤ key x) ∧ Rep r' (time e) t
  remove : ∀ {r f s e r'}, Rep r f (e ::ₘ s) → Fresh uid s e → CanRemove r e →
    remove r e = some r' → Rep r' f s

variable (admits time uid) in
/-- **A reliable queue**: an entry can be inserted unless its identifier is in use, the next one
can be handed out unless there is none, and one that is held can be removed. -/
structure Reliable (Rep : ρ → τ → Multiset ε → Prop) : Prop where
  insert : ∀ {r f s e}, Rep r f s → admits e → f ≤ time e → Fresh uid s e →
    ∃ r', insert r e = some r'
  peekNext : ∀ {r f s}, Rep r f s → s ≠ 0 → ∃ e, peekNext r = some e
  removeNext : ∀ {r f s}, Rep r f s → s ≠ 0 → ∃ p, removeNext r = some p
  remove : ∀ {r f s e}, Rep r f (e ::ₘ s) → Fresh uid s e → ∃ r', remove r e = some r'

/-! ### Runs of a client -/

/-- What a client calls. -/
inductive Call (ε : Type*) where
  | insert (e : ε)
  | removeNext
  | remove (e : ε)
  deriving DecidableEq, Repr

/-- What a call has done: the entry that was inserted, handed out or removed. -/
inductive Act (ε : Type*) where
  | inserted (e : ε)
  | taken (e : ε)
  | removed (e : ε)
  deriving DecidableEq, Repr

/-- One call. -/
def call (r : ρ) : Call ε → Option (Act ε × ρ)
  | .insert e => (insert r e).map fun r' => (.inserted e, r')
  | .removeNext => (removeNext r).map fun p => (.taken p.1, p.2)
  | .remove e => (remove r e).map fun r' => (.removed e, r')

/-- The calls one after the other: what they did, and the state after them. -/
def run : ρ → List (Call ε) → Option (List (Act ε) × ρ)
  | r, [] => some ([], r)
  | r, c :: cs => (call r c).bind fun p => (run p.2 cs).map fun q => (p.1 :: q.1, q.2)

variable (key) in
/-- The runs of the multiset: an entry is handed out only while no other has a smaller key. -/
inductive Behaves : Multiset ε → List (Act ε) → Multiset ε → Prop
  | nil (s : Multiset ε) : Behaves s [] s
  | inserted {s t : Multiset ε} {e : ε} {acts : List (Act ε)} (h : Behaves (e ::ₘ s) acts t) :
      Behaves s (.inserted e :: acts) t
  | taken {s t : Multiset ε} {e : ε} {acts : List (Act ε)} (hmin : ∀ x ∈ s, key e ≤ key x)
      (h : Behaves s acts t) : Behaves (e ::ₘ s) (.taken e :: acts) t
  | removed {s t : Multiset ε} {e : ε} {acts : List (Act ε)} (h : Behaves s acts t) :
      Behaves (e ::ₘ s) (.removed e :: acts) t

variable (admits time uid) in
/-- The client keeps to the rules: from the entries `s`, the last handed out having the time `f`,
it inserts only entries that are admitted, with a new identifier and no earlier time, and removes
only entries that are held, with an identifier of their own, and may be removed. -/
def Obeys [DecidableEq ε] (CanRemove : ρ → ε → Prop) : ρ → τ → Multiset ε → List (Call ε) → Prop
  | _, _, _, [] => True
  | r, f, s, .insert e :: cs => admits e ∧ f ≤ time e ∧ Fresh uid s e ∧
      ∀ r', insert r e = some r' → Obeys CanRemove r' f (e ::ₘ s) cs
  | r, _, s, .removeNext :: cs => ∀ p, removeNext r = some p →
      Obeys CanRemove p.2 (time p.1) (s.erase p.1) cs
  | r, f, s, .remove e :: cs => CanRemove r e ∧ e ∈ s ∧ Fresh uid (s.erase e) e ∧
      ∀ r', remove r e = some r' → Obeys CanRemove r' f (s.erase e) cs

instance [DecidableEq υ] (s : Multiset ε) (e : ε) : Decidable (Fresh uid s e) :=
  inferInstanceAs (Decidable (∀ x ∈ s, uid x ≠ uid e))

instance decidableObeys [DecidableEq ε] [DecidableEq υ] [DecidablePred admits]
    [DecidableLE τ] {CanRemove : ρ → ε → Prop} [∀ r e, Decidable (CanRemove r e)] :
    ∀ r f s cs, Decidable (Obeys admits time uid CanRemove r f s cs)
  | _, _, _, [] => isTrue trivial
  | r, f, s, .insert e :: cs =>
    have (r' : ρ) : Decidable (Obeys admits time uid CanRemove r' f (e ::ₘ s) cs) :=
      decidableObeys r' f (e ::ₘ s) cs
    decidable_of_iff (admits e ∧ f ≤ time e ∧ Fresh uid s e ∧
      ∀ r' ∈ insert r e, Obeys admits time uid CanRemove r' f (e ::ₘ s) cs) Iff.rfl
  | r, _, s, .removeNext :: cs =>
    have (p : ε × ρ) : Decidable
        (Obeys admits time uid CanRemove p.2 (time p.1) (s.erase p.1) cs) :=
      decidableObeys p.2 (time p.1) (s.erase p.1) cs
    decidable_of_iff
      (∀ p ∈ removeNext r, Obeys admits time uid CanRemove p.2 (time p.1) (s.erase p.1) cs) Iff.rfl
  | r, f, s, .remove e :: cs =>
    have (r' : ρ) : Decidable (Obeys admits time uid CanRemove r' f (s.erase e) cs) :=
      decidableObeys r' f (s.erase e) cs
    decidable_of_iff (CanRemove r e ∧ e ∈ s ∧ Fresh uid (s.erase e) e ∧
      ∀ r' ∈ remove r e, Obeys admits time uid CanRemove r' f (s.erase e) cs) Iff.rfl

theorem run_cons_eq_some {r r' : ρ} {c : Call ε} {cs : List (Call ε)} {acts : List (Act ε)} :
    run r (c :: cs) = some (acts, r') ↔
      ∃ a r₁ rest, call r c = some (a, r₁) ∧ run r₁ cs = some (rest, r') ∧ acts = a :: rest := by
  simp only [run, Option.bind_eq_some_iff, Option.map_eq_some_iff, Prod.exists, Prod.mk.injEq]
  constructor
  · rintro ⟨a, r₁, hcall, rest, r₂, hrun, rfl, rfl⟩
    exact ⟨a, r₁, rest, hcall, hrun, rfl⟩
  · rintro ⟨a, r₁, rest, hcall, hrun, rfl⟩
    exact ⟨a, r₁, hcall, rest, r', hrun, rfl, rfl⟩

namespace Lawful

variable {Rep : ρ → τ → Multiset ε → Prop} {CanRemove : ρ → ε → Prop}
  {Rep' : ρ' → τ → Multiset ε → Prop} {CanRemove' : ρ' → ε → Prop}

/-- **Every run is a run of the multiset**: what a lawful queue does to a client that keeps to the
rules, the multiset of its entries does as well. -/
theorem behaves [DecidableEq ε] (hq : Lawful admits time key uid Rep CanRemove) {r r' : ρ}
    {f : τ} {s : Multiset ε} {calls : List (Call ε)} {acts : List (Act ε)} (hs : Rep r f s)
    (hobeys : Obeys admits time uid CanRemove r f s calls) (hrun : run r calls = some (acts, r')) :
    ∃ f' t, Behaves key s acts t ∧ Rep r' f' t := by
  induction calls generalizing r f s acts with
  | nil =>
    cases hrun
    exact ⟨f, s, .nil s, hs⟩
  | cons c cs ih =>
    obtain ⟨a, r₁, rest, hcall, hrest, rfl⟩ := run_cons_eq_some.1 hrun
    cases c with
    | insert e =>
      obtain ⟨r₁, hr₁, heq⟩ := Option.map_eq_some_iff.1 hcall
      cases heq
      obtain ⟨hadm, hf, hfresh, hnext⟩ := hobeys
      obtain ⟨f', t, hbeh, ht⟩ := ih (hq.insert hs hadm hf hfresh hr₁) (hnext r₁ hr₁) hrest
      exact ⟨f', t, .inserted hbeh, ht⟩
    | removeNext =>
      obtain ⟨⟨e, r₁⟩, hr₁, heq⟩ := Option.map_eq_some_iff.1 hcall
      cases heq
      obtain ⟨s', rfl, hmin, hs'⟩ := hq.removeNext hs hr₁
      have hnext := hobeys (e, r₁) hr₁
      rw [Multiset.erase_cons_head] at hnext
      obtain ⟨f', t, hbeh, ht⟩ := ih hs' hnext hrest
      exact ⟨f', t, .taken hmin hbeh, ht⟩
    | remove e =>
      obtain ⟨r₁, hr₁, heq⟩ := Option.map_eq_some_iff.1 hcall
      cases heq
      obtain ⟨hcan, hmem, hfresh, hnext⟩ := hobeys
      obtain ⟨s', rfl⟩ := Multiset.exists_cons_of_mem hmem
      have hnext := hnext r₁ hr₁
      rw [Multiset.erase_cons_head] at hfresh hnext
      obtain ⟨f', t, hbeh, ht⟩ := ih (hq.remove hs hfresh hcan hr₁) hnext hrest
      exact ⟨f', t, .removed hbeh, ht⟩

end Lawful

/-! ### Two queues with the same entries -/

/-- Entries of a multiset without two of the same identifier are equal if their identifiers are. -/
theorem eq_of_uid_eq {s : Multiset ε} (hs : (s.map uid).Nodup) {x y : ε} (hx : x ∈ s) (hy : y ∈ s)
    (h : uid x = uid y) : x = y :=
  Multiset.inj_on_of_nodup_map hs x hx y hy h

theorem fresh_of_nodup {s : Multiset ε} {e : ε} (h : ((e ::ₘ s).map uid).Nodup) :
    Fresh uid s e := by
  rw [Multiset.map_cons, Multiset.nodup_cons] at h
  exact fun x hx heq => h.1 (Multiset.mem_map.2 ⟨x, hx, heq⟩)

/-- **The same entry is next**: two lawful queues that stand for the same entries, no two of which
have the same identifier, hand out the same one, if the key determines the identifier. -/
theorem removeNext_eq {Rep : ρ → τ → Multiset ε → Prop} {CanRemove : ρ → ε → Prop}
    {Rep' : ρ' → τ → Multiset ε → Prop} {CanRemove' : ρ' → ε → Prop}
    (hq : Lawful admits time key uid Rep CanRemove)
    (hq' : Lawful admits time key uid Rep' CanRemove')
    (hkey : ∀ x y, key x = key y → uid x = uid y) {r r₁ : ρ} {r' r₁' : ρ'} {f f' : τ}
    {s : Multiset ε} {e e' : ε} (hs : (s.map uid).Nodup) (hr : Rep r f s) (hr' : Rep' r' f' s)
    (h : removeNext r = some (e, r₁)) (h' : removeNext r' = some (e', r₁')) :
    e = e' ∧ ∃ t, s = e ::ₘ t ∧ Rep r₁ (time e) t ∧ Rep' r₁' (time e) t := by
  obtain ⟨t, rfl, hmin, ht⟩ := hq.removeNext hr h
  obtain ⟨t', heq, hmin', ht'⟩ := hq'.removeNext hr' h'
  have hmem : e' ∈ e ::ₘ t := heq ▸ Multiset.mem_cons_self e' t'
  have hmem' : e ∈ e' ::ₘ t' := heq ▸ Multiset.mem_cons_self e t
  have hle : key e ≤ key e' := by
    rcases Multiset.mem_cons.1 hmem with rfl | hm
    · exact le_rfl
    · exact hmin e' hm
  have hle' : key e' ≤ key e := by
    rcases Multiset.mem_cons.1 hmem' with rfl | hm
    · exact le_rfl
    · exact hmin' e hm
  obtain rfl := eq_of_uid_eq hs (Multiset.mem_cons_self e t) hmem
    (hkey e e' (le_antisymm hle hle'))
  obtain rfl := (Multiset.cons_inj_right e).1 heq
  exact ⟨rfl, t, rfl, ht, ht'⟩

/-! ### One of two queues -/

section Sum

/-- A queue that is one of two kinds; its operations are those of its kind. -/
instance : PriorityQueue (ρ ⊕ ρ') ε where
  insert r e := r.elim (fun q => (insert q e).map .inl) fun q => (insert q e).map .inr
  isEmpty r := r.elim isEmpty isEmpty
  peekNext r := r.elim peekNext peekNext
  removeNext r := r.elim (fun q => (removeNext q).map fun p => (p.1, .inl p.2))
    fun q => (removeNext q).map fun p => (p.1, .inr p.2)
  remove r e := r.elim (fun q => (remove q e).map .inl) fun q => (remove q e).map .inr

variable {Rep : ρ → τ → Multiset ε → Prop} {CanRemove : ρ → ε → Prop}
  {Rep' : ρ' → τ → Multiset ε → Prop} {CanRemove' : ρ' → ε → Prop}

/-- A queue of either kind that obeys the laws. -/
theorem Lawful.sum (hq : Lawful admits time key uid Rep CanRemove)
    (hq' : Lawful admits time key uid Rep' CanRemove') :
    Lawful admits time key uid (fun r : ρ ⊕ ρ' => r.elim Rep Rep')
      (fun r => r.elim CanRemove CanRemove') where
  isEmpty_iff := by
    rintro (q | q) f s h
    · exact hq.isEmpty_iff h
    · exact hq'.isEmpty_iff h
  insert := by
    rintro (q | q) f s e r' h hadm hf hfresh hr
    · obtain ⟨q', hq₁, rfl⟩ := Option.map_eq_some_iff.1 hr
      exact hq.insert h hadm hf hfresh hq₁
    · obtain ⟨q', hq₁, rfl⟩ := Option.map_eq_some_iff.1 hr
      exact hq'.insert h hadm hf hfresh hq₁
  peekNext := by
    rintro (q | q) f s e h hr
    · exact hq.peekNext h hr
    · exact hq'.peekNext h hr
  removeNext := by
    rintro (q | q) f s e r' h hr
    · obtain ⟨⟨e', q'⟩, hq₁, heq⟩ := Option.map_eq_some_iff.1 hr
      cases heq
      exact hq.removeNext h hq₁
    · obtain ⟨⟨e', q'⟩, hq₁, heq⟩ := Option.map_eq_some_iff.1 hr
      cases heq
      exact hq'.removeNext h hq₁
  remove := by
    rintro (q | q) f s e r' h hfresh hcan hr
    · obtain ⟨q', hq₁, rfl⟩ := Option.map_eq_some_iff.1 hr
      exact hq.remove h hfresh hcan hq₁
    · obtain ⟨q', hq₁, rfl⟩ := Option.map_eq_some_iff.1 hr
      exact hq'.remove h hfresh hcan hq₁

/-- A queue of either kind that does not fail. -/
theorem Reliable.sum (hq : Reliable admits time uid Rep) (hq' : Reliable admits time uid Rep') :
    Reliable admits time uid (fun r : ρ ⊕ ρ' => r.elim Rep Rep') where
  insert := by
    rintro (q | q) f s e h hadm hf hfresh
    · obtain ⟨q', hq₁⟩ := hq.insert h hadm hf hfresh
      exact ⟨.inl q', Option.map_eq_some_iff.2 ⟨q', hq₁, rfl⟩⟩
    · obtain ⟨q', hq₁⟩ := hq'.insert h hadm hf hfresh
      exact ⟨.inr q', Option.map_eq_some_iff.2 ⟨q', hq₁, rfl⟩⟩
  peekNext := by
    rintro (q | q) f s h h0
    · exact hq.peekNext h h0
    · exact hq'.peekNext h h0
  removeNext := by
    rintro (q | q) f s h h0
    · obtain ⟨p, hp⟩ := hq.removeNext h h0
      exact ⟨_, Option.map_eq_some_iff.2 ⟨p, hp, rfl⟩⟩
    · obtain ⟨p, hp⟩ := hq'.removeNext h h0
      exact ⟨_, Option.map_eq_some_iff.2 ⟨p, hp, rfl⟩⟩
  remove := by
    rintro (q | q) f s e h hfresh
    · obtain ⟨q', hq₁⟩ := hq.remove h hfresh
      exact ⟨.inl q', Option.map_eq_some_iff.2 ⟨q', hq₁, rfl⟩⟩
    · obtain ⟨q', hq₁⟩ := hq'.remove h hfresh
      exact ⟨.inr q', Option.map_eq_some_iff.2 ⟨q', hq₁, rfl⟩⟩

end Sum

end PriorityQueue
