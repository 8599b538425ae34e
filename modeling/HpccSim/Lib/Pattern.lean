import Mathlib.Data.List.Forall2
import Mathlib.Data.List.TakeWhile

/-!
# Patterns without nesting

A pattern is a sequence of pieces: runs of symbols of a class, and choices between words. A text is
matched as a whole, with backtracking. A run is first tried as long as possible, a choice in the
order of its words, and the first match is the one that counts.

## Main definitions

* `Pattern.Piece`: the pieces.
* `Pattern.wholeMatch`: the texts matched by the pieces.

## Main results

* `Pattern.of_wholeMatch`: the texts found make up the whole text, and each is one of its piece.
* `Pattern.wholeMatch_many`, `Pattern.wholeMatch_oneOf`: matching without backtracking.
-/

namespace Pattern

variable {α : Type*}

/-- A run of at least `least` symbols of a class, or one of several words. -/
inductive Piece (α : Type*)
  | many (p : α → Bool) (least : ℕ)
  | oneOf (words : List (List α))

/-- The text is one of the piece. -/
def Piece.Accepts : Piece α → List α → Prop
  | many p least, t => (∀ a ∈ t, p a) ∧ least ≤ t.length
  | oneOf words, t => t ∈ words

/-- The text `s` does not begin with a symbol of the class. -/
def Stops (p : α → Bool) (s : List α) : Prop := ∀ a ∈ s.head?, p a = false

section Match

variable [DecidableEq α]

/-- The texts of the piece with which `s` begins, in the order in which they are tried. -/
def Piece.candidates : Piece α → List α → List (List α)
  | many p least, s =>
    let longest := (s.takeWhile p).length
    (List.range (longest + 1 - least)).map fun i => s.take (longest - i)
  | oneOf words, s => words.filter (·.isPrefixOf s)

/-- The texts that the pieces match, if they match all of `s`. -/
def wholeMatch : List (Piece α) → List α → Option (List (List α))
  | [], [] => some []
  | [], _ :: _ => none
  | q :: qs, s =>
    (q.candidates s).findSome? fun t => (wholeMatch qs (s.drop t.length)).map (t :: ·)

end Match

/-! ### What a match is -/

section Soundness

variable [DecidableEq α] {q : Piece α} {qs : List (Piece α)} {s t : List α}

theorem Piece.of_mem_candidates (h : t ∈ q.candidates s) : t <+: s ∧ q.Accepts t := by
  cases q with
  | many p least =>
    obtain ⟨i, hi, rfl⟩ := List.mem_map.1 h
    rw [List.mem_range] at hi
    have hlen := List.Sublist.length_le (List.takeWhile_sublist (l := s) p)
    have hpre : s.take ((s.takeWhile p).length - i) <+: s.takeWhile p :=
      List.prefix_of_prefix_length_le (List.take_prefix _ _) (List.takeWhile_prefix p)
        ((List.length_take_le _ _).trans (Nat.sub_le _ _))
    refine ⟨List.take_prefix _ _, fun a ha => List.mem_takeWhile_imp (hpre.subset ha), ?_⟩
    rw [List.length_take]
    omega
  | oneOf words =>
    obtain ⟨hmem, hpre⟩ := List.mem_filter.1 h
    exact ⟨List.isPrefixOf_iff_prefix.1 hpre, hmem⟩

/-- **Soundness.** The texts make up the whole text, and each is one of its piece. -/
theorem of_wholeMatch {ts : List (List α)} (h : wholeMatch qs s = some ts) :
    s = ts.flatten ∧ List.Forall₂ Piece.Accepts qs ts := by
  induction qs generalizing s ts with
  | nil =>
    cases s with
    | nil =>
      obtain rfl := Option.some.inj h
      exact ⟨rfl, .nil⟩
    | cons a s => cases h
  | cons q qs ih =>
    obtain ⟨t, ht, h⟩ := List.exists_of_findSome?_eq_some h
    obtain ⟨ts, hts, rfl⟩ := Option.map_eq_some_iff.1 h
    obtain ⟨⟨r, rfl⟩, haccepts⟩ := Piece.of_mem_candidates ht
    obtain ⟨hflat, hall⟩ := ih hts
    rw [List.drop_left] at hflat
    exact ⟨by rw [List.flatten_cons, hflat], .cons haccepts hall⟩

/-- A property of all symbols that the pieces can match. -/
theorem forall_of_wholeMatch {P : α → Prop} {ts : List (List α)}
    (hqs : ∀ q ∈ qs, ∀ t, q.Accepts t → ∀ a ∈ t, P a) (h : wholeMatch qs s = some ts) :
    ∀ a ∈ s, P a := by
  obtain ⟨rfl, hall⟩ := of_wholeMatch h
  clear h
  induction hall with
  | nil => simp
  | cons hq _ ih =>
    rw [List.flatten_cons]
    exact List.forall_mem_append.2 ⟨hqs _ List.mem_cons_self _ hq,
      ih fun q hq => hqs q (List.mem_cons_of_mem _ hq)⟩

end Soundness

/-! ### Matching without backtracking -/

section Forward

variable [DecidableEq α] {p : α → Bool} {least : ℕ} {qs : List (Piece α)} {s t : List α}
  {ts : List (List α)}

omit [DecidableEq α] in
theorem stops_nil : Stops p [] := fun _ ha => nomatch ha

omit [DecidableEq α] in
theorem stops_cons {a : α} (ha : p a = false) : Stops p (a :: s) := by
  intro b hb
  rw [List.head?_cons, Option.mem_some_iff] at hb
  exact hb ▸ ha

omit [DecidableEq α] in
theorem stops_append (ht : ∀ a ∈ t, p a = false) (hs : Stops p s) : Stops p (t ++ s) := by
  cases t with
  | nil => exact hs
  | cons a t => exact stops_cons (ht a List.mem_cons_self)

omit [DecidableEq α] in
theorem stops_append_of_ne_nil (hne : t ≠ []) (ht : ∀ a ∈ t, p a = false) : Stops p (t ++ s) := by
  cases t with
  | nil => exact absurd rfl hne
  | cons a t => exact stops_cons (ht a List.mem_cons_self)

omit [DecidableEq α] in
theorem takeWhile_append_of_stops (ht : ∀ a ∈ t, p a) (hs : Stops p s) :
    (t ++ s).takeWhile p = t := by
  rw [List.takeWhile_append_of_pos ht]
  cases s with
  | nil => simp
  | cons a s => simp [hs a rfl]

omit [DecidableEq α] in
theorem dropWhile_append_of_stops (ht : ∀ a ∈ t, p a) (hs : Stops p s) :
    (t ++ s).dropWhile p = s := by
  have h := List.takeWhile_append_dropWhile (p := p) (l := t ++ s)
  rw [takeWhile_append_of_stops ht hs] at h
  exact List.append_cancel_left h

/-- A run that ends where the text goes on with another symbol. -/
theorem wholeMatch_many (ht : ∀ a ∈ t, p a) (hleast : least ≤ t.length) (hs : Stops p s)
    (h : wholeMatch qs s = some ts) :
    wholeMatch (.many p least :: qs) (t ++ s) = some (t :: ts) := by
  have hlen : t.length + 1 - least = t.length - least + 1 := by omega
  rw [wholeMatch, Piece.candidates, takeWhile_append_of_stops ht hs, hlen, List.range_succ_eq_map,
    List.map_cons, Nat.sub_zero, List.take_left, List.findSome?_cons, List.drop_left, h]
  rfl

/-- A word, if no word before it leads to a match. -/
theorem wholeMatch_oneOf (before : List (List α)) {after : List (List α)}
    (hbefore : ∀ w ∈ before, w.isPrefixOf (t ++ s) = false ∨
      wholeMatch qs ((t ++ s).drop w.length) = none) (h : wholeMatch qs s = some ts) :
    wholeMatch (.oneOf (before ++ t :: after) :: qs) (t ++ s) = some (t :: ts) := by
  have hpre : t.isPrefixOf (t ++ s) = true := List.isPrefixOf_iff_prefix.2 (List.prefix_append t s)
  have hnone : (before.filter (·.isPrefixOf (t ++ s))).findSome?
      (fun w => (wholeMatch qs ((t ++ s).drop w.length)).map (w :: ·)) = none := by
    rw [List.findSome?_eq_none_iff]
    intro w hw
    obtain ⟨hw, hwpre⟩ := List.mem_filter.1 hw
    rcases hbefore w hw with hfalse | hnone
    · exact absurd (hwpre.symm.trans hfalse) (by simp)
    · rw [hnone]
      rfl
  have hcons : (t :: after).filter (·.isPrefixOf (t ++ s)) =
      t :: after.filter (·.isPrefixOf (t ++ s)) := List.filter_cons_of_pos hpre
  rw [wholeMatch, Piece.candidates, List.filter_append, List.findSome?_append, hnone, hcons,
    List.findSome?_cons, List.drop_left, h]
  rfl

/-- The text ends with the last run. -/
theorem wholeMatch_many_last (ht : ∀ a ∈ t, p a) (hleast : least ≤ t.length) :
    wholeMatch [.many p least] t = some [t] := by
  have h : wholeMatch [.many p least] (t ++ []) = some [t] :=
    wholeMatch_many ht hleast stops_nil rfl
  rwa [List.append_nil] at h

/-- Two runs do not match a text that begins with a symbol of neither class, if one of them has
to have a symbol. -/
theorem wholeMatch_eq_none {p' : α → Bool} {a : α} (hp : p a = false) (hp' : p' a = false) :
    wholeMatch (.many p 0 :: .many p' 1 :: qs) (a :: s) = none := by
  simp [wholeMatch, Piece.candidates, hp, hp']

end Forward

end Pattern
