import HpccSim.TraceFilter

/-!
# Brackets in a filter

What the loops of the parser find in a text whose positions fit into 32 bits: where the blanks end,
and where a bracket is closed. From this follows what is stripped, and what an expression in
brackets consists of.

## Main definitions

* `TraceFilter.toClose`: the number of characters before the bracket that matches.

## Main results

* `TraceFilter.skipSpace_eq`, `TraceFilter.skipBrackets_eq`: the loops.
* `TraceFilter.bracket_cases`: a text does not begin with a bracket, or the bracket is not closed,
  or it is.
* `TraceFilter.stripOuterBracket_of_closed`, `TraceFilter.bracketNode_of_closed`: the last case.
-/

namespace HpccSim

namespace TraceFilter

open Pattern

/-! ### Positions -/

section Positions

variable {str : List Char} {a n : ℕ}

theorem toNat_position (ha : a < 2 ^ 32) : (UInt32.ofNat a).toNat = a :=
  UInt32.toNat_ofNat_of_lt' ha

theorem position_add_one : UInt32.ofNat a + 1 = UInt32.ofNat (a + 1) :=
  (UInt32.ofNat_add a 1).symm

theorem ok_bind {α β : Type} (v : α) (f : α → Except Stop β) : (Except.ok v >>= f) = f v := rfl

theorem charAt_of_lt (hlen : str.length < 2 ^ 32) (ha : a < str.length) :
    charAt str (.ofNat a) = .ok (str.get ⟨a, ha⟩) := by
  rw [charAt, toNat_position (ha.trans hlen), List.getElem?_eq_getElem ha]
  rfl

theorem charAt_append {b r : List Char} {c : Char} (hlen : (b ++ c :: r).length < 2 ^ 32) :
    charAt (b ++ c :: r) (.ofNat b.length) = .ok c := by
  have ha : b.length < (b ++ c :: r).length := by simp
  rw [charAt, toNat_position (ha.trans hlen)]
  simp

/-- The position behind the last character has a null character. -/
theorem charAt_length (hlen : str.length < 2 ^ 32) :
    charAt str (.ofNat str.length) = .ok '\x00' := by
  rw [charAt, toNat_position hlen]
  simp

theorem drop_eq_cons (ha : a < str.length) :
    str.drop a = str.get ⟨a, ha⟩ :: str.drop (a + 1) := List.drop_eq_getElem_cons ha

/-- **Blanks.** The loop ends at the first character that is no blank. -/
theorem skipSpace_eq (hlen : str.length < 2 ^ 32) (ha : a ≤ str.length) (hn : str.length - a < n) :
    skipSpace str n (.ofNat a) = .ok (.ofNat (a + ((str.drop a).takeWhile isSpace).length)) := by
  induction n generalizing a with
  | zero => exact absurd hn (Nat.not_lt_zero _)
  | succ n ih =>
    rw [skipSpace, toNat_position (ha.trans_lt hlen)]
    rcases ha.lt_or_eq with ha | rfl
    · rw [if_pos ha, charAt_of_lt hlen ha, ok_bind, drop_eq_cons ha, List.takeWhile_cons]
      by_cases hspace : isSpace (str.get ⟨a, ha⟩) = true
      · rw [if_pos hspace, if_pos hspace, position_add_one, ih ha (by omega), List.length_cons,
          Nat.succ_add_eq_add_succ]
      · rw [if_neg hspace, if_neg hspace]
        rfl
    · rw [if_neg (lt_irrefl _), List.drop_length]
      rfl

/-- The number of characters before the bracket that matches, with `c` brackets open; all
characters, if there is none. -/
def toClose : ℕ → List Char → ℕ
  | _, [] => 0
  | c, ch :: l =>
    if ch ≠ ')' ∨ c > 1 then
      toClose (if ch = '(' then c + 1 else if ch = ')' then c - 1 else c) l + 1
    else 0

theorem toClose_cons {c : ℕ} {ch : Char} {l : List Char} (h : ch ≠ ')' ∨ c > 1) :
    toClose c (ch :: l) =
      toClose (if ch = '(' then c + 1 else if ch = ')' then c - 1 else c) l + 1 := by
  rw [toClose, if_pos h]

theorem toClose_le (c : ℕ) (l : List Char) : toClose c l ≤ l.length := by
  induction l generalizing c with
  | nil => exact le_rfl
  | cons ch l ih =>
    rw [toClose, List.length_cons]
    split_ifs <;> grind

/-- What is not the end of the text is a closing bracket. -/
theorem exists_of_toClose_lt {c : ℕ} {l : List Char} (h : toClose c l < l.length) :
    ∃ l₁ l₂, l = l₁ ++ ')' :: l₂ ∧ toClose c l = l₁.length := by
  induction l generalizing c with
  | nil => exact absurd h (Nat.not_lt_zero _)
  | cons ch l ih =>
    by_cases hch : ch ≠ ')' ∨ c > 1
    · rw [toClose_cons hch] at h ⊢
      obtain ⟨l₁, l₂, hl, hlen⟩ := ih (Nat.succ_lt_succ_iff.1 h)
      exact ⟨ch :: l₁, l₂, by rw [hl, List.cons_append], by rw [hlen, List.length_cons]⟩
    · push Not at hch
      rw [toClose, if_neg (by simp [hch])]
      exact ⟨[], l, by rw [hch.1, List.nil_append], rfl⟩

/-- **Brackets.** The loop ends at the bracket that matches. -/
theorem skipBrackets_eq {c : ℕ} (hlen : str.length < 2 ^ 32) (ha : a ≤ str.length)
    (hc : c ≤ a) (hn : str.length - a < n) :
    skipBrackets str n (.ofNat a) (.ofNat c) = .ok (.ofNat (a + toClose c (str.drop a))) := by
  induction n generalizing a c with
  | zero => exact absurd hn (Nat.not_lt_zero _)
  | succ n ih =>
    rw [skipBrackets, toNat_position (ha.trans_lt hlen)]
    rcases ha.lt_or_eq with ha | rfl
    · rw [if_pos ha, charAt_of_lt hlen ha, ok_bind, drop_eq_cons ha, toClose]
      generalize str.get ⟨a, ha⟩ = ch
      have hopen : UInt32.ofNat c > 1 ↔ c > 1 := by
        rw [gt_iff_lt, UInt32.lt_iff_toNat_lt, toNat_position (hc.trans_lt (ha.trans hlen))]
        rfl
      by_cases hch : ch ≠ ')' ∨ c > 1
      · have hnext : (if ch = '(' then UInt32.ofNat c + 1
            else if ch = ')' then UInt32.ofNat c - 1 else UInt32.ofNat c) =
            .ofNat (if ch = '(' then c + 1 else if ch = ')' then c - 1 else c) := by
          split_ifs with h₁ h₂
          · exact position_add_one
          · have hone : 1 ≤ c := by
              rcases hch with h | h
              · exact absurd h₂ h
              · exact h.le
            rw [UInt32.ofNat_sub hone]
            rfl
          · rfl
        have hch' : ch ≠ ')' ∨ UInt32.ofNat c > 1 := hch.imp_right hopen.2
        rw [if_pos hch, if_pos hch', hnext, position_add_one,
          ih ha (by split_ifs <;> omega) (by omega), Nat.succ_add_eq_add_succ]
      · have hch' : ¬(ch ≠ ')' ∨ UInt32.ofNat c > 1) := fun h => hch (h.imp_right hopen.1)
        rw [if_neg hch, if_neg hch']
        rfl
    · rw [if_neg (lt_irrefl _), List.drop_length]
      rfl

end Positions

/-! ### Where a bracket begins a text -/

section Brackets

variable {expr b l r : List Char} {n : ℕ}

/-- All characters are blanks. -/
def Blank (l : List Char) : Prop := ∀ c ∈ l, isSpace c

/-- A text does not begin with a bracket, or the bracket is not closed, or it is. -/
theorem bracket_cases (expr : List Char) :
    (∀ c ∈ (expr.dropWhile isSpace).head?, c ≠ '(') ∨
    (∃ b r, Blank b ∧ expr = b ++ '(' :: r ∧ toClose 1 r = r.length) ∨
    ∃ b l r, Blank b ∧ expr = b ++ '(' :: (l ++ ')' :: r) ∧
      toClose 1 (l ++ ')' :: r) = l.length := by
  have hsplit := (List.takeWhile_append_dropWhile (p := isSpace) (l := expr)).symm
  have hb : Blank (expr.takeWhile isSpace) := fun c hc => List.mem_takeWhile_imp hc
  cases hrest : expr.dropWhile isSpace with
  | nil => exact .inl fun c hc => nomatch hc
  | cons ch r =>
    rw [hrest] at hsplit
    by_cases hch : ch = '('
    · subst hch
      refine .inr ?_
      rcases (toClose_le 1 r).eq_or_lt with heq | hlt
      · exact .inl ⟨_, r, hb, hsplit, heq⟩
      · obtain ⟨l₁, l₂, rfl, hlen⟩ := exists_of_toClose_lt hlt
        exact .inr ⟨_, l₁, l₂, hb, hsplit, hlen⟩
    · refine .inl fun c hc => ?_
      rw [List.head?_cons, Option.mem_some_iff] at hc
      exact hc ▸ hch

/-- The first character that is no blank. -/
theorem skipSpace_zero (hlen : expr.length < 2 ^ 32) (hn : expr.length < n) :
    skipSpace expr n 0 = .ok (.ofNat (expr.takeWhile isSpace).length) := by
  have h := skipSpace_eq hlen (Nat.zero_le _) hn
  rwa [List.drop_zero, Nat.zero_add] at h

theorem charAt_first_ne (hlen : expr.length < 2 ^ 32)
    (h : ∀ c ∈ (expr.dropWhile isSpace).head?, c ≠ '(') :
    ∃ c, charAt expr (.ofNat (expr.takeWhile isSpace).length) = .ok c ∧ c ≠ '(' := by
  have hsplit := (List.takeWhile_append_dropWhile (p := isSpace) (l := expr)).symm
  cases hrest : expr.dropWhile isSpace with
  | nil =>
    rw [hrest, List.append_nil] at hsplit
    refine ⟨'\x00', ?_, by decide⟩
    rw [← hsplit]
    exact charAt_length hlen
  | cons c r =>
    rw [hrest] at hsplit h
    refine ⟨c, ?_, h c rfl⟩
    have hlen' := hlen
    rw [hsplit] at hlen'
    have hchar := charAt_append hlen'
    rwa [← hsplit] at hchar

section Open

variable (hb : Blank b)

include hb

theorem takeWhile_bracket : (b ++ '(' :: r).takeWhile isSpace = b :=
  takeWhile_append_of_stops hb (stops_cons rfl)

theorem skipSpace_bracket (hlen : (b ++ '(' :: r).length < 2 ^ 32)
    (hn : (b ++ '(' :: r).length < n) :
    skipSpace (b ++ '(' :: r) n 0 = .ok (.ofNat b.length) := by
  rw [skipSpace_zero hlen hn, takeWhile_bracket hb]

omit hb in
theorem skipBrackets_bracket (hlen : (b ++ '(' :: r).length < 2 ^ 32)
    (hn : (b ++ '(' :: r).length < n) :
    skipBrackets (b ++ '(' :: r) n (.ofNat b.length + 1) 1 =
      .ok (.ofNat (b.length + 1 + toClose 1 r)) := by
  have hdrop : (b ++ '(' :: r).drop (b.length + 1) = r := by
    rw [← List.drop_drop, List.drop_left]
    rfl
  have hle : b.length + 1 ≤ (b ++ '(' :: r).length := by simp
  have h := skipBrackets_eq hlen hle (Nat.le_add_left 1 b.length) (by omega : _ < n)
  rwa [hdrop, ← position_add_one] at h

end Open

/-- A text that does not begin with a bracket stays. -/
theorem stripOuterBracket_of_first (hlen : expr.length < 2 ^ 32) (hn : expr.length < n)
    (h : ∀ c ∈ (expr.dropWhile isSpace).head?, c ≠ '(') :
    stripOuterBracket (n + 1) expr = .ok expr := by
  obtain ⟨c, hc, hne⟩ := charAt_first_ne hlen h
  rw [stripOuterBracket, skipSpace_zero hlen hn, ok_bind, hc, ok_bind, if_neg hne]
  rfl

/-- So does one with a bracket that is not closed. -/
theorem stripOuterBracket_of_open (hb : Blank b) (hlen : (b ++ '(' :: r).length < 2 ^ 32)
    (hn : (b ++ '(' :: r).length < n) (h : toClose 1 r = r.length) :
    stripOuterBracket (n + 1) (b ++ '(' :: r) = .ok (b ++ '(' :: r) := by
  have hend : (UInt32.ofNat (b.length + 1 + r.length)).toNat ≥ (b ++ '(' :: r).length := by
    rw [List.length_append, List.length_cons] at hlen ⊢
    rw [toNat_position (by omega)]
    omega
  rw [stripOuterBracket, skipSpace_bracket hb hlen hn, ok_bind, charAt_append hlen, ok_bind,
    if_pos rfl, skipBrackets_bracket hlen hn, ok_bind, h, if_pos hend]
  rfl

/-! ### Brackets that are closed -/

section Closed

variable (hb : Blank b) (hlen : (b ++ '(' :: (l ++ ')' :: r)).length < 2 ^ 32)
  (hn : (b ++ '(' :: (l ++ ')' :: r)).length < n) (h : toClose 1 (l ++ ')' :: r) = l.length)

theorem length_closed : (b ++ '(' :: (l ++ ')' :: r)).length =
    b.length + 1 + l.length + 1 + r.length := by
  simp only [List.length_append, List.length_cons]
  omega

theorem drop_closed : (b ++ '(' :: (l ++ ')' :: r)).drop (b.length + 1 + l.length + 1) = r := by
  have happend : b ++ '(' :: (l ++ ')' :: r) = (b ++ '(' :: (l ++ [')'])) ++ r := by simp
  rw [happend]
  refine List.drop_left' ?_
  simp only [List.length_append, List.length_cons, List.length_nil]
  omega

include hlen

theorem toNat_close : (UInt32.ofNat (b.length + 1 + l.length)).toNat = b.length + 1 + l.length := by
  rw [length_closed] at hlen
  exact toNat_position (by omega)

/-- The text in the brackets. -/
theorem substr_closed : substr (b ++ '(' :: (l ++ ')' :: r)) (.ofNat b.length + 1) l.length =
    .ok l := by
  have hstart : b.length + 1 ≤ (b ++ '(' :: (l ++ ')' :: r)).length := by simp
  have hdrop : (b ++ '(' :: (l ++ ')' :: r)).drop (b.length + 1) = l ++ ')' :: r := by
    rw [← List.drop_drop, List.drop_left]
    rfl
  rw [position_add_one, substr, toNat_position (hstart.trans_lt hlen), if_pos hstart, hdrop,
    List.take_left]

theorem skipSpace_closed (hn : (b ++ '(' :: (l ++ ')' :: r)).length < n) :
    skipSpace (b ++ '(' :: (l ++ ')' :: r)) n (.ofNat (b.length + 1 + l.length) + 1) =
      .ok (.ofNat (b.length + 1 + l.length + 1 + (r.takeWhile isSpace).length)) := by
  have hle : b.length + 1 + l.length + 1 ≤ (b ++ '(' :: (l ++ ')' :: r)).length := by
    rw [length_closed]
    omega
  rw [position_add_one, skipSpace_eq hlen hle (by omega), drop_closed]

theorem length_between :
    (UInt32.ofNat (b.length + 1 + l.length) - (.ofNat b.length + 1)).toNat = l.length := by
  rw [position_add_one, ← UInt32.ofNat_sub (Nat.le_add_right _ _), Nat.add_sub_cancel_left]
  rw [length_closed] at hlen
  exact toNat_position (by omega)

include hb hn h

/-- What is done with a text that begins with brackets. -/
theorem stripOuterBracket_closed : stripOuterBracket (n + 1) (b ++ '(' :: (l ++ ')' :: r)) =
    if (r.takeWhile isSpace).length = r.length then stripOuterBracket n l
    else .ok (b ++ '(' :: (l ++ ')' :: r)) := by
  have hclose : ¬(UInt32.ofNat (b.length + 1 + l.length)).toNat ≥
      (b ++ '(' :: (l ++ ')' :: r)).length := by
    rw [toNat_close hlen, length_closed]
    omega
  have hle := (List.takeWhile_sublist isSpace (l := r)).length_le
  have hend : (UInt32.ofNat (b.length + 1 + l.length + 1 + (r.takeWhile isSpace).length)).toNat ≥
      (b ++ '(' :: (l ++ ')' :: r)).length ↔ (r.takeWhile isSpace).length = r.length := by
    rw [length_closed] at hlen ⊢
    rw [toNat_position (by omega)]
    omega
  rw [stripOuterBracket, skipSpace_bracket hb hlen hn, ok_bind, charAt_append hlen, ok_bind,
    if_pos rfl, skipBrackets_bracket hlen hn, ok_bind, h, if_neg hclose, skipSpace_closed hlen hn,
    ok_bind, length_between hlen, substr_closed hlen]
  by_cases hr : (r.takeWhile isSpace).length = r.length
  · rw [if_pos (hend.2 hr), if_pos hr]
    rfl
  · rw [if_neg fun hge => hr (hend.1 hge), if_neg hr]
    rfl

/-- A text in brackets is taken out of them if only blanks follow. -/
theorem stripOuterBracket_of_closed (hr : Blank r) :
    stripOuterBracket (n + 1) (b ++ '(' :: (l ++ ')' :: r)) = stripOuterBracket n l := by
  rw [stripOuterBracket_closed hb hlen hn h, if_pos]
  rw [List.takeWhile_eq_self_iff.2 hr]

/-- It stays in them if something else follows. -/
theorem stripOuterBracket_of_rest (hr : ¬Blank r) :
    stripOuterBracket (n + 1) (b ++ '(' :: (l ++ ')' :: r)) =
      .ok (b ++ '(' :: (l ++ ')' :: r)) := by
  rw [stripOuterBracket_closed hb hlen hn h, if_neg]
  intro hlength
  exact hr (List.takeWhile_eq_self_iff.1
    ((List.takeWhile_prefix isSpace).eq_of_length hlength))

/-- What an expression in brackets leads to. -/
theorem bracketNode_of_closed (parse : List Char → Except Stop (Option Node)) :
    bracketNode parse n (b ++ '(' :: (l ++ ')' :: r)) = (do
      return (← parse l).map fun left => (left, rightOf r)) := by
  have hclose : ¬(UInt32.ofNat (b.length + 1 + l.length)).toNat ≥
      (b ++ '(' :: (l ++ ')' :: r)).length := by
    rw [toNat_close hlen, length_closed]
    omega
  have hstart : ¬(UInt32.ofNat b.length).toNat ≥ (b ++ '(' :: (l ++ ')' :: r)).length := by
    have hlt := hlen
    rw [length_closed] at hlt ⊢
    rw [toNat_position (by omega)]
    omega
  have hinside : (UInt32.ofNat (b.length + 1 + l.length) + 1 - .ofNat b.length - 2).toNat =
      l.length := by
    have hsub : UInt32.ofNat (b.length + 1 + l.length) + 1 - .ofNat b.length - 2 =
        .ofNat l.length := by
      have hadd : b.length + 1 + l.length + 1 = l.length + 2 + b.length := by omega
      rw [position_add_one, hadd, UInt32.ofNat_add, UInt32.add_sub_cancel, UInt32.ofNat_add]
      exact UInt32.add_sub_cancel _ _
    rw [length_closed] at hlen
    rw [hsub, toNat_position (by omega)]
  have hrest : substr (b ++ '(' :: (l ++ ')' :: r)) (.ofNat (b.length + 1 + l.length) + 1)
      ((b ++ '(' :: (l ++ ')' :: r)).length -
        (UInt32.ofNat (b.length + 1 + l.length) + 1).toNat) = .ok r := by
    have hle : b.length + 1 + l.length + 1 ≤ (b ++ '(' :: (l ++ ')' :: r)).length := by
      rw [length_closed]
      omega
    rw [position_add_one, substr, toNat_position (hle.trans_lt hlen), if_pos hle, drop_closed,
      length_closed, Nat.add_sub_cancel_left, List.take_length]
  rw [bracketNode, skipSpace_bracket hb hlen hn, ok_bind, if_neg hstart, charAt_append hlen,
    ok_bind, if_pos rfl, skipBrackets_bracket hlen hn, ok_bind, h, if_neg hclose]
  simp only [hinside, hrest, substr_closed hlen, ok_bind]
  refine congrArg (parse l >>= ·) (funext fun left => ?_)
  cases left <;> rfl

end Closed

/-- There is no node without a bracket. -/
theorem bracketNode_of_first {parse : List Char → Except Stop (Option Node)}
    (hlen : expr.length < 2 ^ 32) (hn : expr.length < n)
    (h : ∀ c ∈ (expr.dropWhile isSpace).head?, c ≠ '(') : bracketNode parse n expr = .ok none := by
  obtain ⟨c, hc, hne⟩ := charAt_first_ne hlen h
  rw [bracketNode, skipSpace_zero hlen hn, ok_bind]
  split_ifs with hend
  · rfl
  · rw [hc, ok_bind, if_neg hne]
    rfl

/-- There is none for a bracket that is not closed. -/
theorem bracketNode_of_open {parse : List Char → Except Stop (Option Node)} (hb : Blank b)
    (hlen : (b ++ '(' :: r).length < 2 ^ 32) (hn : (b ++ '(' :: r).length < n)
    (h : toClose 1 r = r.length) : bracketNode parse n (b ++ '(' :: r) = .ok none := by
  have hend : (UInt32.ofNat (b.length + 1 + r.length)).toNat ≥ (b ++ '(' :: r).length := by
    rw [List.length_append, List.length_cons] at hlen ⊢
    rw [toNat_position (by omega)]
    omega
  rw [bracketNode, skipSpace_bracket hb hlen hn, ok_bind]
  split_ifs with hstart
  · rfl
  · rw [charAt_append hlen, ok_bind, if_pos rfl, skipBrackets_bracket hlen hn, ok_bind, h,
      if_pos hend]
    rfl

end Brackets

end TraceFilter

end HpccSim
