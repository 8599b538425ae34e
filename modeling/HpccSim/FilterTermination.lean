import HpccSim.FlowFilter

/-!
# The parser of filters terminates

A call of the parser is for a shorter text, or for the expansion of a shorthand, which has none
itself. So the parser returns on every text whose positions fit into 32 bits, well formed or not,
and uses no position beyond its end. On a longer text of blanks it never returns, since a position
is never equal to its length.

## Main results

* `TraceFilter.parse_returns`: the parser returns, for the number of steps that is given.
* `TraceFilter.not_returns_blanks`: it does not return for `2 ^ 32` blanks.
-/

namespace HpccSim

namespace TraceFilter

open Pattern

section Returns

variable {s : List Char} {ts : List (List Char)} {junk : ℕ}

/-- Stripping returns a text that is not longer. -/
theorem stripOuterBracket_returns (hlen : s.length < 2 ^ 32) : ∃ s₀ : List Char,
    s₀.length ≤ s.length ∧ ∀ n, s.length + 2 ≤ n → stripOuterBracket n s = .ok s₀ := by
  induction hk : s.length using Nat.strong_induction_on generalizing s with
  | _ k ih =>
    subst hk
    have hstay (h : ∀ n, s.length < n → stripOuterBracket (n + 1) s = .ok s) : ∃ s₀ : List Char,
        s₀.length ≤ s.length ∧ ∀ n, s.length + 2 ≤ n → stripOuterBracket n s = .ok s₀ := by
      refine ⟨s, le_rfl, fun n hn => ?_⟩
      obtain ⟨m, rfl⟩ := Nat.exists_eq_add_of_le' (Nat.le_of_add_left_le hn : 1 ≤ n)
      exact h m (by omega)
    rcases bracket_cases s with hfirst | ⟨b, r, hb, rfl, hopen⟩ | ⟨b, l, r, hb, rfl, hclosed⟩
    · exact hstay fun n hn => stripOuterBracket_of_first hlen hn hfirst
    · exact hstay fun n hn => stripOuterBracket_of_open hb hlen hn hopen
    · by_cases hr : Blank r
      · have hinside := length_closed (b := b) (l := l) (r := r)
        obtain ⟨s₀, hle, hstrip⟩ := ih l.length (by omega) (by omega) rfl
        refine ⟨s₀, by omega, fun n hn => ?_⟩
        obtain ⟨m, rfl⟩ := Nat.exists_eq_add_of_le' (Nat.le_of_add_left_le hn : 1 ≤ n)
        rw [stripOuterBracket_of_closed hb hlen (by omega) hclosed hr]
        exact hstrip m (by omega)
      · exact hstay fun n hn => stripOuterBracket_of_rest hb hlen hn hclosed hr

/-- A base expression or a shorthand. -/
theorem baseNode_returns (junk : ℕ) (field op value : List Char) :
    ∃ res, ∀ n, 515 ≤ n → baseNode junk (parse junk n) field op value = .ok res := by
  simp only [baseNode, parseShorthand]
  cases getField junk field op value with
  | some f => exact ⟨_, fun n _ => rfl⟩
  | none =>
    cases hexpansion : expansion field op value with
    | none => exact ⟨_, fun n _ => rfl⟩
    | some buf =>
      obtain ⟨⟨e, htext⟩, hbuf⟩ := text_expansion hexpansion
      exact ⟨_, fun n hn => parse_text htext (hbuf.trans (by decide)) (by omega)⟩

/-- The parts of a base expression, maybe with something behind it. -/
theorem base_cases {qs : List (Piece Char)}
    (h : List.Forall₂ Piece.Accepts (baseExpr ++ qs) ts) :
    ∃ b₁ field b₂ op b₃ value b₄ ts', ts = [b₁, field, b₂, op, b₃, value, b₄] ++ ts' ∧
      1 ≤ field.length ∧ List.Forall₂ Piece.Accepts qs ts' := by
  obtain ⟨b₁, ts₁, -, h₁, rfl⟩ := List.forall₂_cons_left_iff.1 h
  obtain ⟨field, ts₂, hfield, h₂, rfl⟩ := List.forall₂_cons_left_iff.1 h₁
  obtain ⟨b₂, ts₃, -, h₃, rfl⟩ := List.forall₂_cons_left_iff.1 h₂
  obtain ⟨op, ts₄, -, h₄, rfl⟩ := List.forall₂_cons_left_iff.1 h₃
  obtain ⟨b₃, ts₅, -, h₅, rfl⟩ := List.forall₂_cons_left_iff.1 h₄
  obtain ⟨value, ts₆, -, h₆, rfl⟩ := List.forall₂_cons_left_iff.1 h₅
  obtain ⟨b₄, ts', -, h₇, rfl⟩ := List.forall₂_cons_left_iff.1 h₆
  exact ⟨b₁, field, b₂, op, b₃, value, b₄, ts', rfl, hfield.2, h₇⟩

theorem baseExpr_cases (h : wholeMatch baseExpr s = some ts) :
    ∃ b₁ field b₂ op b₃ value b₄, ts = [b₁, field, b₂, op, b₃, value, b₄] := by
  have hall := (of_wholeMatch h).2
  rw [← List.append_nil baseExpr] at hall
  obtain ⟨b₁, field, b₂, op, b₃, value, b₄, ts', rfl, -, hnil⟩ := base_cases hall
  obtain rfl := List.forall₂_nil_left_iff.1 hnil
  exact ⟨b₁, field, b₂, op, b₃, value, b₄, rfl⟩

/-- What follows a base expression is shorter. -/
theorem baseAndRest_cases (h : wholeMatch baseAndRest s = some ts) :
    ∃ b₁ field b₂ op b₃ value b₄ opStr rightStr,
      ts = [b₁, field, b₂, op, b₃, value, b₄, opStr, rightStr] ∧ rightStr.length < s.length := by
  obtain ⟨rfl, hall⟩ := of_wholeMatch h
  obtain ⟨b₁, field, b₂, op, b₃, value, b₄, ts', rfl, hfield, h₇⟩ := base_cases hall
  obtain ⟨opStr, ts₈, -, h₈, rfl⟩ := List.forall₂_cons_left_iff.1 h₇
  obtain ⟨rightStr, ts₉, -, h₉, rfl⟩ := List.forall₂_cons_left_iff.1 h₈
  obtain rfl := List.forall₂_nil_left_iff.1 h₉
  refine ⟨b₁, field, b₂, op, b₃, value, b₄, opStr, rightStr, rfl, ?_⟩
  simp only [List.flatten_cons, List.cons_append, List.nil_append, List.length_append]
  omega

/-- What follows an expression in brackets is not longer than the rest. -/
theorem length_rightOf_le (r : List Char) : (rightOf r).2.length ≤ r.length := by
  rw [rightOf]
  split
  · rename_i b opStr rightStr b' h
    obtain ⟨rfl, -⟩ := of_wholeMatch h
    simp only [List.flatten_cons, List.length_append]
    omega
  · exact Nat.zero_le _

/-- The left node, and a shorter text behind it. -/
theorem leftNode_returns (hlen : s.length < 2 ^ 32)
    (ih : ∀ t : List Char, t.length < s.length →
      ∃ res, ∀ n, t.length + 600 ≤ n → parse junk n t = .ok res) :
    ∃ left, (∀ n, s.length + 599 ≤ n → leftNode junk (parse junk n) n s = .ok left) ∧
      ∀ node opStr rightStr, left = some (node, opStr, rightStr) →
        rightStr.length < s.length := by
  simp only [leftNode]
  cases hmatch : wholeMatch baseAndRest s with
  | some ts =>
    obtain ⟨b₁, field, b₂, op, b₃, value, b₄, opStr, rightStr, rfl, hshort⟩ :=
      baseAndRest_cases hmatch
    obtain ⟨res, hres⟩ := baseNode_returns junk field op value
    refine ⟨res.map fun left => (left, opStr, rightStr), fun n hn => ?_, ?_⟩
    · simp only [hres n (by omega), ok_bind]
      rfl
    · rintro node opStr' rightStr' h
      obtain ⟨left, -, h⟩ := Option.map_eq_some_iff.1 h
      obtain ⟨-, h⟩ := Prod.mk.inj h
      obtain ⟨-, rfl⟩ := Prod.mk.inj h
      exact hshort
  | none =>
    rcases bracket_cases s with hfirst | ⟨b, r, hb, rfl, hopen⟩ | ⟨b, l, r, hb, rfl, hclosed⟩
    · exact ⟨none, fun n hn => bracketNode_of_first hlen (by omega) hfirst, by simp⟩
    · exact ⟨none, fun n hn => bracketNode_of_open hb hlen (by omega) hopen, by simp⟩
    · have hinside := length_closed (b := b) (l := l) (r := r)
      obtain ⟨res, hres⟩ := ih l (by omega)
      refine ⟨res.map fun left => (left, rightOf r), fun n hn => ?_, ?_⟩
      · simp only []
        rw [bracketNode_of_closed hb hlen (by omega) hclosed, hres n (by omega), ok_bind]
        rfl
      · rintro node opStr rightStr h
        obtain ⟨left, -, h⟩ := Option.map_eq_some_iff.1 h
        have hright := length_rightOf_le r
        rw [(Prod.mk.inj h).2] at hright
        exact hright.trans_lt (by omega)

/-- **Termination.** The parser returns on every text of fewer than `2 ^ 32` characters, without
using a position beyond its end, and the depth of its calls is bounded by the length. -/
theorem parse_returns (junk : ℕ) {s : List Char} (hlen : s.length < 2 ^ 32) :
    ∃ res, ∀ n, s.length + 600 ≤ n → parse junk n s = .ok res := by
  induction hk : s.length using Nat.strong_induction_on generalizing s with
  | _ k ih =>
    subst hk
    obtain ⟨s₀, hle, hstrip⟩ := stripOuterBracket_returns hlen
    have ih₀ : ∀ t : List Char, t.length < s₀.length →
        ∃ res, ∀ n, t.length + 600 ≤ n → parse junk n t = .ok res :=
      fun t ht => ih t.length (by omega) (by omega) rfl
    cases hmatch : wholeMatch baseExpr s₀ with
    | some ts =>
      obtain ⟨b₁, field, b₂, op, b₃, value, b₄, rfl⟩ := baseExpr_cases hmatch
      obtain ⟨res, hres⟩ := baseNode_returns junk field op value
      refine ⟨res, fun n hn => ?_⟩
      obtain ⟨m, rfl⟩ := Nat.exists_eq_add_of_le' (Nat.le_of_add_left_le hn : 1 ≤ n)
      rw [parse_of_base (hstrip m (by omega)) hmatch]
      exact hres m (by omega)
    | none =>
      obtain ⟨left, hleft, hshort⟩ := leftNode_returns (hle.trans_lt hlen) ih₀
      cases left with
      | none =>
        refine ⟨none, fun n hn => ?_⟩
        obtain ⟨m, rfl⟩ := Nat.exists_eq_add_of_le' (Nat.le_of_add_left_le hn : 1 ≤ n)
        rw [parse, hstrip m (by omega), ok_bind, hmatch, hleft m (by omega)]
        rfl
      | some left =>
        obtain ⟨left, opStr, rightStr⟩ := left
        obtain ⟨res, hres⟩ := ih₀ rightStr (hshort left opStr rightStr rfl)
        have hlt := hshort left opStr rightStr rfl
        refine ⟨res.map fun right => .sons (setOp opStr) left right, fun n hn => ?_⟩
        obtain ⟨m, rfl⟩ := Nat.exists_eq_add_of_le' (Nat.le_of_add_left_le hn : 1 ≤ n)
        rw [parse, hstrip m (by omega), ok_bind, hmatch, hleft m (by omega), ok_bind]
        simp only [hres m (by omega), ok_bind]
        rfl

theorem parse_returns_unbalanced : ∃ res, ∀ n, "(flow=1,2,x&(node=1)".toList.length + 600 ≤ n →
    parse 0 n "(flow=1,2,x&(node=1)".toList = .ok res :=
  parse_returns 0 (by decide)

end Returns

/-! ### Longer texts -/

/-- In `2 ^ 32` blanks, the position of the next character that is no blank is not found. -/
theorem skipSpace_blanks {str : List Char} (hlen : str.length = 2 ^ 32) (hblank : Blank str)
    (n : ℕ) (i : UInt32) : skipSpace str n i = .error .outOfFuel := by
  induction n generalizing i with
  | zero => rfl
  | succ n ih =>
    have hi : i.toNat < str.length := hlen ▸ i.toNat_lt
    have hchar : charAt str i = .ok (str.get ⟨i.toNat, hi⟩) := by
      rw [charAt, List.getElem?_eq_getElem hi]
      rfl
    have hspace : isSpace (str.get ⟨i.toNat, hi⟩) = true := hblank _ (List.get_mem _ _)
    rw [skipSpace, if_pos hi, hchar, ok_bind, if_pos hspace, ih]

/-- The parser does not return for `2 ^ 32` blanks. -/
theorem not_returns_blanks :
    ¬∃ n res, parse 0 n (List.replicate (2 ^ 32) ' ') = .ok res := by
  rintro ⟨n, res, h⟩
  have hblank : Blank (List.replicate (2 ^ 32) ' ') := by
    intro c hc
    rw [List.eq_of_mem_replicate hc]
    rfl
  have hstop (n : ℕ) : skipSpace (List.replicate (2 ^ 32) ' ') n 0 = .error .outOfFuel :=
    skipSpace_blanks List.length_replicate hblank n 0
  match n with
  | 0 => cases h
  | 1 => cases h
  | n + 2 =>
    rw [parse, stripOuterBracket, hstop] at h
    cases h

end TraceFilter

end HpccSim
