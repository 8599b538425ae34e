import HpccSim.FilterBrackets
import Mathlib.Tactic.IntervalCases

/-!
# The expressions of a filter

A filter expression consists of comparisons that are connected by `&` and `|`. Its texts may have
blanks around all tokens and further brackets. An operand of a connective is a comparison or stands
in brackets; these can be left out around a right operand, since connectives are read from the
right. What is found in the text of a comparison is the comparison.

## Main definitions

* `TraceFilter.Expr`: expressions, and `TraceFilter.Expr.eval`: their values.
* `TraceFilter.Text`: the texts of an expression.
* `TraceFilter.Expr.node`: the tree.

## Main results

* `TraceFilter.Literal.readAnyBase`: numbers are read back.
* `TraceFilter.wholeMatch_compare`: the parts of a comparison are found in its text.
* `TraceFilter.Text.balanced`: the brackets of a text match each other.
-/

namespace HpccSim

namespace TraceFilter

open ByteOrder Decimal Pattern

/-! ### Expressions -/

/-- A comparison of a member with a number in its range. -/
structure Comparison where
  member : Member
  op : Op
  value : ℕ
  mem : member ∈ fieldClasses.map Prod.fst
  inRange : value < 256 ^ member.bytes
  small : value < 2 ^ 63

inductive Connective
  | and | or

def Connective.char : Connective → Char
  | and => '&'
  | or => '|'

def Connective.type : Connective → NodeType
  | and => .and
  | or => .or

def Connective.eval : Connective → Bool → Bool → Bool
  | and => Bool.and
  | or => Bool.or

inductive Expr
  | compare (c : Comparison)
  | connect (t : Connective) (left right : Expr)

/-- The value of a comparison. -/
def Comparison.eval (c : Comparison) (tr : TraceFormat) : Bool :=
  c.op.test (c.member.read tr) c.value

namespace Expr

/-- The value of an expression. -/
def eval : Expr → TraceFormat → Bool
  | compare c, tr => c.eval tr
  | connect t left right, tr => t.eval (left.eval tr) (right.eval tr)

/-- The value of an expression if its comparisons have the given values. -/
def value (v : Comparison → Bool) : Expr → Bool
  | compare c => v c
  | connect t left right => t.eval (left.value v) (right.value v)

def comparisons : Expr → List Comparison
  | compare c => [c]
  | connect _ left right => left.comparisons ++ right.comparisons

end Expr

/-! ### Texts -/

/-- Blanks that are no line breaks. -/
def Gap (l : List Char) : Prop := ∀ c ∈ l, isSpace c ∧ isAny c

/-- The texts of a number. -/
inductive Literal : ℕ → List Char → Prop
  | decimal (v : ℕ) : Literal v (digits v)
  | hex (ds : List Char) (hne : ds ≠ []) (hds : ∀ c ∈ ds, isXDigit c) :
    Literal (hexValue ds) ('0' :: 'x' :: ds)

/-- The texts of a comparison. -/
inductive CompareText (c : Comparison) : List Char → Prop
  | mk {b₁ b₂ b₃ b₄ v : List Char} (h₁ : Gap b₁) (h₂ : Gap b₂) (h₃ : Gap b₃) (h₄ : Gap b₄)
    (hv : Literal c.value v) :
    CompareText c (b₁ ++ (c.member.name.toList ++ (b₂ ++ (c.op.text ++ (b₃ ++ (v ++ b₄))))))

/-- The texts of an expression. -/
inductive Text : Expr → List Char → Prop
  | compare {c : Comparison} {l : List Char} (h : CompareText c l) : Text (.compare c) l
  | bracket {e : Expr} {b l b' : List Char} (hb : Gap b) (h : Text e l) (hb' : Gap b') :
    Text e (b ++ '(' :: (l ++ ')' :: b'))
  | connectCompare {c : Comparison} {e : Expr} {l l' : List Char} (t : Connective)
    (h : CompareText c l) (h' : Text e l') : Text (.connect t (.compare c) e) (l ++ t.char :: l')
  | connectBracket {e e' : Expr} {b l b' l' : List Char} (t : Connective) (hb : Gap b)
    (h : Text e l) (hb' : Gap b') (h' : Text e' l') :
    Text (.connect t e e') (b ++ '(' :: (l ++ ')' :: (b' ++ t.char :: l')))

/-! ### The tree -/

/-- The bytes of a member that a comparison uses. -/
def comparedBytes (m : Member) : ℕ := if m = .ackFlags then 1 else m.bytes

theorem snd_of_mem_fieldClasses {c : Member × ℕ} (hc : c ∈ fieldClasses) :
    c.2 = comparedBytes c.1 := by
  revert c
  decide +kernel

/-- The field of a comparison. -/
def Comparison.field (c : Comparison) : Field where
  offset := c.member.offset
  bytes := comparedBytes c.member
  op := some c.op
  value := c.value % 256 ^ comparedBytes c.member

/-- The tree of an expression. -/
def Expr.node : Expr → Node
  | compare c => .expr c.field
  | connect t left right => .sons t.type left.node right.node

/-! ### Characters -/

section Characters

variable {c : Char}

theorem isSpace_cases (h : isSpace c) :
    c = ' ' ∨ c = '\t' ∨ c = '\n' ∨ c = '\x0b' ∨ c = '\x0c' ∨ c = '\r' := by
  simpa [isSpace] using h

theorem isFieldChar_of_isSpace (h : isSpace c) : isFieldChar c = false := by
  rcases isSpace_cases h with rfl | rfl | rfl | rfl | rfl | rfl <;> rfl

theorem isValueChar_of_isSpace (h : isSpace c) : isValueChar c = false := by
  rcases isSpace_cases h with rfl | rfl | rfl | rfl | rfl | rfl <;> rfl

theorem isSpace_of_isFieldChar (h : isFieldChar c) : isSpace c = false := by
  by_contra hspace
  rw [Bool.not_eq_false] at hspace
  rw [isFieldChar_of_isSpace hspace] at h
  cases h

theorem isSpace_of_isValueChar (h : isValueChar c) : isSpace c = false := by
  by_contra hspace
  rw [Bool.not_eq_false] at hspace
  rw [isValueChar_of_isSpace hspace] at h
  cases h

theorem isAny_of_isSpace_eq_false (h : isSpace c = false) : isAny c := by
  rw [isAny, Bool.and_eq_true_iff, bne_iff_ne, bne_iff_ne]
  constructor
  · rintro rfl
    cases h
  · rintro rfl
    cases h

/-- The characters of a base expression. -/
def isBaseChar (c : Char) : Bool :=
  isSpace c || isFieldChar c || isValueChar c || ['=', '<', '>', '!'].contains c

theorem Connective.isBaseChar_char (t : Connective) : isBaseChar t.char = false := by
  cases t <;> rfl

theorem Op.text_chars {op : Op} (hc : c ∈ op.text) :
    isSpace c = false ∧ isFieldChar c = false ∧ isValueChar c = false ∧ isBaseChar c ∧ isAny c := by
  have hmem : c = '=' ∨ c = '>' ∨ c = '<' ∨ c = '!' := by
    cases op <;> simp only [Op.text, List.mem_cons, List.not_mem_nil, or_false] at hc <;> tauto
  rcases hmem with rfl | rfl | rfl | rfl <;> decide

theorem Op.text_ne_nil (op : Op) : op.text ≠ [] := by
  cases op <;> exact List.cons_ne_nil _ _

theorem Op.ofText_text (op : Op) : Op.ofText op.text = some op := by
  cases op <;> rfl

end Characters

/-! ### Numbers -/

section Numbers

variable {v : ℕ} {l ds : List Char} {c : Char}

theorem isXDigit_of_isDigit (h : c.isDigit) : isXDigit c := by
  rw [isXDigit, h]
  rfl

theorem isValueChar_of_isXDigit (h : isXDigit c) : isValueChar c := by
  rw [isValueChar, h, Bool.or_true]

theorem Literal.isValueChar (h : Literal v l) (hc : c ∈ l) : isValueChar c := by
  cases h with
  | decimal => exact isValueChar_of_isXDigit (isXDigit_of_isDigit (isDigit_of_mem_digits hc))
  | hex ds hne hds =>
    rcases List.mem_cons.1 hc with rfl | hc
    · rfl
    rcases List.mem_cons.1 hc with rfl | hc
    · rfl
    · exact isValueChar_of_isXDigit (hds c hc)

theorem Literal.ne_nil (h : Literal v l) : l ≠ [] := by
  cases h with
  | decimal => exact digits_ne_nil
  | hex ds hne hds => exact List.cons_ne_nil _ _

/-- A number that goes on until something else follows. -/
theorem readDigits_append (isDigit : Char → Bool) (value : List Char → ℕ) (hne : ds ≠ [])
    (hds : ∀ c ∈ ds, isDigit c) (hl : Stops isDigit l) :
    readDigits isDigit value (ds ++ l) = some (value ds, l) := by
  rw [readDigits, takeWhile_append_of_stops hds hl, dropWhile_append_of_stops hds hl, if_neg hne]

theorem readDecimal_digits (hl : Stops Char.isDigit l) :
    readDecimal (digits v ++ l) = some (v, l) := by
  rw [readDecimal, readDigits_append _ _ digits_ne_nil (fun _ => isDigit_of_mem_digits) hl,
    value_digits]

/-- Only zero begins with a zero. -/
theorem head?_digits_ne (hv : 0 < v) : (digits v).head? ≠ some '0' := by
  induction v using Nat.strong_induction_on with
  | _ v ih =>
    rw [digits, Nat.toDigits_eq_if (by decide)]
    split_ifs with hlt
    · interval_cases v <;> decide
    · have hne : Nat.toDigits 10 (v / 10) ≠ [] := Nat.toDigits_ne_nil
      rw [List.head?_append_of_ne_nil _ hne]
      exact ih _ (by omega) (by omega)

theorem readAnyBase_of_ne (hc : c ≠ '0') (l : List Char) :
    readAnyBase (c :: l) = readDecimal (c :: l) := by
  rw [readAnyBase]
  · rintro l' h
    exact absurd (List.cons.inj h).1 hc
  · rintro l' h
    exact absurd (List.cons.inj h).1 hc

/-- **Numbers are read back**, whatever follows that cannot be part of them. -/
theorem Literal.readAnyBase (h : Literal v ds) (hl : Stops isXDigit l) (hx : Stops (· == 'x') l) :
    readAnyBase (ds ++ l) = some (v, l) := by
  have hstop {p : Char → Bool} (hp : ∀ c, p c → isXDigit c) : Stops p l := by
    intro c hc
    by_contra hpc
    rw [Bool.not_eq_false] at hpc
    exact absurd ((hp c hpc).symm.trans (hl c hc)) (by decide)
  cases h with
  | decimal =>
    rcases Nat.eq_zero_or_pos v with rfl | hv
    · have hzero : digits 0 ++ l = '0' :: l := rfl
      have height := readDigits_append (fun c => c.isDigit && c ≤ '7')
        (fun ds => Nat.ofDigitChars 8 ds 0) (List.cons_ne_nil '0' []) (by simp)
        (hstop fun c hc => isXDigit_of_isDigit (Bool.and_eq_true_iff.1 hc).1)
      rw [hzero, readAnyBase]
      · exact height
      · rintro l' rfl
        exact absurd (hx 'x' rfl) (by decide)
    · obtain ⟨c, cs, hcs⟩ := List.exists_cons_of_ne_nil (digits_ne_nil (n := v))
      have hc : c ≠ '0' := by
        rintro rfl
        exact head?_digits_ne hv (by rw [hcs, List.head?_cons])
      have hread := readDecimal_digits (v := v) (hstop fun c hc => isXDigit_of_isDigit hc)
      rw [hcs, List.cons_append] at hread ⊢
      rw [readAnyBase_of_ne hc, hread]
  | hex ds hne hds =>
    rw [List.cons_append, List.cons_append, TraceFilter.readAnyBase,
      takeWhile_append_of_stops hds hl, dropWhile_append_of_stops hds hl]

/-- The number that a whole text is. -/
theorem Literal.read_li (h : Literal v ds) (hv : v < 2 ^ 63) :
    Conv.li.read ds = some (v, []) := by
  have hread := h.readAnyBase stops_nil stops_nil
  rw [List.append_nil] at hread
  rw [Conv.read, hread, Option.map_some, min_eq_left (Nat.le_sub_one_of_lt hv)]

end Numbers

/-! ### Fields -/

section Fields

variable {m : Member} {name : List Char}

/-- The names are distinct. -/
theorem find?_fieldClasses {c : Member × ℕ} (hc : c ∈ fieldClasses) :
    fieldClasses.find? (fun d => d.1.name.toList = c.1.name.toList) = some c := by
  revert c
  decide +kernel

theorem name_chars {c : Member × ℕ} (hc : c ∈ fieldClasses) :
    c.1.name.toList ≠ [] ∧ ∀ ch ∈ c.1.name.toList, isFieldChar ch := by
  rw [← List.all_eq_true]
  revert c
  decide +kernel

/-- The field that is made of the text of a comparison. -/
theorem getField_compare (junk : ℕ) (c : Comparison) {v : List Char} (hv : Literal c.value v) :
    getField junk c.member.name.toList c.op.text v = some c.field := by
  obtain ⟨cl, hcl, hmember⟩ := List.mem_map.1 c.mem
  rw [getField, ← hmember, find?_fieldClasses hcl, Op.ofText_text, hv.read_li c.small]
  simp only [Option.map_some, Option.getD_some, snd_of_mem_fieldClasses hcl, Comparison.field,
    hmember]

end Fields

/-! ### Matching a comparison -/

section Matching

variable {t s : List Char} {ts : List (List Char)} {qs : List (Piece Char)}

/-- The comparison is found, although some begin with others. -/
theorem wholeMatch_op (op : Op)
    (h : wholeMatch (space :: .many isValueChar 1 :: qs) s = some ts) :
    wholeMatch (.oneOf (Op.all.map Op.text) :: space :: .many isValueChar 1 :: qs)
      (op.text ++ s) = some (op.text :: ts) := by
  have hnone : wholeMatch (space :: .many isValueChar 1 :: qs) ('=' :: s) = none :=
    wholeMatch_eq_none rfl rfl
  cases op with
  | eq => exact wholeMatch_oneOf [] (by simp) h
  | gt => exact wholeMatch_oneOf [['=']] (by simp [Op.text, List.isPrefixOf]) h
  | ge => exact wholeMatch_oneOf [['='], ['>']] (by simp [Op.text, List.isPrefixOf, hnone]) h
  | lt => exact wholeMatch_oneOf [['='], ['>'], ['>', '=']] (by simp [Op.text, List.isPrefixOf]) h
  | le =>
    exact wholeMatch_oneOf [['='], ['>'], ['>', '='], ['<']]
      (by simp [Op.text, List.isPrefixOf, hnone]) h
  | ne =>
    exact wholeMatch_oneOf [['='], ['>'], ['>', '='], ['<'], ['<', '=']]
      (by simp [Op.text, List.isPrefixOf]) h

theorem wholeMatch_connective (t : Connective) (h : wholeMatch qs s = some ts) :
    wholeMatch (connective :: qs) (t.char :: s) = some ([t.char] :: ts) := by
  cases t with
  | and => exact wholeMatch_oneOf [] (by simp) h
  | or => exact wholeMatch_oneOf [['&']] (by simp [List.isPrefixOf]) h

/-- A base expression is matched, whatever follows it. -/
theorem wholeMatch_base {b₁ field b₂ b₃ v b₄ : List Char} (h₁ : Gap b₁) (hfield : field ≠ [])
    (hfield' : ∀ c ∈ field, isFieldChar c) (h₂ : Gap b₂) (op : Op) (h₃ : Gap b₃) (hv : v ≠ [])
    (hv' : ∀ c ∈ v, isValueChar c) (h₄ : Gap b₄) (hs : Stops isSpace s)
    (hs' : Stops isValueChar s) (h : wholeMatch qs s = some ts) :
    wholeMatch (baseExpr ++ qs) (b₁ ++ (field ++ (b₂ ++ (op.text ++ (b₃ ++ (v ++ b₄))))) ++ s) =
      some ([b₁, field, b₂, op.text, b₃, v, b₄] ++ ts) := by
  simp only [List.append_assoc, baseExpr, List.cons_append, List.nil_append]
  refine wholeMatch_many (fun c hc => (h₁ c hc).1) (Nat.zero_le _)
    (stops_append_of_ne_nil hfield fun c hc => isSpace_of_isFieldChar (hfield' c hc)) ?_
  refine wholeMatch_many hfield' (List.length_pos_of_ne_nil hfield)
    (stops_append (fun c hc => isFieldChar_of_isSpace (h₂ c hc).1)
      (stops_append_of_ne_nil op.text_ne_nil fun c hc => (Op.text_chars hc).2.1)) ?_
  refine wholeMatch_many (fun c hc => (h₂ c hc).1) (Nat.zero_le _)
    (stops_append_of_ne_nil op.text_ne_nil fun c hc => (Op.text_chars hc).1) ?_
  refine wholeMatch_op op ?_
  refine wholeMatch_many (fun c hc => (h₃ c hc).1) (Nat.zero_le _)
    (stops_append_of_ne_nil hv fun c hc => isSpace_of_isValueChar (hv' c hc)) ?_
  refine wholeMatch_many hv' (List.length_pos_of_ne_nil hv)
    (stops_append (fun c hc => isValueChar_of_isSpace (h₄ c hc).1) hs') ?_
  exact wholeMatch_many (fun c hc => (h₄ c hc).1) (Nat.zero_le _) hs h

/-- **A comparison is matched**, whatever follows it. -/
theorem wholeMatch_compare {c : Comparison} {b₁ b₂ b₃ b₄ v : List Char} (h₁ : Gap b₁) (h₂ : Gap b₂)
    (h₃ : Gap b₃) (h₄ : Gap b₄) (hv : Literal c.value v) (hs : Stops isSpace s)
    (hs' : Stops isValueChar s) (h : wholeMatch qs s = some ts) :
    wholeMatch (baseExpr ++ qs)
      (b₁ ++ (c.member.name.toList ++ (b₂ ++ (c.op.text ++ (b₃ ++ (v ++ b₄))))) ++ s) =
        some ([b₁, c.member.name.toList, b₂, c.op.text, b₃, v, b₄] ++ ts) := by
  obtain ⟨cl, hcl, hmember⟩ := List.mem_map.1 c.mem
  obtain ⟨hname, hchars⟩ := name_chars hcl
  rw [hmember] at hname hchars
  exact wholeMatch_base h₁ hname hchars h₂ c.op h₃ hv.ne_nil (fun _ => hv.isValueChar) h₄ hs hs' h

/-- What follows an expression in brackets. -/
theorem rightOf_eq (t : Connective) {b l : List Char} (hb : Gap b) (hl : ∀ c ∈ l, isAny c) :
    rightOf (b ++ t.char :: l) = ([t.char], l) := by
  have hchar : isSpace t.char = false := by cases t <;> rfl
  have hlast : wholeMatch [space] [] = some [[]] := rfl
  have hany := wholeMatch_many hl (Nat.zero_le _) stops_nil hlast
  rw [List.append_nil] at hany
  have h : wholeMatch restExpr (b ++ t.char :: l) = some [b, [t.char], l, []] :=
    wholeMatch_many (fun c hc => (hb c hc).1) (Nat.zero_le _) (stops_cons hchar)
      (wholeMatch_connective t hany)
  rw [rightOf, h]

/-- A base expression has no brackets and no connectives. -/
theorem isBaseChar_of_wholeMatch (h : wholeMatch baseExpr s = some ts) : ∀ c ∈ s, isBaseChar c := by
  refine forall_of_wholeMatch ?_ h
  have hspace : ∀ t, space.Accepts t → ∀ c ∈ t, isBaseChar c := by
    rintro t ⟨ht, -⟩ c hc
    rw [isBaseChar, ht c hc]
    rfl
  simp only [baseExpr, List.forall_mem_cons, List.not_mem_nil, false_imp_iff, implies_true,
    and_true]
  refine ⟨hspace, ?_, hspace, ?_, hspace, ?_, hspace⟩
  · rintro t ⟨ht, -⟩ c hc
    rw [isBaseChar, ht c hc, Bool.or_true]
    rfl
  · intro t ht c hc
    obtain ⟨op, -, rfl⟩ := List.mem_map.1 ht
    exact (Op.text_chars hc).2.2.2.1
  · rintro t ⟨ht, -⟩ c hc
    rw [isBaseChar, ht c hc, Bool.or_true]
    rfl

/-- A text that is matched from its first field on begins with a field. -/
theorem isFieldChar_of_wholeMatch
    (h : wholeMatch (space :: .many isFieldChar 1 :: qs) s = some ts) :
    ∀ c ∈ (s.dropWhile isSpace).head?, isFieldChar c := by
  obtain ⟨rfl, hall⟩ := of_wholeMatch h
  obtain ⟨b, us, ⟨hb, -⟩, hrest, rfl⟩ := List.forall₂_cons_left_iff.1 hall
  obtain ⟨f, ts, ⟨hf, hlen⟩, -, rfl⟩ := List.forall₂_cons_left_iff.1 hrest
  have hne : f ≠ [] := List.ne_nil_of_length_pos hlen
  have hdrop : ((b :: f :: ts).flatten).dropWhile isSpace = f ++ ts.flatten :=
    dropWhile_append_of_stops hb
      (stops_append_of_ne_nil hne fun c hc => isSpace_of_isFieldChar (hf c hc))
  intro c hc
  rw [hdrop, List.head?_append_of_ne_nil _ hne] at hc
  exact hf c (List.mem_of_mem_head? hc)

end Matching

/-! ### Brackets in a text -/

section Balance

/-- The text closes its own brackets only. -/
def Balanced (l : List Char) : Prop :=
  ∀ c, 1 ≤ c → ∀ r, toClose c (l ++ r) = l.length + toClose c r

variable {l l' : List Char}

theorem balanced_of_forall (h : ∀ ch ∈ l, ch ≠ '(' ∧ ch ≠ ')') : Balanced l := by
  intro c hc r
  induction l with
  | nil => simp
  | cons ch l ih =>
    obtain ⟨hopen, hclose⟩ := h ch List.mem_cons_self
    rw [List.cons_append, toClose_cons (.inl hclose), if_neg hopen, if_neg hclose,
      ih fun ch hch => h ch (List.mem_cons_of_mem _ hch), List.length_cons]
    omega

theorem Balanced.append (h : Balanced l) (h' : Balanced l') : Balanced (l ++ l') := by
  intro c hc r
  rw [List.append_assoc, h c hc, h' c hc, List.length_append, Nat.add_assoc]

theorem Balanced.bracket (h : Balanced l) : Balanced ('(' :: (l ++ [')'])) := by
  intro c hc r
  have happend : '(' :: (l ++ [')']) ++ r = '(' :: (l ++ ')' :: r) := by simp
  have hopen : toClose c ('(' :: (l ++ ')' :: r)) = toClose (c + 1) (l ++ ')' :: r) + 1 :=
    toClose_cons (.inl (by decide))
  have hclose : toClose (c + 1) (')' :: r) = toClose c r + 1 :=
    toClose_cons (.inr (Nat.lt_succ_of_le hc))
  rw [happend, hopen, h _ (Nat.le_add_left 1 c), hclose]
  simp only [List.length_cons, List.length_append, List.length_nil]
  omega

/-- The bracket behind it matches one before it. -/
theorem Balanced.toClose (h : Balanced l) (r : List Char) :
    toClose 1 (l ++ ')' :: r) = l.length := by
  rw [h 1 le_rfl]
  rfl

theorem Gap.balanced (h : Gap l) : Balanced l := by
  refine balanced_of_forall fun ch hch => ?_
  constructor
  · rintro rfl
    exact absurd (h _ hch).1 (by decide)
  · rintro rfl
    exact absurd (h _ hch).1 (by decide)

/-- A comparison has no brackets, connectives and line breaks. -/
theorem CompareText.chars {c : Comparison} (h : CompareText c l) :
    ∀ ch ∈ l, isBaseChar ch ∧ isAny ch := by
  obtain ⟨h₁, h₂, h₃, h₄, hv⟩ := h
  obtain ⟨cl, hcl, hmember⟩ := List.mem_map.1 c.mem
  have hname := (name_chars hcl).2
  rw [hmember] at hname
  have hgap {b : List Char} (hb : Gap b) : ∀ ch ∈ b, isBaseChar ch ∧ isAny ch := by
    intro ch hch
    refine ⟨?_, (hb ch hch).2⟩
    rw [isBaseChar, (hb ch hch).1]
    rfl
  refine List.forall_mem_append.2 ⟨hgap h₁, List.forall_mem_append.2 ⟨fun ch hch => ?_,
    List.forall_mem_append.2 ⟨hgap h₂, List.forall_mem_append.2 ⟨fun ch hch => ?_,
      List.forall_mem_append.2 ⟨hgap h₃, List.forall_mem_append.2 ⟨fun ch hch => ?_,
        hgap h₄⟩⟩⟩⟩⟩⟩
  · refine ⟨?_, isAny_of_isSpace_eq_false (isSpace_of_isFieldChar (hname ch hch))⟩
    rw [isBaseChar, hname ch hch, Bool.or_true]
    rfl
  · exact (Op.text_chars hch).2.2.2
  · refine ⟨?_, isAny_of_isSpace_eq_false (isSpace_of_isValueChar (hv.isValueChar hch))⟩
    rw [isBaseChar, hv.isValueChar hch, Bool.or_true]
    rfl

theorem CompareText.balanced {c : Comparison} (h : CompareText c l) : Balanced l := by
  refine balanced_of_forall fun ch hch => ?_
  constructor
  · rintro rfl
    exact absurd (h.chars _ hch).1 (by decide)
  · rintro rfl
    exact absurd (h.chars _ hch).1 (by decide)

theorem balanced_char (t : Connective) : Balanced [t.char] := by
  refine balanced_of_forall fun ch hch => ?_
  rw [List.mem_singleton] at hch
  subst hch
  cases t <;> decide

/-- **The brackets of a text match each other.** -/
theorem Text.balanced {e : Expr} (h : Text e l) : Balanced l := by
  induction h with
  | compare h => exact h.balanced
  | @bracket e b l b' hb h hb' ih =>
    have happend : b ++ '(' :: (l ++ ')' :: b') = b ++ ('(' :: (l ++ [')']) ++ b') := by simp
    rw [happend]
    exact hb.balanced.append (ih.bracket.append hb'.balanced)
  | @connectCompare c e l l' t h h' ih =>
    have happend : l ++ t.char :: l' = l ++ ([t.char] ++ l') := rfl
    rw [happend]
    exact h.balanced.append ((balanced_char t).append ih)
  | @connectBracket e e' b l b' l' t hb h hb' h' ih ih' =>
    have happend : b ++ '(' :: (l ++ ')' :: (b' ++ t.char :: l')) =
        b ++ ('(' :: (l ++ [')']) ++ (b' ++ ([t.char] ++ l'))) := by simp
    rw [happend]
    exact hb.balanced.append
      (ih.bracket.append (hb'.balanced.append ((balanced_char t).append ih')))

/-- A text has no line breaks. -/
theorem Text.isAny {e : Expr} (h : Text e l) : ∀ c ∈ l, isAny c := by
  have hgap {b : List Char} (hb : Gap b) : ∀ c ∈ b, TraceFilter.isAny c := fun c hc => (hb c hc).2
  have hchar (t : Connective) : TraceFilter.isAny t.char := by cases t <;> rfl
  induction h with
  | compare h => exact fun c hc => (h.chars c hc).2
  | bracket hb h hb' ih =>
    exact List.forall_mem_append.2 ⟨hgap hb, List.forall_mem_cons.2 ⟨rfl,
      List.forall_mem_append.2 ⟨ih, List.forall_mem_cons.2 ⟨rfl, hgap hb'⟩⟩⟩⟩
  | connectCompare t h h' ih =>
    exact List.forall_mem_append.2 ⟨fun c hc => (h.chars c hc).2,
      List.forall_mem_cons.2 ⟨hchar t, ih⟩⟩
  | connectBracket t hb h hb' h' ih ih' =>
    exact List.forall_mem_append.2 ⟨hgap hb, List.forall_mem_cons.2 ⟨rfl,
      List.forall_mem_append.2 ⟨ih, List.forall_mem_cons.2 ⟨rfl,
        List.forall_mem_append.2 ⟨hgap hb', List.forall_mem_cons.2 ⟨hchar t, ih'⟩⟩⟩⟩⟩⟩

end Balance

end TraceFilter

end HpccSim
