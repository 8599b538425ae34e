import HpccSim.FilterExpr

/-!
# The filter means what it says

The parser makes the tree of an expression from each of its texts. The tree has the value of the
expression, except where `ack.flags` is compared: the comparison uses one byte, but the member has
two.

## Main definitions

* `TraceFilter.Stripped`: the texts that are no expression in brackets.
* `TraceFilter.Means`: a text is parsed, and its tree has the value of the expression.
* `TraceFilter.Expr.Unswayed`: the comparisons that are misread do not matter for the value.

## Main results

* `TraceFilter.parse_text`: the tree is what is parsed from each text.
* `TraceFilter.means_of_unswayed`: an expression means what it says if the comparisons of
  `ack.flags` that have another result for the low bytes do not matter.
-/

namespace HpccSim

namespace TraceFilter

open ByteOrder Decimal Pattern

/-! ### Stripping -/

/-- The texts of an expression that is not in brackets. -/
inductive Stripped : Expr → List Char → Prop
  | compare {c : Comparison} {l : List Char} (h : CompareText c l) : Stripped (.compare c) l
  | connectCompare {c : Comparison} {e : Expr} {l l' : List Char} (t : Connective)
    (h : CompareText c l) (h' : Text e l') :
    Stripped (.connect t (.compare c) e) (l ++ t.char :: l')
  | connectBracket {e e' : Expr} {b l b' l' : List Char} (t : Connective) (hb : Gap b)
    (h : Text e l) (hb' : Gap b') (h' : Text e' l') :
    Stripped (.connect t e e') (b ++ '(' :: (l ++ ')' :: (b' ++ t.char :: l')))

section Strip

variable {e : Expr} {c : Comparison} {l s : List Char}

theorem Gap.blank (h : Gap l) : Blank l := fun c hc => (h c hc).1

/-- A comparison begins with a field. -/
theorem CompareText.first (h : CompareText c l) :
    ∀ ch ∈ ((l ++ s).dropWhile isSpace).head?, isFieldChar ch := by
  obtain ⟨h₁, h₂, h₃, h₄, hv⟩ := h
  obtain ⟨cl, hcl, hmember⟩ := List.mem_map.1 c.mem
  obtain ⟨hne, hname⟩ := name_chars hcl
  rw [hmember] at hne hname
  intro ch hch
  rw [List.append_assoc, dropWhile_append_of_stops h₁.blank, List.append_assoc,
    List.head?_append_of_ne_nil _ hne] at hch
  · exact hname ch (List.mem_of_mem_head? hch)
  · rw [List.append_assoc]
    exact stops_append_of_ne_nil hne fun ch hch => isSpace_of_isFieldChar (hname ch hch)

theorem CompareText.first_ne (h : CompareText c l) :
    ∀ ch ∈ ((l ++ s).dropWhile isSpace).head?, ch ≠ '(' := by
  rintro ch hch rfl
  exact absurd (h.first _ hch) (by decide)

/-- **Stripping.** The brackets around a text are taken off. -/
theorem Text.strip (h : Text e l) (hlen : l.length < 2 ^ 32) :
    ∃ l₀, Stripped e l₀ ∧ l₀.length ≤ l.length ∧
      ∀ n, l.length + 2 ≤ n → stripOuterBracket n l = .ok l₀ := by
  have hstay {l₀ : List Char} (hlen : l₀.length < 2 ^ 32)
      (hfirst : ∀ c ∈ (l₀.dropWhile isSpace).head?, c ≠ '(') (n : ℕ) (hn : l₀.length + 2 ≤ n) :
      stripOuterBracket n l₀ = .ok l₀ := by
    obtain ⟨m, rfl⟩ := Nat.exists_eq_add_of_le' (Nat.le_of_add_left_le hn : 1 ≤ n)
    exact stripOuterBracket_of_first hlen (by omega) hfirst
  induction h with
  | compare h =>
    have hfirst := h.first_ne (s := [])
    rw [List.append_nil] at hfirst
    exact ⟨_, .compare h, le_rfl, hstay hlen hfirst⟩
  | @bracket e b l b' hb h hb' ih =>
    have hinside : l.length + 2 ≤ (b ++ '(' :: (l ++ ')' :: b')).length := by
      rw [length_closed]
      omega
    obtain ⟨l₀, hl₀, hle, hstrip⟩ := ih (by omega)
    refine ⟨l₀, hl₀, by omega, fun n hn => ?_⟩
    obtain ⟨m, rfl⟩ := Nat.exists_eq_add_of_le' (Nat.le_of_add_left_le hn : 1 ≤ n)
    rw [stripOuterBracket_of_closed hb.blank hlen (by omega) (h.balanced.toClose b') hb'.blank]
    exact hstrip m (by omega)
  | connectCompare t h h' =>
    exact ⟨_, .connectCompare t h h', le_rfl, hstay hlen h.first_ne⟩
  | @connectBracket e e' b l b' l' t hb h hb' h' =>
    refine ⟨_, .connectBracket t hb h hb' h', le_rfl, fun n hn => ?_⟩
    have hrest : ¬Blank (b' ++ t.char :: l') := by
      intro hblank
      have hchar := hblank t.char (by simp)
      cases t <;> cases hchar
    obtain ⟨m, rfl⟩ := Nat.exists_eq_add_of_le' (Nat.le_of_add_left_le hn : 1 ≤ n)
    exact stripOuterBracket_of_rest hb.blank hlen (by omega) (h.balanced.toClose _) hrest

end Strip

/-! ### Parsing -/

section Parse

variable {junk n : ℕ} {e : Expr} {c : Comparison} {l l₀ : List Char}

theorem parse_of_base (hstrip : stripOuterBracket n l = .ok l₀)
    {b₁ field b₂ op b₃ value b₄ : List Char}
    (h : wholeMatch baseExpr l₀ = some [b₁, field, b₂, op, b₃, value, b₄]) :
    parse junk (n + 1) l = baseNode junk (parse junk n) field op value := by
  rw [parse, hstrip, ok_bind, h]

theorem parse_of_sons (hstrip : stripOuterBracket n l = .ok l₀) (h : wholeMatch baseExpr l₀ = none)
    {left right : Node} {opStr rightStr : List Char}
    (hleft : leftNode junk (parse junk n) n l₀ = .ok (some (left, opStr, rightStr)))
    (hright : parse junk n rightStr = .ok (some right)) :
    parse junk (n + 1) l = .ok (some (.sons (setOp opStr) left right)) := by
  rw [parse, hstrip, ok_bind, h, hleft, ok_bind]
  simp only [hright, ok_bind, Option.map_some]
  rfl

theorem baseNode_compare (junk : ℕ) (h : CompareText c l)
    (parse : List Char → Except Stop (Option Node)) :
    ∃ b₁ b₂ b₃ v b₄, wholeMatch baseExpr l =
        some [b₁, c.member.name.toList, b₂, c.op.text, b₃, v, b₄] ∧
      (∀ (t : Connective) l', (∀ ch ∈ l', isAny ch) → wholeMatch baseAndRest (l ++ t.char :: l') =
        some [b₁, c.member.name.toList, b₂, c.op.text, b₃, v, b₄, [t.char], l']) ∧
      baseNode junk parse c.member.name.toList c.op.text v = .ok (some (.expr c.field)) := by
  obtain ⟨h₁, h₂, h₃, h₄, hv⟩ := h
  rename_i b₁ b₂ b₃ b₄ v
  refine ⟨b₁, b₂, b₃, v, b₄, ?_, fun t l' hl' => ?_, ?_⟩
  · have hmatch := wholeMatch_compare h₁ h₂ h₃ h₄ hv stops_nil stops_nil
      (rfl : wholeMatch [] [] = some [])
    rwa [List.append_nil, List.append_nil, List.append_nil] at hmatch
  · have hchar : isSpace t.char = false ∧ isValueChar t.char = false := by cases t <;> decide
    exact wholeMatch_compare h₁ h₂ h₃ h₄ hv (stops_cons hchar.1) (stops_cons hchar.2)
      (wholeMatch_connective t (wholeMatch_many_last hl' (Nat.zero_le _)))
  · rw [baseNode, getField_compare junk c hv]

theorem setOp_char (t : Connective) : setOp [t.char] = t.type := by
  cases t <;> rfl

/-- A text with something that is not in a base expression. -/
theorem wholeMatch_baseExpr_eq_none (ch : Char) (hch : ch ∈ l) (h : isBaseChar ch = false) :
    wholeMatch baseExpr l = none := by
  rw [Option.eq_none_iff_forall_not_mem]
  intro ts hts
  rw [isBaseChar_of_wholeMatch hts ch hch] at h
  cases h

/-- The left node of a comparison with something behind it. -/
theorem leftNode_compare (t : Connective) (h : CompareText c l) {l' : List Char}
    (hl' : ∀ ch ∈ l', isAny ch) (parse : List Char → Except Stop (Option Node)) :
    leftNode junk parse n (l ++ t.char :: l') = .ok (some (.expr c.field, [t.char], l')) := by
  obtain ⟨b₁, b₂, b₃, v, b₄, -, hmatch, hnode⟩ := baseNode_compare junk h parse
  rw [leftNode, hmatch t l' hl']
  simp only [hnode, ok_bind]
  rfl

/-- The left node of an expression in brackets with something behind it. -/
theorem leftNode_bracket {b b' l' : List Char} (t : Connective) (hb : Gap b) (h : Text e l)
    (hb' : Gap b') (hl' : ∀ ch ∈ l', isAny ch)
    (hlen : (b ++ '(' :: (l ++ ')' :: (b' ++ t.char :: l'))).length < 2 ^ 32)
    (hn : (b ++ '(' :: (l ++ ')' :: (b' ++ t.char :: l'))).length < n)
    {parse : List Char → Except Stop (Option Node)} (hparse : parse l = .ok (some e.node)) :
    leftNode junk parse n (b ++ '(' :: (l ++ ')' :: (b' ++ t.char :: l'))) =
      .ok (some (e.node, [t.char], l')) := by
  have hnone : wholeMatch baseAndRest (b ++ '(' :: (l ++ ')' :: (b' ++ t.char :: l'))) = none := by
    rw [Option.eq_none_iff_forall_not_mem]
    intro ts hts
    have hfirst := isFieldChar_of_wholeMatch hts '(' (by
      rw [dropWhile_append_of_stops hb.blank (stops_cons rfl)]
      rfl)
    cases hfirst
  rw [leftNode, hnone]
  simp only []
  rw [bracketNode_of_closed hb.blank hlen hn (h.balanced.toClose _), hparse, ok_bind,
    Option.map_some, rightOf_eq t hb' hl']
  rfl

/-- **Parsing.** The tree of an expression is parsed from each of its texts. -/
theorem parse_text (ht : Text e l) (hlen : l.length < 2 ^ 32) (hn : l.length + 3 ≤ n) :
    parse junk n l = .ok (some e.node) := by
  induction n generalizing e l with
  | zero => omega
  | succ n ih =>
    obtain ⟨l₀, hl₀, hle, hstrip⟩ := ht.strip hlen
    have hstrip := hstrip n (by omega)
    have hlen₀ : l₀.length < 2 ^ 32 := hle.trans_lt hlen
    have hn₀ : l₀.length < n := by omega
    cases hl₀ with
    | compare h =>
      obtain ⟨b₁, b₂, b₃, v, b₄, hmatch, -, hnode⟩ := baseNode_compare junk h (parse junk n)
      rw [parse_of_base hstrip hmatch, hnode, Expr.node]
    | @connectCompare c e l₁ l' t h h' =>
      have hnone : wholeMatch baseExpr (l₁ ++ t.char :: l') = none :=
        wholeMatch_baseExpr_eq_none t.char (by simp) t.isBaseChar_char
      have hleft : leftNode junk (parse junk n) n (l₁ ++ t.char :: l') =
          .ok (some (.expr c.field, [t.char], l')) := leftNode_compare t h h'.isAny _
      rw [List.length_append, List.length_cons] at hle
      have hright : parse junk n l' = .ok (some e.node) := ih h' (by omega) (by omega)
      rw [parse_of_sons hstrip hnone hleft hright, setOp_char, Expr.node, Expr.node]
    | @connectBracket e e' b l₁ b' l' t hb h hb' h' =>
      have hnone : wholeMatch baseExpr (b ++ '(' :: (l₁ ++ ')' :: (b' ++ t.char :: l'))) = none :=
        wholeMatch_baseExpr_eq_none '(' (by simp) rfl
      rw [length_closed, List.length_append, List.length_cons] at hle
      have hinside : parse junk n l₁ = .ok (some e.node) := ih h (by omega) (by omega)
      have hright : parse junk n l' = .ok (some e'.node) := ih h' (by omega) (by omega)
      have hleft : leftNode junk (parse junk n) n
          (b ++ '(' :: (l₁ ++ ')' :: (b' ++ t.char :: l'))) = .ok (some (e.node, [t.char], l')) :=
        leftNode_bracket t hb h hb' h'.isAny hlen₀ hn₀ hinside
      rw [parse_of_sons hstrip hnone hleft hright, setOp_char, Expr.node]

end Parse

/-! ### The value of a tree -/

section Test

variable {e : Expr} {c : Comparison} {text : List Char} {tr : TraceFormat}

/-- The low byte of a number. -/
theorem load_one (a : ℕ) (l : Bytes) : load 1 a l = load 2 a l % 256 := by
  rw [load, load]
  rcases l.drop a with _ | ⟨b, l⟩
  · rfl
  · have hb := b.toNat_lt
    rcases l with _ | ⟨b', l⟩
    · simp [decode, Nat.mod_eq_of_lt hb]
    · simp [decode, Nat.mod_eq_of_lt hb]

/-- All members but one are compared with all their bytes. -/
theorem Comparison.test_field_of_ne (h : c.member ≠ .ackFlags) : c.field.test tr = c.eval tr := by
  have hbytes : comparedBytes c.member = c.member.bytes := if_neg h
  rw [Field.test, Comparison.field]
  simp only [hbytes, Nat.mod_eq_of_lt c.inRange]
  rfl

theorem Comparison.test_field_of_eq (h : c.member = .ackFlags) :
    c.field.test tr = c.op.test (c.member.read tr % 256) (c.value % 256) := by
  have hbytes : comparedBytes c.member = 1 := if_pos h
  rw [Field.test, Comparison.field]
  simp only [hbytes, pow_one, load_one, Member.read]
  rw [h]
  rfl

theorem Expr.eval_eq_value (e : Expr) : e.eval tr = e.value fun c => c.eval tr := by
  induction e with
  | compare c => rfl
  | connect t left right ihl ihr => rw [eval, value, ihl, ihr]

theorem Expr.test_node_eq_value (e : Expr) : e.node.test tr = e.value fun c => c.field.test tr := by
  induction e with
  | compare c => rfl
  | connect t left right ihl ihr =>
    cases t <;> simp only [node, Connective.type, Node.test, value, ihl, ihr] <;> rfl

/-- Only the values of the comparisons in the expression matter. -/
theorem Expr.value_congr {v w : Comparison → Bool} (h : ∀ c ∈ e.comparisons, v c = w c) :
    e.value v = e.value w := by
  induction e with
  | compare c => exact h c List.mem_cons_self
  | connect t left right ihl ihr =>
    rw [value, value, ihl fun c hc => h c (List.mem_append_left _ hc),
      ihr fun c hc => h c (List.mem_append_right _ hc)]

/-- A tree has the value of the expression if its fields have those of the comparisons. -/
theorem Expr.test_node (h : ∀ c ∈ e.comparisons, c.field.test tr = c.eval tr) :
    e.node.test tr = e.eval tr := by
  rw [test_node_eq_value, eval_eq_value]
  exact value_congr h

/-- `ack.flags` is compared, with another result for the low bytes of the member and the number. -/
def Comparison.Misread (c : Comparison) (tr : TraceFormat) : Prop :=
  c.member = .ackFlags ∧
    c.op.test (c.member.read tr % 256) (c.value % 256) ≠ c.op.test (c.member.read tr) c.value

theorem Comparison.test_field_iff : c.field.test tr = c.eval tr ↔ ¬c.Misread tr := by
  by_cases hmember : c.member = .ackFlags
  · rw [test_field_of_eq hmember]
    exact ⟨fun heq hbad => hbad.2 heq, fun h => not_ne_iff.1 fun hne => h ⟨hmember, hne⟩⟩
  · exact iff_of_true (test_field_of_ne hmember) fun hbad => hmember hbad.1

/-- The misread comparisons do not matter: whatever they are taken to give, the expression has the
same value. -/
def Expr.Unswayed (e : Expr) (tr : TraceFormat) : Prop :=
  ∀ v : Comparison → Bool, (∀ c ∈ e.comparisons, ¬c.Misread tr → v c = c.eval tr) →
    e.value v = e.eval tr

/-- The text is parsed, and the tree has the value of the expression. -/
def Means (junk : ℕ) (e : Expr) (text : List Char) (tr : TraceFormat) : Prop :=
  ∃ node, (∀ n, text.length + 3 ≤ n → parse junk n text = .ok (some node)) ∧
    node.test tr = e.eval tr

theorem means_iff_test (junk : ℕ) (htext : Text e text) (hlen : text.length < 2 ^ 32) :
    Means junk e text tr ↔ e.node.test tr = e.eval tr := by
  constructor
  · rintro ⟨node, hparse, htest⟩
    have hnode := (hparse _ le_rfl).symm.trans (parse_text htext hlen le_rfl)
    obtain rfl := Option.some.inj (Except.ok.inj hnode)
    exact htest
  · exact fun h => ⟨_, fun n hn => parse_text htext hlen hn, h⟩

/-- What is read right or does not matter has no effect on the test. -/
theorem Expr.Unswayed.test_node (h : e.Unswayed tr) : e.node.test tr = e.eval tr := by
  rw [test_node_eq_value]
  exact h _ fun c _ hc => Comparison.test_field_iff.2 hc

/-- If one comparison at most is misread, what it gives can matter only by making the test wrong. -/
theorem Expr.unswayed_of_test_node
    (hone : ∀ c ∈ e.comparisons, ∀ d ∈ e.comparisons, c.Misread tr → d.Misread tr → c = d)
    (htest : e.node.test tr = e.eval tr) : e.Unswayed tr := by
  intro v hv
  by_cases heq : ∀ c ∈ e.comparisons, v c = c.eval tr
  · rw [eval_eq_value]
    exact value_congr heq
  · -- the value given to a misread comparison is the one that the test finds
    simp only [not_forall, exists_prop] at heq
    obtain ⟨d, hd, hne⟩ := heq
    have hmis : d.Misread tr := by
      by_contra hmis
      exact hne (hv d hd hmis)
    rw [← htest, test_node_eq_value]
    refine value_congr fun c hc => ?_
    by_cases hc' : c.Misread tr
    · obtain rfl := hone c hc d hd hc' hmis
      have hfield : c.field.test tr ≠ c.eval tr := fun h => Comparison.test_field_iff.1 h hmis
      exact (Bool.eq_not_of_ne hne).trans (Bool.eq_not_of_ne hfield).symm
    · rw [hv c hc hc', Comparison.test_field_iff.2 hc']

/-- **The filter means what it says** if the comparisons of `ack.flags` that are misread do not
matter. With no more than one such comparison this is also necessary. -/
theorem means_of_unswayed (junk : ℕ) (htext : Text e text) (hlen : text.length < 2 ^ 32)
    (tr : TraceFormat) :
    (e.Unswayed tr → Means junk e text tr) ∧
      ((∀ c ∈ e.comparisons, ∀ d ∈ e.comparisons, c.Misread tr → d.Misread tr → c = d) →
        (Means junk e text tr ↔ e.Unswayed tr)) := by
  rw [means_iff_test junk htext hlen]
  exact ⟨Expr.Unswayed.test_node, fun hone =>
    ⟨Expr.unswayed_of_test_node hone, Expr.Unswayed.test_node⟩⟩

/-- `ack.flags=1`. -/
def flagsAreOne : Comparison where
  member := .ackFlags
  op := .eq
  value := 1
  mem := by decide
  inRange := by decide
  small := by decide

/-- `node=5`. -/
def nodeIsFive : Comparison where
  member := .node
  op := .eq
  value := 5
  mem := by decide
  inRange := by decide
  small := by decide

/-- A record whose `ack.flags` are `0x0101`. -/
def twoFlags : TraceFormat where
  bytes := List.replicate 36 0 ++ [1, 1] ++ List.replicate 18 0
  size := rfl

/-- The text of a comparison without blanks. -/
theorem compareText_plain (c : Comparison) :
    CompareText c (c.member.name.toList ++ (c.op.text ++ digits c.value)) := by
  have hgap : Gap [] := List.forall_mem_nil _
  have htext := CompareText.mk hgap hgap hgap hgap (.decimal c.value)
  simpa using htext

/-- The record is from node 0: what the test of `ack.flags` gives does not matter. -/
theorem means_node_and_flags :
    Means 0 (.connect .and (.compare nodeIsFive) (.compare flagsAreOne))
      "(node=5)&ack.flags=1".toList twoFlags := by
  have hgap : Gap [] := List.forall_mem_nil _
  have htext : Text (.connect .and (.compare nodeIsFive) (.compare flagsAreOne))
      "(node=5)&ack.flags=1".toList :=
    .connectBracket .and hgap (.compare (compareText_plain nodeIsFive)) hgap
      (.compare (compareText_plain flagsAreOne))
  refine (means_of_unswayed 0 htext (by decide) twoFlags).1 fun v hv => ?_
  have hnode : v nodeIsFive = nodeIsFive.eval twoFlags :=
    hv nodeIsFive List.mem_cons_self fun hbad => absurd hbad.1 (by decide)
  have hfalse : nodeIsFive.eval twoFlags = false := by decide
  simp [Expr.value, Expr.eval, Connective.eval, hnode, hfalse]

/-- The filter `ack.flags=1` accepts the record. -/
theorem not_means_flagsAreOne :
    ¬Means 0 (.compare flagsAreOne) "ack.flags=1".toList twoFlags := by
  have htext : Text (.compare flagsAreOne) "ack.flags=1".toList :=
    .compare (compareText_plain flagsAreOne)
  rw [means_iff_test 0 htext (by decide)]
  decide

end Test

end TraceFilter

end HpccSim
