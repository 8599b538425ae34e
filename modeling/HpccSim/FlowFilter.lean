import HpccSim.FilterParse

/-!
# The shorthands of a filter

`flow`, `rflow`, `biflow` and `queue` stand for longer expressions, which are printed with the given
values and parsed. What is printed is a text of the expression that is meant, so that the shorthand
selects a flow in one direction or in both, or a queue.

## Main definitions

* `TraceFilter.IsFlow`, `TraceFilter.IsQueue`: what is to be selected.
* `TraceFilter.flowExpr`, `TraceFilter.biflowExpr`, `TraceFilter.queueExpr`: the expressions.
* `TraceFilter.Accepts`: a text is parsed, and its tree accepts the given records.

## Main results

* `TraceFilter.text_flow`, `TraceFilter.text_biflow`, `TraceFilter.text_queue`: what is printed.
* `TraceFilter.shorthands`: what the shorthands select, and that the buffer is large enough.
-/

namespace HpccSim

namespace TraceFilter

open ByteOrder Decimal Pattern

/-! ### What is selected -/

/-- The ports of a record, at the place of its protocol. -/
def ports (tr : TraceFormat) : Option (ℕ × ℕ) :=
  if Member.l3Prot.read tr = 0x11 then some (Member.dataSport.read tr, Member.dataDport.read tr)
  else if Member.l3Prot.read tr = 0xFC ∨ Member.l3Prot.read tr = 0xFD then
    some (Member.ackSport.read tr, Member.ackDport.read tr)
  else if Member.l3Prot.read tr = 0x0 then
    some (Member.qpSport.read tr, Member.qpDport.read tr)
  else none

/-- The record belongs to the flow. -/
def IsFlow (sip dip sport dport : ℕ) (tr : TraceFormat) : Prop :=
  Member.sip.read tr = sip ∧ Member.dip.read tr = dip ∧ ports tr = some (sport, dport)

/-- The record belongs to the queue. -/
def IsQueue (node intf qidx : ℕ) (tr : TraceFormat) : Prop :=
  Member.node.read tr = node ∧ Member.intf.read tr = intf ∧ Member.qidx.read tr = qidx

/-! ### The expressions -/

section Expressions

/-- The member has the value. -/
def equals (m : Member) (v : ℕ) (hm : m ∈ fieldClasses.map Prod.fst ∧ m.bytes ≤ 4)
    (hv : v < 256 ^ m.bytes) : Comparison where
  member := m
  op := .eq
  value := v
  mem := hm.1
  inRange := hv
  small := hv.trans_le ((Nat.pow_le_pow_right (by decide) hm.2).trans (by decide))

variable (sip dip : UInt32) (sport dport : UInt16)

/-- The protocol and the ports of a record. -/
def portsExpr (prot : Expr) (ms md : Member)
    (hs : ms ∈ fieldClasses.map Prod.fst ∧ ms.bytes = 2)
    (hd : md ∈ fieldClasses.map Prod.fst ∧ md.bytes = 2) : Expr :=
  .connect .and prot (.connect .and
    (.compare (equals ms sport.toNat ⟨hs.1, by omega⟩ (by rw [hs.2]; exact sport.toNat_lt)))
    (.compare (equals md dport.toNat ⟨hd.1, by omega⟩ (by rw [hd.2]; exact dport.toNat_lt))))

/-- The comparison of the protocol. -/
def protExpr (prot : ℕ) (h : prot < 256) : Expr :=
  .compare (equals .l3Prot prot (by decide) (by simpa [Member.l3Prot] using h))

/-- The expression for `flow`. -/
def flowExpr : Expr :=
  .connect .and (.compare (equals .sip sip.toNat (by decide) sip.toNat_lt))
    (.connect .and (.compare (equals .dip dip.toNat (by decide) dip.toNat_lt))
      (.connect .or
        (portsExpr sport dport (protExpr 17 (by decide)) .dataSport .dataDport (by decide)
          (by decide))
        (.connect .or
          (portsExpr sport dport
            (.connect .or (protExpr 252 (by decide)) (protExpr 253 (by decide)))
            .ackSport .ackDport (by decide) (by decide))
          (portsExpr sport dport (protExpr 0 (by decide)) .qpSport .qpDport (by decide)
            (by decide)))))

/-- The expression for `biflow`. -/
def biflowExpr : Expr :=
  .connect .or (flowExpr sip dip sport dport) (flowExpr dip sip dport sport)

/-- The expression for `queue`. -/
def queueExpr (node : UInt16) (intf qidx : UInt8) : Expr :=
  .connect .and (.compare (equals .node node.toNat (by decide) node.toNat_lt))
    (.connect .and (.compare (equals .intf intf.toNat (by decide) intf.toNat_lt))
      (.compare (equals .qidx qidx.toNat (by decide) qidx.toNat_lt)))

end Expressions

/-! ### What is printed -/

section Printed

variable {fmt l : List Char} {v : ℕ} {args : List ℕ}

theorem sprintf_nil : sprintf [] args = [] := by
  rw [sprintf]

theorem sprintf_cons {c : Char} (hc : c ≠ '%') :
    sprintf (c :: fmt) args = c :: sprintf fmt args := by
  rw [sprintf]
  · exact fun _ _ _ _ h => absurd h hc
  · exact fun _ _ _ _ h => absurd h hc

theorem sprintf_append (hl : '%' ∉ l) : sprintf (l ++ fmt) args = l ++ sprintf fmt args := by
  induction l with
  | nil => rfl
  | cons c l ih =>
    obtain ⟨hc, hl⟩ := List.ne_and_not_mem_of_not_mem_cons hl
    rw [List.cons_append, sprintf_cons hc.symm, ih hl, List.cons_append]

theorem sprintf_u : sprintf ('%' :: 'u' :: fmt) (v :: args) = digits v ++ sprintf fmt args := rfl

theorem sprintf_hu :
    sprintf ('%' :: 'h' :: 'u' :: fmt) (v :: args) = digits v ++ sprintf fmt args := rfl

/-- The names of the members in a format. -/
theorem flowFormat_eq : flowFormat =
    Member.sip.name.toList ++ '=' :: '%' :: 'u' :: '&' :: (Member.dip.name.toList ++
      '=' :: '%' :: 'u' :: '&' :: '(' :: '(' :: (Member.l3Prot.name.toList ++
        '=' :: '1' :: '7' :: '&' :: (Member.dataSport.name.toList ++
          '=' :: '%' :: 'h' :: 'u' :: '&' :: (Member.dataDport.name.toList ++
            '=' :: '%' :: 'h' :: 'u' :: ')' :: '|' :: '(' :: '(' :: (Member.l3Prot.name.toList ++
              '=' :: '0' :: 'x' :: 'F' :: 'C' :: '|' :: (Member.l3Prot.name.toList ++
                '=' :: '0' :: 'x' :: 'F' :: 'D' :: ')' :: '&' :: (Member.ackSport.name.toList ++
                  '=' :: '%' :: 'h' :: 'u' :: '&' :: (Member.ackDport.name.toList ++
                    '=' :: '%' :: 'h' :: 'u' :: ')' :: '|' :: '(' :: (Member.l3Prot.name.toList ++
                      '=' :: '0' :: 'x' :: '0' :: '&' :: (Member.qpSport.name.toList ++
                        '=' :: '%' :: 'h' :: 'u' :: '&' :: (Member.qpDport.name.toList ++
                          ['=', '%', 'h', 'u', ')', ')']))))))))))) := by
  decide +kernel

theorem biflowFormat_eq : biflowFormat =
    '(' :: (flowFormat ++ ')' :: '|' :: '(' :: (flowFormat ++ [')'])) := by
  have hopen : "(".toList = ['('] := rfl
  have hmiddle : ")|(".toList = [')', '|', '('] := rfl
  have hclose : ")".toList = [')'] := rfl
  rw [biflowFormat, hopen, hmiddle, hclose]
  simp only [List.append_assoc, List.cons_append, List.nil_append]

theorem queueFormat_eq : queueFormat =
    Member.node.name.toList ++ '=' :: '%' :: 'u' :: '&' :: (Member.intf.name.toList ++
      '=' :: '%' :: 'u' :: '&' :: (Member.qidx.name.toList ++ ['=', '%', 'u'])) := by
  decide +kernel

/-- The printed values between the names, with more of the format behind them. -/
theorem sprintf_flow (a b c d e f g h : ℕ) :
    sprintf (flowFormat ++ fmt) (a :: b :: c :: d :: e :: f :: g :: h :: args) =
    Member.sip.name.toList ++ '=' :: (digits a ++ '&' :: (Member.dip.name.toList ++
      '=' :: (digits b ++ '&' :: '(' :: '(' :: (Member.l3Prot.name.toList ++
        '=' :: '1' :: '7' :: '&' :: (Member.dataSport.name.toList ++
          '=' :: (digits c ++ '&' :: (Member.dataDport.name.toList ++
            '=' :: (digits d ++ ')' :: '|' :: '(' :: '(' :: (Member.l3Prot.name.toList ++
              '=' :: '0' :: 'x' :: 'F' :: 'C' :: '|' :: (Member.l3Prot.name.toList ++
                '=' :: '0' :: 'x' :: 'F' :: 'D' :: ')' :: '&' :: (Member.ackSport.name.toList ++
                  '=' :: (digits e ++ '&' :: (Member.ackDport.name.toList ++
                    '=' :: (digits f ++ ')' :: '|' :: '(' :: (Member.l3Prot.name.toList ++
                      '=' :: '0' :: 'x' :: '0' :: '&' :: (Member.qpSport.name.toList ++
                        '=' :: (digits g ++ '&' :: (Member.qpDport.name.toList ++
                          '=' :: (digits h ++
                            ')' :: ')' :: sprintf fmt args))))))))))))))))))) := by
  rw [flowFormat_eq]
  simp (disch := decide) only [List.append_assoc, List.cons_append, List.nil_append,
    sprintf_append, sprintf_cons, sprintf_u, sprintf_hu]

theorem sprintf_flow_append (a b c d e f g h : ℕ) :
    sprintf (flowFormat ++ fmt) (a :: b :: c :: d :: e :: f :: g :: h :: args) =
      sprintf flowFormat [a, b, c, d, e, f, g, h] ++ sprintf fmt args := by
  have hprint : sprintf (flowFormat ++ []) [a, b, c, d, e, f, g, h] = _ :=
    sprintf_flow a b c d e f g h
  rw [List.append_nil] at hprint
  rw [sprintf_flow, hprint]
  simp only [List.append_assoc, List.cons_append, sprintf, List.nil_append]

theorem sprintf_queue (a b c : ℕ) : sprintf queueFormat [a, b, c] =
    Member.node.name.toList ++ '=' :: (digits a ++ '&' :: (Member.intf.name.toList ++
      '=' :: (digits b ++ '&' :: (Member.qidx.name.toList ++ '=' :: digits c)))) := by
  rw [queueFormat_eq]
  simp (disch := decide) only [sprintf_append, sprintf_cons, sprintf_u, sprintf, List.append_nil]

end Printed

/-! ### The printed texts -/

section Texts

theorem gap_nil : Gap [] := fun _ hc => nomatch hc

/-- The text of an equality without blanks. -/
theorem compareText_equals {m : Member} {v : ℕ} {hm : m ∈ fieldClasses.map Prod.fst ∧ m.bytes ≤ 4}
    {hv : v < 256 ^ m.bytes} {l : List Char} (h : Literal v l) :
    CompareText (equals m v hm hv) (m.name.toList ++ '=' :: l) := by
  have htext := CompareText.mk (c := equals m v hm hv) gap_nil gap_nil gap_nil gap_nil h
  rwa [List.append_nil] at htext

theorem text_equals {m : Member} {v : ℕ} {hm : m ∈ fieldClasses.map Prod.fst ∧ m.bytes ≤ 4}
    {hv : v < 256 ^ m.bytes} {l l' : List Char} {e : Expr} (t : Connective) (h : Literal v l)
    (h' : Text e l') : Text (.connect t (.compare (equals m v hm hv)) e)
      (m.name.toList ++ '=' :: (l ++ t.char :: l')) := by
  have hcompare : CompareText (equals m v hm hv) _ := compareText_equals h
  have htext := Text.connectCompare t hcompare h'
  rwa [List.append_assoc, List.cons_append] at htext

/-- The text of the ports. -/
theorem text_ports {ms md : Member} {sport dport : UInt16} {hs hd hs' hd'} :
    Text (.connect .and (.compare (equals ms sport.toNat hs hs'))
        (.compare (equals md dport.toNat hd hd')))
      (ms.name.toList ++ '=' :: (digits sport.toNat ++ '&' :: (md.name.toList ++
        '=' :: digits dport.toNat))) :=
  text_equals .and (.decimal _) (.compare (compareText_equals (.decimal _)))

/-- The texts of the protocols. -/
theorem literal_seventeen : Literal 17 ['1', '7'] := Literal.decimal 17

theorem literal_zero : Literal 0 ['0', 'x', '0'] :=
  .hex ['0'] (by decide) (List.all_eq_true.1 rfl)

theorem literal_fc : Literal 252 ['0', 'x', 'F', 'C'] :=
  .hex ['F', 'C'] (by decide) (List.all_eq_true.1 rfl)

theorem literal_fd : Literal 253 ['0', 'x', 'F', 'D'] :=
  .hex ['F', 'D'] (by decide) (List.all_eq_true.1 rfl)

/-- What is printed for `flow`. -/
def flowText (sip dip : UInt32) (sport dport : UInt16) : List Char :=
  sprintf flowFormat [sip.toNat, dip.toNat, sport.toNat, dport.toNat, sport.toNat, dport.toNat,
    sport.toNat, dport.toNat]

/-- What is printed for `biflow`. -/
def biflowText (sip dip : UInt32) (sport dport : UInt16) : List Char :=
  sprintf biflowFormat [sip.toNat, dip.toNat, sport.toNat, dport.toNat, sport.toNat, dport.toNat,
    sport.toNat, dport.toNat, dip.toNat, sip.toNat, dport.toNat, sport.toNat, dport.toNat,
    sport.toNat, dport.toNat, sport.toNat]

/-- What is printed for `queue`. -/
def queueText (node : UInt16) (intf qidx : UInt8) : List Char :=
  sprintf queueFormat [node.toNat, intf.toNat, qidx.toNat]

/-- The format, with nothing behind it. -/
theorem flowText_eq (sip dip : UInt32) (sport dport : UInt16) :
    flowText sip dip sport dport = sprintf (flowFormat ++ []) [sip.toNat, dip.toNat, sport.toNat,
      dport.toNat, sport.toNat, dport.toNat, sport.toNat, dport.toNat] := by
  rw [flowText, List.append_nil]

theorem biflowText_eq (sip dip : UInt32) (sport dport : UInt16) :
    biflowText sip dip sport dport = '(' :: (flowText sip dip sport dport ++ ')' :: '|' :: '(' ::
      (flowText dip sip dport sport ++ [')'])) := by
  rw [biflowText, biflowFormat_eq, sprintf_cons (by decide), sprintf_flow_append,
    sprintf_cons (by decide), sprintf_cons (by decide), sprintf_cons (by decide),
    sprintf_flow_append, sprintf_cons (by decide), sprintf_nil, flowText, flowText]

/-- **What is printed for `flow`** is a text of the expression. -/
theorem text_flow (sip dip : UInt32) (sport dport : UInt16) :
    Text (flowExpr sip dip sport dport) (flowText sip dip sport dport) := by
  have hdata : Text (portsExpr sport dport (protExpr 17 (by decide)) .dataSport .dataDport
      (by decide) (by decide)) _ := text_equals .and literal_seventeen text_ports
  have hprot : Text (.connect .or (protExpr 252 (by decide)) (protExpr 253 (by decide))) _ :=
    text_equals .or literal_fc (.compare (compareText_equals literal_fd))
  have hack : Text (portsExpr sport dport (.connect .or (protExpr 252 (by decide))
      (protExpr 253 (by decide))) .ackSport .ackDport (by decide) (by decide)) _ :=
    Text.connectBracket .and gap_nil hprot gap_nil text_ports
  have hqp : Text (portsExpr sport dport (protExpr 0 (by decide)) .qpSport .qpDport
      (by decide) (by decide)) _ := text_equals .and literal_zero text_ports
  have htext : Text (flowExpr sip dip sport dport) _ :=
    text_equals .and (.decimal _) (text_equals .and (.decimal _) (.bracket gap_nil
      (.connectBracket .or gap_nil hdata gap_nil (.connectBracket .or gap_nil hack gap_nil
        (.bracket gap_nil hqp gap_nil))) gap_nil))
  rw [flowText_eq, sprintf_flow]
  simpa only [List.append_assoc, List.cons_append, List.nil_append, List.append_nil,
    Connective.char, sprintf] using htext

theorem text_biflow (sip dip : UInt32) (sport dport : UInt16) :
    Text (biflowExpr sip dip sport dport) (biflowText sip dip sport dport) := by
  have htext := Text.connectBracket .or gap_nil (text_flow sip dip sport dport) gap_nil
    (.bracket gap_nil (text_flow dip sip dport sport) gap_nil)
  rw [biflowText_eq]
  rwa [List.nil_append, List.nil_append, List.nil_append] at htext

theorem text_queue (node : UInt16) (intf qidx : UInt8) :
    Text (queueExpr node intf qidx) (queueText node intf qidx) := by
  rw [queueText, sprintf_queue]
  exact text_equals .and (.decimal _) (text_equals .and (.decimal _)
    (.compare (compareText_equals (.decimal _))))

end Texts

/-! ### Values -/

section Values

variable {sip dip : UInt32} {sport dport : UInt16} {tr : TraceFormat}

theorem eval_flowExpr :
    (flowExpr sip dip sport dport).eval tr = true ↔
      IsFlow sip.toNat dip.toNat sport.toNat dport.toNat tr := by
  have hports : ports tr = some (sport.toNat, dport.toNat) ↔
      (Member.l3Prot.read tr = 17 ∧ Member.dataSport.read tr = sport.toNat ∧
        Member.dataDport.read tr = dport.toNat) ∨
      ((Member.l3Prot.read tr = 252 ∨ Member.l3Prot.read tr = 253) ∧
        Member.ackSport.read tr = sport.toNat ∧ Member.ackDport.read tr = dport.toNat) ∨
      (Member.l3Prot.read tr = 0 ∧ Member.qpSport.read tr = sport.toNat ∧
        Member.qpDport.read tr = dport.toNat) := by
    rw [ports]
    by_cases h₁ : Member.l3Prot.read tr = 17
    · simp [h₁]
    rcases em (Member.l3Prot.read tr = 252) with h₂ | h₂
    · simp [h₂]
    rcases em (Member.l3Prot.read tr = 253) with h₃ | h₃
    · simp [h₃]
    · simp [h₁, h₂, h₃]
  simp [flowExpr, portsExpr, protExpr, equals, Expr.eval, Comparison.eval, Op.test,
    Connective.eval, IsFlow, hports]

theorem eval_queueExpr {node : UInt16} {intf qidx : UInt8} :
    (queueExpr node intf qidx).eval tr = true ↔
      IsQueue node.toNat intf.toNat qidx.toNat tr := by
  simp [queueExpr, equals, Expr.eval, Comparison.eval, Op.test, Connective.eval, IsQueue]

theorem eval_biflowExpr :
    (biflowExpr sip dip sport dport).eval tr = true ↔
      IsFlow sip.toNat dip.toNat sport.toNat dport.toNat tr ∨
        IsFlow dip.toNat sip.toNat dport.toNat sport.toNat tr := by
  rw [← eval_flowExpr, ← eval_flowExpr, ← Bool.or_eq_true]
  rfl

/-- A tree has the value of the expression if no `ack.flags` are compared. -/
theorem test_node_of_notMem {e : Expr}
    (h : Member.ackFlags ∉ e.comparisons.map Comparison.member) :
    e.node.test tr = e.eval tr := by
  refine Expr.test_node fun c hc => Comparison.test_field_of_ne ?_
  rintro heq
  exact h (heq ▸ List.mem_map_of_mem hc)

theorem notMem_flowExpr : Member.ackFlags ∉
    (flowExpr sip dip sport dport).comparisons.map Comparison.member := by
  have hmembers : (flowExpr sip dip sport dport).comparisons.map Comparison.member =
      [.sip, .dip, .l3Prot, .dataSport, .dataDport, .l3Prot, .l3Prot, .ackSport, .ackDport,
        .l3Prot, .qpSport, .qpDport] := rfl
  rw [hmembers]
  decide

theorem notMem_biflowExpr : Member.ackFlags ∉
    (biflowExpr sip dip sport dport).comparisons.map Comparison.member := by
  rw [biflowExpr, Expr.comparisons, List.map_append, List.mem_append]
  exact not_or.2 ⟨notMem_flowExpr, notMem_flowExpr⟩

theorem notMem_queueExpr {node : UInt16} {intf qidx : UInt8} : Member.ackFlags ∉
    (queueExpr node intf qidx).comparisons.map Comparison.member := by
  have hmembers : (queueExpr node intf qidx).comparisons.map Comparison.member =
      [.node, .intf, .qidx] := rfl
  rw [hmembers]
  decide

end Values

/-! ### The arguments -/

section Arguments

/-- The values of a conversion are less than this. -/
def Conv.bound : Conv → ℕ
  | li => 2 ^ 63
  | i => 2 ^ 32
  | hu => 2 ^ 16
  | hhu => 2 ^ 8

theorem Conv.read_lt {conv : Conv} {l : List Char} {r : ℕ × List Char}
    (h : conv.read l = some r) : r.1 < conv.bound := by
  cases conv with
  | li =>
    obtain ⟨r, -, rfl⟩ := Option.map_eq_some_iff.1 h
    exact (Nat.min_le_right _ _).trans_lt (by decide)
  | i =>
    obtain ⟨r, -, rfl⟩ := Option.map_eq_some_iff.1 h
    exact Nat.mod_lt _ (by decide)
  | hu =>
    obtain ⟨r, -, rfl⟩ := Option.map_eq_some_iff.1 h
    exact Nat.mod_lt _ (by decide)
  | hhu =>
    obtain ⟨r, -, rfl⟩ := Option.map_eq_some_iff.1 h
    exact Nat.mod_lt _ (by decide)

/-- All values that are read are in range. -/
theorem sscanf_lt {convs : List Conv} {l : List Char} {vs : List ℕ}
    (h : sscanf convs l = some vs) : List.Forall₂ (fun v conv => v < conv.bound) vs convs := by
  induction convs generalizing l vs with
  | nil =>
    obtain rfl := Option.some.inj h
    exact .nil
  | cons conv convs ih =>
    cases convs with
    | nil =>
      obtain ⟨r, hr, rfl⟩ := Option.map_eq_some_iff.1 h
      exact .cons (Conv.read_lt hr) .nil
    | cons conv' convs =>
      obtain ⟨r, hr, h⟩ := Option.bind_eq_some_iff.1 h
      obtain ⟨rest, -, h⟩ := Option.bind_eq_some_iff.1 h
      obtain ⟨vs, hvs, h⟩ := Option.bind_eq_some_iff.1 h
      obtain rfl := Option.some.inj h
      exact .cons (Conv.read_lt hr) (ih hvs)

theorem sscanf_flow_cases {l : List Char} {vs : List ℕ}
    (h : sscanf [.i, .i, .hu, .hu] l = some vs) : ∃ (sip dip : UInt32) (sport dport : UInt16),
      vs = [sip.toNat, dip.toNat, sport.toNat, dport.toNat] := by
  have hlt := sscanf_lt h
  clear h
  obtain ⟨a, vs₁, ha, h₁, rfl⟩ := List.forall₂_cons_right_iff.1 hlt
  obtain ⟨b, vs₂, hb, h₂, rfl⟩ := List.forall₂_cons_right_iff.1 h₁
  obtain ⟨c, vs₃, hc, h₃, rfl⟩ := List.forall₂_cons_right_iff.1 h₂
  obtain ⟨d, vs₄, hd, h₄, rfl⟩ := List.forall₂_cons_right_iff.1 h₃
  obtain rfl := List.forall₂_nil_right_iff.1 h₄
  refine ⟨.ofNat a, .ofNat b, .ofNat c, .ofNat d, ?_⟩
  rw [UInt32.toNat_ofNat_of_lt' ha, UInt32.toNat_ofNat_of_lt' hb, UInt16.toNat_ofNat_of_lt' hc,
    UInt16.toNat_ofNat_of_lt' hd]

theorem sscanf_queue_cases {l : List Char} {vs : List ℕ}
    (h : sscanf [.hu, .hhu, .hhu] l = some vs) : ∃ (node : UInt16) (intf qidx : UInt8),
      vs = [node.toNat, intf.toNat, qidx.toNat] := by
  have hlt := sscanf_lt h
  clear h
  obtain ⟨a, vs₁, ha, h₁, rfl⟩ := List.forall₂_cons_right_iff.1 hlt
  obtain ⟨b, vs₂, hb, h₂, rfl⟩ := List.forall₂_cons_right_iff.1 h₁
  obtain ⟨c, vs₃, hc, h₃, rfl⟩ := List.forall₂_cons_right_iff.1 h₂
  obtain rfl := List.forall₂_nil_right_iff.1 h₃
  refine ⟨.ofNat a, .ofNat b, .ofNat c, ?_⟩
  rw [UInt16.toNat_ofNat_of_lt' ha, UInt8.toNat_ofNat_of_lt' hb, UInt8.toNat_ofNat_of_lt' hc]

theorem expandFlow_cases {shorthand value buf : List Char}
    (h : expandFlow shorthand value = some buf) :
    (∃ sip dip sport dport, buf = flowText sip dip sport dport) ∨
      ∃ sip dip sport dport, buf = biflowText sip dip sport dport := by
  rw [expandFlow] at h
  cases hscan : sscanf [.i, .i, .hu, .hu] value with
  | none =>
    rw [hscan] at h
    cases h
  | some vs =>
    obtain ⟨sip, dip, sport, dport, rfl⟩ := sscanf_flow_cases hscan
    rw [hscan] at h
    simp only [] at h
    split_ifs at h
    · exact .inl ⟨sip, dip, sport, dport, (Option.some.inj h).symm⟩
    · exact .inr ⟨sip, dip, sport, dport, (Option.some.inj h).symm⟩
    · exact .inl ⟨dip, sip, dport, sport, (Option.some.inj h).symm⟩

theorem expandQueue_cases {value buf : List Char} (h : expandQueue value = some buf) :
    ∃ node intf qidx, buf = queueText node intf qidx := by
  rw [expandQueue] at h
  cases hscan : sscanf [.hu, .hhu, .hhu] value with
  | none =>
    rw [hscan] at h
    cases h
  | some vs =>
    obtain ⟨node, intf, qidx, rfl⟩ := sscanf_queue_cases hscan
    rw [hscan] at h
    exact ⟨node, intf, qidx, (Option.some.inj h).symm⟩

/-- **An expansion** is one of the printed texts. -/
theorem expansion_cases {shorthand op value buf : List Char}
    (h : expansion shorthand op value = some buf) :
    (∃ sip dip sport dport, buf = flowText sip dip sport dport) ∨
      (∃ sip dip sport dport, buf = biflowText sip dip sport dport) ∨
      ∃ node intf qidx, buf = queueText node intf qidx := by
  rw [expansion] at h
  split_ifs at h
  · exact (expandFlow_cases h).imp_right .inl
  · exact .inr (.inr (expandQueue_cases h))

/-- The lengths of the printed texts. -/
theorem length_flowText_le (sip dip : UInt32) (sport dport : UInt16) :
    (flowText sip dip sport dport).length ≤ 180 := by
  have hsip := length_digits_uint32 sip
  have hdip := length_digits_uint32 dip
  have hsport := length_digits_uint16 sport
  have hdport := length_digits_uint16 dport
  rw [flowText_eq, sprintf_flow]
  simp [Member.sip, Member.dip, Member.l3Prot, Member.dataSport, Member.dataDport,
    Member.ackSport, Member.ackDport, Member.qpSport, Member.qpDport, sprintf]
  omega

theorem length_biflowText_le (sip dip : UInt32) (sport dport : UInt16) :
    (biflowText sip dip sport dport).length ≤ 365 := by
  have hflow := length_flowText_le sip dip sport dport
  have hrflow := length_flowText_le dip sip dport sport
  rw [biflowText_eq]
  simp only [List.length_cons, List.length_append, List.length_nil]
  omega

theorem length_queueText_le (node : UInt16) (intf qidx : UInt8) :
    (queueText node intf qidx).length ≤ 100 := by
  have hnode := length_digits_uint16 node
  have hintf := length_digits_uint8 intf
  have hqidx := length_digits_uint8 qidx
  rw [queueText, sprintf_queue]
  simp [Member.node, Member.intf, Member.qidx]
  omega

/-- An expansion is a text of an expression, and has room in the buffer. -/
theorem text_expansion {shorthand op value buf : List Char}
    (h : expansion shorthand op value = some buf) : (∃ e, Text e buf) ∧ buf.length < 512 := by
  obtain ⟨sip, dip, sport, dport, hbuf⟩ | ⟨sip, dip, sport, dport, hbuf⟩ |
    ⟨node, intf, qidx, hbuf⟩ := expansion_cases h
  · rw [hbuf]
    exact ⟨⟨_, text_flow _ _ _ _⟩, (length_flowText_le _ _ _ _).trans_lt (by decide)⟩
  · rw [hbuf]
    exact ⟨⟨_, text_biflow _ _ _ _⟩, (length_biflowText_le _ _ _ _).trans_lt (by decide)⟩
  · rw [hbuf]
    exact ⟨⟨_, text_queue _ _ _⟩, (length_queueText_le _ _ _).trans_lt (by decide)⟩

end Arguments

/-! ### Shorthands -/

section Shorthands

variable {junk n : ℕ} {shorthand value buf : List Char} {e : Expr}

/-- The name of a shorthand, which is no member. -/
structure IsShorthand (shorthand : List Char) : Prop where
  ne_nil : shorthand ≠ []
  chars : ∀ c ∈ shorthand, isFieldChar c
  find? : fieldClasses.find? (fun c => c.1.name.toList = shorthand) = none

/-- **A shorthand is parsed** like its expansion. -/
theorem parse_shorthand (hshorthand : IsShorthand shorthand) (hvalue : value ≠ [])
    (hchars : ∀ c ∈ value, isValueChar c) (hlen : (shorthand ++ '=' :: value).length < 2 ^ 32)
    (hexpansion : expansion shorthand ['='] value = some buf) (htext : Text e buf)
    (hn : (shorthand ++ '=' :: value).length + 600 ≤ n) :
    parse junk n (shorthand ++ '=' :: value) = .ok (some e.node) := by
  obtain ⟨m, rfl⟩ := Nat.exists_eq_add_of_le' (Nat.le_of_add_left_le hn : 2 ≤ n)
  have hbuf := (text_expansion hexpansion).2
  have hfirst : ∀ c ∈ ((shorthand ++ '=' :: value).dropWhile isSpace).head?, c ≠ '(' := by
    rintro c hc rfl
    have hdrop := dropWhile_append_of_stops (t := []) (fun c hc => nomatch hc)
      (stops_append_of_ne_nil (s := '=' :: value) hshorthand.ne_nil
        fun c hc => isSpace_of_isFieldChar (hshorthand.chars c hc))
    rw [List.nil_append] at hdrop
    rw [hdrop, List.head?_append_of_ne_nil _ hshorthand.ne_nil] at hc
    exact absurd (hshorthand.chars _ (List.mem_of_mem_head? hc)) (by decide)
  have hstrip : stripOuterBracket (m + 1) (shorthand ++ '=' :: value) =
      .ok (shorthand ++ '=' :: value) := stripOuterBracket_of_first hlen (by omega) hfirst
  have hmatch : wholeMatch baseExpr (shorthand ++ '=' :: value) =
      some [[], shorthand, [], ['='], [], value, []] := by
    have h := wholeMatch_base gap_nil hshorthand.ne_nil hshorthand.chars gap_nil .eq gap_nil hvalue
      hchars gap_nil stops_nil stops_nil (rfl : wholeMatch [] [] = some [])
    simpa only [List.nil_append, List.append_nil, Op.text, List.cons_append] using h
  rw [parse_of_base hstrip hmatch, baseNode, getField, hshorthand.find?, Option.map_none,
    parseShorthand, hexpansion]
  exact parse_text htext (hbuf.trans (by decide)) (by omega)

/-- The text is parsed, and the tree accepts exactly the given records. -/
def Accepts (junk : ℕ) (text : List Char) (P : TraceFormat → Prop) : Prop :=
  ∃ node, (∀ n, text.length + 600 ≤ n → parse junk n text = .ok (some node)) ∧
    ∀ tr, node.test tr = true ↔ P tr

theorem accepts_shorthand {P : TraceFormat → Prop} (hshorthand : IsShorthand shorthand)
    (hvalue : value ≠ []) (hchars : ∀ c ∈ value, isValueChar c)
    (hlen : (shorthand ++ '=' :: value).length < 2 ^ 32)
    (hexpansion : expansion shorthand ['='] value = some buf) (htext : Text e buf)
    (hP : ∀ tr, e.node.test tr = true ↔ P tr) : Accepts junk (shorthand ++ '=' :: value) P :=
  ⟨e.node, fun _ hn => parse_shorthand hshorthand hvalue hchars hlen hexpansion htext hn, hP⟩

end Shorthands

/-! ### Arguments that are in range -/

section InRange

variable {v : ℕ} {l r : List Char}

theorem read_i (h : Literal v l) (hv : v < 2 ^ 32) :
    Conv.i.read (l ++ ',' :: r) = some (v, ',' :: r) := by
  have hread := h.readAnyBase (stops_cons (s := r) (a := ',') rfl) (stops_cons rfl)
  rw [Conv.read, hread, Option.map_some, min_eq_left (hv.le.trans (by decide)),
    Nat.mod_eq_of_lt hv]

theorem read_hu (hv : v < 2 ^ 16) (hr : Stops Char.isDigit r) :
    Conv.hu.read (digits v ++ r) = some (v, r) := by
  rw [Conv.read, readDecimal_digits hr, Option.map_some, min_eq_left (hv.le.trans (by decide)),
    Nat.mod_eq_of_lt hv]

theorem read_hhu (hv : v < 2 ^ 8) (hr : Stops Char.isDigit r) :
    Conv.hhu.read (digits v ++ r) = some (v, r) := by
  rw [Conv.read, readDecimal_digits hr, Option.map_some, min_eq_left (hv.le.trans (by decide)),
    Nat.mod_eq_of_lt hv]

theorem read_hu_digits (hv : v < 2 ^ 16) : Conv.hu.read (digits v) = some (v, []) := by
  have hread := read_hu hv (stops_nil (p := Char.isDigit))
  rwa [List.append_nil] at hread

theorem read_hhu_digits (hv : v < 2 ^ 8) : Conv.hhu.read (digits v) = some (v, []) := by
  have hread := read_hhu hv (stops_nil (p := Char.isDigit))
  rwa [List.append_nil] at hread

theorem isValueChar_digits (v : ℕ) : ∀ c ∈ digits v, isValueChar c :=
  fun _ => (Literal.decimal v).isValueChar

theorem sscanf_cons {conv conv' : Conv} {convs : List Conv} {vs : List ℕ}
    (h : conv.read l = some (v, ',' :: r)) (h' : sscanf (conv' :: convs) r = some vs) :
    sscanf (conv :: conv' :: convs) l = some (v :: vs) := by
  rw [sscanf]
  · simp only [h, skipComma, h', Option.bind_eq_bind, Option.bind_some, Option.pure_def]
  · exact List.cons_ne_nil _ _

theorem sscanf_last {conv : Conv} (h : conv.read l = some (v, r)) :
    sscanf [conv] l = some [v] := by
  rw [sscanf, h, Option.map_some]

theorem stops_comma : Stops Char.isDigit (',' :: r) := stops_cons rfl

/-- A text of an address: in decimal, or with up to eight digits behind `0x`. -/
structure Address (v : UInt32) (l : List Char) : Prop where
  literal : Literal v.toNat l
  short : l.length ≤ 10

theorem address_digits (v : UInt32) : Address v (digits v.toNat) where
  literal := .decimal _
  short := length_digits_uint32 v

variable {sip dip : UInt32} {sport dport : UInt16} {a b : List Char}

/-- The values of a shorthand for a flow. -/
def flowValue (a b : List Char) (sport dport : UInt16) : List Char :=
  a ++ ',' :: (b ++ ',' :: (digits sport.toNat ++ ',' :: digits dport.toNat))

theorem sscanf_flowValue (ha : Address sip a) (hb : Address dip b) :
    sscanf [.i, .i, .hu, .hu] (flowValue a b sport dport) =
      some [sip.toNat, dip.toNat, sport.toNat, dport.toNat] :=
  sscanf_cons (read_i ha.literal sip.toNat_lt)
    (sscanf_cons (read_i hb.literal dip.toNat_lt)
      (sscanf_cons (read_hu sport.toNat_lt stops_comma)
        (sscanf_last (read_hu_digits dport.toNat_lt))))

theorem flowValue_chars (ha : Address sip a) (hb : Address dip b) :
    ∀ c ∈ flowValue a b sport dport, isValueChar c :=
  List.forall_mem_append.2 ⟨fun _ => ha.literal.isValueChar, List.forall_mem_cons.2 ⟨rfl,
    List.forall_mem_append.2 ⟨fun _ => hb.literal.isValueChar, List.forall_mem_cons.2 ⟨rfl,
      List.forall_mem_append.2 ⟨isValueChar_digits _, List.forall_mem_cons.2 ⟨rfl,
        isValueChar_digits _⟩⟩⟩⟩⟩⟩

theorem length_flowValue_le (ha : Address sip a) (hb : Address dip b) :
    (flowValue a b sport dport).length ≤ 33 := by
  have hsport := length_digits_uint16 sport
  have hdport := length_digits_uint16 dport
  have hashort := ha.short
  have hbshort := hb.short
  simp only [flowValue, List.length_append, List.length_cons]
  omega

/-- The values of a shorthand for a queue. -/
def queueValue (node : UInt16) (intf qidx : UInt8) : List Char :=
  digits node.toNat ++ ',' :: (digits intf.toNat ++ ',' :: digits qidx.toNat)

theorem sscanf_queueValue (node : UInt16) (intf qidx : UInt8) :
    sscanf [.hu, .hhu, .hhu] (queueValue node intf qidx) =
      some [node.toNat, intf.toNat, qidx.toNat] :=
  sscanf_cons (read_hu node.toNat_lt stops_comma)
    (sscanf_cons (read_hhu intf.toNat_lt stops_comma)
      (sscanf_last (read_hhu_digits qidx.toNat_lt)))

theorem queueValue_chars (node : UInt16) (intf qidx : UInt8) :
    ∀ c ∈ queueValue node intf qidx, isValueChar c :=
  List.forall_mem_append.2 ⟨isValueChar_digits _, List.forall_mem_cons.2 ⟨rfl,
    List.forall_mem_append.2 ⟨isValueChar_digits _, List.forall_mem_cons.2 ⟨rfl,
      isValueChar_digits _⟩⟩⟩⟩

theorem length_queueValue_le (node : UInt16) (intf qidx : UInt8) :
    (queueValue node intf qidx).length ≤ 13 := by
  have hnode := length_digits_uint16 node
  have hintf := length_digits_uint8 intf
  have hqidx := length_digits_uint8 qidx
  simp only [queueValue, List.length_append, List.length_cons]
  omega

end InRange

/-! ### What the shorthands select -/

section Selection

variable {junk : ℕ} {sip dip : UInt32} {sport dport : UInt16} {a b : List Char}

theorem isShorthand_flow : IsShorthand "flow".toList where
  ne_nil := by decide
  chars := List.all_eq_true.1 rfl
  find? := by decide +kernel

theorem isShorthand_rflow : IsShorthand "rflow".toList where
  ne_nil := by decide
  chars := List.all_eq_true.1 rfl
  find? := by decide +kernel

theorem isShorthand_biflow : IsShorthand "biflow".toList where
  ne_nil := by decide
  chars := List.all_eq_true.1 rfl
  find? := by decide +kernel

theorem isShorthand_queue : IsShorthand "queue".toList where
  ne_nil := by decide
  chars := List.all_eq_true.1 rfl
  find? := by decide +kernel

section Flow

variable (ha : Address sip a) (hb : Address dip b)

include ha hb

/-- A shorthand for a flow selects what its expansion does. -/
theorem accepts_flowValue {shorthand buf : List Char} {e : Expr} {P : TraceFormat → Prop}
    (hshorthand : IsShorthand shorthand) (hshort : shorthand.length ≤ 6)
    (hexpansion : expansion shorthand ['='] (flowValue a b sport dport) = some buf)
    (htext : Text e buf) (hP : ∀ tr, e.node.test tr = true ↔ P tr) :
    Accepts junk (shorthand ++ '=' :: flowValue a b sport dport) P := by
  have hlen : (flowValue a b sport dport).length ≤ 33 := length_flowValue_le ha hb
  have htotal : (shorthand ++ '=' :: flowValue a b sport dport).length < 2 ^ 32 := by
    rw [List.length_append, List.length_cons]
    omega
  exact accepts_shorthand hshorthand (by simp [flowValue]) (flowValue_chars ha hb) htotal
    hexpansion htext hP

theorem accepts_flow : Accepts junk ("flow".toList ++ '=' :: flowValue a b sport dport)
    (IsFlow sip.toNat dip.toNat sport.toNat dport.toNat) := by
  have hexpansion : expansion "flow".toList ['='] (flowValue a b sport dport) =
      some (flowText sip dip sport dport) := by
    simp [expansion, expandFlow, sscanf_flowValue ha hb, flowText]
  refine accepts_flowValue ha hb isShorthand_flow (by decide) hexpansion
    (text_flow sip dip sport dport) fun tr => ?_
  rw [test_node_of_notMem notMem_flowExpr, eval_flowExpr]

theorem accepts_rflow : Accepts junk ("rflow".toList ++ '=' :: flowValue a b sport dport)
    (IsFlow dip.toNat sip.toNat dport.toNat sport.toNat) := by
  have hexpansion : expansion "rflow".toList ['='] (flowValue a b sport dport) =
      some (flowText dip sip dport sport) := by
    simp [expansion, expandFlow, sscanf_flowValue ha hb, flowText]
  refine accepts_flowValue ha hb isShorthand_rflow (by decide) hexpansion
    (text_flow dip sip dport sport) fun tr => ?_
  rw [test_node_of_notMem notMem_flowExpr, eval_flowExpr]

theorem accepts_biflow : Accepts junk ("biflow".toList ++ '=' :: flowValue a b sport dport)
    (fun tr => IsFlow sip.toNat dip.toNat sport.toNat dport.toNat tr ∨
      IsFlow dip.toNat sip.toNat dport.toNat sport.toNat tr) := by
  have hexpansion : expansion "biflow".toList ['='] (flowValue a b sport dport) =
      some (biflowText sip dip sport dport) := by
    simp [expansion, expandFlow, sscanf_flowValue ha hb, biflowText]
  refine accepts_flowValue ha hb isShorthand_biflow (by decide) hexpansion
    (text_biflow sip dip sport dport) fun tr => ?_
  rw [test_node_of_notMem notMem_biflowExpr, eval_biflowExpr]

end Flow

theorem accepts_queue (node : UInt16) (intf qidx : UInt8) :
    Accepts junk ("queue".toList ++ '=' :: queueValue node intf qidx)
      (IsQueue node.toNat intf.toNat qidx.toNat) := by
  have hexpansion : expansion "queue".toList ['='] (queueValue node intf qidx) =
      some (queueText node intf qidx) := by
    simp [expansion, expandQueue, sscanf_queueValue, queueText]
  have hlen := length_queueValue_le node intf qidx
  have htotal : ("queue".toList ++ '=' :: queueValue node intf qidx).length < 2 ^ 32 := by
    rw [List.length_append, List.length_cons]
    exact (Nat.add_le_add_left (Nat.succ_le_succ hlen) _).trans_lt (by decide)
  refine accepts_shorthand isShorthand_queue (by simp [queueValue]) (queueValue_chars _ _ _) htotal
    hexpansion (text_queue node intf qidx) fun tr => ?_
  rw [test_node_of_notMem notMem_queueExpr, eval_queueExpr]

end Selection

/-- **The shorthands.** `flow` selects a flow, `rflow` the flow from the other end, `biflow` both,
and `queue` a queue. Every expansion has room in the buffer of 512 bytes. -/
theorem shorthands (junk : ℕ) :
    (∀ (sip dip : UInt32) (sport dport : UInt16) (a b : List Char), Address sip a →
      Address dip b →
        Accepts junk ("flow".toList ++ '=' :: flowValue a b sport dport)
          (IsFlow sip.toNat dip.toNat sport.toNat dport.toNat) ∧
        Accepts junk ("rflow".toList ++ '=' :: flowValue a b sport dport)
          (IsFlow dip.toNat sip.toNat dport.toNat sport.toNat) ∧
        Accepts junk ("biflow".toList ++ '=' :: flowValue a b sport dport)
          (fun tr => IsFlow sip.toNat dip.toNat sport.toNat dport.toNat tr ∨
            IsFlow dip.toNat sip.toNat dport.toNat sport.toNat tr)) ∧
    (∀ (node : UInt16) (intf qidx : UInt8),
      Accepts junk ("queue".toList ++ '=' :: queueValue node intf qidx)
        (IsQueue node.toNat intf.toNat qidx.toNat)) ∧
    ∀ shorthand op value buf, expansion shorthand op value = some buf → buf.length + 1 ≤ 512 :=
  ⟨fun _ _ _ _ _ _ ha hb => ⟨accepts_flow ha hb, accepts_rflow ha hb, accepts_biflow ha hb⟩,
    accepts_queue, fun _ _ _ _ h => (text_expansion h).2⟩

/-- A flow of the kind that the filter is used for. -/
theorem shorthands_flow : Accepts 0
    ("flow".toList ++ '=' :: flowValue "0x0b000101".toList (digits 184549889) 10000 100)
    (IsFlow 184549633 184549889 10000 100) :=
  ((shorthands 0).1 184549633 184549889 10000 100 _ _
    ⟨Literal.hex "0b000101".toList (by decide) (List.all_eq_true.1 rfl), by decide⟩
    (address_digits 184549889)).1

end TraceFilter

end HpccSim
