import HpccSim.Lib.ByteOrder
import HpccSim.Lib.Decimal
import HpccSim.Lib.Pattern

/-!
# The trace filter

A trace file consists of records of a fixed size. The filter is an expression of comparisons of
members of a record with numbers, which is parsed into a tree that tests a record. The regular
expressions of the parser are patterns without nesting. Positions in a text have 32 bits, as in the
program, and a function that loops or calls itself takes the number of steps it may take.

## Main definitions

* `TraceFormat`: a record, with its members at their offsets.
* `TraceFilter.Node`: the tree, and `TraceFilter.Node.test`.
* `TraceFilter.stripOuterBracket`, `TraceFilter.parseShorthand`, `TraceFilter.parse`: the parser.
-/

namespace HpccSim

open ByteOrder Decimal Pattern

/-! ### Records -/

/-- A record as it is in the file. -/
structure TraceFormat where
  bytes : Bytes
  size : bytes.length = 56

/-- A member of a record, with its offset and the number of its bytes. -/
structure Member where
  name : String
  offset : ℕ
  bytes : ℕ
  deriving DecidableEq

namespace Member

def time : Member := ⟨"time", 0, 8⟩
def node : Member := ⟨"node", 8, 2⟩
def intf : Member := ⟨"intf", 10, 1⟩
def qidx : Member := ⟨"qidx", 11, 1⟩
def qlen : Member := ⟨"qlen", 12, 4⟩
def sip : Member := ⟨"sip", 16, 4⟩
def dip : Member := ⟨"dip", 20, 4⟩
def size : Member := ⟨"size", 24, 2⟩
def l3Prot : Member := ⟨"l3Prot", 26, 1⟩
def event : Member := ⟨"event", 27, 1⟩
def ecn : Member := ⟨"ecn", 28, 1⟩
def nodeType : Member := ⟨"nodeType", 29, 1⟩
def dataSport : Member := ⟨"data.sport", 32, 2⟩
def dataDport : Member := ⟨"data.dport", 34, 2⟩
def dataSeq : Member := ⟨"data.seq", 36, 4⟩
def ackSport : Member := ⟨"ack.sport", 32, 2⟩
def ackDport : Member := ⟨"ack.dport", 34, 2⟩
def ackFlags : Member := ⟨"ack.flags", 36, 2⟩
def qpSport : Member := ⟨"qp.sport", 32, 2⟩
def qpDport : Member := ⟨"qp.dport", 34, 2⟩

/-- The value of the member. -/
def read (m : Member) (tr : TraceFormat) : ℕ := load m.bytes m.offset tr.bytes

end Member

namespace TraceFilter

/-! ### Fields and nodes -/

/-- The comparisons. -/
inductive Op
  | eq | gt | ge | lt | le | ne
  deriving DecidableEq

namespace Op

def all : List Op := [eq, gt, ge, lt, le, ne]

def text : Op → List Char
  | eq => ['=']
  | gt => ['>']
  | ge => ['>', '=']
  | lt => ['<']
  | le => ['<', '=']
  | ne => ['!', '=']

def test : Op → ℕ → ℕ → Bool
  | eq, x, value => x == value
  | gt, x, value => value < x
  | ge, x, value => value ≤ x
  | lt, x, value => x < value
  | le, x, value => x ≤ value
  | ne, x, value => x != value

/-- The comparison with the given text. -/
def ofText (l : List Char) : Option Op := all.find? fun op => op.text = l

end Op

/-- A `Field`, of a class for numbers of `bytes` bytes. A text that is no comparison leaves no `op`,
and the test fails. -/
structure Field where
  offset : ℕ
  bytes : ℕ
  op : Option Op
  value : ℕ
  deriving DecidableEq

def Field.test (f : Field) (tr : TraceFormat) : Bool :=
  match f.op with
  | some op => op.test (load f.bytes f.offset tr.bytes) f.value
  | none => false

/-- What a node is. -/
inductive NodeType
  | expr | and | or
  deriving DecidableEq

/-- A node: a field, or two sons. -/
inductive Node
  | expr (f : Field)
  | sons (type : NodeType) (left right : Node)
  deriving DecidableEq

/-- `Node::test`. A node of type `expr` with two sons has no field to test. -/
def Node.test : Node → TraceFormat → Bool
  | expr f, tr => f.test tr
  | sons .and left right, tr => left.test tr && right.test tr
  | sons .or left right, tr => left.test tr || right.test tr
  | sons .expr _ _, _ => false

/-- `set_op`. -/
def setOp (op : List Char) : NodeType :=
  if op = ['&'] then .and else if op = ['|'] then .or else .expr

/-! ### Characters and patterns -/

def isSpace (c : Char) : Bool := [' ', '\t', '\n', '\x0b', '\x0c', '\r'].contains c

def isXDigit (c : Char) : Bool :=
  c.isDigit || ('a' ≤ c && c ≤ 'f') || ('A' ≤ c && c ≤ 'F')

def isFieldChar (c : Char) : Bool := c.isAlphanum || c == '.'

def isValueChar (c : Char) : Bool := c == 'x' || c == ',' || isXDigit c

/-- The characters that `.` stands for. -/
def isAny (c : Char) : Bool := c != '\n' && c != '\r'

def space : Piece Char := .many isSpace 0

/-- `&` or `|`. -/
def connective : Piece Char := .oneOf [['&'], ['|']]

/-- `BASE_EXPR_REGEX`. -/
def baseExpr : List (Piece Char) :=
  [space, .many isFieldChar 1, space, .oneOf (Op.all.map Op.text), space, .many isValueChar 1,
    space]

/-- A base expression and what follows it. -/
def baseAndRest : List (Piece Char) := baseExpr ++ [connective, .many isAny 0]

/-- What follows an expression in brackets. -/
def restExpr : List (Piece Char) := [space, connective, .many isAny 0, space]

/-! ### Numbers in a text -/

/-- A conversion of `sscanf`. Its input has no sign, no blank and no `X`. -/
inductive Conv
  | li | i | hu | hhu

def xDigitValue (c : Char) : ℕ :=
  if c.isDigit then c.toNat - '0'.toNat
  else if c ≤ 'F' then c.toNat - 'A'.toNat + 10 else c.toNat - 'a'.toNat + 10

def hexValue (l : List Char) : ℕ := l.foldl (fun v c => 16 * v + xDigitValue c) 0

/-- A number of the given digits, and the rest of the text. -/
def readDigits (isDigit : Char → Bool) (value : List Char → ℕ) (l : List Char) :
    Option (ℕ × List Char) :=
  if l.takeWhile isDigit = [] then none
  else some (value (l.takeWhile isDigit), l.dropWhile isDigit)

def readDecimal : List Char → Option (ℕ × List Char) := readDigits Char.isDigit value

/-- A number whose base is given by how it begins. A `0x` without digits is read as zero. -/
def readAnyBase : List Char → Option (ℕ × List Char)
  | '0' :: 'x' :: l => some (hexValue (l.takeWhile isXDigit), l.dropWhile isXDigit)
  | '0' :: l =>
    readDigits (fun c => c.isDigit && c ≤ '7') (fun ds => Nat.ofDigitChars 8 ds 0) ('0' :: l)
  | l => readDecimal l

/-- The number is read with 64 bits, and cut off. -/
def Conv.read : Conv → List Char → Option (ℕ × List Char)
  | li, l => (readAnyBase l).map fun r => (min r.1 (2 ^ 63 - 1), r.2)
  | i, l => (readAnyBase l).map fun r => (min r.1 (2 ^ 63 - 1) % 2 ^ 32, r.2)
  | hu, l => (readDecimal l).map fun r => (min r.1 (2 ^ 64 - 1) % 2 ^ 16, r.2)
  | hhu, l => (readDecimal l).map fun r => (min r.1 (2 ^ 64 - 1) % 2 ^ 8, r.2)

/-- What follows a comma. -/
def skipComma : List Char → Option (List Char)
  | ',' :: l => some l
  | _ => none

/-- `sscanf`, for a format of conversions with commas between them. -/
def sscanf : List Conv → List Char → Option (List ℕ)
  | [], _ => some []
  | [conv], l => (conv.read l).map fun r => [r.1]
  | conv :: convs, l => do
    let r ← conv.read l
    return r.1 :: (← sscanf convs (← skipComma r.2))

/-- `sprintf`, for a format with `%u` and `%hu`. -/
def sprintf : List Char → List ℕ → List Char
  | '%' :: 'u' :: fmt, v :: args => digits v ++ sprintf fmt args
  | '%' :: 'h' :: 'u' :: fmt, v :: args => digits v ++ sprintf fmt args
  | c :: fmt, args => c :: sprintf fmt args
  | [], _ => []

/-! ### The parser -/

/-- Why the parser does not return: it uses a position beyond the end of a text, or it takes more
steps than it may. -/
inductive Stop
  | outOfRange | outOfFuel
  deriving DecidableEq

section Positions

variable (str : List Char)

/-- `str[i]`, where the position behind the last character has a null character. -/
def charAt (i : UInt32) : Except Stop Char :=
  match str[i.toNat]? with
  | some c => .ok c
  | none => if i.toNat = str.length then .ok '\x00' else .error .outOfRange

/-- `str.substr(pos, count)`. -/
def substr (pos : UInt32) (count : ℕ) : Except Stop (List Char) :=
  if pos.toNat ≤ str.length then .ok ((str.drop pos.toNat).take count) else .error .outOfRange

/-- `skip_space`. -/
def skipSpace : ℕ → UInt32 → Except Stop UInt32
  | 0, _ => .error .outOfFuel
  | n + 1, i => do
    if i.toNat < str.length then
      if isSpace (← charAt str i) then skipSpace n (i + 1) else return i
    else return i

/-- The loop for the bracket that matches, with `c` brackets open. -/
def skipBrackets : ℕ → UInt32 → UInt32 → Except Stop UInt32
  | 0, _, _ => .error .outOfFuel
  | n + 1, i, c => do
    if i.toNat < str.length then
      let ch ← charAt str i
      if ch ≠ ')' ∨ c > 1 then
        let c := if ch = '(' then c + 1 else if ch = ')' then c - 1 else c
        skipBrackets n (i + 1) c
      else return i
    else return i

end Positions

/-- `strip_outer_bracket`. -/
def stripOuterBracket : ℕ → List Char → Except Stop (List Char)
  | 0, _ => .error .outOfFuel
  | n + 1, expr => do
    let i ← skipSpace expr n 0
    if (← charAt expr i) = '(' then
      let start := i + 1
      let close ← skipBrackets expr n (i + 1) 1
      if close.toNat ≥ expr.length then
        return expr
      let i ← skipSpace expr n (close + 1)
      if i.toNat ≥ expr.length then
        stripOuterBracket n (← substr expr start (close - start).toNat)
      else return expr
    else return expr

/-- The members of `GetField`, each with the number of bytes of the class that is used. -/
def fieldClasses : List (Member × ℕ) :=
  [(.time, 8), (.node, 2), (.nodeType, 1), (.intf, 1), (.qidx, 1), (.qlen, 4), (.sip, 4), (.dip, 4),
    (.size, 2), (.l3Prot, 1), (.event, 1), (.ecn, 1), (.dataSport, 2), (.dataDport, 2),
    (.dataSeq, 4), (.ackSport, 2), (.ackDport, 2), (.ackFlags, 1), (.qpSport, 2), (.qpDport, 2)]

section Parse

-- What is in the variable that `sscanf` leaves alone if there is no number.
variable (junk : ℕ)

/-- `GetField`. -/
def getField (field op value : List Char) : Option Field :=
  let v := ((Conv.li.read value).map Prod.fst).getD junk
  (fieldClasses.find? fun c => c.1.name.toList = field).map fun c =>
    { offset := c.1.offset, bytes := c.2, op := Op.ofText op, value := v % 256 ^ c.2 }

/-- The format for `flow` and, with the ends exchanged, for `rflow`. -/
def flowFormat : List Char :=
  "sip=%u&dip=%u&(".toList ++ "(l3Prot=17&data.sport=%hu&data.dport=%hu)|".toList ++
    "((l3Prot=0xFC|l3Prot=0xFD)&".toList ++ "ack.sport=%hu&ack.dport=%hu)|".toList ++
    "(l3Prot=0x0&qp.sport=%hu&qp.dport=%hu))".toList

/-- The format for `biflow`, which has the one for `flow` twice. -/
def biflowFormat : List Char :=
  "(".toList ++ flowFormat ++ ")|(".toList ++ flowFormat ++ ")".toList

/-- The format for `queue`. -/
def queueFormat : List Char := "node=%u&intf=%u&qidx=%u".toList

/-- The expansion of a shorthand for a flow, with the given values. -/
def expandFlow (shorthand value : List Char) : Option (List Char) :=
  match sscanf [.i, .i, .hu, .hu] value with
  | some [sip, dip, sport, dport] =>
    if shorthand = "flow".toList then
      some (sprintf flowFormat [sip, dip, sport, dport, sport, dport, sport, dport])
    else if shorthand = "biflow".toList then
      some (sprintf biflowFormat [sip, dip, sport, dport, sport, dport, sport, dport,
        dip, sip, dport, sport, dport, sport, dport, sport])
    else some (sprintf flowFormat [dip, sip, dport, sport, dport, sport, dport, sport])
  | _ => none

/-- The expansion of a shorthand for a queue. -/
def expandQueue (value : List Char) : Option (List Char) :=
  match sscanf [.hu, .hhu, .hhu] value with
  | some [node, intf, qidx] => some (sprintf queueFormat [node, intf, qidx])
  | _ => none

/-- The text for which a shorthand stands. -/
def expansion (shorthand op value : List Char) : Option (List Char) :=
  if shorthand = "flow".toList ∨ shorthand = "biflow".toList ∨ shorthand = "rflow".toList then
    if op ≠ ['='] then none else expandFlow shorthand value
  else if shorthand = "queue".toList then
    if op ≠ ['='] then none else expandQueue value
  else none

variable (parse : List Char → Except Stop (Option Node))

/-- `parse_shorthand`, which parses the expansion. -/
def parseShorthand (shorthand op value : List Char) : Except Stop (Option Node) :=
  match expansion shorthand op value with
  | some buf => parse buf
  | none => .ok none

/-- The node of a base expression, maybe a shorthand. -/
def baseNode (field op value : List Char) : Except Stop (Option Node) :=
  match getField junk field op value with
  | some f => .ok (some (.expr f))
  | none => parseShorthand parse field op value

/-- The connective and the text behind it, which are empty if there is no connective. -/
def rightOf (s : List Char) : List Char × List Char :=
  match wholeMatch restExpr s with
  | some [_, opStr, rightStr, _] => (opStr, rightStr)
  | _ => ([], [])

/-- The node of an expression in brackets, and what follows: the connective and the expression
behind it. -/
def bracketNode (n : ℕ) (expr : List Char) :
    Except Stop (Option (Node × List Char × List Char)) := do
  let start ← skipSpace expr n 0
  if start.toNat ≥ expr.length then
    return none
  if (← charAt expr start) = '(' then
    let i ← skipBrackets expr n (start + 1) 1
    if i.toNat ≥ expr.length then
      return none
    let i := i + 1
    match ← parse (← substr expr (start + 1) (i - start - 2).toNat) with
    | none => return none
    | some left =>
      return some (left, rightOf (← substr expr i (expr.length - i.toNat)))
  else return none

/-- The left node of an expression with two sons, and what follows. -/
def leftNode (n : ℕ) (expr : List Char) :
    Except Stop (Option (Node × List Char × List Char)) :=
  match wholeMatch baseAndRest expr with
  | some [_, field, _, op, _, value, _, opStr, rightStr] => do
    let left ← baseNode junk parse field op value
    return left.map fun left => (left, opStr, rightStr)
  | _ => bracketNode parse n expr

end Parse

/-- `_parse`. -/
def parse (junk : ℕ) : ℕ → List Char → Except Stop (Option Node)
  | 0, _ => .error .outOfFuel
  | n + 1, expr => do
    let expr ← stripOuterBracket n expr
    match wholeMatch baseExpr expr with
    | some [_, field, _, op, _, value, _] => baseNode junk (parse junk n) field op value
    | _ =>
      match ← leftNode junk (parse junk n) n expr with
      | none => return none
      | some (left, opStr, rightStr) =>
        return (← parse junk n rightStr).map fun right => .sons (setOp opStr) left right

end TraceFilter

end HpccSim
