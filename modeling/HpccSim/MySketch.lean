import HpccSim.FairShare
import HpccSim.Lib.SlidingWindow
import HpccSim.Lib.Tally
import Mathlib.Data.Rat.Floor

/-!
# The sketch of a switch port

`MySketch` (`my-sketch.h`, `my-sketch.cc`) measures the flows that leave a port. It keeps a table
of hash buckets for each of the last `m_nWindows` windows, the bytes of each window, and, for the
columns of row `0`, the last window in which they were touched. Windows use the slots in turn. The
byte counts of a slot are reset when the next window takes it over, but its buckets are not: each
carries the number of the window that wrote it, and counts as empty once that is too old.

The counters are of the types of the source: `uint64_t` for bytes, and `int` for windows, whose
arithmetic wraps to 32 bits. Doubles are rational numbers, rounded by a parameter where
`GetThBinary` compares them with rates, and the logarithm of `GetCard` is a parameter.

## Main definitions

* `FiveTuple`, `IntTag`, `SketchConfig`, `MySketch.Data`, `MySketch`: the state.
* `MySketch.init`, `MySketch.update`, `MySketch.nextWindow`, `MySketch.query`.
* `MySketch.Op`, `MySketch.run`: a sequence of operations.
* `MySketch.history`: the packets passed to `Update`, by window.
-/

namespace HpccSim

/-- `MySketch::FiveTuple`. -/
structure FiveTuple where
  sip : UInt32
  dip : UInt32
  sport : UInt16
  dport : UInt16
  pg : UInt16
  deriving DecidableEq

/-- `IntTag`. -/
structure IntTag where
  isBigFlow : Bool
  Rb : UInt64
  R : UInt64
  card : UInt32

/-- The attributes of `MySketch`, the rate of its port, and what it calls: `Hash` and the logarithm
of the C library. -/
structure SketchConfig where
  nRows : ℕ
  nColumns : ℕ
  nWindows : ℕ
  windowSize : ℕ
  h : ℚ
  rate : UInt64
  hash : FiveTuple → ℕ → UInt32
  log : ℚ → ℚ
  /-- The rounding of a number to `double`. -/
  round : ℚ → ℚ

/-- `Time::GetSeconds` of a time in nanoseconds. -/
def getSeconds (t : ℤ) : ℚ := t / 1000000000

/-- The conversion of a nonnegative `double` to `uint64_t`. -/
def truncate (x : ℚ) : UInt64 := .ofNat ⌊x⌋.toNat

/-- The value of type `int` that an operation on `int`s with the result `x` gives, in two's
complement. -/
def wrapInt (x : ℤ) : ℤ := x.bmod (2 ^ 32)

/-- The conversion of a `uint64_t` to `int`. -/
def toInt (w : UInt64) : ℤ := wrapInt w.toNat

namespace MySketch

/-- `MySketch::data`, a bucket: its bytes `n`, the window `e` that wrote it, and the time `t` of the
first packet in it. -/
structure Data where
  n : UInt64
  e : ℤ
  t : ℚ

/-- `data::update`, at the time `now`. -/
def Data.update (d : Data) (w q m : ℤ) (now : ℕ) : Data :=
  let d := if wrapInt (q - d.e) ≥ m then { d with n := 0 } else d
  if w ≠ 0 then
    { n := d.n + .ofInt w, e := q, t := if d.n = 0 then getSeconds now else d.t }
  else
    d

end MySketch

/-- `MySketch`. The set `m_flowKeys` is a list; the order in which its flows are queried does not
matter. -/
structure MySketch where
  curWindow : ℕ
  cntWindows : ℤ
  startTime : ℕ
  /-- `m_counters[window][row][column]` -/
  counters : ℕ → ℕ → ℕ → MySketch.Data
  flowKeys : List FiveTuple
  card : ℤ
  B : ℕ → ℤ
  cntB : ℕ → ℤ
  totalBytes : UInt64
  bytes : ℕ → UInt64

namespace MySketch

variable (c : SketchConfig)

/-- `MySketch::Init`. -/
def init (now : ℕ) : MySketch where
  curWindow := 0
  cntWindows := 0
  startTime := now
  counters _ _ _ := { n := 0, e := 0, t := 0 }
  flowKeys := []
  card := 0
  B _ := -c.nWindows
  cntB _ := 0
  totalBytes := 0
  bytes _ := 0

/-- The column of a flow in a row, `Hash(flowkey, i) % m_nColumns`. -/
def key (f : FiveTuple) (i : ℕ) : ℕ := (c.hash f i).toNat % c.nColumns

variable (s : MySketch)

/-- The loop over the rows and the windows that calls `data::update` on the buckets of the flow
`f`, with `w j` bytes in the window `j`. -/
def touch (f : FiveTuple) (w : ℕ → ℤ) (now : ℕ) : MySketch :=
  { s with
    counters := fun j i k =>
      if j < c.nWindows ∧ i < c.nRows ∧ k = key c f i then
        (s.counters j i k).update (w j) s.cntWindows c.nWindows now
      else
        s.counters j i k }

/-- The start of the update of `m_B` for the column `k` of row `0`: a column that is live leaves the
slot it was last touched in. -/
def leaveB (k : ℕ) : MySketch :=
  if wrapInt (s.cntWindows - s.B k) < c.nWindows then
    let j := ((s.B k).tmod c.nWindows).toNat
    { s with cntB := Function.update s.cntB j (s.cntB j - 1), card := s.card - 1 }
  else
    s

/-- The update of `m_B` for the column `k` of row `0`. -/
def updateB (k : ℕ) : MySketch :=
  let s := s.leaveB c k
  { s with
    B := Function.update s.B k s.cntWindows
    cntB := Function.update s.cntB s.curWindow (s.cntB s.curWindow + 1)
    card := s.card + 1 }

/-- The minimum of the bytes of a flow over the rows, `re[j]`. -/
def minBytes (f : FiveTuple) (j : ℕ) : UInt64 :=
  match (List.range c.nRows).map fun i => (s.counters j i (key c f i)).n with
  | [] => 0
  | x :: xs => xs.foldl (fun re n => if re > n then n else re) x

/-- The minimum of the times of a flow over the rows, `tm[j]`. -/
def minTime (f : FiveTuple) (j : ℕ) : ℚ :=
  match (List.range c.nRows).map fun i => (s.counters j i (key c f i)).t with
  | [] => 0
  | x :: xs => xs.foldl (fun tm t => if tm > t then t else tm) x

/-- The sum `sz` that `Query` computes. -/
def size (f : FiveTuple) : UInt64 :=
  (List.range c.nWindows).foldl (fun sz j => sz + minBytes c s f j) 0

/-- The time `start` that `Query` computes. -/
def start (f : FiveTuple) : ℚ :=
  (List.range c.nWindows).foldl
    (fun start j => if minBytes c s f j ≠ 0 ∧ start > minTime c s f j then minTime c s f j
      else start) 10000000000

/-- The state in which `Query` reads the buckets. -/
def refresh (f : FiveTuple) (now : ℕ) : MySketch := s.touch c f (fun _ => 0) now

/-- `MySketch::Query`: the state afterwards, and the rate of the flow. -/
def query (f : FiveTuple) (now : ℕ) : MySketch × UInt64 :=
  let s := s.refresh c f now
  let delta := getSeconds now - s.start c f
  (s, if |delta| < 1 / 1000000000000 then 25000000000
    else truncate ((s.size c f * 8).toNat / delta))

/-- The loop of `GetThBinary` that queries the flows. -/
def queryAll (now : ℕ) : List FiveTuple → MySketch → MySketch × List (FiveTuple × UInt64)
  | [], s => (s, [])
  | f :: fs, s =>
    let r := s.query c f now
    let rest := queryAll now fs r.1
    (rest.1, (f, r.2) :: rest.2)

/-- `MySketch::GetThBinary`: the state afterwards, and the threshold that is found. -/
def getThBinary (f : FiveTuple) (now : ℕ) : MySketch × Option Threshold :=
  let r := queryAll c now (s.flowKeys.insert f) s
  let kept := r.2.filter fun e => e.2 != 0
  ({ r.1 with flowKeys := kept.map Prod.fst }, thresholdOf c.round c.rate c.h (kept.map Prod.snd))

/-- `MySketch::GetCard`. -/
def getCard : UInt32 :=
  .ofNat ⌊-(c.nColumns : ℚ) * c.log ((c.nColumns - s.card) / c.nColumns)⌋.toNat

/-- `MySketch::Update` up to the queries, for a packet of a flow. -/
def record (f : FiveTuple) (w : UInt64) (now : ℕ) : MySketch :=
  let s := { s with
    totalBytes := s.totalBytes + w
    bytes := Function.update s.bytes s.curWindow (s.bytes s.curWindow + w) }
  let s := s.touch c f (fun j => if j = s.curWindow then toInt w else 0) now
  if 0 < c.nRows then s.updateB c (key c f 0) else s

/-- `MySketch::Update`: the state afterwards, and the tag; `none` if `GetThBinary` reads out of
range. -/
def update (f : FiveTuple) (packetSize : UInt32) (now : ℕ) : MySketch × Option IntTag :=
  let r := (s.record c f packetSize.toUInt64 now).query c f now
  let th := r.1.getThBinary c f now
  (th.1, th.2.map fun t =>
    { isBigFlow := r.2 ≥ t.th
      Rb := truncate t.Rb
      R := truncate ((th.1.totalBytes * 8).toNat / getSeconds ((now : ℤ) - th.1.startTime))
      card := th.1.getCard c })

/-- `MySketch::NextWindow`. -/
def nextWindow : MySketch :=
  let cur := (s.curWindow + 1) % c.nWindows
  let cnt := wrapInt (s.cntWindows + 1)
  { s with
    curWindow := cur
    cntWindows := cnt
    startTime := if cnt ≥ c.nWindows then s.startTime + c.windowSize else s.startTime
    card := s.card - s.cntB cur
    cntB := Function.update s.cntB cur 0
    totalBytes := s.totalBytes - s.bytes cur
    bytes := Function.update s.bytes cur 0 }

/-- What is done with a sketch. -/
inductive Op where
  | update (f : FiveTuple) (packetSize : UInt32) (now : ℕ)
  | nextWindow
  | query (f : FiveTuple) (now : ℕ)

/-- One operation. -/
def step : Op → MySketch
  | .update f w now => (s.update c f w now).1
  | .nextWindow => s.nextWindow c
  | .query f now => (s.query c f now).1

/-- A sequence of operations after `Init` at the time `start`. -/
def run (start : ℕ) (ops : List Op) : MySketch := ops.foldl (step c) (init c start)

/-- The calls of `Query` that `queryAll` makes, each with the state it finds. -/
def queryAllCalls (now : ℕ) : List FiveTuple → MySketch → List (MySketch × FiveTuple)
  | [], _ => []
  | f :: fs, s => (s, f) :: queryAllCalls now fs (s.query c f now).1

/-- The calls of `Query` that an operation makes, each with the state it finds. -/
def queryCalls : Op → List (MySketch × FiveTuple)
  | .update f w now =>
    let s := s.record c f w.toUInt64 now
    (s, f) :: queryAllCalls c now (s.flowKeys.insert f) (s.query c f now).1
  | .nextWindow => []
  | .query f _ => [(s, f)]

/-- The time of an operation. -/
def Op.now : Op → ℕ
  | .update _ _ now => now
  | .nextWindow => 0
  | .query _ now => now

/-- The effect of an operation on the history: the packets passed to `Update`, by window. -/
def Op.record (τ : Timeline (FiveTuple × UInt32)) : Op → Timeline (FiveTuple × UInt32)
  | .update f w _ => τ.push (f, w)
  | .nextWindow => τ.advance
  | .query _ _ => τ

/-- The packets passed to `Update`, by window. -/
def history (ops : List Op) : Timeline (FiveTuple × UInt32) := ops.foldl Op.record .empty

/-- The `int`s that count windows do not overflow: not the sum of two slots, and not the distance of
the current window to that of a column which was never touched. -/
def WindowsFit (τ : Timeline (FiveTuple × UInt32)) : Prop :=
  c.nWindows ≤ 2 ^ 30 ∧ τ.window + c.nWindows < 2 ^ 31

/-- The bytes of the packets in a list. -/
def bytesOf (l : List (FiveTuple × UInt32)) : ℕ := (l.map fun e => e.2.toNat).sum

/-- The bytes passed to `Update` in the current window and the `m_nWindows - 1` before it. -/
def liveBytes (τ : Timeline (FiveTuple × UInt32)) : ℕ :=
  ((τ.live c.nWindows).map fun e => e.2.2.toNat).sum

/-- Those of the flow `f`. -/
def flowBytes (τ : Timeline (FiveTuple × UInt32)) (f : FiveTuple) : ℕ :=
  tally (fun e : ℕ × FiveTuple × UInt32 => e.2.2.toNat) (fun e => e.2.1 = f) (τ.live c.nWindows)

end MySketch

end HpccSim
