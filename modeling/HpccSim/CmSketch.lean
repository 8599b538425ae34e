import HpccSim.Lib.Run
import HpccSim.Lib.SlidingWindow
import HpccSim.Lib.Tally
import Mathlib.Data.UInt

/-!
# The count-min sketch of a switch port

`CmSketch` (`cm-sketch.h`, `cm-sketch.cc`) counts the bytes of the packets that are enqueued at a
port in a table of hash buckets, and the bytes that are sent, both for the last `m_granularity`
subwindows. The subwindows take turns. When one is used again its old bytes are subtracted from the
totals. The number of nonzero buckets of row `0` is kept along with them. Counters are `uint64_t`,
but a new value passes through `uint32_t` in `ClearWindow`, and on its way to `UpdateCardinality`.

## Main definitions

* `CmConfig`, `CmSketch`: the attributes and the state.
* `CmSketch.init`, `CmSketch.updateCounter`, `CmSketch.updateTxBytes`, `CmSketch.clearWindow`.
* `CmSketch.Traced`, `CmSketch.step`: the state with the packets it has been given, and what an
  operation does to it.
* `CmSketch.Holds`: what the counters are supposed to say.
* `CmSketch.Survives`: the new values of a step survive their conversions to `uint32_t`.

## Main results

* `CmSketch.updateCounter_eq`, `CmSketch.clearWindow_eq`: what the loops over all buckets do.
-/

namespace HpccSim

/-- The attributes of `CmSketch`, and its hash function. -/
structure CmConfig (ι : Type*) where
  depth : ℕ
  width : ℕ
  granularity : ℕ
  hash : ι → ℕ → UInt32
  depth_pos : 0 < depth
  width_pos : 0 < width
  granularity_pos : 0 < granularity
  /-- `m_width` is a `uint32_t`. -/
  width_lt : width < 2 ^ 32

/-- `CmSketch`. -/
@[ext] structure CmSketch where
  /-- `counter_split[subwindow][row][column]` -/
  counterSplit : ℕ → ℕ → ℕ → UInt64
  counter : ℕ → ℕ → UInt64
  totalTxbytes : UInt64
  splitTxbytes : ℕ → UInt64
  pointer : ℕ
  card : UInt32

namespace CmSketch

variable {ι : Type*} (c : CmConfig ι)

/-- `CmSketch::Init`. -/
def init : CmSketch where
  counterSplit _ _ _ := 0
  counter _ _ := 0
  totalTxbytes := 0
  splitTxbytes _ := 0
  pointer := 0
  card := 0

/-- The column of an item in a row. -/
def pos (x : ι) (i : ℕ) : ℕ := (c.hash x i).toNat % c.width

/-- `UpdateCardinality`. -/
def updateCardinality (oldV newV card : UInt32) : UInt32 :=
  let card := if oldV ≠ 0 then card - 1 else card
  if newV ≠ 0 then card + 1 else card

variable (s : CmSketch)

/-- The body of the loop of `UpdateCounter`. -/
def updateRow (x : ι) (sz : UInt32) (s : CmSketch) (i : ℕ) : CmSketch :=
  let pos := pos c x i
  let oldV := s.counter i pos
  let newV := oldV + sz.toUInt64
  { s with
    counterSplit := fun g i' j => if g = s.pointer ∧ i' = i ∧ j = pos then
      s.counterSplit g i' j + sz.toUInt64 else s.counterSplit g i' j
    card := if i = 0 then updateCardinality oldV.toUInt32 newV.toUInt32 s.card else s.card
    counter := fun i' j => if i' = i ∧ j = pos then newV else s.counter i' j }

/-- `CmSketch::UpdateCounter`. -/
def updateCounter (x : ι) (sz : UInt32) : CmSketch :=
  (List.range c.depth).foldl (updateRow c x sz) s

/-- `CmSketch::UpdateTxBytes`. -/
def updateTxBytes (sz : UInt32) : CmSketch :=
  { s with
    totalTxbytes := s.totalTxbytes + sz.toUInt64
    splitTxbytes := Function.update s.splitTxbytes s.pointer
      (s.splitTxbytes s.pointer + sz.toUInt64) }

/-- The body of the loops of `ClearWindow`. -/
def clearBucket (i : ℕ) (s : CmSketch) (j : ℕ) : CmSketch :=
  let delta := s.counterSplit s.pointer i j
  let oldV := (s.counter i j).toUInt32
  let newV := (s.counter i j - delta).toUInt32
  { s with
    counterSplit := fun g i' j' => if g = s.pointer ∧ i' = i ∧ j' = j then 0
      else s.counterSplit g i' j'
    card := if i = 0 then updateCardinality oldV newV s.card else s.card
    counter := fun i' j' => if i' = i ∧ j' = j then newV.toUInt64 else s.counter i' j' }

/-- The inner loop of `ClearWindow`. -/
def clearRow (s : CmSketch) (i : ℕ) : CmSketch := (List.range c.width).foldl (clearBucket i) s

/-- `CmSketch::ClearWindow`, but for the detection of microbursts. -/
def clearWindow : CmSketch :=
  let pointer := (s.pointer + 1) % c.granularity
  let s := { s with
    pointer := pointer
    totalTxbytes := s.totalTxbytes - s.splitTxbytes pointer
    splitTxbytes := Function.update s.splitTxbytes pointer 0 }
  (List.range c.depth).foldl (clearRow c) s

/-! ### A packet -/

section UpdateCounter

variable (x : ι) (sz : UInt32)

/-- The state after the first `n` rows were updated. -/
def updatedRows (n : ℕ) : CmSketch :=
  { s with
    counterSplit := fun g i j => if g = s.pointer ∧ i < n ∧ j = pos c x i then
      s.counterSplit g i j + sz.toUInt64 else s.counterSplit g i j
    card := if 0 < n then updateCardinality (s.counter 0 (pos c x 0)).toUInt32
      (s.counter 0 (pos c x 0) + sz.toUInt64).toUInt32 s.card else s.card
    counter := fun i j => if i < n ∧ j = pos c x i then s.counter i j + sz.toUInt64
      else s.counter i j }

/-- One more row. -/
theorem updateRow_updatedRows (n : ℕ) :
    updateRow c x sz (updatedRows c s x sz n) n = updatedRows c s x sz (n + 1) := by
  have hold : (updatedRows c s x sz n).counter n (pos c x n) = s.counter n (pos c x n) :=
    if_neg fun h => Nat.lt_irrefl n h.1
  refine CmSketch.ext ?_ ?_ rfl rfl rfl ?_
  · funext g i j
    simp only [updateRow, updatedRows]
    grind
  · funext i j
    simp only [updateRow, updatedRows]
    grind
  · simp only [updateRow, hold]
    cases n with
    | zero => rfl
    | succ n => simp [updatedRows]

/-- **A packet.** What `UpdateCounter` does, all rows at once. -/
theorem updateCounter_eq : updateCounter c s x sz = updatedRows c s x sz c.depth := by
  have hrows (n : ℕ) :
      (List.range n).foldl (updateRow c x sz) s = updatedRows c s x sz n := by
    induction n with
    | zero =>
      refine CmSketch.ext ?_ ?_ rfl rfl rfl rfl
      · funext g i j
        simp [updatedRows]
      · funext i j
        simp [updatedRows]
    | succ n ih =>
      rw [List.range_succ, List.foldl_append, ih, List.foldl_cons, List.foldl_nil,
        updateRow_updatedRows]
  exact hrows c.depth

end UpdateCounter

/-! ### The next subwindow -/

section ClearWindow

/-- The cardinality after the first `m` buckets of row `0` were cleared. -/
def clearedCard (m : ℕ) : UInt32 :=
  (List.range m).foldl (fun card j => updateCardinality (s.counter 0 j).toUInt32
    (s.counter 0 j - s.counterSplit s.pointer 0 j).toUInt32 card) s.card

/-- The state after the first `m` buckets of row `i` were cleared. -/
def clearedBuckets (i m : ℕ) : CmSketch :=
  { s with
    counterSplit := fun g i' j => if g = s.pointer ∧ i' = i ∧ j < m then 0
      else s.counterSplit g i' j
    card := if i = 0 then clearedCard s m else s.card
    counter := fun i' j => if i' = i ∧ j < m then
      (s.counter i' j - s.counterSplit s.pointer i' j).toUInt32.toUInt64 else s.counter i' j }

/-- The state after the first `n` rows were cleared. -/
def clearedRows (n : ℕ) : CmSketch :=
  { s with
    counterSplit := fun g i j => if g = s.pointer ∧ i < n ∧ j < c.width then 0
      else s.counterSplit g i j
    card := if 0 < n then clearedCard s c.width else s.card
    counter := fun i j => if i < n ∧ j < c.width then
      (s.counter i j - s.counterSplit s.pointer i j).toUInt32.toUInt64 else s.counter i j }

/-- One more bucket. -/
theorem clearBucket_clearedBuckets (i m : ℕ) :
    clearBucket i (clearedBuckets s i m) m = clearedBuckets s i (m + 1) := by
  have hold : (clearedBuckets s i m).counter i m = s.counter i m :=
    if_neg fun h => Nat.lt_irrefl m h.2
  have hdelta : (clearedBuckets s i m).counterSplit s.pointer i m =
      s.counterSplit s.pointer i m :=
    if_neg fun h => Nat.lt_irrefl m h.2.2
  have hpointer : (clearedBuckets s i m).pointer = s.pointer := rfl
  refine CmSketch.ext ?_ ?_ rfl rfl rfl ?_
  · funext g i' j
    simp only [clearBucket, clearedBuckets]
    grind
  · funext i' j
    simp only [clearBucket, hold, hpointer, hdelta]
    simp only [clearedBuckets]
    grind
  · simp only [clearBucket, hold, hpointer, hdelta]
    by_cases hi : i = 0
    · subst hi
      simp only [clearedBuckets, if_true, clearedCard, List.range_succ, List.foldl_append,
        List.foldl_cons, List.foldl_nil]
    · simp only [clearedBuckets, if_neg hi]

theorem clearRow_eq (i : ℕ) : clearRow c s i = clearedBuckets s i c.width := by
  have hbuckets (m : ℕ) : (List.range m).foldl (clearBucket i) s = clearedBuckets s i m := by
    induction m with
    | zero =>
      refine CmSketch.ext ?_ ?_ rfl rfl rfl ?_
      · funext g i' j
        simp [clearedBuckets]
      · funext i' j
        simp [clearedBuckets]
      · simp [clearedBuckets, clearedCard]
    | succ m ih =>
      rw [List.range_succ, List.foldl_append, ih, List.foldl_cons, List.foldl_nil,
        clearBucket_clearedBuckets]
  exact hbuckets c.width

/-- One more row. -/
theorem clearRow_clearedRows (n : ℕ) :
    clearRow c (clearedRows c s n) n = clearedRows c s (n + 1) := by
  rw [clearRow_eq]
  refine CmSketch.ext ?_ ?_ rfl rfl rfl ?_
  · funext g i j
    simp only [clearedBuckets, clearedRows]
    grind
  · funext i j
    simp only [clearedBuckets, clearedRows]
    grind
  · cases n with
    | zero => simp [clearedBuckets, clearedRows, clearedCard]
    | succ n => simp [clearedBuckets, clearedRows]

/-- The state in which the loops of `ClearWindow` start: the next subwindow is current, and its
sent bytes are forgotten. -/
def takeOver : CmSketch :=
  { s with
    pointer := (s.pointer + 1) % c.granularity
    totalTxbytes := s.totalTxbytes - s.splitTxbytes ((s.pointer + 1) % c.granularity)
    splitTxbytes := Function.update s.splitTxbytes ((s.pointer + 1) % c.granularity) 0 }

/-- **The next subwindow.** What `ClearWindow` does, all buckets at once. -/
theorem clearWindow_eq : clearWindow c s = clearedRows c (takeOver c s) c.depth := by
  have hrows (t : CmSketch) (n : ℕ) : (List.range n).foldl (clearRow c) t = clearedRows c t n := by
    induction n with
    | zero =>
      refine CmSketch.ext ?_ ?_ rfl rfl rfl rfl
      · funext g i j
        simp [clearedRows]
      · funext i j
        simp [clearedRows]
    | succ n ih =>
      rw [List.range_succ, List.foldl_append, ih, List.foldl_cons, List.foldl_nil,
        clearRow_clearedRows]
  exact hrows (takeOver c s) c.depth

end ClearWindow

/-! ### Runs -/

/-- A call of one of the three functions. -/
inductive Op (ι : Type*)
  | updateCounter (x : ι) (sz : UInt32)
  | updateTxBytes (sz : UInt32)
  | clearWindow

/-- The sketch, and what was added to its counters and sent, by subwindow. -/
structure Traced (ι : Type*) where
  sketch : CmSketch
  added : Timeline (ι × UInt32)
  sent : Timeline UInt32

/-- The state after `Init`. -/
def Traced.start : Traced ι where
  sketch := init
  added := .empty
  sent := .empty

/-- The effect of a call. -/
def step (t : Traced ι) : Op ι → Option (Traced ι)
  | .updateCounter x sz =>
    some { t with
      sketch := updateCounter c t.sketch x sz
      added := t.added.push (x, sz) }
  | .updateTxBytes sz =>
    some { t with
      sketch := updateTxBytes t.sketch sz
      sent := t.sent.push sz }
  | .clearWindow =>
    some {
      sketch := clearWindow c t.sketch
      added := t.added.advance
      sent := t.sent.advance }

/-- The bytes that a packet contributes to the bucket `j` of row `i`. -/
def share (i j : ℕ) (e : ι × UInt32) : ℕ := if pos c e.1 i = j then e.2.toNat else 0

/-- The bytes of an item that were added in the live subwindows. -/
def bytesOf [DecidableEq ι] (t : Traced ι) (x : ι) : ℕ :=
  ((t.added.live c.granularity).map fun e => if e.2.1 = x then e.2.2.toNat else 0).sum

/-- The bytes of the live subwindows, added and sent, fit into `uint64_t`. -/
def WindowBytes (t : Traced ι) : Prop :=
  ((t.added.live c.granularity).map fun e => e.2.2.toNat).sum < 2 ^ 64 ∧
    ((t.sent.live c.granularity).map fun e => e.2.toNat).sum < 2 ^ 64

instance (t : Traced ι) : Decidable (WindowBytes c t) := inferInstanceAs (Decidable (_ ∧ _))

/-- The number of nonzero values among the first `m`. -/
def nonzero {M : Type*} [Zero M] [DecidableEq M] (m : ℕ) (v : ℕ → M) : ℕ :=
  ∑ j ∈ Finset.range m, if v j ≠ 0 then 1 else 0

/-- What the counters are supposed to say. -/
structure Holds [DecidableEq ι] (t : Traced ι) : Prop where
  counter : ∀ i < c.depth, ∀ j < c.width, (t.sketch.counter i j).toNat =
    ∑ g ∈ Finset.range c.granularity, (t.sketch.counterSplit g i j).toNat
  total : t.sketch.totalTxbytes.toNat =
    ∑ g ∈ Finset.range c.granularity, (t.sketch.splitTxbytes g).toNat
  card : t.sketch.card.toNat = nonzero c.width (t.sketch.counter 0)
  atLeast : ∀ x, ∀ i < c.depth, bytesOf c t x ≤ (t.sketch.counter i (pos c x i)).toNat

/-- The new values survive their conversions to `uint32_t`: a packet does not take its bucket of
row `0` to a multiple of `2 ^ 32` other than `0`, and the next subwindow leaves less than
`2 ^ 32` in every bucket. -/
def Survives (t : Traced ι) : Op ι → Prop
  | .updateCounter x sz =>
    (t.sketch.counter 0 (pos c x 0) + sz.toUInt64).toUInt32 = 0 →
      t.sketch.counter 0 (pos c x 0) + sz.toUInt64 = 0
  | .updateTxBytes _ => True
  | .clearWindow => ∀ i < c.depth, ∀ j < c.width, t.sketch.counter i j -
      t.sketch.counterSplit ((t.sketch.pointer + 1) % c.granularity) i j < 2 ^ 32

instance (t : Traced ι) (op : Op ι) : Decidable (Survives c t op) :=
  match op with
  | .updateCounter x sz =>
    inferInstanceAs (Decidable
      ((t.sketch.counter 0 (pos c x 0) + sz.toUInt64).toUInt32 = 0 →
        t.sketch.counter 0 (pos c x 0) + sz.toUInt64 = 0))
  | .updateTxBytes _ => inferInstanceAs (Decidable True)
  | .clearWindow =>
    inferInstanceAs (Decidable (∀ i < c.depth, ∀ j < c.width, t.sketch.counter i j -
      t.sketch.counterSplit ((t.sketch.pointer + 1) % c.granularity) i j < 2 ^ 32))

end CmSketch

end HpccSim
