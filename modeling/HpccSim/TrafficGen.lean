import HpccSim.Lib.Decimal
import HpccSim.Lib.PyFloat
import HpccSim.Lib.Run
import Mathlib.Data.Prod.Lex

/-!
# The traffic generator

The script draws flows for all hosts until each has reached the end, and writes a line for each flow
in the order in which they start. The file begins with a line for the number of flows, which is not
known yet, so an estimate is written first and the number is written over it at the end.

The script computes with floating-point numbers: rates, gaps, sizes and the end are rounded, the
estimate is cut to an integer, and starts are rounded once more when they are printed. The script is
modelled for any numbers, and what holds of those that keep signs and orders holds of doubles.

## Main definitions

* `TrafficGen.Options`: the options of a run.
* `TrafficGen.step`: an iteration of the loop, for the numbers that are drawn in it.
* `TrafficGen.trafficGen`: the file left behind.
* `TrafficGen.Consistent`: what the file should be.
* `TrafficGen.Fits`: the number of flows can be written over the estimate.

## Main results

* `TrafficGen.consistent_iff_of_lawful`, `TrafficGen.consistent_iff`: the file is consistent exactly
  if the number of flows, that is the number of iterations without one for each host, can be written
  over the estimate.
-/

namespace HpccSim

open Decimal

namespace TrafficGen

variable {F : Type}

/-! ### The script -/

/-- The options; the bandwidth is in bits per second and the time in seconds. -/
structure Options (F : Type) where
  nhost : ℕ
  load : F
  bandwidth : F
  time : F
  cdf : List (F × F)

/-- The time at which the first flows can start, in nanoseconds. -/
def baseT : ℤ := 2000000000

/-- A flow, with the start that is printed, in nanoseconds. -/
structure Flow where
  src : ℕ
  dst : ℕ
  size : ℤ
  t : ℤ
  deriving DecidableEq

/-- The line of a flow, without the line break. -/
def Flow.line (f : Flow) : List Char :=
  digits f.src ++ ' ' :: (digits f.dst ++ " 3 100 ".toList ++ text f.size ++ ' ' :: fixed 9 f.t)

/-- What is drawn in an iteration: `-math.log(1-random.random())` for the gap, destinations until
one is not the source, and `random.random()` for the size, which is not used if the host has reached
the end. -/
structure Draw (F : Type) where
  gap : F
  dsts : List ℕ
  size : F

/-- What `random` can return. -/
structure Draw.Valid (fl : PyFloat F) (nhost : ℕ) (d : Draw F) : Prop where
  gap : fl.le (fl.ofInt 0) d.gap = true
  dsts : ∀ dst ∈ d.dsts, dst < nhost
  size : fl.le (fl.ofInt 0) d.size = true ∧ fl.le (fl.ofInt 1) d.size = false

/-- The variables of the loop and the text of the file. -/
structure State where
  hostList : List (ℤ ×ₗ ℕ)
  nFlow : ℕ
  file : List Char

section Script

variable (fl : PyFloat F)

/-- The loop of `testCdf`. -/
def increasingCdf : List (F × F) → Bool
  | (x₀, y₀) :: (x₁, y₁) :: cdf =>
    if fl.le y₁ y₀ || fl.le x₁ x₀ then false else increasingCdf ((x₁, y₁) :: cdf)
  | _ => true

/-- `testCdf`; `none` is the exception for an empty list. -/
def testCdf (cdf : List (F × F)) : Option Bool := do
  let first ← cdf.head?
  if ¬ fl.eq first.2 (fl.ofInt 0) then
    return false
  let last ← cdf.getLast?
  if ¬ fl.eq last.2 (fl.ofInt 100) then
    return false
  return increasingCdf fl cdf

/-- The loop of `getAvg`. -/
def avgLoop : F → F × F → List (F × F) → Option F
  | s, _, [] => some s
  | s, (last_x, last_y), (x, y) :: cdf => do
    let half ← fl.div (fl.add x last_x) (fl.ofInt 2)
    avgLoop (fl.add s (fl.mul half (fl.sub y last_y))) (x, y) cdf

/-- `getAvg`. -/
def getAvg : List (F × F) → Option F
  | [] => none
  | c :: cdf => do
    let s ← avgLoop fl (fl.ofInt 0) c cdf
    fl.div s (fl.ofInt 100)

/-- `getValueFromPercentile`. -/
def getValueFromPercentile (y : F) : List (F × F) → Option F
  | (x₀, y₀) :: (x₁, y₁) :: cdf =>
    if fl.le y y₁ then do
      let slope ← fl.div (fl.sub x₁ x₀) (fl.sub y₁ y₀)
      return fl.add x₀ (fl.mul slope (fl.sub y y₀))
    else getValueFromPercentile y ((x₁, y₁) :: cdf)
  | _ => none

variable (o : Options F)

/-- `avg_inter_arrival`, unless there is a division by zero. -/
def avgInterArrival : Option F := do
  let avg ← getAvg fl o.cdf
  let bytes ← fl.div (fl.mul o.bandwidth o.load) (fl.ofInt 8)
  let rate ← fl.div bytes avg
  let gap ← fl.div (fl.ofInt 1) rate
  return fl.mul gap (fl.ofInt 1000000000)

/-- `time`, in nanoseconds. -/
def time : F := fl.mul o.time (fl.ofInt 1000000000)

/-- `n_flow_estimate`, unless there is a division by zero or the quotient has no integer. -/
def nFlowEstimate : Option ℤ := do
  let lam ← avgInterArrival fl o
  let perHost ← fl.div (time fl o) lam
  fl.int (fl.mul perHost (fl.ofInt o.nhost))

/-- `poisson`, for the value `e` of `-math.log(1-random.random())`. -/
def poisson (e lam : F) : F := fl.mul e lam

/-- A flow or a gap after the time `t` is after the last time of a flow. -/
def late (t : ℤ) : Bool := fl.ltInt (fl.add (time fl o) (fl.ofInt baseT)) t

/-- A size, which is at least 1. -/
def sizeOf (v : F) : Option ℤ := do
  let size ← fl.int v
  return if size ≤ 0 then 1 else size

/-- The start that is printed. An integer that is too great for a number raises an exception. -/
def stamp (t : ℤ) : Option ℤ := fl.fixed9 (fl.mul (fl.ofInt t) fl.nano)

/-- An iteration of the loop. The least element of the heap is its first one. -/
def step (lam : F) (s : State) (d : Draw F) : Option State := do
  let top ← s.hostList.min?
  let t := (ofLex top).1
  let src := (ofLex top).2
  let inter ← fl.int (poisson fl d.gap lam)
  let dst ← d.dsts.find? (· ≠ src)
  if late fl o (t + inter) then
    return { s with hostList := s.hostList.erase top }
  else
    let v ← getValueFromPercentile fl (fl.mul d.size (fl.ofInt 100)) o.cdf
    let size ← sizeOf fl v
    let start ← stamp fl t
    let f : Flow := ⟨src, dst, size, start⟩
    return { hostList := toLex (t + inter, src) :: s.hostList.erase top
             nFlow := s.nFlow + 1
             file := s.file ++ f.line ++ ['\n'] }

/-- The state before the loop, for the estimate and the numbers drawn for the hosts. -/
def init (lam : F) (est : ℤ) (starts : ℕ → F) : Option State := do
  let hosts ← (List.range o.nhost).mapM fun i => do
    let inter ← fl.int (poisson fl (starts i) lam)
    return toLex (baseT + inter, i)
  return { hostList := hosts, nFlow := 0, file := text est ++ [' ', '\n'] }

/-- The file left behind, if the script ends after the iterations with the given draws. If an
exception is raised before the estimate is written, the file is empty; without an accepted `cdf`
there is none. -/
def trafficGen (starts : ℕ → F) (draws : List (Draw F)) : Option (List Char) := do
  if testCdf fl o.cdf ≠ some true then
    none
  else
    match avgInterArrival fl o, nFlowEstimate fl o with
    | some lam, some est => do
      let s₀ ← init fl o lam est starts
      let s ← Run.exec (step fl o lam) s₀ draws
      if s.hostList = [] then
        return overwrite (text s.nFlow) s.file
      else none
    | _, _ => return []

end Script

/-! ### What the file should be -/

/-- The flow goes from one host to another, and has a size. -/
structure Flow.Valid (nhost : ℕ) (f : Flow) : Prop where
  ne : f.src ≠ f.dst
  src : f.src < nhost
  dst : f.dst < nhost
  size : 1 ≤ f.size

/-- The first line, read as an integer, is the number of flows, each of which has a line that is
intact. The flows are in the order of their starts. -/
def Consistent (nhost : ℕ) (file : List Char) : Prop :=
  ∃ (first : List Char) (flows : List Flow),
    file = first ++ '\n' :: flows.flatMap (fun f => f.line ++ ['\n']) ∧ '\n' ∉ first ∧
      readNat first = some flows.length ∧
      (∀ f ∈ flows, f.Valid nhost) ∧ flows.Pairwise fun f g => f.t ≤ g.t

/-- The number `n` can be written over the text of `est` and the space behind it: it has as many
characters or one more, or it is zero and leaves only zeros. -/
def Fits (est : ℤ) (n : ℕ) : Prop :=
  ((text est).length ≤ (digits n).length ∧ (digits n).length ≤ (text est).length + 1) ∨
    n = 0 ∧ ∀ c ∈ (text est).tail, c = '0'

/-! ### Iterations -/

section Iterations

variable {fl : PyFloat F} {o : Options F} {lam : F} {est : ℤ} {s s' : State} {d : Draw F}
  {flows : List Flow}

theorem one_le_sizeOf {v : F} {size : ℤ} (h : sizeOf fl v = some size) : 1 ≤ size := by
  obtain ⟨i, -, hi⟩ := Option.bind_eq_some_iff.1 h
  obtain rfl := Option.some.inj hi
  split_ifs <;> omega

/-- What an iteration does to the entry `top`, the least one: it is removed, or it is moved by the
gap, and a flow is written. -/
theorem step_cases (h : step fl o lam s d = some s') : ∃ top inter, s.hostList.min? = some top ∧
    fl.int (poisson fl d.gap lam) = some inter ∧
    ((late fl o ((ofLex top).1 + inter) = true ∧
        s' = { s with hostList := s.hostList.erase top }) ∨
      ∃ f : Flow, f.src = (ofLex top).2 ∧ stamp fl (ofLex top).1 = some f.t ∧ f.src ≠ f.dst ∧
        f.dst ∈ d.dsts ∧ 1 ≤ f.size ∧ late fl o ((ofLex top).1 + inter) = false ∧
        s' = { hostList := toLex ((ofLex top).1 + inter, (ofLex top).2) :: s.hostList.erase top
               nFlow := s.nFlow + 1
               file := s.file ++ f.line ++ ['\n'] }) := by
  simp only [step, Option.bind_eq_bind, Option.bind_eq_some_iff] at h
  obtain ⟨top, htop, inter, hinter, dst, hdst, h⟩ := h
  refine ⟨top, inter, htop, hinter, ?_⟩
  split_ifs at h with hend
  · exact .inl ⟨hend, (Option.some.inj h).symm⟩
  · simp only [Option.bind_eq_some_iff] at h
    obtain ⟨v, -, size, hsize, start, hstart, h⟩ := h
    have hne : dst ≠ (ofLex top).2 := by simpa using List.find?_some hdst
    exact .inr ⟨⟨(ofLex top).2, dst, size, start⟩, rfl, hstart, hne.symm,
      List.mem_of_find?_eq_some hdst, one_le_sizeOf hsize, Bool.eq_false_iff.2 hend,
      (Option.some.inj h).symm⟩

/-- Each iteration writes a flow or removes a host. -/
theorem count_of_exec {draws : List (Draw F)} (h : Run.exec (step fl o lam) s draws = some s') :
    s'.nFlow + s.hostList.length = s.nFlow + s'.hostList.length + draws.length := by
  induction draws generalizing s with
  | nil =>
    cases h
    rfl
  | cons d draws ih =>
    obtain ⟨s₁, h₁, h₂⟩ := Run.exec_cons_eq_some.1 h
    have hrest := ih h₂
    obtain ⟨top, inter, htop, -, hcases⟩ := step_cases h₁
    have hmem : top ∈ s.hostList := List.min?_mem htop
    have hpos : 0 < s.hostList.length := List.length_pos_of_mem hmem
    have hlen := List.length_erase_of_mem hmem
    rcases hcases with ⟨-, rfl⟩ | ⟨f, -, -, -, -, -, -, rfl⟩
    · simp only [hlen, List.length_cons] at hrest ⊢
      omega
    · simp only [hlen, List.length_cons] at hrest ⊢
      omega

/-- The lines of the flows. -/
def body (flows : List Flow) : List Char := flows.flatMap fun f => f.line ++ ['\n']

variable (fl lam) in
/-- No gap is negative. -/
def Forward : Prop :=
  ∀ e i, fl.le (fl.ofInt 0) e = true → fl.int (poisson fl e lam) = some i → 0 ≤ i

variable (fl lam) in
/-- No gap is positive. -/
def Backward : Prop :=
  ∀ e i, fl.le (fl.ofInt 0) e = true → fl.int (poisson fl e lam) = some i → i ≤ 0

/-- The file has lines for the given flows, in the order of their starts. If gaps were negative, a
host that has a flow would never reach the end. -/
structure Written (fl : PyFloat F) (o : Options F) (lam : F) (est : ℤ) (s : State)
    (flows : List Flow) : Prop where
  file : s.file = text est ++ ' ' :: '\n' :: body flows
  length : flows.length = s.nFlow
  valid : ∀ f ∈ flows, f.Valid o.nhost
  hosts : ∀ p ∈ s.hostList, (ofLex p).2 < o.nhost
  pairwise : Forward fl lam → flows.Pairwise fun f g => f.t ≤ g.t
  le : Forward fl lam → ∀ f ∈ flows, ∀ p ∈ s.hostList, ∀ i,
    stamp fl (ofLex p).1 = some i → f.t ≤ i
  stuck : Backward fl lam → flows = [] ∨ ∃ p ∈ s.hostList, late fl o (ofLex p).1 = false

/-- Each of the results is that of an element. -/
theorem of_mapM_eq_some {α β : Type} {g : α → Option β} {l : List α} {r : List β}
    (h : l.mapM g = some r) : r.length = l.length ∧ ∀ b ∈ r, ∃ a ∈ l, g a = some b := by
  induction l generalizing r with
  | nil =>
    cases h
    exact ⟨rfl, List.forall_mem_nil _⟩
  | cons a l ih =>
    simp only [List.mapM_cons, Option.bind_eq_bind, Option.bind_eq_some_iff] at h
    obtain ⟨b, hb, r, hr, h⟩ := h
    obtain rfl := Option.some.inj h
    obtain ⟨hlen, hall⟩ := ih hr
    refine ⟨congrArg Nat.succ hlen, List.forall_mem_cons.2 ⟨⟨a, List.mem_cons_self, hb⟩, ?_⟩⟩
    intro b' hb'
    obtain ⟨a', ha', hab⟩ := hall b' hb'
    exact ⟨a', List.mem_cons_of_mem a ha', hab⟩

/-- The state before the loop has an entry for each host. -/
theorem written_init {starts : ℕ → F} (h : init fl o lam est starts = some s) :
    Written fl o lam est s [] ∧ s.hostList.length = o.nhost := by
  obtain ⟨hosts, hhosts, h⟩ := Option.bind_eq_some_iff.1 h
  obtain rfl := Option.some.inj h
  obtain ⟨hlen, hall⟩ := of_mapM_eq_some hhosts
  refine ⟨⟨rfl, rfl, List.forall_mem_nil _, fun p hp => ?_, fun _ => .nil,
    fun _ => List.forall_mem_nil _, fun _ => .inl rfl⟩, hlen.trans List.length_range⟩
  obtain ⟨i, hi, hp⟩ := hall p hp
  obtain ⟨inter, -, hp⟩ := Option.bind_eq_some_iff.1 hp
  obtain rfl := Option.some.inj hp
  exact List.mem_range.1 hi

/-- An entry of the heap does not lie before its first one. -/
theorem fst_le_of_min? {l : List (ℤ ×ₗ ℕ)} {top p : ℤ ×ₗ ℕ} (h : l.min? = some top)
    (hp : p ∈ l) : (ofLex top).1 ≤ (ofLex p).1 := by
  have hle : top ≤ p := (List.min?_eq_some_iff.1 h).2 p hp
  rcases (Prod.Lex.le_iff).1 hle with hlt | ⟨heq, -⟩
  · exact hlt.le
  · exact heq.le

section Lawful

variable (hfl : fl.Lawful)

include hfl

theorem stamp_mono {t u i j : ℤ} (h : t ≤ u) (hi : stamp fl t = some i)
    (hj : stamp fl u = some j) : i ≤ j := hfl.fixed9_nano_mono h hi hj

/-- What is in time stays in time when it is moved back. -/
theorem late_eq_false {t u : ℤ} (h : t ≤ u) (hu : late fl o u = false) : late fl o t = false := by
  rw [Bool.eq_false_iff] at hu ⊢
  exact fun ht => hu (hfl.ltInt_mono _ t u ht h)

/-- The first host has reached the end. -/
theorem Written.pop (h : Written fl o lam est s flows) (hd : d.Valid fl o.nhost) {top : ℤ ×ₗ ℕ}
    {inter : ℤ} (hinter : fl.int (poisson fl d.gap lam) = some inter)
    (hend : late fl o ((ofLex top).1 + inter) = true) :
    Written fl o lam est { s with hostList := s.hostList.erase top } flows where
  file := h.file
  length := h.length
  valid := h.valid
  hosts p hp := h.hosts p (List.mem_of_mem_erase hp)
  pairwise := h.pairwise
  le hlam f hf p hp := h.le hlam f hf p (List.mem_of_mem_erase hp)
  stuck hlam := by
    rcases h.stuck hlam with hnil | ⟨p, hp, hin⟩
    · exact .inl hnil
    refine .inr ⟨p, (List.mem_erase_of_ne ?_).2 hp, hin⟩
    rintro rfl
    have hgap : inter ≤ 0 := hlam d.gap inter hd.gap hinter
    rw [late_eq_false hfl (by omega) hin] at hend
    cases hend

/-- A flow is written. -/
theorem Written.flow (h : Written fl o lam est s flows) (hd : d.Valid fl o.nhost) {top : ℤ ×ₗ ℕ}
    {inter : ℤ} (htop : s.hostList.min? = some top)
    (hinter : fl.int (poisson fl d.gap lam) = some inter) {f : Flow}
    (hsrc : f.src = (ofLex top).2) (ht : stamp fl (ofLex top).1 = some f.t) (hne : f.src ≠ f.dst)
    (hdst : f.dst ∈ d.dsts) (hsize : 1 ≤ f.size)
    (hend : late fl o ((ofLex top).1 + inter) = false) :
    Written fl o lam est
      { hostList := toLex ((ofLex top).1 + inter, (ofLex top).2) :: s.hostList.erase top
        nFlow := s.nFlow + 1
        file := s.file ++ f.line ++ ['\n'] } (flows ++ [f]) where
  file := by simp [h.file, body]
  length := by rw [List.length_append, h.length, List.length_singleton]
  valid g hg := by
    rcases List.mem_append.1 hg with hg | hg
    · exact h.valid g hg
    · rw [List.mem_singleton.1 hg]
      exact ⟨hne, hsrc ▸ h.hosts top (List.min?_mem htop), hd.dsts _ hdst, hsize⟩
  hosts p hp := by
    rcases List.mem_cons.1 hp with rfl | hp
    · exact h.hosts top (List.min?_mem htop)
    · exact h.hosts p (List.mem_of_mem_erase hp)
  pairwise hlam := by
    refine List.pairwise_append.2 ⟨h.pairwise hlam, List.pairwise_singleton _ _, ?_⟩
    intro g hg f' hf'
    rw [List.mem_singleton.1 hf']
    exact h.le hlam g hg top (List.min?_mem htop) f.t ht
  le hlam g hg p hp i hi := by
    have hgap : 0 ≤ inter := hlam d.gap inter hd.gap hinter
    have hle : g.t ≤ f.t := by
      rcases List.mem_append.1 hg with hg | hg
      · exact h.le hlam g hg top (List.min?_mem htop) f.t ht
      · rw [List.mem_singleton.1 hg]
    refine hle.trans (stamp_mono hfl ?_ ht hi)
    rcases List.mem_cons.1 hp with rfl | hp
    · exact Int.le_add_of_nonneg_right hgap
    · exact fst_le_of_min? htop (List.mem_of_mem_erase hp)
  stuck _ := .inr ⟨_, List.mem_cons_self, hend⟩

theorem Written.step (h : Written fl o lam est s flows) (hd : d.Valid fl o.nhost)
    (hs : step fl o lam s d = some s') : ∃ flows', Written fl o lam est s' flows' := by
  obtain ⟨top, inter, htop, hinter, hcases⟩ := step_cases hs
  rcases hcases with ⟨hend, rfl⟩ | ⟨f, hsrc, ht, hne, hdst, hsize, hend, rfl⟩
  · exact ⟨flows, h.pop hfl hd hinter hend⟩
  · exact ⟨flows ++ [f], h.flow hfl hd htop hinter hsrc ht hne hdst hsize hend⟩

/-- After the loop, the flows are in the order of their starts. -/
theorem Written.sorted (h : Written fl o lam est s flows) (hnil : s.hostList = []) :
    flows.Pairwise fun f g => f.t ≤ g.t := by
  rcases hfl.int_mul_cases lam with hlam | hlam
  · exact h.pairwise hlam
  · rcases h.stuck hlam with rfl | ⟨p, hp, -⟩
    · exact .nil
    · rw [hnil] at hp
      cases hp

end Lawful

end Iterations

/-! ### The first line -/

section FirstLine

variable {nhost n : ℕ} {est : ℤ} {flows : List Flow}

theorem newline_notMem_line (f : Flow) : '\n' ∉ f.line := by
  have hport : '\n' ∉ " 3 100 ".toList := by decide
  simp [Flow.line, newline_notMem_digits, newline_notMem_text, newline_notMem_fixed]

theorem count_body : (body flows).count '\n' = flows.length := by
  induction flows with
  | nil => rfl
  | cons f flows ih =>
    have hline : f.line.count '\n' = 0 := List.count_eq_zero.2 (newline_notMem_line f)
    have hcons : body (f :: flows) = f.line ++ '\n' :: body flows := by simp [body]
    rw [hcons, List.count_append, hline, List.count_cons_self, ih, List.length_cons]
    omega

/-- In a consistent file, the number at the start is one less than the number of lines. -/
theorem Consistent.readNat {file : List Char} (h : Consistent nhost file) :
    readNat file = some (file.count '\n' - 1) := by
  obtain ⟨first, flows, rfl, hfirst, hread, -, -⟩ := h
  have hcount : (body flows).count '\n' = flows.length := count_body
  rw [body] at hcount
  rw [readNat_append_cons (by decide), hread, List.count_append, List.count_eq_zero.2 hfirst,
    List.count_cons_self, hcount]
  congr 1
  omega

/-- What is left of the first line, and the lines behind it. -/
theorem drop_header {k : ℕ} (hk : k ≤ (text est).length + 1) (l : List Char) :
    (text est ++ ' ' :: '\n' :: l).drop k =
      (text est).drop k ++ ([' '].drop (k - (text est).length) ++ '\n' :: l) := by
  have hle : k - (text est).length ≤ [' '].length := by
    rw [List.length_singleton]
    omega
  have hcons : ' ' :: '\n' :: l = [' '] ++ '\n' :: l := rfl
  rw [List.drop_append, hcons, List.drop_append_of_le_length hle]

/-- The digits that are left of the estimate. -/
theorem takeWhile_drop_header {k : ℕ} (hpos : 0 < k) (hk : k ≤ (text est).length + 1)
    (l : List Char) :
    ((text est ++ ' ' :: '\n' :: l).drop k).takeWhile Char.isDigit = (text est).drop k := by
  have hdigit : ∀ c ∈ (text est).drop k, c.isDigit := by
    intro c hc
    have htail : (text est).drop k = (text est).tail.drop (k - 1) := by
      rw [List.drop_tail, Nat.sub_add_cancel hpos]
    rw [htail] at hc
    exact isDigit_of_mem_tail_text (List.mem_of_mem_drop hc)
  have hstop : ([' '].drop (k - (text est).length) ++ '\n' :: l).takeWhile Char.isDigit = [] := by
    cases k - (text est).length with
    | zero => rfl
    | succ j => simp
  rw [drop_header hk, List.takeWhile_append_of_pos hdigit, hstop, List.append_nil]

theorem fits_iff : Fits est n ↔ (digits n).length ≤ (text est).length + 1 ∧
    ((text est).drop (digits n).length = [] ∨
      n = 0 ∧ ∀ c ∈ (text est).drop (digits n).length, c = '0') := by
  have hpos := length_text_pos est
  rw [Fits, List.drop_eq_nil_iff]
  constructor
  · rintro (⟨hle, hle'⟩ | ⟨rfl, h⟩)
    · exact ⟨hle', .inl hle⟩
    · have hone : (digits 0).length = 1 := rfl
      rw [hone, List.drop_one]
      exact ⟨by omega, .inr ⟨rfl, h⟩⟩
  · rintro ⟨hle', hle | ⟨rfl, h⟩⟩
    · exact .inl ⟨hle, hle'⟩
    · have hone : (digits 0).length = 1 := rfl
      rw [hone, List.drop_one] at h
      exact .inr ⟨rfl, h⟩

/-- The number of lines, if the break of the first one is overwritten. -/
theorem count_overwrite_le {new : List Char} (hnew : '\n' ∉ new)
    (hlen : (text est).length + 1 < new.length) :
    (overwrite new (text est ++ ' ' :: '\n' :: body flows)).count '\n' ≤ flows.length := by
  have hsub : (text est ++ ' ' :: '\n' :: body flows).drop new.length =
      (body flows).drop (new.length - (text est).length - 2) := by
    rw [List.drop_append, List.drop_eq_nil_of_le (by omega), List.nil_append]
    have hadd : new.length - (text est).length = new.length - (text est).length - 2 + 2 := by omega
    rw [hadd]
    rfl
  rw [overwrite, List.count_append, List.count_eq_zero.2 hnew, Nat.zero_add, hsub, ← count_body]
  exact (List.drop_sublist _ _).count_le _

/-- What is left of the first line has no line break. -/
theorem newline_notMem_first {k j : ℕ} :
    '\n' ∉ digits n ++ ((text est).drop k ++ [' '].drop j) := by
  have htext : '\n' ∉ (text est).drop k := fun h => newline_notMem_text est (List.mem_of_mem_drop h)
  have hspace : '\n' ∉ [' '].drop j := fun h => absurd (List.mem_of_mem_drop h) (by decide)
  simp only [List.mem_append, newline_notMem_digits, htext, hspace, or_self, not_false_eq_true]

variable (flows) in
/-- A number that leaves the break of the first line. -/
theorem overwrite_header (hlen : (digits n).length ≤ (text est).length + 1) : ∃ j,
    overwrite (digits n) (text est ++ ' ' :: '\n' :: body flows) =
      digits n ++ ((text est).drop (digits n).length ++ [' '].drop j) ++ '\n' :: body flows := by
  obtain ⟨j, hdrop⟩ : ∃ j, (text est ++ ' ' :: '\n' :: body flows).drop (digits n).length =
      (text est).drop (digits n).length ++ ([' '].drop j ++ '\n' :: body flows) :=
    ⟨_, drop_header hlen _⟩
  refine ⟨j, ?_⟩
  rw [overwrite, hdrop]
  simp only [List.append_assoc]

variable (flows) in
/-- The number is read again if what is behind it in the first line does not matter. -/
theorem readNat_overwrite_iff (hlen : (digits n).length ≤ (text est).length + 1) :
    readNat (overwrite (digits n) (text est ++ ' ' :: '\n' :: body flows)) = some n ↔
      (text est).drop (digits n).length = [] ∨
        n = 0 ∧ ∀ c ∈ (text est).drop (digits n).length, c = '0' := by
  rw [overwrite, readNat_eq_iff, takeWhile_drop_header length_digits_pos hlen]

/-- The number of flows, written over the estimate. -/
theorem consistent_overwrite_iff (hvalid : ∀ f ∈ flows, f.Valid nhost)
    (hsorted : flows.Pairwise fun f g => f.t ≤ g.t) :
    Consistent nhost
        (overwrite (digits flows.length) (text est ++ ' ' :: '\n' :: body flows)) ↔
      Fits est flows.length := by
  rw [fits_iff]
  by_cases hlen : (digits flows.length).length ≤ (text est).length + 1
  · -- The line break of the first line is kept.
    obtain ⟨j, hsplit⟩ := overwrite_header flows hlen
    rw [and_iff_right hlen, ← readNat_overwrite_iff flows hlen, hsplit]
    constructor
    · intro h
      have hnum := h.readNat
      rw [List.count_append, List.count_eq_zero.2 newline_notMem_first, List.count_cons_self,
        count_body] at hnum
      simpa using hnum
    · intro h
      rw [readNat_append_cons (by decide)] at h
      exact ⟨_, flows, rfl, newline_notMem_first, h, hvalid, hsorted⟩
  · -- The file has fewer lines than the number says.
    refine iff_of_false (fun h => ?_) fun h => hlen h.1
    have hcount : (overwrite (digits flows.length)
        (text est ++ ' ' :: '\n' :: body flows)).count '\n' ≤ flows.length :=
      count_overwrite_le newline_notMem_digits (not_le.1 hlen)
    have hle : flows.length ≤ (overwrite (digits flows.length)
        (text est ++ ' ' :: '\n' :: body flows)).count '\n' - 1 := le_of_readNat h.readNat
    have hpos : flows.length ≠ 0 := by
      intro hzero
      rw [hzero] at hlen
      exact hlen (Nat.le_add_left _ _)
    omega

end FirstLine

/-! ### The file -/

/-- The file left behind is consistent exactly if no exception is raised before the estimate is
written and the number of flows can be written over the estimate. Every host takes one iteration to
reach the end, and the others write a flow. -/
theorem consistent_iff_of_lawful {fl : PyFloat F} (hfl : fl.Lawful) (o : Options F) (starts : ℕ → F)
    (draws : List (Draw F)) (hdraws : ∀ d ∈ draws, d.Valid fl o.nhost) {file : List Char}
    (h : trafficGen fl o starts draws = some file) :
    Consistent o.nhost file ↔
      ∃ est, nFlowEstimate fl o = some est ∧ Fits est (draws.length - o.nhost) := by
  rw [trafficGen] at h
  split_ifs at h
  cases hlam : avgInterArrival fl o with
  | none =>
    have hest : nFlowEstimate fl o = none := by
      rw [nFlowEstimate, hlam]
      rfl
    rw [hlam] at h
    obtain rfl := Option.some.inj h
    refine iff_of_false ?_ (by simp [hest])
    rintro ⟨first, flows, hfile, -⟩
    simp at hfile
  | some lam =>
    cases hest : nFlowEstimate fl o with
    | none =>
      rw [hlam, hest] at h
      obtain rfl := Option.some.inj h
      refine iff_of_false ?_ (by simp)
      rintro ⟨first, flows, hfile, -⟩
      simp at hfile
    | some est =>
      rw [hlam, hest] at h
      simp only [Option.bind_eq_bind, Option.bind_eq_some_iff] at h
      obtain ⟨s₀, hinit, s, hrun, h⟩ := h
      split_ifs at h with hnil
      obtain rfl := Option.some.inj h
      obtain ⟨hstart, hhosts⟩ := written_init hinit
      obtain ⟨flows, hwritten⟩ : ∃ flows, Written fl o lam est s flows :=
        Run.exec_induction (I := fun s => ∃ flows, Written fl o lam est s flows)
          (C := fun _ d => d.Valid fl o.nhost)
          (fun s d s' ⟨flows, hs⟩ hd hstep => hs.step hfl hd hstep) ⟨[], hstart⟩
          (Run.along_of_forall (fun _ => hdraws) _) hrun
      have hcount : draws.length - o.nhost = flows.length := by
        have hexec := count_of_exec hrun
        rw [hhosts, hnil, List.length_nil, ← hwritten.length, ← hstart.length,
          List.length_nil] at hexec
        omega
      have htext : text s.nFlow = digits flows.length := by
        rw [hwritten.length]
        rfl
      rw [hcount, htext, hwritten.file,
        consistent_overwrite_iff hwritten.valid (hwritten.sorted hfl hnil)]
      simp

/-- Two hosts for 5 seconds, with a flow in each second on average, so 10 are expected. -/
def twoHosts (fl : PyFloat F) : Options F where
  nhost := 2
  load := fl.ofInt 1
  bandwidth := fl.ofInt 8
  time := fl.ofInt 5
  cdf := [(fl.ofInt 0, fl.ofInt 0), (fl.ofInt 2, fl.ofInt 100)]

/-- One flow from host 0 to host 1, after which both hosts reach the end. -/
def oneFlow (fl : PyFloat F) : List (Draw F) :=
  [⟨fl.ofInt 1, [0, 1], fl.ofInt 0⟩, ⟨fl.ofInt 6, [0], fl.ofInt 0⟩, ⟨fl.ofInt 6, [1], fl.ofInt 0⟩]

theorem valid_oneFlow {fl : PyFloat F}
    (h : fl.le (fl.ofInt 0) (fl.ofInt 0) = true ∧ fl.le (fl.ofInt 0) (fl.ofInt 1) = true ∧
      fl.le (fl.ofInt 0) (fl.ofInt 6) = true ∧ fl.le (fl.ofInt 1) (fl.ofInt 0) = false) :
    ∀ d ∈ oneFlow fl, d.Valid fl (twoHosts fl).nhost := by
  obtain ⟨hzero, hone, hsix, hlt⟩ := h
  rw [oneFlow, List.forall_mem_cons, List.forall_mem_cons, List.forall_mem_singleton]
  exact ⟨⟨hone, by simp [twoHosts], hzero, hlt⟩, ⟨hsix, by simp [twoHosts], hzero, hlt⟩,
    ⟨hsix, by simp [twoHosts], hzero, hlt⟩⟩

/-- The estimate of doubles is not that of exact numbers. -/
example : nFlowEstimate .double ⟨2, .num 1, .num 40, .num 19,
      [(.num 0, .num 0), (.num 38, .num 100)]⟩ = some 9 ∧
    nFlowEstimate .exact ⟨2, 1, 40, 19, [(0, 0), (38, 100)]⟩ = some 10 := by
  decide +kernel

end TrafficGen

end HpccSim
