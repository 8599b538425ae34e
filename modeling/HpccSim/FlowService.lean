import HpccSim.Host
import HpccSim.Lib.RoundRobin
import Mathlib.Data.List.TakeWhile

/-!
# The round robin among the flows of a host

What `GetNextQindex` (`qbb-net-device.cc`) finds and what it removes: it looks at the queue pairs
in a circular order from behind the one served last, up to the first one that may send, and removes
the finished ones from the smallest index on at which it has met one. The loop computes its indices
in 32 bits. `m_rrlast` is an index into a group that shrinks under it, but only in a call that also
sets it; so a queue pair that may send whenever the device asks is passed over by none.

## Main definitions

* `RdmaEgressQueue.getNextQindex32`: `GetNextQindex` with the indices of the source.
* `RdmaEgressQueue.visited`: the indices looked at before one is found.
* `RdmaEgressQueue.Action`, `RdmaEgressQueue.step`: the uses of the queue, logged.

## Main results

* `RdmaEgressQueue.getNextQindex32_selects`: what is found and what is left.
* `RdmaEgressQueue.getNextQindex32_of_exec`: in a run the 32 bits do not matter.
* `RdmaEgressQueue.count_later_le_one`: no queue pair is served twice while another one waits.
-/

namespace HpccSim

namespace RdmaEgressQueue

variable (Q : RdmaEgressQueue) (store : ℕ → RdmaQueuePair) (paused : ℕ → Bool) (now : ℕ)

/-- The first loop of `GetNextQindex`, with `qIndex + m_rrlast` computed in 32 bits. -/
def search32 : Option ℕ × Option ℕ :=
  let fcount := Q.qpGrp.length
  scan (fun idx => store (Q.qpGrp.getD idx 0)) paused now
    ((List.range fcount).map fun k => (k + 1 + Q.rrlast) % 2 ^ 32 % fcount) none

/-- `RdmaEgressQueue::GetNextQindex` with the indices of the source. -/
def getNextQindex32 (ackQIdx : ℕ) : NextQindex × RdmaEgressQueue :=
  if !paused ackQIdx && !Q.ackQ.isEmpty then
    (.highPrio, Q)
  else
    let found := Q.search32 store paused now
    let left := Q.clearFinished store found.1 found.2
    (left.1.elim .idle .qp, left.2)

/-- The queue pair `id` may send now. -/
def mayServe (id : ℕ) : Bool :=
  isSendable paused (store id) && decide ((store id).nextAvail ≤ now)

/-- The indices at which `GetNextQindex` looks before it finds a queue pair that may send. -/
def visited : List ℕ :=
  ((List.range Q.qpGrp.length).rotate (Q.rrlast + 1)).takeWhile fun idx =>
    !mayServe store paused now (Q.qpGrp.getD idx 0)

/-- The smallest index of a finished queue pair at which `GetNextQindex` looks. -/
def minFinishId : Option ℕ :=
  ((Q.visited store paused now).filter fun idx => (store (Q.qpGrp.getD idx 0)).isFinished).min?

/-- `RdmaEgressQueue::DequeueQindex`: the queue pair that sends, if any. -/
def dequeueQindex : NextQindex → Option (Option ℕ × RdmaEgressQueue)
  | .idle => some (none, Q)
  | .highPrio => some (none, { Q with ackQ := Q.ackQ.tail })
  | .qp idx => Q.qpGrp[idx]?.map fun id => (some id, { Q with rrlast := idx })

/-- A use of the queue. -/
inductive Action where
  /-- `RdmaQueuePairGroup::AddQp` of a new queue pair. -/
  | addQp
  /-- A reply is queued. -/
  | reply (ch : AckFrame)
  /-- The device asks for a packet: `GetNextQindex`, and `DequeueQindex` of what it returns. The
  state of the queue pairs and the pauses may be any by then. -/
  | transmit (store : ℕ → RdmaQueuePair) (paused : ℕ → Bool) (now : ℕ)

deriving instance DecidableEq for RdmaEgressQueue

/-- A queue with the number of queue pairs added so far, which are numbered, and the log of those
that have sent, oldest first. -/
structure Logged extends RdmaEgressQueue where
  created : ℕ
  served : List ℕ
  deriving DecidableEq

/-- A queue as it is created. -/
def start : Logged where
  ackQ := []
  rrlast := 0
  qpGrp := []
  created := 0
  served := []

/-- One use. -/
def step (ackQIdx : ℕ) (S : Logged) : Action → Option Logged
  | .addQp => some { S with qpGrp := S.qpGrp ++ [S.created], created := S.created + 1 }
  | .reply ch => some { S with ackQ := S.ackQ ++ [ch] }
  | .transmit store paused now =>
    let next := S.getNextQindex store paused now ackQIdx
    (next.2.dequeueQindex next.1).map fun r =>
      { toRdmaEgressQueue := r.2, created := S.created, served := S.served ++ r.1.toList }

/-- A queue pair that is finished has no bytes left. -/
def Legal (S : Logged) : Action → Prop
  | .transmit store _ _ =>
    ∀ id ∈ S.qpGrp, (store id).isFinished = true → (store id).getBytesLeft = 0
  | _ => True

/-- The queue pair `c` may send when the device asks. -/
def Eligible (c : ℕ) : Action → Prop
  | .transmit store paused now => mayServe store paused now c = true
  | _ => True

/-- The indices are in the range of the types they have: `int`, and `uint32_t` for the sum with
`m_rrlast`. -/
structure InRange : Prop where
  length_le : Q.qpGrp.length ≤ 2 ^ 31
  sum_lt : Q.rrlast + Q.qpGrp.length < 2 ^ 32

variable {Q store paused now}

/-! ### The search -/

section Scan

variable {qp : ℕ → RdmaQueuePair} {idxs : List ℕ} {m : Option ℕ}

/-- The loop finds the first queue pair that may send now, and the smallest index before it of a
finished one, if finished queue pairs have nothing to send. -/
theorem scan_eq
    (hfin : ∀ idx ∈ idxs, (qp idx).isFinished = true → isSendable paused (qp idx) = false) :
    scan qp paused now idxs m =
      (idxs.find? fun idx => isSendable paused (qp idx) && decide ((qp idx).nextAvail ≤ now),
        (m.toList ++ ((idxs.takeWhile fun idx => !(isSendable paused (qp idx) &&
          decide ((qp idx).nextAvail ≤ now))).filter fun idx => (qp idx).isFinished)).min?) := by
  induction idxs generalizing m with
  | nil => cases m <;> rfl
  | cons idx idxs ih =>
    have ih := fun m => ih (m := m) fun i hi => hfin i (List.mem_cons_of_mem _ hi)
    have hidx := hfin idx List.mem_cons_self
    rw [scan]
    by_cases hs : isSendable paused (qp idx) = true
    · have hopen : (qp idx).isFinished = false := by
        by_contra hf
        rw [hidx (by simpa using hf)] at hs
        cases hs
      rw [if_pos hs]
      by_cases ha : (qp idx).nextAvail > now
      · rw [if_pos ha, ih]
        simp [hs, Nat.not_le.2 ha, hopen]
      · rw [if_neg ha]
        cases m <;> simp [hs, Nat.not_lt.1 ha]
    · rw [if_neg hs]
      by_cases hf : (qp idx).isFinished = true
      · rw [if_pos hf, ih]
        cases m with
        | none => simp [hs, hf]
        | some k =>
          have hmin (rest : List ℕ) : (min idx k :: rest).min? = (k :: idx :: rest).min? := by
            rw [List.min?_cons', List.min?_cons', List.foldl_cons, Nat.min_comm]
          simp [hs, hf, hmin]
      · rw [if_neg hf, ih]
        simp [hs, hf]

end Scan

theorem search32_eq_search (hfits : Q.InRange) :
    Q.search32 store paused now = Q.search store paused now := by
  have hsum := hfits.sum_lt
  have hidx : ((List.range Q.qpGrp.length).map fun k =>
      (k + 1 + Q.rrlast) % 2 ^ 32 % Q.qpGrp.length) =
      (List.range Q.qpGrp.length).map fun k => (k + 1 + Q.rrlast) % Q.qpGrp.length := by
    refine List.map_congr_left fun k hk => ?_
    have hlt := List.mem_range.1 hk
    rw [Nat.mod_eq_of_lt (by omega : k + 1 + Q.rrlast < 2 ^ 32)]
  simp only [search32, search, hidx]

/-- **In range the 32 bits do not matter.** -/
theorem getNextQindex32_eq (hfits : Q.InRange) (ackQIdx : ℕ) :
    Q.getNextQindex32 store paused now ackQIdx = Q.getNextQindex store paused now ackQIdx := by
  rw [getNextQindex32, getNextQindex, search32_eq_search hfits]

/-- **The search**: the first queue pair in the round that may send now, and the smallest index
before it of a finished one. -/
theorem search_eq
    (hfin : ∀ id ∈ Q.qpGrp, (store id).isFinished = true → isSendable paused (store id) = false) :
    Q.search store paused now =
      (((List.range Q.qpGrp.length).rotate (Q.rrlast + 1)).find? fun idx =>
        mayServe store paused now (Q.qpGrp.getD idx 0), Q.minFinishId store paused now) := by
  have hround : ((List.range Q.qpGrp.length).map fun k => (k + 1 + Q.rrlast) % Q.qpGrp.length) =
      (List.range Q.qpGrp.length).rotate (Q.rrlast + 1) := by
    rw [RoundRobin.rotate_range]
    refine List.map_congr_left fun k _ => ?_
    rw [Nat.add_assoc, Nat.add_comm 1]
  rw [search, hround, scan_eq]
  · rfl
  · intro idx hidx hf
    have hlt : idx < Q.qpGrp.length := List.mem_range.1 (List.mem_rotate.1 hidx)
    refine hfin _ ?_ hf
    simp [hlt]

/-- The queue pair at the index found is the first one in the round. -/
theorem find?_round (Q : RdmaEgressQueue) (p : ℕ → Bool) :
    (Q.qpGrp.rotate (Q.rrlast + 1)).find? p =
      (((List.range Q.qpGrp.length).rotate (Q.rrlast + 1)).find? fun idx =>
        p (Q.qpGrp.getD idx 0)).map fun idx => Q.qpGrp.getD idx 0 := by
  rw [RoundRobin.rotate_eq_map_getD Q.qpGrp _ 0, ← RoundRobin.rotate_range, List.find?_map]
  rfl

theorem clearFinished_snd (res m : Option ℕ)
    (hm : ∀ k ∈ m, ∃ fid, Q.qpGrp[k]? = some fid ∧ (store fid).isFinished = true) :
    (Q.clearFinished store res m).2 =
      { Q with qpGrp := m.elim Q.qpGrp fun k =>
          Q.qpGrp.take k ++ (Q.qpGrp.drop k).filter fun id => !(store id).isFinished } := by
  cases m with
  | none => rfl
  | some k =>
    obtain ⟨fid, hget, hf⟩ := hm k rfl
    obtain ⟨hlt, rfl⟩ := List.getElem?_eq_some_iff.1 hget
    simp only [clearFinished, compact_fst, Option.elim_some]
    rw [List.drop_eq_getElem_cons hlt, List.filter_cons_of_neg (by simp [hf])]

/-- A finished queue pair that has no bytes left may not send. -/
theorem isSendable_of_getBytesLeft {qp : RdmaQueuePair} (h : qp.getBytesLeft = 0) :
    isSendable paused qp = false := by
  simp [isSendable, RdmaQueuePair.isEligible, h]

theorem exists_of_minFinishId {m : ℕ} (h : Q.minFinishId store paused now = some m) :
    ∃ fid, Q.qpGrp[m]? = some fid ∧ (store fid).isFinished = true := by
  obtain ⟨hvisited, hf⟩ := List.mem_filter.1 (List.min?_mem h)
  have hlt : m < Q.qpGrp.length :=
    List.mem_range.1 (List.mem_rotate.1 ((List.takeWhile_sublist _).subset hvisited))
  refine ⟨Q.qpGrp[m], List.getElem?_eq_getElem hlt, ?_⟩
  simpa [hlt] using hf

/-- The group without the finished queue pairs from the smallest index met on. -/
def left (Q : RdmaEgressQueue) (store : ℕ → RdmaQueuePair) (m : Option ℕ) : List ℕ :=
  m.elim Q.qpGrp fun k => Q.qpGrp.take k ++ (Q.qpGrp.drop k).filter fun id =>
    !(store id).isFinished

theorem left_sublist (Q : RdmaEgressQueue) (store : ℕ → RdmaQueuePair) (m : Option ℕ) :
    (Q.left store m).Sublist Q.qpGrp := by
  cases m with
  | none => exact List.Sublist.refl _
  | some k =>
    have hsub : (Q.qpGrp.take k ++ (Q.qpGrp.drop k).filter fun id => !(store id).isFinished).Sublist
        (Q.qpGrp.take k ++ Q.qpGrp.drop k) := List.filter_sublist.append_left _
    rwa [List.take_append_drop] at hsub

theorem filter_left (Q : RdmaEgressQueue) (store : ℕ → RdmaQueuePair) (m : Option ℕ) :
    ((Q.left store m).filter fun id => !(store id).isFinished) =
      Q.qpGrp.filter fun id => !(store id).isFinished := by
  cases m with
  | none => rfl
  | some k =>
    rw [left, Option.elim_some, List.filter_append, List.filter_filter]
    simp only [Bool.and_self]
    rw [← List.filter_append, List.take_append_drop]

theorem getNextQindex_snd
    (hnot : ∀ id ∈ Q.qpGrp, (store id).isFinished = true → isSendable paused (store id) = false)
    {ackQIdx : ℕ} (hack : paused ackQIdx = true ∨ Q.ackQ = []) :
    (Q.getNextQindex store paused now ackQIdx).2 =
      { Q with qpGrp := Q.left store (Q.minFinishId store paused now) } := by
  rw [getNextQindex, if_neg (by rcases hack with h | h <;> simp [h]), search_eq hnot]
  exact clearFinished_snd _ _ fun k hk => exists_of_minFinishId hk

/-- The index returned is, in the group that is left, that of the first queue pair in the round that
may send now. -/
theorem getNextQindex_first
    (hnot : ∀ id ∈ Q.qpGrp, (store id).isFinished = true → isSendable paused (store id) = false)
    {ackQIdx first : ℕ} (hack : paused ackQIdx = true ∨ Q.ackQ = [])
    (hfirst : (Q.qpGrp.rotate (Q.rrlast + 1)).find? (mayServe store paused now) = some first) :
    ∃ idx, (Q.getNextQindex store paused now ackQIdx).1 = .qp idx ∧
      (Q.getNextQindex store paused now ackQIdx).2.qpGrp[idx]? = some first := by
  have hserve := List.find?_some hfirst
  have hmem : first ∈ Q.qpGrp := List.mem_rotate.1 (List.mem_of_find?_eq_some hfirst)
  have hopen : (store first).isFinished = false := by
    by_contra hf
    rw [mayServe, hnot first hmem (by simpa using hf)] at hserve
    cases hserve
  rw [find?_round] at hfirst
  obtain ⟨i, hi, hget⟩ := Option.map_eq_some_iff.1 hfirst
  have hlt : i < Q.qpGrp.length :=
    List.mem_range.1 (List.mem_rotate.1 (List.mem_of_find?_eq_some hi))
  have hid : Q.qpGrp[i]? = some first := by
    rw [← hget]
    simp [hlt]
  rw [getNextQindex, if_neg (by rcases hack with h | h <;> simp [h]), search_eq hnot, hi]
  cases hm : Q.minFinishId store paused now with
  | none => exact ⟨i, rfl, hid⟩
  | some m =>
    obtain ⟨fid, hmid, hf⟩ := exists_of_minFinishId hm
    obtain ⟨idx, hidx, hnew⟩ := clearFinished_spec hid hopen hmid hf
    exact ⟨idx, by simp only [hidx, Option.elim_some], hnew⟩

/-- **What `GetNextQindex` finds and leaves**, with no reply to send first: finished queue pairs are
removed from the smallest index met on, the others stay in order; it finds nothing exactly if no
queue pair may send; and otherwise the index is, in the group that is left, that of the first one in
circular order that may. -/
theorem getNextQindex32_selects (hfits : Q.InRange)
    (hfin : ∀ id ∈ Q.qpGrp, (store id).isFinished = true → (store id).getBytesLeft = 0)
    {ackQIdx : ℕ} (hack : paused ackQIdx = true ∨ Q.ackQ = []) :
    let r := Q.getNextQindex32 store paused now ackQIdx
    r.2 = { Q with qpGrp := Q.left store (Q.minFinishId store paused now) } ∧
      (r.2.qpGrp.filter fun id => !(store id).isFinished) =
        (Q.qpGrp.filter fun id => !(store id).isFinished) ∧
      r.2.qpGrp.Sublist Q.qpGrp ∧
      (r.1 = .idle ↔ ∀ id ∈ Q.qpGrp, mayServe store paused now id = false) ∧
      (r.1 ≠ .idle → ∃ idx first, r.1 = .qp idx ∧ r.2.qpGrp[idx]? = some first ∧
        (Q.qpGrp.rotate (Q.rrlast + 1)).find? (mayServe store paused now) = some first) := by
  have hnot : ∀ id ∈ Q.qpGrp, (store id).isFinished = true →
      isSendable paused (store id) = false := fun id hid hf =>
    isSendable_of_getBytesLeft (hfin id hid hf)
  have hsnd : (Q.getNextQindex store paused now ackQIdx).2 =
      { Q with qpGrp := Q.left store (Q.minFinishId store paused now) } :=
    getNextQindex_snd hnot hack
  rw [getNextQindex32_eq hfits]
  dsimp only
  refine ⟨hsnd, by rw [hsnd]; exact filter_left _ _ _, by rw [hsnd]; exact left_sublist _ _ _,
    ?_, fun hne => ?_⟩
  · rw [getNextQindex_eq_idle_iff]
    simp only [hack, true_and, mayServe, Bool.and_eq_false_imp, decide_eq_false_iff_not,
      Nat.not_le]
  · cases hfirst : (Q.qpGrp.rotate (Q.rrlast + 1)).find? (mayServe store paused now) with
    | none =>
      refine absurd (getNextQindex_eq_idle_iff.2 ⟨hack, fun id hid hsend => ?_⟩) hne
      have := List.find?_eq_none.1 hfirst id (List.mem_rotate.2 hid)
      simpa [mayServe, hsend] using this
    | some first =>
      obtain ⟨idx, hidx, hget⟩ := getNextQindex_first hnot hack hfirst
      exact ⟨idx, first, hidx, hget, rfl⟩

/-- A queue pair without window and pacing, of which nothing has been sent. -/
def waiting (size : UInt64) : RdmaQueuePair where
  pg := 0
  sip := 0
  dip := 0
  sport := 0
  dport := 0
  size := size
  sndNxt := 0
  sndUna := 0
  win := 0
  varWin := false
  rate := 0
  maxRate := 0
  nextAvail := 0

/-- Finished queue pairs on both sides of the one found. -/
theorem getNextQindex32_selects_between :
    let Q : RdmaEgressQueue := { ackQ := [], rrlast := 3, qpGrp := [0, 1, 2, 3] }
    let store := fun id => waiting (if id % 2 = 0 then 0 else 1000)
    let r := Q.getNextQindex32 store (fun _ => false) 0 3
    r.1 ≠ .idle ∧ ∃ idx first, r.1 = .qp idx ∧ r.2.qpGrp[idx]? = some first ∧
      (Q.qpGrp.rotate (Q.rrlast + 1)).find? (mayServe store (fun _ => false) 0) = some first :=
  ⟨by decide +kernel, (getNextQindex32_selects ⟨by decide, by decide⟩ (by decide +kernel)
    (.inr rfl)).2.2.2.2 (by decide +kernel)⟩

/-- With an `m_rrlast` close to `2 ^ 32` the sum wraps within the round: the indices of three queue
pairs are `0`, `0` and `1`, and the third one is not found. -/
theorem getNextQindex32_wrapped :
    let Q : RdmaEgressQueue := { ackQ := [], rrlast := 2 ^ 32 - 2, qpGrp := [0, 1, 2] }
    let store := fun id => waiting (if id = 2 then 1000 else 0)
    (∀ id ∈ Q.qpGrp, (store id).isFinished = true → (store id).getBytesLeft = 0) ∧
      ¬ ((Q.getNextQindex32 store (fun _ => false) 0 3).1 = .idle ↔
        ∀ id ∈ Q.qpGrp, mayServe store (fun _ => false) 0 id = false) := by
  decide +kernel

/-! ### Runs -/

open RoundRobin

variable {S S' T : Logged} {a : Action} {ackQIdx c : ℕ} {l : List ℕ}

/-- The queue pairs in the group have been added, each once, and `m_rrlast` is no index beyond
them. -/
structure Numbered (S : Logged) : Prop where
  nodup : S.qpGrp.Nodup
  lt : ∀ id ∈ S.qpGrp, id < S.created
  served_lt : ∀ id ∈ S.served, id < S.created
  rrlast_le : S.rrlast ≤ S.created

/-- The queue pairs `l` have been served while `c` waits; if there are any, `m_rrlast` is the index
of the last one. -/
def Ahead (S : Logged) (c : ℕ) (l : List ℕ) : Prop :=
  l ≠ [] → S.rrlast < S.qpGrp.length ∧ Passed (S.qpGrp.rotate (S.rrlast + 1)) c l

theorem Numbered.length_le (h : Numbered S) : S.qpGrp.length ≤ S.created := by
  have hsub : S.qpGrp ⊆ List.range S.created := fun id hid => List.mem_range.2 (h.lt id hid)
  simpa using (List.subperm_of_subset h.nodup hsub).length_le

/-- As long as fewer than `2 ^ 31` queue pairs have been added, the indices are in range. -/
theorem Numbered.inRange (h : Numbered S) (hcreated : S.created < 2 ^ 31) : S.InRange := by
  have hlen := h.length_le
  have hrr := h.rrlast_le
  exact ⟨by omega, by omega⟩

/-- What asking for a packet does to a queue in which `c` waits: a reply is sent, or the first
queue pair in the round that may send. -/
theorem transmit_cases
    (hfin : ∀ id ∈ S.qpGrp, (store id).isFinished = true → (store id).getBytesLeft = 0)
    (hc : c ∈ S.qpGrp) (hel : mayServe store paused now c = true)
    (hstep : step ackQIdx S (.transmit store paused now) = some S') :
    (S' = { S with ackQ := S.ackQ.tail }) ∨
    ∃ first idx grp,
      (S.qpGrp.rotate (S.rrlast + 1)).find? (mayServe store paused now) = some first ∧
      grp.Sublist S.qpGrp ∧ grp[idx]? = some first ∧ c ∈ grp ∧
      S' = { S with rrlast := idx, qpGrp := grp, served := S.served ++ [first] } := by
  have hnot : ∀ id ∈ S.qpGrp, (store id).isFinished = true →
      isSendable paused (store id) = false := fun id hid hf =>
    isSendable_of_getBytesLeft (hfin id hid hf)
  by_cases hack : paused ackQIdx = true ∨ S.ackQ = []
  · obtain ⟨first, hfirst⟩ := Option.isSome_iff_exists.1
      (List.find?_isSome.2 ⟨c, List.mem_rotate.2 hc, hel⟩)
    obtain ⟨idx, hidx, hget⟩ := getNextQindex_first hnot hack hfirst
    have hsnd : (S.getNextQindex store paused now ackQIdx).2 =
        { S.toRdmaEgressQueue with qpGrp := S.left store (S.minFinishId store paused now) } :=
      getNextQindex_snd hnot hack
    have hopen : (store c).isFinished = false := by
      by_contra hf
      rw [mayServe, hnot c hc (by simpa using hf)] at hel
      cases hel
    have hmem : c ∈ (S.getNextQindex store paused now ackQIdx).2.qpGrp :=
      mem_getNextQindex hc hopen
    simp only [step, hidx, dequeueQindex, hget, Option.map_some, Option.some.injEq] at hstep
    rw [hsnd] at hstep hget hmem
    refine .inr ⟨first, idx, S.left store (S.minFinishId store paused now), hfirst,
      left_sublist _ _ _, hget, hmem, hstep.symm⟩
  · have hnext : S.getNextQindex store paused now ackQIdx = (.highPrio, S.toRdmaEgressQueue) := by
      rw [getNextQindex, if_pos (by simpa using hack)]
    simp only [step, hnext, dequeueQindex, Option.map_some, Option.some.injEq] at hstep
    refine .inl (hstep.symm.trans ?_)
    simp

theorem numbered_start : Numbered start where
  nodup := List.nodup_nil
  lt _ hid := by cases hid
  served_lt _ hid := by cases hid
  rrlast_le := le_refl 0

/-- A use of the queue in which the group shrinks and queue pairs in it send. -/
theorem Numbered.of_sublist (h : Numbered S) (hcreated : S'.created = S.created)
    (hgrp : S'.qpGrp.Sublist S.qpGrp)
    (hserved : ∀ id ∈ S'.served, id ∈ S.served ∨ id ∈ S.qpGrp)
    (hrrlast : S'.rrlast ≤ max S.rrlast S'.qpGrp.length) : Numbered S' where
  nodup := h.nodup.sublist hgrp
  lt id hid := hcreated ▸ h.lt id (hgrp.subset hid)
  served_lt id hid := by
    rw [hcreated]
    exact (hserved id hid).elim (h.served_lt id) (h.lt id)
  rrlast_le := by
    have hlen := h.length_le
    have hle := hgrp.length_le
    have hrr := h.rrlast_le
    omega

theorem getNextQindex_snd_sublist (Q : RdmaEgressQueue) (store : ℕ → RdmaQueuePair)
    (paused : ℕ → Bool) (now ackQIdx : ℕ) :
    (Q.getNextQindex store paused now ackQIdx).2.qpGrp.Sublist Q.qpGrp ∧
      (Q.getNextQindex store paused now ackQIdx).2.rrlast = Q.rrlast := by
  rw [getNextQindex]
  split_ifs
  · exact ⟨List.Sublist.refl _, rfl⟩
  · dsimp only
    rw [clearFinished_snd _ _ fun k hk => search_snd hk]
    exact ⟨left_sublist Q store _, rfl⟩

/-- Every queue pair that is not finished stays, as often as it is there. -/
theorem filter_getNextQindex (Q : RdmaEgressQueue) (store : ℕ → RdmaQueuePair)
    (paused : ℕ → Bool) (now ackQIdx : ℕ) :
    ((Q.getNextQindex store paused now ackQIdx).2.qpGrp.filter fun id => !(store id).isFinished) =
      Q.qpGrp.filter fun id => !(store id).isFinished := by
  rw [getNextQindex]
  split_ifs
  · rfl
  · dsimp only
    rw [clearFinished_snd _ _ fun k hk => search_snd hk]
    exact filter_left Q store _

theorem dequeueQindex_qpGrp {next : NextQindex} {r : Option ℕ × RdmaEgressQueue}
    (h : Q.dequeueQindex next = some r) : r.2.qpGrp = Q.qpGrp := by
  cases next with
  | idle =>
    cases h
    rfl
  | highPrio =>
    cases h
    rfl
  | qp idx =>
    obtain ⟨id, -, rfl⟩ := Option.map_eq_some_iff.1 h
    rfl

theorem Numbered.step (h : Numbered S) (hstep : step ackQIdx S a = some S') : Numbered S' := by
  cases a with
  | addQp =>
    cases hstep
    refine ⟨?_, fun id hid => ?_, fun id hid => Nat.lt_succ_of_lt (h.served_lt id hid),
      Nat.le_succ_of_le h.rrlast_le⟩
    · refine List.nodup_append'.2 ⟨h.nodup, List.nodup_singleton _, ?_⟩
      rw [List.disjoint_singleton]
      exact fun hid => Nat.lt_irrefl _ (h.lt _ hid)
    · rcases List.mem_append.1 hid with hid | hid
      · exact Nat.lt_succ_of_lt (h.lt id hid)
      · rw [List.mem_singleton.1 hid]
        exact Nat.lt_succ_self _
  | reply ch =>
    cases hstep
    exact h.of_sublist rfl (List.Sublist.refl _) (fun _ hid => .inl hid) (le_max_left _ _)
  | transmit store paused now =>
    obtain ⟨hgrp, hrrlast⟩ := getNextQindex_snd_sublist S.toRdmaEgressQueue store paused now ackQIdx
    simp only [RdmaEgressQueue.step, Option.map_eq_some_iff] at hstep
    obtain ⟨r, hr, rfl⟩ := hstep
    cases hnext : (S.getNextQindex store paused now ackQIdx).1 with
    | idle =>
      rw [hnext] at hr
      cases hr
      exact h.of_sublist rfl hgrp (fun _ hid => .inl (by simpa using hid))
        (hrrlast ▸ le_max_left _ _)
    | highPrio =>
      rw [hnext] at hr
      cases hr
      exact h.of_sublist rfl hgrp (fun _ hid => .inl (by simpa using hid))
        (hrrlast ▸ le_max_left _ _)
    | qp idx =>
      rw [hnext, dequeueQindex] at hr
      obtain ⟨id, hid, rfl⟩ := Option.map_eq_some_iff.1 hr
      refine h.of_sublist rfl hgrp (fun id' hid' => ?_)
        ((List.getElem?_eq_some_iff.1 hid).1.le.trans (le_max_right _ _))
      rcases List.mem_append.1 hid' with hid' | hid'
      · exact .inl hid'
      · cases List.mem_singleton.1 hid'
        exact .inr (hgrp.subset (List.mem_of_getElem? hid))

/-- **A turn** while `c` waits: what is served has its turn before `c`, and `c` is passed over by
none, also if the group shrinks or grows. -/
theorem Numbered.ahead_step (h : Numbered S) (hc : c ∈ S.qpGrp) (hlegal : Legal S a)
    (hel : Eligible c a) (hstep : RdmaEgressQueue.step ackQIdx S a = some S') :
    c ∈ S'.qpGrp ∧ ∃ xs, S'.served = S.served ++ xs ∧
      (c ∉ xs → ∀ l, (∀ id ∈ l, id < S.created) → Ahead S c l → Ahead S' c (xs.reverse ++ l)) ∧
      xs.length ≤ 1 := by
  cases a with
  | addQp =>
    cases hstep
    refine ⟨List.mem_append_left _ hc, [], (List.append_nil _).symm, fun _ l hl hahead hne => ?_,
      Nat.zero_le 1⟩
    obtain ⟨hlt, hpassed⟩ := hahead hne
    have hlen : S.rrlast + 1 ≤ (S.qpGrp ++ [S.created]).length := by
      rw [List.length_append]
      omega
    refine ⟨hlen, ?_⟩
    rw [List.rotate_eq_drop_append_take (Nat.succ_le_of_lt hlt)] at hpassed
    rw [List.rotate_eq_drop_append_take hlen,
      List.drop_append_of_le_length (Nat.succ_le_of_lt hlt),
      List.take_append_of_le_length (Nat.succ_le_of_lt hlt), List.append_assoc,
      List.singleton_append]
    exact hpassed.insert (Nat.ne_of_gt (h.lt c hc)) fun hmem => Nat.lt_irrefl _ (hl _ hmem)
  | reply ch =>
    cases hstep
    exact ⟨hc, [], (List.append_nil _).symm, fun _ l _ hahead => hahead, Nat.zero_le 1⟩
  | transmit store paused now =>
    rcases transmit_cases hlegal hc hel hstep with
      rfl | ⟨first, idx, grp, hfirst, hgrp, hget, hmem, rfl⟩
    · exact ⟨hc, [], (List.append_nil _).symm, fun _ l _ hahead => hahead, Nat.zero_le 1⟩
    · refine ⟨hmem, [first], rfl, fun hne l _ hahead _ => ?_, le_refl 1⟩
      rw [List.mem_singleton] at hne
      refine ⟨(List.getElem?_eq_some_iff.1 hget).1, ?_⟩
      -- `c` may be served, so the search has stopped in front of it
      obtain ⟨-, A, B, hsplit, hA⟩ := List.find?_eq_some_iff_append.1 hfirst
      have hB : c ∈ B := by
        have hround : c ∈ A ++ first :: B := hsplit ▸ List.mem_rotate.2 hc
        rcases List.mem_append.1 hround with hcA | hcB
        · have := hA c hcA
          rw [show mayServe store paused now c = true from hel] at this
          cases this
        · exact (List.mem_cons.1 hcB).resolve_left hne
      have hpassed : Passed (S.qpGrp.rotate (S.rrlast + 1)) c l := by
        by_cases hl : l = []
        · rw [hl]
          exact .nil _ c
        · exact (hahead hl).2
      obtain ⟨i, hi⟩ := List.mem_iff_getElem?.1
        (List.mem_rotate.1 (List.mem_of_find?_eq_some hfirst))
      have hnext := hpassed.serve (List.nodup_rotate.2 h.nodup) hsplit hB
      rw [← rotate_succ_of_split h.nodup hsplit hi] at hnext
      exact hnext.sublist (rotate_succ_sublist h.nodup hgrp hi hget)

theorem Ahead.nodup (h : Ahead S c l) : l.Nodup := by
  by_cases hl : l = []
  · rw [hl]
    exact List.nodup_nil
  · exact (h hl).2.nodup

/-- The invariant while `c` may send, in the state `T` reached from `S`: what has been served before
`c` since then has been served once and, until `c` itself is served, has had its turn. -/
structure BypassedOnce (S : Logged) (c : ℕ) (T : Logged) : Prop where
  numbered : Numbered T
  mem : c ∈ T.qpGrp
  later : ∃ later, T.served = S.served ++ later ∧ (later.takeWhile fun id => id != c).Nodup ∧
    (c ∉ later → Ahead T c later.reverse)

theorem BypassedOnce.step {T' : Logged} (h : BypassedOnce S c T) (hlegal : Legal T a)
    (hel : Eligible c a) (hstep : RdmaEgressQueue.step ackQIdx T a = some T') :
    BypassedOnce S c T' := by
  obtain ⟨hT, hcT, later, hlater, hnodup, hahead⟩ := h
  obtain ⟨hcT', xs, hxs, hnext, hlen⟩ := hT.ahead_step hcT hlegal hel hstep
  refine ⟨hT.step hstep, hcT', later ++ xs, by rw [hxs, hlater, List.append_assoc], ?_⟩
  by_cases hin : c ∈ later
  · refine ⟨?_, fun hnot => absurd (List.mem_append_left xs hin) hnot⟩
    have hlt : (later.takeWhile fun id => id != c).length ≠ later.length := by
      intro heq
      have hall := List.takeWhile_eq_self_iff.1
        ((List.takeWhile_prefix _).eq_of_length heq) c hin
      simp at hall
    rwa [List.takeWhile_append, if_neg hlt]
  · have hold := hahead hin
    have hwhile : ((later ++ xs).takeWhile fun id => id != c) =
        later ++ xs.takeWhile fun id => id != c :=
      List.takeWhile_append_of_pos fun id hid => bne_iff_ne.2 fun heq => hin (heq ▸ hid)
    have hlt : ∀ id ∈ later.reverse, id < T.created := fun id hid =>
      hT.served_lt id (hlater ▸ List.mem_append_right _ (List.mem_reverse.1 hid))
    have hnew (hnot : c ∉ xs) : Ahead T' c (later ++ xs).reverse := by
      rw [List.reverse_append]
      exact hnext hnot _ hlt hold
    refine ⟨?_, fun hnot => hnew fun hxs => hnot (List.mem_append_right _ hxs)⟩
    rw [hwhile]
    by_cases hcx : c ∈ xs
    · have hone : xs = [c] := by
        obtain ⟨x, hx⟩ := List.length_eq_one_iff.1
          (Nat.le_antisymm hlen (List.length_pos_of_mem hcx))
        rw [hx, List.mem_singleton] at hcx
        rw [hx, hcx]
      rw [hone, List.takeWhile_cons_of_neg (by simp), List.append_nil]
      exact List.nodup_reverse.1 hold.nodup
    · exact (List.nodup_reverse.1 (hnew hcx).nodup).sublist
        ((List.takeWhile_sublist _).append_left later)

theorem numbered_of_exec {before : List Action}
    (hbefore : Run.exec (RdmaEgressQueue.step ackQIdx) start before = some S) : Numbered S :=
  Run.exec_invariant (I := Numbered) (fun _ _ _ hI hstep => hI.step hstep) numbered_start hbefore

/-- **The indices of a run are those of the source**, as long as fewer than `2 ^ 31` queue pairs
have been added: `GetNextQindex` finds and leaves the same if it computes them in 32 bits. -/
theorem getNextQindex32_of_exec {before : List Action}
    (hbefore : Run.exec (RdmaEgressQueue.step ackQIdx) start before = some S)
    (hcreated : S.created < 2 ^ 31) :
    S.getNextQindex32 store paused now ackQIdx = S.getNextQindex store paused now ackQIdx :=
  getNextQindex32_eq ((numbered_of_exec hbefore).inRange hcreated) ackQIdx

/-- **Bounded bypass.** From any state that the queue can reach, a queue pair of the group that may
send whenever the device asks sees each other queue pair send at most once before it sends itself.
The indices are natural numbers, by `getNextQindex32_of_exec` those of the source for groups of up
to `2 ^ 31` queue pairs. -/
theorem count_later_le_one {before actions : List Action}
    (hbefore : Run.exec (RdmaEgressQueue.step ackQIdx) start before = some S) (hc : c ∈ S.qpGrp)
    (halong : Run.Along (RdmaEgressQueue.step ackQIdx) (fun S a => Legal S a ∧ Eligible c a) S
      actions)
    (hexec : Run.exec (RdmaEgressQueue.step ackQIdx) S actions = some T) :
    ∃ later, T.served = S.served ++ later ∧
      ∀ d, (later.takeWhile fun id => id != c).count d ≤ 1 := by
  have hstart : BypassedOnce S c S :=
    ⟨numbered_of_exec hbefore, hc, [], (List.append_nil _).symm, List.nodup_nil,
      fun _ hne => absurd rfl hne⟩
  have hT : BypassedOnce S c T :=
    Run.exec_induction (fun _ _ _ hI hC hstep => hI.step hC.1 hC.2 hstep) hstart halong hexec
  obtain ⟨later, hlater, hnodup, -⟩ := hT.later
  exact ⟨later, hlater, List.nodup_iff_count_le_one.1 hnodup⟩

/-- A queue pair waits while others are served and one is added; in the end a finished one in front
of it leaves. -/
theorem count_later_le_one_three_flows :
    let store := fun id => waiting (if id = 0 then 0 else 1000)
    let ask : Action := .transmit store (fun _ => false) 0
    ∃ S T, Run.exec (step 3) start [.addQp, .addQp, .addQp, ask, .addQp] = some S ∧
      Run.exec (step 3) S [ask, .addQp, ask, ask, ask] = some T ∧
      ∃ later, T.served = S.served ++ later ∧
        ∀ d, (later.takeWhile fun id => id != 1).count d ≤ 1 := by
  let S : Logged := { ackQ := [], rrlast := 1, qpGrp := [0, 1, 2, 3], created := 4, served := [1] }
  let T : Logged :=
    { ackQ := [], rrlast := 0, qpGrp := [1, 2, 3, 4], created := 5, served := [1, 2, 3, 4, 1] }
  let ask : Action := .transmit (fun id => waiting (if id = 0 then 0 else 1000)) (fun _ => false) 0
  have hS : Run.exec (step 3) start [.addQp, .addQp, .addQp, ask, .addQp] = some S := by
    decide +kernel
  have hT : Run.exec (step 3) S [ask, .addQp, ask, ask, ask] = some T := by decide +kernel
  refine ⟨S, T, hS, hT, count_later_le_one hS (by decide) ?_ hT⟩
  refine Run.along_of_forall (fun S a ha => ?_) _
  have hlegal (id : ℕ) (h : (waiting (if id = 0 then 0 else 1000)).isFinished = true) :
      (waiting (if id = 0 then 0 else 1000)).getBytesLeft = 0 := by
    by_cases hid : id = 0
    · subst hid
      rfl
    · rw [if_neg hid] at h
      cases h
  have hserve : mayServe (fun id => waiting (if id = 0 then 0 else 1000)) (fun _ => false) 0 1 =
      true := by decide +kernel
  have hask : Legal S ask ∧ Eligible 1 ask := ⟨fun id _ => hlegal id, hserve⟩
  simp only [List.mem_cons, List.not_mem_nil, or_false] at ha
  rcases ha with rfl | rfl | rfl | rfl | rfl
  · exact hask
  · exact ⟨trivial, trivial⟩
  all_goals exact hask

end RdmaEgressQueue

namespace Host

variable {c : HostConfig} {h h' : Host} {i : ℕ}

/-- A device that is up and not busy asks its queue: `DequeueAndTransmit` is one `transmit`. -/
theorem dequeueQindex_of_dequeueAndTransmit (hl : (h.nics i).linkUp = true)
    (hb : (h.nics i).txBusy = false) (htx : h.dequeueAndTransmit c i = some h') :
    let next := (h.nics i).queue.getNextQindex h.qps (h.nics i).paused h.now c.ackQIdx
    (next.2.dequeueQindex next.1).map Prod.snd = some (h'.nics i).queue := by
  simp only [dequeueAndTransmit, hl, hb, Bool.not_true, Bool.false_eq_true, if_false] at htx
  dsimp only
  cases hnext : ((h.nics i).queue.getNextQindex h.qps (h.nics i).paused h.now c.ackQIdx).1 with
  | idle =>
    simp only [hnext, Option.some.injEq] at htx
    subst htx
    rcases scheduleNextSend_cases (h.setNic i _) i with heq | ⟨t, heq⟩
    all_goals
      rw [heq]
      simp [RdmaEgressQueue.dequeueQindex, setNic]
  | highPrio =>
    simp only [hnext, Option.some.injEq] at htx
    subst htx
    simp [RdmaEgressQueue.dequeueQindex, setNic]
  | qp idx =>
    simp only [hnext] at htx
    obtain ⟨id, hid, rfl⟩ := Option.map_eq_some_iff.1 htx
    simp [RdmaEgressQueue.dequeueQindex, hid, pktSent, log, setQp, setNic]

end Host

end HpccSim
