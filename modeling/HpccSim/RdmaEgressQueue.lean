import HpccSim.RdmaHw
import Mathlib.Data.List.Basic

/-!
# The egress queue of a host

`RdmaEgressQueue` (`qbb-net-device.cc`) holds the replies of the host, which go first, and the
group of the queue pairs that send through the device. `GetNextQindex` takes the queue pairs in
turn, starting behind the one served last, and on its way removes finished ones; the index it
returns is the one after the removal. A queue pair is named by its number, since the source shares
pointers, and looked up in a store.

## Main definitions

* `RdmaEgressQueue`, `RdmaEgressQueue.getNextQindex`.

## Main results

* `RdmaEgressQueue.getNextQindex_spec`: if no finished queue pair has anything to send, the index
  returned is that of a queue pair that may send.
* `RdmaEgressQueue.getNextQindex_eq_idle_iff`: when nothing is found.
-/

namespace HpccSim

/-- `RdmaEgressQueue`; `m_ackQ` is not limited, its `MaxBytes` being `0xffffffff`. -/
structure RdmaEgressQueue where
  ackQ : List AckFrame
  rrlast : ℕ
  /-- The numbers of the queue pairs in `m_qpGrp`. -/
  qpGrp : List ℕ

/-- The result of `GetNextQindex`. -/
inductive NextQindex where
  /-- `-1024` -/
  | idle
  /-- `-1` -/
  | highPrio
  | qp (idx : ℕ)
  deriving DecidableEq

namespace RdmaEgressQueue

section Scan

variable (qp : ℕ → RdmaQueuePair) (paused : ℕ → Bool) (now : ℕ)

/-- The queue pair may send, pacing apart. -/
def isSendable (q : RdmaQueuePair) : Bool := !paused q.pg.toNat && q.isEligible

/-- The loop of `GetNextQindex` over the indices `idxs`: the one found, and the smallest one met
of a finished queue pair. -/
def scan : List ℕ → Option ℕ → Option ℕ × Option ℕ
  | [], minFinish => (none, minFinish)
  | idx :: idxs, minFinish =>
    if isSendable paused (qp idx) then
      if (qp idx).nextAvail > now then scan idxs minFinish else (some idx, minFinish)
    else if (qp idx).isFinished then
      scan idxs (some (minFinish.elim idx (min idx)))
    else
      scan idxs minFinish

/-- The loop that removes the finished queue pairs from index `i` on; `nxt` is the place of the
next one kept, and `res` the index found. -/
def compact (finished : ℕ → Bool) : List ℕ → ℕ → ℕ → Option ℕ → List ℕ × Option ℕ
  | [], _, _, res => ([], res)
  | id :: ids, i, nxt, res =>
    if finished id then
      compact finished ids (i + 1) nxt res
    else
      let rest := compact finished ids (i + 1) (nxt + 1) (if res = some i then some nxt else res)
      (id :: rest.1, rest.2)

end Scan

variable (Q : RdmaEgressQueue) (store : ℕ → RdmaQueuePair) (paused : ℕ → Bool) (now : ℕ)

/-- The first loop of `GetNextQindex`, over the whole group from behind `m_rrlast`. -/
def search : Option ℕ × Option ℕ :=
  let fcount := Q.qpGrp.length
  scan (fun idx => store (Q.qpGrp.getD idx 0)) paused now
    ((List.range fcount).map fun k => (k + 1 + Q.rrlast) % fcount) none

/-- The second loop of `GetNextQindex`, if a finished queue pair was met. -/
def clearFinished (res : Option ℕ) : Option ℕ → Option ℕ × RdmaEgressQueue
  | none => (res, Q)
  | some m =>
    let left := compact (fun id => (store id).isFinished) (Q.qpGrp.drop (m + 1)) (m + 1) m res
    (left.2, { Q with qpGrp := Q.qpGrp.take m ++ left.1 })

/-- `RdmaEgressQueue::GetNextQindex`, for the queue pairs in `store`. -/
def getNextQindex (ackQIdx : ℕ) : NextQindex × RdmaEgressQueue :=
  if !paused ackQIdx && !Q.ackQ.isEmpty then
    (.highPrio, Q)
  else
    let found := Q.search store paused now
    let left := Q.clearFinished store found.1 found.2
    (left.1.elim .idle .qp, left.2)

/-! ### What the loops do -/

section Loops

variable {qp : ℕ → RdmaQueuePair} {finished : ℕ → Bool} {paused : ℕ → Bool} {now : ℕ}

/-- The index found is one of a queue pair that may send. -/
theorem scan_fst {idxs : List ℕ} {m : Option ℕ} {idx : ℕ}
    (h : (scan qp paused now idxs m).1 = some idx) :
    idx ∈ idxs ∧ isSendable paused (qp idx) = true ∧ (qp idx).nextAvail ≤ now := by
  induction idxs generalizing m with
  | nil => cases h
  | cons i idxs ih =>
    rw [scan] at h
    split_ifs at h with hs ha hf
    · obtain ⟨hmem, hrest⟩ := ih h
      exact ⟨List.mem_cons_of_mem _ hmem, hrest⟩
    · cases h
      exact ⟨List.mem_cons_self, hs, Nat.le_of_not_lt ha⟩
    all_goals
      obtain ⟨hmem, hrest⟩ := ih h
      exact ⟨List.mem_cons_of_mem _ hmem, hrest⟩

/-- The smallest finished index met is one of a finished queue pair. -/
theorem scan_snd {idxs : List ℕ} {m : Option ℕ} {idx : ℕ}
    (h : (scan qp paused now idxs m).2 = some idx) :
    m = some idx ∨ idx ∈ idxs ∧ (qp idx).isFinished = true := by
  induction idxs generalizing m with
  | nil => exact .inl h
  | cons i idxs ih =>
    rw [scan] at h
    split_ifs at h with hs ha hf
    · rcases ih h with hm | ⟨hmem, hfin⟩
      · exact .inl hm
      · exact .inr ⟨List.mem_cons_of_mem _ hmem, hfin⟩
    · exact .inl h
    · rcases ih h with hm | ⟨hmem, hfin⟩
      · cases m with
        | none =>
          cases hm
          exact .inr ⟨List.mem_cons_self, hf⟩
        | some j =>
          simp only [Option.elim_some, Option.some.injEq] at hm
          rcases Nat.le_total i j with hij | hij
          · rw [Nat.min_eq_left hij] at hm
            subst hm
            exact .inr ⟨List.mem_cons_self, hf⟩
          · rw [Nat.min_eq_right hij] at hm
            exact .inl (by rw [hm])
      · exact .inr ⟨List.mem_cons_of_mem _ hmem, hfin⟩
    · rcases ih h with hm | ⟨hmem, hfin⟩
      · exact .inl hm
      · exact .inr ⟨List.mem_cons_of_mem _ hmem, hfin⟩

/-- If nothing is found, the queue pairs that may send are not available yet. -/
theorem scan_eq_none {idxs : List ℕ} {m : Option ℕ} (h : (scan qp paused now idxs m).1 = none)
    {idx : ℕ} (hmem : idx ∈ idxs) (hsend : isSendable paused (qp idx) = true) :
    now < (qp idx).nextAvail := by
  induction idxs generalizing m with
  | nil => cases hmem
  | cons i idxs ih =>
    rw [scan] at h
    rcases List.mem_cons.1 hmem with rfl | hmem
    · rw [if_pos hsend] at h
      split_ifs at h with ha
      exact ha
    · split_ifs at h
      · exact ih h hmem
      all_goals exact ih h hmem

/-- If nothing is found, every finished queue pair is met that may not send. -/
theorem scan_snd_le {idxs : List ℕ} {m : Option ℕ} (h : (scan qp paused now idxs m).1 = none)
    {idx : ℕ} (hmet : (∃ k ∈ m, k ≤ idx) ∨
      idx ∈ idxs ∧ isSendable paused (qp idx) = false ∧ (qp idx).isFinished = true) :
    ∃ k ∈ (scan qp paused now idxs m).2, k ≤ idx := by
  induction idxs generalizing m with
  | nil =>
    rcases hmet with hm | ⟨hmem, -⟩
    · exact hm
    · cases hmem
  | cons i idxs ih =>
    rw [scan] at h ⊢
    by_cases hi : isSendable paused (qp i) = true
    · have hmet' : (∃ k ∈ m, k ≤ idx) ∨
          idx ∈ idxs ∧ isSendable paused (qp idx) = false ∧ (qp idx).isFinished = true := by
        refine hmet.imp_right fun ⟨hmem, hs, hf⟩ => ⟨?_, hs, hf⟩
        rcases List.mem_cons.1 hmem with rfl | hmem
        · rw [hi] at hs
          cases hs
        · exact hmem
      rw [if_pos hi] at h ⊢
      split_ifs at h ⊢
      exact ih h hmet'
    · rw [if_neg hi] at h ⊢
      by_cases hfin : (qp i).isFinished = true
      · rw [if_pos hfin] at h ⊢
        refine ih h ?_
        rcases hmet with ⟨k, hk, hle⟩ | ⟨hmem, hs, hf⟩
        · cases hk
          exact .inl ⟨min i k, rfl, (Nat.min_le_right i k).trans hle⟩
        · rcases List.mem_cons.1 hmem with rfl | hmem
          · cases m with
            | none => exact .inl ⟨idx, rfl, le_refl idx⟩
            | some k => exact .inl ⟨min idx k, rfl, Nat.min_le_left idx k⟩
          · exact .inr ⟨hmem, hs, hf⟩
      · rw [if_neg hfin] at h ⊢
        refine ih h (hmet.imp_right fun ⟨hmem, hs, hf⟩ => ⟨?_, hs, hf⟩)
        rcases List.mem_cons.1 hmem with rfl | hmem
        · exact absurd hf hfin
        · exact hmem

/-- The queue pairs that are not finished stay, in order. -/
theorem compact_fst (ids : List ℕ) (i nxt : ℕ) (res : Option ℕ) :
    (compact finished ids i nxt res).1 = ids.filter fun id => !finished id := by
  induction ids generalizing i nxt res with
  | nil => rfl
  | cons id ids ih =>
    rw [compact]
    split_ifs with hf
    · rw [ih, List.filter_cons_of_neg (by simp [hf])]
    all_goals
      rw [List.filter_cons_of_pos (by simp [hf])]
      exact congrArg _ (ih _ _ _)

theorem compact_snd_none (ids : List ℕ) (i nxt : ℕ) :
    (compact finished ids i nxt none).2 = none := by
  induction ids generalizing i nxt with
  | nil => rfl
  | cons id ids ih =>
    rw [compact]
    split_ifs with hf heq
    · exact ih _ _
    · cases heq
    · exact ih _ _

theorem compact_snd_ne_none {ids : List ℕ} {i nxt : ℕ} {res : Option ℕ} (hres : res ≠ none) :
    (compact finished ids i nxt res).2 ≠ none := by
  induction ids generalizing i nxt res with
  | nil => exact hres
  | cons id ids ih =>
    rw [compact]
    split_ifs
    · exact ih hres
    · exact ih (Option.some_ne_none nxt)
    · exact ih hres

/-- An index in front of the part compacted stays. -/
theorem compact_snd_of_lt {ids : List ℕ} {i nxt r : ℕ} (hr : r < i) :
    (compact finished ids i nxt (some r)).2 = some r := by
  induction ids generalizing i nxt with
  | nil => rfl
  | cons id ids ih =>
    rw [compact]
    split_ifs with hf heq
    · exact ih (by omega)
    · simp only [Option.some.injEq] at heq
      omega
    · exact ih (by omega)

/-- The index of a queue pair that is kept follows it to its new place. -/
theorem compact_snd_of_le (finished : ℕ → Bool) {ids : List ℕ} {i nxt r id : ℕ} (hr : i ≤ r)
    (hid : ids[r - i]? = some id) (hfin : finished id = false) (hnxt : nxt ≤ i) :
    ∃ k, (compact finished ids i nxt (some r)).2 = some (nxt + k) ∧
      (compact finished ids i nxt (some r)).1[k]? = some id := by
  induction ids generalizing i nxt with
  | nil => simp at hid
  | cons id' ids ih =>
    rw [compact]
    by_cases hri : r = i
    · subst hri
      simp only [Nat.sub_self, List.getElem?_cons_zero, Option.some.injEq] at hid
      subst hid
      rw [if_neg (by simp [hfin]), if_pos rfl]
      exact ⟨0, compact_snd_of_lt (by omega), rfl⟩
    · have hid' : ids[r - (i + 1)]? = some id := by
        obtain ⟨j, hj⟩ : ∃ j, r - i = j + 1 := ⟨r - i - 1, by omega⟩
        rw [hj, List.getElem?_cons_succ] at hid
        have hj' : r - (i + 1) = j := by omega
        rwa [hj']
      split_ifs with hf heq
      · exact ih (by omega) hid' (by omega)
      · simp only [Option.some.injEq] at heq
        omega
      · have hnxt' : nxt + 1 ≤ i + 1 := by omega
        obtain ⟨k, hk, hget⟩ := ih (by omega) hid' hnxt'
        refine ⟨k + 1, ?_, hget⟩
        rw [hk, Nat.add_right_comm, Nat.add_assoc]

end Loops

/-- The index found is that of a queue pair that may send. -/
theorem search_fst {Q : RdmaEgressQueue} {store : ℕ → RdmaQueuePair} {paused : ℕ → Bool}
    {now r : ℕ} (h : (Q.search store paused now).1 = some r) :
    ∃ id, Q.qpGrp[r]? = some id ∧ isSendable paused (store id) = true ∧
      (store id).nextAvail ≤ now := by
  obtain ⟨hmem, hsend, havail⟩ := scan_fst h
  obtain ⟨k, hk, rfl⟩ := List.mem_map.1 hmem
  have hlt : (k + 1 + Q.rrlast) % Q.qpGrp.length < Q.qpGrp.length := by
    have := List.mem_range.1 hk
    exact Nat.mod_lt _ (by omega)
  refine ⟨_, ?_, hsend, havail⟩
  rw [List.getD_eq_getElem?_getD, List.getElem?_eq_getElem hlt]
  rfl

/-- The smallest index met is that of a finished queue pair. -/
theorem search_snd {Q : RdmaEgressQueue} {store : ℕ → RdmaQueuePair} {paused : ℕ → Bool}
    {now m : ℕ} (h : (Q.search store paused now).2 = some m) :
    ∃ id, Q.qpGrp[m]? = some id ∧ (store id).isFinished = true := by
  rcases scan_snd h with hnone | ⟨hmem, hfin⟩
  · cases hnone
  obtain ⟨k, hk, rfl⟩ := List.mem_map.1 hmem
  have hlt : (k + 1 + Q.rrlast) % Q.qpGrp.length < Q.qpGrp.length := by
    have := List.mem_range.1 hk
    exact Nat.mod_lt _ (by omega)
  refine ⟨_, ?_, hfin⟩
  rw [List.getD_eq_getElem?_getD, List.getElem?_eq_getElem hlt]
  rfl

/-- **The removal of finished queue pairs** moves the index with its queue pair. -/
theorem clearFinished_spec {Q : RdmaEgressQueue} {store : ℕ → RdmaQueuePair} {r id m fid : ℕ}
    (hid : Q.qpGrp[r]? = some id) (hopen : (store id).isFinished = false)
    (hm : Q.qpGrp[m]? = some fid) (hfin : (store fid).isFinished = true) :
    ∃ r', (Q.clearFinished store (some r) (some m)).1 = some r' ∧
      (Q.clearFinished store (some r) (some m)).2.qpGrp[r']? = some id := by
  have hne : r ≠ m := by
    rintro rfl
    cases hid.symm.trans hm
    rw [hopen] at hfin
    cases hfin
  have hmlt : m < Q.qpGrp.length := (List.getElem?_eq_some_iff.1 hm).1
  have hlen : (Q.qpGrp.take m).length = m := by
    rw [List.length_take]
    omega
  rw [clearFinished]
  rcases Nat.lt_or_ge r m with hlt | hge
  · refine ⟨r, compact_snd_of_lt (by omega), ?_⟩
    rw [List.getElem?_append_left (by omega), List.getElem?_take_of_lt hlt]
    exact hid
  · have hdrop : (Q.qpGrp.drop (m + 1))[r - (m + 1)]? = some id := by
      rw [List.getElem?_drop, ← hid]
      congr 1
      omega
    have hgt : m + 1 ≤ r := by omega
    obtain ⟨k, hk, hget⟩ := compact_snd_of_le (fun id => (store id).isFinished) hgt hdrop hopen
      m.le_succ
    refine ⟨m + k, hk, ?_⟩
    rw [List.getElem?_append_right (by omega), hlen, Nat.add_sub_cancel_left]
    exact hget

/-- The round goes through the whole group. -/
theorem exists_round_eq {n idx : ℕ} (rrlast : ℕ) (h : idx < n) :
    ∃ k ∈ List.range n, (k + 1 + rrlast) % n = idx := by
  have hr : (1 + rrlast) % n < n := Nat.mod_lt _ (by omega)
  have hsplit := Nat.mod_add_div (1 + rrlast) n
  refine ⟨(idx + (n - (1 + rrlast) % n)) % n, List.mem_range.2 (Nat.mod_lt _ (by omega)), ?_⟩
  rw [Nat.add_assoc, Nat.mod_add_mod]
  have hsum : idx + (n - (1 + rrlast) % n) + (1 + rrlast) =
      idx + n * (1 + (1 + rrlast) / n) := by
    rw [Nat.mul_add, Nat.mul_one]
    omega
  rw [hsum, Nat.add_mul_mod_self_left, Nat.mod_eq_of_lt h]

/-- Every queue pair of the group has an index in the round. -/
theorem exists_index {Q : RdmaEgressQueue} {id : ℕ} (h : id ∈ Q.qpGrp) :
    ∃ idx ∈ (List.range Q.qpGrp.length).map fun k => (k + 1 + Q.rrlast) % Q.qpGrp.length,
      Q.qpGrp.getD idx 0 = id := by
  obtain ⟨idx, hlt, rfl⟩ := List.getElem_of_mem h
  obtain ⟨k, hk, hidx⟩ := exists_round_eq Q.rrlast hlt
  exact ⟨idx, List.mem_map.2 ⟨k, hk, hidx⟩, by simp [hlt]⟩

/-- The search finds nothing exactly if no queue pair that may send is available. -/
theorem search_eq_none_iff {Q : RdmaEgressQueue} {store : ℕ → RdmaQueuePair} {paused : ℕ → Bool}
    {now : ℕ} :
    (Q.search store paused now).1 = none ↔
      ∀ id ∈ Q.qpGrp, isSendable paused (store id) = true → now < (store id).nextAvail := by
  constructor
  · intro h id hid hsend
    obtain ⟨idx, hmem, rfl⟩ := exists_index hid
    exact scan_eq_none h hmem hsend
  · intro h
    by_contra hne
    obtain ⟨r, hr⟩ := Option.ne_none_iff_exists'.1 hne
    obtain ⟨id, hid, hsend, havail⟩ := search_fst hr
    exact Nat.not_lt.2 havail (h id (List.mem_of_getElem? hid) hsend)

theorem clearFinished_eq_none_iff {Q : RdmaEgressQueue} {store : ℕ → RdmaQueuePair}
    {res m : Option ℕ} : (Q.clearFinished store res m).1 = none ↔ res = none := by
  cases m with
  | none => rfl
  | some m =>
    refine ⟨fun h => ?_, fun h => ?_⟩
    · by_contra hne
      exact compact_snd_ne_none hne h
    · rw [h]
      exact compact_snd_none _ _ _

/-- The removal only takes queue pairs away. -/
theorem clearFinished_qpGrp {Q : RdmaEgressQueue} {store : ℕ → RdmaQueuePair} {res m : Option ℕ}
    {id : ℕ} (h : id ∈ (Q.clearFinished store res m).2.qpGrp) : id ∈ Q.qpGrp := by
  cases m with
  | none => exact h
  | some m =>
    rcases List.mem_append.1 h with h | h
    · exact List.mem_of_mem_take h
    · rw [compact_fst] at h
      exact List.mem_of_mem_drop (List.mem_filter.1 h).1

theorem mem_clearFinished {Q : RdmaEgressQueue} {store : ℕ → RdmaQueuePair} {res m : Option ℕ}
    (hm : ∀ k ∈ m, ∃ fid, Q.qpGrp[k]? = some fid ∧ (store fid).isFinished = true) {id : ℕ}
    (hid : id ∈ Q.qpGrp) (hopen : (store id).isFinished = false) :
    id ∈ (Q.clearFinished store res m).2.qpGrp := by
  cases m with
  | none => exact hid
  | some m =>
    obtain ⟨fid, hget, hfin⟩ := hm m rfl
    obtain ⟨j, hj, rfl⟩ := List.getElem_of_mem hid
    rw [clearFinished, List.mem_append, compact_fst, List.mem_filter]
    rcases Nat.lt_trichotomy j m with hlt | rfl | hgt
    · exact .inl (List.mem_take_iff_getElem.2 ⟨j, by omega, rfl⟩)
    · rw [List.getElem?_eq_getElem hj, Option.some.injEq] at hget
      rw [hget, hfin] at hopen
      cases hopen
    · refine .inr ⟨List.mem_drop_iff_getElem.2 ⟨j - (m + 1), by omega, ?_⟩, by simp [hopen]⟩
      congr 1
      omega

/-- After an unsuccessful search, no finished queue pair is left that may not send. -/
theorem not_finished_of_clearFinished {Q : RdmaEgressQueue} {store : ℕ → RdmaQueuePair}
    {paused : ℕ → Bool} {now id : ℕ} (h : (Q.search store paused now).1 = none)
    (hmem : id ∈ (Q.clearFinished store none (Q.search store paused now).2).2.qpGrp)
    (hsend : isSendable paused (store id) = false) : (store id).isFinished = false := by
  by_contra hf
  have hfin : (store id).isFinished = true := by simpa using hf
  -- the search has met every index of the queue pair
  have hmet {j : ℕ} (hj : j < Q.qpGrp.length) (hid : Q.qpGrp[j] = id) :
      ∃ k ∈ (Q.search store paused now).2, k ≤ j := by
    obtain ⟨k, hk, hidx⟩ := exists_round_eq Q.rrlast hj
    refine scan_snd_le h (.inr ⟨List.mem_map.2 ⟨k, hk, hidx⟩, ?_⟩)
    simpa [hj, hid] using ⟨hsend, hfin⟩
  cases hm : (Q.search store paused now).2 with
  | none =>
    rw [hm] at hmem
    obtain ⟨j, hj, hid⟩ := List.getElem_of_mem hmem
    obtain ⟨k, hk, -⟩ := hmet hj hid
    rw [hm] at hk
    cases hk
  | some m =>
    rw [hm, clearFinished, List.mem_append, compact_fst] at hmem
    rcases hmem with hmem | hmem
    · obtain ⟨j, hj, hid⟩ := List.mem_take_iff_getElem.1 hmem
      obtain ⟨k, hk, hle⟩ := hmet (by omega) hid
      rw [hm] at hk
      cases hk
      omega
    · have := (List.mem_filter.1 hmem).2
      simp [hfin] at this

/-- **What `GetNextQindex` returns**, if no finished queue pair has anything to send: the index, in
the group it leaves, of a queue pair that may send. -/
theorem getNextQindex_spec {Q : RdmaEgressQueue} {store : ℕ → RdmaQueuePair}
    {paused : ℕ → Bool} {now ackQIdx idx : ℕ}
    (hfin : ∀ id, (store id).isFinished = true → (store id).isEligible = false)
    (h : (Q.getNextQindex store paused now ackQIdx).1 = .qp idx) :
    ∃ id, (Q.getNextQindex store paused now ackQIdx).2.qpGrp[idx]? = some id ∧
      isSendable paused (store id) = true ∧ (store id).nextAvail ≤ now := by
  rw [getNextQindex] at h ⊢
  split_ifs at h ⊢
  simp only at h ⊢
  cases hres : (Q.search store paused now).1 with
  | none =>
    cases hm : (Q.search store paused now).2 with
    | none => simp [hres, hm, clearFinished] at h
    | some m => simp [hres, hm, clearFinished, compact_snd_none] at h
  | some r =>
    obtain ⟨id, hid, hsend, havail⟩ := search_fst hres
    rw [hres] at h
    refine ⟨id, ?_, hsend, havail⟩
    cases hm : (Q.search store paused now).2 with
    | none =>
      rw [hm] at h
      cases h
      exact hid
    | some m =>
      obtain ⟨fid, hmid, hmfin⟩ := search_snd hm
      have hopen : (store id).isFinished = false := by
        by_contra hf
        have hel := hfin id (by simpa using hf)
        simp [isSendable, hel] at hsend
      obtain ⟨r', hr', hget⟩ := clearFinished_spec hid hopen hmid hmfin
      rw [hm, hr'] at h
      cases h
      exact hget

/-- The group after `GetNextQindex` is part of the group before. -/
theorem getNextQindex_qpGrp {Q : RdmaEgressQueue} {store : ℕ → RdmaQueuePair} {paused : ℕ → Bool}
    {now ackQIdx id : ℕ} (h : id ∈ (Q.getNextQindex store paused now ackQIdx).2.qpGrp) :
    id ∈ Q.qpGrp := by
  rw [getNextQindex] at h
  split_ifs at h
  · exact h
  · exact clearFinished_qpGrp h

/-- `GetNextQindex` finds nothing exactly if no reply may be sent, and no queue pair that may send
is available. -/
theorem getNextQindex_eq_idle_iff {Q : RdmaEgressQueue} {store : ℕ → RdmaQueuePair}
    {paused : ℕ → Bool} {now ackQIdx : ℕ} :
    (Q.getNextQindex store paused now ackQIdx).1 = .idle ↔
      (paused ackQIdx = true ∨ Q.ackQ = []) ∧
        ∀ id ∈ Q.qpGrp, isSendable paused (store id) = true → now < (store id).nextAvail := by
  have hack : (!paused ackQIdx && !Q.ackQ.isEmpty) = true ↔
      ¬ (paused ackQIdx = true ∨ Q.ackQ = []) := by simp [not_or]
  rw [← search_eq_none_iff, getNextQindex]
  split_ifs with hp
  · exact ⟨fun h => (by cases h), fun h => absurd h.1 (hack.1 hp)⟩
  · rw [hack, not_not] at hp
    rw [← clearFinished_eq_none_iff (m := (Q.search store paused now).2)]
    dsimp only
    cases (Q.clearFinished store (Q.search store paused now).1 (Q.search store paused now).2).1 with
    | none => simp [hp]
    | some r => simp

/-- Every queue pair that is not finished stays in the group. -/
theorem mem_getNextQindex {Q : RdmaEgressQueue} {store : ℕ → RdmaQueuePair}
    {paused : ℕ → Bool} {now ackQIdx : ℕ} {id : ℕ} (hid : id ∈ Q.qpGrp)
    (hopen : (store id).isFinished = false) :
    id ∈ (Q.getNextQindex store paused now ackQIdx).2.qpGrp := by
  rw [getNextQindex]
  split_ifs
  · exact hid
  · refine mem_clearFinished (fun k hk => ?_) hid hopen
    exact search_snd hk

/-- If `GetNextQindex` finds nothing, the finished queue pairs left in the group may send. -/
theorem not_finished_of_idle {Q : RdmaEgressQueue} {store : ℕ → RdmaQueuePair}
    {paused : ℕ → Bool} {now ackQIdx : ℕ}
    (h : (Q.getNextQindex store paused now ackQIdx).1 = .idle) {id : ℕ}
    (hid : id ∈ (Q.getNextQindex store paused now ackQIdx).2.qpGrp)
    (hsend : isSendable paused (store id) = false) : (store id).isFinished = false := by
  have hsearch := search_eq_none_iff.2 (getNextQindex_eq_idle_iff.1 h).2
  rw [getNextQindex] at h hid
  split_ifs at h hid
  simp only [hsearch] at hid
  exact not_finished_of_clearFinished hsearch hid hsend

end RdmaEgressQueue

end HpccSim
