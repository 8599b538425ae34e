import Mathlib.Data.List.Nodup
import Mathlib.Data.List.Perm.Subperm
import Mathlib.Order.Bounds.Basic

/-!
# Breadth-first search

A search from a source `s` that labels nodes with their distance and enqueues some of them; a node
that is labelled and not enqueued is reached but not passed. Along with the distances the search
collects, for each node, the nodes before it on the shortest paths (its parents), while the
distances are not all known yet.

## Main definitions

* `Bfs.State`, `Bfs.visit`, `Bfs.expand`, `Bfs.run`: the search, as it is written with a queue.
* `Bfs.Walk`: the walks that the search follows.
* `Bfs.Inv`: what holds when some nodes of the queue have been expanded.
* `Bfs.follow`: go from parent to parent.

## Main results

* `Bfs.exists_inv_run`: with a round for each node the search is through.
* `Bfs.Inv.dist_eq_some_iff`: the labels are the lengths of the shortest walks.
* `Bfs.Inv.mem_par_iff`, `Bfs.Inv.nodup_par`: the parents, without duplicates.
* `Bfs.Inv.exists_follow`: parents lead to the source in as many steps as the label says.
-/

namespace Bfs

variable {α : Type*} [DecidableEq α]

/-- The queue with the nodes that have been expanded, the labels and the parents. -/
structure State (α : Type*) where
  queue : List α
  dist : α → Option ℕ
  par : α → List α

variable (adj : α → List α) (enq : α → Bool) (s : α)

def init : State α where
  queue := [s]
  dist := Function.update (fun _ => none) s (some 0)
  par := fun _ => []

/-- Label the node `v`, seen from a node of the distance `d`, unless it has been labelled. -/
def label (d : ℕ) (st : State α) (v : α) : State α :=
  if st.dist v = none then
    { st with
      dist := Function.update st.dist v (some (d + 1))
      queue := if enq v then st.queue ++ [v] else st.queue }
  else st

/-- Record `now` as a parent of `v` if it is one. -/
def record (now : α) (d : ℕ) (st : State α) (v : α) : State α :=
  if st.dist v = some (d + 1) then
    { st with par := Function.update st.par v (st.par v ++ [now]) }
  else st

/-- Look at the neighbour `v` of `now`, which has the distance `d`. -/
def visit (now : α) (d : ℕ) (st : State α) (v : α) : State α :=
  record now d (label enq d st v) v

/-- Look at all neighbours. -/
def expand (st : State α) (now : α) : State α :=
  (adj now).foldl (visit enq now ((st.dist now).getD 0)) st

/-- At most `fuel` rounds, from the index `i` of the queue on. -/
def run : ℕ → ℕ → State α → State α
  | 0, _, st => st
  | fuel + 1, i, st =>
    match st.queue[i]? with
    | some now => run fuel (i + 1) (expand adj enq st now)
    | none => st

/-- There is a walk of length `n` from `s` to a node that passes `s` and nodes that are enqueued. -/
inductive Walk : α → ℕ → Prop
  | zero : Walk s 0
  | succ {u v : α} {n : ℕ} (hu : Walk u n) (hpass : u = s ∨ enq u) (hv : v ∈ adj u) : Walk v (n + 1)

/-- The nodes `done` of the queue have been expanded, and `todo` have not. -/
structure Inv (st : State α) (done todo : List α) : Prop where
  queue : st.queue = done ++ todo
  nodup : st.queue.Nodup
  source : st.dist s = some 0
  mem_iff : ∀ v, v ∈ st.queue ↔ (∃ k, st.dist v = some k) ∧ (v = s ∨ enq v)
  sorted : todo.Pairwise fun u v => ∀ j k, st.dist u = some j → st.dist v = some k → j ≤ k
  near : ∀ u ∈ todo, ∀ j, st.dist u = some j → ∀ v k, st.dist v = some k → k ≤ j + 1
  closed : ∀ u ∈ done, ∀ v ∈ adj u, ∀ j, st.dist u = some j →
    ∃ k, st.dist v = some k ∧ k ≤ j + 1
  parent : ∀ v k, st.dist v = some k →
    v = s ∧ k = 0 ∨ ∃ u ∈ done, v ∈ adj u ∧ ∃ j, st.dist u = some j ∧ k = j + 1
  par : ∀ v, st.par v =
    done.filter fun u => decide (v ∈ adj u) && decide (st.dist v = (st.dist u).map (· + 1))

variable {adj enq s} {st : State α} {now : α} {d : ℕ}

/-! ### One round -/

@[simp] theorem dist_record (v : α) : (record now d st v).dist = st.dist := by
  rw [record]
  split <;> rfl

@[simp] theorem queue_record (v : α) : (record now d st v).queue = st.queue := by
  rw [record]
  split <;> rfl

@[simp] theorem par_label (v : α) : (label enq d st v).par = st.par := by
  rw [label]
  split <;> rfl

theorem par_record (v w : α) : (record now d st v).par w =
    if w = v ∧ st.dist w = some (d + 1) then st.par w ++ [now] else st.par w := by
  rw [record]
  by_cases hw : w = v
  · subst hw
    by_cases hd : st.dist w = some (d + 1) <;> simp [hd]
  · have hnot : ¬(w = v ∧ st.dist w = some (d + 1)) := fun h => hw h.1
    rw [if_neg hnot]
    split
    · exact Function.update_of_ne hw _ _
    · rfl

theorem dist_label (v w : α) : (label enq d st v).dist w =
    if w = v ∧ st.dist w = none then some (d + 1) else st.dist w := by
  rw [label]
  by_cases hw : w = v
  · subst hw
    by_cases hd : st.dist w = none <;> simp [hd]
  · have hnot : ¬(w = v ∧ st.dist w = none) := fun h => hw h.1
    rw [if_neg hnot]
    split
    · exact Function.update_of_ne hw _ _
    · rfl

theorem queue_label (v : α) : (label enq d st v).queue =
    st.queue ++ [v].filter fun w => (st.dist w).isNone && enq w := by
  rw [label]
  cases hd : st.dist v <;> cases he : enq v <;> simp [hd, he]

/-- The labels, the queue and the parents when the neighbours `ns` have been looked at. -/
theorem foldl_visit (enq : α → Bool) (now : α) (d : ℕ) (st : State α) {ns : List α}
    (hns : ns.Nodup) :
    (∀ w, (ns.foldl (visit enq now d) st).dist w =
      if w ∈ ns ∧ st.dist w = none then some (d + 1) else st.dist w) ∧
    (ns.foldl (visit enq now d) st).queue =
      st.queue ++ ns.filter (fun w => (st.dist w).isNone && enq w) ∧
    ∀ w, (ns.foldl (visit enq now d) st).par w =
      if w ∈ ns ∧ (ns.foldl (visit enq now d) st).dist w = some (d + 1) then st.par w ++ [now]
      else st.par w := by
  induction ns generalizing st with
  | nil => simp
  | cons v ns ih =>
    obtain ⟨hv, hns⟩ := List.nodup_cons.1 hns
    obtain ⟨hdist, hqueue, hpar⟩ := ih (visit enq now d st v) hns
    have hvisit : ∀ w, (visit enq now d st v).dist w =
        if w = v ∧ st.dist w = none then some (d + 1) else st.dist w := fun w => by
      rw [visit, dist_record, dist_label]
    have hne : ∀ w ∈ ns, w ≠ v := fun w hw h => hv (h ▸ hw)
    refine ⟨fun w => ?_, ?_, fun w => ?_⟩
    · rw [List.foldl_cons, hdist, hvisit]
      by_cases hw : w ∈ ns
      · simp [hw, hne w hw]
      · rw [if_neg fun h => hw h.1]
        simp [hw]
    · have hsame : ns.filter (fun w => ((visit enq now d st v).dist w).isNone && enq w) =
          ns.filter fun w => (st.dist w).isNone && enq w :=
        List.filter_congr fun w hw => by rw [hvisit, if_neg fun h => hne w hw h.1]
      rw [List.foldl_cons, hqueue, hsame, visit, queue_record, queue_label, List.append_assoc,
        ← List.filter_append]
      rfl
    · rw [List.foldl_cons, hpar]
      by_cases hw : w ∈ ns
      · have hpar' : (visit enq now d st v).par w = st.par w := by
          rw [visit, par_record, if_neg fun h => hne w hw h.1, par_label]
        simp [hw, hpar']
      · have hlabel : (ns.foldl (visit enq now d) (visit enq now d st v)).dist w =
            (label enq d st v).dist w := by
          rw [hdist, if_neg fun h => hw h.1, visit, dist_record]
        rw [if_neg fun h => hw h.1, hlabel, visit, par_record, par_label]
        simp [hw]

/-! ### The invariant -/

theorem inv_init : Inv adj enq s (init s) [] [s] where
  queue := rfl
  nodup := List.nodup_singleton s
  source := by simp [init]
  mem_iff v := by
    by_cases hv : v = s <;> simp [init, hv]
  sorted := List.pairwise_singleton _ _
  near := by
    intro u hu j hj v k hk
    have hv : v = s := by
      by_contra hv
      simp [init, hv] at hk
    simp [init, hv] at hk
    omega
  closed := by simp
  parent := by
    intro v k hk
    by_cases hv : v = s
    · simp [init, hv] at hk
      exact .inl ⟨hv, hk.symm⟩
    · simp [init, hv] at hk
  par v := rfl

/-- What a round does that expands `now`, of the distance `d`. -/
structure Expanded (adj : α → List α) (enq : α → Bool) (st st' : State α) (now : α) (d : ℕ) :
    Prop where
  dist_now : st.dist now = some d
  dist : ∀ w, st'.dist w =
    if w ∈ adj now ∧ st.dist w = none then some (d + 1) else st.dist w
  queue : st'.queue = st.queue ++ (adj now).filter fun w => (st.dist w).isNone && enq w
  par : ∀ w, st'.par w =
    if w ∈ adj now ∧ st'.dist w = some (d + 1) then st.par w ++ [now] else st.par w

theorem expanded_expand (enq : α → Bool) (hadj : (adj now).Nodup) (hd : st.dist now = some d) :
    Expanded adj enq st (expand adj enq st now) now d := by
  have hexpand : Bfs.expand adj enq st now = (adj now).foldl (visit enq now d) st := by
    rw [Bfs.expand, hd]
    rfl
  obtain ⟨hdist, hqueue, hpar⟩ := foldl_visit enq now d st hadj
  rw [← hexpand] at hdist hqueue hpar
  exact ⟨hd, hdist, hqueue, hpar⟩

section Step

variable {st' : State α} (hstep : Expanded adj enq st st' now d) {done todo : List α}
  (hinv : Inv adj enq s st done (now :: todo)) {v w : α} {k : ℕ}

include hstep

/-- Labels stay. -/
theorem Expanded.old (hw : st.dist w = some k) : st'.dist w = some k := by
  rw [hstep.dist, if_neg (by simp [hw]), hw]

/-- New labels are `d + 1`. -/
theorem Expanded.cases (hw : st'.dist w = some k) :
    st.dist w = some k ∨ st.dist w = none ∧ w ∈ adj now ∧ k = d + 1 := by
  rw [hstep.dist] at hw
  split_ifs at hw with hcond
  · exact .inr ⟨hcond.2, hcond.1, (Option.some.inj hw).symm⟩
  · exact .inl hw

theorem Expanded.new (hadj : w ∈ adj now) (hw : st.dist w = none) : st'.dist w = some (d + 1) := by
  rw [hstep.dist, if_pos ⟨hadj, hw⟩]

omit [DecidableEq α] hstep in
theorem mem_fresh : w ∈ (adj now).filter (fun w => (st.dist w).isNone && enq w) ↔
    w ∈ adj now ∧ st.dist w = none ∧ enq w := by
  simp

include hinv

omit hstep in
theorem Inv.now_mem : now ∈ st.queue := by
  rw [hinv.queue]
  exact List.mem_append_right _ List.mem_cons_self

omit hstep in
theorem Inv.exists_dist (hw : w ∈ done ++ now :: todo) : ∃ k, st.dist w = some k :=
  ((hinv.mem_iff w).1 (hinv.queue ▸ hw)).1

omit hstep in
/-- Labels of the queue that is left are not below that of its first node. -/
theorem Inv.le_of_todo (hd : st.dist now = some d) (hw : w ∈ todo) (hk : st.dist w = some k) :
    d ≤ k :=
  List.rel_of_pairwise_cons hinv.sorted hw d k hd hk

omit hstep in
theorem Inv.le_now (hd : st.dist now = some d) (hk : st.dist w = some k) : k ≤ d + 1 :=
  hinv.near now List.mem_cons_self d hd w k hk

theorem Expanded.mem_iff (w : α) :
    w ∈ st'.queue ↔ (∃ k, st'.dist w = some k) ∧ (w = s ∨ enq w) := by
  rw [hstep.queue, List.mem_append, mem_fresh, hinv.mem_iff]
  constructor
  · rintro (⟨⟨k, hk⟩, hpass⟩ | ⟨hadj, hnone, henq⟩)
    · exact ⟨⟨k, hstep.old hk⟩, hpass⟩
    · exact ⟨⟨_, hstep.new hadj hnone⟩, .inr henq⟩
  · rintro ⟨⟨k, hk⟩, hpass⟩
    rcases hstep.cases hk with hk | ⟨hnone, hadj, -⟩
    · exact .inl ⟨⟨k, hk⟩, hpass⟩
    · refine .inr ⟨hadj, hnone, hpass.resolve_left fun hs => ?_⟩
      rw [hs, hinv.source] at hnone
      cases hnone

theorem Expanded.nodup (hadj : (adj now).Nodup) : st'.queue.Nodup := by
  rw [hstep.queue]
  refine hinv.nodup.append (hadj.filter _) fun w hw hfresh => ?_
  obtain ⟨k, hk⟩ := ((hinv.mem_iff w).1 hw).1
  rw [(mem_fresh.1 hfresh).2.1] at hk
  cases hk

/-- The queue that is left stays sorted: its labels are at most `d + 1`. -/
theorem Expanded.sorted : (todo ++ (adj now).filter fun w => (st.dist w).isNone && enq w).Pairwise
    fun u v => ∀ j k, st'.dist u = some j → st'.dist v = some k → j ≤ k := by
  have hfresh : ∀ w ∈ (adj now).filter (fun w => (st.dist w).isNone && enq w),
      st'.dist w = some (d + 1) := fun w hw =>
    hstep.new (mem_fresh.1 hw).1 (mem_fresh.1 hw).2.1
  refine List.pairwise_append.2 ⟨?_, ?_, ?_⟩
  · refine (List.pairwise_cons.1 hinv.sorted).2.imp_of_mem fun {u v} hu hv huv j k hj hk => ?_
    obtain ⟨j', hj'⟩ := hinv.exists_dist (List.mem_append_right _ (List.mem_cons_of_mem _ hu))
    obtain ⟨k', hk'⟩ := hinv.exists_dist (List.mem_append_right _ (List.mem_cons_of_mem _ hv))
    rw [hstep.old hj', Option.some.injEq] at hj
    rw [hstep.old hk', Option.some.injEq] at hk
    exact huv j k (hj ▸ hj') (hk ▸ hk')
  · refine List.pairwise_of_forall_mem_list fun u hu v hv j k hj hk => ?_
    rw [hfresh u hu, Option.some.injEq] at hj
    rw [hfresh v hv, Option.some.injEq] at hk
    omega
  · intro u hu v hv j k hj hk
    obtain ⟨j', hj'⟩ := hinv.exists_dist (List.mem_append_right _ (List.mem_cons_of_mem _ hu))
    have hle := hinv.le_now hstep.dist_now hj'
    rw [hstep.old hj', Option.some.injEq] at hj
    rw [hfresh v hv, Option.some.injEq] at hk
    omega

theorem Expanded.near {u : α}
    (hu : u ∈ todo ++ (adj now).filter fun w => (st.dist w).isNone && enq w) {j : ℕ}
    (hj : st'.dist u = some j) (hk : st'.dist v = some k) : k ≤ j + 1 := by
  have hdj : d ≤ j := by
    rcases List.mem_append.1 hu with hu | hu
    · obtain ⟨j', hj'⟩ := hinv.exists_dist (List.mem_append_right _ (List.mem_cons_of_mem _ hu))
      rw [hstep.old hj', Option.some.injEq] at hj
      exact hj ▸ hinv.le_of_todo hstep.dist_now hu hj'
    · rw [hstep.new (mem_fresh.1 hu).1 (mem_fresh.1 hu).2.1, Option.some.injEq] at hj
      omega
  rcases hstep.cases hk with hk | ⟨-, -, hk⟩
  · exact (hinv.le_now hstep.dist_now hk).trans (Nat.succ_le_succ hdj)
  · omega

theorem Expanded.closed {u : α} (hu : u ∈ done ++ [now]) (hv : v ∈ adj u) {j : ℕ}
    (hj : st'.dist u = some j) : ∃ k, st'.dist v = some k ∧ k ≤ j + 1 := by
  rcases List.mem_append.1 hu with hu | hu
  · obtain ⟨j', hj'⟩ := hinv.exists_dist (List.mem_append_left _ hu)
    rw [hstep.old hj', Option.some.injEq] at hj
    obtain ⟨k, hk, hle⟩ := hinv.closed u hu v hv j' hj'
    exact ⟨k, hstep.old hk, hj ▸ hle⟩
  · obtain rfl := List.mem_singleton.1 hu
    rw [hstep.old hstep.dist_now, Option.some.injEq] at hj
    cases hdist : st.dist v with
    | some k => exact ⟨k, hstep.old hdist, hj ▸ hinv.le_now hstep.dist_now hdist⟩
    | none => exact ⟨d + 1, hstep.new hv hdist, hj ▸ le_rfl⟩

theorem Expanded.parent (hk : st'.dist v = some k) : v = s ∧ k = 0 ∨
    ∃ u ∈ done ++ [now], v ∈ adj u ∧ ∃ j, st'.dist u = some j ∧ k = j + 1 := by
  rcases hstep.cases hk with hk | ⟨-, hadj, hk⟩
  · rcases hinv.parent v k hk with h | ⟨u, hu, hadj, j, hj, hkj⟩
    · exact .inl h
    · exact .inr ⟨u, List.mem_append_left _ hu, hadj, j, hstep.old hj, hkj⟩
  · exact .inr ⟨now, List.mem_append_right _ (List.mem_singleton_self _), hadj, d,
      hstep.old hstep.dist_now, hk⟩

/-- The parents among the expanded nodes do not change: a node without a label has none. -/
theorem Expanded.par_eq (v : α) : st'.par v = (done ++ [now]).filter fun u =>
    decide (v ∈ adj u) && decide (st'.dist v = (st'.dist u).map (· + 1)) := by
  have hdone : done.filter (fun u =>
      decide (v ∈ adj u) && decide (st'.dist v = (st'.dist u).map (· + 1))) =
        done.filter fun u =>
          decide (v ∈ adj u) && decide (st.dist v = (st.dist u).map (· + 1)) := by
    refine List.filter_congr fun u hu => ?_
    obtain ⟨j, hj⟩ := hinv.exists_dist (List.mem_append_left _ hu)
    by_cases hv : v ∈ adj u
    · obtain ⟨k, hk, -⟩ := hinv.closed u hu v hv j hj
      rw [hstep.old hj, hstep.old hk, hj, hk]
    · simp [hv]
  have hnow : (st'.dist now).map (· + 1) = some (d + 1) := by
    rw [hstep.old hstep.dist_now]
    rfl
  have hpred : (decide (v ∈ adj now) && decide (st'.dist v = (st'.dist now).map (· + 1))) =
      decide (v ∈ adj now ∧ st'.dist v = some (d + 1)) := by
    rw [hnow, Bool.decide_and]
  rw [hstep.par, List.filter_append, hdone, ← hinv.par, List.filter_singleton, hpred]
  by_cases hcond : v ∈ adj now ∧ st'.dist v = some (d + 1) <;> simp [hcond]

/-- **A round keeps the invariant.** -/
theorem Expanded.inv (hadj : (adj now).Nodup) : Inv adj enq s st' (done ++ [now])
    (todo ++ (adj now).filter fun w => (st.dist w).isNone && enq w) where
  queue := by
    rw [hstep.queue, hinv.queue]
    simp
  nodup := hstep.nodup hinv hadj
  source := hstep.old hinv.source
  mem_iff := hstep.mem_iff hinv
  sorted := hstep.sorted hinv
  near _ hu _ hj _ _ hk := hstep.near hinv hu hj hk
  closed _ hu _ hv _ hj := hstep.closed hinv hu hv hj
  parent _ _ hk := hstep.parent hinv hk
  par := hstep.par_eq hinv

end Step

/-! ### The search -/

/-- **The search gets through** in a round for each node: if `nodes` has `s` and is closed under
neighbours, its length is enough. -/
theorem exists_inv_run {nodes : List α} (hadj : ∀ v, (adj v).Nodup)
    (hclosed : ∀ u ∈ nodes, ∀ v ∈ adj u, v ∈ nodes) {fuel : ℕ} {done todo : List α}
    (hinv : Inv adj enq s st done todo) (hsub : st.queue ⊆ nodes)
    (hfuel : nodes.length ≤ fuel + done.length) :
    ∃ done' ⊆ nodes, Inv adj enq s (run adj enq fuel done.length st) done' [] := by
  induction fuel generalizing st done todo with
  | zero =>
    have hlen : st.queue.length ≤ nodes.length := (hinv.nodup.subperm hsub).length_le
    have hnil : todo = [] := by
      rw [hinv.queue, List.length_append] at hlen
      exact List.length_eq_zero_iff.1 (by omega)
    exact ⟨done, fun v hv => hsub (hinv.queue ▸ List.mem_append_left _ hv), hnil ▸ hinv⟩
  | succ fuel ih =>
    cases todo with
    | nil =>
      have hend : st.queue[done.length]? = none := by
        rw [hinv.queue, List.append_nil, List.getElem?_eq_none_iff]
      refine ⟨done, fun v hv => hsub (hinv.queue ▸ List.mem_append_left _ hv), ?_⟩
      rw [run, hend]
      exact hinv
    | cons now todo =>
      have hat : st.queue[done.length]? = some now := by
        rw [hinv.queue]
        simp
      obtain ⟨d, hd⟩ := ((hinv.mem_iff now).1 hinv.now_mem).1
      have hstep := expanded_expand enq (hadj now) hd
      have hsub' : (expand adj enq st now).queue ⊆ nodes := by
        rw [hstep.queue]
        refine List.append_subset.2 ⟨hsub, fun w hw => ?_⟩
        exact hclosed now (hsub hinv.now_mem) w (mem_fresh.1 hw).1
      have hrun := ih (hstep.inv hinv (hadj now)) hsub' (by simp; omega)
      rw [List.length_append, List.length_singleton] at hrun
      rw [run, hat]
      exact hrun

section Done

variable {done : List α} (hinv : Inv adj enq s st done []) {u v : α} {k n : ℕ}

include hinv

theorem Inv.mem_done : v ∈ done ↔ (∃ k, st.dist v = some k) ∧ (v = s ∨ enq v) := by
  rw [← hinv.mem_iff, hinv.queue, List.append_nil]

/-- The end of a walk has a label that is not above the length. -/
theorem Inv.dist_of_walk (h : Walk adj enq s v n) : ∃ k ≤ n, st.dist v = some k := by
  induction h with
  | zero => exact ⟨0, le_rfl, hinv.source⟩
  | succ hu hpass hv ih =>
    obtain ⟨j, hjn, hj⟩ := ih
    obtain ⟨k, hk, hkj⟩ := hinv.closed _ (hinv.mem_done.2 ⟨⟨j, hj⟩, hpass⟩) _ hv j hj
    exact ⟨k, hkj.trans (Nat.succ_le_succ hjn), hk⟩

/-- A label is the length of a walk. -/
theorem Inv.walk_of_dist (h : st.dist v = some k) : Walk adj enq s v k := by
  induction k generalizing v with
  | zero =>
    rcases hinv.parent v 0 h with ⟨rfl, -⟩ | ⟨u, -, -, j, -, hj⟩
    · exact .zero
    · omega
  | succ k ih =>
    rcases hinv.parent v (k + 1) h with ⟨-, hk⟩ | ⟨u, hu, hadj, j, hj, hkj⟩
    · omega
    · obtain rfl : k = j := by omega
      exact .succ (ih hj) (hinv.mem_done.1 hu).2 hadj

/-- **The labels are the lengths of the shortest walks.** -/
theorem Inv.dist_eq_some_iff : st.dist v = some k ↔ IsLeast {n | Walk adj enq s v n} k := by
  constructor
  · refine fun h => ⟨hinv.walk_of_dist h, fun n hn => ?_⟩
    obtain ⟨j, hjn, hj⟩ := hinv.dist_of_walk hn
    rw [h, Option.some.injEq] at hj
    exact hj ▸ hjn
  · rintro ⟨hk, hleast⟩
    obtain ⟨j, hjk, hj⟩ := hinv.dist_of_walk hk
    rw [hj, le_antisymm hjk (hleast (hinv.walk_of_dist hj))]

/-- Only the source has the label `0`. -/
theorem Inv.eq_source (h : st.dist v = some 0) : v = s := by
  rcases hinv.parent v 0 h with ⟨rfl, -⟩ | ⟨u, -, -, j, -, hj⟩
  · rfl
  · omega

/-- **The parents of a node** are the nodes before it on the shortest walks. -/
theorem Inv.mem_par_iff : u ∈ st.par v ↔ (u = s ∨ enq u) ∧ v ∈ adj u ∧
    ∃ j, st.dist u = some j ∧ st.dist v = some (j + 1) := by
  rw [hinv.par, List.mem_filter, hinv.mem_done, Bool.and_eq_true, decide_eq_true_eq,
    decide_eq_true_eq]
  constructor
  · rintro ⟨⟨⟨j, hj⟩, hpass⟩, hadj, hdist⟩
    exact ⟨hpass, hadj, j, hj, by rw [hdist, hj]; rfl⟩
  · rintro ⟨hpass, hadj, j, hj, hdist⟩
    exact ⟨⟨⟨j, hj⟩, hpass⟩, hadj, by rw [hdist, hj]; rfl⟩

theorem Inv.nodup_par (v : α) : (st.par v).Nodup := by
  have hnodup := hinv.nodup
  rw [hinv.queue, List.append_nil] at hnodup
  rw [hinv.par]
  exact hnodup.filter _

/-- Every node that is reached has a parent, but for the source. -/
theorem Inv.par_ne_nil (h : st.dist v = some (k + 1)) : st.par v ≠ [] := by
  rcases hinv.parent v (k + 1) h with ⟨-, hk⟩ | ⟨u, hu, hadj, j, hj, hkj⟩
  · omega
  · exact List.ne_nil_of_mem (hinv.mem_par_iff.2
      ⟨(hinv.mem_done.1 hu).2, hadj, j, hj, by rw [h, hkj]⟩)

end Done

/-! ### Following parents -/

/-- The nodes passed in `k` steps of `next` from `v` on. -/
def follow (next : α → Option α) : ℕ → α → Option (List α)
  | 0, v => some [v]
  | k + 1, v => do
    let u ← next v
    let path ← follow next k u
    return v :: path

/-- **Parents lead to the source**: in as many steps as the label says, over labels that count down,
passing only nodes that are enqueued. -/
theorem Inv.exists_follow {done : List α} (hinv : Inv adj enq s st done []) {next : α → Option α}
    (hnext : ∀ v, st.par v ≠ [] → ∃ u ∈ st.par v, next v = some u) {v : α} {k : ℕ}
    (hv : st.dist v = some k) :
    ∃ path, follow next k v = some path ∧ path.head? = some v ∧ path.getLast? = some s ∧
      path.map st.dist = (List.range (k + 1)).reverse.map some ∧
      ∀ u ∈ path.tail, u = s ∨ enq u := by
  induction k generalizing v with
  | zero =>
    obtain rfl := hinv.eq_source hv
    exact ⟨[v], rfl, rfl, rfl, by simp [hv], by simp⟩
  | succ k ih =>
    obtain ⟨u, hu, hstep⟩ := hnext v (hinv.par_ne_nil hv)
    obtain ⟨hpass, -, j, hj, hdist⟩ := hinv.mem_par_iff.1 hu
    obtain rfl : k = j := by
      rw [hv, Option.some.injEq] at hdist
      omega
    obtain ⟨path, hpath, hhead, hlast, hmap, htail⟩ := ih hj
    obtain ⟨rest, rfl⟩ : ∃ rest, path = u :: rest := by
      cases path with
      | nil => cases hhead
      | cons w rest => exact ⟨rest, by rw [Option.some.inj hhead]⟩
    refine ⟨v :: u :: rest, ?_, rfl, ?_, ?_, ?_⟩
    · rw [follow, hstep]
      simp [hpath]
    · rw [List.getLast?_cons_cons, hlast]
    · rw [List.map_cons, hmap, hv, List.range_succ (n := k + 1)]
      simp
    · intro w hw
      rcases List.mem_cons.1 hw with rfl | hw
      · exact hpass
      · exact htail w hw

/-- Neighbours on the way are a step apart. -/
theorem next_of_follow {next : α → Option α} {k : ℕ} {v x y : α} {before after : List α}
    (h : follow next k v = some (before ++ x :: y :: after)) : next x = some y := by
  induction k generalizing v before with
  | zero =>
    rw [follow, Option.some.injEq] at h
    have hlen := congrArg List.length h
    simp only [List.length_nil, List.length_append, List.length_cons] at hlen
    omega
  | succ k ih =>
    obtain ⟨u, hu, h⟩ := Option.bind_eq_some_iff.1 h
    obtain ⟨path, hpath, h⟩ := Option.bind_eq_some_iff.1 h
    cases before with
    | nil =>
      obtain ⟨rfl, rfl⟩ := List.cons.inj (Option.some.inj h)
      rw [hu]
      cases k with
      | zero =>
        rw [follow, Option.some.injEq, List.cons.injEq] at hpath
        rw [hpath.1]
      | succ k =>
        obtain ⟨w, -, hpath⟩ := Option.bind_eq_some_iff.1 hpath
        obtain ⟨rest, -, hpath⟩ := Option.bind_eq_some_iff.1 hpath
        rw [(List.cons.inj (Option.some.inj hpath)).1]
    | cons b before =>
      obtain ⟨-, rfl⟩ := List.cons.inj (Option.some.inj h)
      exact ih hpath

end Bfs
