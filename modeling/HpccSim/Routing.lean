import HpccSim.Lib.Bfs
import Mathlib.Data.UInt

/-!
# Routing

`third.cc` computes the routes of all hosts (`CalculateRoute`, a search from the host that does not
pass other hosts) and installs them (`SetRoutingEntries`); when a link is taken down it does so
again (`TakeDownLink`). A switch chooses among the interfaces of an entry by a hash
(`SwitchNode::GetOutDev`), and a host by the hash of the queue pair (`RdmaHw::GetNicIdxOfQp`).

A map from nodes is a function, and absent keys have the empty list; the map of the links of one
node is the list of its entries, in any order.

## Main definitions

* `Topology`, `Interface`, `Net`: nodes, links and routing tables.
* `calculateRoute`, `calculateRoutes`, `setRoutingEntries`, `takeDownLink`.
* `getOutDev`, `getNicIdxOfQp`, `forwardTo`: where a node sends a packet.

## Main results

* `search_bfs`: the search of `CalculateRoute` is a breadth-first search.
* `routing_shortest`: routes are shortest and free of loops, after every sequence of failures.
-/

namespace HpccSim

namespace Routing

/-- `GetNodeType`, `0` and `1` in the source. -/
inductive NodeType where
  | host
  | switch
  deriving DecidableEq

/-- `Interface`. -/
structure Interface where
  idx : ℕ
  up : Bool
  delay : UInt64
  bw : UInt64

/-- `Interface::Interface`. -/
def Interface.new : Interface := { idx := 0, up := false, delay := 0, bw := 0 }

/-- What `CalculateRoute` knows of a node it has reached. -/
structure Label where
  dis : ℕ
  delay : UInt64
  txDelay : UInt64
  bw : UInt64

variable {Node : Type} [DecidableEq Node]

/-- The nodes, their addresses, and the other ends of their devices. -/
structure Topology (Node : Type) where
  /-- `NodeContainer n` -/
  n : List Node
  nodeType : Node → NodeType
  /-- `GetObject<Ipv4>()->GetAddress(1, 0)` -/
  address : Node → UInt32
  /-- The node at the other end of the channel of a device. -/
  channel : Node → ℕ → Option Node
  packetPayloadSize : UInt64
  nodup : n.Nodup
  /-- Hosts have addresses of their own. -/
  address_inj : ∀ g ∈ n, ∀ h ∈ n, nodeType g = .host → nodeType h = .host →
    address g = address h → g = h

/-- The links, the routes and the routing tables. -/
structure Net (Node : Type) where
  /-- `nbr2if[v]`, entry by entry -/
  nbr2if : Node → List (Node × Interface)
  /-- `nextHop[v][h]` -/
  nextHop : Node → Node → List Node
  pairDelay : Node → Node → Option UInt64
  pairTxDelay : Node → Node → Option UInt64
  pairBw : Node → Node → Option UInt64
  /-- `m_rtTable` of each node -/
  rtTable : Node → UInt32 → List ℕ

/-! ### `CalculateRoute` -/

/-- The local variables of `CalculateRoute`, and `nextHop`. -/
structure Search (Node : Type) where
  q : List Node
  labels : Node → Option Label
  nextHop : Node → Node → List Node

namespace Search

variable (T : Topology Node) (host now : Node)

/-- `dis[v]`. -/
def dis (st : Search Node) (v : Node) : Option ℕ := (st.labels v).map Label.dis

/-- The label of a node that is reached from `now` by the link `l`. -/
def labelFrom (st : Search Node) (d : ℕ) (l : Interface) : Label :=
  let from_ := (st.labels now).getD { dis := 0, delay := 0, txDelay := 0, bw := 0 }
  { dis := d + 1
    delay := from_.delay + l.delay
    txDelay := from_.txDelay + T.packetPayloadSize * 1000000000 * 8 / l.bw
    bw := min from_.bw l.bw }

/-- If the neighbour of the entry has not been visited: label it, and enqueue it if it is a
switch, because packets must not go through a host. -/
def reach (d : ℕ) (st : Search Node) (it : Node × Interface) : Search Node :=
  if st.labels it.1 = none then
    { st with
      labels := Function.update st.labels it.1 (some (st.labelFrom T now d it.2))
      q := if T.nodeType it.1 = .switch then st.q ++ [it.1] else st.q }
  else st

/-- If `now` is on a shortest path from `next` to the host: it is a next hop. -/
def addNextHop (d : ℕ) (st : Search Node) (next : Node) : Search Node :=
  if st.dis next = some (d + 1) then
    { st with
      nextHop := Function.update st.nextHop next
        (Function.update (st.nextHop next) host (st.nextHop next host ++ [now])) }
  else st

/-- The body of the inner loop, which skips links that are down. -/
def visit (d : ℕ) (st : Search Node) (it : Node × Interface) : Search Node :=
  if it.2.up = false then st else (st.reach T now d it).addNextHop host now d it.1

/-- The outer loop from the index `i` on, at most `fuel` times. -/
def loop (nbr2if : Node → List (Node × Interface)) : ℕ → ℕ → Search Node → Search Node
  | 0, _, st => st
  | fuel + 1, i, st =>
    match st.q[i]? with
    | some now =>
      loop nbr2if fuel (i + 1)
        ((nbr2if now).foldl (visit T host now ((st.dis now).getD 0)) st)
    | none => st

end Search

/-- The search of `CalculateRoute`; it takes no more rounds than there are nodes. -/
def search (T : Topology Node) (net : Net Node) (host : Node) : Search Node :=
  Search.loop T host net.nbr2if T.n.length 0
    { q := [host]
      labels := Function.update (fun _ => none) host
        (some { dis := 0, delay := 0, txDelay := 0, bw := 0xffffffffffffffff })
      nextHop := net.nextHop }

/-- `CalculateRoute`. -/
def calculateRoute (T : Topology Node) (net : Net Node) (host : Node) : Net Node :=
  let st := search T net host
  let record (pair : Node → Node → Option UInt64) (value : Label → UInt64) (v h : Node) :=
    if h = host then ((st.labels v).map value).or (pair v h) else pair v h
  { net with
    nextHop := st.nextHop
    pairDelay := record net.pairDelay Label.delay
    pairTxDelay := record net.pairTxDelay Label.txDelay
    pairBw := record net.pairBw Label.bw }

/-- `CalculateRoutes`. -/
def calculateRoutes (T : Topology Node) (net : Net Node) : Net Node :=
  T.n.foldl (fun net node =>
    if T.nodeType node = .host then calculateRoute T net node else net) net

/-! ### Links and tables -/

/-- `nbr2if[v][u]` as `operator[]` finds it. -/
def interface (l : List (Node × Interface)) (u : Node) : Interface :=
  ((l.find? fun e => e.1 = u).map Prod.snd).getD .new

/-- The map after `operator[]`: a key that is missing is inserted. -/
def access (l : List (Node × Interface)) (u : Node) : List (Node × Interface) :=
  if u ∈ l.map Prod.fst then l else l ++ [(u, .new)]

/-- The map after `nbr2if[v][u].up = false`. -/
def setDown (l : List (Node × Interface)) (u : Node) : List (Node × Interface) :=
  (access l u).map fun e => if e.1 = u then (e.1, { e.2 with up := false }) else e

/-- The map after `nbr2if[a][b].up = nbr2if[b][a].up = false`. -/
def downBoth (nbr2if : Node → List (Node × Interface)) (a b : Node) :
    Node → List (Node × Interface) :=
  let nbr2if := Function.update nbr2if b (setDown (nbr2if b) a)
  Function.update nbr2if a (setDown (nbr2if a) b)

/-- `AddTableEntry` of a switch or of a host. -/
def addTableEntry (rtTable : Node → UInt32 → List ℕ) (node : Node) (dstAddr : UInt32) (intf : ℕ) :
    Node → UInt32 → List ℕ :=
  Function.update rtTable node
    (Function.update (rtTable node) dstAddr (rtTable node dstAddr ++ [intf]))

/-- `ClearTable` of all nodes. -/
def clearTables (T : Topology Node) (rtTable : Node → UInt32 → List ℕ) :
    Node → UInt32 → List ℕ :=
  T.n.foldl (fun rtTable node => Function.update rtTable node fun _ => []) rtTable

/-- `SetRoutingEntries`: for each node and each destination, the interfaces of the next hops. All
next hops are neighbours, so that `operator[]` inserts nothing. -/
def setRoutingEntries (T : Topology Node) (net : Net Node) : Net Node :=
  { net with rtTable :=
      T.n.foldl (fun rtTable node =>
        T.n.foldl (fun rtTable dst =>
          (net.nextHop node dst).foldl (fun rtTable next =>
            addTableEntry rtTable node (T.address dst) (interface (net.nbr2if node) next).idx)
          rtTable) rtTable) net.rtTable }

/-- `TakeDownLink`, for the links and the routing. -/
def takeDownLink (T : Topology Node) (net : Net Node) (a b : Node) : Net Node :=
  let net := { net with nbr2if := Function.update net.nbr2if a (access (net.nbr2if a) b) }
  if (interface (net.nbr2if a) b).up = false then net
  else
    let net := { net with nbr2if := downBoth net.nbr2if a b }
    let net := calculateRoutes T { net with nextHop := fun _ _ => [] }
    setRoutingEntries T { net with rtTable := clearTables T net.rtTable }

/-- The network when the simulation starts, from the links of the topology file. -/
def start (T : Topology Node) (nbr2if : Node → List (Node × Interface)) : Net Node :=
  setRoutingEntries T (calculateRoutes T
    { nbr2if := nbr2if
      nextHop := fun _ _ => []
      pairDelay := fun _ _ => none
      pairTxDelay := fun _ _ => none
      pairBw := fun _ _ => none
      rtTable := fun _ _ => [] })

/-- The network after links have been taken down. -/
def after (T : Topology Node) (nbr2if : Node → List (Node × Interface))
    (cuts : List (Node × Node)) : Net Node :=
  cuts.foldl (fun net cut => takeDownLink T net cut.1 cut.2) (start T nbr2if)

/-! ### Forwarding -/

/-- `SwitchNode::GetOutDev`, for the value of `EcmpHash` on the header of the packet; `none` for
`-1`. -/
def getOutDev (rtTable : UInt32 → List ℕ) (dip hash : UInt32) : Option ℕ :=
  let nexthops := rtTable dip
  if nexthops = [] then none else nexthops[hash.toNat % nexthops.length]?

/-- `RdmaHw::GetNicIdxOfQp`, for the hash of the queue pair; it asserts that there is an entry. -/
def getNicIdxOfQp (rtTable : UInt32 → List ℕ) (dip hash : UInt32) : Option ℕ :=
  let v := rtTable dip
  if 0 < v.length then v[hash.toNat % v.length]? else none

/-- The node to which `v` sends a packet, when its hash of the packet is `hash v`. -/
def forwardTo (T : Topology Node) (net : Net Node) (dip : UInt32) (hash : Node → UInt32)
    (v : Node) : Option Node := do
  let dev ←
    match T.nodeType v with
    | .switch => getOutDev (net.rtTable v) dip (hash v)
    | .host => getNicIdxOfQp (net.rtTable v) dip (hash v)
  T.channel v dev

/-! ### The search -/

/-- The neighbours over the links that are up, of the entries of a node. -/
def upNbrs (l : List (Node × Interface)) : List Node := (l.filter fun e => e.2.up).map Prod.fst

/-- The neighbours of `v` over links that are up. -/
def adj (net : Net Node) (v : Node) : List Node := upNbrs (net.nbr2if v)

/-- The nodes that are enqueued. -/
def isSwitch (T : Topology Node) (v : Node) : Bool := T.nodeType v = .switch

/-- The breadth-first search from a host. -/
def bfs (T : Topology Node) (net : Net Node) (host : Node) : Bfs.State Node :=
  Bfs.run (adj net) (isSwitch T) T.n.length 0 (Bfs.init host)

/-- The local variables of `CalculateRoute` are those of a breadth-first search, of which the
parents are appended to the column `host` of `nextHop`. -/
structure Search.Sim (base : Node → Node → List Node) (host : Node) (st : Search Node)
    (b : Bfs.State Node) : Prop where
  q : st.q = b.queue
  dis : ∀ v, st.dis v = b.dist v
  nextHop : ∀ v h, st.nextHop v h = if h = host then base v h ++ b.par v else base v h

section Sim

variable {T : Topology Node} {base : Node → Node → List Node} {host now : Node} {d : ℕ}
  {st : Search Node} {b : Bfs.State Node}

theorem Search.Sim.reach (hsim : st.Sim base host b) (it : Node × Interface) :
    (st.reach T now d it).Sim base host (Bfs.label (isSwitch T) d b it.1) := by
  have hnone : st.labels it.1 = none ↔ b.dist it.1 = none := by
    rw [← hsim.dis, Search.dis, Option.map_eq_none_iff]
  rw [Search.reach, Bfs.label]
  by_cases h : b.dist it.1 = none
  · rw [if_pos (hnone.2 h), if_pos h]
    refine ⟨?_, fun v => ?_, hsim.nextHop⟩
    · by_cases hsw : T.nodeType it.1 = .switch <;> simp [isSwitch, hsw, hsim.q]
    · show (Function.update st.labels it.1 _ v).map Label.dis = Function.update b.dist it.1 _ v
      by_cases hv : v = it.1
      · subst hv
        simp [Search.labelFrom]
      · rw [Function.update_of_ne hv, Function.update_of_ne hv]
        exact hsim.dis v
  · rw [if_neg (mt hnone.1 h), if_neg h]
    exact hsim

theorem Search.Sim.addNextHop (hsim : st.Sim base host b) (next : Node) :
    (st.addNextHop host now d next).Sim base host (Bfs.record now d b next) := by
  rw [Search.addNextHop, Bfs.record, hsim.dis]
  by_cases hd : b.dist next = some (d + 1)
  · rw [if_pos hd, if_pos hd]
    refine ⟨hsim.q, hsim.dis, fun v h => ?_⟩
    show Function.update st.nextHop next _ v h = _
    by_cases hv : v = next
    · subst hv
      by_cases hh : h = host
      · subst hh
        simp [hsim.nextHop]
      · simp [hh, hsim.nextHop]
    · rw [Function.update_of_ne hv, hsim.nextHop]
      simp [hv]
  · rw [if_neg hd, if_neg hd]
    exact hsim

/-- The inner loop is a round of the search: it skips the links that are down. -/
theorem Search.Sim.foldl_visit (hsim : st.Sim base host b) (l : List (Node × Interface)) :
    (l.foldl (Search.visit T host now d) st).Sim base host
      ((upNbrs l).foldl (Bfs.visit (isSwitch T) now d) b) := by
  induction l generalizing st b with
  | nil => exact hsim
  | cons it l ih =>
    cases hup : it.2.up with
    | true =>
      have hnbrs : upNbrs (it :: l) = it.1 :: upNbrs l := by simp [upNbrs, hup]
      rw [hnbrs, List.foldl_cons, List.foldl_cons]
      refine ih ?_
      rw [Search.visit, hup, if_neg Bool.noConfusion]
      exact (hsim.reach it).addNextHop it.1
    | false =>
      have hnbrs : upNbrs (it :: l) = upNbrs l := by simp [upNbrs, hup]
      rw [hnbrs, List.foldl_cons, Search.visit, if_pos hup]
      exact ih hsim

theorem Search.Sim.loop {net : Net Node} (hsim : st.Sim base host b) (fuel i : ℕ) :
    (Search.loop T host net.nbr2if fuel i st).Sim base host
      (Bfs.run (adj net) (isSwitch T) fuel i b) := by
  induction fuel generalizing i st b with
  | zero => exact hsim
  | succ fuel ih =>
    rw [Search.loop, Bfs.run, hsim.q]
    cases b.queue[i]? with
    | none => exact hsim
    | some now =>
      refine ih ?_ (i + 1)
      rw [hsim.dis]
      exact hsim.foldl_visit (net.nbr2if now)

/-- **The search of `CalculateRoute` is a breadth-first search.** -/
theorem search_bfs (T : Topology Node) (net : Net Node) (host : Node) :
    (search T net host).Sim net.nextHop host (bfs T net host) := by
  refine Search.Sim.loop ⟨rfl, fun v => ?_, fun v h => ?_⟩ _ _
  · by_cases hv : v = host <;> simp [Search.dis, Bfs.init, hv]
  · simp [Bfs.init]

end Sim

/-! ### Links -/

/-- The links of a topology file: at most one a pair of nodes, between nodes of the topology, up at
both ends or at none, each with a device of its own. -/
structure Links (T : Topology Node) (nbr2if : Node → List (Node × Interface)) : Prop where
  keys : ∀ v, ((nbr2if v).map Prod.fst).Nodup
  mem : ∀ v, ∀ e ∈ nbr2if v, e.2.up → v ∈ T.n ∧ e.1 ∈ T.n
  channel : ∀ v, ∀ e ∈ nbr2if v, e.2.up → T.channel v e.2.idx = some e.1
  symm : ∀ v u, u ∈ upNbrs (nbr2if v) → v ∈ upNbrs (nbr2if u)

section Entries

variable {l : List (Node × Interface)} {u v : Node}

omit [DecidableEq Node] in
theorem mem_upNbrs : u ∈ upNbrs l ↔ ∃ i : Interface, (u, i) ∈ l ∧ i.up = true := by
  simp [upNbrs]

omit [DecidableEq Node] in
theorem nodup_upNbrs (hkeys : (l.map Prod.fst).Nodup) : (upNbrs l).Nodup :=
  hkeys.sublist (List.filter_sublist.map Prod.fst)

/-- An entry is found by its key. -/
theorem interface_of_mem (hkeys : (l.map Prod.fst).Nodup) {i : Interface} (hmem : (u, i) ∈ l) :
    interface l u = i := by
  induction l with
  | nil => cases hmem
  | cons e l ih =>
    obtain ⟨hne, hkeys⟩ := List.nodup_cons.1 hkeys
    rcases List.mem_cons.1 hmem with rfl | hmem
    · simp [interface]
    · have hu : e.1 ≠ u := fun h => hne (h ▸ List.mem_map_of_mem (f := Prod.fst) hmem)
      rw [← ih hkeys hmem, interface, interface, List.find?_cons_of_neg (by simpa using hu)]

theorem interface_up_iff (hkeys : (l.map Prod.fst).Nodup) :
    (interface l u).up = true ↔ u ∈ upNbrs l := by
  rw [mem_upNbrs]
  constructor
  · intro hup
    cases hfind : l.find? fun e => e.1 = u with
    | none =>
      rw [interface, hfind] at hup
      cases hup
    | some e =>
      have hkey : e.1 = u := by simpa using List.find?_some hfind
      rw [interface, hfind] at hup
      exact ⟨e.2, hkey ▸ List.mem_of_find?_eq_some hfind, hup⟩
  · rintro ⟨i, hmem, hup⟩
    rw [interface_of_mem hkeys hmem, hup]

theorem keys_access (hkeys : (l.map Prod.fst).Nodup) : ((access l u).map Prod.fst).Nodup := by
  rw [access]
  split
  · exact hkeys
  · next hu =>
    rw [List.map_append]
    exact hkeys.append (List.nodup_singleton u) (by simpa using hu)

/-- The entry that `operator[]` inserts is found as it was before. -/
theorem interface_access (w : Node) : interface (access l u) w = interface l w := by
  rw [access]
  split
  · rfl
  · next hu =>
    rw [interface, interface, List.find?_append]
    cases hfind : l.find? fun e => e.1 = w with
    | some e => rfl
    | none =>
      by_cases hw : u = w <;> simp [hw]

omit [DecidableEq Node] in
theorem upNbrs_append (l' : List (Node × Interface)) :
    upNbrs (l ++ l') = upNbrs l ++ upNbrs l' := by
  simp [upNbrs]

@[simp] theorem upNbrs_access : upNbrs (access l u) = upNbrs l := by
  rw [access]
  split
  · rfl
  · rw [upNbrs_append]
    simp [upNbrs, Interface.new]

theorem mem_of_mem_access {e : Node × Interface} (he : e ∈ access l u) (hup : e.2.up = true) :
    e ∈ l := by
  rw [access] at he
  split at he
  · exact he
  · rcases List.mem_append.1 he with he | he
    · exact he
    · obtain rfl := List.mem_singleton.1 he
      cases hup

theorem keys_setDown (hkeys : (l.map Prod.fst).Nodup) : ((setDown l u).map Prod.fst).Nodup := by
  have hfst : Prod.fst ∘ (fun e : Node × Interface =>
      if e.1 = u then (e.1, { e.2 with up := false }) else e) = Prod.fst := by
    funext e
    by_cases he : e.1 = u <;> simp [he]
  rw [setDown, List.map_map, hfst]
  exact keys_access hkeys

theorem mem_setDown {e : Node × Interface} (hup : e.2.up = true) :
    e ∈ setDown l u ↔ e ∈ l ∧ e.1 ≠ u := by
  rw [setDown, List.mem_map]
  constructor
  · rintro ⟨e', he', rfl⟩
    by_cases hu : e'.1 = u
    · simp [hu] at hup
    · rw [if_neg hu] at hup ⊢
      exact ⟨mem_of_mem_access he' hup, hu⟩
  · rintro ⟨he, hu⟩
    refine ⟨e, ?_, if_neg hu⟩
    rw [access]
    split
    · exact he
    · exact List.mem_append_left _ he

end Entries

section Down

variable {T : Topology Node} {nbr2if : Node → List (Node × Interface)}

omit [DecidableEq Node] in
theorem Links.nodup_adj (h : Links T nbr2if) (v : Node) : (upNbrs (nbr2if v)).Nodup :=
  nodup_upNbrs (h.keys v)

theorem mem_downBoth {a b v : Node} {e : Node × Interface} (hup : e.2.up = true) :
    e ∈ downBoth nbr2if a b v ↔
      e ∈ nbr2if v ∧ ¬(v = a ∧ e.1 = b) ∧ ¬(v = b ∧ e.1 = a) := by
  by_cases ha : v = a
  · subst ha
    rw [downBoth, Function.update_self, mem_setDown hup]
    by_cases hb : v = b
    · subst hb
      rw [Function.update_self, mem_setDown hup]
      simp
    · rw [Function.update_of_ne hb]
      simp [hb]
  · rw [downBoth, Function.update_of_ne ha]
    by_cases hb : v = b
    · subst hb
      rw [Function.update_self, mem_setDown hup]
      simp [ha]
    · rw [Function.update_of_ne hb]
      simp [ha, hb]

theorem mem_upNbrs_downBoth {a b u v : Node} : u ∈ upNbrs (downBoth nbr2if a b v) ↔
    u ∈ upNbrs (nbr2if v) ∧ ¬(v = a ∧ u = b) ∧ ¬(v = b ∧ u = a) := by
  rw [mem_upNbrs, mem_upNbrs]
  constructor
  · rintro ⟨i, hmem, hup⟩
    obtain ⟨hmem, hne⟩ := (mem_downBoth hup).1 hmem
    exact ⟨⟨i, hmem, hup⟩, hne⟩
  · rintro ⟨⟨i, hmem, hup⟩, hne⟩
    exact ⟨i, (mem_downBoth hup).2 ⟨hmem, hne⟩, hup⟩

theorem Links.downBoth (h : Links T nbr2if) (a b : Node) : Links T (downBoth nbr2if a b) where
  keys v := by
    have hb : ∀ w, ((Function.update nbr2if b (setDown (nbr2if b) a) w).map Prod.fst).Nodup := by
      intro w
      by_cases hw : w = b
      · subst hw
        rw [Function.update_self]
        exact keys_setDown (h.keys w)
      · rw [Function.update_of_ne hw]
        exact h.keys w
    by_cases hv : v = a
    · subst hv
      rw [Routing.downBoth, Function.update_self]
      exact keys_setDown (hb v)
    · rw [Routing.downBoth, Function.update_of_ne hv]
      exact hb v
  mem v e he hup := h.mem v e ((mem_downBoth hup).1 he).1 hup
  channel v e he hup := h.channel v e ((mem_downBoth hup).1 he).1 hup
  symm v u hu := by
    obtain ⟨hu, hab, hba⟩ := mem_upNbrs_downBoth.1 hu
    refine mem_upNbrs_downBoth.2 ⟨h.symm v u hu, fun h => hba h.symm, fun h => hab h.symm⟩

theorem upNbrs_update_access (nbr2if : Node → List (Node × Interface)) (a b v : Node) :
    upNbrs (Function.update nbr2if a (access (nbr2if a) b) v) = upNbrs (nbr2if v) := by
  by_cases hv : v = a
  · subst hv
    simp
  · rw [Function.update_of_ne hv]

theorem interface_update_access (a b v u : Node) :
    interface (Function.update nbr2if a (access (nbr2if a) b) v) u = interface (nbr2if v) u := by
  by_cases hv : v = a
  · subst hv
    rw [Function.update_self, interface_access]
  · rw [Function.update_of_ne hv]

theorem Links.access (h : Links T nbr2if) (a b : Node) :
    Links T (Function.update nbr2if a (access (nbr2if a) b)) := by
  have hmem : ∀ v, ∀ e ∈ Function.update nbr2if a (Routing.access (nbr2if a) b) v,
      e.2.up = true → e ∈ nbr2if v := fun v e he hup => by
    by_cases hv : v = a
    · subst hv
      rw [Function.update_self] at he
      exact mem_of_mem_access he hup
    · rwa [Function.update_of_ne hv] at he
  refine ⟨fun v => ?_, fun v e he hup => h.mem v e (hmem v e he hup) hup,
    fun v e he hup => h.channel v e (hmem v e he hup) hup, fun v u hu => ?_⟩
  · by_cases hv : v = a
    · subst hv
      rw [Function.update_self]
      exact keys_access (h.keys v)
    · rw [Function.update_of_ne hv]
      exact h.keys v
  · rw [upNbrs_update_access] at hu ⊢
    exact h.symm v u hu

end Down

/-! ### Routes and tables -/

section Routes

variable {T : Topology Node} {net net' : Net Node} {h v : Node}

/-- The search depends on the links that are up. -/
theorem bfs_congr (hadj : adj net = adj net') (h : Node) : bfs T net h = bfs T net' h := by
  rw [bfs, bfs, hadj]

/-- `CalculateRoutes` appends the parents to the columns of the hosts. -/
theorem foldl_calculateRoute {l : List Node} (hl : l.Nodup) (net : Net Node) :
    let net' := l.foldl (fun net node =>
      if T.nodeType node = .host then calculateRoute T net node else net) net
    net'.nbr2if = net.nbr2if ∧ net'.rtTable = net.rtTable ∧ ∀ v h, net'.nextHop v h =
      if h ∈ l ∧ T.nodeType h = .host then net.nextHop v h ++ (bfs T net h).par v
      else net.nextHop v h := by
  induction l generalizing net with
  | nil => simp
  | cons g l ih =>
    obtain ⟨hg, hl⟩ := List.nodup_cons.1 hl
    rw [List.foldl_cons]
    by_cases hhost : T.nodeType g = .host
    · rw [if_pos hhost]
      obtain ⟨hlinks, htable, hnext⟩ := ih hl (calculateRoute T net g)
      refine ⟨hlinks, htable, fun v h => ?_⟩
      have hbfs : bfs T (calculateRoute T net g) h = bfs T net h := bfs_congr rfl h
      rw [hnext, hbfs]
      have hcol : (calculateRoute T net g).nextHop v h =
          if h = g then net.nextHop v h ++ (bfs T net g).par v else net.nextHop v h :=
        (search_bfs T net g).nextHop v h
      rw [hcol]
      by_cases hh : h = g
      · subst hh
        simp [hg, hhost]
      · simp [hh]
    · rw [if_neg hhost]
      obtain ⟨hlinks, htable, hnext⟩ := ih hl net
      refine ⟨hlinks, htable, fun v h => ?_⟩
      rw [hnext]
      by_cases hh : h = g
      · subst hh
        simp [hhost]
      · simp [hh]

theorem foldl_clearTable (l : List Node) (rtTable : Node → UInt32 → List ℕ) :
    l.foldl (fun rtTable node => Function.update rtTable node fun _ => []) rtTable v =
      if v ∈ l then fun _ => [] else rtTable v := by
  induction l generalizing rtTable with
  | nil => rfl
  | cons w l ih =>
    rw [List.foldl_cons, ih]
    by_cases hw : v = w
    · subst hw
      simp
    · simp [hw]

theorem clearTables_apply (rtTable : Node → UInt32 → List ℕ) (hv : v ∈ T.n) :
    clearTables T rtTable v = fun _ => [] := by
  rw [clearTables, foldl_clearTable, if_pos hv]

theorem clearTables_of_notMem (rtTable : Node → UInt32 → List ℕ) (hv : v ∉ T.n) :
    clearTables T rtTable v = rtTable v := by
  rw [clearTables, foldl_clearTable, if_neg hv]

variable (T) in
/-- The entries that `SetRoutingEntries` adds for the next hops of one node and destination. -/
theorem foldl_addTableEntry (node : Node) (dst : UInt32) (idx : Node → ℕ) (nexts : List Node)
    (tbl : Node → UInt32 → List ℕ) (v : Node) (a : UInt32) :
    nexts.foldl (fun tbl next => addTableEntry tbl node dst (idx next)) tbl v a =
      if v = node ∧ a = dst then tbl v a ++ nexts.map idx else tbl v a := by
  induction nexts generalizing tbl with
  | nil => simp
  | cons next nexts ih =>
    rw [List.foldl_cons, ih]
    by_cases hv : v = node
    · subst hv
      by_cases ha : a = dst
      · subst ha
        simp [addTableEntry]
      · simp [addTableEntry, ha]
    · simp [addTableEntry, hv]

/-- The entries for all destinations. -/
theorem foldl_destinations (node : Node) (addr : Node → UInt32) (idx : Node → ℕ)
    (nexts : Node → List Node) (dsts : List Node) (tbl : Node → UInt32 → List ℕ) (v : Node)
    (a : UInt32) :
    dsts.foldl (fun tbl dst =>
        (nexts dst).foldl (fun tbl next => addTableEntry tbl node (addr dst) (idx next)) tbl) tbl
        v a =
      if v = node then
        tbl v a ++ dsts.flatMap fun dst => if a = addr dst then (nexts dst).map idx else []
      else tbl v a := by
  induction dsts generalizing tbl with
  | nil => simp
  | cons dst dsts ih =>
    rw [List.foldl_cons, ih, foldl_addTableEntry]
    by_cases hv : v = node
    · by_cases ha : a = addr dst <;> simp [hv, ha]
    · simp [hv]

omit [DecidableEq Node] in
/-- If only one destination of an address has next hops, the entries are those of it. -/
theorem flatMap_destinations {addr : Node → UInt32} {idx : Node → ℕ} {nexts : Node → List Node}
    {dsts : List Node} (hnodup : dsts.Nodup) (hh : h ∈ dsts)
    (hunique : ∀ dst ∈ dsts, dst ≠ h → addr h = addr dst → nexts dst = []) :
    (dsts.flatMap fun dst => if addr h = addr dst then (nexts dst).map idx else []) =
      (nexts h).map idx := by
  have hnil : ∀ l ⊆ dsts, h ∉ l →
      (l.flatMap fun dst => if addr h = addr dst then (nexts dst).map idx else []) = [] := by
    refine fun l hl hnot => List.flatMap_eq_nil_iff.2 fun dst hdst => ?_
    by_cases ha : addr h = addr dst
    · rw [if_pos ha, hunique dst (hl hdst) (fun he => hnot (he ▸ hdst)) ha, List.map_nil]
    · rw [if_neg ha]
  obtain ⟨l, r, rfl⟩ := List.append_of_mem hh
  rw [List.nodup_append, List.nodup_cons] at hnodup
  obtain ⟨-, ⟨hr, -⟩, hdisj⟩ := hnodup
  have hl : h ∉ l := fun hmem => hdisj h hmem h List.mem_cons_self rfl
  rw [List.flatMap_append, List.flatMap_cons, if_pos rfl,
    hnil l (List.subset_append_left _ _) hl,
    hnil r (fun w hw => List.mem_append_right _ (List.mem_cons_of_mem _ hw)) hr,
    List.nil_append, List.append_nil]

/-- **`SetRoutingEntries`** appends, for every node and every host, the interfaces of the next
hops. -/
theorem rtTable_setRoutingEntries (hhost : T.nodeType h = .host) (hv : v ∈ T.n) (hh : h ∈ T.n)
    (hnext : ∀ dst, T.nodeType dst ≠ .host → net.nextHop v dst = []) :
    (setRoutingEntries T net).rtTable v (T.address h) = net.rtTable v (T.address h) ++
      (net.nextHop v h).map fun u => (interface (net.nbr2if v) u).idx := by
  have hrow : (T.n.flatMap fun dst => if T.address h = T.address dst then
        (net.nextHop v dst).map fun u => (interface (net.nbr2if v) u).idx else []) =
      (net.nextHop v h).map fun u => (interface (net.nbr2if v) u).idx :=
    flatMap_destinations T.nodup hh fun dst hdst hne ha => by
      by_cases hdhost : T.nodeType dst = .host
      · exact absurd (T.address_inj h hh dst hdst hhost hdhost ha).symm hne
      · exact hnext dst hdhost
  have hnodes : ∀ l : List Node, l.Nodup → ∀ tbl : Node → UInt32 → List ℕ,
      l.foldl (fun tbl node => T.n.foldl (fun tbl dst =>
        (net.nextHop node dst).foldl (fun tbl next =>
          addTableEntry tbl node (T.address dst) (interface (net.nbr2if node) next).idx) tbl)
        tbl) tbl v (T.address h) =
      if v ∈ l then tbl v (T.address h) ++
        (net.nextHop v h).map fun u => (interface (net.nbr2if v) u).idx
      else tbl v (T.address h) := by
    intro l hl
    induction l with
    | nil => exact fun tbl => rfl
    | cons w l ih =>
      obtain ⟨hw, hl⟩ := List.nodup_cons.1 hl
      intro tbl
      rw [List.foldl_cons, ih hl, foldl_destinations]
      by_cases hvw : v = w
      · subst hvw
        rw [if_neg hw, if_pos rfl, if_pos List.mem_cons_self, hrow]
      · simp [hvw]
  exact (hnodes T.n T.nodup net.rtTable).trans (if_pos hv)

/-- The routes and the tables are those of the links that are up. -/
structure Routed (T : Topology Node) (net : Net Node) : Prop where
  nextHop : ∀ v h, net.nextHop v h =
    if h ∈ T.n ∧ T.nodeType h = .host then (bfs T net h).par v else []
  rtTable : ∀ v ∈ T.n, ∀ h ∈ T.n, T.nodeType h = .host →
    net.rtTable v (T.address h) =
      (net.nextHop v h).map fun u => (interface (net.nbr2if v) u).idx

/-- Routes computed from nothing and installed in empty tables. -/
theorem routed_setRoutingEntries (hnext : ∀ v h, net.nextHop v h = [])
    (hlinks : net'.nbr2if = net.nbr2if) (hsame : net'.nextHop = (calculateRoutes T net).nextHop)
    (htable : ∀ v ∈ T.n, net'.rtTable v = fun _ => []) : Routed T (setRoutingEntries T net') := by
  obtain ⟨-, -, hcalc⟩ := foldl_calculateRoute (T := T) T.nodup net
  have hroute : ∀ v h, net'.nextHop v h =
      if h ∈ T.n ∧ T.nodeType h = .host then (bfs T net' h).par v else [] := fun v h => by
    have hbfs : bfs T net' h = bfs T net h := bfs_congr (by unfold adj; rw [hlinks]) h
    rw [hsame, calculateRoutes, hcalc, hnext, hbfs, List.nil_append]
  refine ⟨hroute, fun v hv h hh hhost => ?_⟩
  rw [rtTable_setRoutingEntries hhost hv hh fun dst hdst => ?_, htable v hv, List.nil_append]
  · rfl
  · rw [hroute, if_neg fun hcond => hdst hcond.2]

/-- Routes and tables do not depend on entries of links that are down. -/
theorem Routed.congr (hrouted : Routed T net) (hadj : adj net' = adj net)
    (hidx : ∀ v u, interface (net'.nbr2if v) u = interface (net.nbr2if v) u)
    (hnext : net'.nextHop = net.nextHop) (htable : net'.rtTable = net.rtTable) :
    Routed T net' := by
  refine ⟨fun v h => ?_, fun v hv h hh hhost => ?_⟩
  · rw [hnext, hrouted.nextHop, bfs_congr hadj]
  · rw [htable, hnext, hrouted.rtTable v hv h hh hhost]
    simp only [hidx]

/-- **Taking down a link** takes down no other and keeps routes and tables up to date. -/
theorem takeDownLink_spec (hlinks : Links T net.nbr2if) (hrouted : Routed T net) (a b : Node) :
    Links T (takeDownLink T net a b).nbr2if ∧ Routed T (takeDownLink T net a b) ∧
      ∀ v u, u ∈ adj (takeDownLink T net a b) v ↔
        u ∈ adj net v ∧ ¬(v = a ∧ u = b) ∧ ¬(v = b ∧ u = a) := by
  have haccess := hlinks.access a b
  rw [takeDownLink]
  by_cases hup : (interface (Function.update net.nbr2if a (access (net.nbr2if a) b) a) b).up = false
  · rw [if_pos hup]
    refine ⟨haccess, hrouted.congr (funext fun v => upNbrs_update_access _ a b v)
      (interface_update_access a b) rfl rfl, fun v u => ?_⟩
    -- there is no such link to be taken down
    have hnot : b ∉ upNbrs (net.nbr2if a) := fun hmem => by
      rw [← upNbrs_update_access net.nbr2if a b,
        ← interface_up_iff (haccess.keys a), hup] at hmem
      cases hmem
    have hnot' : a ∉ upNbrs (net.nbr2if b) := fun hmem => hnot (hlinks.symm b a hmem)
    show u ∈ upNbrs _ ↔ u ∈ upNbrs _ ∧ _
    rw [upNbrs_update_access]
    refine ⟨fun hu => ⟨hu, ?_, ?_⟩, And.left⟩
    · rintro ⟨rfl, rfl⟩
      exact hnot hu
    · rintro ⟨rfl, rfl⟩
      exact hnot' hu
  · rw [if_neg hup]
    obtain ⟨hsame, htable, -⟩ := foldl_calculateRoute (T := T) T.nodup { net with
      nbr2if := downBoth (Function.update net.nbr2if a (access (net.nbr2if a) b)) a b
      nextHop := fun _ _ => [] }
    refine ⟨(congrArg (Links T) hsame).mpr (haccess.downBoth a b),
      routed_setRoutingEntries (fun _ _ => rfl) hsame rfl fun v hv => clearTables_apply _ hv,
      fun v u => ?_⟩
    refine (iff_of_eq (congrArg (fun l => u ∈ upNbrs (l v)) hsame)).trans ?_
    show u ∈ upNbrs (downBoth _ a b v) ↔ _
    rw [mem_upNbrs_downBoth, upNbrs_update_access]
    rfl

/-- **After any failures**, the links that are up are the others of the topology file, and routes
and tables are those of them. -/
theorem after_spec {nbr2if : Node → List (Node × Interface)} (hlinks : Links T nbr2if)
    (cuts : List (Node × Node)) :
    Links T (after T nbr2if cuts).nbr2if ∧ Routed T (after T nbr2if cuts) ∧
      ∀ v u, u ∈ adj (after T nbr2if cuts) v ↔
        u ∈ upNbrs (nbr2if v) ∧ (v, u) ∉ cuts ∧ (u, v) ∉ cuts := by
  induction cuts using List.reverseRecOn with
  | nil =>
    obtain ⟨hsame, htable, -⟩ := foldl_calculateRoute (T := T) T.nodup
      { nbr2if := nbr2if, nextHop := fun _ _ => [], pairDelay := fun _ _ => none,
        pairTxDelay := fun _ _ => none, pairBw := fun _ _ => none, rtTable := fun _ _ => [] }
    refine ⟨(congrArg (Links T) hsame).mpr hlinks,
      routed_setRoutingEntries (fun _ _ => rfl) hsame rfl fun v _ => congrFun htable v,
      fun v u => ?_⟩
    refine (iff_of_eq (congrArg (fun l => u ∈ upNbrs (l v)) hsame)).trans ?_
    simp
  | append_singleton cuts cut ih =>
    obtain ⟨hlinks', hrouted, hadj⟩ := ih
    obtain ⟨hlinks'', hrouted', hadj'⟩ := takeDownLink_spec hlinks' hrouted cut.1 cut.2
    have hafter : after T nbr2if (cuts ++ [cut]) =
        takeDownLink T (after T nbr2if cuts) cut.1 cut.2 := by
      rw [after, List.foldl_append]
      rfl
    rw [hafter]
    refine ⟨hlinks'', hrouted', fun v u => ?_⟩
    rw [hadj', hadj]
    simp only [List.mem_append, List.mem_singleton, Prod.ext_iff]
    tauto

end Routes

/-! ### Shortest routes -/

section Shortest

variable (T : Topology Node) (net : Net Node) (h : Node)

/-- There is a way of `n` hops from a node to `h`, over links that are up and through switches. -/
inductive Hops : Node → ℕ → Prop
  | zero : Hops h 0
  | succ {v u : Node} {n : ℕ} (hlink : u ∈ adj net v) (hpass : u = h ∨ T.nodeType u = .switch)
      (hu : Hops u n) : Hops v (n + 1)

/-- The nodes a packet for the address `dip` passes in `k` hops from a node on. -/
def route (dip : UInt32) (hash : Node → UInt32) : ℕ → Node → Option (List Node) :=
  Bfs.follow (forwardTo T net dip hash)

variable {T net h}

omit [DecidableEq Node] in
theorem isSwitch_iff {v : Node} : isSwitch T v = true ↔ T.nodeType v = .switch := decide_eq_true_iff

omit [DecidableEq Node] in
theorem hops_iff_walk (hlinks : Links T net.nbr2if) {v : Node} {n : ℕ} :
    Hops T net h v n ↔ Bfs.Walk (adj net) (isSwitch T) h v n := by
  constructor
  · intro hv
    induction hv with
    | zero => exact .zero
    | succ hlink hpass _ ih =>
      exact .succ ih (hpass.imp_right isSwitch_iff.2) (hlinks.symm _ _ hlink)
  · intro hv
    induction hv with
    | zero => exact .zero
    | succ _ hpass hlink ih =>
      exact .succ (hlinks.symm _ _ hlink) (hpass.imp_right isSwitch_iff.1) ih

/-- The search of `CalculateRoute` gets through. -/
theorem exists_inv_bfs (hlinks : Links T net.nbr2if) (hh : h ∈ T.n) :
    ∃ done ⊆ T.n, Bfs.Inv (adj net) (isSwitch T) h (bfs T net h) done [] := by
  refine Bfs.exists_inv_run (fun v => hlinks.nodup_adj v) (fun u _ v hv => ?_) Bfs.inv_init
    (by simpa [Bfs.init] using hh) (by simp)
  obtain ⟨i, hmem, hup⟩ := mem_upNbrs.1 hv
  exact (hlinks.mem u _ hmem hup).2

/-- A node forwards a packet to a next hop, whatever the hash. -/
theorem forwardTo_mem (hlinks : Links T net.nbr2if) (hrouted : Routed T net) (hh : h ∈ T.n)
    (hhost : T.nodeType h = .host) (hash : Node → UInt32) {v : Node}
    (hne : net.nextHop v h ≠ []) (hadj : ∀ u ∈ net.nextHop v h, u ∈ adj net v) :
    ∃ u ∈ net.nextHop v h, forwardTo T net (T.address h) hash v = some u := by
  obtain ⟨w, hw⟩ := List.exists_mem_of_ne_nil _ hne
  obtain ⟨i, hmem, hup⟩ := mem_upNbrs.1 (hadj w hw)
  have hv : v ∈ T.n := (hlinks.mem v _ hmem hup).1
  have htable := hrouted.rtTable v hv h hh hhost
  have hlen : 0 < (net.nextHop v h).length := List.length_pos_iff.2 hne
  have hlt : (hash v).toNat % (net.nextHop v h).length < (net.nextHop v h).length :=
    Nat.mod_lt _ hlen
  obtain ⟨u, hu⟩ : ∃ u, u = (net.nextHop v h)[(hash v).toNat % (net.nextHop v h).length] :=
    ⟨_, rfl⟩
  have hmem : u ∈ net.nextHop v h := hu ▸ List.getElem_mem hlt
  obtain ⟨i, hentry, hup⟩ := mem_upNbrs.1 (hadj u hmem)
  have hidx : (interface (net.nbr2if v) u).idx = i.idx := by
    rw [interface_of_mem (hlinks.keys v) hentry]
  have hdev : (net.rtTable v (T.address h))[(hash v).toNat %
      (net.rtTable v (T.address h)).length]? = some i.idx := by
    rw [htable, List.length_map, List.getElem?_map, List.getElem?_eq_getElem hlt, ← hu, ← hidx]
    rfl
  have hnil : net.rtTable v (T.address h) ≠ [] := by
    rw [htable]
    simpa using hne
  refine ⟨u, hmem, ?_⟩
  have hchannel : T.channel v i.idx = some u := hlinks.channel v _ hentry hup
  rw [forwardTo]
  cases T.nodeType v with
  | switch => simp [getOutDev, hnil, hdev, hchannel]
  | host => simp [getNicIdxOfQp, List.length_pos_iff.2 hnil, hdev, hchannel]

/-- Whatever the hashes are, a packet gets to `h` in as many hops as the search has counted, without
visiting a node twice and through switches only. -/
theorem exists_route (hlinks : Links T net.nbr2if) (hrouted : Routed T net) (hh : h ∈ T.n)
    (hhost : T.nodeType h = .host) (hash : Node → UInt32) {v : Node} {k : ℕ}
    (hk : (bfs T net h).dist v = some k) :
    ∃ path, route T net (T.address h) hash k v = some path ∧ path.length = k + 1 ∧
      path.head? = some v ∧ path.getLast? = some h ∧ path.Nodup ∧
      ∀ u ∈ path.tail, u = h ∨ T.nodeType u = .switch := by
  obtain ⟨done, -, hinv⟩ := exists_inv_bfs hlinks hh
  have hnext : ∀ v, net.nextHop v h = (bfs T net h).par v := fun v => by
    rw [hrouted.nextHop, if_pos ⟨hh, hhost⟩]
  have hforward : ∀ v, (bfs T net h).par v ≠ [] → ∃ u ∈ (bfs T net h).par v,
      forwardTo T net (T.address h) hash v = some u := fun v hne => by
    rw [← hnext] at hne ⊢
    refine forwardTo_mem hlinks hrouted hh hhost hash hne fun u hu => ?_
    rw [hnext] at hu
    exact hlinks.symm u v (hinv.mem_par_iff.1 hu).2.1
  obtain ⟨path, hpath, hhead, hlast, hmap, htail⟩ := hinv.exists_follow hforward hk
  have hlen : path.length = k + 1 := by
    simpa using congrArg List.length hmap
  -- the distances along the path differ
  have hnodup : path.Nodup := by
    refine List.Nodup.of_map (bfs T net h).dist ?_
    rw [hmap]
    exact (List.nodup_reverse.2 List.nodup_range).map (Option.some_injective ℕ)
  exact ⟨path, hpath, hlen, hhead, hlast, hnodup,
    fun u hu => (htail u hu).imp_right isSwitch_iff.1⟩

/-- **Routing is shortest and free of loops.** Take a topology whose links are up at both ends or at
none, after any links have been taken down. For every host `h` and every node that the search of
`CalculateRoute` reaches: the distance is that over the links that are left, through switches only;
the next hops are the neighbours that are nearer, without duplicates; the table has their
interfaces; and whatever the hashes are, a packet gets to `h` in as many hops as the distance says,
visiting no node twice and no other host on its way. -/
theorem routing_shortest {nbr2if : Node → List (Node × Interface)} (hlinks : Links T nbr2if)
    (cuts : List (Node × Node)) (hh : h ∈ T.n) (hhost : T.nodeType h = .host) :
    let net := after T nbr2if cuts
    let st := search T net h
    (∀ v u, u ∈ adj net v ↔ u ∈ upNbrs (nbr2if v) ∧ (v, u) ∉ cuts ∧ (u, v) ∉ cuts) ∧
    (∀ v k, st.dis v = some k ↔ IsLeast {n | Hops T net h v n} k) ∧
    ∀ v k, st.dis v = some k →
      (net.nextHop v h).Nodup ∧
      (∀ u, u ∈ net.nextHop v h ↔ u ∈ adj net v ∧ (u = h ∨ T.nodeType u = .switch) ∧
        ∃ j, st.dis u = some j ∧ j + 1 = k) ∧
      net.rtTable v (T.address h) =
        (net.nextHop v h).map (fun u => (interface (net.nbr2if v) u).idx) ∧
      ∀ hash, ∃ path, route T net (T.address h) hash k v = some path ∧ path.length = k + 1 ∧
        path.head? = some v ∧ path.getLast? = some h ∧ path.Nodup ∧
        ∀ u ∈ path.tail, u = h ∨ T.nodeType u = .switch := by
  intro net st
  obtain ⟨hlinks', hrouted, hadj⟩ := after_spec hlinks cuts
  obtain ⟨done, -, hinv⟩ := exists_inv_bfs hlinks' hh
  have hdis : ∀ v, st.dis v = (bfs T net h).dist v := (search_bfs T net h).dis
  have hnext : ∀ v, net.nextHop v h = (bfs T net h).par v := fun v => by
    rw [hrouted.nextHop, if_pos ⟨hh, hhost⟩]
  refine ⟨hadj, fun v k => ?_, fun v k hk => ⟨?_, fun u => ?_, ?_, fun hash => ?_⟩⟩
  · rw [hdis, hinv.dist_eq_some_iff]
    simp only [hops_iff_walk hlinks', net]
  · rw [hnext]
    exact hinv.nodup_par v
  · rw [hdis] at hk
    rw [hnext, hinv.mem_par_iff, hk, isSwitch_iff]
    simp only [hdis, Option.some.injEq]
    exact ⟨fun ⟨hpass, hlink, j, hj, hjk⟩ => ⟨hlinks'.symm u v hlink, hpass, j, hj, hjk.symm⟩,
      fun ⟨hlink, hpass, j, hj, hjk⟩ => ⟨hpass, hlinks'.symm v u hlink, j, hj, hjk.symm⟩⟩
  · have hv : v ∈ T.n := by
      rcases hinv.parent v k ((hdis v).symm.trans hk) with ⟨rfl, -⟩ | ⟨u, -, hlink, -⟩
      · exact hh
      · obtain ⟨i, hmem, hup⟩ := mem_upNbrs.1 hlink
        exact (hlinks'.mem u _ hmem hup).2
    exact hrouted.rtTable v hv h hh hhost
  · exact exists_route hlinks' hrouted hh hhost hash ((hdis v).symm.trans hk)

end Shortest

/-- Two hosts, `0` and `1`, and two switches that are linked with both. -/
def square : Topology (Fin 4) where
  n := [0, 1, 2, 3]
  nodeType v := if v ≤ 1 then .host else .switch
  address v := 0x0b000001 + .ofNat (256 * v)
  channel v dev :=
    let across : Fin 4 := if v ≤ 1 then 2 else 0
    if dev = 1 then some across else if dev = 2 then some (across + 1) else none
  packetPayloadSize := 1000
  nodup := by decide
  address_inj := by decide

def squareLinks (v : Fin 4) : List (Fin 4 × Interface) :=
  let across : Fin 4 := if v ≤ 1 then 2 else 0
  [(across, ⟨1, true, 1000, 100000000000⟩), (across + 1, ⟨2, true, 1000, 100000000000⟩)]

theorem links_square : Links square squareLinks where
  keys := by decide
  mem := by decide
  channel := by decide
  symm := by decide

/-- The square when the link between `0` and `2` has been taken down: packets of `0` for `1` pass
`3`. -/
theorem routing_shortest_square :
    let net := after square squareLinks [(0, 2)]
    (search square net 1).dis 0 = some 2 ∧
    ∀ hash, ∃ path, route square net (square.address 1) hash 2 0 = some path ∧ path.length = 3 ∧
      path.head? = some 0 ∧ path.getLast? = some 1 ∧ path.Nodup ∧
      ∀ u ∈ path.tail, u = 1 ∨ square.nodeType u = .switch := by
  intro net
  have hdis : (search square net 1).dis 0 = some 2 := by decide +kernel
  obtain ⟨-, -, hroutes⟩ := routing_shortest links_square [(0, 2)] (h := 1) (by decide) (by decide)
  exact ⟨hdis, (hroutes 0 2 hdis).2.2.2⟩

end Routing

end HpccSim
