import HpccSim.Network

/-!
# Hosts get what is addressed to them

The search of `CalculateRoute` does not go on from a host, so a host is the next hop of its own
address only. Whatever links are taken down, what waits in front of a host or is on the wire to it
has been sent by some host, and is addressed to it.

## Main definitions

* `Routing.OnlyNextHops`: the tables hold the devices to the next hops of hosts and no others.
* `Switch.Placed`: what is at a device meets a condition.
* `Network.Addressed`: what is in front of a host is addressed to it.

## Main results

* `Routing.address_of_mem_rtTable`: the table of a node leads to a host by its address only.
* `Network.Addressed.step`, `Network.Addressed.delivered`: every event keeps it, and a packet that a
  host gets is addressed to it.
-/

namespace HpccSim

/-! ### The tables -/

namespace Routing

variable {Node : Type} [DecidableEq Node] {T : Topology Node} {net : Net Node} {v w : Node} {d : ℕ}
  {a : UInt32}

/-- Every entry of a table is the device to a next hop of a node with the address. -/
def OnlyNextHops (T : Topology Node) (net : Net Node) : Prop :=
  ∀ v a, ∀ d ∈ net.rtTable v a, v ∈ T.n ∧ ∃ h, T.address h = a ∧ ∃ u ∈ net.nextHop v h,
    (interface (net.nbr2if v) u).idx = d

/-- `SetRoutingEntries` adds the devices to next hops. -/
theorem mem_setRoutingEntries (hd : d ∈ (setRoutingEntries T net).rtTable v a) :
    d ∈ net.rtTable v a ∨ v ∈ T.n ∧ ∃ h, T.address h = a ∧ ∃ u ∈ net.nextHop v h,
      (interface (net.nbr2if v) u).idx = d := by
  have hnodes : ∀ (l : List Node) (tbl : Node → UInt32 → List ℕ),
      d ∈ l.foldl (fun tbl node => T.n.foldl (fun tbl dst =>
        (net.nextHop node dst).foldl (fun tbl next =>
          addTableEntry tbl node (T.address dst) (interface (net.nbr2if node) next).idx) tbl)
        tbl) tbl v a →
      d ∈ tbl v a ∨ v ∈ l ∧ ∃ h, T.address h = a ∧ ∃ u ∈ net.nextHop v h,
        (interface (net.nbr2if v) u).idx = d := by
    intro l
    induction l with
    | nil => exact fun tbl hd => .inl hd
    | cons node l ih =>
      intro tbl hd
      rw [List.foldl_cons] at hd
      rcases ih _ hd with hold | ⟨hv, hentry⟩
      · rw [foldl_destinations] at hold
        split_ifs at hold with hnode
        · subst hnode
          rcases List.mem_append.1 hold with hold | hnew
          · exact .inl hold
          · obtain ⟨dst, -, hin⟩ := List.mem_flatMap.1 hnew
            split_ifs at hin with ha
            · obtain ⟨u, hu, hidx⟩ := List.mem_map.1 hin
              exact .inr ⟨List.mem_cons_self, dst, ha.symm, u, hu, hidx⟩
            · cases hin
        · exact .inl hold
      · exact .inr ⟨List.mem_cons_of_mem node hv, hentry⟩
  exact hnodes T.n net.rtTable hd

theorem onlyNextHops_start (T : Topology Node) (nbr2if : Node → List (Node × Interface)) :
    OnlyNextHops T (start T nbr2if) := by
  intro v a d hd
  obtain ⟨-, htable, -⟩ := foldl_calculateRoute (T := T) T.nodup
    { nbr2if := nbr2if, nextHop := fun _ _ => [], pairDelay := fun _ _ => none,
      pairTxDelay := fun _ _ => none, pairBw := fun _ _ => none, rtTable := fun _ _ => [] }
  rcases mem_setRoutingEntries hd with hold | hentry
  · rw [calculateRoutes, htable] at hold
    cases hold
  · exact hentry

theorem OnlyNextHops.takeDownLink (h : OnlyNextHops T net) (b b' : Node) :
    OnlyNextHops T (takeDownLink T net b b') := by
  intro v a d hd
  rw [Routing.takeDownLink] at hd ⊢
  split_ifs at hd ⊢ with hup
  · obtain ⟨hv, g, hg, u, hu, hidx⟩ := h v a d hd
    refine ⟨hv, g, hg, u, hu, ?_⟩
    rw [← hidx]
    exact congrArg Interface.idx (interface_update_access b b' v u)
  · rcases mem_setRoutingEntries hd with hold | hentry
    · dsimp only at hold
      -- the tables of the nodes have been cleared, and the others have been empty
      by_cases hv : v ∈ T.n
      · rw [clearTables_apply _ hv] at hold
        cases hold
      · obtain ⟨-, htable, -⟩ := foldl_calculateRoute (T := T) T.nodup { net with
          nbr2if := downBoth (Function.update net.nbr2if b (access (net.nbr2if b) b')) b b'
          nextHop := fun _ _ => [] }
        rw [clearTables_of_notMem _ hv, calculateRoutes, htable] at hold
        exact absurd (h v a d hold).1 hv
    · exact hentry

/-- **A host is the next hop of its own address only.** -/
theorem address_of_mem_rtTable (hlinks : Links T net.nbr2if) (hrouted : Routed T net)
    (htables : OnlyNextHops T net) (hd : d ∈ net.rtTable v a) (hchannel : T.channel v d = some w)
    (hw : T.nodeType w = .host) : T.address w = a := by
  obtain ⟨hv, h, rfl, u, hu, rfl⟩ := htables v a d hd
  rw [hrouted.nextHop] at hu
  split_ifs at hu with hh
  · obtain ⟨done, -, hinv⟩ := exists_inv_bfs hlinks hh.1
    obtain ⟨hpass, hadj, -⟩ := hinv.mem_par_iff.1 hu
    obtain ⟨i, hmem, hup⟩ := mem_upNbrs.1 (hlinks.symm u v hadj)
    have hthere : T.channel v i.idx = some u := hlinks.channel v _ hmem hup
    rw [interface_of_mem (hlinks.keys v) hmem, hthere] at hchannel
    obtain rfl := Option.some.inj hchannel
    rcases hpass with rfl | hswitch
    · rfl
    · rw [isSwitch_iff, hw] at hswitch
      cases hswitch
  · cases hu

end Routing

/-! ### What is at a device -/

namespace Switch

variable {α : Type*} {P : ℕ → α → Prop} {S : Slot → List α} {ms : List (Move α)}

/-- The device behind which a packet is. -/
def Slot.device : Slot → ℕ
  | .queue d _ => d
  | .wire d => d

/-- What is at a device meets the condition of the device. -/
def Placed (P : ℕ → α → Prop) (S : Slot → List α) : Prop := ∀ k, ∀ a ∈ S k, P k.device a

theorem Placed.update (h : Placed P S) {k : Slot} {l : List α} (hl : ∀ a ∈ l, P k.device a) :
    Placed P (Function.update S k l) := by
  intro k' a ha
  rw [Function.update_apply] at ha
  split_ifs at ha with heq
  · subst heq
    exact hl a ha
  · exact h k' a ha

/-- What is queued meets the condition of the device. -/
def Move.Places (P : ℕ → α → Prop) : Move α → Prop
  | .push d _ a => P d a
  | .send _ _ => True
  | .discard _ _ => True

theorem Placed.apply (h : Placed P S) {m : Move α} (hm : m.Places P) : Placed P (m.apply S) := by
  have htail : ∀ d q, Placed P (Function.update S (.queue d q) (S (.queue d q)).tail) := fun d q =>
    h.update fun a ha => h (.queue d q) a (List.mem_of_mem_tail ha)
  cases m with
  | push d q a =>
    refine h.update fun b hb => ?_
    rcases List.mem_append.1 hb with hb | hb
    · exact h (.queue d q) b hb
    · rw [List.mem_singleton.1 hb]
      exact hm
  | send d q =>
    refine (htail d q).update fun b hb => ?_
    rcases List.mem_append.1 hb with hb | hb
    · exact h (.wire d) b hb
    · exact h (.queue d q) b (List.mem_of_mem_head? (Option.mem_toList.1 hb))
  | discard d q => exact htail d q

theorem Placed.applyAll (h : Placed P S) (hms : ∀ m ∈ ms, m.Places P) :
    Placed P (Move.applyAll S ms) := by
  induction ms generalizing S with
  | nil => exact h
  | cons m ms ih =>
    exact ih (h.apply (hms m List.mem_cons_self)) fun m' hm' => hms m' (List.mem_cons_of_mem m hm')

/-- Where only frames are queued, nothing is that carries a datagram. -/
theorem places_of_onlyFrames {P : ℕ → Parcel → Prop} {g : Option Datagram}
    (hframe : ∀ d x, x.datagram = none → P d x) {ms : List (Move Packet)}
    (hms : ∀ m ∈ ms, m.OnlyFrames) : ∀ m ∈ ms.map (Move.map (Parcel.label g)), m.Places P := by
  intro m hm
  obtain ⟨m', hm', rfl⟩ := List.mem_map.1 hm
  have honly := hms m' hm'
  cases m' with
  | push d q p => exact hframe d _ (if_neg honly)
  | send d q => trivial
  | discard d q => trivial

end Switch

/-! ### The network -/

namespace Network

open Routing Switch

variable {Node : Type} [DecidableEq Node] (c : Network Node) (N : State Node)

/-- A host has sent the packet, and it is addressed to the host behind the device, if there is
one. -/
def Fits (v : Node) (d : ℕ) (x : Parcel) : Prop :=
  ∀ g, x.datagram = some g → (∃ u, g ∈ N.emitted u) ∧
    ∀ w, c.topology.channel v d = some w → c.topology.nodeType w = .host →
      c.topology.address w = g.flow.dip

/-- The tables are up to date, and what is in front of a host is addressed to it. -/
structure Addressed : Prop where
  links : Links c.topology N.routes.nbr2if
  routed : Routed c.topology N.routes
  tables : OnlyNextHops c.topology N.routes
  parcels : ∀ v, Placed (c.Fits N v) (N.parcels v)

variable {c N} {N' : State Node} {u v w : Node} {d : ℕ} {x : Parcel} {g : Datagram}

theorem addressed_init (hlinks : Links c.topology c.links) : c.Addressed c.init := by
  obtain ⟨hlinks', hrouted, -⟩ := after_spec hlinks []
  exact ⟨hlinks', hrouted, onlyNextHops_start _ _, fun v k a ha => absurd ha List.not_mem_nil⟩

omit [DecidableEq Node] in
theorem mem_rtTable_of_outDev {routes : Net Node} {f : Stream} (h : c.outDev routes f v = some d) :
    d ∈ routes.rtTable v f.flow.dip := by
  rw [outDev] at h
  cases hv : c.topology.nodeType v with
  | switch =>
    rw [hv] at h
    dsimp only [getOutDev] at h
    split_ifs at h
    exact List.mem_of_getElem? h
  | host =>
    rw [hv] at h
    dsimp only [getNicIdxOfQp] at h
    split_ifs at h
    exact List.mem_of_getElem? h

/-- Where a node sends a packet, it fits. -/
theorem Addressed.fits_outDev (h : c.Addressed N) (hout : c.outDev N.routes g.stream v = some d)
    (hsent : ∃ u, g ∈ N.emitted u) (hx : ∀ g', x.datagram = some g' → g' = g) :
    c.Fits N v d x := fun g' hg' => by
  obtain rfl := hx g' hg'
  exact ⟨hsent, fun w hw hhost =>
    address_of_mem_rtTable h.links h.routed h.tables (mem_rtTable_of_outDev hout) hw hhost⟩

/-- The nodes have other parcels, and more has been sent. -/
theorem Addressed.of_parcels (h : c.Addressed N) (hroutes : N'.routes = N.routes)
    (hemitted : ∀ u, ∀ g ∈ N.emitted u, g ∈ N'.emitted u)
    (hparcels : ∀ v, Placed (c.Fits N' v) (N.parcels v) → Placed (c.Fits N' v) (N'.parcels v)) :
    c.Addressed N' := by
  refine ⟨hroutes ▸ h.links, hroutes ▸ h.routed, hroutes ▸ h.tables, fun v => hparcels v ?_⟩
  intro k x hx g hg
  obtain ⟨⟨u, hu⟩, haddress⟩ := h.parcels v k x hx g hg
  exact ⟨⟨u, hemitted u g hu⟩, haddress⟩

theorem Addressed.setSlot (h : c.Addressed N) {k : Slot} {l : List Parcel}
    (hl : ∀ x ∈ l, c.Fits N v k.device x) : c.Addressed (N.setSlot v k l) := by
  refine h.of_parcels rfl (fun _ _ hg => hg) fun w hw => ?_
  rw [State.setSlot]
  dsimp only
  rw [Function.update_apply]
  split_ifs with hv
  · subst hv
    exact hw.update hl
  · exact hw

theorem Addressed.takeWire (h : c.Addressed N) : c.Addressed (N.takeWire v d) := by
  have hset : c.Addressed (N.setSlot v (.wire d) (N.parcels v (.wire d)).tail) :=
    h.setSlot fun x hx => h.parcels v (.wire d) x (List.mem_of_mem_tail hx)
  exact hset.of_parcels rfl (fun _ _ hg => hg) fun _ hw => hw

theorem Addressed.event (h : c.Addressed N) {op : Switch.Op} {r : Option Datagram}
    (hevent : N.event u op r = some N')
    (hmoves : ∀ m ∈ ((N.switch u).stepMoves op).map (Move.map (Parcel.label r)),
      m.Places (c.Fits N u)) : c.Addressed N' := by
  obtain ⟨s, -, rfl⟩ := event_eq_some hevent
  refine h.of_parcels rfl (fun _ _ hg => hg) fun w hw => ?_
  dsimp only
  rw [Function.update_apply]
  split_ifs with hu
  · subst hu
    exact hw.applyAll hmoves
  · exact hw

omit [DecidableEq Node] in
theorem fits_of_none (d : ℕ) (x : Parcel) (hx : x.datagram = none) : c.Fits N u d x :=
  fun g hg => by rw [hx] at hg; cases hg

theorem Addressed.receiveFrame (h : c.Addressed N) {e : ℕ} {pfc : PauseHeader}
    (hevent : N.event u (.receivePfc e pfc) none = some N') : c.Addressed N' :=
  h.event hevent <| places_of_onlyFrames fits_of_none <| onlyFrames_stepMoves (by simp) (by simp)

/-- A switch queues a packet of a host where its table leads. -/
theorem Addressed.receiveSwitch (h : c.Addressed N) {e : ℕ} {size : UInt32}
    (hsent : ∃ u, g ∈ N.emitted u)
    (hevent : N.event u (.receive e g.header size (c.outDev N.routes g.stream u)) (some g) =
      some N') : c.Addressed N' := by
  refine h.event hevent ?_
  rcases stepMoves_receive (N.switch u) e g.header size (c.outDev N.routes g.stream u) with
    honly | ⟨i, hi, ms, ms', heq, hms, hms'⟩
  · exact places_of_onlyFrames fits_of_none honly
  · intro m hm
    rw [heq, List.map_append, List.map_cons] at hm
    rcases List.mem_append.1 hm with hm | hm
    · exact places_of_onlyFrames fits_of_none hms m hm
    · rcases List.mem_cons.1 hm with rfl | hm
      · refine h.fits_outDev hi hsent fun g' hg' => ?_
        rw [Parcel.label, if_pos rfl] at hg'
        exact (Option.some.inj hg').symm
      · exact places_of_onlyFrames fits_of_none hms' m hm

theorem Addressed.takeDown (h : c.Addressed N) (hdown : c.takeDown N u d = some N') :
    c.Addressed N' := by
  rw [Network.takeDown] at hdown
  cases hu : c.topology.nodeType u with
  | host =>
    rw [hu] at hdown
    cases hdown
    exact (h.setSlot (List.forall_mem_nil _)).of_parcels rfl (fun _ _ hg => hg) fun _ hw => hw
  | switch =>
    rw [hu] at hdown
    obtain ⟨qs, hqs⟩ := drainMoves_eq_map d ((N.switch u).devices d).queue.packetCount
      ((N.switch u).devices d).queue
    refine h.event hdown fun m hm => ?_
    rw [stepMoves, hqs, List.map_map] at hm
    obtain ⟨q, -, rfl⟩ := List.mem_map.1 hm
    trivial

theorem Addressed.emit (h : c.Addressed N) {k : Slot}
    (hout : c.outDev N.routes g.stream v = some k.device) : c.Addressed (N.emit v k g) := by
  have hmono : ∀ u, ∀ g' ∈ N.emitted u, g' ∈ (N.emit v k g).emitted u := fun u g' hg' => by
    rw [State.emit]
    dsimp only
    rw [Function.update_apply]
    split_ifs with hu
    · exact List.mem_append_left _ (hu ▸ hg')
    · exact hg'
  have hsent : ∃ u, g ∈ (N.emit v k g).emitted u :=
    ⟨v, by simp only [State.emit, Function.update_self, List.mem_append, List.mem_singleton,
      or_true]⟩
  have hmore : c.Addressed { N with emitted := (N.emit v k g).emitted } :=
    h.of_parcels rfl hmono fun _ hw => hw
  have hlast : c.Fits { N with emitted := (N.emit v k g).emitted } v k.device g.parcel :=
    hmore.fits_outDev hout hsent fun g' hg' => (Option.some.inj hg').symm
  refine (hmore.setSlot (k := k) (l := N.parcels v k ++ [g.parcel]) fun x hx => ?_).of_parcels rfl
    (fun _ _ hg' => hg') fun _ hw => hw
  rcases List.mem_append.1 hx with hx | hx
  · exact hmore.parcels v k x hx
  · rw [List.mem_singleton.1 hx]
    exact hlast

/-- **Every event keeps packets in front of the hosts they are addressed to.** -/
theorem Addressed.step (h : c.Addressed N) {op : Op Node} (hstep : c.step N op = some N') :
    c.Addressed N' := by
  cases step_happens hstep with
  | emit hop hsource hout hk =>
    rcases hk with ⟨rfl, -⟩ | ⟨rfl, -⟩
    · exact h.emit hout
    · exact h.emit hout
  | @sendHighPrio v d hv =>
    refine h.of_parcels rfl (fun _ _ hg => hg) fun w hw => ?_
    dsimp only
    rw [Function.update_apply]
    split_ifs with heq
    · subst heq
      exact hw.apply trivial
    · exact hw
  | corrupt hwire => exact h.takeWire
  | @receive v u d x rest _ hwire hchannel hreceive =>
    have htaken : c.Addressed (N.takeWire v d) := h.takeWire
    cases hu : c.topology.nodeType u with
    | host =>
      rw [receive_host hu] at hreceive
      cases hreceive
      split_ifs
      · exact htaken.of_parcels rfl (fun _ _ hg => hg) fun _ hw => hw
      · exact htaken
    | switch =>
      cases hg : x.datagram with
      | some g =>
        rw [receive_switch hu hg] at hreceive
        have hsent := (h.parcels v (.wire d) x (hwire ▸ List.mem_cons_self) g hg).1
        exact htaken.receiveSwitch hsent hreceive
      | none =>
        obtain ⟨pfc, hevent⟩ := receive_frame hu hg hreceive
        exact htaken.receiveFrame hevent
  | transmitComplete hv hevent =>
    exact h.event hevent <| places_of_onlyFrames fits_of_none <|
      onlyFrames_stepMoves (by simp) (by simp)
  | stayDown =>
    obtain ⟨hlinks, hrouted, -⟩ := takeDownLink_spec h.links h.routed _ _
    exact ⟨hlinks, hrouted, h.tables.takeDownLink _ _, h.parcels⟩
  | @takeDownLink a b d e M _ ha hb =>
    obtain ⟨hlinks, hrouted, -⟩ := takeDownLink_spec h.links h.routed a b
    have hrouted' : c.Addressed
        { N with routes := Routing.takeDownLink c.topology N.routes a b } :=
      ⟨hlinks, hrouted, h.tables.takeDownLink a b, h.parcels⟩
    exact (hrouted'.takeDown ha).takeDown hb

end Network

end HpccSim
