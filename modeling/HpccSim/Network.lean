import HpccSim.EcmpHash
import HpccSim.MySketch
import HpccSim.SwitchMoves

/-!
# The network

Hosts, switches and the links between them, with the routing tables of `third.cc`. A packet goes
from the wire of one node to the next node, where `SendToDev` picks the output device by the hash of
its addresses and ports and the class by its protocol and priority. A link that is taken down
changes the tables of all nodes.

The packets of `SwitchNode` carry a size and a port only. Here each is a parcel, a packet with the
datagram it holds, which moves as the packet does. Of the devices of hosts there are the queue of
acknowledgements (as the class `0` of the device), the wire and `m_linkUp`; when they transmit is
left open. The `MaxBytes` of the queue of acknowledgements, `2 ^ 32 - 1`, is left out.

## Main definitions

* `Datagram`, `Stream`, `Parcel`: packets of hosts.
* `Network`, `Network.State`, `Network.Op`, `Network.step`: the nodes and what can happen.
* `Network.laneAt`, `Network.ConfinedAt`: where the packets of a stream are in a node.

## Main results

* `Network.laneAt_event_of_quiet`, `Network.laneAt_event_of_push`: what an event at a switch does to
  a stream.
* `Network.Consistent.step`: the parcels move as the packets do.
-/

namespace HpccSim

/-- The packets that hosts create. -/
inductive Kind where
  | data
  | ack
  | nack
  deriving DecidableEq

namespace Kind

def l3Prot : Kind → ℕ
  | .data => 0x11
  | .ack => 0xFC
  | .nack => 0xFD

def isAck : Kind → Bool
  | .data => false
  | .ack => true
  | .nack => true

end Kind

/-- What the switches tell apart in the packets of hosts: data from acknowledgements, the addresses,
the ports and the priority. -/
structure Stream where
  isAck : Bool
  flow : FiveTuple
  deriving DecidableEq

/-- A packet as a host creates it. -/
structure Datagram where
  kind : Kind
  flow : FiveTuple
  size : UInt32
  /-- `udp.seq` or `ack.seq`. -/
  seq : UInt32
  payload : UInt32
  deriving DecidableEq

/-- The stream of a packet. -/
def Datagram.stream (g : Datagram) : Stream where
  isAck := g.kind.isAck
  flow := g.flow

/-- The header as `SendToDev` reads it; `udp.pg` and `ack.pg` are at the same place. -/
def Datagram.header (g : Datagram) : Header where
  l3Prot := g.kind.l3Prot
  pg := g.flow.pg.toNat

/-- The header of a packet of the stream. -/
def Stream.header (f : Stream) : Header where
  l3Prot := if f.isAck then Kind.ack.l3Prot else Kind.data.l3Prot
  pg := f.flow.pg.toNat

/-- A packet in the network, and what a host has put in it; PFC frames hold nothing. -/
structure Parcel where
  packet : Packet
  datagram : Option Datagram
  deriving DecidableEq

/-- A packet that is queued while the packet of `g` is handled: a frame, or that packet. -/
def Parcel.label (g : Option Datagram) (p : Packet) : Parcel where
  packet := p
  datagram := if p.pfc = none then g else none

/-- The packet of a host. -/
def Datagram.parcel (g : Datagram) : Parcel where
  packet := ⟨g.size, 0, none⟩
  datagram := some g

/-- The nodes, the links of the topology file, and the settings of the nodes. -/
structure Network (Node : Type) where
  topology : Routing.Topology Node
  links : Node → List (Node × Routing.Interface)
  /-- The index of the device at the other end of the channel of a device. -/
  farDevice : Node → ℕ → ℕ
  /-- `m_ecmpSeed` -/
  ecmpSeed : Node → UInt32
  /-- `GetHash` of the queue pair of a host that sends the stream. -/
  qpHash : Node → Stream → UInt32
  config : Node → Switch.Config

/-- The tables, the switches with the parcels in them, the devices of hosts, and what hosts have
sent and got. The wires and queues of hosts are kept as those of switches. -/
structure Network.State (Node : Type) where
  routes : Routing.Net Node
  switch : Node → Switch
  /-- `m_linkUp` of the devices of hosts. -/
  linkUp : Node → ℕ → Bool
  parcels : Node → Switch.Slot → List Parcel
  emitted : Node → List Datagram
  delivered : Node → List Datagram

namespace Network

open Routing Switch

variable {Node : Type} [DecidableEq Node] (c : Network Node) (N : State Node)

/-- The value that selects among the next hops: `EcmpHash` of a switch, `GetHash` of a host. -/
def hash (f : Stream) (v : Node) : UInt32 :=
  match c.topology.nodeType v with
  | .switch =>
    ecmpHash (ecmpKey f.flow.sip f.flow.dip (portsWord f.flow.sport f.flow.dport)) [] (c.ecmpSeed v)
  | .host => c.qpHash v f

/-- The device by which a node sends packets of a stream: `GetOutDev`, or `GetNicIdxOfQp` and
`GetNicIdxOfRxQp`, which agree. -/
def outDev (routes : Net Node) (f : Stream) (v : Node) : Option ℕ :=
  match c.topology.nodeType v with
  | .switch => getOutDev (routes.rtTable v) f.flow.dip (c.hash f v)
  | .host => getNicIdxOfQp (routes.rtTable v) f.flow.dip (c.hash f v)

namespace State

/-- Replace the parcels at a place of a node. -/
def setSlot (v : Node) (k : Slot) (l : List Parcel) : State Node :=
  { N with parcels := Function.update N.parcels v (Function.update (N.parcels v) k l) }

/-- The oldest packet leaves the wire behind a device. -/
def takeWire (v : Node) (d : ℕ) : State Node :=
  { N.setSlot v (.wire d) (N.parcels v (.wire d)).tail with
    switch := Function.update N.switch v
      { N.switch v with
        wire := Function.update (N.switch v).wire d ((N.switch v).wire d).tail } }

/-- An event at a switch, while the packet of `g` is handled. -/
def event (u : Node) (op : Switch.Op) (g : Option Datagram) : Option (State Node) :=
  ((N.switch u).step op).map fun s =>
    { N with
      switch := Function.update N.switch u s
      parcels := Function.update N.parcels u (Move.applyAll (N.parcels u)
        (((N.switch u).stepMoves op).map (Move.map (Parcel.label g)))) }

/-- A packet of a host comes last at a place of the host. -/
def emit (v : Node) (k : Slot) (g : Datagram) : State Node :=
  { N.setSlot v k (N.parcels v k ++ [g.parcel]) with
    emitted := Function.update N.emitted v (N.emitted v ++ [g]) }

/-- A host gets a packet. -/
def deliver (u : Node) (g : Option Datagram) : State Node :=
  { N with delivered := Function.update N.delivered u (N.delivered u ++ g.toList) }

end State

/-- What can happen. -/
inductive Op (Node : Type) where
  /-- `RdmaEnqueueHighPrioQ`: a host puts an acknowledgement in the queue of a device, whose
  `MaxBytes` of `2 ^ 32 - 1` is taken not to be reached. -/
  | enqueueHighPrio (v : Node) (g : Datagram)
  /-- `DequeueAndTransmit` of a device of a host takes the oldest of them. -/
  | sendHighPrio (v : Node) (d : ℕ)
  /-- `DequeueAndTransmit` of a device of a host takes a packet of a queue pair. -/
  | sendData (v : Node) (g : Datagram)
  /-- `Receive` of the oldest packet on the wire behind a device, which the error model may find
  corrupt. -/
  | receive (v : Node) (d : ℕ) (corrupt : Bool)
  /-- `TransmitComplete` of a device of a switch. -/
  | transmitComplete (v : Node) (d : ℕ)
  /-- `TakeDownLink`. -/
  | takeDownLink (a b : Node)

/-- `QbbNetDevice::Receive` at the device `e` of the node `u`. -/
def receive (u : Node) (e : ℕ) (x : Parcel) : Option (State Node) :=
  match c.topology.nodeType u, x.datagram, x.packet.pfc with
  | .host, g, _ => some (if N.linkUp u e then N.deliver u g else N)
  | .switch, some g, _ =>
    N.event u (.receive e g.header x.packet.size (c.outDev N.routes g.stream u)) (some g)
  | .switch, none, some pfc => N.event u (.receivePfc e pfc) none
  | .switch, none, none => none

/-- `QbbNetDevice::TakeDown`. -/
def takeDown (v : Node) (d : ℕ) : Option (State Node) :=
  match c.topology.nodeType v with
  | .switch => N.event v (.takeDown d) none
  | .host => some
    { N.setSlot v (.queue d 0) [] with
      linkUp := Function.update N.linkUp v (Function.update (N.linkUp v) d false) }

/-- A host of the topology whose address is the source of the packet. -/
def IsSource (v : Node) (g : Datagram) : Prop :=
  v ∈ c.topology.n ∧ c.topology.nodeType v = .host ∧ c.topology.address v = g.flow.sip

instance (v : Node) (g : Datagram) : Decidable (c.IsSource v g) := by
  unfold IsSource
  infer_instance

/-- One event. -/
def step : Op Node → Option (State Node)
  | .enqueueHighPrio v g =>
    if c.IsSource v g ∧ g.kind.isAck then
      (c.outDev N.routes g.stream v).map fun d => N.emit v (.queue d 0) g
    else none
  | .sendHighPrio v d =>
    if c.topology.nodeType v = .host ∧ N.linkUp v d then
      some { N with parcels :=
        Function.update N.parcels v ((Move.send d 0).apply (N.parcels v)) }
    else none
  | .sendData v g =>
    if c.IsSource v g ∧ g.kind = .data then
      (c.outDev N.routes g.stream v).bind fun d =>
        if N.linkUp v d then some (N.emit v (.wire d) g) else none
    else none
  | .receive v d corrupt =>
    match N.parcels v (.wire d) with
    | [] => none
    | x :: _ => (c.topology.channel v d).bind fun u =>
      if corrupt then some (N.takeWire v d)
      else c.receive (N.takeWire v d) u (c.farDevice v d) x
  | .transmitComplete v d =>
    if c.topology.nodeType v = .switch then N.event v (.transmitComplete d) none else none
  | .takeDownLink a b =>
    let nbr2if := N.routes.nbr2if
    let N := { N with routes := takeDownLink c.topology N.routes a b }
    if (interface (nbr2if a) b).up = false then some N
    else (c.takeDown N a (interface (nbr2if a) b).idx).bind fun N =>
      c.takeDown N b (interface (nbr2if b) a).idx

/-- The routes of the topology file have been installed, all switches have started, and nothing has
been sent. -/
def init : State Node where
  routes := start c.topology c.links
  switch v := Switch.init (c.config v)
  linkUp _ _ := true
  parcels _ _ := []
  emitted _ := []
  delivered _ := []

/-! ### Where the packets of a stream are -/

section Places

variable (f : Stream) (out : Node → ℕ)

/-- The parcel holds a packet of the stream. -/
def holds (x : Parcel) : Bool := x.datagram.any fun g => g.stream = f

/-- The class in which a node puts the packets of the stream. -/
def classOf (v : Node) : ℕ :=
  match c.topology.nodeType v with
  | .switch => (Switch.init (c.config v)).qIndexOf f.header
  | .host => 0

/-- The packets of the stream that leave a node by the device `out v`, oldest first. -/
def laneAt (v : Node) : List Parcel := lane (holds f) (out v) (c.classOf f v) (N.parcels v)

/-- Packets of the stream are in no other place of a node. -/
def ConfinedAt (v : Node) : Prop := Confined (holds f) (out v) (c.classOf f v) (N.parcels v)

variable {c N f out} {N' : State Node} {u v : Node} {d : ℕ} {x : Parcel} {g : Datagram}

theorem holds_iff : holds f x = true ↔ ∃ g, x.datagram = some g ∧ g.stream = f := by
  cases hx : x.datagram <;> simp [holds, hx]

theorem holds_parcel : holds f g.parcel = decide (g.stream = f) := rfl

omit [DecidableEq Node] in
/-- ACKs and NACKs are put in the same class. -/
theorem qIndexOf_eq {s : Switch} (hv : c.topology.nodeType v = .switch)
    (hprio : s.ackHighPrio = (c.config v).ackHighPrio) (hg : g.stream = f) :
    s.qIndexOf g.header = c.classOf f v := by
  subst hg
  have hinit : (Switch.init (c.config v)).ackHighPrio = s.ackHighPrio := hprio.symm
  rw [classOf, hv]
  dsimp only
  rw [qIndexOf, qIndexOf, hinit]
  cases hkind : g.kind <;>
    simp [Datagram.header, Stream.header, Datagram.stream, Kind.l3Prot, Kind.isAck, hkind]

omit [DecidableEq Node] in
theorem laneAt_congr (hparcels : N'.parcels v = N.parcels v) :
    c.laneAt N' f out v = c.laneAt N f out v := by
  rw [laneAt, laneAt, hparcels]

omit [DecidableEq Node] in
theorem confinedAt_congr (hparcels : N'.parcels v = N.parcels v)
    (hconf : c.ConfinedAt N f out v) : c.ConfinedAt N' f out v := by
  rwa [ConfinedAt, hparcels]

/-! ### One packet leaves a wire -/

theorem parcels_setSlot_of_ne {k : Slot} {l : List Parcel} (hv : u ≠ v) :
    (N.setSlot v k l).parcels u = N.parcels u :=
  Function.update_of_ne hv _ _

theorem parcels_setSlot_self {k : Slot} {l : List Parcel} :
    (N.setSlot v k l).parcels v = Function.update (N.parcels v) k l :=
  Function.update_self v _ _

theorem parcels_takeWire_of_ne (hv : u ≠ v) : (N.takeWire v d).parcels u = N.parcels u :=
  parcels_setSlot_of_ne hv

theorem parcels_takeWire_self : (N.takeWire v d).parcels v =
    Function.update (N.parcels v) (.wire d) (N.parcels v (.wire d)).tail :=
  parcels_setSlot_self

theorem switch_takeWire (w : Node) :
    ((N.takeWire v d).switch w).ackHighPrio = (N.switch w).ackHighPrio ∧
      ((N.takeWire v d).switch w).devices = (N.switch w).devices ∧
      ((N.takeWire v d).switch w).trace = (N.switch w).trace := by
  rw [State.takeWire]
  dsimp only
  rw [Function.update_apply]
  split_ifs with hw
  · rw [hw]
    exact ⟨rfl, rfl, rfl⟩
  · exact ⟨rfl, rfl, rfl⟩

theorem confinedAt_takeWire (hconf : ∀ u, c.ConfinedAt N f out u) (u : Node) :
    c.ConfinedAt (N.takeWire v d) f out u := by
  by_cases hu : u = v
  · subst hu
    rw [ConfinedAt, parcels_takeWire_self]
    exact (hconf u).update fun hwire hqueue a ha =>
      hconf u _ hwire hqueue a (List.mem_of_mem_tail ha)
  · exact confinedAt_congr (parcels_takeWire_of_ne hu) (hconf u)

/-- A packet of the stream leaves by the output device, and is the first of its lane. -/
theorem laneAt_takeWire_of_holds (hconf : c.ConfinedAt N f out v) {rest : List Parcel}
    (hwire : N.parcels v (.wire d) = x :: rest) (hx : holds f x = true) :
    d = out v ∧ c.laneAt N f out v = x :: c.laneAt (N.takeWire v d) f out v := by
  have hd : d = out v := by
    by_contra hne
    have hno := hconf (.wire d) (fun heq => hne (Slot.wire.inj heq)) (Slot.wire_ne_queue _ _ _) x
      (hwire ▸ List.mem_cons_self)
    exact absurd hx (Bool.eq_false_iff.1 hno)
  refine ⟨hd, ?_⟩
  rw [laneAt, laneAt, lane, lane, parcels_takeWire_self, ← hd, hwire, Function.update_self,
    Function.update_of_ne (Slot.wire_ne_queue d d _).symm, List.cons_append,
    List.filter_cons_of_pos hx, List.tail_cons]

/-- A packet of another stream leaves. -/
theorem laneAt_takeWire (u : Node) {rest : List Parcel}
    (hwire : N.parcels v (.wire d) = x :: rest) (hx : holds f x = false) :
    c.laneAt (N.takeWire v d) f out u = c.laneAt N f out u := by
  by_cases hu : u = v
  · subst hu
    rw [laneAt, laneAt, lane, lane, parcels_takeWire_self,
      Function.update_of_ne (Slot.wire_ne_queue d _ _).symm, Function.update_apply]
    split_ifs with heq
    · rw [heq, hwire, List.tail_cons, List.cons_append,
        List.filter_cons_of_neg (Bool.eq_false_iff.1 hx)]
    · rfl
  · exact laneAt_congr (parcels_takeWire_of_ne hu)

theorem laneAt_takeWire_sublist (hconf : ∀ w, c.ConfinedAt N f out w) {rest : List Parcel}
    (hwire : N.parcels v (.wire d) = x :: rest) (w : Node) :
    (c.laneAt (N.takeWire v d) f out w).Sublist (c.laneAt N f out w) := by
  cases hx : holds f x with
  | false =>
    rw [laneAt_takeWire w hwire hx]
  | true =>
    by_cases hw : w = v
    · rw [hw, (laneAt_takeWire_of_holds (hconf v) hwire hx).2]
      exact List.sublist_cons_self _ _
    · rw [laneAt_congr (parcels_takeWire_of_ne hw)]

/-! ### An event at a switch -/

theorem event_eq_some {op : Switch.Op} {r : Option Datagram} (hevent : N.event u op r = some N') :
    ∃ s, (N.switch u).step op = some s ∧ N' =
      { N with
        switch := Function.update N.switch u s
        parcels := Function.update N.parcels u (Move.applyAll (N.parcels u)
          (((N.switch u).stepMoves op).map (Move.map (Parcel.label r)))) } := by
  obtain ⟨s, hs, rfl⟩ := Option.map_eq_some_iff.1 hevent
  exact ⟨s, hs, rfl⟩

/-- Frames hold nothing, and the packet that is handled is of another stream. -/
theorem quiet_map_label {ms : List (Move Packet)} (hms : ∀ m ∈ ms, m.OnlyFrames)
    (r : Option Datagram) : ∀ m ∈ ms.map (Move.map (Parcel.label r)), m.Quiet (holds f) := by
  intro m hm
  obtain ⟨m', hm', rfl⟩ := List.mem_map.1 hm
  have honly := hms m' hm'
  cases m' with
  | push d q p =>
    have hp : p.pfc ≠ none := honly
    simp [Move.map, Move.Quiet, holds, Parcel.label, hp]
  | send d q => trivial
  | discard d q => exact honly.elim

/-- Moves that do not meddle with the stream. -/
theorem laneAt_event_of_quiet (hconf : ∀ w, c.ConfinedAt N f out w) {op : Switch.Op}
    {r : Option Datagram} (hevent : N.event u op r = some N')
    (hquiet : ∀ m ∈ ((N.switch u).stepMoves op).map (Move.map (Parcel.label r)),
      m.Quiet (holds f)) (w : Node) :
    c.ConfinedAt N' f out w ∧ c.laneAt N' f out w = c.laneAt N f out w := by
  obtain ⟨s, -, rfl⟩ := event_eq_some hevent
  by_cases hw : w = u
  · subst hw
    rw [ConfinedAt, laneAt, laneAt]
    dsimp only
    rw [Function.update_self]
    exact applyAll_quiet (hconf w) hquiet
  · have hsame : (Function.update N.parcels u (Move.applyAll (N.parcels u)
        (((N.switch u).stepMoves op).map (Move.map (Parcel.label r))))) w = N.parcels w :=
      Function.update_of_ne hw _ _
    exact ⟨confinedAt_congr hsame (hconf w), laneAt_congr hsame⟩

omit [DecidableEq Node] in
/-- The packet of another stream is handled. -/
theorem quiet_receive (hg : g.stream ≠ f) (e : ℕ) (ch : Header) (size : UInt32)
    (idx : Option ℕ) :
    ∀ m ∈ ((N.switch u).stepMoves (.receive e ch size idx)).map
      (Move.map (Parcel.label (some g))), m.Quiet (holds f) := by
  rcases stepMoves_receive (N.switch u) e ch size idx with
    honly | ⟨i, -, ms, ms', heq, hms, hms'⟩
  · exact quiet_map_label honly _
  · intro m hm
    rw [heq, List.map_append, List.map_cons] at hm
    rcases List.mem_append.1 hm with hm | hm
    · exact quiet_map_label hms _ m hm
    · rcases List.mem_cons.1 hm with rfl | hm
      · simp [Move.map, Move.Quiet, holds, Parcel.label, hg]
      · exact quiet_map_label hms' _ m hm

/-- **The packet of the stream is queued** behind those of its lane. -/
theorem laneAt_event_of_push (hconf : ∀ w, c.ConfinedAt N f out w) {op : Switch.Op}
    (hevent : N.event u op (some g) = some N') (hg : g.stream = f) {p : Packet}
    {ms ms' : List (Move Packet)} (hmoves : (N.switch u).stepMoves op =
      ms ++ .push (out u) (c.classOf f u) p :: ms') (hp : p.pfc = none)
    (hms : ∀ m ∈ ms, m.OnlyFrames) (hms' : ∀ m ∈ ms', m.OnlyFrames) :
    (∀ w, c.ConfinedAt N' f out w) ∧ (∀ w, w ≠ u → c.laneAt N' f out w = c.laneAt N f out w) ∧
      c.laneAt N' f out u = c.laneAt N f out u ++ [⟨p, some g⟩] := by
  obtain ⟨s, -, rfl⟩ := event_eq_some hevent
  have hlabel : Parcel.label (some g) p = ⟨p, some g⟩ := by rw [Parcel.label, if_pos hp]
  have hholds : holds f ⟨p, some g⟩ = true := holds_iff.2 ⟨g, rfl, hg⟩
  obtain ⟨hconf₁, hlane₁⟩ := applyAll_quiet (hconf u) (quiet_map_label hms (some g))
  have hconf₂ := hconf₁.apply (m := .push (out u) (c.classOf f u) (⟨p, some g⟩ : Parcel))
    fun d' q' b heq _ => by
      cases heq
      exact ⟨rfl, rfl⟩
  obtain ⟨hconf₃, hlane₃⟩ := applyAll_quiet hconf₂ (quiet_map_label hms' (some g))
  have hall : Move.applyAll (N.parcels u)
      (((N.switch u).stepMoves op).map (Move.map (Parcel.label (some g)))) =
      Move.applyAll ((Move.push (out u) (c.classOf f u) (⟨p, some g⟩ : Parcel)).apply
        (Move.applyAll (N.parcels u) (ms.map (Move.map (Parcel.label (some g))))))
        (ms'.map (Move.map (Parcel.label (some g)))) := by
    rw [hmoves, List.map_append, List.map_cons, Move.applyAll_append, Move.applyAll_cons, Move.map,
      hlabel]
  refine ⟨fun w => ?_, fun w hw => laneAt_congr (Function.update_of_ne hw _ _), ?_⟩
  · by_cases hw : w = u
    · subst hw
      rw [ConfinedAt]
      dsimp only
      rw [Function.update_self, hall]
      exact hconf₃
    · exact confinedAt_congr (Function.update_of_ne hw _ _) (hconf w)
  · rw [laneAt, laneAt]
    dsimp only
    rw [Function.update_self, hall, hlane₃, lane_push hholds, hlane₁]

/-- Packets are thrown away. -/
theorem laneAt_takeDown (hconf : ∀ w, c.ConfinedAt N f out w)
    (hdown : c.takeDown N u d = some N') (w : Node) :
    c.ConfinedAt N' f out w ∧ (c.laneAt N' f out w).Sublist (c.laneAt N f out w) := by
  rw [takeDown] at hdown
  cases hu : c.topology.nodeType u with
  | host =>
    rw [hu] at hdown
    cases hdown
    by_cases hw : w = u
    · subst hw
      rw [ConfinedAt, laneAt, laneAt]
      dsimp only
      rw [parcels_setSlot_self]
      exact ⟨(hconf w).update fun _ _ a ha => absurd ha List.not_mem_nil, lane_clear d 0⟩
    · refine ⟨confinedAt_congr (parcels_setSlot_of_ne hw) (hconf w), ?_⟩
      rw [laneAt, laneAt]
      dsimp only
      rw [parcels_setSlot_of_ne hw]
  | switch =>
    rw [hu] at hdown
    obtain ⟨s, -, rfl⟩ := event_eq_some hdown
    by_cases hw : w = u
    · subst hw
      obtain ⟨qs, hqs⟩ := drainMoves_eq_map d ((N.switch w).devices d).queue.packetCount
        ((N.switch w).devices d).queue
      have hmap : (qs.map (Move.discard d)).map (Move.map (Parcel.label none)) =
          qs.map (Move.discard d) := by
        rw [List.map_map]
        rfl
      rw [ConfinedAt, laneAt, laneAt]
      dsimp only
      rw [Function.update_self, stepMoves, hqs, hmap]
      exact applyAll_discard (hconf w) d qs
    · have hsame : (Function.update N.parcels u (Move.applyAll (N.parcels u)
          (((N.switch u).stepMoves (.takeDown d)).map (Move.map (Parcel.label none))))) w =
            N.parcels w := Function.update_of_ne hw _ _
      refine ⟨confinedAt_congr hsame (hconf w), ?_⟩
      rw [laneAt_congr hsame]

end Places

/-! ### Events -/

/-- What an event does. -/
inductive Happens (c : Network Node) (N : State Node) : Op Node → State Node → Prop
  | emit {op : Op Node} {v : Node} {d : ℕ} {k : Slot} {g : Datagram}
      (hop : op = .enqueueHighPrio v g ∨ op = .sendData v g) (hsource : c.IsSource v g)
      (hout : c.outDev N.routes g.stream v = some d)
      (hk : k = .queue d 0 ∧ g.kind.isAck = true ∨ k = .wire d ∧ g.kind.isAck = false) :
      Happens c N op (N.emit v k g)
  | sendHighPrio {v : Node} {d : ℕ} (hv : c.topology.nodeType v = .host) :
      Happens c N (.sendHighPrio v d)
        { N with parcels := Function.update N.parcels v ((Move.send d 0).apply (N.parcels v)) }
  | corrupt {v : Node} {d : ℕ} {x : Parcel} {rest : List Parcel}
      (hwire : N.parcels v (.wire d) = x :: rest) :
      Happens c N (.receive v d true) (N.takeWire v d)
  | receive {v u : Node} {d : ℕ} {x : Parcel} {rest : List Parcel} {N' : State Node}
      (hwire : N.parcels v (.wire d) = x :: rest) (hchannel : c.topology.channel v d = some u)
      (hreceive : c.receive (N.takeWire v d) u (c.farDevice v d) x = some N') :
      Happens c N (.receive v d false) N'
  | transmitComplete {v : Node} {d : ℕ} {N' : State Node}
      (hv : c.topology.nodeType v = .switch)
      (hevent : N.event v (.transmitComplete d) none = some N') :
      Happens c N (.transmitComplete v d) N'
  | stayDown {a b : Node} : Happens c N (.takeDownLink a b)
      { N with routes := takeDownLink c.topology N.routes a b }
  | takeDownLink {a b : Node} {d e : ℕ} {M N' : State Node}
      (ha : c.takeDown { N with routes := takeDownLink c.topology N.routes a b } a d = some M)
      (hb : c.takeDown M b e = some N') : Happens c N (.takeDownLink a b) N'

section Events

variable {c N} {N' : State Node} {u v : Node} {d e : ℕ} {x : Parcel} {g : Datagram}

theorem step_happens {op : Op Node} (hstep : c.step N op = some N') : c.Happens N op N' := by
  cases op with
  | enqueueHighPrio v g =>
    rw [step] at hstep
    split_ifs at hstep with hg
    obtain ⟨d, hd, rfl⟩ := Option.map_eq_some_iff.1 hstep
    exact .emit (.inl rfl) hg.1 hd (.inl ⟨rfl, hg.2⟩)
  | sendHighPrio v d =>
    rw [step] at hstep
    split_ifs at hstep with hv
    cases hstep
    exact .sendHighPrio hv.1
  | sendData v g =>
    rw [step] at hstep
    split_ifs at hstep with hg
    obtain ⟨d, hd, hup⟩ := Option.bind_eq_some_iff.1 hstep
    split_ifs at hup
    cases hup
    exact .emit (.inr rfl) hg.1 hd (.inr ⟨rfl, by rw [hg.2]; rfl⟩)
  | receive v d corrupt =>
    rw [step] at hstep
    cases hwire : N.parcels v (.wire d) with
    | nil =>
      rw [hwire] at hstep
      cases hstep
    | cons x rest =>
      rw [hwire] at hstep
      obtain ⟨u, hchannel, hreceive⟩ := Option.bind_eq_some_iff.1 hstep
      cases corrupt with
      | true =>
        cases hreceive
        exact .corrupt hwire
      | false => exact .receive hwire hchannel hreceive
  | transmitComplete v d =>
    rw [step] at hstep
    split_ifs at hstep with hv
    exact .transmitComplete hv hstep
  | takeDownLink a b =>
    rw [step] at hstep
    split_ifs at hstep
    · cases hstep
      exact .stayDown
    · obtain ⟨M, ha, hb⟩ := Option.bind_eq_some_iff.1 hstep
      exact .takeDownLink ha hb

theorem receive_host (hu : c.topology.nodeType u = .host) :
    c.receive N u e x = some (if N.linkUp u e then N.deliver u x.datagram else N) := by
  rw [receive, hu]

theorem receive_switch (hu : c.topology.nodeType u = .switch) (hg : x.datagram = some g) :
    c.receive N u e x =
      N.event u (.receive e g.header x.packet.size (c.outDev N.routes g.stream u)) (some g) := by
  rw [receive, hu, hg]

/-- A switch gets a PFC frame. -/
theorem receive_frame (hu : c.topology.nodeType u = .switch) (hg : x.datagram = none)
    (hreceive : c.receive N u e x = some N') :
    ∃ pfc, N.event u (.receivePfc e pfc) none = some N' := by
  rw [receive, hu, hg] at hreceive
  cases hp : x.packet.pfc with
  | none =>
    rw [hp] at hreceive
    cases hreceive
  | some pfc =>
    rw [hp] at hreceive
    exact ⟨pfc, hreceive⟩

theorem event_frame {op : Switch.Op} {r : Option Datagram} (hevent : N.event u op r = some N') :
    N'.routes = N.routes ∧ N'.linkUp = N.linkUp ∧ N'.delivered = N.delivered ∧
      N'.emitted = N.emitted := by
  obtain ⟨s, -, rfl⟩ := event_eq_some hevent
  exact ⟨rfl, rfl, rfl, rfl⟩

theorem switch_event {op : Switch.Op} {r : Option Datagram} (hevent : N.event u op r = some N')
    (w : Node) : N'.switch w = N.switch w ∨
      w = u ∧ (N.switch w).step op = some (N'.switch w) := by
  obtain ⟨s, hs, rfl⟩ := event_eq_some hevent
  dsimp only
  rw [Function.update_apply]
  split_ifs with hw
  · exact .inr ⟨hw, hw ▸ hs⟩
  · exact .inl rfl

theorem trace_event {op : Switch.Op} {r : Option Datagram} (hevent : N.event u op r = some N')
    (w : Node) : (N.switch w).trace <:+ (N'.switch w).trace := by
  rcases switch_event hevent w with heq | ⟨-, hs⟩
  · rw [heq]
  · exact (Continues.step hs).suffix

theorem trace_takeDown (hdown : c.takeDown N u d = some N') (w : Node) :
    (N.switch w).trace <:+ (N'.switch w).trace := by
  rw [takeDown] at hdown
  cases hu : c.topology.nodeType u with
  | host =>
    rw [hu] at hdown
    cases hdown
    exact List.suffix_refl _
  | switch =>
    rw [hu] at hdown
    exact trace_event hdown w

/-- Logs are only added to. -/
theorem trace_step {op : Op Node} (hstep : c.step N op = some N') (w : Node) :
    (N.switch w).trace <:+ (N'.switch w).trace := by
  cases step_happens hstep with
  | emit hop hsource hout hk => exact List.suffix_refl _
  | sendHighPrio hv => exact List.suffix_refl _
  | corrupt hwire =>
    rw [(switch_takeWire w).2.2]
  | @receive v u d x rest _ hwire hchannel hreceive =>
    rw [← (switch_takeWire (N := N) (v := v) (d := d) w).2.2]
    cases hu : c.topology.nodeType u with
    | host =>
      rw [receive_host hu] at hreceive
      cases hreceive
      split_ifs
      · exact List.suffix_refl _
      · exact List.suffix_refl _
    | switch =>
      cases hg : x.datagram with
      | some g =>
        rw [receive_switch hu hg] at hreceive
        exact trace_event hreceive w
      | none =>
        obtain ⟨pfc, hevent⟩ := receive_frame hu hg hreceive
        exact trace_event hevent w
  | transmitComplete hv hevent => exact trace_event hevent w
  | stayDown => exact List.suffix_refl _
  | takeDownLink ha hb => exact (trace_takeDown ha w).trans (trace_takeDown hb w)

/-- Devices are up as long as no link is taken down. -/
def LinksUp (N : State Node) : Prop :=
  ∀ v d, ((N.switch v).devices d).linkUp = true ∧ N.linkUp v d = true

theorem LinksUp.event (h : LinksUp N) {op : Switch.Op} {r : Option Datagram}
    (hevent : N.event u op r = some N') (hop : ∀ d, op ≠ .takeDown d) : LinksUp N' := by
  intro w d
  rw [(event_frame hevent).2.1]
  refine ⟨?_, (h w d).2⟩
  rcases switch_event hevent w with heq | ⟨-, hs⟩
  · rw [heq, (h w d).1]
  · rw [(SameLinks.step hs hop).linkUp, (h w d).1]

theorem LinksUp.takeWire (h : LinksUp N) : LinksUp (N.takeWire v d) := fun w e => by
  rw [(switch_takeWire w).2.1]
  exact h w e

theorem LinksUp.step (h : LinksUp N) {op : Op Node} (hstep : c.step N op = some N')
    (hop : ∀ a b, op ≠ .takeDownLink a b) : LinksUp N' := by
  cases step_happens hstep with
  | emit hop hsource hout hk => exact h
  | sendHighPrio hv => exact h
  | corrupt hwire => exact h.takeWire
  | @receive v u d x rest _ hwire hchannel hreceive =>
    have htake : LinksUp (N.takeWire v d) := h.takeWire
    cases hu : c.topology.nodeType u with
    | host =>
      rw [receive_host hu] at hreceive
      cases hreceive
      split_ifs
      · exact htake
      · exact htake
    | switch =>
      cases hg : x.datagram with
      | some g =>
        rw [receive_switch hu hg] at hreceive
        exact htake.event hreceive fun _ heq => by cases heq
      | none =>
        obtain ⟨pfc, hevent⟩ := receive_frame hu hg hreceive
        exact htake.event hevent fun _ heq => by cases heq
  | transmitComplete hv hevent => exact h.event hevent fun _ heq => by cases heq
  | @stayDown a b => exact absurd rfl (hop a b)
  | @takeDownLink a b d e M _ ha hb => exact absurd rfl (hop a b)

/-! ### Parcels and packets -/

/-- The packets of the parcels are those of the switches. -/
def Consistent (c : Network Node) (N : State Node) : Prop :=
  ∀ v, c.topology.nodeType v = .switch →
    (N.switch v).slots = fun k => (N.parcels v k).map Parcel.packet

theorem Consistent.takeWire (h : c.Consistent N) : c.Consistent (N.takeWire v d) := by
  intro w hw
  by_cases hwv : w = v
  · subst hwv
    rw [parcels_takeWire_self, State.takeWire]
    dsimp only
    rw [Function.update_self]
    funext k
    have hk := congrFun (h w hw) k
    have hwire := congrFun (h w hw) (.wire d)
    rw [Function.update_apply]
    cases k with
    | queue d' q => exact hk
    | wire d' =>
      simp only [slots, Slot.wire.injEq, Function.update_apply] at hk hwire ⊢
      split_ifs with hd
      · rw [hwire, List.map_tail]
      · exact hk
  · rw [parcels_takeWire_of_ne hwv, ← h w hw, State.takeWire]
    dsimp only
    rw [Function.update_of_ne hwv]

/-- **The parcels move as the packets do.** -/
theorem Consistent.event (h : c.Consistent N) {op : Switch.Op} {r : Option Datagram}
    (hevent : N.event u op r = some N') (hlost : NoControlLost (N'.switch u).trace) :
    c.Consistent N' := by
  obtain ⟨s, hs, rfl⟩ := event_eq_some hevent
  dsimp only at hlost
  rw [Function.update_self] at hlost
  intro w hw
  dsimp only
  by_cases hwu : w = u
  · subst hwu
    have hlabel : ((((N.switch w).stepMoves op).map (Move.map (Parcel.label r))).map
        (Move.map Parcel.packet)) = (N.switch w).stepMoves op := by
      rw [List.map_map]
      refine List.map_id'' (fun m => ?_) _
      cases m <;> rfl
    rw [Function.update_self, Function.update_self, slots_step hs hlost, h w hw, ← hlabel,
      Move.applyAll_map, hlabel]
  · rw [Function.update_of_ne hwu, Function.update_of_ne hwu]
    exact h w hw

omit [DecidableEq Node] in
/-- What is done to the parcels of a host. -/
theorem Consistent.host (h : c.Consistent N) (hv : c.topology.nodeType v = .host)
    (hswitch : N'.switch = N.switch) (hparcels : ∀ w, w ≠ v → N'.parcels w = N.parcels w) :
    c.Consistent N' := by
  intro w hw
  have hne : w ≠ v := fun heq => by rw [heq, hv] at hw; cases hw
  rw [hswitch, hparcels w hne]
  exact h w hw

theorem Consistent.takeDown (h : c.Consistent N) (hdown : c.takeDown N u d = some N')
    (hlost : NoControlLost (N'.switch u).trace) : c.Consistent N' := by
  rw [Network.takeDown] at hdown
  cases hu : c.topology.nodeType u with
  | host =>
    rw [hu] at hdown
    cases hdown
    exact h.host hu rfl fun w hw => parcels_setSlot_of_ne hw
  | switch =>
    rw [hu] at hdown
    exact h.event hdown hlost

theorem Consistent.step (h : c.Consistent N) {op : Op Node} (hstep : c.step N op = some N')
    (hlost : ∀ v, NoControlLost (N'.switch v).trace) : c.Consistent N' := by
  cases step_happens hstep with
  | emit hop hsource hout hk =>
    exact h.host hsource.2.1 rfl fun w hw => parcels_setSlot_of_ne hw
  | sendHighPrio hv => exact h.host hv rfl fun w hw => Function.update_of_ne hw _ _
  | corrupt hwire => exact h.takeWire
  | @receive v u d x rest _ hwire hchannel hreceive =>
    have htake : c.Consistent (N.takeWire v d) := h.takeWire
    cases hu : c.topology.nodeType u with
    | host =>
      rw [receive_host hu] at hreceive
      cases hreceive
      split_ifs
      · exact htake
      · exact htake
    | switch =>
      cases hg : x.datagram with
      | some g =>
        rw [receive_switch hu hg] at hreceive
        exact htake.event hreceive (hlost u)
      | none =>
        obtain ⟨pfc, hevent⟩ := receive_frame hu hg hreceive
        exact htake.event hevent (hlost u)
  | transmitComplete hv hevent => exact h.event hevent (hlost _)
  | stayDown => exact h
  | @takeDownLink a b d e M _ ha hb =>
    have hfirst : c.Consistent
        { N with routes := Routing.takeDownLink c.topology N.routes a b } := h
    exact (hfirst.takeDown ha ((hlost _).suffix (trace_takeDown hb _))).takeDown hb (hlost _)

end Events

end Network

end HpccSim
