import HpccSim.LosslessPfc
import HpccSim.NetworkConnection

/-!
# A lossless network

The switches of a network are switches as such: what a switch keeps, whatever happens to it, every
switch of a network keeps. So PFC makes the network lossless if the headroom suffices at every
switch, and then go-back-N never goes back.

## Main results

* `Network.switch_invariant`: what holds of switches holds in networks.
* `Network.not_dropped_of_episodesFit`: with enough headroom no packet is dropped anywhere.
* `NetworkFlow.headroom_spares_goBackN`: with enough headroom each packet of a flow is sent once.
-/

namespace HpccSim

namespace Network

open Switch

variable {Node : Type} [DecidableEq Node] {c : Network Node} {N N' : State Node}
  {I : Node → Switch → Prop}

/-! ### The switches of a network -/

section Lift

variable (hstep : ∀ v s op t, I v s → s.step op = some t → I v t)
  (hwire : ∀ v s wire, I v s → I v { s with wire := wire })

include hstep in
theorem switch_invariant_event {u : Node} {op : Switch.Op} {r : Option Datagram}
    (hN : ∀ v, I v (N.switch v)) (hevent : N.event u op r = some N') (v : Node) :
    I v (N'.switch v) := by
  rcases switch_event hevent v with heq | ⟨-, hs⟩
  · rw [heq]
    exact hN v
  · exact hstep v _ op _ (hN v) hs

include hstep in
theorem switch_invariant_takeDown {u : Node} {d : ℕ} (hN : ∀ v, I v (N.switch v))
    (hdown : c.takeDown N u d = some N') (v : Node) : I v (N'.switch v) := by
  rw [takeDown] at hdown
  cases hu : c.topology.nodeType u with
  | host =>
    rw [hu] at hdown
    cases hdown
    exact hN v
  | switch =>
    rw [hu] at hdown
    exact switch_invariant_event hstep hN hdown v

include hwire in
theorem switch_invariant_takeWire {u : Node} {d : ℕ} (hN : ∀ v, I v (N.switch v)) (v : Node) :
    I v ((N.takeWire u d).switch v) := by
  rw [State.takeWire]
  dsimp only
  rw [Function.update_apply]
  split_ifs with hv
  · subst hv
    exact hwire v _ _ (hN v)
  · exact hN v

include hstep hwire in
/-- **What a switch keeps it keeps in a network**, if it does not depend on the wires. -/
theorem switch_invariant (hinit : ∀ v, I v (Switch.init (c.config v))) {ops : List (Op Node)}
    (hrun : Run.exec c.step c.init ops = some N) : ∀ v, I v (N.switch v) := by
  refine Run.exec_invariant (I := fun N => ∀ v, I v (N.switch v))
    (fun N op N' hN hnext => ?_) hinit hrun
  cases step_happens hnext with
  | emit hop hsource hout hk => exact hN
  | sendHighPrio hv => exact hN
  | corrupt hw => exact switch_invariant_takeWire hwire hN
  | @receive v u d x rest _ hw hchannel hreceive =>
    have htaken := switch_invariant_takeWire hwire hN (u := v) (d := d)
    cases hu : c.topology.nodeType u with
    | host =>
      rw [receive_host hu] at hreceive
      cases hreceive
      split_ifs
      · exact htaken
      · exact htaken
    | switch =>
      cases hg : x.datagram with
      | some g =>
        rw [receive_switch hu hg] at hreceive
        exact switch_invariant_event hstep htaken hreceive
      | none =>
        obtain ⟨pfc, hevent⟩ := receive_frame hu hg hreceive
        exact switch_invariant_event hstep htaken hevent
  | transmitComplete hv hevent => exact switch_invariant_event hstep hN hevent
  | stayDown => exact hN
  | @takeDownLink a b d e M _ ha hb =>
    have hM := switch_invariant_takeDown hstep
      (N := { N with routes := Routing.takeDownLink c.topology N.routes a b }) hN ha
    exact switch_invariant_takeDown hstep hM hb

end Lift

/-- A switch of a network drops no packet of a queue, if the packets and the pauses of the queue
fit in the headroom of its port. -/
theorem not_dropped_of_episodesFit {ops : List (Op Node)}
    (hrun : Run.exec c.step c.init ops = some N) {v : Node} {p q : ℕ}
    (hfit : EpisodesFit p q ((c.config v).mmu.headroom p).toNat (N.switch v).trace) (n : UInt32) :
    .dropped p q n ∉ (N.switch v).trace := by
  have hguarded := switch_invariant (I := fun v s => Guarded (c.config v) p q s)
    (fun v s op t hs hnext => hs.step hnext)
    (fun v s wire hs => ⟨hs.config, fun hfit =>
      ⟨(hs.covered hfit).paused, (hs.covered hfit).hdrm, (hs.covered hfit).dropped⟩⟩)
    (fun v => Guarded.init) hrun v
  exact (hguarded.covered hfit).dropped n

end Network

namespace NetworkFlow

section Headroom

variable {Node : Type} [DecidableEq Node] {c : NetworkFlow Node} {s : State Node}
  {path back : List Node}

/-- **Headroom spares go-back-N its work.** Take a run in which links stay up and deliver what they
carry, and in which no egress queue is full. If at every switch the packets and the pauses of each
queue fit in the headroom of its port, no switch drops a packet; so each packet of the flow is sent
once and in order, the receiver takes in the first ones of them, and no NACK is sent. -/
theorem headroom_spares_goBackN (hconn : c.Connects path back) (hpos : 0 < c.flow.size.toNat)
    (hsize : c.flow.size.toNat < 2 ^ 32) (hint : c.hw.ackInterval ≠ 0) (hmtu : c.hw.mtu ≠ 0)
    {ops : List (Op Node)} (hrun : Run.exec c.step c.init ops = some s)
    (hops : ∀ op ∈ ops, op.Lossless)
    (hroom : ∀ v d q p, .lost d q p ∉ (s.network.switch v).trace)
    (hfit : ∀ v p q, Switch.EpisodesFit p q ((c.config v).mmu.headroom p).toNat
      (s.network.switch v).trace) :
    (∀ v p q n, .dropped p q n ∉ (s.network.switch v).trace) ∧ ∃ n m, n ≤ m ∧
      (c.sentPackets s.network).map (fun g => (g.seq.toNat, g.payload.toNat)) =
        (List.range m).map (Connection.packetRange c.hw c.flow) ∧
      s.accepted = (List.range n).map (Connection.packetRange c.hw c.flow) ∧
      ∀ g ∈ c.sentReplies s.network, g.kind ≠ .nack := by
  obtain ⟨ops', hops'⟩ := network_run hrun
  have hdropped : ∀ v p q n, .dropped p q n ∉ (s.network.switch v).trace := fun v p q n =>
    Network.not_dropped_of_episodesFit hops' (hfit v p q) n
  obtain ⟨n, m, hnm⟩ := exists_steady hconn hpos hsize hint hmtu hrun hops
    fun v => ⟨hdropped v, hroom v⟩
  exact ⟨hdropped, n, m, hnm.le, hnm.sent, hnm.accepted, hnm.noNack⟩

end Headroom

/-- Three packets of `crossedFlow`, over switches that pause a port when a second packet waits, with
headroom for some packets at every port. -/
def roomyFlow : NetworkFlow (Bool × Bool) where
  toNetwork := { Network.crossedNetwork with
    config := fun _ => .default 3 { MmuConfig.default with
      bufferSize := 2000, reserve := 0, totalRsrv := 0, headroom := fun _ => 20000 } }
  hw := crossedFlow.hw
  bps := crossedFlow.bps
  flow := { crossedFlow.flow with size := 3000 }
  source := crossedFlow.source
  dest := crossedFlow.dest
  headerSize := crossedFlow.headerSize
  replySize := crossedFlow.replySize

theorem connects_roomy : roomyFlow.Connects [(false, false), (true, false), (false, true)]
    [(false, true), (true, false), (false, false)] where
  links := Network.links_crossed
  source := by decide
  dest := by decide
  ne := by decide
  routeThere := ⟨2, by decide +kernel⟩
  routeBack := ⟨2, by decide +kernel⟩

/-- The switch pauses the source twice; during the second pause the third packet arrives. The frames
and the ACKs reach the source one after the other. -/
def pausedRun : List (Op (Bool × Bool)) :=
  [.send, .send, .send, .network (.receive (false, false) 1 false),
    .network (.receive (false, false) 1 false), .network (.receive (false, false) 1 false)] ++
  (List.replicate 2 [.network (.receive (true, false) 2 false),
    .network (.sendHighPrio (false, true) 1), .network (.receive (false, true) 1 false),
    .network (.transmitComplete (true, false) 2)]).flatten ++
  [.network (.receive (true, false) 2 false), .network (.sendHighPrio (false, true) 1),
    .network (.receive (false, true) 1 false), .network (.receive (true, false) 1 false)] ++
  (List.replicate 6 [.network (.transmitComplete (true, false) 1),
    .network (.receive (true, false) 1 false)]).flatten

/-- The switch pauses the source, and as all that arrives fits in the headroom, nothing is lost. -/
theorem headroom_spares_goBackN_roomy :
    ∃ s, Run.exec roomyFlow.step roomyFlow.init pausedRun = some s ∧ s.completions = 1 ∧
      .setPause 1 3 ∈ (s.network.switch (true, false)).trace ∧
      (∀ v p q n, .dropped p q n ∉ (s.network.switch v).trace) ∧ ∃ n m, n ≤ m ∧
        (roomyFlow.sentPackets s.network).map (fun g => (g.seq.toNat, g.payload.toNat)) =
          (List.range m).map (Connection.packetRange roomyFlow.hw roomyFlow.flow) ∧
        s.accepted = (List.range n).map (Connection.packetRange roomyFlow.hw roomyFlow.flow) ∧
        ∀ g ∈ roomyFlow.sentReplies s.network, g.kind ≠ .nack := by
  have hall : (Run.exec roomyFlow.step roomyFlow.init pausedRun).map (fun s =>
      (s.completions, decide (.setPause 1 3 ∈ (s.network.switch (true, false)).trace),
        decide (∀ v, Switch.arrivedBytes (s.network.switch v).trace ≤ 20000 ∧
          Switch.NothingLost (s.network.switch v).trace))) =
        some (1, true, true) := by decide +kernel
  obtain ⟨s, hrun, hs⟩ := Option.map_eq_some_iff.1 hall
  rw [Prod.mk.injEq, Prod.mk.injEq] at hs
  obtain ⟨hdone, hpause, hroom⟩ := hs
  have hroom := of_decide_eq_true hroom
  refine ⟨s, hrun, hdone, of_decide_eq_true hpause, headroom_spares_goBackN connects_roomy
    (by decide) (by decide) (by decide) (by decide) hrun ?_ (fun v => (hroom v).2.2) fun v p q =>
      .of_arrivedBytes (hroom v).1⟩
  simp [pausedRun, List.replicate, Op.Lossless, Network.Op.Lossless]

end NetworkFlow

end HpccSim
