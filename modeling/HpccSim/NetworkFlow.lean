import HpccSim.Addressed
import HpccSim.Connection
import HpccSim.Demux
import HpccSim.StreamOrder

/-!
# A flow over the network

A queue pair whose packets and replies travel through the network, together with all other traffic.
The hosts hand what arrives to `ReceiveUdp` and `ReceiveAck` at once, which look up the state of the
flow by their keys, and a reply is queued by the event in which its packet has arrived. When the
sender transmits is left open, as in `Connection`, and so are the packets of other queue pairs; none
of these is addressed to an end of the flow and has the key of the flow there.

## Main definitions

* `NetworkFlow`, `NetworkFlow.State`, `NetworkFlow.Op`, `NetworkFlow.step`.
* `NetworkFlow.Shares`, `NetworkFlow.Foreign`: which packets are looked up to the state of the flow.
* `NetworkFlow.Connects`, `NetworkFlow.Unmoved`: the ways of packets and replies.
* `NetworkFlow.packetsUnder`, `NetworkFlow.repliesUnder`: what is on these ways.

## Main results

* `Network.under_send`, `Network.under_step`: what is under way after a step.
* `NetworkFlow.Ours.filter_latest`: only packets of the flow are looked up to its state.
* `NetworkFlow.network_step`, `NetworkFlow.network_run`: a run of the flow is a run of the network.
* `NetworkFlow.send_packet`, `NetworkFlow.send_reply`, `NetworkFlow.foreign_step`: what happens to
  packets and replies.
-/

namespace HpccSim

namespace Network

variable {Node : Type} [DecidableEq Node] {c : Network Node} {N N' : State Node}
  {f : Stream} {out : Node → ℕ} {a h u v : Node} {path : List Node} {d : ℕ} {op : Op Node}

/-! ### What a step sends and delivers -/

theorem takeDown_frame (hdown : c.takeDown N u d = some N') :
    N'.delivered = N.delivered ∧ N'.emitted = N.emitted := by
  rw [takeDown] at hdown
  cases hu : c.topology.nodeType u with
  | host =>
    rw [hu] at hdown
    cases hdown
    exact ⟨rfl, rfl⟩
  | switch =>
    rw [hu] at hdown
    exact (event_frame hdown).2.2

theorem routes_step (hstep : c.step N op = some N') (hop : ∀ a b, op ≠ .takeDownLink a b) :
    N'.routes = N.routes := by
  cases step_happens hstep with
  | emit hop' hsource hout hk => rfl
  | sendHighPrio hv => rfl
  | corrupt hwire => rfl
  | @receive v u d x rest _ hwire hchannel hreceive =>
    cases hu : c.topology.nodeType u with
    | host =>
      rw [receive_host hu] at hreceive
      cases hreceive
      split_ifs <;> rfl
    | switch =>
      cases hg : x.datagram with
      | some g =>
        rw [receive_switch hu hg] at hreceive
        exact (event_frame hreceive).1
      | none =>
        obtain ⟨pfc, hevent⟩ := receive_frame hu hg hreceive
        exact (event_frame hevent).1
  | transmitComplete hv hevent => exact (event_frame hevent).1
  | stayDown => exact absurd rfl (hop _ _)
  | takeDownLink ha hb => exact absurd rfl (hop _ _)

/-- A host sends a packet, or at most one is delivered. -/
theorem step_frame (hstep : c.step N op = some N') :
    (∃ v k g, (op = .enqueueHighPrio v g ∨ op = .sendData v g) ∧ N' = N.emit v k g) ∨
    N'.emitted = N.emitted ∧ (N'.delivered = N.delivered ∨ N'.routes = N.routes ∧
      ∃ u g, N'.delivered = Function.update N.delivered u (N.delivered u ++ [g]) ∧
        c.topology.nodeType u = .host ∧ ∃ v d, c.topology.channel v d = some u ∧
          ∃ x ∈ N.parcels v (.wire d), x.datagram = some g) := by
  cases step_happens hstep with
  | emit hop hsource hout hk => exact .inl ⟨_, _, _, hop, rfl⟩
  | sendHighPrio hv => exact .inr ⟨rfl, .inl rfl⟩
  | corrupt hwire => exact .inr ⟨rfl, .inl rfl⟩
  | @receive v u d x rest _ hwire hchannel hreceive =>
    refine .inr ?_
    cases hu : c.topology.nodeType u with
    | host =>
      rw [receive_host hu] at hreceive
      cases hreceive
      split_ifs
      · cases hx : x.datagram with
        | none =>
          refine ⟨rfl, .inl ?_⟩
          rw [State.deliver, Option.toList_none, List.append_nil, Function.update_eq_self]
          rfl
        | some g =>
          exact ⟨rfl, .inr ⟨rfl, u, g, rfl, hu, v, d, hchannel, x, hwire ▸ List.mem_cons_self, hx⟩⟩
      · exact ⟨rfl, .inl rfl⟩
    | switch =>
      cases hg : x.datagram with
      | some g =>
        rw [receive_switch hu hg] at hreceive
        obtain ⟨-, -, hdelivered, hemitted⟩ := event_frame hreceive
        exact ⟨hemitted, .inl hdelivered⟩
      | none =>
        obtain ⟨pfc, hevent⟩ := receive_frame hu hg hreceive
        obtain ⟨-, -, hdelivered, hemitted⟩ := event_frame hevent
        exact ⟨hemitted, .inl hdelivered⟩
  | transmitComplete hv hevent =>
    obtain ⟨-, -, hdelivered, hemitted⟩ := event_frame hevent
    exact .inr ⟨hemitted, .inl hdelivered⟩
  | stayDown => exact .inr ⟨rfl, .inl rfl⟩
  | takeDownLink ha hb =>
    obtain ⟨hdelivered, hemitted⟩ := takeDown_frame ha
    obtain ⟨hdelivered', hemitted'⟩ := takeDown_frame hb
    exact .inr ⟨hemitted'.trans hemitted, .inl (hdelivered'.trans hdelivered)⟩

/-- The packet that has been delivered at a node. -/
def latest (N N' : State Node) (v : Node) : Option Datagram :=
  (N'.delivered v)[(N.delivered v).length]?

/-- The packet of the stream that has been delivered at a node. -/
def arrived (N N' : State Node) (v : Node) (f : Stream) : Option Datagram :=
  (latest N N' v).filter fun g => g.stream = f

omit [DecidableEq Node] in
theorem latest_of_eq (hdelivered : N'.delivered = N.delivered) : latest N N' v = none := by
  rw [latest, hdelivered, List.getElem?_eq_none le_rfl]

omit [DecidableEq Node] in
theorem arrived_of_eq (hdelivered : N'.delivered = N.delivered) : arrived N N' v f = none := by
  rw [arrived, latest_of_eq hdelivered]
  rfl

theorem latest_update {g : Datagram}
    (hdelivered : N'.delivered = Function.update N.delivered u (N.delivered u ++ [g])) :
    latest N N' v = if v = u then some g else none := by
  rw [latest, hdelivered, Function.update_apply]
  by_cases hv : v = u
  · subst hv
    rw [if_pos rfl, if_pos rfl, List.getElem?_concat_length]
  · rw [if_neg hv, if_neg hv, List.getElem?_eq_none le_rfl]

theorem arrived_update {g : Datagram}
    (hdelivered : N'.delivered = Function.update N.delivered u (N.delivered u ++ [g])) :
    arrived N N' v f = if v = u ∧ g.stream = f then some g else none := by
  rw [arrived, latest_update hdelivered]
  by_cases hv : v = u
  · simp [hv, Option.filter_some]
  · simp [hv]

/-- **A host gets what is addressed to it**, and what some host has sent. -/
theorem Addressed.latest (h : c.Addressed N) (hstep : c.step N op = some N') {g : Datagram}
    (hg : latest N N' v = some g) :
    (∃ w, g ∈ N.emitted w) ∧ c.topology.address v = g.flow.dip := by
  have hnone (heq : N'.delivered = N.delivered) : False := by
    rw [latest_of_eq heq] at hg
    cases hg
  rcases step_frame hstep with ⟨w, k, g', -, rfl⟩ | ⟨-, heq | ⟨-, u, g', heq, hu, w, d, hthere, hx⟩⟩
  · exact (hnone rfl).elim
  · exact (hnone heq).elim
  · rw [latest_update heq] at hg
    split_ifs at hg with hv
    cases hg
    obtain ⟨x, hwire, hxg⟩ := hx
    obtain ⟨hsent, haddress⟩ := h.parcels w (.wire d) x hwire g hxg
    exact ⟨hsent, hv ▸ haddress u hthere hu⟩

theorem filter_delivered (hstep : c.step N op = some N') :
    (N'.delivered v).filter (fun g => g.stream = f) =
      (N.delivered v).filter (fun g => g.stream = f) ++ (arrived N N' v f).toList := by
  have hsame (h : N'.delivered = N.delivered) : (N'.delivered v).filter (fun g => g.stream = f) =
      (N.delivered v).filter (fun g => g.stream = f) ++ (arrived N N' v f).toList := by
    rw [arrived_of_eq h, h, Option.toList_none, List.append_nil]
  rcases step_frame hstep with ⟨w, k, g, -, rfl⟩ | ⟨-, h | ⟨-, u, g, h, -⟩⟩
  · exact hsame rfl
  · exact hsame h
  · rw [arrived_update h, h, Function.update_apply]
    by_cases hv : v = u
    · subst hv
      by_cases hg : g.stream = f
      · simp [hg]
      · simp [hg]
    · simp [hv]

/-- At most one node gets a packet, and the tables stay. -/
theorem arrived_unique (hstep : c.step N op = some N') {g : Datagram}
    (harrived : arrived N N' v f = some g) :
    g.stream = f ∧ N'.routes = N.routes ∧ ∀ w f', w ≠ v → arrived N N' w f' = none := by
  have hg : g.stream = f := by
    have hfilter := (Option.filter_eq_some_iff.1 harrived).2
    exact of_decide_eq_true hfilter
  have hnone (h : N'.delivered = N.delivered) : False := by
    rw [arrived_of_eq h] at harrived
    cases harrived
  rcases step_frame hstep with ⟨w, k, g', -, rfl⟩ | ⟨-, h | ⟨hroutes, u, g', h, -⟩⟩
  · exact (hnone rfl).elim
  · exact (hnone h).elim
  · refine ⟨hg, hroutes, fun w f' hw => ?_⟩
    rw [arrived_update h] at harrived ⊢
    split_ifs at harrived with hv
    exact if_neg fun h => hw (h.1.trans hv.1.symm)

/-! ### What is under way -/

/-- **A packet is sent** by the source of its stream, and is then the last under way. -/
theorem under_send (hway : c.Way f out a h path) (hinv : c.OnWay N f out h path)
    (hkept : c.Kept N f out h path) {g : Datagram} (hself : g.stream = f → v = a)
    (hop : op = .enqueueHighPrio v g ∨ op = .sendData v g) (hstep : c.step N op = some N') :
    c.OnWay N' f out h path ∧ sent N' f a = sent N f a ++ (if g.stream = f then [g] else []) ∧
      c.under N' f out h path = c.under N f out h path ++ if g.stream = f then [g] else [] := by
  have hemit : ∀ {w : Node} {g' : Datagram}, (op = .enqueueHighPrio w g' ∨ op = .sendData w g') →
      w = v ∧ g' = g := by
    rintro w g' (rfl | rfl)
    · rcases hop with hop | hop <;> cases hop
      exact ⟨rfl, rfl⟩
    · rcases hop with hop | hop <;> cases hop
      exact ⟨rfl, rfl⟩
  have hall : ∃ k d, N' = N.emit v k g ∧ c.IsSource v g ∧ c.outDev N.routes g.stream v = some d ∧
      (k = .queue d 0 ∧ g.kind.isAck = true ∨ k = .wire d ∧ g.kind.isAck = false) := by
    cases step_happens hstep with
    | emit hop' hsource hout hk =>
      obtain ⟨rfl, rfl⟩ := hemit hop'
      exact ⟨_, _, rfl, hsource, hout, hk⟩
    | _ => rcases hop with hop | hop <;> cases hop
  obtain ⟨k, d, rfl, hsource, hout, hk⟩ := hall
  have hemitted : c.OnWay (N.emit v k g) f out h path ∧
      c.Proceeds f out a h path True N (N.emit v k g) := onWay_emit hway hinv hkept hsource hout hk
  obtain ⟨hN', new, hnew, -, hcontent⟩ := hemitted
  have hsent := sent_emit (N := N) (k := k) hself
  have hsame : new = if g.stream = f then [g] else [] :=
    List.append_cancel_left (hnew.symm.trans hsent)
  refine ⟨hN', hsent, ?_⟩
  have hunder := hcontent trivial
  rw [content_eq hway.last, content_eq hway.last, List.append_assoc, hsame] at hunder
  exact List.append_cancel_left hunder

/-- **Another event** may deliver the oldest packet that it does not lose. -/
theorem under_step (hway : c.Way f out a h path) (hinv : c.OnWay N f out h path)
    (hkept : c.Kept N f out h path)
    (hop : ∀ v g, op = .enqueueHighPrio v g ∨ op = .sendData v g → g.stream ≠ f)
    (hstep : c.step N op = some N') :
    c.OnWay N' f out h path ∧ sent N' f a = sent N f a ∧
      ((arrived N N' h f).toList ++ c.under N' f out h path).Sublist (c.under N f out h path) ∧
      (Keeps N N' op →
        (arrived N N' h f).toList ++ c.under N' f out h path = c.under N f out h path) := by
  have hsent : sent N' f a = sent N f a := by
    rcases step_frame hstep with ⟨v, k, g, hemit, rfl⟩ | ⟨hemitted, -⟩
    · have hne := hop v g hemit
      rw [sent_emit fun hg => absurd hg hne, if_neg hne, List.append_nil]
    · rw [sent, sent, hemitted]
  obtain ⟨hN', new, hnew, hsub, hkeep⟩ := onWay_step hway hinv hkept hstep
  obtain rfl : new = [] := List.append_right_eq_self.1 (hnew.symm.trans hsent)
  rw [content_eq hway.last, content_eq hway.last, filter_delivered hstep, List.append_nil,
    List.append_assoc] at hsub hkeep
  exact ⟨hN', hsent, (List.append_sublist_append_left _).1 hsub,
    fun hk => List.append_cancel_left (hkeep hk)⟩

end Network

/-- A network, and a flow between two of its hosts. -/
structure NetworkFlow (Node : Type) extends Network Node where
  hw : RdmaHw
  /-- The rate of the device by which the source sends. -/
  bps : UInt64
  flow : Flow
  source : Node
  dest : Node
  /-- The bytes of the headers of a data packet. -/
  headerSize : UInt32
  /-- The bytes of an ACK or a NACK. -/
  replySize : UInt32

namespace NetworkFlow

/-- The network and both ends of the queue pair, whose fields are those of `Connection`. -/
structure State (Node : Type) where
  network : Network.State Node
  now : ℕ
  qp : RdmaQueuePair
  live : Bool
  completions : ℕ
  rxQp : Option RdmaRxQueuePair
  accepted : List (ℕ × ℕ)

/-- What can happen next. -/
inductive Op (Node : Type) where
  /-- A transmit opportunity of the queue pair. -/
  | send
  /-- An event of the network, in which packets of other queue pairs may be sent. -/
  | network (op : Network.Op Node)
  /-- Time passes. -/
  | tick (dt : ℕ)
  /-- The congestion control sets the rate. -/
  | setRate (rate : UInt64)

variable {Node : Type} [DecidableEq Node] (c : NetworkFlow Node) (s : State Node)

/-- The data packets of the flow. -/
def packets : Stream where
  isAck := false
  flow := ⟨c.flow.sip, c.flow.dip, c.flow.sport, c.flow.dport, c.flow.pg⟩

/-- Its ACKs and NACKs. -/
def replies : Stream where
  isAck := true
  flow := ⟨c.flow.dip, c.flow.sip, c.flow.dport, c.flow.sport, c.flow.pg⟩

/-- A data packet with its headers. -/
def packet (p : DataPacket) : Datagram where
  kind := .data
  flow := c.packets.flow
  size := p.size + c.headerSize
  seq := p.seq
  payload := p.size

/-- A reply with its headers. -/
def reply (ch : AckFrame) : Datagram where
  kind := if ch.nack then .nack else .ack
  flow := c.replies.flow
  size := c.replySize
  seq := ch.seq
  payload := 0

/-- The data packet, as `ReceiveUdp` reads it. -/
def toData (g : Datagram) : DataPacket where
  seq := g.seq
  size := g.payload

/-- The reply, as `ReceiveAck` reads it. -/
def toAck (g : Datagram) : AckFrame where
  nack := g.kind = .nack
  seq := g.seq

/-- `RdmaHw::ReceiveUdp` at the destination. -/
def receiveUdp (g : Datagram) : Option (State Node) := do
  let (v, q) ← c.hw.receiveUdp s.now s.rxQp (toData g)
  let N ← (RdmaHw.reply q v).foldlM
    (fun N ch => c.toNetwork.step N (.enqueueHighPrio c.dest (c.reply ch))) s.network
  return { s with
    network := N
    rxQp := some q
    accepted := if v.accepts then s.accepted ++ [(g.seq.toNat, g.payload.toNat)] else s.accepted }

/-- `RdmaHw::QpComplete`, with the callback that makes the receiver forget the queue pair. -/
def State.complete (s : State Node) : State Node :=
  { s with live := false, completions := s.completions + 1, rxQp := none }

/-- `RdmaHw::ReceiveAck` at the source. -/
def receiveAck (g : Datagram) : Option (State Node) :=
  if s.live then
    (c.hw.processAck s.qp (toAck g)).map fun (qp, done) =>
      let s := { s with qp := qp }
      if done then s.complete else s
  else
    some s

/-- `ReceiveUdp` passes `GetRxQp` the key of the flow. -/
def hasRxQpKey (g : Datagram) : Bool :=
  g.kind = .data ∧ rxQpKey g.flow.sip g.flow.pg g.flow.sport =
    rxQpKey c.flow.sip c.flow.pg c.flow.sport

/-- `ReceiveAck` passes `GetQp` the key of the flow. -/
def hasQpKey (g : Datagram) : Bool :=
  g.kind.isAck ∧ getQpKey g.flow.sip g.flow.dport g.flow.pg =
    getQpKey c.flow.dip c.flow.sport c.flow.pg

/-- `RdmaHw::Receive` of what has been delivered since the network was in the state `N`, if it is
looked up to the state of the flow. -/
def receive (N : Network.State Node) : Option (State Node) :=
  match (Network.latest N s.network c.dest).filter c.hasRxQpKey,
      (Network.latest N s.network c.source).filter c.hasQpKey with
  | some g, _ => c.receiveUdp s g
  | none, some g => c.receiveAck s g
  | none, none => some s

/-- The packet is addressed to an end of the flow and looked up there to the state of the flow. -/
def Shares (g : Datagram) : Prop :=
  c.hasRxQpKey g ∧ g.flow.dip = c.flow.dip ∨ c.hasQpKey g ∧ g.flow.dip = c.flow.sip

instance (g : Datagram) : Decidable (c.Shares g) := by
  unfold Shares
  infer_instance

/-- The event sends no packet that shares the state of the flow. -/
def Foreign : Network.Op Node → Prop
  | .enqueueHighPrio _ g => ¬ c.Shares g
  | .sendData _ g => ¬ c.Shares g
  | _ => True

instance (op : Network.Op Node) : Decidable (c.Foreign op) := by
  cases op <;> unfold Foreign <;> infer_instance

/-- One event. -/
def step : Op Node → Option (State Node)
  | .send =>
    if s.qp.isEligible then
      let (p, qp) := c.hw.getNxtPacket s.qp
      (c.toNetwork.step s.network (.sendData c.source (c.packet p))).map fun N =>
        { s with network := N, qp := qp }
    else
      none
  | .network op =>
    if c.Foreign op then
      (c.toNetwork.step s.network op).bind fun N => c.receive { s with network := N } s.network
    else
      none
  | .tick dt => some { s with now := s.now + dt }
  | .setRate rate => some { s with qp := { s.qp with rate := rate } }

/-- The routes have been installed, the queue pair has been added, and nothing has been sent. -/
def init : State Node where
  network := c.toNetwork.init
  now := 0
  qp := c.hw.newQp 0 c.bps c.flow
  live := true
  completions := 0
  rxQp := none
  accepted := []

/-- No packet is corrupted, and no link is taken down. -/
def Op.Lossless : Op Node → Prop
  | .network op => op.Lossless
  | _ => True

/-! ### The network goes its own way -/

section Network

variable {c s} {t : State Node} {N : Network.State Node} {g : Datagram} {op : Op Node}

variable (c) in
/-- What the event sends is of the flow, if it shares its state. -/
def Sends (op : Network.Op Node) : Prop :=
  ∀ v g, op = .enqueueHighPrio v g ∨ op = .sendData v g → c.Shares g →
    g.stream = c.packets ∨ g.stream = c.replies

/-- The replies are sent one after the other. -/
theorem exec_of_foldlM {chs : List AckFrame} {N N' : Network.State Node}
    (h : chs.foldlM (fun N ch => c.toNetwork.step N (.enqueueHighPrio c.dest (c.reply ch))) N =
      some N') : Run.exec c.toNetwork.step N
        (chs.map fun ch => .enqueueHighPrio c.dest (c.reply ch)) = some N' := by
  induction chs generalizing N with
  | nil => exact h
  | cons ch chs ih =>
    rw [List.foldlM_cons, Option.bind_eq_bind, Option.bind_eq_some_iff] at h
    obtain ⟨M, hM, hrest⟩ := h
    exact Run.exec_cons_eq_some.2 ⟨M, hM, ih hrest⟩

omit [DecidableEq Node] in
theorem packets_ne_replies : c.packets ≠ c.replies := fun h => by
  have hack : c.packets.isAck = c.replies.isAck := by rw [h]
  cases hack

omit [DecidableEq Node] in
theorem stream_packet (p : DataPacket) : (c.packet p).stream = c.packets := rfl

omit [DecidableEq Node] in
theorem stream_reply (ch : AckFrame) : (c.reply ch).stream = c.replies := by
  rw [Datagram.stream, reply, replies]
  cases ch.nack <;> rfl

omit [DecidableEq Node] in
theorem toAck_reply (ch : AckFrame) : toAck (c.reply ch) = ch := by
  obtain ⟨nack, seq⟩ := ch
  cases nack <;> rfl

omit [DecidableEq Node] in
theorem Foreign.sends {op : Network.Op Node} (h : c.Foreign op) : c.Sends op := by
  rintro v g (rfl | rfl) hshares
  · exact absurd hshares h
  · exact absurd hshares h

theorem network_receive (hstep : c.receive s N = some t) :
    ∃ ops, Run.exec c.toNetwork.step s.network ops = some t.network ∧
      ∀ o ∈ ops, o.Lossless ∧ c.Sends o := by
  rw [receive] at hstep
  split at hstep
  · rw [receiveUdp] at hstep
    simp only [Option.bind_eq_bind, Option.bind_eq_some_iff] at hstep
    obtain ⟨⟨v, q⟩, hq, N', hN', ht⟩ := hstep
    cases ht
    refine ⟨_, exec_of_foldlM hN', fun o ho => ?_⟩
    obtain ⟨ch, -, rfl⟩ := List.mem_map.1 ho
    refine ⟨trivial, fun v g hop _ => .inr ?_⟩
    rcases hop with hop | hop <;> cases hop
    exact stream_reply ch
  · rw [receiveAck] at hstep
    refine ⟨[], ?_, List.forall_mem_nil _⟩
    split_ifs at hstep
    · obtain ⟨⟨qp, done⟩, -, rfl⟩ := Option.map_eq_some_iff.1 hstep
      cases done <;> rfl
    · cases hstep
      rfl
  · cases hstep
    exact ⟨[], rfl, List.forall_mem_nil _⟩

/-- **An event of the flow is a run of the network.** -/
theorem network_step (hstep : c.step s op = some t) :
    ∃ ops, Run.exec c.toNetwork.step s.network ops = some t.network ∧ (∀ o ∈ ops, c.Sends o) ∧
      (op.Lossless → ∀ o ∈ ops, o.Lossless) := by
  cases op with
  | send =>
    rw [step] at hstep
    split_ifs at hstep
    obtain ⟨N, hN, rfl⟩ := Option.map_eq_some_iff.1 hstep
    refine ⟨_, Run.exec_single.2 hN, List.forall_mem_singleton.2 fun v g hop _ => .inl ?_,
      fun _ => List.forall_mem_singleton.2 trivial⟩
    rcases hop with hop | hop <;> cases hop
    exact stream_packet _
  | network op =>
    rw [step] at hstep
    split_ifs at hstep with hforeign
    obtain ⟨N, hN, hreceive⟩ := Option.bind_eq_some_iff.1 hstep
    obtain ⟨ops, hops, hall⟩ := network_receive hreceive
    exact ⟨op :: ops, Run.exec_cons_eq_some.2 ⟨N, hN, hops⟩,
      List.forall_mem_cons.2 ⟨hforeign.sends, fun o ho => (hall o ho).2⟩,
      fun hop => List.forall_mem_cons.2 ⟨hop, fun o ho => (hall o ho).1⟩⟩
  | tick dt =>
    cases hstep
    exact ⟨[], rfl, List.forall_mem_nil _, fun _ => List.forall_mem_nil _⟩
  | setRate rate =>
    cases hstep
    exact ⟨[], rfl, List.forall_mem_nil _, fun _ => List.forall_mem_nil _⟩

/-- **A run of the flow is a run of the network.** -/
theorem network_run {ops : List (Op Node)} (hrun : Run.exec c.step c.init ops = some s) :
    ∃ ops', Run.exec c.toNetwork.step c.toNetwork.init ops' = some s.network := by
  refine Run.exec_invariant (I := fun s => ∃ ops',
    Run.exec c.toNetwork.step c.toNetwork.init ops' = some s.network) ?_ ⟨[], rfl⟩ hrun
  rintro s op t ⟨ops', hops'⟩ hstep
  obtain ⟨ops'', hops'', -, -⟩ := network_step hstep
  exact ⟨ops' ++ ops'', Run.exec_trans hops' hops''⟩

theorem trace_exec {N N' : Network.State Node} {ops : List (Network.Op Node)}
    (hrun : Run.exec c.toNetwork.step N ops = some N') (v : Node) :
    (N.switch v).trace <:+ (N'.switch v).trace :=
  Run.exec_invariant (I := fun M => (N.switch v).trace <:+ (M.switch v).trace)
    (fun _ _ _ hM hstep => hM.trans (Network.trace_step hstep v)) (List.suffix_refl _) hrun

theorem nothingLost_of_exec {N N' : Network.State Node} {ops : List (Network.Op Node)}
    (hrun : Run.exec c.toNetwork.step N ops = some N')
    (hlost : ∀ v, Switch.NothingLost (N'.switch v).trace) (v : Node) :
    Switch.NothingLost (N.switch v).trace :=
  (hlost v).suffix (trace_exec hrun v)

theorem linksUp_step (hup : Network.LinksUp s.network) (hop : op.Lossless)
    (hstep : c.step s op = some t) : Network.LinksUp t.network := by
  obtain ⟨ops, hrun, -, hlossless⟩ := network_step hstep
  refine Run.exec_induction (C := fun _ o => o.Lossless) (fun N o N' hN ho hnext => ?_) hup
    (Run.along_of_forall (fun _ => hlossless hop) _) hrun
  refine hN.step hnext fun a b => ?_
  rintro rfl
  exact ho

/-- The tables change when a link is taken down only. -/
theorem routes_step (hop : op.Lossless) (hstep : c.step s op = some t) :
    t.network.routes = s.network.routes := by
  obtain ⟨ops, hrun, -, hlossless⟩ := network_step hstep
  refine Run.exec_induction (I := fun N => N.routes = s.network.routes)
    (C := fun _ o => o.Lossless) (fun N o N' hN ho hnext => ?_) rfl
    (Run.along_of_forall (fun _ => hlossless hop) _) hrun
  rw [← hN]
  exact Network.routes_step hnext fun a b => by
    rintro rfl
    exact ho

end Network

/-! ### What is looked up to the state of the flow -/

section Keys

variable (N : Network.State Node)

/-- The network leads packets to their hosts, and what has been sent and shares the state of the
flow is of the flow. -/
structure Ours : Prop where
  addressed : c.Addressed N
  emitted : ∀ v, ∀ g ∈ N.emitted v, c.Shares g → g.stream = c.packets ∨ g.stream = c.replies

variable {c N} {N' : Network.State Node} {g : Datagram} {s t : State Node}

theorem ours_init (hlinks : Routing.Links c.topology c.links) : c.Ours c.init.network where
  addressed := Network.addressed_init hlinks
  emitted _ _ hg := absurd hg List.not_mem_nil

theorem Ours.network_step (h : c.Ours N) {op : Network.Op Node} (hop : c.Sends op)
    (hstep : c.toNetwork.step N op = some N') : c.Ours N' := by
  refine ⟨h.addressed.step hstep, fun v g hg hshares => ?_⟩
  rcases Network.step_frame hstep with ⟨w, k, g', hemit, rfl⟩ | ⟨hemitted, -⟩
  · rw [Network.State.emit] at hg
    dsimp only at hg
    rw [Function.update_apply] at hg
    split_ifs at hg with hv
    · rcases List.mem_append.1 hg with hg | hg
      · exact h.emitted w g hg hshares
      · rw [List.mem_singleton.1 hg] at hshares ⊢
        exact hop w g' hemit hshares
    · exact h.emitted v g hg hshares
  · rw [hemitted] at hg
    exact h.emitted v g hg hshares

theorem Ours.step (h : c.Ours s.network) {op : Op Node} (hstep : c.step s op = some t) :
    c.Ours t.network := by
  obtain ⟨ops, hrun, hsends, -⟩ := NetworkFlow.network_step hstep
  exact Run.exec_induction (C := fun _ o => c.Sends o)
    (fun N o N' hN ho hnext => hN.network_step ho hnext) h
    (Run.along_of_forall (fun _ => hsends) _) hrun

omit [DecidableEq Node] in
theorem shares_of_packets (hg : g.stream = c.packets) :
    c.hasRxQpKey g = true ∧ c.hasQpKey g = false ∧ c.Shares g := by
  obtain ⟨hkind, hflow⟩ := Stream.mk.inj hg
  have hdata : g.kind = .data := by
    cases hk : g.kind
    · rfl
    · rw [hk] at hkind
      cases hkind
    · rw [hk] at hkind
      cases hkind
  have hkey : c.hasRxQpKey g = true := by simp [hasRxQpKey, hdata, hflow]
  exact ⟨hkey, by simp [hasQpKey, hkind], .inl ⟨hkey, by rw [hflow]⟩⟩

omit [DecidableEq Node] in
theorem shares_of_replies (hg : g.stream = c.replies) :
    c.hasQpKey g = true ∧ c.hasRxQpKey g = false ∧ c.Shares g := by
  obtain ⟨hkind, hflow⟩ := Stream.mk.inj hg
  have hdata : g.kind ≠ .data := fun hk => by
    rw [hk] at hkind
    cases hkind
  have hkey : c.hasQpKey g = true := by simp [hasQpKey, hkind, hflow]
  exact ⟨hkey, by simp [hasRxQpKey, hdata], .inr ⟨hkey, by rw [hflow]⟩⟩

/-- **Only packets of the flow are looked up to its state.** -/
theorem Ours.filter_latest (h : c.Ours N) {op : Network.Op Node}
    (hsource : c.topology.address c.source = c.flow.sip)
    (hdest : c.topology.address c.dest = c.flow.dip)
    (hstep : c.toNetwork.step N op = some N') :
    (Network.latest N N' c.dest).filter c.hasRxQpKey = Network.arrived N N' c.dest c.packets ∧
      (Network.latest N N' c.source).filter c.hasQpKey =
        Network.arrived N N' c.source c.replies := by
  have hiff : ∀ {v g}, Network.latest N N' v = some g → c.Shares g →
      g.stream = c.packets ∨ g.stream = c.replies := by
    intro v g hg hshares
    obtain ⟨w, hw⟩ := (h.addressed.latest hstep hg).1
    exact h.emitted w g hw hshares
  constructor
  · rw [Network.arrived]
    cases hlatest : Network.latest N N' c.dest with
    | none => rfl
    | some g =>
      have haddress := (h.addressed.latest hstep hlatest).2
      have hsame : c.hasRxQpKey g = decide (g.stream = c.packets) := by
        rw [Bool.eq_iff_iff, decide_eq_true_iff]
        refine ⟨fun hkey => ?_, fun hg => (shares_of_packets hg).1⟩
        refine (hiff hlatest (.inl ⟨hkey, haddress.symm.trans hdest⟩)).resolve_right fun hg => ?_
        rw [(shares_of_replies hg).2.1] at hkey
        cases hkey
      rw [Option.filter_some, Option.filter_some, hsame]
  · rw [Network.arrived]
    cases hlatest : Network.latest N N' c.source with
    | none => rfl
    | some g =>
      have haddress := (h.addressed.latest hstep hlatest).2
      have hsame : c.hasQpKey g = decide (g.stream = c.replies) := by
        rw [Bool.eq_iff_iff, decide_eq_true_iff]
        refine ⟨fun hkey => ?_, fun hg => (shares_of_replies hg).1⟩
        refine (hiff hlatest (.inr ⟨hkey, haddress.symm.trans hsource⟩)).resolve_left fun hg => ?_
        rw [(shares_of_packets hg).2.1] at hkey
        cases hkey
      rw [Option.filter_some, Option.filter_some, hsame]

end Keys

/-! ### Packets and replies of the flow -/

section Ways

variable (path back : List Node)

/-- The tables that are installed at the start lead packets by `path` and replies by `back`. -/
structure Connects : Prop where
  links : Routing.Links c.topology c.links
  source : c.source ∈ c.topology.n ∧ c.topology.nodeType c.source = .host ∧
    c.topology.address c.source = c.flow.sip
  dest : c.dest ∈ c.topology.n ∧ c.topology.nodeType c.dest = .host ∧
    c.topology.address c.dest = c.flow.dip
  ne : c.source ≠ c.dest
  routeThere : ∃ k,
    (Routing.search c.topology c.toNetwork.init.routes c.dest).dis c.source = some k ∧
    Routing.route c.topology c.toNetwork.init.routes c.flow.dip (c.hash c.packets) k c.source =
      some path
  routeBack : ∃ k,
    (Routing.search c.topology c.toNetwork.init.routes c.source).dis c.dest = some k ∧
    Routing.route c.topology c.toNetwork.init.routes c.flow.sip (c.hash c.replies) k c.dest =
      some back

variable (N : Network.State Node)

/-- The nodes on both ways keep the output devices that they have at the start. -/
def Unmoved : Prop :=
  c.toNetwork.Unmoved N c.packets c.dest path ∧ c.toNetwork.Unmoved N c.replies c.source back

instance : Decidable (c.Unmoved path back N) := by
  unfold Unmoved
  infer_instance

/-- The data packets under way. -/
def packetsUnder : List Datagram :=
  c.under N c.packets (c.outStart c.packets) c.dest path

/-- The replies under way. -/
def repliesUnder : List Datagram :=
  c.under N c.replies (c.outStart c.replies) c.source back

/-- The data packets that have been sent. -/
def sentPackets : List Datagram := Network.sent N c.packets c.source

/-- The replies that have been sent. -/
def sentReplies : List Datagram := Network.sent N c.replies c.dest

/-- The ways of packets and replies, which the tables of `N` give. -/
structure Led : Prop where
  wayThere : c.toNetwork.Way c.packets (c.outStart c.packets) c.source c.dest path
  wayBack : c.toNetwork.Way c.replies (c.outStart c.replies) c.dest c.source back
  packets : c.toNetwork.Kept N c.packets (c.outStart c.packets) c.dest path
  replies : c.toNetwork.Kept N c.replies (c.outStart c.replies) c.source back

/-- Packets and replies are on their way only. -/
structure Tracked : Prop where
  packets : c.toNetwork.OnWay N c.packets (c.outStart c.packets) c.dest path
  replies : c.toNetwork.OnWay N c.replies (c.outStart c.replies) c.source back

variable {c N path back} {N' : Network.State Node}

theorem Connects.led (h : c.Connects path back) (hkept : c.Unmoved path back N) :
    c.Led path back N := by
  obtain ⟨k, hdis, hpath⟩ := h.routeThere
  obtain ⟨k', hdis', hback⟩ := h.routeBack
  obtain ⟨hway, hstart⟩ := Network.way_of_route (f := c.packets) h.links h.source h.dest h.ne hdis
    hpath
  obtain ⟨hway', hstart'⟩ := Network.way_of_route (f := c.replies) h.links h.dest h.source h.ne.symm
    hdis' hback
  exact ⟨hway, hway', fun v hv hvh => (hkept.1 v hv hvh).trans (hstart v hv hvh),
    fun v hv hvh => (hkept.2 v hv hvh).trans (hstart' v hv hvh)⟩

theorem Led.congr (h : c.Led path back N) (hroutes : N'.routes = N.routes) :
    c.Led path back N' where
  wayThere := h.wayThere
  wayBack := h.wayBack
  packets v hv hvh := hroutes ▸ h.packets v hv hvh
  replies v hv hvh := hroutes ▸ h.replies v hv hvh

/-- **The source sends a packet.** -/
theorem send_packet (hled : c.Led path back N) (hN : c.Tracked path back N) {p : DataPacket}
    (hstep : c.toNetwork.step N (.sendData c.source (c.packet p)) = some N') :
    c.Tracked path back N' ∧
      c.sentPackets N' = c.sentPackets N ++ [c.packet p] ∧ c.sentReplies N' = c.sentReplies N ∧
      c.packetsUnder path N' = c.packetsUnder path N ++ [c.packet p] ∧
      c.repliesUnder back N' = c.repliesUnder back N := by
  have hne : (c.packet p).stream ≠ c.replies := packets_ne_replies
  obtain ⟨hpackets, hsent, hunder⟩ := Network.under_send hled.wayThere hN.packets hled.packets
    (fun _ => rfl) (.inr rfl) hstep
  obtain ⟨hreplies, hsent', hunder'⟩ := Network.under_send hled.wayBack hN.replies hled.replies
    (fun h => absurd h hne) (.inr rfl) hstep
  rw [if_pos (stream_packet p)] at hsent hunder
  rw [if_neg hne, List.append_nil] at hsent' hunder'
  exact ⟨⟨hpackets, hreplies⟩, hsent, hsent', hunder, hunder'⟩

/-- **The destination queues a reply.** -/
theorem send_reply (hled : c.Led path back N) (hN : c.Tracked path back N) {ch : AckFrame}
    (hstep : c.toNetwork.step N (.enqueueHighPrio c.dest (c.reply ch)) = some N') :
    c.Tracked path back N' ∧
      c.sentPackets N' = c.sentPackets N ∧ c.sentReplies N' = c.sentReplies N ++ [c.reply ch] ∧
      c.packetsUnder path N' = c.packetsUnder path N ∧
      c.repliesUnder back N' = c.repliesUnder back N ++ [c.reply ch] := by
  have hne : (c.reply ch).stream ≠ c.packets := by
    rw [stream_reply]
    exact packets_ne_replies.symm
  obtain ⟨hpackets, hsent, hunder⟩ := Network.under_send hled.wayThere hN.packets hled.packets
    (fun h => absurd h hne) (.inl rfl) hstep
  obtain ⟨hreplies, hsent', hunder'⟩ := Network.under_send hled.wayBack hN.replies hled.replies
    (fun _ => rfl) (.inl rfl) hstep
  rw [if_neg hne, List.append_nil] at hsent hunder
  rw [if_pos (stream_reply ch)] at hsent' hunder'
  exact ⟨⟨hpackets, hreplies⟩, hsent, hsent', hunder, hunder'⟩

/-- **An event of the network** that sends no packet of the flow may deliver the oldest packet or
the oldest reply that it does not lose. -/
theorem foreign_step (hled : c.Led path back N) (hN : c.Tracked path back N)
    {op : Network.Op Node} (hforeign : c.Foreign op) (hstep : c.toNetwork.step N op = some N') :
    c.Tracked path back N' ∧ c.sentPackets N' = c.sentPackets N ∧
      c.sentReplies N' = c.sentReplies N ∧
      ((Network.arrived N N' c.dest c.packets).toList ++ c.packetsUnder path N').Sublist
        (c.packetsUnder path N) ∧
      ((Network.arrived N N' c.source c.replies).toList ++ c.repliesUnder back N').Sublist
        (c.repliesUnder back N) ∧
      (Network.Keeps N N' op →
        (Network.arrived N N' c.dest c.packets).toList ++ c.packetsUnder path N' =
          c.packetsUnder path N ∧
        (Network.arrived N N' c.source c.replies).toList ++ c.repliesUnder back N' =
          c.repliesUnder back N) := by
  have hother : ∀ v g, op = .enqueueHighPrio v g ∨ op = .sendData v g →
      g.stream ≠ c.packets ∧ g.stream ≠ c.replies := by
    have hnot : ∀ {g}, ¬ c.Shares g → g.stream ≠ c.packets ∧ g.stream ≠ c.replies := fun hg =>
      ⟨fun h => hg (shares_of_packets h).2.2, fun h => hg (shares_of_replies h).2.2⟩
    rintro v g (rfl | rfl)
    · exact hnot hforeign
    · exact hnot hforeign
  obtain ⟨hpackets, hsent, hsub, hkeep⟩ := Network.under_step hled.wayThere hN.packets hled.packets
    (fun v g hop => (hother v g hop).1) hstep
  obtain ⟨hreplies, hsent', hsub', hkeep'⟩ := Network.under_step hled.wayBack hN.replies
    hled.replies (fun v g hop => (hother v g hop).2) hstep
  exact ⟨⟨hpackets, hreplies⟩, hsent, hsent', hsub, hsub', fun hk => ⟨hkeep hk, hkeep' hk⟩⟩

end Ways

end NetworkFlow

end HpccSim
