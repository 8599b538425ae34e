import HpccSim.NetworkFlow
import HpccSim.OrderlyConnection

/-!
# A flow over the network is a connection

The flow is seen as a `Connection` whose packets under way are those on their way in the network.
As they keep their order, the connection is an orderly one, so that what holds of connections in
general holds of the flow.

## Main definitions

* `NetworkFlow.connection`: the flow as a connection.
* `NetworkFlow.Refines`: what an event is for the connection.

## Main results

* `NetworkFlow.refines_step`: an event of the network is some actions of the connection.
* `NetworkFlow.exactly_once`: the flow is an orderly connection, and its bytes are taken in once.
* `NetworkFlow.sent_once`: if nothing is lost, each packet is sent once and there is no NACK.
-/

namespace HpccSim

namespace NetworkFlow

variable {Node : Type} [DecidableEq Node]

/-! ### One event -/

section Refinement

variable (c : NetworkFlow Node) (s : State Node) (path back : List Node)

/-- The flow as a connection. -/
def connection : Connection where
  now := s.now
  qp := s.qp
  live := s.live
  completions := s.completions
  rxQp := s.rxQp
  data := (c.packetsUnder path s.network).map toData
  acks := (c.repliesUnder back s.network).map toAck
  accepted := s.accepted

variable {c s path back} {t : State Node} {g : Datagram} {op : Op Node} {lossy : Prop}

variable (c path back) in
/-- What an event is for the connection: the sender sends a packet, or the network, time and the
congestion control act. -/
inductive Refines (lossy : Prop) (s t : State Node) : Prop
  | send (hsend : Connection.step c.hw (c.connection s path back) .send =
        some (c.connection t path back))
      (hpackets : c.sentPackets t.network =
        c.sentPackets s.network ++ [c.packet (c.hw.getNxtPacket s.qp).1])
      (hreplies : c.sentReplies t.network = c.sentReplies s.network)
  | outside {new : List Datagram}
      (hreach : Run.Reach (Connection.step c.hw) (fun _ a => a.Outside lossy)
        (c.connection s path back) (c.connection t path back))
      (hpackets : c.sentPackets t.network = c.sentPackets s.network)
      (hreplies : c.sentReplies t.network = c.sentReplies s.network ++ new)
      (hnew : new.Sublist (c.repliesUnder back t.network))

theorem refines_send (hled : c.Led path back s.network) (hs : c.Tracked path back s.network)
    (hstep : c.step s .send = some t) :
    c.Tracked path back t.network ∧ c.Refines path back lossy s t := by
  rw [step] at hstep
  split_ifs at hstep with hel
  obtain ⟨N', hN', rfl⟩ := Option.map_eq_some_iff.1 hstep
  obtain ⟨htracked, hsent, hsent', hunder, hunder'⟩ := send_packet hled hs hN'
  refine ⟨htracked, .send ?_ hsent hsent'⟩
  rw [Connection.step, if_pos (show (c.connection s path back).qp.isEligible = true from hel)]
  dsimp only [connection]
  rw [hunder, hunder', List.map_append]
  rfl

/-- A packet arrives, and the reply to it is queued. -/
theorem refines_receiveUdp (hled : c.Led path back s.network) (hs : c.Tracked path back s.network)
    {C : Connection} (hC : C = { c.connection s path back with
      data := toData g :: (c.packetsUnder path s.network).map toData })
    (hstep : c.receiveUdp s g = some t) :
    c.Tracked path back t.network ∧ c.sentPackets t.network = c.sentPackets s.network ∧
      (∃ new, c.sentReplies t.network = c.sentReplies s.network ++ new ∧
        new.Sublist (c.repliesUnder back t.network)) ∧
      Connection.step c.hw C (.dataArrives 0 false) = some (c.connection t path back) := by
  rw [receiveUdp] at hstep
  simp only [Option.bind_eq_bind, Option.bind_eq_some_iff] at hstep
  obtain ⟨⟨v, q⟩, hq, N', hN', ht⟩ := hstep
  cases ht
  have hqueued : c.Tracked path back N' ∧ c.sentPackets N' = c.sentPackets s.network ∧
      c.sentReplies N' = c.sentReplies s.network ++ (RdmaHw.reply q v).map c.reply ∧
      c.packetsUnder path N' = c.packetsUnder path s.network ∧
      c.repliesUnder back N' =
        c.repliesUnder back s.network ++ (RdmaHw.reply q v).map c.reply := by
    have hreply : RdmaHw.reply q v = [] ∨ ∃ ch, RdmaHw.reply q v = [ch] := by
      cases v <;> simp [RdmaHw.reply]
    rcases hreply with hnone | ⟨ch, hone⟩
    · rw [hnone] at hN' ⊢
      cases hN'
      simpa using hs
    · rw [hone] at hN' ⊢
      rw [List.foldlM_cons, Option.bind_eq_bind, Option.bind_eq_some_iff] at hN'
      obtain ⟨M, hM, hN'⟩ := hN'
      cases hN'
      exact send_reply hled hs hM
  obtain ⟨htracked, hsent, hsent', hunder, hunder'⟩ := hqueued
  refine ⟨htracked, hsent, ⟨_, hsent', ?_⟩, ?_⟩
  · rw [hunder']
    exact List.sublist_append_right _ _
  · have hback : ((RdmaHw.reply q v).map c.reply).map toAck = RdmaHw.reply q v := by
      rw [List.map_map]
      exact List.map_id'' toAck_reply _
    subst hC
    simp only [Connection.step, connection, List.getElem?_cons_zero, Option.bind_eq_bind,
      Option.bind_some, hq, hunder, hunder', List.map_append, hback]
    rfl

variable (path back) in
/-- A reply arrives. -/
theorem refines_receiveAck {C : Connection} (hC : C = { c.connection s path back with
      acks := toAck g :: (c.repliesUnder back s.network).map toAck })
    (hstep : c.receiveAck s g = some t) :
    t.network = s.network ∧
      Connection.step c.hw C (.ackArrives 0 false) = some (c.connection t path back) := by
  subst hC
  rw [receiveAck] at hstep
  split_ifs at hstep with hlive
  · obtain ⟨⟨qp, done⟩, hqp, rfl⟩ := Option.map_eq_some_iff.1 hstep
    have hnetwork : (if done then ({ s with qp := qp } : State Node).complete
        else { s with qp := qp }).network = s.network := by
      split_ifs <;> rfl
    refine ⟨hnetwork, ?_⟩
    simp only [Connection.step, connection, List.getElem?_cons_zero, Option.bind_eq_bind,
      Option.bind_some, hlive, if_true, hqp]
    cases done <;> rfl
  · cases hstep
    refine ⟨rfl, ?_⟩
    simp only [Connection.step, connection, List.getElem?_cons_zero, Option.bind_eq_bind,
      Option.bind_some, hlive]
    rfl

theorem refines_network (hconn : c.Connects path back) (hled : c.Led path back s.network)
    (hs : c.Tracked path back s.network) (hours : c.Ours s.network) {op : Network.Op Node}
    (hkeeps : ¬ lossy → Network.LinksUp s.network ∧ op.Lossless ∧
      ∀ v, Switch.NothingLost (t.network.switch v).trace)
    (hstep : c.step s (.network op) = some t) :
    c.Tracked path back t.network ∧ c.Refines path back lossy s t := by
  rw [step] at hstep
  split_ifs at hstep with hforeign
  obtain ⟨N', hN', hreceive⟩ := Option.bind_eq_some_iff.1 hstep
  obtain ⟨htracked, hsent, hsent', hsub, hsub', hkeep⟩ := foreign_step hled hs hforeign hN'
  have hsame : ¬ lossy → Network.Keeps s.network N' op := fun hlossy => by
    obtain ⟨hup, hop, hlost⟩ := hkeeps hlossy
    obtain ⟨run, hrun, -⟩ := network_receive hreceive
    refine ⟨nothingLost_of_exec hrun hlost, hup, ?_, ?_⟩
    · rintro a b rfl
      exact hop
    · rintro v d rfl
      cases hop
  -- what does not arrive is lost first
  have hlose := Connection.reach_drop c.hw (s := c.connection s path back) 
    (hsub.map toData) (hsub'.map toAck) fun hlossy =>
      ⟨congrArg (List.map toData) (hkeep (hsame hlossy)).1,
        congrArg (List.map toAck) (hkeep (hsame hlossy)).2⟩
  obtain ⟨hdata, hack⟩ := hours.filter_latest hconn.source.2.2 hconn.dest.2.2 hN'
  rw [receive, hdata, hack] at hreceive
  cases hpacket : Network.arrived s.network N' c.dest c.packets with
  | some g =>
    obtain ⟨-, hroutes, hother⟩ := Network.arrived_unique hN' hpacket
    rw [hpacket, hother c.source c.replies hconn.ne] at hlose
    rw [hpacket] at hreceive
    obtain ⟨ht, hpackets, ⟨new, hreplies, hnew⟩, harrives⟩ :=
      refines_receiveUdp (s := { s with network := N' }) (hled.congr hroutes) htracked rfl hreceive
    have hreach := hlose.trans (.single Connection.Act.outside_dataArrives harrives)
    exact ⟨ht, .outside hreach (hpackets.trans hsent)
      (hreplies.trans (congrArg (· ++ new) hsent')) hnew⟩
  | none =>
    rw [hpacket] at hlose hreceive
    cases hreply : Network.arrived s.network N' c.source c.replies with
    | some g =>
      rw [hreply] at hlose hreceive
      obtain ⟨ht, harrives⟩ :=
        refines_receiveAck path back (s := { s with network := N' }) rfl hreceive
      have hreach := hlose.trans (.single Connection.Act.outside_ackArrives harrives)
      refine ⟨ht ▸ htracked, .outside hreach ?_ ?_ (List.nil_sublist _)⟩
      · rw [ht, ← hsent]
      · rw [ht, List.append_nil, ← hsent']
    | none =>
      rw [hreply] at hlose hreceive
      cases hreceive
      exact ⟨htracked, .outside hlose hsent (by rw [List.append_nil, ← hsent'])
        (List.nil_sublist _)⟩

/-- **An event of the network is some actions of the connection.** -/
theorem refines_step (hconn : c.Connects path back) (hkept : c.Unmoved path back s.network)
    (hs : c.Tracked path back s.network) (hours : c.Ours s.network)
    (hkeeps : ¬ lossy → Network.LinksUp s.network ∧ op.Lossless ∧
      ∀ v, Switch.NothingLost (t.network.switch v).trace)
    (hstep : c.step s op = some t) :
    c.Tracked path back t.network ∧ c.Refines path back lossy s t := by
  have hled := hconn.led hkept
  cases op with
  | send => exact refines_send hled hs hstep
  | network op => exact refines_network hconn hled hs hours hkeeps hstep
  | tick dt =>
    cases hstep
    exact ⟨hs, .outside (.single (a := .tick dt) ⟨trivial, fun h => by cases h⟩ rfl) rfl
      (List.append_nil _).symm (List.nil_sublist _)⟩
  | setRate rate =>
    cases hstep
    exact ⟨hs, .outside (.single (a := .setRate rate) ⟨trivial, fun h => by cases h⟩ rfl) rfl
      (List.append_nil _).symm (List.nil_sublist _)⟩

/-! ### Runs -/

theorem connection_init :
    c.connection c.init path back = Connection.init c.hw c.bps c.flow := by
  rw [connection, packetsUnder, repliesUnder, Network.under, Network.under, init,
    Network.content_init, Network.content_init]
  rfl

theorem tracked_init : c.Tracked path back c.init.network where
  packets := (Network.inOrder_init (a := c.source)).toOnWay
  replies := (Network.inOrder_init (a := c.dest)).toOnWay

/-- **The bytes of a flow are taken in once.** Take a run in which the flow shares the network with
any other traffic that is not looked up to its state, in which packets are refused, corrupted and
thrown away, and in which links are taken down as long as the nodes on both ways keep the output
devices of the flow. It is a run of a connection over a network that may lose packets, but keeps
their order and duplicates none. Until
`QpComplete` is called the receiver has taken in the bytes up to the one it expects, each once; and
when it is called, the receiver has taken in the whole flow, each byte once. -/
theorem exactly_once (hconn : c.Connects path back) {ops : List (Op Node)}
    (hrun : Run.exec c.step c.init ops = some s)
    (hkept : Run.Along c.step (fun s _ => c.Unmoved path back s.network) c.init ops) :
    Run.Reach (Connection.step c.hw) (fun _ a => a.Orderly True)
      (Connection.init c.hw c.bps c.flow) (c.connection s path back) ∧
    (c.hw.backto0 = false → c.flow.size.toNat < 2 ^ 32 →
      (s.completions = 0 →
        Tiling.Tiles 0 s.accepted (s.rxQp.getD .new).receiverNextExpectedSeq.toNat) ∧
      (s.completions ≠ 0 → ∃ l, l <+: s.accepted ∧ Tiling.Tiles 0 l c.flow.size.toNat)) := by
  have hsim : ∀ s op t, c.Tracked path back s.network ∧ c.Ours s.network →
      c.Unmoved path back s.network → c.step s op = some t →
      (c.Tracked path back t.network ∧ c.Ours t.network) ∧
        Run.Reach (Connection.step c.hw) (fun _ a => a.Orderly True) (c.connection s path back)
          (c.connection t path back) := by
    intro s op t hs hkept hstep
    obtain ⟨ht, hrefines⟩ := refines_step hconn hkept hs.1 hs.2 (fun h => absurd trivial h) hstep
    refine ⟨⟨ht, hs.2.step hstep⟩, ?_⟩
    cases hrefines with
    | send hsend => exact .single (a := .send) trivial hsend
    | outside hreach => exact hreach.mono fun _ _ ha => ha.1
  obtain ⟨-, hreach⟩ := Run.reach_of_exec (φ := fun s => c.connection s path back) hsim
    ⟨tracked_init, ours_init hconn.links⟩ hkept hrun
  rw [connection_init] at hreach
  refine ⟨hreach, fun hback hsize => ?_⟩
  have hinv : Connection.Delivers c.flow (c.connection s path back) :=
    hreach.invariant (.init hsize) fun _ _ _ h _ hstep => h.step hback hstep
  exact ⟨fun hopen => hinv.tiles (hinv.live.1 hopen), hinv.whole⟩

end Refinement

/-- Two packets of a flow between the hosts of `Network.crossedNetwork`. -/
def crossedFlow : NetworkFlow (Bool × Bool) where
  toNetwork := Network.crossedNetwork
  hw := { mtu := 1000, chunk := 4000, ackInterval := 1, nackInterval := 500000, backto0 := false,
          varWin := false }
  bps := 100
  flow := { size := 2000, pg := 3, sip := 0x0b000001, dip := 0x0b000101, sport := 10000,
            dport := 100, win := 0 }
  source := (false, false)
  dest := (false, true)
  headerSize := 62
  replySize := 60

theorem connects_crossed : crossedFlow.Connects [(false, false), (true, false), (false, true)]
    [(false, true), (true, false), (false, false)] where
  links := Network.links_crossed
  source := by decide
  dest := by decide
  ne := by decide
  routeThere := ⟨2, by decide +kernel⟩
  routeBack := ⟨2, by decide +kernel⟩

/-- A link is taken down, and of the two packets the second is corrupted. -/
def lossyRun : List (Op (Bool × Bool)) :=
  [.network (.takeDownLink (true, true) (false, true)), .send, .send,
    .network (.receive (false, false) 1 false), .network (.receive (false, false) 1 true),
    .network (.receive (true, false) 2 false)]

/-- The two packets and their ACKs. -/
def smoothRun : List (Op (Bool × Bool)) :=
  [.send, .send, .network (.receive (false, false) 1 false),
    .network (.receive (false, false) 1 false), .network (.receive (true, false) 2 false),
    .network (.sendHighPrio (false, true) 1), .network (.transmitComplete (true, false) 2),
    .network (.receive (true, false) 2 false), .network (.sendHighPrio (false, true) 1),
    .network (.receive (false, true) 1 false), .network (.receive (true, false) 1 false),
    .network (.receive (false, true) 1 false), .network (.transmitComplete (true, false) 1),
    .network (.receive (true, false) 1 false)]

/-- The run with losses, and the other one up to `QpComplete`. -/
theorem exactly_once_crossed :
    (∃ s, Run.exec crossedFlow.step crossedFlow.init lossyRun = some s ∧
      s.accepted = [(0, 1000)] ∧ Tiling.Tiles 0 s.accepted 1000) ∧
    ∃ s, Run.exec crossedFlow.step crossedFlow.init smoothRun = some s ∧
      s.completions = 1 ∧ ∃ l, l <+: s.accepted ∧ Tiling.Tiles 0 l 2000 := by
  have hkept : ∀ ops ∈ [lossyRun, smoothRun], Run.Along crossedFlow.step
      (fun s _ => crossedFlow.Unmoved [(false, false), (true, false), (false, true)]
        [(false, true), (true, false), (false, false)] s.network) crossedFlow.init ops := by
    decide +kernel
  have honce := fun ops hops s hrun =>
    (exactly_once (s := s) connects_crossed hrun (hkept ops hops)).2 rfl (by decide)
  constructor
  · have hall : (Run.exec crossedFlow.step crossedFlow.init lossyRun).map (fun s =>
        (s.accepted, s.completions, (s.rxQp.getD .new).receiverNextExpectedSeq)) =
          some ([(0, 1000)], 0, 1000) := by decide +kernel
    obtain ⟨s, hrun, hs⟩ := Option.map_eq_some_iff.1 hall
    rw [Prod.mk.injEq, Prod.mk.injEq] at hs
    obtain ⟨haccepted, hopen, hexpected⟩ := hs
    have htiles := (honce lossyRun (by simp) s hrun).1 hopen
    rw [hexpected] at htiles
    exact ⟨s, hrun, haccepted, htiles⟩
  · have hall : (Run.exec crossedFlow.step crossedFlow.init smoothRun).map
        (fun s => s.completions) = some 1 := by decide +kernel
    obtain ⟨s, hrun, hdone⟩ := Option.map_eq_some_iff.1 hall
    exact ⟨s, hrun, hdone, (honce smoothRun (by simp) s hrun).2 (by rw [hdone]; decide)⟩

section Lossless

variable {c : NetworkFlow Node} {s t : State Node}
  {path back : List Node}

variable (c s path back) in
/-- `m` packets have been sent, `n` of them have been taken in, and there was no NACK. -/
structure Steady (n m : ℕ) : Prop
    extends Connection.Smooth c.hw c.bps c.flow n m (c.connection s path back) where
  sent : (c.sentPackets s.network).map (fun g => (g.seq.toNat, g.payload.toNat)) =
    (List.range m).map (Connection.packetRange c.hw c.flow)
  noNack : ∀ g ∈ c.sentReplies s.network, g.kind ≠ .nack

variable (c path back) in
/-- No link has been taken down. -/
structure Undisturbed (s : State Node) : Prop where
  tracked : c.Tracked path back s.network
  ours : c.Ours s.network
  linksUp : Network.LinksUp s.network
  routes : s.network.routes = c.toNetwork.init.routes

theorem Undisturbed.init (hconn : c.Connects path back) : c.Undisturbed path back c.init where
  tracked := tracked_init
  ours := ours_init hconn.links
  linksUp _ _ := ⟨rfl, rfl⟩
  routes := rfl

/-- As the tables are those of the start, the ways are too. -/
theorem Undisturbed.unmoved (h : c.Undisturbed path back s) : c.Unmoved path back s.network :=
  ⟨fun _ _ _ => by rw [h.routes], fun _ _ _ => by rw [h.routes]⟩

theorem Undisturbed.step (h : c.Undisturbed path back s) (hconn : c.Connects path back)
    {op : Op Node} (hop : op.Lossless) (hstep : c.step s op = some t) :
    c.Undisturbed path back t where
  tracked := (refines_step hconn h.unmoved h.tracked h.ours
    (fun (h : ¬ True) => absurd trivial h) hstep).1
  ours := h.ours.step hstep
  linksUp := linksUp_step h.linksUp hop hstep
  routes := (routes_step hop hstep).trans h.routes

theorem Steady.refines (hpos : 0 < c.flow.size.toNat) (hsize : c.flow.size.toNat < 2 ^ 32)
    (hint : c.hw.ackInterval ≠ 0) (hmtu : c.hw.mtu ≠ 0) {n m : ℕ} (hs : c.Steady s path back n m)
    (hrefines : c.Refines path back False s t) : ∃ n' m', c.Steady t path back n' m' := by
  cases hrefines with
  | send hsend hpackets hreplies =>
    obtain ⟨ht, hrange⟩ := hs.toSmooth.send hsize hmtu hsend
    refine ⟨n, m + 1, ht, ?_, hreplies ▸ hs.noNack⟩
    rw [hpackets, List.map_append, hs.sent, List.range_succ, List.map_append]
    exact congrArg (fun r => _ ++ [r]) hrange
  | @outside new hreach hpackets hreplies hnew =>
    obtain ⟨n', ht⟩ := hs.toSmooth.reach hpos hsize hint hreach
    refine ⟨n', m, ht, hpackets ▸ hs.sent, fun g hg hkind => ?_⟩
    rw [hreplies] at hg
    rcases List.mem_append.1 hg with hg | hg
    · exact hs.noNack g hg hkind
    · have hplain := ht.plain (toAck g) (List.mem_map_of_mem (hnew.subset hg))
      rw [toAck, decide_eq_false_iff_not] at hplain
      exact hplain hkind

theorem exists_steady (hconn : c.Connects path back) (hpos : 0 < c.flow.size.toNat)
    (hsize : c.flow.size.toNat < 2 ^ 32) (hint : c.hw.ackInterval ≠ 0) (hmtu : c.hw.mtu ≠ 0)
    {ops : List (Op Node)} (hrun : Run.exec c.step c.init ops = some s)
    (hops : ∀ op ∈ ops, op.Lossless)
    (hlost : ∀ v, Switch.NothingLost (s.network.switch v).trace) :
    ∃ n m, c.Steady s path back n m := by
  have hinv : c.Undisturbed path back s ∧
      ((∀ v, Switch.NothingLost (s.network.switch v).trace) →
        ∃ n m, c.Steady s path back n m) := by
    refine Run.exec_induction (I := fun s => c.Undisturbed path back s ∧
        ((∀ v, Switch.NothingLost (s.network.switch v).trace) → ∃ n m, c.Steady s path back n m))
      (C := fun _ op => op.Lossless) ?_ ?_ (Run.along_of_forall (fun _ => hops) _) hrun
    · rintro s op t ⟨hs, hsteady⟩ hop hstep
      obtain ⟨run, hnetwork, -⟩ := network_step hstep
      refine ⟨hs.step hconn hop hstep, fun hlost => ?_⟩
      obtain ⟨n, m, hnm⟩ := hsteady (nothingLost_of_exec hnetwork hlost)
      exact hnm.refines hpos hsize hint hmtu (refines_step hconn hs.unmoved hs.tracked hs.ours
        (fun _ => ⟨hs.linksUp, hop, hlost⟩) hstep).2
    · refine ⟨.init hconn, fun _ => ⟨0, 0, ?_, rfl, List.forall_mem_nil _⟩⟩
      rw [connection_init]
      exact Connection.Smooth.init hpos
  exact hinv.2 hlost

/-- **Without loss nothing is sent twice.** In a run in which no switch refuses a packet, no packet
is corrupted and no link is taken down, the sender sends each packet of the flow once and in order,
the receiver takes in the first ones of them in this order, and no NACK is sent. -/
theorem sent_once (hconn : c.Connects path back) (hpos : 0 < c.flow.size.toNat)
    (hsize : c.flow.size.toNat < 2 ^ 32) (hint : c.hw.ackInterval ≠ 0) (hmtu : c.hw.mtu ≠ 0)
    {ops : List (Op Node)} (hrun : Run.exec c.step c.init ops = some s)
    (hops : ∀ op ∈ ops, op.Lossless)
    (hlost : ∀ v, Switch.NothingLost (s.network.switch v).trace) :
    ∃ n m, n ≤ m ∧
      (c.sentPackets s.network).map (fun g => (g.seq.toNat, g.payload.toNat)) =
        (List.range m).map (Connection.packetRange c.hw c.flow) ∧
      s.accepted = (List.range n).map (Connection.packetRange c.hw c.flow) ∧
      ∀ g ∈ c.sentReplies s.network, g.kind ≠ .nack := by
  obtain ⟨n, m, hnm⟩ := exists_steady hconn hpos hsize hint hmtu hrun hops hlost
  exact ⟨n, m, hnm.le, hnm.sent, hnm.accepted, hnm.noNack⟩

end Lossless

theorem sent_once_crossed :
    ∃ s, Run.exec crossedFlow.step crossedFlow.init smoothRun = some s ∧ s.completions = 1 ∧
      ∃ n m, n ≤ m ∧
        (crossedFlow.sentPackets s.network).map (fun g => (g.seq.toNat, g.payload.toNat)) =
          (List.range m).map (Connection.packetRange crossedFlow.hw crossedFlow.flow) ∧
        s.accepted = (List.range n).map (Connection.packetRange crossedFlow.hw crossedFlow.flow) ∧
        ∀ g ∈ crossedFlow.sentReplies s.network, g.kind ≠ .nack := by
  have hall : (Run.exec crossedFlow.step crossedFlow.init smoothRun).map (fun s =>
      (s.completions, decide (∀ v, Switch.NothingLost (s.network.switch v).trace))) =
        some (1, true) := by decide +kernel
  obtain ⟨s, hrun, hs⟩ := Option.map_eq_some_iff.1 hall
  rw [Prod.mk.injEq] at hs
  obtain ⟨hdone, hlost⟩ := hs
  refine ⟨s, hrun, hdone, sent_once connects_crossed (by decide) (by decide) (by decide) (by decide)
    hrun ?_ (of_decide_eq_true hlost)⟩
  simp [smoothRun, Op.Lossless, Network.Op.Lossless]

end NetworkFlow

end HpccSim
