import HpccSim.Network
import HpccSim.Lib.Pipeline
import Mathlib.Data.Fintype.Prod

/-!
# Packets of a stream arrive in order

All packets of a stream take the same way: the hash of a switch depends on the addresses and ports
only. On their way they are in one class of each node, and classes and wires are first in, first
out. So they arrive in the order in which they were sent, however the events of the nodes
interleave, and as long as the tables lead them the same way.

## Main definitions

* `Network.Way`: the way of a stream through the network.
* `Network.progress`, `Network.sent`: the packets of the stream on the way, and those sent.
* `Network.Kept`, `Network.Unmoved`: the tables have not changed where the stream goes.

## Main results

* `Network.inOrder_step`: every event keeps the order.
* `Network.streams_in_order`: streams are delivered in order in every run, and completely if no
  packet is lost.
-/

namespace HpccSim

namespace Network

open Routing Switch

variable {Node : Type} [DecidableEq Node] (c : Network Node) (N : State Node)

/-! ### The way of a stream -/

section Order

variable (f : Stream) (out : Node → ℕ) (a h : Node) (path : List Node)

/-- The stream goes from the host `a` to the host `h` by the devices `out`, through switches and
without loops. -/
structure Way : Prop where
  source : a ∈ c.topology.n ∧ c.topology.nodeType a = .host ∧ c.topology.address a = f.flow.sip
  dest : c.topology.nodeType h = .host
  ne : a ≠ h
  head : path.head? = some a
  last : path.getLast? = some h
  nodup : path.Nodup
  hop : ∀ before v w after, path = before ++ v :: w :: after → c.topology.channel v (out v) = some w
  through : ∀ u ∈ path.tail, u = h ∨ c.topology.nodeType u = .switch

/-- The tables lead the stream by the devices `out`. -/
def Kept : Prop := ∀ v ∈ path, v ≠ h → c.outDev N.routes f v = some (out v)

/-- The nodes on the way send the stream by the devices by which they have sent it at the start. -/
def Unmoved : Prop :=
  ∀ v ∈ path, v ≠ h → c.outDev N.routes f v = c.outDev c.init.routes f v

instance : Decidable (c.Unmoved N f h path) := by
  unfold Unmoved
  infer_instance

/-- The packets of the stream that are at a node, or have been delivered there. -/
def progress (v : Node) : List Datagram :=
  if v = h then (N.delivered h).filter (fun g => g.stream = f)
  else (c.laneAt N f out v).filterMap Parcel.datagram

/-- The packets of the stream that have been sent. -/
def sent : List Datagram := (N.emitted a).filter fun g => g.stream = f

/-- The packets of the stream are on their way only, in one class of each node and on wires. -/
structure OnWay : Prop where
  prio : ∀ v, (N.switch v).ackHighPrio = (c.config v).ackHighPrio
  ackQueue : ∀ v, c.topology.nodeType v = .host → ∀ d, ∀ x ∈ N.parcels v (.queue d 0),
    holds f x = true → f.isAck = true
  confined : ∀ v, c.ConfinedAt N f out v
  off : ∀ v, v ∉ path ∨ v = h → c.laneAt N f out v = []

/-- From `N` to `N'` some packets are sent, and those on the way and delivered are what they were,
less those that are lost. Nothing is lost under the condition `Keeps`. -/
def Proceeds (Keeps : Prop) (N N' : State Node) : Prop :=
  ∃ new, sent N' f a = sent N f a ++ new ∧
    (Pipeline.content (c.progress N' f out h) path).Sublist
      (Pipeline.content (c.progress N f out h) path ++ new) ∧
    (Keeps → Pipeline.content (c.progress N' f out h) path =
      Pipeline.content (c.progress N f out h) path ++ new)

variable {c N f out a h path} {N' : State Node} {u v : Node} {d : ℕ} {x : Parcel} {g : Datagram}

omit [DecidableEq Node] in
/-- A node on the way that is not the last has a successor. -/
theorem Way.exists_next (hway : c.Way f out a h path) (hv : v ∈ path) (hne : v ≠ h) :
    ∃ before w after, path = before ++ v :: w :: after := by
  obtain ⟨before, after, rfl⟩ := List.append_of_mem hv
  cases after with
  | nil =>
    have hlast := hway.last
    rw [List.getLast?_append, List.getLast?_singleton] at hlast
    exact absurd (Option.some.inj hlast) hne
  | cons w after => exact ⟨before, w, after, rfl⟩

theorem progress_congr (hdelivered : N'.delivered = N.delivered)
    (hlane : c.laneAt N' f out v = c.laneAt N f out v) :
    c.progress N' f out h v = c.progress N f out h v := by
  rw [progress, progress, hdelivered, hlane]

theorem progress_sublist (hdelivered : N'.delivered = N.delivered)
    (hlane : (c.laneAt N' f out v).Sublist (c.laneAt N f out v)) :
    (c.progress N' f out h v).Sublist (c.progress N f out h v) := by
  rw [progress, progress, hdelivered]
  split_ifs
  · exact List.Sublist.refl _
  · exact hlane.filterMap _

/-- Nothing happens to the stream. -/
theorem Proceeds.of_eq {Keeps : Prop} (hemitted : N'.emitted = N.emitted)
    (hprogress : ∀ w ∈ path, c.progress N' f out h w = c.progress N f out h w) :
    c.Proceeds f out a h path Keeps N N' := by
  have hcontent := Pipeline.content_congr hprogress
  refine ⟨[], by rw [sent, sent, hemitted, List.append_nil], ?_, fun _ => ?_⟩
  · rw [hcontent, List.append_nil]
  · rw [hcontent, List.append_nil]

/-- Packets are lost. -/
theorem Proceeds.of_sublist {Keeps : Prop} (hemitted : N'.emitted = N.emitted)
    (hprogress : ∀ w, (c.progress N' f out h w).Sublist (c.progress N f out h w))
    (hkeeps : ¬ Keeps) : c.Proceeds f out a h path Keeps N N' := by
  refine ⟨[], by rw [sent, sent, hemitted, List.append_nil], ?_, fun hk => absurd hk hkeeps⟩
  rw [List.append_nil]
  exact Pipeline.content_sublist fun w _ => hprogress w

/-- A packet of the stream moves on to the next node. -/
theorem Proceeds.of_advance {Keeps : Prop} (hway : c.Way f out a h path) {before after : List Node}
    {w : Node} (hpath : path = before ++ v :: w :: after) (hemitted : N'.emitted = N.emitted)
    (hv : c.progress N f out h v = g :: c.progress N' f out h v)
    (hw : c.progress N' f out h w = c.progress N f out h w ++ [g])
    (hrest : ∀ u, u ≠ v → u ≠ w → c.progress N' f out h u = c.progress N f out h u) :
    c.Proceeds f out a h path Keeps N N' := by
  have hcontent := Pipeline.content_advance (hpath ▸ hway.nodup) hv hw hrest
  rw [← hpath] at hcontent
  refine ⟨[], by rw [sent, sent, hemitted, List.append_nil], ?_, fun _ => ?_⟩
  · rw [hcontent, List.append_nil]
  · rw [hcontent, List.append_nil]

/-! ### Hosts -/

/-- What a packet that a host sends does to the lanes. -/
theorem laneAt_emit (hinv : c.OnWay N f out h path) (hhost : c.topology.nodeType v = .host)
    {k : Slot} (hd : g.stream = f → d = out v)
    (hk : k = .queue d 0 ∧ g.kind.isAck = true ∨ k = .wire d ∧ g.kind.isAck = false) :
    c.ConfinedAt (N.emit v k g) f out v ∧ c.laneAt (N.emit v k g) f out v =
      if g.stream = f then c.laneAt N f out v ++ [g.parcel] else c.laneAt N f out v := by
  have hparcels : (N.emit v k g).parcels v =
      Function.update (N.parcels v) k (N.parcels v k ++ [g.parcel]) := parcels_setSlot_self
  have hclass : c.classOf f v = 0 := by rw [classOf, hhost]
  rw [ConfinedAt, laneAt, laneAt, hparcels]
  have hconf := hinv.confined v
  rw [ConfinedAt, hclass] at hconf
  rw [hclass]
  by_cases hg : g.stream = f
  · have hholds : holds f g.parcel = true := by rw [holds_parcel, hg]; simp
    obtain rfl := hd hg
    rw [if_pos hg]
    rcases hk with ⟨rfl, -⟩ | ⟨rfl, hdata⟩
    · exact ⟨hconf.update fun _ hqueue => absurd rfl hqueue, lane_push hholds⟩
    · refine ⟨hconf.update fun hwire => absurd rfl hwire, lane_wire (fun b hb => ?_) hholds⟩
      -- there is no data in the queue of acknowledgements
      have hno : f.isAck ≠ true := by
        rw [← hg]
        simp [Datagram.stream, hdata]
      exact Bool.eq_false_iff.2 fun hb' => hno (hinv.ackQueue v hhost _ b hb hb')
  · have hholds : holds f g.parcel = false := by rw [holds_parcel]; simp [hg]
    rw [if_neg hg]
    refine ⟨hconf.update fun hwire hqueue b hb => ?_, lane_append_of_not hholds⟩
    rcases List.mem_append.1 hb with hb | hb
    · exact hconf k hwire hqueue b hb
    · rw [List.mem_singleton.1 hb, hholds]

/-- A packet of the stream is sent by its source. -/
theorem sent_emit {k : Slot} (hself : g.stream = f → v = a) :
    sent (N.emit v k g) f a = sent N f a ++ if g.stream = f then [g] else [] := by
  rw [sent, sent, State.emit]
  dsimp only
  rw [Function.update_apply]
  split_ifs with hav hg hg
  · simp [hav, hg]
  · simp [hav, hg]
  · exact absurd (hself hg).symm hav
  · rw [List.append_nil]

/-- **A host sends a packet.** -/
theorem onWay_emit (hway : c.Way f out a h path) (hinv : c.OnWay N f out h path)
    (hkept : c.Kept N f out h path) {Keeps : Prop} {k : Slot} (hsource : c.IsSource v g)
    (hout : c.outDev N.routes g.stream v = some d)
    (hk : k = .queue d 0 ∧ g.kind.isAck = true ∨ k = .wire d ∧ g.kind.isAck = false) :
    c.OnWay (N.emit v k g) f out h path ∧ c.Proceeds f out a h path Keeps N (N.emit v k g) := by
  have hother : ∀ w, w ≠ v → (N.emit v k g).parcels w = N.parcels w := fun w hw =>
    parcels_setSlot_of_ne hw
  have hself : g.stream = f → v = a := fun hg => c.topology.address_inj v hsource.1 a hway.source.1
    hsource.2.1 hway.source.2.1 (by rw [hsource.2.2, hway.source.2.2, ← hg]; rfl)
  have hmem : a ∈ path := List.mem_of_mem_head? hway.head
  have hd : g.stream = f → d = out v := fun hg => by
    obtain rfl := hself hg
    rw [hg, hkept v hmem hway.ne] at hout
    exact (Option.some.inj hout).symm
  obtain ⟨hconf, hlane⟩ := laneAt_emit hinv hsource.2.1 hd hk
  have hemitted := sent_emit (N := N) (k := k) hself
  refine ⟨⟨hinv.prio, fun w hw d' y hy hyf => ?_, fun w => ?_, fun w hw => ?_⟩, ?_⟩
  · by_cases hwv : w = v
    · subst hwv
      rw [show (N.emit w k g).parcels w = _ from parcels_setSlot_self, Function.update_apply] at hy
      split_ifs at hy with heq
      · rcases List.mem_append.1 hy with hy | hy
        · exact hinv.ackQueue w hw d' y (heq ▸ hy) hyf
        · rw [List.mem_singleton.1 hy, holds_parcel, decide_eq_true_iff] at hyf
          rcases hk with ⟨-, hack⟩ | ⟨rfl, -⟩
          · rw [← hyf, Datagram.stream, hack]
          · cases heq
      · exact hinv.ackQueue w hw d' y hy hyf
    · rw [hother w hwv] at hy
      exact hinv.ackQueue w hw d' y hy hyf
  · by_cases hwv : w = v
    · exact hwv ▸ hconf
    · exact confinedAt_congr (hother w hwv) (hinv.confined w)
  · by_cases hwv : w = v
    · subst hwv
      rw [hlane, if_neg, hinv.off w hw]
      intro hg
      rcases hw with hw | hw
      · exact hw (hself hg ▸ hmem)
      · exact hway.ne ((hself hg).symm.trans hw)
    · rw [laneAt_congr (hother w hwv), hinv.off w hw]
  · have hrest : ∀ w, (w = v → g.stream ≠ f) →
        c.progress (N.emit v k g) f out h w = c.progress N f out h w := by
      intro w hw
      refine progress_congr rfl ?_
      by_cases hwv : w = v
      · rw [hwv, hlane, if_neg (hw hwv)]
      · exact laneAt_congr (hother w hwv)
    by_cases hg : g.stream = f
    · obtain rfl := hself hg
      obtain ⟨rest, rfl⟩ := List.head?_eq_some_iff.1 hway.head
      have hlast : c.progress (N.emit v k g) f out h v = c.progress N f out h v ++ [g] := by
        rw [progress, progress, if_neg hway.ne, if_neg hway.ne, hlane, if_pos hg,
          List.filterMap_append]
        rfl
      have hcontent := Pipeline.content_enter (List.nodup_cons.1 hway.nodup).1 hlast
        fun w hw => hrest w fun heq => absurd heq hw
      rw [if_pos hg] at hemitted
      exact ⟨[g], hemitted, by rw [hcontent], fun _ => hcontent⟩
    · rw [if_neg hg] at hemitted
      have hcontent := Pipeline.content_congr fun w (_ : w ∈ path) => hrest w fun _ => hg
      exact ⟨[], hemitted, by rw [hcontent, List.append_nil],
        fun _ => by rw [hcontent, List.append_nil]⟩

/-- The oldest acknowledgement goes on the wire. -/
theorem onWay_sendHighPrio (hinv : c.OnWay N f out h path) {Keeps : Prop}
    (hN' : N' =
      { N with parcels := Function.update N.parcels v ((Move.send d 0).apply (N.parcels v)) }) :
    c.OnWay N' f out h path ∧ c.Proceeds f out a h path Keeps N N' := by
  have hself : N'.parcels v = (Move.send d 0).apply (N.parcels v) := by
    rw [hN']
    exact Function.update_self v _ _
  have hother : ∀ w, w ≠ v → N'.parcels w = N.parcels w := fun w hw => by
    rw [hN']
    exact Function.update_of_ne hw _ _
  have hsend : ∀ m ∈ [Move.send d 0], m.Quiet (holds f) := fun m hm => by
    rw [List.mem_singleton.1 hm]
    trivial
  have hquiet := applyAll_quiet (hinv.confined v) hsend
  have hlane : ∀ w, c.laneAt N' f out w = c.laneAt N f out w := by
    intro w
    by_cases hwv : w = v
    · rw [hwv, laneAt, hself]
      exact hquiet.2
    · exact laneAt_congr (hother w hwv)
  refine ⟨⟨fun w => ?_, fun w hw d' y hy hyf => ?_, fun w => ?_, fun w hw => ?_⟩,
    Proceeds.of_eq (by rw [hN']) fun w _ => progress_congr (by rw [hN']) (hlane w)⟩
  · rw [hN']
    exact hinv.prio w
  · by_cases hwv : w = v
    · subst hwv
      rw [hself, Move.apply, Function.update_of_ne (Slot.wire_ne_queue d d' 0).symm,
        Function.update_apply] at hy
      split_ifs at hy with heq
      · exact hinv.ackQueue w hw d' y (heq ▸ List.mem_of_mem_tail hy) hyf
      · exact hinv.ackQueue w hw d' y hy hyf
    · rw [hother w hwv] at hy
      exact hinv.ackQueue w hw d' y hy hyf
  · by_cases hwv : w = v
    · rw [hwv, ConfinedAt, hself]
      exact hquiet.1
    · exact confinedAt_congr (hother w hwv) (hinv.confined w)
  · rw [hlane, hinv.off w hw]

/-! ### Wires and switches -/

theorem onWay_takeWire (hinv : c.OnWay N f out h path) {rest : List Parcel}
    (hwire : N.parcels v (.wire d) = x :: rest) : c.OnWay (N.takeWire v d) f out h path where
  prio w := by
    rw [(switch_takeWire w).1, hinv.prio]
  ackQueue w hw d' y hy hyf := by
    by_cases hwv : w = v
    · subst hwv
      rw [parcels_takeWire_self, Function.update_of_ne (Slot.wire_ne_queue d d' 0).symm] at hy
      exact hinv.ackQueue w hw d' y hy hyf
    · rw [parcels_takeWire_of_ne hwv] at hy
      exact hinv.ackQueue w hw d' y hy hyf
  confined := confinedAt_takeWire hinv.confined
  off w hw := List.sublist_nil.1 (hinv.off w hw ▸ laneAt_takeWire_sublist hinv.confined hwire w)

/-- Switches keep their priorities, and the queues of hosts are left alone. -/
theorem onWay_event (hinv : c.OnWay N f out h path) {op : Switch.Op} {r : Option Datagram}
    (hu : c.topology.nodeType u = .switch) (hevent : N.event u op r = some N')
    (hconf : ∀ w, c.ConfinedAt N' f out w)
    (hoff : ∀ w, w ∉ path ∨ w = h → c.laneAt N' f out w = []) : c.OnWay N' f out h path where
  prio w := by
    rcases switch_event hevent w with heq | ⟨-, hs⟩
    · rw [heq, hinv.prio]
    · rw [ackHighPrio_step hs, hinv.prio]
  ackQueue w hw d' y hy hyf := by
    obtain ⟨s, -, rfl⟩ := event_eq_some hevent
    have hne : w ≠ u := fun heq => by rw [heq, hu] at hw; cases hw
    dsimp only at hy
    rw [Function.update_of_ne hne] at hy
    exact hinv.ackQueue w hw d' y hy hyf
  confined := hconf
  off := hoff

/-- An event that does not meddle with the stream. -/
theorem onWay_quiet (hinv : c.OnWay N f out h path) {op : Switch.Op} {r : Option Datagram}
    (hu : c.topology.nodeType u = .switch) (hevent : N.event u op r = some N')
    (hquiet : ∀ m ∈ ((N.switch u).stepMoves op).map (Move.map (Parcel.label r)),
      m.Quiet (holds f)) :
    c.OnWay N' f out h path ∧ (∀ w, c.progress N' f out h w = c.progress N f out h w) ∧
      N'.emitted = N.emitted := by
  have hall := laneAt_event_of_quiet hinv.confined hevent hquiet
  obtain ⟨-, -, hdelivered, hemitted⟩ := event_frame hevent
  refine ⟨onWay_event hinv hu hevent (fun w => (hall w).1) fun w hw => ?_, fun w => ?_, hemitted⟩
  · rw [(hall w).2, hinv.off w hw]
  · exact progress_congr hdelivered (hall w).2

/-- A device is taken down. -/
theorem onWay_takeDown (hinv : c.OnWay N f out h path) (hdown : c.takeDown N u d = some N') :
    c.OnWay N' f out h path ∧
      (∀ w, (c.progress N' f out h w).Sublist (c.progress N f out h w)) ∧
      N'.emitted = N.emitted := by
  have hall := laneAt_takeDown hinv.confined hdown
  have hoff : ∀ w, w ∉ path ∨ w = h → c.laneAt N' f out w = [] := fun w hw =>
    List.sublist_nil.1 (hinv.off w hw ▸ (hall w).2)
  rw [takeDown] at hdown
  cases hu : c.topology.nodeType u with
  | switch =>
    rw [hu] at hdown
    obtain ⟨-, -, hdelivered, hemitted⟩ := event_frame hdown
    exact ⟨onWay_event hinv hu hdown (fun w => (hall w).1) hoff,
      fun w => progress_sublist hdelivered (hall w).2, hemitted⟩
  | host =>
    rw [hu] at hdown
    cases hdown
    refine ⟨⟨hinv.prio, fun w hw d' y hy hyf => ?_, fun w => (hall w).1, hoff⟩,
      fun w => progress_sublist rfl (hall w).2, rfl⟩
    dsimp only at hy
    by_cases hwu : w = u
    · subst hwu
      rw [parcels_setSlot_self, Function.update_apply] at hy
      split_ifs at hy with heq
      · exact absurd hy List.not_mem_nil
      · exact hinv.ackQueue w hw d' y hy hyf
    · rw [parcels_setSlot_of_ne hwu] at hy
      exact hinv.ackQueue w hw d' y hy hyf

/-- A packet of another stream is received, or a frame. -/
theorem onWay_receive_other (hinv : c.OnWay N f out h path) {e : ℕ}
    (hx : holds f x = false) (hreceive : c.receive N u e x = some N') :
    c.OnWay N' f out h path ∧ (∀ w, c.progress N' f out h w = c.progress N f out h w) ∧
      N'.emitted = N.emitted := by
  have hother : ∀ g, x.datagram = some g → g.stream ≠ f := fun g hg hgf =>
    Bool.eq_false_iff.1 hx (holds_iff.2 ⟨g, hg, hgf⟩)
  cases hu : c.topology.nodeType u with
  | host =>
    rw [receive_host hu] at hreceive
    cases hreceive
    split_ifs
    · refine ⟨⟨hinv.prio, hinv.ackQueue, hinv.confined, hinv.off⟩, fun w => ?_, rfl⟩
      rw [progress, progress]
      split_ifs with hw
      · rw [State.deliver]
        dsimp only
        rw [Function.update_apply]
        split_ifs with hh
        · rw [hh, List.filter_append]
          cases hg : x.datagram with
          | none => simp
          | some g => simp [hother g hg]
        · rfl
      · rfl
    · exact ⟨hinv, fun _ => rfl, rfl⟩
  | switch =>
    cases hg : x.datagram with
    | some g =>
      rw [receive_switch hu hg] at hreceive
      exact onWay_quiet hinv hu hreceive (quiet_receive (hother g hg) _ _ _ _)
    | none =>
      obtain ⟨pfc, hevent⟩ := receive_frame hu hg hreceive
      exact onWay_quiet hinv hu hevent
        (quiet_map_label (onlyFrames_stepMoves (fun _ _ _ _ heq => by cases heq)
          fun _ heq => by cases heq) none)

/-- The condition under which an event loses nothing. -/
def Keeps (N N' : State Node) (op : Op Node) : Prop :=
  (∀ v, NothingLost (N'.switch v).trace) ∧ LinksUp N ∧ (∀ a b, op ≠ .takeDownLink a b) ∧
    ∀ v d, op ≠ .receive v d true

/-- **A packet of the stream is received** by the next node of its way, and is delivered there or
queued behind the others, or lost. -/
theorem onWay_receive (hway : c.Way f out a h path) (hinv : c.OnWay N f out h path)
    (hkept : c.Kept N f out h path) {rest : List Parcel} {e : ℕ}
    (hwire : N.parcels v (.wire d) = x :: rest) (hx : holds f x = true)
    (hchannel : c.topology.channel v d = some u)
    (hreceive : c.receive (N.takeWire v d) u e x = some N') :
    c.OnWay N' f out h path ∧
      c.Proceeds f out a h path (Keeps N N' (.receive v d false)) N N' := by
  obtain ⟨g, hg, hgf⟩ := holds_iff.1 hx
  obtain ⟨rfl, hlane⟩ := laneAt_takeWire_of_holds (hinv.confined v) hwire hx
  have hM := onWay_takeWire hinv hwire
  have hne : c.laneAt N f out v ≠ [] := by
    rw [hlane]
    exact List.cons_ne_nil _ _
  have hvh : v ≠ h := fun heq => hne (hinv.off v (.inr heq))
  have hmem : v ∈ path := by
    by_contra hmem
    exact hne (hinv.off v (.inl hmem))
  -- it arrives where the way goes on
  obtain ⟨before, w, after, hpath⟩ := hway.exists_next hmem hvh
  obtain rfl : u = w := Option.some.inj (hchannel.symm.trans (hway.hop before v w after hpath))
  have huv : u ≠ v := by
    rintro rfl
    have hnodup := hpath ▸ hway.nodup
    exact absurd List.mem_cons_self (List.nodup_cons.1 (List.nodup_append.1 hnodup).2.1).1
  have hpop : c.progress N f out h v = g :: c.progress (N.takeWire v (out v)) f out h v := by
    rw [progress, progress, if_neg hvh, if_neg hvh, hlane, List.filterMap_cons, hg]
  have hpopRest : ∀ w, w ≠ v →
      c.progress (N.takeWire v (out v)) f out h w = c.progress N f out h w :=
    fun w hw => progress_congr rfl (laneAt_congr (parcels_takeWire_of_ne hw))
  have hpopSublist : ∀ w,
      (c.progress (N.takeWire v (out v)) f out h w).Sublist (c.progress N f out h w) := by
    intro w
    by_cases hwv : w = v
    · rw [hwv, hpop]
      exact List.sublist_cons_self _ _
    · rw [hpopRest w hwv]
  have huPath : u ∈ path.tail := by
    rw [hpath]
    cases before with
    | nil => exact List.mem_cons_self
    | cons b before =>
      exact List.mem_append_right before (List.mem_cons_of_mem v List.mem_cons_self)
  cases hu : c.topology.nodeType u with
  | host =>
    have huh : u = h := (hway.through u huPath).resolve_right fun hs => by
      rw [hu] at hs
      cases hs
    rw [receive_host hu] at hreceive
    cases hreceive
    split_ifs with hup
    · refine ⟨⟨hM.prio, hM.ackQueue, hM.confined, hM.off⟩,
        Proceeds.of_advance (g := g) hway hpath rfl ?_ ?_ fun w hwv hwu => ?_⟩
      · rw [hpop, progress, progress, if_neg hvh, if_neg hvh]
        rfl
      · rw [progress, progress, if_pos huh, if_pos huh, State.deliver]
        dsimp only
        rw [← huh, Function.update_self, hg, List.filter_append]
        have hself : [g].filter (fun g => g.stream = f) = [g] := by simp [hgf]
        rw [Option.toList_some, hself]
        rfl
      · rw [progress, if_neg fun heq => hwu (heq.trans huh.symm), ← hpopRest w hwv, progress,
          if_neg fun heq => hwu (heq.trans huh.symm)]
        rfl
    · exact ⟨hM, Proceeds.of_sublist rfl hpopSublist fun hkeeps => hup (hkeeps.2.1 u e).2⟩
  | switch =>
    have huh : u ≠ h := fun heq => by rw [heq, hway.dest] at hu; cases hu
    have hout : c.outDev N.routes f u = some (out u) :=
      hkept u (List.mem_of_mem_tail huPath) huh
    rw [receive_switch hu hg, hgf, show (N.takeWire v (out v)).routes = N.routes from rfl, hout]
      at hreceive
    obtain ⟨-, -, hdelivered, hemitted⟩ := event_frame hreceive
    have hclass : ((N.takeWire v (out v)).switch u).qIndexOf g.header = c.classOf f u :=
      qIndexOf_eq hu (hM.prio u) hgf
    have hon : ¬ (u ∉ path ∨ u = h) := fun hoff =>
      hoff.elim (fun hno => hno (List.mem_of_mem_tail huPath)) huh
    rcases stepMoves_receive ((N.takeWire v (out v)).switch u) e g.header x.packet.size
      (some (out u)) with
      honly | ⟨i, hi, ms, ms', hmoves, hms, hms'⟩
    · -- it is not queued, and so lost
      obtain ⟨hN', hprogress, -⟩ := onWay_quiet hM hu hreceive (quiet_map_label honly (some g))
      refine ⟨hN', Proceeds.of_sublist hemitted (fun w => ?_) fun hkeeps => ?_⟩
      · rw [hprogress]
        exact hpopSublist w
      · obtain ⟨hlost, hup, -⟩ := hkeeps
        obtain ⟨s, hs, rfl⟩ := event_eq_some hreceive
        have hlink : (((N.takeWire v (out v)).switch u).devices e).linkUp = true := by
          rw [(switch_takeWire u).2.1]
          exact (hup u e).1
        have hnothing := hlost u
        dsimp only at hnothing
        rw [Function.update_self] at hnothing
        obtain ⟨ms, ms', hmoves, -⟩ := stepMoves_receive_of_nothingLost hs hlink hnothing
        refine honly (.push (out u) (((N.takeWire v (out v)).switch u).qIndexOf g.header)
          ⟨x.packet.size, e, none⟩) ?_ rfl
        rw [hmoves]
        exact List.mem_append_right ms List.mem_cons_self
    · -- it is queued at the output device of the stream
      obtain rfl : out u = i := Option.some.inj hi
      rw [hclass] at hmoves
      obtain ⟨hconf, hother, hself⟩ := laneAt_event_of_push hM.confined hreceive hgf hmoves
        rfl hms hms'
      refine ⟨onWay_event hM hu hreceive hconf fun w hw => ?_,
        Proceeds.of_advance (g := g) hway hpath hemitted ?_ ?_ fun w hwv hwu => ?_⟩
      · rw [hother w fun heq => hon (heq ▸ hw), hM.off w hw]
      · rw [hpop, progress_congr hdelivered (hother v huv.symm)]
      · rw [progress, if_neg huh, hself, List.filterMap_append, ← hpopRest u huv, progress,
          if_neg huh]
        rfl
      · rw [progress_congr hdelivered (hother w hwu), hpopRest w hwv]

/-! ### Runs -/

/-- **Every event keeps the packets of the stream in order.** -/
theorem onWay_step (hway : c.Way f out a h path) (hinv : c.OnWay N f out h path)
    (hkept : c.Kept N f out h path) {op : Op Node} (hstep : c.step N op = some N') :
    c.OnWay N' f out h path ∧ c.Proceeds f out a h path (Keeps N N' op) N N' := by
  cases step_happens hstep with
  | emit hop hsource hout hk => exact onWay_emit hway hinv hkept hsource hout hk
  | sendHighPrio hv => exact onWay_sendHighPrio hinv rfl
  | @corrupt v d x rest hwire =>
    refine ⟨onWay_takeWire hinv hwire, Proceeds.of_sublist rfl (fun w => ?_)
      fun hkeeps => hkeeps.2.2.2 v d rfl⟩
    exact progress_sublist rfl (laneAt_takeWire_sublist hinv.confined hwire w)
  | @receive v u d x rest _ hwire hchannel hreceive =>
    cases hx : holds f x with
    | false =>
      obtain ⟨hN', hprogress, hemitted⟩ :=
        onWay_receive_other (onWay_takeWire hinv hwire) hx hreceive
      refine ⟨hN', Proceeds.of_eq hemitted fun w _ => ?_⟩
      rw [hprogress]
      exact progress_congr rfl (laneAt_takeWire w hwire hx)
    | true => exact onWay_receive hway hinv hkept hwire hx hchannel hreceive
  | transmitComplete hv hevent =>
    obtain ⟨hN', hprogress, hemitted⟩ :=
      onWay_quiet hinv hv hevent (quiet_map_label onlyFrames_transmitMoves none)
    exact ⟨hN', Proceeds.of_eq hemitted fun w _ => hprogress w⟩
  | stayDown =>
    exact ⟨⟨hinv.prio, hinv.ackQueue, hinv.confined, hinv.off⟩, Proceeds.of_eq rfl fun _ _ => rfl⟩
  | @takeDownLink a' b' d e M _ ha hb =>
    have hfirst : c.OnWay { N with routes := Routing.takeDownLink c.topology N.routes a' b' }
        f out h path := ⟨hinv.prio, hinv.ackQueue, hinv.confined, hinv.off⟩
    obtain ⟨hM, hsub, hemitted⟩ := onWay_takeDown hfirst ha
    obtain ⟨hN', hsub', hemitted'⟩ := onWay_takeDown hM hb
    exact ⟨hN', Proceeds.of_sublist (hemitted'.trans hemitted)
      (fun w => (hsub' w).trans (hsub w)) fun hkeeps => hkeeps.2.2.1 a' b' rfl⟩

/-- What is on the way and delivered are packets that have been sent, in their order. -/
structure InOrder (c : Network Node) (N : State Node) (f : Stream) (out : Node → ℕ) (a h : Node)
    (path : List Node) : Prop extends c.OnWay N f out h path where
  order : (Pipeline.content (c.progress N f out h) path).Sublist (sent N f a)

theorem inOrder_step (hway : c.Way f out a h path) (hinv : c.InOrder N f out a h path)
    (hkept : c.Kept N f out h path) {op : Op Node} (hstep : c.step N op = some N') :
    c.InOrder N' f out a h path := by
  obtain ⟨honWay, new, hsent, hsub, -⟩ := onWay_step hway hinv.toOnWay hkept hstep
  refine ⟨honWay, ?_⟩
  rw [hsent]
  exact hsub.trans (hinv.order.append (List.Sublist.refl new))

theorem content_init : Pipeline.content (c.progress c.init f out h) path = [] := by
  refine List.flatMap_eq_nil_iff.2 fun v _ => ?_
  rw [progress]
  split_ifs <;> rfl

theorem inOrder_init : c.InOrder c.init f out a h path where
  prio _ := rfl
  ackQueue _ _ _ _ hmem := absurd hmem List.not_mem_nil
  confined _ _ _ _ _ hmem := absurd hmem List.not_mem_nil
  off _ _ := rfl
  order := by
    rw [content_init]
    exact List.nil_sublist _

/-- No packet is corrupted, and no link is taken down. -/
def Op.Lossless : Op Node → Prop
  | .receive _ _ corrupt => corrupt = false
  | .takeDownLink _ _ => False
  | _ => True

/-- What is on the way and delivered is all that has been sent, if no switch has refused a
packet. -/
structure Complete (c : Network Node) (N : State Node) (f : Stream) (out : Node → ℕ) (a h : Node)
    (path : List Node) : Prop extends c.OnWay N f out h path where
  linksUp : LinksUp N
  complete : (∀ v, NothingLost (N.switch v).trace) →
    Pipeline.content (c.progress N f out h) path = sent N f a

theorem complete_step (hway : c.Way f out a h path) (hinv : c.Complete N f out a h path)
    (hkept : c.Kept N f out h path) {op : Op Node} (hop : op.Lossless)
    (hstep : c.step N op = some N') : c.Complete N' f out a h path := by
  have hdown : ∀ a b, op ≠ .takeDownLink a b := by
    rintro a b rfl
    exact hop
  have hcorrupt : ∀ v d, op ≠ .receive v d true := by
    rintro v d rfl
    cases hop
  obtain ⟨honWay, new, hsent, -, hkeep⟩ := onWay_step hway hinv.toOnWay hkept hstep
  refine ⟨honWay, hinv.linksUp.step hstep hdown, fun hlost => ?_⟩
  rw [hkeep ⟨hlost, hinv.linksUp, hdown, hcorrupt⟩, hsent,
    hinv.complete fun v => (hlost v).suffix (trace_step hstep v)]

theorem complete_init : c.Complete c.init f out a h path where
  toOnWay := inOrder_init (a := a).toOnWay
  linksUp _ _ := ⟨rfl, rfl⟩
  complete _ := content_init

/-! ### The way that the tables give -/

omit [DecidableEq Node] in
theorem forwardTo_eq (routes : Net Node) (v : Node) :
    forwardTo c.topology routes f.flow.dip (c.hash f) v =
      (c.outDev routes f v).bind (c.topology.channel v) := by
  rw [forwardTo, outDev]
  cases c.topology.nodeType v <;> rfl

variable (c f) in
/-- The devices by which the tables lead the stream at the start. -/
def outStart (v : Node) : ℕ := (c.outDev c.init.routes f v).getD 0

/-- **The tables lead a stream to its destination**, if the search of `CalculateRoute` reaches its
source. -/
theorem way_of_route (hlinks : Links c.topology c.links)
    (ha : a ∈ c.topology.n ∧ c.topology.nodeType a = .host ∧ c.topology.address a = f.flow.sip)
    (hh : h ∈ c.topology.n ∧ c.topology.nodeType h = .host ∧ c.topology.address h = f.flow.dip)
    (hne : a ≠ h) {k : ℕ} (hdis : (search c.topology c.init.routes h).dis a = some k)
    (hpath : route c.topology c.init.routes f.flow.dip (c.hash f) k a = some path) :
    c.Way f (c.outStart f) a h path ∧ c.Kept c.init f (c.outStart f) h path := by
  obtain ⟨hlinks', hrouted, -⟩ := after_spec hlinks []
  have hdist : (bfs c.topology c.init.routes h).dist a = some k :=
    ((search_bfs c.topology c.init.routes h).dis a).symm.trans hdis
  obtain ⟨path', hpath', -, hhead, hlast, hnodup, hthrough⟩ :=
    exists_route hlinks' hrouted hh.1 hh.2.1 (c.hash f) hdist
  rw [hh.2.2] at hpath'
  obtain rfl : path = path' := Option.some.inj (hpath.symm.trans hpath')
  have hnext : ∀ before v w after, path = before ++ v :: w :: after →
      (c.outDev c.init.routes f v).bind (c.topology.channel v) = some w := by
    intro before v w after heq
    rw [← forwardTo_eq]
    exact Bfs.next_of_follow (heq ▸ hpath)
  have hway : c.Way f (c.outStart f) a h path := by
    refine ⟨ha, hh.2.1, hne, hhead, hlast, hnodup, fun before v w after heq => ?_, hthrough⟩
    obtain ⟨d, hd, hchannel⟩ := Option.bind_eq_some_iff.1 (hnext before v w after heq)
    rw [outStart, hd, Option.getD_some, hchannel]
  refine ⟨hway, fun v hv hvh => ?_⟩
  obtain ⟨before, w, after, heq⟩ := hway.exists_next hv hvh
  obtain ⟨d, hd, -⟩ := Option.bind_eq_some_iff.1 (hnext before v w after heq)
  rw [outStart, hd, Option.getD_some]

variable (c N f out h path) in
/-- The packets of the stream that are on the way, oldest first. -/
def under : List Datagram := Pipeline.content (c.progress N f out h) path.dropLast

theorem content_eq (hlast : path.getLast? = some h) :
    Pipeline.content (c.progress N f out h) path =
      (N.delivered h).filter (fun g => g.stream = f) ++ c.under N f out h path := by
  obtain ⟨front, rfl⟩ := List.getLast?_eq_some_iff.1 hlast
  rw [under, List.dropLast_concat, Pipeline.content_append, Pipeline.content_cons,
    Pipeline.content_nil, List.nil_append, progress, if_pos rfl]

/-- What is on the way is in a queue or on a wire. -/
theorem exists_parcel (hway : c.Way f out a h path) (hg : g ∈ c.under N f out h path) :
    ∃ v k, ∃ x ∈ N.parcels v k, x.datagram = some g := by
  obtain ⟨front, rfl⟩ := List.getLast?_eq_some_iff.1 hway.last
  rw [under, List.dropLast_concat] at hg
  obtain ⟨v, hv, hg⟩ := List.mem_flatMap.1 hg
  have hvh : v ≠ h := fun heq => (List.nodup_append.1 hway.nodup).2.2 v (List.mem_reverse.1 hv) h
    (List.mem_singleton_self h) heq
  rw [progress, if_neg hvh] at hg
  obtain ⟨x, hx, hxg⟩ := List.mem_filterMap.1 hg
  rcases List.mem_append.1 (List.mem_of_mem_filter hx) with hx | hx
  · exact ⟨v, _, x, hx, hxg⟩
  · exact ⟨v, _, x, hx, hxg⟩

theorem consistent_init : c.Consistent c.init := fun v _ => by
  funext k
  cases k <;> rfl

variable (c) in
/-- **Streams are delivered in order.** Take a run of a network in which the tables that are
installed at the start lead the stream `f` from the host `a` to the host `h`, and in which links
are taken down at will as long as the nodes on the way keep the output device of the stream. Then
`h` has got packets of `f` in the order in which `a` has sent them. If no switch has refused a
packet, no packet has been corrupted and no link taken down, `h` has got the first ones that `a` has
sent, and all others are in the network. The parcels of the network are what the queues and wires of
the switches hold as long as no queue has refused a PFC frame; once one has, the order is that of
the parcels only. -/
theorem streams_in_order (hlinks : Links c.topology c.links)
    (ha : a ∈ c.topology.n ∧ c.topology.nodeType a = .host ∧ c.topology.address a = f.flow.sip)
    (hh : h ∈ c.topology.n ∧ c.topology.nodeType h = .host ∧ c.topology.address h = f.flow.dip)
    (hne : a ≠ h) {k : ℕ} (hdis : (search c.topology c.init.routes h).dis a = some k)
    (hpath : route c.topology c.init.routes f.flow.dip (c.hash f) k a = some path)
    {ops : List (Op Node)} (hrun : Run.exec c.step c.init ops = some N)
    (hkept : Run.Along c.step (fun N _ => c.Unmoved N f h path) c.init ops) :
    ((N.delivered h).filter fun g => g.stream = f).Sublist (sent N f a) ∧
    ((∀ v, NoControlLost (N.switch v).trace) → c.Consistent N) ∧
    ((∀ v, NothingLost (N.switch v).trace) → (∀ op ∈ ops, op.Lossless) →
      ∃ rest, sent N f a = (N.delivered h).filter (fun g => g.stream = f) ++ rest ∧
        ∀ g ∈ rest, ∃ v k, ∃ x ∈ N.parcels v k, x.datagram = some g) := by
  obtain ⟨hway, hstart⟩ := way_of_route hlinks ha hh hne hdis hpath
  have hkept' : Run.Along c.step (fun N _ => c.Kept N f (c.outStart f) h path) c.init ops :=
    hkept.mono fun M op _ hM v hv hvh => (hM v hv hvh).trans (hstart v hv hvh)
  refine ⟨?_, ?_, fun hlost hops => ?_⟩
  · have hinv : c.InOrder N f (c.outStart f) a h path := Run.exec_induction
      (fun M op M' hM hC hstep => inOrder_step hway hM hC hstep) inOrder_init hkept' hrun
    refine List.Sublist.trans ?_ hinv.order
    rw [content_eq hway.last]
    exact List.sublist_append_left _ _
  · exact Run.exec_invariant (I := fun M => (∀ v, NoControlLost (M.switch v).trace) →
      c.Consistent M) (fun M op M' hM hstep hlost =>
        (hM fun v => (hlost v).suffix (trace_step hstep v)).step hstep hlost)
      (fun _ => consistent_init) hrun
  · have hinv : c.Complete N f (c.outStart f) a h path := Run.exec_induction
      (C := fun M op => c.Kept M f (c.outStart f) h path ∧ op.Lossless)
      (fun M op M' hM hC hstep => complete_step hway hM hC.1 hC.2 hstep) complete_init
      (hkept'.mono fun M op hop hM => ⟨hM, hops op hop⟩) hrun
    refine ⟨_, (hinv.complete hlost).symm.trans (content_eq hway.last), fun g hg => ?_⟩
    exact exists_parcel hway hg

end Order

/-- Two hosts, `(false, _)`, each linked with two switches, `(true, _)`. -/
def crossed : Topology (Bool × Bool) where
  n := [(false, false), (false, true), (true, false), (true, true)]
  nodeType v := if v.1 then .switch else .host
  address v := if v.2 then 0x0b000101 else 0x0b000001
  channel v dev :=
    if dev = 1 then some (!v.1, false) else if dev = 2 then some (!v.1, true) else none
  packetPayloadSize := 1000
  nodup := by decide
  address_inj := by decide

def crossedLinks (v : Bool × Bool) : List ((Bool × Bool) × Interface) :=
  [((!v.1, false), ⟨1, true, 1000, 100000000000⟩), ((!v.1, true), ⟨2, true, 1000, 100000000000⟩)]

theorem links_crossed : Links crossed crossedLinks where
  keys := by decide
  mem := by decide
  channel := by decide
  symm := by decide

/-- The hosts choose their first device. -/
def crossedNetwork : Network (Bool × Bool) where
  topology := crossed
  links := crossedLinks
  farDevice v _ := if v.2 then 2 else 1
  ecmpSeed _ := 7
  qpHash _ _ := 0
  config _ := .default 3 .default

def crossedStream : Stream where
  isAck := false
  flow := ⟨0x0b000001, 0x0b000101, 10000, 100, 3⟩

/-- Two packets of which one is delivered and the other waits at the first switch. -/
def crossedRun : List (Op (Bool × Bool)) :=
  [.sendData (false, false) ⟨.data, crossedStream.flow, 1062, 0, 1000⟩,
    .sendData (false, false) ⟨.data, crossedStream.flow, 1062, 1000, 1000⟩,
    .receive (false, false) 1 false, .receive (false, false) 1 false,
    .receive (true, false) 2 false]

/-- The run, and the run in which the link between the second switch and the destination is taken
down first. -/
theorem streams_in_order_crossed :
    (∃ N, Run.exec crossedNetwork.step crossedNetwork.init crossedRun = some N ∧
      ∃ rest, sent N crossedStream (false, false) =
          (N.delivered (false, true)).filter (fun g => g.stream = crossedStream) ++ rest ∧
        ∀ g ∈ rest, ∃ v k, ∃ x ∈ N.parcels v k, x.datagram = some g) ∧
    ∃ N, Run.exec crossedNetwork.step crossedNetwork.init
        (.takeDownLink (true, true) (false, true) :: crossedRun) = some N ∧
      N.delivered (false, true) = [⟨.data, crossedStream.flow, 1062, 0, 1000⟩] ∧
      ((N.delivered (false, true)).filter fun g => g.stream = crossedStream).Sublist
        (sent N crossedStream (false, false)) := by
  have hdis : (search crossed crossedNetwork.init.routes (false, true)).dis (false, false) =
      some 2 := by decide +kernel
  have hpath : route crossed crossedNetwork.init.routes crossedStream.flow.dip
      (crossedNetwork.hash crossedStream) 2 (false, false) =
        some [(false, false), (true, false), (false, true)] := by decide +kernel
  have hkept : ∀ ops ∈ [crossedRun, .takeDownLink (true, true) (false, true) :: crossedRun],
      Run.Along crossedNetwork.step (fun N _ => crossedNetwork.Unmoved N crossedStream (false, true)
        [(false, false), (true, false), (false, true)]) crossedNetwork.init ops := by decide +kernel
  have horder := fun ops hops N hrun => streams_in_order crossedNetwork (f := crossedStream)
    (a := (false, false)) (h := (false, true)) (N := N) links_crossed (by decide) (by decide)
    (by decide) hdis hpath hrun (hkept ops hops)
  constructor
  · have hall : (Run.exec crossedNetwork.step crossedNetwork.init crossedRun).map
        (fun N => decide (∀ v, NothingLost (N.switch v).trace)) = some true := by decide +kernel
    obtain ⟨N, hrun, hlost⟩ := Option.map_eq_some_iff.1 hall
    refine ⟨N, hrun, (horder crossedRun (by simp) N hrun).2.2 (of_decide_eq_true hlost) ?_⟩
    simp [crossedRun, Op.Lossless]
  · have hall : (Run.exec crossedNetwork.step crossedNetwork.init
        (.takeDownLink (true, true) (false, true) :: crossedRun)).map
          (fun N => N.delivered (false, true)) =
          some [⟨.data, crossedStream.flow, 1062, 0, 1000⟩] := by decide +kernel
    obtain ⟨N, hrun, hdelivered⟩ := Option.map_eq_some_iff.1 hall
    exact ⟨N, hrun, hdelivered, (horder _ (by simp) N hrun).1⟩

end Network

end HpccSim
