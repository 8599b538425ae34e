import HpccSim.SketchWindow
import HpccSim.SwitchNode

/-!
# Tags and heavy bytes

`BEgressQueue::DoEnqueue` (`broadcom-egress-queue.cc`) passes a data packet to the sketch of its
port and attaches the `IntTag` that the sketch fills in. `SwitchNode::SwitchNotifyDequeue`
(`switch-node.cc`) declares an `IntTag`, whose constructor initialises nothing (`int-tag.cc`),
reads the tag of the packet into it, and removes the tag, if the packet is a data packet and the
mode is that of HPCC. It then counts the size of every packet as heavy whose `m_isBigFlow` is set
in that variable. So the count is right only if the variable has been read from the packet, or
happens to hold the right value, and a tag that was not removed is still there at the next switch.
The constructor of `SwitchNode` sets `m_txBytes` to zero but not `m_txHeavyBytes`, so that the count
starts from an arbitrary value too.

The switches are modelled together with the packets on the wires between them. What does not decide
about tags is left open: the tests on the bytes of a queue, the order in which the waiting packets
leave, and the routes.

## Main definitions

* `Content`, `Frame`: a packet, and what is attached to it on its way.
* `Fabric`, `Fabric.step`: the switches and what happens to them.
* `Fabric.Untagged`, `Fabric.Exact`: what tags and heavy bytes should satisfy.
* `Fabric.Initialised`: the condition on a step under which they do.

## Main results

* `Fabric.along_initialised_iff`: the runs whose steps satisfy the condition, from counters that
  happen to be zero, are those in which no data packet is enqueued with a tag and the heavy bytes
  are exact throughout, and then the uninitialised values have no effect.
-/

namespace HpccSim

/-- What the headers of a packet say of it. A packet has at least its headers. -/
structure Content where
  l3Prot : ℕ
  flow : FiveTuple
  size : UInt32
  size_ne_zero : size ≠ 0

namespace Content

/-- `BEgressQueue::IsDataPacket`, and the test of `SwitchNotifyDequeue`: the packet is UDP. -/
def isDataPacket (p : Content) : Bool := p.l3Prot = 0x11

/-- The frame that `QbbNetDevice::SendPfc` builds, to `255.255.255.255`. It has no ports. -/
def pfcFrame (sip : UInt32) : Content where
  l3Prot := 0xFE
  flow := { sip := sip, dip := 0xFFFFFFFF, sport := 0, dport := 0, pg := 0 }
  size := pfcSize
  size_ne_zero := by decide

end Content

/-- A packet in the network. -/
structure Frame extends Content where
  /-- The `IntTag` among its byte tags. -/
  tag : Option IntTag
  /-- The `heavyBytes` that `PushHop` has been given, by hop. -/
  heavyBytes : List UInt64
  /-- The sketch of the port the packet waits at has marked it `m_isBigFlow`. No code reads this. -/
  own : Bool

/-- A packet as a host or `SendPfc` creates it. -/
def Content.create (p : Content) : Frame :=
  { p with tag := none, heavyBytes := [], own := false }

/-- A port of a switch. -/
structure Port where
  /-- `m_sketch` -/
  sketch : Option MySketch
  /-- The packets of all classes. -/
  queue : List Frame
  txHeavyBytes : UInt64
  /-- The bytes of the packets that left and had been marked by the sketch of the port. -/
  marked : ℕ

/-- The attributes `CcMode` of the switches and `EnableSketch` of the queues, and those of the
sketch of each port. -/
structure FabricConfig where
  ccMode : ℕ
  enableSketch : Bool
  sketch : ℕ → ℕ → SketchConfig

/-- The switches, and the packets that have left one and have not been received yet. -/
structure Fabric where
  port : ℕ → ℕ → Port
  wire : List Frame

/-- An enqueueing: the port, the time, and whether the `BEgressQueue` has room for the packet and
the `DropTailQueue` of the class takes it. -/
structure Entry where
  sw : ℕ
  d : ℕ
  now : ℕ
  fits : Bool
  taken : Bool

namespace Fabric

/-- Before the first packet, if the memory of `m_txHeavyBytes` holds `uninit`. -/
def init (uninit : ℕ → ℕ → UInt64) : Fabric where
  port sw d := { sketch := none, queue := [], txHeavyBytes := uninit sw d, marked := 0 }
  wire := []

variable (c : FabricConfig) (s : Fabric)

/-- Replace the port `d` of the switch `sw`. -/
def setPort (sw d : ℕ) (P : Port) : Fabric :=
  { s with port := Function.update s.port sw (Function.update (s.port sw) d P) }

/-- The port with the packet in its queue, if the inner queue takes it. -/
def append (P : Port) (taken : Bool) (f : Frame) : Port :=
  if taken then { P with queue := P.queue ++ [f] } else P

/-- `BEgressQueue::DoEnqueue`. There is no next state if the assertion that the packet carries no
tag fails, or the sketch reads out of range. -/
def doEnqueue (e : Entry) (f : Frame) : Option Fabric :=
  let P := s.port e.sw e.d
  if e.fits then
    if c.enableSketch && f.isDataPacket then
      let cs := c.sketch e.sw e.d
      let r := (P.sketch.getD (.init cs e.now)).update cs f.flow f.size e.now
      r.2.bind fun tag =>
        -- `NS_ASSERT (p->FindFirstMatchingByteTag (tag) == false)` stops the program
        if f.tag.isSome then
          none
        else
          let f := { f with tag := some tag, own := tag.isBigFlow }
          some (s.setPort e.sw e.d (append { P with sketch := some r.1 } e.taken f))
    else
      some (s.setPort e.sw e.d (append P e.taken { f with own := false }))
  else
    some s

/-- The variable `tag` of `SwitchNotifyDequeue` when `m_isBigFlow` is tested, if it holds `uninit`
when the function is entered. -/
def readTag (f : Frame) (uninit : IntTag) : IntTag :=
  if f.isDataPacket && c.ccMode == 3 then f.tag.getD uninit else uninit

/-- The packet after `SwitchNotifyDequeue`, if the port has counted `txHeavyBytes` before. -/
def stampFrame (txHeavyBytes : UInt64) (f : Frame) : Frame :=
  if f.isDataPacket && c.ccMode == 3 then
    { f with tag := none, heavyBytes := f.heavyBytes ++ [txHeavyBytes] }
  else
    f

/-- `SwitchNode::SwitchNotifyDequeue` on the heavy bytes, and the bytes that it should count. -/
def countHeavy (P : Port) (f : Frame) (uninit : IntTag) : Port :=
  { P with
    txHeavyBytes :=
      if (readTag c f uninit).isBigFlow then P.txHeavyBytes + f.size.toUInt64 else P.txHeavyBytes
    marked := if f.own then P.marked + f.size.toNat else P.marked }

/-- The `i`-th packet waiting at a port leaves. -/
def dequeue (sw d i : ℕ) (uninit : IntTag) : Option Fabric :=
  let P := s.port sw d
  P.queue[i]?.map fun f =>
    { s.setPort sw d (countHeavy c { P with queue := P.queue.eraseIdx i } f uninit) with
      wire := s.wire ++ [stampFrame c P.txHeavyBytes f] }

/-- What happens in the network. -/
inductive Op where
  /-- A packet that a host has created reaches the first switch, which enqueues it. -/
  | send (p : Content) (e : Entry)
  /-- `QbbNetDevice::SendPfc` of a port of the switch. -/
  | sendPfc (sip : UInt32) (e : Entry)
  /-- The `k`-th packet of the wires reaches a switch, which enqueues it, or, if it is a PFC frame,
  consumes it. -/
  | receive (k : ℕ) (e : Entry)
  /-- The `k`-th packet of the wires reaches a host, or is lost, or is refused by the admission
  control of a switch. -/
  | discard (k : ℕ)
  /-- `DequeueAndTransmit` takes the `i`-th packet of a port; the variable `tag` of
  `SwitchNotifyDequeue` holds `uninit`. -/
  | dequeue (sw d i : ℕ) (uninit : IntTag)
  /-- `TakeDown` drops the `i`-th packet of a port. -/
  | drop (sw d i : ℕ)
  /-- `MySketch::NextWindow` of a port. -/
  | nextWindow (sw d : ℕ)

/-- One event, if it is possible and no assertion fails. -/
def step (s : Fabric) : Op → Option Fabric
  | .send p e => s.doEnqueue c e p.create
  | .sendPfc sip e => s.doEnqueue c e (Content.pfcFrame sip).create
  | .receive k e => s.wire[k]?.bind fun f =>
      let s := { s with wire := s.wire.eraseIdx k }
      if f.l3Prot = 0xFE then some s else s.doEnqueue c e f
  | .discard k => some { s with wire := s.wire.eraseIdx k }
  | .dequeue sw d i uninit => s.dequeue c sw d i uninit
  | .drop sw d i =>
      let P := s.port sw d
      some (s.setPort sw d { P with queue := P.queue.eraseIdx i })
  | .nextWindow sw d =>
      let P := s.port sw d
      let sketch := P.sketch.map fun sk => sk.nextWindow (c.sketch sw d)
      some (s.setPort sw d { P with sketch := sketch })

/-! ### What is asked of the network, and the condition -/

/-- A data packet carries no `IntTag` when it is enqueued. -/
def Untagged : Op → Prop
  | .send p _ => p.isDataPacket → p.create.tag = none
  | .sendPfc sip _ => (Content.pfcFrame sip).isDataPacket → (Content.pfcFrame sip).create.tag = none
  | .receive k _ => ∀ f ∈ s.wire[k]?, f.isDataPacket → f.tag = none
  | _ => True

/-- The heavy bytes of each port are those of the packets that left it and had been marked by its
sketch. -/
def Exact : Prop := ∀ sw d, (s.port sw d).txHeavyBytes = .ofNat (s.port sw d).marked

/-- The condition: a data packet comes from another switch only in the mode of HPCC, or if there
are no sketches, and where `m_isBigFlow` has not been read from the packet, the uninitialised
value happens to be that of the tag the packet carries, or zero if it carries none. -/
def Initialised : Op → Prop
  | .receive k _ => ∀ f ∈ s.wire[k]?, f.isDataPacket → c.ccMode = 3 ∨ c.enableSketch = false
  | .dequeue sw d i uninit => ∀ f ∈ (s.port sw d).queue[i]?,
      f.isDataPacket ∧ c.ccMode = 3 ∧ c.enableSketch ∨
        uninit.isBigFlow = f.tag.any IntTag.isBigFlow
  | _ => True

instance : ∀ a, Decidable (Untagged s a)
  | .send p _ => inferInstanceAs (Decidable (p.isDataPacket → p.create.tag = none))
  | .sendPfc sip _ => inferInstanceAs (Decidable ((Content.pfcFrame sip).isDataPacket →
      (Content.pfcFrame sip).create.tag = none))
  | .receive k _ => inferInstanceAs (Decidable (∀ f ∈ s.wire[k]?, f.isDataPacket → f.tag = none))
  | .discard _ | .dequeue .. | .drop .. | .nextWindow .. => inferInstanceAs (Decidable True)

instance : ∀ a, Decidable (Initialised c s a)
  | .receive k _ => inferInstanceAs (Decidable (∀ f ∈ s.wire[k]?, f.isDataPacket →
      c.ccMode = 3 ∨ c.enableSketch = false))
  | .dequeue sw d i uninit => inferInstanceAs (Decidable (∀ f ∈ (s.port sw d).queue[i]?,
      f.isDataPacket ∧ c.ccMode = 3 ∧ c.enableSketch ∨
        uninit.isBigFlow = f.tag.any IntTag.isBigFlow))
  | .send .. | .sendPfc .. | .discard _ | .drop .. | .nextWindow .. =>
    inferInstanceAs (Decidable True)

/-! ### A packet on its way -/

/-- What holds of a packet waiting at a port: the sketch has tagged it, and marked it as its tag
says, or it carries no tag. -/
def Queued (f : Frame) : Prop :=
  if c.enableSketch && f.isDataPacket then f.tag.map IntTag.isBigFlow = some f.own
  else f.tag = none ∧ f.own = false

/-- What holds of a packet that has left a switch: its tag is still there exactly if the mode is
not that of HPCC. -/
def OnWire (f : Frame) : Prop :=
  f.tag.isSome = (c.enableSketch && f.isDataPacket && c.ccMode != 3)

variable {c s} {f : Frame}

theorem Queued.any_tag (h : Queued c f) : f.tag.any IntTag.isBigFlow = f.own := by
  rw [Queued] at h
  split_ifs at h
  · obtain ⟨t, ht, hown⟩ := Option.map_eq_some_iff.1 h
    rw [ht, Option.any_some, hown]
  · rw [h.1, h.2, Option.any_none]

/-- **What the variable holds when it is tested.** It agrees with the mark of the sketch if it has
been read from the packet, or happens to hold the right value. -/
theorem Queued.readTag_eq_own_iff (h : Queued c f) (uninit : IntTag) :
    (readTag c f uninit).isBigFlow = f.own ↔
      f.isDataPacket ∧ c.ccMode = 3 ∧ c.enableSketch ∨
        uninit.isBigFlow = f.tag.any IntTag.isBigFlow := by
  rw [h.any_tag, readTag]
  by_cases hread : (f.isDataPacket && c.ccMode == 3) = true
  · have hdata : f.isDataPacket = true ∧ c.ccMode = 3 := by simpa using hread
    rw [if_pos hread]
    cases hsketch : c.enableSketch with
    | true =>
      rw [Queued, if_pos (by rw [hsketch, hdata.1]; rfl)] at h
      obtain ⟨t, ht, hown⟩ := Option.map_eq_some_iff.1 h
      rw [ht, Option.getD_some]
      exact iff_of_true hown (Or.inl ⟨hdata.1, hdata.2, rfl⟩)
    | false =>
      rw [Queued, if_neg (by rw [hsketch]; simp)] at h
      rw [h.1, Option.getD_none]
      simp
  · rw [if_neg hread]
    have hnot : ¬ (f.isDataPacket = true ∧ c.ccMode = 3 ∧ c.enableSketch = true) :=
      fun hall => hread (by simp [hall.1, hall.2.1])
    exact (or_iff_right hnot).symm

theorem Queued.onWire_stampFrame (h : Queued c f) (n : UInt64) : OnWire c (stampFrame c n f) := by
  rw [OnWire, stampFrame]
  by_cases hread : (f.isDataPacket && c.ccMode == 3) = true
  · have hdata : f.isDataPacket = true ∧ c.ccMode = 3 := by simpa using hread
    rw [if_pos hread]
    simp [hdata.2]
  · rw [if_neg hread]
    rw [Queued] at h
    split_ifs at h with htag
    · obtain ⟨t, ht, -⟩ := Option.map_eq_some_iff.1 h
      have hdata : c.enableSketch = true ∧ f.isDataPacket = true := by simpa using htag
      have hmode : c.ccMode ≠ 3 := fun hmode => hread (by simp [hdata.2, hmode])
      simp [ht, hdata.1, hdata.2, hmode]
    · rw [h.1, Bool.eq_false_iff.2 htag]
      rfl

/-- A data packet comes from a switch without a tag exactly in the mode of HPCC, or if there are no
sketches. -/
theorem OnWire.untagged_iff (h : OnWire c f) :
    (f.isDataPacket → f.tag = none) ↔
      (f.isDataPacket → c.ccMode = 3 ∨ c.enableSketch = false) := by
  refine imp_congr_right fun hdata => ?_
  rw [← Option.isNone_iff_eq_none, ← Option.not_isSome, h, hdata]
  cases c.enableSketch <;> simp

/-! ### What a step does -/

/-- The counts of no port change, and what waits or is on a wire was there before or has just been
enqueued. -/
structure Quiet (c : FabricConfig) (s s' : Fabric) : Prop where
  wire : ∀ f ∈ s'.wire, f ∈ s.wire
  txHeavyBytes : ∀ sw d, (s'.port sw d).txHeavyBytes = (s.port sw d).txHeavyBytes
  marked : ∀ sw d, (s'.port sw d).marked = (s.port sw d).marked
  queue : ∀ sw d, ∀ f ∈ (s'.port sw d).queue, f ∈ (s.port sw d).queue ∨ Queued c f

theorem port_setPort (sw d sw' d' : ℕ) (P : Port) :
    (s.setPort sw d P).port sw' d' = if sw' = sw ∧ d' = d then P else s.port sw' d' := by
  rw [setPort]
  by_cases hsw : sw' = sw
  · subst hsw
    by_cases hd : d' = d
    · subst hd
      simp
    · simp [hd]
  · simp [hsw]

theorem quiet_setPort {sw d : ℕ} {P : Port} (htx : P.txHeavyBytes = (s.port sw d).txHeavyBytes)
    (hmarked : P.marked = (s.port sw d).marked)
    (hqueue : ∀ f ∈ P.queue, f ∈ (s.port sw d).queue ∨ Queued c f) :
    Quiet c s (s.setPort sw d P) where
  wire _ hf := hf
  txHeavyBytes sw' d' := by
    rw [port_setPort]
    split_ifs with hport
    · rw [hport.1, hport.2, htx]
    · rfl
  marked sw' d' := by
    rw [port_setPort]
    split_ifs with hport
    · rw [hport.1, hport.2, hmarked]
    · rfl
  queue sw' d' f hf := by
    rw [port_setPort] at hf
    split_ifs at hf with hport
    · rw [hport.1, hport.2]
      exact hqueue f hf
    · exact Or.inl hf

theorem quiet_append {sw d : ℕ} {sk : Option MySketch} (taken : Bool) (hf : Queued c f) :
    Quiet c s (s.setPort sw d (append { s.port sw d with sketch := sk } taken f)) := by
  cases taken with
  | false => exact quiet_setPort rfl rfl fun g hg => Or.inl hg
  | true =>
    refine quiet_setPort rfl rfl fun g hg => ?_
    rcases List.mem_append.1 hg with hold | hnew
    · exact Or.inl hold
    · rw [List.mem_singleton.1 hnew]
      exact Or.inr hf

/-- What `DoEnqueue` leaves in the queue is as it should be, if only a packet that the sketches tag
carries a tag before. -/
theorem quiet_doEnqueue {e : Entry} {s' : Fabric}
    (hf : (c.enableSketch && f.isDataPacket) = false → f.tag = none)
    (h : s.doEnqueue c e f = some s') : Quiet c s s' := by
  have hrefl : Quiet c s s :=
    ⟨fun _ hg => hg, fun _ _ => rfl, fun _ _ => rfl, fun _ _ _ hg => Or.inl hg⟩
  rw [doEnqueue] at h
  by_cases hfits : e.fits = true
  · by_cases htag : (c.enableSketch && f.isDataPacket) = true
    · simp only [hfits, htag, if_true] at h
      obtain ⟨tag, -, h⟩ := Option.bind_eq_some_iff.1 h
      split_ifs at h
      cases h
      exact quiet_append e.taken ((if_pos htag).mpr rfl)
    · simp only [hfits, htag, if_true] at h
      cases h
      exact quiet_append e.taken
        ((if_neg htag).mpr ⟨hf (Bool.eq_false_iff.2 htag), rfl⟩)
  · simp only [hfits] at h
    cases h
    exact hrefl

/-- The invariant: what waits and what is on a wire is as `Queued` and `OnWire` say. -/
structure Kept (c : FabricConfig) (s : Fabric) : Prop where
  queue : ∀ sw d, ∀ f ∈ (s.port sw d).queue, Queued c f
  wire : ∀ f ∈ s.wire, OnWire c f

theorem kept_init (uninit : ℕ → ℕ → UInt64) : Kept c (init uninit) where
  queue _ _ _ hf := absurd hf List.not_mem_nil
  wire _ hf := absurd hf List.not_mem_nil

/-- The counters are right before the first packet exactly if they happen to be zero. -/
theorem exact_init_iff {uninit : ℕ → ℕ → UInt64} :
    Exact (init uninit) ↔ ∀ sw d, uninit sw d = 0 := Iff.rfl

theorem Quiet.kept {s' : Fabric} (h : Quiet c s s') (hs : Kept c s) : Kept c s' where
  queue sw d f hf := (h.queue sw d f hf).elim (hs.queue sw d f) id
  wire f hf := hs.wire f (h.wire f hf)

theorem Quiet.exact_iff {s' : Fabric} (h : Quiet c s s') : Exact s' ↔ Exact s := by
  simp only [Exact, h.txHeavyBytes, h.marked]

/-- A packet that only the sketches tag carries no tag otherwise. -/
theorem OnWire.tag_eq_none (h : OnWire c f) (htag : (c.enableSketch && f.isDataPacket) = false) :
    f.tag = none := by
  rw [OnWire, htag, Bool.false_and] at h
  exact Option.not_isSome_iff_eq_none.1 (by simp [h])

/-- **What a step does.** Either a packet leaves a port, or nothing is counted. -/
theorem step_cases (hs : Kept c s) {a : Op} {s' : Fabric} (h : step c s a = some s') :
    (∃ sw d i uninit, a = .dequeue sw d i uninit ∧ s.dequeue c sw d i uninit = some s') ∨
      Quiet c s s' := by
  have hcreate (p : Content) {e : Entry} (h : s.doEnqueue c e p.create = some s') : Quiet c s s' :=
    quiet_doEnqueue (fun _ => rfl) h
  have herase (k : ℕ) : Quiet c s { s with wire := s.wire.eraseIdx k } :=
    ⟨fun _ hf => List.mem_of_mem_eraseIdx hf, fun _ _ => rfl, fun _ _ => rfl,
      fun _ _ _ hf => Or.inl hf⟩
  cases a with
  | send p e => exact Or.inr (hcreate p h)
  | sendPfc sip e => exact Or.inr (hcreate _ h)
  | receive k e =>
    obtain ⟨f, hf, h⟩ := Option.bind_eq_some_iff.1 h
    have hwire := hs.wire f (List.mem_of_getElem? hf)
    dsimp only at h
    split_ifs at h with hpfc
    · cases h
      exact Or.inr (herase k)
    · have hnext := quiet_doEnqueue hwire.tag_eq_none h
      have hfirst := herase k
      exact Or.inr ⟨fun g hg => hfirst.wire g (hnext.wire g hg), hnext.txHeavyBytes, hnext.marked,
        hnext.queue⟩
  | discard k =>
    cases h
    exact Or.inr (herase k)
  | dequeue sw d i uninit => exact Or.inl ⟨sw, d, i, uninit, rfl, h⟩
  | drop sw d i =>
    cases h
    exact Or.inr (quiet_setPort rfl rfl fun f hf => Or.inl (List.mem_of_mem_eraseIdx hf))
  | nextWindow sw d =>
    cases h
    exact Or.inr (quiet_setPort rfl rfl fun f hf => Or.inl hf)

/-- **What a departure does**, to the wires and to the ports. -/
theorem dequeue_eq_some {sw d i : ℕ} {uninit : IntTag} {s' : Fabric}
    (hf : (s.port sw d).queue[i]? = some f) (h : s.dequeue c sw d i uninit = some s') :
    s'.wire = s.wire ++ [stampFrame c (s.port sw d).txHeavyBytes f] ∧
      ∀ sw' d', s'.port sw' d' =
        if sw' = sw ∧ d' = d then
          countHeavy c { s.port sw d with queue := (s.port sw d).queue.eraseIdx i } f uninit
        else
          s.port sw' d' := by
  rw [dequeue, hf] at h
  cases h
  exact ⟨rfl, fun sw' d' => port_setPort sw d sw' d' _⟩

theorem kept_dequeue (hs : Kept c s) {sw d i : ℕ} {uninit : IntTag} {s' : Fabric}
    (h : s.dequeue c sw d i uninit = some s') : Kept c s' := by
  obtain ⟨f, hf, -⟩ := Option.map_eq_some_iff.1 h
  have hqueued := hs.queue sw d f (List.mem_of_getElem? hf)
  obtain ⟨hwire, hport⟩ := dequeue_eq_some hf h
  constructor
  · intro sw' d' g hg
    rw [hport] at hg
    split_ifs at hg with hat
    · exact hs.queue sw d g (List.mem_of_mem_eraseIdx hg)
    · exact hs.queue sw' d' g hg
  · intro g hg
    rw [hwire] at hg
    rcases List.mem_append.1 hg with hold | hnew
    · exact hs.wire g hold
    · rw [List.mem_singleton.1 hnew]
      exact hqueued.onWire_stampFrame _

theorem kept_step {a : Op} {s' : Fabric} (hs : Kept c s) (h : step c s a = some s') :
    Kept c s' := by
  rcases step_cases hs h with ⟨sw, d, i, uninit, -, hdequeue⟩ | hquiet
  · exact kept_dequeue hs hdequeue
  · exact hquiet.kept hs

/-! ### What is counted -/

/-- The counts of a port stay equal exactly if the variable says what the sketch has said. -/
theorem exact_countHeavy_iff {P : Port} (hP : P.txHeavyBytes = .ofNat P.marked)
    (uninit : IntTag) :
    (countHeavy c P f uninit).txHeavyBytes = .ofNat (countHeavy c P f uninit).marked ↔
      (readTag c f uninit).isBigFlow = f.own := by
  have hadd : UInt64.ofNat (P.marked + f.size.toNat) = P.txHeavyBytes + f.size.toUInt64 := by
    rw [UInt64.ofNat_add, hP, UInt64.ofNat_uInt32ToNat]
  have hne : P.txHeavyBytes + f.size.toUInt64 ≠ P.txHeavyBytes := by
    intro heq
    have hzero : f.size.toUInt64 = 0 := by simpa using heq
    exact f.size_ne_zero (UInt32.toNat_inj.1 (by simpa using congrArg UInt64.toNat hzero))
  simp only [countHeavy]
  cases hown : f.own <;> cases hread : (readTag c f uninit).isBigFlow
  · simp [hP]
  · simpa [← hP] using hne
  · simpa [hadd] using hne.symm
  · simp [hadd]

theorem exact_dequeue_iff (hs : Exact s) {sw d i : ℕ} {uninit : IntTag}
    (hf : (s.port sw d).queue[i]? = some f) :
    (∀ s', s.dequeue c sw d i uninit = some s' → Exact s') ↔
      (readTag c f uninit).isBigFlow = f.own := by
  have hP : ({ s.port sw d with queue := (s.port sw d).queue.eraseIdx i } : Port).txHeavyBytes =
      .ofNat (s.port sw d).marked := hs sw d
  have hcount := exact_countHeavy_iff (c := c) (f := f) hP uninit
  rw [← hcount]
  constructor
  · intro h
    have hsome : ∃ s', s.dequeue c sw d i uninit = some s' := by
      rw [dequeue, hf]
      exact ⟨_, rfl⟩
    obtain ⟨s', hs'⟩ := hsome
    have hport := h s' hs' sw d
    rwa [(dequeue_eq_some hf hs').2, if_pos ⟨rfl, rfl⟩] at hport
  · intro h s' hs' sw' d'
    rw [(dequeue_eq_some hf hs').2]
    split_ifs with hat
    · exact h
    · exact hs sw' d'

/-- **A step.** From a good state, the steps that satisfy the condition are those that enqueue no
data packet with a tag and keep the heavy bytes exact. -/
theorem initialised_iff (hs : Kept c s) (hexact : Exact s) (a : Op) :
    Initialised c s a ↔ Untagged s a ∧ ∀ s', step c s a = some s' → Exact s' := by
  have hquiet {a : Op} (hne : ∀ sw d i uninit, a ≠ .dequeue sw d i uninit) :
      ∀ s', step c s a = some s' → Exact s' := by
    intro s' h
    rcases step_cases hs h with ⟨sw, d, i, uninit, ha, -⟩ | hq
    · exact absurd ha (hne sw d i uninit)
    · exact hq.exact_iff.2 hexact
  cases a with
  | dequeue sw d i uninit =>
    change (∀ f ∈ (s.port sw d).queue[i]?, _) ↔ True ∧ ∀ s', s.dequeue c sw d i uninit = some s' → _
    rw [true_and]
    cases hf : (s.port sw d).queue[i]? with
    | none => simp [dequeue, hf]
    | some f =>
      have hqueued := hs.queue sw d f (List.mem_of_getElem? hf)
      rw [exact_dequeue_iff hexact hf, hqueued.readTag_eq_own_iff]
      simp
  | receive k e =>
    have huntagged : Initialised c s (.receive k e) ↔ Untagged s (.receive k e) :=
      forall₂_congr fun f hf => (hs.wire f (List.mem_of_getElem? hf)).untagged_iff.symm
    exact huntagged.trans (and_iff_left (hquiet fun _ _ _ _ h => by cases h)).symm
  | send p e => exact iff_of_true trivial ⟨fun _ => rfl, hquiet fun _ _ _ _ h => by cases h⟩
  | sendPfc sip e => exact iff_of_true trivial ⟨fun _ => rfl, hquiet fun _ _ _ _ h => by cases h⟩
  | discard k => exact iff_of_true trivial ⟨trivial, hquiet fun _ _ _ _ h => by cases h⟩
  | drop sw d i => exact iff_of_true trivial ⟨trivial, hquiet fun _ _ _ _ h => by cases h⟩
  | nextWindow sw d => exact iff_of_true trivial ⟨trivial, hquiet fun _ _ _ _ h => by cases h⟩

/-! ### The uninitialised values -/

/-- The event with another uninitialised value. -/
def Op.withUninit (uninit : IntTag) : Op → Op
  | .dequeue sw d i _ => .dequeue sw d i uninit
  | a => a

/-- The events differ in the uninitialised value only. -/
def SameTraffic (a b : Op) : Prop := ∃ uninit, b = a.withUninit uninit

theorem step_eq_step (hs : Kept c s) {a b : Op} (hab : SameTraffic a b) (ha : Initialised c s a)
    (hb : Initialised c s b) : step c s a = step c s b := by
  obtain ⟨uninit, rfl⟩ := hab
  cases a with
  | dequeue sw d i first =>
    change s.dequeue c sw d i first = s.dequeue c sw d i uninit
    simp only [dequeue]
    cases hf : (s.port sw d).queue[i]? with
    | none => rfl
    | some f =>
      have hqueued := hs.queue sw d f (List.mem_of_getElem? hf)
      have hread : (readTag c f first).isBigFlow = (readTag c f uninit).isBigFlow :=
        ((hqueued.readTag_eq_own_iff first).2 (ha f hf)).trans
          ((hqueued.readTag_eq_own_iff uninit).2 (hb f hf)).symm
      simp only [Option.map_some, countHeavy, hread]
  | _ => rfl

/-- **Tags and heavy bytes.** The runs from counters that are zero whose steps satisfy the condition
are those in which no data packet is enqueued with a tag and the heavy bytes of every port are
always those its sketch has marked. In such runs everything, the `heavyBytes` stamped included,
depends on the traffic only. -/
theorem along_initialised_iff (c : FabricConfig) (uninit : ℕ → ℕ → UInt64) (ops : List Op) :
    ((∀ sw d, uninit sw d = 0) ∧ Run.Along (step c) (Initialised c) (init uninit) ops ↔
      Run.Along (step c) Untagged (init uninit) ops ∧
        Run.Always (step c) Exact (init uninit) ops) ∧
    ∀ uninit' ops', List.Forall₂ SameTraffic ops ops' →
      (∀ sw d, uninit sw d = 0) ∧ Run.Along (step c) (Initialised c) (init uninit) ops →
        (∀ sw d, uninit' sw d = 0) ∧ Run.Along (step c) (Initialised c) (init uninit') ops' →
          Run.exec (step c) (init uninit) ops = Run.exec (step c) (init uninit') ops' := by
  have hkeep (s : Fabric) (a : Op) (s' : Fabric) (hs : Kept c s) (h : step c s a = some s') :
      Kept c s' := kept_step hs h
  have halong (hzero : ∀ sw d, uninit sw d = 0) :
      Run.Along (step c) (Initialised c) (init uninit) ops ↔
        Run.Along (step c) Untagged (init uninit) ops ∧
          Run.Always (step c) Exact (init uninit) ops :=
    Run.along_iff_along_and_always (fun s a hs hexact => initialised_iff hs hexact a) hkeep
      (kept_init uninit) (exact_init_iff.2 hzero)
  constructor
  · constructor
    · rintro ⟨hzero, h⟩
      exact (halong hzero).1 h
    · intro h
      have hzero : ∀ sw d, uninit sw d = 0 := exact_init_iff.1 h.2.head
      exact ⟨hzero, (halong hzero).2 h⟩
  · rintro uninit' ops' hsame ⟨hzero, h⟩ ⟨hzero', h'⟩
    have hstep (s : Fabric) (a b : Op) (hs : Kept c s) (hab : SameTraffic a b) :
        Initialised c s a → Initialised c s b → step c s a = step c s b := step_eq_step hs hab
    have heq : uninit' = uninit := funext₂ fun sw d => (hzero' sw d).trans (hzero sw d).symm
    rw [heq] at h' ⊢
    exact Run.exec_eq_exec hstep hkeep hsame (kept_init uninit) h h'

/-! ### Runs of two packets -/

/-- A data packet. -/
def dataPacket : Content where
  l3Prot := 0x11
  flow := MySketch.smallFlow
  size := 1048
  size_ne_zero := by decide

/-- An ACK. -/
def ackPacket : Content where
  l3Prot := 0xFC
  flow := MySketch.smallFlow
  size := 60
  size_ne_zero := by decide

/-- A tag variable whose first byte holds `isBigFlow`. -/
def leftover (isBigFlow : Bool) : IntTag where
  isBigFlow := isBigFlow
  Rb := 0
  R := 0
  card := 0

/-- Sketches at all ports. -/
def sketched (ccMode : ℕ) : FabricConfig where
  ccMode := ccMode
  enableSketch := true
  sketch _ _ := MySketch.smallSketch

/-- The first port of the switch `sw` takes the packet in. -/
def takenAt (sw : ℕ) : Entry where
  sw := sw
  d := 0
  now := 0
  fits := true
  taken := true

theorem along_initialised_two_switches :
    Run.Along (step (sketched 3)) Untagged (init fun _ _ => 0)
      [.send dataPacket (takenAt 0), .dequeue 0 0 0 (leftover true), .receive 0 (takenAt 1),
        .dequeue 1 0 0 (leftover false)] ∧
    Run.Always (step (sketched 3)) Exact (init fun _ _ => 0)
      [.send dataPacket (takenAt 0), .dequeue 0 0 0 (leftover true), .receive 0 (takenAt 1),
        .dequeue 1 0 0 (leftover false)] :=
  (along_initialised_iff (sketched 3) _ _).1.1 ⟨fun _ _ => rfl, by decide +kernel⟩

/-- The condition is needed: in the mode of HPCC an ACK is counted as heavy if the uninitialised
byte is not zero, in that of DCTCP a data packet keeps its tag, and carries it to the next switch,
and a counter that does not happen to be zero is wrong before the first packet. -/
theorem leftover_tag_counted :
    (¬ Run.Always (step (sketched 3)) Exact (init fun _ _ => 0)
      [.send ackPacket (takenAt 0), .dequeue 0 0 0 (leftover true)]) ∧
    (¬ Run.Along (step (sketched 8)) Untagged (init fun _ _ => 0)
      [.send dataPacket (takenAt 0), .dequeue 0 0 0 (leftover true), .receive 0 (takenAt 1)]) ∧
    ¬ Run.Always (step (sketched 3)) Exact (init fun _ _ => 1) [] := by
  refine ⟨fun h => ?_, by decide +kernel, fun h => ?_⟩
  · have hcount : (60 : UInt64) = .ofNat 0 := h.last rfl 0 0
    exact absurd hcount (by decide)
  · have hcount : (1 : UInt64) = .ofNat 0 := h.last rfl 0 0
    exact absurd hcount (by decide)

end Fabric

end HpccSim
