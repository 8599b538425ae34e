import HpccSim.GoBackN
import HpccSim.Quiescence

/-!
# A connection over an orderly network

The network delivers the packets and the replies of a connection in their order, and may lose some.
If it loses none, go-back-N never goes back: the sender sends each packet once, the receiver takes
each in, and no reply is a NACK.

## Main definitions

* `Connection.Act.Orderly`: first in, first out, with or without loss.
* `Connection.Delivers`: the bytes of the flow are taken in once, and all before it is finished.
* `Connection.Smooth`: the state after `n` of `m` packets have arrived, the flow finished or not.

## Main results

* `Connection.reach_drop`: any packets and replies can get lost.
* `Connection.Delivers.step`: any network keeps this.
* `Connection.Smooth.send`, `Connection.Smooth.reach`: without loss, `m` grows when the sender
  sends, and only then.
-/

namespace HpccSim

namespace Connection

/-- Both directions are first in, first out, and lose something only if `lossy`. -/
def Act.Orderly (lossy : Prop) : Act → Prop
  | .dataArrives k keep => k = 0 ∧ keep = false
  | .ackArrives k keep => k = 0 ∧ keep = false
  | .dropData _ => lossy
  | .dropAck _ => lossy
  | _ => True

/-- An action of an orderly network, of time or of the congestion control. -/
def Act.Outside (lossy : Prop) (a : Act) : Prop := a.Orderly lossy ∧ a ≠ .send

namespace Act

variable {lossy : Prop} (k : ℕ)

theorem outside_dataArrives : (dataArrives 0 false).Outside lossy :=
  ⟨⟨rfl, rfl⟩, fun h => by cases h⟩

theorem outside_ackArrives : (ackArrives 0 false).Outside lossy :=
  ⟨⟨rfl, rfl⟩, fun h => by cases h⟩

theorem outside_dropData (hlossy : lossy) : (dropData k).Outside lossy :=
  ⟨hlossy, fun h => by cases h⟩

theorem outside_dropAck (hlossy : lossy) : (dropAck k).Outside lossy :=
  ⟨hlossy, fun h => by cases h⟩

end Act

section Drop

variable {hw : RdmaHw} {s : Connection} {lossy : Prop}

theorem reach_dropData_append (hlossy : lossy) {l l' : List DataPacket} (h : l'.Sublist l)
    (front : List DataPacket) : Run.Reach (step hw) (fun _ a => a.Outside lossy)
      { s with data := front ++ l } { s with data := front ++ l' } := by
  induction h generalizing front with
  | slnil => exact .refl _
  | @cons l' l p _ ih =>
    refine Run.Reach.trans (.single (Act.outside_dropData front.length hlossy) ?_) (ih front)
    have hlt : front.length < (front ++ p :: l).length := by simp
    rw [step, if_pos hlt, List.eraseIdx_append_of_length_le le_rfl, Nat.sub_self,
      List.eraseIdx_cons_zero]
  | @cons_cons l' l p _ ih =>
    have hnext := ih (front ++ [p])
    rwa [List.append_assoc, List.append_assoc] at hnext

theorem reach_dropAck_append (hlossy : lossy) {l l' : List AckFrame} (h : l'.Sublist l)
    (front : List AckFrame) : Run.Reach (step hw) (fun _ a => a.Outside lossy)
      { s with acks := front ++ l } { s with acks := front ++ l' } := by
  induction h generalizing front with
  | slnil => exact .refl _
  | @cons l' l ch _ ih =>
    refine Run.Reach.trans (.single (Act.outside_dropAck front.length hlossy) ?_) (ih front)
    have hlt : front.length < (front ++ ch :: l).length := by simp
    rw [step, if_pos hlt, List.eraseIdx_append_of_length_le le_rfl, Nat.sub_self,
      List.eraseIdx_cons_zero]
  | @cons_cons l' l ch _ ih =>
    have hnext := ih (front ++ [ch])
    rwa [List.append_assoc, List.append_assoc] at hnext

theorem reach_dropData {l : List DataPacket} (h : l.Sublist s.data)
    (hkeep : ¬ lossy → l = s.data) :
    Run.Reach (step hw) (fun _ a => a.Outside lossy) s { s with data := l } := by
  by_cases hlossy : lossy
  · exact reach_dropData_append hlossy h []
  · rw [hkeep hlossy]
    exact .refl s

theorem reach_dropAck {l : List AckFrame} (h : l.Sublist s.acks) (hkeep : ¬ lossy → l = s.acks) :
    Run.Reach (step hw) (fun _ a => a.Outside lossy) s { s with acks := l } := by
  by_cases hlossy : lossy
  · exact reach_dropAck_append hlossy h []
  · rw [hkeep hlossy]
    exact .refl s

variable (hw) in
/-- **Any packets and replies can get lost.** -/
theorem reach_drop {l : List DataPacket} {l' : List AckFrame} (hdata : l.Sublist s.data)
    (hacks : l'.Sublist s.acks) (hkeep : ¬ lossy → l = s.data ∧ l' = s.acks) :
    Run.Reach (step hw) (fun _ a => a.Outside lossy) s { s with data := l, acks := l' } :=
  (reach_dropData hdata fun hlossy => (hkeep hlossy).1).trans
    (reach_dropAck (s := { s with data := l }) hacks fun hlossy => (hkeep hlossy).2)

end Drop

/-! ### Everything is taken in -/

/-- Until the flow is finished its bytes are taken in once, and when it is finished all of them
have been. (A packet that arrives later makes the receiver begin anew.) -/
structure Delivers (f : Flow) (s : Connection) : Prop extends GoBackN s where
  size : s.qp.size = f.size
  whole : s.completions ≠ 0 → ∃ l, l <+: s.accepted ∧ Tiling.Tiles 0 l f.size.toNat

namespace Delivers

variable {hw : RdmaHw} {bps : UInt64} {f : Flow} {s t : Connection}

theorem init (hsize : f.size.toNat < 2 ^ 32) : Delivers f (init hw bps f) where
  toGoBackN := .init hsize
  size := rfl
  whole h := absurd rfl h

theorem accepted_prefix {a : Act} (hstep : step hw s a = some t) : s.accepted <+: t.accepted := by
  rcases shrinks_of_step hstep with rfl | ⟨k, keep, rfl⟩ | ⟨k, keep, rfl⟩ | hst
  · obtain ⟨-, rfl⟩ := step_send hstep
    exact List.prefix_refl _
  · obtain ⟨p, v, q, -, -, rfl⟩ := step_dataArrives hstep
    dsimp only
    split_ifs
    · exact List.prefix_append _ _
    · exact List.prefix_refl _
  · obtain ⟨ch, -, ⟨-, rfl⟩ | ⟨-, qp, done, -, rfl⟩⟩ := step_ackArrives hstep
    · exact List.prefix_refl _
    · split_ifs
      · exact List.prefix_refl _
      · exact List.prefix_refl _
  · exact hst.accepted ▸ List.prefix_refl _

theorem step (hback : hw.backto0 = false) (h : Delivers f s) {a : Act}
    (hstep : step hw s a = some t) : Delivers f t := by
  obtain ⟨ht, -, hfull⟩ := h.toGoBackN.step hback hstep
  have hprefix := accepted_prefix hstep
  refine ⟨ht, (size_of_step hstep).trans h.size, fun hdone => ?_⟩
  by_cases hopen : s.completions = 0
  · -- the event calls `QpComplete`, when the receiver expects nothing more
    have htiles := h.tiles (h.live.1 hopen)
    rw [hfull (hopen ▸ hdone), h.size] at htiles
    exact ⟨_, hprefix, htiles⟩
  · obtain ⟨l, hl, htiles⟩ := h.whole hopen
    exact ⟨l, hl.trans hprefix, htiles⟩

end Delivers

/-! ### Nothing is sent twice -/

/-- `QpComplete` was called, and nothing is left to send or to arrive. -/
structure Over (f : Flow) (s : Connection) : Prop where
  live : s.live = false
  size : s.qp.size = f.size
  sent : f.size.toNat ≤ s.qp.sndNxt.toNat
  data : s.data = []

/-- `m` packets have been sent, and `n` of them have been taken in. -/
structure Smooth (hw : RdmaHw) (bps : UInt64) (f : Flow) (n m : ℕ) (s : Connection) : Prop where
  stage : Flowing hw bps f Set.univ n m s ∨ Over f s
  le : n ≤ m
  accepted : s.accepted = (List.range n).map (packetRange hw f)
  positive : ∀ p ∈ s.data, p.size.toNat ≠ 0
  plain : ∀ a ∈ s.acks, a.nack = false

namespace Smooth

variable {hw : RdmaHw} {bps : UInt64} {f : Flow} {s t : Connection} {n m : ℕ}

theorem init (hpos : 0 < f.size.toNat) : Smooth hw bps f 0 0 (init hw bps f) where
  stage := .inl (Flowing.init hpos (Set.mem_univ bps))
  le := le_rfl
  accepted := rfl
  positive _ hp := by cases hp
  plain _ ha := by cases ha

/-- **The next packet is sent**, for the first time. -/
theorem send (hsize : f.size.toNat < 2 ^ 32) (hmtu : hw.mtu ≠ 0) (h : Smooth hw bps f n m s)
    (hstep : step hw s .send = some t) : Smooth hw bps f n (m + 1) t ∧
      ((hw.getNxtPacket s.qp).1.seq.toNat, (hw.getNxtPacket s.qp).1.size.toNat) =
        packetRange hw f m := by
  obtain ⟨hel, rfl⟩ := step_send hstep
  have hleft : s.qp.getBytesLeft.toNat ≠ 0 := by
    have hgt : s.qp.getBytesLeft > 0 := by
      rw [RdmaQueuePair.isEligible, Bool.and_eq_true, decide_eq_true_iff] at hel
      exact hel.1
    rw [gt_iff_lt, UInt64.lt_iff_toNat_lt] at hgt
    exact hgt.ne'
  rw [RdmaQueuePair.toNat_getBytesLeft] at hleft
  rcases h.stage with hflow | hover
  · have hsz := hflow.size
    have hnxt := hflow.sndNxt
    have hsmall : s.qp.size.toNat < 2 ^ 32 := by rwa [hsz]
    obtain ⟨hseq, hpayload, -⟩ := RdmaHw.getNxtPacket_spec hw hsmall (by omega)
    have hsucc : hw.boundary f.size.toNat (m + 1) = hw.boundary f.size.toNat m +
        min hw.mtu.toNat (f.size.toNat - hw.boundary f.size.toNat m) := RdmaHw.boundary_succ m
    have hmtu' : hw.mtu.toNat ≠ 0 := fun h0 => hmtu (UInt32.toNat_inj.1 h0)
    rw [hsz] at hpayload hleft
    refine ⟨⟨.inl (hflow.send hsize hstep), h.le.trans m.le_succ, h.accepted, fun p hp => ?_,
      h.plain⟩, ?_⟩
    · rcases List.mem_append.1 hp with hp | hp
      · exact h.positive p hp
      · rw [List.mem_singleton.1 hp, hpayload]
        omega
    · rw [hseq, hpayload, packetRange, hsucc, hnxt, Nat.add_sub_cancel_left]
  · have hsent := hover.sent
    rw [hover.size] at hleft
    omega

/-- A packet arrives in order and is taken in. -/
theorem dataArrives (hsize : f.size.toNat < 2 ^ 32) (hint : hw.ackInterval ≠ 0)
    (h : Smooth hw bps f n m s) (hstep : step hw s (.dataArrives 0 false) = some t) :
    Smooth hw bps f (n + 1) m t := by
  rcases h.stage with hflow | hover
  · obtain ⟨hnext, htail⟩ := hflow.dataArrives hsize hint hstep
    obtain ⟨p, v, q, hp, hq, rfl⟩ := step_dataArrives hstep
    obtain ⟨rest, hrest⟩ := List.head?_eq_some_iff.1 (List.head?_eq_getElem?.trans hp)
    have hdata := hflow.data
    rw [hrest, List.map_cons] at hdata
    obtain ⟨j, hj⟩ : ∃ j, m - n = j + 1 := by
      cases hmn : m - n with
      | zero => simp [hmn] at hdata
      | succ j => exact ⟨j, rfl⟩
    rw [hj, List.range'_succ, List.map_cons, List.cons.injEq] at hdata
    have hseq : p.seq.toNat = hw.boundary f.size.toNat n := congrArg Prod.fst hdata.1
    have hexp : p.seq = s.expected := UInt32.toNat_inj.1 (hseq.trans hflow.expected.symm)
    obtain ⟨-, hv⟩ := RdmaHw.receiveUdp_of_seq_eq hq hexp
    have haccepts : v.accepts = true := by
      rw [hv]
      split_ifs <;> rfl
    refine ⟨.inl hnext, by omega, ?_, fun p' hp' => h.positive p' ?_, hnext.plain⟩
    · rw [haccepts, if_pos rfl, h.accepted, List.range_succ, List.map_append, hdata.1]
      rfl
    · rw [htail] at hp'
      exact List.mem_of_mem_tail hp'
  · obtain ⟨p, v, q, hp, -⟩ := step_dataArrives hstep
    rw [hover.data] at hp
    cases hp

/-- A reply arrives; when it finishes the flow, nothing is left to send or to arrive. -/
theorem ackArrives (hpos : 0 < f.size.toNat) (hint : hw.ackInterval ≠ 0)
    (h : Smooth hw bps f n m s) (hstep : step hw s (.ackArrives 0 false) = some t) :
    Smooth hw bps f n m t := by
  have haccepted : t.accepted = s.accepted := by
    obtain ⟨ch, -, ⟨-, rfl⟩ | ⟨-, qp, done, -, rfl⟩⟩ := step_ackArrives hstep
    · rfl
    · split_ifs <;> rfl
  rcases h.stage with hflow | hover
  · obtain ⟨hacks, hdata, hnext⟩ := hflow.ackArrives hint hstep
    have hplain : ∀ a ∈ t.acks, a.nack = false := fun a ha =>
      h.plain a (List.mem_of_mem_tail (hacks ▸ ha))
    have hpositive : ∀ p ∈ t.data, p.size.toNat ≠ 0 := fun p hp => h.positive p (hdata ▸ hp)
    refine ⟨?_, h.le, haccepted.trans h.accepted, hpositive, hplain⟩
    rcases hnext with hnext | ⟨hdone, hfull⟩
    · exact .inl hnext
    · -- the receiver has got the last byte, so that no packet is under way
      obtain ⟨hend, -⟩ := (RdmaHw.le_ackedAfter_iff hpos).1 hfull
      have hmono : hw.boundary f.size.toNat n ≤ hw.boundary f.size.toNat m :=
        RdmaHw.boundary_mono hflow.le
      have hsame : t.qp.sndNxt = s.qp.sndNxt := by
        obtain ⟨ch, hch, ⟨hdead, -⟩ | ⟨-, qp, done, hqp, rfl⟩⟩ := step_ackArrives hstep
        · rw [hflow.live] at hdead
          cases hdead
        · obtain ⟨una, nxt, rfl, -, hnxt, -⟩ := RdmaHw.processAck_eq_some hqp
          rw [h.plain ch (List.mem_of_getElem? hch)] at hnxt
          split_ifs <;> exact hnxt
      have hnxt := hflow.sndNxt
      refine .inr ⟨hdone.live, hdone.size, by rw [hsame]; omega, ?_⟩
      have hranges := hflow.data
      rw [hdata]
      cases hs : s.data with
      | nil => rfl
      | cons p rest =>
        rw [hs, List.map_cons] at hranges
        cases hmn : m - n with
        | zero => simp [hmn] at hranges
        | succ j =>
          rw [hmn, List.range'_succ, List.map_cons, List.cons.injEq] at hranges
          have hzero : p.size.toNat = hw.boundary f.size.toNat (n + 1) -
            hw.boundary f.size.toNat n := congrArg Prod.snd hranges.1
          have hle : hw.boundary f.size.toNat (n + 1) ≤ f.size.toNat := RdmaHw.boundary_le _
          exact absurd (by omega) (h.positive p (hs ▸ List.mem_cons_self))
  · obtain ⟨ch, -, ⟨-, rfl⟩ | ⟨hlive, -⟩⟩ := step_ackArrives hstep
    · exact ⟨.inr ⟨hover.live, hover.size, hover.sent, hover.data⟩, h.le, h.accepted, h.positive,
        fun a ha => h.plain a (mem_of_mem_remove (show a ∈ remove s.acks 0 false from ha))⟩
    · rw [hover.live] at hlive
      cases hlive

theorem outside (hpos : 0 < f.size.toNat) (hsize : f.size.toNat < 2 ^ 32)
    (hint : hw.ackInterval ≠ 0) (h : Smooth hw bps f n m s) {a : Act} (ha : a.Outside False)
    (hstep : step hw s a = some t) : ∃ n', Smooth hw bps f n' m t := by
  cases a with
  | send => exact absurd rfl ha.2
  | dataArrives k keep =>
    obtain ⟨⟨rfl, rfl⟩, -⟩ := ha
    exact ⟨n + 1, h.dataArrives hsize hint hstep⟩
  | ackArrives k keep =>
    obtain ⟨⟨rfl, rfl⟩, -⟩ := ha
    exact ⟨n, h.ackArrives hpos hint hstep⟩
  | dropData k => exact ha.1.elim
  | dropAck k => exact ha.1.elim
  | tick dt =>
    cases hstep
    refine ⟨n, ?_, h.le, h.accepted, h.positive, h.plain⟩
    rcases h.stage with hflow | hover
    · exact .inl (hflow.tick (s.now + dt))
    · exact .inr ⟨hover.live, hover.size, hover.sent, hover.data⟩
  | setRate rate =>
    cases hstep
    refine ⟨n, ?_, h.le, h.accepted, h.positive, h.plain⟩
    rcases h.stage with hflow | hover
    · exact .inl (hflow.setRate (Set.mem_univ rate))
    · exact .inr ⟨hover.live, hover.size, hover.sent, hover.data⟩

/-- **Nothing is sent while the sender does not send.** -/
theorem reach (hpos : 0 < f.size.toNat) (hsize : f.size.toNat < 2 ^ 32)
    (hint : hw.ackInterval ≠ 0) (h : Smooth hw bps f n m s)
    (hreach : Run.Reach (step hw) (fun _ a => a.Outside False) s t) :
    ∃ n', Smooth hw bps f n' m t :=
  hreach.invariant (I := fun s => ∃ n', Smooth hw bps f n' m s) ⟨n, h⟩
    fun _ _ _ ⟨_, hn⟩ ha hstep => hn.outside hpos hsize hint ha hstep

end Smooth

end Connection

end HpccSim
