import HpccSim.Connection
import Mathlib.Data.List.Sublists

/-!
# When the send window inverts

`GetOnTheFly` is the unsigned difference of `snd_nxt` and `snd_una`. A NACK sets `snd_nxt` back to
`snd_una`, while packets sent before it may still be acknowledged: the receiver sends a second NACK
for the same number once `m_nackTimer` has expired, and if the retransmitted packet arrives right
behind it, the acknowledgement of that packet finds `snd_nxt` set back below it. Then `snd_una`
passes `snd_nxt` and the difference wraps.

That is the only way. The danger is decided when the sender goes back: the window keeps its order
if nothing that is under way at that moment, and no acknowledgement that the receiver may still send
for the packets under way, exceeds the number the sender goes back to. Whatever is acknowledged
later has been sent again before.

## Main definitions

* `Connection.WindowOrdered`: `snd_una <= snd_nxt <= m_size`, and `GetOnTheFly` is their distance.
* `Connection.acksFor`: what the receiver acknowledges as given packets arrive.
* `Connection.RewindSafe`: a NACK that arrives leaves nothing to come that exceeds its number.
* `Connection.Covered`: all that is acknowledged, or may be before more is sent, is within the
  window.

## Main results

* `Connection.always_windowOrdered_of_rewindSafe`: the window is in order along a run through safe
  NACKs.
* `Connection.always_windowOrdered_iff`: it is in order exactly as long as no acknowledgement that
  arrives exceeds `snd_nxt`.
* `Connection.exists_inverted_of_not_rewindSafe`: from a NACK that is not safe on it can invert.
* `Connection.exists_window_inverted`: a run in order, with one packet lost, in which it inverts.
-/

namespace HpccSim

namespace Connection

/-- The pointers of the sender are in order and `GetOnTheFly` is the distance of the two. -/
def WindowOrdered (s : Connection) : Prop :=
  s.qp.sndUna.toNat ≤ s.qp.sndNxt.toNat ∧ s.qp.sndNxt.toNat ≤ s.qp.size.toNat ∧
    s.qp.getOnTheFly.toNat = s.qp.sndNxt.toNat - s.qp.sndUna.toNat

/-- If a reply that is not a NACK reaches a live sender, its number is at most `snd_nxt`. -/
def AckWithinWindow (hw : RdmaHw) (s : Connection) : Act → Prop
  | .ackArrives k _ => ∀ ch, s.acks[k]? = some ch → s.live = true → ch.nack = false →
      hw.ackedSeq ch.seq ≤ s.qp.sndNxt.toNat
  | _ => True

/-- The numbers that a receiver expecting `e` acknowledges as the packets of a list arrive, one
after the other. -/
def acksFor (hw : RdmaHw) : UInt32 → List DataPacket → List UInt32
  | _, [] => []
  | e, p :: l =>
    if p.seq = e then
      let e := p.seq + p.size
      if e ≥ hw.ackInterval ∨ e % hw.chunk = 0 then e :: acksFor hw e l else acksFor hw e l
    else
      acksFor hw e l

/-- If a NACK reaches a live sender, no acknowledgement under way exceeds the number that the sender
goes back to, and none that the receiver sends if some of the packets under way arrive. -/
def RewindSafe (hw : RdmaHw) (s : Connection) : Act → Prop
  | .ackArrives k _ => ∀ ch ∈ s.acks[k]?, s.live = true → ch.nack = true →
      (∀ a ∈ s.acks, a.nack = false →
        hw.ackedSeq a.seq ≤ max s.qp.sndUna.toNat (hw.ackedSeq ch.seq)) ∧
      ∀ l ∈ s.data.sublists, ∀ e ∈ acksFor hw s.expected l,
        hw.ackedSeq e ≤ max s.qp.sndUna.toNat (hw.ackedSeq ch.seq)
  | _ => True

instance (hw : RdmaHw) (s : Connection) : (a : Act) → Decidable (RewindSafe hw s a)
  | .ackArrives k _ =>
    -- not by trying all numbers of 32 bits
    have (l : List DataPacket) (n : ℕ) :
        Decidable (∀ e ∈ acksFor hw s.expected l, hw.ackedSeq e ≤ n) := List.decidableBAll _ _
    inferInstanceAs (Decidable (∀ ch ∈ s.acks[k]?, _ → _ → _ ∧ _))
  | .send | .dataArrives _ _ | .dropData _ | .dropAck _ | .tick _ | .setRate _ => .isTrue trivial

variable {hw : RdmaHw} {bps : UInt64} {f : Flow} {s t : Connection}

/-- The window is in order and no number exceeds the flow. -/
structure Ordered (s : Connection) : Prop where
  inRange : InRange s
  window : s.qp.sndUna.toNat ≤ s.qp.sndNxt.toNat

namespace Ordered

theorem windowOrdered (h : Ordered s) : WindowOrdered s :=
  ⟨h.window, h.inRange.sndNxt, RdmaQueuePair.toNat_getOnTheFly h.window⟩

theorem init (hsize : f.size.toNat < 2 ^ 32) : Ordered (init hw bps f) :=
  ⟨.init bps hsize, Nat.zero_le _⟩

/-- An action that breaks no rule keeps the order. -/
theorem step {a : Act} (h : Ordered s) (hC : AckWithinWindow hw s a)
    (hstep : step hw s a = some t) : Ordered t := by
  refine ⟨h.inRange.step hstep, ?_⟩
  have hwin := h.window
  rcases shrinks_of_step hstep with rfl | ⟨k, keep, rfl⟩ | ⟨k, keep, rfl⟩ | hst
  · obtain ⟨-, rfl⟩ := step_send hstep
    obtain ⟨-, -, hnxt⟩ := RdmaHw.getNxtPacket_spec hw h.inRange.size h.inRange.sndNxt
    simp only [RdmaHw.sndUna_getNxtPacket]
    omega
  · obtain ⟨p, v, q, -, -, rfl⟩ := step_dataArrives hstep
    exact hwin
  · obtain ⟨ch, hch, ⟨-, rfl⟩ | ⟨hlive, qp, done, hqp, rfl⟩⟩ := step_ackArrives hstep
    · exact hwin
    · obtain ⟨una, nxt, rfl, huna, rfl, -⟩ := RdmaHw.processAck_eq_some hqp
      have hnew : una.toNat ≤ (if ch.nack then una else s.qp.sndNxt).toNat := by
        cases hnack : ch.nack with
        | true => simp
        | false =>
          have hseq := hC ch hch hlive hnack
          simp only [Bool.false_eq_true, if_false]
          omega
      split_ifs at hnew ⊢ <;> exact hnew
  · rw [hst.sndUna, hst.sndNxt]
    exact hwin

/-- An acknowledgement that exceeds `snd_nxt` inverts the window. -/
theorem inverts {a : Act} (hback : hw.backto0 = false) (hC : ¬ AckWithinWindow hw s a) :
    ∃ t, Connection.step hw s a = some t ∧ ¬ WindowOrdered t := by
  cases a with
  | ackArrives k keep =>
    simp only [AckWithinWindow, not_forall, Nat.not_le] at hC
    obtain ⟨ch, hch, hlive, hnack, hgt⟩ := hC
    obtain ⟨t, hstep⟩ := exists_step_ackArrives keep (.inl hback) hch
    refine ⟨t, hstep, fun hord => ?_⟩
    obtain ⟨ch', hch', ⟨hdead, -⟩ | ⟨-, qp, done, hqp, rfl⟩⟩ := step_ackArrives hstep
    · rw [hlive] at hdead
      cases hdead
    cases hch.symm.trans hch'
    obtain ⟨una, nxt, rfl, huna, hnxt, -⟩ := RdmaHw.processAck_eq_some hqp
    rw [hnack] at hnxt
    have hle : una.toNat ≤ nxt.toNat := by
      have := hord.1
      split_ifs at this <;> exact this
    rw [hnxt] at hle
    simp only [Bool.false_eq_true, if_false] at hle
    omega
  | send | dataArrives | dropData | dropAck | tick | setRate => exact absurd trivial hC

end Ordered

/-- **When the send window inverts.** Whatever the network does, the window is in order in every
state of a run if and only if no acknowledgement that arrives exceeds `snd_nxt`. -/
theorem always_windowOrdered_iff {acts : List Act} (hback : hw.backto0 = false)
    (hsize : f.size.toNat < 2 ^ 32) :
    Run.Always (step hw) WindowOrdered (init hw bps f) acts ↔
      Run.Along (step hw) (AckWithinWindow hw) (init hw bps f) acts := by
  constructor
  · exact Run.along_of_always (I := Ordered) (fun s a t h _ hC hstep => h.step hC hstep)
      (fun s a _ _ hC => Ordered.inverts hback hC) (.init hsize)
  · exact Run.always_of_invariant (I := Ordered) (fun s a t h hC hstep => h.step hC hstep)
      (fun s h => h.windowOrdered) (.init hsize)

/-! ### What may still be acknowledged -/

/-- One packet more adds its own end at most. -/
theorem mem_acksFor_append {e x : UInt32} {l : List DataPacket} {p : DataPacket}
    (h : x ∈ acksFor hw e (l ++ [p])) : x ∈ acksFor hw e l ∨ x = p.seq + p.size := by
  induction l generalizing e with
  | nil =>
    simp only [List.nil_append, acksFor] at h
    split_ifs at h
    · exact .inr (List.mem_singleton.1 h)
    · cases h
    · cases h
  | cons p' l ih =>
    simp only [List.cons_append, acksFor] at h ⊢
    split_ifs at h ⊢
    · rcases List.mem_cons.1 h with rfl | h
      · exact .inl List.mem_cons_self
      · exact (ih h).imp_left (List.mem_cons_of_mem _)
    · exact ih h
    · exact ih h

/-- What is acknowledged as a packet and then others arrive is the reply to the packet, if it is no
NACK, and what is acknowledged from there on. -/
theorem acksFor_cons {p : DataPacket} {v : SeqVerdict} {q : RdmaRxQueuePair}
    (hback : hw.backto0 = false) (hq : hw.receiveUdp s.now s.rxQp p = some (v, q))
    (l : List DataPacket) :
    acksFor hw s.expected (p :: l) =
      ((RdmaHw.reply q v).filter fun a => !a.nack).map AckFrame.seq ++
        acksFor hw q.receiverNextExpectedSeq l := by
  rcases RdmaHw.receiverCheckSeq_cases hq with ⟨hseq, -, -⟩ | hother
  · obtain ⟨hnew, hv⟩ := RdmaHw.receiveUdp_of_seq_eq hq hseq
    have hseq' : p.seq = s.expected := hseq
    rw [acksFor, if_pos hseq', hnew]
    by_cases hend : p.seq + p.size ≥ hw.ackInterval ∨ (p.seq + p.size) % hw.chunk = 0
    · rw [if_pos hend] at hv
      simp only [if_pos hend, hv, RdmaHw.reply, hnew]
      rfl
    · rw [if_neg hend] at hv
      simp only [if_neg hend, hv]
      rfl
  · have hexp : q.receiverNextExpectedSeq = s.expected := by
      rcases hother with ⟨-, -, hq⟩ | ⟨-, hq⟩
      · rw [hq, hback]
        rfl
      · rw [hq]
        rfl
    have hne : p.seq ≠ s.expected := by
      intro hseq
      rcases hother with ⟨-, hlt, -⟩ | ⟨⟨-, hlt⟩ | ⟨-, hlt⟩, -⟩
      all_goals exact UInt32.lt_irrefl _ (hseq ▸ hlt)
    rw [acksFor, if_neg hne, hexp]
    rcases hother with ⟨rfl, -, -⟩ | ⟨⟨rfl, -⟩ | ⟨rfl, -⟩, -⟩ <;> rfl

/-- While the queue pair is live, no acknowledgement under way exceeds `snd_nxt`, and none that the
receiver sends if some of the packets under way arrive. -/
structure Covered (hw : RdmaHw) (s : Connection) : Prop extends Ordered s where
  acks : s.live = true → ∀ a ∈ s.acks, a.nack = false → hw.ackedSeq a.seq ≤ s.qp.sndNxt.toNat
  data : s.live = true → ∀ l, l.Sublist s.data → ∀ e ∈ acksFor hw s.expected l,
    hw.ackedSeq e ≤ s.qp.sndNxt.toNat

namespace Covered

theorem init (hsize : f.size.toNat < 2 ^ 32) : Covered hw (init hw bps f) where
  toOrdered := .init hsize
  acks _ a ha := by cases ha
  data _ l hl e he := by
    rw [List.sublist_nil.1 hl] at he
    cases he

theorem ackWithinWindow (h : Covered hw s) (a : Act) : AckWithinWindow hw s a := by
  cases a with
  | ackArrives k keep =>
    exact fun ch hch hlive hnack => h.acks hlive ch (List.mem_of_getElem? hch) hnack
  | send | dataArrives | dropData | dropAck | tick | setRate => trivial

/-- A packet that is sent ends at the new `snd_nxt`. -/
theorem send (h : Covered hw s) (hstep : Connection.step hw s .send = some t) : Covered hw t := by
  have hord := h.toOrdered.step (h.ackWithinWindow _) hstep
  obtain ⟨-, rfl⟩ := step_send hstep
  obtain ⟨hseq, -, hnxt⟩ := RdmaHw.getNxtPacket_spec hw h.inRange.size h.inRange.sndNxt
  refine ⟨hord, fun hlive a ha hnack => ?_, fun hlive l hl e he => ?_⟩
  · have hle := h.acks hlive a ha hnack
    simp only
    omega
  · have hmore : ∀ l', l'.Sublist s.data → ∀ e ∈ acksFor hw s.expected l',
        hw.ackedSeq e ≤ (hw.getNxtPacket s.qp).2.sndNxt.toNat := by
      intro l' hl' e he
      have hle := h.data hlive l' hl' e he
      omega
    obtain ⟨l₁, l₂, rfl, hl₁, hl₂⟩ := List.sublist_append_iff.1 hl
    rcases List.sublist_singleton.1 hl₂ with rfl | rfl
    · rw [List.append_nil] at he
      exact hmore l₁ hl₁ e he
    · rcases mem_acksFor_append he with he | rfl
      · exact hmore l₁ hl₁ e he
      · have hle := hw.ackedSeq_le ((hw.getNxtPacket s.qp).1.seq + (hw.getNxtPacket s.qp).1.size)
        rw [UInt32.toNat_add] at hle
        have hmod := Nat.mod_le ((hw.getNxtPacket s.qp).1.seq.toNat +
          (hw.getNxtPacket s.qp).1.size.toNat) (2 ^ 32)
        simp only
        omega

/-- What the receiver acknowledges on the arrival of the oldest packet, and may acknowledge after
it, is what it might have acknowledged before. -/
theorem dataArrives (h : Covered hw s) (hback : hw.backto0 = false)
    (hstep : Connection.step hw s (.dataArrives 0 false) = some t) : Covered hw t := by
  have hord := h.toOrdered.step (h.ackWithinWindow _) hstep
  obtain ⟨p, v, q, hp, hq, rfl⟩ := step_dataArrives hstep
  obtain ⟨rest, hdata⟩ : ∃ rest, s.data = p :: rest := by
    cases hs : s.data with
    | nil => simp [hs] at hp
    | cons p' rest =>
      rw [hs] at hp
      cases hp
      exact ⟨rest, rfl⟩
  have hrest : remove s.data 0 false = rest := by simp [remove, hdata]
  refine ⟨hord, fun hlive a ha hnack => ?_, fun hlive l hl e he => ?_⟩
  · rcases List.mem_append.1 ha with ha | ha
    · exact h.acks hlive a ha hnack
    · refine h.data hlive [p] ?_ _ ?_
      · rw [hdata]
        exact (List.nil_sublist _).cons_cons p
      · rw [acksFor_cons hback hq]
        refine List.mem_append_left _ (List.mem_map_of_mem (List.mem_filter.2 ⟨ha, ?_⟩))
        rw [hnack]
        rfl
  · refine h.data hlive (p :: l) ?_ e ?_
    · rw [hdata]
      exact (hrest ▸ hl).cons_cons p
    · rw [acksFor_cons hback hq]
      exact List.mem_append_right _ he

/-- A NACK that is safe leaves everything within the window. -/
theorem ackArrives {k : ℕ} {keep : Bool} (h : Covered hw s)
    (hsafe : RewindSafe hw s (.ackArrives k keep))
    (hstep : Connection.step hw s (.ackArrives k keep) = some t) : Covered hw t := by
  have hord := h.toOrdered.step (h.ackWithinWindow _) hstep
  obtain ⟨ch, hch, ⟨hdead, rfl⟩ | ⟨hlive, qp, done, hqp, rfl⟩⟩ := step_ackArrives hstep
  · exact ⟨hord, fun hlive => absurd hlive (by simp [hdead]),
      fun hlive => absurd hlive (by simp [hdead])⟩
  · cases done with
    | true =>
      exact ⟨hord, fun hlive => absurd hlive Bool.false_ne_true,
        fun hlive => absurd hlive Bool.false_ne_true⟩
    | false =>
      obtain ⟨una, nxt, rfl, huna, hnxt, -⟩ := RdmaHw.processAck_eq_some hqp
      cases hnack : ch.nack with
      | false =>
        rw [hnack] at hnxt
        subst hnxt
        exact ⟨hord, fun _ a ha => h.acks hlive a (mem_of_mem_remove ha), fun _ => h.data hlive⟩
      | true =>
        rw [hnack] at hnxt
        subst hnxt
        obtain ⟨hacks, hdata⟩ := hsafe ch hch hlive hnack
        rw [← huna] at hacks hdata
        exact ⟨hord, fun _ a ha => hacks a (mem_of_mem_remove ha),
          fun _ l hl => hdata l (List.mem_sublists.2 hl)⟩

/-- Every action in order that is safe keeps the window covered. -/
theorem step {a : Act} (h : Covered hw s) (hback : hw.backto0 = false) (hfifo : a.Fifo)
    (hsafe : RewindSafe hw s a) (hstep : Connection.step hw s a = some t) : Covered hw t := by
  have hord := h.toOrdered.step (h.ackWithinWindow _) hstep
  cases a with
  | send => exact h.send hstep
  | dataArrives k keep =>
    obtain ⟨rfl, rfl⟩ := hfifo
    exact h.dataArrives hback hstep
  | ackArrives k keep => exact h.ackArrives hsafe hstep
  | dropData k =>
    simp only [Connection.step] at hstep
    split_ifs at hstep
    cases hstep
    exact ⟨hord, h.acks, fun hlive l hl => h.data hlive l (hl.trans (List.eraseIdx_sublist _ _))⟩
  | dropAck k => exact absurd hfifo id
  | tick dt | setRate rate =>
    cases hstep
    exact ⟨hord, h.acks, h.data⟩

end Covered

/-- **The send window never inverts** along a run over first in, first out channels if every NACK
that reaches the live sender is safe. -/
theorem always_windowOrdered_of_rewindSafe {acts : List Act} (hback : hw.backto0 = false)
    (hsize : f.size.toNat < 2 ^ 32) (hfifo : ∀ a ∈ acts, a.Fifo)
    (hsafe : Run.Along (step hw) (RewindSafe hw) (init hw bps f) acts) :
    Run.Always (step hw) WindowOrdered (init hw bps f) acts := by
  have hC : Run.Along (step hw) (fun s a => a.Fifo ∧ RewindSafe hw s a) (init hw bps f) acts :=
    hsafe.mono fun s a ha h => ⟨hfifo a ha, h⟩
  exact Run.always_of_invariant (I := Covered hw)
    (fun s a t h hC hstep => h.step hback hC.1 hC.2 hstep) (fun s h => h.windowOrdered)
    (.init hsize) hC

/-! ### An unsafe NACK can invert the window -/

/-- While the queue pair is live, an acknowledgement under way exceeds all replies before it, and
none exceeds what the receiver expects. -/
structure Serial (s : Connection) : Prop extends InRange s where
  pos : ∀ p ∈ s.data, 0 < p.size.toNat
  acks_le : s.live = true → ∀ a ∈ s.acks, a.seq.toNat ≤ s.expected.toNat
  pairwise : s.live = true →
    s.acks.Pairwise fun a b => b.nack = false → a.seq.toNat < b.seq.toNat

namespace Serial

theorem init (hsize : f.size.toNat < 2 ^ 32) : Serial (init hw bps f) where
  toInRange := .init bps hsize
  pos _ hp := by cases hp
  acks_le _ _ ha := by cases ha
  pairwise _ := .nil

theorem send (h : Serial s) (hmtu : hw.mtu ≠ 0) (hstep : Connection.step hw s .send = some t) :
    Serial t := by
  have hrange := h.toInRange.step hstep
  obtain ⟨hel, rfl⟩ := step_send hstep
  refine ⟨hrange, fun p hp => ?_, h.acks_le, h.pairwise⟩
  rcases List.mem_append.1 hp with hp | hp
  · exact h.pos p hp
  · obtain ⟨-, hpayload, -⟩ := RdmaHw.getNxtPacket_spec hw h.size h.sndNxt
    have hleft : 0 < s.qp.getBytesLeft.toNat := by
      rw [RdmaQueuePair.isEligible, Bool.and_eq_true, decide_eq_true_iff, gt_iff_lt,
        UInt64.lt_iff_toNat_lt] at hel
      exact hel.1
    have hpos : 0 < hw.mtu.toNat := Nat.pos_of_ne_zero fun h => hmtu (UInt32.toNat_inj.1 h)
    rw [RdmaQueuePair.toNat_getBytesLeft] at hleft
    rw [List.mem_singleton.1 hp, hpayload]
    omega

theorem dataArrives (h : Serial s) (hback : hw.backto0 = false)
    (hstep : Connection.step hw s (.dataArrives 0 false) = some t) : Serial t := by
  have hrange := h.toInRange.step hstep
  obtain ⟨p, v, q, hp, hq, rfl⟩ := step_dataArrives hstep
  have hmem := List.mem_of_getElem? hp
  have hfit := h.data p hmem
  have hsize := h.size
  have hpos := h.pos p hmem
  -- a reply that is no NACK is sent for a packet taken in
  have hexp : s.expected.toNat ≤ q.receiverNextExpectedSeq.toNat ∧
      ∀ a ∈ RdmaHw.reply q v, a.nack = false →
        s.expected.toNat < q.receiverNextExpectedSeq.toNat := by
    rcases RdmaHw.receiveUdp_cases hq (by omega) with ⟨-, hseq, hnew⟩ | ⟨hno, -, hsame⟩
    · have hseq' : p.seq.toNat = s.expected.toNat := congrArg UInt32.toNat hseq
      have hlt : s.expected.toNat < q.receiverNextExpectedSeq.toNat := by omega
      exact ⟨hlt.le, fun _ _ _ => hlt⟩
    · refine ⟨(congrArg UInt32.toNat (hsame hback)).ge, fun a ha hnack => ?_⟩
      cases v <;> simp_all [RdmaHw.reply, SeqVerdict.accepts]
  refine ⟨hrange, fun p' hp' => h.pos p' (List.mem_of_mem_eraseIdx hp'),
    fun hlive a ha => ?_, fun hlive => List.pairwise_append.2
      ⟨h.pairwise hlive, ?_, fun a ha b hb hnack => ?_⟩⟩
  · rcases List.mem_append.1 ha with ha | ha
    · exact (h.acks_le hlive a ha).trans hexp.1
    · exact (congrArg UInt32.toNat (RdmaHw.seq_of_mem_reply ha)).le
  · cases v <;> simp [RdmaHw.reply]
  · rw [RdmaHw.seq_of_mem_reply hb]
    exact (h.acks_le hlive a ha).trans_lt (hexp.2 b hb hnack)

theorem ackArrives {k : ℕ} (h : Serial s)
    (hstep : Connection.step hw s (.ackArrives k false) = some t) : Serial t := by
  have hrange := h.toInRange.step hstep
  have hsub : (remove s.acks k false).Sublist s.acks := List.eraseIdx_sublist _ _
  obtain ⟨ch, -, ⟨hdead, rfl⟩ | ⟨hlive, qp, done, -, rfl⟩⟩ := step_ackArrives hstep
  · exact ⟨hrange, h.pos, fun hlive => absurd hlive (by simp [hdead]),
      fun hlive => absurd hlive (by simp [hdead])⟩
  · cases done with
    | true =>
      exact ⟨hrange, h.pos, fun hlive => absurd hlive Bool.false_ne_true,
        fun hlive => absurd hlive Bool.false_ne_true⟩
    | false =>
      exact ⟨hrange, h.pos, fun hlive a ha => h.acks_le hlive a (hsub.subset ha),
        fun hlive => (h.pairwise hlive).sublist hsub⟩

theorem step {a : Act} (h : Serial s) (hback : hw.backto0 = false) (hmtu : hw.mtu ≠ 0)
    (hfifo : a.Fifo) (hstep : Connection.step hw s a = some t) : Serial t := by
  have hrange := h.toInRange.step hstep
  cases a with
  | send => exact h.send hmtu hstep
  | dataArrives k keep =>
    obtain ⟨rfl, rfl⟩ := hfifo
    exact h.dataArrives hback hstep
  | ackArrives k keep =>
    obtain ⟨rfl, rfl⟩ := hfifo
    exact h.ackArrives hstep
  | dropData k =>
    simp only [Connection.step] at hstep
    split_ifs at hstep
    cases hstep
    exact ⟨hrange, fun p hp => h.pos p (List.mem_of_mem_eraseIdx hp), h.acks_le, h.pairwise⟩
  | dropAck k => exact absurd hfifo id
  | tick dt | setRate rate =>
    cases hstep
    exact ⟨hrange, h.pos, h.acks_le, h.pairwise⟩

end Serial

/-- When the sender has gone back and sends nothing, an acknowledgement under way that exceeds
`snd_nxt` inverts the window: the replies before it only move the sender to smaller numbers. -/
theorem exists_inverted_of_ack (hback : hw.backto0 = false) (h : Serial s) (hlive : s.live = true)
    (hnxt : s.qp.sndNxt = s.qp.sndUna) {a : AckFrame} (ha : a ∈ s.acks) (hack : a.nack = false)
    (hgt : s.qp.sndUna.toNat < hw.ackedSeq a.seq) :
    ∃ acts t, (∀ b ∈ acts, b.Fifo) ∧ Run.exec (step hw) s acts = some t ∧ ¬ WindowOrdered t := by
  induction hacks : s.acks generalizing s with
  | nil =>
    rw [hacks] at ha
    cases ha
  | cons b rest ih =>
    have hb : s.acks[0]? = some b := by simp [hacks]
    have hfifo : ∀ c ∈ [Act.ackArrives 0 false], c.Fifo := by simp [Act.Fifo]
    obtain ⟨t, hstep⟩ := exists_step_ackArrives false (.inl hback) hb
    have ht := h.ackArrives hstep
    have hfirst : Run.exec (step hw) s [.ackArrives 0 false] = some t := Run.exec_single.2 hstep
    obtain ⟨b', hb', ⟨hdead, -⟩ | ⟨-, qp, done, hqp, rfl⟩⟩ := step_ackArrives hstep
    · exact absurd hlive (by simp [hdead])
    cases hb.symm.trans hb'
    obtain ⟨una, nxt, rfl, huna, rfl, hdone⟩ := RdmaHw.processAck_eq_some hqp
    by_cases hbad : b.nack = false ∧ s.qp.sndUna.toNat < hw.ackedSeq b.seq
    · refine ⟨_, _, hfifo, hfirst, fun hord => ?_⟩
      have hle : una.toNat ≤ s.qp.sndNxt.toNat := by
        have hwin := hord.1
        cases done <;> simpa [complete, hbad.1] using hwin
      rw [hnxt] at hle
      omega
    · have hrest : a ∈ rest := by
        rcases List.mem_cons.1 (hacks ▸ ha) with rfl | ha
        · exact absurd ⟨hack, hgt⟩ hbad
        · exact ha
      have hint : hw.ackInterval ≠ 0 := by
        intro hint
        simp [RdmaHw.ackedSeq, hint] at hgt
      have hacked : ∀ seq, hw.ackedSeq seq = seq.toNat := by
        intro seq
        simp [RdmaHw.ackedSeq, hint, hback]
      have hpair := h.pairwise hlive
      rw [hacks] at hpair
      have hlt := (List.pairwise_cons.1 hpair).1 a hrest hack
      rw [hacked] at hgt huna
      have hsize := h.acks a ha
      obtain rfl : done = false := by
        refine Bool.eq_false_iff.2 fun h => ?_
        have := (hdone.1 h).2
        omega
      have hgt' : una.toNat < hw.ackedSeq a.seq := by
        rw [hacked]
        omega
      -- the sender is again where it has gone back to
      have hback' : (if b.nack then una else s.qp.sndNxt) = una := by
        cases hnack : b.nack with
        | true => rfl
        | false =>
          have hle : ¬ s.qp.sndUna.toNat < hw.ackedSeq b.seq := fun h => hbad ⟨hnack, h⟩
          rw [hacked] at hle
          rw [if_neg Bool.false_ne_true, hnxt]
          exact UInt64.toNat_inj.1 (by omega)
      obtain ⟨acts, u, hall, hrun, hord⟩ := ih ht hlive hback'
        (by simpa [remove, hacks] using hrest) hgt' (by simp [remove, hacks])
      exact ⟨.ackArrives 0 false :: acts, u, List.forall_mem_cons.2 ⟨⟨rfl, rfl⟩, hall⟩,
        Run.exec_trans hfirst hrun, hord⟩

theorem mem_remove_zero {α : Type*} {l : List α} {x y : α} (hx : l[0]? = some x) (hy : y ∈ l)
    (hne : y ≠ x) : y ∈ remove l 0 false := by
  cases l with
  | nil => cases hy
  | cons z l =>
    cases hx
    exact List.mem_of_ne_of_mem hne hy

/-- The network may deliver any part of the packets under way. -/
theorem exists_deliver (hback : hw.backto0 = false) (hchunk : hw.chunk ≠ 0)
    {l d : List DataPacket} (hl : l.Sublist d) (hd : s.data = d) :
    ∃ acts t, (∀ b ∈ acts, b.Fifo) ∧ Run.exec (step hw) s acts = some t ∧ t.qp = s.qp ∧
      t.live = s.live ∧ s.acks ⊆ t.acks ∧
      ∀ e ∈ acksFor hw s.expected l, ∃ a ∈ t.acks, a.nack = false ∧ a.seq = e := by
  induction hl generalizing s with
  | slnil => exact ⟨[], s, by simp, rfl, rfl, rfl, List.Subset.refl _, by simp [acksFor]⟩
  | @cons l d p hl ih =>
    have hstep : step hw s (.dropData 0) = some { s with data := d } := by simp [step, hd]
    obtain ⟨acts, t, hall, hrun, hqp, hlive, hacks, hsent⟩ :=
      ih (s := { s with data := d }) rfl
    exact ⟨.dropData 0 :: acts, t, List.forall_mem_cons.2 ⟨trivial, hall⟩,
      Run.exec_trans (Run.exec_single.2 hstep) hrun, hqp, hlive, hacks, hsent⟩
  | @cons_cons l d p hl ih =>
    have hfirst : s.data[0]? = some p := by simp [hd]
    obtain ⟨t₁, hstep⟩ := exists_step_dataArrives false hchunk hfirst
    obtain ⟨p', v, q, hp', hq, rfl⟩ := step_dataArrives hstep
    obtain rfl : p' = p := by simpa [hd] using hp'.symm
    obtain ⟨acts, t, hall, hrun, hqp, hlive, hacks, hsent⟩ :=
      ih (s := { s with
        rxQp := some q
        data := d
        acks := s.acks ++ RdmaHw.reply q v
        accepted := if v.accepts then s.accepted ++ [(p'.seq.toNat, p'.size.toNat)]
          else s.accepted }) rfl
    have hrest : remove s.data 0 false = d := by simp [remove, hd]
    rw [hrest] at hstep
    refine ⟨.dataArrives 0 false :: acts, t, List.forall_mem_cons.2 ⟨⟨rfl, rfl⟩, hall⟩,
      Run.exec_trans (Run.exec_single.2 hstep) hrun, hqp, hlive,
      fun a ha => hacks (List.mem_append_left _ ha), fun e he => ?_⟩
    rw [acksFor_cons hback hq] at he
    rcases List.mem_append.1 he with he | he
    · obtain ⟨a, ha, rfl⟩ := List.mem_map.1 he
      obtain ⟨ha, hnack⟩ := List.mem_filter.1 ha
      exact ⟨a, hacks (List.mem_append_right _ ha), by simpa using hnack, rfl⟩
    · exact hsent e he

/-- **A NACK that is not safe can invert the window.** If the NACK at the end of a run through safe
ones is not, the window inverts in some course of the run that the network may take from there,
without another packet being sent. -/
theorem exists_inverted_of_not_rewindSafe {acts : List Act} (hback : hw.backto0 = false)
    (hchunk : hw.chunk ≠ 0) (hmtu : hw.mtu ≠ 0) (hsize : f.size.toNat < 2 ^ 32)
    (hfifo : ∀ a ∈ acts, a.Fifo)
    (hsafe : Run.Along (step hw) (RewindSafe hw) (init hw bps f) acts)
    (hrun : Run.exec (step hw) (init hw bps f) acts = some s)
    (hbad : ¬ RewindSafe hw s (.ackArrives 0 false)) :
    ∃ more, (∀ a ∈ more, a.Fifo) ∧ ¬ Run.Always (step hw) WindowOrdered (init hw bps f)
      (acts ++ .ackArrives 0 false :: more) := by
  have hC : Run.Along (step hw) (fun s a => a.Fifo ∧ RewindSafe hw s a) (init hw bps f) acts :=
    hsafe.mono fun s a ha h => ⟨hfifo a ha, h⟩
  have hcov : Covered hw s := Run.exec_induction (I := Covered hw)
    (fun s a t h hC hstep => h.step hback hC.1 hC.2 hstep) (.init hsize) hC hrun
  have hser : Serial s := Run.exec_induction (I := Serial)
    (fun s a t h hC hstep => h.step hback hmtu hC.1 hstep) (.init hsize) hC hrun
  simp only [RewindSafe, List.mem_sublists, not_forall, not_and_or, not_le, exists_prop]
    at hbad
  obtain ⟨ch, hch, hlive, hnack, hbad⟩ := hbad
  obtain ⟨t, hstep⟩ := exists_step_ackArrives (s := s) false (.inl hback) hch
  have ht := hser.ackArrives hstep
  obtain ⟨ch', hch', ⟨hdead, -⟩ | ⟨-, qp, done, hqp, rfl⟩⟩ := step_ackArrives hstep
  · exact absurd hlive (by simp [hdead])
  cases hch.symm.trans hch'
  obtain ⟨una, nxt, rfl, huna, hnxt, hdone⟩ := RdmaHw.processAck_eq_some hqp
  rw [hnack, if_pos rfl] at hnxt
  obtain rfl := hnxt.symm
  rw [← huna] at hbad
  -- what may still be acknowledged is within the flow, so the NACK does not complete it
  have hwithin := hcov.inRange.sndNxt
  have hleft : una.toNat < s.qp.sndNxt.toNat := by
    rcases hbad with ⟨a, ha, hack, hgt⟩ | ⟨l, hl, e, he, hgt⟩
    · exact hgt.trans_le (hcov.acks hlive a ha hack)
    · exact hgt.trans_le (hcov.data hlive l hl e he)
  obtain rfl : done = false := by
    refine Bool.eq_false_iff.2 fun h => ?_
    have := (hdone.1 h).2
    omega
  rw [if_neg Bool.false_ne_true] at hstep ht
  set t : Connection :=
    { s with acks := remove s.acks 0 false, qp := { s.qp with sndUna := una, sndNxt := una } }
  obtain ⟨acts₁, t₁, hall₁, hrun₁, hqp₁, hlive₁, a, ha, hack, hgt⟩ : ∃ acts₁ t₁,
      (∀ b ∈ acts₁, b.Fifo) ∧ Run.exec (step hw) t acts₁ = some t₁ ∧ t₁.qp = t.qp ∧
        t₁.live = t.live ∧ ∃ a ∈ t₁.acks, a.nack = false ∧ una.toNat < hw.ackedSeq a.seq := by
    rcases hbad with ⟨a, ha, hack, hgt⟩ | ⟨l, hl, e, he, hgt⟩
    · refine ⟨[], t, by simp, rfl, rfl, rfl, a, ?_, hack, hgt⟩
      have hne : a ≠ ch := by
        rintro rfl
        exact Bool.false_ne_true (hack.symm.trans hnack)
      exact mem_remove_zero hch ha hne
    · obtain ⟨acts₁, t₁, hall, hrun, hqp, hlive, -, hsent⟩ :=
        exists_deliver (s := t) hback hchunk hl rfl
      obtain ⟨a, ha, hack, rfl⟩ := hsent e he
      exact ⟨acts₁, t₁, hall, hrun, hqp, hlive, a, ha, hack, hgt⟩
  have hser₁ : Serial t₁ := Run.exec_induction (I := Serial) (C := fun _ a => a.Fifo)
    (fun s a t h hC hstep => h.step hback hmtu hC hstep) ht
    (Run.along_of_forall (fun _ => hall₁) _) hrun₁
  obtain ⟨acts₂, u, hall₂, hrun₂, hord⟩ := exists_inverted_of_ack hback hser₁
    (hlive₁.trans hlive) (by rw [hqp₁]) ha hack (by rw [hqp₁]; exact hgt)
  refine ⟨acts₁ ++ acts₂, fun b hb => ?_, fun halways => hord (halways.last ?_)⟩
  · exact (List.mem_append.1 hb).elim (hall₁ b) (hall₂ b)
  · exact Run.exec_trans hrun (Run.exec_cons_eq_some.2 ⟨t, hstep, Run.exec_trans hrun₁ hrun₂⟩)

/-- The first of two packets is lost, the second triggers a NACK, and both are sent again. -/
theorem always_windowOrdered_resent :
    let hw : RdmaHw :=
      { mtu := 1000, chunk := 4000, ackInterval := 1, nackInterval := 500, backto0 := false
        varWin := false }
    let f : Flow :=
      { size := 2000, pg := 3, sip := 1, dip := 2, sport := 10000, dport := 100, win := 0 }
    let acts : List Act :=
      [.send, .send, .dropData 0, .dataArrives 0 false, .ackArrives 0 false, .send, .send,
        .dataArrives 0 false, .dataArrives 0 false, .ackArrives 0 false, .ackArrives 0 false]
    Run.Always (step hw) WindowOrdered (init hw 100 f) acts ∧
      (Run.exec (step hw) (init hw 100 f) acts).map (fun s => (s.live, s.qp.sndUna)) =
        some (false, 2000) := by
  intro hw f acts
  have hsafe : Run.Along (step hw) (RewindSafe hw) (init hw 100 f) acts := by decide +kernel
  exact ⟨always_windowOrdered_of_rewindSafe rfl (by decide) (by simp [acts, Act.Fifo]) hsafe,
    by decide +kernel⟩

/-- **The window can invert.** Packets and replies stay in order. The first of three packets is
lost and sent again; the third triggers a second NACK just before it arrives, and its
acknowledgement comes behind that NACK. -/
theorem exists_window_inverted :
    let hw : RdmaHw :=
      { mtu := 1000, chunk := 4000, ackInterval := 1, nackInterval := 500, backto0 := false
        varWin := false }
    let f : Flow :=
      { size := 3000, pg := 3, sip := 1, dip := 2, sport := 10000, dport := 100, win := 0 }
    let acts : List Act :=
      [.send, .send, .send, .dropData 0, .dataArrives 0 false, .ackArrives 0 false, .send,
        .tick 500, .dataArrives 0 false, .dataArrives 0 false, .ackArrives 0 false,
        .ackArrives 0 false]
    (∀ a ∈ acts, a.Fifo) ∧ ¬ Run.Always (step hw) WindowOrdered (init hw 100 f) acts ∧
      ∃ s, Run.exec (step hw) (init hw 100 f) acts = some s ∧
        s.qp.sndNxt = 0 ∧ s.qp.sndUna = 1000 ∧ s.qp.getOnTheFly.toNat = 2 ^ 64 - 1000 := by
  intro hw f acts
  have hval : (Run.exec (step hw) (init hw 100 f) acts).map
      (fun s => (s.qp.sndNxt, s.qp.sndUna, s.qp.getOnTheFly.toNat)) =
      some (0, 1000, 2 ^ 64 - 1000) := by
    decide +kernel
  obtain ⟨s, hrun, hs⟩ := Option.map_eq_some_iff.1 hval
  simp only [Prod.mk.injEq] at hs
  obtain ⟨hnxt, huna, hfly⟩ := hs
  refine ⟨by simp [acts, Act.Fifo], fun halways => ?_, s, hrun, hnxt, huna, hfly⟩
  have hle := (halways.last hrun).1
  rw [hnxt, huna] at hle
  exact absurd hle (by decide)

end Connection

end HpccSim
