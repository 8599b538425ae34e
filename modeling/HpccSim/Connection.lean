import HpccSim.Lib.Run
import HpccSim.RdmaHw
import Mathlib.Data.List.Basic

/-!
# A connection

One queue pair with its sender, its receiver and the network between them. The packets and the
replies on their way are lists, oldest first, and the actions say what the network does with them:
deliver any of them, once or again, or lose it. A restriction to an orderly network is a condition
on the actions. When the sender may transmit is left open: pauses, pacing and the other queue pairs
can only delay it. The congestion control may set the rate at any time.

`QpComplete` removes the queue pair from `m_qpMap`, so later replies are ignored, and has the
receiver forget its side.

## Main definitions

* `Connection`, `Connection.Act`, `Connection.step`.
* `Connection.Act.Fifo`, `Connection.Act.InOrder`: the disciplines of the network.
* `Connection.InRange`: no sequence number exceeds the size of the flow.

## Main results

* `Connection.step_dataArrives`, `Connection.step_ackArrives`: what the two receptions do.
* `Connection.InRange.step`: every action keeps the sequence numbers in range.
-/

namespace HpccSim

/-- A queue pair, both its ends and what is on the way. `live` tells whether it is in `m_qpMap`,
`completions` how often `QpComplete` was called, `accepted` what the receiver has taken in. -/
structure Connection where
  now : ℕ
  qp : RdmaQueuePair
  live : Bool
  completions : ℕ
  rxQp : Option RdmaRxQueuePair
  data : List DataPacket
  acks : List AckFrame
  accepted : List (ℕ × ℕ)

namespace Connection

/-- What can happen next. -/
inductive Act where
  /-- A transmit opportunity of the sender. -/
  | send
  /-- The `k`th packet under way reaches the receiver; the network may keep a copy. -/
  | dataArrives (k : ℕ) (keep : Bool)
  | dropData (k : ℕ)
  /-- The `k`th reply under way reaches the sender. -/
  | ackArrives (k : ℕ) (keep : Bool)
  | dropAck (k : ℕ)
  /-- Time passes. -/
  | tick (dt : ℕ)
  /-- The congestion control sets the rate. -/
  | setRate (rate : UInt64)

/-- Both directions are first in, first out, and lose data packets only. -/
def Act.Fifo : Act → Prop
  | .dataArrives k keep => k = 0 ∧ keep = false
  | .ackArrives k keep => k = 0 ∧ keep = false
  | .dropAck _ => False
  | _ => True

/-- Both directions are first in, first out, and lose nothing; the rate stays in `R`. -/
def Act.InOrder (R : Set UInt64) : Act → Prop
  | .dropData _ => False
  | .setRate rate => rate ∈ R
  | a => a.Fifo

/-- `RdmaHw::QpComplete`, with the callback that makes the receiver forget the queue pair. -/
def complete (s : Connection) : Connection :=
  { s with live := false, completions := s.completions + 1, rxQp := none }

/-- The `ReceiverNextExpectedSeq` of the receiver, of a new one if it has none. -/
def expected (s : Connection) : UInt32 := (s.rxQp.getD .new).receiverNextExpectedSeq

/-- The lists of what is under way without the `k`th entry. -/
def remove {α : Type*} (l : List α) (k : ℕ) (keep : Bool) : List α :=
  if keep then l else l.eraseIdx k

/-- One action. -/
def step (hw : RdmaHw) (s : Connection) : Act → Option Connection
  | .send =>
    if s.qp.isEligible then
      let (p, qp) := hw.getNxtPacket s.qp
      some { s with qp := qp, data := s.data ++ [p] }
    else
      none
  | .dataArrives k keep => do
    let p ← s.data[k]?
    let (v, q) ← hw.receiveUdp s.now s.rxQp p
    return { s with
      rxQp := some q
      data := remove s.data k keep
      acks := s.acks ++ RdmaHw.reply q v
      accepted :=
        if v.accepts then s.accepted ++ [(p.seq.toNat, p.size.toNat)] else s.accepted }
  | .dropData k => if k < s.data.length then some { s with data := s.data.eraseIdx k } else none
  | .ackArrives k keep => do
    let ch ← s.acks[k]?
    let s := { s with acks := remove s.acks k keep }
    if s.live then
      let (qp, done) ← hw.processAck s.qp ch
      let s := { s with qp := qp }
      return if done then s.complete else s
    else
      return s
  | .dropAck k => if k < s.acks.length then some { s with acks := s.acks.eraseIdx k } else none
  | .tick dt => some { s with now := s.now + dt }
  | .setRate rate => some { s with qp := { s.qp with rate := rate } }

/-- The queue pair has been added and nothing has been sent. -/
def init (hw : RdmaHw) (bps : UInt64) (f : Flow) : Connection where
  now := 0
  qp := hw.newQp 0 bps f
  live := true
  completions := 0
  rxQp := none
  data := []
  acks := []
  accepted := []

/-! ### What an action does -/

section Step

variable {hw : RdmaHw} {s t : Connection} {k : ℕ} {keep : Bool}

theorem mem_of_mem_remove {α : Type*} {l : List α} {x : α} (h : x ∈ remove l k keep) : x ∈ l := by
  rw [remove] at h
  split_ifs at h
  · exact h
  · exact List.mem_of_mem_eraseIdx h

theorem step_send (h : step hw s .send = some t) :
    s.qp.isEligible = true ∧
      t = { s with
        qp := (hw.getNxtPacket s.qp).2
        data := s.data ++ [(hw.getNxtPacket s.qp).1] } := by
  simp only [step] at h
  split_ifs at h with he
  cases h
  exact ⟨he, rfl⟩

theorem step_dataArrives (h : step hw s (.dataArrives k keep) = some t) :
    ∃ p v q, s.data[k]? = some p ∧ hw.receiveUdp s.now s.rxQp p = some (v, q) ∧
      t = { s with
        rxQp := some q
        data := remove s.data k keep
        acks := s.acks ++ RdmaHw.reply q v
        accepted := if v.accepts then s.accepted ++ [(p.seq.toNat, p.size.toNat)]
          else s.accepted } := by
  simp only [step, Option.bind_eq_bind, Option.bind_eq_some_iff] at h
  obtain ⟨p, hp, ⟨v, q⟩, hq, ht⟩ := h
  cases ht
  exact ⟨p, v, q, hp, hq, rfl⟩

theorem step_ackArrives (h : step hw s (.ackArrives k keep) = some t) :
    ∃ ch, s.acks[k]? = some ch ∧
      (s.live = false ∧ t = { s with acks := remove s.acks k keep } ∨
        s.live = true ∧ ∃ qp done, hw.processAck s.qp ch = some (qp, done) ∧
          t = if done then { s with acks := remove s.acks k keep, qp := qp }.complete
            else { s with acks := remove s.acks k keep, qp := qp }) := by
  simp only [step, Option.bind_eq_bind, Option.bind_eq_some_iff] at h
  obtain ⟨ch, hch, ht⟩ := h
  refine ⟨ch, hch, ?_⟩
  split_ifs at ht with hlive
  · obtain ⟨⟨qp, done⟩, hqp, ht⟩ := Option.bind_eq_some_iff.1 ht
    cases ht
    exact .inr ⟨hlive, qp, done, hqp, rfl⟩
  · cases ht
    exact .inl ⟨Bool.eq_false_iff.2 hlive, rfl⟩

theorem exists_step_dataArrives (keep : Bool) (hchunk : hw.chunk ≠ 0) {p : DataPacket}
    (hp : s.data[k]? = some p) : ∃ t, step hw s (.dataArrives k keep) = some t := by
  obtain ⟨v, q, hq⟩ := RdmaHw.exists_receiveUdp hchunk s.now s.rxQp p
  exact ⟨_, by simp [step, hp, hq]; rfl⟩

theorem exists_step_ackArrives (keep : Bool) (h : hw.backto0 = false ∨ hw.chunk ≠ 0)
    {ch : AckFrame} (hch : s.acks[k]? = some ch) :
    ∃ t, step hw s (.ackArrives k keep) = some t := by
  by_cases hlive : s.live = true
  · obtain ⟨qp, done, hqp⟩ := RdmaHw.exists_processAck h s.qp ch
    exact ⟨_, by simp [step, hch, hlive, hqp]; rfl⟩
  · exact ⟨_, by simp [step, hch, hlive]; rfl⟩

theorem live_of_step {a : Act} (h : step hw s a = some t) (ht : t.live = true) :
    s.live = true := by
  cases a with
  | send =>
    obtain ⟨-, rfl⟩ := step_send h
    exact ht
  | dataArrives k keep =>
    obtain ⟨p, v, q, -, -, rfl⟩ := step_dataArrives h
    exact ht
  | ackArrives k keep =>
    obtain ⟨ch, -, ⟨-, rfl⟩ | ⟨hlive, -⟩⟩ := step_ackArrives h
    · exact ht
    · exact hlive
  | dropData k | dropAck k =>
    simp only [step] at h
    split_ifs at h
    cases h
    exact ht
  | tick dt | setRate rate =>
    cases h
    exact ht

/-- Actions that only remove packets and replies, or concern time and rates. -/
structure Shrinks (s t : Connection) : Prop where
  size : t.qp.size = s.qp.size
  sndUna : t.qp.sndUna = s.qp.sndUna
  sndNxt : t.qp.sndNxt = s.qp.sndNxt
  live : t.live = s.live
  rxQp : t.rxQp = s.rxQp
  accepted : t.accepted = s.accepted
  completions : t.completions = s.completions
  data : ∀ p ∈ t.data, p ∈ s.data
  acks : ∀ a ∈ t.acks, a ∈ s.acks

theorem shrinks_of_step {a : Act} (h : step hw s a = some t) :
    a = .send ∨ (∃ k keep, a = .dataArrives k keep) ∨ (∃ k keep, a = .ackArrives k keep) ∨
      Shrinks s t := by
  cases a with
  | send => exact .inl rfl
  | dataArrives k keep => exact .inr (.inl ⟨k, keep, rfl⟩)
  | ackArrives k keep => exact .inr (.inr (.inl ⟨k, keep, rfl⟩))
  | dropData k =>
    simp only [step] at h
    split_ifs at h
    cases h
    exact .inr (.inr (.inr ⟨rfl, rfl, rfl, rfl, rfl, rfl, rfl,
      fun _ hp => List.mem_of_mem_eraseIdx hp, fun _ ha => ha⟩))
  | dropAck k =>
    simp only [step] at h
    split_ifs at h
    cases h
    exact .inr (.inr (.inr ⟨rfl, rfl, rfl, rfl, rfl, rfl, rfl, fun _ hp => hp,
      fun _ ha => List.mem_of_mem_eraseIdx ha⟩))
  | tick dt | setRate rate =>
    cases h
    exact .inr (.inr (.inr ⟨rfl, rfl, rfl, rfl, rfl, rfl, rfl, fun _ hp => hp, fun _ ha => ha⟩))

theorem size_of_step {a : Act} (h : step hw s a = some t) : t.qp.size = s.qp.size := by
  rcases shrinks_of_step h with rfl | ⟨k, keep, rfl⟩ | ⟨k, keep, rfl⟩ | hst
  · obtain ⟨-, rfl⟩ := step_send h
    rfl
  · obtain ⟨p, v, q, -, -, rfl⟩ := step_dataArrives h
    rfl
  · obtain ⟨ch, -, ⟨-, rfl⟩ | ⟨-, qp, done, hqp, rfl⟩⟩ := step_ackArrives h
    · rfl
    · obtain ⟨una, nxt, rfl, -⟩ := RdmaHw.processAck_eq_some hqp
      split_ifs <;> rfl
  · exact hst.size

end Step

/-! ### Sequence numbers stay in range -/

/-- No sequence number exceeds the size of the flow, which is less than `2 ^ 32`. -/
structure InRange (s : Connection) : Prop where
  size : s.qp.size.toNat < 2 ^ 32
  sndUna : s.qp.sndUna.toNat ≤ s.qp.size.toNat
  sndNxt : s.qp.sndNxt.toNat ≤ s.qp.size.toNat
  data : ∀ p ∈ s.data, p.seq.toNat + p.size.toNat ≤ s.qp.size.toNat
  expected : s.expected.toNat ≤ s.qp.size.toNat
  acks : ∀ a ∈ s.acks, a.seq.toNat ≤ s.qp.size.toNat

namespace InRange

variable {hw : RdmaHw} {s t : Connection}

theorem init (bps : UInt64) {f : Flow} (hsize : f.size.toNat < 2 ^ 32) :
    InRange (init hw bps f) where
  size := hsize
  sndUna := Nat.zero_le _
  sndNxt := Nat.zero_le _
  data _ hp := by cases hp
  expected := Nat.zero_le _
  acks _ ha := by cases ha

theorem shrinks (h : InRange s) (hst : Shrinks s t) : InRange t := by
  refine ⟨?_, ?_, ?_, fun p hp => ?_, ?_, fun a ha => ?_⟩
  · rw [hst.size]
    exact h.size
  · rw [hst.size, hst.sndUna]
    exact h.sndUna
  · rw [hst.size, hst.sndNxt]
    exact h.sndNxt
  · rw [hst.size]
    exact h.data p (hst.data p hp)
  · rw [hst.size, Connection.expected, hst.rxQp]
    exact h.expected
  · rw [hst.size]
    exact h.acks a (hst.acks a ha)

theorem send (h : InRange s) : InRange
    { s with
      qp := (hw.getNxtPacket s.qp).2
      data := s.data ++ [(hw.getNxtPacket s.qp).1] } := by
  obtain ⟨hseq, hpayload, hnxt⟩ := RdmaHw.getNxtPacket_spec hw h.size h.sndNxt
  have hle := h.sndNxt
  refine ⟨h.size, h.sndUna, ?_, fun p hp => ?_, h.expected, h.acks⟩
  · simp only [RdmaHw.size_getNxtPacket]
    omega
  · simp only [RdmaHw.size_getNxtPacket]
    rcases List.mem_append.1 hp with hp | hp
    · exact h.data p hp
    · rw [List.mem_singleton.1 hp]
      omega

theorem dataArrives (h : InRange s) {k : ℕ} {p : DataPacket} {v : SeqVerdict}
    {q : RdmaRxQueuePair} (hp : s.data[k]? = some p)
    (hq : hw.receiveUdp s.now s.rxQp p = some (v, q)) (keep : Bool) (l : List (ℕ × ℕ)) : InRange
    { s with
      rxQp := some q
      data := remove s.data k keep
      acks := s.acks ++ RdmaHw.reply q v
      accepted := l } := by
  have hfit := h.data p (List.mem_of_getElem? hp)
  have hsize := h.size
  have hexp := h.expected
  have hle : q.receiverNextExpectedSeq.toNat ≤ s.qp.size.toNat := by
    rcases RdmaHw.receiveUdp_cases hq (by omega) with ⟨-, -, hnew⟩ | ⟨-, hold, -⟩
    · omega
    · exact hold.trans hexp
  refine ⟨hsize, h.sndUna, h.sndNxt, fun p' hp' => h.data p' (mem_of_mem_remove hp'), hle,
    fun a ha => ?_⟩
  rcases List.mem_append.1 ha with ha | ha
  · exact h.acks a ha
  · rw [RdmaHw.seq_of_mem_reply ha]
    exact hle

theorem ackArrives (h : InRange s) {k : ℕ} {ch : AckFrame} {qp : RdmaQueuePair} {done : Bool}
    (hch : s.acks[k]? = some ch) (hqp : hw.processAck s.qp ch = some (qp, done)) (keep : Bool) :
    InRange { s with acks := remove s.acks k keep, qp := qp } := by
  obtain ⟨una, nxt, rfl, huna, rfl, -⟩ := RdmaHw.processAck_eq_some hqp
  have hseq := h.acks ch (List.mem_of_getElem? hch)
  have hacked := hw.ackedSeq_le ch.seq
  have hle := h.sndUna
  refine ⟨h.size, ?_, ?_, h.data, h.expected, fun a ha => h.acks a (mem_of_mem_remove ha)⟩
  · simp only
    omega
  · simp only
    split_ifs
    · omega
    · exact h.sndNxt

theorem complete (h : InRange s) : InRange s.complete :=
  ⟨h.size, h.sndUna, h.sndNxt, h.data, Nat.zero_le _, h.acks⟩

/-- **Sequence numbers stay in range**, whatever the network does. -/
theorem step {a : Act} (h : InRange s) (hstep : step hw s a = some t) : InRange t := by
  rcases shrinks_of_step hstep with rfl | ⟨k, keep, rfl⟩ | ⟨k, keep, rfl⟩ | hst
  · obtain ⟨-, rfl⟩ := step_send hstep
    exact h.send
  · obtain ⟨p, v, q, hp, hq, rfl⟩ := step_dataArrives hstep
    exact h.dataArrives hp hq keep _
  · obtain ⟨ch, hch, ⟨-, rfl⟩ | ⟨-, qp, done, hqp, rfl⟩⟩ := step_ackArrives hstep
    · exact ⟨h.size, h.sndUna, h.sndNxt, h.data, h.expected,
        fun a ha => h.acks a (mem_of_mem_remove ha)⟩
    · split_ifs
      · exact (h.ackArrives hch hqp keep).complete
      · exact h.ackArrives hch hqp keep
  · exact h.shrinks hst

end InRange

end Connection

end HpccSim
