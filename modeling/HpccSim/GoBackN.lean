import HpccSim.Connection
import HpccSim.Lib.Tiling

/-!
# Go-back-N delivers exactly once and in order

The network loses, duplicates, delays and reorders packets and replies as it likes. The receiver
takes in only the packet that starts where the last one ended, so what it has taken in tiles the
numbers up to `ReceiverNextExpectedSeq`; and a reply never carries more than the receiver had
reached when it was made, so the sender never takes for acknowledged what has not arrived.

## Main definitions

* `Connection.GoBackN`: the invariant of a queue pair that is not complete.

## Main results

* `Connection.delivered_of_run`: exactly once, in order, and all of it when `QpComplete` is called.
-/

namespace HpccSim

namespace Connection

open Tiling

/-- As long as the queue pair is not complete, the receiver has taken in all bytes up to the one it
expects, each once, and no reply and no acknowledgement is ahead of it. -/
structure GoBackN (s : Connection) : Prop where
  inRange : InRange s
  live : s.completions = 0 ↔ s.live = true
  tiles : s.live = true → Tiles 0 s.accepted s.expected.toNat
  acks : s.live = true → ∀ a ∈ s.acks, a.seq.toNat ≤ s.expected.toNat
  sndUna : s.live = true → s.qp.sndUna.toNat ≤ s.expected.toNat

variable {hw : RdmaHw} {bps : UInt64} {f : Flow} {s t : Connection}

/-- The place of the receiver never moves back while the queue pair is live. -/
def Advances (s t : Connection) : Prop := t.live = true → s.expected.toNat ≤ t.expected.toNat

namespace GoBackN

theorem init (hsize : f.size.toNat < 2 ^ 32) : GoBackN (init hw bps f) where
  inRange := .init bps hsize
  live := ⟨fun _ => rfl, fun _ => rfl⟩
  tiles _ := .nil 0
  acks _ _ ha := by cases ha
  sndUna _ := Nat.zero_le _

theorem shrinks (h : GoBackN s) (hst : Shrinks s t) : GoBackN t ∧ t.expected = s.expected := by
  have hexp : t.expected = s.expected := by
    rw [expected, expected, hst.rxQp]
  refine ⟨⟨h.inRange.shrinks hst, ?_, ?_, ?_, ?_⟩, hexp⟩
  · rw [hst.live, hst.completions]
    exact h.live
  all_goals rw [hst.live, hexp]
  · rw [hst.accepted]
    exact h.tiles
  · exact fun hlive a ha => h.acks hlive a (hst.acks a ha)
  · rw [hst.sndUna]
    exact h.sndUna

/-- A packet reaches the receiver. -/
theorem dataArrives (hback : hw.backto0 = false) (h : GoBackN s) {k : ℕ} {keep : Bool}
    (hstep : step hw s (.dataArrives k keep) = some t) :
    GoBackN t ∧ s.expected.toNat ≤ t.expected.toNat := by
  have hrange := h.inRange.step hstep
  obtain ⟨p, v, q, hp, hq, rfl⟩ := step_dataArrives hstep
  have hfit := h.inRange.data p (List.mem_of_getElem? hp)
  have hsize := h.inRange.size
  have hnew : s.expected.toNat ≤ q.receiverNextExpectedSeq.toNat ∧
      (s.live = true → Tiles 0
        (if v.accepts then s.accepted ++ [(p.seq.toNat, p.size.toNat)] else s.accepted)
        q.receiverNextExpectedSeq.toNat) := by
    rcases RdmaHw.receiveUdp_cases hq (by omega) with ⟨hv, hseq, hexp⟩ | ⟨hv, -, hsame⟩
    · have hseq' : p.seq = s.expected := hseq
      refine ⟨by rw [hexp, hseq']; exact Nat.le_add_right _ _, fun hlive => ?_⟩
      rw [if_pos hv, hexp, hseq']
      exact (h.tiles hlive).concat _
    · have hsame' : q.receiverNextExpectedSeq = s.expected := hsame hback
      refine ⟨by rw [hsame'], fun hlive => ?_⟩
      rw [if_neg (by simp [hv]), hsame']
      exact h.tiles hlive
  refine ⟨⟨hrange, h.live, hnew.2, fun hlive a ha => ?_, fun hlive => ?_⟩, hnew.1⟩
  · rcases List.mem_append.1 ha with ha | ha
    · exact (h.acks hlive a ha).trans hnew.1
    · exact Nat.le_of_eq (by rw [RdmaHw.seq_of_mem_reply ha]; rfl)
  · exact (h.sndUna hlive).trans hnew.1

/-- A reply reaches the sender; if that completes the queue pair, all bytes have arrived. -/
theorem ackArrives (h : GoBackN s) {k : ℕ} {keep : Bool}
    (hstep : step hw s (.ackArrives k keep) = some t) :
    GoBackN t ∧ (t.live = true → t.expected = s.expected) ∧
      (t.completions ≠ s.completions → s.expected.toNat = s.qp.size.toNat) := by
  have hrange := h.inRange.step hstep
  obtain ⟨ch, hch, ⟨hdead, rfl⟩ | ⟨hlive, qp, done, hqp, rfl⟩⟩ := step_ackArrives hstep
  · refine ⟨⟨hrange, h.live, fun hl => ?_, fun hl => ?_, fun hl => ?_⟩, fun _ => rfl,
      fun hne => absurd rfl hne⟩
    all_goals
      rw [hdead] at hl
      cases hl
  · have hseq := h.acks hlive ch (List.mem_of_getElem? hch)
    have hacked := hw.ackedSeq_le ch.seq
    have hle := h.sndUna hlive
    obtain ⟨una, nxt, rfl, huna, -, hdone⟩ := RdmaHw.processAck_eq_some hqp
    by_cases hd : done = true
    · rw [if_pos hd] at hrange ⊢
      refine ⟨⟨hrange, ⟨fun hc => ?_, fun hl => ?_⟩, fun hl => ?_, fun hl => ?_, fun hl => ?_⟩,
        fun hl => ?_, fun _ => ?_⟩
      · simp [complete] at hc
      all_goals try cases hl
      have hall := (hdone.1 hd).2
      have hexp := h.inRange.expected
      omega
    · rw [if_neg hd] at hrange ⊢
      refine ⟨⟨hrange, h.live, h.tiles, fun hl a ha => h.acks hl a (mem_of_mem_remove ha),
        fun _ => ?_⟩, fun _ => rfl, fun hne => absurd rfl hne⟩
      change una.toNat ≤ s.expected.toNat
      omega

/-- **One action**: the invariant is kept, the receiver does not move back, and `QpComplete` is
called only when it has reached the end. -/
theorem step (hback : hw.backto0 = false) (h : GoBackN s) {a : Act}
    (hstep : step hw s a = some t) :
    GoBackN t ∧ Advances s t ∧
      (t.completions ≠ s.completions → s.expected.toNat = s.qp.size.toNat) := by
  rcases shrinks_of_step hstep with rfl | ⟨k, keep, rfl⟩ | ⟨k, keep, rfl⟩ | hst
  · have hrange := h.inRange.step hstep
    obtain ⟨-, rfl⟩ := step_send hstep
    exact ⟨⟨hrange, h.live, h.tiles, h.acks, h.sndUna⟩, fun _ => le_rfl, fun hne => absurd rfl hne⟩
  · obtain ⟨ht, hle⟩ := h.dataArrives hback hstep
    refine ⟨ht, fun _ => hle, fun hne => absurd ?_ hne⟩
    obtain ⟨p, v, q, -, -, rfl⟩ := step_dataArrives hstep
    rfl
  · obtain ⟨ht, hexp, hall⟩ := h.ackArrives hstep
    exact ⟨ht, fun hl => by rw [hexp hl], hall⟩
  · obtain ⟨ht, hexp⟩ := h.shrinks hst
    exact ⟨ht, fun _ => by rw [hexp], fun hne => absurd hst.completions hne⟩

/-- A whole run: the invariant is kept and the receiver does not move back. -/
theorem run (hback : hw.backto0 = false) (h : GoBackN s) {acts : List Act}
    (hrun : Run.exec (Connection.step hw) s acts = some t) :
    GoBackN t ∧ t.qp.size = s.qp.size ∧ Advances s t := by
  refine Run.exec_invariant (I := fun t => GoBackN t ∧ t.qp.size = s.qp.size ∧ Advances s t)
    (fun t a u ht hstep => ?_) ⟨h, rfl, fun _ => le_rfl⟩ hrun
  obtain ⟨hinv, hsize, hadv⟩ := ht
  obtain ⟨hu, hadv', -⟩ := hinv.step hback hstep
  refine ⟨hu, (size_of_step hstep).trans hsize, fun hl => ?_⟩
  exact (hadv (live_of_step hstep hl)).trans (hadv' hl)

end GoBackN

/-- **Go-back-N delivers exactly once and in order.** Whatever the network loses, duplicates,
delays and reorders, until `QpComplete` is called the packets taken in tile
`[0, ReceiverNextExpectedSeq)` and contain each byte of it once; the sender is not ahead of the
receiver, the receiver not ahead of the flow, and the receiver does not move back. When
`QpComplete` is called, every byte has been delivered. -/
theorem delivered_of_run {acts : List Act} (hback : hw.backto0 = false)
    (hsize : f.size.toNat < 2 ^ 32)
    (hrun : Run.exec (step hw) (init hw bps f) acts = some s) (hopen : s.completions = 0) :
    Tiles 0 s.accepted s.expected.toNat ∧
      (∀ x, covering x s.accepted = if x < s.expected.toNat then 1 else 0) ∧
      s.qp.sndUna.toNat ≤ s.expected.toNat ∧ s.expected.toNat ≤ f.size.toNat ∧
      (∀ acts' t, Run.exec (step hw) s acts' = some t → t.completions = 0 →
        s.expected.toNat ≤ t.expected.toNat) ∧
      ∀ a t, step hw s a = some t → t.completions ≠ 0 → s.expected.toNat = f.size.toNat := by
  have hinit : GoBackN (init hw bps f) := .init hsize
  obtain ⟨hinv, hsz, -⟩ := hinit.run hback hrun
  have hlive := hinv.live.1 hopen
  have htiles := hinv.tiles hlive
  have hsz' : s.qp.size = f.size := hsz
  refine ⟨htiles, fun x => ?_, hinv.sndUna hlive, ?_, fun acts' t hrun' ht => ?_,
    fun a t hstep ht => ?_⟩
  · simpa using htiles.covering_eq x
  · rw [← hsz']
    exact hinv.inRange.expected
  · obtain ⟨hinv', -, hadv⟩ := hinv.run hback hrun'
    exact hadv (hinv'.live.1 ht)
  · rw [← hsz']
    exact (hinv.step hback hstep).2.2 (by rw [hopen]; exact ht)

/-- The second of two packets overtakes the first and arrives again after it. -/
theorem delivered_of_run_reordered :
    ∃ s, Run.exec
        (step { mtu := 1000, chunk := 4000, ackInterval := 1, nackInterval := 500000,
                backto0 := false, varWin := false })
        (init { mtu := 1000, chunk := 4000, ackInterval := 1, nackInterval := 500000,
                backto0 := false, varWin := false }
          100 { size := 2000, pg := 3, sip := 1, dip := 2, sport := 10000, dport := 100, win := 0 })
        [.send, .send, .dataArrives 1 true, .dataArrives 0 false, .dataArrives 0 false,
          .ackArrives 1 true] = some s ∧
      s.expected = 2000 ∧ s.qp.sndUna = 1000 ∧ Tiles 0 s.accepted s.expected.toNat := by
  let hw : RdmaHw :=
    { mtu := 1000, chunk := 4000, ackInterval := 1, nackInterval := 500000, backto0 := false
      varWin := false }
  let f : Flow :=
    { size := 2000, pg := 3, sip := 1, dip := 2, sport := 10000, dport := 100, win := 0 }
  have hval : (Run.exec (step hw) (init hw 100 f)
      [.send, .send, .dataArrives 1 true, .dataArrives 0 false, .dataArrives 0 false,
        .ackArrives 1 true]).map (fun s => (s.completions, s.expected, s.qp.sndUna)) =
      some (0, 2000, 1000) := by
    decide +kernel
  obtain ⟨s, hrun, hs⟩ := Option.map_eq_some_iff.1 hval
  simp only [Prod.mk.injEq] at hs
  obtain ⟨hopen, hexp, huna⟩ := hs
  exact ⟨s, hrun, hexp, huna, (delivered_of_run rfl (by decide) hrun hopen).1⟩

end Connection

end HpccSim
