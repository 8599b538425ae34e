import HpccSim.AckSchedule
import HpccSim.Connection

/-!
# When a flow is stranded

Nothing is lost and nothing reordered. A flow can still end up with nothing under way and a sender
that may not send, in two ways: the last packet is not acknowledged, or the window is not larger
than what the acknowledgements leave open at the end of some packet. In all other cases a quiet
connection is complete.

## Main definitions

* `Connection.Quiescent`, `Connection.NeverStranded`.
* `Connection.WindowOpens`: the window exceeds what the acknowledgements leave open.
* `Connection.Flowing`: the state after `n` of `m` packets have arrived.

## Main results

* `Connection.neverStranded_iff`: no flow is stranded if and only if the last byte is acknowledged
  and the window opens.
* `Connection.exists_stranded`: a flow shorter than `m_ack_interval` is stranded.
-/

namespace HpccSim

namespace Connection

/-- Nothing is under way, and the sender has nothing to send or no window. -/
def Quiescent (s : Connection) : Prop :=
  s.data = [] ∧ s.acks = [] ∧ s.qp.isEligible = false

section Stranded

variable (hw : RdmaHw) (bps : UInt64) (f : Flow) (R : Set UInt64)

/-- A run of the network in which nothing is lost or reordered leads to `s`. -/
def ReachInOrder (s t : Connection) : Prop := Run.Reach (step hw) (fun _ a => a.InOrder R) s t

/-- When all is quiet, the queue pair is finished and `QpComplete` was called once. -/
def NeverStranded : Prop :=
  ∀ s, ReachInOrder hw R (init hw bps f) s → Quiescent s →
    s.qp.isFinished = true ∧ s.completions = 1

/-- The window of the queue pair at a rate. -/
def windowAt (rate : UInt64) : ℕ := { hw.newQp 0 bps f with rate := rate }.getWin.toNat

/-- At the end of each packet the window is larger than what is not acknowledged. -/
def WindowOpens : Prop :=
  ∀ k, k * hw.mtu.toNat < f.size.toNat → ∀ rate ∈ R,
    windowAt hw bps f rate = 0 ∨ hw.ackGap (k * hw.mtu.toNat) < windowAt hw bps f rate

/-- The start and the length of the packet with index `i`. -/
def packetRange (i : ℕ) : ℕ × ℕ :=
  (hw.boundary f.size.toNat i, hw.boundary f.size.toNat (i + 1) - hw.boundary f.size.toNat i)

/-- `m` packets have been sent and `n` have arrived; the flow is not finished. -/
structure Flowing (n m : ℕ) (s : Connection) : Prop where
  qp : s.qp = { hw.newQp 0 bps f with
    sndUna := s.qp.sndUna, sndNxt := s.qp.sndNxt, rate := s.qp.rate }
  rate : s.qp.rate ∈ R
  live : s.live = true
  completions : s.completions = 0
  unfinished : s.qp.sndUna.toNat < f.size.toNat
  le : n ≤ m
  expected : s.expected.toNat = hw.boundary f.size.toNat n
  sndNxt : s.qp.sndNxt.toNat = hw.boundary f.size.toNat m
  data : s.data.map (fun p => (p.seq.toNat, p.size.toNat)) =
    (List.range' n (m - n)).map (packetRange hw f)
  acks : s.acks.foldl (fun u a => max u (hw.ackedSeq a.seq)) s.qp.sndUna.toNat =
    hw.ackedAfter f.size.toNat n
  plain : ∀ a ∈ s.acks, a.nack = false

/-- `QpComplete` was called, for a flow that is finished. -/
structure Completed (s : Connection) : Prop where
  live : s.live = false
  completions : s.completions = 1
  finished : f.size.toNat ≤ s.qp.sndUna.toNat
  size : s.qp.size = f.size

end Stranded

variable {hw : RdmaHw} {bps : UInt64} {f : Flow} {R : Set UInt64} {s t : Connection} {n m : ℕ}

theorem le_foldl_max {α : Type*} (g : α → ℕ) (l : List α) (u : ℕ) :
    u ≤ l.foldl (fun u a => max u (g a)) u := by
  induction l generalizing u with
  | nil => exact le_rfl
  | cons a l ih => exact (le_max_left _ _).trans (ih _)

namespace Flowing

theorem init (hpos : 0 < f.size.toNat) (hR : bps ∈ R) : Flowing hw bps f R 0 0 (init hw bps f) where
  qp := rfl
  rate := hR
  live := rfl
  completions := rfl
  unfinished := hpos
  le := le_rfl
  expected := RdmaHw.boundary_zero.symm
  sndNxt := RdmaHw.boundary_zero.symm
  data := rfl
  acks := rfl
  plain _ ha := by cases ha

theorem size (h : Flowing hw bps f R n m s) : s.qp.size = f.size := by
  rw [h.qp]
  rfl

/-- The next packet is sent. -/
theorem send (hsize : f.size.toNat < 2 ^ 32) (h : Flowing hw bps f R n m s)
    (hstep : step hw s .send = some t) : Flowing hw bps f R n (m + 1) t := by
  obtain ⟨-, rfl⟩ := step_send hstep
  have hsz := h.size
  have hnxt := h.sndNxt
  have hle : hw.boundary f.size.toNat m ≤ f.size.toNat := RdmaHw.boundary_le m
  have hsize' : s.qp.size.toNat < 2 ^ 32 := by rwa [hsz]
  obtain ⟨hseq, hpayload, hnew⟩ := RdmaHw.getNxtPacket_spec hw hsize' (by rw [hsz]; omega)
  have hsucc : hw.boundary f.size.toNat (m + 1) = hw.boundary f.size.toNat m +
      min hw.mtu.toNat (f.size.toNat - hw.boundary f.size.toNat m) := RdmaHw.boundary_succ m
  rw [hsz] at hpayload
  refine ⟨?_, h.rate, h.live, h.completions, h.unfinished, h.le.trans m.le_succ, h.expected, ?_,
    ?_, h.acks, h.plain⟩
  · have hqp := h.qp
    simp only [RdmaHw.getNxtPacket]
    rw [hqp]
  · simp only
    omega
  · have hlast : m + 1 - n = m - n + 1 := by
      have := h.le
      omega
    have hend : n + (m - n) = m := by
      have := h.le
      omega
    rw [hlast, List.range'_1_concat, List.map_append, List.map_append, h.data, hend]
    simp only [List.map_cons, List.map_nil, packetRange]
    congr 3
    · omega
    · omega

/-- The next packet arrives. -/
theorem dataArrives (hsize : f.size.toNat < 2 ^ 32) (hint : hw.ackInterval ≠ 0)
    (h : Flowing hw bps f R n m s) (hstep : step hw s (.dataArrives 0 false) = some t) :
    Flowing hw bps f R (n + 1) m t ∧ t.data = s.data.tail := by
  obtain ⟨p, v, q, hp, hq, rfl⟩ := step_dataArrives hstep
  obtain ⟨rest, hrest⟩ := List.head?_eq_some_iff.1 (List.head?_eq_getElem?.trans hp)
  have hdata := h.data
  rw [hrest, List.map_cons] at hdata
  obtain ⟨j, hj⟩ : ∃ j, m - n = j + 1 := by
    cases hmn : m - n with
    | zero => simp [hmn] at hdata
    | succ j => exact ⟨j, rfl⟩
  rw [hj, List.range'_succ, List.map_cons, List.cons.injEq] at hdata
  obtain ⟨hhead, htail⟩ := hdata
  obtain ⟨hseq, hpsize⟩ := Prod.ext_iff.1 hhead
  simp only [packetRange] at hseq hpsize
  have hsucc : hw.boundary f.size.toNat (n + 1) = hw.boundary f.size.toNat n +
      min hw.mtu.toNat (f.size.toNat - hw.boundary f.size.toNat n) := RdmaHw.boundary_succ n
  have hend : hw.boundary f.size.toNat (n + 1) ≤ f.size.toNat := RdmaHw.boundary_le _
  have hexp : p.seq = s.expected := UInt32.toNat_inj.1 (hseq.trans h.expected.symm)
  obtain ⟨hnew, -⟩ := RdmaHw.receiveUdp_of_seq_eq hq hexp
  have hsum : (p.seq + p.size).toNat = hw.boundary f.size.toNat (n + 1) := by
    rw [UInt32.toNat_add]
    omega
  have hreply := RdmaHw.reply_of_inOrder hq hexp
  have hacked : hw.Replies (p.seq + p.size).toNat →
      hw.ackedSeq (p.seq + p.size) = hw.acked (p.seq + p.size).toNat :=
    RdmaHw.ackedSeq_eq_acked hint
  rw [hsum] at hreply hacked
  refine ⟨⟨h.qp, h.rate, h.live, h.completions, h.unfinished, ?_, ?_, h.sndNxt, ?_, ?_, ?_⟩, ?_⟩
  · omega
  · change q.receiverNextExpectedSeq.toNat = _
    rw [hnew, hsum]
  · have hmn : m - (n + 1) = j := by omega
    rw [hmn, ← htail, remove, hrest]
    rfl
  · rw [List.foldl_append, h.acks, RdmaHw.ackedAfter]
    rcases hreply with ⟨hrep, hlist⟩ | ⟨hrep, hlist⟩
    · rw [hlist, List.foldl_cons, List.foldl_nil, hacked hrep]
    · rw [hlist, List.foldl_nil, RdmaHw.acked, if_neg hrep, Nat.max_eq_left (Nat.zero_le _)]
  · intro a ha
    rcases List.mem_append.1 ha with ha | ha
    · exact h.plain a ha
    · rcases hreply with ⟨-, hlist⟩ | ⟨-, hlist⟩
      all_goals simp_all
  · rw [remove, hrest]
    rfl

/-- A reply arrives. -/
theorem ackArrives (hint : hw.ackInterval ≠ 0) (h : Flowing hw bps f R n m s)
    (hstep : step hw s (.ackArrives 0 false) = some t) :
    t.acks = s.acks.tail ∧ t.data = s.data ∧
      (Flowing hw bps f R n m t ∨
        Completed f t ∧ f.size.toNat ≤ hw.ackedAfter f.size.toNat n) := by
  obtain ⟨ch, hch, ⟨hdead, -⟩ | ⟨-, qp, done, hqp, rfl⟩⟩ := step_ackArrives hstep
  · rw [h.live] at hdead
    cases hdead
  obtain ⟨rest, hrest⟩ := List.head?_eq_some_iff.1 (List.head?_eq_getElem?.trans hch)
  have hremove : remove s.acks 0 false = rest := by
    rw [hrest]
    rfl
  have hplain := h.plain ch (by rw [hrest]; exact List.mem_cons_self)
  obtain ⟨una, nxt, rfl, huna, hnxt, hdone⟩ := RdmaHw.processAck_eq_some hqp
  rw [hplain] at hnxt
  simp only [Bool.false_eq_true, if_false] at hnxt
  have hacks := h.acks
  rw [hrest, List.foldl_cons, ← huna] at hacks
  have hsz := h.size
  rw [hremove, hrest]
  by_cases hd : done = true
  · rw [if_pos hd]
    have hfin := (hdone.1 hd).2
    rw [hsz] at hfin
    refine ⟨rfl, rfl, .inr ⟨⟨rfl, ?_, hfin, hsz⟩, ?_⟩⟩
    · simp [complete, h.completions]
    · refine hfin.trans ?_
      rw [← hacks]
      exact le_foldl_max _ rest una.toNat
  · rw [if_neg hd]
    have hun : una.toNat < f.size.toNat := by
      by_contra hge
      exact hd (hdone.2 ⟨hint, by rw [hsz]; omega⟩)
    refine ⟨rfl, rfl, .inl ⟨?_, h.rate, h.live, h.completions, hun, h.le, h.expected, ?_, h.data,
      hacks, fun a ha => h.plain a (by rw [hrest]; exact List.mem_cons_of_mem _ ha)⟩⟩
    · have hqp := h.qp
      simp only
      rw [hqp]
    · simp only [hnxt]
      exact h.sndNxt

theorem tick (h : Flowing hw bps f R n m s) (now : ℕ) :
    Flowing hw bps f R n m { s with now := now } :=
  ⟨h.qp, h.rate, h.live, h.completions, h.unfinished, h.le, h.expected, h.sndNxt, h.data, h.acks,
    h.plain⟩

theorem setRate (h : Flowing hw bps f R n m s) {rate : UInt64} (hrate : rate ∈ R) :
    Flowing hw bps f R n m { s with qp := { s.qp with rate := rate } } := by
  refine ⟨?_, hrate, h.live, h.completions, h.unfinished, h.le, h.expected, h.sndNxt, h.data,
    h.acks, h.plain⟩
  have hqp := h.qp
  simp only
  rw [hqp]

/-- When all is quiet the sender has been told all that is ever acknowledged, and waits at the end
of the flow or for its window. -/
theorem quiet (h : Flowing hw bps f R n m s) (hq : s.data = [])
    (hacks : s.acks = []) :
    n = m ∧ s.qp.sndUna.toNat = hw.ackedAfter f.size.toNat n ∧
      (s.qp.isEligible = false ↔ hw.boundary f.size.toNat n = f.size.toNat ∨
        windowAt hw bps f s.qp.rate ≠ 0 ∧
          windowAt hw bps f s.qp.rate + hw.ackedAfter f.size.toNat n ≤
            hw.boundary f.size.toNat n) := by
  have hdata := h.data
  rw [hq, List.map_nil] at hdata
  have hmn : m - n = 0 := by
    cases hj : m - n with
    | zero => rfl
    | succ j => simp [hj, List.range'_succ] at hdata
  have hle := h.le
  obtain rfl : n = m := by omega
  have huna : s.qp.sndUna.toNat = hw.ackedAfter f.size.toNat n := by
    have := h.acks
    rwa [hacks] at this
  refine ⟨rfl, huna, ?_⟩
  have hnxt := h.sndNxt
  have hend : hw.boundary f.size.toNat n ≤ f.size.toNat := RdmaHw.boundary_le n
  have hacked : hw.ackedAfter f.size.toNat n ≤ hw.boundary f.size.toNat n :=
    RdmaHw.ackedAfter_le n
  have hwin : s.qp.getWin.toNat = windowAt hw bps f s.qp.rate := by
    rw [h.qp]
    rfl
  have hordered : s.qp.sndUna.toNat ≤ s.qp.sndNxt.toNat := by omega
  have hfly := RdmaQueuePair.toNat_getOnTheFly hordered
  have hleft : s.qp.getBytesLeft > 0 ↔ ¬ hw.boundary f.size.toNat n = f.size.toNat := by
    rw [gt_iff_lt, UInt64.lt_iff_toNat_lt, RdmaQueuePair.toNat_getBytesLeft, h.size, hnxt,
      UInt64.toNat_zero]
    omega
  have hbound : s.qp.isWinBound = true ↔ windowAt hw bps f s.qp.rate ≠ 0 ∧
      windowAt hw bps f s.qp.rate + hw.ackedAfter f.size.toNat n ≤
        hw.boundary f.size.toNat n := by
    rw [RdmaQueuePair.isWinBound_iff, hwin, hfly, hnxt, huna]
    omega
  rw [RdmaQueuePair.isEligible, Bool.and_eq_false_iff, decide_eq_false_iff_not, hleft, not_not,
    Bool.not_eq_false', hbound]

end Flowing

/-! ### Nothing is stranded -/

/-- Every run without loss goes on or has called `QpComplete`. -/
theorem flowing_or_completed {a : Act} (hsize : f.size.toNat < 2 ^ 32)
    (hint : hw.ackInterval ≠ 0)
    (h : (∃ n m, Flowing hw bps f R n m s) ∨ Completed f s) (ha : a.InOrder R)
    (hstep : step hw s a = some t) :
    (∃ n m, Flowing hw bps f R n m t) ∨ Completed f t := by
  rcases h with ⟨n, m, h⟩ | h
  · cases a with
    | send => exact .inl ⟨n, m + 1, h.send hsize hstep⟩
    | dataArrives k keep =>
      obtain ⟨rfl, rfl⟩ := ha
      exact .inl ⟨n + 1, m, (h.dataArrives hsize hint hstep).1⟩
    | ackArrives k keep =>
      obtain ⟨rfl, rfl⟩ := ha
      obtain ⟨-, -, ht | ⟨ht, -⟩⟩ := h.ackArrives hint hstep
      · exact .inl ⟨n, m, ht⟩
      · exact .inr ht
    | dropData k | dropAck k => exact ha.elim
    | tick dt =>
      cases hstep
      exact .inl ⟨n, m, h.tick _⟩
    | setRate rate =>
      cases hstep
      exact .inl ⟨n, m, h.setRate ha⟩
  · right
    rcases shrinks_of_step hstep with rfl | ⟨k, keep, rfl⟩ | ⟨k, keep, rfl⟩ | hst
    · obtain ⟨-, rfl⟩ := step_send hstep
      exact ⟨h.live, h.completions, h.finished, h.size⟩
    · obtain ⟨p, v, q, -, -, rfl⟩ := step_dataArrives hstep
      exact ⟨h.live, h.completions, h.finished, h.size⟩
    · obtain ⟨ch, -, ⟨-, rfl⟩ | ⟨hlive, -⟩⟩ := step_ackArrives hstep
      · exact ⟨h.live, h.completions, h.finished, h.size⟩
      · rw [h.live] at hlive
        cases hlive
    · exact ⟨hst.live.trans h.live, hst.completions.trans h.completions,
        by rw [hst.sndUna]; exact h.finished, hst.size.trans h.size⟩

theorem neverStranded_of_acked (hpos : 0 < f.size.toNat) (hsize : f.size.toNat < 2 ^ 32)
    (hint : hw.ackInterval ≠ 0) (hR : bps ∈ R) (hlast : hw.LastByteAcked f.size.toNat)
    (hwin : WindowOpens hw bps f R) : NeverStranded hw bps f R := by
  rintro s ⟨acts, hC, hrun⟩ ⟨hdata, hacks, hel⟩
  have hinv : (∃ n m, Flowing hw bps f R n m s) ∨ Completed f s :=
    Run.exec_induction (I := fun s => (∃ n m, Flowing hw bps f R n m s) ∨ Completed f s)
      (fun s a t h ha hstep => flowing_or_completed hsize hint h ha hstep)
      (.inl ⟨0, 0, .init hpos hR⟩) hC hrun
  rcases hinv with ⟨n, m, h⟩ | h
  · obtain ⟨rfl, huna, hiff⟩ := h.quiet hdata hacks
    have hun := h.unfinished
    rcases hiff.1 hel with hend | ⟨hne, hle⟩
    · have := (RdmaHw.le_ackedAfter_iff hpos).2 ⟨hend, hlast⟩
      omega
    · exfalso
      have hlt : n * hw.mtu.toNat < f.size.toNat := by
        by_contra hge
        have hend : hw.boundary f.size.toNat n = f.size.toNat :=
          Nat.min_eq_right (Nat.le_of_not_lt hge)
        have := (RdmaHw.le_ackedAfter_iff hpos).2 ⟨hend, hlast⟩
        omega
      have hgap := RdmaHw.ackedAfter_add_ackGap (Nat.le_of_lt hlt)
      have hbd := RdmaHw.boundary_of_le (Nat.le_of_lt hlt)
      rcases hwin n hlt s.qp.rate h.rate with hz | hgt
      · exact hne hz
      · omega
  · exact ⟨RdmaQueuePair.isFinished_iff.2 (by rw [h.size]; exact h.finished), h.completions⟩

/-! ### Building runs -/

/-- `n` packets have been sent, have arrived and have been acknowledged as far as they are. -/
def Idle (hw : RdmaHw) (bps : UInt64) (f : Flow) (R : Set UInt64) (n : ℕ) (s : Connection) : Prop :=
  Flowing hw bps f R n n s ∧ s.data = [] ∧ s.acks = []

/-- The replies under way reach the sender one by one. -/
theorem Flowing.drain (hint : hw.ackInterval ≠ 0) (hchunk : hw.chunk ≠ 0)
    (h : Flowing hw bps f R n n s) (hdata : s.data = []) :
    (∃ t, ReachInOrder hw R s t ∧ Idle hw bps f R n t) ∨
      f.size.toNat ≤ hw.ackedAfter f.size.toNat n := by
  induction hl : s.acks.length generalizing s with
  | zero => exact .inl ⟨s, .refl s, h, hdata, List.eq_nil_of_length_eq_zero hl⟩
  | succ l ih =>
    cases hacks : s.acks with
    | nil => simp [hacks] at hl
    | cons ch rest =>
      have hch : s.acks[0]? = some ch := by rw [hacks]; rfl
      obtain ⟨t, hstep⟩ := exists_step_ackArrives false (.inr hchunk) hch
      obtain ⟨hrest, hdata', ht | ⟨-, hall⟩⟩ := h.ackArrives hint hstep
      · have hact : (Act.ackArrives 0 false).InOrder R := ⟨rfl, rfl⟩
        have hlen : t.acks.length = l := by
          rw [hrest, List.length_tail, hl, Nat.add_sub_cancel]
        rcases ih ht (hdata'.trans hdata) hlen with ⟨u, hreach, hidle⟩ | hall
        · have hone : ReachInOrder hw R s t := .single hact hstep
          exact .inl ⟨u, hone.trans hreach, hidle⟩
        · exact .inr hall
      · exact .inr hall

/-- An eligible sender sends a packet; it arrives and is acknowledged, if it is. -/
theorem Idle.advance (hsize : f.size.toNat < 2 ^ 32) (hint : hw.ackInterval ≠ 0)
    (hchunk : hw.chunk ≠ 0) (h : Idle hw bps f R n s) (hel : s.qp.isEligible = true) :
    (∃ t, ReachInOrder hw R s t ∧ Idle hw bps f R (n + 1) t) ∨
      f.size.toNat ≤ hw.ackedAfter f.size.toNat (n + 1) := by
  obtain ⟨h, hdata, hacks⟩ := h
  obtain ⟨t₁, h₁⟩ : ∃ t, step hw s .send = some t := ⟨_, by simp [step, hel]; rfl⟩
  have hsent := h.send hsize h₁
  have hdata₁ : t₁.data = [(hw.getNxtPacket s.qp).1] := by
    obtain ⟨-, rfl⟩ := step_send h₁
    simp [hdata]
  have hp : t₁.data[0]? = some (hw.getNxtPacket s.qp).1 := by rw [hdata₁]; rfl
  obtain ⟨t₂, h₂⟩ := exists_step_dataArrives false hchunk hp
  obtain ⟨harrived, hdata₂⟩ := hsent.dataArrives hsize hint h₂
  rw [hdata₁, List.tail_cons] at hdata₂
  have hsend : Act.send.InOrder R := trivial
  have harrive : (Act.dataArrives 0 false).InOrder R := ⟨rfl, rfl⟩
  have hone : ReachInOrder hw R s t₁ := .single hsend h₁
  have htwo : ReachInOrder hw R t₁ t₂ := .single harrive h₂
  rcases harrived.drain hint hchunk hdata₂ with ⟨u, hreach, hidle⟩ | hall
  · exact .inl ⟨u, (hone.trans htwo).trans hreach, hidle⟩
  · exact .inr hall

/-- A quiet connection that is not finished contradicts `NeverStranded`. -/
theorem Idle.eligible (h : Idle hw bps f R n s) (hnever : NeverStranded hw bps f R)
    (hreach : ReachInOrder hw R (init hw bps f) s) : s.qp.isEligible = true := by
  by_contra hel
  have hfin := (hnever s hreach ⟨h.2.1, h.2.2, Bool.eq_false_iff.2 hel⟩).1
  rw [RdmaQueuePair.isFinished_iff, h.1.size] at hfin
  have := h.1.unfinished
  omega

/-- If no flow is stranded, packets arrive one by one until the last one is acknowledged. -/
theorem exists_idle (hpos : 0 < f.size.toNat) (hsize : f.size.toNat < 2 ^ 32)
    (hint : hw.ackInterval ≠ 0) (hchunk : hw.chunk ≠ 0) (hR : bps ∈ R)
    (hnever : NeverStranded hw bps f R) (k : ℕ)
    (hk : ∀ l, l < k → l * hw.mtu.toNat < f.size.toNat) :
    (∃ s, ReachInOrder hw R (init hw bps f) s ∧ Idle hw bps f R k s) ∨
      f.size.toNat ≤ hw.ackedAfter f.size.toNat k := by
  induction k with
  | zero => exact .inl ⟨_, .refl _, .init hpos hR, rfl, rfl⟩
  | succ k ih =>
    rcases ih fun l hl => hk l (by omega) with ⟨s, hreach, hidle⟩ | hall
    · have hel := hidle.eligible hnever hreach
      rcases hidle.advance hsize hint hchunk hel with ⟨t, hreach', hidle'⟩ | hall
      · exact .inl ⟨t, hreach.trans hreach', hidle'⟩
      · exact .inr hall
    · exact .inr (hall.trans (le_max_left _ _))

theorem lastByteAcked_of_neverStranded (hpos : 0 < f.size.toNat) (hsize : f.size.toNat < 2 ^ 32)
    (hmtu : 0 < hw.mtu.toNat) (hint : hw.ackInterval ≠ 0) (hchunk : hw.chunk ≠ 0) (hR : bps ∈ R)
    (hnever : NeverStranded hw bps f R) : hw.LastByteAcked f.size.toNat := by
  -- the number of packets of the flow
  obtain ⟨k, hk, hlt⟩ : ∃ k, f.size.toNat ≤ k * hw.mtu.toNat ∧
      ∀ l, l < k → l * hw.mtu.toNat < f.size.toNat := by
    have hex : ∃ k, f.size.toNat ≤ k * hw.mtu.toNat :=
      ⟨f.size.toNat, Nat.le_mul_of_pos_right _ hmtu⟩
    exact ⟨Nat.find hex, Nat.find_spec hex, fun l hl => Nat.lt_of_not_le (Nat.find_min hex hl)⟩
  have hend : hw.boundary f.size.toNat k = f.size.toNat := Nat.min_eq_right hk
  rcases exists_idle hpos hsize hint hchunk hR hnever k hlt with ⟨s, hreach, hidle⟩ | hall
  · have hel := hidle.eligible hnever hreach
    obtain ⟨-, -, hiff⟩ := hidle.1.quiet hidle.2.1 hidle.2.2
    rw [hiff.2 (.inl hend)] at hel
    cases hel
  · exact ((RdmaHw.le_ackedAfter_iff hpos).1 hall).2

theorem windowOpens_of_neverStranded (hpos : 0 < f.size.toNat) (hsize : f.size.toNat < 2 ^ 32)
    (hint : hw.ackInterval ≠ 0) (hchunk : hw.chunk ≠ 0) (hR : bps ∈ R)
    (hnever : NeverStranded hw bps f R) : WindowOpens hw bps f R := by
  intro k hk rate hrate
  have hlt : ∀ l, l < k → l * hw.mtu.toNat < f.size.toNat := fun l hl =>
    Nat.lt_of_le_of_lt (Nat.mul_le_mul_right _ (Nat.le_of_lt hl)) hk
  have hbd : hw.boundary f.size.toNat k = k * hw.mtu.toNat :=
    RdmaHw.boundary_of_le (Nat.le_of_lt hk)
  have hgap : hw.ackedAfter f.size.toNat k + hw.ackGap (k * hw.mtu.toNat) = k * hw.mtu.toNat :=
    RdmaHw.ackedAfter_add_ackGap (Nat.le_of_lt hk)
  rcases exists_idle hpos hsize hint hchunk hR hnever k hlt with ⟨s, hreach, hidle⟩ | hall
  · -- the congestion control sets the rate while all is quiet
    have hact : (Act.setRate rate).InOrder R := hrate
    have hset : ReachInOrder hw R s { s with qp := { s.qp with rate := rate } } :=
      .single hact rfl
    have hidle' : Idle hw bps f R k { s with qp := { s.qp with rate := rate } } :=
      ⟨hidle.1.setRate hrate, hidle.2⟩
    have hel := hidle'.eligible hnever (hreach.trans hset)
    obtain ⟨-, -, hiff⟩ := hidle'.1.quiet hidle'.2.1 hidle'.2.2
    by_contra hno
    rw [not_or, Nat.not_lt] at hno
    have hle : windowAt hw bps f rate + hw.ackedAfter f.size.toNat k ≤
        hw.boundary f.size.toNat k := by
      omega
    rw [hiff.2 (.inr ⟨hno.1, hle⟩)] at hel
    cases hel
  · have := ((RdmaHw.le_ackedAfter_iff hpos).1 hall).1
    omega

/-- **When a flow is stranded.** In the runs in which nothing is lost or reordered, with the rates
in `R`, a quiet connection is finished and complete if and only if the last byte is acknowledged
and the window exceeds what is not acknowledged at the end of each packet. -/
theorem neverStranded_iff (hpos : 0 < f.size.toNat) (hsize : f.size.toNat < 2 ^ 32)
    (hmtu : 0 < hw.mtu.toNat) (hchunk : hw.chunk ≠ 0) (hint : hw.ackInterval ≠ 0) (hR : bps ∈ R) :
    NeverStranded hw bps f R ↔ hw.LastByteAcked f.size.toNat ∧ WindowOpens hw bps f R :=
  ⟨fun h => ⟨lastByteAcked_of_neverStranded hpos hsize hmtu hint hchunk hR h,
    windowOpens_of_neverStranded hpos hsize hint hchunk hR h⟩,
    fun h => neverStranded_of_acked hpos hsize hint hR h.1 h.2⟩

/-- With the settings of the simulation scripts a flow of two packets is not stranded. -/
theorem neverStranded_two_packets :
    NeverStranded
      { mtu := 1000, chunk := 4000, ackInterval := 1, nackInterval := 500, backto0 := false,
        varWin := false }
      100 { size := 1500, pg := 3, sip := 1, dip := 2, sport := 10000, dport := 100, win := 1000 }
      Set.univ := by
  refine (neverStranded_iff (by decide) (by decide) (by decide) (by decide) (by decide)
    (Set.mem_univ _)).2 ⟨.inr ⟨rfl, by decide⟩, fun k _ rate _ => .inr ?_⟩
  let hw : RdmaHw :=
    { mtu := 1000, chunk := 4000, ackInterval := 1, nackInterval := 500, backto0 := false
      varWin := false }
  let f : Flow :=
    { size := 1500, pg := 3, sip := 1, dip := 2, sport := 10000, dport := 100, win := 1000 }
  have hwin : windowAt hw 100 f rate = 1000 := by
    simp [windowAt, RdmaQueuePair.getWin, RdmaHw.newQp, hw, f]
  have hgap : hw.ackGap (k * hw.mtu.toNat) = 0 := by
    rw [RdmaHw.ackGap]
    split
    · next hlt => rw [Nat.lt_one_iff.1 hlt, Nat.zero_mod]
    · exact if_neg Bool.false_ne_true
  change hw.ackGap (k * hw.mtu.toNat) < windowAt hw 100 f rate
  omega

/-- **A flow can be stranded**: it is shorter than the interval and not a multiple of the chunk, so
its only packet is not acknowledged. -/
theorem exists_stranded :
    let hw : RdmaHw :=
      { mtu := 1000, chunk := 4000, ackInterval := 2000, nackInterval := 500, backto0 := false
        varWin := false }
    let f : Flow :=
      { size := 1000, pg := 3, sip := 1, dip := 2, sport := 10000, dport := 100, win := 0 }
    ∃ s, Run.exec (step hw) (init hw 100 f) [.send, .dataArrives 0 false] = some s ∧
      ReachInOrder hw {100} (init hw 100 f) s ∧ Quiescent s ∧
        s.qp.isFinished = false ∧ s.completions = 0 := by
  intro hw f
  have hval : (Run.exec (step hw) (init hw 100 f) [.send, .dataArrives 0 false]).map
      (fun s => (s.data, s.acks, s.qp.isEligible, s.qp.isFinished, s.completions)) =
      some ([], [], false, false, 0) := by
    decide +kernel
  obtain ⟨s, hrun, hs⟩ := Option.map_eq_some_iff.1 hval
  simp only [Prod.mk.injEq] at hs
  obtain ⟨hdata, hacks, hel, hfin, hopen⟩ := hs
  have hsend : Act.send.InOrder {(100 : UInt64)} := trivial
  have harrive : (Act.dataArrives 0 false).InOrder {(100 : UInt64)} := ⟨rfl, rfl⟩
  exact ⟨s, hrun,
    ⟨[.send, .dataArrives 0 false], ⟨hsend, fun _ _ => ⟨harrive, fun _ _ => trivial⟩⟩, hrun⟩,
    ⟨hdata, hacks, hel⟩, hfin, hopen⟩

end Connection

end HpccSim
