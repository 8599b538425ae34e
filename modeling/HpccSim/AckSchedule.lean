import HpccSim.RdmaHw
import Mathlib.Algebra.Order.Group.Nat
import Mathlib.Data.Nat.GCD.Basic

/-!
# Which bytes are acknowledged

The packets of a flow of `S` bytes end at the multiples of `m_mtu` and at `S`. When they arrive in
order, the receiver acknowledges those that end at a multiple of `m_chunk` or not before
`m_ack_interval`: `ReceiveUdp` sets the milestone back to the interval for every packet. Going back
to zero, the sender rounds the acknowledgement down to a multiple of `m_chunk`.

## Main definitions

* `RdmaHw.boundary`, `RdmaHw.acked`, `RdmaHw.ackedAfter`.
* `RdmaHw.ackGap`: how far behind the acknowledgements stay.
* `RdmaHw.LastByteAcked`: the end of the flow is acknowledged.

## Main results

* `RdmaHw.ackedAfter_add_ackGap`: before the end of the flow they stay behind by `ackGap`.
* `RdmaHw.le_ackedAfter_iff`: when they reach the end of the flow.
-/

namespace HpccSim

namespace RdmaHw

variable (hw : RdmaHw) (S : ℕ)

/-- Where the first `k` packets of a flow of `S` bytes end. -/
def boundary (k : ℕ) : ℕ := min (k * hw.mtu.toNat) S

/-- The receiver that has got up to `r` in order replies. -/
def Replies (r : ℕ) : Prop := hw.ackInterval.toNat ≤ r ∨ hw.chunk.toNat ∣ r

instance (r : ℕ) : Decidable (hw.Replies r) := inferInstanceAs (Decidable (_ ∨ _))

/-- What is acknowledged in reply to the packet that ends at `r`. -/
def acked (r : ℕ) : ℕ :=
  if hw.Replies r then
    if hw.backto0 then r / hw.chunk.toNat * hw.chunk.toNat else r
  else
    0

/-- What is acknowledged in reply to the first `k` packets. -/
def ackedAfter : ℕ → ℕ
  | 0 => 0
  | k + 1 => max (ackedAfter k) (hw.acked (hw.boundary S (k + 1)))

/-- How far the acknowledgements are behind a receiver that has got up to `r`, the end of a packet
but not of the flow. -/
def ackGap (r : ℕ) : ℕ :=
  if r < hw.ackInterval.toNat then
    r % Nat.lcm hw.mtu.toNat hw.chunk.toNat
  else if hw.backto0 then
    r % hw.chunk.toNat
  else
    0

variable {hw} {S}

theorem boundary_le (k : ℕ) : hw.boundary S k ≤ S := Nat.min_le_right _ _

@[simp] theorem boundary_zero : hw.boundary S 0 = 0 := by simp [boundary]

theorem boundary_of_le {k : ℕ} (h : k * hw.mtu.toNat ≤ S) :
    hw.boundary S k = k * hw.mtu.toNat :=
  Nat.min_eq_left h

theorem boundary_mono {k l : ℕ} (h : k ≤ l) : hw.boundary S k ≤ hw.boundary S l :=
  min_le_min_right S (Nat.mul_le_mul_right _ h)

/-- The next packet carries at most `m_mtu` of what is left. -/
theorem boundary_succ (k : ℕ) : hw.boundary S (k + 1) =
    hw.boundary S k + min hw.mtu.toNat (S - hw.boundary S k) := by
  rw [boundary, boundary, Nat.succ_mul]
  omega

theorem acked_le (r : ℕ) : hw.acked r ≤ r := by
  rw [acked]
  split_ifs
  · exact Nat.div_mul_le_self _ _
  · exact le_rfl
  · exact Nat.zero_le _

theorem ackedAfter_le (k : ℕ) : hw.ackedAfter S k ≤ hw.boundary S k := by
  induction k with
  | zero => exact Nat.zero_le _
  | succ k ih => exact max_le (ih.trans (boundary_mono k.le_succ)) (acked_le _)

/-! ### The replies -/

/-- The receiver replies to a packet in order that ends at `r` if the schedule says so. -/
theorem reply_of_inOrder {now : ℕ} {rxQp : Option RdmaRxQueuePair} {p : DataPacket}
    {v : SeqVerdict} {q : RdmaRxQueuePair} (h : hw.receiveUdp now rxQp p = some (v, q))
    (hseq : p.seq = (rxQp.getD .new).receiverNextExpectedSeq) :
    (hw.Replies (p.seq + p.size).toNat ∧ reply q v = [{ nack := false, seq := p.seq + p.size }]) ∨
      (¬ hw.Replies (p.seq + p.size).toNat ∧ reply q v = []) := by
  obtain ⟨hnew, hv⟩ := receiveUdp_of_seq_eq h hseq
  have hiff : (p.seq + p.size ≥ hw.ackInterval ∨ (p.seq + p.size) % hw.chunk = 0) ↔
      hw.Replies (p.seq + p.size).toNat := by
    rw [Replies, Nat.dvd_iff_mod_eq_zero, ge_iff_le, UInt32.le_iff_toNat_le, ← UInt32.toNat_inj,
      UInt32.toNat_mod, UInt32.toNat_zero]
  split_ifs at hv with hcond
  · exact .inl ⟨hiff.1 hcond, by rw [hv, reply, hnew]⟩
  · exact .inr ⟨mt hiff.2 hcond, by rw [hv]; rfl⟩

/-- A reply acknowledges what the schedule says. -/
theorem ackedSeq_eq_acked (hint : hw.ackInterval ≠ 0) {seq : UInt32}
    (h : hw.Replies seq.toNat) : hw.ackedSeq seq = hw.acked seq.toNat := by
  rw [ackedSeq, if_neg hint, acked, if_pos h]

/-! ### Before the end of the flow -/

/-- What is acknowledged up to the packet that ends at `r`, in closed form. -/
def ackedUpTo (hw : RdmaHw) (r : ℕ) : ℕ :=
  if r < hw.ackInterval.toNat then
    r / Nat.lcm hw.mtu.toNat hw.chunk.toNat * Nat.lcm hw.mtu.toNat hw.chunk.toNat
  else if hw.backto0 then
    r / hw.chunk.toNat * hw.chunk.toNat
  else
    r

theorem ackedUpTo_add_ackGap (r : ℕ) : hw.ackedUpTo r + hw.ackGap r = r := by
  rw [ackedUpTo, ackGap]
  split_ifs
  · exact Nat.div_add_mod' r _
  · exact Nat.div_add_mod' r _
  · rfl

theorem ackedUpTo_le (r : ℕ) : hw.ackedUpTo r ≤ r := by
  have : hw.ackedUpTo r + hw.ackGap r = r := ackedUpTo_add_ackGap r
  omega

theorem chunk_dvd_ackedUpTo (hback : hw.backto0 = true) (r : ℕ) :
    hw.chunk.toNat ∣ hw.ackedUpTo r := by
  rw [ackedUpTo, if_pos hback]
  split_ifs
  · exact (Nat.dvd_lcm_right _ _).trans (Nat.dvd_mul_left _ _)
  · exact Nat.dvd_mul_left _ _

/-- A multiple of `c` below `r` is below the last multiple of `c` below `r`. -/
theorem le_div_mul_of_dvd {c u r : ℕ} (hc : c ∣ u) (hu : u ≤ r) : u ≤ r / c * c :=
  calc u = u / c * c := (Nat.div_mul_cancel hc).symm
    _ ≤ r / c * c := Nat.mul_le_mul_right c (Nat.div_le_div_right hu)

/-- Not before the interval every packet is acknowledged. -/
theorem max_acked_of_le {r r' : ℕ} (hr : hw.ackInterval.toNat ≤ r) (hr' : r' ≤ r) :
    max (hw.ackedUpTo r') (hw.acked r) = hw.ackedUpTo r := by
  have hle : hw.ackedUpTo r' ≤ r := (ackedUpTo_le r').trans hr'
  have hacked : hw.acked r = hw.ackedUpTo r := by
    rw [acked, if_pos (.inl hr), ackedUpTo, if_neg (Nat.not_lt.2 hr)]
  rw [hacked]
  refine max_eq_right ?_
  cases hback : hw.backto0 with
  | false => simpa [ackedUpTo, Nat.not_lt.2 hr, hback] using hle
  | true =>
    have hdvd := le_div_mul_of_dvd (chunk_dvd_ackedUpTo hback r') hle
    simpa [ackedUpTo, Nat.not_lt.2 hr, hback] using hdvd

/-- Before the interval only the packets that end at a multiple of the chunk are acknowledged. -/
theorem max_acked_of_lt {k : ℕ} (hr : (k + 1) * hw.mtu.toNat < hw.ackInterval.toNat) :
    max (hw.ackedUpTo (k * hw.mtu.toNat)) (hw.acked ((k + 1) * hw.mtu.toNat)) =
      hw.ackedUpTo ((k + 1) * hw.mtu.toNat) := by
  have hmono : k * hw.mtu.toNat ≤ (k + 1) * hw.mtu.toNat := Nat.mul_le_mul_right _ k.le_succ
  have hr' : k * hw.mtu.toNat < hw.ackInterval.toNat := Nat.lt_of_le_of_lt hmono hr
  by_cases hdvd : hw.chunk.toNat ∣ (k + 1) * hw.mtu.toNat
  · have hlcm := Nat.lcm_dvd (Nat.dvd_mul_left hw.mtu.toNat (k + 1)) hdvd
    have hacked : hw.acked ((k + 1) * hw.mtu.toNat) = (k + 1) * hw.mtu.toNat := by
      rw [acked, if_pos (.inr hdvd), Nat.div_mul_cancel hdvd, ite_self]
    rw [hacked, ackedUpTo, ackedUpTo, if_pos hr, if_pos hr', Nat.div_mul_cancel hlcm]
    exact max_eq_right ((Nat.div_mul_le_self _ _).trans hmono)
  · have hacked : hw.acked ((k + 1) * hw.mtu.toNat) = 0 := by
      rw [acked, if_neg]
      rintro (h | h)
      · omega
      · exact hdvd h
    rw [hacked, ackedUpTo, ackedUpTo, if_pos hr, if_pos hr', Nat.max_eq_left (Nat.zero_le _)]
    set L := Nat.lcm hw.mtu.toNat hw.chunk.toNat with hL
    refine le_antisymm (Nat.mul_le_mul_right L (Nat.div_le_div_right hmono)) ?_
    -- the last multiple of `L` is one of `m_mtu`, and not the end of this packet
    have hLdvd : L ∣ (k + 1) * hw.mtu.toNat / L * L := Nat.dvd_mul_left _ _
    refine le_div_mul_of_dvd hLdvd ?_
    have hle := Nat.div_mul_le_self ((k + 1) * hw.mtu.toNat) L
    obtain ⟨c, hc⟩ := (Nat.dvd_lcm_left hw.mtu.toNat hw.chunk.toNat).trans hLdvd
    have hne : (k + 1) * hw.mtu.toNat / L * L ≠ (k + 1) * hw.mtu.toNat := by
      intro heq
      rw [heq] at hLdvd
      exact hdvd ((Nat.dvd_lcm_right _ _).trans hLdvd)
    rw [hc] at hle hne ⊢
    rw [Nat.mul_comm] at hle hne ⊢
    have hck : c < k + 1 := Nat.lt_of_mul_lt_mul_right (Nat.lt_of_le_of_ne hle hne)
    exact Nat.mul_le_mul_right _ (Nat.le_of_lt_succ hck)

/-- **Before the end of the flow** the acknowledgements have a closed form. -/
theorem ackedAfter_eq {k : ℕ} (hk : k * hw.mtu.toNat ≤ S) :
    hw.ackedAfter S k = hw.ackedUpTo (k * hw.mtu.toNat) := by
  induction k with
  | zero => simp [ackedAfter, ackedUpTo]
  | succ k ih =>
    have hmono : k * hw.mtu.toNat ≤ (k + 1) * hw.mtu.toNat := Nat.mul_le_mul_right _ k.le_succ
    rw [ackedAfter, ih (hmono.trans hk), boundary_of_le hk]
    rcases Nat.lt_or_ge ((k + 1) * hw.mtu.toNat) hw.ackInterval.toNat with hlt | hge
    · exact max_acked_of_lt hlt
    · exact max_acked_of_le hge hmono

theorem ackedAfter_add_ackGap {k : ℕ} (hk : k * hw.mtu.toNat ≤ S) :
    hw.ackedAfter S k + hw.ackGap (k * hw.mtu.toNat) = k * hw.mtu.toNat := by
  rw [ackedAfter_eq hk, ackedUpTo_add_ackGap]

/-! ### At the end of the flow -/

/-- The last byte of the flow is acknowledged. -/
def LastByteAcked (hw : RdmaHw) (S : ℕ) : Prop :=
  hw.chunk.toNat ∣ S ∨ hw.backto0 = false ∧ hw.ackInterval.toNat ≤ S

theorem acked_eq_self_iff (hS : 0 < S) : hw.acked S = S ↔ hw.LastByteAcked S := by
  simp only [acked, LastByteAcked, Replies]
  cases hback : hw.backto0 with
  | false =>
    simp only [Bool.false_eq_true, if_false, true_and]
    split_ifs with h
    · exact iff_of_true rfl h.symm
    · refine iff_of_false hS.ne fun h' => h h'.symm
  | true =>
    simp only [if_true, Bool.true_eq_false, false_and, or_false]
    split_ifs with h
    · exact ⟨fun heq => ⟨S / hw.chunk.toNat, by rw [Nat.mul_comm]; exact heq.symm⟩,
        Nat.div_mul_cancel⟩
    · exact iff_of_false hS.ne fun h' => h (.inr h')

/-- **The end of the flow**: it is acknowledged once the last packet has arrived, if at all. -/
theorem le_ackedAfter_iff (hS : 0 < S) {k : ℕ} :
    S ≤ hw.ackedAfter S k ↔ hw.boundary S k = S ∧ hw.LastByteAcked S := by
  rw [← acked_eq_self_iff hS]
  induction k with
  | zero => simp [ackedAfter, hS.ne, hS.ne']
  | succ k ih =>
    rw [ackedAfter, le_max_iff, ih]
    have hmono : hw.boundary S k ≤ hw.boundary S (k + 1) := boundary_mono k.le_succ
    have hle : hw.boundary S (k + 1) ≤ S := boundary_le _
    constructor
    · rintro (⟨hk, hlast⟩ | hack)
      · exact ⟨by omega, hlast⟩
      · have : hw.acked (hw.boundary S (k + 1)) ≤ hw.boundary S (k + 1) := acked_le _
        have hend : hw.boundary S (k + 1) = S := by omega
        rw [hend] at hack
        exact ⟨hend, le_antisymm (acked_le S) hack⟩
    · rintro ⟨hend, hlast⟩
      right
      rw [hend, hlast]

end RdmaHw

end HpccSim
