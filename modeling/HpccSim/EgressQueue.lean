import Mathlib.Algebra.BigOperators.Group.Finset.Basic
import Mathlib.Algebra.Order.BigOperators.Group.Finset
import Mathlib.Logic.Function.Basic
import HpccSim.Lib.Tally
import HpccSim.SwitchMmu

/-!
# The egress queue of a switch port

`BEgressQueue` (`broadcom-egress-queue.cc`) keeps one `DropTailQueue` for each class and serves
them by `DequeueRR`: class `0` first, the classes that are not paused in turn. It refuses a packet
when the port is full; when it does not, it counts the packet even if the `DropTailQueue` of its
class refuses it.

## Main definitions

* `Packet`, `PauseHeader`: what a switch reads of a packet.
* `DropTailQueue`, `BEgressQueue`: the two queue classes.
* `BEgressQueue.enqueue`, `BEgressQueue.dequeueRR`: `Enqueue` and `DequeueRR`.
* `BEgressQueue.drain`: the loop of `QbbNetDevice::TakeDown`.

## Main results

* `BEgressQueue.held_enqueue`: a packet is held afterwards exactly if both levels accept it.
* `BEgressQueue.dequeueRR_eq_some`: the packet that `DequeueRR` takes.
-/

namespace HpccSim

/-- `PauseHeader`, the header of a PFC frame. -/
structure PauseHeader where
  time : UInt32
  qlen : UInt32
  qIndex : ℕ
  deriving DecidableEq

/-- A packet: its size, its `FlowIdTag` (the port it came in by), and its `PauseHeader` if it is a
PFC frame. -/
structure Packet where
  size : UInt32
  flowId : ℕ
  pfc : Option PauseHeader
  deriving DecidableEq

/-- `DropTailQueue::QueueMode`. -/
inductive QueueMode where
  | packets
  | bytes
  deriving DecidableEq

/-- `DropTailQueue`. -/
structure DropTailQueue where
  mode : QueueMode
  maxPackets : UInt32
  maxBytes : UInt32
  bytesInQueue : UInt32
  packets : List Packet

namespace DropTailQueue

/-- The attribute defaults, under which `BEgressQueue` creates its queues. -/
def default : DropTailQueue where
  mode := .bytes
  maxPackets := 100
  maxBytes := 30000 * 65535
  bytesInQueue := 0
  packets := []

/-- Neither test of `DropTailQueue::DoEnqueue` drops the packet. -/
def accepts (Q : DropTailQueue) (p : Packet) : Bool :=
  !(Q.mode = .packets ∧ Q.packets.length ≥ Q.maxPackets.toNat) &&
    !(Q.mode = .bytes ∧ Q.bytesInQueue + p.size ≥ Q.maxBytes)

/-- `DropTailQueue::DoEnqueue`. -/
def enqueue (Q : DropTailQueue) (p : Packet) : DropTailQueue :=
  if Q.accepts p then
    { Q with bytesInQueue := Q.bytesInQueue + p.size, packets := Q.packets ++ [p] }
  else
    Q

/-- `DropTailQueue::DoDequeue`. -/
def dequeue (Q : DropTailQueue) : Option (Packet × DropTailQueue) :=
  match Q.packets with
  | [] => none
  | p :: rest => some (p, { Q with bytesInQueue := Q.bytesInQueue - p.size, packets := rest })

end DropTailQueue

/-- `BEgressQueue`. The attribute `MaxBytes` is a double in the source; the byte counts it is
compared with are integers. -/
structure BEgressQueue where
  maxBytes : ℕ
  queues : ℕ → DropTailQueue
  bytesInQueue : ℕ → UInt32
  bytesInQueueTotal : UInt32
  rrlast : ℕ
  qlast : ℕ

namespace BEgressQueue

/-- The queue as it is created. -/
def empty (maxBytes : ℕ) : BEgressQueue where
  maxBytes := maxBytes
  queues _ := .default
  bytesInQueue _ := 0
  bytesInQueueTotal := 0
  rrlast := 0
  qlast := 0

/-- The packets held in a class, oldest first. -/
def held (Q : BEgressQueue) (qIndex : ℕ) : List Packet := (Q.queues qIndex).packets

/-- `BEgressQueue::GetNBytes`. -/
def getNBytes (Q : BEgressQueue) (qIndex : ℕ) : UInt32 := Q.bytesInQueue qIndex

/-- `BEgressQueue::GetLastQueue`. -/
def getLastQueue (Q : BEgressQueue) : ℕ := Q.qlast

/-- The test of `BEgressQueue::DoEnqueue`. -/
def hasRoom (Q : BEgressQueue) (p : Packet) : Bool :=
  decide ((Q.bytesInQueueTotal + p.size).toNat < Q.maxBytes)

/-- `BEgressQueue::Enqueue`: whether it succeeded, and the queue afterwards. The result of the
inner `Enqueue` is not looked at. -/
def enqueue (Q : BEgressQueue) (p : Packet) (qIndex : ℕ) : Bool × BEgressQueue :=
  if Q.hasRoom p then
    (true,
      { Q with
        queues := Function.update Q.queues qIndex ((Q.queues qIndex).enqueue p)
        bytesInQueueTotal := Q.bytesInQueueTotal + p.size
        bytesInQueue := Function.update Q.bytesInQueue qIndex (Q.bytesInQueue qIndex + p.size) })
  else
    (false, Q)

/-- Both levels of the queue accept the packet. -/
def accepts (Q : BEgressQueue) (p : Packet) (qIndex : ℕ) : Bool :=
  Q.hasRoom p && (Q.queues qIndex).accepts p

/-- The class `DequeueRR` serves: `0` if it holds a packet, else the next one in the round that is
not paused and holds a packet. -/
def nextClass (Q : BEgressQueue) (paused : ℕ → Bool) : Option ℕ :=
  if Q.held 0 ≠ [] then
    some 0
  else
    ((List.range' 1 qCnt).map fun i => (i + Q.rrlast) % qCnt).find? fun q =>
      !paused q && !(Q.held q).isEmpty

/-- `BEgressQueue::DequeueRR`; the class the packet is from is left in `qlast`. -/
def dequeueRR (Q : BEgressQueue) (paused : ℕ → Bool) : Option (Packet × BEgressQueue) :=
  if Q.bytesInQueueTotal = 0 then
    none
  else
    (Q.nextClass paused).bind fun q =>
      (Q.queues q).dequeue.map fun (p, Q') =>
        (p,
          { Q with
            queues := Function.update Q.queues q Q'
            bytesInQueueTotal := Q.bytesInQueueTotal - p.size
            bytesInQueue := Function.update Q.bytesInQueue q (Q.bytesInQueue q - p.size)
            rrlast := if q ≠ 0 then q else Q.rrlast
            qlast := q })

/-- The loop of `QbbNetDevice::TakeDown`, for at most `n` rounds: with no class paused, take
packets until there is none. -/
def drain : ℕ → BEgressQueue → BEgressQueue
  | 0, Q => Q
  | n + 1, Q =>
    match Q.dequeueRR fun _ => false with
    | none => Q
    | some (_, Q') => drain n Q'

/-- The number of packets held in all classes. -/
def packetCount (Q : BEgressQueue) : ℕ := ∑ q ∈ Finset.range qCnt, (Q.held q).length

variable {Q Q' : BEgressQueue} {p : Packet} {paused : ℕ → Bool}

@[simp] theorem held_empty (maxBytes q : ℕ) : (empty maxBytes).held q = [] := rfl

/-! ### Enqueueing -/

theorem held_enqueue (Q : BEgressQueue) (p : Packet) (q : ℕ) :
    (Q.enqueue p q).2.held =
      if Q.accepts p q then Function.update Q.held q (Q.held q ++ [p]) else Q.held := by
  funext q'
  simp only [enqueue, accepts, held]
  by_cases hmax : Q.hasRoom p
  · by_cases hq : q' = q
    · subst hq
      by_cases hacc : (Q.queues q').accepts p <;>
        simp [hmax, hacc, held, DropTailQueue.enqueue]
    · by_cases hacc : (Q.queues q).accepts p <;>
        simp [hmax, hacc, hq, held]
  · simp [hmax, held]

/-! ### Dequeueing -/

theorem nextClass_eq_some {q : ℕ} (h : Q.nextClass paused = some q) :
    q < qCnt ∧ (Q.held 0 ≠ [] → q = 0) ∧ (q ≠ 0 → paused q = false) := by
  rw [nextClass] at h
  split_ifs at h with h₀
  · cases h
    exact ⟨by decide, fun _ => rfl, fun hne => absurd rfl hne⟩
  · have hfound := List.find?_some h
    obtain ⟨i, -, rfl⟩ := List.mem_map.1 (List.mem_of_find?_eq_some h)
    simp only [Bool.and_eq_true, Bool.not_eq_true'] at hfound
    exact ⟨Nat.mod_lt _ (by decide), fun hne => absurd hne h₀, fun _ => hfound.1⟩

/-- **The packet that `DequeueRR` takes** is the oldest of its class, which is class `0` whenever
that holds a packet, and never a paused class otherwise. -/
theorem dequeueRR_eq_some (h : Q.dequeueRR paused = some (p, Q')) :
    Q'.qlast < qCnt ∧ Q.held Q'.qlast = p :: Q'.held Q'.qlast ∧
      (∀ q, q ≠ Q'.qlast → Q'.held q = Q.held q) ∧
      (Q.held 0 ≠ [] → Q'.qlast = 0) ∧ (Q'.qlast ≠ 0 → paused Q'.qlast = false) := by
  rw [dequeueRR] at h
  split_ifs at h with htot
  obtain ⟨q, hq, h⟩ := Option.bind_eq_some_iff.1 h
  obtain ⟨⟨p', D⟩, hD, h⟩ := Option.map_eq_some_iff.1 h
  cases h
  rw [DropTailQueue.dequeue] at hD
  split at hD
  · cases hD
  · next rest hpackets =>
    cases hD
    obtain ⟨hlt, hzero, hpaused⟩ := nextClass_eq_some hq
    refine ⟨hlt, ?_, fun q' hne => ?_, hzero, hpaused⟩
    · simp only [held, Function.update_self]
      exact hpackets
    · simp only [held, Function.update_of_ne hne]

/-- A queue whose class `0` holds a packet serves that class or, if its byte count has wrapped to
zero, none. -/
theorem qlast_eq_zero (h : Q.dequeueRR paused = some (p, Q')) (h₀ : Q.held 0 ≠ []) :
    Q'.qlast = 0 :=
  (dequeueRR_eq_some h).2.2.2.1 h₀

theorem packetCount_of_dequeueRR (h : Q.dequeueRR paused = some (p, Q')) :
    Q'.packetCount + 1 = Q.packetCount := by
  obtain ⟨hlt, hheld, hrest, -⟩ := dequeueRR_eq_some h
  have hsum := sum_add_of_eq_off (Finset.mem_range.2 hlt) (f := fun q => (Q'.held q).length)
    (g := fun q => (Q.held q).length) fun q _ hne => by rw [hrest q hne]
  have hlen : (Q.held Q'.qlast).length = (Q'.held Q'.qlast).length + 1 := by
    rw [hheld, List.length_cons]
  simp only [packetCount]
  omega

/-- Enough rounds leave nothing that `DequeueRR` would take. -/
theorem dequeueRR_drain {n : ℕ} (h : Q.packetCount ≤ n) :
    (Q.drain n).dequeueRR (fun _ => false) = none := by
  induction n generalizing Q with
  | zero =>
    rw [drain]
    by_contra hne
    obtain ⟨⟨p, Q'⟩, hsome⟩ := Option.ne_none_iff_exists'.1 hne
    have := packetCount_of_dequeueRR hsome
    omega
  | succ n ih =>
    rw [drain]
    split
    · assumption
    · next p Q' hsome =>
      have := packetCount_of_dequeueRR hsome
      exact ih (by omega)

theorem held_drain_of_eq_nil {n q : ℕ} (h : Q.held q = []) : (Q.drain n).held q = [] := by
  induction n generalizing Q with
  | zero => exact h
  | succ n ih =>
    rw [drain]
    split
    · exact h
    · next p Q' hsome =>
      obtain ⟨-, hheld, hrest, -⟩ := dequeueRR_eq_some hsome
      refine ih ?_
      by_cases hq : q = Q'.qlast
      · subst hq
        rw [h] at hheld
        cases hheld
      · rw [hrest q hq, h]

/-- The classes beyond those of a switch are not touched. -/
theorem held_drain_of_le {n q : ℕ} (hq : qCnt ≤ q) : (Q.drain n).held q = Q.held q := by
  induction n generalizing Q with
  | zero => rfl
  | succ n ih =>
    rw [drain]
    split
    · rfl
    · next p Q' hsome =>
      obtain ⟨hlt, -, hrest, -⟩ := dequeueRR_eq_some hsome
      rw [ih, hrest q (by omega)]

end BEgressQueue

end HpccSim
