import Mathlib.Algebra.BigOperators.Group.List.Basic
import HpccSim.EgressQueue
import HpccSim.Lib.RoundRobin
import HpccSim.Lib.Run

/-!
# Conservation and fairness of the egress queue

A `BEgressQueue`, and each `DropTailQueue` in it, also is a `Queue` (`queue.cc`), which counts
packets and bytes for itself; `DequeueRR` looks at the packet counts of the `DropTailQueue`s and at
the byte count of the whole. As long as packets have a size and the byte counts do not wrap, all
the counters agree with the packets held, and nothing is lost between the levels.

## Main definitions

* `QueueCounters`, `CountedQueue`: the counters of `Queue`, and the egress queue with them.
* `CountedQueue.Call`, `CountedQueue.step`: the calls, logged.
* `CountedQueue.Conserved`, `CountedQueue.Serves`: the two properties of a state.

## Main results

* `CountedQueue.Counted.dequeueRR_toBEgressQueue`: `BEgressQueue.dequeueRR` is what the counted
  queue does.
* `CountedQueue.Counted.step`: the counters agree with the packets held.
* `CountedQueue.passedSince_of_along`: the round robin passes over no class that waits.
* `CountedQueue.conserves_and_fair`: what holds in every run.
-/

namespace HpccSim

/-- The counters of `Queue`. -/
structure QueueCounters where
  nBytes : UInt32
  nTotalReceivedBytes : UInt32
  nPackets : UInt32
  nTotalReceivedPackets : UInt32
  nTotalDroppedBytes : UInt32
  nTotalDroppedPackets : UInt32

namespace QueueCounters

/-- `Queue::Queue`. -/
def zero : QueueCounters := ⟨0, 0, 0, 0, 0, 0⟩

variable (C : QueueCounters) (p : Packet)

/-- `Queue::Enqueue` and `BEgressQueue::Enqueue`, when `DoEnqueue` has succeeded. -/
def received : QueueCounters :=
  { C with
    nBytes := C.nBytes + p.size
    nTotalReceivedBytes := C.nTotalReceivedBytes + p.size
    nPackets := C.nPackets + 1
    nTotalReceivedPackets := C.nTotalReceivedPackets + 1 }

/-- `Queue::Dequeue` and `BEgressQueue::DequeueRR`, when there is a packet; they assert that the
counters are not exceeded. -/
def sent : Option QueueCounters :=
  if C.nBytes ≥ p.size ∧ C.nPackets > 0 then
    some { C with nBytes := C.nBytes - p.size, nPackets := C.nPackets - 1 }
  else
    none

/-- `Queue::Drop`. -/
def dropped : QueueCounters :=
  { C with
    nTotalDroppedBytes := C.nTotalDroppedBytes + p.size
    nTotalDroppedPackets := C.nTotalDroppedPackets + 1 }

end QueueCounters

/-- `BEgressQueue` with the counters of `Queue`, its own and those of its `DropTailQueue`s. -/
structure CountedQueue extends BEgressQueue where
  counters : QueueCounters
  inner : ℕ → QueueCounters

namespace CountedQueue

/-- A queue as it is created, with `MaxBytes` of the `DropTailQueue`s set to `limit`. -/
def empty (maxBytes : ℕ) (limit : UInt32) : CountedQueue where
  toBEgressQueue :=
    { BEgressQueue.empty maxBytes with
      queues := fun _ => { DropTailQueue.default with maxBytes := limit } }
  counters := .zero
  inner _ := .zero

variable (Q : CountedQueue)

/-- `BEgressQueue::Enqueue`. A `DropTailQueue` that refuses the packet counts it as dropped. -/
def enqueue (p : Packet) (qIndex : ℕ) : Bool × CountedQueue :=
  if Q.hasRoom p then
    (true,
      { toBEgressQueue := (Q.toBEgressQueue.enqueue p qIndex).2
        counters := Q.counters.received p
        inner := Function.update Q.inner qIndex
          (if (Q.queues qIndex).accepts p then (Q.inner qIndex).received p
            else (Q.inner qIndex).dropped p) })
  else
    (false, Q)

/-- `m_queues[qIndex]->GetNPackets() > 0`. -/
def hasPackets (qIndex : ℕ) : Bool := decide (0 < (Q.inner qIndex).nPackets)

/-- The class `DoDequeueRR` finds. -/
def nextClass (paused : ℕ → Bool) : Option ℕ :=
  if Q.hasPackets 0 then
    some 0
  else
    ((List.range' 1 qCnt).map fun i => (i + Q.rrlast) % qCnt).find? fun q =>
      !paused q && Q.hasPackets q

/-- The queue when `p` has been taken from the class `q`, with the `DropTailQueue` of the class and
the counters of both levels as they are then. -/
def without (p : Packet) (q : ℕ) (D : DropTailQueue) (inner counters : QueueCounters) :
    CountedQueue where
  toBEgressQueue :=
    { Q.toBEgressQueue with
      queues := Function.update Q.queues q D
      bytesInQueueTotal := Q.bytesInQueueTotal - p.size
      bytesInQueue := Function.update Q.bytesInQueue q (Q.bytesInQueue q - p.size)
      rrlast := if q ≠ 0 then q else Q.rrlast
      qlast := q }
  counters := counters
  inner := Function.update Q.inner q inner

/-- The part of `BEgressQueue::DequeueRR` that takes a packet of the class `q`; `none` if there is
none, or an assertion fails. -/
def serve (q : ℕ) : Option (Packet × CountedQueue) := do
  let (p, D) ← (Q.queues q).dequeue
  let inner ← (Q.inner q).sent p
  let counters ← Q.counters.sent p
  return (p, Q.without p q D inner counters)

/-- `BEgressQueue::DequeueRR`: the packet, if any. -/
def dequeueRR (paused : ℕ → Bool) : Option (Option Packet × CountedQueue) :=
  if Q.bytesInQueueTotal = 0 then
    some (none, Q)
  else
    match Q.nextClass paused with
    | none => some (none, Q)
    | some q => (Q.serve q).map fun r => (some r.1, r.2)

/-- A call. -/
inductive Call where
  | enqueue (p : Packet) (qIndex : ℕ)
  | dequeueRR (paused : ℕ → Bool)

/-- What a call has done. -/
inductive Outcome where
  | accepted (qIndex : ℕ) (p : Packet)
  | refused
  | served (qIndex : ℕ) (p : Packet)
  | idle

/-- A queue with the log of its calls, oldest first. -/
structure Logged extends CountedQueue where
  trace : List Outcome

/-- A queue as it is created. -/
def start (maxBytes : ℕ) (limit : UInt32) : Logged where
  toCountedQueue := empty maxBytes limit
  trace := []

/-- One call. -/
def step (S : Logged) : Call → Option Logged
  | .enqueue p qIndex =>
    let r := S.enqueue p qIndex
    some { toCountedQueue := r.2
           trace := S.trace ++ [if r.1 then .accepted qIndex p else .refused] }
  | .dequeueRR paused =>
    (S.dequeueRR paused).map fun r =>
      { toCountedQueue := r.2
        trace := S.trace ++ [r.1.elim .idle (.served r.2.qlast)] }

/-- The packet a call has added to the class `q`. -/
def Outcome.acceptedIn (q : ℕ) : Outcome → Option Packet
  | .accepted q' p => if q' = q then some p else none
  | .refused | .served _ _ | .idle => none

/-- The packet a call has taken from the class `q`. -/
def Outcome.servedIn (q : ℕ) : Outcome → Option Packet
  | .served q' p => if q' = q then some p else none
  | .accepted _ _ | .refused | .idle => none

/-- The class a call has served, class `0` apart. -/
def Outcome.turn : Outcome → Option ℕ
  | .served q _ => if q = 0 then none else some q
  | .accepted _ _ | .refused | .idle => none

/-- The bytes of some packets. -/
def byteCount (l : List Packet) : ℕ := (l.map fun p => p.size.toNat).sum

/-- The byte counts agree with each other and with the packets held. -/
structure Conserved : Prop where
  total : Q.bytesInQueueTotal.toNat = ∑ q ∈ Finset.range qCnt, byteCount (Q.held q)
  classes : Q.bytesInQueueTotal.toNat = ∑ q ∈ Finset.range qCnt, (Q.bytesInQueue q).toNat
  nBytes : Q.counters.nBytes = Q.bytesInQueueTotal

/-- What `DequeueRR` does: it returns no packet exactly if class `0` is empty and every class that
is not paused, and then nothing changes; otherwise it takes the oldest packet of a class, which is
class `0` whenever that holds a packet, and never a paused class otherwise. -/
def Serves (paused : ℕ → Bool) : Prop :=
  ∃ r Q', Q.dequeueRR paused = some (r, Q') ∧
    (r = none ↔ Q.held 0 = [] ∧
      ∀ q, 1 ≤ q → q < qCnt → paused q = false → Q.held q = []) ∧
    (r = none → Q' = Q) ∧
    ∀ p ∈ r, Q'.qlast < qCnt ∧ (Q.held 0 ≠ [] → Q'.qlast = 0) ∧
      (Q'.qlast ≠ 0 → paused Q'.qlast = false) ∧
      Q.held Q'.qlast = p :: Q'.held Q'.qlast ∧
      ∀ q, q ≠ Q'.qlast → Q'.held q = Q.held q

/-- The packets of each class leave in the order in which they were accepted, each once. -/
def Fifo (S : Logged) : Prop :=
  ∀ q, S.trace.filterMap (Outcome.acceptedIn q) =
    S.trace.filterMap (Outcome.servedIn q) ++ S.held q

/-- The call is for a class of a switch, and its packet has a size that does not make the byte
count wrap. -/
def Fits (S : Logged) : Call → Prop
  | .enqueue p qIndex =>
    qIndex < qCnt ∧ 0 < p.size ∧ S.bytesInQueueTotal.toNat + p.size.toNat < 2 ^ 32
  | .dequeueRR _ => True

instance (S : Logged) (call : Call) : Decidable (Fits S call) :=
  match call with
  | .enqueue p qIndex => inferInstanceAs (Decidable (qIndex < qCnt ∧ 0 < p.size ∧
      S.bytesInQueueTotal.toNat + p.size.toNat < 2 ^ 32))
  | .dequeueRR _ => inferInstanceAs (Decidable True)

/-- The class `c` holds a packet and is not paused when the queue is asked for one. -/
def Waits (c : ℕ) (S : Logged) : Call → Prop
  | .enqueue _ _ => True
  | .dequeueRR paused => S.held c ≠ [] ∧ paused c = false

/-- The counters of one class agree with the packets in its `DropTailQueue`, each of which has a
size: `bytes` is the count of `BEgressQueue`, and `C` are those of `Queue`. -/
structure ClassCounted (maxBytes : ℕ) (D : DropTailQueue) (bytes : UInt32) (C : QueueCounters) :
    Prop where
  mode : D.mode = .bytes
  limit : maxBytes ≤ D.maxBytes.toNat
  bytes : bytes.toNat = byteCount D.packets
  dropTail : D.bytesInQueue.toNat = byteCount D.packets
  nBytes : C.nBytes.toNat = byteCount D.packets
  nPackets : C.nPackets.toNat = D.packets.length
  pos : ∀ p ∈ D.packets, 0 < p.size

/-- All counters agree with the packets held. -/
structure Counted : Prop where
  classes : ∀ q, ClassCounted Q.maxBytes (Q.queues q) (Q.bytesInQueue q) (Q.inner q)
  total : Q.bytesInQueueTotal.toNat = ∑ q ∈ Finset.range qCnt, byteCount (Q.held q)
  nBytes : Q.counters.nBytes = Q.bytesInQueueTotal
  nPackets : Q.counters.nPackets.toNat = Q.packetCount

variable {Q} {p : Packet} {q c : ℕ} {paused : ℕ → Bool}

/-! ### Counting -/

@[simp] theorem byteCount_cons (p : Packet) (l : List Packet) :
    byteCount (p :: l) = p.size.toNat + byteCount l := by
  simp [byteCount]

theorem byteCount_concat (l : List Packet) (p : Packet) :
    byteCount (l ++ [p]) = byteCount l + p.size.toNat := by
  simp [byteCount]

theorem length_le_byteCount {l : List Packet} (h : ∀ p ∈ l, 0 < p.size) :
    l.length ≤ byteCount l := by
  induction l with
  | nil => exact le_refl 0
  | cons p l ih =>
    have hp : 0 < p.size.toNat := UInt32.lt_iff_toNat_lt.1 (h p List.mem_cons_self)
    have hl := ih fun r hr => h r (List.mem_cons_of_mem p hr)
    rw [List.length_cons, byteCount_cons]
    omega

private theorem toNat_add_of_fits {a b : UInt32} (h : a.toNat + b.toNat < 2 ^ 32) :
    (a + b).toNat = a.toNat + b.toNat := by
  rw [UInt32.toNat_add, Nat.mod_eq_of_lt h]

/-- A counter from which what it counts is taken. -/
private theorem toNat_sub_of_eq {a b : UInt32} {n : ℕ} (h : a.toNat = b.toNat + n) :
    (a - b).toNat = n := by
  rw [UInt32.toNat_sub_of_le _ _ (UInt32.le_iff_toNat_le.2 (by omega))]
  omega

/-! ### One class -/

namespace ClassCounted

variable {maxBytes : ℕ} {D : DropTailQueue} {bytes : UInt32} {C C' : QueueCounters}

/-- A packet enters the class. -/
theorem push (h : ClassCounted maxBytes D bytes C) (hp : 0 < p.size)
    (hfit : byteCount D.packets + p.size.toNat < 2 ^ 32) :
    ClassCounted maxBytes
      { D with bytesInQueue := D.bytesInQueue + p.size, packets := D.packets ++ [p] }
      (bytes + p.size) (C.received p) where
  mode := h.mode
  limit := h.limit
  bytes := by
    rw [byteCount_concat, ← h.bytes]
    exact toNat_add_of_fits (by rwa [h.bytes])
  dropTail := by
    rw [byteCount_concat, ← h.dropTail]
    exact toNat_add_of_fits (by rwa [h.dropTail])
  nBytes := by
    rw [byteCount_concat, ← h.nBytes]
    exact toNat_add_of_fits (by rwa [h.nBytes])
  nPackets := by
    have hlen := length_le_byteCount h.pos
    have hpos : 0 < p.size.toNat := UInt32.lt_iff_toNat_lt.1 hp
    rw [List.length_append, List.length_singleton, ← h.nPackets]
    refine toNat_add_of_fits (b := 1) ?_
    rw [h.nPackets, UInt32.toNat_one]
    omega
  pos r hr := by
    rcases List.mem_append.1 hr with hr | hr
    · exact h.pos r hr
    · rwa [List.mem_singleton.1 hr]

/-- The assertions of `Dequeue` hold, and the packet leaves the class. -/
theorem pop {rest : List Packet} (h : ClassCounted maxBytes D bytes C)
    (hpackets : D.packets = p :: rest) :
    ∃ C', C.sent p = some C' ∧
      ClassCounted maxBytes { D with bytesInQueue := D.bytesInQueue - p.size, packets := rest }
        (bytes - p.size) C' := by
  obtain ⟨hmode, hlimit, hbytes, hdrop, hnBytes, hnPackets, hpos⟩ := h
  simp only [hpackets, byteCount_cons, List.length_cons] at hbytes hdrop hnBytes hnPackets
  have hsent : C.nBytes ≥ p.size ∧ C.nPackets > 0 := by
    refine ⟨UInt32.le_iff_toNat_le.2 (by omega), UInt32.lt_iff_toNat_lt.2 ?_⟩
    rw [UInt32.toNat_zero]
    omega
  refine ⟨_, if_pos hsent, hmode, hlimit, toNat_sub_of_eq hbytes, toNat_sub_of_eq hdrop,
    toNat_sub_of_eq hnBytes, toNat_sub_of_eq (b := 1) ?_, fun r hr => hpos r ?_⟩
  · rw [hnPackets, UInt32.toNat_one, Nat.add_comm]
  · rw [hpackets]
    exact List.mem_cons_of_mem p hr

end ClassCounted

/-! ### The whole queue -/

@[simp] theorem enqueue_fst (Q : CountedQueue) (p : Packet) (q : ℕ) :
    (Q.enqueue p q).1 = Q.hasRoom p := by
  rw [enqueue]
  cases Q.hasRoom p <;> simp

/-- A refused packet changes nothing. -/
theorem enqueue_snd_of_refused (h : (Q.enqueue p q).1 = false) : (Q.enqueue p q).2 = Q := by
  rw [enqueue_fst] at h
  rw [enqueue, if_neg (by simp [h])]

namespace Counted

variable (h : Counted Q)
include h

theorem conserved : Conserved Q where
  total := h.total
  classes := by
    rw [h.total]
    exact Finset.sum_congr rfl fun q _ => (h.classes q).bytes.symm
  nBytes := h.nBytes

theorem byteCount_le (hq : q < qCnt) : byteCount (Q.held q) ≤ Q.bytesInQueueTotal.toNat := by
  rw [h.total]
  exact Finset.single_le_sum (f := fun q => byteCount (Q.held q)) (fun _ _ => Nat.zero_le _)
    (Finset.mem_range.2 hq)

theorem packetCount_le : Q.packetCount ≤ Q.bytesInQueueTotal.toNat := by
  rw [h.total, BEgressQueue.packetCount]
  exact Finset.sum_le_sum fun q _ => length_le_byteCount (h.classes q).pos

/-- A `DropTailQueue` accepts what the egress queue does. -/
theorem accepts (hq : q < qCnt) (hfit : Q.bytesInQueueTotal.toNat + p.size.toNat < 2 ^ 32)
    (hroom : Q.hasRoom p = true) : (Q.queues q).accepts p = true := by
  have hle := h.byteCount_le hq
  have hlimit := (h.classes q).limit
  have hdrop : (Q.queues q).bytesInQueue.toNat = byteCount (Q.held q) := (h.classes q).dropTail
  rw [BEgressQueue.hasRoom, decide_eq_true_eq, toNat_add_of_fits hfit] at hroom
  have hlt : (Q.queues q).bytesInQueue + p.size < (Q.queues q).maxBytes := by
    rw [UInt32.lt_iff_toNat_lt, toNat_add_of_fits (by omega)]
    omega
  simpa [DropTailQueue.accepts, (h.classes q).mode] using hlt

theorem held_enqueue (hq : q < qCnt)
    (hfit : Q.bytesInQueueTotal.toNat + p.size.toNat < 2 ^ 32) :
    (Q.enqueue p q).2.held =
      if Q.hasRoom p then Function.update Q.held q (Q.held q ++ [p]) else Q.held := by
  have hheld := Q.toBEgressQueue.held_enqueue p q
  rw [enqueue]
  by_cases hroom : Q.hasRoom p = true
  · rw [BEgressQueue.accepts, hroom, h.accepts hq hfit hroom] at hheld
    rw [if_pos hroom, if_pos hroom]
    simpa using hheld
  · rw [if_neg hroom, if_neg hroom]

/-- **A packet enters**: each counter grows by it, at each level. -/
theorem enqueue (hq : q < qCnt) (hp : 0 < p.size)
    (hfit : Q.bytesInQueueTotal.toNat + p.size.toNat < 2 ^ 32) : Counted (Q.enqueue p q).2 := by
  have hheld := h.held_enqueue hq hfit
  by_cases hroom : Q.hasRoom p = true
  · have hacc := h.accepts hq hfit hroom
    have hle := h.byteCount_le hq
    have hcount := h.packetCount_le
    have hpos : 0 < p.size.toNat := UInt32.lt_iff_toNat_lt.1 hp
    rw [if_pos hroom] at hheld
    -- the sums over the classes grow by the packet
    have hbytes := sum_add_of_eq_off (Finset.mem_range.2 hq)
      (f := fun r => byteCount ((Q.enqueue p q).2.held r)) (g := fun r => byteCount (Q.held r))
      fun r _ hne => by rw [hheld, Function.update_of_ne hne]
    have hpackets := sum_add_of_eq_off (Finset.mem_range.2 hq)
      (f := fun r => ((Q.enqueue p q).2.held r).length) (g := fun r => (Q.held r).length)
      fun r _ hne => by rw [hheld, Function.update_of_ne hne]
    simp only [hheld, Function.update_self, byteCount_concat, List.length_append,
      List.length_singleton] at hbytes hpackets
    have htotal := h.total
    have hnPackets := h.nPackets
    simp only [BEgressQueue.packetCount] at hcount hnPackets
    refine ⟨fun r => ?_, ?_, ?_, ?_⟩
    · by_cases hr : r = q
      · subst hr
        simpa [CountedQueue.enqueue, BEgressQueue.enqueue, DropTailQueue.enqueue, hroom, hacc]
          using (h.classes r).push hp (Nat.lt_of_le_of_lt (Nat.add_le_add_right hle _) hfit)
      · simpa [CountedQueue.enqueue, BEgressQueue.enqueue, DropTailQueue.enqueue, hroom, hacc, hr]
          using h.classes r
    · have htot : (Q.enqueue p q).2.bytesInQueueTotal = Q.bytesInQueueTotal + p.size := by
        simp [CountedQueue.enqueue, BEgressQueue.enqueue, hroom]
      rw [htot, toNat_add_of_fits hfit, hheld]
      omega
    · simp [CountedQueue.enqueue, BEgressQueue.enqueue, QueueCounters.received, hroom, h.nBytes]
    · have hnum : (Q.enqueue p q).2.counters.nPackets = Q.counters.nPackets + 1 := by
        simp [CountedQueue.enqueue, QueueCounters.received, hroom]
      rw [hnum, toNat_add_of_fits (by rw [UInt32.toNat_one]; omega), UInt32.toNat_one,
        BEgressQueue.packetCount, hheld]
      omega
  · rw [CountedQueue.enqueue, if_neg hroom]
    exact h

omit h in
theorem held_without (Q : CountedQueue) (p : Packet) (q : ℕ) (D : DropTailQueue)
    (inner counters : QueueCounters) :
    (Q.without p q D inner counters).held = Function.update Q.held q D.packets := by
  funext r
  by_cases hr : r = q
  · subst hr
    simp [without, BEgressQueue.held]
  · simp [without, BEgressQueue.held, hr]

/-- **A packet leaves**: it is the oldest of its class, each counter loses it, and no assertion
fails. -/
theorem serve {rest : List Packet} (hq : q < qCnt) (hheld : Q.held q = p :: rest) :
    ∃ Q', Q.serve q = some (p, Q') ∧ Counted Q' ∧ Q'.qlast = q ∧
      Q'.rrlast = (if q ≠ 0 then q else Q.rrlast) ∧
      Q'.held = Function.update Q.held q rest := by
  have htotal := h.total
  have hnPackets := h.nPackets
  rw [BEgressQueue.packetCount] at hnPackets
  -- the sums over the classes lose the packet
  have hbytes := sum_add_of_eq_off (Finset.mem_range.2 hq)
    (f := fun r => byteCount (Function.update Q.held q rest r))
    (g := fun r => byteCount (Q.held r)) fun r _ hne => by rw [Function.update_of_ne hne]
  have hpackets := sum_add_of_eq_off (Finset.mem_range.2 hq)
    (f := fun r => (Function.update Q.held q rest r).length)
    (g := fun r => (Q.held r).length) fun r _ hne => by rw [Function.update_of_ne hne]
  simp only [hheld, Function.update_self, byteCount_cons, List.length_cons] at hbytes hpackets
  obtain ⟨inner, hinner, hclass⟩ := (h.classes q).pop hheld
  have hsent : Q.counters.nBytes ≥ p.size ∧ Q.counters.nPackets > 0 := by
    refine ⟨UInt32.le_iff_toNat_le.2 ?_, UInt32.lt_iff_toNat_lt.2 ?_⟩
    · rw [h.nBytes]
      omega
    · rw [UInt32.toNat_zero]
      omega
  have hcounters : Q.counters.sent p = some _ := if_pos hsent
  let D := { Q.queues q with
    bytesInQueue := (Q.queues q).bytesInQueue - p.size
    packets := rest }
  have hdeq : (Q.queues q).dequeue = some (p, D) := by
    have hpackets : (Q.queues q).packets = p :: rest := hheld
    rw [DropTailQueue.dequeue, hpackets]
  have hnew (counters : QueueCounters) :
      (Q.without p q D inner counters).held = Function.update Q.held q rest :=
    held_without Q p q D inner counters
  refine ⟨Q.without p q D inner _, by simp [CountedQueue.serve, hdeq, hinner, hcounters]; rfl,
    ⟨fun r => ?_, ?_, ?_, ?_⟩, rfl, rfl, hnew _⟩
  · by_cases hr : r = q
    · subst hr
      simpa [without] using hclass
    · simpa [without, hr] using h.classes r
  · rw [hnew]
    exact toNat_sub_of_eq (by omega)
  · simp [without, h.nBytes]
  · rw [BEgressQueue.packetCount, hnew]
    exact toNat_sub_of_eq (b := 1) (by rw [UInt32.toNat_one]; omega)

theorem hasPackets_eq (q : ℕ) : Q.hasPackets q = !(Q.held q).isEmpty := by
  have hlen : (Q.inner q).nPackets.toNat = (Q.held q).length := (h.classes q).nPackets
  have hpos : 0 < (Q.inner q).nPackets ↔ Q.held q ≠ [] := by
    rw [UInt32.lt_iff_toNat_lt, hlen]
    exact List.length_pos_iff
  simp only [hasPackets, hpos]
  cases Q.held q <;> simp

/-- The packet counts say which class is next. -/
theorem nextClass_eq (paused : ℕ → Bool) :
    Q.nextClass paused = Q.toBEgressQueue.nextClass paused := by
  simp only [CountedQueue.nextClass, BEgressQueue.nextClass, h.hasPackets_eq]
  cases Q.held 0 <;> simp

/-- Without bytes there are no packets. -/
theorem held_eq_nil (htotal : Q.bytesInQueueTotal = 0) (hq : q < qCnt) : Q.held q = [] := by
  have hle := h.byteCount_le hq
  have hlen : (Q.held q).length ≤ byteCount (Q.held q) := length_le_byteCount (h.classes q).pos
  rw [htotal, UInt32.toNat_zero] at hle
  exact List.length_eq_zero_iff.1 (by omega)

omit h in
/-- The classes in the order in which `DoDequeueRR` looks at them. -/
theorem round_eq (rrlast : ℕ) :
    ((List.range' 1 qCnt).map fun i => (i + rrlast) % qCnt) =
      (List.range qCnt).rotate (rrlast + 1) := by
  rw [RoundRobin.rotate_range, List.range'_eq_map_range, List.map_map]
  refine List.map_congr_left fun k _ => ?_
  rw [Function.comp_apply, Nat.add_comm 1 k, Nat.add_assoc, Nat.add_comm 1 rrlast]

/-- `DequeueRR` finds no class, and no class may send; or it serves the class it finds. -/
theorem dequeueRR_cases (paused : ℕ → Bool) :
    (Q.dequeueRR paused = some (none, Q) ∧ Q.held 0 = [] ∧
      ∀ q, 1 ≤ q → q < qCnt → paused q = false → Q.held q = []) ∨
    ∃ q p rest Q', Q.toBEgressQueue.nextClass paused = some q ∧ Q.held q = p :: rest ∧
      Q.dequeueRR paused = some (some p, Q') ∧ Counted Q' ∧ Q'.qlast = q ∧
      Q'.rrlast = (if q ≠ 0 then q else Q.rrlast) ∧ Q'.held = Function.update Q.held q rest := by
  by_cases htotal : Q.bytesInQueueTotal = 0
  · exact .inl ⟨if_pos htotal, h.held_eq_nil htotal (by decide),
      fun q _ hq _ => h.held_eq_nil htotal hq⟩
  rw [CountedQueue.dequeueRR, if_neg htotal, h.nextClass_eq]
  cases hnext : Q.toBEgressQueue.nextClass paused with
  | none =>
    rw [BEgressQueue.nextClass] at hnext
    split_ifs at hnext with h₀
    refine .inl ⟨rfl, not_not.1 h₀, fun q _ hq hpaused => ?_⟩
    have hmem : q ∈ (List.range' 1 qCnt).map fun i => (i + Q.rrlast) % qCnt := by
      rw [round_eq, List.mem_rotate]
      exact List.mem_range.2 hq
    simpa [hpaused] using List.find?_eq_none.1 hnext q hmem
  | some q =>
    have hne : Q.held q ≠ [] := by
      rw [BEgressQueue.nextClass] at hnext
      split_ifs at hnext with h₀
      · cases hnext
        exact h₀
      · have hfound := List.find?_some hnext
        simp only [Bool.and_eq_true] at hfound
        simpa using hfound.2
    obtain ⟨p, rest, hheld⟩ := List.exists_cons_of_ne_nil hne
    obtain ⟨Q', hserve, hrest⟩ := h.serve (BEgressQueue.nextClass_eq_some hnext).1 hheld
    refine .inr ⟨q, p, rest, Q', rfl, hheld, ?_, hrest⟩
    simp only [hserve, Option.map_some]

/-- The counters of `Queue` do not matter for what `DequeueRR` returns. -/
theorem dequeueRR_toBEgressQueue (paused : ℕ → Bool) :
    ∃ r Q', Q.dequeueRR paused = some (r, Q') ∧
      Q.toBEgressQueue.dequeueRR paused = r.map fun p => (p, Q'.toBEgressQueue) := by
  by_cases htotal : Q.bytesInQueueTotal = 0
  · exact ⟨none, Q, if_pos htotal, if_pos htotal⟩
  rcases h.dequeueRR_cases paused with
    ⟨hdeq, -⟩ | ⟨q, p, rest, Q', hnext, hheld, hdeq, -⟩
  · refine ⟨none, Q, hdeq, ?_⟩
    rw [CountedQueue.dequeueRR, if_neg htotal, h.nextClass_eq] at hdeq
    rw [BEgressQueue.dequeueRR, if_neg htotal]
    cases hnext : Q.toBEgressQueue.nextClass paused with
    | none => rfl
    | some q => simp [hnext] at hdeq
  · refine ⟨some p, Q', hdeq, ?_⟩
    rw [CountedQueue.dequeueRR, if_neg htotal, h.nextClass_eq, hnext] at hdeq
    simp only [CountedQueue.serve, Option.bind_eq_bind, Option.map_bind, Option.bind_eq_some_iff,
      Function.comp_apply] at hdeq
    obtain ⟨⟨p', D⟩, hD, inner, -, counters, -, hQ'⟩ := hdeq
    cases hQ'
    rw [BEgressQueue.dequeueRR, if_neg htotal, hnext, Option.bind_some, hD]
    rfl

theorem serves (paused : ℕ → Bool) : Serves Q paused := by
  rcases h.dequeueRR_cases paused with
    ⟨hdeq, hempty⟩ | ⟨q, p, rest, Q', hnext, hheld, hdeq, -, hqlast, -, hheld'⟩
  · exact ⟨none, Q, hdeq, by simpa using hempty, fun _ => rfl, fun p hp => by cases hp⟩
  · obtain ⟨hlt, hzero, hpaused⟩ := BEgressQueue.nextClass_eq_some hnext
    refine ⟨some p, Q', hdeq, ⟨fun hnone => (by cases hnone), fun hempty => ?_⟩,
      fun hnone => (by cases hnone), fun r hr => ?_⟩
    · by_cases hq : q = 0
      · rw [hq, hempty.1] at hheld
        cases hheld
      · rw [hempty.2 q (by omega) hlt (hpaused hq)] at hheld
        cases hheld
    · cases hr
      rw [hqlast]
      refine ⟨hlt, hzero, hpaused, ?_, fun q' hne => ?_⟩
      · rw [hheld', Function.update_self, hheld]
      · rw [hheld', Function.update_of_ne hne]

end Counted

/-! ### Runs -/

variable {S S' : Logged} {call : Call}

theorem counted_start {maxBytes : ℕ} {limit : UInt32} (hlimit : maxBytes ≤ limit.toNat) :
    Counted (start maxBytes limit).toCountedQueue where
  classes _ := ⟨rfl, hlimit, rfl, rfl, rfl, rfl, fun _ hp => by cases hp⟩
  total := rfl
  nBytes := rfl
  nPackets := rfl

/-- A call does not fail, and keeps the counters and the order. -/
theorem Counted.step (h : Counted S.toCountedQueue) (hfit : Fits S call) :
    ∃ S', step S call = some S' ∧ Counted S'.toCountedQueue ∧ (Fifo S → Fifo S') := by
  cases call with
  | enqueue p q =>
    obtain ⟨hq, hp, hbytes⟩ := hfit
    refine ⟨_, rfl, h.enqueue hq hp hbytes, fun hfifo q' => ?_⟩
    have hheld := h.held_enqueue hq hbytes
    dsimp only
    rw [hheld, List.filterMap_append, List.filterMap_append, hfifo q']
    rw [enqueue_fst]
    by_cases hroom : S.hasRoom p = true
    · by_cases hq' : q = q'
      · subst hq'
        simp [hroom, List.filterMap_cons, Outcome.acceptedIn, Outcome.servedIn]
      · simp [hroom, List.filterMap_cons, Outcome.acceptedIn, Outcome.servedIn, hq', Ne.symm hq']
    · simp [hroom, List.filterMap_cons, Outcome.acceptedIn, Outcome.servedIn]
  | dequeueRR paused =>
    rcases h.dequeueRR_cases paused with
      ⟨hdeq, -⟩ | ⟨q, p, rest, Q', -, hheld, hdeq, hcounted, hqlast, -, hheld'⟩
    · refine ⟨{ S with trace := S.trace ++ [.idle] },
        by simp only [CountedQueue.step, hdeq, Option.map_some, Option.elim_none], h,
        fun hfifo q' => ?_⟩
      simpa [List.filterMap_cons, Outcome.acceptedIn, Outcome.servedIn] using hfifo q'
    · refine ⟨{ toCountedQueue := Q', trace := S.trace ++ [.served Q'.qlast p] },
        by simp only [CountedQueue.step, hdeq, Option.map_some, Option.elim_some], hcounted,
        fun hfifo q' => ?_⟩
      dsimp only
      rw [List.filterMap_append, List.filterMap_append, hfifo q', hheld', hqlast]
      by_cases hq' : q = q'
      · subst hq'
        simp [List.filterMap_cons, Outcome.acceptedIn, Outcome.servedIn, hheld]
      · simp [List.filterMap_cons, Outcome.acceptedIn, Outcome.servedIn, hq', Ne.symm hq']

open RoundRobin in
/-- **A turn.** While the class `c` waits, a call that serves another class serves one that is in
front of it. -/
theorem Counted.passed_step (h : Counted S.toCountedQueue) (hc : c ≠ 0) (hlt : c < qCnt)
    (hwait : Waits c S call) (hstep : CountedQueue.step S call = some S') :
    ∃ o, S'.trace = S.trace ++ [o] ∧ (o.turn ≠ some c → ∀ served,
      Passed ((List.range qCnt).rotate (S.rrlast + 1)) c served →
        Passed ((List.range qCnt).rotate (S'.rrlast + 1)) c (o.turn.toList ++ served)) := by
  cases call with
  | enqueue p q =>
    cases hstep
    have hrrlast : (S.enqueue p q).2.rrlast = S.rrlast := by
      rw [CountedQueue.enqueue, BEgressQueue.enqueue]
      cases S.hasRoom p <;> rfl
    refine ⟨_, rfl, fun _ served hpassed => ?_⟩
    dsimp only
    rw [hrrlast]
    cases (S.enqueue p q).1 <;> exact hpassed
  | dequeueRR paused =>
    obtain ⟨hheld, hpaused⟩ := hwait
    rcases h.dequeueRR_cases paused with
      ⟨hdeq, -, hempty⟩ | ⟨q, p, rest, Q', hnext, -, hdeq, -, hqlast, hrrlast, -⟩
    · exact absurd (hempty c (by omega) hlt hpaused) hheld
    · simp only [CountedQueue.step, hdeq, Option.map_some, Option.some.injEq] at hstep
      subst hstep
      refine ⟨_, rfl, fun hturn served hpassed => ?_⟩
      simp only [Option.elim_some, Outcome.turn, hqlast, hrrlast] at hturn ⊢
      by_cases hq : q = 0
      · simpa [hq] using hpassed
      · rw [if_neg hq, ne_eq, Option.some.injEq] at hturn
        rw [if_neg hq, if_pos hq]
        obtain ⟨hqlt, hzero, -⟩ := BEgressQueue.nextClass_eq_some hnext
        have h₀ : S.held 0 = [] := not_not.1 fun hne => hq (hzero hne)
        rw [BEgressQueue.nextClass, if_neg (not_not.2 h₀), round_eq] at hnext
        obtain ⟨-, A, B, hsplit, hA⟩ := List.find?_eq_some_iff_append.1 hnext
        have hnodup : ((List.range qCnt).rotate (S.rrlast + 1)).Nodup :=
          List.nodup_rotate.2 List.nodup_range
        -- the class `c` may be served, so it has not been passed over
        have hmem : c ∈ A ++ q :: B := by
          rw [← hsplit, List.mem_rotate]
          exact List.mem_range.2 hlt
        have hB : c ∈ B := by
          rcases List.mem_append.1 hmem with hcA | hcB
          · have := hA c hcA
            simp [hpaused, hheld] at this
          · exact (List.mem_cons.1 hcB).resolve_left (Ne.symm hturn)
        rw [rotate_succ_of_split List.nodup_range hsplit (by simp [hqlt])]
        exact hpassed.serve hnodup hsplit hB

open RoundRobin in
/-- The invariant while `c` waits, in the state `S` reached from `S₀`: until `c` is served, the
classes served since then have had their turn. -/
structure PassedSince (S₀ : Logged) (c : ℕ) (S : Logged) : Prop where
  counted : Counted S.toCountedQueue
  later : ∃ later, S.trace = S₀.trace ++ later ∧ (c ∉ later.filterMap Outcome.turn →
    Passed ((List.range qCnt).rotate (S.rrlast + 1)) c (later.filterMap Outcome.turn).reverse)

theorem PassedSince.step {S₀ : Logged} (h : PassedSince S₀ c S) (hc : c ≠ 0) (hlt : c < qCnt)
    (hfit : Fits S call) (hwait : Waits c S call) (hstep : CountedQueue.step S call = some S') :
    PassedSince S₀ c S' := by
  obtain ⟨hcounted, later, htrace, hpassed⟩ := h
  obtain ⟨S'', hS'', hcounted', -⟩ := hcounted.step hfit
  cases hS''.symm.trans hstep
  obtain ⟨o, ho, hturn⟩ := hcounted.passed_step hc hlt hwait hstep
  refine ⟨hcounted', later ++ [o], by rw [ho, htrace, List.append_assoc], fun hnot => ?_⟩
  have hlast : [o].filterMap Outcome.turn = o.turn.toList := by
    cases hturn : o.turn <;> simp [hturn]
  rw [List.filterMap_append, hlast, List.mem_append, not_or] at hnot
  have hnext := hturn (fun heq => hnot.2 (by rw [heq]; exact List.mem_singleton_self c)) _
    (hpassed hnot.1)
  rw [List.filterMap_append, List.reverse_append, hlast]
  cases ho : o.turn <;> simpa [ho] using hnext

/-- The classes served while `c` waits are in front of it when they are. -/
theorem passedSince_of_along {S₀ : Logged} (h : Counted S₀.toCountedQueue) (hc : c ≠ 0)
    (hlt : c < qCnt) {calls : List Call}
    (halong : Run.Along step (fun S call => Fits S call ∧ Waits c S call) S₀ calls)
    (hexec : Run.exec step S₀ calls = some S) : PassedSince S₀ c S :=
  Run.exec_induction (fun _ _ _ hI hcall hstep => hI.step hc hlt hcall.1 hcall.2 hstep)
    ⟨h, [], (List.append_nil _).symm, fun _ => .nil _ c⟩ halong hexec

/-- **Conservation and fairness.** In every run of calls that fit, the byte counts agree with each
other and with the packets held; a refused packet changes nothing; the packets of a class leave in
order; `DequeueRR` serves as it should; and while a class other than `0` waits, each other one is
served at most once. -/
theorem conserves_and_fair {maxBytes : ℕ} {limit : UInt32} (hlimit : maxBytes ≤ limit.toNat)
    {calls : List Call} (hfit : Run.Along step Fits (start maxBytes limit) calls) :
    ∃ S, Run.exec step (start maxBytes limit) calls = some S ∧
      Conserved S.toCountedQueue ∧ Fifo S ∧
      (∀ p q, (S.enqueue p q).1 = false → (S.enqueue p q).2 = S.toCountedQueue) ∧
      (∀ paused, Serves S.toCountedQueue paused) ∧
      ∀ c, 1 ≤ c → c < qCnt → ∀ more T,
        Run.Along step (fun S call => Fits S call ∧ Waits c S call) S more →
        Run.exec step S more = some T →
          ∃ later, T.trace = S.trace ++ later ∧ (c ∉ later.filterMap Outcome.turn →
            ∀ d, (later.filterMap Outcome.turn).count d ≤ 1) := by
  obtain ⟨S, hexec, hcounted, hfifo⟩ := Run.exists_exec
    (I := fun S : Logged => Counted S.toCountedQueue ∧ Fifo S)
    (fun S call hI hcall => by
      obtain ⟨S', hS', hcounted, hfifo⟩ := hI.1.step hcall
      exact ⟨S', hS', hcounted, hfifo hI.2⟩)
    ⟨counted_start hlimit, fun _ => rfl⟩ hfit
  refine ⟨S, hexec, hcounted.conserved, hfifo, fun _ _ hrefused => enqueue_snd_of_refused hrefused,
    hcounted.serves, fun c hc hlt more T halong hmore => ?_⟩
  obtain ⟨later, htrace, hpassed⟩ :=
    (passedSince_of_along hcounted (by omega) hlt halong hmore).later
  refine ⟨later, htrace, fun hnot d => ?_⟩
  rw [← List.count_reverse]
  exact List.nodup_iff_count_le_one.1 (hpassed hnot).nodup d

/-- Packets of two classes take turns, with a pause in between. -/
theorem conserves_and_fair_two_classes :
    ∃ S, Run.exec step (start (1000 * 1024 * 1024) (30000 * 65535))
        [.enqueue ⟨1000, 0, none⟩ 1, .enqueue ⟨1000, 1, none⟩ 1, .enqueue ⟨500, 2, none⟩ 3,
          .dequeueRR fun _ => false, .dequeueRR fun q => q == 3, .dequeueRR fun _ => false] =
        some S ∧
      Conserved S.toCountedQueue ∧ Fifo S ∧
      (∀ p q, (S.enqueue p q).1 = false → (S.enqueue p q).2 = S.toCountedQueue) ∧
      (∀ paused, Serves S.toCountedQueue paused) ∧
      ∀ c, 1 ≤ c → c < qCnt → ∀ more T,
        Run.Along step (fun S call => Fits S call ∧ Waits c S call) S more →
        Run.exec step S more = some T →
          ∃ later, T.trace = S.trace ++ later ∧ (c ∉ later.filterMap Outcome.turn →
            ∀ d, (later.filterMap Outcome.turn).count d ≤ 1) :=
  conserves_and_fair (by decide) (by decide +kernel)

/-- A packet without bytes is held, but `DequeueRR` does not see it. A packet of almost `2 ^ 32`
bytes makes the byte count wrap, so that both levels accept it, and the count is not that of the
packets held. -/
theorem not_serves_and_not_conserved :
    (∃ S, Run.exec step (start (1000 * 1024 * 1024) (30000 * 65535))
        [.enqueue ⟨0, 0, none⟩ 1] = some S ∧ ¬ Serves S.toCountedQueue fun _ => false) ∧
    ∃ S, Run.exec step (start (1000 * 1024 * 1024) (30000 * 65535))
        [.enqueue ⟨1000, 0, none⟩ 1, .enqueue ⟨4294967000, 0, none⟩ 1] = some S ∧
      ¬ Conserved S.toCountedQueue := by
  refine ⟨⟨_, rfl, ?_⟩, ⟨_, rfl, fun hcons => ?_⟩⟩
  · rintro ⟨r, Q', hdeq, hnone, -⟩
    have hr : r = none := by
      cases hdeq
      rfl
    have hheld := (hnone.1 hr).2 1 (by decide) (by decide) rfl
    cases hheld
  · have htotal := hcons.total
    revert htotal
    decide +kernel

end CountedQueue

end HpccSim
