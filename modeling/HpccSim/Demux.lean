import HpccSim.Host
import HpccSim.Lib.BitField

/-!
# Which queue pair a packet belongs to

A host keeps its queue pairs in `m_qpMap` and the state of the flows it receives in `m_rxQpMap`
(`rdma-hw.cc`). Both maps go from 64-bit keys that are packed from addresses, ports and priority
groups, and a flow is looked up by four of them: by the sender when it adds the queue pair, by the
receiver for each data packet, by the sender for each reply, and by `qp_finish` (`third.cc`), which
deletes the state of the receiver when the queue pair completes. `qp_finish` finds the receiver by
turning the address of the destination back into the number of a node.

Queue pairs are numbered in the order of `AddQueuePair`, receiving queue pairs in the order of their
creation. A log says which receiving queue pair each data packet has reached.

## Main definitions

* `nodeIdToIp`, `ipToNodeId`, `rxQpKey`: the addresses of the nodes, and the key of a receiver.
* `Demux`, `Demux.step`: queue pairs are added, data packets arrive, queue pairs complete.
* `Demux.Exact`, `Demux.CompletesExactly`: what it means that packets find their queue pairs.

## Main results

* `ipToNodeId_nodeIdToIp`: a node is found again up to its upper 16 bits.
* `Demux.demux_exact`: demultiplexing is exact as long as `QpComplete` is called for queue pairs
  whose destinations have numbers below `65536`, and not for a finished queue pair that shares its
  triple with a live one.
-/

namespace HpccSim

/-- `node_id_to_ip`. -/
def nodeIdToIp (id : UInt32) : UInt32 :=
  0x0b000001 + (id / 256) * 0x00010000 + (id % 256) * 0x00000100

/-- `ip_to_node_id`. -/
def ipToNodeId (ip : UInt32) : UInt32 := (ip >>> 8) &&& 0xffff

/-- The key in `m_rxQpMap` that `GetRxQp` and `DeleteRxQp` compute. -/
def rxQpKey (dip : UInt32) (pg dport : UInt16) : UInt64 :=
  (dip.toUInt64 <<< 32) ||| (pg.toUInt64 <<< 16) ||| dport.toUInt64

/-! ### Keys and addresses -/

/-- The keys are packed from their parts. -/
theorem toNat_getQpKey (dip : UInt32) (sport pg : UInt16) :
    (getQpKey dip sport pg).toNat =
      BitField.pack [16, 16, 32] [pg.toNat, sport.toNat, dip.toNat] := by
  have hpg := pg.toNat_lt
  have hsport := sport.toNat_lt
  have hdip := dip.toNat_lt
  have hlow : sport.toNat <<< 16 ||| pg.toNat = pg.toNat + 2 ^ 16 * sport.toNat :=
    BitField.or_shiftLeft _ hpg
  have hhigh : dip.toNat <<< 32 ||| (pg.toNat + 2 ^ 16 * sport.toNat) =
      pg.toNat + 2 ^ 16 * sport.toNat + 2 ^ 32 * dip.toNat :=
    BitField.or_shiftLeft _ (by omega)
  have hsport' : sport.toNat <<< 16 % 2 ^ 64 = sport.toNat <<< 16 := by
    rw [Nat.shiftLeft_eq]
    omega
  have hdip' : dip.toNat <<< 32 % 2 ^ 64 = dip.toNat <<< 32 := by
    rw [Nat.shiftLeft_eq]
    omega
  have hor : (getQpKey dip sport pg).toNat =
      (dip.toNat <<< 32 % 2 ^ 64) ||| (sport.toNat <<< 16 % 2 ^ 64) ||| pg.toNat := by
    simp [getQpKey, UInt64.toNat_or, UInt64.toNat_shiftLeft]
  rw [hor, hsport', hdip', Nat.or_assoc, hlow, hhigh]
  simp only [BitField.pack]
  omega

/-- **The key of a sender determines its parts.** -/
theorem getQpKey_inj {dip dip' : UInt32} {sport sport' pg pg' : UInt16} :
    getQpKey dip sport pg = getQpKey dip' sport' pg' ↔ dip = dip' ∧ sport = sport' ∧ pg = pg' := by
  have hfits : ∀ (dip : UInt32) (sport pg : UInt16),
      BitField.Fits [16, 16, 32] [pg.toNat, sport.toNat, dip.toNat] := fun dip sport pg =>
    .cons pg.toNat_lt (.cons sport.toNat_lt (.cons dip.toNat_lt .nil))
  rw [← UInt64.toNat_inj, toNat_getQpKey, toNat_getQpKey, BitField.pack_inj (hfits _ _ _)
    (hfits _ _ _)]
  simp only [List.cons.injEq, and_true, UInt16.toNat_inj, UInt32.toNat_inj]
  constructor
  · rintro ⟨hpg, hsport, hdip⟩
    exact ⟨hdip, hsport, hpg⟩
  · rintro ⟨hdip, hsport, hpg⟩
    exact ⟨hpg, hsport, hdip⟩

/-- The receiver packs the source address, the priority group and the source port, in the order of
the sender. -/
theorem rxQpKey_eq (dip : UInt32) (pg dport : UInt16) :
    rxQpKey dip pg dport = getQpKey dip pg dport :=
  rfl

/-- **`ip_to_node_id` finds a node again** up to its upper 16 bits. -/
theorem ipToNodeId_nodeIdToIp (id : UInt32) : ipToNodeId (nodeIdToIp id) = id % 65536 := by
  have hmask : ∀ n : ℕ, n &&& 65535 = n % 65536 := fun n => Nat.and_two_pow_sub_one_eq_mod n 16
  have hip : (nodeIdToIp id).toNat =
      (0x0b000001 + id.toNat / 256 * 65536 + id.toNat % 256 * 256) % 2 ^ 32 := by
    simp [nodeIdToIp]
  rw [← UInt32.toNat_inj, ipToNodeId, UInt32.toNat_and, UInt32.toNat_shiftRight, hip,
    UInt32.toNat_mod]
  have hsixteen : (0xffff : UInt32).toNat = 65535 := rfl
  have height : (8 : UInt32).toNat % 32 = 8 := rfl
  have hmod : (65536 : UInt32).toNat = 65536 := rfl
  rw [hsixteen, height, hmod, hmask, Nat.shiftRight_eq_div_pow]
  omega

theorem ipToNodeId_nodeIdToIp_iff {id : UInt32} :
    ipToNodeId (nodeIdToIp id) = id ↔ id < 65536 := by
  have hmod : (65536 : UInt32).toNat = 65536 := rfl
  rw [ipToNodeId_nodeIdToIp, ← UInt32.toNat_inj, UInt32.toNat_mod, UInt32.lt_iff_toNat_lt, hmod]
  omega

/-! ### Headers -/

/-- The addresses of a packet, as `CustomHeader` has them. -/
structure PacketAddrs where
  sip : UInt32
  dip : UInt32
  sport : UInt16
  dport : UInt16
  pg : UInt16
  deriving DecidableEq

/-- The addresses of a data packet of a queue pair, from `GetNxtPacket`. -/
def Flow.dataAddrs (f : Flow) : PacketAddrs where
  sip := f.sip
  dip := f.dip
  sport := f.sport
  dport := f.dport
  pg := f.pg

/-- The addresses of the reply to a packet, from `ReceiveUdp`. -/
def PacketAddrs.reply (ch : PacketAddrs) : PacketAddrs where
  sip := ch.dip
  dip := ch.sip
  sport := ch.dport
  dport := ch.sport
  pg := ch.pg

/-! ### The maps of a host -/

/-- `RdmaRxQueuePair`, as `GetRxQp` makes it; `uid` tells it from all others. -/
structure RxQp where
  uid : ℕ
  sip : UInt32
  dip : UInt32
  sport : UInt16
  dport : UInt16
  qIndex : UInt16
  deriving DecidableEq

/-- The two maps of `RdmaHw`. Queue pairs are represented by their numbers. -/
structure QpMaps where
  qpMap : UInt64 → Option ℕ
  rxQpMap : UInt64 → Option RxQp

namespace QpMaps

variable (m : QpMaps)

/-- The end of `RdmaHw::AddQueuePair`: `m_qpMap[key] = qp`. -/
def addQueuePair (f : Flow) (id : ℕ) : QpMaps :=
  { m with qpMap := Function.update m.qpMap (getQpKey f.dip f.sport f.pg) (some id) }

/-- `RdmaHw::DeleteQueuePair`. -/
def deleteQueuePair (f : Flow) : QpMaps :=
  { m with qpMap := Function.update m.qpMap (getQpKey f.dip f.sport f.pg) none }

/-- `RdmaHw::GetQp`. -/
def getQp (dip : UInt32) (sport pg : UInt16) : Option ℕ := m.qpMap (getQpKey dip sport pg)

/-- `RdmaHw::GetRxQp`; a receiving queue pair that is created gets the number `uid`. -/
def getRxQp (sip dip : UInt32) (sport dport pg : UInt16) (create : Bool) (uid : ℕ) :
    Option RxQp × QpMaps :=
  match m.rxQpMap (rxQpKey dip pg dport) with
  | some q => (some q, m)
  | none =>
    if create then
      let q := { uid := uid, sip := sip, dip := dip, sport := sport, dport := dport, qIndex := pg }
      (some q, { m with rxQpMap := Function.update m.rxQpMap (rxQpKey dip pg dport) (some q) })
    else
      (none, m)

/-- `RdmaHw::DeleteRxQp`. -/
def deleteRxQp (dip : UInt32) (pg dport : UInt16) : QpMaps :=
  { m with rxQpMap := Function.update m.rxQpMap (rxQpKey dip pg dport) none }

/-- The receiving queue pair that `ReceiveUdp` takes for a data packet. -/
def receiveUdp (ch : PacketAddrs) (uid : ℕ) : Option RxQp × QpMaps :=
  m.getRxQp ch.dip ch.sip ch.dport ch.sport ch.pg true uid

/-- The queue pair that `ReceiveAck` finds for a reply. -/
def receiveAck (ch : PacketAddrs) : Option ℕ := m.getQp ch.sip ch.dport ch.pg

end QpMaps

/-- A queue pair and the nodes it goes from and to. -/
structure Sender where
  src : UInt32
  dst : UInt32
  flow : Flow

/-- A data packet of the queue pair `id` has reached the receiving queue pair `uid`. -/
structure Arrival where
  id : ℕ
  uid : ℕ

/-- The hosts of a network and the queue pairs between them. -/
structure Demux where
  /-- The number of queue pairs added so far. -/
  created : ℕ
  qps : ℕ → Sender
  /-- The queue pairs that have not completed. -/
  live : List ℕ
  maps : UInt32 → QpMaps
  /-- The number of the next receiving queue pair. -/
  nRx : ℕ
  arrivals : List Arrival

namespace Demux

/-- No queue pairs yet. -/
def init : Demux where
  created := 0
  qps _ := ⟨0, 0, { size := 0, pg := 0, sip := 0, dip := 0, sport := 0, dport := 0, win := 0 }⟩
  live := []
  maps _ := ⟨fun _ => none, fun _ => none⟩
  nRx := 0
  arrivals := []

variable (hosts : UInt32 → Bool) (s : Demux)

/-- Replace the maps of a node. -/
def setMaps (node : UInt32) (m : QpMaps) : Demux :=
  { s with maps := Function.update s.maps node m }

/-- Two queue pairs of one host have the same destination address, source port and priority
group. -/
def sameTriple (p q : Sender) : Bool :=
  p.src = q.src ∧ p.flow.dip = q.flow.dip ∧ p.flow.sport = q.flow.sport ∧ p.flow.pg = q.flow.pg

/-- What happens to queue pairs. -/
inductive Op where
  | addQueuePair (p : Sender)
  /-- A data packet of a queue pair, live or not, arrives at its destination. -/
  | dataArrives (id : ℕ)
  /-- `QpComplete` is called for a queue pair, live or not: the event that `AddQueuePair` schedules
  at `endTime` is never cancelled, so it also completes a queue pair that has finished before. -/
  | complete (id : ℕ)

/-- `RdmaHw::AddQueuePair`, between two hosts, for a triple that no live queue pair of the host
has. -/
def addQueuePair (p : Sender) : Option Demux :=
  if hosts p.src ∧ hosts p.dst ∧ p.flow.sip = nodeIdToIp p.src ∧ p.flow.dip = nodeIdToIp p.dst ∧
      ∀ id ∈ s.live, sameTriple (s.qps id) p = false then
    some <| { s with
      created := s.created + 1
      qps := Function.update s.qps s.created p
      live := s.created :: s.live }.setMaps p.src
        ((s.maps p.src).addQueuePair p.flow s.created)
  else
    none

/-- `RdmaHw::ReceiveUdp` at the destination of the queue pair `id`. -/
def dataArrives (id : ℕ) : Option Demux :=
  if id < s.created then
    let p := s.qps id
    let r := (s.maps p.dst).receiveUdp p.flow.dataAddrs s.nRx
    r.1.map fun q =>
      { s with nRx := s.nRx + 1, arrivals := ⟨id, q.uid⟩ :: s.arrivals }.setMaps p.dst r.2
  else
    none

/-- The part of `qp_finish` that has the receiver forget a queue pair; a node that is not a host has
no `RdmaDriver` to call. -/
def qpFinish (f : Flow) : Option Demux :=
  let did := ipToNodeId f.dip
  if hosts did then
    some (s.setMaps did ((s.maps did).deleteRxQp f.sip f.pg f.sport))
  else
    none

/-- `RdmaHw::QpComplete`. -/
def qpComplete (id : ℕ) : Option Demux :=
  if id < s.created then
    let p := s.qps id
    (s.qpFinish hosts p.flow).map fun s =>
      { s with live := s.live.filter (· != id) }.setMaps p.src
        ((s.maps p.src).deleteQueuePair p.flow)
  else
    none

/-- One event. -/
def step (s : Demux) : Op → Option Demux
  | .addQueuePair p => s.addQueuePair hosts p
  | .dataArrives id => s.dataArrives id
  | .complete id => s.qpComplete hosts id

/-! ### Exactness -/

/-- The entry of the destination of a queue pair for its data packets. -/
def rxQpOf (id : ℕ) : Option RxQp :=
  let p := s.qps id
  (s.maps p.dst).rxQpMap (rxQpKey p.flow.sip p.flow.pg p.flow.sport)

/-- The packets of the live queue pairs find their queue pairs, at both ends. -/
structure Exact : Prop where
  /-- Two data packets reach the same receiving queue pair exactly if they belong to the same queue
  pair. -/
  data : ∀ e ∈ s.arrivals, ∀ e' ∈ s.arrivals, e.id ∈ s.live → e'.id ∈ s.live →
    (e.uid = e'.uid ↔ e.id = e'.id)
  /-- It is the one that the destination has for the queue pair. -/
  rxQp : ∀ e ∈ s.arrivals, e.id ∈ s.live → (s.rxQpOf e.id).map RxQp.uid = some e.uid
  /-- The reply to a data packet is looked up to the queue pair of the packet. -/
  reply : ∀ id ∈ s.live,
    (s.maps (s.qps id).src).receiveAck (s.qps id).flow.dataAddrs.reply = some id

/-- When the queue pair `id` completes, its destination forgets its receiving queue pair, and no
other is forgotten. -/
def CompletesExactly (id : ℕ) : Prop :=
  ∃ t, s.step hosts (.complete id) = some t ∧ ∀ node key,
    (t.maps node).rxQpMap key =
      if node = (s.qps id).dst ∧
          key = rxQpKey (s.qps id).flow.sip (s.qps id).flow.pg (s.qps id).flow.sport then
        none
      else
        (s.maps node).rxQpMap key

/-- The queue pair that completes has a destination whose number `ip_to_node_id` recovers, and if it
has completed before, its triple has not been taken by a live queue pair since. -/
def Op.Near (s : Demux) : Op → Prop
  | .complete id => (s.qps id).dst < 65536 ∧
      (id ∈ s.live ∨ ∀ id' ∈ s.live, sameTriple (s.qps id) (s.qps id') = false)
  | .addQueuePair _ => True
  | .dataArrives _ => True

instance (s : Demux) : DecidablePred (Op.Near s)
  | .complete id => inferInstanceAs (Decidable ((s.qps id).dst < 65536 ∧
      (id ∈ s.live ∨ ∀ id' ∈ s.live, sameTriple (s.qps id) (s.qps id') = false)))
  | .addQueuePair _ => .isTrue trivial
  | .dataArrives _ => .isTrue trivial

/-! ### What keeps the maps exact -/

/-- What every run maintains. -/
structure Inv : Prop where
  live_lt : ∀ id ∈ s.live, id < s.created
  arrived_lt : ∀ e ∈ s.arrivals, e.id < s.created
  nodes : ∀ id < s.created, hosts (s.qps id).src = true ∧ hosts (s.qps id).dst = true ∧
    (s.qps id).flow.sip = nodeIdToIp (s.qps id).src ∧
    (s.qps id).flow.dip = nodeIdToIp (s.qps id).dst
  distinct : ∀ id ∈ s.live, ∀ id' ∈ s.live, sameTriple (s.qps id) (s.qps id') = true → id = id'
  qpMap : ∀ id ∈ s.live,
    (s.maps (s.qps id).src).receiveAck (s.qps id).flow.dataAddrs.reply = some id
  uid_lt : ∀ node key q, (s.maps node).rxQpMap key = some q → q.uid < s.nRx
  uid_inj : ∀ node key q node' key' q', (s.maps node).rxQpMap key = some q →
    (s.maps node').rxQpMap key' = some q' → q.uid = q'.uid → node = node' ∧ key = key'
  rxQp : ∀ e ∈ s.arrivals, e.id ∈ s.live → (s.rxQpOf e.id).map RxQp.uid = some e.uid

variable {hosts s} {t : Demux}

theorem inv_init (hosts : UInt32 → Bool) : Inv hosts init where
  live_lt _ h := absurd h List.not_mem_nil
  arrived_lt _ h := absurd h List.not_mem_nil
  nodes _ h := absurd h (Nat.not_lt_zero _)
  distinct _ h := absurd h List.not_mem_nil
  qpMap _ h := absurd h List.not_mem_nil
  uid_lt _ _ _ h := nomatch h
  uid_inj _ _ _ _ _ _ h := nomatch h
  rxQp _ h := absurd h List.not_mem_nil

/-- The lookup of a reply when a queue pair has been added. -/
theorem receiveAck_addQueuePair (m : QpMaps) (f g : Flow) (id : ℕ) :
    (m.addQueuePair f id).receiveAck g.dataAddrs.reply =
      if getQpKey g.dip g.sport g.pg = getQpKey f.dip f.sport f.pg then some id
      else m.receiveAck g.dataAddrs.reply := by
  simp only [QpMaps.receiveAck, QpMaps.getQp, QpMaps.addQueuePair, PacketAddrs.reply,
    Flow.dataAddrs, Function.update_apply]

/-- The lookup of a reply when a queue pair has been deleted. -/
theorem receiveAck_deleteQueuePair (m : QpMaps) (f g : Flow) :
    (m.deleteQueuePair f).receiveAck g.dataAddrs.reply =
      if getQpKey g.dip g.sport g.pg = getQpKey f.dip f.sport f.pg then none
      else m.receiveAck g.dataAddrs.reply := by
  simp only [QpMaps.receiveAck, QpMaps.getQp, QpMaps.deleteQueuePair, PacketAddrs.reply,
    Flow.dataAddrs, Function.update_apply]

/-- Adding a queue pair leaves the receivers alone. -/
theorem rxQpMap_add (m : QpMaps) (f : Flow) (id : ℕ) : (m.addQueuePair f id).rxQpMap = m.rxQpMap :=
  rfl

theorem update_rxQpMap {maps : UInt32 → QpMaps} {n : UInt32} {m : QpMaps}
    (h : m.rxQpMap = (maps n).rxQpMap) (node : UInt32) :
    (Function.update maps n m node).rxQpMap = (maps node).rxQpMap := by
  by_cases hn : node = n
  · rw [hn, Function.update_self, h]
  · rw [Function.update_of_ne hn]

theorem rxQpOf_congr {id : ℕ} (hqp : t.qps id = s.qps id)
    (hmaps : ∀ node, (t.maps node).rxQpMap = (s.maps node).rxQpMap) :
    t.rxQpOf id = s.rxQpOf id := by
  rw [rxQpOf, rxQpOf, hqp, hmaps]

theorem update_receiveAck {maps : UInt32 → QpMaps} {n : UInt32} {m : QpMaps}
    (h : m.qpMap = (maps n).qpMap) (node : UInt32) (ch : PacketAddrs) :
    (Function.update maps n m node).receiveAck ch = (maps node).receiveAck ch := by
  by_cases hn : node = n
  · rw [hn, Function.update_self, QpMaps.receiveAck, QpMaps.getQp, h]
    rfl
  · rw [Function.update_of_ne hn]

section AddQueuePair

variable {p : Sender}

theorem addQueuePair_eq_some (h : s.addQueuePair hosts p = some t) :
    hosts p.src = true ∧ hosts p.dst = true ∧ p.flow.sip = nodeIdToIp p.src ∧
      p.flow.dip = nodeIdToIp p.dst ∧ (∀ id ∈ s.live, sameTriple (s.qps id) p = false) ∧
      t = { s with
        created := s.created + 1
        qps := Function.update s.qps s.created p
        live := s.created :: s.live
        maps := Function.update s.maps p.src ((s.maps p.src).addQueuePair p.flow s.created) } := by
  rw [addQueuePair] at h
  split_ifs at h with hguard
  obtain ⟨hsrc, hdst, hsip, hdip, hlive⟩ := hguard
  cases h
  exact ⟨hsrc, hdst, hsip, hdip, hlive, rfl⟩

/-- The keys of one host differ because the triples do, so the replies for the others are looked up
as before. -/
theorem Inv.receiveAck_add (h : Inv hosts s)
    (hfresh : ∀ id ∈ s.live, sameTriple (s.qps id) p = false) {id : ℕ} (hid : id ∈ s.live) :
    (Function.update s.maps p.src ((s.maps p.src).addQueuePair p.flow s.created)
      (s.qps id).src).receiveAck (s.qps id).flow.dataAddrs.reply = some id := by
  by_cases hnode : (s.qps id).src = p.src
  · rw [hnode, Function.update_self]
    have hkey : getQpKey (s.qps id).flow.dip (s.qps id).flow.sport (s.qps id).flow.pg ≠
        getQpKey p.flow.dip p.flow.sport p.flow.pg := by
      intro heq
      obtain ⟨hdip', hsport, hpg⟩ := getQpKey_inj.1 heq
      have := hfresh id hid
      simp [sameTriple, hnode, hdip', hsport, hpg] at this
    rw [receiveAck_addQueuePair, if_neg hkey, ← hnode]
    exact h.qpMap id hid
  · rw [Function.update_of_ne hnode]
    exact h.qpMap id hid

theorem Inv.addQueuePair (h : Inv hosts s) (ht : s.addQueuePair hosts p = some t) :
    Inv hosts t := by
  obtain ⟨hsrc, hdst, hsip, hdip, hfresh, rfl⟩ := addQueuePair_eq_some ht
  have hrx := update_rxQpMap (rxQpMap_add (s.maps p.src) p.flow s.created)
  have hold : ∀ id < s.created, Function.update s.qps s.created p id = s.qps id :=
    fun id hid => Function.update_of_ne (Nat.ne_of_lt hid) _ _
  refine
    { live_lt := ?_
      arrived_lt := ?_
      nodes := ?_
      distinct := ?_
      qpMap := ?_
      uid_lt := ?_
      uid_inj := ?_
      rxQp := ?_ }
  · rintro id hid
    rcases List.mem_cons.1 hid with rfl | hid
    · exact Nat.lt_succ_self _
    · exact Nat.lt_succ_of_lt (h.live_lt id hid)
  · exact fun e he => Nat.lt_succ_of_lt (h.arrived_lt e he)
  · rintro id hid
    rcases Nat.lt_succ_iff_lt_or_eq.1 hid with hlt | rfl
    · simp only [hold id hlt]
      exact h.nodes id hlt
    · simp only [Function.update_self]
      exact ⟨hsrc, hdst, hsip, hdip⟩
  · have hsymm : ∀ q : Sender, sameTriple p q = sameTriple q p := fun q => by
      simp [sameTriple, eq_comm]
    rintro id hid id' hid' hsame
    rcases List.mem_cons.1 hid with rfl | hid <;> rcases List.mem_cons.1 hid' with rfl | hid'
    · rfl
    · simp only [Function.update_self, hold id' (h.live_lt id' hid'), hsymm,
        hfresh id' hid'] at hsame
      cases hsame
    · simp only [Function.update_self, hold id (h.live_lt id hid), hfresh id hid] at hsame
      cases hsame
    · simp only [hold id (h.live_lt id hid), hold id' (h.live_lt id' hid')] at hsame
      exact h.distinct id hid id' hid' hsame
  · rintro id hid
    rcases List.mem_cons.1 hid with rfl | hid
    · simp only [Function.update_self, receiveAck_addQueuePair, if_true]
    · simp only [hold id (h.live_lt id hid)]
      exact h.receiveAck_add hfresh hid
  · intro node key q hq
    exact h.uid_lt node key q ((congrFun (hrx node) key).symm.trans hq)
  · intro node key q node' key' q' hq hq'
    exact h.uid_inj node key q node' key' q' ((congrFun (hrx node) key).symm.trans hq)
      ((congrFun (hrx node') key').symm.trans hq')
  · rintro e he hlive
    have hlt := h.arrived_lt e he
    have hin : e.id ∈ s.live := (List.mem_cons.1 hlive).resolve_left (Nat.ne_of_lt hlt)
    rw [rxQpOf_congr (hold e.id hlt) hrx]
    exact h.rxQp e he hin

end AddQueuePair

section DataArrives

variable {id : ℕ}

/-- A data packet reaches the receiving queue pair that the destination has, or else a new one. -/
theorem dataArrives_eq_some (h : s.dataArrives id = some t) : id < s.created ∧ ∃ q : RxQp,
    t.created = s.created ∧ t.qps = s.qps ∧ t.live = s.live ∧ t.nRx = s.nRx + 1 ∧
    t.arrivals = ⟨id, q.uid⟩ :: s.arrivals ∧
    (∀ node ch, (t.maps node).receiveAck ch = (s.maps node).receiveAck ch) ∧
    (s.rxQpOf id = some q ∧ t.maps = s.maps ∨
      s.rxQpOf id = none ∧ q.uid = s.nRx ∧ ∀ node key, (t.maps node).rxQpMap key =
        if node = (s.qps id).dst ∧
            key = rxQpKey (s.qps id).flow.sip (s.qps id).flow.pg (s.qps id).flow.sport then
          some q
        else
          (s.maps node).rxQpMap key) := by
  simp only [dataArrives] at h
  split_ifs at h with hlt
  refine ⟨hlt, ?_⟩
  simp only [QpMaps.receiveUdp, QpMaps.getRxQp, Flow.dataAddrs] at h
  split at h
  · next q hq =>
    cases h
    refine ⟨q, rfl, rfl, rfl, rfl, rfl, update_receiveAck rfl, .inl ⟨hq, ?_⟩⟩
    exact Function.update_eq_self _ _
  · next hnone =>
    rw [if_pos trivial] at h
    cases h
    refine ⟨_, rfl, rfl, rfl, rfl, rfl, update_receiveAck rfl,
      .inr ⟨hnone, rfl, fun node key => ?_⟩⟩
    simp only [setMaps]
    by_cases hnode : node = (s.qps id).dst
    · rw [hnode, Function.update_self]
      simp only [Function.update_apply, true_and]
    · rw [Function.update_of_ne hnode, if_neg fun hand => hnode hand.1]

section NewRxQp

variable {node₀ : UInt32} {key₀ : UInt64} {q : RxQp} (h : Inv hosts s) (huid : q.uid = s.nRx)
  (hmaps : ∀ node key, (t.maps node).rxQpMap key =
    if node = node₀ ∧ key = key₀ then some q else (s.maps node).rxQpMap key)

include h huid hmaps

theorem Inv.uid_lt_of_new {node : UInt32} {key : UInt64} {q' : RxQp}
    (hq' : (t.maps node).rxQpMap key = some q') : q'.uid < s.nRx + 1 := by
  rw [hmaps] at hq'
  split_ifs at hq'
  · cases hq'
    rw [huid]
    exact Nat.lt_succ_self _
  · exact Nat.lt_succ_of_lt (h.uid_lt node key q' hq')

/-- The number of a new receiving queue pair has not been used. -/
theorem Inv.uid_inj_of_new {node node' : UInt32} {key key' : UInt64} {q₁ q₂ : RxQp}
    (h₁ : (t.maps node).rxQpMap key = some q₁) (h₂ : (t.maps node').rxQpMap key' = some q₂)
    (huids : q₁.uid = q₂.uid) : node = node' ∧ key = key' := by
  rw [hmaps] at h₁ h₂
  split_ifs at h₁ h₂ with hat hat' hat'
  · exact ⟨hat.1.trans hat'.1.symm, hat.2.trans hat'.2.symm⟩
  · cases h₁
    have := h.uid_lt node' key' q₂ h₂
    omega
  · cases h₂
    have := h.uid_lt node key q₁ h₁
    omega
  · exact h.uid_inj node key q₁ node' key' q₂ h₁ h₂ huids

end NewRxQp

/-- The packets that have arrived, and one more, are at the receiving queue pairs that the
destinations have. -/
theorem Inv.rxQp_of_new {q : RxQp} (h : Inv hosts s) (hqps : t.qps = s.qps)
    (hmaps : s.rxQpOf id = some q ∧ t.maps = s.maps ∨
      s.rxQpOf id = none ∧ q.uid = s.nRx ∧ ∀ node key, (t.maps node).rxQpMap key =
        if node = (s.qps id).dst ∧
            key = rxQpKey (s.qps id).flow.sip (s.qps id).flow.pg (s.qps id).flow.sport then
          some q
        else
          (s.maps node).rxQpMap key) :
    ∀ e ∈ ⟨id, q.uid⟩ :: s.arrivals, e.id ∈ s.live → (t.rxQpOf e.id).map RxQp.uid = some e.uid := by
  rintro e he hin
  rcases hmaps with ⟨hq, heq⟩ | ⟨hnone, huid, heq⟩
  · rw [rxQpOf, hqps, heq]
    rcases List.mem_cons.1 he with rfl | he
    · exact congrArg (Option.map RxQp.uid) hq
    · exact h.rxQp e he hin
  · rw [rxQpOf, hqps, heq]
    rcases List.mem_cons.1 he with rfl | he
    · rw [if_pos ⟨rfl, rfl⟩]
      rfl
    · rw [if_neg]
      · exact h.rxQp e he hin
      · rintro ⟨hdst, hkey⟩
        have hsome := h.rxQp e he hin
        rw [rxQpOf, hdst, hkey, ← rxQpOf, hnone] at hsome
        cases hsome

theorem Inv.dataArrives (h : Inv hosts s) (ht : s.dataArrives id = some t) : Inv hosts t := by
  obtain ⟨hid, q, hcreated, hqps, hlive, hnRx, harr, hack, hmaps⟩ := dataArrives_eq_some ht
  refine
    { live_lt := ?_
      arrived_lt := ?_
      nodes := ?_
      distinct := ?_
      qpMap := ?_
      uid_lt := ?_
      uid_inj := ?_
      rxQp := ?_ }
  · rw [hcreated, hlive]
    exact h.live_lt
  · rw [hcreated, harr]
    rintro e he
    rcases List.mem_cons.1 he with rfl | he
    · exact hid
    · exact h.arrived_lt e he
  · rw [hcreated, hqps]
    exact h.nodes
  · rw [hlive, hqps]
    exact h.distinct
  · rw [hlive, hqps]
    rintro id' hid'
    rw [hack]
    exact h.qpMap id' hid'
  · rw [hnRx]
    rintro node key q' hq'
    rcases hmaps with ⟨-, heq⟩ | ⟨-, huid, heq⟩
    · rw [heq] at hq'
      exact Nat.lt_succ_of_lt (h.uid_lt node key q' hq')
    · exact h.uid_lt_of_new huid heq hq'
  · rintro node key q₁ node' key' q₂ h₁ h₂ huids
    rcases hmaps with ⟨-, heq⟩ | ⟨-, huid, heq⟩
    · rw [heq] at h₁ h₂
      exact h.uid_inj node key q₁ node' key' q₂ h₁ h₂ huids
    · exact h.uid_inj_of_new huid heq h₁ h₂ huids
  · rw [harr, hlive]
    exact h.rxQp_of_new hqps hmaps

end DataArrives

section Complete

variable {id : ℕ}

/-- What completion does if the node with the number `did` that `qp_finish` computes is a host. -/
theorem qpComplete_spec (hid : id < s.created) {did : UInt32}
    (hdid : ipToNodeId (s.qps id).flow.dip = did) (hhost : hosts did = true) :
    ∃ t, s.qpComplete hosts id = some t ∧ t.created = s.created ∧ t.qps = s.qps ∧
      t.live = s.live.filter (· != id) ∧ t.nRx = s.nRx ∧ t.arrivals = s.arrivals ∧
      (∀ node f, (t.maps node).receiveAck (Flow.dataAddrs f).reply =
        if node = (s.qps id).src ∧ getQpKey f.dip f.sport f.pg =
            getQpKey (s.qps id).flow.dip (s.qps id).flow.sport (s.qps id).flow.pg then
          none
        else
          (s.maps node).receiveAck (Flow.dataAddrs f).reply) ∧
      ∀ node key, (t.maps node).rxQpMap key =
        if node = did ∧
            key = rxQpKey (s.qps id).flow.sip (s.qps id).flow.pg (s.qps id).flow.sport then
          none
        else
          (s.maps node).rxQpMap key := by
  simp only [qpComplete, qpFinish, hid, hdid, hhost, if_true, Option.map_some]
  refine ⟨_, rfl, rfl, rfl, rfl, rfl, rfl, fun node f => ?_, fun node key => ?_⟩
  · simp only [setMaps]
    by_cases hnode : node = (s.qps id).src
    · rw [hnode, Function.update_self, receiveAck_deleteQueuePair, update_receiveAck]
      · simp only [true_and]
      · rfl
    · rw [Function.update_of_ne hnode, if_neg fun hand => hnode hand.1, update_receiveAck]
      rfl
  · simp only [setMaps]
    rw [update_rxQpMap (by rfl)]
    by_cases hnode : node = did
    · rw [hnode, Function.update_self]
      simp only [QpMaps.deleteRxQp, Function.update_apply, true_and]
    · rw [Function.update_of_ne hnode, if_neg fun hand => hnode hand.1]

theorem qpComplete_some (h : s.qpComplete hosts id = some t) :
    id < s.created ∧ hosts (ipToNodeId (s.qps id).flow.dip) = true := by
  simp only [qpComplete, qpFinish] at h
  split_ifs at h with hid hhost
  · exact ⟨hid, hhost⟩
  · cases h

/-- The key of a receiving queue pair and its node determine the triple of the queue pair. -/
theorem Inv.sameTriple_of_key (h : Inv hosts s)
    (hinj : ∀ a b, hosts a = true → hosts b = true → nodeIdToIp a = nodeIdToIp b → a = b)
    {id' : ℕ} (hid : id < s.created) (hid' : id' < s.created)
    (hdst : (s.qps id).dst = (s.qps id').dst)
    (hkey : rxQpKey (s.qps id).flow.sip (s.qps id).flow.pg (s.qps id).flow.sport =
      rxQpKey (s.qps id').flow.sip (s.qps id').flow.pg (s.qps id').flow.sport) :
    sameTriple (s.qps id) (s.qps id') = true := by
  rw [rxQpKey_eq, rxQpKey_eq, getQpKey_inj] at hkey
  obtain ⟨hsip, hpg, hsport⟩ := hkey
  obtain ⟨hsrc, -, hip, hdip⟩ := h.nodes id hid
  obtain ⟨hsrc', -, hip', hdip'⟩ := h.nodes id' hid'
  have hnode : (s.qps id).src = (s.qps id').src :=
    hinj _ _ hsrc hsrc' (hip.symm.trans (hsip.trans hip'))
  have hdips : (s.qps id).flow.dip = (s.qps id').flow.dip := by rw [hdip, hdip', hdst]
  simp [sameTriple, hnode, hdips, hpg, hsport]

/-- What a completion may forget belongs to no live queue pair but the one that completes. -/
theorem Inv.sameTriple_eq_false (h : Inv hosts s) (hnear : (Op.complete id).Near s) {id' : ℕ}
    (hid' : id' ∈ s.live) (hne : id' ≠ id) : sameTriple (s.qps id) (s.qps id') = false := by
  rcases hnear.2 with hlive | hfree
  · by_contra hsame
    exact hne (h.distinct id hlive id' hid' (Bool.not_eq_false _ ▸ hsame)).symm
  · exact hfree id' hid'

/-- A queue pair that completes leaves the maps exact, if its destination is found again and its
triple has not been taken by another. -/
theorem Inv.qpComplete (h : Inv hosts s)
    (hinj : ∀ a b, hosts a = true → hosts b = true → nodeIdToIp a = nodeIdToIp b → a = b)
    (hnear : (Op.complete id).Near s) (ht : s.qpComplete hosts id = some t) : Inv hosts t := by
  obtain ⟨hid, hhost⟩ := qpComplete_some ht
  have hdid : ipToNodeId (s.qps id).flow.dip = (s.qps id).dst := by
    rw [(h.nodes id hid).2.2.2, ipToNodeId_nodeIdToIp_iff.2 hnear.1]
  obtain ⟨t', ht', hcreated, hqps, hlive, hnRx, harr, hack, hrx⟩ :=
    qpComplete_spec hid hdid (hdid ▸ hhost)
  obtain rfl : t = t' := Option.some.inj (ht.symm.trans ht')
  have hof : ∀ id' ∈ t.live, id' ∈ s.live ∧ id' ≠ id := fun id' hin => by
    rw [hlive, List.mem_filter, bne_iff_ne] at hin
    exact hin
  have hother : ∀ id' ∈ t.live, sameTriple (s.qps id) (s.qps id') = false := fun id' hin =>
    h.sameTriple_eq_false hnear (hof id' hin).1 (hof id' hin).2
  have hkept : ∀ node key q, (t.maps node).rxQpMap key = some q →
      (s.maps node).rxQpMap key = some q := by
    intro node key q hq
    rw [hrx] at hq
    split_ifs at hq
    exact hq
  refine
    { live_lt := ?_
      arrived_lt := ?_
      nodes := ?_
      distinct := ?_
      qpMap := ?_
      uid_lt := ?_
      uid_inj := ?_
      rxQp := ?_ }
  · rw [hcreated]
    exact fun id' hin => h.live_lt id' (hof id' hin).1
  · rw [hcreated, harr]
    exact h.arrived_lt
  · rw [hcreated, hqps]
    exact h.nodes
  · rw [hqps]
    exact fun id₁ h₁ id₂ h₂ => h.distinct id₁ (hof id₁ h₁).1 id₂ (hof id₂ h₂).1
  · rw [hqps]
    rintro id' hin
    rw [hack, if_neg]
    · exact h.qpMap id' (hof id' hin).1
    · rintro ⟨hsrc, hkey⟩
      obtain ⟨hdip, hsport, hpg⟩ := getQpKey_inj.1 hkey
      have hfree := hother id' hin
      simp [sameTriple, hsrc, hdip, hsport, hpg] at hfree
  · rw [hnRx]
    exact fun node key q hq => h.uid_lt node key q (hkept node key q hq)
  · exact fun node key q node' key' q' hq hq' => h.uid_inj node key q node' key' q'
      (hkept node key q hq) (hkept node' key' q' hq')
  · rw [harr]
    rintro e he hin
    obtain ⟨hin', -⟩ := hof e.id hin
    rw [rxQpOf, hqps, hrx, if_neg]
    · exact h.rxQp e he hin'
    · rintro ⟨hdst, hkey⟩
      have hsame := h.sameTriple_of_key hinj hid (h.live_lt e.id hin') hdst.symm hkey.symm
      rw [hother e.id hin] at hsame
      cases hsame

end Complete

/-! ### Every run -/

section Run

variable (hinj : ∀ a b, hosts a = true → hosts b = true → nodeIdToIp a = nodeIdToIp b → a = b)

include hinj

theorem Inv.step (h : Inv hosts s) {op : Op} (hnear : op.Near s)
    (ht : s.step hosts op = some t) : Inv hosts t := by
  cases op with
  | addQueuePair p => exact h.addQueuePair ht
  | dataArrives id => exact h.dataArrives ht
  | complete id => exact h.qpComplete hinj hnear ht

theorem Inv.exact (h : Inv hosts s) : Exact s := by
  refine ⟨fun e he e' he' hlive hlive' => ⟨fun huid => ?_, fun hid => ?_⟩, h.rxQp, h.qpMap⟩
  · obtain ⟨q, hq, hu⟩ := Option.map_eq_some_iff.1 (h.rxQp e he hlive)
    obtain ⟨q', hq', hu'⟩ := Option.map_eq_some_iff.1 (h.rxQp e' he' hlive')
    obtain ⟨hdst, hkey⟩ := h.uid_inj _ _ q _ _ q' hq hq' (hu.trans (huid.trans hu'.symm))
    exact h.distinct e.id hlive e'.id hlive'
      (h.sameTriple_of_key hinj (h.live_lt _ hlive) (h.live_lt _ hlive') hdst hkey)
  · have heq := h.rxQp e he hlive
    rw [hid, h.rxQp e' he' hlive', Option.some.injEq] at heq
    exact heq.symm

omit hinj in
/-- A completion is exact if the destination has a number that `ip_to_node_id` recovers, and only
then, unless the destination has nothing to forget. -/
theorem Inv.completesExactly (h : Inv hosts s) {id : ℕ} (hid : id ∈ s.live) :
    ((s.qps id).dst < 65536 → CompletesExactly hosts s id) ∧
      (CompletesExactly hosts s id → (s.rxQpOf id).isSome → (s.qps id).dst < 65536) := by
  obtain ⟨-, hdst, -, hdip⟩ := h.nodes id (h.live_lt id hid)
  constructor
  · intro hnear
    have hdid : ipToNodeId (s.qps id).flow.dip = (s.qps id).dst := by
      rw [hdip, ipToNodeId_nodeIdToIp_iff.2 hnear]
    obtain ⟨t, ht, -, -, -, -, -, -, hrx⟩ := qpComplete_spec (h.live_lt id hid) hdid hdst
    exact ⟨t, ht, hrx⟩
  · rintro ⟨t, ht, hexact⟩ hsome
    obtain ⟨-, hhost⟩ := qpComplete_some ht
    obtain ⟨t', ht', -, -, -, -, -, -, hrx⟩ := qpComplete_spec (h.live_lt id hid) rfl hhost
    obtain rfl : t = t' := Option.some.inj (ht.symm.trans ht')
    rw [← ipToNodeId_nodeIdToIp_iff, ← hdip]
    by_contra hne
    -- the entry of the destination is forgotten by no one
    have hkept := hrx (s.qps id).dst
      (rxQpKey (s.qps id).flow.sip (s.qps id).flow.pg (s.qps id).flow.sport)
    rw [hexact, if_pos ⟨rfl, rfl⟩, if_neg fun hand => hne hand.1.symm] at hkept
    rw [rxQpOf, ← hkept] at hsome
    cases hsome

end Run

/-- **Demultiplexing is exact.** Let the hosts have distinct addresses. After every sequence of
additions, arrivals and completions in which the queue pairs that complete have destinations with
numbers below `65536`, and none completes again while a live one has its triple, the packets of the
live queue pairs find their queue pairs, and the completion of one of them is exact if its
destination has such a number; otherwise it is not, if there is a receiving queue pair to forget. -/
theorem demux_exact (hosts : UInt32 → Bool)
    (hinj : ∀ a b, hosts a = true → hosts b = true → nodeIdToIp a = nodeIdToIp b → a = b)
    {ops : List Op} {s : Demux} (hnear : Run.Along (step hosts) (fun s op => op.Near s) init ops)
    (hrun : Run.exec (step hosts) init ops = some s) :
    s.Exact ∧ ∀ id ∈ s.live,
      ((s.qps id).dst < 65536 → s.CompletesExactly hosts id) ∧
        (s.CompletesExactly hosts id → (s.rxQpOf id).isSome → (s.qps id).dst < 65536) := by
  have hinv : Inv hosts s := Run.exec_induction (I := Inv hosts)
    (fun s op t hs hop ht => hs.step hinj hop ht) (inv_init hosts) hnear hrun
  exact ⟨hinv.exact hinj, fun id hid => hinv.completesExactly hid⟩

/-- A network with three hosts, two of which `ip_to_node_id` takes for one. -/
def threeHosts (id : UInt32) : Bool := id = 0 || id = 1 || id = 65536

/-- The queue pair from one node to another, of a given size. -/
def flowBetween (src dst : UInt32) : Sender where
  src := src
  dst := dst
  flow :=
    { size := 1000, pg := 3, sip := nodeIdToIp src, dip := nodeIdToIp dst, sport := 10000
      dport := 100, win := 0 }

theorem threeHosts_distinct : ∀ a b, threeHosts a = true → threeHosts b = true →
    nodeIdToIp a = nodeIdToIp b → a = b := by
  intro a b ha hb
  simp only [threeHosts, Bool.or_eq_true, decide_eq_true_eq] at ha hb
  rcases ha with (rfl | rfl) | rfl <;> rcases hb with (rfl | rfl) | rfl <;> decide

/-- Two hosts send to each other, one queue pair completes, and its `endTime` comes after that. -/
theorem demux_exact_three_hosts : ∃ s, Run.exec (step threeHosts) init
      [.addQueuePair (flowBetween 0 1), .addQueuePair (flowBetween 1 0), .dataArrives 0,
        .dataArrives 1, .dataArrives 0, .complete 1, .complete 1] = some s ∧
    (s.Exact ∧ ∀ id ∈ s.live,
      ((s.qps id).dst < 65536 → s.CompletesExactly threeHosts id) ∧
        (s.CompletesExactly threeHosts id → (s.rxQpOf id).isSome → (s.qps id).dst < 65536)) := by
  obtain ⟨s, hs⟩ : ∃ s, Run.exec (step threeHosts) init
      [.addQueuePair (flowBetween 0 1), .addQueuePair (flowBetween 1 0), .dataArrives 0,
        .dataArrives 1, .dataArrives 0, .complete 1, .complete 1] = some s :=
    Option.isSome_iff_exists.1 (by decide +kernel)
  exact ⟨s, hs, demux_exact threeHosts threeHosts_distinct (by decide +kernel) hs⟩

/-- A queue pair to the node `65536` completes: `qp_finish` turns to the node `0`. And a queue pair
that has finished completes at its `endTime` when another one has its triple: the host no longer
finds the other. -/
theorem demux_far_host :
    (∃ s, Run.exec (step threeHosts) init
        [.addQueuePair (flowBetween 1 65536), .dataArrives 0] = some s ∧
      0 ∈ s.live ∧ ¬ s.CompletesExactly threeHosts 0) ∧
    ∃ s, Run.exec (step threeHosts) init
        [.addQueuePair (flowBetween 0 1), .dataArrives 0, .complete 0,
          .addQueuePair (flowBetween 0 1), .dataArrives 1, .complete 0] = some s ∧
      1 ∈ s.live ∧ ¬ s.Exact := by
  constructor
  · have hrun : (Run.exec (step threeHosts) init
        [.addQueuePair (flowBetween 1 65536), .dataArrives 0]).map (fun s => (s.live,
          (s.rxQpOf 0).isSome, (s.qps 0).dst, (s.step threeHosts (.complete 0)).map fun t =>
            ((t.maps (s.qps 0).dst).rxQpMap (rxQpKey (s.qps 0).flow.sip (s.qps 0).flow.pg
              (s.qps 0).flow.sport)).isSome)) = some ([0], true, 65536, some true) := by
      decide +kernel
    obtain ⟨s, hs, hval⟩ := Option.map_eq_some_iff.1 hrun
    simp only [Prod.mk.injEq] at hval
    obtain ⟨hlive, -, -, hafter⟩ := hval
    refine ⟨s, hs, by simp [hlive], ?_⟩
    rintro ⟨t, ht, hexact⟩
    rw [ht, Option.map_some, hexact, if_pos ⟨rfl, rfl⟩] at hafter
    cases hafter
  · have hrun : (Run.exec (step threeHosts) init
        [.addQueuePair (flowBetween 0 1), .dataArrives 0, .complete 0,
          .addQueuePair (flowBetween 0 1), .dataArrives 1, .complete 0]).map (fun s => (s.live,
            (s.maps (s.qps 1).src).receiveAck (s.qps 1).flow.dataAddrs.reply)) =
        some ([1], none) := by
      decide +kernel
    obtain ⟨s, hs, hval⟩ := Option.map_eq_some_iff.1 hrun
    rw [Prod.mk.injEq] at hval
    obtain ⟨hlive, hnone⟩ := hval
    have hin : 1 ∈ s.live := by simp [hlive]
    refine ⟨s, hs, hin, fun hexact => ?_⟩
    rw [hexact.reply 1 hin] at hnone
    cases hnone

end Demux

end HpccSim
