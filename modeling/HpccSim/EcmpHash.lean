import HpccSim.Lib.BitField
import HpccSim.Lib.WordMixing
import HpccSim.Routing

/-!
# The hash of the next hop

`SwitchNode::EcmpHash` (`switch-node.cc`) mixes the addresses and ports of a packet with the seed of
the switch, and `GetOutDev` takes the remainder modulo the number of next hops. Every step of the
hash can be undone, so no two keys that differ in one word collide, and the ports are spread evenly
over the next hops.

## Main definitions

* `ecmpHash`: `SwitchNode::EcmpHash`.
* `ecmpKey`: the key that `GetOutDev` hashes.

## Main results

* `ecmpHash_injective_word`, `ecmpHash_injective_seed`: no collisions in one word, or in the seed.
* `Routing.nextHops_share_evenly`: how many of the port pairs each next hop gets.
-/

namespace HpccSim

open WordMixing

/-- What is done to a word of the key before it is mixed in. -/
def ecmpWord (k : UInt32) : UInt32 := rotate 15 17 (k * 0xcc9e2d51) * 0x1b873593

/-- One round of the loop over the words of the key. -/
def ecmpRound (h k : UInt32) : UInt32 :=
  let h := h ^^^ ecmpWord k
  let h := rotate 13 19 h
  h + ((h <<< 2) + 0xe6546b64)

/-- The bytes beyond the last whole word. -/
def ecmpTail (tail : List UInt8) (h : UInt32) : UInt32 :=
  if tail = [] then h
  else h ^^^ ecmpWord (tail.foldr (fun b k => (k <<< 8) ||| b.toUInt32) 0)

/-- The end of the hash, for a key of `len` bytes. -/
def ecmpFinish (len h : UInt32) : UInt32 :=
  let h := h ^^^ len
  let h := mixDown 16 h
  let h := h * 0x85ebca6b
  let h := mixDown 13 h
  let h := h * 0xc2b2ae35
  mixDown 16 h

/-- `SwitchNode::EcmpHash`, of a key that is cut into words of four bytes and at most three bytes
that are left. -/
def ecmpHash (words : List UInt32) (tail : List UInt8) (seed : UInt32) : UInt32 :=
  ecmpFinish (.ofNat (4 * words.length + tail.length)) (ecmpTail tail (words.foldl ecmpRound seed))

/-- The third word of the key that `GetOutDev` hashes. -/
def portsWord (sport dport : UInt16) : UInt32 := sport.toUInt32 ||| (dport.toUInt32 <<< 16)

/-- The key that `GetOutDev` hashes. -/
def ecmpKey (sip dip ports : UInt32) : List UInt32 := [sip, dip, ports]

theorem lt_two_pow_32 {a b : ℕ} (ha : a < 2 ^ 16) (hb : b < 2 ^ 16) : a + 2 ^ 16 * b < 2 ^ 32 := by
  omega

/-- The word of two ports is their number as a pair of digits. -/
theorem portsWord_ofNat {a b : ℕ} (ha : a < 2 ^ 16) (hb : b < 2 ^ 16) :
    portsWord (.ofNat a) (.ofNat b) = .ofNat (a + 2 ^ 16 * b) := by
  refine UInt32.toNat_inj.1 ?_
  have ha' : (UInt16.ofNat a).toUInt32.toNat = a := by
    rw [UInt16.toNat_toUInt32, UInt16.toNat_ofNat_of_lt' ha]
  have hb' : (UInt16.ofNat b).toUInt32.toNat = b := by
    rw [UInt16.toNat_toUInt32, UInt16.toNat_ofNat_of_lt' hb]
  have hshift : (16 : UInt32).toNat % 32 = 16 := rfl
  have hlt : b * 2 ^ 16 < 2 ^ 32 := by omega
  rw [portsWord, UInt32.toNat_or, UInt32.toNat_shiftLeft, ha', hb', hshift, Nat.shiftLeft_eq,
    Nat.mod_eq_of_lt hlt, ← Nat.shiftLeft_eq, Nat.or_comm, BitField.or_shiftLeft b ha,
    UInt32.toNat_ofNat_of_lt' (lt_two_pow_32 ha hb)]

/-- As many pairs of digits as numbers of two digits satisfy a predicate. -/
theorem card_digits (n : ℕ) (p : ℕ → Prop) [DecidablePred p] :
    ((Finset.range n ×ˢ Finset.range n).filter fun e => p (e.1 + n * e.2)).card =
      ((Finset.range (n * n)).filter p).card := by
  refine Finset.card_nbij' (fun e => e.1 + n * e.2) (fun w => (w % n, w / n)) ?_ ?_ ?_ ?_
  · rintro ⟨a, b⟩ he
    simp only [Finset.coe_filter, Finset.mem_product, Finset.mem_range, Set.mem_ofPred_eq] at he ⊢
    obtain ⟨⟨ha, hb⟩, hp⟩ := he
    have hlt : a + n * b < n * (b + 1) := by
      rw [Nat.mul_succ]
      omega
    exact ⟨hlt.trans_le (Nat.mul_le_mul_left n hb), hp⟩
  · intro w hw
    simp only [Finset.coe_filter, Finset.mem_product, Finset.mem_range, Set.mem_ofPred_eq] at hw ⊢
    obtain ⟨hlt, hp⟩ := hw
    have hn : 0 < n := Nat.pos_of_mul_pos_left (Nat.zero_lt_of_lt hlt)
    rw [Nat.mod_add_div]
    exact ⟨⟨Nat.mod_lt _ hn, Nat.div_lt_of_lt_mul hlt⟩, hp⟩
  · rintro ⟨a, b⟩ he
    simp only [Finset.coe_filter, Finset.mem_product, Finset.mem_range, Set.mem_ofPred_eq] at he
    obtain ⟨⟨ha, -⟩, -⟩ := he
    refine Prod.ext ?_ ?_
    · exact (Nat.add_mul_mod_self_left ..).trans (Nat.mod_eq_of_lt ha)
    · exact (Nat.add_mul_div_left _ _ (Nat.zero_lt_of_lt ha)).trans
        (by rw [Nat.div_eq_of_lt ha, Nat.zero_add])
  · intro w _
    exact Nat.mod_add_div w n

/-- **Every word is that of one pair of ports**: as many pairs of ports as words satisfy a
predicate. -/
theorem card_ports (p : UInt32 → Prop) [DecidablePred p] :
    ((Finset.range (2 ^ 16) ×ˢ Finset.range (2 ^ 16)).filter fun e =>
        p (portsWord (.ofNat e.1) (.ofNat e.2))).card =
      ((Finset.range (2 ^ 32)).filter fun w => p (.ofNat w)).card := by
  rw [show 2 ^ 32 = 2 ^ 16 * 2 ^ 16 from rfl, ← card_digits (2 ^ 16) fun w => p (.ofNat w)]
  refine congrArg Finset.card (Finset.filter_congr ?_)
  simp only [Finset.mem_product, Finset.mem_range]
  rintro ⟨a, b⟩ ⟨ha, hb⟩
  rw [portsWord_ofNat ha hb]

section Injective

theorem ecmpWord_injective : Function.Injective ecmpWord :=
  (mul_injective (d := 0x56ed309b) (by decide)).comp
    ((rotate_injective (by decide) (by decide) (by decide)).comp
      (mul_injective (d := 0xdee13bb1) (by decide)))

theorem ecmpFinish_injective (len : UInt32) : Function.Injective (ecmpFinish len) :=
  (mixDown_injective (by decide) (by decide)).comp
    ((mul_injective (d := 0x7ed1b41d) (by decide)).comp
      ((mixDown_injective (by decide) (by decide)).comp
        ((mul_injective (d := 0xa5cb9243) (by decide)).comp
          ((mixDown_injective (by decide) (by decide)).comp (xor_injective len)))))

/-- The last step of a round multiplies by `5`. -/
theorem add_shiftLeft_add (h c : UInt32) : h + ((h <<< 2) + c) = h * 5 + c := by
  refine UInt32.toNat_inj.1 ?_
  simp only [UInt32.toNat_add, UInt32.toNat_mul, UInt32.toNat_shiftLeft, Nat.shiftLeft_eq]
  change (h.toNat + (h.toNat * 2 ^ 2 % 2 ^ 32 + c.toNat) % 2 ^ 32) % 2 ^ 32 =
    (h.toNat * 5 % 2 ^ 32 + c.toNat) % 2 ^ 32
  omega

/-- What a round does once the word is mixed in. -/
theorem ecmpRound_eq (h k : UInt32) :
    ecmpRound h k = rotate 13 19 (h ^^^ ecmpWord k) * 5 + 0xe6546b64 :=
  add_shiftLeft_add _ _

private theorem roundEnd_injective :
    Function.Injective fun h : UInt32 => rotate 13 19 h * 5 + 0xe6546b64 :=
  (add_injective 0xe6546b64).comp ((mul_injective (d := 0xcccccccd) (by decide)).comp
    (rotate_injective (by decide) (by decide) (by decide)))

theorem ecmpRound_injective_left (k : UInt32) : Function.Injective fun h => ecmpRound h k := by
  simp only [ecmpRound_eq]
  exact roundEnd_injective.comp (xor_injective (ecmpWord k))

theorem ecmpRound_injective_right (h : UInt32) : Function.Injective (ecmpRound h) := by
  have hxor : Function.Injective fun k => h ^^^ ecmpWord k := by
    simp only [UInt32.xor_comm h]
    exact (xor_injective h).comp ecmpWord_injective
  have hround : ecmpRound h = fun k => rotate 13 19 (h ^^^ ecmpWord k) * 5 + 0xe6546b64 :=
    funext (ecmpRound_eq h)
  rw [hround]
  exact roundEnd_injective.comp hxor

theorem foldl_ecmpRound_injective (words : List UInt32) :
    Function.Injective fun seed => words.foldl ecmpRound seed := by
  induction words with
  | nil => exact Function.injective_id
  | cons w words ih => exact ih.comp (ecmpRound_injective_left w)

theorem ecmpTail_injective (tail : List UInt8) : Function.Injective (ecmpTail tail) := by
  unfold ecmpTail
  split_ifs
  · exact Function.injective_id
  · exact xor_injective _

/-- Different seeds give different hashes. -/
theorem ecmpHash_injective_seed (words : List UInt32) (tail : List UInt8) :
    Function.Injective (ecmpHash words tail) :=
  (ecmpFinish_injective _).comp
    ((ecmpTail_injective tail).comp (foldl_ecmpRound_injective words))

/-- **Keys that differ in one word have different hashes.** -/
theorem ecmpHash_injective_word (before after : List UInt32) (tail : List UInt8) (seed : UInt32) :
    Function.Injective fun w => ecmpHash (before ++ w :: after) tail seed := by
  have hlen : ∀ w : UInt32, (before ++ w :: after).length = before.length + after.length + 1 :=
    fun w => by simp only [List.length_append, List.length_cons, Nat.add_assoc]
  have hhash : (fun w => ecmpHash (before ++ w :: after) tail seed) = fun w =>
      ecmpFinish (.ofNat (4 * (before.length + after.length + 1) + tail.length))
        (ecmpTail tail (after.foldl ecmpRound (ecmpRound (before.foldl ecmpRound seed) w))) := by
    funext w
    rw [ecmpHash, hlen, List.foldl_append, List.foldl_cons]
  rw [hhash]
  exact (ecmpFinish_injective _).comp ((ecmpTail_injective tail).comp
    ((foldl_ecmpRound_injective after).comp (ecmpRound_injective_right _)))

end Injective

namespace Routing

variable {Node : Type} [DecidableEq Node] {T : Topology Node} {h : Node}

/-- The node to which `GetOutDev` of the switch `v` sends a packet from `sip` with the given word
of ports, for the host `h`. -/
def ecmpNext (T : Topology Node) (net : Net Node) (h v : Node) (sip seed ports : UInt32) :
    Option Node :=
  (getOutDev (net.rtTable v) (T.address h)
    (ecmpHash (ecmpKey sip (T.address h) ports) [] seed)).bind (T.channel v)

/-- **The value of the hash selects the next hop** by its remainder. -/
theorem ecmpNext_eq {net : Net Node} (hlinks : Links T net.nbr2if) (hrouted : Routed T net)
    (hh : h ∈ T.n) (hhost : T.nodeType h = .host) {v : Node} (hne : net.nextHop v h ≠ [])
    (hadj : ∀ u ∈ net.nextHop v h, u ∈ adj net v) (sip seed ports : UInt32) :
    ecmpNext T net h v sip seed ports = (net.nextHop v h)[
      (ecmpHash (ecmpKey sip (T.address h) ports) [] seed).toNat % (net.nextHop v h).length]? := by
  obtain ⟨w, hw⟩ := List.exists_mem_of_ne_nil _ hne
  obtain ⟨i, hmem, hup⟩ := mem_upNbrs.1 (hadj w hw)
  have htable := hrouted.rtTable v (hlinks.mem v _ hmem hup).1 h hh hhost
  have hnil : net.rtTable v (T.address h) ≠ [] := by
    rw [htable]
    simpa using hne
  rw [ecmpNext, getOutDev, if_neg hnil, htable, List.length_map, List.getElem?_map]
  cases hu : (net.nextHop v h)[
      (ecmpHash (ecmpKey sip (T.address h) ports) [] seed).toNat % (net.nextHop v h).length]? with
  | none => rfl
  | some u =>
    obtain ⟨i, hentry, hup⟩ := mem_upNbrs.1 (hadj u (List.mem_of_getElem? hu))
    rw [Option.map_some, Option.bind_some, interface_of_mem (hlinks.keys v) hentry]
    exact hlinks.channel v _ hentry hup

/-- The words of ports are spread evenly over the next hops. -/
theorem nextHops_share_words {nbr2if : Node → List (Node × Interface)} (hlinks : Links T nbr2if)
    (cuts : List (Node × Node)) (hh : h ∈ T.n) (hhost : T.nodeType h = .host) {v u : Node}
    (hu : u ∈ (after T nbr2if cuts).nextHop v h) (sip seed : UInt32) :
    ((Finset.range (2 ^ 32)).filter fun ports =>
        ecmpNext T (after T nbr2if cuts) h v sip seed (.ofNat ports) = some u).card =
      2 ^ 32 / ((after T nbr2if cuts).nextHop v h).length +
        if ((after T nbr2if cuts).nextHop v h).idxOf u <
          2 ^ 32 % ((after T nbr2if cuts).nextHop v h).length then 1 else 0 := by
  obtain ⟨hlinks', hrouted, -⟩ := after_spec hlinks cuts
  obtain ⟨done, -, hinv⟩ := exists_inv_bfs hlinks' hh
  have hnext : (after T nbr2if cuts).nextHop v h = (bfs T (after T nbr2if cuts) h).par v := by
    rw [hrouted.nextHop, if_pos ⟨hh, hhost⟩]
  have hnodup : ((after T nbr2if cuts).nextHop v h).Nodup := hnext ▸ hinv.nodup_par v
  have hadj : ∀ w ∈ (after T nbr2if cuts).nextHop v h, w ∈ adj (after T nbr2if cuts) v :=
    fun w hw => hlinks'.symm w v (hinv.mem_par_iff.1 (hnext ▸ hw)).2.1
  have hinj : Function.Injective fun w =>
      ecmpHash (ecmpKey sip (T.address h) w) [] seed :=
    ecmpHash_injective_word [sip, T.address h] [] [] seed
  rw [← card_mod_eq hinj (List.idxOf_lt_length_of_mem hu)]
  refine congrArg Finset.card (Finset.filter_congr fun ports _ => ?_)
  have hlt : (ecmpHash (ecmpKey sip (T.address h) (.ofNat ports)) [] seed).toNat %
      ((after T nbr2if cuts).nextHop v h).length < ((after T nbr2if cuts).nextHop v h).length :=
    Nat.mod_lt _ (List.length_pos_of_mem hu)
  rw [ecmpNext_eq hlinks' hrouted hh hhost (List.ne_nil_of_mem hu) hadj,
    List.getElem?_eq_some_iff]
  constructor
  · rintro ⟨hlt, hget⟩
    rw [← hget, hnodup.idxOf_getElem _ hlt]
  · intro hidx
    exact ⟨hlt, by simp only [hidx, List.getElem_idxOf]⟩

/-- **The ports are spread evenly over the next hops.** After any links have been taken down, at
any switch and for any source address and seed, each of the `n` next hops for a host is chosen for
`2 ^ 32 / n` of the pairs of ports, or one more. -/
theorem nextHops_share_evenly {nbr2if : Node → List (Node × Interface)} (hlinks : Links T nbr2if)
    (cuts : List (Node × Node)) (hh : h ∈ T.n) (hhost : T.nodeType h = .host) {v u : Node}
    (hu : u ∈ (after T nbr2if cuts).nextHop v h) (sip seed : UInt32) :
    ((Finset.range (2 ^ 16) ×ˢ Finset.range (2 ^ 16)).filter fun ports =>
        ecmpNext T (after T nbr2if cuts) h v sip seed
          (portsWord (.ofNat ports.1) (.ofNat ports.2)) = some u).card =
      2 ^ 32 / ((after T nbr2if cuts).nextHop v h).length +
        if ((after T nbr2if cuts).nextHop v h).idxOf u <
          2 ^ 32 % ((after T nbr2if cuts).nextHop v h).length then 1 else 0 := by
  rw [card_ports fun word => ecmpNext T (after T nbr2if cuts) h v sip seed word = some u]
  exact nextHops_share_words hlinks cuts hh hhost hu sip seed

/-- Two hosts, `0` and `1`, at the switches `2` and `5`, which are linked through `3` and `4`. -/
def diamond : Topology (Fin 6) where
  n := [0, 1, 2, 3, 4, 5]
  nodeType v := if v ≤ 1 then .host else .switch
  address v := 0x0b000001 + .ofNat (256 * v)
  channel v dev := if dev = 0 then none else (([[2], [5], [0, 3, 4], [2, 5], [2, 5], [1, 3, 4]] :
    List (List (Fin 6)))[v.val]?.getD [])[dev - 1]?
  packetPayloadSize := 1000
  nodup := by decide
  address_inj := by decide

def diamondLinks (v : Fin 6) : List (Fin 6 × Interface) :=
  (([[2], [5], [0, 3, 4], [2, 5], [2, 5], [1, 3, 4]] : List (List (Fin 6)))[v.val]?.getD []).mapIdx
    fun i u => (u, ⟨i + 1, true, 1000, 100000000000⟩)

theorem links_diamond : Links diamond diamondLinks where
  keys := by decide
  mem := by decide
  channel := by decide
  symm := by decide

/-- The switch `2` has two ways to the host `1`. -/
theorem nextHops_share_evenly_diamond :
    ((Finset.range (2 ^ 16) ×ˢ Finset.range (2 ^ 16)).filter fun ports =>
      ecmpNext diamond (after diamond diamondLinks []) 1 2 (diamond.address 0) 7
        (portsWord (.ofNat ports.1) (.ofNat ports.2)) = some 3).card = 2 ^ 31 := by
  have hnext : (after diamond diamondLinks []).nextHop 2 1 = [3, 4] := by decide +kernel
  have hshare := nextHops_share_evenly links_diamond [] (h := 1) (by decide) (by decide)
    (v := 2) (u := 3) (by rw [hnext]; decide) (diamond.address 0) 7
  rwa [hnext] at hshare

end Routing

end HpccSim
