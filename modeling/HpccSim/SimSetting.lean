import HpccSim.Lib.ByteOrder
import Mathlib.Data.List.Nodup
import Mathlib.Tactic.NormNum

/-!
# The preamble of a trace file

A trace file starts with the speeds of all ports, kept in a hash map of hash maps, and the bound on
the window. The writer counts the ports in one pass over the maps and writes them in another, and
the reader puts them into new maps one by one. A hash map may list its elements in any order, and a
copy of it in another one.

## Main definitions

* `SimSetting`: the port speeds, as functions, and the window.
* `SimSetting.Lists`: a list of the elements of the maps, in some order.
* `SimSetting.serialize`, `SimSetting.deserialize`.

## Main results

* `SimSetting.deserialize_serialize`: whatever the orders, the reader gets the same speeds and the
  same window, and stops behind them.
-/

namespace HpccSim

open ByteOrder

/-- The speeds of the ports of a node, by interface. -/
abbrev IntfSpeed := UInt8 → Option UInt64

/-- `SimSetting`. The map `port_speed` is the function that looks up a node in it. -/
structure SimSetting where
  portSpeed : UInt16 → Option IntfSpeed
  win : UInt32

namespace SimSetting

/-- The speed of a port. -/
def speed (m : UInt16 → Option IntfSpeed) (node : UInt16) (intf : UInt8) : Option UInt64 :=
  (m node).bind fun l => l intf

/-- The elements of the maps, in the order of some traversal. -/
abbrev Traversal := List (UInt16 × List (UInt8 × UInt64))

/-- A traversal lists the elements of the maps, each once. -/
structure Lists (m : UInt16 → Option IntfSpeed) (t : Traversal) : Prop where
  nodup : (t.map Prod.fst).Nodup
  nodup_intf : ∀ p ∈ t, (p.2.map Prod.fst).Nodup
  lookup : ∀ node, m node = (t.lookup node).map fun l intf => l.lookup intf

/-- A port and its speed. -/
structure Entry where
  node : UInt16
  intf : UInt8
  bps : UInt64
deriving DecidableEq

/-- The ports, in the order of the traversal. -/
def entries (t : Traversal) : List Entry :=
  t.flatMap fun i => i.2.map fun j => ⟨i.1, j.1, j.2⟩

/-! ### The writer -/

/-- The first loops of `Serialize`. -/
def count (t : Traversal) : ℕ :=
  t.foldl (fun len i => i.2.foldl (fun len _ => (len + 1) % 2 ^ 32) len) 0

/-- The bytes of one port. -/
def Entry.bytes (e : Entry) : Bytes :=
  encode 2 e.node.toNat ++ (encode 1 e.intf.toNat ++ encode 8 e.bps.toNat)

/-- `SimSetting::Serialize`, with the two traversals of the maps. -/
def serialize (s : SimSetting) (t₁ t₂ : Traversal) : Bytes :=
  encode 4 (count t₁) ++ ((entries t₂).flatMap Entry.bytes ++ encode 4 s.win.toNat)

/-! ### The reader -/

/-- `fread` of one item of `n` bytes: what it returns, the item, and the rest of the file. After a
read beyond the end the item is indeterminate; it does not matter, for the return value is `0`. -/
def fread (n : ℕ) (file : Bytes) : ℕ × ℕ × Bytes :=
  if n ≤ file.length then (1, decode (file.take n), file.drop n) else (0, 0, [])

/-- `port_speed[node][intf] = bps`. -/
def assign (m : UInt16 → Option IntfSpeed) (e : Entry) : UInt16 → Option IntfSpeed :=
  Function.update m e.node
    (some (Function.update ((m e.node).getD fun _ => none) e.intf (some e.bps)))

/-- The loop of `Deserialize`, for `len` more ports. -/
def readPorts : ℕ → ℕ → (UInt16 → Option IntfSpeed) → Bytes →
    ℕ × (UInt16 → Option IntfSpeed) × Bytes
  | 0, ret, m, file => (ret, m, file)
  | len + 1, ret, m, file =>
    let (r₁, node, file) := fread 2 file
    let (r₂, intf, file) := fread 1 file
    let (r₃, bps, file) := fread 8 file
    readPorts len (ret &&& r₁ &&& r₂ &&& r₃) (assign m ⟨.ofNat node, .ofNat intf, .ofNat bps⟩) file

/-- `SimSetting::Deserialize`: the value `ret` of its assertion, the setting, and the rest of the
file. -/
def deserialize (s : SimSetting) (file : Bytes) : ℕ × SimSetting × Bytes :=
  let (ret, len, file) := fread 4 file
  let (ret, m, file) := readPorts len ret s.portSpeed file
  let (r, win, file) := fread 4 file
  (ret &&& r, { portSpeed := m, win := .ofNat win }, file)

/-! ### Traversals -/

section Traversal

variable {m : UInt16 → Option IntfSpeed} {t t' : Traversal}

/-- In a list with distinct keys, what is found at a key is what stands there. -/
theorem lookup_eq_some_iff {α β : Type*} [DecidableEq α] {l : List (α × β)}
    (h : (l.map Prod.fst).Nodup) {a : α} {b : β} : l.lookup a = some b ↔ (a, b) ∈ l := by
  constructor
  · intro hb
    obtain ⟨l₁, l₂, rfl, -⟩ := List.lookup_eq_some_iff.1 hb
    exact List.mem_append_right l₁ List.mem_cons_self
  · intro hb
    obtain ⟨l₁, l₂, rfl⟩ := List.append_of_mem hb
    refine List.lookup_eq_some_iff.2 ⟨l₁, l₂, rfl, fun p hp => ?_⟩
    rw [List.map_append, List.map_cons, List.nodup_append] at h
    exact bne_iff_ne.2 (h.2.2 p.1 (List.mem_map_of_mem hp) a List.mem_cons_self).symm

/-- The ports that a traversal lists are those with a speed. -/
theorem Lists.mem_entries (h : Lists m t) {e : Entry} :
    e ∈ entries t ↔ speed m e.node e.intf = some e.bps := by
  have hspeed : speed m e.node e.intf = some e.bps ↔
      ∃ l, t.lookup e.node = some l ∧ l.lookup e.intf = some e.bps := by
    rw [speed, h.lookup, Option.bind_map, Option.bind_eq_some_iff]
    rfl
  rw [hspeed, entries, List.mem_flatMap]
  constructor
  · rintro ⟨i, hi, he⟩
    obtain ⟨j, hj, rfl⟩ := List.mem_map.1 he
    exact ⟨i.2, (lookup_eq_some_iff h.nodup).2 hi,
      (lookup_eq_some_iff (h.nodup_intf i hi)).2 hj⟩
  · rintro ⟨l, hl, he⟩
    have hi := (lookup_eq_some_iff h.nodup).1 hl
    have hj := (lookup_eq_some_iff (h.nodup_intf _ hi)).1 he
    exact ⟨(e.node, l), hi, List.mem_map.2 ⟨(e.intf, e.bps), hj, rfl⟩⟩

/-- No port is listed twice. -/
theorem Lists.nodup_entries (h : Lists m t) : (entries t).Nodup := by
  refine List.nodup_flatMap.2 ⟨fun i hi => ?_, ?_⟩
  · refine (h.nodup_intf i hi).of_map.map ?_
    rintro ⟨j, b⟩ ⟨j', b'⟩ he
    cases he
    rfl
  · refine (List.pairwise_map.1 h.nodup).imp fun {i i'} hne => ?_
    refine List.disjoint_left.2 fun e he he' => hne ?_
    obtain ⟨j, -, rfl⟩ := List.mem_map.1 he
    obtain ⟨j', -, he'⟩ := List.mem_map.1 he'
    exact (congrArg Entry.node he').symm

/-- Two traversals of the same maps list the same number of ports. -/
theorem Lists.length_entries (h : Lists m t) (h' : Lists m t') :
    (entries t).length = (entries t').length := by
  have hperm : (entries t).Perm (entries t') :=
    (List.perm_ext_iff_of_nodup h.nodup_entries h'.nodup_entries).2 fun e => by
      rw [h.mem_entries, h'.mem_entries]
  exact hperm.length_eq

/-- `len` is the number of ports, modulo `2 ^ 32`. -/
theorem count_eq (t : Traversal) : count t = (entries t).length % 2 ^ 32 := by
  have hinner (l : List (UInt8 × UInt64)) (len : ℕ) :
      l.foldl (fun len _ => (len + 1) % 2 ^ 32) (len % 2 ^ 32) = (len + l.length) % 2 ^ 32 := by
    induction l generalizing len with
    | nil => rfl
    | cons j l ih =>
      rw [List.foldl_cons, Nat.mod_add_mod, ih, List.length_cons, Nat.add_right_comm,
        Nat.add_assoc]
  have houter (len : ℕ) : t.foldl (fun len i => i.2.foldl (fun len _ => (len + 1) % 2 ^ 32) len)
      (len % 2 ^ 32) = (len + (entries t).length) % 2 ^ 32 := by
    induction t generalizing len with
    | nil => rfl
    | cons i t ih =>
      rw [List.foldl_cons, hinner, ih, entries, entries, List.flatMap_cons, List.length_append,
        List.length_map, Nat.add_assoc]
  exact (houter 0).trans (by rw [Nat.zero_add])

end Traversal

/-! ### Reading back -/

section Read

variable {m : UInt16 → Option IntfSpeed}

theorem fread_encode (n v : ℕ) (rest : Bytes) :
    fread n (encode n v ++ rest) = (1, v % 256 ^ n, rest) := by
  have hlen := length_encode n v
  rw [fread, if_pos (by simp [hlen]), List.take_left' hlen, List.drop_left' hlen, decode_encode]

/-- A port is read back, and the rest of the file stays. -/
theorem readPorts_bytes (len : ℕ) (m : UInt16 → Option IntfSpeed) (e : Entry) (rest : Bytes) :
    readPorts (len + 1) 1 m (e.bytes ++ rest) = readPorts len 1 (assign m e) rest := by
  have hnode : e.node.toNat % 256 ^ 2 = e.node.toNat := Nat.mod_eq_of_lt e.node.toNat_lt
  have hintf : e.intf.toNat % 256 ^ 1 = e.intf.toNat := Nat.mod_eq_of_lt e.intf.toNat_lt
  have hbps : e.bps.toNat % 256 ^ 8 = e.bps.toNat := Nat.mod_eq_of_lt e.bps.toNat_lt
  rw [Entry.bytes, List.append_assoc, List.append_assoc, readPorts]
  simp only [fread_encode, hnode, hintf, hbps, UInt16.ofNat_toNat, UInt8.ofNat_toNat,
    UInt64.ofNat_toNat, Nat.and_self]

/-- All ports are read back. -/
theorem readPorts_flatMap (es : List Entry) (m : UInt16 → Option IntfSpeed) (rest : Bytes) :
    readPorts es.length 1 m (es.flatMap Entry.bytes ++ rest) = (1, es.foldl assign m, rest) := by
  induction es generalizing m with
  | nil => rfl
  | cons e es ih =>
    rw [List.flatMap_cons, List.append_assoc, List.length_cons, readPorts_bytes, ih,
      List.foldl_cons]

theorem speed_assign (m : UInt16 → Option IntfSpeed) (e : Entry) (node : UInt16) (intf : UInt8) :
    speed (assign m e) node intf =
      if node = e.node ∧ intf = e.intf then some e.bps else speed m node intf := by
  rw [speed, assign]
  by_cases hnode : node = e.node
  · subst hnode
    rw [Function.update_self, Option.bind_some]
    by_cases hintf : intf = e.intf
    · rw [hintf, Function.update_self, if_pos ⟨rfl, rfl⟩]
    · rw [Function.update_of_ne hintf, if_neg fun h => hintf h.2, speed]
      cases m e.node <;> rfl
  · rw [Function.update_of_ne hnode, if_neg fun h => hnode h.1, speed]

/-- If all speeds that are assigned are those of `m`, a port that has its speed already, or gets
one, has the speed of `m` in the end. -/
theorem speed_foldl_assign {es : List Entry}
    (h : ∀ e ∈ es, speed m e.node e.intf = some e.bps) {m₀ : UInt16 → Option IntfSpeed}
    {node : UInt16} {intf : UInt8} (h₀ : speed m₀ node intf = speed m node intf ∨
      ∃ e ∈ es, node = e.node ∧ intf = e.intf) :
    speed (es.foldl assign m₀) node intf = speed m node intf := by
  induction es generalizing m₀ with
  | nil =>
    rcases h₀ with h₀ | ⟨e, he, -⟩
    · exact h₀
    · exact absurd he List.not_mem_nil
  | cons e es ih =>
    obtain ⟨hhead, hrest⟩ := List.forall_mem_cons.1 h
    refine ih hrest ?_
    rw [speed_assign]
    by_cases hkey : node = e.node ∧ intf = e.intf
    · rw [if_pos hkey, hkey.1, hkey.2, hhead]
      exact .inl rfl
    · rw [if_neg hkey]
      refine h₀.imp_right ?_
      rintro ⟨e', he', hkey'⟩
      rcases List.mem_cons.1 he' with rfl | he'
      · exact absurd hkey' hkey
      · exact ⟨e', he', hkey'⟩

end Read

/-- A new `SimSetting`, whose window is not initialised. -/
def fresh (win : UInt32) : SimSetting where
  portSpeed _ := none
  win := win

/-- **The round trip.** Whatever the orders in which the two passes of the writer list fewer than
`2 ^ 32` ports, the reader gets the same speeds and the same window, its assertion holds, and it
stops where the writer did. -/
theorem deserialize_serialize (s : SimSetting) (t₁ t₂ : Traversal) (h₁ : Lists s.portSpeed t₁)
    (h₂ : Lists s.portSpeed t₂) (hlen : (entries t₁).length < 2 ^ 32) (win : UInt32)
    (rest : Bytes) : ∃ m, deserialize (fresh win) (serialize s t₁ t₂ ++ rest) =
      (1, { portSpeed := m, win := s.win }, rest) ∧
        ∀ node intf, speed m node intf = speed s.portSpeed node intf := by
  have hcount : count t₁ = (entries t₂).length := by
    rw [count_eq, Nat.mod_eq_of_lt hlen, h₁.length_entries h₂]
  have hword : (entries t₂).length % 256 ^ 4 = (entries t₂).length :=
    Nat.mod_eq_of_lt (h₁.length_entries h₂ ▸ hlen)
  have hwin : s.win.toNat % 256 ^ 4 = s.win.toNat := Nat.mod_eq_of_lt s.win.toNat_lt
  refine ⟨(entries t₂).foldl assign fun _ => none, ?_, fun node intf => ?_⟩
  · rw [serialize, List.append_assoc, List.append_assoc, deserialize, hcount]
    simp only [fread_encode, hword, fresh, readPorts_flatMap, hwin, UInt32.ofNat_toNat,
      Nat.and_self]
  · refine speed_foldl_assign (fun e he => h₂.mem_entries.1 he) ?_
    cases hspeed : speed s.portSpeed node intf with
    | none => exact .inl rfl
    | some bps => exact .inr ⟨⟨node, intf, bps⟩, h₂.mem_entries.2 hspeed, rfl, rfl⟩

/-- Two ports of one node, and a node without ports. -/
def sample : SimSetting where
  portSpeed node := if node = 0 then
      some fun intf => if intf = 1 then some 100 else if intf = 2 then some 25 else none
    else if node = 7 then some fun _ => none else none
  win := 64000

theorem lists_sample : Lists sample.portSpeed [(7, []), (0, [(1, 100), (2, 25)])] ∧
    Lists sample.portSpeed [(0, [(2, 25), (1, 100)]), (7, [])] := by
  refine ⟨⟨by decide, by decide, fun node => ?_⟩, ⟨by decide, by decide, fun node => ?_⟩⟩
  all_goals
    simp only [sample, List.lookup_cons, List.lookup_nil]
    grind

theorem deserialize_sample : ∃ m, deserialize (fresh 0) (serialize sample
    [(7, []), (0, [(1, 100), (2, 25)])] [(0, [(2, 25), (1, 100)]), (7, [])] ++ [5]) =
      (1, { portSpeed := m, win := 64000 }, [5]) ∧ speed m 0 2 = some 25 := by
  obtain ⟨m, hm, hspeed⟩ := deserialize_serialize sample [(7, []), (0, [(1, 100), (2, 25)])]
    [(0, [(2, 25), (1, 100)]), (7, [])] lists_sample.1 lists_sample.2 (by decide) 0 [5]
  exact ⟨m, hm, hspeed 0 2⟩

end SimSetting

end HpccSim
