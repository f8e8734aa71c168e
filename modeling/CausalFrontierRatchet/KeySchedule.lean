import CausalFrontierRatchet.CausalMembership

/-!
Group-key derivation from the causal frontier: the frontier of a graph, the version label, the
bounded store of node keys, and the keys derived from it.
-/

namespace CausalFrontierRatchet.KeySchedule

open BigEndian Crypto Operation OperationGraph

/-- Retained node-key overlap window. -/
def OVERLAP : ℕ := 64

/-- The contributions of a graph, in ascending order of identifier. -/
def contributions (dag : Dag) : List Oid :=
  (dag.ops.toList.filter fun entry => entry.2.kind = .contrib).map Prod.fst

/-- The contributions that no contribution has in its past. -/
def frontier (dag : Dag) : OidSet :=
  let nodes := contributions dag
  let covered := nodes.foldl (fun covered oid => covered ∪ dag.ancestors oid) (∅ : OidSet)
  .ofList (nodes.filter fun n => !covered.contains n)

/-- The node keys held, and the order they were last inserted in. -/
structure NodeKeys where
  keys : Std.ExtTreeMap Oid Secret
  order : List Oid
  capacity : ℕ

namespace NodeKeys

def withCapacity (capacity : ℕ) : NodeKeys :=
  ⟨∅, [], max capacity 1⟩

def default : NodeKeys :=
  withCapacity OVERLAP

def contains (store : NodeKeys) (oid : Oid) : Bool :=
  store.keys.contains oid

def peek (store : NodeKeys) (oid : Oid) : Option Secret :=
  store.keys[oid]?

/-- Moves an identifier to the end of the eviction order. -/
def touch (order : List Oid) (oid : Oid) : List Oid :=
  if oid ∈ order then order.erase oid ++ [oid] else order

/-- Drops the least recently inserted keys while more than `capacity` are ordered. -/
def evict (capacity : ℕ) : List Oid → Std.ExtTreeMap Oid Secret →
    List Oid × Std.ExtTreeMap Oid Secret
  | [], keys => ([], keys)
  | old :: rest, keys =>
      if capacity < rest.length + 1 then evict capacity rest (keys.erase old)
      else (old :: rest, keys)

def insert (store : NodeKeys) (oid : Oid) (key : Secret) : NodeKeys :=
  let order := if store.keys.contains oid then touch store.order oid else store.order ++ [oid]
  let (order, keys) := evict store.capacity order (store.keys.insert oid key)
  { store with keys, order }

/-- Which of the nodes are absent. -/
def missing (store : NodeKeys) (nodes : OidSet) : OidSet :=
  nodes.filter fun n => !store.contains n

/-- Exclusive or of the keys of all nodes, if all are held. -/
def combine (store : NodeKeys) (nodes : OidSet) : Option Secret :=
  nodes.toList.foldlM (fun acc n => (store.peek n).map fun key => acc ^^^ key) 0

theorem contains_iff_peek {store : NodeKeys} {o : Oid} :
    store.contains o ↔ ∃ k, store.peek o = some k := by
  rw [contains, Std.ExtTreeMap.contains_eq_isSome_getElem?, Option.isSome_iff_exists]
  rfl

/-- Eviction only drops keys. -/
theorem evict_get {capacity : ℕ} {order : List Oid} {keys : Std.ExtTreeMap Oid Secret} {o : Oid}
    {k : Secret} (h : (evict capacity order keys).2[o]? = some k) : keys[o]? = some k := by
  induction order generalizing keys with
  | nil => exact h
  | cons old rest ih =>
      rw [evict] at h
      split at h
      · have herased := ih h
        rw [Std.ExtTreeMap.getElem?_erase] at herased
        split at herased
        · cases herased
        · exact herased
      · exact h

/-- A key in the store after an insertion is the inserted one or was there before. -/
theorem peek_insert {store : NodeKeys} {oid o : Oid} {key k : Secret}
    (h : (store.insert oid key).peek o = some k) :
    if oid = o then key = k else store.peek o = some k := by
  have hkeys := evict_get h
  rw [Std.ExtTreeMap.getElem?_insert] at hkeys
  split
  · rename_i heq
    simpa [heq] using hkeys
  · rename_i hne
    simpa [hne, peek] using hkeys

end NodeKeys

section Derivation

variable (P : Primitives)

/-- Eight-byte version hint over the frontier and the membership root. -/
def versionOf (nodes : OidSet) (membershipRoot : BitVec 256) : BitVec 64 :=
  leading 64 (hash P "cfr/version" (bytesOf membershipRoot :: nodes.toList.map bytesOf))

/-- The node key of a contribution. -/
def nodeKey (secret parentCombined : Secret) (oid : Oid) : Secret :=
  kdf P secret "cfr/node" [bytesOf parentCombined, bytesOf oid]

/-- The group key of a frontier, if its node keys are held. -/
def groupKey (seed0 : Secret) (nodes : OidSet) (membershipRoot : BitVec 256) (store : NodeKeys) :
    Option Secret :=
  let combined := if nodes.isEmpty then some 0 else store.combine nodes
  combined.map fun combined =>
    let digest := hash P "cfr/frontier" (nodes.toList.map bytesOf)
    kdf P seed0 "cfr/group" [bytesOf combined, bytesOf membershipRoot, bytesOf digest]

/-- The commitment published with a contribution. -/
def commitment (secret : Secret) : BitVec 256 :=
  hash P "cfr/cid" [bytesOf secret]

end Derivation

end CausalFrontierRatchet.KeySchedule
