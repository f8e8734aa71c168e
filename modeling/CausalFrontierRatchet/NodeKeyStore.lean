import CausalFrontierRatchet.CanonicalKeys
import CausalFrontierRatchet.Recency

/-!
The bounded store of node keys over any sequence of insertions and touches.  It holds the keys of
the nodes used last, and combines those it holds.
-/

namespace CausalFrontierRatchet.NodeKeyStore

open Crypto Operation KeySchedule FrontierKeys CanonicalKeys Recency

/-! ## Runs -/

/-- One call on the store. -/
inductive Use
  | insert (oid : Oid) (key : Secret)
  | touch (oid : Oid)

/-- Marks a node key as recently used. -/
def touch (store : NodeKeys) (oid : Oid) : NodeKeys :=
  { store with order := NodeKeys.touch store.order oid }

def Use.apply (store : NodeKeys) : Use → NodeKeys
  | .insert oid key => store.insert oid key
  | .touch oid => NodeKeyStore.touch store oid

/-- A new store after a sequence of calls. -/
def run (capacity : ℕ) (uses : List Use) : NodeKeys :=
  uses.foldl Use.apply (.withCapacity capacity)

/-- The node a call uses: an insertion always, a touch only if its node is held. -/
def Use.counted (store : NodeKeys) : Use → List Oid
  | .insert oid _ => [oid]
  | .touch oid => if store.contains oid then [oid] else []

/-- The nodes used by a sequence of calls, in order. -/
def used (store : NodeKeys) : List Use → List Oid
  | [] => []
  | use :: uses => use.counted store ++ used (use.apply store) uses

/-- The key that was inserted last for a node. -/
def lastInserted (uses : List Use) (oid : Oid) : Option Secret :=
  uses.foldl (fun last use => match use with
    | .insert o key => if o = oid then some key else last
    | .touch _ => last) none

section Runs

variable (capacity : ℕ) (uses : List Use) (use : Use)

theorem run_append : run capacity (uses ++ [use]) = use.apply (run capacity uses) := by
  rw [run, List.foldl_append]
  rfl

theorem used_append (store : NodeKeys) : used store (uses ++ [use]) =
    used store uses ++ use.counted (uses.foldl Use.apply store) := by
  induction uses generalizing store with
  | nil => simp [used]
  | cons first uses ih => rw [List.cons_append, used, used, ih, List.append_assoc, List.foldl_cons]

theorem lastInserted_append (oid : Oid) : lastInserted (uses ++ [use]) oid =
    match use with
    | .insert o key => if o = oid then some key else lastInserted uses oid
    | .touch _ => lastInserted uses oid := by
  rw [lastInserted, List.foldl_append]
  rfl

end Runs

/-! ## What is held -/

section Held

variable {store : NodeKeys} {capacity : ℕ} {known : List Oid}

/-- The order, read backwards, is the nodes used last. -/
structure Recent (capacity : ℕ) (known : List Oid) (store : NodeKeys) : Prop where
  regular : Regular store
  bound : store.capacity = capacity
  order : store.order.reverse = known.take capacity

theorem recent_withCapacity (h : 1 ≤ capacity) : Recent capacity [] (.withCapacity capacity) where
  regular :=
    { nodup := List.nodup_nil
      held := by simp [NodeKeys.withCapacity]
      within := Nat.zero_le _ }
  bound := Nat.max_eq_left h
  order := by simp [NodeKeys.withCapacity]

theorem Recent.insert (h : Recent capacity known store) (hknown : known.Nodup) (oid : Oid)
    (key : Secret) : Recent capacity (remember known oid) (store.insert oid key) where
  regular := h.regular.insert oid key
  bound := h.bound
  order := by
    rw [order_insert, evict_eq, Eviction.evict_order, h.regular.reordered_eq,
      reverse_drop_move h.regular.nodup, h.order, h.bound, ← take_remember hknown]

/-- A node that is held is moved to the end; nothing has to leave for it. -/
theorem Recent.touch (h : Recent capacity known store) (hknown : known.Nodup) {oid : Oid}
    (hheld : store.contains oid) :
    Recent capacity (remember known oid) (NodeKeyStore.touch store oid) := by
  have hmem := h.regular.contains_iff.mp hheld
  have horder : (NodeKeyStore.touch store oid).order = store.order.erase oid ++ [oid] :=
    if_pos hmem
  have hlength : (store.order.erase oid ++ [oid]).length = store.order.length := by
    rw [List.length_append, List.length_singleton, List.length_erase_of_mem hmem,
      Nat.sub_add_cancel (List.length_pos_of_mem hmem)]
  constructor
  · have hsame := h.regular.reordered_eq oid
    constructor
    · rw [horder, ← hsame]
      exact h.regular.reordered_nodup oid
    · intro o
      rw [horder, ← hsame, h.regular.mem_reordered]
      constructor
      · rintro (rfl | ho)
        · exact (h.regular.held _).mp hmem
        · exact ho
      · exact Or.inr
    · rw [horder, hlength]
      exact h.regular.within
  · exact h.bound
  · have hnone : (store.order.erase oid ++ [oid]).length - capacity = 0 := by
      rw [hlength, ← h.bound]
      exact Nat.sub_eq_zero_of_le h.regular.within
    have hmove := reverse_drop_move h.regular.nodup oid capacity
    rw [hnone, List.drop_zero] at hmove
    rw [horder, hmove, h.order, ← take_remember hknown]

/-- A call keeps the store at the nodes used last. -/
theorem Recent.apply {nodes : List Oid} (h : Recent capacity (recents nodes) store) (use : Use) :
    Recent capacity (recents (nodes ++ use.counted store)) (use.apply store) := by
  cases use with
  | insert oid key =>
      rw [Use.counted, recents_append]
      exact h.insert (nodup_recents nodes) oid key
  | touch oid =>
      rw [Use.counted, Use.apply]
      split_ifs with hheld
      · rw [recents_append]
        exact h.touch (nodup_recents nodes) hheld
      · have hsame : NodeKeyStore.touch store oid = store := by
          rw [NodeKeyStore.touch, NodeKeys.touch,
            if_neg fun hmem => hheld (h.regular.contains_iff.mpr hmem)]
        rw [List.append_nil, hsame]
        exact h

theorem run_recent (h : 1 ≤ capacity) (uses : List Use) :
    Recent capacity (recents (used (.withCapacity capacity) uses)) (run capacity uses) := by
  induction uses using List.reverseRecOn with
  | nil => exact recent_withCapacity h
  | append_singleton uses use ih =>
      rw [run_append, used_append]
      exact ih.apply use

/-- A key that is held is the one inserted last. -/
theorem peek_run {uses : List Use} {oid : Oid} {key : Secret}
    (h : (run capacity uses).peek oid = some key) : lastInserted uses oid = some key := by
  induction uses using List.reverseRecOn with
  | nil => simp [run, NodeKeys.peek, NodeKeys.withCapacity] at h
  | append_singleton uses use ih =>
      rw [run_append] at h
      rw [lastInserted_append]
      cases use with
      | insert o k =>
          have hpeek := NodeKeys.peek_insert h
          dsimp only
          split_ifs at hpeek ⊢
          · rw [hpeek]
          · exact ih hpeek
      | touch o => exact ih h

/-- Combined keys do not depend on the order of combination. -/
theorem combine_perm {nodes : OidSet} {combined : Secret} (h : store.combine nodes = some combined)
    {list : List Oid} (hperm : list.Perm nodes.toList) :
    combined = (list.map fun o => (store.peek o).getD 0).foldl (· ^^^ ·) 0 := by
  obtain ⟨value, hvalue, rfl⟩ := combine_eq_some h
  have hsame : nodes.toList.map value = nodes.toList.map fun o => (store.peek o).getD 0 := by
    apply List.map_congr_left
    intro o ho
    rw [hvalue o ho, Option.getD_some]
  rw [hsame]
  exact ((hperm.map _).foldl_op_eq).symm

end Held

/-- The store holds the last nodes used, each with the key inserted last for it, and combines the
keys of any of them. -/
theorem node_key_store {capacity : ℕ} (hcapacity : 1 ≤ capacity) (uses : List Use) :
    (run capacity uses).order.Nodup ∧
    (∀ o, o ∈ (run capacity uses).order ↔ o ∈ (run capacity uses).keys) ∧
    (run capacity uses).order.length ≤ capacity ∧
    (run capacity uses).order.reverse =
      (recents (used (.withCapacity capacity) uses)).take capacity ∧
    (∀ o ∈ (run capacity uses).order, ∃ key, lastInserted uses o = some key ∧
      (run capacity uses).keys[o]? = some key) ∧
    ∀ nodes : OidSet,
      (((run capacity uses).combine nodes).isSome ↔ ∀ o ∈ nodes, o ∈ (run capacity uses).order) ∧
      ∀ combined, (run capacity uses).combine nodes = some combined →
        ∀ list : List Oid, list.Perm nodes.toList →
          combined = (list.map fun o => (lastInserted uses o).getD 0).foldl (· ^^^ ·) 0 := by
  have hrecent := run_recent hcapacity uses
  have hheld : ∀ o ∈ (run capacity uses).order, ∃ key, lastInserted uses o = some key ∧
      (run capacity uses).keys[o]? = some key := by
    intro o ho
    obtain ⟨key, hkey⟩ := NodeKeys.contains_iff_peek.mp (hrecent.regular.contains_iff.mpr ho)
    exact ⟨key, peek_run hkey, hkey⟩
  refine ⟨hrecent.regular.nodup, hrecent.regular.held, ?_, hrecent.order, hheld, ?_⟩
  · exact hrecent.regular.within.trans_eq hrecent.bound
  intro nodes
  have hsome : ((run capacity uses).combine nodes).isSome ↔
      ∀ o ∈ nodes, o ∈ (run capacity uses).order := by
    rw [combine_isSome_iff]
    exact forall₂_congr fun o _ => hrecent.regular.contains_iff
  refine ⟨hsome, ?_⟩
  intro combined hcombined list hperm
  rw [combine_perm hcombined hperm]
  congr 1
  apply List.map_congr_left
  intro o ho
  have hnode : o ∈ nodes := Std.ExtTreeSet.mem_toList.mp (hperm.mem_iff.mp ho)
  obtain ⟨key, hlast, hkey⟩ := hheld o (hsome.mp (hcombined ▸ rfl) o hnode)
  rw [NodeKeys.peek, hkey, hlast]

/-- A touched node outlives an older one. -/
theorem node_key_store_touched :
    (run 2 [.insert 1 5, .insert 2 6, .touch 1, .touch 9, .insert 3 7]).order = [1, 3] := by
  have hrecent := (node_key_store (show 1 ≤ 2 by decide)
    [.insert 1 5, .insert 2 6, .touch 1, .touch 9, .insert 3 7]).2.2.2.1
  rw [List.reverse_eq_iff] at hrecent
  rw [hrecent]
  decide +kernel

end CausalFrontierRatchet.NodeKeyStore
