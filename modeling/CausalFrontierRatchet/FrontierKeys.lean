import CausalFrontierRatchet.Eviction
import CausalFrontierRatchet.MemberRuns

/-!
The frontier of a graph in terms of the causal order, and the node-key store as a bounded map: its
order lists what is held, and within the capacity nothing is dropped.
-/

namespace CausalFrontierRatchet.FrontierKeys

open Relation Crypto Operation OperationGraph KeySchedule Member MemberSteps MemberRuns

/-! ## The frontier -/

section Frontier

variable {P : Primitives} {dag dag' : Dag}

def Contribution (dag : Dag) (o : Oid) : Prop :=
  ∃ op, dag.get o = some op ∧ op.kind = .contrib

theorem mem_contributions {o : Oid} : o ∈ contributions dag ↔ Contribution dag o := by
  simp [contributions, Contribution, Dag.get]

theorem mem_foldl_ancestors (nodes : List Oid) (covered : OidSet) (o : Oid) :
    o ∈ nodes.foldl (fun covered n => covered ∪ dag.ancestors n) covered ↔
      o ∈ covered ∨ ∃ n ∈ nodes, Before dag o n := by
  induction nodes generalizing covered with
  | nil => simp
  | cons n nodes ih => simp [ih, mem_ancestors, or_assoc]

/-- The frontier holds the contributions that no contribution follows. -/
theorem mem_frontier {o : Oid} :
    o ∈ frontier dag ↔ Contribution dag o ∧ ∀ n, Contribution dag n → ¬Before dag o n := by
  rw [KeySchedule.frontier, Std.ExtTreeSet.mem_ofList, List.contains_iff_mem, List.mem_filter,
    mem_contributions]
  refine and_congr_right fun _ => ?_
  rw [Bool.not_eq_true', ← Bool.not_eq_true, Std.ExtTreeSet.contains_iff_mem, mem_foldl_ancestors]
  simp [mem_contributions]

/-- Every contribution is in the frontier or lies before an element of it. -/
theorem exists_frontier (h : Causal dag) {o : Oid} (ho : Contribution dag o) :
    ∃ n ∈ frontier dag, o = n ∨ Before dag o n := by
  classical
  obtain ⟨rank, hrank⟩ := h.ranked
  -- Among the contributions at or ahead of this one, one of greatest rank is in the frontier.
  let ahead := (contributions dag).toFinset.filter fun n => o = n ∨ Before dag o n
  have hmem : ∀ n, n ∈ ahead ↔ Contribution dag n ∧ (o = n ∨ Before dag o n) := by
    intro n
    simp only [ahead, Finset.mem_filter, List.mem_toFinset, mem_contributions]
  obtain ⟨n, hn, hmax⟩ := ahead.exists_max_image rank ⟨o, (hmem o).mpr ⟨ho, Or.inl rfl⟩⟩
  obtain ⟨hcontribution, hahead⟩ := (hmem n).mp hn
  refine ⟨n, mem_frontier.mpr ⟨hcontribution, fun k hk hnk => ?_⟩, hahead⟩
  have hok : Before dag o k := by
    rcases hahead with rfl | hon
    · exact hnk
    · exact hon.trans hnk
  exact absurd (rank_lt_of_before hrank hnk) (not_lt.mpr (hmax k ((hmem k).mpr ⟨hk, Or.inr hok⟩)))

/-- An operation other than a contribution leaves the frontier as it is. -/
theorem frontier_added {op : Op} (hadd : Added P dag op dag') (hsound : Sound P dag)
    (hkind : op.kind ≠ .contrib) : frontier dag' = frontier dag := by
  have hcontribution : ∀ o, Contribution dag' o ↔ Contribution dag o := by
    intro o
    unfold Contribution
    rw [hadd.get]
    split_ifs with heq
    · constructor
      · intro ⟨op', hsame, hop⟩
        cases hsame
        exact absurd hop hkind
      · intro ⟨op', hop', _⟩
        exact absurd heq (hadd.ne_of_contains (contains_iff.mpr ⟨op', hop'⟩))
    · rfl
  refine Std.ExtTreeSet.ext_mem fun o => ?_
  rw [mem_frontier, mem_frontier, hcontribution]
  refine and_congr_right fun _ => forall_congr' fun n => ?_
  rw [hcontribution]
  refine forall_congr' fun ⟨op', hop', _⟩ => ?_
  rw [hadd.before_iff hsound (contains_iff.mpr ⟨op', hop'⟩)]

end Frontier

/-! ## The node-key store -/

section Store

variable {store : NodeKeys}

/-- The order lists what is held, once each, and stays within the capacity. -/
structure Regular (store : NodeKeys) : Prop where
  nodup : store.order.Nodup
  held : ∀ o, o ∈ store.order ↔ o ∈ store.keys
  within : store.order.length ≤ store.capacity

theorem regular_default : Regular .default where
  nodup := List.nodup_nil
  held o := by simp [NodeKeys.default, NodeKeys.withCapacity]
  within := Nat.zero_le _

theorem evict_within {capacity : ℕ} {order : List Oid} (keys : Std.ExtTreeMap Oid Secret)
    (h : order.length ≤ capacity) : NodeKeys.evict capacity order keys = (order, keys) := by
  cases order with
  | nil => rfl
  | cons old rest => exact if_neg (by simpa using h)

theorem evict_eq (capacity : ℕ) (order : List Oid) (keys : Std.ExtTreeMap Oid Secret) :
    NodeKeys.evict capacity order keys = Eviction.evict capacity order keys := by
  induction order generalizing keys with
  | nil => rfl
  | cons old rest ih => rw [NodeKeys.evict, Eviction.evict, ih]

theorem evict_regular (capacity : ℕ) {order : List Oid} {keys : Std.ExtTreeMap Oid Secret}
    (hnodup : order.Nodup) (hheld : ∀ o, o ∈ order ↔ o ∈ keys) :
    (NodeKeys.evict capacity order keys).1.Nodup ∧
      (∀ o, o ∈ (NodeKeys.evict capacity order keys).1 ↔
        o ∈ (NodeKeys.evict capacity order keys).2) ∧
      (NodeKeys.evict capacity order keys).1.length ≤ capacity := by
  rw [evict_eq]
  exact ⟨Eviction.nodup_evict _ _ hnodup,
    fun o => (Eviction.mem_evict hnodup (fun k => (hheld k).symm) o).symm,
    Eviction.length_evict_le _ _ _⟩

/-- The eviction order right after an identifier has been put in. -/
def reordered (store : NodeKeys) (oid : Oid) : List Oid :=
  if store.keys.contains oid then NodeKeys.touch store.order oid else store.order ++ [oid]

theorem Regular.reordered_eq (h : Regular store) (oid : Oid) :
    reordered store oid = store.order.erase oid ++ [oid] := by
  unfold reordered NodeKeys.touch
  by_cases hold : oid ∈ store.order
  · rw [if_pos (Std.ExtTreeMap.contains_iff_mem.mpr ((h.held oid).mp hold)), if_pos hold]
  · rw [if_neg fun hkey => hold ((h.held oid).mpr (Std.ExtTreeMap.contains_iff_mem.mp hkey)),
      List.erase_of_not_mem hold]

theorem Regular.mem_reordered (h : Regular store) (oid o : Oid) :
    o ∈ reordered store oid ↔ oid = o ∨ o ∈ store.keys := by
  rw [h.reordered_eq, List.mem_append, List.mem_singleton, h.nodup.mem_erase_iff, h.held,
    eq_comm (a := o)]
  by_cases heq : oid = o
  · simp [heq]
  · simp [heq, Ne.symm heq]

theorem Regular.reordered_nodup (h : Regular store) (oid : Oid) : (reordered store oid).Nodup := by
  rw [h.reordered_eq]
  refine List.nodup_append.mpr ⟨h.nodup.erase _, List.nodup_singleton _, ?_⟩
  intro a ha b hb heq
  rw [List.mem_singleton.mp hb] at heq
  exact (h.nodup.mem_erase_iff.mp ha).1 heq

theorem Regular.insert (h : Regular store) (oid : Oid) (key : Secret) :
    Regular (store.insert oid key) := by
  have hheld : ∀ o, o ∈ reordered store oid ↔ o ∈ store.keys.insert oid key := by
    intro o
    rw [h.mem_reordered, Std.ExtTreeMap.mem_insert, Std.compare_eq_iff_eq]
  obtain ⟨hnodup, hevicted, hwithin⟩ := evict_regular store.capacity (h.reordered_nodup oid) hheld
  exact ⟨hnodup, hevicted, hwithin⟩

/-- With room left, an insertion drops nothing. -/
theorem Regular.peek_insert (h : Regular store) {oid : Oid}
    (hroom : store.order.length < store.capacity) (key : Secret) (o : Oid) :
    (store.insert oid key).peek o = if oid = o then some key else store.peek o := by
  have hshort : (reordered store oid).length ≤ store.capacity := by
    rw [h.reordered_eq, List.length_append, List.length_singleton]
    exact (Nat.add_le_add_right (List.erase_sublist.length_le) 1).trans hroom
  have hkeys : (store.insert oid key).keys = store.keys.insert oid key :=
    congrArg Prod.snd (evict_within _ hshort)
  rw [NodeKeys.peek, hkeys, Std.ExtTreeMap.getElem?_insert]
  simp [NodeKeys.peek]

theorem Regular.length_insert (h : Regular store) (hroom : store.order.length < store.capacity)
    (oid : Oid) (key : Secret) :
    (store.insert oid key).order.length ≤ store.order.length + 1 := by
  have hshort : (reordered store oid).length ≤ store.order.length + 1 := by
    rw [h.reordered_eq, List.length_append, List.length_singleton]
    exact Nat.add_le_add_right (List.erase_sublist.length_le) 1
  have horder : (store.insert oid key).order = reordered store oid :=
    congrArg Prod.fst (evict_within _ (hshort.trans hroom))
  rwa [horder]

/-- The store that receives a list of entries one by one. -/
def storeAll (store : NodeKeys) (entries : List (Oid × Secret)) : NodeKeys :=
  entries.foldl (fun store entry => store.insert entry.1 entry.2) store

theorem Regular.peek_storeAll (h : Regular store) {entries : List (Oid × Secret)}
    (hroom : store.order.length + entries.length ≤ store.capacity)
    (hnodup : (entries.map Prod.fst).Nodup) :
    (∀ entry ∈ entries, (storeAll store entries).peek entry.1 = some entry.2) ∧
      ∀ o ∉ entries.map Prod.fst, (storeAll store entries).peek o = store.peek o := by
  induction entries generalizing store with
  | nil => exact ⟨by simp, fun o _ => rfl⟩
  | cons entry entries ih =>
      rw [List.length_cons] at hroom
      have hsplit := List.nodup_cons.mp hnodup
      have hlength := h.length_insert (by omega) entry.1 entry.2
      have hrest := ih (h.insert entry.1 entry.2) (by
        change _ ≤ store.capacity
        omega) hsplit.2
      constructor
      · intro e he
        rcases List.mem_cons.mp he with rfl | htail
        · refine (hrest.2 e.1 hsplit.1).trans ?_
          rw [h.peek_insert (by omega), if_pos rfl]
        · exact hrest.1 e htail
      · intro o ho
        simp only [List.map_cons, List.mem_cons, not_or] at ho
        refine (hrest.2 o ho.2).trans ?_
        rw [h.peek_insert (by omega), if_neg (Ne.symm ho.1)]

/-- Only the keys of the combined nodes matter. -/
theorem combine_congr {store' : NodeKeys} {nodes : OidSet}
    (h : ∀ n ∈ nodes, store.peek n = store'.peek n) : store.combine nodes = store'.combine nodes := by
  have hfold : ∀ (list : List Oid) (acc : Secret), (∀ n ∈ list, store.peek n = store'.peek n) →
      list.foldlM (fun acc n => (store.peek n).map fun key => acc ^^^ key) acc =
        list.foldlM (fun acc n => (store'.peek n).map fun key => acc ^^^ key) acc := by
    intro list
    induction list with
    | nil => intro acc _; rfl
    | cons n list ih =>
        intro acc hsame
        rw [List.foldlM_cons, List.foldlM_cons, hsame n List.mem_cons_self]
        refine congrArg _ (funext fun acc' => ?_)
        exact ih acc' fun m hm => hsame m (List.mem_cons_of_mem _ hm)
  exact hfold _ 0 fun n hn => h n (Std.ExtTreeSet.mem_toList.mp hn)

/-- A participant's store is regular and of the fixed capacity. -/
def Stocked (p : Participant) : Prop :=
  Regular p.nodekeys ∧ p.nodekeys.capacity = OVERLAP

theorem Steps.stocked {P : Primitives} {src : Op → Prop} {rep : Oid → Secret → Prop}
    {p p' : Participant} (h : Steps P src rep p p') (hp : Stocked p) : Stocked p' := by
  induction h with
  | refl => exact hp
  | tail _ hupdate ih =>
      cases hupdate with
      | absorbed => exact ⟨ih.1.insert _ _, ih.2⟩
      | repaired => exact ⟨ih.1.insert _ _, ih.2⟩
      | _ => exact ih

theorem Reach.stocked {P : Primitives} {src : Op → Prop} {rep : Oid → Secret → Prop}
    {p : Participant} (h : Reach P src rep p) : Stocked p := by
  obtain ⟨_, _, _, _, _, _, hsteps⟩ := h.steps
  exact Steps.stocked hsteps ⟨regular_default, rfl⟩

/-- Nodes can be combined when all their keys are held. -/
theorem combine_isSome_iff {nodes : OidSet} :
    (store.combine nodes).isSome ↔ ∀ n ∈ nodes, store.contains n := by
  have hfold : ∀ (list : List Oid) (acc : Secret),
      (list.foldlM (fun acc n => (store.peek n).map fun key => acc ^^^ key) acc).isSome ↔
        ∀ n ∈ list, store.contains n := by
    intro list
    induction list with
    | nil => simp
    | cons n list ih =>
        intro acc
        rw [List.foldlM_cons, List.forall_mem_cons, NodeKeys.contains_iff_peek]
        cases hpeek : store.peek n with
        | none => simp
        | some key => simpa using ih (acc ^^^ key)
  rw [NodeKeys.combine, hfold]
  exact forall_congr' fun n => by rw [Std.ExtTreeSet.mem_toList]

/-- A participant that holds the keys of its frontier can derive the group key. -/
theorem groupKey_isSome {P : Primitives} {p : Participant}
    (h : ∀ n ∈ p.frontier, p.nodekeys.contains n) : (p.groupKey P).isSome := by
  rw [Participant.groupKey, KeySchedule.groupKey, Option.isSome_map]
  split_ifs
  · rfl
  · exact combine_isSome_iff.mpr h

/-- Nodes whose keys are all held are no more than the store may hold. -/
theorem size_le_of_combine (h : Regular store) {nodes : OidSet}
    (hcombine : (store.combine nodes).isSome) : nodes.size ≤ store.capacity := by
  have hheld : nodes.toList ⊆ store.order := by
    intro n hn
    rw [h.held, ← Std.ExtTreeMap.contains_iff_mem]
    exact combine_isSome_iff.mp hcombine n (Std.ExtTreeSet.mem_toList.mp hn)
  calc nodes.size = nodes.toList.length := Std.ExtTreeSet.length_toList.symm
    _ ≤ store.order.length := ((nodup_toList nodes).subperm hheld).length_le
    _ ≤ store.capacity := h.within

/-- The insertion of a node makes room by dropping another one. -/
def Displaces (store : NodeKeys) (oid n : Oid) : Prop :=
  store.order.length = store.capacity ∧ ¬store.contains oid ∧ store.order.head? = some n

theorem evict_over {capacity : ℕ} {old : Oid} {rest : List Oid} (h : rest.length = capacity)
    (keys : Std.ExtTreeMap Oid Secret) :
    NodeKeys.evict capacity (old :: rest) keys = (rest, keys.erase old) := by
  rw [NodeKeys.evict, if_pos (h ▸ Nat.lt_succ_self _), evict_within _ h.le]

theorem Regular.contains_iff (h : Regular store) {n : Oid} : store.contains n ↔ n ∈ store.order := by
  rw [NodeKeys.contains, Std.ExtTreeMap.contains_iff_mem, h.held]

theorem order_insert (store : NodeKeys) (oid : Oid) (key : Secret) :
    (store.insert oid key).order =
      (NodeKeys.evict store.capacity (reordered store oid) (store.keys.insert oid key)).1 :=
  rfl

/-- A store that is not full, or holds the inserted node already, keeps all nodes. -/
theorem Regular.contains_insert_room (h : Regular store) {oid : Oid} (key : Secret)
    (hroom : store.order.length < store.capacity ∨ store.contains oid) (n : Oid) :
    (store.insert oid key).contains n ↔ oid = n ∨ store.contains n := by
  have hshort : (reordered store oid).length ≤ store.capacity := by
    rw [h.reordered_eq, List.length_append, List.length_singleton]
    rcases hroom with hless | hheld
    · exact (Nat.add_le_add_right List.erase_sublist.length_le 1).trans hless
    · have hmem := h.contains_iff.mp hheld
      rw [List.length_erase_of_mem hmem, Nat.sub_add_cancel (List.length_pos_of_mem hmem)]
      exact h.within
  rw [(h.insert oid key).contains_iff, order_insert, evict_within _ hshort, h.mem_reordered,
    NodeKeys.contains, Std.ExtTreeMap.contains_iff_mem]

/-- A full store drops the oldest node for a new one. -/
theorem Regular.contains_insert_full (h : Regular store) {oid old : Oid} {rest : List Oid}
    (key : Secret) (hfull : store.order.length = store.capacity) (hnew : ¬store.contains oid)
    (horder : store.order = old :: rest) (n : Oid) :
    (store.insert oid key).contains n ↔ oid = n ∨ (store.contains n ∧ n ≠ old) := by
  have hre : reordered store oid = old :: (rest ++ [oid]) := by
    rw [h.reordered_eq, List.erase_of_not_mem fun hmem => hnew (h.contains_iff.mpr hmem), horder]
    rfl
  have hlength : (rest ++ [oid]).length = store.capacity := by
    rw [List.length_append, List.length_singleton, ← hfull, horder, List.length_cons]
  have hold : old ∉ rest := (List.nodup_cons.mp (horder ▸ h.nodup)).1
  rw [(h.insert oid key).contains_iff, order_insert, hre, evict_over hlength, h.contains_iff, horder,
    List.mem_append, List.mem_singleton, List.mem_cons, or_comm, eq_comm (a := n) (b := oid)]
  refine or_congr_right ⟨fun hn => ⟨Or.inr hn, ?_⟩, fun hn => hn.1.resolve_left hn.2⟩
  rintro rfl
  exact hold hn

/-- After an insertion, a node is held if it was inserted or held and is not displaced. -/
theorem Regular.contains_insert_iff (h : Regular store) (hpos : 0 < store.capacity) (oid : Oid)
    (key : Secret) (n : Oid) :
    (store.insert oid key).contains n ↔
      oid = n ∨ (store.contains n ∧ ¬Displaces store oid n) := by
  by_cases hroom : store.order.length < store.capacity ∨ store.contains oid
  · rw [h.contains_insert_room key hroom]
    refine or_congr_right (and_iff_left ?_).symm
    rintro ⟨hfull, hnew, -⟩
    rcases hroom with hless | hheld
    · exact absurd hfull hless.ne
    · exact hnew hheld
  · rw [not_or, Nat.not_lt] at hroom
    have hfull := le_antisymm h.within hroom.1
    cases horder : store.order with
    | nil =>
        rw [horder] at hfull
        exact absurd hfull hpos.ne
    | cons old rest =>
        rw [h.contains_insert_full key hfull hroom.2 horder]
        refine or_congr_right (and_congr_right fun _ => not_congr ?_)
        rw [Displaces, horder, ← horder, and_iff_right hfull, and_iff_right hroom.2, horder,
          List.head?_cons, Option.some_inj, eq_comm]

end Store

end CausalFrontierRatchet.FrontierKeys
