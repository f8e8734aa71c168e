import CausalFrontierRatchet.OperationGraph

/-!
The topological listing of a graph.  The listing keeps a count of unlisted parents for each
operation and a stack of operations whose count is zero; it ends with every stored operation listed
once, after all its parents.
-/

namespace CausalFrontierRatchet.TopologicalOrder

open Relation Operation OperationGraph

/-- Every entry stands after all its parents. -/
def Follows (dag : Dag) (list : List Oid) : Prop :=
  ∀ pre o post, list = pre ++ o :: post → ∀ a, Parent dag a o → a ∈ pre

theorem follows_nil (dag : Dag) : Follows dag [] := by
  intro pre o post h
  simp at h

theorem Follows.snoc {dag : Dag} {list : List Oid} (h : Follows dag list) {cur : Oid}
    (hcur : ∀ a, Parent dag a cur → a ∈ list) : Follows dag (list ++ [cur]) := by
  intro pre o post hsplit a ha
  rcases List.eq_nil_or_concat post with rfl | ⟨post', last, rfl⟩
  · have hlast := List.append_inj' hsplit rfl
    rw [← hlast.1]
    simp only [List.cons.injEq, and_true] at hlast
    exact hcur a (hlast.2 ▸ ha)
  · have hsame : list ++ [cur] = (pre ++ o :: post') ++ [last] := by simpa using hsplit
    exact h pre o post' (List.append_inj' hsame rfl).1 a ha

/-! ## The tables -/

section Tables

variable {dag : Dag}

theorem nodup_parentsOf (o : Oid) : (dag.parentsOf o).Nodup := by
  unfold Dag.parentsOf
  cases dag.parents[o]? with
  | none => exact List.nodup_nil
  | some ps => exact nodup_toList ps

theorem indegrees_get (o : Oid) :
    dag.indegrees[o]? = if dag.contains o then some (dag.parentsOf o).length else none := by
  have hfold : ∀ (keys : List Oid) (indeg : Std.ExtTreeMap Oid ℕ),
      (keys.foldl (fun indeg oid => indeg.insert oid (dag.parentsOf oid).length) indeg)[o]? =
        if o ∈ keys then some (dag.parentsOf o).length else indeg[o]? := by
    intro keys
    induction keys with
    | nil => intro indeg; rfl
    | cons key keys ih =>
        intro indeg
        rw [List.foldl_cons, ih, Std.ExtTreeMap.getElem?_insert]
        by_cases hmem : o ∈ keys
        · simp [hmem]
        · by_cases heq : key = o
          · simp [heq]
          · simp [hmem, heq, Ne.symm heq]
  rw [Dag.indegrees, hfold]
  simp [Dag.contains, Std.ExtTreeMap.contains_iff_mem]

/-- The operations that record this one as a parent, each once. -/
def childrenOf (dag : Dag) (o : Oid) : List Oid :=
  dag.children[o]?.getD []

theorem addChild_get (ps : List Oid) (hps : ps.Nodup) (oid o : Oid)
    (children : Std.ExtTreeMap Oid (List Oid)) :
    (ps.foldl (fun children p => children.insert p (children[p]?.getD [] ++ [oid])) children)[o]?.getD
        [] = children[o]?.getD [] ++ if o ∈ ps then [oid] else [] := by
  induction ps generalizing children with
  | nil => simp
  | cons p ps ih =>
      have hsplit := List.nodup_cons.mp hps
      rw [List.foldl_cons, ih hsplit.2, Std.ExtTreeMap.getElem?_insert]
      by_cases heq : p = o
      · subst heq
        simp [hsplit.1]
      · simp [heq, Ne.symm heq]

theorem childrenOf_eq (o : Oid) :
    childrenOf dag o = (dag.parents.toList.filter fun entry => entry.2.contains o).map Prod.fst := by
  have hfold : ∀ (entries : List (Oid × OidSet)) (children : Std.ExtTreeMap Oid (List Oid)),
      (entries.foldl (fun children entry => entry.2.foldl (fun children p =>
        children.insert p (children[p]?.getD [] ++ [entry.1])) children) children)[o]?.getD [] =
      children[o]?.getD [] ++ (entries.filter fun entry => entry.2.contains o).map Prod.fst := by
    intro entries
    induction entries with
    | nil => simp
    | cons entry entries ih =>
        intro children
        rw [List.foldl_cons, ih, Std.ExtTreeSet.foldl_eq_foldl_toList,
          addChild_get _ (nodup_toList entry.2), List.filter_cons]
        by_cases hmem : o ∈ entry.2
        · simp [hmem]
        · simp [hmem]
  rw [childrenOf, Dag.children, Std.ExtTreeMap.foldl_eq_foldl_toList, hfold]
  simp

theorem mem_childrenOf {o c : Oid} : c ∈ childrenOf dag o ↔ Parent dag o c := by
  rw [childrenOf_eq, Parent, mem_parentsOf]
  simp [Std.ExtTreeMap.mem_toList_iff_getElem?_eq_some]

theorem nodup_childrenOf (o : Oid) : (childrenOf dag o).Nodup := by
  rw [childrenOf_eq]
  refine List.Nodup.sublist (List.Sublist.map Prod.fst List.filter_sublist) ?_
  rw [Std.ExtTreeMap.map_fst_toList_eq_keys]
  exact Std.ExtTreeMap.nodup_keys

end Tables

/-! ## One step -/

section Step

theorem release_indeg {cs : List Oid} (hcs : cs.Nodup) (indeg : Std.ExtTreeMap Oid ℕ)
    (ready : List Oid) (o : Oid) :
    (Dag.release cs (indeg, ready)).1[o]? =
      if o ∈ cs then indeg[o]?.map (· - 1) else indeg[o]? := by
  induction cs generalizing indeg ready with
  | nil => rfl
  | cons c cs ih =>
      have hsplit := List.nodup_cons.mp hcs
      rw [Dag.release]
      split
      · rename_i d hd
        rw [ih hsplit.2, Std.ExtTreeMap.getElem?_insert]
        by_cases heq : c = o
        · subst heq
          simp [hsplit.1, hd]
        · simp [heq, Ne.symm heq]
      · rename_i hd
        rw [ih hsplit.2]
        by_cases heq : c = o
        · subst heq
          simp [hsplit.1, hd]
        · simp [Ne.symm heq]

theorem release_ready {cs : List Oid} (hcs : cs.Nodup) {indeg : Std.ExtTreeMap Oid ℕ}
    (hkeys : ∀ c ∈ cs, c ∈ indeg) (ready : List Oid) :
    (Dag.release cs (indeg, ready)).2 =
      (cs.filter fun c => indeg[c]?.map (· - 1) = some 0).reverse ++ ready := by
  induction cs generalizing indeg ready with
  | nil => rfl
  | cons c cs ih =>
      have hsplit := List.nodup_cons.mp hcs
      have hd : ∃ d, indeg[c]? = some d :=
        Option.isSome_iff_exists.mp
          (Std.ExtTreeMap.mem_iff_isSome_getElem?.mp (hkeys c List.mem_cons_self))
      obtain ⟨d, hd⟩ := hd
      have hrest : ∀ x ∈ cs, (indeg.insert c (d - 1))[x]? = indeg[x]? := by
        intro x hx
        rw [Std.ExtTreeMap.getElem?_insert]
        have hne : c ≠ x := fun heq => hsplit.1 (heq ▸ hx)
        simp [hne]
      have hfilter : (cs.filter fun x => (indeg.insert c (d - 1))[x]?.map (· - 1) = some 0) =
          cs.filter fun x => indeg[x]?.map (· - 1) = some 0 :=
        List.filter_congr fun x hx => by rw [hrest x hx]
      simp only [Dag.release, hd]
      rw [ih hsplit.2 (fun x hx => by
        rw [Std.ExtTreeMap.mem_insert]
        exact Or.inr (hkeys x (List.mem_cons_of_mem _ hx))), hfilter, List.filter_cons]
      by_cases hzero : d - 1 = 0
      · simp [hd, hzero]
      · simp [hd, hzero]

variable {dag : Dag}

/-- The parents of an operation that are not listed yet. -/
def unlisted (dag : Dag) (listed : List Oid) (o : Oid) : List Oid :=
  (dag.parentsOf o).filter fun a => a ∉ listed

theorem unlisted_eq_nil {listed : List Oid} {o : Oid} :
    unlisted dag listed o = [] ↔ ∀ a, Parent dag a o → a ∈ listed := by
  simp [unlisted, Parent]

theorem unlisted_snoc {listed : List Oid} {cur o : Oid} (hcur : cur ∉ listed) :
    (unlisted dag (listed ++ [cur]) o).length =
      if cur ∈ dag.parentsOf o then (unlisted dag listed o).length - 1
      else (unlisted dag listed o).length := by
  have hsplit : unlisted dag (listed ++ [cur]) o = (unlisted dag listed o).erase cur := by
    have hnodup : (unlisted dag listed o).Nodup := (nodup_parentsOf o).filter _
    rw [hnodup.erase_eq_filter, unlisted, unlisted, List.filter_filter]
    refine List.filter_congr fun a _ => ?_
    by_cases heq : a = cur
    · simp [heq]
    · simp [heq]
  rw [hsplit]
  split_ifs with hparent
  · refine List.length_erase_of_mem ?_
    simpa [unlisted] using ⟨hparent, hcur⟩
  · rw [List.erase_of_not_mem]
    intro hmem
    exact hparent (List.mem_filter.mp hmem).1

/-- What the listing maintains: the counts are those of the unlisted parents, and the operations
whose parents are all listed are listed themselves or ready. -/
structure Progress (dag : Dag) (listed : List Oid) (indeg : Std.ExtTreeMap Oid ℕ)
    (ready : List Oid) : Prop where
  nodup : (listed ++ ready).Nodup
  stored : ∀ o ∈ listed ++ ready, dag.contains o
  follows : Follows dag listed
  counts : ∀ o, dag.contains o → indeg[o]? = some (unlisted dag listed o).length
  ready : ∀ o, dag.contains o → (o ∈ listed ++ ready ↔ ∀ a, Parent dag a o → a ∈ listed)

theorem progress_start (dag : Dag) : Progress dag [] dag.indegrees
    ((dag.indegrees.toList.filter fun entry => entry.2 = 0).map Prod.fst).reverse := by
  have hmem : ∀ o, o ∈ ((dag.indegrees.toList.filter fun entry => entry.2 = 0).map Prod.fst) ↔
      dag.contains o ∧ dag.parentsOf o = [] := by
    intro o
    have hentry : o ∈ (dag.indegrees.toList.filter fun entry => entry.2 = 0).map Prod.fst ↔
        dag.indegrees[o]? = some 0 := by
      simp
    rw [hentry, indegrees_get, ← List.length_eq_zero_iff]
    split_ifs with hstored <;> simp [hstored]
  constructor
  · rw [List.nil_append, List.nodup_reverse]
    refine List.Nodup.sublist (List.Sublist.map Prod.fst List.filter_sublist) ?_
    rw [Std.ExtTreeMap.map_fst_toList_eq_keys]
    exact Std.ExtTreeMap.nodup_keys
  · intro o ho
    rw [List.nil_append, List.mem_reverse, hmem] at ho
    exact ho.1
  · exact follows_nil dag
  · intro o ho
    rw [indegrees_get, if_pos ho, unlisted]
    simp
  · intro o ho
    rw [List.nil_append, List.mem_reverse, hmem, List.eq_nil_iff_forall_not_mem]
    simp [ho, Parent]

theorem Progress.step (hcausal : Causal dag) {listed ready : List Oid} {cur : Oid}
    {indeg : Std.ExtTreeMap Oid ℕ} (h : Progress dag listed indeg (cur :: ready)) :
    Progress dag (listed ++ [cur]) (Dag.release (childrenOf dag cur) (indeg, ready)).1
      (Dag.release (childrenOf dag cur) (indeg, ready)).2 := by
  have hchild : ∀ c ∈ childrenOf dag cur, dag.contains c := by
    intro c hc
    exact (hcausal.within (mem_childrenOf.mp hc)).2
  have hcur : cur ∉ listed := by
    intro hmem
    exact (List.nodup_append.mp h.nodup).2.2 cur hmem cur List.mem_cons_self rfl
  have hcurStored : dag.contains cur := h.stored cur (by simp)
  have hcurParents := (h.ready cur hcurStored).mp (by simp)
  have hcounts : ∀ o, dag.contains o → (Dag.release (childrenOf dag cur) (indeg, ready)).1[o]? =
      some (unlisted dag (listed ++ [cur]) o).length := by
    intro o ho
    rw [release_indeg (nodup_childrenOf cur), h.counts o ho, unlisted_snoc hcur]
    simp only [mem_childrenOf, Parent]
    split_ifs <;> rfl
  -- A child that becomes ready had this operation as its last unlisted parent.
  obtain ⟨fresh, hready, hnodup, hfresh⟩ : ∃ fresh : List Oid,
      (Dag.release (childrenOf dag cur) (indeg, ready)).2 = fresh.reverse ++ ready ∧ fresh.Nodup ∧
        ∀ o, o ∈ fresh ↔ Parent dag cur o ∧ unlisted dag (listed ++ [cur]) o = [] := by
    refine ⟨_, release_ready (nodup_childrenOf cur) (fun c hc => ?_) ready,
      (nodup_childrenOf cur).filter _, fun o => ?_⟩
    · rw [Std.ExtTreeMap.mem_iff_isSome_getElem?, h.counts c (hchild c hc)]
      rfl
    · rw [List.mem_filter, mem_childrenOf]
      refine and_congr_right fun hparent => ?_
      rw [h.counts o (hchild o (mem_childrenOf.mpr hparent)), ← List.length_eq_zero_iff,
        unlisted_snoc hcur, if_pos (show cur ∈ dag.parentsOf o from hparent)]
      simp
  rw [hready]
  constructor
  · have hdisjoint : ∀ a ∈ fresh, ∀ b ∈ listed ++ cur :: ready, a ≠ b := by
      intro a ha b hb heq
      subst heq
      have hparent := ((hfresh a).mp ha).1
      exact hcur ((h.ready a (h.stored a hb)).mp hb cur hparent)
    refine (List.Perm.nodup_iff ?_).mpr (List.nodup_append.mpr ⟨hnodup, h.nodup, hdisjoint⟩)
    rw [List.perm_iff_count]
    intro a
    simp only [List.count_append, List.count_cons, List.count_reverse, List.count_nil]
    omega
  · intro o ho
    simp only [List.mem_append, List.mem_singleton, List.mem_reverse, hfresh] at ho
    rcases ho with (hold | rfl) | ⟨hparent, -⟩ | hold
    · exact h.stored o (by simp [hold])
    · exact hcurStored
    · exact (hcausal.within hparent).2
    · exact h.stored o (by simp [hold])
  · exact h.follows.snoc hcurParents
  · exact hcounts
  · intro o ho
    rw [← unlisted_eq_nil]
    have hbefore := h.ready o ho
    simp only [List.mem_append, List.mem_cons, List.mem_reverse, hfresh] at hbefore ⊢
    by_cases hparent : Parent dag cur o
    · -- Not all its parents were listed before.
      have hwaiting : ¬(o ∈ listed ∨ o = cur ∨ o ∈ ready) :=
        fun hin => hcur (hbefore.mp hin cur hparent)
      tauto
    · have hsame : unlisted dag (listed ++ [cur]) o = [] ↔ unlisted dag listed o = [] := by
        rw [← List.length_eq_zero_iff, unlisted_snoc hcur,
          if_neg (show cur ∉ dag.parentsOf o from hparent), List.length_eq_zero_iff]
      rw [hsame, unlisted_eq_nil]
      tauto

end Step

/-! ## The whole listing -/

section Listing

variable {dag : Dag}

/-- When nothing is ready, everything is listed: an unlisted operation of least rank would be
ready. -/
theorem Progress.done (hcausal : Causal dag) {listed : List Oid} {indeg : Std.ExtTreeMap Oid ℕ}
    (h : Progress dag listed indeg []) {o : Oid} (ho : dag.contains o) : o ∈ listed := by
  obtain ⟨rank, hrank⟩ := hcausal.ranked
  induction hn : rank o using Nat.strong_induction_on generalizing o with
  | _ n ih =>
      have hparents : ∀ a, Parent dag a o → a ∈ listed := by
        intro a ha
        exact ih (rank a) (hn ▸ hrank a o ha) (hcausal.within ha).1 rfl
      simpa using (h.ready o ho).mpr hparents

/-- A listing as long as the graph has everything. -/
theorem Progress.full {listed ready : List Oid} {indeg : Std.ExtTreeMap Oid ℕ}
    (h : Progress dag listed indeg ready) (hlength : dag.ops.size ≤ listed.length) {o : Oid}
    (ho : dag.contains o) : o ∈ listed := by
  have hsubset : listed ⊆ dag.ops.keys := by
    intro a ha
    rw [Std.ExtTreeMap.mem_keys, ← Std.ExtTreeMap.contains_iff_mem]
    exact h.stored a (List.mem_append_left _ ha)
  have hperm : listed.Perm dag.ops.keys := by
    refine (List.subperm_of_subset (List.nodup_append.mp h.nodup).1 hsubset).perm_of_length_le ?_
    rwa [Std.ExtTreeMap.length_keys]
  rw [hperm.mem_iff, Std.ExtTreeMap.mem_keys, ← Std.ExtTreeMap.contains_iff_mem]
  exact ho

theorem listReady_spec (hcausal : Causal dag) (fuel : ℕ) {listed ready : List Oid}
    {indeg : Std.ExtTreeMap Oid ℕ} (h : Progress dag listed indeg ready)
    (hfuel : dag.ops.size ≤ listed.length + fuel) :
    (listed ++ Dag.listReady dag.children fuel indeg ready).Nodup ∧
      Follows dag (listed ++ Dag.listReady dag.children fuel indeg ready) ∧
      ∀ o, o ∈ listed ++ Dag.listReady dag.children fuel indeg ready ↔ dag.contains o := by
  have hend : ∀ {listed ready : List Oid} {indeg : Std.ExtTreeMap Oid ℕ},
      Progress dag listed indeg ready → (∀ o, dag.contains o → o ∈ listed) →
      (listed ++ []).Nodup ∧ Follows dag (listed ++ []) ∧
        ∀ o, o ∈ listed ++ [] ↔ dag.contains o := by
    intro listed ready indeg h hall
    rw [List.append_nil]
    refine ⟨(List.nodup_append.mp h.nodup).1, h.follows, fun o => ⟨fun ho => ?_, hall o⟩⟩
    exact h.stored o (List.mem_append_left _ ho)
  induction fuel generalizing listed ready indeg with
  | zero => exact hend h fun o ho => h.full hfuel ho
  | succ fuel ih =>
      cases ready with
      | nil => exact hend h fun o ho => h.done hcausal ho
      | cons cur ready =>
          have hstep := ih (h.step hcausal) (by
            rw [List.length_append, List.length_singleton]
            omega)
          rw [List.append_assoc, List.singleton_append] at hstep
          exact hstep

/-- The topological listing has every stored operation once, after all its parents. -/
theorem topological_spec (hcausal : Causal dag) :
    dag.topological.Nodup ∧ Follows dag dag.topological ∧
      ∀ o, o ∈ dag.topological ↔ dag.contains o := by
  have hstart := listReady_spec hcausal dag.ops.size (progress_start dag) (by simp)
  rw [List.nil_append] at hstart
  exact hstart

theorem topological_perm (hcausal : Causal dag) : dag.topological.Perm dag.ops.keys := by
  obtain ⟨hnodup, -, hmem⟩ := topological_spec hcausal
  apply (List.perm_ext_iff_of_nodup hnodup Std.ExtTreeMap.nodup_keys).mpr
  intro o
  rw [hmem, Std.ExtTreeMap.mem_keys, Dag.contains, Std.ExtTreeMap.contains_iff_mem]

end Listing

end CausalFrontierRatchet.TopologicalOrder
