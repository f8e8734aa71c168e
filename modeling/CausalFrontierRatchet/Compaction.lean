import CausalFrontierRatchet.Contraction
import CausalFrontierRatchet.InsertionOrder

/-!
Compaction of the operation graph.  The operations that are not kept are dropped, and each kept
operation gets as parents the nearest kept ones on the paths into its past.  The graphs that
insertion and compaction reach are causal orders, and compaction leaves the order of what is kept as
it was.
-/

namespace CausalFrontierRatchet.OperationGraph.Dag

open Operation

/-- Walks into the past: a dropped operation is replaced by its parents, a kept one is collected. -/
def walk (dag : Dag) (dropped : OidSet) : ℕ → List Oid → OidSet → OidSet → OidSet
  | 0, _, _, out => out
  | _ + 1, [], _, out => out
  | fuel + 1, cur :: stack, seen, out =>
      if cur ∈ seen then dag.walk dropped fuel stack seen out
      else if dropped.contains cur then
        walk dag dropped fuel ((dag.parentsOf cur).reverse ++ stack) (seen.insert cur) out
      else walk dag dropped fuel stack (seen.insert cur) (out.insert cur)

/-- The nearest operations in the past that are not dropped. -/
def nearest (dag : Dag) (dropped : OidSet) (oid : Oid) : OidSet :=
  let stack := (dag.parentsOf oid).reverse
  walk dag dropped (stack.length + dag.edgeCount) stack ∅ ∅

/-- Contracts the graph down to `keep`. -/
def compact (dag : Dag) (keep : OidSet) : Dag :=
  let drop := dag.ops.keys.filter fun o => !keep.contains o
  if drop.isEmpty then dag
  else
    let dropped : OidSet := .ofList drop
    let rewired := (dag.ops.keys.filter fun o => keep.contains o).foldl
      (fun rewired oid => rewired.insert oid (dag.nearest dropped oid))
      (∅ : Std.ExtTreeMap Oid OidSet)
    { epoch := dag.epoch + 1
      ops := drop.foldl (fun ops oid => ops.erase oid) dag.ops
      parents := rewired }

end CausalFrontierRatchet.OperationGraph.Dag

namespace CausalFrontierRatchet.Compaction

open Relation Crypto Operation OperationGraph KeySchedule FrontierKeys TopologicalOrder
open InsertionOrder Search Contraction

variable {P : Primitives} {dag : Dag} {keep dropped : OidSet}

/-! ## The walk -/

section Walk

/-- Where the walk goes on: only through dropped operations. -/
def onward (dag : Dag) (dropped : OidSet) (o : Oid) : List Oid :=
  if dropped.contains o then dag.parentsOf o else []

theorem mem_walk {fuel : ℕ} {stack : List Oid} {seen out : OidSet} {a : Oid} :
    a ∈ dag.walk dropped fuel stack seen out ↔
      a ∈ out ∨ a ∉ seen ∧ a ∉ dropped ∧ a ∈ search (onward dag dropped) fuel stack seen := by
  fun_induction dag.walk dropped fuel stack seen out with
  | case1 stack seen out =>
      rw [search]
      tauto
  | case2 fuel seen out =>
      rw [search]
      tauto
  | case3 fuel cur stack seen out hcur ih =>
      rw [ih, search, if_pos hcur]
  | case4 fuel cur stack seen out hcur hdropped ih =>
      have hmem : cur ∈ dropped := Std.ExtTreeSet.contains_iff_mem.mp hdropped
      have honward : onward dag dropped cur = dag.parentsOf cur := if_pos hdropped
      rw [ih, search, if_neg hcur, honward, Std.ExtTreeSet.mem_insert, Std.compare_eq_iff_eq]
      by_cases heq : cur = a
      · subst heq
        simp [hmem]
      · simp [heq]
  | case5 fuel cur stack seen out hcur hdropped ih =>
      have hmem : cur ∉ dropped := fun h => hdropped (Std.ExtTreeSet.contains_iff_mem.mpr h)
      have honward : onward dag dropped cur = [] := if_neg hdropped
      rw [ih, search, if_neg hcur, honward, List.reverse_nil, List.nil_append,
        Std.ExtTreeSet.mem_insert, Std.ExtTreeSet.mem_insert, Std.compare_eq_iff_eq]
      by_cases heq : cur = a
      · subst heq
        have hvisited : cur ∈ search (onward dag dropped) fuel stack (seen.insert cur) :=
          seen_subset_search (by simp)
        simp [hmem, hcur, hvisited]
      · simp [heq]

theorem mem_nearest {a b : Oid} : a ∈ dag.nearest dropped b ↔ a ∉ dropped ∧
    ∃ s, Parent dag s b ∧ ReflTransGen (Edge (onward dag dropped)) s a := by
  have hout : ∀ x, onward dag dropped x ≠ [] → x ∈ dag.parents.keys := by
    intro x hx
    have hparents : dag.parentsOf x ≠ [] := by
      intro hnil
      apply hx
      rw [onward, hnil, ite_self]
    obtain ⟨y, hy⟩ := List.exists_mem_of_ne_nil _ hparents
    obtain ⟨ps, hps, -⟩ := mem_parentsOf.mp hy
    rw [Std.ExtTreeMap.mem_keys, Std.ExtTreeMap.mem_iff_isSome_getElem?, hps]
    rfl
  have hedges : (dag.parents.keys.map fun x => (onward dag dropped x).length).sum ≤
      dag.edgeCount := by
    apply List.sum_le_sum
    intro x _
    unfold onward
    split_ifs
    · exact le_rfl
    · exact Nat.zero_le _
  rw [Dag.nearest, mem_walk,
    mem_search_iff Std.ExtTreeMap.nodup_keys hout (Nat.add_le_add_left hedges _)]
  simp [Parent]

end Walk

/-! ## The contracted graph -/

section Compact

/-- The operations that are dropped. -/
def outside (dag : Dag) (keep : OidSet) : List Oid :=
  dag.ops.keys.filter fun o => !keep.contains o

theorem mem_outside {o : Oid} : o ∈ outside dag keep ↔ dag.contains o ∧ o ∉ keep := by
  simp [outside, Dag.contains, Std.ExtTreeMap.contains_iff_mem, ← Std.ExtTreeSet.contains_iff_mem]

theorem mem_dropped {o : Oid} :
    o ∈ (.ofList (outside dag keep) : OidSet) ↔ dag.contains o ∧ o ∉ keep := by
  rw [Std.ExtTreeSet.mem_ofList, List.contains_iff_mem, mem_outside]

theorem kept_of_not_outside (h : outside dag keep = []) {o : Oid} (ho : dag.contains o) :
    o ∈ keep := by
  by_contra hnot
  have hmem := mem_outside.mpr ⟨ho, hnot⟩
  rw [h] at hmem
  cases hmem

/-- The parents of what is kept are replaced by the nearest operations that are kept. -/
theorem mem_nearest_iff (hcausal : Causal dag) {a b : Oid} :
    a ∈ dag.nearest (.ofList (outside dag keep)) b ↔
      a ∈ keep ∧ Bypass (Parent dag) {o | o ∈ keep} a b := by
  have hedge : Edge (onward dag (.ofList (outside dag keep))) =
      Function.swap fun x y => Parent dag x y ∧ y ∉ {o | o ∈ keep} := by
    funext y x
    apply propext
    change x ∈ onward dag _ y ↔ Parent dag x y ∧ y ∉ keep
    unfold onward
    split_ifs with hy <;> rw [Std.ExtTreeSet.contains_iff_mem, mem_dropped] at hy
    · simp [hy.2, Parent]
    · simp only [List.not_mem_nil, false_iff]
      exact fun hxy => hy ⟨(hcausal.within hxy.1).2, hxy.2⟩
  have hstored : ∀ s, Parent dag s b →
      ReflTransGen (fun x y => Parent dag x y ∧ y ∉ {o | o ∈ keep}) a s → dag.contains a := by
    intro s hs hpath
    rcases ReflTransGen.cases_head hpath with rfl | ⟨y, hay, -⟩
    · exact (hcausal.within hs).1
    · exact (hcausal.within hay.1).1
  rw [mem_nearest, hedge, mem_dropped, bypass_iff]
  constructor
  · rintro ⟨hkept, s, hs, hpath⟩
    have hforward := reflTransGen_swap.mp hpath
    exact ⟨not_not.mp fun hnot => hkept ⟨hstored s hs hforward, hnot⟩, s, hs, hforward⟩
  · rintro ⟨hkept, s, hs, hpath⟩
    exact ⟨fun hdropped => hdropped.2 hkept, s, hs, reflTransGen_swap.mpr hpath⟩

theorem getElem?_foldl_erase (list : List Oid) (ops : Std.ExtTreeMap Oid Op) (o : Oid) :
    (list.foldl (fun ops oid => ops.erase oid) ops)[o]? = if o ∈ list then none else ops[o]? := by
  induction list generalizing ops with
  | nil => simp
  | cons x list ih =>
      rw [List.foldl_cons, ih, Std.ExtTreeMap.getElem?_erase]
      by_cases hx : x = o
      · simp [hx]
      · simp [hx, Ne.symm hx]

theorem getElem?_foldl_insert {β : Type} (list : List Oid) (value : Oid → β)
    (map : Std.ExtTreeMap Oid β) (o : Oid) :
    (list.foldl (fun map oid => map.insert oid (value oid)) map)[o]? =
      if o ∈ list then some (value o) else map[o]? := by
  induction list generalizing map with
  | nil => simp
  | cons x list ih =>
      rw [List.foldl_cons, ih, Std.ExtTreeMap.getElem?_insert]
      by_cases hx : x = o
      · simp [hx]
      · simp [hx, Ne.symm hx]

theorem compact_of_nil (h : outside dag keep = []) : dag.compact keep = dag :=
  if_pos (List.isEmpty_iff.mpr h)

theorem compact_of_ne_nil (h : outside dag keep ≠ []) : dag.compact keep =
    { epoch := dag.epoch + 1
      ops := (outside dag keep).foldl (fun ops oid => ops.erase oid) dag.ops
      parents := (dag.ops.keys.filter fun o => keep.contains o).foldl
        (fun rewired oid => rewired.insert oid (dag.nearest (.ofList (outside dag keep)) oid))
        ∅ } :=
  if_neg fun hempty => h (List.isEmpty_iff.mp hempty)

theorem compact_get (o : Oid) :
    (dag.compact keep).get o = if o ∈ keep then dag.get o else none := by
  have habsent : ¬dag.contains o → dag.get o = none := by
    rw [contains_iff, not_exists]
    exact Option.eq_none_iff_forall_ne_some.mpr
  by_cases hnil : outside dag keep = []
  · rw [compact_of_nil hnil]
    split_ifs with hkeep
    · rfl
    · exact habsent fun ho => hkeep (kept_of_not_outside hnil ho)
  · rw [compact_of_ne_nil hnil, Dag.get, getElem?_foldl_erase]
    split_ifs with hout hkeep hkeep
    · exact absurd hkeep (mem_outside.mp hout).2
    · rfl
    · rfl
    · exact habsent fun ho => hout (mem_outside.mpr ⟨ho, hkeep⟩)

/-- Exactly the kept operations are stored. -/
theorem compact_contains {o : Oid} :
    (dag.compact keep).contains o ↔ dag.contains o ∧ o ∈ keep := by
  rw [contains_iff, compact_get, contains_iff]
  split_ifs with hkeep <;> simp [hkeep]

/-- The parents in the contracted graph. -/
theorem compact_parent (hcausal : Causal dag) {a b : Oid} :
    Parent (dag.compact keep) a b ↔ Contracted (Parent dag) {o | o ∈ keep} a b := by
  by_cases hnil : outside dag keep = []
  · have hall : ∀ {o}, dag.contains o → o ∈ keep := kept_of_not_outside hnil
    rw [compact_of_nil hnil]
    constructor
    · intro hab
      exact ⟨hall (hcausal.within hab).1, hall (hcausal.within hab).2, .edge hab⟩
    · rintro ⟨-, -, hab | ⟨hax, hx, -⟩⟩
      · exact hab
      · exact absurd (hall (hcausal.within hax).2) hx
  · rw [Parent, mem_parentsOf, compact_of_ne_nil hnil]
    dsimp only
    rw [getElem?_foldl_insert]
    split_ifs with hb
    · have hkeep : b ∈ keep := by
        simpa [Std.ExtTreeSet.contains_iff_mem] using (List.mem_filter.mp hb).2
      simp only [Option.some.injEq, exists_eq_left', mem_nearest_iff hcausal]
      exact ⟨fun h => ⟨h.1, hkeep, h.2⟩, fun h => ⟨h.1, h.2.2⟩⟩
    · simp only [Std.ExtTreeMap.getElem?_empty, reduceCtorEq, false_and, exists_false, false_iff]
      rintro ⟨-, hkeep, hpath⟩
      have hstored : dag.contains b := (hcausal.before hpath.transGen).2
      apply hb
      rw [List.mem_filter, Std.ExtTreeMap.mem_keys, ← Std.ExtTreeMap.contains_iff_mem]
      exact ⟨hstored, Std.ExtTreeSet.contains_iff_mem.mpr hkeep⟩

theorem compact_before (hcausal : Causal dag) {a b : Oid} (ha : a ∈ keep) (hb : b ∈ keep) :
    Before (dag.compact keep) a b ↔ Before dag a b := by
  have hparent : Parent (dag.compact keep) = Contracted (Parent dag) {o | o ∈ keep} := by
    funext x y
    exact propext (compact_parent hcausal)
  rw [Before, hparent]
  exact transGen_contracted ha hb

theorem compact_causal (hcausal : Causal dag) : Causal (dag.compact keep) where
  within := by
    intro a b hab
    obtain ⟨ha, hb, hpath⟩ := (compact_parent hcausal).mp hab
    rw [compact_contains, compact_contains]
    have hstored := hcausal.before hpath.transGen
    exact ⟨⟨hstored.1, ha⟩, hstored.2, hb⟩
  recorded := by
    intro o
    by_cases hnil : outside dag keep = []
    · rw [compact_of_nil hnil]
      exact hcausal.recorded
    · rw [compact_contains, compact_of_ne_nil hnil, Std.ExtTreeMap.mem_iff_isSome_getElem?]
      dsimp only
      rw [getElem?_foldl_insert]
      simp only [List.mem_filter, Std.ExtTreeMap.mem_keys, Dag.contains,
        Std.ExtTreeMap.contains_iff_mem, Std.ExtTreeSet.contains_iff_mem]
      split_ifs with ho <;> simp [ho]
  ranked := by
    obtain ⟨rank, hrank⟩ := hcausal.ranked
    refine ⟨rank, fun a b hab => ?_⟩
    exact rank_lt_of_before hrank ((compact_parent hcausal).mp hab).2.2.transGen

end Compact

/-! ## Graphs reached by insertion and compaction -/

section Reached

variable (P) in
inductive Reached : Dag → Prop
  | new : Reached Dag.new
  | add {dag : Dag} (op : Op) (h : Reached dag) : Reached (dag.add P op).2
  | compact {dag : Dag} (keep : OidSet) (h : Reached dag) : Reached (dag.compact keep)

theorem Reached.causal (h : Reached P dag) : Causal dag := by
  induction h with
  | new => exact sound_new.causal (P := P)
  | @add dag op _ ih =>
      rcases add_cases (P := P) dag op with ⟨e, he⟩ | ⟨-, hold⟩ | ⟨dag', hadd, hnew⟩
      · rw [he]
        exact ih
      · rw [hold]
        exact ih
      · rw [hnew]
        exact ih.added hadd
  | compact keep _ ih => exact compact_causal ih

theorem contribution_compact {o : Oid} :
    Contribution (dag.compact keep) o ↔ Contribution dag o ∧ o ∈ keep := by
  unfold Contribution
  rw [compact_get]
  split_ifs with hkeep <;> simp [hkeep]

/-- Compaction leaves a frontier that is kept as it was. -/
theorem compact_frontier (hcausal : Causal dag) (hkeep : ∀ n ∈ frontier dag, n ∈ keep) :
    frontier (dag.compact keep) = frontier dag := by
  apply Std.ExtTreeSet.ext_mem
  intro o
  rw [mem_frontier, mem_frontier, contribution_compact]
  constructor
  · rintro ⟨⟨ho, hokeep⟩, hlast⟩
    refine ⟨ho, fun k hk hok => ?_⟩
    -- What follows lies at or before an element of the frontier, and that one is kept.
    obtain ⟨n, hn, hahead⟩ := exists_frontier hcausal hk
    have hon : Before dag o n := by
      rcases hahead with rfl | hkn
      · exact hok
      · exact hok.trans hkn
    have hcontribution := contribution_compact.mpr ⟨(mem_frontier.mp hn).1, hkeep n hn⟩
    exact hlast n hcontribution ((compact_before hcausal hokeep (hkeep n hn)).mpr hon)
  · rintro ⟨ho, hlast⟩
    have hokeep : o ∈ keep := hkeep o (mem_frontier.mpr ⟨ho, hlast⟩)
    refine ⟨⟨ho, hokeep⟩, fun n hn hon => ?_⟩
    obtain ⟨hcontribution, hnkeep⟩ := contribution_compact.mp hn
    exact hlast n hcontribution ((compact_before hcausal hokeep hnkeep).mp hon)

/-- Compaction stores exactly what was to be kept, leaves the causal order of it as it was, and also
the frontier if that is kept. -/
theorem compaction_preserves_causality (h : Reached P dag) (keep : OidSet) :
    (∀ o, (dag.compact keep).get o = if o ∈ keep then dag.get o else none) ∧
    (∀ a b, (dag.compact keep).contains a → (dag.compact keep).contains b →
      ((dag.compact keep).precedes a b ↔ dag.precedes a b)) ∧
    ((∀ n ∈ frontier dag, n ∈ keep) → frontier (dag.compact keep) = frontier dag) := by
  refine ⟨compact_get, ?_, compact_frontier h.causal⟩
  intro a b ha hb
  rw [precedes_iff, precedes_iff,
    compact_before h.causal (compact_contains.mp ha).2 (compact_contains.mp hb).2]

/-- A founder, a guest it admits and a contribution of the guest. -/
def chain : Dag :=
  (((Dag.new.add toy first).2.add toy second).2.add toy third).2

def ends : OidSet :=
  .ofList [first.oid toy, third.oid toy]

theorem chain_reached : Reached toy chain :=
  .add third (.add second (.add first .new))

/-- Without the operation between them the ends of the chain are in order as before. -/
theorem chain_compacted : ¬(chain.compact ends).contains (second.oid toy) ∧
    (chain.compact ends).precedes (first.oid toy) (third.oid toy) ∧
    frontier (chain.compact ends) = frontier chain := by
  obtain ⟨-, horder, hfrontier⟩ := compaction_preserves_causality chain_reached ends
  have hchecks : ¬(chain.compact ends).contains (second.oid toy) ∧
      (chain.compact ends).contains (first.oid toy) ∧
      (chain.compact ends).contains (third.oid toy) ∧
      chain.precedes (first.oid toy) (third.oid toy) ∧
      (frontier chain).toList.all fun n => ends.contains n := by
    decide +kernel
  obtain ⟨hdropped, hfirst, hthird, hbefore, hkept⟩ := hchecks
  refine ⟨hdropped, (horder _ _ hfirst hthird).mpr hbefore, hfrontier fun n hn => ?_⟩
  apply Std.ExtTreeSet.contains_iff_mem.mp
  exact List.all_eq_true.mp hkept n (Std.ExtTreeSet.mem_toList.mpr hn)

/-- The graph is a causal order: the parents are stored and acyclic, the ancestors are their
transitive closure, precedence is a strict order, the listing has everything after its parents, and
the heads imply everything. -/
structure CausalOrder (dag : Dag) : Prop where
  within : ∀ a b, Parent dag a b → dag.contains a ∧ dag.contains b
  acyclic : ∀ a, ¬TransGen (Parent dag) a a
  ancestors : ∀ a b, a ∈ dag.ancestors b ↔ TransGen (Parent dag) a b
  irrefl : ∀ a, ¬dag.precedes a a
  trans : ∀ a b c, dag.precedes a b → dag.precedes b c → dag.precedes a c
  listed : dag.topological.Perm dag.ops.keys
  follows : Follows dag dag.topological
  whole : ∀ o, o ∈ dag.causalClosure dag.heads.toList ↔ dag.contains o

theorem closure_heads (hcausal : Causal dag) {o : Oid} :
    o ∈ dag.causalClosure dag.heads.toList ↔ dag.contains o := by
  rw [mem_causalClosure]
  constructor
  · rintro ⟨head, -, hstored, rfl | hbefore⟩
    · exact hstored
    · exact (hcausal.before hbefore).1
  · intro ho
    obtain ⟨head, hhead, hpath⟩ := hcausal.exists_head ho
    refine ⟨head, Std.ExtTreeSet.mem_toList.mpr hhead, (mem_heads.mp hhead).1, ?_⟩
    rcases reflTransGen_iff_eq_or_transGen.mp hpath with heq | hbefore
    · exact Or.inl heq.symm
    · exact Or.inr hbefore

/-- Insertion and compaction reach causal orders only. -/
theorem reached_causalOrder (h : Reached P dag) : CausalOrder dag where
  within _ _ := h.causal.within
  acyclic := h.causal.before_irrefl
  ancestors _ _ := mem_ancestors
  irrefl a hprecedes := (precedes_iff.mp hprecedes).1 rfl
  trans a b c hab hbc := by
    have hac : Before dag a c := (precedes_iff.mp hab).2.trans (precedes_iff.mp hbc).2
    refine precedes_iff.mpr ⟨?_, hac⟩
    rintro rfl
    exact h.causal.before_irrefl a hac
  listed := topological_perm h.causal
  follows := (topological_spec h.causal).2.1
  whole _ := closure_heads h.causal

theorem chain_causalOrder : CausalOrder (chain.compact ends) :=
  reached_causalOrder (.compact ends chain_reached)

end Reached

end CausalFrontierRatchet.Compaction
