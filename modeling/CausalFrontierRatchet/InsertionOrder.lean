import CausalFrontierRatchet.CausalPast
import CausalFrontierRatchet.FrontierKeys
import CausalFrontierRatchet.TopologicalOrder
import Mathlib.Data.Set.Function

/-!
Graphs as functions of their operations.  Insertions in any order in which each operation follows
its dependencies give the same graph.  The causal past of an operation, inserted anew in topological
order, is therefore the part of the graph it induces, and the roster evaluated there is the one
evaluated within the whole graph.
-/

namespace CausalFrontierRatchet.OperationGraph.Dag

/-- Inserts operations one after another. -/
def addAll (P : Crypto.Primitives) (dag : Dag) (ops : List Operation.Op) : Dag :=
  ops.foldl (fun dag op => (dag.add P op).2) dag

end CausalFrontierRatchet.OperationGraph.Dag

namespace CausalFrontierRatchet.CausalMembership.Membership

open OperationGraph

/-- Membership in the causal past, rebuilt as a graph of its own. -/
def membersBeforeReference (P : Crypto.Primitives) (m : Membership) (op : Operation.Op) :
    Operation.Roster :=
  let past := m.pastOf P op
  let sub := m.dag.topological.foldl (fun sub oid =>
    if !past.contains oid then sub
    else
      match m.dag.get oid with
      | some operation => (sub.add P operation).2
      | none => sub) Dag.new
  members ⟨sub, m.policy, m.guilty⟩

end CausalFrontierRatchet.CausalMembership.Membership

namespace CausalFrontierRatchet.InsertionOrder

open Relation Crypto Operation OperationGraph CausalMembership KeySchedule FrontierKeys CausalPast
open TopologicalOrder

variable {P : Primitives} {dag : Dag} {ops ops' : List Op}

/-! ## Insertions that respect dependencies -/

section Insertion

variable (P) in
/-- Each operation follows its dependencies. -/
def Linear (ops : List Op) : Prop :=
  ∀ pre op post, ops = pre ++ op :: post → ∀ d ∈ op.deps, ∃ dep ∈ pre, dep.oid P = d

theorem addAll_append (ops : List Op) (op : Op) :
    dag.addAll P (ops ++ [op]) = ((dag.addAll P ops).add P op).2 := by
  rw [Dag.addAll, List.foldl_append]
  rfl

theorem Linear.init {op : Op} (h : Linear P (ops ++ [op])) : Linear P ops := by
  intro pre x post hsplit
  apply h pre x (post ++ [op])
  rw [hsplit, List.append_assoc]
  rfl

theorem Linear.last {op : Op} (h : Linear P (ops ++ [op])) {d : Oid} (hd : d ∈ op.deps) :
    ∃ dep ∈ ops, dep.oid P = d :=
  h ops op [] rfl d hd

/-- With room left, a new operation is stored. -/
theorem added_of_room {op : Op} (hroom : dag.ops.size < MAX_OPS)
    (hfresh : ¬dag.contains (op.oid P)) : Added P dag op (dag.add P op).2 where
  room := hroom
  fresh := Bool.eq_false_iff.mpr hfresh
  result := by
    rw [Dag.add, if_neg (Nat.not_le.mpr hroom)]
    exact congrArg Prod.snd (if_neg hfresh)

variable (P) in
/-- The graph holds the listed operations with all their dependencies. -/
structure Holding (ops : List Op) (dag : Dag) : Prop where
  sound : Sound P dag
  complete : Complete dag
  get : ∀ o op, dag.get o = some op ↔ op ∈ ops ∧ op.oid P = o
  epoch : dag.epoch = ops.length
  size : dag.ops.size = ops.length

theorem Holding.contains (h : Holding P ops dag) {o : Oid} :
    dag.contains o ↔ ∃ op ∈ ops, op.oid P = o := by
  simp only [contains_iff, h.get]

theorem Holding.added {dag' : Dag} {op : Op} (h : Holding P ops dag)
    (hadd : Added P dag op dag') (hdeps : ∀ d ∈ op.deps, ∃ dep ∈ ops, dep.oid P = d) :
    Holding P (ops ++ [op]) dag' where
  sound := h.sound.added hadd
  complete := h.complete.added hadd fun d hd => h.contains.mpr (hdeps d hd)
  get := by
    intro o op'
    rw [hadd.get, List.mem_append, List.mem_singleton]
    split_ifs with ho
    · constructor
      · intro heq
        cases heq
        exact ⟨Or.inr rfl, ho⟩
      · rintro ⟨hold | rfl, hoid⟩
        · have hstored : dag.contains o := h.contains.mpr ⟨op', hold, hoid⟩
          exact absurd ho (hadd.ne_of_contains hstored)
        · rfl
    · rw [h.get]
      constructor
      · exact fun hold => ⟨Or.inl hold.1, hold.2⟩
      · rintro ⟨hold | rfl, hoid⟩
        · exact ⟨hold, hoid⟩
        · exact absurd hoid ho
  epoch := by
    rw [hadd.result, h.epoch, List.length_append]
    rfl
  size := by
    rw [hadd.size, h.size, List.length_append]
    rfl

/-- Within the capacity every operation of such a sequence is stored. -/
theorem holding_addAll (hnodup : (ops.map (Op.oid P)).Nodup) (hroom : ops.length ≤ MAX_OPS)
    (hlinear : Linear P ops) : Holding P ops (Dag.new.addAll P ops) := by
  induction ops using List.reverseRecOn with
  | nil =>
      refine ⟨sound_new, complete_new, fun o op => ?_, rfl, rfl⟩
      simp [Dag.addAll, Dag.new, Dag.get]
  | append_singleton ops op ih =>
      rw [List.map_append, List.nodup_append] at hnodup
      rw [List.length_append, List.length_singleton] at hroom
      have hholding := ih hnodup.1 (by omega) hlinear.init
      have hfresh : ¬(Dag.new.addAll P ops).contains (op.oid P) := by
        rw [hholding.contains]
        rintro ⟨op', hop', heq⟩
        exact hnodup.2.2 _ (List.mem_map_of_mem hop') (op.oid P) (List.mem_singleton_self _) heq
      have hspace : (Dag.new.addAll P ops).ops.size < MAX_OPS := by
        rw [hholding.size]
        omega
      rw [addAll_append]
      exact hholding.added (added_of_room hspace hfresh) fun d hd => hlinear.last hd

/-- Two graphs that hold the same operations are the same. -/
theorem Holding.unique {dag' : Dag} (h : Holding P ops dag) (h' : Holding P ops' dag')
    (hperm : ops.Perm ops') : dag = dag' := by
  have hget : ∀ o, dag.get o = dag'.get o := by
    intro o
    apply Option.ext
    intro op
    rw [h.get, h'.get, hperm.mem_iff]
  have hops : dag.ops = dag'.ops := Std.ExtTreeMap.ext_getElem? fun {o} => hget o
  have hparents : dag.parents = dag'.parents := by
    apply Std.ExtTreeMap.ext_getElem?
    intro o
    rw [h.sound.parents_eq h.complete, h'.sound.parents_eq h'.complete, hget]
  have hepoch : dag.epoch = dag'.epoch := by
    rw [h.epoch, h'.epoch, hperm.length_eq]
  cases dag
  cases dag'
  congr

end Insertion

/-! ## The views of a graph -/

section Views

/-- The graphs have the same edges, order, listing, frontier and rosters. -/
structure SameViews (dag dag' : Dag) : Prop where
  parents : ∀ o : Oid, dag.parents[o]? = dag'.parents[o]?
  ancestors : ∀ o, dag.ancestors o = dag'.ancestors o
  heads : dag.heads = dag'.heads
  topological : dag.topological = dag'.topological
  frontier : frontier dag = frontier dag'
  members : ∀ policy guilty,
    Membership.members ⟨dag, policy, guilty⟩ = Membership.members ⟨dag', policy, guilty⟩

theorem SameViews.refl (dag : Dag) : SameViews dag dag where
  parents _ := rfl
  ancestors _ := rfl
  heads := rfl
  topological := rfl
  frontier := rfl
  members _ _ := rfl

/-- The frontier is the contributions without a contribution behind them; none of them precedes
another, and each contribution is in it or precedes one of its elements. -/
structure Frontal (dag : Dag) : Prop where
  exactly : ∀ o, o ∈ frontier dag ↔
    Contribution dag o ∧ ∀ n, Contribution dag n → ¬dag.precedes o n
  antichain : ∀ a ∈ frontier dag, ∀ b ∈ frontier dag, ¬dag.precedes a b
  covers : ∀ o, Contribution dag o → o ∈ frontier dag ∨ ∃ n ∈ frontier dag, dag.precedes o n

theorem precedes_iff_before (h : Causal dag) {a b : Oid} : dag.precedes a b ↔ Before dag a b := by
  rw [precedes_iff, and_iff_right_iff_imp]
  rintro hab rfl
  exact h.before_irrefl a hab

theorem frontal (h : Causal dag) : Frontal dag where
  exactly o := by
    rw [mem_frontier]
    simp only [precedes_iff_before h]
  antichain a ha b hb hab := by
    rw [precedes_iff_before h] at hab
    exact (mem_frontier.mp ha).2 b (mem_frontier.mp hb).1 hab
  covers o ho := by
    obtain ⟨n, hn, rfl | hon⟩ := exists_frontier h ho
    · exact Or.inl hn
    · exact Or.inr ⟨n, hn, (precedes_iff_before h).mpr hon⟩

/-- Insertions of the same operations in any two orders that respect the dependencies give graphs
with the same views, and their frontier has its shape. -/
theorem views_of_operations (hperm : ops.Perm ops') (hnodup : ops.Nodup)
    (hoid : Set.InjOn (Op.oid P) {op | op ∈ ops}) (hroom : ops.length ≤ MAX_OPS)
    (hlinear : Linear P ops) (hlinear' : Linear P ops') :
    SameViews (Dag.new.addAll P ops) (Dag.new.addAll P ops') ∧ Frontal (Dag.new.addAll P ops) := by
  have hoids : (ops.map (Op.oid P)).Nodup := (List.nodup_map_iff_inj_on hnodup).mpr hoid
  have hoids' : (ops'.map (Op.oid P)).Nodup := (hperm.map _).nodup_iff.mp hoids
  have hholding := holding_addAll hoids hroom hlinear
  have hholding' := holding_addAll hoids' (hperm.length_eq ▸ hroom) hlinear'
  refine ⟨?_, frontal hholding.sound.causal⟩
  rw [hholding.unique hholding' hperm]
  exact SameViews.refl _

/-- A founder, a guest it admits, and a contribution of each. -/
def first : Op :=
  Op.create toy 1 5 ∅ (.add 1)

def second : Op :=
  Op.create toy 1 5 (.ofList [first.oid toy]) (.add 2)

def third : Op :=
  Op.create toy 2 5 (.ofList [second.oid toy]) (.contrib 9 ∅ [] [] 0)

def fourth : Op :=
  Op.create toy 1 5 (.ofList [second.oid toy]) (.contrib 8 ∅ [] [] 0)

theorem linear_nil : Linear P [] := by
  intro pre op post h
  simp at h

theorem Linear.concat {op : Op} (h : Linear P ops)
    (hdeps : ∀ d ∈ op.deps, ∃ dep ∈ ops, dep.oid P = d) : Linear P (ops ++ [op]) := by
  intro pre x post hsplit d hd
  rcases List.eq_nil_or_concat post with rfl | ⟨post', last, rfl⟩
  · obtain ⟨rfl, hlast⟩ := List.append_inj' hsplit rfl
    cases hlast
    exact hdeps d hd
  · have hsame : ops ++ [op] = (pre ++ x :: post') ++ [last] := by
      simpa using hsplit
    exact h pre x post' (List.append_inj' hsame rfl).1 d hd

/-- One dependency that is listed already. -/
theorem Linear.concat_one {dep : Op} (h : Linear P ops) (hdep : dep ∈ ops) (key : Secret)
    (sid : SessionId) (body : Body) :
    Linear P (ops ++ [Op.create P key sid (.ofList [dep.oid P]) body]) := by
  apply h.concat
  intro d hd
  change d ∈ (.ofList [dep.oid P] : OidSet) at hd
  rw [Std.ExtTreeSet.mem_ofList, List.contains_iff_mem, List.mem_singleton] at hd
  exact ⟨dep, hdep, hd.symm⟩

theorem pair_linear : Linear toy [first, second] := by
  have hfirst : Linear toy [first] := by
    apply linear_nil.concat
    intro d hd
    exact absurd hd Std.ExtTreeSet.not_mem_empty
  exact hfirst.concat_one (by simp) 1 5 (.add 2)

/-- The two contributions may come in either order. -/
theorem either_order : SameViews (Dag.new.addAll toy [first, second, third, fourth])
    (Dag.new.addAll toy [first, second, fourth, third]) ∧
    Frontal (Dag.new.addAll toy [first, second, third, fourth]) := by
  have hdistinct : ([first, second, third, fourth].map (Op.oid toy)).Nodup := by
    decide +kernel
  have hnodup : [first, second, third, fourth].Nodup := List.Nodup.of_map _ hdistinct
  refine views_of_operations ?_ hnodup ?_ (by decide) ?_ ?_
  · exact ((List.Perm.swap fourth third []).cons second).cons first
  · exact List.inj_on_of_nodup_map hdistinct
  · exact (pair_linear.concat_one (by simp) 2 5 _).concat_one (by simp) 1 5 _
  · exact (pair_linear.concat_one (by simp) 1 5 _).concat_one (by simp) 2 5 _

end Views

/-! ## The causal past as a graph -/

section Past

variable (P) in
/-- Graphs of insertions of operations whose dependencies are all stored. -/
inductive Grown : Dag → Prop
  | new : Grown Dag.new
  | add {dag : Dag} (op : Op) (h : Grown dag) (hdeps : dag.depsSatisfied op) :
      Grown (dag.add P op).2

theorem Grown.holds (h : Grown P dag) : Sound P dag ∧ Complete dag := by
  induction h with
  | new => exact ⟨sound_new, complete_new⟩
  | @add dag op _ hdeps ih =>
      rcases add_cases (P := P) dag op with ⟨e, he⟩ | ⟨-, hold⟩ | ⟨dag', hadd, hnew⟩
      · rw [he]
        exact ih
      · rw [hold]
        exact ih
      · rw [hnew]
        refine ⟨ih.1.added hadd, ih.2.added hadd fun d hd => ?_⟩
        exact List.all_eq_true.mp hdeps d (Std.ExtTreeSet.mem_toList.mpr hd)

variable {m : Membership} {op : Op}

theorem mem_pastOf {o : Oid} : o ∈ m.pastOf P op ↔
    (m.dag.contains (op.oid P) ∧ Before m.dag o (op.oid P)) ∨
      ∃ d ∈ op.deps, m.dag.contains d ∧ (o = d ∨ Before m.dag o d) := by
  rw [Membership.pastOf, Std.ExtTreeSet.foldl_eq_foldl_toList, mem_foldl_closure]
  simp only [Std.ExtTreeSet.mem_toList]
  split_ifs with hstored
  · simp [hstored, mem_ancestors]
  · simp [hstored]

theorem closed_pastOf : Closed m.dag (m.pastOf P op) := by
  intro a b hab hb
  rw [mem_pastOf] at hb ⊢
  rcases hb with ⟨hstored, hbefore⟩ | ⟨d, hd, hstored, rfl | hbefore⟩
  · exact Or.inl ⟨hstored, .head hab hbefore⟩
  · exact Or.inr ⟨b, hd, hstored, Or.inr (.single hab)⟩
  · exact Or.inr ⟨d, hd, hstored, Or.inr (.head hab hbefore)⟩

/-- The operations of a part of the graph, in topological order. -/
def listed (dag : Dag) (keep : OidSet) : List Op :=
  dag.topological.filterMap fun oid => if keep.contains oid then dag.get oid else none

theorem mem_listed (hcausal : Causal dag) {keep : OidSet} {op : Op} :
    op ∈ listed dag keep ↔ ∃ o ∈ keep, dag.get o = some op := by
  rw [listed, List.mem_filterMap]
  constructor
  · rintro ⟨o, -, ho⟩
    split_ifs at ho with hkeep
    exact ⟨o, Std.ExtTreeSet.contains_iff_mem.mp hkeep, ho⟩
  · rintro ⟨o, hkeep, ho⟩
    refine ⟨o, ((topological_spec hcausal).2.2 o).mpr (contains_iff.mpr ⟨op, ho⟩), ?_⟩
    rw [if_pos (Std.ExtTreeSet.contains_iff_mem.mpr hkeep), ho]

theorem foldl_listed (keep : OidSet) (oids : List Oid) (sub : Dag) :
    oids.foldl (fun sub oid => if !keep.contains oid then sub
      else
        match dag.get oid with
        | some operation => (sub.add P operation).2
        | none => sub) sub =
      sub.addAll P (oids.filterMap fun oid => if keep.contains oid then dag.get oid else none) := by
  induction oids generalizing sub with
  | nil => rfl
  | cons oid oids ih =>
      rw [List.foldl_cons, ih, List.filterMap_cons]
      cases hkeep : keep.contains oid with
      | false => rfl
      | true =>
          cases hget : dag.get oid <;> simp [Dag.addAll]

theorem map_oid_listed (h : Sound P dag) (keep : OidSet) :
    (listed dag keep).map (Op.oid P) = dag.topological.filter fun o => keep.contains o := by
  rw [listed, List.map_filterMap, ← List.filterMap_eq_filter]
  apply List.filterMap_congr
  intro o ho
  obtain ⟨op, hop⟩ := contains_iff.mp (((topological_spec h.causal).2.2 o).mp ho)
  cases hkeep : keep.contains o with
  | false => simp [Option.guard, hkeep]
  | true => simp [Option.guard, hkeep, hop, h.keyed hop]

theorem length_listed (h : Sound P dag) (keep : OidSet) : (listed dag keep).length ≤ MAX_OPS := by
  calc (listed dag keep).length = ((listed dag keep).map (Op.oid P)).length := by
        rw [List.length_map]
    _ ≤ dag.topological.length := by
        rw [map_oid_listed h]
        exact List.length_filter_le _ _
    _ = dag.ops.size := by
        rw [(topological_perm h.causal).length_eq, Std.ExtTreeMap.length_keys]
    _ ≤ MAX_OPS := h.size

theorem listed_linear (h : Sound P dag) (hc : Complete dag) {keep : OidSet}
    (hclosed : Closed dag keep) : Linear P (listed dag keep) := by
  intro pre op post hsplit d hd
  obtain ⟨before, rest, hlisting, hpre, hrest⟩ := List.filterMap_eq_append_iff.mp hsplit
  obtain ⟨skipped, o, after, rfl, hskipped, ho, -⟩ := List.filterMap_eq_cons_iff.mp hrest
  split_ifs at ho with hkeep
  have hparent : Parent dag d o := hc ho d hd
  have hdkeep : d ∈ keep := hclosed d o hparent (Std.ExtTreeSet.contains_iff_mem.mp hkeep)
  obtain ⟨dep, hdep⟩ := contains_iff.mp (h.parent hparent).1
  have hkept : (if keep.contains d then dag.get d else none) = some dep := by
    rw [if_pos (Std.ExtTreeSet.contains_iff_mem.mpr hdkeep), hdep]
  have hearlier : d ∈ before ++ skipped := by
    apply (topological_spec h.causal).2.1 (before ++ skipped) o after ?_ d hparent
    rw [hlisting, List.append_assoc]
  rcases List.mem_append.mp hearlier with hbefore | hin
  · refine ⟨dep, ?_, h.keyed hdep⟩
    rw [← hpre]
    exact List.mem_filterMap.mpr ⟨d, hbefore, hkept⟩
  · rw [hskipped d hin] at hkept
    cases hkept

theorem induced_complete (hc : Complete dag) {keep : OidSet} : Complete (induced dag keep) := by
  intro o op hop d hd
  rw [induced_get] at hop
  split_ifs at hop with hkeep
  exact induced_parent.mpr ⟨hc hop d hd, hkeep⟩

/-- Inserted anew, a closed part of the graph is the graph it induces. -/
theorem addAll_listed (h : Sound P dag) (hc : Complete dag) {keep : OidSet}
    (hclosed : Closed dag keep) :
    ∃ epoch, Dag.new.addAll P (listed dag keep) = { induced dag keep with epoch } := by
  have hoids : ((listed dag keep).map (Op.oid P)).Nodup := by
    rw [map_oid_listed h]
    exact (topological_spec h.causal).1.filter _
  have hholding := holding_addAll hoids (length_listed h keep) (listed_linear h hc hclosed)
  have hget : ∀ o, (Dag.new.addAll P (listed dag keep)).get o = (induced dag keep).get o := by
    intro o
    apply Option.ext
    intro op
    rw [hholding.get, mem_listed h.causal, induced_get]
    constructor
    · rintro ⟨⟨o', hkeep, hop⟩, rfl⟩
      rw [h.keyed hop, if_pos hkeep, hop]
    · intro hop
      split_ifs at hop with hkeep
      exact ⟨⟨o, hkeep, hop⟩, h.keyed hop⟩
  have hops : (Dag.new.addAll P (listed dag keep)).ops = (induced dag keep).ops :=
    Std.ExtTreeMap.ext_getElem? fun {o} => hget o
  have hparents : (Dag.new.addAll P (listed dag keep)).parents = (induced dag keep).parents := by
    apply Std.ExtTreeMap.ext_getElem?
    intro o
    rw [hholding.sound.parents_eq hholding.complete,
      (induced_sound h hclosed).parents_eq (induced_complete hc), hget]
  refine ⟨(Dag.new.addAll P (listed dag keep)).epoch, ?_⟩
  dsimp only
  rw [← hops, ← hparents]

/-- The roster in the causal past is that of the past as a graph of its own. -/
theorem membersBefore_eq_reference (h : Grown P m.dag) (op : Op) :
    m.membersBefore P op = m.membersBeforeReference P op := by
  obtain ⟨hsound, hcomplete⟩ := h.holds
  have hclosed : Closed m.dag (m.pastOf P op) := closed_pastOf
  obtain ⟨epoch, hsub⟩ := addAll_listed hsound hcomplete hclosed
  rw [Membership.membersBefore, membersIn_eq hclosed, Membership.membersBeforeReference,
    foldl_listed]
  change _ = Membership.members ⟨Dag.new.addAll P (listed m.dag (m.pastOf P op)), _, _⟩
  rw [hsub]
  rfl

/-- A graph of the founder and the guest. -/
def pair : Dag :=
  ((Dag.new.add toy first).2.add toy second).2

theorem pair_reference :
    Membership.membersBefore toy ⟨pair, .leaderless 2, ∅⟩ third =
      Membership.membersBeforeReference toy ⟨pair, .leaderless 2, ∅⟩ third ∧
    (Membership.membersBefore toy ⟨pair, .leaderless 2, ∅⟩ third).toList = [1, 2] := by
  have hgrown : Grown toy pair :=
    .add second (.add first .new (by decide +kernel)) (by decide +kernel)
  exact ⟨membersBefore_eq_reference hgrown third, by decide +kernel⟩

end Past

end CausalFrontierRatchet.InsertionOrder
