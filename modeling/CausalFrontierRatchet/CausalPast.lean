import CausalFrontierRatchet.RemoveWins

/-!
Membership in the causal past of an operation.  The evaluator scans the whole graph and skips what
is outside the past; this gives the members of the graph the past induces.
-/

namespace CausalFrontierRatchet.CausalPast

open Relation Crypto Operation OperationGraph CausalMembership RemoveWins

/-! ## Induced graphs -/

section Induced

def induced (dag : Dag) (keep : OidSet) : Dag where
  epoch := 0
  ops := dag.ops.filter fun o _ => keep.contains o
  parents := dag.parents.filter fun o _ => keep.contains o

/-- Contains the parents of its elements. -/
def Closed (dag : Dag) (keep : OidSet) : Prop :=
  ∀ a b, Parent dag a b → b ∈ keep → a ∈ keep

variable {P : Primitives} {dag : Dag} {keep : OidSet}

theorem getElem?_filter_contains {β : Type} (map : Std.ExtTreeMap Oid β) (o : Oid) :
    (map.filter fun o _ => keep.contains o)[o]? = if o ∈ keep then map[o]? else none := by
  rw [Std.ExtTreeMap.getElem?_filter']
  by_cases ho : o ∈ keep
  · rw [if_pos ho, Std.ExtTreeSet.contains_iff_mem.mpr ho]
    cases map[o]? <;> rfl
  · rw [if_neg ho, Bool.eq_false_iff.mpr fun h => ho (Std.ExtTreeSet.contains_iff_mem.mp h)]
    cases map[o]? <;> rfl

theorem induced_get (o : Oid) :
    (induced dag keep).get o = if o ∈ keep then dag.get o else none :=
  getElem?_filter_contains dag.ops o

theorem induced_parents (o : Oid) :
    (induced dag keep).parents[o]? = if o ∈ keep then dag.parents[o]? else none :=
  getElem?_filter_contains dag.parents o

theorem induced_parent {a b : Oid} : Parent (induced dag keep) a b ↔ Parent dag a b ∧ b ∈ keep := by
  rw [Parent, Parent, mem_parentsOf, mem_parentsOf, induced_parents]
  split_ifs with hb <;> simp [hb]

theorem induced_before (hclosed : Closed dag keep) {a b : Oid} :
    Before (induced dag keep) a b ↔ Before dag a b ∧ b ∈ keep := by
  constructor
  · intro h
    induction h with
    | single hab => exact ⟨.single (induced_parent.mp hab).1, (induced_parent.mp hab).2⟩
    | tail _ hbc ih => exact ⟨ih.1.tail (induced_parent.mp hbc).1, (induced_parent.mp hbc).2⟩
  · rintro ⟨h, hb⟩
    induction h with
    | single hab => exact .single (induced_parent.mpr ⟨hab, hb⟩)
    | tail _ hbc ih => exact (ih (hclosed _ _ hbc hb)).tail (induced_parent.mpr ⟨hbc, hb⟩)

theorem induced_sound (h : Sound P dag) (hclosed : Closed dag keep) :
    Sound P (induced dag keep) where
  keyed := by
    intro o op hop
    rw [induced_get] at hop
    split_ifs at hop
    exact h.keyed hop
  parents := by
    intro o ps hps
    rw [induced_parents] at hps
    split_ifs at hps with ho
    obtain ⟨op, hop, hdeps⟩ := h.parents hps
    refine ⟨op, by rw [induced_get, if_pos ho, hop], fun a ha => ⟨(hdeps a ha).1, ?_⟩⟩
    have hkeep : a ∈ keep := hclosed a o (mem_parentsOf.mpr ⟨ps, hps, ha⟩) ho
    rw [contains_iff, induced_get, if_pos hkeep, ← contains_iff]
    exact (hdeps a ha).2
  recorded := by
    intro o ho
    rw [contains_iff, induced_get] at ho
    split_ifs at ho with hkeep
    · rw [Std.ExtTreeMap.mem_iff_isSome_getElem?, induced_parents, if_pos hkeep]
      exact Std.ExtTreeMap.mem_iff_isSome_getElem?.mp (h.recorded (contains_iff.mpr ho))
    · simp at ho
  ranked := by
    obtain ⟨rank, hrank⟩ := h.ranked
    exact ⟨rank, fun a b hab => hrank a b (induced_parent.mp hab).1⟩
  size := le_trans Std.ExtTreeMap.size_filter_le_size h.size

/-- Keeping everything that is stored. -/
theorem induced_all (h : Sound P dag) (hall : ∀ o, dag.contains o → o ∈ keep) :
    induced dag keep = { dag with epoch := 0 } := by
  have hops : (induced dag keep).ops = dag.ops := by
    refine Std.ExtTreeMap.ext_getElem? fun o => ?_
    rw [induced, getElem?_filter_contains]
    split_ifs with ho
    · rfl
    · cases hget : dag.ops[o]? with
      | none => rfl
      | some op => exact absurd (hall o (contains_iff.mpr ⟨op, hget⟩)) ho
  have hparents : (induced dag keep).parents = dag.parents := by
    refine Std.ExtTreeMap.ext_getElem? fun o => ?_
    rw [induced_parents]
    split_ifs with ho
    · rfl
    · cases hget : dag.parents[o]? with
      | none => rfl
      | some ps =>
          obtain ⟨op, hop, -⟩ := h.parents hget
          exact absurd (hall o (contains_iff.mpr ⟨op, hop⟩)) ho
  change Dag.mk 0 (induced dag keep).ops (induced dag keep).parents = _
  rw [hops, hparents]

/-- Two complete graphs with the same operations in a set induce the same graph there. -/
theorem induced_eq {dag' : Dag} (h : Sound P dag) (hc : Complete dag) (h' : Sound P dag')
    (hc' : Complete dag') (hsame : ∀ o ∈ keep, dag.get o = dag'.get o) :
    induced dag keep = induced dag' keep := by
  have hops : (induced dag keep).ops = (induced dag' keep).ops := by
    refine Std.ExtTreeMap.ext_getElem? fun o => ?_
    change (induced dag keep).get o = (induced dag' keep).get o
    rw [induced_get, induced_get]
    split_ifs with ho
    · exact hsame o ho
    · rfl
  have hrecorded : (induced dag keep).parents = (induced dag' keep).parents := by
    refine Std.ExtTreeMap.ext_getElem? fun o => ?_
    rw [induced_parents, induced_parents, h.parents_eq hc, h'.parents_eq hc']
    split_ifs with ho
    · rw [hsame o ho]
    · rfl
  exact congrArg₂ (Dag.mk 0) hops hrecorded

end Induced

/-! ## Members of a part of the graph -/

section Members

/-- The evaluator of a part of the graph. -/
def within (m : Membership) (keep : OidSet) : Membership :=
  { m with dag := induced m.dag keep }

variable {m : Membership} {keep : OidSet}

theorem iter_within : (within m keep).iter none = m.iter (some keep) := by
  simp [Membership.iter, within, induced, Std.ExtTreeMap.toList_filter]

theorem membersIn_eq (hclosed : Closed m.dag keep) :
    m.membersIn (some keep) = (within m keep).members := by
  have hcounted : ∀ who, m.countedRemovesIn who (some keep) =
      (within m keep).countedRemovesIn who none := by
    intro who
    simp only [Membership.countedRemovesIn, Membership.votes, iter_within]
    rfl
  have hadmissions : ∀ who, m.admissionsOf who (some keep) =
      (within m keep).admissionsOf who none := by
    intro who
    simp only [Membership.admissionsOf, iter_within]
  have halive : ∀ who, m.alive who (some keep) = (within m keep).alive who none := by
    intro who
    rw [Membership.alive, Membership.alive, hcounted, hadmissions, Bool.eq_iff_iff]
    simp only [List.any_eq_true, List.all_eq_true]
    refine exists_congr fun a => and_congr_right fun ha => forall₂_congr fun r _ => ?_
    -- An admission in view has the same past in the part as in the graph.
    have hkeep : a ∈ keep := by
      obtain ⟨op, hop, -⟩ := mem_admissionsOf.mp ha
      change (induced m.dag keep).get a = some op at hop
      rw [induced_get] at hop
      split_ifs at hop with hkeep
      exact hkeep
    rw [precedes_iff, precedes_iff]
    change _ ↔ r ≠ a ∧ Before (induced m.dag keep) r a
    rw [induced_before hclosed]
    simp [hkeep]
  have hadmitted : m.admitted (some keep) = (within m keep).admitted none := by
    simp only [Membership.admitted, iter_within]
  simp only [Membership.members, Membership.membersIn, hadmitted, halive]

end Members

end CausalFrontierRatchet.CausalPast
