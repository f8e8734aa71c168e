import CausalFrontierRatchet.CausalMembership
import Mathlib.Data.Set.Card

/-!
Remove-wins membership.  The specification counts every eviction of an identity; the evaluator keeps
one vote of each author, the one with the least identifier.  The two agree on an identity unless an
admission follows the votes that are kept while none follows all of them.
-/

namespace CausalFrontierRatchet.RemoveWins

open Crypto Operation OperationGraph CausalMembership

/-! ## Specification -/

section Specification

variable (m : Membership) (x : SigPublic)

def Admission (o : Oid) : Prop :=
  ∃ op, m.dag.get o = some op ∧ op.body = .add x

/-- An eviction by the identity itself or by an administrator, or a proven equivocation. -/
def Proven (o : Oid) : Prop :=
  ∃ op, m.dag.get o = some op ∧
    ((op.body = .remove x ∧ (op.author = x ∨ op.author ∈ m.policy.admins)) ∨
      ((∃ coid mk seq, op.body = .accuse x coid mk seq) ∧ x ∈ m.guilty))

/-- An eviction by any other author. -/
def Vote (a : SigPublic) (o : Oid) : Prop :=
  ∃ op, m.dag.get o = some op ∧ op.body = .remove x ∧ op.author = a ∧ a ≠ x ∧ a ∉ m.policy.admins

def Quorum : Prop :=
  m.policy.quorum.toNat ≤ {a | ∃ o, Vote m x a o}.ncard

/-- The vote of an author that the evaluator keeps. -/
def LeastVote (a : SigPublic) (o : Oid) : Prop :=
  Vote m x a o ∧ ∀ o', Vote m x a o' → o ≤ o'

end Specification

/-! ## The evaluator -/

section Evaluator

variable {m : Membership} {x : SigPublic} {keep : Option OidSet}

theorem mem_iter {o : Oid} {op : Op} :
    (o, op) ∈ m.iter keep ↔ m.dag.get o = some op ∧ ∀ k ∈ keep, o ∈ k := by
  rw [Membership.iter, List.mem_filter, Std.ExtTreeMap.mem_toList_iff_getElem?_eq_some]
  cases keep <;> simp [Dag.get]

theorem iter_pairwise : (m.iter keep).Pairwise fun e e' => e.1 < e'.1 := by
  refine List.Pairwise.filter _ (List.Pairwise.imp ?_ Std.ExtTreeMap.ordered_keys_toList)
  intro e e' h
  exact compareOfLessAndEq_eq_lt.mp h

theorem admits_eq_some {body : Body} : admits body = some x ↔ body = .add x := by
  cases body <;> simp [admits]

theorem mem_admitted :
    x ∈ m.admitted keep ↔ ∃ o op, (o, op) ∈ m.iter keep ∧ op.body = .add x := by
  simp [Membership.admitted, admits_eq_some]

theorem mem_admissionsOf {o : Oid} :
    o ∈ m.admissionsOf x none ↔ Admission m x o := by
  simp [Membership.admissionsOf, Admission, mem_iter]

theorem proves_iff {op : Op} : m.proves x op ↔
    (op.body = .remove x ∧ (op.author = x ∨ op.author ∈ m.policy.admins)) ∨
      ((∃ coid mk seq, op.body = .accuse x coid mk seq) ∧ x ∈ m.guilty) := by
  unfold Membership.proves
  cases op.body <;> simp

theorem votesFor_iff {op : Op} : m.votesFor x op ↔
    op.body = .remove x ∧ op.author ≠ x ∧ op.author ∉ m.policy.admins := by
  unfold Membership.votesFor
  cases op.body <;> simp [← Std.ExtTreeSet.contains_iff_mem]

/-- The scan keeps the first vote of each author. -/
theorem votes_get (a : SigPublic) : (m.votes x keep)[a]? =
    ((m.iter keep).find? fun e => m.votesFor x e.2 && e.2.author = a).map Prod.fst := by
  have hfold : ∀ (entries : List (Oid × Op)) (votes : Std.ExtTreeMap SigPublic Oid),
      (entries.foldl (fun votes entry =>
        if m.votesFor x entry.2 then votes.insertIfNew entry.2.author entry.1 else votes) votes)[a]? =
      votes[a]?.or ((entries.find? fun e => m.votesFor x e.2 && e.2.author = a).map Prod.fst) := by
    intro entries
    induction entries with
    | nil => simp
    | cons e entries ih =>
        intro votes
        rw [List.foldl_cons, ih, List.find?_cons]
        by_cases hvote : m.votesFor x e.2
        · rw [if_pos hvote, Std.ExtTreeMap.getElem?_insertIfNew]
          by_cases ha : e.2.author = a
          · subst ha
            by_cases hold : e.2.author ∈ votes
            · simp [hvote, hold]
            · simp [hvote, hold]
          · simp [hvote, ha]
        · simp [hvote]
  rw [Membership.votes, hfold]
  simp

theorem vote_iff {a : SigPublic} {o : Oid} {op : Op} (hget : m.dag.get o = some op) :
    (m.votesFor x op && op.author = a) = true ↔ Vote m x a o := by
  rw [Bool.and_eq_true, votesFor_iff, decide_eq_true_iff]
  constructor
  · rintro ⟨⟨hbody, hself, hadmin⟩, rfl⟩
    exact ⟨op, hget, hbody, rfl, hself, hadmin⟩
  · rintro ⟨op', hget', hbody, hauthor, hself, hadmin⟩
    obtain rfl := Option.some.inj (hget.symm.trans hget')
    subst hauthor
    exact ⟨⟨hbody, hself, hadmin⟩, rfl⟩

theorem find_vote {a : SigPublic} {o : Oid} (h : Vote m x a o) :
    ∃ e, (m.iter none).find? (fun e => m.votesFor x e.2 && e.2.author = a) = some e := by
  obtain ⟨op, hget, -⟩ := id h
  rw [← Option.isSome_iff_exists, List.find?_isSome]
  exact ⟨(o, op), mem_iter.mpr ⟨hget, by simp⟩, (vote_iff hget).mpr h⟩

theorem votes_get_eq_some {a : SigPublic} {o : Oid} :
    (m.votes x none)[a]? = some o ↔ LeastVote m x a o := by
  have hfirst : ∀ {o' : Oid} {op : Op},
      (m.iter none).find? (fun e => m.votesFor x e.2 && e.2.author = a) = some (o', op) →
      LeastVote m x a o' := by
    intro o' op hfind
    obtain ⟨hp, before, after, hsplit, hbefore⟩ := List.find?_eq_some_iff_append.mp hfind
    have hmem : (o', op) ∈ m.iter none := by simp [hsplit]
    refine ⟨(vote_iff (mem_iter.mp hmem).1).mp hp, fun o'' hvote'' => ?_⟩
    obtain ⟨op'', hget'', -⟩ := id hvote''
    have hmem'' : (o'', op'') ∈ m.iter none := mem_iter.mpr ⟨hget'', by simp⟩
    have hp'' := (vote_iff hget'').mpr hvote''
    have horder : (m.iter none).Pairwise fun e e' => e.1 < e'.1 := iter_pairwise
    rw [hsplit, List.mem_append, List.mem_cons] at hmem''
    rw [hsplit, List.pairwise_append, List.pairwise_cons] at horder
    -- A smaller vote would have been met earlier in the scan.
    rcases hmem'' with hearly | heq | hlate
    · have := hbefore _ hearly
      rw [hp''] at this
      cases this
    · exact BitVec.le_of_eq (Prod.mk.inj heq).1.symm
    · exact BitVec.le_of_lt (horder.2.1.1 _ hlate)
  rw [votes_get, Option.map_eq_some_iff]
  constructor
  · rintro ⟨⟨o', op⟩, hfind, rfl⟩
    exact hfirst hfind
  · intro hleast
    obtain ⟨⟨o', op'⟩, hfind⟩ := find_vote hleast.1
    have hleast' := hfirst hfind
    exact ⟨_, hfind, BitVec.le_antisymm (hleast'.2 o hleast.1) (hleast.2 o' hleast'.1)⟩

theorem exists_leastVote {a : SigPublic} {o : Oid} (h : Vote m x a o) : ∃ o', LeastVote m x a o' := by
  obtain ⟨e, hfind⟩ := find_vote h
  exact ⟨e.1, votes_get_eq_some.mp (by rw [votes_get, hfind]; rfl)⟩

theorem votes_size : (m.votes x none).size = {a | ∃ o, Vote m x a o}.ncard := by
  classical
  have hkeys : {a | ∃ o, Vote m x a o} = ((m.votes x none).keys.toFinset : Set SigPublic) := by
    ext a
    rw [Set.mem_ofPred_eq, Finset.mem_coe, List.mem_toFinset, Std.ExtTreeMap.mem_keys,
      Std.ExtTreeMap.mem_iff_isSome_getElem?, Option.isSome_iff_exists]
    simp only [votes_get_eq_some]
    exact ⟨fun ⟨_, h⟩ => exists_leastVote h, fun ⟨o, h⟩ => ⟨o, h.1⟩⟩
  rw [hkeys, Set.ncard_coe_finset, List.toFinset_card_of_nodup Std.ExtTreeMap.nodup_keys,
    Std.ExtTreeMap.length_keys]

/-- What the evaluator counts: the proven evictions and, with a quorum, the kept votes. -/
theorem mem_countedRemovesIn {o : Oid} : o ∈ m.countedRemovesIn x none ↔
    Proven m x o ∨ (Quorum m x ∧ ∃ a, LeastVote m x a o) := by
  have hproven : o ∈ ((m.iter none).filter fun e => m.proves x e.2).map Prod.fst ↔ Proven m x o := by
    simp [Proven, mem_iter, proves_iff]
  have hvalues : o ∈ (m.votes x none).toList.map Prod.snd ↔ ∃ a, LeastVote m x a o := by
    simp only [List.mem_map, Prod.exists, exists_eq_right,
      Std.ExtTreeMap.mem_toList_iff_getElem?_eq_some, votes_get_eq_some]
  simp only [Membership.countedRemovesIn, votes_size]
  split_ifs with hquorum
  · rw [List.mem_append, hproven, hvalues]
    simp [Quorum, hquorum]
  · rw [hproven]
    simp [Quorum, hquorum]

theorem mem_members_iff {P : Primitives} (hsound : Sound P m.dag) : x ∈ m.members ↔
    ∃ admission, Admission m x admission ∧ (∀ o, Proven m x o → Before m.dag o admission) ∧
      (Quorum m x → ∀ a o, LeastVote m x a o → Before m.dag o admission) := by
  have hprecedes : ∀ {a b : Oid}, m.dag.precedes a b = true ↔ Before m.dag a b := by
    intro a b
    rw [precedes_iff]
    exact ⟨And.right, fun hab => ⟨fun heq => hsound.before_irrefl b (heq ▸ hab), hab⟩⟩
  have halive : m.alive x none ↔ ∃ admission, Admission m x admission ∧
      (∀ o, Proven m x o → Before m.dag o admission) ∧
      (Quorum m x → ∀ a o, LeastVote m x a o → Before m.dag o admission) := by
    simp only [Membership.alive, List.any_eq_true, List.all_eq_true, mem_admissionsOf,
      mem_countedRemovesIn, hprecedes]
    refine exists_congr fun admission => and_congr_right fun _ => ?_
    constructor
    · exact fun h => ⟨fun o ho => h o (Or.inl ho), fun hq a o ho => h o (Or.inr ⟨hq, a, ho⟩)⟩
    · rintro ⟨hproven, hvotes⟩ o (ho | ⟨hq, a, ho⟩)
      · exact hproven o ho
      · exact hvotes hq a o ho
  have hmembers : x ∈ m.members ↔ x ∈ m.admitted none ∧ m.alive x none := by
    simp [Membership.members, Membership.membersIn, Std.ExtTreeSet.mem_filter]
  rw [hmembers, halive, and_iff_right_iff_imp]
  rintro ⟨o, ⟨op, hget, hbody⟩, -⟩
  exact mem_admitted.mpr ⟨o, op, mem_iter.mpr ⟨hget, by simp⟩, hbody⟩

end Evaluator

/-- A linear history, latest operation first. -/
def chain (P : Primitives) (sid : SessionId) : List (Secret × Body) → Dag
  | [] => Dag.new
  | (key, body) :: earlier =>
      let dag := chain P sid earlier
      (dag.add P (Op.create P key sid dag.heads body)).2

end CausalFrontierRatchet.RemoveWins
