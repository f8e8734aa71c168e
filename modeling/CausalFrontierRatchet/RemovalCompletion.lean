import CausalFrontierRatchet.Authorisation

/-!
When a removal is reported complete.  The report looks for a contribution after any eviction of the
identity, also after a vote that does not count yet, and never looks at later admissions.  So an
identity whose removal is reported complete is still a member exactly if it was only voted against,
by fewer than the quorum, or was admitted again after every eviction that counts.
-/

namespace CausalFrontierRatchet.RemovalCompletion

open Crypto Operation OperationGraph CausalMembership
open Commands Member MemberRuns RemoveWins Authorisation

/-- Whether an operation evicts an identity, by a vote or as an accusation that was proven. -/
def evicts (guilty : Roster) (who : SigPublic) (op : Op) : Bool :=
  match op.body with
  | .remove w => w = who
  | .accuse w _ _ _ => w = who && guilty.contains who
  | _ => false

/-- Whether a contribution was made by another author and not for the identity. -/
def excludes (who : SigPublic) (op : Op) : Bool :=
  match op.body with
  | .contrib _ _ recips _ _ => !(recips.contains who || op.author = who)
  | _ => false

/-- Whether some node of the frontier was created after an eviction, does not address the evicted
party and was not authored by it. -/
def removalComplete (p : Participant) (who : SigPublic) : Bool :=
  let removals := (p.dag.ops.toList.filter fun entry => evicts p.guilty who entry.2).map Prod.fst
  if removals.isEmpty then false
  else
    p.frontier.toList.any fun f =>
      match p.dag.get f with
      | none => false
      | some op => excludes who op && removals.any fun r => p.dag.precedes r f

/-! ## Evictions -/

section Evictions

variable (m : Membership) (x : SigPublic)

/-- An eviction, whether it counts or not. -/
def Eviction (o : Oid) : Prop :=
  ∃ op, m.dag.get o = some op ∧ evicts m.guilty x op

/-- An eviction that the evaluator counts. -/
def Counted (o : Oid) : Prop :=
  Proven m x o ∨ (Quorum m x ∧ ∃ a, LeastVote m x a o)

/-- An admitted identity that was only voted against, by fewer than the quorum. -/
structure Undecided : Prop where
  admitted : ∃ admission, Admission m x admission
  voted : ∃ a o, Vote m x a o
  unproven : ∀ o, ¬Proven m x o
  short : ¬Quorum m x

/-- An identity that was evicted and then admitted, after every eviction that counts. -/
structure Readmitted : Prop where
  counted : ∃ o, Counted m x o
  later : ∃ admission, Admission m x admission ∧ ∀ o, Counted m x o → Before m.dag o admission

variable {m x}

theorem evicts_iff {guilty : Roster} {op : Op} : evicts guilty x op ↔
    op.body = .remove x ∨ ((∃ coid key seq, op.body = .accuse x coid key seq) ∧ x ∈ guilty) := by
  unfold evicts
  cases op.body <;> simp

/-- Every eviction is proven or a vote. -/
theorem eviction_cases {o : Oid} (h : Eviction m x o) : Proven m x o ∨ ∃ a, Vote m x a o := by
  obtain ⟨op, hget, hevicts⟩ := h
  rcases evicts_iff.mp hevicts with hremove | haccuse
  · by_cases hdirect : op.author = x ∨ op.author ∈ m.policy.admins
    · exact Or.inl ⟨op, hget, Or.inl ⟨hremove, hdirect⟩⟩
    · rw [not_or] at hdirect
      exact Or.inr ⟨op.author, op, hget, hremove, rfl, hdirect⟩
  · exact Or.inl ⟨op, hget, Or.inr haccuse⟩

theorem member_iff_counted {P : Primitives} (hsound : Sound P m.dag) : x ∈ m.members ↔
    ∃ admission, Admission m x admission ∧ ∀ o, Counted m x o → Before m.dag o admission := by
  rw [mem_members_iff hsound]
  refine exists_congr fun admission => and_congr_right fun _ => ?_
  constructor
  · rintro ⟨hproven, hvotes⟩ o (ho | ⟨hquorum, a, ho⟩)
    · exact hproven o ho
    · exact hvotes hquorum a o ho
  · intro h
    exact ⟨fun o ho => h o (Or.inl ho), fun hquorum a o ho => h o (Or.inr ⟨hquorum, a, ho⟩)⟩

/-- How an evicted identity can be a member. -/
theorem member_iff_of_evicted {P : Primitives} (hsound : Sound P m.dag)
    (hevicted : ∃ o, Eviction m x o) : x ∈ m.members ↔ Undecided m x ∨ Readmitted m x := by
  rw [member_iff_counted hsound]
  constructor
  · rintro ⟨admission, hadmission, hlater⟩
    by_cases hcounted : ∃ o, Counted m x o
    · exact Or.inr ⟨hcounted, admission, hadmission, hlater⟩
    -- No eviction counts, so the one there is must be a vote without a quorum.
    have hproven : ∀ o, ¬Proven m x o := fun o ho => hcounted ⟨o, Or.inl ho⟩
    obtain ⟨o, ho⟩ := hevicted
    obtain ⟨a, hvote⟩ := (eviction_cases ho).resolve_left (hproven o)
    refine Or.inl ⟨⟨admission, hadmission⟩, ⟨a, o, hvote⟩, hproven, fun hquorum => ?_⟩
    obtain ⟨least, hleast⟩ := exists_leastVote hvote
    exact hcounted ⟨least, Or.inr ⟨hquorum, a, hleast⟩⟩
  · rintro (⟨⟨admission, hadmission⟩, -, hproven, hshort⟩ | ⟨-, hlater⟩)
    · refine ⟨admission, hadmission, ?_⟩
      rintro o (ho | ⟨hquorum, -⟩)
      · exact absurd ho (hproven o)
      · exact absurd hquorum hshort
    · exact hlater

end Evictions

/-! ## The report -/

section Report

variable {P : Primitives} {p : Participant} {who : SigPublic}

/-- What a complete removal says. -/
theorem removalComplete_iff : removalComplete p who ↔
    ∃ f op, f ∈ p.frontier ∧ p.dag.get f = some op ∧ excludes who op ∧
      ∃ r, Eviction p.membership who r ∧ p.dag.precedes r f := by
  have hmem : ∀ r, r ∈ (p.dag.ops.toList.filter fun entry => evicts p.guilty who entry.2).map
      Prod.fst ↔ Eviction p.membership who r := by
    intro r
    simp [Eviction, Participant.membership, Dag.get]
  unfold removalComplete
  generalize (p.dag.ops.toList.filter fun entry => evicts p.guilty who entry.2).map Prod.fst =
    removals at hmem
  have hany : (p.frontier.toList.any fun f =>
      match p.dag.get f with
      | none => false
      | some op => excludes who op && removals.any fun r => p.dag.precedes r f) = true ↔
      ∃ f op, f ∈ p.frontier ∧ p.dag.get f = some op ∧ excludes who op ∧
        ∃ r, Eviction p.membership who r ∧ p.dag.precedes r f := by
    rw [List.any_eq_true]
    refine exists_congr fun f => ?_
    cases hget : p.dag.get f with
    | none => simp
    | some op => simp [hmem]
  cases hremovals : removals with
  | nil =>
      simp only [List.isEmpty_nil, if_true, Bool.false_eq_true, false_iff]
      rintro ⟨f, op, -, -, -, r, hr, -⟩
      rw [← hmem, hremovals] at hr
      exact List.not_mem_nil hr
  | cons r rest =>
      rw [hremovals] at hany
      exact hany

theorem evicted_of_removalComplete (h : removalComplete p who) :
    ∃ o, Eviction p.membership who o := by
  obtain ⟨-, -, -, -, -, r, hr, -⟩ := removalComplete_iff.mp h
  exact ⟨r, hr⟩

/-- A node key request of a stranger is not answered. -/
theorem answerNodeKeysFor_stranger (h : who ∉ p.members) (nodes : List Oid) :
    answerNodeKeysFor P who nodes p = (.ok none, p) := by
  have hstranger : p.members.contains who = false := by
    simpa [← Std.ExtTreeSet.contains_iff_mem] using h
  rw [answerNodeKeysFor, bind_run, get_run]
  dsimp only
  rw [hstranger]
  rfl

end Report

/-- An identity whose removal is reported complete has ceased to be a member exactly if it was not
only voted against by fewer than the quorum and was not admitted again; and then nobody in this
state answers its node key requests. -/
theorem removal_complete_sound_iff {P : Primitives} {p : Participant} (hp : Reachable P p)
    {who : SigPublic} (h : removalComplete p who) :
    (who ∉ p.members ↔ ¬Undecided p.membership who ∧ ¬Readmitted p.membership who) ∧
    (¬Undecided p.membership who ∧ ¬Readmitted p.membership who → ∀ nodes,
      answerNodeKeysFor P who nodes p = (.ok none, p)) := by
  have hmember : who ∈ p.members ↔ Undecided p.membership who ∨ Readmitted p.membership who :=
    member_iff_of_evicted hp.wellformed.sound (evicted_of_removalComplete h)
  have hiff : who ∉ p.members ↔ ¬Undecided p.membership who ∧ ¬Readmitted p.membership who := by
    rw [hmember, not_or]
  exact ⟨hiff, fun hnot => answerNodeKeysFor_stranger (hiff.mpr hnot)⟩

/-! ## One vote out of two -/

section Scenario

/-- A founder under a quorum that has invited one guest and then removes it. -/
def remover (quorum : UInt64) : Participant :=
  (Call.remove 2).run toy (invitation.run toy
    (founded toy (.leaderless quorum) ([1, 5, 6, 7] ++ List.replicate 8 11)))

theorem remover_reachable {quorum : UInt64}
    (h : (create toy (.leaderless quorum) ([1, 5, 6, 7] ++ List.replicate 8 11)).isOk) :
    Reachable toy (remover quorum) :=
  Reachable.next (Reachable.next ⟨_, start_founded h, .start⟩ _) _

/-- With a quorum of one the removal is complete and the guest is gone. -/
theorem removal_by_one : removalComplete (remover 1) 2 ∧
    ¬Undecided (remover 1).membership 2 ∧ ¬Readmitted (remover 1).membership 2 ∧
    answerNodeKeysFor toy 2 (remover 1).frontier.toList (remover 1) = (.ok none, remover 1) := by
  have hchecks : (create toy (.leaderless 1) ([1, 5, 6, 7] ++ List.replicate 8 11)).isOk ∧
      removalComplete (remover 1) 2 ∧ (remover 1).members.contains 2 = false := by
    decide +kernel
  obtain ⟨hcreate, hcomplete, hgone⟩ := hchecks
  have hsound := removal_complete_sound_iff (remover_reachable hcreate) hcomplete
  have hnot := hsound.1.mp (by simpa [← Std.ExtTreeSet.contains_iff_mem] using hgone)
  exact ⟨hcomplete, hnot.1, hnot.2, hsound.2 hnot _⟩

/-- With a quorum of two the founder's vote does not evict the guest.  The removal is complete all
the same, and a request of the guest is answered with the key of the frontier. -/
theorem removal_complete_of_member : Reachable toy (remover 2) ∧ removalComplete (remover 2) 2 ∧
    2 ∈ (remover 2).members ∧
    ((answerNodeKeysFor toy 2 (remover 2).frontier.toList (remover 2)).1.toOption.bind
      id).isSome := by
  have hchecks : (create toy (.leaderless 2) ([1, 5, 6, 7] ++ List.replicate 8 11)).isOk ∧
      removalComplete (remover 2) 2 ∧ (remover 2).members.contains 2 ∧
      ((answerNodeKeysFor toy 2 (remover 2).frontier.toList (remover 2)).1.toOption.bind
        id).isSome := by
    decide +kernel
  obtain ⟨hcreate, hcomplete, hmember, hanswer⟩ := hchecks
  exact ⟨remover_reachable hcreate, hcomplete, Std.ExtTreeSet.contains_iff_mem.mp hmember, hanswer⟩

end Scenario

end CausalFrontierRatchet.RemovalCompletion
