import CausalFrontierRatchet.CausalPast
import CausalFrontierRatchet.MemberRuns

/-!
What an authorisation verdict depends on besides the causal past of the operation: whether its author
is held guilty when accusations of it lie in the past, and, for a founding operation, whether another
founder is stored anywhere in the graph.
-/

namespace CausalFrontierRatchet.Authorisation

open Crypto Operation OperationGraph CausalMembership KeySchedule Messages Member
open MemberRuns RemoveWins CausalPast

/-! ## Members with and without accusations -/

section Accusations

variable (m : Membership) (x : SigPublic)

/-- An eviction by the identity itself or by an administrator. -/
def DirectEviction (o : Oid) : Prop :=
  ∃ op, m.dag.get o = some op ∧ op.body = .remove x ∧ (op.author = x ∨ op.author ∈ m.policy.admins)

def Accusation (o : Oid) : Prop :=
  ∃ op, m.dag.get o = some op ∧ ∃ coid key seq, op.body = .accuse x coid key seq

/-- Some admission follows every counted eviction, accusations included if the identity is judged
guilty.  The guilty identities of the evaluator do not enter. -/
def Survives (judged : Prop) : Prop :=
  ∃ admission, Admission m x admission ∧
    (∀ o, DirectEviction m x o → Before m.dag o admission) ∧
    (Quorum m x → ∀ a o, LeastVote m x a o → Before m.dag o admission) ∧
    (judged → ∀ o, Accusation m x o → Before m.dag o admission)

variable {m x}

theorem proven_iff {o : Oid} :
    Proven m x o ↔ DirectEviction m x o ∨ (x ∈ m.guilty ∧ Accusation m x o) := by
  constructor
  · rintro ⟨op, hop, hremove | ⟨haccuse, hguilty⟩⟩
    · exact Or.inl ⟨op, hop, hremove⟩
    · exact Or.inr ⟨hguilty, op, hop, haccuse⟩
  · rintro (⟨op, hop, hremove⟩ | ⟨hguilty, op, hop, haccuse⟩)
    · exact ⟨op, hop, Or.inl hremove⟩
    · exact ⟨op, hop, Or.inr ⟨haccuse, hguilty⟩⟩

theorem mem_members_iff_survives {P : Primitives} (hsound : Sound P m.dag) :
    x ∈ m.members ↔ Survives m x (x ∈ m.guilty) := by
  rw [mem_members_iff hsound]
  refine exists_congr fun admission => and_congr_right fun _ => ?_
  simp only [proven_iff]
  constructor
  · rintro ⟨hproven, hvotes⟩
    exact ⟨fun o ho => hproven o (Or.inl ho), hvotes, fun hg o ho => hproven o (Or.inr ⟨hg, ho⟩)⟩
  · rintro ⟨hdirect, hvotes, haccused⟩
    refine ⟨?_, hvotes⟩
    rintro o (ho | ⟨hg, ho⟩)
    · exact hdirect o ho
    · exact haccused hg o ho

theorem Survives.mono {judged judged' : Prop} (h : Survives m x judged) (himp : judged' → judged) :
    Survives m x judged' := by
  obtain ⟨admission, hadmission, hdirect, hvotes, haccused⟩ := h
  exact ⟨admission, hadmission, hdirect, hvotes, fun hj => haccused (himp hj)⟩

end Accusations

/-! ## The verdict -/

section Verdict

variable {P : Primitives}

/-- Another identity has founded the conference. -/
def Rival (dag : Dag) (x : SigPublic) : Prop :=
  ∃ o op, dag.get o = some op ∧ founding op ∧ op.author ≠ x

/-- The first operation of a founder founds the conference. -/
theorem founding_new (p : Participant) (hblank : p.dag = Dag.new)
    (hkey : p.ipk = P.ed25519Public p.identity) : founding (p.sign P (.add p.ipk)) := by
  have hheads : p.dag.heads = ∅ := by
    rw [hblank]
    refine Std.ExtTreeSet.ext_mem fun a => ?_
    simp [mem_heads, Dag.new, Dag.contains]
  simp [founding, Participant.sign, Op.create, hheads, hkey]

theorem decideOp_founding {op : Op} {past : Roster} {dag : Dag} (hfounding : founding op)
    (hpast : op.author ∉ past) : decideOp op past dag ↔ ¬Rival dag op.author := by
  have hbody : op.body = .add op.author := by
    simp only [founding, Bool.and_eq_true, decide_eq_true_eq] at hfounding
    exact hfounding.2
  have hno : past.contains op.author = false := by
    simpa [← Std.ExtTreeSet.contains_iff_mem] using hpast
  simp [decideOp, hbody, hno, hfounding, Rival, Dag.get,
    Std.ExtTreeMap.mem_toList_iff_getElem?_eq_some]

theorem decideOp_other {op : Op} {past : Roster} {dag : Dag} (hfounding : ¬founding op) :
    decideOp op past dag ↔ op.body = .remove op.author ∨ op.author ∈ past := by
  unfold decideOp
  cases hbody : op.body <;> simp [hfounding, Std.ExtTreeSet.contains_iff_mem]

theorem pastOf_eq {m : Membership} {op : Op} (habsent : ¬m.dag.contains (op.oid P)) :
    m.pastOf P op = m.dag.causalClosure op.deps.toList := by
  simp only [Membership.pastOf, Dag.causalClosure, habsent, Std.ExtTreeSet.foldl_eq_foldl_toList]
  rfl

/-- What lies before a stored operation lies before its dependencies or is one of them. -/
theorem pastOf_stored {m : Membership} (hsound : Sound P m.dag) {op : Op}
    (hget : m.dag.get (op.oid P) = some op) :
    m.pastOf P op = m.dag.causalClosure op.deps.toList := by
  ext a
  rw [Membership.pastOf, Std.ExtTreeSet.foldl_eq_foldl_toList, mem_foldl_closure,
    if_pos (contains_iff.mpr ⟨op, hget⟩), mem_ancestors, mem_causalClosure, or_iff_right_iff_imp]
  intro hbefore
  obtain ⟨d, had, hd⟩ := Relation.TransGen.tail'_iff.mp hbefore
  obtain ⟨hcontains, -, op', hget', hdep⟩ := hsound.parent hd
  obtain rfl := Option.some.inj (hget.symm.trans hget')
  refine ⟨d, Std.ExtTreeSet.mem_toList.mpr hdep, hcontains, ?_⟩
  exact (Relation.reflTransGen_iff_eq_or_transGen.mp had).imp_left Eq.symm

theorem closed_causalClosure {dag : Dag} (heads : List Oid) : Closed dag (dag.causalClosure heads) := by
  intro a b hab hb
  rw [mem_causalClosure] at hb ⊢
  obtain ⟨d, hd, hc, rfl | hbd⟩ := hb
  · exact ⟨b, hd, hc, Or.inr (.single hab)⟩
  · exact ⟨d, hd, hc, Or.inr (.head hab hbd)⟩

/-- The causal past of an operation. -/
def past (p : Participant) (op : Op) : Membership :=
  within p.membership (p.dag.causalClosure op.deps.toList)

section Decision

variable {p : Participant} {op : Op}
  (hpast : p.membership.pastOf P op = p.dag.causalClosure op.deps.toList)

include hpast

theorem membersBefore_eq : p.membership.membersBefore P op = (past p op).members := by
  rw [Membership.membersBefore, hpast]
  exact membersIn_eq (closed_causalClosure _)

/-- The verdict on an operation that is not a founding one. -/
theorem authorised_other (hsound : Sound P p.dag) (hfounding : ¬founding op) :
    p.authorised P op ↔
      op.body = .remove op.author ∨ Survives (past p op) op.author (op.author ∈ p.guilty) := by
  have hsound : Sound P (past p op).dag := induced_sound hsound (closed_causalClosure _)
  rw [Participant.authorised, decideOp_other hfounding, membersBefore_eq hpast,
    mem_members_iff_survives hsound]
  rfl

/-- The verdict on a founding operation. -/
theorem authorised_founding (hfounding : founding op) :
    p.authorised P op ↔ ¬Rival p.dag op.author := by
  rw [Participant.authorised, decideOp_founding hfounding]
  have hdeps : op.deps.toList = [] := by
    have hempty : op.deps.isEmpty = true := by
      simp only [founding, Bool.and_eq_true] at hfounding
      exact hfounding.1
    simpa using hempty
  rw [membersBefore_eq hpast]
  intro hmember
  have hadmitted : op.author ∈ (past p op).admitted none := by
    simp only [Membership.members, Membership.membersIn, Std.ExtTreeSet.mem_filter] at hmember
    exact hmember.1
  obtain ⟨o, add, hmem, -⟩ := mem_admitted.mp hadmitted
  have hget : (induced p.dag (p.dag.causalClosure op.deps.toList)).get o = some add :=
    (mem_iter.mp hmem).1
  rw [induced_get, hdeps] at hget
  simp [mem_causalClosure] at hget

end Decision

end Verdict

/-! ## Two participants -/

section Agreement

/-- The causal closure of the dependencies is the same set of operations in both graphs. -/
structure SamePast (p q : Participant) (op : Op) : Prop where
  closure : p.dag.causalClosure op.deps.toList = q.dag.causalClosure op.deps.toList
  same : ∀ o ∈ p.dag.causalClosure op.deps.toList, p.dag.get o = q.dag.get o

/-- A founding operation meets a rival in both graphs or in none.  For any other operation but a
self-eviction, the author is held guilty by both or by none, or counting the accusations of it in
the past makes no difference. -/
def Independent (p q : Participant) (op : Op) : Prop :=
  if founding op then (Rival p.dag op.author ↔ Rival q.dag op.author)
  else op.body = .remove op.author ∨ (op.author ∈ p.guilty ↔ op.author ∈ q.guilty) ∨
    (Survives (past p op) op.author False → Survives (past p op) op.author True)

variable {P : Primitives} {p q : Participant} {op : Op}

theorem survives_congr (hp : Wellformed P p) (hq : Wellformed P q) (hpolicy : p.policy = q.policy)
    (hsame : SamePast p q op) {judged : Prop} :
    Survives (past q op) op.author judged ↔ Survives (past p op) op.author judged := by
  have hgraph : (past q op).dag = (past p op).dag := by
    change induced q.dag _ = induced p.dag _
    rw [← hsame.closure]
    exact (induced_eq hp.sound hp.complete hq.sound hq.complete hsame.same).symm
  have hpast : past q op = { past p op with guilty := q.guilty } := by
    change { past p op with dag := (past q op).dag, policy := q.policy, guilty := q.guilty } = _
    rw [hgraph, ← hpolicy]
    rfl
  rw [hpast]
  exact Iff.rfl

/-- Two participants with the same policy agree on an operation neither holds, whose past they
share, exactly when nothing outside the past matters for it. -/
theorem authorised_eq_iff (hp : Reachable P p) (hq : Reachable P q) (hpolicy : p.policy = q.policy)
    (_hsig : op.verify P = .ok ()) (habsent : ¬p.dag.contains (op.oid P))
    (habsent' : ¬q.dag.contains (op.oid P)) (_hdeps : p.depsAvailable op)
    (_hdeps' : q.depsAvailable op) (hsame : SamePast p q op) :
    p.authorised P op = q.authorised P op ↔ Independent p q op := by
  have hwp := hp.wellformed
  have hwq := hq.wellformed
  rw [Bool.eq_iff_iff]
  by_cases hfounding : founding op
  · rw [authorised_founding (pastOf_eq habsent) hfounding,
      authorised_founding (pastOf_eq habsent') hfounding, Independent, if_pos hfounding, not_iff_not]
  · rw [authorised_other (pastOf_eq habsent) hwp.sound hfounding,
      authorised_other (pastOf_eq habsent') hwq.sound hfounding, Independent, if_neg hfounding,
      survives_congr hwp hwq hpolicy hsame]
    by_cases hself : op.body = .remove op.author
    · simp [hself]
    have hmono := fun h : Survives (past p op) op.author True => h.mono False.elim
    by_cases hgp : op.author ∈ p.guilty
    · by_cases hgq : op.author ∈ q.guilty
      · simp [hgp, hgq]
      · simp only [hself, hgp, hgq, false_or, iff_false, not_true_eq_false]
        exact ⟨fun h => h.mpr, fun h => ⟨hmono, h⟩⟩
    · by_cases hgq : op.author ∈ q.guilty
      · simp only [hself, hgp, hgq, false_or, false_iff, not_true_eq_false]
        exact ⟨fun h => h.mp, fun h => ⟨h, hmono⟩⟩
      · simp [hgp, hgq]

end Agreement

/-! ## An accusation that arrives before the contribution it accuses -/

section Scenario

def opener : Participant :=
  founded toy (.leaderless 2) [1, 5, 6, 7, 11, 12, 13, 14]

def invitation : Call :=
  .invite ((⟨2, .at_ toy 0 21, .leaderless 2, []⟩ : PendingJoin).keyPackage toy)

/-- A founder that has invited one guest. -/
def host : Participant :=
  invitation.run toy opener

/-- A contribution of the guest whose slice for itself opens to another secret than the committed
one. -/
def equivocal : Op :=
  let cid := commitment toy 8
  Op.create toy 2 5 host.dag.heads (.contrib cid host.frontier [2]
    [{ recipient := 2, establish := none, seq := 0
       ct := aeadSeal toy 3 (Participant.sliceNonce toy 5 cid 2 0) (BigEndian.bytesOf (9 : Secret))
         (Participant.contribAd toy cid 0) }] 0)

/-- The guest accuses itself, without naming the contribution among the dependencies. -/
def selfAccusation : Op :=
  Op.create toy 2 5 host.dag.heads (.accuse 2 (equivocal.oid toy) 3 0)

def sequel : Op :=
  Op.create toy 2 5 (.ofList [selfAccusation.oid toy]) (.prekeys 1 4)

def wireOf (op : Op) : BigEndian.Bytes :=
  (Message.op op).toWire

/-- The host after the accusation alone. -/
def unaware : Participant :=
  (Call.handle (wireOf selfAccusation)).run toy host

/-- The host after the contribution and the accusation. -/
def aware : Participant :=
  (Call.handle (wireOf selfAccusation)).run toy ((Call.handle (wireOf equivocal)).run toy host)

theorem opener_created :
    ∃ out, create toy (.leaderless 2) [1, 5, 6, 7, 11, 12, 13, 14] = .ok (out, opener) :=
  create_founded (by decide +kernel)

theorem opener_start {src : Op → Prop} {rep : Oid → Secret → Prop} : Start toy src rep opener := by
  obtain ⟨out, hcreate⟩ := opener_created
  exact .created hcreate

theorem host_reachable : Reachable toy host :=
  Reachable.next ⟨_, opener_start, .start⟩ _

theorem unaware_reachable : Reachable toy unaware :=
  host_reachable.next _

theorem aware_reachable : Reachable toy aware :=
  (host_reachable.next _).next _

theorem verify_of_isSome {P : Primitives} {op : Op} (h : (op.verify P).toOption.isSome) :
    op.verify P = .ok () := by
  cases hv : op.verify P with
  | error e =>
      rw [hv] at h
      cases h
  | ok u => rfl

theorem unaware_aware_checks :
    ((sequel.verify toy).toOption.isSome ∧ unaware.policy = aware.policy ∧
      ¬unaware.dag.contains (sequel.oid toy) ∧ ¬aware.dag.contains (sequel.oid toy) ∧
      unaware.depsAvailable sequel ∧ aware.depsAvailable sequel) ∧
    (unaware.dag.causalClosure sequel.deps.toList = aware.dag.causalClosure sequel.deps.toList ∧
      (unaware.dag.causalClosure sequel.deps.toList).toList.all fun o =>
        unaware.dag.get o = aware.dag.get o) ∧
    unaware.authorised toy sequel ∧ ¬aware.authorised toy sequel := by
  decide +kernel

theorem unaware_aware_samePast : SamePast unaware aware sequel where
  closure := unaware_aware_checks.2.1.1
  same := by
    have hall := unaware_aware_checks.2.1.2
    simpa using hall

/-- The theorem at two participants of one conference that differ in the verdict. -/
theorem unaware_aware_agreement : SamePast unaware aware sequel ∧
    (unaware.authorised toy sequel = aware.authorised toy sequel ↔
      Independent unaware aware sequel) := by
  obtain ⟨hverified, hpolicy, habsent, habsent', hdeps, hdeps'⟩ := unaware_aware_checks.1
  exact ⟨unaware_aware_samePast, authorised_eq_iff unaware_reachable aware_reachable hpolicy
    (verify_of_isSome hverified) habsent habsent' hdeps hdeps' unaware_aware_samePast⟩

/-- Both hold the same past of the operation; the one that has seen the contribution refuses it. -/
theorem verdict_depends_on_guilt :
    Reachable toy unaware ∧ Reachable toy aware ∧ unaware.policy = aware.policy ∧
      sequel.verify toy = .ok () ∧ ¬unaware.dag.contains (sequel.oid toy) ∧
      ¬aware.dag.contains (sequel.oid toy) ∧ unaware.depsAvailable sequel ∧
      aware.depsAvailable sequel ∧ SamePast unaware aware sequel ∧
      unaware.authorised toy sequel ∧ ¬aware.authorised toy sequel := by
  obtain ⟨hverified, hpolicy, habsent, habsent', hdeps, hdeps'⟩ := unaware_aware_checks.1
  exact ⟨unaware_reachable, aware_reachable, hpolicy, verify_of_isSome hverified, habsent, habsent',
    hdeps, hdeps', unaware_aware_samePast, unaware_aware_checks.2.2⟩

end Scenario

end CausalFrontierRatchet.Authorisation
