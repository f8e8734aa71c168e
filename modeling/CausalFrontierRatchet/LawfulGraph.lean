import CausalFrontierRatchet.Authorisation
import CausalFrontierRatchet.Intake

/-!
Whether the operations a participant holds are authorised against their own causal past.  Remote
operations are checked when they are stored; operations of its own are stored unchecked, on top of
all heads, and a later conviction can take the authorisation of a stored operation away.
-/

namespace CausalFrontierRatchet.LawfulGraph

open Relation Crypto Operation OperationGraph CausalMembership Channel
open Messages Member MemberSteps MemberRuns CausalPast RemoveWins Authorisation Ingest
open MemberActions Intake

/-- Every stored operation is authorised against its own causal past. -/
def Lawful (P : Primitives) (p : Participant) : Prop :=
  ∀ o op, p.dag.get o = some op → p.membership.authorised P op

/-! ## Verdicts on stored operations -/

section Verdicts

variable {P : Primitives} {p : Participant} {op new : Op} {dag : Dag}

/-- What a verdict reads. -/
def Warranted (p : Participant) (op : Op) : Prop :=
  if founding op then ¬Rival p.dag op.author
  else op.body = .remove op.author ∨ Survives (past p op) op.author (op.author ∈ p.guilty)

theorem authorised_iff (hsound : Sound P p.dag)
    (hpast : p.membership.pastOf P op = p.dag.causalClosure op.deps.toList) :
    p.membership.authorised P op ↔ Warranted p op := by
  change p.authorised P op ↔ _
  unfold Warranted
  split_ifs with hfounding
  · exact authorised_founding hpast hfounding
  · exact authorised_other hpast hsound hfounding

theorem lawful_iff (hp : Consistent P p) :
    Lawful P p ↔ ∀ o op, p.dag.get o = some op → Warranted p op := by
  refine forall_congr' fun o => forall_congr' fun op => imp_congr_right fun hop => ?_
  refine authorised_iff hp.sound (pastOf_stored hp.sound ?_)
  rw [hp.sound.keyed hop]
  exact hop

/-- Storing an operation leaves the past of the others alone. -/
theorem past_added (hp : Consistent P p) (hadd : Added P p.dag new dag)
    (hnew : ∀ d ∈ new.deps, p.dag.contains d) (hdeps : ∀ d ∈ op.deps, p.dag.contains d) :
    past { p with dag } op = past p op := by
  have hclosure : dag.causalClosure op.deps.toList = p.dag.causalClosure op.deps.toList :=
    hadd.causalClosure_eq hp.sound fun d hd => hdeps d (Std.ExtTreeSet.mem_toList.mp hd)
  have hinduced : induced dag (p.dag.causalClosure op.deps.toList) =
      induced p.dag (p.dag.causalClosure op.deps.toList) := by
    refine induced_eq (hp.sound.added hadd) (hp.complete.added hadd hnew) hp.sound hp.complete ?_
    intro o ho
    obtain ⟨h, -, hcontains, hoh⟩ := mem_causalClosure.mp ho
    have hold : p.dag.contains o := by
      rcases hoh with rfl | hbefore
      · exact hcontains
      · exact (hp.sound.before hbefore).1
    rw [hadd.get, if_neg (hadd.ne_of_contains hold)]
  change { p.membership with dag := induced dag (dag.causalClosure op.deps.toList) } = _
  rw [hclosure, hinduced]
  rfl

theorem Warranted.added (hp : Consistent P p) (hadd : Added P p.dag new dag)
    (hnew : ∀ d ∈ new.deps, p.dag.contains d) (hdeps : ∀ d ∈ op.deps, p.dag.contains d)
    (hfounders : founding op → founding new → new.author = op.author) (h : Warranted p op) :
    Warranted { p with dag } op := by
  unfold Warranted at h ⊢
  split_ifs at h ⊢ with hfounding
  · rintro ⟨o, rival, hget, hrival, hauthor⟩
    rw [hadd.get] at hget
    split_ifs at hget
    · cases hget
      exact hauthor (hfounders hfounding hrival)
    · exact h ⟨o, rival, hget, hrival, hauthor⟩
  · rwa [past_added hp hadd hnew hdeps]

/-- A graph stays lawful when an authorised operation is stored. -/
theorem Lawful.added (hp : Consistent P p) (hl : Lawful P p) (hadd : Added P p.dag new dag)
    (hnew : ∀ d ∈ new.deps, p.dag.contains d) (hauth : p.authorised P new) :
    Lawful P { p with dag } := by
  rw [lawful_iff hp] at hl
  rw [lawful_iff (hp.added hadd hnew)]
  have habsent : ¬p.dag.contains (new.oid P) := by
    rw [hadd.fresh]
    exact Bool.false_ne_true
  have hwarranted : Warranted p new := (authorised_iff hp.sound (pastOf_eq habsent)).mp hauth
  intro o op hop
  rw [hadd.get] at hop
  split_ifs at hop
  · cases hop
    exact hwarranted.added hp hadd hnew hnew fun _ _ => rfl
  · have hdeps : ∀ d ∈ op.deps, p.dag.contains d :=
      fun d hd => (hp.sound.parent (hp.complete hop d hd)).1
    refine (hl o op hop).added hp hadd hnew hdeps fun hfounding hfounding' => ?_
    -- A founder that is let in has no rival, in particular not this one.
    rw [Warranted, if_pos hfounding'] at hwarranted
    by_contra hauthor
    exact hwarranted ⟨o, op, hop, hfounding, Ne.symm hauthor⟩

/-- No accusation of the identity behind one of its operations would make a difference. -/
def Cleared (p : Participant) (who : SigPublic) : Prop :=
  ∀ o op, p.dag.get o = some op → op.author = who →
    founding op ∨ op.body = .remove who ∨ Survives (past p op) who True

/-- The identity is held guilty already, or may be. -/
def Justified (p : Participant) (who : SigPublic) : Prop :=
  who ∈ p.guilty ∨ Cleared p who

theorem Lawful.convicted (hp : Consistent P p) (hl : Lawful P p) {who : SigPublic}
    (hwho : Justified p who) : Lawful P { p with guilty := p.guilty.insert who } := by
  have hp' : Consistent P { p with guilty := p.guilty.insert who } :=
    ⟨hp.sound, hp.complete, hp.parked, hp.key, hp.buffered⟩
  rw [lawful_iff hp] at hl
  rw [lawful_iff hp']
  intro o op hop
  have h := hl o op hop
  unfold Warranted at h ⊢
  split_ifs at h ⊢ with hfounding
  · exact h
  by_cases hauthor : op.author = who
  · rcases hwho with hguilty | hcleared
    · exact h.imp_right fun hsurvives => hsurvives.mono fun _ => by rwa [hauthor]
    · rcases hcleared o op hop hauthor with hf | hself | htrue
      · exact absurd hf hfounding
      · exact Or.inl (by rw [hself, hauthor])
      · rw [hauthor]
        exact Or.inr (htrue.mono fun _ => trivial)
  · refine h.imp_right fun hsurvives => hsurvives.mono fun hmem => ?_
    exact (Std.ExtTreeSet.mem_insert.mp hmem).resolve_left fun heq =>
      hauthor (Std.compare_eq_iff_eq.mp heq).symm

end Verdicts

/-! ## Own operations -/

section Own

variable {P : Primitives} {p p' : Participant} {body : Body} {x : SigPublic}

theorem sign_author (hp : Consistent P p) (body : Body) : (p.sign P body).author = p.ipk :=
  hp.key.symm

/-- An own operation has everything stored in its past. -/
theorem survives_own (hsound : Sound P p.dag) {judged : Prop} :
    Survives (past p (p.sign P body)) x judged ↔ Survives p.membership x judged := by
  have hall : ∀ o, p.dag.contains o → o ∈ p.dag.causalClosure p.dag.heads.toList := by
    intro o ho
    obtain ⟨b, hb, hob⟩ := hsound.exists_head ho
    refine mem_causalClosure.mpr ⟨b, Std.ExtTreeSet.mem_toList.mpr hb, (mem_heads.mp hb).1, ?_⟩
    exact (reflTransGen_iff_eq_or_transGen.mp hob).imp_left Eq.symm
  have hpast : past p (p.sign P body) = { p.membership with dag := { p.dag with epoch := 0 } } := by
    change { p.membership with dag := induced p.dag (p.dag.causalClosure p.dag.heads.toList) } = _
    rw [induced_all hsound hall]
  rw [hpast]
  exact Iff.rfl

theorem heads_ne_empty (hsound : Sound P p.dag) {o : Oid} (ho : p.dag.contains o) :
    p.dag.heads.isEmpty = false := by
  obtain ⟨b, hb, -⟩ := hsound.exists_head ho
  rw [Bool.eq_false_iff]
  intro hempty
  rw [Std.ExtTreeSet.isEmpty_iff.mp hempty] at hb
  exact Std.ExtTreeSet.not_mem_empty hb

/-- What a member signs is authorised. -/
theorem member_authorised (hp : Consistent P p) (hmember : p.ipk ∈ p.members)
    (habsent : ¬p.dag.contains ((p.sign P body).oid P)) : p.authorised P (p.sign P body) := by
  have hsurvives := (mem_members_iff_survives hp.sound).mp hmember
  obtain ⟨admission, ⟨add, hget, -⟩, -⟩ := id hsurvives
  have hfounding : ¬founding (p.sign P body) := by
    have hheads := heads_ne_empty hp.sound (contains_iff.mpr ⟨add, hget⟩)
    change ¬(p.dag.heads.isEmpty && _)
    simp [hheads]
  rw [authorised_other (pastOf_eq habsent) hp.sound hfounding, sign_author hp, survives_own hp.sound]
  exact Or.inr hsurvives

/-- Everybody may publish its own eviction. -/
theorem leave_authorised (hp : Consistent P p)
    (habsent : ¬p.dag.contains ((p.sign P (.remove p.ipk)).oid P)) :
    p.authorised P (p.sign P (.remove p.ipk)) := by
  have hfounding : ¬founding (p.sign P (.remove p.ipk)) := by
    simp [founding, Participant.sign, Op.create]
  rw [authorised_other (pastOf_eq habsent) hp.sound hfounding, sign_author hp]
  exact Or.inl rfl

theorem Lawful.published (hp : Consistent P p) (hl : Lawful P p)
    (hauth : ¬p.dag.contains ((p.sign P body).oid P) → p.authorised P (p.sign P body)) :
    Lawful P (published P p body) := by
  rcases published_cases (P := P) p body with hsame | hadd
  · intro o op hop
    rw [hsame] at hop
    have hmembership : (MemberActions.published P p body).membership = p.membership := by
      rw [Participant.membership, hsame]
      rfl
    rw [hmembership]
    exact hl o op hop
  · refine Lawful.added hp hl hadd (fun d hd => (mem_heads.mp hd).1) (hauth ?_)
    rw [hadd.fresh]
    exact Bool.false_ne_true

/-- The body neither evicts nor accuses the identity. -/
def Spares (x : SigPublic) (body : Body) : Prop :=
  body ≠ .remove x ∧ ∀ coid key seq, body ≠ .accuse x coid key seq

theorem Survives.added {m : Membership} {op : Op} {dag : Dag} {judged : Prop}
    (h : Survives m x judged) (hsound : Sound P m.dag) (hadd : Added P m.dag op dag)
    (hspares : Spares x op.body) : Survives { m with dag } x judged := by
  have hold : ∀ o op', dag.get o = some op' →
      op'.body = .remove x ∨ (∃ coid key seq, op'.body = .accuse x coid key seq) →
      m.dag.get o = some op' := by
    intro o op' hget hbody
    rw [hadd.get] at hget
    split_ifs at hget
    · cases hget
      rcases hbody with hremove | ⟨coid, key, seq, haccuse⟩
      · exact absurd hremove hspares.1
      · exact absurd haccuse (hspares.2 coid key seq)
    · exact hget
  have hvote : ∀ a o, Vote { m with dag } x a o ↔ Vote m x a o := by
    intro a o
    constructor
    · rintro ⟨op', hget, hbody, hrest⟩
      exact ⟨op', hold o op' hget (Or.inl hbody), hbody, hrest⟩
    · rintro ⟨op', hget, hrest⟩
      exact ⟨op', hadd.get_mono hget, hrest⟩
  obtain ⟨admission, ⟨add, hget, hbody⟩, hdirect, hvotes, haccused⟩ := h
  have hmono : ∀ {o}, Before m.dag o admission → Before dag o admission :=
    fun h => hadd.before_mono hsound h
  refine ⟨admission, ⟨add, hadd.get_mono hget, hbody⟩, ?_, ?_, ?_⟩
  · rintro o ⟨op', hget', hremove, hwho⟩
    exact hmono (hdirect o ⟨op', hold o op' hget' (Or.inl hremove), hremove, hwho⟩)
  · intro hquorum a o hleast
    simp only [Quorum, LeastVote, hvote] at hquorum hleast
    exact hmono (hvotes hquorum a o hleast)
  · rintro hjudged o ⟨op', hget', haccuse⟩
    exact hmono (haccused hjudged o ⟨op', hold o op' hget' (Or.inr haccuse), haccuse⟩)

theorem member_added {op : Op} {dag : Dag} (hsound : Sound P p.dag) (hadd : Added P p.dag op dag)
    (hspares : Spares x op.body) (h : x ∈ p.members) : x ∈ { p with dag }.members :=
  (mem_members_iff_survives (hsound.added hadd)).mpr
    (Survives.added ((mem_members_iff_survives hsound).mp h) hsound hadd hspares)

theorem member_published (hsound : Sound P p.dag) (hspares : Spares x body) (h : x ∈ p.members) :
    x ∈ (published P p body).members := by
  rcases published_cases (P := P) p body with hsame | hadd
  · rw [Participant.members, Participant.membership, hsame]
    exact h
  · exact member_added hsound hadd hspares h

theorem member_convicted (hsound : Sound P p.dag) {who : SigPublic} (hwho : who ≠ x)
    (h : x ∈ p.members) : x ∈ { p with guilty := p.guilty.insert who }.members := by
  have hsurvives : Survives p.membership x (x ∈ p.guilty) :=
    (mem_members_iff_survives hsound).mp h
  refine (mem_members_iff_survives hsound).mpr (hsurvives.mono fun hmem => ?_)
  exact (Std.ExtTreeSet.mem_insert.mp hmem).resolve_left fun heq =>
    hwho (Std.compare_eq_iff_eq.mp heq)

end Own

/-! ## Actions -/

section Acting

variable {P : Primitives} {p p' : Participant} {who : SigPublic}

/-- A member publishes something that does not cost it its membership. -/
def Entitled (p : Participant) (body : Body) : Prop :=
  p.ipk ∈ p.members ∧ Spares p.ipk body

def Rightful (p : Participant) (body : Body) : Prop :=
  Entitled p body ∨ body = .remove p.ipk

def JustifiedOther (p : Participant) (who : SigPublic) : Prop :=
  Justified p who ∧ who ≠ p.ipk

theorem Rightful.authorised {body : Body} (hp : Consistent P p) (h : Rightful p body)
    (habsent : ¬p.dag.contains ((p.sign P body).oid P)) : p.authorised P (p.sign P body) := by
  rcases h with hentitled | rfl
  · exact member_authorised hp hentitled.1 habsent
  · exact leave_authorised hp habsent

theorem Acts.lawful (h : Acts P Rightful Justified p p') (hp : Consistent P p) (hl : Lawful P p) :
    Lawful P p' := by
  induction h with
  | refl => exact hl
  | tail hacts haction ih =>
      have hq := Acts.consistent hacts hp
      cases haction with
      | silent h =>
          intro o op hop
          rw [h.membership]
          rw [h.dag] at hop
          exact ih o op hop
      | published h => exact ih.published hq (h.authorised hq)
      | convicted h => exact ih.convicted hq h

theorem Acts.member (h : Acts P Entitled JustifiedOther p p') (hp : Consistent P p)
    (hmember : p.ipk ∈ p.members) : p'.ipk ∈ p'.members := by
  induction h with
  | refl => exact hmember
  | tail hacts haction ih =>
      have hq := Acts.consistent hacts hp
      cases haction with
      | silent h =>
          rw [h.members, h.party.ipk]
          exact ih
      | published h => exact member_published hq.sound h.2 ih
      | convicted h => exact member_convicted hq.sound h.2 ih

theorem Acts.rightful (h : Acts P Entitled JustifiedOther p p') : Acts P Rightful Justified p p' :=
  h.mono (fun _ _ => Or.inl) fun _ _ => And.left

variable {may : Participant → Body → Prop} {convicts : Participant → SigPublic → Prop}

theorem action_cleared (h : Action P may convicts p p') (hp : Consistent P p) (hwho : who ≠ p.ipk)
    (hcleared : Cleared p who) : Cleared p' who := by
  intro o op hop hauthor
  cases h with
  | silent h =>
      have hpast : past p' op = past p op := by
        rw [past, past, h.membership, h.dag]
      rw [hpast]
      rw [h.dag] at hop
      exact hcleared o op hop hauthor
  | @published body h =>
      rcases published_cases (P := P) p body with hsame | hadd
      · rw [hsame] at hop
        have hpast : past (published P p body) op = past p op := by
          rw [past, past, Participant.membership, hsame]
          rfl
        rw [hpast]
        exact hcleared o op hop hauthor
      · rw [hadd.get] at hop
        split_ifs at hop
        · cases hop
          exact absurd ((sign_author hp body).symm.trans hauthor) (Ne.symm hwho)
        · have hdeps : ∀ d ∈ op.deps, p.dag.contains d :=
            fun d hd => (hp.sound.parent (hp.complete hop d hd)).1
          have hpast : past (published P p body) op = past p op :=
            past_added hp hadd (fun d hd => (mem_heads.mp hd).1) hdeps
          rw [hpast]
          exact hcleared o op hop hauthor
  | convicted h => exact hcleared o op hop hauthor

theorem Acts.justified (h : Acts P may convicts p p') (hp : Consistent P p) (hwho : who ≠ p.ipk)
    (hjustified : Justified p who) : Justified p' who := by
  induction h with
  | refl => exact hjustified
  | tail hacts haction ih =>
      rcases ih with hguilty | hcleared
      · left
        cases haction with
        | silent h => rwa [h.guilty]
        | published h => exact hguilty
        | convicted h => exact Std.ExtTreeSet.mem_insert.mpr (Or.inr hguilty)
      · right
        refine action_cleared haction (Acts.consistent hacts hp) ?_ hcleared
        rwa [(Acts.sameParty hacts).ipk]

/-- Whatever happens in between, only own operations are new. -/
theorem Acts.stored_before (h : Acts P may convicts p p') (hp : Consistent P p) {o : Oid} {op : Op}
    (hop : p'.dag.get o = some op) (hauthor : op.author ≠ p.ipk) : p.dag.get o = some op := by
  induction h with
  | refl => exact hop
  | @tail q _ hacts haction ih =>
      refine ih ?_
      cases haction with
      | silent h => rwa [h.dag] at hop
      | @published body h =>
          rcases published_cases (P := P) q body with hsame | hadd
          · rwa [hsame] at hop
          · rw [hadd.get] at hop
            split_ifs at hop
            · cases hop
              rw [sign_author (Acts.consistent hacts hp), (Acts.sameParty hacts).ipk] at hauthor
              exact absurd rfl hauthor
            · exact hop
      | convicted h => exact hop

end Acting

/-! ## Runs -/

section Running

variable (P : Primitives)

/-- What is asked of a participant that has just stored an operation of somebody else: if the
operation makes it sign something, it is a member; a contribution for it is not its own, and its
author may be convicted if one of its contributions equivocates; and whoever is proven guilty by the
operation may be convicted. -/
structure Safe (p : Participant) (op : Op) : Prop where
  member : Provokes p op → p.ipk ∈ p.members
  other : op.body.kind = .contrib → Provokes p op → op.author ≠ p.ipk
  equivocal : op.body.kind = .contrib → Provokes p op → ∀ op', p.dag.get (op'.oid P) = some op' →
    op'.author = op.author → Equivocates P p op' → Justified p op.author
  accused : ∀ who coid key seq, op.body = .accuse who coid key seq → p.checkAccusation P op →
    Justified p who

/-- The operation is refused, or its effects are safe. -/
def Orderly (p : Participant) (op : Op) : Prop :=
  ∀ dag, Accepts P p op dag → Safe P { p with dag } op

/-- What is asked of a call. -/
def CallOrderly (p : Participant) : Call → Prop
  | .publishPrekeys => p.ipk ∈ p.members
  | .rotatePrekeys => p.ipk ∈ p.members
  | .remove who => who = p.ipk ∨ p.ipk ∈ p.members
  | .repairRequest => p.prekeys.isSealed → ¬(p.nodekeys.missing p.frontier).isEmpty →
      p.ipk ∈ p.members
  | .handle wire => HandledUnder P (Orderly P) p wire
  | _ => True

/-- A founder, or a newcomer whose welcome holds an orderly history. -/
def OrderlyStart : Participant → Prop :=
  StartUnder P (Orderly P) fun _ => True

def OrderlyRun : Participant → Participant → Prop :=
  RunUnder P (CallOrderly P)

variable {P} {p p' : Participant}

variable (P) in
structure Upright (p : Participant) : Prop where
  consistent : Consistent P p
  lawful : Lawful P p

theorem Upright.acts (hp : Upright P p) (h : Acts P Rightful Justified p p') : Upright P p' :=
  ⟨h.consistent hp.consistent, Acts.lawful h hp.consistent hp.lawful⟩

theorem spares_announces {x : SigPublic} {body : Body} (h : Announces body) : Spares x body := by
  obtain ⟨gen, pk, rfl⟩ := h
  exact ⟨by simp, by simp⟩

theorem spares_contributes {exclude : Roster} {x : SigPublic} {body : Body}
    (h : Contributes P p exclude body) : Spares x body := by
  rcases h.form with ⟨targets, -, rfl⟩ | ⟨-, secret, slices, -, rfl⟩
  · exact ⟨by simp, by simp⟩
  · exact ⟨by simp, by simp⟩

theorem permits_announces (hmember : p.ipk ∈ p.members) : Permits Entitled p Announces := by
  intro p' body hsilent hbody
  refine ⟨?_, spares_announces hbody⟩
  rwa [hsilent.members, hsilent.party.ipk]

theorem permits_contributes (exclude : Roster) : Permits Entitled p (Contributes P p exclude) := by
  intro p' body hsilent hbody
  refine ⟨?_, spares_contributes hbody⟩
  rw [hsilent.members, hsilent.party.ipk]
  exact hbody.member

theorem permits_rightful {bodies : Body → Prop} (h : Permits Entitled p bodies) :
    Permits Rightful p bodies :=
  fun p' body hsilent hbody => Or.inl (h p' body hsilent hbody)

/-- The effects of an operation that has just been stored. -/
theorem applyOp_rightful (hp : Consistent P p) {op : Op} (hheld : p.dag.get (op.oid P) = some op)
    (hsafe : Safe P p op) : Acts P Rightful Justified p (applyOp P op p).2 := by
  by_cases haccuse : ∃ who coid key seq, op.body = .accuse who coid key seq
  · obtain ⟨who, coid, key, seq, hbody⟩ := haccuse
    have hquiet : ¬Provokes p op := by simp [Provokes, hbody]
    exact applyOp_acts hp.sound hp.buffered hheld (fun h => absurd h hquiet)
      (fun _ h => absurd h hquiet) hsafe.accused
  · refine Acts.rightful (applyOp_acts hp.sound hp.buffered hheld ?_ ?_ ?_)
    · exact fun hprovokes => permits_announces (hsafe.member hprovokes)
    · intro hkind hprovokes p' op' hacts hheld' hauthor hequivocates
      have hother := hsafe.other hkind hprovokes
      have hsame := Acts.sameParty hacts
      have hmember := Acts.member hacts hp (hsafe.member hprovokes)
      have hstored := Acts.stored_before hacts hp hheld' (by rwa [hauthor])
      have hback : SameParty p' p := ⟨hsame.1.symm, hsame.2.symm, hsame.3.symm, hsame.4.symm,
        hsame.5.symm⟩
      have hjustified := hsafe.equivocal hkind hprovokes op' hstored hauthor
        (hequivocates.sameParty hback)
      refine ⟨⟨Acts.justified hacts hp hother hjustified, by rwa [hsame.ipk]⟩, fun coid key seq => ?_⟩
      refine ⟨hmember, by simp, fun coid' key' seq' heq => ?_⟩
      rw [Body.accuse.injEq] at heq
      rw [hsame.ipk] at heq
      exact hother heq.1
    · exact fun who coid key seq hbody => absurd ⟨who, coid, key, seq, hbody⟩ haccuse

theorem Upright.ingest (hp : Upright P p) {op : Op} (hop : Orderly P p op) :
    Upright P (ingest P op p).2 := by
  refine ⟨Intake.Consistent.ingest hp.consistent op, ?_⟩
  have houtcome := ingest_outcome hp.consistent.steady op
  generalize Member.ingest P op p = result at houtcome
  cases houtcome with
  | invalid h => exact hp.lawful
  | known h => exact hp.lawful
  | waiting hsid hsig hnew hdeps =>
      obtain ⟨pending, heq, -⟩ := park_eq (p := p) op
      rw [heq]
      exact hp.lawful
  | unauthorised hdeps hauth => exact hp.lawful
  | full h => exact hp.lawful
  | @stored dag h =>
      have hdeps := depsAvailable_iff.mp h.deps
      have hstored : Upright P { p with dag } :=
        ⟨hp.consistent.added h.added hdeps, hp.lawful.added hp.consistent h.added hdeps h.authorised⟩
      have hheld : dag.get (op.oid P) = some op := by rw [h.added.get, if_pos rfl]
      exact (hstored.acts (applyOp_rightful hstored.consistent hheld (hop dag h))).lawful

theorem upright_kept : Kept P (Upright P) (fun _ => True) (Orderly P) where
  silent _ _ h hq := hq.acts h.acts
  pending _ _ hq _ := ⟨⟨hq.1.sound, hq.1.complete, hq.1.parked, hq.1.key, hq.1.buffered⟩, hq.2⟩
  buffered _ _ _ _ := trivial
  ingest _ _ hq _ hop := hq.ingest hop

theorem Upright.call (hp : Upright P p) (c : Call) (hc : CallOrderly P p c) :
    Upright P (c.run P p) := by
  cases c with
  | publishPrekeys => exact hp.acts (publishPrekeys_acts (permits_rightful (permits_announces hc)))
  | rotatePrekeys => exact hp.acts (rotatePrekeys_acts (permits_rightful (permits_announces hc)))
  | tick => exact hp.acts (Silent.acts silent_fields)
  | contribute exclude =>
      exact hp.acts (contributeExcluding_acts (permits_rightful (permits_contributes exclude)))
  | invite kp =>
      have hacts : Acts P Entitled JustifiedOther p (invite P kp p).2 := by
        refine invite_acts (fun hmember p' body hsilent hbody => ?_) (fun hmember p' hacts => ?_)
          fun p' _ => permits_contributes ∅
        · subst hbody
          refine ⟨?_, by simp, by simp⟩
          rwa [hsilent.members, hsilent.party.ipk]
        · exact permits_announces (Acts.member hacts hp.consistent hmember)
      exact hp.acts (Acts.rightful hacts)
  | remove who =>
      refine hp.acts (remove_acts ?_ fun p' _ => permits_rightful (permits_contributes _))
      by_cases hself : who = p.ipk
      · exact Or.inr (by rw [hself])
      · refine Or.inl ⟨hc.resolve_left hself, ?_, by simp⟩
        simpa using hself
  | leave => exact hp.acts (leave_acts (Or.inr rfl))
  | handle wire => exact upright_kept.guarded.handle hp fun m hm => ⟨fun _ _ => trivial, hc m hm⟩
  | repairRequest =>
      exact hp.acts (repairRequest_acts fun hsealed hmissing =>
        permits_rightful (permits_announces (hc hsealed hmissing)))

theorem blank_upright (identity : Secret) (sid : SessionId) (policy : Policy) (seed0 : Secret)
    (prekeys : PrekeyPool) (entropy : List Secret) :
    Upright P (blank P identity sid policy seed0 prekeys entropy) where
  consistent := blank_consistent ..
  lawful := fun o op hop => by simp [blank, Dag.new, Dag.get] at hop

/-- A founder is a member once its admission is stored. -/
theorem founder_upright (hp : Upright P p) (hblank : p.dag = Dag.new) :
    Upright P (published P p (.add p.ipk)) ∧
      (published P p (.add p.ipk)).ipk ∈ (published P p (.add p.ipk)).members := by
  have hnone : ∀ o, p.dag.get o = none := by
    intro o
    rw [hblank]
    simp [Dag.new, Dag.get]
  have hadd : Added P p.dag (p.sign P (.add p.ipk)) (published P p (.add p.ipk)).dag := by
    rcases add_cases (P := P) p.dag (p.sign P (.add p.ipk)) with
      ⟨e, he⟩ | ⟨hold, -⟩ | ⟨dag, hadd, hnew⟩
    · have hroom := add_full (congrArg Prod.fst he)
      simp [hblank, Dag.new, MAX_OPS] at hroom
    · simp [hblank, Dag.new, Dag.contains] at hold
    · rw [published, hnew]
      exact hadd
  have hlawful : Lawful P (published P p (.add p.ipk)) := by
    refine hp.lawful.published hp.consistent fun habsent => ?_
    rw [authorised_founding (pastOf_eq habsent) (founding_new p hblank hp.consistent.key)]
    rintro ⟨o, op, hop, -⟩
    rw [hnone] at hop
    cases hop
  refine ⟨⟨hp.consistent.published _, hlawful⟩, ?_⟩
  have honly : ∀ {o op}, (published P p (.add p.ipk)).dag.get o = some op →
      op.body = .add p.ipk := by
    intro o op hop
    rw [hadd.get] at hop
    split_ifs at hop
    · cases hop
      rfl
    · rw [hnone] at hop
      cases hop
  refine (mem_members_iff_survives (hp.consistent.sound.added hadd)).mpr
    ⟨(p.sign P (.add p.ipk)).oid P, ⟨p.sign P (.add p.ipk), ?_, rfl⟩, ?_, ?_, ?_⟩
  · exact (hadd.get _).trans (if_pos rfl)
  · rintro o ⟨op, hop, hbody, -⟩
    cases (honly hop).symm.trans hbody
  · rintro - a o ⟨⟨op, hop, hbody, -⟩, -⟩
    cases (honly hop).symm.trans hbody
  · rintro - o ⟨op, hop, coid, key, seq, hbody⟩
    cases (honly hop).symm.trans hbody

theorem founded_upright {out : List Outbound} (hp : Upright P p) (hblank : p.dag = Dag.new)
    (h : found P p = (.ok out, p')) : Upright P p' := by
  obtain ⟨hfounder, hmember⟩ := founder_upright hp hblank
  have hacts : Acts P Entitled JustifiedOther (published P p (.add p.ipk)) (found P p).2 :=
    found_acts (permits_announces hmember) fun p' _ => permits_contributes ∅
  rw [h] at hacts
  exact hfounder.acts (Acts.rightful hacts)

theorem joined_upright {entries : List (Oid × Secret)} {history : List Op} {out : List Outbound}
    (hp : Upright P p)
    (horderly : ∀ x ∈ intake P history (entries.foldl takeOver p), Orderly P x.1 x.2)
    (h : joinWith P entries history p = (.ok out, p')) : Upright P p' := by
  obtain ⟨p₁, hhistory, hmember, o, p₂, hpublish, hnote, -⟩ := joinWith_history h
  have hstart : Upright P (entries.foldl takeOver p) := hp.acts (takeOver_silent entries).acts
  have hp₁ : Upright P p₁ :=
    (upright_kept.guarded.ingestHistory_keeps (fun _ _ => trivial) horderly).run hhistory hstart
  have hp₂ : Upright P p₂ := hp₁.acts
    ((publishPrekeys_acts (permits_rightful (permits_announces hmember))).run hpublish)
  exact hp₂.acts (noteVersion_silent.run hnote).acts

theorem OrderlyStart.upright (h : OrderlyStart P p) : Upright P p := by
  cases h with
  | created h =>
      obtain ⟨identity, sid, seed0, prekey, rest, -, hfound⟩ := create_ok h
      exact founded_upright (blank_upright ..) rfl hfound
  | joined hnew h hfine _ =>
      obtain ⟨w, hjoin⟩ := accept_ok h
      exact joined_upright (blank_upright ..) (hfine w) hjoin

theorem OrderlyRun.upright {p₀ : Participant} (h : OrderlyRun P p₀ p) (hp₀ : Upright P p₀) :
    Upright P p :=
  RunUnder.invariant h hp₀ fun _ c hq hc => hq.call c hc

end Running

/-- In every orderly run, every operation a participant holds, its own included, is authorised
against its own causal past. -/
theorem orderly_run_lawful {P : Primitives} {p₀ p : Participant} (hstart : OrderlyStart P p₀)
    (hrun : OrderlyRun P p₀ p) :
    ∀ o op, p.dag.get o = some op → p.membership.authorised P op :=
  (OrderlyRun.upright hrun hstart.upright).lawful

/-! ## A founder that goes on after its own eviction -/

section Scenario

/-- A prekey of the guest, on top of what the host holds. -/
def guestPrekeys : Op :=
  Op.create toy 2 5 host.dag.heads (.prekeys 1 4)

/-- The host after it has taken in the guest's prekey and evicted the guest. -/
def dismissed : Participant :=
  (Call.remove 2).run toy ((Call.handle (wireOf guestPrekeys)).run toy host)

theorem orderly_announces {P : Primitives} {p : Participant} {op : Op} (h : Announces op.body) :
    Orderly P p op := by
  intro dag _
  obtain ⟨gen, pk, hbody⟩ := h
  have hquiet : ¬Provokes { p with dag } op := by simp [Provokes, hbody]
  refine ⟨fun h => absurd h hquiet, fun _ h => absurd h hquiet, fun _ h => absurd h hquiet, ?_⟩
  intro who coid key seq haccuse
  rw [hbody] at haccuse
  cases haccuse

theorem dismissed_checks :
    (Message.fromWire toy (wireOf guestPrekeys)).toOption = some (.op guestPrekeys) ∧
      ((ingestions toy (.op guestPrekeys) host).all fun x => x.2 = guestPrekeys) ∧
      ((Call.handle (wireOf guestPrekeys)).run toy host).members.contains
        ((Call.handle (wireOf guestPrekeys)).run toy host).ipk ∧
      dismissed.dag.contains (guestPrekeys.oid toy) := by
  decide +kernel

/-- The theorem at a host that has taken in an operation of its guest and then evicts it. -/
theorem dismissed_lawful : OrderlyRun toy opener dismissed ∧
    dismissed.dag.contains (guestPrekeys.oid toy) ∧
    ∀ o op, dismissed.dag.get o = some op → dismissed.membership.authorised toy op := by
  obtain ⟨hwire, hingestions, hmember, hheld⟩ := dismissed_checks
  have hstart : OrderlyStart toy opener := by
    obtain ⟨out, hcreate⟩ := opener_created
    exact .created hcreate
  have hhandle : CallOrderly toy host (.handle (wireOf guestPrekeys)) := by
    intro m hm x hx
    rw [hm] at hwire
    cases hwire
    have hop : x.2 = guestPrekeys := by
      simpa using List.all_eq_true.mp hingestions x hx
    exact orderly_announces (by rw [hop]; exact ⟨1, 4, rfl⟩)
  have hrun : OrderlyRun toy opener dismissed := by
    refine RunUnder.call _ (.call _ (.call _ .start trivial) hhandle) (Or.inr ?_)
    exact Std.ExtTreeSet.contains_iff_mem.mp hmember
  exact ⟨hrun, hheld, orderly_run_lawful hstart hrun⟩

/-- The founder after it has left and announced its prekey. -/
def intruding : Participant :=
  Call.publishPrekeys.run toy (Call.leave.run toy opener)

/-- A founder that has left signs and stores an operation that is not authorised. -/
theorem departed_founder_unlawful : Reachable toy intruding ∧
    ∃ op ∈ intruding.signed, intruding.dag.get (op.oid toy) = some op ∧
      ¬intruding.membership.authorised toy op := by
  refine ⟨(Reachable.next ⟨_, opener_start, .start⟩ _).next _, ?_⟩
  decide +kernel

end Scenario

end CausalFrontierRatchet.LawfulGraph
