import CausalFrontierRatchet.Authorisation
import CausalFrontierRatchet.Ingest

/-!
Outsider exclusion.  Apart from the founding operations of one founder, a stored operation should
have an admission of its author in its causal past.  Authorisation ensures this except for
self-evictions, which are always accepted, and a newcomer may sign before its own admission is
stored; the runs in which both are vouched for keep outsiders out.
-/

namespace CausalFrontierRatchet.OutsiderExclusion

open Relation BigEndian Crypto Operation OperationGraph CausalMembership
open Messages Commands Member MemberSteps MemberRuns RemoveWins CausalPast Authorisation Ingest

/-! ## The property -/

/-- An admission of the identity lies at or behind one of the stored dependencies. -/
def AdmittedBehind (dag : Dag) (deps : OidSet) (x : SigPublic) : Prop :=
  ∃ d ∈ deps, dag.contains d ∧ ∃ a add, (a = d ∨ Before dag a d) ∧ dag.get a = some add ∧
    add.body = .add x

structure Excludes (dag : Dag) : Prop where
  admitted : ∀ ⦃oid : Oid⦄ ⦃op : Op⦄, dag.get oid = some op → founding op ∨
    ∃ a add, Before dag a oid ∧ dag.get a = some add ∧ add.body = .add op.author
  founder : ∀ ⦃oid oid' : Oid⦄ ⦃op op' : Op⦄, dag.get oid = some op → dag.get oid' = some op' →
    founding op → founding op' → op.author = op'.author

theorem excludes_new : Excludes Dag.new where
  admitted oid op hop := by simp [Dag.new, Dag.get] at hop
  founder oid oid' op op' hop := by simp [Dag.new, Dag.get] at hop

section Insertion

variable {P : Primitives} {dag dag' : Dag} {op : Op}

/-- An insertion keeps outsiders out if it founds without a rival or follows an admission. -/
theorem Excludes.added (h : Excludes dag) (hsound : Sound P dag) (hadd : Added P dag op dag')
    (hnew : (founding op ∧ ¬Rival dag op.author) ∨ AdmittedBehind dag op.deps op.author) :
    Excludes dag' where
  admitted := by
    intro oid op' hop'
    rw [hadd.get] at hop'
    split_ifs at hop' with heq
    · cases hop'
      refine hnew.imp And.left ?_
      rintro ⟨d, hd, hc, a, add, had, hadd', hbody⟩
      have hparent : Parent dag' d oid := hadd.parent.mpr (Or.inl ⟨heq, hd, hc⟩)
      refine ⟨a, add, ?_, Added.get_mono hadd hadd', hbody⟩
      rcases had with rfl | hbefore
      · exact .single hparent
      · exact (Added.before_mono hadd hsound hbefore).tail hparent
    · refine (h.admitted hop').imp id ?_
      rintro ⟨a, add, hbefore, hget, hbody⟩
      exact ⟨a, add, Added.before_mono hadd hsound hbefore, Added.get_mono hadd hget, hbody⟩
  founder := by
    -- A new founding operation has no rival among the old ones.
    have hrival : founding op → ∀ {o op'}, dag.get o = some op' → founding op' →
        op'.author = op.author := by
      intro hfounding o op' hop' hfounding'
      rcases hnew with ⟨-, hno⟩ | ⟨d, hd, -⟩
      · by_contra hne
        exact hno ⟨o, op', hop', hfounding', hne⟩
      · simp only [founding, Bool.and_eq_true, Std.ExtTreeSet.isEmpty_iff] at hfounding
        rw [hfounding.1] at hd
        exact absurd hd Std.ExtTreeSet.not_mem_empty
    intro o o' op₁ op₂ h₁ h₂ hf₁ hf₂
    rw [hadd.get] at h₁ h₂
    split_ifs at h₁ h₂
    · cases h₁
      cases h₂
      rfl
    · cases h₁
      exact (hrival hf₁ h₂ hf₂).symm
    · cases h₂
      exact hrival hf₂ h₁ hf₁
    · exact h.founder h₁ h₂ hf₁ hf₂

end Insertion

/-! ## What is vouched for -/

section Vouching

variable (P : Primitives) (U : Op → Prop)

/-- Among the given operations, the first lies in the causal past of the second. -/
inductive Behind : Op → Op → Prop
  | direct {a b : Op} (ha : U a) (hdep : a.oid P ∈ b.deps) : Behind a b
  | through {a c b : Op} (h : Behind a c) (hc : U c) (hdep : c.oid P ∈ b.deps) : Behind a b

/-- An admission of the identity lies in the causal past of the operation. -/
def Vouched (x : SigPublic) (op : Op) : Prop :=
  ∃ a, a.body = .add x ∧ Behind P U a op

/-- The operations that make a participant act: a request for its prekeys, or a contribution with a
slice for it. -/
def Addressed (who : SigPublic) (op : Op) : Prop :=
  match op.body with
  | .contrib _ _ _ slices _ => ∃ s ∈ slices, s.recipient = who
  | .prekeyRequest targets => who ∈ targets
  | _ => False

variable {P U}

/-- In a complete graph of such operations, what lies behind an operation with stored dependencies
is stored. -/
theorem behind_stored {dag : Dag} (hsound : Sound P dag) (hcomplete : Complete dag)
    (hinj : Set.InjOn (Op.oid P) {op | U op}) (hheld : ∀ oid op, dag.get oid = some op → U op)
    {a b : Op} (h : Behind P U a b) (hdeps : ∀ d ∈ b.deps, dag.contains d) :
    ∃ d ∈ b.deps, dag.contains d ∧ (a.oid P = d ∨ Before dag (a.oid P) d) ∧
      dag.get (a.oid P) = some a := by
  have hstored : ∀ {c : Op}, U c → dag.contains (c.oid P) → dag.get (c.oid P) = some c := by
    intro c hc hcontains
    obtain ⟨c', hc'⟩ := contains_iff.mp hcontains
    rw [hc', hinj (hheld _ _ hc') hc (hsound.keyed hc')]
  induction h with
  | direct ha hdep => exact ⟨_, hdep, hdeps _ hdep, Or.inl rfl, hstored ha (hdeps _ hdep)⟩
  | @through c b _ hc hdep ih =>
      have hget := hstored hc (hdeps _ hdep)
      obtain ⟨d, hd, hcontains, had, hgeta⟩ :=
        ih fun d hd => (hsound.parent (hcomplete hget d hd)).1
      refine ⟨_, hdep, hdeps _ hdep, Or.inr ?_, hgeta⟩
      rcases had with heq | hbefore
      · rw [heq]
        exact .single (hcomplete hget d hd)
      · exact hbefore.tail (hcomplete hget d hd)

theorem vouched_admitted {dag : Dag} (hsound : Sound P dag) (hcomplete : Complete dag)
    (hinj : Set.InjOn (Op.oid P) {op | U op}) (hheld : ∀ oid op, dag.get oid = some op → U op)
    {x : SigPublic} {op : Op} (h : Vouched P U x op) (hdeps : ∀ d ∈ op.deps, dag.contains d) :
    AdmittedBehind dag op.deps x := by
  obtain ⟨a, hbody, hbehind⟩ := h
  obtain ⟨d, hd, hcontains, had, hget⟩ := behind_stored hsound hcomplete hinj hheld hbehind hdeps
  exact ⟨d, hd, hcontains, _, a, had, hget, hbody⟩

end Vouching

/-! ## Keeping outsiders out -/

section Guarding

/-- An admission of the participant itself is stored. -/
def Anchored (p : Participant) : Prop :=
  ∃ o add, p.dag.get o = some add ∧ add.body = .add p.ipk

structure Guarded (P : Primitives) (U : Op → Prop) (p : Participant) : Prop where
  wellformed : Wellformed P p
  held : ∀ oid op, p.dag.get oid = some op → U op
  excludes : Excludes p.dag

variable {P : Primitives} {U : Op → Prop} {rep : Oid → Secret → Prop} {p p' : Participant}

theorem Anchored.steps (hp : Anchored p) (h : Steps P U rep p p') : Anchored p' := by
  obtain ⟨o, add, hget, hbody⟩ := hp
  exact ⟨o, add, h.keeps hget, by rw [hbody, Steps.ipk_eq h]⟩

theorem signed_author (hp : Wellformed P p) {op : Op} (hop : op ∈ p.signed) : op.author = p.ipk := by
  obtain ⟨deps, body, rfl⟩ := hp.signed op hop
  exact hp.key.symm

/-- An operation on top of everything held has the own admission in its past. -/
theorem anchored_admitted (hp : Wellformed P p) (hanchor : Anchored p) :
    AdmittedBehind p.dag p.dag.heads p.ipk := by
  obtain ⟨o, add, hget, hbody⟩ := hanchor
  obtain ⟨d, hd, hreach⟩ := hp.sound.exists_head (contains_iff.mpr ⟨add, hget⟩)
  refine ⟨d, hd, (mem_heads.mp hd).1, o, add, ?_, hget, hbody⟩
  rcases reflTransGen_iff_eq_or_transGen.mp hreach with heq | hbefore
  · exact Or.inl heq.symm
  · exact Or.inr hbefore

/-- The verdict admits founders without a rival, self-evictions, and authors that some operation of
the past admits. -/
theorem authorised_admitted (hp : Wellformed P p) {op : Op}
    (habsent : ¬p.dag.contains (op.oid P)) (hauth : p.authorised P op) :
    (founding op ∧ ¬Rival p.dag op.author) ∨ op.body = .remove op.author ∨
      AdmittedBehind p.dag op.deps op.author := by
  by_cases hfounding : founding op
  · exact Or.inl ⟨hfounding, (authorised_founding (pastOf_eq habsent) hfounding).mp hauth⟩
  rcases (authorised_other (pastOf_eq habsent) hp.sound hfounding).mp hauth with hself | ⟨a, ⟨add, hget, hbody⟩, -⟩
  · exact Or.inr (Or.inl hself)
  · change (induced p.dag _).get a = some add at hget
    rw [induced_get] at hget
    split_ifs at hget with hmem
    obtain ⟨d, hd, hcontains, had⟩ := mem_causalClosure.mp hmem
    exact Or.inr (Or.inr ⟨d, Std.ExtTreeSet.mem_toList.mp hd, hcontains, a, add, had, hget, hbody⟩)

variable (hinj : Set.InjOn (Op.oid P) {op | U op})
  (hself : ∀ e, U e → e.body = .remove e.author → Vouched P U e.author e)

include hinj hself in
theorem Guarded.update (hp : Guarded P U p) (hown : Anchored p ∨ p.signed = [])
    (hsigned : ∀ op ∈ p.signed, U op) (h : Update P U rep p p') : Guarded P U p' := by
  have hwell := hp.wellformed.update h
  have hheld : ∀ {op dag}, U op → Added P p.dag op dag → ∀ o op', dag.get o = some op' → U op' := by
    intro op dag hop hadd o op' hop'
    rw [hadd.get] at hop'
    split_ifs at hop'
    · cases hop'
      exact hop
    · exact hp.held o op' hop'
  cases h with
  | @own op dag hmem hdeps hadd =>
      refine ⟨hwell, hheld (hsigned op hmem) hadd, hp.excludes.added hp.wellformed.sound hadd ?_⟩
      rcases hown with hanchor | hnone
      · rw [hdeps, signed_author hp.wellformed hmem]
        exact Or.inr (anchored_admitted hp.wellformed hanchor)
      · rw [hnone] at hmem
        cases hmem
  | @stored op dag hsrc hsid hsig hdeps hauth hadd =>
      refine ⟨hwell, hheld hsrc hadd, hp.excludes.added hp.wellformed.sound hadd ?_⟩
      have habsent : ¬p.dag.contains (op.oid P) := by simp [hadd.fresh]
      rcases authorised_admitted hp.wellformed habsent hauth with hfounding | hremove | hbehind
      · exact Or.inl hfounding
      · exact Or.inr (vouched_admitted hp.wellformed.sound hp.wellformed.complete hinj hp.held
          (hself op hsrc hremove) (depsAvailable_iff.mp hdeps))
      · exact Or.inr hbehind
  | _ => exact ⟨hwell, hp.held, hp.excludes⟩

include hinj hself in
/-- Once its own admission is stored, a participant stays guarded. -/
theorem Guarded.steps (hp : Guarded P U p) (hanchor : Anchored p) (h : Steps P U rep p p')
    (hsigned : ∀ op ∈ p'.signed, U op) : Guarded P U p' := by
  induction h with
  | refl => exact hp
  | tail hsteps hupdate ih =>
      have hbefore := fun op hop => hsigned op (hupdate.signed_subset hop)
      exact (ih hbefore).update hinj hself (Or.inl (hanchor.steps hsteps)) hbefore hupdate

end Guarding

/-! ## Founders and newcomers -/

section Starting

variable {P : Primitives} {U : Op → Prop} {rep : Oid → Secret → Prop} {p p' : Participant}

/-- An operation that is not addressed to a participant does not make it sign anything. -/
theorem applyOp_quiet {op : Op} (hopen : p.prekeys.isSealed = false)
    (hquiet : ¬Addressed p.ipk op) :
    ∃ guilty peerPrekeys send, (applyOp P op p).2 = { p with guilty, peerPrekeys, send } := by
  unfold applyOp
  rw [bind_run, get_run]
  dsimp only
  unfold Addressed at hquiet
  cases hbody : op.body with
  | prekeys gen pk =>
      simp only [bind_run, learnPrekey, modify_run, pure_run]
      split
      · exact ⟨_, _, _, rfl⟩
      · split
        · exact ⟨_, _, _, rfl⟩
        · exact ⟨_, _, _, rfl⟩
  | contrib cid cparents recips slices view =>
      rw [hbody] at hquiet
      have hnone : slices.find? (fun s => s.recipient = p.ipk) = none := by
        rw [List.find?_eq_none]
        intro s hs heq
        exact hquiet ⟨s, hs, by simpa using heq⟩
      simp only [receiveContribution, bind_run, get_run, hbody, hnone, pure_run]
      exact ⟨_, _, _, rfl⟩
  | accuse who coid key seq =>
      obtain ⟨guilty, hrun, -⟩ := judge_run (P := P) (p := p) op who
      simp only [bind_run, hrun, pure_run]
      exact ⟨_, _, _, rfl⟩
  | prekeyRequest targets =>
      rw [hbody] at hquiet
      have hnot : targets.contains p.ipk = false := by simpa using hquiet
      simp only [rotateWhen, hnot]
      exact ⟨_, _, _, rfl⟩
  | add who =>
      simp only [rotateWhen, hopen, Bool.and_false]
      exact ⟨_, _, _, rfl⟩
  | remove who => exact ⟨_, _, _, rfl⟩

/-- The own admission is stored, or nothing has been signed and the prekey is still open. -/
def Waiting (p : Participant) : Prop :=
  Anchored p ∨ (p.signed = [] ∧ p.prekeys.isSealed = false)

theorem Waiting.own (h : Waiting p) : Anchored p ∨ p.signed = [] :=
  h.imp id And.left

variable (hinj : Set.InjOn (Op.oid P) {op | U op})
  (hself : ∀ e, U e → e.body = .remove e.author → Vouched P U e.author e)

include hinj hself in
theorem ingest_guarded (htidy : Tidy P U p) (hp : Guarded P U p) (hwait : Waiting p) {op : Op}
    (hop : U op) (haddr : Addressed p.ipk op → Vouched P U p.ipk op)
    (hsigned : ∀ o ∈ (ingest P op p).2.signed, U o) :
    Guarded P U (ingest P op p).2 ∧ Waiting (ingest P op p).2 := by
  have houtcome := ingest_outcome htidy.steady op
  generalize ingest P op p = result at houtcome hsigned
  cases houtcome with
  | invalid h => exact ⟨hp, hwait⟩
  | known h => exact ⟨hp, hwait⟩
  | unauthorised hdeps hauth => exact ⟨hp, hwait⟩
  | full h => exact ⟨hp, hwait⟩
  | waiting hsid hsig hnew hdeps =>
      have hparked : ∃ pending, (park op p).2 = { p with pending } := by
        simp only [park, modify_run]
        split
        · exact ⟨_, rfl⟩
        · exact ⟨_, rfl⟩
      obtain ⟨pending, hrun⟩ := hparked
      rw [hrun]
      exact ⟨⟨{ hp.wellformed with }, hp.held, hp.excludes⟩, hwait⟩
  | @stored dag hacc =>
      have hstore : Update P U (fun _ _ => True) p { p with dag } :=
        .stored hop hacc.sid hacc.verified hacc.deps hacc.authorised hacc.added
      have htidy₁ := hstore.tidy htidy
      have hheld : dag.get (op.oid P) = some op := by rw [hacc.added.get, if_pos rfl]
      have hmoves : Steps P U (fun _ _ => True) { p with dag } (applyOp P op { p with dag }).2 :=
        applyOp_moves htidy₁.steady hheld
      have hsigned₁ : ∀ o ∈ p.signed, U o := fun o ho => hsigned o (Steps.signed_subset hmoves ho)
      have hp₁ := hp.update hinj hself hwait.own hsigned₁ hstore
      by_cases hanchor : Anchored { p with dag }
      · exact ⟨hp₁.steps hinj hself hanchor hmoves hsigned, Or.inl (hanchor.steps hmoves)⟩
      · -- Without the own admission stored, the operation is not addressed to the newcomer.
        have hquiet : ¬Addressed p.ipk op := by
          intro haddressed
          obtain ⟨d, -, -, a, add, -, hget, hbody⟩ := vouched_admitted hp.wellformed.sound
            hp.wellformed.complete hinj hp.held (haddr haddressed) (depsAvailable_iff.mp hacc.deps)
          exact hanchor ⟨a, add, hstore.keeps hget, hbody⟩
        have hunsigned : p.signed = [] ∧ p.prekeys.isSealed = false := by
          refine hwait.resolve_left fun ⟨o, add, hget, hbody⟩ => hanchor ?_
          exact ⟨o, add, hstore.keeps hget, hbody⟩
        obtain ⟨guilty, peerPrekeys, send, hrun⟩ :=
          applyOp_quiet (P := P) (p := { p with dag }) hunsigned.2 hquiet
        rw [hrun]
        exact ⟨⟨{ hp₁.wellformed with }, hp₁.held, hp₁.excludes⟩, Or.inr hunsigned⟩

include hinj hself in
theorem ingestHistory_guarded {history : List Op} (htidy : Tidy P U p) (hp : Guarded P U p)
    (hwait : Waiting p)
    (hhistory : ∀ op ∈ history, U op ∧ (Addressed p.ipk op → Vouched P U p.ipk op))
    (hrun : ingestHistory P history p = (.ok (), p')) (hsigned : ∀ o ∈ p'.signed, U o) :
    Guarded P U p' := by
  induction history generalizing p with
  | nil =>
      cases hrun
      exact hp
  | cons op history ih =>
      obtain ⟨out, p₁, hingest, hrest⟩ := bind_ok hrun
      have hop := hhistory op List.mem_cons_self
      have hfirst : Steps P U (fun _ _ => True) p p₁ := (ingest_moves htidy hop.1).run hingest
      have htidy₁ := hfirst.tidy htidy
      have hlater : Steps P U (fun _ _ => True) p₁ p' :=
        (ingestHistory_moves htidy₁ fun o ho => (hhistory o (List.mem_cons_of_mem _ ho)).1).run hrest
      have hsigned₁ := fun o ho => hsigned o (Steps.signed_subset hlater ho)
      have hguarded := ingest_guarded hinj hself htidy hp hwait hop.1 hop.2
        (by rw [hingest]; exact hsigned₁)
      rw [hingest] at hguarded
      refine ih htidy₁ hguarded.1 hguarded.2 (fun o ho => ?_) hrest
      rw [Steps.ipk_eq hfirst]
      exact hhistory o (List.mem_cons_of_mem _ ho)

theorem anchored_of_member (h : p.ipk ∈ p.members) : Anchored p := by
  have hadmitted : p.ipk ∈ p.membership.admitted none := by
    simp only [Participant.members, Membership.members, Membership.membersIn,
      Std.ExtTreeSet.mem_filter] at h
    exact h.1
  obtain ⟨o, add, hmem, hbody⟩ := mem_admitted.mp hadmitted
  exact ⟨o, add, (mem_iter.mp hmem).1, hbody⟩

include hinj hself in
/-- A founder's first operation founds the conference. -/
theorem founder_guarded {out : List Outbound} (hblank : p.dag = Dag.new) (hwell : Wellformed P p)
    (hrun : found P p = (.ok out, p')) (hsigned : ∀ o ∈ p'.signed, U o) :
    Guarded P U p' ∧ Anchored p' := by
  have hfound : ∃ add p₁, publish P (.add p.ipk) p = (.ok add, p₁) ∧
    Steps P U (fun _ _ => True) p₁ p' := found_ok hrun
  obtain ⟨add, p₁, hpublish, hsteps⟩ := hfound
  have hfirst : Steps P U (fun _ _ => True) p p₁ := (publish_moves _).run hpublish
  have hwell₁ := hwell.steps hfirst
  obtain ⟨rfl, dag, rfl, ⟨hold, -⟩ | hadd⟩ := publish_ok hpublish
  · rw [hblank] at hold
    simp [Dag.new, Dag.contains] at hold
  have hU : U (p.sign P (.add p.ipk)) :=
    hsigned _ (Steps.signed_subset hsteps List.mem_cons_self)
  have hguarded : Guarded P U { p with signed := p.sign P (.add p.ipk) :: p.signed, dag } := by
    refine ⟨hwell₁, fun o op hop => ?_, ?_⟩
    · rw [hadd.get] at hop
      split_ifs at hop
      · cases hop
        exact hU
      · simp [hblank, Dag.new, Dag.get] at hop
    · have hnone : Excludes p.dag := by
        rw [hblank]
        exact excludes_new
      refine hnone.added hwell.sound hadd (Or.inl ⟨founding_new p hblank hwell.key, ?_⟩)
      rintro ⟨o, op, hop, -⟩
      simp [hblank, Dag.new, Dag.get] at hop
  have hanchor : Anchored { p with signed := p.sign P (.add p.ipk) :: p.signed, dag } :=
    ⟨_, _, by rw [hadd.get, if_pos rfl], rfl⟩
  exact ⟨hguarded.steps hinj hself hanchor hsteps hsigned, hanchor.steps hsteps⟩

include hinj hself in
theorem newcomer_guarded {j : PendingJoin} {wire : Bytes} {out : List Outbound}
    (hopen : j.prekeys.isSealed = false) (w : Welcome P j wire)
    (hhistory : ∀ op ∈ w.history, U op ∧ (Addressed p.ipk op → Vouched P U p.ipk op))
    (hrun : joinWith P w.entries w.history w.start = (.ok out, p))
    (hsigned : ∀ o ∈ p.signed, U o) : Guarded P U p ∧ Anchored p := by
  have hjoin : ∃ p₁, ingestHistory P w.history (w.entries.foldl takeOver w.start) = (.ok (), p₁) ∧
    p₁.ipk ∈ p₁.members ∧ Steps P U (fun _ _ => True) p₁ p := joinWith_ok hrun
  obtain ⟨p₁, hingest, hmember, hsteps⟩ := hjoin
  have htake : Steps P U (fun _ _ => True) w.start (w.entries.foldl takeOver w.start) :=
    takeOver_steps rfl fun _ _ => trivial
  have htidy := htake.tidy (blank_tidy ..)
  have hwell := (blank_wellformed ..).steps htake
  have hread : Steps P U (fun _ _ => True) _ p₁ :=
    (ingestHistory_moves htidy fun op hop => (hhistory op hop).1).run hingest
  have hipk : p.ipk = (w.entries.foldl takeOver w.start).ipk := by
    rw [Steps.ipk_eq hsteps, Steps.ipk_eq hread]
  obtain ⟨nodekeys, absorbed, hfold⟩ := foldl_takeOver w.entries w.start
  have hguarded : Guarded P U (w.entries.foldl takeOver w.start) := by
    refine ⟨hwell, ?_, ?_⟩
    · rw [hfold]
      intro o op hop
      simp [Welcome.start, blank, Dag.new, Dag.get] at hop
    · rw [hfold]
      exact excludes_new
  have hwait : Waiting (w.entries.foldl takeOver w.start) := by
    rw [hfold]
    exact Or.inr ⟨rfl, hopen⟩
  have hguarded₁ := ingestHistory_guarded hinj hself htidy hguarded hwait (hipk ▸ hhistory) hingest
    fun o ho => hsigned o (Steps.signed_subset hsteps ho)
  have hanchor := anchored_of_member hmember
  exact ⟨hguarded₁.steps hinj hself hanchor hsteps hsigned, hanchor.steps hsteps⟩

include hinj hself in
theorem start_guarded
    (h : Start P (fun op => U op ∧ (Addressed p.ipk op → Vouched P U p.ipk op)) rep p)
    (hsigned : ∀ o ∈ p.signed, U o) : Guarded P U p ∧ Anchored p := by
  cases h with
  | created h =>
      obtain ⟨identity, sid, seed0, prekey, rest, -, hfound⟩ := create_ok h
      exact founder_guarded hinj hself rfl (blank_wellformed ..) hfound hsigned
  | @joined policy entropy j wire out p hnew h hsrc hrep =>
      obtain ⟨w, hjoin⟩ := accept_ok h
      have hopen : j.prekeys.isSealed = false := by
        unfold PendingJoin.new at hnew
        split at hnew
        · cases hnew
          rfl
        · cases hnew
      exact newcomer_guarded hinj hself hopen w (hsrc w) hjoin hsigned

end Starting

/-- In every run in which each self-eviction that is delivered has an admission of its author in its
causal past, and each operation of an accepted history that addresses the newcomer has the newcomer's
admission in its causal past, outsiders are kept out. -/
theorem outsiders_excluded {P : Primitives} {U : Op → Prop} {p₀ p : Participant}
    (hinj : Set.InjOn (Op.oid P) {op | U op})
    (hself : ∀ e, U e → e.body = .remove e.author → Vouched P U e.author e)
    (hstart : Start P (fun op => U op ∧ (Addressed p₀.ipk op → Vouched P U p₀.ipk op))
      (fun _ _ => True) p₀)
    (hrun : Run P U (fun _ _ => True) p₀ p) (hsigned : ∀ op ∈ p.signed, U op) :
    Excludes p.dag := by
  have htidy : Tidy P U p₀ := ⟨hstart.tidy.sound, hstart.tidy.parked,
    fun op hop => (hstart.tidy.pending op hop).1⟩
  have hsteps := hrun.steps htidy
  obtain ⟨hguarded, hanchor⟩ := start_guarded hinj hself hstart
    fun op hop => hsigned op (Steps.signed_subset hsteps hop)
  exact (hguarded.steps hinj hself hanchor hsteps hsigned).excludes

section Scenario

/-- The guest leaves on top of everything the host holds. -/
def guestExit : Op :=
  Op.create toy 2 5 host.dag.heads (.remove 2)

def abandoned : Participant :=
  (Call.handle (wireOf guestExit)).run toy host

/-- Everything signed or delivered in the run. -/
def exchanged : List Op :=
  guestExit :: abandoned.signed

theorem exchanged_checks :
    (exchanged.map (Op.oid toy)).Nodup ∧
      (exchanged.all fun e => e.body ≠ .remove e.author || exchanged.any fun c =>
        e.deps.contains (c.oid toy) && exchanged.any fun a =>
          c.deps.contains (a.oid toy) && a.body = .add e.author) ∧
      (Message.fromWire toy (wireOf guestExit)).toOption = some (.op guestExit) := by
  decide +kernel

/-- A guest that was admitted leaves, and the host's graph holds no outsider's operation. -/
theorem abandoned_excludes : Run toy (· ∈ exchanged) (fun _ _ => True) opener abandoned ∧
    Excludes abandoned.dag := by
  obtain ⟨hnodup, hvouch, hparse⟩ := exchanged_checks
  have hself : ∀ e, e ∈ exchanged → e.body = .remove e.author →
      Vouched toy (· ∈ exchanged) e.author e := by
    intro e he hbody
    have hany := List.all_eq_true.mp hvouch e he
    simp only [hbody, ne_eq, not_true_eq_false, decide_false, Bool.false_or, List.any_eq_true,
      Bool.and_eq_true, decide_eq_true_eq, Std.ExtTreeSet.contains_iff_mem] at hany
    obtain ⟨c, hc, hdep, a, ha, hdep', hadd⟩ := hany
    exact ⟨a, hadd, .through (.direct ha hdep') hc hdep⟩
  have hbrings : (Call.handle (wireOf guestExit)).Brings toy (· ∈ exchanged) (fun _ _ => True) host := by
    intro m hm
    rw [hm] at hparse
    cases hparse
    refine ⟨fun op hop => ?_, fun _ _ _ => trivial⟩
    rw [List.mem_singleton.mp hop]
    exact List.mem_cons_self
  have hrun : Run toy (· ∈ exchanged) (fun _ _ => True) opener abandoned :=
    .call _ (.call invitation .start trivial) hbrings
  have hinj : Set.InjOn (Op.oid toy) {op | op ∈ exchanged} :=
    fun a ha b hb heq => List.inj_on_of_nodup_map hnodup ha hb heq
  exact ⟨hrun, outsiders_excluded hinj hself opener_start hrun
    fun op hop => List.mem_cons_of_mem _ hop⟩

/-- An identity nobody has admitted signs its own eviction. -/
def strangerExit : Op :=
  Op.create toy 9 5 ∅ (.remove 9)

def visited : Participant :=
  (Call.handle (wireOf strangerExit)).run toy host

theorem visited_checks :
    visited.dag.get (strangerExit.oid toy) = some strangerExit ∧
      (visited.dag.ops.toList.all fun entry => entry.2.body ≠ .add 9) := by
  decide +kernel

/-- The stranger's operation is stored, although no operation of the graph admits the stranger. -/
theorem stranger_stored : Reachable toy visited ∧
    visited.dag.get (strangerExit.oid toy) = some strangerExit ∧
    (∀ o op, visited.dag.get o = some op → op.body ≠ .add 9) ∧ ¬Excludes visited.dag := by
  obtain ⟨hstored, hall⟩ := visited_checks
  have hnone : ∀ o op, visited.dag.get o = some op → op.body ≠ .add 9 := by
    intro o op hop
    have hentry := List.all_eq_true.mp hall (o, op)
      (Std.ExtTreeMap.mem_toList_iff_getElem?_eq_some.mpr hop)
    simpa using hentry
  refine ⟨host_reachable.next _, hstored, hnone, fun hexcludes => ?_⟩
  rcases hexcludes.admitted hstored with hfounding | ⟨a, add, -, hget, hbody⟩
  · revert hfounding
    decide +kernel
  · exact hnone a add hget hbody

end Scenario

end CausalFrontierRatchet.OutsiderExclusion
