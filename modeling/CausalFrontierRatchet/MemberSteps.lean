import CausalFrontierRatchet.Member

/-!
What a participant command can do.  Every command is a sequence of elementary updates, each with the
checks that were made before it; an invariant of the participant needs to be shown for the updates
only.  The updates are relative to the operations that a command may take in and the node keys that
a repair response may bring.
-/

namespace CausalFrontierRatchet.MemberSteps

open Relation BigEndian Crypto Tlv Operation OperationGraph KeySchedule Channel
open Messages Commands Member

variable (P : Primitives) (src : Op → Prop) (rep : Oid → Secret → Prop)

inductive Update : Participant → Participant → Prop
  | drawn {p : Participant} {x : Secret} {rest : List Secret} (h : p.entropy = x :: rest) :
      Update p { p with entropy := rest }
  | signed {p : Participant} (body : Body) :
      Update p { p with signed := p.sign P body :: p.signed }
  | own {p : Participant} {op : Op} {dag : Dag} (hsigned : op ∈ p.signed)
      (hdeps : op.deps = p.dag.heads) (hadd : Added P p.dag op dag) : Update p { p with dag }
  | stored {p : Participant} {op : Op} {dag : Dag} (hsrc : src op) (hsid : op.sid = p.sid)
      (hsig : op.verify P = .ok ()) (hdeps : p.depsAvailable op) (hauth : p.authorised P op)
      (hadd : Added P p.dag op dag) : Update p { p with dag }
  | channels {p : Participant} (prekeys : PrekeyPool)
      (peerPrekeys : Std.ExtTreeMap SigPublic (UInt32 × DhPublic))
      (send : Std.ExtTreeMap SigPublic Chan) (recv : Std.ExtTreeMap SigPublic RecvState) :
      Update p { p with prekeys, peerPrekeys, send, recv }
  | absorbed {p : Participant} {op : Op} {cid : Cid} {cparents : OidSet} {recips : List SigPublic}
      {slices : List Slice} {view : BitVec 256} {x parent : Secret}
      (hheld : p.dag.get (op.oid P) = some op ∨ op ∈ p.signed)
      (hbody : op.body = .contrib cid cparents recips slices view)
      (hnew : op.oid P ∉ p.absorbed) (hcid : commitment P x = cid)
      (hparent : (if cparents.isEmpty then some 0 else p.nodekeys.combine cparents) = some parent) :
      Update p { p with
        nodekeys := p.nodekeys.insert (op.oid P) (nodeKey P x parent (op.oid P))
        absorbed := p.absorbed.insert (op.oid P)
        missing := p.missing.erase (op.oid P) }
  | repaired {p : Participant} {oid : Oid} {key : Secret} (hrep : rep oid key) :
      Update p { p with
        nodekeys := p.nodekeys.insert oid key
        absorbed := p.absorbed.insert oid
        missing := p.missing.erase oid }
  | missing {p : Participant} (oid : Oid) : Update p { p with missing := p.missing.insert oid }
  | guilty {p : Participant} {acc : Op} {who : SigPublic} {coid : Oid} {mk : Secret} {seq : UInt64}
      (hheld : p.dag.get (acc.oid P) = some acc ∨ acc ∈ p.signed)
      (hbody : acc.body = .accuse who coid mk seq) (hcheck : p.checkAccusation P acc) :
      Update p { p with guilty := p.guilty.insert who }
  | pending {p : Participant} {pending : List Op} (hsrc : ∀ op ∈ pending, src op) :
      Update p { p with pending }
  | noted {p : Participant} (seen : Std.ExtTreeMap (BitVec 64) (OidSet × BitVec 256))
      (last : BitVec 64) : Update p { p with seenVersions := seen, lastVersion := last }

def Steps : Participant → Participant → Prop :=
  ReflTransGen (Update P src rep)

variable {P src rep}

instance : Std.Refl (Steps P src rep) :=
  inferInstanceAs (Std.Refl (ReflTransGen _))

instance : IsTrans Participant (Steps P src rep) :=
  inferInstanceAs (IsTrans _ (ReflTransGen _))

theorem Update.steps {p p' : Participant} (h : Update P src rep p p') : Steps P src rep p p' :=
  ReflTransGen.single h

/-- What a command may rely on and keeps: the graph is sound, no accusation is parked, and everything
buffered came in through the source of operations. -/
structure Tidy (P : Primitives) (src : Op → Prop) (p : Participant) : Prop where
  sound : Sound P p.dag
  parked : p.openAccusations = []
  pending : ∀ op ∈ p.pending, src op

/-- The part of this that does not depend on the source of operations. -/
structure Steady (P : Primitives) (p : Participant) : Prop where
  sound : Sound P p.dag
  parked : p.openAccusations = []

theorem Tidy.steady {p : Participant} (h : Tidy P src p) : Steady P p :=
  ⟨h.sound, h.parked⟩

theorem Update.tidy {p p' : Participant} (h : Update P src rep p p') (hp : Tidy P src p) :
    Tidy P src p' := by
  cases h with
  | own _ _ hadd => exact ⟨hp.sound.added hadd, hp.parked, hp.pending⟩
  | stored _ _ _ _ _ hadd => exact ⟨hp.sound.added hadd, hp.parked, hp.pending⟩
  | pending hsrc => exact ⟨hp.sound, hp.parked, hsrc⟩
  | _ => exact ⟨hp.sound, hp.parked, hp.pending⟩

theorem Steps.tidy {p p' : Participant} (h : Steps P src rep p p') (hp : Tidy P src p) :
    Tidy P src p' := by
  induction h with
  | refl => exact hp
  | tail _ hstep ih => exact hstep.tidy ih

theorem Steps.steady {p p' : Participant} (h : Steps P src rep p p') (hp : Steady P p) :
    Steady P p' := by
  induction h with
  | refl => exact hp
  | tail _ hstep ih =>
      cases hstep with
      | own _ _ hadd => exact ⟨ih.sound.added hadd, ih.parked⟩
      | stored _ _ _ _ _ hadd => exact ⟨ih.sound.added hadd, ih.parked⟩
      | _ => exact ⟨ih.sound, ih.parked⟩

/-- What is stored stays stored. -/
theorem Update.keeps {p p' : Participant} (h : Update P src rep p p') {oid : Oid} {op : Op}
    (hop : p.dag.get oid = some op) : p'.dag.get oid = some op := by
  have hadded : ∀ {new dag}, Added P p.dag new dag → dag.get oid = some op := by
    intro new dag hadd
    rw [hadd.get, if_neg (hadd.ne_of_contains (contains_iff.mpr ⟨op, hop⟩)), hop]
  cases h with
  | own _ _ hadd => exact hadded hadd
  | stored _ _ _ _ _ hadd => exact hadded hadd
  | _ => exact hop

theorem Steps.keeps {p p' : Participant} (h : Steps P src rep p p') {oid : Oid} {op : Op}
    (hop : p.dag.get oid = some op) : p'.dag.get oid = some op := by
  induction h with
  | refl => exact hop
  | tail _ hstep ih => exact hstep.keeps ih

theorem Update.signed_subset {p p' : Participant} (h : Update P src rep p p') :
    p.signed ⊆ p'.signed := by
  cases h with
  | signed body => exact List.subset_cons_self _ _
  | _ => exact List.Subset.refl _

theorem Steps.signed_subset {p p' : Participant} (h : Steps P src rep p p') :
    p.signed ⊆ p'.signed := by
  induction h with
  | refl => exact List.Subset.refl _
  | tail _ hupdate ih => exact List.Subset.trans ih hupdate.signed_subset

/-- What is buffered was buffered before or has come in. -/
theorem Steps.pending_subset {p p' : Participant} (h : Steps P src rep p p') {op : Op}
    (hop : op ∈ p'.pending) : op ∈ p.pending ∨ src op := by
  induction h with
  | refl => exact Or.inl hop
  | tail _ hupdate ih =>
      cases hupdate with
      | pending hsrc => exact Or.inr (hsrc op hop)
      | _ => exact ih hop

theorem Steps.mono {src' : Op → Prop} {rep' : Oid → Secret → Prop} {p p' : Participant}
    (h : Steps P src rep p p') (hsrc : ∀ op, src op → src' op)
    (hrep : ∀ oid key, rep oid key → rep' oid key) : Steps P src' rep' p p' := by
  refine ReflTransGen.mono (fun q q' hupdate => ?_) p p' h
  cases hupdate with
  | drawn h => exact .drawn h
  | signed body => exact .signed body
  | own hsigned hdeps hadd => exact .own hsigned hdeps hadd
  | stored h hsid hsig hdeps hauth hadd => exact .stored (hsrc _ h) hsid hsig hdeps hauth hadd
  | channels prekeys peerPrekeys send recv => exact .channels prekeys peerPrekeys send recv
  | absorbed hheld hbody hnew hcid hparent => exact .absorbed hheld hbody hnew hcid hparent
  | repaired h => exact .repaired (hrep _ _ h)
  | missing oid => exact .missing oid
  | guilty hheld hbody hcheck => exact .guilty hheld hbody hcheck
  | pending h => exact .pending fun op hop => hsrc op (h op hop)
  | noted seen last => exact .noted seen last

/-- What a participant never changes. -/
structure SameParty (p p' : Participant) : Prop where
  identity : p'.identity = p.identity
  ipk : p'.ipk = p.ipk
  sid : p'.sid = p.sid
  policy : p'.policy = p.policy
  seed0 : p'.seed0 = p.seed0

theorem Steps.sameParty {p p' : Participant} (h : Steps P src rep p p') : SameParty p p' := by
  induction h with
  | refl => exact ⟨rfl, rfl, rfl, rfl, rfl⟩
  | tail _ hupdate ih => cases hupdate <;> exact ⟨ih.1, ih.2, ih.3, ih.4, ih.5⟩

theorem Steps.ipk_eq {p p' : Participant} (h : Steps P src rep p p') : p'.ipk = p.ipk :=
  h.sameParty.ipk

/-! ## Elementary commands -/

section Elementary

variable {p : Participant}

theorem draw_moves : Moves (Steps P src rep) draw p := by
  refine moves_get ?_
  cases h : p.entropy with
  | nil => exact moves_throw _ _
  | cons x rest => exact (Update.drawn h).steps

theorem signOp_moves (body : Body) : Moves (Steps P src rep) (signOp P body) p :=
  (Update.signed body).steps

theorem markMissing_moves (oid : Oid) : Moves (Steps P src rep) (markMissing oid) p :=
  (Update.missing oid).steps

theorem setSend_moves (who : SigPublic) (chan : Chan) :
    Moves (Steps P src rep) (setSend who chan) p :=
  (Update.channels _ _ _ _).steps

theorem noteVersion_moves : Moves (Steps P src rep) (noteVersion P) p :=
  (Update.noted _ _).steps

theorem addOp_run (op : Op) :
    addOp P op p = ((p.dag.add P op).1, { p with dag := (p.dag.add P op).2 }) :=
  rfl

/-- A signed operation on top of the current heads may be stored. -/
theorem addOp_own {op : Op} (hsigned : op ∈ p.signed) (hdeps : op.deps = p.dag.heads) :
    Moves (Steps P src rep) (addOp P op) p := by
  unfold Moves addOp
  rcases add_cases (P := P) p.dag op with ⟨e, h⟩ | ⟨-, h⟩ | ⟨dag, hadd, h⟩
  · rw [h]
    exact ReflTransGen.refl
  · rw [h]
    exact ReflTransGen.refl
  · rw [h]
    exact (Update.own hsigned hdeps hadd).steps

theorem signOp_run (body : Body) :
    signOp P body p = (.ok (p.sign P body), { p with signed := p.sign P body :: p.signed }) :=
  rfl

theorem publish_moves (body : Body) : Moves (Steps P src rep) (publish P body) p := by
  refine moves_bind (signOp_moves body) fun op p' hsign => ?_
  cases (signOp_run body).symm.trans hsign
  exact moves_bind (addOp_own List.mem_cons_self rfl) fun _ _ _ => moves_pure _ _

/-- A published operation is signed and, unless its identifier is taken, stored. -/
theorem publish_ok {body : Body} {op : Op} {p' : Participant}
    (h : publish P body p = (.ok op, p')) :
    op = p.sign P body ∧ ∃ dag, p' = { p with signed := op :: p.signed, dag } ∧
      ((p.dag.contains (op.oid P) ∧ dag = p.dag) ∨ Added P p.dag op dag) := by
  obtain ⟨op₁, p₁, hsign, h⟩ := bind_ok h
  cases (signOp_run body).symm.trans hsign
  obtain ⟨oid, p₂, hadd, h⟩ := bind_ok h
  cases h
  rw [addOp_run] at hadd
  refine ⟨rfl, ?_⟩
  rcases add_cases (P := P) p.dag (p.sign P body) with ⟨e, he⟩ | ⟨hold, hrun⟩ | ⟨dag, hnew, hrun⟩
  · rw [he] at hadd
    cases hadd
  · rw [hrun] at hadd
    cases hadd
    exact ⟨_, rfl, Or.inl ⟨hold, rfl⟩⟩
  · rw [hrun] at hadd
    cases hadd
    exact ⟨_, rfl, Or.inr hnew⟩

theorem publish_signed {body : Body} {op : Op} {p' : Participant}
    (h : publish P body p = (.ok op, p')) : op ∈ p'.signed := by
  obtain ⟨-, dag, rfl, -⟩ := publish_ok h
  exact List.mem_cons_self

theorem publishPrekeys_moves : Moves (Steps P src rep) (publishPrekeys P) p :=
  moves_get (moves_bind (publish_moves _) fun _ _ _ => moves_pure _ _)

theorem rotatePrekeys_moves : Moves (Steps P src rep) (rotatePrekeys P) p := by
  refine moves_bind draw_moves fun secret p' _ => ?_
  exact moves_bind (moves_modify (Update.channels _ _ _ _).steps) fun _ _ _ => publishPrekeys_moves

theorem rotateWhen_moves (due : Bool) : Moves (Steps P src rep) (rotateWhen P due) p := by
  unfold rotateWhen
  split_ifs
  · exact moves_bind rotatePrekeys_moves fun _ _ _ => moves_pure _ _
  · exact moves_pure _ _

theorem noteChange_moves (before : BitVec 64) : Moves (Steps P src rep) (noteChange P before) p := by
  refine moves_get ?_
  dsimp only
  split_ifs
  · exact moves_bind noteVersion_moves fun _ _ _ => moves_pure _ _
  · exact moves_pure _ _

end Elementary

/-! ## Contributing -/

section Contributing

variable {p : Participant}

theorem absorb_moves {op : Op} (x : Secret)
    (hheld : p.dag.get (op.oid P) = some op ∨ op ∈ p.signed) :
    Moves (Steps P src rep) (absorb P op x) p := by
  unfold absorb
  split
  · rename_i cid cparents _ _ _ hbody
    refine moves_get ?_
    dsimp only
    by_cases hold : p.absorbed.contains (op.oid P)
    · rw [if_pos hold]
      exact moves_pure _ _
    by_cases hcid : commitment P x = cid
    · rw [if_neg hold, if_neg (not_not.mpr hcid)]
      split
      · rename_i parent hparent
        have hnew : op.oid P ∉ p.absorbed := by
          simpa [← Std.ExtTreeSet.contains_iff_mem] using hold
        exact (Update.absorbed hheld hbody hnew hcid hparent).steps
      · exact moves_bind (markMissing_moves _) fun _ _ _ => moves_throw _ _
    · rw [if_neg hold, if_pos hcid]
      exact moves_throw _ _
  · exact moves_throw _ _

theorem establish_moves (v : SigPublic) : Moves (Steps P src rep) (establish P v) p := by
  refine moves_get ?_
  split_ifs
  · exact moves_pure _ _
  · split
    · exact moves_throw _ _
    · refine moves_bind draw_moves fun eph p' _ => ?_
      split
      · exact moves_throw _ _
      · exact moves_bind (setSend_moves _ _) fun _ _ _ => moves_pure _ _

theorem sealSlice_moves (cid : Cid) (ad : Bytes) (x : Secret) (v : SigPublic) :
    Moves (Steps P src rep) (sealSlice P cid ad x v) p := by
  refine moves_bind (establish_moves v) fun est p' _ => moves_get ?_
  split
  · exact moves_throw _ _
  · refine moves_lift fun stepped _ => ?_
    exact moves_bind (setSend_moves _ _) fun _ _ _ => moves_pure _ _

theorem sealSlices_moves (cid : Cid) (ad : Bytes) (x : Secret) (recips : List SigPublic) :
    Moves (Steps P src rep) (sealSlices P cid ad x recips) p := by
  induction recips generalizing p with
  | nil => exact moves_pure _ _
  | cons v recips ih =>
      refine moves_bind (sealSlice_moves cid ad x v) fun slice p' _ => ?_
      exact moves_bind ih fun _ _ _ => moves_pure _ _

theorem contributeTo_moves (members : Roster) (recips : List SigPublic) :
    Moves (Steps P src rep) (contributeTo P members recips) p := by
  refine moves_get ?_
  dsimp only
  split_ifs
  · exact moves_throw _ _
  · refine moves_bind draw_moves fun x p₁ _ => ?_
    refine moves_bind (sealSlices_moves _ _ x recips) fun slices p₂ _ => ?_
    refine moves_bind (publish_moves _) fun op p₃ hpub => ?_
    refine moves_bind (absorb_moves x (Or.inr (publish_signed hpub))) fun _ p₄ _ => ?_
    exact moves_bind noteVersion_moves fun _ _ _ => moves_pure _ _

theorem contributeExcluding_moves (exclude : Roster) :
    Moves (Steps P src rep) (contributeExcluding P exclude) p := by
  refine moves_get ?_
  dsimp only
  split_ifs
  · exact moves_throw _ _
  · exact moves_throw _ _
  · exact moves_bind (publish_moves _) fun _ _ _ => moves_pure _ _
  · exact contributeTo_moves _ _

theorem draw_ok {x : Secret} {p' : Participant} (h : draw p = (.ok x, p')) :
    ∃ rest, p.entropy = x :: rest ∧ p' = { p with entropy := rest } := by
  rw [draw, bind_run, get_run] at h
  cases hentropy : p.entropy with
  | nil =>
      simp only [hentropy] at h
      cases h
  | cons y rest =>
      simp only [hentropy] at h
      cases h
      exact ⟨rest, rfl, rfl⟩

/-- A payload is sealed under a key agreed on with a fresh ephemeral secret. -/
theorem sealEnvelope_ok {adLabel nonceLabel : String} {recipient : SigPublic} {gen : UInt32}
    {pk : DhPublic} {payload : Bytes} {sealed : Envelope} {p' : Participant}
    (h : sealEnvelope P adLabel nonceLabel recipient gen pk payload p = (.ok sealed, p')) :
    ∃ eph shared rest, p.entropy = eph :: rest ∧ P.x25519Agree eph pk = some shared ∧
      p' = { p with entropy := rest } ∧
      sealed = { eph := P.x25519Public eph, gen
                 ct := aeadSeal P (envelopeKey P shared p.sid p.ipk recipient)
                   (envelopeNonce P nonceLabel p.sid (P.x25519Public eph)) payload
                   (envelopeAd P adLabel p.sid p.ipk recipient) } := by
  obtain ⟨_, _, hget, h⟩ := bind_ok h
  cases hget
  obtain ⟨eph, p₁, hdraw, h⟩ := bind_ok h
  obtain ⟨rest, hentropy, rfl⟩ := draw_ok hdraw
  cases hshared : P.x25519Agree eph pk with
  | none =>
      simp only [hshared] at h
      cases h
  | some shared =>
      simp only [hshared] at h
      cases h
      exact ⟨eph, shared, rest, hentropy, hshared, rfl, rfl⟩

theorem sealEnvelope_moves (adLabel nonceLabel : String) (recipient : SigPublic) (gen : UInt32)
    (pk : DhPublic) (payload : Bytes) :
    Moves (Steps P src rep) (sealEnvelope P adLabel nonceLabel recipient gen pk payload) p := by
  refine moves_get (moves_bind draw_moves fun eph p' _ => ?_)
  split
  · exact moves_throw _ _
  · exact moves_pure _ _

theorem welcomeFor_moves (kp : KeyPackage) : Moves (Steps P src rep) (welcomeFor P kp) p := by
  refine moves_get ?_
  split
  · exact moves_throw _ _
  · exact moves_bind (sealEnvelope_moves _ _ _ _ _ _) fun _ _ _ => moves_pure _ _

theorem invite_moves (kp : KeyPackage) : Moves (Steps P src rep) (invite P kp) p := by
  refine moves_lift fun _ _ => moves_get ?_
  split
  · exact moves_throw _ _
  · refine moves_bind (moves_modify (Update.channels _ _ _ _).steps) fun _ p₁ _ => ?_
    refine moves_bind (publish_moves _) fun add p₂ _ => ?_
    refine moves_bind (rotateWhen_moves _) fun rotation p₃ _ => ?_
    refine moves_bind (welcomeFor_moves kp) fun welcome p₄ _ => ?_
    refine moves_bind (contributeExcluding_moves ∅) fun contribution p₅ _ => ?_
    exact moves_bind noteVersion_moves fun _ _ _ => moves_pure _ _

theorem remove_moves (who : SigPublic) : Moves (Steps P src rep) (remove P who) p := by
  refine moves_bind (publish_moves _) fun op p₁ _ => ?_
  refine moves_bind (contributeExcluding_moves _) fun contribution p₂ _ => ?_
  refine moves_bind (moves_modify (Update.channels _ _ _ _).steps) fun _ p₃ _ => ?_
  exact moves_bind noteVersion_moves fun _ _ _ => moves_pure _ _

theorem leave_moves : Moves (Steps P src rep) (leave P) p :=
  moves_get (moves_bind (publish_moves _) fun _ _ _ => moves_pure _ _)

/-- What a founder does after its admission. -/
theorem found_ok {out : List Outbound} {p' : Participant} (h : found P p = (.ok out, p')) :
    ∃ add p₁, publish P (.add p.ipk) p = (.ok add, p₁) ∧ Steps P src rep p₁ p' := by
  obtain ⟨_, _, hget, h⟩ := bind_ok h
  cases hget
  obtain ⟨add, p₁, hpublish, h⟩ := bind_ok h
  refine ⟨add, p₁, hpublish, Moves.run (moves_bind publishPrekeys_moves fun prekeys p₂ _ => ?_) h⟩
  refine moves_bind (contributeExcluding_moves ∅) fun contribution p₃ _ => ?_
  exact moves_bind noteVersion_moves fun _ _ _ => moves_pure _ _

end Contributing

/-! ## Inbound contributions -/

section Inbound

variable {p : Participant}

theorem judge_moves {acc : Op} {who : SigPublic} {coid : Oid} {key : Secret} {seq : UInt64}
    (hheld : p.dag.get (acc.oid P) = some acc ∨ acc ∈ p.signed)
    (hbody : acc.body = .accuse who coid key seq) :
    Moves (Steps P src rep) (judge P acc who) p := by
  refine moves_get ?_
  split
  · rename_i hcheck
    exact (Update.guilty hheld hbody hcheck).steps
  · exact moves_pure _ _

theorem withRecv_moves {β : Type} (author : SigPublic) (f : RecvChan → β × RecvChan) :
    Moves (Steps P src rep) (withRecv author f) p := by
  refine moves_get ?_
  split
  · exact moves_pure _ _
  · exact moves_bind (Update.channels _ _ _ _).steps fun _ _ _ => moves_pure _ _

theorem commitRecv_moves (author : SigPublic) (seq : UInt64) :
    Moves (Steps P src rep) (commitRecv P author seq) p := by
  refine moves_get ?_
  split
  · exact moves_pure _ _
  · refine moves_lift fun moved _ => ?_
    exact moves_bind (Update.channels _ _ _ _).steps fun _ _ _ => moves_pure _ _

theorem openChannel_moves (op : Op) (gen : UInt32) (eph : DhPublic) :
    Moves (Steps P src rep) (openChannel P op gen eph) p := by
  refine moves_get ?_
  dsimp only
  split
  · exact moves_pure _ _
  split
  · exact moves_bind (markMissing_moves _) fun _ _ _ => moves_pure _ _
  split
  · refine moves_bind (markMissing_moves _) fun _ _ _ => ?_
    exact moves_bind rotatePrekeys_moves fun _ _ _ => moves_pure _ _
  · exact moves_bind (Update.channels _ _ _ _).steps fun _ _ _ => moves_pure _ _

/-- Judging adds the accused to the guilty identities or changes nothing. -/
theorem judge_run (acc : Op) (who : SigPublic) :
    ∃ guilty, judge P acc who p = (.ok (), { p with guilty }) ∧
      (guilty = p.guilty ∨ guilty = p.guilty.insert who) := by
  by_cases h : p.checkAccusation P acc
  · exact ⟨p.guilty.insert who, by simp [judge, bind_run, h, markGuilty], Or.inr rfl⟩
  · exact ⟨p.guilty, by simp [judge, bind_run, h], Or.inl rfl⟩

theorem accuseAuthor_moves (op : Op) (key : Secret) (seq : UInt64) :
    Moves (Steps P src rep) (accuseAuthor P op key seq) p := by
  refine moves_bind (signOp_moves _) fun acc p₁ hsign => ?_
  cases (signOp_run _).symm.trans hsign
  refine moves_bind (judge_moves (Or.inr List.mem_cons_self) rfl) fun _ p₂ hjudge => ?_
  obtain ⟨guilty, hrun, -⟩ := judge_run (P := P) (p := { p with signed := _ }) (p.sign P _) op.author
  cases hrun.symm.trans hjudge
  exact moves_bind (addOp_own List.mem_cons_self rfl) fun _ _ _ => moves_pure _ _

theorem openSlice_moves {op : Op} (key : Secret) (seq : UInt64) (ad : Bytes)
    (hheld : p.dag.get (op.oid P) = some op) :
    Moves (Steps P src rep) (openSlice P op key seq ad) p := by
  refine moves_get ?_
  split
  · split
    · exact moves_pure _ _
    · dsimp only
      split
      · exact moves_bind (markMissing_moves _) fun _ _ _ => moves_pure _ _
      · rename_i x _
        refine moves_bind (moves_attempt (absorb_moves x (Or.inl hheld))) fun r p₁ _ => ?_
        split
        · exact moves_pure _ _
        · exact moves_pure _ _
        · exact moves_bind (accuseAuthor_moves _ _ _) fun _ _ _ => moves_pure _ _
        · exact moves_throw _ _
  · exact moves_pure _ _

theorem drainSlices_moves (hp : Steady P p) (author : SigPublic) (fuel : ℕ) :
    Moves (Steps P src rep) (drainSlices P author fuel) p := by
  induction fuel generalizing p with
  | zero => exact moves_pure _ _
  | succ fuel ih =>
      refine moves_seq (withRecv_moves author _) fun taken p₁ htaken _ => ?_
      have hp₁ := htaken.steady hp
      split
      · refine moves_get ?_
        split
        · rename_i buffered hget
          split
          · have hheld : p₁.dag.get (buffered.oid P) = some buffered := by
              rw [hp₁.sound.keyed hget, hget]
            refine moves_seq (openSlice_moves _ _ _ hheld) fun authentic p₂ hopen _ => ?_
            split
            · refine moves_seq (commitRecv_moves author _) fun moved p₃ hcommit _ => ?_
              split
              · exact ih (hcommit.steady (hopen.steady hp₁))
              · exact moves_pure _ _
            · exact moves_pure _ _
          · exact markMissing_moves _
        · exact markMissing_moves _
      · exact moves_pure _ _

theorem offerSlice_moves (hp : Steady P p) {op : Op} (cid : Cid) (view : BitVec 256)
    (slice : Slice) (hheld : p.dag.get (op.oid P) = some op) :
    Moves (Steps P src rep) (offerSlice P op cid view slice) p := by
  refine moves_seq (withRecv_moves op.author _) fun offered p₁ hoffer _ => ?_
  split
  · refine moves_seq (openSlice_moves _ _ _ (hoffer.keeps hheld)) fun authentic p₂ hopen _ => ?_
    split
    · refine moves_seq (commitRecv_moves op.author _) fun moved p₃ hcommit _ => ?_
      split
      · exact moves_throw _ _
      · exact moves_get (drainSlices_moves (hcommit.steady (hopen.steady (hoffer.steady hp))) _ _)
    · exact moves_pure _ _
  · exact moves_pure _ _

theorem announce_moves (op : Op) (announced : Option (UInt32 × DhPublic)) :
    Moves (Steps P src rep) (announce P op announced) p := by
  unfold announce
  split
  · exact openChannel_moves _ _ _
  · exact moves_pure _ _

theorem receiveContribution_moves (hp : Steady P p) {op : Op}
    (hheld : p.dag.get (op.oid P) = some op) :
    Moves (Steps P src rep) (receiveContribution P op) p := by
  refine moves_get ?_
  split
  · split
    · exact moves_pure _ _
    · refine moves_seq (announce_moves op _) fun opening p₁ hopening _ => ?_
      split
      · exact moves_pure _ _
      · exact moves_bind (offerSlice_moves (hopening.steady hp) _ _ _ (hopening.keeps hheld))
          fun _ _ _ => moves_pure _ _
  · exact moves_pure _ _

/-! ## Inbound operations -/

theorem retryAccusations_moves (hp : Steady P p) :
    Moves (Steps P src rep) (retryAccusations P) p := by
  have hsame : (retryAccusations P p).2 = p := by
    change p.openAccusations.foldl _ { p with openAccusations := [] } = p
    rw [hp.parked]
    change { p with openAccusations := [] } = p
    rw [← hp.parked]
  rw [Moves, hsame]
  exact Std.Refl.refl p

theorem learnPrekey_moves (author : SigPublic) (gen : UInt32) (pk : DhPublic) :
    Moves (Steps P src rep) (learnPrekey author gen pk) p := by
  refine moves_modify ?_
  split
  · exact (Update.channels _ _ _ _).steps
  · split
    · exact (Update.channels _ _ _ _).steps
    · exact Std.Refl.refl p

theorem applyOp_moves (hp : Steady P p) {op : Op} (hheld : p.dag.get (op.oid P) = some op) :
    Moves (Steps P src rep) (applyOp P op) p := by
  refine moves_get ?_
  split
  · exact moves_bind (learnPrekey_moves _ _ _) fun _ _ _ => moves_pure _ _
  · exact receiveContribution_moves hp hheld
  · rename_i hbody
    exact moves_bind (judge_moves (Or.inl hheld) hbody) fun _ _ _ => moves_pure _ _
  · exact rotateWhen_moves _
  · exact rotateWhen_moves _
  · exact moves_pure _ _

theorem park_moves (hp : Tidy P src p) {op : Op} (hsrc : src op) :
    Moves (Steps P src rep) (park op) p := by
  refine moves_modify ?_
  split
  · refine (Update.pending fun o ho => ?_).steps
    rcases List.mem_append.mp ho with hold | hnew
    · exact hp.pending o hold
    · rwa [List.mem_singleton.mp hnew]
  · exact Std.Refl.refl p

/-- What `ingest` does with an operation that passes its checks. -/
theorem addOp_stored {op : Op} (hsrc : src op) (hsid : op.sid = p.sid)
    (hsig : op.verify P = .ok ()) (hdeps : p.depsAvailable op) (hauth : p.authorised P op) :
    Moves (Steps P src rep) (addOp P op) p := by
  unfold Moves addOp
  rcases add_cases (P := P) p.dag op with ⟨e, h⟩ | ⟨-, h⟩ | ⟨dag, hadd, h⟩
  · rw [h]
    exact ReflTransGen.refl
  · rw [h]
    exact ReflTransGen.refl
  · rw [h]
    exact (Update.stored hsrc hsid hsig hdeps hauth hadd).steps

/-- A new operation that was stored without an error is in the graph. -/
theorem addOp_get {op : Op} {oid : Oid} {p' : Participant}
    (hnew : ¬p.dag.contains (op.oid P)) (h : addOp P op p = (.ok oid, p')) :
    p'.dag.get (op.oid P) = some op := by
  rw [addOp_run] at h
  rcases add_cases (P := P) p.dag op with ⟨e, he⟩ | ⟨hold, -⟩ | ⟨dag, hadd, hrun⟩
  · rw [he] at h
    cases h
  · exact absurd hold hnew
  · rw [hrun] at h
    cases h
    rw [hadd.get, if_pos rfl]

theorem ingest_moves (hp : Tidy P src p) {op : Op} (hsrc : src op) :
    Moves (Steps P src rep) (ingest P op) p := by
  refine moves_get ?_
  split
  · exact moves_throw _ _
  rename_i hsid
  refine moves_lift fun _ hsig => ?_
  split
  · exact moves_pure _ _
  rename_i hnew
  split
  · exact moves_bind (park_moves hp hsrc) fun _ _ _ => moves_pure _ _
  rename_i hdeps
  split
  · exact moves_throw _ _
  rename_i hauth
  refine moves_seq (addOp_stored hsrc (not_not.mp hsid) hsig (by simpa using hdeps)
    (by simpa using hauth)) fun oid p₁ hstore hadd => ?_
  have hp₁ := hstore.tidy hp
  refine moves_seq (applyOp_moves hp₁.steady (addOp_get hnew hadd)) fun out p₂ happly _ => ?_
  exact moves_bind (retryAccusations_moves (happly.tidy hp₁).steady) fun _ _ _ => moves_pure _ _

theorem ingestAll_moves (hp : Tidy P src p) {ops : List Op} (hsrc : ∀ op ∈ ops, src op) :
    Moves (Steps P src rep) (ingestAll P ops) p := by
  induction ops generalizing p with
  | nil => exact moves_pure _ _
  | cons op ops ih =>
      refine moves_seq (moves_attempt (ingest_moves hp (hsrc op List.mem_cons_self)))
        fun first p₁ hfirst _ => ?_
      refine moves_bind (ih (hfirst.tidy hp) fun o ho => hsrc o (List.mem_cons_of_mem _ ho)) ?_
      exact fun _ _ _ => moves_pure _ _

theorem ingestHistory_moves (hp : Tidy P src p) {ops : List Op} (hsrc : ∀ op ∈ ops, src op) :
    Moves (Steps P src rep) (ingestHistory P ops) p := by
  induction ops generalizing p with
  | nil => exact moves_pure _ _
  | cons op ops ih =>
      refine moves_seq (ingest_moves hp (hsrc op List.mem_cons_self)) fun first p₁ hfirst _ => ?_
      exact ih (hfirst.tidy hp) fun o ho => hsrc o (List.mem_cons_of_mem _ ho)

theorem drainPass_moves (hp : Tidy P src p) {waiting : List Op} (hsrc : ∀ op ∈ waiting, src op) :
    Moves (Steps P src rep) (drainPass P waiting) p := by
  induction waiting generalizing p with
  | nil => exact moves_pure _ _
  | cons op waiting ih =>
      have hrest : ∀ o ∈ waiting, src o := fun o ho => hsrc o (List.mem_cons_of_mem _ ho)
      refine moves_get ?_
      split
      · exact moves_bind (ih hp hrest) fun _ _ _ => moves_pure _ _
      · refine moves_seq (moves_attempt (ingest_moves hp (hsrc op List.mem_cons_self)))
          fun first p₁ hfirst _ => ?_
        split
        · exact moves_bind (ih (hfirst.tidy hp) hrest) fun _ _ _ => moves_pure _ _
        · exact ih (hfirst.tidy hp) hrest

/-- What a pass defers was waiting. -/
theorem drainPass_deferred {waiting deferred : List Op} {progressed : Bool} {out : List Outbound}
    {p' : Participant} (h : drainPass P waiting p = (.ok (deferred, progressed, out), p')) :
    deferred.Sublist waiting := by
  induction waiting generalizing p deferred progressed out with
  | nil =>
      cases h
      exact List.Sublist.refl _
  | cons op waiting ih =>
      rw [drainPass] at h
      obtain ⟨p₀, _, hget, h⟩ := bind_ok h
      cases hget
      dsimp only at h
      split at h
      · obtain ⟨⟨d, pr, o⟩, p₁, hpass, h⟩ := bind_ok h
        cases h
        exact (ih hpass).cons_cons op
      · obtain ⟨first, p₁, -, h⟩ := bind_ok h
        split at h
        · obtain ⟨⟨d, pr, o⟩, p₂, hpass, h⟩ := bind_ok h
          cases h
          exact (ih hpass).cons op
        · exact (ih h).cons op

theorem drainRounds_moves (hp : Tidy P src p) (rounds : ℕ) {waiting : List Op}
    (hsrc : ∀ op ∈ waiting, src op) : Moves (Steps P src rep) (drainRounds P rounds waiting) p := by
  induction rounds generalizing p waiting with
  | zero => exact moves_bind (Update.pending hsrc).steps fun _ _ _ => moves_pure _ _
  | succ rounds ih =>
      refine moves_seq (drainPass_moves hp hsrc) fun result p₁ hpass hrun => ?_
      obtain ⟨deferred, progressed, out⟩ := result
      have hdeferred : ∀ op ∈ deferred, src op :=
        fun op hop => hsrc op ((drainPass_deferred hrun).subset hop)
      dsimp only
      split
      · exact moves_bind (ih (hpass.tidy hp) hdeferred) fun _ _ _ => moves_pure _ _
      · exact moves_bind (Update.pending hdeferred).steps fun _ _ _ => moves_pure _ _

theorem drainPending_moves (hp : Tidy P src p) : Moves (Steps P src rep) (drainPending P) p := by
  refine moves_get ?_
  dsimp only
  refine moves_seq (Update.pending (by simp)).steps fun _ p₁ hclear _ => ?_
  exact drainRounds_moves (hclear.tidy hp) _ hp.pending

/-! ## Repair and messages -/

theorem answerNodeKeysFor_moves (recipient : SigPublic) (nodes : List Oid) :
    Moves (Steps P src rep) (answerNodeKeysFor P recipient nodes) p := by
  refine moves_get ?_
  dsimp only
  split
  · exact moves_pure _ _
  split
  · exact moves_pure _ _
  split
  · exact moves_throw _ _
  · exact moves_bind (sealEnvelope_moves _ _ _ _ _ _) fun _ _ _ => moves_pure _ _

theorem learnWanted_moves (want : OidSet) {entries : List (Oid × Secret)}
    (hrep : ∀ entry ∈ entries, entry.1 ∈ want → rep entry.1 entry.2) :
    Moves (Steps P src rep) (learnWanted want entries) p := by
  induction entries generalizing p with
  | nil => exact moves_pure _ _
  | cons entry entries ih =>
      have hrest := fun e he => hrep e (List.mem_cons_of_mem _ he)
      rw [learnWanted]
      split
      · rename_i hwant
        have hkey := hrep entry List.mem_cons_self (Std.ExtTreeSet.contains_iff_mem.mp hwant)
        exact moves_bind (Update.repaired hkey).steps fun _ _ _ => ih hrest
      · exact ih hrest

end Inbound

/-- The operations a message carries. -/
def carried : Message → List Op
  | .op o => [o]
  | .deliver ops _ => ops
  | _ => []

/-- The node keys a participant takes over from a message: those of its frontier in the sealed
payload of a repair response by a current member. -/
def Repairs (P : Primitives) (p : Participant) (m : Message) (oid : Oid) (key : Secret) : Prop :=
  ∃ sender sealed plain entries, m = .nodeKeyResponse sender sealed ∧ sender ∈ p.members ∧
    openEnvelope P p.prekeys "cfr/repair/ad" "repair" p.sid sender p.ipk sealed = .ok plain ∧
    parseNodekeyPayload plain = .ok entries ∧ (oid, key) ∈ entries ∧ oid ∈ p.frontier

section Messages

variable {p : Participant}

theorem absorbNodeKeys_moves (sender : SigPublic) (sealed : Envelope)
    (hrep : ∀ oid key, Repairs P p (.nodeKeyResponse sender sealed) oid key → rep oid key) :
    Moves (Steps P src rep) (absorbNodeKeys P sender sealed) p := by
  refine moves_get ?_
  split
  · exact moves_throw _ _
  rename_i hsender
  refine moves_lift fun plain hplain => moves_lift fun entries hentries => ?_
  refine learnWanted_moves _ fun entry hentry hwant => hrep _ _ ?_
  have hmember : sender ∈ p.members := by
    simpa [← Std.ExtTreeSet.contains_iff_mem] using hsender
  exact ⟨sender, sealed, plain, entries, rfl, hmember, hplain, hentries, hentry, hwant⟩

theorem dispatch_moves (hp : Tidy P src p) (m : Message) (hsrc : ∀ op ∈ carried m, src op)
    (hrep : ∀ oid key, Repairs P p m oid key → rep oid key) :
    Moves (Steps P src rep) (dispatch P m) p := by
  cases m with
  | op o =>
      exact moves_bind (ingest_moves hp (hsrc o (by simp [carried]))) fun _ _ _ => moves_pure _ _
  | deliver ops pruned => exact moves_bind (ingestAll_moves hp hsrc) fun _ _ _ => moves_pure _ _
  | sync sender heads => exact moves_get (moves_pure _ _)
  | nodeKeyRequest sender nodes =>
      exact moves_bind (answerNodeKeysFor_moves _ _) fun _ _ _ => moves_pure _ _
  | nodeKeyResponse sender sealed =>
      exact moves_bind (absorbNodeKeys_moves _ _ hrep) fun _ _ _ => moves_pure _ _
  | checkpoint certificate => exact moves_get (moves_lift fun _ _ => moves_pure _ _)
  | welcome sid sender sealed history pruned => exact moves_throw _ _

theorem settle_moves (before : Participant) : Moves (Steps P src rep) (settle P before) p := by
  refine moves_get (moves_bind (noteChange_moves _) fun changed p₁ _ => ?_)
  exact moves_get (moves_pure _ _)

theorem conclude_moves (hp : Tidy P src p) (before : Participant)
    (result : List Event × List Outbound) :
    Moves (Steps P src rep) (conclude P before result) p := by
  refine moves_bind (drainPending_moves hp) fun drained p₁ _ => ?_
  exact moves_bind (settle_moves before) fun _ _ _ => moves_pure _ _

/-- Handling a message takes in nothing but the operations it carries, the buffered ones and the
node keys it repairs. -/
theorem handle_moves (hp : Tidy P src p) (wire : Bytes)
    (hsrc : ∀ m, Message.fromWire P wire = .ok m → ∀ op ∈ carried m, src op)
    (hrep : ∀ m, Message.fromWire P wire = .ok m → ∀ oid key, Repairs P p m oid key → rep oid key) :
    Moves (Steps P src rep) (handle P wire) p := by
  refine moves_lift fun m hm => moves_get ?_
  refine moves_seq (dispatch_moves hp m (hsrc m hm) (hrep m hm)) fun result p₁ hdispatch _ => ?_
  exact conclude_moves (hdispatch.tidy hp) p result

/-! ### Commands that cannot fail -/

theorem ingestAll_total (ops : List Op) : Total (ingestAll P ops) := by
  induction ops with
  | nil => exact total_pure _
  | cons op ops ih =>
      exact total_bind (total_attempt _) fun _ => total_bind ih fun _ => total_pure _

theorem drainPass_total (waiting : List Op) : Total (drainPass P waiting) := by
  induction waiting with
  | nil => exact total_pure _
  | cons op waiting ih =>
      refine total_bind total_get fun p => ?_
      split_ifs
      · exact total_bind ih fun _ => total_pure _
      · refine total_bind (total_attempt _) fun first => ?_
        cases first with
        | ok out => exact total_bind ih fun _ => total_pure _
        | error e => exact ih

theorem drainRounds_total (rounds : ℕ) (waiting : List Op) : Total (drainRounds P rounds waiting) := by
  induction rounds generalizing waiting with
  | zero => exact total_bind (total_modify _) fun _ => total_pure _
  | succ rounds ih =>
      refine total_bind (drainPass_total waiting) fun result => ?_
      obtain ⟨deferred, progressed, out⟩ := result
      cases progressed with
      | true => exact total_bind (ih deferred) fun _ => total_pure _
      | false => exact total_bind (total_modify _) fun _ => total_pure _

theorem settle_total (before : Participant) : Total (settle P before) := by
  refine total_bind total_get fun after => total_bind (total_bind total_get fun now => ?_) fun _ =>
    total_bind total_get fun _ => total_pure _
  dsimp only
  split_ifs
  · exact total_bind (total_modify _) fun _ => total_pure _
  · exact total_pure _

theorem conclude_total (before : Participant) (result : List Event × List Outbound) :
    Total (conclude P before result) := by
  have hdrain : Total (drainPending P) :=
    total_bind total_get fun p => total_bind (total_modify _) fun _ => drainRounds_total _ _
  exact total_bind hdrain fun _ => total_bind (settle_total before) fun _ => total_pure _

theorem handle_run {wire : Bytes} {m : Message} (hm : Message.fromWire P wire = .ok m) :
    handle P wire p = (dispatch P m >>= conclude P p) p := by
  rw [handle, bind_run, lift_run, hm]
  dsimp only
  rw [bind_run, get_run]

theorem handle_error {wire : Bytes} {e : Error} (hm : Message.fromWire P wire = .error e) :
    handle P wire p = (.error e, p) := by
  rw [handle, bind_run, lift_run, hm]

/-- What follows the dispatch of a message takes in nothing but buffered operations. -/
theorem handle_concludes (hp : Steady P p) {wire : Bytes} {m : Message}
    (hm : Message.fromWire P wire = .ok m) :
    Steps P (· ∈ (dispatch P m p).2.pending) (fun _ _ => False) (dispatch P m p).2
      (handle P wire p).2 := by
  have hdispatch : Steps P (fun _ => True) (fun _ _ => True) p (dispatch P m p).2 :=
    dispatch_moves ⟨hp.sound, hp.parked, fun _ _ => trivial⟩ m (fun _ _ => trivial)
      fun _ _ _ => trivial
  have hafter := hdispatch.steady hp
  rw [handle_run hm, bind_run]
  rcases hrun : dispatch P m p with ⟨e | result, p₁⟩
  · exact ReflTransGen.refl
  · rw [hrun] at hafter
    exact conclude_moves ⟨hafter.sound, hafter.parked, fun _ hop => hop⟩ p result

theorem repairRequest_moves : Moves (Steps P src rep) (repairRequest P) p := by
  refine moves_get ?_
  dsimp only
  split
  · exact moves_pure _ _
  split
  · refine moves_bind (moves_attempt rotatePrekeys_moves) fun r p₁ _ => ?_
    split
    · exact moves_pure _ _
    · exact moves_pure _ _
  · exact moves_pure _ _

end Messages

end CausalFrontierRatchet.MemberSteps
