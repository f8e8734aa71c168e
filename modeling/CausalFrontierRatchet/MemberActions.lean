import CausalFrontierRatchet.FrontierKeys
import CausalFrontierRatchet.Ingest

/-!
What the commands of a participant do to its own graph.  A command changes channels, keys and
counters silently; otherwise it only publishes operations on top of all heads and holds identities
guilty.  Each command is described by the bodies it may publish and the identities it may convict.
-/

namespace CausalFrontierRatchet.MemberActions

open Relation BigEndian Crypto Tlv Operation OperationGraph CausalMembership KeySchedule Channel
open Messages Commands Member MemberSteps FrontierKeys

/-- Every slice in the buffer of a receiving channel belongs to a stored operation of its sender. -/
def Buffered (p : Participant) : Prop :=
  ∀ author state, p.recv[author]? = some state → ∀ (i : UInt64) payload,
    state.chan.buffer[i]? = some payload →
      ∃ op, p.dag.get (ofBytes 256 (payload.take 32)) = some op ∧ op.author = author

/-- Nothing changes that other participants see or that verdicts depend on. -/
structure Silent (p p' : Participant) : Prop where
  dag : p'.dag = p.dag
  guilty : p'.guilty = p.guilty
  signed : p'.signed = p.signed
  pending : p'.pending = p.pending
  parked : p'.openAccusations = p.openAccusations
  party : SameParty p p'
  buffered : Buffered p → Buffered p'
  stocked : Stocked p → Stocked p'

theorem SameParty.refl (p : Participant) : SameParty p p :=
  ⟨rfl, rfl, rfl, rfl, rfl⟩

theorem SameParty.trans {p q r : Participant} (h : SameParty p q) (h' : SameParty q r) :
    SameParty p r where
  identity := h'.identity.trans h.identity
  ipk := h'.ipk.trans h.ipk
  sid := h'.sid.trans h.sid
  policy := h'.policy.trans h.policy
  seed0 := h'.seed0.trans h.seed0

instance : Std.Refl Silent where
  refl p := ⟨rfl, rfl, rfl, rfl, rfl, SameParty.refl p, id, id⟩

instance : IsTrans Participant Silent where
  trans _ _ _ h h' :=
    { dag := h'.dag.trans h.dag
      guilty := h'.guilty.trans h.guilty
      signed := h'.signed.trans h.signed
      pending := h'.pending.trans h.pending
      parked := h'.parked.trans h.parked
      party := SameParty.trans h.party h'.party
      buffered := h'.buffered ∘ h.buffered
      stocked := h'.stocked ∘ h.stocked }

theorem Silent.membership {p p' : Participant} (h : Silent p p') : p'.membership = p.membership := by
  rw [Participant.membership, Participant.membership, h.dag, h.guilty, h.party.policy]

theorem Silent.members {p p' : Participant} (h : Silent p p') : p'.members = p.members := by
  rw [Participant.members, Participant.members, h.membership]

/-- The fields no verdict reads. -/
theorem silent_fields {p : Participant} {prekeys : PrekeyPool}
    {peerPrekeys : Std.ExtTreeMap SigPublic (UInt32 × DhPublic)}
    {send : Std.ExtTreeMap SigPublic Chan} {missing : OidSet}
    {seenVersions : Std.ExtTreeMap (BitVec 64) (OidSet × BitVec 256)} {lastVersion : BitVec 64}
    {entropy : List Secret} :
    Silent p { p with prekeys, peerPrekeys, send, missing, seenVersions, lastVersion, entropy } :=
  ⟨rfl, rfl, rfl, rfl, rfl, ⟨rfl, rfl, rfl, rfl, rfl⟩, id, id⟩

/-- Keeping a node key. -/
theorem learn_silent {p : Participant} (oid : Oid) (key : Secret) {absorbed missing : OidSet} :
    Silent p { p with nodekeys := p.nodekeys.insert oid key, absorbed, missing } :=
  ⟨rfl, rfl, rfl, rfl, rfl, ⟨rfl, rfl, rfl, rfl, rfl⟩, id, fun h => ⟨h.1.insert oid key, h.2⟩⟩

/-! ## Silent commands -/

section SilentCommands

variable {P : Primitives} {p : Participant}

theorem draw_silent : Moves Silent draw p := by
  refine moves_get ?_
  cases h : p.entropy with
  | nil => exact moves_throw _ _
  | cons x rest => exact silent_fields

theorem absorb_silent (op : Op) (x : Secret) : Moves Silent (absorb P op x) p := by
  unfold absorb
  split
  · refine moves_get ?_
    dsimp only
    split_ifs
    · exact moves_pure _ _
    · exact moves_throw _ _
    · split
      · exact learn_silent _ _
      · exact moves_bind silent_fields fun _ _ _ => moves_throw _ _
    · split
      · exact learn_silent _ _
      · exact moves_bind silent_fields fun _ _ _ => moves_throw _ _
  · exact moves_throw _ _

theorem establish_silent (v : SigPublic) : Moves Silent (establish P v) p := by
  refine moves_get ?_
  split_ifs
  · exact moves_pure _ _
  · split
    · exact moves_throw _ _
    · refine moves_bind draw_silent fun eph p' _ => ?_
      split
      · exact moves_throw _ _
      · exact moves_bind silent_fields fun _ _ _ => moves_pure _ _

theorem sealSlice_silent (cid : Cid) (ad : Bytes) (x : Secret) (v : SigPublic) :
    Moves Silent (sealSlice P cid ad x v) p := by
  refine moves_bind (establish_silent v) fun est p' _ => moves_get ?_
  split
  · exact moves_throw _ _
  · refine moves_lift fun stepped _ => ?_
    exact moves_bind silent_fields fun _ _ _ => moves_pure _ _

theorem sealSlices_silent (cid : Cid) (ad : Bytes) (x : Secret) (recips : List SigPublic) :
    Moves Silent (sealSlices P cid ad x recips) p := by
  induction recips generalizing p with
  | nil => exact moves_pure _ _
  | cons v recips ih =>
      refine moves_bind (sealSlice_silent cid ad x v) fun slice p' _ => ?_
      exact moves_bind ih fun _ _ _ => moves_pure _ _

theorem sealEnvelope_silent (adLabel nonceLabel : String) (recipient : SigPublic) (gen : UInt32)
    (pk : DhPublic) (payload : Bytes) :
    Moves Silent (sealEnvelope P adLabel nonceLabel recipient gen pk payload) p := by
  refine moves_get (moves_bind draw_silent fun eph p' _ => ?_)
  split
  · exact moves_throw _ _
  · exact moves_pure _ _

theorem welcomeFor_silent (kp : KeyPackage) : Moves Silent (welcomeFor P kp) p := by
  refine moves_get ?_
  split
  · exact moves_throw _ _
  · exact moves_bind (sealEnvelope_silent _ _ _ _ _ _) fun _ _ _ => moves_pure _ _

theorem noteVersion_silent : Moves Silent (noteVersion P) p :=
  silent_fields

theorem learnWanted_silent (want : OidSet) (entries : List (Oid × Secret)) :
    Moves Silent (learnWanted want entries) p := by
  induction entries generalizing p with
  | nil => exact moves_pure _ _
  | cons entry entries ih =>
      rw [learnWanted]
      split
      · exact moves_bind (learn_silent _ _) fun _ _ _ => ih
      · exact ih

theorem takeOver_silent (entries : List (Oid × Secret)) : Silent p (entries.foldl takeOver p) := by
  induction entries generalizing p with
  | nil => exact Std.Refl.refl p
  | cons entry entries ih => exact IsTrans.trans _ _ _ (learn_silent entry.1 entry.2) ih

theorem answerNodeKeysFor_silent (recipient : SigPublic) (nodes : List Oid) :
    Moves Silent (answerNodeKeysFor P recipient nodes) p := by
  refine moves_get ?_
  dsimp only
  split
  · exact moves_pure _ _
  split
  · exact moves_pure _ _
  split
  · exact moves_throw _ _
  · exact moves_bind (sealEnvelope_silent _ _ _ _ _ _) fun _ _ _ => moves_pure _ _

theorem absorbNodeKeys_silent (sender : SigPublic) (sealed : Envelope) :
    Moves Silent (absorbNodeKeys P sender sealed) p := by
  refine moves_get ?_
  split
  · exact moves_throw _ _
  · exact moves_lift fun plain _ => moves_lift fun entries _ => learnWanted_silent _ _

theorem settle_silent (before : Participant) : Moves Silent (settle P before) p := by
  refine moves_get (moves_bind ?_ fun changed p₁ _ => moves_get (moves_pure _ _))
  refine moves_get ?_
  dsimp only
  split_ifs
  · exact moves_bind noteVersion_silent fun _ _ _ => moves_pure _ _
  · exact moves_pure _ _

/-- With nothing buffered, what follows a message only notes the version. -/
theorem conclude_silent (hpending : p.pending = []) (before : Participant)
    (result : List Event × List Outbound) : Moves Silent (conclude P before result) p := by
  have hdrain : drainPending P p = (.ok [], p) := by
    have hclear : { p with pending := [] } = p := by rw [← hpending]
    change drainRounds P p.pending.length p.pending { p with pending := [] } = _
    rw [hpending, hclear]
    exact congrArg (Prod.mk _) hclear
  refine moves_bind ?_ fun _ _ _ =>
    moves_bind (settle_silent before) fun _ _ _ => moves_pure _ _
  rw [Moves, hdrain]
  exact Std.Refl.refl p

theorem learnPrekey_silent (author : SigPublic) (gen : UInt32) (pk : DhPublic) :
    Moves Silent (learnPrekey author gen pk) p := by
  refine moves_modify ?_
  split
  · exact silent_fields
  · split
    · exact silent_fields
    · exact Std.Refl.refl p

/-- Replacing a receiving channel by one with nothing new in its buffer but slices of stored
operations. -/
theorem recv_silent {author : SigPublic} {state : RecvState}
    (h : ∀ (i : UInt64) payload, state.chan.buffer[i]? = some payload →
      (∃ old, p.recv[author]? = some old ∧ old.chan.buffer[i]? = some payload) ∨
        ∃ op, p.dag.get (ofBytes 256 (payload.take 32)) = some op ∧ op.author = author)
    (prekeys : PrekeyPool) :
    Silent p { p with prekeys, recv := p.recv.insert author state } := by
  refine ⟨rfl, rfl, rfl, rfl, rfl, ⟨rfl, rfl, rfl, rfl, rfl⟩, ?_, id⟩
  intro hp who found hfound i payload hpayload
  change (p.recv.insert author state)[who]? = some found at hfound
  rw [Std.ExtTreeMap.getElem?_insert] at hfound
  split_ifs at hfound with hwho
  · cases hfound
    obtain rfl := Std.compare_eq_iff_eq.mp hwho
    rcases h i payload hpayload with ⟨old, hold, hbuffered⟩ | hstored
    · exact hp _ old hold i payload hbuffered
    · exact hstored
  · exact hp who found hfound i payload hpayload

theorem withRecv_silent {β : Type} {author : SigPublic} {f : RecvChan → β × RecvChan}
    (hf : ∀ chan (i : UInt64) payload, (f chan).2.buffer[i]? = some payload →
      chan.buffer[i]? = some payload ∨
        ∃ op, p.dag.get (ofBytes 256 (payload.take 32)) = some op ∧ op.author = author) :
    Moves Silent (withRecv author f) p := by
  refine moves_get ?_
  cases hstate : p.recv[author]? with
  | none => exact moves_pure _ _
  | some state =>
      refine moves_bind (recv_silent (fun i payload hpayload => ?_) p.prekeys) fun _ _ _ =>
        moves_pure _ _
      exact (hf state.chan i payload hpayload).imp_left fun h => ⟨state, hstate, h⟩

theorem commitRecv_silent (author : SigPublic) (seq : UInt64) :
    Moves Silent (commitRecv P author seq) p := by
  refine moves_get ?_
  cases hstate : p.recv[author]? with
  | none => exact moves_pure _ _
  | some state =>
      refine moves_lift fun moved hcommit => ?_
      refine moves_bind (recv_silent (fun i payload hpayload => ?_) p.prekeys) fun _ _ _ =>
        moves_pure _ _
      refine Or.inl ⟨state, hstate, ?_⟩
      unfold RecvChan.commit at hcommit
      split_ifs at hcommit
      · cases hcommit
        exact hpayload
      · cases hadvance : state.chan.chan.advance P with
        | error e =>
            rw [hadvance] at hcommit
            cases hcommit
        | ok chan =>
            rw [hadvance] at hcommit
            cases hcommit
            exact hpayload

theorem takeNext_silent (author : SigPublic) :
    Moves Silent (withRecv author fun chan => chan.takeNext P) p := by
  refine withRecv_silent fun chan i payload hpayload => Or.inl ?_
  unfold RecvChan.takeNext at hpayload
  dsimp only at hpayload
  split_ifs at hpayload
  · exact hpayload
  · split at hpayload
    · exact hpayload
    · rw [Std.ExtTreeMap.getElem?_erase] at hpayload
      split_ifs at hpayload
      exact hpayload

theorem offer_silent {op : Op} (hheld : p.dag.get (op.oid P) = some op) (slice : Slice) :
    Moves Silent (withRecv op.author fun chan =>
      chan.offer P slice.seq (bytesOf (op.oid P) ++ slice.ct)) p := by
  refine withRecv_silent fun chan i payload hpayload => ?_
  have hoid : ofBytes 256 ((bytesOf (op.oid P) ++ slice.ct).take 32) = op.oid P := by
    rw [List.take_left' (by simp), ofBytes_bytesOf (by decide)]
  unfold RecvChan.offer at hpayload
  split_ifs at hpayload
  · exact Or.inl hpayload
  · rw [Std.ExtTreeMap.getElem?_insertIfNew] at hpayload
    split_ifs at hpayload
    · cases hpayload
      exact Or.inr ⟨op, by rw [hoid, hheld], rfl⟩
    · exact Or.inl hpayload
  · exact Or.inl hpayload
  · exact Or.inl hpayload
  · exact Or.inl hpayload

end SilentCommands

/-! ## Actions -/

section Actions

variable (P : Primitives)

/-- The participant after it has signed an operation and tried to store it. -/
def published (p : Participant) (body : Body) : Participant :=
  { p with signed := p.sign P body :: p.signed, dag := (p.dag.add P (p.sign P body)).2 }

variable (may : Participant → Body → Prop) (convicts : Participant → SigPublic → Prop)

inductive Action : Participant → Participant → Prop
  | silent {p p' : Participant} (h : Silent p p') : Action p p'
  | published {p : Participant} {body : Body} (h : may p body) : Action p (published P p body)
  | convicted {p : Participant} {who : SigPublic} (h : convicts p who) :
      Action p { p with guilty := p.guilty.insert who }

def Acts : Participant → Participant → Prop :=
  ReflTransGen (Action P may convicts)

/-- Every body of a kind may be published, also after silent changes. -/
def Permits (p : Participant) (bodies : Body → Prop) : Prop :=
  ∀ p' body, Silent p p' → bodies body → may p' body

/-- Some key opens the slice of a contribution for this participant to a secret other than the
committed one. -/
def Equivocates (p : Participant) (op : Op) : Prop :=
  ∃ cid cparents recips slices view slice key seq x,
    op.body = .contrib cid cparents recips slices view ∧
    slices.find? (fun s => s.recipient = p.ipk) = some slice ∧
    (aeadOpen P key (Participant.sliceNonce P p.sid cid p.ipk seq) slice.ct
      (Participant.contribAd P cid view)).bind (fromSlice 256) = some x ∧
    commitment P x ≠ cid

/-- An author that has equivocated may be accused and convicted, also after further actions. -/
def Accuses (p : Participant) (author : SigPublic) : Prop :=
  ∀ p' op, Acts P may convicts p p' → p'.dag.get (op.oid P) = some op → op.author = author →
    Equivocates P p' op →
    convicts p' author ∧ ∀ coid key seq, may p' (.accuse author coid key seq)

variable {P may convicts}

instance : Std.Refl (Acts P may convicts) :=
  inferInstanceAs (Std.Refl (ReflTransGen _))

instance : IsTrans Participant (Acts P may convicts) :=
  inferInstanceAs (IsTrans _ (ReflTransGen _))

variable {p p' : Participant}

theorem Silent.acts (h : Silent p p') : Acts P may convicts p p' :=
  ReflTransGen.single (.silent h)

theorem silent_acts {α : Type} {c : Act α} (h : Moves Silent c p) : Moves (Acts P may convicts) c p :=
  Silent.acts h

theorem Accuses.acts {author : SigPublic} (h : Accuses P may convicts p author)
    (hacts : Acts P may convicts p p') : Accuses P may convicts p' author :=
  fun _ op hmore => h _ op (hacts.trans hmore)

theorem Permits.silent {bodies : Body → Prop} (h : Permits may p bodies) (hsilent : Silent p p') :
    Permits may p' bodies :=
  fun _ body hmore => h _ body (IsTrans.trans _ _ _ hsilent hmore)

theorem published_party (body : Body) : SameParty p (published P p body) :=
  ⟨rfl, rfl, rfl, rfl, rfl⟩

theorem Acts.sameParty (h : Acts P may convicts p p') : SameParty p p' := by
  induction h with
  | refl => exact SameParty.refl p
  | tail _ haction ih =>
      cases haction with
      | silent h => exact SameParty.trans ih h.party
      | published h => exact SameParty.trans ih (published_party _)
      | convicted h => exact ⟨ih.1, ih.2, ih.3, ih.4, ih.5⟩

theorem published_cases (p : Participant) (body : Body) :
    (published P p body).dag = p.dag ∨
      Added P p.dag (p.sign P body) (published P p body).dag := by
  unfold published
  rcases add_cases (P := P) p.dag (p.sign P body) with ⟨e, he⟩ | ⟨-, hold⟩ | ⟨dag, hadd, hnew⟩
  · exact Or.inl (by rw [he])
  · exact Or.inl (by rw [hold])
  · exact Or.inr (by rw [hnew]; exact hadd)

/-- What is stored stays stored. -/
theorem published_keeps {body : Body} {oid : Oid} {op : Op} (h : p.dag.get oid = some op) :
    (published P p body).dag.get oid = some op := by
  rcases published_cases (P := P) p body with hsame | hadd
  · rwa [hsame]
  · exact hadd.get_mono h

theorem Action.keeps (h : Action P may convicts p p') {oid : Oid} {op : Op}
    (hop : p.dag.get oid = some op) : p'.dag.get oid = some op := by
  cases h with
  | silent h => rwa [h.dag]
  | published h => exact published_keeps hop
  | convicted h => exact hop

theorem Acts.keeps (h : Acts P may convicts p p') {oid : Oid} {op : Op}
    (hop : p.dag.get oid = some op) : p'.dag.get oid = some op := by
  induction h with
  | refl => exact hop
  | tail _ haction ih => exact haction.keeps ih

theorem Acts.sound (h : Acts P may convicts p p') (hp : Sound P p.dag) : Sound P p'.dag := by
  induction h with
  | refl => exact hp
  | @tail q _ _ haction ih =>
      cases haction with
      | silent h => rwa [h.dag]
      | @published body h =>
          rcases published_cases (P := P) q body with hsame | hadd
          · rwa [hsame]
          · exact ih.added hadd
      | convicted h => exact ih

theorem Acts.buffered (h : Acts P may convicts p p') (hp : Buffered p) : Buffered p' := by
  induction h with
  | refl => exact hp
  | @tail q q' _ haction ih =>
      have hkeeps : ∀ oid op, q.dag.get oid = some op → q'.dag.get oid = some op :=
        fun oid op => haction.keeps
      cases haction with
      | silent h => exact h.buffered ih
      | published h =>
          intro author state hstate i payload hpayload
          obtain ⟨op, hop, hauthor⟩ := ih author state hstate i payload hpayload
          exact ⟨op, hkeeps _ _ hop, hauthor⟩
      | convicted h => exact ih

theorem Acts.stocked (h : Acts P may convicts p p') (hp : Stocked p) : Stocked p' := by
  induction h with
  | refl => exact hp
  | tail _ haction ih =>
      cases haction with
      | silent h => exact h.stocked ih
      | published h => exact ih
      | convicted h => exact ih

theorem Acts.mono {may' : Participant → Body → Prop} {convicts' : Participant → SigPublic → Prop}
    (h : Acts P may convicts p p') (hmay : ∀ q body, may q body → may' q body)
    (hconvicts : ∀ q who, convicts q who → convicts' q who) : Acts P may' convicts' p p' := by
  refine ReflTransGen.mono (fun q q' haction => ?_) p p' h
  cases haction with
  | silent h => exact .silent h
  | published h => exact .published (hmay _ _ h)
  | convicted h => exact .convicted (hconvicts _ _ h)

variable (P) in
/-- What every action and every ingestion keeps. -/
structure Consistent (p : Participant) : Prop where
  sound : Sound P p.dag
  complete : Complete p.dag
  parked : p.openAccusations = []
  key : p.ipk = P.ed25519Public p.identity
  buffered : Buffered p

theorem blank_consistent (identity : Secret) (sid : SessionId) (policy : Policy) (seed0 : Secret)
    (prekeys : PrekeyPool) (entropy : List Secret) :
    Consistent P (blank P identity sid policy seed0 prekeys entropy) where
  sound := sound_new
  complete := complete_new
  parked := rfl
  key := rfl
  buffered := fun author state hstate => by simp [blank] at hstate

theorem Consistent.steady (hp : Consistent P p) : Steady P p :=
  ⟨hp.sound, hp.parked⟩

theorem Consistent.added {op : Op} {dag : Dag} (hp : Consistent P p) (hadd : Added P p.dag op dag)
    (hdeps : ∀ d ∈ op.deps, p.dag.contains d) : Consistent P { p with dag } where
  sound := hp.sound.added hadd
  complete := hp.complete.added hadd hdeps
  parked := hp.parked
  key := hp.key
  buffered := by
    intro author state hstate i payload hpayload
    obtain ⟨op, hop, hauthor⟩ := hp.buffered author state hstate i payload hpayload
    exact ⟨op, hadd.get_mono hop, hauthor⟩

theorem Consistent.silent (hp : Consistent P p) (h : Silent p p') : Consistent P p' where
  sound := by rw [h.dag]; exact hp.sound
  complete := by rw [h.dag]; exact hp.complete
  parked := h.parked.trans hp.parked
  key := by rw [h.party.ipk, h.party.identity, hp.key]
  buffered := h.buffered hp.buffered

theorem Consistent.published (hp : Consistent P p) (body : Body) :
    Consistent P (published P p body) := by
  have hdeps : ∀ d ∈ (p.sign P body).deps, p.dag.contains d := fun d hd => (mem_heads.mp hd).1
  rcases published_cases (P := P) p body with hsame | hadd
  · have heq : MemberActions.published P p body =
        { p with signed := (MemberActions.published P p body).signed } := by
      rw [← hsame]
      rfl
    rw [heq]
    exact ⟨hp.sound, hp.complete, hp.parked, hp.key, hp.buffered⟩
  · have hadded := hp.added hadd hdeps
    exact ⟨hadded.sound, hadded.complete, hadded.parked, hadded.key, hadded.buffered⟩

theorem Acts.consistent (h : Acts P may convicts p p') (hp : Consistent P p) : Consistent P p' := by
  induction h with
  | refl => exact hp
  | tail _ haction ih =>
      cases haction with
      | silent h => exact ih.silent h
      | published h => exact ih.published _
      | convicted h => exact ⟨ih.sound, ih.complete, ih.parked, ih.key, ih.buffered⟩

/-! ## Publishing -/

theorem publish_state (body : Body) : (publish P body p).2 = published P p body := by
  unfold publish
  rw [bind_run, signOp_run]
  exact bind_pure_state _ _ _

theorem publish_error {body : Body} {e : Error} {p' : Participant}
    (h : publish P body p = (.error e, p')) : MAX_OPS ≤ p.dag.ops.size := by
  unfold publish at h
  rw [bind_run, signOp_run] at h
  dsimp only at h
  rw [bind_run, addOp_run] at h
  dsimp only at h
  cases hadd : (p.dag.add P (p.sign P body)).1 with
  | error e => exact Ingest.add_full hadd
  | ok oid =>
      rw [hadd] at h
      cases h

theorem publish_full (hfull : MAX_OPS ≤ p.dag.ops.size) (body : Body) :
    ∃ e, publish P body p = (.error e, published P p body) := by
  have hadd : p.dag.add P (p.sign P body) =
      (.error (.limitExceeded "operation graph full"), p.dag) := by
    rw [Dag.add, if_pos hfull]
  unfold publish published
  rw [bind_run, signOp_run]
  dsimp only
  rw [bind_run, addOp_run]
  dsimp only
  exact ⟨_, by rw [hadd]⟩

theorem room_of_publish {body : Body} {op : Op} {p' : Participant}
    (h : publish P body p = (.ok op, p')) : p.dag.ops.size < MAX_OPS := by
  by_contra hfull
  obtain ⟨e, hrun⟩ := publish_full (P := P) (Nat.not_lt.mp hfull) body
  rw [h] at hrun
  cases hrun

/-- With room in the graph, what is published is stored. -/
theorem publish_room (hroom : p.dag.ops.size < MAX_OPS) (body : Body) :
    publish P body p = (.ok (p.sign P body), published P p body) := by
  have hstate := publish_state (P := P) (p := p) body
  rcases hrun : publish P body p with ⟨e | op, p'⟩
  · exact absurd (publish_error hrun) (Nat.not_le.mpr hroom)
  · rw [hrun] at hstate
    rw [(publish_ok hrun).1, ← hstate]

theorem publish_acts {body : Body} (h : may p body) :
    Moves (Acts P may convicts) (publish P body) p := by
  rw [Moves, publish_state]
  exact ReflTransGen.single (.published h)

/-- An announcement of a prekey. -/
def Announces (body : Body) : Prop :=
  ∃ gen pk, body = .prekeys gen pk

theorem publishPrekeys_acts (h : Permits may p Announces) :
    Moves (Acts P may convicts) (publishPrekeys P) p :=
  moves_get (moves_bind (publish_acts (h _ _ (Std.Refl.refl p) ⟨_, _, rfl⟩))
    fun _ _ _ => moves_pure _ _)

theorem rotatePrekeys_acts (h : Permits may p Announces) :
    Moves (Acts P may convicts) (rotatePrekeys P) p := by
  refine moves_bind (silent_acts draw_silent) fun secret p₁ hdraw => ?_
  refine moves_bind (moves_modify silent_fields.acts) fun _ p₂ hrotate => ?_
  cases hrotate
  exact publishPrekeys_acts ((h.silent (draw_silent.run hdraw)).silent silent_fields)

theorem rotateWhen_acts {due : Bool} (h : due → Permits may p Announces) :
    Moves (Acts P may convicts) (rotateWhen P due) p := by
  unfold rotateWhen
  split_ifs with hdue
  · exact moves_bind (rotatePrekeys_acts (h hdue)) fun _ _ _ => moves_pure _ _
  · exact moves_pure _ _

/-! ## Contributing -/

/-- The recipients of the next contribution. -/
def recipients (p : Participant) (exclude : Roster) : List SigPublic :=
  p.members.toList.filter fun m => m ≠ p.ipk && !exclude.contains m

variable (P) in
/-- One slice for each recipient, each with the sealed secret. -/
structure Sliced (x : Secret) (recips : List SigPublic) (slices : List Slice) : Prop where
  recipients : slices.map Slice.recipient = recips
  sealed : ∀ slice ∈ slices, ∃ key n ad, slice.ct = aeadSeal P key n (bytesOf x) ad

variable (P) in
/-- A contribution to the recipients, chained to nodes whose keys are held. -/
def ContributionTo (p : Participant) (recips : List SigPublic) (body : Body) : Prop :=
  let cparents := p.chainableParents p.members
  (cparents.isEmpty ∨ (p.nodekeys.combine cparents).isSome) ∧
    ∃ x slices, Sliced P x recips slices ∧
      body = .contrib (commitment P x) cparents recips slices (p.root P)

variable (P) in
/-- What a member publishes to contribute: a request for missing prekeys or a contribution. -/
structure Contributes (p : Participant) (exclude : Roster) (body : Body) : Prop where
  member : p.ipk ∈ p.members
  few : (recipients p exclude).length ≤ MAX_RECIPIENTS
  form : (∃ targets, targets.Sublist (recipients p exclude) ∧ body = .prekeyRequest targets) ∨
    ContributionTo P p (recipients p exclude) body

theorem sealSlice_sealed {cid : Cid} {ad : Bytes} {x : Secret} {v : SigPublic} {slice : Slice}
    (h : sealSlice P cid ad x v p = (.ok slice, p')) :
    slice.recipient = v ∧ ∃ key n, slice.ct = aeadSeal P key n (bytesOf x) ad := by
  obtain ⟨est, p₁, -, h⟩ := bind_ok h
  obtain ⟨_, _, hget, h⟩ := bind_ok h
  cases hget
  cases hsend : p₁.send[v]? with
  | none =>
      simp only [hsend] at h
      cases h
  | some chan =>
      simp only [hsend] at h
      obtain ⟨stepped, p₂, hstep, h⟩ := bind_ok h
      obtain ⟨_, p₃, -, h⟩ := bind_ok h
      cases h
      exact ⟨rfl, _, _, rfl⟩

theorem sealSlices_sliced {cid : Cid} {ad : Bytes} {x : Secret} {recips : List SigPublic}
    {slices : List Slice} (h : sealSlices P cid ad x recips p = (.ok slices, p')) :
    Sliced P x recips slices := by
  induction recips generalizing p slices with
  | nil =>
      cases h
      exact ⟨rfl, by simp⟩
  | cons v recips ih =>
      obtain ⟨slice, p₁, hslice, h⟩ := bind_ok h
      obtain ⟨rest, p₂, hrest, h⟩ := bind_ok h
      cases h
      obtain ⟨hrecipient, key, n, hct⟩ := sealSlice_sealed hslice
      have hrest := ih hrest
      refine ⟨by rw [List.map_cons, hrecipient, hrest.recipients], fun s hs => ?_⟩
      rcases List.mem_cons.mp hs with rfl | hs
      · exact ⟨key, n, ad, hct⟩
      · exact hrest.sealed s hs

theorem contributeTo_acts {recips : List SigPublic}
    (h : Permits may p (ContributionTo P p recips)) :
    Moves (Acts P may convicts) (contributeTo P p.members recips) p := by
  refine moves_get ?_
  dsimp only
  split_ifs with hunchained
  · exact moves_throw _ _
  · have hchained : (p.chainableParents p.members).isEmpty ∨
        (p.nodekeys.combine (p.chainableParents p.members)).isSome := by
      simpa [or_iff_not_imp_left, Option.isSome_iff_ne_none] using hunchained
    refine moves_bind (silent_acts draw_silent) fun x p₁ hdraw => ?_
    refine moves_bind (silent_acts (sealSlices_silent _ _ x recips)) fun slices p₂ hseal => ?_
    have hsilent : Silent p p₂ :=
      IsTrans.trans _ _ _ (draw_silent.run hdraw) ((sealSlices_silent _ _ x recips).run hseal)
    refine moves_bind (publish_acts (h _ _ hsilent
      ⟨hchained, x, slices, sealSlices_sliced hseal, rfl⟩)) fun op p₃ _ => ?_
    refine moves_bind (silent_acts (absorb_silent op x)) fun _ p₄ _ => ?_
    exact moves_bind (silent_acts noteVersion_silent) fun _ _ _ => moves_pure _ _

theorem contributeExcluding_acts {exclude : Roster} (h : Permits may p (Contributes P p exclude)) :
    Moves (Acts P may convicts) (contributeExcluding P exclude) p := by
  refine moves_get ?_
  dsimp only
  split_ifs with hmember hfew hreachable
  · exact moves_throw _ _
  · exact moves_throw _ _
  · have hmember : p.ipk ∈ p.members := by
      simpa [← Std.ExtTreeSet.contains_iff_mem] using hmember
    refine moves_bind (publish_acts (h p _ (Std.Refl.refl p) ?_)) fun _ _ _ => moves_pure _ _
    exact ⟨hmember, Nat.le_of_not_lt hfew, Or.inl ⟨_, List.filter_sublist, rfl⟩⟩
  · have hmember : p.ipk ∈ p.members := by
      simpa [← Std.ExtTreeSet.contains_iff_mem] using hmember
    refine contributeTo_acts fun p' body hsilent hbody => h p' body hsilent ?_
    exact ⟨hmember, Nat.le_of_not_lt hfew, Or.inr hbody⟩

/-! ## Membership -/

theorem invite_acts {kp : KeyPackage} (hadd : p.ipk ∈ p.members → Permits may p (· = .add kp.ipk))
    (hrotate : p.ipk ∈ p.members → ∀ p', Acts P may convicts p p' → Permits may p' Announces)
    (hcontribute : ∀ p', Acts P may convicts p p' → Permits may p' (Contributes P p' ∅)) :
    Moves (Acts P may convicts) (invite P kp) p := by
  refine moves_lift fun _ _ => moves_get ?_
  split
  · exact moves_throw _ _
  · rename_i hmember
    have hmember : p.ipk ∈ p.members := by
      simpa [← Std.ExtTreeSet.contains_iff_mem] using hmember
    refine moves_seq (moves_modify silent_fields.acts) fun _ p₁ h₁ hlearn => ?_
    cases hlearn
    refine moves_seq (publish_acts (hadd hmember _ _ silent_fields rfl)) fun add p₂ h₂ _ => ?_
    refine moves_seq (rotateWhen_acts fun _ => hrotate hmember p₂ (h₁.trans h₂))
      fun rotation p₃ h₃ _ => ?_
    refine moves_seq (silent_acts (welcomeFor_silent kp)) fun welcome p₄ h₄ _ => ?_
    refine moves_bind (contributeExcluding_acts (hcontribute p₄ ?_)) fun contribution p₅ _ => ?_
    · exact ((h₁.trans h₂).trans h₃).trans h₄
    · exact moves_bind (silent_acts noteVersion_silent) fun _ _ _ => moves_pure _ _

/-- Closing the channels of a peer. -/
theorem erase_silent (who : SigPublic) :
    Silent p { p with send := p.send.erase who, recv := p.recv.erase who } := by
  refine ⟨rfl, rfl, rfl, rfl, rfl, ⟨rfl, rfl, rfl, rfl, rfl⟩, ?_, id⟩
  intro hp author state hstate
  change (p.recv.erase who)[author]? = some state at hstate
  rw [Std.ExtTreeMap.getElem?_erase] at hstate
  split_ifs at hstate
  exact hp author state hstate

theorem remove_acts {who : SigPublic} (hremove : may p (.remove who))
    (hcontribute : ∀ p', Acts P may convicts p p' →
      Permits may p' (Contributes P p' (.ofList [who]))) :
    Moves (Acts P may convicts) (remove P who) p := by
  refine moves_seq (publish_acts hremove) fun op p₁ h₁ _ => ?_
  refine moves_bind (contributeExcluding_acts (hcontribute p₁ h₁)) fun contribution p₂ _ => ?_
  refine moves_bind (moves_modify (erase_silent who).acts) fun _ p₃ _ => ?_
  exact moves_bind (silent_acts noteVersion_silent) fun _ _ _ => moves_pure _ _

theorem leave_acts (h : may p (.remove p.ipk)) : Moves (Acts P may convicts) (leave P) p :=
  moves_get (moves_bind (publish_acts h) fun _ _ _ => moves_pure _ _)

/-- What a founder does after its own admission. -/
theorem found_acts
    (hannounce : Permits may (published P p (.add p.ipk)) Announces)
    (hcontribute : ∀ p', Acts P may convicts (published P p (.add p.ipk)) p' →
      Permits may p' (Contributes P p' ∅)) :
    Acts P may convicts (published P p (.add p.ipk)) (found P p).2 := by
  have hstate := publish_state (P := P) (p := p) (.add p.ipk)
  rw [found, bind_run, get_run]
  dsimp only
  rw [bind_run]
  rcases hrun : publish P (.add p.ipk) p with ⟨e | add, p₁⟩
  · rw [hrun] at hstate
    subst hstate
    exact ReflTransGen.refl
  rw [hrun] at hstate
  subst hstate
  refine moves_seq (publishPrekeys_acts hannounce) fun prekeys p₂ h₂ _ => ?_
  refine moves_bind (contributeExcluding_acts (hcontribute p₂ h₂)) fun contribution p₃ _ => ?_
  exact moves_bind (silent_acts noteVersion_silent) fun _ _ _ => moves_pure _ _

theorem repairRequest_acts (h : p.prekeys.isSealed → ¬(p.nodekeys.missing p.frontier).isEmpty →
    Permits may p Announces) : Moves (Acts P may convicts) (repairRequest P) p := by
  refine moves_get ?_
  dsimp only
  split
  · exact moves_pure _ _
  rename_i hmissing
  split
  · rename_i hsealed
    refine moves_bind (moves_attempt (rotatePrekeys_acts (h hsealed hmissing))) fun r p₁ _ => ?_
    split
    · exact moves_pure _ _
    · exact moves_pure _ _
  · exact moves_pure _ _

/-! ## Inbound contributions -/

theorem judge_acts {acc : Op} {who : SigPublic} (h : p.checkAccusation P acc → convicts p who) :
    Moves (Acts P may convicts) (judge P acc who) p := by
  refine moves_get ?_
  split
  · rename_i hcheck
    exact ReflTransGen.single (.convicted (h hcheck))
  · exact moves_pure _ _

/-- The accusation is signed before and stored after the verdict; the result is that of a conviction
followed by a publication. -/
theorem accuseAuthor_state {op : Op} {key : Secret} {seq : UInt64} {guilty : Roster}
    (hjudge : judge P (p.sign P (.accuse op.author (op.oid P) key seq)) op.author
      { p with signed := p.sign P (.accuse op.author (op.oid P) key seq) :: p.signed } =
        (.ok (), { p with
          signed := p.sign P (.accuse op.author (op.oid P) key seq) :: p.signed, guilty })) :
    (accuseAuthor P op key seq p).2 =
      published P { p with guilty } (.accuse op.author (op.oid P) key seq) := by
  unfold accuseAuthor
  rw [bind_run, signOp_run]
  dsimp only
  rw [bind_run, hjudge]
  exact bind_pure_state _ _ _

theorem Equivocates.sameParty {op : Op} (h : Equivocates P p op) (hsame : SameParty p p') :
    Equivocates P p' op := by
  unfold Equivocates
  rw [hsame.ipk, hsame.sid]
  exact h

theorem accuseAuthor_acts {op : Op} (key : Secret) (seq : UInt64)
    (hheld : p.dag.get (op.oid P) = some op) (hequivocates : Equivocates P p op)
    (h : Accuses P may convicts p op.author) :
    Moves (Acts P may convicts) (accuseAuthor P op key seq) p := by
  obtain ⟨guilty, hrun, hguilty⟩ := judge_run (P := P) (p := { p with signed := _ })
    (p.sign P (.accuse op.author (op.oid P) key seq)) op.author
  rw [Moves, accuseAuthor_state hrun]
  have hjudged : Acts P may convicts p { p with guilty } := by
    rcases hguilty with rfl | rfl
    · exact ReflTransGen.refl
    · exact ReflTransGen.single (.convicted (h p op ReflTransGen.refl hheld rfl hequivocates).1)
  refine hjudged.tail (.published ((h _ op hjudged hheld rfl ?_).2 _ _ _))
  exact hequivocates.sameParty hjudged.sameParty

theorem absorb_equivocation {op : Op} {x : Secret} {cid : Cid} {cparents : OidSet}
    {recips : List SigPublic} {slices : List Slice} {view : BitVec 256}
    (hbody : op.body = .contrib cid cparents recips slices view)
    (h : (absorb P op x p).1 = .error .equivocation) : commitment P x ≠ cid := by
  intro hcid
  unfold absorb at h
  simp only [hbody, bind_run, get_run] at h
  by_cases hold : p.absorbed.contains (op.oid P)
  · rw [if_pos hold] at h
    cases h
  rw [if_neg hold, if_neg (not_not.mpr hcid)] at h
  cases hparent : (if cparents.isEmpty then some 0 else p.nodekeys.combine cparents) with
  | none =>
      simp only [hparent] at h
      cases h
  | some parent =>
      simp only [hparent] at h
      cases h

/-- Only a slice that opens to another secret than the committed one leads to an accusation. -/
theorem openSlice_acts {op : Op} {cid : Cid} {cparents : OidSet} {recips : List SigPublic}
    {slices : List Slice} {view : BitVec 256} (key : Secret) (seq : UInt64)
    (hbody : op.body = .contrib cid cparents recips slices view)
    (hheld : p.dag.get (op.oid P) = some op) (h : Accuses P may convicts p op.author) :
    Moves (Acts P may convicts)
      (openSlice P op key seq (Participant.contribAd P cid view)) p := by
  unfold openSlice
  refine moves_get ?_
  simp only [hbody]
  cases hslice : slices.find? (fun s => s.recipient = p.ipk) with
  | none => exact moves_pure _ _
  | some slice =>
      dsimp only
      cases hopen : (aeadOpen P key (Participant.sliceNonce P p.sid cid p.ipk seq) slice.ct
          (Participant.contribAd P cid view)).bind (fromSlice 256) with
      | none => exact moves_bind silent_fields.acts fun _ _ _ => moves_pure _ _
      | some x =>
          refine moves_seq (silent_acts (moves_attempt (absorb_silent op x)))
            fun r p₁ habsorb hrun => ?_
          split
          · exact moves_pure _ _
          · exact moves_pure _ _
          · have hcid : commitment P x ≠ cid :=
              absorb_equivocation hbody (Except.ok.inj (congrArg Prod.fst hrun))
            have hequivocates : Equivocates P p op :=
              ⟨cid, cparents, recips, slices, view, slice, key, seq, x, hbody, hslice, hopen, hcid⟩
            refine moves_bind (accuseAuthor_acts _ _ (habsorb.keeps hheld) ?_ (h.acts habsorb))
              fun _ _ _ => moves_pure _ _
            exact hequivocates.sameParty habsorb.sameParty
          · exact moves_throw _ _

/-- What is taken from the buffer of a channel was in it. -/
theorem takeNext_buffered {author : SigPublic} {seq : UInt64} {payload : Bytes} {key : Secret}
    (hp : Buffered p) (h : withRecv author (fun chan => chan.takeNext P) p =
      (.ok (some (some (seq, payload, key))), p')) :
    ∃ op, p.dag.get (ofBytes 256 (payload.take 32)) = some op ∧ op.author = author := by
  unfold withRecv at h
  obtain ⟨_, _, hget, h⟩ := bind_ok h
  cases hget
  cases hstate : p.recv[author]? with
  | none =>
      simp only [hstate] at h
      cases h
  | some state =>
      simp only [hstate] at h
      obtain ⟨_, _, -, h⟩ := bind_ok h
      have htaken : (state.chan.takeNext P).1 = some (seq, payload, key) :=
        Option.some.inj (Except.ok.inj (congrArg Prod.fst h))
      unfold RecvChan.takeNext at htaken
      dsimp only at htaken
      split_ifs at htaken
      cases hbuffer : state.chan.buffer[state.chan.chan.next]? with
      | none => simp [hbuffer] at htaken
      | some found =>
          simp only [hbuffer, Option.some.injEq, Prod.mk.injEq] at htaken
          exact hp author state hstate _ payload (by rw [hbuffer, htaken.2.1])

theorem drainSlices_acts {author : SigPublic} (hsound : Sound P p.dag) (hp : Buffered p)
    (h : Accuses P may convicts p author) (fuel : ℕ) :
    Moves (Acts P may convicts) (drainSlices P author fuel) p := by
  induction fuel generalizing p with
  | zero => exact moves_pure _ _
  | succ fuel ih =>
      refine moves_seq (silent_acts (takeNext_silent author)) fun taken p₁ htake hrun => ?_
      split
      · rename_i seq payload key
        obtain ⟨op, hop, hauthor⟩ := takeNext_buffered hp hrun
        refine moves_get ?_
        split
        · rename_i buffered hget
          split
          · rename_i hbody
            obtain rfl : op = buffered := Option.some.inj ((htake.keeps hop).symm.trans hget)
            subst hauthor
            have hheld : p₁.dag.get (op.oid P) = some op := by
              rw [hsound.keyed hop]
              exact hget
            refine moves_seq (openSlice_acts _ _ hbody hheld (h.acts htake))
              fun authentic p₂ hopen _ => ?_
            split
            · refine moves_seq (silent_acts (commitRecv_silent _ _)) fun moved p₃ hcommit _ => ?_
              have hacts : Acts P may convicts p p₃ := (htake.trans hopen).trans hcommit
              split
              · exact ih (hacts.sound hsound) (hacts.buffered hp) (h.acts hacts)
              · exact moves_pure _ _
            · exact moves_pure _ _
          · exact silent_fields.acts
        · exact silent_fields.acts
      · exact moves_pure _ _

theorem offerSlice_acts {op : Op} {cid : Cid} {cparents : OidSet} {recips : List SigPublic}
    {slices : List Slice} {view : BitVec 256} (hsound : Sound P p.dag) (hp : Buffered p)
    (hbody : op.body = .contrib cid cparents recips slices view)
    (hheld : p.dag.get (op.oid P) = some op) (h : Accuses P may convicts p op.author)
    (slice : Slice) :
    Moves (Acts P may convicts) (offerSlice P op cid view slice) p := by
  refine moves_seq (silent_acts (offer_silent hheld slice)) fun offered p₁ hoffer _ => ?_
  split
  · refine moves_seq (openSlice_acts _ _ hbody (hoffer.keeps hheld) (h.acts hoffer))
      fun authentic p₂ hopen _ => ?_
    split
    · refine moves_seq (silent_acts (commitRecv_silent _ _)) fun moved p₃ hcommit _ => ?_
      have hacts : Acts P may convicts p p₃ := (hoffer.trans hopen).trans hcommit
      split
      · exact moves_throw _ _
      · exact moves_get
          (drainSlices_acts (hacts.sound hsound) (hacts.buffered hp) (h.acts hacts) _)
    · exact moves_pure _ _
  · exact moves_pure _ _

theorem openChannel_acts {op : Op} (gen : UInt32) (eph : DhPublic) (h : Permits may p Announces) :
    Moves (Acts P may convicts) (openChannel P op gen eph) p := by
  refine moves_get ?_
  dsimp only
  split
  · exact moves_pure _ _
  split
  · exact moves_bind silent_fields.acts fun _ _ _ => moves_pure _ _
  split
  · refine moves_bind silent_fields.acts fun _ p₁ hmark => ?_
    cases hmark
    exact moves_bind (rotatePrekeys_acts (h.silent silent_fields)) fun _ _ _ => moves_pure _ _
  · refine moves_bind (Silent.acts (recv_silent ?_ _)) fun _ _ _ => moves_pure _ _
    intro i payload hpayload
    simp [RecvChan.new] at hpayload

theorem announce_acts {op : Op} (announced : Option (UInt32 × DhPublic))
    (h : Permits may p Announces) : Moves (Acts P may convicts) (announce P op announced) p := by
  unfold announce
  split
  · exact openChannel_acts _ _ h
  · exact moves_pure _ _

theorem receiveContribution_acts {op : Op} (hsound : Sound P p.dag) (hp : Buffered p)
    (hheld : p.dag.get (op.oid P) = some op) (hrotate : Permits may p Announces)
    (h : Accuses P may convicts p op.author) :
    Moves (Acts P may convicts) (receiveContribution P op) p := by
  refine moves_get ?_
  split
  · rename_i hbody
    split
    · exact moves_pure _ _
    · refine moves_seq (announce_acts _ hrotate) fun opening p₁ hopening _ => ?_
      split
      · exact moves_pure _ _
      · exact moves_bind (offerSlice_acts (hopening.sound hsound) (hopening.buffered hp) hbody
          (hopening.keeps hheld) (h.acts hopening) _) fun _ _ _ => moves_pure _ _
  · exact moves_pure _ _

/-! ## Inbound operations -/

/-- The operation makes the participant sign something. -/
def Provokes (p : Participant) (op : Op) : Prop :=
  match op.body with
  | .contrib _ _ _ slices _ => ∃ s ∈ slices, s.recipient = p.ipk
  | .prekeyRequest targets => p.ipk ∈ targets
  | .add who => who ≠ p.ipk ∧ p.prekeys.isSealed
  | _ => False

theorem applyOp_acts {op : Op} (hsound : Sound P p.dag) (hp : Buffered p)
    (hheld : p.dag.get (op.oid P) = some op) (hrotate : Provokes p op → Permits may p Announces)
    (haccuse : op.body.kind = .contrib → Provokes p op → Accuses P may convicts p op.author)
    (hjudge : ∀ who coid key seq, op.body = .accuse who coid key seq →
      p.checkAccusation P op → convicts p who) :
    Moves (Acts P may convicts) (applyOp P op) p := by
  unfold applyOp
  refine moves_get ?_
  unfold Provokes at hrotate haccuse
  cases hbody : op.body with
  | prekeys gen pk =>
      exact moves_bind (silent_acts (learnPrekey_silent _ _ _)) fun _ _ _ => moves_pure _ _
  | contrib cid cparents recips slices view =>
      simp only [hbody] at hrotate haccuse
      by_cases hslice : ∃ s ∈ slices, s.recipient = p.ipk
      · exact receiveContribution_acts hsound hp hheld (hrotate hslice) (haccuse rfl hslice)
      · have hnone : slices.find? (fun s => s.recipient = p.ipk) = none := by
          rw [List.find?_eq_none]
          intro s hs heq
          exact hslice ⟨s, hs, by simpa using heq⟩
        dsimp only
        rw [receiveContribution]
        refine moves_get ?_
        simp only [hbody, hnone]
        exact moves_pure _ _
  | accuse who coid key seq =>
      exact moves_bind (judge_acts (hjudge who coid key seq hbody)) fun _ _ _ => moves_pure _ _
  | prekeyRequest targets =>
      simp only [hbody] at hrotate
      exact rotateWhen_acts fun hdue => hrotate (by simpa using hdue)
  | add who =>
      simp only [hbody] at hrotate
      exact rotateWhen_acts fun hdue => hrotate (by simpa using hdue)
  | remove who => exact moves_pure _ _


end Actions

end CausalFrontierRatchet.MemberActions
