import CausalFrontierRatchet.MemberSteps

/-!
Runs of a participant: it founds a conference or joins one with a welcome, and then calls public
operations and handles arbitrary bytes, in any order, whether they fail or not.
-/

namespace CausalFrontierRatchet.MemberRuns

open Relation BigEndian Crypto Operation OperationGraph CausalMembership KeySchedule Channel
open Messages Commands Member MemberSteps

inductive Call
  | publishPrekeys
  | rotatePrekeys
  | tick
  | contribute (exclude : Roster)
  | invite (kp : KeyPackage)
  | remove (who : SigPublic)
  | leave
  | handle (wire : Bytes)
  | repairRequest

section Runs

variable (P : Primitives) (src : Op → Prop) (rep : Oid → Secret → Prop)

/-- The participant after a call, also after one that failed. -/
def Call.run : Call → Participant → Participant
  | .publishPrekeys, p => (Member.publishPrekeys P p).2
  | .rotatePrekeys, p => (Member.rotatePrekeys P p).2
  | .tick, p => (Member.tick p).2
  | .contribute exclude, p => (contributeExcluding P exclude p).2
  | .invite kp, p => (Member.invite P kp p).2
  | .remove who, p => (Member.remove P who p).2
  | .leave, p => (Member.leave P p).2
  | .handle wire, p => (Member.handle P wire p).2
  | .repairRequest, p => (Member.repairRequest P p).2

/-- What a call returns for sending, nothing if it fails. -/
def emitted (p : Participant) : Call → List Outbound
  | .publishPrekeys => ((Member.publishPrekeys P p).1.toOption.map fun o => [o]).getD []
  | .rotatePrekeys => ((Member.rotatePrekeys P p).1.toOption.map fun o => [o]).getD []
  | .tick => []
  | .contribute exclude => (contributeExcluding P exclude p).1.toOption.getD []
  | .invite kp => (Member.invite P kp p).1.toOption.getD []
  | .remove who => (Member.remove P who p).1.toOption.getD []
  | .leave => ((Member.leave P p).1.toOption.map fun o => [o]).getD []
  | .handle wire => ((Member.handle P wire p).1.toOption.map Prod.snd).getD []
  | .repairRequest => ((Member.repairRequest P p).1.toOption.map fun r => r.getD []).getD []

/-- What a call brings in stays within the given operations and node keys. -/
def Call.Brings (p : Participant) : Call → Prop
  | .handle wire => ∀ m, Message.fromWire P wire = .ok m →
      (∀ op ∈ carried m, src op) ∧ ∀ oid key, Repairs P p m oid key → rep oid key
  | _ => True

/-- What a newcomer reads from a welcome. -/
structure Welcome (j : PendingJoin) (wire : Bytes) where
  sid : SessionId
  sender : SigPublic
  sealed : Envelope
  history : List Op
  pruned : List Oid
  plain : Bytes
  seed0 : Secret
  entries : List (Oid × Secret)
  parsed : Message.fromWire P wire = .ok (.welcome sid sender sealed history pruned)
  opened : openEnvelope P j.prekeys "cfr/welcome/ad" "welcome" sid sender
    (P.ed25519Public j.identity) sealed = .ok plain
  payload : parseWelcomePayload plain = .ok (seed0, entries)

/-- The participant a newcomer starts as. -/
def Welcome.start {j : PendingJoin} {wire : Bytes} (w : Welcome P j wire) : Participant :=
  blank P j.identity w.sid j.policy w.seed0 j.prekeys j.entropy

/-- A founder, or a newcomer that has accepted a welcome. -/
inductive Start : Participant → Prop
  | created {policy : Policy} {entropy : List Secret} {out : List Outbound} {p : Participant}
      (h : create P policy entropy = .ok (out, p)) : Start p
  | joined {policy : Policy} {entropy : List Secret} {j : PendingJoin} {wire : Bytes}
      {out : List Outbound} {p : Participant} (hnew : PendingJoin.new P policy entropy = .ok j)
      (h : j.accept P wire = .ok (out, p))
      (hsrc : ∀ w : Welcome P j wire, ∀ op ∈ w.history, src op)
      (hrep : ∀ w : Welcome P j wire, ∀ entry ∈ w.entries, rep entry.1 entry.2) : Start p

inductive Run (p₀ : Participant) : Participant → Prop
  | start : Run p₀ p₀
  | call {p : Participant} (c : Call) (h : Run p₀ p) (hbrings : c.Brings P src rep p) :
      Run p₀ (c.run P p)

def Reach (p : Participant) : Prop :=
  ∃ p₀, Start P src rep p₀ ∧ Run P src rep p₀ p

/-- Reachable by any calls and any bytes. -/
def Reachable : Participant → Prop :=
  Reach P (fun _ => True) (fun _ _ => True)

variable {P src rep}

theorem run_steps {p : Participant} (hp : Tidy P src p) (c : Call) (hbrings : c.Brings P src rep p) :
    Steps P src rep p (c.run P p) := by
  cases c with
  | publishPrekeys => exact publishPrekeys_moves
  | rotatePrekeys => exact rotatePrekeys_moves
  | tick => exact (Update.channels _ _ _ _).steps
  | contribute exclude => exact contributeExcluding_moves exclude
  | invite kp => exact invite_moves kp
  | remove who => exact remove_moves who
  | leave => exact leave_moves
  | handle wire =>
      exact handle_moves hp wire (fun m hm => (hbrings m hm).1) fun m hm => (hbrings m hm).2
  | repairRequest => exact repairRequest_moves

/-- The node keys of a welcome are taken over while nothing is missing yet. -/
theorem takeOver_steps {p : Participant} (hmissing : p.missing = ∅) {entries : List (Oid × Secret)}
    (hrep : ∀ entry ∈ entries, rep entry.1 entry.2) :
    Steps P src rep p (entries.foldl takeOver p) := by
  induction entries generalizing p with
  | nil => exact ReflTransGen.refl
  | cons entry entries ih =>
      have hfirst : Update P src rep p (takeOver p entry) := by
        have herase : p.missing.erase entry.1 = p.missing := by
          rw [hmissing]
          exact Std.ExtTreeSet.erase_empty
        have hlearn : Update P src rep p _ := .repaired (hrep entry List.mem_cons_self)
        rwa [herase] at hlearn
      exact ReflTransGen.head hfirst (ih hmissing fun e he => hrep e (List.mem_cons_of_mem _ he))

theorem foldl_takeOver (entries : List (Oid × Secret)) (p : Participant) :
    ∃ nodekeys absorbed, entries.foldl takeOver p = { p with nodekeys, absorbed } := by
  induction entries generalizing p with
  | nil => exact ⟨_, _, rfl⟩
  | cons entry entries ih =>
      obtain ⟨nodekeys, absorbed, hfold⟩ := ih (takeOver p entry)
      exact ⟨nodekeys, absorbed, hfold⟩

section Blank

variable (identity : Secret) (sid : SessionId) (policy : Policy) (seed0 : Secret)
  (prekeys : PrekeyPool) (entropy : List Secret)

theorem blank_tidy : Tidy P src (blank P identity sid policy seed0 prekeys entropy) where
  sound := sound_new
  parked := rfl
  pending := by simp [blank]

theorem joinWith_moves {entries : List (Oid × Secret)} {history : List Op}
    (hsrc : ∀ op ∈ history, src op) (hrep : ∀ entry ∈ entries, rep entry.1 entry.2) :
    Moves (Steps P src rep) (joinWith P entries history)
      (blank P identity sid policy seed0 prekeys entropy) := by
  refine moves_seq (takeOver_steps rfl hrep) fun _ p₁ htake _ => ?_
  refine moves_bind (ingestHistory_moves (htake.tidy (blank_tidy ..)) hsrc) fun _ p₂ _ => ?_
  refine moves_get ?_
  split
  · exact moves_throw _ _
  · refine moves_bind publishPrekeys_moves fun _ _ _ => ?_
    exact moves_bind noteVersion_moves fun _ _ _ => moves_pure _ _

end Blank

/-- A newcomer: the history is taken in, and the prekey announced by a member. -/
theorem joinWith_history {entries : List (Oid × Secret)} {history : List Op} {out : List Outbound}
    {p p' : Participant} (h : joinWith P entries history p = (.ok out, p')) :
    ∃ p₁, ingestHistory P history (entries.foldl takeOver p) = (.ok (), p₁) ∧
      p₁.ipk ∈ p₁.members ∧ ∃ o p₂, publishPrekeys P p₁ = (.ok o, p₂) ∧
        noteVersion P p₂ = (.ok (), p') ∧ out = [o] := by
  obtain ⟨_, _, htake, h⟩ := bind_ok h
  cases htake
  obtain ⟨_, p₁, hhistory, h⟩ := bind_ok h
  obtain ⟨_, _, hget, h⟩ := bind_ok h
  cases hget
  split at h
  · cases h
  · rename_i hmember
    obtain ⟨o, p₂, hpublish, h⟩ := bind_ok h
    obtain ⟨_, p₃, hnote, h⟩ := bind_ok h
    cases h
    refine ⟨p₁, hhistory, ?_, o, p₂, hpublish, hnote, rfl⟩
    simpa [← Std.ExtTreeSet.contains_iff_mem] using hmember

/-- What a newcomer does with a welcome it accepts. -/
theorem joinWith_ok {p p' : Participant} {entries : List (Oid × Secret)} {history : List Op}
    {out : List Outbound} (h : joinWith P entries history p = (.ok out, p')) :
    ∃ p₁, ingestHistory P history (entries.foldl takeOver p) = (.ok (), p₁) ∧
      p₁.ipk ∈ p₁.members ∧ Steps P src rep p₁ p' := by
  obtain ⟨p₁, hhistory, hmember, o, p₂, hpublish, hnote, -⟩ := joinWith_history h
  exact ⟨p₁, hhistory, hmember, (publishPrekeys_moves.run hpublish).trans (noteVersion_moves.run hnote)⟩

theorem create_ok {policy : Policy} {entropy : List Secret} {out : List Outbound} {p : Participant}
    (h : create P policy entropy = .ok (out, p)) :
    ∃ identity sid seed0 prekey rest, entropy = identity :: sid :: seed0 :: prekey :: rest ∧
      found P (blank P identity sid policy seed0 (.at_ P 0 prekey) rest) = (.ok out, p) := by
  unfold create at h
  split at h
  · rename_i identity sid seed0 prekey rest
    refine ⟨identity, sid, seed0, prekey, rest, rfl, ?_⟩
    split at h
    · rename_i hfound
      cases h
      exact hfound
    · cases h
  · cases h

theorem accept_ok {j : PendingJoin} {wire : Bytes} {out : List Outbound} {p : Participant}
    (h : j.accept P wire = .ok (out, p)) :
    ∃ w : Welcome P j wire, joinWith P w.entries w.history w.start = (.ok out, p) := by
  unfold PendingJoin.accept at h
  cases hparsed : Message.fromWire P wire with
  | error e => simp [hparsed, bind, Except.bind] at h
  | ok m =>
      simp only [hparsed, bind, Except.bind] at h
      split at h
      · rename_i sid sender sealed history pruned
        cases hopened : openEnvelope P j.prekeys "cfr/welcome/ad" "welcome" sid sender
            (P.ed25519Public j.identity) sealed with
        | error e => simp [hopened] at h
        | ok plain =>
            simp only [hopened] at h
            cases hpayload : parseWelcomePayload plain with
            | error e => simp [hpayload] at h
            | ok payload =>
                obtain ⟨seed0, entries⟩ := payload
                simp only [hpayload] at h
                refine ⟨⟨sid, sender, sealed, history, pruned, plain, seed0, entries, hparsed,
                  hopened, hpayload⟩, ?_⟩
                split at h
                · rename_i hjoin
                  cases h
                  exact hjoin
                · cases h
      · cases h

variable (P) in
/-- The founder of a conference, for entropy that suffices. -/
def founded (policy : Policy) (entropy : List Secret) : Participant :=
  match create P policy entropy with
  | .ok (_, p) => p
  | .error _ => blank P 0 0 policy 0 (.at_ P 0 0) []

theorem Reachable.next {p : Participant} (h : Reachable P p) (c : Call) :
    Reachable P (c.run P p) := by
  obtain ⟨p₀, hstart, hrun⟩ := h
  refine ⟨p₀, hstart, hrun.call c ?_⟩
  cases c with
  | handle wire => exact fun _ _ => ⟨fun _ _ => trivial, fun _ _ _ => trivial⟩
  | _ => trivial

theorem create_founded {policy : Policy} {entropy : List Secret}
    (h : (create P policy entropy).isOk) :
    ∃ out, create P policy entropy = .ok (out, founded P policy entropy) := by
  unfold founded
  cases hcreate : create P policy entropy with
  | error e =>
      rw [hcreate] at h
      cases h
  | ok result => exact ⟨result.1, rfl⟩

theorem start_founded {policy : Policy} {entropy : List Secret}
    (h : (create P policy entropy).isOk) : Start P src rep (founded P policy entropy) := by
  obtain ⟨out, hcreate⟩ := create_founded h
  exact .created hcreate

variable (P) in
/-- The newcomer that has accepted a welcome, for a welcome that it accepts. -/
def welcomed (j : PendingJoin) (wire : Bytes) : Participant :=
  match j.accept P wire with
  | .ok (_, p) => p
  | .error _ => blank P j.identity 0 j.policy 0 j.prekeys []

theorem Start.steps {p : Participant} (h : Start P src rep p) :
    ∃ identity sid policy seed0 prekeys entropy,
      Steps P src rep (blank P identity sid policy seed0 prekeys entropy) p := by
  cases h with
  | @created policy entropy out p h =>
      obtain ⟨identity, sid, seed0, prekey, rest, -, hfound⟩ := create_ok h
      obtain ⟨add, p₁, hpublish, hsteps⟩ := found_ok hfound
      exact ⟨identity, sid, policy, seed0, .at_ P 0 prekey, rest,
        ((publish_moves _).run hpublish).trans hsteps⟩
  | @joined policy entropy j wire out p hnew h hsrc hrep =>
      obtain ⟨w, hjoin⟩ := accept_ok h
      exact ⟨j.identity, w.sid, j.policy, w.seed0, j.prekeys, j.entropy,
        (joinWith_moves _ _ _ _ _ _ (hsrc w) (hrep w)).run hjoin⟩

theorem Start.tidy {p : Participant} (h : Start P src rep p) : Tidy P src p := by
  obtain ⟨identity, sid, policy, seed0, prekeys, entropy, hsteps⟩ := h.steps
  exact hsteps.tidy (blank_tidy ..)

theorem Run.steps {p₀ p : Participant} (h : Run P src rep p₀ p) (hp₀ : Tidy P src p₀) :
    Steps P src rep p₀ p := by
  induction h with
  | start => exact Relation.ReflTransGen.refl
  | call c _ hbrings ih => exact ih.trans (run_steps (ih.tidy hp₀) c hbrings)

/-- Every participant of a run is reached from a blank one by elementary updates. -/
theorem Reach.steps {p : Participant} (h : Reach P src rep p) :
    ∃ identity sid policy seed0 prekeys entropy,
      Steps P src rep (blank P identity sid policy seed0 prekeys entropy) p := by
  obtain ⟨p₀, hstart, hrun⟩ := h
  obtain ⟨identity, sid, policy, seed0, prekeys, entropy, hsteps⟩ := hstart.steps
  exact ⟨identity, sid, policy, seed0, prekeys, entropy, hsteps.trans (hrun.steps hstart.tidy)⟩

/-- An invariant of a run holds of a blank participant and is kept by every update. -/
theorem Reach.invariant {Inv : Participant → Prop} {p : Participant} (h : Reach P src rep p)
    (hblank : ∀ identity sid policy seed0 prekeys entropy,
      Inv (blank P identity sid policy seed0 prekeys entropy))
    (hstep : ∀ q q', Update P src rep q q' → Inv q → Inv q') : Inv p := by
  obtain ⟨identity, sid, policy, seed0, prekeys, entropy, hsteps⟩ := h.steps
  clear h
  induction hsteps with
  | refl => exact hblank ..
  | tail _ hupdate ih => exact hstep _ _ hupdate ih

/-! ## What holds in every run -/

variable (P) in
/-- Every dependency of a stored operation is stored and recorded, every signed operation carries
this participant's key, and the absorbed operations include all whose key is held. -/
structure Wellformed (p : Participant) : Prop where
  sound : Sound P p.dag
  complete : Complete p.dag
  parked : p.openAccusations = []
  key : p.ipk = P.ed25519Public p.identity
  signed : ∀ op ∈ p.signed, ∃ deps body, op = Op.create P p.identity p.sid deps body
  absorbed : ∀ oid, p.nodekeys.contains oid → oid ∈ p.absorbed

theorem depsAvailable_iff {p : Participant} {op : Op} :
    p.depsAvailable op ↔ ∀ a ∈ op.deps, p.dag.contains a := by
  simp [Participant.depsAvailable]

theorem Wellformed.update {p p' : Participant} (hp : Wellformed P p) (h : Update P src rep p p') :
    Wellformed P p' := by
  have hinserted : ∀ {oid key o}, (p.nodekeys.insert oid key).contains o →
      o ∈ p.absorbed.insert oid := by
    intro oid key o ho
    obtain ⟨k, hk⟩ := NodeKeys.contains_iff_peek.mp ho
    have hpeek := NodeKeys.peek_insert hk
    rw [Std.ExtTreeSet.mem_insert]
    split at hpeek
    · rename_i heq
      exact Or.inl (by simpa using heq)
    · exact Or.inr (hp.absorbed o (NodeKeys.contains_iff_peek.mpr ⟨k, hpeek⟩))
  cases h with
  | own hsigned hdeps hadd =>
      refine { hp with sound := hp.sound.added hadd, complete := hp.complete.added hadd ?_ }
      intro a ha
      rw [hdeps] at ha
      exact (mem_heads.mp ha).1
  | stored _ _ _ hdeps _ hadd =>
      exact { hp with
        sound := hp.sound.added hadd
        complete := hp.complete.added hadd (depsAvailable_iff.mp hdeps) }
  | signed body =>
      refine { hp with signed := fun op hop => ?_ }
      rcases List.mem_cons.mp hop with rfl | hold
      · exact ⟨_, body, rfl⟩
      · exact hp.signed op hold
  | absorbed _ _ _ _ _ => exact { hp with absorbed := fun o ho => hinserted ho }
  | repaired _ => exact { hp with absorbed := fun o ho => hinserted ho }
  | _ => exact { hp with }

theorem Wellformed.steps {p p' : Participant} (hp : Wellformed P p) (h : Steps P src rep p p') :
    Wellformed P p' := by
  induction h with
  | refl => exact hp
  | tail _ hupdate ih => exact ih.update hupdate

theorem blank_wellformed (identity : Secret) (sid : SessionId) (policy : Policy) (seed0 : Secret)
    (prekeys : PrekeyPool) (entropy : List Secret) :
    Wellformed P (blank P identity sid policy seed0 prekeys entropy) where
  sound := sound_new
  complete := complete_new
  parked := rfl
  key := rfl
  signed := by simp [blank]
  absorbed := by simp [blank, NodeKeys.default, NodeKeys.withCapacity, NodeKeys.contains]

theorem Reach.wellformed {p : Participant} (h : Reach P src rep p) : Wellformed P p :=
  h.invariant (fun _ _ _ _ _ _ => blank_wellformed ..) fun _ _ hupdate hp => hp.update hupdate

end Runs

end CausalFrontierRatchet.MemberRuns
