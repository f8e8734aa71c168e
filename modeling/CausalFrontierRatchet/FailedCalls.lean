import CausalFrontierRatchet.MessageCodec
import CausalFrontierRatchet.SliceSealing
import CausalFrontierRatchet.WelcomeDisclosure

/-!
What a failed call leaves behind.  A call writes as it goes and nothing is rolled back, so a failed
call leaves the participant as it was exactly when it fails before its first write: before the first
channel is stepped, before the announced eviction or admission is stored, before the received
operation is stored.
-/

namespace CausalFrontierRatchet.FailedCalls

open Relation BigEndian Crypto Tlv Operation OperationGraph KeySchedule
open Messages Commands Member MemberSteps MemberRuns Authorisation Ingest MemberActions SliceSealing

/-- The graph, the guilty, the channels, the node keys and the prekeys are the same. -/
structure Unchanged (p p' : Participant) : Prop where
  dag : p'.dag = p.dag
  guilty : p'.guilty = p.guilty
  send : p'.send = p.send
  recv : p'.recv = p.recv
  nodekeys : p'.nodekeys = p.nodekeys
  prekeys : p'.prekeys = p.prekeys
  peerPrekeys : p'.peerPrekeys = p.peerPrekeys

theorem Unchanged.refl (p : Participant) : Unchanged p p :=
  ⟨rfl, rfl, rfl, rfl, rfl, rfl, rfl⟩

instance : Std.Refl Unchanged :=
  ⟨Unchanged.refl⟩

instance : IsTrans Participant Unchanged where
  trans _ _ _ h h' :=
    ⟨h'.dag.trans h.dag, h'.guilty.trans h.guilty, h'.send.trans h.send, h'.recv.trans h.recv,
      h'.nodekeys.trans h.nodekeys, h'.prekeys.trans h.prekeys, h'.peerPrekeys.trans h.peerPrekeys⟩

section Failures

variable {P : Primitives} {p p' : Participant} {e : Error}

/-! ## Contributions -/

variable (P) in
/-- No slice can be sealed: there is no recipient, or the first one stops the sealing. -/
def StuckAtFirst (p : Participant) : List SigPublic → Prop
  | [] => True
  | v :: _ => ¬Sealable P p v

variable (P) in
/-- A contribution cannot get as far as stepping a channel. -/
def StopsUnsealed (p : Participant) (exclude : Roster) : Prop :=
  p.ipk ∉ p.members ∨ MAX_RECIPIENTS < (recipients p exclude).length ∨
    (∃ v ∈ recipients p exclude, v ∉ p.send ∧ v ∉ p.peerPrekeys) ∨
    (¬(p.chainableParents p.members).isEmpty ∧
      p.nodekeys.combine (p.chainableParents p.members) = none) ∨
    p.entropy = [] ∨ StuckAtFirst P { p with entropy := p.entropy.tail } (recipients p exclude)

theorem published_full (hfull : MAX_OPS ≤ p.dag.ops.size) (body : Body) :
    Unchanged p (published P p body) := by
  have hadd : (p.dag.add P (p.sign P body)).2 = p.dag := by
    rw [Dag.add, if_pos hfull]
  exact ⟨hadd, rfl, rfl, rfl, rfl, rfl, rfl⟩

theorem publish_failed {body : Body} (h : publish P body p = (.error e, p')) : Unchanged p p' := by
  have hstate := publish_state (P := P) (p := p) body
  rw [h] at hstate
  subst hstate
  exact published_full (publish_error h) body

/-- A contribution that was stored is absorbed. -/
theorem absorb_own {op : Op} {x : Secret} {cparents : OidSet} {recips : List SigPublic}
    {slices : List Slice} {view : BitVec 256}
    (hbody : op.body = .contrib (commitment P x) cparents recips slices view)
    (hkeys : cparents.isEmpty ∨ (p.nodekeys.combine cparents).isSome) :
    ∃ p', absorb P op x p = (.ok (), p') := by
  unfold absorb
  rw [hbody]
  dsimp only
  rw [bind_run, get_run]
  dsimp only
  split_ifs with hold hcommitment hempty
  · exact ⟨p, rfl⟩
  · exact absurd rfl hcommitment
  · exact ⟨_, rfl⟩
  · obtain ⟨parent, hparent⟩ := Option.isSome_iff_exists.mp (hkeys.resolve_left hempty)
    rw [hparent]
    exact ⟨_, rfl⟩

/-- A failed contribution stops at a missing key, without entropy, in the sealing of its slices, or
at a full graph. -/
theorem contributeTo_error {recips : List SigPublic}
    (h : contributeTo P p.members recips p = (.error e, p')) :
    ((¬(p.chainableParents p.members).isEmpty ∧
        p.nodekeys.combine (p.chainableParents p.members) = none) ∧ p' = p) ∨
    (p.entropy = [] ∧ p' = p) ∨
    (((p.chainableParents p.members).isEmpty ∨
        (p.nodekeys.combine (p.chainableParents p.members)).isSome) ∧ p.entropy ≠ [] ∧
      ∃ cid ad x r p₂, sealSlices P cid ad x recips { p with entropy := p.entropy.tail } = (r, p₂) ∧
        Unchanged p₂ p' ∧ ((∃ e, r = .error e) ∨ MAX_OPS ≤ p.dag.ops.size)) := by
  unfold contributeTo at h
  rw [bind_run, get_run] at h
  dsimp only at h
  split_ifs at h with hmissing
  · cases h
    rw [Bool.and_eq_true, Bool.not_eq_true', Option.isNone_iff_eq_none] at hmissing
    exact Or.inl ⟨⟨Bool.eq_false_iff.mp hmissing.1, hmissing.2⟩, rfl⟩
  · have hkeys : (p.chainableParents p.members).isEmpty ∨
        (p.nodekeys.combine (p.chainableParents p.members)).isSome := by
      simpa [imp_iff_not_or, Option.isSome_iff_ne_none] using hmissing
    refine Or.inr ?_
    rcases bind_error h with hdraw | ⟨x, p₁, hdraw, h⟩
    · obtain ⟨rfl, hempty⟩ := draw_error hdraw
      exact Or.inl ⟨hempty, rfl⟩
    obtain ⟨rest, hentropy, hp₁⟩ := draw_ok hdraw
    have hstart : p₁ = { p with entropy := p.entropy.tail } := by
      rw [hentropy]
      exact hp₁
    have hsome : p.entropy ≠ [] := by
      rw [hentropy]
      exact List.cons_ne_nil _ _
    subst hstart
    refine Or.inr ⟨hkeys, hsome, ?_⟩
    rcases bind_error h with hseal | ⟨slices, p₂, hseal, h⟩
    · exact ⟨_, _, x, _, p', hseal, Unchanged.refl p', Or.inl ⟨e, rfl⟩⟩
    refine ⟨_, _, x, _, p₂, hseal, ?_⟩
    have hframe := (sealSlices_frame hseal).1
    rcases bind_error h with hpublish | ⟨op, p₃, hpublish, h⟩
    · have hfull := publish_error hpublish
      rw [hframe] at hfull
      exact ⟨publish_failed hpublish, Or.inr hfull⟩
    · obtain ⟨hop, dag, hp₃, -⟩ := publish_ok hpublish
      have hbody : op.body = .contrib (commitment P x) (p.chainableParents p.members) recips slices
          (p.root P) := by
        rw [hop]
        rfl
      have hnodekeys : p₃.nodekeys = p.nodekeys := by
        rw [hp₃, hframe]
      rw [← hnodekeys] at hkeys
      obtain ⟨p₄, hdone⟩ := absorb_own hbody hkeys
      rcases bind_error h with habsorb | ⟨_, _, -, h⟩
      · rw [habsorb] at hdone
        cases hdone
      · cases h

theorem recipients_nodup (p : Participant) (exclude : Roster) : (recipients p exclude).Nodup :=
  (nodup_toList p.members).filter _

/-- Sealing, and what comes after it, leave everything as it was exactly when the first recipient
cannot be sealed to or there is none. -/
theorem sealing_unchanged {recips : List SigPublic} (hnodup : recips.Nodup) {cid : Cid} {ad : Bytes}
    {x : Secret} {entropy : List Secret} {r : Except Error (List Slice)} {p₂ : Participant}
    (hseal : sealSlices P cid ad x recips { p with entropy } = (r, p₂)) (hend : Unchanged p₂ p') :
    Unchanged p p' ↔ StuckAtFirst P { p with entropy } recips := by
  have htrans : ∀ {entropy'}, p₂ = { p with entropy := entropy' } → Unchanged p p' := by
    rintro entropy' rfl
    exact ⟨hend.dag, hend.guilty, hend.send, hend.recv, hend.nodekeys, hend.prekeys,
      hend.peerPrekeys⟩
  cases recips with
  | nil =>
      cases hseal
      exact iff_of_true (htrans rfl) trivial
  | cons v recips =>
      rw [StuckAtFirst]
      by_cases hsealable : Sealable P { p with entropy } v
      · have hne := sealSlices_send_ne (List.nodup_cons.mp hnodup).1 hsealable hseal
        refine iff_of_false (fun hsame => hne ?_) (not_not.mpr hsealable)
        rw [← hend.send, hsame.send]
      · obtain ⟨entropy', hstuck⟩ := sealSlices_stuck hsealable hseal
        exact iff_of_true (htrans hstuck) hsealable

/-- A failed contribution leaves everything as it was exactly when it stops before a channel is
stepped. -/
theorem contribute_failed {exclude : Roster}
    (h : contributeExcluding P exclude p = (.error e, p')) :
    Unchanged p p' ↔ StopsUnsealed P p exclude := by
  unfold contributeExcluding at h
  rw [bind_run, get_run] at h
  dsimp only at h
  split_ifs at h with hmember hfew hreachable
  · cases h
    have habsent : p.ipk ∉ p.members := by
      simpa [← Std.ExtTreeSet.contains_iff_mem] using hmember
    exact iff_of_true (Unchanged.refl p) (Or.inl habsent)
  · cases h
    exact iff_of_true (Unchanged.refl p) (Or.inr (Or.inl hfew))
  · refine iff_of_true ?_ (Or.inr (Or.inr (Or.inl ?_)))
    · rcases bind_error h with hpublish | ⟨op, p₁, -, h⟩
      · exact publish_failed hpublish
      · cases h
    · rw [Bool.not_eq_true', List.isEmpty_eq_false_iff_exists_mem] at hreachable
      obtain ⟨v, hv⟩ := hreachable
      obtain ⟨hrecipient, hneither⟩ := List.mem_filter.mp hv
      rw [Bool.and_eq_true, Bool.not_eq_true', Bool.not_eq_true', Bool.eq_false_iff,
        Bool.eq_false_iff] at hneither
      exact ⟨v, hrecipient, hneither⟩
  · rcases contributeTo_error h with ⟨hmissing, rfl⟩ | ⟨hempty, rfl⟩ |
      ⟨hkeys, hentropy, cid, ad, x, r, p₂, hseal, hend, -⟩
    · exact iff_of_true (Unchanged.refl p') (Or.inr (Or.inr (Or.inr (Or.inl hmissing))))
    · exact iff_of_true (Unchanged.refl p') (Or.inr (Or.inr (Or.inr (Or.inr (Or.inl hempty)))))
    · refine (sealing_unchanged (recipients_nodup p exclude) hseal hend).trans ⟨fun hstuck => ?_, ?_⟩
      · exact Or.inr (Or.inr (Or.inr (Or.inr (Or.inr hstuck))))
      · rintro (habsent | hmany | ⟨v, hv, hnone⟩ | ⟨hchained, hmissing⟩ | hempty | hstuck)
        · rw [← Std.ExtTreeSet.contains_iff_mem, Bool.not_eq_true] at habsent
          exact absurd (by rw [habsent]; rfl) hmember
        · exact absurd hmany hfew
        · refine absurd ?_ hreachable
          rw [Bool.not_eq_true', List.isEmpty_eq_false_iff_exists_mem]
          refine ⟨v, List.mem_filter.mpr ⟨hv, ?_⟩⟩
          rw [Bool.and_eq_true, Bool.not_eq_true', Bool.not_eq_true', Bool.eq_false_iff,
            Bool.eq_false_iff]
          exact hnone
        · rw [hmissing] at hkeys
          exact absurd hkeys (by simpa using hchained)
        · exact absurd hempty hentropy
        · exact hstuck

/-! ## Membership -/

/-- An operation of the participant that is in the graph stays there. -/
theorem published_changed {body : Body} (hroom : ¬MAX_OPS ≤ p.dag.ops.size)
    (hfresh : ¬p.dag.contains ((p.sign P body).oid P))
    (hsteps : Steps P (fun _ => True) (fun _ _ => True) (published P p body) p') :
    p'.dag ≠ p.dag := by
  have hstored : (published P p body).dag.get ((p.sign P body).oid P) = some (p.sign P body) := by
    rcases add_cases (P := P) p.dag (p.sign P body) with ⟨e, he⟩ | ⟨hold, -⟩ | ⟨dag, hadd, hnew⟩
    · exact absurd (add_full (congrArg Prod.fst he)) hroom
    · exact absurd hold hfresh
    · rw [published, hnew, hadd.get, if_pos rfl]
  intro hsame
  have hkept := hsteps.keeps hstored
  rw [hsame] at hkept
  exact hfresh (contains_iff.mpr ⟨_, hkept⟩)

/-- What comes after a publication that went through. -/
theorem after_publish {α : Type} {body : Body} {f : Op → Act α} {r : Except Error α}
    (hroom : ¬MAX_OPS ≤ p.dag.ops.size) (h : (publish P body >>= f) p = (r, p')) :
    f (p.sign P body) (published P p body) = (r, p') := by
  rw [bind_run, publish_room (Nat.not_le.mp hroom)] at h
  exact h

theorem before_publish {α : Type} {body : Body} {f : Op → Act α} {r : Except Error α}
    (hfull : MAX_OPS ≤ p.dag.ops.size) (h : (publish P body >>= f) p = (r, p')) :
    Unchanged p p' := by
  obtain ⟨e, hrun⟩ := publish_full (P := P) hfull body
  rw [bind_run, hrun] at h
  cases h
  exact published_full hfull body

theorem remove_failed {who : SigPublic} (hfresh : ¬p.dag.contains ((p.sign P (.remove who)).oid P))
    (h : remove P who p = (.error e, p')) : Unchanged p p' ↔ MAX_OPS ≤ p.dag.ops.size := by
  by_cases hfull : MAX_OPS ≤ p.dag.ops.size
  · exact iff_of_true (before_publish hfull h) hfull
  · refine iff_of_false (fun hsame => ?_) hfull
    have hrest := after_publish hfull h
    refine published_changed hfull hfresh (Moves.run ?_ hrest) hsame.dag
    refine moves_bind (contributeExcluding_moves _) fun contribution p₂ _ => ?_
    refine moves_bind (moves_modify (Update.channels _ _ _ _).steps) fun _ p₃ _ => ?_
    exact moves_bind noteVersion_moves fun _ _ _ => moves_pure _ _

theorem insert_eq_self {m : Std.ExtTreeMap SigPublic (UInt32 × DhPublic)} {who : SigPublic}
    {prekey : UInt32 × DhPublic} : m.insert who prekey = m ↔ m[who]? = some prekey := by
  constructor
  · intro heq
    rw [← heq, Std.ExtTreeMap.getElem?_insert_self]
  · intro hknown
    apply Std.ExtTreeMap.ext_getElem?
    intro u
    rw [Std.ExtTreeMap.getElem?_insert]
    split_ifs with hu
    · rw [← Std.LawfulEqCmp.eq_of_compare hu, hknown]
    · rfl

variable (P) in
/-- An invitation cannot get as far as storing the admission, and knows the prekey already if it
gets as far as noting it. -/
def StopsUninvited (p : Participant) (kp : KeyPackage) : Prop :=
  kp.verify P ≠ .ok () ∨ p.ipk ∉ p.members ∨
    (MAX_OPS ≤ p.dag.ops.size ∧ p.peerPrekeys[kp.ipk]? = some (kp.gen, kp.prekey))

theorem invite_failed {kp : KeyPackage} (hfresh : ¬p.dag.contains ((p.sign P (.add kp.ipk)).oid P))
    (h : invite P kp p = (.error e, p')) : Unchanged p p' ↔ StopsUninvited P p kp := by
  unfold invite at h
  rcases bind_error h with hverify | ⟨_, p₁, hverify, h⟩
  · rw [lift_run] at hverify
    obtain ⟨hbad, rfl⟩ := Prod.mk.inj hverify
    refine iff_of_true (Unchanged.refl p) (Or.inl ?_)
    rw [hbad]
    exact fun heq => by cases heq
  rw [lift_run] at hverify
  obtain ⟨hvalid, rfl⟩ := Prod.mk.inj hverify
  rw [bind_run, get_run] at h
  dsimp only at h
  split_ifs at h with hmember
  · cases h
    have habsent : p.ipk ∉ p.members := by
      simpa [← Std.ExtTreeSet.contains_iff_mem] using hmember
    exact iff_of_true (Unchanged.refl p) (Or.inr (Or.inl habsent))
  · rw [bind_run, modify_run] at h
    dsimp only at h
    have hstops : StopsUninvited P p kp ↔
        MAX_OPS ≤ p.dag.ops.size ∧ p.peerPrekeys[kp.ipk]? = some (kp.gen, kp.prekey) := by
      have hvalid : ¬kp.verify P ≠ .ok () := not_not.mpr hvalid
      have hmember : ¬p.ipk ∉ p.members := by
        simpa [← Std.ExtTreeSet.contains_iff_mem] using hmember
      rw [StopsUninvited, or_iff_right hvalid, or_iff_right hmember]
    rw [hstops]
    by_cases hfull : MAX_OPS ≤ p.dag.ops.size
    · have hnoted := before_publish (p := { p with
        peerPrekeys := p.peerPrekeys.insert kp.ipk (kp.gen, kp.prekey) }) hfull h
      rw [and_iff_right hfull, ← insert_eq_self]
      refine ⟨fun hsame => hnoted.peerPrekeys.symm.trans hsame.peerPrekeys, fun hknown => ?_⟩
      exact ⟨hnoted.dag, hnoted.guilty, hnoted.send, hnoted.recv, hnoted.nodekeys, hnoted.prekeys,
        hnoted.peerPrekeys.trans hknown⟩
    · refine iff_of_false (fun hsame => ?_) fun hstop => hfull hstop.1
      have hrest := after_publish (p := { p with
        peerPrekeys := p.peerPrekeys.insert kp.ipk (kp.gen, kp.prekey) }) hfull h
      refine published_changed (p := { p with
        peerPrekeys := p.peerPrekeys.insert kp.ipk (kp.gen, kp.prekey) }) hfull hfresh
        (Moves.run ?_ hrest) hsame.dag
      refine moves_bind (rotateWhen_moves _) fun rotation p₃ _ => ?_
      refine moves_bind (welcomeFor_moves kp) fun welcome p₄ _ => ?_
      refine moves_bind (contributeExcluding_moves ∅) fun contribution p₅ _ => ?_
      exact moves_bind noteVersion_moves fun _ _ _ => moves_pure _ _

/-! ## Messages -/

variable (P) in
/-- The bytes are not an operation that passes the checks of ingestion. -/
def StopsUnstored (p : Participant) (wire : Bytes) : Prop :=
  ∀ op dag, Message.fromWire P wire = .ok (.op op) → ¬Accepts P p op dag

theorem ingest_failed (hp : Steady P p) {op : Op} (h : ingest P op p = (.error e, p')) :
    Unchanged p p' ↔ ∀ dag, ¬Accepts P p op dag := by
  have houtcome := ingest_outcome hp op
  rw [h] at houtcome
  generalize hresult : (Except.error e, p') = result at houtcome
  cases houtcome with
  | invalid hbad =>
      cases hresult
      exact iff_of_true (Unchanged.refl p) fun dag haccepts => hbad ⟨haccepts.sid, haccepts.verified⟩
  | known hold => cases hresult
  | waiting hsid hsig hnew hdeps => cases hresult
  | unauthorised hdeps hauth =>
      cases hresult
      exact iff_of_true (Unchanged.refl p) fun dag haccepts => hauth haccepts.authorised
  | full hfull =>
      cases hresult
      exact iff_of_true (Unchanged.refl p) fun dag haccepts =>
        Nat.not_lt.mpr hfull haccepts.added.room
  | @stored dag hstored =>
      refine iff_of_false (fun hsame => ?_) fun hnone => hnone dag hstored
      have hheld : dag.get (op.oid P) = some op := by rw [hstored.added.get, if_pos rfl]
      have hsteady : Steady P { p with dag } := ⟨hp.sound.added hstored.added, hp.parked⟩
      have hmoves : Moves (Steps P (fun _ => True) fun _ _ => True) (applyOp P op) { p with dag } :=
        applyOp_moves hsteady hheld
      have hkept := Steps.keeps (hmoves.run hresult.symm) hheld
      rw [hsame.dag] at hkept
      have hfresh := hstored.added.fresh
      rw [Bool.eq_false_iff] at hfresh
      exact hfresh (contains_iff.mpr ⟨op, hkept⟩)

theorem draw_unchanged : Moves Unchanged draw p := by
  refine moves_get ?_
  split
  · exact moves_throw _ _
  · refine moves_bind (moves_modify ?_) fun _ _ _ => moves_pure _ _
    exact ⟨rfl, rfl, rfl, rfl, rfl, rfl, rfl⟩

theorem answerNodeKeysFor_unchanged (recipient : SigPublic) (nodes : List Oid) :
    Moves Unchanged (answerNodeKeysFor P recipient nodes) p := by
  have hseal : ∀ gen pk payload, Moves Unchanged
      (sealEnvelope P "cfr/repair/ad" "repair" recipient gen pk payload) p := by
    intro gen pk payload
    refine moves_get (moves_bind draw_unchanged fun eph p₁ _ => ?_)
    split
    · exact moves_throw _ _
    · exact moves_pure _ _
  refine moves_get ?_
  dsimp only
  split_ifs
  · exact moves_pure _ _
  · exact moves_pure _ _
  · split
    · exact moves_throw _ _
    · exact moves_bind (hseal _ _ _) fun _ _ _ => moves_pure _ _

theorem learnWanted_total (want : OidSet) (entries : List (Oid × Secret)) :
    Total (learnWanted want entries) := by
  induction entries with
  | nil => exact total_pure _
  | cons entry entries ih =>
      rw [learnWanted]
      split
      · exact total_bind (total_modify _) fun _ => ih
      · exact ih

theorem absorbNodeKeys_failed {sender : SigPublic} {sealed : Envelope}
    (h : absorbNodeKeys P sender sealed p = (.error e, p')) : p' = p := by
  unfold absorbNodeKeys at h
  rw [bind_run, get_run] at h
  dsimp only at h
  split_ifs at h
  · cases h
    rfl
  · rcases bind_error h with hopen | ⟨plain, p₁, hopen, h⟩
    · rw [lift_run] at hopen
      exact (congrArg Prod.snd hopen).symm
    rw [lift_run] at hopen
    obtain ⟨-, rfl⟩ := Prod.mk.inj hopen
    rcases bind_error h with hparse | ⟨entries, p₁, -, h⟩
    · rw [lift_run] at hparse
      exact (congrArg Prod.snd hparse).symm
    · exact ((learnWanted_total _ _).error h).elim

/-- A message that is not an operation either changes nothing or does not fail. -/
theorem dispatch_failed {m : Message} (hm : ∀ op, m ≠ .op op) (h : dispatch P m p = (.error e, p')) :
    Unchanged p p' := by
  cases m with
  | op op => exact absurd rfl (hm op)
  | deliver ops pruned =>
      exact ((total_bind (ingestAll_total ops) fun _ => total_pure _).error h).elim
  | sync sender heads =>
      exact ((total_bind total_get fun _ => total_pure _).error h).elim
  | nodeKeyRequest sender nodes =>
      refine Moves.run (moves_bind (answerNodeKeysFor_unchanged sender nodes) fun _ _ _ => ?_) h
      exact moves_pure _ _
  | nodeKeyResponse sender sealed =>
      rcases bind_error h with habsorb | ⟨_, _, -, h⟩
      · rw [absorbNodeKeys_failed habsorb]
        exact Unchanged.refl p
      · cases h
  | checkpoint certificate =>
      refine Moves.run (moves_get (moves_lift fun _ _ => ?_)) h
      exact moves_pure _ _
  | welcome sid sender sealed history pruned =>
      cases h
      exact Unchanged.refl p

theorem handle_failed (hp : Steady P p) {wire : Bytes} (h : handle P wire p = (.error e, p')) :
    Unchanged p p' ↔ StopsUnstored P p wire := by
  cases hm : Message.fromWire P wire with
  | error e' =>
      rw [handle_error hm] at h
      cases h
      refine iff_of_true (Unchanged.refl p) fun op dag hop => ?_
      rw [hm] at hop
      cases hop
  | ok m =>
      rw [handle_run hm] at h
      rcases bind_error h with hdispatch | ⟨result, p₁, -, hconclude⟩
      · by_cases hop : ∃ op, m = .op op
        · obtain ⟨op, rfl⟩ := hop
          rcases bind_error hdispatch with hingest | ⟨_, _, -, hpure⟩
          · rw [ingest_failed hp hingest, StopsUnstored]
            refine ⟨fun hnone op' dag hop' => ?_, fun hstops dag => hstops op dag hm⟩
            rw [hm] at hop'
            cases hop'
            exact hnone dag
          · cases hpure
        · have hother : ∀ op, m ≠ .op op := fun op heq => hop ⟨op, heq⟩
          refine iff_of_true (dispatch_failed hother hdispatch) fun op dag hop' => ?_
          rw [hm] at hop'
          cases hop'
          exact absurd rfl (hother op)
      · exact ((conclude_total p result).error hconclude).elim

end Failures

/-! ## Every call -/

section Calls

variable (P : Primitives)

/-- The error of a call that may fail, if it does. -/
def failure (p : Participant) : Call → Option Error
  | .handle wire => errorOf (Member.handle P wire p).1
  | .invite kp => errorOf (Member.invite P kp p).1
  | .remove who => errorOf (Member.remove P who p).1
  | .contribute exclude => errorOf (contributeExcluding P exclude p).1
  | _ => none
where
  errorOf {α : Type} : Except Error α → Option Error
    | .error e => some e
    | .ok _ => none

/-- The call stops before its first write, if it stops. -/
def StopsClean (p : Participant) : Call → Prop
  | .handle wire => StopsUnstored P p wire
  | .invite kp => StopsUninvited P p kp
  | .remove _ => MAX_OPS ≤ p.dag.ops.size
  | .contribute exclude => StopsUnsealed P p exclude
  | _ => True

/-- The identifier of the operation that the call signs first is not that of a stored one. -/
def SignsFresh (p : Participant) : Call → Prop
  | .invite kp => ¬p.dag.contains ((p.sign P (.add kp.ipk)).oid P)
  | .remove who => ¬p.dag.contains ((p.sign P (.remove who)).oid P)
  | _ => True

variable {P} {p : Participant}

theorem errorOf_some {α : Type} {r : Except Error α} {e : Error} (h : failure.errorOf r = some e) :
    r = .error e := by
  cases r with
  | error e' =>
      cases h
      rfl
  | ok a => cases h

/-- A failed call of a reachable participant leaves the graph, the guilty, the channels, the node keys
and the prekeys as they were exactly when it stops before its first write. -/
theorem failed_call_unchanged_iff (hp : Reachable P p) {c : Call} (hfresh : SignsFresh P p c)
    {e : Error} (h : failure P p c = some e) :
    Unchanged p (c.run P p) ↔ StopsClean P p c := by
  cases c with
  | handle wire =>
      have hsteady : Steady P p := ⟨hp.wellformed.sound, hp.wellformed.parked⟩
      exact handle_failed hsteady (Prod.ext (errorOf_some h) rfl)
  | invite kp => exact invite_failed hfresh (Prod.ext (errorOf_some h) rfl)
  | remove who => exact remove_failed hfresh (Prod.ext (errorOf_some h) rfl)
  | contribute exclude => exact contribute_failed (Prod.ext (errorOf_some h) rfl)
  | publishPrekeys => cases h
  | rotatePrekeys => cases h
  | tick => cases h
  | leave => cases h
  | repairRequest => cases h

end Calls

section Scenario

/-- The founder of a conference after it has left. -/
def departed : Participant :=
  Call.leave.run toy opener

theorem departed_reachable : Reachable toy departed :=
  WelcomeDisclosure.opener_reachable.next _

/-- Its next contribution is refused before anything is written. -/
theorem departed_contribution_unchanged :
    failure toy departed (.contribute ∅) = some .notParticipating ∧
      Unchanged departed ((Call.contribute ∅).run toy departed) := by
  have hfailure : failure toy departed (.contribute ∅) = some .notParticipating := by decide +kernel
  have habsent : departed.ipk ∉ departed.members := by decide +kernel
  have hfresh : SignsFresh toy departed (.contribute ∅) := trivial
  exact ⟨hfailure, (failed_call_unchanged_iff departed_reachable hfresh hfailure).mpr
    (Or.inl habsent)⟩

/-- Its attempt to evict somebody fails as well, after the eviction was signed and stored. -/
theorem departed_removal_changes : Reachable toy departed ∧
    failure toy departed (.remove 2) = some .notParticipating ∧
      ¬Unchanged departed ((Call.remove 2).run toy departed) := by
  have hfailure : failure toy departed (.remove 2) = some .notParticipating := by decide +kernel
  have hsize : ((Call.remove 2).run toy departed).dag.ops.size ≠ departed.dag.ops.size := by
    decide +kernel
  exact ⟨departed_reachable, hfailure, fun hsame => hsize (by rw [hsame.dag])⟩

end Scenario

end CausalFrontierRatchet.FailedCalls
