import CausalFrontierRatchet.ContributionLedger
import CausalFrontierRatchet.Emission
import CausalFrontierRatchet.FailedCalls

/-!
What a participant keeps about the operations it has and the operations it waits for.  A buffered
operation waits for a dependency that is not stored: whenever an operation goes in, the buffer is
gone through again, until a pass over it stores nothing.  Errors on the way are swallowed, so this
rests on stored operations taking effect without an error, which only a full graph or a lack of
randomness prevents.
-/

namespace CausalFrontierRatchet.Bookkeeping

open Relation BigEndian Crypto Tlv Operation OperationGraph CausalMembership KeySchedule Channel
open Messages Commands Member MemberSteps MemberRuns Ingest MemberActions Intake SliceSealing
open FailedCalls ContributionLedger FrontierKeys Authorisation MessageCodec Emission

variable {P : Primitives} {p p' : Participant}

/-! ## Failures of a stored operation -/

section Failures

theorem draw_fails : FailsIn (Spent P) draw p := by
  intro e p' h
  obtain ⟨rfl, hempty⟩ := draw_error h
  exact Or.inl hempty

theorem publish_fails (body : Body) : FailsIn (Spent P) (publish P body) p := by
  intro e p' h
  refine Or.inr (Or.inl ?_)
  rw [(publish_failed h).dag]
  exact publish_error h

theorem publishPrekeys_fails : FailsIn (Spent P) (publishPrekeys P) p :=
  failsIn_get (failsIn_bind (publish_fails _) fun _ p₁ _ => (total_pure _).failsIn p₁)

theorem rotatePrekeys_fails : FailsIn (Spent P) (rotatePrekeys P) p := by
  refine failsIn_bind draw_fails fun secret p₁ _ => ?_
  exact failsIn_bind ((total_modify _).failsIn p₁) fun _ _ _ => publishPrekeys_fails

theorem rotateWhen_fails (due : Bool) : FailsIn (Spent P) (rotateWhen P due) p := by
  unfold rotateWhen
  split
  · exact failsIn_bind rotatePrekeys_fails fun _ p₁ _ => (total_pure _).failsIn p₁
  · exact (total_pure _).failsIn p

theorem signOp_total (body : Body) : Total (signOp P body) :=
  total_bind total_get fun _ => total_bind (total_modify _) fun _ => total_pure _

theorem judge_total (acc : Op) (who : SigPublic) : Total (judge P acc who) := by
  refine total_bind total_get fun p => ?_
  split
  · exact total_modify _
  · exact total_pure _

theorem addOp_fails (op : Op) : FailsIn (Spent P) (addOp P op) p := by
  intro e p' h
  rw [addOp_run, Prod.mk.injEq] at h
  obtain ⟨hfull, rfl⟩ := h
  have hfull := add_full hfull
  refine Or.inr (Or.inl ?_)
  rw [Dag.add, if_pos hfull]
  exact hfull

theorem accuseAuthor_fails (op : Op) (key : Secret) (seq : UInt64) :
    FailsIn (Spent P) (accuseAuthor P op key seq) p := by
  refine failsIn_bind ((signOp_total _).failsIn p) fun acc p₁ _ => ?_
  refine failsIn_bind ((judge_total _ _).failsIn p₁) fun _ p₂ _ => ?_
  exact failsIn_bind (addOp_fails acc) fun _ p₃ _ => (total_pure _).failsIn p₃

/-- A contribution is absorbed unless its secret is not the committed one or a parent key is not
held. -/
theorem absorb_error {op : Op} {cid : Cid} {cparents : OidSet} {recips : List SigPublic}
    {slices : List Slice} {view : BitVec 256} {x : Secret} {e : Error}
    (hbody : op.body = .contrib cid cparents recips slices view)
    (h : absorb P op x p = (.error e, p')) : e = .equivocation ∨ e = .missingNodeKeys := by
  unfold absorb at h
  simp only [hbody] at h
  rw [bind_run, get_run] at h
  dsimp only at h
  split at h
  · cases h
  split at h
  · cases h
    exact Or.inl rfl
  · cases hkey : (if cparents.isEmpty then some 0 else p.nodekeys.combine cparents) with
    | some parent =>
        simp only [hkey] at h
        cases h
    | none =>
        simp only [hkey] at h
        cases h
        exact Or.inr rfl

theorem openSlice_fails {op : Op} {cid : Cid} {cparents : OidSet} {recips : List SigPublic}
    {slices : List Slice} {view : BitVec 256} (key : Secret) (seq : UInt64) (ad : Bytes)
    (hbody : op.body = .contrib cid cparents recips slices view) :
    FailsIn (Spent P) (openSlice P op key seq ad) p := by
  unfold openSlice
  refine failsIn_get ?_
  simp only [hbody]
  split
  · exact (total_pure _).failsIn p
  split
  · exact failsIn_bind ((total_modify _).failsIn p) fun _ p₁ _ => (total_pure _).failsIn p₁
  refine failsIn_bind ((total_attempt _).failsIn p) fun r p₁ hrun => ?_
  split
  · exact (total_pure _).failsIn p₁
  · exact (total_pure _).failsIn p₁
  · exact failsIn_bind (accuseAuthor_fails _ _ _) fun _ p₂ _ => (total_pure _).failsIn p₂
  · rename_i hmissing hequivocation
    rcases absorb_error hbody (run_of_attempt hrun) with rfl | rfl
    · exact absurd rfl hequivocation
    · exact absurd rfl hmissing

/-- The channels are left as they are. -/
def SameRecv (p p' : Participant) : Prop :=
  p'.recv = p.recv

instance : Std.Refl SameRecv where
  refl _ := rfl

instance : IsTrans Participant SameRecv where
  trans _ _ _ h h' := Eq.trans h' h

theorem accuseAuthor_sameRecv (op : Op) (key : Secret) (seq : UInt64) :
    Moves SameRecv (accuseAuthor P op key seq) p := by
  obtain ⟨guilty, hrun, -⟩ := judge_cases (P := P) (p := { p with signed := _ })
    (p.sign P (.accuse op.author (op.oid P) key seq)) op.author
  rw [Moves, accuseAuthor_state hrun]
  rfl

theorem absorb_sameRecv (op : Op) (x : Secret) : Moves SameRecv (absorb P op x) p := by
  unfold absorb
  split
  · refine moves_get ?_
    dsimp only
    split_ifs
    · exact moves_pure _ _
    · exact moves_throw _ _
    · exact moves_modify rfl
    · split
      · exact moves_modify rfl
      · exact moves_bind (moves_modify rfl) fun _ _ _ => moves_throw _ _
  · exact moves_throw _ _

theorem openSlice_sameRecv (op : Op) (key : Secret) (seq : UInt64) (ad : Bytes) :
    Moves SameRecv (openSlice P op key seq ad) p := by
  unfold openSlice
  refine moves_get ?_
  split
  · split
    · exact moves_pure _ _
    dsimp only
    split
    · exact moves_bind (moves_modify rfl) fun _ _ _ => moves_pure _ _
    refine moves_bind (moves_attempt (absorb_sameRecv _ _)) fun r p₁ _ => ?_
    split
    · exact moves_pure _ _
    · exact moves_pure _ _
    · exact moves_bind (accuseAuthor_sameRecv _ _ _) fun _ _ _ => moves_pure _ _
    · exact moves_throw _ _
  · exact moves_pure _ _

/-- A channel moves past the position it waits for. -/
theorem commitRecv_run {author : SigPublic} {state : RecvState} {seq : UInt64}
    (hstate : p.recv[author]? = some state) (hnext : state.chan.chan.next = seq)
    (hlast : seq ≠ LAST) :
    ∃ chan, state.chan.commit P seq = .ok (true, chan) ∧
      commitRecv P author seq p =
        (.ok (some true), { p with recv := p.recv.insert author { state with chan } }) := by
  cases hadvance : state.chan.chan.advance P with
  | error e => exact absurd (advance_error hadvance) (hnext ▸ hlast)
  | ok chan =>
      have hcommit : state.chan.commit P seq = .ok (true, { state.chan with chan }) := by
        rw [RecvChan.commit, if_neg (not_not.mpr hnext.symm), hadvance]
        rfl
      refine ⟨_, hcommit, ?_⟩
      unfold commitRecv
      rw [bind_run, get_run]
      dsimp only
      rw [hstate]
      dsimp only
      rw [bind_run, lift_run, hcommit]
      rfl

theorem withRecv_total {β : Type} (author : SigPublic) (f : RecvChan → β × RecvChan) :
    Total (withRecv author f) := by
  intro p
  rcases withRecv_cases author f p with ⟨-, hrun⟩ | ⟨state, -, hrun⟩
  · exact ⟨_, _, hrun⟩
  · exact ⟨_, _, hrun⟩

theorem drainSlices_fails (author : SigPublic) (fuel : ℕ) :
    FailsIn (Spent P) (drainSlices P author fuel) p := by
  induction fuel generalizing p with
  | zero => exact (total_pure _).failsIn p
  | succ fuel ih =>
      refine failsIn_bind ((withRecv_total _ _).failsIn p) fun taken p₁ htake => ?_
      split
      · obtain ⟨-, ⟨state, hstate, hnext, hlast⟩, -⟩ := takeNext_ok htake
        refine failsIn_get ?_
        split
        · split
          · rename_i hbody
            refine failsIn_bind (openSlice_fails _ _ _ hbody) fun authentic p₂ hopen => ?_
            split
            · have hrecv : p₂.recv = p₁.recv := (openSlice_sameRecv _ _ _ _).run hopen
              obtain ⟨_, -, hcommit⟩ := commitRecv_run (P := P) (hrecv ▸ hstate) hnext hlast
              refine failsIn_bind (fun e q hfail => by cases hcommit.symm.trans hfail)
                fun moved p₄ _ => ?_
              split
              · exact ih
              · exact (total_pure _).failsIn p₄
            · exact (total_pure _).failsIn p₂
          · exact (total_modify _).failsIn p₁
        · exact (total_modify _).failsIn p₁
      · exact (total_pure _).failsIn p₁

theorem offerSlice_fails {op : Op} {cid : Cid} {cparents : OidSet} {recips : List SigPublic}
    {slices : List Slice} {view : BitVec 256}
    (hbody : op.body = .contrib cid cparents recips slices view) (slice : Slice) :
    FailsIn (Spent P) (offerSlice P op cid view slice) p := by
  refine failsIn_bind ((withRecv_total _ _).failsIn p) fun offered p₁ hoffer => ?_
  split
  · rename_i key
    rcases offer_cases slice.seq (op.oid P) slice.ct hoffer with
      ⟨_, state, -, hstate, hnext, hlast, -⟩ | ⟨hnot, -⟩
    · refine failsIn_bind (openSlice_fails _ _ _ hbody) fun authentic p₂ hopen => ?_
      split
      · have hrecv : p₂.recv = p₁.recv := (openSlice_sameRecv _ _ _ _).run hopen
        obtain ⟨_, -, hcommit⟩ := commitRecv_run (P := P) (hrecv ▸ hstate) hnext hlast
        refine failsIn_bind (fun e q hfail => by cases hcommit.symm.trans hfail)
          fun moved p₄ hmoved => ?_
        split
        · cases hcommit.symm.trans hmoved
        · exact failsIn_get (drainSlices_fails _ _)
      · exact (total_pure _).failsIn p₂
    · exact absurd rfl (hnot key)
  · exact (total_pure _).failsIn p₁

theorem openChannel_fails (op : Op) (gen : UInt32) (eph : DhPublic) :
    FailsIn (Spent P) (openChannel P op gen eph) p := by
  refine failsIn_get ?_
  dsimp only
  split
  · exact (total_pure _).failsIn p
  split
  · exact failsIn_bind ((total_modify _).failsIn p) fun _ p₁ _ => (total_pure _).failsIn p₁
  split
  · refine failsIn_bind ((total_modify _).failsIn p) fun _ p₁ _ => ?_
    exact failsIn_bind rotatePrekeys_fails fun _ p₂ _ => (total_pure _).failsIn p₂
  · exact (total_bind (total_modify _) fun _ => total_pure _).failsIn p

theorem receiveContribution_fails (op : Op) : FailsIn (Spent P) (receiveContribution P op) p := by
  refine failsIn_get ?_
  split
  · rename_i hbody
    split
    · exact (total_pure _).failsIn p
    · rename_i slice _
      have hannounce : FailsIn (Spent P) (announce P op slice.establish) p := by
        unfold announce
        split
        · exact openChannel_fails _ _ _
        · exact (total_pure _).failsIn p
      refine failsIn_bind hannounce fun opening p₁ _ => ?_
      split
      · exact (total_pure _).failsIn p₁
      · exact failsIn_bind (offerSlice_fails hbody slice) fun _ p₂ _ => (total_pure _).failsIn p₂
  · exact (total_pure _).failsIn p

/-- An operation that is stored fails to take effect only for lack of room or randomness. -/
theorem applyOp_fails (op : Op) : FailsIn (Spent P) (applyOp P op) p := by
  refine failsIn_get ?_
  split
  · exact failsIn_bind ((total_modify _).failsIn p) fun _ p₁ _ => (total_pure _).failsIn p₁
  · exact receiveContribution_fails op
  · exact failsIn_bind ((judge_total _ _).failsIn p) fun _ p₁ _ => (total_pure _).failsIn p₁
  · exact rotateWhen_fails _
  · exact rotateWhen_fails _
  · exact (total_pure _).failsIn p

theorem ingest_error (hp : Steady P p) {op : Op} {e : Error}
    (h : ingest P op p = (.error e, p')) : Spent P p' ∨ p' = p := by
  have houtcome := ingest_outcome hp op
  rw [h] at houtcome
  generalize hresult : (Except.error e, p') = result at houtcome
  cases houtcome with
  | stored haccepts => exact Or.inl (applyOp_fails op e p' hresult.symm)
  | known hold => cases hresult
  | waiting hsid hsig hnew hdeps => cases hresult
  | _ =>
      cases hresult
      exact Or.inr rfl

end Failures

/-! ## Waiting operations -/

section Waiting

/-- Every buffered operation waits for a dependency. -/
def Waits (p : Participant) : Prop :=
  ∀ op ∈ p.pending, ¬p.depsAvailable op

theorem Waits.congr (hdag : p'.dag = p.dag) (hpending : p'.pending = p.pending) (hp : Waits p) :
    Waits p' := by
  intro op hop
  rw [hpending] at hop
  rw [Participant.depsAvailable, hdag]
  exact hp op hop

/-- A pass that makes progress leaves fewer operations waiting. -/
theorem drainPass_shorter {waiting deferred : List Op} {out : List Outbound}
    (h : drainPass P waiting p = (.ok (deferred, true, out), p')) :
    deferred.length < waiting.length := by
  induction waiting generalizing p deferred out with
  | nil => cases h
  | cons op waiting ih =>
      rw [drainPass] at h
      obtain ⟨p₀, _, hget, h⟩ := bind_ok h
      cases hget
      dsimp only at h
      split at h
      · obtain ⟨⟨d, pr, o⟩, p₁, hpass, h⟩ := bind_ok h
        cases h
        exact Nat.succ_lt_succ (ih hpass)
      · obtain ⟨first, p₁, -, h⟩ := bind_ok h
        split at h
        · obtain ⟨⟨d, pr, o⟩, p₂, hpass, h⟩ := bind_ok h
          cases h
          exact Nat.lt_succ_of_le (drainPass_deferred hpass).length_le
        · exact (ih h).trans (Nat.lt_succ_self _)

/-- A pass without progress stores nothing, and what it leaves waiting could not go in. -/
theorem drainPass_idle (hp : Steady P p) {waiting deferred : List Op} {out : List Outbound}
    (h : drainPass P waiting p = (.ok (deferred, false, out), p')) :
    Spent P p' ∨ (p'.dag = p.dag ∧ ∀ op ∈ deferred, ¬p.depsAvailable op) := by
  induction waiting generalizing p deferred out with
  | nil =>
      cases h
      exact Or.inr ⟨rfl, fun op hop => absurd hop List.not_mem_nil⟩
  | cons op waiting ih =>
      rw [drainPass] at h
      obtain ⟨p₀, _, hget, h⟩ := bind_ok h
      cases hget
      dsimp only at h
      split at h
      · rename_i hwaits
        obtain ⟨⟨d, pr, o⟩, p₁, hpass, h⟩ := bind_ok h
        cases h
        refine (ih hp hpass).imp_right fun hidle => ⟨hidle.1, ?_⟩
        exact List.forall_mem_cons.mpr ⟨by simpa using hwaits, hidle.2⟩
      · obtain ⟨first, p₁, hfirst, hrest⟩ := bind_ok h
        split at hrest
        · obtain ⟨⟨d, pr, o⟩, p₂, -, hpure⟩ := bind_ok hrest
          cases hpure
        · have hfirst := run_of_attempt hfirst
          have hingest : Steps P (fun _ => True) (fun _ _ => True) p p₁ :=
            (ingest_moves (steady_tidy hp) trivial).run hfirst
          have hp₁ := hingest.steady hp
          rcases ingest_error hp hfirst with hspent | rfl
          · have hmoves : Steps P (fun _ => True) (fun _ _ => True) p₁ p' :=
              (drainPass_moves (steady_tidy hp₁) fun _ _ => trivial).run hrest
            exact Or.inl (hspent.steps hmoves)
          · exact ih hp hrest

/-- After as many passes as operations were waiting, none of those left can go in. -/
theorem drainRounds_waits (hp : Steady P p) {rounds : ℕ} {waiting : List Op}
    (hrounds : waiting.length ≤ rounds) :
    Spent P (drainRounds P rounds waiting p).2 ∨ Waits (drainRounds P rounds waiting p).2 := by
  induction rounds generalizing p waiting with
  | zero =>
      obtain rfl := List.length_eq_zero_iff.mp (Nat.le_zero.mp hrounds)
      exact Or.inr fun op hop => absurd hop List.not_mem_nil
  | succ rounds ih =>
      obtain ⟨⟨deferred, progressed, out⟩, p₁, hpass⟩ := drainPass_total (P := P) waiting p
      have hmoves : Steps P (fun _ => True) (fun _ _ => True) p p₁ :=
        (drainPass_moves (steady_tidy hp) fun _ _ => trivial).run hpass
      rw [drainRounds, bind_run, hpass]
      cases progressed with
      | true =>
          dsimp only
          rw [if_pos rfl, bind_pure_state]
          refine ih (hmoves.steady hp) ?_
          exact Nat.lt_succ_iff.mp ((drainPass_shorter hpass).trans_le hrounds)
      | false =>
          refine (drainPass_idle hp hpass).imp id fun ⟨hdag, hwaits⟩ op hop => ?_
          change ¬p₁.depsAvailable op
          rw [Participant.depsAvailable, hdag]
          exact hwaits op hop

/-- A message that is refused leaves graph and buffer alone. -/
theorem dispatch_error (hp : Steady P p) {m : Message} {e : Error}
    (h : dispatch P m p = (.error e, p')) :
    Spent P p' ∨ (p'.dag = p.dag ∧ p'.pending = p.pending) := by
  have hsilent : Silent p p' → p'.dag = p.dag ∧ p'.pending = p.pending := fun hs =>
    ⟨hs.dag, hs.pending⟩
  cases m with
  | op op =>
      rcases bind_error h with hingest | ⟨_, _, -, hpure⟩
      · exact (ingest_error hp hingest).imp_right fun heq => by rw [heq]; exact ⟨rfl, rfl⟩
      · cases hpure
  | deliver ops pruned =>
      exact ((total_bind (ingestAll_total ops) fun _ => total_pure _).error h).elim
  | sync sender heads => exact ((total_bind total_get fun _ => total_pure _).error h).elim
  | nodeKeyRequest sender nodes =>
      refine Or.inr (hsilent (Moves.run (moves_bind (answerNodeKeysFor_silent sender nodes) ?_) h))
      exact fun _ _ _ => moves_pure _ _
  | nodeKeyResponse sender sealed =>
      refine Or.inr (hsilent (Moves.run (moves_bind (absorbNodeKeys_silent sender sealed) ?_) h))
      exact fun _ _ _ => moves_pure _ _
  | checkpoint certificate =>
      refine Or.inr (hsilent (Moves.run (moves_get (moves_lift fun _ _ => ?_)) h))
      exact moves_pure _ _
  | welcome sid sender sealed history pruned =>
      cases h
      exact Or.inr ⟨rfl, rfl⟩

theorem conclude_waits (hp : Steady P p) (before : Participant)
    (result : List Event × List Outbound) :
    Spent P (conclude P before result p).2 ∨ Waits (conclude P before result p).2 := by
  have hcleared : Steady P { p with pending := [] } := ⟨hp.sound, hp.parked⟩
  have hrounds := drainRounds_waits hcleared (le_refl p.pending.length)
  obtain ⟨drained, p₁, hdrain⟩ := drainRounds_total (P := P) p.pending.length p.pending
    { p with pending := [] }
  have hpending : drainPending P p = (.ok drained, p₁) := hdrain
  rw [hdrain] at hrounds
  rw [conclude, bind_run, hpending]
  dsimp only
  rw [bind_pure_state]
  have hsettle : Silent p₁ (settle P before p₁).2 := settle_silent before
  have hmoves : Steps P (fun _ => True) (fun _ _ => True) p₁ (settle P before p₁).2 :=
    settle_moves before
  exact hrounds.imp (fun hspent => hspent.steps hmoves) (Waits.congr hsettle.dag hsettle.pending)

theorem handle_waits (hp : Steady P p) (wire : Bytes) (hwaits : Waits p) :
    Spent P (handle P wire p).2 ∨ Waits (handle P wire p).2 := by
  cases hm : Message.fromWire P wire with
  | error e =>
      rw [handle_error hm]
      exact Or.inr hwaits
  | ok m =>
      have hdispatch : Steps P (fun _ => True) (fun _ _ => True) p (dispatch P m p).2 :=
        dispatch_moves (steady_tidy hp) m (fun _ _ => trivial) fun _ _ _ => trivial
      rw [handle_run hm, bind_run]
      rcases hrun : dispatch P m p with ⟨e | result, p₁⟩
      · exact (dispatch_error hp hrun).imp_right fun ⟨hdag, hpending⟩ =>
          hwaits.congr hdag hpending
      · rw [hrun] at hdispatch
        exact conclude_waits (hdispatch.steady hp) p result

end Waiting

/-! ## Own operations -/

section Own

variable (P)

/-- An identifier that an operation signed by the participant can have. -/
def Own (p : Participant) (d : Oid) : Prop :=
  ∃ deps body, d = (Op.create P p.identity p.sid deps body).oid P

/-- The operation does not depend on operations that the participant has yet to sign. -/
def Timely (p : Participant) (op : Op) : Prop :=
  ∀ d ∈ op.deps, Own P p d → p.dag.contains d

structure Queue (p : Participant) : Prop where
  waits : Waits p
  timely : ∀ op ∈ p.pending, Timely P p op

variable {P}

theorem Timely.later {op : Op} (hparty : SameParty p p')
    (hkeeps : ∀ o, p.dag.contains o → p'.dag.contains o) (h : Timely P p op) : Timely P p' op := by
  rintro d hd ⟨deps, body, hown⟩
  rw [hparty.identity, hparty.sid] at hown
  exact hkeeps d (h d hd ⟨deps, body, hown⟩)

/-- No buffered operation waits for what the participant publishes. -/
theorem Queue.published (hp : Queue P p) (body : Body) : Queue P (published P p body) := by
  have hkeeps : ∀ o, p.dag.contains o → (MemberActions.published P p body).dag.contains o := by
    intro o ho
    obtain ⟨op, hop⟩ := contains_iff.mp ho
    exact contains_iff.mpr ⟨op, published_keeps hop⟩
  refine ⟨fun op hop hdeps => hp.waits op hop ?_, fun op hop => ?_⟩
  · rcases published_cases (P := P) p body with hsame | hadd
    · rwa [Participant.depsAvailable, hsame] at hdeps
    · rw [depsAvailable_iff] at hdeps ⊢
      intro d hd
      obtain ⟨stored, hstored⟩ := contains_iff.mp (hdeps d hd)
      rw [hadd.get] at hstored
      split_ifs at hstored with hown
      · exact hp.timely op hop d hd ⟨p.dag.heads, body, hown.symm⟩
      · exact contains_iff.mpr ⟨stored, hstored⟩
  · have htimely : Timely P p op := hp.timely op hop
    exact Timely.later (p := p) ⟨rfl, rfl, rfl, rfl, rfl⟩ hkeeps htimely

theorem Acts.queue {may : Participant → Body → Prop} {convicts : Participant → SigPublic → Prop}
    (h : Acts P may convicts p p') (hp : Queue P p) : Queue P p' := by
  induction h with
  | refl => exact hp
  | tail _ haction ih =>
      cases haction with
      | silent h =>
          refine ⟨ih.waits.congr h.dag h.pending, fun op hop => ?_⟩
          rw [h.pending] at hop
          exact (ih.timely op hop).later h.party fun o ho => by rwa [h.dag]
      | published h => exact ih.published _
      | convicted h => exact ⟨ih.waits, ih.timely⟩

/-- What is buffered after a message was buffered before or came with it. -/
theorem handle_timely (hp : Steady P p) (hq : Queue P p) (wire : Bytes)
    (hwire : ∀ m, Message.fromWire P wire = .ok m → ∀ op ∈ carried m, Timely P p op) :
    ∀ op ∈ (handle P wire p).2.pending, Timely P (handle P wire p).2 op := by
  have hsteps : Steps P (Timely P p) (fun _ _ => True) p (handle P wire p).2 :=
    handle_moves ⟨hp.sound, hp.parked, hq.timely⟩ wire hwire fun _ _ _ _ _ => trivial
  have hkeeps : ∀ o, p.dag.contains o → (handle P wire p).2.dag.contains o := by
    intro o ho
    obtain ⟨op, hop⟩ := contains_iff.mp ho
    exact contains_iff.mpr ⟨op, hsteps.keeps hop⟩
  intro op hop
  have htimely := (Steps.tidy hsteps ⟨hp.sound, hp.parked, hq.timely⟩).pending op hop
  exact htimely.later hsteps.sameParty hkeeps

end Own

/-! ## What a reload demands -/

section Reload

variable (P)

/-- The contributions on record and the buffer agree with the graph. -/
def validateContributionState (p : Participant) : Except Error Unit :=
  let contributionIds := contributions p.dag
  if p.absorbed.toList.any (fun o => p.missing.contains o) ||
      !p.absorbed.toList.all (fun o => contributionIds.contains o) ||
      !p.missing.toList.all (fun o => contributionIds.contains o) ||
      !p.nodekeys.keys.keys.all (fun o => contributionIds.contains o) then
    .error (.encoding "state contribution tracking is inconsistent")
  else if p.pending.any (fun op => p.dag.contains (op.oid P) || p.depsAvailable op) then
    .error (.encoding "state pending operation is not pending")
  else .ok ()

/-- The operation accuses the identity and checks out. -/
def proves (p : Participant) (guilty : SigPublic) (op : Op) : Bool :=
  match op.body with
  | .accuse who _ _ _ => who = guilty && p.checkAccusation P op
  | _ => false

/-- The checks on a participant that is read back from storage. -/
def validateParticipant (p : Participant) : Except Error Unit := do
  validateContributionState P p
  if p.guilty.toList.any fun guilty =>
      !p.dag.ops.toList.any fun entry => proves P p guilty entry.2 then
    .error (.encoding "state guilty set lacks valid evidence")
  else .ok ()

/-- The same in words: contributions on record are stored, once and as contributions; what is
buffered is not stored and cannot be; and the guilty have been proven so. -/
structure Booked (p : Participant) : Prop where
  absorbed : ∀ o ∈ p.absorbed, Contribution p.dag o
  missing : ∀ o ∈ p.missing, Contribution p.dag o
  disjoint : ∀ o ∈ p.absorbed, o ∉ p.missing
  keys : ∀ o ∈ p.nodekeys.keys, Contribution p.dag o
  unstored : ∀ op ∈ p.pending, ¬p.dag.contains (op.oid P)
  waits : ∀ op ∈ p.pending, ¬p.depsAvailable op
  proven : ∀ who ∈ p.guilty, ∃ o acc coid key seq, p.dag.get o = some acc ∧
    acc.body = .accuse who coid key seq ∧ p.checkAccusation P acc

variable {P}

theorem check_ok_iff {c : Bool} {e : Error} {rest : Except Error Unit} :
    (if c then .error e else rest) = .ok () ↔ c = false ∧ rest = .ok () := by
  cases c <;> simp

theorem validateContributionState_ok_iff : validateContributionState P p = .ok () ↔
    ((∀ o ∈ p.absorbed, o ∉ p.missing) ∧ (∀ o ∈ p.absorbed, Contribution p.dag o) ∧
      (∀ o ∈ p.missing, Contribution p.dag o) ∧ ∀ o ∈ p.nodekeys.keys, Contribution p.dag o) ∧
    ∀ op ∈ p.pending, ¬p.dag.contains (op.oid P) ∧ ¬p.depsAvailable op := by
  unfold validateContributionState
  rw [check_ok_iff, check_ok_iff, and_iff_left rfl]
  simp [mem_contributions, and_assoc]

theorem proves_iff {who : SigPublic} {acc : Op} : proves P p who acc ↔
    ∃ coid key seq, acc.body = .accuse who coid key seq ∧ p.checkAccusation P acc := by
  unfold proves
  cases acc.body <;> simp

theorem seq_ok_iff {first rest : Except Error Unit} :
    (do first; rest) = .ok () ↔ first = .ok () ∧ rest = .ok () := by
  cases first with
  | error e => exact iff_of_false nofun nofun
  | ok u => exact (and_iff_right rfl).symm

theorem guilty_ok_iff : (p.guilty.toList.any fun guilty =>
      !p.dag.ops.toList.any fun entry => proves P p guilty entry.2) = false ↔
    ∀ who ∈ p.guilty, ∃ o acc coid key seq, p.dag.get o = some acc ∧
      acc.body = .accuse who coid key seq ∧ p.checkAccusation P acc := by
  simp only [List.any_eq_false, Std.ExtTreeSet.mem_toList, Bool.not_eq_true, Bool.not_eq_false',
    List.any_eq_true, proves_iff, Prod.exists, Std.ExtTreeMap.mem_toList_iff_getElem?_eq_some]
  refine forall₂_congr fun who _ => exists₂_congr fun o acc => ?_
  exact ⟨fun ⟨hget, coid, key, seq, h⟩ => ⟨coid, key, seq, hget, h⟩,
    fun ⟨coid, key, seq, hget, h⟩ => ⟨hget, coid, key, seq, h⟩⟩

theorem validateParticipant_ok_iff : validateParticipant P p = .ok () ↔ Booked P p := by
  unfold validateParticipant
  rw [seq_ok_iff, check_ok_iff, and_iff_left rfl, validateContributionState_ok_iff, guilty_ok_iff]
  constructor
  · rintro ⟨⟨⟨hdisjoint, habsorbed, hmissing, hkeys⟩, hpending⟩, hproven⟩
    exact ⟨habsorbed, hmissing, hdisjoint, hkeys, fun op hop => (hpending op hop).1,
      fun op hop => (hpending op hop).2, hproven⟩
  · intro h
    exact ⟨⟨⟨h.disjoint, h.absorbed, h.missing, h.keys⟩,
      fun op hop => ⟨h.unstored op hop, h.waits op hop⟩⟩, h.proven⟩

end Reload

/-! ## Runs -/

section Runs

variable (P)

/-- A message neither repairs the node of an operation whose slice still waits for an earlier one
nor brings an operation that depends on operations the participant has yet to sign. -/
def Careful (p : Participant) : Call → Prop
  | .handle wire => ∀ m, Message.fromWire P wire = .ok m →
      RepairsUnbuffered P p m ∧ ∀ op ∈ carried m, Timely P p op
  | _ => True

/-- The operations a participant has come across. -/
def Met (p : Participant) (op : Op) : Prop :=
  p.dag.get (op.oid P) = some op ∨ op ∈ p.pending ∨ op ∈ p.signed

/-- There is randomness and room left, and no two operations share an identifier. -/
structure Provided (p : Participant) : Prop where
  entropy : p.entropy ≠ []
  room : p.dag.ops.size < MAX_OPS
  distinct : ∀ a b, Met P p a → Met P p b → a.oid P = b.oid P → a = b

structure Managed (p : Participant) : Prop where
  consistent : Consistent P p
  books : Spent P p ∨ (Ledger P p ∧ Queue P p)

variable {P}

theorem Managed.call (hp : Managed P p) (c : Call) (hc : Careful P p c) :
    Managed P (c.run P p) := by
  refine ⟨Intake.Consistent.call hp.consistent c, ?_⟩
  have hsettles : Settles P p (c.run P p) := by
    refine call_settles hp.consistent c fun wire m hwire hm => ?_
    subst hwire
    exact (hc m hm).1
  rcases hp.books with hspent | ⟨hledger, hqueue⟩
  · exact Or.inl (hspent.steps hsettles.1)
  rcases hsettles.2 hledger with hspent | hledger
  · exact Or.inl hspent
  by_cases hwire : ∃ wire, c = .handle wire
  · obtain ⟨wire, rfl⟩ := hwire
    refine (handle_waits hp.consistent.steady wire hqueue.waits).imp_right fun hwaits => ?_
    exact ⟨hledger, hwaits, handle_timely hp.consistent.steady hqueue wire fun m hm => (hc m hm).2⟩
  · exact Or.inr ⟨hledger, Acts.queue (call_acts c fun wire heq => hwire ⟨wire, heq⟩) hqueue⟩

theorem created_managed {policy : Policy} {entropy : List Secret} {out : List Outbound}
    (h : create P policy entropy = .ok (out, p)) : Managed P p := by
  obtain ⟨identity, sid, seed0, prekey, rest, -, hfound⟩ := create_ok h
  have hblank : Consistent P (blank P identity sid policy seed0 (.at_ P 0 prekey) rest) :=
    blank_consistent ..
  have hacts := found_free (P := P) (p := blank P identity sid policy seed0 (.at_ P 0 prekey) rest)
  have hsettles := found_settles hblank
  rw [Moves, hfound] at hsettles
  rw [hfound] at hacts
  refine ⟨Acts.consistent hacts hblank, (hsettles.2 (blank_ledger ..)).imp_right fun hledger => ?_⟩
  have hempty : Queue P (blank P identity sid policy seed0 (.at_ P 0 prekey) rest) :=
    ⟨fun op hop => absurd hop List.not_mem_nil, fun op hop => absurd hop List.not_mem_nil⟩
  exact ⟨hledger, Acts.queue hacts hempty⟩

theorem Provided.not_spent (hp : Consistent P p) (h : Provided P p) : ¬Spent P p := by
  rintro (hempty | hfull | ⟨op, hsigned, other, hother, hne⟩)
  · exact h.entropy hempty
  · exact Nat.not_le.mpr h.room hfull
  · have hoid := hp.sound.keyed hother
    refine hne (h.distinct other op (Or.inl ?_) (Or.inr (Or.inr hsigned)) hoid)
    rw [hoid]
    exact hother

theorem Managed.booked (hp : Managed P p) (h : Provided P p) : Booked P p := by
  obtain ⟨hledger, hqueue⟩ := hp.books.resolve_left (h.not_spent hp.consistent)
  refine ⟨hledger.absorbed, hledger.missing, hledger.disjoint, fun o ho => ?_,
    fun op hop hold => ?_, hqueue.waits, fun who hwho => ?_⟩
  · exact hledger.absorbed o (hledger.held o ho)
  · obtain ⟨stored, hstored⟩ := contains_iff.mp hold
    have hoid := hp.consistent.sound.keyed hstored
    have hsame : stored = op := by
      refine h.distinct stored op (Or.inl ?_) (Or.inr (Or.inl hop)) hoid
      rw [hoid]
      exact hstored
    -- A stored operation has its dependencies, so it would not be waiting.
    refine hqueue.waits op hop (depsAvailable_iff.mpr ?_)
    rw [← hsame]
    exact fun d hd => (hp.consistent.sound.parent (hp.consistent.complete hstored d hd)).1
  · obtain ⟨acc, coid, key, seq, hacc, hbody, hcheck⟩ := hledger.proven who hwho
    exact ⟨acc.oid P, acc, coid, key, seq, hacc, hbody, hcheck⟩

end Runs

/-- A participant whose run from its founding is careful can be reloaded: its records of
contributions are disjoint and cover contributions it has stored, buffered operations are not stored
and miss a dependency, and whoever is guilty has been proven so. -/
theorem careful_run_booked {P : Primitives} {policy : Policy} {entropy : List Secret}
    {out : List Outbound} {p₀ p : Participant} (hstart : create P policy entropy = .ok (out, p₀))
    (hrun : RunUnder P (Careful P) p₀ p) (hprovided : Provided P p) :
    Booked P p ∧ validateParticipant P p = .ok () := by
  have hmanaged : Managed P p :=
    hrun.invariant (created_managed hstart) fun q c hq hc => hq.call c hc
  exact ⟨hmanaged.booked hprovided, validateParticipant_ok_iff.mpr (hmanaged.booked hprovided)⟩

/-! ## An operation that waits, and a node that is repaired too early -/

section Scenario

/-- A founder that has invited a guest and has some randomness left. -/
def inviter : Participant :=
  invitation.run toy (founded toy (.leaderless 2) ([1, 5, 6, 7] ++ List.replicate 8 11))

theorem inviter_run (ok : Participant → Call → Prop)
    (hok : ∀ q kp, ok q (.invite kp)) : ∃ out p₀,
      create toy (.leaderless 2) ([1, 5, 6, 7] ++ List.replicate 8 11) = .ok (out, p₀) ∧
        RunUnder toy ok p₀ inviter := by
  have hcreate : ∃ out, create toy (.leaderless 2) ([1, 5, 6, 7] ++ List.replicate 8 11) =
      .ok (out, founded toy (.leaderless 2) ([1, 5, 6, 7] ++ List.replicate 8 11)) :=
    create_founded (by decide +kernel)
  obtain ⟨out, hcreate⟩ := hcreate
  exact ⟨out, _, hcreate, .call invitation .start (hok _ _)⟩

/-- An operation of the guest whose dependency has the largest identifier there is. -/
def orphan : Op :=
  Op.create toy 2 5 (.ofList [BitVec.allOnes 256]) (.prekeys 1 4)

def orphaned : Participant :=
  (Call.handle (Message.op orphan).toWire).run toy inviter

theorem mix_lt (bytes : Bytes) : mix bytes < 2 ^ 256 - 189 := by
  unfold mix
  induction bytes using List.reverseRecOn with
  | nil => norm_num
  | append_singleton init last _ =>
      rw [List.foldl_append, List.foldl_cons, List.foldl_nil]
      apply Nat.mod_lt
      norm_num

theorem oid_ne_allOnes (op : Op) : op.oid toy ≠ BitVec.allOnes 256 := by
  intro h
  have hnat := congrArg BitVec.toNat h
  have hlt := mix_lt (absorbed (label "cfr/oid") [bytesOf (op.image toy), bytesOf op.sig])
  rw [BitVec.toNat_allOnes] at hnat
  change (BitVec.ofNat 256 (mix _)).toNat = _ at hnat
  rw [BitVec.toNat_ofNat] at hnat
  omega

theorem orphan_timely : Timely toy inviter orphan := by
  rintro d hd ⟨deps, body, hown⟩
  have hlast : d = BitVec.allOnes 256 := by
    have hmem : d ∈ (.ofList [BitVec.allOnes 256] : OidSet) := hd
    rw [Std.ExtTreeSet.mem_ofList, List.contains_iff_mem, List.mem_singleton] at hmem
    exact hmem
  exact absurd (hown.symm.trans hlast) (oid_ne_allOnes _)

theorem orphaned_checks : orphaned.pending = [orphan] ∧ orphaned.entropy ≠ [] ∧
    orphaned.dag.ops.size < MAX_OPS ∧
    (let known := orphaned.dag.ops.toList.map Prod.snd ++ orphaned.pending ++ orphaned.signed
    known.all fun a => known.all fun b => a.oid toy = b.oid toy → a = b) := by
  decide +kernel

theorem orphaned_provided : Provided toy orphaned where
  entropy := orphaned_checks.2.1
  room := orphaned_checks.2.2.1
  distinct a b ha hb hoid := by
    have hknown : ∀ op, Met toy orphaned op →
        op ∈ orphaned.dag.ops.toList.map Prod.snd ++ orphaned.pending ++ orphaned.signed := by
      rintro op (hstored | hpending | hsigned)
      · refine List.mem_append_left _ (List.mem_append_left _ ?_)
        refine List.mem_map.mpr ⟨(op.oid toy, op), ?_, rfl⟩
        exact Std.ExtTreeMap.mem_toList_iff_getElem?_eq_some.mpr hstored
      · exact List.mem_append_left _ (List.mem_append_right _ hpending)
      · exact List.mem_append_right _ hsigned
    have hall := List.all_eq_true.mp (List.all_eq_true.mp orphaned_checks.2.2.2 a (hknown a ha)) b
      (hknown b hb)
    exact of_decide_eq_true hall hoid

theorem orphaned_booked : orphaned.pending = [orphan] ∧ Booked toy orphaned ∧
    validateParticipant toy orphaned = .ok () := by
  obtain ⟨out, p₀, hcreate, hrun⟩ := inviter_run (Careful toy) fun _ _ => trivial
  have hfits : Message.Fits (.op orphan) := wired_of_compact trivial (by decide +kernel)
  have hcareful : Careful toy inviter (.handle (Message.op orphan).toWire) := by
    intro m hm
    cases (fromWire_toWire hfits).symm.trans hm
    refine ⟨fun oid key ⟨_, _, _, _, hresponse, _⟩ => ?_, fun op hop => ?_⟩
    · cases hresponse
    · obtain rfl := List.mem_singleton.mp hop
      exact orphan_timely
  exact ⟨orphaned_checks.1,
    careful_run_booked hcreate (hrun.call _ hcareful) orphaned_provided⟩

/-- A contribution of the guest whose slice for the founder is the second of its channel and does
not open. -/
def early : Op :=
  Op.create toy 2 5 inviter.dag.heads (.contrib (commitment toy 8) inviter.frontier [1]
    [{ recipient := 1, establish := some (0, 4), seq := 1, ct := [] }] 0)

/-- The founder has taken it in, and asks for its node. -/
def requesting : Participant :=
  Call.repairRequest.run toy ((Call.handle (Message.op early).toWire).run toy inviter)

def earlyKey : Message :=
  .nodeKeyResponse 2
    { eph := 9, gen := requesting.prekeys.generation
      ct := aeadSeal toy (envelopeKey toy (requesting.prekeys.pub ^^^ 9) 5 2 1)
        (envelopeNonce toy "repair" 5 9) (buildNodekeyPayload [(early.oid toy, 3)])
        (envelopeAd toy "cfr/repair/ad" 5 2 1) }

def repaired : Participant :=
  (Call.handle earlyKey.toWire).run toy requesting

/-- The first message key of the channel. -/
def firstKey : Secret :=
  let root := channelRoot toy (7 ^^^ 4) 5 2 1 0
  (RecvChan.new toy (kdf toy root "cfr/chan/data" [])).chan.currentKey toy

/-- A later contribution of the guest with the first slice of the channel. -/
def late : Op :=
  Op.create toy 2 5 repaired.dag.heads (.contrib (commitment toy 8) repaired.frontier [1]
    [{ recipient := 1, establish := none, seq := 0
       ct := aeadSeal toy firstKey (Participant.sliceNonce toy 5 (commitment toy 8) 1 0)
         (bytesOf (8 : Secret)) (Participant.contribAd toy (commitment toy 8) 0) }] 0)

def contradictory : Participant :=
  (Call.handle (Message.op late).toWire).run toy repaired

/-- All three messages are accepted.  The last one lets the slice that was held up be tried, and the
contribution is recorded as missing although its node was repaired. -/
theorem contradictory_not_booked : (∃ out p₀,
      create toy (.leaderless 2) ([1, 5, 6, 7] ++ List.replicate 8 11) = .ok (out, p₀) ∧
        RunUnder toy (fun _ _ => True) p₀ contradictory) ∧
    (handle toy (Message.op early).toWire inviter).1.isOk ∧
    (handle toy earlyKey.toWire requesting).1.isOk ∧
    (handle toy (Message.op late).toWire repaired).1.isOk ∧
    early.oid toy ∈ contradictory.absorbed ∧ early.oid toy ∈ contradictory.missing ∧
    ¬Booked toy contradictory ∧ validateParticipant toy contradictory ≠ .ok () := by
  obtain ⟨out, p₀, hcreate, hrun⟩ := inviter_run (fun _ _ => True) fun _ _ => trivial
  have hchecks : (handle toy (Message.op early).toWire inviter).1.isOk ∧
      (handle toy earlyKey.toWire requesting).1.isOk ∧
      (handle toy (Message.op late).toWire repaired).1.isOk ∧
      early.oid toy ∈ contradictory.absorbed ∧ early.oid toy ∈ contradictory.missing := by
    decide +kernel
  obtain ⟨hearly, hkey, hlate, habsorbed, hmissing⟩ := hchecks
  have hnot : ¬Booked toy contradictory := fun h => h.disjoint _ habsorbed hmissing
  refine ⟨⟨out, p₀, hcreate, ?_⟩, hearly, hkey, hlate, habsorbed, hmissing, hnot,
    fun h => hnot (validateParticipant_ok_iff.mp h)⟩
  exact (((hrun.call _ trivial).call .repairRequest trivial).call _ trivial).call _ trivial

end Scenario

end CausalFrontierRatchet.Bookkeeping
