import CausalFrontierRatchet.Intake

/-!
The books a participant keeps on contributions: which it has absorbed, which it is missing, whose
slices wait in the buffer of a channel, and on what evidence identities are held guilty.  Everything
is recorded for stored operations, a contribution is not both absorbed and missing, and one whose
slice is still buffered is not absorbed yet.  The books stay in order until the participant runs out
of randomness or of room for its own operations.
-/

namespace CausalFrontierRatchet.ContributionLedger

open Relation BigEndian Crypto Tlv Operation OperationGraph CausalMembership KeySchedule Channel
open Messages Commands Member MemberSteps MemberRuns FrontierKeys Ingest MemberActions Intake

variable {P : Primitives} {p p' : Participant}

/-! ## Buffered slices -/

/-- The operation that a buffered slice belongs to. -/
def named (payload : Bytes) : Oid :=
  ofBytes 256 (payload.take 32)

/-- A slice of the operation waits at a position of a receiving channel. -/
def InBuffer (p : Participant) (author : SigPublic) (i : UInt64) (o : Oid) : Prop :=
  ∃ state payload, p.recv[author]? = some state ∧ state.chan.buffer[i]? = some payload ∧
    named payload = o

theorem inBuffer_insert {author a : SigPublic} {state : RecvState} {prekeys : PrekeyPool}
    {i : UInt64} {o : Oid}
    (h : InBuffer { p with prekeys, recv := p.recv.insert author state } a i o) :
    (a = author ∧ ∃ payload, state.chan.buffer[i]? = some payload ∧ named payload = o) ∨
      (a ≠ author ∧ InBuffer p a i o) := by
  obtain ⟨found, payload, hfound, hpayload, hnamed⟩ := h
  rw [Std.ExtTreeMap.getElem?_insert] at hfound
  split_ifs at hfound with heq
  · cases hfound
    exact Or.inl ⟨(Std.compare_eq_iff_eq.mp heq).symm, payload, hpayload, hnamed⟩
  · refine Or.inr ⟨fun hsame => heq ?_, found, payload, hfound, hpayload, hnamed⟩
    rw [hsame]
    exact Std.ReflCmp.compare_self

theorem withRecv_cases {β : Type} (author : SigPublic) (f : RecvChan → β × RecvChan)
    (p : Participant) :
    (p.recv[author]? = none ∧ withRecv author f p = (.ok none, p)) ∨
      ∃ state, p.recv[author]? = some state ∧ withRecv author f p =
        (.ok (some (f state.chan).1),
          { p with recv := p.recv.insert author { state with chan := (f state.chan).2 } }) := by
  unfold withRecv
  rw [bind_run, get_run]
  cases hstate : p.recv[author]? with
  | none => exact Or.inl ⟨rfl, by simp only [hstate]; rfl⟩
  | some state =>
      refine Or.inr ⟨state, rfl, ?_⟩
      simp only [hstate]
      rfl

/-- Taking the awaited slice from a buffer leaves the others there. -/
theorem takeNext_ok {author : SigPublic} {seq : UInt64} {payload : Bytes} {key : Secret}
    (h : withRecv author (fun chan => chan.takeNext P) p =
      (.ok (some (some (seq, payload, key))), p')) :
    InBuffer p author seq (named payload) ∧
      (∃ state, p'.recv[author]? = some state ∧ state.chan.chan.next = seq ∧ seq ≠ LAST) ∧
      ∀ a i o, InBuffer p' a i o → InBuffer p a i o ∧ (a = author → i ≠ seq) := by
  rcases withRecv_cases author (fun chan => chan.takeNext P) p with
    ⟨-, hrun⟩ | ⟨state, hstate, hrun⟩
  · cases hrun.symm.trans h
  · obtain ⟨htaken, rfl⟩ := Prod.mk.inj (hrun.symm.trans h)
    have htaken : (state.chan.takeNext P).1 = some (seq, payload, key) :=
      Option.some.inj (Except.ok.inj htaken)
    unfold RecvChan.takeNext at htaken
    dsimp only at htaken
    split_ifs at htaken with hlast
    cases hbuffer : state.chan.buffer[state.chan.chan.next]? with
    | none => simp [hbuffer] at htaken
    | some found =>
        simp only [hbuffer, Option.some.injEq, Prod.mk.injEq] at htaken
        obtain ⟨rfl, rfl, rfl⟩ := htaken
        have hchan : (state.chan.takeNext P).2 =
            { state.chan with buffer := state.chan.buffer.erase state.chan.chan.next } := by
          simp [RecvChan.takeNext, hlast, hbuffer]
        refine ⟨⟨state, found, hstate, hbuffer, rfl⟩, ?_, fun a i o hin => ?_⟩
        · refine ⟨_, Std.ExtTreeMap.getElem?_insert_self, ?_, hlast⟩
          dsimp only
          rw [hchan]
        · rcases inBuffer_insert hin with ⟨rfl, payload, hpayload, hnamed⟩ | ⟨hne, hold⟩
          · dsimp only at hpayload
            rw [hchan, Std.ExtTreeMap.getElem?_erase] at hpayload
            split_ifs at hpayload with heq
            refine ⟨⟨state, payload, hstate, hpayload, hnamed⟩, fun _ hsame => heq ?_⟩
            rw [hsame]
            exact Std.ReflCmp.compare_self
          · exact ⟨hold, fun hsame => absurd hsame hne⟩

/-- Nothing enters a buffer when the awaited slice is looked for. -/
theorem takeNext_inBuffer {author a : SigPublic} {i : UInt64} {o : Oid}
    (h : InBuffer (withRecv author (fun chan => chan.takeNext P) p).2 a i o) :
    InBuffer p a i o := by
  rcases withRecv_cases author (fun chan => chan.takeNext P) p with
    ⟨-, hrun⟩ | ⟨state, hstate, hrun⟩
  · rwa [hrun] at h
  · rw [hrun] at h
    rcases inBuffer_insert h with ⟨rfl, payload, hpayload, hnamed⟩ | ⟨-, hold⟩
    · refine ⟨state, payload, hstate, ?_, hnamed⟩
      unfold RecvChan.takeNext at hpayload
      dsimp only at hpayload
      split_ifs at hpayload
      · exact hpayload
      · split at hpayload
        · exact hpayload
        · rw [Std.ExtTreeMap.getElem?_erase] at hpayload
          split_ifs at hpayload
          exact hpayload
    · exact hold

theorem named_slice (o : Oid) (ct : Bytes) : named (bytesOf o ++ ct) = o := by
  rw [named, List.take_left' (by simp), ofBytes_bytesOf (by decide)]

/-- A slice that is offered enters the buffer at its own position or yields the key of the awaited
position. -/
theorem offer_cases {author : SigPublic} (seq : UInt64) (o : Oid) (ct : Bytes)
    {r : Except Error (Option (Option Secret))}
    (h : withRecv author (fun chan => chan.offer P seq (bytesOf o ++ ct)) p = (r, p')) :
    (∃ key state, r = .ok (some (some key)) ∧ p'.recv[author]? = some state ∧
      state.chan.chan.next = seq ∧ seq ≠ LAST ∧ ∀ a i u, InBuffer p' a i u → InBuffer p a i u) ∨
    ((∀ key, r ≠ .ok (some (some key))) ∧ ∀ a i u, InBuffer p' a i u →
      InBuffer p a i u ∨ (a = author ∧ i = seq ∧ u = o)) := by
  rcases withRecv_cases author (fun chan => chan.offer P seq (bytesOf o ++ ct)) p with
    ⟨-, hrun⟩ | ⟨state, hstate, hrun⟩
  · cases hrun.symm.trans h
    exact Or.inr ⟨nofun, fun a i u hin => Or.inl hin⟩
  · obtain ⟨rfl, rfl⟩ := Prod.mk.inj (hrun.symm.trans h)
    have hkept : ∀ chan : RecvChan, chan.buffer = state.chan.buffer → ∀ a i u,
        InBuffer { p with recv := p.recv.insert author { state with chan } } a i u →
          InBuffer p a i u := by
      intro chan hbuffer a i u hin
      rcases inBuffer_insert hin with ⟨rfl, payload, hpayload, hnamed⟩ | ⟨-, hold⟩
      · dsimp only at hpayload
        rw [hbuffer] at hpayload
        exact ⟨state, payload, hstate, hpayload, hnamed⟩
      · exact hold
    unfold RecvChan.offer
    split_ifs with hpast hahead hroom hlast
    · exact Or.inr ⟨nofun, fun a i u hin => Or.inl (hkept _ rfl a i u hin)⟩
    · refine Or.inr ⟨nofun, fun a i u hin => ?_⟩
      rcases inBuffer_insert hin with ⟨rfl, payload, hpayload, hnamed⟩ | ⟨-, hold⟩
      · dsimp only at hpayload
        rw [Std.ExtTreeMap.getElem?_insertIfNew] at hpayload
        split_ifs at hpayload with hnew
        · cases hpayload
          refine Or.inr ⟨rfl, (Std.compare_eq_iff_eq.mp hnew.1).symm, ?_⟩
          rw [← hnamed, named_slice]
        · exact Or.inl ⟨state, payload, hstate, hpayload, hnamed⟩
      · exact Or.inl hold
    · exact Or.inr ⟨nofun, fun a i u hin => Or.inl (hkept _ rfl a i u hin)⟩
    · exact Or.inr ⟨nofun, fun a i u hin => Or.inl (hkept _ rfl a i u hin)⟩
    · refine Or.inl ⟨_, _, rfl, Std.ExtTreeMap.getElem?_insert_self, ?_, hlast, hkept _ rfl⟩
      exact UInt64.le_antisymm (UInt64.not_lt.mp hpast) (UInt64.not_lt.mp hahead)

/-! ## The books -/

section Books

variable (P)

/-- A verifying accusation of the identity is stored. -/
def Evidence (p : Participant) (who : SigPublic) : Prop :=
  ∃ acc coid key seq, p.dag.get (acc.oid P) = some acc ∧ acc.body = .accuse who coid key seq ∧
    p.checkAccusation P acc

structure Ledger (p : Participant) : Prop where
  absorbed : ∀ o ∈ p.absorbed, Contribution p.dag o
  missing : ∀ o ∈ p.missing, Contribution p.dag o
  disjoint : ∀ o ∈ p.absorbed, o ∉ p.missing
  held : ∀ o, p.nodekeys.contains o → o ∈ p.absorbed
  unopened : ∀ a i o, InBuffer p a i o → Contribution p.dag o ∧ o ∉ p.absorbed
  once : ∀ a i b j o, InBuffer p a i o → InBuffer p b j o → a = b ∧ i = j
  proven : ∀ who ∈ p.guilty, Evidence P p who

/-- The identifier of an operation it has signed is that of another stored one. -/
def Clash (p : Participant) : Prop :=
  ∃ op ∈ p.signed, ∃ other, p.dag.get (op.oid P) = some other ∧ other ≠ op

/-- The randomness is used up, the graph is full, or an identifier was taken. -/
def Spent (p : Participant) : Prop :=
  p.entropy = [] ∨ MAX_OPS ≤ p.dag.ops.size ∨ Clash P p

def Settled (p : Participant) : Prop :=
  Spent P p ∨ Ledger P p

/-- Any updates, as long as the books stay in order. -/
def Settles (p p' : Participant) : Prop :=
  Steps P (fun _ => True) (fun _ _ => True) p p' ∧ (Ledger P p → Settled P p')

/-- Nothing changes in the books, but the graph may grow and buffers may shrink. -/
structure Undisturbed (p p' : Participant) : Prop where
  steps : Steps P (fun _ => True) (fun _ _ => True) p p'
  absorbed : p'.absorbed = p.absorbed
  missing : p'.missing = p.missing
  nodekeys : p'.nodekeys = p.nodekeys
  guilty : p'.guilty = p.guilty
  buffers : ∀ a i o, InBuffer p' a i o → InBuffer p a i o

variable {P}

theorem Added.clash {op : Op} {dag : Dag} (hadd : Added P p.dag op dag) (h : Clash P p) :
    Clash P { p with dag } := by
  obtain ⟨own, hown, other, hother, hne⟩ := h
  exact ⟨own, hown, other, hadd.get_mono hother, hne⟩

theorem Spent.steps {src : Op → Prop} {rep : Oid → Secret → Prop} (h : Steps P src rep p p')
    (hp : Spent P p) : Spent P p' := by
  induction h with
  | refl => exact hp
  | tail _ hupdate ih =>
      have hgrows : ∀ {q : Participant} {op : Op} {dag : Dag}, Added P q.dag op dag →
          Spent P q → Spent P { q with dag } := by
        rintro q op dag hadd (hempty | hfull | hclash)
        · exact Or.inl hempty
        · refine Or.inr (Or.inl (hfull.trans ?_))
          rw [hadd.size]
          exact Nat.le_succ _
        · exact Or.inr (Or.inr (Added.clash hadd hclash))
      cases hupdate with
      | drawn h =>
          rcases ih with hempty | hfull | hclash
          · rw [hempty] at h
            cases h
          · exact Or.inr (Or.inl hfull)
          · exact Or.inr (Or.inr hclash)
      | signed body =>
          rcases ih with hempty | hfull | ⟨own, hown, hother⟩
          · exact Or.inl hempty
          · exact Or.inr (Or.inl hfull)
          · exact Or.inr (Or.inr ⟨own, List.mem_cons_of_mem _ hown, hother⟩)
      | own _ _ hadd => exact hgrows hadd ih
      | stored _ _ _ _ _ hadd => exact hgrows hadd ih
      | _ => exact ih

instance : Std.Refl (Settles P) where
  refl _ := ⟨ReflTransGen.refl, Or.inr⟩

instance : IsTrans Participant (Settles P) where
  trans _ _ _ h h' := by
    refine ⟨h.1.trans h'.1, fun hp => ?_⟩
    rcases h.2 hp with hspent | hledger
    · exact Or.inl (hspent.steps h'.1)
    · exact h'.2 hledger

instance : Std.Refl (Undisturbed P) where
  refl _ := ⟨ReflTransGen.refl, rfl, rfl, rfl, rfl, fun _ _ _ h => h⟩

instance : IsTrans Participant (Undisturbed P) where
  trans _ _ _ h h' :=
    { steps := h.steps.trans h'.steps
      absorbed := h'.absorbed.trans h.absorbed
      missing := h'.missing.trans h.missing
      nodekeys := h'.nodekeys.trans h.nodekeys
      guilty := h'.guilty.trans h.guilty
      buffers := fun a i o ho => h.buffers a i o (h'.buffers a i o ho) }

theorem Steps.contribution {src : Op → Prop} {rep : Oid → Secret → Prop} (h : Steps P src rep p p')
    {o : Oid} (ho : Contribution p.dag o) : Contribution p'.dag o := by
  obtain ⟨op, hop, hkind⟩ := ho
  exact ⟨op, h.keeps hop, hkind⟩

/-- An accusation that checks out does so in every larger graph. -/
theorem checkAccusation_mono {acc : Op} (hsid : p'.sid = p.sid)
    (hkeeps : ∀ o op, p.dag.get o = some op → p'.dag.get o = some op)
    (h : p.checkAccusation P acc) : p'.checkAccusation P acc := by
  unfold Participant.checkAccusation at h ⊢
  cases hbody : acc.body with
  | accuse who coid key seq =>
      simp only [hbody] at h ⊢
      cases hsrc : p.dag.get coid with
      | none => simp [hsrc] at h
      | some src =>
          simp only [hsrc] at h
          simp only [hkeeps coid src hsrc, hsid]
          exact h
  | _ => simp [hbody] at h

theorem Steps.evidence {src : Op → Prop} {rep : Oid → Secret → Prop} (h : Steps P src rep p p')
    {who : SigPublic} (hwho : Evidence P p who) : Evidence P p' who := by
  obtain ⟨acc, coid, key, seq, hacc, hbody, hcheck⟩ := hwho
  exact ⟨acc, coid, key, seq, h.keeps hacc, hbody,
    checkAccusation_mono h.sameParty.sid (fun _ _ => h.keeps) hcheck⟩

theorem Undisturbed.settles (h : Undisturbed P p p') : Settles P p p' := by
  refine ⟨h.steps, fun hp => Or.inr ⟨?_, ?_, ?_, ?_, ?_, ?_, ?_⟩⟩
  · rw [h.absorbed]
    exact fun o ho => Steps.contribution h.steps (hp.absorbed o ho)
  · rw [h.missing]
    exact fun o ho => Steps.contribution h.steps (hp.missing o ho)
  · rw [h.absorbed, h.missing]
    exact hp.disjoint
  · rw [h.absorbed, h.nodekeys]
    exact hp.held
  · intro a i o hin
    have hbuffered := hp.unopened a i o (h.buffers a i o hin)
    rw [h.absorbed]
    exact ⟨Steps.contribution h.steps hbuffered.1, hbuffered.2⟩
  · exact fun a i b j o ha hb => hp.once a i b j o (h.buffers a i o ha) (h.buffers b j o hb)
  · rw [h.guilty]
    exact fun who hwho => Steps.evidence h.steps (hp.proven who hwho)

theorem undisturbed_settles {α : Type} {c : Act α} (h : Moves (Undisturbed P) c p) :
    Moves (Settles P) c p :=
  Undisturbed.settles h

/-- A command may be looked at under the assumption that the books are in order before it. -/
theorem moves_of_ledger {α : Type} {c : Act α}
    (hsteps : Moves (Steps P (fun _ => True) fun _ _ => True) c p)
    (h : Ledger P p → Moves (Settles P) c p) : Moves (Settles P) c p :=
  ⟨hsteps, fun hp => (h hp).2 hp⟩

end Books

/-! ## Commands that leave the books alone -/

section Undisturbed

theorem draw_undisturbed : Moves (Undisturbed P) draw p := by
  refine moves_get ?_
  cases hentropy : p.entropy with
  | nil => exact moves_throw _ _
  | cons x rest => exact ⟨(Update.drawn hentropy).steps, rfl, rfl, rfl, rfl, fun _ _ _ h => h⟩

theorem publish_undisturbed (body : Body) : Moves (Undisturbed P) (publish P body) p := by
  have hsteps : Moves (Steps P (fun _ => True) fun _ _ => True) (publish P body) p :=
    publish_moves body
  rw [Moves, publish_state] at hsteps ⊢
  exact ⟨hsteps, rfl, rfl, rfl, rfl, fun _ _ _ h => h⟩

theorem channels_undisturbed {prekeys : PrekeyPool}
    {peerPrekeys : Std.ExtTreeMap SigPublic (UInt32 × DhPublic)}
    {send : Std.ExtTreeMap SigPublic Chan} :
    Undisturbed P p { p with prekeys, peerPrekeys, send } :=
  ⟨(Update.channels prekeys peerPrekeys send p.recv).steps, rfl, rfl, rfl, rfl, fun _ _ _ h => h⟩

theorem publishPrekeys_undisturbed : Moves (Undisturbed P) (publishPrekeys P) p :=
  moves_get (moves_bind (publish_undisturbed _) fun _ _ _ => moves_pure _ _)

theorem rotatePrekeys_undisturbed : Moves (Undisturbed P) (rotatePrekeys P) p := by
  refine moves_bind draw_undisturbed fun secret p₁ _ => ?_
  exact moves_bind (moves_modify channels_undisturbed) fun _ _ _ => publishPrekeys_undisturbed

theorem rotateWhen_undisturbed (due : Bool) : Moves (Undisturbed P) (rotateWhen P due) p := by
  unfold rotateWhen
  split_ifs
  · exact moves_bind rotatePrekeys_undisturbed fun _ _ _ => moves_pure _ _
  · exact moves_pure _ _

theorem learnPrekey_undisturbed (author : SigPublic) (gen : UInt32) (pk : DhPublic) :
    Moves (Undisturbed P) (learnPrekey author gen pk) p := by
  refine moves_modify ?_
  split
  · exact channels_undisturbed
  · split
    · exact channels_undisturbed
    · exact Std.Refl.refl p

theorem noteVersion_undisturbed : Moves (Undisturbed P) (noteVersion P) p :=
  ⟨noteVersion_moves, rfl, rfl, rfl, rfl, fun _ _ _ h => h⟩

/-- Moving a channel past a position leaves its buffer alone. -/
theorem commitRecv_undisturbed (author : SigPublic) (seq : UInt64) :
    Moves (Undisturbed P) (commitRecv P author seq) p := by
  refine moves_get ?_
  cases hstate : p.recv[author]? with
  | none => exact moves_pure _ _
  | some state =>
      refine moves_lift fun moved hcommit => moves_bind ?_ fun _ _ _ => moves_pure _ _
      have hbuffer : moved.2.buffer = state.chan.buffer := by
        unfold RecvChan.commit at hcommit
        split_ifs at hcommit
        · cases hcommit
          rfl
        · cases hadvance : state.chan.chan.advance P with
          | error e =>
              rw [hadvance] at hcommit
              cases hcommit
          | ok chan =>
              rw [hadvance] at hcommit
              cases hcommit
              rfl
      refine ⟨(Update.channels _ _ _ _).steps, rfl, rfl, rfl, rfl, fun a i o hin => ?_⟩
      rcases inBuffer_insert hin with ⟨rfl, payload, hpayload, hnamed⟩ | ⟨-, hold⟩
      · dsimp only at hpayload
        rw [hbuffer] at hpayload
        exact ⟨state, payload, hstate, hpayload, hnamed⟩
      · exact hold

theorem takeNext_undisturbed (author : SigPublic) :
    Moves (Undisturbed P) (withRecv author fun chan => chan.takeNext P) p := by
  have hsteps : Moves (Steps P (fun _ => True) fun _ _ => True)
      (withRecv author fun chan => chan.takeNext P) p := withRecv_moves author _
  have hbuffers : ∀ a i o, InBuffer (withRecv author (fun chan => chan.takeNext P) p).2 a i o →
      InBuffer p a i o := fun a i o => takeNext_inBuffer
  rcases withRecv_cases author (fun chan => chan.takeNext P) p with ⟨-, hrun⟩ | ⟨state, -, hrun⟩
  · rw [Moves, hrun]
    exact Std.Refl.refl p
  · rw [hrun] at hbuffers
    rw [Moves, hrun] at hsteps ⊢
    exact ⟨hsteps, rfl, rfl, rfl, rfl, hbuffers⟩

theorem setSend_undisturbed (who : SigPublic) (chan : Chan) :
    Moves (Undisturbed P) (setSend who chan) p :=
  channels_undisturbed

theorem establish_undisturbed (v : SigPublic) : Moves (Undisturbed P) (establish P v) p := by
  refine moves_get ?_
  split_ifs
  · exact moves_pure _ _
  · split
    · exact moves_throw _ _
    · refine moves_bind draw_undisturbed fun eph p₁ _ => ?_
      split
      · exact moves_throw _ _
      · exact moves_bind (setSend_undisturbed _ _) fun _ _ _ => moves_pure _ _

theorem sealSlices_undisturbed (cid : Cid) (ad : Bytes) (x : Secret) (recips : List SigPublic) :
    Moves (Undisturbed P) (sealSlices P cid ad x recips) p := by
  induction recips generalizing p with
  | nil => exact moves_pure _ _
  | cons v recips ih =>
      refine moves_bind ?_ fun slice p₁ _ => moves_bind ih fun _ _ _ => moves_pure _ _
      refine moves_bind (establish_undisturbed v) fun est p₂ _ => moves_get ?_
      split
      · exact moves_throw _ _
      · refine moves_lift fun stepped _ => ?_
        exact moves_bind (setSend_undisturbed _ _) fun _ _ _ => moves_pure _ _

end Undisturbed

/-! ## Entries -/

section Entries

/-- The books do not know the operation yet. -/
def Unseen (p : Participant) (o : Oid) : Prop :=
  o ∉ p.absorbed ∧ ∀ a i, ¬InBuffer p a i o

theorem Undisturbed.unseen (h : Undisturbed P p p') {o : Oid} (ho : Unseen p o) : Unseen p' o := by
  refine ⟨?_, fun a i hin => ho.2 a i (h.buffers a i o hin)⟩
  rw [h.absorbed]
  exact ho.1

theorem contribution_of_body {op : Op} {cid : Cid} {cparents : OidSet} {recips : List SigPublic}
    {slices : List Slice} {view : BitVec 256}
    (hbody : op.body = .contrib cid cparents recips slices view)
    (hheld : p.dag.get (op.oid P) = some op) : Contribution p.dag (op.oid P) :=
  ⟨op, hheld, by rw [Op.kind, hbody]; rfl⟩

theorem markMissing_settles {o : Oid}
    (h : Ledger P p → Contribution p.dag o ∧ o ∉ p.absorbed) :
    Moves (Settles P) (markMissing o) p := by
  refine ⟨markMissing_moves o, fun hp => Or.inr { hp with missing := ?_, disjoint := ?_ }⟩
  · intro u hu
    rcases Std.ExtTreeSet.mem_insert.mp hu with heq | hold
    · rw [← Std.compare_eq_iff_eq.mp heq]
      exact (h hp).1
    · exact hp.missing u hold
  · intro u hu hmem
    rcases Std.ExtTreeSet.mem_insert.mp hmem with heq | hold
    · rw [← Std.compare_eq_iff_eq.mp heq] at hu
      exact (h hp).2 hu
    · exact hp.disjoint u hu hold

/-- A node key is entered for a stored contribution without a buffered slice. -/
theorem Ledger.learned {o : Oid} (hp : Ledger P p) (ho : Contribution p.dag o)
    (hunbuffered : ∀ a i, ¬InBuffer p a i o) (key : Secret) :
    Ledger P { p with
      nodekeys := p.nodekeys.insert o key
      absorbed := p.absorbed.insert o
      missing := p.missing.erase o } where
  absorbed u hu := by
    rcases Std.ExtTreeSet.mem_insert.mp hu with heq | hold
    · rwa [← Std.compare_eq_iff_eq.mp heq]
    · exact hp.absorbed u hold
  missing u hu := hp.missing u (Std.ExtTreeSet.mem_erase.mp hu).2
  disjoint u hu hmem := by
    obtain ⟨hne, hmissing⟩ := Std.ExtTreeSet.mem_erase.mp hmem
    rcases Std.ExtTreeSet.mem_insert.mp hu with heq | hold
    · exact hne heq
    · exact hp.disjoint u hold hmissing
  held u hu := by
    obtain ⟨k, hk⟩ := NodeKeys.contains_iff_peek.mp hu
    have hpeek := NodeKeys.peek_insert hk
    rw [Std.ExtTreeSet.mem_insert, Std.compare_eq_iff_eq]
    split_ifs at hpeek with heq
    · exact Or.inl heq
    · exact Or.inr (hp.held u (NodeKeys.contains_iff_peek.mpr ⟨k, hpeek⟩))
  unopened a i u hin := by
    refine ⟨(hp.unopened a i u hin).1, fun hmem => ?_⟩
    rcases Std.ExtTreeSet.mem_insert.mp hmem with heq | hold
    · rw [← Std.compare_eq_iff_eq.mp heq] at hin
      exact hunbuffered a i hin
    · exact (hp.unopened a i u hin).2 hold
  once := hp.once
  proven := hp.proven

theorem absorb_settles {op : Op} (x : Secret) (hheld : p.dag.get (op.oid P) = some op)
    (hunbuffered : Ledger P p → ∀ a i, ¬InBuffer p a i (op.oid P)) :
    Moves (Settles P) (absorb P op x) p := by
  unfold absorb
  split
  · rename_i cid cparents _ _ _ hbody
    have hcontribution := contribution_of_body hbody hheld
    refine moves_get ?_
    dsimp only
    by_cases hold : p.absorbed.contains (op.oid P)
    · rw [if_pos hold]
      exact moves_pure _ _
    have hnew : op.oid P ∉ p.absorbed := by
      simpa [← Std.ExtTreeSet.contains_iff_mem] using hold
    by_cases hcid : commitment P x = cid
    · rw [if_neg hold, if_neg (not_not.mpr hcid)]
      split
      · rename_i parent hparent
        exact ⟨(Update.absorbed (Or.inl hheld) hbody hnew hcid hparent).steps,
          fun hp => Or.inr (hp.learned hcontribution (hunbuffered hp) _)⟩
      · exact moves_bind (markMissing_settles fun _ => ⟨hcontribution, hnew⟩) fun _ _ _ =>
          moves_throw _ _
    · rw [if_neg hold, if_pos hcid]
      exact moves_throw _ _
  · exact moves_throw _ _

theorem Ledger.convicted {who : SigPublic} (hp : Ledger P p) (hwho : Evidence P p who) :
    Ledger P { p with guilty := p.guilty.insert who } := by
  refine { hp with proven := fun u hu => ?_ }
  rcases Std.ExtTreeSet.mem_insert.mp hu with heq | hold
  · rw [← Std.compare_eq_iff_eq.mp heq]
    exact hwho
  · exact hp.proven u hold

/-- What is signed on top of all heads is not stored yet. -/
theorem sign_absent (hsound : Sound P p.dag) (hcomplete : Complete p.dag) (body : Body) :
    p.dag.get ((p.sign P body).oid P) ≠ some (p.sign P body) := by
  intro hget
  obtain ⟨b, hb, -⟩ := hsound.exists_head (contains_iff.mpr ⟨_, hget⟩)
  exact (mem_heads.mp hb).2 _ (hcomplete hget b hb)

/-- A signed operation is stored, or its identifier was taken, or the graph is full. -/
theorem published_stored (p : Participant) (body : Body) :
    Spent P (published P p body) ∨
      (published P p body).dag.get ((p.sign P body).oid P) = some (p.sign P body) := by
  rcases add_cases (P := P) p.dag (p.sign P body) with ⟨e, he⟩ | ⟨hold, hrun⟩ | ⟨dag, hadd, hrun⟩
  · refine Or.inl (Or.inr (Or.inl ?_))
    rw [published, he]
    exact add_full (congrArg Prod.fst he)
  · obtain ⟨other, hother⟩ := contains_iff.mp hold
    have hdag : (published P p body).dag = p.dag := by rw [published, hrun]
    by_cases hsame : other = p.sign P body
    · right
      rw [hdag, hother, hsame]
    · refine Or.inl (Or.inr (Or.inr ⟨_, List.mem_cons_self, other, ?_, hsame⟩))
      rw [hdag, hother]
  · right
    rw [published, hrun, hadd.get, if_pos rfl]

theorem judge_cases (acc : Op) (who : SigPublic) :
    ∃ guilty, judge P acc who p = (.ok (), { p with guilty }) ∧
      (guilty = p.guilty ∨ (p.checkAccusation P acc ∧ guilty = p.guilty.insert who)) := by
  by_cases h : p.checkAccusation P acc
  · exact ⟨p.guilty.insert who, by simp [judge, bind_run, h, markGuilty], Or.inr ⟨h, rfl⟩⟩
  · exact ⟨p.guilty, by simp [judge, bind_run, h], Or.inl rfl⟩

/-- An author is convicted before the accusation is stored, so the evidence is there unless the
graph does not take it. -/
theorem accuseAuthor_settles (op : Op) (key : Secret) (seq : UInt64) :
    Moves (Settles P) (accuseAuthor P op key seq) p := by
  refine ⟨accuseAuthor_moves op key seq, fun hp => ?_⟩
  have hquiet := publish_undisturbed (P := P) (p := p) (.accuse op.author (op.oid P) key seq)
  rw [Moves, publish_state] at hquiet
  obtain ⟨guilty, hrun, hguilty⟩ := judge_cases (P := P) (p := { p with signed := _ })
    (p.sign P (.accuse op.author (op.oid P) key seq)) op.author
  rw [accuseAuthor_state hrun]
  rcases hguilty with rfl | ⟨hcheck, rfl⟩
  · exact hquiet.settles.2 hp
  · rcases published_stored (P := P) p (.accuse op.author (op.oid P) key seq) with hspent | hstored
    · exact Or.inl hspent
    · rcases hquiet.settles.2 hp with hspent | hledger
      · exact Or.inl hspent
      · refine Or.inr (hledger.convicted ⟨_, _, _, _, hstored, rfl, ?_⟩)
        exact checkAccusation_mono (p := { p with signed := _ }) rfl (fun _ _ => published_keeps)
          hcheck

end Entries

/-! ## Inbound contributions -/

section Inbound

theorem openSlice_settles {op : Op} {cid : Cid} {cparents : OidSet} {recips : List SigPublic}
    {slices : List Slice} {view : BitVec 256} (key : Secret) (seq : UInt64) (ad : Bytes)
    (hbody : op.body = .contrib cid cparents recips slices view)
    (hheld : p.dag.get (op.oid P) = some op) (hunseen : Ledger P p → Unseen p (op.oid P)) :
    Moves (Settles P) (openSlice P op key seq ad) p := by
  have hcontribution := contribution_of_body hbody hheld
  unfold openSlice
  refine moves_get ?_
  simp only [hbody]
  split
  · exact moves_pure _ _
  · split
    · exact moves_bind (markMissing_settles fun hp => ⟨hcontribution, (hunseen hp).1⟩) fun _ _ _ =>
        moves_pure _ _
    · refine moves_bind (moves_attempt (absorb_settles _ hheld fun hp => (hunseen hp).2))
        fun r p₁ _ => ?_
      split
      · exact moves_pure _ _
      · exact moves_pure _ _
      · exact moves_bind (accuseAuthor_settles _ _ _) fun _ _ _ => moves_pure _ _
      · exact moves_throw _ _

theorem drainSlices_settles (hp : Steady P p) (author : SigPublic) (fuel : ℕ) :
    Moves (Settles P) (drainSlices P author fuel) p := by
  induction fuel generalizing p with
  | zero => exact moves_pure _ _
  | succ fuel ih =>
      refine moves_of_ledger (drainSlices_moves hp author (fuel + 1)) fun hledger => ?_
      refine moves_seq (undisturbed_settles (takeNext_undisturbed author))
        fun taken p₁ htake hrun => ?_
      split
      · rename_i seq payload key
        obtain ⟨hin, -, hothers⟩ := takeNext_ok hrun
        have hquiet := (takeNext_undisturbed (P := P) author).run hrun
        -- The slice was the only one of its operation, which is therefore unseen from here on.
        have hunseen : Unseen p₁ (named payload) := by
          refine ⟨?_, fun a i hagain => ?_⟩
          · rw [hquiet.absorbed]
            exact (hledger.unopened _ _ _ hin).2
          · obtain ⟨hbefore, hne⟩ := hothers a i _ hagain
            obtain ⟨rfl, rfl⟩ := hledger.once _ _ _ _ _ hbefore hin
            exact hne rfl rfl
        have hcontribution : Contribution p₁.dag (named payload) :=
          Steps.contribution hquiet.steps (hledger.unopened _ _ _ hin).1
        refine moves_get ?_
        split
        · rename_i buffered hget
          split
          · rename_i hbody
            have hp₁ := htake.1.steady hp
            have hoid : buffered.oid P = named payload := hp₁.sound.keyed hget
            have hheld : p₁.dag.get (buffered.oid P) = some buffered := by rw [hoid]; exact hget
            refine moves_seq (openSlice_settles _ _ _ hbody hheld fun _ => hoid ▸ hunseen)
              fun authentic p₂ hopen _ => ?_
            split
            · refine moves_seq (undisturbed_settles (commitRecv_undisturbed author _))
                fun moved p₃ hcommit _ => ?_
              split
              · exact ih (hcommit.1.steady (hopen.1.steady hp₁))
              · exact moves_pure _ _
            · exact moves_pure _ _
          · exact markMissing_settles fun _ => ⟨hcontribution, hunseen.1⟩
        · exact markMissing_settles fun _ => ⟨hcontribution, hunseen.1⟩
      · exact moves_pure _ _

/-- A slice that enters a buffer is the first of its operation to do so. -/
theorem Ledger.buffered (author : SigPublic) (seq : UInt64) {o : Oid} (hp : Ledger P p)
    (ho : Contribution p.dag o) (hunseen : Unseen p o)
    {recv : Std.ExtTreeMap SigPublic RecvState}
    (hin : ∀ a i u, InBuffer { p with recv } a i u →
      InBuffer p a i u ∨ (a = author ∧ i = seq ∧ u = o)) : Ledger P { p with recv } where
  absorbed := hp.absorbed
  missing := hp.missing
  disjoint := hp.disjoint
  held := hp.held
  unopened a i u hu := by
    rcases hin a i u hu with hold | ⟨-, -, rfl⟩
    · exact hp.unopened a i u hold
    · exact ⟨ho, hunseen.1⟩
  once a i b j u ha hb := by
    rcases hin a i u ha with hold | ⟨rfl, rfl, rfl⟩
    · rcases hin b j u hb with hold' | ⟨-, -, rfl⟩
      · exact hp.once a i b j u hold hold'
      · exact absurd hold (hunseen.2 a i)
    · rcases hin b j u hb with hold' | ⟨rfl, rfl, -⟩
      · exact absurd hold' (hunseen.2 b j)
      · exact ⟨rfl, rfl⟩
  proven := hp.proven

theorem offerSlice_settles (hp : Steady P p) {op : Op} {cid : Cid} {cparents : OidSet}
    {recips : List SigPublic} {slices : List Slice} {view : BitVec 256}
    (hbody : op.body = .contrib cid cparents recips slices view)
    (hheld : p.dag.get (op.oid P) = some op) (hunseen : Ledger P p → Unseen p (op.oid P))
    (slice : Slice) : Moves (Settles P) (offerSlice P op cid view slice) p := by
  refine moves_of_ledger (offerSlice_moves hp cid view slice hheld) fun hledger => ?_
  have hunseen := hunseen hledger
  have hrecv : ∃ recv, (withRecv op.author (fun chan =>
      chan.offer P slice.seq (bytesOf (op.oid P) ++ slice.ct)) p).2 = { p with recv } := by
    rcases withRecv_cases op.author (fun chan =>
      chan.offer P slice.seq (bytesOf (op.oid P) ++ slice.ct)) p with ⟨-, hrun⟩ | ⟨state, -, hrun⟩
    · exact ⟨p.recv, by rw [hrun]⟩
    · exact ⟨_, by rw [hrun]⟩
  have hoffer : Moves (Settles P) (withRecv op.author fun chan =>
      chan.offer P slice.seq (bytesOf (op.oid P) ++ slice.ct)) p := by
    refine ⟨withRecv_moves _ _, fun _ => Or.inr ?_⟩
    obtain ⟨recv, heq⟩ := hrecv
    cases hrun : withRecv op.author (fun chan =>
        chan.offer P slice.seq (bytesOf (op.oid P) ++ slice.ct)) p with
    | mk r p₁ =>
        rw [hrun] at heq
        subst heq
        rcases offer_cases slice.seq (op.oid P) slice.ct hrun with
          ⟨-, -, -, -, -, -, hin⟩ | ⟨-, hin⟩
        · exact hledger.buffered op.author slice.seq (contribution_of_body hbody hheld) hunseen
            fun a i u hu => Or.inl (hin a i u hu)
        · exact hledger.buffered op.author slice.seq (contribution_of_body hbody hheld) hunseen hin
  refine moves_seq hoffer fun offered p₁ hsettles hrun => ?_
  split
  · rename_i key
    have hunseen₁ : Unseen p₁ (op.oid P) := by
      rcases offer_cases slice.seq (op.oid P) slice.ct hrun with ⟨_, _, -, -, -, -, hin⟩ | ⟨hnot, -⟩
      · obtain ⟨recv, heq⟩ := hrecv
        rw [hrun] at heq
        subst heq
        exact ⟨hunseen.1, fun a i hagain => hunseen.2 a i (hin a i _ hagain)⟩
      · exact absurd rfl (hnot key)
    refine moves_seq (openSlice_settles _ _ _ hbody (hsettles.1.keeps hheld) fun _ => hunseen₁)
      fun authentic p₂ hopen _ => ?_
    split
    · refine moves_seq (undisturbed_settles (commitRecv_undisturbed _ _))
        fun moved p₃ hcommit _ => ?_
      split
      · exact moves_throw _ _
      · exact moves_get (drainSlices_settles
          (hcommit.1.steady (hopen.1.steady (hsettles.1.steady hp))) _ _)
    · exact moves_pure _ _
  · exact moves_pure _ _

/-- A channel that is opened starts with an empty buffer. -/
theorem newChannel_undisturbed (prekeys : PrekeyPool) (author : SigPublic) (eph : DhPublic)
    (root : Secret) : Undisturbed P p { p with
      prekeys, recv := p.recv.insert author ⟨eph, RecvChan.new P root⟩ } := by
  refine ⟨(Update.channels _ _ _ _).steps, rfl, rfl, rfl, rfl, fun a i o hin => ?_⟩
  rcases inBuffer_insert hin with ⟨-, payload, hpayload, -⟩ | ⟨-, hold⟩
  · simp [RecvChan.new] at hpayload
  · exact hold

theorem openChannel_proceeds {op : Op} {gen : UInt32} {eph : DhPublic}
    (h : openChannel P op gen eph p = (.ok .proceed, p')) : Undisturbed P p p' := by
  unfold openChannel at h
  obtain ⟨_, _, hget, h⟩ := bind_ok h
  cases hget
  split at h
  · cases h
    exact Std.Refl.refl p
  split at h
  · obtain ⟨_, _, -, h⟩ := bind_ok h
    cases h
  · rcases hagree : p.prekeys.agreeFor P op.author eph (p.members.filter fun m => m ≠ p.ipk) with
      ⟨_ | shared, prekeys⟩
    · simp only [hagree] at h
      obtain ⟨_, _, -, h⟩ := bind_ok h
      obtain ⟨_, _, -, h⟩ := bind_ok h
      cases h
    · simp only [hagree] at h
      obtain ⟨_, _, hset, h⟩ := bind_ok h
      cases h
      cases hset
      exact newChannel_undisturbed _ _ _ _

theorem announce_proceeds {op : Op} {announced : Option (UInt32 × DhPublic)}
    (h : announce P op announced p = (.ok .proceed, p')) : Undisturbed P p p' := by
  cases announced with
  | none =>
      cases h
      exact Std.Refl.refl p
  | some est => exact openChannel_proceeds h

theorem openChannel_settles {op : Op} (gen : UInt32) (eph : DhPublic)
    (hcontribution : Contribution p.dag (op.oid P))
    (hunseen : Ledger P p → Unseen p (op.oid P)) :
    Moves (Settles P) (openChannel P op gen eph) p := by
  have hmark : Moves (Settles P) (markMissing (op.oid P)) p :=
    markMissing_settles fun hp => ⟨hcontribution, (hunseen hp).1⟩
  refine moves_get ?_
  dsimp only
  split
  · exact moves_pure _ _
  split
  · exact moves_bind hmark fun _ _ _ => moves_pure _ _
  split
  · refine moves_bind hmark fun _ _ _ => ?_
    exact moves_bind (undisturbed_settles rotatePrekeys_undisturbed) fun _ _ _ => moves_pure _ _
  · exact moves_bind (newChannel_undisturbed _ _ _ _).settles fun _ _ _ => moves_pure _ _

theorem receiveContribution_settles (hp : Steady P p) {op : Op}
    (hheld : p.dag.get (op.oid P) = some op) (hunseen : Ledger P p → Unseen p (op.oid P)) :
    Moves (Settles P) (receiveContribution P op) p := by
  refine moves_of_ledger (receiveContribution_moves hp hheld) fun hledger => moves_get ?_
  split
  · rename_i hbody
    split
    · exact moves_pure _ _
    · rename_i slice _
      have hcontribution := contribution_of_body hbody hheld
      have hannounce : Moves (Settles P) (announce P op slice.establish) p := by
        unfold announce
        split
        · exact openChannel_settles _ _ hcontribution hunseen
        · exact moves_pure _ _
      refine moves_seq hannounce fun opening p₁ hopening hrun => ?_
      split
      · exact moves_pure _ _
      · have hknown := (announce_proceeds hrun).unseen (hunseen hledger)
        exact moves_bind (offerSlice_settles (hopening.1.steady hp) hbody (hopening.1.keeps hheld)
          (fun _ => hknown) slice) fun _ _ _ => moves_pure _ _
  · exact moves_pure _ _

theorem applyOp_settles (hp : Steady P p) {op : Op} (hheld : p.dag.get (op.oid P) = some op)
    (hunseen : Ledger P p → Unseen p (op.oid P)) : Moves (Settles P) (applyOp P op) p := by
  refine moves_get ?_
  split
  · exact moves_bind (undisturbed_settles (learnPrekey_undisturbed _ _ _)) fun _ _ _ =>
      moves_pure _ _
  · exact receiveContribution_settles hp hheld hunseen
  · rename_i who coid key seq hbody
    refine moves_bind ⟨judge_moves (Or.inl hheld) hbody, fun hledger => ?_⟩ fun _ _ _ =>
      moves_pure _ _
    obtain ⟨guilty, hrun, hguilty⟩ := judge_cases (P := P) (p := p) op who
    rw [hrun]
    rcases hguilty with rfl | ⟨hcheck, rfl⟩
    · exact Or.inr hledger
    · exact Or.inr (hledger.convicted ⟨op, coid, key, seq, hheld, hbody, hcheck⟩)
  · exact undisturbed_settles (rotateWhen_undisturbed _)
  · exact undisturbed_settles (rotateWhen_undisturbed _)
  · exact moves_pure _ _

/-- An operation that is not stored yet is unknown to the books. -/
theorem Ledger.unseen (hp : Ledger P p) {o : Oid} (hnew : ¬p.dag.contains o) : Unseen p o := by
  have habsent : ¬Contribution p.dag o := fun ⟨op, hop, _⟩ => hnew (contains_iff.mpr ⟨op, hop⟩)
  exact ⟨fun hmem => habsent (hp.absorbed o hmem),
    fun a i hin => habsent (hp.unopened a i o hin).1⟩

theorem pending_undisturbed (pending : List Op) : Undisturbed P p { p with pending } :=
  ⟨(Update.pending fun _ _ => trivial).steps, rfl, rfl, rfl, rfl, fun _ _ _ h => h⟩

theorem steady_tidy (hp : Steady P p) : Tidy P (fun _ => True) p :=
  ⟨hp.sound, hp.parked, fun _ _ => trivial⟩

theorem ingest_settles (hp : Steady P p) (op : Op) : Moves (Settles P) (ingest P op) p := by
  refine moves_of_ledger (ingest_moves (steady_tidy hp) trivial) fun hledger => ?_
  have houtcome := ingest_outcome hp op
  unfold Moves
  generalize ingest P op p = result at houtcome
  cases houtcome with
  | invalid h => exact Std.Refl.refl p
  | known h => exact Std.Refl.refl p
  | waiting hsid hsig hnew hdeps =>
      obtain ⟨pending, heq, -⟩ := park_eq (p := p) op
      rw [heq]
      exact (pending_undisturbed pending).settles
  | unauthorised hdeps hauth => exact Std.Refl.refl p
  | full h => exact Std.Refl.refl p
  | @stored dag h =>
      have hstore : Undisturbed P p { p with dag } :=
        ⟨(Update.stored trivial h.sid h.verified h.deps h.authorised h.added).steps, rfl, rfl, rfl,
          rfl, fun _ _ _ hin => hin⟩
      have hheld : ({ p with dag } : Participant).dag.get (op.oid P) = some op := by
        rw [h.added.get, if_pos rfl]
      refine IsTrans.trans _ _ _ hstore.settles ?_
      exact applyOp_settles (hstore.steps.steady hp) hheld fun _ =>
        hstore.unseen (hledger.unseen (by rw [h.added.fresh]; exact Bool.false_ne_true))

end Inbound

/-! ## Messages -/

section Messages

theorem ingestAll_settles (hp : Steady P p) (ops : List Op) :
    Moves (Settles P) (ingestAll P ops) p := by
  induction ops generalizing p with
  | nil => exact moves_pure _ _
  | cons op ops ih =>
      refine moves_seq (moves_attempt (ingest_settles hp op)) fun first p₁ hfirst _ => ?_
      exact moves_bind (ih (hfirst.1.steady hp)) fun _ _ _ => moves_pure _ _

theorem drainPass_settles (hp : Steady P p) (waiting : List Op) :
    Moves (Settles P) (drainPass P waiting) p := by
  induction waiting generalizing p with
  | nil => exact moves_pure _ _
  | cons op waiting ih =>
      refine moves_get ?_
      split
      · exact moves_bind (ih hp) fun _ _ _ => moves_pure _ _
      · refine moves_seq (moves_attempt (ingest_settles hp op)) fun first p₁ hfirst _ => ?_
        split
        · exact moves_bind (ih (hfirst.1.steady hp)) fun _ _ _ => moves_pure _ _
        · exact ih (hfirst.1.steady hp)

theorem drainRounds_settles (hp : Steady P p) (rounds : ℕ) (waiting : List Op) :
    Moves (Settles P) (drainRounds P rounds waiting) p := by
  induction rounds generalizing p waiting with
  | zero => exact moves_bind (pending_undisturbed waiting).settles fun _ _ _ => moves_pure _ _
  | succ rounds ih =>
      refine moves_seq (drainPass_settles hp waiting) fun result p₁ hpass _ => ?_
      obtain ⟨deferred, progressed, out⟩ := result
      cases progressed with
      | true => exact moves_bind (ih (hpass.1.steady hp) deferred) fun _ _ _ => moves_pure _ _
      | false =>
          exact moves_bind (pending_undisturbed deferred).settles fun _ _ _ => moves_pure _ _

theorem drainPending_settles (hp : Steady P p) : Moves (Settles P) (drainPending P) p := by
  refine moves_get (moves_bind (pending_undisturbed []).settles fun _ p₁ hclear => ?_)
  cases hclear
  have hempty : Steady P { p with pending := [] } := ⟨hp.sound, hp.parked⟩
  exact drainRounds_settles hempty _ _

theorem sealEnvelope_undisturbed (adLabel nonceLabel : String) (recipient : SigPublic)
    (gen : UInt32) (pk : DhPublic) (payload : Bytes) :
    Moves (Undisturbed P) (sealEnvelope P adLabel nonceLabel recipient gen pk payload) p := by
  refine moves_get (moves_bind draw_undisturbed fun eph p₁ _ => ?_)
  split
  · exact moves_throw _ _
  · exact moves_pure _ _

theorem answerNodeKeysFor_undisturbed (recipient : SigPublic) (nodes : List Oid) :
    Moves (Undisturbed P) (answerNodeKeysFor P recipient nodes) p := by
  refine moves_get ?_
  dsimp only
  split_ifs
  · exact moves_pure _ _
  · exact moves_pure _ _
  · split
    · exact moves_throw _ _
    · exact moves_bind (sealEnvelope_undisturbed _ _ _ _ _ _) fun _ _ _ => moves_pure _ _

theorem learnWanted_settles (want : OidSet) {entries : List (Oid × Secret)}
    (hwant : ∀ o ∈ want, Contribution p.dag o)
    (hunbuffered : ∀ entry ∈ entries, entry.1 ∈ want → ∀ a i, ¬InBuffer p a i entry.1) :
    Moves (Settles P) (learnWanted want entries) p := by
  induction entries generalizing p with
  | nil => exact moves_pure _ _
  | cons entry entries ih =>
      obtain ⟨o, key⟩ := entry
      have hrest := fun e he => hunbuffered e (List.mem_cons_of_mem (o, key) he)
      unfold learnWanted
      by_cases hcontains : want.contains o
      · rw [if_pos hcontains]
        have hmem := Std.ExtTreeSet.contains_iff_mem.mp hcontains
        refine moves_bind ⟨(Update.repaired trivial).steps, fun hp => Or.inr (hp.learned
          (hwant o hmem) (hunbuffered (o, key) List.mem_cons_self hmem) key)⟩ fun _ p₁ hlearn => ?_
        cases hlearn
        exact ih hwant hrest
      · rw [if_neg hcontains]
        refine moves_bind (moves_pure _ _) fun _ p₁ hpure => ?_
        cases hpure
        exact ih hwant hrest

variable (P) in
/-- No node key that the message repairs is that of an operation whose slice still waits. -/
def RepairsUnbuffered (p : Participant) (m : Message) : Prop :=
  ∀ oid key, Repairs P p m oid key → ∀ a i, ¬InBuffer p a i oid

theorem absorbNodeKeys_settles (sender : SigPublic) (sealed : Envelope)
    (h : RepairsUnbuffered P p (.nodeKeyResponse sender sealed)) :
    Moves (Settles P) (absorbNodeKeys P sender sealed) p := by
  refine moves_get ?_
  split
  · exact moves_throw _ _
  rename_i hsender
  refine moves_lift fun plain hplain => moves_lift fun entries hentries => ?_
  refine learnWanted_settles _ (fun o ho => (mem_frontier.mp ho).1) fun entry hentry hwant => ?_
  have hmember : sender ∈ p.members := by
    simpa [← Std.ExtTreeSet.contains_iff_mem] using hsender
  exact h entry.1 entry.2 ⟨sender, sealed, plain, entries, rfl, hmember, hplain, hentries, hentry,
    hwant⟩

theorem dispatch_settles (hp : Steady P p) (m : Message) (h : RepairsUnbuffered P p m) :
    Moves (Settles P) (dispatch P m) p := by
  cases m with
  | op o => exact moves_bind (ingest_settles hp o) fun _ _ _ => moves_pure _ _
  | deliver ops pruned => exact moves_bind (ingestAll_settles hp ops) fun _ _ _ => moves_pure _ _
  | sync sender heads => exact moves_get (moves_pure _ _)
  | nodeKeyRequest sender nodes =>
      exact moves_bind (undisturbed_settles (answerNodeKeysFor_undisturbed _ _)) fun _ _ _ =>
        moves_pure _ _
  | nodeKeyResponse sender sealed =>
      exact moves_bind (absorbNodeKeys_settles _ _ h) fun _ _ _ => moves_pure _ _
  | checkpoint certificate => exact moves_get (moves_lift fun _ _ => moves_pure _ _)
  | welcome sid sender sealed history pruned => exact moves_throw _ _

theorem settle_undisturbed (before : Participant) : Moves (Undisturbed P) (settle P before) p := by
  refine moves_get (moves_bind ?_ fun changed p₁ _ => moves_get (moves_pure _ _))
  unfold noteChange
  refine moves_get ?_
  dsimp only
  split_ifs
  · exact moves_bind noteVersion_undisturbed fun _ _ _ => moves_pure _ _
  · exact moves_pure _ _

theorem handle_settles (hp : Steady P p) (wire : Bytes)
    (h : ∀ m, Message.fromWire P wire = .ok m → RepairsUnbuffered P p m) :
    Moves (Settles P) (handle P wire) p := by
  refine moves_lift fun m hm => moves_get ?_
  refine moves_seq (dispatch_settles hp m (h m hm)) fun result p₁ hdispatch _ => ?_
  refine moves_bind (drainPending_settles (hdispatch.1.steady hp)) fun drained p₂ _ => ?_
  exact moves_bind (undisturbed_settles (settle_undisturbed p)) fun _ _ _ => moves_pure _ _

end Messages

/-! ## Calls -/

section Calls

/-- A contribution of its own is stored before it is absorbed. -/
theorem publish_absorb_settles (hp : Consistent P p) {body : Body} (x : Secret) :
    Moves (Settles P) (do
      let op ← publish P body
      absorb P op x
      noteVersion P
      pure [.broadcast (.op op)] : Act (List Outbound)) p := by
  have hsteps : Moves (Steps P (fun _ => True) fun _ _ => True) (do
      let op ← publish P body
      absorb P op x
      noteVersion P
      pure [.broadcast (.op op)] : Act (List Outbound)) p := by
    refine moves_bind (publish_moves _) fun op p₃ hpublish => ?_
    refine moves_bind (absorb_moves x (Or.inr (publish_signed hpublish))) fun _ p₄ _ => ?_
    exact moves_bind noteVersion_moves fun _ _ _ => moves_pure _ _
  refine moves_of_ledger hsteps fun hledger => ?_
  refine moves_seq (undisturbed_settles (publish_undisturbed body)) fun op p₁ hsettles hrun => ?_
  have hop := (publish_ok hrun).1
  have hquiet := (publish_undisturbed (P := P) body).run hrun
  obtain rfl : published P p body = p₁ := by rw [← publish_state, hrun]
  refine moves_bind ?_ fun _ p₂ _ =>
    moves_bind (undisturbed_settles noteVersion_undisturbed) fun _ _ _ => moves_pure _ _
  rcases published_stored (P := P) p body with hspent | hheld
  · have habsorb : Moves (Steps P (fun _ => True) fun _ _ => True) (absorb P op x)
        (published P p body) := absorb_moves x (Or.inr (publish_signed hrun))
    exact ⟨habsorb, fun _ => Or.inl (hspent.steps habsorb)⟩
  · subst hop
    refine absorb_settles x hheld fun _ => (hquiet.unseen (hledger.unseen fun hold => ?_)).2
    obtain ⟨other, hother⟩ := contains_iff.mp hold
    obtain rfl : other = p.sign P body := by
      rw [published_keeps hother] at hheld
      exact Option.some.inj hheld
    exact sign_absent hp.sound hp.complete body hother

theorem contributeTo_settles (hp : Consistent P p) (members : Roster) (recips : List SigPublic) :
    Moves (Settles P) (contributeTo P members recips) p := by
  refine moves_get ?_
  dsimp only
  split_ifs
  · exact moves_throw _ _
  · refine moves_bind (undisturbed_settles draw_undisturbed) fun x p₁ hdraw => ?_
    refine moves_bind (undisturbed_settles (sealSlices_undisturbed _ _ x recips))
      fun slices p₂ hseal => ?_
    have hp₁ := hp.silent (draw_silent.run hdraw)
    exact publish_absorb_settles (hp₁.silent ((sealSlices_silent _ _ _ _).run hseal)) x

theorem contributeExcluding_settles (hp : Consistent P p) (exclude : Roster) :
    Moves (Settles P) (contributeExcluding P exclude) p := by
  refine moves_get ?_
  dsimp only
  split_ifs
  · exact moves_throw _ _
  · exact moves_throw _ _
  · exact moves_bind (undisturbed_settles (publish_undisturbed _)) fun _ _ _ => moves_pure _ _
  · exact contributeTo_settles hp _ _

theorem welcomeFor_undisturbed (kp : KeyPackage) : Moves (Undisturbed P) (welcomeFor P kp) p := by
  refine moves_get ?_
  split
  · exact moves_throw _ _
  · exact moves_bind (sealEnvelope_undisturbed _ _ _ _ _ _) fun _ _ _ => moves_pure _ _

/-- Consistency is kept by everything that acts on the graph in the usual ways. -/
theorem Moves.consistent {α : Type} {c : Act α} {r : Except Error α}
    (h : Moves (Acts P (fun _ _ => True) fun _ _ => True) c p) (hrun : c p = (r, p'))
    (hp : Consistent P p) : Consistent P p' :=
  Acts.consistent (h.run hrun) hp

theorem invite_settles (hp : Consistent P p) (kp : KeyPackage) :
    Moves (Settles P) (invite P kp) p := by
  refine moves_lift fun _ _ => moves_get ?_
  split
  · exact moves_throw _ _
  refine moves_bind (moves_modify channels_undisturbed.settles) fun _ p₁ hnote => ?_
  cases hnote
  refine moves_bind (undisturbed_settles (publish_undisturbed _)) fun add p₂ hadd => ?_
  refine moves_bind (undisturbed_settles (rotateWhen_undisturbed _)) fun rotation p₃ hrotate => ?_
  refine moves_bind (undisturbed_settles (welcomeFor_undisturbed kp)) fun welcome p₄ hwelcome => ?_
  have hp₁ : Consistent P { p with
      peerPrekeys := p.peerPrekeys.insert kp.ipk (kp.gen, kp.prekey) } := hp.silent silent_fields
  have hp₂ := Moves.consistent (publish_acts trivial) hadd hp₁
  have hp₃ := Moves.consistent (rotateWhen_acts fun _ _ _ _ _ => trivial) hrotate hp₂
  have hp₄ := hp₃.silent ((welcomeFor_silent kp).run hwelcome)
  refine moves_bind (contributeExcluding_settles hp₄ ∅) fun contribution p₅ _ => ?_
  exact moves_bind (undisturbed_settles noteVersion_undisturbed) fun _ _ _ => moves_pure _ _

theorem remove_settles (hp : Consistent P p) (who : SigPublic) :
    Moves (Settles P) (remove P who) p := by
  refine moves_bind (undisturbed_settles (publish_undisturbed _)) fun op p₁ hpublish => ?_
  have hp₁ := Moves.consistent (publish_acts trivial) hpublish hp
  refine moves_bind (contributeExcluding_settles hp₁ _) fun contribution p₂ _ => ?_
  refine moves_bind (moves_modify (Undisturbed.settles ?_)) fun _ p₃ _ => ?_
  · refine ⟨(Update.channels _ _ _ _).steps, rfl, rfl, rfl, rfl, fun a i o hin => ?_⟩
    obtain ⟨state, payload, hstate, hpayload, hnamed⟩ := hin
    rw [Std.ExtTreeMap.getElem?_erase] at hstate
    split_ifs at hstate
    exact ⟨state, payload, hstate, hpayload, hnamed⟩
  · exact moves_bind (undisturbed_settles noteVersion_undisturbed) fun _ _ _ => moves_pure _ _

theorem repairRequest_undisturbed : Moves (Undisturbed P) (repairRequest P) p := by
  refine moves_get ?_
  dsimp only
  split
  · exact moves_pure _ _
  split
  · refine moves_bind (moves_attempt rotatePrekeys_undisturbed) fun r _ _ => ?_
    split
    · exact moves_pure _ _
    · exact moves_pure _ _
  · exact moves_pure _ _

theorem call_settles (hp : Consistent P p) (c : Call)
    (h : ∀ wire m, c = .handle wire → Message.fromWire P wire = .ok m → RepairsUnbuffered P p m) :
    Settles P p (c.run P p) := by
  cases c with
  | publishPrekeys => exact undisturbed_settles publishPrekeys_undisturbed
  | rotatePrekeys => exact undisturbed_settles rotatePrekeys_undisturbed
  | tick => exact channels_undisturbed.settles
  | contribute exclude => exact contributeExcluding_settles hp exclude
  | invite kp => exact invite_settles hp kp
  | remove who => exact remove_settles hp who
  | leave =>
      have hleave : Moves (Settles P) (leave P) p := by
        refine moves_get ?_
        exact moves_bind (undisturbed_settles (publish_undisturbed _)) fun _ _ _ => moves_pure _ _
      exact hleave
  | handle wire => exact handle_settles hp.steady wire fun m hm => h wire m rfl hm
  | repairRequest => exact undisturbed_settles repairRequest_undisturbed

theorem found_settles (hp : Consistent P p) : Moves (Settles P) (found P) p := by
  refine moves_get (moves_bind (undisturbed_settles (publish_undisturbed _)) fun add p₁ hadd => ?_)
  have hp₁ := Moves.consistent (publish_acts trivial) hadd hp
  refine moves_bind (undisturbed_settles publishPrekeys_undisturbed) fun prekeys p₂ hprekeys => ?_
  have hp₂ := Moves.consistent (publishPrekeys_acts fun _ _ _ _ => trivial) hprekeys hp₁
  refine moves_bind (contributeExcluding_settles hp₂ ∅) fun contribution p₃ _ => ?_
  exact moves_bind (undisturbed_settles noteVersion_undisturbed) fun _ _ _ => moves_pure _ _

theorem blank_ledger (identity : Secret) (sid : SessionId) (policy : Policy) (seed0 : Secret)
    (prekeys : PrekeyPool) (entropy : List Secret) :
    Ledger P (blank P identity sid policy seed0 prekeys entropy) := by
  have hempty : ∀ a i o, ¬InBuffer (blank P identity sid policy seed0 prekeys entropy) a i o := by
    rintro a i o ⟨state, payload, hstate, -⟩
    simp [blank] at hstate
  refine ⟨?_, ?_, ?_, ?_, fun a i o hin => absurd hin (hempty a i o),
    fun a i b j o hin => absurd hin (hempty a i o), ?_⟩
  · simp [blank]
  · simp [blank]
  · simp [blank]
  · simp [blank, NodeKeys.contains, NodeKeys.default, NodeKeys.withCapacity]
  · simp [blank]

end Calls

end CausalFrontierRatchet.ContributionLedger
