import CausalFrontierRatchet.MemberActions

/-!
The ingestions a message leads to: first the operations it carries, one after another, then the
buffered operations whose dependencies have arrived, in rounds.  Each is listed with the participant
that takes it in, so that a condition on every ingestion can be stated, and an invariant of a run
has to be shown for single ingestions only.
-/

namespace CausalFrontierRatchet.Intake

open Relation Crypto Operation CausalMembership Messages
open Commands Member MemberSteps MemberRuns MemberActions

variable (P : Primitives)

def intake : List Op → Participant → List (Participant × Op)
  | [], _ => []
  | op :: ops, p => (p, op) :: intake ops (ingest P op p).2

/-- The ingestions of one pass over the buffered operations. -/
def drained : List Op → Participant → List (Participant × Op)
  | [], _ => []
  | op :: waiting, p =>
      if p.depsAvailable op then (p, op) :: drained waiting (ingest P op p).2 else drained waiting p

def drainedRounds : ℕ → List Op → Participant → List (Participant × Op)
  | 0, _, _ => []
  | rounds + 1, waiting, p =>
      drained P waiting p ++
        match drainPass P waiting p with
        | (.ok (deferred, true, _), p') => drainedRounds rounds deferred p'
        | _ => []

/-- All ingestions that handling a message leads to. -/
def ingestions (m : Message) (p : Participant) : List (Participant × Op) :=
  intake P (carried m) p ++
    match dispatch P m p with
    | (.ok _, p') => drainedRounds P p'.pending.length p'.pending { p' with pending := [] }
    | _ => []

/-- An invariant that silent changes keep, that holds acceptable operations in the buffer, and that
every ingestion of an acceptable operation keeps under a condition on the participant before it. -/
structure Kept (Inv : Participant → Prop) (Ok : Op → Prop) (Fine : Participant → Op → Prop) :
    Prop where
  silent : ∀ q q', Silent q q' → Inv q → Inv q'
  pending : ∀ q waiting, Inv q → (∀ op ∈ waiting, Ok op) → Inv { q with pending := waiting }
  buffered : ∀ q, Inv q → ∀ op ∈ q.pending, Ok op
  ingest : ∀ q op, Inv q → Ok op → Fine q op → Inv (ingest P op q).2

/-- The invariant is not lost. -/
def Keeps (Inv : Participant → Prop) (p p' : Participant) : Prop :=
  Inv p → Inv p'

/-- The same for an invariant that not every silent change keeps: it is enough that the answers to
requests, the repairs and the records of versions do. -/
structure Guarded (Inv : Participant → Prop) (Ok : Op → Prop) (Fine : Participant → Op → Prop) :
    Prop where
  answered : ∀ q recipient nodes, Moves (Keeps Inv) (answerNodeKeysFor P recipient nodes) q
  repaired : ∀ q sender sealed, Moves (Keeps Inv) (absorbNodeKeys P sender sealed) q
  settled : ∀ q before, Moves (Keeps Inv) (settle P before) q
  pending : ∀ q waiting, Inv q → (∀ op ∈ waiting, Ok op) → Inv { q with pending := waiting }
  buffered : ∀ q, Inv q → ∀ op ∈ q.pending, Ok op
  ingest : ∀ q op, Inv q → Ok op → Fine q op → Inv (ingest P op q).2

variable {P} {Inv : Participant → Prop} {Ok : Op → Prop} {Fine : Participant → Op → Prop}
  {p : Participant}

instance : Std.Refl (Keeps Inv) where
  refl _ := id

instance : IsTrans Participant (Keeps Inv) where
  trans _ _ _ h h' := h' ∘ h

theorem Kept.guarded (hk : Kept P Inv Ok Fine) : Guarded P Inv Ok Fine where
  answered _ recipient nodes := hk.silent _ _ (answerNodeKeysFor_silent recipient nodes)
  repaired _ sender sealed := hk.silent _ _ (absorbNodeKeys_silent sender sealed)
  settled _ before := hk.silent _ _ (settle_silent before)
  pending := hk.pending
  buffered := hk.buffered
  ingest := hk.ingest

namespace Guarded

variable (hk : Guarded P Inv Ok Fine)
include hk

theorem ingest_keeps {op : Op} (hok : Ok op) (hfine : Fine p op) :
    Moves (Keeps Inv) (Member.ingest P op) p :=
  fun hp => hk.ingest p op hp hok hfine

theorem ingestAll_keeps {ops : List Op} (hok : ∀ op ∈ ops, Ok op)
    (hfine : ∀ x ∈ intake P ops p, Fine x.1 x.2) : Moves (Keeps Inv) (ingestAll P ops) p := by
  induction ops generalizing p with
  | nil => exact moves_pure _ _
  | cons op ops ih =>
      have hfirst := hk.ingest_keeps (hok op List.mem_cons_self) (hfine (p, op) List.mem_cons_self)
      refine moves_bind (moves_attempt hfirst) fun first p₁ hrun => ?_
      obtain rfl : (Member.ingest P op p).2 = p₁ := congrArg Prod.snd hrun
      refine moves_bind (ih (fun o ho => hok o (List.mem_cons_of_mem _ ho)) ?_) fun _ _ _ =>
        moves_pure _ _
      exact fun x hx => hfine x (List.mem_cons_of_mem _ hx)

theorem ingestHistory_keeps {ops : List Op} (hok : ∀ op ∈ ops, Ok op)
    (hfine : ∀ x ∈ intake P ops p, Fine x.1 x.2) : Moves (Keeps Inv) (ingestHistory P ops) p := by
  induction ops generalizing p with
  | nil => exact moves_pure _ _
  | cons op ops ih =>
      have hfirst := hk.ingest_keeps (hok op List.mem_cons_self) (hfine (p, op) List.mem_cons_self)
      refine moves_bind hfirst fun first p₁ hrun => ?_
      obtain rfl : (Member.ingest P op p).2 = p₁ := congrArg Prod.snd hrun
      refine ih (fun o ho => hok o (List.mem_cons_of_mem _ ho)) ?_
      exact fun x hx => hfine x (List.mem_cons_of_mem _ hx)

theorem drainPass_keeps {waiting : List Op} (hok : ∀ op ∈ waiting, Ok op)
    (hfine : ∀ x ∈ drained P waiting p, Fine x.1 x.2) :
    Moves (Keeps Inv) (drainPass P waiting) p := by
  induction waiting generalizing p with
  | nil => exact moves_pure _ _
  | cons op waiting ih =>
      have hrest : ∀ o ∈ waiting, Ok o := fun o ho => hok o (List.mem_cons_of_mem _ ho)
      refine moves_get ?_
      by_cases hdeps : p.depsAvailable op
      · rw [if_neg (by simpa using hdeps)]
        rw [drained, if_pos hdeps] at hfine
        have hfirst := hk.ingest_keeps (hok op List.mem_cons_self)
          (hfine (p, op) List.mem_cons_self)
        refine moves_bind (moves_attempt hfirst) fun first p₁ hrun => ?_
        obtain rfl : (Member.ingest P op p).2 = p₁ := congrArg Prod.snd hrun
        have hlater := ih hrest fun x hx => hfine x (List.mem_cons_of_mem _ hx)
        split
        · exact moves_bind hlater fun _ _ _ => moves_pure _ _
        · exact hlater
      · rw [if_pos (by simpa using hdeps)]
        rw [drained, if_neg hdeps] at hfine
        exact moves_bind (ih hrest hfine) fun _ _ _ => moves_pure _ _

theorem drainRounds_keeps {rounds : ℕ} {waiting : List Op} (hok : ∀ op ∈ waiting, Ok op)
    (hfine : ∀ x ∈ drainedRounds P rounds waiting p, Fine x.1 x.2) :
    Moves (Keeps Inv) (drainRounds P rounds waiting) p := by
  induction rounds generalizing p waiting with
  | zero => exact moves_bind (fun hp => hk.pending p waiting hp hok) fun _ _ _ => moves_pure _ _
  | succ rounds ih =>
      rw [drainedRounds] at hfine
      refine moves_bind (hk.drainPass_keeps hok fun x hx => hfine x (List.mem_append_left _ hx))
        fun result p₁ hrun => ?_
      obtain ⟨deferred, progressed, out⟩ := result
      have hdeferred : ∀ op ∈ deferred, Ok op :=
        fun op hop => hok op ((drainPass_deferred hrun).subset hop)
      rw [hrun] at hfine
      cases progressed with
      | true =>
          refine moves_bind (ih hdeferred fun x hx => ?_) fun _ _ _ => moves_pure _ _
          exact hfine x (List.mem_append_right _ hx)
      | false =>
          exact moves_bind (fun hp => hk.pending p₁ deferred hp hdeferred) fun _ _ _ =>
            moves_pure _ _

theorem dispatch_keeps {m : Message} (hok : ∀ op ∈ carried m, Ok op)
    (hfine : ∀ x ∈ intake P (carried m) p, Fine x.1 x.2) :
    Moves (Keeps Inv) (dispatch P m) p := by
  cases m with
  | op o =>
      have hfirst := hk.ingest_keeps (hok o (by simp [carried]))
        (hfine (p, o) (by simp [carried, intake]))
      exact moves_bind hfirst fun _ _ _ => moves_pure _ _
  | deliver ops pruned =>
      exact moves_bind (hk.ingestAll_keeps hok hfine) fun _ _ _ => moves_pure _ _
  | sync sender heads => exact moves_get (moves_pure _ _)
  | nodeKeyRequest sender nodes =>
      exact moves_bind (hk.answered p _ _) fun _ _ _ => moves_pure _ _
  | nodeKeyResponse sender sealed =>
      exact moves_bind (hk.repaired p _ _) fun _ _ _ => moves_pure _ _
  | checkpoint certificate => exact moves_get (moves_lift fun _ _ => moves_pure _ _)
  | welcome sid sender sealed history pruned => exact moves_throw _ _

/-- What the ingestions of a message keep, handling it keeps. -/
theorem handle {wire : BigEndian.Bytes} (hp : Inv p)
    (hwire : ∀ m, Message.fromWire P wire = .ok m →
      (∀ op ∈ carried m, Ok op) ∧ ∀ x ∈ ingestions P m p, Fine x.1 x.2) :
    Inv (handle P wire p).2 := by
  cases hm : Message.fromWire P wire with
  | error e =>
      rw [handle_error hm]
      exact hp
  | ok m =>
      obtain ⟨hok, hfine⟩ := hwire m hm
      have hdispatch := hk.dispatch_keeps hok fun x hx => hfine x (List.mem_append_left _ hx)
      rw [handle_run hm, bind_run]
      rcases hrun : dispatch P m p with ⟨e | result, p₁⟩
      · exact hdispatch.run hrun hp
      have hp₁ := hdispatch.run hrun hp
      have hlater : ∀ x ∈ drainedRounds P p₁.pending.length p₁.pending { p₁ with pending := [] },
          Fine x.1 x.2 := by
        intro x hx
        refine hfine x (List.mem_append_right _ ?_)
        rw [hrun]
        exact hx
      have hconclude :
          Moves (Keeps Inv) (conclude P p result) { p₁ with pending := p₁.pending } := by
        refine moves_bind (moves_get (moves_bind (fun hq => hk.pending _ [] hq (by simp))
          fun _ p₂ hclear => ?_)) fun drained p₃ _ => ?_
        · cases hclear
          exact hk.drainRounds_keeps (hk.buffered p₁ hp₁) hlater
        · exact moves_bind (hk.settled p₃ p) fun _ _ _ => moves_pure _ _
      exact hconclude hp₁

end Guarded

/-! ## Runs under a condition -/

section Conditions

variable (P) (fine : Participant → Op → Prop) (settled : Participant → Prop)
  (ok : Participant → Call → Prop)

/-- Every ingestion that handling the bytes leads to meets the condition. -/
def HandledUnder (p : Participant) (wire : BigEndian.Bytes) : Prop :=
  ∀ m, Message.fromWire P wire = .ok m → ∀ x ∈ ingestions P m p, fine x.1 x.2

/-- A founder; or a newcomer, if every ingestion of the history meets a condition and so does the
newcomer once the history is in. -/
inductive StartUnder : Participant → Prop
  | created {policy : Policy} {entropy : List Secret} {out : List Outbound} {p : Participant}
      (h : create P policy entropy = .ok (out, p)) : StartUnder p
  | joined {policy : Policy} {entropy : List Secret} {j : PendingJoin} {wire : BigEndian.Bytes}
      {out : List Outbound} {p : Participant} (hnew : PendingJoin.new P policy entropy = .ok j)
      (h : j.accept P wire = .ok (out, p))
      (hfine : ∀ w : Welcome P j wire,
        ∀ x ∈ intake P w.history (w.entries.foldl takeOver w.start), fine x.1 x.2)
      (hsettled : ∀ (w : Welcome P j wire) (p₁ : Participant),
        ingestHistory P w.history (w.entries.foldl takeOver w.start) = (.ok (), p₁) → settled p₁) :
      StartUnder p

/-- A run whose calls all meet a condition. -/
inductive RunUnder (p₀ : Participant) : Participant → Prop
  | start : RunUnder p₀ p₀
  | call {p : Participant} (c : Call) (h : RunUnder p₀ p) (hc : ok p c) : RunUnder p₀ (c.run P p)

variable {P fine settled ok}

theorem RunUnder.invariant {p₀ : Participant} (h : RunUnder P ok p₀ p) (hp₀ : Inv p₀)
    (hcall : ∀ q c, Inv q → ok q c → Inv (c.run P q)) : Inv p := by
  induction h with
  | start => exact hp₀
  | call c _ hc ih => exact hcall _ c ih hc

end Conditions

/-! ## Consistency -/

theorem park_eq (op : Op) : ∃ pending, (park op p).2 = { p with pending } ∧
    ∀ o ∈ pending, o ∈ p.pending ∨ o = op := by
  change ∃ pending, (if p.pending.length < MAX_PENDING && !p.pending.contains op then
    { p with pending := p.pending ++ [op] } else p) = { p with pending } ∧ _
  split
  · exact ⟨_, rfl, by simp⟩
  · exact ⟨p.pending, rfl, fun o ho => Or.inl ho⟩

/-- The effects of a stored operation, without a condition on what is published. -/
theorem applyOp_free (hp : Consistent P p) {op : Op} (hheld : p.dag.get (op.oid P) = some op) :
    Acts P (fun _ _ => True) (fun _ _ => True) p (applyOp P op p).2 :=
  applyOp_acts hp.sound hp.buffered hheld (fun _ _ _ _ _ => trivial)
    (fun _ _ _ _ _ _ _ _ => ⟨trivial, fun _ _ _ => trivial⟩) fun _ _ _ _ _ _ => trivial

theorem Consistent.ingest (hp : Consistent P p) (op : Op) : Consistent P (ingest P op p).2 := by
  have houtcome := Ingest.ingest_outcome hp.steady op
  generalize Member.ingest P op p = result at houtcome
  cases houtcome with
  | invalid h => exact hp
  | known h => exact hp
  | waiting hsid hsig hnew hdeps =>
      obtain ⟨pending, heq, -⟩ := park_eq (p := p) op
      rw [heq]
      exact ⟨hp.sound, hp.complete, hp.parked, hp.key, hp.buffered⟩
  | unauthorised hdeps hauth => exact hp
  | full h => exact hp
  | @stored dag h =>
      have hstored := hp.added h.added (depsAvailable_iff.mp h.deps)
      exact Acts.consistent (applyOp_free hstored (by rw [h.added.get, if_pos rfl])) hstored

theorem consistent_kept : Kept P (Consistent P) (fun _ => True) fun _ _ => True where
  silent _ _ h hq := hq.silent h
  pending _ _ hq _ := ⟨hq.sound, hq.complete, hq.parked, hq.key, hq.buffered⟩
  buffered _ _ _ _ := trivial
  ingest _ op hq _ _ := Consistent.ingest hq op

theorem Consistent.handle (hp : Consistent P p) (wire : BigEndian.Bytes) :
    Consistent P (handle P wire p).2 :=
  consistent_kept.guarded.handle hp fun _ _ => ⟨fun _ _ => trivial, fun _ _ => trivial⟩

/-- Every call but the handling of a message is a sequence of the participant's own actions. -/
theorem call_acts (c : Call) (hc : ∀ wire, c ≠ .handle wire) :
    Acts P (fun _ _ => True) (fun _ _ => True) p (c.run P p) := by
  have hfree : ∀ (q : Participant) bodies, Permits (fun _ _ => True) q bodies :=
    fun _ _ _ _ _ _ => trivial
  cases c with
  | publishPrekeys => exact publishPrekeys_acts (hfree _ _)
  | rotatePrekeys => exact rotatePrekeys_acts (hfree _ _)
  | tick => exact silent_fields.acts
  | contribute exclude => exact contributeExcluding_acts (hfree _ _)
  | invite kp =>
      exact invite_acts (fun _ => hfree _ _) (fun _ _ _ => hfree _ _) fun _ _ => hfree _ _
  | remove who => exact remove_acts trivial fun _ _ => hfree _ _
  | leave => exact leave_acts trivial
  | handle wire => exact absurd rfl (hc wire)
  | repairRequest => exact repairRequest_acts fun _ _ => hfree _ _

theorem found_free : Acts P (fun _ _ => True) (fun _ _ => True) p (found P p).2 :=
  ReflTransGen.head (.published trivial)
    (found_acts (fun _ _ _ _ => trivial) fun _ _ _ _ _ _ => trivial)

theorem Consistent.call (hp : Consistent P p) (c : Call) : Consistent P (c.run P p) := by
  by_cases hc : ∃ wire, c = .handle wire
  · obtain ⟨wire, rfl⟩ := hc
    exact Consistent.handle hp wire
  · exact Acts.consistent (call_acts c fun wire heq => hc ⟨wire, heq⟩) hp

/-! ## Lasting invariants -/

variable (P) in
/-- An invariant that silent changes, own operations, convictions and accepted operations keep. -/
structure Lasting (Inv : Participant → Prop) : Prop where
  silent : ∀ q q', Silent q q' → Inv q → Inv q'
  published : ∀ q body, Inv q → Inv (published P q body)
  convicted : ∀ q who, Inv q → Inv { q with guilty := q.guilty.insert who }
  added : ∀ q op dag, Inv q → Ingest.Accepts P q op dag → Inv { q with dag }
  pending : ∀ q waiting, Inv q → Inv { q with pending := waiting }

namespace Lasting

variable (hl : Lasting P Inv)
include hl

theorem acts {may : Participant → Body → Prop} {convicts : Participant → SigPublic → Prop}
    (hp : Inv p) (h : Acts P may convicts p p') : Inv p' := by
  induction h with
  | refl => exact hp
  | tail _ haction ih =>
      cases haction with
      | silent h => exact hl.silent _ _ h ih
      | published h => exact hl.published _ _ ih
      | convicted h => exact hl.convicted _ _ ih

theorem ingest (hconsistent : Consistent P p) (hp : Inv p) (op : Op) :
    Inv (Member.ingest P op p).2 := by
  have houtcome := Ingest.ingest_outcome hconsistent.steady op
  generalize Member.ingest P op p = result at houtcome
  cases houtcome with
  | invalid h => exact hp
  | known h => exact hp
  | waiting hsid hsig hnew hdeps =>
      obtain ⟨pending, heq, -⟩ := park_eq (p := p) op
      rw [heq]
      exact hl.pending p pending hp
  | unauthorised hdeps hauth => exact hp
  | full h => exact hp
  | @stored dag h =>
      have hstored := hconsistent.added h.added (depsAvailable_iff.mp h.deps)
      have hheld : dag.get (op.oid P) = some op := by rw [h.added.get, if_pos rfl]
      exact hl.acts (hl.added p op dag hp h) (applyOp_free hstored hheld)

theorem kept : Kept P (fun q => Consistent P q ∧ Inv q) (fun _ => True) fun _ _ => True where
  silent q q' h hq := ⟨hq.1.silent h, hl.silent q q' h hq.2⟩
  pending q waiting hq _ :=
    ⟨⟨hq.1.sound, hq.1.complete, hq.1.parked, hq.1.key, hq.1.buffered⟩, hl.pending q waiting hq.2⟩
  buffered _ _ _ _ := trivial
  ingest _ op hq _ _ := ⟨Consistent.ingest hq.1 op, hl.ingest hq.1 hq.2 op⟩

theorem call (hconsistent : Consistent P p) (hp : Inv p) (c : Call) : Inv (c.run P p) := by
  by_cases hc : ∃ wire, c = .handle wire
  · obtain ⟨wire, rfl⟩ := hc
    have hhandled : Consistent P ((Call.handle wire).run P p) ∧ Inv ((Call.handle wire).run P p) :=
      hl.kept.guarded.handle ⟨hconsistent, hp⟩ fun _ _ =>
        ⟨fun _ _ => trivial, fun _ _ => trivial⟩
    exact hhandled.2
  · exact hl.acts hp (call_acts c fun wire heq => hc ⟨wire, heq⟩)

variable {src : Op → Prop} {rep : Oid → Secret → Prop}
  (hblank : ∀ identity sid policy seed0 prekeys entropy,
    Inv (blank P identity sid policy seed0 prekeys entropy))
include hblank

theorem start (h : Start P src rep p) : Consistent P p ∧ Inv p := by
  cases h with
  | @created policy entropy out p h =>
      obtain ⟨identity, sid, seed0, prekey, rest, -, hfound⟩ := create_ok h
      have hacts := found_free (P := P)
        (p := blank P identity sid policy seed0 (.at_ P 0 prekey) rest)
      rw [hfound] at hacts
      exact ⟨Acts.consistent hacts (blank_consistent ..), hl.acts (hblank ..) hacts⟩
  | joined hnew h _ _ =>
      obtain ⟨w, hjoin⟩ := accept_ok h
      obtain ⟨p₁, hhistory, -, o, p₂, hpublish, hnote, -⟩ := joinWith_history hjoin
      have hsilent := takeOver_silent (p := w.start) w.entries
      have hread := (hl.kept.guarded.ingestHistory_keeps (fun _ _ => trivial)
        fun _ _ => trivial).run hhistory
          ⟨(blank_consistent ..).silent hsilent, hl.silent _ _ hsilent (hblank ..)⟩
      have hannounced : Acts P (fun _ _ => True) (fun _ _ => True) p₁ p₂ :=
        (publishPrekeys_acts fun _ _ _ _ => trivial).run hpublish
      have hnoted := hannounced.tail (.silent (noteVersion_silent.run hnote))
      exact ⟨Acts.consistent hnoted hread.1, hl.acts hread.2 hnoted⟩

theorem reach (h : Reach P src rep p) : Consistent P p ∧ Inv p := by
  obtain ⟨p₀, hstart, hrun⟩ := h
  induction hrun with
  | start => exact hl.start hblank hstart
  | call c _ _ ih => exact ⟨Consistent.call ih.1 c, hl.call ih.1 ih.2 c⟩

end Lasting

end CausalFrontierRatchet.Intake
