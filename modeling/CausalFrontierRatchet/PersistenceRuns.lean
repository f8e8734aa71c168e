import CausalFrontierRatchet.FaultTolerance
import CausalFrontierRatchet.StateUpdates

/-!
Runs of a persistent conference on a file system that does not fail.  Operations succeed or fail,
the process ends and a new one opens the directory.  What was committed is what is live, and what is
on disk is what is live.
-/

namespace CausalFrontierRatchet.PersistenceRuns

open BigEndian Crypto Commands Store StoreCalls Recovery FaultTolerance
open ConferenceSeat Persistence StateCodec StateUpdates

/-! ## Transactions -/

section Transactions

variable {P : Primitives} {m : Machine} {s : LogicalState} {entropy : List Secret}

/-- The live state is coherent, and it is what is on disk. -/
structure Kept (P : Primitives) (m : Machine) (s : LogicalState) : Prop where
  coherent : Coherent s
  stored : ∃ payload, encode s = .ok payload ∧
    Holds P (plain s.options) s.options m ⟨s.sequence, payload⟩

theorem harmless_noFaults : Harmless noFaults :=
  ⟨rfl, rfl, rfl⟩

theorem codable_of_encode {payload : Bytes} (hs : Coherent s) (hsequence : s.sequence ≠ 0)
    (h : encode s = .ok payload) : Codable (plain s.options) s.options ⟨s.sequence, payload⟩ := by
  obtain ⟨conference, inbound, hencoded⟩ := encode_ok hs h
  exact ⟨⟨hsequence, hencoded.size⟩, plain_decodes _ _⟩

/-- A candidate becomes the live state, or nothing changes. -/
theorem commit_run {candidate : LogicalState} {r : Except Persistence.Error Unit}
    {pc : PersistentConference} (hkept : Kept P m s) (hcoherent : Coherent candidate)
    (hoptions : candidate.options = s.options) (hsequence : candidate.sequence = s.sequence)
    (hrun : Persistence.commit P noFaults candidate ⟨s, m⟩ = (r, pc)) :
    ((∃ e, r = .error e) ∧ pc.state = s ∧ Kept P pc.store s) ∨
      (r = .ok () ∧ pc.state = { candidate with sequence := candidate.sequence + 1 } ∧
        Kept P pc.store pc.state) := by
  obtain ⟨hs, payload, hencode, hholds⟩ := id hkept
  unfold Persistence.commit at hrun
  rw [bind_run, get_run] at hrun
  dsimp only at hrun
  rw [hencode, bind_run, lift_run] at hrun
  dsimp only at hrun
  split_ifs at hrun with hmax
  · cases hrun
    exact Or.inl ⟨⟨_, rfl⟩, rfl, hkept⟩
  · have hcoherent' := coherent_sequence hcoherent (candidate.sequence + 1)
    cases hnext : encode { candidate with sequence := candidate.sequence + 1 } with
    | error e =>
        rw [hnext] at hrun
        cases hrun
        exact Or.inl ⟨⟨_, rfl⟩, rfl, hkept⟩
    | ok payload' =>
        rw [hnext, bind_run, lift_run] at hrun
        dsimp only at hrun
        have hnonzero : candidate.sequence + 1 ≠ 0 := by
          rw [Ne, ← UInt64.toNat_inj, succ_toNat hmax]
          simp
        have hcodable := codable_of_encode hcoherent' hnonzero hnext
        rw [← hoptions] at hholds
        obtain ⟨r₁, m₁, happend, hdone⟩ := append_holds harmless_noFaults hholds hcodable
          (by rw [succ_toNat hmax, hsequence])
        rw [bind_run, onStore] at hrun
        dsimp only at hrun happend
        rw [happend] at hrun
        rcases hdone with ⟨rfl, hdone⟩ | ⟨⟨e, rfl⟩, hdone⟩
        · cases hrun
          exact Or.inr ⟨rfl, rfl, hcoherent', payload', hnext, hdone⟩
        · cases hrun
          rw [hoptions] at hdone
          exact Or.inl ⟨⟨_, rfl⟩, rfl, hs, payload, hencode, hdone⟩

/-- An operation works on a state that may differ from the live one in its conference only. -/
theorem candidateOf_ok {t : LogicalState} (hs : Coherent s) (h : candidateOf P entropy s = .ok t) :
    t = { s with conference := t.conference } := by
  unfold candidateOf at h
  cases hencode : encode s with
  | error e =>
      rw [hencode] at h
      cases h
  | ok payload =>
      rw [hencode] at h
      dsimp only at h
      cases hdecode : decode P ⟨entropy, s.conference.core.signed⟩ payload s.sequence with
      | error e =>
          rw [hdecode] at h
          cases h
      | ok found =>
          rw [hdecode] at h
          cases h
          obtain ⟨-, ht, hencode'⟩ := decode_ok hdecode
          exact (encode_injective hs ht hencode hencode').1

/-- A transaction: the candidate is the live state but for the conference, and what the operation
makes of it is committed, or nothing changes. -/
theorem commitCandidate_run {ρ : Type} {operation : Cmd Persistence.Error LogicalState ρ}
    {r : Except Persistence.Error ρ} {pc : PersistentConference} (hkept : Kept P m s)
    (hoperation : ∀ {t u : LogicalState} {result : ρ}, t = { s with conference := t.conference } →
      operation t = (.ok result, u) →
      Coherent u ∧ u.options = s.options ∧ u.sequence = s.sequence)
    (hrun : Persistence.commitCandidate P noFaults entropy operation ⟨s, m⟩ = (r, pc)) :
    ((∃ e, r = .error e) ∧ pc.state = s ∧ Kept P pc.store s) ∨
      ∃ result t u, r = .ok result ∧ candidateOf P entropy s = .ok t ∧
        t = { s with conference := t.conference } ∧ operation t = (.ok result, u) ∧
        pc.state = { u with sequence := s.sequence + 1 } ∧ Kept P pc.store pc.state := by
  unfold Persistence.commitCandidate at hrun
  rw [bind_run, get_run] at hrun
  dsimp only at hrun
  cases hcandidate : candidateOf P entropy s with
  | error e =>
      rw [hcandidate] at hrun
      cases hrun
      exact Or.inl ⟨⟨_, rfl⟩, rfl, hkept⟩
  | ok t =>
      rw [hcandidate, bind_run, lift_run] at hrun
      dsimp only at hrun
      have ht := candidateOf_ok hkept.coherent hcandidate
      rcases hop : operation t with ⟨e | result, u⟩
      · rw [hop] at hrun
        cases hrun
        exact Or.inl ⟨⟨_, rfl⟩, rfl, hkept⟩
      · rw [hop] at hrun
        dsimp only at hrun
        obtain ⟨hu, hoptions, hsequence⟩ := hoperation ht hop
        rw [bind_run] at hrun
        rcases hcommit : Persistence.commit P noFaults u ⟨s, m⟩ with ⟨r₁, pc₁⟩
        rw [hcommit] at hrun
        rcases commit_run hkept hu hoptions hsequence hcommit with
          ⟨⟨e, rfl⟩, hstate, hstored⟩ | ⟨rfl, hstate, hstored⟩
        · cases hrun
          exact Or.inl ⟨⟨_, rfl⟩, hstate, hstored⟩
        · cases hrun
          rw [hsequence] at hstate
          exact Or.inr ⟨result, t, u, rfl, rfl, ht, hop, hstate, hstored⟩

/-- What a command of the conference leads to: its messages are queued in the candidate. -/
structure Sends (P : Primitives) (entropy : List Secret) (s : LogicalState)
    (produce : ConferenceSeat.Act (List Message)) (ids : List OutboundId) (u : LogicalState) :
    Prop where
  made : ∃ t conference messages, candidateOf P entropy s = .ok t ∧
    produce t.conference = (.ok messages, conference) ∧
    Queued P messages { s with conference } ids u
  coherent : Coherent u

/-- An operation of the conference whose messages are queued before the candidate is finished. -/
theorem sending_ok {ρ τ : Type} {operation : ConferenceSeat.Act τ} {messagesOf : τ → List Message}
    {finish : τ → List OutboundId → Cmd Persistence.Error LogicalState ρ} {t u : LogicalState}
    {result : ρ} (hs : Coherent s) (ht : t = { s with conference := t.conference })
    (h : (do
      let out ← onConference operation
      let ids ← enqueue P (messagesOf out)
      finish out ids) t = (.ok result, u)) :
    ∃ out conference ids v, operation t.conference = (.ok out, conference) ∧
      Queued P (messagesOf out) { s with conference } ids v ∧ Coherent v ∧
      finish out ids v = (.ok result, u) := by
  obtain ⟨out, t₁, hout, h⟩ := bind_ok h
  obtain ⟨ids, v, henqueue, hfinish⟩ := bind_ok h
  unfold onConference at hout
  rcases hop : operation t.conference with ⟨e | out', conference⟩
  · rw [hop] at hout
    cases hout
  · rw [hop] at hout
    cases hout
    rw [ht] at henqueue
    dsimp only at henqueue
    rcases enqueue_cases P (messagesOf out) (coherent_conference hs conference)
      with ⟨e, herror⟩ | ⟨ids', v', -, hok, hqueued, hv⟩
    · cases henqueue.symm.trans herror
    · cases henqueue.symm.trans hok
      exact ⟨out, conference, ids, v, rfl, hqueued, hv, hfinish⟩

theorem queued_kept {messages : List Message} {conference : Conference} {ids : List OutboundId}
    {u : LogicalState} (h : Queued P messages { s with conference } ids u) :
    u.options = s.options ∧ u.sequence = s.sequence := by
  rw [h.rest]
  exact ⟨rfl, rfl⟩

theorem mutateConference_run {ρ : Type} {operation : ConferenceSeat.Act (ρ × List Message)}
    {r : Except Persistence.Error (ρ × List OutboundId)} {pc : PersistentConference}
    (hkept : Kept P m s)
    (hrun : mutateConference P noFaults entropy operation ⟨s, m⟩ = (r, pc)) :
    ((∃ e, r = .error e) ∧ pc.state = s ∧ Kept P pc.store s) ∨
      ∃ result ids u, r = .ok (result, ids) ∧
        Sends P entropy s (do let out ← operation; pure out.2) ids u ∧
        pc.state = { u with sequence := s.sequence + 1 } ∧ Kept P pc.store pc.state := by
  rcases commitCandidate_run hkept (fun ht hop => by
      obtain ⟨out, conference, ids, v, -, hqueued, hv, hfinish⟩ := sending_ok hkept.coherent ht hop
      cases hfinish
      exact ⟨hv, queued_kept hqueued⟩) hrun with
    hfailed | ⟨⟨result, ids⟩, t, u, rfl, hcandidate, ht, hop, hdone⟩
  · exact Or.inl hfailed
  · obtain ⟨out, conference, ids', v, hout, hqueued, hv, hfinish⟩ :=
      sending_ok hkept.coherent ht hop
    cases hfinish
    refine Or.inr ⟨out.1, _, _, rfl, ⟨⟨t, conference, out.2, hcandidate, ?_, hqueued⟩, hv⟩, hdone⟩
    rw [bind_run, hout]
    rfl

theorem queueing_run {operation : ConferenceSeat.Act (List Message)}
    {r : Except Persistence.Error (List OutboundId)} {pc : PersistentConference}
    (hkept : Kept P m s) (hrun : queueing P noFaults entropy operation ⟨s, m⟩ = (r, pc)) :
    ((∃ e, r = .error e) ∧ pc.state = s ∧ Kept P pc.store s) ∨
      ∃ ids u, r = .ok ids ∧ Sends P entropy s operation ids u ∧
        pc.state = { u with sequence := s.sequence + 1 } ∧ Kept P pc.store pc.state := by
  unfold queueing at hrun
  rw [bind_run] at hrun
  rcases hmutate : mutateConference P noFaults entropy
      (do let messages ← operation; pure ((), messages)) ⟨s, m⟩ with ⟨r₁, pc₁⟩
  rw [hmutate] at hrun
  rcases mutateConference_run hkept hmutate with
    ⟨⟨e, rfl⟩, hfailed⟩ | ⟨result, ids, u, rfl, hsends, hdone⟩
  · cases hrun
    exact Or.inl ⟨⟨_, rfl⟩, hfailed⟩
  · cases hrun
    refine Or.inr ⟨ids, u, rfl, ?_, hdone⟩
    simpa only [bind_assoc, pure_bind, bind_pure] using hsends

theorem silent_run {ρ : Type} {operation : ConferenceSeat.Act ρ}
    {r : Except Persistence.Error ρ} {pc : PersistentConference} (hkept : Kept P m s)
    (hrun : silent P noFaults entropy operation ⟨s, m⟩ = (r, pc)) :
    ((∃ e, r = .error e) ∧ pc.state = s ∧ Kept P pc.store s) ∨
      ∃ result u, r = .ok result ∧ Sends P entropy s (do let _ ← operation; pure []) [] u ∧
        pc.state = { u with sequence := s.sequence + 1 } ∧ Kept P pc.store pc.state := by
  unfold silent at hrun
  rw [bind_run] at hrun
  rcases hmutate : mutateConference P noFaults entropy
      (do let result ← operation; pure (result, [])) ⟨s, m⟩ with ⟨r₁, pc₁⟩
  rw [hmutate] at hrun
  rcases mutateConference_run hkept hmutate with
    ⟨⟨e, rfl⟩, hfailed⟩ | ⟨result, ids, u, rfl, hsends, hdone⟩
  · cases hrun
    exact Or.inl ⟨⟨_, rfl⟩, hfailed⟩
  · cases hrun
    simp only [bind_assoc, pure_bind] at hsends
    have hnone : ids = [] := by
      obtain ⟨t, conference, messages, -, hproduce, hqueued⟩ := hsends.made
      obtain ⟨out, c, -, hpure⟩ := bind_ok hproduce
      cases hpure
      exact List.length_eq_zero_iff.mp hqueued.length
    rw [hnone] at hsends
    exact Or.inr ⟨result, u, rfl, hsends, hdone⟩

end Transactions

/-! ## Calls -/

/-- The public operations that may change a persistent conference. -/
inductive Call
  | offerCheckpoint (certificate : Messages.CheckpointCertificate)
  | invite (kp : Messages.KeyPackage)
  | evict (who : SigPublic)
  | leave
  | rekey
  | heal
  | tick
  | handleInbound (id : InboundId) (payload : Bytes)
  | resync
  | protect (codec : MediaLayout.Codec) (frame : Bytes) (keyframe : Bool)
  | openMedia (packet : Bytes)
  | acknowledge (id : OutboundId)
  | checkpoint

inductive Reply
  | queued (deliveries : List OutboundId)
  | inbound (result : InboundResult)
  | acknowledged (removed : Bool)
  | protected_ (frame : Bytes)
  | opened (sender : SigPublic) (frame : Bytes)
  | done

/-- The identifiers a reply reports as newly assigned. -/
def Reply.deliveries : Reply → List OutboundId
  | .queued deliveries => deliveries
  | .inbound result => result.deliveries
  | _ => []

/-- What happened to messages, in order: a committed operation produced one, one was queued as a
delivery, a delivery was acknowledged, an inbound one was handled. -/
inductive Entry
  | produced (message : Message)
  | queued (delivery : PendingDelivery)
  | acknowledged (id : OutboundId)
  | handled (id : InboundId) (payload : Bytes)

section Calls

variable (P : Primitives) (entropy : List Secret)

def Call.run (plan : Plan) : Call → Persistence.Act Reply
  | .offerCheckpoint certificate => do
      pure (.queued (← PersistentConference.offerCheckpoint P plan entropy certificate))
  | .invite kp => do pure (.queued (← PersistentConference.invite P plan entropy kp))
  | .evict who => do pure (.queued (← PersistentConference.evict P plan entropy who))
  | .leave => do pure (.queued (← PersistentConference.leave P plan entropy))
  | .rekey => do pure (.queued (← PersistentConference.rekey P plan entropy))
  | .heal => do pure (.queued (← PersistentConference.heal P plan entropy))
  | .tick => do
      PersistentConference.tick P plan entropy
      pure .done
  | .handleInbound id payload => do
      pure (.inbound (← PersistentConference.handleInbound P plan entropy id payload))
  | .resync => do pure (.queued (← PersistentConference.resync P plan entropy))
  | .protect codec frame keyframe => do
      pure (.protected_ (← PersistentConference.protect P plan entropy codec frame keyframe))
  | .openMedia packet => do
      let opened ← PersistentConference.openMedia P plan entropy packet
      pure (.opened opened.1 opened.2)
  | .acknowledge id => do
      pure (.acknowledged (← PersistentConference.acknowledge P plan entropy id))
  | .checkpoint => do
      PersistentConference.checkpoint P plan
      pure .done

/-- The messages the conference hands over in a call. -/
def Call.produce : Call → ConferenceSeat.Act (List Message)
  | .offerCheckpoint certificate => do
      let message ← Conference.offerCheckpoint P certificate
      pure [message]
  | .invite kp => Conference.invite P kp
  | .evict who => Conference.evict P who
  | .leave => do
      let message ← Conference.leave P
      pure [message]
  | .rekey => Conference.rekey P
  | .heal => Conference.heal P
  | .tick => do
      let _ ← Conference.tick
      pure []
  | .handleInbound _ payload => do
      let out ← Conference.handle P payload
      pure out.2
  | .resync => Conference.resync P
  | .protect codec frame keyframe => do
      let _ ← Conference.protect P codec frame keyframe
      pure []
  | .openMedia packet => do
      let _ ← Conference.openMedia P packet
      pure []
  | .acknowledge _ => pure []
  | .checkpoint => pure []

/-- The messages a call hands over in a given state. -/
def produced (c : Call) (s : LogicalState) : List Message :=
  match candidateOf P entropy s with
  | .error _ => []
  | .ok t =>
      match c.produce P t.conference with
      | (.ok messages, _) => messages
      | (.error _, _) => []

/-- What a call adds to the history.  A commit moves the sequence number. -/
def entries (c : Call) (s s' : LogicalState) : Except Persistence.Error Reply → List Entry
  | .error _ => []
  | .ok reply =>
      (if s'.sequence = s.sequence then [] else (produced P entropy c s).map .produced) ++
        (deliveriesOf P s'.conference reply.deliveries (produced P entropy c s)).map .queued ++
        match c, reply with
        | .acknowledge id, .acknowledged true => [.acknowledged id]
        | .handleInbound id payload, .inbound result =>
            if result.duplicate then [] else [.handled id payload]
        | _, _ => []

/-- A call that does nothing but change the conference and queue its messages. -/
def Call.Plain : Call → Prop
  | .handleInbound _ _ => False
  | .acknowledge _ => False
  | .checkpoint => False
  | _ => True

/-- What a successful call does to the live state. -/
inductive Effect (s : LogicalState) : Call → Reply → LogicalState → Prop
  | sent {c : Call} {reply : Reply} {u : LogicalState} (hplain : c.Plain)
      (h : Sends P entropy s (c.produce P) reply.deliveries u) :
      Effect s c reply { u with sequence := s.sequence + 1 }
  | handled {id : InboundId} {payload : Bytes} {events : List Member.Event}
      {ids : List OutboundId} {u : LogicalState} (hnew : s.inbound[id]? = none)
      (h : Sends P entropy s ((Call.handleInbound id payload).produce P) ids u) :
      Effect s (.handleInbound id payload) (.inbound ⟨false, events, ids⟩)
        { recordInbound id (inboundDigest P payload) u with sequence := s.sequence + 1 }
  | duplicate {id : InboundId} {payload : Bytes}
      (h : s.inbound[id]? = some (inboundDigest P payload)) :
      Effect s (.handleInbound id payload) (.inbound ⟨true, [], []⟩) s
  | acknowledged {id : OutboundId} (conference : Conference) (h : id ∈ s.outbox) :
      Effect s (.acknowledge id) (.acknowledged true)
        { s with conference, outbox := s.outbox.erase id, sequence := s.sequence + 1 }
  | absent {id : OutboundId} (h : id ∉ s.outbox) :
      Effect s (.acknowledge id) (.acknowledged false) s
  | checkpointed : Effect s .checkpoint .done s

end Calls

/-! ## Updates -/

section Updates

variable {P : Primitives} {entropy : List Secret} {s s' u : LogicalState} {c : Call}

variable (P) in
/-- The changes of a logical state that operations are made of, with what they add to the
history. -/
inductive Update (s : LogicalState) : List Entry → LogicalState → Prop
  | queued {messages : List Message} {ids : List OutboundId} {u : LogicalState}
      (h : Queued P messages s ids u) :
      Update s (messages.map .produced ++
        (deliveriesOf P s.conference ids messages).map .queued) u
  | handled {id : InboundId} (payload : Bytes) (h : id ∉ s.inbound) :
      Update s [.handled id payload] (recordInbound id (inboundDigest P payload) s)
  | acknowledged {id : OutboundId} (h : id ∈ s.outbox) :
      Update s [.acknowledged id] { s with outbox := s.outbox.erase id }
  | carried (conference : Conference) (sequence : UInt64) :
      Update s [] { s with conference, sequence }

theorem Sends.queued {ids : List OutboundId} (h : Sends P entropy s (c.produce P) ids u) :
    Queued P (produced P entropy c s) { s with conference := u.conference } ids u := by
  obtain ⟨t, conference, messages, hcandidate, hproduce, hqueued⟩ := h.made
  have hproduced : produced P entropy c s = messages := by
    simp only [produced, hcandidate, hproduce]
  have hconference : u.conference = conference := by rw [hqueued.rest]
  rw [hproduced, hconference]
  exact hqueued

theorem produced_acknowledge (id : OutboundId) :
    produced P entropy (.acknowledge id) s = [] := by
  unfold produced
  cases candidateOf P entropy s <;> rfl

theorem sequence_ne (sequence : UInt64) : sequence + 1 ≠ sequence := by
  intro h
  simp at h

variable {Q : List Entry → LogicalState → Prop} {log : List Entry}

/-- What every update keeps, every operation keeps. -/
theorem Effect.preserves (hupdate : ∀ {log new : List Entry} {s s' : LogicalState}, Coherent s →
      Q log s → Update P s new s' → Q (log ++ new) s')
    {reply : Reply} (hs : Coherent s) (hQ : Q log s) (h : Effect P entropy s c reply s') :
    Q (log ++ entries P entropy c s s' (.ok reply)) s' := by
  have hcarried : ∀ {log : List Entry} {s : LogicalState} (conference : Conference)
      (sequence : UInt64), Coherent s → Q log s → Q log { s with conference, sequence } := by
    intro log s conference sequence hs hQ
    have hcarry := hupdate hs hQ (.carried conference sequence)
    rwa [List.append_nil] at hcarry
  cases h with
  | sent hplain h =>
      rename_i u
      have hqueued := hupdate (coherent_conference hs _) (hcarried u.conference _ hs hQ)
        (.queued h.queued)
      have hdone := hcarried u.conference (s.sequence + 1) h.coherent hqueued
      have hnew : entries P entropy c s { u with sequence := s.sequence + 1 } (.ok reply) =
          (produced P entropy c s).map .produced ++ (deliveriesOf P u.conference reply.deliveries
            (produced P entropy c s)).map .queued := by
        cases c with
        | handleInbound id payload => exact hplain.elim
        | acknowledge id => exact hplain.elim
        | checkpoint => exact hplain.elim
        | _ => simp only [entries, if_neg (sequence_ne _), List.append_nil]
      rwa [hnew]
  | handled hnew h =>
      rename_i id payload events ids u
      have hunknown : id ∉ u.inbound := by
        rw [h.queued.rest]
        simpa using hnew
      have hqueued := hupdate (coherent_conference hs _) (hcarried u.conference _ hs hQ)
        (.queued h.queued)
      have hhandled := hupdate h.coherent hqueued (.handled payload hunknown)
      have hdone := hcarried u.conference (s.sequence + 1)
        (coherent_recordInbound h.coherent hunknown _) hhandled
      have hentries : entries P entropy (.handleInbound id payload) s
          { recordInbound id (inboundDigest P payload) u with sequence := s.sequence + 1 }
          (.ok (.inbound ⟨false, events, ids⟩)) =
          (produced P entropy (.handleInbound id payload) s).map .produced ++
            (deliveriesOf P u.conference ids
              (produced P entropy (.handleInbound id payload) s)).map .queued ++
            [.handled id payload] := by
        rw [entries, if_neg (sequence_ne _)]
        rfl
      rw [hentries, ← List.append_assoc]
      exact hdone
  | duplicate h =>
      simpa [entries, Reply.deliveries, deliveriesOf] using hQ
  | acknowledged conference h =>
      rename_i id
      have hdone := hcarried conference (s.sequence + 1) (coherent_discard hs id)
        (hupdate hs hQ (.acknowledged h))
      rw [entries, if_neg (sequence_ne _), produced_acknowledge]
      exact hdone
  | absent h =>
      simpa [entries, Reply.deliveries, deliveriesOf] using hQ
  | checkpointed =>
      simpa [entries, Reply.deliveries, deliveriesOf] using hQ

end Updates

section Outcomes

variable {P : Primitives} {m : Machine} {s : LogicalState} {entropy : List Secret}
  {pc : PersistentConference}

variable (P entropy m s pc) in
/-- A call fails and changes nothing, or has its effect; what is live is on disk. -/
def Settles (c : Call) (r : Except Persistence.Error Reply) : Prop :=
  ((∃ e, r = .error e) ∧ pc.state = s ∧ Kept P pc.store s) ∨
    ∃ reply, r = .ok reply ∧ Effect P entropy s c reply pc.state ∧ Kept P pc.store pc.state

theorem settles_queueing {c : Call} {operation : ConferenceSeat.Act (List Message)}
    {r : Except Persistence.Error Reply} (hkept : Kept P m s) (hplain : c.Plain)
    (hproduce : c.produce P = operation)
    (hrun : (do pure (.queued (← queueing P noFaults entropy operation)) : Persistence.Act Reply)
      ⟨s, m⟩ = (r, pc)) : Settles P s entropy pc c r := by
  rw [bind_run] at hrun
  rcases hqueueing : queueing P noFaults entropy operation ⟨s, m⟩ with ⟨r₁, pc₁⟩
  rw [hqueueing] at hrun
  rcases queueing_run hkept hqueueing with
    ⟨⟨e, rfl⟩, hfailed⟩ | ⟨ids, u, rfl, hsends, hstate, hdone⟩
  · cases hrun
    exact Or.inl ⟨⟨_, rfl⟩, hfailed⟩
  · cases hrun
    refine Or.inr ⟨_, rfl, ?_, hdone⟩
    rw [hstate]
    rw [← hproduce] at hsends
    exact .sent hplain hsends

theorem settles_silent {c : Call} {ρ : Type} {operation : ConferenceSeat.Act ρ} {reply : ρ → Reply}
    {r : Except Persistence.Error Reply} (hkept : Kept P m s) (hplain : c.Plain)
    (hreply : ∀ result, (reply result).deliveries = [])
    (hproduce : c.produce P = do let _ ← operation; pure [])
    (hrun : (do pure (reply (← silent P noFaults entropy operation)) : Persistence.Act Reply)
      ⟨s, m⟩ = (r, pc)) : Settles P s entropy pc c r := by
  rw [bind_run] at hrun
  rcases hsilent : silent P noFaults entropy operation ⟨s, m⟩ with ⟨r₁, pc₁⟩
  rw [hsilent] at hrun
  rcases silent_run hkept hsilent with ⟨⟨e, rfl⟩, hfailed⟩ | ⟨result, u, rfl, hsends, hstate, hdone⟩
  · cases hrun
    exact Or.inl ⟨⟨_, rfl⟩, hfailed⟩
  · cases hrun
    refine Or.inr ⟨_, rfl, ?_, hdone⟩
    rw [hstate]
    rw [← hproduce, ← hreply result] at hsends
    exact .sent hplain hsends

theorem queued_inbound {messages : List Message} {conference : Conference}
    {ids : List OutboundId} {u : LogicalState}
    (h : Queued P messages { s with conference } ids u) : u.inbound = s.inbound := by
  rw [h.rest]

theorem handleInbound_cases {id : InboundId} {payload : Bytes}
    {r : Except Persistence.Error InboundResult} (hkept : Kept P m s)
    (hrun : PersistentConference.handleInbound P noFaults entropy id payload ⟨s, m⟩ = (r, pc)) :
    ((∃ e, r = .error e) ∧ pc.state = s ∧ Kept P pc.store s) ∨ ∃ result, r = .ok result ∧
      Effect P entropy s (.handleInbound id payload) (.inbound result) pc.state ∧
      Kept P pc.store pc.state := by
  unfold PersistentConference.handleInbound at hrun
  rw [bind_run, get_run] at hrun
  dsimp only at hrun
  cases hknown : s.inbound[id]? with
  | some committed =>
      rw [hknown] at hrun
      dsimp only at hrun
      split_ifs at hrun with hsame
      · cases hrun
        exact Or.inr ⟨_, rfl, .duplicate (hsame ▸ hknown), hkept⟩
      · cases hrun
        exact Or.inl ⟨⟨_, rfl⟩, rfl, hkept⟩
  | none =>
      rw [hknown] at hrun
      have hnew : id ∉ s.inbound := by simpa using hknown
      rcases commitCandidate_run hkept (fun ht hop => by
          obtain ⟨out, conference, ids, v, -, hqueued, hv, hfinish⟩ :=
            sending_ok hkept.coherent ht hop
          cases hfinish
          have hsame := queued_kept hqueued
          exact ⟨coherent_recordInbound hv (queued_inbound hqueued ▸ hnew) _, hsame⟩) hrun with
        hfailed | ⟨result, t, u, rfl, hcandidate, ht, hop, hstate, hdone⟩
      · exact Or.inl hfailed
      · obtain ⟨out, conference, ids, v, hout, hqueued, hv, hfinish⟩ :=
          sending_ok hkept.coherent ht hop
        cases hfinish
        refine Or.inr ⟨_, rfl, ?_, hdone⟩
        rw [hstate]
        refine .handled hknown ⟨⟨t, conference, out.2, hcandidate, ?_, hqueued⟩, hv⟩
        rw [Call.produce, bind_run, hout]
        rfl

theorem acknowledge_cases {id : OutboundId} {r : Except Persistence.Error Bool}
    (hkept : Kept P m s)
    (hrun : PersistentConference.acknowledge P noFaults entropy id ⟨s, m⟩ = (r, pc)) :
    ((∃ e, r = .error e) ∧ pc.state = s ∧ Kept P pc.store s) ∨ ∃ removed, r = .ok removed ∧
      Effect P entropy s (.acknowledge id) (.acknowledged removed) pc.state ∧
      Kept P pc.store pc.state := by
  unfold PersistentConference.acknowledge at hrun
  rw [bind_run, get_run] at hrun
  dsimp only at hrun
  split_ifs at hrun with habsent
  · cases hrun
    have hnone : id ∉ s.outbox := fun hid => by
      simp [Std.ExtTreeMap.contains_iff_mem.mpr hid] at habsent
    exact Or.inr ⟨_, rfl, .absent hnone, hkept⟩
  · have hpresent : id ∈ s.outbox := by simpa using habsent
    rcases commitCandidate_run hkept (fun ht hop => by
        cases hop
        rw [ht]
        exact ⟨coherent_discard (coherent_conference hkept.coherent _) id, rfl, rfl⟩) hrun with
      hfailed | ⟨removed, t, u, rfl, -, ht, hop, hstate, hdone⟩
    · exact Or.inl hfailed
    · cases hop
      refine Or.inr ⟨_, rfl, ?_, hdone⟩
      rw [hstate, ht]
      have hcontains : s.outbox.contains id = true := Std.ExtTreeMap.contains_iff_mem.mpr hpresent
      rw [hcontains]
      exact .acknowledged _ hpresent

theorem checkpoint_cases {r : Except Persistence.Error Unit} (hkept : Kept P m s)
    (hrun : PersistentConference.checkpoint P noFaults ⟨s, m⟩ = (r, pc)) :
    pc.state = s ∧ Kept P pc.store s := by
  obtain ⟨hs, payload, hencode, hholds⟩ := id hkept
  unfold PersistentConference.checkpoint at hrun
  rw [bind_run, get_run] at hrun
  dsimp only at hrun
  rw [hencode, bind_run, lift_run] at hrun
  obtain ⟨r₁, m₁, hcheckpoint, hdone, -⟩ := checkpoint_holds harmless_noFaults hholds
  unfold onStore at hrun
  dsimp only at hrun
  rw [hcheckpoint] at hrun
  cases r₁ with
  | ok u =>
      cases hrun
      exact ⟨rfl, hs, payload, hencode, hdone⟩
  | error e =>
      cases hrun
      exact ⟨rfl, hs, payload, hencode, hdone⟩

theorem run_cases {c : Call} {r : Except Persistence.Error Reply} (hkept : Kept P m s)
    (hrun : c.run P entropy noFaults ⟨s, m⟩ = (r, pc)) : Settles P s entropy pc c r := by
  cases c with
  | offerCheckpoint certificate => exact settles_queueing hkept trivial rfl hrun
  | invite kp => exact settles_queueing hkept trivial rfl hrun
  | evict who => exact settles_queueing hkept trivial rfl hrun
  | leave => exact settles_queueing hkept trivial rfl hrun
  | rekey => exact settles_queueing hkept trivial rfl hrun
  | heal => exact settles_queueing hkept trivial rfl hrun
  | resync => exact settles_queueing hkept trivial rfl hrun
  | tick => exact settles_silent hkept trivial (fun _ => rfl) rfl hrun
  | protect codec frame keyframe =>
      exact settles_silent hkept trivial (fun _ => rfl) rfl hrun
  | openMedia packet => exact settles_silent hkept trivial (fun _ => rfl) rfl hrun
  | handleInbound id payload =>
      rw [Call.run, bind_run] at hrun
      rcases hhandle : PersistentConference.handleInbound P noFaults entropy id payload ⟨s, m⟩ with
        ⟨r₁, pc₁⟩
      rw [hhandle] at hrun
      rcases handleInbound_cases hkept hhandle with
        ⟨⟨e, rfl⟩, hfailed⟩ | ⟨result, rfl, hdone⟩
      · cases hrun
        exact Or.inl ⟨⟨_, rfl⟩, hfailed⟩
      · cases hrun
        exact Or.inr ⟨_, rfl, hdone⟩
  | acknowledge id =>
      rw [Call.run, bind_run] at hrun
      rcases hack : PersistentConference.acknowledge P noFaults entropy id ⟨s, m⟩ with ⟨r₁, pc₁⟩
      rw [hack] at hrun
      rcases acknowledge_cases hkept hack with ⟨⟨e, rfl⟩, hfailed⟩ | ⟨removed, rfl, hdone⟩
      · cases hrun
        exact Or.inl ⟨⟨_, rfl⟩, hfailed⟩
      · cases hrun
        exact Or.inr ⟨_, rfl, hdone⟩
  | checkpoint =>
      rw [Call.run, bind_run] at hrun
      rcases hcheckpoint : PersistentConference.checkpoint P noFaults ⟨s, m⟩ with ⟨r₁, pc₁⟩
      rw [hcheckpoint] at hrun
      obtain ⟨hstate, hdone⟩ := checkpoint_cases hkept hcheckpoint
      cases r₁ with
      | error e =>
          cases hrun
          exact Or.inl ⟨⟨_, rfl⟩, hstate, hdone⟩
      | ok u =>
          cases hrun
          refine Or.inr ⟨_, rfl, ?_, ?_⟩
          · rw [hstate]
            exact .checkpointed
          · rwa [hstate]

end Outcomes

/-! ## Opening -/

section Opening

variable {P : Primitives} {m m' : Machine} {s : LogicalState}

/-- Opening leaves what is on disk, and the state it finds there is the live one, but for what the
conference does not save. -/
theorem openExisting_run {unsaved : ParticipantState.Unsaved}
    {r : Except StoreFormat.Error LogicalState} (hkept : Kept P m s)
    (hrun : PersistentConference.openExisting P noFaults unsaved ⟨m.disk, [], 0⟩ = (r, m')) :
    Kept P m' s ∧ ∀ s', r = .ok s' → s' = { s with conference := s'.conference } ∧
      Kept P m' s' := by
  obtain ⟨hs, payload, hencode, S, W, hshows, hintact, hlimit⟩ := hkept
  obtain ⟨i, hi, hS⟩ := hshows.snapshot
  have hne : i ≠ m.wal := by
    rintro rfl
    exact absurd (hshows.linked.injective hi hshows.wal) (by decide)
  have hhard : W.length ≤ StoreFormat.HARD_MAX_WAL_BYTES := by
    rcases hlimit with hlimit | rfl
    · exact hlimit.trans (maxWalBytes_le hs.options)
    · decide
  obtain ⟨snap, earlier, later, rfl, rfl, hsnap, hall, hconsecutive, hlater, hearlier, hlive⟩ :=
    id hintact
  have hwhole : Shows m (StoreFormat.snapshotBytes P snap)
      (WalScan.walBytes P (earlier ++ later) ++ []) := by rwa [List.append_nil]
  obtain ⟨m₁, hstore, hwal, -, hdisk⟩ := openStore_run (m := ⟨m.disk, [], 0⟩)
    hshows.wal hwhole.data hi hS hne (by rwa [List.append_nil]) hsnap.storable
    (fun r hr => (hall r hr).storable) hconsecutive incomplete_nil
  have hshows₁ : Shows m₁ (StoreFormat.snapshotBytes P snap)
      (WalScan.walBytes P (earlier ++ later)) := by
    rcases hdisk with ⟨hdisk, -⟩ | hdisk
    · exact hshows.same hdisk hwal
    · exact hwhole.cut_back.sync.same hdisk hwal
  have hkept₂ : ∀ {t : LogicalState}, Coherent t → t.options = s.options →
      t.sequence = s.sequence → encode t = .ok payload → Kept P (after m₁ m₁.disk) t := by
    intro t ht hoptions hsequence hencode'
    refine ⟨ht, payload, hencode', ?_⟩
    rw [hoptions, hsequence]
    exact ⟨_, _, hshows₁.idle, hintact, hlimit⟩
  rw [PersistentConference.openExisting, openConference, openRecovered, bind_assoc,
    bind_of_ok hstore] at hrun
  cases hrecover : recover (logical P unsaved) ⟨.valid snap, earlier ++ later⟩ with
  | error e =>
      rw [hrecover] at hrun
      cases hrun
      refine ⟨⟨hs, payload, hencode, _, _, hshows₁, hintact, hlimit⟩, ?_⟩
      intro s' hs'
      cases hs'
  | ok state =>
      have hdecode : decode P unsaved payload s.sequence = .ok state :=
        recover_sound (fun _ _ _ h => (decode_ok h).1) hconsecutive hlater hearlier hlive hrecover
      obtain ⟨hsequence, hstate, hencode'⟩ := decode_ok hdecode
      have hsame := (encode_injective hs hstate hencode hencode').1
      have hoptions : state.options = s.options := by rw [hsame]
      rw [hrecover, bind_of_ok (lift_run _ _), walLength, bind_assoc, bind_of_ok (get_run _),
        bind_of_ok (call_ok rfl)] at hrun
      dsimp only at hrun
      split_ifs at hrun with hlong
      · cases hrun
        refine ⟨hkept₂ hs rfl rfl hencode, ?_⟩
        intro s' hs'
        cases hs'
      · cases hrun
        refine ⟨hkept₂ hs rfl rfl hencode, ?_⟩
        intro s' hs'
        cases hs'
        exact ⟨hsame, hkept₂ hstate hoptions hsequence hencode'⟩

theorem coherent_initial (conference : Conference) {options : PersistenceOptions}
    (hoptions : options.validate = .ok options) : Coherent (.initial conference options) := by
  constructor
  · exact hoptions
  all_goals simp [LogicalState.initial, Keyed]

theorem new_ok {conference : Conference} {messages : List Message} {options : PersistenceOptions}
    (hoptions : options.validate = .ok options)
    (h : LogicalState.new P conference messages options = .ok s) :
    Queued P messages (.initial conference options)
      (enqueueAll P messages (.initial conference options)).1 s ∧ Coherent s := by
  unfold LogicalState.new at h
  rcases enqueue_cases P messages (coherent_initial conference hoptions) with
    ⟨e, herror⟩ | ⟨ids, s', hall, hok, hqueued, hs'⟩
  · rw [herror] at h
    cases h
  · rw [hok] at h
    cases h
    rw [hall]
    exact ⟨hqueued, hs'⟩

theorem create_live {options : PersistenceOptions} {payload : Bytes} {live : StoreFormat.Record}
    (h : create P noFaults options payload m = (.ok live, m')) : live = ⟨1, payload⟩ := by
  unfold create at h
  obtain ⟨-, m₁, -, h⟩ := bind_ok h
  obtain ⟨snapshot, m₂, -, h⟩ := bind_ok h
  obtain ⟨-, m₃, -, h⟩ := bind_ok h
  obtain ⟨-, m₄, -, h⟩ := bind_ok h
  obtain ⟨-, m₅, -, h⟩ := bind_ok h
  cases h
  rfl

/-- A new directory holds a state whose outbox has the first messages. -/
theorem createFromConference_run {conference : Conference} {messages : List Message}
    {options : PersistenceOptions} {pc : PersistentConference}
    (hoptions : options.validate = .ok options)
    (h : PersistentConference.createFromConference P noFaults conference messages options blank =
      .ok pc) :
    Queued P messages (.initial conference options)
      (enqueueAll P messages (.initial conference options)).1 pc.state ∧
      Kept P pc.store pc.state := by
  unfold PersistentConference.createFromConference at h
  cases hnew : LogicalState.new P conference messages options with
  | error e =>
      rw [hnew] at h
      cases h
  | ok s =>
  rw [hnew] at h
  obtain ⟨hqueued, hs⟩ := new_ok hoptions hnew
  cases hencode : encode s with
  | error e =>
      simp only [bind, Except.bind, hencode] at h
      cases h
  | ok payload =>
  simp only [bind, Except.bind, hencode] at h
  rcases hcreate : create P noFaults options payload blank with ⟨e | live, m₁⟩
  · rw [hcreate] at h
    cases h
  · rw [hcreate] at h
    cases h
    have hsame : s.options = options ∧ s.sequence = 1 := by
      rw [hqueued.rest]
      exact ⟨rfl, rfl⟩
    refine ⟨hqueued, hs, payload, hencode, ?_⟩
    rw [hsame.1, hsame.2, ← create_live hcreate]
    exact created_holds (plain_decodes options _) hcreate

end Opening

/-! ## Runs -/

/-- A state directory and what the process that has it open keeps in memory. -/
structure System where
  store : Machine
  live : Option LogicalState

section Runs

variable (P : Primitives)

/-- What can happen to a directory, with what it adds to the history: an operation is called, the
process ends, or a new one opens the directory. -/
inductive Step : System → List Entry → System → Prop
  | called {m : Machine} {s : LogicalState} {entropy : List Secret} {c : Call}
      {r : Except Persistence.Error Reply} {pc : PersistentConference}
      (hrun : c.run P entropy noFaults ⟨s, m⟩ = (r, pc)) :
      Step ⟨m, some s⟩ (entries P entropy c s pc.state r) ⟨pc.store, some pc.state⟩
  | ended {m : Machine} {live : Option LogicalState} : Step ⟨m, live⟩ [] ⟨m, none⟩
  | opened {m m' : Machine} {unsaved : ParticipantState.Unsaved}
      {r : Except StoreFormat.Error LogicalState}
      (hrun : PersistentConference.openExisting P noFaults unsaved ⟨m.disk, [], 0⟩ = (r, m')) :
      Step ⟨m, none⟩ [] ⟨m', r.toOption⟩

/-- The history of a new directory: the messages of the conference it was made for. -/
def opening (messages : List Message) (s : LogicalState) : List Entry :=
  messages.map .produced ++ (deliveriesOf P s.conference
    (enqueueAll P messages (.initial s.conference s.options)).1 messages).map .queued

/-- What can happen to a directory from its creation on, with its history. -/
inductive History : List Entry → System → Prop
  | created {policy : CausalMembership.Policy} {options : PersistenceOptions}
      {entropy : List Secret} {conference : Conference} {messages : List Message}
      {pc : PersistentConference}
      (hmade : Conference.create P policy entropy = .ok (conference, messages))
      (hrun : PersistentConference.createWithOptions P noFaults policy options entropy blank =
        .ok pc) :
      History (opening P messages pc.state) ⟨pc.store, some pc.state⟩
  | joined {joining : Member.PendingJoin} {welcome : Bytes} {options : PersistenceOptions}
      {conference : Conference} {messages : List Message} {pc : PersistentConference}
      (hmade : Conference.accept P joining welcome = .ok (conference, messages))
      (hrun : PersistentConference.joinWithOptions P noFaults joining welcome options blank =
        .ok pc) :
      History (opening P messages pc.state) ⟨pc.store, some pc.state⟩
  | step {log new : List Entry} {sys sys' : System} (h : History log sys)
      (hstep : Step P sys new sys') : History (log ++ new) sys'

variable {P} {log : List Entry} {sys : System} {Q : List Entry → LogicalState → Prop}

theorem validated_ok {options options' : PersistenceOptions}
    (h : PersistentConference.validated options = .ok options') :
    options' = options ∧ options.validate = .ok options := by
  unfold PersistentConference.validated at h
  cases hvalidate : options.validate with
  | error e =>
      rw [hvalidate] at h
      cases h
  | ok o =>
      rw [hvalidate] at h
      cases h
      have ho := validate_eq hvalidate
      exact ⟨ho, by rw [ho]⟩

theorem ok_of_toOption {ε α : Type} {outcome : Except ε α} {a : α}
    (h : outcome.toOption = some a) : outcome = .ok a := by
  cases outcome with
  | error e => cases h
  | ok b =>
      cases h
      rfl

/-- A directory is created for a conference that was made. -/
theorem created_made {policy : CausalMembership.Policy} {options : PersistenceOptions}
    {entropy : List Secret} {store : Machine} {pc : PersistentConference}
    (h : PersistentConference.createWithOptions P noFaults policy options entropy store = .ok pc) :
    ∃ made, Conference.create P policy entropy = .ok made := by
  cases hmade : Conference.create P policy entropy with
  | ok made => exact ⟨made, rfl⟩
  | error e =>
      unfold PersistentConference.createWithOptions at h
      rw [hmade] at h
      cases hvalidated : PersistentConference.validated options with
      | error e =>
          rw [hvalidated] at h
          cases h
      | ok options' =>
          rw [hvalidated] at h
          cases h

theorem created_ok {result : Conference × List Message}
    {outcome : Except ConferenceSeat.Error (Conference × List Message)}
    {options : PersistenceOptions} {pc : PersistentConference}
    (hmade : outcome = .ok result)
    (h : (do
      let options ← PersistentConference.validated options
      let (conference, messages) ← PersistentConference.created outcome
      PersistentConference.createFromConference P noFaults conference messages options blank) =
      .ok pc) :
    ∃ ids, options.validate = .ok options ∧
      opening P result.2 pc.state = result.2.map .produced ++
        (deliveriesOf P result.1 ids result.2).map .queued ∧
      Queued P result.2 (.initial result.1 options) ids pc.state ∧ Kept P pc.store pc.state := by
  cases hvalidated : PersistentConference.validated options with
  | error e =>
      rw [hvalidated] at h
      cases h
  | ok options' =>
      obtain ⟨rfl, hoptions⟩ := validated_ok hvalidated
      rw [hvalidated, hmade] at h
      obtain ⟨hqueued, hkept⟩ := createFromConference_run hoptions h
      have hsame : pc.state.conference = result.1 ∧ pc.state.options = options' := by
        rw [hqueued.rest]
        exact ⟨rfl, rfl⟩
      refine ⟨_, hoptions, ?_, hqueued, hkept⟩
      rw [opening, hsame.1, hsame.2]

/-- What holds before the first message is queued and is kept by every update holds in every run, of
the state that is live or on disk. -/
theorem History.invariant
    (hinitial : ∀ (conference : Conference) (options : PersistenceOptions),
      Q [] (.initial conference options))
    (hupdate : ∀ {log new : List Entry} {s s' : LogicalState}, Coherent s → Q log s →
      Update P s new s' → Q (log ++ new) s')
    (h : History P log sys) :
    ∃ s, Kept P sys.store s ∧ Q log s ∧ ∀ s', sys.live = some s' → s' = s := by
  induction h with
  | created hmade hrun =>
      obtain ⟨ids, hoptions, hlog, hqueued, hkept⟩ := created_ok hmade hrun
      refine ⟨_, hkept, ?_, fun s' hs' => (Option.some.inj hs').symm⟩
      have hfirst := hupdate (coherent_initial _ hoptions) (hinitial _ _) (.queued hqueued)
      rwa [hlog]
  | joined hmade hrun =>
      obtain ⟨ids, hoptions, hlog, hqueued, hkept⟩ := created_ok hmade hrun
      refine ⟨_, hkept, ?_, fun s' hs' => (Option.some.inj hs').symm⟩
      have hfirst := hupdate (coherent_initial _ hoptions) (hinitial _ _) (.queued hqueued)
      rwa [hlog]
  | step h hstep ih =>
      obtain ⟨s, hkept, hQ, hlive⟩ := ih
      cases hstep with
      | called hrun =>
          cases hlive _ rfl
          rcases run_cases hkept hrun with
            ⟨⟨e, rfl⟩, hstate, hkept'⟩ | ⟨reply, rfl, heffect, hkept'⟩
          · refine ⟨s, hkept', ?_, ?_⟩
            · rwa [entries, List.append_nil]
            · intro s' hs'
              rw [← Option.some.inj hs', hstate]
          · exact ⟨_, hkept', heffect.preserves hupdate hkept.coherent hQ,
              fun s' hs' => (Option.some.inj hs').symm⟩
      | ended =>
          rw [List.append_nil]
          exact ⟨s, hkept, hQ, fun s' hs' => by cases hs'⟩
      | opened hrun =>
          rw [List.append_nil]
          rename_i r
          obtain ⟨hkept', hfound⟩ := openExisting_run hkept hrun
          cases r with
          | error e => exact ⟨s, hkept', hQ, fun s' hs' => by cases hs'⟩
          | ok found =>
              obtain ⟨hsame, hkept''⟩ := hfound found rfl
              refine ⟨found, hkept'', ?_, fun s' hs' => (Option.some.inj hs').symm⟩
              have hcarried := hupdate hkept.coherent hQ (.carried found.conference s.sequence)
              rw [hsame]
              rwa [List.append_nil] at hcarried

end Runs

end CausalFrontierRatchet.PersistenceRuns
