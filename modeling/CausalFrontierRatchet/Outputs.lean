import CausalFrontierRatchet.MemberRuns

/-!
What the handling of a message returns for sending.  Operations that come in make a participant
announce a new prekey and nothing else; besides, a request for synchronisation or for node keys is
answered.
-/

namespace CausalFrontierRatchet.Outputs

open Relation BigEndian Crypto Tlv Operation
open Messages Commands Member MemberSteps

/-- A broadcast of an operation that announces a prekey. -/
def Announcement (o : Outbound) : Prop :=
  ∃ op gen pk, op.body = .prekeys gen pk ∧ o = .broadcast (.op op)

section Yields

variable {α β : Type} {P : Primitives} {p p' : Participant}

/-- Whatever a command returns for sending announces a prekey. -/
def Yields (out : α → List Outbound) (c : Act α) : Prop :=
  ∀ p a p', c p = (.ok a, p') → ∀ o ∈ out a, Announcement o

theorem yields_pure {out : α → List Outbound} {a : α} (h : ∀ o ∈ out a, Announcement o) :
    Yields out (pure a : Act α) := by
  intro p a' p' hrun
  cases hrun
  exact h

theorem yields_throw {out : α → List Outbound} (e : Error) : Yields out (throw e : Act α) := by
  intro p a p' hrun
  cases hrun

theorem yields_bind {out : β → List Outbound} {c : Act α} {f : α → Act β}
    (hf : ∀ p a p', c p = (.ok a, p') → Yields out (f a)) : Yields out (c >>= f) := by
  intro p b p' hrun
  obtain ⟨a, p₁, hc, hrun⟩ := bind_ok hrun
  exact hf p a p₁ hc p₁ b p' hrun

theorem yields_next {out : β → List Outbound} {c : Act α} {f : α → Act β}
    (hf : ∀ a, Yields out (f a)) : Yields out (c >>= f) :=
  yields_bind fun _ a _ _ => hf a

theorem publishPrekeys_yields : Yields (fun o => [o]) (publishPrekeys P) := by
  refine yields_next fun q => ?_
  refine yields_bind fun p op p₁ hpublish => yields_pure fun o ho => ?_
  rw [List.mem_singleton.mp ho]
  exact ⟨op, _, _, by rw [(publish_ok hpublish).1]; rfl, rfl⟩

theorem rotatePrekeys_yields : Yields (fun o => [o]) (rotatePrekeys P) :=
  yields_next fun _ => yields_next fun _ => publishPrekeys_yields

theorem rotateWhen_yields (due : Bool) : Yields id (rotateWhen P due) := by
  unfold rotateWhen
  split_ifs
  · refine yields_bind fun p o p₁ hrun => yields_pure ?_
    exact rotatePrekeys_yields p o p₁ hrun
  · exact yields_pure (by simp)

/-- What an announced channel returns at once. -/
def stopped : Opening → List Outbound
  | .proceed => []
  | .stop out => out

theorem openChannel_yields (op : Op) (gen : UInt32) (eph : DhPublic) :
    Yields stopped (openChannel P op gen eph) := by
  refine yields_next fun q => ?_
  dsimp only
  split
  · exact yields_pure (by simp [stopped])
  split
  · exact yields_next fun _ => yields_pure (by simp [stopped])
  split
  · refine yields_next fun _ => yields_bind fun p o p₁ hrun => yields_pure ?_
    exact rotatePrekeys_yields p o p₁ hrun
  · exact yields_next fun _ => yields_pure (by simp [stopped])

theorem receiveContribution_yields (op : Op) : Yields id (receiveContribution P op) := by
  refine yields_next fun q => ?_
  split
  · split
    · exact yields_pure (by simp)
    · rename_i slice _
      refine yields_bind fun p opening p₁ hrun => ?_
      have hannounce : Yields stopped (announce P op slice.establish) := by
        unfold announce
        split
        · exact openChannel_yields _ _ _
        · exact yields_pure (by simp [stopped])
      cases opening with
      | stop out => exact yields_pure (hannounce p (.stop out) p₁ hrun)
      | proceed => exact yields_next fun _ => yields_pure (by simp)
  · exact yields_pure (by simp)

theorem applyOp_yields (op : Op) : Yields id (applyOp P op) := by
  refine yields_next fun q => ?_
  split
  · exact yields_next fun _ => yields_pure (by simp)
  · exact receiveContribution_yields op
  · exact yields_next fun _ => yields_pure (by simp)
  · exact rotateWhen_yields _
  · exact rotateWhen_yields _
  · exact yields_pure (by simp)

theorem ingest_yields (op : Op) : Yields id (ingest P op) := by
  refine yields_next fun q => ?_
  split
  · exact yields_throw _
  refine yields_next fun _ => ?_
  split
  · exact yields_pure (by simp)
  split
  · exact yields_next fun _ => yields_pure (by simp)
  split
  · exact yields_throw _
  · refine yields_next fun _ => yields_bind fun p out p₁ hrun => yields_next fun _ => ?_
    exact yields_pure (applyOp_yields op p out p₁ hrun)

theorem attempt_yields {c : Act (List Outbound)} (h : Yields id c) :
    Yields (fun r => r.toOption.getD []) (attempt c) := by
  intro p r p' hrun o ho
  have hc := run_of_attempt hrun
  cases r with
  | error e => cases ho
  | ok out => exact h p out p' hc o ho

theorem ingestAll_yields (ops : List Op) : Yields id (ingestAll P ops) := by
  induction ops with
  | nil => exact yields_pure (by simp)
  | cons op ops ih =>
      refine yields_bind fun p first p₁ hfirst => yields_bind fun q rest q₁ hrest => ?_
      refine yields_pure fun o ho => ?_
      rcases List.mem_append.mp ho with hin | hin
      · exact attempt_yields (ingest_yields op) p first p₁ hfirst o hin
      · exact ih q rest q₁ hrest o hin

theorem drainPass_yields (waiting : List Op) :
    Yields (fun result => result.2.2) (drainPass P waiting) := by
  induction waiting with
  | nil => exact yields_pure (by simp)
  | cons op waiting ih =>
      refine yields_next fun q => ?_
      split
      · exact yields_bind fun p result p₁ hrun => yields_pure (ih p result p₁ hrun)
      · refine yields_bind fun p first p₁ hfirst => ?_
        cases first with
        | error e => exact ih
        | ok out =>
            refine yields_bind fun q result q₁ hrest => yields_pure fun o ho => ?_
            rcases List.mem_append.mp ho with hin | hin
            · exact attempt_yields (ingest_yields op) p (.ok out) p₁ hfirst o hin
            · exact ih q result q₁ hrest o hin

theorem drainRounds_yields (rounds : ℕ) (waiting : List Op) :
    Yields id (drainRounds P rounds waiting) := by
  induction rounds generalizing waiting with
  | zero => exact yields_next fun _ => yields_pure (by simp)
  | succ rounds ih =>
      refine yields_bind fun p result p₁ hpass => ?_
      have hout := drainPass_yields waiting p result p₁ hpass
      obtain ⟨deferred, progressed, out⟩ := result
      cases progressed with
      | false => exact yields_next fun _ => yields_pure hout
      | true =>
          refine yields_bind fun q later q₁ hlater => yields_pure fun o ho => ?_
          rcases List.mem_append.mp ho with hin | hin
          · exact hout o hin
          · exact ih deferred q later q₁ hlater o hin

theorem drainPending_yields : Yields id (drainPending P) :=
  yields_next fun _ => yields_next fun _ => drainRounds_yields _ _

/-- An answer carries the node keys of the current frontier that were asked for. -/
theorem answerNodeKeysFor_ok {recipient : SigPublic} {nodes : List Oid} {o : Outbound}
    (h : answerNodeKeysFor P recipient nodes p = (.ok (some o), p')) :
    ∃ gen pk sealed, p.peerPrekeys[recipient]? = some (gen, pk) ∧
      sealEnvelope P "cfr/repair/ad" "repair" recipient gen pk
        (buildNodekeyPayload (nodes.filterMap fun n =>
          if p.frontier.contains n then (p.nodekeys.peek n).map fun key => (n, key) else none)) p =
        (.ok sealed, p') ∧
      o = .direct recipient (.nodeKeyResponse p.ipk sealed) := by
  obtain ⟨_, _, hget, h⟩ := bind_ok h
  cases hget
  dsimp only at h
  split_ifs at h
  · cases h
  · cases h
  · cases hpeer : p.peerPrekeys[recipient]? with
    | none =>
        simp only [hpeer] at h
        cases h
    | some peer =>
        simp only [hpeer] at h
        obtain ⟨sealed, p₁, hseal, h⟩ := bind_ok h
        cases h
        exact ⟨peer.1, peer.2, sealed, rfl, hseal, rfl⟩

/-- What a message asks for. -/
def Answers (P : Primitives) (p : Participant) (m : Message) (o : Outbound) : Prop :=
  (∃ sender heads, m = .sync sender heads ∧ o ∈ answerSync p sender heads) ∨
    ∃ sender nodes q, m = .nodeKeyRequest sender nodes ∧
      answerNodeKeysFor P sender nodes p = (.ok (some o), q)

theorem dispatch_answers {m : Message} {result : List Event × List Outbound}
    (h : dispatch P m p = (.ok result, p')) :
    ∀ o ∈ result.2, Announcement o ∨ Answers P p m o := by
  cases m with
  | op op =>
      obtain ⟨out, p₁, hingest, h⟩ := bind_ok h
      cases h
      exact fun o ho => Or.inl (ingest_yields op p out p' hingest o ho)
  | deliver ops pruned =>
      obtain ⟨out, p₁, hingest, h⟩ := bind_ok h
      cases h
      exact fun o ho => Or.inl (ingestAll_yields ops p out p' hingest o ho)
  | sync sender heads =>
      cases h
      exact fun o ho => Or.inr (Or.inl ⟨sender, heads, rfl, ho⟩)
  | nodeKeyRequest sender nodes =>
      obtain ⟨answer, p₁, hanswer, h⟩ := bind_ok h
      cases h
      intro o ho
      rw [Option.mem_toList] at ho
      cases ho
      exact Or.inr (Or.inr ⟨sender, nodes, p', rfl, hanswer⟩)
  | nodeKeyResponse sender sealed =>
      obtain ⟨_, p₁, -, h⟩ := bind_ok h
      cases h
      simp
  | checkpoint certificate =>
      obtain ⟨_, _, hget, h⟩ := bind_ok h
      obtain ⟨_, _, -, h⟩ := bind_ok h
      cases h
      simp
  | welcome sid sender sealed history pruned => cases h

/-- Handling a message announces prekeys and answers the message. -/
theorem handle_answers {wire : Bytes} {result : List Event × List Outbound}
    (h : handle P wire p = (.ok result, p')) : ∃ m, Message.fromWire P wire = .ok m ∧
      ∀ o ∈ result.2, Announcement o ∨ Answers P p m o := by
  cases hm : Message.fromWire P wire with
  | error e =>
      rw [handle_error hm] at h
      cases h
  | ok m =>
      refine ⟨m, rfl, ?_⟩
      rw [handle_run hm] at h
      obtain ⟨first, p₁, hdispatch, h⟩ := bind_ok h
      obtain ⟨drained, p₂, hdrain, h⟩ := bind_ok h
      obtain ⟨changes, p₃, -, h⟩ := bind_ok h
      cases h
      intro o ho
      rcases List.mem_append.mp ho with hin | hin
      · exact dispatch_answers hdispatch o hin
      · exact Or.inl (drainPending_yields p₁ drained p₂ hdrain o hin)

end Yields

end CausalFrontierRatchet.Outputs
