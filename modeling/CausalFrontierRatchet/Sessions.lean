import CausalFrontierRatchet.CanonicalKeys
import CausalFrontierRatchet.Outputs
import CausalFrontierRatchet.WelcomeDisclosure

/-!
A session: one participant founds it, others join with welcomes that participants of the session
have produced, and all of them make any calls and handle any bytes.  The network may lose, repeat,
reorder and redirect what was sent and may add operations of anybody; only repair responses and
welcomes are those that were sent.
-/

namespace CausalFrontierRatchet.Sessions

open Relation BigEndian Crypto Operation OperationGraph CausalMembership
open Messages Member MemberRuns CanonicalKeys

/-- The honest participants and all messages they have produced. -/
structure Session where
  parties : List Participant
  sent : List Message

namespace Session

/-- The operations that some participant has signed or stored. -/
def operations (s : Session) : List Op :=
  s.parties.flatMap fun p => p.signed ++ p.dag.ops.toList.map Prod.snd

/-- The founder alone, with what it has published. -/
def founding (p : Participant) (out : List Outbound) : Session :=
  ⟨[p], out.map Outbound.message⟩

def join (s : Session) (p : Participant) (out : List Outbound) : Session :=
  ⟨s.parties ++ [p], s.sent ++ out.map Outbound.message⟩

/-- One participant makes a call. -/
def call (P : Primitives) (s : Session) (i : ℕ) (p : Participant) (c : Call) : Session :=
  ⟨s.parties.set i (c.run P p), s.sent ++ (emitted P p c).map Outbound.message⟩

end Session

variable (P : Primitives)

/-- A repair response that is handled was sent by somebody. -/
def Genuine (s : Session) : Call → Prop
  | .handle wire => ∀ sender sealed,
      Message.fromWire P wire = .ok (.nodeKeyResponse sender sealed) →
      .nodeKeyResponse sender sealed ∈ s.sent
  | _ => True

inductive Step : Session → Session → Prop
  | joined {s : Session} {policy : Policy} {entropy : List Secret} {j : PendingJoin} {wire : Bytes}
      {m : Message} {out : List Outbound} {p : Participant}
      (hnew : PendingJoin.new P policy entropy = .ok j) (hm : Message.fromWire P wire = .ok m)
      (hsent : m ∈ s.sent) (h : j.accept P wire = .ok (out, p)) : Step s (s.join p out)
  | called {s : Session} {i : ℕ} {p : Participant} (hp : s.parties[i]? = some p) (c : Call)
      (hc : Genuine P s c) : Step s (s.call P i p c)

def Steps : Session → Session → Prop :=
  ReflTransGen (Step P)

/-- The sessions that come from a founder. -/
def Reach (s : Session) : Prop :=
  ∃ policy entropy out p, create P policy entropy = .ok (out, p) ∧ Steps P (.founding p out) s

variable {P} {s s' : Session} {p : Participant}

/-- Whatever was sent may be handled by anybody. -/
theorem genuine_of_sent {wire : Bytes} {m : Message} (hm : Message.fromWire P wire = .ok m)
    (hsent : m ∈ s.sent) : Genuine P s (.handle wire) := by
  intro sender sealed hparsed
  cases hm.symm.trans hparsed
  exact hsent

theorem mem_operations {op : Op} : op ∈ s.operations ↔
    ∃ p ∈ s.parties, op ∈ p.signed ∨ ∃ oid, p.dag.get oid = some op := by
  simp [Session.operations, Dag.get, Std.ExtTreeMap.mem_toList_iff_getElem?_eq_some]

theorem within_operations (hp : p ∈ s.parties) : Within {op | op ∈ s.operations} p :=
  ⟨fun _ hop => mem_operations.mpr ⟨p, hp, Or.inl hop⟩,
    fun oid _ hop => mem_operations.mpr ⟨p, hp, Or.inr ⟨oid, hop⟩⟩⟩

/-- Everybody in a session founded it or joined it and then made calls. -/
theorem Reach.reachable (h : Reach P s) : ∀ p ∈ s.parties, Reachable P p := by
  obtain ⟨policy, entropy, out, founder, hcreate, hsteps⟩ := h
  induction hsteps with
  | refl =>
      intro p hp
      rw [List.mem_singleton.mp hp]
      exact ⟨founder, .created hcreate, .start⟩
  | tail _ hstep ih =>
      intro p hp
      cases hstep with
      | joined hnew hm hsent haccept =>
          rcases List.mem_append.mp hp with hold | hnewcomer
          · exact ih p hold
          · rw [List.mem_singleton.mp hnewcomer]
            exact ⟨_, .joined hnew haccept (fun _ _ _ => trivial) fun _ _ _ => trivial, .start⟩
      | called hi c hc =>
          rcases List.mem_or_eq_of_mem_set hp with hold | rfl
          · exact ih p hold
          · exact (ih _ (List.mem_of_getElem? hi)).next c

/-- A call is a sequence of updates, with repaired keys of a given kind. -/
theorem call_steps (hp : Reachable P p) {rep : Oid → Secret → Prop} (c : Call)
    (hrep : ∀ wire m, c = .handle wire → Message.fromWire P wire = .ok m →
      ∀ oid key, MemberSteps.Repairs P p m oid key → rep oid key) :
    MemberSteps.Steps P (fun _ => True) rep p (c.run P p) := by
  have hw := hp.wellformed
  apply run_steps ⟨hw.sound, hw.parked, fun _ _ => trivial⟩ c
  cases c with
  | handle wire => exact fun m hm => ⟨fun _ _ => trivial, hrep wire m rfl hm⟩
  | _ => trivial

theorem call_onward (hp : Reachable P p) (c : Call) :
    MemberSteps.Steps P (fun _ => True) (fun _ _ => True) p (c.run P p) :=
  call_steps hp c fun _ _ _ _ _ _ _ => trivial

/-- Whoever has made no call is as before. -/
theorem mem_set_of_ne {parties : List Participant} {i : ℕ} {p q r : Participant}
    (hi : parties[i]? = some q) (hp : p ∈ parties) (hne : p ≠ q) : p ∈ parties.set i r := by
  obtain ⟨k, hk⟩ := List.getElem?_of_mem hp
  apply List.mem_of_getElem? (i := k)
  rw [List.getElem?_set_ne, hk]
  rintro rfl
  exact hne (Option.some.inj (hk.symm.trans hi))

theorem mem_set_self {parties : List Participant} {i : ℕ} {q r : Participant}
    (hi : parties[i]? = some q) : r ∈ parties.set i r := by
  obtain ⟨hlt, -⟩ := List.getElem?_eq_some_iff.mp hi
  exact List.mem_set hlt r

/-- Nobody loses an operation. -/
theorem Step.operations (h : Step P s s') (hs : ∀ p ∈ s.parties, Reachable P p) :
    s.operations ⊆ s'.operations := by
  intro op hop
  obtain ⟨p, hp, hop⟩ := mem_operations.mp hop
  rw [mem_operations]
  cases h with
  | joined hnew hm hsent haccept => exact ⟨p, List.mem_append_left _ hp, hop⟩
  | @called i q hi c hc =>
      by_cases hsame : p = q
      · subst hsame
        have hsteps := call_onward (hs p hp) c
        refine ⟨c.run P p, mem_set_self hi, ?_⟩
        exact hop.imp (fun h => hsteps.signed_subset h) fun ⟨oid, h⟩ => ⟨oid, hsteps.keeps h⟩
      · exact ⟨p, mem_set_of_ne hi hp hsame, hop⟩

theorem Reach.steps (hs : Reach P s) (h : Steps P s s') : Reach P s' := by
  obtain ⟨policy, entropy, out, founder, hcreate, hbefore⟩ := hs
  exact ⟨policy, entropy, out, founder, hcreate, hbefore.trans h⟩

/-- An invariant of sessions: it may depend on the operations of the session that is reached. -/
theorem Reach.invariant {U : Set Op} {I : Session → Prop} (h : Reach P s)
    (hU : ∀ op ∈ s.operations, op ∈ U)
    (hfounding : ∀ policy entropy out p, create P policy entropy = .ok (out, p) →
      (∀ op ∈ (Session.founding p out).operations, op ∈ U) → I (.founding p out))
    (hstep : ∀ s s', Reach P s → Step P s s' → (∀ op ∈ s'.operations, op ∈ U) → I s → I s') :
    I s := by
  obtain ⟨policy, entropy, out, founder, hcreate, hsteps⟩ := h
  induction hsteps with
  | refl => exact hfounding policy entropy out founder hcreate hU
  | tail hbefore hlast ih =>
      have hreach : Reach P _ := ⟨policy, entropy, out, founder, hcreate, hbefore⟩
      have hbeforeU := fun op hop => hU op (hlast.operations hreach.reachable hop)
      exact hstep _ _ hreach hlast hU (ih hbeforeU)

end CausalFrontierRatchet.Sessions
