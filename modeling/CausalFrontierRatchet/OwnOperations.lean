import CausalFrontierRatchet.ContributionLedger
import CausalFrontierRatchet.Events
import CausalFrontierRatchet.Outputs

/-!
Which operations of its own a participant tells the others.  Everything that a call signs and stores
is broadcast by that call, with two exceptions: an accusation that taking in an operation leads to,
and whatever the replay of a welcome's history makes a newcomer sign.
-/

namespace CausalFrontierRatchet.OwnOperations

open Relation BigEndian Crypto Tlv Operation OperationGraph
open Messages Commands Member MemberSteps MemberRuns MemberActions Ingest Intake ContributionLedger
open Outputs Events Authorisation

variable {P : Primitives} {p p' q r : Participant}

/-! ## Books on what is signed -/

section Books

variable (P)

/-- Signed between two states. -/
def Signed (p p' : Participant) (op : Op) : Prop :=
  ∃ fresh, p'.signed = fresh ++ p.signed ∧ op ∈ fresh

def Stored (p : Participant) (op : Op) : Prop :=
  p.dag.get (op.oid P) = some op

/-- Every operation signed and inserted into the graph between two states is broadcast. -/
def Told (p p' : Participant) (out : List Outbound) : Prop :=
  ∀ op, Signed p p' op → ¬Stored P p op → Stored P p' op → .broadcast (.op op) ∈ out

/-- The graph cannot take the operation any more. -/
def Blocked (p : Participant) (op : Op) : Prop :=
  ¬Stored P p op ∧ (MAX_OPS ≤ p.dag.ops.size ∨ p.dag.contains (op.oid P))

/-- Whatever is signed between two states is not stored before, and it is stored and broadcast, or
stored and excused, or can never be stored. -/
structure Accounted (excused : Op → Prop) (out : List Outbound) (p p' : Participant) : Prop where
  full : MAX_OPS ≤ p.dag.ops.size → p'.dag = p.dag
  keeps : ∀ oid op, p.dag.get oid = some op → p'.dag.get oid = some op
  fresh : ∃ fresh, p'.signed = fresh ++ p.signed ∧ ∀ op ∈ fresh, ¬Stored P p op ∧
    ((Stored P p' op ∧ (.broadcast (.op op) ∈ out ∨ excused op)) ∨ Blocked P p' op)

end Books

section Accounts

variable {excused excused' : Op → Prop} {out out' : List Outbound}

theorem Accounted.blocked (h : Accounted P excused out p p') {op : Op} (hblocked : Blocked P p op) :
    Blocked P p' op := by
  obtain ⟨habsent, hfull | htaken⟩ := hblocked
  · have hdag := h.full hfull
    exact ⟨by rwa [Stored, hdag], Or.inl (by rwa [hdag])⟩
  · obtain ⟨other, hother⟩ := contains_iff.mp htaken
    have hkept := h.keeps _ _ hother
    refine ⟨fun hstored => habsent ?_, Or.inr (contains_iff.mpr ⟨other, hkept⟩)⟩
    rw [Stored, hkept] at hstored
    rw [Stored, hother, hstored]

theorem Accounted.mono (h : Accounted P excused out p p')
    (hexcused : ∀ op, excused op → excused' op) (hout : out ⊆ out') :
    Accounted P excused' out' p p' := by
  obtain ⟨fresh, hsigned, hfresh⟩ := h.fresh
  refine ⟨h.full, h.keeps, fresh, hsigned, fun op hop => ?_⟩
  obtain ⟨habsent, hcase⟩ := hfresh op hop
  exact ⟨habsent, hcase.imp_left (And.imp_right (Or.imp (@hout _) (hexcused op)))⟩

theorem Accounted.trans (h : Accounted P excused out p q) (h' : Accounted P excused out' q r) :
    Accounted P excused (out ++ out') p r := by
  obtain ⟨fresh, hsigned, hfresh⟩ := h.fresh
  obtain ⟨fresh', hsigned', hfresh'⟩ := h'.fresh
  refine ⟨fun hfull => ?_, fun oid op hop => h'.keeps oid op (h.keeps oid op hop),
    fresh' ++ fresh, by rw [hsigned', hsigned, List.append_assoc], fun op hop => ?_⟩
  · have hdag := h.full hfull
    rw [h'.full (by rwa [hdag]), hdag]
  rcases List.mem_append.mp hop with hop | hop
  · obtain ⟨habsent, hcase⟩ := hfresh' op hop
    refine ⟨fun hstored => habsent (h.keeps _ _ hstored), hcase.imp_left ?_⟩
    exact And.imp_right (Or.imp_left (List.mem_append_right _))
  · obtain ⟨habsent, ⟨hstored, htold⟩ | hblocked⟩ := hfresh op hop
    · exact ⟨habsent, Or.inl ⟨h'.keeps _ _ hstored, htold.imp_left (List.mem_append_left _)⟩⟩
    · exact ⟨habsent, Or.inr (h'.blocked hblocked)⟩

theorem accounted_same (hdag : p'.dag = p.dag) (hsigned : p'.signed = p.signed) :
    Accounted P excused out p p' where
  full _ := hdag
  keeps _ _ hop := by rwa [hdag]
  fresh := ⟨[], hsigned, fun _ hop => absurd hop List.not_mem_nil⟩

theorem Silent.accounted (h : Silent p p') : Accounted P excused out p p' :=
  accounted_same h.dag h.signed

theorem Accounted.before (h : Accounted P excused out q r) (hsilent : Silent p q) :
    Accounted P excused out p r := by
  have hbefore : Accounted P excused [] p q := Silent.accounted hsilent
  exact hbefore.trans h

theorem Accounted.after (h : Accounted P excused out p q) (hsilent : Silent q r) :
    Accounted P excused out p r := by
  have hafter : Accounted P excused [] q r := Silent.accounted hsilent
  simpa using h.trans hafter

theorem Added.accounted {op : Op} {dag : Dag} (h : Added P p.dag op dag) :
    Accounted P excused out p { p with dag } where
  full hfull := absurd h.room (Nat.not_lt.mpr hfull)
  keeps _ _ hop := h.get_mono hop
  fresh := ⟨[], rfl, fun _ hop => absurd hop List.not_mem_nil⟩

/-- A signed operation is stored, unless its identifier is taken or the graph is full. -/
theorem published_accounted (hp : Consistent P p) {body : Body}
    (htold : p.dag.ops.size < MAX_OPS →
      .broadcast (.op (p.sign P body)) ∈ out ∨ excused (p.sign P body)) :
    Accounted P excused out p (published P p body) := by
  have habsent : ¬Stored P p (p.sign P body) := sign_absent hp.sound hp.complete body
  have hsigned : (published P p body).signed = [p.sign P body] ++ p.signed := rfl
  rcases add_cases (P := P) p.dag (p.sign P body) with ⟨e, he⟩ | ⟨htaken, hsame⟩ | ⟨dag, hadd, hnew⟩
  · have hdag : (published P p body).dag = p.dag := congrArg Prod.snd he
    refine ⟨fun _ => hdag, fun _ _ hop => by rwa [hdag], _, hsigned, fun op hop => ?_⟩
    rw [List.mem_singleton.mp hop]
    exact ⟨habsent, Or.inr ⟨by rwa [Stored, hdag],
      Or.inl (hdag ▸ add_full (congrArg Prod.fst he))⟩⟩
  · have hdag : (published P p body).dag = p.dag := congrArg Prod.snd hsame
    refine ⟨fun _ => hdag, fun _ _ hop => by rwa [hdag], _, hsigned, fun op hop => ?_⟩
    rw [List.mem_singleton.mp hop]
    exact ⟨habsent, Or.inr ⟨by rwa [Stored, hdag], Or.inr (hdag ▸ htaken)⟩⟩
  · have hdag : (published P p body).dag = dag := congrArg Prod.snd hnew
    refine ⟨fun hfull => absurd hadd.room (Nat.not_lt.mpr hfull),
      fun _ _ hop => hdag ▸ hadd.get_mono hop, _, hsigned, fun op hop => ?_⟩
    rw [List.mem_singleton.mp hop]
    refine ⟨habsent, Or.inl ⟨?_, htold hadd.room⟩⟩
    rw [Stored, hdag, hadd.get, if_pos rfl]

/-- Actions that publish excused operations only. -/
theorem Acts.accounted {may : Participant → Body → Prop} {convicts : Participant → SigPublic → Prop}
    (hmay : ∀ q body, may q body → excused (q.sign P body)) (hp : Consistent P p)
    (h : Acts P may convicts p p') : Accounted P excused [] p p' := by
  induction h with
  | refl => exact accounted_same rfl rfl
  | tail hacts haction ih =>
      have hq := Acts.consistent hacts hp
      apply ih.trans
      cases haction with
      | silent h => exact Silent.accounted h
      | published h => exact published_accounted hq fun _ => Or.inr (hmay _ _ h)
      | convicted h => exact accounted_same rfl rfl

end Accounts

/-! ## Commands that account for what they sign -/

section Commands

variable {α β : Type} {excused : Op → Prop}

/-- What a command hands on, nothing if it fails. -/
def told (out : α → List Outbound) : Except Error α → List Outbound
  | .ok a => out a
  | .error _ => []

variable (P) in
/-- The command hands on what it signs and stores. -/
def Tells (excused : Op → Prop) (out : α → List Outbound) (c : Act α) (p : Participant) : Prop :=
  Accounted P excused (told out (c p).1) p (c p).2

theorem Tells.run {out : α → List Outbound} {c : Act α} (h : Tells P excused out c p)
    {result : Except Error α} (hrun : c p = (result, p')) :
    Accounted P excused (told out result) p p' := by
  rwa [Tells, hrun] at h

/-- An accusation of its own. -/
def Accusation (op : Op) : Prop :=
  op.kind = .accuse

end Commands

/-! ## Messages -/

section Messages

variable (P) in
/-- Taking in an operation makes the participant sign and store an accusation. -/
def Denounces (x : Participant × Op) (acc : Op) : Prop :=
  Accusation acc ∧ Signed x.1 (ingest P x.2 x.1).2 acc ∧ Stored P (ingest P x.2 x.1).2 acc

variable (P) in
def Denounced (ingestions : List (Participant × Op)) (acc : Op) : Prop :=
  ∃ x ∈ ingestions, Denounces P x acc

theorem Denounced.mono {xs ys : List (Participant × Op)} (hsub : xs ⊆ ys) (acc : Op)
    (h : Denounced P xs acc) : Denounced P ys acc := by
  obtain ⟨x, hx, hacc⟩ := h
  exact ⟨x, hsub hx, hacc⟩

/-- Everything is told unless what is excused is signed and stored. -/
theorem Accounted.told {excused : Op → Prop} {out : List Outbound}
    (h : Accounted P excused out p p') (hexcused : ∀ op, ¬excused op) : Told P p p' out := by
  obtain ⟨fresh, hsigned, hfresh⟩ := h.fresh
  rintro op ⟨fresh', hsigned', hop⟩ - hstored
  obtain rfl : fresh' = fresh := List.append_cancel_right (hsigned'.symm.trans hsigned)
  obtain ⟨-, ⟨-, htold | hbad⟩ | hblocked⟩ := hfresh op hop
  · exact htold
  · exact absurd hbad (hexcused op)
  · exact absurd hstored hblocked.1

end Messages

/-! ## Own calls -/

section Calls

end Calls

/-! ## The replay of a history -/

section Replay

instance {j : PendingJoin} {wire : Bytes} : Subsingleton (Welcome P j wire) where
  allEq w w' := by
    obtain ⟨sid, sender, sealed, history, pruned, plain, seed0, entries, hparsed, hopened,
      hpayload⟩ := w
    obtain ⟨sid', sender', sealed', history', pruned', plain', seed0', entries', hparsed', hopened',
      hpayload'⟩ := w'
    cases hparsed.symm.trans hparsed'
    cases hopened.symm.trans hopened'
    cases hpayload.symm.trans hpayload'
    rfl

end Replay

/-! ## What is withheld -/

end CausalFrontierRatchet.OwnOperations
