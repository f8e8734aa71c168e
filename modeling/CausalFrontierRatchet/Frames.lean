import CausalFrontierRatchet.MemberSteps

/-!
Frames for the commands of a participant.  A command writes the participant through a few elementary
updates.  A relation that contains the updates a group of commands uses, and composes, therefore
holds between the participant before and after each of them; which update a relation must look at
depends on the field it speaks of, and the others are immediate.
-/

namespace CausalFrontierRatchet.Frames

open Relation BigEndian Crypto Tlv Operation Channel
open Messages Commands Member MemberSteps

section Structures

variable (P : Primitives) (R : Participant → Participant → Prop)

structure Composes : Prop where
  refl : ∀ p, R p p
  trans : ∀ p q r, R p q → R q r → R p r

/-- A relation that holds across what is done to the node keys. -/
structure Keying : Prop extends Composes R where
  keyed : ∀ (p : Participant) nodekeys absorbed missing, R p { p with nodekeys, absorbed, missing }

/-- A relation that holds across the publication of operations. -/
structure Signing : Prop extends Composes R where
  signed : ∀ (p : Participant) signed, R p { p with signed }
  stored : ∀ (p : Participant) op, R p { p with dag := (p.dag.add P op).2 }

/-- A relation that holds across the answers to requests and the records of versions. -/
structure Serving : Prop extends Keying R where
  drawn : ∀ (p : Participant) entropy, R p { p with entropy }
  noted : ∀ p : Participant, R p (noteVersion P p).2

/-- A relation that holds across new prekeys. -/
structure Renewing : Prop extends Serving P R, Signing P R where
  rotated : ∀ (p : Participant) secret, R p { p with prekeys := p.prekeys.rotate P secret }

/-- A relation that holds across the opening of slices. -/
structure Reading : Prop extends Keying R, Signing P R where
  heard : ∀ (p : Participant) recv, R p { p with recv }
  judged : ∀ (p : Participant) guilty, R p { p with guilty }

/-- A relation that holds across contributions: a slice moves a sending channel that is open or can
be opened. -/
structure Sealing : Prop extends Serving P R, Signing P R where
  sealed : ∀ (p : Participant) v chan, v ∈ p.send ∨ v ∈ p.peerPrekeys →
    R p { p with send := p.send.insert v chan }

/-- A relation that holds across everything that comes in. -/
structure Framed : Prop extends Renewing P R, Reading P R where
  opened : ∀ (p : Participant) author eph shared prekeys recv,
    p.prekeys.agreeFor P author eph (p.members.filter fun m => m ≠ p.ipk) = (some shared, prekeys) →
    R p { p with prekeys, recv }
  learned : ∀ (p : Participant) author gen pk, R p (learnPrekey author gen pk p).2
  parked : ∀ (p : Participant) openAccusations, R p { p with openAccusations }
  waiting : ∀ (p : Participant) pending, R p { p with pending }

end Structures

variable {P : Primitives} {R : Participant → Participant → Prop} {p : Participant}

namespace Composes

variable (hR : Composes R)
include hR

theorem moves_pure {α : Type} (a : α) : Moves R (pure a : Act α) p :=
  hR.refl p

theorem moves_throw {α : Type} (e : Error) : Moves R (throw e : Act α) p :=
  hR.refl p

theorem moves_bind {α β : Type} {c : Act α} {f : α → Act β} (hc : Moves R c p)
    (hf : ∀ a p', Moves R (f a) p') : Moves R (c >>= f) p := by
  have : IsTrans Participant R := ⟨hR.trans⟩
  exact Commands.moves_bind hc fun a p' _ => hf a p'

theorem foldl {α : Type} {f : Participant → α → Participant} (h : ∀ q a, R q (f q a))
    (as : List α) (q : Participant) : R q (as.foldl f q) := by
  induction as generalizing q with
  | nil => exact hR.refl q
  | cons a as ih => exact hR.trans _ _ _ (h q a) (ih _)

theorem moves_lift {α β : Type} {e : Except Error α} {f : α → Act β}
    (h : ∀ a, Moves R (f a) p) : Moves R (liftM e >>= f) p := by
  cases e with
  | error e => exact hR.refl p
  | ok a => exact h a

end Composes

namespace Keying

variable (hR : Keying R)
include hR

theorem markMissing (oid : Oid) : Moves R (markMissing oid) p :=
  hR.keyed p p.nodekeys p.absorbed _

theorem learn (oid : Oid) (key : Secret) : Moves R (learn oid key) p :=
  hR.keyed p _ _ _

theorem absorb (op : Op) (x : Secret) : Moves R (absorb P op x) p := by
  unfold Member.absorb
  split
  · refine moves_get ?_
    dsimp only
    split_ifs
    · exact hR.moves_pure _
    · exact hR.moves_throw _
    · exact hR.learn _ _
    · split
      · exact hR.learn _ _
      · exact hR.moves_bind (hR.markMissing _) fun _ _ => hR.moves_throw _
  · exact hR.moves_throw _

theorem learnWanted (want : OidSet) (entries : List (Oid × Secret)) :
    Moves R (learnWanted want entries) p := by
  induction entries generalizing p with
  | nil => exact hR.moves_pure _
  | cons entry entries ih =>
      rw [Member.learnWanted]
      split
      · exact hR.moves_bind (hR.learn _ _) fun _ _ => ih
      · exact ih

theorem absorbNodeKeys (sender : SigPublic) (sealed : Envelope) :
    Moves R (absorbNodeKeys P sender sealed) p := by
  refine moves_get ?_
  split
  · exact hR.moves_throw _
  · exact hR.moves_lift fun _ => hR.moves_lift fun _ => hR.learnWanted _ _

end Keying

namespace Signing

variable (hR : Signing P R)
include hR

theorem signOp (body : Body) : Moves R (signOp P body) p :=
  hR.signed p _

theorem addOp (op : Op) : Moves R (addOp P op) p :=
  hR.stored p op

theorem publish (body : Body) : Moves R (publish P body) p :=
  hR.moves_bind (hR.signOp body) fun op _ =>
    hR.moves_bind (hR.addOp op) fun _ _ => hR.moves_pure _

theorem publishPrekeys : Moves R (publishPrekeys P) p :=
  moves_get (hR.moves_bind (hR.publish _) fun _ _ => hR.moves_pure _)

end Signing

namespace Serving

variable (hR : Serving P R)
include hR

theorem draw : Moves R draw p := by
  refine moves_get ?_
  split
  · exact hR.moves_throw _
  · exact hR.moves_bind (hR.drawn p _) fun _ _ => hR.moves_pure _

theorem noteVersion : Moves R (noteVersion P) p :=
  hR.noted p

theorem sealEnvelope (adLabel nonceLabel : String) (recipient : SigPublic) (gen : UInt32)
    (pk : DhPublic) (payload : Bytes) :
    Moves R (sealEnvelope P adLabel nonceLabel recipient gen pk payload) p := by
  refine moves_get (hR.moves_bind hR.draw fun eph q => ?_)
  split
  · exact hR.moves_throw _
  · exact hR.moves_pure _

theorem answerNodeKeysFor (recipient : SigPublic) (nodes : List Oid) :
    Moves R (answerNodeKeysFor P recipient nodes) p := by
  refine moves_get ?_
  dsimp only
  split
  · exact hR.moves_pure _
  split
  · exact hR.moves_pure _
  split
  · exact hR.moves_throw _
  · exact hR.moves_bind (hR.sealEnvelope _ _ _ _ _ _) fun _ _ => hR.moves_pure _

theorem settle (before : Participant) : Moves R (settle P before) p := by
  refine moves_get (hR.moves_bind ?_ fun _ q => moves_get (hR.moves_pure _))
  refine moves_get ?_
  dsimp only
  split_ifs
  · exact hR.moves_bind hR.noteVersion fun _ _ => hR.moves_pure _
  · exact hR.moves_pure _

theorem welcomeFor (kp : KeyPackage) : Moves R (welcomeFor P kp) p := by
  refine moves_get ?_
  split
  · exact hR.moves_throw _
  · exact hR.moves_bind (hR.sealEnvelope _ _ _ _ _ _) fun _ _ => hR.moves_pure _

end Serving

namespace Renewing

variable (hR : Renewing P R)
include hR

theorem rotatePrekeys : Moves R (rotatePrekeys P) p :=
  hR.moves_bind hR.draw fun secret q =>
    hR.moves_bind (hR.rotated q secret) fun _ _ => hR.publishPrekeys

theorem rotateWhen (due : Bool) : Moves R (rotateWhen P due) p := by
  unfold Member.rotateWhen
  split_ifs
  · exact hR.moves_bind hR.rotatePrekeys fun _ _ => hR.moves_pure _
  · exact hR.moves_pure _

theorem repairRequest : Moves R (repairRequest P) p := by
  refine moves_get ?_
  dsimp only
  split
  · exact hR.moves_pure _
  split
  · refine hR.moves_bind (moves_attempt hR.rotatePrekeys) fun r _ => ?_
    split
    · exact hR.moves_pure _
    · exact hR.moves_pure _
  · exact hR.moves_pure _

end Renewing

namespace Reading

variable (hR : Reading P R)
include hR

theorem judge (acc : Op) (who : SigPublic) : Moves R (judge P acc who) p := by
  refine moves_get ?_
  split
  · exact hR.judged p _
  · exact hR.moves_pure _

theorem accuseAuthor (op : Op) (key : Secret) (seq : UInt64) :
    Moves R (accuseAuthor P op key seq) p :=
  hR.moves_bind (hR.signOp _) fun acc _ => hR.moves_bind (hR.judge acc _) fun _ _ =>
    hR.moves_bind (hR.addOp acc) fun _ _ => hR.moves_pure _

theorem withRecv {β : Type} (author : SigPublic) (f : RecvChan → β × RecvChan) :
    Moves R (withRecv author f) p := by
  refine moves_get ?_
  split
  · exact hR.moves_pure _
  · exact hR.moves_bind (hR.heard p _) fun _ _ => hR.moves_pure _

theorem commitRecv (author : SigPublic) (seq : UInt64) : Moves R (commitRecv P author seq) p := by
  refine moves_get ?_
  split
  · exact hR.moves_pure _
  · exact hR.moves_lift fun _ =>
      hR.moves_bind (hR.heard p _) fun _ _ => hR.moves_pure _

theorem openSlice (op : Op) (key : Secret) (seq : UInt64) (ad : Bytes) :
    Moves R (openSlice P op key seq ad) p := by
  refine moves_get ?_
  split
  · split
    · exact hR.moves_pure _
    · dsimp only
      split
      · exact hR.moves_bind (hR.markMissing _) fun _ _ => hR.moves_pure _
      · refine hR.moves_bind (moves_attempt (hR.absorb op _)) fun r _ => ?_
        split
        · exact hR.moves_pure _
        · exact hR.moves_pure _
        · exact hR.moves_bind (hR.accuseAuthor _ _ _) fun _ _ => hR.moves_pure _
        · exact hR.moves_throw _
  · exact hR.moves_pure _

theorem drainSlices (author : SigPublic) (fuel : ℕ) : Moves R (drainSlices P author fuel) p := by
  induction fuel generalizing p with
  | zero => exact hR.moves_pure _
  | succ fuel ih =>
      refine hR.moves_bind (hR.withRecv author _) fun taken q => ?_
      split
      · refine moves_get ?_
        split
        · split
          · refine hR.moves_bind (hR.openSlice _ _ _ _) fun authentic q' => ?_
            split
            · refine hR.moves_bind (hR.commitRecv author _) fun moved q'' => ?_
              split
              · exact ih
              · exact hR.moves_pure _
            · exact hR.moves_pure _
          · exact hR.markMissing _
        · exact hR.markMissing _
      · exact hR.moves_pure _

theorem offerSlice (op : Op) (cid : Cid) (view : BitVec 256) (slice : Slice) :
    Moves R (offerSlice P op cid view slice) p := by
  refine hR.moves_bind (hR.withRecv op.author _) fun offered q => ?_
  split
  · refine hR.moves_bind (hR.openSlice _ _ _ _) fun authentic q' => ?_
    split
    · refine hR.moves_bind (hR.commitRecv op.author _) fun moved q'' => ?_
      split
      · exact hR.moves_throw _
      · exact moves_get (hR.drainSlices _ _)
    · exact hR.moves_pure _
  · exact hR.moves_pure _

end Reading

namespace Sealing

variable (hR : Sealing P R)
include hR

theorem setSend {v : SigPublic} (h : v ∈ p.send ∨ v ∈ p.peerPrekeys) (chan : Chan) :
    Moves R (setSend v chan) p :=
  hR.sealed p v chan h

theorem establish (v : SigPublic) : Moves R (establish P v) p := by
  have : IsTrans Participant R := ⟨hR.trans⟩
  refine moves_get ?_
  split_ifs
  · exact hR.moves_pure _
  split
  · exact hR.moves_throw _
  · rename_i gen pk hpeer
    refine Commands.moves_bind hR.draw fun eph q hdraw => ?_
    split
    · exact hR.moves_throw _
    · obtain ⟨rest, -, rfl⟩ := draw_ok hdraw
      have hknown : v ∈ { p with entropy := rest }.peerPrekeys := by
        rw [Std.ExtTreeMap.mem_iff_isSome_getElem?, hpeer]
        rfl
      exact hR.moves_bind (hR.setSend (Or.inr hknown) _) fun _ _ => hR.moves_pure _

theorem sealSlice (cid : Cid) (ad : Bytes) (x : Secret) (v : SigPublic) :
    Moves R (sealSlice P cid ad x v) p := by
  refine hR.moves_bind (hR.establish v) fun _ q => moves_get ?_
  split
  · exact hR.moves_throw _
  · rename_i chan hchan
    have hopen : v ∈ q.send := by
      rw [Std.ExtTreeMap.mem_iff_isSome_getElem?, hchan]
      rfl
    exact hR.moves_lift fun _ =>
      hR.moves_bind (hR.setSend (Or.inl hopen) _) fun _ _ => hR.moves_pure _

theorem sealSlices (cid : Cid) (ad : Bytes) (x : Secret) (recips : List SigPublic) :
    Moves R (sealSlices P cid ad x recips) p := by
  induction recips generalizing p with
  | nil => exact hR.moves_pure _
  | cons v recips ih =>
      exact hR.moves_bind (hR.sealSlice cid ad x v) fun _ _ =>
        hR.moves_bind ih fun _ _ => hR.moves_pure _

theorem contributeTo (members : Roster) (recips : List SigPublic) :
    Moves R (contributeTo P members recips) p := by
  refine moves_get ?_
  dsimp only
  split
  · exact hR.moves_throw _
  refine hR.moves_bind hR.draw fun x _ => hR.moves_bind (hR.sealSlices _ _ x recips) fun _ _ => ?_
  refine hR.moves_bind (hR.publish _) fun op _ => hR.moves_bind (hR.absorb op x) fun _ _ => ?_
  exact hR.moves_bind hR.noteVersion fun _ _ => hR.moves_pure _

theorem contributeExcluding (exclude : Roster) : Moves R (contributeExcluding P exclude) p := by
  refine moves_get ?_
  dsimp only
  split
  · exact hR.moves_throw _
  split
  · exact hR.moves_throw _
  split
  · exact hR.moves_bind (hR.publish _) fun _ _ => hR.moves_pure _
  · exact hR.contributeTo _ _

theorem found : Moves R (found P) p := by
  refine moves_get (hR.moves_bind (hR.publish _) fun _ _ => ?_)
  refine hR.moves_bind hR.publishPrekeys fun _ _ => ?_
  refine hR.moves_bind (hR.contributeExcluding _) fun _ _ => ?_
  exact hR.moves_bind hR.noteVersion fun _ _ => hR.moves_pure _

end Sealing

/-- An invitation that is refused changes nothing. -/
theorem invite_refused {kp : KeyPackage} (h : ¬(kp.verify P = .ok () ∧ p.ipk ∈ p.members)) :
    (invite P kp p).2 = p := by
  unfold invite
  rw [bind_run, lift_run]
  cases hverify : kp.verify P with
  | error e => rfl
  | ok _ =>
      have hstranger : p.members.contains p.ipk = false := by
        rw [← Bool.not_eq_true, Std.ExtTreeSet.contains_iff_mem]
        exact fun hmember => h ⟨hverify, hmember⟩
      dsimp only
      rw [bind_run, get_run]
      dsimp only
      rw [hstranger]
      rfl

/-- What an invitation does after it has recorded the prekey. -/
theorem invite_after (hN : Renewing P R) (hS : Sealing P R) {kp : KeyPackage}
    (hverify : kp.verify P = .ok ()) (hmember : p.ipk ∈ p.members) :
    R { p with peerPrekeys := p.peerPrekeys.insert kp.ipk (kp.gen, kp.prekey) }
      (invite P kp p).2 := by
  unfold invite
  rw [bind_run, lift_run, hverify]
  dsimp only
  rw [bind_run, get_run]
  dsimp only
  rw [Std.ExtTreeSet.contains_iff_mem.mpr hmember, if_neg (by decide), bind_run, modify_run]
  refine hN.moves_bind (hN.publish _) fun _ _ => hN.moves_bind (hN.rotateWhen _) fun _ _ => ?_
  refine hN.moves_bind (hN.welcomeFor kp) fun _ _ => ?_
  refine hN.moves_bind (hS.contributeExcluding _) fun _ _ => ?_
  exact hN.moves_bind hN.noteVersion fun _ _ => hN.moves_pure _

namespace Framed

variable (hR : Framed P R)
include hR

theorem openChannel (op : Op) (gen : UInt32) (eph : DhPublic) :
    Moves R (openChannel P op gen eph) p := by
  refine moves_get ?_
  dsimp only
  split
  · exact hR.moves_pure _
  split
  · exact hR.moves_bind (hR.markMissing _) fun _ _ => hR.moves_pure _
  split
  · exact hR.moves_bind (hR.markMissing _) fun _ _ =>
      hR.moves_bind hR.rotatePrekeys fun _ _ => hR.moves_pure _
  · rename_i hagree
    exact hR.moves_bind (hR.opened p _ _ _ _ _ hagree) fun _ _ => hR.moves_pure _

theorem announce (op : Op) (announced : Option (UInt32 × DhPublic)) :
    Moves R (announce P op announced) p := by
  unfold Member.announce
  split
  · exact hR.openChannel _ _ _
  · exact hR.moves_pure _

theorem receiveContribution (op : Op) : Moves R (receiveContribution P op) p := by
  refine moves_get ?_
  split
  · split
    · exact hR.moves_pure _
    · refine hR.moves_bind (hR.announce op _) fun opening q => ?_
      split
      · exact hR.moves_pure _
      · exact hR.moves_bind (hR.offerSlice _ _ _ _) fun _ _ => hR.moves_pure _
  · exact hR.moves_pure _

theorem retryAccusations : Moves R (retryAccusations P) p := by
  refine hR.trans _ _ _ (hR.parked p []) (hR.foldl (fun q acc => ?_) p.openAccusations _)
  dsimp only
  split
  · split
    · exact hR.judged q _
    · exact hR.refl q
  · split
    · split
      · exact hR.parked q _
      · exact hR.refl q
    · split
      · exact hR.parked q _
      · exact hR.refl q

theorem applyOp (op : Op) : Moves R (applyOp P op) p := by
  refine moves_get ?_
  split
  · exact hR.moves_bind (hR.learned p _ _ _) fun _ _ => hR.moves_pure _
  · exact hR.receiveContribution op
  · exact hR.moves_bind (hR.judge op _) fun _ _ => hR.moves_pure _
  · exact hR.rotateWhen _
  · exact hR.rotateWhen _
  · exact hR.moves_pure _

theorem park (op : Op) : Moves R (park op) p := by
  refine moves_modify ?_
  split
  · exact hR.waiting p _
  · exact hR.refl p

theorem ingest (op : Op) : Moves R (ingest P op) p := by
  refine moves_get ?_
  split
  · exact hR.moves_throw _
  refine hR.moves_lift fun _ => ?_
  split
  · exact hR.moves_pure _
  split
  · exact hR.moves_bind (hR.park op) fun _ _ => hR.moves_pure _
  split
  · exact hR.moves_throw _
  · exact hR.moves_bind (hR.addOp op) fun _ _ => hR.moves_bind (hR.applyOp op) fun _ _ =>
      hR.moves_bind hR.retryAccusations fun _ _ => hR.moves_pure _

theorem ingestAll (ops : List Op) : Moves R (ingestAll P ops) p := by
  induction ops generalizing p with
  | nil => exact hR.moves_pure _
  | cons op ops ih =>
      exact hR.moves_bind (moves_attempt (hR.ingest op)) fun _ _ =>
        hR.moves_bind ih fun _ _ => hR.moves_pure _

theorem ingestHistory (ops : List Op) : Moves R (ingestHistory P ops) p := by
  induction ops generalizing p with
  | nil => exact hR.moves_pure _
  | cons op ops ih => exact hR.moves_bind (hR.ingest op) fun _ _ => ih

theorem drainPass (waiting : List Op) : Moves R (drainPass P waiting) p := by
  induction waiting generalizing p with
  | nil => exact hR.moves_pure _
  | cons op waiting ih =>
      refine moves_get ?_
      split
      · exact hR.moves_bind ih fun _ _ => hR.moves_pure _
      · refine hR.moves_bind (moves_attempt (hR.ingest op)) fun first _ => ?_
        split
        · exact hR.moves_bind ih fun _ _ => hR.moves_pure _
        · exact ih

theorem drainRounds (rounds : ℕ) (waiting : List Op) :
    Moves R (drainRounds P rounds waiting) p := by
  induction rounds generalizing p waiting with
  | zero => exact hR.moves_bind (hR.waiting p _) fun _ _ => hR.moves_pure _
  | succ rounds ih =>
      refine hR.moves_bind (hR.drainPass waiting) fun result q => ?_
      dsimp only
      split
      · exact hR.moves_bind (ih _) fun _ _ => hR.moves_pure _
      · exact hR.moves_bind (hR.waiting q _) fun _ _ => hR.moves_pure _

theorem drainPending : Moves R (drainPending P) p :=
  moves_get (hR.moves_bind (hR.waiting p []) fun _ _ => hR.drainRounds _ _)

theorem dispatch (m : Message) : Moves R (dispatch P m) p := by
  cases m with
  | op o => exact hR.moves_bind (hR.ingest o) fun _ _ => hR.moves_pure _
  | deliver ops pruned => exact hR.moves_bind (hR.ingestAll ops) fun _ _ => hR.moves_pure _
  | sync sender heads => exact moves_get (hR.moves_pure _)
  | nodeKeyRequest sender nodes =>
      exact hR.moves_bind (hR.answerNodeKeysFor _ _) fun _ _ => hR.moves_pure _
  | nodeKeyResponse sender sealed =>
      exact hR.moves_bind (hR.absorbNodeKeys _ _) fun _ _ => hR.moves_pure _
  | checkpoint certificate => exact moves_get (hR.moves_lift fun _ => hR.moves_pure _)
  | welcome sid sender sealed history pruned => exact hR.moves_throw _

theorem handle (wire : Bytes) : Moves R (handle P wire) p := by
  refine hR.moves_lift fun m => moves_get ?_
  refine hR.moves_bind (hR.dispatch m) fun result q => ?_
  exact hR.moves_bind hR.drainPending fun _ _ =>
    hR.moves_bind (hR.settle p) fun _ _ => hR.moves_pure _

end Framed

end CausalFrontierRatchet.Frames
