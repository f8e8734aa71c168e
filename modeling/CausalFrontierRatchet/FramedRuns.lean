import CausalFrontierRatchet.Frames
import CausalFrontierRatchet.MemberRuns

/-!
Frames for whole runs.  A relation that contains every elementary update and composes holds between
the empty participant and whatever it becomes, so a property that no elementary update destroys
holds in every reachable state.
-/

namespace CausalFrontierRatchet.FramedRuns

open Relation Crypto Operation
open Messages Commands Member MemberRuns Frames

/-- A prekey that is learnt concerns the sending side only. -/
theorem learnPrekey_run (author : SigPublic) (gen : UInt32) (pk : DhPublic) (p : Participant) :
    ∃ peerPrekeys send, (learnPrekey author gen pk p).2 = { p with peerPrekeys, send } := by
  rw [learnPrekey, modify_run]
  split
  · exact ⟨_, _, rfl⟩
  split_ifs
  · exact ⟨_, _, rfl⟩
  · exact ⟨_, _, rfl⟩

/-- A relation that holds across everything a participant does. -/
structure Everywhere (P : Primitives) (R : Participant → Participant → Prop) : Prop
    extends Framed P R, Sealing P R where
  invited : ∀ (p : Participant) peerPrekeys, R p { p with peerPrekeys }
  erased : ∀ (p : Participant) who,
    R p { p with send := p.send.erase who, recv := p.recv.erase who }
  ticked : ∀ p : Participant, R p { p with prekeys := p.prekeys.tick }

namespace Everywhere

variable {P : Primitives} {R : Participant → Participant → Prop} {p : Participant}
  (hR : Everywhere P R)
include hR

theorem invite (kp : KeyPackage) : R p (invite P kp p).2 := by
  by_cases h : kp.verify P = .ok () ∧ p.ipk ∈ p.members
  · exact hR.trans _ _ _ (hR.invited p _) (invite_after hR.toRenewing hR.toSealing h.1 h.2)
  · rw [invite_refused h]
    exact hR.refl p

theorem remove (who : SigPublic) : Moves R (remove P who) p := by
  refine hR.moves_bind (hR.publish _) fun _ _ => ?_
  refine hR.moves_bind (hR.contributeExcluding _) fun _ q => ?_
  refine hR.moves_bind (moves_modify (hR.erased q who)) fun _ _ => ?_
  exact hR.moves_bind hR.noteVersion fun _ _ => hR.moves_pure _

theorem leave : Moves R (leave P) p :=
  moves_get (hR.moves_bind (hR.publish _) fun _ _ => hR.moves_pure _)

theorem call (c : Call) : R p (c.run P p) := by
  cases c with
  | publishPrekeys => exact hR.publishPrekeys
  | rotatePrekeys => exact hR.rotatePrekeys
  | tick => exact hR.ticked p
  | contribute exclude => exact hR.contributeExcluding exclude
  | invite kp => exact hR.invite kp
  | remove who => exact hR.remove who
  | leave => exact hR.leave
  | handle wire => exact hR.handle wire
  | repairRequest => exact hR.repairRequest

theorem joinWith {entries : List (Oid × Secret)} {history : List Op} {out : List Outbound}
    {p' : Participant} (h : joinWith P entries history p = (.ok out, p')) : R p p' := by
  obtain ⟨p₁, hhistory, -, o, p₂, hpublish, hnote, -⟩ := joinWith_history h
  cases hnote
  obtain ⟨nodekeys, absorbed, htaken⟩ := foldl_takeOver entries p
  rw [htaken] at hhistory
  have hkeyed := hR.keyed p nodekeys absorbed p.missing
  have hread := hR.trans _ _ _ hkeyed ((hR.ingestHistory history).run hhistory)
  exact hR.trans _ _ _ (hR.trans _ _ _ hread (hR.publishPrekeys.run hpublish)) (hR.noted p₂)

theorem start {src : Op → Prop} {rep : Oid → Secret → Prop} (h : Start P src rep p) :
    ∃ identity sid policy seed0 prekeys entropy,
      R (blank P identity sid policy seed0 prekeys entropy) p := by
  cases h with
  | created h =>
      obtain ⟨identity, sid, seed0, prekey, rest, -, hfound⟩ := create_ok h
      exact ⟨identity, sid, _, seed0, _, rest, hR.found.run hfound⟩
  | joined hnew h _ _ =>
      obtain ⟨w, hjoin⟩ := accept_ok h
      exact ⟨_, w.sid, _, w.seed0, _, _, hR.joinWith hjoin⟩

end Everywhere

/-- A property that holds at the beginning and across everything holds in every reachable state. -/
theorem reachable_invariant {P : Primitives} {I : Participant → Prop} {p : Participant}
    (hI : Everywhere P fun p p' => I p → I p')
    (hblank : ∀ identity sid policy seed0 prekeys entropy,
      I (blank P identity sid policy seed0 prekeys entropy)) (h : Reachable P p) : I p := by
  obtain ⟨p₀, hstart, hrun⟩ := h
  induction hrun with
  | start =>
      obtain ⟨identity, sid, policy, seed0, prekeys, entropy, hfirst⟩ := hI.start hstart
      exact hfirst (hblank identity sid policy seed0 prekeys entropy)
  | call c _ _ ih => exact hI.call c ih

end CausalFrontierRatchet.FramedRuns
