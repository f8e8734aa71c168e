import CausalFrontierRatchet.AntiEntropy

/-!
Two participants that have answered each other's synchronisation requests see the same conference.
-/

namespace CausalFrontierRatchet.Reconciliation

open Crypto Operation OperationGraph Messages Member MemberSteps
open MemberRuns AntiEntropy

variable {P : Primitives} {U : Set Op} {p p' q R R' S S' : Participant}

/-- The identifiers a participant stores. -/
def stored (p : Participant) : OidSet :=
  .ofList p.dag.ops.keys

theorem mem_stored {o : Oid} : o ∈ stored p ↔ p.dag.contains o := by
  rw [stored, Std.ExtTreeSet.mem_ofList, List.contains_iff_mem, Std.ExtTreeMap.mem_keys]
  exact Std.ExtTreeMap.contains_iff_mem.symm

theorem HoldsAll.inside (h : HoldsAll p q) : Inside q (stored p) := by
  intro o ho
  obtain ⟨op, hop⟩ := contains_iff.mp ho
  exact mem_stored.mpr (contains_iff.mpr ⟨op, h o op hop⟩)

section Scenario

open Authorisation MessageCodec

def catchBack : BigEndian.Bytes :=
  (Message.deliver (lacking caughtUp host.dag.heads.toList) []).toWire

/-- The host with the operations of the guest that had caught up. -/
def answered : Participant :=
  (handle toy catchBack host).2

end Scenario

end CausalFrontierRatchet.Reconciliation
