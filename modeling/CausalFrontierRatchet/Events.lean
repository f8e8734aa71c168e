import CausalFrontierRatchet.Authorisation
import CausalFrontierRatchet.Intake

/-!
What a handled message reports.  The events compare roster, version and derivability before and
after the message, so they cover every way in which these can change.  Convictions are not compared:
an identity that a message proves guilty is reported as having left, if it was a member, but not as
having equivocated.
-/

namespace CausalFrontierRatchet.Events

open Relation Crypto Operation KeySchedule Channel Messages
open Commands Member MemberSteps MemberRuns Intake Authorisation

variable {P : Primitives} {p p' : Participant}

/-! ## The states an ingestion lies between -/

section Between

variable (P) in
/-- Any elementary updates. -/
abbrev Later : Participant → Participant → Prop :=
  Steps P (fun _ => True) fun _ _ => True

variable (P) in
/-- The ingestion starts after one state and ends before another. -/
def Between (p p' : Participant) (x : Participant × Op) : Prop :=
  Later P p x.1 ∧ Later P (ingest P x.2 x.1).2 p'

theorem Between.mono {q q' : Participant} {x : Participant × Op} (h : Between P q q' x)
    (hbefore : Later P p q) (hafter : Later P q' p') : Between P p p' x :=
  ⟨hbefore.trans h.1, h.2.trans hafter⟩

end Between

/-! ## Convictions -/

section Convictions

end Convictions

/-! ## Reports -/

section Reports

variable (P) in
/-- The events that compare two states. -/
def changes (before after : Participant) : List Event :=
  (after.members.toList.filter fun who => !before.members.contains who).map .joined ++
    (before.members.toList.filter fun who => !after.members.contains who).map .left ++
    (if after.version P ≠ before.version P then [.keyChanged (after.version P)] else []) ++
    if after.canDerive P then [] else [.repairNeeded]

variable {before : Participant}

end Reports

section Scenario

/-- The guest admits a third party. -/
def admission : Op :=
  Op.create toy 2 5 host.dag.heads (.add 3)

end Scenario

end CausalFrontierRatchet.Events
