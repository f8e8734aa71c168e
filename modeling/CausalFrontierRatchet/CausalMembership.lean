import CausalFrontierRatchet.OperationGraph

/-!
Causal membership evaluation: which evictions of an identity count, which identities are members of
a graph or of the causal past of an operation, and which operations are authorised.
-/

namespace CausalFrontierRatchet.CausalMembership

open BigEndian Crypto Operation OperationGraph

/-- Removal policy fixed for the lifetime of a conference. -/
structure Policy where
  admins : Roster
  quorum : UInt64
  maxOpsPerAuthor : UInt64
deriving DecidableEq

def Policy.default : Policy :=
  ⟨∅, 2, 200⟩

def Policy.leaderless (quorum : UInt64) : Policy :=
  ⟨∅, max quorum 1, 200⟩

/-- An evaluator bound to a graph, a policy and the identities proven to have equivocated. -/
structure Membership where
  dag : Dag
  policy : Policy
  guilty : Roster

def admits : Body → Option SigPublic
  | .add who => some who
  | _ => none

namespace Membership

/-- The operations in view, in ascending order of identifier. -/
def iter (m : Membership) (keep : Option OidSet) : List (Oid × Op) :=
  m.dag.ops.toList.filter fun entry => keep.all fun keep => keep.contains entry.1

/-- An eviction that counts on its own. -/
def proves (m : Membership) (target : SigPublic) (op : Op) : Bool :=
  match op.body with
  | .remove who => who = target && (op.author = target || m.policy.admins.contains op.author)
  | .accuse who _ _ _ => who = target && m.guilty.contains target
  | _ => false

/-- An eviction that counts with a quorum. -/
def votesFor (m : Membership) (target : SigPublic) (op : Op) : Bool :=
  match op.body with
  | .remove who => who = target && !(op.author = target || m.policy.admins.contains op.author)
  | _ => false

/-- One vote per author, the first in the order of the scan. -/
def votes (m : Membership) (target : SigPublic) (keep : Option OidSet) :
    Std.ExtTreeMap SigPublic Oid :=
  (m.iter keep).foldl (fun votes entry =>
    if m.votesFor target entry.2 then votes.insertIfNew entry.2.author entry.1 else votes) ∅

def countedRemovesIn (m : Membership) (target : SigPublic) (keep : Option OidSet) : List Oid :=
  let proven := ((m.iter keep).filter fun entry => m.proves target entry.2).map Prod.fst
  let votes := m.votes target keep
  if m.policy.quorum.toNat ≤ votes.size then proven ++ votes.toList.map Prod.snd else proven

/-- The admissions of an identity. -/
def admissionsOf (m : Membership) (who : SigPublic) (keep : Option OidSet) : List Oid :=
  ((m.iter keep).filter fun entry => entry.2.body = .add who).map Prod.fst

def alive (m : Membership) (who : SigPublic) (keep : Option OidSet) : Bool :=
  (m.admissionsOf who keep).any fun admission =>
    (m.countedRemovesIn who keep).all fun removal => m.dag.precedes removal admission

/-- The identities some operation in view admits. -/
def admitted (m : Membership) (keep : Option OidSet) : Roster :=
  .ofList ((m.iter keep).filterMap fun entry => admits entry.2.body)

/-- The members in a causally closed part of the graph. -/
def membersIn (m : Membership) (keep : Option OidSet) : Roster :=
  (m.admitted keep).filter fun who => m.alive who keep

/-- The current membership. -/
def members (m : Membership) : Roster :=
  m.membersIn none

section Digest

variable (P : Primitives)

/-- The causal past of an operation, as far as the graph holds it. -/
def pastOf (m : Membership) (op : Op) : OidSet :=
  let oid := op.oid P
  let past := if m.dag.contains oid then m.dag.ancestors oid else ∅
  op.deps.foldl (fun past d =>
    if m.dag.contains d then past.insert d ∪ m.dag.ancestors d else past) past

/-- Membership as it stood in the causal past of an operation. -/
def membersBefore (m : Membership) (op : Op) : Roster :=
  m.membersIn (some (m.pastOf P op))

/-- The digest of a roster that is bound into every group key. -/
def rootForMembers (members : Roster) : BitVec 256 :=
  hash P "cfr/members" (members.toList.map bytesOf)

def root (m : Membership) : BitVec 256 :=
  rootForMembers P m.members

end Digest

end Membership

/-- A founding operation: a dependency-free self-admission. -/
def founding (op : Op) : Bool :=
  op.deps.isEmpty && op.body = .add op.author

/-- Applies authorisation to the roster of an operation's causal past.  Without a past, only the
unique founder may admit itself; a participant may always publish its own eviction. -/
def decideOp (op : Op) (past : Roster) (dag : Dag) : Bool :=
  match op.body with
  | .add _ =>
      past.contains op.author ||
        (founding op &&
          !dag.ops.toList.any fun entry => founding entry.2 && entry.2.author ≠ op.author)
  | .remove who => who = op.author || past.contains op.author
  | _ => past.contains op.author

def Membership.authorised (P : Primitives) (m : Membership) (op : Op) : Bool :=
  decideOp op (m.membersBefore P op) m.dag

end CausalFrontierRatchet.CausalMembership
