import CausalFrontierRatchet.Member

/-!
The persisted participant.  Everything that is not derived is written: identity, session, policy,
the graph in topological order, prekeys, channels, node keys, what is absorbed, missing and pending,
and the retained versions.  Reading rejects what no participant is meant to hold.

Randomness and the history of signed operations are not persisted; a reader is given them.
-/

namespace CausalFrontierRatchet.ParticipantState

open BigEndian Crypto Tlv Operation OperationGraph CausalMembership KeySchedule Channel Messages
open Member

/-! ## Writing -/

section Writing

def writeSigSet (values : Roster) : Bytes :=
  Writer.set Writer.array values.toList

def writeOidSet (values : OidSet) : Bytes :=
  Writer.set Writer.array values.toList

def writePolicy (policy : Policy) : Bytes :=
  writeSigSet policy.admins ++ Writer.u64 policy.quorum ++ Writer.u64 policy.maxOpsPerAuthor

def writePrekeys (pool : PrekeyPool) : Bytes :=
  Writer.u32 pool.generation ++
    (match pool.secret with
    | some secret => Writer.u32 1 ++ Writer.array secret
    | none => Writer.u32 0) ++
    Writer.array pool.pub ++ writeSigSet pool.established ++ Writer.u32 pool.age

def writeChan (chan : Chan) : Bytes :=
  Writer.array chan.chain ++ Writer.u64 chan.next

/-- The operation a graph holds for an identifier it lists. -/
def listed (dag : Dag) (oid : Oid) : Except Error Op :=
  match dag.get oid with
  | some op => .ok op
  | none => .error (.encoding "state operation graph is inconsistent")

def writeDag (dag : Dag) : Except Error Bytes := do
  let order := dag.topological
  if order.length ≠ dag.ops.size then throw (.encoding "state operation graph contains a cycle")
  else
    let operations ← order.mapM (listed dag)
    return Writer.list Op.write operations

def writeOperations (operations : List Op) : Bytes :=
  Writer.list Op.write operations

def writePeerPrekey (entry : SigPublic × UInt32 × DhPublic) : Bytes :=
  Writer.array entry.1 ++ Writer.u32 entry.2.1 ++ Writer.array entry.2.2

def writeSend (entry : SigPublic × Chan) : Bytes :=
  Writer.array entry.1 ++ writeChan entry.2

def writeBuffered (entry : UInt64 × Bytes) : Bytes :=
  Writer.u64 entry.1 ++ Writer.bytes entry.2

def writeRecvChan (chan : RecvChan) : Bytes :=
  writeChan chan.chan ++ Writer.list writeBuffered chan.buffer.toList

def writeRecv (entry : SigPublic × RecvState) : Bytes :=
  Writer.array entry.1 ++ Writer.array entry.2.eph ++ writeRecvChan entry.2.chan

def writeNodekeys (store : NodeKeys) : Except Error Bytes :=
  if 2 ^ 64 ≤ store.capacity then .error (.encoding "state integer exceeds u64")
  else .ok (Writer.u64 (UInt64.ofNat store.capacity) ++ Writer.list writeEntry store.keys.toList ++
    Writer.list Writer.array store.order)

def writeVersion (entry : BitVec 64 × OidSet × BitVec 256) : Bytes :=
  Writer.array entry.1 ++ writeOidSet entry.2.1 ++ Writer.array entry.2.2

/-- Encodes all state of a participant that is not derived. -/
def exportPersistenceState (p : Participant) : Except Error Bytes := do
  let dag ← writeDag p.dag
  let nodekeys ← writeNodekeys p.nodekeys
  let bytes := Writer.array p.identity ++ Writer.array p.ipk ++ Writer.array p.sid ++
    writePolicy p.policy ++ Writer.array p.seed0 ++ dag ++ writeSigSet p.guilty ++
    writePrekeys p.prekeys ++ Writer.list writePeerPrekey p.peerPrekeys.toList ++
    Writer.list writeSend p.send.toList ++ Writer.list writeRecv p.recv.toList ++ nodekeys ++
    writeOidSet p.absorbed ++ writeOidSet p.missing ++ writeOperations p.pending ++
    writeOperations p.openAccusations ++ Writer.list writeVersion p.seenVersions.toList ++
    Writer.array p.lastVersion
  if MAX_FIELD < bytes.length then
    throw (.limitExceeded "participant state exceeds codec limit")
  else return bytes

end Writing

/-! ## Reading -/

section Reading

/-- A set of fixed-width values, no larger than a limit. -/
def readSet (limit : ℕ) (tooMany : String) : Reader (Std.ExtTreeSet (BitVec 256)) := do
  let values ← Reader.set (Reader.array 256)
  if limit < values.length then throw (.encoding tooMany) else pure (.ofList values)

def readSigSet (limit : ℕ) : Reader Roster :=
  readSet limit "state identity set exceeds limit"

def readOidSet (limit : ℕ) : Reader OidSet :=
  readSet limit "state operation set exceeds limit"

def readPolicy : Reader Policy := do
  let admins ← readSigSet MAX_RECIPIENTS
  let quorum ← Reader.u64
  let maxOpsPerAuthor ← Reader.u64
  if quorum = 0 ∨ maxOpsPerAuthor = 0 then throw (.encoding "state contains an invalid policy")
  else pure { admins, quorum, maxOpsPerAuthor }

def readSecret : Reader (Option Secret) := do
  let present ← Reader.u32
  if present = 0 then pure none
  else if present = 1 then
    let secret ← Reader.array 256
    pure (some secret)
  else throw (.encoding "state prekey presence flag is invalid")

def readPrekeys (P : Primitives) : Reader PrekeyPool := do
  let generation ← Reader.u32
  let secret ← readSecret
  let pub ← Reader.array 256
  let established ← readSigSet MAX_RECIPIENTS
  let age ← Reader.u32
  if secret.any fun secret => P.x25519Public secret ≠ pub then
    throw (.encoding "state prekey public and private halves differ")
  else if secret.isSome ∧ SEAL_AFTER ≤ age then
    throw (.encoding "state retains an expired prekey secret")
  else pure { generation, secret, pub, established, age }

def readChan : Reader Chan := do
  let chain ← Reader.array 256
  let next ← Reader.u64
  pure { chain, next }

/-- Adds an operation to the graph read so far, along with the identifiers seen. -/
def readInto (P : Primitives) (sid : SessionId) (read : Dag × OidSet) (op : Op) :
    Except Error (Dag × OidSet) := do
  if op.sid ≠ sid then throw (.encoding "state operation belongs to another session")
  else
    op.verify P
    if read.2.contains (op.oid P) then
      throw (.encoding "state operation graph contains a duplicate")
    else
      let seen := read.2.insert (op.oid P)
      if !op.deps.toList.all fun d => seen.contains d then
        throw (.encoding "state operation graph is not causally ordered")
      else
        match read.1.add P op with
        | (.ok _, dag) => return (dag, seen)
        | (.error e, _) => throw e

def readDag (P : Primitives) (sid : SessionId) : Reader Dag := do
  let operations ← Reader.list readOp
  if operations = [] ∨ MAX_OPS < operations.length then
    throw (.encoding "state operation graph size is invalid")
  else
    let read ← (operations.foldlM (readInto P sid) (Dag.new, ∅) : Except Error (Dag × OidSet))
    pure read.1

/-- Checks one buffered operation against those before it. -/
def checkBuffered (P : Primitives) (sid : SessionId) (ids : OidSet) (op : Op) :
    Except Error OidSet := do
  if op.sid ≠ sid then throw (.encoding "state pending operation belongs to another session")
  else
    op.verify P
    if ids.contains (op.oid P) then
      throw (.encoding "state pending operation list contains a duplicate")
    else return ids.insert (op.oid P)

def readOperations (P : Primitives) (sid : SessionId) (limit : ℕ) : Reader (List Op) := do
  let operations ← Reader.list readOp
  if limit < operations.length then
    throw (.encoding "state pending operation list exceeds limit")
  else
    let _ ← (operations.foldlM (checkBuffered P sid) ∅ : Except Error OidSet)
    pure operations

section Maps

variable {κ ν : Type} [Ord κ] [Std.TransOrd κ]

/-- Collects entries whose keys ascend strictly and that pass a check. -/
def collect (check : κ → ν → Except Error Unit) :
    Option κ → Std.ExtTreeMap κ ν → List (κ × ν) → Except Error (Std.ExtTreeMap κ ν)
  | _, values, [] => .ok values
  | previous, values, (key, value) :: entries =>
      if previous.any fun prior => (compare prior key).isGE then
        .error (.encoding "state map is not strictly ordered")
      else
        match check key value with
        | .ok () => collect check (some key) (values.insert key value) entries
        | .error e => .error e

/-- A map no larger than a limit. -/
def readMap (entry : Reader (κ × ν)) (limit : ℕ) (tooMany : String)
    (check : κ → ν → Except Error Unit) : Reader (Std.ExtTreeMap κ ν) := do
  let entries ← Reader.list entry
  if limit < entries.length then throw (.encoding tooMany)
  else liftM (collect check none ∅ entries)

end Maps

/-- Refuses the participant's own identity among its peers. -/
def notSelf {ν : Type} (ipk : SigPublic) (reason : String) (peer : SigPublic) (_ : ν) :
    Except Error Unit :=
  if peer = ipk then .error (.encoding reason) else .ok ()

def readPeerPrekey : Reader (SigPublic × UInt32 × DhPublic) := do
  let peer ← Reader.array 256
  let generation ← Reader.u32
  let pub ← Reader.array 256
  pure (peer, generation, pub)

def readPeerPrekeys (ipk : SigPublic) : Reader (Std.ExtTreeMap SigPublic (UInt32 × DhPublic)) :=
  readMap readPeerPrekey MAX_RECIPIENTS "state peer prekey map exceeds limit"
    (notSelf ipk "state contains a self peer prekey")

def readSend : Reader (SigPublic × Chan) := do
  let peer ← Reader.array 256
  let chan ← readChan
  pure (peer, chan)

def readSendChannels (ipk : SigPublic) : Reader (Std.ExtTreeMap SigPublic Chan) :=
  readMap readSend MAX_RECIPIENTS "state send channel map exceeds limit"
    (notSelf ipk "state contains a self send channel")

def readBuffered : Reader (UInt64 × Bytes) := do
  let sequence ← Reader.u64
  let payload ← Reader.bytes
  pure (sequence, payload)

/-- A buffered payload lies ahead of the position and is long enough to name its operation. -/
def checkEntry (chan : Chan) (sequence : UInt64) (payload : Bytes) : Except Error Unit :=
  if sequence ≤ chan.next ∨ payload.length < 32 then
    .error (.encoding "state receive buffer entry is invalid")
  else .ok ()

def readRecvChan : Reader RecvChan := do
  let chan ← readChan
  let buffer ← readMap readBuffered MAX_BUFFERED "state receive buffer exceeds limit"
    (checkEntry chan)
  pure { chan, buffer }

def readRecv : Reader (SigPublic × RecvState) := do
  let peer ← Reader.array 256
  let eph ← Reader.array 256
  let chan ← readRecvChan
  pure (peer, ⟨eph, chan⟩)

def readRecvChannels (ipk : SigPublic) : Reader (Std.ExtTreeMap SigPublic RecvState) :=
  readMap readRecv MAX_RECIPIENTS "state receive channel map exceeds limit"
    (notSelf ipk "state contains a self receive channel")

/-- An eviction order of the keys that are held, each once. -/
def checkOrder (keys : Std.ExtTreeMap Oid Secret) (ids : OidSet) (oid : Oid) :
    Except Error OidSet :=
  if !keys.contains oid || ids.contains oid then
    .error (.encoding "state node-key order is inconsistent")
  else .ok (ids.insert oid)

def readNodekeys : Reader NodeKeys := do
  let capacity ← Reader.u64
  if capacity = 0 ∨ OVERLAP < capacity.toNat then
    throw (.encoding "state node-key capacity is invalid")
  else
    let keys ← readMap readEntry capacity.toNat "state node-key map exceeds capacity"
      fun _ _ => .ok ()
    let order ← Reader.list (Reader.array 256)
    if order.length ≠ keys.size then
      throw (.encoding "state node-key order length differs from map")
    else
      let _ ← (order.foldlM (checkOrder keys) ∅ : Except Error OidSet)
      pure { keys, order, capacity := capacity.toNat }

def readVersion : Reader (BitVec 64 × OidSet × BitVec 256) := do
  let version ← Reader.array 64
  let nodes ← readOidSet MAX_OPS
  let root ← Reader.array 256
  pure (version, nodes, root)

/-- A label is the one of the nodes and the root it stands for. -/
def checkVersion (P : Primitives) (version : BitVec 64) (entry : OidSet × BitVec 256) :
    Except Error Unit :=
  if versionOf P entry.1 entry.2 ≠ version then
    .error (.encoding "state version binding is invalid")
  else .ok ()

def readVersions (P : Primitives) :
    Reader (Std.ExtTreeMap (BitVec 64) (OidSet × BitVec 256) × BitVec 64) := do
  let entries ← Reader.list readVersion
  if entries = [] ∨ OVERLAP < entries.length then
    throw (.encoding "state version history size is invalid")
  else
    let versions ← (collect (checkVersion P) none ∅ entries : Except Error _)
    let last ← Reader.array 64
    if !versions.contains last then throw (.encoding "state last version is not retained")
    else pure (versions, last)

end Reading

/-! ## Cross-field checks -/

section Validation

def contributionIds (dag : Dag) : OidSet :=
  .ofList (contributions dag)

def validateContributionState (P : Primitives) (p : Participant) : Except Error Unit :=
  let ids := contributionIds p.dag
  if !(p.absorbed.toList.all fun oid => !p.missing.contains oid) ||
      !(p.absorbed.toList.all fun oid => ids.contains oid) ||
      !(p.missing.toList.all fun oid => ids.contains oid) ||
      !(p.nodekeys.keys.keys.all fun oid => ids.contains oid) then
    .error (.encoding "state contribution tracking is inconsistent")
  else if p.pending.any fun op =>
      p.dag.contains (op.oid P) || op.deps.toList.all fun d => p.dag.contains d then
    .error (.encoding "state pending operation is not pending")
  else .ok ()

/-- Whether the graph holds a valid accusation of an identity. -/
def proven (P : Primitives) (p : Participant) (guilty : SigPublic) : Bool :=
  p.dag.ops.toList.any fun entry =>
    (match entry.2.body with
    | .accuse who _ _ _ => who = guilty
    | _ => false) && p.checkAccusation P entry.2

def validateParticipant (P : Primitives) (p : Participant) : Except Error Unit := do
  validateContributionState P p
  if !p.guilty.toList.all (proven P p) then
    throw (.encoding "state guilty set lacks valid evidence")
  else return ()

end Validation

/-- What a participant has besides its persisted state. -/
structure Unsaved where
  entropy : List Secret
  signed : List Op

def readParticipant (P : Primitives) (unsaved : Unsaved) : Reader Participant := do
  let identity ← Reader.array 256
  let ipk ← Reader.array 256
  if P.ed25519Public identity ≠ ipk then throw (.encoding "state identity binding is invalid")
  else
    let sid ← Reader.array 256
    let policy ← readPolicy
    let seed0 ← Reader.array 256
    let dag ← readDag P sid
    let guilty ← readSigSet MAX_RECIPIENTS
    let prekeys ← readPrekeys P
    let peerPrekeys ← readPeerPrekeys ipk
    let send ← readSendChannels ipk
    let recv ← readRecvChannels ipk
    let nodekeys ← readNodekeys
    let absorbed ← readOidSet MAX_OPS
    let missing ← readOidSet MAX_OPS
    let pending ← readOperations P sid MAX_PENDING
    let openAccusations ← readOperations P sid MAX_PENDING
    let (seenVersions, lastVersion) ← readVersions P
    pure { identity, ipk, sid, policy, seed0, dag, guilty, prekeys, peerPrekeys, send, recv,
           nodekeys, absorbed, missing, pending, openAccusations, seenVersions, lastVersion,
           entropy := unsaved.entropy, signed := unsaved.signed }

/-- Reconstructs a participant and rejects malformed or inconsistent input. -/
def importPersistenceState (P : Primitives) (unsaved : Unsaved) (bytes : Bytes) :
    Except Error Participant := do
  if MAX_FIELD < bytes.length then
    throw (.limitExceeded "participant state exceeds codec limit")
  else
    let p ← Reader.whole (readParticipant P unsaved) bytes
    validateParticipant P p
    return p

end CausalFrontierRatchet.ParticipantState
