import CausalFrontierRatchet.Channel
import CausalFrontierRatchet.Commands
import CausalFrontierRatchet.Messages

/-!
The participant state machine.  Every public operation is a command on the participant: it stops at
the first failure and keeps what it wrote before.  Randomness is drawn from a list of 32-byte values
that may run out, and a history variable records every operation the participant has signed.
-/

namespace CausalFrontierRatchet.Member

open BigEndian Crypto Tlv Operation OperationGraph CausalMembership KeySchedule Channel Messages
open Commands

/-- Ceiling on buffered operations whose dependencies have not arrived. -/
def MAX_PENDING : ℕ := 512

inductive Event
  | keyChanged (version : BitVec 64)
  | joined (who : SigPublic)
  | left (who : SigPublic)
  | equivocation (who : SigPublic)
  | repairNeeded
  | checkpointOffered (certificate : CheckpointCertificate)
deriving DecidableEq

structure RecvState where
  eph : DhPublic
  chan : RecvChan

structure Participant where
  identity : Secret
  ipk : SigPublic
  sid : SessionId
  policy : Policy
  seed0 : Secret
  dag : Dag
  guilty : Roster
  prekeys : PrekeyPool
  peerPrekeys : Std.ExtTreeMap SigPublic (UInt32 × DhPublic)
  send : Std.ExtTreeMap SigPublic Chan
  recv : Std.ExtTreeMap SigPublic RecvState
  nodekeys : NodeKeys
  absorbed : OidSet
  missing : OidSet
  pending : List Op
  openAccusations : List Op
  seenVersions : Std.ExtTreeMap (BitVec 64) (OidSet × BitVec 256)
  lastVersion : BitVec 64
  entropy : List Secret
  signed : List Op

abbrev Act : Type → Type :=
  Cmd Error Participant

/-! ## Views -/

namespace Participant

def membership (p : Participant) : Membership :=
  ⟨p.dag, p.policy, p.guilty⟩

def members (p : Participant) : Roster :=
  p.membership.members

def frontier (p : Participant) : OidSet :=
  KeySchedule.frontier p.dag

def depsAvailable (p : Participant) (op : Op) : Bool :=
  op.deps.toList.all fun d => p.dag.contains d

/-- The frontier nodes safe to chain into the next contribution: an unavailable node is left out
only when its author is no longer a member. -/
def chainableParents (p : Participant) (members : Roster) : OidSet :=
  p.frontier.filter fun f =>
    p.nodekeys.contains f ||
      match p.dag.get f with
      | none => true
      | some op => members.contains op.author

variable (P : Primitives)

def root (p : Participant) : BitVec 256 :=
  Membership.rootForMembers P p.members

def version (p : Participant) : BitVec 64 :=
  versionOf P p.frontier (p.root P)

def groupKey (p : Participant) : Option Secret :=
  KeySchedule.groupKey P p.seed0 p.frontier (p.root P) p.nodekeys

def canDerive (p : Participant) : Bool :=
  (p.groupKey P).isSome

def authorised (p : Participant) (op : Op) : Bool :=
  decideOp op (p.membership.membersBefore P op) p.dag

/-- Signs an operation on top of everything held. -/
def sign (p : Participant) (body : Body) : Op :=
  Op.create P p.identity p.sid p.dag.heads body

/-- The associated data of the slices of a contribution. -/
def contribAd (cid : Cid) (view : BitVec 256) : Bytes :=
  bytesOf (hash P "cfr/contrib/ad" [bytesOf cid, bytesOf view])

def sliceNonce (sid : SessionId) (cid : Cid) (recipient : SigPublic) (seq : UInt64) : BitVec 256 :=
  nonce P [bytesOf sid, bytesOf cid, bytesOf recipient, indexBytes seq]

/-- Whether the revealed key of an accusation opens the accuser's slice to a secret other than the
committed one. -/
def checkAccusation (p : Participant) (acc : Op) : Bool :=
  match acc.body with
  | .accuse who coid key seq =>
      match p.dag.get coid with
      | none => false
      | some src =>
          match src.body with
          | .contrib cid _ _ slices view =>
              if src.author ≠ who then false
              else
                match slices.find? (fun s => s.recipient = acc.author) with
                | none => false
                | some slice =>
                    let opened := aeadOpen P key (sliceNonce P p.sid cid acc.author seq) slice.ct
                      (contribAd P cid view)
                    match opened.bind (fromSlice 256) with
                    | none => false
                    | some x => commitment P x ≠ cid
          | _ => false
  | _ => false

def validateCheckpointRecord (p : Participant) (record : ResumptionRecord) : Except Error Unit :=
  if record.previousSession ≠ p.sid ∨ record.previousContext ≠ mediaContextId P (p.version P) ∨
      record.previousFrontier ≠ p.frontier ∨ record.membershipRoot ≠ p.membership.root P then
    .error (.unauthorised "checkpoint does not match local state")
  else .ok ()

def validateCheckpoint (p : Participant) (certificate : CheckpointCertificate) :
    Except Error Unit := do
  certificate.verify P p.members
  p.validateCheckpointRecord P certificate.record

end Participant

/-! ## Key derivation and sealed payloads -/

section Derivation

variable (P : Primitives)

def channelRoot (shared : Secret) (sid : SessionId) (sender recipient : SigPublic) (gen : UInt32) :
    Secret :=
  kdf P shared "cfr/root" [bytesOf sid, bytesOf sender, bytesOf recipient, beBytes 4 gen.toNat]

def envelopeKey (shared : Secret) (sid : SessionId) (sender recipient : SigPublic) : Secret :=
  kdf P shared "cfr/envelope" [bytesOf sid, bytesOf sender, bytesOf recipient]

/-- The associated data of an envelope of one kind. -/
def envelopeAd (lab : String) (sid : SessionId) (sender recipient : SigPublic) : Bytes :=
  bytesOf (hash P lab [bytesOf sid, bytesOf sender, bytesOf recipient])

def envelopeNonce (lab : String) (sid : SessionId) (eph : DhPublic) : BitVec 256 :=
  nonce P [bytesOf sid, bytesOf eph, label lab]

def writeEntry (entry : Oid × Secret) : Bytes :=
  Writer.array entry.1 ++ Writer.array entry.2

def readEntry : Reader (Oid × Secret) := do
  let oid ← Reader.array 256
  let key ← Reader.array 256
  pure (oid, key)

def buildWelcomePayload (seed0 : Secret) (entries : List (Oid × Secret)) : Bytes :=
  Writer.array seed0 ++ Writer.list writeEntry entries

def parseWelcomePayload (buf : Bytes) : Except Error (Secret × List (Oid × Secret)) :=
  Reader.whole (do
    let seed0 ← Reader.array 256
    let entries ← Reader.list readEntry
    pure (seed0, entries)) buf

def buildNodekeyPayload (entries : List (Oid × Secret)) : Bytes :=
  Writer.list writeEntry entries

def parseNodekeyPayload (buf : Bytes) : Except Error (List (Oid × Secret)) :=
  Reader.whole (Reader.list readEntry) buf

end Derivation

/-! ## Primitive updates -/

section Commands

variable (P : Primitives)

/-- Draws 32 random bytes. -/
def draw : Act Secret := do
  match (← get).entropy with
  | [] => throw (.crypto .noEntropy)
  | x :: rest =>
      modify fun p => { p with entropy := rest }
      pure x

/-- Stores an operation in the graph. -/
def addOp (op : Op) : Act Oid := fun p =>
  match p.dag.add P op with
  | (r, dag) => (r, { p with dag })

/-- Signs an operation. -/
def signOp (body : Body) : Act Op := do
  let op := (← get).sign P body
  modify fun p => { p with signed := op :: p.signed }
  pure op

/-- Signs an operation and stores it. -/
def publish (body : Body) : Act Op := do
  let op ← signOp P body
  let _ ← addOp P op
  pure op

def markMissing (oid : Oid) : Act Unit :=
  modify fun p => { p with missing := p.missing.insert oid }

def markGuilty (who : SigPublic) : Act Unit :=
  modify fun p => { p with guilty := p.guilty.insert who }

/-- Holds an identity guilty if the accusation checks out against the graph. -/
def judge (acc : Op) (who : SigPublic) : Act Unit := do
  if (← get).checkAccusation P acc then markGuilty who else pure ()

/-- Keeps a node key. -/
def learn (oid : Oid) (key : Secret) : Act Unit :=
  modify fun p =>
    { p with
      nodekeys := p.nodekeys.insert oid key
      absorbed := p.absorbed.insert oid
      missing := p.missing.erase oid }

def setSend (who : SigPublic) (chan : Chan) : Act Unit :=
  modify fun p => { p with send := p.send.insert who chan }

/-- Drops the least version label while too many are kept. -/
def forgetVersions : ℕ → Std.ExtTreeMap (BitVec 64) (OidSet × BitVec 256) →
    Std.ExtTreeMap (BitVec 64) (OidSet × BitVec 256)
  | 0, seen => seen
  | n + 1, seen =>
      match seen.keys.head? with
      | some oldest => forgetVersions n (seen.erase oldest)
      | none => seen

def noteVersion : Act Unit :=
  modify fun p =>
    let v := p.version P
    let seen := p.seenVersions.insert v (p.frontier, p.root P)
    { p with seenVersions := forgetVersions (seen.size - OVERLAP) seen, lastVersion := v }

/-! ## Prekeys -/

def publishPrekeys : Act Outbound := do
  let pool := (← get).prekeys
  let op ← publish P (.prekeys pool.generation pool.pub)
  pure (.broadcast (.op op))

/-- Destroys the current prekey generation and publishes a new one. -/
def rotatePrekeys : Act Outbound := do
  let secret ← draw
  modify fun p => { p with prekeys := p.prekeys.rotate P secret }
  publishPrekeys P

def rotateWhen (due : Bool) : Act (List Outbound) :=
  if due then do pure [← rotatePrekeys P] else pure []

def tick : Act Unit :=
  modify fun p => { p with prekeys := p.prekeys.tick }

/-! ## Contributions -/

/-- Derives and keeps the node key of a contribution from its secret. -/
def absorb (op : Op) (x : Secret) : Act Unit := do
  match op.body with
  | .contrib cid cparents _ _ _ =>
      let p ← get
      let oid := op.oid P
      if p.absorbed.contains oid then pure ()
      else if commitment P x ≠ cid then throw .equivocation
      else
        match if cparents.isEmpty then some 0 else p.nodekeys.combine cparents with
        | some parent => learn oid (nodeKey P x parent oid)
        | none =>
            markMissing oid
            throw .missingNodeKeys
  | _ => throw (.internal "absorb called on a non-contribution")

/-- Opens a sending channel unless there is one; returns what the slice must carry for it. -/
def establish (v : SigPublic) : Act (Option (UInt32 × DhPublic)) := do
  let p ← get
  if p.send.contains v then pure none
  else
    match p.peerPrekeys[v]? with
    | none => throw .noPrekey
    | some (gen, pk) =>
        let eph ← draw
        match P.x25519Agree eph pk with
        | none => throw .noPrekey
        | some shared =>
            let root := channelRoot P shared p.sid p.ipk v gen
            setSend v (Chan.new P (kdf P root "cfr/chan/data" []))
            pure (some (gen, P.x25519Public eph))

/-- The slice of a contribution for one recipient. -/
def sealSlice (cid : Cid) (ad : Bytes) (x : Secret) (v : SigPublic) : Act Slice := do
  let establish ← establish P v
  let p ← get
  match p.send[v]? with
  | none => throw (.internal "inserted above")
  | some chan =>
      let ((seq, mk), chan) ← (chan.step P : Except Error _)
      setSend v chan
      let ct := aeadSeal P mk (Participant.sliceNonce P p.sid cid v seq) (bytesOf x) ad
      pure { recipient := v, establish, seq, ct }

def sealSlices (cid : Cid) (ad : Bytes) (x : Secret) : List SigPublic → Act (List Slice)
  | [] => pure []
  | v :: recips => do
      let slice ← sealSlice P cid ad x v
      let slices ← sealSlices cid ad x recips
      pure (slice :: slices)

/-- Publishes a contribution to the recipients. -/
def contributeTo (members : Roster) (recips : List SigPublic) : Act (List Outbound) := do
  let p ← get
  let cparents := p.chainableParents members
  let view := p.root P
  if !cparents.isEmpty && (p.nodekeys.combine cparents).isNone then throw .missingNodeKeys
  else
    let x ← draw
    let cid := commitment P x
    let slices ← sealSlices P cid (Participant.contribAd P cid view) x recips
    let op ← publish P (.contrib cid cparents recips slices view)
    absorb P op x
    noteVersion P
    pure [.broadcast (.op op)]

/-- Contributes fresh entropy, excluding some members from the next key; members without a prekey
are asked for one first. -/
def contributeExcluding (exclude : Roster) : Act (List Outbound) := do
  let p ← get
  let members := p.members
  let recips := members.toList.filter fun m => m ≠ p.ipk && !exclude.contains m
  let unreachable := recips.filter fun v => !p.send.contains v && !p.peerPrekeys.contains v
  if !members.contains p.ipk then throw .notParticipating
  else if MAX_RECIPIENTS < recips.length then throw (.limitExceeded "conference too large")
  else if !unreachable.isEmpty then
    let op ← publish P (.prekeyRequest unreachable)
    pure [.broadcast (.op op)]
  else contributeTo P members recips

def contribute : Act (List Outbound) :=
  contributeExcluding P ∅

/-! ## Membership -/

/-- The node keys of the given nodes, if all are held. -/
def heldKeys (store : NodeKeys) (nodes : List Oid) : Option (List (Oid × Secret)) :=
  nodes.mapM fun n => (store.peek n).map fun key => (n, key)

/-- Seals a payload to a public prekey with a fresh ephemeral key. -/
def sealEnvelope (adLabel nonceLabel : String) (recipient : SigPublic) (gen : UInt32)
    (pk : DhPublic) (payload : Bytes) : Act Envelope := do
  let p ← get
  let eph ← draw
  match P.x25519Agree eph pk with
  | none => throw .noPrekey
  | some shared =>
      let k := envelopeKey P shared p.sid p.ipk recipient
      let ad := envelopeAd P adLabel p.sid p.ipk recipient
      let n := envelopeNonce P nonceLabel p.sid (P.x25519Public eph)
      pure { eph := P.x25519Public eph, gen, ct := aeadSeal P k n payload ad }

/-- The sealed welcome of a newcomer, with the node keys of the current frontier only. -/
def welcomeFor (kp : KeyPackage) : Act Message := do
  let p ← get
  match heldKeys p.nodekeys p.frontier.toList with
  | none => throw .missingNodeKeys
  | some entries =>
      let sealed ← sealEnvelope P "cfr/welcome/ad" "welcome" kp.ipk kp.gen kp.prekey
        (buildWelcomePayload p.seed0 entries)
      let history := p.dag.topological.filterMap fun o => p.dag.get o
      pure (.welcome p.sid p.ipk sealed history [])

/-- Admits a newcomer and produces the sealed welcome. -/
def invite (kp : KeyPackage) : Act (List Outbound) := do
  let _ ← (kp.verify P : Except Error Unit)
  let p ← get
  if !p.members.contains p.ipk then throw .notParticipating
  else
    modify fun p => { p with peerPrekeys := p.peerPrekeys.insert kp.ipk (kp.gen, kp.prekey) }
    let add ← publish P (.add kp.ipk)
    -- A sealed generation is rotated before the welcome is made.
    let rotation ← rotateWhen P p.prekeys.isSealed
    let welcome ← welcomeFor P kp
    let contribution ← contribute P
    noteVersion P
    pure ([.broadcast (.op add)] ++ rotation ++ [.direct kp.ipk welcome] ++ contribution)

/-- Publishes an eviction and rekeys without the evicted party. -/
def remove (who : SigPublic) : Act (List Outbound) := do
  let op ← publish P (.remove who)
  let contribution ← contributeExcluding P (.ofList [who])
  modify fun p => { p with send := p.send.erase who, recv := p.recv.erase who }
  noteVersion P
  pure (.broadcast (.op op) :: contribution)

def leave : Act Outbound := do
  let p ← get
  let op ← publish P (.remove p.ipk)
  pure (.broadcast (.op op))

/-! ## Inbound contributions -/

/-- Updates the receiving channel of a sender, if there is one. -/
def withRecv {β : Type} (author : SigPublic) (f : RecvChan → β × RecvChan) : Act (Option β) := do
  let p ← get
  match p.recv[author]? with
  | none => pure none
  | some state =>
      let (b, chan) := f state.chan
      set { p with recv := p.recv.insert author { state with chan } }
      pure (some b)

/-- Records authenticated equivocation as a public accusation. -/
def accuseAuthor (op : Op) (mk : Secret) (seq : UInt64) : Act Unit := do
  let acc ← signOp P (.accuse op.author (op.oid P) mk seq)
  judge P acc op.author
  let _ ← addOp P acc

/-- Opens one contribution slice and reports whether it was authentic. -/
def openSlice (op : Op) (mk : Secret) (seq : UInt64) (ad : Bytes) : Act Bool := do
  let p ← get
  match op.body with
  | .contrib cid _ _ slices _ =>
      match slices.find? (fun s => s.recipient = p.ipk) with
      | none => pure false
      | some slice =>
          let opened := aeadOpen P mk (Participant.sliceNonce P p.sid cid p.ipk seq) slice.ct ad
          match opened.bind (fromSlice 256) with
          | none =>
              markMissing (op.oid P)
              pure false
          | some x =>
              match ← attempt (absorb P op x) with
              | .ok () | .error .missingNodeKeys => pure true
              | .error .equivocation =>
                  accuseAuthor P op mk seq
                  pure true
              | .error e => throw e
  | _ => pure false

/-- What a slice that opens a channel leads to. -/
inductive Opening
  | proceed
  | stop (out : List Outbound)

/-- Opens the receiving channel a slice announces, unless it is open already. -/
def openChannel (op : Op) (gen : UInt32) (eph : DhPublic) : Act Opening := do
  let p ← get
  if p.recv[op.author]?.any (fun r => r.eph = eph) then pure .proceed
  else if gen ≠ p.prekeys.generation then
    markMissing (op.oid P)
    pure (.stop [])
  else
    let expected := p.members.filter fun m => m ≠ p.ipk
    match p.prekeys.agreeFor P op.author eph expected with
    | (none, _) =>
        markMissing (op.oid P)
        let rotation ← rotatePrekeys P
        pure (.stop [rotation])
    | (some shared, prekeys) =>
        let root := channelRoot P shared p.sid op.author p.ipk gen
        let chan := RecvChan.new P (kdf P root "cfr/chan/data" [])
        set { p with prekeys, recv := p.recv.insert op.author ⟨eph, chan⟩ }
        pure .proceed

/-- What the establishment a slice may carry leads to. -/
def announce (op : Op) : Option (UInt32 × DhPublic) → Act Opening
  | some (gen, eph) => openChannel P op gen eph
  | none => pure .proceed

/-- Moves a receiving channel past an index. -/
def commitRecv (author : SigPublic) (seq : UInt64) : Act (Option Bool) := do
  let p ← get
  match p.recv[author]? with
  | none => pure none
  | some state =>
      let (moved, chan) ← (state.chan.commit P seq : Except Error _)
      set { p with recv := p.recv.insert author { state with chan } }
      pure (some moved)

/-- Opens the buffered slices that have become contiguous. -/
def drainSlices (author : SigPublic) : ℕ → Act Unit
  | 0 => pure ()
  | fuel + 1 => do
      match ← withRecv author (fun chan => chan.takeNext P) with
      | some (some (seq, payload, mk)) =>
          let oid := ofBytes 256 (payload.take 32)
          match (← get).dag.get oid with
          | some buffered =>
              match buffered.body with
              | .contrib cid _ _ _ view =>
                  if ← openSlice P buffered mk seq (Participant.contribAd P cid view) then
                    match ← commitRecv P author seq with
                    | some true => drainSlices author fuel
                    | _ => pure ()
                  else pure ()
              | _ => markMissing oid
          | none => markMissing oid
      | _ => pure ()

/-- Offers a slice to the channel of its sender; if it is the awaited one, opens it and what it was
holding up. -/
def offerSlice (op : Op) (cid : Cid) (view : BitVec 256) (slice : Slice) : Act Unit := do
  let payload := bytesOf (op.oid P) ++ slice.ct
  match ← withRecv op.author (fun chan => chan.offer P slice.seq payload) with
  | some (some mk) =>
      if ← openSlice P op mk slice.seq (Participant.contribAd P cid view) then
        match ← commitRecv P op.author slice.seq with
        | some false => throw (.internal "channel position changed before commit")
        | _ =>
            let buffered := ((← get).recv[op.author]?.map fun r => r.chan.buffer.size).getD 0
            drainSlices P op.author (buffered + 1)
      else pure ()
  | _ => pure ()

def receiveContribution (op : Op) : Act (List Outbound) := do
  let p ← get
  match op.body with
  | .contrib cid _ _ slices view =>
      match slices.find? (fun s => s.recipient = p.ipk) with
      | none => pure []
      | some slice =>
          match ← announce P op slice.establish with
          | .stop out => pure out
          | .proceed =>
              offerSlice P op cid view slice
              pure []
  | _ => pure []

/-! ## Inbound operations -/

/-- Checks the parked accusations again. -/
def retryAccusations : Act Unit :=
  modify fun p =>
    p.openAccusations.foldl (fun q acc =>
      if q.checkAccusation P acc then
        match acc.body with
        | .accuse who _ _ _ => { q with guilty := q.guilty.insert who }
        | _ => q
      else
        let coid := match acc.body with
          | .accuse _ coid _ _ => coid
          | _ => 0
        if (q.dag.get coid).isNone then { q with openAccusations := q.openAccusations ++ [acc] }
        else q)
      { p with openAccusations := [] }

/-- Learns a peer's prekey; only a strictly newer one retires an established channel. -/
def learnPrekey (author : SigPublic) (gen : UInt32) (pk : DhPublic) : Act Unit :=
  modify fun p =>
    match p.peerPrekeys[author]? with
    | none => { p with peerPrekeys := p.peerPrekeys.insert author (gen, pk) }
    | some (known, _) =>
        if known < gen then
          { p with peerPrekeys := p.peerPrekeys.insert author (gen, pk), send := p.send.erase author }
        else p

/-- The effects of a newly stored operation. -/
def applyOp (op : Op) : Act (List Outbound) := do
  let p ← get
  match op.body with
  | .prekeys gen pk =>
      learnPrekey op.author gen pk
      pure []
  | .contrib _ _ _ _ _ => receiveContribution P op
  | .accuse who _ _ _ =>
      judge P op who
      pure []
  | .prekeyRequest targets => rotateWhen P (targets.contains p.ipk)
  | .add who => rotateWhen P (who ≠ p.ipk && p.prekeys.isSealed)
  | .remove _ => pure []

/-- Buffers an operation whose dependencies have not arrived. -/
def park (op : Op) : Act Unit :=
  modify fun p =>
    if p.pending.length < MAX_PENDING && !p.pending.contains op then
      { p with pending := p.pending ++ [op] }
    else p

/-- Validates and applies one operation. -/
def ingest (op : Op) : Act (List Outbound) := do
  let p ← get
  if op.sid ≠ p.sid then throw (.encoding "operation from another conference")
  else
    let _ ← (op.verify P : Except Error Unit)
    if p.dag.contains (op.oid P) then pure []
    else if !p.depsAvailable op then
      park op
      pure []
    else if !p.authorised P op then throw .notAMember
    else
      let _ ← addOp P op
      let out ← applyOp P op
      retryAccusations P
      pure out

/-- One pass over the buffered operations: what is still waiting, whether some operation went in,
and what is to be sent. -/
def drainPass : List Op → Act (List Op × Bool × List Outbound)
  | [] => pure ([], false, [])
  | op :: waiting => do
      if !(← get).depsAvailable op then
        let (deferred, progressed, out) ← drainPass waiting
        pure (op :: deferred, progressed, out)
      else
        match ← attempt (ingest P op) with
        | .ok first =>
            let (deferred, _, out) ← drainPass waiting
            pure (deferred, true, first ++ out)
        | .error _ => drainPass waiting

/-- Passes until nothing goes in.  A pass that makes progress shortens the list, so its length
bounds the number of passes. -/
def drainRounds : ℕ → List Op → Act (List Outbound)
  | 0, waiting => do
      modify fun p => { p with pending := waiting }
      pure []
  | rounds + 1, waiting => do
      let (deferred, progressed, out) ← drainPass P waiting
      if progressed then
        let later ← drainRounds rounds deferred
        pure (out ++ later)
      else
        modify fun p => { p with pending := deferred }
        pure out

def drainPending : Act (List Outbound) := do
  let waiting := (← get).pending
  modify fun p => { p with pending := [] }
  drainRounds P waiting.length waiting

/-! ## Repair -/

/-- Serves node keys of the current frontier to a current member. -/
def answerNodeKeysFor (recipient : SigPublic) (nodes : List Oid) : Act (Option Outbound) := do
  let p ← get
  if !p.members.contains recipient then pure none
  else
    let entries := nodes.filterMap fun n =>
      if p.frontier.contains n then (p.nodekeys.peek n).map fun key => (n, key) else none
    if entries.isEmpty then pure none
    else
      match p.peerPrekeys[recipient]? with
      | none => throw .noPrekey
      | some (gen, pk) =>
          let sealed ← sealEnvelope P "cfr/repair/ad" "repair" recipient gen pk
            (buildNodekeyPayload entries)
          pure (some (.direct recipient (.nodeKeyResponse p.ipk sealed)))

/-- Opens an envelope addressed to this participant's current prekey generation. -/
def openEnvelope (pool : PrekeyPool) (adLabel nonceLabel : String) (sid : SessionId)
    (sender recipient : SigPublic) (sealed : Envelope) : Except Error Bytes :=
  if sealed.gen ≠ pool.generation then .error .noPrekey
  else
    match pool.agreeEnvelope P sealed.eph with
    | none => .error .noPrekey
    | some shared =>
        let k := envelopeKey P shared sid sender recipient
        let ad := envelopeAd P adLabel sid sender recipient
        let n := envelopeNonce P nonceLabel sid sealed.eph
        match aeadOpen P k n sealed.ct ad with
        | none => .error .decrypt
        | some plain => .ok plain

/-- Keeps the keys of wanted nodes. -/
def learnWanted (want : OidSet) : List (Oid × Secret) → Act Unit
  | [] => pure ()
  | (oid, key) :: entries => do
      if want.contains oid then learn oid key else pure ()
      learnWanted want entries

/-- Accepts a repair response from a current member. -/
def absorbNodeKeys (sender : SigPublic) (sealed : Envelope) : Act Unit := do
  let p ← get
  if !p.members.contains sender then throw .notAMember
  else
    let plain ← (openEnvelope P p.prekeys "cfr/repair/ad" "repair" p.sid sender p.ipk sealed :
      Except Error Bytes)
    let entries ← (parseNodekeyPayload plain : Except Error _)
    learnWanted p.frontier entries

/-- Asks for node keys of the current frontier that are not held. -/
def repairRequest : Act (Option (List Outbound)) := do
  let p ← get
  let nodes := p.nodekeys.missing p.frontier
  if nodes.isEmpty then pure none
  else
    let request := Outbound.broadcast (.nodeKeyRequest p.ipk nodes.toList)
    if p.prekeys.isSealed then
      match ← attempt (rotatePrekeys P) with
      | .ok rotation => pure (some [rotation, request])
      | .error _ => pure none
    else pure (some [request])

def syncRequest (p : Participant) : Outbound :=
  .broadcast (.sync p.ipk p.dag.heads.toList)

/-! ## Inbound messages -/

/-- Applies a batch; an invalid operation does not discard the others. -/
def ingestAll : List Op → Act (List Outbound)
  | [] => pure []
  | op :: ops => do
      let first ← attempt (ingest P op)
      let rest ← ingestAll ops
      pure (first.toOption.getD [] ++ rest)

/-- Serves a current member the operations its heads do not imply, and asks for the converse when it
names a head that is unknown here. -/
def answerSync (p : Participant) (sender : SigPublic) (heads : List Oid) : List Outbound :=
  if !p.members.contains sender then []
  else
    let known := p.dag.causalClosure heads
    let ops := (p.dag.topological.filter fun o => !known.contains o).filterMap fun o => p.dag.get o
    (if ops.isEmpty then [] else [.direct sender (.deliver ops [])]) ++
      if heads.any fun head => !p.dag.contains head then
        [.direct sender (.sync p.ipk p.dag.heads.toList)] else []

def dispatch : Message → Act (List Event × List Outbound)
  | .op o => do pure ([], ← ingest P o)
  | .deliver ops _ => do pure ([], ← ingestAll P ops)
  | .sync sender heads => do pure ([], answerSync (← get) sender heads)
  | .nodeKeyRequest sender nodes => do pure ([], (← answerNodeKeysFor P sender nodes).toList)
  | .nodeKeyResponse sender sealed => do
      absorbNodeKeys P sender sealed
      pure ([], [])
  | .checkpoint certificate => do
      let _ ← ((← get).validateCheckpoint P certificate : Except Error Unit)
      pure ([.checkpointOffered certificate], [])
  | .welcome _ _ _ _ _ => throw (.encoding "welcome sent to an existing participant")

/-- Retains the current version label if it is a new one. -/
def noteChange (before : BitVec 64) : Act (List Event) := do
  let version := (← get).version P
  if version ≠ before then
    noteVersion P
    pure [.keyChanged version]
  else pure []

/-- The changes of roster, version and derivability that a message caused. -/
def settle (before : Participant) : Act (List Event) := do
  let after ← get
  let joined := (after.members.toList.filter fun m => !before.members.contains m).map .joined
  let left := (before.members.toList.filter fun m => !after.members.contains m).map .left
  let changed ← noteChange P (before.version P)
  let repair := if (← get).canDerive P then [] else [.repairNeeded]
  pure (joined ++ left ++ changed ++ repair)

/-- What follows every message that was dispatched without an error. -/
def conclude (before : Participant) (result : List Event × List Outbound) :
    Act (List Event × List Outbound) := do
  let drained ← drainPending P
  let changes ← settle P before
  pure (result.1 ++ changes, result.2 ++ drained)

/-- Processes one received message. -/
def handle (wire : Bytes) : Act (List Event × List Outbound) := do
  let message ← (Message.fromWire P wire : Except Error Message)
  let before ← get
  let result ← dispatch P message
  conclude P before result

/-! ## Founding and joining -/

/-- A participant without history. -/
def blank (identity : Secret) (sid : SessionId) (policy : Policy) (seed0 : Secret)
    (prekeys : PrekeyPool) (entropy : List Secret) : Participant :=
  { identity, ipk := P.ed25519Public identity, sid, policy, seed0, dag := Dag.new, guilty := ∅
    prekeys, peerPrekeys := ∅, send := ∅, recv := ∅, nodekeys := .default, absorbed := ∅
    missing := ∅, pending := [], openAccusations := [], seenVersions := ∅, lastVersion := 0
    entropy, signed := [] }

/-- What a founder publishes first. -/
def found : Act (List Outbound) := do
  let p ← get
  let add ← publish P (.add p.ipk)
  let prekeys ← publishPrekeys P
  let contribution ← contribute P
  noteVersion P
  pure ([.broadcast (.op add), prekeys] ++ contribution)

/-- Founds a conference. -/
def create (policy : Policy) : List Secret → Except Error (List Outbound × Participant)
  | identity :: sid :: seed0 :: prekey :: entropy =>
      match found P (blank P identity sid policy seed0 (.at_ P 0 prekey) entropy) with
      | (.ok out, p) => .ok (out, p)
      | (.error e, _) => .error e
  | _ => .error (.crypto .noEntropy)

/-- Identity and prekey material of a newcomer. -/
structure PendingJoin where
  identity : Secret
  prekeys : PrekeyPool
  policy : Policy
  entropy : List Secret

def PendingJoin.new (policy : Policy) : List Secret → Except Error PendingJoin
  | identity :: prekey :: entropy => .ok ⟨identity, .at_ P 0 prekey, policy, entropy⟩
  | _ => .error (.crypto .noEntropy)

def PendingJoin.keyPackage (j : PendingJoin) : KeyPackage :=
  let ipk := P.ed25519Public j.identity
  { ipk, gen := j.prekeys.generation, prekey := j.prekeys.pub
    sig := P.ed25519Sign j.identity
      (bytesOf (KeyPackage.image P ipk j.prekeys.generation j.prekeys.pub)) }

/-- Applies a history, stopping at the first operation that is refused. -/
def ingestHistory : List Op → Act Unit
  | [] => pure ()
  | op :: ops => do
      let _ ← ingest P op
      ingestHistory ops

def takeOver (p : Participant) (entry : Oid × Secret) : Participant :=
  { p with
    nodekeys := p.nodekeys.insert entry.1 entry.2
    absorbed := p.absorbed.insert entry.1 }

/-- Takes over the welcome's node keys and history and announces the prekey. -/
def joinWith (entries : List (Oid × Secret)) (history : List Op) : Act (List Outbound) := do
  modify fun p => entries.foldl takeOver p
  ingestHistory P history
  let p ← get
  if !p.members.contains p.ipk then throw .notParticipating
  else
    let out ← publishPrekeys P
    noteVersion P
    pure [out]

/-- Consumes a welcome and becomes a full participant. -/
def PendingJoin.accept (j : PendingJoin) (wire : Bytes) :
    Except Error (List Outbound × Participant) := do
  match ← Message.fromWire P wire with
  | .welcome sid sender sealed history _ =>
      let ipk := P.ed25519Public j.identity
      let plain ← openEnvelope P j.prekeys "cfr/welcome/ad" "welcome" sid sender ipk sealed
      let (seed0, entries) ← parseWelcomePayload plain
      match joinWith P entries history (blank P j.identity sid j.policy seed0 j.prekeys j.entropy) with
      | (.ok out, p) => pure (out, p)
      | (.error e, _) => throw e
  | _ => throw (.encoding "expected a welcome")

end Commands

end CausalFrontierRatchet.Member
