import CausalFrontierRatchet.ConferenceSeat
import CausalFrontierRatchet.Eviction
import CausalFrontierRatchet.Store

/-!
Persistence of a conference.  Every mutating operation works on a candidate that is decoded from the
encoding of the live state; the candidate is encoded and appended to the log before it becomes the
live state.  Messages leave through a durable outbox, and the identifiers of the last inbound
messages are kept.
-/

namespace CausalFrontierRatchet.Persistence

open BigEndian Crypto Tlv CausalMembership Commands ParticipantState ConferenceSeat Store
open StoreFormat (HARD_MAX_STATE_BYTES)

def CURRENT_PERSISTENCE_SCHEMA_VERSION : UInt32 := 1

/-- A stable identifier of one inbound message, supplied by the transport. -/
abbrev InboundId := BitVec 256

/-- A durable outbox identifier. -/
abbrev OutboundId := UInt64

/-- A deterministic retry key for one exact delivery. -/
abbrev DeliveryKey := BitVec 256

/-- One unacknowledged message from the durable outbox. -/
structure PendingDelivery where
  id : OutboundId
  deliveryKey : DeliveryKey
  recipient : Recipient
  payload : Bytes
deriving DecidableEq

/-- Result of an inbound durable transaction. -/
structure InboundResult where
  duplicate : Bool
  events : List Member.Event
  deliveries : List OutboundId
deriving DecidableEq

/-- Errors of the persistence boundary, besides those of the store itself. -/
inductive Error
  | store (e : StoreFormat.Error)
  | idempotencyConflict (id : InboundId)
  | protocol (e : ConferenceSeat.Error)
deriving DecidableEq

structure LogicalState where
  sequence : UInt64
  conference : Conference
  options : PersistenceOptions
  inbound : Std.ExtTreeMap InboundId (BitVec 256)
  inboundOrder : List InboundId
  outbox : Std.ExtTreeMap OutboundId PendingDelivery
  nextOutboundId : UInt64

/-! ## Outbox and inbound window -/

section Queues

variable (P : Primitives)

def inboundDigest (payload : Bytes) : BitVec 256 :=
  hash P "cfr/persistence/inbound" [payload]

def deliveryKey (conference : Conference) (id : OutboundId) (recipient : Recipient)
    (payload : Bytes) : DeliveryKey :=
  hash P "cfr/persistence/delivery"
    ([bytesOf conference.sessionId, bytesOf conference.identity, beBytes 8 id.toNat] ++
      (match recipient with
      | .everyone => [[0]]
      | .peer identity => [[1], bytesOf identity]) ++
      [payload])

/-- The entry of the outbox for a message. -/
def pendingDelivery (conference : Conference) (id : OutboundId) (message : Message) :
    PendingDelivery :=
  { id, deliveryKey := deliveryKey P conference id message.dest message.payload
    recipient := message.dest, payload := message.payload }

/-- Gives every message the next identifier. -/
def enqueueAll : List Message → LogicalState → List OutboundId × LogicalState
  | [], state => ([], state)
  | message :: messages, state =>
      let id := state.nextOutboundId
      let queued := enqueueAll messages
        { state with
          nextOutboundId := id + 1
          outbox := state.outbox.insert id (pendingDelivery P state.conference id message) }
      (id :: queued.1, queued.2)

def enqueue (messages : List Message) : Cmd Error LogicalState (List OutboundId) := do
  let state ← get
  if state.options.maxOutboxEntries < state.outbox.size then
    throw (.store (.corrupt "outbox exceeds its persisted limit"))
  else if state.options.maxOutboxEntries - state.outbox.size < messages.length then
    throw (.store (.limitExceeded "durable outbox is full"))
  else if 2 ^ 64 ≤ state.nextOutboundId.toNat + messages.length then
    throw (.store (.limitExceeded "outbound identifier exhausted"))
  else
    set (enqueueAll P messages state).2
    pure (enqueueAll P messages state).1

/-- A state before its first message is queued. -/
def LogicalState.initial (conference : Conference) (options : PersistenceOptions) : LogicalState :=
  { sequence := 1, conference, options, inbound := ∅, inboundOrder := [], outbox := ∅
    nextOutboundId := 1 }

def LogicalState.new (conference : Conference) (messages : List Message)
    (options : PersistenceOptions) : Except Error LogicalState :=
  match enqueue P messages (.initial conference options) with
  | (.ok _, state) => .ok state
  | (.error e, _) => .error e

/-- Records an identifier and drops the oldest ones while there are more than the window holds. -/
def recordInbound (id : InboundId) (digest : BitVec 256) (state : LogicalState) : LogicalState :=
  let kept := Eviction.evict state.options.inboundWindow (state.inboundOrder ++ [id])
    (state.inbound.insert id digest)
  { state with inboundOrder := kept.1, inbound := kept.2 }

end Queues

/-! ## Encoding -/

section Encoding

/-- A number of the platform's width. -/
def writeUsize (value : ℕ) : Except StoreFormat.Error Bytes :=
  if 2 ^ 64 ≤ value then .error (.limitExceeded "integer exceeds persisted width")
  else .ok (Writer.u64 (UInt64.ofNat value))

def writeOptions (options : PersistenceOptions) : Except StoreFormat.Error Bytes := do
  let inboundWindow ← writeUsize options.inboundWindow
  let maxOutboxEntries ← writeUsize options.maxOutboxEntries
  let maxStateBytes ← writeUsize options.maxStateBytes
  let maxRecordBytes ← writeUsize options.maxRecordBytes
  return inboundWindow ++ maxOutboxEntries ++ maxStateBytes ++ maxRecordBytes ++
    Writer.u64 (UInt64.ofNat options.maxWalBytes) ++
    Writer.u64 (UInt64.ofNat options.checkpointThreshold)

def writeInbound (entry : InboundId × BitVec 256) : Bytes :=
  Writer.array entry.1 ++ Writer.array entry.2

def writeRecipient : Recipient → Bytes
  | .everyone => Writer.u32 0
  | .peer identity => Writer.u32 1 ++ Writer.array identity

def writeDelivery (delivery : PendingDelivery) : Bytes :=
  Writer.u64 delivery.id ++ Writer.array delivery.deliveryKey ++
    writeRecipient delivery.recipient ++ Writer.bytes delivery.payload

/-- The digest kept for an identifier of the eviction order. -/
def listedDigest (inbound : Std.ExtTreeMap InboundId (BitVec 256)) (id : InboundId) :
    Except StoreFormat.Error (InboundId × BitVec 256) :=
  match inbound[id]? with
  | some digest => .ok (id, digest)
  | none => .error (.corrupt "inbound eviction order is inconsistent")

/-- All unacknowledged deliveries, in the order of their identifiers. -/
def LogicalState.pendingDeliveries (state : LogicalState) : List PendingDelivery :=
  state.outbox.toList.map Prod.snd

/-- What `encode` writes for a state, given the encoded options and conference. -/
def stateBytes (state : LogicalState) (options conference : Bytes)
    (inbound : List (InboundId × BitVec 256)) : Bytes :=
  Writer.u32 CURRENT_PERSISTENCE_SCHEMA_VERSION ++ Writer.u64 state.sequence ++ options ++
    Writer.bytes conference ++ Writer.list writeInbound inbound ++
    Writer.list writeDelivery state.pendingDeliveries ++ Writer.u64 state.nextOutboundId

def encodeStored (state : LogicalState) (conference : Bytes) : Except StoreFormat.Error Bytes := do
  let inbound ← state.inboundOrder.mapM (listedDigest state.inbound)
  if inbound.length ≠ state.inbound.size then
    throw (.corrupt "inbound eviction order is inconsistent")
  else
    let options ← writeOptions state.options
    let bytes := stateBytes state options conference inbound
    checkEncoded state.options bytes
    return bytes

def encode (state : LogicalState) : Except Error Bytes :=
  match state.conference.exportPersistenceState with
  | .error e => .error (.protocol e)
  | .ok conference =>
      match encodeStored state conference with
      | .error e => .error (.store e)
      | .ok bytes => .ok bytes

end Encoding

/-! ## Decoding -/

section Decoding

/-- A reader with the errors of the store. -/
abbrev StateReader := PrefixCodec.Parser UInt8 StoreFormat.Error

/-- A field of the state; the codec's own errors are not told apart. -/
def field {α : Type} (read : Reader α) : StateReader α := fun input =>
  match read input with
  | .ok result => .ok result
  | .error _ => .error (.corrupt "logical state encoding is malformed")

def readUsize : StateReader ℕ := do
  let value ← field Reader.u64
  pure value.toNat

/-- Settings that are in range. -/
def inRange (options : PersistenceOptions) : Except StoreFormat.Error PersistenceOptions :=
  match options.validate with
  | .ok options => .ok options
  | .error _ => .error (.corrupt "persisted resource limits are invalid")

def readOptions : StateReader PersistenceOptions := do
  let inboundWindow ← readUsize
  let maxOutboxEntries ← readUsize
  let maxStateBytes ← readUsize
  let maxRecordBytes ← readUsize
  let maxWalBytes ← readUsize
  let checkpointThreshold ← readUsize
  liftM (inRange { inboundWindow, maxOutboxEntries, maxStateBytes, maxRecordBytes, maxWalBytes,
                   checkpointThreshold })

def readInboundEntry : Reader (InboundId × BitVec 256) := do
  let id ← Reader.array 256
  let digest ← Reader.array 256
  pure (id, digest)

/-- Keeps the entries in their order, each identifier once. -/
def collectInbound : List (InboundId × BitVec 256) → Std.ExtTreeMap InboundId (BitVec 256) →
    Except StoreFormat.Error (Std.ExtTreeMap InboundId (BitVec 256))
  | [], inbound => .ok inbound
  | (id, digest) :: entries, inbound =>
      if inbound.contains id then .error (.corrupt "inbound window contains a duplicate ID")
      else collectInbound entries (inbound.insert id digest)

def readInbound (options : PersistenceOptions) :
    StateReader (Std.ExtTreeMap InboundId (BitVec 256) × List InboundId) := do
  let entries ← field (Reader.list readInboundEntry)
  if options.inboundWindow < entries.length then
    throw (.corrupt "inbound window exceeds persisted limit")
  else
    let inbound ← liftM (collectInbound entries ∅)
    pure (inbound, entries.map Prod.fst)

def readRecipient : Reader Recipient := do
  let kind ← Reader.u32
  if kind = 0 then pure .everyone
  else if kind = 1 then
    let identity ← Reader.array 256
    pure (.peer identity)
  else throw (.encoding "invalid persisted recipient")

def readDelivery : Reader PendingDelivery := do
  let id ← Reader.u64
  let deliveryKey ← Reader.array 256
  let recipient ← readRecipient
  let payload ← Reader.bytes
  pure { id, deliveryKey, recipient, payload }

/-- Collects deliveries whose identifiers ascend strictly and whose keys are derived from them. -/
def collectOutbox (P : Primitives) (conference : Conference) :
    List PendingDelivery → Option OutboundId → Std.ExtTreeMap OutboundId PendingDelivery →
    Except StoreFormat.Error (Std.ExtTreeMap OutboundId PendingDelivery)
  | [], _, outbox => .ok outbox
  | delivery :: deliveries, previous, outbox =>
      if delivery.id = 0 ∨ (previous.any fun id => delivery.id ≤ id) ∨
          delivery.deliveryKey ≠
            deliveryKey P conference delivery.id delivery.recipient delivery.payload then
        .error (.corrupt "outbox delivery binding is invalid")
      else
        collectOutbox P conference deliveries (some delivery.id)
          (outbox.insert delivery.id delivery)

def readOutbox (P : Primitives) (conference : Conference) (options : PersistenceOptions) :
    StateReader (Std.ExtTreeMap OutboundId PendingDelivery) := do
  let entries ← field (Reader.list readDelivery)
  if options.maxOutboxEntries < entries.length then
    throw (.corrupt "outbox exceeds persisted limit")
  else liftM (collectOutbox P conference entries none ∅)

variable (P : Primitives) (unsaved : Unsaved)

def importConference (bytes : Bytes) : Except StoreFormat.Error Conference :=
  match Conference.importPersistenceState P unsaved bytes with
  | .ok conference => .ok conference
  | .error _ => .error (.corrupt "conference state failed validation")

def readConference : StateReader Conference := do
  let bytes ← field Reader.bytes
  liftM (importConference P unsaved bytes)

def readState (length : ℕ) (envelopeSequence : UInt64) : StateReader LogicalState := do
  let schema ← field Reader.u32
  if schema ≠ CURRENT_PERSISTENCE_SCHEMA_VERSION then
    throw (.unsupportedVersion .persistenceSchema schema)
  else
    let sequence ← field Reader.u64
    if sequence = 0 ∨ sequence ≠ envelopeSequence then
      throw (.corrupt "logical and envelope sequences differ")
    else
      let options ← readOptions
      if options.maxStateBytes < length ∨ options.maxRecordBytes < length then
        throw (.corrupt "logical state exceeds persisted limits")
      else
        let conference ← readConference P unsaved
        let (inbound, inboundOrder) ← readInbound options
        let outbox ← readOutbox P conference options
        let nextOutboundId ← field Reader.u64
        field Reader.finish
        if nextOutboundId = 0 ∨ outbox.keys.getLast?.any fun last => nextOutboundId ≤ last then
          throw (.corrupt "next outbound identifier is invalid")
        else
          pure { sequence, conference, options, inbound, inboundOrder, outbox, nextOutboundId }

/-- Decodes a state; only the canonical encoding of a state is accepted. -/
def decode (bytes : Bytes) (envelopeSequence : UInt64) : Except StoreFormat.Error LogicalState :=
  if HARD_MAX_STATE_BYTES < bytes.length then .error (.corrupt "logical state exceeds hard limit")
  else
    match readState P unsaved bytes.length envelopeSequence bytes with
    | .error e => .error e
    | .ok (state, _) =>
        match encode state with
        | .error _ => .error (.corrupt "logical state is not re-encodable")
        | .ok canonical =>
            if canonical ≠ bytes then .error (.corrupt "logical state encoding is non-canonical")
            else .ok state

/-- Logical states as the store sees them. -/
def logical : Logical LogicalState where
  encode state := (encode state).toOption.getD []
  decode := decode P unsaved
  sequence := LogicalState.sequence
  options := LogicalState.options

end Decoding

/-! ## Persistent conferences -/

/-- A conference whose complete state is committed before it is exposed. -/
structure PersistentConference where
  state : LogicalState
  store : Machine

abbrev Act : Type → Type :=
  Cmd Error PersistentConference

section Transactions

variable (P : Primitives) (plan : Plan) (entropy : List Secret)

/-- A command of the store. -/
def onStore {α : Type} (c : Cmd StoreFormat.Error Machine α) : Act α := fun s =>
  match c s.store with
  | (.ok a, store) => (.ok a, { s with store })
  | (.error e, store) => (.error (.store e), { s with store })

/-- The state an operation works on. -/
def candidateOf (state : LogicalState) : Except Error LogicalState :=
  match encode state with
  | .error e => .error e
  | .ok payload =>
      match decode P ⟨entropy, state.conference.core.signed⟩ payload state.sequence with
      | .error e => .error (.store e)
      | .ok candidate => .ok candidate

/-- Makes a candidate the live state once it is in the log. -/
def commit (candidate : LogicalState) : Act Unit := do
  let live := (← get).state
  let currentPayload ← (encode live : Except Error Bytes)
  if candidate.sequence.toNat + 1 = 2 ^ 64 then
    throw (.store (.limitExceeded "transaction sequence exhausted"))
  else
    let candidate := { candidate with sequence := candidate.sequence + 1 }
    let candidatePayload ← (encode candidate : Except Error Bytes)
    onStore (append P plan candidate.options ⟨live.sequence, currentPayload⟩
      ⟨candidate.sequence, candidatePayload⟩)
    modify fun s => { s with state := candidate }

def commitCandidate {ρ : Type} (operation : Cmd Error LogicalState ρ) : Act ρ := do
  let candidate ← (candidateOf P entropy (← get).state : Except Error LogicalState)
  match operation candidate with
  | (.error e, _) => throw e
  | (.ok result, candidate) =>
      commit P plan candidate
      pure result

/-- An operation of the conference in a candidate. -/
def onConference {α : Type} (c : ConferenceSeat.Act α) : Cmd Error LogicalState α := fun s =>
  match c s.conference with
  | (.ok a, conference) => (.ok a, { s with conference })
  | (.error e, conference) => (.error (.protocol e), { s with conference })

def mutateConference {ρ : Type} (operation : ConferenceSeat.Act (ρ × List Message)) :
    Act (ρ × List OutboundId) :=
  commitCandidate P plan entropy do
    let (result, messages) ← onConference operation
    let deliveries ← enqueue P messages
    pure (result, deliveries)

/-- An operation that only produces messages. -/
def queueing (operation : ConferenceSeat.Act (List Message)) : Act (List OutboundId) := do
  let (_, deliveries) ← mutateConference P plan entropy do
    let messages ← operation
    pure ((), messages)
  pure deliveries

/-- An operation that produces no message. -/
def silent {ρ : Type} (operation : ConferenceSeat.Act ρ) : Act ρ := do
  let (result, _) ← mutateConference P plan entropy do
    let result ← operation
    pure (result, [])
  pure result

end Transactions

namespace PersistentConference

section Operations

variable (P : Primitives) (plan : Plan) (entropy : List Secret)

def offerCheckpoint (certificate : Messages.CheckpointCertificate) : Act (List OutboundId) :=
  queueing P plan entropy do
    let message ← Conference.offerCheckpoint P certificate
    pure [message]

def invite (kp : Messages.KeyPackage) : Act (List OutboundId) :=
  queueing P plan entropy (Conference.invite P kp)

def evict (who : SigPublic) : Act (List OutboundId) :=
  queueing P plan entropy (Conference.evict P who)

def leave : Act (List OutboundId) :=
  queueing P plan entropy do
    let message ← Conference.leave P
    pure [message]

def rekey : Act (List OutboundId) :=
  queueing P plan entropy (Conference.rekey P)

def heal : Act (List OutboundId) :=
  queueing P plan entropy (Conference.heal P)

def tick : Act Unit :=
  silent P plan entropy Conference.tick

/-- What an inbound message does to a candidate. -/
def receive (id : InboundId) (digest : BitVec 256) (payload : Bytes) :
    Cmd Error LogicalState InboundResult := do
  let (events, messages) ← onConference (Conference.handle P payload)
  let deliveries ← enqueue P messages
  modify (recordInbound id digest)
  pure { duplicate := false, events, deliveries }

/-- Processes an inbound message together with its transport identifier. -/
def handleInbound (id : InboundId) (payload : Bytes) : Act InboundResult := do
  let state := (← get).state
  let digest := inboundDigest P payload
  match state.inbound[id]? with
  | some committed =>
      if committed = digest then pure { duplicate := true, events := [], deliveries := [] }
      else throw (.idempotencyConflict id)
  | none => commitCandidate P plan entropy (receive P id digest payload)

def resync : Act (List OutboundId) :=
  queueing P plan entropy (Conference.resync P)

def protect (codec : MediaLayout.Codec) (frame : Bytes) (keyframe : Bool) : Act Bytes :=
  silent P plan entropy (Conference.protect P codec frame keyframe)

def openMedia (packet : Bytes) : Act (SigPublic × Bytes) :=
  silent P plan entropy (Conference.openMedia P packet)

/-- Takes a delivery out of a candidate. -/
def discard (id : OutboundId) : Cmd Error LogicalState Bool := do
  let present := (← get).outbox.contains id
  modify fun s => { s with outbox := s.outbox.erase id }
  pure present

/-- Durably acknowledges one delivery. -/
def acknowledge (id : OutboundId) : Act Bool := do
  let state := (← get).state
  if !state.outbox.contains id then pure false
  else commitCandidate P plan entropy (discard id)

/-- Writes the live state as a snapshot and resets the log. -/
def checkpoint : Act Unit := do
  let state := (← get).state
  let payload ← (encode state : Except Error Bytes)
  onStore (Store.checkpoint P plan ⟨state.sequence, payload⟩)

end Operations

/-! ## Creating and opening -/

section Opening

variable (P : Primitives) (plan : Plan)

def createFromConference (conference : Conference) (messages : List Message)
    (options : PersistenceOptions) (store : Machine) : Except Error PersistentConference := do
  let state ← LogicalState.new P conference messages options
  let payload ← encode state
  match Store.create P plan options payload store with
  | (.ok _, store) => return { state, store }
  | (.error e, _) => throw (.store e)

def validated (options : PersistenceOptions) : Except Error PersistenceOptions :=
  match options.validate with
  | .ok options => .ok options
  | .error e => .error (.store e)

def created (outcome : Except ConferenceSeat.Error (Conference × List Message)) :
    Except Error (Conference × List Message) :=
  match outcome with
  | .ok result => .ok result
  | .error e => .error (.protocol e)

/-- Creates a new founder conference. -/
def createWithOptions (policy : Policy) (options : PersistenceOptions) (entropy : List Secret)
    (store : Machine) : Except Error PersistentConference := do
  let options ← validated options
  let (conference, messages) ← created (Conference.create P policy entropy)
  createFromConference P plan conference messages options store

/-- Accepts a welcome into a new state directory. -/
def joinWithOptions (joining : Member.PendingJoin) (welcome : Bytes)
    (options : PersistenceOptions) (store : Machine) : Except Error PersistentConference := do
  let options ← validated options
  let (conference, messages) ← created (Conference.accept P joining welcome)
  createFromConference P plan conference messages options store

/-- Opens an existing state directory. -/
def openExisting (unsaved : Unsaved) : Cmd StoreFormat.Error Machine LogicalState :=
  openConference P plan (logical P unsaved)

end Opening

end PersistentConference

end CausalFrontierRatchet.Persistence
