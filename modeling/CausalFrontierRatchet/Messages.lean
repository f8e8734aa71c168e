import CausalFrontierRatchet.KeySchedule

/-!
Control-plane messages and their wire format: key packages, envelopes, checkpoint certificates and
the seven kinds of message.
-/

namespace CausalFrontierRatchet.Messages

open BigEndian Crypto Tlv Operation

/-! ## Checkpoints -/

def PROTOCOL_ID : UInt16 := 1
def MAX_CHECKPOINT_FRONTIER : ℕ := 256
def MAX_CHECKPOINT_SIGNERS : ℕ := 256

/-- The media context identifier of a version label. -/
def mediaContextId (P : Primitives) (version : BitVec 64) : BitVec 128 :=
  leading 128 (hash P "cfr/media/context" [bytesOf version])

inductive ProtocolProfile
  | centralizedSequenced
  | decentralizedMerkle
deriving DecidableEq, Repr

def ProtocolProfile.code : ProtocolProfile → UInt64
  | .centralizedSequenced => 1
  | .decentralizedMerkle => 2

def ProtocolProfile.decode (code : UInt64) : Except Error ProtocolProfile :=
  if code = 1 then .ok .centralizedSequenced
  else if code = 2 then .ok .decentralizedMerkle
  else .error (.encoding "unknown protocol profile")

/-- Capability bits every participant of a session must support. -/
def CORE_SECURITY : UInt64 := 0b111

/-- A link from an old session to a fresh one. -/
structure ResumptionRecord where
  protocolId : UInt16
  previousSession : SessionId
  previousContext : BitVec 128
  previousFrontier : OidSet
  membershipRoot : BitVec 256
  checkpointEpoch : UInt64
  nextSession : SessionId
  profile : ProtocolProfile
  requiredCapabilities : UInt64
deriving DecidableEq

namespace ResumptionRecord

def validate (r : ResumptionRecord) : Except Error Unit :=
  if r.protocolId ≠ PROTOCOL_ID then .error (.encoding "unsupported protocol generation")
  else if r.previousSession = r.nextSession then
    .error (.encoding "checkpoint must create a fresh session")
  else if r.previousFrontier.isEmpty then .error (.encoding "checkpoint frontier is empty")
  else if MAX_CHECKPOINT_FRONTIER < r.previousFrontier.size then
    .error (.limitExceeded "checkpoint frontier too large")
  else if r.checkpointEpoch = 0 then .error (.encoding "checkpoint epoch is zero")
  else if r.requiredCapabilities &&& CORE_SECURITY ≠ CORE_SECURITY then
    .error (.unauthorised "checkpoint lacks required required capabilities")
  else .ok ()

def write (r : ResumptionRecord) : Bytes :=
  Writer.u64 r.protocolId.toUInt64 ++ Writer.array r.previousSession ++
    Writer.array r.previousContext ++ Writer.set Writer.array r.previousFrontier.toList ++
    Writer.array r.membershipRoot ++ Writer.u64 r.checkpointEpoch ++ Writer.array r.nextSession ++
    Writer.u64 r.profile.code ++ Writer.u64 r.requiredCapabilities

def signingBytes (r : ResumptionRecord) : Bytes :=
  r.write

def read : Reader ResumptionRecord := do
  let id ← Reader.u64
  if 2 ^ 16 ≤ id.toNat then throw (.encoding "protocol generation exceeds u16")
  let previousSession ← Reader.array 256
  let previousContext ← Reader.array 128
  let frontier ← Reader.set (Reader.array 256)
  let membershipRoot ← Reader.array 256
  let checkpointEpoch ← Reader.u64
  let nextSession ← Reader.array 256
  let profile ← (ProtocolProfile.decode (← Reader.u64) : Except Error ProtocolProfile)
  let requiredCapabilities ← Reader.u64
  let record : ResumptionRecord :=
    { protocolId := id.toUInt16, previousSession, previousContext
      previousFrontier := .ofList frontier, membershipRoot, checkpointEpoch, nextSession, profile
      requiredCapabilities }
  let _ ← (record.validate : Except Error Unit)
  pure record

end ResumptionRecord

structure CheckpointSignature where
  signer : SigPublic
  signature : Signature
deriving DecidableEq

/-- A certificate of all active members for a fresh session. -/
structure CheckpointCertificate where
  record : ResumptionRecord
  signatures : Std.ExtTreeMap SigPublic Signature
deriving DecidableEq

namespace CheckpointCertificate

variable (P : Primitives)

def addSignature (c : CheckpointCertificate) (approval : CheckpointSignature) :
    Except Error CheckpointCertificate :=
  if MAX_CHECKPOINT_SIGNERS ≤ c.signatures.size then
    .error (.limitExceeded "checkpoint signer set too large")
  else if ¬P.ed25519Verify approval.signer c.record.signingBytes approval.signature then
    .error (.crypto .badSignature)
  else if c.signatures.contains approval.signer then
    .error (.encoding "duplicate checkpoint signer")
  else .ok { c with signatures := c.signatures.insert approval.signer approval.signature }

/-- Exactly the active roster approved the record. -/
def verify (c : CheckpointCertificate) (activeRoster : Roster) : Except Error Unit := do
  c.record.validate
  if activeRoster.isEmpty || c.signatures.size ≠ activeRoster.size then
    throw (.unauthorised "checkpoint lacks unanimous active roster")
  if Std.ExtTreeSet.ofList c.signatures.keys ≠ activeRoster then
    throw (.unauthorised "checkpoint signer set differs from active roster")
  if c.signatures.toList.all fun entry =>
      P.ed25519Verify entry.1 c.record.signingBytes entry.2 then pure ()
  else throw (.crypto .badSignature)

def write (c : CheckpointCertificate) : Bytes :=
  c.record.write ++
    Writer.list (fun entry => Writer.array entry.1 ++ Writer.array entry.2) c.signatures.toList

def read : Reader CheckpointCertificate := do
  let record ← ResumptionRecord.read
  let approvals ← Reader.list (do
    let signer ← Reader.array 256
    let signature ← Reader.array 512
    pure (CheckpointSignature.mk signer signature))
  if MAX_CHECKPOINT_SIGNERS < approvals.length then
    throw (.limitExceeded "checkpoint signer set too large")
  (approvals.foldlM (addSignature P) ⟨record, ∅⟩ : Except Error CheckpointCertificate)

end CheckpointCertificate

/-! ## Messages -/

/-- A newcomer's signed identity and prekey. -/
structure KeyPackage where
  ipk : SigPublic
  gen : UInt32
  prekey : DhPublic
  sig : Signature
deriving DecidableEq

namespace KeyPackage

variable (P : Primitives)

def image (ipk : SigPublic) (gen : UInt32) (prekey : DhPublic) : BitVec 256 :=
  hash P "cfr/keypackage" [Writer.array ipk ++ Writer.u32 gen ++ Writer.array prekey]

def verify (kp : KeyPackage) : Except Error Unit :=
  if P.ed25519Verify kp.ipk (bytesOf (image P kp.ipk kp.gen kp.prekey)) kp.sig then .ok ()
  else .error .badSignature

end KeyPackage

/-- A sealed point-to-point envelope. -/
structure Envelope where
  eph : DhPublic
  gen : UInt32
  ct : Bytes
deriving DecidableEq

def Envelope.encode (e : Envelope) : Bytes :=
  Writer.array e.eph ++ Writer.u32 e.gen ++ Writer.bytes e.ct

def Envelope.decode : Reader Envelope := do
  let eph ← Reader.array 256
  let gen ← Reader.u32
  let ct ← Reader.bytes
  pure { eph, gen, ct }

inductive Message
  | op (o : Op)
  | welcome (sid : SessionId) (sender : SigPublic) (sealed : Envelope) (history : List Op)
      (pruned : List Oid)
  | sync (sender : SigPublic) (heads : List Oid)
  | deliver (ops : List Op) (pruned : List Oid)
  | nodeKeyRequest (sender : SigPublic) (nodes : List Oid)
  | nodeKeyResponse (sender : SigPublic) (sealed : Envelope)
  | checkpoint (certificate : CheckpointCertificate)
deriving DecidableEq

def CFR_WIRE_MARKER : UInt64 := 0x43465221

def M_OP : UInt32 := 1
def M_WELCOME : UInt32 := 2
def M_SYNC : UInt32 := 3
def M_DELIVER : UInt32 := 4
def M_NKREQ : UInt32 := 5
def M_NKRESP : UInt32 := 6
def M_CHECKPOINT : UInt32 := 7

/-- Ceiling on operations carried by one message. -/
def MAX_BATCH : ℕ := 4096

def Message.toWire (m : Message) : Bytes :=
  Writer.u64 CFR_WIRE_MARKER ++ Writer.u64 PROTOCOL_ID.toUInt64 ++
    match m with
    | .op o => Writer.u32 M_OP ++ o.write
    | .welcome sid sender sealed history pruned =>
        Writer.u32 M_WELCOME ++ Writer.array sid ++ Writer.array sender ++ sealed.encode ++
          Writer.list Op.write history ++ Writer.set Writer.array pruned
    | .sync sender heads =>
        Writer.u32 M_SYNC ++ Writer.array sender ++ Writer.set Writer.array heads
    | .deliver ops pruned =>
        Writer.u32 M_DELIVER ++ Writer.list Op.write ops ++ Writer.set Writer.array pruned
    | .nodeKeyRequest sender nodes =>
        Writer.u32 M_NKREQ ++ Writer.array sender ++ Writer.set Writer.array nodes
    | .nodeKeyResponse sender sealed =>
        Writer.u32 M_NKRESP ++ Writer.array sender ++ sealed.encode
    | .checkpoint certificate => Writer.u32 M_CHECKPOINT ++ certificate.write

/-- An operation in its own length-delimited field. -/
def readOp : Reader Op := do
  let buf ← Reader.bytes
  (Op.fromWire buf : Except Error Op)

/-- Fails when a batch is over the limit. -/
def bounded (items : ℕ) (reason : String) : Reader Unit :=
  if MAX_BATCH < items then throw (.limitExceeded reason) else pure ()

def Message.read (P : Primitives) : Reader Message := do
  if (← Reader.u64) ≠ CFR_WIRE_MARKER then throw (.encoding "not a CFR wire message")
  if (← Reader.u64) ≠ PROTOCOL_ID.toUInt64 then
    throw (.encoding "unsupported CFR protocol identifier")
  let tag ← Reader.u32
  if tag = M_OP then
    pure (.op (← readOp))
  else if tag = M_WELCOME then do
    let sid ← Reader.array 256
    let sender ← Reader.array 256
    let sealed ← Envelope.decode
    let history ← Reader.list readOp
    bounded history.length "welcome history too large"
    let pruned ← Reader.set (Reader.array 256)
    bounded pruned.length "pruned set too large"
    pure (.welcome sid sender sealed history pruned)
  else if tag = M_SYNC then do
    let sender ← Reader.array 256
    let heads ← Reader.set (Reader.array 256)
    bounded heads.length "sync head set too large"
    pure (.sync sender heads)
  else if tag = M_DELIVER then do
    let ops ← Reader.list readOp
    bounded ops.length "delivery batch too large"
    let pruned ← Reader.set (Reader.array 256)
    bounded pruned.length "pruned set too large"
    pure (.deliver ops pruned)
  else if tag = M_NKREQ then do
    let sender ← Reader.array 256
    let nodes ← Reader.set (Reader.array 256)
    bounded nodes.length "node key request too large"
    pure (.nodeKeyRequest sender nodes)
  else if tag = M_NKRESP then do
    let sender ← Reader.array 256
    pure (.nodeKeyResponse sender (← Envelope.decode))
  else if tag = M_CHECKPOINT then
    pure (.checkpoint (← CheckpointCertificate.read P))
  else throw (.encoding "unknown message tag")

def Message.fromWire (P : Primitives) (buf : Bytes) : Except Error Message :=
  Reader.whole (Message.read P) buf

inductive Destination
  | everyone
  | peer (id : SigPublic)
deriving DecidableEq

/-- An instruction to the transport. -/
structure Outbound where
  dest : Destination
  message : Message
deriving DecidableEq

/-- The serialised message. -/
def Outbound.payload (o : Outbound) : Bytes :=
  o.message.toWire

def Outbound.broadcast (m : Message) : Outbound :=
  ⟨.everyone, m⟩

def Outbound.direct (id : SigPublic) (m : Message) : Outbound :=
  ⟨.peer id, m⟩

example :
    let op := Op.create toy 5 9 ∅ (.add 5)
    (Message.fromWire toy (Message.deliver [op] [2, 1]).toWire).toOption =
      some (.deliver [op] [1, 2]) := by
  decide +kernel

end CausalFrontierRatchet.Messages
