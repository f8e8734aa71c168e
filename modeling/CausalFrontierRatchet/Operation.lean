import CausalFrontierRatchet.Crypto
import CausalFrontierRatchet.Tlv
import Std.Data.ExtTreeMap
import Std.Data.ExtTreeSet

/-!
Signed operations.  The source caches the signed image and the identifier of an operation beside its
fields; here both are functions of the fields, which is what the two constructors of an operation,
signing and parsing, store.
-/

namespace CausalFrontierRatchet.Operation

open BigEndian Crypto Tlv

/-- Identifier of an operation: a hash of its signed image and its signature. -/
abbrev Oid := BitVec 256

/-- Identifier of a contribution secret. -/
abbrev Cid := BitVec 256

abbrev SessionId := BitVec 256

abbrev OidSet := Std.ExtTreeSet Oid

abbrev Roster := Std.ExtTreeSet SigPublic

def MAX_RECIPIENTS : ℕ := 256
def MAX_DEPS : ℕ := 256

inductive Kind
  | add
  | remove
  | prekeys
  | contrib
  | accuse
  | prekeyRequest
deriving DecidableEq, Repr

def Kind.toU32 : Kind → UInt32
  | .add => 1
  | .remove => 2
  | .prekeys => 3
  | .contrib => 4
  | .accuse => 5
  | .prekeyRequest => 6

def Kind.fromU32 (v : UInt32) : Except Error Kind :=
  if v = 1 then .ok .add
  else if v = 2 then .ok .remove
  else if v = 3 then .ok .prekeys
  else if v = 4 then .ok .contrib
  else if v = 5 then .ok .accuse
  else if v = 6 then .ok .prekeyRequest
  else .error (.encoding "unknown operation kind")

/-- One recipient's share of a contribution.  `establish` opens a new channel: it names the
recipient's prekey generation and carries the sender's ephemeral public key. -/
structure Slice where
  recipient : SigPublic
  establish : Option (UInt32 × DhPublic)
  seq : UInt64
  ct : Bytes
deriving DecidableEq

inductive Body
  | add (who : SigPublic)
  | remove (who : SigPublic)
  | prekeys (gen : UInt32) (pk : DhPublic)
  | contrib (cid : Cid) (cparents : OidSet) (recips : List SigPublic) (slices : List Slice)
      (view : BitVec 256)
  | accuse (who : SigPublic) (coid : Oid) (mk : Secret) (seq : UInt64)
  | prekeyRequest (targets : List SigPublic)
deriving DecidableEq

def Body.kind : Body → Kind
  | .add _ => .add
  | .remove _ => .remove
  | .prekeys _ _ => .prekeys
  | .contrib _ _ _ _ _ => .contrib
  | .accuse _ _ _ _ => .accuse
  | .prekeyRequest _ => .prekeyRequest

structure Op where
  sid : SessionId
  author : SigPublic
  deps : OidSet
  body : Body
  sig : Signature
deriving DecidableEq

def Op.kind (op : Op) : Kind :=
  op.body.kind

/-! ## Encoding -/

def Slice.encode (s : Slice) : Bytes :=
  Writer.array s.recipient ++
    (match s.establish with
    | some (gen, eph) => Writer.u32 1 ++ Writer.u32 gen ++ Writer.array eph
    | none => Writer.u32 0) ++
    Writer.u64 s.seq ++ Writer.bytes s.ct

def Body.encode : Body → Bytes
  | .add who | .remove who => Writer.array who
  | .prekeys gen pk => Writer.u32 gen ++ Writer.array pk
  | .contrib cid cparents recips slices view =>
      Writer.array cid ++ Writer.set Writer.array cparents.toList ++
        Writer.list Writer.array recips ++ Writer.list Slice.encode slices ++ Writer.array view
  | .accuse who coid mk seq =>
      Writer.array who ++ Writer.array coid ++ Writer.array mk ++ Writer.u64 seq
  | .prekeyRequest targets => Writer.list Writer.array targets

/-- The fields an image and a wire operation share. -/
def header (sid : SessionId) (author : SigPublic) (deps : OidSet) (body : Body) : Bytes :=
  Writer.array sid ++ Writer.u32 body.kind.toU32 ++ Writer.array author ++
    Writer.set Writer.array deps.toList ++ body.encode

def Op.toWire (op : Op) : Bytes :=
  header op.sid op.author op.deps op.body ++ Writer.array op.sig

def Op.write (op : Op) : Bytes :=
  Writer.bytes op.toWire

section Signing

variable (P : Primitives)

/-- The canonical image whose signature binds the meaning of an operation. -/
def signedImage (sid : SessionId) (author : SigPublic) (deps : OidSet) (body : Body) : BitVec 256 :=
  hash P "cfr/op" [header sid author deps body]

def Op.image (op : Op) : BitVec 256 :=
  signedImage P op.sid op.author op.deps op.body

def Op.oid (op : Op) : Oid :=
  hash P "cfr/oid" [bytesOf (op.image P), bytesOf op.sig]

def Op.create (signingKey : Secret) (sid : SessionId) (deps : OidSet) (body : Body) : Op :=
  let author := P.ed25519Public signingKey
  { sid, author, deps, body
    sig := P.ed25519Sign signingKey (bytesOf (signedImage P sid author deps body)) }

def Op.verify (op : Op) : Except Error Unit :=
  if P.ed25519Verify op.author (bytesOf (op.image P)) op.sig then .ok () else .error .badSignature

end Signing

/-! ## Decoding -/

def Slice.decode : Reader Slice := do
  let recipient ← Reader.array 256
  let which ← Reader.u32
  let establish ← if which = 0 then pure none
    else if which = 1 then do
      let gen ← Reader.u32
      let eph ← Reader.array 256
      pure (some (gen, eph))
    else throw (.encoding "invalid slice discriminant")
  let seq ← Reader.u64
  let ct ← Reader.bytes
  pure { recipient, establish, seq, ct }

def Body.decode : Kind → Reader Body
  | .add => do pure (.add (← Reader.array 256))
  | .remove => do pure (.remove (← Reader.array 256))
  | .prekeys => do
      let gen ← Reader.u32
      pure (.prekeys gen (← Reader.array 256))
  | .contrib => do
      let cid ← Reader.array 256
      let parents ← Reader.set (Reader.array 256)
      if MAX_DEPS < parents.length then throw (.encoding "too many contribution parents")
      let recips ← Reader.list (Reader.array 256)
      if MAX_RECIPIENTS < recips.length then throw (.encoding "too many recipients")
      let slices ← Reader.list Slice.decode
      if MAX_RECIPIENTS < slices.length then throw (.encoding "too many slices")
      let view ← Reader.array 256
      pure (.contrib cid (.ofList parents) recips slices view)
  | .accuse => do
      let who ← Reader.array 256
      let coid ← Reader.array 256
      let mk ← Reader.array 256
      pure (.accuse who coid mk (← Reader.u64))
  | .prekeyRequest => do
      let targets ← Reader.list (Reader.array 256)
      if MAX_RECIPIENTS < targets.length then throw (.encoding "too many targets")
      pure (.prekeyRequest targets)

def Op.read : Reader Op := do
  let sid ← Reader.array 256
  let tag ← Reader.u32
  let kind ← (Kind.fromU32 tag : Except Error Kind)
  let author ← Reader.array 256
  let deps ← Reader.set (Reader.array 256)
  if MAX_DEPS < deps.length then throw (.encoding "too many dependencies")
  let body ← Body.decode kind
  let sig ← Reader.array 512
  pure { sid, author, deps := .ofList deps, body, sig }

def Op.fromWire (buf : Bytes) : Except Error Op :=
  Reader.whole Op.read buf

example :
    let op := Op.create toy 5 9 (.ofList [(3 : Oid), 1, 2]) (.contrib 4 (.ofList [(8 : Oid)]) [6]
      [⟨6, some (0, 7), 0, [1, 2, 3]⟩] 0)
    (op.verify toy).toOption = some () ∧ (Op.fromWire op.toWire).toOption = some op := by
  decide +kernel

end CausalFrontierRatchet.Operation
