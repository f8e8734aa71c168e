import CausalFrontierRatchet.MediaState
import CausalFrontierRatchet.ParticipantState

/-!
One participant's whole view of a call: the participant and the media layer that uses its keys.
Every operation that may change the group key installs the current one into the media layer.
-/

namespace CausalFrontierRatchet.ConferenceSeat

open BigEndian Crypto Tlv Operation CausalMembership Commands Member MediaLayout MediaFrame
open ParticipantState

/-- How many group-key versions the media layer keeps openable. -/
def MEDIA_OVERLAP : ℕ := 4

/-- Where an outbound message goes. -/
inductive Recipient
  | everyone
  | peer (identity : SigPublic)
deriving DecidableEq

/-- A message the application must deliver. -/
structure Message where
  dest : Recipient
  payload : Bytes
deriving DecidableEq

def Message.ofOutbound (o : Messages.Outbound) : Message :=
  { dest := match o.dest with
      | .everyone => .everyone
      | .peer identity => .peer identity
    payload := o.payload }

inductive Error
  | key (e : Tlv.Error)
  | media (e : MediaError)
deriving DecidableEq

structure Conference where
  core : Participant
  media : Protector

/-- The version media frames are protected under. -/
def currentVersion (media : Protector) : Option Version :=
  media.current.bind fun context => (media.versions[context]?).map fun vk => vk.version

abbrev Act : Type → Type :=
  Cmd Error Conference

namespace Conference

def identity (c : Conference) : SigPublic :=
  c.core.ipk

def sessionId (c : Conference) : SessionId :=
  c.core.sid

def members (c : Conference) : Roster :=
  c.core.members

section Operations

variable (P : Primitives)

/-- Installs the current group key into the media layer. -/
def refreshMedia (c : Conference) : Conference :=
  match c.core.groupKey P with
  | some key =>
      let version := c.core.version P
      if currentVersion c.media ≠ some version then
        { c with media := c.media.install P version key c.core.members.toList }
      else c
  | none => c

def wrap (core : Participant) (out : List Messages.Outbound) : Conference × List Message :=
  let media := Protector.new P core.sid core.ipk MEDIA_OVERLAP
  (refreshMedia P ⟨core, media⟩, out.map .ofOutbound)

/-- Starts a conference. -/
def create (policy : Policy) (entropy : List Secret) : Except Error (Conference × List Message) :=
  match Member.create P policy entropy with
  | .ok (out, core) => .ok (wrap P core out)
  | .error e => .error (.key e)

/-- Consumes a welcome and joins. -/
def accept (joining : PendingJoin) (welcome : Bytes) : Except Error (Conference × List Message) :=
  match joining.accept P welcome with
  | .ok (out, core) => .ok (wrap P core out)
  | .error e => .error (.key e)

/-- An action of the participant. -/
def onCore {α : Type} (c : Member.Act α) : Act α := fun s =>
  match c s.core with
  | (.ok a, core) => (.ok a, { s with core })
  | (.error e, core) => (.error (.key e), { s with core })

/-- An action of the participant that may change the group key. -/
def onKeys {α : Type} (c : Member.Act α) : Act α := do
  let a ← onCore c
  modify (refreshMedia P)
  pure a

def invite (kp : Messages.KeyPackage) : Act (List Message) := do
  let out ← onKeys P (Member.invite P kp)
  pure (out.map .ofOutbound)

def evict (who : SigPublic) : Act (List Message) := do
  let out ← onKeys P (Member.remove P who)
  pure (out.map .ofOutbound)

def leave : Act Message := do
  let message ← onKeys P (Member.leave P)
  pure (.ofOutbound message)

/-- Contributes fresh entropy, moving the key forward. -/
def rekey : Act (List Message) := do
  let out ← onKeys P (Member.contribute P)
  pure (out.map .ofOutbound)

/-- Rotates the prekey and rekeys. -/
def heal : Act (List Message) := do
  let rotate ← onCore (Member.rotatePrekeys P)
  let out ← rekey P
  pure (.ofOutbound rotate :: out)

/-- Advances deadline clocks. -/
def tick : Act Unit :=
  onCore Member.tick

def handle (wire : Bytes) : Act (List Event × List Message) := do
  let (events, out) ← onKeys P (Member.handle P wire)
  pure (events, out.map .ofOutbound)

/-- Asks the conference for anything this participant is missing. -/
def resync : Act (List Message) := do
  let request := syncRequest (← get).core
  let more ← onCore (repairRequest P)
  pure (.ofOutbound request :: (more.getD []).map .ofOutbound)

/-- Broadcasts a checkpoint certificate that matches the local state. -/
def offerCheckpoint (certificate : Messages.CheckpointCertificate) : Act Message := do
  let c ← get
  match c.core.validateCheckpoint P certificate with
  | .ok () => pure (.ofOutbound (.broadcast (.checkpoint certificate)))
  | .error e => throw (.key e)

/-- An action of the media layer, under the current key. -/
def onMedia {α : Type} (c : Protector → Except MediaError α × Protector) : Act α := do
  modify (refreshMedia P)
  fun s =>
    match c s.media with
    | (.ok a, media) => (.ok a, { s with media })
    | (.error e, media) => (.error (.media e), { s with media })

def protect (codec : Codec) (frame : Bytes) (keyframe : Bool) : Act Bytes :=
  onMedia P fun media => media.protect P codec frame keyframe

/-- Opens one protected media frame. -/
def openMedia (packet : Bytes) : Act (SigPublic × Bytes) :=
  onMedia P fun media => media.unprotect P packet

end Operations

/-! ## Persistence -/

section Persistence

variable (P : Primitives)

def exportPersistenceState (c : Conference) : Except Error Bytes :=
  match ParticipantState.exportPersistenceState c.core with
  | .error e => .error (.key e)
  | .ok core =>
      match MediaState.exportPersistenceState c.media with
      | .error e => .error (.media e)
      | .ok media => .ok (Writer.bytes core ++ Writer.bytes media)

/-- The media state belongs to the participant; if the group key can be derived, it is the current
one, with the current members. -/
def validateBinding (media : Protector) (core : Participant) : Except MediaError Unit :=
  if media.sid ≠ core.sid ∨ media.me ≠ core.ipk ∨ media.myTag ≠ senderTag P core.ipk then
    .error .malformedState
  else
    match core.groupKey P with
    | none => .ok ()
    | some key =>
        let context := contextId P (core.version P)
        if media.current ≠ some context then .error .malformedState
        else
          match media.versions[context]? with
          | none => .error .malformedState
          | some stored =>
              if stored.version ≠ core.version P ∨ stored.key ≠ key ∨
                  (.ofList (stored.roster.toList.map Prod.snd) : Roster) ≠ core.members then
                .error .malformedState
              else .ok ()

def readParts : Reader (Bytes × Bytes) := do
  let core ← Reader.bytes
  let media ← Reader.bytes
  pure (core, media)

def importPersistenceState (unsaved : Unsaved) (bytes : Bytes) : Except Error Conference :=
  match Reader.whole readParts bytes with
  | .error e => .error (.key e)
  | .ok (coreBytes, mediaBytes) =>
      match ParticipantState.importPersistenceState P unsaved coreBytes with
      | .error e => .error (.key e)
      | .ok core =>
          match MediaState.importPersistenceState P mediaBytes with
          | .error e => .error (.media e)
          | .ok media =>
              match validateBinding P media core with
              | .error e => .error (.media e)
              | .ok () => .ok ⟨core, media⟩

end Persistence

end Conference

end CausalFrontierRatchet.ConferenceSeat
