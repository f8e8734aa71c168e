import CausalFrontierRatchet.MediaLayout
import CausalFrontierRatchet.MediaRatchet
import Std.Data.ExtTreeMap

/-!
Protected media frames.  A protector holds one record of keys, ratchets and counter for each
retained group-key version; installing a version beyond the retention limit erases the oldest
record.  A protected frame is the original frame with its content ranges encrypted in place,
followed by the tag and a 33-byte trailer.
-/

namespace CausalFrontierRatchet.MediaFrame

open BigEndian Crypto MediaLayout MediaRatchet

/-- Why a frame could not be protected or opened, or a persisted state not be read. -/
inductive MediaError where
  | malformed
  | noKey
  | unknownVersion
  | unknownSender
  | ownFrame
  | replay
  | stale
  | badTag
  | counterExhausted
  | malformedState
  deriving DecidableEq, Repr

def MediaError.message : MediaError → String
  | .malformed => "malformed packet"
  | .noKey => "no group key installed"
  | .unknownVersion => "unknown key version"
  | .unknownSender => "unknown sender"
  | .ownFrame => "frame claims to be our own"
  | .replay => "replayed frame"
  | .stale => "frame belongs to a retired epoch"
  | .badTag => "authentication failed"
  | .counterExhausted => "frame counter exhausted"
  | .malformedState => "malformed persisted media state"

/-- Width of a trailer. -/
def TRAILER_LEN : ℕ := 33

/-- The eight-byte sender routing identifier. -/
abbrev SenderTag := BitVec 64

/-- The context identifier derived from a group-key version. -/
abbrev ContextId := BitVec 128

/-- A group-key version label. -/
abbrev Version := BitVec 64

def codecId : Codec → UInt8
  | .h264 => 1
  | .h265 => 2
  | .av1 => 3
  | .vp8 => 4
  | .vp9 => 5
  | .opus => 6
  | .generic => 0

def codecOf (id : UInt8) : Option Codec :=
  if id = 0 then some .generic
  else if id = 1 then some .h264
  else if id = 2 then some .h265
  else if id = 3 then some .av1
  else if id = 4 then some .vp8
  else if id = 5 then some .vp9
  else if id = 6 then some .opus
  else none

structure Trailer where
  sender : SenderTag
  counter : UInt64
  version : ContextId
  codec : Codec
  keyframe : Bool
  deriving DecidableEq

/-- The last trailer byte: marker bit, codec and key-frame flag. -/
def trailerFlags (codec : Codec) (keyframe : Bool) : UInt8 :=
  (0x80 : UInt8) ||| (codecId codec <<< 1) ||| (if keyframe then 1 else 0)

def Trailer.encode (t : Trailer) : Bytes :=
  bytesOf t.sender ++ u64Bytes t.counter ++ bytesOf t.version ++ [trailerFlags t.codec t.keyframe]

def Trailer.decode (buf : Bytes) : Except MediaError Trailer :=
  let last := buf.getD 32 0
  if last &&& 0x80 = 0 then .error .malformed
  else
    match codecOf ((last &&& 0x7F) >>> 1) with
    | none => .error .malformed
    | some codec =>
        .ok
          { sender := ofBytes 64 (buf.take 8)
            counter := UInt64.ofNat (ofBe ((buf.drop 8).take 8))
            version := ofBytes 128 ((buf.drop 16).take 16)
            codec := codec
            keyframe := last &&& 1 = 1 }

variable (P : Primitives)

def senderTag (id : SigPublic) : SenderTag :=
  leading 64 (hash P "cfr/media/sender" [bytesOf id])

def contextId (version : Version) : ContextId :=
  leading 128 (hash P "cfr/media/context" [bytesOf version])

def nonceFields (sid : BitVec 256) (t : Trailer) : List Bytes :=
  [bytesOf sid, bytesOf t.sender, bytesOf t.version, u64Bytes t.counter, [codecId t.codec]]

def nonceFor (sid : BitVec 256) (t : Trailer) : BitVec 256 :=
  nonce P (nonceFields sid t)

/-- The associated data: the trailer followed by every readable range. -/
def associated (raw frame : Bytes) (l : Layout) : Bytes :=
  raw ++ slices frame l.clear

/-- What is held for one retained version. -/
structure VersionKeys where
  version : Version
  key : Secret
  roster : Std.ExtTreeMap SenderTag SigPublic
  send : SendRatchet
  recv : Std.ExtTreeMap SenderTag (RecvRatchet × Replay)
  counter : UInt64

/-- Protects and opens media frames for one participant. -/
structure Protector where
  sid : BitVec 256
  me : SigPublic
  myTag : SenderTag
  versions : Std.ExtTreeMap ContextId VersionKeys
  order : List ContextId
  current : Option ContextId
  retain : ℕ

def Protector.new (sid : BitVec 256) (me : SigPublic) (retain : ℕ) : Protector :=
  { sid, me, myTag := senderTag P me, versions := ∅, order := [], current := none
    retain := max retain 1 }

/-- Drops the oldest records while more than `retain` are queued. -/
def evict (retain : ℕ) : List ContextId → Std.ExtTreeMap ContextId VersionKeys →
    List ContextId × Std.ExtTreeMap ContextId VersionKeys
  | [], versions => ([], versions)
  | old :: rest, versions =>
      if retain < rest.length + 1 then evict retain rest (versions.erase old)
      else (old :: rest, versions)

def rosterOf (roster : List SigPublic) : Std.ExtTreeMap SenderTag SigPublic :=
  roster.foldl (fun m id => m.insert (senderTag P id) id) ∅

/-- The record a version starts with. -/
def VersionKeys.new (version : Version) (key : Secret) (me : SigPublic) (roster : List SigPublic) :
    VersionKeys :=
  { version, key, roster := rosterOf P roster, send := SendRatchet.new P key me, recv := ∅
    counter := 0 }

/-- Installs a group-key version and makes it current; an installed version keeps its record. -/
def Protector.install (p : Protector) (version : Version) (key : Secret) (roster : List SigPublic) :
    Protector :=
  let context := contextId P version
  if context ∈ p.versions then { p with current := some context }
  else
    let vk := VersionKeys.new P version key p.me roster
    let (order, versions) := evict p.retain (p.order ++ [context]) (p.versions.insert context vk)
    { p with versions, order, current := some context }

/-- The encrypted frame and its tag. -/
def sealFrame (codec : Codec) (fk : Secret) (n : BitVec 256) (ad frame : Bytes) (l : Layout) :
    Bytes :=
  if codec.isAudio then
    let (ct, tag) := P.aegisSealShort fk n (gather frame l) ad
    scatter frame l ct ++ bytesOf tag
  else
    let (ct, tag) := P.aegisSeal fk n (gather frame l) ad
    scatter frame l ct ++ bytesOf tag

/-- Protects one frame under the current version. -/
def Protector.protect (p : Protector) (codec : Codec) (frame : Bytes) (keyframe : Bool) :
    Except MediaError Bytes × Protector :=
  match p.current with
  | none => (.error .noKey, p)
  | some context =>
      match p.versions[context]? with
      | none => (.error .noKey, p)
      | some vk =>
          if vk.counter.toNat + 1 = 2 ^ 64 then (.error .counterExhausted, p)
          else
            let counted := { vk with counter := vk.counter + 1 }
            let l := layout codec frame keyframe
            let trailer : Trailer :=
              { sender := p.myTag, counter := vk.counter, version := context, codec, keyframe }
            let raw := trailer.encode
            match counted.send.key P vk.counter with
            -- The counter is already spent when the ratchet refuses.
            | none => (.error .noKey, { p with versions := p.versions.insert context counted })
            | some (fk, send) =>
                let sealed := sealFrame P codec fk (nonceFor P p.sid trailer)
                  (associated raw frame l) frame l
                (.ok (sealed ++ raw),
                  { p with versions := p.versions.insert context { counted with send } })

/-- Opens the body of a frame under its layout. -/
def openFrame (codec : Codec) (fk : Secret) (n : BitVec 256) (ad body tag : Bytes) (l : Layout) :
    Option Bytes :=
  if codec.isAudio then
    (fromSlice 128 tag).bind fun t => P.aegisOpenShort fk n (gather body l) t ad
  else
    (fromSlice 256 tag).bind fun t => P.aegisOpen fk n (gather body l) t ad

def tagLen (codec : Codec) : ℕ :=
  if codec.isAudio then TAG_LEN_SHORT else TAG_LEN

/-- The receiving state kept for a sender, started when the sender is first heard. -/
def VersionKeys.entry (vk : VersionKeys) (tag : SenderTag) (sender : SigPublic) :
    RecvRatchet × Replay :=
  (vk.recv[tag]?).getD (RecvRatchet.new P vk.key sender, Replay.new)

def Protector.store (p : Protector) (context : ContextId) (vk : VersionKeys) (tag : SenderTag)
    (entry : RecvRatchet × Replay) : Protector :=
  { p with versions := p.versions.insert context { vk with recv := vk.recv.insert tag entry } }

/-- Opens one protected frame; replay and ratchet state move only after authentication. -/
def Protector.unprotect (p : Protector) (packet : Bytes) :
    Except MediaError (SigPublic × Bytes) × Protector :=
  if packet.length < TRAILER_LEN then (.error .malformed, p)
  else
    let rest := packet.take (packet.length - TRAILER_LEN)
    let raw := packet.drop (packet.length - TRAILER_LEN)
    match Trailer.decode raw with
    | .error e => (.error e, p)
    | .ok trailer =>
        if rest.length < tagLen trailer.codec then (.error .malformed, p)
        else
          let body := rest.take (rest.length - tagLen trailer.codec)
          let tag := rest.drop (rest.length - tagLen trailer.codec)
          match p.versions[trailer.version]? with
          | none => (.error .unknownVersion, p)
          | some vk =>
              match vk.roster[trailer.sender]? with
              | none => (.error .unknownSender, p)
              | some sender =>
                  if sender = p.me then (.error .ownFrame, p)
                  else
                    let entry := vk.entry P trailer.sender sender
                    let store := p.store trailer.version vk trailer.sender
                    match entry.2.accept trailer.counter with
                    | none => (.error .replay, store entry)
                    | some nextReplay =>
                        match entry.1.key P trailer.counter with
                        | none => (.error .stale, store entry)
                        | some (fk, nextRatchet) =>
                            let l := layout trailer.codec body trailer.keyframe
                            match openFrame P trailer.codec fk (nonceFor P p.sid trailer)
                              (associated raw body l) body tag l with
                            | none => (.error .badTag, store entry)
                            | some content =>
                                (.ok (sender, scatter body l content),
                                  store (nextRatchet, nextReplay))

/-- Reads the trailer of a protected frame without holding any key. -/
def Protector.inspect (packet : Bytes) : Except MediaError Trailer :=
  if packet.length < TRAILER_LEN then .error .malformed
  else Trailer.decode (packet.drop (packet.length - TRAILER_LEN))

/-! ## Trailers -/

theorem u64_ofBe_u64Bytes (v : UInt64) : UInt64.ofNat (ofBe (u64Bytes v)) = v := by
  rw [u64Bytes, ofBe_beBytes_of_lt (by simpa using v.toNat_lt), UInt64.ofNat_toNat]

@[simp] theorem Trailer.encode_length (t : Trailer) : t.encode.length = TRAILER_LEN := by
  simp [Trailer.encode, TRAILER_LEN]

/-- The last byte gives back the marker, the codec and the key-frame flag. -/
private theorem trailerFlags_fields (codec : Codec) (keyframe : Bool) :
    trailerFlags codec keyframe &&& 0x80 ≠ 0 ∧
      codecOf ((trailerFlags codec keyframe &&& 0x7F) >>> 1) = some codec ∧
      decide (trailerFlags codec keyframe &&& 1 = 1) = keyframe := by
  cases codec <;> cases keyframe <;> decide

theorem Trailer.decode_encode (t : Trailer) : Trailer.decode t.encode = .ok t := by
  obtain ⟨sender, counter, version, codec, keyframe⟩ := t
  obtain ⟨hmark, hcodec, hkey⟩ := trailerFlags_fields codec keyframe
  set t : Trailer := { sender, counter, version, codec, keyframe } with ht
  have hlast : t.encode.getD 32 0 = trailerFlags codec keyframe := by
    rw [Trailer.encode, List.getD_eq_getElem?_getD, List.getElem?_append_right (by simp)]
    simp [ht]
  have hsender : t.encode.take 8 = bytesOf sender := by
    simp only [Trailer.encode, List.append_assoc]
    exact List.take_left' (by simp)
  have hcounter : (t.encode.drop 8).take 8 = u64Bytes counter := by
    simp only [Trailer.encode, List.append_assoc]
    rw [List.drop_left' (by simp)]
    exact List.take_left' (by simp)
  have hversion : (t.encode.drop 16).take 16 = bytesOf version := by
    rw [Trailer.encode, List.append_assoc, List.drop_left' (by simp)]
    exact List.take_left' (by simp)
  simp only [Trailer.decode, hlast, hsender, hcounter, hversion]
  rw [if_neg hmark, hcodec]
  simp only [hkey, ofBytes_bytesOf (by decide : 8 ∣ 64), ofBytes_bytesOf (by decide : 8 ∣ 128),
    u64_ofBe_u64Bytes, ht]

theorem Protector.inspect_append (sealed : Bytes) (t : Trailer) :
    Protector.inspect (sealed ++ t.encode) = .ok t := by
  have hcut : (sealed ++ t.encode).length - TRAILER_LEN = sealed.length := by simp
  rw [Protector.inspect, if_neg (by simp), hcut, List.drop_left, Trailer.decode_encode]

/-! ## What a successful call did -/

/-- The trailer a record puts on its next frame. -/
def Protector.trailerOf (p : Protector) (context : ContextId) (vk : VersionKeys) (codec : Codec)
    (keyframe : Bool) : Trailer :=
  { sender := p.myTag, counter := vk.counter, version := context, codec, keyframe }

/-- Everything behind a protected frame. -/
structure Protected (p : Protector) (codec : Codec) (frame : Bytes) (keyframe : Bool)
    (packet : Bytes) (p' : Protector) where
  context : ContextId
  vk : VersionKeys
  fk : Secret
  send : SendRatchet
  current : p.current = some context
  record : p.versions[context]? = some vk
  room : vk.counter.toNat + 1 < 2 ^ 64
  key : vk.send.key P vk.counter = some (fk, send)
  packet_eq : packet =
    sealFrame P codec fk (nonceFor P p.sid (p.trailerOf context vk codec keyframe))
      (associated (p.trailerOf context vk codec keyframe).encode frame (layout codec frame keyframe))
      frame (layout codec frame keyframe) ++ (p.trailerOf context vk codec keyframe).encode
  state_eq : p' =
    { p with versions := p.versions.insert context { vk with counter := vk.counter + 1, send } }

variable {P}

theorem Protector.protect_ok {p p' : Protector} {codec : Codec} {frame packet : Bytes}
    {keyframe : Bool} (h : p.protect P codec frame keyframe = (.ok packet, p')) :
    Nonempty (Protected P p codec frame keyframe packet p') := by
  unfold Protector.protect at h
  split at h
  · cases h
  · rename_i context hcurrent
    split at h
    · cases h
    · rename_i vk hvk
      split_ifs at h with hfull
      · cases h
      dsimp only at h
      split at h
      · cases h
      · rename_i fk send hkey
        obtain ⟨hpacket, hstate⟩ := Prod.mk.inj h
        have hlt := vk.counter.toNat_lt
        exact ⟨⟨context, vk, fk, send, hcurrent, hvk, by omega, hkey,
          (Except.ok.inj hpacket).symm, hstate.symm⟩⟩

/-- A failed protection leaves everything but possibly one spent counter as it was. -/
theorem Protector.protect_error {p p' : Protector} {codec : Codec} {frame : Bytes}
    {keyframe : Bool} {e : MediaError} (h : p.protect P codec frame keyframe = (.error e, p')) :
    p' = p ∨ ∃ context vk, p.current = some context ∧ p.versions[context]? = some vk ∧
      vk.counter.toNat + 1 < 2 ^ 64 ∧ vk.send.key P vk.counter = none ∧
      p' = { p with versions := p.versions.insert context { vk with counter := vk.counter + 1 } } := by
  unfold Protector.protect at h
  split at h
  · exact Or.inl (Prod.mk.inj h).2.symm
  · rename_i context hcurrent
    split at h
    · exact Or.inl (Prod.mk.inj h).2.symm
    · rename_i vk hvk
      split_ifs at h with hfull
      · exact Or.inl (Prod.mk.inj h).2.symm
      · dsimp only at h
        split at h
        · rename_i hkey
          have hlt := vk.counter.toNat_lt
          exact Or.inr ⟨context, vk, hcurrent, hvk, by omega, hkey, (Prod.mk.inj h).2.symm⟩
        · cases h

/-- The oldest contexts beyond the limit leave the order. -/
theorem evict_order (retain : ℕ) (order : List ContextId)
    (versions : Std.ExtTreeMap ContextId VersionKeys) :
    (evict retain order versions).1 = order.drop (order.length - retain) := by
  induction order generalizing versions with
  | nil => simp [evict]
  | cons old rest ih =>
      rw [evict, List.length_cons]
      split_ifs with hfull
      · rw [ih, show rest.length + 1 - retain = rest.length - retain + 1 by omega,
          List.drop_succ_cons]
      · rw [show rest.length + 1 - retain = 0 by omega, List.drop_zero]

/-- Their records are dropped, and no others. -/
theorem evict_versions (retain : ℕ) (order : List ContextId)
    (versions : Std.ExtTreeMap ContextId VersionKeys) (context : ContextId) :
    (evict retain order versions).2[context]? =
      if context ∈ order.take (order.length - retain) then none else versions[context]? := by
  induction order generalizing versions with
  | nil => simp [evict]
  | cons old rest ih =>
      rw [evict, List.length_cons]
      split_ifs with hfull hdropped hdropped
      · rw [ih, Std.ExtTreeMap.getElem?_erase]
        rw [show rest.length + 1 - retain = rest.length - retain + 1 by omega,
          List.take_succ_cons, List.mem_cons] at hdropped
        rcases hdropped with rfl | hlater
        · simp
        · rw [if_pos hlater]
      · rw [ih, Std.ExtTreeMap.getElem?_erase]
        rw [show rest.length + 1 - retain = rest.length - retain + 1 by omega,
          List.take_succ_cons, List.mem_cons, not_or] at hdropped
        rw [if_neg hdropped.2, if_neg fun heq =>
          hdropped.1 (Std.LawfulEqCmp.eq_of_compare heq).symm]
      · rw [show rest.length + 1 - retain = 0 by omega, List.take_zero] at hdropped
        exact absurd hdropped List.not_mem_nil
      · rfl

theorem evict_subset (retain : ℕ) (order : List ContextId)
    (versions : Std.ExtTreeMap ContextId VersionKeys) {context : ContextId} {vk : VersionKeys}
    (h : (evict retain order versions).2[context]? = some vk) : versions[context]? = some vk := by
  rw [evict_versions] at h
  split_ifs at h
  exact h

/-- A record after an installation is an old record or a new one that has counted nothing. -/
theorem install_record {p : Protector} {version : Version} {key : Secret} {roster : List SigPublic}
    {context : ContextId} {vk : VersionKeys}
    (h : (p.install P version key roster).versions[context]? = some vk) :
    p.versions[context]? = some vk ∨
      (context = contextId P version ∧ p.versions[context]? = none ∧
        vk = VersionKeys.new P version key p.me roster) := by
  simp only [Protector.install] at h
  split_ifs at h with hknown
  · exact Or.inl h
  · have hmem := evict_subset _ _ _ h
    rw [Std.ExtTreeMap.getElem?_insert] at hmem
    split_ifs at hmem with hcontext
    · have hcontext := Std.LawfulEqCmp.eq_of_compare hcontext
      cases hmem
      subst hcontext
      exact Or.inr ⟨rfl, Std.ExtTreeMap.getElem?_eq_none hknown, rfl⟩
    · exact Or.inl hmem

/-- The first installation keeps just the record it makes. -/
theorem install_new (sid : BitVec 256) (me : SigPublic) (retain : ℕ) (version : Version)
    (key : Secret) (roster : List SigPublic) :
    ((Protector.new P sid me retain).install P version key roster).versions[contextId P version]? =
      some (VersionKeys.new P version key me roster) := by
  have hroom : ¬max retain 1 < 0 + 1 := by omega
  simp [Protector.install, Protector.new, evict, hroom]

theorem toNat_succ {n : UInt64} (h : n.toNat + 1 < 2 ^ 64) : (n + 1).toNat = n.toNat + 1 := by
  rw [UInt64.toNat_add]
  exact Nat.mod_eq_of_lt h

/-- What stands before the authentication of a packet, once its trailer has been read. -/
structure Received (p : Protector) (packet : Bytes) where
  body : Bytes
  tag : Bytes
  raw : Bytes
  trailer : Trailer
  vk : VersionKeys
  sender : SigPublic
  packet_eq : packet = body ++ tag ++ raw
  raw_len : raw.length = TRAILER_LEN
  decoded : Trailer.decode raw = .ok trailer
  tag_len : tag.length = tagLen trailer.codec
  record : p.versions[trailer.version]? = some vk
  member : vk.roster[trailer.sender]? = some sender
  foreign : sender ≠ p.me

/-- The layout the receiver computes. -/
def Received.layout {p : Protector} {packet : Bytes} (r : Received p packet) : Layout :=
  MediaLayout.layout r.trailer.codec r.body r.trailer.keyframe

/-- What authentication under a frame key returns. -/
def Received.opened {p : Protector} {packet : Bytes} (P : Primitives) (r : Received p packet)
    (fk : Secret) : Option Bytes :=
  openFrame P r.trailer.codec fk (nonceFor P p.sid r.trailer) (associated r.raw r.body r.layout)
    r.body r.tag r.layout

/-- The replay check, the ratchet and the authentication of a packet that was read that far. -/
def Received.outcome {p : Protector} {packet : Bytes} (P : Primitives) (r : Received p packet) :
    Except MediaError (SigPublic × Bytes) × Protector :=
  let entry := r.vk.entry P r.trailer.sender r.sender
  let store := p.store r.trailer.version r.vk r.trailer.sender
  match entry.2.accept r.trailer.counter with
  | none => (.error .replay, store entry)
  | some nextReplay =>
      match entry.1.key P r.trailer.counter with
      | none => (.error .stale, store entry)
      | some (fk, nextRatchet) =>
          match r.opened P fk with
          | none => (.error .badTag, store entry)
          | some content =>
              (.ok (r.sender, scatter r.body r.layout content), store (nextRatchet, nextReplay))

section Outcome

variable {p : Protector} {packet : Bytes} (r : Received p packet) {nextReplay : Replay}

theorem Received.outcome_replay
    (haccept : (r.vk.entry P r.trailer.sender r.sender).2.accept r.trailer.counter = none) :
    r.outcome P = (.error .replay, p.store r.trailer.version r.vk r.trailer.sender
      (r.vk.entry P r.trailer.sender r.sender)) := by
  simp only [Received.outcome, haccept]

theorem Received.outcome_stale
    (haccept : (r.vk.entry P r.trailer.sender r.sender).2.accept r.trailer.counter =
      some nextReplay)
    (hkey : (r.vk.entry P r.trailer.sender r.sender).1.key P r.trailer.counter = none) :
    r.outcome P = (.error .stale, p.store r.trailer.version r.vk r.trailer.sender
      (r.vk.entry P r.trailer.sender r.sender)) := by
  simp only [Received.outcome, haccept, hkey]

/-- With a counter that is neither replayed nor stale, the cipher decides. -/
theorem Received.outcome_keyed {fk : Secret} {nextRatchet : RecvRatchet}
    (haccept : (r.vk.entry P r.trailer.sender r.sender).2.accept r.trailer.counter =
      some nextReplay)
    (hkey : (r.vk.entry P r.trailer.sender r.sender).1.key P r.trailer.counter =
      some (fk, nextRatchet)) :
    r.outcome P = match r.opened P fk with
      | none => (.error .badTag, p.store r.trailer.version r.vk r.trailer.sender
          (r.vk.entry P r.trailer.sender r.sender))
      | some content => (.ok (r.sender, scatter r.body r.layout content),
          p.store r.trailer.version r.vk r.trailer.sender (nextRatchet, nextReplay)) := by
  simp only [Received.outcome, haccept, hkey]

end Outcome

theorem Protector.unprotect_received {p : Protector} {packet : Bytes} (r : Received p packet) :
    p.unprotect P packet = r.outcome P := by
  obtain ⟨body, tag, raw, trailer, vk, sender, rfl, hraw, hdecoded, htag, hvk, hsender, hme⟩ := r
  have hlen : (body ++ tag ++ raw).length - TRAILER_LEN = (body ++ tag).length := by
    simp only [List.length_append, hraw]
    omega
  have hcut : (body ++ tag).length - tagLen trailer.codec = body.length := by
    rw [List.length_append, htag]
    omega
  have hlong : ¬(body ++ tag ++ raw).length < TRAILER_LEN := by
    simp only [List.length_append, hraw]
    omega
  have hroom : ¬(body ++ tag).length < tagLen trailer.codec := by
    rw [List.length_append, htag]
    omega
  unfold Protector.unprotect
  rw [if_neg hlong]
  simp only [hlen, List.take_left, List.drop_left, hdecoded, if_neg hroom, hcut, hvk, hsender,
    if_neg hme]
  rfl

theorem Received.inspect {p : Protector} {packet : Bytes} (r : Received p packet) :
    Protector.inspect packet = .ok r.trailer := by
  obtain ⟨body, tag, raw, trailer, vk, sender, rfl, hraw, hdecoded, -⟩ := r
  have hcut : (body ++ tag ++ raw).length - TRAILER_LEN = (body ++ tag).length := by
    rw [List.length_append, hraw, Nat.add_sub_cancel]
  have hlong : ¬(body ++ tag ++ raw).length < TRAILER_LEN := by
    rw [List.length_append, hraw]
    omega
  rw [Protector.inspect, if_neg hlong, hcut, List.drop_left, hdecoded]

/-- A packet is refused before any state is touched, or read far enough to reach the receiving state
of its sender. -/
theorem Protector.unprotect_cases (p : Protector) (packet : Bytes) :
    (∃ e, p.unprotect P packet = (.error e, p)) ∨
      ∃ r : Received p packet, p.unprotect P packet = r.outcome P := by
  unfold Protector.unprotect
  split_ifs with hshort
  · exact Or.inl ⟨_, rfl⟩
  · dsimp only
    split
    · exact Or.inl ⟨_, rfl⟩
    · rename_i trailer hdecoded
      split_ifs with htag
      · exact Or.inl ⟨_, rfl⟩
      · split
        · exact Or.inl ⟨_, rfl⟩
        · rename_i vk hvk
          split
          · exact Or.inl ⟨_, rfl⟩
          · rename_i sender hsender
            split_ifs with hme
            · exact Or.inl ⟨_, rfl⟩
            · set rest := packet.take (packet.length - TRAILER_LEN) with hrest
              refine Or.inr ⟨{
                body := rest.take (rest.length - tagLen trailer.codec)
                tag := rest.drop (rest.length - tagLen trailer.codec)
                raw := packet.drop (packet.length - TRAILER_LEN)
                trailer, vk, sender
                packet_eq := by rw [List.take_append_drop, hrest, List.take_append_drop]
                raw_len := by
                  rw [List.length_drop]
                  omega
                decoded := hdecoded
                tag_len := by
                  rw [List.length_drop]
                  omega
                record := hvk
                member := hsender
                foreign := hme }, rfl⟩

end CausalFrontierRatchet.MediaFrame
