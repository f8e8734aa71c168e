import CausalFrontierRatchet.FrameRoundTrip
import CausalFrontierRatchet.LayoutUniqueness

/-!
Media integrity.  The cipher is ideal: it opens exactly what some protect call sealed.  A receiver
then returns only frames their senders protected, in the packets that carried them, as long as the
readable bytes determine where the encrypted ones stand.  An Annex-B body with several units is the
exception: the boundary between two units can be moved.
-/

namespace CausalFrontierRatchet.MediaIntegrity

open BigEndian Crypto MediaLayout MediaRatchet MediaFrame MediaReachable
open FrameRoundTrip LayoutUniqueness

/-- A successful protect call. -/
structure Call (P : Primitives) where
  before : Protector
  codec : Codec
  frame : Bytes
  keyframe : Bool
  packet : Bytes
  after : Protector
  ok : before.protect P codec frame keyframe = (.ok packet, after)

/-- The call sealed this plaintext under this key, nonce and associated data. -/
def Call.Seals {P : Primitives} (c : Call P) (k : Secret) (n : BitVec 256) (ad pt : Bytes) : Prop :=
  ∃ done : Protected P c.before c.codec c.frame c.keyframe c.packet c.after,
    k = done.fk ∧
    n = nonceFor P c.before.sid (c.before.trailerOf done.context done.vk c.codec c.keyframe) ∧
    ad = associated (c.before.trailerOf done.context done.vk c.codec c.keyframe).encode c.frame
      (layout c.codec c.frame c.keyframe) ∧
    pt = gather c.frame (layout c.codec c.frame c.keyframe)

/-- A length-preserving cipher that opens exactly the tuples a set of calls sealed. -/
structure IdealCipher (P : Primitives) (calls : Set (Call P)) : Prop where
  length : ∀ k n pt ad, (P.aegisSeal k n pt ad).1.length = pt.length
  lengthShort : ∀ k n pt ad, (P.aegisSealShort k n pt ad).1.length = pt.length
  opens : ∀ {k n ct tag ad pt}, P.aegisOpen k n ct tag ad = some pt →
    ∃ c ∈ calls, c.codec.isAudio = false ∧ c.Seals k n ad pt ∧ P.aegisSeal k n pt ad = (ct, tag)
  opensShort : ∀ {k n ct tag ad pt}, P.aegisOpenShort k n ct tag ad = some pt →
    ∃ c ∈ calls, c.codec.isAudio = true ∧ c.Seals k n ad pt ∧
      P.aegisSealShort k n pt ad = (ct, tag)

/-- The protect calls that were made, by reachable protectors of identities whose sender tags do not
collide. -/
structure World (P : Primitives) where
  calls : Set (Call P)
  ids : Set SigPublic
  ideal : IdealCipher P calls
  reachable : ∀ c ∈ calls, Reachable P c.before
  sender : ∀ c ∈ calls, c.before.me ∈ ids
  tags : Set.InjOn (senderTag P) ids

/-- A reachable receiver whose rosters name only identities of the world. -/
structure World.Receiver {P : Primitives} (w : World P) (r : Protector) : Prop where
  reachable : Reachable P r
  rosters : ∀ {context : ContextId} {vk : VersionKeys} {tag : SenderTag} {id : SigPublic},
    r.versions[context]? = some vk → vk.roster[tag]? = some id → id ∈ w.ids

/-- The sender made a call with this frame, codec and key-frame flag, and it returned this packet. -/
def World.Genuine {P : Primitives} (w : World P) (t : Trailer) (sender : SigPublic)
    (frame packet : Bytes) : Prop :=
  ∃ c ∈ w.calls, c.before.me = sender ∧ c.codec = t.codec ∧ c.keyframe = t.keyframe ∧
    c.frame = frame ∧ c.packet = packet

/-- What stands before the tag and the trailer of a packet. -/
def bodyOf (codec : Codec) (packet : Bytes) : Bytes :=
  packet.take (packet.length - TRAILER_LEN - tagLen codec)

/-- Every packet with this codec, key-frame flag and body that a receiver opens is genuine. -/
def OpensOnlyGenuine (codec : Codec) (keyframe : Bool) (body : Bytes) : Prop :=
  ∀ (P : Primitives) (w : World P) (r : Protector), w.Receiver r →
    ∀ (packet : Bytes) (sender : SigPublic) (frame : Bytes) (r' : Protector) (t : Trailer),
    r.unprotect P packet = (.ok (sender, frame), r') → Protector.inspect packet = .ok t →
    t.codec = codec → t.keyframe = keyframe → bodyOf codec packet = body →
    w.Genuine t sender frame packet

theorem openFrame_sealed {P : Primitives} {calls : Set (Call P)} (hideal : IdealCipher P calls)
    {codec : Codec} {fk : Secret} {n : BitVec 256} {ad body tag content : Bytes} {l : Layout}
    (hopen : openFrame P codec fk n ad body tag l = some content) :
    ∃ c ∈ calls, c.Seals fk n ad content ∧ (gather body l).length = content.length ∧
      ∀ frame l', gather frame l' = content → c.codec = codec →
        sealFrame P codec fk n ad frame l' = scatter frame l' (gather body l) ++ tag := by
  unfold openFrame at hopen
  split_ifs at hopen with haudio
  · obtain ⟨t, ht, hopen⟩ := Option.bind_eq_some_iff.mp hopen
    unfold fromSlice at ht
    split_ifs at ht with hlen
    cases ht
    obtain ⟨c, hc, -, hseals, hseal⟩ := hideal.opensShort hopen
    refine ⟨c, hc, hseals, ?_, fun frame l' hgather _ => ?_⟩
    · rw [← hideal.lengthShort fk n content ad, hseal]
    · simp only [sealFrame, haudio, if_true, hgather, hseal]
      rw [bytesOf_ofBytes (by decide) hlen]
  · obtain ⟨t, ht, hopen⟩ := Option.bind_eq_some_iff.mp hopen
    unfold fromSlice at ht
    split_ifs at ht with hlen
    cases ht
    obtain ⟨c, hc, -, hseals, hseal⟩ := hideal.opens hopen
    refine ⟨c, hc, hseals, ?_, fun frame l' hgather _ => ?_⟩
    · rw [← hideal.length fk n content ad, hseal]
    · simp only [sealFrame, haudio, Bool.false_eq_true, if_false, hgather, hseal]
      rw [bytesOf_ofBytes (by decide) hlen]

/-- What a packet that opens went through. -/
theorem unprotect_ok {P : Primitives} {r r' : Protector} {packet frame : Bytes} {sender : SigPublic}
    (h : r.unprotect P packet = (.ok (sender, frame), r')) :
    ∃ (rec : Received r packet) (fk : Secret) (content : Bytes), rec.opened P fk = some content ∧
      rec.sender = sender ∧ scatter rec.body rec.layout content = frame := by
  rcases Protector.unprotect_cases (P := P) r packet with ⟨e, he⟩ | ⟨rec, hrec⟩
  · rw [he] at h
    cases h
  · rw [hrec, Received.outcome] at h
    split at h
    · cases h
    split at h
    · cases h
    rename_i fk nextRatchet hkey
    split at h
    · cases h
    rename_i content hopened
    obtain ⟨hsender, hframe⟩ := Prod.mk.inj (Except.ok.inj (Prod.mk.inj h).1)
    exact ⟨rec, fk, content, hopened, hsender, hframe⟩

theorem bodyOf_received {r : Protector} {packet : Bytes} (rec : Received r packet) :
    bodyOf rec.trailer.codec packet = rec.body := by
  have hcut : packet.length - TRAILER_LEN - tagLen rec.trailer.codec = rec.body.length := by
    have := congrArg List.length rec.packet_eq
    simp only [List.length_append, rec.raw_len, rec.tag_len] at this
    omega
  have := congrArg (List.take rec.body.length) rec.packet_eq
  rwa [List.append_assoc, List.take_left, ← hcut] at this

theorem inspect_received {r : Protector} {packet : Bytes} (rec : Received r packet) {t : Trailer}
    (h : Protector.inspect packet = .ok t) : t = rec.trailer := by
  rw [rec.inspect] at h
  exact (Except.ok.inj h).symm

theorem opensOnlyGenuine_of_determined {codec : Codec} {keyframe : Bool} {body : Bytes}
    (hdet : Determined codec keyframe body) : OpensOnlyGenuine codec keyframe body := by
  rintro P w r hr packet sender frame r' t hok hinspect rfl rfl rfl
  obtain ⟨rec, fk, content, hopened, rfl, rfl⟩ := unprotect_ok hok
  obtain ⟨c, hc, ⟨done, rfl, hn, had, rfl⟩, hlen, hseal⟩ := openFrame_sealed w.ideal hopened
  set tc := c.before.trailerOf done.context done.vk c.codec c.keyframe with htc
  -- The authenticated bytes fix the trailer and the readable bytes.
  obtain ⟨hraw, hclear⟩ := List.append_inj had (by rw [rec.raw_len, Trailer.encode_length])
  have htrailer : rec.trailer = tc := by
    have hdecoded := rec.decoded
    rw [hraw, Trailer.decode_encode] at hdecoded
    exact (Except.ok.inj hdecoded).symm
  obtain rfl : t = rec.trailer := inspect_received rec hinspect
  rw [bodyOf_received rec] at hdet
  have hcodec : rec.trailer.codec = c.codec := by rw [htrailer]; rfl
  have hkeyframe : rec.trailer.keyframe = c.keyframe := by rw [htrailer]; rfl
  have hlayout : rec.layout = layout c.codec rec.body c.keyframe := by
    rw [Received.layout, hcodec, hkeyframe]
  rw [hcodec, hkeyframe] at hdet
  rw [hlayout] at hclear hlen had hseal ⊢
  obtain ⟨hback, hforth⟩ := hdet c.frame hclear hlen
  refine ⟨c, hc, ?_, hcodec.symm, hkeyframe.symm, hback.symm, ?_⟩
  · -- Sender tags do not collide, so the member named by the tag is the caller.
    have htag := (ratcheted_of_reachable hr.reachable).roster rec.record rec.member
    have hmine := (ratcheted_of_reachable (w.reachable c hc)).tag
    refine w.tags (w.sender c hc) (hr.rosters rec.record rec.member) ?_
    rw [htag, ← hmine, htrailer]
    rfl
  · have hsealed := hseal c.frame _ rfl hcodec.symm
    rw [hcodec, hn, had, hforth] at hsealed
    rw [done.packet_eq, ← htc, hsealed, ← hraw]
    exact rec.packet_eq.symm

/-! ## A moved boundary -/

section Moved

variable (codec : Codec) (keyframe : Bool) (frame body : Bytes)

/-- The trailer of the first packet of a fresh party. -/
def firstTrailer : Trailer :=
  (freshParty toy 1).trailerOf (contextId toy 0) (VersionKeys.new toy 0 0 1 [1]) codec keyframe

/-- A stream cipher under which a frame has the content of a body, and which opens only what a fresh
party seals when it protects that frame. -/
def movedCipher : Primitives :=
  let content := gather frame (layout codec frame keyframe)
  let ks := mask (gather body (layout codec body keyframe)) content
  { toy with
    aegisSeal := fun _ _ pt _ => (mask ks pt, 0)
    aegisOpen := fun k n ct tag ad =>
      if k = frameKey toy (base toy 0 1) 0 ∧ n = nonceFor toy 0 (firstTrailer codec keyframe) ∧
          ct = mask ks content ∧ tag = 0 ∧
          ad = associated (firstTrailer codec keyframe).encode frame (layout codec frame keyframe)
      then some content else none
    aegisSealShort := fun _ _ pt _ => (mask ks pt, 0)
    aegisOpenShort := fun _ _ _ _ _ => none }

theorem movedCipher_trailer : (freshParty (movedCipher codec keyframe frame body) 1).trailerOf
    (contextId (movedCipher codec keyframe frame body) 0)
    (VersionKeys.new (movedCipher codec keyframe frame body) 0 0 1 [1]) codec keyframe =
      firstTrailer codec keyframe := rfl

theorem movedCipher_frameKey :
    frameKey (movedCipher codec keyframe frame body) (base (movedCipher codec keyframe frame body)
      (VersionKeys.new (movedCipher codec keyframe frame body) 0 0 1 [1]).key
      (freshParty (movedCipher codec keyframe frame body) 1).me)
      (VersionKeys.new (movedCipher codec keyframe frame body) 0 0 1 [1]).counter =
    frameKey toy (base toy 0 1) 0 := rfl

theorem movedCipher_nonce : nonceFor (movedCipher codec keyframe frame body)
    (freshParty (movedCipher codec keyframe frame body) 1).sid = nonceFor toy 0 := rfl

theorem fresh_protected {P : Primitives} {packet : Bytes} {s' : Protector}
    (done : Protected P (freshParty P 1) codec frame keyframe packet s') :
    done.context = contextId P 0 ∧ done.vk = VersionKeys.new P 0 0 1 [1] ∧
      done.fk = frameKey P (base P 0 1) 0 := by
  have hpair := freshParty_paired P
  have hcontext : done.context = contextId P 0 :=
    Option.some.inj (done.current.symm.trans hpair.current)
  have hvk : done.vk = VersionKeys.new P 0 0 1 [1] := by
    have hrecord := done.record
    rw [hcontext, hpair.sending] at hrecord
    exact (Option.some.inj hrecord).symm
  have hkey := done.key
  rw [hvk, SendRatchet.key_first P rfl hpair.first] at hkey
  exact ⟨hcontext, hvk, (Prod.mk.inj (Option.some.inj hkey)).1.symm⟩

variable {codec keyframe frame body} (haudio : codec.isAudio = false)
  (hclear : slices body (layout codec body keyframe).clear =
    slices frame (layout codec frame keyframe).clear)
  (hlen : (gather body (layout codec body keyframe)).length =
    (gather frame (layout codec frame keyframe)).length)

include haudio hlen in
theorem movedCipher_protect :
    ∃ s', (freshParty (movedCipher codec keyframe frame body) 1).protect
        (movedCipher codec keyframe frame body) codec frame keyframe =
      (.ok (scatter frame (layout codec frame keyframe) (gather body (layout codec body keyframe)) ++
        bytesOf (0 : BitVec 256) ++ (firstTrailer codec keyframe).encode), s') := by
  obtain ⟨s', hprotect⟩ :=
    (freshParty_paired (movedCipher codec keyframe frame body)).protect codec frame keyframe
  refine ⟨s', hprotect.trans ?_⟩
  rw [movedCipher_trailer, sealFrame, haudio, if_neg Bool.false_ne_true]
  simp only [movedCipher, mask_mask_cancel hlen]

include haudio hclear hlen in
theorem movedCipher_open :
    openFrame (movedCipher codec keyframe frame body) codec (frameKey toy (base toy 0 1) 0)
      (nonceFor toy 0 (firstTrailer codec keyframe))
      (associated (firstTrailer codec keyframe).encode body (layout codec body keyframe)) body
      (bytesOf (0 : BitVec 256)) (layout codec body keyframe) =
      some (gather frame (layout codec frame keyframe)) := by
  have htag : fromSlice 256 (bytesOf (0 : BitVec 256)) = some 0 := by decide +kernel
  rw [associated, openFrame, haudio, if_neg Bool.false_ne_true, htag, hclear]
  simp only [movedCipher, Option.bind_some, associated, mask_mask_cancel hlen, and_self, if_true]

/-- The calls of a fresh party that protects the frame. -/
def movedWorld : World (movedCipher codec keyframe frame body) where
  calls := {c | c.before = freshParty (movedCipher codec keyframe frame body) 1 ∧ c.codec = codec ∧
    c.frame = frame ∧ c.keyframe = keyframe}
  ids := {1}
  ideal :=
    { length := fun _ _ _ _ => mask_length _ _
      lengthShort := fun _ _ _ _ => mask_length _ _
      opens := by
        intro k n ct tag ad pt hopen
        simp only [movedCipher] at hopen
        split_ifs at hopen with htuple
        obtain ⟨rfl, rfl, rfl, rfl, rfl⟩ := htuple
        cases hopen
        obtain ⟨s', hok⟩ := movedCipher_protect haudio hlen
        obtain ⟨done⟩ := Protector.protect_ok hok
        obtain ⟨hcontext, hvk, hfk⟩ := fresh_protected codec keyframe frame done
        refine ⟨⟨_, codec, frame, keyframe, _, s', hok⟩, ⟨rfl, rfl, rfl, rfl⟩, haudio,
          ⟨done, ?_, ?_, ?_, rfl⟩, rfl⟩
        · rw [hfk]
          rfl
        · simp only [hcontext, hvk]
          rfl
        · simp only [hcontext, hvk]
          rfl
      opensShort := fun hopen => by cases hopen }
  reachable := by
    rintro c ⟨hbefore, -⟩
    rw [hbefore]
    exact (freshParty_paired _).sender
  sender := by
    rintro c ⟨hbefore, -⟩
    rw [hbefore]
    rfl
  tags := Set.injOn_singleton _ _

theorem movedWorld_receiver :
    (movedWorld haudio hlen).Receiver (freshParty (movedCipher codec keyframe frame body) 2) where
  reachable := (freshParty_paired _).receiver
  rosters := by
    intro context vk tag id hvk hid
    rcases install_record hvk with hnone | ⟨-, -, rfl⟩
    · simp [Protector.new] at hnone
    · simp only [VersionKeys.new, rosterOf, List.foldl_cons, List.foldl_nil,
        Std.ExtTreeMap.getElem?_insert] at hid
      split_ifs at hid
      · exact (Option.some.inj hid).symm
      · simp at hid

end Moved

theorem determined_of_opensOnlyGenuine {codec : Codec} {keyframe : Bool} {body : Bytes}
    (h : OpensOnlyGenuine codec keyframe body) : Determined codec keyframe body := by
  by_cases haudio : codec.isAudio
  · exact determined_of_plain keyframe (by rintro (rfl | rfl) <;> cases haudio)
  rw [Bool.not_eq_true] at haudio
  intro frame hclear hlen
  have htag : (bytesOf (0 : BitVec 256)).length = tagLen codec := by simp [tagLen, haudio, TAG_LEN]
  -- The receiver opens the body in place of the one that was sent.
  obtain ⟨_, stored', hunprotect⟩ := (freshParty_paired
    (movedCipher codec keyframe frame body)).unprotect codec keyframe body _ htag
  rw [movedCipher_trailer, movedCipher_frameKey, movedCipher_nonce,
    movedCipher_open haudio hclear hlen] at hunprotect
  have hbody : bodyOf codec (body ++ bytesOf (0 : BitVec 256) ++
      (firstTrailer codec keyframe).encode) = body := by
    rw [bodyOf, List.length_append, Trailer.encode_length, Nat.add_sub_cancel, List.length_append,
      htag, Nat.add_sub_cancel, List.append_assoc, List.take_left]
  obtain ⟨c, ⟨hbefore, hcodec, hframe, hkeyframe⟩, -, -, -, hback, hpacket⟩ := h _
    (movedWorld haudio hlen) _ (movedWorld_receiver haudio hlen) _ _ _ _ _ hunprotect
    (Protector.inspect_append _ _) rfl rfl hbody
  obtain ⟨s', hprotect⟩ := movedCipher_protect haudio hlen
  have hok := c.ok
  rw [hbefore, hcodec, hframe, hkeyframe, hprotect, hpacket] at hok
  have hsame := Except.ok.inj (Prod.mk.inj hok).1
  rw [List.append_assoc, List.append_assoc] at hsame
  exact ⟨hback.symm.trans hframe, List.append_cancel_right hsame⟩

/-- Packets with a given body are opened only when they are genuine exactly when the body is
determined by its readable bytes, as every body is but a stream of several units cut at start
codes. -/
theorem opensOnlyGenuine_iff (codec : Codec) (keyframe : Bool) (body : Bytes) :
    (OpensOnlyGenuine codec keyframe body ↔ Determined codec keyframe body) ∧
      (Plain codec body → Determined codec keyframe body) :=
  ⟨⟨determined_of_opensOnlyGenuine, opensOnlyGenuine_of_determined⟩, determined_of_plain keyframe⟩

/-- One H.264 frame is protected; the packet with its second unit moved one byte forward opens, to
a frame that was never protected. -/
theorem moved_unit_opens :
    let frame : Bytes := [0, 0, 1, 0x65, 1, 2, 0, 0, 1, 0x41, 3]
    let moved : Bytes := [0, 0, 1, 0x65, 1, 0, 0, 1, 0x41, 2, 3]
    let P := movedCipher .h264 false frame moved
    ((freshParty P 1).protect P .h264 frame false).1.toOption.map (fun packet =>
      (packet.take frame.length,
        ((freshParty P 2).unprotect P (moved ++ packet.drop frame.length)).1)) =
      some (frame, .ok (1, moved)) := by
  decide +kernel

end CausalFrontierRatchet.MediaIntegrity
