import CausalFrontierRatchet.LayoutStability
import CausalFrontierRatchet.MediaReachable

/-!
The frame round trip.  A frame that a sender protects is returned by a receiver that holds the same
version and has not yet accepted a frame from this sender, for every cipher that preserves lengths
and opens what it sealed, exactly when the frame is stable.
-/

namespace CausalFrontierRatchet.FrameRoundTrip

open BigEndian AlternatingRuns Crypto MediaLayout LayoutRuns FrameRuns
open LayoutStability MediaRatchet MediaFrame MediaReachable

/-- What the round trip asks of the cipher, in both tag widths. -/
structure LawfulCipher (P : Primitives) : Prop where
  length : ∀ k n pt ad, (P.aegisSeal k n pt ad).1.length = pt.length
  opens : ∀ k n pt ad,
    P.aegisOpen k n (P.aegisSeal k n pt ad).1 (P.aegisSeal k n pt ad).2 ad = some pt
  lengthShort : ∀ k n pt ad, (P.aegisSealShort k n pt ad).1.length = pt.length
  opensShort : ∀ k n pt ad,
    P.aegisOpenShort k n (P.aegisSealShort k n pt ad).1 (P.aegisSealShort k n pt ad).2 ad = some pt

/-! ## Sealing and opening through runs -/

/-- A sealed frame is a body of the frame's length and a tag; under the key, nonce and associated
data of the seal, the content behind the tag opens to the content of the frame. -/
theorem sealFrame_spec {P : Primitives} (hP : LawfulCipher P) (codec : Codec) (fk : Secret)
    (n : BitVec 256) (ad frame : Bytes) (l : Layout) :
    ∃ ct tag : Bytes, sealFrame P codec fk n ad frame l = scatter frame l ct ++ tag ∧
      ct.length = (gather frame l).length ∧ tag.length = tagLen codec ∧
      ∀ body l', gather body l' = ct →
        openFrame P codec fk n ad body tag l' = some (gather frame l) := by
  by_cases haudio : codec.isAudio
  · refine ⟨(P.aegisSealShort fk n (gather frame l) ad).1,
      bytesOf (P.aegisSealShort fk n (gather frame l) ad).2, by simp [sealFrame, haudio],
      hP.lengthShort _ _ _ _, by simp [tagLen, haudio, TAG_LEN_SHORT], fun body l' hbody => ?_⟩
    simp only [openFrame, haudio, if_true, fromSlice, bytesOf_length,
      ofBytes_bytesOf (by decide : 8 ∣ 128), Option.bind_some, hbody]
    exact hP.opensShort _ _ _ _
  · refine ⟨(P.aegisSeal fk n (gather frame l) ad).1,
      bytesOf (P.aegisSeal fk n (gather frame l) ad).2, by simp [sealFrame, haudio],
      hP.length _ _ _ _, by simp [tagLen, haudio, TAG_LEN], fun body l' hbody => ?_⟩
    simp only [openFrame, haudio, Bool.false_eq_true, if_false, fromSlice, bytesOf_length,
      if_true, ofBytes_bytesOf (by decide : 8 ∣ 256), Option.bind_some, hbody]
    exact hP.opens _ _ _ _

/-- The body of a sealed stable frame has the layout of the frame, so the receiver, who lays out the
body, opens the content and puts the frame back together. -/
theorem sealed_opens {P : Primitives} (hP : LawfulCipher P) {codec : Codec} {frame : Bytes}
    (hstable : Stable codec frame) (keyframe : Bool) (fk : Secret) (n : BitVec 256) (raw : Bytes) :
    ∃ body tag : Bytes, sealFrame P codec fk n
        (associated raw frame (layout codec frame keyframe)) frame (layout codec frame keyframe) =
          body ++ tag ∧ tag.length = tagLen codec ∧
      openFrame P codec fk n (associated raw body (layout codec body keyframe)) body tag
        (layout codec body keyframe) = some (gather frame (layout codec frame keyframe)) ∧
      scatter body (layout codec body keyframe) (gather frame (layout codec frame keyframe)) =
        frame := by
  set rs := runs codec frame keyframe with hrs
  have hfollows := layout_follows codec frame keyframe
  have htotal : frame.length = total rs := (total_runs codec frame keyframe).symm
  obtain ⟨ct, tag, hseal, hct, htag, hopen⟩ := sealFrame_spec hP codec fk n
    (associated raw frame (layout codec frame keyframe)) frame (layout codec frame keyframe)
  have hctLen : ct.length = heldTotal rs := by
    rw [hct, hfollows.secret frame htotal, held_length rs frame htotal]
  -- The body on the wire is the frame with its held runs replaced, and so it has the same runs.
  set body := scatter frame (layout codec frame keyframe) ct with hbody
  have hrefill : body = refill rs frame ct := hfollows.scatter frame ct htotal hctLen
  have hbodyLen : body.length = total rs := by rw [hrefill, refill_length rs frame ct htotal hctLen]
  have hkept : kept rs body = kept rs frame := by rw [hrefill, kept_refill rs frame ct htotal hctLen]
  have hruns : runs codec body keyframe = rs := runs_stable hstable (by omega) hkept
  have hfollows' := layout_follows codec body keyframe
  rw [hruns] at hfollows'
  have hclear : associated raw body (layout codec body keyframe) =
      associated raw frame (layout codec frame keyframe) := by
    rw [associated, associated, hfollows'.clear body hbodyLen, hfollows.clear frame htotal, hkept]
  have hsecret : gather body (layout codec body keyframe) = ct := by
    rw [hfollows'.secret body hbodyLen, hrefill, held_refill rs frame ct htotal hctLen]
  refine ⟨body, tag, hseal, htag, by rw [hclear, hopen body _ hsecret], ?_⟩
  rw [hfollows.secret frame htotal, hfollows'.scatter body _ hbodyLen (held_length rs frame htotal),
    refill_congr rs body frame _ hbodyLen htotal hkept, refill_held rs frame htotal]

/-- A sender and a receiver of one conference that hold the same version, the sender about to send
a frame of the first epoch and the receiver without an accepted frame of this sender. -/
structure Paired (P : Primitives) (s r : Protector) (context : ContextId) (vk vk' : VersionKeys) :
    Prop where
  sender : Reachable P s
  receiver : Reachable P r
  sid : s.sid = r.sid
  current : s.current = some context
  sending : s.versions[context]? = some vk
  holding : r.versions[context]? = some vk'
  key : vk'.key = vk.key
  roster : vk'.roster = vk.roster
  member : vk.roster[s.myTag]? = some s.me
  foreign : s.me ≠ r.me
  unheard : ∀ entry, vk'.recv[s.myTag]? = some entry → entry.2.started = false
  first : vk.counter < EPOCH

/-- What the receiver has before it hears the sender is what a fresh start would give it. -/
theorem Paired.entry {P : Primitives} {s r : Protector} {context : ContextId} {vk vk' : VersionKeys}
    (h : Paired P s r context vk vk') :
    (vk'.entry P s.myTag s.me).2.started = false ∧
      (vk'.entry P s.myTag s.me).1 = RecvRatchet.new P vk.key s.me := by
  cases hold : vk'.recv[s.myTag]? with
  | none => simp [VersionKeys.entry, hold, Replay.new, h.key]
  | some entry =>
      have hfresh := h.unheard entry hold
      obtain ⟨sender, hsender, hratchet⟩ :=
        (ratcheted_of_reachable h.receiver).recv h.holding hold hfresh
      rw [h.roster, h.member] at hsender
      obtain rfl := Option.some.inj hsender
      have hentry : vk'.entry P s.myTag s.me = entry := by simp [VersionKeys.entry, hold]
      rw [hentry, hratchet, h.key]
      exact ⟨hfresh, rfl⟩

/-- The trailer, the frame key and the sealed bytes of the sender's packet. -/
theorem Paired.protect {P : Primitives} {s r : Protector} {context : ContextId}
    {vk vk' : VersionKeys} (h : Paired P s r context vk vk') (codec : Codec) (frame : Bytes)
    (keyframe : Bool) :
    ∃ s', s.protect P codec frame keyframe = (.ok
      (sealFrame P codec (frameKey P (base P vk.key s.me) vk.counter)
        (nonceFor P s.sid (s.trailerOf context vk codec keyframe))
        (associated (s.trailerOf context vk codec keyframe).encode frame
          (layout codec frame keyframe)) frame (layout codec frame keyframe) ++
        (s.trailerOf context vk codec keyframe).encode), s') := by
  have hfirst := UInt64.lt_iff_toNat_lt.mp h.first
  have hsmall : vk.counter.toNat < 256 := hfirst
  have hsend := (ratcheted_of_reachable h.sender).send h.sending
    (by rw [UInt64.le_iff_toNat_le]; omega)
  have hkey := SendRatchet.key_first P (by rw [hsend]; rfl : vk.send.epoch = 0) h.first
  have hchain : vk.send.chain = base P vk.key s.me := by rw [hsend]; rfl
  have hroom : ¬vk.counter.toNat + 1 = 2 ^ 64 := by omega
  rw [hchain] at hkey
  exact ⟨_, by simp only [Protector.protect, h.current, h.sending, if_neg hroom, hkey]; rfl⟩

/-- The receiver reads the sender's packet up to its authentication under the same frame key. -/
theorem Paired.unprotect {P : Primitives} {s r : Protector} {context : ContextId}
    {vk vk' : VersionKeys} (h : Paired P s r context vk vk') (codec : Codec) (keyframe : Bool)
    (body tag : Bytes) (htag : tag.length = tagLen codec) :
    ∃ stored stored', r.unprotect P
        (body ++ tag ++ (s.trailerOf context vk codec keyframe).encode) =
      match openFrame P codec (frameKey P (base P vk.key s.me) vk.counter)
        (nonceFor P s.sid (s.trailerOf context vk codec keyframe))
        (associated (s.trailerOf context vk codec keyframe).encode body
          (layout codec body keyframe)) body tag (layout codec body keyframe) with
      | none => (.error .badTag, stored)
      | some content => (.ok (s.me, scatter body (layout codec body keyframe) content), stored') := by
  set t := s.trailerOf context vk codec keyframe with ht
  let received : Received r (body ++ tag ++ t.encode) :=
    { body, tag, raw := t.encode, trailer := t, vk := vk', sender := s.me
      packet_eq := rfl
      raw_len := Trailer.encode_length t
      decoded := Trailer.decode_encode t
      tag_len := htag
      record := h.holding
      member := by rw [h.roster]; exact h.member
      foreign := h.foreign }
  obtain ⟨hfresh, hratchet⟩ := h.entry
  have haccept : (vk'.entry P s.myTag s.me).2.accept vk.counter =
      some ⟨vk.counter, 1, true⟩ := by simp [Replay.accept, hfresh]
  have hkey : (vk'.entry P s.myTag s.me).1.key P vk.counter =
      some (frameKey P (base P vk.key s.me) vk.counter, RecvRatchet.new P vk.key s.me) := by
    rw [hratchet, RecvRatchet.key_first P rfl h.first]
    rfl
  refine ⟨r.store context vk' s.myTag (vk'.entry P s.myTag s.me), r.store context vk' s.myTag
    (RecvRatchet.new P vk.key s.me, ⟨vk.counter, 1, true⟩), ?_⟩
  rw [Protector.unprotect_received received, h.sid]
  exact received.outcome_keyed haccept hkey

/-- Whatever the cipher and the states of the two parties, the receiver gets the frame back. -/
def RoundTrips (codec : Codec) (frame : Bytes) (keyframe : Bool) : Prop :=
  ∀ (P : Primitives), LawfulCipher P → ∀ (s r : Protector) (context : ContextId)
    (vk vk' : VersionKeys), Paired P s r context vk vk' → ∀ (packet : Bytes) (s' : Protector),
    s.protect P codec frame keyframe = (.ok packet, s') →
    ∃ r', r.unprotect P packet = (.ok (s.me, frame), r')

theorem roundTrips_of_stable {codec : Codec} {frame : Bytes} (hstable : Stable codec frame)
    (keyframe : Bool) : RoundTrips codec frame keyframe := by
  intro P hP s r context vk vk' hpair packet s' hprotect
  obtain ⟨s'', hpacket⟩ := hpair.protect codec frame keyframe
  rw [hprotect] at hpacket
  obtain ⟨rfl, -⟩ : packet = _ ∧ s' = s'' :=
    ⟨Except.ok.inj (Prod.mk.inj hpacket).1, (Prod.mk.inj hpacket).2⟩
  obtain ⟨body, tag, hseal, htag, hopen, hback⟩ := sealed_opens hP hstable keyframe
    (frameKey P (base P vk.key s.me) vk.counter)
    (nonceFor P s.sid (s.trailerOf context vk codec keyframe))
    (s.trailerOf context vk codec keyframe).encode
  obtain ⟨stored, stored', hunprotect⟩ := hpair.unprotect codec keyframe body tag htag
  rw [hopen] at hunprotect
  rw [hseal, hunprotect]
  exact ⟨stored', by simp only [hback]⟩

/-! ## A cipher that breaks an unstable frame -/

/-- Adds a key stream, which ends where it ends. -/
def mask : Bytes → Bytes → Bytes
  | _, [] => []
  | [], data => data
  | k :: ks, b :: data => (k ^^^ b) :: mask ks data

@[simp] theorem mask_length (ks data : Bytes) : (mask ks data).length = data.length := by
  induction data generalizing ks with
  | nil => simp [mask]
  | cons b data ih => cases ks <;> simp [mask, ih]

@[simp] theorem mask_mask (ks data : Bytes) : mask ks (mask ks data) = data := by
  induction data generalizing ks with
  | nil => simp [mask]
  | cons b data ih => cases ks <;> simp [mask, ih, ← UInt8.xor_assoc]

theorem mask_mask_cancel {xs data : Bytes} (hlen : xs.length = data.length) :
    mask (mask xs data) data = xs := by
  induction data generalizing xs with
  | nil => simpa [mask, eq_comm] using hlen
  | cons b data ih =>
      cases xs with
      | nil => simp at hlen
      | cons x xs => simp [mask, ih (by simpa using hlen), UInt8.xor_assoc]

/-- A stream cipher with a fixed key stream whose tag singles out one associated data. -/
def streamCipher (ks ad₀ : Bytes) : Primitives :=
  { toy with
    aegisSeal := fun _ _ pt ad => (mask ks pt, if ad = ad₀ then 1 else 0)
    aegisOpen := fun _ _ ct tag ad =>
      if tag = (if ad = ad₀ then 1 else 0) then some (mask ks ct) else none
    aegisSealShort := fun _ _ pt ad => (mask ks pt, if ad = ad₀ then 1 else 0)
    aegisOpenShort := fun _ _ ct tag ad =>
      if tag = (if ad = ad₀ then 1 else 0) then some (mask ks ct) else none }

theorem streamCipher_lawful (ks ad₀ : Bytes) : LawfulCipher (streamCipher ks ad₀) where
  length _ _ _ _ := mask_length _ _
  opens _ _ _ _ := by simp [streamCipher]
  lengthShort _ _ _ _ := mask_length _ _
  opensShort _ _ _ _ := by simp [streamCipher]

/-- Sealed under the singled-out associated data, a frame opens under no other. -/
theorem streamCipher_seal (ks ad₀ : Bytes) (codec : Codec) (fk : Secret) (n : BitVec 256)
    (frame : Bytes) (l : Layout) :
    ∃ tag : Bytes, tag.length = tagLen codec ∧
      sealFrame (streamCipher ks ad₀) codec fk n ad₀ frame l =
        scatter frame l (mask ks (gather frame l)) ++ tag ∧
      ∀ ad body l', ad ≠ ad₀ → openFrame (streamCipher ks ad₀) codec fk n ad body tag l' = none := by
  by_cases haudio : codec.isAudio
  · refine ⟨bytesOf (1 : BitVec 128), by simp [tagLen, haudio, TAG_LEN_SHORT],
      by simp [sealFrame, haudio, streamCipher], fun ad body l' had => ?_⟩
    simp [openFrame, haudio, fromSlice, ofBytes_bytesOf (by decide : 8 ∣ 128), streamCipher, had]
  · refine ⟨bytesOf (1 : BitVec 256), by simp [tagLen, haudio, TAG_LEN],
      by simp [sealFrame, haudio, streamCipher], fun ad body l' had => ?_⟩
    simp [openFrame, haudio, fromSlice, ofBytes_bytesOf (by decide : 8 ∣ 256), streamCipher, had]

/-- Two parties that have just installed one version. -/
def freshParty (P : Primitives) (me : SigPublic) : Protector :=
  (Protector.new P 0 me 1).install P 0 0 [1]

theorem freshParty_paired (P : Primitives) :
    Paired P (freshParty P 1) (freshParty P 2) (contextId P 0) (VersionKeys.new P 0 0 1 [1])
      (VersionKeys.new P 0 0 2 [1]) where
  sender := .install 0 0 [1] (.new 0 1 1)
  receiver := .install 0 0 [1] (.new 0 2 1)
  sid := by simp [freshParty, Protector.install, Protector.new]
  current := by simp [freshParty, Protector.install, Protector.new]
  sending := install_new 0 1 1 0 0 [1]
  holding := install_new 0 2 1 0 0 [1]
  key := rfl
  roster := rfl
  member := by simp [freshParty, Protector.new, VersionKeys.new, rosterOf]
  foreign := by simp [freshParty, Protector.new]
  unheard := by simp [VersionKeys.new]
  first := by simp [VersionKeys.new, EPOCH]

theorem not_roundTrips_of_unstable {codec : Codec} {frame : Bytes} (keyframe : Bool)
    (hunstable : ¬Stable codec frame) : ¬RoundTrips codec frame keyframe := by
  intro htrips
  obtain ⟨xs, hlen, hkept, hheld⟩ := runs_unstable keyframe hunstable
  set rs := runs codec frame keyframe with hrs
  set l := layout codec frame keyframe with hl
  have hfollows : Follows l rs := layout_follows codec frame keyframe
  have htotal : frame.length = total rs := (total_runs codec frame keyframe).symm
  have hxsTotal : xs.length = total rs := by omega
  -- The key stream turns the content of the frame into the content of `xs`.
  set ks := mask (held rs xs) (gather frame l) with hks
  set t : Trailer := (freshParty toy 1).trailerOf (contextId toy 0) (VersionKeys.new toy 0 0 1 [1])
    codec keyframe with ht
  set P := streamCipher ks (associated t.encode frame l) with hP
  have hpair := freshParty_paired P
  obtain ⟨s', hpacket⟩ := hpair.protect codec frame keyframe
  obtain ⟨r', hok⟩ := htrips P (streamCipher_lawful _ _) _ _ _ _ _ hpair _ _ hpacket
  have htrailer : (freshParty P 1).trailerOf (contextId P 0) (VersionKeys.new P 0 0 1 [1])
      codec keyframe = t := rfl
  obtain ⟨tag, htag, hseal, hopen⟩ := streamCipher_seal ks (associated t.encode frame l) codec
    (frameKey P (base P (VersionKeys.new P 0 0 1 [1]).key (freshParty P 1).me)
      (VersionKeys.new P 0 0 1 [1]).counter) (nonceFor P (freshParty P 1).sid t) frame l
  have hbody : scatter frame l (mask ks (gather frame l)) = xs := by
    have hsame : (held rs xs).length = (gather frame l).length := by
      rw [hfollows.secret frame htotal, held_length rs frame htotal, held_length rs xs hxsTotal]
    rw [hks, mask_mask_cancel hsame,
      hfollows.scatter frame _ htotal (held_length rs xs hxsTotal),
      ← refill_congr rs xs frame _ hxsTotal htotal hkept, refill_held rs xs hxsTotal]
  -- The receiver finds more readable bytes than the sender authenticated.
  have hdiffer : associated t.encode xs (layout codec xs keyframe) ≠ associated t.encode frame l := by
    intro hsame
    have hclear := List.append_cancel_left hsame
    rw [(layout_follows codec xs keyframe).clear xs (total_runs codec xs keyframe).symm,
      hfollows.clear frame htotal] at hclear
    have hmore := kept_length (runs codec xs keyframe) xs (total_runs codec xs keyframe).symm
    have hless := kept_length rs frame htotal
    rw [hclear, total_runs] at hmore
    omega
  obtain ⟨stored, stored', hunprotect⟩ := hpair.unprotect codec keyframe xs tag htag
  rw [htrailer, hopen _ _ _ hdiffer] at hunprotect
  rw [htrailer, ← hl, hseal, hbody, hunprotect] at hok
  cases hok

/-- A frame makes the round trip, under every lawful cipher, exactly when it is stable. -/
theorem roundTrips_iff (codec : Codec) (frame : Bytes) (keyframe : Bool) :
    RoundTrips codec frame keyframe ↔ Stable codec frame := by
  refine ⟨fun htrips => ?_, fun hstable => roundTrips_of_stable hstable keyframe⟩
  by_contra hunstable
  exact not_roundTrips_of_unstable keyframe hunstable htrips

/-- An H.264 unit with three content bytes: the key stream turns them into a start code, and the
receiver, who lays out the ciphertext, refuses the packet. -/
theorem content_becomes_start_code :
    let frame : Bytes := [0, 0, 1, 0x65, 7, 7, 7]
    let ad : Bytes := ((freshParty toy 1).trailerOf (contextId toy 0)
      (VersionKeys.new toy 0 0 1 [1]) .h264 false).encode ++ [0, 0, 1, 0x65]
    let P := streamCipher [7, 7, 6] ad
    LawfulCipher P ∧
      ((freshParty P 1).protect P .h264 frame false).1.toOption.map
        (fun packet => ((freshParty P 2).unprotect P packet).1) = some (.error .badTag) :=
  ⟨streamCipher_lawful _ _, by decide +kernel⟩

end CausalFrontierRatchet.FrameRoundTrip
