import CausalFrontierRatchet.FrameRoundTrip
import CausalFrontierRatchet.ReplayProtection

/-!
Delivery of one media stream.  The window of a sender remembers the accepted counters within 64 of
the highest, the receiving ratchet stands in the epoch of the highest, and the frame key of a
counter depends on nothing else, whatever jumps the two chains have made.  So a receiver returns a
frame exactly when its counter is new, not 64 or more behind the highest accepted one, not in an
earlier epoch and not more than 1024 epochs ahead.
-/

namespace CausalFrontierRatchet.StreamDelivery

open BigEndian Crypto MediaLayout LayoutStability MediaRatchet MediaFrame MediaReachable
open FrameRoundTrip ReplayProtection

/-! ## The rule -/

/-- The highest accepted counter, zero if nothing was accepted. -/
def highest : List ℕ → ℕ
  | [] => 0
  | c :: accepted => max c (highest accepted)

/-- The counters that a receiver lets through after the accepted ones.  With nothing accepted the
window lets every counter through and the epoch is the first one. -/
def Admissible (accepted : List ℕ) (c : ℕ) : Prop :=
  c ∉ accepted ∧ highest accepted < c + 64 ∧ highest accepted / 256 ≤ c / 256 ∧
    c / 256 ≤ highest accepted / 256 + 1024

instance (accepted : List ℕ) (c : ℕ) : Decidable (Admissible accepted c) :=
  inferInstanceAs (Decidable (_ ∧ _))

theorem le_highest {accepted : List ℕ} {c : ℕ} (h : c ∈ accepted) : c ≤ highest accepted := by
  induction accepted with
  | nil => exact absurd h List.not_mem_nil
  | cons a accepted ih =>
      rw [highest]
      rcases List.mem_cons.mp h with rfl | hrest
      · exact Nat.le_max_left _ _
      · exact Nat.le_trans (ih hrest) (Nat.le_max_right _ _)

/-! ## Chains -/

section Chains

variable {P : Primitives}

theorem advance_add (m n : ℕ) (chain : Secret) :
    advance P (m + n) chain = advance P n (advance P m chain) := by
  induction m generalizing chain with
  | zero => rw [Nat.zero_add, advance]
  | succ m ih => rw [Nat.succ_add, advance, advance, ih]

/-- The chain of a sender in an epoch. -/
def chainAt (P : Primitives) (key : Secret) (sender : SigPublic) (epoch : ℕ) : Secret :=
  advance P epoch (base P key sender)

/-- The key of a counter, wherever the chains stand. -/
def keyAt (P : Primitives) (key : Secret) (sender : SigPublic) (c : UInt64) : Secret :=
  frameKey P (chainAt P key sender (c.toNat / 256)) c

theorem toNat_epoch (c : UInt64) : (c / EPOCH).toNat = c.toNat / 256 :=
  UInt64.toNat_div _ _

theorem chainAt_advance {key : Secret} {sender : SigPublic} {target epoch : UInt64}
    (h : epoch ≤ target) :
    advance P (target - epoch).toNat (chainAt P key sender epoch.toNat) =
      chainAt P key sender target.toNat := by
  rw [chainAt, ← advance_add, chainAt, UInt64.toNat_sub_of_le _ _ h]
  congr 1
  rw [UInt64.le_iff_toNat_le] at h
  omega

/-- A sending ratchet on the chain of its sender. -/
structure OnChain (P : Primitives) (me : SigPublic) (vk : VersionKeys) : Prop where
  chain : vk.send.chain = chainAt P vk.key me vk.send.epoch.toNat
  epoch : vk.send.epoch ≤ vk.counter / EPOCH

theorem OnChain.key {me : SigPublic} {vk : VersionKeys} (h : OnChain P me vk) :
    vk.send.key P vk.counter = some (keyAt P vk.key me vk.counter,
      ⟨chainAt P vk.key me (vk.counter / EPOCH).toNat, vk.counter / EPOCH⟩) := by
  simp only [SendRatchet.key]
  rw [if_neg (UInt64.not_lt.mpr h.epoch), h.chain, chainAt_advance h.epoch, keyAt, toNat_epoch]

theorem touched_onChain {me : SigPublic} {vk vk' : VersionKeys} (h : Touched P me vk vk')
    (hvk : OnChain P me vk) : OnChain P me vk' := by
  have hnext : vk.counter.toNat + 1 < 2 ^ 64 → vk.counter / EPOCH ≤ (vk.counter + 1) / EPOCH :=
    fun hroom => NonceUniqueness.epoch_mono (toNat_succ hroom)
  cases h with
  | spent hroom _ => exact ⟨hvk.chain, UInt64.le_trans hvk.epoch (hnext hroom)⟩
  | sent hroom hkey =>
      rw [hvk.key] at hkey
      cases hkey
      exact ⟨rfl, hnext hroom⟩
  | heard _ _ => exact ⟨hvk.chain, hvk.epoch⟩
  | opened _ _ _ _ => exact ⟨hvk.chain, hvk.epoch⟩

theorem onChain_of_reachable {p : Protector} (h : Reachable P p) {context : ContextId}
    {vk : VersionKeys} (hvk : p.versions[context]? = some vk) : OnChain P p.me vk := by
  refine h.record (fun version key me roster => ⟨rfl, ?_⟩) touched_onChain hvk
  exact UInt64.le_iff_toNat_le.mpr (Nat.zero_le _)

end Chains

/-! ## Windows -/

/-- The window holds the accepted counters near the highest one. -/
structure Windowed (accepted : List ℕ) (replay : Replay) : Prop where
  started : replay.started = true ↔ accepted ≠ []
  high : replay.started = true → replay.high.toNat = highest accepted
  seen : replay.started = true → ∀ k < 64, k ≤ highest accepted →
    (replay.seen.toNat.testBit k ↔ highest accepted - k ∈ accepted)

theorem Windowed.accept_none_iff {accepted : List ℕ} {replay : Replay}
    (h : Windowed accepted replay) (c : UInt64) :
    replay.accept c = none ↔ c.toNat ∈ accepted ∨ c.toNat + 64 ≤ highest accepted := by
  rw [ReplayProtection.accept_none_iff]
  constructor
  · rintro ⟨hstarted, hle, hfar | hset⟩
    · rw [h.high hstarted] at hle hfar
      right
      omega
    · rw [h.high hstarted] at hle hset
      by_cases hfar : highest accepted - c.toNat < 64
      · rw [h.seen hstarted _ hfar (Nat.sub_le _ _), Nat.sub_sub_self hle] at hset
        exact Or.inl hset
      · right
        omega
  · intro hor
    have hne : accepted ≠ [] := by
      rintro rfl
      rcases hor with hmem | hfar
      · exact absurd hmem List.not_mem_nil
      · simp [highest] at hfar
    have hstarted := h.started.mpr hne
    rw [h.high hstarted]
    rcases hor with hmem | hfar
    · have hle := le_highest hmem
      refine ⟨hstarted, hle, ?_⟩
      by_cases hnear : highest accepted - c.toNat < 64
      · right
        rw [h.seen hstarted _ hnear (Nat.sub_le _ _), Nat.sub_sub_self hle]
        exact hmem
      · left
        omega
    · exact ⟨hstarted, by omega, Or.inl (by omega)⟩

theorem Windowed.accept {accepted : List ℕ} {replay replay' : Replay} {c : UInt64}
    (h : Windowed accepted replay) (haccept : replay.accept c = some replay') :
    Windowed (c.toNat :: accepted) replay' := by
  obtain ⟨hstarted, ⟨hnot, hhigh, hseen⟩ | ⟨hwas, hlt, hhigh, hseen⟩ | ⟨hwas, hle, hhigh, hseen⟩⟩ :=
    accept_some haccept
  · have hempty : accepted = [] := by
      by_contra hne
      rw [h.started.mpr hne] at hnot
      cases hnot
    subst hempty
    refine ⟨by simp [hstarted], fun _ => by simp [hhigh, highest], fun _ k hk hle => ?_⟩
    simp only [highest, Nat.max_zero, List.mem_singleton] at hle ⊢
    rw [hseen, UInt64.toNat_one, Nat.testBit_one_eq_true_iff_self_eq_zero]
    omega
  · have htop : highest (c.toNat :: accepted) = c.toNat := by
      rw [highest, ← h.high hwas]
      omega
    refine ⟨by simp [hstarted], fun _ => by rw [hhigh, htop], fun _ k hk hle => ?_⟩
    rw [htop] at hle ⊢
    rw [hseen k hk, List.mem_cons, h.high hwas]
    rw [h.high hwas] at hlt
    constructor
    · rintro (rfl | ⟨hshift, hset⟩)
      · exact Or.inl rfl
      · right
        rw [h.seen hwas _ (by omega) (by omega)] at hset
        rwa [show highest accepted - (k - (c.toNat - highest accepted)) = c.toNat - k by omega]
          at hset
    · rintro (heq | hmem)
      · left
        omega
      · have hbelow := le_highest hmem
        refine Or.inr ⟨by omega, ?_⟩
        rw [h.seen hwas _ (by omega) (by omega)]
        rwa [show highest accepted - (k - (c.toNat - highest accepted)) = c.toNat - k by omega]
  · rw [h.high hwas] at hle
    have htop : highest (c.toNat :: accepted) = highest accepted := by
      rw [highest]
      omega
    refine ⟨by simp [hstarted], fun _ => by rw [hhigh, htop, h.high hwas], fun _ k hk hkle => ?_⟩
    rw [htop] at hkle ⊢
    rw [hseen, List.mem_cons, h.seen hwas k hk hkle, h.high hwas]
    constructor
    · rintro (hmem | heq)
      · exact Or.inr hmem
      · left
        omega
    · rintro (heq | hmem)
      · right
        omega
      · exact Or.inl hmem

/-! ## The receiving state of a sender -/

section Receiving

variable {P : Primitives} {key : Secret} {sender : SigPublic} {accepted : List ℕ}
  {entry : RecvRatchet × Replay}

/-- The receiving state after the accepted counters. -/
structure Heard (P : Primitives) (key : Secret) (sender : SigPublic) (accepted : List ℕ)
    (entry : RecvRatchet × Replay) : Prop where
  window : Windowed accepted entry.2
  epoch : entry.1.epoch.toNat = highest accepted / 256
  chain : entry.1.chain = chainAt P key sender entry.1.epoch.toNat

theorem heard_nil {replay : Replay} (h : replay.started = false) :
    Heard P key sender [] (RecvRatchet.new P key sender, replay) where
  window := by
    refine ⟨by simp [h], fun hstarted => ?_, fun hstarted => ?_⟩
    · rw [h] at hstarted
      cases hstarted
    · rw [h] at hstarted
      cases hstarted
  epoch := rfl
  chain := rfl

/-- The ratchet refuses earlier epochs and far jumps, and gives the key of the counter otherwise. -/
theorem Heard.ratchet_key (h : Heard P key sender accepted entry) (c : UInt64) :
    entry.1.key P c =
      if highest accepted / 256 ≤ c.toNat / 256 ∧ c.toNat / 256 ≤ highest accepted / 256 + 1024 then
        some (keyAt P key sender c, ⟨chainAt P key sender (c / EPOCH).toNat, c / EPOCH⟩)
      else none := by
  have hbehind : c / EPOCH < entry.1.epoch ↔ c.toNat / 256 < highest accepted / 256 := by
    rw [UInt64.lt_iff_toNat_lt, toNat_epoch, h.epoch]
  simp only [RecvRatchet.key]
  by_cases hle : entry.1.epoch ≤ c / EPOCH
  · have hjump : c / EPOCH - entry.1.epoch > MAX_EPOCH_JUMP ↔
        highest accepted / 256 + 1024 < c.toNat / 256 := by
      rw [gt_iff_lt, UInt64.lt_iff_toNat_lt, UInt64.toNat_sub_of_le _ _ hle, toNat_epoch, h.epoch,
        show MAX_EPOCH_JUMP.toNat = 1024 from rfl]
      omega
    rw [h.chain, chainAt_advance hle, ← toNat_epoch, keyAt, toNat_epoch]
    simp only [hbehind, hjump]
    split_ifs with hrefused hadmitted hadmitted
    · omega
    · rfl
    · rfl
    · omega
  · have hlt := hbehind.mp (UInt64.not_le.mp hle)
    rw [if_pos (Or.inl (UInt64.not_le.mp hle)), if_neg (by omega)]

theorem Heard.accept (h : Heard P key sender accepted entry) {c : UInt64} {replay : Replay}
    (haccept : entry.2.accept c = some replay)
    (hepoch : highest accepted / 256 ≤ c.toNat / 256) :
    Heard P key sender (c.toNat :: accepted)
      (⟨chainAt P key sender (c / EPOCH).toNat, c / EPOCH⟩, replay) where
  window := h.window.accept haccept
  epoch := by
    -- A counter below the highest one lies in the same epoch.
    rw [toNat_epoch, highest]
    omega
  chain := rfl

theorem Heard.admissible_iff (h : Heard P key sender accepted entry) (c : UInt64) :
    Admissible accepted c.toNat ↔
      (∃ replay, entry.2.accept c = some replay) ∧ highest accepted / 256 ≤ c.toNat / 256 ∧
        c.toNat / 256 ≤ highest accepted / 256 + 1024 := by
  have hwindow := h.window.accept_none_iff c
  rw [← Option.ne_none_iff_exists', ne_eq, hwindow, not_or, Nat.not_le, Admissible, and_assoc]

end Receiving

/-! ## One stream -/

/-- A frame, and the packet it became under a counter. -/
structure Delivery where
  codec : Codec
  frame : Bytes
  keyframe : Bool
  counter : UInt64
  packet : Bytes

section Stream

variable (P : Primitives) (sid : BitVec 256) (context : ContextId) (key : Secret)

/-- What a sender with any history produces under one version. -/
inductive Sent : SigPublic → Delivery → Prop
  | protect {s s' : Protector} {vk : VersionKeys} {codec : Codec} {frame : Bytes} {keyframe : Bool}
      {packet : Bytes} : Reachable P s → s.sid = sid → s.current = some context →
      s.versions[context]? = some vk → vk.key = key →
      s.protect P codec frame keyframe = (.ok packet, s') →
      Sent s.me ⟨codec, frame, keyframe, vk.counter, packet⟩

def trailerAt (sender : SigPublic) (d : Delivery) : Trailer where
  sender := senderTag P sender
  counter := d.counter
  version := context
  codec := d.codec
  keyframe := d.keyframe

/-- A receiver of the stream that has accepted the given counters. -/
structure Tuned (sender : SigPublic) (accepted : List ℕ) (r : Protector) : Prop where
  sid : r.sid = sid
  foreign : sender ≠ r.me
  record : ∃ vk, r.versions[context]? = some vk ∧ vk.key = key ∧
    vk.roster[senderTag P sender]? = some sender ∧
    Heard P key sender accepted (vk.entry P (senderTag P sender) sender)

/-- A receiver that holds the version, has the sender in its roster and has not accepted a frame
from it. -/
structure Listening (sender : SigPublic) (r : Protector) : Prop where
  reachable : Reachable P r
  sid : r.sid = sid
  foreign : sender ≠ r.me
  record : ∃ vk, r.versions[context]? = some vk ∧ vk.key = key ∧
    vk.roster[senderTag P sender]? = some sender ∧
    ∀ entry, vk.recv[senderTag P sender]? = some entry → entry.2.started = false

/-- The packet is unprotected; its counter is noted if it was accepted. -/
def deliver (state : Protector × List ℕ) (d : Delivery) : Protector × List ℕ :=
  match state.1.unprotect P d.packet with
  | (.ok _, r) => (r, d.counter.toNat :: state.2)
  | (.error _, r) => (r, state.2)

/-- The receiver after some deliveries, with the counters it accepted. -/
def after (r : Protector) (earlier : List Delivery) : Protector × List ℕ :=
  earlier.foldl (deliver P) (r, [])

variable {P sid context key} {sender : SigPublic} {accepted : List ℕ} {r : Protector}

theorem Sent.packet_eq {d : Delivery} (h : Sent P sid context key sender d) :
    d.packet = sealFrame P d.codec (keyAt P key sender d.counter)
        (nonceFor P sid (trailerAt P context sender d))
        (associated (trailerAt P context sender d).encode d.frame
          (layout d.codec d.frame d.keyframe)) d.frame (layout d.codec d.frame d.keyframe) ++
      (trailerAt P context sender d).encode := by
  obtain ⟨hs, rfl, hcurrent, hvk, rfl, hprotect⟩ := h
  obtain ⟨⟨context', vk', fk, send, hcurrent', hvk', -, hkey, hpacket, -⟩⟩ :=
    Protector.protect_ok hprotect
  obtain rfl := Option.some.inj (hcurrent.symm.trans hcurrent')
  obtain rfl := Option.some.inj (hvk.symm.trans hvk')
  rw [(onChain_of_reachable hs hvk).key] at hkey
  cases hkey
  rw [hpacket, Protector.trailerOf, myTag_of_reachable hs]
  rfl

theorem Listening.tuned (h : Listening P sid context key sender r) :
    Tuned P sid context key sender [] r := by
  refine ⟨h.sid, h.foreign, ?_⟩
  obtain ⟨vk, hvk, rfl, hmember, hunheard⟩ := h.record
  refine ⟨vk, hvk, rfl, hmember, ?_⟩
  cases hold : vk.recv[senderTag P sender]? with
  | none =>
      rw [VersionKeys.entry, hold, Option.getD_none]
      exact heard_nil rfl
  | some entry =>
      have hfresh := hunheard entry hold
      obtain ⟨member, hroster, hratchet⟩ :=
        (ratcheted_of_reachable h.reachable).recv hvk hold hfresh
      obtain rfl := Option.some.inj (hmember.symm.trans hroster)
      rw [VersionKeys.entry, hold, Option.getD_some, ← Prod.eta entry, hratchet]
      exact heard_nil hfresh

/-- Writing the receiving state of the sender. -/
theorem Tuned.store {accepted' : List ℕ} (h : Tuned P sid context key sender accepted r)
    {vk : VersionKeys} (hkey : vk.key = key)
    (hmember : vk.roster[senderTag P sender]? = some sender)
    {entry : RecvRatchet × Replay} (hentry : Heard P key sender accepted' entry) :
    Tuned P sid context key sender accepted' (r.store context vk (senderTag P sender) entry) := by
  refine ⟨h.sid, h.foreign, _, Std.ExtTreeMap.getElem?_insert_self, hkey, hmember, ?_⟩
  rw [VersionKeys.entry, Std.ExtTreeMap.getElem?_insert_self, Option.getD_some]
  exact hentry

/-- A packet of the stream is opened to its frame if the counter is admissible, and refused
otherwise. -/
theorem Tuned.unprotect (hP : LawfulCipher P) (h : Tuned P sid context key sender accepted r)
    {d : Delivery} (hd : Sent P sid context key sender d) (hstable : Stable d.codec d.frame) :
    (Admissible accepted d.counter.toNat ∧
      ∃ r', r.unprotect P d.packet = (.ok (sender, d.frame), r') ∧
      Tuned P sid context key sender (d.counter.toNat :: accepted) r') ∨
    (¬Admissible accepted d.counter.toNat ∧ ∃ e r', r.unprotect P d.packet = (.error e, r') ∧
      Tuned P sid context key sender accepted r') := by
  obtain ⟨vk, hvk, hkey, hmember, hheard⟩ := h.record
  set t := trailerAt P context sender d with ht
  obtain ⟨body, tag, hseal, htag, hopen, hback⟩ := sealed_opens hP hstable d.keyframe
    (keyAt P key sender d.counter) (nonceFor P sid t) t.encode
  let received : Received r d.packet :=
    { body, tag, raw := t.encode, trailer := t, vk, sender
      packet_eq := by rw [hd.packet_eq, hseal]
      raw_len := Trailer.encode_length t
      decoded := Trailer.decode_encode t
      tag_len := htag
      record := hvk
      member := hmember
      foreign := h.foreign }
  have hopened : received.opened P (keyAt P key sender d.counter) =
      some (gather d.frame (layout d.codec d.frame d.keyframe)) := by
    rw [← hopen, ← h.sid]
    rfl
  have hrefused := h.store hkey hmember hheard
  rw [Protector.unprotect_received received, hheard.admissible_iff]
  have hratchet := hheard.ratchet_key d.counter
  cases haccept : (vk.entry P (senderTag P sender) sender).2.accept d.counter with
  | none =>
      rw [received.outcome_replay haccept]
      exact Or.inr ⟨by simp, _, _, rfl, hrefused⟩
  | some replay =>
      by_cases hepoch : highest accepted / 256 ≤ d.counter.toNat / 256 ∧
        d.counter.toNat / 256 ≤ highest accepted / 256 + 1024
      · rw [if_pos hepoch] at hratchet
        rw [received.outcome_keyed haccept hratchet]
        left
        simp only [hopened]
        refine ⟨⟨⟨replay, rfl⟩, hepoch⟩, _, Prod.ext ?_ rfl,
          h.store hkey hmember (hheard.accept haccept hepoch.1)⟩
        exact congrArg (fun frame => Except.ok (sender, frame)) hback
      · rw [if_neg hepoch] at hratchet
        rw [received.outcome_stale haccept hratchet]
        exact Or.inr ⟨fun hadmissible => hepoch hadmissible.2, _, _, rfl, hrefused⟩

/-- A delivery notes the counter exactly if it is admissible. -/
theorem Tuned.deliver (hP : LawfulCipher P) (h : Tuned P sid context key sender accepted r)
    {d : Delivery} (hd : Sent P sid context key sender d) (hstable : Stable d.codec d.frame) :
    Tuned P sid context key sender (deliver P (r, accepted) d).2 (deliver P (r, accepted) d).1 := by
  rw [StreamDelivery.deliver]
  rcases h.unprotect hP hd hstable with ⟨-, r', hr', hnext⟩ | ⟨-, e, r', hr', hnext⟩
  · rw [hr']
    exact hnext
  · rw [hr']
    exact hnext

theorem Tuned.delivered (hP : LawfulCipher P) {ds : List Delivery}
    (hds : ∀ d ∈ ds, Sent P sid context key sender d ∧ Stable d.codec d.frame)
    {state : Protector × List ℕ} (h : Tuned P sid context key sender state.2 state.1) :
    Tuned P sid context key sender (ds.foldl (StreamDelivery.deliver P) state).2
      (ds.foldl (StreamDelivery.deliver P) state).1 := by
  induction ds generalizing state with
  | nil => exact h
  | cons d ds ih =>
      have hd := hds d List.mem_cons_self
      exact ih (fun d' hd' => hds d' (List.mem_cons_of_mem _ hd')) (h.deliver hP hd.1 hd.2)

end Stream

/-- The codecs whose frames are protected as a whole or after a fixed header. -/
def wholeFrame : List Codec :=
  [.vp8, .vp9, .opus, .generic]

theorem stable_of_wholeFrame {codec : Codec} (h : codec ∈ wholeFrame) (frame : Bytes) :
    Stable codec frame := by
  cases codec <;> first | exact True.intro | exact absurd h (by decide)

/-- After any deliveries of packets of one stream, a packet of the stream is opened to its frame if
its counter is admissible after the accepted ones, and refused otherwise. -/
theorem stream_delivery {P : Primitives} (hP : LawfulCipher P) {sid : BitVec 256}
    {context : ContextId} {key : Secret} {sender : SigPublic} {r : Protector}
    (hr : Listening P sid context key sender r) (earlier : List Delivery) (d : Delivery)
    (hsent : ∀ x ∈ d :: earlier, Sent P sid context key sender x ∧ x.codec ∈ wholeFrame) :
    (Admissible (after P r earlier).2 d.counter.toNat →
      ((after P r earlier).1.unprotect P d.packet).1 = .ok (sender, d.frame)) ∧
    (¬Admissible (after P r earlier).2 d.counter.toNat →
      ∃ e, ((after P r earlier).1.unprotect P d.packet).1 = .error e) := by
  have hstream : ∀ x ∈ d :: earlier, Sent P sid context key sender x ∧ Stable x.codec x.frame :=
    fun x hx => ⟨(hsent x hx).1, stable_of_wholeFrame (hsent x hx).2 x.frame⟩
  have hlater : ∀ x ∈ earlier, Sent P sid context key sender x ∧ Stable x.codec x.frame :=
    fun x hx => hstream x (List.mem_cons_of_mem _ hx)
  have hstart : Tuned P sid context key sender (r, ([] : List ℕ)).2 (r, ([] : List ℕ)).1 := hr.tuned
  have htuned : Tuned P sid context key sender (after P r earlier).2 (after P r earlier).1 :=
    hstart.delivered hP hlater
  have hd := hstream d List.mem_cons_self
  rcases htuned.unprotect hP hd.1 hd.2 with ⟨hin, r', hr', -⟩ | ⟨hout, e, r', hr', -⟩
  · exact ⟨fun _ => congrArg Prod.fst hr', fun hnot => absurd hin hnot⟩
  · exact ⟨fun hin => absurd hin hout, fun _ => ⟨e, congrArg Prod.fst hr'⟩⟩

section Scenario

variable (P : Primitives)

/-- The first frame of a party that has just installed its version. -/
def firstFrame : Delivery where
  codec := .generic
  frame := [5]
  keyframe := false
  counter := 0
  packet := ((freshParty P 1).protect P .generic [5] false).1.toOption.getD []

theorem freshParty_listening :
    Listening P (freshParty P 2).sid (contextId P 0) 0 (freshParty P 1).me (freshParty P 2) := by
  have hpair := freshParty_paired P
  refine ⟨hpair.receiver, rfl, hpair.foreign, _, hpair.holding, rfl, ?_, ?_⟩
  · rw [← myTag_of_reachable hpair.sender]
    exact hpair.member
  · rw [← myTag_of_reachable hpair.sender]
    exact hpair.unheard

theorem firstFrame_sent :
    Sent P (freshParty P 2).sid (contextId P 0) 0 (freshParty P 1).me (firstFrame P) := by
  have hpair := freshParty_paired P
  obtain ⟨s', hprotect⟩ := hpair.protect .generic [5] false
  have hpacket : (firstFrame P).packet = _ := congrArg (fun x => x.1.toOption.getD []) hprotect
  have hsent := Sent.protect hpair.sender hpair.sid hpair.current hpair.sending rfl hprotect
  simp only [Except.toOption, Option.getD_some] at hpacket
  rw [← hpacket] at hsent
  exact hsent

variable {P} in
theorem deliver_accepted {r : Protector} {accepted : List ℕ} {d : Delivery}
    {opened : SigPublic × Bytes} (h : (r.unprotect P d.packet).1 = .ok opened) :
    (deliver P (r, accepted) d).2 = d.counter.toNat :: accepted := by
  simp only [deliver]
  split
  · rfl
  · rename_i hrun
    rw [hrun] at h
    cases h

theorem toy_lawful : LawfulCipher toy where
  length _ _ _ _ := rfl
  opens _ _ _ _ := by simp [toy]
  lengthShort _ _ _ _ := rfl
  opensShort _ _ _ _ := by simp [toy]

/-- The frame is opened on its first delivery and refused on the second. -/
theorem firstFrame_delivered :
    ((freshParty toy 2).unprotect toy (firstFrame toy).packet).1 =
        .ok ((freshParty toy 1).me, [5]) ∧
      ∃ e, ((after toy (freshParty toy 2) [firstFrame toy]).1.unprotect toy
        (firstFrame toy).packet).1 = .error e := by
  have hsent : ∀ x, x = firstFrame toy →
      Sent toy (freshParty toy 2).sid (contextId toy 0) 0 (freshParty toy 1).me x ∧
        x.codec ∈ wholeFrame := by
    intro x hx
    subst hx
    exact ⟨firstFrame_sent toy, List.mem_of_elem_eq_true rfl⟩
  have hfirst := stream_delivery toy_lawful (freshParty_listening toy) [] (firstFrame toy)
    fun x hx => hsent x (List.mem_singleton.mp hx)
  have hsecond := stream_delivery toy_lawful (freshParty_listening toy) [firstFrame toy]
    (firstFrame toy) fun x hx => hsent x ((List.mem_cons.mp hx).elim id List.mem_singleton.mp)
  have hopened : ((freshParty toy 2).unprotect toy (firstFrame toy).packet).1 =
      .ok ((freshParty toy 1).me, [5]) := hfirst.1 (by decide)
  refine ⟨hopened, hsecond.2 ?_⟩
  rw [after, List.foldl_cons, List.foldl_nil, deliver_accepted hopened]
  decide

end Scenario

end CausalFrontierRatchet.StreamDelivery
