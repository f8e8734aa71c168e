import CausalFrontierRatchet.MediaFrame

/-!
Reachable protectors.  Whatever calls a protector has seen, its own tag is the tag of its identity,
its rosters map tags to members with those tags, a record in its first epoch has not moved its
sending ratchet, and a sender that was never accepted has a fresh receiving ratchet.
-/

namespace CausalFrontierRatchet.MediaReachable

open BigEndian Crypto MediaLayout MediaRatchet MediaFrame

/-- Protectors reached by any sequence of calls. -/
inductive Reachable (P : Primitives) : Protector → Prop
  | new (sid : BitVec 256) (me : SigPublic) (retain : ℕ) :
      Reachable P (Protector.new P sid me retain)
  | install {p : Protector} (version : Version) (key : Secret) (roster : List SigPublic) :
      Reachable P p → Reachable P (p.install P version key roster)
  | protect {p : Protector} (codec : Codec) (frame : Bytes) (keyframe : Bool) :
      Reachable P p → Reachable P (p.protect P codec frame keyframe).2
  | unprotect {p : Protector} (packet : Bytes) :
      Reachable P p → Reachable P (p.unprotect P packet).2

/-- What every call maintains about the ratchets of a protector. -/
structure Ratcheted (P : Primitives) (p : Protector) : Prop where
  tag : p.myTag = senderTag P p.me
  send : ∀ {context : ContextId} {vk : VersionKeys}, p.versions[context]? = some vk →
    vk.counter ≤ EPOCH → vk.send = SendRatchet.new P vk.key p.me
  recv : ∀ {context : ContextId} {vk : VersionKeys} {tag : SenderTag} {r : RecvRatchet}
    {replay : Replay}, p.versions[context]? = some vk → vk.recv[tag]? = some (r, replay) →
    replay.started = false → ∃ sender, vk.roster[tag]? = some sender ∧
      r = RecvRatchet.new P vk.key sender
  roster : ∀ {context : ContextId} {vk : VersionKeys} {tag : SenderTag} {id : SigPublic},
    p.versions[context]? = some vk → vk.roster[tag]? = some id → senderTag P id = tag

theorem accept_started {r r' : Replay} {index : UInt64} (h : r.accept index = some r') :
    r'.started = true := by
  simp only [Replay.accept] at h
  split_ifs at h with hfresh <;> cases h
  · rfl
  · simpa using hfresh
  · simpa using hfresh
  · simpa using hfresh

/-- A roster maps each tag to a member with that tag. -/
theorem rosterOf_tag {P : Primitives} {roster : List SigPublic} {tag : SenderTag} {id : SigPublic}
    (h : (rosterOf P roster)[tag]? = some id) : senderTag P id = tag := by
  have hfold : ∀ (roster : List SigPublic) (m : Std.ExtTreeMap SenderTag SigPublic),
      (∀ tag id, m[tag]? = some id → senderTag P id = tag) →
      ∀ tag id, (roster.foldl (fun m id => m.insert (senderTag P id) id) m)[tag]? = some id →
        senderTag P id = tag := by
    intro roster
    induction roster with
    | nil => exact fun m hm => hm
    | cons member roster ih =>
        intro m hm
        refine ih _ fun tag id hget => ?_
        rw [Std.ExtTreeMap.getElem?_insert] at hget
        split_ifs at hget with htag
        · cases hget
          exact Std.LawfulEqCmp.eq_of_compare htag
        · exact hm tag id hget
  exact hfold roster ∅ (by simp) tag id h

@[simp] theorem install_me (P : Primitives) (p : Protector) (version : Version) (key : Secret)
    (roster : List SigPublic) : (p.install P version key roster).me = p.me := by
  simp only [Protector.install]
  split_ifs <;> rfl

@[simp] theorem install_myTag (P : Primitives) (p : Protector) (version : Version) (key : Secret)
    (roster : List SigPublic) : (p.install P version key roster).myTag = p.myTag := by
  simp only [Protector.install]
  split_ifs <;> rfl

/-! ## How records change -/

/-- What one call may do to a retained record. -/
inductive Touched (P : Primitives) (me : SigPublic) : VersionKeys → VersionKeys → Prop
  | spent {vk : VersionKeys} : vk.counter.toNat + 1 < 2 ^ 64 → vk.send.key P vk.counter = none →
      Touched P me vk { vk with counter := vk.counter + 1 }
  | sent {vk : VersionKeys} {fk : Secret} {send : SendRatchet} :
      vk.counter.toNat + 1 < 2 ^ 64 → vk.send.key P vk.counter = some (fk, send) →
      Touched P me vk { vk with counter := vk.counter + 1, send }
  | heard {vk : VersionKeys} {tag : SenderTag} {sender : SigPublic} :
      vk.roster[tag]? = some sender → sender ≠ me →
      Touched P me vk { vk with recv := vk.recv.insert tag (vk.entry P tag sender) }
  | opened {vk : VersionKeys} {tag : SenderTag} {sender : SigPublic} {counter : UInt64}
      {fk : Secret} {ratchet : RecvRatchet} {replay : Replay} :
      vk.roster[tag]? = some sender → sender ≠ me →
      (vk.entry P tag sender).2.accept counter = some replay →
      (vk.entry P tag sender).1.key P counter = some (fk, ratchet) →
      Touched P me vk { vk with recv := vk.recv.insert tag (ratchet, replay) }

/-- A protector whose records were there before, one of them touched at most. -/
structure Follows (P : Primitives) (p p' : Protector) : Prop where
  me : p'.me = p.me
  myTag : p'.myTag = p.myTag
  order : p'.order = p.order
  current : p'.current = p.current
  retain : p'.retain = p.retain
  known : ∀ context, context ∈ p'.versions ↔ context ∈ p.versions
  record : ∀ {context : ContextId} {vk' : VersionKeys}, p'.versions[context]? = some vk' →
    ∃ vk, p.versions[context]? = some vk ∧ (vk' = vk ∨ Touched P p.me vk vk')

theorem Follows.refl (P : Primitives) (p : Protector) : Follows P p p :=
  ⟨rfl, rfl, rfl, rfl, rfl, fun _ => Iff.rfl, fun h => ⟨_, h, Or.inl rfl⟩⟩

theorem follows_insert {P : Primitives} {p : Protector} {context : ContextId}
    {vk vk' : VersionKeys} (hvk : p.versions[context]? = some vk) (h : Touched P p.me vk vk') :
    Follows P p { p with versions := p.versions.insert context vk' } where
  me := rfl
  myTag := rfl
  order := rfl
  current := rfl
  retain := rfl
  known := by
    intro c
    have hold : context ∈ p.versions :=
      Std.ExtTreeMap.mem_iff_isSome_getElem?.mpr (by rw [hvk]; rfl)
    rw [Std.ExtTreeMap.mem_insert]
    constructor
    · intro h
      rcases h with heq | hmem
      · exact Std.LawfulEqCmp.eq_of_compare heq ▸ hold
      · exact hmem
    · exact Or.inr
  record := by
    intro c next hnext
    rw [Std.ExtTreeMap.getElem?_insert] at hnext
    split_ifs at hnext with hc
    · obtain rfl := Std.LawfulEqCmp.eq_of_compare hc
      cases hnext
      exact ⟨vk, hvk, Or.inr h⟩
    · exact ⟨next, hnext, Or.inl rfl⟩

theorem protect_follows (P : Primitives) (p : Protector) (codec : Codec) (frame : Bytes)
    (keyframe : Bool) : Follows P p (p.protect P codec frame keyframe).2 := by
  rcases hprotect : p.protect P codec frame keyframe with ⟨e | packet, p'⟩
  · rcases Protector.protect_error hprotect with rfl | ⟨context, vk, -, hvk, hroom, hkey, rfl⟩
    · exact .refl P _
    · exact follows_insert hvk (.spent hroom hkey)
  · obtain ⟨⟨context, vk, fk, send, -, hvk, hroom, hkey, -, rfl⟩⟩ := Protector.protect_ok hprotect
    exact follows_insert hvk (.sent hroom hkey)

theorem unprotect_follows (P : Primitives) (p : Protector) (packet : Bytes) :
    Follows P p (p.unprotect P packet).2 := by
  rcases Protector.unprotect_cases (P := P) p packet with ⟨e, he⟩ | ⟨r, hr⟩
  · rw [he]
    exact .refl P p
  · have hback : Follows P p (p.store r.trailer.version r.vk r.trailer.sender
        (r.vk.entry P r.trailer.sender r.sender)) :=
      follows_insert r.record (.heard r.member r.foreign)
    rw [hr, Received.outcome]
    split
    · exact hback
    · rename_i replay haccept
      split
      · exact hback
      · rename_i fk ratchet hkey
        split
        · exact hback
        · exact follows_insert r.record (.opened r.member r.foreign haccept hkey)

/-- What new records have and every touch keeps holds of all records of a reachable protector. -/
theorem Reachable.record {P : Primitives} {I : SigPublic → VersionKeys → Prop}
    (hnew : ∀ version key me roster, I me (VersionKeys.new P version key me roster))
    (htouched : ∀ {me vk vk'}, Touched P me vk vk' → I me vk → I me vk') {p : Protector}
    (h : Reachable P p) {context : ContextId} {vk : VersionKeys}
    (hvk : p.versions[context]? = some vk) : I p.me vk := by
  have hfollows : ∀ {p p' : Protector}, Follows P p p' →
      (∀ {context : ContextId} {vk}, p.versions[context]? = some vk → I p.me vk) →
      ∀ {context : ContextId} {vk}, p'.versions[context]? = some vk → I p'.me vk := by
    intro p p' hstep ih context vk hvk
    obtain ⟨old, hold, rfl | htouch⟩ := hstep.record hvk
    · rw [hstep.me]
      exact ih hold
    · rw [hstep.me]
      exact htouched htouch (ih hold)
  induction h generalizing context vk with
  | new sid me retain => simp [Protector.new] at hvk
  | install version key roster _ ih =>
      rw [install_me]
      rcases install_record hvk with hold | ⟨-, -, rfl⟩
      · exact ih hold
      · exact hnew version key _ roster
  | @protect p codec frame keyframe _ ih =>
      exact hfollows (protect_follows P p codec frame keyframe) ih hvk
  | @unprotect p packet _ ih => exact hfollows (unprotect_follows P p packet) ih hvk

/-! ## Ratchets and rosters -/

theorem myTag_of_reachable {P : Primitives} {p : Protector} (h : Reachable P p) :
    p.myTag = senderTag P p.me := by
  induction h with
  | new sid me retain => rfl
  | install version key roster _ ih => rw [install_myTag, install_me, ih]
  | @protect p codec frame keyframe _ ih =>
      rw [(protect_follows P p codec frame keyframe).me,
        (protect_follows P p codec frame keyframe).myTag, ih]
  | @unprotect p packet _ ih =>
      rw [(unprotect_follows P p packet).me, (unprotect_follows P p packet).myTag, ih]

/-- Up to the end of the first epoch the sending ratchet has not moved. -/
theorem touched_send {P : Primitives} {me : SigPublic} {vk vk' : VersionKeys}
    (h : Touched P me vk vk') (hvk : vk.counter ≤ EPOCH → vk.send = SendRatchet.new P vk.key me) :
    vk'.counter ≤ EPOCH → vk'.send = SendRatchet.new P vk'.key me := by
  have hcounter : vk.counter.toNat + 1 < 2 ^ 64 → vk.counter + 1 ≤ EPOCH →
      vk.counter < EPOCH := by
    intro hroom hle
    rw [UInt64.le_iff_toNat_le, toNat_succ hroom] at hle
    rw [UInt64.lt_iff_toNat_lt]
    omega
  intro hle
  cases h with
  | spent hroom _ => exact hvk (UInt64.le_of_lt (hcounter hroom hle))
  | sent hroom hkey =>
      have hlt := hcounter hroom hle
      have hsend := hvk (UInt64.le_of_lt hlt)
      have hfirst := SendRatchet.key_first P (by rw [hsend]; rfl : vk.send.epoch = 0) hlt
      rw [hkey] at hfirst
      change _ = SendRatchet.new P vk.key me
      rw [← hsend]
      exact (Prod.mk.inj (Option.some.inj hfirst)).2
  | heard _ _ => exact hvk hle
  | opened _ _ _ _ => exact hvk hle

/-- A sender without an accepted frame has a fresh receiving ratchet. -/
def Unmoved (P : Primitives) (vk : VersionKeys) : Prop :=
  ∀ {tag : SenderTag} {r : RecvRatchet} {replay : Replay}, vk.recv[tag]? = some (r, replay) →
    replay.started = false → ∃ sender, vk.roster[tag]? = some sender ∧
      r = RecvRatchet.new P vk.key sender

theorem touched_recv {P : Primitives} {me : SigPublic} {vk vk' : VersionKeys}
    (h : Touched P me vk vk') (hvk : Unmoved P vk) : Unmoved P vk' := by
  cases h with
  | spent _ _ => exact hvk
  | sent _ _ => exact hvk
  | @heard tag sender hmember _ =>
      intro t r replay hentry hfresh
      rw [Std.ExtTreeMap.getElem?_insert] at hentry
      split_ifs at hentry with ht
      · obtain rfl := Std.LawfulEqCmp.eq_of_compare ht
        -- The entry is the one that was there, or a fresh one.
        cases hold : vk.recv[tag]? with
        | none =>
            simp only [VersionKeys.entry, hold, Option.getD_none, Option.some.injEq,
              Prod.mk.injEq] at hentry
            exact ⟨sender, hmember, hentry.1.symm⟩
        | some entry =>
            simp only [VersionKeys.entry, hold, Option.getD_some, Option.some.injEq] at hentry
            subst hentry
            exact hvk hold hfresh
      · exact hvk hentry hfresh
  | @opened tag _ _ _ _ _ _ _ haccept _ =>
      intro t r replay hentry hfresh
      rw [Std.ExtTreeMap.getElem?_insert] at hentry
      split_ifs at hentry with ht
      · cases hentry
        rw [accept_started haccept] at hfresh
        cases hfresh
      · exact hvk hentry hfresh

theorem touched_roster {P : Primitives} {me : SigPublic} {vk vk' : VersionKeys}
    (h : Touched P me vk vk') : vk'.roster = vk.roster := by
  cases h <;> rfl

theorem ratcheted_of_reachable {P : Primitives} {p : Protector} (h : Reachable P p) :
    Ratcheted P p where
  tag := myTag_of_reachable h
  send hvk := h.record (fun _ _ _ _ _ => rfl) touched_send hvk
  recv hvk := h.record (I := fun _ vk => Unmoved P vk)
    (fun _ _ _ _ => by intro _ _ _ hentry; simp [VersionKeys.new] at hentry) touched_recv hvk
  roster hvk := by
    intro hid
    exact h.record
      (I := fun _ vk => ∀ {tag : SenderTag} {id}, vk.roster[tag]? = some id → senderTag P id = tag)
      (fun _ _ _ _ _ _ hid => rosterOf_tag hid)
      (fun htouch hvk _ _ hid => hvk (touched_roster htouch ▸ hid)) hvk hid

end CausalFrontierRatchet.MediaReachable
