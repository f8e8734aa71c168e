import CausalFrontierRatchet.MediaReachable
import CausalFrontierRatchet.MediaState
import CausalFrontierRatchet.ReplayProtection

/-!
Persisted protectors.  Every check of the reader is an invariant of the operations, rejected frames
and lazily started receivers included, so a protector whose rosters are within the limits is read
back as it was; and whatever is read is written back byte for byte.
-/

namespace CausalFrontierRatchet.MediaPersistence

open BigEndian Crypto MediaLayout MediaRatchet MediaFrame MediaReachable MediaState FieldCodec
open ReplayProtection

/-! ## Runs within the limits -/

/-- No two identities share a sender tag. -/
def DistinctTags (P : Primitives) (identities : List SigPublic) : Prop :=
  ∀ a ∈ identities, ∀ b ∈ identities, senderTag P a = senderTag P b → a = b

/-- Protectors reached by any calls, with a retention limit and rosters that can be stored. -/
inductive Storable (P : Primitives) : Protector → Prop
  | new (sid : BitVec 256) (me : SigPublic) {retain : ℕ} :
      retain ≤ MAX_RETAINED_VERSIONS → Storable P (Protector.new P sid me retain)
  | install {p : Protector} (version : Version) (key : Secret) {roster : List SigPublic} :
      roster.dedup.length ≤ MAX_ROSTER → DistinctTags P (p.me :: roster) → Storable P p →
      Storable P (p.install P version key roster)
  | protect {p : Protector} (codec : Codec) (frame : Bytes) (keyframe : Bool) :
      Storable P p → Storable P (p.protect P codec frame keyframe).2
  | unprotect {p : Protector} (packet : Bytes) :
      Storable P p → Storable P (p.unprotect P packet).2

/-- What the reader checks, that the eviction order misses no record, and that a member with the tag
of the participant is the participant. -/
structure Kept (P : Primitives) (p : Protector) : Prop extends ProtectorOk P p where
  queued : ∀ context ∈ p.versions, context ∈ p.order
  own : ∀ (context : ContextId) (vk : VersionKeys), p.versions[context]? = some vk →
    ∀ id, vk.roster[p.myTag]? = some id → id = p.me

variable {P : Primitives} {p : Protector}

/-! ## Records -/

section Records

variable {me : SigPublic} {myTag : SenderTag} {context : ContextId} {vk vk' : VersionKeys}

theorem expected_le (counter : UInt64) : expectedSendEpoch counter ≤ counter / EPOCH := by
  unfold expectedSendEpoch
  split_ifs with hzero
  · rw [hzero]
    exact UInt64.le_refl _
  · rw [UInt64.le_iff_toNat_le, UInt64.toNat_div, UInt64.toNat_div]
    apply Nat.div_le_div_right
    have hpos : (1 : UInt64) ≤ counter := by
      rw [UInt64.le_iff_toNat_le]
      exact Nat.pos_of_ne_zero fun h => hzero (UInt64.toNat_inj.mp h)
    rw [UInt64.toNat_sub_of_le _ _ hpos]
    exact Nat.sub_le _ _

theorem expected_succ {counter : UInt64} (h : counter.toNat + 1 < 2 ^ 64) :
    expectedSendEpoch (counter + 1) = counter / EPOCH := by
  have hne : counter + 1 ≠ 0 := by
    intro heq
    have hsucc := toNat_succ h
    rw [heq] at hsucc
    cases hsucc
  rw [expectedSendEpoch, if_neg hne, UInt64.add_sub_cancel]

theorem seen_and_one (seen : UInt64) : seen &&& 1 ≠ 0 ↔ seen.toNat.testBit 0 :=
  @seen_bit seen 0 (by decide)

/-- An accepted frame leaves a window that holds its highest counter and a ratchet in its epoch. -/
theorem receiverOk_accept {entry : RecvRatchet × Replay} (h : ReceiverOk entry) {counter : UInt64}
    {fk : Secret} {ratchet : RecvRatchet} {replay : Replay}
    (haccept : entry.2.accept counter = some replay)
    (hkey : entry.1.key P counter = some (fk, ratchet)) : ReceiverOk (ratchet, replay) := by
  have hepoch : entry.1.epoch ≤ counter / EPOCH ∧ ratchet.epoch = counter / EPOCH := by
    simp only [RecvRatchet.key] at hkey
    split_ifs at hkey with hrefused
    cases hkey
    exact ⟨UInt64.not_lt.mp (not_or.mp hrefused).1, rfl⟩
  obtain ⟨hstarted, hcases⟩ := accept_some haccept
  refine ⟨fun hnot => ?_, fun _ => ?_⟩
  · rw [hstarted] at hnot
    cases hnot
  · rw [seen_and_one, hepoch.2]
    rcases hcases with ⟨-, hhigh, hseen⟩ | ⟨-, -, hhigh, hseen⟩ | ⟨hwas, hle, hhigh, hseen⟩
    · rw [hhigh, hseen]
      exact ⟨by decide, rfl⟩
    · rw [hhigh]
      exact ⟨(hseen 0 (by decide)).mpr (Or.inl rfl), rfl⟩
    · -- A counter below the highest one is accepted only in the epoch of the highest one.
      obtain ⟨hbit, hsame⟩ := h.2 hwas
      refine ⟨(hseen 0).mpr (Or.inl ((seen_and_one _).mp hbit)), ?_⟩
      rw [hhigh]
      apply UInt64.le_antisymm
      · rw [UInt64.le_iff_toNat_le, UInt64.toNat_div, UInt64.toNat_div]
        exact Nat.div_le_div_right hle
      · rw [← hsame]
        exact hepoch.1

theorem receiverOk_entry (h : ReceiversOk vk.roster myTag vk.recv) (tag : SenderTag)
    (sender : SigPublic) : ReceiverOk (vk.entry P tag sender) := by
  cases hold : vk.recv[tag]? with
  | none =>
      rw [VersionKeys.entry, hold, Option.getD_none]
      exact ⟨fun _ => ⟨rfl, rfl⟩, fun hstarted => by cases hstarted⟩
  | some entry =>
      rw [VersionKeys.entry, hold, Option.getD_some]
      exact (h.receiver tag entry hold).2

theorem receiversOk_insert (h : ReceiversOk vk.roster myTag vk.recv) {tag : SenderTag}
    {entry : RecvRatchet × Replay} (htag : tag ≠ myTag ∧ tag ∈ vk.roster)
    (hentry : ReceiverOk entry) : ReceiversOk vk.roster myTag (vk.recv.insert tag entry) := by
  have hreceiver : ∀ t e, (vk.recv.insert tag entry)[t]? = some e →
      (t ≠ myTag ∧ t ∈ vk.roster) ∧ ReceiverOk e := by
    intro t e hget
    rw [Std.ExtTreeMap.getElem?_insert] at hget
    split_ifs at hget with heq
    · obtain rfl := Std.LawfulEqCmp.eq_of_compare heq
      cases hget
      exact ⟨htag, hentry⟩
    · exact h.receiver t e hget
  refine ⟨size_le_size fun t ht => ?_, hreceiver⟩
  obtain ⟨e, he⟩ := Option.isSome_iff_exists.mp (Std.ExtTreeMap.mem_iff_isSome_getElem?.mp ht)
  exact (hreceiver t e he).1.2

theorem touched_versionOk (h : Touched P me vk vk') (hvk : VersionOk P myTag context vk)
    (hown : ∀ id, vk.roster[myTag]? = some id → id = me) : VersionOk P myTag context vk' := by
  have hforeign : ∀ {tag sender}, vk.roster[tag]? = some sender → sender ≠ me →
      tag ≠ myTag ∧ tag ∈ vk.roster := by
    intro tag sender hmember hne
    refine ⟨fun heq => hne (hown sender (heq ▸ hmember)), ?_⟩
    exact Std.ExtTreeMap.mem_iff_isSome_getElem?.mpr (by rw [hmember]; rfl)
  have hepoch : vk.send.epoch ≤ vk.counter / EPOCH := hvk.epoch ▸ expected_le vk.counter
  cases h with
  | spent hroom hkey =>
      simp only [SendRatchet.key] at hkey
      rw [if_neg (UInt64.not_lt.mpr hepoch)] at hkey
      cases hkey
  | sent hroom hkey =>
      simp only [SendRatchet.key] at hkey
      rw [if_neg (UInt64.not_lt.mpr hepoch)] at hkey
      cases hkey
      exact ⟨hvk.context, hvk.roster, hvk.recv, (expected_succ hroom).symm⟩
  | @heard tag sender hmember hne =>
      exact ⟨hvk.context, hvk.roster,
        receiversOk_insert hvk.recv (hforeign hmember hne) (receiverOk_entry hvk.recv tag sender),
        hvk.epoch⟩
  | @opened tag sender _ _ _ _ hmember hne haccept hkey =>
      have hentry := receiverOk_accept (receiverOk_entry hvk.recv tag sender) haccept hkey
      exact ⟨hvk.context, hvk.roster, receiversOk_insert hvk.recv (hforeign hmember hne) hentry,
        hvk.epoch⟩

end Records

/-! ## Calls -/

theorem mem_of_rosterOf {roster : List SigPublic} {tag : SenderTag} {id : SigPublic}
    (h : (rosterOf P roster)[tag]? = some id) : id ∈ roster := by
  have hfold : ∀ (roster : List SigPublic) (m : Std.ExtTreeMap SenderTag SigPublic),
      (roster.foldl (fun m id => m.insert (senderTag P id) id) m)[tag]? = some id →
        id ∈ roster ∨ m[tag]? = some id := by
    intro roster
    induction roster with
    | nil => exact fun m hm => Or.inr hm
    | cons member roster ih =>
        intro m hm
        rcases ih _ hm with hlater | hinsert
        · exact Or.inl (List.mem_cons_of_mem _ hlater)
        · rw [Std.ExtTreeMap.getElem?_insert] at hinsert
          split_ifs at hinsert with htag
          · cases hinsert
            exact Or.inl List.mem_cons_self
          · exact Or.inr hinsert
  rcases hfold roster ∅ h with hmem | hempty
  · exact hmem
  · rw [Std.ExtTreeMap.getElem?_empty] at hempty
    cases hempty

theorem rosterOk_rosterOf {roster : List SigPublic} (h : roster.dedup.length ≤ MAX_ROSTER) :
    RosterOk P (rosterOf P roster) where
  size := by
    have hle : (rosterOf P roster).size ≤ (roster.dedup.map (senderTag P)).length := by
      apply size_le_length
      intro tag htag
      obtain ⟨id, hid⟩ :=
        Option.isSome_iff_exists.mp (Std.ExtTreeMap.mem_iff_isSome_getElem?.mp htag)
      rw [← rosterOf_tag hid]
      exact List.mem_map_of_mem (List.mem_dedup.mpr (mem_of_rosterOf hid))
    rw [List.length_map] at hle
    exact Nat.le_trans hle h
  tag _ _ hid := rosterOf_tag hid

theorem kept_new (sid : BitVec 256) (me : SigPublic) {retain : ℕ}
    (h : retain ≤ MAX_RETAINED_VERSIONS) : Kept P (Protector.new P sid me retain) where
  myTag := rfl
  retain := ⟨by simp [Protector.new], by simpa [Protector.new, MAX_RETAINED_VERSIONS] using h⟩
  size := by simp [Protector.new]
  version := by simp [Protector.new]
  order := ⟨by simp [Protector.new], List.nodup_nil, by simp [Protector.new]⟩
  current := by simp [Protector.new]
  empty := by simp [Protector.new]
  queued := by simp [Protector.new]
  own := by simp [Protector.new]

theorem Kept.mem_order (h : Kept P p) (context : ContextId) :
    context ∈ p.versions ↔ context ∈ p.order :=
  ⟨h.queued context, h.order.retained context⟩

theorem kept_follows {p' : Protector} (h : Kept P p) (hstep : Follows P p p') : Kept P p' where
  myTag := by rw [hstep.myTag, hstep.me, h.myTag]
  retain := by rw [hstep.retain]; exact h.retain
  size := by
    rw [hstep.retain]
    exact Nat.le_trans (size_le_size fun context => (hstep.known context).mp) h.size
  version context vk' hvk' := by
    obtain ⟨vk, hvk, rfl | htouched⟩ := hstep.record hvk'
    · rw [hstep.myTag]
      exact h.version context vk' hvk
    · rw [hstep.myTag]
      exact touched_versionOk htouched (h.version context vk hvk) (h.own context vk hvk)
  order := by
    rw [hstep.order]
    refine ⟨?_, h.order.nodup, fun context hc => ?_⟩
    · exact (size_eq_length h.order.nodup fun context =>
        (hstep.known context).trans (h.mem_order context)).symm
    · exact (hstep.known context).mpr (h.order.retained context hc)
  current context hc := by
    rw [hstep.current] at hc
    exact (hstep.known context).mpr (h.current context hc)
  empty := by
    rw [hstep.current, ← h.empty]
    exact isEmpty_congr hstep.known
  queued context hc := by
    rw [hstep.order]
    exact h.queued context ((hstep.known context).mp hc)
  own context vk' hvk' id hid := by
    rw [hstep.myTag] at hid
    rw [hstep.me]
    obtain ⟨vk, hvk, rfl | htouched⟩ := hstep.record hvk'
    · exact h.own context vk' hvk id hid
    · rw [touched_roster htouched] at hid
      exact h.own context vk hvk id hid

section Install

variable {version : Version} {key : Secret} {roster : List SigPublic}

/-- An installed version is made current. -/
theorem kept_install_known (h : Kept P p) (hknown : contextId P version ∈ p.versions) :
    Kept P (p.install P version key roster) := by
  rw [Protector.install, if_pos hknown]
  refine { h with current := fun context hc => ?_, empty := ?_ }
  · cases hc
    exact hknown
  · change p.versions.isEmpty = false
    exact isEmpty_of_mem hknown

/-- A new version is queued, and the contexts beyond the limit are dropped from the front. -/
theorem kept_install_new (h : Kept P p) (hnew : contextId P version ∉ p.versions)
    (hroster : roster.dedup.length ≤ MAX_ROSTER) (htags : DistinctTags P (p.me :: roster)) :
    Kept P (p.install P version key roster) := by
  have hrecord : ∀ {context : ContextId} {vk : VersionKeys},
      (p.install P version key roster).versions[context]? = some vk →
        VersionOk P p.myTag context vk ∧ ∀ id, vk.roster[p.myTag]? = some id → id = p.me := by
    intro context vk hvk
    rcases install_record hvk with hold | ⟨rfl, -, rfl⟩
    · exact ⟨h.version context vk hold, h.own context vk hold⟩
    · have hepoch : (0 : UInt64) = expectedSendEpoch 0 := by decide
      refine ⟨⟨rfl, rosterOk_rosterOf hroster, ⟨Nat.zero_le _, ?_⟩, hepoch⟩, fun id hid => ?_⟩
      · intro tag entry hentry
        rw [VersionKeys.new, Std.ExtTreeMap.getElem?_empty] at hentry
        cases hentry
      · apply htags id (List.mem_cons_of_mem _ (mem_of_rosterOf hid)) p.me List.mem_cons_self
        rw [rosterOf_tag hid, h.myTag]
  rw [Protector.install, if_neg hnew] at hrecord ⊢
  set context := contextId P version with hcontext
  set order := p.order ++ [context] with horder
  set dropped := order.length - p.retain with hdropped
  set versions := p.versions.insert context (VersionKeys.new P version key p.me roster)
    with hversions
  have hfresh : context ∉ p.order := fun hc => hnew (h.order.retained context hc)
  have hnodup : order.Nodup :=
    List.nodup_append.mpr ⟨h.order.nodup, List.nodup_singleton _, fun a ha b hb heq =>
      hfresh (List.mem_singleton.mp hb ▸ heq ▸ ha)⟩
  have hlength : order.length = p.order.length + 1 := List.length_append
  have hpos := h.retain.1
  have hsize : p.order.length ≤ p.retain := h.order.length ▸ h.size
  -- A context is retained if it was queued and is not among the dropped ones.
  have hmem : ∀ c, c ∈ (evict p.retain order versions).2 ↔ c ∈ order.drop dropped := by
    intro c
    rw [Std.ExtTreeMap.mem_iff_isSome_getElem?, evict_versions]
    have hqueued : versions[c]?.isSome ↔ c ∈ order := by
      rw [← Std.ExtTreeMap.mem_iff_isSome_getElem?, hversions, Std.ExtTreeMap.mem_insert,
        h.mem_order, horder, List.mem_append, List.mem_singleton, or_comm]
      exact or_congr_right ⟨fun heq => (Std.LawfulEqCmp.eq_of_compare heq).symm,
        fun heq => heq ▸ Std.ReflCmp.compare_self⟩
    have hdisjoint := List.disjoint_take_drop hnodup (Nat.le_refl dropped)
    split_ifs with hin
    · simp only [Option.isSome_none, Bool.false_eq_true, false_iff]
      exact fun hlater => hdisjoint hin hlater
    · rw [hqueued, ← List.take_append_drop dropped order, List.mem_append,
        List.take_append_drop]
      exact ⟨fun hor => hor.resolve_left hin, Or.inr⟩
  have hlast : context ∈ order.drop dropped := by
    rw [horder, List.drop_append_of_le_length (by omega)]
    exact List.mem_append_right _ List.mem_cons_self
  simp only [evict_order] at hrecord ⊢
  exact
    { myTag := h.myTag
      retain := h.retain
      size := by
        refine Nat.le_trans (size_le_length fun c => (hmem c).mp) ?_
        rw [List.length_drop]
        change order.length - dropped ≤ p.retain
        omega
      version := fun c vk hvk => (hrecord hvk).1
      order := ⟨(size_eq_length (hnodup.sublist (List.drop_sublist _ _)) hmem).symm,
        hnodup.sublist (List.drop_sublist _ _), fun c hc => (hmem c).mpr hc⟩
      current := fun c hc => by
        cases hc
        exact (hmem context).mpr hlast
      empty := isEmpty_of_mem ((hmem context).mpr hlast)
      queued := fun c hc => (hmem c).mp hc
      own := fun c vk hvk => (hrecord hvk).2 }

end Install

theorem kept_of_storable (h : Storable P p) : Kept P p := by
  induction h with
  | new sid me hretain => exact kept_new sid me hretain
  | @install p version key roster hroster htags _ ih =>
      by_cases hknown : contextId P version ∈ p.versions
      · exact kept_install_known ih hknown
      · exact kept_install_new ih hknown hroster htags
  | @protect p codec frame keyframe _ ih =>
      exact kept_follows ih (protect_follows P p codec frame keyframe)
  | @unprotect p packet _ ih => exact kept_follows ih (unprotect_follows P p packet)

/-- A protector within the limits is written and read back as it was, and whatever is read is
written back byte for byte. -/
theorem media_state_codec (P : Primitives) :
    (∀ p, Storable P p → (protectorBytes p).length ≤ MAX_MEDIA_STATE_BYTES →
      exportPersistenceState p = .ok (protectorBytes p) ∧
        importPersistenceState P (protectorBytes p) = .ok p) ∧
    ∀ bytes p, importPersistenceState P bytes = .ok p → exportPersistenceState p = .ok bytes := by
  have hwritten : ∀ {p}, ProtectorOk P p → (protectorBytes p).length ≤ MAX_MEDIA_STATE_BYTES →
      exportPersistenceState p = .ok (protectorBytes p) :=
    fun hok hsize => (export_eq P hok).trans (if_neg (Nat.not_lt.mpr hsize))
  constructor
  · intro p hp hsize
    have hok := (kept_of_storable hp).toProtectorOk
    exact ⟨hwritten hok hsize, (import_eq_ok P).mpr ⟨hok, rfl, hsize⟩⟩
  · intro bytes p h
    obtain ⟨hok, rfl, hsize⟩ := (import_eq_ok P).mp h
    exact hwritten hok hsize

section Scenario

def joined : Protector :=
  (Protector.new toy 7 1 4).install toy 1 1 [1, 2]

/-- A participant that has refused a packet. -/
def warned : Protector :=
  (joined.unprotect toy (List.replicate 80 0)).2

theorem joined_storable : Storable toy joined := by
  have hne : senderTag toy 1 ≠ senderTag toy 2 := by decide +kernel
  have htags : DistinctTags toy [1, 1, 2] := by
    intro a ha b hb htag
    simp only [List.mem_cons, List.not_mem_nil, or_false, or_self_left] at ha hb
    rcases ha with rfl | rfl <;> rcases hb with rfl | rfl
    · rfl
    · exact absurd htag hne
    · exact absurd htag hne.symm
    · rfl
  have hnew : Storable toy (Protector.new toy 7 1 4) := .new 7 1 (by decide)
  exact .install 1 1 (by decide) htags hnew

theorem warned_storable : Storable toy warned :=
  .unprotect _ joined_storable

theorem warned_restored :
    importPersistenceState toy (protectorBytes warned) = .ok warned :=
  ((media_state_codec toy).1 warned warned_storable (by decide +kernel)).2

end Scenario

end CausalFrontierRatchet.MediaPersistence
