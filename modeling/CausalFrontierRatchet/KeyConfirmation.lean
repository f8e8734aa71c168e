import CausalFrontierRatchet.FramedRuns
import CausalFrontierRatchet.KeyAgreement
import CausalFrontierRatchet.VersionHistory

/-!
Key confirmation in a session.  A beacon names the version of its sender and a tag under the group
key, and zeros in place of the tag if the sender cannot derive that key.  Whoever keeps the version
and can derive its key compares the tags.  Two honest participants never have different keys for a
version, so a check between them says that they diverge exactly if the sender had no key.
-/

namespace CausalFrontierRatchet.KeyConfirmation

open Relation BigEndian Crypto Operation KeySchedule
open Member MemberRuns FramedRuns IdealSealing CanonicalKeys Sessions
open KeyAgreement VersionHistory

variable {P : Primitives} {U : Set Op} {p q : Participant} {s s' : Session} {seed0 : Secret}

/-! ## Kept versions -/

section Kept

variable (P) in
/-- Every version that is kept has the label it is kept under. -/
def Labelled (p : Participant) : Prop :=
  ∀ label nodes root, p.seenVersions[label]? = some (nodes, root) → label = versionOf P nodes root

/-- A recorded history keeps old entries and the new one. -/
theorem getElem?_record {seen : Versions} {label u : BitVec 64} {entry e : Entry}
    (h : (record seen label entry)[u]? = some e) :
    u = label ∧ e = entry ∨ seen[u]? = some e := by
  have hmem : u ∈ record seen label entry := by
    rw [Std.ExtTreeMap.mem_iff_isSome_getElem?, h]
    rfl
  rw [record, getElem?_forgetVersions hmem, Std.ExtTreeMap.getElem?_insert] at h
  split_ifs at h with heq
  · exact Or.inl ⟨(Std.compare_eq_iff_eq.mp heq).symm, (Option.some.inj h).symm⟩
  · exact Or.inr h

theorem Labelled.noted (h : Labelled P p) : Labelled P (noteVersion P p).2 := by
  intro label nodes root hkept
  rw [noteVersion_record] at hkept
  rcases getElem?_record hkept with ⟨rfl, heq⟩ | hold
  · cases heq
    rfl
  · exact h label nodes root hold

theorem labelled_everywhere (P : Primitives) :
    Everywhere P fun p p' => Labelled P p → Labelled P p' where
  refl _ := id
  trans _ _ _ h h' := h' ∘ h
  keyed _ _ _ _ := id
  signed _ _ := id
  stored _ _ := id
  drawn _ _ := id
  noted _ := Labelled.noted
  rotated _ _ := id
  heard _ _ := id
  judged _ _ := id
  sealed _ _ _ _ := id
  opened _ _ _ _ _ _ _ := id
  learned p author gen pk := by
    obtain ⟨peerPrekeys, send, h⟩ := learnPrekey_run author gen pk p
    rw [h]
    exact id
  parked _ _ := id
  waiting _ _ := id
  invited _ _ := id
  erased _ _ := id
  ticked _ := id

theorem reachable_labelled (h : Reachable P p) : Labelled P p := by
  apply reachable_invariant (labelled_everywhere P) _ h
  intro identity sid policy seed0 prekeys entropy label nodes root hkept
  simp [blank] at hkept

end Kept

/-! ## Keys along a session -/

section Along

/-- The seed stays and the keys stay canonical. -/
theorem canonical_steps (hideal : IdealAead P) (hs : Reach P s) (h : Steps P s s')
    (hU : ∀ op ∈ s'.operations, op ∈ U) (hcanonical : Canonical P U seed0 s) :
    Canonical P U seed0 s' := by
  induction h with
  | refl => exact hcanonical
  | tail hbefore hlast ih =>
      have hreach := hs.steps hbefore
      have hbeforeU := fun op hop => hU op (hlast.operations hreach.reachable hop)
      exact (ih hbeforeU).step hideal hreach hlast hU

/-- At two points of a run, in any order, all keys are canonical and there is one seed. -/
theorem canonical_along (hideal : IdealAead P) (hs : Reach P s) (hs' : Reach P s')
    (hrun : Steps P s s' ∨ Steps P s' s) (hU : ∀ op ∈ s.operations, op ∈ U)
    (hU' : ∀ op ∈ s'.operations, op ∈ U) :
    ∃ seed0, Canonical P U seed0 s ∧ Canonical P U seed0 s' := by
  rcases hrun with h | h
  · obtain ⟨seed0, hcanonical⟩ := reach_canonical hideal hs hU
    exact ⟨seed0, hcanonical, canonical_steps hideal hs h hU' hcanonical⟩
  · obtain ⟨seed0, hcanonical⟩ := reach_canonical hideal hs' hU'
    exact ⟨seed0, canonical_steps hideal hs' h hU hcanonical, hcanonical⟩

end Along

/-! ## Checks -/

section Checks

variable (P) in
/-- The participant keeps the version and can derive its key. -/
def Derives (p : Participant) (label : BitVec 64) (key : Secret) : Prop :=
  ∃ nodes root, p.seenVersions[label]? = some (nodes, root) ∧
    groupKey P p.seed0 nodes root p.nodekeys = some key

variable (P) in
/-- The label of the version of one participant is that of no other version another one keeps. -/
def Distinct (p q : Participant) : Prop :=
  ∀ kept ∈ p.seenVersions.toList, versionOf P kept.2.1 kept.2.2 = q.version P →
    kept.2 = (q.frontier, q.root P)

/-- A check says that participants diverge if it compares the tag with another one. -/
theorem checkBeacon_eq_diverged {peer : SigPublic} (label : BitVec 64) (tag : Bytes) :
    checkBeacon P p peer (bytesOf label ++ tag) = .diverged ↔
      ∃ key, Derives P p label key ∧ confirmation P key label peer ≠ tag := by
  have hdrop : (bytesOf label ++ tag).drop 8 = tag := List.drop_left' (by simp)
  unfold checkBeacon Derives
  rw [label_of_beacon, hdrop]
  cases hkept : p.seenVersions[label]? with
  | none => simp [hkept]
  | some entry =>
      obtain ⟨nodes, root⟩ := entry
      cases hkey : groupKey P p.seed0 nodes root p.nodekeys with
      | none => simp [hkept, hkey]
      | some key => simp [hkept, hkey]

/-- The keys of a version agree, at whatever points of a run they are derived. -/
theorem derives_eq (hideal : IdealAead P) (hcommit : Function.Injective (commitment P))
    (hs : Reach P s) (hs' : Reach P s') (hrun : Steps P s s' ∨ Steps P s' s)
    (hoid : Set.InjOn (Op.oid P) {op | op ∈ s.operations ∨ op ∈ s'.operations})
    (hp : p ∈ s.parties) (hq : q ∈ s'.parties) (hdistinct : Distinct P p q) {key key' : Secret}
    (hkey : Derives P p (q.version P) key) (hkey' : q.groupKey P = some key') : key = key' := by
  obtain ⟨nodes, root, hkept, hkey⟩ := hkey
  have hlabel := reachable_labelled (hs.reachable p hp) _ _ _ hkept
  have hmem := Std.ExtTreeMap.mem_toList_iff_getElem?_eq_some.mpr hkept
  cases hdistinct _ hmem hlabel.symm
  obtain ⟨seed0, hcanonical, hcanonical'⟩ := canonical_along hideal hs hs' hrun
    (fun op => Or.inl) fun op => Or.inr
  rw [hcanonical.seed p hp] at hkey
  rw [Participant.groupKey, hcanonical'.seed q hq] at hkey'
  exact groupKey_unique hcommit hoid (hcanonical.keys p hp) (hcanonical'.keys q hq) hkey hkey'

end Checks

/-- At any two points of a run, a check of a beacon does not say that its sender diverges exactly if
the sender could derive its group key, or the receiver cannot derive the key of that version, or
its tag is made of zeros. -/
theorem not_diverged_iff (hideal : IdealAead P) (hcommit : Function.Injective (commitment P))
    (hs : Reach P s) (hs' : Reach P s') (hrun : Steps P s s' ∨ Steps P s' s)
    (hoid : Set.InjOn (Op.oid P) {op | op ∈ s.operations ∨ op ∈ s'.operations})
    (hp : p ∈ s.parties) (hq : q ∈ s'.parties) (hdistinct : Distinct P p q) :
    checkBeacon P p q.ipk (beacon P q) ≠ .diverged ↔ q.canDerive P ∨
      ∀ key, Derives P p (q.version P) key →
        confirmation P key (q.version P) q.ipk = [0, 0, 0, 0] := by
  unfold beacon Participant.canDerive
  rw [Ne, checkBeacon_eq_diverged]
  cases hkey : q.groupKey P with
  | none => simp
  | some key =>
      refine iff_of_true ?_ (Or.inl rfl)
      rintro ⟨key', hderives, hne⟩
      exact hne (by rw [derives_eq hideal hcommit hs hs' hrun hoid hp hq hdistinct hderives hkey])

/-! ## A late contribution -/

section Scenario

/-- The founder and the guest hold the same version, and both can derive its key. -/
theorem settled_confirmable : ∃ p ∈ (settled revealing).parties,
    ∃ q ∈ (settled revealing).parties,
      p.ipk ≠ q.ipk ∧ Distinct revealing p q ∧ q.canDerive revealing := by
  unfold Distinct
  decide +kernel

theorem settled_not_diverged : ∃ p ∈ (settled revealing).parties,
    ∃ q ∈ (settled revealing).parties, p.ipk ≠ q.ipk ∧ q.canDerive revealing ∧
      checkBeacon revealing p q.ipk (beacon revealing q) ≠ .diverged := by
  obtain ⟨hcreate, hwelcome, haccept, hrenewal⟩ := settled_checks
  obtain ⟨p, hp, q, hq, hne, hdistinct, hderive⟩ := settled_confirmable
  have hreach := settled_reach hcreate hwelcome haccept hrenewal
  refine ⟨p, hp, q, hq, hne, hderive, ?_⟩
  apply (not_diverged_iff revealing_ideal _ hreach hreach (Or.inl .refl) _ hp hq hdistinct).mpr
  · exact Or.inl hderive
  · intro x y hxy
    rwa [commitment_revealing, commitment_revealing] at hxy
  · intro a ha b hb
    exact settled_equal.1 a (or_self_iff.mp ha) b (or_self_iff.mp hb)

variable (P)

/-- The guest has new prekeys before the contribution of the founder arrives. -/
def renewed : Participant :=
  Call.rotatePrekeys.run P (guest P)

def expectant : Session :=
  (entered P).call P 1 (guest P) .rotatePrekeys

/-- The contribution was sealed to the prekey that is gone. -/
def late : Session :=
  (expectant P).call P 1 (renewed P) (.handle (renewal P))

variable {P}

theorem late_reach (hcreate : (create P (.leaderless 2) hostEntropy).isOk)
    (hwelcome : Delivered P (invited P) (welcome P))
    (haccept : ((guestJoin P).accept P (welcome P)).isOk)
    (hrenewal : Delivered P (entered P) (renewal P)) : Reach P (late P) := by
  obtain ⟨m, hm, hsent⟩ := hrenewal.parsed
  have hstill : m ∈ (expectant P).sent := List.mem_append_left _ hsent
  have hexpectant : Step P (entered P) (expectant P) := .called rfl _ trivial
  have hlate : Step P (expectant P) (late P) := .called rfl _ (genuine_of_sent hm hstill)
  exact (entered_reach hcreate hwelcome haccept).steps ((ReflTransGen.single hexpectant).tail hlate)

/-- The founder says that the guest diverges, which has the same version and no key. -/
theorem late_diverged : Reach revealing (late revealing) ∧
    ∃ p ∈ (late revealing).parties, ∃ q ∈ (late revealing).parties,
      p.version revealing = q.version revealing ∧ q.groupKey revealing = none ∧
        checkBeacon revealing p q.ipk (beacon revealing q) = .diverged := by
  obtain ⟨hcreate, hwelcome, haccept, hrenewal⟩ := settled_checks
  exact ⟨late_reach hcreate hwelcome haccept hrenewal, by decide +kernel⟩

end Scenario

end CausalFrontierRatchet.KeyConfirmation
