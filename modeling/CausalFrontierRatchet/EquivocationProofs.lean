import CausalFrontierRatchet.Authorisation
import CausalFrontierRatchet.ContributionLedger
import CausalFrontierRatchet.IdealSealing
import CausalFrontierRatchet.TlvCodec

/-!
What an accusation proves.  An identity is held guilty only on an accusation whose revealed key
opens a slice of one of its contributions to a secret other than the committed one.  The slices that
contributing seals all hold the committed secret, and an ideal cipher opens them to nothing else, so
nobody who only contributes that way can be convicted, whatever is accused, revealed or copied.
-/

namespace CausalFrontierRatchet.EquivocationProofs

open Relation BigEndian Crypto Operation CausalMembership KeySchedule
open Messages Commands Member MemberSteps MemberRuns MemberActions Authorisation RemoveWins
open ContributionLedger TlvCodec IdealSealing

variable {P : Primitives} {p p' : Participant} {who : SigPublic}

/-! ## Convictions -/

section Convictions

variable (P)

/-- Some accusation of the identity checks out. -/
def Convictable (p : Participant) (who : SigPublic) : Prop :=
  ∃ acc coid key seq, acc.body = .accuse who coid key seq ∧ p.checkAccusation P acc

def Convicted (p : Participant) : Prop :=
  ∀ who ∈ p.guilty, Convictable P p who

variable {P}

theorem Convictable.later (hsid : p'.sid = p.sid)
    (hkeeps : ∀ o op, p.dag.get o = some op → p'.dag.get o = some op) (h : Convictable P p who) :
    Convictable P p' who := by
  obtain ⟨acc, coid, key, seq, hbody, hcheck⟩ := h
  exact ⟨acc, coid, key, seq, hbody, checkAccusation_mono hsid hkeeps hcheck⟩

theorem Convicted.update {src : Op → Prop} {rep : Oid → Secret → Prop}
    (h : Update P src rep p p') (hp : Convicted P p) : Convicted P p' := by
  have hkept : p'.guilty = p.guilty → Convicted P p' := by
    intro hguilty other hother
    rw [hguilty] at hother
    exact (hp other hother).later (Steps.sameParty h.steps).sid fun _ _ => (Steps.keeps h.steps)
  cases h with
  | guilty hheld hbody hcheck =>
      intro other hother
      rcases Std.ExtTreeSet.mem_insert.mp hother with heq | hold
      · rw [← Std.compare_eq_iff_eq.mp heq]
        exact ⟨_, _, _, _, hbody, hcheck⟩
      · exact hp other hold
  | _ => exact hkept rfl

/-- Whoever is guilty can be convicted from the graph alone. -/
theorem Reachable.convicted (h : Reachable P p) : Convicted P p := by
  refine Reach.invariant h (fun identity sid policy seed0 prekeys entropy other hother => ?_)
    fun q q' hupdate hq => hq.update hupdate
  simp [blank] at hother

end Convictions

/-! ## Contributions that were produced by contributing -/

section Produced

variable (P) in
/-- The operation came out of a contribution of the identity, in whatever state it made it. -/
def Produced (who : SigPublic) (op : Op) : Prop :=
  ∃ q exclude out q', q.ipk = who ∧ contributeExcluding P exclude q = (.ok out, q') ∧
    .broadcast (.op op) ∈ out

theorem contributeTo_sliced {members : Roster} {recips : List SigPublic} {out : List Outbound}
    {op : Op} (h : contributeTo P members recips p = (.ok out, p'))
    (hop : .broadcast (.op op) ∈ out) :
    ∃ x cparents slices view, Sliced P x recips slices ∧
      op.body = .contrib (commitment P x) cparents recips slices view := by
  unfold contributeTo at h
  obtain ⟨_, _, hget, h⟩ := bind_ok h
  cases hget
  dsimp only at h
  split_ifs at h
  · cases h
  obtain ⟨x, p₁, -, h⟩ := bind_ok h
  obtain ⟨slices, p₂, hseal, h⟩ := bind_ok h
  obtain ⟨own, p₃, hpublish, h⟩ := bind_ok h
  obtain ⟨_, p₄, -, h⟩ := bind_ok h
  obtain ⟨_, p₅, -, h⟩ := bind_ok h
  cases h
  cases List.mem_singleton.mp hop
  refine ⟨x, p.chainableParents members, slices, p.root P, sealSlices_sliced hseal, ?_⟩
  rw [(publish_ok hpublish).1]
  rfl

/-- The slices of a contribution that was produced hold the secret it commits to. -/
theorem Produced.sliced {op : Op} (h : Produced P who op) (hkind : op.kind = .contrib) :
    ∃ x cparents recips slices view, Sliced P x recips slices ∧
      op.body = .contrib (commitment P x) cparents recips slices view := by
  obtain ⟨q, exclude, out, q', -, hrun, hop⟩ := h
  unfold contributeExcluding at hrun
  obtain ⟨_, _, hget, hrun⟩ := bind_ok hrun
  cases hget
  dsimp only at hrun
  split_ifs at hrun
  · cases hrun
  · cases hrun
  · obtain ⟨own, q₁, hpublish, hrun⟩ := bind_ok hrun
    cases hrun
    cases List.mem_singleton.mp hop
    rw [(publish_ok hpublish).1] at hkind
    cases hkind
  · obtain ⟨x, cparents, slices, view, hsliced, hbody⟩ := contributeTo_sliced hrun hop
    exact ⟨x, cparents, _, slices, view, hsliced, hbody⟩

end Produced

/-! ## Accusations of an honest contributor -/

section Accusations

variable (P) in
/-- Every contribution of the identity in the graph was produced by contributing. -/
def Honest (p : Participant) (who : SigPublic) : Prop :=
  ∀ o op, p.dag.get o = some op → op.author = who → op.kind = .contrib → Produced P who op

/-- An accusation that checks out opens a stored contribution of the accused to a secret it does not
commit to. -/
theorem checkAccusation_opens {acc : Op} {coid : Oid} {key : Secret} {seq : UInt64}
    (hbody : acc.body = .accuse who coid key seq) (hcheck : p.checkAccusation P acc) :
    ∃ src cid cparents recips slices view slice n ad plain y, p.dag.get coid = some src ∧
      src.author = who ∧ src.body = .contrib cid cparents recips slices view ∧ slice ∈ slices ∧
      aeadOpen P key n slice.ct ad = some plain ∧ fromSlice 256 plain = some y ∧
      commitment P y ≠ cid := by
  unfold Participant.checkAccusation at hcheck
  simp only [hbody] at hcheck
  cases hsrc : p.dag.get coid with
  | none => simp [hsrc] at hcheck
  | some src =>
      simp only [hsrc] at hcheck
      cases hcontrib : src.body with
      | contrib cid cparents recips slices view =>
          simp only [hcontrib] at hcheck
          split_ifs at hcheck with hauthor
          split at hcheck
          · cases hcheck
          · rename_i slice hslice
            split at hcheck
            · cases hcheck
            · rename_i y hopened
              obtain ⟨plain, hplain, hy⟩ := Option.bind_eq_some_iff.mp hopened
              exact ⟨src, cid, cparents, recips, slices, view, slice, _, _, plain, y, rfl,
                not_not.mp hauthor, hcontrib, List.mem_of_find?_eq_some hslice, hplain, hy,
                of_decide_eq_true hcheck⟩
      | _ => simp [hcontrib] at hcheck

theorem Honest.not_convictable (hideal : IdealAead P) (h : Honest P p who) :
    ¬Convictable P p who := by
  rintro ⟨acc, coid, key, seq, hbody, hcheck⟩
  obtain ⟨src, cid, cparents, recips, slices, view, slice, n, ad, plain, y, hsrc, hauthor, hcontrib,
    hslice, hopen, hplain, hother⟩ := checkAccusation_opens hbody hcheck
  have hkind : src.kind = .contrib := by
    rw [Op.kind, hcontrib]
    rfl
  obtain ⟨x, _, _, slices', _, hsliced, hproduced⟩ := (h coid src hsrc hauthor hkind).sliced hkind
  rw [hcontrib] at hproduced
  cases hproduced
  obtain ⟨key', n', ad', hct⟩ := hsliced.sealed slice hslice
  rw [hct] at hopen
  rw [hideal.opened hopen, fromSlice_bytesOf (by decide)] at hplain
  exact hother (congrArg (commitment P) (Option.some.inj hplain)).symm

theorem proves_remove {m : Membership} {op : Op} (hinnocent : who ∉ m.guilty)
    (h : m.proves who op) : op.body = .remove who := by
  unfold Membership.proves at h
  split at h
  · rename_i target hbody
    rw [Bool.and_eq_true] at h
    rw [hbody, of_decide_eq_true h.1]
  · rw [Bool.and_eq_true] at h
    exact absurd (Std.ExtTreeSet.contains_iff_mem.mp h.2) hinnocent
  · cases h

theorem votesFor_remove {m : Membership} {op : Op} (h : m.votesFor who op) :
    op.body = .remove who := by
  unfold Membership.votesFor at h
  split at h
  · rename_i target hbody
    rw [Bool.and_eq_true] at h
    rw [hbody, of_decide_eq_true h.1]
  · cases h

/-- What counts against an innocent identity, in any part of the graph, is a removal. -/
theorem counted_remove {m : Membership} {keep : Option OidSet} {o : Oid}
    (hinnocent : who ∉ m.guilty) (ho : o ∈ m.countedRemovesIn who keep) :
    ∃ op, m.dag.get o = some op ∧ op.body = .remove who := by
  have hproven : ∀ entry ∈ (m.iter keep).filter fun entry => m.proves who entry.2,
      entry.1 = o → ∃ op, m.dag.get o = some op ∧ op.body = .remove who := by
    rintro ⟨o', op⟩ hentry rfl
    obtain ⟨hiter, hproves⟩ := List.mem_filter.mp hentry
    exact ⟨op, (mem_iter.mp hiter).1, proves_remove hinnocent hproves⟩
  have hvoted : ∀ entry ∈ (m.votes who keep).toList, entry.2 = o →
      ∃ op, m.dag.get o = some op ∧ op.body = .remove who := by
    rintro ⟨author, o'⟩ hentry rfl
    rw [Std.ExtTreeMap.mem_toList_iff_getElem?_eq_some, votes_get, Option.map_eq_some_iff] at hentry
    obtain ⟨⟨o', op⟩, hfind, rfl⟩ := hentry
    have hvotes := List.find?_some hfind
    rw [Bool.and_eq_true] at hvotes
    exact ⟨op, (mem_iter.mp (List.mem_of_find?_eq_some hfind)).1, votesFor_remove hvotes.1⟩
  unfold Membership.countedRemovesIn at ho
  dsimp only at ho
  split_ifs at ho
  · rw [List.mem_append, List.mem_map, List.mem_map] at ho
    rcases ho with ⟨entry, hentry, heq⟩ | ⟨entry, hentry, heq⟩
    · exact hproven entry hentry heq
    · exact hvoted entry hentry heq
  · obtain ⟨entry, hentry, heq⟩ := List.mem_map.mp ho
    exact hproven entry hentry heq

end Accusations

/-- With an ideal cipher, a participant that has been sent anything at all does not hold an honest
contributor guilty: nothing but removals counts against it, in the whole graph or in the past of any
operation, and it is a member exactly if it survives those. -/
theorem honest_contributor_innocent {P : Primitives} {p : Participant} {who : SigPublic}
    (hp : Reachable P p) (hideal : IdealAead P) (hhonest : Honest P p who) :
    who ∉ p.guilty ∧
    (∀ keep, ∀ o ∈ p.membership.countedRemovesIn who keep,
      ∃ op, p.dag.get o = some op ∧ op.body = .remove who) ∧
    (who ∈ p.members ↔ Survives p.membership who False) := by
  have hinnocent : who ∉ p.guilty := fun hguilty =>
    hhonest.not_convictable hideal (Reachable.convicted hp who hguilty)
  refine ⟨hinnocent, fun keep o ho => counted_remove hinnocent ho, ?_⟩
  rw [← iff_false_intro hinnocent]
  exact mem_members_iff_survives (m := p.membership) hp.wellformed.sound

/-! ## A false accusation -/

section Scenario

def newcomer : PendingJoin :=
  ⟨2, .at_ recording 0 21, .leaderless 2, []⟩

/-- A founder that has invited a guest. -/
def inviter : Participant :=
  (Call.invite (newcomer.keyPackage recording)).run recording
    (founded recording (.leaderless 2) ([1, 5, 6, 7] ++ List.replicate 8 11))

/-- The guest admits a third party, and the founder knows. -/
def admission : Op :=
  Op.create recording 2 5 inviter.dag.heads (.add 3)

def joined : Participant :=
  (Call.handle (Message.op admission).toWire).run recording inviter

/-- The guest with the same view of the conference. -/
def guest : Participant :=
  { joined with
    identity := 2, ipk := 2, send := ∅
    peerPrekeys := .ofList [((1 : SigPublic), ((0 : UInt32), (7 : DhPublic))), (3, (0, 9))] }

/-- What the guest contributes. -/
def contributed : List Outbound :=
  ((contributeExcluding recording ∅ guest).1.toOption).getD []

def contribution : Op :=
  (contributed.filterMap fun o =>
    match o with
    | .broadcast (.op op) => some op
    | _ => none).headD admission

/-- The third party accuses the guest and reveals some key. -/
def accusation : Op :=
  Op.create recording 3 5 (.ofList [contribution.oid recording])
    (.accuse 2 (contribution.oid recording) 4 0)

def accused : Participant :=
  (Call.handle (Message.deliver [contribution, accusation] []).toWire).run recording joined

theorem accused_reachable : Reachable recording accused := by
  have hcreate : ∃ out, create recording (.leaderless 2) ([1, 5, 6, 7] ++ List.replicate 8 11) =
      .ok (out, founded recording (.leaderless 2) ([1, 5, 6, 7] ++ List.replicate 8 11)) :=
    create_founded (by decide +kernel)
  obtain ⟨out, hcreate⟩ := hcreate
  have hfounded : Reachable recording (founded recording (.leaderless 2) _) :=
    ⟨_, .created hcreate, .start⟩
  exact ((hfounded.next _).next _).next _

theorem accused_checks : (contributeExcluding recording ∅ guest).1.isOk ∧
    .broadcast (.op contribution) ∈ contributed ∧
    accused.dag.contains (accusation.oid recording) ∧ 2 ∈ accused.members ∧
    accused.dag.ops.toList.all fun entry =>
      entry.2.author = 2 → entry.2.kind = .contrib → entry.2 = contribution := by
  decide +kernel

theorem accused_honest : Honest recording accused 2 := by
  obtain ⟨hok, hmem, -, -, hall⟩ := accused_checks
  intro o op hop hauthor hkind
  have hentry : (o, op) ∈ accused.dag.ops.toList :=
    Std.ExtTreeMap.mem_toList_iff_getElem?_eq_some.mpr hop
  have honly : op = contribution :=
    of_decide_eq_true (List.all_eq_true.mp hall _ hentry) hauthor hkind
  rw [honly]
  rcases hrun : contributeExcluding recording ∅ guest with ⟨e | out, q⟩
  · rw [hrun] at hok
    cases hok
  · refine ⟨guest, ∅, out, q, rfl, hrun, ?_⟩
    rwa [contributed, hrun] at hmem

/-- The accusation is stored, and the guest is a member as before. -/
theorem accused_innocent : accused.dag.contains (accusation.oid recording) ∧ 2 ∈ accused.members ∧
    2 ∉ accused.guilty ∧ Survives accused.membership 2 False := by
  obtain ⟨hinnocent, -, hsurvives⟩ :=
    honest_contributor_innocent accused_reachable recording_ideal accused_honest
  exact ⟨accused_checks.2.2.1, accused_checks.2.2.2.1, hinnocent,
    hsurvives.mp accused_checks.2.2.2.1⟩

end Scenario

end CausalFrontierRatchet.EquivocationProofs
