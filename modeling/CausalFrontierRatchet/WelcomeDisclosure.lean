import CausalFrontierRatchet.Authorisation
import CausalFrontierRatchet.FrontierKeys
import CausalFrontierRatchet.OperationCodec

/-!
What a welcome discloses.  Its sealed payload holds the seed and the node keys of the frontier at
the admission; an admission and a rotation of prekeys are no contributions, so this is the frontier
before the admission.
-/

namespace CausalFrontierRatchet.WelcomeDisclosure

open BigEndian Crypto Tlv PrefixCodec TlvCodec OperationCodec Operation OperationGraph KeySchedule
open Messages Commands Member MemberSteps MemberRuns FrontierKeys

/-! ## The payload -/

section Payload

theorem entry_exact : Exact (fun _ : Oid × Secret => True) writeEntry readEntry where
  complete := by
    intro entry rest _
    rw [readEntry, writeEntry, List.append_assoc,
      (array_exact (by decide) (by decide)).bind_complete trivial,
      (array_exact (by decide) (by decide)).bind_complete trivial]
    rfl
  sound := by
    intro input rest entry h
    obtain ⟨oid, mid, -, rfl, h₁⟩ := (array_exact (by decide) (by decide)).bind_sound h
    obtain ⟨key, mid', -, rfl, h₂⟩ := (array_exact (by decide) (by decide)).bind_sound h₁
    cases h₂
    exact ⟨trivial, by simp [writeEntry]⟩

theorem parseWelcomePayload_build (seed0 : Secret) {entries : List (Oid × Secret)}
    (hlength : entries.length ≤ MAX_ITEMS) :
    parseWelcomePayload (buildWelcomePayload seed0 entries) = .ok (seed0, entries) := by
  have hread : (do
      let seed0 ← Reader.array 256
      let entries ← Reader.list readEntry
      pure (seed0, entries) : Reader (Secret × List (Oid × Secret)))
        (buildWelcomePayload seed0 entries) = .ok ((seed0, entries), []) := by
    rw [buildWelcomePayload, (array_exact (by decide) (by decide)).bind_complete trivial,
      ← List.append_nil (Writer.list writeEntry entries),
      (list_exact entry_exact).bind_complete ⟨hlength, fun _ _ => trivial⟩]
    rfl
  rw [parseWelcomePayload, Reader.whole, bind_of_ok hread]
  rfl

variable {store : NodeKeys}

theorem mem_of_heldKeys {nodes : List Oid} {entries : List (Oid × Secret)}
    (h : heldKeys store nodes = some entries) :
    entries.map Prod.fst = nodes ∧ ∀ entry ∈ entries, store.peek entry.1 = some entry.2 := by
  induction nodes generalizing entries with
  | nil =>
      cases h
      exact ⟨rfl, by simp⟩
  | cons n nodes ih =>
      simp only [heldKeys, List.mapM_cons, Option.bind_eq_bind, Option.bind_eq_some_iff,
        Option.map_eq_some_iff, Option.pure_def, Option.some.injEq] at h
      obtain ⟨entry, ⟨key, hkey, rfl⟩, rest, hrest, rfl⟩ := h
      obtain ⟨hnodes, hpeek⟩ := ih hrest
      refine ⟨by rw [List.map_cons, hnodes], fun e he => ?_⟩
      rcases List.mem_cons.mp he with rfl | htail
      · exact hkey
      · exact hpeek e htail

/-- The keys held for different nodes are no more than the store may hold. -/
theorem length_heldKeys (hstore : Regular store) {nodes : List Oid} (hnodup : nodes.Nodup)
    {entries : List (Oid × Secret)} (h : heldKeys store nodes = some entries) :
    entries.length ≤ store.capacity := by
  obtain ⟨hnodes, hpeek⟩ := mem_of_heldKeys h
  have hsubset : nodes ⊆ store.order := by
    intro n hn
    rw [← hnodes] at hn
    obtain ⟨entry, hentry, rfl⟩ := List.mem_map.mp hn
    rw [hstore.held, ← Std.ExtTreeMap.contains_iff_mem]
    exact NodeKeys.contains_iff_peek.mpr ⟨entry.2, hpeek entry hentry⟩
  calc entries.length = nodes.length := by rw [← hnodes, List.length_map]
    _ ≤ store.order.length := (hnodup.subperm hsubset).length_le
    _ ≤ store.capacity := hstore.within

/-- A fresh store with the keys of the nodes derives the same group key. -/
theorem groupKey_rebuilt {P : Primitives} (hstore : Regular store)
    (hcapacity : store.capacity = OVERLAP) {nodes : OidSet} {entries : List (Oid × Secret)}
    (h : heldKeys store nodes.toList = some entries) (seed0 : Secret) (root : BitVec 256) :
    groupKey P seed0 nodes root (storeAll .default entries) = groupKey P seed0 nodes root store := by
  have hnodup := nodup_toList nodes
  have hlength := length_heldKeys hstore hnodup h
  obtain ⟨hnodes, hpeek⟩ := mem_of_heldKeys h
  rw [hcapacity] at hlength
  have hroom : NodeKeys.default.order.length + entries.length ≤ NodeKeys.default.capacity := by
    simpa [NodeKeys.default, NodeKeys.withCapacity, OVERLAP] using hlength
  have hrebuilt := regular_default.peek_storeAll hroom (by rwa [hnodes])
  have hcombine : (storeAll .default entries).combine nodes = store.combine nodes := by
    refine combine_congr fun n hn => ?_
    rw [← Std.ExtTreeSet.mem_toList, ← hnodes] at hn
    obtain ⟨entry, hentry, rfl⟩ := List.mem_map.mp hn
    rw [hrebuilt.1 entry hentry, hpeek entry hentry]
  rw [groupKey, groupKey, hcombine]

end Payload

/-! ## Inviting -/

section Inviting

variable {P : Primitives} {p p' : Participant}

/-- What inviting keeps until the welcome is made. -/
structure Quiet (P : Primitives) (p p' : Participant) : Prop where
  seed0 : p'.seed0 = p.seed0
  nodekeys : p'.nodekeys = p.nodekeys
  frontier : p'.frontier = p.frontier
  sound : Sound P p'.dag

theorem Quiet.trans {q : Participant} (h : Quiet P p q) (h' : Quiet P q p') : Quiet P p p' where
  seed0 := h'.seed0.trans h.seed0
  nodekeys := h'.nodekeys.trans h.nodekeys
  frontier := h'.frontier.trans h.frontier
  sound := h'.sound

theorem publish_quiet {body : Body} {op : Op} (h : publish P body p = (.ok op, p'))
    (hsound : Sound P p.dag) (hkind : body.kind ≠ .contrib) : Quiet P p p' := by
  obtain ⟨rfl, dag, rfl, ⟨-, rfl⟩ | hadd⟩ := publish_ok h
  · exact ⟨rfl, rfl, rfl, hsound⟩
  · exact ⟨rfl, rfl, frontier_added hadd hsound hkind, hsound.added hadd⟩

theorem rotateWhen_quiet {due : Bool} {out : List Outbound} (hsound : Sound P p.dag)
    (h : rotateWhen P due p = (.ok out, p')) : Quiet P p p' := by
  unfold rotateWhen at h
  split_ifs at h with hdue
  · obtain ⟨rotation, p₁, hrotate, h₁⟩ := bind_ok h
    cases h₁
    obtain ⟨secret, p₂, hdraw, h₂⟩ := bind_ok hrotate
    obtain ⟨rest, -, rfl⟩ := draw_ok hdraw
    obtain ⟨_, p₃, hmodify, h₃⟩ := bind_ok h₂
    cases hmodify
    obtain ⟨_, _, hget, h₄⟩ := bind_ok h₃
    cases hget
    obtain ⟨op, p₄, hpublish, h₅⟩ := bind_ok h₄
    cases h₅
    have hquiet := publish_quiet hpublish hsound (by simp [Body.kind])
    exact ⟨hquiet.seed0, hquiet.nodekeys, hquiet.frontier, hquiet.sound⟩
  · cases h
    exact ⟨rfl, rfl, rfl, hsound⟩

/-- The steps of an invitation that succeeds. -/
theorem invite_ok {kp : KeyPackage} {out : List Outbound} (h : invite P kp p = (.ok out, p')) :
    kp.verify P = .ok () ∧ p.ipk ∈ p.members ∧
      ∃ add p₁ rotation p₂ welcome p₃ contribution p₄,
        publish P (.add kp.ipk)
          { p with peerPrekeys := p.peerPrekeys.insert kp.ipk (kp.gen, kp.prekey) } = (.ok add, p₁) ∧
        rotateWhen P p.prekeys.isSealed p₁ = (.ok rotation, p₂) ∧
        welcomeFor P kp p₂ = (.ok welcome, p₃) ∧ contribute P p₃ = (.ok contribution, p₄) ∧
        noteVersion P p₄ = (.ok (), p') ∧
        out = [.broadcast (.op add)] ++ rotation ++ [.direct kp.ipk welcome] ++ contribution := by
  obtain ⟨_, _, hverify, h₁⟩ := bind_ok h
  rw [lift_run] at hverify
  cases hkp : kp.verify P with
  | error e =>
      rw [hkp] at hverify
      cases hverify
  | ok _ =>
      rw [hkp] at hverify
      cases hverify
      obtain ⟨_, _, hget, h₂⟩ := bind_ok h₁
      cases hget
      split at h₂
      · cases h₂
      rename_i hmember
      obtain ⟨_, _, hmodify, h₃⟩ := bind_ok h₂
      cases hmodify
      obtain ⟨add, p₁, hadd, h₄⟩ := bind_ok h₃
      obtain ⟨rotation, p₂, hrotate, h₅⟩ := bind_ok h₄
      obtain ⟨welcome, p₃, hwelcome, h₆⟩ := bind_ok h₅
      obtain ⟨contribution, p₄, hcontribute, h₇⟩ := bind_ok h₆
      obtain ⟨_, p₅, hnote, h₈⟩ := bind_ok h₇
      cases h₈
      refine ⟨rfl, by simpa [← Std.ExtTreeSet.contains_iff_mem] using hmember, ?_⟩
      exact ⟨add, p₁, rotation, p₂, welcome, p₃, contribution, p₄, hadd, hrotate, hwelcome,
        hcontribute, hnote, rfl⟩

/-- A welcome, with the payload that is sealed in it. -/
def welcomeWith (P : Primitives) (sid : SessionId) (sender : SigPublic) (kp : KeyPackage)
    (eph shared : Secret) (payload : Bytes) (history : List Op) : Message :=
  .welcome sid sender
    { eph := P.x25519Public eph, gen := kp.gen
      ct := aeadSeal P (envelopeKey P shared sid sender kp.ipk)
        (envelopeNonce P "welcome" sid (P.x25519Public eph)) payload
        (envelopeAd P "cfr/welcome/ad" sid sender kp.ipk) }
    history []

theorem welcomeFor_ok {kp : KeyPackage} {welcome : Message}
    (h : welcomeFor P kp p = (.ok welcome, p')) :
    ∃ entries eph shared rest, heldKeys p.nodekeys p.frontier.toList = some entries ∧
      p.entropy = eph :: rest ∧ P.x25519Agree eph kp.prekey = some shared ∧
      p' = { p with entropy := rest } ∧
      welcome = welcomeWith P p.sid p.ipk kp eph shared (buildWelcomePayload p.seed0 entries)
        (p.dag.topological.filterMap fun o => p.dag.get o) := by
  obtain ⟨_, _, hget, h₁⟩ := bind_ok h
  cases hget
  cases hentries : heldKeys p.nodekeys p.frontier.toList with
  | none =>
      simp only [hentries] at h₁
      cases h₁
  | some entries =>
      simp only [hentries] at h₁
      obtain ⟨sealed, p₁, hseal, h₂⟩ := bind_ok h₁
      cases h₂
      obtain ⟨eph, shared, rest, hentropy, hshared, rfl, rfl⟩ := sealEnvelope_ok hseal
      exact ⟨entries, eph, shared, rest, rfl, hentropy, hshared, rfl, rfl⟩

variable (P) in
/-- The seed and the entries of a welcome's sealed payload. -/
def Conveys (kp : KeyPackage) (welcome : Message) (seed0 : Secret) (entries : List (Oid × Secret)) :
    Prop :=
  ∃ sid sender eph shared payload history, P.x25519Agree eph kp.prekey = some shared ∧
    parseWelcomePayload payload = .ok (seed0, entries) ∧
    welcome = welcomeWith P sid sender kp eph shared payload history

variable (P) in
/-- No node set within the payload of the welcome and no roster give the group key that was current
before the invitation. -/
def Conceals (p : Participant) (kp : KeyPackage) : Prop :=
  ∀ K out p' welcome seed0 entries, p.groupKey P = some K → invite P kp p = (.ok out, p') →
    .direct kp.ipk welcome ∈ out → Conveys P kp welcome seed0 entries →
    ∀ (nodes : OidSet) (root : BitVec 256), (∀ n ∈ nodes, n ∈ entries.map Prod.fst) →
      groupKey P seed0 nodes root (storeAll .default entries) ≠ some K

/-- The welcome carries the keys of the frontier before the invitation. -/
theorem invite_conveys (hp : Reachable P p) {kp : KeyPackage} {out : List Outbound}
    (h : invite P kp p = (.ok out, p')) :
    ∃ welcome entries, .direct kp.ipk welcome ∈ out ∧ Conveys P kp welcome p.seed0 entries ∧
      heldKeys p.nodekeys p.frontier.toList = some entries := by
  have hsound := hp.wellformed.sound
  obtain ⟨-, -, add, p₁, rotation, p₂, welcome, p₃, contribution, p₄, hadd, hrotate, hwelcome, -, -,
    rfl⟩ := invite_ok h
  have hquiet₁ := publish_quiet hadd hsound (by simp [Body.kind])
  have hquiet := hquiet₁.trans (rotateWhen_quiet hquiet₁.sound hrotate)
  obtain ⟨entries, eph, shared, rest, hentries, -, hshared, -, hmade⟩ := welcomeFor_ok hwelcome
  rw [hquiet.seed0] at hmade
  rw [hquiet.nodekeys, hquiet.frontier] at hentries
  refine ⟨welcome, entries, by simp, ?_, hentries⟩
  obtain ⟨hstore, hcapacity⟩ := Reach.stocked hp
  have hlength := length_heldKeys hstore (nodup_toList _) hentries
  rw [hcapacity] at hlength
  exact ⟨_, _, eph, shared, _, _, hshared,
    parseWelcomePayload_build p.seed0 (hlength.trans (by decide)), hmade⟩

/-- From the frontier's own entries and the old roster the old key follows. -/
theorem discloses_of_held (hp : Reachable P p) {entries : List (Oid × Secret)}
    (h : heldKeys p.nodekeys p.frontier.toList = some entries) :
    (∀ n ∈ p.frontier, n ∈ entries.map Prod.fst) ∧
      groupKey P p.seed0 p.frontier (p.root P) (storeAll .default entries) = p.groupKey P := by
  obtain ⟨hstore, hcapacity⟩ := Reach.stocked hp
  refine ⟨fun n hn => ?_, groupKey_rebuilt hstore hcapacity h p.seed0 (p.root P)⟩
  rw [(mem_of_heldKeys h).1]
  exact Std.ExtTreeSet.mem_toList.mpr hn

/-- Whenever an invitation succeeds, its welcome determines the group key that was current
before. -/
theorem invitation_never_conceals (hp : Reachable P p) {K : Secret} (hK : p.groupKey P = some K)
    {kp : KeyPackage} {out : List Outbound} (h : invite P kp p = (.ok out, p')) :
    ¬Conceals P p kp := by
  intro hconceals
  obtain ⟨welcome, entries, hout, hconveys, hentries⟩ := invite_conveys hp h
  obtain ⟨hnodes, hkey⟩ := discloses_of_held hp hentries
  exact hconceals K out p' welcome p.seed0 entries hK h hout hconveys p.frontier (p.root P) hnodes
    (hkey.trans hK)

end Inviting

/-! ## A founder that invites a guest -/

section Scenario

open Authorisation

def guestPackage : KeyPackage :=
  (⟨2, .at_ toy 0 21, .leaderless 2, []⟩ : PendingJoin).keyPackage toy

theorem opener_reachable : Reachable toy opener :=
  ⟨_, opener_start, .start⟩

theorem opener_invites :
    ∃ K out p', opener.groupKey toy = some K ∧ invite toy guestPackage opener = (.ok out, p') := by
  have hchecks : (opener.groupKey toy).isSome ∧ (invite toy guestPackage opener).1.isOk := by
    decide +kernel
  obtain ⟨K, hK⟩ := Option.isSome_iff_exists.mp hchecks.1
  cases hrun : invite toy guestPackage opener with
  | mk r p' =>
      cases r with
      | error e =>
          rw [hrun] at hchecks
          exact absurd hchecks.2 (by simp [Except.isOk, Except.toBool])
      | ok out => exact ⟨K, out, p', hK, rfl⟩

theorem opener_invitation_discloses :
    (∃ K, opener.groupKey toy = some K) ∧ ¬Conceals toy opener guestPackage := by
  obtain ⟨K, out, p', hK, hrun⟩ := opener_invites
  exact ⟨⟨K, hK⟩, invitation_never_conceals opener_reachable hK hrun⟩

/-- The guest computes the key of the founder alone from its welcome. -/
theorem guest_learns_earlier_key : Reachable toy opener ∧
    ∃ K out p' welcome entries, opener.groupKey toy = some K ∧
      invite toy guestPackage opener = (.ok out, p') ∧ .direct guestPackage.ipk welcome ∈ out ∧
      Conveys toy guestPackage welcome opener.seed0 entries ∧
      (∀ n ∈ opener.frontier, n ∈ entries.map Prod.fst) ∧
      groupKey toy opener.seed0 opener.frontier (opener.root toy) (storeAll .default entries) =
        some K := by
  obtain ⟨K, out, p', hK, hrun⟩ := opener_invites
  obtain ⟨welcome, entries, hout, hconveys, hentries⟩ := invite_conveys opener_reachable hrun
  obtain ⟨hnodes, hgroup⟩ := discloses_of_held opener_reachable hentries
  exact ⟨opener_reachable, K, out, p', welcome, entries, hK, hrun, hout, hconveys, hnodes,
    hgroup.trans hK⟩

end Scenario

end CausalFrontierRatchet.WelcomeDisclosure
