import CausalFrontierRatchet.IdealSealing
import CausalFrontierRatchet.MessageCodec
import CausalFrontierRatchet.Sessions

/-!
Agreement on keys.  Every node key that a participant of a session holds is the canonical key of
its operation, on whatever way it was learnt: derived from an own or an opened secret, or taken over
from a welcome or a repair response.  So participants with the same frontier and the same roster
that can derive a group key derive the same one.
-/

namespace CausalFrontierRatchet.KeyAgreement

open Relation BigEndian Crypto Tlv PrefixCodec TlvCodec Operation OperationGraph CausalMembership
open KeySchedule Channel Messages MessageCodec Commands Member MemberRuns FrontierKeys
open WelcomeDisclosure Outputs IdealSealing CanonicalKeys Sessions

variable {P : Primitives} {U : Set Op} {p p' : Participant} {s s' : Session} {seed0 : Secret}

/-! ## What is sealed -/

section Sealed

variable (P) in
/-- The sealed payload of a welcome holds the seed of the session and canonical keys, that of a
repair response canonical keys. -/
def Sealed (U : Set Op) (seed0 : Secret) : Message → Prop
  | .welcome _ _ sealed _ _ => ∃ key n ad payload entries,
      sealed.ct = aeadSeal P key n payload ad ∧
      parseWelcomePayload payload = .ok (seed0, entries) ∧
      ∀ entry ∈ entries, Canon P U entry.1 entry.2
  | .nodeKeyResponse _ sealed => ∃ key n ad payload entries,
      sealed.ct = aeadSeal P key n payload ad ∧ parseNodekeyPayload payload = .ok entries ∧
      ∀ entry ∈ entries, Canon P U entry.1 entry.2
  | _ => True

/-- However an envelope is opened, it opens to what was sealed in it. -/
theorem openEnvelope_payload (hideal : IdealAead P) {pool : PrekeyPool}
    {adLabel nonceLabel : String} {sid : SessionId} {sender recipient : SigPublic}
    {sealed : Envelope} {plain payload ad : Bytes} {key : Secret} {n : BitVec 256}
    (h : openEnvelope P pool adLabel nonceLabel sid sender recipient sealed = .ok plain)
    (hsealed : sealed.ct = aeadSeal P key n payload ad) : plain = payload := by
  unfold openEnvelope at h
  split_ifs at h
  split at h
  · cases h
  dsimp only at h
  split at h
  · cases h
  · rename_i hopen
    cases h
    rw [hsealed] at hopen
    exact hideal.opened hopen

theorem Sealed.repairs (hideal : IdealAead P) {m : Message} (h : Sealed P U seed0 m) {oid : Oid}
    {key : Secret} (hrepairs : MemberSteps.Repairs P p m oid key) : Canon P U oid key := by
  obtain ⟨sender, sealed, plain, entries, rfl, -, hopened, hparsed, hmem, -⟩ := hrepairs
  obtain ⟨k, n, ad, payload, entries', hct, hpayload, hcanon⟩ := h
  rw [openEnvelope_payload hideal hopened hct, hpayload] at hparsed
  cases hparsed
  exact hcanon _ hmem

theorem Sealed.welcome (hideal : IdealAead P) {j : PendingJoin} {wire : Bytes} {m : Message}
    (hm : Message.fromWire P wire = .ok m) (h : Sealed P U seed0 m) (w : Welcome P j wire) :
    w.seed0 = seed0 ∧ ∀ entry ∈ w.entries, Canon P U entry.1 entry.2 := by
  cases hm.symm.trans w.parsed
  obtain ⟨k, n, ad, payload, entries, hct, hpayload, hcanon⟩ := h
  have hparsed := w.payload
  rw [openEnvelope_payload hideal w.opened hct, hpayload] at hparsed
  obtain ⟨hseed, hentries⟩ := Prod.mk.inj (Except.ok.inj hparsed)
  exact ⟨hseed.symm, hentries ▸ hcanon⟩

end Sealed

/-! ## What is sent -/

section Sent

/-- The message carries an operation. -/
def Operational (o : Outbound) : Prop :=
  ∃ op, o.message = .op op

theorem Operational.sealed {o : Outbound} (h : Operational o) : Sealed P U seed0 o.message := by
  obtain ⟨op, heq⟩ := h
  rw [heq]
  trivial

theorem Operational.of_announcement {o : Outbound} (h : Announcement o) : Operational o := by
  obtain ⟨op, gen, pk, -, rfl⟩ := h
  exact ⟨op, rfl⟩

theorem announcement_sealed {o : Outbound} (h : Announcement o) : Sealed P U seed0 o.message :=
  (Operational.of_announcement h).sealed

theorem contributeExcluding_operational {exclude : Roster} {out : List Outbound}
    (h : contributeExcluding P exclude p = (.ok out, p')) : ∀ o ∈ out, Operational o := by
  rw [contributeExcluding, bind_run, get_run] at h
  dsimp only at h
  split_ifs at h
  · cases h
  · cases h
  · obtain ⟨op, p₁, -, h⟩ := bind_ok h
    cases h
    simp [Operational, Outbound.broadcast]
  · rw [contributeTo, bind_run, get_run] at h
    dsimp only at h
    split_ifs at h
    · cases h
    · obtain ⟨x, p₁, -, h⟩ := bind_ok h
      obtain ⟨slices, p₂, -, h⟩ := bind_ok h
      obtain ⟨op, p₃, -, h⟩ := bind_ok h
      obtain ⟨_, p₄, -, h⟩ := bind_ok h
      obtain ⟨_, p₅, -, h⟩ := bind_ok h
      cases h
      simp [Operational, Outbound.broadcast]

theorem parseNodekeyPayload_build {entries : List (Oid × Secret)}
    (hlength : entries.length ≤ MAX_ITEMS) :
    parseNodekeyPayload (buildNodekeyPayload entries) = .ok entries := by
  have hread : Reader.list readEntry (buildNodekeyPayload entries) = .ok (entries, []) := by
    rw [buildNodekeyPayload, ← List.append_nil (Writer.list writeEntry entries)]
    exact (list_exact entry_exact).complete [] ⟨hlength, fun _ _ => trivial⟩
  rw [parseNodekeyPayload, Reader.whole, bind_of_ok hread]
  rfl

/-- The keys that a participant hands out are its own. -/
theorem answered_sealed (hp : HoldsCanonical P U p) {sender : SigPublic} {nodes : List Oid}
    (hnodes : nodes.length ≤ MAX_BATCH) {o : Outbound} {q : Participant}
    (h : answerNodeKeysFor P sender nodes p = (.ok (some o), q)) :
    Sealed P U seed0 o.message := by
  obtain ⟨gen, pk, sealed, -, hseal, rfl⟩ := answerNodeKeysFor_ok h
  obtain ⟨eph, shared, rest, -, -, -, rfl⟩ := MemberSteps.sealEnvelope_ok hseal
  refine ⟨_, _, _, _, _, rfl, parseNodekeyPayload_build ?_, ?_⟩
  · exact ((List.length_filterMap_le _ _).trans hnodes).trans (by decide)
  · intro entry hentry
    obtain ⟨n, -, hn⟩ := List.mem_filterMap.mp hentry
    split_ifs at hn
    obtain ⟨key, hkey, rfl⟩ := Option.map_eq_some_iff.mp hn
    exact hp n key hkey

theorem answerSync_sealed {sender : SigPublic} {heads : List Oid} {o : Outbound}
    (h : o ∈ answerSync p sender heads) : Sealed P U seed0 o.message := by
  unfold answerSync at h
  split at h
  · cases h
  · rcases List.mem_append.mp h with hbatch | hrequest
    · split at hbatch
      · cases hbatch
      · rw [List.mem_singleton.mp hbatch]
        trivial
    · split at hrequest
      · rw [List.mem_singleton.mp hrequest]
        trivial
      · cases hrequest

theorem handle_sealed (hp : HoldsCanonical P U p) {wire : Bytes}
    {result : List Event × List Outbound} (h : handle P wire p = (.ok result, p')) :
    ∀ o ∈ result.2, Sealed P U seed0 o.message := by
  obtain ⟨m, hm, hanswers⟩ := handle_answers h
  intro o ho
  rcases hanswers o ho with hannounced | ⟨sender, heads, rfl, hmem⟩ | ⟨sender, nodes, q, rfl, hrun⟩
  · exact announcement_sealed hannounced
  · exact answerSync_sealed hmem
  · have hnodes : nodes.length ≤ MAX_BATCH := by
      rcases fits_of_fromWire hm with hfits | ⟨c, hc⟩
      · exact hfits.1
      · cases hc
    exact answered_sealed hp hnodes hrun

/-- A welcome holds the seed and the keys of the inviter. -/
theorem welcomeFor_sealed (hp : HoldsCanonical P U p) (hstocked : Stocked p) {kp : KeyPackage}
    {welcome : Message} (h : welcomeFor P kp p = (.ok welcome, p')) :
    Sealed P U p.seed0 welcome := by
  obtain ⟨entries, eph, shared, rest, hentries, -, -, -, rfl⟩ := welcomeFor_ok h
  obtain ⟨hstore, hcapacity⟩ := hstocked
  have hlength := length_heldKeys hstore (nodup_toList _) hentries
  rw [hcapacity] at hlength
  refine ⟨_, _, _, _, entries, rfl, parseWelcomePayload_build _ (hlength.trans (by decide)), ?_⟩
  intro entry hentry
  exact hp _ _ ((mem_of_heldKeys hentries).2 entry hentry)

theorem invite_sealed (hp : HoldsCanonical P U p) (hreach : Reachable P p) {kp : KeyPackage}
    {out : List Outbound} (h : invite P kp p = (.ok out, p')) :
    ∀ o ∈ out, Sealed P U p.seed0 o.message := by
  have hsound := hreach.wellformed.sound
  obtain ⟨-, -, add, p₁, rotation, p₂, welcome, p₃, contribution, p₄, hadd, hrotate, hwelcome,
    hcontribute, -, rfl⟩ := invite_ok h
  have hquiet₁ := publish_quiet hadd hsound (by simp [Body.kind])
  have hquiet := hquiet₁.trans (rotateWhen_quiet hquiet₁.sound hrotate)
  have hp₂ : HoldsCanonical P U p₂ := fun oid key hkey => hp oid key (hquiet.nodekeys ▸ hkey)
  have hstocked : Stocked p := FrontierKeys.Reach.stocked hreach
  have hstocked₂ : Stocked p₂ := by
    rw [Stocked, hquiet.nodekeys]
    exact hstocked
  intro o ho
  simp only [List.mem_append, List.mem_singleton] at ho
  rcases ho with ((rfl | hrotation) | rfl) | hcontribution
  · trivial
  · exact announcement_sealed (rotateWhen_yields _ p₁ rotation p₂ hrotate o hrotation)
  · rw [← hquiet.seed0]
    exact welcomeFor_sealed hp₂ hstocked₂ hwelcome
  · exact (contributeExcluding_operational hcontribute o hcontribution).sealed

theorem remove_operational {who : SigPublic} {out : List Outbound}
    (h : remove P who p = (.ok out, p')) : ∀ o ∈ out, Operational o := by
  obtain ⟨op, p₁, -, h⟩ := bind_ok h
  obtain ⟨contribution, p₂, hcontribute, h⟩ := bind_ok h
  obtain ⟨_, p₃, -, h⟩ := bind_ok h
  obtain ⟨_, p₄, -, h⟩ := bind_ok h
  cases h
  intro o ho
  rcases List.mem_cons.mp ho with rfl | ho
  · exact ⟨op, rfl⟩
  · exact contributeExcluding_operational hcontribute o ho

theorem found_operational {out : List Outbound} (h : found P p = (.ok out, p')) :
    ∀ o ∈ out, Operational o := by
  obtain ⟨_, _, hget, h⟩ := bind_ok h
  obtain ⟨add, p₁, -, h⟩ := bind_ok h
  obtain ⟨prekeys, p₂, hprekeys, h⟩ := bind_ok h
  obtain ⟨contribution, p₃, hcontribute, h⟩ := bind_ok h
  obtain ⟨_, p₄, -, h⟩ := bind_ok h
  cases h
  intro o ho
  simp only [List.mem_append, List.mem_cons, List.not_mem_nil, or_false] at ho
  rcases ho with (rfl | rfl) | ho
  · exact ⟨add, rfl⟩
  · apply Operational.of_announcement
    exact publishPrekeys_yields p₁ o p₂ hprekeys o (List.mem_singleton_self o)
  · exact contributeExcluding_operational hcontribute o ho

theorem joinWith_operational {entries : List (Oid × Secret)} {history : List Op}
    {out : List Outbound} (h : joinWith P entries history p = (.ok out, p')) :
    ∀ o ∈ out, Operational o := by
  obtain ⟨_, p₁, -, h⟩ := bind_ok h
  obtain ⟨_, p₂, -, h⟩ := bind_ok h
  obtain ⟨_, _, hget, h⟩ := bind_ok h
  split_ifs at h
  · cases h
  · obtain ⟨announced, p₃, hprekeys, h⟩ := bind_ok h
    obtain ⟨_, p₄, -, h⟩ := bind_ok h
    cases h
    intro o ho
    exact (Operational.of_announcement (publishPrekeys_yields _ announced p₃ hprekeys o ho))

theorem repairRequest_sealed {result : Option (List Outbound)}
    (h : repairRequest P p = (.ok result, p')) :
    ∀ o ∈ result.getD [], Sealed P U seed0 o.message := by
  rw [repairRequest, bind_run, get_run] at h
  dsimp only at h
  split_ifs at h
  · cases h
    simp
  · obtain ⟨rotated, p₁, hattempt, h⟩ := bind_ok h
    cases rotated with
    | error e =>
        cases h
        simp
    | ok rotation =>
        cases h
        intro o ho
        rcases List.mem_cons.mp ho with rfl | ho
        · have hrotate := rotatePrekeys_yields p o p' (run_of_attempt hattempt)
          exact announcement_sealed (hrotate o (List.mem_singleton_self o))
        · rw [List.mem_singleton.mp ho]
          trivial
  · cases h
    intro o ho
    rw [List.mem_singleton.mp ho]
    trivial

/-- Something is emitted by a call that succeeds. -/
theorem of_emitted {α : Type} {out : α → List Outbound} {c : Act α} {Q : Outbound → Prop}
    (h : ∀ a p', c p = (.ok a, p') → ∀ o ∈ out a, Q o) :
    ∀ o ∈ ((c p).1.toOption.map out).getD [], Q o := by
  rcases hrun : c p with ⟨e | a, p'⟩
  · intro o ho
    cases ho
  · exact h a p' hrun

theorem of_emitted_list {c : Act (List Outbound)} {Q : Outbound → Prop}
    (h : ∀ out p', c p = (.ok out, p') → ∀ o ∈ out, Q o) :
    ∀ o ∈ (c p).1.toOption.getD [], Q o := by
  have hall : ∀ o ∈ ((c p).1.toOption.map id).getD [], Q o := of_emitted h
  rwa [Option.map_id] at hall

theorem emitted_sealed (hp : HoldsCanonical P U p) (hreach : Reachable P p) (c : Call) :
    ∀ o ∈ emitted P p c, Sealed P U p.seed0 o.message := by
  cases c with
  | publishPrekeys =>
      exact of_emitted fun a p' h o ho => announcement_sealed (publishPrekeys_yields p a p' h o ho)
  | rotatePrekeys =>
      exact of_emitted fun a p' h o ho => announcement_sealed (rotatePrekeys_yields p a p' h o ho)
  | tick =>
      intro o ho
      cases ho
  | contribute exclude =>
      exact of_emitted_list fun out p' h o ho => (contributeExcluding_operational h o ho).sealed
  | invite kp => exact of_emitted_list fun out p' h => invite_sealed hp hreach h
  | remove who => exact of_emitted_list fun out p' h o ho => (remove_operational h o ho).sealed
  | leave =>
      apply of_emitted
      intro left p' h o ho
      obtain ⟨_, _, -, h⟩ := bind_ok h
      obtain ⟨op, p₁, -, h⟩ := bind_ok h
      cases h
      rw [List.mem_singleton.mp ho]
      trivial
  | handle wire => exact of_emitted fun result p' h => handle_sealed hp h
  | repairRequest => exact of_emitted fun result p' h => repairRequest_sealed h

end Sent

/-! ## The session -/

section Agreement

variable (P) in
/-- All participants have the same seed and hold canonical keys, and only those are in flight. -/
structure Canonical (U : Set Op) (seed0 : Secret) (s : Session) : Prop where
  seed : ∀ p ∈ s.parties, p.seed0 = seed0
  keys : ∀ p ∈ s.parties, HoldsCanonical P U p
  sent : ∀ m ∈ s.sent, Sealed P U seed0 m

theorem within_of_operations (hU : ∀ op ∈ s.operations, op ∈ U) (hp : p ∈ s.parties) :
    Within U p :=
  ⟨fun op hop => hU op ((within_operations hp).1 op hop),
    fun oid op hop => hU op ((within_operations hp).2 oid op hop)⟩

theorem Canonical.founding {policy : Policy} {entropy : List Secret} {out : List Outbound}
    (h : create P policy entropy = .ok (out, p))
    (hU : ∀ op ∈ (Session.founding p out).operations, op ∈ U) :
    Canonical P U p.seed0 (.founding p out) := by
  have hself : p ∈ (Session.founding p out).parties := List.mem_singleton_self p
  have hstart : Start P (fun _ => True) (Canon P U) p := .created h
  obtain ⟨identity, sid, _, seed, prekeys, rest, hsteps⟩ := hstart.steps
  refine ⟨?_, ?_, ?_⟩
  · intro q hq
    rw [List.mem_singleton.mp hq]
  · intro q hq
    rw [List.mem_singleton.mp hq]
    exact HoldsCanonical.steps hsteps (within_of_operations hU hself) (blank_canonical _ _ _ _ _ _)
  · intro m hm
    obtain ⟨o, ho, rfl⟩ := List.mem_map.mp hm
    obtain ⟨_, _, _, _, _, -, hfound⟩ := create_ok h
    exact (found_operational hfound o ho).sealed

/-- A newcomer starts with the seed and the keys of its welcome. -/
theorem Canonical.joined (hideal : IdealAead P) (hs : Canonical P U seed0 s) {j : PendingJoin}
    {wire : Bytes} {m : Message} {out : List Outbound} (hm : Message.fromWire P wire = .ok m)
    (hsent : m ∈ s.sent) (h : j.accept P wire = .ok (out, p))
    (hU : ∀ op ∈ (s.join p out).operations, op ∈ U) : Canonical P U seed0 (s.join p out) := by
  have hself : p ∈ (s.join p out).parties := List.mem_append_right _ (List.mem_singleton_self p)
  obtain ⟨w, hjoin⟩ := accept_ok h
  obtain ⟨hseed, hentries⟩ := (hs.sent m hsent).welcome hideal hm w
  have hsteps : MemberSteps.Steps P (fun _ => True) (Canon P U) w.start p :=
    (joinWith_moves _ _ _ _ _ _ (fun _ _ => trivial) hentries).run hjoin
  refine ⟨?_, ?_, ?_⟩
  · intro q hq
    rcases List.mem_append.mp hq with hq | hq
    · exact hs.seed q hq
    · rw [List.mem_singleton.mp hq, hsteps.sameParty.seed0]
      exact hseed
  · intro q hq
    rcases List.mem_append.mp hq with hq | hq
    · exact hs.keys q hq
    · rw [List.mem_singleton.mp hq]
      have hwithin := within_of_operations hU hself
      exact HoldsCanonical.steps hsteps hwithin (blank_canonical _ _ _ _ _ _)
  · intro m' hm'
    rcases List.mem_append.mp hm' with hm' | hm'
    · exact hs.sent m' hm'
    · obtain ⟨o, ho, rfl⟩ := List.mem_map.mp hm'
      exact (joinWith_operational hjoin o ho).sealed

/-- A call takes over keys of genuine responses only. -/
theorem Canonical.called (hideal : IdealAead P) (hs : Canonical P U seed0 s) {i : ℕ}
    (hi : s.parties[i]? = some p) (hp : Reachable P p) {c : Call} (hc : Genuine P s c)
    (hU : ∀ op ∈ (s.call P i p c).operations, op ∈ U) :
    Canonical P U seed0 (s.call P i p c) := by
  have hmem := List.mem_of_getElem? hi
  have hself : c.run P p ∈ (s.call P i p c).parties := mem_set_self hi
  have hsteps : MemberSteps.Steps P (fun _ => True) (Canon P U) p (c.run P p) := by
    apply call_steps hp c
    rintro wire m rfl hm oid key hrepairs
    obtain ⟨sender, sealed, -, -, rfl, -⟩ := id hrepairs
    exact (hs.sent _ (hc sender sealed hm)).repairs hideal hrepairs
  refine ⟨?_, ?_, ?_⟩
  · intro q hq
    rcases List.mem_or_eq_of_mem_set hq with hq | rfl
    · exact hs.seed q hq
    · rw [hsteps.sameParty.seed0]
      exact hs.seed p hmem
  · intro q hq
    rcases List.mem_or_eq_of_mem_set hq with hq | rfl
    · exact hs.keys q hq
    · exact HoldsCanonical.steps hsteps (within_of_operations hU hself) (hs.keys p hmem)
  · intro m hm
    rcases List.mem_append.mp hm with hm | hm
    · exact hs.sent m hm
    · obtain ⟨o, ho, rfl⟩ := List.mem_map.mp hm
      rw [← hs.seed p hmem]
      exact emitted_sealed (hs.keys p hmem) hp c o ho

theorem Canonical.step (hideal : IdealAead P) (hs : Reach P s) (hstep : Step P s s')
    (hU : ∀ op ∈ s'.operations, op ∈ U) (h : Canonical P U seed0 s) : Canonical P U seed0 s' := by
  cases hstep with
  | joined hnew hm hsent haccept => exact h.joined hideal hm hsent haccept hU
  | called hi c hc => exact h.called hideal hi (hs.reachable _ (List.mem_of_getElem? hi)) hc hU

/-- Through a whole session there are canonical keys only. -/
theorem reach_canonical (hideal : IdealAead P) (h : Reach P s) (hU : ∀ op ∈ s.operations, op ∈ U) :
    ∃ seed0, Canonical P U seed0 s := by
  apply h.invariant (I := fun s => ∃ seed0, Canonical P U seed0 s) hU
  · intro policy entropy out p hcreate hU
    exact ⟨p.seed0, .founding hcreate hU⟩
  · rintro s s' hs hstep hU ⟨seed0, hcanonical⟩
    exact ⟨seed0, hcanonical.step hideal hs hstep hU⟩

variable (P) in
/-- Every key that is held for an operation is its canonical key, which is unique, and whoever has
the same frontier and the same roster and can derive a group key derives the same one. -/
structure Agreed (s : Session) : Prop where
  canonical : ∀ p ∈ s.parties, ∀ oid key, p.nodekeys.peek oid = some key →
    Canon P {op | op ∈ s.operations} oid key ∧
      ∀ key', Canon P {op | op ∈ s.operations} oid key' → key' = key
  agree : ∀ p ∈ s.parties, ∀ q ∈ s.parties, p.frontier = q.frontier → p.root P = q.root P →
    ∀ key key', p.groupKey P = some key → q.groupKey P = some key' → key = key'

/-- Keys agree in every session. -/
theorem keys_agree (hideal : IdealAead P) (hcommit : Function.Injective (commitment P))
    (h : Reach P s) (hoid : Set.InjOn (Op.oid P) {op | op ∈ s.operations}) : Agreed P s := by
  obtain ⟨seed0, hcanonical⟩ := reach_canonical hideal h fun op hop => hop
  refine ⟨?_, ?_⟩
  · intro p hp oid key hkey
    have hcanon := hcanonical.keys p hp oid key hkey
    exact ⟨hcanon, fun key' hkey' => hkey'.unique hcommit hoid hcanon⟩
  · intro p hp q hq hfrontier hroot key key' hkey hkey'
    rw [Participant.groupKey, hcanonical.seed p hp] at hkey
    rw [Participant.groupKey, hcanonical.seed q hq, ← hfrontier, ← hroot] at hkey'
    exact groupKey_unique hcommit hoid (hcanonical.keys p hp) (hcanonical.keys q hq) hkey hkey'

/-! ## A founder and a guest -/

/-- The commitment of a secret is the secret itself. -/
def revealing : Primitives :=
  { recording with
    blake3 := fun bytes =>
      if field (label "cfr/cid") <+: bytes then ofBytes 256 bytes else recording.blake3 bytes }

theorem revealing_ideal : IdealAead revealing :=
  ⟨recording_ideal.opens, recording_ideal.only⟩

theorem ofBytes_append (bytes : Bytes) (x : BitVec 256) : ofBytes 256 (bytes ++ bytesOf x) = x := by
  rw [ofBytes, ofBe_append, ofBe_bytesOf (by decide)]
  apply BitVec.eq_of_toNat_eq
  have hwidth : 256 ^ (bytesOf x).length = 2 ^ 256 := by
    rw [bytesOf_length, pow_bytes (by decide)]
  rw [BitVec.toNat_ofNat, hwidth, Nat.mul_add_mod_self_right, Nat.mod_eq_of_lt x.isLt]

theorem commitment_revealing (x : Secret) : commitment revealing x = x := by
  have hlabel : field (label "cfr/cid") <+: absorbed (label "cfr/cid") [bytesOf x] :=
    List.prefix_append _ _
  change (if field (label "cfr/cid") <+: absorbed (label "cfr/cid") [bytesOf x] then
    ofBytes 256 (absorbed (label "cfr/cid") [bytesOf x]) else _) = x
  rw [if_pos hlabel, absorbed, List.flatMap_singleton, field, field, ← List.append_assoc,
    ofBytes_append]

section Scenario

variable (P)

def hostEntropy : List Secret :=
  [1, 5, 6, 7] ++ List.replicate 8 11

def opening : Session :=
  .founding (founded P (.leaderless 2) hostEntropy)
    ((create P (.leaderless 2) hostEntropy).toOption.elim [] Prod.fst)

def guestJoin : PendingJoin :=
  ⟨2, .at_ P 0 21, .leaderless 2, [31, 32, 33]⟩

/-- The founder invites the guest. -/
def invitation : Call :=
  .invite ((guestJoin P).keyPackage P)

def invited : Session :=
  (opening P).call P 0 (founded P (.leaderless 2) hostEntropy) (invitation P)

def welcome : Bytes :=
  ((emitted P (founded P (.leaderless 2) hostEntropy) (invitation P)).findSome? fun o =>
    match o.message with
    | .welcome _ _ _ _ _ => some o.payload
    | _ => none).getD []

def guest : Participant :=
  welcomed P (guestJoin P) (welcome P)

def entered : Session :=
  (invited P).join (guest P) (((guestJoin P).accept P (welcome P)).toOption.elim [] Prod.fst)

/-- What the founder has contributed after the invitation. -/
def renewal : Bytes :=
  ((emitted P (founded P (.leaderless 2) hostEntropy) (invitation P)).getLast?.map
    Outbound.payload).getD []

/-- The guest has the contribution as well. -/
def settled : Session :=
  (entered P).call P 1 (guest P) (.handle (renewal P))

end Scenario

variable (P) in
/-- The bytes stand for a message that was sent. -/
def Delivered (s : Session) (wire : Bytes) : Prop :=
  (Message.fromWire P wire).toOption.any fun m => m ∈ s.sent

theorem Delivered.parsed {wire : Bytes} (h : Delivered P s wire) :
    ∃ m, Message.fromWire P wire = .ok m ∧ m ∈ s.sent := by
  unfold Delivered at h
  cases hm : Message.fromWire P wire with
  | error e =>
      rw [hm] at h
      cases h
  | ok m =>
      rw [hm] at h
      exact ⟨m, rfl, of_decide_eq_true h⟩

theorem entered_reach (hcreate : (create P (.leaderless 2) hostEntropy).isOk)
    (hwelcome : Delivered P (invited P) (welcome P))
    (haccept : ((guestJoin P).accept P (welcome P)).isOk) : Reach P (entered P) := by
  obtain ⟨out, hfounded⟩ := create_founded hcreate
  have hopening : opening P = .founding (founded P (.leaderless 2) hostEntropy) out := by
    rw [opening, hfounded]
    rfl
  have hguest : (guestJoin P).accept P (welcome P) = .ok
      (((guestJoin P).accept P (welcome P)).toOption.elim [] Prod.fst, guest P) := by
    unfold guest welcomed
    cases hresult : (guestJoin P).accept P (welcome P) with
    | error e =>
        rw [hresult] at haccept
        cases haccept
    | ok result => rfl
  obtain ⟨m, hm, hsent⟩ := hwelcome.parsed
  refine ⟨.leaderless 2, hostEntropy, out, _, hfounded, ?_⟩
  rw [← hopening]
  have hnew : PendingJoin.new P (.leaderless 2) [2, 21, 31, 32, 33] = .ok (guestJoin P) := rfl
  have hinvited : Step P (opening P) (invited P) := .called rfl _ trivial
  have hentered : Step P (invited P) (entered P) := .joined hnew hm hsent hguest
  exact (ReflTransGen.single hinvited).tail hentered

theorem settled_reach (hcreate : (create P (.leaderless 2) hostEntropy).isOk)
    (hwelcome : Delivered P (invited P) (welcome P))
    (haccept : ((guestJoin P).accept P (welcome P)).isOk)
    (hrenewal : Delivered P (entered P) (renewal P)) : Reach P (settled P) := by
  obtain ⟨m, hm, hsent⟩ := hrenewal.parsed
  have hsettled : Step P (entered P) (settled P) := .called rfl _ (genuine_of_sent hm hsent)
  exact (entered_reach hcreate hwelcome haccept).steps (.single hsettled)

theorem settled_checks : (create revealing (.leaderless 2) hostEntropy).isOk ∧
    Delivered revealing (invited revealing) (welcome revealing) ∧
    ((guestJoin revealing).accept revealing (welcome revealing)).isOk ∧
    Delivered revealing (entered revealing) (renewal revealing) := by
  unfold Delivered
  decide +kernel

theorem settled_equal : (∀ a ∈ (settled revealing).operations,
      ∀ b ∈ (settled revealing).operations, a.oid revealing = b.oid revealing → a = b) ∧
    (settled revealing).parties.length = 2 ∧
    ∀ p ∈ (settled revealing).parties, ∀ q ∈ (settled revealing).parties,
      p.frontier = q.frontier ∧ p.root revealing = q.root revealing ∧
        (p.groupKey revealing).isSome := by
  decide +kernel

/-- The founder and the guest have the same group key. -/
theorem settled_agreed : (settled revealing).parties.length = 2 ∧
    (∀ p ∈ (settled revealing).parties, (p.groupKey revealing).isSome) ∧
    (∀ p ∈ (settled revealing).parties, ∀ q ∈ (settled revealing).parties,
      p.frontier = q.frontier ∧ p.root revealing = q.root revealing) ∧
    Agreed revealing (settled revealing) := by
  obtain ⟨hcreate, hwelcome, haccept, hrenewal⟩ := settled_checks
  obtain ⟨hoid, hlength, hequal⟩ := settled_equal
  refine ⟨hlength, fun p hp => (hequal p hp p hp).2.2,
    fun p hp q hq => ⟨(hequal p hp q hq).1, (hequal p hp q hq).2.1⟩, ?_⟩
  apply keys_agree revealing_ideal
  · intro x y hxy
    rwa [commitment_revealing, commitment_revealing] at hxy
  · exact settled_reach hcreate hwelcome haccept hrenewal
  · exact fun a ha b hb => hoid a ha b hb

end Agreement

end CausalFrontierRatchet.KeyAgreement
