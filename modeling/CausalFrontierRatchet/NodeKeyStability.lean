import CausalFrontierRatchet.Authorisation

/-!
Held node keys.  An operation is absorbed once, so neither own contributions nor opened slices
replace a key; a repair response of a current member replaces the keys of the whole frontier by what
the sender chose.
-/

namespace CausalFrontierRatchet.NodeKeyStability

open Relation BigEndian Crypto Operation KeySchedule
open Messages Commands Member MemberSteps MemberRuns Authorisation

section Absorbed

variable {P : Primitives} {src : Op → Prop} {p p' : Participant}

/-- Without a repair, the key of an absorbed operation can only be dropped. -/
theorem Steps.peek_absorbed (h : Steps P src (fun _ _ => False) p p') {o : Oid}
    (ho : o ∈ p.absorbed) :
    o ∈ p'.absorbed ∧ ∀ k, p'.nodekeys.peek o = some k → p.nodekeys.peek o = some k := by
  induction h with
  | refl => exact ⟨ho, fun _ => id⟩
  | tail _ hupdate ih =>
      obtain ⟨hmem, hkeys⟩ := ih
      cases hupdate with
      | @absorbed op _ _ _ _ _ _ _ _ _ hnew _ _ =>
          refine ⟨Std.ExtTreeSet.mem_insert.mpr (Or.inr hmem), fun k hk => hkeys k ?_⟩
          have hpeek := NodeKeys.peek_insert hk
          have hne : op.oid P ≠ o := fun heq => hnew (by rwa [heq])
          rwa [if_neg hne] at hpeek
      | repaired hrep => exact hrep.elim
      | _ => exact ⟨hmem, hkeys⟩

/-- Keys that only get dropped combine to the same value. -/
theorem combine_stable {store store' : NodeKeys} {nodes : OidSet}
    (hsame : ∀ o k k', store.peek o = some k → store'.peek o = some k' → k' = k) {c c' : Secret}
    (h : store.combine nodes = some c) (h' : store'.combine nodes = some c') : c' = c := by
  have hfold : ∀ (list : List Oid) (acc c c' : Secret),
      list.foldlM (fun acc n => (store.peek n).map fun key => acc ^^^ key) acc = some c →
      list.foldlM (fun acc n => (store'.peek n).map fun key => acc ^^^ key) acc = some c' →
      c' = c := by
    intro list
    induction list with
    | nil =>
        intro acc c c' h h'
        exact Option.some.inj (h'.symm.trans h)
    | cons n list ih =>
        intro acc c c' h h'
        rw [List.foldlM_cons, Option.bind_eq_bind, Option.bind_eq_some_iff] at h h'
        obtain ⟨a, ha, h⟩ := h
        obtain ⟨a', ha', h'⟩ := h'
        obtain ⟨k, hk, rfl⟩ := Option.map_eq_some_iff.mp ha
        obtain ⟨k', hk', rfl⟩ := Option.map_eq_some_iff.mp ha'
        rw [hsame n k k' hk hk'] at h'
        exact ih _ _ _ h h'
  exact hfold _ _ _ _ h h'

end Absorbed

/-! ## Repair responses -/

section Repair

/-- The last key a payload offers for an operation. -/
def lastFor (o : Oid) : List (Oid × Secret) → Option Secret
  | [] => none
  | entry :: entries => (lastFor o entries).or (if entry.1 = o then some entry.2 else none)

variable {P : Primitives} {p : Participant}

theorem learnWanted_run (want : OidSet) (entries : List (Oid × Secret)) :
    ∃ p', learnWanted want entries p = (.ok (), p') ∧
      (∀ o, o ∈ p.absorbed → o ∈ p'.absorbed) ∧
      ∀ o k, p'.nodekeys.peek o = some k →
        (if want.contains o then lastFor o entries else none).or (p.nodekeys.peek o) = some k := by
  induction entries generalizing p with
  | nil => exact ⟨p, rfl, fun _ => id, fun o k hk => by simpa [lastFor] using hk⟩
  | cons entry entries ih =>
      by_cases hwant : want.contains entry.1
      · obtain ⟨p', hrun, habsorbed, hpeek⟩ := ih (p := (learn entry.1 entry.2 p).2)
        refine ⟨p', ?_, fun o ho => habsorbed o (Std.ExtTreeSet.mem_insert.mpr (Or.inr ho)), ?_⟩
        · rw [← hrun, learnWanted, if_pos hwant]
          rfl
        · intro o k hk
          rcases Option.or_eq_some_iff.mp (hpeek o k hk) with hlater | ⟨hnone, hnow⟩
          · split at hlater
            · rename_i ho
              simp [ho, lastFor, hlater]
            · cases hlater
          · have hinsert := NodeKeys.peek_insert hnow
            split at hinsert
            · rename_i heq
              subst heq
              rw [if_pos hwant] at hnone ⊢
              simp [lastFor, hnone, hinsert]
            · rename_i hne
              simp only [lastFor, if_neg hne, Option.or_none]
              rw [hnone, hinsert]
              rfl
      · obtain ⟨p', hrun, habsorbed, hpeek⟩ := ih (p := p)
        refine ⟨p', ?_, habsorbed, fun o k hk => ?_⟩
        · rw [← hrun, learnWanted, if_neg hwant]
        · rw [← hpeek o k hk]
          by_cases ho : entry.1 = o
          · subst ho
            simp [hwant]
          · simp [lastFor, ho]

variable (P) in
/-- For every operation of the frontier whose key is held, the last key that a repair response of a
current member offers is the held one. -/
def OffersHeld (p : Participant) (wire : Bytes) : Prop :=
  ∀ sender sealed plain entries, Message.fromWire P wire = .ok (.nodeKeyResponse sender sealed) →
    sender ∈ p.members →
    openEnvelope P p.prekeys "cfr/repair/ad" "repair" p.sid sender p.ipk sealed = .ok plain →
    parseNodekeyPayload plain = .ok entries →
    ∀ o ∈ p.frontier, ∀ k key, p.nodekeys.peek o = some k → lastFor o entries = some key → key = k

/-- What is absorbed stays absorbed, and a key that is held before and after is the same. -/
structure Keeps (p p' : Participant) : Prop where
  absorbed : ∀ o, o ∈ p.absorbed → o ∈ p'.absorbed
  keys : ∀ o k k', p.nodekeys.peek o = some k → p'.nodekeys.peek o = some k' → k' = k

theorem keeps_refl (p : Participant) : Keeps p p where
  absorbed _ := id
  keys _ _ _ hk hk' := Option.some.inj (hk'.symm.trans hk)

theorem Keeps.steps {src : Op → Prop} {q q' : Participant} (h : Keeps p q) (hp : Wellformed P p)
    (hsteps : Steps P src (fun _ _ => False) q q') : Keeps p q' where
  absorbed o ho := (Steps.peek_absorbed hsteps (h.absorbed o ho)).1
  keys o k k' hk hk' := by
    have ho := hp.absorbed o (NodeKeys.contains_iff_peek.mpr ⟨k, hk⟩)
    exact h.keys o k k' hk ((Steps.peek_absorbed hsteps (h.absorbed o ho)).2 k' hk')

theorem absorbNodeKeys_keeps {sender : SigPublic} {sealed : Envelope}
    (hoffers : ∀ plain entries, sender ∈ p.members →
      openEnvelope P p.prekeys "cfr/repair/ad" "repair" p.sid sender p.ipk sealed = .ok plain →
      parseNodekeyPayload plain = .ok entries →
      ∀ o ∈ p.frontier, ∀ k key, p.nodekeys.peek o = some k → lastFor o entries = some key →
        key = k) :
    Keeps p (absorbNodeKeys P sender sealed p).2 := by
  unfold absorbNodeKeys
  rw [bind_run, get_run]
  dsimp only
  by_cases hsender : p.members.contains sender
  swap
  · rw [if_pos (by rw [Bool.not_eq_true] at hsender; rw [hsender]; rfl)]
    exact keeps_refl p
  rw [if_neg (by rw [hsender]; decide)]
  cases hplain : openEnvelope P p.prekeys "cfr/repair/ad" "repair" p.sid sender p.ipk sealed with
  | error e => exact keeps_refl p
  | ok plain =>
      change Keeps p ((liftM (parseNodekeyPayload plain) >>= learnWanted p.frontier : Act Unit) p).2
      cases hentries : parseNodekeyPayload plain with
      | error e => exact keeps_refl p
      | ok entries =>
          change Keeps p (learnWanted p.frontier entries p).2
          obtain ⟨p', hrun, habsorbed, hpeek⟩ := learnWanted_run (p := p) p.frontier entries
          rw [hrun]
          refine ⟨habsorbed, fun o k k' hk hk' => ?_⟩
          have hlast := hpeek o k' hk'
          rw [hk, Option.or_eq_some_iff] at hlast
          rcases hlast with hoffered | ⟨-, hsame⟩
          · split at hoffered
            · rename_i hfrontier
              exact hoffers plain entries (Std.ExtTreeSet.contains_iff_mem.mp hsender) hplain
                hentries o (Std.ExtTreeSet.contains_iff_mem.mp hfrontier) k k' hk hoffered
            · cases hoffered
          · exact (Option.some.inj hsame).symm

/-- Only a repair response reaches the keys of absorbed operations. -/
theorem dispatch_keeps (hp : Wellformed P p) {wire : Bytes} {m : Message}
    (hm : Message.fromWire P wire = .ok m) (hoffers : OffersHeld P p wire) :
    Keeps p (dispatch P m p).2 := by
  have htidy : Tidy P (fun _ => True) p := ⟨hp.sound, hp.parked, fun _ _ => trivial⟩
  by_cases hresponse : ∃ sender sealed, m = .nodeKeyResponse sender sealed
  · obtain ⟨sender, sealed, rfl⟩ := hresponse
    have hrun : (dispatch P (.nodeKeyResponse sender sealed) p).2 =
        (absorbNodeKeys P sender sealed p).2 := by
      rw [dispatch, bind_run]
      rcases absorbNodeKeys P sender sealed p with ⟨e | u, p'⟩ <;> rfl
    rw [hrun]
    exact absorbNodeKeys_keeps fun plain entries hsender hplain hentries =>
      hoffers sender sealed plain entries hm hsender hplain hentries
  · have hsteps : Steps P (fun _ => True) (fun _ _ => False) p (dispatch P m p).2 := by
      refine dispatch_moves htidy m (fun _ _ => trivial) fun oid key hrep => ?_
      obtain ⟨sender, sealed, -, -, heq, -⟩ := hrep
      exact hresponse ⟨sender, sealed, heq⟩
    exact (keeps_refl p).steps hp hsteps

theorem handle_keeps (hp : Wellformed P p) {wire : Bytes} (hoffers : OffersHeld P p wire) :
    Keeps p (handle P wire p).2 := by
  cases hm : Message.fromWire P wire with
  | error e =>
      rw [handle_error hm]
      exact keeps_refl p
  | ok m => exact (dispatch_keeps hp hm hoffers).steps hp (handle_concludes ⟨hp.sound, hp.parked⟩ hm)

theorem groupKey_stable {p' : Participant} (h : Keeps p p') (hseed : p'.seed0 = p.seed0)
    (hfrontier : p'.frontier = p.frontier) (hroot : p'.root P = p.root P) {g g' : Secret}
    (hg : p.groupKey P = some g) (hg' : p'.groupKey P = some g') : g' = g := by
  unfold Participant.groupKey KeySchedule.groupKey at hg hg'
  rw [hseed, hfrontier, hroot] at hg'
  obtain ⟨c, hc, rfl⟩ := Option.map_eq_some_iff.mp hg
  obtain ⟨c', hc', rfl⟩ := Option.map_eq_some_iff.mp hg'
  have hcombined : c' = c := by
    by_cases hempty : p.frontier.isEmpty
    · rw [if_pos hempty] at hc hc'
      exact Option.some.inj (hc'.symm.trans hc)
    · rw [if_neg hempty] at hc hc'
      exact combine_stable h.keys hc hc'
  rw [hcombined]

end Repair

/-- A participant that handles a message keeps the node keys it holds, and with them the group key of
an unchanged version, unless a current member's repair response offers another key for an operation
of the frontier whose key is held. -/
theorem held_keys_stable {P : Primitives} {p : Participant} (hp : Reachable P p) (wire : Bytes)
    (hoffers : OffersHeld P p wire) :
    (∀ o k k', p.nodekeys.peek o = some k →
      (handle P wire p).2.nodekeys.peek o = some k' → k' = k) ∧
    ∀ g g', (handle P wire p).2.frontier = p.frontier → (handle P wire p).2.root P = p.root P →
      p.groupKey P = some g → (handle P wire p).2.groupKey P = some g' → g' = g := by
  have hwell := hp.wellformed
  have hkeeps := handle_keeps hwell hoffers
  have hsteps : Steps P (fun _ => True) (fun _ _ => True) p (handle P wire p).2 :=
    handle_moves ⟨hwell.sound, hwell.parked, fun _ _ => trivial⟩ wire (fun _ _ _ _ => trivial)
      fun _ _ _ _ _ => trivial
  exact ⟨hkeeps.keys, fun g g' hfrontier hroot =>
    groupKey_stable hkeeps hsteps.sameParty.seed0 hfrontier hroot⟩

/-! ## A member that replaces a key -/

section Scenario

/-- A repair response of the guest to the host, sealed to the host's prekey. -/
def response (entries : List (Oid × Secret)) : Bytes :=
  let eph : Secret := 17
  let k := envelopeKey toy (eph ^^^ host.prekeys.pub) host.sid 2 host.ipk
  let ad := envelopeAd toy "cfr/repair/ad" host.sid 2 host.ipk
  let n := envelopeNonce toy "repair" host.sid eph
  (Message.nodeKeyResponse 2
    { eph, gen := host.prekeys.generation, ct := aeadSeal toy k n (buildNodekeyPayload entries) ad }).toWire

/-- Another key for every operation of the frontier. -/
def replacement : Bytes :=
  response (host.frontier.toList.map fun o => (o, 99))

def overwritten : Participant :=
  (handle toy replacement host).2

theorem overwritten_checks :
    (host.frontier.toList.any fun o => (host.nodekeys.peek o).isSome ∧
      host.nodekeys.peek o ≠ some 99 ∧ overwritten.nodekeys.peek o = some 99) ∧
      overwritten.frontier = host.frontier ∧ overwritten.root toy = host.root toy ∧
      overwritten.version toy = host.version toy ∧ (host.groupKey toy).isSome ∧
      (overwritten.groupKey toy).isSome ∧ overwritten.groupKey toy ≠ host.groupKey toy := by
  decide +kernel

/-- An unsolicited response replaces a held key, and with it the group key of the same version. -/
theorem response_replaces_key : Reachable toy host ∧
    (∃ o k, host.nodekeys.peek o = some k ∧ k ≠ 99 ∧ overwritten.nodekeys.peek o = some 99) ∧
    overwritten.version toy = host.version toy ∧
    overwritten.groupKey toy ≠ host.groupKey toy := by
  obtain ⟨hany, -, -, hversion, -, -, hgroup⟩ := overwritten_checks
  obtain ⟨o, -, hkey⟩ := List.any_eq_true.mp hany
  obtain ⟨hheld, hother, hnow⟩ := of_decide_eq_true hkey
  obtain ⟨k, hk⟩ := Option.isSome_iff_exists.mp hheld
  refine ⟨host_reachable, ⟨o, k, hk, fun heq => hother ?_, hnow⟩, hversion, hgroup⟩
  rw [hk, heq]

/-- The guest repeats the keys the host holds. -/
def confirmation : Bytes :=
  response (host.frontier.toList.filterMap fun o => (host.nodekeys.peek o).map fun k => (o, k))

theorem confirmation_checks :
    (Message.fromWire toy confirmation).toOption.all fun m =>
      match m with
      | .nodeKeyResponse sender sealed =>
          (openEnvelope toy host.prekeys "cfr/repair/ad" "repair" host.sid sender host.ipk
            sealed).toOption.all fun plain => (parseNodekeyPayload plain).toOption.all fun entries =>
              host.frontier.toList.all fun o => lastFor o entries = host.nodekeys.peek o
      | _ => true := by
  decide +kernel

/-- A response that offers the held keys keeps them. -/
theorem confirmation_keeps : OffersHeld toy host confirmation ∧
    ∀ o k k', host.nodekeys.peek o = some k →
      (handle toy confirmation host).2.nodekeys.peek o = some k' → k' = k := by
  have hoffers : OffersHeld toy host confirmation := by
    intro sender sealed plain entries hm _ hplain hentries o ho k key hk hlast
    have hchecks := confirmation_checks
    simp only [hm, Except.toOption, Option.all_some, hplain, hentries, List.all_eq_true,
      decide_eq_true_eq] at hchecks
    rw [hchecks o (Std.ExtTreeSet.mem_toList.mpr ho), hk] at hlast
    exact (Option.some.inj hlast).symm
  exact ⟨hoffers, (held_keys_stable host_reachable confirmation hoffers).1⟩

end Scenario

end CausalFrontierRatchet.NodeKeyStability
