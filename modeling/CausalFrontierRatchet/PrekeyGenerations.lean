import CausalFrontierRatchet.Authorisation
import CausalFrontierRatchet.Frames
import CausalFrontierRatchet.Intake

/-!
The prekey generations that a participant records for its peers.  An announced prekey replaces the
recorded one only if it is newer, and then the sending channel is dropped.  The prekey of a key
package replaces it in any case, so an invitation is the one call that may go back to an older
generation, and does so exactly if the key package is older than the record.
-/

namespace CausalFrontierRatchet.PrekeyGenerations

open Relation Crypto Operation Channel
open Messages Commands Member MemberRuns Authorisation Frames Intake

/-- The generation recorded for a peer. -/
def generation (p : Participant) (who : SigPublic) : Option UInt32 :=
  p.peerPrekeys[who]?.map Prod.fst

/-- A strictly newer generation is recorded than before. -/
def Renewed (p p' : Participant) (who : SigPublic) : Prop :=
  ∃ g g', generation p who = some g ∧ generation p' who = some g' ∧ g < g'

/-- Generations do not decrease, and a sending channel is dropped only for a newer generation or
with the peer. -/
structure Forward (gone : SigPublic → Prop) (p p' : Participant) : Prop where
  kept : ∀ who g, generation p who = some g → ∃ g', generation p' who = some g' ∧ g ≤ g'
  dropped : ∀ who ∈ p.send, who ∉ p'.send → Renewed p p' who ∨ gone who

/-- Every sending channel leads to a peer with a recorded generation. -/
def Addressed (p : Participant) : Prop :=
  ∀ who ∈ p.send, ∃ g, generation p who = some g

def Advances (gone : SigPublic → Prop) (p p' : Participant) : Prop :=
  Addressed p → Addressed p' ∧ Forward gone p p'

section Relation

variable {P : Primitives} {p p' q : Participant} {gone : SigPublic → Prop}

theorem generation_congr (h : p'.peerPrekeys = p.peerPrekeys) (who : SigPublic) :
    generation p' who = generation p who := by
  rw [generation, generation, h]

theorem generation_insert (who : SigPublic) (gen : UInt32) (pk : DhPublic) (x : SigPublic) :
    generation { p with peerPrekeys := p.peerPrekeys.insert who (gen, pk) } x =
      if x = who then some gen else generation p x := by
  unfold generation
  rw [Std.ExtTreeMap.getElem?_insert]
  simp only [Std.compare_eq_iff_eq, eq_comm (a := who)]
  split_ifs <;> rfl

theorem Advances.of_eq (hsend : p'.send = p.send) (hpeers : p'.peerPrekeys = p.peerPrekeys) :
    Advances gone p p' := by
  intro haddressed
  refine ⟨fun who hwho => ?_, fun who g hg => ?_, fun who hwho hnot => ?_⟩
  · rw [hsend] at hwho
    rw [generation_congr hpeers]
    exact haddressed who hwho
  · exact ⟨g, by rw [generation_congr hpeers, hg], UInt32.le_refl g⟩
  · rw [hsend] at hnot
    exact absurd hwho hnot

theorem Forward.trans (haddressed : Addressed p) (h : Forward gone p q) (h' : Forward gone q p') :
    Forward gone p p' := by
  refine ⟨fun who g hg => ?_, fun who hwho hnot => ?_⟩
  · obtain ⟨g₁, hg₁, hle⟩ := h.kept who g hg
    obtain ⟨g₂, hg₂, hle'⟩ := h'.kept who g₁ hg₁
    exact ⟨g₂, hg₂, UInt32.le_trans hle hle'⟩
  · obtain ⟨g, hg⟩ := haddressed who hwho
    obtain ⟨g₁, hg₁, hle⟩ := h.kept who g hg
    obtain ⟨g₂, hg₂, hle'⟩ := h'.kept who g₁ hg₁
    by_cases hmid : who ∈ q.send
    · rcases h'.dropped who hmid hnot with ⟨a, b, ha, hb, hlt⟩ | hgone
      · obtain rfl := Option.some.inj (hg₁.symm.trans ha)
        exact Or.inl ⟨g, b, hg, hb, UInt32.lt_of_le_of_lt hle hlt⟩
      · exact Or.inr hgone
    · rcases h.dropped who hwho hmid with ⟨a, b, ha, hb, hlt⟩ | hgone
      · obtain rfl := Option.some.inj (hg₁.symm.trans hb)
        exact Or.inl ⟨a, g₂, ha, hg₂, UInt32.lt_of_lt_of_le hlt hle'⟩
      · exact Or.inr hgone

theorem Advances.trans (h : Advances gone p q) (h' : Advances gone q p') : Advances gone p p' := by
  intro haddressed
  obtain ⟨hmid, hforward⟩ := h haddressed
  obtain ⟨hlast, hforward'⟩ := h' hmid
  exact ⟨hlast, hforward.trans haddressed hforward'⟩

/-- Recording a generation that is not older than the one known. -/
theorem insert_forward {who : SigPublic} {gen : UInt32} {pk : DhPublic}
    (h : ∀ g, generation p who = some g → g ≤ gen) :
    Forward gone p { p with peerPrekeys := p.peerPrekeys.insert who (gen, pk) } := by
  refine ⟨fun x g hg => ?_, fun x hx hnot => absurd hx hnot⟩
  rw [generation_insert]
  split_ifs with heq
  · subst heq
    exact ⟨gen, rfl, h g hg⟩
  · exact ⟨g, hg, UInt32.le_refl g⟩

theorem insert_addressed (haddressed : Addressed p) (who : SigPublic) (gen : UInt32)
    (pk : DhPublic) : Addressed { p with peerPrekeys := p.peerPrekeys.insert who (gen, pk) } := by
  intro x hx
  rw [generation_insert]
  split_ifs
  · exact ⟨gen, rfl⟩
  · exact haddressed x hx

theorem erase_addressed (haddressed : Addressed p) (who : SigPublic)
    (recv : Std.ExtTreeMap SigPublic RecvState) :
    Addressed { p with send := p.send.erase who, recv } :=
  fun x hx => haddressed x (Std.ExtTreeMap.mem_of_mem_erase hx)

/-- Only the channel of the given peer is dropped. -/
theorem erase_advances (who : SigPublic) (recv : Std.ExtTreeMap SigPublic RecvState) :
    Advances (· = who) p { p with send := p.send.erase who, recv } := by
  intro haddressed
  refine ⟨erase_addressed haddressed who recv, fun x g hg => ⟨g, hg, UInt32.le_refl g⟩, ?_⟩
  intro x hx hnot
  right
  by_contra hne
  refine hnot (Std.ExtTreeMap.mem_erase.mpr ⟨?_, hx⟩)
  simpa using Ne.symm hne

theorem learnPrekey_advances (author : SigPublic) (gen : UInt32) (pk : DhPublic) :
    Advances gone p (learnPrekey author gen pk p).2 := by
  rw [learnPrekey, modify_run]
  split
  · rename_i hnone
    intro haddressed
    refine ⟨insert_addressed haddressed author gen pk, insert_forward fun g hg => ?_⟩
    rw [generation, hnone] at hg
    cases hg
  · rename_i known old hknown
    have hgeneration : generation p author = some known := by
      rw [generation, hknown]
      rfl
    split
    · rename_i hnewer
      intro haddressed
      have hinsert : Forward gone p
          { p with peerPrekeys := p.peerPrekeys.insert author (gen, pk) } := by
        refine insert_forward fun g hg => ?_
        obtain rfl := Option.some.inj (hgeneration.symm.trans hg)
        exact UInt32.le_of_lt hnewer
      refine ⟨erase_addressed (insert_addressed haddressed author gen pk) author p.recv, hinsert.kept,
        fun x hx hnot => ?_⟩
      -- Only the author's channel is erased, and its new generation is newer.
      have heq : x = author := by
        by_contra hne
        refine hnot (Std.ExtTreeMap.mem_erase.mpr ⟨?_, hx⟩)
        simpa using Ne.symm hne
      subst heq
      exact Or.inl ⟨known, gen, hgeneration, by rw [generation]; simp, hnewer⟩
    · exact .of_eq rfl rfl

theorem sealed_advances {v : SigPublic} (h : v ∈ p.send ∨ v ∈ p.peerPrekeys) (chan : Chan) :
    Advances gone p { p with send := p.send.insert v chan } := by
  intro haddressed
  refine ⟨fun who hwho => ?_, fun who g hg => ⟨g, hg, UInt32.le_refl g⟩, fun who hwho hnot => ?_⟩
  · rcases Std.ExtTreeMap.mem_insert.mp hwho with heq | hold
    · obtain rfl := Std.compare_eq_iff_eq.mp heq
      rcases h with hopen | hknown
      · exact haddressed v hopen
      · obtain ⟨peer, hpeer⟩ :=
          Option.isSome_iff_exists.mp (Std.ExtTreeMap.mem_iff_isSome_getElem?.mp hknown)
        exact ⟨peer.1, by rw [generation]; exact congrArg (Option.map Prod.fst) hpeer⟩
    · exact haddressed who hold
  · exact absurd (Std.ExtTreeMap.mem_insert.mpr (Or.inr hwho)) hnot

theorem advances_framed (P : Primitives) (gone : SigPublic → Prop) : Framed P (Advances gone) where
  refl _ := .of_eq rfl rfl
  trans _ _ _ := Advances.trans
  drawn _ _ := .of_eq rfl rfl
  signed _ _ := .of_eq rfl rfl
  stored _ _ := .of_eq rfl rfl
  rotated _ _ := .of_eq rfl rfl
  heard _ _ := .of_eq rfl rfl
  opened _ _ _ _ _ _ _ := .of_eq rfl rfl
  learned _ := learnPrekey_advances
  keyed _ _ _ _ := .of_eq rfl rfl
  judged _ _ := .of_eq rfl rfl
  parked _ _ := .of_eq rfl rfl
  waiting _ _ := .of_eq rfl rfl
  noted _ := .of_eq rfl rfl

theorem advances_sealing (P : Primitives) (gone : SigPublic → Prop) :
    Sealing P (Advances gone) :=
  { advances_framed P gone with sealed := fun _ _ chan h => sealed_advances h chan }

end Relation

/-! ## Calls -/

section Calls

variable {P : Primitives} {p p' : Participant}

/-- The peer a call removes. -/
def Removes : Call → SigPublic → Prop
  | .remove w, who => who = w
  | _, _ => False

variable (P) in
/-- An invitation that is not refused comes with a key package that is not older than the record. -/
def Fresh (p : Participant) : Call → Prop
  | .invite kp => kp.verify P = .ok () → p.ipk ∈ p.members →
      ∀ g, generation p kp.ipk = some g → g ≤ kp.gen
  | _ => True

theorem remove_advances (who : SigPublic) : Advances (· = who) p (remove P who p).2 := by
  have hS := advances_sealing P (· = who)
  refine hS.moves_bind (hS.publish _) fun _ _ => ?_
  refine hS.moves_bind (hS.contributeExcluding _) fun _ q => ?_
  refine hS.moves_bind (moves_modify (erase_advances who _)) fun _ _ => ?_
  exact hS.moves_bind hS.noteVersion fun _ _ => hS.moves_pure _

theorem invite_addressed (kp : KeyPackage) (h : Addressed p) : Addressed (invite P kp p).2 := by
  by_cases hinvite : kp.verify P = .ok () ∧ p.ipk ∈ p.members
  · exact (invite_after (advances_framed P fun _ => False).toRenewing
      (advances_sealing P fun _ => False) hinvite.1 hinvite.2 (insert_addressed h _ _ _)).1
  · rwa [invite_refused hinvite]

/-- A call with a fresh key package goes forward. -/
theorem call_advances (c : Call) (hc : Fresh P p c) : Advances (Removes c) p (c.run P p) := by
  have hF := advances_framed P (Removes c)
  have hS := advances_sealing P (Removes c)
  cases c with
  | publishPrekeys => exact hF.publishPrekeys
  | rotatePrekeys => exact hF.rotatePrekeys
  | tick => exact Advances.of_eq rfl rfl
  | contribute exclude => exact hS.contributeExcluding exclude
  | invite kp =>
      intro haddressed
      refine ⟨invite_addressed kp haddressed, ?_⟩
      change Forward _ p (invite P kp p).2
      by_cases hinvite : kp.verify P = .ok () ∧ p.ipk ∈ p.members
      · have hinsert := insert_addressed haddressed kp.ipk kp.gen kp.prekey
        exact (insert_forward (hc hinvite.1 hinvite.2)).trans haddressed
          (invite_after hF.toRenewing hS hinvite.1 hinvite.2 hinsert).2
      · rw [invite_refused hinvite]
        exact (hF.refl p haddressed).2
  | remove who => exact remove_advances who
  | leave =>
      change Moves (Advances (Removes .leave)) (leave P) p
      exact moves_get (hF.moves_bind (hF.publish _) fun _ _ => hF.moves_pure _)
  | handle wire => exact hF.handle wire
  | repairRequest => exact hF.repairRequest

theorem call_addressed (c : Call) (h : Addressed p) : Addressed (c.run P p) := by
  cases c with
  | invite kp => exact invite_addressed kp h
  | _ => exact (call_advances _ (by trivial) h).1

/-- The record after an invitation that is not refused is the key package's. -/
theorem invite_generation {kp : KeyPackage} (hverify : kp.verify P = .ok ())
    (hmember : p.ipk ∈ p.members) : generation (invite P kp p).2 kp.ipk = some kp.gen := by
  have hrenewing : Renewing P fun q q' => q'.peerPrekeys = q.peerPrekeys :=
    ⟨⟨⟨⟨fun _ => rfl, fun _ _ _ h h' => h'.trans h⟩, fun _ _ _ _ => rfl⟩, fun _ _ => rfl,
      fun _ => rfl⟩, fun _ _ => rfl, fun _ _ => rfl, fun _ _ => rfl⟩
  have hsealing : Sealing P fun q q' => q'.peerPrekeys = q.peerPrekeys :=
    { hrenewing with sealed := fun _ _ _ _ => rfl }
  rw [generation_congr (invite_after hrenewing hsealing hverify hmember), generation_insert,
    if_pos rfl]

end Calls

/-! ## Runs -/

section Runs

variable {P : Primitives} {p p₀ : Participant}

theorem start_addressed {src : Op → Prop} {rep : Oid → Secret → Prop} (h : Start P src rep p) :
    Addressed p := by
  have hF := advances_framed P fun _ => False
  have hempty : ∀ q : Participant, q.send = ∅ → Addressed q := by
    intro q hq who hwho
    rw [hq] at hwho
    exact absurd hwho Std.ExtTreeMap.not_mem_empty
  cases h with
  | created h =>
      obtain ⟨_, _, _, _, _, -, hfound⟩ := create_ok h
      exact ((advances_sealing P fun _ => False).found.run hfound (hempty _ rfl)).1
  | joined hnew h _ _ =>
      obtain ⟨w, hjoin⟩ := accept_ok h
      obtain ⟨p₁, hhistory, -, o, p₂, hpublish, hnote, -⟩ := joinWith_history hjoin
      cases hnote
      obtain ⟨nodekeys, absorbed, htaken⟩ := foldl_takeOver w.entries w.start
      rw [htaken] at hhistory
      have hkeyed := hF.keyed w.start nodekeys absorbed w.start.missing
      have hread := hF.trans _ _ _ hkeyed ((hF.ingestHistory w.history).run hhistory)
      have hdone := hF.trans _ _ _ hread (hF.publishPrekeys.run hpublish)
      exact (hF.trans _ _ _ hdone (hF.noted p₂) (hempty _ rfl)).1

theorem reachable_addressed (h : Reachable P p) : Addressed p := by
  obtain ⟨p₀, hstart, hrun⟩ := h
  induction hrun with
  | start => exact start_addressed hstart
  | call c _ _ ih => exact call_addressed c ih

/-- Along a run without stale invitations every recorded generation has a successor. -/
theorem fresh_run_generation {p' : Participant} (h : RunUnder P (Fresh P) p p')
    (hp : Addressed p) : Addressed p' ∧
      ∀ who g, generation p who = some g → ∃ g', generation p' who = some g' ∧ g ≤ g' := by
  induction h with
  | start => exact ⟨hp, fun who g hg => ⟨g, hg, UInt32.le_refl g⟩⟩
  | call c _ hc ih =>
      obtain ⟨hnext, hforward⟩ := call_advances c hc ih.1
      refine ⟨hnext, fun who g hg => ?_⟩
      obtain ⟨g₁, hg₁, hle⟩ := ih.2 who g hg
      obtain ⟨g₂, hg₂, hle'⟩ := hforward.kept who g₁ hg₁
      exact ⟨g₂, hg₂, UInt32.le_trans hle hle'⟩

end Runs

/-- In every reachable state a call keeps the generations from decreasing and the channels of peers
it does not remove and does not learn a newer generation of, exactly if it is no invitation with a
key package older than the record.  So along a run without such invitations no generation
decreases. -/
theorem prekeys_forward_iff {P : Primitives} {p : Participant} (hp : Reachable P p) :
    (∀ c : Call, Forward (Removes c) p (c.run P p) ↔ Fresh P p c) ∧
    ∀ p', RunUnder P (Fresh P) p p' →
      ∀ who g, generation p who = some g → ∃ g', generation p' who = some g' ∧ g ≤ g' := by
  have haddressed := reachable_addressed hp
  refine ⟨fun c => ⟨fun hforward => ?_, fun hc => (call_advances c hc haddressed).2⟩, ?_⟩
  · cases c with
    | invite kp =>
        intro hverify hmember g hg
        obtain ⟨g', hg', hle⟩ := hforward.kept kp.ipk g hg
        have hrecord : generation ((Call.invite kp).run P p) kp.ipk = some kp.gen :=
          invite_generation hverify hmember
        obtain rfl := Option.some.inj (hrecord.symm.trans hg')
        exact hle
    | _ => trivial
  · exact fun p' hrun => (fresh_run_generation hrun haddressed).2

/-! ## A key package from before a rotation -/

section Scenario

/-- A founder that has invited a guest. -/
def patron : Participant :=
  invitation.run toy (founded toy (.leaderless 2) ([1, 5, 6, 7] ++ List.replicate 12 11))

/-- The guest announces its next generation. -/
def rotation : Op :=
  Op.create toy 2 5 patron.dag.heads (.prekeys 1 4)

def informed : Participant :=
  (Call.handle (wireOf rotation)).run toy patron

theorem patron_reachable : Reachable toy patron :=
  Reachable.next ⟨_, start_founded (by decide +kernel), .start⟩ _

/-- The same key package again does no harm. -/
theorem patron_forward : Fresh toy patron invitation ∧
    Forward (Removes invitation) patron (invitation.run toy patron) ∧
    ∃ g, generation (invitation.run toy patron) 2 = some g ∧ 0 ≤ g := by
  have hrecord : generation patron 2 = some 0 := by decide +kernel
  have hfresh : Fresh toy patron invitation := by
    intro _ _ g hg
    obtain rfl := Option.some.inj (hrecord.symm.trans hg)
    exact UInt32.le_refl 0
  have hclaim := prekeys_forward_iff patron_reachable
  exact ⟨hfresh, (hclaim.1 invitation).mpr hfresh,
    hclaim.2 _ (.call invitation .start hfresh) 2 0 hrecord⟩

/-- After the announcement the same invitation takes the founder back to the old generation. -/
theorem invitation_goes_back : Reachable toy informed ∧ generation informed 2 = some 1 ∧
    generation (invitation.run toy informed) 2 = some 0 := by
  have hchecks : generation informed 2 = some 1 ∧
      generation (invitation.run toy informed) 2 = some 0 := by decide +kernel
  exact ⟨patron_reachable.next _, hchecks⟩

end Scenario

end CausalFrontierRatchet.PrekeyGenerations
