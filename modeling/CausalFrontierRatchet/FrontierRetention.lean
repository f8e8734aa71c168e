import CausalFrontierRatchet.Emission
import CausalFrontierRatchet.NodeKeyStability

/-!
The node keys of the frontier in the bounded store.  A store drops the key that was inserted least
recently, whether or not its node still belongs to the frontier.  As long as a participant has
absorbed no more contributions than the store holds, nothing is dropped and an absorbed frontier can
be derived; one contribution more than that, and it cannot.
-/

namespace CausalFrontierRatchet.FrontierRetention

open Relation Crypto Operation KeySchedule FrontierKeys
open Messages MessageCodec Emission Member MemberSteps MemberRuns Authorisation NodeKeyStability

/-! ## Absorbed contributions -/

section Absorbed

variable {P : Primitives} {src : Op → Prop} {rep : Oid → Secret → Prop} {p p' : Participant}

/-- Every absorbed contribution is held, unless more were absorbed than the store holds. -/
structure Retentive (p : Participant) : Prop where
  stocked : Stocked p
  absorbed : ∀ n, p.nodekeys.contains n → n ∈ p.absorbed
  held : p.absorbed.size ≤ OVERLAP → ∀ n ∈ p.absorbed, p.nodekeys.contains n

theorem Retentive.order_length (h : Retentive p) : p.nodekeys.order.length ≤ p.absorbed.size := by
  have hsubset : p.nodekeys.order ⊆ p.absorbed.toList := by
    intro n hn
    rw [Std.ExtTreeSet.mem_toList]
    exact h.absorbed n (h.stocked.1.contains_iff.mpr hn)
  exact (h.stocked.1.nodup.subperm hsubset).length_le.trans_eq Std.ExtTreeSet.length_toList

theorem Retentive.insert (h : Retentive p) (oid : Oid) (key : Secret) (missing : OidSet) :
    Retentive { p with
      nodekeys := p.nodekeys.insert oid key
      absorbed := p.absorbed.insert oid
      missing } where
  stocked := ⟨h.stocked.1.insert oid key, h.stocked.2⟩
  absorbed n hn := by
    obtain ⟨k, hk⟩ := NodeKeys.contains_iff_peek.mp hn
    have hpeek := NodeKeys.peek_insert hk
    rw [Std.ExtTreeSet.mem_insert, Std.compare_eq_iff_eq]
    split_ifs at hpeek with heq
    · exact Or.inl heq
    · exact Or.inr (h.absorbed n (NodeKeys.contains_iff_peek.mpr ⟨k, hpeek⟩))
  held hfew n hn := by
    have hbound : p.absorbed.size ≤ OVERLAP := Std.ExtTreeSet.size_le_size_insert.trans hfew
    -- A new node finds room, because the store holds no more than was absorbed.
    have hroom : p.nodekeys.order.length < p.nodekeys.capacity ∨ p.nodekeys.contains oid := by
      by_cases hold : oid ∈ p.absorbed
      · exact Or.inr (h.held hbound oid hold)
      · left
        rw [h.stocked.2]
        refine Nat.lt_of_le_of_lt h.order_length ?_
        change (p.absorbed.insert oid).size ≤ OVERLAP at hfew
        rw [Std.ExtTreeSet.size_insert,
          if_neg fun hcontains => hold (Std.ExtTreeSet.contains_iff_mem.mp hcontains)] at hfew
        exact hfew
    change (p.nodekeys.insert oid key).contains n
    rw [h.stocked.1.contains_insert_room key hroom]
    rw [Std.ExtTreeSet.mem_insert, Std.compare_eq_iff_eq] at hn
    exact hn.imp_right (h.held hbound n)

theorem Retentive.steps (h : Steps P src rep p p') (hp : Retentive p) : Retentive p' := by
  induction h with
  | refl => exact hp
  | tail _ hupdate ih =>
      cases hupdate with
      | absorbed => exact ih.insert _ _ _
      | repaired => exact ih.insert _ _ _
      | _ => exact ⟨ih.stocked, ih.absorbed, ih.held⟩

theorem Reachable.retentive (h : Reachable P p) : Retentive p := by
  obtain ⟨_, _, _, _, _, _, hsteps⟩ := h.steps
  refine Retentive.steps hsteps ⟨⟨regular_default, rfl⟩, fun n hn => ?_, fun _ n hn => ?_⟩
  · simp [blank, NodeKeys.default, NodeKeys.withCapacity, NodeKeys.contains] at hn
  · simp [blank] at hn

/-- A reachable participant that has absorbed no more contributions than its store holds can derive
the key of a frontier that it has absorbed; and one more insertion drops the key of a frontier node
exactly if the store is full, the inserted node is new and the frontier node is its oldest one. -/
theorem few_absorbed_derivable (hp : Reachable P p) :
    (p.absorbed.size ≤ OVERLAP → (∀ n ∈ p.frontier, n ∈ p.absorbed) →
      (∀ n ∈ p.frontier, p.nodekeys.contains n) ∧ (p.groupKey P).isSome) ∧
    ∀ oid key, ∀ n ∈ p.frontier, p.nodekeys.contains n →
      ((p.nodekeys.insert oid key).contains n ↔ ¬Displaces p.nodekeys oid n) := by
  have hretentive := Reachable.retentive hp
  have hpos : 0 < p.nodekeys.capacity := by
    rw [hretentive.stocked.2]
    decide
  constructor
  · intro hfew habsorbed
    have hheld : ∀ n ∈ p.frontier, p.nodekeys.contains n :=
      fun n hn => hretentive.held hfew n (habsorbed n hn)
    exact ⟨hheld, groupKey_isSome hheld⟩
  · intro oid key n _ hheld
    rw [hretentive.stocked.1.contains_insert_iff hpos]
    constructor
    · rintro (rfl | ⟨-, hstays⟩)
      · exact fun hdisplaced => hdisplaced.2.1 hheld
      · exact hstays
    · exact fun hstays => Or.inr ⟨hheld, hstays⟩

end Absorbed

theorem host_derivable : host.absorbed.size = 2 ∧ (host.groupKey toy).isSome := by
  have hsize : host.absorbed.size = 2 := by decide +kernel
  have hall : host.frontier.toList.all fun n => host.absorbed.contains n := by decide +kernel
  refine ⟨hsize, ((few_absorbed_derivable host_reachable).1 (by rw [hsize]; decide) ?_).2⟩
  intro n hn
  have habsorbed := List.all_eq_true.mp hall n (Std.ExtTreeSet.mem_toList.mpr hn)
  exact Std.ExtTreeSet.contains_iff_mem.mp habsorbed

/-! ## Concurrent contributions -/

section Scenario

/-- The guest contributes to nobody, over and over from the same state of the conference. -/
def rival (i : ℕ) : Op :=
  Op.create toy 2 5 host.dag.heads (.contrib (BitVec.ofNat 256 i) ∅ [] [] 0)

def rivals : List Op :=
  (List.range 65).map rival

/-- The host takes the contributions in, and then their node keys from a repair response. -/
def rivalled : Participant :=
  (Call.handle (Message.deliver rivals []).toWire).run toy host

def rivalKeys : Message :=
  .nodeKeyResponse 2
    { eph := 17, gen := host.prekeys.generation
      ct := aeadSeal toy (envelopeKey toy (17 ^^^ host.prekeys.pub) host.sid 2 host.ipk)
        (envelopeNonce toy "repair" host.sid 17)
        (buildNodekeyPayload (rivals.map fun op => (op.oid toy, 3)))
        (envelopeAd toy "cfr/repair/ad" host.sid 2 host.ipk) }

def repaired : Participant :=
  (Call.handle rivalKeys.toWire).run toy rivalled

theorem handle_message {P : Primitives} {m : Message} (hfits : Message.Fits m) (p : Participant) :
    (Call.handle m.toWire).run P p = ((dispatch P m >>= conclude P p) p).2 := by
  rw [Call.run, handle_run (fromWire_toWire hfits)]

theorem length_rivals : rivals.length = 65 := by
  rw [rivals, List.length_map, List.length_range]

theorem rivals_fit : Message.Fits (.deliver rivals []) := by
  have hdeps : host.dag.heads.size ≤ MAX_DEPS := by decide +kernel
  have hlength : rivals.length ≤ MAX_BATCH := by
    rw [length_rivals]
    decide
  refine ⟨hlength, fun op hop => ?_, listed_nil⟩
  obtain ⟨i, -, rfl⟩ := List.mem_map.mp hop
  refine wired_of_compact ⟨?_, by simp⟩ hdeps
  exact ⟨Nat.zero_le _, Nat.zero_le _, Nat.zero_le _, by simp⟩

theorem rivalKeys_fit : Message.Fits rivalKeys := by
  have hentries := length_entries_le (rivals.map fun op => (op.oid toy, 3))
  rw [List.length_map, length_rivals] at hentries
  rw [rivalKeys, Message.Fits, length_aeadSeal fun _ _ _ _ => rfl, buildNodekeyPayload, Tlv.MAX_FIELD]
  omega

theorem repaired_checks :
    (repaired.frontier.toList.all fun n => repaired.absorbed.contains n) ∧
      repaired.groupKey toy = none := by
  rw [repaired, handle_message rivalKeys_fit, rivalled, handle_message rivals_fit]
  decide +kernel

/-- The host has absorbed every contribution of the frontier, and cannot derive its key. -/
theorem repaired_underivable : Reachable toy repaired ∧
    (∀ n ∈ repaired.frontier, n ∈ repaired.absorbed) ∧ repaired.groupKey toy = none := by
  refine ⟨(host_reachable.next _).next _, fun n hn => ?_, repaired_checks.2⟩
  have habsorbed := List.all_eq_true.mp repaired_checks.1 n (Std.ExtTreeSet.mem_toList.mpr hn)
  exact Std.ExtTreeSet.contains_iff_mem.mp habsorbed

end Scenario

end CausalFrontierRatchet.FrontierRetention
