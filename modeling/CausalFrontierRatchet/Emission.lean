import CausalFrontierRatchet.Intake
import CausalFrontierRatchet.MessageCodec
import CausalFrontierRatchet.TopologicalOrder
import CausalFrontierRatchet.WelcomeDisclosure

/-!
Whether what a participant sends can be decoded.  The encoder enforces no limit.  Batches, recipients
and node keys stay within the decoder's limits by the limits of the graph and of the key store; the
dependencies of an own operation are all heads of the graph, and nothing bounds their number.
-/

namespace CausalFrontierRatchet.Emission

open Relation BigEndian Crypto Tlv TlvCodec Operation OperationCodec OperationGraph
open CausalMembership KeySchedule Channel Messages MessageCodec Commands Member MemberSteps
open MemberRuns FrontierKeys WelcomeDisclosure TopologicalOrder Authorisation Ingest MemberActions
open Intake

/-! ## Encoded lengths -/

section Lengths

theorem length_bytes (v : Bytes) : (Writer.bytes v).length = v.length + 5 := by
  simp only [Writer.bytes, List.length_append, List.length_cons, beBytes_length]
  omega

theorem length_array {w : ℕ} (v : BitVec w) : (Writer.array v).length = w / 8 + 5 := by
  rw [Writer.array, length_bytes, bytesOf_length]

theorem length_u64 (v : UInt64) : (Writer.u64 v).length = 9 := by
  simp [Writer.u64]

theorem length_u32 (v : UInt32) : (Writer.u32 v).length = 9 :=
  length_u64 _

theorem length_flatMap_le {α : Type} {f : α → Bytes} {items : List α} {n : ℕ}
    (h : ∀ a ∈ items, (f a).length ≤ n) : (items.flatMap f).length ≤ items.length * n := by
  rw [List.length_flatMap]
  simpa using List.sum_le_card_nsmul (items.map fun a => (f a).length) n (by simpa using h)

theorem length_list_le {α : Type} {f : α → Bytes} {items : List α} {n : ℕ}
    (h : ∀ a ∈ items, (f a).length ≤ n) :
    (Writer.list f items).length ≤ items.length * n + 5 := by
  have hitems := length_flatMap_le h
  simp only [Writer.list, List.length_append, List.length_cons, beBytes_length]
  omega

theorem length_oids_le (s : OidSet) :
    (Writer.set Writer.array s.toList).length ≤ s.size * 37 + 5 := by
  have hitems : (s.toList.flatMap Writer.array).length ≤ s.toList.length * 37 :=
    length_flatMap_le fun a _ => by rw [length_array]
  rw [Std.ExtTreeSet.length_toList] at hitems
  rw [set_of_ascending (toList_ascending s)]
  simp only [List.length_append, List.length_cons, beBytes_length]
  omega

theorem length_slice_le {s : Slice} (h : s.ct.length ≤ 64) : s.encode.length ≤ 170 := by
  unfold Slice.encode
  cases s.establish with
  | none =>
      simp only [List.length_append, length_array, length_u64, length_u32, length_bytes]
      omega
  | some e =>
      simp only [List.length_append, length_array, length_u64, length_u32, length_bytes]
      omega

/-- The body fits, and its slices hold one sealed secret each. -/
def Compact : Body → Prop
  | .contrib cid cparents recips slices view =>
      Body.Fits (.contrib cid cparents recips slices view) ∧ ∀ s ∈ slices, s.ct.length ≤ 64
  | body => Body.Fits body

theorem Compact.fits {body : Body} (h : Compact body) : Body.Fits body := by
  cases body with
  | contrib cid cparents recips slices view => exact h.1
  | _ => exact h

theorem length_body_le {body : Body} (h : Compact body) : body.encode.length ≤ 70000 := by
  cases body with
  | contrib cid cparents recips slices view =>
      obtain ⟨⟨hparents, hrecips, hslices, -⟩, hcts⟩ := h
      have hlen := length_oids_le cparents
      have hlen' : (Writer.list Writer.array recips).length ≤ recips.length * 37 + 5 :=
        length_list_le fun a _ => by rw [length_array]
      have hlen'' : (Writer.list Slice.encode slices).length ≤ slices.length * 170 + 5 :=
        length_list_le fun s hs => length_slice_le (hcts s hs)
      simp only [MAX_DEPS, MAX_RECIPIENTS] at hparents hrecips hslices
      simp only [Body.encode, List.length_append, length_array]
      omega
  | prekeyRequest targets =>
      have hlen : (Writer.list Writer.array targets).length ≤ targets.length * 37 + 5 :=
        length_list_le fun a _ => by rw [length_array]
      simp only [Compact, Body.Fits, MAX_RECIPIENTS] at h
      simp only [Body.encode]
      omega
  | _ =>
      simp only [Body.encode, List.length_append, length_array, length_u32, length_u64]
      omega

theorem length_toWire_le {op : Op} (h : Compact op.body) (hdeps : op.deps.size ≤ MAX_ITEMS) :
    op.toWire.length ≤ MAX_FIELD := by
  have hbody := length_body_le h
  have hlen := length_oids_le op.deps
  simp only [Op.toWire, header, List.length_append, length_array, length_u32]
  simp only [MAX_ITEMS, MAX_FIELD] at hdeps ⊢
  omega

theorem wired_of_compact {op : Op} (h : Compact op.body) (hdeps : op.deps.size ≤ MAX_DEPS) :
    Wired op :=
  ⟨⟨hdeps, h.fits⟩, length_toWire_le h (hdeps.trans (by decide))⟩

/-- Sealing keeps the length of the plaintext. -/
def SealsLength (P : Primitives) : Prop :=
  ∀ key n plaintext ad, (P.aegisSeal key n plaintext ad).1.length = plaintext.length

theorem length_aeadSeal {P : Primitives} (h : SealsLength P) (key : Secret) (n : BitVec 256)
    (plaintext ad : Bytes) : (aeadSeal P key n plaintext ad).length = plaintext.length + 32 := by
  simp [aeadSeal, h key n plaintext ad]

theorem length_entries_le (entries : List (Oid × Secret)) :
    (Writer.list writeEntry entries).length ≤ entries.length * 74 + 5 :=
  length_list_le fun entry _ => by
    simp only [writeEntry, List.length_append, length_array]
    omega

end Lengths

/-! ## What a command sends -/

section Sending

/-- Operations of the graph, at most as many as it may hold. -/
def Held (dag : Dag) (ops : List Op) : Prop :=
  ops.length ≤ MAX_OPS ∧ ∀ op ∈ ops, ∃ o, dag.get o = some op

/-- What a participant may send: signed operations, batches from its graph, lists of identifiers and
short envelopes. -/
def Emits (p : Participant) : Message → Prop
  | .op o => o ∈ p.signed
  | .welcome _ _ sealed history pruned =>
      sealed.ct.length ≤ MAX_FIELD ∧ Held p.dag history ∧ Listed pruned
  | .sync _ heads => Listed heads
  | .deliver ops pruned => Held p.dag ops ∧ Listed pruned
  | .nodeKeyRequest _ nodes => Listed nodes
  | .nodeKeyResponse _ sealed => sealed.ct.length ≤ MAX_FIELD
  | .checkpoint _ => False

/-- Anything may have come in on the way. -/
abbrev Onward (P : Primitives) : Participant → Participant → Prop :=
  Steps P (fun _ => True) fun _ _ => True

variable {P : Primitives} {p p' : Participant}

theorem Emits.later {m : Message} (h : Emits p m) (hsteps : Onward P p p') : Emits p' m := by
  have hheld : ∀ {ops}, Held p.dag ops → Held p'.dag ops := by
    intro ops hops
    refine ⟨hops.1, fun op hop => ?_⟩
    obtain ⟨o, ho⟩ := hops.2 op hop
    exact ⟨o, hsteps.keeps ho⟩
  cases m with
  | op o => exact hsteps.signed_subset h
  | welcome sid sender sealed history pruned => exact ⟨h.1, hheld h.2.1, h.2.2⟩
  | deliver ops pruned => exact ⟨hheld h.1, h.2⟩
  | _ => exact h

/-- What can be sent can be decoded, if the operations held and signed can be. -/
theorem Emits.fits {m : Message} (h : Emits p m) (hsigned : ∀ op ∈ p.signed, Wired op)
    (hstored : ∀ o op, p.dag.get o = some op → Wired op) : Message.Fits m := by
  have hheld : ∀ {ops}, Held p.dag ops → ops.length ≤ MAX_BATCH ∧ ∀ op ∈ ops, Wired op := by
    intro ops hops
    refine ⟨hops.1, fun op hop => ?_⟩
    obtain ⟨o, ho⟩ := hops.2 op hop
    exact hstored o op ho
  cases m with
  | op o => exact hsigned o h
  | welcome sid sender sealed history pruned =>
      exact ⟨h.1, (hheld h.2.1).1, (hheld h.2.1).2, h.2.2⟩
  | deliver ops pruned => exact ⟨(hheld h.1).1, (hheld h.1).2, h.2⟩
  | _ => exact h

theorem listed_nil : Listed [] :=
  ⟨Nat.zero_le _, List.Pairwise.nil⟩

theorem listed_toList {s : OidSet} (h : s.size ≤ MAX_OPS) : Listed s.toList :=
  ⟨by rw [Std.ExtTreeSet.length_toList]; exact h, toList_ascending s⟩

/-- If the command succeeds, what it returns may be sent. -/
def Sends {α : Type} (out : α → List Outbound) (c : Act α) (p : Participant) : Prop :=
  ∀ a p', c p = (.ok a, p') → ∀ o ∈ out a, Emits p' o.message

variable {α β : Type}

theorem sends_pure {out : α → List Outbound} {a : α} (h : ∀ o ∈ out a, Emits p o.message) :
    Sends out (pure a) p := by
  intro b p' hrun
  cases hrun
  exact h

theorem sends_throw {out : α → List Outbound} (e : Error) : Sends out (throw e : Act α) p := by
  intro b p' hrun
  cases hrun

theorem sends_bind {out : β → List Outbound} {c : Act α} {f : α → Act β}
    (h : ∀ a p₁, c p = (.ok a, p₁) → Sends out (f a) p₁) : Sends out (c >>= f) p := by
  intro b p' hrun
  obtain ⟨a, p₁, hc, hf⟩ := bind_ok hrun
  exact h a p₁ hc b p' hf

/-! ### Own operations -/

theorem publish_sends (body : Body) :
    Sends (fun op => [.broadcast (.op op)]) (publish P body) p := by
  intro op p' hrun o ho
  rw [List.mem_singleton.mp ho]
  exact publish_signed hrun

theorem publishPrekeys_sends : Sends (fun o => [o]) (publishPrekeys P) p := by
  refine sends_bind fun _ p₀ _ => sends_bind fun op p₁ hpublish => sends_pure ?_
  exact publish_sends _ op p₁ hpublish

theorem rotatePrekeys_sends : Sends (fun o => [o]) (rotatePrekeys P) p :=
  sends_bind fun _ _ _ => sends_bind fun _ _ _ => publishPrekeys_sends

theorem rotateWhen_sends (due : Bool) : Sends id (rotateWhen P due) p := by
  unfold rotateWhen
  split_ifs
  · exact sends_bind fun o p₁ hrotate => sends_pure (rotatePrekeys_sends o p₁ hrotate)
  · exact sends_pure (by simp)

theorem contributeTo_sends (members : Roster) (recips : List SigPublic) :
    Sends id (contributeTo P members recips) p := by
  refine sends_bind fun p₀ p₁ _ => ?_
  dsimp only
  split_ifs
  · exact sends_throw _
  · refine sends_bind fun x p₂ _ => sends_bind fun slices p₃ _ => ?_
    refine sends_bind fun op p₄ hpublish => ?_
    have hop : ∀ o ∈ [Outbound.broadcast (.op op)], Emits p₄ o.message :=
      publish_sends _ op p₄ hpublish
    have hheld : op ∈ p₄.signed := publish_signed hpublish
    refine sends_bind fun _ p₅ habsorb => sends_bind fun _ p₆ hnote => sends_pure fun o ho => ?_
    have hsteps : Onward P p₄ p₆ :=
      ((absorb_moves x (Or.inr hheld)).run habsorb).trans (noteVersion_moves.run hnote)
    exact (hop o ho).later hsteps

theorem contributeExcluding_sends (exclude : Roster) :
    Sends id (contributeExcluding P exclude) p := by
  refine sends_bind fun p₀ p₁ _ => ?_
  dsimp only
  split_ifs
  · exact sends_throw _
  · exact sends_throw _
  · exact sends_bind fun op p₂ hpublish => sends_pure (publish_sends _ op p₂ hpublish)
  · exact contributeTo_sends _ _

/-! ### Membership -/

theorem held_filterMap (hsound : Sound P p.dag) (keep : Oid → Bool) :
    Held p.dag ((p.dag.topological.filter keep).filterMap fun o => p.dag.get o) := by
  obtain ⟨hnodup, -, hmem⟩ := topological_spec hsound.causal
  constructor
  · have hsubset : p.dag.topological ⊆ p.dag.ops.keys := by
      intro o ho
      rw [Std.ExtTreeMap.mem_keys, ← Std.ExtTreeMap.contains_iff_mem]
      exact (hmem o).mp ho
    calc _ ≤ (p.dag.topological.filter keep).length := List.length_filterMap_le _ _
      _ ≤ p.dag.topological.length := List.length_filter_le _ _
      _ ≤ p.dag.ops.keys.length := (hnodup.subperm hsubset).length_le
      _ = p.dag.ops.size := Std.ExtTreeMap.length_keys
      _ ≤ MAX_OPS := hsound.size
  · intro op hop
    obtain ⟨o, -, ho⟩ := List.mem_filterMap.mp hop
    exact ⟨o, ho⟩

variable (hseal : SealsLength P)

include hseal

theorem welcomeFor_sends (hsound : Sound P p.dag) (hstocked : Stocked p) (kp : KeyPackage) :
    Sends (fun m => [.direct kp.ipk m]) (welcomeFor P kp) p := by
  intro m p' hrun o ho
  rw [List.mem_singleton.mp ho]
  obtain ⟨entries, eph, shared, rest, hentries, -, -, rfl, rfl⟩ := welcomeFor_ok hrun
  have hcount := length_heldKeys hstocked.1 (nodup_toList _) hentries
  have hlen := length_entries_le entries
  refine ⟨?_, ?_, listed_nil⟩
  · rw [hstocked.2, OVERLAP] at hcount
    simp only [length_aeadSeal hseal, buildWelcomePayload, List.length_append, length_array,
      MAX_FIELD]
    omega
  · have hheld := held_filterMap hsound fun _ => true
    rwa [List.filter_true] at hheld

theorem invite_sends (hp : Steady P p) (hstocked : Stocked p) (kp : KeyPackage) :
    Sends id (invite P kp) p := by
  intro out p' hrun
  obtain ⟨-, -, add, p₁, rotation, p₂, welcome, p₃, contribution, p₄, hadd, hrotate, hwelcome,
    hcontribute, hnote, rfl⟩ := invite_ok hrun
  have hsteps₁ : Onward P p p₁ := ReflTransGen.head (.channels _ _ _ _) ((publish_moves _).run hadd)
  have hsteps₂ : Onward P p₁ p₂ := (rotateWhen_moves _).run hrotate
  have hsteps₃ : Onward P p₂ p₃ := (welcomeFor_moves kp).run hwelcome
  have hsteps₄ : Onward P p₃ p₄ := (contributeExcluding_moves ∅).run hcontribute
  have hsteps₅ : Onward P p₄ p' := noteVersion_moves.run hnote
  have hbefore : Onward P p p₂ := hsteps₁.trans hsteps₂
  have hsound := (hbefore.steady hp).sound
  intro o ho
  simp only [id_eq, List.mem_append] at ho
  rcases ho with ((hadmission | hrotation) | hwelcomed) | hcontribution
  · exact (publish_sends _ add p₁ hadd o hadmission).later
      (((hsteps₂.trans hsteps₃).trans hsteps₄).trans hsteps₅)
  · exact (rotateWhen_sends _ rotation p₂ hrotate o hrotation).later
      ((hsteps₃.trans hsteps₄).trans hsteps₅)
  · have hwelcomes := welcomeFor_sends hseal hsound (Steps.stocked hbefore hstocked) kp
    exact (hwelcomes welcome p₃ hwelcome o hwelcomed).later (hsteps₄.trans hsteps₅)
  · exact (contributeExcluding_sends ∅ contribution p₄ hcontribute o hcontribution).later hsteps₅

omit hseal

theorem remove_sends (who : SigPublic) : Sends id (remove P who) p := by
  refine sends_bind fun op p₁ hpublish => sends_bind fun contribution p₂ hcontribute => ?_
  refine sends_bind fun _ p₃ herase => sends_bind fun _ p₄ hnote => sends_pure fun o ho => ?_
  have hsteps₂ : Onward P p₁ p₂ := (contributeExcluding_moves _).run hcontribute
  have hsteps₃ : Onward P p₂ p₃ := (moves_modify (Update.channels _ _ _ _).steps).run herase
  have hsteps₄ : Onward P p₃ p₄ := noteVersion_moves.run hnote
  rcases List.mem_cons.mp ho with rfl | hcontribution
  · exact (publish_sends _ op p₁ hpublish _ List.mem_cons_self).later
      ((hsteps₂.trans hsteps₃).trans hsteps₄)
  · exact (contributeExcluding_sends _ contribution p₂ hcontribute o hcontribution).later
      (hsteps₃.trans hsteps₄)

theorem leave_sends : Sends (fun o => [o]) (leave P) p :=
  sends_bind fun _ _ _ => sends_bind fun op p₁ hpublish =>
    sends_pure (publish_sends _ op p₁ hpublish)

/-! ### Inbound operations -/

theorem openChannel_sends (op : Op) (gen : UInt32) (eph : DhPublic) :
    Sends (fun opening => match opening with
      | .stop out => out
      | .proceed => []) (openChannel P op gen eph) p := by
  refine sends_bind fun p₀ p₁ _ => ?_
  dsimp only
  split_ifs
  · exact sends_pure (by simp)
  · exact sends_bind fun _ _ _ => sends_pure (by simp)
  · split
    · refine sends_bind fun _ _ _ => sends_bind fun o p₂ hrotate => sends_pure ?_
      exact rotatePrekeys_sends o p₂ hrotate
    · exact sends_bind fun _ _ _ => sends_pure (by simp)

theorem receiveContribution_sends (op : Op) : Sends id (receiveContribution P op) p := by
  refine sends_bind fun p₀ p₁ _ => ?_
  split
  · split
    · exact sends_pure (by simp)
    · refine sends_bind fun opening p₂ hannounce => ?_
      split
      · rename_i slice _ _ out
        refine sends_pure ?_
        cases hestablish : slice.establish with
        | none =>
            rw [hestablish] at hannounce
            cases hannounce
        | some announced =>
            rw [hestablish] at hannounce
            exact openChannel_sends op _ _ _ p₂ hannounce
      · exact sends_bind fun _ _ _ => sends_pure (by simp)
  · exact sends_pure (by simp)

theorem applyOp_sends (op : Op) : Sends id (applyOp P op) p := by
  refine sends_bind fun p₀ p₁ _ => ?_
  split
  · exact sends_bind fun _ _ _ => sends_pure (by simp)
  · exact receiveContribution_sends op
  · exact sends_bind fun _ _ _ => sends_pure (by simp)
  · exact rotateWhen_sends _
  · exact rotateWhen_sends _
  · exact sends_pure (by simp)

theorem ingest_sends (hp : Steady P p) (op : Op) : Sends id (ingest P op) p := by
  intro out p' hrun
  have houtcome := ingest_outcome hp op
  generalize ingest P op p = result at houtcome hrun
  cases houtcome with
  | stored h => exact applyOp_sends op out p' hrun
  | known h =>
      cases hrun
      simp
  | waiting hsid hsig hnew hdeps =>
      cases hrun
      simp
  | invalid h => cases hrun
  | unauthorised hdeps hauth => cases hrun
  | full h => cases hrun

theorem tidy_of_steady (hp : Steady P p) : Tidy P (fun _ => True) p :=
  ⟨hp.sound, hp.parked, fun _ _ => trivial⟩

theorem ingest_onward (hp : Steady P p) (op : Op) : Moves (Onward P) (ingest P op) p :=
  ingest_moves (tidy_of_steady hp) trivial

theorem ingestAll_sends (hp : Steady P p) (ops : List Op) : Sends id (ingestAll P ops) p := by
  induction ops generalizing p with
  | nil => exact sends_pure (by simp)
  | cons op ops ih =>
      refine sends_bind fun first p₁ hfirst => sends_bind fun rest p₂ hrest => sends_pure ?_
      have hrun : ingest P op p = (first, p₁) := run_of_attempt hfirst
      have hp₁ := Steps.steady ((ingest_onward hp op).run hrun) hp
      have hsteps : Onward P p₁ p₂ :=
        (ingestAll_moves (tidy_of_steady hp₁) fun _ _ => trivial).run hrest
      intro o ho
      rcases List.mem_append.mp ho with hhere | hthere
      · cases first with
        | error e => cases hhere
        | ok out => exact (ingest_sends hp op out p₁ hrun o hhere).later hsteps
      · exact ih hp₁ rest p₂ hrest o hthere

theorem drainPass_sends (hp : Steady P p) (waiting : List Op) :
    Sends (fun r => r.2.2) (drainPass P waiting) p := by
  induction waiting generalizing p with
  | nil => exact sends_pure (by simp)
  | cons op waiting ih =>
      refine sends_bind fun p₀ _ hget => ?_
      cases hget
      dsimp only
      split_ifs
      · exact sends_bind fun r p₁ hpass => sends_pure (ih hp r p₁ hpass)
      · refine sends_bind fun first p₁ hfirst => ?_
        have hrun : ingest P op p = (first, p₁) := run_of_attempt hfirst
        have hp₁ := Steps.steady ((ingest_onward hp op).run hrun) hp
        cases first with
        | error e => exact ih hp₁
        | ok out =>
            refine sends_bind fun r p₂ hpass => sends_pure fun o ho => ?_
            have hsteps : Onward P p₁ p₂ :=
              (drainPass_moves (tidy_of_steady hp₁) fun _ _ => trivial).run hpass
            rcases List.mem_append.mp ho with hhere | hthere
            · exact (ingest_sends hp op out p₁ hrun o hhere).later hsteps
            · exact ih hp₁ r p₂ hpass o hthere

theorem drainRounds_sends (hp : Steady P p) (rounds : ℕ) (waiting : List Op) :
    Sends id (drainRounds P rounds waiting) p := by
  induction rounds generalizing p waiting with
  | zero => exact sends_bind fun _ _ _ => sends_pure (by simp)
  | succ rounds ih =>
      refine sends_bind fun r p₁ hpass => ?_
      obtain ⟨deferred, progressed, out⟩ := r
      have hp₁ := Steps.steady
        ((drainPass_moves (tidy_of_steady hp) fun _ _ => trivial).run hpass : Onward P p p₁) hp
      have hout := drainPass_sends hp waiting _ p₁ hpass
      dsimp only
      split_ifs
      · refine sends_bind fun later p₂ hlater => sends_pure fun o ho => ?_
        have hsteps : Onward P p₁ p₂ :=
          (drainRounds_moves (tidy_of_steady hp₁) rounds fun _ _ => trivial).run hlater
        rcases List.mem_append.mp ho with hhere | hthere
        · exact (hout o hhere).later hsteps
        · exact ih hp₁ deferred later p₂ hlater o hthere
      · refine sends_bind fun _ p₂ hkeep => sends_pure fun o ho => ?_
        have hsteps : Onward P p₁ p₂ :=
          (moves_modify (Update.pending fun _ _ => trivial).steps).run hkeep
        exact (hout o ho).later hsteps

theorem drainPending_sends (hp : Steady P p) : Sends id (drainPending P) p := by
  refine sends_bind fun p₀ _ hget => ?_
  cases hget
  refine sends_bind fun _ p₁ hclear => ?_
  cases hclear
  have hclear : Steady P { p with pending := [] } := ⟨hp.sound, hp.parked⟩
  exact drainRounds_sends hclear _ _

/-! ### Messages -/

theorem heads_size_le (hsound : Sound P p.dag) : p.dag.heads.size ≤ MAX_OPS := by
  have hsubset : p.dag.heads.toList ⊆ p.dag.ops.keys := by
    intro o ho
    rw [Std.ExtTreeMap.mem_keys, ← Std.ExtTreeMap.contains_iff_mem]
    exact (mem_heads.mp (Std.ExtTreeSet.mem_toList.mp ho)).1
  calc p.dag.heads.size = p.dag.heads.toList.length := Std.ExtTreeSet.length_toList.symm
    _ ≤ p.dag.ops.keys.length := ((nodup_toList _).subperm hsubset).length_le
    _ = p.dag.ops.size := Std.ExtTreeMap.length_keys
    _ ≤ MAX_OPS := hsound.size

theorem syncRequest_emits (hsound : Sound P p.dag) : Emits p (syncRequest p).message :=
  listed_toList (heads_size_le hsound)

theorem answerSync_emits (hsound : Sound P p.dag) (sender : SigPublic) (heads : List Oid) :
    ∀ o ∈ answerSync p sender heads, Emits p o.message := by
  intro o ho
  unfold answerSync at ho
  split at ho
  · cases ho
  · rcases List.mem_append.mp ho with hbatch | hrequest
    · split at hbatch
      · cases hbatch
      · rw [List.mem_singleton.mp hbatch]
        exact ⟨held_filterMap hsound _, listed_nil⟩
    · split at hrequest
      · rw [List.mem_singleton.mp hrequest]
        exact listed_toList (heads_size_le hsound)
      · cases hrequest

/-- A sealed payload is as long as the payload and the tag. -/
theorem sealEnvelope_length (hseal : SealsLength P) {adLabel nonceLabel : String}
    {recipient : SigPublic} {gen : UInt32} {pk : DhPublic} {payload : Bytes} {sealed : Envelope}
    (h : sealEnvelope P adLabel nonceLabel recipient gen pk payload p = (.ok sealed, p')) :
    sealed.ct.length = payload.length + 32 := by
  obtain ⟨eph, shared, rest, -, -, -, rfl⟩ := sealEnvelope_ok h
  exact length_aeadSeal hseal _ _ _ _

include hseal in
theorem answerNodeKeysFor_sends (recipient : SigPublic) {nodes : List Oid}
    (hnodes : nodes.length ≤ MAX_BATCH) :
    Sends Option.toList (answerNodeKeysFor P recipient nodes) p := by
  refine sends_bind fun p₀ p₁ _ => ?_
  dsimp only
  split_ifs
  · exact sends_pure (by simp)
  · exact sends_pure (by simp)
  · split
    · exact sends_throw _
    · refine sends_bind fun sealed p₂ hsealed => sends_pure fun o ho => ?_
      cases Option.mem_toList.mp ho
      have hentries := List.length_filterMap_le (fun n =>
        if p₀.frontier.contains n then (p₀.nodekeys.peek n).map fun key => (n, key) else none) nodes
      have hpayload := length_entries_le (nodes.filterMap fun n =>
        if p₀.frontier.contains n then (p₀.nodekeys.peek n).map fun key => (n, key) else none)
      have hlength := sealEnvelope_length hseal hsealed
      change sealed.ct.length ≤ MAX_FIELD
      rw [hlength, buildNodekeyPayload]
      simp only [MAX_BATCH, MAX_FIELD] at hnodes ⊢
      omega

include hseal in
theorem dispatch_sends (hp : Steady P p) {m : Message}
    (hm : Message.Fits m ∨ ∃ c, m = .checkpoint c) : Sends Prod.snd (dispatch P m) p := by
  cases m with
  | op o => exact sends_bind fun out p₁ hrun => sends_pure (ingest_sends hp o out p₁ hrun)
  | deliver ops pruned =>
      exact sends_bind fun out p₁ hrun => sends_pure (ingestAll_sends hp ops out p₁ hrun)
  | sync sender heads =>
      refine sends_bind fun p₀ _ hget => ?_
      cases hget
      exact sends_pure (answerSync_emits hp.sound sender heads)
  | nodeKeyRequest sender nodes =>
      have hnodes : nodes.length ≤ MAX_BATCH := by
        rcases hm with hfits | ⟨c, hc⟩
        · exact hfits.1
        · cases hc
      exact sends_bind fun out p₁ hrun =>
        sends_pure (answerNodeKeysFor_sends hseal sender hnodes out p₁ hrun)
  | nodeKeyResponse sender sealed => exact sends_bind fun _ _ _ => sends_pure (by simp)
  | checkpoint certificate =>
      exact sends_bind fun _ _ _ => sends_bind fun _ _ _ => sends_pure (by simp)
  | welcome sid sender sealed history pruned => exact sends_throw _

theorem conclude_sends (hp : Steady P p) (before : Participant) {result : List Event × List Outbound}
    (hresult : ∀ o ∈ result.2, Emits p o.message) : Sends Prod.snd (conclude P before result) p := by
  refine sends_bind fun drained p₁ hdrain => sends_bind fun changes p₂ hsettle => sends_pure ?_
  have hdrained : Onward P p p₁ := (drainPending_moves (tidy_of_steady hp)).run hdrain
  have hsettled : Onward P p₁ p₂ := (settle_moves before).run hsettle
  intro o ho
  rcases List.mem_append.mp ho with hfirst | hlater
  · exact (hresult o hfirst).later (hdrained.trans hsettled)
  · exact (drainPending_sends hp drained p₁ hdrain o hlater).later hsettled

include hseal in
theorem handle_sends (hp : Steady P p) (wire : Bytes) : Sends Prod.snd (handle P wire) p := by
  intro a p' hrun
  cases hm : Message.fromWire P wire with
  | error e =>
      rw [handle_error hm] at hrun
      cases hrun
  | ok m =>
      rw [handle_run hm] at hrun
      refine sends_bind (fun result p₁ hdispatch => ?_) a p' hrun
      have hsteps : Onward P p p₁ :=
        (dispatch_moves (tidy_of_steady hp) m (fun _ _ => trivial) fun _ _ _ => trivial).run hdispatch
      exact conclude_sends (hsteps.steady hp) p
        (dispatch_sends hseal hp (fits_of_fromWire hm) result p₁ hdispatch)

theorem missing_size_le (hsound : Sound P p.dag) :
    (p.nodekeys.missing p.frontier).size ≤ MAX_OPS := by
  have hsubset : (p.nodekeys.missing p.frontier).toList ⊆ p.dag.ops.keys := by
    intro o ho
    have hfrontier : o ∈ p.frontier := by
      have hmem := Std.ExtTreeSet.mem_toList.mp ho
      rw [NodeKeys.missing, Std.ExtTreeSet.mem_filter] at hmem
      exact hmem.1
    obtain ⟨⟨op, hop, -⟩, -⟩ := mem_frontier.mp hfrontier
    rw [Std.ExtTreeMap.mem_keys, ← Std.ExtTreeMap.contains_iff_mem]
    exact contains_iff.mpr ⟨op, hop⟩
  calc _ = (p.nodekeys.missing p.frontier).toList.length := Std.ExtTreeSet.length_toList.symm
    _ ≤ p.dag.ops.keys.length := ((nodup_toList _).subperm hsubset).length_le
    _ = p.dag.ops.size := Std.ExtTreeMap.length_keys
    _ ≤ MAX_OPS := hsound.size

theorem repairRequest_sends (hsound : Sound P p.dag) :
    Sends (fun r => r.getD []) (repairRequest P) p := by
  have hrequest : Listed (p.nodekeys.missing p.frontier).toList :=
    listed_toList (missing_size_le hsound)
  refine sends_bind fun p₀ _ hget => ?_
  cases hget
  dsimp only
  split_ifs
  · exact sends_pure (by simp)
  · refine sends_bind fun r p₁ hrotate => ?_
    have hrun : rotatePrekeys P p = (r, p₁) := run_of_attempt hrotate
    cases r with
    | error e => exact sends_pure (by simp)
    | ok rotation =>
        refine sends_pure fun o ho => ?_
        rcases List.mem_cons.mp ho with hhead | htail
        · exact rotatePrekeys_sends rotation p₁ hrun o (List.mem_singleton.mpr hhead)
        · rw [List.mem_singleton.mp htail]
          exact hrequest
  · refine sends_pure fun o ho => ?_
    rw [List.mem_singleton.mp ho]
    exact hrequest

end Sending

/-! ## What is signed fits -/

section Fitting

variable {P : Primitives} {p p' : Participant}

/-- The participant may sign the body: it has few heads, and the body is compact. -/
def Writable (p : Participant) (body : Body) : Prop :=
  p.dag.heads.size ≤ MAX_DEPS ∧ Compact body

/-- Everything held, buffered and signed can be decoded. -/
structure Fitting (P : Primitives) (p : Participant) : Prop where
  consistent : Consistent P p
  stocked : Stocked p
  stored : ∀ o op, p.dag.get o = some op → Wired op
  signed : ∀ op ∈ p.signed, Wired op
  pending : ∀ op ∈ p.pending, Wired op

theorem heads_published (hsound : Sound P p.dag) (body : Body) (h : p.dag.heads.size ≤ MAX_DEPS) :
    (published P p body).dag.heads.size ≤ MAX_DEPS := by
  rcases published_cases (P := P) p body with hsame | hadd
  · rwa [hsame]
  · have hheads : (published P p body).dag.heads.toList ⊆ [(p.sign P body).oid P] := by
      intro a ha
      obtain ⟨hcontains, hlast⟩ := mem_heads.mp (Std.ExtTreeSet.mem_toList.mp ha)
      rcases hadd.contains.mp hcontains with hnew | hold
      · rw [hnew]
        exact List.mem_singleton_self a
      · -- An old head is a dependency of the new operation, and any other has a child already.
        have hne := hadd.ne_of_contains hold
        by_cases hhead : a ∈ p.dag.heads
        · exact absurd (hadd.parent.mpr (Or.inl ⟨rfl, hhead, hold⟩)) (hlast _)
        · refine absurd (mem_heads.mpr ⟨hold, fun b hb => hlast b ?_⟩) hhead
          exact hadd.parent.mpr (Or.inr ⟨hadd.ne_of_contains (hsound.parent hb).2.1, hb⟩)
    have hone := ((nodup_toList _).subperm hheads).length_le
    rw [Std.ExtTreeSet.length_toList, List.length_singleton] at hone
    exact hone.trans (by decide)

variable {may : Participant → Body → Prop} {convicts : Participant → SigPublic → Prop}

theorem heads_acts (h : Acts P may convicts p p') (hsound : Sound P p.dag)
    (hp : p.dag.heads.size ≤ MAX_DEPS) : p'.dag.heads.size ≤ MAX_DEPS := by
  induction h with
  | refl => exact hp
  | tail hacts haction ih =>
      cases haction with
      | silent h => rwa [h.dag]
      | published h => exact heads_published (Acts.sound hacts hsound) _ ih
      | convicted h => exact ih

theorem Fitting.published (hp : Fitting P p) {body : Body} (h : Writable p body) :
    Fitting P (published P p body) := by
  have hwired : Wired (p.sign P body) := wired_of_compact h.2 h.1
  refine ⟨hp.consistent.published body, hp.stocked, fun o op hop => ?_, fun op hop => ?_, hp.pending⟩
  · rcases published_cases (P := P) p body with hsame | hadd
    · rw [hsame] at hop
      exact hp.stored o op hop
    · rw [hadd.get] at hop
      split_ifs at hop
      · cases hop
        exact hwired
      · exact hp.stored o op hop
  · rcases List.mem_cons.mp hop with rfl | hold
    · exact hwired
    · exact hp.signed op hold

theorem Fitting.silent (hp : Fitting P p) (h : Silent p p') : Fitting P p' where
  consistent := hp.consistent.silent h
  stocked := h.stocked hp.stocked
  stored := by rw [h.dag]; exact hp.stored
  signed := by rw [h.signed]; exact hp.signed
  pending := by rw [h.pending]; exact hp.pending

theorem Fitting.acts (hp : Fitting P p) (h : Acts P Writable (fun _ _ => True) p p') :
    Fitting P p' := by
  induction h with
  | refl => exact hp
  | tail _ haction ih =>
      cases haction with
      | silent h => exact ih.silent h
      | published h => exact ih.published h
      | convicted h =>
          have hc := ih.consistent
          exact ⟨⟨hc.sound, hc.complete, hc.parked, hc.key, hc.buffered⟩, ih.stocked, ih.stored,
            ih.signed, ih.pending⟩

theorem permits_announces (hp : p.dag.heads.size ≤ MAX_DEPS) : Permits Writable p Announces := by
  intro p' body hsilent hbody
  obtain ⟨gen, pk, rfl⟩ := hbody
  exact ⟨by rwa [hsilent.dag], trivial⟩

theorem permits_contributes (hseal : SealsLength P) (hstocked : Stocked p)
    (hp : p.dag.heads.size ≤ MAX_DEPS) (exclude : Roster) :
    Permits Writable p (Contributes P p exclude) := by
  intro p' body hsilent hbody
  refine ⟨by rwa [hsilent.dag], ?_⟩
  rcases hbody.form with ⟨targets, htargets, rfl⟩ | ⟨hchained, x, slices, hsliced, rfl⟩
  · exact htargets.length_le.trans hbody.few
  · have hparents : (p.chainableParents p.members).size ≤ MAX_DEPS := by
      rcases hchained with hempty | hcombine
      · rw [Std.ExtTreeSet.isEmpty_iff.mp hempty]
        exact Nat.zero_le _
      · refine (size_le_of_combine hstocked.1 hcombine).trans ?_
        rw [hstocked.2]
        decide
    have hcount : slices.length = (recipients p exclude).length := by
      rw [← hsliced.recipients, List.length_map]
    have hcts : ∀ s ∈ slices, s.ct.length = 64 := by
      intro s hs
      obtain ⟨key, n, ad, hct⟩ := hsliced.sealed s hs
      rw [hct, length_aeadSeal hseal, bytesOf_length]
    refine ⟨⟨hparents, hbody.few, hcount ▸ hbody.few, fun s hs => ?_⟩, fun s hs => (hcts s hs).le⟩
    rw [Slice.Fits, hcts s hs]
    decide

end Fitting

/-! ## Runs -/

section Running

variable (P : Primitives)

/-- An operation that is stored and makes the participant sign something finds few heads. -/
def FewHeadsAt (p : Participant) (op : Op) : Prop :=
  ∀ dag, Accepts P p op dag → Provokes { p with dag } op → dag.heads.size ≤ MAX_DEPS

/-- What is asked of a call: a participant that may sign something has few heads. -/
def CallFewHeads (p : Participant) : Call → Prop
  | .tick => True
  | .handle wire => HandledUnder P (FewHeadsAt P) p wire
  | .repairRequest => p.prekeys.isSealed → ¬(p.nodekeys.missing p.frontier).isEmpty →
      p.dag.heads.size ≤ MAX_DEPS
  | _ => p.dag.heads.size ≤ MAX_DEPS

variable {P} {p p' : Participant}

/-- What a command that may be sent by returns is emitted in the state it ends in. -/
theorem Sends.emitted {α : Type} {out : α → List Outbound} {c : Act α} (h : Sends out c p) :
    ∀ o ∈ ((c p).1.toOption.map out).getD [], Emits (c p).2 o.message := by
  rcases hrun : c p with ⟨e | a, p'⟩
  · intro o ho
    cases ho
  · exact h a p' hrun

theorem emitted_emits (hseal : SealsLength P) (hp : Steady P p) (hstocked : Stocked p) (c : Call) :
    ∀ o ∈ emitted P p c, Emits (c.run P p) o.message := by
  have hid : ∀ {c : Act (List Outbound)}, Sends id c p →
      ∀ o ∈ (c p).1.toOption.getD [], Emits (c p).2 o.message := by
    intro c hsends
    have hemitted := hsends.emitted
    rwa [Option.map_id] at hemitted
  cases c with
  | publishPrekeys => exact publishPrekeys_sends.emitted
  | rotatePrekeys => exact rotatePrekeys_sends.emitted
  | tick => simp [emitted]
  | contribute exclude => exact hid (contributeExcluding_sends exclude)
  | invite kp => exact hid (invite_sends hseal hp hstocked kp)
  | remove who => exact hid (remove_sends who)
  | leave => exact leave_sends.emitted
  | handle wire => exact (handle_sends hseal hp wire).emitted
  | repairRequest => exact (repairRequest_sends hp.sound).emitted

variable (hseal : SealsLength P)

theorem Fitting.ingest (hp : Fitting P p) {op : Op} (hwired : Wired op) (hop : FewHeadsAt P p op) :
    Fitting P (ingest P op p).2 := by
  have houtcome := ingest_outcome hp.consistent.steady op
  generalize Member.ingest P op p = result at houtcome
  cases houtcome with
  | invalid h => exact hp
  | known h => exact hp
  | waiting hsid hsig hnew hdeps =>
      obtain ⟨pending, heq, hpending⟩ := park_eq (p := p) op
      rw [heq]
      have hc := hp.consistent
      refine ⟨⟨hc.sound, hc.complete, hc.parked, hc.key, hc.buffered⟩, hp.stocked, hp.stored,
        hp.signed, fun o ho => ?_⟩
      rcases hpending o ho with hold | rfl
      · exact hp.pending o hold
      · exact hwired
  | unauthorised hdeps hauth => exact hp
  | full h => exact hp
  | @stored dag h =>
      have hheld : dag.get (op.oid P) = some op := by rw [h.added.get, if_pos rfl]
      have hstored : Fitting P { p with dag } := by
        refine ⟨hp.consistent.added h.added (depsAvailable_iff.mp h.deps), hp.stocked,
          fun o op' hop' => ?_, hp.signed, hp.pending⟩
        change dag.get o = some op' at hop'
        rw [h.added.get] at hop'
        split_ifs at hop'
        · cases hop'
          exact hwired
        · exact hp.stored o op' hop'
      have hc := hstored.consistent
      have hacts : Moves (Acts P Writable fun _ _ => True) (applyOp P op) { p with dag } := by
        refine applyOp_acts hc.sound hc.buffered hheld ?_ ?_ fun _ _ _ _ _ _ => trivial
        · exact fun hprovokes => permits_announces (hop dag h hprovokes)
        · intro _ hprovokes p' _ hacts _ _ _
          exact ⟨trivial, fun _ _ _ => ⟨heads_acts hacts hc.sound (hop dag h hprovokes), trivial⟩⟩
      exact hstored.acts hacts

theorem fitting_kept : Kept P (Fitting P) Wired (FewHeadsAt P) where
  silent _ _ h hq := hq.silent h
  pending _ _ hq hwaiting := ⟨⟨hq.1.sound, hq.1.complete, hq.1.parked, hq.1.key, hq.1.buffered⟩,
    hq.stocked, hq.stored, hq.signed, hwaiting⟩
  buffered _ hq := hq.pending
  ingest _ _ hq hwired hop := hq.ingest hwired hop

theorem wired_carried {wire : Bytes} {m : Message} (h : Message.fromWire P wire = .ok m) :
    ∀ op ∈ carried m, Wired op := by
  rcases fits_of_fromWire h with hfits | ⟨c, rfl⟩
  · cases m with
    | op o => simpa [carried, Message.Fits] using hfits
    | deliver ops pruned => exact hfits.2.1
    | _ => simp [carried]
  · simp [carried]

include hseal in
theorem Fitting.call (hp : Fitting P p) (c : Call) (hc : CallFewHeads P p c) :
    Fitting P (c.run P p) := by
  have hsound := hp.consistent.sound
  have hlater : ∀ {exclude : Roster}, p.dag.heads.size ≤ MAX_DEPS →
      ∀ p', Acts P Writable (fun _ _ => True) p p' →
        Permits Writable p' (Contributes P p' exclude) :=
    fun hfew p' hacts =>
      permits_contributes hseal (hacts.stocked hp.stocked) (heads_acts hacts hsound hfew) _
  cases c with
  | publishPrekeys =>
      exact hp.acts (publishPrekeys_acts (permits_announces hc))
  | rotatePrekeys =>
      exact hp.acts (rotatePrekeys_acts (permits_announces hc))
  | tick => exact hp.silent silent_fields
  | contribute exclude =>
      exact hp.acts (contributeExcluding_acts (hlater hc p ReflTransGen.refl))
  | invite kp =>
      refine hp.acts (invite_acts (fun _ p' body hsilent hbody => ?_) (fun _ p' hacts => ?_)
        (hlater hc))
      · subst hbody
        exact ⟨by rwa [hsilent.dag], trivial⟩
      · exact permits_announces (heads_acts hacts hsound hc)
  | remove who => exact hp.acts (remove_acts ⟨hc, trivial⟩ (hlater hc))
  | leave => exact hp.acts (leave_acts ⟨hc, trivial⟩)
  | handle wire => exact fitting_kept.guarded.handle hp fun m hm => ⟨wired_carried hm, hc m hm⟩
  | repairRequest =>
      exact hp.acts
        (repairRequest_acts fun hsealed hmissing => permits_announces (hc hsealed hmissing))

/-! ### Founders and newcomers -/

theorem blank_fitting (identity : Secret) (sid : SessionId) (policy : Policy) (seed0 : Secret)
    (prekeys : PrekeyPool) (entropy : List Secret) :
    Fitting P (blank P identity sid policy seed0 prekeys entropy) where
  consistent := blank_consistent ..
  stocked := ⟨regular_default, rfl⟩
  stored := fun o op hop => by simp [blank, Dag.new, Dag.get] at hop
  signed := fun op hop => by simp [blank] at hop
  pending := fun op hop => by simp [blank] at hop

include hseal in
theorem founded_fitting {out : List Outbound} (hp : Fitting P p) (hblank : p.dag = Dag.new)
    (h : found P p = (.ok out, p')) : Fitting P p' := by
  have hfew : p.dag.heads.size ≤ MAX_DEPS := by
    rw [hblank]
    decide
  have hfounder : Fitting P (published P p (.add p.ipk)) := hp.published ⟨hfew, trivial⟩
  have hone := heads_published (P := P) hp.consistent.sound (.add p.ipk) hfew
  have hacts : Acts P Writable (fun _ _ => True) (published P p (.add p.ipk)) (found P p).2 := by
    refine found_acts (permits_announces hone) fun p' hacts => ?_
    exact permits_contributes hseal (hacts.stocked hfounder.stocked)
      (heads_acts hacts hfounder.consistent.sound hone) ∅
  rw [h] at hacts
  exact hfounder.acts hacts

theorem joined_fitting {entries : List (Oid × Secret)} {history : List Op} {out : List Outbound}
    (hp : Fitting P p) (hwired : ∀ op ∈ history, Wired op)
    (hfew : ∀ x ∈ intake P history (entries.foldl takeOver p), FewHeadsAt P x.1 x.2)
    (hsettled : ∀ p₁, ingestHistory P history (entries.foldl takeOver p) = (.ok (), p₁) →
      p₁.dag.heads.size ≤ MAX_DEPS)
    (h : joinWith P entries history p = (.ok out, p')) : Fitting P p' := by
  obtain ⟨p₁, hhistory, -, o, p₂, hpublish, hnote, -⟩ := joinWith_history h
  have hp₁ : Fitting P p₁ :=
    (fitting_kept.guarded.ingestHistory_keeps hwired hfew).run hhistory
      (hp.silent (takeOver_silent entries))
  have hp₂ : Fitting P p₂ :=
    hp₁.acts ((publishPrekeys_acts (permits_announces (hsettled p₁ hhistory))).run hpublish)
  exact hp₂.silent (noteVersion_silent.run hnote)

variable (P) in
/-- A founder; or a newcomer that had few heads whenever the history made it sign something. -/
def FewHeadsStart : Participant → Prop :=
  StartUnder P (FewHeadsAt P) fun p => p.dag.heads.size ≤ MAX_DEPS

variable (P) in
/-- A run in which the participant had few heads whenever it may have signed something. -/
def FewHeadsRun : Participant → Participant → Prop :=
  RunUnder P (CallFewHeads P)

include hseal in
theorem FewHeadsStart.fitting (h : FewHeadsStart P p) : Fitting P p := by
  cases h with
  | created h =>
      obtain ⟨identity, sid, seed0, prekey, rest, -, hfound⟩ := create_ok h
      exact founded_fitting hseal (blank_fitting ..) rfl hfound
  | joined hnew h hfew hsettled =>
      obtain ⟨w, hjoin⟩ := accept_ok h
      refine joined_fitting (blank_fitting ..) ?_ (hfew w) (hsettled w) hjoin
      rcases fits_of_fromWire w.parsed with hfits | ⟨c, hc⟩
      · exact hfits.2.2.1
      · cases hc

include hseal in
theorem FewHeadsRun.fitting {p₀ : Participant} (h : FewHeadsRun P p₀ p) (hp₀ : Fitting P p₀) :
    Fitting P p :=
  RunUnder.invariant h hp₀ fun _ c hq hc => hq.call hseal c hc

end Running

/-- In every run in which the participant has few heads whenever it may sign something, every payload
a call returns decodes to the message that was sent, and so does a request for synchronisation. -/
theorem few_heads_run_decodes {P : Primitives} (hseal : SealsLength P) {p₀ p : Participant}
    (hstart : FewHeadsStart P p₀) (hrun : FewHeadsRun P p₀ p) :
    (∀ c, CallFewHeads P p c → ∀ o ∈ emitted P p c, Message.fromWire P o.payload = .ok o.message) ∧
      Message.fromWire P (syncRequest p).payload = .ok (syncRequest p).message := by
  have hp : Fitting P p := FewHeadsRun.fitting hseal hrun (hstart.fitting hseal)
  constructor
  · intro c hc o ho
    have hnext : Fitting P (c.run P p) := hp.call hseal c hc
    have hemits := emitted_emits hseal hp.consistent.steady hp.stocked c o ho
    exact fromWire_toWire (hemits.fits hnext.signed hnext.stored)
  · have hemits : Emits p (syncRequest p).message := syncRequest_emits hp.consistent.sound
    exact fromWire_toWire (hemits.fits hp.signed hp.stored)

theorem host_decodes : FewHeadsRun toy opener host ∧ emitted toy host .leave ≠ [] ∧
    ∀ o ∈ emitted toy host .leave, Message.fromWire toy o.payload = .ok o.message := by
  have hfew : opener.dag.heads.size ≤ MAX_DEPS ∧ host.dag.heads.size ≤ MAX_DEPS := by
    decide +kernel
  have hemitted : emitted toy host .leave ≠ [] := by decide +kernel
  have hstart : FewHeadsStart toy opener := by
    obtain ⟨out, hcreate⟩ := opener_created
    exact .created hcreate
  have hrun : FewHeadsRun toy opener host := RunUnder.call invitation .start hfew.1
  have hseal : SealsLength toy := fun _ _ _ _ => rfl
  exact ⟨hrun, hemitted, (few_heads_run_decodes hseal hstart hrun).1 .leave hfew.2⟩

/-! ## A founder with too many heads -/

section Scenario

/-- Digests that keep the last bytes they absorb readable; a signature spells what was signed. -/
def tallied : Primitives :=
  { toy with
    blake3 := fun bytes =>
      BitVec.ofNat 256 (ofBe bytes + 2 ^ 128 * (bytes.map UInt8.toNat).sum)
    ed25519Sign := fun seed msg => BitVec.ofNat 512 (ofBe (bytesOf seed ++ msg))
    ed25519Verify := fun key msg sig => sig = BitVec.ofNat 512 (ofBe (bytesOf key ++ msg)) }

/-- The founder of a conference. -/
def landlord : Participant :=
  founded tallied (.leaderless 2) [1, 5, 6, 7, 11, 12, 13, 14]

/-- A stranger to the conference evicts itself. -/
def stranger (i : ℕ) : Op :=
  Op.create tallied (BitVec.ofNat 256 i) 5 ∅ (.remove (BitVec.ofNat 256 i))

def crowd : List Op :=
  (List.range 257).map fun i => stranger (1000 + i)

/-- The founder after one batch of such evictions. -/
def crowded : Participant :=
  (Call.handle (Message.deliver crowd []).toWire).run tallied landlord

theorem landlord_created :
    ∃ out, create tallied (.leaderless 2) [1, 5, 6, 7, 11, 12, 13, 14] = .ok (out, landlord) :=
  create_founded (by decide +kernel)

theorem append_low {w : ℕ} (hw : 8 ∣ w) (hlarge : 128 ≤ w) (pre : Bytes) (x : BitVec w) :
    ofBe (pre ++ bytesOf x) % 2 ^ 128 = x.toNat % 2 ^ 128 := by
  obtain ⟨k, rfl⟩ := Nat.exists_eq_add_of_le hlarge
  rw [ofBe_append, ofBe_bytesOf hw, bytesOf_length, pow_bytes hw, pow_add, mul_left_comm,
    Nat.mul_add_mod]

theorem ofNat_low {w : ℕ} (hlarge : 128 ≤ w) (n : ℕ) :
    (BitVec.ofNat w n).toNat % 2 ^ 128 = n % 2 ^ 128 := by
  rw [BitVec.toNat_ofNat, Nat.mod_mod_of_dvd _ (pow_dvd_pow 2 hlarge)]

theorem hash_low {w : ℕ} (hw : 8 ∣ w) (hlarge : 128 ≤ w) (lab : String) (fields : List Bytes)
    (pre : Bytes) (x : BitVec w) :
    (Crypto.hash tallied lab (fields ++ [pre ++ bytesOf x])).toNat % 2 ^ 128 = x.toNat % 2 ^ 128 := by
  have hlast : absorbed (label lab) (fields ++ [pre ++ bytesOf x]) =
      absorbed (label lab) fields ++ beBytes 4 (pre ++ bytesOf x).length ++ pre ++ bytesOf x := by
    simp [absorbed, field]
  have hdigest : ∀ bytes, tallied.blake3 bytes =
      BitVec.ofNat 256 (ofBe bytes + 2 ^ 128 * (bytes.map UInt8.toNat).sum) := fun _ => rfl
  rw [Crypto.hash, hlast, hdigest, ofNat_low (by decide), Nat.add_mul_mod_self_left]
  exact append_low hw hlarge _ x

theorem sign_low (seed x : BitVec 256) :
    (tallied.ed25519Sign seed (bytesOf x)).toNat % 2 ^ 128 = x.toNat % 2 ^ 128 := by
  have hspelt : tallied.ed25519Sign seed (bytesOf x) =
      BitVec.ofNat 512 (ofBe (bytesOf seed ++ bytesOf x)) := rfl
  rw [hspelt, ofNat_low (by decide)]
  exact append_low (by decide) (by decide) _ x

theorem header_remove (sid : SessionId) (author : SigPublic) (deps : OidSet) (who : SigPublic) :
    ∃ pre, header sid author deps (.remove who) = pre ++ bytesOf who := by
  refine ⟨Writer.array sid ++ Writer.u32 (Body.remove who).kind.toU32 ++ Writer.array author ++
    Writer.set Writer.array deps.toList ++ T_BYTES :: beBytes 4 (bytesOf who).length, ?_⟩
  rw [header, Body.encode, List.append_assoc _ (T_BYTES :: _)]
  rfl

theorem image_low (sid : SessionId) (author : SigPublic) (deps : OidSet) (who : SigPublic) :
    (signedImage tallied sid author deps (.remove who)).toNat % 2 ^ 128 = who.toNat % 2 ^ 128 := by
  obtain ⟨pre, hpre⟩ := header_remove sid author deps who
  rw [signedImage, hpre]
  exact hash_low (by decide) (by decide) "cfr/op" [] pre who

theorem oid_low (op : Op) : (op.oid tallied).toNat % 2 ^ 128 = op.sig.toNat % 2 ^ 128 :=
  hash_low (by decide) (by decide) "cfr/oid" [bytesOf (op.image tallied)] [] op.sig

/-- The identifier of such an eviction ends in the identity it evicts. -/
theorem stranger_oid {i : ℕ} (h : i < 2 ^ 128) :
    ((stranger i).oid tallied).toNat % 2 ^ 128 = i := by
  rw [oid_low, stranger, Op.create, sign_low, image_low, ofNat_low (by decide), Nat.mod_eq_of_lt h]

theorem crowd_distinct : (crowd.map (Op.oid tallied)).Nodup := by
  rw [crowd, List.map_map]
  refine List.nodup_range.map_on fun i hi j hj h => ?_
  have hi := List.mem_range.mp hi
  have hj := List.mem_range.mp hj
  have hlow := congrArg (fun o : Oid => o.toNat % 2 ^ 128) h
  simp only [Function.comp] at hlow
  rw [stranger_oid (by omega), stranger_oid (by omega)] at hlow
  omega

theorem crowd_absent : ∀ op ∈ crowd, ¬landlord.dag.contains (op.oid tallied) := by
  have hown : landlord.dag.ops.keys.all (fun o => !decide (1000 ≤ o.toNat % 2 ^ 128 ∧
      o.toNat % 2 ^ 128 < 2000)) := by decide +kernel
  intro op hop hheld
  obtain ⟨i, hi, rfl⟩ := List.mem_map.mp hop
  have hi := List.mem_range.mp hi
  have hkey := List.all_eq_true.mp hown _ (Std.ExtTreeMap.mem_keys.mpr hheld)
  rw [stranger_oid (by omega)] at hkey
  simp at hkey
  omega

theorem tallied_signs (key : Secret) (msg : Bytes) :
    tallied.ed25519Verify (tallied.ed25519Public key) msg (tallied.ed25519Sign key msg) := by
  simp [tallied, toy]

theorem stranger_verified (i : ℕ) : (stranger i).verify tallied = .ok () :=
  if_pos (tallied_signs _ _)

variable {P : Primitives} {p : Participant}

/-- A self-eviction without dependencies that may be taken in. -/
structure Evicting (P : Primitives) (p : Participant) (op : Op) : Prop where
  sid : op.sid = p.sid
  verified : op.verify P = .ok ()
  deps : op.deps = ∅
  body : op.body = .remove op.author

theorem Evicting.ingest {op : Op} (h : Evicting P p op) (hp : Steady P p)
    (hnew : ¬p.dag.contains (op.oid P)) (hroom : p.dag.ops.size < MAX_OPS) :
    ∃ dag, Added P p.dag op dag ∧ ingest P op p = (.ok [], { p with dag }) := by
  have hdeps : p.depsAvailable op := by
    rw [depsAvailable_iff, h.deps]
    simp
  have hauth : p.authorised P op := by
    have hfounding : ¬founding op := by simp [founding, h.body]
    rw [authorised_other (pastOf_eq hnew) hp.sound hfounding]
    exact Or.inl h.body
  have houtcome := ingest_outcome hp op
  generalize Member.ingest P op p = result at houtcome
  cases houtcome with
  | invalid hbad => exact absurd ⟨h.sid, h.verified⟩ hbad
  | known hold => exact absurd hold hnew
  | waiting hsid hsig hnew hwaits => exact absurd hdeps hwaits
  | unauthorised hdeps hrefused => exact absurd hauth hrefused
  | full hfull => exact absurd hfull (Nat.not_le.mpr hroom)
  | @stored dag hstored =>
      refine ⟨dag, hstored.added, ?_⟩
      rw [applyOp, bind_run, get_run, h.body]
      rfl

theorem heads_root {dag dag' : Dag} {op : Op} (hadd : Added P dag op dag') (hsound : Sound P dag)
    (hdeps : op.deps = ∅) {a : Oid} : a ∈ dag'.heads ↔ op.oid P = a ∨ a ∈ dag.heads := by
  have hparent : ∀ b, Parent dag' a b ↔ op.oid P ≠ b ∧ Parent dag a b := by
    intro b
    rw [hadd.parent, hdeps]
    simp
  have hchild : ∀ b, Parent dag a b → op.oid P ≠ b :=
    fun b hb => hadd.ne_of_contains (hsound.parent hb).2.1
  simp only [mem_heads, hadd.contains, hparent]
  constructor
  · rintro ⟨hnew | hold, hlast⟩
    · exact Or.inl hnew
    · exact Or.inr ⟨hold, fun b hb => hlast b ⟨hchild b hb, hb⟩⟩
  · rintro (rfl | ⟨hold, hlast⟩)
    · refine ⟨Or.inl rfl, fun b hb => ?_⟩
      exact hadd.ne_of_contains (hsound.parent hb.2).1 rfl
    · exact ⟨Or.inr hold, fun b hb => hlast b hb.2⟩

theorem handle_batch {ops : List Op} {dag : Dag} (hfits : Message.Fits (.deliver ops []))
    (hpending : p.pending = []) (hall : ingestAll P ops p = (.ok [], { p with dag })) :
    ((Call.handle (Message.deliver ops []).toWire).run P p).dag = dag := by
  have hrun : dispatch P (.deliver ops []) p = (.ok ([], []), { p with dag }) := by
    rw [dispatch, bind_run, hall]
    rfl
  have hsilent : Silent { p with dag } (conclude P p ([], []) { p with dag }).2 :=
    conclude_silent (p := { p with dag }) hpending p ([], [])
  rw [Call.run, handle_run (fromWire_toWire hfits), bind_run, hrun]
  exact hsilent.dag

/-- A batch of such evictions goes in as a whole, and all of them end up as heads. -/
theorem ingestAll_evicting {ops : List Op} (hp : Steady P p) (hops : ∀ op ∈ ops, Evicting P p op)
    (hnodup : (ops.map (Op.oid P)).Nodup) (hnew : ∀ op ∈ ops, ¬p.dag.contains (op.oid P))
    (hroom : p.dag.ops.size + ops.length ≤ MAX_OPS) :
    ∃ dag, ingestAll P ops p = (.ok [], { p with dag }) ∧
      dag.ops.size = p.dag.ops.size + ops.length ∧ (∀ a ∈ p.dag.heads, a ∈ dag.heads) ∧
      ∀ op ∈ ops, op.oid P ∈ dag.heads := by
  induction ops generalizing p with
  | nil => exact ⟨p.dag, rfl, rfl, fun _ ha => ha, by simp⟩
  | cons op ops ih =>
      rw [List.length_cons] at hroom
      obtain ⟨hfirst, hrest⟩ := List.nodup_cons.mp hnodup
      have hevicting := hops op List.mem_cons_self
      obtain ⟨dag, hadd, hrun⟩ := hevicting.ingest hp (hnew op List.mem_cons_self) (by omega)
      have hsize : dag.ops.size = p.dag.ops.size + 1 := hadd.size
      have hlater : ∀ op' ∈ ops, ¬dag.contains (op'.oid P) := by
        intro op' hop' hheld
        rcases hadd.contains.mp hheld with hsame | hold
        · rw [hsame] at hfirst
          exact hfirst (List.mem_map_of_mem hop')
        · exact hnew op' (List.mem_cons_of_mem _ hop') hold
      obtain ⟨dag', hall, hsize', hkept, hheads⟩ := ih (p := { p with dag })
        ⟨hp.sound.added hadd, hp.parked⟩
        (fun op' hop' => ⟨(hops op' (List.mem_cons_of_mem _ hop')).sid,
          (hops op' (List.mem_cons_of_mem _ hop')).verified,
          (hops op' (List.mem_cons_of_mem _ hop')).deps,
          (hops op' (List.mem_cons_of_mem _ hop')).body⟩)
        hrest hlater (by change dag.ops.size + _ ≤ _; omega)
      have hroot : ∀ {a}, a ∈ dag.heads ↔ op.oid P = a ∨ a ∈ p.dag.heads :=
        heads_root hadd hp.sound hevicting.deps
      refine ⟨dag', ?_, by rw [hsize', hsize, List.length_cons]; omega, ?_, ?_⟩
      · have hone : attempt (ingest P op) p = (.ok (.ok []), { p with dag }) := by
          rw [attempt, hrun]
        rw [ingestAll, bind_run, hone]
        dsimp only
        rw [bind_run, hall]
        rfl
      · exact fun a ha => hkept a (hroot.mpr (Or.inr ha))
      · intro op' hop'
        rcases List.mem_cons.mp hop' with rfl | htail
        · exact hkept _ (hroot.mpr (Or.inl rfl))
        · exact hheads op' htail

theorem crowd_evicting : ∀ op ∈ crowd, Evicting tallied landlord op := by
  intro op hop
  obtain ⟨i, -, rfl⟩ := List.mem_map.mp hop
  have hsid : landlord.sid = 5 := by decide +kernel
  exact ⟨hsid.symm, stranger_verified _, rfl, rfl⟩

theorem crowd_fits : Message.Fits (.deliver crowd []) := by
  have hlength : crowd.length ≤ MAX_BATCH := by
    rw [crowd, List.length_map, List.length_range]
    decide
  refine ⟨hlength, fun op hop => ?_, listed_nil⟩
  obtain ⟨i, -, rfl⟩ := List.mem_map.mp hop
  exact wired_of_compact trivial (Nat.zero_le MAX_DEPS)

theorem landlord_reachable : Reachable tallied landlord := by
  obtain ⟨out, hcreate⟩ := landlord_created
  exact ⟨landlord, .created hcreate, .start⟩

theorem landlord_steady : Steady tallied landlord :=
  ⟨landlord_reachable.wellformed.sound, landlord_reachable.wellformed.parked⟩

theorem crowded_heads : MAX_DEPS < crowded.dag.heads.size ∧ crowded.dag.ops.size < MAX_OPS := by
  have hempty : landlord.pending = [] ∧ landlord.dag.ops.size ≤ 3 := by decide +kernel
  have hlength : crowd.length = 257 := by rw [crowd, List.length_map, List.length_range]
  have hroom : landlord.dag.ops.size + crowd.length ≤ MAX_OPS := by
    rw [hlength]
    exact (Nat.add_le_add_right hempty.2 257).trans (by decide)
  obtain ⟨dag, hall, hsize, -, hheads⟩ := ingestAll_evicting landlord_steady crowd_evicting
    crowd_distinct crowd_absent hroom
  have hdag : crowded.dag = dag := handle_batch crowd_fits hempty.1 hall
  rw [hdag]
  constructor
  · have hsubset : crowd.map (Op.oid tallied) ⊆ dag.heads.toList := by
      intro o ho
      obtain ⟨op, hop, rfl⟩ := List.mem_map.mp ho
      exact Std.ExtTreeSet.mem_toList.mpr (hheads op hop)
    have hmany := (crowd_distinct.subperm hsubset).length_le
    rw [List.length_map, hlength, Std.ExtTreeSet.length_toList] at hmany
    exact lt_of_lt_of_le (by decide) hmany
  · rw [hsize, hlength]
    exact lt_of_le_of_lt (Nat.add_le_add_right hempty.2 257) (by decide)

/-- A participant with too many heads leaves with an operation that nobody can decode. -/
theorem overfull_leave (hsound : Sound P p.dag) (hmany : MAX_DEPS < p.dag.heads.size)
    (hroom : p.dag.ops.size < MAX_OPS) : ∃ o ∈ emitted P p .leave,
      Message.fromWire P o.payload = .error (.encoding "too many dependencies") := by
  refine ⟨.broadcast (.op (p.sign P (.remove p.ipk))), ?_, ?_⟩
  · have hleave : (Member.leave P p).1 = .ok (.broadcast (.op (p.sign P (.remove p.ipk)))) := by
      rw [Member.leave, bind_run, get_run]
      dsimp only
      rw [bind_run, publish_room hroom]
      rfl
    rw [emitted, hleave]
    exact List.mem_singleton_self _
  · have hitems : p.dag.heads.size ≤ MAX_ITEMS := (heads_size_le hsound).trans (by decide)
    have hlength : (p.sign P (.remove p.ipk)).toWire.length ≤ MAX_FIELD :=
      length_toWire_le trivial hitems
    exact overfull_refused hmany hitems hlength

/-- A founder that took in enough self-evictions of strangers is such a participant. -/
theorem crowded_leave_refused : Reachable tallied crowded ∧ ∃ o ∈ emitted tallied crowded .leave,
    Message.fromWire tallied o.payload = .error (.encoding "too many dependencies") := by
  have hreachable : Reachable tallied crowded := landlord_reachable.next _
  exact ⟨hreachable, overfull_leave hreachable.wellformed.sound crowded_heads.1 crowded_heads.2⟩

end Scenario

end CausalFrontierRatchet.Emission
