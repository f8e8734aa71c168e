import CausalFrontierRatchet.FailedCalls
import CausalFrontierRatchet.Frames
import CausalFrontierRatchet.Outputs

/-!
The positions that a participant publishes on its channels.  What it sends to one recipient is a
sequence of slices; a slice that establishes a channel takes position 0, any other one the position
after the last published slice.  This holds as long as the position of a channel is the next one to
be published, so a contribution must not step a channel without being published.  A contribution
that stops at a later recipient does.
-/

namespace CausalFrontierRatchet.ChannelPositions

open Relation BigEndian Crypto Tlv Operation OperationGraph CausalMembership Channel
open Messages Commands Member MemberSteps MemberRuns MemberActions SliceSealing
open FailedCalls Frames Outputs

/-! ## Published slices -/

/-- The slices of an operation. -/
def slicesOf : Body → List Slice
  | .contrib _ _ _ slices _ => slices
  | _ => []

/-- The slices for one recipient in the operations that are broadcast, in order. -/
def slicesTo (v : SigPublic) (sent : List Outbound) : List Slice :=
  sent.flatMap fun o =>
    match o.message with
    | .op op => (slicesOf op.body).filter fun s => s.recipient = v
    | _ => []

/-- Positions without gaps: a slice that establishes a channel has position 0, any other one the
position that is next. -/
def Gapless : Option ℕ → List Slice → Prop
  | _, [] => True
  | next, s :: slices =>
      (if s.establish.isSome then s.seq = 0 else next = some s.seq.toNat) ∧
        Gapless (some (s.seq.toNat + 1)) slices

/-- The position after the last slice. -/
def nextAfter : Option ℕ → List Slice → Option ℕ
  | next, [] => next
  | _, s :: slices => nextAfter (some (s.seq.toNat + 1)) slices

theorem gapless_append {next : Option ℕ} {a b : List Slice} :
    Gapless next (a ++ b) ↔ Gapless next a ∧ Gapless (nextAfter next a) b := by
  induction a generalizing next with
  | nil => simp [Gapless, nextAfter]
  | cons s a ih => simp [Gapless, nextAfter, ih, and_assoc]

theorem nextAfter_append (next : Option ℕ) (a b : List Slice) :
    nextAfter next (a ++ b) = nextAfter (nextAfter next a) b := by
  induction a generalizing next with
  | nil => rfl
  | cons s a ih => exact ih _

theorem slicesTo_append (v : SigPublic) (a b : List Outbound) :
    slicesTo v (a ++ b) = slicesTo v a ++ slicesTo v b :=
  List.flatMap_append

/-- Nothing of this is a slice. -/
def Sliceless (out : List Outbound) : Prop :=
  ∀ v, slicesTo v out = []

theorem sliceless_of_forall {out : List Outbound} (h : ∀ o ∈ out, Sliceless [o]) :
    Sliceless out := by
  intro v
  refine List.flatMap_eq_nil_iff.mpr fun o ho => ?_
  have hone := h o ho v
  rwa [slicesTo, List.flatMap_cons, List.flatMap_nil, List.append_nil] at hone

theorem sliceless_op {op : Op} (h : slicesOf op.body = []) : Sliceless [.broadcast (.op op)] := by
  intro v
  simp [slicesTo, Outbound.broadcast, h]

theorem sliceless_announcement {o : Outbound} (h : Announcement o) : Sliceless [o] := by
  obtain ⟨op, gen, pk, hbody, rfl⟩ := h
  exact sliceless_op (by rw [hbody]; rfl)

/-! ## Channels in step with what was published -/

section Aligned

variable {P : Primitives} {p p' : Participant} {sent : List Outbound}

/-- Every channel stands at the position after the last published slice; a participant with a full
graph publishes no more. -/
def Aligned (sent : List Outbound) (p : Participant) : Prop :=
  MAX_OPS ≤ p.dag.ops.size ∨
    ∀ (v : SigPublic) (chan : Chan), p.send[v]? = some chan →
      nextAfter none (slicesTo v sent) = some chan.next.toNat

structure Published (sent : List Outbound) (p : Participant) : Prop where
  gapless : ∀ v, Gapless none (slicesTo v sent)
  aligned : Aligned sent p

/-- Channels are dropped and never stepped, and the graph does not shrink. -/
structure Narrows (p p' : Participant) : Prop where
  send : ∀ (v : SigPublic) (chan : Chan), p'.send[v]? = some chan → p.send[v]? = some chan
  size : p.dag.ops.size ≤ p'.dag.ops.size

theorem Narrows.of_eq (hsend : p'.send = p.send) (hdag : p'.dag = p.dag) : Narrows p p' :=
  ⟨fun v chan h => by rwa [hsend] at h, by rw [hdag]⟩

theorem add_size (dag : Dag) (op : Op) : dag.ops.size ≤ (dag.add P op).2.ops.size := by
  rcases add_cases (P := P) dag op with ⟨e, h⟩ | ⟨-, h⟩ | ⟨dag', hadd, h⟩
  · rw [h]
  · rw [h]
  · rw [h, hadd.size]
    exact Nat.le_succ _

theorem getElem?_erase_some {m : Std.ExtTreeMap SigPublic Chan} {who v : SigPublic} {chan : Chan}
    (h : (m.erase who)[v]? = some chan) : m[v]? = some chan := by
  rw [Std.ExtTreeMap.getElem?_erase] at h
  split_ifs at h
  exact h

/-- Dropping a sending channel. -/
theorem erase_narrows (p : Participant) (who : SigPublic)
    (peerPrekeys : Std.ExtTreeMap SigPublic (UInt32 × DhPublic))
    (recv : Std.ExtTreeMap SigPublic RecvState) :
    Narrows p { p with peerPrekeys, send := p.send.erase who, recv } :=
  ⟨fun _ _ h => getElem?_erase_some h, le_rfl⟩

theorem learnPrekey_narrows (author : SigPublic) (gen : UInt32) (pk : DhPublic) :
    Narrows p (learnPrekey author gen pk p).2 := by
  rw [learnPrekey, modify_run]
  split
  · exact .of_eq rfl rfl
  · split
    · exact erase_narrows p author _ p.recv
    · exact .of_eq rfl rfl

theorem narrows_framed (P : Primitives) : Framed P Narrows where
  refl _ := ⟨fun _ _ h => h, le_rfl⟩
  trans _ _ _ h h' := ⟨fun v chan hv => h.send v chan (h'.send v chan hv), h.size.trans h'.size⟩
  drawn _ _ := .of_eq rfl rfl
  signed _ _ := .of_eq rfl rfl
  stored p op := ⟨fun _ _ h => h, add_size p.dag op⟩
  rotated _ _ := .of_eq rfl rfl
  heard _ _ := .of_eq rfl rfl
  opened _ _ _ _ _ _ _ := .of_eq rfl rfl
  learned _ := learnPrekey_narrows
  keyed _ _ _ _ := .of_eq rfl rfl
  judged _ _ := .of_eq rfl rfl
  parked _ _ := .of_eq rfl rfl
  waiting _ _ := .of_eq rfl rfl
  noted _ := .of_eq rfl rfl

theorem Published.narrows (h : Published sent p) (hp : Narrows p p') {out : List Outbound}
    (hout : Sliceless out) : Published (sent ++ out) p' := by
  have hsame : ∀ v, slicesTo v (sent ++ out) = slicesTo v sent := by
    intro v
    rw [slicesTo_append, hout v, List.append_nil]
  refine ⟨fun v => by rw [hsame]; exact h.gapless v, ?_⟩
  rcases h.aligned with hfull | haligned
  · exact Or.inl (hfull.trans hp.size)
  · refine Or.inr fun v chan hv => ?_
    rw [hsame]
    exact haligned v chan (hp.send v chan hv)

/-! ## Contributions -/

variable (P) in
/-- A contribution that starts here steps no channel, or can seal a slice for every recipient. -/
def SealsWhole (p : Participant) (exclude : Roster) : Prop :=
  StopsUnsealed P p exclude ∨
    AllSealable P { p with entropy := p.entropy.tail } (recipients p exclude)

/-- A contribution that was published, with what sealing it did to the channels. -/
theorem contributeTo_ok {recips : List SigPublic} {out : List Outbound} (hnodup : recips.Nodup)
    (h : contributeTo P p.members recips p = (.ok out, p')) :
    ∃ op slices p₁, out = [.broadcast (.op op)] ∧ slicesOf op.body = slices ∧
      p.dag.ops.size < MAX_OPS ∧ SealedAll p recips slices p₁ ∧ Narrows p₁ p' := by
  unfold contributeTo at h
  obtain ⟨_, _, hget, h⟩ := bind_ok h
  cases hget
  dsimp only at h
  split_ifs at h
  · cases h
  obtain ⟨x, p₁, hdraw, h⟩ := bind_ok h
  obtain ⟨slices, p₂, hseal, h⟩ := bind_ok h
  obtain ⟨op, p₃, hpublish, h⟩ := bind_ok h
  obtain ⟨_, p₄, habsorb, h⟩ := bind_ok h
  obtain ⟨_, p₅, hnote, h⟩ := bind_ok h
  cases h
  cases hnote
  obtain ⟨rest, -, hp₁⟩ := draw_ok hdraw
  have hsealed := sealSlices_ok hnodup hseal
  have hsend : p₁.send = p.send := by rw [hp₁]
  have hframe : p₂ = { p with send := p₂.send, entropy := p₂.entropy } := by
    rw [hsealed.frame, hp₁]
  refine ⟨op, slices, p₂, rfl, by rw [(publish_ok hpublish).1]; rfl, ?_, ?_, ?_⟩
  · have hroom := room_of_publish hpublish
    rwa [hframe] at hroom
  · refine ⟨hsealed.recipients, hframe, ?_, hsealed.moved, ?_⟩
    · rw [← hsend]
      exact hsealed.others
    · rw [← hsend]
      exact hsealed.position
  · have hnarrows := narrows_framed P
    refine hnarrows.trans _ _ _ ((hnarrows.publish _).run hpublish) ?_
    exact hnarrows.trans _ _ _ ((hnarrows.absorb op x).run habsorb) (hnarrows.noted p₄)

/-- With one slice for each recipient, at most one is for the given one. -/
theorem filter_recipient {slices : List Slice} (hnodup : (slices.map Slice.recipient).Nodup)
    (v : SigPublic) :
    ((slices.filter fun s => s.recipient = v) = [] ∧ v ∉ slices.map Slice.recipient) ∨
      ∃ s ∈ slices, s.recipient = v ∧ (slices.filter fun s => s.recipient = v) = [s] := by
  induction slices with
  | nil => exact Or.inl ⟨rfl, by simp⟩
  | cons s slices ih =>
      rw [List.map_cons, List.nodup_cons] at hnodup
      by_cases hs : s.recipient = v
      · have hrest : (slices.filter fun s => s.recipient = v) = [] := by
          refine List.filter_eq_nil_iff.mpr fun t ht heq => hnodup.1 ?_
          rw [hs, ← of_decide_eq_true heq]
          exact List.mem_map_of_mem ht
        refine Or.inr ⟨s, List.mem_cons_self, hs, ?_⟩
        rw [List.filter_cons_of_pos (by simpa using hs), hrest]
      · rw [List.filter_cons_of_neg (by simpa using hs)]
        rcases ih hnodup.2 with ⟨hnil, hnot⟩ | ⟨t, ht, hrecipient, hone⟩
        · refine Or.inl ⟨hnil, ?_⟩
          rw [List.map_cons, List.mem_cons, not_or]
          exact ⟨Ne.symm hs, hnot⟩
        · exact Or.inr ⟨t, List.mem_cons_of_mem _ ht, hrecipient, hone⟩

/-- The slice for a recipient takes the position that is next, and its channel moves past it. -/
theorem gapless_sealed {recips : List SigPublic} {slices : List Slice} {p₁ : Participant}
    {next : Option ℕ} {v : SigPublic} (h : SealedAll p recips slices p₁) (hnodup : recips.Nodup)
    (hnext : ∀ chan, p.send[v]? = some chan → next = some chan.next.toNat) :
    Gapless next (slices.filter fun s => s.recipient = v) ∧
      ∀ chan, p₁.send[v]? = some chan →
        nextAfter next (slices.filter fun s => s.recipient = v) = some chan.next.toNat := by
  rw [← h.recipients] at hnodup
  rcases filter_recipient hnodup v with ⟨hnil, hnot⟩ | ⟨s, hs, rfl, hone⟩
  · rw [hnil]
    refine ⟨trivial, fun chan hchan => hnext chan ?_⟩
    rw [h.recipients] at hnot
    rwa [h.others v hnot] at hchan
  · rw [hone]
    have hposition := h.position s hs
    refine ⟨⟨?_, trivial⟩, fun chan hchan => ?_⟩
    · cases hsend : p.send[s.recipient]? with
      | none =>
          rw [hsend] at hposition
          rw [if_pos hposition.1]
          exact hposition.2
      | some chan =>
          rw [hsend] at hposition
          rw [hposition.1, hposition.2, hnext chan hsend]
          rfl
    · obtain ⟨chan', hchan', hmoved⟩ := h.moved s hs
      rw [hchan] at hchan'
      cases hchan'
      rw [hmoved]
      rfl

theorem Published.contributed (h : Published sent p) {exclude : Roster} {out : List Outbound}
    (hrun : contributeExcluding P exclude p = (.ok out, p')) : Published (sent ++ out) p' := by
  unfold contributeExcluding at hrun
  obtain ⟨_, _, hget, hrun⟩ := bind_ok hrun
  cases hget
  dsimp only at hrun
  split_ifs at hrun
  · cases hrun
  · cases hrun
  · obtain ⟨op, p₁, hpublish, hrun⟩ := bind_ok hrun
    cases hrun
    refine h.narrows (((narrows_framed P).publish _).run hpublish) (sliceless_op ?_)
    rw [(publish_ok hpublish).1]
    rfl
  · obtain ⟨op, slices, p₁, rfl, hslices, hroom, hsealed, hnarrows⟩ :=
      contributeTo_ok (recipients_nodup p exclude) hrun
    have haligned := h.aligned.resolve_left (Nat.not_le.mpr hroom)
    have hto : ∀ v, slicesTo v (sent ++ [.broadcast (.op op)]) =
        slicesTo v sent ++ slices.filter fun s => s.recipient = v := by
      intro v
      rw [slicesTo_append, ← hslices]
      simp [slicesTo, Outbound.broadcast]
    have hstep := fun v => gapless_sealed hsealed (recipients_nodup p exclude) (haligned v)
    refine ⟨fun v => ?_, Or.inr fun v chan hchan => ?_⟩
    · rw [hto, gapless_append]
      exact ⟨h.gapless v, (hstep v).1⟩
    · rw [hto, nextAfter_append]
      exact (hstep v).2 chan (hnarrows.send v chan hchan)

theorem Published.unchanged (h : Published sent p) (hp : Unchanged p p') : Published sent p' := by
  have hsame := h.narrows (.of_eq hp.send hp.dag) (fun _ => rfl : Sliceless [])
  rwa [List.append_nil] at hsame

/-- A contribution that fails after it stepped a channel for every recipient fails at a full graph,
so no position that it skipped is followed by another one. -/
theorem Published.stopped (h : Published sent p) {exclude : Roster} {e : Error}
    (hwhole : SealsWhole P p exclude)
    (hrun : contributeExcluding P exclude p = (.error e, p')) : Published sent p' := by
  rcases hwhole with hstops | hsealable
  · exact h.unchanged ((contribute_failed hrun).mpr hstops)
  · unfold contributeExcluding at hrun
    rw [bind_run, get_run] at hrun
    dsimp only at hrun
    split_ifs at hrun
    · cases hrun
      exact h
    · cases hrun
      exact h
    · rcases bind_error hrun with hpublish | ⟨op, p₁, -, hrun⟩
      · exact h.unchanged (publish_failed hpublish)
      · cases hrun
    · rcases contributeTo_error hrun with ⟨-, rfl⟩ | ⟨-, rfl⟩ |
        ⟨-, -, cid, ad, x, r, p₂, hseal, hend, hstopped⟩
      · exact h
      · exact h
      · refine ⟨h.gapless, Or.inl ?_⟩
        rcases hstopped with ⟨e', rfl⟩ | hfull
        · obtain ⟨slices, p₃, hall⟩ :=
            sealSlices_all cid ad x (recipients_nodup p exclude) hsealable
          cases hall.symm.trans hseal
        · rw [hend.dag, (sealSlices_frame hseal).1]
          exact hfull

end Aligned

/-! ## Calls -/

section Calls

variable {P : Primitives} {p p' : Participant} {sent : List Outbound}

theorem sliceless_message {o : Outbound} (h : ∀ op, o.message ≠ .op op) : Sliceless [o] := by
  intro v
  rw [slicesTo, List.flatMap_singleton]
  split
  · rename_i op hop
    exact absurd hop (h op)
  · rfl

theorem sliceless_answer {m : Message} {o : Outbound} (h : Answers P p m o) : Sliceless [o] := by
  rcases h with ⟨sender, heads, -, ho⟩ | ⟨sender, nodes, q, -, hanswer⟩
  · refine sliceless_message fun op hop => ?_
    rw [answerSync] at ho
    split at ho
    · cases ho
    rcases List.mem_append.mp ho with hbatch | hrequest
    · split at hbatch
      · cases hbatch
      · rw [List.mem_singleton.mp hbatch] at hop
        cases hop
    · split at hrequest
      · rw [List.mem_singleton.mp hrequest] at hop
        cases hop
      · cases hrequest
  · obtain ⟨_, _, sealed, -, -, rfl⟩ := answerNodeKeysFor_ok hanswer
    exact sliceless_message fun op hop => by cases hop

theorem handle_sliceless {wire : Bytes} {result : List Event × List Outbound}
    (h : handle P wire p = (.ok result, p')) : Sliceless result.2 := by
  obtain ⟨m, -, hanswers⟩ := handle_answers h
  refine sliceless_of_forall fun o ho => ?_
  rcases hanswers o ho with hannounces | hanswer
  · exact sliceless_announcement hannounces
  · exact sliceless_answer hanswer

theorem leave_sliceless {o : Outbound} (h : leave P p = (.ok o, p')) : Sliceless [o] := by
  obtain ⟨_, _, hget, h⟩ := bind_ok h
  cases hget
  obtain ⟨op, p₁, hpublish, h⟩ := bind_ok h
  cases h
  refine sliceless_op ?_
  rw [(publish_ok hpublish).1]
  rfl

theorem repairRequest_sliceless {result : Option (List Outbound)}
    (h : repairRequest P p = (.ok result, p')) : Sliceless (result.getD []) := by
  have hrequest : ∀ nodes, Sliceless [Outbound.broadcast (.nodeKeyRequest p.ipk nodes)] :=
    fun nodes => sliceless_message fun op hop => by cases hop
  obtain ⟨_, _, hget, h⟩ := bind_ok h
  cases hget
  dsimp only at h
  split_ifs at h
  · cases h
    exact fun _ => rfl
  · obtain ⟨r, p₁, hrotate, h⟩ := bind_ok h
    rw [attempt_run] at hrotate
    cases hrotate
    cases hrun : (rotatePrekeys P p).1 with
    | ok o =>
        simp only [hrun] at h
        cases h
        intro v
        have hfirst := sliceless_announcement
          (rotatePrekeys_yields p o _ (Prod.ext hrun rfl) o List.mem_cons_self) v
        exact (slicesTo_append v [o] _).trans (by rw [hfirst, hrequest]; rfl)
    | error e =>
        simp only [hrun] at h
        cases h
        exact fun _ => rfl
  · cases h
    exact hrequest _

/-- The calls that contribute nothing return no slices and step no channel. -/
def Contributory : Call → Prop
  | .contribute _ | .invite _ | .remove _ => True
  | _ => False

theorem call_narrows {c : Call} (hc : ¬Contributory c) : Narrows p (c.run P p) := by
  have hR := narrows_framed P
  cases c with
  | publishPrekeys => exact hR.publishPrekeys
  | rotatePrekeys => exact hR.rotatePrekeys
  | tick => exact Narrows.of_eq rfl rfl
  | leave =>
      exact moves_get (hR.moves_bind (hR.publish _) fun _ _ => hR.moves_pure _)
  | handle wire => exact hR.handle wire
  | repairRequest => exact hR.repairRequest
  | contribute exclude => exact absurd trivial hc
  | invite kp => exact absurd trivial hc
  | remove who => exact absurd trivial hc

theorem call_sliceless {c : Call} (hc : ¬Contributory c) : Sliceless (emitted P p c) := by
  cases c with
  | publishPrekeys =>
      rw [emitted]
      cases hrun : (publishPrekeys P p).1 with
      | error e => exact fun _ => rfl
      | ok o =>
          exact sliceless_announcement
            (publishPrekeys_yields p o _ (Prod.ext hrun rfl) o List.mem_cons_self)
  | rotatePrekeys =>
      rw [emitted]
      cases hrun : (rotatePrekeys P p).1 with
      | error e => exact fun _ => rfl
      | ok o =>
          exact sliceless_announcement
            (rotatePrekeys_yields p o _ (Prod.ext hrun rfl) o List.mem_cons_self)
  | tick => exact fun _ => rfl
  | leave =>
      rw [emitted]
      cases hrun : (leave P p).1 with
      | error e => exact fun _ => rfl
      | ok o =>
          exact leave_sliceless (Prod.ext hrun rfl)
  | handle wire =>
      rw [emitted]
      cases hrun : (handle P wire p).1 with
      | error e => exact fun _ => rfl
      | ok result => exact handle_sliceless (Prod.ext hrun rfl)
  | repairRequest =>
      rw [emitted]
      cases hrun : (repairRequest P p).1 with
      | error e => exact fun _ => rfl
      | ok result =>
          have hsliceless : Sliceless (result.getD []) :=
            repairRequest_sliceless (Prod.ext hrun rfl)
          exact hsliceless
  | contribute exclude => exact absurd trivial hc
  | invite kp => exact absurd trivial hc
  | remove who => exact absurd trivial hc

variable (P) in
/-- Enough to seal slices with: no channel is exhausted, every prekey that is known admits an
agreement with every ephemeral secret to come, and of these there are at least so many. -/
structure Ample (n : ℕ) (p : Participant) : Prop where
  channels : ∀ (v : SigPublic) (chan : Chan), p.send[v]? = some chan → chan.next ≠ LAST
  agrees : ∀ (v : SigPublic) (gen : UInt32) (pk : DhPublic), p.peerPrekeys[v]? = some (gen, pk) →
    ∀ eph ∈ p.entropy, (P.x25519Agree eph pk).isSome
  entropy : n ≤ p.entropy.length

theorem Ample.of_eq {n : ℕ} (h : Ample P n p) (hsend : p'.send = p.send)
    (hpeers : p'.peerPrekeys = p.peerPrekeys) (hentropy : p'.entropy = p.entropy) :
    Ample P n p' := by
  refine ⟨?_, ?_, ?_⟩
  · rw [hsend]
    exact h.channels
  · rw [hpeers, hentropy]
    exact h.agrees
  · rw [hentropy]
    exact h.entropy

theorem Ample.drawn {n : ℕ} {x : Secret} {rest : List Secret} (h : Ample P (n + 1) p)
    (hentropy : p.entropy = x :: rest) : Ample P n { p with entropy := rest } where
  channels := h.channels
  agrees v gen pk hpeer eph heph :=
    h.agrees v gen pk hpeer eph (hentropy ▸ List.mem_cons_of_mem x heph)
  entropy := by
    have hlength := h.entropy
    rw [hentropy, List.length_cons] at hlength
    exact Nat.le_of_succ_le_succ hlength

theorem Ample.mono {m n : ℕ} (h : Ample P n p) (hle : m ≤ n) : Ample P m p :=
  ⟨h.channels, h.agrees, hle.trans h.entropy⟩

theorem Ample.rotate {n : ℕ} {due : Bool} {out : List Outbound} (h : Ample P (n + 1) p)
    (hrun : rotateWhen P due p = (.ok out, p')) : Ample P n p' := by
  unfold rotateWhen at hrun
  split_ifs at hrun
  · obtain ⟨rotation, p₁, hrotate, hrun⟩ := bind_ok hrun
    cases hrun
    obtain ⟨secret, p₂, hdraw, hrotate⟩ := bind_ok hrotate
    obtain ⟨rest, hentropy, rfl⟩ := draw_ok hdraw
    obtain ⟨_, p₃, hmodify, hrotate⟩ := bind_ok hrotate
    cases hmodify
    obtain ⟨_, _, hget, hrotate⟩ := bind_ok hrotate
    cases hget
    obtain ⟨op, p₄, hpublish, hrotate⟩ := bind_ok hrotate
    cases hrotate
    obtain ⟨-, dag, rfl, -⟩ := publish_ok hpublish
    exact (h.drawn hentropy).of_eq rfl rfl rfl
  · cases hrun
    exact h.mono (Nat.le_succ n)

/-- With enough at hand, a slice can be sealed for every recipient that is reachable. -/
theorem Ample.allSealable {n : ℕ} {recips : List SigPublic} (h : Ample P n p)
    (hlength : recips.length ≤ n)
    (hreach : ∀ v ∈ recips, v ∈ p.send ∨ v ∈ p.peerPrekeys) : AllSealable P p recips := by
  induction recips generalizing p n with
  | nil => trivial
  | cons v recips ih =>
      obtain ⟨n, rfl⟩ : ∃ m, n = m + 1 := Nat.exists_eq_add_one.mpr (by simp at hlength; omega)
      have hrest : recips.length ≤ n := by simpa using hlength
      have hreach' := fun u hu => hreach u (List.mem_cons_of_mem v hu)
      obtain ⟨eph, rest, hentropy⟩ : ∃ eph rest, p.entropy = eph :: rest := by
        cases hsome : p.entropy with
        | nil =>
            have henough := h.entropy
            rw [hsome] at henough
            cases henough
        | cons eph rest => exact ⟨eph, rest, rfl⟩
      rw [AllSealable, Sealable]
      cases hsend : p.send[v]? with
      | some chan =>
          rw [if_pos (contains_of_getElem? hsend)]
          refine ⟨h.channels v chan hsend, ih (h.mono (Nat.le_succ n)) ?_ hreach'⟩
          exact hrest
      | none =>
          rw [if_neg (not_contains_of_getElem? hsend), hentropy]
          have hknown : v ∈ p.peerPrekeys := by
            refine (hreach v List.mem_cons_self).resolve_left fun hmem => ?_
            exact not_contains_of_getElem? hsend (Std.ExtTreeMap.contains_iff_mem.mpr hmem)
          obtain ⟨peer, hpeer⟩ : ∃ peer, p.peerPrekeys[v]? = some peer := by
            rw [← Option.isSome_iff_exists, ← Std.ExtTreeMap.contains_eq_isSome_getElem?]
            exact Std.ExtTreeMap.contains_iff_mem.mpr hknown
          refine ⟨⟨peer.1, peer.2, eph, rest, hpeer, rfl, ?_⟩, ih (h.drawn hentropy) hrest hreach'⟩
          exact h.agrees v peer.1 peer.2 hpeer eph (by rw [hentropy]; exact List.mem_cons_self)

theorem Ample.sealsWhole (h : Ample P (MAX_RECIPIENTS + 1) p) (exclude : Roster) :
    SealsWhole P p exclude := by
  by_cases hstops : StopsUnsealed P p exclude
  · exact Or.inl hstops
  · refine Or.inr ?_
    rw [StopsUnsealed] at hstops
    push Not at hstops
    obtain ⟨-, hfew, hreach, -, hsome, -⟩ := hstops
    obtain ⟨x, rest, hentropy⟩ := List.exists_cons_of_ne_nil hsome
    rw [hentropy]
    refine (h.drawn hentropy).allSealable hfew fun v hv => ?_
    by_cases hsend : v ∈ p.send
    · exact Or.inl hsend
    · exact Or.inr (hreach v hv hsend)

/-! ## Calls that contribute -/

theorem Published.contribution (h : Published sent p) {exclude : Roster}
    (hwhole : SealsWhole P p exclude) {r : Except Error (List Outbound)}
    (hrun : contributeExcluding P exclude p = (r, p')) :
    Published (sent ++ r.toOption.getD []) p' := by
  cases r with
  | ok out => exact h.contributed hrun
  | error e =>
      rw [show sent ++ (Except.error e).toOption.getD [] = sent from List.append_nil sent]
      exact h.stopped hwhole hrun

/-- An operation is published first; the channels are as before when the rest begins. -/
theorem Published.publish {body : Body} (h : Published sent p) :
    Published sent (published P p body) := by
  have hnarrows := (narrows_framed P).publish (p := p) body
  rw [Moves, publish_state] at hnarrows
  have hsame := h.narrows hnarrows (fun _ => rfl : Sliceless [])
  rwa [List.append_nil] at hsame

theorem Published.removal (h : Published sent p) {who : SigPublic}
    (hwhole : SealsWhole P (published P p (.remove who)) (.ofList [who]))
    {r : Except Error (List Outbound)} (hrun : remove P who p = (r, p')) :
    Published (sent ++ r.toOption.getD []) p' := by
  have hfirst : Published sent (published P p (.remove who)) := h.publish
  cases r with
  | error e =>
      change Published (sent ++ []) p'
      rw [List.append_nil]
      rcases bind_error hrun with hpublish | ⟨op, p₁, hpublish, hrun⟩
      · rwa [← publish_state, hpublish] at hfirst
      · rw [← publish_state, hpublish] at hfirst hwhole
        rcases bind_error hrun with hstopped | ⟨out, p₂, -, hrun⟩
        · exact hfirst.stopped hwhole hstopped
        · cases hrun
  | ok out =>
      obtain ⟨op, p₁, hpublish, hrun⟩ := bind_ok hrun
      obtain ⟨contribution, p₂, hcontribute, hrun⟩ := bind_ok hrun
      obtain ⟨_, p₃, hmodify, hrun⟩ := bind_ok hrun
      cases hmodify
      obtain ⟨_, p₄, hnote, hrun⟩ := bind_ok hrun
      cases hrun
      cases hnote
      have hR := narrows_framed P
      have hremoval : slicesOf op.body = [] := by
        rw [(publish_ok hpublish).1]
        rfl
      have hop := h.narrows ((hR.publish _).run hpublish) (sliceless_op hremoval)
      have hdone := (hop.contributed hcontribute).narrows
        (hR.trans _ _ _ (erase_narrows p₂ who p₂.peerPrekeys (p₂.recv.erase who)) (hR.noted _))
        (fun _ => rfl : Sliceless [])
      rw [List.append_nil, List.append_assoc] at hdone
      exact hdone

/-- What an invitation needs: enough for a new prekey, the welcome and the contribution. -/
def Equipped (P : Primitives) (p : Participant) (kp : KeyPackage) : Prop :=
  Ample P (MAX_RECIPIENTS + 3)
    { p with peerPrekeys := p.peerPrekeys.insert kp.ipk (kp.gen, kp.prekey) }

/-- The part of an invitation before its contribution. -/
theorem Equipped.welcomed {kp : KeyPackage} (h : Equipped P p kp) {add : Op}
    {rotation : List Outbound} {welcome : Message} {p₁ p₂ p₃ : Participant}
    (hadd : publish P (.add kp.ipk)
      { p with peerPrekeys := p.peerPrekeys.insert kp.ipk (kp.gen, kp.prekey) } = (.ok add, p₁))
    (hrotate : rotateWhen P p.prekeys.isSealed p₁ = (.ok rotation, p₂))
    (hwelcome : welcomeFor P kp p₂ = (.ok welcome, p₃)) :
    SealsWhole P p₃ ∅ := by
  obtain ⟨-, dag, rfl, -⟩ := publish_ok hadd
  obtain ⟨_, _, _, rest, -, hentropy, -, rfl, -⟩ := WelcomeDisclosure.welcomeFor_ok hwelcome
  have hstored : Ample P (MAX_RECIPIENTS + 3) { p with
      peerPrekeys := p.peerPrekeys.insert kp.ipk (kp.gen, kp.prekey)
      signed := add :: p.signed
      dag } :=
    Ample.of_eq h rfl rfl rfl
  exact ((hstored.rotate hrotate).drawn hentropy).sealsWhole ∅

theorem Published.invitation (h : Published sent p) {kp : KeyPackage} (hequipped : Equipped P p kp)
    {r : Except Error (List Outbound)} (hrun : invite P kp p = (r, p')) :
    Published (sent ++ r.toOption.getD []) p' := by
  have hR := narrows_framed P
  cases r with
  | ok out =>
      obtain ⟨-, -, add, p₁, rotation, p₂, welcome, p₃, contribution, p₄, hadd, hrotate, hwelcome,
        hcontribute, hnote, rfl⟩ := WelcomeDisclosure.invite_ok hrun
      cases hnote
      have hadmission : slicesOf add.body = [] := by
        rw [(publish_ok hadd).1]
        rfl
      have hknown : Narrows p
          { p with peerPrekeys := p.peerPrekeys.insert kp.ipk (kp.gen, kp.prekey) } :=
        .of_eq rfl rfl
      have hnoted := hR.trans _ _ _ hknown ((hR.publish _).run hadd)
      have hstart := h.narrows hnoted (sliceless_op hadmission)
      have hrotated := hstart.narrows ((hR.rotateWhen _).run hrotate)
        (sliceless_of_forall fun o ho =>
          sliceless_announcement (rotateWhen_yields _ p₁ rotation p₂ hrotate o ho))
      have hwelcomed := hrotated.narrows ((hR.welcomeFor kp).run hwelcome)
        (sliceless_message (o := .direct kp.ipk welcome) fun op hop => ?_)
      · have hdone := (hwelcomed.contributed hcontribute).narrows (hR.noted p₄)
          (fun _ => rfl : Sliceless [])
        rw [List.append_nil, List.append_assoc, List.append_assoc, List.append_assoc] at hdone
        change Published (sent ++ ([.broadcast (.op add)] ++ rotation ++ [.direct kp.ipk welcome] ++
          contribution)) _
        rw [List.append_assoc, List.append_assoc]
        exact hdone
      · obtain ⟨_, _, _, _, -, -, -, -, rfl⟩ := WelcomeDisclosure.welcomeFor_ok hwelcome
        cases hop
  | error e =>
      change Published (sent ++ []) p'
      rw [List.append_nil]
      have hquiet : ∀ {q}, Narrows p q → Published sent q := fun hq => by
        have hsame := h.narrows hq (fun _ => rfl : Sliceless [])
        rwa [List.append_nil] at hsame
      rcases bind_error hrun with hverify | ⟨_, p₀, hverify, hrun⟩
      · rw [lift_run] at hverify
        obtain ⟨-, rfl⟩ := Prod.mk.inj hverify
        exact h
      rw [lift_run] at hverify
      obtain ⟨-, rfl⟩ := Prod.mk.inj hverify
      rw [bind_run, get_run] at hrun
      dsimp only at hrun
      split_ifs at hrun
      · cases hrun
        exact h
      rw [bind_run, modify_run] at hrun
      have hknown : Narrows p
          { p with peerPrekeys := p.peerPrekeys.insert kp.ipk (kp.gen, kp.prekey) } :=
        .of_eq rfl rfl
      rcases bind_error hrun with hadd | ⟨add, p₁, hadd, hrun⟩
      · exact hquiet (hR.trans _ _ _ hknown ((hR.publish _).run hadd))
      have hadded := hR.trans _ _ _ hknown ((hR.publish _).run hadd)
      rcases bind_error hrun with hrotate | ⟨rotation, p₂, hrotate, hrun⟩
      · exact hquiet (hR.trans _ _ _ hadded ((hR.rotateWhen _).run hrotate))
      have hrotated := hR.trans _ _ _ hadded ((hR.rotateWhen _).run hrotate)
      rcases bind_error hrun with hwelcome | ⟨welcome, p₃, hwelcome, hrun⟩
      · exact hquiet (hR.trans _ _ _ hrotated ((hR.welcomeFor kp).run hwelcome))
      have hwelcomed := hR.trans _ _ _ hrotated ((hR.welcomeFor kp).run hwelcome)
      rcases bind_error hrun with hstopped | ⟨contribution, p₄, -, hrun⟩
      · exact (hquiet hwelcomed).stopped (hequipped.welcomed hadd hrotate hwelcome) hstopped
      · cases hrun

/-! ## Runs -/

/-- A founder sends its admission, its prekey and a contribution. -/
theorem found_published {out : List Outbound} (hsend : p.send = ∅)
    (h : found P p = (.ok out, p')) : Published out p' := by
  have hR := narrows_framed P
  have hstart : Published [] p :=
    ⟨fun _ => trivial, Or.inr fun v chan hchan => by simp [hsend] at hchan⟩
  obtain ⟨_, _, hget, h⟩ := bind_ok h
  cases hget
  obtain ⟨add, p₁, hadd, h⟩ := bind_ok h
  obtain ⟨prekeys, p₂, hprekeys, h⟩ := bind_ok h
  obtain ⟨contribution, p₃, hcontribute, h⟩ := bind_ok h
  obtain ⟨_, p₄, hnote, h⟩ := bind_ok h
  cases h
  cases hnote
  have hadmission : slicesOf add.body = [] := by
    rw [(publish_ok hadd).1]
    rfl
  have hadded := hstart.narrows ((hR.publish _).run hadd) (sliceless_op hadmission)
  have hannounced := hadded.narrows (hR.publishPrekeys.run hprekeys) (sliceless_announcement
    (publishPrekeys_yields p₁ prekeys p₂ hprekeys prekeys List.mem_cons_self))
  have hdone := (hannounced.contributed hcontribute).narrows (hR.noted p₃)
    (fun _ => rfl : Sliceless [])
  rw [List.append_nil] at hdone
  exact hdone

/-- A newcomer sends its prekey. -/
theorem join_published {entries : List (Oid × Secret)} {history : List Op} {out : List Outbound}
    (hsend : p.send = ∅) (h : joinWith P entries history p = (.ok out, p')) : Published out p' := by
  have hR := narrows_framed P
  have hstart : Published [] p :=
    ⟨fun _ => trivial, Or.inr fun v chan hchan => by simp [hsend] at hchan⟩
  obtain ⟨p₁, hhistory, -, o, p₂, hpublish, hnote, rfl⟩ := joinWith_history h
  cases hnote
  obtain ⟨nodekeys, absorbed, htaken⟩ := foldl_takeOver entries p
  rw [htaken] at hhistory
  refine hstart.narrows ?_ (sliceless_announcement
    (publishPrekeys_yields p₁ o p₂ hpublish o List.mem_cons_self))
  refine hR.trans _ _ _ (hR.keyed p nodekeys absorbed p.missing) ?_
  refine hR.trans _ _ _ ((hR.ingestHistory history).run hhistory) ?_
  exact hR.trans _ _ _ (hR.publishPrekeys.run hpublish) (hR.noted p₂)

variable (P) in
/-- The calls of a participant that meet a condition, with everything it sent. -/
inductive Trace (ok : Participant → Call → Prop) : List Outbound → Participant → Prop
  | created {policy : Policy} {entropy : List Secret} {out : List Outbound} {p : Participant}
      (h : create P policy entropy = .ok (out, p)) : Trace ok out p
  | joined {j : PendingJoin} {wire : Bytes} {out : List Outbound} {p : Participant}
      (h : j.accept P wire = .ok (out, p)) : Trace ok out p
  | call {sent : List Outbound} {p : Participant} (c : Call) (h : Trace ok sent p) (hc : ok p c) :
      Trace ok (sent ++ emitted P p c) (c.run P p)

variable (P) in
/-- A contribution that the call makes steps no channel, or can be sealed for every recipient. -/
def SealsCall (p : Participant) : Call → Prop
  | .contribute exclude => SealsWhole P p exclude
  | .remove who => SealsWhole P (published P p (.remove who)) (.ofList [who])
  | .invite kp => Equipped P p kp
  | _ => True

theorem Trace.published (h : Trace P (SealsCall P) sent p) : Published sent p := by
  induction h with
  | created h =>
      obtain ⟨identity, sid, seed0, prekey, rest, -, hfound⟩ := create_ok h
      exact found_published rfl hfound
  | joined h =>
      obtain ⟨w, hjoin⟩ := accept_ok h
      exact join_published rfl hjoin
  | @call sent p c _ hc ih =>
      by_cases hcontributory : Contributory c
      · cases c with
        | contribute exclude => exact ih.contribution hc rfl
        | invite kp => exact ih.invitation hc rfl
        | remove who => exact ih.removal hc rfl
        | _ => cases hcontributory
      · exact ih.narrows (call_narrows hcontributory) (call_sliceless hcontributory)

/-- In a run whose contributions step no channel or can be sealed for every recipient, the slices
published to a recipient are numbered without gaps from each establishment of its channel on. -/
theorem sealing_trace_gapless (h : Trace P (SealsCall P) sent p) (v : SigPublic) :
    Gapless none (slicesTo v sent) :=
  h.published.gapless v

end Calls

section Scenario

instance decidableGapless : ∀ next slices, Decidable (Gapless next slices)
  | _, [] => isTrue trivial
  | _, s :: slices =>
      have := decidableGapless (some (s.seq.toNat + 1)) slices
      instDecidableAnd

variable (P : Primitives)

/-- What a founder has sent, and the founder. -/
def opening (entropy : List Secret) : List Outbound × Participant :=
  match create P (.leaderless 2) entropy with
  | .ok opened => opened
  | .error _ => ([], blank P 0 0 (.leaderless 2) 0 (.at_ P 0 0) [])

def next (c : Call) (run : List Outbound × Participant) : List Outbound × Participant :=
  (run.1 ++ emitted P run.2 c, c.run P run.2)

def inviting : Call :=
  .invite ((⟨2, .at_ P 0 21, .leaderless 2, []⟩ : PendingJoin).keyPackage P)

variable {P}

theorem opening_trace {ok : Participant → Call → Prop} {entropy : List Secret}
    (h : (create P (.leaderless 2) entropy).isOk) :
    Trace P ok (opening P entropy).1 (opening P entropy).2 := by
  rw [opening]
  cases hcreate : create P (.leaderless 2) entropy with
  | ok opened => exact .created hcreate
  | error e =>
      rw [hcreate] at h
      cases h

theorem next_trace {ok : Participant → Call → Prop} {run : List Outbound × Participant} (c : Call)
    (h : Trace P ok run.1 run.2) (hc : ok run.2 c) :
    Trace P ok (next P c run).1 (next P c run).2 :=
  h.call c hc

/-- A founder with plenty of randomness, before and after it invites a guest. -/
def alone : List Outbound × Participant :=
  opening toy ([1, 5, 6, 7] ++ List.replicate 300 11)

def hosting : List Outbound × Participant :=
  next toy (inviting toy) alone

theorem alone_equipped (kp : KeyPackage) : Equipped toy alone.2 kp where
  channels v chan hchan := by
    have hempty : alone.2.send.isEmpty := by decide +kernel
    rw [Std.ExtTreeMap.isEmpty_iff] at hempty
    change alone.2.send[v]? = some chan at hchan
    simp [hempty] at hchan
  agrees _ _ _ _ _ _ := rfl
  entropy := by
    change MAX_RECIPIENTS + 3 ≤ alone.2.entropy.length
    decide +kernel

/-- The guest gets a slice, and nothing that was sent to anybody skips a position. -/
theorem hosting_gapless :
    (slicesTo 2 hosting.1).length = 1 ∧ ∀ v, Gapless none (slicesTo v hosting.1) := by
  have htrace : Trace toy (SealsCall toy) hosting.1 hosting.2 :=
    next_trace (inviting toy) (opening_trace (by decide +kernel)) (alone_equipped _)
  exact ⟨by decide +kernel, sealing_trace_gapless htrace⟩

/-- Key agreement that refuses the point zero. -/
def strict : Primitives :=
  { toy with x25519Agree := fun secret peer => if peer = 0 then none else some (secret ^^^ peer) }

def occupied : List Outbound × Participant :=
  next strict (inviting strict) (opening strict [1, 5, 6, 7, 11, 12, 13, 14, 15, 16, 17, 18, 19])

/-- The guest admits a third party, which announces the point zero as its prekey. -/
def admission : Op :=
  Op.create strict 2 5 occupied.2.dag.heads (.add 3)

def zeroPrekey : Op :=
  Op.create strict 3 5 (.ofList [admission.oid strict]) (.prekeys 1 0)

/-- The founder takes both in, fails to contribute to both, and contributes to the guest alone. -/
def skipping : List Outbound × Participant :=
  next strict (.contribute (.ofList [(3 : SigPublic)])) (next strict (.contribute ∅)
    (next strict (.handle (Message.deliver [admission, zeroPrekey] []).toWire) occupied))

/-- The first contribution stepped the channel of the guest before it failed at the third party: the
slices published to the guest have the positions 0 and 2. -/
theorem skipping_position : Trace strict (fun _ _ => True) skipping.1 skipping.2 ∧
    ((slicesTo 2 skipping.1).map fun s => s.seq) = [0, 2] ∧
      ¬Gapless none (slicesTo 2 skipping.1) := by
  refine ⟨?_, by decide +kernel, by decide +kernel⟩
  have hopening : Trace strict (fun _ _ => True) occupied.1 occupied.2 :=
    next_trace (inviting strict) (opening_trace (by decide +kernel)) trivial
  exact next_trace _ (next_trace _ (next_trace _ hopening trivial) trivial) trivial

end Scenario

end CausalFrontierRatchet.ChannelPositions
