import CausalFrontierRatchet.MemberActions

/-!
What sealing the slices of a contribution does to the sending channels.  A slice is sealed at the
position of the channel of its recipient, which moves on by one; without a channel the slice
establishes one and takes its first position.  Sealing stops at the first recipient that cannot be
sealed, and the channels of those before it have moved.
-/

namespace CausalFrontierRatchet.SliceSealing

open Relation BigEndian Crypto Tlv Operation Channel
open Commands Member MemberSteps MemberActions

section Sealing

variable {P : Primitives} {p p' : Participant} {v : SigPublic}

theorem contains_of_getElem? {m : Std.ExtTreeMap SigPublic Chan} {chan : Chan}
    (h : m[v]? = some chan) : m.contains v := by
  rw [Std.ExtTreeMap.contains_eq_isSome_getElem?, h]
  rfl

theorem not_contains_of_getElem? {m : Std.ExtTreeMap SigPublic Chan} (h : m[v]? = none) :
    ¬m.contains v := by
  rw [Std.ExtTreeMap.contains_eq_isSome_getElem?, h]
  exact Bool.false_ne_true

theorem getElem?_insert_ne (m : Std.ExtTreeMap SigPublic Chan) (chan : Chan) {u : SigPublic}
    (h : u ≠ v) : (m.insert v chan)[u]? = m[u]? := by
  rw [Std.ExtTreeMap.getElem?_insert, if_neg]
  exact fun heq => h (Std.LawfulEqCmp.eq_of_compare heq).symm

theorem draw_error {e : Error} (h : draw p = (.error e, p')) : p' = p ∧ p.entropy = [] := by
  unfold draw at h
  rw [bind_run, get_run] at h
  cases hentropy : p.entropy with
  | nil =>
      simp only [hentropy] at h
      cases h
      exact ⟨rfl, rfl⟩
  | cons y rest =>
      simp only [hentropy] at h
      cases h

variable (P) in
/-- The recipient has a channel that is not exhausted, or one can be established with it. -/
def Sealable (p : Participant) (v : SigPublic) : Prop :=
  match p.send[v]? with
  | some chan => chan.next ≠ LAST
  | none => ∃ gen pk eph rest, p.peerPrekeys[v]? = some (gen, pk) ∧ p.entropy = eph :: rest ∧
      (P.x25519Agree eph pk).isSome

variable (P) in
/-- A slice for the recipient, and the participant after it was sealed. -/
structure SealedTo (p : Participant) (v : SigPublic) (slice : Slice) (p' : Participant) : Prop where
  recipient : slice.recipient = v
  frame : p' = { p with send := p'.send, entropy := p'.entropy }
  others : ∀ u, u ≠ v → p'.send[u]? = p.send[u]?
  entropy : p'.entropy = if p.send.contains v then p.entropy else p.entropy.tail
  moved : ∃ chan, p'.send[v]? = some chan ∧ chan.next.toNat = slice.seq.toNat + 1
  position : match p.send[v]? with
    | some chan => slice.establish = none ∧ slice.seq = chan.next
    | none => slice.establish.isSome ∧ slice.seq = 0

theorem advance_ok {chan next : Chan} (h : chan.advance P = .ok next) :
    chan.next ≠ LAST ∧ next.next.toNat = chan.next.toNat + 1 := by
  unfold Chan.advance at h
  split_ifs at h with hlast
  cases h
  refine ⟨hlast, ?_⟩
  have hne : chan.next.toNat ≠ 2 ^ 64 - 1 := fun heq => hlast (UInt64.toNat_inj.mp heq)
  have hlt := chan.next.toNat_lt
  rw [UInt64.toNat_add]
  exact Nat.mod_eq_of_lt (by change chan.next.toNat + 1 < 2 ^ 64; omega)

theorem advance_error {chan : Chan} {e : Error} (h : chan.advance P = .error e) :
    chan.next = LAST := by
  unfold Chan.advance at h
  split_ifs at h with hlast
  exact hlast

theorem step_run (chan : Chan) :
    chan.step P = (chan.advance P).map fun next => ((chan.next, chan.currentKey P), next) := by
  unfold Chan.step
  cases chan.advance P with
  | error e => rfl
  | ok next => rfl

/-- Establishing a channel: one is there, one is made, or nothing but entropy is spent. -/
theorem establish_cases (v : SigPublic) :
    (∃ chan, p.send[v]? = some chan ∧ establish P v p = (.ok none, p)) ∨
    (p.send[v]? = none ∧ ((∃ gen pk eph rest shared, p.peerPrekeys[v]? = some (gen, pk) ∧
        p.entropy = eph :: rest ∧ P.x25519Agree eph pk = some shared ∧
        ∃ root, establish P v p = (.ok (some (gen, P.x25519Public eph)),
          { p with entropy := rest, send := p.send.insert v (Chan.new P root) })) ∨
      (¬Sealable P p v ∧ ∃ e entropy, establish P v p = (.error e, { p with entropy })))) := by
  unfold establish
  rw [bind_run, get_run]
  dsimp only
  cases hsend : p.send[v]? with
  | some chan =>
      rw [if_pos (contains_of_getElem? hsend)]
      exact Or.inl ⟨chan, rfl, rfl⟩
  | none =>
      rw [if_neg (not_contains_of_getElem? hsend)]
      refine Or.inr ⟨rfl, ?_⟩
      cases hpeer : p.peerPrekeys[v]? with
      | none =>
          refine Or.inr ⟨?_, .noPrekey, p.entropy, rfl⟩
          rw [Sealable, hsend]
          rintro ⟨gen, pk, eph, rest, hknown, -⟩
          rw [hpeer] at hknown
          cases hknown
      | some known =>
          obtain ⟨gen, pk⟩ := known
          dsimp only
          rw [bind_run]
          cases hdraw : draw p with
          | mk r p₁ =>
              cases r with
              | error e =>
                  obtain ⟨rfl, hempty⟩ := draw_error hdraw
                  refine Or.inr ⟨?_, e, p₁.entropy, rfl⟩
                  rw [Sealable, hsend]
                  rintro ⟨_, _, eph, rest, -, hentropy, -⟩
                  rw [hempty] at hentropy
                  cases hentropy
              | ok eph =>
                  obtain ⟨rest, hentropy, rfl⟩ := draw_ok hdraw
                  dsimp only
                  cases hagree : P.x25519Agree eph pk with
                  | none =>
                      refine Or.inr ⟨?_, .noPrekey, rest, rfl⟩
                      rw [Sealable, hsend]
                      rintro ⟨gen', pk', eph', rest', hknown, hfirst, hsome⟩
                      rw [hpeer] at hknown
                      rw [hentropy] at hfirst
                      cases hknown
                      cases hfirst
                      rw [hagree] at hsome
                      cases hsome
                  | some shared =>
                      exact Or.inl ⟨gen, pk, eph, rest, shared, rfl, hentropy, hagree,
                        kdf P (channelRoot P shared p.sid p.ipk v gen) "cfr/chan/data" [], rfl⟩

/-- Sealing a slice once the channel is there. -/
theorem sealSlice_channel {cid : Cid} {ad : Bytes} {x : Secret} {est : Option (UInt32 × DhPublic)}
    {p₁ : Participant} {chan : Chan} (hest : establish P v p = (.ok est, p₁))
    (hchan : p₁.send[v]? = some chan) : sealSlice P cid ad x v p =
      match chan.advance P with
      | .error e => (.error e, p₁)
      | .ok next => (.ok
          { recipient := v, establish := est, seq := chan.next
            ct := aeadSeal P (chan.currentKey P)
              (Participant.sliceNonce P p₁.sid cid v chan.next) (bytesOf x) ad },
          { p₁ with send := p₁.send.insert v next }) := by
  unfold sealSlice
  rw [bind_run, hest]
  dsimp only
  rw [bind_run, get_run]
  simp only [hchan]
  rw [bind_run, lift_run, step_run]
  cases chan.advance P with
  | error e => rfl
  | ok next => rfl

/-- A recipient that can be sealed to is sealed to; otherwise nothing but entropy is spent. -/
theorem sealSlice_cases (cid : Cid) (ad : Bytes) (x : Secret) (v : SigPublic) :
    (Sealable P p v ∧ ∃ slice p', sealSlice P cid ad x v p = (.ok slice, p') ∧
      SealedTo p v slice p') ∨
    (¬Sealable P p v ∧ ∃ e entropy, sealSlice P cid ad x v p = (.error e, { p with entropy })) := by
  rcases establish_cases (P := P) (p := p) v with ⟨chan, hsend, hest⟩ |
    ⟨hsend, ⟨gen, pk, eph, rest, shared, hpeer, hentropy, hagree, root, hest⟩ | ⟨hnot, e, entropy, hest⟩⟩
  · rw [sealSlice_channel hest hsend]
    cases hadvance : chan.advance P with
    | error e =>
        refine Or.inr ⟨?_, e, p.entropy, rfl⟩
        rw [Sealable, hsend]
        exact not_not.mpr (advance_error hadvance)
    | ok next =>
        obtain ⟨hroom, hnext⟩ := advance_ok hadvance
        refine Or.inl ⟨?_, _, _, rfl, ?_⟩
        · rw [Sealable, hsend]
          exact hroom
        · have hcontains : p.send.contains v := contains_of_getElem? hsend
          refine ⟨rfl, rfl, fun u hu => getElem?_insert_ne _ _ hu, (if_pos hcontains).symm,
            ⟨next, Std.ExtTreeMap.getElem?_insert_self, hnext⟩, ?_⟩
          rw [hsend]
          exact ⟨rfl, rfl⟩
  · have hchan : (p.send.insert v (Chan.new P root))[v]? = some (Chan.new P root) :=
      Std.ExtTreeMap.getElem?_insert_self
    rw [sealSlice_channel hest hchan]
    cases hadvance : (Chan.new P root).advance P with
    | error e =>
        have hfirst : (0 : UInt64) ≠ LAST := by decide
        exact absurd (advance_error hadvance) hfirst
    | ok next =>
        obtain ⟨hroom, hnext⟩ := advance_ok hadvance
        refine Or.inl ⟨?_, _, _, rfl, ?_⟩
        · rw [Sealable, hsend]
          exact ⟨gen, pk, eph, rest, hpeer, hentropy, by rw [hagree]; rfl⟩
        · have hcontains : ¬p.send.contains v := not_contains_of_getElem? hsend
          refine ⟨rfl, rfl, fun u hu => ?_, ?_, ⟨next, Std.ExtTreeMap.getElem?_insert_self, hnext⟩, ?_⟩
          · rw [getElem?_insert_ne _ _ hu, getElem?_insert_ne _ _ hu]
          · rw [if_neg hcontains, hentropy]
            rfl
          · rw [hsend]
            exact ⟨rfl, rfl⟩
  · refine Or.inr ⟨hnot, e, entropy, ?_⟩
    unfold sealSlice
    rw [bind_run, hest]

variable (P) in
/-- Every recipient can be sealed to, one after the other. -/
def AllSealable : Participant → List SigPublic → Prop
  | _, [] => True
  | p, v :: recips => Sealable P p v ∧
      AllSealable { p with entropy := if p.send.contains v then p.entropy else p.entropy.tail } recips

/-- Slices for the recipients, and the participant after they were sealed. -/
structure SealedAll (p : Participant) (recips : List SigPublic) (slices : List Slice)
    (p' : Participant) : Prop where
  recipients : slices.map Slice.recipient = recips
  frame : p' = { p with send := p'.send, entropy := p'.entropy }
  others : ∀ u, u ∉ recips → p'.send[u]? = p.send[u]?
  moved : ∀ slice ∈ slices, ∃ chan, p'.send[slice.recipient]? = some chan ∧
    chan.next.toNat = slice.seq.toNat + 1
  position : ∀ slice ∈ slices, match p.send[slice.recipient]? with
    | some chan => slice.establish = none ∧ slice.seq = chan.next
    | none => slice.establish.isSome ∧ slice.seq = 0

theorem sealSlices_ok {cid : Cid} {ad : Bytes} {x : Secret} {recips : List SigPublic}
    {slices : List Slice} (hnodup : recips.Nodup)
    (h : sealSlices P cid ad x recips p = (.ok slices, p')) : SealedAll p recips slices p' := by
  induction recips generalizing p slices with
  | nil =>
      cases h
      exact ⟨rfl, rfl, fun _ _ => rfl, by simp, by simp⟩
  | cons v recips ih =>
      obtain ⟨slice, p₁, hslice, h⟩ := bind_ok h
      obtain ⟨rest, p₂, hrest, h⟩ := bind_ok h
      cases h
      obtain ⟨hv, hnodup⟩ := List.nodup_cons.mp hnodup
      have hfirst : SealedTo p v slice p₁ := by
        rcases sealSlice_cases (P := P) (p := p) cid ad x v with ⟨-, s, q, hrun, hsealed⟩ | ⟨-, e, q, hrun⟩
        · rw [hslice] at hrun
          cases hrun
          exact hsealed
        · rw [hslice] at hrun
          cases hrun
      have hlater := ih hnodup hrest
      have hne : ∀ s ∈ rest, s.recipient ≠ v := by
        intro s hs heq
        rw [← heq, ← hlater.recipients] at hv
        exact hv (List.mem_map_of_mem hs)
      refine ⟨?_, ?_, fun u hu => ?_, fun s hs => ?_, fun s hs => ?_⟩
      · rw [List.map_cons, hfirst.recipient, hlater.recipients]
      · rw [hlater.frame, hfirst.frame]
      · rw [List.mem_cons, not_or] at hu
        rw [hlater.others u hu.2, hfirst.others u hu.1]
      · rcases List.mem_cons.mp hs with rfl | hs
        · obtain ⟨chan, hchan, hnext⟩ := hfirst.moved
          refine ⟨chan, ?_, hnext⟩
          rw [hfirst.recipient, hlater.others v hv, hchan]
        · exact hlater.moved s hs
      · rcases List.mem_cons.mp hs with rfl | hs
        · rw [hfirst.recipient]
          exact hfirst.position
        · have hposition := hlater.position s hs
          rwa [hfirst.others _ (hne s hs)] at hposition

/-- Whether it fails or not, sealing touches the channels of the recipients only. -/
theorem sealSlices_frame {cid : Cid} {ad : Bytes} {x : Secret} {recips : List SigPublic}
    {r : Except Error (List Slice)} (h : sealSlices P cid ad x recips p = (r, p')) :
    p' = { p with send := p'.send, entropy := p'.entropy } ∧
      ∀ u, u ∉ recips → p'.send[u]? = p.send[u]? := by
  induction recips generalizing p p' r with
  | nil =>
      cases h
      exact ⟨rfl, fun _ _ => rfl⟩
  | cons v recips ih =>
      rw [sealSlices, bind_run] at h
      rcases sealSlice_cases (P := P) (p := p) cid ad x v with
        ⟨-, slice, p₁, hrun, hfirst⟩ | ⟨-, e, entropy, hrun⟩
      · rw [hrun] at h
        dsimp only at h
        rw [bind_run] at h
        rcases hrest : sealSlices P cid ad x recips p₁ with ⟨r', p₂⟩
        obtain ⟨hframe, hothers⟩ := ih hrest
        have hend : p' = p₂ := by
          rw [hrest] at h
          cases r' with
          | error e => exact (congrArg Prod.snd h).symm
          | ok slices => exact (congrArg Prod.snd h).symm
        subst hend
        refine ⟨by rw [hframe, hfirst.frame], fun u hu => ?_⟩
        rw [List.mem_cons, not_or] at hu
        rw [hothers u hu.2, hfirst.others u hu.1]
      · rw [hrun] at h
        cases h
        exact ⟨rfl, fun _ _ => rfl⟩

/-- A sealed slice moves the channel of its recipient. -/
theorem SealedTo.send_ne {slice : Slice} (h : SealedTo p v slice p') :
    p'.send[v]? ≠ p.send[v]? := by
  obtain ⟨chan, hchan, hnext⟩ := h.moved
  have hposition := h.position
  cases hsend : p.send[v]? with
  | none =>
      rw [hchan]
      exact Option.some_ne_none chan
  | some old =>
      rw [hsend] at hposition
      rw [hchan]
      intro heq
      cases heq
      rw [hposition.2] at hnext
      omega

/-- Sealing that gets past the first recipient has moved its channel, even if it fails later. -/
theorem sealSlices_send_ne {cid : Cid} {ad : Bytes} {x : Secret} {recips : List SigPublic}
    {r : Except Error (List Slice)} (hv : v ∉ recips) (hsealable : Sealable P p v)
    (h : sealSlices P cid ad x (v :: recips) p = (r, p')) : p'.send ≠ p.send := by
  rw [sealSlices, bind_run] at h
  rcases sealSlice_cases (P := P) (p := p) cid ad x v with
    ⟨-, slice, p₁, hrun, hfirst⟩ | ⟨hnot, -⟩
  · rw [hrun] at h
    dsimp only at h
    rw [bind_run] at h
    rcases hrest : sealSlices P cid ad x recips p₁ with ⟨r', p₂⟩
    have hend : p' = p₂ := by
      rw [hrest] at h
      cases r' with
      | error e => exact (congrArg Prod.snd h).symm
      | ok slices => exact (congrArg Prod.snd h).symm
    subst hend
    intro heq
    apply hfirst.send_ne
    rw [← (sealSlices_frame hrest).2 v hv, heq]
  · exact absurd hsealable hnot

/-- Sealing that stops at the first recipient spends nothing but entropy. -/
theorem sealSlices_stuck {cid : Cid} {ad : Bytes} {x : Secret} {recips : List SigPublic}
    {r : Except Error (List Slice)} (hnot : ¬Sealable P p v)
    (h : sealSlices P cid ad x (v :: recips) p = (r, p')) : ∃ entropy, p' = { p with entropy } := by
  rcases sealSlice_cases (P := P) (p := p) cid ad x v with ⟨hsealable, -⟩ | ⟨-, e, entropy, hrun⟩
  · exact absurd hsealable hnot
  · rw [sealSlices, bind_run, hrun] at h
    cases h
    exact ⟨entropy, rfl⟩

/-- What can be sealed depends on the channels of the recipients, the prekeys and the entropy. -/
theorem AllSealable.congr {q : Participant} {recips : List SigPublic} (h : AllSealable P p recips)
    (hpeers : q.peerPrekeys = p.peerPrekeys) (hentropy : q.entropy = p.entropy)
    (hsend : ∀ u ∈ recips, q.send[u]? = p.send[u]?) : AllSealable P q recips := by
  induction recips generalizing p q with
  | nil => trivial
  | cons v recips ih =>
      have hv := hsend v List.mem_cons_self
      have hcontains : q.send.contains v = p.send.contains v := by
        rw [Std.ExtTreeMap.contains_eq_isSome_getElem?, Std.ExtTreeMap.contains_eq_isSome_getElem?, hv]
      refine ⟨?_, ih h.2 hpeers ?_ fun u hu => hsend u (List.mem_cons_of_mem _ hu)⟩
      · have hfirst := h.1
        rwa [Sealable, ← hv, ← hpeers, ← hentropy] at hfirst
      · rw [hcontains, hentropy]

theorem sealSlices_all (cid : Cid) (ad : Bytes) (x : Secret) {recips : List SigPublic}
    (hnodup : recips.Nodup) (h : AllSealable P p recips) :
    ∃ slices p', sealSlices P cid ad x recips p = (.ok slices, p') := by
  induction recips generalizing p with
  | nil => exact ⟨[], p, rfl⟩
  | cons v recips ih =>
      obtain ⟨hv, hnodup⟩ := List.nodup_cons.mp hnodup
      rcases sealSlice_cases (P := P) (p := p) cid ad x v with
        ⟨-, slice, p₁, hrun, hfirst⟩ | ⟨hnot, -⟩
      · have hpeers : p₁.peerPrekeys = p.peerPrekeys := by rw [hfirst.frame]
        have hrest : AllSealable P p₁ recips := by
          refine h.2.congr hpeers hfirst.entropy fun u hu => hfirst.others u ?_
          rintro rfl
          exact hv hu
        obtain ⟨slices, p₂, hslices⟩ := ih hnodup hrest
        refine ⟨slice :: slices, p₂, ?_⟩
        rw [sealSlices, bind_run, hrun]
        dsimp only
        rw [bind_run, hslices]
        rfl
      · exact absurd h.1 hnot

end Sealing

end CausalFrontierRatchet.SliceSealing
