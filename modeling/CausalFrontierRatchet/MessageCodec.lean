import CausalFrontierRatchet.Messages
import CausalFrontierRatchet.OperationCodec

/-!
What the message decoder accepts.  Every field but one has a single encoding.  The approvals of a
checkpoint certificate are a list on the wire and a map in memory, and the reader takes them in any
order.
-/

namespace CausalFrontierRatchet.MessageCodec

open BigEndian Crypto Tlv PrefixCodec TlvCodec Operation OperationCodec Messages

/-! ## Records -/

section Records

theorem readOp_exact :
    Exact (fun op : Op => Op.Fits op ∧ op.toWire.length ≤ MAX_FIELD) Op.write readOp where
  complete := by
    rintro op rest ⟨hfits, hlen⟩
    rw [Op.write, readOp, bytes_exact.bind_complete hlen, lift_apply, Op.fromWire,
      whole_of_exact op_exact hfits]
    rfl
  sound := by
    intro input rest op hread
    obtain ⟨buf, mid, hlen, rfl, hlift⟩ := bytes_exact.bind_sound hread
    rw [lift_apply] at hlift
    cases hop : Op.fromWire buf with
    | error e =>
        rw [hop] at hlift
        cases hlift
    | ok op' =>
        rw [hop] at hlift
        cases hlift
        obtain ⟨hfits, rfl⟩ := exact_of_whole op_exact hop
        exact ⟨⟨hfits, hlen⟩, rfl⟩

theorem envelope_exact :
    Exact (fun e : Envelope => e.ct.length ≤ MAX_FIELD) Envelope.encode Envelope.decode where
  complete := by
    rintro ⟨eph, gen, ct⟩ rest hct
    simp only [Envelope.encode, List.append_assoc]
    rw [Envelope.decode, oid_exact.bind_complete trivial, u32_exact.bind_complete trivial,
      bytes_exact.bind_complete hct]
    rfl
  sound := by
    intro input rest e hread
    obtain ⟨eph, mid, -, rfl, hgen⟩ := oid_exact.bind_sound hread
    obtain ⟨gen, mid, -, rfl, hct⟩ := u32_exact.bind_sound hgen
    obtain ⟨ct, mid, hlen, rfl, hpure⟩ := bytes_exact.bind_sound hct
    cases hpure
    exact ⟨hlen, by simp [Envelope.encode]⟩

theorem profile_of_decode {code : UInt64} {profile : ProtocolProfile}
    (h : ProtocolProfile.decode code = .ok profile) : code = profile.code := by
  unfold ProtocolProfile.decode at h
  split_ifs at h <;> cases h <;> assumption

theorem profile_decode (profile : ProtocolProfile) :
    ProtocolProfile.decode profile.code = .ok profile := by
  cases profile <;> rfl

theorem context_exact : Exact (fun _ : BitVec 128 => True) Writer.array (Reader.array 128) :=
  array_exact (by decide) (by decide)

/-- A valid record names at most as many frontier operations as a set may hold. -/
theorem frontier_of_validate {r : ResumptionRecord} (h : r.validate = .ok ()) :
    r.previousFrontier.size ≤ MAX_CHECKPOINT_FRONTIER := by
  unfold ResumptionRecord.validate at h
  split_ifs at h
  omega

theorem record_exact :
    Exact (fun r : ResumptionRecord => r.validate = .ok ()) ResumptionRecord.write
      ResumptionRecord.read where
  complete := by
    intro r rest hr
    have hlimit : MAX_CHECKPOINT_FRONTIER ≤ MAX_ITEMS := by decide
    have hid : r.protocolId.toUInt64.toNat < 2 ^ 16 := r.protocolId.toNat_lt
    simp only [ResumptionRecord.write, List.append_assoc, ResumptionRecord.read]
    rw [u64_exact.bind_complete trivial, if_neg (Nat.not_le.mpr hid),
      oid_exact.bind_complete trivial, context_exact.bind_complete trivial,
      oids_complete ((frontier_of_validate hr).trans hlimit), oid_exact.bind_complete trivial,
      u64_exact.bind_complete trivial, oid_exact.bind_complete trivial,
      u64_exact.bind_complete trivial, profile_decode, bind_of_ok (lift_apply _ _),
      u64_exact.bind_complete trivial, ofList_toList, UInt16.toUInt16_toUInt64]
    rw [hr]
    rfl
  sound := by
    intro input rest r hread
    obtain ⟨id, mid, -, rfl, hguard⟩ := u64_exact.bind_sound hread
    obtain ⟨hid, hprevious⟩ := ok_of_guard hguard
    obtain ⟨previousSession, mid, -, rfl, hcontext⟩ := oid_exact.bind_sound hprevious
    obtain ⟨previousContext, mid, -, rfl, hset⟩ := context_exact.bind_sound hcontext
    obtain ⟨frontier, mid, -, rfl, hroot⟩ := oids_sound hset
    obtain ⟨membershipRoot, mid, -, rfl, hepoch⟩ := oid_exact.bind_sound hroot
    obtain ⟨checkpointEpoch, mid, -, rfl, hnext⟩ := u64_exact.bind_sound hepoch
    obtain ⟨nextSession, mid, -, rfl, hcode⟩ := oid_exact.bind_sound hnext
    obtain ⟨code, mid, -, rfl, hlift⟩ := u64_exact.bind_sound hcode
    obtain ⟨profile, hprofile, hcapabilities⟩ := ok_of_lift hlift
    obtain ⟨requiredCapabilities, mid, -, rfl, hvalidate⟩ := u64_exact.bind_sound hcapabilities
    rw [ofList_toList] at hvalidate
    obtain ⟨_, hvalid, hpure⟩ := ok_of_lift hvalidate
    cases hpure
    have hvalue : id.toUInt16.toUInt64 = id := by
      apply UInt64.toNat_inj.mp
      rw [UInt16.toNat_toUInt64, UInt64.toNat_toUInt16, Nat.mod_eq_of_lt (by omega)]
    refine ⟨hvalid, ?_⟩
    simp [ResumptionRecord.write, hvalue, profile_of_decode hprofile]

end Records

/-! ## Checkpoint certificates -/

section Certificates

variable (P : Primitives)

/-- An approval as an entry of the certificate's map. -/
def entry (a : CheckpointSignature) : SigPublic × Signature :=
  (a.signer, a.signature)

def writeApproval (a : CheckpointSignature) : Bytes :=
  Writer.array a.signer ++ Writer.array a.signature

/-- A certificate on the wire, its approvals in the order given. -/
def certificateWire (record : ResumptionRecord) (approvals : List CheckpointSignature) : Bytes :=
  record.write ++ Writer.list writeApproval approvals

theorem approval_exact :
    Exact (fun _ : CheckpointSignature => True) writeApproval (do
      let signer ← Reader.array 256
      let signature ← Reader.array 512
      pure (CheckpointSignature.mk signer signature)) where
  complete := by
    rintro ⟨signer, signature⟩ rest _
    rw [writeApproval, List.append_assoc, oid_exact.bind_complete trivial,
      sig_exact.bind_complete trivial]
    rfl
  sound := by
    intro input rest a hread
    obtain ⟨signer, mid, -, rfl, hsig⟩ := oid_exact.bind_sound hread
    obtain ⟨signature, mid, -, rfl, hpure⟩ := sig_exact.bind_sound hsig
    cases hpure
    exact ⟨trivial, by simp [writeApproval]⟩

variable {P}

theorem addSignature_ok {c c' : CheckpointCertificate} {a : CheckpointSignature}
    (h : c.addSignature P a = .ok c') : a.signer ∉ c.signatures ∧
      c' = { c with signatures := c.signatures.insert a.signer a.signature } := by
  unfold CheckpointCertificate.addSignature at h
  split_ifs at h with _ _ hdup
  cases h
  exact ⟨by simpa using hdup, rfl⟩

/-- The certificate holds what it held and the approvals. -/
theorem collected {approvals : List CheckpointSignature} {c c' : CheckpointCertificate}
    (h : approvals.foldlM (CheckpointCertificate.addSignature P) c = .ok c') :
    c'.record = c.record ∧
      ∀ e, e ∈ c'.signatures.toList ↔ e ∈ approvals.map entry ∨ e ∈ c.signatures.toList := by
  induction approvals generalizing c with
  | nil =>
      cases h
      simp
  | cons a approvals ih =>
      rw [List.foldlM_cons] at h
      cases hadd : c.addSignature P a with
      | error e =>
          rw [hadd] at h
          cases h
      | ok c₁ =>
          rw [hadd] at h
          obtain ⟨hfresh, rfl⟩ := addSignature_ok hadd
          obtain ⟨hrecord, hmem⟩ := ih h
          refine ⟨hrecord, ?_⟩
          rintro ⟨signer, signature⟩
          rw [hmem, List.map_cons, List.mem_cons, or_assoc, or_left_comm]
          apply or_congr_right
          simp only [Std.ExtTreeMap.mem_toList_iff_getElem?_eq_some, Std.ExtTreeMap.getElem?_insert,
            entry, Prod.mk.injEq, Std.LawfulEqCmp.compare_eq_iff_eq]
          by_cases hsame : a.signer = signer
          · have hnone := Std.ExtTreeMap.getElem?_eq_none hfresh
            rw [hsame] at hnone
            simp [hsame, hnone, eq_comm]
          · simp [hsame, Ne.symm hsame]

/-- Reading a certificate takes the approvals in the order they come in. -/
theorem certificate_sound {input rest : Bytes} {c : CheckpointCertificate}
    (h : CheckpointCertificate.read P input = .ok (c, rest)) :
    ∃ approvals, c.record.validate = .ok () ∧ approvals.length ≤ MAX_CHECKPOINT_SIGNERS ∧
      input = certificateWire c.record approvals ++ rest ∧
      ∀ e, e ∈ c.signatures.toList ↔ e ∈ approvals.map entry := by
  obtain ⟨record, mid, hvalid, rfl, hlist⟩ := record_exact.bind_sound h
  obtain ⟨approvals, mid, -, rfl, hguard⟩ := (list_exact approval_exact).bind_sound hlist
  obtain ⟨hcount, hfold⟩ := ok_of_guard hguard
  dsimp only at hfold
  rw [lift_apply] at hfold
  cases hc : approvals.foldlM (CheckpointCertificate.addSignature P) ⟨record, ∅⟩ with
  | error e =>
      rw [hc] at hfold
      cases hfold
  | ok c' =>
      rw [hc] at hfold
      cases hfold
      obtain ⟨hrecord, hmem⟩ := collected hc
      have hnone : (∅ : Std.ExtTreeMap SigPublic Signature).toList = [] := rfl
      rw [hrecord]
      refine ⟨approvals, hvalid, Nat.not_lt.mp hcount, by simp [certificateWire], ?_⟩
      intro e
      rw [hmem, hnone]
      simp

theorem nodup_of_ascending {entries : List (SigPublic × Signature)}
    (h : entries.Pairwise fun x y => x.1 < y.1) : entries.Nodup := by
  refine h.imp ?_
  rintro x _ hlt rfl
  exact BitVec.lt_irrefl _ hlt

theorem toList_ascends (signatures : Std.ExtTreeMap SigPublic Signature) :
    signatures.toList.Pairwise fun x y => x.1 < y.1 :=
  Std.ExtTreeMap.ordered_keys_toList.imp compare_lt.mp

/-- The map writes its approvals in the order of the signers. -/
theorem toList_eq_iff {signatures : Std.ExtTreeMap SigPublic Signature}
    {approvals : List CheckpointSignature}
    (hmem : ∀ e, e ∈ signatures.toList ↔ e ∈ approvals.map entry) :
    signatures.toList = approvals.map entry ↔
      approvals.Pairwise fun a b => a.signer < b.signer := by
  have hmap : (approvals.map entry).Pairwise (fun x y => x.1 < y.1) ↔
      approvals.Pairwise fun a b => a.signer < b.signer := List.pairwise_map
  have hlist := toList_ascends signatures
  rw [← hmap]
  constructor
  · intro heq
    rwa [heq] at hlist
  · intro hsorted
    refine List.Perm.eq_of_pairwise ?_ hlist hsorted ?_
    · intro x y _ _ hxy hyx
      exact absurd hxy (BitVec.lt_asymm hyx)
    · apply (List.perm_ext_iff_of_nodup (nodup_of_ascending hlist)
        (nodup_of_ascending hsorted)).mpr hmem

theorem toList_length_le {signatures : Std.ExtTreeMap SigPublic Signature}
    {approvals : List CheckpointSignature}
    (hmem : ∀ e, e ∈ signatures.toList ↔ e ∈ approvals.map entry) :
    signatures.toList.length ≤ approvals.length := by
  have hsub := List.subperm_of_subset (nodup_of_ascending (toList_ascends signatures))
    fun e he => (hmem e).mp he
  simpa using hsub.length_le

theorem certificate_write (c : CheckpointCertificate) :
    c.write = certificateWire c.record (c.signatures.toList.map fun e => ⟨e.1, e.2⟩) := by
  simp [CheckpointCertificate.write, certificateWire, Writer.list, List.flatMap_map, writeApproval]

end Certificates

/-! ## Messages -/

section Decoding

variable {P : Primitives}

/-- What every message starts with. -/
def preamble : Bytes :=
  Writer.u64 CFR_WIRE_MARKER ++ Writer.u64 PROTOCOL_ID.toUInt64

/-- A checkpoint message on the wire, its approvals in the order given. -/
def checkpointWire (record : ResumptionRecord) (approvals : List CheckpointSignature) : Bytes :=
  preamble ++ Writer.u32 M_CHECKPOINT ++ certificateWire record approvals

/-- If a byte string is a checkpoint message, its approvals ascend by signer. -/
def ApprovalsAscend (buf : Bytes) : Prop :=
  ∀ (record : ResumptionRecord) (approvals : List CheckpointSignature),
    record.validate = .ok () → approvals.length ≤ MAX_CHECKPOINT_SIGNERS →
    buf = checkpointWire record approvals → approvals.Pairwise fun a b => a.signer < b.signer

theorem bounded_bind {β : Type} {n : ℕ} {reason : String} {next : Unit → Reader β} {input rest : Bytes}
    {b : β} (h : (bounded n reason >>= next) input = .ok (b, rest)) :
    n ≤ MAX_BATCH ∧ next () input = .ok (b, rest) := by
  unfold bounded at h
  split at h
  · cases h
  · exact ⟨Nat.not_lt.mp ‹_›, h⟩

theorem oidList_exact :
    Exact (fun items : List Oid => items.length ≤ MAX_ITEMS ∧ (∀ a ∈ items, True) ∧
        (items.map Writer.array).Pairwise (· < ·)) (Writer.set Writer.array)
      (Reader.set (Reader.array 256)) :=
  set_exact oid_exact

/-- An operation that is read back from a message. -/
def Wired (op : Op) : Prop :=
  Op.Fits op ∧ op.toWire.length ≤ MAX_FIELD

/-- Identifiers in ascending order, as many as a message may carry. -/
def Listed (items : List Oid) : Prop :=
  items.length ≤ MAX_BATCH ∧ (items.map Writer.array).Pairwise (· < ·)

/-- What the decoder asks of the six kinds of message a participant sends. -/
def Message.Fits : Message → Prop
  | .op o => Wired o
  | .welcome _ _ sealed history pruned =>
      sealed.ct.length ≤ MAX_FIELD ∧ history.length ≤ MAX_BATCH ∧ (∀ o ∈ history, Wired o) ∧
        Listed pruned
  | .sync _ heads => Listed heads
  | .deliver ops pruned => ops.length ≤ MAX_BATCH ∧ (∀ o ∈ ops, Wired o) ∧ Listed pruned
  | .nodeKeyRequest _ nodes => Listed nodes
  | .nodeKeyResponse _ sealed => sealed.ct.length ≤ MAX_FIELD
  | .checkpoint _ => False

theorem bounded_run {n : ℕ} (h : n ≤ MAX_BATCH) (reason : String) : bounded n reason = pure () :=
  if_neg (Nat.not_lt.mpr h)

theorem ops_complete {β : Type} {ops : List Op} (hlen : ops.length ≤ MAX_BATCH)
    (hops : ∀ o ∈ ops, Wired o) (rest : Bytes) (next : List Op → Reader β) :
    (Reader.list readOp >>= next) (Writer.list Op.write ops ++ rest) = next ops rest :=
  (list_exact readOp_exact).bind_complete ⟨hlen.trans (by decide), hops⟩ rest next

theorem listed_complete {β : Type} {items : List Oid} (h : Listed items) (rest : Bytes)
    (next : List Oid → Reader β) :
    (Reader.set (Reader.array 256) >>= next) (Writer.set Writer.array items ++ rest) =
      next items rest :=
  oidList_exact.bind_complete ⟨h.1.trans (by decide), fun _ _ => trivial, h.2⟩ rest next

theorem message_complete {m : Message} (h : Message.Fits m) (rest : Bytes) :
    Message.read P (m.toWire ++ rest) = .ok (m, rest) := by
  unfold Message.read
  cases m with
  | op o =>
      simp only [Message.toWire, List.append_assoc]
      rw [u64_exact.bind_complete trivial, if_neg (not_not.mpr rfl),
        u64_exact.bind_complete trivial, if_neg (not_not.mpr rfl),
        u32_exact.bind_complete trivial, if_pos rfl]
      exact readOp_exact.bind_complete h rest _
  | welcome sid sender sealed history pruned =>
      obtain ⟨hsealed, hlen, hops, hpruned⟩ := h
      simp only [Message.toWire, List.append_assoc]
      rw [u64_exact.bind_complete trivial, if_neg (not_not.mpr rfl),
        u64_exact.bind_complete trivial, if_neg (not_not.mpr rfl),
        u32_exact.bind_complete trivial, if_neg (by decide), if_pos rfl,
        oid_exact.bind_complete trivial, oid_exact.bind_complete trivial,
        envelope_exact.bind_complete hsealed, ops_complete hlen hops, bounded_run hlen, pure_bind,
        listed_complete hpruned, bounded_run hpruned.1, pure_bind]
      rfl
  | sync sender heads =>
      simp only [Message.toWire, List.append_assoc]
      rw [u64_exact.bind_complete trivial, if_neg (not_not.mpr rfl),
        u64_exact.bind_complete trivial, if_neg (not_not.mpr rfl),
        u32_exact.bind_complete trivial, if_neg (by decide), if_neg (by decide), if_pos rfl,
        oid_exact.bind_complete trivial, listed_complete h, bounded_run h.1, pure_bind]
      rfl
  | deliver ops pruned =>
      obtain ⟨hlen, hops, hpruned⟩ := h
      simp only [Message.toWire, List.append_assoc]
      rw [u64_exact.bind_complete trivial, if_neg (not_not.mpr rfl),
        u64_exact.bind_complete trivial, if_neg (not_not.mpr rfl),
        u32_exact.bind_complete trivial, if_neg (by decide), if_neg (by decide),
        if_neg (by decide), if_pos rfl, ops_complete hlen hops, bounded_run hlen, pure_bind,
        listed_complete hpruned, bounded_run hpruned.1, pure_bind]
      rfl
  | nodeKeyRequest sender nodes =>
      simp only [Message.toWire, List.append_assoc]
      rw [u64_exact.bind_complete trivial, if_neg (not_not.mpr rfl),
        u64_exact.bind_complete trivial, if_neg (not_not.mpr rfl),
        u32_exact.bind_complete trivial, if_neg (by decide), if_neg (by decide),
        if_neg (by decide), if_neg (by decide), if_pos rfl, oid_exact.bind_complete trivial,
        listed_complete h, bounded_run h.1, pure_bind]
      rfl
  | nodeKeyResponse sender sealed =>
      simp only [Message.toWire, List.append_assoc]
      rw [u64_exact.bind_complete trivial, if_neg (not_not.mpr rfl),
        u64_exact.bind_complete trivial, if_neg (not_not.mpr rfl),
        u32_exact.bind_complete trivial, if_neg (by decide), if_neg (by decide),
        if_neg (by decide), if_neg (by decide), if_neg (by decide), if_pos rfl,
        oid_exact.bind_complete trivial]
      exact envelope_exact.bind_complete h rest _
  | checkpoint certificate => exact h.elim

/-- A message that was read is what its encoding starts with, up to the order of approvals. -/
theorem message_sound {input rest : Bytes} {m : Message}
    (h : Message.read P input = .ok (m, rest)) :
    (input = m.toWire ++ rest ∧ Message.Fits m) ∨
    ∃ c approvals, m = .checkpoint c ∧ c.record.validate = .ok () ∧
      approvals.length ≤ MAX_CHECKPOINT_SIGNERS ∧
      input = checkpointWire c.record approvals ++ rest ∧
      ∀ e, e ∈ c.signatures.toList ↔ e ∈ approvals.map entry := by
  obtain ⟨marker, mid, -, rfl, hmarker⟩ := u64_exact.bind_sound h
  obtain ⟨hmarked, hprotocol⟩ := ok_of_guard hmarker
  obtain ⟨protocol, mid, -, rfl, hid⟩ := u64_exact.bind_sound hprotocol
  obtain ⟨hprotocol', htag⟩ := ok_of_guard hid
  obtain ⟨tag, mid, -, rfl, hbody⟩ := u32_exact.bind_sound htag
  rw [not_not] at hmarked hprotocol'
  subst hmarked hprotocol'
  clear h hmarker hprotocol hid htag
  split_ifs at hbody with hop hwelcome hsync hdeliver hrequest hresponse hcheckpoint
  · obtain ⟨op, mid, hwired, rfl, hpure⟩ := readOp_exact.bind_sound hbody
    cases hpure
    exact Or.inl ⟨by simp [Message.toWire, hop], hwired⟩
  · obtain ⟨sid, mid, -, rfl, h₁⟩ := oid_exact.bind_sound hbody
    obtain ⟨sender, mid, -, rfl, h₂⟩ := oid_exact.bind_sound h₁
    obtain ⟨sealed, mid, hsealed, rfl, h₃⟩ := envelope_exact.bind_sound h₂
    obtain ⟨history, mid, hops, rfl, h₄⟩ := (list_exact readOp_exact).bind_sound h₃
    obtain ⟨hlen, h₅⟩ := bounded_bind h₄
    obtain ⟨pruned, mid, hpruned, rfl, h₆⟩ := oidList_exact.bind_sound h₅
    obtain ⟨hcount, h₇⟩ := bounded_bind h₆
    cases h₇
    exact Or.inl ⟨by simp [Message.toWire, hwelcome], hsealed, hlen, hops.2, hcount, hpruned.2.2⟩
  · obtain ⟨sender, mid, -, rfl, h₁⟩ := oid_exact.bind_sound hbody
    obtain ⟨heads, mid, hheads, rfl, h₂⟩ := oidList_exact.bind_sound h₁
    obtain ⟨hcount, h₃⟩ := bounded_bind h₂
    cases h₃
    exact Or.inl ⟨by simp [Message.toWire, hsync], hcount, hheads.2.2⟩
  · obtain ⟨ops, mid, hops, rfl, h₁⟩ := (list_exact readOp_exact).bind_sound hbody
    obtain ⟨hlen, h₂⟩ := bounded_bind h₁
    obtain ⟨pruned, mid, hpruned, rfl, h₃⟩ := oidList_exact.bind_sound h₂
    obtain ⟨hcount, h₄⟩ := bounded_bind h₃
    cases h₄
    exact Or.inl ⟨by simp [Message.toWire, hdeliver], hlen, hops.2, hcount, hpruned.2.2⟩
  · obtain ⟨sender, mid, -, rfl, h₁⟩ := oid_exact.bind_sound hbody
    obtain ⟨nodes, mid, hnodes, rfl, h₂⟩ := oidList_exact.bind_sound h₁
    obtain ⟨hcount, h₃⟩ := bounded_bind h₂
    cases h₃
    exact Or.inl ⟨by simp [Message.toWire, hrequest], hcount, hnodes.2.2⟩
  · obtain ⟨sender, mid, -, rfl, h₁⟩ := oid_exact.bind_sound hbody
    obtain ⟨sealed, mid, hsealed, rfl, h₂⟩ := envelope_exact.bind_sound h₁
    cases h₂
    exact Or.inl ⟨by simp [Message.toWire, hresponse], hsealed⟩
  · obtain ⟨c, mid, hread, hpure⟩ := ok_of_bind hbody
    cases hpure
    obtain ⟨approvals, hvalid, hcount, rfl, hmem⟩ := certificate_sound hread
    exact Or.inr ⟨c, approvals, rfl, hvalid, hcount,
      by simp [checkpointWire, preamble, hcheckpoint], hmem⟩
  · cases hbody

theorem fromWire_toWire {m : Message} (h : Message.Fits m) : Message.fromWire P m.toWire = .ok m := by
  have hread := message_complete (P := P) h []
  rw [List.append_nil] at hread
  rw [Message.fromWire, Reader.whole, bind_of_ok hread]
  rfl

theorem fits_of_fromWire {buf : Bytes} {m : Message} (h : Message.fromWire P buf = .ok m) :
    Message.Fits m ∨ ∃ c, m = .checkpoint c := by
  obtain ⟨-, hfits⟩ | ⟨c, -, hc, -⟩ := message_sound (read_of_whole h)
  · exact Or.inl hfits
  · exact Or.inr ⟨c, hc⟩

theorem readOp_overfull {op : Op} (hdeps : MAX_DEPS < op.deps.size)
    (hitems : op.deps.size ≤ MAX_ITEMS) (hlen : op.toWire.length ≤ MAX_FIELD) (rest : Bytes) :
    readOp (op.write ++ rest) = .error (.encoding "too many dependencies") := by
  have hop := op_overfull hdeps hitems []
  rw [List.append_nil] at hop
  rw [readOp, Op.write, bytes_exact.bind_complete hlen, lift_apply, Op.fromWire,
    whole_of_error hop]
  rfl

/-- An operation with too many dependencies is not read back. -/
theorem overfull_refused {op : Op} (hdeps : MAX_DEPS < op.deps.size)
    (hitems : op.deps.size ≤ MAX_ITEMS) (hlen : op.toWire.length ≤ MAX_FIELD) :
    Message.fromWire P (Message.op op).toWire = .error (.encoding "too many dependencies") := by
  have hread : Message.read P ((Message.op op).toWire ++ []) =
      .error (.encoding "too many dependencies") := by
    unfold Message.read
    simp only [Message.toWire, List.append_assoc]
    rw [u64_exact.bind_complete trivial, if_neg (not_not.mpr rfl), u64_exact.bind_complete trivial,
      if_neg (not_not.mpr rfl), u32_exact.bind_complete trivial, if_pos rfl]
    exact bind_of_error (readOp_overfull hdeps hitems hlen [])
  rw [List.append_nil] at hread
  rw [Message.fromWire, whole_of_error hread]

theorem certificateWire_delimited {record record' : ResumptionRecord}
    {approvals approvals' : List CheckpointSignature}
    (hrecord : record.validate = .ok ()) (hrecord' : record'.validate = .ok ())
    (hcount : approvals.length ≤ MAX_CHECKPOINT_SIGNERS)
    (hcount' : approvals'.length ≤ MAX_CHECKPOINT_SIGNERS)
    (heq : checkpointWire record approvals = checkpointWire record' approvals') :
    record = record' ∧ approvals = approvals' := by
  have hlimit : MAX_CHECKPOINT_SIGNERS ≤ MAX_ITEMS := by decide
  have htail := List.append_cancel_left heq
  obtain ⟨rfl, hlist⟩ := record_exact.delimited hrecord hrecord' htail
  exact ⟨rfl, (list_exact approval_exact).delimited.injective
    ⟨hcount.trans hlimit, fun _ _ => trivial⟩ ⟨hcount'.trans hlimit, fun _ _ => trivial⟩ hlist⟩

theorem checkpoint_toWire (c : CheckpointCertificate) :
    (Message.checkpoint c).toWire =
      checkpointWire c.record (c.signatures.toList.map fun e => ⟨e.1, e.2⟩) := by
  simp only [Message.toWire, checkpointWire, preamble, certificate_write, List.append_assoc]

theorem checkpoint_of_toWire {m : Message} {record : ResumptionRecord}
    {approvals : List CheckpointSignature} (h : m.toWire = checkpointWire record approvals) :
    ∃ c, m = .checkpoint c := by
  have htag : ∀ {tag : UInt32} {tail : Bytes},
      Writer.u64 CFR_WIRE_MARKER ++ (Writer.u64 PROTOCOL_ID.toUInt64 ++ (Writer.u32 tag ++ tail)) =
        checkpointWire record approvals → tag = M_CHECKPOINT := by
    intro tag tail heq
    simp only [checkpointWire, preamble, List.append_assoc, List.append_cancel_left_eq] at heq
    exact (u32_exact.delimited trivial trivial heq).1
  cases m with
  | checkpoint c => exact ⟨c, rfl⟩
  | _ =>
      simp only [Message.toWire, List.append_assoc] at h
      exact absurd (htag h) (by decide)

theorem canonical_iff_approvals_ascend {buf : Bytes} {m : Message}
    (h : Message.fromWire P buf = .ok m) : m.toWire = buf ↔ ApprovalsAscend buf := by
  obtain ⟨hinput, hfits⟩ | ⟨c, approvals, rfl, hvalid, hcount, hinput, hmem⟩ :=
    message_sound (read_of_whole h)
  · rw [List.append_nil] at hinput
    refine iff_of_true hinput.symm ?_
    intro record approvals _ _ hbuf
    obtain ⟨c, rfl⟩ := checkpoint_of_toWire (hinput.symm.trans hbuf)
    exact hfits.elim
  · rw [List.append_nil] at hinput
    rw [checkpoint_toWire, hinput]
    constructor
    · intro heq record' approvals' hvalid' hcount' hbuf
      have hlength := (toList_length_le hmem).trans hcount
      obtain ⟨-, hlist⟩ := certificateWire_delimited hvalid hvalid (by simpa using hlength) hcount heq
      obtain ⟨-, rfl⟩ := certificateWire_delimited hvalid hvalid' hcount hcount' hbuf
      apply (toList_eq_iff hmem).mp
      rw [← hlist, List.map_map]
      simp [Function.comp_def, entry]
    · intro hascend
      have hsorted := hascend c.record approvals hvalid hcount rfl
      rw [(toList_eq_iff hmem).mpr hsorted, List.map_map]
      simp [Function.comp_def, entry]

end Decoding

/-! ## Two approvals in either order -/

section Reordering

def handover : ResumptionRecord where
  protocolId := 1
  previousSession := 1
  previousContext := 0
  previousFrontier := .ofList [(4 : Oid)]
  membershipRoot := 0
  checkpointEpoch := 1
  nextSession := 2
  profile := .decentralizedMerkle
  requiredCapabilities := 7

def approvalBy (key : Secret) : CheckpointSignature :=
  ⟨toy.ed25519Public key, toy.ed25519Sign key handover.signingBytes⟩

def approved : Message :=
  .checkpoint ⟨handover, .ofList [entry (approvalBy 5), entry (approvalBy 6)]⟩

def straight : Bytes :=
  checkpointWire handover [approvalBy 5, approvalBy 6]

def reversed : Bytes :=
  checkpointWire handover [approvalBy 6, approvalBy 5]

theorem ok_of_toOption {ε α : Type} {e : Except ε α} {a : α} (h : e.toOption = some a) :
    e = .ok a := by
  cases e with
  | error e => cases h
  | ok a' =>
      cases h
      rfl

theorem straight_canonical : approved.toWire = straight ∧ ApprovalsAscend straight := by
  have hread : Message.fromWire toy straight = .ok approved := ok_of_toOption (by decide +kernel)
  have hwire : approved.toWire = straight := by decide +kernel
  exact ⟨hwire, (canonical_iff_approvals_ascend hread).mp hwire⟩

theorem insert_swap {a b : SigPublic} (h : a ≠ b) (x y : Signature)
    (signatures : Std.ExtTreeMap SigPublic Signature) :
    (signatures.insert a x).insert b y = (signatures.insert b y).insert a x := by
  apply Std.ExtTreeMap.ext_getElem?
  intro signer
  simp only [Std.ExtTreeMap.getElem?_insert, Std.LawfulEqCmp.compare_eq_iff_eq]
  split_ifs with hb ha
  · exact absurd (ha.trans hb.symm) h
  all_goals rfl

theorem approved_reversed :
    approved = .checkpoint ⟨handover, .ofList [entry (approvalBy 6), entry (approvalBy 5)]⟩ := by
  have hdiff : (approvalBy 5).signer ≠ (approvalBy 6).signer := by decide
  simp only [approved, entry, Std.ExtTreeMap.ofList_cons, Std.ExtTreeMap.insertMany_cons,
    Std.ExtTreeMap.insertMany_nil, insert_swap hdiff]

theorem approvals_in_any_order :
    Message.fromWire toy reversed = .ok approved ∧ approved.toWire ≠ reversed ∧
      Message.fromWire toy straight = .ok approved ∧ straight ≠ reversed := by
  refine ⟨?_, by decide +kernel, ok_of_toOption (by decide +kernel), by decide +kernel⟩
  rw [approved_reversed]
  exact ok_of_toOption (by decide +kernel)

end Reordering

end CausalFrontierRatchet.MessageCodec
