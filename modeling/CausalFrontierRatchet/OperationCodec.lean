import CausalFrontierRatchet.TlvCodec

/-!
The codec of operations is exact: an operation within the limits of the decoder is read back, nothing
but its own encoding decodes to it, and the image that is signed determines every field it covers.
-/

namespace CausalFrontierRatchet.OperationCodec

open BigEndian Crypto Tlv PrefixCodec TlvCodec Operation

/-! ## Exactness -/

section Exactness

theorem sig_exact : Exact (fun _ : Signature => True) Writer.array (Reader.array 512) :=
  array_exact (by decide) (by decide)

def Slice.Fits (s : Slice) : Prop :=
  s.ct.length ≤ MAX_FIELD

/-- The limits the decoder enforces on a body. -/
def Body.Fits : Body → Prop
  | .contrib _ cparents recips slices _ =>
      cparents.size ≤ MAX_DEPS ∧ recips.length ≤ MAX_RECIPIENTS ∧
        slices.length ≤ MAX_RECIPIENTS ∧ ∀ s ∈ slices, Slice.Fits s
  | .prekeyRequest targets => targets.length ≤ MAX_RECIPIENTS
  | _ => True

def Op.Fits (op : Op) : Prop :=
  op.deps.size ≤ MAX_DEPS ∧ Body.Fits op.body

instance : DecidablePred Slice.Fits := fun s =>
  inferInstanceAs (Decidable (s.ct.length ≤ MAX_FIELD))

instance : DecidablePred Body.Fits
  | .add _ | .remove _ | .prekeys _ _ | .accuse _ _ _ _ => instDecidableTrue
  | .contrib _ cparents recips slices _ =>
      inferInstanceAs (Decidable (cparents.size ≤ MAX_DEPS ∧ recips.length ≤ MAX_RECIPIENTS ∧
        slices.length ≤ MAX_RECIPIENTS ∧ ∀ s ∈ slices, Slice.Fits s))
  | .prekeyRequest targets => inferInstanceAs (Decidable (targets.length ≤ MAX_RECIPIENTS))

instance : DecidablePred Op.Fits := fun op =>
  inferInstanceAs (Decidable (op.deps.size ≤ MAX_DEPS ∧ Body.Fits op.body))

theorem slice_exact : Exact Slice.Fits Slice.encode Slice.decode where
  complete := by
    rintro ⟨recipient, establish, seq, ct⟩ rest hct
    cases establish with
    | none =>
        simp only [Slice.encode, List.append_assoc]
        rw [Slice.decode, oid_exact.bind_complete trivial, u32_exact.bind_complete trivial]
        rw [if_pos rfl, pure_bind]
        dsimp only
        rw [u64_exact.bind_complete trivial, bytes_exact.bind_complete hct]
        rfl
    | some channel =>
        simp only [Slice.encode, List.append_assoc]
        rw [Slice.decode, oid_exact.bind_complete trivial, u32_exact.bind_complete trivial,
          if_neg (by decide), if_pos rfl]
        rw [u32_exact.bind_complete trivial, oid_exact.bind_complete trivial, pure_bind]
        dsimp only
        rw [u64_exact.bind_complete trivial, bytes_exact.bind_complete hct]
        rfl
  sound := by
    intro input rest s hread
    obtain ⟨recipient, mid, -, rfl, htag⟩ := oid_exact.bind_sound hread
    obtain ⟨which, mid, -, rfl, hestablish⟩ := u32_exact.bind_sound htag
    dsimp only at hestablish
    -- both forms of a slice end in the sequence number and the ciphertext
    split at hestablish
    · rename_i hwhich
      rw [pure_bind] at hestablish
      obtain ⟨seq, mid, -, rfl, hct⟩ := u64_exact.bind_sound hestablish
      obtain ⟨ct, mid, hfits, rfl, hpure⟩ := bytes_exact.bind_sound hct
      cases hpure
      exact ⟨hfits, by simp [Slice.encode, hwhich]⟩
    · split at hestablish
      · rename_i hwhich
        obtain ⟨gen, mid, -, rfl, heph⟩ := u32_exact.bind_sound hestablish
        obtain ⟨eph, mid, -, rfl, hseq⟩ := oid_exact.bind_sound heph
        rw [pure_bind] at hseq
        obtain ⟨seq, mid, -, rfl, hct⟩ := u64_exact.bind_sound hseq
        obtain ⟨ct, mid, hfits, rfl, hpure⟩ := bytes_exact.bind_sound hct
        cases hpure
        exact ⟨hfits, by simp [Slice.encode, hwhich]⟩
      · cases hestablish

theorem kind_fromU32 (kind : Kind) : Kind.fromU32 kind.toU32 = .ok kind := by
  cases kind <;> rfl

theorem kind_of_fromU32 {v : UInt32} {kind : Kind} (h : Kind.fromU32 v = .ok kind) :
    v = kind.toU32 := by
  unfold Kind.fromU32 at h
  split_ifs at h <;> cases h <;> assumption

theorem recipients_exact :
    Exact (fun items : List SigPublic => items.length ≤ MAX_ITEMS ∧ ∀ a ∈ items, True)
      (Writer.list Writer.array) (Reader.list (Reader.array 256)) :=
  list_exact oid_exact

theorem body_exact (kind : Kind) :
    Exact (fun body : Body => body.kind = kind ∧ Body.Fits body) Body.encode (Body.decode kind) where
  complete := by
    have hitems : MAX_RECIPIENTS ≤ MAX_ITEMS ∧ MAX_DEPS ≤ MAX_ITEMS := by decide
    rintro body rest ⟨rfl, hfits⟩
    cases body with
    | add who | remove who =>
        exact oid_exact.bind_complete trivial rest _
    | prekeys gen pk =>
        rw [Body.encode, List.append_assoc]
        exact (u32_exact.bind_complete trivial _ _).trans (oid_exact.bind_complete trivial rest _)
    | contrib cid cparents recips slices view =>
        obtain ⟨hparents, hrecips, hslices, hcts⟩ := hfits
        simp only [Body.encode, List.append_assoc, Body.kind, Body.decode]
        rw [oid_exact.bind_complete trivial, oids_complete (hparents.trans hitems.2), if_neg,
          recipients_exact.bind_complete ⟨hrecips.trans hitems.1, fun _ _ => trivial⟩,
          if_neg (by omega),
          (list_exact slice_exact).bind_complete ⟨hslices.trans hitems.1, hcts⟩,
          if_neg (by omega), oid_exact.bind_complete trivial, ofList_toList]
        · rfl
        · rw [Std.ExtTreeSet.length_toList]
          omega
    | accuse who coid mk seq =>
        simp only [Body.encode, List.append_assoc, Body.kind, Body.decode]
        rw [oid_exact.bind_complete trivial, oid_exact.bind_complete trivial,
          oid_exact.bind_complete trivial, u64_exact.bind_complete trivial]
        rfl
    | prekeyRequest targets =>
        have htargets : targets.length ≤ MAX_RECIPIENTS := hfits
        rw [Body.encode, Body.kind, Body.decode,
          recipients_exact.bind_complete ⟨htargets.trans hitems.1, fun _ _ => trivial⟩,
          if_neg (by omega)]
        rfl
  sound := by
    intro input rest body hread
    cases kind with
    | add | remove =>
        obtain ⟨who, mid, -, rfl, hpure⟩ := oid_exact.bind_sound hread
        cases hpure
        exact ⟨⟨rfl, trivial⟩, rfl⟩
    | prekeys =>
        obtain ⟨gen, mid, -, rfl, hpk⟩ := u32_exact.bind_sound hread
        obtain ⟨pk, mid, -, rfl, hpure⟩ := oid_exact.bind_sound hpk
        cases hpure
        exact ⟨⟨rfl, trivial⟩, by simp [Body.encode]⟩
    | contrib =>
        obtain ⟨cid, mid, -, rfl, hparents⟩ := oid_exact.bind_sound hread
        obtain ⟨cparents, mid, -, rfl, hguard⟩ := oids_sound hparents
        obtain ⟨hsize, hrecips⟩ := ok_of_guard hguard
        obtain ⟨recips, mid, -, rfl, hguard'⟩ := recipients_exact.bind_sound hrecips
        obtain ⟨hcount, hslices⟩ := ok_of_guard hguard'
        obtain ⟨slices, mid, hfits, rfl, hguard''⟩ := (list_exact slice_exact).bind_sound hslices
        obtain ⟨hcount', hview⟩ := ok_of_guard hguard''
        obtain ⟨view, mid, -, rfl, hpure⟩ := oid_exact.bind_sound hview
        rw [ofList_toList] at hpure
        cases hpure
        rw [Std.ExtTreeSet.length_toList] at hsize
        exact ⟨⟨rfl, by omega, by omega, by omega, hfits.2⟩, by simp [Body.encode]⟩
    | accuse =>
        obtain ⟨who, mid, -, rfl, hcoid⟩ := oid_exact.bind_sound hread
        obtain ⟨coid, mid, -, rfl, hmk⟩ := oid_exact.bind_sound hcoid
        obtain ⟨mk, mid, -, rfl, hseq⟩ := oid_exact.bind_sound hmk
        obtain ⟨seq, mid, -, rfl, hpure⟩ := u64_exact.bind_sound hseq
        cases hpure
        exact ⟨⟨rfl, trivial⟩, by simp [Body.encode]⟩
    | prekeyRequest =>
        obtain ⟨targets, mid, -, rfl, hguard⟩ := recipients_exact.bind_sound hread
        obtain ⟨hcount, hpure⟩ := ok_of_guard hguard
        cases hpure
        exact ⟨⟨rfl, Nat.not_lt.mp hcount⟩, rfl⟩

theorem op_exact : Exact Op.Fits Op.toWire Op.read where
  complete := by
    rintro ⟨sid, author, deps, body, sig⟩ rest ⟨hdeps, hbody⟩
    have hitems : MAX_DEPS ≤ MAX_ITEMS := by decide
    simp only [Op.toWire, header, List.append_assoc, Op.read]
    rw [oid_exact.bind_complete trivial, u32_exact.bind_complete trivial, kind_fromU32,
      bind_of_ok (lift_apply _ _), oid_exact.bind_complete trivial,
      oids_complete (hdeps.trans hitems), if_neg, (body_exact _).bind_complete ⟨rfl, hbody⟩,
      sig_exact.bind_complete trivial, ofList_toList]
    · rfl
    · rw [Std.ExtTreeSet.length_toList]
      exact Nat.not_lt.mpr hdeps
  sound := by
    intro input rest op hread
    obtain ⟨sid, mid, -, rfl, htag⟩ := oid_exact.bind_sound hread
    obtain ⟨tag, mid, -, rfl, hlift⟩ := u32_exact.bind_sound htag
    obtain ⟨kind, hkind, hauthor⟩ := ok_of_lift hlift
    obtain ⟨author, mid, -, rfl, hset⟩ := oid_exact.bind_sound hauthor
    obtain ⟨deps, mid, -, rfl, hguard⟩ := oids_sound hset
    obtain ⟨hsize, hdecode⟩ := ok_of_guard hguard
    obtain ⟨body, mid, ⟨rfl, hbody⟩, rfl, hsig⟩ := (body_exact kind).bind_sound hdecode
    obtain ⟨sig, mid, -, rfl, hpure⟩ := sig_exact.bind_sound hsig
    rw [ofList_toList] at hpure
    cases hpure
    rw [Std.ExtTreeSet.length_toList] at hsize
    refine ⟨⟨Nat.not_lt.mp hsize, hbody⟩, ?_⟩
    simp [Op.toWire, header, kind_of_fromU32 hkind]

theorem op_overfull {op : Op} (hdeps : MAX_DEPS < op.deps.size)
    (hitems : op.deps.size ≤ MAX_ITEMS) (rest : Bytes) :
    Op.read (op.toWire ++ rest) = .error (.encoding "too many dependencies") := by
  simp only [Op.toWire, header, List.append_assoc, Op.read]
  rw [oid_exact.bind_complete trivial, u32_exact.bind_complete trivial, kind_fromU32,
    bind_of_ok (lift_apply _ _), oid_exact.bind_complete trivial, oids_complete hitems, if_pos]
  · rfl
  · rwa [Std.ExtTreeSet.length_toList]

theorem whole_of_exact {α : Type} {ok : α → Prop} {write : α → Bytes} {read : Reader α}
    (h : Exact ok write read) {a : α} (ha : ok a) : Reader.whole read (write a) = .ok a := by
  have hread : read (write a) = .ok (a, []) := by
    have hcomplete := h.complete [] ha
    rwa [List.append_nil] at hcomplete
  rw [Reader.whole, bind_of_ok hread]
  rfl

theorem whole_of_error {α : Type} {read : Reader α} {buf : Bytes} {e : Error}
    (h : read buf = .error e) : Reader.whole read buf = .error e := by
  rw [Reader.whole, bind_apply, h]
  rfl

theorem read_of_whole {α : Type} {read : Reader α} {buf : Bytes} {a : α}
    (h : Reader.whole read buf = .ok a) : read buf = .ok (a, []) := by
  rw [Reader.whole, bind_apply] at h
  cases hread : read buf with
  | error e =>
      rw [hread] at h
      cases h
  | ok out =>
      rw [hread] at h
      obtain ⟨item, rest⟩ := out
      cases rest with
      | nil =>
          cases h
          rfl
      | cons b rest => cases h

theorem exact_of_whole {α : Type} {ok : α → Prop} {write : α → Bytes} {read : Reader α}
    (h : Exact ok write read) {buf : Bytes} {a : α} (hwhole : Reader.whole read buf = .ok a) :
    ok a ∧ write a = buf := by
  obtain ⟨hok, hbuf⟩ := h.sound (read_of_whole hwhole)
  exact ⟨hok, by rw [hbuf, List.append_nil]⟩

end Exactness

/-! ## What a signature binds

Here lengths are only bounded by the width of the length fields. -/

section Binding

theorem bytes_delimited : Delimited (fun v : Bytes => v.length < 2 ^ 32) Writer.bytes := by
  intro v w rest rest' hv hw heq
  simp only [Writer.bytes, List.cons_append, List.append_assoc, List.cons.injEq, true_and] at heq
  obtain ⟨hlen, htail⟩ := List.append_inj heq (by simp)
  exact List.append_inj htail (beBytes_inj hv hw hlen)

theorem list_delimited {α : Type} {ok : α → Prop} {write : α → Bytes} (h : Delimited ok write) :
    Delimited (fun items : List α => items.length < 2 ^ 32 ∧ ∀ a ∈ items, ok a)
      (Writer.list write) := by
  intro xs ys rest rest' hx hy heq
  simp only [Writer.list, List.cons_append, List.append_assoc, List.cons.injEq, true_and] at heq
  obtain ⟨hlen, htail⟩ := List.append_inj heq (by simp)
  exact h.flatMap hx.2 hy.2 (beBytes_inj hx.1 hy.1 hlen) htail

theorem oids_delimited :
    Delimited (fun s : OidSet => s.size < 2 ^ 32) (fun s => Writer.set Writer.array s.toList) := by
  intro s t rest rest' hs ht heq
  dsimp only at heq
  rw [set_of_ascending (toList_ascending s), set_of_ascending (toList_ascending t)] at heq
  simp only [List.cons_append, List.append_assoc, List.cons.injEq, true_and,
    Std.ExtTreeSet.length_toList] at heq
  obtain ⟨hlen, htail⟩ := List.append_inj heq (by simp)
  have hsize : s.toList.length = t.toList.length := by
    rw [Std.ExtTreeSet.length_toList, Std.ExtTreeSet.length_toList]
    exact beBytes_inj hs ht hlen
  obtain ⟨hlist, hrest⟩ := oid_exact.delimited.flatMap (by simp) (by simp) hsize htail
  refine ⟨?_, hrest⟩
  rw [← ofList_toList s, hlist, ofList_toList]

def Slice.Small (s : Slice) : Prop :=
  s.ct.length < 2 ^ 32

/-- Every field of a body fits its length field. -/
def Body.Small : Body → Prop
  | .contrib _ cparents recips slices _ =>
      cparents.size < 2 ^ 32 ∧ recips.length < 2 ^ 32 ∧ slices.length < 2 ^ 32 ∧
        ∀ s ∈ slices, Slice.Small s
  | .prekeyRequest targets => targets.length < 2 ^ 32
  | _ => True

theorem slice_delimited : Delimited Slice.Small Slice.encode := by
  rintro ⟨recipient, establish, seq, ct⟩ ⟨recipient', establish', seq', ct'⟩ rest rest' hs ht heq
  simp only [Slice.encode, List.append_assoc] at heq
  obtain ⟨rfl, hwhich⟩ := oid_exact.delimited trivial trivial heq
  cases establish with
  | none =>
      cases establish' with
      | none =>
          obtain ⟨-, heq₁⟩ := u32_exact.delimited trivial trivial hwhich
          obtain ⟨rfl, heq₂⟩ := u64_exact.delimited trivial trivial heq₁
          obtain ⟨rfl, heq₃⟩ := bytes_delimited hs ht heq₂
          exact ⟨rfl, heq₃⟩
      | some channel =>
          simp only [List.append_assoc] at hwhich
          exact absurd (u32_exact.delimited trivial trivial hwhich).1 (by decide)
  | some channel =>
      cases establish' with
      | none =>
          simp only [List.append_assoc] at hwhich
          exact absurd (u32_exact.delimited trivial trivial hwhich).1 (by decide)
      | some channel' =>
          simp only [List.append_assoc] at hwhich
          obtain ⟨-, heq₁⟩ := u32_exact.delimited trivial trivial hwhich
          obtain ⟨hgen, heq₂⟩ := u32_exact.delimited trivial trivial heq₁
          obtain ⟨heph, heq₃⟩ := oid_exact.delimited trivial trivial heq₂
          obtain ⟨rfl, heq₄⟩ := u64_exact.delimited trivial trivial heq₃
          obtain ⟨rfl, heq₅⟩ := bytes_delimited hs ht heq₄
          rw [Prod.ext hgen heph]
          exact ⟨rfl, heq₅⟩

theorem body_delimited (kind : Kind) :
    Delimited (fun body : Body => body.kind = kind ∧ Body.Small body) Body.encode := by
  rintro a b rest rest' ⟨rfl, ha⟩ ⟨hkind, hb⟩ heq
  cases a with
  | add who =>
      cases b with
      | add who' =>
          obtain ⟨rfl, heq₁⟩ := oid_exact.delimited trivial trivial heq
          exact ⟨rfl, heq₁⟩
      | _ => cases hkind
  | remove who =>
      cases b with
      | remove who' =>
          obtain ⟨rfl, heq₁⟩ := oid_exact.delimited trivial trivial heq
          exact ⟨rfl, heq₁⟩
      | _ => cases hkind
  | prekeys gen pk =>
      cases b with
      | prekeys gen' pk' =>
          simp only [Body.encode, List.append_assoc] at heq
          obtain ⟨rfl, heq₁⟩ := u32_exact.delimited trivial trivial heq
          obtain ⟨rfl, heq₂⟩ := oid_exact.delimited trivial trivial heq₁
          exact ⟨rfl, heq₂⟩
      | _ => cases hkind
  | contrib cid cparents recips slices view =>
      cases b with
      | contrib cid' cparents' recips' slices' view' =>
          obtain ⟨hparents, hrecips, hslices, hcts⟩ := ha
          obtain ⟨hparents', hrecips', hslices', hcts'⟩ := hb
          simp only [Body.encode, List.append_assoc] at heq
          obtain ⟨rfl, heq₁⟩ := oid_exact.delimited trivial trivial heq
          obtain ⟨rfl, heq₂⟩ := oids_delimited hparents hparents' heq₁
          obtain ⟨rfl, heq₃⟩ := list_delimited oid_exact.delimited ⟨hrecips, by simp⟩
            ⟨hrecips', by simp⟩ heq₂
          obtain ⟨rfl, heq₄⟩ := list_delimited slice_delimited ⟨hslices, hcts⟩ ⟨hslices', hcts'⟩ heq₃
          obtain ⟨rfl, heq₅⟩ := oid_exact.delimited trivial trivial heq₄
          exact ⟨rfl, heq₅⟩
      | _ => cases hkind
  | accuse who coid mk seq =>
      cases b with
      | accuse who' coid' mk' seq' =>
          simp only [Body.encode, List.append_assoc] at heq
          obtain ⟨rfl, heq₁⟩ := oid_exact.delimited trivial trivial heq
          obtain ⟨rfl, heq₂⟩ := oid_exact.delimited trivial trivial heq₁
          obtain ⟨rfl, heq₃⟩ := oid_exact.delimited trivial trivial heq₂
          obtain ⟨rfl, heq₄⟩ := u64_exact.delimited trivial trivial heq₃
          exact ⟨rfl, heq₄⟩
      | _ => cases hkind
  | prekeyRequest targets =>
      cases b with
      | prekeyRequest targets' =>
          obtain ⟨rfl, heq₁⟩ := list_delimited oid_exact.delimited ⟨ha, by simp⟩ ⟨hb, by simp⟩ heq
          exact ⟨rfl, heq₁⟩
      | _ => cases hkind

theorem toU32_injective {a b : Kind} (h : a.toU32 = b.toU32) : a = b := by
  revert h
  cases a <;> cases b <;> decide

/-- The bytes that are hashed and signed determine the session, author, dependencies and body. -/
theorem header_injective {sid sid' : SessionId} {author author' : SigPublic} {deps deps' : OidSet}
    {body body' : Body} (hdeps : deps.size < 2 ^ 32) (hdeps' : deps'.size < 2 ^ 32)
    (hbody : Body.Small body) (hbody' : Body.Small body')
    (heq : header sid author deps body = header sid' author' deps' body') :
    sid = sid' ∧ author = author' ∧ deps = deps' ∧ body = body' := by
  simp only [header, List.append_assoc] at heq
  obtain ⟨rfl, heq₁⟩ := oid_exact.delimited trivial trivial heq
  obtain ⟨hkind, heq₂⟩ := u32_exact.delimited trivial trivial heq₁
  obtain ⟨rfl, heq₃⟩ := oid_exact.delimited trivial trivial heq₂
  obtain ⟨rfl, heq₄⟩ := oids_delimited hdeps hdeps' heq₃
  have hsame : body'.kind = body.kind := (toU32_injective hkind).symm
  exact ⟨rfl, rfl, rfl, (body_delimited body.kind).injective ⟨rfl, hbody⟩ ⟨hsame, hbody'⟩ heq₄⟩

end Binding

theorem operation_codec_exact (P : Primitives) :
    (∀ op : Op, Op.Fits op → ∃ op', Op.fromWire op.toWire = .ok op' ∧ op' = op ∧
      op'.image P = op.image P ∧ op'.oid P = op.oid P) ∧
    (∀ (buf : Bytes) (op : Op), Op.fromWire buf = .ok op → op.toWire = buf) ∧
    (∀ (sid sid' : SessionId) (author author' : SigPublic) (deps deps' : OidSet) (body body' : Body),
      deps.size < 2 ^ 32 → deps'.size < 2 ^ 32 → Body.Small body → Body.Small body' →
      absorbed (label "cfr/op") [header sid author deps body] =
        absorbed (label "cfr/op") [header sid' author' deps' body'] →
      sid = sid' ∧ author = author' ∧ deps = deps' ∧ body = body') := by
  refine ⟨?_, ?_, ?_⟩
  · intro op hop
    exact ⟨op, whole_of_exact op_exact hop, rfl, rfl, rfl⟩
  · intro buf op h
    exact (exact_of_whole op_exact h).2
  · intro sid sid' author author' deps deps' body body' hdeps hdeps' hbody hbody' heq
    apply header_injective hdeps hdeps' hbody hbody'
    simp only [absorbed, field, List.flatMap_cons, List.flatMap_nil, List.append_nil] at heq
    exact (List.append_inj (List.append_cancel_left heq) (by simp)).2

/-- A contribution with a dependency, a parent and a slice that opens a channel. -/
def opening : Op :=
  Op.create toy 5 9 (.ofList [(3 : Oid), 1, 2]) (.contrib 4 (.ofList [(8 : Oid)]) [6]
    [⟨6, some (0, 7), 0, [1, 2, 3]⟩] 0)

theorem opening_codec_exact :
    Op.fromWire opening.toWire = .ok opening ∧
      absorbed (label "cfr/op") [header 9 5 ∅ (.add 5)] ≠
        absorbed (label "cfr/op") [header 9 5 ∅ (.remove 5)] := by
  constructor
  · obtain ⟨op, hop, heq, -⟩ := (operation_codec_exact toy).1 opening (by decide +kernel)
    rw [hop, heq]
  · intro heq
    have htuple := (operation_codec_exact toy).2.2 9 9 5 5 ∅ ∅ (.add 5) (.remove 5)
      (by decide) (by decide) trivial trivial heq
    exact absurd htuple.2.2.2 (by decide)

end CausalFrontierRatchet.OperationCodec
