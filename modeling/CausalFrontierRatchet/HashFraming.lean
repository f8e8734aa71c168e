import CausalFrontierRatchet.Crypto
import CausalFrontierRatchet.PrefixCodec

/-!
What is fed to BLAKE3.  A hasher absorbs its label and then every field, each behind its length in
four bytes.  The stream determines the label and the list of fields, so different derivations never
feed the same input to the hash function.
-/

namespace CausalFrontierRatchet.HashFraming

open BigEndian Crypto PrefixCodec

/-! ## The hasher -/

/-- An incremental hasher: the key it was started with, if any, and what it has absorbed. -/
structure Hasher where
  key : Option Secret
  stream : Bytes
deriving DecidableEq

namespace Hasher

/-- Absorbs one field.  A field whose length does not fit four bytes is a panic. -/
def field (h : Hasher) (data : Bytes) : Option Hasher :=
  if data.length < 2 ^ 32 then
    some { h with stream := h.stream ++ beBytes 4 data.length ++ data }
  else none

/-- Starts an unkeyed hash. -/
def new (label : Bytes) : Option Hasher :=
  field ⟨none, []⟩ label

/-- Starts a keyed hash. -/
def keyed (key : Secret) (label : Bytes) : Option Hasher :=
  field ⟨some key, []⟩ label

def finish (P : Primitives) (h : Hasher) : BitVec 256 :=
  match h.key with
  | none => P.blake3 h.stream
  | some key => P.blake3Keyed key h.stream

end Hasher

/-- The reserved label of authentication. -/
def MAC_LABEL : Bytes :=
  label "cfr/mac"

/-- The label of nonces. -/
def NONCE_LABEL : Bytes :=
  label "cfr/nonce"

/-- One derivation, with everything the caller passes. -/
inductive Context
  | hash (label : Bytes) (fields : List Bytes)
  | kdf (key : Secret) (label : Bytes) (ctx : List Bytes)
  | mac (key : Secret) (label : Bytes) (fields : List Bytes)
  | nonce (fields : List Bytes)
deriving DecidableEq

namespace Context

/-- The hasher that a derivation finishes. -/
def hasher : Context → Option Hasher
  | .hash label fields => do
      let h ← Hasher.new label
      fields.foldlM Hasher.field h
  | .kdf key label ctx => do
      let h ← Hasher.keyed key label
      ctx.foldlM Hasher.field h
  | .mac key label fields => do
      let h ← Hasher.keyed key MAC_LABEL
      let h ← h.field label
      fields.foldlM Hasher.field h
  | .nonce fields => do
      let h ← Hasher.new NONCE_LABEL
      fields.foldlM Hasher.field h

/-- The bytes a derivation has absorbed. -/
def stream (c : Context) : Option Bytes :=
  c.hasher.map Hasher.stream

/-- The byte strings the caller passes. -/
def items : Context → List Bytes
  | .hash label fields => label :: fields
  | .kdf _ label ctx => label :: ctx
  | .mac _ label fields => label :: fields
  | .nonce fields => fields

/-- Every length fits four bytes. -/
def Short (c : Context) : Prop :=
  ∀ item ∈ c.items, item.length < 2 ^ 32

/-- A derivation that uses neither reserved label on its own account. -/
def Unreserved : Context → Prop
  | .hash label _ => label ≠ NONCE_LABEL
  | .kdf _ label _ => label ≠ MAC_LABEL
  | _ => True

/-- The key a derivation runs under. -/
def key : Context → Option Secret
  | .hash _ _ => none
  | .kdf key _ _ => some key
  | .mac key _ _ => some key
  | .nonce _ => none

/-- Everything that is absorbed, label first. -/
def framed : Context → List Bytes
  | .hash label fields => label :: fields
  | .kdf _ label ctx => label :: ctx
  | .mac _ label fields => MAC_LABEL :: label :: fields
  | .nonce fields => NONCE_LABEL :: fields

end Context

/-! ## Streams -/

section Streams

variable {h h' : Hasher} {fields : List Bytes}

theorem field_eq (h : Hasher) {data : Bytes} (hdata : data.length < 2 ^ 32) :
    h.field data = some { h with stream := h.stream ++ Crypto.field data } := by
  rw [Hasher.field, if_pos hdata, List.append_assoc]
  rfl

theorem foldlM_field (h : Hasher) (hfields : ∀ f ∈ fields, f.length < 2 ^ 32) :
    fields.foldlM Hasher.field h =
      some { h with stream := h.stream ++ fields.flatMap Crypto.field } := by
  induction fields generalizing h with
  | nil => simp
  | cons f fields ih =>
      rw [List.foldlM_cons, field_eq h (hfields f List.mem_cons_self), Option.bind_eq_bind,
        Option.bind_some, ih _ fun g hg => hfields g (List.mem_cons_of_mem _ hg)]
      simp

theorem mac_label_short : MAC_LABEL.length < 2 ^ 32 := by
  decide +kernel

theorem nonce_label_short : NONCE_LABEL.length < 2 ^ 32 := by
  decide +kernel

/-- Short items are absorbed behind their lengths, one after the other. -/
theorem hasher_eq {c : Context} (hc : c.Short) :
    c.hasher = some ⟨c.key, c.framed.flatMap Crypto.field⟩ := by
  cases c with
  | hash label fields =>
      obtain ⟨hlabel, hfields⟩ := List.forall_mem_cons.mp hc
      rw [Context.hasher, Hasher.new, field_eq _ hlabel, Option.bind_eq_bind, Option.bind_some,
        foldlM_field _ hfields]
      rfl
  | kdf key label ctx =>
      obtain ⟨hlabel, hctx⟩ := List.forall_mem_cons.mp hc
      rw [Context.hasher, Hasher.keyed, field_eq _ hlabel, Option.bind_eq_bind, Option.bind_some,
        foldlM_field _ hctx]
      rfl
  | mac key label fields =>
      obtain ⟨hlabel, hfields⟩ := List.forall_mem_cons.mp hc
      rw [Context.hasher, Hasher.keyed, field_eq _ mac_label_short, Option.bind_eq_bind,
        Option.bind_some, field_eq _ hlabel, Option.bind_some, foldlM_field _ hfields]
      simp [Context.key, Context.framed]
  | nonce fields =>
      have hfields : ∀ f ∈ fields, f.length < 2 ^ 32 := hc
      rw [Context.hasher, Hasher.new, field_eq _ nonce_label_short, Option.bind_eq_bind,
        Option.bind_some, foldlM_field _ hfields]
      rfl

theorem stream_eq {c : Context} (hc : c.Short) :
    c.stream = some (c.framed.flatMap Crypto.field) := by
  rw [Context.stream, hasher_eq hc]
  rfl

/-- A field announces its own length. -/
theorem field_delimited : Delimited (fun data : Bytes => data.length < 2 ^ 32) Crypto.field := by
  intro data data' rest rest' hdata hdata' heq
  simp only [Crypto.field, List.append_assoc] at heq
  obtain ⟨hlength, htail⟩ := List.append_inj heq (by simp)
  exact List.append_inj htail (beBytes_inj hdata hdata' hlength)

theorem field_ne_nil (data : Bytes) : Crypto.field data ≠ [] := by
  intro h
  have hlength := congrArg List.length h
  simp [Crypto.field] at hlength

theorem framed_short {c : Context} (hc : c.Short) : ∀ item ∈ c.framed, item.length < 2 ^ 32 := by
  cases c with
  | hash label fields => exact hc
  | kdf key label ctx => exact hc
  | mac key label fields => exact List.forall_mem_cons.mpr ⟨mac_label_short, hc⟩
  | nonce fields => exact List.forall_mem_cons.mpr ⟨nonce_label_short, hc⟩

/-- The stream determines everything that was absorbed. -/
theorem framed_of_stream {c c' : Context} (hc : c.Short) (hc' : c'.Short)
    (h : c.stream = c'.stream) : c.framed = c'.framed := by
  rw [stream_eq hc, stream_eq hc', Option.some.injEq] at h
  exact field_delimited.flatMap_injective field_ne_nil (framed_short hc) (framed_short hc') h

end Streams

/-! ## The functions of the model -/

section Functions

variable (P : Primitives)

theorem hash_eq_finish {lab : String} {fields : List Bytes}
    (h : (Context.hash (label lab) fields).Short) :
    (Context.hash (label lab) fields).hasher.map (Hasher.finish P) = some (hash P lab fields) := by
  rw [hasher_eq h]
  rfl

theorem kdf_eq_finish {key : Secret} {lab : String} {ctx : List Bytes}
    (h : (Context.kdf key (label lab) ctx).Short) :
    (Context.kdf key (label lab) ctx).hasher.map (Hasher.finish P) = some (kdf P key lab ctx) := by
  rw [hasher_eq h]
  rfl

theorem mac_eq_finish {key : Secret} {lab : String} {fields : List Bytes}
    (h : (Context.mac key (label lab) fields).Short) :
    (Context.mac key (label lab) fields).hasher.map (fun h => leading 128 (h.finish P)) =
      some (mac P key lab fields) := by
  rw [hasher_eq h]
  rfl

theorem nonce_eq_finish {fields : List Bytes} (h : (Context.nonce fields).Short) :
    (Context.nonce fields).hasher.map (Hasher.finish P) = some (nonce P fields) := by
  rw [hasher_eq h]
  rfl

end Functions

/-! ## Injectivity -/

/-- Without a reserved label of their own, two derivations are finished on the same key and stream
only if they are the same. -/
theorem eq_of_hasher {c c' : Context} (hc : c.Short) (hc' : c'.Short) (hfree : c.Unreserved)
    (hfree' : c'.Unreserved) (h : c.hasher = c'.hasher) : c = c' := by
  have hframed := framed_of_stream hc hc' (congrArg (Option.map Hasher.stream) h)
  rw [hasher_eq hc, hasher_eq hc', Option.some.injEq] at h
  have hkey : c.key = c'.key := congrArg Hasher.key h
  -- a keyed derivation is told from an unkeyed one by its key, a reserved one by its label
  cases c <;> cases c' <;>
    simp_all [Context.key, Context.framed, Context.Unreserved]

/-- The stream of a derivation determines its label and its fields, and the same key and stream are
shared by an authentication and a key derivation only under the reserved label. -/
theorem framing_injective (key key' : Secret) {lab lab' : Bytes} {fields fields' : List Bytes}
    (h : ∀ item ∈ lab :: fields, item.length < 2 ^ 32)
    (h' : ∀ item ∈ lab' :: fields', item.length < 2 ^ 32) :
    ((Context.hash lab fields).stream.isSome ∧ (Context.kdf key lab fields).stream.isSome ∧
      (Context.mac key lab fields).stream.isSome ∧ (Context.nonce fields).stream.isSome) ∧
    ((Context.hash lab fields).stream = (Context.hash lab' fields').stream →
      lab = lab' ∧ fields = fields') ∧
    ((Context.kdf key lab fields).stream = (Context.kdf key' lab' fields').stream →
      lab = lab' ∧ fields = fields') ∧
    ((Context.mac key lab fields).stream = (Context.mac key' lab' fields').stream →
      lab = lab' ∧ fields = fields') ∧
    ((Context.nonce fields).stream = (Context.nonce fields').stream → fields = fields') ∧
    ((Context.mac key lab fields).stream = (Context.kdf key lab' fields').stream →
      lab' = MAC_LABEL) ∧
    ∀ c c' : Context, c.Short → c'.Short → c.Unreserved → c'.Unreserved →
      c.hasher = c'.hasher → c = c' := by
  have hhash : (Context.hash lab fields).Short := h
  have hhash' : (Context.hash lab' fields').Short := h'
  have hkdf : (Context.kdf key lab fields).Short := h
  have hkdf' : ∀ key, (Context.kdf key lab' fields').Short := fun _ => h'
  have hmac : (Context.mac key lab fields).Short := h
  have hmac' : (Context.mac key' lab' fields').Short := h'
  have hnonce : (Context.nonce fields).Short := (List.forall_mem_cons.mp h).2
  have hnonce' : (Context.nonce fields').Short := (List.forall_mem_cons.mp h').2
  refine ⟨⟨?_, ?_, ?_, ?_⟩, ?_, ?_, ?_, ?_, ?_, fun c c' => eq_of_hasher⟩
  · rw [stream_eq hhash, Option.isSome_some]
  · rw [stream_eq hkdf, Option.isSome_some]
  · rw [stream_eq hmac, Option.isSome_some]
  · rw [stream_eq hnonce, Option.isSome_some]
  · intro heq
    exact List.cons.inj (framed_of_stream hhash hhash' heq)
  · intro heq
    exact List.cons.inj (framed_of_stream hkdf (hkdf' key') heq)
  · intro heq
    exact List.cons.inj (List.cons.inj (framed_of_stream hmac hmac' heq)).2
  · intro heq
    exact (List.cons.inj (framed_of_stream hnonce hnonce' heq)).2
  · intro heq
    exact (List.cons.inj (framed_of_stream hmac (hkdf' key) heq)).1.symm

/-- The label with an empty field, and without fields. -/
theorem framing_injective_empty_field :
    (Context.hash [1] [[]]).stream ≠ (Context.hash [1] []).stream := by
  intro heq
  have hshort : ∀ item ∈ [[1], ([] : Bytes)], item.length < 2 ^ 32 := by simp
  have hshort' : ∀ item ∈ [([1] : Bytes)], item.length < 2 ^ 32 := by simp
  have hsame := (framing_injective 0 0 hshort hshort').2.1 heq
  exact absurd hsame.2 (by simp)

end CausalFrontierRatchet.HashFraming
