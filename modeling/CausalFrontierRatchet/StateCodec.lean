import CausalFrontierRatchet.FieldCodec
import CausalFrontierRatchet.MessageCodec
import CausalFrontierRatchet.Persistence
import CausalFrontierRatchet.StoreCalls

/-!
The encoding of a logical state.  A decoded state is encoded by the bytes it came from, so decoding
the encoding of a state gives back everything but the conference; the conference itself is only
known to have the same encoding.
-/

namespace CausalFrontierRatchet.StateCodec

open BigEndian Crypto Tlv PrefixCodec TlvCodec OperationCodec ConferenceSeat Store StoreCalls
open Persistence
open StoreFormat (HARD_MAX_STATE_BYTES MAX_WINDOW_ENTRIES)

/-! ## Fields -/

section Fields

variable {α : Type} {ok : α → Prop} {write : α → Bytes} {read : Reader α}

theorem lift_eq_ok {e : Except StoreFormat.Error α} {input rest : Bytes} {a : α} :
    (liftM e : StateReader α) input = .ok (a, rest) ↔ e = .ok a ∧ input = rest := by
  cases e <;> simp [Except.map]

theorem inboundEntry_exact : Exact (fun _ => True) writeInbound readInboundEntry where
  complete := by
    intro entry rest _
    rw [writeInbound, List.append_assoc, readInboundEntry, oid_exact.bind_complete trivial,
      oid_exact.bind_complete trivial]
    rfl
  sound := by
    intro input rest entry h
    obtain ⟨id, mid, -, rfl, hdigest⟩ := oid_exact.bind_sound h
    obtain ⟨digest, mid', -, rfl, hpure⟩ := oid_exact.bind_sound hdigest
    cases hpure
    exact ⟨trivial, (List.append_assoc _ _ _).symm⟩

theorem recipient_exact : Exact (fun _ => True) writeRecipient readRecipient where
  complete := by
    intro recipient rest _
    cases recipient with
    | everyone =>
        rw [writeRecipient, readRecipient, u32_exact.bind_complete trivial]
        rfl
    | peer identity =>
        rw [writeRecipient, List.append_assoc, readRecipient, u32_exact.bind_complete trivial,
          if_neg (by decide), if_pos rfl, oid_exact.bind_complete trivial]
        rfl
  sound := by
    intro input rest recipient h
    obtain ⟨kind, mid, -, rfl, hkind⟩ := u32_exact.bind_sound h
    split_ifs at hkind with hzero hone
    · cases hkind
      rw [hzero]
      exact ⟨trivial, rfl⟩
    · obtain ⟨identity, mid', -, rfl, hpure⟩ := oid_exact.bind_sound hkind
      cases hpure
      rw [hone]
      exact ⟨trivial, (List.append_assoc _ _ _).symm⟩
    · cases hkind

theorem delivery_exact :
    Exact (fun d => d.payload.length ≤ MAX_FIELD) writeDelivery readDelivery where
  complete := by
    intro d rest hpayload
    simp only [writeDelivery, List.append_assoc]
    rw [readDelivery, u64_exact.bind_complete trivial, oid_exact.bind_complete trivial,
      recipient_exact.bind_complete trivial, bytes_exact.bind_complete hpayload]
    rfl
  sound := by
    intro input rest d h
    obtain ⟨id, _, -, rfl, hkey⟩ := u64_exact.bind_sound h
    obtain ⟨key, _, -, rfl, hrecipient⟩ := oid_exact.bind_sound hkey
    obtain ⟨recipient, _, -, rfl, hpayload⟩ := recipient_exact.bind_sound hrecipient
    obtain ⟨payload, _, hlength, rfl, hpure⟩ := bytes_exact.bind_sound hpayload
    cases hpure
    exact ⟨hlength, by simp only [writeDelivery, List.append_assoc]⟩

end Fields

/-! ## Options -/

section Options

variable {o o' : PersistenceOptions}

theorem validate_eq (h : o.validate = .ok o') : o' = o := by
  unfold PersistenceOptions.validate at h
  split_ifs at h
  exact (Except.ok.inj h).symm

/-- Every setting is in range. -/
theorem validate_bounds (h : o.validate = .ok o) :
    o.inboundWindow ≤ MAX_WINDOW_ENTRIES ∧ o.maxOutboxEntries ≤ MAX_WINDOW_ENTRIES ∧
      o.maxStateBytes ≤ HARD_MAX_STATE_BYTES ∧ o.maxRecordBytes ≤ HARD_MAX_STATE_BYTES ∧
      o.maxWalBytes ≤ StoreFormat.HARD_MAX_WAL_BYTES ∧ o.checkpointThreshold ≤ o.maxWalBytes ∧
      0 < o.inboundWindow := by
  unfold PersistenceOptions.validate at h
  split_ifs at h
  omega

/-- The settings as they are written. -/
def settings (o : PersistenceOptions) : List ℕ :=
  [o.inboundWindow, o.maxOutboxEntries, o.maxStateBytes, o.maxRecordBytes, o.maxWalBytes,
    o.checkpointThreshold]

def optionsBytes (o : PersistenceOptions) : Bytes :=
  (settings o).flatMap fun n => Writer.u64 (UInt64.ofNat n)

theorem settings_lt (h : o.validate = .ok o) : ∀ n ∈ settings o, n < 2 ^ 64 := by
  have hbounds := validate_bounds h
  simp only [MAX_WINDOW_ENTRIES, HARD_MAX_STATE_BYTES, StoreFormat.HARD_MAX_WAL_BYTES] at hbounds
  simp only [settings, List.forall_mem_cons, List.not_mem_nil, false_imp_iff, implies_true,
    and_true]
  omega

theorem writeOptions_eq (h : o.validate = .ok o) : writeOptions o = .ok (optionsBytes o) := by
  have hlt := settings_lt h
  simp only [settings, List.forall_mem_cons] at hlt
  rw [writeOptions, writeUsize, if_neg (by omega), writeUsize, if_neg (by omega), writeUsize,
    if_neg (by omega), writeUsize, if_neg (by omega)]
  simp only [optionsBytes, settings, List.flatMap_cons, List.flatMap_nil, List.append_nil,
    List.append_assoc]
  rfl

theorem setting_delimited :
    Delimited (fun n : ℕ => n < 2 ^ 64) fun n => Writer.u64 (UInt64.ofNat n) := by
  intro n k rest rest' hn hk heq
  obtain ⟨hvalue, hrest⟩ := u64_exact.delimited trivial trivial heq
  have hnat := congrArg UInt64.toNat hvalue
  rw [UInt64.toNat_ofNat', UInt64.toNat_ofNat', Nat.mod_eq_of_lt hn, Nat.mod_eq_of_lt hk] at hnat
  exact ⟨hnat, hrest⟩

theorem options_delimited :
    Delimited (fun o : PersistenceOptions => o.validate = .ok o) optionsBytes := by
  intro o o' rest rest' ho ho' heq
  obtain ⟨hsettings, hrest⟩ :=
    setting_delimited.flatMap (settings_lt ho) (settings_lt ho') rfl heq
  refine ⟨?_, hrest⟩
  simp only [settings, List.cons.injEq, and_true] at hsettings
  cases o
  cases o'
  simpa using hsettings

theorem inRange_ok (h : inRange o = .ok o') : o'.validate = .ok o' := by
  unfold inRange at h
  cases hvalid : o.validate with
  | error e =>
      rw [hvalid] at h
      cases h
  | ok found =>
      rw [hvalid] at h
      rw [← Except.ok.inj h, validate_eq hvalid, hvalid, validate_eq hvalid]

theorem readOptions_ok {input rest : Bytes} (h : readOptions input = .ok (o, rest)) :
    o.validate = .ok o := by
  obtain ⟨_, _, -, h⟩ := ok_of_bind h
  obtain ⟨_, _, -, h⟩ := ok_of_bind h
  obtain ⟨_, _, -, h⟩ := ok_of_bind h
  obtain ⟨_, _, -, h⟩ := ok_of_bind h
  obtain ⟨_, _, -, h⟩ := ok_of_bind h
  obtain ⟨_, _, -, h⟩ := ok_of_bind h
  exact inRange_ok (lift_eq_ok.mp h).1

end Options

/-! ## Coherent states -/

/-- Every delivery is filed under its identifier. -/
def Keyed (outbox : Std.ExtTreeMap OutboundId PendingDelivery) : Prop :=
  ∀ (id : OutboundId) (d : PendingDelivery), outbox[id]? = some d → d.id = id

/-- What every state of a conference keeps: its settings are in range, the window lists the digests
it holds, each once, and the outbox is filed by identifiers that were given out. -/
structure Coherent (s : LogicalState) : Prop where
  options : s.options.validate = .ok s.options
  window : s.inboundOrder.length ≤ s.options.inboundWindow
  distinct : s.inboundOrder.Nodup
  digests : ∀ id, id ∈ s.inbound ↔ id ∈ s.inboundOrder
  room : s.outbox.size ≤ s.options.maxOutboxEntries
  keyed : Keyed s.outbox
  ahead : ∀ id ∈ s.outbox, id < s.nextOutboundId

section Decoded

variable {P : Primitives}

/-- The window that was read holds the entries that were read. -/
theorem collectInbound_ok {entries : List (InboundId × BitVec 256)}
    {inbound inbound' : Std.ExtTreeMap InboundId (BitVec 256)}
    (h : collectInbound entries inbound = .ok inbound') :
    (entries.map Prod.fst).Nodup ∧ (∀ e ∈ entries, e.1 ∉ inbound) ∧
      ∀ id, id ∈ inbound' ↔ id ∈ inbound ∨ id ∈ entries.map Prod.fst := by
  induction entries generalizing inbound with
  | nil =>
      cases h
      simp
  | cons e entries ih =>
      rw [collectInbound] at h
      split_ifs at h with hold
      obtain ⟨hnodup, hnew, hmem⟩ := ih h
      have hfirst : e.1 ∉ entries.map Prod.fst := by
        intro hagain
        obtain ⟨e', he', heq⟩ := List.mem_map.mp hagain
        apply hnew e' he'
        rw [heq, Std.ExtTreeMap.mem_insert]
        exact Or.inl Std.ReflCmp.compare_self
      refine ⟨List.nodup_cons.mpr ⟨hfirst, hnodup⟩, ?_, fun id => ?_⟩
      · rw [List.forall_mem_cons]
        refine ⟨by simpa using hold, fun e' he' hmem' => hnew e' he' ?_⟩
        rw [Std.ExtTreeMap.mem_insert]
        exact Or.inr hmem'
      · rw [hmem, Std.ExtTreeMap.mem_insert, Std.compare_eq_iff_eq, List.map_cons, List.mem_cons]
        constructor
        · rintro ((rfl | hid) | hid)
          · exact Or.inr (Or.inl rfl)
          · exact Or.inl hid
          · exact Or.inr (Or.inr hid)
        · rintro (hid | rfl | hid)
          · exact Or.inl (Or.inr hid)
          · exact Or.inl (Or.inl rfl)
          · exact Or.inr hid

theorem collectOutbox_ok {conference : Conference} {deliveries : List PendingDelivery}
    {previous : Option OutboundId} {outbox outbox' : Std.ExtTreeMap OutboundId PendingDelivery}
    (h : collectOutbox P conference deliveries previous outbox = .ok outbox')
    (hkeyed : Keyed outbox) :
    Keyed outbox' ∧ outbox'.size ≤ outbox.size + deliveries.length := by
  induction deliveries generalizing previous outbox with
  | nil =>
      cases h
      exact ⟨hkeyed, Nat.le_refl _⟩
  | cons d deliveries ih =>
      rw [collectOutbox] at h
      split_ifs at h
      have hinsert : Keyed (outbox.insert d.id d) := by
        intro id e he
        rw [Std.ExtTreeMap.getElem?_insert] at he
        split_ifs at he with heq
        · cases he
          exact Std.compare_eq_iff_eq.mp heq
        · exact hkeyed id e he
      obtain ⟨hkeyed', hsize⟩ := ih h hinsert
      have hstep : (outbox.insert d.id d).size ≤ outbox.size + 1 := Std.ExtTreeMap.size_insert_le
      rw [List.length_cons]
      exact ⟨hkeyed', by omega⟩

/-- The keys of a map come before its last one. -/
theorem lt_of_last {m : Std.ExtTreeMap OutboundId PendingDelivery} {next : OutboundId}
    (h : ¬(m.keys.getLast?.any fun last => next ≤ last) = true) : ∀ id ∈ m, id < next := by
  intro id hid
  have hkeys : id ∈ m.keys := Std.ExtTreeMap.mem_keys.mpr hid
  have hsorted := Std.ExtTreeMap.ordered_keys (t := m)
  cases hlist : m.keys using List.reverseRecOn with
  | nil =>
      rw [hlist] at hkeys
      cases hkeys
  | append_singleton xs z =>
      rw [hlist] at hkeys hsorted h
      have hz : z < next := by simpa using h
      rcases List.mem_append.mp hkeys with hx | hx
      · have hlt := (List.pairwise_append.mp hsorted).2.2 id hx z (List.mem_singleton_self z)
        exact UInt64.lt_trans (Std.compare_eq_lt.mp hlt) hz
      · rwa [List.mem_singleton.mp hx]

theorem readState_ok {unsaved : ParticipantState.Unsaved} {length : ℕ} {sequence : UInt64}
    {input rest : Bytes} {s : LogicalState}
    (h : readState P unsaved length sequence input = .ok (s, rest)) :
    s.sequence = sequence ∧ Coherent s := by
  obtain ⟨schema, _, -, h⟩ := ok_of_bind h
  obtain ⟨-, h⟩ := ok_of_guard h
  obtain ⟨found, _, -, h⟩ := ok_of_bind h
  obtain ⟨hsequence, h⟩ := ok_of_guard h
  obtain ⟨options, _, hoptions, h⟩ := ok_of_bind h
  obtain ⟨-, h⟩ := ok_of_guard h
  obtain ⟨conference, _, -, h⟩ := ok_of_bind h
  obtain ⟨⟨inbound, order⟩, _, hinbound, h⟩ := ok_of_bind h
  obtain ⟨outbox, _, houtbox, h⟩ := ok_of_bind h
  obtain ⟨next, _, -, h⟩ := ok_of_bind h
  obtain ⟨_, _, -, h⟩ := ok_of_bind h
  obtain ⟨hnext, h⟩ := ok_of_guard h
  cases h
  rw [not_or] at hsequence hnext
  obtain ⟨entries, _, -, hentries⟩ := ok_of_bind hinbound
  obtain ⟨hwindow, hentries⟩ := ok_of_guard hentries
  obtain ⟨collected, _, hcollected, hpure⟩ := ok_of_bind hentries
  cases hpure
  obtain ⟨hdistinct, -, hdigests⟩ := collectInbound_ok (lift_eq_ok.mp hcollected).1
  obtain ⟨deliveries, _, -, hdeliveries⟩ := ok_of_bind houtbox
  obtain ⟨hroom, hdeliveries⟩ := ok_of_guard hdeliveries
  obtain ⟨hkeyed, hsize⟩ := collectOutbox_ok (lift_eq_ok.mp hdeliveries).1 (by simp [Keyed])
  rw [Std.ExtTreeMap.size_empty, Nat.zero_add] at hsize
  exact ⟨not_not.mp hsequence.2,
    { options := readOptions_ok hoptions
      window := by
        rw [List.length_map]
        exact Nat.not_lt.mp hwindow
      distinct := hdistinct
      digests := by simpa using hdigests
      room := Nat.le_trans hsize (Nat.not_lt.mp hroom)
      keyed := hkeyed
      ahead := lt_of_last hnext.2 }⟩

/-- A decoded state is coherent and encoded by the bytes it came from. -/
theorem decode_ok {unsaved : ParticipantState.Unsaved} {bytes : Bytes} {sequence : UInt64}
    {s : LogicalState} (h : decode P unsaved bytes sequence = .ok s) :
    s.sequence = sequence ∧ Coherent s ∧ encode s = .ok bytes := by
  unfold decode at h
  split_ifs at h
  cases hread : readState P unsaved bytes.length sequence bytes with
  | error e =>
      rw [hread] at h
      cases h
  | ok result =>
      rw [hread] at h
      dsimp only at h
      cases hencode : encode result.1 with
      | error e =>
          rw [hencode] at h
          cases h
      | ok canonical =>
          rw [hencode] at h
          dsimp only at h
          split_ifs at h with hcanonical
          cases h
          obtain ⟨hsequence, hcoherent⟩ := readState_ok hread
          exact ⟨hsequence, hcoherent, by rw [hencode, not_not.mp hcanonical]⟩

end Decoded

/-! ## Encodings determine states -/

section Injective

variable {s t : LogicalState} {bytes : Bytes}

theorem mapM_listedDigest {inbound : Std.ExtTreeMap InboundId (BitVec 256)} {order : List InboundId}
    {entries : List (InboundId × BitVec 256)}
    (h : order.mapM (listedDigest inbound) = .ok entries) :
    entries.map Prod.fst = order ∧ ∀ e ∈ entries, inbound[e.1]? = some e.2 := by
  induction order generalizing entries with
  | nil =>
      cases h
      exact ⟨rfl, by simp⟩
  | cons id order ih =>
      rw [List.mapM_cons, listedDigest] at h
      cases hget : inbound[id]? with
      | none =>
          rw [hget] at h
          cases h
      | some digest =>
          cases hmap : order.mapM (listedDigest inbound) with
          | error e =>
              rw [hget, hmap] at h
              cases h
          | ok rest =>
              rw [hget, hmap] at h
              cases h
              obtain ⟨hfst, hall⟩ := ih hmap
              rw [List.map_cons, hfst, List.forall_mem_cons]
              exact ⟨rfl, hget, hall⟩

/-- The parts of an encoded state. -/
structure Encoded (s : LogicalState) (bytes conference : Bytes)
    (inbound : List (InboundId × BitVec 256)) : Prop where
  exported : s.conference.exportPersistenceState = .ok conference
  order : inbound.map Prod.fst = s.inboundOrder
  digests : ∀ e ∈ inbound, s.inbound[e.1]? = some e.2
  image : bytes = stateBytes s (optionsBytes s.options) conference inbound
  size : bytes.length ≤ HARD_MAX_STATE_BYTES

theorem encode_ok (hs : Coherent s) (h : encode s = .ok bytes) :
    ∃ conference inbound, Encoded s bytes conference inbound := by
  unfold encode at h
  cases hexport : s.conference.exportPersistenceState with
  | error e =>
      rw [hexport] at h
      cases h
  | ok conference =>
      rw [hexport] at h
      dsimp only at h
      cases hstored : encodeStored s conference with
      | error e =>
          rw [hstored] at h
          cases h
      | ok found =>
          rw [hstored] at h
          cases h
          unfold encodeStored at hstored
          cases hmap : s.inboundOrder.mapM (listedDigest s.inbound) with
          | error e =>
              rw [hmap] at hstored
              cases hstored
          | ok inbound =>
              rw [hmap] at hstored
              dsimp only [bind, Except.bind] at hstored
              split_ifs at hstored with hlength
              rw [writeOptions_eq hs.options] at hstored
              dsimp only at hstored
              cases hcheck : checkEncoded s.options
                  (stateBytes s (optionsBytes s.options) conference inbound) with
              | error e =>
                  rw [hcheck] at hstored
                  cases hstored
              | ok u =>
                  rw [hcheck] at hstored
                  cases hstored
                  obtain ⟨horder, hdigests⟩ := mapM_listedDigest hmap
                  exact ⟨conference, inbound, hexport, horder, hdigests, rfl,
                    checkEncoded_ok hcheck⟩

theorem mem_values {d : PendingDelivery} (hs : Coherent s) (hd : d ∈ s.pendingDeliveries) :
    s.outbox[d.id]? = some d := by
  obtain ⟨e, he, rfl⟩ := List.mem_map.mp hd
  have hget := Std.ExtTreeMap.mem_toList_iff_getElem?_eq_some.mp he
  rwa [hs.keyed _ _ hget]

theorem length_le_flatMap {α : Type} {f : α → Bytes} {l : List α} {a : α} (h : a ∈ l) :
    (f a).length ≤ (l.flatMap f).length := by
  obtain ⟨before, later, rfl⟩ := List.append_of_mem h
  simp only [List.flatMap_append, List.flatMap_cons, List.length_append]
  omega

section Bounds

variable {conference : Bytes} {inbound : List (InboundId × BitVec 256)}

theorem Encoded.length_le (h : Encoded s bytes conference inbound) :
    conference.length + (s.pendingDeliveries.flatMap writeDelivery).length ≤ MAX_FIELD := by
  have hsize := h.size
  rw [h.image] at hsize
  simp only [stateBytes, Writer.bytes, Writer.list, List.length_append, List.length_cons] at hsize
  simp only [HARD_MAX_STATE_BYTES, MAX_FIELD] at hsize ⊢
  omega

/-- No payload is longer than the state it belongs to. -/
theorem Encoded.payload_le (h : Encoded s bytes conference inbound) :
    ∀ d ∈ s.pendingDeliveries, d.payload.length ≤ MAX_FIELD := by
  intro d hd
  have hmem := length_le_flatMap (f := writeDelivery) hd
  have hlength := h.length_le
  have hpayload : d.payload.length ≤ (writeDelivery d).length := by
    simp only [writeDelivery, Writer.bytes, List.length_append, List.length_cons]
    omega
  omega

theorem Encoded.inbound_length (hs : Coherent s) (h : Encoded s bytes conference inbound) :
    inbound.length ≤ MAX_ITEMS := by
  have hlength := congrArg List.length h.order
  rw [List.length_map] at hlength
  rw [hlength]
  exact Nat.le_trans hs.window (validate_bounds hs.options).1

theorem pendingDeliveries_length (hs : Coherent s) : s.pendingDeliveries.length ≤ MAX_ITEMS := by
  rw [LogicalState.pendingDeliveries, List.length_map, Std.ExtTreeMap.length_toList]
  exact Nat.le_trans hs.room (validate_bounds hs.options).2.1

/-- The window is determined by the entries that are written. -/
theorem Encoded.inbound_iff (hs : Coherent s) (h : Encoded s bytes conference inbound)
    (id : InboundId) (digest : BitVec 256) :
    s.inbound[id]? = some digest ↔ (id, digest) ∈ inbound := by
  constructor
  · intro hget
    have hid : id ∈ inbound.map Prod.fst := by
      rw [h.order, ← hs.digests]
      exact Std.ExtTreeMap.mem_iff_isSome_getElem?.mpr (by rw [hget]; rfl)
    obtain ⟨e, he, rfl⟩ := List.mem_map.mp hid
    rw [h.digests e he] at hget
    rwa [← Option.some.inj hget]
  · exact h.digests (id, digest)

end Bounds

/-- The outbox is determined by its deliveries. -/
theorem outbox_iff (hs : Coherent s) (id : OutboundId) (d : PendingDelivery) :
    s.outbox[id]? = some d ↔ d ∈ s.pendingDeliveries ∧ d.id = id := by
  constructor
  · intro hget
    refine ⟨List.mem_map.mpr ⟨(id, d), ?_, rfl⟩, hs.keyed id d hget⟩
    exact Std.ExtTreeMap.mem_toList_iff_getElem?_eq_some.mpr hget
  · intro h
    rw [← h.2]
    exact mem_values hs h.1

theorem ext_of_iff {κ ν : Type} [Ord κ] [Std.TransOrd κ] [Std.LawfulEqOrd κ]
    {m m' : Std.ExtTreeMap κ ν}
    (h : ∀ (key : κ) (value : ν), m[key]? = some value ↔ m'[key]? = some value) : m = m' :=
  Std.ExtTreeMap.ext_getElem? fun key => Option.ext fun value => h key value

/-- Two states with one encoding differ in their conferences at most, which have one encoding. -/
theorem encode_injective (hs : Coherent s) (ht : Coherent t) (h : encode s = .ok bytes)
    (h' : encode t = .ok bytes) :
    t = { s with conference := t.conference } ∧
      t.conference.exportPersistenceState = s.conference.exportPersistenceState := by
  obtain ⟨c, ins, hc⟩ := encode_ok hs h
  obtain ⟨c', ins', hc'⟩ := encode_ok ht h'
  have hlength := hc.length_le
  have hlength' := hc'.length_le
  simp only [MAX_FIELD] at hlength hlength'
  have heq := hc.image.symm.trans hc'.image
  simp only [stateBytes, List.append_assoc] at heq
  obtain ⟨-, heq⟩ := u32_exact.delimited trivial trivial heq
  obtain ⟨hsequence, heq⟩ := u64_exact.delimited trivial trivial heq
  obtain ⟨hoptions, heq⟩ := options_delimited hs.options ht.options heq
  obtain ⟨hconference, heq⟩ := bytes_delimited (a := c) (b := c') (by omega) (by omega) heq
  obtain ⟨hinbound, heq⟩ := (list_exact inboundEntry_exact).delimited (a := ins) (b := ins')
    ⟨hc.inbound_length hs, by simp⟩ ⟨hc'.inbound_length ht, by simp⟩ heq
  obtain ⟨houtbox, heq⟩ := (list_exact delivery_exact).delimited (a := s.pendingDeliveries)
    (b := t.pendingDeliveries) ⟨pendingDeliveries_length hs, hc.payload_le⟩
    ⟨pendingDeliveries_length ht, hc'.payload_le⟩ heq
  have hnext := u64_exact.delimited.injective trivial trivial heq
  have hdigests : t.inbound = s.inbound := by
    apply ext_of_iff
    intro id digest
    rw [hc.inbound_iff hs, hc'.inbound_iff ht, hinbound]
  have hdeliveries : t.outbox = s.outbox := by
    apply ext_of_iff
    intro id d
    rw [outbox_iff hs, outbox_iff ht, houtbox]
  have horder : t.inboundOrder = s.inboundOrder := by rw [← hc.order, ← hc'.order, hinbound]
  refine ⟨?_, ?_⟩
  · cases t
    cases s
    simp_all
  · rw [hc.exported, hc'.exported, hconference]

end Injective

end CausalFrontierRatchet.StateCodec
