import CausalFrontierRatchet.Store
import CausalFrontierRatchet.WalScan
import Mathlib.Data.List.Induction

/-!
What a snapshot and a log stand for.  The log holds a run of committed states, the snapshot one of
them or the one right before the first; the last committed state is the live one.  Replacing the
snapshot, emptying the log and appending a state keep this, and recovery finds the live state.
-/

namespace CausalFrontierRatchet.Recovery

open BigEndian Crypto StoreFormat WalScan Store

/-! ## Sequences -/

section Sequences

theorem consecutive_append {previous : Option UInt64} {xs : List Record} {r : Record} :
    Consecutive previous (xs ++ [r]) ↔ Consecutive previous xs ∧
      ∀ p ∈ (xs.getLast?.map Record.sequence).or previous, r.sequence.toNat = p.toNat + 1 := by
  induction xs generalizing previous with
  | nil => simp [Consecutive]
  | cons x xs ih =>
      have hlast : (((x :: xs).getLast?).map Record.sequence).or previous =
          (xs.getLast?.map Record.sequence).or (some x.sequence) := by
        cases xs using List.reverseRecOn with
        | nil => rfl
        | append_singleton ys y => simp [List.getLast?_cons]
      rw [List.cons_append, Consecutive, Consecutive, ih, hlast, and_assoc]

theorem consecutive_left {previous : Option UInt64} {xs ys : List Record}
    (h : Consecutive previous (xs ++ ys)) : Consecutive previous xs := by
  induction xs generalizing previous with
  | nil => trivial
  | cons x xs ih => exact ⟨h.1, ih h.2⟩

/-- Every record of a run comes before its last one. -/
theorem sequence_lt_last {previous : Option UInt64} {xs : List Record} {z : Record}
    (h : Consecutive previous (xs ++ [z])) : ∀ r ∈ xs, r.sequence.toNat < z.sequence.toNat := by
  induction xs using List.reverseRecOn generalizing z with
  | nil => simp
  | append_singleton xs y ih =>
      obtain ⟨hxs, hlast⟩ := consecutive_append.mp h
      have hz : z.sequence.toNat = y.sequence.toNat + 1 := hlast y.sequence (by simp)
      intro r hr
      rw [List.mem_append, List.mem_singleton] at hr
      rcases hr with hr | rfl
      · have hy := ih hxs r hr
        omega
      · omega

end Sequences

/-! ## Contents -/

section Contents

variable (P : Primitives) {σ : Type} (L : Logical σ) (options : PersistenceOptions)

/-- The record is the encoding of a state. -/
structure Encodes (state : σ) (r : Record) : Prop where
  sequence : L.sequence state = r.sequence
  payload : L.encode state = r.payload
  options : L.options state = options

/-- The payload of a record decodes to the state it encodes. -/
def Decodes (r : Record) : Prop :=
  ∃ state, L.decode r.payload r.sequence = .ok state ∧ Encodes L options state r

/-- A state that was committed: it fits into a record, and its payload decodes. -/
structure Codable (r : Record) : Prop where
  storable : Storable r
  decodes : Decodes L options r

/-- A snapshot and a log without a tail, for a live state.  The log is a run of states of which the
earlier ones end with the snapshot, and the later ones start right after it. -/
def Intact (snapshot wal : Bytes) (live : Record) : Prop :=
  ∃ (snap : Record) (earlier later : List Record),
    snapshot = snapshotBytes P snap ∧ wal = walBytes P (earlier ++ later) ∧
    Codable L options snap ∧ (∀ r ∈ earlier ++ later, Codable L options r) ∧
    Consecutive none (earlier ++ later) ∧ Consecutive (some snap.sequence) later ∧
    (∀ r ∈ earlier.getLast?, r = snap) ∧ live = later.getLast?.getD snap

/-- The same, with what is left of a record that was being written. -/
def Recovers (snapshot wal : Bytes) (live : Record) : Prop :=
  ∃ base tail, wal = base ++ tail ∧ Incomplete tail ∧ Intact P L options snapshot base live

variable {P L options} {snapshot wal : Bytes} {live next : Record}

theorem incomplete_nil : Incomplete [] :=
  Or.inl (by decide)

theorem Intact.recovers (h : Intact P L options snapshot wal live) :
    Recovers P L options snapshot wal live :=
  ⟨wal, [], (List.append_nil wal).symm, incomplete_nil, h⟩

theorem Intact.codable (h : Intact P L options snapshot wal live) : Codable L options live := by
  obtain ⟨snap, earlier, later, -, -, hsnap, hcodable, -, -, -, rfl⟩ := h
  cases hlast : later.getLast? with
  | none => exact hsnap
  | some r =>
      exact hcodable r (List.mem_append_right _ (List.mem_of_getLast? hlast))

/-- After a checkpoint the snapshot is the live state and the log is empty. -/
theorem intact_checkpoint (h : Codable L options live) :
    Intact P L options (snapshotBytes P live) walHeader live :=
  ⟨live, [], [], rfl, (List.append_nil walHeader).symm, h, by simp, trivial, trivial, by simp, rfl⟩

/-- The snapshot may be replaced before the log is. -/
theorem Intact.replace_snapshot (h : Intact P L options snapshot wal live) :
    Intact P L options (snapshotBytes P live) wal live := by
  have hlive := h.codable
  obtain ⟨snap, earlier, later, -, rfl, -, hcodable, hrun, -, hearlier, rfl⟩ := h
  refine ⟨_, earlier ++ later, [], rfl, by rw [List.append_nil], hlive, ?_, ?_, trivial, ?_, rfl⟩
  · rwa [List.append_nil]
  · rwa [List.append_nil]
  · intro r hr
    rw [List.getLast?_append, Option.mem_def] at hr
    cases hlast : later.getLast? with
    | none =>
        rw [hlast, Option.none_or] at hr
        exact hearlier r hr
    | some z =>
        rw [hlast, Option.some_or] at hr
        cases hr
        rfl

theorem Intact.append (h : Intact P L options snapshot wal live) (hnext : Codable L options next)
    (hsequence : next.sequence.toNat = live.sequence.toNat + 1) :
    Intact P L options snapshot (wal ++ recordBytes P next) next := by
  obtain ⟨snap, earlier, later, rfl, rfl, hsnap, hcodable, hrun, hlater, hearlier, rfl⟩ := h
  refine ⟨snap, earlier, later ++ [next], rfl, ?_, hsnap, ?_, ?_, ?_, hearlier, by simp⟩
  · simp [walBytes, recordsBytes]
  · intro r hr
    rw [← List.append_assoc, List.mem_append, List.mem_singleton] at hr
    rcases hr with hr | rfl
    · exact hcodable r hr
    · exact hnext
  · rw [← List.append_assoc, consecutive_append]
    refine ⟨hrun, ?_⟩
    intro p hp
    rw [Option.or_none, List.getLast?_append, Option.mem_def, Option.map_eq_some_iff] at hp
    obtain ⟨r, hr, rfl⟩ := hp
    cases hlast : later.getLast? with
    | none =>
        rw [hlast, Option.none_or] at hr
        rw [hsequence, hlast, hearlier r hr]
        rfl
    | some z =>
        rw [hlast, Option.some_or] at hr
        cases hr
        rw [hsequence, hlast]
        rfl
  · rw [consecutive_append]
    refine ⟨hlater, ?_⟩
    intro p hp
    cases hlast : later.getLast? with
    | none =>
        rw [hlast] at hp hsequence
        cases hp
        exact hsequence
    | some z =>
        rw [hlast] at hp hsequence
        cases hp
        exact hsequence

end Contents

/-! ## Torn records -/

section Torn

variable {P : Primitives}

/-- What starts like a record and is cut off inside it. -/
theorem incomplete_of_cut {sequence : UInt64} {length : ℕ} {rest part : Bytes} (hsequence : sequence ≠ 0)
    (hlimit : length ≤ HARD_MAX_STATE_BYTES)
    (hpart : part <+: RECORD_MAGIC ++ (beBytes 8 sequence.toNat ++ (beBytes 8 length ++ rest)))
    (hcut : part.length < RECORD_OVERHEAD + length) : Incomplete part := by
  by_cases hshort : part.length < RECORD_PREFIX_LEN
  · exact Or.inl hshort
  · have hlead : RECORD_MAGIC ++ (beBytes 8 sequence.toNat ++ beBytes 8 length) <+:
        RECORD_MAGIC ++ (beBytes 8 sequence.toNat ++ (beBytes 8 length ++ rest)) :=
      ⟨rest, by simp only [List.append_assoc]⟩
    have hlength : (RECORD_MAGIC ++ (beBytes 8 sequence.toNat ++ beBytes 8 length)).length ≤
        part.length := by
      rw [RECORD_PREFIX_LEN] at hshort
      simp only [RECORD_MAGIC, List.length_append, beBytes_length, List.length_cons, List.length_nil]
      omega
    obtain ⟨tail, rfl⟩ := List.prefix_of_prefix_length_le hlead hpart hlength
    exact Or.inr ⟨sequence, length, tail, hsequence, hlimit, by simp only [List.append_assoc], hcut⟩

theorem incomplete_of_prefix {tail part : Bytes} (h : Incomplete tail) (hpart : part <+: tail) :
    Incomplete part := by
  have hle := hpart.length_le
  rcases h with hshort | ⟨sequence, length, rest, hsequence, hlimit, rfl, hlong⟩
  · exact Or.inl (by omega)
  · exact incomplete_of_cut hsequence hlimit hpart (by omega)

/-- A record that was not written to its end. -/
theorem incomplete_of_torn {r : Record} (hr : Storable r) {part : Bytes}
    (hpart : part <+: recordBytes P r) (hne : part ≠ recordBytes P r) : Incomplete part := by
  have hcut : part.length < RECORD_OVERHEAD + r.payload.length := by
    rw [← recordBytes_length P]
    by_contra hlong
    exact hne (hpart.eq_of_length_le (Nat.not_lt.mp hlong))
  rw [recordBytes_eq] at hpart
  exact incomplete_of_cut hr.1 hr.2 hpart hcut

end Torn

/-! ## Reading back -/

section Reading

variable {P : Primitives} {σ : Type} {L : Logical σ} {options : PersistenceOptions}

theorem snapshotBytes_length (r : Record) :
    (snapshotBytes P r).length = SNAPSHOT_OVERHEAD + r.payload.length := by
  simp only [snapshotBytes, SNAPSHOT_MAGIC, COMMIT_MARKER, List.length_append, beBytes_length,
    bytesOf_length, List.length_cons, List.length_nil, SNAPSHOT_OVERHEAD, SNAPSHOT_PREFIX_LEN]
  omega

theorem parseSnapshot_snapshotBytes {r : Record} (hr : Storable r) :
    parseSnapshot P (snapshotBytes P r) = .ok (.valid r) := by
  set checksum := bytesOf (snapshotChecksum P r.sequence r.payload)
  have hwhole : snapshotBytes P r = SNAPSHOT_MAGIC ++ (beBytes 4 STORE_FORMAT_VERSION.toNat ++
      (beBytes 8 r.sequence.toNat ++ (beBytes 8 r.payload.length ++
        (checksum ++ (r.payload ++ COMMIT_MARKER))))) := by
    simp only [snapshotBytes, checksum, List.append_assoc]
  have hchecksum : checksum.length = 32 := by simp [checksum]
  have hlength : (snapshotBytes P r).length = SNAPSHOT_OVERHEAD + r.payload.length :=
    snapshotBytes_length r
  have hpayload : ofBe (beBytes 8 r.payload.length) = r.payload.length := by
    apply ofBe_beBytes_of_lt
    exact lt_of_le_of_lt hr.2 (by decide)
  have hmagic : (snapshotBytes P r).take 8 = SNAPSHOT_MAGIC := by
    rw [hwhole]
    exact List.take_left' rfl
  have hversion : slice (snapshotBytes P r) 8 12 = beBytes 4 STORE_FORMAT_VERSION.toNat := by
    rw [hwhole]
    exact slice_middle rfl (by simp)
  have hsequence : slice (snapshotBytes P r) 12 20 = beBytes 8 r.sequence.toNat := by
    rw [hwhole, ← List.append_assoc]
    exact slice_middle (by simp [SNAPSHOT_MAGIC]) (by simp)
  have hlengths : slice (snapshotBytes P r) 20 28 = beBytes 8 r.payload.length := by
    rw [hwhole]
    iterate 2 rw [← List.append_assoc]
    exact slice_middle (by simp [SNAPSHOT_MAGIC]) (by simp)
  have hsum : slice (snapshotBytes P r) 28 60 = checksum := by
    rw [hwhole]
    iterate 3 rw [← List.append_assoc]
    exact slice_middle (by simp [SNAPSHOT_MAGIC]) (by rw [hchecksum])
  have hbody : slice (snapshotBytes P r) SNAPSHOT_PREFIX_LEN
      (SNAPSHOT_PREFIX_LEN + r.payload.length) = r.payload := by
    rw [hwhole]
    iterate 4 rw [← List.append_assoc]
    exact slice_middle (by simp [SNAPSHOT_MAGIC, hchecksum, SNAPSHOT_PREFIX_LEN]) rfl
  have hmarker : slice (snapshotBytes P r) (SNAPSHOT_OVERHEAD + r.payload.length - 8)
      (SNAPSHOT_OVERHEAD + r.payload.length) = COMMIT_MARKER := by
    rw [hwhole]
    iterate 5 rw [← List.append_assoc]
    apply slice_end
    · simp only [SNAPSHOT_MAGIC, List.length_append, beBytes_length, List.length_cons,
        List.length_nil, hchecksum, SNAPSHOT_OVERHEAD, SNAPSHOT_PREFIX_LEN]
      omega
    · simp only [SNAPSHOT_OVERHEAD, COMMIT_MARKER, List.length_cons, List.length_nil]
      omega
  have hcheck : checkSnapshot P (snapshotBytes P r) r.sequence r.payload.length = .valid r := by
    simp only [checkSnapshot, hlength, hmarker, hsum, hbody]
    rw [if_neg (not_or.mpr ⟨hr.1, Nat.not_lt.mpr hr.2⟩), if_neg (by simp), if_neg (by simp [checksum])]
  have hlong : ¬((snapshotBytes P r).length < SNAPSHOT_PREFIX_LEN ∨
      SNAPSHOT_MAGIC ≠ SNAPSHOT_MAGIC) := by
    rw [hlength, SNAPSHOT_OVERHEAD]
    simp
    omega
  rw [parseSnapshot, hmagic, hversion, hsequence, hlengths, if_neg hlong, beU32_eq (by simp),
    beU64_eq (by simp), beU64_eq (by simp), ofBe_toNat, hpayload]
  have hword : (UInt64.ofNat r.payload.length).toNat = r.payload.length := by
    rw [UInt64.toNat_ofNat', Nat.mod_eq_of_lt (lt_of_le_of_lt hr.2 (by decide))]
  simp only [orCorrupt, bind, Except.bind, hword, hcheck]
  rfl

theorem mapM_decodeRecord {records : List Record} (h : ∀ r ∈ records, Codable L options r) :
    ∃ states, records.mapM (decodeRecord L) = .ok states ∧ states.map Prod.snd = records ∧
      ∀ e ∈ states, L.decode e.2.payload e.2.sequence = .ok e.1 ∧ L.sequence e.1 = e.2.sequence := by
  induction records with
  | nil => exact ⟨[], rfl, rfl, by simp⟩
  | cons r records ih =>
      rw [List.forall_mem_cons] at h
      obtain ⟨state, hdecode, hstate⟩ := h.1.decodes
      obtain ⟨states, hmap, hsnd, hall⟩ := ih h.2
      refine ⟨(state, r) :: states, ?_, ?_, ?_⟩
      · rw [List.mapM_cons, decodeRecord, hdecode, hmap]
        rfl
      · rw [List.map_cons, hsnd]
      · rw [List.forall_mem_cons]
        exact ⟨⟨hdecode, hstate.sequence⟩, hall⟩

/-- Records that all decode, whatever they were written for. -/
theorem mapM_decodeRecord_ok {records : List Record} {states : List (σ × Record)}
    (h : records.mapM (decodeRecord L) = .ok states) :
    states.map Prod.snd = records ∧ ∀ e ∈ states, L.decode e.2.payload e.2.sequence = .ok e.1 := by
  induction records generalizing states with
  | nil =>
      cases h
      exact ⟨rfl, by simp⟩
  | cons r records ih =>
      rw [List.mapM_cons, decodeRecord] at h
      cases hdecode : L.decode r.payload r.sequence with
      | error e =>
          rw [hdecode] at h
          cases h
      | ok state =>
          cases hmap : records.mapM (decodeRecord L) with
          | error e =>
              rw [hdecode, hmap] at h
              cases h
          | ok rest =>
              rw [hdecode, hmap] at h
              cases h
              obtain ⟨hsnd, hall⟩ := ih hmap
              rw [List.map_cons, hsnd, List.forall_mem_cons]
              exact ⟨rfl, hdecode, hall⟩

/-- Records up to the snapshot change nothing. -/
theorem selectFrom_earlier {snap : Record} {selected : σ} {states rest : List (σ × Record)}
    (hselected : L.sequence selected = snap.sequence)
    (hstates : ∀ e ∈ states, L.sequence e.1 = e.2.sequence ∧
      (e.2.sequence.toNat < snap.sequence.toNat ∨ e.2 = snap)) :
    selectFrom L snap selected (states ++ rest) = selectFrom L snap selected rest := by
  induction states with
  | nil => rfl
  | cons e states ih =>
      rw [List.forall_mem_cons] at hstates
      obtain ⟨⟨hsequence, hearlier⟩, hstates⟩ := hstates
      rw [List.cons_append, selectFrom, hsequence, hselected]
      rcases hearlier with hlt | heq
      · rw [if_pos (UInt64.lt_iff_toNat_lt.mpr hlt), ih hstates]
      · rw [heq, if_neg (UInt64.lt_irrefl _), if_pos rfl, if_neg (by simp), ih hstates]

/-- Records after the snapshot are followed to the last one. -/
theorem selectFrom_later {snap : Record} {selected : σ} {states : List (σ × Record)}
    (hstates : ∀ e ∈ states, L.sequence e.1 = e.2.sequence)
    (hrun : Consecutive (some (L.sequence selected)) (states.map Prod.snd)) :
    selectFrom L snap selected states = .ok ((states.getLast?.map Prod.fst).getD selected) := by
  induction states generalizing selected with
  | nil => rfl
  | cons e states ih =>
      rw [List.forall_mem_cons] at hstates
      have hnext : (L.sequence e.1).toNat = (L.sequence selected).toNat + 1 := by
        rw [hstates.1]
        exact hrun.1 _ rfl
      have hlt := (L.sequence e.1).toNat_lt
      have hsucc : L.sequence e.1 = L.sequence selected + 1 := by
        apply UInt64.toNat_inj.mp
        rw [hnext, UInt64.toNat_add, UInt64.toNat_one, Nat.mod_eq_of_lt (by omega)]
      have hrest : Consecutive (some (L.sequence e.1)) (states.map Prod.snd) := by
        rw [hstates.1]
        exact hrun.2
      rw [selectFrom, if_neg (by rw [UInt64.lt_iff_toNat_lt]; omega),
        if_neg (by rw [← UInt64.toNat_inj]; omega), if_neg (not_not.mpr hsucc), ih hstates.2 hrest]
      cases states using List.reverseRecOn with
      | nil => rfl
      | append_singleton ys y => simp [List.getLast?_cons]

/-- The states of the log are followed from the snapshot to the last one. -/
theorem selectFrom_states {snap : Record} {selected : σ} {states : List (σ × Record)}
    {earlier later : List Record} (hselected : L.sequence selected = snap.sequence)
    (hsnd : states.map Prod.snd = earlier ++ later)
    (hstates : ∀ e ∈ states, L.sequence e.1 = e.2.sequence)
    (hrun : Consecutive none (earlier ++ later)) (hlater : Consecutive (some snap.sequence) later)
    (hearlier : ∀ r ∈ earlier.getLast?, r = snap) :
    ∃ followed : List (σ × Record), followed.map Prod.snd = later ∧ (∀ e ∈ followed, e ∈ states) ∧
      selectFrom L snap selected states = .ok ((followed.getLast?.map Prod.fst).getD selected) := by
  obtain ⟨es, ls, rfl, hes, hls⟩ := List.map_eq_append_iff.mp hsnd
  have hbefore : ∀ e ∈ es, L.sequence e.1 = e.2.sequence ∧
      (e.2.sequence.toNat < snap.sequence.toNat ∨ e.2 = snap) := by
    intro e he
    refine ⟨hstates e (List.mem_append_left _ he), ?_⟩
    have hmem : e.2 ∈ earlier := hes ▸ List.mem_map_of_mem he
    cases earlier using List.reverseRecOn with
    | nil => simp at hmem
    | append_singleton xs z =>
        obtain rfl : z = snap := hearlier z (by simp)
        rw [List.mem_append, List.mem_singleton] at hmem
        exact hmem.imp_left (sequence_lt_last (consecutive_left hrun) e.2)
  have hafter : Consecutive (some (L.sequence selected)) (ls.map Prod.snd) := by
    rwa [hselected, hls]
  have hselect : selectFrom L snap selected ls = .ok ((ls.getLast?.map Prod.fst).getD selected) :=
    selectFrom_later (fun e he => hstates e (List.mem_append_right _ he)) hafter
  exact ⟨ls, hls, fun e he => List.mem_append_right _ he,
    (selectFrom_earlier hselected hbefore).trans hselect⟩

/-- The last state that is followed is the live one. -/
theorem decode_followed {snap : Record} {selected : σ} {followed : List (σ × Record)}
    {later : List Record} (hsnd : followed.map Prod.snd = later)
    (hdecode : L.decode snap.payload snap.sequence = .ok selected)
    (hall : ∀ e ∈ followed, L.decode e.2.payload e.2.sequence = .ok e.1) :
    L.decode (later.getLast?.getD snap).payload (later.getLast?.getD snap).sequence =
      .ok ((followed.getLast?.map Prod.fst).getD selected) := by
  rw [← hsnd]
  cases followed using List.reverseRecOn with
  | nil => simpa using hdecode
  | append_singleton xs z => simpa using hall z (by simp)

/-- Recovery finds the live state. -/
theorem recover_intact {snap live : Record} {earlier later : List Record}
    (hsnap : Codable L options snap) (hcodable : ∀ r ∈ earlier ++ later, Codable L options r)
    (hrun : Consecutive none (earlier ++ later)) (hlater : Consecutive (some snap.sequence) later)
    (hearlier : ∀ r ∈ earlier.getLast?, r = snap) (hlive : live = later.getLast?.getD snap) :
    ∃ state, recover L ⟨.valid snap, earlier ++ later⟩ = .ok state ∧
      L.decode live.payload live.sequence = .ok state := by
  obtain ⟨selected, hdecode, hselected⟩ := hsnap.decodes
  obtain ⟨states, hmap, hsnd, hall⟩ := mapM_decodeRecord hcodable
  obtain ⟨followed, hfollowed, hmem, hselect⟩ := selectFrom_states hselected.sequence hsnd
    (fun e he => (hall e he).2) hrun hlater hearlier
  refine ⟨(followed.getLast?.map Prod.fst).getD selected, ?_, ?_⟩
  · rw [recover, decodeSnapshot, hdecode, hmap]
    exact hselect
  · rw [hlive]
    exact decode_followed hfollowed hdecode fun e he => (hall e (hmem e he)).1

/-- What recovery finds is the live state, if it finds one. -/
theorem recover_sound (hsequence : ∀ payload sequence state,
      L.decode payload sequence = .ok state → L.sequence state = sequence)
    {snap live : Record} {earlier later : List Record} {state : σ}
    (hrun : Consecutive none (earlier ++ later)) (hlater : Consecutive (some snap.sequence) later)
    (hearlier : ∀ r ∈ earlier.getLast?, r = snap) (hlive : live = later.getLast?.getD snap)
    (h : recover L ⟨.valid snap, earlier ++ later⟩ = .ok state) :
    L.decode live.payload live.sequence = .ok state := by
  cases hmap : (earlier ++ later).mapM (decodeRecord L) with
  | error e =>
      rw [recover, hmap] at h
      cases hdecoded : decodeSnapshot L (.valid snap) with
      | error e => rw [hdecoded] at h; cases h
      | ok found => rw [hdecoded] at h; cases h
  | ok states =>
  obtain ⟨hsnd, hall⟩ := mapM_decodeRecord_ok hmap
  rw [recover, hmap, decodeSnapshot] at h
  cases hdecode : L.decode snap.payload snap.sequence with
  | ok selected =>
      rw [hdecode] at h
      obtain ⟨followed, hfollowed, hmem, hselect⟩ := selectFrom_states
        (hsequence _ _ _ hdecode) hsnd (fun e he => hsequence _ _ _ (hall e he)) hrun hlater hearlier
      have hstate := Except.ok.inj (hselect.symm.trans h)
      rw [hlive, ← hstate]
      exact decode_followed hfollowed hdecode fun e he => hall e (hmem e he)
  | error e =>
      -- the snapshot is given up, so the log ends behind it: its record there would not decode
      have hlast : selectRecovered L none states = .ok state := by
        rw [hdecode] at h
        cases e with
        | unsupportedVersion kind found => cases h
        | _ => exact h
      cases states using List.reverseRecOn with
      | nil => cases hlast
      | append_singleton xs z =>
          rw [selectRecovered, List.getLast?_concat] at hlast
          have hz := hall z (by simp)
          rw [Except.ok.inj hlast] at hz
          have hrecord : (earlier ++ later).getLast? = some z.2 := by rw [← hsnd]; simp
          rw [List.getLast?_append] at hrecord
          cases hend : later.getLast? with
          | some r =>
              rw [hend, Option.some_or] at hrecord
              rw [hlive, hend, Option.some.inj hrecord]
              exact hz
          | none =>
              rw [hend, Option.none_or] at hrecord
              rw [hearlier z.2 hrecord, hdecode] at hz
              cases hz

end Reading

end CausalFrontierRatchet.Recovery
