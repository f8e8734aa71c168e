import CausalFrontierRatchet.StoreFormat

/-!
What the scanner of the write-ahead log accepts: the header, complete records with consecutive
sequences, and a tail that could be the start of one more record.  The scanner trusts the length field
of that tail.
-/

namespace CausalFrontierRatchet.WalScan

open BigEndian Crypto StoreFormat

/-! ## Cutting byte strings -/

section Cutting

theorem slice_middle {a b c : Bytes} {i j : ℕ} (ha : a.length = i) (hb : i + b.length = j) :
    slice (a ++ (b ++ c)) i j = b := by
  subst ha hb
  simp [slice]

theorem slice_end {a b : Bytes} {i j : ℕ} (ha : a.length = i) (hb : i + b.length = j) :
    slice (a ++ b) i j = b := by
  subst ha hb
  simp [slice]

/-- A byte string that is long enough starts with a field of any width. -/
theorem exists_field (n : ℕ) (bytes : Bytes) (h : n ≤ bytes.length) :
    ∃ field rest, field.length = n ∧ bytes = field ++ rest :=
  ⟨bytes.take n, bytes.drop n, List.length_take_of_le h, (List.take_append_drop n bytes).symm⟩

theorem beU64_eq {bytes : Bytes} (h : bytes.length = 8) :
    beU64 bytes = some (UInt64.ofNat (ofBe bytes)) :=
  if_pos h

theorem beU32_eq {bytes : Bytes} (h : bytes.length = 4) :
    beU32 bytes = some (UInt32.ofNat (ofBe bytes)) :=
  if_pos h

theorem toNat_ofBe {bytes : Bytes} (h : bytes.length = 8) :
    (UInt64.ofNat (ofBe bytes)).toNat = ofBe bytes := by
  have hlt : ofBe bytes < 2 ^ 64 := by
    have hbound := ofBe_lt bytes
    rw [h] at hbound
    exact hbound
  rw [UInt64.toNat_ofNat', Nat.mod_eq_of_lt hlt]

theorem ofBe_toNat (v : UInt64) : UInt64.ofNat (ofBe (beBytes 8 v.toNat)) = v := by
  rw [ofBe_beBytes_of_lt v.toNat_lt, UInt64.ofNat_toNat]

theorem beBytes_ofBe_eight {bytes : Bytes} (h : bytes.length = 8) :
    beBytes 8 (ofBe bytes) = bytes := by
  rw [← h, beBytes_ofBe]

theorem beBytes_ofBe_toNat {bytes : Bytes} (h : bytes.length = 8) :
    beBytes 8 (UInt64.ofNat (ofBe bytes)).toNat = bytes := by
  rw [toNat_ofBe h, beBytes_ofBe_eight h]

end Cutting

/-! ## Records -/

section Records

variable (P : Primitives)

/-- What the writer may put into a record. -/
def Storable (r : Record) : Prop :=
  r.sequence ≠ 0 ∧ r.payload.length ≤ HARD_MAX_STATE_BYTES

/-- A tail the scanner takes for a record that was cut off: too short for a prefix, or a prefix whose
length field asks for more than is there. -/
def Incomplete (tail : Bytes) : Prop :=
  tail.length < RECORD_PREFIX_LEN ∨
    ∃ (sequence : UInt64) (length : ℕ) (rest : Bytes), sequence ≠ 0 ∧
      length ≤ HARD_MAX_STATE_BYTES ∧
      tail = RECORD_MAGIC ++ (beBytes 8 sequence.toNat ++ (beBytes 8 length ++ rest)) ∧
      tail.length < RECORD_OVERHEAD + length

theorem recordBytes_eq (r : Record) :
    recordBytes P r = RECORD_MAGIC ++ (beBytes 8 r.sequence.toNat ++ (beBytes 8 r.payload.length ++
      (bytesOf (recordChecksum P r.sequence r.payload) ++ (r.payload ++ COMMIT_MARKER)))) := by
  simp only [recordBytes, List.append_assoc]

theorem recordBytes_length (r : Record) :
    (recordBytes P r).length = RECORD_OVERHEAD + r.payload.length := by
  rw [recordBytes_eq]
  simp [RECORD_MAGIC, COMMIT_MARKER, RECORD_OVERHEAD, RECORD_PREFIX_LEN]
  omega

/-- The parser, once the fields of the prefix are named. -/
theorem parseRecord_fields {magic sequence length checksum body : Bytes} (hm : magic.length = 8)
    (hs : sequence.length = 8) (hl : length.length = 8) (hc : checksum.length = 32) :
    parseRecord P (magic ++ (sequence ++ (length ++ (checksum ++ body)))) =
      if magic ≠ RECORD_MAGIC then .error (.corrupt "WAL record magic is invalid")
      else checkRecord P (magic ++ (sequence ++ (length ++ (checksum ++ body))))
        (UInt64.ofNat (ofBe sequence)) (ofBe length) := by
  have hlength : ¬(magic ++ (sequence ++ (length ++ (checksum ++ body)))).length <
      RECORD_PREFIX_LEN := by
    simp [hm, hs, hl, hc, RECORD_PREFIX_LEN]
    omega
  have hmagic : (magic ++ (sequence ++ (length ++ (checksum ++ body)))).take 8 = magic := by
    rw [← hm]
    exact List.take_left
  have hsequence : slice (magic ++ (sequence ++ (length ++ (checksum ++ body)))) 8 16 = sequence :=
    slice_middle hm (by omega)
  have hlengths : slice (magic ++ (sequence ++ (length ++ (checksum ++ body)))) 16 24 = length := by
    rw [← List.append_assoc]
    exact slice_middle (by simp [hm, hs]) (by omega)
  rw [parseRecord, if_neg hlength, hmagic, hsequence, hlengths, beU64_eq hs, beU64_eq hl]
  simp only [orCorrupt, bind, Except.bind, toNat_ofBe hl]

/-- The rest of the parser, once the payload and the marker are named. -/
theorem checkRecord_fields {lead checksum payload marker next : Bytes} {sequence : UInt64}
    (hlead : lead.length = 24) (hc : checksum.length = 32) (hmarker : marker.length = 8) :
    checkRecord P (lead ++ (checksum ++ (payload ++ (marker ++ next)))) sequence payload.length =
      if sequence = 0 ∨ HARD_MAX_STATE_BYTES < payload.length then
        .error (.corrupt "WAL record bounds are invalid")
      else if marker ≠ COMMIT_MARKER then .error (.corrupt "WAL commit marker is invalid")
      else if checksum ≠ bytesOf (recordChecksum P sequence payload) then
        .error (.corrupt "WAL record checksum is invalid")
      else .ok (some (⟨sequence, payload⟩, next)) := by
  set whole := lead ++ (checksum ++ (payload ++ (marker ++ next)))
  have hwhole : whole = (lead ++ checksum) ++ (payload ++ (marker ++ next)) := by
    simp only [whole, List.append_assoc]
  have hprefix : (lead ++ checksum).length = RECORD_PREFIX_LEN := by
    simp [hlead, hc, RECORD_PREFIX_LEN]
  have hpayload : slice whole RECORD_PREFIX_LEN (RECORD_PREFIX_LEN + payload.length) = payload := by
    rw [hwhole]
    exact slice_middle hprefix rfl
  have hend : slice whole (RECORD_PREFIX_LEN + payload.length)
      (RECORD_PREFIX_LEN + payload.length + 8) = marker := by
    rw [hwhole, ← List.append_assoc]
    exact slice_middle (by rw [List.length_append, hprefix]) (by rw [hmarker])
  have hsum : slice whole 24 56 = checksum := slice_middle hlead (by omega)
  have hnext : whole.drop (RECORD_OVERHEAD + payload.length) = next := by
    rw [hwhole, ← List.append_assoc, ← List.append_assoc]
    apply List.drop_left'
    rw [List.length_append, List.length_append, hprefix, hmarker, RECORD_OVERHEAD]
    omega
  have hlong : ¬whole.length < RECORD_OVERHEAD + payload.length := by
    rw [hwhole]
    simp only [List.length_append, hmarker, RECORD_OVERHEAD] at hprefix ⊢
    omega
  simp only [checkRecord, hpayload, hend, hsum, hnext, if_neg hlong]

variable {P}

theorem parseRecord_recordBytes {r : Record} (hr : Storable r) (next : Bytes) :
    parseRecord P (recordBytes P r ++ next) = .ok (some (r, next)) := by
  have hlength : ofBe (beBytes 8 r.payload.length) = r.payload.length := by
    apply ofBe_beBytes_of_lt
    exact lt_of_le_of_lt hr.2 (by decide)
  have hassoc : RECORD_MAGIC ++ (beBytes 8 r.sequence.toNat ++ (beBytes 8 r.payload.length ++
        (bytesOf (recordChecksum P r.sequence r.payload) ++
          (r.payload ++ (COMMIT_MARKER ++ next))))) =
      (RECORD_MAGIC ++ beBytes 8 r.sequence.toNat ++ beBytes 8 r.payload.length) ++
        (bytesOf (recordChecksum P r.sequence r.payload) ++
          (r.payload ++ (COMMIT_MARKER ++ next))) := by
    simp only [List.append_assoc]
  rw [recordBytes_eq]
  simp only [List.append_assoc]
  rw [parseRecord_fields P rfl (by simp) (by simp) (by simp), if_neg (by simp), ofBe_toNat, hlength,
    hassoc, checkRecord_fields P (by simp [RECORD_MAGIC]) (by simp) rfl,
    if_neg (not_or.mpr ⟨hr.1, Nat.not_lt.mpr hr.2⟩), if_neg (by simp), if_neg (by simp)]

theorem parseRecord_incomplete {tail : Bytes} (h : Incomplete tail) :
    parseRecord P tail = .ok none := by
  by_cases hshort : tail.length < RECORD_PREFIX_LEN
  · rw [parseRecord, if_pos hshort]
  · obtain ⟨sequence, length, rest, hsequence, hlimit, htail, hlong⟩ := h.resolve_left hshort
    have hlength : ofBe (beBytes 8 length) = length := by
      apply ofBe_beBytes_of_lt
      exact lt_of_le_of_lt hlimit (by decide)
    have hrest : 32 ≤ rest.length := by
      rw [htail] at hshort
      simp [RECORD_MAGIC, RECORD_PREFIX_LEN] at hshort
      omega
    obtain ⟨checksum, body, hchecksum, rfl⟩ := exists_field 32 rest hrest
    rw [htail] at hlong ⊢
    rw [parseRecord_fields P rfl (by simp) (by simp) hchecksum, if_neg (by simp), ofBe_toNat, hlength,
      checkRecord, if_neg (not_or.mpr ⟨hsequence, Nat.not_lt.mpr hlimit⟩), if_pos hlong]

/-- Whatever the parser does not refuse is a record, or could be the start of one. -/
theorem parseRecord_ok {rest : Bytes} {out : Option (Record × Bytes)}
    (h : parseRecord P rest = .ok out) :
    (out = none ∧ Incomplete rest) ∨
      ∃ r next, out = some (r, next) ∧ Storable r ∧ rest = recordBytes P r ++ next := by
  by_cases hshort : rest.length < RECORD_PREFIX_LEN
  · rw [parseRecord, if_pos hshort] at h
    cases h
    exact Or.inl ⟨rfl, Or.inl hshort⟩
  · rw [RECORD_PREFIX_LEN] at hshort
    obtain ⟨magic, rest, hm, rfl⟩ := exists_field 8 rest (by omega)
    rw [List.length_append] at hshort
    obtain ⟨sequence, rest, hs, rfl⟩ := exists_field 8 rest (by omega)
    rw [List.length_append] at hshort
    obtain ⟨length, rest, hl, rfl⟩ := exists_field 8 rest (by omega)
    rw [List.length_append] at hshort
    obtain ⟨checksum, body, hc, rfl⟩ := exists_field 32 rest (by omega)
    rw [parseRecord_fields P hm hs hl hc] at h
    split at h
    · cases h
    rename_i hmagic
    rw [not_not] at hmagic
    subst hmagic
    by_cases hbounds : UInt64.ofNat (ofBe sequence) = 0 ∨ HARD_MAX_STATE_BYTES < ofBe length
    · rw [checkRecord, if_pos hbounds] at h
      cases h
    by_cases hlong : (RECORD_MAGIC ++ (sequence ++ (length ++ (checksum ++ body)))).length <
        RECORD_OVERHEAD + ofBe length
    · rw [checkRecord, if_neg hbounds, if_pos hlong] at h
      cases h
      rw [not_or, Nat.not_lt] at hbounds
      refine Or.inl ⟨rfl, Or.inr ⟨_, ofBe length, checksum ++ body, hbounds.1, hbounds.2, ?_, hlong⟩⟩
      rw [beBytes_ofBe_toNat hs, beBytes_ofBe_eight hl]
    · simp only [List.length_append, hm, hs, hl, hc, RECORD_OVERHEAD, RECORD_PREFIX_LEN] at hlong
      obtain ⟨payload, rest, hpayload, rfl⟩ := exists_field (ofBe length) body (by omega)
      rw [List.length_append] at hlong
      obtain ⟨marker, next, hmarker, rfl⟩ := exists_field 8 rest (by omega)
      have hassoc : RECORD_MAGIC ++ (sequence ++ (length ++ (checksum ++ (payload ++ (marker ++ next))))) =
          (RECORD_MAGIC ++ sequence ++ length) ++ (checksum ++ (payload ++ (marker ++ next))) := by
        simp only [List.append_assoc]
      rw [← hpayload] at h hbounds
      rw [hassoc, checkRecord_fields P (by simp [hm, hs, hl]) hc hmarker, if_neg hbounds] at h
      split at h
      · cases h
      split at h
      · cases h
      rename_i hcommit hsum
      rw [not_not] at hcommit hsum
      cases h
      rw [not_or, Nat.not_lt] at hbounds
      refine Or.inr ⟨_, _, rfl, hbounds, ?_⟩
      rw [recordBytes_eq]
      simp only [List.append_assoc]
      rw [beBytes_ofBe_toNat hs, hpayload, ← hcommit, ← hsum, beBytes_ofBe_eight hl]

end Records

/-! ## The log -/

section Log

variable (P : Primitives)

def recordsBytes (records : List Record) : Bytes :=
  records.flatMap (recordBytes P)

@[simp] theorem recordsBytes_nil : recordsBytes P [] = [] := rfl

@[simp] theorem recordsBytes_cons (r : Record) (records : List Record) :
    recordsBytes P (r :: records) = recordBytes P r ++ recordsBytes P records := rfl

/-- A log that holds the records. -/
def walBytes (records : List Record) : Bytes :=
  walHeader ++ recordsBytes P records

/-- Sequences go up by one from the previous one on. -/
def Consecutive (previous : Option UInt64) : List Record → Prop
  | [] => True
  | r :: rs => (∀ p ∈ previous, r.sequence.toNat = p.toNat + 1) ∧ Consecutive (some r.sequence) rs

/-- Records the writer may have put into one log. -/
def Loggable (records : List Record) : Prop :=
  (∀ r ∈ records, Storable r) ∧ Consecutive none records

theorem checkSequence_ok {previous : Option UInt64} {sequence : UInt64} :
    checkSequence previous sequence = .ok () ↔ ∀ p ∈ previous, sequence.toNat = p.toNat + 1 := by
  cases previous with
  | none => simp [checkSequence]
  | some p =>
      have hs := sequence.toNat_lt
      have hsucc : p.toNat + 1 ≠ 2 ^ 64 → (p + 1).toNat = p.toNat + 1 := by
        intro hmax
        have hp := p.toNat_lt
        rw [UInt64.toNat_add, UInt64.toNat_one, Nat.mod_eq_of_lt (by omega)]
      simp only [checkSequence, Option.mem_some_iff, forall_eq']
      split_ifs with hmax hnext
      · exact iff_of_false (by simp) (by omega)
      · rw [Ne, ← UInt64.toNat_inj, hsucc hmax] at hnext
        exact iff_of_false (by simp) hnext
      · rw [not_not, ← UInt64.toNat_inj, hsucc hmax] at hnext
        exact iff_of_true rfl hnext

variable {P}

theorem scanRecords_incomplete {tail : Bytes} (h : Incomplete tail) (fuel : ℕ)
    (previous : Option UInt64) : scanRecords P fuel tail previous = .ok ([], tail) := by
  cases fuel with
  | zero => rfl
  | succ fuel =>
      rw [scanRecords, parseRecord_incomplete h]
      rfl

theorem scanRecords_cons {r : Record} (hr : Storable r) (fuel : ℕ) (next : Bytes)
    (previous : Option UInt64) :
    scanRecords P (fuel + 1) (recordBytes P r ++ next) previous = (do
      checkSequence previous r.sequence
      let (records, tail) ← scanRecords P fuel next (some r.sequence)
      .ok (r :: records, tail)) := by
  rw [scanRecords, parseRecord_recordBytes hr]
  rfl

theorem scanRecords_complete {records : List Record} {tail : Bytes} {fuel : ℕ}
    {previous : Option UInt64} (hfuel : (recordsBytes P records).length ≤ fuel)
    (hstorable : ∀ r ∈ records, Storable r) (hconsecutive : Consecutive previous records)
    (htail : Incomplete tail) :
    scanRecords P fuel (recordsBytes P records ++ tail) previous = .ok (records, tail) := by
  induction records generalizing fuel previous with
  | nil => exact scanRecords_incomplete htail fuel previous
  | cons r records ih =>
      rw [List.forall_mem_cons] at hstorable
      rw [recordsBytes_cons, List.length_append, recordBytes_length, RECORD_OVERHEAD] at hfuel
      cases fuel with
      | zero => omega
      | succ fuel =>
          rw [recordsBytes_cons, List.append_assoc, scanRecords_cons hstorable.1,
            checkSequence_ok.mpr hconsecutive.1]
          simp only [bind, Except.bind]
          rw [ih (by omega) hstorable.2 hconsecutive.2]

theorem scanRecords_sound {fuel : ℕ} {rest tail : Bytes} {previous : Option UInt64}
    {records : List Record} (hfuel : rest.length ≤ fuel)
    (h : scanRecords P fuel rest previous = .ok (records, tail)) :
    rest = recordsBytes P records ++ tail ∧ (∀ r ∈ records, Storable r) ∧
      Consecutive previous records ∧ Incomplete tail := by
  induction fuel generalizing rest previous records with
  | zero =>
      have hnil : rest = [] := List.length_eq_zero_iff.mp (Nat.le_zero.mp hfuel)
      subst hnil
      cases h
      exact ⟨rfl, by simp, trivial, Or.inl (by decide)⟩
  | succ fuel ih =>
      cases hparse : parseRecord P rest with
      | error e =>
          rw [scanRecords, hparse] at h
          cases h
      | ok out =>
          obtain ⟨rfl, hincomplete⟩ | ⟨r, next, rfl, hr, rfl⟩ := parseRecord_ok hparse
          · rw [scanRecords, hparse] at h
            cases h
            exact ⟨rfl, by simp, trivial, hincomplete⟩
          · rw [scanRecords_cons hr] at h
            cases hcheck : checkSequence previous r.sequence with
            | error e =>
                rw [hcheck] at h
                cases h
            | ok u =>
                rw [hcheck] at h
                cases hscan : scanRecords P fuel next (some r.sequence) with
                | error e =>
                    simp only [bind, Except.bind, hscan] at h
                    cases h
                | ok scanned =>
                    simp only [bind, Except.bind, hscan] at h
                    cases h
                    rw [List.length_append, recordBytes_length, RECORD_OVERHEAD] at hfuel
                    obtain ⟨rfl, hstorable, hconsecutive, hincomplete⟩ := ih (by omega) hscan
                    refine ⟨?_, List.forall_mem_cons.mpr ⟨hr, hstorable⟩,
                      ⟨checkSequence_ok.mp hcheck, hconsecutive⟩, hincomplete⟩
                    rw [recordsBytes_cons, List.append_assoc]

theorem validateWalHeader_fields {magic version rest : Bytes} (hm : magic.length = 8)
    (hv : version.length = 4) :
    validateWalHeader (magic ++ (version ++ rest)) =
      if magic ≠ WAL_MAGIC then .error (.corrupt "WAL header is malformed")
      else if UInt32.ofNat (ofBe version) ≠ STORE_FORMAT_VERSION then
        .error (.unsupportedVersion .storeEnvelope (UInt32.ofNat (ofBe version)))
      else .ok () := by
  have hlong : ¬(magic ++ (version ++ rest)).length < WAL_HEADER_LEN := by
    simp [hm, hv, WAL_HEADER_LEN]
    omega
  have hmagic : (magic ++ (version ++ rest)).take 8 = magic := by
    rw [← hm]
    exact List.take_left
  have hversion : slice (magic ++ (version ++ rest)) 8 12 = version := slice_middle hm (by omega)
  rw [validateWalHeader, hmagic, hversion, beU32_eq hv]
  simp only [hlong, false_or]
  rfl

theorem version_eq {version : Bytes} (hv : version.length = 4) :
    UInt32.ofNat (ofBe version) = STORE_FORMAT_VERSION ↔
      version = beBytes 4 STORE_FORMAT_VERSION.toNat := by
  have hlt : ofBe version < 2 ^ 32 := by
    have hbound := ofBe_lt version
    rw [hv] at hbound
    exact hbound
  constructor
  · intro h
    rw [← h, UInt32.toNat_ofNat', Nat.mod_eq_of_lt hlt, ← hv, beBytes_ofBe]
  · intro h
    rw [h]
    rfl

theorem validateWalHeader_ok {bytes : Bytes} :
    validateWalHeader bytes = .ok () ↔ ∃ rest, bytes = walHeader ++ rest := by
  by_cases hshort : bytes.length < WAL_HEADER_LEN
  · refine iff_of_false ?_ ?_
    · rw [validateWalHeader, if_pos (Or.inl hshort)]
      simp
    · rintro ⟨rest, rfl⟩
      simp [walHeader, WAL_MAGIC, WAL_HEADER_LEN] at hshort
      omega
  · rw [WAL_HEADER_LEN] at hshort
    obtain ⟨magic, rest, hm, rfl⟩ := exists_field 8 bytes (by omega)
    rw [List.length_append] at hshort
    obtain ⟨version, rest, hv, rfl⟩ := exists_field 4 rest (by omega)
    rw [validateWalHeader_fields hm hv]
    simp only [walHeader, List.append_assoc]
    constructor
    · intro h
      split_ifs at h with hmagic hversion
      rw [not_not] at hmagic hversion
      exact ⟨rest, by rw [hmagic, (version_eq hv).mp hversion]⟩
    · rintro ⟨tail, heq⟩
      obtain ⟨hmagic, htail⟩ := List.append_inj heq hm
      obtain ⟨hversion, -⟩ := List.append_inj htail (by simp [hv])
      rw [if_neg (not_not.mpr hmagic), if_neg (not_not.mpr ((version_eq hv).mpr hversion))]

/-- The scanner accepts exactly a log of storable, consecutive records and an incomplete tail. -/
theorem scanWal_iff {bytes : Bytes} {records : List Record} {n : ℕ} :
    scanWal P bytes = .ok (records, n) ↔
      ∃ tail, bytes = walBytes P records ++ tail ∧ Loggable records ∧ Incomplete tail ∧
        n = (walBytes P records).length := by
  have hdrop : ∀ rest : Bytes, (walHeader ++ rest).drop WAL_HEADER_LEN = rest := fun rest =>
    List.drop_left' rfl
  constructor
  · intro h
    cases hheader : validateWalHeader bytes with
    | error e =>
        rw [scanWal, hheader] at h
        cases h
    | ok u =>
        obtain ⟨rest, rfl⟩ := validateWalHeader_ok.mp hheader
        rw [scanWal, hheader, hdrop] at h
        cases hscan : scanRecords P (walHeader ++ rest).length rest none with
        | error e =>
            simp only [bind, Except.bind, hscan] at h
            cases h
        | ok scanned =>
            simp only [bind, Except.bind, hscan] at h
            cases h
            obtain ⟨hrest, hstorable, hconsecutive, htail⟩ := scanRecords_sound (by simp) hscan
            refine ⟨scanned.2, ?_, ⟨hstorable, hconsecutive⟩, htail, ?_⟩
            · rw [walBytes, List.append_assoc, ← hrest]
            · rw [hrest, ← List.append_assoc, ← walBytes, List.length_append, Nat.add_sub_cancel]
  · rintro ⟨tail, rfl, ⟨hstorable, hconsecutive⟩, htail, rfl⟩
    have hheader : validateWalHeader (walBytes P records ++ tail) = .ok () :=
      validateWalHeader_ok.mpr ⟨recordsBytes P records ++ tail, by rw [walBytes, List.append_assoc]⟩
    have hscan : scanRecords P (walBytes P records ++ tail).length (recordsBytes P records ++ tail)
        none = .ok (records, tail) :=
      scanRecords_complete (by simp [walBytes]; omega) hstorable hconsecutive htail
    rw [scanWal, hheader]
    simp only [bind, Except.bind]
    rw [walBytes, List.append_assoc] at hscan
    rw [walBytes, List.append_assoc, hdrop, hscan]
    simp only [List.length_append, Except.ok.injEq, Prod.mk.injEq, true_and]
    omega

end Log

/-! ## Damage that goes unnoticed -/

section Damage

variable (P : Primitives)

/-- A byte string that is itself a log of other records, up to an incomplete tail. -/
def Disguised (records : List Record) (bytes : Bytes) : Prop :=
  ∃ others tail, others ≠ records ∧ Loggable others ∧ Incomplete tail ∧
    bytes = walBytes P others ++ tail

theorem damage_noticed_iff (records : List Record) (altered : Bytes) :
    (∃ e, scanWal P altered = .error e) ∨ (∃ n, scanWal P altered = .ok (records, n)) ↔
      ¬Disguised P records altered := by
  cases hscan : scanWal P altered with
  | error e =>
      refine iff_of_true (Or.inl ⟨e, rfl⟩) ?_
      rintro ⟨others, tail, -, hloggable, htail, haltered⟩
      have hok := scanWal_iff.mpr ⟨tail, haltered, hloggable, htail, rfl⟩
      rw [hscan] at hok
      cases hok
  | ok scanned =>
      obtain ⟨others, n⟩ := scanned
      obtain ⟨tail, haltered, hloggable, htail, -⟩ := scanWal_iff.mp hscan
      by_cases hsame : others = records
      · refine iff_of_true (Or.inr ⟨n, by rw [hsame]⟩) ?_
        rintro ⟨others', tail', hother, hloggable', htail', haltered'⟩
        have hok := scanWal_iff.mpr ⟨tail', haltered', hloggable', htail', rfl⟩
        rw [hscan] at hok
        cases hok
        exact hother hsame
      · refine iff_of_false ?_ (not_not.mpr ⟨others, tail, hsame, hloggable, htail, haltered⟩)
        simp [hsame]

/-- One committed state. -/
def committed : List Record :=
  [⟨2, [116, 119, 111]⟩]

/-- The log of that state with the length field one too large. -/
def overlong : Bytes :=
  walHeader ++ (RECORD_MAGIC ++ beBytes 8 2 ++ beBytes 8 4 ++
    bytesOf (recordChecksum toy 2 [116, 119, 111]) ++ [116, 119, 111] ++ COMMIT_MARKER)

theorem overlong_length_drops_record :
    overlong.length = (walBytes toy committed).length ∧ overlong ≠ walBytes toy committed ∧
      scanWal toy overlong = .ok ([], WAL_HEADER_LEN) := by
  refine ⟨by decide +kernel, by decide +kernel, scanWal_iff.mpr ⟨_, rfl, ⟨by simp, trivial⟩, ?_, rfl⟩⟩
  right
  refine ⟨2, 4, bytesOf (recordChecksum toy 2 [116, 119, 111]) ++ [116, 119, 111] ++ COMMIT_MARKER,
    by decide, by decide, ?_, by decide +kernel⟩
  simp only [List.append_assoc]
  rfl

end Damage

end CausalFrontierRatchet.WalScan
