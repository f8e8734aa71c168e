import CausalFrontierRatchet.StoreCalls

/-!
Durability when calls of the file system return errors.  Whatever else fails, what is on disk stays
the live state, as long as the log handle follows the log: neither the directory synchronisation nor
the reopening after the log was replaced may fail, and an append has to be undone by cutting the log.
-/

namespace CausalFrontierRatchet.FaultTolerance

open BigEndian Crypto Commands FileSystem StoreFormat WalScan Store Recovery StoreCalls

/-! ## What the files show -/

section Shows

variable {m m' : Machine} {S W bytes : Bytes} {temp : FileName} {k : ℕ} {node : Inode}

/-- The contents of the two files; the store's handle is the log. -/
structure Shows (m : Machine) (S W : Bytes) : Prop where
  linked : m.disk.Linked
  snapshot : ∃ s, m.disk.dir .snapshot = some s ∧ (m.disk.inodes s).data = S
  wal : m.disk.dir .wal = some m.wal
  data : (m.disk.inodes m.wal).data = W

theorem Shows.same (h : Shows m S W) (hdisk : m'.disk = m.disk) (hwal : m'.wal = m.wal) :
    Shows m' S W := by
  constructor
  · exact hdisk ▸ h.linked
  · exact hdisk ▸ h.snapshot
  · rw [hdisk, hwal, h.wal]
  · rw [hdisk, hwal, h.data]

theorem Shows.staged (h : Shows m S W) (hstaged : Staged m.disk m'.disk temp k node)
    (hsnapshot : .snapshot ≠ temp) (hlog : .wal ≠ temp) (hwal : m'.wal = m.wal) : Shows m' S W := by
  obtain ⟨s, hs, hS⟩ := h.snapshot
  constructor
  · exact hstaged.linked h.linked
  · exact ⟨s, by rw [(hstaged.other hsnapshot).1, hs], by rw [(hstaged.other hsnapshot).2 hs, hS]⟩
  · rw [(hstaged.other hlog).1, hwal, h.wal]
  · rw [hwal, (hstaged.other hlog).2 h.wal, h.data]

theorem Shows.replaced_snapshot (h : Shows m S W)
    (hreplaced : Replaced m.disk m'.disk .snapshotTemp .snapshot k ⟨bytes, bytes⟩)
    (hwal : m'.wal = m.wal) : Shows m' bytes W := by
  have hother := hreplaced.other .wal (by decide) (by decide)
  constructor
  · exact hreplaced.linked h.linked (by decide)
  · exact ⟨k, hreplaced.here (by decide), by rw [hreplaced.inode]⟩
  · rw [hother.1, hwal, h.wal]
  · rw [hwal, hother.2 h.wal, h.data]

theorem Shows.replaced_wal (h : Shows m S W)
    (hreplaced : Replaced m.disk m'.disk .walTemp .wal k ⟨bytes, bytes⟩) (hwal : m'.wal = k) :
    Shows m' S bytes := by
  have hother := hreplaced.other .snapshot (by decide) (by decide)
  obtain ⟨s, hs, hS⟩ := h.snapshot
  constructor
  · exact hreplaced.linked h.linked (by decide)
  · exact ⟨s, by rw [hother.1, hs], by rw [hother.2 hs, hS]⟩
  · rw [hwal, hreplaced.here (by decide)]
  · rw [hwal, hreplaced.inode]

/-- The store's handle is only written through. -/
theorem Shows.put (h : Shows m S W) {synced : Bytes} (hdisk : m'.disk = m.disk.put m.wal ⟨bytes, synced⟩)
    (hwal : m'.wal = m.wal) : Shows m' S bytes := by
  obtain ⟨s, hs, hS⟩ := h.snapshot
  have hne : s ≠ m.wal := by
    rintro rfl
    exact absurd (h.linked.injective hs h.wal) (by decide)
  constructor
  · rw [hdisk]
    exact ⟨fun hi => h.linked.allocated hi, fun ha hb => h.linked.injective ha hb⟩
  · refine ⟨s, by rw [hdisk]; exact hs, ?_⟩
    rw [hdisk, Disk.put_other _ hne, hS]
  · rw [hdisk, hwal]
    exact h.wal
  · rw [hdisk, hwal, Disk.put_self]

theorem Shows.append (h : Shows m S W) (bytes : Bytes) :
    Shows (after m (m.disk.append m.wal bytes)) S (W ++ bytes) := by
  rw [← h.data]
  exact h.put rfl rfl

theorem Shows.sync (h : Shows m S W) : Shows (after m (m.disk.sync m.wal)) S W := by
  have hput : Shows (after m (m.disk.sync m.wal)) S (m.disk.inodes m.wal).data := h.put rfl rfl
  rwa [h.data] at hput

/-- Cutting the log back to its length before an append. -/
theorem Shows.cut_back {part : Bytes} (h : Shows m S (W ++ part)) :
    Shows (after m (m.disk.setLen m.wal W.length)) S W := by
  have hput : Shows (after m (m.disk.setLen m.wal W.length)) S
      ((m.disk.inodes m.wal).data.take W.length ++
        List.replicate (W.length - (m.disk.inodes m.wal).data.length) 0) := h.put rfl rfl
  rw [h.data] at hput
  simpa using hput

theorem Shows.idle (h : Shows m S W) : Shows (after m m.disk) S W :=
  h.same rfl rfl

end Shows

/-! ## Commands -/

section Commands

variable {P : Primitives} {plan : Plan} {m : Machine} {S W : Bytes} {σ : Type} {L : Logical σ}
  {options : PersistenceOptions} {live : Record}

/-- The calls whose failure the store does not survive. -/
structure Harmless (plan : Plan) : Prop where
  syncDirectory : plan (.syncDirectory .wal) = none
  openWal : plan .openWal = none
  rollbackLen : plan .rollbackLen = none

theorem rollbackAppend_shows {part : Bytes} {e : Error} (hplan : Harmless plan)
    (h : Shows m S (W ++ part)) :
    ∃ e' m', rollbackAppend plan W.length e m = (.error e', m') ∧ Shows m' S W := by
  have hcut := h.cut_back
  rw [rollbackAppend, bind_of_ok (get_run m), Store.setLen, bind_of_ok (call_ok hplan.rollbackLen)]
  cases hsync : plan .rollbackSync with
  | some n => exact ⟨_, _, bind_of_error (call_error hsync), hcut.idle⟩
  | none =>
  rw [Store.sync, bind_of_ok (call_ok hsync)]
  cases hseek : plan .rollbackSeek with
  | some n => exact ⟨_, _, bind_of_error (call_error hseek), hcut.sync.idle⟩
  | none =>
      rw [bind_of_ok (call_ok hseek)]
      exact ⟨_, _, rfl, hcut.sync.idle⟩

theorem appendDurable_shows (record : Bytes) (hplan : Harmless plan) (h : Shows m S W) :
    ∃ r m', appendDurable plan W.length record m = (r, m') ∧
      ((r = .ok () ∧ Shows m' S (W ++ record)) ∨ ((∃ e, r = .error e) ∧ Shows m' S W)) := by
  rw [appendDurable, bind_of_ok (get_run m)]
  cases hseek : plan .seek with
  | some n => exact ⟨_, _, bind_of_error (call_error hseek), Or.inr ⟨⟨_, rfl⟩, h.idle⟩⟩
  | none =>
  rw [bind_of_ok (call_ok hseek), bind_of_ok (attempt_run _ _)]
  cases hwrite : plan .write with
  | some n =>
      rw [writeAll_error hwrite]
      obtain ⟨e, m', hrun, hshows⟩ := rollbackAppend_shows hplan (h.idle.append (record.take n))
      exact ⟨_, m', hrun, Or.inr ⟨⟨e, rfl⟩, hshows⟩⟩
  | none =>
  rw [writeAll_ok hwrite]
  have happend := h.idle.append record
  simp only
  rw [bind_of_ok (attempt_run _ _), Store.sync]
  cases hsync : plan .syncData with
  | some n =>
      rw [call_error hsync]
      obtain ⟨e, m', hrun, hshows⟩ := rollbackAppend_shows hplan happend.idle
      exact ⟨_, m', hrun, Or.inr ⟨⟨e, rfl⟩, hshows⟩⟩
  | none =>
      rw [call_ok hsync]
      exact ⟨_, _, rfl, Or.inl ⟨rfl, happend.sync⟩⟩

variable (P L options) in
/-- What is on disk is the live state, and the log keeps its limit. -/
def Holds (m : Machine) (live : Record) : Prop :=
  ∃ S W, Shows m S W ∧ Intact P L options S W live ∧
    (W.length ≤ options.maxWalBytes ∨ W = walHeader)

theorem reopenWal_shows {m₀ : Machine} {k : ℕ} (hplan : Harmless plan) (h₀ : Shows m₀ S W)
    (hreplaced : Replaced m₀.disk m.disk .walTemp .wal k ⟨walHeader, walHeader⟩) :
    ∃ m', reopenWal plan m = (.ok (), m') ∧ Shows m' S walHeader := by
  have hdir : m.disk.dir .wal = some k := hreplaced.here (by decide)
  have hopen : openFile plan .openWal .wal m = (.ok k, after m m.disk) := by
    rw [openFile, bind_of_ok (get_run m), hdir]
    exact call_ok hplan.openWal
  rw [reopenWal, bind_of_ok hopen]
  exact ⟨_, rfl, h₀.replaced_wal hreplaced rfl⟩

/-- The second half of a checkpoint. -/
theorem resetWal_shows (hplan : Harmless plan) (h : Shows m S W) :
    ∃ r m', (do
        writeAtomic plan .walTemp .wal walHeader
        reopenWal plan) m = (r, m') ∧
      ((r = .ok () ∧ Shows m' S walHeader) ∨ ((∃ e, r = .error e) ∧ Shows m' S W)) := by
  obtain ⟨r, m₁, hrun, hended⟩ : ∃ r m', writeAtomic plan .walTemp .wal walHeader m = (r, m') ∧
      Ended plan m .walTemp .wal walHeader r m' := writeAtomic_ended h.linked (by decide)
  rcases hended.outcome with ⟨rfl, -, hsame⟩ | ⟨k, hreplaced, ⟨-, rfl, -⟩ | ⟨hfault, -⟩⟩
  · refine ⟨_, m₁, bind_of_error hrun, Or.inr ⟨⟨_, rfl⟩, ?_⟩⟩
    rcases hsame with hsame | ⟨k, node, hstaged⟩
    · exact h.same hsame hended.wal
    · exact h.staged hstaged (by decide) (by decide) hended.wal
  · obtain ⟨m₂, hreopen, hshows⟩ := reopenWal_shows hplan h hreplaced
    exact ⟨_, m₂, (bind_of_ok hrun).trans hreopen, Or.inl ⟨rfl, hshows⟩⟩
  · exact absurd hplan.syncDirectory hfault

theorem checkpoint_holds (hplan : Harmless plan) (h : Holds P L options m live) :
    ∃ r m', checkpoint P plan live m = (r, m') ∧ Holds P L options m' live ∧
      (r = .ok () → ∃ S, Shows m' S walHeader ∧ Intact P L options S walHeader live) := by
  obtain ⟨S, W, hshows, hintact, hlimit⟩ := h
  have hstorable := hintact.codable.storable
  obtain ⟨r, m₁, hrun, hended⟩ : ∃ r m',
      writeAtomic plan .snapshotTemp .snapshot (snapshotBytes P live) m = (r, m') ∧
      Ended plan m .snapshotTemp .snapshot (snapshotBytes P live) r m' :=
    writeAtomic_ended hshows.linked (by decide)
  rw [checkpoint, if_neg (Nat.not_lt.mpr hstorable.2), encodeSnapshot_ok hstorable]
  dsimp only
  rw [bind_of_ok (lift_run _ _)]
  rcases hended.outcome with ⟨rfl, -, hsame⟩ | ⟨k, hreplaced, ⟨-, rfl, -⟩ | ⟨-, rfl⟩⟩
  · refine ⟨_, m₁, bind_of_error hrun, ⟨S, W, ?_, hintact, hlimit⟩, by simp⟩
    rcases hsame with hsame | ⟨k, node, hstaged⟩
    · exact hshows.same hsame hended.wal
    · exact hshows.staged hstaged (by decide) (by decide) hended.wal
  · have hshows₁ := hshows.replaced_snapshot hreplaced hended.wal
    obtain ⟨r, m₂, hreset, ⟨rfl, hshows₂⟩ | ⟨⟨e, rfl⟩, hshows₂⟩⟩ := resetWal_shows hplan hshows₁
    · have hfresh : Intact P L options (snapshotBytes P live) walHeader live :=
        intact_checkpoint hintact.codable
      exact ⟨_, m₂, (bind_of_ok hrun).trans hreset, ⟨_, _, hshows₂, hfresh, Or.inr rfl⟩,
        fun _ => ⟨_, hshows₂, hfresh⟩⟩
    · exact ⟨_, m₂, (bind_of_ok hrun).trans hreset,
        ⟨_, W, hshows₂, hintact.replace_snapshot, hlimit⟩, by simp⟩
  · exact ⟨_, m₁, bind_of_error hrun,
      ⟨_, W, hshows.replaced_snapshot hreplaced hended.wal, hintact.replace_snapshot, hlimit⟩, by simp⟩

theorem makeRoom_holds (recordLength : ℕ) (hplan : Harmless plan) (hshows : Shows m S W)
    (hintact : Intact P L options S W live) (hlimit : W.length ≤ options.maxWalBytes ∨ W = walHeader) :
    ∃ r m', makeRoom P plan options live W.length recordLength m = (r, m') ∧
      Holds P L options m' live ∧ ∀ n, r = .ok n → ∃ S' W', n = W'.length ∧ Shows m' S' W' ∧
        Intact P L options S' W' live ∧ (W'.length ≤ options.maxWalBytes ∨ W' = walHeader) := by
  rw [makeRoom]
  split
  · obtain ⟨r, m₁, hrun, hholds, hok⟩ := checkpoint_holds hplan ⟨S, W, hshows, hintact, hlimit⟩
    cases r with
    | error e => exact ⟨_, m₁, bind_of_error hrun, hholds, by simp⟩
    | ok u =>
        obtain ⟨S', hshows', hintact'⟩ := hok rfl
        refine ⟨.ok WAL_HEADER_LEN, m₁, bind_of_ok hrun, hholds, ?_⟩
        rintro n hn
        cases hn
        exact ⟨S', walHeader, rfl, hshows', hintact', Or.inr rfl⟩
  · refine ⟨.ok W.length, m, rfl, ⟨S, W, hshows, hintact, hlimit⟩, ?_⟩
    rintro n hn
    cases hn
    exact ⟨S, W, rfl, hshows, hintact, hlimit⟩

theorem append_holds {candidate : Record} (hplan : Harmless plan) (h : Holds P L options m live)
    (hcandidate : Codable L options candidate)
    (hsequence : candidate.sequence.toNat = live.sequence.toNat + 1) :
    ∃ r m', append P plan options live candidate m = (r, m') ∧
      ((r = .ok () ∧ Holds P L options m' candidate) ∨
        ((∃ e, r = .error e) ∧ Holds P L options m' live)) := by
  obtain ⟨S, W, hshows, hintact, hlimit⟩ := id h
  rw [append, if_neg (by omega)]
  dsimp only
  split
  · exact ⟨_, m, rfl, Or.inr ⟨⟨_, rfl⟩, h⟩⟩
  rw [encodeRecord_ok hcandidate.storable, bind_of_ok (lift_run _ _), walLength, bind_assoc,
    bind_of_ok (get_run m)]
  cases hmetadata : plan .metadata with
  | some n =>
      exact ⟨_, _, bind_of_error (call_error hmetadata),
        Or.inr ⟨⟨_, rfl⟩, S, W, hshows.idle, hintact, hlimit⟩⟩
  | none =>
  rw [bind_of_ok (call_ok hmetadata), hshows.data]
  split
  · exact ⟨_, _, rfl, Or.inr ⟨⟨_, rfl⟩, S, W, hshows.idle, hintact, hlimit⟩⟩
  obtain ⟨r, m₁, hroom, hholds, hlength⟩ :=
    makeRoom_holds (recordBytes P candidate).length hplan hshows.idle hintact hlimit
  cases r with
  | error e => exact ⟨_, m₁, bind_of_error hroom, Or.inr ⟨⟨_, rfl⟩, hholds⟩⟩
  | ok n =>
  obtain ⟨S', W', rfl, hshows', hintact', hlimit'⟩ := hlength n rfl
  dsimp only
  rw [bind_of_ok hroom]
  split
  · exact ⟨_, m₁, rfl, Or.inr ⟨⟨_, rfl⟩, hholds⟩⟩
  rename_i hfits
  obtain ⟨r, m₂, hrun, ⟨rfl, hdone⟩ | ⟨herror, hdone⟩⟩ :=
    appendDurable_shows (recordBytes P candidate) hplan hshows'
  · refine ⟨_, m₂, hrun, Or.inl ⟨rfl, S', _, hdone, hintact'.append hcandidate hsequence, Or.inl ?_⟩⟩
    rw [List.length_append]
    omega
  · exact ⟨_, m₂, hrun, Or.inr ⟨herror, S', W', hdone, hintact', hlimit'⟩⟩

theorem commitCandidate_holds {outcome : Except Error Bytes} (hplan : Harmless plan)
    (h : Holds P L options m live)
    (hdecodes : ∀ payload, outcome = .ok payload → Decodes L options ⟨live.sequence + 1, payload⟩) :
    ∃ r m', commitCandidate P plan options live outcome m = (r, m') ∧
      ((∃ live', r = .ok live' ∧ Holds P L options m' live') ∨
        ((∃ e, r = .error e) ∧ Holds P L options m' live)) := by
  cases outcome with
  | error e => exact ⟨_, m, rfl, Or.inr ⟨⟨_, rfl⟩, h⟩⟩
  | ok payload =>
  rw [commitCandidate, bind_of_ok (lift_run _ _)]
  split
  · exact ⟨_, m, rfl, Or.inr ⟨⟨_, rfl⟩, h⟩⟩
  rename_i hmax
  cases hcheck : checkEncoded options payload with
  | error e => exact ⟨_, m, rfl, Or.inr ⟨⟨_, rfl⟩, h⟩⟩
  | ok u =>
  dsimp only
  rw [bind_of_ok (lift_run _ _)]
  have hsequence := succ_toNat hmax
  have hstorable : Storable ⟨live.sequence + 1, payload⟩ := by
    refine ⟨?_, checkEncoded_ok hcheck⟩
    rw [Ne, ← UInt64.toNat_inj, hsequence]
    simp
  obtain ⟨r, m₁, hrun, ⟨rfl, hdone⟩ | ⟨⟨e, rfl⟩, hdone⟩⟩ :=
    append_holds hplan h ⟨hstorable, hdecodes payload rfl⟩ hsequence
  · exact ⟨_, m₁, bind_of_ok hrun, Or.inl ⟨_, rfl, hdone⟩⟩
  · exact ⟨_, m₁, bind_of_error hrun, Or.inr ⟨⟨e, rfl⟩, hdone⟩⟩

end Commands

/-! ## Runs -/

section Runs

variable (P : Primitives) {σ : Type} (L : Logical σ) (options : PersistenceOptions)

/-- The machines and live states reached from a successful creation by commits and checkpoints, some
calls of which may fail as the plans allow. -/
inductive Run (allowed : Plan → Prop) : Machine → Record → Prop
  | created {plan : Plan} {payload : Bytes} {live : Record} {m : Machine} :
      Decodes L options ⟨1, payload⟩ → create P plan options payload blank = (.ok live, m) →
      Run allowed m live
  | committed {plan : Plan} {outcome : Except Error Bytes} {live live' : Record} {m m' : Machine} :
      Run allowed m live → allowed plan →
      (∀ payload, outcome = .ok payload → Decodes L options ⟨live.sequence + 1, payload⟩) →
      commitCandidate P plan options live outcome m = (.ok live', m') → Run allowed m' live'
  | refused {plan : Plan} {outcome : Except Error Bytes} {live : Record} {e : Error}
      {m m' : Machine} :
      Run allowed m live → allowed plan →
      (∀ payload, outcome = .ok payload → Decodes L options ⟨live.sequence + 1, payload⟩) →
      commitCandidate P plan options live outcome m = (.error e, m') → Run allowed m' live
  | checkpointed {plan : Plan} {live : Record} {r : Except Error Unit} {m m' : Machine} :
      Run allowed m live → allowed plan → checkpoint P plan live m = (r, m') → Run allowed m' live

variable {P L options} {m : Machine} {live : Record}

theorem created_holds {plan : Plan} {payload : Bytes} (hdecodes : Decodes L options ⟨1, payload⟩)
    (h : create P plan options payload blank = (.ok live, m)) : Holds P L options m live := by
  have hblank : blank.disk.Linked := ⟨by simp [blank], by simp [blank]⟩
  cases hcheck : checkEncoded options payload with
  | error e =>
      rw [create, hcheck] at h
      cases h
  | ok u =>
  have hstorable : Storable ⟨1, payload⟩ := ⟨by simp, checkEncoded_ok hcheck⟩
  have hsnapshotBytes : encodeSnapshot P 1 payload = .ok (snapshotBytes P ⟨1, payload⟩) :=
    encodeSnapshot_ok hstorable
  rw [create, hcheck, bind_of_ok (lift_run _ _), hsnapshotBytes, bind_of_ok (lift_run _ _)] at h
  obtain ⟨r, m₁, hrun₁, hended₁⟩ : ∃ r m',
      writeAtomic plan .snapshotTemp .snapshot (snapshotBytes P ⟨1, payload⟩) blank = (r, m') ∧
      Ended plan blank .snapshotTemp .snapshot (snapshotBytes P ⟨1, payload⟩) r m' :=
    writeAtomic_ended hblank (by decide)
  rcases hended₁.outcome with ⟨rfl, -, -⟩ | ⟨s, hsnapshot, ⟨-, rfl, -⟩ | ⟨-, rfl⟩⟩
  · rw [bind_of_error hrun₁] at h
    cases h
  swap
  · rw [bind_of_error hrun₁] at h
    cases h
  rw [bind_of_ok hrun₁] at h
  have hlinked₁ : m₁.disk.Linked := hsnapshot.linked hblank (by decide)
  obtain ⟨r, m₂, hrun₂, hended₂⟩ : ∃ r m', writeAtomic plan .walTemp .wal walHeader m₁ = (r, m') ∧
      Ended plan m₁ .walTemp .wal walHeader r m' := writeAtomic_ended hlinked₁ (by decide)
  rcases hended₂.outcome with ⟨rfl, -, -⟩ | ⟨k, hwal, ⟨-, rfl, -⟩ | ⟨-, rfl⟩⟩
  · rw [bind_of_error hrun₂] at h
    cases h
  swap
  · rw [bind_of_error hrun₂] at h
    cases h
  rw [bind_of_ok hrun₂, reopenWal, bind_assoc, openFile, bind_assoc, bind_of_ok (get_run m₂),
    hwal.here (by decide)] at h
  cases hopen : plan .openWal with
  | some n =>
      rw [bind_of_error (call_error hopen)] at h
      cases h
  | none =>
      rw [bind_of_ok (call_ok hopen)] at h
      cases h
      have hother := hwal.other .snapshot (by decide) (by decide)
      have hs : m₁.disk.dir .snapshot = some s := hsnapshot.here (by decide)
      refine ⟨_, _, ⟨hwal.linked hlinked₁ (by decide), ⟨s, hother.1.trans hs, ?_⟩,
        hwal.here (by decide), ?_⟩, intact_checkpoint ⟨hstorable, hdecodes⟩, Or.inr rfl⟩
      · rw [after_disk, hother.2 hs, hsnapshot.inode]
      · rw [after_disk, hwal.inode]

theorem Run.holds (h : Run P L options Harmless m live) : Holds P L options m live := by
  induction h with
  | created hdecodes hrun => exact created_holds hdecodes hrun
  | committed _ hplan hdecodes hrun ih =>
      obtain ⟨r, m', hrun', ⟨live', rfl, hdone⟩ | ⟨⟨e, rfl⟩, -⟩⟩ := commitCandidate_holds hplan ih hdecodes
      · rw [hrun] at hrun'
        cases hrun'
        exact hdone
      · rw [hrun] at hrun'
        cases hrun'
  | refused _ hplan hdecodes hrun ih =>
      obtain ⟨r, m', hrun', ⟨live', rfl, -⟩ | ⟨⟨e, rfl⟩, hdone⟩⟩ := commitCandidate_holds hplan ih hdecodes
      · rw [hrun] at hrun'
        cases hrun'
      · rw [hrun] at hrun'
        cases hrun'
        exact hdone
  | checkpointed _ hplan hrun ih =>
      obtain ⟨r, m', hrun', hdone, -⟩ := checkpoint_holds hplan ih
      rw [hrun] at hrun'
      cases hrun'
      exact hdone

/-- What a fresh process finds in the directory. -/
def reopened (P : Primitives) (L : Logical σ) (m : Machine) : Except Error σ :=
  (openConference P noFaults L ⟨m.disk, [], 0⟩).1

theorem Holds.reopened (hoptions : options.validate = .ok options)
    (hheader : WAL_HEADER_LEN ≤ options.maxWalBytes) (h : Holds P L options m live) :
    ∃ state, reopened P L m = .ok state ∧ Encodes L options state live := by
  obtain ⟨S, W, hshows, hintact, hlimit⟩ := h
  obtain ⟨s, hs, hS⟩ := hshows.snapshot
  have hne : s ≠ m.wal := by
    rintro rfl
    exact absurd (hshows.linked.injective hs hshows.wal) (by decide)
  have hmax : W.length ≤ options.maxWalBytes := by
    rcases hlimit with hlimit | rfl
    · exact hlimit
    · exact hheader
  have hhard : W.length ≤ HARD_MAX_WAL_BYTES := hmax.trans (maxWalBytes_le hoptions)
  obtain ⟨base, tail, state, m', rfl, -, -, hrun, hstate, hwal, -, hdisk⟩ :=
    openRecovered_run (m := ⟨m.disk, [], 0⟩) hshows.wal hshows.data hs hS hne hhard hintact.recovers
  have hlength : (m'.disk.inodes m'.wal).data.length ≤ options.maxWalBytes := by
    rw [List.length_append] at hmax
    rcases hdisk with ⟨heq, -⟩ | heq
    · rw [heq, hwal, hshows.data, List.length_append]
      exact hmax
    · rw [heq, hwal, cut_self hshows.data]
      exact le_trans (Nat.le_add_right _ _) hmax
  refine ⟨state, ?_, hstate⟩
  rw [FaultTolerance.reopened, openConference, bind_of_ok hrun, walLength, bind_assoc,
    bind_of_ok (get_run _), bind_of_ok (call_ok rfl), hstate.options, if_neg (Nat.not_lt.mpr hlength)]
  rfl

def founded : Machine :=
  (create toy noFaults .default [1] blank).2

end Runs

end CausalFrontierRatchet.FaultTolerance
