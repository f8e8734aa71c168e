import CausalFrontierRatchet.StoreCalls

/-!
Crash safety.  No call fails, but the process may die between any two calls, while the store is being
opened too; what was not synchronised survives in part.  Whatever is left, opening the store succeeds
and finds the last acknowledged state or the one whose commit was in flight.
-/

namespace CausalFrontierRatchet.CrashSafety

open BigEndian Crypto Commands FileSystem StoreFormat WalScan Store Recovery StoreCalls

/-! ## Settled disks -/

section Settled

variable {d d₀ d' : Disk FileName} {w k : ℕ} {S W bytes : Bytes} {temp : FileName} {node : Inode}

/-- Nothing is waiting to be synchronised in the two files and in the directory. -/
structure Settled (d : Disk FileName) (w : ℕ) (S W : Bytes) : Prop where
  linked : d.Linked
  past : d.past = []
  snapshot : ∃ s, d.dir .snapshot = some s ∧ d.inodes s = ⟨S, S⟩
  wal : d.dir .wal = some w
  data : d.inodes w = ⟨W, W⟩

theorem crash_inode (hcrash : Crash d d') {i : ℕ} (hnode : d.inodes i = ⟨bytes, bytes⟩) :
    d'.inodes i = ⟨bytes, bytes⟩ := by
  obtain ⟨survived, hsurvives, hinode⟩ := hcrash.inodes i
  rw [hnode] at hsurvives
  rw [hinode, survives_synced hsurvives]

/-- A crash finds the directory in a version that names two synchronised files. -/
theorem settled_of_crash {s : ℕ} (hcrash : Crash d d') (hlinked : d'.Linked)
    (hs : d'.dir .snapshot = some s) (hS : d.inodes s = ⟨S, S⟩) (hw : d'.dir .wal = some w)
    (hW : d.inodes w = ⟨W, W⟩) : Settled d' w S W where
  linked := hlinked
  past := hcrash.past
  snapshot := ⟨s, hs, crash_inode hcrash hS⟩
  wal := hw
  data := crash_inode hcrash hW

/-- Names keep their meaning in a version of the directory that is linked already. -/
theorem linked_of_dir (hlinked : d.Linked) (hdir : d'.dir = d.dir) (hnext : d.next ≤ d'.next) :
    d'.Linked where
  allocated hi := by
    rw [hdir] at hi
    exact lt_of_lt_of_le (hlinked.allocated hi) hnext
  injective ha hb := by
    rw [hdir] at ha hb
    exact hlinked.injective ha hb

theorem Settled.crash (h : Settled d w S W) (hcrash : Crash d d') : Settled d' w S W := by
  obtain ⟨s, hs, hS⟩ := h.snapshot
  have hdir : d'.dir = d.dir := by
    have hmem := hcrash.dir
    rwa [h.past, List.mem_singleton] at hmem
  exact settled_of_crash hcrash (linked_of_dir h.linked hdir hcrash.next.ge) (by rw [hdir, hs]) hS
    (by rw [hdir, h.wal]) h.data

/-- The old files are found while a temporary one is written. -/
theorem Settled.crash_staged (h : Settled d₀ w S W) (hstaged : Staged d₀ d temp k node)
    (hsnapshot : .snapshot ≠ temp) (hwal : .wal ≠ temp) (hcrash : Crash d d') : Settled d' w S W := by
  obtain ⟨s, hs, hS⟩ := h.snapshot
  have hS' : d.inodes s = ⟨S, S⟩ := by rw [(hstaged.other hsnapshot).2 hs, hS]
  have hW' : d.inodes w = ⟨W, W⟩ := by rw [(hstaged.other hwal).2 h.wal, h.data]
  have hdir : d'.dir = d.dir ∨ d'.dir = d₀.dir := by
    rcases List.mem_cons.mp hcrash.dir with hdir | hdir
    · exact Or.inl hdir
    · have hpast := hstaged.past _ hdir
      rw [h.past] at hpast
      exact Or.inr (hpast.resolve_right (by simp))
  rcases hdir with hdir | hdir
  · exact settled_of_crash hcrash
      (linked_of_dir (hstaged.linked h.linked) hdir hcrash.next.ge)
      (by rw [hdir, (hstaged.other hsnapshot).1, hs]) hS'
      (by rw [hdir, (hstaged.other hwal).1, h.wal]) hW'
  · exact settled_of_crash hcrash
      (linked_of_dir h.linked hdir (hcrash.next ▸ hstaged.next)) (by rw [hdir, hs]) hS'
      (by rw [hdir, h.wal]) hW'

/-- Until the directory is synchronised, the old files or the new directory are found. -/
theorem Settled.crash_replaced {name : FileName} (h : Settled d₀ w S W)
    (hreplaced : Replaced d₀ d temp name k node) (hsnapshot : .snapshot ≠ temp) (hwal : .wal ≠ temp)
    (hcrash : Crash d d') : Settled d' w S W ∨ d'.dir = d.dir := by
  -- every older version of the directory is one of the time before the rename
  let before : Disk FileName :=
    { d with dir := Function.update d₀.dir temp (some k), past := [d₀.dir] }
  have hstaged : Staged d₀ before temp k node :=
    { dir := rfl, inode := hreplaced.inode, others := hreplaced.others, unused := hreplaced.unused
      allocated := hreplaced.allocated, next := hreplaced.next, past := by simp [before] }
  rcases List.mem_cons.mp hcrash.dir with hdir | hdir
  · exact Or.inr hdir
  · have hbefore : Crash before d' :=
      { next := hcrash.next, past := hcrash.past, inodes := hcrash.inodes
        dir := by
          have hpast := hreplaced.past _ hdir
          rw [h.past] at hpast
          simpa [before, or_comm] using hpast }
    exact Or.inl (h.crash_staged hstaged hsnapshot hwal hbefore)

theorem Settled.crash_replaced_snapshot (h : Settled d₀ w S W)
    (hreplaced : Replaced d₀ d .snapshotTemp .snapshot k ⟨bytes, bytes⟩) (hcrash : Crash d d') :
    Settled d' w S W ∨ Settled d' w bytes W := by
  refine (h.crash_replaced hreplaced (by decide) (by decide) hcrash).imp_right fun hdir => ?_
  have hother := hreplaced.other .wal (by decide) (by decide)
  exact settled_of_crash hcrash
    (linked_of_dir (hreplaced.linked h.linked (by decide)) hdir hcrash.next.ge)
    (by rw [hdir, hreplaced.here (by decide)]) hreplaced.inode (by rw [hdir, hother.1, h.wal])
    (by rw [hother.2 h.wal, h.data])

theorem Settled.crash_replaced_wal (h : Settled d₀ w S W)
    (hreplaced : Replaced d₀ d .walTemp .wal k ⟨bytes, bytes⟩) (hcrash : Crash d d') :
    Settled d' w S W ∨ Settled d' k S bytes := by
  refine (h.crash_replaced hreplaced (by decide) (by decide) hcrash).imp_right fun hdir => ?_
  obtain ⟨s, hs, hS⟩ := h.snapshot
  have hother := hreplaced.other .snapshot (by decide) (by decide)
  exact settled_of_crash hcrash
    (linked_of_dir (hreplaced.linked h.linked (by decide)) hdir hcrash.next.ge)
    (by rw [hdir, hother.1, hs]) (by rw [hother.2 hs, hS])
    (by rw [hdir, hreplaced.here (by decide)]) hreplaced.inode

theorem Settled.replaced_snapshot (h : Settled d₀ w S W)
    (hreplaced : Replaced d₀ d .snapshotTemp .snapshot k ⟨bytes, bytes⟩) (hpast : d.past = []) :
    Settled d w bytes W := by
  have hother := hreplaced.other .wal (by decide) (by decide)
  exact ⟨hreplaced.linked h.linked (by decide), hpast,
    ⟨k, hreplaced.here (by decide), hreplaced.inode⟩, hother.1.trans h.wal,
    (hother.2 h.wal).trans h.data⟩

theorem Settled.replaced_wal (h : Settled d₀ w S W)
    (hreplaced : Replaced d₀ d .walTemp .wal k ⟨bytes, bytes⟩) (hpast : d.past = []) :
    Settled d k S bytes := by
  obtain ⟨s, hs, hS⟩ := h.snapshot
  have hother := hreplaced.other .snapshot (by decide) (by decide)
  exact ⟨hreplaced.linked h.linked (by decide), hpast, ⟨s, hother.1.trans hs, (hother.2 hs).trans hS⟩,
    hreplaced.here (by decide), hreplaced.inode⟩

/-- Writing through the log handle. -/
theorem Settled.put (h : Settled d w S W) : Settled (d.put w ⟨bytes, bytes⟩) w S bytes := by
  obtain ⟨s, hs, hS⟩ := h.snapshot
  have hne : s ≠ w := by
    rintro rfl
    exact absurd (h.linked.injective hs h.wal) (by decide)
  exact ⟨⟨fun hi => h.linked.allocated hi, fun ha hb => h.linked.injective ha hb⟩, h.past,
    ⟨s, hs, (d.put_other hne _).trans hS⟩, h.wal, d.put_self w _⟩

/-- What a crash leaves of the log while it is longer or shorter than when it was synchronised. -/
theorem Settled.crash_put (h : Settled d w S W) {node : Inode} (hcrash : Crash (d.put w node) d') :
    ∃ survived, Survives node survived ∧ Settled d' w S survived := by
  obtain ⟨survived, hsurvives, hinode⟩ := hcrash.inodes w
  rw [Disk.put_self] at hsurvives
  refine ⟨survived, hsurvives, ?_⟩
  have hput : Settled (d.put w ⟨survived, survived⟩) w S survived := h.put
  apply hput.crash
  refine ⟨hcrash.next, hcrash.dir, hcrash.past, ?_⟩
  intro i
  by_cases hi : i = w
  · subst hi
    rw [Disk.put_self]
    exact ⟨survived, by simp [Survives], hinode⟩
  · obtain ⟨bytes, hbytes, heq⟩ := hcrash.inodes i
    rw [Disk.put_other _ hi] at hbytes ⊢
    exact ⟨bytes, hbytes, heq⟩

end Settled

/-! ## Commands -/

section Commands

variable {P : Primitives} {σ : Type} {L : Logical σ} {options : PersistenceOptions} {m : Machine}
  {S W : Bytes} {live : Record} {A B : Record → Prop}

variable (P L options) in
/-- Nothing is in flight, and the files stand for a state with the property. -/
def Stored (A : Record → Prop) (d : Disk FileName) : Prop :=
  ∃ w S W live, A live ∧ Settled d w S W ∧ Recovers P L options S W live ∧
    W.length ≤ HARD_MAX_WAL_BYTES

variable (P L options) in
/-- Whatever a crash leaves stands for a state with the property. -/
def Safe (A : Record → Prop) (d : Disk FileName) : Prop :=
  ∀ d', Crash d d' → Stored P L options A d'

variable (P L options) in
/-- The machine holds the live state, with nothing in flight. -/
def Synced (m : Machine) (live : Record) : Prop :=
  ∃ S W, Settled m.disk m.wal S W ∧ Intact P L options S W live ∧ W.length ≤ HARD_MAX_WAL_BYTES

theorem Safe.mono {d : Disk FileName} (h : Safe P L options A d) (hAB : ∀ r, A r → B r) :
    Safe P L options B d := by
  intro d' hcrash
  obtain ⟨w, S, W, live, hA, hrest⟩ := h d' hcrash
  exact ⟨w, S, W, live, hAB live hA, hrest⟩

theorem Settled.safe {d : Disk FileName} {w : ℕ} (h : Settled d w S W)
    (hintact : Intact P L options S W live) (hlimit : W.length ≤ HARD_MAX_WAL_BYTES) :
    Safe P L options (· = live) d := by
  intro d' hcrash
  exact ⟨w, S, W, live, rfl, h.crash hcrash, hintact.recovers, hlimit⟩

theorem writeSnapshot_run (hsettled : Settled m.disk m.wal S W) (hintact : Intact P L options S W live)
    (hlimit : W.length ≤ HARD_MAX_WAL_BYTES) :
    ∃ m', writeAtomic noFaults .snapshotTemp .snapshot (snapshotBytes P live) m = (.ok (), m') ∧
      m'.wal = m.wal ∧ Settled m'.disk m.wal (snapshotBytes P live) W ∧
      Traced m m' (Safe P L options (· = live)) := by
  obtain ⟨r, m', hrun, hended⟩ : ∃ r m',
      writeAtomic noFaults .snapshotTemp .snapshot (snapshotBytes P live) m = (r, m') ∧
      Ended noFaults m .snapshotTemp .snapshot (snapshotBytes P live) r m' :=
    writeAtomic_ended hsettled.linked (by decide)
  have hsafe : Traced m m' (Safe P L options (· = live)) := by
    apply hended.trace.mono
    rintro d (rfl | ⟨k, node, hstaged⟩ | ⟨k, hreplaced⟩)
    · exact hsettled.safe hintact hlimit
    · intro d' hcrash
      exact ⟨_, _, _, live, rfl, hsettled.crash_staged hstaged (by decide) (by decide) hcrash,
        hintact.recovers, hlimit⟩
    · intro d' hcrash
      rcases hsettled.crash_replaced_snapshot hreplaced hcrash with hold | hnew
      · exact ⟨_, _, _, live, rfl, hold, hintact.recovers, hlimit⟩
      · exact ⟨_, _, _, live, rfl, hnew, hintact.replace_snapshot.recovers, hlimit⟩
  obtain ⟨k, hreplaced, rfl, hpast⟩ := hended.replaced
  exact ⟨m', hrun, hended.wal, hsettled.replaced_snapshot hreplaced hpast, hsafe⟩

theorem writeWal_run (hsettled : Settled m.disk m.wal S W) (hintact : Intact P L options S W live)
    (hfresh : Intact P L options S walHeader live) (hlimit : W.length ≤ HARD_MAX_WAL_BYTES) :
    ∃ k m', writeAtomic noFaults .walTemp .wal walHeader m = (.ok (), m') ∧
      Settled m'.disk k S walHeader ∧ Traced m m' (Safe P L options (· = live)) := by
  obtain ⟨r, m', hrun, hended⟩ : ∃ r m', writeAtomic noFaults .walTemp .wal walHeader m = (r, m') ∧
      Ended noFaults m .walTemp .wal walHeader r m' := writeAtomic_ended hsettled.linked (by decide)
  have hsafe : Traced m m' (Safe P L options (· = live)) := by
    apply hended.trace.mono
    rintro d (rfl | ⟨k, node, hstaged⟩ | ⟨k, hreplaced⟩)
    · exact hsettled.safe hintact hlimit
    · intro d' hcrash
      exact ⟨_, _, _, live, rfl, hsettled.crash_staged hstaged (by decide) (by decide) hcrash,
        hintact.recovers, hlimit⟩
    · intro d' hcrash
      rcases hsettled.crash_replaced_wal hreplaced hcrash with hold | hnew
      · exact ⟨_, _, _, live, rfl, hold, hintact.recovers, hlimit⟩
      · exact ⟨_, _, _, live, rfl, hnew, hfresh.recovers, by decide⟩
  obtain ⟨k, hreplaced, rfl, hpast⟩ := hended.replaced
  exact ⟨k, m', hrun, hsettled.replaced_wal hreplaced hpast, hsafe⟩

theorem checkpoint_run (h : Synced P L options m live) :
    ∃ m', checkpoint P noFaults live m = (.ok (), m') ∧
      Traced m m' (Safe P L options (· = live)) ∧
      Settled m'.disk m'.wal (snapshotBytes P live) walHeader ∧
      Intact P L options (snapshotBytes P live) walHeader live := by
  obtain ⟨S, W, hsettled, hintact, hlimit⟩ := h
  have hstorable := hintact.codable.storable
  have hfresh : Intact P L options (snapshotBytes P live) walHeader live :=
    intact_checkpoint hintact.codable
  obtain ⟨m₁, hrun₁, hwal₁, hsettled₁, hsafe₁⟩ := writeSnapshot_run hsettled hintact hlimit
  rw [← hwal₁] at hsettled₁
  obtain ⟨k, m₂, hrun₂, hsettled₂, hsafe₂⟩ :=
    writeWal_run hsettled₁ hintact.replace_snapshot hfresh hlimit
  have hreopen : reopenWal noFaults m₂ = (.ok (), { after m₂ m₂.disk with wal := k }) := by
    rw [reopenWal, bind_of_ok (openFile_run hsettled₂.wal)]
    rfl
  refine ⟨{ after m₂ m₂.disk with wal := k }, ?_, ?_, hsettled₂, hfresh⟩
  · rw [checkpoint, if_neg (Nat.not_lt.mpr hstorable.2), encodeSnapshot_ok hstorable]
    dsimp only
    rw [bind_of_ok (lift_run _ _), bind_of_ok hrun₁, bind_of_ok hrun₂, hreopen]
  · exact (hsafe₁.trans hsafe₂).after (hsettled₂.safe hfresh (by decide))

/-- A record on its way into the log: part of it, or all of it. -/
theorem crash_append {d d' : Disk FileName} {w : ℕ} {next : Record} (hsettled : Settled d w S W)
    (hintact : Intact P L options S W live) (hnext : Codable L options next)
    (hsequence : next.sequence.toNat = live.sequence.toNat + 1)
    (hlimit : (W ++ recordBytes P next).length ≤ HARD_MAX_WAL_BYTES)
    (hcrash : Crash (d.append w (recordBytes P next)) d') :
    Stored P L options (fun r => r = live ∨ r = next) d' := by
  rw [Disk.append, hsettled.data] at hcrash
  obtain ⟨survived, hsurvives, hsettled'⟩ := hsettled.crash_put hcrash
  obtain ⟨part, hpart, rfl⟩ := survives_append hsurvives
  have hshort : (W ++ part).length ≤ HARD_MAX_WAL_BYTES := by
    have hle := hpart.length_le
    rw [List.length_append] at hlimit ⊢
    omega
  by_cases hwhole : part = recordBytes P next
  · subst hwhole
    exact ⟨w, S, _, next, Or.inr rfl, hsettled', (hintact.append hnext hsequence).recovers, hshort⟩
  · exact ⟨w, S, _, live, Or.inl rfl, hsettled',
      ⟨W, part, rfl, incomplete_of_torn hnext.storable hpart hwhole, hintact⟩, hshort⟩

theorem appendDurable_run {next : Record} (hsettled : Settled m.disk m.wal S W)
    (hintact : Intact P L options S W live) (hnext : Codable L options next)
    (hsequence : next.sequence.toNat = live.sequence.toNat + 1)
    (hlimit : (W ++ recordBytes P next).length ≤ HARD_MAX_WAL_BYTES) :
    ∃ m', appendDurable noFaults W.length (recordBytes P next) m = (.ok (), m') ∧
      Synced P L options m' next ∧
      Traced m m' (Safe P L options fun r => r = live ∨ r = next) := by
  have hbefore : Safe P L options (fun r => r = live ∨ r = next) m.disk := by
    refine (hsettled.safe hintact ?_).mono fun _ => Or.inl
    rw [List.length_append] at hlimit
    omega
  have hsynced : (m.disk.append m.wal (recordBytes P next)).sync m.wal =
      m.disk.put m.wal ⟨W ++ recordBytes P next, W ++ recordBytes P next⟩ := by
    rw [Disk.sync, Disk.append, Disk.put_self, hsettled.data, Disk.put, Disk.put, Disk.put]
    simp only [Function.update_idem]
  have hput : Settled (m.disk.put m.wal ⟨W ++ recordBytes P next, W ++ recordBytes P next⟩) m.wal S
      (W ++ recordBytes P next) := hsettled.put
  have hdone := hintact.append hnext hsequence
  refine ⟨after (after (after m m.disk) (m.disk.append m.wal (recordBytes P next)))
    ((m.disk.append m.wal (recordBytes P next)).sync m.wal), ?_, ?_, ?_⟩
  · rw [appendDurable, bind_of_ok (get_run m), bind_of_ok (call_ok rfl),
      bind_of_ok (attempt_run _ _), writeAll_ok rfl]
    simp only
    rw [bind_of_ok (attempt_run _ _), Store.sync, call_ok rfl]
    rfl
  · refine ⟨S, W ++ recordBytes P next, ?_, hdone, hlimit⟩
    rw [after_disk, hsynced]
    exact hput
  · refine (((traced_start hbefore).after hbefore).after ?_).after ?_
    · intro d' hcrash
      exact crash_append hsettled hintact hnext hsequence hlimit hcrash
    · rw [hsynced]
      exact (hput.safe hdone hlimit).mono fun _ => Or.inr

theorem makeRoom_run (recordLength : ℕ) (hsettled : Settled m.disk m.wal S W)
    (hintact : Intact P L options S W live) (hlimit : W.length ≤ HARD_MAX_WAL_BYTES) :
    ∃ S' W' m', makeRoom P noFaults options live W.length recordLength m = (.ok W'.length, m') ∧
      Settled m'.disk m'.wal S' W' ∧ Intact P L options S' W' live ∧
      W'.length ≤ HARD_MAX_WAL_BYTES ∧ Traced m m' (Safe P L options (· = live)) := by
  rw [makeRoom]
  split
  · obtain ⟨m', hrun, hsafe, hsettled', hintact'⟩ := checkpoint_run ⟨S, W, hsettled, hintact, hlimit⟩
    exact ⟨_, walHeader, m', bind_of_ok hrun, hsettled', hintact', by decide, hsafe⟩
  · exact ⟨S, W, m, rfl, hsettled, hintact, hlimit, traced_start (hsettled.safe hintact hlimit)⟩

theorem append_run {next : Record} (hoptions : options.maxWalBytes ≤ HARD_MAX_WAL_BYTES)
    (h : Synced P L options m live) (hnext : Codable L options next)
    (hsequence : next.sequence.toNat = live.sequence.toNat + 1) :
    ∃ r m', append P noFaults options live next m = (r, m') ∧
      Traced m m' (Safe P L options fun r => r = live ∨ r = next) ∧
      ((r = .ok () ∧ Synced P L options m' next) ∨
        ((∃ e, r = .error e) ∧ Synced P L options m' live)) := by
  obtain ⟨S, W, hsettled, hintact, hlimit⟩ := id h
  have hbefore : Safe P L options (fun r => r = live ∨ r = next) m.disk :=
    (hsettled.safe hintact hlimit).mono fun _ => Or.inl
  rw [append, if_neg (by omega)]
  dsimp only
  split
  · exact ⟨_, m, rfl, traced_start hbefore, Or.inr ⟨⟨_, rfl⟩, h⟩⟩
  rw [encodeRecord_ok hnext.storable, bind_of_ok (lift_run _ _), walLength, bind_assoc,
    bind_of_ok (get_run m), bind_of_ok (call_ok rfl), hsettled.data]
  have hstart := (traced_start hbefore).after hbefore
  split
  · exact ⟨_, _, rfl, hstart, Or.inr ⟨⟨_, rfl⟩, h⟩⟩
  obtain ⟨S', W', m₁, hroom, hsettled', hintact', hlimit', hsafe⟩ :=
    makeRoom_run (m := after m m.disk) (recordBytes P next).length hsettled hintact hlimit
  have hroomed := hstart.trans (hsafe.mono fun _ hd => hd.mono fun _ => Or.inl)
  dsimp only
  rw [bind_of_ok hroom]
  split
  · exact ⟨_, m₁, rfl, hroomed, Or.inr ⟨⟨_, rfl⟩, S', W', hsettled', hintact', hlimit'⟩⟩
  rename_i hfits
  have hlimit'' : (W' ++ recordBytes P next).length ≤ HARD_MAX_WAL_BYTES := by
    rw [List.length_append]
    omega
  obtain ⟨m₂, hrun, hsynced, htraced⟩ :=
    appendDurable_run hsettled' hintact' hnext hsequence hlimit''
  exact ⟨_, m₂, hrun, hroomed.trans htraced, Or.inl ⟨rfl, hsynced⟩⟩

/-- The state a commit is about to write. -/
def candidate (live : Record) (outcome : Except Error Bytes) : Option Record :=
  outcome.toOption.map fun payload => ⟨live.sequence + 1, payload⟩

theorem commitCandidate_run {outcome : Except Error Bytes}
    (hoptions : options.maxWalBytes ≤ HARD_MAX_WAL_BYTES) (h : Synced P L options m live)
    (hdecodes : ∀ r ∈ candidate live outcome, Decodes L options r) :
    ∃ r m', commitCandidate P noFaults options live outcome m = (r, m') ∧
      Traced m m' (Safe P L options fun r => r = live ∨ r ∈ candidate live outcome) ∧
      ((∃ live', r = .ok live' ∧ Synced P L options m' live') ∨
        ((∃ e, r = .error e) ∧ Synced P L options m' live)) := by
  obtain ⟨S, W, hsettled, hintact, hlimit⟩ := id h
  have hbefore : Traced m m (Safe P L options fun r => r = live ∨ r ∈ candidate live outcome) :=
    traced_start ((hsettled.safe hintact hlimit).mono fun _ => Or.inl)
  cases outcome with
  | error e => exact ⟨_, m, rfl, hbefore, Or.inr ⟨⟨_, rfl⟩, h⟩⟩
  | ok payload =>
  rw [commitCandidate, bind_of_ok (lift_run _ _)]
  split
  · exact ⟨_, m, rfl, hbefore, Or.inr ⟨⟨_, rfl⟩, h⟩⟩
  rename_i hmax
  cases hcheck : checkEncoded options payload with
  | error e => exact ⟨_, m, rfl, hbefore, Or.inr ⟨⟨_, rfl⟩, h⟩⟩
  | ok u =>
  dsimp only
  rw [bind_of_ok (lift_run _ _)]
  have hsequence := succ_toNat hmax
  have hstorable : Storable ⟨live.sequence + 1, payload⟩ := by
    refine ⟨?_, checkEncoded_ok hcheck⟩
    rw [Ne, ← UInt64.toNat_inj, hsequence]
    simp
  obtain ⟨r, m₁, hrun, htraced, hend⟩ :=
    append_run hoptions h ⟨hstorable, hdecodes _ rfl⟩ hsequence
  have htraced' : Traced m m₁
      (Safe P L options fun r => r = live ∨ r ∈ candidate live (.ok payload)) :=
    htraced.mono fun _ hd => hd.mono fun r hr => hr.imp_right fun hr => by rw [hr]; rfl
  rcases hend with ⟨rfl, hdone⟩ | ⟨⟨e, rfl⟩, hdone⟩
  · exact ⟨_, m₁, bind_of_ok hrun, htraced', Or.inl ⟨_, rfl, hdone⟩⟩
  · exact ⟨_, m₁, bind_of_error hrun, htraced', Or.inr ⟨⟨e, rfl⟩, hdone⟩⟩

/-- Opening what a crash has left. -/
theorem openRecovered_stored {d : Disk FileName} {w : ℕ} (h : Stored P L options A d) :
    ∃ state live m', openRecovered P noFaults L ⟨d, [], w⟩ = (.ok state, m') ∧ A live ∧
      Encodes L options state live ∧ Synced P L options m' live ∧
      ∀ d' ∈ m'.disk :: m'.trace, Safe P L options A d' := by
  obtain ⟨i, S, W, live, hA, hsettled, hrecovers, hlimit⟩ := h
  obtain ⟨s, hs, hS⟩ := hsettled.snapshot
  have hne : s ≠ i := by
    rintro rfl
    exact absurd (hsettled.linked.injective hs hsettled.wal) (by decide)
  obtain ⟨base, tail, state, m', rfl, htail, hintact, hrun, hstate, hwal, htraced, hdisk⟩ :=
    openRecovered_run (m := ⟨d, [], w⟩) hsettled.wal (congrArg Inode.data hsettled.data) hs
      (congrArg Inode.data hS) hne hlimit hrecovers
  have hshort : base.length ≤ HARD_MAX_WAL_BYTES := by
    rw [List.length_append] at hlimit
    omega
  have hdata : (d.inodes i).data = base ++ tail := congrArg Inode.data hsettled.data
  have hcut : cut d i base.length = d.put i ⟨base, base⟩ := by
    rw [cut, Disk.sync, Disk.setLen, Disk.put_self, Disk.put, Disk.put, Disk.put, hdata]
    simp
  have hbase : Settled (d.put i ⟨base, base⟩) i S base := hsettled.put
  -- before, during and after the cut
  have hbefore : Safe P L options A d := by
    intro d' hcrash
    exact ⟨i, S, _, live, hA, hsettled.crash hcrash, hrecovers, hlimit⟩
  have hduring : Safe P L options A (d.setLen i base.length) := by
    have hshrunk : d.setLen i base.length = d.put i ⟨base, base ++ tail⟩ := by
      rw [Disk.setLen, hsettled.data]
      simp
    rw [hshrunk]
    intro d' hcrash
    obtain ⟨survived, hsurvives, hsettled'⟩ := hsettled.crash_put hcrash
    obtain ⟨part, hpart, rfl⟩ := survives_cut hsurvives
    refine ⟨i, S, _, live, hA, hsettled', ⟨base, part, rfl, incomplete_of_prefix htail hpart, hintact⟩, ?_⟩
    have hle := hpart.length_le
    rw [List.length_append] at hlimit ⊢
    omega
  have hafter : Safe P L options A (cut d i base.length) := by
    rw [hcut]
    exact (hbase.safe hintact hshort).mono fun r hr => hr ▸ hA
  refine ⟨state, live, m', hrun, hA, hstate, ?_, ?_⟩
  · refine ⟨S, base, ?_, hintact, hshort⟩
    rw [hwal]
    rcases hdisk with ⟨heq, rfl⟩ | heq
    · rw [heq]
      simpa using hsettled
    · rw [heq]
      change Settled (cut d i base.length) i S base
      rw [hcut]
      exact hbase
  · intro d' hd'
    rcases htraced d' hd' with hnone | rfl | rfl | rfl
    · simp at hnone
    · exact hbefore
    · exact hduring
    · exact hafter

theorem create_synced {payload : Bytes} (hdecodes : Decodes L options ⟨1, payload⟩)
    (h : create P noFaults options payload blank = (.ok live, m)) : Synced P L options m live := by
  have hblank : blank.disk.Linked := ⟨by simp [blank], by simp [blank]⟩
  cases hcheck : checkEncoded options payload with
  | error e =>
      rw [create, hcheck] at h
      cases h
  | ok u =>
  have hstorable : Storable ⟨1, payload⟩ := ⟨by simp, checkEncoded_ok hcheck⟩
  have hsnapshotBytes : encodeSnapshot P 1 payload = .ok (snapshotBytes P ⟨1, payload⟩) :=
    encodeSnapshot_ok hstorable
  rw [create, hcheck, bind_of_ok (lift_run _ _), hsnapshotBytes, bind_of_ok (lift_run _ _)] at h
  obtain ⟨r, m₁, hrun₁, hended₁⟩ : ∃ r m',
      writeAtomic noFaults .snapshotTemp .snapshot (snapshotBytes P ⟨1, payload⟩) blank = (r, m') ∧
      Ended noFaults blank .snapshotTemp .snapshot (snapshotBytes P ⟨1, payload⟩) r m' :=
    writeAtomic_ended hblank (by decide)
  obtain ⟨s, hsnapshot, rfl, -⟩ := hended₁.replaced
  have hlinked₁ : m₁.disk.Linked := hsnapshot.linked hblank (by decide)
  obtain ⟨r, m₂, hrun₂, hended₂⟩ : ∃ r m',
      writeAtomic noFaults .walTemp .wal walHeader m₁ = (r, m') ∧
      Ended noFaults m₁ .walTemp .wal walHeader r m' := writeAtomic_ended hlinked₁ (by decide)
  obtain ⟨k, hwal, rfl, hpast⟩ := hended₂.replaced
  have hreopen : reopenWal noFaults m₂ = (.ok (), { after m₂ m₂.disk with wal := k }) := by
    rw [reopenWal, bind_of_ok (openFile_run (hwal.here (by decide)))]
    rfl
  rw [bind_of_ok hrun₁, bind_of_ok hrun₂, bind_of_ok hreopen] at h
  cases h
  have hother := hwal.other .snapshot (by decide) (by decide)
  have hs : m₁.disk.dir .snapshot = some s := hsnapshot.here (by decide)
  exact ⟨_, _, ⟨hwal.linked hlinked₁ (by decide), hpast,
    ⟨s, hother.1.trans hs, (hother.2 hs).trans hsnapshot.inode⟩, hwal.here (by decide), hwal.inode⟩,
    intact_checkpoint ⟨hstorable, hdecodes⟩, by decide⟩

end Commands

/-! ## Runs -/

section Runs

variable (P : Primitives) {σ : Type} (L : Logical σ) (options : PersistenceOptions)

/-- A disk, and the log handle and live state of the process that has opened it, if one is running.
`acknowledged` is the last state whose commit returned, `inFlight` the one that was being committed
when the process died. -/
structure System where
  disk : Disk FileName
  process : Option (ℕ × Record)
  acknowledged : Record
  inFlight : Option Record

/-- A process may die at any disk its calls go through, the first and the last included. -/
inductive Step : System → System → Prop
  | commit {s : System} {w : ℕ} {live live' : Record} {outcome : Except Error Bytes} {m : Machine} :
      s.process = some (w, live) → (∀ r ∈ candidate live outcome, Decodes L options r) →
      commitCandidate P noFaults options live outcome ⟨s.disk, [], w⟩ = (.ok live', m) →
      Step s ⟨m.disk, some (m.wal, live'), live', none⟩
  | refuse {s : System} {w : ℕ} {live : Record} {outcome : Except Error Bytes} {e : Error}
      {m : Machine} :
      s.process = some (w, live) → (∀ r ∈ candidate live outcome, Decodes L options r) →
      commitCandidate P noFaults options live outcome ⟨s.disk, [], w⟩ = (.error e, m) →
      Step s ⟨m.disk, some (m.wal, live), s.acknowledged, none⟩
  | checkpoint {s : System} {w : ℕ} {live : Record} {r : Except Error Unit} {m : Machine} :
      s.process = some (w, live) → checkpoint P noFaults live ⟨s.disk, [], w⟩ = (r, m) →
      Step s ⟨m.disk, some (m.wal, live), s.acknowledged, none⟩
  | dieInCommit {s : System} {w : ℕ} {live : Record} {outcome : Except Error Bytes}
      {r : Except Error Record} {m : Machine} {d d' : Disk FileName} :
      s.process = some (w, live) → (∀ r ∈ candidate live outcome, Decodes L options r) →
      commitCandidate P noFaults options live outcome ⟨s.disk, [], w⟩ = (r, m) →
      d ∈ m.disk :: m.trace → Crash d d' →
      Step s ⟨d', none, s.acknowledged, candidate live outcome⟩
  | dieInCheckpoint {s : System} {w : ℕ} {live : Record} {r : Except Error Unit} {m : Machine}
      {d d' : Disk FileName} :
      s.process = some (w, live) → Store.checkpoint P noFaults live ⟨s.disk, [], w⟩ = (r, m) →
      d ∈ m.disk :: m.trace → Crash d d' → Step s ⟨d', none, s.acknowledged, none⟩
  | reopen {s : System} {w : ℕ} {state : σ} {m : Machine} :
      s.process = none → openRecovered P noFaults L ⟨s.disk, [], w⟩ = (.ok state, m) →
      Step s ⟨m.disk, some (m.wal, ⟨L.sequence state, L.encode state⟩),
        ⟨L.sequence state, L.encode state⟩, none⟩
  | dieInReopen {s : System} {w : ℕ} {r : Except Error σ} {m : Machine} {d d' : Disk FileName} :
      s.process = none → openRecovered P noFaults L ⟨s.disk, [], w⟩ = (r, m) →
      d ∈ m.disk :: m.trace → Crash d d' → Step s ⟨d', none, s.acknowledged, s.inFlight⟩

inductive Reachable : System → Prop
  | created {payload : Bytes} {live : Record} {m : Machine} : Decodes L options ⟨1, payload⟩ →
      create P noFaults options payload blank = (.ok live, m) →
      Reachable ⟨m.disk, some (m.wal, live), live, none⟩
  | step {s s' : System} : Reachable s → Step P L options s s' → Reachable s'

/-- A running process holds the acknowledged state; without one, the disk stands for it or for the
state in flight. -/
def Sound (s : System) : Prop :=
  match s.process with
  | some (w, live) => live = s.acknowledged ∧ Synced P L options ⟨s.disk, [], w⟩ live
  | none => Stored P L options (fun r => r = s.acknowledged ∨ r ∈ s.inFlight) s.disk

variable {P L options}

theorem Sound.of_running {s : System} {w : ℕ} {live : Record} (h : Sound P L options s)
    (hprocess : s.process = some (w, live)) :
    live = s.acknowledged ∧ Synced P L options ⟨s.disk, [], w⟩ live := by
  rwa [Sound, hprocess] at h

theorem Sound.of_dead {s : System} (h : Sound P L options s) (hprocess : s.process = none) :
    Stored P L options (fun r => r = s.acknowledged ∨ r ∈ s.inFlight) s.disk := by
  rwa [Sound, hprocess] at h

/-- All disks of a machine that started without a trace. -/
theorem traced_all {d₀ d : Disk FileName} {w : ℕ} {m : Machine} {Q : Disk FileName → Prop}
    (h : Traced ⟨d₀, [], w⟩ m Q) (hd : d ∈ m.disk :: m.trace) : Q d :=
  (h d hd).resolve_left (by simp)

theorem Sound.step (hoptions : options.maxWalBytes ≤ HARD_MAX_WAL_BYTES) {s s' : System}
    (h : Sound P L options s) (hstep : Step P L options s s') : Sound P L options s' := by
  cases hstep with
  | commit hprocess hdecodes hrun =>
      obtain ⟨-, hsynced⟩ := h.of_running hprocess
      obtain ⟨r, m, hrun', -, hend⟩ := commitCandidate_run hoptions hsynced hdecodes
      rw [hrun] at hrun'
      cases hrun'
      rcases hend with ⟨live', hlive, hdone⟩ | ⟨⟨e, herror⟩, -⟩
      · cases hlive
        exact ⟨rfl, hdone⟩
      · cases herror
  | refuse hprocess hdecodes hrun =>
      obtain ⟨hlive, hsynced⟩ := h.of_running hprocess
      obtain ⟨r, m, hrun', -, hend⟩ := commitCandidate_run hoptions hsynced hdecodes
      rw [hrun] at hrun'
      cases hrun'
      rcases hend with ⟨live', hlive', -⟩ | ⟨-, hdone⟩
      · cases hlive'
      · exact ⟨hlive, hdone⟩
  | checkpoint hprocess hrun =>
      obtain ⟨hlive, hsynced⟩ := h.of_running hprocess
      obtain ⟨m, hrun', -, hsettled, hintact⟩ := checkpoint_run hsynced
      rw [hrun] at hrun'
      cases hrun'
      exact ⟨hlive, _, _, hsettled, hintact, by decide⟩
  | dieInCommit hprocess hdecodes hrun hd hcrash =>
      obtain ⟨rfl, hsynced⟩ := h.of_running hprocess
      obtain ⟨r, m, hrun', htraced, -⟩ := commitCandidate_run hoptions hsynced hdecodes
      rw [hrun] at hrun'
      cases hrun'
      exact traced_all htraced hd _ hcrash
  | dieInCheckpoint hprocess hrun hd hcrash =>
      obtain ⟨rfl, hsynced⟩ := h.of_running hprocess
      obtain ⟨m, hrun', htraced, -⟩ := checkpoint_run hsynced
      rw [hrun] at hrun'
      cases hrun'
      exact (traced_all htraced hd).mono (fun _ => Or.inl) _ hcrash
  | reopen hprocess hrun =>
      obtain ⟨state, live, m, hrun', -, hstate, hsynced, -⟩ :=
        openRecovered_stored (h.of_dead hprocess)
      rw [hrun] at hrun'
      cases hrun'
      refine ⟨rfl, ?_⟩
      rw [hstate.sequence, hstate.payload]
      exact hsynced
  | dieInReopen hprocess hrun hd hcrash =>
      obtain ⟨state, live, m, hrun', -, -, -, hsafe⟩ := openRecovered_stored (h.of_dead hprocess)
      rw [hrun] at hrun'
      cases hrun'
      exact hsafe _ hd _ hcrash

theorem Reachable.sound (hoptions : options.maxWalBytes ≤ HARD_MAX_WAL_BYTES) {s : System}
    (h : Reachable P L options s) : Sound P L options s := by
  induction h with
  | created hdecodes hrun =>
      have hsynced := create_synced hdecodes hrun
      exact ⟨rfl, hsynced⟩
  | step _ hstep ih => exact ih.step hoptions hstep

theorem crash_safe (hoptions : options.validate = .ok options) {s : System}
    (h : Reachable P L options s) :
    (∀ w live, s.process = some (w, live) → live = s.acknowledged) ∧
      (s.process = none → ∀ w, ∃ state m, openRecovered P noFaults L ⟨s.disk, [], w⟩ = (.ok state, m) ∧
        (Encodes L options state s.acknowledged ∨ ∃ r ∈ s.inFlight, Encodes L options state r)) := by
  have hsound := h.sound (maxWalBytes_le hoptions)
  constructor
  · intro w live hprocess
    exact (hsound.of_running hprocess).1
  · intro hprocess w
    obtain ⟨state, live, m, hrun, hlive, hstate, -⟩ :=
      openRecovered_stored (hsound.of_dead hprocess)
    refine ⟨state, m, hrun, ?_⟩
    rcases hlive with rfl | hlive
    · exact Or.inl hstate
    · exact Or.inr ⟨live, hlive, hstate⟩

/-! ## A process that dies before its record is synchronised -/

def newborn : Machine :=
  (create toy noFaults .default [1] blank).2

def writing : Machine :=
  (commitCandidate toy noFaults .default ⟨1, [1]⟩ (.ok [2]) ⟨newborn.disk, [], newborn.wal⟩).2

/-- The record was written and is lost. -/
def interrupted : System where
  disk := lose (writing.trace.headD writing.disk)
  process := none
  acknowledged := ⟨1, [1]⟩
  inFlight := candidate ⟨1, [1]⟩ (.ok [2])

theorem interrupted_reachable : Reachable toy (plain .default) .default interrupted := by
  have hcreate : create toy noFaults .default [1] blank = (.ok ⟨1, [1]⟩, newborn) :=
    run_eq (by decide +kernel)
  have hcommit : commitCandidate toy noFaults .default ⟨1, [1]⟩ (.ok [2])
      ⟨newborn.disk, [], newborn.wal⟩ = (_, writing) := Prod.mk.eta.symm
  have hdisk : writing.trace.headD writing.disk ∈ writing.disk :: writing.trace := by
    cases writing.trace with
    | nil => exact List.mem_cons_self
    | cons d ds => exact List.mem_cons_of_mem _ List.mem_cons_self
  exact .step (.created (plain_decodes _ _) hcreate)
    (.dieInCommit rfl (fun r _ => plain_decodes _ r) hcommit hdisk (crash_lose _))

theorem interrupted_reopens :
    ∃ state m, openRecovered toy noFaults (plain .default) ⟨interrupted.disk, [], 0⟩ = (.ok state, m) ∧
      (Encodes (plain .default) .default state ⟨1, [1]⟩ ∨
        ∃ r ∈ some ⟨2, [2]⟩, Encodes (plain .default) .default state r) :=
  (crash_safe rfl interrupted_reachable).2 rfl 0

end Runs

end CausalFrontierRatchet.CrashSafety
