import CausalFrontierRatchet.Recovery

/-!
What the commands of the store do to the disk, whichever of their calls fail: one lemma for a call
that succeeds, one for a call that fails, and the outcome of replacing a file and of opening the
store.
-/

namespace CausalFrontierRatchet.StoreCalls

open BigEndian Crypto Commands FileSystem StoreFormat WalScan Store Recovery

/-! ## Single calls -/

section Calls

variable {plan : Plan} {site : Site} {α β : Type} {m : Machine}

/-- The machine after a call that left the disk `d`. -/
def after (m : Machine) (d : Disk FileName) : Machine :=
  { m with disk := d, trace := m.disk :: m.trace }

@[simp] theorem after_disk (m : Machine) (d : Disk FileName) : (after m d).disk = d := rfl

@[simp] theorem after_trace (m : Machine) (d : Disk FileName) :
    (after m d).trace = m.disk :: m.trace := rfl

theorem call_ok {effect : Disk FileName → α × Disk FileName} (h : plan site = none) :
    call plan site effect m = (.ok (effect m.disk).1, after m (effect m.disk).2) := by
  rw [call, interruptible, h]
  rfl

theorem call_error {effect : Disk FileName → α × Disk FileName} {n : ℕ} (h : plan site = some n) :
    call plan site effect m = (.error .io, after m m.disk) := by
  rw [call, interruptible, h]
  rfl

theorem writeAll_ok {file : ℕ} {bytes : Bytes} (h : plan site = none) :
    writeAll plan site file bytes m = (.ok (), after m (m.disk.append file bytes)) := by
  rw [writeAll, interruptible, h]
  rfl

theorem writeAll_error {file n : ℕ} {bytes : Bytes} (h : plan site = some n) :
    writeAll plan site file bytes m = (.error .io, after m (m.disk.append file (bytes.take n))) := by
  rw [writeAll, interruptible, h]
  rfl

theorem bind_of_ok {c : Cmd Error Machine α} {f : α → Cmd Error Machine β} {a : α} {m' : Machine}
    (h : c m = (.ok a, m')) : (c >>= f) m = f a m' := by
  rw [bind_run, h]

theorem bind_of_error {c : Cmd Error Machine α} {f : α → Cmd Error Machine β} {e : Error}
    {m' : Machine} (h : c m = (.error e, m')) : (c >>= f) m = (.error e, m') := by
  rw [bind_run, h]

/-- Every disk since the machine `m₀` has a property. -/
def Traced (m₀ m : Machine) (Q : Disk FileName → Prop) : Prop :=
  ∀ d ∈ m.disk :: m.trace, d ∈ m₀.trace ∨ Q d

variable {m₀ : Machine} {Q Q' : Disk FileName → Prop}

theorem traced_start (h : Q m.disk) : Traced m m Q := by
  intro d hd
  rw [List.mem_cons] at hd
  rcases hd with rfl | hd
  · exact Or.inr h
  · exact Or.inl hd

theorem Traced.after (h : Traced m₀ m Q) {d : Disk FileName} (hd : Q d) :
    Traced m₀ (after m d) Q := by
  intro d' hd'
  rw [after_disk, after_trace, List.mem_cons] at hd'
  rcases hd' with rfl | hd'
  · exact Or.inr hd
  · exact h d' hd'

theorem Traced.trans {m₁ : Machine} (h : Traced m₀ m₁ Q) (h' : Traced m₁ m Q) : Traced m₀ m Q := by
  intro d hd
  rcases h' d hd with hold | hnew
  · exact h d (List.mem_cons_of_mem _ hold)
  · exact Or.inr hnew

theorem Traced.mono (h : Traced m₀ m Q) (hQ : ∀ d, Q d → Q' d) : Traced m₀ m Q' := by
  intro d hd
  exact (h d hd).imp_right (hQ d)

end Calls

/-! ## Limits -/

section Limits

variable {P : Primitives} {options : PersistenceOptions}

theorem encodeSnapshot_ok {r : Record} (hr : Storable r) :
    encodeSnapshot P r.sequence r.payload = .ok (snapshotBytes P r) := by
  have hlimit : r.payload.length ≤ 4 * 1024 * 1024 := hr.2
  rw [encodeSnapshot, if_neg (by omega), if_neg (by rw [SNAPSHOT_OVERHEAD, SNAPSHOT_PREFIX_LEN]; omega)]

theorem encodeRecord_ok {r : Record} (hr : Storable r) :
    encodeRecord P r.sequence r.payload = .ok (recordBytes P r) := by
  have hlimit : r.payload.length ≤ 4 * 1024 * 1024 := hr.2
  rw [encodeRecord, if_neg (by omega), if_neg (by rw [RECORD_OVERHEAD, RECORD_PREFIX_LEN]; omega)]

theorem checkEncoded_ok {payload : Bytes} (h : checkEncoded options payload = .ok ()) :
    payload.length ≤ HARD_MAX_STATE_BYTES := by
  unfold checkEncoded at h
  split at h
  · cases h
  · omega

theorem succ_toNat {sequence : UInt64} (h : sequence.toNat + 1 ≠ 2 ^ 64) :
    (sequence + 1).toNat = sequence.toNat + 1 := by
  have hlt := sequence.toNat_lt
  rw [UInt64.toNat_add, UInt64.toNat_one, Nat.mod_eq_of_lt (by omega)]

theorem maxWalBytes_le (h : options.validate = .ok options) :
    options.maxWalBytes ≤ HARD_MAX_WAL_BYTES := by
  unfold PersistenceOptions.validate at h
  split_ifs at h
  omega

end Limits

/-! ## Replacing a file -/

section AtomicWrite

variable {plan : Plan} {m : Machine} {temporary committed : FileName} {bytes : Bytes}

/-- The disks a replacement goes through. -/
def Passing (d₀ : Disk FileName) (temporary committed : FileName) (bytes : Bytes)
    (d : Disk FileName) : Prop :=
  d = d₀ ∨ (∃ k node, Staged d₀ d temporary k node) ∨
    ∃ k, Replaced d₀ d temporary committed k ⟨bytes, bytes⟩

/-- How a replacement ends: with an error before the rename, or with the file replaced, where only
the synchronisation of the directory can still fail. -/
structure Ended (plan : Plan) (m : Machine) (temporary committed : FileName) (bytes : Bytes)
    (r : Except Error Unit) (m' : Machine) : Prop where
  wal : m'.wal = m.wal
  trace : Traced m m' (Passing m.disk temporary committed bytes)
  outcome : (r = .error .io ∧ (∃ site, plan site ≠ none) ∧
      (m'.disk = m.disk ∨ ∃ k node, Staged m.disk m'.disk temporary k node)) ∨
    ∃ k, Replaced m.disk m'.disk temporary committed k ⟨bytes, bytes⟩ ∧
      ((plan (.syncDirectory committed) = none ∧ r = .ok () ∧ m'.disk.past = []) ∨
        (plan (.syncDirectory committed) ≠ none ∧ r = .error .io))

theorem writeAtomic_ended (hlinked : m.disk.Linked) (hne : committed ≠ temporary) :
    ∃ r m', writeAtomic plan temporary committed bytes m = (r, m') ∧
      Ended plan m temporary committed bytes r m' := by
  obtain ⟨synced, hopen⟩ := staged_openTruncated hlinked temporary
  have hwrite := hopen.append bytes
  have hsync := hwrite.sync
  have hrename := hsync.rename hne
  have hstaged : ∀ {d k node}, Staged m.disk d temporary k node →
      Passing m.disk temporary committed bytes d := fun h => Or.inr (Or.inl ⟨_, _, h⟩)
  have htrace₀ : Traced m m (Passing m.disk temporary committed bytes) := traced_start (Or.inl rfl)
  have hfault : ∀ {site n}, plan site = some n → ∃ site, plan site ≠ none := by
    intro site n h
    exact ⟨site, by simp [h]⟩
  rw [writeAtomic]
  cases h₁ : plan (.openTemp committed) with
  | some n =>
      exact ⟨_, _, bind_of_error (call_error h₁), rfl, htrace₀.after (Or.inl rfl),
        Or.inl ⟨rfl, hfault h₁, Or.inl rfl⟩⟩
  | none =>
  rw [bind_of_ok (call_ok h₁)]
  have htrace₁ := htrace₀.after (hstaged hopen)
  cases h₂ : plan (.writeTemp committed) with
  | some n =>
      have htorn := hopen.append (bytes.take n)
      exact ⟨_, _, bind_of_error (writeAll_error h₂), rfl, htrace₁.after (hstaged htorn),
        Or.inl ⟨rfl, hfault h₂, Or.inr ⟨_, _, htorn⟩⟩⟩
  | none =>
  rw [bind_of_ok (writeAll_ok h₂)]
  have htrace₂ := htrace₁.after (hstaged hwrite)
  cases h₃ : plan (.syncTemp committed) with
  | some n =>
      exact ⟨_, _, bind_of_error (call_error h₃), rfl, htrace₂.after (hstaged hwrite),
        Or.inl ⟨rfl, hfault h₃, Or.inr ⟨_, _, hwrite⟩⟩⟩
  | none =>
  rw [Store.sync, bind_of_ok (call_ok h₃)]
  have htrace₃ := htrace₂.after (hstaged hsync)
  cases h₄ : plan (.rename committed) with
  | some n =>
      exact ⟨_, _, bind_of_error (call_error h₄), rfl, htrace₃.after (hstaged hsync),
        Or.inl ⟨rfl, hfault h₄, Or.inr ⟨_, _, hsync⟩⟩⟩
  | none =>
  rw [bind_of_ok (call_ok h₄)]
  have htrace₄ := htrace₃.after (Or.inr (Or.inr ⟨_, hrename⟩))
  cases h₅ : plan (.syncDirectory committed) with
  | some n =>
      exact ⟨_, _, call_error h₅, rfl, htrace₄.after (Or.inr (Or.inr ⟨_, hrename⟩)),
        Or.inr ⟨_, hrename, Or.inr ⟨by simp [h₅], rfl⟩⟩⟩
  | none =>
      exact ⟨_, _, call_ok h₅, rfl, htrace₄.after (Or.inr (Or.inr ⟨_, hrename.syncDirectory⟩)),
        Or.inr ⟨_, hrename.syncDirectory, Or.inl ⟨h₅, rfl, rfl⟩⟩⟩

/-- Without faults a replacement succeeds. -/
theorem Ended.replaced {temporary committed : FileName} {bytes : Bytes} {r : Except Error Unit}
    {m' : Machine} (h : Ended noFaults m temporary committed bytes r m') :
    ∃ k, Replaced m.disk m'.disk temporary committed k ⟨bytes, bytes⟩ ∧ r = .ok () ∧
      m'.disk.past = [] := by
  rcases h.outcome with ⟨-, ⟨site, hsite⟩, -⟩ | ⟨k, hreplaced, ⟨-, hr, hpast⟩ | ⟨hfault, -⟩⟩
  · exact absurd rfl hsite
  · exact ⟨k, hreplaced, hr, hpast⟩
  · exact absurd rfl hfault

end AtomicWrite

/-! ## Opening -/

section Opening

variable {P : Primitives} {σ : Type} {L : Logical σ} {options : PersistenceOptions} {m : Machine}
  {s i : ℕ} {S W : Bytes} {live : Record}

theorem readWal_run (hwal : m.disk.dir .wal = some i) (hW : (m.disk.inodes i).data = W)
    (hlimit : W.length ≤ HARD_MAX_WAL_BYTES) :
    readWal noFaults m = (.ok W, after m m.disk) := by
  have hcontents : m.disk.contents .wal = some W := by rw [Disk.contents, hwal, ← hW]; rfl
  have hread : readBounded noFaults .readWal .wal HARD_MAX_WAL_BYTES m =
      (.ok (some W), after m m.disk) := by
    rw [readBounded, bind_of_ok (get_run m), hcontents]
    simp only [if_neg (Nat.not_lt.mpr hlimit)]
    exact call_ok rfl
  rw [readWal, bind_of_ok hread]
  rfl

theorem readSnapshot_run {snap : Record} (hsnap : m.disk.dir .snapshot = some s)
    (hS : (m.disk.inodes s).data = snapshotBytes P snap) (hstorable : Storable snap) :
    readSnapshot P noFaults m = (.ok (.valid snap), after m m.disk) := by
  have hcontents : m.disk.contents .snapshot = some (snapshotBytes P snap) := by
    rw [Disk.contents, hsnap, ← hS]
    rfl
  have hlimit : ¬HARD_MAX_STATE_BYTES + SNAPSHOT_OVERHEAD < (snapshotBytes P snap).length := by
    have hpayload := hstorable.2
    rw [snapshotBytes_length]
    omega
  have hread : readBounded noFaults .readSnapshot .snapshot
      (HARD_MAX_STATE_BYTES + SNAPSHOT_OVERHEAD) m =
      (.ok (some (snapshotBytes P snap)), after m m.disk) := by
    rw [readBounded, bind_of_ok (get_run m), hcontents]
    simp only [if_neg hlimit]
    exact call_ok rfl
  rw [readSnapshot, bind_of_ok (attempt_run _ _), hread]
  simp only
  rw [parseSnapshot_snapshotBytes hstorable]
  rfl

theorem openFile_run {site : Site} {name : FileName} (hname : m.disk.dir name = some i) :
    openFile noFaults site name m = (.ok i, after m m.disk) := by
  rw [openFile, bind_of_ok (get_run m), hname]
  exact call_ok rfl

/-- The log after its tail was cut off. -/
def cut (d : Disk FileName) (i length : ℕ) : Disk FileName :=
  (d.setLen i length).sync i

theorem cut_other (d : Disk FileName) {j : ℕ} (h : j ≠ i) (length : ℕ) :
    (cut d i length).inodes j = d.inodes j := by
  rw [cut, Disk.sync, Disk.put_other _ h, Disk.setLen, Disk.put_other _ h]

theorem cut_self {d : Disk FileName} {base tail : Bytes} (h : (d.inodes i).data = base ++ tail) :
    (cut d i base.length).inodes i = ⟨base, base⟩ := by
  rw [cut, Disk.sync, Disk.put_self, Disk.setLen, Disk.put_self, h]
  simp

theorem cutTail_run (base tail : Bytes) :
    ∃ m', cutTail noFaults i base.length (base ++ tail).length m = (.ok (), m') ∧ m'.wal = m.wal ∧
      Traced m m' (fun d => d = m.disk ∨ d = m.disk.setLen i base.length ∨
        d = cut m.disk i base.length) ∧
      (m'.disk = m.disk ∧ tail = [] ∨ m'.disk = cut m.disk i base.length) := by
  by_cases htail : tail = []
  · subst htail
    refine ⟨m, ?_, rfl, traced_start (Or.inl rfl), Or.inl ⟨rfl, rfl⟩⟩
    rw [cutTail, if_neg (by simp)]
    rfl
  · have hne : base.length ≠ (base ++ tail).length := by
      simpa using htail
    refine ⟨after (after m (m.disk.setLen i base.length)) (cut m.disk i base.length), ?_, rfl,
      ((traced_start (Or.inl rfl)).after (Or.inr (Or.inl rfl))).after (Or.inr (Or.inr rfl)),
      Or.inr rfl⟩
    rw [cutTail, if_pos hne, Store.setLen, bind_of_ok (call_ok rfl)]
    exact call_ok rfl

/-- Opening reads the snapshot and the complete records, and cuts off what follows them. -/
theorem openStore_run {snap : Record} {records : List Record} {tail : Bytes}
    (hwal : m.disk.dir .wal = some i) (hW : (m.disk.inodes i).data = walBytes P records ++ tail)
    (hsnap : m.disk.dir .snapshot = some s) (hS : (m.disk.inodes s).data = snapshotBytes P snap)
    (hne : s ≠ i) (hlimit : (walBytes P records ++ tail).length ≤ HARD_MAX_WAL_BYTES)
    (hstorable : Storable snap) (hrecords : ∀ r ∈ records, Storable r)
    (hrun : Consecutive none records) (htail : Incomplete tail) :
    ∃ m', openStore P noFaults m = (.ok ⟨.valid snap, records⟩, m') ∧ m'.wal = i ∧
      Traced m m' (fun d => d = m.disk ∨ d = m.disk.setLen i (walBytes P records).length ∨
        d = cut m.disk i (walBytes P records).length) ∧
      (m'.disk = m.disk ∧ tail = [] ∨ m'.disk = cut m.disk i (walBytes P records).length) := by
  have hscan : scanWal P (walBytes P records ++ tail) = .ok (records, (walBytes P records).length) :=
    scanWal_iff.mpr ⟨tail, rfl, ⟨hrecords, hrun⟩, htail, rfl⟩
  obtain ⟨m₁, hcut, hwal₁, htrace, hdisk⟩ :=
    cutTail_run (m := after (after m m.disk) m.disk) (i := i) (walBytes P records) tail
  rw [after_disk] at htrace hdisk
  have hsnap₁ : m₁.disk.dir .snapshot = some s ∧ (m₁.disk.inodes s).data = snapshotBytes P snap := by
    rcases hdisk with ⟨heq, -⟩ | heq
    · rw [heq, hsnap, hS]
      exact ⟨rfl, rfl⟩
    · rw [heq, cut_other _ hne, hS]
      exact ⟨hsnap, rfl⟩
  have hstart : Traced m (after (after m m.disk) m.disk) (fun d => d = m.disk ∨
      d = m.disk.setLen i (walBytes P records).length ∨
      d = cut m.disk i (walBytes P records).length) :=
    ((traced_start (Or.inl rfl)).after (Or.inl rfl)).after (Or.inl rfl)
  refine ⟨{ after m₁ m₁.disk with wal := i }, ?_, rfl, ?_, hdisk⟩
  · have hopen : openFile noFaults .openWal .wal (after m m.disk) =
        (.ok i, after (after m m.disk) m.disk) := openFile_run hwal
    rw [openStore, bind_of_ok (readWal_run hwal hW hlimit), hscan, bind_of_ok (lift_run _ _),
      bind_of_ok hopen, bind_of_ok hcut,
      bind_of_ok (readSnapshot_run hsnap₁.1 hsnap₁.2 hstorable)]
    rfl
  · exact (hstart.trans htrace).after (hdisk.imp (fun h => h.1) fun h => Or.inr h)

/-- Opening finds the live state and cuts off what follows it in the log. -/
theorem openRecovered_run (hwal : m.disk.dir .wal = some i) (hW : (m.disk.inodes i).data = W)
    (hsnap : m.disk.dir .snapshot = some s) (hS : (m.disk.inodes s).data = S) (hne : s ≠ i)
    (hlimit : W.length ≤ HARD_MAX_WAL_BYTES) (h : Recovers P L options S W live) :
    ∃ base tail state m', W = base ++ tail ∧ Incomplete tail ∧ Intact P L options S base live ∧
      openRecovered P noFaults L m = (.ok state, m') ∧
      Encodes L options state live ∧ m'.wal = i ∧
      Traced m m' (fun d => d = m.disk ∨ d = m.disk.setLen i base.length ∨
        d = cut m.disk i base.length) ∧
      (m'.disk = m.disk ∧ tail = [] ∨ m'.disk = cut m.disk i base.length) := by
  obtain ⟨base, tail, rfl, htail, hintact⟩ := h
  obtain ⟨snap, earlier, later, hS', rfl, hcodable, hall, hrun, hlater, hearlier, hlive⟩ := id hintact
  obtain ⟨state, hrecover, hdecode⟩ := recover_intact hcodable hall hrun hlater hearlier hlive
  have hstate : Encodes L options state live := by
    obtain ⟨state', hdecode', hstate'⟩ := hintact.codable.decodes
    rw [hdecode] at hdecode'
    cases hdecode'
    exact hstate'
  obtain ⟨m', hstore, hwal', htrace, hdisk⟩ := openStore_run hwal hW hsnap (hS.trans hS') hne hlimit
    hcodable.storable (fun r hr => (hall r hr).storable) hrun htail
  refine ⟨walBytes P (earlier ++ later), tail, state, m', rfl, htail, hintact, ?_, hstate, hwal',
    htrace, hdisk⟩
  rw [openRecovered, bind_of_ok hstore, hrecover]
  rfl

end Opening

/-! ## A store to start from -/

section Start

/-- An empty directory. -/
def blank : Machine where
  disk := { inodes := fun _ => ⟨[], []⟩, next := 0, dir := fun _ => none, past := [] }
  trace := []
  wal := 0

/-- Payloads taken for the states they encode. -/
def plain (options : PersistenceOptions) : Logical Record where
  encode := Record.payload
  decode payload sequence := .ok ⟨sequence, payload⟩
  sequence := Record.sequence
  options _ := options

theorem plain_decodes (options : PersistenceOptions) (r : Record) : Decodes (plain options) options r :=
  ⟨r, rfl, rfl, rfl, rfl⟩

theorem run_eq {α : Type} {c : Cmd Error Machine α} {m : Machine} {a : α}
    (h : (c m).1.toOption = some a) : c m = (.ok a, (c m).2) := by
  rcases hrun : c m with ⟨e | a', m'⟩
  · rw [hrun] at h
    cases h
  · rw [hrun] at h
    cases h
    rfl

end Start

end CausalFrontierRatchet.StoreCalls
