import CausalFrontierRatchet.Commands
import CausalFrontierRatchet.FileSystem
import CausalFrontierRatchet.StoreFormat

/-!
The store of a persistent conference as commands on a file system.  Every call may fail: a plan says
which call sites do.  A site is reached at most once in a command, so a plan is all the ways in which
the calls of one command can fail.

The state directory exists and is locked; its permissions are not modelled.  A logical state is known
here by the record that encodes it.
-/

namespace CausalFrontierRatchet.Store

open BigEndian Crypto Commands FileSystem StoreFormat

inductive FileName
  | snapshot
  | snapshotTemp
  | wal
  | walTemp
deriving DecidableEq, Repr

/-! ## Options -/

/-- Resource and compaction settings persisted with the conference. -/
structure PersistenceOptions where
  inboundWindow : ℕ
  maxOutboxEntries : ℕ
  maxStateBytes : ℕ
  maxRecordBytes : ℕ
  maxWalBytes : ℕ
  checkpointThreshold : ℕ
deriving DecidableEq, Repr

def PersistenceOptions.default : PersistenceOptions where
  inboundWindow := 4096
  maxOutboxEntries := 1024
  maxStateBytes := HARD_MAX_STATE_BYTES
  maxRecordBytes := HARD_MAX_STATE_BYTES
  maxWalBytes := HARD_MAX_WAL_BYTES
  checkpointThreshold := 32 * 1024 * 1024

def PersistenceOptions.validate (o : PersistenceOptions) : Except Error PersistenceOptions :=
  if o.inboundWindow = 0 ∨ MAX_WINDOW_ENTRIES < o.inboundWindow then
    .error (.invalidOptions "inbound window is out of range")
  else if o.maxOutboxEntries = 0 ∨ MAX_WINDOW_ENTRIES < o.maxOutboxEntries then
    .error (.invalidOptions "outbox limit is out of range")
  else if o.maxStateBytes = 0 ∨ HARD_MAX_STATE_BYTES < o.maxStateBytes then
    .error (.invalidOptions "state limit is out of range")
  else if o.maxRecordBytes = 0 ∨ HARD_MAX_STATE_BYTES < o.maxRecordBytes then
    .error (.invalidOptions "record limit is out of range")
  else if o.maxWalBytes = 0 ∨ HARD_MAX_WAL_BYTES < o.maxWalBytes then
    .error (.invalidOptions "WAL limit is out of range")
  else if o.checkpointThreshold = 0 ∨ o.maxWalBytes < o.checkpointThreshold then
    .error (.invalidOptions "checkpoint threshold exceeds WAL limit")
  else .ok o

/-! ## Calls -/

/-- The places where the store calls the file system. -/
inductive Site
  | openTemp (file : FileName)
  | writeTemp (file : FileName)
  | syncTemp (file : FileName)
  | rename (file : FileName)
  | syncDirectory (file : FileName)
  | openWal
  | metadata
  | seek
  | write
  | syncData
  | rollbackLen
  | rollbackSync
  | rollbackSeek
  | readWal
  | cutWal
  | syncCut
  | readSnapshot
deriving DecidableEq, Repr

/-- The sites whose call returns an error.  A write that fails has put the given number of bytes into
the file by then; nothing else that fails has an effect. -/
abbrev Plan := Site → Option ℕ

def noFaults : Plan := fun _ => none

/-- A process with a disk.  `trace` is the disks between its calls, latest first. -/
structure Machine where
  disk : Disk FileName
  trace : List (Disk FileName)
  /-- The inode the store's log handle refers to. -/
  wal : ℕ

section Calls

variable (plan : Plan)

def interruptible {α : Type} (site : Site) (effect : Disk FileName → α × Disk FileName)
    (torn : ℕ → Disk FileName → Disk FileName) : Cmd Error Machine α := fun m =>
  match plan site with
  | none => (.ok (effect m.disk).1, { m with disk := (effect m.disk).2, trace := m.disk :: m.trace })
  | some n => (.error .io, { m with disk := torn n m.disk, trace := m.disk :: m.trace })

/-- A call without effect if it fails. -/
def call {α : Type} (site : Site) (effect : Disk FileName → α × Disk FileName) :
    Cmd Error Machine α :=
  interruptible plan site effect fun _ d => d

def writeAll (site : Site) (file : ℕ) (bytes : Bytes) : Cmd Error Machine Unit :=
  interruptible plan site (fun d => ((), d.append file bytes)) fun n d => d.append file (bytes.take n)

def sync (site : Site) (file : ℕ) : Cmd Error Machine Unit :=
  call plan site fun d => ((), d.sync file)

def setLen (site : Site) (file n : ℕ) : Cmd Error Machine Unit :=
  call plan site fun d => ((), d.setLen file n)

def openFile (site : Site) (name : FileName) : Cmd Error Machine ℕ := do
  let m ← get
  match m.disk.dir name with
  | some file => call plan site fun d => (file, d)
  | none => throw .io

/-- The whole file, or nothing if it does not exist. -/
def readBounded (site : Site) (name : FileName) (limit : ℕ) : Cmd Error Machine (Option Bytes) := do
  let m ← get
  match m.disk.contents name with
  | none => pure none
  | some bytes =>
      if limit < bytes.length then throw (.corrupt "persisted file exceeds hard limit")
      else call plan site fun d => (some bytes, d)

def writeAtomic (temporary committed : FileName) (bytes : Bytes) : Cmd Error Machine Unit := do
  let file ← call plan (.openTemp committed) fun d => d.openTruncated temporary
  writeAll plan (.writeTemp committed) file bytes
  sync plan (.syncTemp committed) file
  call plan (.rename committed) fun d => ((), d.rename temporary committed)
  call plan (.syncDirectory committed) fun d => ((), d.syncDirectory)

/-- The length of the log behind the store's handle. -/
def walLength : Cmd Error Machine ℕ := do
  let m ← get
  call plan .metadata fun d => ((d.inodes m.wal).data.length, d)

end Calls

/-! ## Writing -/

section Writing

variable (P : Primitives) (plan : Plan) (options : PersistenceOptions)

def reopenWal : Cmd Error Machine Unit := do
  let wal ← openFile plan .openWal .wal
  modify fun m => { m with wal }

/-- Replaces the snapshot, then the log by an empty one. -/
def checkpoint (current : Record) : Cmd Error Machine Unit := do
  if HARD_MAX_STATE_BYTES < current.payload.length then
    throw (.limitExceeded "snapshot exceeds hard limit")
  let snapshot ← (encodeSnapshot P current.sequence current.payload : Except Error Bytes)
  writeAtomic plan .snapshotTemp .snapshot snapshot
  writeAtomic plan .walTemp .wal walHeader
  reopenWal plan

/-- Undoes an append and reports the original error. -/
def rollbackAppend (originalLength : ℕ) (original : Error) : Cmd Error Machine Unit := do
  let m ← get
  setLen plan .rollbackLen m.wal originalLength
  sync plan .rollbackSync m.wal
  call plan .rollbackSeek fun d => ((), d)
  throw original

def appendDurable (originalLength : ℕ) (record : Bytes) : Cmd Error Machine Unit := do
  let m ← get
  call plan .seek fun d => ((), d)
  match ← attempt (writeAll plan .write m.wal record) with
  | .error e => rollbackAppend plan originalLength e
  | .ok _ =>
      match ← attempt (sync plan .syncData m.wal) with
      | .error e => rollbackAppend plan originalLength e
      | .ok _ => pure ()

/-- Checkpoints first if the record would take the log over its threshold; the length of the log
afterwards. -/
def makeRoom (current : Record) (length recordLength : ℕ) : Cmd Error Machine ℕ :=
  if options.checkpointThreshold < length + recordLength ∨
      options.maxWalBytes < length + recordLength then do
    checkpoint P plan current
    pure WAL_HEADER_LEN
  else pure length

def append (current candidate : Record) : Cmd Error Machine Unit := do
  if current.sequence.toNat + 1 ≠ candidate.sequence.toNat then
    throw (.corrupt "candidate sequence is not consecutive")
  if options.maxRecordBytes < candidate.payload.length ∨
      HARD_MAX_STATE_BYTES < candidate.payload.length then
    throw (.limitExceeded "WAL record exceeds configured limit")
  let record ← (encodeRecord P candidate.sequence candidate.payload : Except Error Bytes)
  let length ← walLength plan
  if 2 ^ 64 ≤ length + record.length then throw (.limitExceeded "WAL length overflow")
  let length ← makeRoom P plan options current length record.length
  if options.maxWalBytes < length + record.length then
    throw (.limitExceeded "one WAL record cannot fit configured limit")
  appendDurable plan length record

/-- The size limits of an encoded logical state. -/
def checkEncoded (payload : Bytes) : Except Error Unit :=
  if options.maxStateBytes < payload.length ∨ HARD_MAX_STATE_BYTES < payload.length then
    .error (.limitExceeded "logical state exceeds configured limit")
  else if options.maxRecordBytes < payload.length then
    .error (.limitExceeded "WAL record exceeds configured limit")
  else .ok ()

/-- Commits what an operation made of the live state: `outcome` is its error, or the payload of the
candidate.  The result is the new live state; after an error the old one stays. -/
def commitCandidate (live : Record) (outcome : Except Error Bytes) : Cmd Error Machine Record := do
  let payload ← outcome
  if live.sequence.toNat + 1 = 2 ^ 64 then
    throw (.limitExceeded "transaction sequence exhausted")
  let _ ← (checkEncoded options payload : Except Error Unit)
  append P plan options live ⟨live.sequence + 1, payload⟩
  pure ⟨live.sequence + 1, payload⟩

/-- The store of a new conference. -/
def create (payload : Bytes) : Cmd Error Machine Record := do
  let _ ← (checkEncoded options payload : Except Error Unit)
  let snapshot ← (encodeSnapshot P 1 payload : Except Error Bytes)
  writeAtomic plan .snapshotTemp .snapshot snapshot
  writeAtomic plan .walTemp .wal walHeader
  reopenWal plan
  pure ⟨1, payload⟩

end Writing

/-! ## Opening -/

/-- How states are encoded and decoded, and what the store reads in a decoded state. -/
structure Logical (σ : Type) where
  encode : σ → Bytes
  decode : Bytes → UInt64 → Except Error σ
  sequence : σ → UInt64
  options : σ → PersistenceOptions

section Opening

variable (P : Primitives) (plan : Plan) {σ : Type} (L : Logical σ)

def readWal : Cmd Error Machine Bytes := do
  match ← readBounded plan .readWal .wal HARD_MAX_WAL_BYTES with
  | some bytes => pure bytes
  | none => throw (.corrupt "WAL file is missing")

def readSnapshot : Cmd Error Machine SnapshotStatus := do
  match ← attempt (readBounded plan .readSnapshot .snapshot
      (HARD_MAX_STATE_BYTES + SNAPSHOT_OVERHEAD)) with
  | .ok (some bytes) => (parseSnapshot P bytes : Except Error SnapshotStatus)
  | .ok none => pure .missing
  | .error (.corrupt _) => pure .corrupt
  | .error e => throw e

/-- Cuts an incomplete tail off the log. -/
def cutTail (wal validLength length : ℕ) : Cmd Error Machine Unit :=
  if validLength ≠ length then do
    setLen plan .cutWal wal validLength
    sync plan .syncCut wal
  else pure ()

def openStore : Cmd Error Machine Recovery := do
  let bytes ← readWal plan
  let scanned ← (scanWal P bytes : Except Error (List Record × ℕ))
  let wal ← openFile plan .openWal .wal
  cutTail plan wal scanned.2 bytes.length
  let snapshot ← readSnapshot P plan
  modify fun m => { m with wal }
  pure ⟨snapshot, scanned.1⟩

/-- The loop of `selectRecovered`: older records are skipped, one at the snapshot's sequence has to
agree with it, later ones have to be consecutive. -/
def selectFrom (snapshotRecord : Record) (selected : σ) : List (σ × Record) → Except Error σ
  | [] => .ok selected
  | (state, record) :: rest =>
      if L.sequence state < L.sequence selected then selectFrom snapshotRecord selected rest
      else if L.sequence state = L.sequence selected then
        if L.sequence state = snapshotRecord.sequence ∧ record.payload ≠ snapshotRecord.payload then
          .error (.corrupt "snapshot and WAL disagree at one sequence")
        else selectFrom snapshotRecord selected rest
      else if L.sequence state ≠ L.sequence selected + 1 then
        .error (.corrupt "WAL sequence has a gap after snapshot")
      else selectFrom snapshotRecord state rest

def selectRecovered (snapshot : Option (σ × Record)) (wal : List (σ × Record)) : Except Error σ :=
  match snapshot with
  | some (selected, record) => selectFrom L record selected wal
  | none =>
      match wal.getLast? with
      | some (state, _) => .ok state
      | none => .error (.corrupt "no valid complete persisted state")

/-- A snapshot that does not decode is as good as none, unless its version is unknown. -/
def decodeSnapshot : SnapshotStatus → Except Error (Option (σ × Record))
  | .valid record =>
      match L.decode record.payload record.sequence with
      | .ok state => .ok (some (state, record))
      | .error (.unsupportedVersion kind found) => .error (.unsupportedVersion kind found)
      | .error _ => .ok none
  | .missing | .corrupt => .ok none

def decodeRecord (record : Record) : Except Error (σ × Record) := do
  let state ← L.decode record.payload record.sequence
  .ok (state, record)

def recover (recovery : Recovery) : Except Error σ := do
  let snapshot ← decodeSnapshot L recovery.snapshot
  let wal ← recovery.wal.mapM (decodeRecord L)
  selectRecovered L snapshot wal

/-- Opens the store and recovers the logical state. -/
def openRecovered : Cmd Error Machine σ := do
  let recovery ← openStore P plan
  (recover L recovery : Except Error σ)

/-- Opens a conference: the log may not exceed the limit that the recovered state carries. -/
def openConference : Cmd Error Machine σ := do
  let state ← openRecovered P plan L
  let length ← walLength plan
  if (L.options state).maxWalBytes < length then throw (.corrupt "WAL exceeds its persisted limit")
  pure state

end Opening

end CausalFrontierRatchet.Store
