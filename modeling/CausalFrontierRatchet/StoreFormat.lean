import CausalFrontierRatchet.Crypto

/-!
The files of a persistent conference: a snapshot, and a write-ahead log of full states.  Machine
words are 64 bits wide, so the conversions between `u64` and `usize` never fail.
-/

namespace CausalFrontierRatchet.StoreFormat

open BigEndian Crypto

inductive VersionKind
  | persistenceSchema
  | storeEnvelope
deriving DecidableEq, Repr

/-- Errors of the persistence boundary. -/
inductive Error
  | notFound
  | alreadyExists
  | locked
  | corrupt (reason : String)
  | unsupportedVersion (kind : VersionKind) (found : UInt32)
  | limitExceeded (reason : String)
  | invalidOptions (reason : String)
  | io
deriving DecidableEq, Repr

def HARD_MAX_STATE_BYTES : ℕ := 4 * 1024 * 1024
def HARD_MAX_WAL_BYTES : ℕ := 64 * 1024 * 1024
def MAX_WINDOW_ENTRIES : ℕ := 65536

def STORE_FORMAT_VERSION : UInt32 := 1

/-- The bytes of `CFRSNAP\0`. -/
def SNAPSHOT_MAGIC : Bytes := [67, 70, 82, 83, 78, 65, 80, 0]
/-- The bytes of `CFRWAL\0\0`. -/
def WAL_MAGIC : Bytes := [67, 70, 82, 87, 65, 76, 0, 0]
/-- The bytes of `CFRREC\0\0`. -/
def RECORD_MAGIC : Bytes := [67, 70, 82, 82, 69, 67, 0, 0]
/-- The bytes of `CFRCMIT\0`. -/
def COMMIT_MARKER : Bytes := [67, 70, 82, 67, 77, 73, 84, 0]

def WAL_HEADER_LEN : ℕ := 12
def RECORD_PREFIX_LEN : ℕ := 8 + 8 + 8 + 32
def RECORD_OVERHEAD : ℕ := RECORD_PREFIX_LEN + 8
def SNAPSHOT_PREFIX_LEN : ℕ := 8 + 4 + 8 + 8 + 32
def SNAPSHOT_OVERHEAD : ℕ := SNAPSHOT_PREFIX_LEN + 8

structure Record where
  sequence : UInt64
  payload : Bytes
deriving DecidableEq, Repr

inductive SnapshotStatus
  | valid (record : Record)
  | missing
  | corrupt
deriving DecidableEq, Repr

structure Recovery where
  snapshot : SnapshotStatus
  wal : List Record
deriving DecidableEq, Repr

/-! ## Encoding -/

section Encoding

variable (P : Primitives)

def snapshotChecksum (sequence : UInt64) (payload : Bytes) : BitVec 256 :=
  hash P "cfr/persistence/snapshot-checksum" [beBytes 8 sequence.toNat, payload]

def recordChecksum (sequence : UInt64) (payload : Bytes) : BitVec 256 :=
  hash P "cfr/persistence/wal-checksum" [beBytes 8 sequence.toNat, payload]

/-- What `encodeSnapshot` writes. -/
def snapshotBytes (r : Record) : Bytes :=
  SNAPSHOT_MAGIC ++ beBytes 4 STORE_FORMAT_VERSION.toNat ++ beBytes 8 r.sequence.toNat ++
    beBytes 8 r.payload.length ++ bytesOf (snapshotChecksum P r.sequence r.payload) ++ r.payload ++
    COMMIT_MARKER

/-- What `encodeRecord` writes. -/
def recordBytes (r : Record) : Bytes :=
  RECORD_MAGIC ++ beBytes 8 r.sequence.toNat ++ beBytes 8 r.payload.length ++
    bytesOf (recordChecksum P r.sequence r.payload) ++ r.payload ++ COMMIT_MARKER

def encodeSnapshot (sequence : UInt64) (payload : Bytes) : Except Error Bytes :=
  if 2 ^ 64 ≤ payload.length then .error (.limitExceeded "snapshot payload length exceeds u64")
  else if 2 ^ 64 ≤ payload.length + SNAPSHOT_OVERHEAD then
    .error (.limitExceeded "snapshot size overflow")
  else .ok (snapshotBytes P ⟨sequence, payload⟩)

def encodeRecord (sequence : UInt64) (payload : Bytes) : Except Error Bytes :=
  if 2 ^ 64 ≤ payload.length then .error (.limitExceeded "WAL payload length exceeds u64")
  else if 2 ^ 64 ≤ payload.length + RECORD_OVERHEAD then
    .error (.limitExceeded "WAL record size overflow")
  else .ok (recordBytes P ⟨sequence, payload⟩)

def walHeader : Bytes :=
  WAL_MAGIC ++ beBytes 4 STORE_FORMAT_VERSION.toNat

end Encoding

/-! ## Parsing -/

section Parsing

variable (P : Primitives)

/-- The bytes from position `i` up to `j`. -/
def slice (bytes : Bytes) (i j : ℕ) : Bytes :=
  (bytes.drop i).take (j - i)

def beU32 (bytes : Bytes) : Option UInt32 :=
  if bytes.length = 4 then some (UInt32.ofNat (ofBe bytes)) else none

def beU64 (bytes : Bytes) : Option UInt64 :=
  if bytes.length = 8 then some (UInt64.ofNat (ofBe bytes)) else none

def orCorrupt {α : Type} (reason : String) : Option α → Except Error α
  | some a => .ok a
  | none => .error (.corrupt reason)

/-- What is left once the fixed fields of a snapshot are read. -/
def checkSnapshot (bytes : Bytes) (sequence : UInt64) (length : ℕ) : SnapshotStatus :=
  let expected := SNAPSHOT_OVERHEAD + length
  let payload := slice bytes SNAPSHOT_PREFIX_LEN (SNAPSHOT_PREFIX_LEN + length)
  if sequence = 0 ∨ HARD_MAX_STATE_BYTES < length then .corrupt
  else if bytes.length ≠ expected ∨ slice bytes (expected - 8) bytes.length ≠ COMMIT_MARKER then
    .corrupt
  else if slice bytes 28 60 ≠ bytesOf (snapshotChecksum P sequence payload) then .corrupt
  else .valid ⟨sequence, payload⟩

def parseSnapshot (bytes : Bytes) : Except Error SnapshotStatus := do
  if bytes.length < SNAPSHOT_PREFIX_LEN ∨ bytes.take 8 ≠ SNAPSHOT_MAGIC then .ok .corrupt
  else
    let version ← orCorrupt "snapshot version is truncated" (beU32 (slice bytes 8 12))
    if version ≠ STORE_FORMAT_VERSION then .error (.unsupportedVersion .storeEnvelope version)
    else
      match beU64 (slice bytes 12 20), beU64 (slice bytes 20 28) with
      | some sequence, some length => .ok (checkSnapshot P bytes sequence length.toNat)
      | _, _ => .ok .corrupt

def validateWalHeader (bytes : Bytes) : Except Error Unit := do
  if bytes.length < WAL_HEADER_LEN ∨ bytes.take 8 ≠ WAL_MAGIC then
    .error (.corrupt "WAL header is malformed")
  else
    let version ← orCorrupt "WAL version is truncated" (beU32 (slice bytes 8 12))
    if version ≠ STORE_FORMAT_VERSION then .error (.unsupportedVersion .storeEnvelope version)
    else .ok ()

/-- Once the prefix of a record is read: the record and what follows it, or nothing if the log ends
before the record does. -/
def checkRecord (rest : Bytes) (sequence : UInt64) (length : ℕ) :
    Except Error (Option (Record × Bytes)) :=
  let total := RECORD_OVERHEAD + length
  let payloadEnd := RECORD_PREFIX_LEN + length
  let payload := slice rest RECORD_PREFIX_LEN payloadEnd
  if sequence = 0 ∨ HARD_MAX_STATE_BYTES < length then
    .error (.corrupt "WAL record bounds are invalid")
  else if rest.length < total then .ok none
  else if slice rest payloadEnd (payloadEnd + 8) ≠ COMMIT_MARKER then
    .error (.corrupt "WAL commit marker is invalid")
  else if slice rest 24 56 ≠ bytesOf (recordChecksum P sequence payload) then
    .error (.corrupt "WAL record checksum is invalid")
  else .ok (some (⟨sequence, payload⟩, rest.drop total))

/-- Reads the record that `rest`, the log from the scanner's position on, starts with. -/
def parseRecord (rest : Bytes) : Except Error (Option (Record × Bytes)) := do
  if rest.length < RECORD_PREFIX_LEN then .ok none
  else if rest.take 8 ≠ RECORD_MAGIC then .error (.corrupt "WAL record magic is invalid")
  else
    let sequence ← orCorrupt "WAL sequence is truncated" (beU64 (slice rest 8 16))
    let length ← orCorrupt "WAL length is truncated" (beU64 (slice rest 16 24))
    checkRecord P rest sequence length.toNat

/-- Sequences are consecutive, from the previous one on. -/
def checkSequence (previous : Option UInt64) (sequence : UInt64) : Except Error Unit :=
  match previous with
  | none => .ok ()
  | some p =>
      if p.toNat + 1 = 2 ^ 64 then .error (.corrupt "WAL sequence overflowed")
      else if sequence ≠ p + 1 then .error (.corrupt "WAL sequence is not consecutive")
      else .ok ()

/-- The loop of `scanWal`: the records, and the bytes after the last of them.  Every round consumes
a record, so the length of the log is enough fuel. -/
def scanRecords : ℕ → Bytes → Option UInt64 → Except Error (List Record × Bytes)
  | 0, rest, _ => .ok ([], rest)
  | fuel + 1, rest, previous => do
      match ← parseRecord P rest with
      | none => .ok ([], rest)
      | some (record, next) =>
          checkSequence previous record.sequence
          let (records, tail) ← scanRecords fuel next (some record.sequence)
          .ok (record :: records, tail)

/-- The complete records of a log, and the length of the log up to the last of them. -/
def scanWal (bytes : Bytes) : Except Error (List Record × ℕ) := do
  validateWalHeader bytes
  let (records, tail) ← scanRecords P bytes.length (bytes.drop WAL_HEADER_LEN) none
  .ok (records, bytes.length - tail.length)

end Parsing

example :
    let records : List Record := [⟨2, [1, 2]⟩, ⟨3, []⟩]
    (scanWal toy (walHeader ++ records.flatMap (recordBytes toy) ++ RECORD_MAGIC.take 5)).toOption =
      some (records, 12 + 66 + 64) := by
  decide +kernel

end CausalFrontierRatchet.StoreFormat
