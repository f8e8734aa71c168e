import CausalFrontierRatchet.BigEndian
import Mathlib.Data.List.Destutter
import Mathlib.Data.List.Sort

/-!
The canonical type-length-value codec.  A writer is the byte string it produces; a reader consumes a
prefix of its input and hands on the rest.
-/

namespace CausalFrontierRatchet.Tlv

open BigEndian

inductive CryptoError
  | badTag
  | badSignature
  | badEncoding
  | truncated
  | noEntropy
deriving DecidableEq, Repr

/-- Everything that can go wrong while processing an operation. -/
inductive Error
  | encoding (reason : String)
  | badSignature
  | notAMember
  | unauthorised (reason : String)
  | buffered
  | missingNodeKeys
  | noPrekey
  | decrypt
  | equivocation
  | notParticipating
  | limitExceeded (reason : String)
  | crypto (e : CryptoError)
  | internal (reason : String)
deriving DecidableEq, Repr

def T_BYTES : UInt8 := 1
def T_U64 : UInt8 := 2
def T_LIST : UInt8 := 4
def T_SET : UInt8 := 5

/-- Hard ceiling on any single length field. -/
def MAX_FIELD : ℕ := 2 ^ 22

/-- Hard ceiling on the number of elements in a list or set. -/
def MAX_ITEMS : ℕ := 2 ^ 16

/-! ## Writers -/

namespace Writer

def bytes (v : Bytes) : Bytes :=
  T_BYTES :: beBytes 4 v.length ++ v

def u64 (v : UInt64) : Bytes :=
  T_U64 :: beBytes 8 v.toNat

/-- There is one integer type on the wire. -/
def u32 (v : UInt32) : Bytes :=
  u64 v.toUInt64

/-- A field of fixed width. -/
def array {w : ℕ} (v : BitVec w) : Bytes :=
  bytes (bytesOf v)

def list {α : Type} (f : α → Bytes) (items : List α) : Bytes :=
  T_LIST :: beBytes 4 items.length ++ items.flatMap f

/-- The images of a set in ascending order, each once. -/
def images {α : Type} (f : α → Bytes) (items : List α) : List Bytes :=
  ((items.map f).insertionSort (· ≤ ·)).destutter (· ≠ ·)

/-- Elements are sorted by image, so the encoding does not depend on the order they come in. -/
def set {α : Type} (f : α → Bytes) (items : List α) : Bytes :=
  T_SET :: beBytes 4 (images f items).length ++ (images f items).flatten

end Writer

/-! ## Readers -/

/-- A reader takes a prefix of its input and hands on the rest. -/
abbrev Reader (α : Type) : Type :=
  StateT Bytes (Except Error) α

namespace Reader

def take (n : ℕ) : Reader Bytes := fun buf =>
  if buf.length < n then .error (.encoding "truncated") else .ok (buf.take n, buf.drop n)

def tag (want : UInt8) : Reader Unit := do
  let got ← take 1
  if got = [want] then pure () else throw (.encoding "unexpected type tag")

def len32 (limit : ℕ) : Reader ℕ := do
  let raw ← take 4
  if limit < ofBe raw then throw (.encoding "length exceeds limit") else pure (ofBe raw)

def bytes : Reader Bytes := do
  tag T_BYTES
  let n ← len32 MAX_FIELD
  take n

def array (w : ℕ) : Reader (BitVec w) := do
  let b ← bytes
  match fromSlice w b with
  | some v => pure v
  | none => throw (.encoding "wrong field width")

def u64 : Reader UInt64 := do
  tag T_U64
  let raw ← take 8
  pure (UInt64.ofNat (ofBe raw))

def u32 : Reader UInt32 := do
  let v ← u64
  if v.toNat < 2 ^ 32 then pure v.toUInt32 else throw (.encoding "integer out of range")

def times {α : Type} (f : Reader α) : ℕ → Reader (List α)
  | 0 => pure []
  | n + 1 => do
      let item ← f
      let items ← times f n
      pure (item :: items)

def list {α : Type} (f : Reader α) : Reader (List α) := do
  tag T_LIST
  let n ← len32 MAX_ITEMS
  times f n

/-- Reads elements whose images ascend strictly from the previous one on. -/
def ascending {α : Type} (f : Reader α) : ℕ → Option Bytes → Reader (List α)
  | 0, _ => pure []
  | n + 1, prev => fun buf => do
      let (item, rest) ← f buf
      let image := buf.take (buf.length - rest.length)
      if prev.any (fun p => image ≤ p) then throw (.encoding "set not in canonical order")
      let (items, rest) ← ascending f n (some image) rest
      pure (item :: items, rest)

def set {α : Type} (f : Reader α) : Reader (List α) := do
  tag T_SET
  let n ← len32 MAX_ITEMS
  ascending f n none

/-- Trailing data is a violation of canonicity. -/
def finish : Reader Unit := fun buf =>
  if buf = [] then .ok ((), []) else .error (.encoding "trailing bytes")

/-- Reads a whole byte string. -/
def whole {α : Type} (f : Reader α) (buf : Bytes) : Except Error α := do
  let (item, _) ← (do let item ← f; finish; pure item : Reader α) buf
  pure item

end Reader

example : (Reader.whole (do let a ← Reader.bytes; let b ← Reader.u64; pure (a, b))
    (Writer.bytes [1, 2, 3] ++ Writer.u64 7)).toOption = some ([1, 2, 3], 7) := by
  decide +kernel

example : (Reader.whole (Reader.set Reader.u64) (Writer.set Writer.u64 [9, 7, 9, 8])).toOption =
    some [7, 8, 9] := by
  decide +kernel

end CausalFrontierRatchet.Tlv
