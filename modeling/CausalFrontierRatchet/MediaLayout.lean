import CausalFrontierRatchet.BigEndian

/-!
Codec-aware frame partitioning.  A layout names the byte ranges of a frame that stay readable and
the ranges that are encrypted in place.  The parsers walk the frame as the source does; where the
source indexes the frame from a running position, the parsers here carry that position together
with the bytes that remain, so that no index can leave the frame.
-/

namespace CausalFrontierRatchet.MediaLayout

open BigEndian

inductive Codec where
  | h264
  | h265
  | av1
  | vp8
  | vp9
  | opus
  | generic
  deriving DecidableEq, Repr

/-- Audio frames carry the short tag. -/
def Codec.isAudio : Codec → Bool
  | .opus => true
  | _ => false

/-- A half-open range of byte positions. -/
structure Range where
  start : ℕ
  stop : ℕ
  deriving DecidableEq, Repr

/-- The ranges left readable and the ranges to encrypt, each in ascending order. -/
structure Layout where
  clear : List Range
  secret : List Range
  deriving DecidableEq, Repr

/-- A unit: its prefix (start code, length field or OBU header) and its body. -/
abbrev FrameUnit := Range × Range

/-- A layout where a fixed leading part stays readable. -/
def Layout.leading (len total : ℕ) : Layout :=
  let cut := min len total
  { clear := if 0 < cut then [⟨0, cut⟩] else []
    secret := if cut < total then [⟨cut, total⟩] else [] }

/-! ## H.264 and H.265 -/

/-- Positions and lengths of the Annex-B start codes in the bytes from position `i` on. -/
def startCodesFrom (i : ℕ) : Bytes → List (ℕ × ℕ)
  | a :: b :: c :: rest =>
      if a = 0 ∧ b = 0 then
        if c = 1 then (i, 3) :: startCodesFrom (i + 3) rest
        else
          match rest with
          | d :: rest' =>
              if c = 0 ∧ d = 1 then (i, 4) :: startCodesFrom (i + 4) rest'
              else startCodesFrom (i + 1) (b :: c :: d :: rest')
          | [] => startCodesFrom (i + 1) [b, c]
      else startCodesFrom (i + 1) (b :: c :: rest)
  | _ => []

def startCodes (frame : Bytes) : List (ℕ × ℕ) :=
  startCodesFrom 0 frame

/-- The units between consecutive start codes; the last one ends with the frame. -/
def unitsBetween (total : ℕ) : List (ℕ × ℕ) → Option (List FrameUnit)
  | [] => some []
  | (pos, len) :: codes => do
      let bodyStart := pos + len
      let bodyEnd := (codes.head?.map Prod.fst).getD total
      if bodyEnd < bodyStart then none
      else
        let units ← unitsBetween total codes
        some ((⟨pos, bodyStart⟩, ⟨bodyStart, bodyEnd⟩) :: units)

/-- Splits an Annex-B frame, which must open with a start code. -/
def annexBUnits (frame : Bytes) : Option (List FrameUnit) :=
  match startCodes frame with
  | [] => none
  | (pos, len) :: codes =>
      if pos ≠ 0 then none else unitsBetween frame.length ((pos, len) :: codes)

/-- Splits the bytes from position `pos` on into units that announce their own size: `unitAt` reads
the width of the unit's prefix and the length of its body, and a unit that overruns the frame ends
the attempt.  Every prefix is non-empty, so the length of the frame bounds the rounds. -/
def unitsFrom (unitAt : Bytes → Option (ℕ × ℕ)) : ℕ → ℕ → Bytes → Option (List FrameUnit)
  | 0, _, _ => some []
  | fuel + 1, pos, rest =>
      if rest.isEmpty then some []
      else do
        let (width, n) ← unitAt rest
        if rest.length < width + n then none
        else
          let units ← unitsFrom unitAt fuel (pos + width + n) (rest.drop (width + n))
          some ((⟨pos, pos + width⟩, ⟨pos + width, pos + width + n⟩) :: units)

/-- The four-byte length field; a zero length means this is not length-prefixed after all. -/
def lengthPrefixedUnitAt (rest : Bytes) : Option (ℕ × ℕ) :=
  if rest.length < 4 then none
  else if ofBe (rest.take 4) = 0 then none
  else some (4, ofBe (rest.take 4))

def lengthPrefixedUnits (frame : Bytes) : Option (List FrameUnit) := do
  let units ← unitsFrom lengthPrefixedUnitAt (frame.length + 1) 0 frame
  if units.isEmpty then none else some units

/-- Joins each range to the one before it when they touch. -/
def mergeFrom (prev : Range) : List Range → List Range
  | [] => [prev]
  | r :: rs =>
      if prev.stop = r.start then mergeFrom ⟨prev.start, r.stop⟩ rs
      else prev :: mergeFrom r rs

def mergeAdjacent : List Range → List Range
  | [] => []
  | r :: rs => mergeFrom r rs

/-- Where the readable part of a unit ends. -/
def clearEnd (header : ℕ) (body : Range) : ℕ :=
  min (body.start + header) body.stop

/-- A layout keeping `header` bytes of each unit readable. -/
def fromUnits (units : List FrameUnit) (header : ℕ) : Layout :=
  { clear := mergeAdjacent (units.map fun u => ⟨u.1.start, clearEnd header u.2⟩)
    secret := units.filterMap fun u =>
      if clearEnd header u.2 < u.2.stop then some ⟨clearEnd header u.2, u.2.stop⟩ else none }

def layoutWithHeader (frame : Bytes) (header : ℕ) : Layout :=
  if frame = [] then ⟨[], []⟩
  else
    match annexBUnits frame with
    | some units => fromUnits units header
    | none =>
        match lengthPrefixedUnits frame with
        | some units => fromUnits units header
        -- Unrecognised container: protect everything.
        | none => Layout.leading 0 frame.length

def h264Layout (frame : Bytes) : Layout :=
  layoutWithHeader frame 1

def h265Layout (frame : Bytes) : Layout :=
  layoutWithHeader frame 2

/-! ## AV1 -/

def OBU_EXTENSION_FLAG : UInt8 := 0x04
def OBU_HAS_SIZE_FIELD : UInt8 := 0x02
def OBU_FORBIDDEN_BIT : UInt8 := 0x80

/-- Reads a little-endian base-128 value of at most `rounds` bytes; `i` bytes were read before. -/
def leb128From : ℕ → ℕ → ℕ → Bytes → Option (ℕ × ℕ)
  | 0, _, _, _ => none
  | rounds + 1, i, value, bytes =>
      match bytes with
      | [] => none
      | b :: rest =>
          let value := value ||| ((b &&& 0x7F).toNat <<< (i * 7))
          if b &&& 0x80 = 0 then some (value, i + 1) else leb128From rounds (i + 1) value rest

/-- An unsigned LEB128 value and its encoded width. -/
def leb128 (bytes : Bytes) : Option (ℕ × ℕ) :=
  leb128From 8 0 0 bytes

/-- Header width and payload length of the open bitstream unit the bytes start with. -/
def obuAt : Bytes → Option (ℕ × ℕ)
  | [] => none
  | header :: rest =>
      if header &&& OBU_FORBIDDEN_BIT ≠ 0 then none
      else
        let width := if header &&& OBU_EXTENSION_FLAG ≠ 0 then 2 else 1
        if rest.length + 1 < width then none
        else if header &&& OBU_HAS_SIZE_FIELD ≠ 0 then do
          let (len, sizeWidth) ← leb128 ((header :: rest).drop width)
          some (width + sizeWidth, len)
        -- Without a size field the unit runs to the end of the frame.
        else some (width, rest.length + 1 - width)

def av1Layout (frame : Bytes) : Layout :=
  match unitsFrom obuAt (frame.length + 1) 0 frame with
  | none => Layout.leading 0 frame.length
  | some units => if units.isEmpty then Layout.leading 0 frame.length else fromUnits units 0

/-! ## VP8, VP9 and the choice of parser -/

def VP8_UNCOMPRESSED : ℕ := 3
def VP8_KEYFRAME_EXTRA : ℕ := 7

/-- The bitstream is trusted over the caller's flag: bit 0 of the first byte is clear on a key
frame. -/
def vp8Layout (frame : Bytes) (keyframe : Bool) : Layout :=
  let declaredKey := frame.head?.any fun b => b &&& 0x01 = 0
  let n := if keyframe && declaredKey then VP8_UNCOMPRESSED + VP8_KEYFRAME_EXTRA
    else VP8_UNCOMPRESSED
  Layout.leading n frame.length

def vp9Layout (frame : Bytes) : Layout :=
  Layout.leading 0 frame.length

def layout (codec : Codec) (frame : Bytes) (keyframe : Bool) : Layout :=
  match codec with
  | .h264 => h264Layout frame
  | .h265 => h265Layout frame
  | .av1 => av1Layout frame
  | .vp8 => vp8Layout frame keyframe
  | .vp9 => vp9Layout frame
  | .opus => Layout.leading 1 frame.length
  | .generic => Layout.leading 0 frame.length

/-! ## Reading and writing ranges -/

def slice (frame : Bytes) (r : Range) : Bytes :=
  (frame.drop r.start).take (r.stop - r.start)

/-- The bytes of a list of ranges, concatenated. -/
def slices (frame : Bytes) (rs : List Range) : Bytes :=
  rs.flatMap (slice frame)

/-- The content ranges as one contiguous buffer. -/
def gather (frame : Bytes) (l : Layout) : Bytes :=
  slices frame l.secret

/-- Overwrites the bytes of one range. -/
def overwrite (frame : Bytes) (r : Range) (data : Bytes) : Bytes :=
  frame.take r.start ++ data ++ frame.drop r.stop

def scatterRanges (frame : Bytes) : List Range → Bytes → Bytes
  | [], _ => frame
  | r :: rs, data =>
      let n := r.stop - r.start
      scatterRanges (overwrite frame r (data.take n)) rs (data.drop n)

/-- Writes contiguous content bytes back into their original positions. -/
def scatter (frame : Bytes) (l : Layout) (data : Bytes) : Bytes :=
  scatterRanges frame l.secret data

end CausalFrontierRatchet.MediaLayout
