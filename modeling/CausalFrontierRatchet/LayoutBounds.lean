import CausalFrontierRatchet.LayoutTiling

/-!
The parsers with their indices and machine arithmetic.  Here every access names an index into the
frame and every sum, product and shift is taken on 64 bits, and `none` is the panic of an index out
of bounds, of an overflow or of a failed assertion; a parser that gives up on its container answers
`some none`.  None of them panics, and each computes the layout of the parser it corresponds to.
-/

namespace CausalFrontierRatchet.LayoutBounds

open BigEndian AlternatingRuns SelfDelimiting MediaLayout LayoutRuns StartCodes FrameRuns
open LayoutTiling

/-- No slice has more bytes than this. -/
def ISIZE_MAX : ℕ := 2 ^ 63 - 1

def usizeAdd (a b : ℕ) : Option ℕ :=
  if a + b < 2 ^ 64 then some (a + b) else none

def usizeMul (a b : ℕ) : Option ℕ :=
  if a * b < 2 ^ 64 then some (a * b) else none

/-- A shift that drops the high bits; only the distance can be out of range. -/
def u64Shl (a distance : ℕ) : Option ℕ :=
  if distance < 64 then some (a <<< distance % 2 ^ 64) else none

/-- The second test is made only if the first one holds. -/
def andThen (a b : Option Bool) : Option Bool :=
  a.bind fun holds => if holds then b else some false

/-- Whether the frame has this byte `k` behind position `i`. -/
def byteIs (frame : Bytes) (i k : ℕ) (b : UInt8) : Option Bool := do
  let index ← usizeAdd i k
  let byte ← frame[index]?
  some (byte = b)

/-! ## The loops -/

def startCodesLoop (frame : Bytes) : ℕ → ℕ → List (ℕ × ℕ) → Option (List (ℕ × ℕ))
  | 0, _, _ => none
  | fuel + 1, i, out => do
      let window ← usizeAdd i 3
      if window ≤ frame.length then
        let zeros ← andThen (byteIs frame i 0 0) (byteIs frame i 1 0)
        if zeros then
          let short ← byteIs frame i 2 1
          if short then
            let next ← usizeAdd i 3
            startCodesLoop frame fuel next (out ++ [(i, 3)])
          else
            let long ← andThen ((usizeAdd i 4).map (· ≤ frame.length))
              (andThen (byteIs frame i 2 0) (byteIs frame i 3 1))
            if long then
              let next ← usizeAdd i 4
              startCodesLoop frame fuel next (out ++ [(i, 4)])
            else
              let next ← usizeAdd i 1
              startCodesLoop frame fuel next out
        else
          let next ← usizeAdd i 1
          startCodesLoop frame fuel next out
      else some out

def unitsBetweenLoop (total : ℕ) :
    List (ℕ × ℕ) → List FrameUnit → Option (Option (List FrameUnit))
  | [], out => some (some out)
  | (pos, len) :: codes, out => do
      let bodyStart ← usizeAdd pos len
      let bodyEnd := (codes.head?.map Prod.fst).getD total
      if bodyEnd < bodyStart then some none
      else unitsBetweenLoop total codes (out ++ [(⟨pos, bodyStart⟩, ⟨bodyStart, bodyEnd⟩)])

def annexBUnitsAt (frame : Bytes) : Option (Option (List FrameUnit)) := do
  let codes ← startCodesLoop frame (frame.length + 1) 0 []
  match codes with
  | [] => some none
  | (pos, len) :: codes =>
      if pos ≠ 0 then some none else unitsBetweenLoop frame.length ((pos, len) :: codes) []

/-- A loop over units that announce their size.  `unitAt` reads, at a position, the width of the
prefix and the length of the body, and `bodyEndOf` adds the body's length to its start. -/
def unitsLoop (frame : Bytes) (unitAt : ℕ → Option (Option (ℕ × ℕ)))
    (bodyEndOf : ℕ → ℕ → Option (Option ℕ)) :
    ℕ → ℕ → List FrameUnit → Option (Option (List FrameUnit))
  | 0, _, _ => none
  | fuel + 1, pos, out =>
      if pos < frame.length then do
        let some (width, n) ← unitAt pos | some none
        let bodyStart ← usizeAdd pos width
        let some bodyEnd ← bodyEndOf bodyStart n | some none
        if frame.length < bodyEnd then some none
        else
          unitsLoop frame unitAt bodyEndOf fuel bodyEnd
            (out ++ [(⟨pos, bodyStart⟩, ⟨bodyStart, bodyEnd⟩)])
      else some (some out)

/-- The big-endian number in the four bytes from position `i` on. -/
def be32At (frame : Bytes) (i : ℕ) : Option ℕ := do
  let b₀ ← frame[i]?
  let i₁ ← usizeAdd i 1
  let b₁ ← frame[i₁]?
  let i₂ ← usizeAdd i 2
  let b₂ ← frame[i₂]?
  let i₃ ← usizeAdd i 3
  let b₃ ← frame[i₃]?
  some (ofBe [b₀, b₁, b₂, b₃])

def lengthPrefixAt (frame : Bytes) (i : ℕ) : Option (Option (ℕ × ℕ)) := do
  let stop ← usizeAdd i 4
  if frame.length < stop then some none
  else
    let n ← be32At frame i
    if n = 0 then some none else some (some (4, n))

/-- An overflow of this sum would be a panic. -/
def lengthPrefixedUnitsAt (frame : Bytes) : Option (Option (List FrameUnit)) := do
  let some units ← unitsLoop frame (lengthPrefixAt frame)
    (fun start n => (usizeAdd start n).map some) (frame.length + 1) 0 [] | some none
  some (if units.isEmpty then none else some units)

def leb128Loop (frame : Bytes) (start : ℕ) : ℕ → ℕ → ℕ → Option (Option (ℕ × ℕ))
  | 0, _, _ => some none
  | rounds + 1, i, value => do
      let index ← usizeAdd start i
      match frame[index]? with
      | none => some none
      | some b =>
          let distance ← usizeMul i 7
          let bits ← u64Shl (b &&& 0x7F).toNat distance
          let width ← usizeAdd i 1
          if b &&& 0x80 = 0 then some (some (value ||| bits, width))
          else leb128Loop frame start rounds width (value ||| bits)

/-- The header byte and, if flagged, the extension byte. -/
def obuLead (header : UInt8) : Option ℕ :=
  if header &&& OBU_EXTENSION_FLAG ≠ 0 then usizeAdd 1 1 else some 1

def obuHeadAt (frame : Bytes) (pos : ℕ) : Option (Option (ℕ × ℕ)) := do
  let header ← frame[pos]?
  if header &&& OBU_FORBIDDEN_BIT ≠ 0 then some none
  else
    let width ← obuLead header
    let lead ← usizeAdd pos width
    if frame.length < lead then some none
    else if header &&& OBU_HAS_SIZE_FIELD ≠ 0 then
      let some (len, sizeWidth) ← leb128Loop frame lead 8 0 0 | some none
      let width ← usizeAdd width sizeWidth
      some (some (width, len))
    else some (some (width, frame.length - lead))

/-- The assertion at the end is checked in debug builds. -/
def fromUnitsLoop (header total : ℕ) : List FrameUnit → Layout → Option Layout
  | [], l =>
      let l := { l with clear := mergeAdjacent l.clear }
      if l.tiles total then some l else none
  | (lead, body) :: units, l => do
      let cut ← usizeAdd body.start header
      let clearEnd := min cut body.stop
      fromUnitsLoop header total units
        { clear := l.clear ++ [⟨lead.start, clearEnd⟩]
          secret := if clearEnd < body.stop then l.secret ++ [⟨clearEnd, body.stop⟩] else l.secret }

def layoutWithHeaderAt (frame : Bytes) (header : ℕ) : Option Layout :=
  if frame.isEmpty then some ⟨[], []⟩
  else do
    match ← annexBUnitsAt frame with
    | some units => fromUnitsLoop header frame.length units ⟨[], []⟩
    | none =>
        match ← lengthPrefixedUnitsAt frame with
        | some units => fromUnitsLoop header frame.length units ⟨[], []⟩
        | none => some (Layout.leading 0 frame.length)

/-- This sum is the one the source makes with `checked_add`. -/
def av1LayoutAt (frame : Bytes) : Option Layout := do
  match ← unitsLoop frame (obuHeadAt frame) (fun start n => some (usizeAdd start n))
    (frame.length + 1) 0 [] with
  | none => some (Layout.leading 0 frame.length)
  | some units =>
      if units.isEmpty then some (Layout.leading 0 frame.length)
      else fromUnitsLoop 0 frame.length units ⟨[], []⟩

def layoutAt (codec : Codec) (frame : Bytes) (keyframe : Bool) : Option Layout :=
  match codec with
  | .h264 => layoutWithHeaderAt frame 1
  | .h265 => layoutWithHeaderAt frame 2
  | .av1 => av1LayoutAt frame
  | .vp8 => some (vp8Layout frame keyframe)
  | .vp9 => some (vp9Layout frame)
  | .opus => some (Layout.leading 1 frame.length)
  | .generic => some (Layout.leading 0 frame.length)

example : layoutAt .av1 [0x12, 0x01, 0xAA, 0x10, 0xBB] false =
    some ⟨[⟨0, 2⟩, ⟨3, 4⟩], [⟨2, 3⟩, ⟨4, 5⟩]⟩ := by
  decide +kernel

/-! ## No panic -/

theorem usizeAdd_of_lt {a b : ℕ} (h : a + b < 2 ^ 64) : usizeAdd a b = some (a + b) :=
  if_pos h

@[simp] theorem andThen_some (a b : Bool) : andThen (some a) (some b) = some (a && b) := by
  cases a <;> rfl

theorem andThen_false (b : Option Bool) : andThen (some false) b = some false := rfl

section Frame

variable {frame : Bytes} {i : ℕ}

theorem byteIs_of_drop {rest : Bytes} {k : ℕ} {x : UInt8} (hrest : frame.drop i = rest)
    (hk : rest[k]? = some x) (hlt : i + k < 2 ^ 64) (b : UInt8) :
    byteIs frame i k b = some (decide (x = b)) := by
  have hx : frame[i + k]? = some x := by
    rw [← List.getElem?_drop, hrest, hk]
  rw [byteIs, usizeAdd_of_lt hlt, Option.bind_eq_bind, Option.bind_some, hx]
  rfl

/-- What remains some bytes further on. -/
theorem drop_add_of_append (front : Bytes) {rest : Bytes} {k : ℕ}
    (hrest : frame.drop i = front ++ rest) (hk : front.length = k) : frame.drop (i + k) = rest := by
  rw [← List.drop_drop, hrest, List.drop_left' hk]

theorem startCodesFrom_short {rest : Bytes} (h : rest.length < 3) : startCodesFrom i rest = [] := by
  rcases rest with _ | ⟨a, _ | ⟨b, _ | ⟨c, rest⟩⟩⟩
  · rfl
  · rfl
  · rfl
  · simp at h
    omega

theorem exists_three (rest : Bytes) (h : 3 ≤ rest.length) :
    ∃ a b c tail, rest = a :: b :: c :: tail := by
  match rest, h with
  | a :: b :: c :: tail, _ => exact ⟨a, b, c, tail, rfl⟩

/-- The search finds the start codes of the bytes that remain. -/
theorem startCodesLoop_eq (hframe : frame.length ≤ ISIZE_MAX) {fuel : ℕ} {out : List (ℕ × ℕ)}
    (hi : i ≤ frame.length) (hfuel : frame.length - i < fuel) :
    startCodesLoop frame fuel i out = some (out ++ startCodesFrom i (frame.drop i)) := by
  rw [ISIZE_MAX] at hframe
  induction fuel generalizing i out with
  | zero => omega
  | succ fuel ih =>
      have hlen : (frame.drop i).length = frame.length - i := List.length_drop
      have hadd : ∀ k, k ≤ 4 → usizeAdd i k = some (i + k) := fun k hk => usizeAdd_of_lt (by omega)
      simp only [startCodesLoop, hadd 3 (by omega), hadd 4 (by omega), hadd 1 (by omega),
        Option.bind_eq_bind, Option.bind_some, Option.map_some]
      by_cases hwindow : i + 3 ≤ frame.length
      · obtain ⟨a, b, c, rest, hrest⟩ := exists_three (frame.drop i) (by omega)
        have hbyte : ∀ {k : ℕ} {x : UInt8}, (a :: b :: c :: rest)[k]? = some x → k < 2 ^ 63 →
            ∀ y, byteIs frame i k y = some (decide (x = y)) :=
          fun hk hlt y => byteIs_of_drop hrest hk (by omega) y
        have hskip : startCodesLoop frame fuel (i + 1) out =
            some (out ++ startCodesFrom (i + 1) (b :: c :: rest)) := by
          have hnext : frame.drop (i + 1) = b :: c :: rest :=
            drop_add_of_append [a] hrest rfl
          rw [ih (by omega) (by omega), hnext]
        have hshort : startCodesLoop frame fuel (i + 3) (out ++ [(i, 3)]) =
            some (out ++ (i, 3) :: startCodesFrom (i + 3) rest) := by
          have hnext : frame.drop (i + 3) = rest :=
            drop_add_of_append [a, b, c] hrest rfl
          rw [ih (by omega) (by omega), hnext, List.append_assoc, List.singleton_append]
        rw [hrest] at hlen ⊢
        simp only [List.length_cons] at hlen
        rw [if_pos hwindow, hbyte (k := 0) rfl (by omega), hbyte (k := 1) rfl (by omega),
          hbyte (k := 2) rfl (by omega), hbyte (k := 2) rfl (by omega), hskip, hshort]
        rcases rest with _ | ⟨d, rest⟩
        · have hend : ¬i + 4 ≤ frame.length := by
            simp at hlen
            omega
          simp only [andThen_some, andThen_false, hend, decide_false, Option.bind_some,
            Bool.and_eq_true, decide_eq_true_eq, Bool.false_eq_true, if_false, startCodesFrom]
          split_ifs <;> rfl
        · have hlong : startCodesLoop frame fuel (i + 4) (out ++ [(i, 4)]) =
              some (out ++ (i, 4) :: startCodesFrom (i + 4) rest) := by
            have hnext : frame.drop (i + 4) = rest :=
              drop_add_of_append [a, b, c, d] hrest rfl
            simp only [List.length_cons] at hlen
            rw [ih (by omega) (by omega), hnext, List.append_assoc, List.singleton_append]
          have hend : i + 4 ≤ frame.length := by
            simp at hlen
            omega
          rw [hbyte (k := 3) rfl (by omega), hlong]
          simp only [andThen_some, hend, decide_true, Bool.true_and, Option.bind_some,
            Bool.and_eq_true, decide_eq_true_eq, startCodesFrom.eq_1]
          split_ifs <;> rfl
      · rw [if_neg hwindow, startCodesFrom_short (by omega), List.append_nil]

theorem codePositions_le {pos : ℕ} {nals : List Nal} :
    ∀ code ∈ codePositions pos nals, code.1 + code.2 ≤ pos + (assemble nals).length := by
  induction nals generalizing pos with
  | nil => simp [codePositions]
  | cons u nals ih =>
      obtain ⟨c, body⟩ := u
      intro code hcode
      simp only [codePositions, List.mem_cons] at hcode
      simp only [assemble_cons, List.length_append]
      rcases hcode with rfl | hcode
      · simp only
        omega
      · have := ih code hcode
        omega

theorem startCodes_le : ∀ code ∈ startCodes frame, code.1 + code.2 ≤ frame.length := by
  intro code hcode
  rw [startCodes, startCodesFrom_eq] at hcode
  have hframe := congrArg List.length (assemble_scan frame)
  rw [List.length_append] at hframe
  have := codePositions_le code hcode
  omega

theorem unitsBetweenLoop_eq {total : ℕ} {codes : List (ℕ × ℕ)} {out : List FrameUnit}
    (hcodes : ∀ code ∈ codes, code.1 + code.2 < 2 ^ 64) :
    unitsBetweenLoop total codes out = some ((unitsBetween total codes).map (out ++ ·)) := by
  induction codes generalizing out with
  | nil => simp [unitsBetweenLoop, unitsBetween]
  | cons code codes ih =>
      obtain ⟨pos, len⟩ := code
      have hadd := hcodes (pos, len) (by simp)
      rw [unitsBetweenLoop, unitsBetween, usizeAdd_of_lt hadd]
      simp only [Option.bind_eq_bind, Option.bind_some]
      split_ifs with hend
      · rfl
      · rw [ih fun code hcode => hcodes code (by simp [hcode])]
        cases unitsBetween total codes <;> simp

theorem annexBUnitsAt_eq (hframe : frame.length ≤ ISIZE_MAX) :
    annexBUnitsAt frame = some (annexBUnits frame) := by
  have hcodes : startCodesLoop frame (frame.length + 1) 0 [] = some (startCodes frame) := by
    rw [startCodesLoop_eq hframe (by omega) (by omega), List.nil_append]
    rfl
  have hle : ∀ code ∈ startCodes frame, code.1 + code.2 < 2 ^ 64 := by
    intro code hcode
    have := startCodes_le code hcode
    rw [ISIZE_MAX] at hframe
    omega
  rw [annexBUnitsAt, hcodes, annexBUnits, Option.bind_eq_bind, Option.bind_some]
  cases hstart : startCodes frame with
  | nil => rfl
  | cons code codes =>
      simp only
      split_ifs with hpos
      · rfl
      · rw [unitsBetweenLoop_eq (by rwa [hstart] at hle)]
        simp

/-- What a loop over units needs to know of its head: it reads what the head reads of the bytes that
remain, and the end of the body is either found or behind the frame. -/
structure HeadAt (frame : Bytes) (unitAt : ℕ → Option (Option (ℕ × ℕ)))
    (bodyEndOf : ℕ → ℕ → Option (Option ℕ)) (head : Bytes → Option (ℕ × ℕ)) : Prop where
  unit : ∀ {pos}, pos < frame.length → unitAt pos = some (head (frame.drop pos))
  start : ∀ {pos w n}, pos < frame.length → head (frame.drop pos) = some (w, n) → pos + w < 2 ^ 64
  stop : ∀ {pos w n}, pos < frame.length → head (frame.drop pos) = some (w, n) → 0 < w ∧
    (bodyEndOf (pos + w) n = some (some (pos + w + n)) ∨
      bodyEndOf (pos + w) n = some none ∧ frame.length < pos + w + n)

theorem unitsLoop_eq {unitAt : ℕ → Option (Option (ℕ × ℕ))}
    {bodyEndOf : ℕ → ℕ → Option (Option ℕ)} {head : Bytes → Option (ℕ × ℕ)}
    (h : HeadAt frame unitAt bodyEndOf head) {fuel pos : ℕ} {out : List FrameUnit}
    (hpos : pos ≤ frame.length) (hfuel : frame.length - pos < fuel) :
    unitsLoop frame unitAt bodyEndOf fuel pos out =
      some ((unitsFrom head fuel pos (frame.drop pos)).map (out ++ ·)) := by
  induction fuel generalizing pos out with
  | zero => omega
  | succ fuel ih =>
      have hempty : (frame.drop pos).isEmpty = true ↔ frame.length ≤ pos := by
        rw [List.isEmpty_iff, List.drop_eq_nil_iff]
      rw [unitsLoop, unitsFrom]
      by_cases hlt : pos < frame.length
      · rw [if_pos hlt, if_neg (mt hempty.mp (by omega)), h.unit hlt]
        cases hhead : head (frame.drop pos) with
        | none => rfl
        | some u =>
            obtain ⟨w, n⟩ := u
            obtain ⟨hw, hend⟩ := h.stop hlt hhead
            simp only [Option.bind_eq_bind, Option.bind_some, usizeAdd_of_lt (h.start hlt hhead),
              List.length_drop]
            rcases hend with hend | ⟨hend, hover⟩
            · rw [hend]
              simp only [Option.bind_some]
              by_cases hfits : frame.length < pos + w + n
              · rw [if_pos hfits, if_pos (by omega)]
                rfl
              · rw [if_neg hfits, if_neg (by omega), ih (by omega) (by omega), List.drop_drop,
                  Nat.add_assoc pos w n]
                cases unitsFrom head fuel (pos + (w + n)) (frame.drop (pos + (w + n))) <;> simp
            · rw [hend, if_pos (by omega)]
              rfl
      · rw [if_neg hlt, if_pos (hempty.mpr (by omega))]
        simp

/-! ## The two heads -/

theorem exists_four (rest : Bytes) (h : 4 ≤ rest.length) :
    ∃ a b c d tail, rest = a :: b :: c :: d :: tail := by
  match rest, h with
  | a :: b :: c :: d :: tail, _ => exact ⟨a, b, c, d, tail, rfl⟩

theorem be32At_eq (hframe : frame.length ≤ ISIZE_MAX) (hi : i + 4 ≤ frame.length) :
    be32At frame i = some (ofBe ((frame.drop i).take 4)) := by
  rw [ISIZE_MAX] at hframe
  have hadd : ∀ k, k ≤ 4 → usizeAdd i k = some (i + k) := fun k hk => usizeAdd_of_lt (by omega)
  have hlen : (frame.drop i).length = frame.length - i := List.length_drop
  obtain ⟨a, b, c, d, tail, hrest⟩ := exists_four (frame.drop i) (by omega)
  have hbyte : ∀ k, frame[i + k]? = (a :: b :: c :: d :: tail)[k]? := by
    intro k
    rw [← hrest, List.getElem?_drop]
  have hfirst : frame[i]? = some a := hbyte 0
  have htake : (frame.drop i).take 4 = [a, b, c, d] := by
    rw [hrest]
    rfl
  rw [htake, be32At, hfirst, hadd 1 (by omega), hadd 2 (by omega), hadd 3 (by omega)]
  simp only [Option.bind_eq_bind, Option.bind_some, hbyte, List.getElem?_cons_succ,
    List.getElem?_cons_zero]

theorem lengthPrefixAt_eq (hframe : frame.length ≤ ISIZE_MAX) (hi : i < frame.length) :
    lengthPrefixAt frame i = some (lengthPrefixedUnitAt (frame.drop i)) := by
  have hadd : usizeAdd i 4 = some (i + 4) := by
    rw [ISIZE_MAX] at hframe
    exact usizeAdd_of_lt (by omega)
  have hlen : (frame.drop i).length = frame.length - i := List.length_drop
  rw [lengthPrefixAt, hadd, lengthPrefixedUnitAt, Option.bind_eq_bind, Option.bind_some, hlen]
  by_cases hshort : frame.length < i + 4
  · rw [if_pos hshort, if_pos (by omega)]
  · rw [if_neg hshort, if_neg (by omega), be32At_eq hframe (by omega), Option.bind_some]
    generalize ofBe ((frame.drop i).take 4) = n
    by_cases hzero : n = 0
    · rw [if_pos hzero, if_pos hzero]
    · rw [if_neg hzero, if_neg hzero]

theorem lengthPrefixed_headAt (hframe : frame.length ≤ ISIZE_MAX) :
    HeadAt frame (lengthPrefixAt frame) (fun start n => (usizeAdd start n).map some)
      lengthPrefixedUnitAt := by
  have hbound : ∀ {pos w n}, lengthPrefixedUnitAt (frame.drop pos) = some (w, n) →
      w = 4 ∧ n < 2 ^ 32 := by
    intro pos w n hhead
    unfold lengthPrefixedUnitAt at hhead
    split_ifs at hhead with hshort
    obtain ⟨rfl, rfl⟩ := Prod.mk.inj (Option.some.inj hhead)
    have hlt := ofBe_lt ((frame.drop pos).take 4)
    rw [List.length_take_of_le (by omega)] at hlt
    omega
  constructor
  · exact fun hpos => lengthPrefixAt_eq hframe hpos
  · intro pos w n hpos hhead
    have := hbound hhead
    rw [ISIZE_MAX] at hframe
    omega
  · intro pos w n hpos hhead
    have hsmall := hbound hhead
    rw [ISIZE_MAX] at hframe
    rw [usizeAdd_of_lt (by omega)]
    exact ⟨by omega, Or.inl rfl⟩

/-- Seven bits at one of the first eight places fit a 64-bit word. -/
theorem u64Shl_low (b : UInt8) {k : ℕ} (hk : k < 8) :
    u64Shl (b &&& 0x7F).toNat (k * 7) = some ((b &&& 0x7F).toNat <<< (k * 7)) := by
  have hlow : (b &&& 0x7F).toNat < 2 ^ 7 := by
    rw [UInt8.toNat_and]
    exact Nat.and_lt_two_pow _ (by decide)
  have hplace : 2 ^ (k * 7) ≤ 2 ^ 49 := Nat.pow_le_pow_right (by decide) (by omega)
  have hfits : (b &&& 0x7F).toNat <<< (k * 7) < 2 ^ 64 := by
    rw [Nat.shiftLeft_eq]
    calc
      (b &&& 0x7F).toNat * 2 ^ (k * 7) ≤ 2 ^ 7 * 2 ^ 49 :=
        Nat.mul_le_mul (Nat.le_of_lt hlow) hplace
      _ < 2 ^ 64 := by decide
  rw [u64Shl, if_pos (by omega), Nat.mod_eq_of_lt hfits]

theorem leb128Loop_eq {start : ℕ} (hstart : start + 8 < 2 ^ 64) {rounds k value : ℕ}
    (hk : k + rounds ≤ 8) :
    leb128Loop frame start rounds k value =
      some (leb128From rounds k value (frame.drop (start + k))) := by
  induction rounds generalizing k value with
  | zero => rfl
  | succ rounds ih =>
      have hbyte : frame[start + k]? = (frame.drop (start + k))[0]? := by
        rw [List.getElem?_drop, Nat.add_zero]
      rw [leb128Loop, usizeAdd_of_lt (by omega)]
      simp only [Option.bind_eq_bind, Option.bind_some, hbyte]
      cases hrest : frame.drop (start + k) with
      | nil => rfl
      | cons b rest =>
          have hnext : frame.drop (start + (k + 1)) = rest := by
            rw [← Nat.add_assoc]
            exact drop_add_of_append [b] hrest rfl
          have hmul : usizeMul k 7 = some (k * 7) := if_pos (by omega)
          simp only [List.getElem?_cons_zero, hmul, u64Shl_low b (show k < 8 by omega),
            Option.bind_some, usizeAdd_of_lt (show k + 1 < 2 ^ 64 by omega), leb128From]
          split_ifs with hlast
          · rfl
          · rw [ih (by omega), hnext]

theorem leb128From_le {rounds k value v width : ℕ} {bytes : Bytes}
    (h : leb128From rounds k value bytes = some (v, width)) : width ≤ k + rounds := by
  induction rounds generalizing k value bytes with
  | zero => cases h
  | succ rounds ih =>
      cases bytes with
      | nil => cases h
      | cons b rest =>
          simp only [leb128From] at h
          split_ifs at h with hlast
          · have hwidth := (Prod.mk.inj (Option.some.inj h)).2
            omega
          · have := ih h
            omega

theorem leb128_le {bytes : Bytes} {v width : ℕ} (h : leb128 bytes = some (v, width)) :
    width ≤ 8 := by
  simpa using leb128From_le h

/-- A header byte, an extension byte and a size of at most eight bytes. -/
theorem obuAt_le {bytes : Bytes} {w n : ℕ} (h : obuAt bytes = some (w, n)) : w ≤ 10 := by
  cases bytes with
  | nil => cases h
  | cons header rest =>
      simp only [obuAt] at h
      set width := if header &&& OBU_EXTENSION_FLAG ≠ 0 then 2 else 1 with hwidth
      have hsmall : width ≤ 2 := by
        rw [hwidth]
        split_ifs <;> decide
      split_ifs at h with hforbidden hshort hsize
      · simp only [Option.bind_eq_bind, Option.bind_eq_some_iff] at h
        obtain ⟨⟨len, k⟩, hleb, hsome⟩ := h
        have hk := leb128_le hleb
        have hw := (Prod.mk.inj (Option.some.inj hsome)).1
        omega
      · have hw := (Prod.mk.inj (Option.some.inj h)).1
        omega

theorem obuHeadAt_eq (hframe : frame.length ≤ ISIZE_MAX) (hi : i < frame.length) :
    obuHeadAt frame i = some (obuAt (frame.drop i)) := by
  rw [ISIZE_MAX] at hframe
  cases hrest : frame.drop i with
  | nil => exact absurd (List.drop_eq_nil_iff.mp hrest) (by omega)
  | cons header rest =>
      have hlen := congrArg List.length hrest
      rw [List.length_drop, List.length_cons] at hlen
      have hfirst : frame[i]? = some header := by
        rw [← Nat.add_zero i, ← List.getElem?_drop, hrest]
        rfl
      set width := if header &&& OBU_EXTENSION_FLAG ≠ 0 then 2 else 1 with hwidth
      have hlead : obuLead header = some width := by
        rw [hwidth, obuLead]
        split_ifs <;> rfl
      have hsmall : width ≤ 2 := by
        rw [hwidth]
        split_ifs <;> decide
      rw [obuHeadAt, hfirst, obuAt, ← hwidth]
      simp only [Option.bind_eq_bind, Option.bind_some, hlead]
      by_cases hforbidden : header &&& OBU_FORBIDDEN_BIT ≠ 0
      · rw [if_pos hforbidden, if_pos hforbidden]
      · rw [if_neg hforbidden, if_neg hforbidden, usizeAdd_of_lt (by omega), Option.bind_some]
        by_cases hshort : frame.length < i + width
        · rw [if_pos hshort, if_pos (by omega)]
        · have hroom : ¬rest.length + 1 < width := by omega
          rw [if_neg hshort, if_neg hroom]
          by_cases hsize : header &&& OBU_HAS_SIZE_FIELD ≠ 0
          · have hleb : leb128Loop frame (i + width) 8 0 0 =
                some (leb128 ((header :: rest).drop width)) := by
              rw [leb128Loop_eq (by omega) (by omega), Nat.add_zero, ← List.drop_drop, hrest]
              rfl
            rw [if_pos hsize, if_pos hsize, hleb, Option.bind_some]
            cases hread : leb128 ((header :: rest).drop width) with
            | none => rfl
            | some v =>
                obtain ⟨len, k⟩ := v
                have hk := leb128_le hread
                simp only [Option.bind_some, usizeAdd_of_lt (show width + k < 2 ^ 64 by omega)]
          · rw [if_neg hsize, if_neg hsize]
            congr 3
            omega

theorem obu_headAt (hframe : frame.length ≤ ISIZE_MAX) :
    HeadAt frame (obuHeadAt frame) (fun start n => some (usizeAdd start n)) obuAt := by
  constructor
  · exact fun hpos => obuHeadAt_eq hframe hpos
  · intro pos w n hpos hhead
    have := obuAt_le hhead
    rw [ISIZE_MAX] at hframe
    omega
  · intro pos w n hpos hhead
    apply And.intro (obuAt_local.pos hhead)
    by_cases hfits : pos + w + n < 2 ^ 64
    · exact Or.inl (congrArg some (usizeAdd_of_lt hfits))
    · rw [ISIZE_MAX] at hframe
      exact Or.inr ⟨congrArg some (if_neg hfits), by omega⟩

/-! ## Layouts -/

theorem fromUnitsLoop_eq {header total : ℕ} {units : List FrameUnit} {l : Layout}
    (hunits : ∀ u ∈ units, u.2.start + header < 2 ^ 64)
    (htiles : Layout.tiles ⟨mergeAdjacent (l.clear ++ clearRanges header units),
      l.secret ++ secretRanges header units⟩ total = true) :
    fromUnitsLoop header total units l =
      some ⟨mergeAdjacent (l.clear ++ clearRanges header units),
        l.secret ++ secretRanges header units⟩ := by
  induction units generalizing l with
  | nil =>
      simp only [clearRanges, secretRanges, List.map_nil, List.filterMap_nil, List.append_nil]
        at htiles ⊢
      rw [fromUnitsLoop, if_pos htiles]
  | cons u units ih =>
      obtain ⟨lead, body⟩ := u
      have hclear : l.clear ++ clearRanges header ((lead, body) :: units) =
          l.clear ++ [⟨lead.start, clearEnd header body⟩] ++ clearRanges header units := by
        simp [clearRanges]
      have hsecret : l.secret ++ secretRanges header ((lead, body) :: units) =
          (if clearEnd header body < body.stop then
            l.secret ++ [⟨clearEnd header body, body.stop⟩] else l.secret) ++
            secretRanges header units := by
        rw [secretRanges, List.filterMap_cons]
        split_ifs <;> simp [secretRanges]
      have hcut : body.start + header < 2 ^ 64 := hunits (lead, body) (by simp)
      rw [hclear, hsecret] at htiles ⊢
      rw [fromUnitsLoop, usizeAdd_of_lt hcut, Option.bind_eq_bind, Option.bind_some]
      exact ih (fun v hv => hunits v (by simp [hv])) htiles

theorem place_start_le {pos : ℕ} {us : Runs} :
    ∀ u ∈ place pos us, u.2.start ≤ pos + total us := by
  induction us generalizing pos with
  | nil => simp [place]
  | cons u us ih =>
      obtain ⟨w, n⟩ := u
      intro v hv
      simp only [place, List.mem_cons] at hv
      simp only [total_cons]
      rcases hv with rfl | hv
      · simp only
        omega
      · have := ih v hv
        omega

/-- Units that fill the frame give their layout, and the assertion at the end holds. -/
theorem fromUnitsLoop_place {us : Runs} {h : ℕ} (hframe : frame.length ≤ ISIZE_MAX) (hh : h ≤ 2)
    (hwidth : ∀ u ∈ us, 0 < u.1) (htotal : total us = frame.length) :
    fromUnitsLoop h frame.length (place 0 us) ⟨[], []⟩ = some (fromUnits (place 0 us) h) := by
  have htiles : (fromUnits (place 0 us) h).tiles frame.length = true := by
    have hcover := (built_cover (@Built.units frame.length us h hwidth)).tiles
    rwa [marks_length, total_unitRuns, htotal] at hcover
  apply fromUnitsLoop_eq (l := ⟨[], []⟩) _ htiles
  intro u hu
  have := place_start_le u hu
  rw [ISIZE_MAX] at hframe
  omega

theorem annexBUnits_place {units : List FrameUnit} (hunits : annexBUnits frame = some units) :
    ∃ us, units = place 0 us ∧ (∀ u ∈ us, 0 < u.1) ∧ total us = frame.length := by
  rw [annexBUnits_eq] at hunits
  split_ifs at hunits with hcode
  have hframe := assemble_scan frame
  rw [hcode.1, List.nil_append] at hframe
  exact ⟨_, (Option.some.inj hunits).symm, lengths_width _, by rw [total_lengths, hframe]⟩

theorem unitsFrom_place {head : Bytes → Option (ℕ × ℕ)} (hl : LocalHead head)
    {units : List FrameUnit} (hunits : unitsFrom head (frame.length + 1) 0 frame = some units) :
    ∃ us, units = place 0 us ∧ (∀ u ∈ us, 0 < u.1) ∧ total us = frame.length := by
  rw [unitsFrom_eq] at hunits
  obtain ⟨us, hsplit, rfl⟩ := Option.map_eq_some_iff.mp hunits
  exact ⟨us, rfl, split_width hl hsplit, split_total hl (by omega) hsplit⟩

/-- A loop over units finds what the parser finds. -/
theorem unitsLoop_unitsFrom {unitAt : ℕ → Option (Option (ℕ × ℕ))}
    {bodyEndOf : ℕ → ℕ → Option (Option ℕ)} {head : Bytes → Option (ℕ × ℕ)}
    (h : HeadAt frame unitAt bodyEndOf head) :
    unitsLoop frame unitAt bodyEndOf (frame.length + 1) 0 [] =
      some (unitsFrom head (frame.length + 1) 0 frame) := by
  rw [unitsLoop_eq h (by omega) (by omega), List.drop_zero]
  simp

theorem lengthPrefixedUnitsAt_eq (hframe : frame.length ≤ ISIZE_MAX) :
    lengthPrefixedUnitsAt frame = some (lengthPrefixedUnits frame) := by
  rw [lengthPrefixedUnitsAt, unitsLoop_unitsFrom (lengthPrefixed_headAt hframe),
    lengthPrefixedUnits, Option.bind_eq_bind, Option.bind_some]
  cases unitsFrom lengthPrefixedUnitAt (frame.length + 1) 0 frame with
  | none => rfl
  | some units => rfl

theorem layoutWithHeaderAt_eq {h : ℕ} (hframe : frame.length ≤ ISIZE_MAX) (hh : h ≤ 2) :
    layoutWithHeaderAt frame h = some (layoutWithHeader frame h) := by
  rw [layoutWithHeaderAt, layoutWithHeader, annexBUnitsAt_eq hframe,
    lengthPrefixedUnitsAt_eq hframe]
  by_cases hempty : frame = []
  · rw [if_pos hempty, hempty]
    rfl
  · rw [if_neg hempty, if_neg (by simpa using hempty), Option.bind_eq_bind, Option.bind_some]
    cases hannex : annexBUnits frame with
    | some units =>
        obtain ⟨us, rfl, hwidth, htotal⟩ := annexBUnits_place hannex
        exact fromUnitsLoop_place hframe hh hwidth htotal
    | none =>
        simp only [Option.bind_some]
        cases hprefixed : lengthPrefixedUnits frame with
        | none => rfl
        | some units =>
            rw [lengthPrefixedUnits] at hprefixed
            obtain ⟨found, hfound, hunits⟩ := Option.bind_eq_some_iff.mp hprefixed
            split_ifs at hunits
            cases hunits
            obtain ⟨us, rfl, hwidth, htotal⟩ := unitsFrom_place lengthPrefixedUnitAt_local hfound
            exact fromUnitsLoop_place hframe hh hwidth htotal

theorem av1LayoutAt_eq (hframe : frame.length ≤ ISIZE_MAX) :
    av1LayoutAt frame = some (av1Layout frame) := by
  rw [av1LayoutAt, av1Layout, unitsLoop_unitsFrom (obu_headAt hframe), Option.bind_eq_bind,
    Option.bind_some]
  cases hfound : unitsFrom obuAt (frame.length + 1) 0 frame with
  | none => rfl
  | some units =>
      obtain ⟨us, rfl, hwidth, htotal⟩ := unitsFrom_place obuAt_local hfound
      simp only
      split_ifs
      · rfl
      · exact fromUnitsLoop_place hframe (by omega) hwidth htotal

theorem layoutAt_eq (codec : Codec) (keyframe : Bool) (hframe : frame.length ≤ ISIZE_MAX) :
    layoutAt codec frame keyframe = some (layout codec frame keyframe) := by
  cases codec with
  | h264 => exact layoutWithHeaderAt_eq hframe (by omega)
  | h265 => exact layoutWithHeaderAt_eq hframe (by omega)
  | av1 => exact av1LayoutAt_eq hframe
  | vp8 => rfl
  | vp9 => rfl
  | opus => rfl
  | generic => rfl

end Frame

/-- Every layout partitions its frame, no parser panics on the way to it, and scattering through it
touches the protected bytes only. -/
theorem layout_tiles (codec : Codec) (frame : Bytes) (keyframe : Bool) :
    Tiling (layout codec frame keyframe) frame.length ∧
      (layout codec frame keyframe).tiles frame.length = true ∧
      (frame.length ≤ ISIZE_MAX →
        layoutAt codec frame keyframe = some (layout codec frame keyframe)) ∧
      scatter frame (layout codec frame keyframe) (gather frame (layout codec frame keyframe)) =
        frame ∧
      ∀ data, (layout codec frame keyframe).secretLen ≤ data.length →
        ∀ r ∈ (layout codec frame keyframe).clear, ∀ i, r.Has i →
          (scatter frame (layout codec frame keyframe) data)[i]? = frame[i]? := by
  have hcover := built_cover (layout_built codec frame keyframe)
  have hlen : (marks (runs codec frame keyframe)).length = frame.length := by
    rw [marks_length, total_runs]
  have htiling := hcover.tiling
  have htiles := hcover.tiles
  rw [hlen] at htiling htiles
  have hinside : ∀ r ∈ (layout codec frame keyframe).secret,
      r.start ≤ r.stop ∧ r.stop ≤ frame.length := by
    intro r hr
    have := htiling.inside r (List.mem_append_right _ hr)
    omega
  refine ⟨htiling, htiles, layoutAt_eq codec keyframe, scatterRanges_slices hinside, ?_⟩
  intro data hdata r hr i hi
  apply scatterRanges_getElem? hinside hdata
  intro r' hr' hi'
  have hapart : r.stop ≤ r'.start ∨ r'.stop ≤ r.start :=
    (List.pairwise_append.mp htiling.apart).2.2 r hr r' hr'
  rw [Range.Has] at hi hi'
  omega

theorem layout_tiles_nal :
    Tiling (layout .h264 [0, 0, 0, 1, 0x65, 7, 8] true) 7 ∧
      layoutAt .h264 [0, 0, 0, 1, 0x65, 7, 8] true = some ⟨[⟨0, 5⟩], [⟨5, 7⟩]⟩ ∧
      (scatter [0, 0, 0, 1, 0x65, 7, 8] (layout .h264 [0, 0, 0, 1, 0x65, 7, 8] true) [1, 2])[4]? =
        some 0x65 := by
  have h := layout_tiles .h264 [0, 0, 0, 1, 0x65, 7, 8] true
  have hlayout : layout .h264 [0, 0, 0, 1, 0x65, 7, 8] true = ⟨[⟨0, 5⟩], [⟨5, 7⟩]⟩ := by
    decide +kernel
  refine ⟨h.1, ?_, ?_⟩
  · rw [h.2.2.1 (by decide), hlayout]
  · rw [h.2.2.2.2 [1, 2] (by rw [hlayout]; decide) ⟨0, 5⟩ (by rw [hlayout]; decide) 4 (by decide)]
    rfl

end CausalFrontierRatchet.LayoutBounds
