import CausalFrontierRatchet.LayoutTiling

/-!
AV1 frames as a grammar.  An open bitstream unit is written down with the conditions on its fields,
and a frame is a sequence of units of which only the last may leave out its size.  The parser
accepts exactly these frames, and what it shows of them is the bytes in front of the payloads.
-/

namespace CausalFrontierRatchet.ObuGrammar

open BigEndian AlternatingRuns SelfDelimiting MediaLayout FrameRuns LayoutTiling

/-! ## Sizes -/

/-- Base-128 digits, the least significant first, and their value.  The high bit tells whether a
digit follows; zeros at the end are allowed. -/
inductive Leb128 : Bytes → ℕ → Prop where
  | last {b : UInt8} (h : b &&& 0x80 = 0) : Leb128 [b] (b &&& 0x7F).toNat
  | more {b : UInt8} {bytes : Bytes} {v : ℕ} (h : b &&& 0x80 ≠ 0) (hrest : Leb128 bytes v) :
      Leb128 (b :: bytes) ((b &&& 0x7F).toNat + 2 ^ 7 * v)

theorem digit_lt (b : UInt8) : (b &&& 0x7F).toNat < 2 ^ 7 := by
  rw [UInt8.toNat_and]
  exact Nat.and_lt_two_pow _ (by decide)

/-- A digit at place `i` lies above the digits read so far. -/
theorem digit_or {value i : ℕ} (hvalue : value < 2 ^ (i * 7)) (d : ℕ) :
    value ||| d <<< (i * 7) = value + d * 2 ^ (i * 7) := by
  rw [Nat.or_comm, ← Nat.shiftLeft_add_eq_or_of_lt hvalue, Nat.shiftLeft_eq, Nat.add_comm]

theorem digit_add_lt {value i : ℕ} (hvalue : value < 2 ^ (i * 7)) (b : UInt8) :
    value + (b &&& 0x7F).toNat * 2 ^ (i * 7) < 2 ^ ((i + 1) * 7) := by
  have hb := digit_lt b
  calc
    value + (b &&& 0x7F).toNat * 2 ^ (i * 7) < ((b &&& 0x7F).toNat + 1) * 2 ^ (i * 7) := by
      rw [Nat.add_mul, Nat.one_mul]
      omega
    _ ≤ 2 ^ 7 * 2 ^ (i * 7) := Nat.mul_le_mul_right _ hb
    _ = 2 ^ ((i + 1) * 7) := by rw [← Nat.pow_add, Nat.add_mul, Nat.one_mul, Nat.add_comm]

/-- Digits are read to their value. -/
theorem leb128From_append {bytes : Bytes} {v : ℕ} (h : Leb128 bytes v) {rounds i value : ℕ}
    (hrounds : bytes.length ≤ rounds) (hvalue : value < 2 ^ (i * 7)) (rest : Bytes) :
    leb128From rounds i value (bytes ++ rest) =
      some (value + v * 2 ^ (i * 7), i + bytes.length) := by
  induction h generalizing rounds i value with
  | @last b hlast =>
      obtain ⟨rounds, rfl⟩ : ∃ r, rounds = r + 1 := ⟨rounds - 1, by simp at hrounds; omega⟩
      rw [List.singleton_append, leb128From]
      simp only [hlast, if_true, digit_or hvalue, List.length_singleton]
  | @more b bytes v hmore _ ih =>
      obtain ⟨rounds, rfl⟩ : ∃ r, rounds = r + 1 := ⟨rounds - 1, by simp at hrounds; omega⟩
      have hplace : 2 ^ ((i + 1) * 7) = 2 ^ 7 * 2 ^ (i * 7) := by
        rw [← Nat.pow_add, Nat.add_mul, Nat.one_mul, Nat.add_comm]
      rw [List.cons_append, leb128From]
      simp only [hmore, if_false, digit_or hvalue]
      rw [ih (by simpa using hrounds) (digit_add_lt hvalue b), hplace, List.length_cons]
      congr 2
      · ring
      · omega

/-- What was read are digits. -/
theorem exists_leb128 {rounds i value total k : ℕ} {bytes : Bytes} (hvalue : value < 2 ^ (i * 7))
    (h : leb128From rounds i value bytes = some (total, k)) :
    ∃ digits rest v, bytes = digits ++ rest ∧ Leb128 digits v ∧ digits.length ≤ rounds ∧
      total = value + v * 2 ^ (i * 7) ∧ k = i + digits.length := by
  induction rounds generalizing i value bytes with
  | zero => cases h
  | succ rounds ih =>
      cases bytes with
      | nil => cases h
      | cons b bytes =>
          have hplace : 2 ^ ((i + 1) * 7) = 2 ^ 7 * 2 ^ (i * 7) := by
            rw [← Nat.pow_add, Nat.add_mul, Nat.one_mul, Nat.add_comm]
          simp only [leb128From, digit_or hvalue] at h
          split_ifs at h with hlast
          · obtain ⟨rfl, rfl⟩ := Prod.mk.inj (Option.some.inj h)
            exact ⟨[b], bytes, _, rfl, .last hlast, by simp, rfl, rfl⟩
          · obtain ⟨digits, rest, v, rfl, hdigits, hlen, rfl, rfl⟩ := ih (digit_add_lt hvalue b) h
            refine ⟨b :: digits, rest, _, rfl, .more hlast hdigits, by simpa using hlen, ?_, ?_⟩
            · rw [hplace]
              ring
            · rw [List.length_cons]
              omega

/-! ## Units -/

/-- An open bitstream unit. -/
structure Obu where
  header : UInt8
  extension : Option UInt8
  size : Option Bytes
  payload : Bytes
  forbidden : header &&& OBU_FORBIDDEN_BIT = 0
  extended : extension.isSome ↔ header &&& OBU_EXTENSION_FLAG ≠ 0
  sized : size.isSome ↔ header &&& OBU_HAS_SIZE_FIELD ≠ 0
  measured : ∀ digits ∈ size, digits.length ≤ 8 ∧ Leb128 digits payload.length

/-- The bytes in front of the payload. -/
def Obu.lead (o : Obu) : Bytes :=
  o.header :: (o.extension.toList ++ o.size.getD [])

def Obu.bytes (o : Obu) : Bytes :=
  o.lead ++ o.payload

/-- Only the last unit may leave out its size: it extends to the end of the frame. -/
def Delimited (obus : List Obu) : Prop :=
  ∀ o ∈ obus.dropLast, o.size.isSome

/-- The bytes of a sequence of units. -/
def frameOf (obus : List Obu) : Bytes :=
  obus.flatMap Obu.bytes

/-- The bytes in front of the payloads stay readable. -/
def obuMarks (obus : List Obu) : List Bool :=
  obus.flatMap fun o =>
    List.replicate o.lead.length true ++ List.replicate o.payload.length false

/-- Header and extension are read off the flag. -/
theorem exists_extension {header : UInt8} {tail : Bytes} {width : ℕ}
    (hwidth : width = if header &&& OBU_EXTENSION_FLAG ≠ 0 then 2 else 1)
    (hroom : width ≤ tail.length + 1) :
    ∃ (extension : Option UInt8) (body : Bytes), tail = extension.toList ++ body ∧
      (extension.isSome ↔ header &&& OBU_EXTENSION_FLAG ≠ 0) ∧
      width = 1 + extension.toList.length ∧ (header :: tail).drop width = body := by
  by_cases hflag : header &&& OBU_EXTENSION_FLAG ≠ 0
  · rw [if_pos hflag] at hwidth
    cases tail with
    | nil =>
        simp at hroom
        omega
    | cons e body => exact ⟨some e, body, rfl, by simp [hflag], by simp [hwidth], by simp [hwidth]⟩
  · rw [if_neg hflag] at hwidth
    exact ⟨none, tail, rfl, by simpa using hflag, by simp [hwidth], by simp [hwidth]⟩

theorem obuAt_bytes (o : Obu) {rest : Bytes} (hend : o.size = none → rest = []) :
    obuAt (o.bytes ++ rest) = some (o.lead.length, o.payload.length) := by
  obtain ⟨header, extension, size, payload, hforbidden, hextended, hsized, hmeasured⟩ := o
  have hbytes : Obu.bytes ⟨header, extension, size, payload, hforbidden, hextended, hsized,
      hmeasured⟩ ++ rest = header :: (extension.toList ++ (size.getD [] ++ (payload ++ rest))) := by
    simp [Obu.bytes, Obu.lead]
  have hwidth : (if header &&& OBU_EXTENSION_FLAG ≠ 0 then 2 else 1) =
      1 + extension.toList.length := by
    cases extension with
    | none => rw [if_neg (by simpa using hextended)]; rfl
    | some e => rw [if_pos (by simpa using hextended)]; rfl
  have hdrop : (header :: (extension.toList ++ (size.getD [] ++ (payload ++ rest)))).drop
      (1 + extension.toList.length) = size.getD [] ++ (payload ++ rest) := by
    rw [Nat.add_comm, List.drop_succ_cons, List.drop_left]
  rw [hbytes, obuAt, if_neg (by simpa using hforbidden), hwidth]
  simp only [hdrop, Obu.lead]
  rw [if_neg (by simp only [List.length_append]; omega)]
  cases size with
  | none =>
      have hrest : rest = [] := hend rfl
      rw [if_neg (by simpa using hsized), hrest]
      simp
      omega
  | some digits =>
      obtain ⟨hlen, hdigits⟩ := hmeasured digits rfl
      have hread : leb128 (digits ++ (payload ++ rest)) = some (payload.length, digits.length) := by
        have hzero : 0 < 2 ^ (0 * 7) := by decide
        simpa [leb128] using leb128From_append hdigits hlen hzero (payload ++ rest)
      rw [if_pos (by simpa using hsized), Option.getD_some, hread]
      simp
      omega

theorem exists_obu {bytes : Bytes} {w n : ℕ} (h : obuAt bytes = some (w, n))
    (hfits : w + n ≤ bytes.length) :
    ∃ o rest, bytes = Obu.bytes o ++ rest ∧ (o.size = none → rest = []) ∧
      o.lead.length = w ∧ o.payload.length = n := by
  cases bytes with
  | nil => cases h
  | cons header tail =>
      simp only [obuAt] at h
      set width := if header &&& OBU_EXTENSION_FLAG ≠ 0 then 2 else 1 with hwidth
      split_ifs at h with hforbidden hroom hsize
      · obtain ⟨extension, body, rfl, hextended, hlead, hbody⟩ :=
          exists_extension hwidth (Nat.le_of_not_lt hroom)
        rw [hbody] at h
        obtain ⟨⟨len, k⟩, hread, hsome⟩ := Option.bind_eq_some_iff.mp h
        obtain ⟨rfl, rfl⟩ := Prod.mk.inj (Option.some.inj hsome)
        have hzero : 0 < 2 ^ (0 * 7) := by decide
        obtain ⟨digits, tail, v, rfl, hdigits, hlen, hv, rfl⟩ := exists_leb128 hzero hread
        obtain rfl : len = v := by simpa using hv
        simp only [List.length_cons, List.length_append] at hfits
        have hpayload : (tail.take len).length = len := by
          rw [List.length_take]
          omega
        let o : Obu := ⟨header, extension, some digits, tail.take len, by simpa using hforbidden,
          hextended, by simpa using hsize, by
            rintro digits' ⟨⟩
            rw [hpayload]
            exact ⟨hlen, hdigits⟩⟩
        refine ⟨o, tail.drop len, ?_, by simp [o], ?_, hpayload⟩
        · simp [o, Obu.bytes, Obu.lead]
        · simp [o, Obu.lead]
          omega
      · obtain ⟨extension, body, rfl, hextended, hlead, hbody⟩ :=
          exists_extension hwidth (Nat.le_of_not_lt hroom)
        obtain ⟨rfl, rfl⟩ := Prod.mk.inj (Option.some.inj h)
        let o : Obu := ⟨header, extension, none, body, by simpa using hforbidden, hextended,
          by simpa using hsize, by simp⟩
        refine ⟨o, [], ?_, by simp, ?_, ?_⟩
        · simp [o, Obu.bytes, Obu.lead]
        · simp [o, Obu.lead]
          omega
        · simp [o]
          omega

/-! ## Frames -/

theorem lead_pos (o : Obu) : 0 < o.lead.length := by
  simp [Obu.lead]

@[simp] theorem frameOf_cons (o : Obu) (os : List Obu) :
    frameOf (o :: os) = o.bytes ++ frameOf os := rfl

theorem bytes_length (o : Obu) : o.bytes.length = o.lead.length + o.payload.length := by
  rw [Obu.bytes, List.length_append]

/-- A unit followed by others has a size, and the others are delimited. -/
theorem delimited_cons {o : Obu} {os : List Obu} :
    Delimited (o :: os) ↔ (o.size = none → os = []) ∧ Delimited os := by
  cases os with
  | nil => simp [Delimited]
  | cons p os =>
      simp [Delimited, Option.isSome_iff_ne_none]

/-- A delimited sequence of units is split into these units. -/
theorem split_frameOf {obus : List Obu} (h : Delimited obus) {fuel : ℕ}
    (hfuel : (frameOf obus).length ≤ fuel) :
    split obuAt fuel (frameOf obus) =
      some (obus.map fun o => (o.lead.length, o.payload.length)) := by
  induction obus generalizing fuel with
  | nil => simp [frameOf]
  | cons o os ih =>
      obtain ⟨hend, hos⟩ := delimited_cons.mp h
      have hlead := lead_pos o
      rw [frameOf_cons, List.length_append, bytes_length] at hfuel
      obtain ⟨fuel, rfl⟩ : ∃ f, fuel = f + 1 := ⟨fuel - 1, by omega⟩
      have hhead : obuAt (o.bytes ++ frameOf os) = some (o.lead.length, o.payload.length) := by
        apply obuAt_bytes
        intro hsize
        rw [hend hsize]
        rfl
      have hdrop : (o.bytes ++ frameOf os).drop (o.lead.length + o.payload.length) = frameOf os :=
        List.drop_left' (bytes_length o)
      have hempty : (o.bytes ++ frameOf os).isEmpty = false := by
        rw [List.isEmpty_eq_false_iff, ← List.length_pos_iff, List.length_append, bytes_length]
        omega
      have hfits : ¬(o.bytes ++ frameOf os).length < o.lead.length + o.payload.length := by
        rw [List.length_append, bytes_length]
        omega
      rw [frameOf_cons, split, hempty, hhead]
      simp only [Bool.false_eq_true, if_false, Option.bind_eq_bind, Option.bind_some, hdrop,
        ih hos (show (frameOf os).length ≤ fuel by omega), hfits]
      rfl

/-- What is split into units is a delimited sequence of them. -/
theorem exists_frameOf {fuel : ℕ} {frame : Bytes} {us : Runs} (hfuel : frame.length ≤ fuel)
    (h : split obuAt fuel frame = some us) :
    ∃ obus, Delimited obus ∧ frameOf obus = frame ∧
      us = obus.map fun o => (o.lead.length, o.payload.length) := by
  induction fuel generalizing frame us with
  | zero =>
      obtain rfl : frame = [] := List.eq_nil_of_length_eq_zero (by omega)
      exact ⟨[], by simp [Delimited], rfl, by simpa [split] using h.symm⟩
  | succ fuel ih =>
      by_cases hframe : frame = []
      · subst hframe
        exact ⟨[], by simp [Delimited], rfl, by simpa [split] using h.symm⟩
      · obtain ⟨w, n, vs, hhead, hfits, hvs, rfl⟩ := split_succ hframe h
        obtain ⟨o, rest, rfl, hend, rfl, rfl⟩ := exists_obu hhead hfits
        have hlead := lead_pos o
        rw [List.drop_left' (bytes_length o)] at hvs
        rw [List.length_append, bytes_length] at hfuel
        obtain ⟨os, hos, rfl, rfl⟩ := ih (by omega) hvs
        refine ⟨o :: os, delimited_cons.mpr ⟨?_, hos⟩, rfl, rfl⟩
        intro hsize
        cases os with
        | nil => rfl
        | cons p os =>
            have := lead_pos p
            have hnil := congrArg List.length (hend hsize)
            rw [frameOf_cons, List.length_append, bytes_length, List.length_nil] at hnil
            omega

/-- A frame of the grammar. -/
def IsObus (frame : Bytes) : Prop :=
  ∃ obus, Delimited obus ∧ frameOf obus = frame

section Layout

variable {frame : Bytes}

theorem marks_obus (obus : List Obu) :
    marks (unitRuns 0 (obus.map fun o => (o.lead.length, o.payload.length))) = obuMarks obus := by
  rw [marks_unitRuns, List.flatMap_map]
  simp [unitMarks, obuMarks]

/-- The marks of a frame of the grammar. -/
theorem marks_av1Runs {obus : List Obu} (h : Delimited obus) (hframe : frameOf obus = frame) :
    marks (av1Runs frame) = obuMarks obus := by
  have hfuel : (frameOf obus).length ≤ frame.length + 1 := by
    rw [hframe]
    omega
  have hsplit := split_frameOf h hfuel
  rw [hframe] at hsplit
  rw [av1Runs, splitRuns, hsplit, ← marks_obus]
  cases obus with
  | nil =>
      obtain rfl : frame = [] := hframe.symm
      simp [opaqueRuns]
  | cons o os => rfl

/-- A frame outside the grammar is content as a whole. -/
theorem av1Runs_of_not (h : ¬IsObus frame) :
    av1Runs frame = opaqueRuns frame ∧ av1Layout frame = Layout.leading 0 frame.length := by
  rcases splitRuns_eq obuAt 0 frame with ⟨us, hsplit, -, -, -⟩ | ⟨hunits, hruns⟩
  · obtain ⟨obus, hobus, hframe, -⟩ := exists_frameOf (Nat.le_add_right _ 1) hsplit
    exact absurd ⟨obus, hobus, hframe⟩ h
  · rw [av1Runs, hruns, av1Layout]
    apply And.intro rfl
    rcases hunits with hunits | hunits
    · rw [hunits]
    · rw [hunits]
      rfl

theorem mem_obuMarks {obus : List Obu} (h : obus ≠ []) : (obuMarks obus)[0]? = some true := by
  cases obus with
  | nil => exact absurd rfl h
  | cons o os =>
      rw [obuMarks, List.flatMap_cons, List.append_assoc, List.getElem?_append_left]
      · simp [lead_pos o]
      · simpa using lead_pos o

end Layout

/-- The parser accepts exactly the frames of the grammar, shows exactly what stands in front of
their payloads, and protects everything else in full. -/
theorem av1_layout_iff (frame : Bytes) (keyframe : Bool) :
    (frame ≠ [] →
      (IsObus frame ↔ ∃ i, ∃ r ∈ (layout .av1 frame keyframe).clear, r.Has i)) ∧
      (∀ obus, Delimited obus → frameOf obus = frame →
        Marked (layout .av1 frame keyframe) (obuMarks obus)) ∧
      (¬IsObus frame → layout .av1 frame keyframe = ⟨[], [⟨0, frame.length⟩]⟩) := by
  have hmarked : Marked (layout .av1 frame keyframe) (marks (av1Runs frame)) :=
    layout_marked .av1 frame keyframe
  have hother : ¬IsObus frame → layout .av1 frame keyframe = ⟨[], [⟨0, frame.length⟩]⟩ := by
    intro hnot
    have hpos : 0 < frame.length := by
      apply List.length_pos_iff.mpr
      rintro rfl
      exact hnot ⟨[], by simp [Delimited], rfl⟩
    rw [layout, (av1Runs_of_not hnot).2, Layout.leading]
    simp [hpos]
  refine ⟨fun hne => ⟨?_, ?_⟩, ?_, hother⟩
  · rintro ⟨obus, hobus, hframe⟩
    rw [marks_av1Runs hobus hframe] at hmarked
    refine ⟨0, (hmarked 0).1.mpr (mem_obuMarks ?_)⟩
    rintro rfl
    exact hne hframe.symm
  · rintro ⟨i, r, hr, hi⟩
    by_contra hnot
    rw [hother hnot] at hr
    simp at hr
  · intro obus hobus hframe
    rw [marks_av1Runs hobus hframe] at hmarked
    exact hmarked

/-- A sized unit of two bytes, its size written in two bytes, and an extended one without a size. -/
def sampleObus : List Obu :=
  [⟨0x12, none, some [0x82, 0x00], [7, 8], by decide, by decide, by decide, by
      rintro digits ⟨⟩
      exact ⟨by decide, .more (by decide) (.last (by decide))⟩⟩,
    ⟨0x14, some 0x20, none, [9], by decide, by decide, by decide, by simp⟩]

theorem av1_layout_sample :
    IsObus [0x12, 0x82, 0x00, 7, 8, 0x14, 0x20, 9] ∧
      Marked (layout .av1 [0x12, 0x82, 0x00, 7, 8, 0x14, 0x20, 9] false)
        [true, true, true, false, false, true, true, false] ∧
      layout .av1 [0x80] false = ⟨[], [⟨0, 1⟩]⟩ := by
  have hdelimited : Delimited sampleObus := by simp [Delimited, sampleObus]
  have hobus : IsObus [0x12, 0x82, 0x00, 7, 8, 0x14, 0x20, 9] := ⟨sampleObus, hdelimited, rfl⟩
  have hother : ¬IsObus [0x80] := by
    intro h
    obtain ⟨i, r, hr, -⟩ := ((av1_layout_iff [0x80] false).1 (by simp)).mp h
    rw [show layout .av1 [0x80] false = ⟨[], [⟨0, 1⟩]⟩ by decide] at hr
    simp at hr
  exact ⟨hobus, (av1_layout_iff _ false).2.1 sampleObus hdelimited rfl,
    (av1_layout_iff [0x80] false).2.2 hother⟩

end CausalFrontierRatchet.ObuGrammar
