import CausalFrontierRatchet.StartCodes

/-!
The runs of every codec.  `runs` gives the alternating runs a frame is cut into, `layout_follows`
ties them to the layout the source computes, and the unit heads of the two self-delimiting
containers are shown to be local.
-/

namespace CausalFrontierRatchet.FrameRuns

open BigEndian AlternatingRuns SelfDelimiting MediaLayout LayoutRuns StartCodes

/-- The runs of an Annex-B frame; `none` when it does not open with a start code. -/
def annexBRuns (h : ℕ) (frame : Bytes) : Option Runs :=
  if (scan frame).1 = [] ∧ (scan frame).2 ≠ [] then some (unitRuns h (lengths (scan frame).2))
  else none

/-- The runs of a frame of units that announce their size; `none` when it is not one. -/
def splitRuns (unitAt : Bytes → Option (ℕ × ℕ)) (h : ℕ) (frame : Bytes) : Option Runs :=
  match split unitAt (frame.length + 1) frame with
  | some (u :: us) => some (unitRuns h (u :: us))
  | _ => none

/-- The fall-back: the whole frame is content. -/
def opaqueRuns (frame : Bytes) : Runs :=
  [(0, frame.length)]

def headerRuns (h : ℕ) (frame : Bytes) : Runs :=
  match annexBRuns h frame with
  | some rs => rs
  | none => (splitRuns lengthPrefixedUnitAt h frame).getD (opaqueRuns frame)

def av1Runs (frame : Bytes) : Runs :=
  (splitRuns obuAt 0 frame).getD (opaqueRuns frame)

/-- The runs of a frame whose first `n` bytes are kept. -/
def leadingRuns (n : ℕ) (frame : Bytes) : Runs :=
  [(min n frame.length, frame.length - min n frame.length)]

def vp8Header (frame : Bytes) (keyframe : Bool) : ℕ :=
  if keyframe && (frame.head?.any fun b => b &&& 0x01 = 0) then VP8_UNCOMPRESSED + VP8_KEYFRAME_EXTRA
  else VP8_UNCOMPRESSED

def runs (codec : Codec) (frame : Bytes) (keyframe : Bool) : Runs :=
  match codec with
  | .h264 => headerRuns 1 frame
  | .h265 => headerRuns 2 frame
  | .av1 => av1Runs frame
  | .vp8 => leadingRuns (vp8Header frame keyframe) frame
  | .vp9 => opaqueRuns frame
  | .opus => leadingRuns 1 frame
  | .generic => opaqueRuns frame

/-! ## Local heads -/

theorem lengthPrefixedUnitAt_local : LocalHead lengthPrefixedUnitAt where
  pos := by
    intro xs w n h
    unfold lengthPrefixedUnitAt at h
    split_ifs at h
    cases h
    decide
  congr := by
    intro xs ys w n h hw hlen htake
    unfold lengthPrefixedUnitAt at h ⊢
    split_ifs at h with hshort hzero
    obtain ⟨rfl, rfl⟩ := Prod.mk.inj (Option.some.inj h)
    rw [hlen, htake, if_neg hshort, if_neg hzero]

theorem leb128From_width {rounds i value v k : ℕ} {bytes : Bytes}
    (h : leb128From rounds i value bytes = some (v, k)) : i < k ∧ k ≤ i + bytes.length := by
  induction rounds generalizing i value bytes with
  | zero => cases h
  | succ rounds ih =>
      cases bytes with
      | nil => cases h
      | cons b rest =>
          simp only [leb128From] at h
          split_ifs at h
          · obtain ⟨-, rfl⟩ := Prod.mk.inj (Option.some.inj h)
            simp only [List.length_cons]
            omega
          · have := ih h
            simp only [List.length_cons]
            omega

theorem leb128From_congr {rounds i value v k : ℕ} {bytes bytes' : Bytes}
    (h : leb128From rounds i value bytes = some (v, k))
    (htake : bytes'.take (k - i) = bytes.take (k - i)) :
    leb128From rounds i value bytes' = some (v, k) := by
  have hk := leb128From_width h
  induction rounds generalizing i value bytes bytes' with
  | zero => cases h
  | succ rounds ih =>
      obtain ⟨m, hm⟩ : ∃ m, k - i = m + 1 := ⟨k - i - 1, by omega⟩
      rw [hm] at htake
      cases bytes with
      | nil => cases h
      | cons b rest =>
          cases bytes' with
          | nil => simp at htake
          | cons b' rest' =>
              simp only [List.take_succ_cons, List.cons.injEq] at htake
              obtain ⟨rfl, htail⟩ := htake
              simp only [leb128From] at h ⊢
              split_ifs at h ⊢ with hlast
              · exact h
              · have hmk : m = k - (i + 1) := by omega
                exact ih h (by rw [← hmk]; exact htail) (leb128From_width h)

theorem leb128_width {bytes : Bytes} {v k : ℕ} (h : leb128 bytes = some (v, k)) :
    0 < k ∧ k ≤ bytes.length := by
  simpa using leb128From_width h

private theorem head_eq_of_take_cons {x y : UInt8} {xs ys : Bytes} {w : ℕ} (hw : 0 < w)
    (h : (x :: xs).take w = (y :: ys).take w) : x = y := by
  obtain ⟨m, rfl⟩ := Nat.exists_eq_succ_of_ne_zero hw.ne'
  exact (List.cons.inj h).1

theorem obuAt_local : LocalHead obuAt where
  pos := by
    intro xs w n h
    cases xs with
    | nil => cases h
    | cons header rest =>
        simp only [obuAt] at h
        set width := if header &&& OBU_EXTENSION_FLAG ≠ 0 then 2 else 1 with hwidth
        have hpos : 0 < width := by
          rw [hwidth]
          split_ifs <;> decide
        split_ifs at h with hforbidden hshort hsize
        · simp only [Option.bind_eq_bind, Option.bind_eq_some_iff] at h
          obtain ⟨⟨len, k⟩, -, hsome⟩ := h
          obtain ⟨rfl, -⟩ := Prod.mk.inj (Option.some.inj hsome)
          omega
        · obtain ⟨rfl, -⟩ := Prod.mk.inj (Option.some.inj h)
          exact hpos
  congr := by
    intro xs ys w n h hw hlen htake
    cases xs with
    | nil => cases h
    | cons header rest =>
        cases ys with
        | nil => simp at hlen
        | cons header' rest' =>
            simp only [List.length_cons, Nat.add_right_cancel_iff] at hlen
            simp only [obuAt] at h
            set width := if header &&& OBU_EXTENSION_FLAG ≠ 0 then 2 else 1 with hwidth
            have hpos : 0 < width := by
              rw [hwidth]
              split_ifs <;> decide
            split_ifs at h with hforbidden hshort hsize
            · simp only [Option.bind_eq_bind, Option.bind_eq_some_iff] at h
              obtain ⟨⟨len, k⟩, hleb, hsome⟩ := h
              obtain ⟨rfl, rfl⟩ := Prod.mk.inj (Option.some.inj hsome)
              have hk := leb128_width hleb
              obtain rfl := head_eq_of_take_cons (by omega) htake
              have hdrop := congrArg (List.drop width) htake
              rw [List.drop_take, List.drop_take, Nat.add_sub_cancel_left] at hdrop
              have hleb' : leb128 ((header' :: rest').drop width) = some (len, k) :=
                leb128From_congr hleb (by simpa using hdrop)
              simp only [obuAt, ← hwidth, hlen, if_neg hforbidden, if_neg hshort, if_pos hsize,
                hleb', Option.bind_eq_bind, Option.bind_some]
            · obtain ⟨rfl, rfl⟩ := Prod.mk.inj (Option.some.inj h)
              obtain rfl := head_eq_of_take_cons hpos htake
              simp only [obuAt, ← hwidth, hlen, if_neg hforbidden, if_neg hshort, if_neg hsize]

/-! ## Layouts follow their runs -/

/-- How every layout arises: from units laid end to end, or with a leading part left readable. -/
inductive Built (total : ℕ) : Layout → Runs → Prop where
  | units {us : Runs} (h : ℕ) (hwidth : ∀ u ∈ us, 0 < u.1) :
      Built total (fromUnits (place 0 us) h) (unitRuns h us)
  | leading (n : ℕ) : Built total (Layout.leading n total) [(min n total, total - min n total)]

theorem Built.follows {total : ℕ} {l : Layout} {rs : Runs} (h : Built total l rs) :
    Follows l rs := by
  cases h with
  | units h _ => exact fromUnits_follows h _
  | leading n => exact leading_follows n total

theorem opaque_built (frame : Bytes) :
    Built frame.length (Layout.leading 0 frame.length) (opaqueRuns frame) := by
  simpa [opaqueRuns] using @Built.leading frame.length 0

theorem lengths_width (nals : List Nal) : ∀ u ∈ lengths nals, 0 < u.1 := by
  intro u hu
  obtain ⟨⟨c, body⟩, -, rfl⟩ := List.mem_map.mp hu
  cases c <;> simp [StartCode.bytes]

theorem annexBRuns_built {h : ℕ} {frame : Bytes} {units : List FrameUnit}
    (hunits : annexBUnits frame = some units) :
    ∃ rs, annexBRuns h frame = some rs ∧ Built frame.length (fromUnits units h) rs := by
  rw [annexBUnits_eq] at hunits
  unfold annexBRuns
  split_ifs at hunits ⊢ with hcode
  cases hunits
  exact ⟨_, rfl, .units h (lengths_width _)⟩

theorem annexBRuns_eq_none_iff (h : ℕ) (frame : Bytes) :
    annexBRuns h frame = none ↔ annexBUnits frame = none := by
  rw [annexBUnits_eq, annexBRuns]
  split_ifs <;> simp

/-- Units read by a head give runs that the layout built from them follows. -/
theorem splitRuns_eq (unitAt : Bytes → Option (ℕ × ℕ)) (h : ℕ) (frame : Bytes) :
    (∃ us, split unitAt (frame.length + 1) frame = some us ∧
      unitsFrom unitAt (frame.length + 1) 0 frame = some (place 0 us) ∧
      (place 0 us).isEmpty = false ∧ splitRuns unitAt h frame = some (unitRuns h us)) ∨
    ((unitsFrom unitAt (frame.length + 1) 0 frame = none ∨
      unitsFrom unitAt (frame.length + 1) 0 frame = some []) ∧ splitRuns unitAt h frame = none) := by
  rw [unitsFrom_eq, splitRuns]
  cases split unitAt (frame.length + 1) frame with
  | none => exact Or.inr ⟨Or.inl rfl, rfl⟩
  | some us =>
      cases us with
      | nil => exact Or.inr ⟨Or.inr rfl, rfl⟩
      | cons u us => exact Or.inl ⟨u :: us, rfl, rfl, rfl, rfl⟩

theorem lengthPrefixed_built (h : ℕ) (frame : Bytes) :
    Built frame.length (match lengthPrefixedUnits frame with
      | some units => fromUnits units h
      | none => Layout.leading 0 frame.length)
      ((splitRuns lengthPrefixedUnitAt h frame).getD (opaqueRuns frame)) := by
  rcases splitRuns_eq lengthPrefixedUnitAt h frame with
    ⟨us, hsplit, hunits, hempty, hruns⟩ | ⟨hunits, hruns⟩
  · have hsome : lengthPrefixedUnits frame = some (place 0 us) := by
      rw [lengthPrefixedUnits, hunits, Option.bind_eq_bind, Option.bind_some, hempty]
      rfl
    rw [hsome, hruns]
    exact .units h (split_width lengthPrefixedUnitAt_local hsplit)
  · have hnone : lengthPrefixedUnits frame = none := by
      rw [lengthPrefixedUnits]
      rcases hunits with hunits | hunits <;> rw [hunits] <;> rfl
    rw [hnone, hruns]
    exact opaque_built frame

theorem headerRuns_built (h : ℕ) (frame : Bytes) :
    Built frame.length (layoutWithHeader frame h) (headerRuns h frame) := by
  unfold layoutWithHeader
  split_ifs with hempty
  · subst hempty
    have hempty := lengthPrefixed_built h []
    have hlayout : lengthPrefixedUnits [] = none := rfl
    rw [hlayout] at hempty
    exact hempty
  · unfold headerRuns
    cases hunits : annexBUnits frame with
    | some units =>
        obtain ⟨rs, hruns, hbuilt⟩ := annexBRuns_built (h := h) hunits
        rw [hruns]
        exact hbuilt
    | none =>
        rw [(annexBRuns_eq_none_iff h frame).mpr hunits]
        exact lengthPrefixed_built h frame

theorem av1Runs_built (frame : Bytes) :
    Built frame.length (av1Layout frame) (av1Runs frame) := by
  unfold av1Layout av1Runs
  rcases splitRuns_eq obuAt 0 frame with ⟨us, hsplit, hunits, hempty, hruns⟩ | ⟨hunits, hruns⟩
  · rw [hunits, hruns]
    simp only [hempty, Bool.false_eq_true, if_false, Option.getD_some]
    exact .units 0 (split_width obuAt_local hsplit)
  · rw [hruns]
    rcases hunits with hunits | hunits <;> rw [hunits] <;> exact opaque_built frame

theorem layout_built (codec : Codec) (frame : Bytes) (keyframe : Bool) :
    Built frame.length (layout codec frame keyframe) (runs codec frame keyframe) := by
  cases codec with
  | h264 => exact headerRuns_built 1 frame
  | h265 => exact headerRuns_built 2 frame
  | av1 => exact av1Runs_built frame
  | vp8 => exact .leading _
  | vp9 => exact opaque_built frame
  | opus => exact .leading 1
  | generic => exact opaque_built frame

theorem layout_follows (codec : Codec) (frame : Bytes) (keyframe : Bool) :
    Follows (layout codec frame keyframe) (runs codec frame keyframe) :=
  (layout_built codec frame keyframe).follows

/-! ## Runs cover the frame -/

theorem total_annexBRuns {h : ℕ} {frame : Bytes} {rs : Runs} (hruns : annexBRuns h frame = some rs) :
    total rs = frame.length := by
  unfold annexBRuns at hruns
  split_ifs at hruns with hcode
  cases hruns
  have hframe := assemble_scan frame
  rw [hcode.1, List.nil_append] at hframe
  rw [total_unitRuns, total_lengths, hframe]

theorem total_splitRuns {unitAt : Bytes → Option (ℕ × ℕ)} (hl : LocalHead unitAt) {h : ℕ}
    {frame : Bytes} {rs : Runs} (hruns : splitRuns unitAt h frame = some rs) :
    total rs = frame.length := by
  unfold splitRuns at hruns
  split at hruns
  · rename_i u us hsplit
    cases hruns
    rw [total_unitRuns, split_total hl (by omega) hsplit]
  · cases hruns

theorem total_opaqueRuns (frame : Bytes) : total (opaqueRuns frame) = frame.length := by
  simp [opaqueRuns]

theorem total_splitRuns_getD {unitAt : Bytes → Option (ℕ × ℕ)} (hl : LocalHead unitAt) (h : ℕ)
    (frame : Bytes) : total ((splitRuns unitAt h frame).getD (opaqueRuns frame)) = frame.length := by
  cases hruns : splitRuns unitAt h frame with
  | none => exact total_opaqueRuns frame
  | some rs => exact total_splitRuns hl hruns

theorem total_headerRuns (h : ℕ) (frame : Bytes) : total (headerRuns h frame) = frame.length := by
  unfold headerRuns
  cases hruns : annexBRuns h frame with
  | some rs => exact total_annexBRuns hruns
  | none => exact total_splitRuns_getD lengthPrefixedUnitAt_local h frame

theorem total_leadingRuns (n : ℕ) (frame : Bytes) : total (leadingRuns n frame) = frame.length := by
  simp only [leadingRuns, total_cons, total_nil]
  omega

theorem total_runs (codec : Codec) (frame : Bytes) (keyframe : Bool) :
    total (runs codec frame keyframe) = frame.length := by
  cases codec with
  | h264 => exact total_headerRuns 1 frame
  | h265 => exact total_headerRuns 2 frame
  | av1 => exact total_splitRuns_getD obuAt_local 0 frame
  | vp8 => exact total_leadingRuns _ frame
  | vp9 => exact total_opaqueRuns frame
  | opus => exact total_leadingRuns 1 frame
  | generic => exact total_opaqueRuns frame

end CausalFrontierRatchet.FrameRuns
