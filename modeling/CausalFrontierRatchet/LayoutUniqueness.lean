import CausalFrontierRatchet.LayoutStability

/-!
What is authenticated about a frame is its readable bytes, without their positions.  Together with
the length they determine where a layout cuts for every codec but H.264 and H.265, and for these two
as long as the body is not an Annex-B stream of several units.
-/

namespace CausalFrontierRatchet.LayoutUniqueness

open BigEndian AlternatingRuns SelfDelimiting MediaLayout StartCodes FrameRuns
open LayoutStability

/-- A body that is not an Annex-B stream of two or more units. -/
def SingleUnit (body : Bytes) : Prop :=
  annexBUnits body = none ∨ (startCodes body).length ≤ 1

theorem codePositions_length (pos : ℕ) (nals : List Nal) :
    (codePositions pos nals).length = nals.length := by
  induction nals generalizing pos with
  | nil => rfl
  | cons u nals ih =>
      obtain ⟨c, body⟩ := u
      simp [codePositions, ih]

/-- The units of an Annex-B frame, with the first one split off. -/
theorem annexB_decompose {h : ℕ} {frame : Bytes} (hannex : (annexBUnits frame).isSome) :
    ∃ c body nals, (scan frame).2 = (c, body) :: nals ∧ frame = c.bytes ++ body ++ assemble nals ∧
      kept (headerRuns h frame) frame =
        c.bytes ++ body.take h ++ kept (unitRuns h (lengths nals)) (assemble nals) := by
  have hcode := (annexBUnits_isSome_iff frame).mp hannex
  have hframe := assemble_scan frame
  rw [hcode.1, List.nil_append] at hframe
  cases hnals : (scan frame).2 with
  | nil => exact absurd hnals hcode.2
  | cons u nals =>
      obtain ⟨c, body⟩ := u
      rw [hnals, assemble_cons] at hframe
      refine ⟨c, body, nals, rfl, hframe.symm, ?_⟩
      rw [headerRuns_of_annexB hannex, hnals, lengths_cons]
      conv_lhs => rw [← hframe]
      rw [kept_unitRuns_cons h _ _ rfl rfl]

/-- The readable part of a self-delimiting frame opens with the first prefix. -/
theorem take_kept_splitRuns {unitAt : Bytes → Option (ℕ × ℕ)} {h : ℕ} {frame : Bytes} {rs : Runs}
    (hruns : splitRuns unitAt h frame = some rs) :
    ∃ w n, unitAt frame = some (w, n) ∧ w ≤ frame.length ∧
      (kept rs frame).take w = frame.take w := by
  unfold splitRuns at hruns
  split at hruns
  · rename_i u us hsplit
    cases hruns
    have hne : frame ≠ [] := by
      rintro rfl
      simp at hsplit
    obtain ⟨w, n, vs, hhead, hfits, -, hus⟩ := split_succ hne hsplit
    obtain ⟨rfl, rfl⟩ := List.cons.inj hus
    refine ⟨w, n, hhead, by omega, ?_⟩
    simp only [unitRuns_cons, kept]
    rw [List.take_append_of_le_length (by simp; omega), List.take_take,
      Nat.min_eq_left (by omega)]
  · cases hruns

theorem kept_splitRuns_ne_nil {unitAt : Bytes → Option (ℕ × ℕ)} (hl : LocalHead unitAt) {h : ℕ}
    {frame : Bytes} {rs : Runs} (hruns : splitRuns unitAt h frame = some rs) :
    kept rs frame ≠ [] := by
  obtain ⟨w, n, hhead, hw, htake⟩ := take_kept_splitRuns hruns
  have hpos := hl.pos hhead
  intro hnil
  have := congrArg List.length htake
  simp [hnil] at this
  omega

theorem splitRuns_unique {unitAt : Bytes → Option (ℕ × ℕ)} (hl : LocalHead unitAt) {h : ℕ}
    {frame body : Bytes} {rs rs' : Runs} (hframe : splitRuns unitAt h frame = some rs)
    (hbody : splitRuns unitAt h body = some rs') (hlen : body.length = frame.length)
    (hk : kept rs frame = kept rs' body) : rs = rs' := by
  unfold splitRuns at hframe hbody
  rw [hlen] at hbody
  split at hframe
  · rename_i u us hsplit
    split at hbody
    · rename_i u' us' hsplit'
      cases hframe
      cases hbody
      rw [split_unique hl h (by omega) hsplit hsplit' hlen hk]
    · cases hbody
  · cases hframe

/-- Two frames of one length with the same readable bytes are both read by a head or both not. -/
theorem splitRuns_getD_unique {unitAt : Bytes → Option (ℕ × ℕ)} (hl : LocalHead unitAt) {h : ℕ}
    {frame body : Bytes} (hlen : body.length = frame.length)
    (hk : kept ((splitRuns unitAt h frame).getD (opaqueRuns frame)) frame =
      kept ((splitRuns unitAt h body).getD (opaqueRuns body)) body) :
    (splitRuns unitAt h frame).getD (opaqueRuns frame) =
      (splitRuns unitAt h body).getD (opaqueRuns body) := by
  have hnone : ∀ x : Bytes, kept (opaqueRuns x) x = [] := fun x => by simp [opaqueRuns, kept]
  cases hf : splitRuns unitAt h frame with
  | some rs =>
      cases hb : splitRuns unitAt h body with
      | some rs' =>
          rw [hf, hb] at hk
          exact splitRuns_unique hl hf hb hlen hk
      | none =>
          rw [hf, hb, Option.getD_some, Option.getD_none, hnone] at hk
          exact absurd hk (kept_splitRuns_ne_nil hl hf)
  | none =>
      cases hb : splitRuns unitAt h body with
      | some rs' =>
          rw [hf, hb, Option.getD_some, Option.getD_none, hnone] at hk
          exact absurd hk.symm (kept_splitRuns_ne_nil hl hb)
      | none => simp [opaqueRuns, hlen]

/-- Whether and how a frame opens with a start code can be read off its readable bytes. -/
theorem codeAt_kept (h : ℕ) (frame : Bytes) :
    codeAt (kept (headerRuns h frame) frame) = codeAt frame := by
  by_cases hannex : (annexBUnits frame).isSome
  · obtain ⟨c, body, nals, -, hframe, hkept⟩ := annexB_decompose (h := h) hannex
    rw [hkept, List.append_assoc, codeAt_code]
    conv_rhs => rw [hframe, List.append_assoc, codeAt_code]
  · have hcode : codeAt frame = none := by
      rwa [annexBUnits_isSome_iff_codeAt, Option.not_isSome_iff_eq_none] at hannex
    rw [headerRuns_of_not_annexB hannex]
    cases hruns : splitRuns lengthPrefixedUnitAt h frame with
    | none =>
        rw [hcode]
        simp [opaqueRuns, kept, codeAt]
    | some rs =>
        obtain ⟨w, n, hhead, -, htake⟩ := take_kept_splitRuns hruns
        have hw : w = 4 := by
          unfold lengthPrefixedUnitAt at hhead
          split_ifs at hhead
          exact (Prod.mk.inj (Option.some.inj hhead)).1.symm
        subst hw
        rw [Option.getD_some, ← codeAt_take, htake, codeAt_take]

theorem lengths_singleton_of_kept {h : ℕ} (hh : h ≤ 2) {body body' : Bytes} {nals : List Nal}
    (hk : body'.take h ++ kept (unitRuns h (lengths nals)) (assemble nals) = body.take h) :
    nals = [] := by
  cases nals with
  | nil => rfl
  | cons u nals =>
      obtain ⟨c, next⟩ := u
      have hlen := congrArg List.length hk
      rw [lengths_cons, assemble_cons, kept_unitRuns_cons h _ _ rfl rfl] at hlen
      simp only [List.length_append, List.length_take] at hlen
      have hc : 3 ≤ c.bytes.length := by cases c <;> decide
      omega

theorem headerRuns_unique {h : ℕ} (hh : h ≤ 2) {frame body : Bytes} (hsingle : SingleUnit body)
    (hlen : body.length = frame.length)
    (hk : kept (headerRuns h frame) frame = kept (headerRuns h body) body) :
    headerRuns h frame = headerRuns h body := by
  have hcode : codeAt frame = codeAt body := by rw [← codeAt_kept h, hk, codeAt_kept]
  by_cases hannex : (annexBUnits body).isSome
  · have hannex' : (annexBUnits frame).isSome := by
      rwa [annexBUnits_isSome_iff_codeAt, hcode, ← annexBUnits_isSome_iff_codeAt]
    obtain ⟨c, b, nals, hnals, hbody, hkept⟩ := annexB_decompose (h := h) hannex
    obtain ⟨c', b', nals', hnals', hframe, hkept'⟩ := annexB_decompose (h := h) hannex'
    have hc : c' = c := by
      rw [hframe, hbody, List.append_assoc, List.append_assoc, codeAt_code, codeAt_code] at hcode
      exact Option.some.inj hcode
    subst hc
    -- The body has one unit, and the readable bytes leave no room for a second one in the frame.
    have hone : nals = [] := by
      rcases hsingle with hnone | hfew
      · simp [hnone] at hannex
      · rw [startCodes, startCodesFrom_eq, codePositions_length, hnals] at hfew
        simpa using hfew
    subst hone
    rw [hkept, hkept', List.append_assoc, List.append_assoc] at hk
    have hrest := List.append_cancel_left hk
    simp only [lengths_nil, unitRuns_nil, kept, List.append_nil] at hrest
    obtain rfl := lengths_singleton_of_kept hh hrest
    have hb : b'.length = b.length := by
      have := congrArg List.length hframe
      rw [← hlen, hbody] at this
      simp only [List.length_append, assemble_nil, List.length_nil] at this
      omega
    rw [headerRuns_of_annexB hannex, headerRuns_of_annexB hannex', hnals, hnals', lengths_cons,
      lengths_cons, hb]
  · have hannex' : ¬(annexBUnits frame).isSome := by
      rwa [annexBUnits_isSome_iff_codeAt, hcode, ← annexBUnits_isSome_iff_codeAt]
    rw [headerRuns_of_not_annexB hannex, headerRuns_of_not_annexB hannex'] at hk ⊢
    exact splitRuns_getD_unique lengthPrefixedUnitAt_local hlen hk

/-- Not a stream of several units of a codec that is cut at start codes. -/
def Plain (codec : Codec) (body : Bytes) : Prop :=
  codec = .h264 ∨ codec = .h265 → SingleUnit body

theorem runs_unique {codec : Codec} {frame body : Bytes} {keyframe : Bool}
    (hplain : Plain codec body) (hlen : body.length = frame.length)
    (hk : kept (runs codec frame keyframe) frame = kept (runs codec body keyframe) body) :
    runs codec frame keyframe = runs codec body keyframe := by
  cases codec with
  | h264 => exact headerRuns_unique (by decide) (hplain (Or.inl rfl)) hlen hk
  | h265 => exact headerRuns_unique (by decide) (hplain (Or.inr rfl)) hlen hk
  | av1 => exact splitRuns_getD_unique obuAt_local hlen hk
  | vp8 =>
      have hhead : body.head? = frame.head? := by
        simp only [runs] at hk
        rw [kept_leadingRuns _ rfl, kept_leadingRuns _ rfl] at hk
        have := congrArg List.head? hk
        simpa [List.head?_take, (vp8Header_pos _ keyframe).ne', eq_comm] using this
      simp only [runs, vp8Header, leadingRuns, hlen, hhead]
  | vp9 => simp only [runs, opaqueRuns, hlen]
  | opus => simp only [runs, leadingRuns, hlen]
  | generic => simp only [runs, opaqueRuns, hlen]

/-- Every frame with the readable bytes of a body and as much content has its content where the body
has its own. -/
def Determined (codec : Codec) (keyframe : Bool) (body : Bytes) : Prop :=
  ∀ frame : Bytes,
    slices body (layout codec body keyframe).clear =
      slices frame (layout codec frame keyframe).clear →
    (gather body (layout codec body keyframe)).length =
      (gather frame (layout codec frame keyframe)).length →
    scatter body (layout codec body keyframe) (gather frame (layout codec frame keyframe)) = frame ∧
      scatter frame (layout codec frame keyframe) (gather body (layout codec body keyframe)) = body

theorem determined_of_plain {codec : Codec} {body : Bytes} (keyframe : Bool)
    (hplain : Plain codec body) : Determined codec keyframe body := by
  intro frame hclear hlen
  have hf := layout_follows codec frame keyframe
  have hb := layout_follows codec body keyframe
  have hft := (total_runs codec frame keyframe).symm
  have hbt := (total_runs codec body keyframe).symm
  rw [hf.clear frame hft, hb.clear body hbt] at hclear
  rw [hf.secret frame hft, hb.secret body hbt] at hlen ⊢
  rw [held_length _ _ hft, held_length _ _ hbt] at hlen
  have hsame : body.length = frame.length := by
    have hkf := kept_length _ _ hft
    have hkb := kept_length _ _ hbt
    rw [hclear] at hkb
    omega
  have hruns := runs_unique hplain hsame hclear.symm
  rw [← hruns] at hb hbt hclear ⊢
  rw [hb.scatter _ _ hbt (held_length _ frame hft), hf.scatter _ _ hft (held_length _ body hbt),
    refill_congr _ body frame _ hbt hft hclear]
  refine ⟨refill_held _ frame hft, ?_⟩
  rw [refill_congr _ frame body _ hft hbt hclear.symm, refill_held _ body hbt]

end CausalFrontierRatchet.LayoutUniqueness
