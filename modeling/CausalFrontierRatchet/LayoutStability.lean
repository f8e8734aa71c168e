import CausalFrontierRatchet.FrameRuns
import Mathlib.Data.List.Induction

/-!
Which frames keep their layout when their content is replaced.  The sender lays out the plaintext
and the receiver the ciphertext, so a frame can be opened only if encryption does not move its
runs.  `Stable` is a condition on the frame alone; a stable frame keeps its runs under every
replacement of its content, and an unstable one has a replacement under which strictly less of it
is content.
-/

namespace CausalFrontierRatchet.LayoutStability

open BigEndian AlternatingRuns SelfDelimiting MediaLayout StartCodes FrameRuns

/-- How many zero bytes a byte string ends in. -/
def trailingZeros (bytes : Bytes) : ℕ :=
  (bytes.reverse.takeWhile (· = 0)).length

/-- No content of a unit can complete a start code: there is none, or the next start code cannot be
lengthened and the zeros before the content together with the content are too few for one. -/
def NalStable (h : ℕ) (body : Bytes) (next : Option StartCode) : Prop :=
  body.length ≤ h ∨
    (next ≠ some .short ∧ trailingZeros (body.take h) + (body.length - h) ≤ 2)

def NalsStable (h : ℕ) : List Nal → Prop
  | [] => True
  | (_, body) :: nals => NalStable h body (nextCode nals) ∧ NalsStable h nals

/-- An Annex-B frame with stable units, a length-prefixed frame, or a frame too short to be mistaken
for either. -/
def HeaderStable (h : ℕ) (frame : Bytes) : Prop :=
  if (annexBUnits frame).isSome then NalsStable h (scan frame).2
  else (lengthPrefixedUnits frame).isSome ∨ frame.length ≤ 2

def Stable (codec : Codec) (frame : Bytes) : Prop :=
  match codec with
  | .h264 => HeaderStable 1 frame
  | .h265 => HeaderStable 2 frame
  | .av1 => frame = [] ∨ (splitRuns obuAt 0 frame).isSome
  | _ => True

/-! ## Runs of zeros -/

@[simp] theorem trailingZeros_nil : trailingZeros [] = 0 := rfl

theorem trailingZeros_concat (bytes : Bytes) (b : UInt8) :
    trailingZeros (bytes ++ [b]) = if b = 0 then trailingZeros bytes + 1 else 0 := by
  by_cases hb : b = 0 <;> simp [trailingZeros, hb]

theorem trailingZeros_append_le (front back : Bytes) :
    trailingZeros (front ++ back) ≤ trailingZeros front + back.length := by
  induction back using List.reverseRecOn with
  | nil => simp
  | append_singleton back b ih =>
      rw [← List.append_assoc, trailingZeros_concat]
      split_ifs
      · simp only [List.length_append, List.length_singleton]
        omega
      · omega

theorem trailingZeros_append_zeros (bytes : Bytes) (k : ℕ) :
    trailingZeros (bytes ++ List.replicate k 0) = trailingZeros bytes + k := by
  induction k with
  | zero => simp
  | succ k ih =>
      rw [List.replicate_succ', ← List.append_assoc, trailingZeros_concat, if_pos rfl, ih]
      omega

/-- A string ends in `k` zeros exactly when it has that many trailing zeros. -/
theorem zeros_suffix_iff (bytes : Bytes) (k : ℕ) :
    List.replicate k 0 <:+ bytes ↔ k ≤ trailingZeros bytes := by
  induction k generalizing bytes with
  | zero => simp
  | succ k ih =>
      induction bytes using List.reverseRecOn with
      | nil => simp [trailingZeros, List.replicate_succ]
      | append_singleton bytes b _ =>
          rw [trailingZeros_concat, List.replicate_succ', List.suffix_concat_iff]
          by_cases hb : b = 0
          · subst hb
            simp [ih]
          · simp [hb, Ne.symm hb]

/-- A short code in `header ++ content` but not in the header ends in the content and takes its
zeros from what precedes. -/
theorem noInfix_append {header content : Bytes} (hheader : ¬[0, 0, 1] <:+: header)
    (hfew : trailingZeros header + content.length ≤ 2) : ¬[0, 0, 1] <:+: header ++ content := by
  induction content using List.reverseRecOn with
  | nil => simpa using hheader
  | append_singleton content last ih =>
      simp only [List.length_append, List.length_singleton] at hfew
      rw [← List.append_assoc]
      intro hin
      rcases List.infix_concat_iff.mp hin with hsuffix | hin
      · have hzeros : List.replicate 2 0 <:+ header ++ content := by
          rcases List.suffix_concat_iff.mp hsuffix with hnil | ⟨front, hfront, hsuffix⟩
          · simp at hnil
          · have hsplit : [0, 0] ++ [1] = front ++ [last] := hfront
            obtain ⟨rfl, -⟩ := List.append_inj' hsplit rfl
            exact hsuffix
        have htwo := (zeros_suffix_iff _ 2).mp hzeros
        have hle := trailingZeros_append_le header content
        omega
      · exact ih (by omega) hin

/-! ## Annex-B units -/

/-- Replacing the content of stable units leaves units of the same lengths. -/
theorem nals_refill {h : ℕ} {nals : List Nal} (hstable : NalsStable h nals) (hclean : Clean nals)
    {xs : Bytes} (hlen : xs.length = (assemble nals).length)
    (hkept : kept (unitRuns h (lengths nals)) xs =
      kept (unitRuns h (lengths nals)) (assemble nals)) :
    ∃ nals', assemble nals' = xs ∧ lengths nals' = lengths nals ∧ Clean nals' ∧
      nextCode nals' = nextCode nals := by
  induction nals generalizing xs with
  | nil => exact ⟨[], (List.eq_nil_of_length_eq_zero hlen).symm, rfl, trivial, rfl⟩
  | cons u nals ih =>
      obtain ⟨c, body⟩ := u
      set w := c.bytes.length with hw
      set n := body.length with hn
      simp only [assemble_cons, List.length_append, ← hw, ← hn] at hlen
      -- Cut the new bytes where the old units were cut.
      set code := xs.take w with hcode
      set body' := (xs.drop w).take n with hbody'
      set rest := xs.drop (w + n) with hrest
      have hxs : xs = code ++ body' ++ rest := by
        rw [hcode, hbody', hrest, List.append_assoc, ← List.drop_drop, List.take_append_drop,
          List.take_append_drop]
      have hcodeLen : code.length = w := by
        rw [hcode, List.length_take]
        omega
      have hbodyLen : body'.length = n := by
        rw [hbody', List.length_take, List.length_drop]
        omega
      rw [hxs, assemble_cons, lengths_cons, ← hw, ← hn,
        kept_unitRuns_cons h _ _ hcodeLen hbodyLen, kept_unitRuns_cons h _ _ hw.symm hn.symm] at hkept
      obtain ⟨hhead, htail⟩ := List.append_inj hkept (by
        simp only [List.length_append, List.length_take, hcodeLen, hbodyLen, ← hw, ← hn])
      obtain ⟨hcodeEq, hheader⟩ := List.append_inj hhead hcodeLen
      obtain ⟨nals', hassemble, hlengths, hclean', hnext⟩ := ih hstable.2 hclean.2
        (by rw [hrest, List.length_drop]; omega) htail
      refine ⟨(c, body') :: nals', ?_, ?_, ⟨?_, hclean'⟩, rfl⟩
      · rw [assemble_cons, hassemble, ← hcodeEq, ← hxs]
      · rw [lengths_cons, lengths_cons, hlengths, hbodyLen]
      · rw [hnext]
        rcases hstable.1 with hshort | ⟨hnotShort, hfew⟩
        · -- The whole body is header, so it is unchanged.
          have : body' = body := by
            rwa [List.take_of_length_le (by omega), List.take_of_length_le (by omega)] at hheader
          rw [this]
          exact hclean.1
        · refine ⟨?_, fun hcontra => absurd hcontra hnotShort⟩
          have hprefix : ¬[0, 0, 1] <:+: body.take h := fun hin =>
            hclean.1.1 (hin.trans (List.take_prefix h body).isInfix)
          rw [← List.take_append_drop h body', hheader]
          exact noInfix_append hprefix (by rw [List.length_drop, hbodyLen]; exact hfew)

/-- A clean string ending in two zeros, followed by a one, ends in a start code with a clean string
in front. -/
theorem exists_code_suffix {x : Bytes} (hx : ¬[0, 0, 1] <:+: x) (hzeros : 2 ≤ trailingZeros x) :
    ∃ front code, x ++ [1] = front ++ StartCode.bytes code ∧ NoCode front (some code) := by
  by_cases hthree : 3 ≤ trailingZeros x
  · obtain ⟨front, hfront⟩ := (zeros_suffix_iff x 3).mpr hthree
    refine ⟨front, .long, by rw [← hfront]; simp [StartCode.bytes], ?_, by simp⟩
    exact fun hin => hx (hin.trans ⟨[], [0, 0, 0], by simpa using hfront⟩)
  · obtain ⟨front, hfront⟩ := (zeros_suffix_iff x 2).mpr hzeros
    refine ⟨front, .short, by rw [← hfront]; simp [StartCode.bytes], ?_, fun _ hlast => ?_⟩
    · exact fun hin => hx (hin.trans ⟨[], [0, 0], by simpa using hfront⟩)
    · rcases List.eq_nil_or_concat front with rfl | ⟨init, last, rfl⟩
      · simp at hlast
      · have hzero : last = 0 := by simpa using hlast
        have hlt := trailingZeros_append_zeros (init.concat last) 2
        rw [hfront, List.concat_eq_append, trailingZeros_concat, if_pos hzero] at hlt
        omega

theorem noInfix_append_zeros {header : Bytes} (hheader : ¬[0, 0, 1] <:+: header) (k : ℕ) :
    ¬[0, 0, 1] <:+: header ++ List.replicate k 0 := by
  induction k with
  | zero => simpa using hheader
  | succ k ih =>
      rw [List.replicate_succ', ← List.append_assoc]
      intro hin
      rcases List.infix_concat_iff.mp hin with hsuffix | hin
      · rcases List.suffix_concat_iff.mp hsuffix with hnil | ⟨front, hfront, -⟩
        · simp at hnil
        · have := congrArg List.getLast? hfront
          simp at this
      · exact ih hin

/-- Unstable units have content that moves the cuts and leaves less of the frame as content. -/
theorem nals_unstable {h : ℕ} {nals : List Nal} (hunstable : ¬NalsStable h nals)
    (hclean : Clean nals) :
    ∃ nals', Clean nals' ∧ nextCode nals' = nextCode nals ∧
      (assemble nals').length = (assemble nals).length ∧
      kept (unitRuns h (lengths nals)) (assemble nals') =
        kept (unitRuns h (lengths nals)) (assemble nals) ∧
      heldTotal (unitRuns h (lengths nals')) < heldTotal (unitRuns h (lengths nals)) := by
  induction nals with
  | nil => exact absurd trivial hunstable
  | cons u nals ih =>
      obtain ⟨c, body⟩ := u
      by_cases hnal : NalStable h body (nextCode nals)
      · -- The first unit is stable, so a later one is not.
        have hlater : ¬NalsStable h nals := fun hnals => hunstable ⟨hnal, hnals⟩
        obtain ⟨nals', hclean', hnext, hlen, hkept, hheld⟩ := ih hlater hclean.2
        refine ⟨(c, body) :: nals', ⟨by rw [hnext]; exact hclean.1, hclean'⟩, rfl, ?_, ?_, ?_⟩
        · simp only [assemble_cons, List.length_append, hlen]
        · rw [assemble_cons, assemble_cons, lengths_cons, kept_unitRuns_cons h _ _ rfl rfl,
            kept_unitRuns_cons h _ _ rfl rfl, hkept]
        · simp only [lengths_cons, unitRuns_cons, heldTotal_cons]
          omega
      · -- Content that breaks the first unit: zeros in front of a short code, or zeros and a one.
        simp only [NalStable, not_or, not_le, not_and] at hnal
        obtain ⟨hlong, hbreak⟩ := hnal
        set header := body.take h with hheader
        obtain ⟨k, hk⟩ : ∃ k, body.length = h + (k + 1) := ⟨body.length - h - 1, by omega⟩
        have hheaderLen : header.length = h := by
          rw [hheader, List.length_take]
          omega
        have hcleanHeader : ¬[0, 0, 1] <:+: header := fun hin =>
          hclean.1.1 (hin.trans (List.take_prefix h body).isInfix)
        -- Any content behind the header keeps what the old cuts keep.
        have hkeep : ∀ content : Bytes, content.length = k + 1 →
            kept (unitRuns h (lengths ((c, body) :: nals)))
                (c.bytes ++ (header ++ content) ++ assemble nals) =
              kept (unitRuns h (lengths ((c, body) :: nals))) (assemble ((c, body) :: nals)) := by
          intro content hcontent
          rw [assemble_cons, lengths_cons, kept_unitRuns_cons h _ _ rfl
              (by rw [List.length_append, hheaderLen, hcontent, hk]),
            kept_unitRuns_cons h _ _ rfl rfl, List.take_left' hheaderLen]
        by_cases hnext : nextCode nals = some .short
        · obtain ⟨body₂, nals, rfl⟩ : ∃ body₂ nals', nals = (StartCode.short, body₂) :: nals' := by
            rcases nals with _ | ⟨⟨c₂, body₂⟩, nals⟩
            · cases hnext
            · cases hnext
              exact ⟨body₂, nals, rfl⟩
          have hbytes : assemble ((c, header ++ List.replicate k 0) :: (.long, body₂) :: nals) =
              c.bytes ++ (header ++ List.replicate (k + 1) 0) ++
                assemble ((.short, body₂) :: nals) := by
            simp [StartCode.bytes, List.replicate_succ']
          refine ⟨(c, header ++ List.replicate k 0) :: (.long, body₂) :: nals,
            ⟨⟨noInfix_append_zeros hcleanHeader k, by simp [nextCode]⟩, hclean.2⟩, rfl, ?_, ?_, ?_⟩
          · rw [hbytes]
            simp only [assemble_cons, List.length_append, List.length_replicate, hheaderLen, hk]
          · rw [hbytes, hkeep _ (List.length_replicate ..)]
          · simp only [lengths_cons, unitRuns_cons, heldTotal_cons, List.length_append,
              List.length_replicate, hheaderLen, hk]
            omega
        · have hfew := hbreak hnext
          have hzeros : 2 ≤ trailingZeros (header ++ List.replicate k 0) := by
            rw [trailingZeros_append_zeros]
            omega
          obtain ⟨front, code, hsplit, hfront⟩ :=
            exists_code_suffix (noInfix_append_zeros hcleanHeader k) hzeros
          have hcontent : (List.replicate k (0 : UInt8) ++ [1]).length = k + 1 := by simp
          have hbytes : assemble ((c, front) :: (code, []) :: nals) =
              c.bytes ++ (header ++ (List.replicate k 0 ++ [1])) ++ assemble nals := by
            rw [← List.append_assoc header, hsplit]
            simp
          have hfrontLen : front.length + code.bytes.length = h + (k + 1) := by
            have := congrArg List.length hsplit
            simp only [List.length_append, List.length_replicate, List.length_singleton,
              hheaderLen] at this
            omega
          have hcodeLen : 0 < code.bytes.length := by cases code <;> decide
          refine ⟨(c, front) :: (code, []) :: nals,
            ⟨hfront, ⟨by simp, by simp⟩, hclean.2⟩, rfl, ?_, ?_, ?_⟩
          · rw [hbytes, assemble_cons]
            simp only [List.length_append, hcontent, hheaderLen, hk]
          · rw [hbytes, hkeep _ hcontent]
          · simp only [lengths_cons, unitRuns_cons, heldTotal_cons, List.length_nil, hk]
            omega

/-! ## Whole frames -/

theorem annexBUnits_isSome_iff (frame : Bytes) :
    (annexBUnits frame).isSome ↔ (scan frame).1 = [] ∧ (scan frame).2 ≠ [] := by
  rw [annexBUnits_eq]
  split_ifs with hcode <;> simp [hcode]

theorem lengthPrefixedUnits_isSome_iff (h : ℕ) (frame : Bytes) :
    (lengthPrefixedUnits frame).isSome ↔ (splitRuns lengthPrefixedUnitAt h frame).isSome := by
  rcases splitRuns_eq lengthPrefixedUnitAt h frame with
    ⟨us, -, hunits, hempty, hruns⟩ | ⟨hunits, hruns⟩
  · rw [hruns, lengthPrefixedUnits, hunits, Option.bind_eq_bind, Option.bind_some, hempty]
    simp
  · rw [hruns, lengthPrefixedUnits]
    rcases hunits with hunits | hunits <;> rw [hunits] <;> simp

/-- The runs of a self-delimiting frame do not move. -/
theorem splitRuns_refill {unitAt : Bytes → Option (ℕ × ℕ)} (hl : LocalHead unitAt) {h : ℕ}
    {frame xs : Bytes} {rs : Runs} (hruns : splitRuns unitAt h frame = some rs)
    (hlen : xs.length = frame.length) (hkept : kept rs xs = kept rs frame) :
    splitRuns unitAt h xs = some rs := by
  unfold splitRuns at hruns ⊢
  split at hruns
  · rename_i u us hsplit
    cases hruns
    have htotal := split_total hl (by omega) hsplit
    rw [hlen, split_congr hl (by omega) hsplit hlen
      (kept_of_kept_unitRuns h (u :: us) (by omega) htotal.symm hkept)]
  · cases hruns

/-- A start code at the front is seen in the first four bytes. -/
theorem codeAt_take (frame : Bytes) : codeAt (frame.take 4) = codeAt frame := by
  cases hcode : codeAt frame with
  | some c =>
      obtain ⟨rest, rfl⟩ := eq_code_of_codeAt hcode
      cases c <;> simp [StartCode.bytes, codeAt]
  | none =>
      cases htake : codeAt (frame.take 4) with
      | none => rfl
      | some c =>
          obtain ⟨rest, hrest⟩ := eq_code_of_codeAt htake
          rw [← List.take_append_drop 4 frame, hrest, List.append_assoc, codeAt_code] at hcode
          cases hcode

theorem codeAt_isSome_iff (frame : Bytes) :
    (codeAt frame).isSome ↔ (scan frame).1 = [] ∧ (scan frame).2 ≠ [] := by
  cases hcode : codeAt frame with
  | some c =>
      obtain ⟨rest, rfl⟩ := eq_code_of_codeAt hcode
      simp [scan_code]
  | none =>
      cases frame with
      | nil => simp [scan]
      | cons b rest => simp [scan_of_codeAt_none hcode]

theorem annexBUnits_isSome_iff_codeAt (frame : Bytes) :
    (annexBUnits frame).isSome ↔ (codeAt frame).isSome := by
  rw [annexBUnits_isSome_iff, codeAt_isSome_iff]

theorem headerRuns_of_annexB {h : ℕ} {frame : Bytes} (hannex : (annexBUnits frame).isSome) :
    headerRuns h frame = unitRuns h (lengths (scan frame).2) := by
  have hcode := (annexBUnits_isSome_iff frame).mp hannex
  rw [headerRuns, annexBRuns, if_pos hcode]

theorem headerRuns_of_not_annexB {h : ℕ} {frame : Bytes} (hannex : ¬(annexBUnits frame).isSome) :
    headerRuns h frame = (splitRuns lengthPrefixedUnitAt h frame).getD (opaqueRuns frame) := by
  have hcode := (annexBUnits_isSome_iff frame).not.mp hannex
  rw [headerRuns, annexBRuns, if_neg hcode]

/-- Four kept bytes in front decide whether a frame opens with a start code. -/
theorem annexBUnits_congr {frame xs : Bytes} (htake : xs.take 4 = frame.take 4) :
    (annexBUnits xs).isSome ↔ (annexBUnits frame).isSome := by
  rw [annexBUnits_isSome_iff_codeAt, annexBUnits_isSome_iff_codeAt, ← codeAt_take xs, htake,
    codeAt_take]

theorem split_lengthPrefixed_short {fuel : ℕ} {xs : Bytes} (hne : xs ≠ []) (hlen : xs.length < 4) :
    split lengthPrefixedUnitAt (fuel + 1) xs = none := by
  have hempty : xs.isEmpty = false := by simpa using hne
  simp [split, hempty, lengthPrefixedUnitAt, hlen]

/-- Frames of at most two bytes are content through and through. -/
theorem headerRuns_of_short {h : ℕ} {xs : Bytes} (hlen : xs.length ≤ 2) :
    headerRuns h xs = opaqueRuns xs := by
  have hannex : ¬(annexBUnits xs).isSome := by
    rw [annexBUnits_isSome_iff_codeAt]
    rcases xs with _ | ⟨a, _ | ⟨b, _ | ⟨c, rest⟩⟩⟩
    · simp [codeAt]
    · simp [codeAt]
    · simp [codeAt]
    · simp at hlen
  rw [headerRuns_of_not_annexB hannex, splitRuns]
  by_cases hne : xs = []
  · subst hne
    rfl
  · rw [split_lengthPrefixed_short hne (by omega)]
    rfl

theorem headerRuns_stable {h : ℕ} {frame xs : Bytes} (hstable : HeaderStable h frame)
    (hlen : xs.length = frame.length)
    (hkept : kept (headerRuns h frame) xs = kept (headerRuns h frame) frame) :
    headerRuns h xs = headerRuns h frame := by
  unfold HeaderStable at hstable
  split_ifs at hstable with hannex
  · -- Annex-B: the new bytes are assembled from units of the same lengths.
    have hcode := (annexBUnits_isSome_iff frame).mp hannex
    have hframe := assemble_scan frame
    rw [hcode.1, List.nil_append] at hframe
    rw [headerRuns_of_annexB hannex] at hkept ⊢
    rw [← hframe] at hlen
    have hkept' : kept (unitRuns h (lengths (scan frame).2)) xs =
        kept (unitRuns h (lengths (scan frame).2)) (assemble (scan frame).2) := by
      rw [hframe, hkept]
    obtain ⟨nals', hassemble, hlengths, hclean', -⟩ :=
      nals_refill hstable (clean_scan frame).2 hlen hkept'
    have hscan : scan xs = ([], nals') := by rw [← hassemble, scan_assemble hclean']
    have hne : nals' ≠ [] := by
      rintro rfl
      exact hcode.2 (List.map_eq_nil_iff.mp hlengths.symm)
    have hannex' : (annexBUnits xs).isSome := by
      rw [annexBUnits_isSome_iff, hscan]
      exact ⟨rfl, hne⟩
    rw [headerRuns_of_annexB hannex', hscan, hlengths]
  · rcases hstable with hprefixed | hshort
    · -- Length-prefixed: the first length field is kept, so no start code can appear in front.
      rw [headerRuns_of_not_annexB hannex] at hkept ⊢
      rw [lengthPrefixedUnits_isSome_iff h] at hprefixed
      obtain ⟨rs, hruns⟩ := Option.isSome_iff_exists.mp hprefixed
      rw [hruns, Option.getD_some] at hkept ⊢
      have hsame := splitRuns_refill lengthPrefixedUnitAt_local hruns hlen hkept
      have htake : xs.take 4 = frame.take 4 := by
        unfold splitRuns at hruns
        split at hruns
        · rename_i u us hsplit
          cases hruns
          have hne : frame ≠ [] := by
            rintro rfl
            simp at hsplit
          obtain ⟨w, n, vs, hhead, hfits, -, hus⟩ := split_succ hne hsplit
          have hw : w = 4 := by
            unfold lengthPrefixedUnitAt at hhead
            split_ifs at hhead
            exact (Prod.mk.inj (Option.some.inj hhead)).1.symm
          obtain ⟨rfl, rfl⟩ := List.cons.inj hus
          have := congrArg (List.take 4) hkept
          simp only [unitRuns_cons, kept] at this
          rwa [List.take_append_of_le_length (by simp; omega),
            List.take_append_of_le_length (by simp; omega), List.take_take, List.take_take,
            Nat.min_eq_left (by omega)] at this
        · cases hruns
      have hannex' : ¬(annexBUnits xs).isSome := by rwa [annexBUnits_congr htake]
      rw [headerRuns_of_not_annexB hannex', hsame, Option.getD_some]
    · rw [headerRuns_of_short (by omega), headerRuns_of_short hshort, opaqueRuns, opaqueRuns, hlen]

/-- Less content than the whole frame is left once something is kept. -/
theorem heldTotal_lt_of_kept {rs : Runs} {xs : Bytes} (hlen : xs.length = total rs)
    (hkept : kept rs xs ≠ []) : heldTotal rs < xs.length := by
  have hsum := kept_length rs xs hlen
  have hpos := List.length_pos_of_ne_nil hkept
  omega

theorem headerRuns_unstable {h : ℕ} {frame : Bytes} (hunstable : ¬HeaderStable h frame) :
    ∃ xs : Bytes, xs.length = frame.length ∧
      kept (headerRuns h frame) xs = kept (headerRuns h frame) frame ∧
      heldTotal (headerRuns h xs) < heldTotal (headerRuns h frame) := by
  unfold HeaderStable at hunstable
  split_ifs at hunstable with hannex
  · have hcode := (annexBUnits_isSome_iff frame).mp hannex
    have hframe := assemble_scan frame
    rw [hcode.1, List.nil_append] at hframe
    obtain ⟨nals', hclean', hnext, hlen, hkept, hheld⟩ :=
      nals_unstable hunstable (clean_scan frame).2
    rw [hframe] at hlen hkept
    have hscan := scan_assemble hclean'
    have hannex' : (annexBUnits (assemble nals')).isSome := by
      rw [annexBUnits_isSome_iff, hscan]
      refine ⟨rfl, ?_⟩
      rintro rfl
      cases hnals : (scan frame).2 with
      | nil => exact hcode.2 hnals
      | cons u nals => simp [nextCode, hnals] at hnext
    refine ⟨assemble nals', hlen, ?_, ?_⟩
    · rwa [headerRuns_of_annexB hannex]
    · rwa [headerRuns_of_annexB hannex, headerRuns_of_annexB hannex', hscan]
  · -- Nothing is kept of an unrecognised frame, and three bytes make it open with a start code.
    simp only [not_or, not_le] at hunstable
    obtain ⟨hprefixed, hlong⟩ := hunstable
    rw [lengthPrefixedUnits_isSome_iff h, Option.not_isSome_iff_eq_none] at hprefixed
    have hruns : headerRuns h frame = opaqueRuns frame := by
      rw [headerRuns_of_not_annexB hannex, hprefixed]
      rfl
    obtain ⟨m, hm⟩ : ∃ m, frame.length = m + 3 := ⟨frame.length - 3, by omega⟩
    set xs : Bytes := StartCode.short.bytes ++ List.replicate m 0 with hxs
    have hlen : xs.length = frame.length := by simp [hxs, StartCode.bytes, hm]
    have hannex' : (annexBUnits xs).isSome := by
      rw [annexBUnits_isSome_iff_codeAt, hxs, codeAt_code]
      rfl
    refine ⟨xs, hlen, by simp [hruns, opaqueRuns, kept], ?_⟩
    have hheld : heldTotal (headerRuns h frame) = xs.length := by
      simp [hruns, opaqueRuns, hlen]
    rw [hheld]
    refine heldTotal_lt_of_kept (total_headerRuns h xs).symm ?_
    rw [headerRuns_of_annexB hannex', hxs, scan_code]
    simp [kept, StartCode.bytes]

/-! ## Every codec -/

theorem vp8Header_pos (frame : Bytes) (keyframe : Bool) : 0 < vp8Header frame keyframe := by
  unfold vp8Header
  split_ifs <;> decide

theorem kept_leadingRuns (n : ℕ) {frame xs : Bytes} (hlen : xs.length = frame.length) :
    kept (leadingRuns n frame) xs = xs.take n := by
  rcases Nat.le_total n frame.length with hle | hle
  · simp [leadingRuns, kept, hle]
  · have hall : xs.length ≤ n := by omega
    simp [leadingRuns, kept, ← hlen, List.take_of_length_le hall, Nat.min_eq_right hall]

theorem av1Runs_stable {frame xs : Bytes} (hstable : frame = [] ∨ (splitRuns obuAt 0 frame).isSome)
    (hlen : xs.length = frame.length)
    (hkept : kept (av1Runs frame) xs = kept (av1Runs frame) frame) :
    av1Runs xs = av1Runs frame := by
  rcases hstable with rfl | hsome
  · rw [List.eq_nil_of_length_eq_zero hlen]
  · obtain ⟨rs, hruns⟩ := Option.isSome_iff_exists.mp hsome
    rw [av1Runs, hruns, Option.getD_some] at hkept
    rw [av1Runs, av1Runs, hruns, splitRuns_refill obuAt_local hruns hlen hkept]
    rfl

/-- A stable frame keeps its runs whatever replaces its content. -/
theorem runs_stable {codec : Codec} {frame xs : Bytes} {keyframe : Bool}
    (hstable : Stable codec frame) (hlen : xs.length = frame.length)
    (hkept : kept (runs codec frame keyframe) xs = kept (runs codec frame keyframe) frame) :
    runs codec xs keyframe = runs codec frame keyframe := by
  cases codec with
  | h264 => exact headerRuns_stable hstable hlen hkept
  | h265 => exact headerRuns_stable hstable hlen hkept
  | av1 => exact av1Runs_stable hstable hlen hkept
  | vp8 =>
      -- The first byte is kept, and it alone decides the header.
      have hhead : xs.head? = frame.head? := by
        simp only [runs] at hkept
        rw [kept_leadingRuns _ hlen, kept_leadingRuns _ rfl] at hkept
        have := congrArg List.head? hkept
        simpa [List.head?_take, (vp8Header_pos frame keyframe).ne'] using this
      simp only [runs, vp8Header, leadingRuns, hlen, hhead]
  | vp9 => simp only [runs, opaqueRuns, hlen]
  | opus => simp only [runs, leadingRuns, hlen]
  | generic => simp only [runs, opaqueRuns, hlen]

theorem av1Runs_unstable {frame : Bytes}
    (hunstable : ¬(frame = [] ∨ (splitRuns obuAt 0 frame).isSome)) :
    ∃ xs : Bytes, xs.length = frame.length ∧ kept (av1Runs frame) xs = kept (av1Runs frame) frame ∧
      heldTotal (av1Runs xs) < heldTotal (av1Runs frame) := by
  simp only [not_or, Bool.not_eq_true, Option.isSome_eq_false_iff, Option.isNone_iff_eq_none]
    at hunstable
  obtain ⟨hne, hnone⟩ := hunstable
  have hruns : av1Runs frame = opaqueRuns frame := by
    rw [av1Runs, hnone]
    rfl
  obtain ⟨m, hm⟩ : ∃ m, frame.length = m + 1 :=
    ⟨frame.length - 1, by have := List.length_pos_of_ne_nil hne; omega⟩
  -- A zero byte opens a unit without extension or size field, which runs to the end.
  set xs : Bytes := 0 :: List.replicate m 0 with hxs
  have hlen : xs.length = frame.length := by simp [hxs, hm]
  have hsplit : split obuAt (xs.length + 1) xs = some [(1, m)] := by
    have hobu : obuAt xs = some (1, m) := by
      simp [hxs, obuAt, OBU_FORBIDDEN_BIT, OBU_EXTENSION_FLAG, OBU_HAS_SIZE_FIELD]
    have hempty : xs.isEmpty = false := by simp [hxs]
    have hdrop : xs.drop (1 + m) = [] := by simp [hxs, Nat.add_comm]
    have hfits : ¬xs.length < 1 + m := by omega
    simp only [split, hempty, hobu, Option.bind_eq_bind, Option.bind_some, hdrop, split_nil,
      Bool.false_eq_true, if_false, if_neg hfits]
  have hruns' : av1Runs xs = [(1, m)] := by
    rw [av1Runs, splitRuns, hsplit]
    simp [unitRuns]
  refine ⟨xs, hlen, by simp [hruns, opaqueRuns, kept], ?_⟩
  rw [hruns, hruns']
  simp [opaqueRuns, hm]

/-- An unstable frame has content under which strictly less of it is content. -/
theorem runs_unstable {codec : Codec} {frame : Bytes} (keyframe : Bool)
    (hunstable : ¬Stable codec frame) :
    ∃ xs : Bytes, xs.length = frame.length ∧
      kept (runs codec frame keyframe) xs = kept (runs codec frame keyframe) frame ∧
      heldTotal (runs codec xs keyframe) < heldTotal (runs codec frame keyframe) := by
  cases codec with
  | h264 => exact headerRuns_unstable hunstable
  | h265 => exact headerRuns_unstable hunstable
  | av1 => exact av1Runs_unstable hunstable
  | vp8 => exact absurd trivial hunstable
  | vp9 => exact absurd trivial hunstable
  | opus => exact absurd trivial hunstable
  | generic => exact absurd trivial hunstable

end CausalFrontierRatchet.LayoutStability
