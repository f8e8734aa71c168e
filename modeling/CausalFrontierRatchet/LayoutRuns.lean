import CausalFrontierRatchet.MediaLayout
import CausalFrontierRatchet.SelfDelimiting

/-!
Layouts as alternating runs.  A layout names index ranges, some of them merged and the empty ones
left out.  `Follows` says that reading and writing through the ranges is reading and writing
through a list of runs, and every layout the parsers build follows the runs `runs` computes, which
cover the frame exactly.  From here on the media proofs speak of runs.
-/

namespace CausalFrontierRatchet.LayoutRuns

open BigEndian AlternatingRuns SelfDelimiting MediaLayout

/-- A layout that partitions frames of the right length the way a list of runs does. -/
structure Follows (l : Layout) (rs : Runs) : Prop where
  clear : ∀ frame : Bytes, frame.length = total rs → slices frame l.clear = kept rs frame
  secret : ∀ frame : Bytes, frame.length = total rs → gather frame l = held rs frame
  scatter : ∀ frame data : Bytes, frame.length = total rs → data.length = heldTotal rs →
    scatter frame l data = refill rs frame data

@[simp] theorem slices_nil (frame : Bytes) : slices frame [] = [] := rfl

@[simp] theorem slices_cons (frame : Bytes) (r : Range) (rs : List Range) :
    slices frame (r :: rs) = slice frame r ++ slices frame rs := rfl

theorem leading_follows (len n : ℕ) :
    Follows (Layout.leading len n) [(min len n, n - min len n)] where
  clear frame hlen := by
    simp only [Layout.leading, kept, total_cons, total_nil] at hlen ⊢
    split_ifs with h
    · simp [slice]
    · simp [show min len n = 0 by omega]
  secret frame hlen := by
    simp only [Layout.leading, gather, held, total_cons, total_nil] at hlen ⊢
    split_ifs with h
    · simp [slice]
    · simp [show n - min len n = 0 by omega]
  scatter frame data hlen hdata := by
    simp only [total_cons, total_nil, heldTotal_cons, heldTotal_nil] at hlen hdata
    simp only [Layout.leading, MediaLayout.scatter, refill]
    split_ifs with h
    · simp only [scatterRanges, overwrite]
      rw [show min len n + (n - min len n) = n by omega]
    · have hzero : n - min len n = 0 := by omega
      have hall : frame.length ≤ min len n := by omega
      simp [scatterRanges, hzero, List.take_of_length_le hall, List.drop_eq_nil_of_le hall]

/-! ## Units laid end to end -/

/-- The ranges of units whose prefixes and bodies follow each other from a position on. -/
def place (pos : ℕ) : Runs → List FrameUnit
  | [] => []
  | (w, n) :: us => (⟨pos, pos + w⟩, ⟨pos + w, pos + w + n⟩) :: place (pos + w + n) us

theorem unitsFrom_eq (unitAt : Bytes → Option (ℕ × ℕ)) (fuel pos : ℕ) (rest : Bytes) :
    unitsFrom unitAt fuel pos rest = (split unitAt fuel rest).map (place pos) := by
  induction fuel generalizing pos rest with
  | zero => rfl
  | succ fuel ih =>
      rw [unitsFrom, split]
      split_ifs with hempty
      · rfl
      · cases hunit : unitAt rest with
        | none => rfl
        | some u =>
            obtain ⟨w, n⟩ := u
            simp only [Option.bind_eq_bind, Option.bind_some]
            split_ifs with hfits
            · rfl
            · rw [ih]
              cases split unitAt fuel (rest.drop (w + n)) <;> rfl

/-- The readable range of each unit before touching ranges are joined. -/
def clearRanges (h : ℕ) (units : List FrameUnit) : List Range :=
  units.map fun u => ⟨u.1.start, clearEnd h u.2⟩

def secretRanges (h : ℕ) (units : List FrameUnit) : List Range :=
  units.filterMap fun u =>
    if clearEnd h u.2 < u.2.stop then some ⟨clearEnd h u.2, u.2.stop⟩ else none

theorem clearEnd_place (h pos w n : ℕ) :
    clearEnd h ⟨pos + w, pos + w + n⟩ = pos + (w + min h n) := by
  simp only [clearEnd]
  omega

theorem slices_clearRanges (h pos : ℕ) (us : Runs) (frame : Bytes) :
    slices frame (clearRanges h (place pos us)) = kept (unitRuns h us) (frame.drop pos) := by
  induction us generalizing pos with
  | nil => rfl
  | cons u us ih =>
      obtain ⟨w, n⟩ := u
      have hskip : w + min h n + (n - min h n) = w + n := by omega
      have htail := ih (pos + w + n)
      simp only [clearRanges] at htail
      simp only [place, clearRanges, List.map_cons, slices_cons, unitRuns_cons, kept,
        clearEnd_place, htail, hskip, List.drop_drop]
      simp [slice, Nat.add_assoc]

/-- A unit longer than its kept header has content. -/
theorem secretRanges_place_of_lt {h n : ℕ} (hlt : min h n < n) (pos w : ℕ) (us : Runs) :
    secretRanges h (place pos ((w, n) :: us)) =
      ⟨pos + (w + min h n), pos + w + n⟩ :: secretRanges h (place (pos + w + n) us) := by
  have hcut : pos + (w + min h n) < pos + w + n := by omega
  simp only [place, secretRanges, List.filterMap_cons, clearEnd_place, if_pos hcut]

/-- A unit no longer than its kept header has none. -/
theorem secretRanges_place_of_le {h n : ℕ} (hle : n ≤ min h n) (pos w : ℕ) (us : Runs) :
    secretRanges h (place pos ((w, n) :: us)) = secretRanges h (place (pos + w + n) us) := by
  have hcut : ¬pos + (w + min h n) < pos + w + n := by omega
  simp only [place, secretRanges, List.filterMap_cons, clearEnd_place, if_neg hcut]

theorem slices_secretRanges (h pos : ℕ) (us : Runs) (frame : Bytes) :
    slices frame (secretRanges h (place pos us)) = held (unitRuns h us) (frame.drop pos) := by
  induction us generalizing pos with
  | nil => rfl
  | cons u us ih =>
      obtain ⟨w, n⟩ := u
      have hskip : pos + (w + min h n + (n - min h n)) = pos + w + n := by omega
      rw [unitRuns_cons, held, List.drop_drop, List.drop_drop, hskip]
      rcases Nat.lt_or_ge (min h n) n with hlt | hle
      · have hn : pos + w + n - (pos + (w + min h n)) = n - min h n := by omega
        rw [secretRanges_place_of_lt hlt, slices_cons, ih, slice, hn]
      · have hn : n - min h n = 0 := by omega
        rw [secretRanges_place_of_le hle, ih, hn, List.take_zero, List.nil_append]

/-- A scatter over ranges behind a position leaves the bytes before it alone. -/
theorem scatterRanges_secretRanges (h pos : ℕ) (us : Runs) (frame data : Bytes)
    (hlen : frame.length = pos + total us) (hdata : data.length = heldTotal (unitRuns h us)) :
    scatterRanges frame (secretRanges h (place pos us)) data =
      frame.take pos ++ refill (unitRuns h us) (frame.drop pos) data := by
  induction us generalizing pos frame data with
  | nil => simp [place, secretRanges, scatterRanges, refill]
  | cons u us ih =>
      obtain ⟨w, n⟩ := u
      simp only [unitRuns_cons, total_cons, heldTotal_cons] at hlen hdata
      have hskip : pos + (w + min h n + (n - min h n)) = pos + w + n := by omega
      rw [unitRuns_cons, refill, List.drop_drop, hskip]
      rcases Nat.lt_or_ge (min h n) n with hlt | hle
      · have hn : pos + w + n - (pos + (w + min h n)) = n - min h n := by omega
        set front := frame.take (pos + (w + min h n)) ++ data.take (n - min h n) with hfront
        have hfrontLen : front.length = pos + w + n := by
          simp only [hfront, List.length_append, List.length_take]
          omega
        have hover : overwrite frame ⟨pos + (w + min h n), pos + w + n⟩ (data.take (n - min h n)) =
            front ++ frame.drop (pos + w + n) := rfl
        rw [secretRanges_place_of_lt hlt]
        simp only [scatterRanges, hn, hover]
        rw [ih _ _ _ (by simp only [List.length_append, hfrontLen, List.length_drop]; omega)
            (by simp only [List.length_drop]; omega), List.take_left' hfrontLen,
          List.drop_left' hfrontLen, hfront, List.take_add]
        simp only [List.append_assoc]
      · have hn : n - min h n = 0 := by omega
        have hend : pos + (w + min h n) = pos + w + n := by omega
        rw [secretRanges_place_of_le hle, ih _ _ _ (by omega) (by omega), hn, List.take_zero,
          List.drop_zero, List.append_nil, ← List.append_assoc, ← List.take_add, hend]

/-- Joining ranges that touch does not change the bytes they cover. -/
theorem slices_mergeFrom (frame : Bytes) (prev : Range) (rs : List Range)
    (hprev : prev.start ≤ prev.stop) (hrs : ∀ r ∈ rs, r.start ≤ r.stop) :
    slices frame (mergeFrom prev rs) = slices frame (prev :: rs) := by
  induction rs generalizing prev with
  | nil => rfl
  | cons r rs ih =>
      have hr : r.start ≤ r.stop := hrs r (by simp)
      rw [mergeFrom]
      split_ifs with htouch
      · rw [ih _ (by simp only; omega) fun q hq => hrs q (by simp [hq])]
        simp only [slices_cons, ← List.append_assoc, slice]
        rw [show r.stop - prev.start = (prev.stop - prev.start) + (r.stop - r.start) by omega,
          List.take_add, List.drop_drop, show prev.start + (prev.stop - prev.start) = r.start by omega]
      · rw [slices_cons, ih _ hr fun q hq => hrs q (by simp [hq]), slices_cons frame prev]

theorem clearRanges_place_le (h pos : ℕ) (us : Runs) :
    ∀ r ∈ clearRanges h (place pos us), r.start ≤ r.stop := by
  induction us generalizing pos with
  | nil => simp [place, clearRanges]
  | cons u us ih =>
      obtain ⟨w, n⟩ := u
      intro r hr
      simp only [place, clearRanges, List.map_cons, List.mem_cons, clearEnd_place] at hr
      rcases hr with rfl | hr
      · simp
      · exact ih _ r hr

theorem fromUnits_follows (h : ℕ) (us : Runs) :
    Follows (fromUnits (place 0 us) h) (unitRuns h us) where
  clear frame _ := by
    have hmerge : slices frame (mergeAdjacent (clearRanges h (place 0 us))) =
        slices frame (clearRanges h (place 0 us)) := by
      have hle := clearRanges_place_le h 0 us
      cases hcr : clearRanges h (place 0 us) with
      | nil => rfl
      | cons r rs =>
          rw [hcr] at hle
          exact slices_mergeFrom frame r rs (hle r (by simp)) fun q hq => hle q (by simp [hq])
    have := slices_clearRanges h 0 us frame
    rw [List.drop_zero] at this
    rw [← this, ← hmerge]
    rfl
  secret frame _ := by
    have := slices_secretRanges h 0 us frame
    rwa [List.drop_zero] at this
  scatter frame data hlen hdata := by
    have := scatterRanges_secretRanges h 0 us frame data (by simpa using hlen) hdata
    rwa [List.take_zero, List.drop_zero, List.nil_append] at this

end CausalFrontierRatchet.LayoutRuns
