import Mathlib.Data.List.Pairwise
import Mathlib.Data.List.Sort
import CausalFrontierRatchet.FrameRuns

/-!
Layouts tile their frames.  `Cover` walks the ranges of a layout from left to right and records,
byte by byte, which of them stay readable; every layout the parsers build is such a walk over the
whole frame.  That its ranges ascend, do not overlap and leave no gap is read off the walk, and so
is what reading and writing through them does.
-/

namespace CausalFrontierRatchet.MediaLayout

/-- The byte positions of a range. -/
def Range.Has (r : Range) (i : ℕ) : Prop :=
  r.start ≤ i ∧ i < r.stop

instance (r : Range) (i : ℕ) : Decidable (r.Has i) :=
  inferInstanceAs (Decidable (_ ∧ _))

/-- Ranges without a common position. -/
def Range.Apart (r r' : Range) : Prop :=
  r.stop ≤ r'.start ∨ r'.stop ≤ r.start

instance : Std.Symm Range.Apart :=
  ⟨fun _ _ => Or.symm⟩

/-- The order the ranges are sorted by. -/
def Range.StartLe (r r' : Range) : Prop :=
  r.start ≤ r'.start

instance : DecidableRel Range.StartLe :=
  fun r r' => inferInstanceAs (Decidable (r.start ≤ r'.start))

instance : Std.Total Range.StartLe :=
  ⟨fun r r' => Nat.le_total r.start r'.start⟩

instance : IsTrans Range Range.StartLe :=
  ⟨fun _ _ _ => Nat.le_trans⟩

/-- Total number of protected bytes. -/
def Layout.secretLen (l : Layout) : ℕ :=
  (l.secret.map fun r => r.stop - r.start).sum

/-- Whether ranges in this order run from a position to the end without gap or overlap. -/
def tilesFrom (total : ℕ) : ℕ → List Range → Bool
  | pos, [] => pos == total
  | pos, r :: rs =>
      if r.start ≠ pos ∨ r.stop < r.start ∨ r.stop > total then false
      else tilesFrom total r.stop rs

/-- Whether the ranges, stably sorted by where they start, tile `total` exactly. -/
def Layout.tiles (l : Layout) (total : ℕ) : Bool :=
  tilesFrom total 0 ((l.clear ++ l.secret).insertionSort Range.StartLe)

end CausalFrontierRatchet.MediaLayout

namespace CausalFrontierRatchet.LayoutTiling

open BigEndian AlternatingRuns SelfDelimiting MediaLayout LayoutRuns FrameRuns

/-- For each item in turn, whether the runs keep it. -/
def marks (rs : Runs) : List Bool :=
  rs.flatMap fun r => List.replicate r.1 true ++ List.replicate r.2 false

@[simp] theorem marks_nil : marks [] = [] := rfl

@[simp] theorem marks_cons (c s : ℕ) (rs : Runs) :
    marks ((c, s) :: rs) = List.replicate c true ++ (List.replicate s false ++ marks rs) := by
  simp [marks]

@[simp] theorem marks_length (rs : Runs) : (marks rs).length = total rs := by
  induction rs with
  | nil => rfl
  | cons r rs ih =>
      obtain ⟨c, s⟩ := r
      simp only [marks_cons, List.length_append, List.length_replicate, ih, total_cons]
      omega

/-- The marks of a unit: the bytes in front of it and its header stay readable. -/
def unitMarks (h width n : ℕ) : List Bool :=
  List.replicate (width + min h n) true ++ List.replicate (n - min h n) false

theorem marks_unitRuns (h : ℕ) (us : Runs) :
    marks (unitRuns h us) = us.flatMap fun u => unitMarks h u.1 u.2 := by
  rw [marks, unitRuns, List.flatMap_map]
  rfl

/-- Non-empty readable and protected ranges that follow one another from a position on, and which
bytes are readable. -/
inductive Cover : ℕ → List Range → List Range → List Bool → Prop where
  | nil (pos : ℕ) : Cover pos [] [] []
  | clear {pos n : ℕ} {c s : List Range} {m : List Bool} (hn : 0 < n) (h : Cover (pos + n) c s m) :
      Cover pos (⟨pos, pos + n⟩ :: c) s (List.replicate n true ++ m)
  | secret {pos n : ℕ} {c s : List Range} {m : List Bool} (hn : 0 < n) (h : Cover (pos + n) c s m) :
      Cover pos c (⟨pos, pos + n⟩ :: s) (List.replicate n false ++ m)

section Cover

variable {pos : ℕ} {c s : List Range} {m : List Bool}

/-! ## Every layout covers its frame -/

/-- A protected range that would be empty is left out. -/
theorem Cover.skip (h : Cover pos c s m) : Cover pos c s (List.replicate 0 false ++ m) :=
  h

theorem cover_place (h : ℕ) {us : Runs} (hwidth : ∀ u ∈ us, 0 < u.1) :
    Cover pos (clearRanges h (place pos us)) (secretRanges h (place pos us))
      (marks (unitRuns h us)) := by
  induction us generalizing pos with
  | nil => exact .nil pos
  | cons u us ih =>
      obtain ⟨w, n⟩ := u
      have hw : 0 < w := hwidth (w, n) (by simp)
      have hskip : pos + (w + min h n) + (n - min h n) = pos + w + n := by omega
      have hrest := @ih (pos + w + n) fun v hv => hwidth v (by simp [hv])
      have hclear : clearRanges h (place pos ((w, n) :: us)) =
          ⟨pos, pos + (w + min h n)⟩ :: clearRanges h (place (pos + w + n) us) := by
        simp only [place, clearRanges, List.map_cons, clearEnd_place]
      rw [unitRuns_cons, marks_cons, hclear]
      apply Cover.clear (by omega)
      by_cases hlt : min h n < n
      · rw [secretRanges_place_of_lt hlt, ← hskip]
        apply Cover.secret (by omega)
        rw [hskip]
        exact hrest
      · have hzero : n - min h n = 0 := by omega
        have hend : pos + (w + min h n) = pos + w + n := by omega
        rw [secretRanges_place_of_le (by omega), hzero, hend]
        exact hrest.skip

/-- What lies behind a position starts there or later. -/
theorem Cover.le_start (h : Cover pos c s m) : ∀ r ∈ c ++ s, pos ≤ r.start := by
  induction h with
  | nil => simp
  | clear hn _ ih => grind
  | secret hn _ ih => grind

/-- Ranges that do not touch stay apart. -/
theorem mergeFrom_of_lt {prev : Range} {rs : List Range} (h : ∀ r ∈ rs, prev.stop < r.start) :
    mergeFrom prev rs = prev :: mergeAdjacent rs := by
  cases rs with
  | nil => rfl
  | cons r rs =>
      have hr := h r (by simp)
      rw [mergeFrom, if_neg (by omega), mergeAdjacent]

/-- Joining touching ranges leaves the cover as it is.  The two halves are the cover itself and the
cover behind a readable range that is still being extended. -/
theorem Cover.merged (h : Cover pos c s m) :
    Cover pos (mergeAdjacent c) s m ∧ ∀ start k, start + k = pos → 0 < k →
      Cover start (mergeFrom ⟨start, pos⟩ c) s (List.replicate k true ++ m) := by
  induction h with
  | nil pos =>
      apply And.intro (.nil pos)
      intro start k hk hpos
      subst hk
      exact .clear hpos (.nil _)
  | @clear pos n c s m hn _ ih =>
      apply And.intro (ih.2 pos n rfl hn)
      intro start k hk hpos
      have hjoined := ih.2 start (k + n) (by omega) (by omega)
      rw [mergeFrom, if_pos rfl, ← List.append_assoc, List.replicate_append_replicate]
      exact hjoined
  | @secret pos n c s m hn h ih =>
      apply And.intro (ih.1.secret hn)
      intro start k hk hpos
      subst hk
      have hapart : ∀ r ∈ c, start + k < r.start := by
        intro r hr
        have := h.le_start r (by simp [hr])
        omega
      rw [mergeFrom_of_lt hapart]
      exact .clear hpos (.secret hn ih.1)

theorem leading_cover (n total : ℕ) :
    Cover 0 (Layout.leading n total).clear (Layout.leading n total).secret
      (marks [(min n total, total - min n total)]) := by
  rw [marks_cons, marks_nil, Layout.leading]
  have hsecret : Cover (0 + min n total) []
      (if min n total < total then [⟨min n total, total⟩] else [])
      (List.replicate (total - min n total) false ++ []) := by
    split_ifs with hcut
    · have := Cover.secret (by omega : 0 < total - min n total) (.nil (0 + min n total + _))
      simpa only [Nat.zero_add, Nat.add_sub_cancel' (Nat.le_of_lt hcut)] using this
    · rw [show total - min n total = 0 by omega]
      exact .nil _
  by_cases hcut : 0 < min n total
  · have := hsecret.clear hcut
    rw [Nat.zero_add] at this
    simpa only [if_pos hcut] using this
  · have hzero : min n total = 0 := by omega
    simp only [hzero, lt_irrefl, if_false] at hsecret ⊢
    exact hsecret

/-- The ranges of a layout cover the frame, and its runs say which bytes are readable. -/
theorem built_cover {total : ℕ} {l : Layout} {rs : Runs} (h : Built total l rs) :
    Cover 0 l.clear l.secret (marks rs) := by
  cases h with
  | units h hwidth => exact (cover_place h hwidth).merged.1
  | leading n => exact leading_cover n total

/-! ## Reading a cover -/

/-- Ranges that follow one another without gap, in this order. -/
def Chained : ℕ → List Range → ℕ → Prop
  | pos, [], stop => pos = stop
  | pos, r :: rs, stop => r.start = pos ∧ r.start < r.stop ∧ Chained r.stop rs stop

/-- The two kinds of range are one chain, taken apart. -/
theorem Cover.chained (h : Cover pos c s m) :
    ∃ all, all.Perm (c ++ s) ∧ c.Sublist all ∧ s.Sublist all ∧
      Chained pos all (pos + m.length) := by
  induction h with
  | nil pos => exact ⟨[], .refl _, .refl _, .refl _, rfl⟩
  | @clear pos n c s m hn _ ih =>
      obtain ⟨all, hperm, hc, hs, hchain⟩ := ih
      refine ⟨⟨pos, pos + n⟩ :: all, hperm.cons _, hc.cons_cons _, hs.cons _, rfl, by simp [hn], ?_⟩
      simpa [Nat.add_assoc] using hchain
  | @secret pos n c s m hn _ ih =>
      obtain ⟨all, hperm, hc, hs, hchain⟩ := ih
      refine ⟨⟨pos, pos + n⟩ :: all, (hperm.cons _).trans List.perm_middle.symm, hc.cons _,
        hs.cons_cons _, rfl, by simp [hn], ?_⟩
      simpa [Nat.add_assoc] using hchain

section Chained

variable {all : List Range} {stop : ℕ}

theorem Chained.bounds (h : Chained pos all stop) :
    pos ≤ stop ∧ ∀ r ∈ all, pos ≤ r.start ∧ r.start < r.stop ∧ r.stop ≤ stop := by
  induction all generalizing pos with
  | nil => simp_all [Chained]
  | cons r all ih =>
      obtain ⟨hstart, hlt, hrest⟩ := h
      obtain ⟨hle, hall⟩ := ih hrest
      apply And.intro (by omega)
      intro q hq
      rcases List.mem_cons.mp hq with rfl | hq
      · omega
      · have := hall q hq
        omega

theorem Chained.pairwise (h : Chained pos all stop) :
    all.Pairwise fun r r' => r.stop ≤ r'.start := by
  induction all generalizing pos with
  | nil => exact .nil
  | cons r all ih => exact .cons (fun q hq => (h.2.2.bounds.2 q hq).1) (ih h.2.2)

theorem Chained.tilesFrom (h : Chained pos all stop) : tilesFrom stop pos all = true := by
  induction all generalizing pos with
  | nil => simpa [MediaLayout.tilesFrom, Chained] using h
  | cons r all ih =>
      have hbound := (h.bounds.2 r (by simp)).2.2
      have hgood : ¬(r.start ≠ pos ∨ r.stop < r.start ∨ r.stop > stop) := by
        obtain ⟨hstart, hlt, -⟩ := h
        omega
      rw [MediaLayout.tilesFrom, if_neg hgood]
      exact ih h.2.2

theorem Chained.apart (h : Chained pos all stop) : all.Pairwise Range.Apart :=
  h.pairwise.imp fun hle => Or.inl hle

/-- Different ranges of a chain start at different places. -/
theorem Chained.eq_of_start {r r' : Range} (h : Chained pos all stop) (hr : r ∈ all)
    (hr' : r' ∈ all) (hstart : r.start = r'.start) : r = r' := by
  by_contra hne
  have hapart : r.stop ≤ r'.start ∨ r'.stop ≤ r.start := h.apart.forall hr hr' hne
  have hlt := (h.bounds.2 r hr).2.1
  have hlt' := (h.bounds.2 r' hr').2.1
  omega

/-- Sorting by start finds the chain again. -/
theorem Chained.insertionSort_eq (h : Chained pos all stop) {rs : List Range}
    (hperm : all.Perm rs) : rs.insertionSort Range.StartLe = all := by
  have hordered : all.Pairwise Range.StartLe := by
    apply h.pairwise.imp_of_mem
    intro r r' hr _ hle
    have := (h.bounds.2 r hr).2.1
    exact Nat.le_trans (Nat.le_of_lt this) hle
  have hall := (List.perm_insertionSort Range.StartLe rs).trans hperm.symm
  apply List.Perm.eq_of_pairwise _ (List.pairwise_insertionSort Range.StartLe rs) hordered hall
  intro r r' hr hr' hle hge
  exact h.eq_of_start (hall.mem_iff.mp hr) hr' (Nat.le_antisymm hle hge)

end Chained

theorem Range.has_add_iff (pos n k : ℕ) : Range.Has ⟨pos, pos + n⟩ (pos + k) ↔ k < n := by
  simp [Range.Has]

/-- The bytes before a cover are in none of its ranges. -/
theorem Cover.not_has {n k : ℕ} (h : Cover (pos + n) c s m) (hk : k < n) {r : Range}
    (hr : r ∈ c ++ s) : ¬r.Has (pos + k) := by
  have := h.le_start r hr
  intro hhas
  have := hhas.1
  omega

/-- A byte is readable if it is marked so, protected if it is marked so, and lies outside
otherwise. -/
theorem Cover.has_iff (h : Cover pos c s m) (k : ℕ) :
    ((∃ r ∈ c, r.Has (pos + k)) ↔ m[k]? = some true) ∧
      ((∃ r ∈ s, r.Has (pos + k)) ↔ m[k]? = some false) := by
  induction h generalizing k with
  | nil => simp
  | @clear pos n c s m hn h ih =>
      by_cases hk : k < n
      · have hnone := fun r hr => @Cover.not_has pos c s m n k h hk r (List.mem_append_right c hr)
        simp [List.getElem?_append_left, hk, Range.has_add_iff]
        exact hnone
      · obtain ⟨j, rfl⟩ := Nat.exists_eq_add_of_le (Nat.le_of_not_lt hk)
        have hfirst : ¬Range.Has ⟨pos, pos + n⟩ (pos + n + j) := by
          rw [Nat.add_assoc, Range.has_add_iff]
          omega
        simp [List.getElem?_append_right, ← Nat.add_assoc, hfirst, ih j]
  | @secret pos n c s m hn h ih =>
      by_cases hk : k < n
      · have hnone := fun r hr => @Cover.not_has pos c s m n k h hk r (List.mem_append_left s hr)
        simp [List.getElem?_append_left, hk, Range.has_add_iff]
        exact hnone
      · obtain ⟨j, rfl⟩ := Nat.exists_eq_add_of_le (Nat.le_of_not_lt hk)
        have hfirst : ¬Range.Has ⟨pos, pos + n⟩ (pos + n + j) := by
          rw [Nat.add_assoc, Range.has_add_iff]
          omega
        simp [List.getElem?_append_right, ← Nat.add_assoc, hfirst, ih j]

end Cover

/-! ## Tilings -/

/-- A layout that partitions the positions below `total`. -/
structure Tiling (l : Layout) (total : ℕ) : Prop where
  clear : l.clear.Pairwise fun r r' => r.stop ≤ r'.start
  secret : l.secret.Pairwise fun r r' => r.stop ≤ r'.start
  apart : (l.clear ++ l.secret).Pairwise Range.Apart
  inside : ∀ r ∈ l.clear ++ l.secret, r.start < r.stop ∧ r.stop ≤ total
  covered : ∀ i, i < total ↔ ∃ r ∈ l.clear ++ l.secret, r.Has i

theorem Cover.tiling {l : Layout} {m : List Bool} (h : Cover 0 l.clear l.secret m) :
    Tiling l m.length := by
  obtain ⟨all, hperm, hclear, hsecret, hchain⟩ := h.chained
  rw [Nat.zero_add] at hchain
  constructor
  · exact hchain.pairwise.sublist hclear
  · exact hchain.pairwise.sublist hsecret
  · exact (hperm.pairwise_iff fun hxy => Or.symm hxy).mp hchain.apart
  · intro r hr
    exact (hchain.bounds.2 r (hperm.mem_iff.mpr hr)).2
  · intro i
    have hhas := h.has_iff i
    rw [Nat.zero_add] at hhas
    simp only [List.mem_append, or_and_right, exists_or, hhas.1, hhas.2]
    rw [← Nat.not_le, ← List.getElem?_eq_none_iff]
    cases m[i]? with
    | none => simp
    | some b => cases b <;> simp

theorem Cover.tiles {l : Layout} {m : List Bool} (h : Cover 0 l.clear l.secret m) :
    l.tiles m.length = true := by
  obtain ⟨all, hperm, -, -, hchain⟩ := h.chained
  rw [Nat.zero_add] at hchain
  rw [Layout.tiles, hchain.insertionSort_eq hperm]
  exact hchain.tilesFrom

/-- A layout that leaves readable the bytes marked so and protects the others. -/
def Marked (l : Layout) (m : List Bool) : Prop :=
  ∀ i, ((∃ r ∈ l.clear, r.Has i) ↔ m[i]? = some true) ∧
    ((∃ r ∈ l.secret, r.Has i) ↔ m[i]? = some false)

theorem layout_marked (codec : Codec) (frame : Bytes) (keyframe : Bool) :
    Marked (layout codec frame keyframe) (marks (runs codec frame keyframe)) := by
  intro i
  have h := (built_cover (layout_built codec frame keyframe)).has_iff i
  rwa [Nat.zero_add] at h

theorem Marked.unique {l : Layout} {m m' : List Bool} (h : Marked l m) (h' : Marked l m') :
    m = m' := by
  apply List.ext_getElem?
  intro i
  have htrue := (h i).1.symm.trans (h' i).1
  have hfalse := (h i).2.symm.trans (h' i).2
  cases hm : m[i]? with
  | none =>
      cases hm' : m'[i]? with
      | none => rfl
      | some b => cases b <;> simp_all
  | some b => cases b <;> simp_all

/-! ## Reading and writing through the ranges -/

theorem overwrite_slice {frame : Bytes} {r : Range} (h : r.start ≤ r.stop) :
    overwrite frame r (slice frame r) = frame := by
  have hrest : frame.drop r.stop = (frame.drop r.start).drop (r.stop - r.start) := by
    rw [List.drop_drop, Nat.add_sub_cancel' h]
  rw [overwrite, slice, hrest, List.append_assoc, List.take_append_drop, List.take_append_drop]

theorem overwrite_length {frame data : Bytes} {r : Range} (h : r.start ≤ r.stop)
    (hstop : r.stop ≤ frame.length) (hdata : data.length = r.stop - r.start) :
    (overwrite frame r data).length = frame.length := by
  simp only [overwrite, List.length_append, List.length_take, List.length_drop, hdata]
  omega

theorem overwrite_getElem? {frame data : Bytes} {r : Range} (h : r.start ≤ r.stop)
    (hstop : r.stop ≤ frame.length) (hdata : data.length = r.stop - r.start) {i : ℕ}
    (hi : ¬r.Has i) : (overwrite frame r data)[i]? = frame[i]? := by
  have htake : (frame.take r.start).length = r.start := by
    rw [List.length_take]
    omega
  by_cases hlow : i < r.start
  · rw [overwrite, List.append_assoc, List.getElem?_append_left (by omega),
      List.getElem?_take_of_lt hlow]
  · have hhigh : r.stop ≤ i := by
      by_contra hlt
      exact hi ⟨by omega, by omega⟩
    have hfront : (frame.take r.start ++ data).length = r.stop := by
      rw [List.length_append, htake, hdata]
      omega
    rw [overwrite, List.getElem?_append_right (by omega), hfront, List.getElem?_drop,
      Nat.add_sub_cancel' hhigh]

/-- What was gathered goes back where it came from. -/
theorem scatterRanges_slices {frame : Bytes} {rs : List Range}
    (hrs : ∀ r ∈ rs, r.start ≤ r.stop ∧ r.stop ≤ frame.length) :
    scatterRanges frame rs (slices frame rs) = frame := by
  induction rs with
  | nil => rfl
  | cons r rs ih =>
      have hr := hrs r (by simp)
      have hlen : (slice frame r).length = r.stop - r.start := by
        simp only [slice, List.length_take, List.length_drop]
        omega
      rw [scatterRanges, slices_cons, List.take_left' hlen, List.drop_left' hlen,
        overwrite_slice hr.1]
      exact ih fun q hq => hrs q (by simp [hq])

/-- Only the bytes of the ranges change. -/
theorem scatterRanges_getElem? {frame data : Bytes} {rs : List Range} {i : ℕ}
    (hrs : ∀ r ∈ rs, r.start ≤ r.stop ∧ r.stop ≤ frame.length)
    (hdata : (rs.map fun r => r.stop - r.start).sum ≤ data.length) (hi : ∀ r ∈ rs, ¬r.Has i) :
    (scatterRanges frame rs data)[i]? = frame[i]? := by
  induction rs generalizing frame data with
  | nil => rfl
  | cons r rs ih =>
      have hr := hrs r (by simp)
      rw [List.map_cons, List.sum_cons] at hdata
      have htake : (data.take (r.stop - r.start)).length = r.stop - r.start := by
        rw [List.length_take]
        omega
      have hlen := overwrite_length hr.1 hr.2 htake
      rw [scatterRanges, ih, overwrite_getElem? hr.1 hr.2 htake (hi r (by simp))]
      · intro q hq
        rw [hlen]
        exact hrs q (by simp [hq])
      · rw [List.length_drop]
        omega
      · exact fun q hq => hi q (by simp [hq])

end CausalFrontierRatchet.LayoutTiling
