import CausalFrontierRatchet.LayoutTiling
import CausalFrontierRatchet.LayoutStability

/-!
The two containers of H.264 and H.265 frames.  An Annex-B frame of units that respect emulation
prevention is split at exactly its start codes.  A length-prefixed frame is split at its length
fields unless the first one reads as a start code, since start codes are looked for first; from then
on the frame comes out right only where every length field happens to end in a start code.
-/

namespace CausalFrontierRatchet.NalContainers

open BigEndian SelfDelimiting MediaLayout StartCodes FrameRuns
open LayoutTiling LayoutStability

/-- The codecs made of NAL units, and how many bytes of header their units have. -/
inductive NalCodec : Codec → ℕ → Prop where
  | h264 : NalCodec .h264 1
  | h265 : NalCodec .h265 2

section NalCodec

variable {codec : Codec} {h : ℕ}

theorem NalCodec.marked (hc : NalCodec codec h) (frame : Bytes) (keyframe : Bool) :
    Marked (layout codec frame keyframe) (marks (headerRuns h frame)) := by
  have := layout_marked codec frame keyframe
  cases hc with
  | h264 => exact this
  | h265 => exact this

theorem NalCodec.le_two (hc : NalCodec codec h) : 1 ≤ h ∧ h ≤ 2 := by
  cases hc <;> omega

/-! ## Annex-B -/

/-- A unit with emulation prevention. -/
structure Escaped (body : Bytes) : Prop where
  nonempty : body ≠ []
  no_zeros : ¬[0, 0, 0] <:+: body
  no_code : ¬[0, 0, 1] <:+: body
  last : body.getLast? ≠ some 0

theorem clean_of_escaped {nals : List Nal} (h : ∀ u ∈ nals, Escaped u.2) : Clean nals := by
  induction nals with
  | nil => trivial
  | cons u nals ih =>
      obtain ⟨c, body⟩ := u
      have hbody : Escaped body := h (c, body) (by simp)
      exact ⟨⟨hbody.no_code, fun _ => hbody.last⟩, ih fun v hv => h v (by simp [hv])⟩

/-- An Annex-B frame is split at exactly its start codes. -/
theorem annexB_layout (hc : NalCodec codec h) (nals : List Nal) (hne : nals ≠ [])
    (hnals : ∀ u ∈ nals, Escaped u.2) (keyframe : Bool) :
    Marked (layout codec (assemble nals) keyframe)
      (nals.flatMap fun u => unitMarks h u.1.bytes.length u.2.length) := by
  have hscan := scan_assemble (clean_of_escaped hnals)
  have hruns : headerRuns h (assemble nals) = unitRuns h (lengths nals) := by
    rw [headerRuns, annexBRuns, hscan, if_pos ⟨rfl, hne⟩]
  have hmarked := hc.marked (assemble nals) keyframe
  rw [hruns, marks_unitRuns, lengths, List.flatMap_map] at hmarked
  exact hmarked

theorem annexB_layout_two :
    Escaped [0x65, 0, 7] ∧
      Marked (layout .h265 (assemble [(.long, [0x65, 0, 7]), (.short, [9])]) false)
        ([true, true, true, true, true, true, false] ++ [true, true, true, true]) := by
  have hfirst : Escaped [0x65, 0, 7] := by
    constructor <;> decide
  have hsecond : Escaped [9] := by
    constructor <;> decide
  refine ⟨hfirst, annexB_layout .h265 [(.long, [0x65, 0, 7]), (.short, [9])] (by decide) ?_ false⟩
  simp [hfirst, hsecond]

end NalCodec

/-! ## What the start-code search shows -/

/-- Which bytes stay readable when start codes are looked for: the codes, `h` bytes behind each, and
`k` bytes before the first. -/
def shown (h : ℕ) : ℕ → Bytes → List Bool
  | _, 0 :: 0 :: 1 :: rest => true :: true :: true :: shown h h rest
  | _, 0 :: 0 :: 0 :: 1 :: rest => true :: true :: true :: true :: shown h h rest
  | k, _ :: rest => decide (0 < k) :: shown h (k - 1) rest
  | _, [] => []

section Shown

variable {h k : ℕ}

theorem shown_code (c : StartCode) (rest : Bytes) :
    shown h k (c.bytes ++ rest) = List.replicate c.bytes.length true ++ shown h h rest := by
  cases c <;> simp [StartCode.bytes, shown, List.replicate]

theorem shown_of_codeAt_none {b : UInt8} {rest : Bytes} (hcode : codeAt (b :: rest) = none) :
    shown h k (b :: rest) = decide (0 < k) :: shown h (k - 1) rest := by
  rw [shown.eq_def]
  split <;> simp_all [codeAt]

theorem unitMarks_zero (k : ℕ) : unitMarks k 0 0 = [] := by
  simp [unitMarks]

theorem unitMarks_succ (k n : ℕ) :
    unitMarks k 0 (n + 1) = decide (0 < k) :: unitMarks (k - 1) 0 n := by
  cases k with
  | zero => simp [unitMarks, List.replicate_succ]
  | succ k =>
      have hmin : min (k + 1) (n + 1) = min k n + 1 := by omega
      have hrest : n + 1 - (min k n + 1) = n - min k n := by omega
      simp [unitMarks, hmin, hrest, List.replicate_succ]

/-- The bytes in front of a unit are shown whatever its header. -/
theorem unitMarks_width (h width n : ℕ) :
    unitMarks h width n = List.replicate width true ++ unitMarks h 0 n := by
  rw [unitMarks, unitMarks, Nat.zero_add, ← List.replicate_append_replicate, List.append_assoc]

theorem shown_of_ne {b : UInt8} (hb : b ≠ 0) (rest : Bytes) :
    shown h k (b :: rest) = decide (0 < k) :: shown h (k - 1) rest := by
  apply shown_of_codeAt_none
  simp [codeAt, hb]

/-- A strong induction on the bytes that follows the search. -/
theorem codeAt_induction {P : Bytes → Prop} (nil : P [])
    (code : ∀ c rest, P rest → P (StartCode.bytes c ++ rest))
    (skip : ∀ b rest, codeAt (b :: rest) = none → P rest → P (b :: rest)) (bytes : Bytes) :
    P bytes := by
  induction hn : bytes.length using Nat.strong_induction_on generalizing bytes with
  | _ n ih =>
      cases hcode : codeAt bytes with
      | some c =>
          obtain ⟨rest, rfl⟩ := eq_code_of_codeAt hcode
          have hlt : rest.length < n := by
            cases c <;> simp [StartCode.bytes] at hn ⊢ <;> omega
          exact code c rest (ih _ hlt rest rfl)
      | none =>
          cases bytes with
          | nil => exact nil
          | cons b rest =>
              exact skip b rest hcode (ih rest.length (by simp at hn; omega) rest rfl)

/-- The search shows the marks of the units it finds. -/
theorem shown_eq (bytes : Bytes) :
    shown h k bytes =
      unitMarks k 0 (scan bytes).1.length ++ marks (unitRuns h (lengths (scan bytes).2)) := by
  induction bytes using codeAt_induction generalizing k with
  | nil => simp [shown, scan, unitMarks_zero]
  | code c rest ih =>
      rw [shown_code, ih, scan_code, List.length_nil, unitMarks_zero, List.nil_append, lengths_cons,
        unitRuns_cons, marks_cons, unitMarks, Nat.zero_add, ← List.replicate_append_replicate]
      simp only [List.append_assoc]
  | skip b rest hcode ih =>
      rw [shown_of_codeAt_none hcode, ih, scan_of_codeAt_none hcode, List.length_cons,
        unitMarks_succ, List.cons_append]

theorem marks_headerRuns_of_code {frame : Bytes} (hcode : (codeAt frame).isSome) :
    marks (headerRuns h frame) = shown h 0 frame := by
  have hscan := (codeAt_isSome_iff frame).mp hcode
  rw [headerRuns, annexBRuns, if_pos hscan, shown_eq, hscan.1]
  simp [unitMarks_zero]

/-- The first `k` bytes are shown. -/
theorem shown_false {bytes : Bytes} {i : ℕ} (hk : k ≤ h)
    (hi : (shown h k bytes)[i]? = some false) : k ≤ i := by
  induction bytes using codeAt_induction generalizing k i with
  | nil => simp [shown] at hi
  | code c rest ih =>
      rw [shown_code] at hi
      by_cases hlt : i < c.bytes.length
      · simp [List.getElem?_append_left, hlt] at hi
      · rw [List.getElem?_append_right (by simp; omega), List.length_replicate] at hi
        have := ih (Nat.le_refl h) hi
        omega
  | skip b rest hcode ih =>
      rw [shown_of_codeAt_none hcode] at hi
      cases i with
      | zero =>
          simp at hi
          omega
      | succ i =>
          have := ih (k := k - 1) (i := i) (by omega) (by simpa using hi)
          omega

/-- Where readable bytes end, other than the first `k`, a start code ended `h` bytes before. -/
theorem exists_code_of_shown {bytes : Bytes} {j : ℕ} {m : List Bool} (hk : k ≤ h) (hj : k < j)
    (hbytes : shown h k bytes = List.replicate j true ++ false :: m) :
    ∃ front c rest, bytes = front ++ StartCode.bytes c ++ rest ∧
      (front ++ c.bytes).length + h = j ∧ shown h h rest = List.replicate h true ++ false :: m := by
  induction bytes using codeAt_induction generalizing k j with
  | nil => simp [shown] at hbytes
  | code c rest ih =>
      rw [shown_code] at hbytes
      have hle : c.bytes.length ≤ j := by
        by_contra hlt
        have hmark := congrArg (fun marks : List Bool => marks[j]?) hbytes
        simp [List.getElem?_append_left, show j < c.bytes.length by omega] at hmark
      obtain ⟨i, rfl⟩ := Nat.exists_eq_add_of_le hle
      rw [← List.replicate_append_replicate, List.append_assoc, List.append_cancel_left_eq]
        at hbytes
      have hend : (shown h h rest)[i]? = some false := by
        rw [hbytes]
        simp
      have hi : h ≤ i := shown_false (Nat.le_refl h) hend
      by_cases heq : h = i
      · exact ⟨[], c, rest, by simp, by simp [heq], by rw [hbytes, heq]⟩
      · obtain ⟨front, c', rest', rfl, hlen, hrest⟩ := ih (Nat.le_refl h) (by omega) hbytes
        refine ⟨c.bytes ++ front, c', rest', by simp, ?_, hrest⟩
        simp only [List.length_append] at hlen ⊢
        omega
  | skip b rest hcode ih =>
      rw [shown_of_codeAt_none hcode] at hbytes
      obtain ⟨i, rfl⟩ := Nat.exists_eq_add_of_lt hj
      rw [List.replicate_succ, List.cons_append, List.cons.injEq] at hbytes
      have hpos : 0 < k := by simpa using hbytes.1
      obtain ⟨front, c, rest', rfl, hlen, hrest⟩ := ih (by omega) (by omega) hbytes.2
      refine ⟨b :: front, c, rest', by simp, ?_, hrest⟩
      simp only [List.cons_append, List.length_cons] at hlen ⊢
      omega

/-- A run of bytes in which no start code begins. -/
theorem shown_append {body : Bytes} {nals : List Nal} (hbody : NoCode body (nextCode nals)) :
    shown h k (body ++ assemble nals) =
      unitMarks k 0 body.length ++ shown h (k - body.length) (assemble nals) := by
  induction body generalizing k with
  | nil => simp [unitMarks_zero]
  | cons b body ih =>
      have hnone := codeAt_eq_none_of_noCode hbody
      rw [List.cons_append] at hnone ⊢
      rw [shown_of_codeAt_none hnone, ih hbody.tail, List.length_cons, unitMarks_succ,
        List.cons_append, Nat.sub_sub, Nat.add_comm 1]

/-- A run of bytes that is shown no further than its header has no start code in it. -/
theorem noCode_of_shown {body rest : Bytes} {m : List Bool} (hk : k ≤ 2)
    (hlen : k < body.length ∨ k = 0)
    (hbody : shown h k (body ++ rest) = unitMarks k 0 body.length ++ m) :
    ¬[0, 0, 1] <:+: body ∧ shown h 0 rest = m := by
  induction body generalizing k with
  | nil =>
      obtain rfl : k = 0 := by simpa using hlen
      apply And.intro (by simp)
      simpa [unitMarks_zero] using hbody
  | cons b body ih =>
      have hlt : k < body.length + 1 := by
        simp at hlen
        omega
      -- A code here would show the byte behind the header.
      have hnone : codeAt (b :: (body ++ rest)) = none := by
        by_contra hcode
        obtain ⟨c, hc⟩ := Option.ne_none_iff_exists'.mp hcode
        obtain ⟨tail, htail⟩ := eq_code_of_codeAt hc
        have hwide : 3 ≤ c.bytes.length := by cases c <;> decide
        rw [List.cons_append, htail, shown_code] at hbody
        have hmark := congrArg (fun marks : List Bool => marks[k]?) hbody
        simp [unitMarks, List.getElem?_append, show k < c.bytes.length by omega,
          show min k (body.length + 1) = k by omega, show 0 < body.length + 1 - k by omega] at hmark
      rw [List.cons_append, shown_of_codeAt_none hnone, List.length_cons, unitMarks_succ,
        List.cons_append, List.cons.injEq] at hbody
      have hrest := ih (by omega) (by omega) hbody.2
      refine ⟨fun hinfix => ?_, hrest.2⟩
      rcases List.infix_cons_iff.mp hinfix with hpre | hinfix
      · obtain ⟨tail, htail⟩ := hpre
        rw [← List.cons_append, ← htail] at hnone
        simp [codeAt] at hnone
      · exact hrest.1 hinfix

end Shown

/-! ## Length prefixes -/

/-- Each unit behind its four-byte length. -/
def lengthPrefixed (units : List Bytes) : Bytes :=
  units.flatMap fun u => beBytes 4 u.length ++ u

/-- The length fields and the headers stay readable. -/
def prefixedMarks (h : ℕ) (units : List Bytes) : List Bool :=
  units.flatMap fun u => unitMarks h 4 u.length

/-- The units fit their length fields. -/
def Fits (units : List Bytes) : Prop :=
  ∀ u ∈ units, u ≠ [] ∧ u.length < 2 ^ 32

/-- The first length field reads as a start code. -/
def OpensLikeCode (units : List Bytes) : Prop :=
  ∃ u ∈ units.head?, u.length = 1 ∨ 256 ≤ u.length ∧ u.length < 512

/-- Units that look the same read as Annex-B.  The length field of a single byte is a start code.
Where two bytes of header are shown, a longer unit is found as well if it follows a single byte and
its length field, all but the first byte, is a start code, provided that no other one lies in it. -/
def Disguised (h : ℕ) : Bool → List Bytes → Prop
  | _, [] => True
  | single, u :: us =>
      u.length = 1 ∧ Disguised h true us ∨
      (h = 2 ∧ single = true) ∧ (u.length ≠ 1 ∧ u.length % 2 ^ 24 = 1) ∧ ¬[0, 0, 1] <:+: u ∧
        Disguised h false us

section LengthField

variable {n : ℕ}

theorem uint8_ofNat_eq_iff (a : ℕ) (b : UInt8) : UInt8.ofNat a = b ↔ a % 256 = b.toNat := by
  rw [← UInt8.toNat_inj, UInt8.toNat_ofNat']

theorem beBytes_four (n : ℕ) :
    beBytes 4 n = [UInt8.ofNat (n / 2 ^ 24), UInt8.ofNat (n / 2 ^ 16), UInt8.ofNat (n / 2 ^ 8),
      UInt8.ofNat n] := by
  simp [beBytes]

theorem beBytes_one : beBytes 4 1 = StartCode.bytes .long := by
  decide

/-- A length field that is a start code but for its first byte. -/
theorem beBytes_of_mod (hn : n < 2 ^ 32) (hmod : n % 2 ^ 24 = 1) (hne : n ≠ 1) :
    ∃ b, b ≠ 0 ∧ beBytes 4 n = b :: StartCode.bytes .short := by
  refine ⟨UInt8.ofNat (n / 2 ^ 24), ?_, ?_⟩
  · rw [Ne, uint8_ofNat_eq_iff]
    simp
    omega
  · rw [beBytes_four]
    simp only [StartCode.bytes, List.cons.injEq, uint8_ofNat_eq_iff, true_and, and_true]
    simp
    omega

/-- A length field that ends in a start code. -/
theorem mod_of_code_suffix {front : Bytes} {c : StartCode}
    (hcode : beBytes 4 n = front ++ c.bytes) : n % 2 ^ 24 = 1 := by
  have hlen := congrArg List.length hcode
  rw [beBytes_four] at hcode
  cases c with
  | short =>
      obtain ⟨b, rfl⟩ : ∃ b, front = [b] := by
        rw [← List.length_eq_one_iff]
        simpa [StartCode.bytes] using hlen.symm
      simp [StartCode.bytes, uint8_ofNat_eq_iff] at hcode
      omega
  | long =>
      obtain rfl : front = [] := by
        rw [← List.length_eq_zero_iff]
        simpa [StartCode.bytes] using hlen.symm
      simp [StartCode.bytes, uint8_ofNat_eq_iff] at hcode
      omega

/-- Which lengths read as a start code. -/
theorem codeAt_beBytes (hn : n < 2 ^ 32) (rest : Bytes) :
    (codeAt (beBytes 4 n ++ rest)).isSome ↔ n = 1 ∨ 256 ≤ n ∧ n < 512 := by
  constructor
  · intro hsome
    obtain ⟨c, hc⟩ := Option.isSome_iff_exists.mp hsome
    obtain ⟨tail, htail⟩ := eq_code_of_codeAt hc
    rw [beBytes_four] at htail
    cases c with
    | short =>
        simp [StartCode.bytes, uint8_ofNat_eq_iff] at htail
        omega
    | long =>
        simp [StartCode.bytes, uint8_ofNat_eq_iff] at htail
        omega
  · intro hn'
    by_cases hone : n = 1
    · rw [hone, beBytes_one, codeAt_code]
      rfl
    · have hshort : beBytes 4 n = StartCode.bytes .short ++ [UInt8.ofNat n] := by
        rw [beBytes_four]
        simp [StartCode.bytes, uint8_ofNat_eq_iff]
        omega
      rw [hshort, List.append_assoc, codeAt_code]
      rfl

end LengthField

@[simp] theorem lengthPrefixed_cons (u : Bytes) (us : List Bytes) :
    lengthPrefixed (u :: us) = beBytes 4 u.length ++ (u ++ lengthPrefixed us) := by
  simp [lengthPrefixed]

@[simp] theorem prefixedMarks_cons (h : ℕ) (u : Bytes) (us : List Bytes) :
    prefixedMarks h (u :: us) = unitMarks h 4 u.length ++ prefixedMarks h us := rfl

section Disguised

variable {h : ℕ} {units : List Bytes}

/-- A unit longer than its header is shown up to the end of the header. -/
theorem unitMarks_of_lt {h n : ℕ} (width : ℕ) (hlt : h < n) :
    unitMarks h width n =
      List.replicate (width + h) true ++ false :: List.replicate (n - h - 1) false := by
  obtain ⟨k, rfl⟩ := Nat.exists_eq_add_of_lt hlt
  rw [unitMarks, Nat.min_eq_left (by omega), show h + k + 1 - h = k + 1 by omega,
    List.replicate_succ]
  rfl

/-- A start code cannot begin with the last byte of a unit and reach into the next length field:
the length would have to be that of a unit whose header ends too late. -/
theorem shown_single_iff (hh : 1 ≤ h ∧ h ≤ 2) (hunits : Fits units) (x : UInt8) :
    shown h h (x :: lengthPrefixed units) = true :: prefixedMarks h units ↔
      codeAt (x :: lengthPrefixed units) = none ∧
        shown h (h - 1) (lengthPrefixed units) = prefixedMarks h units := by
  cases hcode : codeAt (x :: lengthPrefixed units) with
  | none =>
      rw [shown_of_codeAt_none hcode]
      simp
      omega
  | some c =>
      simp only [reduceCtorEq, false_and, iff_false]
      intro hshown
      obtain ⟨tail, htail⟩ := eq_code_of_codeAt hcode
      cases units with
      | nil => cases c <;> simp [StartCode.bytes, lengthPrefixed] at htail
      | cons v vs =>
          have hv := (hunits v (by simp)).2
          rw [htail, shown_code] at hshown
          have hlong : h < v.length := by
            rw [lengthPrefixed_cons, beBytes_four] at htail
            cases c <;> simp [StartCode.bytes, uint8_ofNat_eq_iff] at htail <;> omega
          have hwidth : 3 ≤ c.bytes.length ∧ c.bytes.length ≤ 4 := by cases c <;> decide
          -- The header would have to end one or two bytes further behind the code.
          obtain ⟨j, hj⟩ : ∃ j, c.bytes.length + (j + h) = 1 + (4 + h) :=
            ⟨5 - c.bytes.length, by omega⟩
          have hrest : shown h h tail = List.replicate (j + h) true ++
              false :: (List.replicate (v.length - h - 1) false ++ prefixedMarks h vs) := by
            rw [prefixedMarks_cons, unitMarks_of_lt 4 hlong, ← List.singleton_append,
              show [true] = List.replicate 1 true from rfl, ← List.append_assoc,
              ← List.append_assoc, List.replicate_append_replicate, ← hj,
              ← List.replicate_append_replicate, List.append_assoc, List.append_assoc,
              List.append_cancel_left_eq] at hshown
            rw [hshown, List.cons_append]
          obtain ⟨front, c', rest, -, hlen, -⟩ :=
            exists_code_of_shown (Nat.le_refl h) (by omega) hrest
          have hwidth' : 3 ≤ c'.bytes.length := by cases c' <;> decide
          rw [List.length_append] at hlen
          omega

/-- A single byte in front of disguised units is not taken for the start of a code. -/
theorem Disguised.codeAt_none (hunits : Fits units) (hdis : Disguised h true units) (x : UInt8) :
    codeAt (x :: lengthPrefixed units) = none := by
  cases units with
  | nil => simp [lengthPrefixed, codeAt]
  | cons v vs =>
      have hv := (hunits v (by simp)).2
      have hmod : v.length % 2 ^ 24 = 1 := by
        rcases hdis with hone | hlong
        · omega
        · exact hlong.2.1.2
      by_contra hcode
      obtain ⟨c, hc⟩ := Option.ne_none_iff_exists'.mp hcode
      obtain ⟨tail, htail⟩ := eq_code_of_codeAt hc
      rw [lengthPrefixed_cons, beBytes_four] at htail
      cases c <;> simp [StartCode.bytes, uint8_ofNat_eq_iff] at htail <;> omega

/-- The units behind a longer one start with a start code or not at all. -/
theorem Disguised.assembled (hdis : Disguised h false units) :
    ∃ nals, lengthPrefixed units = assemble nals ∧ nextCode nals ≠ some .short := by
  cases units with
  | nil => exact ⟨[], rfl, by simp [nextCode]⟩
  | cons v vs =>
      have hone : v.length = 1 := by
        rcases hdis with hone | hlong
        · exact hone.1
        · exact absurd hlong.1.2 (by simp)
      refine ⟨[(.long, v ++ lengthPrefixed vs)], ?_, by simp [nextCode]⟩
      rw [lengthPrefixed_cons, hone, beBytes_one]
      simp

/-- A single byte looks right if what follows it does. -/
theorem shown_one_iff (hh : 1 ≤ h ∧ h ≤ 2) (hunits : Fits units) (k : ℕ) (x : UInt8) :
    shown h k (lengthPrefixed ([x] :: units)) = prefixedMarks h ([x] :: units) ↔
      codeAt (x :: lengthPrefixed units) = none ∧
        shown h (h - 1) (lengthPrefixed units) = prefixedMarks h units := by
  have hmarks : unitMarks h 4 1 = List.replicate 4 true ++ [true] := by
    rw [unitMarks, Nat.min_eq_right hh.1]
    rfl
  rw [← shown_single_iff hh hunits, lengthPrefixed_cons, prefixedMarks_cons,
    List.length_singleton, beBytes_one, shown_code, hmarks, List.append_assoc,
    List.singleton_append, List.singleton_append]
  exact List.append_right_inj (List.replicate 4 true)

/-- A unit of two bytes whose header has two bytes is missed: its length field has no start code. -/
theorem shown_two_ne {u : Bytes} (hu : u.length = 2) {k : ℕ} (hk : k ≤ 1) :
    shown 2 k (lengthPrefixed (u :: units)) ≠ prefixedMarks 2 (u :: units) := by
  intro hshown
  have hfield : beBytes 4 2 = [0, 0, 0, 2] := by decide
  rw [lengthPrefixed_cons, prefixedMarks_cons, hu, hfield] at hshown
  simp [shown, unitMarks, List.replicate] at hshown
  omega

/-- A longer unit looks right only if its length field ends in a start code. -/
theorem exists_code_of_long {u : Bytes} {k : ℕ} (hk : k < h) (hlong : h < u.length)
    (hshown : shown h k (lengthPrefixed (u :: units)) = prefixedMarks h (u :: units)) :
    (∃ front c, beBytes 4 u.length = front ++ StartCode.bytes c) ∧
      shown h h (u ++ lengthPrefixed units) = unitMarks h 0 u.length ++ prefixedMarks h units := by
  rw [prefixedMarks_cons, unitMarks_of_lt 4 hlong, List.append_assoc, List.cons_append] at hshown
  obtain ⟨front, c, rest, hbytes, hlen, hrest⟩ := exists_code_of_shown (by omega) (by omega) hshown
  rw [lengthPrefixed_cons] at hbytes
  have hcut := List.append_inj hbytes (by rw [beBytes_length]; omega)
  refine ⟨⟨front, c, hcut.1⟩, ?_⟩
  rw [hcut.2, hrest, unitMarks_of_lt 0 hlong, Nat.zero_add, List.append_assoc, List.cons_append]

/-- Read as Annex-B, length-prefixed units look right exactly if they are disguised. -/
theorem shown_lengthPrefixed_iff (hh : 1 ≤ h ∧ h ≤ 2) (hunits : Fits units) (single : Bool) :
    shown h (if single then h - 1 else 0) (lengthPrefixed units) = prefixedMarks h units ↔
      Disguised h single units := by
  induction units generalizing single with
  | nil => simp [lengthPrefixed, prefixedMarks, shown, Disguised]
  | cons u us ih =>
      have hu := hunits u (by simp)
      have hus : Fits us := fun v hv => hunits v (by simp [hv])
      have hsingle := ih hus true
      have hbehind := ih hus false
      rw [if_pos rfl] at hsingle
      rw [if_neg (by simp)] at hbehind
      by_cases hone : u.length = 1
      · obtain ⟨x, rfl⟩ := List.length_eq_one_iff.mp hone
        rw [shown_one_iff hh hus, hsingle]
        simp [Disguised]
        exact fun hdis => hdis.codeAt_none hus x
      · have hpos : 0 < u.length := List.length_pos_iff.mpr hu.1
        simp only [Disguised, hone, false_and, false_or, ne_eq, not_false_eq_true, true_and]
        constructor
        · intro hshown
          have hk : (if single then h - 1 else 0) < h := by split_ifs <;> omega
          by_cases hlong : h < u.length
          · obtain ⟨⟨front, c, hcode⟩, hbody⟩ := exists_code_of_long hk hlong hshown
            have hmod := mod_of_code_suffix hcode
            obtain ⟨b, hb, hbytes⟩ := beBytes_of_mod hu.2 hmod hone
            -- The first byte of the length field is not part of the code.
            rw [lengthPrefixed_cons, prefixedMarks_cons, hbytes, unitMarks_width, List.cons_append,
              shown_of_ne hb, List.replicate_succ, List.cons_append, List.cons_append,
              List.cons.injEq] at hshown
            have hfirst := of_decide_eq_true hshown.1
            have hkept : single = true ∧ h = 2 := by
              split_ifs at hfirst with hs
              · exact ⟨hs, by omega⟩
              · omega
            have hrest := noCode_of_shown hh.2 (Or.inl hlong) hbody
            exact ⟨⟨hkept.2, hkept.1⟩, hmod, hrest.1, hbehind.mp hrest.2⟩
          · obtain rfl : h = 2 := by omega
            exact absurd hshown (shown_two_ne (by omega) (by omega))
        · rintro ⟨⟨rfl, rfl⟩, hmod, hcode, hdis⟩
          obtain ⟨b, hb, hbytes⟩ := beBytes_of_mod hu.2 hmod hone
          obtain ⟨nals, hnals, hnext⟩ := hdis.assembled
          have hrest := hbehind.mpr hdis
          rw [hnals] at hrest
          rw [lengthPrefixed_cons, prefixedMarks_cons, hbytes, hnals, unitMarks_width,
            List.cons_append, if_pos rfl, shown_of_ne hb, shown_code,
            shown_append ⟨hcode, fun hshort => absurd hshort hnext⟩,
            show 2 - u.length = 0 by omega, hrest]
          rfl

end Disguised

/-! ## Which frames are recognised -/

section Frames

variable {units : List Bytes}

theorem split_lengthPrefixed (hunits : Fits units) {fuel : ℕ} (hfuel : units.length ≤ fuel) :
    split lengthPrefixedUnitAt fuel (lengthPrefixed units) =
      some (units.map fun u => (4, u.length)) := by
  induction units generalizing fuel with
  | nil => simp [lengthPrefixed]
  | cons u us ih =>
      have hu := hunits u (by simp)
      have hpos : u.length ≠ 0 := by simpa using hu.1
      obtain ⟨fuel, rfl⟩ : ∃ f, fuel = f + 1 := ⟨fuel - 1, by simp at hfuel; omega⟩
      have htake : (lengthPrefixed (u :: us)).take 4 = beBytes 4 u.length := by
        rw [lengthPrefixed_cons, List.take_left' (beBytes_length 4 _)]
      have hlen : (lengthPrefixed (u :: us)).length =
          4 + u.length + (lengthPrefixed us).length := by
        simp [Nat.add_assoc]
      have hhead : lengthPrefixedUnitAt (lengthPrefixed (u :: us)) = some (4, u.length) := by
        rw [lengthPrefixedUnitAt, htake, ofBe_beBytes_of_lt (by simpa using hu.2), if_neg hpos,
          if_neg (by omega)]
      have hdrop : (lengthPrefixed (u :: us)).drop (4 + u.length) = lengthPrefixed us := by
        rw [lengthPrefixed_cons, ← List.append_assoc, List.drop_left' (by simp)]
      have hempty : (lengthPrefixed (u :: us)).isEmpty = false := by
        rw [List.isEmpty_eq_false_iff, ← List.length_pos_iff]
        omega
      rw [split, hempty, hhead]
      simp only [Bool.false_eq_true, if_false, Option.bind_eq_bind, Option.bind_some, hdrop,
        ih (fun v hv => hunits v (by simp [hv])) (by simpa using hfuel)]
      rw [if_neg (by omega)]
      rfl

theorem codeAt_lengthPrefixed (hunits : Fits units) :
    (codeAt (lengthPrefixed units)).isSome ↔ OpensLikeCode units := by
  cases units with
  | nil => simp [lengthPrefixed, codeAt, OpensLikeCode]
  | cons u us =>
      rw [lengthPrefixed_cons, codeAt_beBytes (hunits u (by simp)).2]
      simp [OpensLikeCode]

theorem units_length_le (hunits : Fits units) : units.length ≤ (lengthPrefixed units).length := by
  induction units with
  | nil => simp
  | cons u us ih =>
      have := ih fun v hv => hunits v (by simp [hv])
      simp only [lengthPrefixed_cons, List.length_append, beBytes_length, List.length_cons]
      omega

/-- Behind a first length that is no start code every length field is found. -/
theorem marks_headerRuns_of_not_code (h : ℕ) (hne : units ≠ []) (hunits : Fits units)
    (hopen : ¬OpensLikeCode units) :
    marks (headerRuns h (lengthPrefixed units)) = prefixedMarks h units := by
  have hannex : ¬(annexBUnits (lengthPrefixed units)).isSome := by
    rwa [annexBUnits_isSome_iff_codeAt, codeAt_lengthPrefixed hunits]
  have hsplit := split_lengthPrefixed hunits
    (Nat.le_trans (units_length_le hunits) (Nat.le_add_right _ 1))
  cases units with
  | nil => exact absurd rfl hne
  | cons u us =>
      rw [headerRuns_of_not_annexB hannex, splitRuns, hsplit, List.map_cons, Option.getD_some,
        marks_unitRuns, List.flatMap_cons, List.flatMap_map]
      rfl

/-- A length-prefixed frame is laid out by its length fields exactly if the first of them does not
read as a start code or the frame looks the same as Annex-B. -/
theorem lengthPrefixed_layout {codec : Codec} {h : ℕ} (hc : NalCodec codec h) (hne : units ≠ [])
    (hunits : Fits units) (keyframe : Bool) :
    Marked (layout codec (lengthPrefixed units) keyframe) (prefixedMarks h units) ↔
      ¬OpensLikeCode units ∨ Disguised h false units := by
  have hmarked := hc.marked (lengthPrefixed units) keyframe
  by_cases hopen : OpensLikeCode units
  · have hcode := (codeAt_lengthPrefixed hunits).mpr hopen
    have hiff := shown_lengthPrefixed_iff hc.le_two hunits false
    rw [marks_headerRuns_of_code hcode] at hmarked
    rw [if_neg (by simp)] at hiff
    simp only [hopen, not_true_eq_false, false_or, ← hiff]
    exact ⟨fun hright => hmarked.unique hright, fun heq => heq ▸ hmarked⟩
  · rw [marks_headerRuns_of_not_code h hne hunits hopen] at hmarked
    exact iff_of_true hmarked (Or.inl hopen)

theorem lengthPrefixed_layout_two :
    Marked (layout .h264 (lengthPrefixed [[0x65, 7], [0x41]]) true)
      [true, true, true, true, true, false, true, true, true, true, true] :=
  (lengthPrefixed_layout .h264 (by decide) (by simp [Fits]) true).mpr
    (Or.inl (by simp [OpensLikeCode]))

/-- A first unit of 256 bytes: its length field is taken for a three-byte start code and the rest of
it for the header, and the header proper is hidden. -/
theorem lengthPrefixed_layout_256 :
    layout .h264 (lengthPrefixed [List.replicate 256 7]) false = ⟨[⟨0, 4⟩], [⟨4, 260⟩]⟩ ∧
      ¬Marked (layout .h264 (lengthPrefixed [List.replicate 256 7]) false)
        (prefixedMarks 1 [List.replicate 256 7]) := by
  have hlayout : layout .h264 (lengthPrefixed [List.replicate 256 7]) false =
      ⟨[⟨0, 4⟩], [⟨4, 260⟩]⟩ := by
    decide +kernel
  refine ⟨hlayout, fun hmarked => ?_⟩
  have hheader := (hmarked 4).1.mpr (by decide +kernel)
  rw [hlayout] at hheader
  simp [Range.Has] at hheader

end Frames

end CausalFrontierRatchet.NalContainers
