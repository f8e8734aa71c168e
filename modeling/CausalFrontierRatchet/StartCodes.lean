import CausalFrontierRatchet.LayoutRuns

/-!
Annex-B start codes as a grammar.  `scan` cuts a byte string at its start codes the way the
left-to-right search does, keeping the bytes instead of their positions.  `NoCode` is the condition
under which a run of bytes in front of a start code is left in one piece, and with it the search is
characterised from both sides: every scanned body satisfies it, and whatever is assembled from such
bodies is scanned back into the same pieces.
-/

namespace CausalFrontierRatchet.StartCodes

open BigEndian AlternatingRuns SelfDelimiting MediaLayout LayoutRuns

/-- The three-byte and the four-byte start code. -/
inductive StartCode where
  | short
  | long
  deriving DecidableEq, Repr

def StartCode.bytes : StartCode → Bytes
  | .short => [0, 0, 1]
  | .long => [0, 0, 0, 1]

/-- A start code and the bytes up to the next one. -/
abbrev Nal := StartCode × Bytes

/-- The start code the bytes open with. -/
def codeAt : Bytes → Option StartCode
  | 0 :: 0 :: 1 :: _ => some .short
  | 0 :: 0 :: 0 :: 1 :: _ => some .long
  | _ => none

/-- The bytes before the first start code, and the units behind it. -/
def scan : Bytes → Bytes × List Nal
  | 0 :: 0 :: 1 :: rest => ([], (.short, (scan rest).1) :: (scan rest).2)
  | 0 :: 0 :: 0 :: 1 :: rest => ([], (.long, (scan rest).1) :: (scan rest).2)
  | b :: rest => (b :: (scan rest).1, (scan rest).2)
  | [] => ([], [])

/-- The bytes of a list of units. -/
def assemble (nals : List Nal) : Bytes :=
  nals.flatMap fun u => u.1.bytes ++ u.2

/-- The code lengths and body lengths of a list of units. -/
def lengths (nals : List Nal) : Runs :=
  nals.map fun u => (u.1.bytes.length, u.2.length)

@[simp] theorem assemble_nil : assemble [] = [] := rfl

@[simp] theorem assemble_cons (c : StartCode) (body : Bytes) (nals : List Nal) :
    assemble ((c, body) :: nals) = c.bytes ++ body ++ assemble nals := rfl

@[simp] theorem lengths_nil : lengths [] = [] := rfl

@[simp] theorem lengths_cons (c : StartCode) (body : Bytes) (nals : List Nal) :
    lengths ((c, body) :: nals) = (c.bytes.length, body.length) :: lengths nals := rfl

theorem total_lengths (nals : List Nal) : total (lengths nals) = (assemble nals).length := by
  induction nals with
  | nil => rfl
  | cons u nals ih =>
      obtain ⟨c, body⟩ := u
      simp [ih, Nat.add_assoc]

theorem scan_code (c : StartCode) (rest : Bytes) :
    scan (c.bytes ++ rest) = ([], (c, (scan rest).1) :: (scan rest).2) := by
  cases c <;> simp [StartCode.bytes, scan]

theorem codeAt_code (c : StartCode) (rest : Bytes) : codeAt (c.bytes ++ rest) = some c := by
  cases c <;> simp [StartCode.bytes, codeAt]

theorem scan_of_codeAt_none {b : UInt8} {rest : Bytes} (h : codeAt (b :: rest) = none) :
    scan (b :: rest) = (b :: (scan rest).1, (scan rest).2) := by
  rw [scan.eq_def]
  split <;> simp_all [codeAt]

theorem eq_code_of_codeAt {bytes : Bytes} {c : StartCode} (h : codeAt bytes = some c) :
    ∃ rest, bytes = c.bytes ++ rest := by
  unfold codeAt at h
  split at h
  · cases h
    exact ⟨_, rfl⟩
  · cases h
    exact ⟨_, rfl⟩
  · cases h

theorem assemble_scan (bytes : Bytes) : (scan bytes).1 ++ assemble (scan bytes).2 = bytes := by
  fun_induction scan bytes with
  | case1 rest ih => simp [StartCode.bytes, ih]
  | case2 rest ih => simp [StartCode.bytes, ih]
  | case3 b rest _ _ ih => simp [ih]
  | case4 => rfl

/-! ## The search of the source -/

/-- Positions of the start codes of units assembled from a position on. -/
def codePositions (pos : ℕ) : List Nal → List (ℕ × ℕ)
  | [] => []
  | (c, body) :: nals =>
      (pos, c.bytes.length) :: codePositions (pos + c.bytes.length + body.length) nals

theorem startCodesFrom_of_codeAt_none {b : UInt8} {rest : Bytes} (i : ℕ)
    (h : codeAt (b :: rest) = none) : startCodesFrom i (b :: rest) = startCodesFrom (i + 1) rest := by
  rcases rest with _ | ⟨x, _ | ⟨y, _ | ⟨z, rest⟩⟩⟩
  · rfl
  · rfl
  · have hshort : ¬((b = 0 ∧ x = 0) ∧ y = 1) := by
      rintro ⟨⟨rfl, rfl⟩, rfl⟩
      simp [codeAt] at h
    simp only [startCodesFrom]
    split_ifs <;> simp_all
  · have hshort : ¬((b = 0 ∧ x = 0) ∧ y = 1) := by
      rintro ⟨⟨rfl, rfl⟩, rfl⟩
      simp [codeAt] at h
    have hlong : ¬((b = 0 ∧ x = 0) ∧ y = 0 ∧ z = 1) := by
      rintro ⟨⟨rfl, rfl⟩, rfl, rfl⟩
      simp [codeAt] at h
    rw [startCodesFrom.eq_1]
    split_ifs with hzero hone htwo
    · exact absurd ⟨hzero, hone⟩ hshort
    · exact absurd ⟨hzero, htwo⟩ hlong
    · rfl
    · rfl

theorem startCodesFrom_code (i : ℕ) (c : StartCode) (rest : Bytes) :
    startCodesFrom i (c.bytes ++ rest) =
      (i, c.bytes.length) :: startCodesFrom (i + c.bytes.length) rest := by
  cases c with
  | short => cases rest <;> simp [StartCode.bytes, startCodesFrom]
  | long => simp [StartCode.bytes, startCodesFrom]

/-- The search finds exactly the start codes the grammar cuts at. -/
theorem startCodesFrom_eq (i : ℕ) (bytes : Bytes) :
    startCodesFrom i bytes = codePositions (i + (scan bytes).1.length) (scan bytes).2 := by
  induction hn : bytes.length using Nat.strong_induction_on generalizing i bytes with
  | _ n ih =>
      cases hcode : codeAt bytes with
      | some c =>
          obtain ⟨rest, rfl⟩ := eq_code_of_codeAt hcode
          have hlt : rest.length < n := by
            cases c <;> simp [StartCode.bytes] at hn ⊢ <;> omega
          rw [startCodesFrom_code, scan_code, ih _ hlt _ rest rfl]
          simp [codePositions]
      | none =>
          cases bytes with
          | nil => simp [startCodesFrom, scan, codePositions]
          | cons b rest =>
              rw [startCodesFrom_of_codeAt_none i hcode, scan_of_codeAt_none hcode,
                ih rest.length (by simp at hn; omega) _ rest rfl]
              simp only [List.length_cons]
              congr 1
              omega

theorem unitsBetween_codePositions (pos : ℕ) (nals : List Nal) :
    unitsBetween (pos + (assemble nals).length) (codePositions pos nals) =
      some (place pos (lengths nals)) := by
  induction nals generalizing pos with
  | nil => rfl
  | cons u nals ih =>
      obtain ⟨c, body⟩ := u
      have hend : ((codePositions (pos + c.bytes.length + body.length) nals).head?.map
          Prod.fst).getD (pos + (assemble ((c, body) :: nals)).length) =
            pos + c.bytes.length + body.length := by
        cases nals with
        | nil => simp [codePositions]; omega
        | cons v nals => simp [codePositions]
      have htotal : pos + (assemble ((c, body) :: nals)).length =
          pos + c.bytes.length + body.length + (assemble nals).length := by
        simp
        omega
      simp only [codePositions, unitsBetween, hend]
      rw [if_neg (by omega), htotal, ih]
      rfl

/-- A frame is split as Annex-B exactly when it opens with a start code. -/
theorem annexBUnits_eq (frame : Bytes) :
    annexBUnits frame =
      if (scan frame).1 = [] ∧ (scan frame).2 ≠ [] then some (place 0 (lengths (scan frame).2))
      else none := by
  have hcodes := startCodesFrom_eq 0 frame
  have hframe := assemble_scan frame
  rcases hscan : scan frame with ⟨lead, nals⟩
  rw [hscan] at hcodes hframe
  simp only at hcodes hframe
  rw [annexBUnits, startCodes, hcodes, Nat.zero_add]
  cases nals with
  | nil => simp [codePositions]
  | cons u nals =>
      obtain ⟨c, body⟩ := u
      by_cases hlead : lead = []
      · subst hlead
        have := unitsBetween_codePositions 0 ((c, body) :: nals)
        rw [List.nil_append] at hframe
        rw [hframe, Nat.zero_add] at this
        simpa [codePositions] using this
      · have : lead.length ≠ 0 := by simpa using hlead
        simp [codePositions, hlead]

/-! ## Bodies the search leaves in one piece -/

/-- The start code the next unit opens with. -/
def nextCode (nals : List Nal) : Option StartCode :=
  nals.head?.map Prod.fst

/-- No start code begins inside a body: none lies in it, and no trailing zero turns a three-byte
code behind it into a four-byte one. -/
def NoCode (body : Bytes) (next : Option StartCode) : Prop :=
  ¬[0, 0, 1] <:+: body ∧ (next = some .short → body.getLast? ≠ some 0)

/-- Units whose bodies the search leaves in one piece. -/
def Clean : List Nal → Prop
  | [] => True
  | (_, body) :: nals => NoCode body (nextCode nals) ∧ Clean nals

theorem NoCode.tail {b : UInt8} {body : Bytes} {next : Option StartCode}
    (h : NoCode (b :: body) next) : NoCode body next := by
  refine ⟨fun hin => h.1 (hin.trans (List.suffix_cons b body).isInfix), fun hnext hlast => ?_⟩
  refine h.2 hnext ?_
  cases body with
  | nil => simp at hlast
  | cons x body => simpa using hlast

theorem codeAt_eq_none_of_noCode {b : UInt8} {body : Bytes} {nals : List Nal}
    (h : NoCode (b :: body) (nextCode nals)) : codeAt (b :: body ++ assemble nals) = none := by
  obtain ⟨hin, hlast⟩ := h
  -- Neither the first three bytes nor the three behind the first are a short code.
  have hfirst : ∀ {x y : UInt8} {tail : Bytes}, body = x :: y :: tail →
      ¬(b = 0 ∧ x = 0 ∧ y = 1) := by
    rintro x y tail rfl ⟨rfl, rfl, rfl⟩
    exact hin ⟨[], tail, rfl⟩
  have hsecond : ∀ {x y z : UInt8} {tail : Bytes}, body = x :: y :: z :: tail →
      ¬(x = 0 ∧ y = 0 ∧ z = 1) := by
    rintro x y z tail rfl ⟨rfl, rfl, rfl⟩
    exact hin ⟨[b], tail, rfl⟩
  clear hin
  by_contra hcode
  obtain ⟨c, hc⟩ := Option.ne_none_iff_exists'.mp hcode
  obtain ⟨rest, hrest⟩ := eq_code_of_codeAt hc
  clear hcode hc
  -- A code that starts at `b` lies in the body or reaches into the next start code.
  rcases body with _ | ⟨x, _ | ⟨y, _ | ⟨z, body⟩⟩⟩
  · rcases nals with _ | ⟨⟨_ | _, next⟩, nals⟩ <;> cases c <;>
      simp [StartCode.bytes, nextCode] at hrest hlast
    exact hlast hrest.1
  · rcases nals with _ | ⟨⟨_ | _, next⟩, nals⟩ <;> cases c <;> simp [StartCode.bytes] at hrest
  · have hshort := hfirst rfl
    rcases nals with _ | ⟨⟨_ | _, next⟩, nals⟩ <;> cases c <;>
      simp [StartCode.bytes] at hrest hshort <;> simp_all
  · have hshort := hfirst rfl
    have hlong := hsecond rfl
    cases c with
    | short =>
        simp only [StartCode.bytes, List.cons_append, List.cons.injEq] at hrest
        exact hshort ⟨hrest.1, hrest.2.1, hrest.2.2.1⟩
    | long =>
        simp only [StartCode.bytes, List.cons_append, List.cons.injEq] at hrest
        exact hlong ⟨hrest.2.1, hrest.2.2.1, hrest.2.2.2.1⟩

/-- The search runs through a clean body up to the next unit. -/
theorem scan_append {body : Bytes} {nals : List Nal} (h : NoCode body (nextCode nals)) :
    scan (body ++ assemble nals) = (body ++ (scan (assemble nals)).1, (scan (assemble nals)).2) := by
  induction body with
  | nil => rfl
  | cons b body ih =>
      have hnone := codeAt_eq_none_of_noCode h
      rw [List.cons_append] at hnone ⊢
      rw [scan_of_codeAt_none hnone, ih h.tail]
      rfl

theorem scan_assemble {nals : List Nal} (h : Clean nals) : scan (assemble nals) = ([], nals) := by
  induction nals with
  | nil => simp [scan]
  | cons u nals ih =>
      obtain ⟨c, body⟩ := u
      rw [assemble_cons, List.append_assoc, scan_code, scan_append h.1, ih h.2]
      simp

/-- Whatever the search returns, it left every piece whole. -/
theorem clean_scan (bytes : Bytes) :
    NoCode (scan bytes).1 (nextCode (scan bytes).2) ∧ Clean (scan bytes).2 := by
  induction hn : bytes.length using Nat.strong_induction_on generalizing bytes with
  | _ n ih =>
      cases hcode : codeAt bytes with
      | some c =>
          obtain ⟨rest, rfl⟩ := eq_code_of_codeAt hcode
          have hlt : rest.length < n := by
            cases c <;> simp [StartCode.bytes] at hn ⊢ <;> omega
          rw [scan_code]
          exact ⟨⟨by simp, by simp⟩, ih _ hlt rest rfl⟩
      | none =>
          cases bytes with
          | nil => exact ⟨⟨by simp [scan], by simp [scan]⟩, trivial⟩
          | cons b rest =>
              obtain ⟨⟨hin, hlast⟩, hclean⟩ := ih rest.length (by simp at hn; omega) rest rfl
              have hrest := assemble_scan rest
              rw [scan_of_codeAt_none hcode]
              refine ⟨⟨fun hinfix => ?_, fun hnext hzero => ?_⟩, hclean⟩
              · rcases List.infix_cons_iff.mp hinfix with hpre | hinfix
                · obtain ⟨tail, htail⟩ := hpre
                  rw [← hrest, ← List.cons_append, ← htail] at hcode
                  simp [codeAt] at hcode
                · exact hin hinfix
              · rcases hlead : (scan rest).1 with _ | ⟨x, lead⟩
                · rw [hlead] at hzero
                  simp only [List.getLast?_singleton, Option.some.injEq] at hzero
                  rcases hnals : (scan rest).2 with _ | ⟨⟨c, body⟩, nals⟩
                  · simp [nextCode, hnals] at hnext
                  · simp only [nextCode, hnals, List.head?_cons, Option.map_some,
                      Option.some.injEq] at hnext
                    rw [← hrest, hlead, hnals, hnext, hzero] at hcode
                    simp [codeAt, StartCode.bytes] at hcode
                · rw [hlead] at hzero hlast
                  exact hlast hnext (by simpa using hzero)

end CausalFrontierRatchet.StartCodes
