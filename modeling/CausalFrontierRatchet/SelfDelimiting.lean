import CausalFrontierRatchet.AlternatingRuns

/-!
Sequences of units that announce their own extent.  A head function reads, from the items that
remain, the width of a unit's prefix and the length of its body.  When the head depends on no more
than the prefix it announces and on how many items remain, the split is a function of the prefixes:
replacing the bodies leaves it alone, and two sequences of one length whose kept runs concatenate to
the same items are split alike.
-/

namespace CausalFrontierRatchet.SelfDelimiting

open AlternatingRuns

variable {α : Type*}

/-- The prefix widths and body lengths of the units, in order. -/
def split (head : List α → Option (ℕ × ℕ)) : ℕ → List α → Option Runs
  | 0, _ => some []
  | fuel + 1, xs =>
      if xs.isEmpty then some []
      else do
        let (w, n) ← head xs
        if xs.length < w + n then none
        else
          let us ← split head fuel (xs.drop (w + n))
          some ((w, n) :: us)

/-- A head function that reads a non-empty prefix and nothing behind it but the length. -/
structure LocalHead (head : List α → Option (ℕ × ℕ)) : Prop where
  pos : ∀ {xs w n}, head xs = some (w, n) → 0 < w
  congr : ∀ {xs ys w n}, head xs = some (w, n) → w ≤ xs.length → ys.length = xs.length →
    ys.take w = xs.take w → head ys = some (w, n)

/-- The runs when, besides the prefix, up to `h` items of each body are kept as well. -/
def unitRuns (h : ℕ) (us : Runs) : Runs :=
  us.map fun u => (u.1 + min h u.2, u.2 - min h u.2)

@[simp] theorem unitRuns_nil (h : ℕ) : unitRuns h [] = [] := rfl

@[simp] theorem unitRuns_cons (h w n : ℕ) (us : Runs) :
    unitRuns h ((w, n) :: us) = (w + min h n, n - min h n) :: unitRuns h us := rfl

@[simp] theorem total_unitRuns (h : ℕ) (us : Runs) : total (unitRuns h us) = total us := by
  induction us with
  | nil => rfl
  | cons u us ih =>
      obtain ⟨w, n⟩ := u
      simp only [unitRuns_cons, total_cons, ih]
      omega

/-- The first unit contributes its prefix and the kept part of its body. -/
theorem kept_unitRuns_cons (h : ℕ) {w n : ℕ} (us : Runs) {xs ys : List α} (zs : List α)
    (hx : xs.length = w) (hy : ys.length = n) :
    kept (unitRuns h ((w, n) :: us)) (xs ++ ys ++ zs) = xs ++ ys.take h ++ kept (unitRuns h us) zs := by
  subst hx hy
  have hmin : ys.take h = ys.take (min h ys.length) := by
    rcases Nat.le_total h ys.length with hle | hle
    · rw [Nat.min_eq_left hle]
    · rw [Nat.min_eq_right hle, List.take_length, List.take_of_length_le hle]
  have hcut : xs ++ ys ++ zs =
      (xs ++ ys.take (min h ys.length)) ++ ys.drop (min h ys.length) ++ zs := by
    rw [List.append_assoc xs (ys.take _) (ys.drop _), List.take_append_drop]
  rw [unitRuns_cons, hmin, hcut, kept_append _ _ (by simp) (by simp)]

variable {head : List α → Option (ℕ × ℕ)}

/-- What a successful round of the split did. -/
theorem split_succ {fuel : ℕ} {xs : List α} {us : Runs} (hxs : xs ≠ [])
    (hsplit : split head (fuel + 1) xs = some us) :
    ∃ w n vs, head xs = some (w, n) ∧ w + n ≤ xs.length ∧
      split head fuel (xs.drop (w + n)) = some vs ∧ us = (w, n) :: vs := by
  have hempty : xs.isEmpty = false := by simpa using hxs
  simp only [split, hempty, Bool.false_eq_true, if_false, Option.bind_eq_bind,
    Option.bind_eq_some_iff] at hsplit
  obtain ⟨⟨w, n⟩, hhead, hrest⟩ := hsplit
  split at hrest
  · cases hrest
  · rename_i hfits
    obtain ⟨vs, hvs, hus⟩ := Option.bind_eq_some_iff.mp hrest
    exact ⟨w, n, vs, hhead, by omega, hvs, (Option.some.inj hus).symm⟩

@[simp] theorem split_nil (fuel : ℕ) : split head fuel [] = some [] := by
  cases fuel <;> simp [split]

/-- With a round for each item left the split covers the whole sequence. -/
theorem split_total (hl : LocalHead head) {fuel : ℕ} {xs : List α} {us : Runs}
    (hfuel : xs.length ≤ fuel) (hsplit : split head fuel xs = some us) : total us = xs.length := by
  induction fuel generalizing xs us with
  | zero =>
      obtain rfl : xs = [] := List.eq_nil_of_length_eq_zero (by omega)
      cases hsplit
      rfl
  | succ fuel ih =>
      by_cases hxs : xs = []
      · subst hxs
        simp only [split_nil, Option.some.injEq] at hsplit
        simp [← hsplit]
      · obtain ⟨w, n, vs, hhead, hfits, hvs, rfl⟩ := split_succ hxs hsplit
        have hw := hl.pos hhead
        have hrest := ih (by simp; omega) hvs
        simp only [total_cons, hrest, List.length_drop]
        omega

/-- Every unit has a prefix. -/
theorem split_width (hl : LocalHead head) {fuel : ℕ} {xs : List α} {us : Runs}
    (hsplit : split head fuel xs = some us) : ∀ u ∈ us, 0 < u.1 := by
  induction fuel generalizing xs us with
  | zero =>
      cases hsplit
      simp
  | succ fuel ih =>
      by_cases hxs : xs = []
      · subst hxs
        simp only [split_nil, Option.some.injEq] at hsplit
        simp [← hsplit]
      · obtain ⟨w, n, vs, hhead, -, hvs, rfl⟩ := split_succ hxs hsplit
        intro u hu
        rcases List.mem_cons.mp hu with rfl | hu
        · exact hl.pos hhead
        · exact ih hvs u hu

/-- Keeping more than the prefixes determines the prefixes. -/
theorem kept_of_kept_unitRuns (h : ℕ) (us : Runs) {xs ys : List α} (hx : xs.length = total us)
    (hy : ys.length = total us) (hk : kept (unitRuns h us) xs = kept (unitRuns h us) ys) :
    kept us xs = kept us ys := by
  induction us generalizing xs ys with
  | nil => rfl
  | cons u us ih =>
      obtain ⟨w, n⟩ := u
      simp only [total_cons] at hx hy
      have hadd : w + min h n + (n - min h n) = w + n := by omega
      simp only [unitRuns_cons, kept, hadd] at hk
      obtain ⟨hhead, htail⟩ := List.append_inj hk (by simp; omega)
      have hw : xs.take w = ys.take w := by
        simpa [List.take_take] using congrArg (List.take w) hhead
      rw [kept, kept, hw, ih (by simp; omega) (by simp; omega) htail]

/-- Replacing bodies does not move a split. -/
theorem split_congr (hl : LocalHead head) {fuel : ℕ} {xs ys : List α} {us : Runs}
    (hfuel : xs.length ≤ fuel) (hsplit : split head fuel xs = some us)
    (hlen : ys.length = xs.length) (hk : kept us ys = kept us xs) : split head fuel ys = some us := by
  induction fuel generalizing xs ys us with
  | zero => simpa [split] using hsplit
  | succ fuel ih =>
      by_cases hxs : xs = []
      · subst hxs
        obtain rfl : ys = [] := List.eq_nil_of_length_eq_zero hlen
        exact hsplit
      · obtain ⟨w, n, vs, hhead, hfits, hvs, rfl⟩ := split_succ hxs hsplit
        have hw := hl.pos hhead
        obtain ⟨htake, hrest⟩ := List.append_inj hk (by simp; omega)
        have hys : ys.isEmpty = false := by
          cases ys with
          | nil => simp at hlen; omega
          | cons => rfl
        have hhead' := hl.congr hhead (by omega) hlen htake
        have hvs' : split head fuel (ys.drop (w + n)) = some vs :=
          ih (by simp; omega) hvs (by simp; omega) hrest
        simp only [split, hys, Bool.false_eq_true, if_false, hhead', Option.bind_eq_bind,
          Option.bind_some, hvs']
        rw [if_neg (by omega)]

/-- Of two heads that agree on what the shorter prefix covers, the second is the first. -/
private theorem head_eq_of_take (hl : LocalHead head) {xs ys : List α} {w n w' n' : ℕ}
    (hx : head xs = some (w, n)) (hy : head ys = some (w', n')) (hw : w ≤ xs.length)
    (hlen : ys.length = xs.length) (htake : ys.take w = xs.take w) : (w, n) = (w', n') := by
  have := hl.congr hx hw hlen htake
  rw [hy] at this
  exact (Option.some.inj this).symm

/-- Two sequences of one length with the same kept items are split alike. -/
theorem split_unique (hl : LocalHead head) (h : ℕ) {fuel : ℕ} {xs ys : List α} {us vs : Runs}
    (hfuel : xs.length ≤ fuel) (hx : split head fuel xs = some us)
    (hy : split head fuel ys = some vs) (hlen : ys.length = xs.length)
    (hk : kept (unitRuns h us) xs = kept (unitRuns h vs) ys) : us = vs := by
  induction fuel generalizing xs ys us vs with
  | zero =>
      cases hx
      cases hy
      rfl
  | succ fuel ih =>
      by_cases hxs : xs = []
      · subst hxs
        obtain rfl : ys = [] := List.eq_nil_of_length_eq_zero hlen
        simp_all
      · have hys : ys ≠ [] := by
          rintro rfl
          exact hxs (List.eq_nil_of_length_eq_zero hlen.symm)
        obtain ⟨w, n, us', hhx, hfx, hrx, rfl⟩ := split_succ hxs hx
        obtain ⟨w', n', vs', hhy, hfy, hry, rfl⟩ := split_succ hys hy
        have hw := hl.pos hhx
        simp only [unitRuns_cons, kept] at hk
        -- Both heads are read off the same kept items, so the narrower one fixes the other.
        have hheads : (w, n) = (w', n') := by
          rcases Nat.le_total w w' with hle | hle
          · have htake := congrArg (List.take w) hk
            rw [List.take_append_of_le_length (by simp; omega),
              List.take_append_of_le_length (by simp; omega), List.take_take, List.take_take,
              Nat.min_eq_left (by omega), Nat.min_eq_left (by omega)] at htake
            exact head_eq_of_take hl hhx hhy (by omega) hlen htake.symm
          · have htake := congrArg (List.take w') hk
            rw [List.take_append_of_le_length (by simp; omega),
              List.take_append_of_le_length (by simp; omega), List.take_take, List.take_take,
              Nat.min_eq_left (by omega), Nat.min_eq_left (by omega)] at htake
            exact (head_eq_of_take hl hhy hhx (by omega) hlen.symm htake).symm
        obtain ⟨rfl, rfl⟩ := Prod.mk.inj hheads
        have hadd : w + min h n + (n - min h n) = w + n := by omega
        rw [hadd] at hk
        obtain ⟨-, htail⟩ := List.append_inj hk (by simp; omega)
        rw [ih (by simp; omega) hrx hry (by simp; omega) htail]

end CausalFrontierRatchet.SelfDelimiting
