import Mathlib.Algebra.GroupWithZero.Nat
import Mathlib.Data.List.Basic

/-!
Sequences cut into alternating runs.  A run list `[(c₁, s₁), (c₂, s₂), …]` cuts a sequence into
`c₁` kept items, `s₁` held items, `c₂` kept items and so on.  `kept` and `held` concatenate the two
kinds of run, and `refill` puts other items in the places of the held ones.  The laws say that the
three operations determine each other, which is what an in-place transformation of part of a
sequence rests on.
-/

namespace CausalFrontierRatchet.AlternatingRuns

/-- Lengths of alternating runs: kept items, then held items. -/
abbrev Runs := List (ℕ × ℕ)

variable {α : Type*}

/-- How many items the runs cover. -/
def total (rs : Runs) : ℕ :=
  (rs.map fun r => r.1 + r.2).sum

/-- How many items the held runs cover. -/
def heldTotal (rs : Runs) : ℕ :=
  (rs.map Prod.snd).sum

/-- The kept runs of a sequence, concatenated. -/
def kept : Runs → List α → List α
  | [], _ => []
  | (c, s) :: rs, xs => xs.take c ++ kept rs (xs.drop (c + s))

/-- The held runs of a sequence, concatenated. -/
def held : Runs → List α → List α
  | [], _ => []
  | (c, s) :: rs, xs => (xs.drop c).take s ++ held rs (xs.drop (c + s))

/-- The sequence with its held runs replaced, in order, by the items of `ys`. -/
def refill : Runs → List α → List α → List α
  | [], xs, _ => xs
  | (c, s) :: rs, xs, ys => xs.take c ++ ys.take s ++ refill rs (xs.drop (c + s)) (ys.drop s)

@[simp] theorem total_nil : total [] = 0 := rfl

@[simp] theorem total_cons (r : ℕ × ℕ) (rs : Runs) : total (r :: rs) = r.1 + r.2 + total rs := by
  simp [total]

@[simp] theorem heldTotal_nil : heldTotal [] = 0 := rfl

@[simp] theorem heldTotal_cons (r : ℕ × ℕ) (rs : Runs) :
    heldTotal (r :: rs) = r.2 + heldTotal rs := by
  simp [heldTotal]

theorem kept_length (rs : Runs) (xs : List α) (h : xs.length = total rs) :
    (kept rs xs).length + heldTotal rs = total rs := by
  induction rs generalizing xs with
  | nil => simp [kept]
  | cons r rs ih =>
      obtain ⟨c, s⟩ := r
      have hrest := ih (xs.drop (c + s)) (by simp at h ⊢; omega)
      simp only [kept, List.length_append, List.length_take, total_cons, heldTotal_cons] at h ⊢
      omega

theorem held_length (rs : Runs) (xs : List α) (h : xs.length = total rs) :
    (held rs xs).length = heldTotal rs := by
  induction rs generalizing xs with
  | nil => simp [held]
  | cons r rs ih =>
      obtain ⟨c, s⟩ := r
      have hrest := ih (xs.drop (c + s)) (by simp at h ⊢; omega)
      simp only [held, List.length_append, List.length_take, List.length_drop, total_cons,
        heldTotal_cons] at h ⊢
      omega

theorem refill_length (rs : Runs) (xs ys : List α) (hx : xs.length = total rs)
    (hy : ys.length = heldTotal rs) : (refill rs xs ys).length = total rs := by
  induction rs generalizing xs ys with
  | nil => simpa [refill] using hx
  | cons r rs ih =>
      obtain ⟨c, s⟩ := r
      simp only [total_cons, heldTotal_cons] at hx hy
      have hrest := ih (xs.drop (c + s)) (ys.drop s) (by simp; omega) (by simp; omega)
      simp only [refill, List.length_append, List.length_take, total_cons, hrest]
      omega

/-- A block of the right lengths in front splits off the first run. -/
theorem kept_append {c s : ℕ} (rs : Runs) {xs ys : List α} (zs : List α) (hx : xs.length = c)
    (hy : ys.length = s) : kept ((c, s) :: rs) (xs ++ ys ++ zs) = xs ++ kept rs zs := by
  subst hx hy
  simp [kept, List.append_assoc]

theorem held_append {c s : ℕ} (rs : Runs) {xs ys : List α} (zs : List α) (hx : xs.length = c)
    (hy : ys.length = s) : held ((c, s) :: rs) (xs ++ ys ++ zs) = ys ++ held rs zs := by
  subst hx hy
  simp [held, List.append_assoc]

theorem kept_refill (rs : Runs) (xs ys : List α) (hx : xs.length = total rs)
    (hy : ys.length = heldTotal rs) : kept rs (refill rs xs ys) = kept rs xs := by
  induction rs generalizing xs ys with
  | nil => rfl
  | cons r rs ih =>
      obtain ⟨c, s⟩ := r
      simp only [total_cons, heldTotal_cons] at hx hy
      rw [refill, kept_append rs _ (by simp; omega) (by simp; omega), kept,
        ih _ _ (by simp; omega) (by simp; omega)]

theorem held_refill (rs : Runs) (xs ys : List α) (hx : xs.length = total rs)
    (hy : ys.length = heldTotal rs) : held rs (refill rs xs ys) = ys := by
  induction rs generalizing xs ys with
  | nil => simpa [held, eq_comm] using hy
  | cons r rs ih =>
      obtain ⟨c, s⟩ := r
      simp only [total_cons, heldTotal_cons] at hx hy
      rw [refill, held_append rs _ (by simp; omega) (by simp; omega),
        ih _ _ (by simp; omega) (by simp; omega), List.take_append_drop]

theorem refill_held (rs : Runs) (xs : List α) (hx : xs.length = total rs) :
    refill rs xs (held rs xs) = xs := by
  induction rs generalizing xs with
  | nil => rfl
  | cons r rs ih =>
      obtain ⟨c, s⟩ := r
      simp only [total_cons] at hx
      have hs : ((xs.drop c).take s).length = s := by simp; omega
      have hcut : xs.take c ++ (xs.drop c).take s ++ xs.drop (c + s) = xs := by
        rw [List.append_assoc, ← List.drop_drop, List.take_append_drop, List.take_append_drop]
      rw [refill, held, List.take_left' hs, List.drop_left' hs, ih _ (by simp; omega), hcut]

/-- What a refill keeps is all it reads of the sequence it starts from. -/
theorem refill_congr (rs : Runs) (xs ys ds : List α) (hx : xs.length = total rs)
    (hy : ys.length = total rs) (h : kept rs xs = kept rs ys) :
    refill rs xs ds = refill rs ys ds := by
  induction rs generalizing xs ys ds with
  | nil =>
      simp only [total_nil, List.length_eq_zero_iff] at hx hy
      rw [hx, hy]
  | cons r rs ih =>
      obtain ⟨c, s⟩ := r
      simp only [total_cons] at hx hy
      obtain ⟨hhead, htail⟩ := List.append_inj h (by simp; omega)
      rw [refill, refill, hhead, ih _ _ _ (by simp; omega) (by simp; omega) htail]

end CausalFrontierRatchet.AlternatingRuns
