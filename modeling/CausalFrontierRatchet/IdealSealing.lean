import CausalFrontierRatchet.Crypto

/-!
Authenticated encryption as an ideal: a ciphertext opens to what was sealed, and under nothing but
the key, the nonce and the associated data it was sealed with.
-/

namespace CausalFrontierRatchet.IdealSealing

open BigEndian Crypto

structure IdealAead (P : Primitives) : Prop where
  opens : ∀ key n plaintext ad,
    aeadOpen P key n (aeadSeal P key n plaintext ad) ad = some plaintext
  only : ∀ key n plaintext ad key' n' ad',
    (aeadOpen P key' n' (aeadSeal P key n plaintext ad) ad').isSome → key' = key ∧ n' = n ∧ ad' = ad

/-- However a sealed text is opened, it opens to what was sealed. -/
theorem IdealAead.opened {P : Primitives} (h : IdealAead P) {key key' : Secret} {n n' : BitVec 256}
    {plaintext plaintext' ad ad' : Bytes}
    (hopen : aeadOpen P key' n' (aeadSeal P key n plaintext ad) ad' = some plaintext') :
    plaintext' = plaintext := by
  obtain ⟨rfl, rfl, rfl⟩ := h.only key n plaintext ad key' n' ad' (by rw [hopen]; rfl)
  rw [h.opens] at hopen
  exact (Option.some.inj hopen).symm

/-! ## A cipher that is ideal

It writes down in front of the plaintext what it was used with. -/

/-- The length of a byte string in unary, then the string. -/
def unary (bytes : Bytes) : Bytes :=
  List.replicate bytes.length 1 ++ 0 :: bytes

theorem unary_inj {a b : Bytes} {rest rest' : Bytes} (h : unary a ++ rest = unary b ++ rest') :
    a = b := by
  have hcount : ∀ (m n : ℕ) (xs ys : Bytes),
      List.replicate m 1 ++ 0 :: xs = List.replicate n 1 ++ 0 :: ys → m = n ∧ xs = ys := by
    intro m
    induction m with
    | zero =>
        intro n xs ys heq
        cases n with
        | zero => exact ⟨rfl, (List.cons.inj heq).2⟩
        | succ n => simp [List.replicate_succ] at heq
    | succ m ih =>
        intro n xs ys heq
        cases n with
        | zero => simp [List.replicate_succ] at heq
        | succ n =>
            rw [List.replicate_succ, List.replicate_succ, List.cons_append, List.cons_append] at heq
            obtain ⟨hlen, hrest⟩ := ih n xs ys (List.cons.inj heq).2
            exact ⟨congrArg (· + 1) hlen, hrest⟩
  unfold unary at h
  rw [List.append_assoc, List.append_assoc, List.cons_append, List.cons_append] at h
  obtain ⟨hlength, hrest⟩ := hcount _ _ _ _ h
  exact List.append_inj_left hrest hlength

/-- What the cipher was used with. -/
def usage (key : Secret) (n : BitVec 256) (ad : Bytes) : Bytes :=
  bytesOf key ++ bytesOf n ++ unary ad

theorem usage_inj {key key' : Secret} {n n' : BitVec 256} {ad ad' rest rest' : Bytes}
    (h : usage key n ad ++ rest = usage key' n' ad' ++ rest') : key = key' ∧ n = n' ∧ ad = ad' := by
  unfold usage at h
  simp only [List.append_assoc] at h
  obtain ⟨hkey, h⟩ := List.append_inj h (by simp)
  obtain ⟨hnonce, h⟩ := List.append_inj h (by simp)
  exact ⟨bytesOf_inj (by decide) hkey, bytesOf_inj (by decide) hnonce, unary_inj h⟩

def recording : Primitives :=
  { toy with
    aegisSeal := fun key n plaintext ad => (usage key n ad ++ plaintext, 0)
    aegisOpen := fun key n ciphertext _ ad =>
      if usage key n ad <+: ciphertext then some (ciphertext.drop (usage key n ad).length)
      else none }

theorem recording_ideal : IdealAead recording where
  opens key n plaintext ad := by
    rw [aeadOpen_aeadSeal]
    change (if usage key n ad <+: usage key n ad ++ plaintext then
      some ((usage key n ad ++ plaintext).drop (usage key n ad).length) else none) = _
    rw [if_pos (List.prefix_append _ _), List.drop_left]
  only key n plaintext ad key' n' ad' hopen := by
    rw [aeadOpen_aeadSeal] at hopen
    change (if usage key' n' ad' <+: usage key n ad ++ plaintext then
      some ((usage key n ad ++ plaintext).drop (usage key' n' ad').length)
      else none).isSome at hopen
    split_ifs at hopen with hprefix
    · obtain ⟨rest, hrest⟩ := hprefix
      exact usage_inj hrest
    · cases hopen

end CausalFrontierRatchet.IdealSealing
