import Mathlib.Data.List.Induction
import Mathlib.Data.List.Nodup

/-!
Distinct values in the order of their last occurrence, the most recent one first.
-/

namespace CausalFrontierRatchet.Recency

variable {α : Type} [DecidableEq α]

/-- Puts a value in front. -/
def remember (known : List α) (a : α) : List α :=
  a :: known.filter (· ≠ a)

/-- The distinct values of a sequence, the last ones first. -/
def recents (values : List α) : List α :=
  values.foldl remember []

variable {known values : List α} {a b : α} {n : ℕ}

theorem mem_remember : b ∈ remember known a ↔ b = a ∨ b ∈ known := by
  rw [remember, List.mem_cons, List.mem_filter]
  by_cases h : b = a <;> simp [h]

theorem nodup_remember (h : known.Nodup) : (remember known a).Nodup := by
  rw [remember, List.nodup_cons]
  exact ⟨by simp, h.filter _⟩

theorem recents_append (values : List α) (a : α) :
    recents (values ++ [a]) = remember (recents values) a := by
  rw [recents, List.foldl_append]
  rfl

theorem nodup_recents (values : List α) : (recents values).Nodup := by
  induction values using List.reverseRecOn with
  | nil => exact List.nodup_nil
  | append_singleton values a ih =>
      rw [recents_append]
      exact nodup_remember ih

theorem mem_recents : a ∈ recents values ↔ a ∈ values := by
  induction values using List.reverseRecOn with
  | nil => rfl
  | append_singleton values b ih =>
      rw [recents_append, mem_remember, ih, List.mem_append, List.mem_singleton, or_comm]

theorem length_recents_le (values : List α) : (recents values).length ≤ values.length := by
  induction values using List.reverseRecOn with
  | nil => exact Nat.le_refl 0
  | append_singleton values a ih =>
      rw [recents_append, remember, List.length_cons, List.length_append]
      exact Nat.succ_le_succ (Nat.le_trans (List.length_filter_le _ _) ih)

/-- A value that is not among the first ones moves them all back by one place. -/
theorem take_remember_of_not_mem (h : a ∉ known.take n) :
    (remember known a).take (n + 1) = a :: known.take n := by
  have hkept : (known.take n).filter (· ≠ a) = known.take n := by
    rw [List.filter_eq_self]
    intro b hb
    rw [decide_eq_true_eq]
    rintro rfl
    exact h hb
  rw [remember, List.take_succ_cons]
  congr 1
  conv_lhs => rw [← List.take_append_drop n known, List.filter_append, hkept]
  rcases Nat.lt_or_ge known.length n with hshort | hlong
  · rw [List.drop_of_length_le (Nat.le_of_lt hshort), List.filter_nil, List.append_nil,
      List.take_take, Nat.min_self]
  · have hlength : (known.take n).length = n := by rw [List.length_take, Nat.min_eq_left hlong]
    rw [List.take_append_of_le_length (Nat.le_of_eq hlength.symm), List.take_take, Nat.min_self]

/-- Without a value among them, there are as many fewer of the first ones. -/
theorem mem_take_filter (hnodup : known.Nodup) (h : a ∈ known.take (n + 1)) :
    b ∈ (known.filter (· ≠ a)).take n ↔ b ∈ known.take (n + 1) ∧ b ≠ a := by
  induction known generalizing n with
  | nil => cases h
  | cons c rest ih =>
      obtain ⟨hnew, hrest⟩ := List.nodup_cons.mp hnodup
      rw [List.take_succ_cons] at h ⊢
      by_cases hc : c = a
      · subst hc
        have hkept : (c :: rest).filter (· ≠ c) = rest := by
          rw [List.filter_cons_of_neg (by simp), List.filter_eq_self]
          intro b hb
          rw [decide_eq_true_eq]
          rintro rfl
          exact hnew hb
        rw [hkept, List.mem_cons]
        constructor
        · intro hb
          refine ⟨Or.inr hb, ?_⟩
          rintro rfl
          exact hnew (List.mem_of_mem_take hb)
        · exact fun hb => hb.1.resolve_left hb.2
      · have ha : a ∈ rest.take n := (List.mem_cons.mp h).resolve_left fun heq => hc heq.symm
        cases n with
        | zero => cases ha
        | succ n =>
            rw [List.filter_cons_of_pos (by simpa using hc), List.take_succ_cons, List.mem_cons,
              List.mem_cons, ih hrest ha]
            constructor
            · rintro (rfl | hb)
              · exact ⟨Or.inl rfl, hc⟩
              · exact ⟨Or.inr hb.1, hb.2⟩
            · exact fun hb => hb.1.imp_right fun hin => ⟨hin, hb.2⟩

/-- A value that is among the first ones stays so, and so do the others. -/
theorem mem_take_remember_of_mem (hnodup : known.Nodup) (h : a ∈ known.take n) :
    b ∈ (remember known a).take n ↔ b ∈ known.take n := by
  cases n with
  | zero => cases h
  | succ n =>
      rw [remember, List.take_succ_cons, List.mem_cons, mem_take_filter hnodup h]
      constructor
      · rintro (rfl | hb)
        · exact h
        · exact hb.1
      · intro hb
        by_cases heq : b = a
        · exact Or.inl heq
        · exact Or.inr ⟨hb, heq⟩

/-- Without a value, the first ones are among one more of the first ones. -/
theorem take_filter_ne (hnodup : known.Nodup) (a : α) (n : ℕ) :
    (known.filter (· ≠ a)).take n = ((known.take (n + 1)).filter (· ≠ a)).take n := by
  induction known generalizing n with
  | nil => rfl
  | cons c rest ih =>
      obtain ⟨hnew, hrest⟩ := List.nodup_cons.mp hnodup
      by_cases hc : c = a
      · subst hc
        have hkept : ∀ xs : List α, c ∉ xs → xs.filter (· ≠ c) = xs := by
          intro xs hxs
          rw [List.filter_eq_self]
          intro b hb
          rw [decide_eq_true_eq]
          rintro rfl
          exact hxs hb
        rw [List.take_succ_cons, List.filter_cons_of_neg (by simp),
          List.filter_cons_of_neg (by simp), hkept rest hnew,
          hkept _ fun h => hnew (List.mem_of_mem_take h), List.take_take, Nat.min_self]
      · cases n with
        | zero => rfl
        | succ n =>
            rw [List.take_succ_cons, List.filter_cons_of_pos (by simpa using hc),
              List.filter_cons_of_pos (by simpa using hc), List.take_succ_cons,
              List.take_succ_cons, ih hrest n]

/-- The first ones after a value is put in front depend on the first ones before. -/
theorem take_remember (hnodup : known.Nodup) (a : α) (n : ℕ) :
    (remember known a).take n = (remember (known.take n) a).take n := by
  cases n with
  | zero => rfl
  | succ n =>
      rw [remember, remember, List.take_succ_cons, List.take_succ_cons, take_filter_ne hnodup]

/-- Between two occurrences of a value there are `n` other values. -/
def Spaced (n : ℕ) (values : List α) : Prop :=
  ∀ before a between after, values = before ++ a :: between ++ a :: after →
    ∃ others : List α, others.Nodup ∧ others.length = n ∧ ∀ b ∈ others, b ≠ a ∧ b ∈ between

/-- The first ones, without a value, have come after it. -/
theorem mem_later (before later : List α) (h : a ∉ (recents (before ++ a :: later)).take n)
    (hb : b ∈ (recents (before ++ a :: later)).take n) : b ∈ later := by
  induction later using List.reverseRecOn generalizing n with
  | nil =>
      rw [recents_append, remember] at h hb
      cases n with
      | zero => cases hb
      | succ n => exact absurd List.mem_cons_self h
  | append_singleton later c ih =>
      rw [← List.cons_append, ← List.append_assoc, recents_append] at h hb
      rw [List.mem_append, List.mem_singleton]
      by_cases hc : c ∈ (recents (before ++ a :: later)).take n
      · rw [mem_take_remember_of_mem (nodup_recents _) hc] at h hb
        exact .inl (ih h hb)
      · cases n with
        | zero => cases hb
        | succ n =>
            have hc' : c ∉ (recents (before ++ a :: later)).take n :=
              fun hmem => hc (List.take_subset_take_left _ n.le_succ hmem)
            rw [take_remember_of_not_mem hc', List.mem_cons] at h hb
            rw [not_or] at h
            exact hb.symm.imp_left (ih h.2)

theorem Spaced.append (h : Spaced n values) (hnew : a ∉ (recents values).take n) :
    Spaced n (values ++ [a]) := by
  intro before x between after heq
  rcases List.eq_nil_or_concat after with rfl | ⟨after, y, rfl⟩
  · obtain ⟨rfl, hlast⟩ := List.append_inj' heq rfl
    cases hlast
    refine ⟨_, (nodup_recents _).sublist (List.take_sublist n _), ?_,
      fun b hb => ⟨ne_of_mem_of_not_mem hb hnew, mem_later before between hnew hb⟩⟩
    rw [List.length_take, Nat.min_eq_left]
    by_contra hshort
    rw [List.take_of_length_le (by omega), mem_recents] at hnew
    simp at hnew
  · rw [List.concat_eq_append, ← List.cons_append, ← List.append_assoc] at heq
    exact h before x between after (List.append_inj' heq rfl).1

/-- A queue that keeps its last `n` values, the newest at the end, read backwards: a value that is
moved to the end is put in front. -/
theorem reverse_drop_move {queue : List α} (hnodup : queue.Nodup) (a : α) (n : ℕ) :
    ((queue.erase a ++ [a]).drop ((queue.erase a ++ [a]).length - n)).reverse =
      (remember queue.reverse a).take n := by
  have herase : (queue.erase a).reverse = queue.reverse.filter (· ≠ a) := by
    rw [hnodup.erase_eq_filter, ← List.filter_reverse]
    apply List.filter_congr
    intro b _
    by_cases hb : b = a <;> simp [hb]
  rw [← List.take_reverse, List.reverse_append, List.reverse_singleton, List.singleton_append,
    herase]
  rfl

end CausalFrontierRatchet.Recency
