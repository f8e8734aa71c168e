import Mathlib.Data.List.Nodup
import Std.Data.ExtTreeMap

/-!
A bounded map with an order of eviction.  Keys enter at the end of the order and leave at its front,
together with their entries.
-/

namespace CausalFrontierRatchet.Eviction

variable {κ ν : Type} [Ord κ] [Std.TransOrd κ]

/-- Drops the first keys of the order while there are more than `capacity`. -/
def evict (capacity : ℕ) : List κ → Std.ExtTreeMap κ ν → List κ × Std.ExtTreeMap κ ν
  | [], entries => ([], entries)
  | old :: order, entries =>
      if capacity < order.length + 1 then evict capacity order (entries.erase old)
      else (old :: order, entries)

variable {order : List κ} {entries : Std.ExtTreeMap κ ν} {capacity : ℕ} {k : κ}

theorem evict_order (capacity : ℕ) (order : List κ) (entries : Std.ExtTreeMap κ ν) :
    (evict capacity order entries).1 = order.drop (order.length - capacity) := by
  induction order generalizing entries with
  | nil => simp [evict]
  | cons old order ih =>
      rw [evict]
      split_ifs with hfull
      · have hlength : (old :: order).length - capacity = order.length - capacity + 1 := by
          rw [List.length_cons]
          omega
        rw [ih, hlength, List.drop_succ_cons]
      · have hlength : (old :: order).length - capacity = 0 := by
          rw [List.length_cons]
          omega
        rw [hlength, List.drop_zero]

theorem length_evict_le (capacity : ℕ) (order : List κ) (entries : Std.ExtTreeMap κ ν) :
    (evict capacity order entries).1.length ≤ capacity := by
  rw [evict_order, List.length_drop]
  omega

theorem nodup_evict (capacity : ℕ) (entries : Std.ExtTreeMap κ ν) (h : order.Nodup) :
    (evict capacity order entries).1.Nodup := by
  rw [evict_order]
  exact h.sublist (List.drop_sublist _ _)

variable [Std.LawfulEqOrd κ]

/-- A key that stays keeps its entry. -/
theorem getElem?_evict (hnodup : order.Nodup) (hk : k ∈ (evict capacity order entries).1) :
    (evict capacity order entries).2[k]? = entries[k]? := by
  induction order generalizing entries with
  | nil => rfl
  | cons old order ih =>
      obtain ⟨hold, hrest⟩ := List.nodup_cons.mp hnodup
      rw [evict] at hk ⊢
      split_ifs with hfull
      · rw [if_pos hfull] at hk
        have hmem : k ∈ order := by
          rw [evict_order] at hk
          exact List.mem_of_mem_drop hk
        rw [ih hrest hk, Std.ExtTreeMap.getElem?_erase, if_neg]
        rw [Std.compare_eq_iff_eq]
        rintro rfl
        exact hold hmem
      · rfl

/-- The order keeps listing the keys of the map. -/
theorem mem_evict (hnodup : order.Nodup) (hkeys : ∀ k, k ∈ entries ↔ k ∈ order) (k : κ) :
    k ∈ (evict capacity order entries).2 ↔ k ∈ (evict capacity order entries).1 := by
  induction order generalizing entries with
  | nil => exact hkeys k
  | cons old order ih =>
      obtain ⟨hold, hrest⟩ := List.nodup_cons.mp hnodup
      rw [evict]
      split_ifs with hfull
      · apply ih hrest
        intro k
        rw [Std.ExtTreeMap.mem_erase, hkeys, List.mem_cons, ne_eq, Std.compare_eq_iff_eq]
        constructor
        · intro h
          exact h.2.resolve_left fun heq => h.1 heq.symm
        · intro hk
          exact ⟨fun heq => hold (heq ▸ hk), Or.inr hk⟩
      · exact hkeys k

end CausalFrontierRatchet.Eviction
