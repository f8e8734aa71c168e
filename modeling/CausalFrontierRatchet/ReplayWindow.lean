import CausalFrontierRatchet.StreamDelivery

/-!
The replay window over whole sequences of indices.  Its 64 bits stand for the accepted indices near
the highest one, so that an index is accepted exactly if it is new and not too far behind.  The
differences and shifts on the way stay within 64 bits.
-/

namespace CausalFrontierRatchet.ReplayWindow

open MediaRatchet StreamDelivery

/-! ## Arithmetic that may overflow -/

section Checked

def checkedSub (a b : UInt64) : Option UInt64 :=
  if b ≤ a then some (a - b) else none

def checkedShl (a shift : UInt64) : Option UInt64 :=
  if shift.toNat < 64 then some (a <<< shift) else none

/-- The window as the source computes it, with every subtraction and shift checked. -/
def acceptChecked (r : Replay) (index : UInt64) : Option (Option Replay) :=
  if !r.started then some (some ⟨index, 1, true⟩)
  else if r.high < index then do
    let shift ← checkedSub index r.high
    let seen ← if shift ≥ WINDOW then some 0 else checkedShl r.seen shift
    some (some { r with high := index, seen := seen ||| 1 })
  else do
    let back ← checkedSub r.high index
    if back ≥ WINDOW then some none
    else
      let bit ← checkedShl 1 back
      if r.seen &&& bit ≠ 0 then some none else some (some { r with seen := r.seen ||| bit })

theorem checkedShl_of_lt {a shift : UInt64} (h : ¬shift ≥ WINDOW) :
    checkedShl a shift = some (a <<< shift) :=
  if_pos (UInt64.lt_iff_toNat_lt.mp (UInt64.not_le.mp h))

/-- Nothing overflows. -/
theorem acceptChecked_eq (r : Replay) (index : UInt64) :
    acceptChecked r index = some (r.accept index) := by
  unfold acceptChecked Replay.accept
  by_cases hnew : (!r.started) = true
  · rw [if_pos hnew, if_pos hnew]
  · rw [if_neg hnew, if_neg hnew]
    by_cases hhigh : r.high < index
    · have hsub : checkedSub index r.high = some (index - r.high) := if_pos (UInt64.le_of_lt hhigh)
      rw [if_pos hhigh, if_pos hhigh, hsub, Option.bind_eq_bind, Option.bind_some]
      by_cases hfar : index - r.high ≥ WINDOW
      · simp only [if_pos hfar, Option.bind_some]
      · simp only [if_neg hfar, checkedShl_of_lt hfar, Option.bind_some]
    · have hsub : checkedSub r.high index = some (r.high - index) := if_pos (UInt64.not_lt.mp hhigh)
      rw [if_neg hhigh, if_neg hhigh, hsub, Option.bind_eq_bind, Option.bind_some]
      by_cases hfar : r.high - index ≥ WINDOW
      · simp only [if_pos hfar]
      · simp only [if_neg hfar, checkedShl_of_lt hfar, Option.bind_some]
        split_ifs <;> rfl

end Checked

/-! ## Sequences of indices -/

section Sequences

/-- Offers one index; the accepted ones are listed, the last first. -/
def offer (state : Replay × List UInt64) (index : UInt64) : Replay × List UInt64 :=
  match state.1.accept index with
  | some replay => (replay, index :: state.2)
  | none => state

/-- A fresh window after a sequence of indices. -/
def offerAll (indices : List UInt64) : Replay × List UInt64 :=
  indices.foldl offer (Replay.new, [])

theorem windowed_offer {state : Replay × List UInt64}
    (h : Windowed (state.2.map UInt64.toNat) state.1) (index : UInt64) :
    Windowed ((offer state index).2.map UInt64.toNat) (offer state index).1 := by
  unfold offer
  cases haccept : state.1.accept index with
  | none => exact h
  | some replay => exact h.accept haccept

theorem windowed_offerAll (indices : List UInt64) :
    Windowed ((offerAll indices).2.map UInt64.toNat) (offerAll indices).1 := by
  induction indices using List.reverseRecOn with
  | nil => exact ⟨by simp [offerAll, Replay.new], nofun, nofun⟩
  | append_singleton indices index ih =>
      rw [offerAll, List.foldl_append]
      exact windowed_offer ih index

/-- The highest index of a list. -/
def Highest (high : UInt64) (accepted : List UInt64) : Prop :=
  high ∈ accepted ∧ ∀ i ∈ accepted, i ≤ high

theorem highest_le {accepted : List ℕ} {n : ℕ} (h : ∀ c ∈ accepted, c ≤ n) :
    highest accepted ≤ n := by
  induction accepted with
  | nil => exact Nat.zero_le n
  | cons c accepted ih =>
      have hrest := ih fun c' hc' => h c' (List.mem_cons_of_mem c hc')
      exact Nat.max_le.mpr ⟨h c List.mem_cons_self, hrest⟩

theorem Highest.toNat {high : UInt64} {accepted : List UInt64} (h : Highest high accepted) :
    highest (accepted.map UInt64.toNat) = high.toNat := by
  apply Nat.le_antisymm
  · apply highest_le
    intro c hc
    obtain ⟨i, hi, rfl⟩ := List.mem_map.mp hc
    exact UInt64.le_iff_toNat_le.mp (h.2 i hi)
  · exact le_highest (List.mem_map_of_mem h.1)

theorem exists_highest (i : UInt64) (rest : List UInt64) : ∃ high, Highest high (i :: rest) := by
  induction rest generalizing i with
  | nil => exact ⟨i, List.mem_cons_self, by simp⟩
  | cons j rest ih =>
      obtain ⟨high, hmem, hall⟩ := ih j
      by_cases hle : i ≤ high
      · exact ⟨high, List.mem_cons_of_mem i hmem, List.forall_mem_cons.mpr ⟨hle, hall⟩⟩
      · have hlt : high ≤ i := UInt64.le_of_lt (UInt64.not_le.mp hle)
        refine ⟨i, List.mem_cons_self, List.forall_mem_cons.mpr ⟨UInt64.le_refl i, ?_⟩⟩
        exact fun k hk => UInt64.le_trans (hall k hk) hlt

/-- The index is the first, above the highest accepted one, or less than 64 below it. -/
def InWindow (accepted : List UInt64) (index : UInt64) : Prop :=
  accepted = [] ∨ ∃ high, Highest high accepted ∧
    (high < index ∨ high.toNat - index.toNat < 64)

theorem inWindow_iff (accepted : List UInt64) (index : UInt64) : InWindow accepted index ↔
    ¬index.toNat + 64 ≤ highest (accepted.map UInt64.toNat) := by
  unfold InWindow
  cases accepted with
  | nil => simp [highest]
  | cons i rest =>
      constructor
      · rintro (hnil | ⟨high, hhigh, hnear⟩)
        · cases hnil
        · rw [hhigh.toNat]
          rw [UInt64.lt_iff_toNat_lt] at hnear
          omega
      · intro hnear
        obtain ⟨high, hhigh⟩ := exists_highest i rest
        rw [hhigh.toNat] at hnear
        refine Or.inr ⟨high, hhigh, ?_⟩
        rw [UInt64.lt_iff_toNat_lt]
        omega

theorem mem_toNat {accepted : List UInt64} {index : UInt64} :
    index.toNat ∈ accepted.map UInt64.toNat ↔ index ∈ accepted := by
  rw [List.mem_map]
  constructor
  · rintro ⟨i, hi, heq⟩
    rwa [← UInt64.toNat_inj.mp heq]
  · exact fun hindex => ⟨index, hindex, rfl⟩

/-- After any sequence of indices, one more is accepted exactly if it was not accepted before and is
in the window, and nothing overflows on the way. -/
theorem replay_exact (indices : List UInt64) (index : UInt64) :
    (((offerAll indices).1.accept index).isSome ↔
      index ∉ (offerAll indices).2 ∧ InWindow (offerAll indices).2 index) ∧
    ∀ r : Replay, acceptChecked r index = some (r.accept index) := by
  refine ⟨?_, fun r => acceptChecked_eq r index⟩
  rw [inWindow_iff, ← not_or, ← mem_toNat, ← (windowed_offerAll indices).accept_none_iff,
    Option.isSome_iff_ne_none]

end Sequences

end CausalFrontierRatchet.ReplayWindow
