import Mathlib.Tactic.SplitIfs
import Std.Data.ExtTreeMap

/-!
Memoised functions.  A table is valid when every recorded value is the value of the function; a
computation that consults the function only through such a table answers as one that calls the
function, and leaves a valid table behind.
-/

namespace CausalFrontierRatchet.Memo

variable {κ ν α β : Type} [Ord κ] [Std.TransOrd κ]

/-- Computations with a table of values. -/
abbrev Tabled (κ ν : Type) [Ord κ] (α : Type) : Type :=
  StateM (Std.ExtTreeMap κ ν) α

/-- The recorded value, or the computed one, which is recorded. -/
def lookup (f : κ → ν) (key : κ) : Tabled κ ν ν := fun table =>
  match table[key]? with
  | some hit => (hit, table)
  | none => (f key, table.insert key (f key))

def Valid (f : κ → ν) (table : Std.ExtTreeMap κ ν) : Prop :=
  ∀ key value, table[key]? = some value → value = f key

/-- From every valid table the computation answers the value and leaves a valid table. -/
def Yields (f : κ → ν) (m : Tabled κ ν α) (value : α) : Prop :=
  ∀ table, Valid f table → (m table).1 = value ∧ Valid f (m table).2

variable {f : κ → ν}

theorem valid_empty : Valid f ∅ := by
  intro key value h
  rw [Std.ExtTreeMap.getElem?_empty] at h
  cases h

theorem yields_lookup [Std.LawfulEqOrd κ] (key : κ) : Yields f (lookup f key) (f key) := by
  intro table htable
  unfold lookup
  cases hhit : table[key]? with
  | some hit => exact ⟨htable key hit hhit, htable⟩
  | none =>
      refine ⟨rfl, fun k v hv => ?_⟩
      rw [Std.ExtTreeMap.getElem?_insert] at hv
      split_ifs at hv with heq
      · cases hv
        rw [Std.LawfulEqCmp.eq_of_compare heq]
      · exact htable k v hv

theorem yields_pure (a : α) : Yields f (pure a) a :=
  fun _ htable => ⟨rfl, htable⟩

theorem Yields.bind {m : Tabled κ ν α} {next : α → Tabled κ ν β} {a : α} {b : β} (h : Yields f m a)
    (hnext : Yields f (next a) b) : Yields f (m >>= next) b := by
  intro table htable
  obtain ⟨hvalue, hvalid⟩ := h table htable
  change (next (m table).1 (m table).2).1 = b ∧ Valid f (next (m table).1 (m table).2).2
  rw [hvalue]
  exact hnext _ hvalid

theorem Yields.map {m : Tabled κ ν α} {a : α} (h : Yields f m a) (g : α → β) :
    Yields f (m >>= fun x => pure (g x)) (g a) :=
  h.bind (yields_pure (g a))

theorem yields_foldlM {step : β → α → Tabled κ ν β} {pureStep : β → α → β}
    (h : ∀ b a, Yields f (step b a) (pureStep b a)) (items : List α) (b : β) :
    Yields f (items.foldlM step b) (items.foldl pureStep b) := by
  induction items generalizing b with
  | nil => exact yields_pure b
  | cons a items ih =>
      rw [List.foldlM_cons, List.foldl_cons]
      exact (h b a).bind (ih (pureStep b a))

theorem yields_anyM {test : α → Tabled κ ν Bool} {pureTest : α → Bool}
    (h : ∀ a, Yields f (test a) (pureTest a)) (items : List α) :
    Yields f (items.anyM test) (items.any pureTest) := by
  induction items with
  | nil => exact yields_pure false
  | cons a items ih =>
      rw [List.anyM, List.any_cons]
      apply (h a).bind
      cases pureTest a with
      | true => exact yields_pure true
      | false => exact ih

theorem yields_allM {test : α → Tabled κ ν Bool} {pureTest : α → Bool}
    (h : ∀ a, Yields f (test a) (pureTest a)) (items : List α) :
    Yields f (items.allM test) (items.all pureTest) := by
  induction items with
  | nil => exact yields_pure true
  | cons a items ih =>
      rw [List.allM, List.all_cons]
      apply (h a).bind
      cases pureTest a with
      | true => exact ih
      | false => exact yields_pure false

end CausalFrontierRatchet.Memo
