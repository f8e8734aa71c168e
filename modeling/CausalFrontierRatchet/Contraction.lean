import Mathlib.Data.Set.Basic
import Mathlib.Logic.Relation

/-!
Contraction of a relation.  Leaving out elements and joining what remains by the paths that bypass
them keeps the transitive order of the remaining elements.
-/

namespace CausalFrontierRatchet.Contraction

open Relation

variable {α : Type*}

/-- A path all of whose inner elements are left out. -/
inductive Bypass (r : α → α → Prop) (kept : Set α) : α → α → Prop
  | edge {a b : α} (h : r a b) : Bypass r kept a b
  | past {a b c : α} (h : r a b) (hb : b ∉ kept) (hbc : Bypass r kept b c) : Bypass r kept a c

/-- What remains of the relation. -/
def Contracted (r : α → α → Prop) (kept : Set α) (a b : α) : Prop :=
  a ∈ kept ∧ b ∈ kept ∧ Bypass r kept a b

variable {r : α → α → Prop} {kept : Set α} {a b c : α}

theorem Bypass.transGen (h : Bypass r kept a b) : TransGen r a b := by
  induction h with
  | edge h => exact .single h
  | past h _ _ ih => exact .head h ih

theorem bypass_iff : Bypass r kept a b ↔
    ∃ c, r c b ∧ ReflTransGen (fun x y => r x y ∧ y ∉ kept) a c := by
  constructor
  · intro h
    induction h with
    | @edge a b h => exact ⟨a, h, .refl⟩
    | past h hb _ ih =>
        obtain ⟨d, hd, hpath⟩ := ih
        exact ⟨d, hd, .head ⟨h, hb⟩ hpath⟩
  · rintro ⟨c, hc, hpath⟩
    induction hpath using ReflTransGen.head_induction_on with
    | refl => exact .edge hc
    | head h _ ih => exact .past h.1 h.2 ih

/-- A path that starts at a remaining element stays in the contracted relation up to the last
remaining element on it. -/
theorem exists_last_kept (ha : a ∈ kept) (h : TransGen r a b) :
    ∃ c ∈ kept, ReflTransGen (Contracted r kept) a c ∧ Bypass r kept c b := by
  induction h with
  | single h => exact ⟨a, ha, .refl, .edge h⟩
  | @tail b b' _ hedge ih =>
      obtain ⟨c, hc, hpath, hbypass⟩ := ih
      by_cases hb : b ∈ kept
      · exact ⟨b, hb, hpath.tail ⟨hc, hb, hbypass⟩, .edge hedge⟩
      · refine ⟨c, hc, hpath, ?_⟩
        obtain ⟨d, hd, hinner⟩ := bypass_iff.mp hbypass
        exact bypass_iff.mpr ⟨b, hedge, hinner.tail ⟨hd, hb⟩⟩

theorem transGen_contracted (ha : a ∈ kept) (hb : b ∈ kept) :
    TransGen (Contracted r kept) a b ↔ TransGen r a b := by
  constructor
  · intro h
    induction h with
    | single h => exact h.2.2.transGen
    | tail _ h ih => exact (ih h.1).trans h.2.2.transGen
  · intro h
    obtain ⟨c, hc, hpath, hbypass⟩ := exists_last_kept ha h
    exact .tail' hpath ⟨hc, hb, hbypass⟩

end CausalFrontierRatchet.Contraction
