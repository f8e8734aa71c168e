import Mathlib.Data.List.Defs

/-!
Values derived along a graph.  A node has a source and an ordered list of parents, and its value is
computed from the source and the values of the parents.  If the graph says one thing about each
node, no node has two values.
-/

namespace CausalFrontierRatchet.Derivation

variable {ι σ κ : Type} (node : ι → σ → List ι → Prop) (step : ι → σ → List κ → κ)

/-- The values that can be derived for a node. -/
inductive Derives : ι → κ → Prop
  | of {i : ι} {source : σ} {parents : List ι} (h : node i source parents) (value : ι → κ)
      (hparents : ∀ j ∈ parents, Derives j (value j)) :
      Derives i (step i source (parents.map value))

variable {node step}

/-- The graph says at most one thing about a node. -/
def Functional (node : ι → σ → List ι → Prop) : Prop :=
  ∀ i source source' parents parents', node i source parents → node i source' parents' →
    source = source' ∧ parents = parents'

theorem Derives.unique (hnode : Functional node) {i : ι} {k k' : κ} (h : Derives node step i k)
    (h' : Derives node step i k') : k = k' := by
  induction h generalizing k' with
  | @of i source parents hi value hparents ih =>
      cases h' with
      | @of _ source' parents' hi' value' hparents' =>
          obtain ⟨hsource, hlist⟩ := hnode i source source' parents parents' hi hi'
          subst hsource hlist
          have hsame : parents.map value = parents.map value' := by
            apply List.map_congr_left
            intro j hj
            exact ih j hj (hparents' j hj)
          rw [hsame]

end CausalFrontierRatchet.Derivation
