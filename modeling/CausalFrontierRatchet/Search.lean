import Mathlib.Algebra.BigOperators.Group.List.Basic
import Mathlib.Algebra.GroupWithZero.Nat
import Mathlib.Data.List.Nodup
import Mathlib.Logic.Relation
import Std.Data.ExtTreeSet

/-!
Depth-first search over a finite graph given by its successor lists.  The stack holds what is still
to be visited, the set what has been visited; every visit pushes the successors of a new node.  With
one unit of fuel for each entry of the stack and each edge out of an unvisited node, the search
returns exactly what can be reached from the stack.
-/

namespace CausalFrontierRatchet.Search

open Relation

variable {α : Type*} [Ord α] [Std.TransOrd α] [Std.LawfulEqOrd α]

/-- Visits what the stack holds, the top first. -/
def search (next : α → List α) : ℕ → List α → Std.ExtTreeSet α → Std.ExtTreeSet α
  | 0, _, seen => seen
  | _ + 1, [], seen => seen
  | fuel + 1, cur :: stack, seen =>
      if cur ∈ seen then search next fuel stack seen
      else search next fuel ((next cur).reverse ++ stack) (seen.insert cur)

/-- One edge of the graph, from a node to its successor. -/
def Edge (next : α → List α) (a b : α) : Prop :=
  b ∈ next a

variable {next : α → List α}

theorem seen_subset_search {fuel : ℕ} {stack : List α} {seen : Std.ExtTreeSet α} {a : α}
    (h : a ∈ seen) : a ∈ search next fuel stack seen := by
  fun_induction search next fuel stack seen with
  | case1 | case2 => exact h
  | case3 fuel cur stack seen hcur ih => exact ih h
  | case4 fuel cur stack seen hcur ih => exact ih (by simp [h])

theorem reachable_of_mem_search {fuel : ℕ} {stack : List α} {seen : Std.ExtTreeSet α} {a : α}
    (h : a ∈ search next fuel stack seen) :
    a ∈ seen ∨ ∃ s ∈ stack, ReflTransGen (Edge next) s a := by
  fun_induction search next fuel stack seen with
  | case1 | case2 => exact Or.inl h
  | case3 fuel cur stack seen hcur ih =>
      rcases ih h with hseen | ⟨s, hs, hreach⟩
      · exact Or.inl hseen
      · exact Or.inr ⟨s, List.mem_cons_of_mem _ hs, hreach⟩
  | case4 fuel cur stack seen hcur ih =>
      rcases ih h with hseen | ⟨s, hs, hreach⟩
      · rcases (by simpa using hseen : cur = a ∨ a ∈ seen) with rfl | hseen
        · exact Or.inr ⟨cur, List.mem_cons_self, ReflTransGen.refl⟩
        · exact Or.inl hseen
      · rcases List.mem_append.mp hs with hnext | hstack
        · exact Or.inr ⟨cur, List.mem_cons_self,
            ReflTransGen.head (List.mem_reverse.mp hnext) hreach⟩
        · exact Or.inr ⟨s, List.mem_cons_of_mem _ hstack, hreach⟩

/-- The edges that leave unvisited nodes. -/
def unvisited (next : α → List α) (nodes : List α) (seen : Std.ExtTreeSet α) : ℕ :=
  (nodes.map fun a => if a ∈ seen then 0 else (next a).length).sum

theorem unvisited_insert {nodes : List α} (hnodup : nodes.Nodup) {seen : Std.ExtTreeSet α} {cur : α}
    (hcur : cur ∉ seen) (hout : next cur ≠ [] → cur ∈ nodes) :
    unvisited next nodes (seen.insert cur) + (next cur).length = unvisited next nodes seen := by
  have habsent : ∀ nodes : List α, cur ∉ nodes →
      unvisited next nodes (seen.insert cur) = unvisited next nodes seen := by
    intro nodes hnot
    refine congrArg List.sum (List.map_congr_left fun a ha => ?_)
    have hne : cur ≠ a := fun heq => hnot (heq ▸ ha)
    simp [hne]
  by_cases hmem : cur ∈ nodes
  · clear hout
    induction nodes with
    | nil => simp at hmem
    | cons a nodes ih =>
        obtain ⟨hnot, hrest⟩ := List.nodup_cons.mp hnodup
        rcases List.mem_cons.mp hmem with rfl | htail
        · have hsame := habsent nodes hnot
          simp only [unvisited, List.map_cons, List.sum_cons] at hsame ⊢
          rw [hsame]
          simp [hcur]
          omega
        · have hne : cur ≠ a := fun heq => hnot (heq ▸ htail)
          have htotal := ih hrest htail
          simp only [unvisited, List.map_cons, List.sum_cons] at htotal ⊢
          simp only [Std.ExtTreeSet.mem_insert, Std.compare_eq_iff_eq, hne, false_or] at htotal ⊢
          omega
  · rw [habsent nodes hmem, not_imp_comm.mp hout hmem, List.length_nil, Nat.add_zero]

/-- Nothing that the stack still has to cover is lost. -/
theorem mem_search {nodes : List α} (hnodup : nodes.Nodup) (hout : ∀ a, next a ≠ [] → a ∈ nodes)
    {fuel : ℕ} {stack : List α} {seen : Std.ExtTreeSet α}
    (hfuel : stack.length + unvisited next nodes seen ≤ fuel)
    (hclosed : ∀ a ∈ seen, ∀ b ∈ next a, b ∈ seen ∨ b ∈ stack) {s a : α}
    (hs : s ∈ seen ∨ s ∈ stack) (hreach : ReflTransGen (Edge next) s a) :
    a ∈ search next fuel stack seen := by
  fun_induction search next fuel stack seen with
  | case1 stack seen =>
      have hempty : stack = [] := List.length_eq_zero_iff.mp (by omega)
      subst hempty
      induction hreach with
      | refl => simpa using hs
      | tail _ hedge ih => simpa using hclosed _ ih _ hedge
  | case2 fuel seen =>
      induction hreach with
      | refl => simpa using hs
      | tail _ hedge ih => simpa using hclosed _ ih _ hedge
  | case3 fuel cur stack seen hcur ih =>
      have hdrop : ∀ b, b ∈ seen ∨ b ∈ cur :: stack → b ∈ seen ∨ b ∈ stack := by
        intro b hb
        rcases hb with hseen | hstack
        · exact Or.inl hseen
        · rcases List.mem_cons.mp hstack with rfl | hstack
          · exact Or.inl hcur
          · exact Or.inr hstack
      rw [List.length_cons] at hfuel
      exact ih (by omega) (fun a ha b hb => hdrop b (hclosed a ha b hb)) (hdrop s hs)
  | case4 fuel cur stack seen hcur ih =>
      have hspent := unvisited_insert hnodup hcur (hout cur)
      have hmove : ∀ b, b ∈ seen ∨ b ∈ cur :: stack →
          b ∈ seen.insert cur ∨ b ∈ (next cur).reverse ++ stack := by
        intro b hb
        rcases hb with hseen | hstack
        · exact Or.inl (by simp [hseen])
        · rcases List.mem_cons.mp hstack with rfl | hstack
          · exact Or.inl (by simp)
          · exact Or.inr (List.mem_append_right _ hstack)
      refine ih ?_ ?_ (hmove s hs)
      · simp only [List.length_append, List.length_reverse, List.length_cons] at hfuel ⊢
        omega
      · intro b hb c hc
        rcases (by simpa using hb : cur = b ∨ b ∈ seen) with rfl | hseen
        · exact Or.inr (List.mem_append_left _ (List.mem_reverse.mpr hc))
        · exact hmove c (hclosed b hseen c hc)

/-- A search that starts with nothing visited and enough fuel returns what the stack reaches. -/
theorem mem_search_iff {nodes : List α} (hnodup : nodes.Nodup)
    (hout : ∀ a, next a ≠ [] → a ∈ nodes) {fuel : ℕ} {stack : List α}
    (hfuel : stack.length + (nodes.map fun a => (next a).length).sum ≤ fuel) {a : α} :
    a ∈ search next fuel stack ∅ ↔ ∃ s ∈ stack, ReflTransGen (Edge next) s a := by
  constructor
  · intro h
    simpa using reachable_of_mem_search h
  · rintro ⟨s, hs, hreach⟩
    refine mem_search hnodup hout ?_ (by simp) (Or.inr hs) hreach
    simpa [unvisited] using hfuel

end CausalFrontierRatchet.Search
