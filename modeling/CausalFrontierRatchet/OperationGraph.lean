import CausalFrontierRatchet.Operation
import CausalFrontierRatchet.Search
import Mathlib.Algebra.Order.BigOperators.Group.List
import Mathlib.Data.Finset.Max

/-!
The causal operation graph.  Operations are stored by identifier together with the dependencies that
were known when they were inserted; the causal past of an operation is what a depth-first search
over these finds.
-/

namespace CausalFrontierRatchet.OperationGraph

open Relation Crypto Tlv Operation Search

/-- Upper bound on stored operations. -/
def MAX_OPS : ℕ := 4096

/-- A causally ordered set of operations.  `epoch` counts the insertions. -/
structure Dag where
  epoch : ℕ
  ops : Std.ExtTreeMap Oid Op
  parents : Std.ExtTreeMap Oid OidSet

namespace Dag

def new : Dag :=
  ⟨0, ∅, ∅⟩

def contains (dag : Dag) (oid : Oid) : Bool :=
  dag.ops.contains oid

def get (dag : Dag) (oid : Oid) : Option Op :=
  dag.ops[oid]?

/-- The dependencies of an operation that are stored, of the whole set if the graph holds it. -/
def known (dag : Dag) (deps : OidSet) : OidSet :=
  deps.filter fun d => dag.contains d

/-- Stores an operation with its known dependencies; a second insertion changes nothing. -/
def add (P : Primitives) (dag : Dag) (op : Op) : Except Error Oid × Dag :=
  if MAX_OPS ≤ dag.ops.size then (.error (.limitExceeded "operation graph full"), dag)
  else
    let oid := op.oid P
    if dag.contains oid then (.ok oid, dag)
    else
      (.ok oid,
        { epoch := dag.epoch + 1
          ops := dag.ops.insert oid op
          parents := dag.parents.insert oid (dag.known op.deps) })

def depsSatisfied (dag : Dag) (op : Op) : Bool :=
  op.deps.toList.all fun d => dag.contains d

/-- The recorded parents of an operation, in ascending order. -/
def parentsOf (dag : Dag) (oid : Oid) : List Oid :=
  match dag.parents[oid]? with
  | some ps => ps.toList
  | none => []

def edgeCount (dag : Dag) : ℕ :=
  (dag.parents.keys.map fun oid => (dag.parentsOf oid).length).sum

/-- The transitive causal past of an operation, without the operation itself. -/
def ancestors (dag : Dag) (oid : Oid) : OidSet :=
  let stack := (dag.parentsOf oid).reverse
  search dag.parentsOf (stack.length + dag.edgeCount) stack ∅

/-- Everything stored that a set of heads implies.  Unknown heads are ignored. -/
def causalClosure (dag : Dag) (heads : List Oid) : OidSet :=
  heads.foldl (fun known head =>
    if dag.contains head then (known.insert head) ∪ dag.ancestors head else known) ∅

/-- Whether `a` lies in the causal past of `b`. -/
def precedes (dag : Dag) (a b : Oid) : Bool :=
  a ≠ b && (dag.ancestors b).contains a

/-- The operations that no other operation depends on. -/
def heads (dag : Dag) : OidSet :=
  let referenced := dag.parents.foldl (fun referenced _ ps => referenced ∪ ps) (∅ : OidSet)
  .ofList (dag.ops.keys.filter fun oid => !referenced.contains oid)

/-- For each stored operation, how many parents have not been listed yet. -/
def indegrees (dag : Dag) : Std.ExtTreeMap Oid ℕ :=
  dag.ops.keys.foldl (fun indeg oid => indeg.insert oid (dag.parentsOf oid).length) ∅

def children (dag : Dag) : Std.ExtTreeMap Oid (List Oid) :=
  dag.parents.foldl (fun children oid ps =>
    ps.foldl (fun children p => children.insert p (children[p]?.getD [] ++ [oid])) children) ∅

/-- Counts down the children of a listed operation; those that reach zero become ready. -/
def release : List Oid → Std.ExtTreeMap Oid ℕ × List Oid → Std.ExtTreeMap Oid ℕ × List Oid
  | [], state => state
  | c :: cs, (indeg, ready) =>
      match indeg[c]? with
      | some d => release cs (indeg.insert c (d - 1), if d - 1 = 0 then c :: ready else ready)
      | none => release cs (indeg, ready)

def listReady (children : Std.ExtTreeMap Oid (List Oid)) :
    ℕ → Std.ExtTreeMap Oid ℕ → List Oid → List Oid
  | 0, _, _ => []
  | _ + 1, _, [] => []
  | fuel + 1, indeg, cur :: ready =>
      let (indeg, ready) := release (children[cur]?.getD []) (indeg, ready)
      cur :: listReady children fuel indeg ready

/-- An order in which every operation follows its dependencies. -/
def topological (dag : Dag) : List Oid :=
  let indeg := dag.indegrees
  let ready := (indeg.toList.filter fun entry => entry.2 = 0).map Prod.fst
  listReady dag.children dag.ops.size indeg ready.reverse

end Dag

/-! ## The causal order -/

section Order

variable {dag : Dag}

/-- `a` is a recorded parent of `b`. -/
def Parent (dag : Dag) (a b : Oid) : Prop :=
  a ∈ dag.parentsOf b

/-- `a` lies strictly in the causal past of `b`. -/
def Before (dag : Dag) : Oid → Oid → Prop :=
  TransGen (Parent dag)

theorem mem_parentsOf {a b : Oid} :
    a ∈ dag.parentsOf b ↔ ∃ ps, dag.parents[b]? = some ps ∧ a ∈ ps := by
  unfold Dag.parentsOf
  cases hb : dag.parents[b]? with
  | none => simp
  | some ps => simp

theorem mem_ancestors {a b : Oid} : a ∈ dag.ancestors b ↔ Before dag a b := by
  have hnodes : ∀ x, dag.parentsOf x ≠ [] → x ∈ dag.parents.keys := by
    intro x hx
    rw [Std.ExtTreeMap.mem_keys, Std.ExtTreeMap.mem_iff_isSome_getElem?]
    unfold Dag.parentsOf at hx
    cases hlook : dag.parents[x]? with
    | none => simp [hlook] at hx
    | some ps => rfl
  have hedge : Edge dag.parentsOf = Function.swap (Parent dag) := rfl
  rw [Dag.ancestors, Dag.edgeCount, mem_search_iff Std.ExtTreeMap.nodup_keys hnodes le_rfl]
  simp only [List.mem_reverse, hedge]
  constructor
  · rintro ⟨s, hs, hreach⟩
    exact TransGen.tail' (reflTransGen_swap.mp hreach) hs
  · intro hbefore
    obtain ⟨s, hreach, hs⟩ := TransGen.tail'_iff.mp hbefore
    exact ⟨s, hs, reflTransGen_swap.mpr hreach⟩

theorem precedes_iff {a b : Oid} : dag.precedes a b ↔ a ≠ b ∧ Before dag a b := by
  rw [Dag.precedes, Bool.and_eq_true, decide_eq_true_iff, Std.ExtTreeSet.contains_iff_mem,
    mem_ancestors]

end Order

/-! ## Graphs built by insertion -/

section Built

variable (P : Primitives)

inductive Built : Dag → Prop
  | new : Built Dag.new
  | add {dag : Dag} (op : Op) : Built dag → Built (dag.add P op).2

/-- What every insertion maintains.  Insertion order gives the rank. -/
structure Sound (dag : Dag) : Prop where
  keyed : ∀ {oid : Oid} {op : Op}, dag.get oid = some op → op.oid P = oid
  parents : ∀ {oid : Oid} {ps : OidSet}, dag.parents[oid]? = some ps →
    ∃ op, dag.get oid = some op ∧ ∀ a ∈ ps, a ∈ op.deps ∧ dag.contains a
  recorded : ∀ {oid : Oid}, dag.contains oid → oid ∈ dag.parents
  ranked : ∃ rank : Oid → ℕ, ∀ a b, Parent dag a b → rank a < rank b
  size : dag.ops.size ≤ MAX_OPS

/-- What insertion and compaction both maintain: exactly the stored operations have recorded
parents, the parents are stored, and they have a smaller rank. -/
structure Causal (dag : Dag) : Prop where
  within : ∀ {a b : Oid}, Parent dag a b → dag.contains a ∧ dag.contains b
  recorded : ∀ {oid : Oid}, oid ∈ dag.parents ↔ dag.contains oid
  ranked : ∃ rank : Oid → ℕ, ∀ a b, Parent dag a b → rank a < rank b

variable {P}

theorem contains_iff {dag : Dag} {oid : Oid} : dag.contains oid ↔ ∃ op, dag.get oid = some op := by
  rw [Dag.contains, Std.ExtTreeMap.contains_eq_isSome_getElem?, Option.isSome_iff_exists]
  rfl

theorem mem_known {dag : Dag} {deps : OidSet} {d : Oid} :
    d ∈ dag.known deps ↔ d ∈ deps ∧ dag.contains d := by
  simp [Dag.known, Std.ExtTreeSet.mem_filter]

/-- What an insertion that stores the operation does. -/
structure Added (P : Primitives) (dag : Dag) (op : Op) (dag' : Dag) : Prop where
  room : dag.ops.size < MAX_OPS
  fresh : dag.contains (op.oid P) = false
  result : dag' = { epoch := dag.epoch + 1, ops := dag.ops.insert (op.oid P) op
                    parents := dag.parents.insert (op.oid P) (dag.known op.deps) }

theorem add_cases (dag : Dag) (op : Op) :
    (∃ e, dag.add P op = (.error e, dag)) ∨
      (dag.contains (op.oid P) ∧ dag.add P op = (.ok (op.oid P), dag)) ∨
      ∃ dag', Added P dag op dag' ∧ dag.add P op = (.ok (op.oid P), dag') := by
  unfold Dag.add
  by_cases hfull : MAX_OPS ≤ dag.ops.size
  · exact Or.inl ⟨_, if_pos hfull⟩
  rw [if_neg hfull]
  by_cases hold : dag.contains (op.oid P)
  · exact Or.inr (Or.inl ⟨hold, if_pos hold⟩)
  · exact Or.inr (Or.inr ⟨_, ⟨by omega, by simpa using hold, rfl⟩, if_neg hold⟩)

namespace Added

variable {dag dag' : Dag} {op : Op}

theorem get (h : Added P dag op dag') (oid : Oid) :
    dag'.get oid = if op.oid P = oid then some op else dag.get oid := by
  rw [h.result, Dag.get, Std.ExtTreeMap.getElem?_insert]
  simp [Dag.get]

theorem contains (h : Added P dag op dag') {oid : Oid} :
    dag'.contains oid ↔ op.oid P = oid ∨ dag.contains oid := by
  rw [contains_iff, contains_iff, h.get]
  split_ifs with heq <;> simp [heq]

theorem parents (h : Added P dag op dag') (oid : Oid) :
    dag'.parents[oid]? =
      if op.oid P = oid then some (dag.known op.deps) else dag.parents[oid]? := by
  rw [h.result, Std.ExtTreeMap.getElem?_insert]
  simp

theorem parent (h : Added P dag op dag') {a b : Oid} :
    Parent dag' a b ↔
      (op.oid P = b ∧ a ∈ op.deps ∧ dag.contains a) ∨ (op.oid P ≠ b ∧ Parent dag a b) := by
  rw [Parent, Parent, mem_parentsOf, mem_parentsOf, h.parents]
  split_ifs with heq <;> simp [heq, mem_known]

theorem size (h : Added P dag op dag') : dag'.ops.size = dag.ops.size + 1 := by
  have hfresh : ¬dag.ops.contains (op.oid P) := Bool.eq_false_iff.mp h.fresh
  rw [h.result]
  exact Std.ExtTreeMap.size_insert.trans (if_neg hfresh)

theorem ne_of_contains (h : Added P dag op dag') {a : Oid} (ha : dag.contains a) :
    op.oid P ≠ a := by
  rintro rfl
  rw [h.fresh] at ha
  cases ha

end Added

theorem sound_new : Sound P Dag.new where
  keyed h := by simp [Dag.new, Dag.get] at h
  parents h := by simp [Dag.new] at h
  recorded h := by simp [Dag.new, Dag.contains] at h
  ranked := ⟨fun _ => 0, fun a b h => by simp [Parent, mem_parentsOf, Dag.new] at h⟩
  size := by simp [Dag.new]

theorem Sound.parent {dag : Dag} (h : Sound P dag) {a b : Oid} (hab : Parent dag a b) :
    dag.contains a ∧ dag.contains b ∧ ∃ op, dag.get b = some op ∧ a ∈ op.deps := by
  obtain ⟨ps, hps, ha⟩ := mem_parentsOf.mp hab
  obtain ⟨op, hop, hdeps⟩ := h.parents hps
  exact ⟨(hdeps a ha).2, contains_iff.mpr ⟨op, hop⟩, op, hop, (hdeps a ha).1⟩

theorem Sound.causal {dag : Dag} (h : Sound P dag) : Causal dag where
  within hab := ⟨(h.parent hab).1, (h.parent hab).2.1⟩
  recorded := by
    refine ⟨fun hoid => ?_, h.recorded⟩
    obtain ⟨ps, hps⟩ := Option.isSome_iff_exists.mp (Std.ExtTreeMap.mem_iff_isSome_getElem?.mp hoid)
    obtain ⟨op, hop, -⟩ := h.parents hps
    exact contains_iff.mpr ⟨op, hop⟩
  ranked := h.ranked

/-- The new operation gets a rank above everything it depends on. -/
theorem Causal.added {dag dag' : Dag} {op : Op} (h : Causal dag) (hadd : Added P dag op dag') :
    Causal dag' where
  within := by
    intro a b hab
    rw [hadd.contains, hadd.contains]
    rcases hadd.parent.mp hab with ⟨heq, -, ha⟩ | ⟨-, hold⟩
    · exact ⟨Or.inr ha, Or.inl heq⟩
    · exact ⟨Or.inr (h.within hold).1, Or.inr (h.within hold).2⟩
  recorded := by
    intro oid
    rw [hadd.contains, Std.ExtTreeMap.mem_iff_isSome_getElem?, hadd.parents, ← h.recorded,
      Std.ExtTreeMap.mem_iff_isSome_getElem?]
    split_ifs with heq <;> simp [heq]
  ranked := by
    obtain ⟨rank, hrank⟩ := h.ranked
    refine ⟨fun a => if op.oid P = a then ((dag.known op.deps).toList.map rank).sum + 1 else rank a,
      fun a b hab => ?_⟩
    rcases hadd.parent.mp hab with ⟨rfl, hdep, ha⟩ | ⟨hne, hab⟩
    · have hmem : rank a ∈ (dag.known op.deps).toList.map rank :=
        List.mem_map_of_mem (Std.ExtTreeSet.mem_toList.mpr (mem_known.mpr ⟨hdep, ha⟩))
      have hle := List.le_sum_of_mem hmem
      simp only [hadd.ne_of_contains ha, if_false, if_true]
      omega
    · simp only [hadd.ne_of_contains (h.within hab).1, hne, if_false]
      exact hrank a b hab

theorem Sound.added {dag dag' : Dag} {op : Op} (h : Sound P dag) (hadd : Added P dag op dag') :
    Sound P dag' where
  keyed := by
    intro oid op' hop'
    rw [hadd.get] at hop'
    split_ifs at hop' with heq
    · obtain rfl := Option.some.inj hop'
      exact heq
    · exact h.keyed hop'
  parents := by
    intro oid ps hps
    rw [hadd.parents] at hps
    rw [hadd.get]
    split_ifs at hps ⊢ with heq
    · obtain rfl := Option.some.inj hps
      exact ⟨op, rfl, fun a ha =>
        ⟨(mem_known.mp ha).1, hadd.contains.mpr (Or.inr (mem_known.mp ha).2)⟩⟩
    · obtain ⟨op', hop', hdeps⟩ := h.parents hps
      exact ⟨op', hop', fun a ha => ⟨(hdeps a ha).1, hadd.contains.mpr (Or.inr (hdeps a ha).2)⟩⟩
  recorded := (h.causal.added hadd).recorded.mpr
  ranked := (h.causal.added hadd).ranked
  size := by
    have hroom := hadd.room
    have hsize : dag'.ops.size ≤ dag.ops.size + 1 := by
      rw [hadd.result, Std.ExtTreeMap.size_insert]
      split_ifs <;> omega
    omega

theorem rank_lt_of_before {dag : Dag} {rank : Oid → ℕ}
    (hrank : ∀ a b, Parent dag a b → rank a < rank b) {a b : Oid} (h : Before dag a b) :
    rank a < rank b := by
  induction h with
  | single hedge => exact hrank _ _ hedge
  | tail _ hedge ih => exact ih.trans (hrank _ _ hedge)

theorem Causal.before_irrefl {dag : Dag} (h : Causal dag) (a : Oid) : ¬Before dag a a := by
  obtain ⟨rank, hrank⟩ := h.ranked
  exact fun haa => lt_irrefl _ (rank_lt_of_before hrank haa)

/-- Both ends of the causal order are stored. -/
theorem Causal.before {dag : Dag} (h : Causal dag) {a b : Oid} (hab : Before dag a b) :
    dag.contains a ∧ dag.contains b := by
  induction hab with
  | single hedge => exact h.within hedge
  | tail _ hedge ih => exact ⟨ih.1, (h.within hedge).2⟩

theorem Sound.before_irrefl {dag : Dag} (h : Sound P dag) (a : Oid) : ¬Before dag a a :=
  h.causal.before_irrefl a

theorem Sound.before {dag : Dag} (h : Sound P dag) {a b : Oid} (hab : Before dag a b) :
    dag.contains a ∧ dag.contains b :=
  h.causal.before hab

theorem Added.get_mono {dag dag' : Dag} {op op' : Op} (hadd : Added P dag op dag') {o : Oid}
    (h : dag.get o = some op') : dag'.get o = some op' := by
  rw [hadd.get, if_neg (hadd.ne_of_contains (contains_iff.mpr ⟨op', h⟩)), h]

theorem Added.before_mono {dag dag' : Dag} {op : Op} (hadd : Added P dag op dag')
    (hsound : Sound P dag) {a b : Oid} (h : Before dag a b) : Before dag' a b := by
  refine TransGen.mono (fun x y hxy => ?_) a b h
  exact hadd.parent.mpr (Or.inr ⟨hadd.ne_of_contains (hsound.parent hxy).2.1, hxy⟩)

/-- The past of what was stored before does not change. -/
theorem Added.before_iff {dag dag' : Dag} {op : Op} (hadd : Added P dag op dag')
    (hsound : Sound P dag) {a b : Oid} (hb : dag.contains b) :
    Before dag' a b ↔ Before dag a b := by
  constructor
  · intro h
    have hedge : ∀ {x y}, dag.contains y → Parent dag' x y → Parent dag x y := by
      intro x y hy hxy
      rcases hadd.parent.mp hxy with ⟨heq, -⟩ | ⟨-, hold⟩
      · exact absurd heq (hadd.ne_of_contains hy)
      · exact hold
    induction h using TransGen.head_induction_on with
    | single hab => exact .single (hedge hb hab)
    | head hac _ ih => exact .head (hedge (hsound.before ih).1 hac) ih
  · exact hadd.before_mono hsound

/-- Every dependency of a stored operation is recorded as its parent. -/
def Complete (dag : Dag) : Prop :=
  ∀ ⦃oid : Oid⦄ ⦃op : Op⦄, dag.get oid = some op → ∀ a ∈ op.deps, Parent dag a oid

theorem complete_new : Complete Dag.new := by
  intro oid op hop
  simp [Dag.new, Dag.get] at hop

theorem Complete.added {dag dag' : Dag} {op : Op} (h : Complete dag) (hadd : Added P dag op dag')
    (hdeps : ∀ a ∈ op.deps, dag.contains a) : Complete dag' := by
  intro oid op' hop' a ha
  rw [hadd.get] at hop'
  split_ifs at hop' with heq
  · cases hop'
    exact hadd.parent.mpr (Or.inl ⟨heq, ha, hdeps a ha⟩)
  · exact hadd.parent.mpr (Or.inr ⟨heq, h hop' a ha⟩)

/-- In a complete graph the recorded parents are the dependencies. -/
theorem Sound.parents_eq {dag : Dag} (h : Sound P dag) (hc : Complete dag) (o : Oid) :
    dag.parents[o]? = (dag.get o).map Op.deps := by
  cases hget : dag.get o with
  | none =>
      rw [Option.map_none]
      by_contra hne
      obtain ⟨ps, hps⟩ := Option.ne_none_iff_exists'.mp hne
      obtain ⟨op, hop, -⟩ := h.parents hps
      rw [hget] at hop
      cases hop
  | some op =>
      have hrecorded := h.recorded (contains_iff.mpr ⟨op, hget⟩)
      obtain ⟨ps, hps⟩ :=
        Option.isSome_iff_exists.mp (Std.ExtTreeMap.mem_iff_isSome_getElem?.mp hrecorded)
      rw [hps, Option.map_some]
      refine congrArg some (Std.ExtTreeSet.ext_mem fun a => ?_)
      constructor
      · intro ha
        obtain ⟨op', hop', hdeps⟩ := h.parents hps
        cases hget.symm.trans hop'
        exact (hdeps a ha).1
      · intro ha
        obtain ⟨ps', hps', ha'⟩ := mem_parentsOf.mp (hc hget a ha)
        cases hps.symm.trans hps'
        exact ha'

end Built

/-! ## Heads -/

section Heads

variable {P : Primitives} {dag : Dag}

theorem nodup_toList (s : OidSet) : s.toList.Nodup :=
  Std.ExtTreeSet.distinct_toList.imp fun hne heq => hne (Std.compare_eq_iff_eq.mpr heq)

theorem mem_foldl_union (entries : List (Oid × OidSet)) (seen : OidSet) (a : Oid) :
    a ∈ entries.foldl (fun seen entry => seen ∪ entry.2) seen ↔
      a ∈ seen ∨ ∃ entry ∈ entries, a ∈ entry.2 := by
  induction entries generalizing seen with
  | nil => simp
  | cons entry entries ih => simp [ih, or_assoc]

theorem mem_heads {a : Oid} : a ∈ dag.heads ↔ dag.contains a ∧ ∀ b, ¬Parent dag a b := by
  have hreferenced : a ∈ dag.parents.foldl (fun seen _ ps => seen ∪ ps) (∅ : OidSet) ↔
      ∃ b, Parent dag a b := by
    rw [Std.ExtTreeMap.foldl_eq_foldl_toList, mem_foldl_union]
    simp only [Parent, mem_parentsOf, Prod.exists, Std.ExtTreeMap.mem_toList_iff_getElem?_eq_some,
      Std.ExtTreeSet.not_mem_empty, false_or]
  simp only [Dag.heads, Std.ExtTreeSet.mem_ofList, List.contains_iff_mem, List.mem_filter,
    Std.ExtTreeMap.mem_keys, Bool.not_eq_true', ← not_exists, ← hreferenced, Dag.contains,
    Std.ExtTreeMap.contains_iff_mem, ← Bool.not_eq_true, Std.ExtTreeSet.contains_iff_mem]

theorem mem_foldl_closure (heads : List Oid) (known : OidSet) (o : Oid) :
    o ∈ heads.foldl (fun known head =>
      if dag.contains head then (known.insert head) ∪ dag.ancestors head else known) known ↔
    o ∈ known ∨ ∃ h ∈ heads, dag.contains h ∧ (o = h ∨ Before dag o h) := by
  induction heads generalizing known with
  | nil => simp
  | cons head heads ih =>
      rw [List.foldl_cons, ih]
      by_cases hhead : dag.contains head
      · have hsame : head = o ↔ o = head := eq_comm
        simp only [hhead, if_true, Std.ExtTreeSet.mem_union_iff, Std.ExtTreeSet.mem_insert,
          Std.compare_eq_iff_eq, mem_ancestors, List.exists_mem_cons_iff, true_and, hsame, or_assoc]
        exact or_left_comm
      · simp [hhead]

/-- The closure of a set of heads holds the known ones and their past. -/
theorem mem_causalClosure {heads : List Oid} {o : Oid} :
    o ∈ dag.causalClosure heads ↔ ∃ h ∈ heads, dag.contains h ∧ (o = h ∨ Before dag o h) := by
  rw [Dag.causalClosure, mem_foldl_closure]
  simp

/-- What a set of stored operations implies does not change when another operation is stored. -/
theorem Added.causalClosure_eq {dag' : Dag} {op : Op} (hadd : Added P dag op dag')
    (hsound : Sound P dag) {heads : List Oid} (hheads : ∀ h ∈ heads, dag.contains h) :
    dag'.causalClosure heads = dag.causalClosure heads := by
  ext o
  rw [mem_causalClosure, mem_causalClosure]
  refine exists_congr fun h => and_congr_right fun hh => ?_
  have hold := hheads h hh
  rw [hadd.before_iff hsound hold, hadd.contains]
  simp [hold]

/-- Every stored operation lies at or behind a head. -/
theorem Causal.exists_head (h : Causal dag) {a : Oid} (ha : dag.contains a) :
    ∃ b ∈ dag.heads, ReflTransGen (Parent dag) a b := by
  classical
  obtain ⟨rank, hrank⟩ := h.ranked
  -- Among the operations at or ahead of this one, one of greatest rank is a head.
  let ahead := dag.ops.keys.toFinset.filter fun b => ReflTransGen (Parent dag) a b
  have hmem : ∀ b, b ∈ ahead ↔ dag.contains b ∧ ReflTransGen (Parent dag) a b := by
    intro b
    simp [ahead, Dag.contains, Std.ExtTreeMap.contains_iff_mem]
  obtain ⟨b, hb, hmax⟩ := ahead.exists_max_image rank ⟨a, (hmem a).mpr ⟨ha, ReflTransGen.refl⟩⟩
  refine ⟨b, mem_heads.mpr ⟨((hmem b).mp hb).1, fun c hbc => ?_⟩, ((hmem b).mp hb).2⟩
  have hc : c ∈ ahead := (hmem c).mpr ⟨(h.within hbc).2, ((hmem b).mp hb).2.tail hbc⟩
  exact absurd (hrank b c hbc) (not_lt.mpr (hmax c hc))

theorem Sound.exists_head (h : Sound P dag) {a : Oid} (ha : dag.contains a) :
    ∃ b ∈ dag.heads, ReflTransGen (Parent dag) a b :=
  h.causal.exists_head ha

end Heads

end CausalFrontierRatchet.OperationGraph
