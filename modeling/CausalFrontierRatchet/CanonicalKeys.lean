import CausalFrontierRatchet.Derivation
import CausalFrontierRatchet.FrontierKeys
import Mathlib.Data.Set.Function

/-!
Canonical node keys.  The secret that a contribution commits to and the canonical keys of the
contributions it names as parents determine its node key.  Whatever a participant derives itself
from canonical keys is canonical.
-/

namespace CausalFrontierRatchet.CanonicalKeys

open Relation Crypto Operation CausalMembership KeySchedule Channel
open Member MemberSteps FrontierKeys Derivation

variable (P : Primitives) (U : Set Op)

/-- A contribution among the operations, with the secret it commits to and its parents. -/
def Contributed (oid : Oid) (x : Secret) (parents : List Oid) : Prop :=
  ∃ op ∈ U, op.oid P = oid ∧ ∃ cparents recips slices view,
    op.body = .contrib (commitment P x) cparents recips slices view ∧ parents = cparents.toList

/-- The node key for a secret and the keys of the parents. -/
def chained (oid : Oid) (x : Secret) (keys : List Secret) : Secret :=
  nodeKey P x (keys.foldl (· ^^^ ·) 0) oid

/-- A canonical node key of an operation. -/
def Canon : Oid → Secret → Prop :=
  Derives (Contributed P U) (chained P)

/-- Every node key that is held is canonical. -/
def HoldsCanonical (p : Participant) : Prop :=
  ∀ oid key, p.nodekeys.peek oid = some key → Canon P U oid key

/-- The participant's operations are among the given ones. -/
def Within (p : Participant) : Prop :=
  (∀ op ∈ p.signed, op ∈ U) ∧ ∀ oid op, p.dag.get oid = some op → op ∈ U

variable {P U} {p p' : Participant}

/-- Without collisions a contribution has one secret and one list of parents. -/
theorem contributed_functional (hcommit : Function.Injective (commitment P))
    (hoid : Set.InjOn (Op.oid P) U) : Functional (Contributed P U) := by
  rintro oid x x' parents parents' ⟨op, hop, rfl, cparents, recips, slices, view, hbody, rfl⟩
    ⟨op', hop', hsame, cparents', recips', slices', view', hbody', rfl⟩
  obtain rfl := hoid hop' hop hsame
  rw [hbody] at hbody'
  obtain ⟨hcid, rfl, -, -, -⟩ := Body.contrib.inj hbody'
  exact ⟨hcommit hcid, rfl⟩

theorem Canon.unique (hcommit : Function.Injective (commitment P)) (hoid : Set.InjOn (Op.oid P) U)
    {oid : Oid} {key key' : Secret} (h : Canon P U oid key) (h' : Canon P U oid key') :
    key = key' :=
  Derives.unique (contributed_functional hcommit hoid) h h'

/-- Combined keys are the exclusive or of the keys of all nodes. -/
theorem combine_eq_some {store : NodeKeys} {nodes : OidSet} {combined : Secret}
    (h : store.combine nodes = some combined) :
    ∃ value : Oid → Secret, (∀ n ∈ nodes.toList, store.peek n = some (value n)) ∧
      combined = (nodes.toList.map value).foldl (· ^^^ ·) 0 := by
  have hfold : ∀ (list : List Oid) (acc combined : Secret),
      list.foldlM (fun acc n => (store.peek n).map fun key => acc ^^^ key) acc = some combined →
      (∀ n ∈ list, store.peek n = some ((store.peek n).getD 0)) ∧
        combined = (list.map fun n => (store.peek n).getD 0).foldl (· ^^^ ·) acc := by
    intro list
    induction list with
    | nil =>
        intro acc combined h
        cases h
        exact ⟨by simp, rfl⟩
    | cons n list ih =>
        intro acc combined h
        rw [List.foldlM_cons] at h
        cases hpeek : store.peek n with
        | none =>
            rw [hpeek] at h
            cases h
        | some key =>
            rw [hpeek] at h
            obtain ⟨hheld, heq⟩ := ih (acc ^^^ key) combined h
            refine ⟨?_, ?_⟩
            · intro m hm
              rcases List.mem_cons.mp hm with rfl | hm
              · rw [hpeek]
                rfl
              · exact hheld m hm
            · rw [List.map_cons, List.foldl_cons, hpeek]
              exact heq
  exact ⟨_, hfold nodes.toList 0 combined h⟩

/-- What a participant absorbs on top of canonical keys is canonical. -/
theorem absorbed_canon (hp : HoldsCanonical P U p) {op : Op} (hop : op ∈ U) {x parent : Secret}
    {cparents : OidSet} {recips : List SigPublic} {slices : List Slice} {view : BitVec 256}
    (hbody : op.body = .contrib (commitment P x) cparents recips slices view)
    (hparent : (if cparents.isEmpty then some 0 else p.nodekeys.combine cparents) = some parent) :
    Canon P U (op.oid P) (nodeKey P x parent (op.oid P)) := by
  have hcombined : p.nodekeys.combine cparents = some parent := by
    split_ifs at hparent with hempty
    · rw [Std.ExtTreeSet.isEmpty_iff.mp hempty]
      exact hparent
    · exact hparent
  obtain ⟨value, hvalue, rfl⟩ := combine_eq_some hcombined
  refine .of ⟨op, hop, rfl, cparents, recips, slices, view, hbody, rfl⟩ value ?_
  intro n hn
  exact hp n (value n) (hvalue n hn)

theorem HoldsCanonical.insert (hp : HoldsCanonical P U p) {oid : Oid} {key : Secret}
    (hkey : Canon P U oid key) (hkeys : p'.nodekeys = p.nodekeys.insert oid key) :
    HoldsCanonical P U p' := by
  intro o k hk
  rw [hkeys] at hk
  have hpeek := NodeKeys.peek_insert hk
  split_ifs at hpeek with heq
  · rw [← heq, ← hpeek]
    exact hkey
  · exact hp o k hpeek

theorem Within.of_update {src : Op → Prop} {rep : Oid → Secret → Prop}
    (h : Update P src rep p p') (hp' : Within U p') : Within U p :=
  ⟨fun op hop => hp'.1 op (h.signed_subset hop), fun oid op hop => hp'.2 oid op (h.keeps hop)⟩

/-- Updates keep the held keys canonical if repaired keys are. -/
theorem HoldsCanonical.steps {src : Op → Prop} (h : Steps P src (Canon P U) p p')
    (hwithin : Within U p') (hp : HoldsCanonical P U p) : HoldsCanonical P U p' := by
  induction h with
  | refl => exact hp
  | tail _ hupdate ih =>
      have hbefore := hwithin.of_update hupdate
      have hq := ih hbefore
      cases hupdate with
      | absorbed hheld hbody hnew hcid hparent =>
          subst hcid
          have hop := hheld.elim (hbefore.2 _ _) (hbefore.1 _)
          exact hq.insert (absorbed_canon hq hop hbody hparent) rfl
      | repaired hrep => exact hq.insert hrep rfl
      | _ => exact hq

theorem blank_canonical (identity : Secret) (sid : SessionId) (policy : Policy) (seed0 : Secret)
    (prekeys : PrekeyPool) (entropy : List Secret) :
    HoldsCanonical P U (blank P identity sid policy seed0 prekeys entropy) := by
  intro oid key hkey
  simp [blank, NodeKeys.default, NodeKeys.withCapacity, NodeKeys.peek] at hkey

/-- Two holders of canonical keys that can both derive a group key derive the same one. -/
theorem groupKey_unique (hcommit : Function.Injective (commitment P))
    (hoid : Set.InjOn (Op.oid P) U) {q : Participant} (hp : HoldsCanonical P U p)
    (hq : HoldsCanonical P U q) {seed0 : Secret} {nodes : OidSet} {root : BitVec 256}
    {key key' : Secret} (hkey : groupKey P seed0 nodes root p.nodekeys = some key)
    (hkey' : groupKey P seed0 nodes root q.nodekeys = some key') : key = key' := by
  have hsame : ∀ {a b : Secret}, p.nodekeys.combine nodes = some a →
      q.nodekeys.combine nodes = some b → p.nodekeys.combine nodes = q.nodekeys.combine nodes := by
    intro a b ha hb
    obtain ⟨value, hvalue, -⟩ := combine_eq_some ha
    obtain ⟨value', hvalue', -⟩ := combine_eq_some hb
    apply combine_congr
    intro n hn
    have hmem := Std.ExtTreeSet.mem_toList.mpr hn
    rw [hvalue n hmem, hvalue' n hmem,
      (hp n _ (hvalue n hmem)).unique hcommit hoid (hq n _ (hvalue' n hmem))]
  unfold groupKey at hkey hkey'
  dsimp only at hkey hkey'
  split_ifs at hkey hkey'
  · exact Option.some.inj (hkey.symm.trans hkey')
  · obtain ⟨a, ha, -⟩ := Option.map_eq_some_iff.mp hkey
    obtain ⟨b, hb, -⟩ := Option.map_eq_some_iff.mp hkey'
    rw [hsame ha hb] at hkey
    exact Option.some.inj (hkey.symm.trans hkey')

end CausalFrontierRatchet.CanonicalKeys
