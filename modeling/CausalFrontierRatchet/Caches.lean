import CausalFrontierRatchet.Authorisation
import CausalFrontierRatchet.Memo
import Mathlib.Data.Set.Function

/-!
The caches of a participant: the causal pasts its graph has walked, the values derived from the
graph under the epoch and the number of proven equivocators they were derived at, and the rosters
that authorised operations, under the digest of their dependencies as well.  A cached participant is
the participant together with what the caches hold; every answer of it is the one that a fresh
evaluation gives.
-/

namespace CausalFrontierRatchet.Caches

open Relation BigEndian Crypto Operation OperationGraph CausalMembership KeySchedule
open Member MemberSteps MemberRuns Authorisation Memo

/-! ## Evaluation through the cache of the graph -/

/-- Computations that keep the causal pasts they have walked. -/
abbrev Walk : Type → Type :=
  Tabled Oid OidSet

def ancestors (dag : Dag) (oid : Oid) : Walk OidSet :=
  lookup dag.ancestors oid

def precedes (dag : Dag) (a b : Oid) : Walk Bool :=
  if a = b then pure false else ancestors dag b >>= fun past => pure (past.contains a)

/-- The contributions that no contribution has in its past. -/
def frontier (dag : Dag) : Walk OidSet :=
  let nodes := contributions dag
  nodes.foldlM (fun covered oid =>
      ancestors dag oid >>= fun past => pure (covered ∪ past)) (∅ : OidSet) >>= fun covered =>
    pure (.ofList (nodes.filter fun n => !covered.contains n))

def alive (m : Membership) (who : SigPublic) (keep : Option OidSet) : Walk Bool :=
  (m.admissionsOf who keep).anyM fun admission =>
    (m.countedRemovesIn who keep).allM fun removal => precedes m.dag removal admission

/-- The members in a causally closed part of the graph, collected one by one. -/
def membersIn (m : Membership) (keep : Option OidSet) : Walk Roster :=
  (m.admitted keep).toList.foldlM (fun live who =>
    alive m who keep >>= fun holds => pure (if holds then live.insert who else live)) ∅

section Past

variable (P : Primitives)

/-- The causal past of an operation, as far as the graph holds it. -/
def pastOf (m : Membership) (op : Op) : Walk OidSet :=
  let oid := op.oid P
  (if m.dag.contains oid then ancestors m.dag oid else pure ∅) >>= fun past =>
    op.deps.toList.foldlM (fun past d =>
      if m.dag.contains d then ancestors m.dag d >>= fun before => pure (past.insert d ∪ before)
      else pure past) past

def membersBefore (m : Membership) (op : Op) : Walk Roster :=
  pastOf P m op >>= fun past => membersIn m (some past)

end Past

/-- The authorisation rule as the participant states it, next to the one of the evaluator. -/
def memberDecide (op : Op) (past : Roster) (dag : Dag) : Bool :=
  if op.kind = .add then
    if past.contains op.author then true
    else
      match op.body with
      | .add who =>
          who = op.author && op.deps.isEmpty &&
            !dag.ops.toList.any fun entry =>
              entry.2.kind = .add && entry.2.deps.isEmpty &&
                (match entry.2.body with
                | .add w => w = entry.2.author
                | _ => false) &&
                entry.2.author ≠ op.author
      | _ => false
  else
    match op.body with
    | .remove who => if who = op.author then true else past.contains op.author
    | _ => past.contains op.author

/-! ## A participant with its caches -/

/-- What is derived from the graph and the proven equivocators, and what it was derived at. -/
structure Derived where
  epoch : ℕ
  guilty : ℕ
  frontier : OidSet
  members : Roster
  root : BitVec 256
  version : BitVec 64

/-- The derived values for a frontier and a roster. -/
def Derived.of (P : Primitives) (m : Membership) (frontier : OidSet) (members : Roster) : Derived :=
  let root := Membership.rootForMembers P members
  ⟨m.dag.epoch, m.guilty.size, frontier, members, root, versionOf P frontier root⟩

/-- Cache key for membership evaluated over one causal dependency set. -/
structure AuthorizationCacheKey where
  digest : BitVec 256
  epoch : ℕ
  guilty : ℕ
deriving DecidableEq

/-- Past this many rosters the cache is emptied before the next is kept. -/
def AUTHZ_LIMIT : ℕ := 4096

structure Cached where
  p : Participant
  walked : Std.ExtTreeMap Oid OidSet
  derived : Option Derived
  authz : List (AuthorizationCacheKey × Roster)

namespace Cached

/-- A founder, a newcomer and a restored participant start with empty caches. -/
def new (p : Participant) : Cached :=
  ⟨p, ∅, none, []⟩

def ancestors (c : Cached) (oid : Oid) : OidSet × Cached :=
  let (past, walked) := Caches.ancestors c.p.dag oid c.walked
  (past, { c with walked })

variable (P : Primitives)

def derive (c : Cached) : Derived × Cached :=
  let (frontier, walked) := frontier c.p.dag c.walked
  let (members, walked) := membersIn c.p.membership none walked
  let derived := Derived.of P c.p.membership frontier members
  (derived, { c with walked, derived := some derived })

/-- The derived values, evaluated again when they are stale. -/
def view (c : Cached) : Derived × Cached :=
  match c.derived with
  | some d =>
      if d.epoch ≠ c.p.dag.epoch ∨ d.guilty ≠ c.p.guilty.size then c.derive P else (d, c)
  | none => c.derive P

def members (c : Cached) : Roster :=
  (c.view P).1.members

def frontier (c : Cached) : OidSet :=
  (c.view P).1.frontier

def version (c : Cached) : BitVec 64 :=
  (c.view P).1.version

/-- The field under which a dependency list is filed. -/
def authzDigest (deps : OidSet) : BitVec 256 :=
  hash P "cfr/authz" (deps.toList.map bytesOf)

/-- Authorisation with a memo over the operation's dependency set. -/
def authorised (c : Cached) (op : Op) : Bool × Cached :=
  let key := ⟨authzDigest P op.deps, c.p.dag.epoch, c.p.guilty.size⟩
  match c.authz.lookup key with
  | some past => (memberDecide op past c.p.dag, c)
  | none =>
      let (past, walked) := membersBefore P c.p.membership op c.walked
      let kept := if AUTHZ_LIMIT < c.authz.length then [] else c.authz
      (memberDecide op past c.p.dag, { c with walked, authz := (key, past) :: kept })

end Cached

/-! ## The walks answer as the evaluator -/

section Walks

variable {P : Primitives} {m : Membership} {dag : Dag}

theorem yields_ancestors (oid : Oid) :
    Yields dag.ancestors (ancestors dag oid) (dag.ancestors oid) :=
  yields_lookup oid

theorem yields_precedes (a b : Oid) :
    Yields dag.ancestors (precedes dag a b) (dag.precedes a b) := by
  unfold precedes Dag.precedes
  by_cases heq : a = b
  · rw [if_pos heq, heq]
    simpa using yields_pure false
  · rw [if_neg heq]
    simpa [heq] using (yields_ancestors b).map fun past => past.contains a

theorem yields_frontier : Yields dag.ancestors (frontier dag) (KeySchedule.frontier dag) := by
  apply Yields.map
  apply yields_foldlM
  intro covered oid
  exact (yields_ancestors oid).map (covered ∪ ·)

theorem yields_alive (who : SigPublic) (keep : Option OidSet) :
    Yields m.dag.ancestors (alive m who keep) (m.alive who keep) := by
  apply yields_anyM
  intro admission
  apply yields_allM
  intro removal
  exact yields_precedes removal admission

/-- Collecting the members one by one selects them from the admitted identities. -/
theorem foldl_insert_if (holds : SigPublic → Bool) (who : SigPublic) (items : List SigPublic)
    (live : Roster) :
    who ∈ items.foldl (fun live x => if holds x then live.insert x else live) live ↔
      who ∈ live ∨ who ∈ items ∧ holds who := by
  induction items generalizing live with
  | nil => simp
  | cons x items ih =>
      rw [List.foldl_cons, ih, List.mem_cons]
      by_cases hx : holds x
      · rw [if_pos hx, Std.ExtTreeSet.mem_insert, Std.compare_eq_iff_eq]
        grind
      · rw [if_neg hx]
        grind

theorem yields_membersIn (keep : Option OidSet) :
    Yields m.dag.ancestors (membersIn m keep) (m.membersIn keep) := by
  have hfold : m.membersIn keep = (m.admitted keep).toList.foldl
      (fun live who => if m.alive who keep then live.insert who else live) ∅ := by
    ext who
    rw [foldl_insert_if, Membership.membersIn]
    simp [Std.ExtTreeSet.mem_filter]
  rw [hfold]
  apply yields_foldlM
  intro live who
  exact (yields_alive who keep).map fun holds => if holds then live.insert who else live

theorem yields_pastOf (op : Op) : Yields m.dag.ancestors (pastOf P m op) (m.pastOf P op) := by
  have hstart : Yields m.dag.ancestors
      (if m.dag.contains (op.oid P) then ancestors m.dag (op.oid P) else pure ∅)
      (if m.dag.contains (op.oid P) then m.dag.ancestors (op.oid P) else ∅) := by
    split_ifs
    · exact yields_ancestors _
    · exact yields_pure _
  rw [Membership.pastOf, Std.ExtTreeSet.foldl_eq_foldl_toList]
  apply hstart.bind
  apply yields_foldlM
  intro past d
  split_ifs
  · exact (yields_ancestors d).map (past.insert d ∪ ·)
  · exact yields_pure past

theorem yields_membersBefore (op : Op) :
    Yields m.dag.ancestors (membersBefore P m op) (m.membersBefore P op) :=
  (yields_pastOf op).bind (yields_membersIn _)

/-- The two statements of the authorisation rule agree. -/
theorem memberDecide_eq (op : Op) (past : Roster) :
    memberDecide op past dag = decideOp op past dag := by
  have hfounding : ∀ o : Op, founding o = (o.kind = .add && o.deps.isEmpty &&
      (match o.body with
      | .add w => w = o.author
      | _ => false)) := by
    intro o
    unfold founding Op.kind
    cases o.body <;> simp [Body.kind]
  unfold memberDecide decideOp
  simp only [hfounding]
  unfold Op.kind
  cases op.body with
  | add who =>
      by_cases hpast : past.contains op.author
      · simp [Body.kind, hpast]
      · simp [Body.kind, hpast, Bool.and_comm]
  | _ => simp [Body.kind]

end Walks

/-! ## Runs of a cached participant -/

section Runs

variable (P : Primitives) (D : Set OidSet)

/-- What an update of the participant does to the evaluator that the caches depend on. -/
inductive Effect : Membership → Membership → Prop
  | kept {m : Membership} : Effect m m
  | accused {m : Membership} (who : SigPublic) :
      Effect m { m with guilty := m.guilty.insert who }
  | inserted {m : Membership} {op : Op} {dag : Dag} (hadd : Added P m.dag op dag) :
      Effect m { m with dag }

/-- An update or a query.  An insertion into the graph empties the cache of the graph; the other
caches are left as they are.  Authorisation is asked only of operations that are not stored, here
with dependency lists in a given set. -/
inductive CachedStep : Cached → Cached → Prop
  | kept {c : Cached} {p : Participant} (h : Effect P c.p.membership p.membership)
      (hdag : p.dag = c.p.dag) : CachedStep c { c with p }
  | inserted {c : Cached} {p : Participant} {op : Op} (h : Effect P c.p.membership p.membership)
      (hadd : Added P c.p.dag op p.dag) : CachedStep c { c with p, walked := ∅ }
  | ancestors {c : Cached} (oid : Oid) : CachedStep c (c.ancestors oid).2
  | view {c : Cached} : CachedStep c (c.view P).2
  | authorised {c : Cached} {op : Op} (hdeps : op.deps ∈ D)
      (habsent : ¬c.p.dag.contains (op.oid P)) : CachedStep c (c.authorised P op).2

def CachedSteps : Cached → Cached → Prop :=
  ReflTransGen (CachedStep P D)

/-- The states of participants that started with empty caches. -/
def CachedReach (c : Cached) : Prop :=
  ∃ p, CachedSteps P D (.new p) c

variable {P D}

theorem update_effect {src : Op → Prop} {rep : Oid → Secret → Prop} {p p' : Participant}
    (h : Update P src rep p p') : Effect P p.membership p'.membership := by
  cases h with
  | own _ _ hadd => exact .inserted hadd
  | stored _ _ _ _ _ hadd => exact .inserted hadd
  | guilty _ _ _ => exact .accused _
  | _ => exact .kept

theorem Effect.graph {m m' : Membership} (h : Effect P m m') :
    m'.dag = m.dag ∨ ∃ op, Added P m.dag op m'.dag := by
  cases h with
  | kept => exact Or.inl rfl
  | accused who => exact Or.inl rfl
  | inserted hadd => exact Or.inr ⟨_, hadd⟩

/-- A cached participant can take every run of the participant. -/
theorem steps_lift {src : Op → Prop} {rep : Oid → Secret → Prop} (c : Cached) {p : Participant}
    (h : Steps P src rep c.p p) : ∃ c', CachedSteps P D c c' ∧ c'.p = p := by
  induction h with
  | refl => exact ⟨c, .refl, rfl⟩
  | tail _ hupdate ih =>
      obtain ⟨c', hsteps, rfl⟩ := ih
      have heffect := update_effect hupdate
      rcases heffect.graph with hdag | ⟨op, hadd⟩
      · exact ⟨_, hsteps.tail (.kept heffect hdag), rfl⟩
      · exact ⟨_, hsteps.tail (.inserted heffect hadd), rfl⟩

end Runs

/-! ## What the caches hold -/

section Fresh

variable (P : Primitives) (D : Set OidSet)

/-- The derived values of an evaluator. -/
def derivedOf (m : Membership) : Derived :=
  .of P m (KeySchedule.frontier m.dag) m.members

/-- The roster of the causal past that a dependency list spans. -/
def rosterOf (m : Membership) (deps : OidSet) : Roster :=
  m.membersIn (some (m.dag.causalClosure deps.toList))

/-- A stamp that is not ahead of the evaluator. -/
def Past (m : Membership) (epoch guilty : ℕ) : Prop :=
  epoch ≤ m.dag.epoch ∧ guilty ≤ m.guilty.size

/-- The stamp of the evaluator as it is. -/
def Now (m : Membership) (epoch guilty : ℕ) : Prop :=
  epoch = m.dag.epoch ∧ guilty = m.guilty.size

/-- The walked pasts are those of the graph; an entry stamped with the present state holds what a
fresh evaluation gives, and no entry is stamped with a later one. -/
structure Fresh (c : Cached) : Prop where
  walked : Valid c.p.dag.ancestors c.walked
  derived : ∀ d, c.derived = some d → Past c.p.membership d.epoch d.guilty ∧
    (Now c.p.membership d.epoch d.guilty → d = derivedOf P c.p.membership)
  authz : ∀ key roster, (key, roster) ∈ c.authz → Past c.p.membership key.epoch key.guilty ∧
    ∃ deps ∈ D, key.digest = Cached.authzDigest P deps ∧
      (Now c.p.membership key.epoch key.guilty → roster = rosterOf c.p.membership deps)

variable {P D} {m m' : Membership} {epoch guilty : ℕ} {c : Cached}

theorem fresh_new (p : Participant) : Fresh P D (.new p) where
  walked := valid_empty
  derived _ hd := nomatch hd
  authz _ _ hmem := nomatch hmem

theorem now_past (h : Now m epoch guilty) : Past m epoch guilty :=
  ⟨h.1.le, h.2.le⟩

theorem Effect.past (h : Effect P m m') (hpast : Past m epoch guilty) : Past m' epoch guilty := by
  cases h with
  | kept => exact hpast
  | accused who => exact ⟨hpast.1, hpast.2.trans Std.ExtTreeSet.size_le_size_insert⟩
  | inserted hadd =>
      refine ⟨?_, hpast.2⟩
      rw [hadd.result]
      exact Nat.le_succ_of_le hpast.1

/-- A stamp taken before the update and current after it: the update changed nothing.  An insertion
moves the epoch, and an identity that is not yet guilty moves the number of the guilty. -/
theorem Effect.eq_of_now (h : Effect P m m') (hpast : Past m epoch guilty)
    (hnow : Now m' epoch guilty) : m' = m := by
  cases h with
  | kept => rfl
  | accused who =>
      have hsize : (m.guilty.insert who).size ≤ m.guilty.size := hnow.2 ▸ hpast.2
      rw [Std.ExtTreeSet.size_insert] at hsize
      split_ifs at hsize with hmem
      · have hsame : m.guilty.insert who = m.guilty := by
          ext x
          rw [Std.ExtTreeSet.mem_insert, Std.compare_eq_iff_eq]
          exact ⟨fun hx => hx.elim (fun heq => heq ▸ hmem) id, Or.inr⟩
        rw [hsame]
      · omega
  | inserted hadd =>
      have hepoch : epoch = _ := hnow.1
      rw [hadd.result] at hepoch
      have hle := hpast.1
      simp only at hepoch
      omega

theorem Fresh.effect {p : Participant} (h : Fresh P D c)
    (heffect : Effect P c.p.membership p.membership) {walked : Std.ExtTreeMap Oid OidSet}
    (hwalked : Valid p.dag.ancestors walked) :
    Fresh P D { c with p, walked } where
  walked := hwalked
  derived d hd := by
    obtain ⟨hpast, hfresh⟩ := h.derived d hd
    refine ⟨heffect.past hpast, fun hnow => ?_⟩
    have hsame := heffect.eq_of_now hpast hnow
    change Now p.membership _ _ at hnow
    change d = derivedOf P p.membership
    rw [hsame] at hnow ⊢
    exact hfresh hnow
  authz key roster hmem := by
    obtain ⟨hpast, deps, hdeps, hdigest, hfresh⟩ := h.authz key roster hmem
    refine ⟨heffect.past hpast, deps, hdeps, hdigest, fun hnow => ?_⟩
    have hsame := heffect.eq_of_now hpast hnow
    change Now p.membership _ _ at hnow
    change roster = rosterOf p.membership deps
    rw [hsame] at hnow ⊢
    exact hfresh hnow

theorem Fresh.walk (h : Fresh P D c) {walked : Std.ExtTreeMap Oid OidSet}
    (hwalked : Valid c.p.dag.ancestors walked) : Fresh P D { c with walked } :=
  h.effect .kept hwalked

theorem Fresh.ancestors (h : Fresh P D c) (oid : Oid) :
    (c.ancestors oid).1 = c.p.dag.ancestors oid ∧ Fresh P D (c.ancestors oid).2 := by
  obtain ⟨hvalue, hvalid⟩ := yields_ancestors oid c.walked h.walked
  exact ⟨hvalue, h.walk hvalid⟩

theorem Fresh.derive (h : Fresh P D c) :
    (c.derive P).1 = derivedOf P c.p.membership ∧ Fresh P D (c.derive P).2 := by
  obtain ⟨hfrontier, hvalid⟩ := yields_frontier c.walked h.walked
  obtain ⟨hmembers, hvalid'⟩ := yields_membersIn (m := c.p.membership) none _ hvalid
  have hvalue : (c.derive P).1 = derivedOf P c.p.membership :=
    congrArg₂ (Derived.of P c.p.membership) hfrontier hmembers
  refine ⟨hvalue, (h.walk hvalid').walked, fun d hd => ?_, (h.walk hvalid').authz⟩
  obtain rfl : (c.derive P).1 = d := Option.some.inj hd
  exact ⟨now_past ⟨rfl, rfl⟩, fun _ => hvalue⟩

theorem Fresh.view (h : Fresh P D c) :
    (c.view P).1 = derivedOf P c.p.membership ∧ Fresh P D (c.view P).2 := by
  unfold Cached.view
  cases hd : c.derived with
  | none => exact h.derive
  | some d =>
      by_cases hstale : d.epoch ≠ c.p.dag.epoch ∨ d.guilty ≠ c.p.guilty.size
      · simp only [if_pos hstale]
        exact h.derive
      · simp only [if_neg hstale]
        rw [not_or, not_not, not_not] at hstale
        exact ⟨(h.derived d hd).2 hstale, h⟩

/-- An operation that is not stored is judged by the roster that its dependency list spans. -/
theorem membersBefore_eq {op : Op} (habsent : ¬m.dag.contains (op.oid P)) :
    m.membersBefore P op = rosterOf m op.deps := by
  rw [Membership.membersBefore, pastOf_eq habsent, rosterOf]

theorem lookup_mem {α β : Type} [BEq α] [LawfulBEq α] {key : α} {value : β} {entries : List (α × β)}
    (h : entries.lookup key = some value) : (key, value) ∈ entries := by
  obtain ⟨before, after, rfl, -⟩ := List.lookup_eq_some_iff.mp h
  simp

theorem Fresh.authorised (h : Fresh P D c) (hD : Set.InjOn (Cached.authzDigest P) D) {op : Op}
    (hdeps : op.deps ∈ D) (habsent : ¬c.p.dag.contains (op.oid P)) :
    (c.authorised P op).1 = c.p.membership.authorised P op ∧ Fresh P D (c.authorised P op).2 := by
  have hbefore : c.p.membership.membersBefore P op = rosterOf c.p.membership op.deps :=
    membersBefore_eq habsent
  unfold Cached.authorised
  simp only [memberDecide_eq]
  rw [Membership.authorised, hbefore]
  split
  · rename_i roster hhit
    obtain ⟨-, deps, hmem, hdigest, hfresh⟩ := h.authz _ _ (lookup_mem hhit)
    rw [hfresh ⟨rfl, rfl⟩, ← hD hdeps hmem hdigest]
    exact ⟨rfl, h⟩
  · obtain ⟨hvalue, hvalid⟩ := yields_membersBefore (P := P) (m := c.p.membership) op _ h.walked
    rw [hbefore] at hvalue
    refine ⟨congrArg (decideOp op · c.p.dag) hvalue, hvalid, h.derived, fun key roster hentry => ?_⟩
    rcases List.mem_cons.mp hentry with heq | hold
    · cases heq
      exact ⟨now_past ⟨rfl, rfl⟩, op.deps, hdeps, rfl, fun _ => hvalue⟩
    · split_ifs at hold
      · exact nomatch hold
      · exact h.authz key roster hold

theorem Fresh.step {c' : Cached} (hD : Set.InjOn (Cached.authzDigest P) D) (h : Fresh P D c)
    (hstep : CachedStep P D c c') : Fresh P D c' := by
  cases hstep with
  | kept heffect hdag => exact h.effect heffect (hdag ▸ h.walked)
  | inserted heffect hadd => exact h.effect heffect valid_empty
  | ancestors oid => exact (h.ancestors oid).2
  | view => exact h.view.2
  | authorised hdeps habsent => exact (h.authorised hD hdeps habsent).2

theorem CachedReach.fresh (hD : Set.InjOn (Cached.authzDigest P) D) (h : CachedReach P D c) :
    Fresh P D c := by
  obtain ⟨p, hsteps⟩ := h
  induction hsteps with
  | refl => exact fresh_new p
  | tail _ hstep ih => exact ih.step hD hstep

end Fresh

/-- The caches are transparent: however updates and queries interleave, the roster, the frontier,
the version, the verdict on an operation that is not stored and the causal past of an operation are
those of a fresh evaluation, and the cached participant can take every run of the participant. -/
theorem caches_transparent {P : Primitives} {D : Set OidSet}
    (hD : Set.InjOn (Cached.authzDigest P) D) {c : Cached} (hreach : CachedReach P D c) :
    (∀ src rep p, Steps P src rep c.p p → ∃ c', CachedSteps P D c c' ∧ c'.p = p) ∧
      c.members P = c.p.membership.members ∧
      c.frontier P = KeySchedule.frontier c.p.dag ∧
      c.version P = versionOf P (KeySchedule.frontier c.p.dag) (c.p.membership.root P) ∧
      (∀ op : Op, op.deps ∈ D → ¬c.p.dag.contains (op.oid P) →
        (c.authorised P op).1 = c.p.membership.authorised P op) ∧
      ∀ oid, (c.ancestors oid).1 = c.p.dag.ancestors oid := by
  have hfresh := hreach.fresh hD
  have hview := hfresh.view.1
  refine ⟨fun _ _ _ hsteps => steps_lift c hsteps, congrArg Derived.members hview,
    congrArg Derived.frontier hview, congrArg Derived.version hview, ?_, ?_⟩
  · intro op hdeps habsent
    exact (hfresh.authorised hD hdeps habsent).1
  · intro oid
    exact (hfresh.ancestors oid).1

theorem view_participant (P : Primitives) (c : Cached) : (c.view P).2.p = c.p := by
  unfold Cached.view
  split
  · split_ifs <;> rfl
  · rfl

theorem authorised_participant (P : Primitives) (c : Cached) (op : Op) :
    (c.authorised P op).2.p = c.p := by
  unfold Cached.authorised
  simp only
  split <;> rfl

/-- The participant that has judged an operation and looked at its roster once. -/
def asked (P : Primitives) (p : Participant) (op : Op) : Cached :=
  (((Cached.new p).authorised P op).2.view P).2

theorem asked_participant (P : Primitives) (p : Participant) (op : Op) : (asked P p op).p = p := by
  rw [asked, view_participant, authorised_participant]
  rfl

theorem asked_reach {P : Primitives} {p : Participant} {op : Op}
    (habsent : ¬p.dag.contains (op.oid P)) : CachedReach P {op.deps} (asked P p op) :=
  ⟨p, (ReflTransGen.single (.authorised rfl habsent)).tail .view⟩

/-- The theorem at a participant that is asked twice: verdict and roster are those of a fresh
evaluation. -/
theorem asked_transparent :
    Reachable toy unaware ∧ (asked toy unaware sequel).p = unaware ∧
      (asked toy unaware sequel).members toy =
        (asked toy unaware sequel).p.membership.members ∧
      ((asked toy unaware sequel).authorised toy sequel).1 =
        (asked toy unaware sequel).p.membership.authorised toy sequel := by
  have hsame := asked_participant toy unaware sequel
  have habsent : ¬unaware.dag.contains (sequel.oid toy) := unaware_aware_checks.1.2.2.1
  have hD := Set.injOn_singleton (Cached.authzDigest toy) sequel.deps
  obtain ⟨-, hmembers, -, -, hauthorised, -⟩ := caches_transparent hD (asked_reach habsent)
  refine ⟨unaware_reachable, hsame, hmembers, hauthorised sequel rfl ?_⟩
  rw [hsame]
  exact habsent

end CausalFrontierRatchet.Caches
