import CausalFrontierRatchet.Authorisation
import CausalFrontierRatchet.ContributionLedger
import CausalFrontierRatchet.SliceSealing

/-!
What a contribution does to the frontier.  It depends on all heads, so it follows everything that is
stored and is the only node of the frontier afterwards; and its key is the last one inserted, so it
is held.  It is chained to the nodes of the old frontier whose keys are held.
-/

namespace CausalFrontierRatchet.FrontierCollapse

open Relation Crypto Operation OperationGraph KeySchedule
open Messages Commands Member MemberSteps MemberRuns MemberActions Ingest Intake FrontierKeys
open SliceSealing ContributionLedger Authorisation

variable {P : Primitives} {p p' : Participant}

/-- A contribution on top of all heads is the only node of the frontier. -/
theorem frontier_on_heads {dag dag' : Dag} {op : Op} (hadd : Added P dag op dag')
    (hsound : Sound P dag) (hdeps : op.deps = dag.heads) (hkind : op.kind = .contrib) :
    frontier dag' = .ofList [op.oid P] := by
  have hself : Contribution dag' (op.oid P) := ⟨op, by rw [hadd.get, if_pos rfl], hkind⟩
  have hafter : ∀ a, dag.contains a → Before dag' a (op.oid P) := by
    intro a ha
    obtain ⟨head, hhead, hpath⟩ := hsound.exists_head ha
    have hparent : Parent dag' head (op.oid P) :=
      hadd.parent.mpr (Or.inl ⟨rfl, by rw [hdeps]; exact hhead, (mem_heads.mp hhead).1⟩)
    rcases reflTransGen_iff_eq_or_transGen.mp hpath with rfl | hbefore
    · exact .single hparent
    · exact (hadd.before_mono hsound hbefore).tail hparent
  have hsound' := hsound.added hadd
  refine Std.ExtTreeSet.ext_mem fun o => ?_
  rw [mem_frontier, Std.ExtTreeSet.mem_ofList, List.contains_iff_mem, List.mem_singleton]
  constructor
  · rintro ⟨⟨op', hget, -⟩, hlast⟩
    by_contra hne
    refine hlast _ hself (hafter o ?_)
    rw [hadd.get, if_neg (Ne.symm hne)] at hget
    exact contains_iff.mpr ⟨op', hget⟩
  · rintro rfl
    refine ⟨hself, fun n ⟨op', hget, _⟩ hbefore => ?_⟩
    -- Nothing lies behind the new node but itself.
    by_cases hn : op.oid P = n
    · subst hn
      exact hsound'.before_irrefl _ hbefore
    · rw [hadd.get, if_neg hn] at hget
      have hold := (hadd.before_iff hsound (contains_iff.mpr ⟨op', hget⟩)).mp hbefore
      exact hadd.ne_of_contains (hsound.before hold).1 rfl

/-! ## Signed operations are stored -/

section Filing

variable (P) in
/-- Unless the graph is full, the identifier of every signed operation is in it. -/
def Filed (p : Participant) : Prop :=
  MAX_OPS ≤ p.dag.ops.size ∨ ∀ op ∈ p.signed, p.dag.contains (op.oid P)

theorem Filed.grows (h : Filed P p) (hsigned : p'.signed = p.signed)
    (hsize : p.dag.ops.size ≤ p'.dag.ops.size)
    (hcontains : ∀ o, p.dag.contains o → p'.dag.contains o) : Filed P p' := by
  refine h.imp (fun hfull => Nat.le_trans hfull hsize) fun hall op hop => ?_
  rw [hsigned] at hop
  exact hcontains _ (hall op hop)

theorem Filed.added (h : Filed P p) {op : Op} {dag : Dag} (hadd : Added P p.dag op dag) :
    Filed P { p with dag } :=
  h.grows rfl (by rw [hadd.size]; exact Nat.le_succ _) fun o ho => hadd.contains.mpr (Or.inr ho)

theorem Filed.published (h : Filed P p) (body : Body) : Filed P (published P p body) := by
  unfold MemberActions.published Filed
  rcases add_cases (P := P) p.dag (p.sign P body) with ⟨e, he⟩ | ⟨hold, hrun⟩ | ⟨dag, hadd, hrun⟩
  · left
    rw [he]
    exact add_full (congrArg Prod.fst he)
  · rw [hrun]
    refine h.imp_right fun hall op hop => ?_
    rcases List.mem_cons.mp hop with rfl | hop
    · exact hold
    · exact hall op hop
  · rw [hrun]
    refine (h.added hadd).imp_right fun hall op hop => ?_
    rcases List.mem_cons.mp hop with rfl | hop
    · exact hadd.contains.mpr (Or.inl rfl)
    · exact hall op hop

theorem filed_lasting : Lasting P (Filed P) where
  silent _ _ h hq := hq.grows h.signed (by rw [h.dag]) fun o ho => by rwa [h.dag]
  published _ body hq := hq.published body
  convicted _ _ hq := hq
  added _ _ _ hq h := hq.added h.added
  pending _ _ hq := hq

variable {src : Op → Prop} {rep : Oid → Secret → Prop}

theorem reach_filed (h : Reach P src rep p) : Filed P p :=
  (filed_lasting.reach (fun _ _ _ _ _ _ => Or.inr fun _ hop => absurd hop List.not_mem_nil) h).2

variable (P) in
/-- What was absorbed is a signed or stored operation or came with a key from outside. -/
def Sourced (rep : Oid → Secret → Prop) (p : Participant) : Prop :=
  ∀ n ∈ p.absorbed, p.dag.contains n ∨ (∃ op ∈ p.signed, op.oid P = n) ∨ ∃ key, rep n key

theorem reach_sourced (h : Reach P src rep p) : Sourced P rep p := by
  apply h.invariant
  · exact fun _ _ _ _ _ _ n hn => absurd hn Std.ExtTreeSet.not_mem_empty
  · intro q q' hupdate hq n hn
    cases hupdate with
    | signed body =>
        exact (hq n hn).imp_right (Or.imp_left fun ⟨op, hop, heq⟩ =>
          ⟨op, List.mem_cons_of_mem _ hop, heq⟩)
    | own _ _ hadd => exact (hq n hn).imp_left fun h => hadd.contains.mpr (Or.inr h)
    | stored _ _ _ _ _ hadd => exact (hq n hn).imp_left fun h => hadd.contains.mpr (Or.inr h)
    | @absorbed op _ _ _ _ _ _ _ hheld _ _ _ _ =>
        rcases Std.ExtTreeSet.mem_insert.mp hn with heq | hold
        · obtain rfl := Std.compare_eq_iff_eq.mp heq
          rcases hheld with hget | hsigned
          · exact Or.inl (contains_iff.mpr ⟨op, hget⟩)
          · exact Or.inr (Or.inl ⟨op, hsigned, rfl⟩)
        · exact hq n hold
    | @repaired oid key hrep =>
        rcases Std.ExtTreeSet.mem_insert.mp hn with heq | hold
        · obtain rfl := Std.compare_eq_iff_eq.mp heq
          exact Or.inr (Or.inr ⟨key, hrep⟩)
        · exact hq n hold
    | _ => exact hq n hn

end Filing

/-! ## Contributions -/

section Contributions

theorem mem_chainableParents {n : Oid} : n ∈ p.chainableParents p.members ↔ n ∈ p.frontier ∧
    (p.nodekeys.contains n ∨ ∀ op, p.dag.get n = some op → op.author ∈ p.members) := by
  unfold Participant.chainableParents
  cases hget : p.dag.get n with
  | none => simp [Std.ExtTreeSet.mem_filter, hget]
  | some op => simp [Std.ExtTreeSet.mem_filter, hget]

/-- A contribution whose parents' keys are held is absorbed by its author. -/
theorem absorb_own {op : Op} {x : Secret} {cparents : OidSet} {recips : List SigPublic}
    {slices : List Slice} {view : BitVec 256}
    (hbody : op.body = .contrib (commitment P x) cparents recips slices view)
    (hheld : ∀ n ∈ cparents, p.nodekeys.contains n) (hnew : op.oid P ∉ p.absorbed)
    (h : absorb P op x p = (.ok (), p')) :
    ∃ key, p'.nodekeys = p.nodekeys.insert (op.oid P) key := by
  have hfresh : p.absorbed.contains (op.oid P) = false := by
    rw [← Bool.not_eq_true, Std.ExtTreeSet.contains_iff_mem]
    exact hnew
  obtain ⟨parent, hparent⟩ := Option.isSome_iff_exists.mp (combine_isSome_iff.mpr hheld)
  unfold absorb at h
  simp only [hbody] at h
  rw [bind_run, get_run] at h
  simp only [hfresh, Bool.false_eq_true, if_false, ne_eq, not_true, hparent] at h
  split_ifs at h
  · cases h
    exact ⟨_, rfl⟩
  · cases h
    exact ⟨_, rfl⟩

/-- What a published contribution consists of, and what it does to the graph and the keys. -/
theorem contributeTo_collapses {recips : List SigPublic} {out : List Outbound}
    (h : contributeTo P p.members recips p = (.ok out, p')) :
    (∀ n ∈ p.chainableParents p.members, p.nodekeys.contains n) ∧ p.dag.ops.size < MAX_OPS ∧
    ∃ op x slices, out = [.broadcast (.op op)] ∧
      op = p.sign P (.contrib (commitment P x) (p.chainableParents p.members) recips slices
        (p.root P)) ∧
      (p.dag.contains (op.oid P) ∨ Added P p.dag op p'.dag) ∧
      (op.oid P ∉ p.absorbed → ∃ key, p'.nodekeys = p.nodekeys.insert (op.oid P) key) := by
  unfold contributeTo at h
  obtain ⟨_, _, hget, h⟩ := bind_ok h
  cases hget
  dsimp only at h
  split_ifs at h with hunchained
  · cases h
  have hheld : ∀ n ∈ p.chainableParents p.members, p.nodekeys.contains n := by
    intro n hn
    have hchained : (p.nodekeys.combine (p.chainableParents p.members)).isSome := by
      by_contra hnone
      refine hunchained ?_
      rw [Bool.and_eq_true, Bool.not_eq_true', ← Bool.not_eq_true, Std.ExtTreeSet.isEmpty_iff]
      refine ⟨fun hempty => ?_, by simpa using hnone⟩
      rw [hempty] at hn
      exact Std.ExtTreeSet.not_mem_empty hn
    exact combine_isSome_iff.mp hchained n hn
  obtain ⟨x, p₁, hdraw, h⟩ := bind_ok h
  obtain ⟨slices, p₂, hseal, h⟩ := bind_ok h
  obtain ⟨op, p₃, hpublish, h⟩ := bind_ok h
  obtain ⟨_, p₄, habsorb, h⟩ := bind_ok h
  obtain ⟨_, p₅, hnote, h⟩ := bind_ok h
  cases h
  cases hnote
  obtain ⟨rest, -, rfl⟩ := draw_ok hdraw
  have hframe := (sealSlices_frame hseal).1
  have hroom := room_of_publish hpublish
  obtain ⟨hop, dag, hp₃, hdag⟩ := publish_ok hpublish
  rw [hframe] at hop hroom hdag
  have hnodekeys : p₃.nodekeys = p.nodekeys := by rw [hp₃, hframe]
  have habsorbed : p₃.absorbed = p.absorbed := by rw [hp₃, hframe]
  have hkept : p₄.dag = dag := by rw [((absorb_silent op x).run habsorb).dag, hp₃]
  refine ⟨hheld, hroom, op, x, slices, rfl, hop, ?_, fun hnew => ?_⟩
  · refine hdag.imp And.left fun hadd => ?_
    change Added P p.dag op p₄.dag
    rw [hkept]
    exact hadd
  · have hkey := absorb_own (p := p₃) (by rw [hop]; rfl) (by rwa [hnodekeys])
      (by rwa [habsorbed]) habsorb
    rwa [hnodekeys] at hkey

/-- A participant that has contributed has a fresh identifier for it, if identifiers do not collide
and nobody has sent a key for it beforehand. -/
theorem contribution_fresh {rep : Oid → Secret → Prop} {body : Body}
    (hp : Reach P (fun _ => True) rep p) (hroom : p.dag.ops.size < MAX_OPS)
    (hunique : ∀ op', p.dag.get ((p.sign P body).oid P) = some op' → op' = p.sign P body)
    (hunforeseen : ∀ key, ¬rep ((p.sign P body).oid P) key) :
    ¬p.dag.contains ((p.sign P body).oid P) ∧ (p.sign P body).oid P ∉ p.absorbed := by
  have hwell := hp.wellformed
  have habsent : ¬p.dag.contains ((p.sign P body).oid P) := by
    intro hcontains
    obtain ⟨op', hget⟩ := contains_iff.mp hcontains
    rw [hunique op' hget] at hget
    exact sign_absent hwell.sound hwell.complete body hget
  refine ⟨habsent, fun habsorbed => ?_⟩
  have hfiled := (reach_filed hp).resolve_left (Nat.not_le.mpr hroom)
  rcases reach_sourced hp _ habsorbed with hstored | ⟨op', hop', heq⟩ | ⟨key, hkey⟩
  · exact habsent hstored
  · rw [← heq] at habsent
    exact habsent (hfiled op' hop')
  · exact hunforeseen key hkey

end Contributions

/-- After a contribution the frontier is that contribution and the group key can be derived.  Its
parents are the nodes of the frontier before it whose keys are held; any other node of that frontier
is by an author who is no longer a member, and its key is not held. -/
theorem contribution_collapses_frontier {P : Primitives} {rep : Oid → Secret → Prop}
    {p p' : Participant} {exclude : Roster} {op : Op} (hp : Reach P (fun _ => True) rep p)
    (hrun : contributeExcluding P exclude p = (.ok [.broadcast (.op op)], p'))
    (hkind : op.kind = .contrib)
    (hunique : ∀ op', p.dag.get (op.oid P) = some op' → op' = op)
    (hunforeseen : ∀ key, ¬rep (op.oid P) key) :
    p'.frontier = .ofList [op.oid P] ∧ (p'.groupKey P).isSome ∧
      ∃ cid cparents recips slices view, op.body = .contrib cid cparents recips slices view ∧
        (∀ n ∈ cparents, n ∈ p.frontier ∧ p.nodekeys.contains n) ∧
        ∀ n ∈ p.frontier, n ∉ cparents → ¬p.nodekeys.contains n ∧
          ∃ op', p.dag.get n = some op' ∧ op'.author ∉ p.members := by
  unfold contributeExcluding at hrun
  obtain ⟨_, _, hget, hrun⟩ := bind_ok hrun
  cases hget
  dsimp only at hrun
  split_ifs at hrun
  · cases hrun
  · cases hrun
  · obtain ⟨request, p₁, hpublish, hrun⟩ := bind_ok hrun
    cases hrun
    rw [(publish_ok hpublish).1] at hkind
    cases hkind
  obtain ⟨hheld, hroom, op', x, slices, hout, hop, hdag, hkey⟩ := contributeTo_collapses hrun
  obtain rfl : op = op' := by simpa [Outbound.broadcast] using hout
  have hfresh := contribution_fresh hp hroom (by rwa [← hop]) (by rwa [← hop])
  rw [← hop] at hfresh
  have hadd := hdag.resolve_left hfresh.1
  have hfrontier : p'.frontier = .ofList [op.oid P] :=
    frontier_on_heads hadd hp.wellformed.sound (by rw [hop]; rfl) hkind
  refine ⟨hfrontier, groupKey_isSome fun n hn => ?_, _, _, _, _, _, by rw [hop]; rfl, ?_, ?_⟩
  · -- The key inserted last is not the one that is dropped.
    rw [hfrontier, Std.ExtTreeSet.mem_ofList, List.contains_iff_mem, List.mem_singleton] at hn
    obtain ⟨key, hinsert⟩ := hkey hfresh.2
    have hstocked := Reach.stocked hp
    rw [hinsert, hn, hstocked.1.contains_insert_iff (by rw [hstocked.2]; decide)]
    exact Or.inl rfl
  · exact fun n hn => ⟨(mem_chainableParents.mp hn).1, hheld n hn⟩
  · intro n hn homitted
    rw [mem_chainableParents, not_and, not_or] at homitted
    obtain ⟨hmissing, hauthor⟩ := homitted hn
    push Not at hauthor
    exact ⟨hmissing, hauthor⟩

/-- The operation that is sent and nothing else. -/
def sole : List Outbound → Option Op
  | [.broadcast (.op op)] => some op
  | _ => none

theorem sole_eq_some {out : List Outbound} {op : Op} :
    sole out = some op ↔ out = [.broadcast (.op op)] := by
  unfold sole
  split
  · simp [Outbound.broadcast]
  · rename_i hother
    simp only [reduceCtorEq, false_iff]
    exact fun heq => hother op heq

/-- A founder contributes alone. -/
theorem opener_collapses : ∃ op p', contributeExcluding toy ∅ opener =
      (.ok [.broadcast (.op op)], p') ∧ op.kind = .contrib ∧ opener.frontier.size = 1 ∧
      p'.frontier = .ofList [op.oid toy] ∧ (p'.groupKey toy).isSome := by
  have hchecks : ((contributeExcluding toy ∅ opener).1.toOption.bind sole).any (fun op =>
        op.kind = .contrib ∧ !opener.dag.contains (op.oid toy)) ∧ opener.frontier.size = 1 := by
    decide +kernel
  obtain ⟨hchecks, hsize⟩ := hchecks
  rcases hrun : contributeExcluding toy ∅ opener with ⟨e | out, p'⟩
  · rw [hrun] at hchecks
    cases hchecks
  · rw [hrun] at hchecks
    obtain ⟨op, hsole, hchecks⟩ := (Option.any_eq_true _ _).mp hchecks
    obtain rfl := sole_eq_some.mp hsole
    obtain ⟨hkind, habsent⟩ := of_decide_eq_true hchecks
    rw [Bool.not_eq_true'] at habsent
    have hunique : ∀ op', opener.dag.get (op.oid toy) = some op' → op' = op := by
      intro op' hget
      rw [contains_iff.mpr ⟨op', hget⟩] at habsent
      cases habsent
    have hreach : Reach toy (fun _ => True) (fun oid _ => oid ≠ op.oid toy) opener :=
      ⟨opener, opener_start, .start⟩
    have hcollapse := contribution_collapses_frontier hreach hrun hkind hunique
      fun _ hne => hne rfl
    exact ⟨op, p', rfl, hkind, hsize, hcollapse.1, hcollapse.2.1⟩

end CausalFrontierRatchet.FrontierCollapse
