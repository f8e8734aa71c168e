import CausalFrontierRatchet.MemberRuns

/-!
The outcomes of ingesting one operation, each with the checks that led to it.
-/

namespace CausalFrontierRatchet.Ingest

open Relation Crypto Tlv Operation OperationGraph Messages
open Commands Member MemberSteps

/-- The operation passes every check and there is room for it. -/
structure Accepts (P : Primitives) (p : Participant) (op : Op) (dag : Dag) : Prop where
  sid : op.sid = p.sid
  verified : op.verify P = .ok ()
  deps : p.depsAvailable op
  authorised : p.authorised P op
  added : Added P p.dag op dag

inductive Outcome (P : Primitives) (p : Participant) (op : Op) :
    Except Error (List Outbound) × Participant → Prop
  | invalid {e : Error} (h : ¬(op.sid = p.sid ∧ op.verify P = .ok ())) : Outcome P p op (.error e, p)
  | known (h : p.dag.contains (op.oid P)) : Outcome P p op (.ok [], p)
  | waiting (hsid : op.sid = p.sid) (hsig : op.verify P = .ok ())
      (hnew : ¬p.dag.contains (op.oid P)) (hdeps : ¬p.depsAvailable op) :
      Outcome P p op (.ok [], (park op p).2)
  | unauthorised (hdeps : p.depsAvailable op) (hauth : ¬p.authorised P op) :
      Outcome P p op (.error .notAMember, p)
  | full {e : Error} (h : MAX_OPS ≤ p.dag.ops.size) : Outcome P p op (.error e, p)
  | stored {dag : Dag} (h : Accepts P p op dag) : Outcome P p op (applyOp P op { p with dag })

variable {P : Primitives} {p : Participant}

theorem add_full {dag : Dag} {op : Op} {e : Error} (h : (dag.add P op).1 = .error e) :
    MAX_OPS ≤ dag.ops.size := by
  by_contra hroom
  rw [Dag.add, if_neg hroom] at h
  dsimp only at h
  split at h <;> cases h

/-- With no accusation parked, nothing is left to retry after the effects of a new operation. -/
theorem apply_retry (hp : Steady P p) {op : Op}
    (hheld : p.dag.get (op.oid P) = some op) :
    (do
      let out ← applyOp P op
      retryAccusations P
      pure out : Act (List Outbound)) p = applyOp P op p := by
  have hmoves : Moves (Steps P (fun _ => True) fun _ _ => True) (applyOp P op) p :=
    applyOp_moves hp hheld
  have hafter : Steady P (applyOp P op p).2 := Steps.steady hmoves hp
  rw [bind_run]
  rcases happly : applyOp P op p with ⟨e | out, p'⟩
  · rfl
  · rw [happly] at hafter
    have hretry : retryAccusations P p' = (.ok (), p') := by
      change (Except.ok (), p'.openAccusations.foldl _ { p' with openAccusations := [] }) = _
      rw [hafter.parked]
      change (Except.ok (), { p' with openAccusations := [] }) = _
      rw [← hafter.parked]
    change (retryAccusations P >>= fun _ => pure out) p' = _
    rw [bind_run, hretry]
    rfl

theorem ingest_outcome (hp : Steady P p) (op : Op) :
    Outcome P p op (ingest P op p) := by
  unfold ingest
  rw [bind_run, get_run]
  dsimp only
  by_cases hsid : op.sid = p.sid
  swap
  · rw [if_pos hsid]
    exact .invalid fun h => hsid h.1
  rw [if_neg (not_not.mpr hsid)]
  cases hsig : op.verify P with
  | error e => exact .invalid fun h => by rw [h.2] at hsig; cases hsig
  | ok u =>
      change Outcome P p op ((if p.dag.contains (op.oid P) then _ else _ : Act (List Outbound)) p)
      by_cases hold : p.dag.contains (op.oid P)
      · rw [if_pos hold]
        exact .known hold
      rw [if_neg hold]
      by_cases hdeps : p.depsAvailable op
      swap
      · rw [if_pos (by simpa using hdeps)]
        exact .waiting hsid hsig hold hdeps
      rw [if_neg (by simpa using hdeps)]
      by_cases hauth : p.authorised P op
      swap
      · rw [if_pos (by simpa using hauth)]
        exact .unauthorised hdeps hauth
      rw [if_neg (by simpa using hauth), bind_run, addOp_run]
      rcases add_cases (P := P) p.dag op with ⟨e, he⟩ | ⟨hstored, -⟩ | ⟨dag, hadd, hrun⟩
      · rw [he]
        exact .full (add_full (congrArg Prod.fst he))
      · exact absurd hstored hold
      · rw [hrun]
        have hheld : dag.get (op.oid P) = some op := by rw [hadd.get, if_pos rfl]
        have hafter : Steady P { p with dag } := ⟨hp.sound.added hadd, hp.parked⟩
        dsimp only
        rw [apply_retry hafter hheld]
        exact .stored ⟨hsid, hsig, hdeps, hauth, hadd⟩

end CausalFrontierRatchet.Ingest
