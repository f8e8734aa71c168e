import CausalFrontierRatchet.Authorisation
import CausalFrontierRatchet.Ingest
import CausalFrontierRatchet.MessageCodec
import CausalFrontierRatchet.TopologicalOrder

/-!
Anti-entropy between two participants.  A responder computes from the advertised heads the
operations that the requester may lack and lists them after their dependencies; a receiver that
authorises them ends with all of them and buffers none.
-/

namespace CausalFrontierRatchet.AntiEntropy

open Relation Crypto Operation OperationGraph Messages Commands
open Member MemberSteps MemberRuns Ingest TopologicalOrder

/-! ## What a responder computes -/

section Responder

variable {P : Primitives} {q : Participant} {heads : List Oid}

/-- The operations that the advertised heads do not imply, after their dependencies. -/
def lacking (q : Participant) (heads : List Oid) : List Op :=
  (q.dag.topological.filter fun o => !(q.dag.causalClosure heads).contains o).filterMap
    fun o => q.dag.get o

theorem answerSync_eq {sender : SigPublic} (hsender : sender ∈ q.members) :
    answerSync q sender heads =
      (if (lacking q heads).isEmpty then [] else [.direct sender (.deliver (lacking q heads) [])]) ++
        if heads.any fun head => !q.dag.contains head then
          [.direct sender (.sync q.ipk q.dag.heads.toList)] else [] := by
  rw [answerSync, if_neg (by simpa [← Std.ExtTreeSet.contains_iff_mem] using hsender)]
  rfl

theorem mem_lacking (hq : Sound P q.dag) {op : Op} :
    op ∈ lacking q heads ↔ q.dag.get (op.oid P) = some op ∧
      ∀ h ∈ heads, q.dag.contains h → op.oid P ≠ h ∧ ¬Before q.dag (op.oid P) h := by
  have hclosure : ∀ o, (!(q.dag.causalClosure heads).contains o) = true ↔
      ∀ h ∈ heads, q.dag.contains h → o ≠ h ∧ ¬Before q.dag o h := by
    intro o
    rw [Bool.not_eq_true', ← Bool.not_eq_true, Std.ExtTreeSet.contains_iff_mem, mem_causalClosure]
    simp only [not_exists, not_and, not_or, ne_eq]
  simp only [lacking, List.mem_filterMap, List.mem_filter, (topological_spec hq.causal).2.2, hclosure]
  constructor
  · intro ⟨o, ⟨_, hpast⟩, hget⟩
    have hkey := hq.keyed hget
    subst hkey
    exact ⟨hget, hpast⟩
  · intro ⟨hget, hpast⟩
    exact ⟨op.oid P, ⟨contains_iff.mpr ⟨op, hget⟩, hpast⟩, hget⟩

/-- Where an entry of a filtered list comes from. -/
theorem split_filterMap_filter {keep : Oid → Bool} {get : Oid → Option Op} {list : List Oid}
    {pre post : List Op} {op : Op} (h : (list.filter keep).filterMap get = pre ++ op :: post) :
    ∃ before o after, list = before ++ o :: after ∧ get o = some op ∧
      (before.filter keep).filterMap get = pre := by
  induction list generalizing pre with
  | nil => simp at h
  | cons x list ih =>
      -- The first element either disappears from every such list or becomes its head.
      have hfirst : (∀ l, ((x :: l).filter keep).filterMap get = (l.filter keep).filterMap get) ∨
          ∃ y, get x = some y ∧
            ∀ l, ((x :: l).filter keep).filterMap get = y :: (l.filter keep).filterMap get := by
        cases hkeep : keep x with
        | false => exact Or.inl fun l => by simp [hkeep]
        | true =>
            cases hget : get x with
            | none => exact Or.inl fun l => by simp [hkeep, hget]
            | some y => exact Or.inr ⟨y, rfl, fun l => by simp [hkeep, hget]⟩
      rcases hfirst with hdrop | ⟨y, hget, hcons⟩
      · rw [hdrop] at h
        obtain ⟨before, o, after, rfl, ho, hbefore⟩ := ih h
        exact ⟨x :: before, o, after, rfl, ho, by rw [hdrop, hbefore]⟩
      · rw [hcons] at h
        cases pre with
        | nil =>
            cases h
            exact ⟨[], x, list, rfl, hget, rfl⟩
        | cons first pre =>
            rw [List.cons_append, List.cons.injEq] at h
            obtain ⟨before, o, after, rfl, ho, hbefore⟩ := ih h.2
            exact ⟨x :: before, o, after, rfl, ho, by rw [hcons, hbefore, h.1]⟩

/-- Each listed operation stands after those of its dependencies that the heads do not imply. -/
theorem lacking_follows (hq : Wellformed P q) {pre post : List Op} {op : Op}
    (hsplit : lacking q heads = pre ++ op :: post) {d : Oid} (hd : d ∈ op.deps) :
    d ∈ q.dag.causalClosure heads ∨ ∃ dep ∈ pre, dep.oid P = d := by
  obtain ⟨before, o, after, hlist, hget, hbefore⟩ := split_filterMap_filter hsplit
  have hparent := hq.complete hget d hd
  have hlisted := (topological_spec hq.sound.causal).2.1 before o after hlist d hparent
  by_cases hclosure : d ∈ q.dag.causalClosure heads
  · exact Or.inl hclosure
  · obtain ⟨dep, hdep⟩ := contains_iff.mp (hq.sound.parent hparent).1
    refine Or.inr ⟨dep, ?_, hq.sound.keyed hdep⟩
    rw [← hbefore, List.mem_filterMap]
    exact ⟨d, List.mem_filter.mpr ⟨hlisted, by
      simpa [← Std.ExtTreeSet.contains_iff_mem] using hclosure⟩, hdep⟩

end Responder

/-! ## What a receiver takes in -/

section Receiver

variable {P : Primitives} {p p' q : Participant}

/-- Signatures made with a key verify under its public key. -/
def SignsCorrectly (P : Primitives) : Prop :=
  ∀ key msg, P.ed25519Verify (P.ed25519Public key) msg (P.ed25519Sign key msg)

/-- Every stored operation belongs to the session and carries a valid signature. -/
structure Authentic (P : Primitives) (p : Participant) : Prop where
  wellformed : Wellformed P p
  sid : ∀ o op, p.dag.get o = some op → op.sid = p.sid
  verified : ∀ o op, p.dag.get o = some op → op.verify P = .ok ()

theorem Authentic.update (hsig : SignsCorrectly P) {src : Op → Prop} {rep : Oid → Secret → Prop}
    (h : Authentic P p) (hupdate : Update P src rep p p') : Authentic P p' := by
  have hadded : ∀ {op dag}, op.sid = p.sid → op.verify P = .ok () → Added P p.dag op dag →
      ∀ o op', dag.get o = some op' → op'.sid = p.sid ∧ op'.verify P = .ok () := by
    intro op dag hsid hverified hadd o op' hop'
    rw [hadd.get] at hop'
    split_ifs at hop' with heq
    · cases hop'
      exact ⟨hsid, hverified⟩
    · exact ⟨h.sid o op' hop', h.verified o op' hop'⟩
  have hwell := h.wellformed.update hupdate
  cases hupdate with
  | own hsigned _ hadd =>
      obtain ⟨deps, body, rfl⟩ := h.wellformed.signed _ hsigned
      have hverified : (Op.create P p.identity p.sid deps body).verify P = .ok () := by
        rw [Op.verify]
        exact if_pos (hsig _ _)
      have hall := hadded rfl hverified hadd
      exact ⟨hwell, fun o op' hop' => (hall o op' hop').1, fun o op' hop' => (hall o op' hop').2⟩
  | stored _ hsid hverified _ _ hadd =>
      have hall := hadded hsid hverified hadd
      exact ⟨hwell, fun o op' hop' => (hall o op' hop').1, fun o op' hop' => (hall o op' hop').2⟩
  | _ => exact ⟨hwell, h.sid, h.verified⟩

theorem Reach.authentic (hsig : SignsCorrectly P) {src : Op → Prop} {rep : Oid → Secret → Prop}
    (h : Reach P src rep p) : Authentic P p := by
  refine h.invariant (fun _ _ _ _ _ _ => ⟨blank_wellformed .., ?_, ?_⟩)
    fun _ _ hupdate hq => hq.update hsig hupdate
  · intro o op hop
    simp [blank, Dag.new, Dag.get] at hop
  · intro o op hop
    simp [blank, Dag.new, Dag.get] at hop

/-- An operation whose dependencies are stored and that is authorised goes in, and nothing is
buffered. -/
theorem ingest_delivered (hp : Wellformed P p) {op : Op} (hsid : op.sid = p.sid)
    (hverified : op.verify P = .ok ()) (hdeps : p.depsAvailable op)
    (hauth : ¬p.dag.contains (op.oid P) → p.authorised P op) (hroom : p.dag.ops.size < MAX_OPS) :
    (ingest P op p).2.dag.contains (op.oid P) ∧ (∀ o ∈ (ingest P op p).2.pending, o ∈ p.pending) ∧
      Steps P (· = op) (fun _ _ => False) p (ingest P op p).2 := by
  have hsame : p.dag.contains (op.oid P) → p.dag.contains (op.oid P) ∧
      (∀ o ∈ p.pending, o ∈ p.pending) ∧ Steps P (· = op) (fun _ _ => False) p p :=
    fun hold => ⟨hold, fun _ ho => ho, ReflTransGen.refl⟩
  generalize hresult : ingest P op p = result
  have houtcome := ingest_outcome ⟨hp.sound, hp.parked⟩ op
  rw [hresult] at houtcome
  cases houtcome with
  | invalid h => exact absurd ⟨hsid, hverified⟩ h
  | known hold => exact hsame hold
  | waiting _ _ _ hmissing => exact absurd hdeps hmissing
  | unauthorised _ hrefused => exact hsame (by_contra fun hnew => hrefused (hauth hnew))
  | full hfull => omega
  | @stored dag h =>
      have hheld : dag.get (op.oid P) = some op := by rw [h.added.get, if_pos rfl]
      have hstore : Update P (· = op) (fun _ _ => False) p { p with dag } :=
        .stored rfl h.sid h.verified h.deps h.authorised h.added
      have hsteady : Steady P { p with dag } := ⟨hp.sound.added h.added, hp.parked⟩
      have hquiet : Steps P (fun _ => False) (fun _ _ => False) { p with dag }
          (applyOp P op { p with dag }).2 := applyOp_moves hsteady hheld
      refine ⟨contains_iff.mpr ⟨op, hquiet.keeps hheld⟩, fun o ho => ?_,
        hstore.steps.trans (hquiet.mono (fun _ => False.elim) fun _ _ => False.elim)⟩
      exact (hquiet.pending_subset ho).resolve_right id

/-- All identifiers of a participant's graph lie in a set. -/
def Inside (p : Participant) (room : OidSet) : Prop :=
  ∀ o, p.dag.contains o → o ∈ room

theorem Inside.size_le {room : OidSet} (h : Inside p room) : p.dag.ops.size ≤ room.size := by
  have hsubset : p.dag.ops.keys ⊆ room.toList := by
    intro o ho
    rw [Std.ExtTreeSet.mem_toList]
    exact h o (Std.ExtTreeMap.contains_iff_mem.mpr (Std.ExtTreeMap.mem_keys.mp ho))
  have hlength := (List.subperm_of_subset Std.ExtTreeMap.nodup_keys hsubset).length_le
  rwa [Std.ExtTreeMap.length_keys, Std.ExtTreeSet.length_toList] at hlength

/-- What goes in comes from the source or was signed. -/
theorem Inside.steps {src : Op → Prop} {rep : Oid → Secret → Prop} {room : OidSet}
    (hp : Inside p room) (h : Steps P src rep p p') (hsrc : ∀ op, src op → op.oid P ∈ room)
    (hsigned : ∀ op ∈ p'.signed, op.oid P ∈ room) : Inside p' room := by
  induction h with
  | refl => exact hp
  | tail _ hupdate ih =>
      have hbefore := ih fun op hop => hsigned op (hupdate.signed_subset hop)
      have hadded : ∀ {q : Participant} {op : Op} {dag : Dag}, Inside q room → op.oid P ∈ room →
          Added P q.dag op dag → Inside { q with dag } room := by
        intro q op dag hq hop hadd o ho
        rcases hadd.contains.mp ho with rfl | hold
        · exact hop
        · exact hq o hold
      cases hupdate with
      | own hown _ hadd => exact hadded hbefore (hsigned _ hown) hadd
      | stored hop _ _ _ _ hadd => exact hadded hbefore (hsrc _ hop) hadd
      | _ => exact hbefore

variable (P) in
/-- Each operation of a batch is authorised when its turn comes, unless it is stored already. -/
def Authorises (p : Participant) (ops : List Op) : Prop :=
  ∀ pre op post, ops = pre ++ op :: post → ¬(ingestAll P pre p).2.dag.contains (op.oid P) →
    (ingestAll P pre p).2.authorised P op

theorem authorises_iff {ops : List Op} :
    Authorises P p ops ↔ ∀ (i : ℕ) (h : i < ops.length),
      (ingestAll P (ops.take i) p).2.dag.contains (ops[i].oid P) ∨
        (ingestAll P (ops.take i) p).2.authorised P ops[i] := by
  constructor
  · intro hauth i hi
    have hsplit : ops = ops.take i ++ ops[i] :: ops.drop (i + 1) := by
      rw [List.getElem_cons_drop, List.take_append_drop]
    exact or_iff_not_imp_left.mpr (hauth _ _ _ hsplit)
  · intro hall pre op post hsplit
    subst hsplit
    have hturn := hall pre.length (by simp)
    rw [List.take_left] at hturn
    simp only [List.getElem_append_right (Nat.le_refl _), Nat.sub_self, List.getElem_cons_zero] at hturn
    exact or_iff_not_imp_left.mp hturn

instance {ops : List Op} : Decidable (Authorises P p ops) :=
  decidable_of_iff _ authorises_iff.symm

variable (P) in
/-- Each operation of a batch stands after those of its dependencies that are not stored yet. -/
def Arranged (p : Participant) (ops : List Op) : Prop :=
  ∀ pre op post, ops = pre ++ op :: post → ∀ d ∈ op.deps,
    p.dag.contains d ∨ ∃ dep ∈ pre, dep.oid P = d

theorem ingestAll_cons (op : Op) (ops : List Op) :
    (ingestAll P (op :: ops) p).2 = (ingestAll P ops (ingest P op p).2).2 := by
  rw [ingestAll, bind_run, attempt_run]
  dsimp only
  rw [bind_run]
  generalize ingestAll P ops (ingest P op p).2 = result
  obtain ⟨r, p'⟩ := result
  cases r <;> rfl

theorem Authorises.tail {op : Op} {ops : List Op} (h : Authorises P p (op :: ops)) :
    Authorises P (ingest P op p).2 ops := by
  intro pre op' post hsplit
  have hnext := h (op :: pre) op' post (by rw [hsplit, List.cons_append])
  rwa [ingestAll_cons] at hnext

/-- A batch that is arranged, authorised and within capacity goes in completely. -/
theorem ingestAll_delivered {ops : List Op} {room : OidSet} (hp : Wellformed P p)
    (hvalid : ∀ op ∈ ops, op.sid = p.sid ∧ op.verify P = .ok ()) (harranged : Arranged P p ops)
    (hauth : Authorises P p ops) (hroom : room.size < MAX_OPS) (hinside : Inside p room)
    (hops : ∀ op ∈ ops, op.oid P ∈ room)
    (hsigned : ∀ op ∈ (ingestAll P ops p).2.signed, op.oid P ∈ room) :
    (∀ op ∈ ops, (ingestAll P ops p).2.dag.contains (op.oid P)) ∧
      (∀ o ∈ (ingestAll P ops p).2.pending, o ∈ p.pending) ∧
      Steps P (· ∈ ops) (fun _ _ => False) p (ingestAll P ops p).2 := by
  induction ops generalizing p with
  | nil => exact ⟨by simp, fun o ho => ho, ReflTransGen.refl⟩
  | cons op ops ih =>
      rw [ingestAll_cons] at hsigned ⊢
      have hdeps : p.depsAvailable op := by
        refine depsAvailable_iff.mpr fun d hd => ?_
        rcases harranged [] op ops rfl d hd with hold | ⟨dep, hdep, -⟩
        · exact hold
        · simp at hdep
      obtain ⟨hstored, hpending, hsteps⟩ := ingest_delivered hp (hvalid op List.mem_cons_self).1
        (hvalid op List.mem_cons_self).2 hdeps (hauth [] op ops rfl)
        (hinside.size_le.trans_lt hroom)
      have hp₁ := hp.steps hsteps
      have hlater : Steps P (fun _ => True) (fun _ _ => False) (ingest P op p).2
          (ingestAll P ops (ingest P op p).2).2 :=
        ingestAll_moves ⟨hp₁.sound, hp₁.parked, fun _ _ => trivial⟩ fun _ _ => trivial
      have hinside₁ : Inside (ingest P op p).2 room := by
        refine hinside.steps hsteps (fun o ho => ?_) fun o ho => hsigned o (hlater.signed_subset ho)
        rw [ho]
        exact hops op List.mem_cons_self
      have harranged₁ : Arranged P (ingest P op p).2 ops := by
        intro pre op' post hsplit d hd
        rcases harranged (op :: pre) op' post (by rw [hsplit, List.cons_append]) d hd with
          hold | ⟨dep, hdep, rfl⟩
        · obtain ⟨o, ho⟩ := contains_iff.mp hold
          exact Or.inl (contains_iff.mpr ⟨o, hsteps.keeps ho⟩)
        · rcases List.mem_cons.mp hdep with rfl | hpre
          · exact Or.inl hstored
          · exact Or.inr ⟨dep, hpre, rfl⟩
      have hvalid₁ : ∀ o ∈ ops, o.sid = (ingest P op p).2.sid ∧ o.verify P = .ok () := by
        intro o ho
        rw [hsteps.sameParty.sid]
        exact hvalid o (List.mem_cons_of_mem _ ho)
      obtain ⟨hrest, hpending₁, hsteps₁⟩ := ih hp₁ hvalid₁ harranged₁ hauth.tail hinside₁
        (fun o ho => hops o (List.mem_cons_of_mem _ ho)) hsigned
      refine ⟨fun o ho => ?_, fun o ho => hpending o (hpending₁ o ho), ?_⟩
      · rcases List.mem_cons.mp ho with rfl | htail
        · obtain ⟨op', hop'⟩ := contains_iff.mp hstored
          exact contains_iff.mpr ⟨op', hsteps₁.keeps hop'⟩
        · exact hrest o htail
      · refine (hsteps.mono (fun o ho => ?_) fun _ _ => id).trans
          (hsteps₁.mono (fun o ho => List.mem_cons_of_mem _ ho) fun _ _ => id)
        exact ho ▸ List.mem_cons_self

theorem dispatch_deliver (ops : List Op) (pruned : List Oid) :
    (dispatch P (.deliver ops pruned) p).2 = (ingestAll P ops p).2 := by
  obtain ⟨out, p', hrun⟩ := ingestAll_total (P := P) ops p
  rw [dispatch, bind_run, hrun]
  rfl

end Receiver

/-! ## The exchange -/

section Exchange

variable {P : Primitives} {p p' q : Participant} {heads : List Oid}

variable (P) in
/-- The receiver after the answer to its request: nothing is sent if nothing is lacking. -/
inductive Receives (p q : Participant) (heads : List Oid) : Participant → Prop
  | nothing (h : lacking q heads = []) : Receives p q heads p
  | batch {wire : BigEndian.Bytes} {pruned : List Oid}
      (h : Message.fromWire P wire = .ok (.deliver (lacking q heads) pruned)) :
      Receives p q heads (handle P wire p).2

variable (P) in
/-- What the two hold and what the receiver signs stays below the capacity of a graph. -/
def WithinCapacity (p q p' : Participant) : Prop :=
  ∃ room : OidSet, room.size < MAX_OPS ∧ Inside p room ∧ Inside q room ∧
    ∀ op ∈ p'.signed, op.oid P ∈ room

/-- Every operation of the second participant is held by the first. -/
def HoldsAll (p q : Participant) : Prop :=
  ∀ o op, q.dag.get o = some op → p.dag.get o = some op

def StoresOnly (U : Set Op) (p : Participant) : Prop :=
  ∀ o op, p.dag.get o = some op → op ∈ U

/-- Two participants of one session whose operations have different identifiers. -/
structure Peers (P : Primitives) (U : Set Op) (p q : Participant) : Prop where
  injective : Set.InjOn (Op.oid P) U
  sid : p.sid = q.sid
  left : Authentic P p
  right : Authentic P q
  storesLeft : StoresOnly U p
  storesRight : StoresOnly U q

section Peers

variable {U : Set Op} (h : Peers P U p q)

include h

theorem Peers.same {o : Oid} {a b : Op} (ha : p.dag.get o = some a) (hb : q.dag.get o = some b) :
    a = b :=
  h.injective (h.storesLeft o a ha) (h.storesRight o b hb)
    ((h.left.wellformed.sound.keyed ha).trans (h.right.wellformed.sound.keyed hb).symm)

variable (hheads : ∀ head ∈ heads, p.dag.contains head)

include hheads

/-- A participant that holds a head holds its past. -/
theorem Peers.closure_held {o : Oid} (ho : o ∈ q.dag.causalClosure heads) : p.dag.contains o := by
  have hp := h.left.wellformed
  have hparent : ∀ {a b}, Parent q.dag a b → p.dag.contains b → p.dag.contains a := by
    intro a b hab hb
    obtain ⟨op, hop⟩ := contains_iff.mp hb
    obtain ⟨-, -, op', hop', ha⟩ := h.right.wellformed.sound.parent hab
    rw [← h.same hop hop'] at ha
    exact (hp.sound.parent (hp.complete hop a ha)).1
  obtain ⟨head, hhead, -, heq | hbefore⟩ := mem_causalClosure.mp ho
  · rw [heq]
    exact hheads head hhead
  · clear ho
    induction hbefore using TransGen.head_induction_on with
    | single hab => exact hparent hab (hheads head hhead)
    | head hac _ ih => exact hparent hac ih

/-- Whatever the receiver lacks is listed. -/
theorem Peers.mem_lacking {o : Oid} {op : Op} (hop : q.dag.get o = some op)
    (habsent : ¬p.dag.contains o) : op ∈ lacking q heads := by
  have hq := h.right.wellformed.sound
  have hkey := hq.keyed hop
  subst hkey
  refine (AntiEntropy.mem_lacking hq).mpr ⟨hop, fun head hhead hknown => ?_⟩
  have houtside : op.oid P ∉ q.dag.causalClosure heads :=
    fun hmem => habsent (h.closure_held hheads hmem)
  simp only [mem_causalClosure, not_exists, not_and, not_or] at houtside
  exact houtside head hhead hknown

theorem Peers.arranged : Arranged P p (lacking q heads) := by
  intro pre op post hsplit d hd
  exact (lacking_follows h.right.wellformed hsplit hd).imp (h.closure_held hheads) id

end Peers

/-- The receiver ends with every operation of the sender, and buffers nothing new. -/
theorem Receives.complete {U : Set Op} (h : Receives P p q heads p') (hpeers : Peers P U p q)
    (hheads : ∀ head ∈ heads, p.dag.contains head) (hauth : Authorises P p (lacking q heads))
    (hcapacity : WithinCapacity P p q p') (hstores : StoresOnly U p') :
    HoldsAll p' q ∧ HoldsAll p' p ∧ ∀ op ∈ p'.pending, op ∈ p.pending := by
  have hp := hpeers.left.wellformed
  have hq := hpeers.right.wellformed
  -- The identifiers are enough: without collisions they stand for the same operations.
  suffices hids : (∀ o, q.dag.contains o → p'.dag.contains o) ∧
      (∃ src rep, Steps P src rep p p') ∧ ∀ op ∈ p'.pending, op ∈ p.pending by
    obtain ⟨hcontains, ⟨src, rep, hsteps⟩, hpending⟩ := hids
    have hp' := hp.steps hsteps
    refine ⟨fun o op hop => ?_, fun o op hop => hsteps.keeps hop, hpending⟩
    obtain ⟨op', hop'⟩ := contains_iff.mp (hcontains o (contains_iff.mpr ⟨op, hop⟩))
    have hsame : op' = op := hpeers.injective (hstores o op' hop') (hpeers.storesRight o op hop)
      ((hp'.sound.keyed hop').trans (hq.sound.keyed hop).symm)
    rw [hop', hsame]
  have hheld : ∀ o, q.dag.contains o → p.dag.contains o ∨ ∃ op ∈ lacking q heads, op.oid P = o := by
    intro o ho
    obtain ⟨op, hop⟩ := contains_iff.mp ho
    by_cases hold : p.dag.contains o
    · exact Or.inl hold
    · exact Or.inr ⟨op, hpeers.mem_lacking hheads hop hold, hq.sound.keyed hop⟩
  cases h with
  | nothing hnothing =>
      rw [hnothing] at hheld
      refine ⟨fun o ho => (hheld o ho).resolve_right (by simp), ?_, fun _ => id⟩
      exact ⟨fun _ => False, fun _ _ => False, ReflTransGen.refl⟩
  | @batch wire pruned hwire =>
      obtain ⟨room, hroom, hinside, hinsideq, hsigned⟩ := hcapacity
      have hconclude := handle_concludes ⟨hp.sound, hp.parked⟩ hwire
      rw [dispatch_deliver] at hconclude
      have hlisted : ∀ op ∈ lacking q heads, q.dag.get (op.oid P) = some op :=
        fun op hop => ((mem_lacking hq.sound).mp hop).1
      obtain ⟨hstored, hpending, hsteps⟩ := ingestAll_delivered hp
        (fun op hop => ⟨(hpeers.right.sid _ op (hlisted op hop)).trans hpeers.sid.symm,
          hpeers.right.verified _ op (hlisted op hop)⟩)
        (hpeers.arranged hheads) hauth hroom hinside
        (fun op hop => hinsideq _ (contains_iff.mpr ⟨op, hlisted op hop⟩))
        (fun op hop => hsigned op (hconclude.signed_subset hop))
      have hkeeps : ∀ {o}, (ingestAll P (lacking q heads) p).2.dag.contains o →
          (handle P wire p).2.dag.contains o := by
        intro o ho
        obtain ⟨op, hop⟩ := contains_iff.mp ho
        exact contains_iff.mpr ⟨op, hconclude.keeps hop⟩
      refine ⟨fun o ho => ?_, ⟨fun _ => True, fun _ _ => True, ?_⟩, fun op hop => ?_⟩
      · rcases hheld o ho with hold | ⟨op, hop, rfl⟩
        · obtain ⟨op, hop⟩ := contains_iff.mp hold
          exact hkeeps (contains_iff.mpr ⟨op, hsteps.keeps hop⟩)
        · exact hkeeps (hstored op hop)
      · exact (hsteps.mono (fun _ _ => trivial) fun _ _ _ => trivial).trans
          (hconclude.mono (fun _ _ => trivial) fun _ _ _ => trivial)
      · exact hpending op ((hconclude.pending_subset hop).elim id id)

/-- The answer of a responder: a batch of the operations that the heads of the requester do not
imply, and a request of its own if a head is unknown. -/
structure Answers (P : Primitives) (R S : Participant) : Prop where
  answer : answerSync S R.ipk R.dag.heads.toList =
    (if (lacking S R.dag.heads.toList).isEmpty then []
      else [.direct R.ipk (.deliver (lacking S R.dag.heads.toList) [])]) ++
    if R.dag.heads.toList.any fun head => !S.dag.contains head then
      [.direct R.ipk (.sync S.ipk S.dag.heads.toList)] else []
  complete : ∀ o op, S.dag.get o = some op → ¬R.dag.contains o →
    op ∈ lacking S R.dag.heads.toList
  fresh : ∀ op ∈ lacking S R.dag.heads.toList, S.dag.get (op.oid P) = some op ∧
    ∀ head ∈ R.dag.heads, S.dag.contains head → op.oid P ≠ head ∧ ¬Before S.dag (op.oid P) head
  ordered : ∀ pre op post, lacking S R.dag.heads.toList = pre ++ op :: post → ∀ d ∈ op.deps,
    ¬R.dag.contains d → ∃ dep ∈ pre, dep.oid P = d

variable {U : Set Op} {R S : Participant}

theorem heads_held (p : Participant) : ∀ head ∈ p.dag.heads.toList, p.dag.contains head :=
  fun _ hhead => (mem_heads.mp (Std.ExtTreeSet.mem_toList.mp hhead)).1

theorem Peers.answers (h : Peers P U R S) (hmember : R.ipk ∈ S.members) : Answers P R S where
  answer := answerSync_eq hmember
  complete o op hop habsent := h.mem_lacking (heads_held R) hop habsent
  fresh op hop := by
    obtain ⟨hget, hpast⟩ := (AntiEntropy.mem_lacking h.right.wellformed.sound).mp hop
    exact ⟨hget, fun head hhead => hpast head (Std.ExtTreeSet.mem_toList.mpr hhead)⟩
  ordered pre op post hsplit d hd habsent :=
    (h.arranged (heads_held R) pre op post hsplit d hd).resolve_left habsent

theorem Peers.symm (h : Peers P U p q) : Peers P U q p :=
  ⟨h.injective, h.sid.symm, h.right, h.left, h.storesRight, h.storesLeft⟩

/-- A participant after any further calls. -/
def Later (P : Primitives) : Participant → Participant → Prop :=
  Run P (fun _ => True) (fun _ _ => True)

theorem Later.reachable {q : Participant} (h : Later P p q) (hp : Reachable P p) :
    Reachable P q := by
  obtain ⟨p₀, hstart, hrun⟩ := hp
  refine ⟨p₀, hstart, ?_⟩
  induction h with
  | start => exact hrun
  | call c _ hbrings ih => exact ih.call c hbrings

end Exchange

/-! ## A guest that catches up with its host -/

section Scenario

open Authorisation MessageCodec

def guestJoin : PendingJoin :=
  ⟨2, .at_ toy 0 21, .leaderless 2, [31, 32, 33]⟩

/-- The welcome among the messages of an invitation. -/
def welcomeIn (out : List Outbound) : Option BigEndian.Bytes :=
  out.findSome? fun o =>
    match o.message with
    | .welcome _ _ _ _ _ => some o.payload
    | _ => none

def guest : Participant :=
  welcomed toy guestJoin
    ((welcomeIn ((invite toy (guestJoin.keyPackage toy) opener).1.toOption.getD [])).getD [])

def catchUp : BigEndian.Bytes :=
  (Message.deliver (lacking host guest.dag.heads.toList) []).toWire

def caughtUp : Participant :=
  (handle toy catchUp guest).2

end Scenario

end CausalFrontierRatchet.AntiEntropy
