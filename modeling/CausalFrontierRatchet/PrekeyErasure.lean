import CausalFrontierRatchet.Frames
import CausalFrontierRatchet.LawfulGraph

/-!
The erasure of prekeys.  The private half of a generation is destroyed when a channel is opened and
every other member has then opened one.  Nothing looks again when the roster changes.  So a
generation outlives its purpose when the only member that it still waited for leaves while others
stay, or when somebody it has served already becomes the only other member.
-/

namespace CausalFrontierRatchet.PrekeyErasure

open Relation Crypto Operation OperationGraph CausalMembership Channel
open Messages Commands Member MemberRuns MemberActions Ingest Intake RemoveWins
open Authorisation LawfulGraph Frames

/-! ## Changes of the roster -/

section Rosters

variable {P : Primitives} {p p' q : Participant} {x y : SigPublic}

/-- Nobody joins by an operation that does not admit it. -/
theorem Survives.of_added {m : Membership} {op : Op} {dag : Dag} {judged : Prop}
    (hsound : Sound P m.dag) (hadd : Added P m.dag op dag) (hbody : op.body ≠ .add y)
    (h : Survives { m with dag } y judged) : Survives m y judged := by
  obtain ⟨admission, ⟨add, hget, hadmits⟩, hdirect, hvotes, haccused⟩ := h
  have hold : m.dag.get admission = some add := by
    rw [hadd.get] at hget
    split_ifs at hget
    · cases hget
      exact absurd hadmits hbody
    · exact hget
  have hcontains : m.dag.contains admission := contains_iff.mpr ⟨add, hold⟩
  have hbefore : ∀ {o}, Before dag o admission → Before m.dag o admission :=
    (hadd.before_iff hsound hcontains).mp
  -- The new operation lies behind no admission, so it is no vote that an admission has behind it.
  have hnew : ¬Before dag (op.oid P) admission := by
    intro h
    exact hadd.ne_of_contains (hsound.before (hbefore h)).1 rfl
  have hvote : ∀ {a o}, Vote m y a o → Vote { m with dag } y a o := by
    rintro a o ⟨op', hget', hrest⟩
    exact ⟨op', hadd.get_mono hget', hrest⟩
  refine ⟨admission, ⟨add, hold, hadmits⟩, ?_, ?_, ?_⟩
  · rintro o ⟨op', hget', hrest⟩
    exact hbefore (hdirect o ⟨op', hadd.get_mono hget', hrest⟩)
  · intro hquorum a o hleast
    have hmore : Quorum { m with dag } y := by
      have : Finite SigPublic := Finite.of_injective BitVec.toFin fun _ _ => BitVec.eq_of_toFin_eq
      refine Nat.le_trans hquorum (Set.ncard_le_ncard ?_ (Set.toFinite _))
      rintro b ⟨o', ho'⟩
      exact ⟨o', hvote ho'⟩
    obtain ⟨least, hleast'⟩ := exists_leastVote (hvote hleast.1)
    obtain ⟨op', hget', hrest⟩ := id hleast'.1
    have hbehind := hvotes hmore a least hleast'
    rw [hadd.get] at hget'
    split_ifs at hget' with heq
    · rw [← heq] at hbehind
      exact absurd hbehind hnew
    · have hsame : least = o := BitVec.le_antisymm (hleast'.2 o (hvote hleast.1))
        (hleast.2 least ⟨op', hget', hrest⟩)
      rw [← hsame]
      exact hbefore hbehind
  · rintro hjudged o ⟨op', hget', hrest⟩
    exact hbefore (haccused hjudged o ⟨op', hadd.get_mono hget', hrest⟩)

theorem member_of_added {op : Op} {dag : Dag} (hsound : Sound P p.dag)
    (hadd : Added P p.dag op dag) (hbody : op.body ≠ .add y) (h : y ∈ { p with dag }.members) :
    y ∈ p.members :=
  (mem_members_iff_survives hsound).mpr (Survives.of_added hsound hadd hbody
    ((mem_members_iff_survives (m := { p.membership with dag }) (hsound.added hadd)).mp h))

theorem member_of_convicted (hsound : Sound P p.dag)
    (h : y ∈ { p with guilty := p.guilty.insert x }.members) : y ∈ p.members := by
  have hsurvives : Survives p.membership y (y ∈ p.guilty.insert x) :=
    (mem_members_iff_survives (m := { p.membership with guilty := p.guilty.insert x }) hsound).mp h
  exact (mem_members_iff_survives hsound).mpr
    (hsurvives.mono fun hguilty => Std.ExtTreeSet.mem_insert.mpr (Or.inr hguilty))

/-- Only the given identity may have left. -/
structure Departs (x : SigPublic) (p p' : Participant) : Prop where
  party : p'.ipk = p.ipk
  others : ∀ y, y ≠ x → y ∈ p.members → y ∈ p'.members
  nobody : ∀ y ∈ p'.members, y ∈ p.members

/-- Only the given identity may have joined. -/
structure Admits (x : SigPublic) (p p' : Participant) : Prop where
  party : p'.ipk = p.ipk
  others : ∀ y, y ≠ x → y ∈ p'.members → y ∈ p.members
  nobody : ∀ y ∈ p.members, y ∈ p'.members

theorem Departs.refl (x : SigPublic) (p : Participant) : Departs x p p :=
  ⟨rfl, fun _ _ h => h, fun _ h => h⟩

theorem Departs.trans (h : Departs x p q) (h' : Departs x q p') : Departs x p p' :=
  ⟨h'.party.trans h.party, fun y hy hmember => h'.others y hy (h.others y hy hmember),
    fun y hmember => h.nobody y (h'.nobody y hmember)⟩

theorem departs_added {op : Op} {dag : Dag} (hsound : Sound P p.dag) (hadd : Added P p.dag op dag)
    (hbody : ∀ y, op.body ≠ .add y) (hspares : ∀ y, y ≠ x → Spares y op.body) :
    Departs x p { p with dag } :=
  ⟨rfl, fun y hy => member_added hsound hadd (hspares y hy),
    fun y => member_of_added hsound hadd (hbody y)⟩

theorem member_of_published {body : Body} (hsound : Sound P p.dag) (hbody : body ≠ .add y)
    (h : y ∈ (published P p body).members) : y ∈ p.members := by
  rcases published_cases (P := P) p body with hsame | hadd
  · rw [Participant.members, Participant.membership, hsame] at h
    exact h
  · exact member_of_added hsound hadd hbody h

theorem departs_published {body : Body} (hsound : Sound P p.dag) (hbody : ∀ y, body ≠ .add y)
    (hspares : ∀ y, y ≠ x → Spares y body) : Departs x p (published P p body) :=
  ⟨rfl, fun y hy => member_published hsound (hspares y hy),
    fun y => member_of_published hsound (hbody y)⟩

theorem departs_convicted (hsound : Sound P p.dag) :
    Departs x p { p with guilty := p.guilty.insert x } :=
  ⟨rfl, fun _ hy => member_convicted hsound (Ne.symm hy), fun _ => member_of_convicted hsound⟩

theorem admits_added {op : Op} {dag : Dag} (hsound : Sound P p.dag) (hadd : Added P p.dag op dag)
    (hbody : op.body = .add x) : Admits x p { p with dag } := by
  refine ⟨rfl, fun y hy => member_of_added hsound hadd ?_, fun y => member_added hsound hadd ?_⟩
  · rw [hbody]
    simpa using Ne.symm hy
  · rw [hbody]
    exact ⟨by simp, by simp⟩

/-- Bodies that neither admit nor evict anybody. -/
def Neutral (body : Body) : Prop :=
  (∀ y, body ≠ .add y) ∧ ∀ y, Spares y body

/-- Accusations of one identity. -/
def Accusing (x : SigPublic) (body : Body) : Prop :=
  ∃ coid key seq, body = .accuse x coid key seq

theorem Accusing.spares {body : Body} (h : Accusing x body) (hy : y ≠ x) : Spares y body := by
  obtain ⟨coid, key, seq, rfl⟩ := h
  refine ⟨by simp, fun _ _ _ heq => hy ?_⟩
  rw [Body.accuse.injEq] at heq
  exact heq.1.symm

theorem Accusing.not_add {body : Body} (h : Accusing x body) : ∀ y, body ≠ .add y := by
  obtain ⟨coid, key, seq, rfl⟩ := h
  simp

/-- Accusations and a conviction of one identity cost nobody else the membership. -/
theorem departs_of_accused (h : Acts P (fun _ => Accusing x) (fun _ who => who = x) p p')
    (hsound : Sound P p.dag) : Departs x p p' := by
  induction h with
  | refl => exact Departs.refl x p
  | tail hacts haction ih =>
      have hq := Acts.sound hacts hsound
      refine ih.trans ?_
      cases haction with
      | silent h =>
          exact ⟨h.party.ipk, fun y _ hy => by rwa [h.members],
            fun y hy => by rwa [h.members] at hy⟩
      | published h => exact departs_published hq h.not_add fun y hy => h.spares hy
      | convicted h =>
          subst h
          exact departs_convicted hq

/-- The roster stays the same while only neutral bodies are published. -/
theorem members_of_neutral (h : Acts P (fun _ => Neutral) (fun _ _ => False) p p')
    (hsound : Sound P p.dag) : p'.members = p.members := by
  induction h with
  | refl => rfl
  | @tail q _ hacts haction ih =>
      have hq := Acts.sound hacts hsound
      refine Eq.trans ?_ ih
      cases haction with
      | silent h => exact h.members
      | published h =>
          exact Std.ExtTreeSet.ext_mem fun y =>
            ⟨member_of_published hq (h.1 y), member_published hq (h.2 y)⟩
      | convicted h => exact h.elim

end Rosters

/-! ## Erasure -/

section Erasure

variable {P : Primitives} {p p' : Participant} {x : SigPublic}

/-- Another member that has not opened a channel with the current generation. -/
def Unserved (p : Participant) (m : SigPublic) : Prop :=
  m ∈ p.members ∧ m ≠ p.ipk ∧ m ∉ p.prekeys.established

def Alone (p : Participant) : Prop :=
  ∀ m ∈ p.members, m = p.ipk

/-- If there is another member and every other member has opened a channel, the private half of the
generation is destroyed. -/
def Erased (p : Participant) : Prop :=
  ¬Alone p → (∀ m ∈ p.members, m ≠ p.ipk → m ∈ p.prekeys.established) → p.prekeys.isSealed

theorem erased_iff : Erased p ↔ p.prekeys.isSealed ∨ Alone p ∨ ∃ m, Unserved p m := by
  unfold Erased Unserved
  by_cases hsealed : p.prekeys.isSealed
  · simp [hsealed]
  by_cases halone : Alone p
  · simp [halone]
  · simp [hsealed, halone]

/-- The one other member that the generation still waits for, while there are others. -/
structure Last (p : Participant) (x : SigPublic) : Prop where
  unsealed : ¬p.prekeys.isSealed
  unserved : Unserved p x
  another : ∃ m ∈ p.members, m ≠ p.ipk ∧ m ≠ x
  served : ∀ m ∈ p.members, m ≠ p.ipk → m ≠ x → m ∈ p.prekeys.established

theorem Erased.congr (h : Erased p) (hipk : p'.ipk = p.ipk) (hmembers : p'.members = p.members)
    (hprekeys : p'.prekeys = p.prekeys) : Erased p' := by
  unfold Erased Alone
  rw [hipk, hmembers, hprekeys]
  exact h

theorem Last.congr (h : Last p' x) (hipk : p'.ipk = p.ipk) (hmembers : p'.members = p.members)
    (hprekeys : p'.prekeys = p.prekeys) : Last p x := by
  obtain ⟨hunsealed, hunserved, hanother, hserved⟩ := h
  unfold Unserved at hunserved
  rw [hipk, hmembers, hprekeys] at hunserved
  rw [hipk, hmembers] at hanother
  rw [hipk, hmembers, hprekeys] at hserved
  exact ⟨by rwa [hprekeys] at hunsealed, hunserved, hanother, hserved⟩

theorem erased_of_none_served (h : p.prekeys.established = ∅) : Erased p := by
  rw [erased_iff]
  by_cases halone : Alone p
  · exact Or.inr (Or.inl halone)
  · unfold Alone at halone
    push Not at halone
    obtain ⟨m, hm, hother⟩ := halone
    refine Or.inr (Or.inr ⟨m, hm, hother, ?_⟩)
    rw [h]
    exact Std.ExtTreeSet.not_mem_empty

/-- A departure of anybody but the last one waited for does no harm. -/
theorem Erased.departs (h : Erased p) (hdeparts : Departs x p p')
    (hprekeys : p'.prekeys = p.prekeys) (hlast : Last p x → x ∈ p'.members) : Erased p' := by
  rw [erased_iff] at h ⊢
  rw [hprekeys]
  have hstays : ∀ {m}, Unserved p m → m ∈ p'.members → Unserved p' m := by
    rintro m ⟨-, hother, hnot⟩ hmember
    exact ⟨hmember, by rwa [hdeparts.party], by rwa [hprekeys]⟩
  by_cases hsealed : p.prekeys.isSealed
  · exact Or.inl hsealed
  right
  rcases h with h | halone | ⟨m, hm⟩
  · exact absurd h hsealed
  · left
    intro m hm
    rw [hdeparts.party]
    exact halone m (hdeparts.nobody m hm)
  by_cases hx : m = x
  · subst hx
    by_cases hmember : m ∈ p'.members
    · exact Or.inr ⟨m, hstays hm hmember⟩
    -- The departing one was waited for; if it was the last, nobody else is left.
    by_cases halone : Alone p'
    · exact Or.inl halone
    right
    by_contra hnone
    unfold Alone at halone
    push Not at halone hnone
    obtain ⟨y, hy, hother⟩ := halone
    rw [hdeparts.party] at hother
    refine hmember (hlast ⟨hsealed, hm, ⟨y, hdeparts.nobody y hy, hother, ?_⟩, ?_⟩)
    · rintro rfl
      exact hmember hy
    · intro z hz hzother hzx
      by_contra hzserved
      exact hnone z (hstays ⟨hz, hzother, hzserved⟩ (hdeparts.others z hzx hz))
  · exact Or.inr ⟨m, hstays hm (hdeparts.others m hx hm.1)⟩

/-- An admission does no harm unless the newcomer is the only other member and served already. -/
theorem Erased.admits (h : Erased p) (hadmits : Admits x p p') (hprekeys : p'.prekeys = p.prekeys)
    (hserved : Alone p → x ≠ p.ipk → x ∈ p.prekeys.established → p.prekeys.isSealed) :
    Erased p' := by
  rw [erased_iff] at h ⊢
  rw [hprekeys]
  rcases h with hsealed | halone | ⟨m, hm, hother, hnot⟩
  · exact Or.inl hsealed
  · by_cases hsealed : p.prekeys.isSealed
    · exact Or.inl hsealed
    right
    by_cases hx : x ∈ p'.members ∧ x ≠ p.ipk
    · refine Or.inr ⟨x, hx.1, by rw [hadmits.party]; exact hx.2, ?_⟩
      rw [hprekeys]
      exact fun hin => hsealed (hserved halone hx.2 hin)
    · left
      intro m hm
      rw [hadmits.party]
      by_cases hmx : m = x
      · subst hmx
        by_contra hother
        exact hx ⟨hm, hother⟩
      · exact halone m (hadmits.others m hmx hm)
  · exact Or.inr (Or.inr ⟨m, hadmits.nobody m hm, by rwa [hadmits.party], by rwa [hprekeys]⟩)

/-- After an agreement the peer counts as served, and the generation is destroyed if it was the last
one expected. -/
theorem agreeFor_cases {pool pool' : PrekeyPool} {peer : SigPublic} {eph : DhPublic}
    {expected : Roster} {shared : Secret}
    (h : pool.agreeFor P peer eph expected = (some shared, pool')) :
    peer ∈ pool'.established ∧
      (pool'.isSealed ∨ expected = ∅ ∨ ∃ m ∈ expected, m ∉ pool'.established) := by
  unfold PrekeyPool.agreeFor at h
  split at h
  · cases h
  dsimp only at h
  split_ifs at h with hserved
  · cases h
    exact ⟨Std.ExtTreeSet.mem_insert_self, Or.inl rfl⟩
  · cases h
    refine ⟨Std.ExtTreeSet.mem_insert_self, Or.inr ?_⟩
    rw [Bool.and_eq_true, not_and_or, Bool.not_eq_true', Bool.not_eq_false,
      Std.ExtTreeSet.isEmpty_iff, List.all_eq_true] at hserved
    refine hserved.imp_right fun hsome => ?_
    push Not at hsome
    obtain ⟨m, hm, hnot⟩ := hsome
    refine ⟨m, Std.ExtTreeSet.mem_toList.mp hm, fun hin => hnot ?_⟩
    exact Std.ExtTreeSet.contains_iff_mem.mpr hin

theorem mem_others {m : SigPublic} :
    m ∈ p.members.filter (fun m => m ≠ p.ipk) ↔ m ∈ p.members ∧ m ≠ p.ipk := by
  simp [Std.ExtTreeSet.mem_filter]

/-- Whoever opens a channel, the generation is destroyed if it was the last one waited for. -/
theorem erased_of_agreed {author : SigPublic} {eph : DhPublic} {shared : Secret}
    {prekeys : PrekeyPool}
    (h : p.prekeys.agreeFor P author eph (p.members.filter fun m => m ≠ p.ipk) =
      (some shared, prekeys)) (recv : Std.ExtTreeMap SigPublic RecvState) :
    Erased { p with prekeys, recv } := by
  rw [erased_iff]
  refine (agreeFor_cases h).2.imp_right (Or.imp (fun hempty m hm => ?_) ?_)
  · by_contra hother
    have hin : m ∈ p.members.filter fun m => m ≠ p.ipk := mem_others.mpr ⟨hm, hother⟩
    rw [hempty] at hin
    exact Std.ExtTreeSet.not_mem_empty hin
  · rintro ⟨m, hm, hnot⟩
    obtain ⟨hmember, hother⟩ := mem_others.mp hm
    exact ⟨m, hmember, hother, hnot⟩

theorem tick_cases (pool : PrekeyPool) : pool.tick.established = pool.established ∧
    (pool.isSealed → pool.tick.isSealed) := by
  unfold PrekeyPool.tick
  dsimp only
  generalize (if pool.age = 0xFFFFFFFF then pool.age else pool.age + 1) = age
  split_ifs
  · exact ⟨rfl, fun _ => rfl⟩
  · exact ⟨rfl, fun h => h⟩

theorem erased_tick (h : Erased p) : Erased (tick p).2 := by
  obtain ⟨hestablished, hsealed⟩ := tick_cases p.prekeys
  refine fun halone hall => hsealed (h halone fun m hm hother => ?_)
  rw [← hestablished]
  exact hall m hm hother

end Erasure

/-! ## Commands -/

section Keeping

variable {P : Primitives} {p p' : Participant} {x : SigPublic}

variable (P) in
structure Kempt (p : Participant) : Prop where
  consistent : Consistent P p
  erased : Erased p

theorem kempt_serving (P : Primitives) : Serving P (Keeps (Kempt P)) := by
  have hsame : ∀ {p p' : Participant}, Consistent P p' → p'.ipk = p.ipk →
      p'.members = p.members → p'.prekeys = p.prekeys → Kempt P p → Kempt P p' :=
    fun hconsistent hipk hmembers hprekeys hp =>
      ⟨hconsistent, hp.erased.congr hipk hmembers hprekeys⟩
  refine ⟨⟨⟨fun _ h => h, fun _ _ _ h h' => h' ∘ h⟩, ?_⟩, ?_, ?_⟩
  · rintro q _ _ _ ⟨⟨h1, h2, h3, h4, h5⟩, herased⟩
    exact hsame ⟨h1, h2, h3, h4, h5⟩ rfl rfl rfl ⟨⟨h1, h2, h3, h4, h5⟩, herased⟩
  · rintro q _ ⟨⟨h1, h2, h3, h4, h5⟩, herased⟩
    exact hsame ⟨h1, h2, h3, h4, h5⟩ rfl rfl rfl ⟨⟨h1, h2, h3, h4, h5⟩, herased⟩
  · exact fun q hq => hsame (p := q) (hq.consistent.silent noteVersion_silent) rfl rfl rfl hq

/-- Publishing what concerns nobody's membership. -/
theorem Kempt.neutral (hp : Kempt P p) (hacts : Acts P (fun _ => Neutral) (fun _ _ => False) p p')
    (hprekeys : p'.prekeys = p.prekeys) : Kempt P p' :=
  ⟨Acts.consistent hacts hp.consistent, hp.erased.congr (Acts.sameParty hacts).ipk
    (members_of_neutral hacts hp.consistent.sound) hprekeys⟩

theorem prekeys_sealing (P : Primitives) : Sealing P fun p p' => p'.prekeys = p.prekeys :=
  ⟨⟨⟨⟨fun _ => rfl, fun _ _ _ h h' => h'.trans h⟩, fun _ _ _ _ => rfl⟩, fun _ _ => rfl,
    fun _ => rfl⟩, fun _ _ => rfl, fun _ _ => rfl, fun _ _ _ _ => rfl⟩

theorem prekeys_reading (P : Primitives) : Reading P fun p p' => p'.prekeys = p.prekeys :=
  ⟨⟨⟨fun _ => rfl, fun _ _ _ h h' => h'.trans h⟩, fun _ _ _ _ => rfl⟩, fun _ _ => rfl,
    fun _ _ => rfl, fun _ _ => rfl, fun _ _ => rfl⟩

theorem neutral_prekeys (gen : UInt32) (pk : DhPublic) : Neutral (.prekeys gen pk) :=
  ⟨by simp, fun _ => ⟨by simp, by simp⟩⟩

theorem neutral_contributes {exclude : Roster} {body : Body} (h : Contributes P p exclude body) :
    Neutral body := by
  refine ⟨fun y => ?_, fun y => spares_contributes h⟩
  rcases h.form with ⟨targets, -, rfl⟩ | ⟨-, x, slices, -, rfl⟩ <;> simp

theorem permits_neutral {bodies : Body → Prop} (h : ∀ body, bodies body → Neutral body) :
    Permits (fun _ => Neutral) p bodies :=
  fun _ body _ hbody => h body hbody

theorem permits_announced : Permits (fun _ => Neutral) p Announces := by
  refine permits_neutral fun body hbody => ?_
  obtain ⟨gen, pk, rfl⟩ := hbody
  exact neutral_prekeys gen pk

theorem Kempt.publishPrekeys (hp : Kempt P p) : Kempt P (publishPrekeys P p).2 :=
  hp.neutral (publishPrekeys_acts permits_announced) (prekeys_sealing P).publishPrekeys

theorem Kempt.contributeExcluding (hp : Kempt P p) (exclude : Roster) :
    Kempt P (contributeExcluding P exclude p).2 :=
  hp.neutral (contributeExcluding_acts (permits_neutral fun _ h => neutral_contributes h))
    ((prekeys_sealing P).contributeExcluding exclude)

theorem Kempt.rotatePrekeys (hp : Kempt P p) : Kempt P (rotatePrekeys P p).2 := by
  have hacts : Acts P (fun _ => Neutral) (fun _ _ => False) p (Member.rotatePrekeys P p).2 :=
    rotatePrekeys_acts permits_announced
  refine ⟨Acts.consistent hacts hp.consistent, ?_⟩
  unfold Member.rotatePrekeys
  rw [bind_run]
  rcases hdraw : draw p with ⟨e | secret, q⟩
  · have hserved := (kempt_serving P).draw.run hdraw hp
    exact hserved.erased
  · refine erased_of_none_served ?_
    dsimp only
    rw [bind_run, modify_run]
    dsimp only
    have hsame := (prekeys_sealing P).publishPrekeys
      (p := { q with prekeys := q.prekeys.rotate P secret })
    rw [show (Member.publishPrekeys P { q with prekeys := q.prekeys.rotate P secret }).2.prekeys =
      q.prekeys.rotate P secret from hsame]
    rfl

theorem Kempt.rotateWhen (hp : Kempt P p) (due : Bool) : Kempt P (rotateWhen P due p).2 := by
  unfold Member.rotateWhen
  split_ifs
  · rw [bind_pure_state]
    exact hp.rotatePrekeys
  · exact hp

theorem Kempt.openChannel (hp : Kempt P p) (op : Op) (gen : UInt32) (eph : DhPublic) :
    Kempt P (openChannel P op gen eph p).2 := by
  have hacts : Acts P (fun _ _ => True) (fun _ _ => True) p (Member.openChannel P op gen eph p).2 :=
    openChannel_acts gen eph fun _ _ _ _ => trivial
  refine ⟨Acts.consistent hacts hp.consistent, ?_⟩
  have hmark : ∀ oid, Kempt P { p with missing := p.missing.insert oid } := fun oid =>
    (kempt_serving P).keyed p p.nodekeys p.absorbed _ hp
  have hmoves : Moves (fun _ q => Erased q) (Member.openChannel P op gen eph) p := by
    refine moves_get ?_
    dsimp only
    split
    · exact hp.erased
    split
    · exact (hmark _).erased
    split
    · change Erased ((Member.rotatePrekeys P >>= fun rotation => pure (Opening.stop [rotation]))
        { p with missing := p.missing.insert (op.oid P) }).2
      rw [bind_pure_state]
      exact (hmark _).rotatePrekeys.erased
    · rename_i hagree
      exact erased_of_agreed hagree _
  exact hmoves

/-- The slices of an author are opened: the author may be convicted, nobody else. -/
theorem Kempt.offerSlice (hp : Kempt P p) {op : Op} {cid : Cid} {cparents : OidSet}
    {recips : List SigPublic} {slices : List Slice} {view : BitVec 256}
    (hbody : op.body = .contrib cid cparents recips slices view)
    (hheld : p.dag.get (op.oid P) = some op)
    (hlast : Last p op.author → ∀ op', p.dag.get (op'.oid P) = some op' →
      op'.author = op.author → ¬Equivocates P p op') (slice : Slice) :
    Kempt P (offerSlice P op cid view slice p).2 := by
  have hprekeys : (Member.offerSlice P op cid view slice p).2.prekeys = p.prekeys :=
    (prekeys_reading P).offerSlice op cid view slice
  by_cases hwaited : Last p op.author
  · refine hp.neutral (offerSlice_acts hp.consistent.sound hp.consistent.buffered hbody hheld ?_
      slice) hprekeys
    intro q op' hacts hget hauthor hequivocates
    have hother : op'.author ≠ p.ipk := by
      rw [hauthor]
      exact hwaited.unserved.2.1
    have hstored := Acts.stored_before hacts hp.consistent hget hother
    have hsame := Acts.sameParty hacts
    exact absurd (hequivocates.sameParty ⟨hsame.1.symm, hsame.2.symm, hsame.3.symm, hsame.4.symm,
      hsame.5.symm⟩) (hlast hwaited op' hstored hauthor)
  · have haccuses : Accuses P (fun _ => Accusing op.author) (fun _ who => who = op.author) p
        op.author := fun _ _ _ _ _ _ => ⟨rfl, fun coid key seq => ⟨coid, key, seq, rfl⟩⟩
    have hacts := offerSlice_acts hp.consistent.sound hp.consistent.buffered hbody hheld haccuses
      slice
    exact ⟨Acts.consistent hacts hp.consistent, hp.erased.departs
      (departs_of_accused hacts hp.consistent.sound) hprekeys fun h => absurd h hwaited⟩

/-- An author whose channel has just been opened is not waited for. -/
theorem announce_last {op : Op} {announced : Option (UInt32 × DhPublic)}
    (h : announce P op announced p = (.ok .proceed, p')) (hlast : Last p' op.author) : p' = p := by
  unfold announce at h
  split at h
  · unfold Member.openChannel at h
    obtain ⟨_, _, hget, h⟩ := bind_ok h
    cases hget
    split at h
    · cases h
      rfl
    split at h
    · obtain ⟨_, _, -, h⟩ := bind_ok h
      cases h
    rename_i gen eph _ _ _
    rcases hagree : p.prekeys.agreeFor P op.author eph (p.members.filter fun m => m ≠ p.ipk) with
      ⟨_ | shared, prekeys⟩
    · simp only [hagree] at h
      obtain ⟨_, _, -, h⟩ := bind_ok h
      obtain ⟨_, _, -, h⟩ := bind_ok h
      cases h
    · simp only [hagree] at h
      obtain ⟨_, _, hset, h⟩ := bind_ok h
      cases hset
      cases h
      exact absurd (agreeFor_cases hagree).1 hlast.unserved.2.2
  · cases h
    rfl

theorem Kempt.announce (hp : Kempt P p) (op : Op) (announced : Option (UInt32 × DhPublic)) :
    Kempt P (announce P op announced p).2 := by
  unfold Member.announce
  split
  · exact hp.openChannel op _ _
  · exact hp

theorem Kempt.receiveContribution (hp : Kempt P p) {op : Op} {cid : Cid} {cparents : OidSet}
    {recips : List SigPublic} {slices : List Slice} {view : BitVec 256}
    (hbody : op.body = .contrib cid cparents recips slices view)
    (hheld : p.dag.get (op.oid P) = some op)
    (hlast : Last p op.author → ∀ op', p.dag.get (op'.oid P) = some op' →
      op'.author = op.author → ¬Equivocates P p op') :
    Kempt P (receiveContribution P op p).2 := by
  unfold Member.receiveContribution
  rw [bind_run, get_run]
  simp only [hbody]
  cases hfind : slices.find? (fun s => s.recipient = p.ipk) with
  | none => exact hp
  | some slice =>
      dsimp only
      have hannounced := hp.announce op slice.establish
      have hacts : Acts P (fun _ _ => True) (fun _ _ => True) p
          (Member.announce P op slice.establish p).2 := announce_acts _ fun _ _ _ _ => trivial
      rw [bind_run]
      rcases hrun : Member.announce P op slice.establish p with ⟨e | opening, q⟩
      · rw [hrun] at hannounced
        exact hannounced
      rw [hrun] at hannounced hacts
      cases opening with
      | stop out => exact hannounced
      | proceed =>
          dsimp only
          rw [bind_pure_state]
          refine hannounced.offerSlice hbody (Acts.keeps hacts hheld) (fun hwaited => ?_) slice
          obtain rfl := announce_last hrun hwaited
          exact hlast hwaited

end Keeping

/-! ## Ingestions and calls -/

section Calls

variable (P : Primitives)

/-- What is asked of an operation that is about to be stored: it does not admit somebody the
generation has served as the only other member; and it does not cost the last one waited for the
membership, be it by an eviction, by an accusation or by contributions that turn out to
equivocate. -/
def Heeds (p : Participant) (op : Op) : Prop :=
  ∀ dag, Accepts P p op dag →
    match op.body with
    | .add who => Alone p → who ≠ p.ipk → who ∈ p.prekeys.established → p.prekeys.isSealed
    | .remove who => Last p who → who ∈ { p with dag }.members
    | .accuse who _ _ _ => Last p who → who ∈ (judge P op who { p with dag }).2.members
    | .contrib _ _ _ _ _ => Last p op.author → ∀ op', dag.get (op'.oid P) = some op' →
        op'.author = op.author → ¬Equivocates P p op'
    | _ => True

/-- The same of a call. -/
def CallHeeds (p : Participant) : Call → Prop
  | .invite kp => Alone p → kp.ipk ≠ p.ipk → kp.ipk ∈ p.prekeys.established → p.prekeys.isSealed
  | .remove who => Last p who → who ∈ (published P p (.remove who)).members
  | .handle wire => HandledUnder P (Heeds P) p wire
  | _ => True

variable {P} {p p' : Participant}

theorem judge_departs (hsound : Sound P p.dag) (acc : Op) (who : SigPublic) :
    Departs who p (judge P acc who p).2 ∧ (judge P acc who p).2.prekeys = p.prekeys := by
  have hreading : (judge P acc who p).2.prekeys = p.prekeys := (prekeys_reading P).judge acc who
  refine ⟨?_, hreading⟩
  have hacts : Acts P (fun _ => Accusing who) (fun _ x => x = who) p (judge P acc who p).2 :=
    judge_acts fun _ => rfl
  exact departs_of_accused hacts hsound

/-- The effects of an operation that has just been stored. -/
theorem Kempt.applied (hp : Kempt P p) {op : Op} {dag : Dag} (h : Accepts P p op dag)
    (hheeds : Heeds P p op) : Kempt P (applyOp P op { p with dag }).2 := by
  have hstored : Consistent P { p with dag } :=
    hp.consistent.added h.added (depsAvailable_iff.mp h.deps)
  have hheld : dag.get (op.oid P) = some op := by rw [h.added.get, if_pos rfl]
  have hroster : Neutral op.body → { p with dag }.members = p.members := by
    intro hbody
    exact Std.ExtTreeSet.ext_mem fun y =>
      ⟨member_of_added hp.consistent.sound h.added (hbody.1 y),
        member_added hp.consistent.sound h.added (hbody.2 y)⟩
  have hneutral : Neutral op.body → Kempt P { p with dag } := fun hbody =>
    ⟨hstored, hp.erased.congr rfl (hroster hbody) rfl⟩
  have hcondition := hheeds dag h
  unfold applyOp
  rw [bind_run, get_run]
  cases hbody : op.body with
  | prekeys gen pk =>
      dsimp only
      rw [bind_pure_state]
      have hkempt := hneutral (by rw [hbody]; exact neutral_prekeys gen pk)
      refine ⟨hstored.silent (learnPrekey_silent _ _ _), hkempt.erased.congr ?_ ?_ ?_⟩
      · exact (learnPrekey_silent (p := { p with dag }) _ _ _).party.ipk
      · exact (learnPrekey_silent (p := { p with dag }) _ _ _).members
      · rw [learnPrekey, modify_run]
        dsimp only
        split
        · rfl
        · split_ifs <;> rfl
  | contrib cid cparents recips slices view =>
      have hpasses : Neutral op.body := by
        rw [hbody]
        exact ⟨by simp, fun _ => ⟨by simp, by simp⟩⟩
      simp only [hbody] at hcondition
      exact (hneutral hpasses).receiveContribution hbody hheld fun hlast =>
        hcondition (hlast.congr rfl (hroster hpasses) rfl)
  | accuse who coid key seq =>
      dsimp only
      rw [bind_pure_state]
      simp only [hbody] at hcondition
      have hadded : Departs who p { p with dag } := by
        refine departs_added hp.consistent.sound h.added (by simp [hbody]) fun y hy => ?_
        exact Accusing.spares ⟨coid, key, seq, hbody⟩ hy
      obtain ⟨hjudged, hprekeys⟩ := judge_departs hstored.sound op who
      have hacts : Acts P (fun _ _ => True) (fun _ _ => True) { p with dag }
          (judge P op who { p with dag }).2 := judge_acts fun _ => trivial
      exact ⟨Acts.consistent hacts hstored,
        hp.erased.departs (hadded.trans hjudged) hprekeys hcondition⟩
  | prekeyRequest targets =>
      have hkempt := hneutral (by rw [hbody]; exact ⟨by simp, fun _ => ⟨by simp, by simp⟩⟩)
      exact hkempt.rotateWhen _
  | add who =>
      simp only [hbody] at hcondition
      have hkempt : Kempt P { p with dag } :=
        ⟨hstored, hp.erased.admits (admits_added hp.consistent.sound h.added hbody) rfl hcondition⟩
      exact hkempt.rotateWhen _
  | remove who =>
      simp only [hbody] at hcondition
      refine ⟨hstored, hp.erased.departs ?_ rfl hcondition⟩
      refine departs_added hp.consistent.sound h.added (by simp [hbody]) fun y hy => ?_
      rw [hbody]
      exact ⟨by simpa using Ne.symm hy, by simp⟩

theorem Kempt.ingest (hp : Kempt P p) {op : Op} (hheeds : Heeds P p op) :
    Kempt P (ingest P op p).2 := by
  have houtcome := ingest_outcome hp.consistent.steady op
  generalize Member.ingest P op p = result at houtcome
  cases houtcome with
  | invalid h => exact hp
  | known h => exact hp
  | waiting hsid hsig hnew hdeps =>
      obtain ⟨pending, heq, -⟩ := park_eq (p := p) op
      rw [heq]
      obtain ⟨⟨h1, h2, h3, h4, h5⟩, herased⟩ := hp
      exact ⟨⟨h1, h2, h3, h4, h5⟩, herased.congr rfl rfl rfl⟩
  | unauthorised hdeps hauth => exact hp
  | full h => exact hp
  | @stored dag h => exact hp.applied h hheeds

theorem kempt_guarded : Guarded P (Kempt P) (fun _ => True) (Heeds P) where
  answered _ recipient nodes := (kempt_serving P).answerNodeKeysFor recipient nodes
  repaired _ sender sealed := (kempt_serving P).absorbNodeKeys sender sealed
  settled _ before := (kempt_serving P).settle before
  pending _ _ hq _ := ⟨⟨hq.1.sound, hq.1.complete, hq.1.parked, hq.1.key, hq.1.buffered⟩,
    hq.erased.congr rfl rfl rfl⟩
  buffered _ _ _ _ := trivial
  ingest _ _ hq _ hheeds := hq.ingest hheeds

theorem Kempt.admitted (hp : Kempt P p) {x : SigPublic}
    (h : Alone p → x ≠ p.ipk → x ∈ p.prekeys.established → p.prekeys.isSealed) :
    Kempt P (published P p (.add x)) := by
  refine ⟨hp.consistent.published _, ?_⟩
  rcases published_cases (P := P) p (.add x) with hsame | hadd
  · refine hp.erased.congr rfl ?_ rfl
    rw [Participant.members, Participant.membership, hsame]
    rfl
  · obtain ⟨hparty, hothers, hnobody⟩ := admits_added hp.consistent.sound hadd rfl
    exact hp.erased.admits ⟨hparty, hothers, hnobody⟩ rfl h

theorem Kempt.dismissed (hp : Kempt P p) {x : SigPublic}
    (h : Last p x → x ∈ (published P p (.remove x)).members) :
    Kempt P (published P p (.remove x)) := by
  refine ⟨hp.consistent.published _, hp.erased.departs ?_ rfl h⟩
  exact departs_published hp.consistent.sound (by simp) fun y hy =>
    ⟨by simpa using Ne.symm hy, by simp⟩

theorem rotatePrekeys_keeps : Moves (Keeps (Kempt P)) (rotatePrekeys P) p :=
  fun hp => hp.rotatePrekeys

theorem contributeExcluding_keeps (exclude : Roster) :
    Moves (Keeps (Kempt P)) (contributeExcluding P exclude) p :=
  fun hp => hp.contributeExcluding exclude

theorem noteVersion_keeps : Moves (Keeps (Kempt P)) (noteVersion P) p :=
  (kempt_serving P).noteVersion

theorem invite_keeps {kp : KeyPackage} (hc : CallHeeds P p (.invite kp)) :
    Moves (Keeps (Kempt P)) (invite P kp) p := by
  refine moves_lift fun _ _ => moves_get ?_
  split
  · exact moves_throw _ _
  refine moves_bind (moves_modify fun hp => ?_) fun _ q hrecord => ?_
  · exact ⟨hp.consistent.silent silent_fields, hp.erased.congr rfl rfl rfl⟩
  cases hrecord
  refine moves_bind (fun hq => ?_) fun add _ _ => ?_
  · rw [publish_state]
    exact hq.admitted hc
  refine moves_bind (fun hq => hq.rotateWhen _) fun _ _ _ => ?_
  refine moves_bind ((kempt_serving P).welcomeFor kp) fun _ _ _ => ?_
  refine moves_bind (contributeExcluding_keeps ∅) fun _ _ _ => ?_
  exact moves_bind noteVersion_keeps fun _ _ _ => moves_pure _ _

theorem remove_keeps {who : SigPublic} (hc : CallHeeds P p (.remove who)) :
    Moves (Keeps (Kempt P)) (remove P who) p := by
  refine moves_bind (fun hp => ?_) fun _ _ _ => ?_
  · rw [publish_state]
    exact hp.dismissed hc
  refine moves_bind (contributeExcluding_keeps _) fun _ _ _ => ?_
  refine moves_bind (moves_modify fun hq => ?_) fun _ _ _ => ?_
  · exact ⟨hq.consistent.silent (erase_silent who), hq.erased.congr rfl rfl rfl⟩
  · exact moves_bind noteVersion_keeps fun _ _ _ => moves_pure _ _

theorem leave_keeps : Moves (Keeps (Kempt P)) (leave P) p := by
  refine moves_get (moves_bind (fun hp => ?_) fun _ _ _ => moves_pure _ _)
  rw [publish_state]
  exact hp.dismissed fun hlast => absurd rfl hlast.unserved.2.1

theorem repairRequest_keeps : Moves (Keeps (Kempt P)) (repairRequest P) p := by
  refine moves_get ?_
  dsimp only
  split
  · exact moves_pure _ _
  split
  · refine moves_bind (moves_attempt rotatePrekeys_keeps) fun r _ _ => ?_
    split
    · exact moves_pure _ _
    · exact moves_pure _ _
  · exact moves_pure _ _

theorem Kempt.call (hp : Kempt P p) (c : Call) (hc : CallHeeds P p c) : Kempt P (c.run P p) := by
  cases c with
  | publishPrekeys => exact hp.publishPrekeys
  | rotatePrekeys => exact hp.rotatePrekeys
  | tick => exact ⟨Intake.Consistent.call hp.consistent .tick, erased_tick hp.erased⟩
  | contribute exclude => exact hp.contributeExcluding exclude
  | invite kp => exact invite_keeps hc hp
  | remove who => exact remove_keeps hc hp
  | leave => exact leave_keeps hp
  | handle wire => exact kempt_guarded.handle hp fun m hm => ⟨fun _ _ => trivial, hc m hm⟩
  | repairRequest => exact repairRequest_keeps hp

theorem found_keeps (h : p.prekeys.established = ∅) : Moves (Keeps (Kempt P)) (found P) p := by
  intro hp
  refine ⟨Acts.consistent found_free hp.consistent, erased_of_none_served ?_⟩
  have hprekeys : (found P p).2.prekeys = p.prekeys := (prekeys_sealing P).found
  rw [hprekeys, h]

theorem start_kempt (h : StartUnder P (Heeds P) (fun _ => True) p) : Kempt P p := by
  cases h with
  | created h =>
      obtain ⟨_, _, _, _, _, -, hfound⟩ := create_ok h
      exact (found_keeps rfl).run hfound ⟨blank_consistent .., erased_of_none_served rfl⟩
  | @joined policy entropy j wire out p hnew h hfine _ =>
      obtain ⟨w, hjoin⟩ := accept_ok h
      obtain ⟨p₁, hhistory, -, o, p₂, hpublish, hnote, -⟩ := joinWith_history hjoin
      have hunserved : j.prekeys.established = ∅ := by
        unfold PendingJoin.new at hnew
        split at hnew
        · cases hnew
          rfl
        · cases hnew
      have hstart : Kempt P (w.entries.foldl takeOver w.start) := by
        obtain ⟨nodekeys, absorbed, htaken⟩ := foldl_takeOver w.entries w.start
        rw [htaken]
        exact (kempt_serving P).keyed w.start nodekeys absorbed w.start.missing
          ⟨blank_consistent .., erased_of_none_served hunserved⟩
      have hread := (kempt_guarded.ingestHistory_keeps (fun _ _ => trivial) (hfine w)).run hhistory
        hstart
      have hpublished : Kempt P p₂ := by
        have h := hread.publishPrekeys
        rwa [hpublish] at h
      exact noteVersion_keeps.run hnote hpublished

end Calls

/-- In a run without the departure of the last member that a generation waits for, and without the
admission of somebody it has served as the only other member, a generation that every other member
has used is destroyed. -/
theorem heedful_run_erased {P : Primitives} {p₀ p : Participant}
    (hstart : StartUnder P (Heeds P) (fun _ => True) p₀) (hrun : RunUnder P (CallHeeds P) p₀ p) :
    Erased p :=
  (RunUnder.invariant hrun (start_kempt hstart) fun _ c hq hc => hq.call c hc).erased

/-! ## The last one leaves -/

section Scenario

/-- The guest opens a channel to a founder. -/
def greeting (p : Participant) : Op :=
  Op.create toy 2 5 p.dag.heads (.contrib 0 p.frontier [1]
    [{ recipient := 1, establish := some (0, 4), seq := 0, ct := [] }] 0)

/-- The host after its only guest has opened a channel. -/
def greeted : Participant :=
  (Call.handle (wireOf (greeting host))).run toy host

theorem mem_pair {roster : Roster} (h : roster.toList = [1, 2]) {m : SigPublic} :
    m ∈ roster ↔ m = 1 ∨ m = 2 := by
  rw [← Std.ExtTreeSet.mem_toList, h, List.mem_cons, List.mem_singleton]

theorem greeted_checks :
    (Message.fromWire toy (wireOf (greeting host))).toOption = some (.op (greeting host)) ∧
      ((ingestions toy (.op (greeting host)) host).all fun x =>
        x.2 = greeting host && (x.1.members.toList = [1, 2] && x.1.ipk = 1)) ∧
      greeted.members.toList = [1, 2] ∧ greeted.ipk = 1 ∧
      greeted.prekeys.established.contains 2 := by
  decide +kernel

theorem greeted_erased : ¬Alone greeted ∧
    (∀ m ∈ greeted.members, m ≠ greeted.ipk → m ∈ greeted.prekeys.established) ∧
    greeted.prekeys.isSealed := by
  obtain ⟨hwire, hingestions, hmembers, hipk, hserved⟩ := greeted_checks
  have hhandle : CallHeeds toy host (.handle (wireOf (greeting host))) := by
    intro m hm x hx dag _
    rw [hm] at hwire
    cases hwire
    have hcheck := List.all_eq_true.mp hingestions x hx
    simp only [Bool.and_eq_true, decide_eq_true_eq] at hcheck
    obtain ⟨hop, htwo, hone⟩ := hcheck
    rw [hop]
    -- There are two members, so nobody else stays when the guest leaves.
    rintro ⟨-, -, ⟨m, hm, hother, hguest⟩, -⟩
    rw [hone] at hother
    exact absurd (((mem_pair htwo).mp hm).resolve_left hother) hguest
  have hrun : RunUnder toy (CallHeeds toy) opener greeted := by
    refine .call _ (.call invitation .start ?_) hhandle
    intro _ _ hin
    have hempty : opener.prekeys.established.toList = [] := by decide +kernel
    rw [← Std.ExtTreeSet.mem_toList, hempty] at hin
    exact absurd hin List.not_mem_nil
  obtain ⟨out, hcreate⟩ := opener_created
  have hothers : ∀ m ∈ greeted.members, m ≠ greeted.ipk → m ∈ greeted.prekeys.established := by
    intro m hm hother
    rw [hipk] at hother
    rw [((mem_pair hmembers).mp hm).resolve_left hother]
    exact Std.ExtTreeSet.contains_iff_mem.mp hserved
  have halone : ¬Alone greeted := by
    intro h
    have hguest := h 2 ((mem_pair hmembers).mpr (Or.inr rfl))
    rw [hipk] at hguest
    exact absurd hguest (by decide)
  exact ⟨halone, hothers, heedful_run_erased (.created hcreate) hrun halone hothers⟩

/-- A founder with two guests. -/
def trio : Participant :=
  (Call.invite ((⟨3, .at_ toy 0 22, .leaderless 2, []⟩ : PendingJoin).keyPackage toy)).run toy
    (invitation.run toy (founded toy (.leaderless 2) ([1, 5, 6, 7] ++ List.replicate 12 11)))

/-- One of the guests opens a channel, and the other leaves. -/
def met : Participant :=
  (Call.handle (wireOf (greeting trio))).run toy trio

def forsaken : Participant :=
  (Call.handle (wireOf (Op.create toy 3 5 met.dag.heads (.remove 3)))).run toy met

theorem trio_reachable : Reachable toy trio :=
  (Reachable.next ⟨_, start_founded (by decide +kernel), .start⟩ _).next _

/-- The one other member has opened a channel, and the private half is still there. -/
theorem forsaken_not_erased : Reachable toy forsaken ∧ forsaken.members.toList = [1, 2] ∧
    forsaken.ipk = 1 ∧ 2 ∈ forsaken.prekeys.established ∧ ¬forsaken.prekeys.isSealed ∧
    ¬Erased forsaken := by
  have hchecks : forsaken.members.toList = [1, 2] ∧ forsaken.ipk = 1 ∧
      forsaken.prekeys.established.contains 2 ∧ ¬forsaken.prekeys.isSealed := by
    decide +kernel
  obtain ⟨hmembers, hipk, hserved, hunsealed⟩ := hchecks
  have hguest := Std.ExtTreeSet.contains_iff_mem.mp hserved
  refine ⟨(trio_reachable.next _).next _, hmembers, hipk, hguest, hunsealed, fun herased => ?_⟩
  refine hunsealed (herased (fun halone => ?_) fun m hm hother => ?_)
  · have hself := halone 2 ((mem_pair hmembers).mpr (Or.inr rfl))
    rw [hipk] at hself
    exact absurd hself (by decide)
  · rw [hipk] at hother
    rw [((mem_pair hmembers).mp hm).resolve_left hother]
    exact hguest

end Scenario

end CausalFrontierRatchet.PrekeyErasure
