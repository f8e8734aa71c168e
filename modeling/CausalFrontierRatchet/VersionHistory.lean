import CausalFrontierRatchet.MemberRuns
import CausalFrontierRatchet.Recency

/-!
The history of version labels.  A participant keeps 64 labels and, when there is one more, drops the
least one.  Labels are hashes, so the least label may be any: the label just recorded, another
recent one or the oldest.  The most recent labels stay in the history exactly as long as the dropped
label is always the one recorded longest ago.
-/

namespace CausalFrontierRatchet.VersionHistory

open BigEndian Crypto Operation KeySchedule
open Commands Member MemberRuns Recency

abbrev Entry := OidSet × BitVec 256

abbrev Versions := Std.ExtTreeMap (BitVec 64) Entry

/-- Adds a label to the history. -/
def record (seen : Versions) (label : BitVec 64) (entry : Entry) : Versions :=
  forgetVersions ((seen.insert label entry).size - OVERLAP) (seen.insert label entry)

/-- The history after a sequence of labels. -/
def recordAll (labels : List (BitVec 64 × Entry)) : Versions :=
  labels.foldl (fun seen label => record seen label.1 label.2) ∅

theorem noteVersion_record {P : Primitives} (p : Participant) : (noteVersion P p).2.seenVersions =
    record p.seenVersions (p.version P) (p.frontier, p.root P) := by
  rw [noteVersion, modify_run, record]

/-! ## The least label -/

section Least

variable {seen : Versions} {label : BitVec 64} {entry : Entry}

theorem mem_insert_label {u : BitVec 64} : u ∈ seen.insert label entry ↔ u = label ∨ u ∈ seen := by
  rw [Std.ExtTreeMap.mem_insert, Std.compare_eq_iff_eq, eq_comm]

/-- Dropping one label drops the least. -/
theorem forget_least (h : label ∈ seen) : ∃ least ∈ seen, (∀ u ∈ seen, least ≤ u) ∧
    ∀ u, u ∈ forgetVersions 1 seen ↔ u ≠ least ∧ u ∈ seen := by
  have hordered : seen.keys.Pairwise fun a b => compare a b = .lt := Std.ExtTreeMap.ordered_keys
  cases hkeys : seen.keys with
  | nil =>
      rw [← Std.ExtTreeMap.mem_keys, hkeys] at h
      cases h
  | cons least rest =>
      rw [hkeys, List.pairwise_cons] at hordered
      refine ⟨least, ?_, fun u hu => ?_, fun u => ?_⟩
      · rw [← Std.ExtTreeMap.mem_keys, hkeys]
        exact List.mem_cons_self
      · rw [← Std.ExtTreeMap.mem_keys, hkeys] at hu
        rcases List.mem_cons.mp hu with rfl | hu
        · exact BitVec.le_refl u
        · exact BitVec.le_of_lt (compareOfLessAndEq_eq_lt.mp (hordered.1 u hu))
      · have hforget : forgetVersions 1 seen = seen.erase least := by
          simp [forgetVersions, hkeys]
        rw [hforget, Std.ExtTreeMap.mem_erase, Ne, Std.compare_eq_iff_eq, eq_comm]

end Least

/-! ## Recent labels -/

section Recent

/-- The history holds the most recent labels. -/
def Retained (seen : Versions) (known : List (BitVec 64)) : Prop :=
  ∀ label ∈ known.take OVERLAP, label ∈ seen

/-- With 64 other recent labels, the one recorded longest ago is the least, also compared with the
label to be recorded. -/
def InOrder (known : List (BitVec 64)) (label : BitVec 64) : Prop :=
  label ∈ known.take OVERLAP ∨ known.length < OVERLAP ∨
    ∃ oldest, known[OVERLAP - 1]? = some oldest ∧ oldest ≤ label ∧
      ∀ u ∈ known.take OVERLAP, oldest ≤ u

/-- The history is the most recent labels and nothing else. -/
def Holds (seen : Versions) (known : List (BitVec 64)) : Prop :=
  ∀ label, label ∈ seen ↔ label ∈ known.take OVERLAP

variable {seen : Versions} {known : List (BitVec 64)} {label : BitVec 64}

theorem Holds.retained (h : Holds seen known) : Retained seen known :=
  fun label => (h label).mpr

theorem Holds.size (h : Holds seen known) (hnodup : known.Nodup) :
    seen.size = min OVERLAP known.length := by
  have hperm : seen.keys.Perm (known.take OVERLAP) := by
    rw [List.perm_ext_iff_of_nodup Std.ExtTreeMap.nodup_keys
      (hnodup.sublist (List.take_sublist _ _))]
    intro u
    rw [Std.ExtTreeMap.mem_keys]
    exact h u
  rw [← Std.ExtTreeMap.length_keys, hperm.length_eq, List.length_take]

theorem first_remember (hlabel : label ∉ known.take (OVERLAP - 1)) :
    (remember known label).take OVERLAP = label :: known.take (OVERLAP - 1) :=
  take_remember_of_not_mem hlabel

/-- As long as there is room, recording drops nothing. -/
theorem record_room (entry : Entry) (hroom : (seen.insert label entry).size ≤ OVERLAP) :
    record seen label entry = seen.insert label entry := by
  rw [record, Nat.sub_eq_zero_of_le hroom, forgetVersions]

/-- Recording a recent label changes nothing in the history but the order. -/
theorem Holds.again (h : Holds seen known) (hnodup : known.Nodup)
    (hlabel : label ∈ known.take OVERLAP) (entry : Entry) :
    Holds (record seen label entry) (remember known label) := by
  have hsize : (seen.insert label entry).size ≤ OVERLAP := by
    rw [Std.ExtTreeMap.size_insert, if_pos, h.size hnodup]
    · exact Nat.min_le_left _ _
    · exact Std.ExtTreeMap.contains_iff_mem.mpr ((h label).mpr hlabel)
  intro u
  rw [record_room entry hsize, mem_insert_label, mem_take_remember_of_mem hnodup hlabel, h u]
  constructor
  · rintro (rfl | hu)
    · exact hlabel
    · exact hu
  · exact Or.inr

theorem Holds.room (h : Holds seen known) (hnodup : known.Nodup)
    (hlabel : label ∉ known.take OVERLAP) (hroom : known.length < OVERLAP) (entry : Entry) :
    Holds (record seen label entry) (remember known label) := by
  have hnew : ¬seen.contains label := fun hold =>
    hlabel ((h label).mp (Std.ExtTreeMap.contains_iff_mem.mp hold))
  have hsize : (seen.insert label entry).size ≤ OVERLAP := by
    rw [Std.ExtTreeMap.size_insert, if_neg hnew, h.size hnodup, Nat.min_eq_right hroom.le]
    exact hroom
  have hall : known.take (OVERLAP - 1) = known.take OVERLAP := by
    rw [List.take_of_length_le hroom.le, List.take_of_length_le (Nat.le_sub_one_of_lt hroom)]
  rw [← hall] at hlabel
  intro u
  rw [record_room entry hsize, mem_insert_label, first_remember hlabel, hall, List.mem_cons, h u]

/-- With 64 other labels, recording keeps the most recent ones exactly if the oldest is the least
one. -/
theorem Holds.full (h : Holds seen known) (hnodup : known.Nodup)
    (hlabel : label ∉ known.take OVERLAP) {oldest : BitVec 64}
    (holdest : known[OVERLAP - 1]? = some oldest) (entry : Entry) :
    (Retained (record seen label entry) (remember known label) ↔
      oldest ≤ label ∧ ∀ u ∈ known.take OVERLAP, oldest ≤ u) ∧
    (Retained (record seen label entry) (remember known label) →
      Holds (record seen label entry) (remember known label)) := by
  have hlong : OVERLAP ≤ known.length := by
    obtain ⟨hlt, -⟩ := List.getElem?_eq_some_iff.mp holdest
    exact Nat.le_of_pred_lt hlt
  have hnew : ¬seen.contains label := fun hold =>
    hlabel ((h label).mp (Std.ExtTreeMap.contains_iff_mem.mp hold))
  have hsize : (seen.insert label entry).size = OVERLAP + 1 := by
    rw [Std.ExtTreeMap.size_insert, if_neg hnew, h.size hnodup, Nat.min_eq_left hlong]
  have hsplit : known.take OVERLAP = known.take (OVERLAP - 1) ++ [oldest] := by
    have hnext : known.take (OVERLAP - 1 + 1) = _ := List.take_add_one
    rw [holdest] at hnext
    exact hnext
  rw [hsplit, List.mem_append, List.mem_singleton, not_or] at hlabel
  have hapart : oldest ∉ known.take (OVERLAP - 1) := by
    have hdistinct := hnodup.sublist (List.take_sublist OVERLAP known)
    rw [hsplit, List.nodup_append] at hdistinct
    exact fun hin => hdistinct.2.2 oldest hin oldest List.mem_cons_self rfl
  obtain ⟨least, hleast, hmin, hrecord⟩ := forget_least (mem_insert_label.mpr (Or.inl rfl))
  have hrecord : ∀ u, u ∈ record seen label entry ↔
      u ≠ least ∧ (u = label ∨ u ∈ known.take (OVERLAP - 1) ∨ u = oldest) := by
    intro u
    rw [record, hsize, Nat.add_sub_cancel_left, hrecord, mem_insert_label, h u, hsplit,
      List.mem_append, List.mem_singleton]
  have hretained : Retained (record seen label entry) (remember known label) ↔ least = oldest := by
    rw [Retained, first_remember hlabel.1]
    constructor
    · intro hkept
      rcases mem_insert_label.mp hleast with heq | hold
      · exact absurd heq.symm ((hrecord label).mp (hkept label List.mem_cons_self)).1
      · rw [h least, hsplit, List.mem_append, List.mem_singleton] at hold
        refine hold.resolve_left fun hin => ?_
        exact ((hrecord least).mp (hkept least (List.mem_cons_of_mem _ hin))).1 rfl
    · rintro rfl u hu
      rw [hrecord]
      rcases List.mem_cons.mp hu with rfl | hu
      · exact ⟨hlabel.2, Or.inl rfl⟩
      · refine ⟨?_, Or.inr (Or.inl hu)⟩
        rintro rfl
        exact hapart hu
  refine ⟨hretained.trans ⟨?_, fun hleft => ?_⟩, fun hkept u => ?_⟩
  · rintro rfl
    refine ⟨hmin label (mem_insert_label.mpr (Or.inl rfl)), fun u hu => ?_⟩
    exact hmin u (mem_insert_label.mpr (Or.inr ((h u).mpr hu)))
  · refine BitVec.le_antisymm (hmin oldest (mem_insert_label.mpr (Or.inr ((h oldest).mpr ?_)))) ?_
    · rw [hsplit]
      exact List.mem_append_right _ List.mem_cons_self
    · rcases mem_insert_label.mp hleast with rfl | hold
      · exact hleft.1
      · exact hleft.2 least ((h least).mp hold)
  · rw [hrecord, first_remember hlabel.1, List.mem_cons, hretained.mp hkept]
    constructor
    · rintro ⟨hne, rfl | hu | heq⟩
      · exact Or.inl rfl
      · exact Or.inr hu
      · exact absurd heq hne
    · rintro (rfl | hu)
      · exact ⟨hlabel.2, Or.inl rfl⟩
      · refine ⟨?_, Or.inr (Or.inl hu)⟩
        rintro rfl
        exact hapart hu

/-- One more label: the most recent ones are kept exactly if it comes in order, and then nothing
else is. -/
theorem Holds.step (h : Holds seen known) (hnodup : known.Nodup) (label : BitVec 64)
    (entry : Entry) :
    (Retained (record seen label entry) (remember known label) ↔ InOrder known label) ∧
    (Retained (record seen label entry) (remember known label) →
      Holds (record seen label entry) (remember known label)) := by
  by_cases hlabel : label ∈ known.take OVERLAP
  · have hnext := h.again hnodup hlabel entry
    exact ⟨iff_of_true hnext.retained (Or.inl hlabel), fun _ => hnext⟩
  by_cases hroom : known.length < OVERLAP
  · have hnext := h.room hnodup hlabel hroom entry
    exact ⟨iff_of_true hnext.retained (Or.inr (Or.inl hroom)), fun _ => hnext⟩
  have hlast : OVERLAP - 1 < known.length :=
    Nat.lt_of_lt_of_le (by decide) (Nat.not_lt.mp hroom)
  obtain ⟨hiff, hholds⟩ := h.full hnodup hlabel (List.getElem?_eq_getElem hlast) entry
  have hgiven : known[OVERLAP - 1]? = _ := List.getElem?_eq_getElem hlast
  refine ⟨hiff.trans ⟨fun hleast => Or.inr (Or.inr ⟨_, hgiven, hleast⟩), ?_⟩, hholds⟩
  rintro (hin | hshort | ⟨oldest, holdest, hleast⟩)
  · exact absurd hin hlabel
  · exact absurd hshort hroom
  · rw [List.getElem?_eq_getElem hlast] at holdest
    cases holdest
    exact hleast

end Recent

/-! ## Sequences of labels -/

section Sequences

/-- The most recent labels were in the history at all times. -/
def AlwaysRecent (labels : List (BitVec 64 × Entry)) : Prop :=
  ∀ before, before <+: labels → Retained (recordAll before) (recents (before.map Prod.fst))

/-- Every label came in order. -/
def AllInOrder (labels : List (BitVec 64 × Entry)) : Prop :=
  ∀ before label, before ++ [label] <+: labels → InOrder (recents (before.map Prod.fst)) label.1

variable {labels : List (BitVec 64 × Entry)} {label : BitVec 64 × Entry}

theorem alwaysRecent_append : AlwaysRecent (labels ++ [label]) ↔ AlwaysRecent labels ∧
    Retained (recordAll (labels ++ [label])) (recents ((labels ++ [label]).map Prod.fst)) := by
  constructor
  · intro h
    exact ⟨fun before hbefore => h before (hbefore.trans (List.prefix_append _ _)),
      h _ (List.prefix_refl _)⟩
  · rintro ⟨h, hlast⟩ before hbefore
    rcases List.prefix_concat_iff.mp hbefore with rfl | hbefore
    · exact hlast
    · exact h before hbefore

theorem allInOrder_append : AllInOrder (labels ++ [label]) ↔
    AllInOrder labels ∧ InOrder (recents (labels.map Prod.fst)) label.1 := by
  constructor
  · intro h
    exact ⟨fun before next hbefore => h before next (hbefore.trans (List.prefix_append _ _)),
      h labels label (List.prefix_refl _)⟩
  · rintro ⟨h, hlast⟩ before next hbefore
    rcases List.prefix_concat_iff.mp hbefore with heq | hbefore
    · obtain ⟨rfl, hnext⟩ := List.append_inj' heq rfl
      rw [(List.cons.inj hnext).1]
      exact hlast
    · exact h before next hbefore

theorem recordAll_append (labels : List (BitVec 64 × Entry)) (label : BitVec 64 × Entry) :
    recordAll (labels ++ [label]) = record (recordAll labels) label.1 label.2 := by
  rw [recordAll, List.foldl_append]
  rfl

theorem recents_labels_append (labels : List (BitVec 64 × Entry)) (label : BitVec 64 × Entry) :
    recents ((labels ++ [label]).map Prod.fst) =
      remember (recents (labels.map Prod.fst)) label.1 := by
  rw [List.map_append]
  exact recents_append _ _

/-- A whole sequence keeps the most recent labels exactly if all of it comes in order, and then the
history is those labels. -/
theorem sequence_recent (labels : List (BitVec 64 × Entry)) :
    (AlwaysRecent labels ↔ AllInOrder labels) ∧
      (AlwaysRecent labels → Holds (recordAll labels) (recents (labels.map Prod.fst))) := by
  induction labels using List.reverseRecOn with
  | nil =>
      have hempty : Holds (recordAll []) [] := by
        intro label
        simp [recordAll]
      refine ⟨iff_of_true (fun before hbefore => ?_) (fun before label hbefore => ?_),
        fun _ => hempty⟩
      · rw [List.prefix_nil.mp hbefore]
        exact hempty.retained
      · exact absurd (List.prefix_nil.mp hbefore) (by simp)
  | append_singleton labels label ih =>
      rw [alwaysRecent_append, allInOrder_append, recordAll_append, recents_labels_append, ← ih.1]
      have hstep := fun h : AlwaysRecent labels =>
        (ih.2 h).step (nodup_recents _) label.1 label.2
      exact ⟨and_congr_right fun h => (hstep h).1, fun h => (hstep h.1).2 h.2⟩

end Sequences

/-! ## Key confirmation -/

section Beacons

variable (P : Primitives)

/-- Outcome of checking a peer's key confirmation beacon. -/
inductive Beacon
  | agreed
  | diverged
  | unknown
deriving DecidableEq

/-- The tag over a version label that a beacon carries. -/
def confirmation (key : Secret) (version : BitVec 64) (who : SigPublic) : Bytes :=
  (bytesOf (mac P key "cfr/confirm" [bytesOf version, bytesOf who])).take 4

/-- The version label plus a tag over it. -/
def beacon (p : Participant) : Bytes :=
  bytesOf (p.version P) ++
    match p.groupKey P with
    | some key => confirmation P key (p.version P) p.ipk
    | none => [0, 0, 0, 0]

/-- Checks a peer's beacon against locally derivable keys. -/
def checkBeacon (p : Participant) (peer : SigPublic) (bytes : Bytes) : Beacon :=
  let version := ofBytes 64 (bytes.take 8)
  match p.seenVersions[version]? with
  | none => .unknown
  | some (nodes, root) =>
      match groupKey P p.seed0 nodes root p.nodekeys with
      | none => .unknown
      | some key =>
          if confirmation P key version peer = bytes.drop 8 then .agreed else .diverged

variable {P} {p : Participant}

theorem label_of_beacon (version : BitVec 64) (tag : Bytes) :
    ofBytes 64 ((bytesOf version ++ tag).take 8) = version := by
  rw [List.take_left' (by simp), ofBytes_bytesOf (by decide)]

/-- A label that is not dropped keeps its entry. -/
theorem getElem?_forgetVersions {n : ℕ} {seen : Versions} {label : BitVec 64}
    (h : label ∈ forgetVersions n seen) : (forgetVersions n seen)[label]? = seen[label]? := by
  induction n generalizing seen with
  | zero => rfl
  | succ n ih =>
      rw [forgetVersions] at h ⊢
      cases hkeys : seen.keys.head? with
      | none => rfl
      | some oldest =>
          simp only [hkeys] at h ⊢
          have hsome := Std.ExtTreeMap.mem_iff_isSome_getElem?.mp h
          rw [ih h, Std.ExtTreeMap.getElem?_erase] at hsome ⊢
          split_ifs at hsome ⊢
          · cases hsome
          · rfl

/-- The label just recorded stands for the current frontier and roster, unless it was dropped. -/
theorem noteVersion_get (h : p.version P ∈ (noteVersion P p).2.seenVersions) :
    (noteVersion P p).2.seenVersions[p.version P]? = some (p.frontier, p.root P) := by
  rw [noteVersion_record, record] at h ⊢
  rw [getElem?_forgetVersions h, Std.ExtTreeMap.getElem?_insert_self]

/-- A participant knows the version it has just recorded, if its label was not dropped and its key
can be derived. -/
theorem checkBeacon_noteVersion (hkey : (p.groupKey P).isSome)
    (h : p.version P ∈ (noteVersion P p).2.seenVersions) (peer : SigPublic) (tag : Bytes) :
    checkBeacon P (noteVersion P p).2 peer (bytesOf (p.version P) ++ tag) ≠ .unknown := by
  obtain ⟨key, hkey⟩ := Option.isSome_iff_exists.mp hkey
  have hderive : groupKey P (noteVersion P p).2.seed0 p.frontier (p.root P)
      (noteVersion P p).2.nodekeys = some key := hkey
  unfold checkBeacon
  rw [label_of_beacon]
  simp only [noteVersion_get h, hderive]
  split_ifs <;> simp

end Beacons

/-- The most recent labels are in the history at all times exactly if each label comes in order; and
as long as they do, a participant that records its version and can derive its key does not call a
beacon with that version unknown. -/
theorem recent_labels_retained_iff (P : Primitives) (labels : List (BitVec 64 × Entry)) :
    (AlwaysRecent labels ↔ AllInOrder labels) ∧
    ∀ p : Participant, p.seenVersions = recordAll labels →
      AllInOrder (labels ++ [(p.version P, p.frontier, p.root P)]) → (p.groupKey P).isSome →
      ∀ peer tag,
        checkBeacon P (noteVersion P p).2 peer (bytesOf (p.version P) ++ tag) ≠ .unknown := by
  refine ⟨(sequence_recent labels).1, fun p hseen horder hkey peer tag => ?_⟩
  have hrecent := (sequence_recent _).1.mpr horder _ (List.prefix_refl _)
  rw [recordAll_append, ← hseen, recents_labels_append] at hrecent
  refine checkBeacon_noteVersion hkey ?_ peer tag
  rw [noteVersion_record]
  exact hrecent _ List.mem_cons_self

/-! ## Labels in and out of order -/

section Scenario

/-- Few labels come in order, whatever they are. -/
theorem few_in_order {labels : List (BitVec 64 × Entry)} (h : labels.length ≤ OVERLAP) :
    AllInOrder labels := by
  intro before label hbefore
  have hlength := hbefore.length_le
  have hfew := length_recents_le (before.map Prod.fst)
  rw [List.length_append, List.length_singleton] at hlength
  rw [List.length_map] at hfew
  exact Or.inr (Or.inl (by omega))

def unrelated : List (BitVec 64 × Entry) :=
  [(5, ∅, 0), (3, ∅, 0), (4, ∅, 0)]

/-- A founder that recorded them. -/
def recorder : Participant :=
  { founded toy (.leaderless 2) [1, 5, 6, 7, 11, 12, 13, 14] with
    seenVersions := recordAll unrelated }

theorem unrelated_retained : AlwaysRecent unrelated ∧
    checkBeacon toy (noteVersion toy recorder).2 2
      (bytesOf (recorder.version toy) ++ [0, 0, 0, 0]) ≠ .unknown := by
  have hclaim := recent_labels_retained_iff toy unrelated
  refine ⟨hclaim.1.mpr (few_in_order (by decide)), ?_⟩
  exact hclaim.2 recorder rfl (few_in_order (by decide)) (by decide +kernel) 2 [0, 0, 0, 0]

/-- Sixty-four labels, and then one below them all. -/
def sinking : List (BitVec 64 × Entry) :=
  (List.range 64).map (fun i => (BitVec.ofNat 64 (i + 1), ∅, 0)) ++ [(0, ∅, 0)]

/-- The label recorded last is dropped at once. -/
theorem sinking_not_retained : (recents (sinking.map Prod.fst)).head? = some 0 ∧
    0 ∉ recordAll sinking ∧ ¬AlwaysRecent sinking := by
  have hchecks : (recents (sinking.map Prod.fst)).head? = some 0 ∧
      (recordAll sinking).contains 0 = false := by
    decide +kernel
  obtain ⟨hlast, hdropped⟩ := hchecks
  have habsent : 0 ∉ recordAll sinking := by
    rw [← Std.ExtTreeMap.contains_iff_mem, hdropped]
    exact Bool.false_ne_true
  refine ⟨hlast, habsent, fun h => habsent (h sinking (List.prefix_refl _) 0 ?_)⟩
  cases hrecents : recents (sinking.map Prod.fst) with
  | nil =>
      rw [hrecents] at hlast
      cases hlast
  | cons last rest =>
      rw [hrecents] at hlast
      cases hlast
      exact List.mem_cons_self

end Scenario

end CausalFrontierRatchet.VersionHistory
