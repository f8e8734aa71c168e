import CausalFrontierRatchet.BigEndian
import Mathlib.Logic.Function.Basic

/-!
A file system with named entries, inodes and open handles.  Readers see the current contents; what a
crash leaves of a file lies between its contents at the last synchronisation and its current ones.  A
directory that was changed since its last synchronisation survives in any one of its versions since
then, so a rename is atomic.
-/

namespace CausalFrontierRatchet.FileSystem

open BigEndian

structure Inode where
  data : Bytes
  /-- The contents at the last synchronisation. -/
  synced : Bytes

/-- The files of one directory; an open handle is the number of an inode. -/
structure Disk (ν : Type) where
  inodes : ℕ → Inode
  /-- The first number that was never used. -/
  next : ℕ
  dir : ν → Option ℕ
  /-- The versions of the directory since its last synchronisation, but the current one. -/
  past : List (ν → Option ℕ)

variable {ν : Type}

namespace Disk

section Calls

variable [DecidableEq ν] (d : Disk ν)

def contents (name : ν) : Option Bytes :=
  (d.dir name).map fun i => (d.inodes i).data

def put (i : ℕ) (node : Inode) : Disk ν :=
  { d with inodes := Function.update d.inodes i node }

/-- Opens a file for writing, creating it or cutting it to nothing. -/
def openTruncated (name : ν) : ℕ × Disk ν :=
  let i := (d.dir name).getD d.next
  let synced := if (d.dir name).isSome then (d.inodes i).synced else []
  (i,
    { inodes := Function.update d.inodes i ⟨[], synced⟩
      next := if (d.dir name).isSome then d.next else d.next + 1
      dir := Function.update d.dir name (some i)
      past := d.dir :: d.past })

def append (i : ℕ) (bytes : Bytes) : Disk ν :=
  d.put i { d.inodes i with data := (d.inodes i).data ++ bytes }

def sync (i : ℕ) : Disk ν :=
  d.put i ⟨(d.inodes i).data, (d.inodes i).data⟩

/-- Cuts a file to a length, or fills it with zeros up to it. -/
def setLen (i n : ℕ) : Disk ν :=
  d.put i { d.inodes i with
    data := (d.inodes i).data.take n ++ List.replicate (n - (d.inodes i).data.length) 0 }

def rename (old new : ν) : Disk ν :=
  { d with
    dir := Function.update (Function.update d.dir new (d.dir old)) old none
    past := d.dir :: d.past }

def syncDirectory : Disk ν :=
  { d with past := [] }

end Calls

@[simp] theorem put_self (d : Disk ν) (i : ℕ) (node : Inode) : (d.put i node).inodes i = node :=
  Function.update_self _ _ _

theorem put_other (d : Disk ν) {i j : ℕ} (h : j ≠ i) (node : Inode) :
    (d.put i node).inodes j = d.inodes j :=
  Function.update_of_ne h _ _

/-- No two names share an inode, and every inode in use was allocated. -/
structure Linked (d : Disk ν) : Prop where
  allocated : ∀ {name i}, d.dir name = some i → i < d.next
  injective : ∀ {a b i}, d.dir a = some i → d.dir b = some i → a = b

end Disk

/-! ## Replacing a file

A temporary file is written and then renamed.  Relative to the disk before, only the temporary entry
and its inode change until the rename. -/

section Replacing

variable [DecidableEq ν] {d₀ d : Disk ν} {temp name : ν} {k : ℕ} {node : Inode}

/-- A temporary file is being written. -/
structure Staged (d₀ d : Disk ν) (temp : ν) (k : ℕ) (node : Inode) : Prop where
  dir : d.dir = Function.update d₀.dir temp (some k)
  inode : d.inodes k = node
  others : ∀ {i}, i ≠ k → d.inodes i = d₀.inodes i
  unused : ∀ {name}, name ≠ temp → d₀.dir name ≠ some k
  allocated : k < d.next
  next : d₀.next ≤ d.next
  past : ∀ v ∈ d.past, v = d₀.dir ∨ v ∈ d₀.past

/-- The temporary file has taken the place of another. -/
structure Replaced (d₀ d : Disk ν) (temp name : ν) (k : ℕ) (node : Inode) : Prop where
  dir : d.dir = Function.update (Function.update d₀.dir name (some k)) temp none
  inode : d.inodes k = node
  others : ∀ {i}, i ≠ k → d.inodes i = d₀.inodes i
  unused : ∀ {name}, name ≠ temp → d₀.dir name ≠ some k
  allocated : k < d.next
  next : d₀.next ≤ d.next
  past : ∀ v ∈ d.past, v = d₀.dir ∨ v = Function.update d₀.dir temp (some k) ∨ v ∈ d₀.past

theorem staged_openTruncated (h : d₀.Linked) (temp : ν) :
    ∃ synced, Staged d₀ (d₀.openTruncated temp).2 temp (d₀.openTruncated temp).1 ⟨[], synced⟩ := by
  cases htemp : d₀.dir temp with
  | none =>
      refine ⟨[], by simp [Disk.openTruncated, htemp], by simp [Disk.openTruncated, htemp], ?_, ?_,
        by simp [Disk.openTruncated, htemp], by simp [Disk.openTruncated, htemp],
        by simp [Disk.openTruncated]⟩
      · intro i hi
        simp only [Disk.openTruncated, htemp, Option.getD_none] at hi ⊢
        rw [Function.update_of_ne hi]
      · intro name _ hname
        simp only [Disk.openTruncated, htemp, Option.getD_none] at hname
        exact absurd (h.allocated hname) (lt_irrefl _)
  | some i =>
      refine ⟨(d₀.inodes i).synced, by simp [Disk.openTruncated, htemp],
        by simp [Disk.openTruncated, htemp], ?_, ?_, ?_, by simp [Disk.openTruncated, htemp],
        by simp [Disk.openTruncated]⟩
      · intro j hj
        simp only [Disk.openTruncated, htemp, Option.getD_some] at hj ⊢
        rw [Function.update_of_ne hj]
      · intro name hne hname
        simp only [Disk.openTruncated, htemp, Option.getD_some] at hname
        exact hne (h.injective hname htemp)
      · simpa [Disk.openTruncated, htemp] using h.allocated htemp

theorem Staged.put (h : Staged d₀ d temp k node) (node' : Inode) :
    Staged d₀ (d.put k node') temp k node' where
  dir := h.dir
  inode := d.put_self k node'
  others hi := (d.put_other hi node').trans (h.others hi)
  unused := h.unused
  allocated := h.allocated
  next := h.next
  past := h.past

theorem Staged.append (h : Staged d₀ d temp k node) (bytes : Bytes) :
    Staged d₀ (d.append k bytes) temp k ⟨node.data ++ bytes, node.synced⟩ := by
  rw [Disk.append, h.inode]
  exact h.put _

theorem Staged.sync (h : Staged d₀ d temp k node) :
    Staged d₀ (d.sync k) temp k ⟨node.data, node.data⟩ := by
  rw [Disk.sync, h.inode]
  exact h.put _

theorem Staged.rename (h : Staged d₀ d temp k node) (hname : name ≠ temp) :
    Replaced d₀ (d.rename temp name) temp name k node where
  dir := by
    change Function.update (Function.update d.dir name (d.dir temp)) temp none = _
    rw [h.dir, Function.update_self, Function.update_comm hname.symm, Function.update_idem]
  inode := h.inode
  others := h.others
  unused := h.unused
  allocated := h.allocated
  next := h.next
  past v hv := by
    rw [Disk.rename, List.mem_cons] at hv
    rcases hv with rfl | hv
    · exact Or.inr (Or.inl h.dir)
    · exact (h.past v hv).imp_right Or.inr

theorem Replaced.syncDirectory (h : Replaced d₀ d temp name k node) :
    Replaced d₀ d.syncDirectory temp name k node :=
  { h with past := by simp [Disk.syncDirectory] }

/-- Every other name still refers to the inode it did, with the same contents. -/
theorem Staged.other (h : Staged d₀ d temp k node) {other : ν} (hother : other ≠ temp) :
    d.dir other = d₀.dir other ∧ ∀ {i}, d₀.dir other = some i → d.inodes i = d₀.inodes i := by
  refine ⟨by rw [h.dir, Function.update_of_ne hother], ?_⟩
  intro i hi
  apply h.others
  rintro rfl
  exact h.unused hother hi

theorem Replaced.other (h : Replaced d₀ d temp name k node) (other : ν) (hname : other ≠ name)
    (htemp : other ≠ temp) :
    d.dir other = d₀.dir other ∧ ∀ {i}, d₀.dir other = some i → d.inodes i = d₀.inodes i := by
  refine ⟨by rw [h.dir, Function.update_of_ne htemp, Function.update_of_ne hname], ?_⟩
  intro i hi
  apply h.others
  rintro rfl
  exact h.unused htemp hi

theorem Replaced.here (h : Replaced d₀ d temp name k node) (hname : name ≠ temp) :
    d.dir name = some k := by
  rw [h.dir, Function.update_of_ne hname, Function.update_self]

theorem Staged.linked (h : Staged d₀ d temp k node) (h₀ : d₀.Linked) : d.Linked where
  allocated {other i} hi := by
    by_cases hother : other = temp
    · rw [h.dir, hother, Function.update_self] at hi
      cases hi
      exact h.allocated
    · rw [(h.other hother).1] at hi
      exact lt_of_lt_of_le (h₀.allocated hi) h.next
  injective {a b i} ha hb := by
    by_cases hat : a = temp
    · by_cases hbt : b = temp
      · rw [hat, hbt]
      · rw [h.dir, hat, Function.update_self] at ha
        cases ha
        rw [(h.other hbt).1] at hb
        exact absurd hb (h.unused hbt)
    · rw [(h.other hat).1] at ha
      by_cases hbt : b = temp
      · rw [h.dir, hbt, Function.update_self] at hb
        cases hb
        exact absurd ha (h.unused hat)
      · rw [(h.other hbt).1] at hb
        exact h₀.injective ha hb

theorem Replaced.linked (h : Replaced d₀ d temp name k node) (h₀ : d₀.Linked)
    (hname : name ≠ temp) : d.Linked where
  allocated {other i} hi := by
    by_cases htemp : other = temp
    · rw [h.dir, htemp, Function.update_self] at hi
      cases hi
    · by_cases hother : other = name
      · rw [hother, h.here hname] at hi
        cases hi
        exact h.allocated
      · rw [(h.other other hother htemp).1] at hi
        exact lt_of_lt_of_le (h₀.allocated hi) h.next
  injective {a b i} ha hb := by
    have hgone : d.dir temp = none := by rw [h.dir, Function.update_self]
    have hold : ∀ {c}, d.dir c = some i → c ≠ name → d₀.dir c = some i ∧ c ≠ temp := by
      intro c hc hcn
      have hct : c ≠ temp := by
        rintro rfl
        rw [hgone] at hc
        cases hc
      rw [(h.other c hcn hct).1] at hc
      exact ⟨hc, hct⟩
    by_cases han : a = name
    · by_cases hbn : b = name
      · rw [han, hbn]
      · rw [han, h.here hname] at ha
        cases ha
        exact absurd (hold hb hbn).1 (h.unused (hold hb hbn).2)
    · by_cases hbn : b = name
      · rw [hbn, h.here hname] at hb
        cases hb
        exact absurd (hold ha han).1 (h.unused (hold ha han).2)
      · exact h₀.injective (hold ha han).1 (hold hb hbn).1

end Replacing

/-! ## Crashes -/

/-- What a crash can leave of a file. -/
def Survives (node : Inode) (bytes : Bytes) : Prop :=
  if node.synced <+: node.data then node.synced <+: bytes ∧ bytes <+: node.data
  else if node.data <+: node.synced then node.data <+: bytes ∧ bytes <+: node.synced
  else True

/-- What a crash can leave of a disk. -/
structure Crash (d d' : Disk ν) : Prop where
  next : d'.next = d.next
  dir : d'.dir ∈ d.dir :: d.past
  past : d'.past = []
  inodes : ∀ i, ∃ bytes, Survives (d.inodes i) bytes ∧ d'.inodes i = ⟨bytes, bytes⟩

section Crashes

theorem survives_synced {bytes survived : Bytes} (h : Survives ⟨bytes, bytes⟩ survived) :
    survived = bytes := by
  rw [Survives, if_pos (List.prefix_refl _)] at h
  exact (List.IsPrefix.eq_of_length_le h.1 h.2.length_le).symm

theorem survives_append {bytes tail survived : Bytes} (h : Survives ⟨bytes ++ tail, bytes⟩ survived) :
    ∃ part, part <+: tail ∧ survived = bytes ++ part := by
  rw [Survives, if_pos (List.prefix_append _ _)] at h
  obtain ⟨part, rfl⟩ := h.1
  exact ⟨part, (List.prefix_append_right_inj bytes).mp h.2, rfl⟩

theorem survives_cut {bytes tail survived : Bytes} (h : Survives ⟨bytes, bytes ++ tail⟩ survived) :
    ∃ part, part <+: tail ∧ survived = bytes ++ part := by
  unfold Survives at h
  split at h
  · rename_i hprefix
    have htail : bytes ++ tail = bytes :=
      List.IsPrefix.eq_of_length_le hprefix (by simp)
    refine ⟨[], List.nil_prefix, ?_⟩
    rw [List.append_nil]
    exact (List.IsPrefix.eq_of_length_le h.2 (by rw [← htail]; exact h.1.length_le))
  · rw [if_pos (List.prefix_append _ _)] at h
    obtain ⟨part, rfl⟩ := h.1
    exact ⟨part, (List.prefix_append_right_inj bytes).mp h.2, rfl⟩

/-- A crash may lose everything that was not synchronised. -/
def lose (d : Disk ν) : Disk ν where
  inodes i := ⟨(d.inodes i).synced, (d.inodes i).synced⟩
  next := d.next
  dir := d.dir
  past := []

theorem crash_lose (d : Disk ν) : Crash d (lose d) where
  next := rfl
  dir := List.mem_cons_self
  past := rfl
  inodes i := by
    refine ⟨(d.inodes i).synced, ?_, rfl⟩
    unfold Survives
    split_ifs with hgrown hcut
    · exact ⟨List.prefix_refl _, hgrown⟩
    · exact ⟨hcut, List.prefix_refl _⟩

end Crashes

end CausalFrontierRatchet.FileSystem
