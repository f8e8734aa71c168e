import CausalFrontierRatchet.BigEndian
import CausalFrontierRatchet.PrefixCodec
import Mathlib.Data.Finset.Card
import Mathlib.Data.List.Perm.Subperm
import Std.Data.ExtTreeMap

/-!
Fixed-width fields.  A record is written as its fields one after the other, numbers in big-endian
order, a map as its entries in the order of the keys.  The readers fail with one error and are exact
for these images: a map that is read has strictly ascending keys, so it is written back in the order
in which it was read.
-/

namespace CausalFrontierRatchet.FieldCodec

open BigEndian PrefixCodec

/-! ## Maps as ascending lists -/

section Ascending

variable {κ ν : Type} [Ord κ]

/-- The keys ascend strictly, from the previous one on. -/
def Ascends (previous : Option κ) (entries : List (κ × ν)) : Prop :=
  entries.Pairwise (fun a b => compare a.1 b.1 = .lt) ∧
    ∀ p ∈ previous, ∀ e ∈ entries, compare p e.1 = .lt

theorem ascends_cons [Std.TransOrd κ] {previous : Option κ} {e : κ × ν} {entries : List (κ × ν)} :
    Ascends previous (e :: entries) ↔
      (∀ p ∈ previous, compare p e.1 = .lt) ∧ Ascends (some e.1) entries := by
  simp only [Ascends, List.pairwise_cons, List.forall_mem_cons, Option.mem_some_iff, forall_eq']
  constructor
  · intro h
    exact ⟨fun p hp => (h.2 p hp).1, h.1.2, h.1.1⟩
  · intro h
    exact ⟨⟨h.2.2, h.2.1⟩, fun p hp => ⟨h.1 p hp, fun b hb =>
      Std.TransCmp.lt_trans (h.1 p hp) (h.2.2 b hb)⟩⟩

theorem ascends_toList [Std.TransOrd κ] (m : Std.ExtTreeMap κ ν) : Ascends none m.toList :=
  ⟨Std.ExtTreeMap.ordered_keys_toList, fun _ hp => absurd hp (Option.not_mem_none _)⟩

theorem Ascends.distinct {previous : Option κ} {entries : List (κ × ν)}
    (h : Ascends previous entries) : entries.Pairwise fun a b => ¬compare a.1 b.1 = .eq := by
  apply h.1.imp
  intro a b hlt heq
  rw [hlt] at heq
  cases heq

theorem Ascends.nodup [Std.TransOrd κ] {previous : Option κ} {entries : List (κ × ν)}
    (h : Ascends previous entries) : entries.Nodup := by
  apply h.distinct.imp
  intro a b hne heq
  exact hne (heq ▸ Std.ReflCmp.compare_self)

/-- Ascending entries are the entries of the map they make, in its order. -/
theorem toList_ofList [Std.TransOrd κ] [Std.LawfulEqOrd κ] {entries : List (κ × ν)}
    (h : Ascends none entries) :
    (Std.ExtTreeMap.ofList entries).toList = entries := by
  have hmem : ∀ e, e ∈ (Std.ExtTreeMap.ofList entries).toList ↔ e ∈ entries := by
    intro e
    rw [← Prod.mk.eta (p := e), Std.ExtTreeMap.mem_toList_iff_getElem?_eq_some]
    constructor
    · intro hget
      classical
      have hkey : e.1 ∈ Std.ExtTreeMap.ofList entries :=
        Std.ExtTreeMap.mem_iff_isSome_getElem?.mpr (by rw [hget]; rfl)
      rw [Std.ExtTreeMap.mem_ofList, List.contains_iff_mem, List.mem_map] at hkey
      obtain ⟨e', he', heq⟩ := hkey
      have hget' : (Std.ExtTreeMap.ofList entries)[e.1]? = some e'.2 :=
        Std.ExtTreeMap.getElem?_ofList_of_mem (heq ▸ Std.ReflCmp.compare_self) h.distinct he'
      rwa [show (e.1, e.2) = e' from Prod.ext heq.symm (Option.some.inj (hget.symm.trans hget'))]
    · exact fun he => Std.ExtTreeMap.getElem?_ofList_of_mem Std.ReflCmp.compare_self h.distinct he
  have hlist := ascends_toList (Std.ExtTreeMap.ofList entries)
  refine List.Perm.eq_of_pairwise ?_ hlist.1 h.1
    ((List.perm_ext_iff_of_nodup hlist.nodup h.nodup).mpr hmem)
  intro a b _ _ hab hba
  have hgt : compare b.1 a.1 = .gt := Std.OrientedCmp.gt_of_lt hab
  rw [hba] at hgt
  cases hgt

/-- A map whose keys are among the elements of a list is no larger. -/
theorem size_le_length [Std.TransOrd κ] {m : Std.ExtTreeMap κ ν} {l : List κ}
    (h : ∀ key ∈ m, key ∈ l) : m.size ≤ l.length := by
  have hsubset : m.keys ⊆ l := fun key hkey => h key (Std.ExtTreeMap.mem_of_mem_keys hkey)
  rw [← Std.ExtTreeMap.length_keys]
  exact (List.subperm_of_subset Std.ExtTreeMap.nodup_keys hsubset).length_le

theorem size_le_size [Std.TransOrd κ] [Std.LawfulEqOrd κ] {μ : Type} {m : Std.ExtTreeMap κ ν}
    {m' : Std.ExtTreeMap κ μ} (h : ∀ key ∈ m, key ∈ m') : m.size ≤ m'.size := by
  rw [← Std.ExtTreeMap.length_keys (t := m')]
  exact size_le_length fun key hkey => Std.ExtTreeMap.mem_keys.mpr (h key hkey)

theorem size_eq_length [Std.TransOrd κ] [Std.LawfulEqOrd κ] {m : Std.ExtTreeMap κ ν} {l : List κ}
    (hnodup : l.Nodup) (h : ∀ key, key ∈ m ↔ key ∈ l) : m.size = l.length := by
  refine Nat.le_antisymm (size_le_length fun key => (h key).mp) ?_
  rw [← Std.ExtTreeMap.length_keys]
  exact (List.subperm_of_subset hnodup fun key hkey =>
    Std.ExtTreeMap.mem_keys.mpr ((h key).mpr hkey)).length_le

theorem isEmpty_congr [Std.TransOrd κ] [Std.LawfulEqOrd κ] {m m' : Std.ExtTreeMap κ ν}
    (h : ∀ key, key ∈ m ↔ key ∈ m') : m.isEmpty = m'.isEmpty := by
  have hsize : m.size = m'.size :=
    Nat.le_antisymm (size_le_size fun key => (h key).mp) (size_le_size fun key => (h key).mpr)
  rw [Std.ExtTreeMap.isEmpty_eq_size_beq_zero, Std.ExtTreeMap.isEmpty_eq_size_beq_zero, hsize]

theorem isEmpty_of_mem [Std.TransOrd κ] {m : Std.ExtTreeMap κ ν} {key : κ} (h : key ∈ m) :
    m.isEmpty = false := by
  rw [Std.ExtTreeMap.isEmpty_eq_false_iff]
  intro hempty
  rw [hempty] at h
  exact Std.ExtTreeMap.not_mem_empty h

end Ascending

/-! ## Fields -/

section Fields

variable {ε : Type} (bad : ε)

def take (n : ℕ) : Parser UInt8 ε Bytes := fun input =>
  if input.length < n then .error bad else .ok (input.take n, input.drop n)

def array (w : ℕ) : Parser UInt8 ε (BitVec w) := do
  let raw ← take bad (w / 8)
  pure (ofBytes w raw)

def u8 : Parser UInt8 ε UInt8 := do
  let raw ← take bad 1
  pure (raw.headD 0)

def u64 : Parser UInt8 ε UInt64 := do
  let raw ← take bad 8
  pure (UInt64.ofNat (ofBe raw))

/-- A four-byte count that must not exceed a limit. -/
def count (limit : ℕ) : Parser UInt8 ε ℕ := do
  let raw ← take bad 4
  if ofBe raw > limit then throw bad else pure (ofBe raw)

/-- A byte that must be zero or one. -/
def bool : Parser UInt8 ε Bool := do
  let value ← u8 bad
  if value = 0 then pure false
  else if value = 1 then pure true
  else throw bad

theorem take_exact (n : ℕ) : Exact (fun v : Bytes => v.length = n) id (take bad n) := by
  refine exact_iff.mpr fun input rest v => ?_
  unfold take
  split_ifs with hshort
  · simp only [false_iff, id_eq]
    intro h
    rw [h.2, List.length_append] at hshort
    omega
  · simp only [Except.ok.injEq, Prod.mk.injEq, id_eq]
    constructor
    · intro h
      rw [← h.1, ← h.2, List.take_append_drop, List.length_take]
      exact ⟨by omega, rfl⟩
    · intro h
      rw [h.2, ← h.1, List.take_left, List.drop_left]
      exact ⟨rfl, rfl⟩

theorem array_exact {w : ℕ} (hw : 8 ∣ w) :
    Exact (fun _ : BitVec w => True) bytesOf (array bad w) := by
  refine exact_iff.mpr fun input rest v => ?_
  rw [array, (take_exact bad (w / 8)).bind_eq_ok]
  simp only [pure_eq_ok, true_and, id_eq]
  constructor
  · intro h
    obtain ⟨raw, mid, hlen, rfl, rfl, rfl⟩ := h
    rw [bytesOf_ofBytes hw hlen]
  · intro h
    exact ⟨bytesOf v, rest, bytesOf_length v, h, ofBytes_bytesOf hw v, rfl⟩

theorem u8_exact : Exact (fun _ : UInt8 => True) (fun v => [v]) (u8 bad) := by
  refine exact_iff.mpr fun input rest v => ?_
  rw [u8, (take_exact bad 1).bind_eq_ok]
  simp only [pure_eq_ok, true_and, id_eq]
  constructor
  · intro h
    obtain ⟨raw, mid, hlen, rfl, rfl, rfl⟩ := h
    obtain ⟨b, rfl⟩ := List.length_eq_one_iff.mp hlen
    rfl
  · intro h
    exact ⟨[v], rest, rfl, h, rfl, rfl⟩

theorem u64_exact : Exact (fun _ : UInt64 => True) (fun v => beBytes 8 v.toNat) (u64 bad) := by
  refine exact_iff.mpr fun input rest v => ?_
  rw [u64, (take_exact bad 8).bind_eq_ok]
  simp only [pure_eq_ok, true_and, id_eq]
  constructor
  · intro h
    obtain ⟨raw, mid, hlen, rfl, rfl, rfl⟩ := h
    have hlt : ofBe raw < 2 ^ 64 := by
      have hbound := ofBe_lt raw
      rw [hlen] at hbound
      exact hbound
    rw [UInt64.toNat_ofNat', Nat.mod_eq_of_lt hlt, ← hlen, beBytes_ofBe]
  · intro h
    refine ⟨beBytes 8 v.toNat, rest, beBytes_length 8 _, h, ?_, rfl⟩
    rw [ofBe_beBytes_of_lt v.toNat_lt, UInt64.ofNat_toNat]

theorem count_exact {limit : ℕ} (hlimit : limit < 2 ^ 32) :
    Exact (fun n => n ≤ limit) (beBytes 4) (count bad limit) := by
  refine exact_iff.mpr fun input rest n => ?_
  rw [count, (take_exact bad 4).bind_eq_ok]
  simp only [guard_eq_ok, pure_eq_ok, id_eq]
  constructor
  · intro h
    obtain ⟨raw, mid, hlen, rfl, hle, rfl, rfl⟩ := h
    rw [← hlen, beBytes_ofBe]
    exact ⟨Nat.not_lt.mp hle, rfl⟩
  · intro h
    have hvalue : ofBe (beBytes 4 n) = n := ofBe_beBytes_of_lt (by omega)
    refine ⟨beBytes 4 n, rest, beBytes_length 4 n, h.2, ?_, hvalue, rfl⟩
    rw [hvalue]
    exact Nat.not_lt.mpr h.1

theorem bool_exact :
    Exact (fun _ : Bool => True) (fun b => [if b then 1 else 0]) (bool bad) := by
  refine exact_iff.mpr fun input rest b => ?_
  rw [bool, (u8_exact bad).bind_eq_ok]
  simp only [true_and]
  constructor
  · intro h
    obtain ⟨value, mid, rfl, hnext⟩ := h
    split_ifs at hnext with hzero hone
    · cases hnext
      rw [hzero]
      rfl
    · cases hnext
      rw [hone]
      rfl
    · cases hnext
  · intro h
    refine ⟨if b then 1 else 0, rest, h, ?_⟩
    cases b with
    | false => rfl
    | true => rfl

end Fields

/-! ## Maps -/

section Maps

variable {ε κ ν : Type} [Ord κ] [Std.TransOrd κ] (bad : ε) (readKey : Parser UInt8 ε κ)
  (readValue : κ → Parser UInt8 ε ν)

/-- Reads entries with strictly ascending keys into a map. -/
def mapLoop : ℕ → Option κ → Std.ExtTreeMap κ ν → Parser UInt8 ε (Std.ExtTreeMap κ ν)
  | 0, _, entries => pure entries
  | n + 1, previous, entries => do
      let key ← readKey
      if previous.any fun p => (compare p key).isGE then throw bad
      else
        let value ← readValue key
        mapLoop n (some key) (entries.insert key value)

/-- A map behind the number of its entries. -/
def map (limit : ℕ) : Parser UInt8 ε (Std.ExtTreeMap κ ν) := do
  let n ← count bad limit
  mapLoop bad readKey readValue n none ∅

def writeEntries (writeKey : κ → Bytes) (writeValue : κ → ν → Bytes)
    (entries : List (κ × ν)) : Bytes :=
  entries.flatMap fun e => writeKey e.1 ++ writeValue e.1 e.2

def writeMap (writeKey : κ → Bytes) (writeValue : κ → ν → Bytes) (m : Std.ExtTreeMap κ ν) : Bytes :=
  beBytes 4 m.size ++ writeEntries writeKey writeValue m.toList

variable {readKey readValue} {ok : κ → ν → Prop} {writeKey : κ → Bytes}
  {writeValue : κ → ν → Bytes}

theorem mapLoop_eq_ok (hkey : Exact (fun _ => True) writeKey readKey)
    (hvalue : ∀ key, Exact (ok key) (writeValue key) (readValue key)) {n : ℕ} {previous : Option κ}
    {m m' : Std.ExtTreeMap κ ν} {input rest : Bytes} :
    mapLoop bad readKey readValue n previous m input = .ok (m', rest) ↔
      ∃ entries : List (κ × ν), entries.length = n ∧ Ascends previous entries ∧
        (∀ e ∈ entries, ok e.1 e.2) ∧ input = writeEntries writeKey writeValue entries ++ rest ∧
        m' = m.insertMany entries := by
  induction n generalizing previous m input with
  | zero =>
      rw [mapLoop, pure_eq_ok]
      constructor
      · intro h
        refine ⟨[], rfl, ⟨List.Pairwise.nil, ?_⟩, ?_, h.2, ?_⟩
        · exact fun p _ e he => absurd he List.not_mem_nil
        · exact fun e he => absurd he List.not_mem_nil
        · rw [Std.ExtTreeMap.insertMany_nil, h.1]
      · intro h
        obtain ⟨entries, hlen, -, -, hinput, hm⟩ := h
        rw [List.length_eq_zero_iff.mp hlen] at hinput hm
        rw [hm, Std.ExtTreeMap.insertMany_nil]
        exact ⟨rfl, hinput⟩
  | succ n ih =>
      rw [mapLoop, hkey.bind_eq_ok]
      simp only [guard_eq_ok, (hvalue _).bind_eq_ok, ih, true_and]
      have hprevious : ∀ key : κ, ¬(previous.any fun p => (compare p key).isGE) = true ↔
          ∀ p ∈ previous, compare p key = .lt := by
        intro key
        cases previous with
        | none => simp
        | some p => cases hp : compare p key <;> simp [hp]
      constructor
      · intro h
        obtain ⟨key, _, rfl, hfirst, value, _, hok, rfl, entries, hlen, hasc, hall, rfl, rfl⟩ := h
        refine ⟨(key, value) :: entries, by rw [List.length_cons, hlen],
          ascends_cons.mpr ⟨(hprevious key).mp hfirst, hasc⟩, ?_, ?_, ?_⟩
        · exact List.forall_mem_cons.mpr ⟨hok, hall⟩
        · simp [writeEntries]
        · rw [Std.ExtTreeMap.insertMany_cons]
      · intro h
        obtain ⟨entries, hlen, hasc, hall, hinput, hm⟩ := h
        cases entries with
        | nil => cases hlen
        | cons e entries =>
            rw [ascends_cons] at hasc
            rw [List.forall_mem_cons] at hall
            refine ⟨e.1, writeValue e.1 e.2 ++ (writeEntries writeKey writeValue entries ++ rest),
              ?_, (hprevious e.1).mpr hasc.1, e.2, _, hall.1, rfl, entries, Nat.succ.inj hlen,
              hasc.2, hall.2, rfl, ?_⟩
            · rw [hinput]
              simp [writeEntries]
            · rw [hm, ← Std.ExtTreeMap.insertMany_cons]

/-- A map of a given size. -/
theorem mapLoop_exact [Std.LawfulEqOrd κ] (hkey : Exact (fun _ => True) writeKey readKey)
    (hvalue : ∀ key, Exact (ok key) (writeValue key) (readValue key)) (n : ℕ) :
    Exact (fun m : Std.ExtTreeMap κ ν => m.size = n ∧ ∀ key value, m[key]? = some value →
        ok key value) (fun m => writeEntries writeKey writeValue m.toList)
      (mapLoop bad readKey readValue n none ∅) := by
  refine exact_iff.mpr fun input rest m => ?_
  rw [mapLoop_eq_ok bad hkey hvalue]
  constructor
  · intro h
    obtain ⟨entries, hlen, hasc, hall, rfl, hm⟩ := h
    rw [← Std.ExtTreeMap.ofList_eq_insertMany_empty] at hm
    have hlist : m.toList = entries := by rw [hm, toList_ofList hasc]
    rw [hlist, ← Std.ExtTreeMap.length_toList, hlist]
    refine ⟨⟨hlen, fun key value hget => ?_⟩, rfl⟩
    rw [← Std.ExtTreeMap.mem_toList_iff_getElem?_eq_some, hlist] at hget
    exact hall _ hget
  · intro h
    refine ⟨m.toList, by rw [Std.ExtTreeMap.length_toList, h.1.1], ascends_toList m,
      fun e he => h.1.2 e.1 e.2 (Std.ExtTreeMap.mem_toList_iff_getElem?_eq_some.mp he), h.2, ?_⟩
    rw [← Std.ExtTreeMap.ofList_eq_insertMany_empty]
    apply Std.ExtTreeMap.toList_inj.mp
    rw [toList_ofList (ascends_toList m)]

theorem map_exact [Std.LawfulEqOrd κ] (hkey : Exact (fun _ => True) writeKey readKey)
    (hvalue : ∀ key, Exact (ok key) (writeValue key) (readValue key)) {limit : ℕ}
    (hlimit : limit < 2 ^ 32) :
    Exact (fun m : Std.ExtTreeMap κ ν => m.size ≤ limit ∧ ∀ key value, m[key]? = some value →
        ok key value) (writeMap writeKey writeValue) (map bad readKey readValue limit) := by
  refine exact_iff.mpr fun input rest m => ?_
  rw [map, (count_exact bad hlimit).bind_eq_ok]
  simp only [exact_iff.mp (mapLoop_exact bad hkey hvalue _)]
  constructor
  · intro h
    obtain ⟨n, mid, hn, rfl, ⟨rfl, hall⟩, rfl⟩ := h
    exact ⟨⟨hn, hall⟩, (List.append_assoc _ _ _).symm⟩
  · intro h
    refine ⟨m.size, _, h.1.1, ?_, ⟨rfl, h.1.2⟩, rfl⟩
    rw [h.2, writeMap, List.append_assoc]

end Maps

end CausalFrontierRatchet.FieldCodec
