import CausalFrontierRatchet.Operation
import CausalFrontierRatchet.PrefixCodec

/-!
The readers of the canonical codec are exact for its writers: each reads back what its writer
produced, within the limits it enforces, and accepts nothing else.  The elements of a set are written
in the order of their images, and the reader insists on that order.
-/

namespace CausalFrontierRatchet.TlvCodec

open BigEndian Tlv PrefixCodec Operation

/-! ## Fields -/

section Fields

theorem take_exact (n : ℕ) : Exact (fun v : Bytes => v.length = n) id (Reader.take n) where
  complete := by
    rintro a rest rfl
    simp [Reader.take]
  sound := by
    intro input rest a h
    unfold Reader.take at h
    split at h
    · cases h
    · cases h
      simp only [id, List.take_append_drop, and_true]
      rw [List.length_take]
      omega

theorem take_bind {β : Type} {n : ℕ} {v : Bytes} (hv : v.length = n) (rest : Bytes)
    (next : Bytes → Reader β) : (Reader.take n >>= next) (v ++ rest) = next v rest :=
  (take_exact n).bind_complete hv rest next

theorem tag_exact (want : UInt8) :
    Exact (fun _ : Unit => True) (fun _ => [want]) (Reader.tag want) where
  complete := by
    intro a rest _
    rw [Reader.tag, take_bind (show [want].length = 1 from rfl), if_pos rfl]
    rfl
  sound := by
    intro input rest a h
    obtain ⟨got, mid, -, rfl, hnext⟩ := (take_exact 1).bind_sound h
    split at hnext
    · rename_i heq
      cases hnext
      exact ⟨trivial, by rw [heq]; rfl⟩
    · cases hnext

theorem len32_exact {limit : ℕ} (hlimit : limit < 256 ^ 4) :
    Exact (fun n => n ≤ limit) (beBytes 4) (Reader.len32 limit) where
  complete := by
    intro n rest hn
    rw [Reader.len32, take_bind (beBytes_length 4 n)]
    have hvalue : ofBe (beBytes 4 n) = n := ofBe_beBytes_of_lt (by omega)
    rw [hvalue, if_neg (by omega)]
    rfl
  sound := by
    intro input rest n h
    obtain ⟨raw, mid, hlen, rfl, hnext⟩ := (take_exact 4).bind_sound h
    obtain ⟨hle, hpure⟩ := ok_of_guard hnext
    cases hpure
    refine ⟨by omega, ?_⟩
    rw [← hlen, beBytes_ofBe]
    rfl

theorem bytes_exact :
    Exact (fun v : Bytes => v.length ≤ MAX_FIELD) Writer.bytes Reader.bytes where
  complete := by
    intro v rest hv
    have hsplit : Writer.bytes v ++ rest = [T_BYTES] ++ (beBytes 4 v.length ++ (v ++ rest)) := by
      simp [Writer.bytes]
    rw [hsplit, Reader.bytes, (tag_exact T_BYTES).bind_complete (a := ()) trivial,
      (len32_exact (by decide)).bind_complete hv]
    exact (take_exact v.length).complete rest rfl
  sound := by
    intro input rest v h
    obtain ⟨_, mid, -, rfl, hlen⟩ := (tag_exact T_BYTES).bind_sound h
    obtain ⟨n, mid', hn, rfl, htake⟩ := (len32_exact (by decide)).bind_sound hlen
    obtain ⟨rfl, rfl⟩ := (take_exact n).sound htake
    exact ⟨hn, by simp [Writer.bytes]⟩

theorem fromSlice_bytesOf {w : ℕ} (hw : 8 ∣ w) (v : BitVec w) : fromSlice w (bytesOf v) = some v := by
  rw [fromSlice, if_pos (bytesOf_length v), ofBytes_bytesOf hw]

theorem bytesOf_of_fromSlice {w : ℕ} (hw : 8 ∣ w) {b : Bytes} {v : BitVec w}
    (h : fromSlice w b = some v) : bytesOf v = b := by
  unfold fromSlice at h
  split at h
  · rename_i hb
    cases h
    exact bytesOf_ofBytes hw hb
  · cases h

theorem array_exact {w : ℕ} (hw : 8 ∣ w) (hlen : w / 8 ≤ MAX_FIELD) :
    Exact (fun _ : BitVec w => True) Writer.array (Reader.array w) where
  complete := by
    intro v rest _
    rw [Reader.array, Writer.array, bytes_exact.bind_complete (by rwa [bytesOf_length]),
      fromSlice_bytesOf hw]
    rfl
  sound := by
    intro input rest v h
    obtain ⟨b, mid, -, rfl, hslice⟩ := bytes_exact.bind_sound h
    cases hsome : fromSlice w b with
    | none =>
        rw [hsome] at hslice
        cases hslice
    | some x =>
        rw [hsome] at hslice
        cases hslice
        exact ⟨trivial, by rw [Writer.array, bytesOf_of_fromSlice hw hsome]⟩

theorem u64_exact : Exact (fun _ : UInt64 => True) Writer.u64 Reader.u64 where
  complete := by
    intro v rest _
    have hsplit : Writer.u64 v ++ rest = [T_U64] ++ (beBytes 8 v.toNat ++ rest) := by
      simp [Writer.u64]
    rw [hsplit, Reader.u64, (tag_exact T_U64).bind_complete (a := ()) trivial,
      take_bind (beBytes_length 8 _), ofBe_beBytes_of_lt v.toNat_lt]
    simp
  sound := by
    intro input rest v h
    obtain ⟨_, mid, -, rfl, hraws⟩ := (tag_exact T_U64).bind_sound h
    obtain ⟨raw, mid', hraw, rfl, hpure⟩ := (take_exact 8).bind_sound hraws
    cases hpure
    have hlt : ofBe raw < 2 ^ 64 := by
      have hbound := ofBe_lt raw
      rw [hraw] at hbound
      exact hbound
    refine ⟨trivial, ?_⟩
    have hvalue : (UInt64.ofNat (ofBe raw)).toNat = ofBe raw := by
      rw [UInt64.toNat_ofNat', Nat.mod_eq_of_lt hlt]
    rw [Writer.u64, hvalue, ← hraw, beBytes_ofBe]
    simp

theorem u32_exact : Exact (fun _ : UInt32 => True) Writer.u32 Reader.u32 where
  complete := by
    intro v rest _
    rw [Reader.u32, Writer.u32, u64_exact.bind_complete trivial, if_pos (by simpa using v.toNat_lt)]
    simp
  sound := by
    intro input rest v h
    obtain ⟨n, mid, -, rfl, hnext⟩ := u64_exact.bind_sound h
    split at hnext
    · rename_i hn
      cases hnext
      refine ⟨trivial, ?_⟩
      rw [Writer.u32]
      congr 2
      apply UInt64.toNat_inj.mp
      rw [UInt32.toNat_toUInt64, UInt64.toNat_toUInt32, Nat.mod_eq_of_lt hn]
    · cases hnext

end Fields

/-! ## Collections -/

section Collections

variable {α : Type} {ok : α → Prop} {write : α → Bytes} {read : Reader α}

theorem times_exact (h : Exact ok write read) (n : ℕ) :
    Exact (fun items : List α => items.length = n ∧ ∀ a ∈ items, ok a) (List.flatMap write)
      (Reader.times read n) := by
  induction n with
  | zero =>
      constructor
      · rintro items rest ⟨hlen, -⟩
        rw [List.length_eq_zero_iff.mp hlen]
        rfl
      · intro input rest items hread
        cases hread
        simp
  | succ n ih =>
      constructor
      · rintro items rest ⟨hlen, hok⟩
        cases items with
        | nil => cases hlen
        | cons a items =>
            rw [List.forall_mem_cons] at hok
            rw [List.flatMap_cons, List.append_assoc, Reader.times, h.bind_complete hok.1,
              ih.bind_complete ⟨Nat.succ.inj hlen, hok.2⟩]
            rfl
      · intro input rest items hread
        obtain ⟨a, mid, ha, rfl, hmid⟩ := h.bind_sound hread
        obtain ⟨tail, mid', ⟨hlen, htail⟩, rfl, hpure⟩ := ih.bind_sound hmid
        cases hpure
        simp only [List.length_cons, hlen, List.forall_mem_cons, List.flatMap_cons,
          List.append_assoc, and_true, true_and]
        exact ⟨ha, htail⟩

theorem list_exact (h : Exact ok write read) :
    Exact (fun items : List α => items.length ≤ MAX_ITEMS ∧ ∀ a ∈ items, ok a) (Writer.list write)
      (Reader.list read) where
  complete := by
    intro items rest hitems
    have hsplit : Writer.list write items ++ rest =
        [T_LIST] ++ (beBytes 4 items.length ++ (items.flatMap write ++ rest)) := by
      simp [Writer.list]
    rw [hsplit, Reader.list, (tag_exact T_LIST).bind_complete (a := ()) trivial,
      (len32_exact (by decide)).bind_complete hitems.1]
    exact (times_exact h _).complete rest ⟨rfl, hitems.2⟩
  sound := by
    intro input rest items hread
    obtain ⟨_, mid, -, rfl, hlen⟩ := (tag_exact T_LIST).bind_sound hread
    obtain ⟨n, mid', hn, rfl, htimes⟩ := (len32_exact (by decide)).bind_sound hlen
    obtain ⟨⟨rfl, hok⟩, rfl⟩ := (times_exact h n).sound htimes
    exact ⟨⟨hn, hok⟩, by simp [Writer.list]⟩

/-- The images ascend strictly, from the previous one on. -/
def Ascends (write : α → Bytes) (prev : Option Bytes) (items : List α) : Prop :=
  (items.map write).Pairwise (· < ·) ∧ ∀ p ∈ prev, ∀ a ∈ items, p < write a

theorem ascends_cons {prev : Option Bytes} {a : α} {items : List α} :
    Ascends write prev (a :: items) ↔
      (∀ p ∈ prev, p < write a) ∧ Ascends write (some (write a)) items := by
  simp only [Ascends, List.map_cons, List.pairwise_cons, List.forall_mem_map, List.forall_mem_cons,
    Option.mem_some_iff, forall_eq']
  constructor
  · rintro ⟨⟨hhead, htail⟩, hprev⟩
    exact ⟨fun p hp => (hprev p hp).1, htail, hhead⟩
  · rintro ⟨hprev, htail, hhead⟩
    exact ⟨⟨hhead, htail⟩, fun p hp => ⟨hprev p hp, fun b hb => List.lt_trans (hprev p hp) (hhead b hb)⟩⟩

/-- One round of the set reader, once an element was read. -/
theorem ascending_succ {n : ℕ} {prev : Option Bytes} {a : α} {rest : Bytes}
    (h : read (write a ++ rest) = .ok (a, rest)) :
    Reader.ascending read (n + 1) prev (write a ++ rest) =
      if prev.any (fun p => write a ≤ p) then .error (.encoding "set not in canonical order")
      else (Reader.ascending read n (some (write a)) rest).map fun out => (a :: out.1, out.2) := by
  have himage : (write a ++ rest).take ((write a ++ rest).length - rest.length) = write a := by
    simp
  simp only [Reader.ascending, h, bind, Except.bind, himage]
  split
  · rfl
  · simp only [pure, Except.pure]
    cases Reader.ascending read n (some (write a)) rest <;> rfl

theorem ascending_exact (h : Exact ok write read) (n : ℕ) (prev : Option Bytes) :
    Exact (fun items : List α => items.length = n ∧ (∀ a ∈ items, ok a) ∧ Ascends write prev items)
      (List.flatMap write) (Reader.ascending read n prev) := by
  induction n generalizing prev with
  | zero =>
      constructor
      · rintro items rest ⟨hlen, -⟩
        rw [List.length_eq_zero_iff.mp hlen]
        rfl
      · intro input rest items hread
        cases hread
        simp [Ascends]
  | succ n ih =>
      constructor
      · rintro items rest ⟨hlen, hok, hasc⟩
        cases items with
        | nil => cases hlen
        | cons a items =>
            rw [List.forall_mem_cons] at hok
            rw [ascends_cons] at hasc
            rw [List.flatMap_cons, List.append_assoc, ascending_succ (h.complete _ hok.1),
              (ih (some (write a))).complete rest ⟨Nat.succ.inj hlen, hok.2, hasc.2⟩, if_neg]
            · rfl
            · simpa [Option.any_eq_true] using hasc.1
      · intro input rest items hread
        have hfirst : ∃ a mid, read input = .ok (a, mid) := by
          cases hr : read input with
          | error e =>
              simp only [Reader.ascending, hr] at hread
              cases hread
          | ok out => exact ⟨out.1, out.2, rfl⟩
        obtain ⟨a, mid, hr⟩ := hfirst
        obtain ⟨ha, rfl⟩ := h.sound hr
        rw [ascending_succ hr] at hread
        split at hread
        · cases hread
        · rename_i hprev
          cases htail : Reader.ascending read n (some (write a)) mid with
          | error e => rw [htail] at hread; cases hread
          | ok out =>
              rw [htail] at hread
              cases hread
              obtain ⟨⟨hlen, hok, hasc⟩, rfl⟩ := (ih (some (write a))).sound htail
              simp only [List.length_cons, hlen, List.forall_mem_cons, List.flatMap_cons,
                List.append_assoc, ascends_cons, and_true, true_and]
              exact ⟨⟨ha, hok⟩, by simpa [Option.any_eq_true] using hprev, hasc⟩

theorem images_of_ascending {items : List α} (h : (items.map write).Pairwise (· < ·)) :
    Writer.images write items = items.map write := by
  have hsorted : (items.map write).Pairwise (· ≤ ·) := h.imp List.le_of_lt
  have hdistinct : (items.map write).Pairwise (· ≠ ·) := by
    refine h.imp ?_
    rintro x _ hlt rfl
    exact List.lt_irrefl _ hlt
  rw [Writer.images, hsorted.insertionSort_eq]
  exact List.destutter_of_isChain _ _ hdistinct.isChain

theorem set_of_ascending {items : List α} (h : (items.map write).Pairwise (· < ·)) :
    Writer.set write items = T_SET :: beBytes 4 items.length ++ items.flatMap write := by
  rw [Writer.set, images_of_ascending h, List.length_map, List.flatMap_def]

theorem set_exact (h : Exact ok write read) :
    Exact (fun items : List α => items.length ≤ MAX_ITEMS ∧ (∀ a ∈ items, ok a) ∧
        (items.map write).Pairwise (· < ·)) (Writer.set write) (Reader.set read) where
  complete := by
    rintro items rest ⟨hlen, hok, hasc⟩
    have hsplit : Writer.set write items ++ rest =
        [T_SET] ++ (beBytes 4 items.length ++ (items.flatMap write ++ rest)) := by
      simp [set_of_ascending hasc]
    rw [hsplit, Reader.set, (tag_exact T_SET).bind_complete (a := ()) trivial,
      (len32_exact (by decide)).bind_complete hlen]
    exact (ascending_exact h _ none).complete rest ⟨rfl, hok, hasc, by simp⟩
  sound := by
    intro input rest items hread
    obtain ⟨_, mid, -, rfl, hlen⟩ := (tag_exact T_SET).bind_sound hread
    obtain ⟨n, mid', hn, rfl, hitems⟩ := (len32_exact (by decide)).bind_sound hlen
    obtain ⟨⟨rfl, hok, hasc, -⟩, rfl⟩ := (ascending_exact h n none).sound hitems
    exact ⟨⟨hn, hok, hasc⟩, by simp [set_of_ascending hasc]⟩

end Collections

/-! ## Sets of identifiers -/

section Identifiers

/-- Byte strings of one length are ordered as the numbers they denote. -/
theorem lt_iff_ofBe_lt {a b : Bytes} (hlen : a.length = b.length) : a < b ↔ ofBe a < ofBe b := by
  induction a generalizing b with
  | nil =>
      rw [List.length_eq_zero_iff.mp hlen.symm]
      simp [ofBe]
  | cons x a ih =>
      cases b with
      | nil => cases hlen
      | cons y b =>
          have hlen' : a.length = b.length := Nat.succ.inj hlen
          have ha := ofBe_lt a
          have hb := ofBe_lt b
          rw [List.cons_lt_cons_iff, ih hlen', ofBe, ofBe, hlen', UInt8.lt_iff_toNat_lt,
            ← UInt8.toNat_inj]
          rw [hlen'] at ha
          set size := 256 ^ b.length
          constructor
          · rintro (hlt | ⟨heq, hlt⟩)
            · have hstep : (x.toNat + 1) * size ≤ y.toNat * size := Nat.mul_le_mul_right _ hlt
              rw [Nat.add_mul] at hstep
              omega
            · rw [heq]
              omega
          · intro hlt
            rcases Nat.lt_trichotomy x.toNat y.toNat with hxy | hxy | hxy
            · exact Or.inl hxy
            · rw [hxy] at hlt
              exact Or.inr ⟨hxy, by omega⟩
            · have hstep : (y.toNat + 1) * size ≤ x.toNat * size := Nat.mul_le_mul_right _ hxy
              rw [Nat.add_mul] at hstep
              omega

theorem bytesOf_lt {w : ℕ} (hw : 8 ∣ w) {x y : BitVec w} : bytesOf x < bytesOf y ↔ x < y := by
  have hvalue : ∀ z : BitVec w, ofBe (bytesOf z) = z.toNat := by
    intro z
    obtain ⟨k, rfl⟩ := hw
    rw [bytesOf, ofBe_beBytes_of_lt]
    rw [Nat.mul_div_cancel_left k (by omega), show 256 = 2 ^ 8 from rfl, ← pow_mul]
    exact z.isLt
  rw [lt_iff_ofBe_lt (by simp), hvalue, hvalue, BitVec.lt_def]

theorem append_lt_append_left {p a b : Bytes} : p ++ a < p ++ b ↔ a < b := by
  induction p with
  | nil => rfl
  | cons x p ih => simpa [List.cons_lt_cons_iff] using ih

theorem array_lt {w : ℕ} (hw : 8 ∣ w) {x y : BitVec w} : Writer.array x < Writer.array y ↔ x < y := by
  have hsplit : ∀ z : BitVec w,
      Writer.array z = (T_BYTES :: beBytes 4 (w / 8)) ++ bytesOf z := by
    intro z
    rw [Writer.array, Writer.bytes, bytesOf_length]
  rw [hsplit, hsplit, append_lt_append_left, bytesOf_lt hw]

theorem compare_lt {w : ℕ} {x y : BitVec w} : compare x y = .lt ↔ x < y :=
  compareOfLessAndEq_eq_lt

theorem toList_ascending (s : OidSet) : (s.toList.map Writer.array).Pairwise (· < ·) := by
  rw [List.pairwise_map]
  apply Std.ExtTreeSet.ordered_toList.imp
  intro x y hxy
  exact (array_lt (by decide)).mpr (compare_lt.mp hxy)

theorem ofList_toList (s : OidSet) : (Std.ExtTreeSet.ofList s.toList : OidSet) = s := by
  apply Std.ExtTreeSet.ext_mem
  intro oid
  rw [Std.ExtTreeSet.mem_ofList, List.contains_iff_mem, Std.ExtTreeSet.mem_toList]

theorem toList_ofList {items : List Oid} (h : (items.map Writer.array).Pairwise (· < ·)) :
    (Std.ExtTreeSet.ofList items : OidSet).toList = items := by
  have hitems : items.Pairwise (· < ·) := by
    rw [List.pairwise_map] at h
    exact h.imp (array_lt (by decide)).mp
  have hlist : (Std.ExtTreeSet.ofList items : OidSet).toList.Pairwise (· < ·) :=
    Std.ExtTreeSet.ordered_toList.imp compare_lt.mp
  refine List.Perm.eq_of_pairwise ?_ hlist hitems ?_
  · intro x y _ _ hxy hyx
    exact absurd hxy (BitVec.lt_asymm hyx)
  · apply (List.perm_ext_iff_of_nodup (hlist.imp BitVec.ne_of_lt) (hitems.imp BitVec.ne_of_lt)).mpr
    intro oid
    rw [Std.ExtTreeSet.mem_toList, Std.ExtTreeSet.mem_ofList, List.contains_iff_mem]

theorem oid_exact : Exact (fun _ : Oid => True) Writer.array (Reader.array 256) :=
  array_exact (by decide) (by decide)

/-- A set of identifiers is read as it was written. -/
theorem oids_complete {β : Type} {s : OidSet} (hs : s.size ≤ MAX_ITEMS) (rest : Bytes)
    (next : List Oid → Reader β) :
    (Reader.set (Reader.array 256) >>= next) (Writer.set Writer.array s.toList ++ rest) =
      next s.toList rest :=
  (set_exact oid_exact).bind_complete
    ⟨by rwa [Std.ExtTreeSet.length_toList], fun _ _ => trivial, toList_ascending s⟩ rest next

theorem oids_sound {β : Type} {next : List Oid → Reader β} {input rest : Bytes} {b : β}
    (h : (Reader.set (Reader.array 256) >>= next) input = .ok (b, rest)) :
    ∃ (s : OidSet) (mid : Bytes), s.size ≤ MAX_ITEMS ∧
      input = Writer.set Writer.array s.toList ++ mid ∧ next s.toList mid = .ok (b, rest) := by
  obtain ⟨items, mid, ⟨hlen, -, hasc⟩, rfl, hnext⟩ := (set_exact oid_exact).bind_sound h
  refine ⟨.ofList items, mid, ?_, ?_, ?_⟩
  · rwa [← Std.ExtTreeSet.length_toList, toList_ofList hasc]
  · rw [toList_ofList hasc]
  · rwa [toList_ofList hasc]

end Identifiers

end CausalFrontierRatchet.TlvCodec
