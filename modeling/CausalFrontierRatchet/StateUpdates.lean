import CausalFrontierRatchet.StateCodec

/-!
What the updates of a logical state do: messages enter the outbox under the next identifiers, an
acknowledged one leaves it, and the inbound window takes a new identifier in and drops the oldest.
-/

namespace CausalFrontierRatchet.StateUpdates

open Crypto Commands ConferenceSeat Persistence StateCodec

/-! ## Queueing -/

section Queueing

variable {P : Primitives} {s s' : LogicalState} {messages : List Message} {ids : List OutboundId}

/-- The deliveries of messages under given identifiers. -/
def deliveriesOf (P : Primitives) (conference : Conference) (ids : List OutboundId)
    (messages : List Message) : List PendingDelivery :=
  List.zipWith (pendingDelivery P conference) ids messages

/-- Messages were given the next identifiers, in order, and put into the outbox. -/
structure Queued (P : Primitives) (messages : List Message) (s : LogicalState)
    (ids : List OutboundId) (s' : LogicalState) : Prop where
  rest : s' = { s with outbox := s'.outbox, nextOutboundId := s'.nextOutboundId }
  length : ids.length = messages.length
  ascending : ids.Pairwise (· < ·)
  fresh : ∀ id ∈ ids, s.nextOutboundId ≤ id
  next : s'.nextOutboundId.toNat = s.nextOutboundId.toNat + messages.length
  given : ∀ id ∈ ids, id < s'.nextOutboundId
  outbox : ∀ (id : OutboundId) (d : PendingDelivery), s'.outbox[id]? = some d ↔
    s.outbox[id]? = some d ∨ d ∈ deliveriesOf P s.conference ids messages ∧ d.id = id
  size : s'.outbox.size ≤ s.outbox.size + messages.length

theorem enqueueAll_queued (hahead : ∀ id ∈ s.outbox, id < s.nextOutboundId)
    (hroom : s.nextOutboundId.toNat + messages.length < 2 ^ 64) :
    Queued P messages s (enqueueAll P messages s).1 (enqueueAll P messages s).2 := by
  induction messages generalizing s with
  | nil =>
      exact ⟨rfl, rfl, List.Pairwise.nil, by simp [enqueueAll], rfl, by simp [enqueueAll],
        by simp [enqueueAll, deliveriesOf], Nat.le_refl _⟩
  | cons message messages ih =>
      rw [List.length_cons] at hroom
      have hsucc : (s.nextOutboundId + 1).toNat = s.nextOutboundId.toNat + 1 := by
        rw [UInt64.toNat_add, UInt64.toNat_one, Nat.mod_eq_of_lt (by omega)]
      have hlt : s.nextOutboundId < s.nextOutboundId + 1 := by
        rw [UInt64.lt_iff_toNat_lt, hsucc]
        omega
      have hnew : s.nextOutboundId ∉ s.outbox := fun hmem => UInt64.lt_irrefl _ (hahead _ hmem)
      have hq := ih (s := { s with
          nextOutboundId := s.nextOutboundId + 1
          outbox := s.outbox.insert s.nextOutboundId
            (pendingDelivery P s.conference s.nextOutboundId message) })
        (by
          intro id hid
          rw [Std.ExtTreeMap.mem_insert, Std.compare_eq_iff_eq] at hid
          rcases hid with rfl | hid
          · exact hlt
          · exact UInt64.lt_trans (hahead id hid) hlt)
        (by
          dsimp only
          omega)
      rw [enqueueAll]
      generalize enqueueAll P messages _ = queued at hq ⊢
      have hgiven : s.nextOutboundId < queued.2.nextOutboundId := by
        have hnext := hq.next
        dsimp only at hnext
        rw [UInt64.lt_iff_toNat_lt]
        omega
      refine ⟨hq.rest, congrArg Nat.succ hq.length, ?_, ?_, ?_, ?_, fun id d => ?_, ?_⟩
      · rw [List.pairwise_cons]
        exact ⟨fun id hid => UInt64.lt_of_lt_of_le hlt (hq.fresh id hid), hq.ascending⟩
      · rw [List.forall_mem_cons]
        exact ⟨UInt64.le_refl _, fun id hid =>
          UInt64.le_of_lt (UInt64.lt_of_lt_of_le hlt (hq.fresh id hid))⟩
      · rw [hq.next, List.length_cons]
        dsimp only
        omega
      · rw [List.forall_mem_cons]
        exact ⟨hgiven, hq.given⟩
      · rw [hq.outbox, Std.ExtTreeMap.getElem?_insert, deliveriesOf, deliveriesOf,
          List.zipWith_cons_cons, List.mem_cons]
        by_cases heq : s.nextOutboundId = id
        · subst heq
          rw [if_pos Std.ReflCmp.compare_self, Std.ExtTreeMap.getElem?_eq_none hnew]
          constructor
          · rintro (hd | ⟨hd, hid⟩)
            · cases hd
              exact Or.inr ⟨Or.inl rfl, rfl⟩
            · exact Or.inr ⟨Or.inr hd, hid⟩
          · rintro (hd | ⟨rfl | hd, hid⟩)
            · cases hd
            · exact Or.inl rfl
            · exact Or.inr ⟨hd, hid⟩
        · rw [if_neg fun h => heq (Std.compare_eq_iff_eq.mp h)]
          constructor
          · rintro (hd | ⟨hd, hid⟩)
            · exact Or.inl hd
            · exact Or.inr ⟨Or.inr hd, hid⟩
          · rintro (hd | ⟨rfl | hd, hid⟩)
            · exact Or.inl hd
            · exact absurd hid heq
            · exact Or.inr ⟨hd, hid⟩
      · have hinsert := hq.size
        have hstep : (s.outbox.insert s.nextOutboundId
            (pendingDelivery P s.conference s.nextOutboundId message)).size ≤ s.outbox.size + 1 :=
          Std.ExtTreeMap.size_insert_le
        rw [List.length_cons]
        dsimp only at hinsert ⊢
        omega

theorem mem_deliveriesOf {conference : Conference} {d : PendingDelivery}
    (h : d ∈ deliveriesOf P conference ids messages) : d.id ∈ ids := by
  rw [deliveriesOf, ← List.map_uncurry_zip_eq_zipWith] at h
  obtain ⟨e, he, rfl⟩ := List.mem_map.mp h
  exact (List.of_mem_zip he).1

theorem Queued.coherent (h : Queued P messages s ids s') (hs : Coherent s)
    (hroom : s.outbox.size + messages.length ≤ s.options.maxOutboxEntries) : Coherent s' := by
  have hle : s.nextOutboundId ≤ s'.nextOutboundId := by
    rw [UInt64.le_iff_toNat_le, h.next]
    omega
  have hkeyed : Keyed s'.outbox := by
    intro id d hd
    rcases (h.outbox id d).mp hd with hold | hnew
    · exact hs.keyed id d hold
    · exact hnew.2
  have hahead : ∀ id ∈ s'.outbox, id < s'.nextOutboundId := by
    intro id hid
    obtain ⟨d, hd⟩ := Option.isSome_iff_exists.mp (Std.ExtTreeMap.mem_iff_isSome_getElem?.mp hid)
    rcases (h.outbox id d).mp hd with hold | ⟨hnew, rfl⟩
    · have hmem : id ∈ s.outbox := Std.ExtTreeMap.mem_iff_isSome_getElem?.mpr (by rw [hold]; rfl)
      exact UInt64.lt_of_lt_of_le (hs.ahead id hmem) hle
    · exact h.given _ (mem_deliveriesOf hnew)
  have hsize := h.size
  rw [h.rest]
  exact ⟨hs.options, hs.window, hs.distinct, hs.digests, Nat.le_trans hsize hroom, hkeyed, hahead⟩

/-- A queue that has no room changes nothing. -/
theorem enqueue_cases (P : Primitives) (messages : List Message) (hs : Coherent s) :
    (∃ e, enqueue P messages s = (.error e, s)) ∨
      ∃ ids s', enqueueAll P messages s = (ids, s') ∧ enqueue P messages s = (.ok ids, s') ∧
        Queued P messages s ids s' ∧ Coherent s' := by
  unfold enqueue
  rw [bind_run, get_run]
  dsimp only
  split_ifs with hover hfull hlast
  · exact Or.inl ⟨_, rfl⟩
  · exact Or.inl ⟨_, rfl⟩
  · exact Or.inl ⟨_, rfl⟩
  · have hq : Queued P messages s _ _ := enqueueAll_queued hs.ahead (Nat.not_le.mp hlast)
    exact Or.inr ⟨_, _, rfl, rfl, hq, hq.coherent hs (by omega)⟩

theorem coherent_conference (hs : Coherent s) (conference : Conference) :
    Coherent { s with conference } :=
  ⟨hs.options, hs.window, hs.distinct, hs.digests, hs.room, hs.keyed, hs.ahead⟩

theorem coherent_sequence (hs : Coherent s) (sequence : UInt64) : Coherent { s with sequence } :=
  ⟨hs.options, hs.window, hs.distinct, hs.digests, hs.room, hs.keyed, hs.ahead⟩

theorem coherent_discard (hs : Coherent s) (id : OutboundId) :
    Coherent { s with outbox := s.outbox.erase id } where
  options := hs.options
  window := hs.window
  distinct := hs.distinct
  digests := hs.digests
  room := Nat.le_trans Std.ExtTreeMap.size_erase_le hs.room
  keyed := by
    intro id' d hd
    dsimp only at hd
    rw [Std.ExtTreeMap.getElem?_erase] at hd
    split_ifs at hd
    exact hs.keyed id' d hd
  ahead := by
    intro id' hid
    rw [Std.ExtTreeMap.mem_erase] at hid
    exact hs.ahead id' hid.2

theorem nodup_recorded (hs : Coherent s) {id : InboundId} (hnew : id ∉ s.inbound) :
    (s.inboundOrder ++ [id]).Nodup := by
  rw [List.nodup_append]
  refine ⟨hs.distinct, List.nodup_singleton id, ?_⟩
  intro a ha b hb heq
  rw [List.mem_singleton.mp hb] at heq
  exact hnew ((hs.digests id).mpr (heq ▸ ha))

theorem coherent_recordInbound (hs : Coherent s) {id : InboundId} (hnew : id ∉ s.inbound)
    (digest : BitVec 256) : Coherent (recordInbound id digest s) where
  options := hs.options
  window := Eviction.length_evict_le _ _ _
  distinct := Eviction.nodup_evict _ _ (nodup_recorded hs hnew)
  digests := by
    apply Eviction.mem_evict (nodup_recorded hs hnew)
    intro x
    rw [Std.ExtTreeMap.mem_insert, Std.compare_eq_iff_eq, hs.digests, List.mem_append,
      List.mem_singleton, or_comm, eq_comm (a := x)]
  room := hs.room
  keyed := hs.keyed
  ahead := hs.ahead

end Queueing

end CausalFrontierRatchet.StateUpdates
