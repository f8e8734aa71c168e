import CausalFrontierRatchet.PersistenceRuns

/-!
The durable outbox.  In every run, with failed operations and restarts, the messages that committed
operations produced are given ascending identifiers, and what is pending is what was queued and not
acknowledged.
-/

namespace CausalFrontierRatchet.DurableOutbox

open Crypto Commands Store StoreCalls ConferenceSeat Persistence StateCodec
open StateUpdates PersistenceRuns

/-! ## What a history tells -/

/-- The messages that committed operations produced. -/
def producedIn (log : List Entry) : List Message :=
  log.filterMap fun entry => match entry with
    | .produced message => some message
    | _ => none

/-- The deliveries that were queued. -/
def queuedIn (log : List Entry) : List PendingDelivery :=
  log.filterMap fun entry => match entry with
    | .queued delivery => some delivery
    | _ => none

/-- The deliveries that were acknowledged. -/
def acknowledgedIn (log : List Entry) : List OutboundId :=
  log.filterMap fun entry => match entry with
    | .acknowledged id => some id
    | _ => none

/-- The message of a delivery. -/
def messageOf (d : PendingDelivery) : Message :=
  ⟨d.recipient, d.payload⟩

section Logs

variable (log new : List Entry) (messages : List Message) (deliveries : List PendingDelivery)

@[simp] theorem producedIn_append : producedIn (log ++ new) = producedIn log ++ producedIn new :=
  List.filterMap_append

@[simp] theorem queuedIn_append : queuedIn (log ++ new) = queuedIn log ++ queuedIn new :=
  List.filterMap_append

@[simp] theorem acknowledgedIn_append :
    acknowledgedIn (log ++ new) = acknowledgedIn log ++ acknowledgedIn new :=
  List.filterMap_append

@[simp] theorem producedIn_produced : producedIn (messages.map .produced) = messages := by
  simp [producedIn, List.filterMap_map]

@[simp] theorem producedIn_queued : producedIn (deliveries.map .queued) = [] := by
  simp [producedIn, List.filterMap_map]

@[simp] theorem queuedIn_produced : queuedIn (messages.map .produced) = [] := by
  simp [queuedIn, List.filterMap_map]

@[simp] theorem queuedIn_queued : queuedIn (deliveries.map .queued) = deliveries := by
  simp [queuedIn, List.filterMap_map]

@[simp] theorem acknowledgedIn_produced : acknowledgedIn (messages.map .produced) = [] := by
  simp [acknowledgedIn, List.filterMap_map]

@[simp] theorem acknowledgedIn_queued : acknowledgedIn (deliveries.map .queued) = [] := by
  simp [acknowledgedIn, List.filterMap_map]

end Logs

/-! ## The ledger -/

section Ledger

variable {P : Primitives} {log new : List Entry} {s s' : LogicalState}

/-- What the outbox keeps with the history. -/
structure Ledger (log : List Entry) (s : LogicalState) : Prop where
  complete : (queuedIn log).map messageOf = producedIn log
  ascending : (queuedIn log).Pairwise (fun d e => d.id < e.id)
  given : ∀ d ∈ queuedIn log, d.id < s.nextOutboundId
  once : (acknowledgedIn log).Nodup
  queued : ∀ id ∈ acknowledgedIn log, ∃ d ∈ queuedIn log, d.id = id
  outbox : ∀ (id : OutboundId) (d : PendingDelivery), s.outbox[id]? = some d ↔
    d ∈ queuedIn log ∧ d.id = id ∧ id ∉ acknowledgedIn log

theorem ledger_initial (conference : Conference) (options : PersistenceOptions) :
    Ledger [] (.initial conference options) := by
  constructor <;> simp [queuedIn, producedIn, acknowledgedIn, LogicalState.initial]

theorem map_messageOf (conference : Conference) {ids : List OutboundId} {messages : List Message}
    (h : ids.length = messages.length) :
    (deliveriesOf P conference ids messages).map messageOf = messages := by
  rw [deliveriesOf, List.map_zipWith]
  apply List.ext_getElem
  · simp [h]
  · intro i hi hi'
    simp [messageOf, pendingDelivery]

theorem map_id (conference : Conference) {ids : List OutboundId} {messages : List Message}
    (h : ids.length = messages.length) :
    (deliveriesOf P conference ids messages).map PendingDelivery.id = ids := by
  rw [deliveriesOf, List.map_zipWith]
  apply List.ext_getElem
  · simp [h]
  · intro i hi hi'
    simp [pendingDelivery]

/-- Queued messages come after everything that was queued before. -/
theorem ledger_queued {messages : List Message} {ids : List OutboundId} (h : Ledger log s)
    (hqueued : Queued P messages s ids s') :
    Ledger (log ++ (messages.map .produced ++
      (deliveriesOf P s.conference ids messages).map .queued)) s' := by
  have hnew : ∀ d ∈ deliveriesOf P s.conference ids messages, s.nextOutboundId ≤ d.id := by
    intro d hd
    exact hqueued.fresh _ (mem_deliveriesOf hd)
  have hnext : s.nextOutboundId ≤ s'.nextOutboundId := by
    rw [UInt64.le_iff_toNat_le, hqueued.next]
    omega
  -- an acknowledged identifier was given out before, so it is none of the new ones
  have hunacknowledged : ∀ d ∈ deliveriesOf P s.conference ids messages,
      d.id ∉ acknowledgedIn log := by
    intro d hd hack
    obtain ⟨e, he, heq⟩ := h.queued _ hack
    have hlt := h.given e he
    rw [heq] at hlt
    exact UInt64.lt_irrefl _ (UInt64.lt_of_lt_of_le hlt (hnew d hd))
  constructor
  · simp [h.complete, map_messageOf _ hqueued.length]
  · simp only [queuedIn_append, queuedIn_produced, queuedIn_queued, List.nil_append]
    rw [List.pairwise_append]
    refine ⟨h.ascending, ?_, ?_⟩
    · rw [← List.pairwise_map (f := PendingDelivery.id) (R := (· < ·)), map_id _ hqueued.length]
      exact hqueued.ascending
    · intro d hd e he
      exact UInt64.lt_of_lt_of_le (h.given d hd) (hnew e he)
  · intro d hd
    simp only [queuedIn_append, queuedIn_produced, queuedIn_queued, List.nil_append,
      List.mem_append] at hd
    rcases hd with hd | hd
    · exact UInt64.lt_of_lt_of_le (h.given d hd) hnext
    · exact hqueued.given _ (mem_deliveriesOf hd)
  · simpa using h.once
  · intro id hid
    simp only [acknowledgedIn_append, acknowledgedIn_produced, acknowledgedIn_queued,
      List.append_nil] at hid
    obtain ⟨d, hd, heq⟩ := h.queued id hid
    exact ⟨d, by simp [hd], heq⟩
  · intro id d
    rw [hqueued.outbox, h.outbox]
    simp only [queuedIn_append, queuedIn_produced, queuedIn_queued, acknowledgedIn_append,
      acknowledgedIn_produced, acknowledgedIn_queued, List.nil_append, List.append_nil,
      List.mem_append]
    constructor
    · rintro (⟨hd, heq, hack⟩ | ⟨hd, rfl⟩)
      · exact ⟨Or.inl hd, heq, hack⟩
      · exact ⟨Or.inr hd, rfl, hunacknowledged d hd⟩
    · rintro ⟨hd | hd, heq, hack⟩
      · exact Or.inl ⟨hd, heq, hack⟩
      · exact Or.inr ⟨hd, heq⟩

theorem ledger_acknowledged {id : OutboundId} (h : Ledger log s) (hid : id ∈ s.outbox) :
    Ledger (log ++ [.acknowledged id]) { s with outbox := s.outbox.erase id } := by
  obtain ⟨d, hd⟩ := Option.isSome_iff_exists.mp (Std.ExtTreeMap.mem_iff_isSome_getElem?.mp hid)
  obtain ⟨hqueued, heq, hack⟩ := (h.outbox id d).mp hd
  have hproduced : producedIn [.acknowledged id] = [] := rfl
  have hnone : queuedIn [.acknowledged id] = [] := rfl
  have hsome : acknowledgedIn [.acknowledged id] = [id] := rfl
  constructor
  · simpa [hproduced, hnone] using h.complete
  · simpa [hnone] using h.ascending
  · simpa [hnone] using h.given
  · rw [acknowledgedIn_append, hsome, List.nodup_append]
    refine ⟨h.once, List.nodup_singleton id, ?_⟩
    intro a ha b hb hab
    rw [List.mem_singleton.mp hb] at hab
    exact hack (hab ▸ ha)
  · intro id' hid'
    rw [acknowledgedIn_append, hsome, List.mem_append, List.mem_singleton] at hid'
    rw [queuedIn_append, hnone, List.append_nil]
    rcases hid' with hid' | rfl
    · exact h.queued id' hid'
    · exact ⟨d, hqueued, heq⟩
  · intro id' e
    rw [queuedIn_append, hnone, List.append_nil, acknowledgedIn_append, hsome, List.mem_append,
      List.mem_singleton, Std.ExtTreeMap.getElem?_erase]
    by_cases hsame : id = id'
    · subst hsame
      simp
    · rw [if_neg (by rwa [Std.compare_eq_iff_eq]), h.outbox]
      constructor
      · rintro ⟨he, heq', hack'⟩
        exact ⟨he, heq', fun hor => hor.elim hack' fun h => hsame h.symm⟩
      · rintro ⟨he, heq', hor⟩
        exact ⟨he, heq', fun h => hor (Or.inl h)⟩

theorem ledger_update (h : Ledger log s) (hupdate : Update P s new s') :
    Ledger (log ++ new) s' := by
  cases hupdate with
  | queued hqueued => exact ledger_queued h hqueued
  | acknowledged hid => exact ledger_acknowledged h hid
  | handled payload hid =>
      rename_i id
      have hproduced : producedIn [.handled id payload] = [] := rfl
      have hnone : queuedIn [.handled id payload] = [] := rfl
      have hack : acknowledgedIn [.handled id payload] = [] := rfl
      constructor
      · simpa [hproduced, hnone] using h.complete
      · simpa [hnone] using h.ascending
      · simpa [hnone, recordInbound] using h.given
      · simpa [hack] using h.once
      · simpa [hack, hnone] using h.queued
      · simpa [hack, hnone, recordInbound] using h.outbox
  | carried conference sequence =>
      rw [List.append_nil]
      exact ⟨h.complete, h.ascending, h.given, h.once, h.queued, h.outbox⟩

/-- Two lists of deliveries in ascending order with the same members are the same. -/
theorem eq_of_ascending {ds es : List PendingDelivery}
    (hds : ds.Pairwise (fun d e => d.id < e.id)) (hes : es.Pairwise (fun d e => d.id < e.id))
    (h : ∀ d, d ∈ ds ↔ d ∈ es) : ds = es := by
  have hirrefl : Std.Irrefl (fun d e : PendingDelivery => d.id < e.id) :=
    ⟨fun d => UInt64.lt_irrefl _⟩
  have hantisymm : Std.Antisymm (fun d e : PendingDelivery => d.id < e.id) :=
    ⟨fun d e hde hed => absurd hed (UInt64.lt_asymm hde)⟩
  exact hds.eq_of_mem_iff hes h

theorem pendingDeliveries_ascending (hs : Coherent s) :
    s.pendingDeliveries.Pairwise (fun d e => d.id < e.id) := by
  rw [LogicalState.pendingDeliveries, List.pairwise_map]
  have hkeys := Std.ExtTreeMap.ordered_keys_toList (t := s.outbox)
  refine hkeys.imp_of_mem ?_
  intro a b ha hb hlt
  have hkey : ∀ e ∈ s.outbox.toList, e.2.id = e.1 := by
    intro e he
    exact hs.keyed e.1 e.2 (Std.ExtTreeMap.mem_toList_iff_getElem?_eq_some.mp he)
  rw [hkey a ha, hkey b hb]
  exact Std.compare_eq_lt.mp hlt

theorem Ledger.pending (h : Ledger log s) (hs : Coherent s) :
    s.pendingDeliveries = (queuedIn log).filter (fun d => d.id ∉ acknowledgedIn log) := by
  apply eq_of_ascending (pendingDeliveries_ascending hs) (h.ascending.filter _)
  intro d
  have hmem := (outbox_iff hs d.id d).symm.trans (h.outbox d.id d)
  simpa using hmem

end Ledger

/-! ## Runs -/

section Runs

variable {P : Primitives} {log : List Entry} {sys : System} {s : LogicalState}

theorem History.ledger (h : History P log sys) (hlive : sys.live = some s) :
    Kept P sys.store s ∧ Ledger log s := by
  obtain ⟨s', hkept, hledger, hsame⟩ := h.invariant (Q := Ledger) ledger_initial
    fun _ hledger hupdate => ledger_update hledger hupdate
  rw [hsame s hlive]
  exact ⟨hkept, hledger⟩

/-- A founder's conference. -/
def foundation : Except Persistence.Error PersistentConference :=
  PersistentConference.createWithOptions toy noFaults .default .default [1, 2, 3, 4, 5, 6, 7, 8]
    blank

end Runs

end CausalFrontierRatchet.DurableOutbox
