import CausalFrontierRatchet.DurableOutbox
import CausalFrontierRatchet.Recency

/-!
Idempotent handling of inbound messages.  In every run, with failed operations and restarts, the
window holds the identifiers handled last, with the digests of what was handled under them.
-/

namespace CausalFrontierRatchet.InboundWindow

open BigEndian Crypto Commands Store StoreCalls ConferenceSeat Persistence StateCodec
open StateUpdates PersistenceRuns Recency

/-! ## What a history tells -/

/-- The inbound messages whose handling was committed. -/
def handledIn (log : List Entry) : List (InboundId × Bytes) :=
  log.filterMap fun entry => match entry with
    | .handled id payload => some (id, payload)
    | _ => none

/-- The identifiers handled, the last ones first. -/
def recentIds (log : List Entry) : List InboundId :=
  recents ((handledIn log).map Prod.fst)

/-- What was handled last under an identifier. -/
def lastPayload (log : List Entry) (id : InboundId) : Option Bytes :=
  (handledIn log).foldl (fun last entry => if entry.1 = id then some entry.2 else last) none

section Logs

variable (log new : List Entry)

theorem handledIn_append : handledIn (log ++ new) = handledIn log ++ handledIn new :=
  List.filterMap_append

theorem handledIn_queued (messages : List Message) (deliveries : List PendingDelivery) :
    handledIn (log ++ (messages.map .produced ++ deliveries.map .queued)) = handledIn log := by
  simp [handledIn, List.filterMap_map]

theorem recentIds_handled (id : InboundId) (payload : Bytes) :
    recentIds (log ++ [.handled id payload]) = remember (recentIds log) id := by
  rw [recentIds, handledIn_append, List.map_append]
  exact recents_append _ id

theorem lastPayload_handled (id x : InboundId) (payload : Bytes) :
    lastPayload (log ++ [.handled id payload]) x =
      if id = x then some payload else lastPayload log x := by
  rw [lastPayload, handledIn_append, List.foldl_append]
  rfl

end Logs

/-! ## The window -/

section Window

variable {P : Primitives} {log new : List Entry} {s s' : LogicalState}

variable (P) in
/-- What the window keeps with the history. -/
structure Window (log : List Entry) (s : LogicalState) : Prop where
  order : s.inboundOrder.reverse = (recentIds log).take s.options.inboundWindow
  digest : ∀ id ∈ s.inboundOrder, ∃ payload, lastPayload log id = some payload ∧
    s.inbound[id]? = some (inboundDigest P payload)

theorem window_initial (conference : Conference) (options : PersistenceOptions) :
    Window P [] (.initial conference options) := by
  constructor <;> simp [LogicalState.initial, recentIds, handledIn, recents]

/-- What leaves the window and the messages handled alone keeps them together. -/
theorem Window.same (h : Window P log s) (hlog : handledIn new = handledIn log)
    (horder : s'.inboundOrder = s.inboundOrder) (hinbound : s'.inbound = s.inbound)
    (hoptions : s'.options = s.options) : Window P new s' := by
  have hids : recentIds new = recentIds log := by rw [recentIds, hlog, recentIds]
  have hlast : lastPayload new = lastPayload log := by
    funext id
    rw [lastPayload, hlog, lastPayload]
  constructor
  · rw [horder, hoptions, hids, h.order]
  · rw [horder, hinbound, hlast]
    exact h.digest

/-- A new identifier enters the window and the oldest leaves it. -/
theorem window_handled (hs : Coherent s) (h : Window P log s) {id : InboundId} (payload : Bytes)
    (hnew : id ∉ s.inbound) :
    Window P (log ++ [.handled id payload]) (recordInbound id (inboundDigest P payload) s) := by
  have hout : id ∉ s.inboundOrder := fun hmem => hnew ((hs.digests id).mpr hmem)
  have hnodup := nodup_recorded hs hnew
  constructor
  · have horder : (recordInbound id (inboundDigest P payload) s).inboundOrder =
        (s.inboundOrder.erase id ++ [id]).drop
          ((s.inboundOrder.erase id ++ [id]).length - s.options.inboundWindow) := by
      rw [List.erase_of_not_mem hout]
      exact Eviction.evict_order _ _ _
    have hmove := reverse_drop_move hs.distinct id s.options.inboundWindow
    rw [horder, hmove, h.order, recentIds_handled]
    exact (take_remember (nodup_recents _) id _).symm
  · intro x hx
    have hget : (recordInbound id (inboundDigest P payload) s).inbound[x]? =
        (s.inbound.insert id (inboundDigest P payload))[x]? :=
      Eviction.getElem?_evict hnodup hx
    rw [hget, lastPayload_handled, Std.ExtTreeMap.getElem?_insert]
    by_cases heq : id = x
    · exact ⟨payload, if_pos heq, if_pos (Std.compare_eq_iff_eq.mpr heq)⟩
    · have hmem : x ∈ s.inboundOrder := by
        have hkept : x ∈ s.inboundOrder ++ [id] := by
          have hdrop : x ∈ (Eviction.evict s.options.inboundWindow (s.inboundOrder ++ [id])
              (s.inbound.insert id (inboundDigest P payload))).1 := hx
          rw [Eviction.evict_order] at hdrop
          exact List.mem_of_mem_drop hdrop
        rw [List.mem_append, List.mem_singleton] at hkept
        exact hkept.resolve_right fun h => heq h.symm
      rw [if_neg heq, if_neg fun h => heq (Std.compare_eq_iff_eq.mp h)]
      exact h.digest x hmem

theorem window_update (hs : Coherent s) (h : Window P log s) (hupdate : Update P s new s') :
    Window P (log ++ new) s' := by
  cases hupdate with
  | queued hqueued =>
      rw [hqueued.rest]
      exact h.same (handledIn_queued _ _ _) rfl rfl rfl
  | handled payload hnew => exact window_handled hs h payload hnew
  | acknowledged hid =>
      refine h.same ?_ rfl rfl rfl
      rw [handledIn_append]
      exact List.append_nil _
  | carried conference sequence =>
      refine h.same ?_ rfl rfl rfl
      rw [List.append_nil]

/-- What a message under an identifier leads to, by what the window has for it. -/
theorem handleInbound_known {m : Machine} {entropy : List Secret} {id : InboundId}
    {payload committed : Bytes} (h : s.inbound[id]? = some (inboundDigest P committed)) :
    PersistentConference.handleInbound P noFaults entropy id payload ⟨s, m⟩ =
      if inboundDigest P committed = inboundDigest P payload then
        (.ok ⟨true, [], []⟩, ⟨s, m⟩)
      else (.error (.idempotencyConflict id), ⟨s, m⟩) := by
  unfold PersistentConference.handleInbound
  rw [bind_run, get_run]
  dsimp only
  rw [h]
  dsimp only
  split_ifs <;> rfl

theorem handleInbound_new {m : Machine} {entropy : List Secret} {id : InboundId} {payload : Bytes}
    (h : s.inbound[id]? = none) :
    PersistentConference.handleInbound P noFaults entropy id payload ⟨s, m⟩ =
      Persistence.commitCandidate P noFaults entropy
        (PersistentConference.receive P id (inboundDigest P payload) payload) ⟨s, m⟩ := by
  unfold PersistentConference.handleInbound
  rw [bind_run, get_run]
  dsimp only
  rw [h]

end Window

/-! ## Runs -/

section Runs

variable {P : Primitives} {log : List Entry} {sys : System} {s : LogicalState}

theorem History.window (h : History P log sys) (hlive : sys.live = some s) :
    Coherent s ∧ Window P log s := by
  obtain ⟨s', hkept, hwindow, hsame⟩ := h.invariant (Q := Window P) window_initial window_update
  rw [hsame s hlive]
  exact ⟨hkept.coherent, hwindow⟩

/-- An identifier in the window is handled once: the same message again is a duplicate, another one
a conflict, and neither changes anything.  Other identifiers are processed. -/
theorem inbound_window (h : History P log sys) (hlive : sys.live = some s) :
    s.inboundOrder.Nodup ∧ (∀ id, id ∈ s.inbound ↔ id ∈ s.inboundOrder) ∧
    s.inboundOrder.reverse = (recentIds log).take s.options.inboundWindow ∧
    ∀ (entropy : List Secret) (id : InboundId) (payload : Bytes),
      (id ∈ (recentIds log).take s.options.inboundWindow →
        ∃ committed, lastPayload log id = some committed ∧
          (payload = committed →
            PersistentConference.handleInbound P noFaults entropy id payload ⟨s, sys.store⟩ =
              (.ok ⟨true, [], []⟩, ⟨s, sys.store⟩)) ∧
          (payload ≠ committed →
            (inboundDigest P payload = inboundDigest P committed → payload = committed) →
            PersistentConference.handleInbound P noFaults entropy id payload ⟨s, sys.store⟩ =
              (.error (.idempotencyConflict id), ⟨s, sys.store⟩))) ∧
      (id ∉ (recentIds log).take s.options.inboundWindow →
        PersistentConference.handleInbound P noFaults entropy id payload ⟨s, sys.store⟩ =
          Persistence.commitCandidate P noFaults entropy
            (PersistentConference.receive P id (inboundDigest P payload) payload)
            ⟨s, sys.store⟩) := by
  obtain ⟨hs, hwindow⟩ := History.window h hlive
  refine ⟨hs.distinct, hs.digests, hwindow.order, ?_⟩
  intro entropy id payload
  rw [← hwindow.order, List.mem_reverse]
  constructor
  · intro hid
    obtain ⟨committed, hlast, hdigest⟩ := hwindow.digest id hid
    refine ⟨committed, hlast, ?_, ?_⟩
    · intro hsame
      rw [handleInbound_known hdigest, if_pos (by rw [hsame])]
    · intro hdifferent hcollision
      rw [handleInbound_known hdigest, if_neg fun heq => hdifferent (hcollision heq.symm)]
  · intro hid
    have hunknown : id ∉ s.inbound := fun hmem => hid ((hs.digests id).mp hmem)
    exact handleInbound_new (Std.ExtTreeMap.getElem?_eq_none hunknown)

theorem handledIn_opening (messages : List Message) (s : LogicalState) :
    handledIn (opening P messages s) = [] :=
  handledIn_queued [] messages _

theorem handledIn_handleInbound (entropy : List Secret) (s s' : LogicalState) (id : InboundId)
    (payload : Bytes) (events : List Member.Event) (deliveries : List OutboundId) :
    handledIn (entries P entropy (.handleInbound id payload) s s'
      (.ok (.inbound ⟨false, events, deliveries⟩))) = [(id, payload)] := by
  simp only [entries]
  split_ifs <;> simp_all [handledIn, List.filterMap_map]

variable (P) in
/-- A conference is given its first message back. -/
def echo (start : PersistentConference) : Option (Bytes × PersistentConference) :=
  match start.state.pendingDeliveries with
  | [] => none
  | d :: _ =>
      match (Call.handleInbound 7 d.payload).run P [] noFaults start with
      | (.ok (.inbound ⟨false, _, _⟩), after) => some (d.payload, after)
      | _ => none

theorem echo_history {start after : PersistentConference} {payload : Bytes}
    (hhistory : History P log ⟨start.store, some start.state⟩)
    (h : echo P start = some (payload, after)) :
    ∃ new, History P (log ++ new) ⟨after.store, some after.state⟩ ∧
      handledIn new = [(7, payload)] := by
  unfold echo at h
  cases hpending : start.state.pendingDeliveries with
  | nil =>
      rw [hpending] at h
      cases h
  | cons d rest =>
  rw [hpending] at h
  dsimp only at h
  rcases hrun : (Call.handleInbound 7 d.payload).run P [] noFaults start with ⟨r, pc⟩
  rw [hrun] at h
  split at h
  · rename_i heq
    cases heq
    cases h
    exact ⟨_, hhistory.step (.called hrun), handledIn_handleInbound _ _ _ _ _ _ _⟩
  · cases h

theorem echo_foundation :
    (DurableOutbox.foundation.toOption.bind (echo toy)).isSome := by
  decide +kernel

/-- The message given back is a duplicate when it is given back again. -/
theorem inbound_window_echo : ∃ (pc : PersistentConference) (payload : Bytes),
    pc.state.inboundOrder = [7] ∧
      PersistentConference.handleInbound toy noFaults [] 7 payload pc =
        (.ok ⟨true, [], []⟩, pc) := by
  obtain ⟨⟨payload, after⟩, hechoed⟩ := Option.isSome_iff_exists.mp echo_foundation
  obtain ⟨start, hstart, hecho⟩ := Option.bind_eq_some_iff.mp hechoed
  obtain ⟨made, hmade⟩ := created_made (ok_of_toOption hstart)
  obtain ⟨new, hhistory, hnew⟩ := echo_history (.created hmade (ok_of_toOption hstart)) hecho
  have hhandled : handledIn (opening toy made.2 start.state ++ new) = [(7, payload)] := by
    rw [handledIn_append, handledIn_opening, hnew, List.nil_append]
  have hids : recentIds (opening toy made.2 start.state ++ new) = [7] := by
    rw [recentIds, hhandled]
    rfl
  have hlast : lastPayload (opening toy made.2 start.state ++ new) 7 = some payload := by
    rw [lastPayload, hhandled]
    rfl
  have hwindow : 0 < after.state.options.inboundWindow :=
    (validate_bounds (History.window hhistory rfl).1.options).2.2.2.2.2.2
  have htake : [(7 : InboundId)].take after.state.options.inboundWindow = [7] :=
    List.take_of_length_le hwindow
  obtain ⟨-, -, horder, hhandle⟩ := inbound_window hhistory rfl
  rw [hids, htake] at horder hhandle
  obtain ⟨committed, hcommitted, hduplicate, -⟩ := (hhandle [] 7 payload).1 List.mem_cons_self
  rw [hlast] at hcommitted
  refine ⟨after, payload, ?_, hduplicate (Option.some.inj hcommitted)⟩
  rwa [List.reverse_eq_iff] at horder

end Runs

/-! ## Handling again -/

section Spacing

variable {P : Primitives} {log new : List Entry} {s s' : LogicalState}

end Spacing

end CausalFrontierRatchet.InboundWindow
