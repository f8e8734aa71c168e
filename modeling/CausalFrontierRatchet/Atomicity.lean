import CausalFrontierRatchet.DurableOutbox

/-!
An operation of a persistent conference is done and durable, or has not happened, although the
participant inside may change on its way to an error.
-/

namespace CausalFrontierRatchet.Atomicity

open Crypto Store Persistence StateCodec PersistenceRuns

variable {P : Primitives} {m : Machine} {s s' : LogicalState}

/-- A directory holds one state. -/
theorem export_unique (hheader : StoreFormat.WAL_HEADER_LEN ≤ s.options.maxWalBytes)
    (hkept : Kept P m s) (hkept' : Kept P m s')
    (hsame : s' = { s with conference := s'.conference }) :
    s'.conference.exportPersistenceState = s.conference.exportPersistenceState := by
  obtain ⟨hs, payload, hencode, hholds⟩ := hkept
  obtain ⟨hs', payload', hencode', hholds'⟩ := hkept'
  have hoptions : s'.options = s.options := by rw [hsame]
  rw [hoptions] at hholds'
  obtain ⟨found, hfound, hencodes⟩ := hholds.reopened hs.options hheader
  obtain ⟨found', hfound', hencodes'⟩ := hholds'.reopened hs.options hheader
  cases hfound.symm.trans hfound'
  cases hencodes.payload.symm.trans hencodes'.payload
  exact (encode_injective hs hs' hencode hencode').2

/-- A failed call leaves the live state as it was, and after any call a fresh process that can open
the directory finds the live state, down to the keys and counters of the conference. -/
theorem calls_atomic {log : List Entry} {sys : System} (h : History P log sys)
    (hlive : sys.live = some s) {c : Call} {entropy : List Secret}
    {r : Except Persistence.Error Reply} {pc : PersistentConference}
    (hrun : c.run P entropy noFaults ⟨s, sys.store⟩ = (r, pc))
    (hheader : StoreFormat.WAL_HEADER_LEN ≤ pc.state.options.maxWalBytes) :
    ((∃ e, r = .error e) → pc.state = s) ∧
      ∀ unsaved found m', PersistentConference.openExisting P noFaults unsaved
          ⟨pc.store.disk, [], 0⟩ = (.ok found, m') →
        found = { pc.state with conference := found.conference } ∧
          found.conference.exportPersistenceState = pc.state.conference.exportPersistenceState := by
  obtain ⟨hkept, -⟩ := DurableOutbox.History.ledger h hlive
  have hdone : ((∃ e, r = .error e) → pc.state = s) ∧ Kept P pc.store pc.state := by
    rcases run_cases hkept hrun with ⟨-, hstate, hkept'⟩ | ⟨reply, rfl, -, hkept'⟩
    · exact ⟨fun _ => hstate, by rwa [hstate]⟩
    · exact ⟨fun ⟨_, he⟩ => (by cases he), hkept'⟩
  refine ⟨hdone.1, fun unsaved found m' hopen => ?_⟩
  obtain ⟨hstill, hfound⟩ := openExisting_run hdone.2 hopen
  obtain ⟨hsame, hkept'⟩ := hfound found rfl
  exact ⟨hsame, export_unique hheader hstill hkept' hsame⟩

/-- Without entropy a founder cannot rekey. -/
theorem rekey_refused : (DurableOutbox.foundation.toOption.any fun pc =>
    !(Call.rekey.run toy [] noFaults pc).1.isOk &&
      StoreFormat.WAL_HEADER_LEN ≤
        (Call.rekey.run toy [] noFaults pc).2.state.options.maxWalBytes) := by
  decide +kernel

theorem refused_rekey_atomic : ∃ pc, DurableOutbox.foundation = .ok pc ∧
    (∃ e, (Call.rekey.run toy [] noFaults pc).1 = .error e) ∧
      (Call.rekey.run toy [] noFaults pc).2.state = pc.state := by
  have hrefused := rekey_refused
  cases hfoundation : DurableOutbox.foundation with
  | error e =>
      rw [hfoundation] at hrefused
      cases hrefused
  | ok pc =>
      rw [hfoundation] at hrefused
      obtain ⟨made, hmade⟩ := created_made hfoundation
      rcases hrun : Call.rekey.run toy [] noFaults pc with ⟨r, pc'⟩
      simp only [Except.toOption, Option.any_some, hrun, Bool.and_eq_true] at hrefused
      cases r with
      | ok reply => cases hrefused.1
      | error e =>
          refine ⟨pc, rfl, ⟨e, by rw [hrun]⟩, ?_⟩
          rw [hrun]
          exact (calls_atomic (.created hmade hfoundation) rfl hrun
            (of_decide_eq_true hrefused.2)).1 ⟨e, rfl⟩

end CausalFrontierRatchet.Atomicity
