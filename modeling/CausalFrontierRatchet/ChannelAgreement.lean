import CausalFrontierRatchet.Bookkeeping

/-!
One channel from both ends.  Sender and receiver step the same ratchet from the same root; the
receiver is offered payloads at any indices, in any order and any number of times, and learns only
on the way which of them are authentic.  Whatever it is offered, its chain is where the sender's
was after as many steps as it has committed, and what it buffers lies ahead.
-/

namespace CausalFrontierRatchet.ChannelAgreement

open Relation BigEndian Crypto Tlv Operation Channel
open Commands Member SliceSealing ContributionLedger Bookkeeping

/-- A payload whose key was handed out, and whether it turned out to be authentic. -/
structure Attempt where
  index : UInt64
  key : Secret
  authentic : Bool

/-- The indices of the payloads that were authentic, in order. -/
def committed (log : List Attempt) : List ℕ :=
  (log.filter fun a => a.authentic).map fun a => a.index.toNat

section Driver

variable (P : Primitives)

/-- The sending channel after some steps. -/
def stepTimes : ℕ → Chan → Except Error Chan
  | 0, chan => .ok chan
  | n + 1, chan => do
      let (_, chan) ← chan.step P
      stepTimes n chan

/-- What the sender's step number `n` returns. -/
def sent (root : Secret) (n : ℕ) : Except Error (UInt64 × Secret) := do
  let chan ← stepTimes P n (Chan.new P root)
  let (out, _) ← chan.step P
  pure out

/-- Taking buffered payloads while they are there and authentic. -/
inductive Drains : RecvChan → List Attempt → RecvChan → Prop where
  | idle {c : RecvChan} (h : (c.takeNext P).1 = none) : Drains c [] (c.takeNext P).2
  | refused {c : RecvChan} {i : UInt64} {payload : Bytes} {key : Secret}
      (h : (c.takeNext P).1 = some (i, payload, key)) :
      Drains c [⟨i, key, false⟩] (c.takeNext P).2
  | opened {c c₁ c' : RecvChan} {i : UInt64} {payload : Bytes} {key : Secret} {log : List Attempt}
      (h : (c.takeNext P).1 = some (i, payload, key))
      (hcommit : (c.takeNext P).2.commit P i = .ok (true, c₁)) (hrest : Drains c₁ log c') :
      Drains c (⟨i, key, true⟩ :: log) c'

/-- One call: a payload is offered, and if it is the awaited one and authentic, committed and
followed by what it was holding up. -/
inductive Receives : RecvChan → UInt64 → Bytes → List Attempt → RecvChan → Prop where
  | passed {c : RecvChan} {i : UInt64} {payload : Bytes} (h : (c.offer P i payload).1 = none) :
      Receives c i payload [] (c.offer P i payload).2
  | refused {c : RecvChan} {i : UInt64} {payload : Bytes} {key : Secret}
      (h : (c.offer P i payload).1 = some key) :
      Receives c i payload [⟨i, key, false⟩] (c.offer P i payload).2
  | opened {c c₁ c' : RecvChan} {i : UInt64} {payload : Bytes} {key : Secret} {log : List Attempt}
      (h : (c.offer P i payload).1 = some key)
      (hcommit : (c.offer P i payload).2.commit P i = .ok (true, c₁)) (hrest : Drains P c₁ log c') :
      Receives c i payload (⟨i, key, true⟩ :: log) c'

/-- A receiving channel that was offered payloads, and what came of them. -/
inductive Run (root : Secret) : List (UInt64 × Bytes) → List Attempt → RecvChan → Prop where
  | start : Run root [] [] (RecvChan.new P root)
  | call {offered : List (UInt64 × Bytes)} {log tried : List Attempt} {c c' : RecvChan}
      {i : UInt64} {payload : Bytes} (h : Run root offered log c)
      (hcall : Receives P c i payload tried c') :
      Run root (offered ++ [(i, payload)]) (log ++ tried) c'

end Driver

variable {P : Primitives} {root : Secret} {c c' : RecvChan}

/-! ## The two chains -/

theorem advance_of_ne {chan : Chan} (h : chan.next ≠ LAST) : ∃ next, chan.advance P = .ok next := by
  cases hadvance : chan.advance P with
  | error e => exact absurd (advance_error hadvance) h
  | ok next => exact ⟨next, rfl⟩

theorem stepTimes_succ {n : ℕ} {chan reached next : Chan} (h : stepTimes P n chan = .ok reached)
    (hnext : reached.advance P = .ok next) : stepTimes P (n + 1) chan = .ok next := by
  induction n generalizing chan with
  | zero =>
      obtain rfl : chan = reached := Except.ok.inj h
      rw [stepTimes, step_run, hnext]
      rfl
  | succ n ih =>
      rw [stepTimes] at h ⊢
      cases hstep : chan.step P with
      | error e =>
          rw [hstep] at h
          cases h
      | ok out =>
          rw [hstep] at h
          exact ih h

variable (P root) in
/-- A chain in the place of the sender's after as many steps as its position says. -/
def Synced (chan : Chan) : Prop :=
  stepTimes P chan.next.toNat (Chan.new P root) = .ok chan

theorem synced_new : Synced P root (Chan.new P root) :=
  rfl

theorem Synced.advance {chan next : Chan} (h : Synced P root chan)
    (hnext : chan.advance P = .ok next) : Synced P root next := by
  rw [Synced, (advance_ok hnext).2]
  exact stepTimes_succ h hnext

/-- The key for the awaited index is the one the sender's step returned. -/
theorem Synced.sent {chan : Chan} (h : Synced P root chan) (hlast : chan.next ≠ LAST) :
    sent P root chan.next.toNat = .ok (chan.next, chan.currentKey P) := by
  obtain ⟨next, hnext⟩ := advance_of_ne (P := P) hlast
  rw [ChannelAgreement.sent, h]
  change (chan.step P >>= fun x => pure x.1) = _
  rw [step_run, hnext]
  rfl

/-! ## What each operation does -/

theorem takeNext_none (h : (c.takeNext P).1 = none) :
    (c.takeNext P).2 = c ∧ (c.chan.next = LAST ∨ c.chan.next ∉ c.buffer) := by
  unfold RecvChan.takeNext at h ⊢
  dsimp only at h ⊢
  by_cases hlast : c.chan.next = LAST
  · rw [if_pos hlast]
    exact ⟨rfl, Or.inl hlast⟩
  · rw [if_neg hlast] at h ⊢
    cases hbuffer : c.buffer[c.chan.next]? with
    | none => exact ⟨rfl, Or.inr (by simpa using hbuffer)⟩
    | some payload =>
        rw [hbuffer] at h
        cases h

theorem takeNext_some {i : UInt64} {payload : Bytes} {key : Secret}
    (h : (c.takeNext P).1 = some (i, payload, key)) :
    i = c.chan.next ∧ i ≠ LAST ∧ key = c.chan.currentKey P ∧
      (c.takeNext P).2 = { c with buffer := c.buffer.erase c.chan.next } := by
  unfold RecvChan.takeNext at h ⊢
  dsimp only at h ⊢
  by_cases hlast : c.chan.next = LAST
  · rw [if_pos hlast] at h
    cases h
  · rw [if_neg hlast] at h ⊢
    cases hbuffer : c.buffer[c.chan.next]? with
    | none =>
        rw [hbuffer] at h
        cases h
    | some found =>
        rw [hbuffer] at h
        cases h
        exact ⟨rfl, hlast, rfl, rfl⟩

theorem offer_some {i : UInt64} {payload : Bytes} {key : Secret}
    (h : (c.offer P i payload).1 = some key) :
    i = c.chan.next ∧ i ≠ LAST ∧ key = c.chan.currentKey P ∧ (c.offer P i payload).2 = c := by
  unfold RecvChan.offer at h ⊢
  split_ifs at h ⊢ with hpast hahead hlast
  cases h
  exact ⟨UInt64.le_antisymm (UInt64.not_lt.mp hahead) (UInt64.not_lt.mp hpast), hlast, rfl, rfl⟩

/-- A payload that yields no key changes nothing or is buffered ahead of the position. -/
theorem offer_none {i : UInt64} {payload : Bytes} (h : (c.offer P i payload).1 = none) :
    (c.offer P i payload).2 = c ∨ (c.chan.next < i ∧ c.buffer.size < MAX_BUFFERED ∧
      (c.offer P i payload).2 = { c with buffer := c.buffer.insertIfNew i payload }) := by
  unfold RecvChan.offer at h ⊢
  split_ifs at h ⊢ with hpast hahead hroom hlast
  · exact Or.inl rfl
  · exact Or.inr ⟨hahead, hroom, rfl⟩
  · exact Or.inl rfl
  · exact Or.inl rfl

theorem commit_true {i : UInt64} (h : c.commit P i = .ok (true, c')) :
    ∃ next, c.chan.advance P = .ok next ∧ c' = { c with chan := next } := by
  unfold RecvChan.commit at h
  split_ifs at h
  · cases h
  · cases hadvance : c.chan.advance P with
    | error e =>
        rw [hadvance] at h
        cases h
    | ok next =>
        rw [hadvance] at h
        cases h
        exact ⟨next, rfl, rfl⟩

/-! ## What holds along a run -/

variable (P root) in
/-- A channel in step with its sender, its buffer bounded and not behind. -/
structure Held (c : RecvChan) : Prop where
  synced : Synced P root c.chan
  room : c.buffer.size ≤ MAX_BUFFERED
  ahead : ∀ i ∈ c.buffer, c.chan.next ≤ i

/-- What is buffered is not awaited; only the index that no message has can be both. -/
def Waiting (c : RecvChan) : Prop :=
  ∀ i ∈ c.buffer, c.chan.next = i → i = LAST

variable (P root) in
/-- What payloads came to between two states of a channel. -/
structure Progress (c : RecvChan) (log : List Attempt) (c' : RecvChan) : Prop where
  keys : ∀ a ∈ log, sent P root a.index.toNat = .ok (a.index, a.key)
  order : committed log = List.range' c.chan.next.toNat (committed log).length
  moved : c'.chan.next.toNat = c.chan.next.toNat + (committed log).length
  still : committed log = [] → c'.chan = c.chan

theorem committed_cons_true (i : UInt64) (key : Secret) (log : List Attempt) :
    committed (⟨i, key, true⟩ :: log) = i.toNat :: committed log := rfl

theorem committed_refused (i : UInt64) (key : Secret) : committed [⟨i, key, false⟩] = [] := rfl

theorem Progress.unmoved {log : List Attempt}
    (hkeys : ∀ a ∈ log, sent P root a.index.toNat = .ok (a.index, a.key))
    (hnone : committed log = []) (hchan : c'.chan = c.chan) : Progress P root c log c' where
  keys := hkeys
  order := by rw [hnone]; rfl
  moved := by rw [hnone, hchan]; rfl
  still _ := hchan

/-- A payload that is not authentic. -/
theorem Progress.refused (hheld : Held P root c) (hlast : c.chan.next ≠ LAST)
    (hchan : c'.chan = c.chan) :
    Progress P root c [⟨c.chan.next, c.chan.currentKey P, false⟩] c' := by
  apply Progress.unmoved _ (committed_refused _ _) hchan
  intro a ha
  rw [List.mem_singleton.mp ha]
  exact hheld.synced.sent hlast

/-- An authentic payload in front of the others. -/
theorem Progress.cons {c₁ : RecvChan} {next : Chan} {log : List Attempt} (hheld : Held P root c)
    (hlast : c.chan.next ≠ LAST) (hnext : c.chan.advance P = .ok next) (hc₁ : c₁.chan = next)
    (h : Progress P root c₁ log c') :
    Progress P root c (⟨c.chan.next, c.chan.currentKey P, true⟩ :: log) c' where
  keys := by
    intro a ha
    rcases List.mem_cons.mp ha with rfl | ha
    · exact hheld.synced.sent hlast
    · exact h.keys a ha
  order := by
    have horder := h.order
    rw [hc₁, (advance_ok hnext).2] at horder
    rw [committed_cons_true, List.length_cons, List.range'_succ, ← horder]
  moved := by
    have hmoved := h.moved
    rw [hc₁, (advance_ok hnext).2] at hmoved
    rw [committed_cons_true, List.length_cons, hmoved]
    omega
  still hnone := by
    rw [committed_cons_true] at hnone
    cases hnone

theorem mem_erase {c : RecvChan} {i : UInt64} (h : i ∈ c.buffer.erase c.chan.next) :
    i ∈ c.buffer ∧ c.chan.next ≠ i := by
  rw [Std.ExtTreeMap.mem_erase] at h
  exact ⟨h.2, fun heq => h.1 (Std.compare_eq_iff_eq.mpr heq)⟩

theorem Held.erase (h : Held P root c) :
    Held P root { c with buffer := c.buffer.erase c.chan.next } where
  synced := h.synced
  room := Nat.le_trans Std.ExtTreeMap.size_erase_le h.room
  ahead i hi := h.ahead i (mem_erase hi).1

/-- The position may move past an index that is not buffered. -/
theorem Held.advance {next : Chan} (h : Held P root c) (hnext : c.chan.advance P = .ok next)
    (hfree : ∀ i ∈ c.buffer, c.chan.next ≠ i) : Held P root { c with chan := next } where
  synced := h.synced.advance hnext
  room := h.room
  ahead i hi := by
    have hle := UInt64.le_iff_toNat_le.mp (h.ahead i hi)
    have hne : c.chan.next.toNat ≠ i.toNat := fun heq => hfree i hi (UInt64.toNat_inj.mp heq)
    rw [UInt64.le_iff_toNat_le, (advance_ok hnext).2]
    omega

theorem drains_spec {log : List Attempt} (h : Drains P c log c') (hheld : Held P root c) :
    Held P root c' ∧ Waiting c' ∧ Progress P root c log c' ∧ ∀ i ∈ c'.buffer, i ∈ c.buffer := by
  induction h with
  | @idle c h =>
      obtain ⟨hsame, hend⟩ := takeNext_none h
      rw [hsame]
      refine ⟨hheld, fun i hi heq => ?_, .unmoved (by simp) rfl rfl, fun i hi => hi⟩
      rcases hend with hlast | hfree
      · rw [← heq, hlast]
      · exact absurd (heq ▸ hi) hfree
  | @refused c i payload key h =>
      obtain ⟨rfl, hlast, rfl, htaken⟩ := takeNext_some h
      rw [htaken]
      exact ⟨hheld.erase, fun i hi heq => absurd heq (mem_erase hi).2,
        .refused hheld hlast rfl, fun i hi => (mem_erase hi).1⟩
  | @opened c c₁ c' i payload key log h hcommit _ ih =>
      obtain ⟨rfl, hlast, rfl, htaken⟩ := takeNext_some h
      rw [htaken] at hcommit
      obtain ⟨next, hnext, rfl⟩ := commit_true hcommit
      have hmoved := hheld.erase.advance hnext fun i hi => (mem_erase hi).2
      obtain ⟨hheld', hwaiting, hprogress, hbuffer⟩ := ih hmoved
      exact ⟨hheld', hwaiting, .cons hheld hlast hnext rfl hprogress,
        fun i hi => (mem_erase (hbuffer i hi)).1⟩

/-- A channel keeps in step, whatever it is offered. -/
theorem receives_spec {i : UInt64} {payload : Bytes} {log : List Attempt}
    (h : Receives P c i payload log c') (hheld : Held P root c) (hwaiting : Waiting c) :
    Held P root c' ∧ Waiting c' ∧ Progress P root c log c' ∧
      ∀ j ∈ c'.buffer, j ∈ c.buffer ∨ j = i := by
  cases h with
  | passed h =>
      rcases offer_none h with hsame | ⟨hahead, hroom, hbuffered⟩
      · rw [hsame]
        exact ⟨hheld, hwaiting, .unmoved (by simp) rfl rfl, fun j hj => Or.inl hj⟩
      · rw [hbuffered]
        have hmem : ∀ j ∈ c.buffer.insertIfNew i payload, j ∈ c.buffer ∨ j = i := by
          intro j hj
          rw [Std.ExtTreeMap.mem_insertIfNew] at hj
          rcases hj with heq | hj
          · exact Or.inr (Std.compare_eq_iff_eq.mp heq).symm
          · exact Or.inl hj
        refine ⟨⟨hheld.synced, ?_, fun j hj => ?_⟩, fun j hj heq => ?_, .unmoved (by simp) rfl rfl,
          hmem⟩
        · exact Nat.le_trans Std.ExtTreeMap.size_insertIfNew_le hroom
        · rcases hmem j hj with hj | rfl
          · exact hheld.ahead j hj
          · exact UInt64.le_of_lt hahead
        · rcases hmem j hj with hj | rfl
          · exact hwaiting j hj heq
          · exact absurd heq (UInt64.ne_of_lt hahead)
  | refused h =>
      obtain ⟨rfl, hlast, rfl, hsame⟩ := offer_some h
      rw [hsame]
      exact ⟨hheld, hwaiting, .refused hheld hlast rfl, fun j hj => Or.inl hj⟩
  | opened h hcommit hrest =>
      obtain ⟨rfl, hlast, rfl, hsame⟩ := offer_some h
      rw [hsame] at hcommit
      obtain ⟨next, hnext, rfl⟩ := commit_true hcommit
      have hfree : ∀ j ∈ c.buffer, c.chan.next ≠ j := fun j hj heq =>
        hlast (heq.trans (hwaiting j hj heq))
      obtain ⟨hheld', hwaiting', hprogress, hbuffer⟩ :=
        drains_spec hrest (hheld.advance hnext hfree)
      exact ⟨hheld', hwaiting', .cons hheld hlast hnext rfl hprogress,
        fun j hj => Or.inl (hbuffer j hj)⟩

theorem committed_append (log tried : List Attempt) :
    committed (log ++ tried) = committed log ++ committed tried := by
  simp [committed]

theorem held_new : Held P root (RecvChan.new P root) where
  synced := synced_new
  room := by simp [RecvChan.new]
  ahead := by simp [RecvChan.new]

/-- What holds after every call. -/
theorem run_spec {offered : List (UInt64 × Bytes)} {log : List Attempt}
    (h : Run P root offered log c) :
    Held P root c ∧ Waiting c ∧ Progress P root (RecvChan.new P root) log c ∧
      ∀ i ∈ c.buffer, ∃ d ∈ offered, d.1 = i := by
  induction h with
  | start => exact ⟨held_new, by simp [Waiting, RecvChan.new], .unmoved (by simp) rfl rfl,
      by simp [RecvChan.new]⟩
  | @call offered log tried c c' i payload _ hcall ih =>
      obtain ⟨hheld, hwaiting, hprogress, hbuffer⟩ := ih
      obtain ⟨hheld', hwaiting', hstep, hbuffer'⟩ := receives_spec hcall hheld hwaiting
      refine ⟨hheld', hwaiting', ⟨?_, ?_, ?_, ?_⟩, ?_⟩
      · intro a ha
        rcases List.mem_append.mp ha with ha | ha
        · exact hprogress.keys a ha
        · exact hstep.keys a ha
      · rw [committed_append, List.length_append, hprogress.order, hstep.order, hprogress.moved]
        simp [List.range'_append_1]
      · rw [hstep.moved, hprogress.moved, committed_append, List.length_append, Nat.add_assoc]
      · intro hnone
        rw [committed_append, List.append_eq_nil_iff] at hnone
        rw [hstep.still hnone.2, hprogress.still hnone.1]
      · intro j hj
        rcases hbuffer' j hj with hj | rfl
        · obtain ⟨d, hd, heq⟩ := hbuffer j hj
          exact ⟨d, by simp [hd], heq⟩
        · exact ⟨(j, payload), by simp, rfl⟩

/-- However payloads arrive: each key handed out is the one of the sender's step with that index,
the indices committed are `0, 1, 2, …`, nothing but an authentic payload moves the position, and at
most 64 payloads wait, none behind the position.  The position meets one of them only at the index
that no step of the sender returns, so never if nothing is offered there. -/
theorem channel_agreement {offered : List (UInt64 × Bytes)} {log : List Attempt}
    (h : Run P root offered log c) :
    (∀ a ∈ log, sent P root a.index.toNat = .ok (a.index, a.key)) ∧
      committed log = List.range c.chan.next.toNat ∧
      (∀ i payload tried c', Receives P c i payload tried c' →
        c'.chan.next.toNat = c.chan.next.toNat + (committed tried).length ∧
          (committed tried = [] → c'.chan = c.chan)) ∧
      c.buffer.size ≤ MAX_BUFFERED ∧ (∀ i ∈ c.buffer, c.chan.next ≤ i) ∧
      ((∀ i ∈ c.buffer, c.chan.next < i) ↔ ¬(c.chan.next = LAST ∧ LAST ∈ c.buffer)) ∧
      ((∀ d ∈ offered, d.1 ≠ LAST) → ∀ i ∈ c.buffer, c.chan.next < i) := by
  obtain ⟨hheld, hwaiting, hprogress, hbuffer⟩ := run_spec h
  have hposition : c.chan.next.toNat = (committed log).length := by
    rw [hprogress.moved]
    simp [RecvChan.new, Chan.new]
  have hstrict : ¬(c.chan.next = LAST ∧ LAST ∈ c.buffer) → ∀ i ∈ c.buffer, c.chan.next < i := by
    intro hmet i hi
    have hne : c.chan.next ≠ i := fun hsame =>
      hmet ⟨hsame.trans (hwaiting i hi hsame), hwaiting i hi hsame ▸ hi⟩
    exact UInt64.lt_of_le_of_ne (hheld.ahead i hi) hne
  refine ⟨hprogress.keys, ?_, fun i payload tried c' hcall => ?_, hheld.room, hheld.ahead,
    ⟨fun hahead hmet => ?_, hstrict⟩, fun hindices => hstrict fun hmet => ?_⟩
  · rw [hposition, List.range_eq_range']
    exact hprogress.order
  · obtain ⟨-, -, hstep, -⟩ := receives_spec hcall hheld hwaiting
    exact ⟨hstep.moved, hstep.still⟩
  · exact UInt64.lt_irrefl _ (hmet.1 ▸ hahead LAST hmet.2)
  · obtain ⟨d, hd, heq⟩ := hbuffer LAST hmet.2
    exact hindices d hd heq

/-- The awaited payload, when it is authentic. -/
theorem offer_awaited (payload : Bytes) (hlast : c.chan.next ≠ LAST) :
    (c.offer P c.chan.next payload).1 = some (c.chan.currentKey P) := by
  rw [RecvChan.offer, if_neg (UInt64.lt_irrefl _), if_neg (UInt64.lt_irrefl _), if_neg hlast]

theorem commit_awaited {next : Chan} (hnext : c.chan.advance P = .ok next) :
    c.commit P c.chan.next = .ok (true, { c with chan := next }) := by
  rw [RecvChan.commit, if_neg (not_not.mpr rfl), hnext]
  rfl

/-- An authentic payload at the awaited index, with nothing behind it. -/
theorem Run.next {offered : List (UInt64 × Bytes)} {log : List Attempt} {next : Chan}
    (h : Run P root offered log c) (hnext : c.chan.advance P = .ok next)
    (hidle : next.next = LAST ∨ next.next ∉ c.buffer) (payload : Bytes) :
    Run P root (offered ++ [(c.chan.next, payload)])
      (log ++ [⟨c.chan.next, c.chan.currentKey P, true⟩]) { c with chan := next } := by
  have hlast : c.chan.next ≠ LAST := by
    intro hlast
    rw [Chan.advance, if_pos hlast] at hnext
    cases hnext
  have hkey := offer_awaited (P := P) payload hlast
  have hnone : (({ c with chan := next } : RecvChan).takeNext P).1 = none := by
    rw [RecvChan.takeNext]
    split_ifs with hend
    · rfl
    · rw [Std.ExtTreeMap.getElem?_eq_none (hidle.resolve_left hend)]
  have hdrains : Drains P { c with chan := next } [] { c with chan := next } := by
    have hidle := Drains.idle hnone
    rwa [(takeNext_none hnone).1] at hidle
  have hcommit : (c.offer P c.chan.next payload).2.commit P c.chan.next =
      .ok (true, { c with chan := next }) := by
    rw [(offer_some hkey).2.2.2, commit_awaited hnext]
  exact h.call (.opened hkey hcommit hdrains)

variable (P root) in
/-- A payload kept at the last index while all others arrive in order. -/
theorem exists_exhausted (n : ℕ) (hn : n < 2 ^ 64) :
    ∃ offered log c, Run P root offered log c ∧ c.chan.next.toNat = n ∧
      ∀ i, i ∈ c.buffer ↔ i = LAST := by
  induction n with
  | zero =>
      have hpassed : ((RecvChan.new P root).offer P LAST []).1 = none := rfl
      refine ⟨_, _, _, Run.start.call (.passed hpassed), rfl, fun i => ?_⟩
      have hbuffer : ((RecvChan.new P root).offer P LAST []).2.buffer =
          (∅ : Std.ExtTreeMap UInt64 Bytes).insertIfNew LAST [] := rfl
      rw [hbuffer, Std.ExtTreeMap.mem_insertIfNew, Std.compare_eq_iff_eq]
      simp [eq_comm]
  | succ n ih =>
      obtain ⟨offered, log, c, hrun, hposition, hbuffer⟩ := ih (by omega)
      have hlast : c.chan.next ≠ LAST := by
        intro hlast
        rw [hlast] at hposition
        simp [LAST] at hposition
        omega
      obtain ⟨next, hnext⟩ := advance_of_ne (P := P) hlast
      refine ⟨_, _, _, hrun.next hnext ?_ [], ?_, hbuffer⟩
      · rw [hbuffer]
        exact em _
      · rw [(advance_ok hnext).2, hposition]

variable (P root) in
/-- The second payload first: it waits until the first has arrived. -/
theorem exists_swapped (a b : Bytes) :
    ∃ log c, Run P root [(1, a), (0, b)] log c ∧ c.chan.next = 2 := by
  let waiting : Std.ExtTreeMap UInt64 Bytes := Std.ExtTreeMap.insertIfNew ∅ 1 a
  have hpassed : ((RecvChan.new P root).offer P 1 a).1 = none := rfl
  have hfirst : Run P root [(1, a)] [] ⟨Chan.new P root, waiting⟩ :=
    Run.start.call (.passed hpassed)
  have hkey := offer_awaited (P := P) (c := ⟨Chan.new P root, waiting⟩) b (by simp [Chan.new, LAST])
  have htake : ∀ chain, ((⟨⟨chain, 1⟩, waiting⟩ : RecvChan).takeNext P).1 =
      some (1, a, (⟨chain, 1⟩ : Chan).currentKey P) := by
    intro chain
    rw [RecvChan.takeNext]
    dsimp only
    rw [if_neg (by decide), Std.ExtTreeMap.getElem?_insertIfNew]
    simp
  exact ⟨_, _, hfirst.call (.opened hkey rfl (.opened (htake _) rfl (.idle rfl))), rfl⟩

theorem channel_agreement_swapped :
    ∃ log c, Run toy 7 [(1, [5]), (0, [4])] log c ∧ committed log = [0, 1] ∧
      (∀ a ∈ log, sent toy 7 a.index.toNat = .ok (a.index, a.key)) ∧
      ∀ i ∈ c.buffer, c.chan.next < i := by
  obtain ⟨log, c, hrun, hposition⟩ := exists_swapped toy 7 [5] [4]
  obtain ⟨hkeys, horder, -, -, -, -, hahead⟩ := channel_agreement hrun
  rw [hposition] at horder
  exact ⟨log, c, hrun, horder, hkeys, hahead (by decide)⟩

/-- A payload offered at the last index is still there when the position comes to it, and then no
longer ahead. -/
theorem channel_agreement_exhausted :
    ∃ offered log c, Run toy 7 offered log c ∧ ¬∀ i ∈ c.buffer, c.chan.next < i := by
  obtain ⟨offered, log, c, hrun, hposition, hbuffer⟩ :=
    exists_exhausted toy 7 (2 ^ 64 - 1) (by omega)
  refine ⟨offered, log, c, hrun, fun hahead => ?_⟩
  have hlt := UInt64.lt_iff_toNat_lt.mp (hahead LAST ((hbuffer LAST).mpr rfl))
  rw [hposition] at hlt
  exact absurd hlt (by decide)

/-! ## The participant's channels are driven this way -/

variable {p : Participant}

theorem takeNext_size {taken : UInt64 × Bytes × Secret} (h : (c.takeNext P).1 = some taken) :
    (c.takeNext P).2.buffer.size < c.buffer.size := by
  have htaken := (takeNext_some h).2.2.2
  have hmem : c.chan.next ∈ c.buffer := by
    by_contra hfree
    rw [RecvChan.takeNext, Std.ExtTreeMap.getElem?_eq_none hfree] at h
    split_ifs at h
  have hne : c.buffer.size ≠ 0 := fun hzero => by
    rw [Std.ExtTreeMap.eq_empty_iff_size_eq_zero.mpr hzero] at hmem
    simp at hmem
  rw [htaken, Std.ExtTreeMap.size_erase, if_pos (Std.ExtTreeMap.contains_iff_mem.mpr hmem)]
  omega

/-- The state of a receiving channel that has come to `c`. -/
def Leaves (author : SigPublic) (state : RecvState) (c : RecvChan) (p : Participant) : Prop :=
  p.recv[author]? = some { state with chan := c }

theorem leaves_insert (author : SigPublic) (state : RecvState) (c : RecvChan) :
    Leaves author state c { p with recv := p.recv.insert author { state with chan := c } } :=
  Std.ExtTreeMap.getElem?_insert_self

theorem withRecv_leaves {β : Type} {author : SigPublic} {state : RecvState}
    (f : RecvChan → β × RecvChan) (hstate : Leaves author state c p) :
    ∃ p', withRecv author f p = (.ok (some (f c).1), p') ∧ Leaves author state (f c).2 p' := by
  rcases withRecv_cases author f p with ⟨hnone, -⟩ | ⟨found, hfound, hrun⟩
  · cases hnone.symm.trans hstate
  · obtain rfl := Option.some.inj (hfound.symm.trans hstate)
    exact ⟨_, hrun, leaves_insert author state (f c).2⟩

/-- A payload that is opened is committed; otherwise its channel stays. -/
theorem open_commit {op : Op} {key : Secret} {i : UInt64} {ad : Bytes} {state : RecvState}
    {author : SigPublic} {f : Option Bool → Act Unit} {p' : Participant} {r : Except Error Unit}
    (hstate : Leaves author state c p) (hnext : c.chan.next = i) (hlast : i ≠ LAST)
    (hrun : (do if ← openSlice P op key i ad then commitRecv P author i >>= f else pure ()) p
      = (r, p')) :
    Leaves author state c p' ∨ ∃ c₁ p₁, c.commit P i = .ok (true, c₁) ∧
      Leaves author state c₁ p₁ ∧ f (some true) p₁ = (r, p') := by
  have hsame : (openSlice P op key i ad p).2.recv = p.recv := openSlice_sameRecv op key i ad
  rw [bind_run] at hrun
  rcases hopen : openSlice P op key i ad p with ⟨e | authentic, p₁⟩
  all_goals
    rw [hopen] at hrun hsame
    dsimp only at hrun hsame
    have hkept : Leaves author state c p₁ := by rwa [Leaves, hsame]
  · cases hrun
    exact Or.inl hkept
  · cases authentic with
    | false =>
        cases hrun
        exact Or.inl hkept
    | true =>
        obtain ⟨c₁, hcommit, hmoved⟩ := commitRecv_run (P := P) hkept hnext hlast
        rw [if_pos rfl, bind_run, hmoved] at hrun
        exact Or.inr ⟨c₁, _, hcommit, leaves_insert author state c₁, hrun⟩

/-- Draining takes all there is to take, since each payload leaves the buffer. -/
theorem drainSlices_drains {author : SigPublic} {state : RecvState} {fuel : ℕ}
    {p' : Participant} {r : Except Error Unit} (hstate : Leaves author state c p)
    (hfuel : c.buffer.size < fuel) (hrun : drainSlices P author fuel p = (r, p')) :
    ∃ log c', Drains P c log c' ∧ Leaves author state c' p' := by
  induction fuel generalizing p c with
  | zero => exact absurd hfuel (Nat.not_lt_zero _)
  | succ fuel ih =>
      obtain ⟨p₁, htake, hleaves⟩ := withRecv_leaves (fun chan => chan.takeNext P) hstate
      rw [drainSlices, bind_run, htake] at hrun
      dsimp only at hrun hleaves
      cases htaken : (c.takeNext P).1 with
      | none =>
          rw [htaken] at hrun
          cases hrun
          exact ⟨_, _, .idle htaken, hleaves⟩
      | some taken =>
          obtain ⟨i, payload, key⟩ := taken
          obtain ⟨hnext, hlast, -, hchan⟩ := takeNext_some htaken
          have hsize := takeNext_size htaken
          rw [htaken] at hrun
          dsimp only at hrun
          rw [bind_run, get_run] at hrun
          dsimp only at hrun
          have hrefused : Drains P c [⟨i, key, false⟩] (c.takeNext P).2 := .refused htaken
          cases hget : p₁.dag.get (ofBytes 256 (payload.take 32)) with
          | none =>
              rw [hget] at hrun
              cases hrun
              exact ⟨_, _, hrefused, hleaves⟩
          | some buffered =>
              rw [hget] at hrun
              dsimp only at hrun
              cases hbody : buffered.body with
              | contrib cid cparents recips slices view =>
                  rw [hbody] at hrun
                  rcases open_commit hleaves (by rw [hchan, hnext]) hlast hrun with
                    hkept | ⟨c₁, p₂, hcommit, hmoved, hrest⟩
                  · exact ⟨_, _, hrefused, hkept⟩
                  · have hbuffer : c₁.buffer = (c.takeNext P).2.buffer := by
                      obtain ⟨next, -, rfl⟩ := commit_true hcommit
                      rfl
                    obtain ⟨log, c', hdrains, hend⟩ := ih hmoved (by rw [hbuffer]; omega) hrest
                    exact ⟨_, c', .opened htaken hcommit hdrains, hend⟩
              | _ =>
                  rw [hbody] at hrun
                  cases hrun
                  exact ⟨_, _, hrefused, hleaves⟩

/-- A slice from a member with an open channel is one call to that channel. -/
theorem offerSlice_receives {op : Op} {cid : Cid} {view : BitVec 256} {slice : Slice}
    {state : RecvState} {p' : Participant} {r : Except Error Unit}
    (hstate : Leaves op.author state c p) (hrun : offerSlice P op cid view slice p = (r, p')) :
    ∃ log c', Receives P c slice.seq (bytesOf (op.oid P) ++ slice.ct) log c' ∧
      Leaves op.author state c' p' := by
  obtain ⟨p₁, hoffer, hleaves⟩ := withRecv_leaves
    (fun chan => chan.offer P slice.seq (bytesOf (op.oid P) ++ slice.ct)) hstate
  rw [offerSlice, bind_run, hoffer] at hrun
  dsimp only at hrun hleaves
  cases hkey : (c.offer P slice.seq (bytesOf (op.oid P) ++ slice.ct)).1 with
  | none =>
      rw [hkey] at hrun
      cases hrun
      exact ⟨_, _, .passed hkey, hleaves⟩
  | some key =>
      obtain ⟨hnext, hlast, -, hchan⟩ := offer_some hkey
      rw [hkey] at hrun
      rcases open_commit hleaves (by rw [hchan, hnext]) hlast hrun with
        hkept | ⟨c₁, p₂, hcommit, hmoved, hrest⟩
      · exact ⟨_, _, .refused hkey, hkept⟩
      · dsimp only at hrest
        rw [bind_run, get_run] at hrest
        dsimp only at hrest
        rw [hmoved] at hrest
        obtain ⟨log, c', hdrains, hend⟩ := drainSlices_drains hmoved (Nat.lt_succ_self _) hrest
        exact ⟨_, c', .opened hkey hcommit hdrains, hend⟩

end CausalFrontierRatchet.ChannelAgreement
