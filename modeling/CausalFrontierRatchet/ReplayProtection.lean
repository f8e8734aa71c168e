import CausalFrontierRatchet.NonceUniqueness
import Mathlib.Data.Nat.Bitwise

/-!
Frame acceptance over whole runs of one receiver.  A replay window refuses every index it has
accepted, now and after everything it accepts later.  The window of a sender lives in the record of
a version, so it protects for as long as the record is retained: a run in which no version is
installed anew after a frame was accepted under it accepts no context, sender and counter twice, and
a version that is installed again after its eviction starts with empty windows.
-/

namespace CausalFrontierRatchet.ReplayProtection

open BigEndian Crypto MediaRatchet MediaFrame NonceUniqueness

/-! ## The window -/

section Window

variable {r r' : Replay} {i n : UInt64}

theorem toNat_bit {back : UInt64} (h : back < WINDOW) :
    ((1 : UInt64) <<< back).toNat = 2 ^ back.toNat := by
  have hback : back.toNat < 64 := UInt64.lt_iff_toNat_lt.mp h
  rw [UInt64.toNat_shiftLeft, Nat.mod_eq_of_lt hback, UInt64.toNat_one, Nat.one_shiftLeft,
    Nat.mod_eq_of_lt (Nat.pow_lt_pow_right (by decide) hback)]

theorem seen_bit {seen back : UInt64} (h : back < WINDOW) :
    seen &&& (1 : UInt64) <<< back ≠ 0 ↔ seen.toNat.testBit back.toNat := by
  rw [ne_eq, ← UInt64.toNat_inj, UInt64.toNat_and, toNat_bit h, Nat.and_two_pow, UInt64.toNat_zero]
  cases seen.toNat.testBit back.toNat with
  | false => simp
  | true => simp

/-- A window refuses what lies behind it and what it has recorded. -/
theorem accept_none_iff : r.accept n = none ↔
    r.started = true ∧ n.toNat ≤ r.high.toNat ∧
      (64 ≤ r.high.toNat - n.toNat ∨ r.seen.toNat.testBit (r.high.toNat - n.toNat)) := by
  unfold Replay.accept
  by_cases hstarted : r.started = true
  · rw [if_neg (by simpa using hstarted)]
    by_cases hhigh : r.high < n
    · have hlt := UInt64.lt_iff_toNat_lt.mp hhigh
      rw [if_pos hhigh]
      simp only [reduceCtorEq, false_iff]
      omega
    · have hle : n ≤ r.high := UInt64.not_lt.mp hhigh
      have hback : (r.high - n).toNat = r.high.toNat - n.toNat := UInt64.toNat_sub_of_le _ _ hle
      have hwindow : r.high - n ≥ WINDOW ↔ 64 ≤ r.high.toNat - n.toNat := by
        rw [ge_iff_le, UInt64.le_iff_toNat_le, hback]
        rfl
      rw [if_neg hhigh]
      dsimp only
      by_cases hfar : r.high - n ≥ WINDOW
      · rw [if_pos hfar]
        simp only [true_iff]
        exact ⟨hstarted, UInt64.le_iff_toNat_le.mp hle, Or.inl (hwindow.mp hfar)⟩
      · rw [if_neg hfar]
        have hbit : r.seen &&& (1 : UInt64) <<< (r.high - n) ≠ 0 ↔
            r.seen.toNat.testBit (r.high.toNat - n.toNat) := by
          rw [seen_bit (UInt64.not_le.mp hfar), hback]
        have hnear := mt hwindow.mpr hfar
        split_ifs with hseen
        · simp only [true_iff]
          exact ⟨hstarted, UInt64.le_iff_toNat_le.mp hle, Or.inr (hbit.mp hseen)⟩
        · simp only [false_iff]
          rintro ⟨-, -, hfar | hset⟩
          · exact hnear hfar
          · exact hseen (hbit.mpr hset)
  · rw [if_pos (by simpa using hstarted)]
    simp [hstarted]

theorem shifted_bit {seen shift : UInt64} {k : ℕ} (h : k < 64) :
    ((if shift ≥ WINDOW then 0 else seen <<< shift) ||| 1).toNat.testBit k ↔
      k = 0 ∨ (shift.toNat ≤ k ∧ seen.toNat.testBit (k - shift.toNat)) := by
  rw [UInt64.toNat_or, Nat.testBit_or, Bool.or_eq_true, or_comm]
  refine or_congr ?_ ?_
  · rw [UInt64.toNat_one, Nat.testBit_one_eq_true_iff_self_eq_zero]
  · by_cases hfar : shift ≥ WINDOW
    · have hshift : 64 ≤ shift.toNat := UInt64.le_iff_toNat_le.mp hfar
      rw [if_pos hfar, UInt64.toNat_zero, Nat.zero_testBit]
      simp only [Bool.false_eq_true, false_iff]
      omega
    · have hshift : shift.toNat < 64 := UInt64.lt_iff_toNat_lt.mp (UInt64.not_le.mp hfar)
      rw [if_neg hfar, UInt64.toNat_shiftLeft, Nat.mod_eq_of_lt hshift, Nat.testBit_mod_two_pow,
        Nat.testBit_shiftLeft]
      simp [h]

/-- What an accepting window becomes: it starts at the index, moves up to it, or records it. -/
theorem accept_some (h : r.accept i = some r') : r'.started = true ∧
    ((r.started = false ∧ r'.high = i ∧ r'.seen = 1) ∨
      (r.started = true ∧ r.high.toNat < i.toNat ∧ r'.high = i ∧
        ∀ k, k < 64 → (r'.seen.toNat.testBit k ↔ k = 0 ∨
          (i.toNat - r.high.toNat ≤ k ∧ r.seen.toNat.testBit (k - (i.toNat - r.high.toNat))))) ∨
      (r.started = true ∧ i.toNat ≤ r.high.toNat ∧ r'.high = r.high ∧
        ∀ k, r'.seen.toNat.testBit k ↔ r.seen.toNat.testBit k ∨ r.high.toNat - i.toNat = k)) := by
  unfold Replay.accept at h
  by_cases hstarted : r.started = true
  · rw [if_neg (by simpa using hstarted)] at h
    by_cases hhigh : r.high < i
    · have hlt := UInt64.lt_iff_toNat_lt.mp hhigh
      have hshift : (i - r.high).toNat = i.toNat - r.high.toNat :=
        UInt64.toNat_sub_of_le _ _ (UInt64.le_of_lt hhigh)
      rw [if_pos hhigh] at h
      cases h
      refine ⟨hstarted, Or.inr (Or.inl ⟨hstarted, hlt, rfl, fun k hk => ?_⟩)⟩
      rw [← hshift]
      exact shifted_bit hk
    · have hle : i ≤ r.high := UInt64.not_lt.mp hhigh
      have hback : (r.high - i).toNat = r.high.toNat - i.toNat := UInt64.toNat_sub_of_le _ _ hle
      rw [if_neg hhigh] at h
      dsimp only at h
      split_ifs at h with hfar hseen
      cases h
      refine ⟨hstarted, Or.inr (Or.inr ⟨hstarted, UInt64.le_iff_toNat_le.mp hle, rfl, fun k => ?_⟩)⟩
      rw [UInt64.toNat_or, toNat_bit (UInt64.not_le.mp hfar), hback, Nat.testBit_or,
        Nat.testBit_two_pow, Bool.or_eq_true, decide_eq_true_iff]
  · rw [if_pos (by simpa using hstarted)] at h
    cases h
    exact ⟨rfl, Or.inl ⟨by simpa using hstarted, rfl, rfl⟩⟩

/-- An accepted index is refused from then on. -/
theorem accept_records (h : r.accept i = some r') : r'.accept i = none := by
  obtain ⟨hstarted, ⟨-, hhigh, hseen⟩ | ⟨-, -, hhigh, hseen⟩ | ⟨-, hle, hhigh, hseen⟩⟩ :=
    accept_some h
  · refine accept_none_iff.mpr ⟨hstarted, hhigh ▸ le_rfl, Or.inr ?_⟩
    rw [hhigh, hseen, Nat.sub_self]
    decide
  · refine accept_none_iff.mpr ⟨hstarted, hhigh ▸ le_rfl, Or.inr ?_⟩
    rw [hhigh, Nat.sub_self]
    exact (hseen 0 (by decide)).mpr (Or.inl rfl)
  · refine accept_none_iff.mpr ⟨hstarted, hhigh ▸ hle, Or.inr ?_⟩
    rw [hhigh]
    exact (hseen _).mpr (Or.inr rfl)

theorem accept_keeps (h : r.accept i = some r') (hn : r.accept n = none) : r'.accept n = none := by
  rw [accept_none_iff] at hn ⊢
  obtain ⟨hwas, hle, hold⟩ := hn
  obtain ⟨hstarted, ⟨hnot, -⟩ | ⟨-, hlt, hhigh, hseen⟩ | ⟨-, hback, hhigh, hseen⟩⟩ := accept_some h
  · rw [hwas] at hnot
    cases hnot
  · refine ⟨hstarted, by rw [hhigh]; omega, ?_⟩
    rw [hhigh]
    by_cases hfar : 64 ≤ i.toNat - n.toNat
    · exact Or.inl hfar
    · refine Or.inr ((hseen _ (by omega)).mpr (Or.inr ⟨by omega, ?_⟩))
      rcases hold with hbehind | hset
      · omega
      · rwa [show i.toNat - n.toNat - (i.toNat - r.high.toNat) = r.high.toNat - n.toNat by omega]
  · rw [hhigh]
    exact ⟨hstarted, hle, hold.imp_right fun hset => (hseen _).mpr (Or.inl hset)⟩

end Window

/-! ## Runs -/

/-- A call on the receiving side; the key of a version is a function of its label. -/
inductive RecvCall where
  | install (version : Version) (roster : List SigPublic)
  | unprotect (packet : Bytes)

/-- The context, sender and counter a packet carries in its trailer. -/
def indexOf (packet : Bytes) : Option (ContextId × SenderTag × UInt64) :=
  match Protector.inspect packet with
  | .ok t => some (t.version, t.sender, t.counter)
  | .error _ => none

section Runs

variable (P : Primitives) (keyOf : Version → Secret)

/-- One call: the packet it accepted, if any, and the protector after it. -/
def recvStep (p : Protector) : RecvCall → List Bytes × Protector
  | .install version roster => ([], p.install P version (keyOf version) roster)
  | .unprotect packet =>
      match p.unprotect P packet with
      | (.ok _, p') => ([packet], p')
      | (.error _, p') => ([], p')

/-- The packets a sequence of calls accepted, in order. -/
def accepted (p : Protector) : List RecvCall → List Bytes
  | [] => []
  | call :: calls => (recvStep P keyOf p call).1 ++ accepted (recvStep P keyOf p call).2 calls

/-- A version that is not retained is installed only if no packet was accepted under its context. -/
def InstallsFresh (earlier : List (Option (ContextId × SenderTag × UInt64))) (p : Protector) :
    RecvCall → Prop
  | .install version _ => contextId P version ∉ p.versions →
      ∀ x ∈ earlier, x.map Prod.fst ≠ some (contextId P version)
  | .unprotect _ => True

def InstallsFreshRun (earlier : List (Option (ContextId × SenderTag × UInt64))) (p : Protector) :
    List RecvCall → Prop
  | [] => True
  | call :: calls =>
      InstallsFresh P earlier p call ∧
        InstallsFreshRun (earlier ++ (recvStep P keyOf p call).1.map indexOf)
          (recvStep P keyOf p call).2 calls

instance decidableInstallsFresh (earlier : List (Option (ContextId × SenderTag × UInt64)))
    (p : Protector) : (call : RecvCall) → Decidable (InstallsFresh P earlier p call)
  | .install version _ =>
      -- The packets are compared one by one; their type is finite and must not be enumerated.
      have : Decidable (∀ x ∈ earlier, x.map Prod.fst ≠ some (contextId P version)) :=
        List.decidableBAll _ earlier
      inferInstanceAs (Decidable (contextId P version ∉ p.versions →
        ∀ x ∈ earlier, x.map Prod.fst ≠ some (contextId P version)))
  | .unprotect _ => instDecidableTrue

instance decidableInstallsFreshRun (earlier : List (Option (ContextId × SenderTag × UInt64)))
    (p : Protector) : (calls : List RecvCall) → Decidable (InstallsFreshRun P keyOf earlier p calls)
  | [] => instDecidableTrue
  | _ :: calls => @instDecidableAnd _ _ _ (decidableInstallsFreshRun _ _ calls)

/-- Every retained record refuses what was accepted under its context. -/
def Recorded (earlier : List (Option (ContextId × SenderTag × UInt64))) (p : Protector) : Prop :=
  ∀ context vk, p.versions[context]? = some vk → ∀ tag n, some (context, tag, n) ∈ earlier →
    ∃ ratchet replay, vk.recv[tag]? = some (ratchet, replay) ∧ replay.accept n = none

variable {P} {earlier : List (Option (ContextId × SenderTag × UInt64))} {p : Protector}

theorem Recorded.install (h : Recorded earlier p) {version : Version} {key : Secret}
    {roster : List SigPublic} (hfresh : contextId P version ∉ p.versions →
      ∀ x ∈ earlier, x.map Prod.fst ≠ some (contextId P version)) :
    Recorded earlier (p.install P version key roster) := by
  intro context vk hvk tag n hmem
  rcases install_record hvk with hold | ⟨rfl, hnone, -⟩
  · exact h context vk hold tag n hmem
  · have hnew : contextId P version ∉ p.versions := by
      rw [Std.ExtTreeMap.mem_iff_isSome_getElem?, hnone]
      exact Bool.false_ne_true
    exact absurd rfl (hfresh hnew _ hmem)

/-- Writing back the state of a sender, which also refuses what was accepted from it meanwhile. -/
theorem Recorded.store (h : Recorded earlier p) {context : ContextId} {vk : VersionKeys}
    (hvk : p.versions[context]? = some vk) (tag : SenderTag) (entry : RecvRatchet × Replay)
    (later : List (Option (ContextId × SenderTag × UInt64)))
    (hlater : ∀ x ∈ later, ∃ n, x = some (context, tag, n))
    (hentry : ∀ n, some (context, tag, n) ∈ earlier ++ later → entry.2.accept n = none) :
    Recorded (earlier ++ later) (p.store context vk tag entry) := by
  have hother : ∀ {context' tag' n}, some (context', tag', n) ∈ earlier ++ later →
      ¬(context' = context ∧ tag' = tag) → some (context', tag', n) ∈ earlier := by
    intro context' tag' n hmem hne
    rcases List.mem_append.mp hmem with hold | hnew
    · exact hold
    · obtain ⟨m, hm⟩ := hlater _ hnew
      cases hm
      exact absurd ⟨rfl, rfl⟩ hne
  intro context' vk' hvk' tag' n hmem
  rw [Protector.store, Std.ExtTreeMap.getElem?_insert] at hvk'
  split_ifs at hvk' with hcontext
  · obtain rfl := Std.LawfulEqCmp.eq_of_compare hcontext
    cases hvk'
    rw [Std.ExtTreeMap.getElem?_insert]
    split_ifs with htag
    · obtain rfl := Std.LawfulEqCmp.eq_of_compare htag
      exact ⟨entry.1, entry.2, rfl, hentry n hmem⟩
    · refine h _ vk hvk tag' n (hother hmem fun heq => htag ?_)
      rw [heq.2]
      exact Std.ReflCmp.compare_self
  · refine h context' vk' hvk' tag' n (hother hmem fun heq => hcontext ?_)
    rw [heq.1]
    exact Std.ReflCmp.compare_self

/-- The state of a sender, started or not, refuses what was accepted from it. -/
theorem Recorded.entry (h : Recorded earlier p) {context : ContextId} {vk : VersionKeys}
    (hvk : p.versions[context]? = some vk) {tag : SenderTag} (sender : SigPublic) {n : UInt64}
    (hmem : some (context, tag, n) ∈ earlier) :
    (vk.entry P tag sender).2.accept n = none := by
  obtain ⟨ratchet, replay, hrecv, hrefuses⟩ := h context vk hvk tag n hmem
  rw [VersionKeys.entry, hrecv]
  exact hrefuses

/-- An accepted packet is a new one, and is recorded; a refused one changes no window. -/
theorem Recorded.unprotect (h : Recorded earlier p) (packet : Bytes) :
    match p.unprotect P packet with
    | (.ok _, p') => indexOf packet ∉ earlier ∧ Recorded (earlier ++ [indexOf packet]) p'
    | (.error _, p') => Recorded earlier p' := by
  rcases Protector.unprotect_cases (P := P) p packet with ⟨e, he⟩ | ⟨r, hr⟩
  · rw [he]
    exact h
  have hindex : indexOf packet = some (r.trailer.version, r.trailer.sender, r.trailer.counter) := by
    rw [indexOf, r.inspect]
  have hentry : ∀ n, some (r.trailer.version, r.trailer.sender, n) ∈ earlier →
      (r.vk.entry P r.trailer.sender r.sender).2.accept n = none :=
    fun n hn => h.entry r.record r.sender hn
  have hrefused : Recorded earlier (p.store r.trailer.version r.vk r.trailer.sender
      (r.vk.entry P r.trailer.sender r.sender)) := by
    have hstore := h.store r.record r.trailer.sender (r.vk.entry P r.trailer.sender r.sender) []
    rw [List.append_nil] at hstore
    exact hstore (by simp) hentry
  rw [hr, Received.outcome]
  cases haccept : (r.vk.entry P r.trailer.sender r.sender).2.accept r.trailer.counter with
  | none => exact hrefused
  | some replay =>
      cases hkey : (r.vk.entry P r.trailer.sender r.sender).1.key P r.trailer.counter with
      | none => exact hrefused
      | some key =>
          simp only
          cases hopened : r.opened P key.1 with
          | none => exact hrefused
          | some content =>
              have hnew : indexOf packet ∉ earlier := by
                intro hmem
                rw [hindex] at hmem
                rw [hentry _ hmem] at haccept
                cases haccept
              refine ⟨hnew, h.store r.record _ _ _ (fun x hx => ?_) fun n hn => ?_⟩
              · exact ⟨_, (List.mem_singleton.mp hx).trans hindex⟩
              · rcases List.mem_append.mp hn with hold | hlast
                · exact accept_keeps haccept (hentry n hold)
                · cases (List.mem_singleton.mp hlast).trans hindex
                  exact accept_records haccept

/-- One call of a run keeps the records and accepts only what is new. -/
theorem recvStep_recorded (h : Recorded earlier p) {call : RecvCall}
    (hfresh : InstallsFresh P earlier p call) :
    Recorded (earlier ++ (recvStep P keyOf p call).1.map indexOf) (recvStep P keyOf p call).2 ∧
      (earlier.Nodup → (earlier ++ (recvStep P keyOf p call).1.map indexOf).Nodup) := by
  cases call with
  | install version roster =>
      rw [recvStep, List.map_nil, List.append_nil]
      exact ⟨h.install hfresh, id⟩
  | unprotect packet =>
      have hstep := h.unprotect (P := P) packet
      rw [recvStep]
      rcases hrun : p.unprotect P packet with ⟨e | opened, p'⟩
      · rw [hrun] at hstep
        simp only [List.map_nil, List.append_nil]
        exact ⟨hstep, id⟩
      · rw [hrun] at hstep
        refine ⟨hstep.2, fun hnodup => ?_⟩
        exact hnodup.append (List.nodup_singleton _) (List.disjoint_singleton.mpr hstep.1)

theorem accepted_nodup {calls : List RecvCall} (h : Recorded earlier p) (hnodup : earlier.Nodup)
    (hfresh : InstallsFreshRun P keyOf earlier p calls) :
    (earlier ++ (accepted P keyOf p calls).map indexOf).Nodup := by
  induction calls generalizing earlier p with
  | nil => simpa [accepted] using hnodup
  | cons call calls ih =>
      obtain ⟨hstep, hkeeps⟩ := recvStep_recorded keyOf h hfresh.1
      rw [accepted, List.map_append, ← List.append_assoc]
      exact ih hstep (hkeeps hnodup) hfresh.2

end Runs

/-- In every run in which no version is installed anew after a packet was accepted under it, no two
accepted packets carry the same context, sender and counter. -/
theorem fresh_run_accepts_once (P : Primitives) (keyOf : Version → Secret) (sid : BitVec 256)
    (me : SigPublic) (retain : ℕ) (calls : List RecvCall)
    (hfresh : InstallsFreshRun P keyOf [] (Protector.new P sid me retain) calls) :
    ((accepted P keyOf (Protector.new P sid me retain) calls).map indexOf).Nodup := by
  have hrecorded : Recorded [] (Protector.new P sid me retain) := by
    intro context vk hvk tag n hmem
    cases hmem
  exact accepted_nodup keyOf hrecorded List.nodup_nil hfresh

section Scenario

def labelKey (version : Version) : Secret :=
  version.setWidth 256

/-- A frame of participant 2 under version 1. -/
def delivered : List Bytes :=
  sent toy labelKey (Protector.new toy 7 2 4) [.install 1 [1, 2], .protect .generic [5] false]

/-- Delivered twice, with a change of version in between. -/
def overlapping : List RecvCall :=
  [.install 1 [1, 2]] ++ delivered.map .unprotect ++ [.install 2 [1, 2]] ++
    delivered.map .unprotect

theorem overlapping_accepts_once :
    (accepted toy labelKey (Protector.new toy 7 1 4) overlapping).length = 1 ∧
      ((accepted toy labelKey (Protector.new toy 7 1 4) overlapping).map indexOf).Nodup := by
  have hfresh : InstallsFreshRun toy labelKey [] (Protector.new toy 7 1 4) overlapping := by
    decide +kernel
  exact ⟨by decide +kernel, fresh_run_accepts_once _ _ _ _ _ _ hfresh⟩

/-- Delivered twice, with four other versions installed and the first one again in between. -/
def returning : List RecvCall :=
  [.install 1 [1, 2]] ++ delivered.map .unprotect ++
    [.install 2 [1, 2], .install 3 [1, 2], .install 4 [1, 2], .install 5 [1, 2],
      .install 1 [1, 2]] ++ delivered.map .unprotect

/-- The record of the first version is evicted with its window, and the frame is accepted again. -/
theorem returning_accepts_twice :
    ¬((accepted toy labelKey (Protector.new toy 7 1 4) returning).map indexOf).Nodup := by
  decide +kernel

end Scenario

end CausalFrontierRatchet.ReplayProtection
