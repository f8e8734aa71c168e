import CausalFrontierRatchet.MediaFrame
import Mathlib.Data.List.Nodup

/-!
Frame counters over whole runs of one sender.  The counter of a version lives in its retained
record, so it is monotone for as long as the record is retained and starts over when an evicted
version is installed again.  `sent_nodup_iff` characterises the runs in which no two packets carry
the same context and counter: those in which no frame is protected under a newly made record whose
context has been sent under before.
-/

namespace CausalFrontierRatchet.NonceUniqueness

open BigEndian Crypto MediaLayout MediaRatchet MediaFrame

/-- A call on the sending side; the key of a version is a function of its label. -/
inductive SendCall where
  | install (version : Version) (roster : List SigPublic)
  | protect (codec : Codec) (frame : Bytes) (keyframe : Bool)

variable (P : Primitives) (keyOf : Version → Secret)

/-- One call: the packet it returned, if any, and the protector after it. -/
def step (p : Protector) : SendCall → List Bytes × Protector
  | .install version roster => ([], p.install P version (keyOf version) roster)
  | .protect codec frame keyframe =>
      match p.protect P codec frame keyframe with
      | (.ok packet, p') => ([packet], p')
      | (.error _, p') => ([], p')

/-- The packets a sequence of calls returned, in order. -/
def sent (p : Protector) : List SendCall → List Bytes
  | [] => []
  | call :: calls => (step P keyOf p call).1 ++ sent (step P keyOf p call).2 calls

/-- The context and counter a packet carries in its trailer. -/
def pairOf (packet : Bytes) : Option (ContextId × UInt64) :=
  match Protector.inspect packet with
  | .ok t => some (t.version, t.counter)
  | .error _ => none

/-- A frame may be protected under a record that has sent nothing only when no earlier packet
carries the context of that record. -/
def FreshCall (earlier : List (Option (ContextId × UInt64))) (p : Protector) : SendCall → Prop
  | .install _ _ => True
  | .protect _ _ _ => ∀ context vk, p.current = some context → p.versions[context]? = some vk →
      vk.counter = 0 → ∀ n, some (context, n) ∉ earlier

/-- Every call of a run is fresh with respect to the packets returned before it. -/
def FreshRun (earlier : List (Option (ContextId × UInt64))) (p : Protector) :
    List SendCall → Prop
  | [] => True
  | call :: calls =>
      FreshCall earlier p call ∧
        FreshRun (earlier ++ (step P keyOf p call).1.map pairOf) (step P keyOf p call).2 calls

/-! ## One call -/

/-- What the records of a protector say about the packets returned so far. -/
structure Counted (earlier : List (Option (ContextId × UInt64))) (p : Protector) : Prop where
  /-- The ratchet of a record has not passed the epoch of its next frame. -/
  epoch : ∀ {context : ContextId} {vk : VersionKeys}, p.versions[context]? = some vk →
    vk.send.epoch ≤ vk.counter / EPOCH
  /-- A record that has counted has sent its first frame. -/
  first : ∀ {context : ContextId} {vk : VersionKeys}, p.versions[context]? = some vk →
    vk.counter ≠ 0 → some (context, 0) ∈ earlier
  /-- Every context that was sent under was sent under from counter zero. -/
  zero : ∀ {context : ContextId} {n : UInt64}, some (context, n) ∈ earlier →
    some (context, 0) ∈ earlier

/-- Counters of a record that has counted lie above every packet of its context. -/
def Above (earlier : List (Option (ContextId × UInt64))) (p : Protector) : Prop :=
  ∀ (context : ContextId) (vk : VersionKeys), p.versions[context]? = some vk → vk.counter ≠ 0 →
    ∀ n, some (context, n) ∈ earlier → n < vk.counter

/-- A protection either returns nothing and moves no record that can count, or returns the packet of
the current record and counts it. -/
theorem protect_cases {earlier : List (Option (ContextId × UInt64))} {p : Protector}
    (hcounted : Counted earlier p) (codec : Codec) (frame : Bytes) (keyframe : Bool) :
    (step P keyOf p (.protect codec frame keyframe) = ([], p)) ∨
    ∃ context vk packet send, p.current = some context ∧ p.versions[context]? = some vk ∧
      vk.counter.toNat + 1 < 2 ^ 64 ∧ send.epoch = vk.counter / EPOCH ∧
      pairOf packet = some (context, vk.counter) ∧
      step P keyOf p (.protect codec frame keyframe) = ([packet],
        { p with versions :=
            p.versions.insert context { vk with counter := vk.counter + 1, send } }) := by
  rcases hprotect : p.protect P codec frame keyframe with ⟨e | packet, p'⟩
  · rcases Protector.protect_error hprotect with rfl | ⟨context, vk, -, hvk, -, hkey, -⟩
    · exact Or.inl (by rw [step, hprotect])
    · have hepoch := hcounted.epoch hvk
      rw [SendRatchet.key, if_neg (UInt64.not_lt.mpr hepoch)] at hkey
      cases hkey
  · obtain ⟨⟨context, vk, fk, send, hcurrent, hvk, hroom, hkey, rfl, rfl⟩⟩ :=
      Protector.protect_ok hprotect
    simp only [SendRatchet.key] at hkey
    split_ifs at hkey
    obtain ⟨-, hsend⟩ := Prod.mk.inj (Option.some.inj hkey)
    refine Or.inr ⟨context, vk, _, send, hcurrent, hvk, hroom, by rw [← hsend], ?_,
      by rw [step, hprotect]⟩
    rw [pairOf, Protector.inspect_append]
    rfl

/-- A protection whose record has sent nothing always returns a packet. -/
theorem protect_of_zero {earlier : List (Option (ContextId × UInt64))} {p : Protector}
    (hcounted : Counted earlier p) {context : ContextId} {vk : VersionKeys}
    (hcurrent : p.current = some context) (hvk : p.versions[context]? = some vk)
    (hzero : vk.counter = 0) (codec : Codec) (frame : Bytes) (keyframe : Bool) :
    ∃ packet, (step P keyOf p (.protect codec frame keyframe)).1 = [packet] ∧
      pairOf packet = some (context, 0) := by
  have hepoch : ¬vk.counter / EPOCH < vk.send.epoch := UInt64.not_lt.mpr (hcounted.epoch hvk)
  rcases hprotect : p.protect P codec frame keyframe with ⟨e | packet, p'⟩
  · have hroom : ¬vk.counter.toNat + 1 = 2 ^ 64 := by rw [hzero]; decide
    simp only [Protector.protect, hcurrent, hvk, SendRatchet.key, if_neg hroom,
      if_neg hepoch] at hprotect
    cases hprotect
  · obtain ⟨⟨context', vk', fk, send, hcurrent', hvk', -, -, rfl, rfl⟩⟩ :=
      Protector.protect_ok hprotect
    obtain rfl := Option.some.inj (hcurrent.symm.trans hcurrent')
    obtain rfl := Option.some.inj (hvk.symm.trans hvk')
    refine ⟨_, by rw [step, hprotect], ?_⟩
    rw [pairOf, Protector.inspect_append, ← hzero]
    rfl

theorem epoch_mono {m n : UInt64} (h : n.toNat = m.toNat + 1) : m / EPOCH ≤ n / EPOCH := by
  rw [UInt64.le_iff_toNat_le, UInt64.toNat_div, UInt64.toNat_div, h]
  exact Nat.div_le_div_right (Nat.le_succ _)

theorem step_counted {earlier : List (Option (ContextId × UInt64))} {p : Protector}
    (h : Counted earlier p) (call : SendCall) :
    Counted (earlier ++ (step P keyOf p call).1.map pairOf) (step P keyOf p call).2 := by
  cases call with
  | install version roster =>
      simp only [step, List.map_nil, List.append_nil]
      refine ⟨fun hvk => ?_, fun hvk hne => ?_, h.zero⟩
      · rcases install_record hvk with hold | ⟨-, -, rfl⟩
        · exact h.epoch hold
        · change (0 : UInt64) ≤ 0 / EPOCH
          decide
      · rcases install_record hvk with hold | ⟨-, -, rfl⟩
        · exact h.first hold hne
        · exact absurd rfl hne
  | protect codec frame keyframe =>
      rcases protect_cases P keyOf h codec frame keyframe with
        hnone | ⟨context, vk, packet, send, -, hvk, hroom, hsend, hpair, hsome⟩
      · simpa [hnone] using h
      · have hsucc := toNat_succ hroom
        have hfirst : some (context, 0) ∈ earlier ++ [pairOf packet] := by
          by_cases hzero : vk.counter = 0
          · simp [hpair, hzero]
          · exact List.mem_append_left _ (h.first hvk hzero)
        simp only [hsome, List.map_cons, List.map_nil]
        refine ⟨fun {c v} hrec => ?_, fun {c v} hrec hne => ?_, fun {c n} hmem => ?_⟩
        · rw [Std.ExtTreeMap.getElem?_insert] at hrec
          split_ifs at hrec with hc
          · cases hrec
            rw [hsend]
            exact epoch_mono hsucc
          · exact h.epoch hrec
        · rw [Std.ExtTreeMap.getElem?_insert] at hrec
          split_ifs at hrec with hc
          · rwa [← Std.LawfulEqCmp.eq_of_compare hc]
          · exact List.mem_append_left _ (h.first hrec hne)
        · rcases List.mem_append.mp hmem with hold | hnew
          · exact List.mem_append_left _ (h.zero hold)
          · rw [List.mem_singleton, hpair] at hnew
            obtain ⟨rfl, -⟩ := Prod.mk.inj (Option.some.inj hnew)
            exact hfirst

theorem step_above {earlier : List (Option (ContextId × UInt64))} {p : Protector}
    (hcounted : Counted earlier p) (h : Above earlier p) {call : SendCall}
    (hfresh : FreshCall earlier p call) :
    Above (earlier ++ (step P keyOf p call).1.map pairOf) (step P keyOf p call).2 := by
  cases call with
  | install version roster =>
      simp only [step, List.map_nil, List.append_nil]
      intro context vk hvk hne n hn
      rcases install_record hvk with hold | ⟨-, -, rfl⟩
      · exact h context vk hold hne n hn
      · exact absurd rfl hne
  | protect codec frame keyframe =>
      rcases protect_cases P keyOf hcounted codec frame keyframe with
        hnone | ⟨context, vk, packet, send, hcurrent, hvk, hroom, -, hpair, hsome⟩
      · simpa [hnone] using h
      · have hsucc := toNat_succ hroom
        simp only [hsome, List.map_cons, List.map_nil]
        intro c v hrec hne n hn
        rw [List.mem_append, List.mem_singleton, hpair, Option.some.injEq, Prod.mk.injEq] at hn
        rw [Std.ExtTreeMap.getElem?_insert] at hrec
        split_ifs at hrec with hc
        · obtain rfl := Std.LawfulEqCmp.eq_of_compare hc
          cases hrec
          simp only [UInt64.lt_iff_toNat_lt, hsucc]
          rcases hn with hold | ⟨-, rfl⟩
          · by_cases hzero : vk.counter = 0
            · exact absurd hold (hfresh context vk hcurrent hvk hzero n)
            · have := UInt64.lt_iff_toNat_lt.mp (h context vk hvk hzero n hold)
              omega
          · omega
        · rcases hn with hold | ⟨rfl, -⟩
          · exact h c v hrec hne n hold
          · exact absurd Std.ReflCmp.compare_self hc

/-- A fresh call on a counted protector adds no pair twice. -/
theorem step_nodup {earlier : List (Option (ContextId × UInt64))} {p : Protector}
    (hcounted : Counted earlier p) (habove : Above earlier p) (hnodup : earlier.Nodup)
    {call : SendCall} (hfresh : FreshCall earlier p call) :
    (earlier ++ (step P keyOf p call).1.map pairOf).Nodup := by
  cases call with
  | install version roster => simpa [step] using hnodup
  | protect codec frame keyframe =>
      rcases protect_cases P keyOf hcounted codec frame keyframe with
        hnone | ⟨context, vk, packet, send, hcurrent, hvk, -, -, hpair, hsome⟩
      · simpa [hnone] using hnodup
      · simp only [hsome, List.map_cons, List.map_nil, hpair]
        refine List.nodup_append.mpr ⟨hnodup, List.nodup_singleton _, ?_⟩
        rintro x hx y hy rfl
        obtain rfl := List.mem_singleton.mp hy
        by_cases hzero : vk.counter = 0
        · exact hfresh context vk hcurrent hvk hzero _ hx
        · exact UInt64.lt_irrefl _ (habove context vk hvk hzero _ hx)

/-! ## Whole runs -/

theorem run_nodup {earlier : List (Option (ContextId × UInt64))} {p : Protector}
    (hcounted : Counted earlier p) (habove : Above earlier p) (hnodup : earlier.Nodup)
    {calls : List SendCall} (hfresh : FreshRun P keyOf earlier p calls) :
    (earlier ++ (sent P keyOf p calls).map pairOf).Nodup := by
  induction calls generalizing earlier p with
  | nil => simpa [sent] using hnodup
  | cons call calls ih =>
      have := ih (step_counted P keyOf hcounted call) (step_above P keyOf hcounted habove hfresh.1)
        (step_nodup P keyOf hcounted habove hnodup hfresh.1) hfresh.2
      simpa [sent, List.append_assoc] using this

theorem run_fresh {earlier : List (Option (ContextId × UInt64))} {p : Protector}
    (hcounted : Counted earlier p) {calls : List SendCall}
    (hnodup : (earlier ++ (sent P keyOf p calls).map pairOf).Nodup) :
    FreshRun P keyOf earlier p calls := by
  induction calls generalizing earlier p with
  | nil => trivial
  | cons call calls ih =>
      simp only [sent, List.map_append, ← List.append_assoc] at hnodup
      refine ⟨?_, ih (step_counted P keyOf hcounted call) hnodup⟩
      cases call with
      | install version roster => trivial
      | protect codec frame keyframe =>
          intro context vk hcurrent hvk hzero n hmem
          obtain ⟨packet, hpacket, hpair⟩ :=
            protect_of_zero P keyOf hcounted hcurrent hvk hzero codec frame keyframe
          rw [hpacket, List.map_singleton, hpair] at hnodup
          have hdisjoint := (List.nodup_append.mp (List.nodup_append.mp hnodup).1).2.2
          exact hdisjoint _ (hcounted.zero hmem) _ (List.mem_singleton.mpr rfl) rfl

theorem counted_new (sid : BitVec 256) (me : SigPublic) (retain : ℕ) :
    Counted [] (Protector.new P sid me retain) where
  epoch hvk := by simp [Protector.new] at hvk
  first hvk := by simp [Protector.new] at hvk
  zero hmem := by simp at hmem

theorem above_new (sid : BitVec 256) (me : SigPublic) (retain : ℕ) :
    Above [] (Protector.new P sid me retain) := by
  intro context vk hvk
  simp [Protector.new] at hvk

/-! ## Nonces -/

/-- The nonce a packet was sealed under. -/
def nonceOf (sid : BitVec 256) (packet : Bytes) : Option (BitVec 256) :=
  match Protector.inspect packet with
  | .ok t => some (nonceFor P sid t)
  | .error _ => none

/-- The field lists hashed into the nonces of a list of packets. -/
def hashedFields (sid : BitVec 256) (packets : List Bytes) : Set (List Bytes) :=
  {fields | ∃ packet ∈ packets, ∃ t, Protector.inspect packet = .ok t ∧ fields = nonceFields sid t}

theorem u64Bytes_inj {m n : UInt64} (h : u64Bytes m = u64Bytes n) : m = n := by
  rw [← u64_ofBe_u64Bytes m, ← u64_ofBe_u64Bytes n, h]

/-- The hashed fields determine the context and the counter. -/
theorem nonceFields_pair {sid : BitVec 256} {s t : Trailer}
    (h : nonceFields sid s = nonceFields sid t) :
    s.version = t.version ∧ s.counter = t.counter := by
  simp only [nonceFields, List.cons.injEq] at h
  exact ⟨bytesOf_inj (by decide) h.2.2.1, u64Bytes_inj h.2.2.2.1⟩

/-- Packets with distinct pairs have distinct nonces as long as the nonce hash does not collide on
what was hashed. -/
theorem nonces_nodup {sid : BitVec 256} {packets : List Bytes}
    (hinj : Set.InjOn (nonce P) (hashedFields sid packets))
    (hnodup : (packets.map pairOf).Nodup) : (packets.map (nonceOf P sid)).Nodup := by
  refine List.Nodup.map_on (fun a ha b hb hab => ?_) hnodup.of_map
  refine List.inj_on_of_nodup_map hnodup ha hb ?_
  cases hta : Protector.inspect a with
  | error ea =>
      cases htb : Protector.inspect b with
      | error eb => simp [pairOf, hta, htb]
      | ok tb => simp [nonceOf, hta, htb] at hab
  | ok ta =>
      cases htb : Protector.inspect b with
      | error eb => simp [nonceOf, hta, htb] at hab
      | ok tb =>
          simp only [nonceOf, hta, htb, Option.some.injEq] at hab
          have hfields := hinj ⟨a, ha, ta, hta, rfl⟩ ⟨b, hb, tb, htb, rfl⟩ hab
          obtain ⟨hversion, hcounter⟩ := nonceFields_pair hfields
          simp [pairOf, hta, htb, hversion, hcounter]

/-- Over any run of installations and protections, no context and counter is sent twice exactly when
no frame is protected under a new record of a context that was sent under before; and then no nonce
is used twice either. -/
theorem sent_nodup_iff (sid : BitVec 256) (me : SigPublic) (retain : ℕ) (calls : List SendCall) :
    (((sent P keyOf (Protector.new P sid me retain) calls).map pairOf).Nodup ↔
      FreshRun P keyOf [] (Protector.new P sid me retain) calls) ∧
    (FreshRun P keyOf [] (Protector.new P sid me retain) calls →
      Set.InjOn (nonce P)
        (hashedFields sid (sent P keyOf (Protector.new P sid me retain) calls)) →
      ((sent P keyOf (Protector.new P sid me retain) calls).map (nonceOf P sid)).Nodup) := by
  have hrun : FreshRun P keyOf [] (Protector.new P sid me retain) calls →
      ((sent P keyOf (Protector.new P sid me retain) calls).map pairOf).Nodup := by
    intro hfresh
    simpa using run_nodup P keyOf (counted_new P sid me retain) (above_new P sid me retain)
      List.nodup_nil hfresh
  refine ⟨⟨fun hnodup => ?_, hrun⟩, fun hfresh hinj => nonces_nodup P hinj (hrun hfresh)⟩
  exact run_fresh P keyOf (counted_new P sid me retain) (by simpa using hnodup)

/-- Four versions later the record of the first is gone; installed again, it counts from zero. -/
theorem reinstalled_version_reuses_pair :
    ¬((sent toy (fun v => v.setWidth 256) (Protector.new toy 7 1 4)
      [.install 1 [1, 2], .protect .generic [5] false, .install 2 [1, 2], .install 3 [1, 2],
        .install 4 [1, 2], .install 5 [1, 2], .install 1 [1, 2],
        .protect .generic [6] false]).map pairOf).Nodup := by
  decide +kernel

end CausalFrontierRatchet.NonceUniqueness
