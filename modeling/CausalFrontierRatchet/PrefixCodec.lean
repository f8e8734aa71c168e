import Mathlib.Data.List.Basic

/-!
Prefix codecs.  A parser consumes a prefix of its input and hands on the rest.  It is exact for a
printer when it reads back what was printed, whatever follows, and reads nothing else; what is
printed then delimits itself.
-/

namespace CausalFrontierRatchet.PrefixCodec

variable {σ ε α β γ : Type}

abbrev Parser (σ ε α : Type) : Type :=
  StateT (List σ) (Except ε) α

/-! ## Running parsers -/

section Running

variable {read : Parser σ ε α} {next : α → Parser σ ε β} {input rest mid : List σ} {a : α} {b : β}

theorem bind_apply : (read >>= next) input =
    match read input with
    | .ok (a, mid) => next a mid
    | .error e => .error e := by
  change Except.bind (read input) _ = _
  cases read input <;> rfl

theorem bind_of_ok (h : read input = .ok (a, mid)) : (read >>= next) input = next a mid := by
  rw [bind_apply, h]

theorem bind_of_error {e : ε} (h : read input = .error e) : (read >>= next) input = .error e := by
  rw [bind_apply, h]

theorem ok_of_bind (h : (read >>= next) input = .ok (b, rest)) :
    ∃ a mid, read input = .ok (a, mid) ∧ next a mid = .ok (b, rest) := by
  rw [bind_apply] at h
  cases hread : read input with
  | error e =>
      rw [hread] at h
      cases h
  | ok result =>
      rw [hread] at h
      exact ⟨result.1, result.2, rfl, h⟩

@[simp] theorem pure_apply (a : α) (input : List σ) :
    (pure a : Parser σ ε α) input = .ok (a, input) := rfl

@[simp] theorem throw_apply (e : ε) (input : List σ) :
    (throw e : Parser σ ε α) input = .error e := rfl

@[simp] theorem lift_apply (e : Except ε α) (input : List σ) :
    (liftM e : Parser σ ε α) input = e.map fun a => (a, input) := by
  cases e <;> rfl

/-- A step that reads nothing. -/
theorem ok_of_lift {e : Except ε α} (h : ((liftM e : Parser σ ε α) >>= next) input = .ok (b, rest)) :
    ∃ a, e = .ok a ∧ next a input = .ok (b, rest) := by
  cases e with
  | error e => cases h
  | ok a => exact ⟨a, rfl, h⟩

/-- A check that passed changed nothing. -/
theorem ok_of_guard {p : Prop} [Decidable p] {e : ε} {next : Parser σ ε β}
    (h : (if p then throw e else next) input = .ok (b, rest)) :
    ¬p ∧ next input = .ok (b, rest) := by
  split at h
  · cases h
  · exact ⟨‹_›, h⟩

theorem guard_eq_ok {p : Prop} [Decidable p] {e : ε} {next : Parser σ ε β} :
    (if p then throw e else next) input = .ok (b, rest) ↔ ¬p ∧ next input = .ok (b, rest) := by
  split_ifs with hp
  · simp [hp]
  · simp [hp]

theorem pure_eq_ok {c : β} :
    (pure c : Parser σ ε β) input = .ok (b, rest) ↔ c = b ∧ input = rest := by
  simp

end Running

/-! ## Exact parsers -/

structure Exact (ok : α → Prop) (write : α → List σ) (read : Parser σ ε α) : Prop where
  complete : ∀ {a : α} (rest : List σ), ok a → read (write a ++ rest) = .ok (a, rest)
  sound : ∀ {input rest : List σ} {a : α}, read input = .ok (a, rest) →
    ok a ∧ input = write a ++ rest

theorem exact_iff {ok : α → Prop} {write : α → List σ} {read : Parser σ ε α} :
    Exact ok write read ↔ ∀ input rest a,
      read input = .ok (a, rest) ↔ ok a ∧ input = write a ++ rest := by
  constructor
  · intro h input rest a
    exact ⟨h.sound, fun hin => hin.2 ▸ h.complete rest hin.1⟩
  · intro h
    exact ⟨fun rest ha => (h _ _ _).mpr ⟨ha, rfl⟩, (h _ _ _).mp⟩

/-- What is printed determines what was printed, whatever follows. -/
def Delimited (ok : α → Prop) (write : α → List σ) : Prop :=
  ∀ ⦃a b : α⦄ ⦃rest rest' : List σ⦄, ok a → ok b → write a ++ rest = write b ++ rest' →
    a = b ∧ rest = rest'

section Laws

variable {ok : α → Prop} {write : α → List σ} {read : Parser σ ε α}

theorem Exact.bind_complete (h : Exact ok write read) {a : α} (ha : ok a) (rest : List σ)
    (next : α → Parser σ ε β) : (read >>= next) (write a ++ rest) = next a rest :=
  bind_of_ok (h.complete rest ha)

/-- Peels off the first field of a record that was read. -/
theorem Exact.bind_sound (h : Exact ok write read) {next : α → Parser σ ε β} {input rest : List σ}
    {b : β} (hrun : (read >>= next) input = .ok (b, rest)) :
    ∃ a mid, ok a ∧ input = write a ++ mid ∧ next a mid = .ok (b, rest) := by
  obtain ⟨a, mid, hread, hnext⟩ := ok_of_bind hrun
  exact ⟨a, mid, (h.sound hread).1, (h.sound hread).2, hnext⟩

/-- A record is read by reading its first field and then the rest of it. -/
theorem Exact.bind_eq_ok (h : Exact ok write read) {next : α → Parser σ ε β} {input rest : List σ}
    {b : β} : (read >>= next) input = .ok (b, rest) ↔
      ∃ a mid, ok a ∧ input = write a ++ mid ∧ next a mid = .ok (b, rest) := by
  constructor
  · exact h.bind_sound
  · intro hrun
    obtain ⟨a, mid, ha, rfl, hnext⟩ := hrun
    rw [h.bind_complete ha, hnext]

theorem Exact.delimited (h : Exact ok write read) : Delimited ok write := by
  intro a b rest rest' ha hb heq
  have hread := h.complete rest ha
  rw [heq, h.complete rest' hb] at hread
  cases hread
  exact ⟨rfl, rfl⟩

theorem Delimited.injective (h : Delimited ok write) {a b : α} (ha : ok a) (hb : ok b)
    (heq : write a = write b) : a = b :=
  (h ha hb (congrArg (· ++ []) heq)).1

/-- Lists of one length delimit themselves element by element. -/
theorem Delimited.flatMap (h : Delimited ok write) {xs ys : List α} {rest rest' : List σ}
    (hx : ∀ a ∈ xs, ok a) (hy : ∀ a ∈ ys, ok a) (hlen : xs.length = ys.length)
    (heq : xs.flatMap write ++ rest = ys.flatMap write ++ rest') : xs = ys ∧ rest = rest' := by
  induction xs generalizing ys with
  | nil =>
      have hnil : ys = [] := List.length_eq_zero_iff.mp hlen.symm
      subst hnil
      exact ⟨rfl, heq⟩
  | cons x xs ih =>
      cases ys with
      | nil => cases hlen
      | cons y ys =>
          simp only [List.flatMap_cons, List.append_assoc] at heq
          obtain ⟨rfl, htail⟩ := h (hx x List.mem_cons_self) (hy y List.mem_cons_self) heq
          obtain ⟨rfl, hrest⟩ := ih (fun a ha => hx a (List.mem_cons_of_mem _ ha))
            (fun a ha => hy a (List.mem_cons_of_mem _ ha)) (by simpa using hlen) htail
          exact ⟨rfl, hrest⟩

/-- When nothing is printed as the empty list, lists need no length in front. -/
theorem Delimited.flatMap_injective (h : Delimited ok write) (hne : ∀ a, write a ≠ [])
    {xs ys : List α} (hx : ∀ a ∈ xs, ok a) (hy : ∀ a ∈ ys, ok a)
    (heq : xs.flatMap write = ys.flatMap write) : xs = ys := by
  induction xs generalizing ys with
  | nil =>
      cases ys with
      | nil => rfl
      | cons y ys =>
          rw [List.flatMap_nil, List.flatMap_cons, eq_comm, List.append_eq_nil_iff] at heq
          exact absurd heq.1 (hne y)
  | cons x xs ih =>
      cases ys with
      | nil =>
          rw [List.flatMap_nil, List.flatMap_cons, List.append_eq_nil_iff] at heq
          exact absurd heq.1 (hne x)
      | cons y ys =>
          rw [List.flatMap_cons, List.flatMap_cons] at heq
          obtain ⟨rfl, htail⟩ := h (hx x List.mem_cons_self) (hy y List.mem_cons_self) heq
          rw [ih (fun a ha => hx a (List.mem_cons_of_mem _ ha))
            (fun a ha => hy a (List.mem_cons_of_mem _ ha)) htail]

end Laws

end CausalFrontierRatchet.PrefixCodec
