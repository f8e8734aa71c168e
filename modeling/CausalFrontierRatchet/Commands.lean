import Mathlib.Logic.Relation

/-!
Commands that read and write a state and may fail; what a command wrote before it failed stays
written.  A command moves along a relation when its start and end states are related, whether it
fails or not; for a reflexive and transitive relation this composes.
-/

namespace CausalFrontierRatchet.Commands

abbrev Cmd (ε σ : Type) : Type → Type :=
  ExceptT ε (StateM σ)

variable {ε σ α β : Type}

/-- Runs a command and keeps its failure as a value. -/
def attempt (c : Cmd ε σ α) : Cmd ε σ (Except ε α) := fun s =>
  match c s with
  | (r, s') => (.ok r, s')

/-- The two ways a sequence of commands can go. -/
theorem bind_run (c : Cmd ε σ α) (f : α → Cmd ε σ β) (s : σ) :
    (c >>= f) s =
      match c s with
      | (.ok a, s') => f a s'
      | (.error e, s') => (.error e, s') := by
  change ExceptT.bindCont f (c s).1 (c s).2 = _
  rcases c s with ⟨e | a, s'⟩ <;> rfl

@[simp] theorem pure_run (a : α) (s : σ) : (pure a : Cmd ε σ α) s = (.ok a, s) := rfl

@[simp] theorem throw_run (e : ε) (s : σ) : (throw e : Cmd ε σ α) s = (.error e, s) := rfl

@[simp] theorem get_run (s : σ) : (get : Cmd ε σ σ) s = (.ok s, s) := rfl

@[simp] theorem modify_run (f : σ → σ) (s : σ) : (modify f : Cmd ε σ PUnit) s = (.ok ⟨⟩, f s) := rfl

@[simp] theorem set_run (s' s : σ) : (set s' : Cmd ε σ PUnit) s = (.ok ⟨⟩, s') := rfl

@[simp] theorem lift_run (e : Except ε α) (s : σ) : (liftM e : Cmd ε σ α) s = (e, s) := by
  cases e <;> rfl

@[simp] theorem attempt_run (c : Cmd ε σ α) (s : σ) : attempt c s = (.ok (c s).1, (c s).2) := rfl

theorem bind_pure_state (c : Cmd ε σ α) (f : α → β) (s : σ) :
    ((c >>= fun a => pure (f a)) s).2 = (c s).2 := by
  rw [bind_run]
  rcases c s with ⟨e | a, s'⟩ <;> rfl

theorem bind_ok {c : Cmd ε σ α} {f : α → Cmd ε σ β} {s s' : σ} {b : β}
    (h : (c >>= f) s = (.ok b, s')) : ∃ a s₁, c s = (.ok a, s₁) ∧ f a s₁ = (.ok b, s') := by
  rw [bind_run] at h
  rcases hc : c s with ⟨r | a, s₁⟩
  · rw [hc] at h
    cases h
  · rw [hc] at h
    exact ⟨a, s₁, rfl, h⟩

theorem bind_error {c : Cmd ε σ α} {f : α → Cmd ε σ β} {s s' : σ} {e : ε}
    (h : (c >>= f) s = (.error e, s')) :
    c s = (.error e, s') ∨ ∃ a s₁, c s = (.ok a, s₁) ∧ f a s₁ = (.error e, s') := by
  rw [bind_run] at h
  rcases hc : c s with ⟨r | a, s₁⟩
  · rw [hc] at h
    cases h
    exact Or.inl rfl
  · rw [hc] at h
    exact Or.inr ⟨a, s₁, rfl, h⟩

theorem run_of_attempt {c : Cmd ε σ α} {s s' : σ} {r : Except ε α}
    (h : attempt c s = (.ok r, s')) : c s = (r, s') := by
  rw [attempt_run, Prod.mk.injEq, Except.ok.injEq] at h
  exact Prod.ext h.1 h.2

section Moves

variable (R : σ → σ → Prop)

def Moves (c : Cmd ε σ α) (s : σ) : Prop :=
  R s (c s).2

variable {R}

theorem Moves.run {c : Cmd ε σ α} {s s' : σ} {r : Except ε α} (h : Moves R c s)
    (hrun : c s = (r, s')) : R s s' := by
  rw [Moves, hrun] at h
  exact h

theorem moves_pure [Std.Refl R] (a : α) (s : σ) : Moves R (pure a : Cmd ε σ α) s :=
  Std.Refl.refl s

theorem moves_throw [Std.Refl R] (e : ε) (s : σ) : Moves R (throw e : Cmd ε σ α) s :=
  Std.Refl.refl s

/-- The second command may rely on where the first one has moved. -/
theorem moves_seq [IsTrans σ R] {c : Cmd ε σ α} {f : α → Cmd ε σ β} {s : σ} (hc : Moves R c s)
    (hf : ∀ a s', R s s' → c s = (.ok a, s') → Moves R (f a) s') : Moves R (c >>= f) s := by
  unfold Moves at hc ⊢
  rw [bind_run]
  rcases hrun : c s with ⟨r | a, s'⟩
  · rw [hrun] at hc
    exact hc
  · rw [hrun] at hc
    exact IsTrans.trans _ _ _ hc (hf a s' hc hrun)

theorem moves_bind [IsTrans σ R] {c : Cmd ε σ α} {f : α → Cmd ε σ β} {s : σ} (hc : Moves R c s)
    (hf : ∀ a s', c s = (.ok a, s') → Moves R (f a) s') : Moves R (c >>= f) s :=
  moves_seq hc fun a s' _ hrun => hf a s' hrun

theorem moves_get {f : σ → Cmd ε σ β} {s : σ} (h : Moves R (f s) s) : Moves R (get >>= f) s :=
  h

theorem moves_modify {f : σ → σ} {s : σ} (h : R s (f s)) :
    Moves R (modify f : Cmd ε σ PUnit) s :=
  h

theorem moves_lift [Std.Refl R] {e : Except ε α} {f : α → Cmd ε σ β} {s : σ}
    (h : ∀ a, e = .ok a → Moves R (f a) s) : Moves R (liftM e >>= f) s := by
  cases e with
  | error e => exact Std.Refl.refl s
  | ok a => exact h a rfl

theorem moves_attempt {c : Cmd ε σ α} {s : σ} (hc : Moves R c s) : Moves R (attempt c) s :=
  hc

end Moves

/-! ## Commands that cannot fail -/

section Total

def Total (c : Cmd ε σ α) : Prop :=
  ∀ s, ∃ a s', c s = (.ok a, s')

theorem Total.error {c : Cmd ε σ α} (hc : Total c) {s s' : σ} {e : ε} (h : c s = (.error e, s')) :
    False := by
  obtain ⟨a, s₁, hrun⟩ := hc s
  rw [h] at hrun
  cases hrun

theorem total_pure (a : α) : Total (pure a : Cmd ε σ α) :=
  fun s => ⟨a, s, rfl⟩

theorem total_get : Total (get : Cmd ε σ σ) :=
  fun s => ⟨s, s, rfl⟩

theorem total_modify (f : σ → σ) : Total (modify f : Cmd ε σ PUnit) :=
  fun s => ⟨⟨⟩, f s, rfl⟩

theorem total_attempt (c : Cmd ε σ α) : Total (attempt c) :=
  fun s => ⟨(c s).1, (c s).2, rfl⟩

theorem total_bind {c : Cmd ε σ α} {f : α → Cmd ε σ β} (hc : Total c) (hf : ∀ a, Total (f a)) :
    Total (c >>= f) := by
  intro s
  obtain ⟨a, s₁, hrun⟩ := hc s
  obtain ⟨b, s₂, hnext⟩ := hf a s₁
  refine ⟨b, s₂, ?_⟩
  rw [bind_run, hrun]
  exact hnext

end Total

/-! ## Where a command can fail -/

section FailsIn

variable {S : σ → Prop}

/-- A command that leaves a state with the property whenever it fails. -/
def FailsIn (S : σ → Prop) (c : Cmd ε σ α) (s : σ) : Prop :=
  ∀ e s', c s = (.error e, s') → S s'

theorem Total.failsIn {c : Cmd ε σ α} (hc : Total c) (s : σ) : FailsIn S c s :=
  fun _ _ h => (hc.error h).elim

theorem failsIn_bind {c : Cmd ε σ α} {f : α → Cmd ε σ β} {s : σ} (hc : FailsIn S c s)
    (hf : ∀ a s', c s = (.ok a, s') → FailsIn S (f a) s') : FailsIn S (c >>= f) s := by
  intro e s' h
  rcases bind_error h with hfirst | ⟨a, s₁, hfirst, hthen⟩
  · exact hc e s' hfirst
  · exact hf a s₁ hfirst e s' hthen

theorem failsIn_get {f : σ → Cmd ε σ β} {s : σ} (h : FailsIn S (f s) s) :
    FailsIn S (get >>= f) s :=
  h

end FailsIn

end CausalFrontierRatchet.Commands
