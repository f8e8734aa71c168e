import Mathlib.Logic.Basic

/-!
Machines that answer each input and move on.  Two machines whose states are related answer alike if
related states give the same answer to every input and move to related states.
-/

namespace CausalFrontierRatchet.Transducer

variable {σ τ ι ο : Type*}

/-- The answers of a machine to a sequence of inputs. -/
def answers (step : σ → ι → ο × σ) : σ → List ι → List ο
  | _, [] => []
  | s, input :: inputs => (step s input).1 :: answers step (step s input).2 inputs

/-- Related states answer alike and move to related states. -/
structure Simulates (step : σ → ι → ο × σ) (step' : τ → ι → ο × τ) (R : σ → τ → Prop) : Prop where
  answer : ∀ {s t}, R s t → ∀ input, (step s input).1 = (step' t input).1
  next : ∀ {s t}, R s t → ∀ input, R (step s input).2 (step' t input).2

variable {step : σ → ι → ο × σ} {step' : τ → ι → ο × τ} {R : σ → τ → Prop}

theorem Simulates.answers_eq (h : Simulates step step' R) {s : σ} {t : τ} (hst : R s t)
    (inputs : List ι) : answers step s inputs = answers step' t inputs := by
  induction inputs generalizing s t with
  | nil => rfl
  | cons input inputs ih => rw [answers, answers, h.answer hst input, ih (h.next hst input)]

/-- States with the same abstraction answer alike. -/
theorem Simulates.answers_congr {view : σ → τ} (h : Simulates step step' fun s t => view s = t)
    {s s' : σ} (hview : view s = view s') (inputs : List ι) :
    answers step s inputs = answers step s' inputs := by
  rw [h.answers_eq hview, h.answers_eq rfl]

end CausalFrontierRatchet.Transducer
