import Mathlib.Data.List.Basic

/-!
# Runs

A run is a list of events that change a state one after the other. What each event keeps, if it meets a
condition in the state that it finds, a run of such events keeps.
-/

set_option autoImplicit false

namespace Hlquery.Runs

variable {σ ε : Type} (step : σ → ε → σ)

/-- Each event of a run, in the state that it finds. -/
def Along (P : σ → ε → Prop) : σ → List ε → Prop
  | _, [] => True
  | s, e :: es => P s e ∧ Along P (step s e) es

variable {step} {P Q : σ → ε → Prop} {I : σ → Prop}

theorem Along.imp (hstep : ∀ {s e}, I s → P s e → I (step s e)) (hQ : ∀ {s e}, I s → P s e → Q s e)
    {es : List ε} {s : σ} (hs : I s) (h : Along step P s es) : Along step Q s es := by
  induction es generalizing s with
  | nil => trivial
  | cons e es ih => exact ⟨hQ hs h.1, ih (hstep hs h.1) h.2⟩

/-- **An invariant of the steps holds at the end of a run.** -/
theorem Along.invariant (hstep : ∀ {s e}, I s → P s e → I (step s e)) {es : List ε} {s : σ} (hs : I s)
    (h : Along step P s es) : I (es.foldl step s) := by
  induction es generalizing s with
  | nil => exact hs
  | cons e es ih => exact ih (hstep hs h.1) h.2

end Hlquery.Runs
