import Mathlib.Logic.Basic

/-!
# Runs

Steps are taken one after the other from a state, so that a run is a fold. Where the steps have to
meet a condition in the states in which they are taken (`Runs.Along`), what they preserve holds in
the end (`Runs.Along.invariant`).
-/

namespace Runs

variable {σ α : Type*} {step : σ → α → σ} {P : σ → α → Prop}

/-- Each step of a run satisfies `P` in the state in which it is taken. -/
def Along (step : σ → α → σ) (P : σ → α → Prop) : σ → List α → Prop
  | _, [] => True
  | s, a :: as => P s a ∧ Along step P (step s a) as

instance decidableAlong [∀ s a, Decidable (P s a)] :
    (s : σ) → (as : List α) → Decidable (Along step P s as)
  | _, [] => .isTrue trivial
  | s, a :: as =>
      have := decidableAlong (step s a) as
      inferInstanceAs (Decidable (_ ∧ _))

theorem along_append {s : σ} {as as' : List α} :
  Along step P s (as ++ as') ↔ Along step P s as ∧ Along step P (as.foldl step s) as'
  := by
  induction as generalizing s with
  | nil => exact (iff_of_eq (true_and _)).symm
  | cons a as ih =>
      rw [List.cons_append, Along, Along, ih, and_assoc]
      rfl

theorem along_of_forall (h : ∀ s a, P s a) (s : σ) (as : List α) :
  Along step P s as
  := by
  induction as generalizing s with
  | nil => trivial
  | cons a as ih => exact ⟨h s a, ih _⟩

/-- What the steps preserve that are as `P` says holds after a run of them. -/
theorem Along.invariant {I : σ → Prop} (hkeep : ∀ s a, I s → P s a → I (step s a)) {s : σ}
    {as : List α} (h : Along step P s as) (hs : I s) :
  I (as.foldl step s)
  := by
  induction as generalizing s with
  | nil => exact hs
  | cons a as ih =>
      apply ih h.2
      apply hkeep _ _ hs h.1

end Runs
