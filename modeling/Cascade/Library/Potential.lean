import Cascade.Library.Runs
import Mathlib.Algebra.Order.Monoid.Defs
import Mathlib.Algebra.Order.Monoid.Unbundled.Basic

/-!
# Potentials

Steps are taken one after the other from a state. What a step costs is paid from what it earns
and from a potential of the states, which keeps what is left. Then what a run costs is bounded by
the potential at its beginning and what it has earned (`Potential.total_le`).
-/

open Runs

namespace Potential

variable {σ α K : Type*} {step : σ → α → σ}

/-- The sum of `f` over the steps of a run. -/
def total [Add K] [Zero K] (step : σ → α → σ) (f : σ → α → K) : σ → List α → K
  | _, [] => 0
  | s, a :: as => f s a + total step f (step s a) as

variable {P : σ → α → Prop} {I : σ → Prop}

/-- A run costs at most what is there at its beginning and what it earns, less what is left. -/
theorem total_add_le [AddCommMonoid K] [PartialOrder K] [IsOrderedAddMonoid K]
    (φ : σ → K) {cost income : σ → α → K}
    (hkeep : ∀ s a, I s → P s a → I (step s a))
    (hstep : ∀ s a, I s → P s a → cost s a + φ (step s a) ≤ φ s + income s a)
    {s : σ} {as : List α} (h : Along step P s as) (hs : I s) :
  total step cost s as + φ (as.foldl step s) ≤ φ s + total step income s as
  := by
  induction as generalizing s with
  | nil =>
      rw [total, total, zero_add, add_zero]
      rfl
  | cons a as ih =>
      calc total step cost s (a :: as) + φ ((a :: as).foldl step s)
        _ = cost s a + (total step cost (step s a) as + φ (as.foldl step (step s a))) :=
            add_assoc ..
        _ ≤ cost s a + (φ (step s a) + total step income (step s a) as) := by
            apply add_le_add le_rfl
            exact ih h.2 (hkeep s a hs h.1)
        _ = cost s a + φ (step s a) + total step income (step s a) as := (add_assoc ..).symm
        _ ≤ φ s + income s a + total step income (step s a) as := by
            apply add_le_add _ le_rfl
            exact hstep s a hs h.1
        _ = φ s + total step income s (a :: as) := add_assoc ..

/-- If nothing is ever owed, it costs at most what is there and what it earns. -/
theorem total_le [AddCommMonoid K] [PartialOrder K] [IsOrderedAddMonoid K]
    (φ : σ → K) {cost income : σ → α → K} (hφ : ∀ s, I s → 0 ≤ φ s)
    (hkeep : ∀ s a, I s → P s a → I (step s a))
    (hstep : ∀ s a, I s → P s a → cost s a + φ (step s a) ≤ φ s + income s a)
    {s : σ} {as : List α} (h : Along step P s as) (hs : I s) :
  total step cost s as ≤ φ s + total step income s as
  := by
  have hend := hφ _ (h.invariant hkeep hs)
  apply (le_add_of_nonneg_right hend).trans
  apply total_add_le φ hkeep hstep h hs

end Potential
