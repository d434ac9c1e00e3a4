import Mathlib.Algebra.Order.Ring.Nat
import Mathlib.Data.List.TakeDrop

/-!
# Replicated logs

A log of entries that is only appended to, and replicas that apply its entries in order. A replica
has the state after the entries that it has applied, and returns what a single machine returns that
applies the log from its beginning (`Follows`). This is so however far the replicas have come, and
whether a replica came there by applying entries or got the state of a snapshot.
-/

namespace ReplicatedLog

variable {σ ε ρ : Type*}

/-- The state after the first `i` entries. -/
def stateAt (apply : σ → ε → σ × ρ) (initial : σ) (log : List ε) (i : ℕ) : σ :=
  (log.take i).foldl (fun s e => (apply s e).1) initial

/-- What is returned for the entry number `i`. -/
def resultAt (apply : σ → ε → σ × ρ) (initial : σ) (log : List ε) (i : ℕ) : Option ρ :=
  log[i]?.map fun e => (apply (stateAt apply initial log i) e).2

/-- A copy of the state, the number of entries that are applied in it, and what was returned for
entries, with their numbers. -/
structure Replica (σ ρ : Type*) where
  state : σ
  applied : ℕ
  results : List (ℕ × ρ)

variable {apply : σ → ε → σ × ρ} {initial : σ} {log : List ε} {i j : ℕ} {e : ε}

/-! ### The log grows -/

theorem stateAt_append (hi : i ≤ log.length) (more : List ε) :
  stateAt apply initial (log ++ more) i = stateAt apply initial log i
  := by
  rw [stateAt, List.take_append_of_le_length hi, stateAt]

theorem stateAt_succ (he : log[i]? = some e) :
  stateAt apply initial log (i + 1) = (apply (stateAt apply initial log i) e).1
  := by
  rw [stateAt, List.take_add_one, he, List.foldl_append]
  rfl

theorem resultAt_append {res : ρ} (h : resultAt apply initial log i = some res) (more : List ε) :
  resultAt apply initial (log ++ more) i = some res
  := by
  obtain ⟨e, he, -⟩ := Option.map_eq_some_iff.mp h
  have hi : i < log.length := (List.getElem?_eq_some_iff.mp he).1
  rw [resultAt, List.getElem?_append_left hi, stateAt_append hi.le]
  exact h

/-- What holds at some entry and is kept by those after it holds from there on. -/
theorem stateAt_stays {P : σ → Prop} (hstep : ∀ s, ∀ e ∈ log, P s → P (apply s e).1)
    (hi : P (stateAt apply initial log i)) (hij : i ≤ j) :
  P (stateAt apply initial log j)
  := by
  induction j, hij using Nat.le_induction with
  | base => exact hi
  | succ j hij ih =>
      cases he : log[j]? with
      | none =>
          have hj : log.length ≤ j := List.getElem?_eq_none_iff.mp he
          rw [stateAt, List.take_of_length_le (Nat.le_succ_of_le hj), ← List.take_of_length_le hj]
          exact ih
      | some e =>
          rw [stateAt_succ he]
          exact hstep _ e (List.mem_of_getElem? he) ih

/-! ### Replicas -/

/-- The replica has what a single machine has after the same entries. -/
structure Follows (apply : σ → ε → σ × ρ) (initial : σ) (log : List ε) (r : Replica σ ρ) :
    Prop where
  applied_le : r.applied ≤ log.length
  state_eq : r.state = stateAt apply initial log r.applied
  results_eq : ∀ i res, (i, res) ∈ r.results → resultAt apply initial log i = some res

namespace Follows

variable {r : Replica σ ρ}

theorem append (h : Follows apply initial log r) (more : List ε) :
  Follows apply initial (log ++ more) r
  := by
  refine ⟨?_, ?_, ?_⟩
  · rw [List.length_append]
    exact h.applied_le.trans (Nat.le_add_right _ _)
  · rw [h.state_eq, stateAt_append h.applied_le]
  · exact fun i res hres => resultAt_append (h.results_eq i res hres) more

/-- The next entry is applied. -/
theorem applyNext (h : Follows apply initial log r) (he : log[r.applied]? = some e) :
  Follows apply initial log
    ⟨(apply r.state e).1, r.applied + 1, r.results ++ [(r.applied, (apply r.state e).2)]⟩
  := by
  refine ⟨(List.getElem?_eq_some_iff.mp he).1, ?_, ?_⟩
  · rw [stateAt_succ he, ← h.state_eq]
  · intro i res hres
    rcases List.mem_append.mp hres with hold | hnew
    · exact h.results_eq i res hold
    · obtain ⟨rfl, rfl⟩ := Prod.mk.inj (List.mem_singleton.mp hnew)
      rw [resultAt, he, h.state_eq]
      rfl

/-- The state is replaced by one that was reached before, by this replica or another. -/
theorem install (h : Follows apply initial log r) (hi : i ≤ log.length) :
  Follows apply initial log ⟨stateAt apply initial log i, i, r.results⟩
  := ⟨hi, rfl, h.results_eq⟩

/-- The replica begins again. -/
theorem restart :
  Follows apply initial log ⟨initial, 0, []⟩
  := ⟨Nat.zero_le _, rfl, fun _ _ h => nomatch h⟩

end Follows

end ReplicatedLog
