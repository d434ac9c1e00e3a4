import Cascade.Library.Runs
import Mathlib.Algebra.Order.BigOperators.Group.List
import Mathlib.Algebra.Order.Ring.Nat
import Mathlib.Data.Finset.Card
import Mathlib.Data.Set.Function

/-!
# Operations that share a memory

Operations are started at any time, and take their steps in any order. What the steps of one
operation are is given by a `Protocol`; a state is the memory together with all operations that
were ever started, those that have returned included. An invariant of the states is an invariant
of the runs (`Concurrent.run_induction`).

Often an operation has something for its own, for a while or for good. `Owned` says that those who
have something are those that a table lists, so that nobody has what another has. Where operations
have several things, what they have is added up, and the sum is known (`sum_map_set`).
-/

/-- How operations start, and what a step of an operation does to the memory and to the operation.
What an operation does not decide by itself is given with the step. -/
structure Protocol (σ γ ι ο : Type*) where
  start : γ → ο
  advance : ι → σ → ο → σ × ο

/-- A memory and the operations that were started on it. -/
structure Concurrent (σ ο : Type*) where
  memory : σ
  ops : List ο

open Runs

namespace Concurrent

variable {σ γ ι ο : Type*}

/-- An operation is started, or the one with the given number takes a step. -/
inductive Action (γ ι : Type*)
  | call (c : γ)
  | advance (k : ℕ) (choice : ι)

variable (p : Protocol σ γ ι ο)

/-- What an action does. -/
def step (s : Concurrent σ ο) : Action γ ι → Concurrent σ ο
  | .call c => { s with ops := s.ops ++ [p.start c] }
  | .advance k choice =>
      match s.ops[k]? with
      | none => s
      | some op =>
          let r := p.advance choice s.memory op
          ⟨r.1, s.ops.set k r.2⟩

/-- What actions do one after the other. -/
def run (s : Concurrent σ ο) (actions : List (Action γ ι)) : Concurrent σ ο :=
  actions.foldl (step p) s

variable {p}

theorem run_concat (s : Concurrent σ ο) (actions : List (Action γ ι)) (a : Action γ ι) :
  run p s (actions ++ [a]) = step p (run p s actions) a
  := List.foldl_append

theorem run_append (s : Concurrent σ ο) (actions actions' : List (Action γ ι)) :
  run p s (actions ++ actions') = run p (run p s actions) actions'
  := List.foldl_append

variable {P : Concurrent σ ο → Prop}

/-- What holds at the start and is preserved by calls, and by steps that are as `Q` says, holds all
the time. -/
theorem run_induction_along {Q : Concurrent σ ο → Action γ ι → Prop}
    (call : ∀ s c, P s → P { s with ops := s.ops ++ [p.start c] })
    (advance : ∀ s k op choice, P s → s.ops[k]? = some op → Q s (.advance k choice) →
      P ⟨(p.advance choice s.memory op).1, s.ops.set k (p.advance choice s.memory op).2⟩)
    {s : Concurrent σ ο} (hs : P s) {actions : List (Action γ ι)}
    (hQ : Along (step p) Q s actions) :
  P (run p s actions)
  := by
  apply hQ.invariant _ hs
  intro s a hs ha
  cases a with
  | call c => apply call s c hs
  | advance k choice =>
      rw [step]
      split
      · exact hs
      · rename_i op hop
        apply advance s k op choice hs hop ha

/-- What holds at the start and is preserved by calls and by steps holds all the time. -/
theorem run_induction
    (call : ∀ s c, P s → P { s with ops := s.ops ++ [p.start c] })
    (advance : ∀ s k op choice, P s → s.ops[k]? = some op →
      P ⟨(p.advance choice s.memory op).1, s.ops.set k (p.advance choice s.memory op).2⟩)
    {s : Concurrent σ ο} (hs : P s) (actions : List (Action γ ι)) :
  P (run p s actions)
  := run_induction_along call (fun s k op choice h hop _ => advance s k op choice h hop) hs
    (along_of_forall (fun _ _ => trivial) s actions)

/-- The same when it is preserved by the calls and the choices that are made in the run. -/
theorem run_induction_mem {actions : List (Action γ ι)}
    (call : ∀ s c, .call c ∈ actions → P s → P { s with ops := s.ops ++ [p.start c] })
    (advance : ∀ s k op choice, .advance k choice ∈ actions → P s → s.ops[k]? = some op →
      P ⟨(p.advance choice s.memory op).1, s.ops.set k (p.advance choice s.memory op).2⟩)
    {s : Concurrent σ ο} (hs : P s) :
  P (run p s actions)
  := by
  induction actions generalizing s with
  | nil => exact hs
  | cons a actions ih =>
      apply ih
      · exact fun s c hc => call s c (List.mem_cons_of_mem a hc)
      · exact fun s k op choice hk => advance s k op choice (List.mem_cons_of_mem a hk)
      · cases a with
        | call c => apply call s c List.mem_cons_self hs
        | advance k choice =>
            rw [step]
            split
            · exact hs
            · rename_i op hop
              apply advance s k op choice List.mem_cons_self hs hop

/-- An operation that stays where it is. -/
theorem set_of_getElem? {ops : List ο} {k : ℕ} {op : ο} (h : ops[k]? = some op) :
  ops.set k op = ops
  := by
  obtain ⟨hk, rfl⟩ := List.getElem?_eq_some_iff.mp h
  apply List.set_getElem_self

end Concurrent

section Sum

variable {ο : Type*} {ops : List ο} {k k' : ℕ} {op op' : ο}

/-- What does not change when an operation goes on. -/
theorem map_set_of_eq {β : Type*} (h : ops[k]? = some op) {f : ο → β} (heq : f op' = f op) :
  (ops.set k op').map f = ops.map f
  := by
  have hk : (ops.map f)[k]? = some (f op) := by
    rw [List.getElem?_map, h]
    rfl
  rw [List.map_set, heq, Concurrent.set_of_getElem? hk]

/-- What changes in a sum over all operations when one of them goes on. -/
theorem sum_map_set {M : Type*} [AddCommMonoid M] (h : ops[k]? = some op) (f : ο → M) (op' : ο) :
  ((ops.set k op').map f).sum + f op = (ops.map f).sum + f op'
  := by
  induction ops generalizing k with
  | nil => cases h
  | cons first ops ih =>
      cases k with
      | zero =>
          obtain rfl := Option.some.inj h
          simp only [List.set_cons_zero, List.map_cons, List.sum_cons]
          ac_rfl
      | succ k =>
          simp only [List.set_cons_succ, List.map_cons, List.sum_cons]
          rw [add_assoc, ih h, ← add_assoc]

theorem le_sum_map (h : ops[k]? = some op) (f : ο → ℕ) :
  f op ≤ (ops.map f).sum
  := List.single_le_sum (fun _ _ => Nat.zero_le _) _
    (List.mem_map_of_mem (List.mem_of_getElem? h))

/-- Two operations together do not have more than all. -/
theorem add_le_sum_map (h : ops[k]? = some op) (h' : ops[k']? = some op') (hne : k ≠ k')
    (f : ο → ℕ) :
  f op + f op' ≤ (ops.map f).sum
  := by
  induction ops generalizing k k' with
  | nil => cases h
  | cons first ops ih =>
      simp only [List.map_cons, List.sum_cons]
      cases k with
      | zero =>
          obtain rfl := Option.some.inj h
          cases k' with
          | zero => exact absurd rfl hne
          | succ k' =>
              rw [List.getElem?_cons_succ] at h'
              have hle := le_sum_map h' f
              omega
      | succ k =>
          cases k' with
          | zero =>
              obtain rfl := Option.some.inj h'
              rw [List.getElem?_cons_succ] at h
              have hle := le_sum_map h f
              omega
          | succ k' =>
              have hle := ih h h' (by omega)
              omega

end Sum

section Owned

variable {ο ι : Type*} {ops : List ο} {has : ο → Option ι} {holder : ι → Option (ℕ × ο)}

/-- The operations that have something are those that the table lists, by their number. -/
def Owned (ops : List ο) (has : ο → Option ι) (holder : ι → Option (ℕ × ο)) : Prop :=
  ∀ k op i, (ops[k]? = some op ∧ has op = some i) ↔ holder i = some (k, op)

namespace Owned

theorem nil (has : ο → Option ι) (h : ∀ i, holder i = none) :
  Owned [] has holder
  := by
  intro k op i
  simp [h i]

/-- A new operation has nothing. -/
theorem call (h : Owned ops has holder) {op : ο} (hop : has op = none) :
  Owned (ops ++ [op]) has holder
  := by
  intro k op' i
  rw [← h k op' i]
  rcases lt_trichotomy k ops.length with hk | rfl | hk
  · rw [List.getElem?_append_left hk]
  · rw [List.getElem?_concat_length, List.getElem?_eq_none le_rfl]
    constructor
    · rintro ⟨hop', hi⟩
      obtain rfl := Option.some.inj hop'
      rw [hop] at hi
      cases hi
    · rintro ⟨hop', -⟩
      cases hop'
  · have hnone : (ops ++ [op])[k]? = none := by simp; omega
    rw [hnone, List.getElem?_eq_none hk.le]

/-- An operation takes something that nobody has, or keeps it, or gives it up, and the table is
changed accordingly. -/
theorem advance (h : Owned ops has holder) {holder' : ι → Option (ℕ × ο)} {k : ℕ} {op op' : ο}
    (hop : ops[k]? = some op)
    (takes : ∀ i, has op' = some i → (has op = some i ∨ holder i = none)
      ∧ holder' i = some (k, op'))
    (gives : ∀ i, has op = some i → has op' ≠ some i → holder' i = none)
    (others : ∀ i, has op ≠ some i → has op' ≠ some i → holder' i = holder i) :
  Owned (ops.set k op') has holder'
  := by
  have hk : k < ops.length := (List.getElem?_eq_some_iff.mp hop).1
  -- What `op` has is listed under `k`.
  have hmine : ∀ i, has op = some i → holder i = some (k, op) :=
    fun i hi => (h k op i).mp ⟨hop, hi⟩
  intro j opj i
  by_cases hjk : k = j
  · subst hjk
    rw [List.getElem?_set_self hk]
    constructor
    · rintro ⟨hopj, hi⟩
      obtain rfl := Option.some.inj hopj
      exact (takes i hi).2
    · intro hi
      by_cases hop' : has op' = some i
      · have hopj := (takes i hop').2.symm.trans hi
        simp only [Option.some_inj, Prod.mk.injEq, true_and] at hopj
        exact ⟨congrArg some hopj, hopj ▸ hop'⟩
      · by_cases hopi : has op = some i
        · rw [gives i hopi hop'] at hi
          cases hi
        · rw [others i hopi hop'] at hi
          obtain ⟨hopj, hi⟩ := (h k opj i).mpr hi
          obtain rfl := Option.some.inj (hop.symm.trans hopj)
          exact absurd hi hopi
  · rw [List.getElem?_set_ne hjk, h j opj i]
    by_cases hop' : has op' = some i
    · rw [(takes i hop').2]
      have hold : holder i ≠ some (j, opj) := by
        rcases (takes i hop').1 with hopi | hnone
        · rw [hmine i hopi]
          simp [hjk]
        · rw [hnone]
          simp
      simp [hold, hjk]
    · by_cases hopi : has op = some i
      · rw [gives i hopi hop', hmine i hopi]
        simp [hjk]
      · rw [others i hopi hop']

/-- An operation that has nothing before and after a step leaves the table as it is. -/
theorem idle (h : Owned ops has holder) {k : ℕ} {op op' : ο} (hop : ops[k]? = some op)
    (hbefore : has op = none) (hafter : has op' = none) :
  Owned (ops.set k op') has holder
  := by
  apply h.advance hop
  · intro i hi
    rw [hafter] at hi
    cases hi
  · intro i hi
    rw [hbefore] at hi
    cases hi
  · intros
    rfl

/-- Two operations do not have the same thing. -/
theorem unique (h : Owned ops has holder) {k k' : ℕ} {op op' : ο} {i : ι}
    (hop : ops[k]? = some op) (hop' : ops[k']? = some op') (hi : has op = some i)
    (hi' : has op' = some i) :
  k = k' ∧ op = op'
  := by
  have heq := ((h k op i).mp ⟨hop, hi⟩).symm.trans ((h k' op' i).mp ⟨hop', hi'⟩)
  simpa using heq

/-- There are at least as many operations as things that somebody has. -/
theorem card_le (h : Owned ops has holder) (things : Finset ι)
    (hheld : ∀ i ∈ things, holder i ≠ none) :
  things.card ≤ ops.length
  := by
  have hmaps : ∀ i ∈ things, ((holder i).map Prod.fst).getD 0 ∈ Finset.range ops.length := by
    intro i hi
    obtain ⟨⟨k, op⟩, hkop⟩ := Option.ne_none_iff_exists'.mp (hheld i hi)
    obtain ⟨hop, -⟩ := (h k op i).mpr hkop
    rw [hkop, Finset.mem_range]
    exact (List.getElem?_eq_some_iff.mp hop).1
  have hinj : Set.InjOn (fun i => ((holder i).map Prod.fst).getD 0) things := by
    intro i hi j hj heq
    obtain ⟨⟨k, op⟩, hkop⟩ := Option.ne_none_iff_exists'.mp (hheld i hi)
    obtain ⟨⟨k', op'⟩, hkop'⟩ := Option.ne_none_iff_exists'.mp (hheld j hj)
    simp only [hkop, hkop', Option.map_some, Option.getD_some] at heq
    subst heq
    obtain ⟨hop, hi'⟩ := (h k op i).mpr hkop
    obtain ⟨hop', hj'⟩ := (h k op' j).mpr hkop'
    obtain rfl := Option.some.inj (hop.symm.trans hop')
    exact Option.some.inj (hi'.symm.trans hj')
  calc things.card
      ≤ (Finset.range ops.length).card := Finset.card_le_card_of_injOn _ hmaps hinj
    _ = ops.length := Finset.card_range ops.length

end Owned

end Owned

section Distinct

variable {ο ι : Type*} {ops : List ο} {has : ο → Option ι}

/-- An operation that has something was there before one was added that has nothing. -/
theorem getElem?_of_concat {k : ℕ} {op op' : ο} {i : ι} (hop : has op = none)
    (hk : (ops ++ [op])[k]? = some op') (hi : has op' = some i) :
  ops[k]? = some op'
  := by
  rcases lt_trichotomy k ops.length with hlt | rfl | hgt
  · rwa [List.getElem?_append_left hlt] at hk
  · rw [List.getElem?_concat_length] at hk
    obtain rfl := Option.some.inj hk
    rw [hop] at hi
    cases hi
  · rw [List.getElem?_eq_none (by rw [List.length_append]; exact hgt)] at hk
    cases hk

/-- No two operations have the same thing. -/
def Distinct (ops : List ο) (has : ο → Option ι) : Prop :=
  ∀ (k k' : ℕ) op op' i, ops[k]? = some op → ops[k']? = some op' → has op = some i →
    has op' = some i → k = k'

namespace Distinct

theorem nil (has : ο → Option ι) :
  Distinct [] has
  := by
  intro k k' op op' i hop
  cases hop

/-- A new operation has nothing. -/
theorem call (h : Distinct ops has) {op : ο} (hop : has op = none) :
  Distinct (ops ++ [op]) has
  := by
  intro k k' op₁ op₂ i hk hk' hi hi'
  exact h k k' op₁ op₂ i (getElem?_of_concat hop hk hi) (getElem?_of_concat hop hk' hi') hi hi'

/-- An operation keeps what it has, or takes what no other has. -/
theorem advance (h : Distinct ops has) {k : ℕ} {op op' : ο} (hop : ops[k]? = some op)
    (hnew : ∀ i, has op' = some i → has op = some i ∨ ∀ other ∈ ops, has other ≠ some i) :
  Distinct (ops.set k op') has
  := by
  have hk : k < ops.length := (List.getElem?_eq_some_iff.mp hop).1
  have hother : ∀ (j : ℕ) other i, k ≠ j → ops[j]? = some other → has other = some i →
      has op' ≠ some i := by
    intro j other i hj hjop hi hi'
    rcases hnew i hi' with hold | hnone
    · exact hj (h k j op other i hop hjop hold hi)
    · exact hnone other (List.mem_of_getElem? hjop) hi
  intro j j' op₁ op₂ i hj hj' hi hi'
  by_cases hkj : k = j
  · subst hkj
    rw [List.getElem?_set_self hk] at hj
    obtain rfl := Option.some.inj hj
    by_contra hkj'
    rw [List.getElem?_set_ne hkj'] at hj'
    exact hother j' op₂ i hkj' hj' hi' hi
  · rw [List.getElem?_set_ne hkj] at hj
    by_cases hkj' : k = j'
    · subst hkj'
      rw [List.getElem?_set_self hk] at hj'
      obtain rfl := Option.some.inj hj'
      exact absurd hi' (hother j op₁ i hkj hj hi)
    · rw [List.getElem?_set_ne hkj'] at hj'
      exact h j j' op₁ op₂ i hj hj' hi hi'

end Distinct

end Distinct
