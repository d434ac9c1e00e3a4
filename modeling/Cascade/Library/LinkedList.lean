import Mathlib.Data.List.Basic

/-!
# Linked lists

A list of nodes that are found by following links from a first one to the end. The links are a
partial function, so that following a link from a node that does not exist is not defined.
-/

namespace LinkedList

variable {ν : Type*} {link link' : ν → Option ν} {null x y : ν} {xs ys : List ν}

/-- Following links from a node leads through the nodes of a list, and ends in `null`. -/
inductive Chain (link : ν → Option ν) (null : ν) : ν → List ν → Prop
  | nil : Chain link null null []
  | cons {x y : ν} {xs : List ν} (ne_null : x ≠ null) (next : link x = some y)
      (rest : Chain link null y xs) : Chain link null x (x :: xs)

/-- Following links from a node leads through the nodes of a list, and then to another node. -/
inductive Path (link : ν → Option ν) (null : ν) : ν → List ν → ν → Prop
  | nil (x : ν) : Path link null x [] x
  | cons {x y z : ν} {xs : List ν} (ne_null : x ≠ null) (next : link x = some y)
      (rest : Path link null y xs z) : Path link null x (x :: xs) z

/-- A path whose nodes are numbered. -/
theorem Path.range {f : ℕ → ν} {n : ℕ} (ne_null : ∀ i < n + 1, f i ≠ null)
    (next : ∀ i < n, link (f i) = some (f (i + 1))) (last : link (f n) = some y) :
  Path link null (f 0) ((List.range (n + 1)).map f) y
  := by
  induction n generalizing f with
  | zero => exact .cons (ne_null 0 Nat.zero_lt_one) last (.nil y)
  | succ n ih =>
      rw [List.range_succ_eq_map, List.map_cons, List.map_map]
      apply Path.cons (ne_null 0 (Nat.zero_lt_succ _)) (next 0 (Nat.zero_lt_succ n))
      apply ih (f := f ∘ Nat.succ)
      · intro i hi
        apply ne_null (i + 1) (Nat.succ_lt_succ hi)
      · intro i hi
        apply next (i + 1) (Nat.succ_lt_succ hi)
      · exact last

namespace Chain

/-- Links of other nodes do not matter. -/
theorem congr (h : Chain link null x xs) (heq : ∀ y ∈ xs, link' y = link y) :
  Chain link' null x xs
  := by
  induction h with
  | nil => exact .nil
  | cons ne_null next rest ih =>
      apply Chain.cons ne_null
      · rw [heq _ List.mem_cons_self, next]
      · apply ih
        intro y hy
        apply heq y (List.mem_cons_of_mem _ hy)

theorem ne_null_of_mem (h : Chain link null x xs) (hy : y ∈ xs) :
  y ≠ null
  := by
  induction h with
  | nil => cases hy
  | cons ne_null next rest ih =>
      rcases List.mem_cons.mp hy with rfl | hy
      · exact ne_null
      · exact ih hy

/-- The first node is on the list, if there is one. -/
theorem exists_cons (h : Chain link null x xs) (hx : x ≠ null) :
  ∃ y ys, xs = x :: ys ∧ link x = some y ∧ Chain link null y ys
  := by
  cases h with
  | nil => exact absurd rfl hx
  | cons ne_null next rest => exact ⟨_, _, rfl, next, rest⟩

/-- A path in front of a list. -/
theorem append (h : Chain link null y ys) (hpath : Path link null x xs y) :
  Chain link null x (xs ++ ys)
  := by
  induction hpath with
  | nil => exact h
  | cons ne_null next rest ih => exact .cons ne_null next (ih h)

end Chain

end LinkedList
