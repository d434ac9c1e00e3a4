import Cascade.Library.Tiling

/-!
# Binary search

The search of `std::upper_bound`. It halves the range that is left until it is empty, and finds the
border of a list that is partitioned (`upperBound_eq`). On other lists it may find anything.
-/

namespace BinarySearch

variable {α : Type} {after : α → Bool} {l : List α}

/-- The loop of the search, on the `len` positions from `first` on. -/
def bisect (after : α → Bool) (l : List α) (first len : ℕ) : ℕ :=
  if h : len = 0 then first
  else
    let half := len / 2
    if l[first + half]?.any after then bisect after l first half
    else bisect after l (first + half + 1) (len - half - 1)
termination_by len
decreasing_by all_goals omega

/-- The position of the first element that `after` holds of, by binary search. -/
def upperBound (after : α → Bool) (l : List α) : ℕ := bisect after l 0 l.length

/-- The elements that `after` holds of are behind the others. -/
def Partitioned (after : α → Bool) (l : List α) : Prop :=
  l.Pairwise (fun x y => after x = true → after y = true)

/-- The border of a partitioned list: the elements in front of it come before, the others after. -/
theorem Partitioned.any_iff (h : Partitioned after l) (i : ℕ) (hi : i < l.length) :
  l[i]?.any after = true ↔ (l.takeWhile (fun x => !after x)).length ≤ i
  := by
  induction l generalizing i with
  | nil => exact nomatch hi
  | cons x l ih =>
      obtain ⟨hx, hrest⟩ := List.pairwise_cons.mp h
      cases hafter : after x with
      | true =>
          have hall : ∀ y ∈ x :: l, after y = true := by
            intro y hy
            rcases List.mem_cons.mp hy with rfl | hy
            · exact hafter
            · exact hx y hy hafter
          rw [List.getElem?_eq_getElem hi, Option.any_some, hall _ (List.getElem_mem hi)]
          simp [hafter]
      | false =>
          cases i with
          | zero => simp [hafter]
          | succ i => simpa [hafter] using ih hrest i (Nat.lt_of_succ_lt_succ hi)

theorem bisect_eq {first len n : ℕ} (hlow : first ≤ n) (hhigh : n ≤ first + len)
    (hn : ∀ i, first ≤ i → i < first + len → (l[i]?.any after = true ↔ n ≤ i)) :
  bisect after l first len = n
  := by
  fun_induction bisect after l first len with
  | case1 => omega
  | case2 first len hlen half hany ih =>
      have hle : n ≤ first + half := (hn _ (by omega) (by omega)).mp hany
      exact ih hlow hle (fun i hi hi' => hn i hi (by omega))
  | case3 first len hlen half hany ih =>
      have hlt : ¬ n ≤ first + half := fun hle => hany ((hn _ (by omega) (by omega)).mpr hle)
      exact ih (by omega) (by omega) (fun i hi hi' => hn i (by omega) (by omega))

theorem Partitioned.upperBound_eq (h : Partitioned after l) :
  upperBound after l = (l.takeWhile (fun x => !after x)).length
  := by
  apply bisect_eq (Nat.zero_le _)
  · rw [Nat.zero_add]
    exact (List.takeWhile_sublist _).length_le
  · intro i _ hi
    exact h.any_iff i (by omega)

/-- The element in front of the position that is found. -/
theorem Partitioned.elementBefore_eq (h : Partitioned after l) :
  elementBefore after l
    = match upperBound after l with
      | 0 => none
      | it + 1 => l[it]?
  := by
  rw [elementBefore, h.upperBound_eq]
  set front := l.takeWhile (fun x => !after x) with hfront
  have hsplit : l = front ++ l.dropWhile (fun x => !after x) := List.takeWhile_append_dropWhile.symm
  cases hlen : front.length with
  | zero => rw [List.length_eq_zero_iff.mp hlen, List.getLast?_nil]
  | succ n =>
      rw [List.getLast?_eq_getElem?, hlen, Nat.add_sub_cancel]
      change front[n]? = l[n]?
      rw [hsplit, List.getElem?_append_left]
      omega

end BinarySearch
