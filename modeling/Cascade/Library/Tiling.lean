import Mathlib.Data.List.Basic
import Mathlib.Data.List.TakeWhile

/-!
# Tilings

A list of intervals tiles `[a, b)` when each interval starts where the one before it ends,
the first at `a`, and the last ends at `b`. The interval that an `upper_bound` search for a
point finds is the one that holds the point.
-/

/-- The element just before the first one that `after` holds of, which is the element before
the iterator that `std::upper_bound` returns on a partitioned range; `none` at its start. -/
def elementBefore {α : Type} (after : α → Bool) (l : List α) : Option α :=
  (l.takeWhile (fun x => !after x)).getLast?

theorem mem_of_elementBefore {α : Type} {after : α → Bool} {l : List α} {x : α}
    (h : elementBefore after l = some x) :
  x ∈ l ∧ after x = false
  := by
  have hx := List.mem_of_getLast? h
  constructor
  · apply List.takeWhile_subset _ hx
  · simpa using List.mem_takeWhile_imp hx

/-- The search on a partitioned range. -/
theorem elementBefore_split {α : Type} {after : α → Bool} {l l' : List α} {x : α}
    (hl : ∀ y ∈ l, after y = false) (hx : after x = false) (hl' : ∀ y ∈ l', after y = true) :
  elementBefore after (l ++ x :: l') = some x
  := by
  have hnil : l'.takeWhile (fun y => !after y) = [] := by
    cases l' with
    | nil => rfl
    | cons y l' => simp [hl' y List.mem_cons_self]
  rw [elementBefore, List.takeWhile_append_of_pos (by simpa using hl),
    List.takeWhile_cons_of_pos (by simpa using hx), hnil]
  simp

namespace Tiling

variable {α : Type} {lo hi : α → ℕ}

/-- The intervals `[lo x, hi x)` of the elements of the list tile `[a, b)`. -/
def Tiles (lo hi : α → ℕ) : ℕ → List α → ℕ → Prop
  | a, [], b => a = b
  | a, x :: l, b => lo x = a ∧ a ≤ hi x ∧ Tiles lo hi (hi x) l b

variable {a b : ℕ}

theorem tiles_append {l l' : List α} :
  Tiles lo hi a (l ++ l') b ↔ ∃ c, Tiles lo hi a l c ∧ Tiles lo hi c l' b
  := by
  induction l generalizing a with
  | nil => simp [Tiles]
  | cons x l ih => simp [Tiles, ih, and_assoc]

theorem tiles_singleton {x : α} :
  Tiles lo hi a [x] b ↔ lo x = a ∧ a ≤ hi x ∧ hi x = b
  := Iff.rfl

theorem Tiles.le {l : List α} (h : Tiles lo hi a l b) :
  a ≤ b
  := by
  induction l generalizing a with
  | nil => apply Nat.le_of_eq h
  | cons x l ih => apply Nat.le_trans h.2.1 (ih h.2.2)

/-- Every tile lies between the two ends. -/
theorem Tiles.bounds {l : List α} (h : Tiles lo hi a l b) {x : α} (hx : x ∈ l) :
  a ≤ lo x ∧ lo x ≤ hi x ∧ hi x ≤ b
  := by
  induction l generalizing a with
  | nil => simp at hx
  | cons y l ih =>
      obtain ⟨hlo, hle, hrest⟩ := h
      rcases List.mem_cons.mp hx with rfl | hmem
      · exact ⟨hlo.ge, by omega, hrest.le⟩
      · obtain ⟨h₁, h₂, h₃⟩ := ih hrest hmem
        exact ⟨by omega, h₂, h₃⟩

/-- Only the two ends of each tile matter. -/
theorem tiles_map {β : Type} {lo' hi' : β → ℕ} {l : List α} {l' : List β}
    (h : l.map (fun x => (lo x, hi x)) = l'.map (fun y => (lo' y, hi' y))) :
  Tiles lo hi a l b ↔ Tiles lo' hi' a l' b
  := by
  induction l generalizing a l' with
  | nil =>
      rw [List.map_nil, eq_comm, List.map_eq_nil_iff] at h
      rw [h]
      rfl
  | cons x l ih =>
      cases l' with
      | nil => simp at h
      | cons y l' =>
          simp only [List.map_cons, List.cons.injEq, Prod.mk.injEq] at h
          rw [Tiles, Tiles, h.1.1, h.1.2, ih h.2]

/-- Every tile ends before the later ones start. -/
theorem Tiles.pairwise {l : List α} (h : Tiles lo hi a l b) :
  l.Pairwise (fun x y => hi x ≤ lo y)
  := by
  induction l generalizing a with
  | nil => exact List.Pairwise.nil
  | cons x l ih =>
      obtain ⟨-, -, hrest⟩ := h
      rw [List.pairwise_cons]
      refine ⟨?_, ih hrest⟩
      intro y hy
      apply (hrest.bounds hy).1

/-- Leaving out empty tiles keeps a tiling. -/
theorem Tiles.filter {l : List α} (h : Tiles lo hi a l b) (p : α → Bool)
    (hp : ∀ x ∈ l, p x = false → lo x = hi x) :
  Tiles lo hi a (l.filter p) b
  := by
  induction l generalizing a with
  | nil => exact h
  | cons x l ih =>
      obtain ⟨hlo, hle, hrest⟩ := h
      have hrest' := ih hrest (fun y hy => hp y (List.mem_cons_of_mem x hy))
      by_cases hx : p x
      · rw [List.filter_cons_of_pos hx]
        exact ⟨hlo, hle, hrest'⟩
      · have heq := hp x List.mem_cons_self (by simpa using hx)
        rw [List.filter_cons_of_neg hx]
        rwa [← heq, hlo] at hrest'

/-- The search for a point within a tiling finds a tile that holds the point. -/
theorem Tiles.elementBefore_of_lt {a b o : ℕ} {l : List α} (h : Tiles lo hi a l b)
    (ha : a ≤ o) (hb : o < b) :
  ∃ x ∈ l, lo x ≤ o ∧ o < hi x ∧ elementBefore (fun y => o < lo y) l = some x
  := by
  induction l generalizing a with
  | nil =>
      have : a = b := h
      omega
  | cons x l ih =>
      obtain ⟨hlo, hle, hrest⟩ := h
      have hx : lo x ≤ o := by omega
      rw [elementBefore, List.takeWhile_cons_of_pos (by simpa using hx)]
      by_cases hlt : o < hi x
      · -- No later tile starts before `hi x`, so the search stops right behind `x`.
        have hnil : l.takeWhile (fun y => !decide (o < lo y)) = [] := by
          cases l with
          | nil => rfl
          | cons y l =>
              have : lo y = hi x := hrest.1
              simp
              omega
        use x
        simp [hnil, hx, hlt]
      · obtain ⟨y, hy, hylo, hyhi, hfind⟩ := ih hrest (by omega)
        use y
        refine ⟨List.mem_cons_of_mem x hy, hylo, hyhi, ?_⟩
        rw [elementBefore] at hfind
        rw [List.getLast?_cons, hfind]
        rfl

/-- The search for a point behind a tiling finds the last tile. -/
theorem Tiles.elementBefore_of_le {a b o : ℕ} {l : List α} (h : Tiles lo hi a l b)
    (hb : b ≤ o) :
  elementBefore (fun y => o < lo y) l = l.getLast?
  := by
  rw [elementBefore, List.takeWhile_eq_self_iff.mpr]
  intro y hy
  obtain ⟨-, h₂, h₃⟩ := h.bounds hy
  simp
  omega

end Tiling
