import Mathlib.Data.List.Basic

/-!
# Sliding windows

A list that grows at its end, cut in two: its last `c` elements, and those before them, which have
expired. A new element makes at most one other expire, the oldest of the last ones.

Or the elements expire by a test of each one. If those that expire stand before the others, it is
enough to look at the front, and it does not matter how often that is done.
-/

namespace Window

variable {α β : Type} (c : ℕ) (l : List α)

/-- The last `c` elements. -/
def recent : List α := l.drop (l.length - c)

/-- The elements before the last `c`. -/
def expired : List α := l.take (l.length - c)

theorem length_recent :
  (recent c l).length = min c l.length
  := by
  rw [recent, List.length_drop]
  omega

theorem length_expired :
  (expired c l).length = l.length - c
  := by
  rw [expired, List.length_take]
  omega

theorem recent_map (f : α → β) :
  recent c (l.map f) = (recent c l).map f
  := by
  rw [recent, recent, List.length_map, List.map_drop]

theorem expired_map (f : α → β) :
  expired c (l.map f) = (expired c l).map f
  := by
  rw [expired, expired, List.length_map, List.map_take]

variable {c l}

/-- While there is room, nothing expires. -/
theorem concat_of_lt (h : l.length < c) (x : α) :
  recent c (l ++ [x]) = recent c l ++ [x] ∧ expired c (l ++ [x]) = expired c l
  := by
  have hlen : (l ++ [x]).length - c = 0 := by
    rw [List.length_append, List.length_singleton]
    omega
  rw [recent, recent, expired, expired, hlen, Nat.sub_eq_zero_of_le (Nat.le_of_lt h)]
  exact ⟨rfl, rfl⟩

/-- Else the oldest one does. -/
theorem concat_of_le (h : c ≤ l.length) (x : α) :
  ∃ front, recent c l ++ [x] = front :: recent c (l ++ [x])
    ∧ expired c (l ++ [x]) = expired c l ++ [front]
  := by
  have hlen : (l ++ [x]).length - c = l.length - c + 1 := by
    rw [List.length_append, List.length_singleton]
    omega
  have hlt : l.length - c < (l ++ [x]).length := by
    rw [List.length_append, List.length_singleton]
    omega
  have hle : l.length - c ≤ l.length := Nat.sub_le ..
  refine ⟨(l ++ [x])[l.length - c], ?_, ?_⟩
  · rw [recent, recent, hlen, ← List.drop_append_of_le_length hle, List.drop_eq_getElem_cons hlt]
  · rw [expired, expired, hlen, List.take_succ_eq_append_getElem hlt,
      List.take_append_of_le_length hle]

/-- Where an element stands in a list with one more at its end. -/
theorem split_concat {l before after : List α} {x y : α}
    (h : l ++ [x] = before ++ y :: after) :
  (before = l ∧ y = x) ∨ ∃ after', l = before ++ y :: after'
  := by
  rcases List.eq_nil_or_concat after with rfl | ⟨after', last, rfl⟩
  · obtain ⟨rfl, hlast⟩ := List.append_inj' h rfl
    exact .inl ⟨rfl, (List.singleton_inj.mp hlast).symm⟩
  · rw [List.concat_eq_append, ← List.cons_append, ← List.append_assoc] at h
    exact .inr ⟨after', (List.append_inj' h rfl).1⟩

/-! ### Expiry by a test -/

/-- What expires at the front is all that expires. -/
theorem dropWhile_eq_filter {old : α → Bool} {l : List α}
    (h : l.Pairwise fun a b => old b → old a) :
  l.dropWhile old = l.filter (!old ·)
  := by
  induction l with
  | nil => rfl
  | cons a l ih =>
      obtain ⟨ha, hl⟩ := List.pairwise_cons.mp h
      cases hold : old a with
      | true =>
          rw [List.dropWhile_cons_of_pos hold, List.filter_cons_of_neg (by simp [hold])]
          apply ih hl
      | false =>
          rw [List.dropWhile_cons_of_neg (by simp [hold]), eq_comm, List.filter_eq_self]
          intro b hb
          rcases List.mem_cons.mp hb with rfl | hb
          · simp [hold]
          · cases hb' : old b with
            | true => exact absurd (ha b hb hb') (by simp [hold])
            | false => rfl

/-- It is of no consequence that some were removed before, if they would be removed now. -/
theorem dropWhile_filter {kept old : α → Bool} {l : List α}
    (h : l.Pairwise fun a b => old b → old a) (hl : ∀ a ∈ l, !kept a → old a) :
  (l.filter kept).dropWhile old = l.filter (!old ·)
  := by
  rw [dropWhile_eq_filter (h.filter _), List.filter_filter]
  apply List.filter_congr
  intro a ha
  cases hkept : kept a with
  | true => exact Bool.and_true _
  | false => simp [hl a ha (by simp [hkept])]

end Window
