import Mathlib.Data.List.Basic
import Mathlib.Data.List.Induction
import Mathlib.Data.List.Nodup
import Mathlib.Data.List.Pairwise

/-!
# Maps as sorted association lists

A finite map from numbers is the list of its entries with increasing keys. Reading the list
from left to right visits the entries in the order of their keys.
-/

/-- A finite map from numbers to `α`, as its entries in the order of the keys. -/
abbrev SortedMap (α : Type) : Type := List (ℕ × α)

namespace SortedMap

variable {α : Type}

/-- The keys of a map, in the order of the entries. -/
def keys (d : SortedMap α) : List ℕ := d.map Prod.fst

/-- The keys increase. -/
def Sorted (d : SortedMap α) : Prop := d.keys.Pairwise (· < ·)

/-- The value at key `k`. -/
def find? : SortedMap α → ℕ → Option α
  | [], _ => none
  | (k', a) :: d, k => if k' = k then some a else find? d k

/-- The map without key `k`. -/
def erase (d : SortedMap α) (k : ℕ) : SortedMap α := d.filter (fun e => e.1 ≠ k)

/-- The map with value `a` at key `k`. -/
def put : SortedMap α → ℕ → α → SortedMap α
  | [], k, a => [(k, a)]
  | (k', a') :: d, k, a =>
      if k < k' then (k, a) :: (k', a') :: d
      else if k = k' then (k, a) :: d
      else (k', a') :: put d k a

@[simp]
theorem keys_append (d d' : SortedMap α) :
  keys (d ++ d') = keys d ++ keys d'
  := List.map_append

@[simp]
theorem keys_cons (k : ℕ) (a : α) (d : SortedMap α) :
  keys ((k, a) :: d) = k :: keys d
  := rfl

variable {d d' : SortedMap α} {k : ℕ}

theorem mem_keys_of_find? {a : α} (h : d.find? k = some a) :
  k ∈ d.keys
  := by
  induction d with
  | nil => simp [find?] at h
  | cons e d ih =>
      obtain ⟨k', a'⟩ := e
      rw [find?] at h
      split at h
      · simp_all
      · simp [ih h]

/-- The value at a key that was just set. -/
@[simp]
theorem find?_put_self (d : SortedMap α) (k : ℕ) (a : α) :
  (d.put k a).find? k = some a
  := by
  induction d with
  | nil => simp [put, find?]
  | cons e d ih =>
      obtain ⟨k', a'⟩ := e
      rw [put]
      split
      · simp [find?]
      · split
        · simp [find?]
        · rename_i hne
          simp [find?, Ne.symm hne, ih]

/-- Setting a key leaves the other values. -/
theorem find?_put_of_ne {k k' : ℕ} (h : k' ≠ k) (a : α) :
  (d.put k a).find? k' = d.find? k'
  := by
  induction d with
  | nil => simp [put, find?, h.symm]
  | cons e d ih =>
      obtain ⟨k₀, a₀⟩ := e
      rw [put]
      split
      · simp [find?, h.symm]
      · split
        · rename_i hk
          subst hk
          simp [find?, h.symm]
        · simp [find?, ih]

/-- A key behind all others is entered at the end. -/
theorem put_of_lt (h : ∀ k' ∈ d.keys, k' < k) (a : α) :
  d.put k a = d ++ [(k, a)]
  := by
  induction d with
  | nil => rfl
  | cons e d ih =>
      obtain ⟨k', a'⟩ := e
      have hk : k' < k := h k' (by simp)
      rw [put, if_neg (by omega), if_neg (by omega), ih, List.cons_append]
      intro k'' hk''
      apply h k''
      simp [hk'']

theorem find?_append_of_notMem (h : k ∉ d.keys) :
  (d ++ d').find? k = d'.find? k
  := by
  induction d with
  | nil => rfl
  | cons e d ih =>
      obtain ⟨k', a'⟩ := e
      simp only [keys_cons, List.mem_cons, not_or] at h
      rw [List.cons_append, find?, if_neg (Ne.symm h.1), ih h.2]

/-- A key that is not in the map has no value. -/
theorem find?_eq_none (h : k ∉ d.keys) :
  d.find? k = none
  := by
  have happ : (d ++ []).find? k = find? [] k := find?_append_of_notMem h
  rwa [List.append_nil] at happ

/-- In a sorted map, an entry is found under its key. -/
theorem Sorted.find?_of_mem (hd : d.Sorted) {a : α} (h : (k, a) ∈ d) :
  d.find? k = some a
  := by
  induction d with
  | nil => simp at h
  | cons e d ih =>
      obtain ⟨k', a'⟩ := e
      rw [Sorted, keys_cons, List.pairwise_cons] at hd
      rcases List.mem_cons.mp h with heq | hmem
      · cases heq
        simp [find?]
      · have hk : k' < k := hd.1 k (List.mem_map_of_mem hmem)
        rw [find?, if_neg (by omega), ih hd.2 hmem]

@[simp]
theorem mem_keys_put {k k' : ℕ} {a : α} :
  k' ∈ (d.put k a).keys ↔ k' = k ∨ k' ∈ d.keys
  := by
  induction d with
  | nil => simp [put, keys]
  | cons e d ih =>
      obtain ⟨k₀, a₀⟩ := e
      rw [put]
      split
      · simp
      · split
        · rename_i hk
          subst hk
          simp
        · simp only [keys_cons, List.mem_cons, ih]
          tauto

/-- Setting a key keeps a map sorted. -/
theorem Sorted.put (hd : d.Sorted) (k : ℕ) (a : α) :
  (SortedMap.put d k a).Sorted
  := by
  induction d with
  | nil => simp [Sorted, SortedMap.put, keys]
  | cons e d ih =>
      obtain ⟨k', a'⟩ := e
      have hd' := hd
      rw [Sorted, keys_cons, List.pairwise_cons] at hd'
      rw [SortedMap.put]
      split
      · rename_i hlt
        rw [Sorted, keys_cons, List.pairwise_cons]
        refine ⟨?_, hd⟩
        intro k'' hk''
        rcases List.mem_cons.mp hk'' with rfl | hmem
        · exact hlt
        · apply Nat.lt_trans hlt (hd'.1 k'' hmem)
      · split
        · rename_i heq
          subst heq
          exact hd
        · rename_i hge hne
          rw [Sorted, keys_cons, List.pairwise_cons]
          refine ⟨?_, ih hd'.2⟩
          intro k'' hk''
          rcases mem_keys_put.mp hk'' with rfl | hmem
          · omega
          · apply hd'.1 k'' hmem

/-- Setting a key of a sorted map to the value it has changes nothing. -/
theorem Sorted.put_find? (hd : d.Sorted) {a : α} (h : d.find? k = some a) :
  SortedMap.put d k a = d
  := by
  induction d with
  | nil => simp [find?] at h
  | cons e d ih =>
      obtain ⟨k', a'⟩ := e
      rw [Sorted, keys_cons, List.pairwise_cons] at hd
      rw [find?] at h
      split at h
      · rename_i heq
        subst heq
        rw [SortedMap.put, if_neg (Nat.lt_irrefl k'), if_pos rfl]
        simp_all
      · have hlt : k' < k := hd.1 k (mem_keys_of_find? h)
        rw [SortedMap.put, if_neg (by omega), if_neg (by omega), ih hd.2 h]

/-- Setting a key that is already there keeps the keys. -/
theorem Sorted.keys_put_of_mem (hd : d.Sorted) (h : k ∈ d.keys) (a : α) :
  (SortedMap.put d k a).keys = d.keys
  := by
  induction d with
  | nil => simp [keys] at h
  | cons e d ih =>
      obtain ⟨k', a'⟩ := e
      rw [Sorted, keys_cons, List.pairwise_cons] at hd
      rcases List.mem_cons.mp h with rfl | hmem
      · simp [SortedMap.put]
      · have hlt : k' < k := hd.1 k hmem
        rw [SortedMap.put, if_neg (by omega), if_neg (by omega), keys_cons, keys_cons,
          ih hd.2 hmem]

theorem Sorted.find?_mid {a : α} (h : Sorted (d ++ (k, a) :: d')) :
  (d ++ (k, a) :: d').find? k = some a
  := by
  apply h.find?_of_mem
  simp

theorem Sorted.put_mid {a : α} (h : Sorted (d ++ (k, a) :: d')) (b : α) :
  SortedMap.put (d ++ (k, a) :: d') k b = d ++ (k, b) :: d'
  := by
  induction d with
  | nil => simp [SortedMap.put]
  | cons e d ih =>
      obtain ⟨k', a'⟩ := e
      rw [Sorted, List.cons_append, keys_cons, List.pairwise_cons] at h
      have hlt : k' < k := h.1 k (by simp)
      rw [List.cons_append, SortedMap.put, if_neg (by omega), if_neg (by omega), ih h.2]
      rfl

/-- A sorted map lists the values of its keys. -/
theorem Sorted.eq_map_keys (h : d.Sorted) (a : α) :
  d = d.keys.map (fun k => (k, (d.find? k).getD a))
  := by
  rw [keys, List.map_map]
  conv_lhs => rw [← List.map_id d]
  apply List.map_congr_left
  rintro ⟨k, b⟩ hmem
  simp [h.find?_of_mem hmem]

theorem find?_of_mem_keys (h : k ∈ d.keys) :
  ∃ a, d.find? k = some a
  := by
  induction d with
  | nil => simp [keys] at h
  | cons e d ih =>
      obtain ⟨k', a'⟩ := e
      rw [find?]
      split
      · exact ⟨a', rfl⟩
      · rename_i hne
        rcases List.mem_cons.mp h with rfl | hmem
        · exact absurd rfl hne
        · apply ih hmem

/-- In a sorted map, the last entry with a key up to `k` splits the entries into those with
keys up to `k` and those with keys behind it. -/
theorem Sorted.exists_split (hd : d.Sorted) (h : ∃ k' ∈ d.keys, k' ≤ k) :
  ∃ d₁ e d₂, d = d₁ ++ e :: d₂ ∧ e.1 ≤ k ∧ (∀ e' ∈ d₁, e'.1 < e.1) ∧ ∀ e' ∈ d₂, k < e'.1
  := by
  induction d with
  | nil =>
      obtain ⟨k', hk', -⟩ := h
      simp [keys] at hk'
  | cons e d ih =>
      rw [Sorted, keys, List.map_cons, List.pairwise_cons] at hd
      by_cases hd' : ∃ k' ∈ keys d, k' ≤ k
      · obtain ⟨d₁, e', d₂, rfl, hle, hlt, hgt⟩ := ih hd.2 hd'
        refine ⟨e :: d₁, e', d₂, rfl, hle, ?_, hgt⟩
        intro e'' he''
        rcases List.mem_cons.mp he'' with rfl | hmem
        · apply hd.1
          simp
        · apply hlt e'' hmem
      · refine ⟨[], e, d, rfl, ?_, by simp, ?_⟩
        · obtain ⟨k', hk', hle⟩ := h
          rcases List.mem_cons.mp hk' with rfl | hmem
          · exact hle
          · exact absurd ⟨k', hmem, hle⟩ hd'
        · intro e' he'
          by_contra hle
          apply hd'
          exact ⟨e'.1, List.mem_map_of_mem he', by omega⟩

/-- The entry with the greatest key is the last. -/
theorem Sorted.eq_concat (hd : d.Sorted) (h : k ∈ d.keys) (hle : ∀ k' ∈ d.keys, k' ≤ k) :
  ∃ d' a, d = d' ++ [(k, a)]
  := by
  obtain ⟨d₁, e, d₂, rfl, hek, hlt, hgt⟩ := hd.exists_split ⟨k, h, Nat.le_refl k⟩
  have hnil : d₂ = [] := by
    apply List.eq_nil_iff_forall_not_mem.mpr
    intro e' he'
    have := hle e'.1 (List.mem_map_of_mem (by simp [he']))
    have := hgt e' he'
    omega
  subst hnil
  have hkey : k = e.1 := by
    obtain ⟨e', he', rfl⟩ := List.mem_map.mp h
    rcases List.mem_append.mp he' with he' | he'
    · have := hlt e' he'
      omega
    · rw [List.mem_singleton.mp he']
  exact ⟨d₁, e.2, by rw [hkey]⟩

/-- The entries of a sorted map are what is found in it. -/
theorem Sorted.mem_iff (hd : d.Sorted) {a : α} :
  (k, a) ∈ d ↔ d.find? k = some a
  := by
  constructor
  · exact hd.find?_of_mem
  · intro h
    obtain ⟨e, he, rfl⟩ := List.mem_map.mp (mem_keys_of_find? h)
    rw [hd.find?_of_mem he] at h
    obtain rfl := Option.some.inj h
    exact he

/-- A sorted map is determined by what is found in it. -/
theorem Sorted.ext (hd : d.Sorted) (hd' : d'.Sorted) (h : ∀ k, d.find? k = d'.find? k) :
  d = d'
  := by
  have hlt : List.Pairwise (fun e e' : ℕ × α => e.1 < e'.1) d := List.pairwise_map.mp hd
  have hlt' : List.Pairwise (fun e e' : ℕ × α => e.1 < e'.1) d' := List.pairwise_map.mp hd'
  have hne : ∀ {e e' : ℕ × α}, e.1 < e'.1 → e ≠ e' := by
    rintro e e' hlt rfl
    exact Nat.lt_irrefl _ hlt
  apply List.Perm.eq_of_pairwise _ hlt hlt'
  · rw [List.perm_ext_iff_of_nodup (hlt.imp hne) (hlt'.imp hne)]
    rintro ⟨k, a⟩
    rw [hd.mem_iff, hd'.mem_iff, h]
  · intro e e' _ _ h₁ h₂
    omega

/-! ### Removing keys -/

theorem Sorted.erase (hd : d.Sorted) (k : ℕ) :
  (SortedMap.erase d k).Sorted
  := by
  rw [Sorted, keys, List.pairwise_map] at *
  exact hd.filter _

theorem find?_erase (d : SortedMap α) (k k' : ℕ) :
  (d.erase k).find? k' = if k' = k then none else d.find? k'
  := by
  induction d with
  | nil => simp [erase, find?]
  | cons e d ih =>
      obtain ⟨k₀, a₀⟩ := e
      rw [erase] at ih ⊢
      by_cases h₀ : k₀ = k
      · rw [List.filter_cons_of_neg (by simp [h₀]), ih, find?]
        grind
      · rw [List.filter_cons_of_pos (by simp [h₀]), find?, ih, find?]
        grind

section Several

variable (d : SortedMap α) (ks : List ℕ)

/-- Setting several keys to one value. -/
theorem find?_foldl_put (a : α) (k : ℕ) :
  (ks.foldl (fun d k => d.put k a) d).find? k = if k ∈ ks then some a else d.find? k
  := by
  induction ks using List.reverseRecOn with
  | nil => rfl
  | append_singleton ks k₀ ih =>
      rw [List.foldl_append, List.foldl_cons, List.foldl_nil]
      by_cases h : k = k₀
      · rw [h, find?_put_self, if_pos (by simp)]
      · rw [find?_put_of_ne h, ih]
        simp [h]

theorem find?_foldl_erase (k : ℕ) :
  (ks.foldl (fun d k => d.erase k) d).find? k = if k ∈ ks then none else d.find? k
  := by
  induction ks using List.reverseRecOn with
  | nil => rfl
  | append_singleton ks k₀ ih =>
      rw [List.foldl_append, List.foldl_cons, List.foldl_nil, find?_erase, ih]
      by_cases h : k = k₀
      · simp [h]
      · simp [h]

variable {d}

theorem Sorted.foldl_put (hd : d.Sorted) (a : α) :
  Sorted (ks.foldl (fun d k => d.put k a) d)
  := by
  induction ks generalizing d with
  | nil => exact hd
  | cons k ks ih => exact ih (hd.put k a)

theorem Sorted.foldl_erase (hd : d.Sorted) :
  Sorted (ks.foldl (fun d k => d.erase k) d)
  := by
  induction ks generalizing d with
  | nil => exact hd
  | cons k ks ih => exact ih (hd.erase k)

end Several

/-! ### Around the circle -/

/-- The first entry at or behind `k`. -/
def lowerBound (d : SortedMap α) (k : ℕ) : Option (ℕ × α) :=
  List.find? (fun e => decide (k ≤ e.1)) d

/-- The first entry at or behind `k`, or the first of all if there is none. -/
def next? (d : SortedMap α) (k : ℕ) : Option (ℕ × α) :=
  (d.lowerBound k).or d.head?

/-- The entry `e` is the first one that is met from `k` on, going around from the greatest key
to the least. -/
def IsNext (d : SortedMap α) (k : ℕ) (e : ℕ × α) : Prop :=
  e ∈ d ∧ ((k ≤ e.1 ∧ ∀ e' ∈ d, k ≤ e'.1 → e.1 ≤ e'.1)
    ∨ ((∀ e' ∈ d, e'.1 < k) ∧ ∀ e' ∈ d, e.1 ≤ e'.1))

theorem Sorted.head_le (hd : d.Sorted) {e e' : ℕ × α} (h : d.head? = some e) (he' : e' ∈ d) :
  e.1 ≤ e'.1
  := by
  cases d with
  | nil => cases h
  | cons e₀ d =>
      obtain rfl := Option.some.inj h
      rw [Sorted, keys, List.map_cons, List.pairwise_cons] at hd
      rcases List.mem_cons.mp he' with rfl | hmem
      · exact Nat.le_refl _
      · exact Nat.le_of_lt (hd.1 e'.1 (List.mem_map_of_mem hmem))

theorem Sorted.isNext_of_next? (hd : d.Sorted) {e : ℕ × α} (h : d.next? k = some e) :
  d.IsNext k e
  := by
  rw [next?] at h
  cases hbound : d.lowerBound k with
  | some e' =>
      rw [hbound, Option.some_or] at h
      obtain rfl := Option.some.inj h
      obtain ⟨hle, before, after, rfl, hbefore⟩ := List.find?_eq_some_iff_append.mp hbound
      simp only [decide_eq_true_eq] at hle
      refine ⟨by simp, .inl ⟨hle, ?_⟩⟩
      intro e'' hmem hk
      rcases List.mem_append.mp hmem with hmem | hmem
      · have := hbefore e'' hmem
        simp only [Bool.not_eq_true', decide_eq_false_iff_not] at this
        exact absurd hk this
      · rw [Sorted, keys_append, List.pairwise_append] at hd
        have htail : Sorted (e' :: after) := hd.2.1
        exact htail.head_le rfl hmem
  | none =>
      rw [hbound, Option.none_or] at h
      have hnone := List.find?_eq_none.mp hbound
      refine ⟨List.mem_of_mem_head? h, .inr ⟨?_, fun e' he' => hd.head_le h he'⟩⟩
      intro e' he'
      simpa using hnone e' he'

theorem IsNext.key_le {e e' : ℕ × α} (h : d.IsNext k e) (h' : d.IsNext k e') :
  e.1 ≤ e'.1
  := by
  obtain ⟨he, ⟨hk, hle⟩ | ⟨-, hle⟩⟩ := h
  · obtain ⟨he', ⟨hk', -⟩ | ⟨hk', -⟩⟩ := h'
    · exact hle e' he' hk'
    · exact absurd (hk' e he) (Nat.not_lt.mpr hk)
  · exact hle e' h'.1

theorem Sorted.eq_of_isNext (hd : d.Sorted) {e e' : ℕ × α} (h : d.IsNext k e) (h' : d.IsNext k e') :
  e = e'
  := by
  have hkey : e.1 = e'.1 := Nat.le_antisymm (h.key_le h') (h'.key_le h)
  have hfind := hd.find?_of_mem h.1
  rw [hkey, hd.find?_of_mem h'.1] at hfind
  exact Prod.ext hkey (Option.some.inj hfind).symm

theorem next?_eq_none :
  d.next? k = none ↔ d = []
  := by
  rw [next?, Option.or_eq_none_iff, List.head?_eq_none_iff]
  constructor
  · exact And.right
  · rintro rfl
    exact ⟨rfl, rfl⟩

/-- In a sorted map the entry that is found is the one that is met first. -/
theorem Sorted.next?_eq_some_iff (hd : d.Sorted) {e : ℕ × α} :
  d.next? k = some e ↔ d.IsNext k e
  := by
  constructor
  · exact hd.isNext_of_next?
  · intro h
    cases hnext : d.next? k with
    | none =>
        rw [next?_eq_none] at hnext
        subst hnext
        exact absurd h.1 List.not_mem_nil
    | some e' => rw [hd.eq_of_isNext (hd.isNext_of_next? hnext) h]

/-- An entry that is met first among more entries is met first among fewer. -/
theorem IsNext.subset {e : ℕ × α} (h : d'.IsNext k e) (hsub : d ⊆ d') (he : e ∈ d) :
  d.IsNext k e
  := by
  obtain ⟨-, ⟨hk, hle⟩ | ⟨hk, hle⟩⟩ := h
  · exact ⟨he, .inl ⟨hk, fun e' he' => hle e' (hsub he')⟩⟩
  · exact ⟨he, .inr ⟨fun e' he' => hk e' (hsub he'), fun e' he' => hle e' (hsub he')⟩⟩

/-! ### Values -/

section Values

variable {β : Type} (g : α → β)

/-- The map with `g` applied to every value. -/
def mapValues (d : SortedMap α) : SortedMap β := d.map (fun e => (e.1, g e.2))

theorem keys_mapValues (d : SortedMap α) :
  (mapValues g d).keys = d.keys
  := by
  rw [mapValues, keys, List.map_map]
  rfl

theorem find?_mapValues (d : SortedMap α) (k : ℕ) :
  (mapValues g d).find? k = (d.find? k).map g
  := by
  induction d with
  | nil => rfl
  | cons e d ih =>
      change (if e.1 = k then some (g e.2) else (mapValues g d).find? k) = _
      rw [ih, find?]
      split
      · rfl
      · rfl

theorem mapValues_put (d : SortedMap α) (k : ℕ) (a : α) :
  mapValues g (d.put k a) = (mapValues g d).put k (g a)
  := by
  induction d with
  | nil => rfl
  | cons e d ih =>
      change _ = put ((e.1, g e.2) :: mapValues g d) k (g a)
      rw [put, put]
      split
      · rfl
      · split
        · rfl
        · rw [← ih]
          rfl

end Values

end SortedMap
