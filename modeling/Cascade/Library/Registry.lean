import Mathlib.Data.Finmap

/-!
# Registries

A registry is a finite map in which every value is stored under the key that it carries itself.
Such a map is determined by the values in it: it is built again from a list of them, in whatever
order they are listed (`Registry.ofList_order`).
-/

/-- A finite map in which every value is stored under its own key. -/
structure Registry {κ α : Type} [DecidableEq κ] (key : α → κ) where
  entries : Finmap (fun _ : κ => α)
  keyed : ∀ k a, entries.lookup k = some a → key a = k

namespace Registry

variable {κ α : Type} [DecidableEq κ] {key : α → κ}

instance [DecidableEq α] : DecidableEq (Registry key) := fun r s =>
  decidable_of_iff (r.entries = s.entries) (by cases r; cases s; simp)

/-- The value that is stored under a key. -/
def find? (r : Registry key) (k : κ) : Option α := r.entries.lookup k

/-- The registry without values. -/
def empty : Registry key := ⟨∅, fun _ _ h => nomatch h⟩

/-- Store a value under its key, in place of what was there. -/
def put (r : Registry key) (a : α) : Registry key where
  entries := r.entries.insert (key a) a
  keyed := by
    intro k b h
    by_cases hk : k = key a
    · subst hk
      rw [Finmap.lookup_insert, Option.some_inj] at h
      rw [h]
    · rw [Finmap.lookup_insert_of_ne _ hk] at h
      apply r.keyed k b h

/-- Registries that store the same are equal. -/
@[ext]
theorem ext {r s : Registry key} (h : ∀ k, r.find? k = s.find? k) :
  r = s
  := by
  have hentries : r.entries = s.entries := Finmap.ext_lookup h
  cases r
  cases s
  congr

@[simp]
theorem find?_empty (k : κ) :
  (empty : Registry key).find? k = none
  := rfl

@[simp]
theorem find?_put_self (r : Registry key) (a : α) :
  (r.put a).find? (key a) = some a
  := by
  apply Finmap.lookup_insert

theorem find?_put_of_ne (r : Registry key) {a : α} {k : κ} (h : k ≠ key a) :
  (r.put a).find? k = r.find? k
  := by
  apply Finmap.lookup_insert_of_ne _ h

variable {r : Registry key}

/-- A value that is found under a key has this key. -/
theorem key_of_find? {k : κ} {a : α} (h : r.find? k = some a) :
  key a = k
  := by
  apply r.keyed k a h

/-! ### Lists of values -/

/-- Store the values of a list one after the other. -/
def putAll (r : Registry key) (l : List α) : Registry key := l.foldl put r

/-- The registry of the values of a list. -/
def ofList (l : List α) : Registry key := empty.putAll l

/-- An order in which the values of a registry can be listed. -/
structure Order (r : Registry key) where
  list : List α
  nodup : (list.map key).Nodup
  mem : ∀ a, a ∈ list ↔ r.find? (key a) = some a

/-- The empty registry is listed by the empty list. -/
def Order.nil : (empty : Registry key).Order := ⟨[], List.nodup_nil, by simp⟩

/-- A value under a new key may be listed first. -/
def Order.cons {r : Registry key} (o : r.Order) {a : α} (h : r.find? (key a) = none) :
    (r.put a).Order where
  list := a :: o.list
  nodup := by
    rw [List.map_cons, List.nodup_cons]
    refine ⟨?_, o.nodup⟩
    intro hmem
    obtain ⟨b, hb, hkey⟩ := List.mem_map.mp hmem
    rw [o.mem, hkey, h] at hb
    exact nomatch hb
  mem := by
    intro b
    rw [List.mem_cons, o.mem]
    by_cases hkey : key b = key a
    · rw [hkey, h, find?_put_self]
      simp [eq_comm]
    · rw [find?_put_of_ne _ hkey]
      constructor
      · rintro (rfl | hb)
        · exact absurd rfl hkey
        · exact hb
      · exact .inr

/-- Two orders list the same values. -/
theorem Order.perm (o o' : r.Order) :
  o.list.Perm o'.list
  := by
  rw [List.perm_ext_iff_of_nodup o.nodup.of_map o'.nodup.of_map]
  intro a
  rw [o.mem, o'.mem]

/-- Every registry can be listed. -/
theorem nonempty_order (r : Registry key) :
  Nonempty r.Order
  := by
  have hmap : ∀ ks : List κ, (∀ k ∈ ks, k ∈ r.entries) →
      (ks.filterMap r.find?).map key = ks := by
    intro ks hks
    induction ks with
    | nil => rfl
    | cons k ks ih =>
        rw [List.forall_mem_cons] at hks
        obtain ⟨a, ha⟩ := Finmap.mem_iff.mp hks.1
        have hfind : r.find? k = some a := ha
        rw [List.filterMap_cons, hfind, List.map_cons, r.keyed k a ha, ih hks.2]
  have hkeys : ∀ k, k ∈ r.entries.keys.toList ↔ k ∈ r.entries := by
    intro k
    rw [Finset.mem_toList, Finmap.mem_keys]
  refine ⟨⟨r.entries.keys.toList.filterMap r.find?, ?_, ?_⟩⟩
  · rw [hmap _ fun k hk => (hkeys k).mp hk]
    apply Finset.nodup_toList
  · intro a
    rw [List.mem_filterMap]
    constructor
    · rintro ⟨k, -, hk⟩
      rw [r.keyed k a hk]
      exact hk
    · intro ha
      exact ⟨key a, (hkeys _).mpr (Finmap.mem_iff.mpr ⟨a, ha⟩), ha⟩

/-- What is stored already changes nothing. -/
theorem put_of_find? {a : α} (h : r.find? (key a) = some a) :
  r.put a = r
  := by
  ext1 k
  by_cases hk : k = key a
  · subst hk
    rw [find?_put_self, h]
  · apply find?_put_of_ne _ hk

theorem find?_putAll_of_notMem {l : List α} {k : κ} (h : k ∉ l.map key) :
  (r.putAll l).find? k = r.find? k
  := by
  induction l generalizing r with
  | nil => rfl
  | cons a l ih =>
      rw [List.map_cons, List.mem_cons, not_or] at h
      rw [putAll, List.foldl_cons]
      apply (ih h.2).trans
      apply find?_put_of_ne _ h.1

theorem find?_putAll_of_mem {l : List α} (hl : (l.map key).Nodup) {a : α} (ha : a ∈ l) :
  (r.putAll l).find? (key a) = some a
  := by
  induction l generalizing r with
  | nil => exact nomatch ha
  | cons b l ih =>
      rw [List.map_cons, List.nodup_cons] at hl
      rw [putAll, List.foldl_cons]
      rcases List.mem_cons.mp ha with rfl | ha
      · apply (find?_putAll_of_notMem hl.1).trans
        apply find?_put_self
      · apply ih hl.2 ha

/-- What is found in the registry of the values of another one, each replaced by one with the same
key. -/
theorem find?_ofList_map (o : r.Order) {g : α → α} (hg : ∀ a, key (g a) = key a) (k : κ) :
  (ofList (o.list.map g) : Registry key).find? k = (r.find? k).map g
  := by
  have hkeys : (o.list.map g).map key = o.list.map key := by
    rw [List.map_map]
    exact List.map_congr_left fun a _ => hg a
  by_cases hk : k ∈ o.list.map key
  · obtain ⟨a, ha, rfl⟩ := List.mem_map.mp hk
    rw [ofList, ← hg a, find?_putAll_of_mem (hkeys ▸ o.nodup) (List.mem_map_of_mem ha), hg a,
      (o.mem a).mp ha, Option.map_some]
  · have hnone : r.find? k = none := by
      apply Option.eq_none_iff_forall_ne_some.mpr
      intro a ha
      apply hk
      obtain rfl := key_of_find? ha
      apply List.mem_map_of_mem
      apply (o.mem a).mpr ha
    rw [ofList, find?_putAll_of_notMem (hkeys ▸ hk), find?_empty, hnone, Option.map_none]

/-- A registry is built again from its values, in whatever order they are listed. -/
theorem ofList_order (o : r.Order) :
  ofList o.list = r
  := by
  ext1 k
  rw [← List.map_id o.list, find?_ofList_map o (g := id) (fun _ => rfl), Option.map_id_apply]

end Registry
