import Mathlib
import Cascade.Broker.OffsetStore

/-!
# The keys of the offset store

A key is spelled from the names of a topic, a partition and a group, with `#` between them. If
the names of a topic and a group are free of `#`, the key for them is not the key of any other
triple, whatever names that one is made of. So nobody else touches the progress of the group.
-/

namespace Broker

namespace OffsetStore

/-- The name is free of `#`. -/
def Plain (name : String) : Prop := '#' ∉ name.toList

instance (name : String) : Decidable (Plain name) := inferInstanceAs (Decidable (¬ _))

theorem plain_toString (n : ℤ) :
  Plain (toString n)
  := by
  have hnat : ∀ m : ℕ, '#' ∉ m.repr.toList := by
    intro m hmem
    rw [Nat.toList_repr] at hmem
    have hdigit := Nat.isDigit_of_mem_toDigits (by decide) (by decide) hmem
    exact absurd hdigit (by decide)
  cases n with
  | ofNat m => apply hnat m
  | negSucc m =>
      change '#' ∉ ("-" ++ m.succ.repr).toList
      rw [String.toList_append, List.mem_append, not_or]
      exact ⟨by decide, hnat m.succ⟩

theorem entryKey_toList (topic : String) (partition : ℤ) (group : String) :
  (entryKey topic partition group).toList
    = topic.toList ++ '#' :: ((toString partition).toList ++ '#' :: group.toList)
  := by
  simp [entryKey, partitionKey]

/-- Where a first separator is found does not depend on what follows it. -/
theorem append_separator_inj {x x' z z' : List Char} (hx : '#' ∉ x) (hx' : '#' ∉ x')
    (h : x ++ '#' :: z = x' ++ '#' :: z') :
  x = x' ∧ z = z'
  := by
  rcases List.append_eq_append_iff.mp h with ⟨y, rfl, hy⟩ | ⟨y, rfl, hy⟩
  · cases y with
    | nil => simpa using hy
    | cons a y =>
        obtain rfl := (List.cons_eq_cons.mp hy).1
        simp at hx'
  · cases y with
    | nil => simpa using hy.symm
    | cons a y =>
        obtain rfl := (List.cons_eq_cons.mp hy).1
        simp at hx

variable {partition partition' : ℤ} {topic topic' group group' : String}

/-- The key for plain names is not the key of anything else. -/
theorem entryKey_inj (htopic : Plain topic) (hgroup : Plain group)
    (h : entryKey topic partition group = entryKey topic' partition' group') :
  topic = topic' ∧ partition = partition' ∧ group = group'
  := by
  have hkey := congrArg String.toList h
  rw [entryKey_toList, entryKey_toList] at hkey
  -- There are only two separators, so the other names are plain as well.
  have hcount := congrArg (List.count '#') hkey
  have hzero : ∀ name, Plain name → name.toList.count '#' = 0 := fun _ => List.count_eq_zero.mpr
  simp only [List.count_append, List.count_cons_self, hzero _ htopic, hzero _ hgroup,
    hzero _ (plain_toString _)] at hcount
  have htopic' : Plain topic' := List.count_eq_zero.mp (by omega)
  obtain ⟨ht, hkey⟩ := append_separator_inj htopic htopic' hkey
  obtain ⟨hp, hg⟩ := append_separator_inj (plain_toString _) (plain_toString _) hkey
  refine ⟨String.toList_inj.mp ht, ?_, String.toList_inj.mp hg⟩
  apply Int.repr_injective
  apply String.toList_inj.mp hp

/-! ### Progress -/

/-- What is kept depends on the key only. -/
theorem get_congr (s : OffsetStore)
    (hkey : entryKey topic partition group = entryKey topic' partition' group') :
  s.get topic partition group = s.get topic' partition' group'
  := by
  rw [get, hkey, get]

theorem registerGroup_groupsByPartition (s : OffsetStore) (topic : String) (partition : ℤ)
    (group : String) :
  (s.registerGroup topic partition group).groupsByPartition
    = Function.update s.groupsByPartition (partitionKey topic partition)
      ((s.groupsByPartition (partitionKey topic partition)).insert group)
  := rfl

/-- Registering a group does not change what it reads next. -/
theorem getD_registerGroup (s : OffsetStore) (topic topic' : String) (partition partition' : ℤ)
    (group group' : String) :
  ((s.registerGroup topic partition group).get topic' partition' group').getD 0
    = (s.get topic' partition' group').getD 0
  := by
  cases hentry : s.entries (entryKey topic partition group) with
  | some v => simp only [get, registerGroup, hentry]
  | none =>
      simp only [get, registerGroup, hentry]
      by_cases hkey : entryKey topic' partition' group' = entryKey topic partition group
      · rw [hkey, Function.update_self, hentry]
        rfl
      · rw [Function.update_of_ne hkey]

theorem get_commit_self (s : OffsetStore) (topic : String) (partition : ℤ) (group : String)
    (nextOffset : UInt64) :
  (s.commit topic partition group nextOffset).get topic partition group = some nextOffset
  := by
  apply Function.update_self

/-- A commit leaves alone what is kept under other keys. -/
theorem get_commit_of_key_ne (s : OffsetStore)
    (hkey : entryKey topic partition group ≠ entryKey topic' partition' group')
    (nextOffset : UInt64) :
  (s.commit topic' partition' group' nextOffset).get topic partition group
    = s.get topic partition group
  := Function.update_of_ne hkey ..

/-- So does a registration. -/
theorem get_registerGroup_of_key_ne (s : OffsetStore)
    (hkey : entryKey topic partition group ≠ entryKey topic' partition' group') :
  (s.registerGroup topic' partition' group').get topic partition group
    = s.get topic partition group
  := by
  cases hentry : s.entries (entryKey topic' partition' group') with
  | some v => simp only [get, registerGroup, hentry]
  | none =>
      simp only [get, registerGroup, hentry]
      apply Function.update_of_ne hkey

/-- A commit leaves the progress of plain names elsewhere alone. -/
theorem get_commit_of_ne (s : OffsetStore) (htopic : Plain topic) (hgroup : Plain group)
    (hne : ¬ (topic = topic' ∧ partition = partition' ∧ group = group')) (nextOffset : UInt64) :
  (s.commit topic' partition' group' nextOffset).get topic partition group
    = s.get topic partition group
  := by
  apply get_commit_of_key_ne
  intro hkey
  apply hne
  apply entryKey_inj htopic hgroup hkey

end OffsetStore

end Broker
