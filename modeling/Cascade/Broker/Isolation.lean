import Mathlib
import Cascade.Broker.Keys

/-!
# Isolation of groups in the offset store

The progress of all groups is kept under keys that are spelled from a topic, a partition and a
group. Two triples are spelled alike if the name of one topic goes on with the partition of the
other triple, which then stands in front of the other group (`OffsetStore.Clash`). Apart from that
the groups are isolated: nobody changes what another triple reads, and the least committed offset
of a partition is the least of what the groups registered for it committed themselves.
-/

namespace Broker

namespace OffsetStore

/-! ### Triples that are spelled alike -/

/-- The second topic is the first one, followed by the first partition and perhaps more; what
remains of the second triple is the end of the first group. -/
def Shifted (topic : String) (partition : ℤ) (group topic' : String) (partition' : ℤ)
    (group' : String) : Prop :=
  (topic' = partitionKey topic partition ∧ group = toString partition' ++ "#" ++ group')
    ∨ ∃ middle, topic' = partitionKey topic partition ++ "#" ++ middle
      ∧ group = entryKey middle partition' group'

/-- The triples are different and are spelled alike. -/
def Clash (topic : String) (partition : ℤ) (group topic' : String) (partition' : ℤ)
    (group' : String) : Prop :=
  Shifted topic partition group topic' partition' group'
    ∨ Shifted topic' partition' group' topic partition group

/-- What comes before a separator is all that comes before the first one, or goes on behind it. -/
theorem append_separator_cases {x y z w : List Char} (hx : '#' ∉ x)
    (h : x ++ '#' :: z = y ++ '#' :: w) :
  (y = x ∧ z = w) ∨ ∃ u, y = x ++ '#' :: u ∧ z = u ++ '#' :: w
  := by
  rcases List.append_eq_append_iff.mp h with ⟨v, rfl, hv⟩ | ⟨v, rfl, hv⟩
  · cases v with
    | nil =>
        left
        simpa using hv
    | cons a v =>
        right
        obtain ⟨rfl, hz⟩ := List.cons_eq_cons.mp hv
        exact ⟨v, rfl, hz⟩
  · cases v with
    | nil =>
        left
        simpa using hv.symm
    | cons a v =>
        obtain rfl := (List.cons_eq_cons.mp hv).1
        simp at hx

theorem partitionKey_toList (topic : String) (partition : ℤ) :
  (partitionKey topic partition).toList = topic.toList ++ '#' :: (toString partition).toList
  := by
  simp [partitionKey]

variable {partition partition' : ℤ}

/-- A partition has a key of its own, whatever the topics are called. -/
theorem partitionKey_inj {topic topic' : String}
    (h : partitionKey topic partition = partitionKey topic' partition') :
  topic = topic' ∧ partition = partition'
  := by
  have hkey := congrArg (fun key => key.toList.reverse) h
  simp only [partitionKey_toList, List.reverse_append, List.reverse_cons, List.append_assoc,
    List.singleton_append] at hkey
  have hplain : ∀ n : ℤ, '#' ∉ (toString n).toList.reverse := by
    intro n
    rw [List.mem_reverse]
    apply plain_toString
  obtain ⟨hpartition, htopic⟩ := append_separator_inj (hplain _) (hplain _) hkey
  constructor
  · apply String.toList_inj.mp
    apply List.reverse_injective htopic
  · apply Int.repr_injective
    apply String.toList_inj.mp
    apply List.reverse_injective hpartition

variable {topic topic' group group' : String}

theorem entryKey_of_shifted (h : Shifted topic partition group topic' partition' group') :
  entryKey topic partition group = entryKey topic' partition' group'
  := by
  rcases h with ⟨rfl, rfl⟩ | ⟨middle, rfl, rfl⟩
  · simp only [entryKey, partitionKey, String.append_assoc]
  · simp only [entryKey, partitionKey, String.append_assoc]

/-- If two triples have one key and the second topic begins with the first one, they are the same
or the second one is shifted. -/
theorem shifted_of_entryKey
    {y : List Char} (htopic : topic'.toList = topic.toList ++ y)
    (h : '#' :: ((toString partition).toList ++ '#' :: group.toList)
      = y ++ '#' :: ((toString partition').toList ++ '#' :: group'.toList)) :
  (topic = topic' ∧ partition = partition' ∧ group = group')
    ∨ Shifted topic partition group topic' partition' group'
  := by
  cases y with
  | nil =>
      left
      rw [List.append_nil] at htopic
      obtain ⟨hpartition, hgroup⟩ := append_separator_inj (plain_toString _) (plain_toString _)
        (List.cons_eq_cons.mp h).2
      refine ⟨String.toList_inj.mp htopic.symm, ?_, String.toList_inj.mp hgroup⟩
      apply Int.repr_injective
      apply String.toList_inj.mp hpartition
  | cons a w =>
      right
      obtain ⟨rfl, hrest⟩ := List.cons_eq_cons.mp h
      rcases append_separator_cases (plain_toString _) hrest with ⟨rfl, hgroup⟩ | ⟨u, rfl, hgroup⟩
      · left
        constructor
        · apply String.toList_inj.mp
          rw [htopic, partitionKey_toList]
        · apply String.toList_inj.mp
          rw [hgroup]
          simp
      · right
        use String.ofList u
        constructor
        · apply String.toList_inj.mp
          rw [htopic]
          simp [partitionKey_toList]
        · apply String.toList_inj.mp
          rw [hgroup, entryKey_toList, String.toList_ofList]

/-- Two triples have one key if they are the same or clash. -/
theorem entryKey_eq_iff (topic : String) (partition : ℤ) (group topic' : String)
    (partition' : ℤ) (group' : String) :
  entryKey topic partition group = entryKey topic' partition' group'
    ↔ (topic = topic' ∧ partition = partition' ∧ group = group')
      ∨ Clash topic partition group topic' partition' group'
  := by
  constructor
  · intro h
    have hkey := congrArg String.toList h
    rw [entryKey_toList, entryKey_toList] at hkey
    rcases List.append_eq_append_iff.mp hkey with ⟨y, htopic, hrest⟩ | ⟨y, htopic, hrest⟩
    · apply (shifted_of_entryKey htopic hrest).imp_right
      exact Or.inl
    · rcases shifted_of_entryKey htopic hrest with ⟨rfl, rfl, rfl⟩ | hshift
      · exact .inl ⟨rfl, rfl, rfl⟩
      · exact .inr (.inr hshift)
  · rintro (⟨rfl, rfl, rfl⟩ | hshift | hshift)
    · rfl
    · apply entryKey_of_shifted hshift
    · symm
      apply entryKey_of_shifted hshift

theorem not_plain_of_shifted (h : Shifted topic partition group topic' partition' group') :
  ¬ Plain topic'
  := by
  rcases h with ⟨rfl, -⟩ | ⟨middle, rfl, -⟩
  · simp [Plain, partitionKey]
  · simp [Plain, partitionKey]

/-- Triples with plain topics do not clash. -/
theorem not_clash_of_plain {topic topic' : String} (htopic : Plain topic) (htopic' : Plain topic')
    (partition partition' : ℤ) (group group' : String) :
  ¬ Clash topic partition group topic' partition' group'
  := by
  rintro (hshift | hshift)
  · exact not_plain_of_shifted hshift htopic'
  · exact not_plain_of_shifted hshift htopic

/-! ### The least committed offset -/

/-- The running minimum is the least of the values and of where it started. -/
theorem foldl_min_isLeast (f : String → UInt64) (groups : List String) (init : UInt64) :
  IsLeast {v | v = init ∨ ∃ group ∈ groups, f group = v}
    (groups.foldl (fun minVal group => if f group < minVal then f group else minVal) init)
  := by
  induction groups generalizing init with
  | nil => exact ⟨.inl rfl, fun v hv => by simp_all⟩
  | cons group groups ih =>
      rw [List.foldl_cons]
      obtain ⟨hmem, hle⟩ := ih (if f group < init then f group else init)
      have hfirst := hle (.inl rfl)
      constructor
      · rcases hmem with hstart | ⟨group', hgroup', hvalue⟩
        · rw [hstart]
          split
          · exact .inr ⟨group, List.mem_cons_self, rfl⟩
          · exact .inl rfl
        · exact .inr ⟨group', List.mem_cons_of_mem group hgroup', hvalue⟩
      · rintro v (rfl | ⟨group', hgroup', rfl⟩)
        · apply UInt64.le_trans hfirst
          split
          · rename_i hlt
            apply UInt64.le_of_lt hlt
          · apply UInt64.le_refl
        · rcases List.mem_cons.mp hgroup' with rfl | hgroup'
          · apply UInt64.le_trans hfirst
            split
            · apply UInt64.le_refl
            · rename_i hlt
              apply UInt64.not_lt.mp hlt
          · apply hle
            exact .inr ⟨group', hgroup', rfl⟩

/-- If there are values, the largest number does not count as a start. -/
theorem foldl_min_isLeast_of_ne_nil (f : String → UInt64) {groups : List String}
    (hne : groups ≠ []) :
  IsLeast {v | ∃ group ∈ groups, f group = v}
    (groups.foldl (fun minVal group => if f group < minVal then f group else minVal)
      (UInt64.ofNat (UInt64.size - 1)))
  := by
  obtain ⟨hmem, hle⟩ := foldl_min_isLeast f groups (UInt64.ofNat (UInt64.size - 1))
  refine ⟨?_, fun v hv => hle (.inr hv)⟩
  rcases hmem with hstart | hmem
  · obtain ⟨group, hgroup⟩ := List.exists_mem_of_ne_nil groups hne
    use group, hgroup
    apply UInt64.le_antisymm
    · rw [hstart]
      apply UInt64.le_iff_toNat_le.mpr
      exact Nat.le_sub_one_of_lt (f group).toNat_lt
    · apply hle
      exact .inr ⟨group, hgroup, rfl⟩
  · exact hmem

/-- The least committed offset of a partition is the least offset that is kept for a group
registered for it. -/
theorem minCommittedOffsetFor_eq_some_iff (s : OffsetStore) (topic : String) (partition : ℤ)
    (v : UInt64) :
  s.minCommittedOffsetFor topic partition = some v
    ↔ IsLeast {v | ∃ group ∈ s.groupsByPartition (partitionKey topic partition),
        (s.get topic partition group).getD 0 = v} v
  := by
  rw [minCommittedOffsetFor]
  split
  · rename_i hnil
    rw [hnil]
    simp [IsLeast]
  · rename_i hne
    obtain ⟨hmem, hle⟩ := foldl_min_isLeast_of_ne_nil
      (fun group => (s.get topic partition group).getD 0) hne
    rw [Option.some_inj]
    constructor
    · rintro rfl
      exact ⟨hmem, hle⟩
    · rintro ⟨hv, hleast⟩
      apply UInt64.le_antisymm
      · exact hle hv
      · exact hleast hmem

/-! ### Runs -/

/-- An operation that changes the store. -/
inductive Update where
  | registerGroup (topic : String) (partition : ℤ) (group : String)
  | commit (topic : String) (partition : ℤ) (group : String) (nextOffset : UInt64)

/-- The store after an operation. -/
def update (s : OffsetStore) : Update → OffsetStore
  | .registerGroup topic partition group => s.registerGroup topic partition group
  | .commit topic partition group nextOffset => s.commit topic partition group nextOffset

/-- The store after a list of operations. -/
def updateAll (s : OffsetStore) (updates : List Update) : OffsetStore :=
  updates.foldl update s

/-- The groups registered for exactly this topic and partition. -/
def registeredIn (updates : List Update) (topic : String) (partition : ℤ) : Set String :=
  {group | .registerGroup topic partition group ∈ updates}

/-- The offset committed by an operation for exactly this triple. -/
def Update.commits? (topic : String) (partition : ℤ) (group : String) : Update → Option UInt64
  | .commit topic' partition' group' nextOffset =>
      if topic' = topic ∧ partition' = partition ∧ group' = group then some nextOffset else none
  | .registerGroup .. => none

/-- The offset committed last for exactly this triple, 0 if there is none. -/
def lastCommitted (updates : List Update) (topic : String) (partition : ℤ) (group : String) :
    UInt64 :=
  ((updates.filterMap (Update.commits? topic partition group)).getLast?).getD 0

theorem updateAll_concat (s : OffsetStore) (updates : List Update) (u : Update) :
  s.updateAll (updates ++ [u]) = (s.updateAll updates).update u
  := by
  rw [updateAll, List.foldl_append]
  rfl

/-- A group is listed for a partition if it was registered for exactly this partition. -/
theorem mem_groupsByPartition_iff (updates : List Update) (topic : String) (partition : ℤ)
    (group : String) :
  group ∈ (empty.updateAll updates).groupsByPartition (partitionKey topic partition)
    ↔ group ∈ registeredIn updates topic partition
  := by
  induction updates using List.reverseRecOn with
  | nil => simp [updateAll, empty, registeredIn]
  | append_singleton updates u ih =>
      rw [updateAll_concat]
      simp only [registeredIn, Set.mem_ofPred_eq, List.mem_append, List.mem_singleton] at ih ⊢
      cases u with
      | commit topic' partition' group' nextOffset => simp [update, commit, ih]
      | registerGroup topic' partition' group' =>
          simp only [update, registerGroup_groupsByPartition, Update.registerGroup.injEq]
          by_cases hkey : partitionKey topic partition = partitionKey topic' partition'
          · obtain ⟨rfl, rfl⟩ := partitionKey_inj hkey
            rw [Function.update_self, List.mem_insert_iff, ih]
            tauto
          · rw [Function.update_of_ne hkey, ih]
            have hne : ¬ (topic = topic' ∧ partition = partition') := by
              rintro ⟨rfl, rfl⟩
              exact hkey rfl
            tauto

/-- The offset kept for a triple is the one committed last for exactly this triple, if no other
triple that clashes with it was committed. -/
theorem getD_updateAll {updates : List Update} {topic : String} {partition : ℤ} {group : String}
    (hclash : ∀ topic' partition' group' nextOffset,
      .commit topic' partition' group' nextOffset ∈ updates →
      ¬ Clash topic' partition' group' topic partition group) :
  ((empty.updateAll updates).get topic partition group).getD 0
    = lastCommitted updates topic partition group
  := by
  induction updates using List.reverseRecOn with
  | nil => rfl
  | append_singleton updates u ih =>
      have ih := ih (fun topic' partition' group' nextOffset hmem =>
        hclash topic' partition' group' nextOffset (List.mem_append_left [u] hmem))
      rw [updateAll_concat, lastCommitted, List.filterMap_append]
      cases u with
      | registerGroup topic' partition' group' =>
          simp only [update, List.filterMap_cons, Update.commits?, List.filterMap_nil,
            List.append_nil]
          rw [getD_registerGroup, ih, lastCommitted]
      | commit topic' partition' group' nextOffset =>
          by_cases hsame : topic' = topic ∧ partition' = partition ∧ group' = group
          · obtain ⟨rfl, rfl, rfl⟩ := hsame
            simp [update, get_commit_self, Update.commits?]
          · have hkey : entryKey topic partition group ≠ entryKey topic' partition' group' := by
              intro hkey
              rcases (entryKey_eq_iff ..).mp hkey.symm with hsame' | hshift
              · exact hsame hsame'
              · apply hclash topic' partition' group' nextOffset _ hshift
                simp
            simp only [update, List.filterMap_cons, Update.commits?, if_neg hsame,
              List.filterMap_nil, List.append_nil]
            rw [← lastCommitted, ← ih, get_commit_of_key_ne _ hkey]

/-- Committing or registering one triple leaves what another one reads unchanged in every state,
unless the two clash. After any list of operations in which no commit is for a triple that clashes
with one of a group of the partition, the least committed offset of the partition is the least of
the offsets that the groups registered for exactly this partition committed last themselves. -/
theorem isolated_iff_not_clash {topic topic' group group' : String} {partition partition' : ℤ}
    (hne : ¬ (topic = topic' ∧ partition = partition' ∧ group = group')) :
  ((∀ (s : OffsetStore) nextOffset,
      (s.commit topic partition group nextOffset).get topic' partition' group'
          = s.get topic' partition' group'
        ∧ (s.registerGroup topic partition group).get topic' partition' group'
          = s.get topic' partition' group')
      ↔ ¬ Clash topic partition group topic' partition' group')
    ∧ ∀ updates topic partition,
      (∀ group ∈ registeredIn updates topic partition,
        ∀ topic' partition' group' nextOffset,
          .commit topic' partition' group' nextOffset ∈ updates →
          ¬ Clash topic' partition' group' topic partition group) →
      ∀ v, (empty.updateAll updates).minCommittedOffsetFor topic partition = some v
        ↔ IsLeast (Set.image (lastCommitted updates topic partition)
            (registeredIn updates topic partition)) v
  := by
  constructor
  · constructor
    · intro hframe hclash
      have hkey : entryKey topic' partition' group' = entryKey topic partition group :=
        ((entryKey_eq_iff ..).mpr (.inr hclash)).symm
      have hget := (hframe empty 0).1
      rw [get_congr _ hkey, get_commit_self] at hget
      cases hget
    · intro hclash s nextOffset
      have hkey : entryKey topic' partition' group' ≠ entryKey topic partition group := by
        intro hkey
        exact ((entryKey_eq_iff ..).mp hkey.symm).elim hne hclash
      exact ⟨get_commit_of_key_ne s hkey nextOffset, get_registerGroup_of_key_ne s hkey⟩
  · intro updates topic partition hclash v
    rw [minCommittedOffsetFor_eq_some_iff]
    have hset : {v | ∃ group ∈ (empty.updateAll updates).groupsByPartition
          (partitionKey topic partition),
          ((empty.updateAll updates).get topic partition group).getD 0 = v}
        = Set.image (lastCommitted updates topic partition)
          (registeredIn updates topic partition) := by
      ext v
      simp only [Set.mem_ofPred_eq, Set.mem_image, mem_groupsByPartition_iff]
      apply exists_congr
      intro group
      apply and_congr_right
      intro hgroup
      rw [getD_updateAll (hclash group hgroup)]
    rw [hset]

/-- Two groups of one partition. -/
theorem isolated_two_groups :
  let updates : List Update := [.registerGroup "orders" 0 "billing",
    .registerGroup "orders" 0 "audit", .commit "orders" 0 "billing" 5, .commit "orders" 0 "audit" 3]
  (∀ (s : OffsetStore) nextOffset,
      (s.commit "orders" 0 "billing" nextOffset).get "orders" 0 "audit" = s.get "orders" 0 "audit")
    ∧ IsLeast (Set.image (lastCommitted updates "orders" 0) (registeredIn updates "orders" 0)) 3
  := by
  intro updates
  have hplain : Plain "orders" := by decide
  have hne : ¬ ("orders" = "orders" ∧ (0 : ℤ) = 0 ∧ "billing" = "audit") := by decide
  constructor
  · intro s nextOffset
    apply ((isolated_iff_not_clash hne).1.mpr _ s nextOffset).1
    apply not_clash_of_plain hplain hplain
  · apply ((isolated_iff_not_clash hne).2 updates "orders" 0 _ 3).mp
    · decide +kernel
    · intro group _ topic' partition' group' nextOffset hcommit
      obtain rfl : topic' = "orders" := by
        simp only [updates, List.mem_cons, Update.commit.injEq, reduceCtorEq, List.not_mem_nil,
          false_or, or_false] at hcommit
        rcases hcommit with ⟨rfl, -⟩ | ⟨rfl, -⟩ <;> rfl
      apply not_clash_of_plain hplain hplain

/-- A commit for one group moves another one. -/
theorem commit_moves_other :
  ¬ (("a#1", 2, "g") : String × ℤ × String) = ("a", 1, "2#g")
    ∧ (empty.registerGroup "a" 1 "2#g").get "a" 1 "2#g" = some 0
    ∧ ((empty.registerGroup "a" 1 "2#g").commit "a#1" 2 "g" 7).get "a" 1 "2#g" = some 7
    ∧ ((empty.registerGroup "a" 1 "2#g").commit "a#1" 2 "g" 7).minCommittedOffsetFor "a" 1
      = some 7
  := by
  decide +kernel

end OffsetStore

end Broker
