import Mathlib.Data.Int.Notation
import Mathlib.Logic.Function.Basic

/-!
# The offset store

The model of `broker/offset_store.hpp`. For each topic, partition and consumer group it tracks the
offset that the group is to read next. All progress is kept in one map, whose keys are spelled
from the three names; a second map lists the groups registered for a partition.
-/

namespace Broker

/-- The store: the committed offset of every key, and the groups of every partition. -/
structure OffsetStore where
  entries : String → Option UInt64
  groupsByPartition : String → List String

namespace OffsetStore

/-- The store in which nothing is registered. -/
def empty : OffsetStore := ⟨fun _ => none, fun _ => []⟩

/-- The key of a partition. -/
def partitionKey (topic : String) (partition : ℤ) : String :=
  topic ++ "#" ++ toString partition

/-- The key of a group's progress in a partition. -/
def entryKey (topic : String) (partition : ℤ) (group : String) : String :=
  partitionKey topic partition ++ "#" ++ group

/-- Register a group for a partition. A group that has no progress there starts at offset 0. -/
def registerGroup (s : OffsetStore) (topic : String) (partition : ℤ) (group : String) :
    OffsetStore where
  entries := match s.entries (entryKey topic partition group) with
    | some _ => s.entries
    | none => Function.update s.entries (entryKey topic partition group) (some 0)
  groupsByPartition := Function.update s.groupsByPartition (partitionKey topic partition)
    ((s.groupsByPartition (partitionKey topic partition)).insert group)

/-- Commit the offset that a group is to read next. -/
def commit (s : OffsetStore) (topic : String) (partition : ℤ) (group : String)
    (nextOffset : UInt64) : OffsetStore :=
  { s with
    entries := Function.update s.entries (entryKey topic partition group) (some nextOffset) }

/-- The offset that a group committed last. -/
def get (s : OffsetStore) (topic : String) (partition : ℤ) (group : String) : Option UInt64 :=
  s.entries (entryKey topic partition group)

/-- The least offset committed by the groups registered for a partition, if there are any. -/
def minCommittedOffsetFor (s : OffsetStore) (topic : String) (partition : ℤ) : Option UInt64 :=
  match s.groupsByPartition (partitionKey topic partition) with
  | [] => none
  | groups => some (groups.foldl (fun minVal group =>
      let v := (s.get topic partition group).getD 0
      if v < minVal then v else minVal) (UInt64.ofNat (UInt64.size - 1)))

end OffsetStore

end Broker
