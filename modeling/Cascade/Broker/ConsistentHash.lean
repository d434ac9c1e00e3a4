import Cascade.Broker.Keys
import Cascade.Library.SortedMap

/-!
# The consistent hash ring

The model of `broker/consistent_hash.hpp`. Every partition has a number of virtual nodes, whose
names are hashed to points on a ring. A key belongs to the partition of the first point at or
behind its own hash, and to that of the least point if there is none behind.

As long as the hash tells the names of the virtual nodes apart, the points on the ring are those
of the partitions that were added and not removed since (`Holds`). So the ring does not depend on
the history that led to it (`history_independent`), and adding or removing a partition moves the
keys of this partition only (`minimal_remapping`).
-/

namespace Broker

structure ConsistentHashRing where
  virtualNodes : ℤ
  ring : SortedMap ℤ

/-- The name of a virtual node. -/
def virtualNodeName (partitionId : ℤ) (virtualIndex : ℕ) : String :=
  toString partitionId ++ "#vnode#" ++ toString virtualIndex

namespace ConsistentHashRing

/-- The constructor. -/
def make (virtualNodes : ℤ) : ConsistentHashRing := ⟨virtualNodes, []⟩

section Operations

variable (hash : String → UInt64)

def hashVirtualNode (partitionId : ℤ) (virtualIndex : ℕ) : UInt64 :=
  hash (virtualNodeName partitionId virtualIndex)

def addPartition (r : ConsistentHashRing) (partitionId : ℤ) : ConsistentHashRing :=
  { r with
    ring := (List.range r.virtualNodes.toNat).foldl
      (fun ring v => ring.put (hashVirtualNode hash partitionId v).toNat partitionId) r.ring }

def removePartition (r : ConsistentHashRing) (partitionId : ℤ) : ConsistentHashRing :=
  { r with
    ring := (List.range r.virtualNodes.toNat).foldl
      (fun ring v => ring.erase (hashVirtualNode hash partitionId v).toNat) r.ring }

/-- The partition of a key. -/
def partitionFor (r : ConsistentHashRing) (key : String) : Except String ℤ :=
  match r.ring with
  | [] => .error "consistent hash ring has no partitions"
  | first :: _ =>
      match r.ring.lowerBound (hash key).toNat with
      | some entry => .ok entry.2
      | none => .ok first.2

/-- The operations that change a ring. -/
inductive Op
  | add (partitionId : ℤ)
  | remove (partitionId : ℤ)
deriving DecidableEq

def step (r : ConsistentHashRing) : Op → ConsistentHashRing
  | .add p => r.addPartition hash p
  | .remove p => r.removePartition hash p

def run (r : ConsistentHashRing) (ops : List Op) : ConsistentHashRing :=
  ops.foldl (step hash) r

end Operations

/-! ### What should be on the ring -/

/-- The partition that an operation is about. -/
def Op.partition : Op → ℤ
  | .add p => p
  | .remove p => p

/-- The partitions that are present after an operation. -/
def Op.apply (present : Finset ℤ) : Op → Finset ℤ
  | .add p => insert p present
  | .remove p => present.erase p

/-- The partitions that were added and not removed since. -/
def present (ops : List Op) : Finset ℤ :=
  ops.foldl Op.apply ∅

/-- The hash tells the names of the virtual nodes of some partitions apart. -/
def Distinguishes (hash : String → UInt64) (virtualNodes : ℤ) (partitions : Set ℤ) : Prop :=
  Set.InjOn hash {name | ∃ p ∈ partitions, ∃ v < virtualNodes.toNat, name = virtualNodeName p v}

/-- The virtual node `v` of partition `p` is the first one of the partitions in `present` that is
met from the point `h` on, going around from the greatest point to the least. -/
def IsFirst (hash : String → UInt64) (virtualNodes : ℤ) (present : Finset ℤ) (h : UInt64)
    (p : ℤ) (v : ℕ) : Prop :=
  p ∈ present ∧ v < virtualNodes.toNat
    ∧ ((h.toNat ≤ (hashVirtualNode hash p v).toNat
        ∧ ∀ q ∈ present, ∀ u < virtualNodes.toNat, h.toNat ≤ (hashVirtualNode hash q u).toNat →
            (hashVirtualNode hash p v).toNat ≤ (hashVirtualNode hash q u).toNat)
      ∨ ((∀ q ∈ present, ∀ u < virtualNodes.toNat, (hashVirtualNode hash q u).toNat < h.toNat)
        ∧ ∀ q ∈ present, ∀ u < virtualNodes.toNat,
            (hashVirtualNode hash p v).toNat ≤ (hashVirtualNode hash q u).toNat))

theorem virtualNodeName_inj {p p' : ℤ} {v v' : ℕ}
    (h : virtualNodeName p v = virtualNodeName p' v') :
  p = p' ∧ v = v'
  := by
  have hname : ∀ (q : ℤ) (u : ℕ), (virtualNodeName q u).toList
      = (toString q).toList ++ '#' :: (['v', 'n', 'o', 'd', 'e', '#'] ++ (toString u).toList) := by
    intro q u
    simp [virtualNodeName]
  have hlist := congrArg String.toList h
  rw [hname, hname] at hlist
  obtain ⟨hp, hv⟩ := OffsetStore.append_separator_inj (OffsetStore.plain_toString _)
    (OffsetStore.plain_toString _) hlist
  constructor
  · apply Int.repr_injective
    apply String.toList_inj.mp hp
  · apply Nat.repr_injective
    apply String.toList_inj.mp (List.append_cancel_left hv)

/-- The points of a partition. -/
def points (hash : String → UInt64) (virtualNodes p : ℤ) : List ℕ :=
  (List.range virtualNodes.toNat).map (fun v => (hashVirtualNode hash p v).toNat)

variable {p : ℤ}

section Points

variable {hash : String → UInt64} {virtualNodes : ℤ}

theorem mem_points {h : ℕ} :
  h ∈ points hash virtualNodes p
    ↔ ∃ v < virtualNodes.toNat, (hashVirtualNode hash p v).toNat = h
  := by
  simp [points]

/-- Two partitions have no point in common. -/
theorem Distinguishes.eq_of_mem {partitions : Set ℤ}
    (hash_inj : Distinguishes hash virtualNodes partitions) {p q : ℤ} (hp : p ∈ partitions)
    (hq : q ∈ partitions) {h : ℕ} (hhp : h ∈ points hash virtualNodes p)
    (hhq : h ∈ points hash virtualNodes q) :
  p = q
  := by
  obtain ⟨v, hv, rfl⟩ := mem_points.mp hhp
  obtain ⟨u, hu, heq⟩ := mem_points.mp hhq
  have hname := hash_inj ⟨q, hq, u, hu, rfl⟩ ⟨p, hp, v, hv, rfl⟩ (UInt64.toNat_inj.mp heq)
  exact (virtualNodeName_inj hname).1.symm

theorem addPartition_ring (r : ConsistentHashRing) (p : ℤ) :
  (r.addPartition hash p).ring
    = (points hash r.virtualNodes p).foldl (fun ring h => ring.put h p) r.ring
  := by
  rw [points, List.foldl_map]
  rfl

theorem removePartition_ring (r : ConsistentHashRing) (p : ℤ) :
  (r.removePartition hash p).ring
    = (points hash r.virtualNodes p).foldl (fun ring h => ring.erase h) r.ring
  := by
  rw [points, List.foldl_map]
  rfl

end Points

@[simp]
theorem step_virtualNodes (hash : String → UInt64) (r : ConsistentHashRing) (op : Op) :
  (r.step hash op).virtualNodes = r.virtualNodes
  := by
  cases op <;> rfl

@[simp]
theorem run_virtualNodes (hash : String → UInt64) (r : ConsistentHashRing) (ops : List Op) :
  (r.run hash ops).virtualNodes = r.virtualNodes
  := by
  induction ops generalizing r with
  | nil => rfl
  | cons op ops ih => rw [run, List.foldl_cons, ← run, ih, step_virtualNodes]

theorem Op.apply_subset {S : Finset ℤ} {partitions : Set ℤ} (hS : ↑S ⊆ partitions) {op : Op}
    (hop : op.partition ∈ partitions) :
  ↑(op.apply S) ⊆ partitions
  := by
  intro p hp
  cases op with
  | add q =>
      rcases Finset.mem_insert.mp hp with rfl | hp
      · exact hop
      · exact hS hp
  | remove q => exact hS (Finset.mem_of_mem_erase hp)

/-! ### The invariant -/

/-- The points on the ring are those of the partitions in `present`. -/
structure Holds (hash : String → UInt64) (r : ConsistentHashRing) (present : Finset ℤ) : Prop where
  sorted : r.ring.Sorted
  owner : ∀ h p, r.ring.find? h = some p ↔ p ∈ present ∧ h ∈ points hash r.virtualNodes p

namespace Holds

variable {hash : String → UInt64} {r : ConsistentHashRing} {S : Finset ℤ} {partitions : Set ℤ}

theorem make (hash : String → UInt64) (virtualNodes : ℤ) :
  Holds hash (.make virtualNodes) ∅
  := by
  constructor
  case sorted => exact List.Pairwise.nil
  case owner =>
    intro h p
    simp [ConsistentHashRing.make, SortedMap.find?]

theorem find?_add (r : ConsistentHashRing) (p : ℤ) (h : ℕ) :
  (r.addPartition hash p).ring.find? h
    = if h ∈ points hash r.virtualNodes p then some p else r.ring.find? h
  := by
  rw [addPartition_ring, SortedMap.find?_foldl_put]

theorem find?_remove (r : ConsistentHashRing) (p : ℤ) (h : ℕ) :
  (r.removePartition hash p).ring.find? h
    = if h ∈ points hash r.virtualNodes p then none else r.ring.find? h
  := by
  rw [removePartition_ring, SortedMap.find?_foldl_erase]

theorem add (h : Holds hash r S) (hinj : Distinguishes hash r.virtualNodes partitions)
    (hS : ↑S ⊆ partitions) (hp : p ∈ partitions) :
  Holds hash (r.addPartition hash p) (insert p S)
  := by
  constructor
  case sorted =>
    rw [addPartition_ring]
    exact h.sorted.foldl_put _ p
  case owner =>
    intro x q
    rw [find?_add, Finset.mem_insert]
    split
    · rename_i hx
      constructor
      · intro hq
        obtain rfl := Option.some.inj hq
        exact ⟨.inl rfl, hx⟩
      · rintro ⟨rfl | hq, hxq⟩
        · rfl
        · rw [hinj.eq_of_mem hp (hS hq) hx hxq]
    · rename_i hx
      rw [h.owner]
      constructor
      · rintro ⟨hq, hxq⟩
        exact ⟨.inr hq, hxq⟩
      · rintro ⟨rfl | hq, hxq⟩
        · exact absurd hxq hx
        · exact ⟨hq, hxq⟩

theorem remove (h : Holds hash r S) (hinj : Distinguishes hash r.virtualNodes partitions)
    (hS : ↑S ⊆ partitions) (hp : p ∈ partitions) :
  Holds hash (r.removePartition hash p) (S.erase p)
  := by
  constructor
  case sorted =>
    rw [removePartition_ring]
    exact h.sorted.foldl_erase _
  case owner =>
    intro x q
    rw [find?_remove, Finset.mem_erase]
    split
    · rename_i hx
      constructor
      · rintro ⟨⟩
      · rintro ⟨⟨hne, hq⟩, hxq⟩
        exact absurd (hinj.eq_of_mem (hS hq) hp hxq hx) hne
    · rename_i hx
      rw [h.owner]
      constructor
      · rintro ⟨hq, hxq⟩
        refine ⟨⟨?_, hq⟩, hxq⟩
        rintro rfl
        exact hx hxq
      · rintro ⟨⟨-, hq⟩, hxq⟩
        exact ⟨hq, hxq⟩

theorem step (h : Holds hash r S) (hinj : Distinguishes hash r.virtualNodes partitions)
    (hS : ↑S ⊆ partitions) {op : Op} (hop : op.partition ∈ partitions) :
  Holds hash (r.step hash op) (op.apply S)
  := by
  cases op with
  | add p => exact h.add hinj hS hop
  | remove p => exact h.remove hinj hS hop

/-- After any operations the ring holds the partitions that are present. -/
theorem run (h : Holds hash r S) (hinj : Distinguishes hash r.virtualNodes partitions)
    (hS : ↑S ⊆ partitions) {ops : List Op} (hops : ∀ op ∈ ops, op.partition ∈ partitions) :
  Holds hash (r.run hash ops) (ops.foldl Op.apply S) ∧ ↑(ops.foldl Op.apply S) ⊆ partitions
  := by
  induction ops generalizing r S with
  | nil => exact ⟨h, hS⟩
  | cons op ops ih =>
      have hop : op.partition ∈ partitions := hops op (by simp)
      apply ih (h.step hinj hS hop)
      · rwa [step_virtualNodes]
      · exact Op.apply_subset hS hop
      · exact fun op' hop' => hops op' (List.mem_cons_of_mem op hop')

theorem mem_iff (h : Holds hash r S) {x : ℕ} :
  (x, p) ∈ r.ring ↔ p ∈ S ∧ x ∈ points hash r.virtualNodes p
  := by
  rw [h.sorted.mem_iff, h.owner]

/-- A ring is determined by the partitions on it. -/
theorem ring_eq {r' : ConsistentHashRing} (h : Holds hash r S) (h' : Holds hash r' S)
    (hnodes : r.virtualNodes = r'.virtualNodes) :
  r.ring = r'.ring
  := by
  apply h.sorted.ext h'.sorted
  intro x
  apply Option.ext
  intro p
  rw [h.owner, h'.owner, hnodes]

/-- The entry that is met first is that of the first virtual node. -/
theorem isFirst (h : Holds hash r S) {k : UInt64} {e : ℕ × ℤ} (he : r.ring.IsNext k.toNat e) :
  ∃ v, IsFirst hash r.virtualNodes S k e.2 v
  := by
  obtain ⟨hmem, hnext⟩ := he
  obtain ⟨hp, hpoint⟩ := h.mem_iff.mp hmem
  obtain ⟨v, hv, hpv⟩ := mem_points.mp hpoint
  have hnode : ∀ q ∈ S, ∀ u < r.virtualNodes.toNat,
      ((hashVirtualNode hash q u).toNat, q) ∈ r.ring := by
    intro q hq u hu
    rw [h.mem_iff]
    exact ⟨hq, mem_points.mpr ⟨u, hu, rfl⟩⟩
  refine ⟨v, hp, hv, ?_⟩
  rw [hpv]
  rcases hnext with ⟨hk, hle⟩ | ⟨hk, hle⟩
  · exact .inl ⟨hk, fun q hq u hu => hle _ (hnode q hq u hu)⟩
  · exact .inr ⟨fun q hq u hu => hk _ (hnode q hq u hu), fun q hq u hu => hle _ (hnode q hq u hu)⟩

end Holds

/-! ### Looking keys up -/

section Lookup

variable {hash : String → UInt64} {r : ConsistentHashRing} {S : Finset ℤ} {partitions : Set ℤ}

/-- A key belongs to the partition of the entry that is met first. -/
theorem partitionFor_eq (hash : String → UInt64) (r : ConsistentHashRing) (key : String) :
  r.partitionFor hash key
    = match r.ring.next? (hash key).toNat with
      | some e => .ok e.2
      | none => .error "consistent hash ring has no partitions"
  := by
  rw [partitionFor, SortedMap.next?]
  cases hring : r.ring with
  | nil => rfl
  | cons first rest =>
      simp only
      cases hbound : SortedMap.lowerBound (first :: rest) (hash key).toNat with
      | some e => rfl
      | none => rfl

theorem partitionFor_congr {r' : ConsistentHashRing} (h : r.ring = r'.ring) (key : String) :
  r.partitionFor hash key = r'.partitionFor hash key
  := by
  rw [partitionFor_eq, partitionFor_eq, h]

/-- A key keeps its partition when points are taken from a ring, unless its own point is. -/
theorem partitionFor_subset {r' : ConsistentHashRing} (hr : r.ring.Sorted) (hr' : r'.ring.Sorted)
    (hsub : r.ring ⊆ r'.ring) {key : String} {e : ℕ × ℤ}
    (he : r'.ring.next? (hash key).toNat = some e) (hmem : e ∈ r.ring) :
  r.partitionFor hash key = r'.partitionFor hash key
  := by
  have hnext : r.ring.next? (hash key).toNat = some e := by
    rw [hr.next?_eq_some_iff]
    exact (hr'.next?_eq_some_iff.mp he).subset hsub hmem
  rw [partitionFor_eq, partitionFor_eq, he, hnext]

theorem add_subset (h : Holds hash r S) (hadd : Holds hash (r.addPartition hash p) (insert p S)) :
  r.ring ⊆ (r.addPartition hash p).ring
  := by
  rintro ⟨x, q⟩ hmem
  obtain ⟨hq, hx⟩ := h.mem_iff.mp hmem
  exact hadd.mem_iff.mpr ⟨Finset.mem_insert_of_mem hq, hx⟩

theorem remove_subset (h : Holds hash r S)
    (hremove : Holds hash (r.removePartition hash p) (S.erase p)) :
  (r.removePartition hash p).ring ⊆ r.ring
  := by
  rintro ⟨x, q⟩ hmem
  obtain ⟨hq, hx⟩ := hremove.mem_iff.mp hmem
  exact h.mem_iff.mpr ⟨Finset.mem_of_mem_erase hq, hx⟩

/-- Adding a partition moves keys to it only. -/
theorem partitionFor_add (h : Holds hash r S)
    (hadd : Holds hash (r.addPartition hash p) (insert p S)) (key : String) :
  (r.addPartition hash p).partitionFor hash key = r.partitionFor hash key
    ∨ (r.addPartition hash p).partitionFor hash key = .ok p
  := by
  have hsub := add_subset h hadd
  cases hnext : (r.addPartition hash p).ring.next? (hash key).toNat with
  | none =>
      left
      rw [SortedMap.next?_eq_none] at hnext
      apply partitionFor_congr
      rw [hnext] at hsub ⊢
      rw [List.subset_nil.mp hsub]
  | some e =>
      by_cases hp : e.2 = p
      · right
        rw [partitionFor_eq, hnext, ← hp]
      · left
        obtain ⟨hmem, -⟩ := hadd.sorted.next?_eq_some_iff.mp hnext
        obtain ⟨hq, hx⟩ := hadd.mem_iff.mp hmem
        symm
        apply partitionFor_subset h.sorted hadd.sorted hsub hnext
        exact h.mem_iff.mpr ⟨Finset.mem_of_mem_insert_of_ne hq hp, hx⟩

/-- Removing a partition moves its own keys only. -/
theorem partitionFor_remove (h : Holds hash r S)
    (hremove : Holds hash (r.removePartition hash p) (S.erase p)) {key : String}
    (hkey : r.partitionFor hash key ≠ .ok p) :
  (r.removePartition hash p).partitionFor hash key = r.partitionFor hash key
  := by
  have hsub := remove_subset h hremove
  cases hnext : r.ring.next? (hash key).toNat with
  | none =>
      rw [SortedMap.next?_eq_none] at hnext
      apply partitionFor_congr
      rw [hnext] at hsub ⊢
      rw [List.subset_nil.mp hsub]
  | some e =>
      have hp : e.2 ≠ p := by
        rintro rfl
        apply hkey
        rw [partitionFor_eq, hnext]
      obtain ⟨hmem, -⟩ := h.sorted.next?_eq_some_iff.mp hnext
      obtain ⟨hq, hx⟩ := h.mem_iff.mp hmem
      apply partitionFor_subset hremove.sorted h.sorted hsub hnext
      exact hremove.mem_iff.mpr ⟨Finset.mem_erase.mpr ⟨hp, hq⟩, hx⟩

/-- A partition without points on the ring need not be counted. -/
theorem Holds.erase (h : Holds hash r S) (hp : ∀ e ∈ r.ring, e.2 ≠ p) :
  Holds hash r (S.erase p)
  := by
  refine ⟨h.sorted, ?_⟩
  intro x q
  rw [h.owner, Finset.mem_erase]
  constructor
  · rintro ⟨hq, hx⟩
    exact ⟨⟨hp (x, q) (h.mem_iff.mpr ⟨hq, hx⟩), hq⟩, hx⟩
  · rintro ⟨⟨-, hq⟩, hx⟩
    exact ⟨hq, hx⟩

end Lookup

/-- A hash with a point of its own for each of three partitions. -/
def spread (name : String) : UInt64 :=
  if name = "0#vnode#0" then 10
  else if name = "1#vnode#0" then 20
  else if name = "2#vnode#0" then 30
  else 15

theorem distinguishes_spread {partitions : Set ℤ}
    (h : ∀ p ∈ partitions, p ∈ ([0, 1, 2] : List ℤ)) :
  Distinguishes spread 1 partitions
  := by
  have hdistinct : ∀ p ∈ ([0, 1, 2] : List ℤ), ∀ q ∈ ([0, 1, 2] : List ℤ),
      spread (virtualNodeName p 0) = spread (virtualNodeName q 0) → p = q := by decide +kernel
  rintro _ ⟨p, hp, v, hv, rfl⟩ _ ⟨q, hq, u, hu, rfl⟩ heq
  obtain rfl : v = 0 := by simpa using hv
  obtain rfl : u = 0 := by simpa using hu
  rw [hdistinct p (h p hp) q (h q hq) heq]

/-- On a ring that any operations have led to: adding a partition moves keys to it only, removing
one moves no keys but its own, and removing a partition that was just added takes all keys back
to where they were. -/
theorem minimal_remapping (hash : String → UInt64) (virtualNodes : ℤ) (ops : List Op) (p : ℤ)
    (hinj : Distinguishes hash virtualNodes {q | q = p ∨ ∃ op ∈ ops, op.partition = q})
    (key : String) :
  let r := (make virtualNodes).run hash ops
  ((r.addPartition hash p).partitionFor hash key = r.partitionFor hash key
      ∨ (r.addPartition hash p).partitionFor hash key = .ok p)
    ∧ (r.partitionFor hash key ≠ .ok p →
        (r.removePartition hash p).partitionFor hash key = r.partitionFor hash key)
    ∧ ((∀ e ∈ r.ring, e.2 ≠ p) →
        ((r.addPartition hash p).removePartition hash p).partitionFor hash key
          = r.partitionFor hash key)
  := by
  intro r
  have hnodes : r.virtualNodes = virtualNodes := run_virtualNodes hash _ ops
  obtain ⟨h, hS⟩ := (Holds.make hash virtualNodes).run hinj (by simp)
    (fun op hop => .inr ⟨op, hop, rfl⟩)
  have hinj' : Distinguishes hash r.virtualNodes {q | q = p ∨ ∃ op ∈ ops, op.partition = q} := by
    rwa [hnodes]
  have hp : p ∈ {q | q = p ∨ ∃ op ∈ ops, op.partition = q} := .inl rfl
  have hadd := h.add hinj' hS hp
  have hremove := h.remove hinj' hS hp
  refine ⟨partitionFor_add h hadd key, partitionFor_remove h hremove, ?_⟩
  intro hring
  have hS' : ↑(insert p (present ops)) ⊆ {q | q = p ∨ ∃ op ∈ ops, op.partition = q} := by
    rw [Finset.coe_insert]
    apply Set.insert_subset hp hS
  have hboth := hadd.remove hinj' hS' hp
  rw [Finset.erase_insert_eq_erase] at hboth
  apply partitionFor_congr
  exact hboth.ring_eq (h.erase hring) rfl

/-- A third partition is added to two, whose point is behind that of the key's partition. -/
theorem minimal_remapping_third :
  let r := (make 1).run spread [.add 0, .add 1]
  r.ring = [(10, 0), (20, 1)] ∧ r.partitionFor spread "key" = .ok 1
    ∧ (r.addPartition spread 2).ring = [(10, 0), (20, 1), (30, 2)]
    ∧ ((r.addPartition spread 2).partitionFor spread "key" = r.partitionFor spread "key"
      ∨ (r.addPartition spread 2).partitionFor spread "key" = .ok 2)
    ∧ ((r.addPartition spread 2).removePartition spread 2).partitionFor spread "key"
      = r.partitionFor spread "key"
  := by
  intro r
  have hremapping := minimal_remapping spread 1 [.add 0, .add 1] 2
    (distinguishes_spread (by
      rintro q (rfl | ⟨op, hop, rfl⟩)
      · decide
      · revert op
        decide)) "key"
  refine ⟨by decide +kernel, rfl, by decide +kernel, hremapping.1, hremapping.2.2 ?_⟩
  decide +kernel

/-- Two histories that leave the same partitions lead to the same ring, on which a key belongs
to the partition of the first virtual node at or behind its hash, or of the first one of all. -/
theorem history_independent (hash : String → UInt64) (virtualNodes : ℤ)
    (hnodes : 1 ≤ virtualNodes) (ops ops' : List Op)
    (hinj : Distinguishes hash virtualNodes
      {q | (∃ op ∈ ops, op.partition = q) ∨ ∃ op ∈ ops', op.partition = q})
    (hpresent : present ops = present ops') :
  let r := (make virtualNodes).run hash ops
  let r' := (make virtualNodes).run hash ops'
  r.ring = r'.ring
    ∧ ∀ key, r.partitionFor hash key = r'.partitionFor hash key
      ∧ (present ops = ∅ →
          r.partitionFor hash key = .error "consistent hash ring has no partitions")
      ∧ (present ops ≠ ∅ → ∃ p v, r.partitionFor hash key = .ok p
          ∧ IsFirst hash virtualNodes (present ops) (hash key) p v)
  := by
  intro r r'
  have hrun : r.virtualNodes = virtualNodes := run_virtualNodes hash _ ops
  have hrun' : r'.virtualNodes = virtualNodes := run_virtualNodes hash _ ops'
  obtain ⟨h, -⟩ := (Holds.make hash virtualNodes).run hinj (by simp)
    (fun op hop => .inl ⟨op, hop, rfl⟩)
  obtain ⟨h', -⟩ := (Holds.make hash virtualNodes).run hinj (by simp)
    (fun op hop => .inr ⟨op, hop, rfl⟩)
  have h : Holds hash r (present ops) := h
  have h' : Holds hash r' (present ops) := by
    rw [hpresent]
    exact h'
  have hring : r.ring = r'.ring := h.ring_eq h' (hrun.trans hrun'.symm)
  refine ⟨hring, fun key => ⟨partitionFor_congr hring key, ?_, ?_⟩⟩
  · intro hempty
    cases hnext : r.ring.next? (hash key).toNat with
    | none => rw [partitionFor_eq, hnext]
    | some e =>
        have hmem := (h.mem_iff.mp (h.sorted.next?_eq_some_iff.mp hnext).1).1
        rw [hempty] at hmem
        exact absurd hmem (Finset.notMem_empty _)
  · intro hne
    cases hnext : r.ring.next? (hash key).toNat with
    | none =>
        -- A partition that is present has a point.
        exfalso
        obtain ⟨q, hq⟩ := Finset.nonempty_iff_ne_empty.mpr hne
        have hmem : ((hashVirtualNode hash q 0).toNat, q) ∈ r.ring := by
          rw [h.mem_iff]
          refine ⟨hq, mem_points.mpr ⟨0, ?_, rfl⟩⟩
          rw [hrun]
          omega
        rw [SortedMap.next?_eq_none.mp hnext] at hmem
        exact absurd hmem List.not_mem_nil
    | some e =>
        obtain ⟨v, hfirst⟩ := h.isFirst (h.sorted.next?_eq_some_iff.mp hnext)
        rw [hrun] at hfirst
        exact ⟨e.2, v, by rw [partitionFor_eq, hnext], hfirst⟩

/-- A history with a partition added twice and another one removed, and a shorter one. -/
theorem history_independent_twice :
  let ops : List Op := [.remove 2, .add 1, .add 2, .add 0, .add 1, .remove 2]
  let ops' : List Op := [.add 0, .add 1]
  let r := (make 1).run spread ops
  let r' := (make 1).run spread ops'
  present ops = {0, 1} ∧ r.ring = r'.ring
    ∧ r.partitionFor spread "key" = r'.partitionFor spread "key"
    ∧ ∃ p v, r.partitionFor spread "key" = .ok p
        ∧ IsFirst spread 1 (present ops) (spread "key") p v
  := by
  intro ops ops' r r'
  have hpresent : present ops = {0, 1} := by decide
  obtain ⟨hring, hkeys⟩ := history_independent spread 1 (by decide) ops ops'
    (distinguishes_spread (by
      rintro q (⟨op, hop, rfl⟩ | ⟨op, hop, rfl⟩)
      · revert op
        decide
      · revert op
        decide)) (by decide)
  refine ⟨hpresent, hring, (hkeys "key").1, (hkeys "key").2.2 ?_⟩
  rw [hpresent]
  decide

end ConsistentHashRing

end Broker
