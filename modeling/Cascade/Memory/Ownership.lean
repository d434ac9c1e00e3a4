import Cascade.Memory.FreeList

/-!
# Who has a block

A block that is not on the list is with a thread: either it is held, or an operation has it, which
took it off the list, or is about to put it there. What an operation has found out about the pool
is written down in `Op.Fits`; it stays true when other threads go on.
-/

namespace Memory

namespace MemoryPool

/-- The operation has the block: `allocate` from when it has taken it to its return, `deallocate`
until it is back on the list, `grow` from when the slab is counted. -/
def Op.owns (m : MemoryPool) (index : UInt32) : Op → Bool
  | .allocCount i | .allocSlab i | .freeLoad i | .freeTable i _ | .freeLink i _ | .freeSwap i _ =>
      i = index
  | .allocated p | .freeCount p | .freeScan p _ _ => m.blockPtr index = some p
  | .growLoad slab | .growLink slab _ | .growSwap slab _ => m.slabOf index = slab
  | _ => false

/-- The operation has the mutex. -/
def Op.growing : Op → Bool
  | .growCheck | .growCount | .storeSlab .. | .storeTable _ | .storeCount _ | .growLoad _
  | .growLink .. | .growSwap .. | .growUnlock _ => true
  | _ => false

/-- How often a thread holds a block. -/
def Thread.holds (m : MemoryPool) (index : UInt32) (t : Thread) : ℕ :=
  t.held.countP fun p => m.blockPtr index = some p

/-- How often a thread has a block. -/
def Thread.share (m : MemoryPool) (index : UInt32) (t : Thread) : ℕ :=
  t.holds m index + (t.op.owns m index).toNat

/-- The address of a block. -/
def IsBlock (m : MemoryPool) (p : ℕ) : Prop :=
  ∃ index, index.toNat < m.blocks ∧ m.blockPtr index = some p

/-- A head that was loaded when the number of changes was `since`. -/
structure Loaded (m : MemoryPool) (oldHead : UInt64) (since : ℕ) : Prop where
  since_le : since ≤ m.changes
  generation : generationOf oldHead = UInt32.ofNat since
  index_lt : (indexOf oldHead).toNat < m.blocks
  unchanged : m.changes = since → m.freeHead = oldHead

/-- There is a slab that is not counted. -/
def Stored (m : MemoryPool) (slab : ℕ) : Prop :=
  ∃ raw, m.slabs slab = some raw ∧ m.fresh raw = true

/-- The local variables of an operation are as the pool is. -/
def Op.Fits (m : MemoryPool) : Op → Prop
  | .allocTable oldHead since | .allocLink oldHead since => m.Loaded oldHead since
  | .allocSwap oldHead next since =>
      m.Loaded oldHead since ∧ (m.changes = since → m.link (indexOf oldHead) = some next)
  | .allocCount i | .allocSlab i | .freeLoad i | .freeTable i _ | .freeLink i _ =>
      i.toNat < m.blocks
  | .freeSwap i oldHead => i.toNat < m.blocks ∧ m.link i = some (indexOf oldHead)
  | .allocated p | .freeCount p => m.IsBlock p
  | .freeScan p n slab =>
      ∃ index, index.toNat < m.blocks ∧ m.blockPtr index = some p
        ∧ slab ≤ m.slabOf index ∧ m.slabOf index < n ∧ n ≤ m.slabCount
  | .storeSlab slab raw => slab = m.slabCount ∧ m.Room slab ∧ m.fresh raw = true
  | .storeTable slab => slab = m.slabCount ∧ m.Room slab ∧ m.Stored slab
  | .storeCount slab => slab = m.slabCount ∧ m.Room slab ∧ m.Stored slab ∧ m.Linked slab
  | .growLoad slab | .growLink slab _ => slab + 1 = m.slabCount ∧ m.Linked slab
  | .growSwap slab oldHead =>
      slab + 1 = m.slabCount ∧ m.Linked slab
        ∧ m.link (m.block slab (m.blocksPerSlab - 1)) = some (indexOf oldHead)
  | .undefined => False
  | _ => True

/-- What a thread holds are blocks, and its operation fits. -/
structure Thread.Fits (m : MemoryPool) (t : Thread) : Prop where
  held : ∀ p ∈ t.held, m.IsBlock p
  op : t.op.Fits m

end MemoryPool

open MemoryPool

variable {m m' : MemoryPool} {op : Op} {t : Thread} {index : UInt32}

/-! ### The head changes -/

/-- An operation that has loaded the head is outdated when the head changes. -/
theorem MemoryPool.Loaded.setHead {oldHead : UInt64} {since : ℕ} (h : m.Loaded oldHead since)
    (newHead : UInt64) :
  (m.setHead newHead).Loaded oldHead since
  where
  since_le := Nat.le_succ_of_le h.since_le
  generation := h.generation
  index_lt := h.index_lt
  unchanged heq := absurd (heq.trans_le h.since_le) (Nat.not_succ_le_self _)

theorem MemoryPool.Op.Fits.setHead (h : op.Fits m) (newHead : UInt64) :
  op.Fits (m.setHead newHead)
  := by
  cases op with
  | allocTable oldHead since => exact h.setHead newHead
  | allocLink oldHead since => exact h.setHead newHead
  | allocSwap oldHead next since =>
      refine ⟨h.1.setHead newHead, fun heq => ?_⟩
      exact absurd (heq.trans_le h.1.since_le) (Nat.not_succ_le_self _)
  | _ => exact h

/-! ### The counter and the mutex -/

/-- No operation knows about them. -/
theorem MemoryPool.Op.Fits.aside (h : op.Fits m) (allocated : UInt64) (growMutex : Bool) :
  op.Fits { m with allocated, growMutex }
  := by
  cases op with
  | allocTable oldHead since => exact ⟨h.since_le, h.generation, h.index_lt, h.unchanged⟩
  | allocLink oldHead since => exact ⟨h.since_le, h.generation, h.index_lt, h.unchanged⟩
  | allocSwap oldHead next since =>
      exact ⟨⟨h.1.since_le, h.1.generation, h.1.index_lt, h.1.unchanged⟩, h.2⟩
  | _ => exact h

/-! ### A link is stored -/

/-- The links of a slab, but for that of the last block, are not changed by a store to another
block. -/
theorem MemoryPool.Linked.storeLink {slab offset : ℕ} (h : m.Linked slab) {slab' : ℕ}
    (hne : slab' = slab → m.blocksPerSlab ≤ offset + 1) (next : UInt32) :
  (m.storeLink slab' offset next).Linked slab
  := by
  obtain ⟨table, htable, heach⟩ := h
  rcases eq_or_ne slab slab' with rfl | hslab
  · refine ⟨Function.update table offset next, ?_, fun i hi => ?_⟩
    · rw [links_storeLink_self, htable]
      rfl
    · have hle := hne rfl
      change i + 1 < m.blocksPerSlab at hi
      rw [Function.update_of_ne (by omega)]
      exact heach i hi
  · exact ⟨table, (links_storeLink_of_ne hslab offset next).trans htable, heach⟩

/-- A store to the link of a block does not concern an operation that does not have the block, when
the block is not the first of the list. -/
theorem MemoryPool.Op.Fits.storeLink (h : op.Fits m) (hvalid : Valid m)
    (hindex : index.toNat < m.blocks)
    (howns : op.owns m index = false) (hhead : indexOf m.freeHead ≠ index) (next : UInt32) :
  op.Fits (m.storeLink (m.slabOf index) (m.offsetOf index) next)
  := by
  cases op with
  | allocTable oldHead since => exact ⟨h.since_le, h.generation, h.index_lt, h.unchanged⟩
  | allocLink oldHead since => exact ⟨h.since_le, h.generation, h.index_lt, h.unchanged⟩
  | allocSwap oldHead next' since =>
      obtain ⟨hloaded, hlink⟩ := h
      refine ⟨⟨hloaded.since_le, hloaded.generation, hloaded.index_lt, hloaded.unchanged⟩, ?_⟩
      intro heq
      have hne : indexOf oldHead ≠ index := hloaded.unchanged heq ▸ hhead
      rw [link_storeLink_of_ne hne]
      exact hlink heq
  | freeSwap i oldHead =>
      have hne : i ≠ index := of_decide_eq_false howns
      exact ⟨h.1, (link_storeLink_of_ne hne next).trans h.2⟩
  | storeCount slab =>
      have hlt := hvalid.slabOf_lt hindex
      exact ⟨h.1, h.2.1, h.2.2.1, Linked.storeLink h.2.2.2 (by have := h.1; omega) next⟩
  | growLoad slab =>
      have hne : m.slabOf index ≠ slab := of_decide_eq_false howns
      exact ⟨h.1, Linked.storeLink h.2 (fun heq => absurd heq hne) next⟩
  | growLink slab oldHead =>
      have hne : m.slabOf index ≠ slab := of_decide_eq_false howns
      exact ⟨h.1, Linked.storeLink h.2 (fun heq => absurd heq hne) next⟩
  | growSwap slab oldHead =>
      have hne : m.slabOf index ≠ slab := of_decide_eq_false howns
      refine ⟨h.1, Linked.storeLink h.2.1 (fun heq => absurd heq hne) next, ?_⟩
      refine (link_storeLink_of_ne ?_ next).trans h.2.2
      intro heq
      have hroom := hvalid.room_of_succ_eq h.1
      have hlast := slabOf_block hroom (Nat.sub_one_lt hvalid.blocksPerSlab_pos.ne')
      exact hne ((congrArg m.slabOf heq).symm.trans hlast)
  | _ => exact h

/-! ### A slab is added -/

/-- Between the two, parts of a slab that is not counted were stored, or it was counted. -/
structure Grows (m m' : MemoryPool) : Prop where
  blocksPerSlab : m'.blocksPerSlab = m.blocksPerSlab
  stride : m'.stride = m.stride
  freeHead : m'.freeHead = m.freeHead
  changes : m'.changes = m.changes
  slabCount : m.slabCount ≤ m'.slabCount
  slabs : ∀ slab < m.slabCount, m'.slabs slab = m.slabs slab
  links : ∀ slab < m.slabCount, m'.links slab = m.links slab

namespace Grows

theorem blocks_le (h : Grows m m') :
  m.blocks ≤ m'.blocks
  := by
  rw [blocks, blocks, h.blocksPerSlab]
  exact Nat.mul_le_mul_right _ h.slabCount

theorem slabOf (h : Grows m m') (index : UInt32) :
  m'.slabOf index = m.slabOf index
  := by
  rw [MemoryPool.slabOf, MemoryPool.slabOf, h.blocksPerSlab]

theorem offsetOf (h : Grows m m') (index : UInt32) :
  m'.offsetOf index = m.offsetOf index
  := by
  rw [MemoryPool.offsetOf, MemoryPool.offsetOf, h.blocksPerSlab]

theorem blockPtr (h : Grows m m') (hvalid : Valid m) (hindex : index.toNat < m.blocks) :
  m'.blockPtr index = m.blockPtr index
  := by
  rw [MemoryPool.blockPtr, MemoryPool.blockPtr, h.slabOf, h.offsetOf, h.stride,
    h.slabs _ (hvalid.slabOf_lt hindex)]

theorem link (h : Grows m m') (hvalid : Valid m) (hindex : index.toNat < m.blocks) :
  m'.link index = m.link index
  := by
  rw [MemoryPool.link, MemoryPool.link, h.slabOf, h.offsetOf,
    h.links _ (hvalid.slabOf_lt hindex)]

theorem isBlock (h : Grows m m') (hvalid : Valid m) {p : ℕ} (hp : m.IsBlock p) :
  m'.IsBlock p
  := by
  obtain ⟨index, hindex, hptr⟩ := hp
  exact ⟨index, hindex.trans_le h.blocks_le, (h.blockPtr hvalid hindex).trans hptr⟩

theorem loaded (h : Grows m m') {oldHead : UInt64} {since : ℕ} (hloaded : m.Loaded oldHead since) :
  m'.Loaded oldHead since
  where
  since_le := hloaded.since_le.trans_eq h.changes.symm
  generation := hloaded.generation
  index_lt := hloaded.index_lt.trans_le h.blocks_le
  unchanged heq := h.freeHead.trans (hloaded.unchanged (h.changes.symm.trans heq))

/-- The operations that do not have the mutex are not concerned. -/
theorem fits (h : Grows m m') (hvalid : Valid m) (hgrowing : op.growing = false)
    (hfits : op.Fits m) :
  op.Fits m'
  := by
  cases op with
  | allocTable oldHead since => exact h.loaded hfits
  | allocLink oldHead since => exact h.loaded hfits
  | allocSwap oldHead next since =>
      refine ⟨h.loaded hfits.1, fun heq => ?_⟩
      rw [h.link hvalid hfits.1.index_lt]
      exact hfits.2 (h.changes.symm.trans heq)
  | allocated p => exact h.isBlock hvalid hfits
  | freeCount p => exact h.isBlock hvalid hfits
  | freeScan p n slab =>
      obtain ⟨index, hindex, hptr, hfrom, hlt, hle⟩ := hfits
      refine ⟨index, hindex.trans_le h.blocks_le, (h.blockPtr hvalid hindex).trans hptr, ?_, ?_,
        hle.trans h.slabCount⟩
      · rwa [h.slabOf]
      · rwa [h.slabOf]
  | freeSwap i oldHead =>
      exact ⟨hfits.1.trans_le h.blocks_le, (h.link hvalid hfits.1).trans hfits.2⟩
  | allocCount i => exact Nat.lt_of_lt_of_le hfits h.blocks_le
  | allocSlab i => exact Nat.lt_of_lt_of_le hfits h.blocks_le
  | freeLoad i => exact Nat.lt_of_lt_of_le hfits h.blocks_le
  | freeTable i oldHead => exact Nat.lt_of_lt_of_le hfits h.blocks_le
  | freeLink i oldHead => exact Nat.lt_of_lt_of_le hfits h.blocks_le
  | undefined => exact hfits
  | idle => trivial
  | allocLoad => trivial
  | growLock => trivial
  | freeDiscount => trivial
  | _ => exact absurd hgrowing (by simp [Op.growing])

/-- A block of a slab that is counted stays where it is. -/
theorem share (h : Grows m m') (hvalid : Valid m) (hindex : index.toNat < m.blocks) (t : Thread) :
  t.share m' index = t.share m index
  := by
  have howns : t.op.owns m' index = t.op.owns m index := by
    unfold Op.owns
    rw [h.blockPtr hvalid hindex, h.slabOf]
  rw [Thread.share, Thread.share, Thread.holds, Thread.holds, h.blockPtr hvalid hindex, howns]

/-- Nobody holds a block of the new slab. -/
theorem holds_new (h : Grows m m') (hvalid : Valid m) (hvalid' : Valid m')
    (hfits : ∀ p ∈ t.held, m.IsBlock p) (hle : m.blocks ≤ index.toNat)
    (hlt : index.toNat < m'.blocks) :
  t.holds m' index = 0
  := by
  rw [Thread.holds, List.countP_eq_zero]
  intro p hp hptr
  obtain ⟨index', hindex', hptr'⟩ := hfits p hp
  have heq := hvalid'.blockPtr_inj hlt (hindex'.trans_le h.blocks_le) (of_decide_eq_true hptr)
    ((h.blockPtr hvalid hindex').trans hptr')
  subst heq
  omega

/-- No operation has a block of the new slab, but for the one that adds it. -/
theorem owns_new (h : Grows m m') (hvalid : Valid m) (hvalid' : Valid m')
    (hgrowing : op.growing = false) (hfits : op.Fits m) (hle : m.blocks ≤ index.toNat)
    (hlt : index.toNat < m'.blocks) :
  op.owns m' index = false
  := by
  -- Neither the index nor the address of another block is that of the new one.
  have hindex : ∀ i : UInt32, i.toNat < m.blocks → decide (i = index) = false := by
    rintro i hi
    rw [decide_eq_false_iff_not]
    rintro rfl
    omega
  have hptr : ∀ p, m.IsBlock p → decide (m'.blockPtr index = some p) = false := by
    rintro p ⟨index', hindex', hptr'⟩
    rw [decide_eq_false_iff_not]
    intro hptr
    have heq := hvalid'.blockPtr_inj hlt (hindex'.trans_le h.blocks_le) hptr
      ((h.blockPtr hvalid hindex').trans hptr')
    subst heq
    omega
  cases op with
  | allocCount i => exact hindex i hfits
  | allocSlab i => exact hindex i hfits
  | freeLoad i => exact hindex i hfits
  | freeTable i oldHead => exact hindex i hfits
  | freeLink i oldHead => exact hindex i hfits
  | freeSwap i oldHead => exact hindex i hfits.1
  | allocated p => exact hptr p hfits
  | freeCount p => exact hptr p hfits
  | freeScan p n slab =>
      obtain ⟨index', hindex', hptr', -⟩ := hfits
      exact hptr p ⟨index', hindex', hptr'⟩
  | growLoad slab => cases hgrowing
  | growLink slab oldHead => cases hgrowing
  | growSwap slab oldHead => cases hgrowing
  | _ => rfl

end Grows

end Memory
