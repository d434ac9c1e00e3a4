import Cascade.Library.LinkedList
import Cascade.Memory.Pool

/-!
# Blocks, addresses and links

Facts about the memory of a pool by itself: the packed head, the addresses of blocks and the way
back from an address to its block, and the links. They hold for a pool that is `Valid`, which it is
at all times.
-/

namespace Memory

open MemoryPool

/-! ### The head -/

theorem pack_toNat (index generation : UInt32) :
  (pack index generation).toNat = generation.toNat * 2 ^ 32 + index.toNat
  := by
  have hi := index.toNat_lt
  have hg := generation.toNat_lt
  have hshift : (generation.toUInt64 <<< 32).toNat = generation.toNat <<< 32 := by
    rw [UInt64.toNat_shiftLeft, UInt32.toNat_toUInt64]
    change generation.toNat <<< 32 % 2 ^ 64 = generation.toNat <<< 32
    rw [Nat.shiftLeft_eq]
    omega
  rw [pack, UInt64.toNat_or, hshift, UInt32.toNat_toUInt64,
    ← Nat.shiftLeft_add_eq_or_of_lt hi, Nat.shiftLeft_eq]

theorem indexOf_toNat (v : UInt64) :
  (indexOf v).toNat = v.toNat % 2 ^ 32
  := by
  rw [indexOf, UInt64.toNat_toUInt32, UInt64.toNat_and]
  change (v.toNat &&& (2 ^ 32 - 1)) % 2 ^ 32 = _
  rw [Nat.and_two_pow_sub_one_eq_mod, Nat.mod_mod]

theorem generationOf_toNat (v : UInt64) :
  (generationOf v).toNat = v.toNat / 2 ^ 32
  := by
  have hv := v.toNat_lt
  rw [generationOf, UInt64.toNat_toUInt32, UInt64.toNat_shiftRight]
  change (v.toNat >>> 32) % 2 ^ 32 = _
  rw [Nat.shiftRight_eq_div_pow]
  omega

@[simp]
theorem indexOf_pack (index generation : UInt32) :
  indexOf (pack index generation) = index
  := by
  have hi := index.toNat_lt
  rw [← UInt32.toNat_inj, indexOf_toNat, pack_toNat]
  omega

@[simp]
theorem generationOf_pack (index generation : UInt32) :
  generationOf (pack index generation) = generation
  := by
  have hi := index.toNat_lt
  rw [← UInt32.toNat_inj, generationOf_toNat, pack_toNat]
  omega

/-! ### Pools -/

namespace MemoryPool

/-- The number of blocks. -/
def blocks (m : MemoryPool) : ℕ :=
  m.slabCount * m.blocksPerSlab

/-- The size of a slab. -/
def slabSize (m : MemoryPool) : ℕ :=
  m.stride * m.blocksPerSlab

/-- Slabs at these addresses do not overlap. -/
def Apart (m : MemoryPool) (base base' : ℕ) : Prop :=
  base + m.slabSize ≤ base' ∨ base' + m.slabSize ≤ base

end MemoryPool

/-- The slabs that are counted have been stored, away from each other, and all their blocks have
indices. The generation is that of the last change. -/
structure Valid (m : MemoryPool) : Prop where
  blocksPerSlab_pos : 0 < m.blocksPerSlab
  blocks_le : m.blocks ≤ kMaxBlocks
  slabs : ∀ slab < m.slabCount, ∃ base, m.slabs slab = some base ∧ 0 < base
  apart : ∀ slab slab' base base', slab < m.slabCount → slab' < m.slabCount → slab ≠ slab' →
    m.slabs slab = some base → m.slabs slab' = some base' → m.Apart base base'
  links : ∀ slab < m.slabCount, ∃ table, m.links slab = some table
  generation : generationOf m.freeHead = UInt32.ofNat m.changes

namespace Valid

variable {m : MemoryPool} {index index' : UInt32} {p : ℕ}

theorem slabOf_lt (h : Valid m) (hindex : index.toNat < m.blocks) :
  m.slabOf index < m.slabCount
  := by
  rw [slabOf, Nat.div_lt_iff_lt_mul h.blocksPerSlab_pos]
  exact hindex

theorem offsetOf_lt (h : Valid m) (index : UInt32) :
  m.offsetOf index < m.blocksPerSlab
  := Nat.mod_lt _ h.blocksPerSlab_pos

/-- A block is determined by its slab and its position in it. -/
theorem eq_of_slabOf_offsetOf (hslab : m.slabOf index = m.slabOf index')
    (hoffset : m.offsetOf index = m.offsetOf index') :
  index = index'
  := by
  rw [slabOf, slabOf] at hslab
  rw [offsetOf, offsetOf] at hoffset
  rw [← UInt32.toNat_inj, ← Nat.div_add_mod index.toNat m.blocksPerSlab, hslab, hoffset,
    Nat.div_add_mod]

theorem ne_kNullIndex (h : Valid m) (hindex : index.toNat < m.blocks) :
  index ≠ kNullIndex
  := by
  rintro rfl
  exact absurd (lt_of_lt_of_le hindex h.blocks_le) (lt_irrefl _)

/-! ### Addresses -/

/-- The address of a block, within its slab. -/
theorem exists_blockPtr (h : Valid m) (hindex : index.toNat < m.blocks) :
  ∃ base, m.slabs (m.slabOf index) = some base
    ∧ m.blockPtr index = some (base + m.offsetOf index * m.stride)
    ∧ 0 < base ∧ m.offsetOf index * m.stride < m.slabSize
  := by
  obtain ⟨base, hbase, hpos⟩ := h.slabs _ (h.slabOf_lt hindex)
  refine ⟨base, hbase, by rw [blockPtr, hbase]; rfl, hpos, ?_⟩
  rw [slabSize, Nat.mul_comm m.stride]
  exact Nat.mul_lt_mul_of_pos_right (h.offsetOf_lt index) m.stride.pos

/-- The slab that contains an address is the slab of the block. -/
theorem slab_eq_of_mem (h : Valid m) (hindex : index.toNat < m.blocks)
    (hp : m.blockPtr index = some p) {slab base : ℕ} (hslab : slab < m.slabCount)
    (hbase : m.slabs slab = some base) (hmem : base ≤ p ∧ p < base + m.slabSize) :
  slab = m.slabOf index
  := by
  by_contra hne
  obtain ⟨base', hbase', hptr, -, hlt⟩ := h.exists_blockPtr hindex
  obtain rfl := Option.some.inj (hptr.symm.trans hp)
  have hapart := h.apart _ _ _ _ hslab (h.slabOf_lt hindex) hne hbase hbase'
  rw [Apart] at hapart
  omega

/-- Blocks have different addresses. -/
theorem blockPtr_inj (h : Valid m) (hindex : index.toNat < m.blocks)
    (hindex' : index'.toNat < m.blocks) (hp : m.blockPtr index = some p)
    (hp' : m.blockPtr index' = some p) :
  index = index'
  := by
  obtain ⟨base, hbase, hptr, -, hlt⟩ := h.exists_blockPtr hindex
  obtain rfl := Option.some.inj (hptr.symm.trans hp)
  have hslab := h.slab_eq_of_mem hindex' hp' (h.slabOf_lt hindex) hbase (by omega)
  apply eq_of_slabOf_offsetOf hslab
  rw [blockPtr, ← hslab, hbase] at hp'
  have heq := Nat.add_left_cancel (Option.some.inj hp')
  exact (Nat.eq_of_mul_eq_mul_right m.stride.pos heq).symm

/-- The index that is computed from the address of a block. -/
theorem index_of_blockPtr {base : ℕ}
    (hbase : m.slabs (m.slabOf index) = some base) (hp : m.blockPtr index = some p) :
  UInt32.ofNat (m.slabOf index * m.blocksPerSlab + (p - base) / m.stride) = index
  := by
  rw [blockPtr, hbase] at hp
  obtain rfl := Option.some.inj hp
  rw [Nat.add_sub_cancel_left, Nat.mul_div_cancel _ m.stride.pos, slabOf, offsetOf, Nat.mul_comm,
    Nat.div_add_mod, UInt32.ofNat_toNat]

/-! ### Links -/

theorem exists_link (h : Valid m) (hindex : index.toNat < m.blocks) :
  ∃ next, m.link index = some next
  := by
  obtain ⟨table, htable⟩ := h.links _ (h.slabOf_lt hindex)
  exact ⟨table (m.offsetOf index), by rw [link, htable]; rfl⟩

end Valid

section StoreLink

variable {m : MemoryPool} {index index' : UInt32} {slab slab' : ℕ}

theorem links_storeLink_self (offset : ℕ) (next : UInt32) :
  (m.storeLink slab offset next).links slab
    = (m.links slab).map fun table => Function.update table offset next
  := Function.update_self ..

theorem links_storeLink_of_ne (hne : slab' ≠ slab) (offset : ℕ) (next : UInt32) :
  (m.storeLink slab offset next).links slab' = m.links slab'
  := Function.update_of_ne hne ..

/-- Storing a link changes no other. -/
theorem link_storeLink_of_ne (hne : index' ≠ index) (next : UInt32) :
  (m.storeLink (m.slabOf index) (m.offsetOf index) next).link index' = m.link index'
  := by
  change ((m.storeLink _ _ next).links (m.slabOf index')).map _ = (m.links _).map _
  rcases eq_or_ne (m.slabOf index') (m.slabOf index) with hslab | hslab
  · have hoffset : m.offsetOf index' ≠ m.offsetOf index :=
      fun hoffset => hne (Valid.eq_of_slabOf_offsetOf hslab hoffset)
    rw [hslab, links_storeLink_self, Option.map_map]
    congr 1
    funext table
    apply Function.update_of_ne hoffset
  · rw [links_storeLink_of_ne hslab]
    rfl

theorem link_storeLink_self {old : UInt32} (h : m.link index = some old) (next : UInt32) :
  (m.storeLink (m.slabOf index) (m.offsetOf index) next).link index = some next
  := by
  obtain ⟨table, htable, -⟩ := Option.map_eq_some_iff.mp h
  change ((m.storeLink _ _ next).links (m.slabOf index)).map _ = _
  rw [links_storeLink_self, htable]
  exact congrArg some (Function.update_self ..)

end StoreLink

/-! ### Changes -/

namespace Valid

variable {m : MemoryPool}

theorem aside (h : Valid m) (allocated : UInt64) (growMutex : Bool) :
  Valid { m with allocated, growMutex }
  := { h with }

/-- The generation goes with the changes of the head. -/
theorem setHead (h : Valid m) (index : UInt32) :
  Valid (m.setHead (pack index (generationOf m.freeHead + 1)))
  where
  blocksPerSlab_pos := h.blocksPerSlab_pos
  blocks_le := h.blocks_le
  slabs := h.slabs
  apart := h.apart
  links := h.links
  generation := by
    change generationOf (pack index _) = UInt32.ofNat (m.changes + 1)
    rw [generationOf_pack, h.generation, UInt32.ofNat_add]
    rfl

theorem storeLink (h : Valid m) (slab offset : ℕ) (next : UInt32) :
  Valid (m.storeLink slab offset next)
  where
  blocksPerSlab_pos := h.blocksPerSlab_pos
  blocks_le := h.blocks_le
  slabs := h.slabs
  apart := h.apart
  links slab' hslab' := by
    obtain ⟨table, htable⟩ := h.links slab' hslab'
    rcases eq_or_ne slab' slab with rfl | hne
    · exact ⟨Function.update table offset next, by rw [links_storeLink_self, htable]; rfl⟩
    · exact ⟨table, (links_storeLink_of_ne hne offset next).trans htable⟩
  generation := h.generation

end Valid

/-! ### A new slab -/

namespace MemoryPool

/-- The block at a position of a slab. -/
def block (m : MemoryPool) (slab i : ℕ) : UInt32 :=
  UInt32.ofNat (slab * m.blocksPerSlab + i)

/-- The blocks of a slab. -/
def slabBlocks (m : MemoryPool) (slab : ℕ) : List UInt32 :=
  (List.range m.blocksPerSlab).map (m.block slab)

/-- The blocks of a slab are linked, each to the next. -/
def Linked (m : MemoryPool) (slab : ℕ) : Prop :=
  ∃ table, m.links slab = some table
    ∧ ∀ i, i + 1 < m.blocksPerSlab → table i = m.block slab (i + 1)

/-- A slab that has all its blocks below the null index. -/
def Room (m : MemoryPool) (slab : ℕ) : Prop :=
  (slab + 1) * m.blocksPerSlab ≤ kMaxBlocks

end MemoryPool

variable {m : MemoryPool} {slab i : ℕ}

/-- The slab that was counted last. -/
theorem Valid.room_of_succ_eq (h : Valid m) (hslab : slab + 1 = m.slabCount) :
  m.Room slab
  := by
  rw [Room, hslab]
  exact h.blocks_le

theorem newLinks_of_lt (h : i + 1 < m.blocksPerSlab) :
  m.newLinks slab i = m.block slab (i + 1)
  := by
  rw [newLinks, if_pos h, block, ← Nat.add_assoc, UInt32.ofNat_add, UInt32.ofNat_add]
  rfl

theorem block_toNat (hroom : m.Room slab) (hi : i < m.blocksPerSlab) :
  (m.block slab i).toNat = slab * m.blocksPerSlab + i
  := by
  rw [Room, Nat.succ_mul, kMaxBlocks] at hroom
  have hnull := kNullIndex.toNat_lt
  apply UInt32.toNat_ofNat_of_lt'
  change _ < 2 ^ 32
  omega

theorem slabOf_block (hroom : m.Room slab) (hi : i < m.blocksPerSlab) :
  m.slabOf (m.block slab i) = slab
  := by
  rw [slabOf, block_toNat hroom hi, Nat.mul_comm, Nat.mul_add_div (by omega),
    Nat.div_eq_of_lt hi, Nat.add_zero]

theorem offsetOf_block (hroom : m.Room slab) (hi : i < m.blocksPerSlab) :
  m.offsetOf (m.block slab i) = i
  := by
  rw [offsetOf, block_toNat hroom hi, Nat.mul_comm, Nat.mul_add_mod, Nat.mod_eq_of_lt hi]

theorem block_ne_kNullIndex (hroom : m.Room slab) (hi : i < m.blocksPerSlab) :
  m.block slab i ≠ kNullIndex
  := by
  intro heq
  have hlt := block_toNat hroom hi
  rw [heq] at hlt
  rw [Room, Nat.succ_mul, kMaxBlocks] at hroom
  omega

theorem mem_slabBlocks (hroom : m.Room slab) (hpos : 0 < m.blocksPerSlab) {index : UInt32} :
  index ∈ m.slabBlocks slab ↔ m.slabOf index = slab
  := by
  rw [slabBlocks, List.mem_map]
  constructor
  · rintro ⟨i, hi, rfl⟩
    apply slabOf_block hroom (List.mem_range.mp hi)
  · rintro rfl
    have hlt : m.offsetOf index < m.blocksPerSlab := Nat.mod_lt _ hpos
    refine ⟨m.offsetOf index, List.mem_range.mpr hlt, ?_⟩
    apply Valid.eq_of_slabOf_offsetOf (slabOf_block hroom hlt) (offsetOf_block hroom hlt)

theorem nodup_slabBlocks (hroom : m.Room slab) :
  (m.slabBlocks slab).Nodup
  := by
  apply List.Nodup.map_on _ List.nodup_range
  intro i hi j hj heq
  rw [← offsetOf_block hroom (List.mem_range.mp hi), heq,
    offsetOf_block hroom (List.mem_range.mp hj)]

theorem count_slabBlocks (hroom : m.Room slab) (hpos : 0 < m.blocksPerSlab) (index : UInt32) :
  (m.slabBlocks slab).count index = if m.slabOf index = slab then 1 else 0
  := by
  split
  · rename_i hindex
    exact List.count_eq_one_of_mem (nodup_slabBlocks hroom) ((mem_slabBlocks hroom hpos).mpr hindex)
  · rename_i hindex
    exact List.count_eq_zero.mpr fun hmem => hindex ((mem_slabBlocks hroom hpos).mp hmem)

/-- Links lead from the first block of a slab through all of them, and where the last is linked
to. -/
theorem path_slabBlocks (hroom : m.Room slab) (hpos : 0 < m.blocksPerSlab)
    (hlinked : m.Linked slab) {next : UInt32}
    (hlast : m.link (m.block slab (m.blocksPerSlab - 1)) = some next) :
  LinkedList.Path m.link kNullIndex (m.block slab 0) (m.slabBlocks slab) next
  := by
  obtain ⟨table, htable, heach⟩ := hlinked
  obtain ⟨n, hn⟩ := Nat.exists_eq_succ_of_ne_zero hpos.ne'
  rw [hn] at hlast
  rw [slabBlocks, hn]
  apply LinkedList.Path.range
  · intro i hi
    apply block_ne_kNullIndex hroom (by omega)
  · intro i hi
    have hlt : i < m.blocksPerSlab := by omega
    rw [link, slabOf_block hroom hlt, offsetOf_block hroom hlt, htable, ← heach i (by omega)]
    rfl
  · exact hlast

end Memory
