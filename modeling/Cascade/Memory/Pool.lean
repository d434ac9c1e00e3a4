import Mathlib
import Cascade.Library.Concurrent

/-!
# The memory pool

The model of `memory/memory_pool.hpp`. Blocks are numbered through all slabs; the free ones are a
list that is linked through a table beside the blocks, and whose head carries a generation that
is incremented with each change. Threads allocate and deallocate, and a thread that finds the list
empty adds a slab, under a mutex.

Every atomic access is a step of its own, and the computations in between belong to the step
before. Addresses are natural numbers; the memory of a slab is where the allocator of the system
puts it, away from the slabs there are, and its size is taken to fit a `size_t`. What the source
leaves undefined, following a null pointer or deallocating a pointer that is not of the pool, leads
to `Op.undefined`.
-/

namespace Memory

def kMaxSlabs : ℕ := 1024

def kNullIndex : UInt32 := 0xFFFFFFFF

/-- The indices of blocks are below. -/
def kMaxBlocks : ℕ := kNullIndex.toNat

def pack (index generation : UInt32) : UInt64 :=
  (generation.toUInt64 <<< 32) ||| index.toUInt64

def indexOf (v : UInt64) : UInt32 :=
  (v &&& 0xFFFFFFFF).toUInt32

def generationOf (v : UInt64) : UInt32 :=
  (v >>> 32).toUInt32

/-- The pool. Its stride is the size of a type. A pointer to a slab or to a table of links is null
until it is stored. The number of changes of the head is not in the source. -/
structure MemoryPool where
  blocksPerSlab : ℕ
  stride : ℕ+
  freeHead : UInt64
  allocated : UInt64
  slabs : ℕ → Option ℕ
  links : ℕ → Option (ℕ → UInt32)
  slabCount : ℕ
  growMutex : Bool
  changes : ℕ

namespace MemoryPool

/-- The slab of a block. -/
def slabOf (m : MemoryPool) (index : UInt32) : ℕ :=
  index.toNat / m.blocksPerSlab

/-- The position of a block in its slab. -/
def offsetOf (m : MemoryPool) (index : UInt32) : ℕ :=
  index.toNat % m.blocksPerSlab

def blockPtr (m : MemoryPool) (index : UInt32) : Option ℕ :=
  (m.slabs (m.slabOf index)).map (· + m.offsetOf index * m.stride)

/-- The link of a block. -/
def link (m : MemoryPool) (index : UInt32) : Option UInt32 :=
  (m.links (m.slabOf index)).map (· (m.offsetOf index))

/-- Store the link at a position of a slab. -/
def storeLink (m : MemoryPool) (slab offset : ℕ) (next : UInt32) : MemoryPool :=
  let table := (m.links slab).map fun table => Function.update table offset next
  { m with links := Function.update m.links slab table }

/-- Change the head. -/
def setHead (m : MemoryPool) (newHead : UInt64) : MemoryPool :=
  { m with freeHead := newHead, changes := m.changes + 1 }

/-- Memory of the size of a slab that is not in use. -/
def fresh (m : MemoryPool) (raw : ℕ) : Bool :=
  0 < raw && (List.range m.slabCount).all fun slab =>
    match m.slabs slab with
    | none => true
    | some base =>
        base + m.stride * m.blocksPerSlab ≤ raw || raw + m.stride * m.blocksPerSlab ≤ base

/-- The links of a new slab: each block is linked to the next, and the last one not yet. -/
def newLinks (m : MemoryPool) (slab : ℕ) : ℕ → UInt32 :=
  fun i =>
    if i + 1 < m.blocksPerSlab then
      UInt32.ofNat (slab * m.blocksPerSlab) + UInt32.ofNat i + 1
    else 0

/-- Where an operation is, with its local variables, named by the step that comes next. Those that
start with `alloc` belong to `allocate`, where `since` is the number of changes at the load of the
head, with `free` to `deallocate`, and the others to `grow_if_still_empty` and `grow`. -/
inductive Op
  | idle
  | allocLoad
  | allocTable (oldHead : UInt64) (since : ℕ)
  | allocLink (oldHead : UInt64) (since : ℕ)
  | allocSwap (oldHead : UInt64) (next : UInt32) (since : ℕ)
  | allocCount (index : UInt32)
  | allocSlab (index : UInt32)
  | allocated (p : ℕ)
  | growLock
  | growCheck
  | growCount
  | storeSlab (slab raw : ℕ)
  | storeTable (slab : ℕ)
  | storeCount (slab : ℕ)
  | growLoad (slab : ℕ)
  | growLink (slab : ℕ) (oldHead : UInt64)
  | growSwap (slab : ℕ) (oldHead : UInt64)
  | growUnlock (ok : Bool)
  | freeCount (p : ℕ)
  | freeScan (p n slab : ℕ)
  | freeLoad (index : UInt32)
  | freeTable (index : UInt32) (oldHead : UInt64)
  | freeLink (index : UInt32) (oldHead : UInt64)
  | freeSwap (index : UInt32) (oldHead : UInt64)
  | freeDiscount
  | undefined
deriving DecidableEq

/-- What a thread does next, when it does nothing: it allocates, or deallocates one of the
pointers that it holds. -/
inductive Call
  | allocate
  | deallocate (i : ℕ)

/-- What an operation does not decide by itself: whether a `compare_exchange_weak` fails although
the head is the expected one, or memory is refused, and which memory is given. -/
structure Choice where
  call : Call
  fails : Bool
  raw : ℕ

/-- A step of an operation. -/
def advance (choice : Choice) (m : MemoryPool) : Op → MemoryPool × Op
  | .allocLoad =>
      if indexOf m.freeHead = kNullIndex then (m, .growLock)
      else (m, .allocTable m.freeHead m.changes)
  | .allocTable oldHead since =>
      match m.links (m.slabOf (indexOf oldHead)) with
      | none => (m, .undefined)
      | some _ => (m, .allocLink oldHead since)
  | .allocLink oldHead since =>
      match m.link (indexOf oldHead) with
      | none => (m, .undefined)
      | some next => (m, .allocSwap oldHead next since)
  | .allocSwap oldHead next _ =>
      if m.freeHead = oldHead ∧ choice.fails = false then
        (m.setHead (pack next (generationOf oldHead + 1)), .allocCount (indexOf oldHead))
      else (m, .allocLoad)
  | .allocCount index => ({ m with allocated := m.allocated + 1 }, .allocSlab index)
  | .allocSlab index =>
      match m.blockPtr index with
      | none => (m, .undefined)
      | some p => (m, .allocated p)
  | .growLock => if m.growMutex then (m, .growLock) else ({ m with growMutex := true }, .growCheck)
  | .growCheck =>
      if indexOf m.freeHead ≠ kNullIndex then (m, .growUnlock true) else (m, .growCount)
  | .growCount =>
      let base := m.slabCount * m.blocksPerSlab
      if kMaxSlabs ≤ m.slabCount ∨ m.blocksPerSlab = 0 then (m, .growUnlock false)
      else if kMaxBlocks ≤ base ∨ kMaxBlocks - base < m.blocksPerSlab then (m, .growUnlock false)
      else if choice.fails then (m, .growUnlock false)
      else if m.fresh choice.raw then (m, .storeSlab m.slabCount choice.raw)
      else (m, .growCount)
  | .storeSlab slab raw =>
      ({ m with slabs := Function.update m.slabs slab (some raw) }, .storeTable slab)
  | .storeTable slab =>
      ({ m with links := Function.update m.links slab (some (m.newLinks slab)) }, .storeCount slab)
  | .storeCount slab => ({ m with slabCount := slab + 1 }, .growLoad slab)
  | .growLoad slab => (m, .growLink slab m.freeHead)
  | .growLink slab oldHead =>
      (m.storeLink slab (m.blocksPerSlab - 1) (indexOf oldHead), .growSwap slab oldHead)
  | .growSwap slab oldHead =>
      if m.freeHead = oldHead ∧ choice.fails = false then
        (m.setHead (pack (UInt32.ofNat (slab * m.blocksPerSlab)) (generationOf oldHead + 1)),
          .growUnlock true)
      else (m, .growLink slab m.freeHead)
  | .growUnlock ok => ({ m with growMutex := false }, if ok then .allocLoad else .idle)
  | .freeCount p => (m, .freeScan p m.slabCount 0)
  | .freeScan p n slab =>
      if slab < n then
        match m.slabs slab with
        | none => (m, .undefined)
        | some base =>
            if base ≤ p ∧ p < base + m.stride * m.blocksPerSlab then
              (m, .freeLoad (UInt32.ofNat (slab * m.blocksPerSlab + (p - base) / m.stride)))
            else (m, .freeScan p n (slab + 1))
      else (m, .undefined)
  | .freeLoad index => (m, .freeTable index m.freeHead)
  | .freeTable index oldHead =>
      match m.links (m.slabOf index) with
      | none => (m, .undefined)
      | some _ => (m, .freeLink index oldHead)
  | .freeLink index oldHead =>
      (m.storeLink (m.slabOf index) (m.offsetOf index) (indexOf oldHead), .freeSwap index oldHead)
  | .freeSwap index oldHead =>
      if m.freeHead = oldHead ∧ choice.fails = false then
        (m.setHead (pack index (generationOf oldHead + 1)), .freeDiscount)
      else (m, .freeTable index m.freeHead)
  | .freeDiscount => ({ m with allocated := m.allocated - 1 }, .idle)
  | op => (m, op)

/-- A thread: the pointers that it holds, and its operation. -/
structure Thread where
  held : List ℕ
  op : Op

/-- A step of a thread. -/
def Thread.advance (choice : Choice) (m : MemoryPool) (t : Thread) : MemoryPool × Thread :=
  match t.op with
  | .idle =>
      match choice.call with
      | .allocate => (m, { t with op := .allocLoad })
      | .deallocate i =>
          match t.held[i]? with
          | none => (m, t)
          | some p => (m, ⟨t.held.eraseIdx i, if p = 0 then .idle else .freeCount p⟩)
  | .allocated p => (m, ⟨t.held ++ [p], .idle⟩)
  | op =>
      let r := MemoryPool.advance choice m op
      (r.1, { t with op := r.2 })

/-- The threads of a program. -/
def protocol : Protocol MemoryPool Unit Choice Thread where
  start _ := ⟨[], .idle⟩
  advance := Thread.advance

/-- The pool before the constructor has run. As `grow` is what the constructor does, it is as if
the mutex were taken. -/
def empty (blocksPerSlab : ℕ) (stride : ℕ+) : MemoryPool where
  blocksPerSlab
  stride
  freeHead := pack kNullIndex 0
  allocated := 0
  slabs _ := none
  links _ := none
  slabCount := 0
  growMutex := true
  changes := 0

/-- The constructor, if it does not throw. It does `grow`, which takes eight steps when no other
thread is there. -/
def construct (blocksPerSlab : ℕ) (stride : ℕ+) (choice : Choice) : Option MemoryPool :=
  let r := (fun r : MemoryPool × Op => advance choice r.1 r.2)^[8]
    (empty blocksPerSlab stride, .growCount)
  if r.2 = .allocLoad then some r.1 else none

end MemoryPool

end Memory
