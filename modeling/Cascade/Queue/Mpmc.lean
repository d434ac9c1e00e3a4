import Cascade.Library.Concurrent
import Cascade.Queue.Capacity

/-!
# The queue of many producers and consumers

The model of `queue/mpmc_queue.hpp`. A slot has a sequence number besides its value, and the
producers and the consumers claim their positions by incrementing `tail` and `head`. Every atomic
access of an operation is a step of its own, and so are the construction of a value in a slot and
its removal; the computations in between belong to the step before. Differences of positions are
those of the machine, which wrap around.
-/

namespace Queue

variable {α : Type*}

/-- A slot: its sequence number, and the value that was constructed in it. -/
structure Slot (α : Type*) where
  sequence : UInt64
  storage : Option α

structure MpmcQueue (α : Type*) where
  capacity : UInt64
  mask : UInt64
  slots : UInt64 → Slot α
  head : UInt64
  tail : UInt64

namespace MpmcQueue

/-- The constructor, if it returns. The slots are those below the capacity. -/
def construct (capacity : UInt64) : Option (MpmcQueue α) :=
  (roundUpPow2 capacity).map fun capacity =>
    { capacity
      mask := capacity - 1
      slots := fun i => ⟨i, none⟩
      head := 0
      tail := 0 }

/-- The slot of a position. -/
def slot (q : MpmcQueue α) (pos : UInt64) : Slot α :=
  q.slots (pos &&& q.mask)

/-- Change the slot of a position. -/
def setSlot (q : MpmcQueue α) (pos : UInt64) (slot : Slot α) : MpmcQueue α :=
  { q with slots := Function.update q.slots (pos &&& q.mask) slot }

/-- Store a sequence number. -/
def storeSequence (q : MpmcQueue α) (pos sequence : UInt64) : MpmcQueue α :=
  q.setSlot pos { q.slot pos with sequence }

/-- Construct a value in a slot, or destroy the one that is there. -/
def setStorage (q : MpmcQueue α) (pos : UInt64) (storage : Option α) : MpmcQueue α :=
  q.setSlot pos { q.slot pos with storage }

/-- A call of the queue. -/
inductive Call (α : Type*)
  | tryPush (value : α)
  | tryPop

/-- Where an operation is, with its local variables. The constructors that start with `push` and
`pop` are named by the step that comes next. `pushed`, `full`, `popped` and `empty` are those that
have returned; what `popped` returns is what was found in the storage of the slot. -/
inductive Op (α : Type*)
  | pushLoad (value : α)
  | pushCheck (value : α) (pos : UInt64)
  | pushClaim (value : α) (pos : UInt64)
  | pushWrite (value : α) (pos : UInt64)
  | pushPublish (value : α) (pos : UInt64)
  | pushed (value : α) (pos : UInt64)
  | full (value : α)
  | popLoad
  | popCheck (pos : UInt64)
  | popClaim (pos : UInt64)
  | popRead (pos : UInt64)
  | popPublish (pos : UInt64) (result : Option α)
  | popped (pos : UInt64) (result : Option α)
  | empty
deriving DecidableEq

/-- The difference of a sequence number and a position, as a signed number. One that does not fit,
which takes a number of at least `2 ^ 63`, is undefined in the source, and wraps around here. -/
def diff (sequence pos : UInt64) : Int64 :=
  sequence.toInt64 - pos.toInt64

/-- A step of an operation. A `compare_exchange_weak` may fail although the position is the
expected one; whether it does is not up to the operation. -/
def advance (fails : Bool) (q : MpmcQueue α) : Op α → MpmcQueue α × Op α
  | .pushLoad value => (q, .pushCheck value q.tail)
  | .pushCheck value pos =>
      let d := diff (q.slot pos).sequence pos
      if d = 0 then (q, .pushClaim value pos)
      else if d < 0 then (q, .full value)
      else (q, .pushLoad value)
  | .pushClaim value pos =>
      if q.tail = pos ∧ fails = false then ({ q with tail := pos + 1 }, .pushWrite value pos)
      else (q, .pushCheck value q.tail)
  | .pushWrite value pos => (q.setStorage pos (some value), .pushPublish value pos)
  | .pushPublish value pos => (q.storeSequence pos (pos + 1), .pushed value pos)
  | .popLoad => (q, .popCheck q.head)
  | .popCheck pos =>
      let d := diff (q.slot pos).sequence (pos + 1)
      if d = 0 then (q, .popClaim pos)
      else if d < 0 then (q, .empty)
      else (q, .popLoad)
  | .popClaim pos =>
      if q.head = pos ∧ fails = false then ({ q with head := pos + 1 }, .popRead pos)
      else (q, .popCheck q.head)
  | .popRead pos => (q.setStorage pos none, .popPublish pos (q.slot pos).storage)
  | .popPublish pos result => (q.storeSequence pos (pos + q.mask + 1), .popped pos result)
  | op => (q, op)

/-- The operations of a queue. -/
def protocol (α : Type*) : Protocol (MpmcQueue α) (Call α) Bool (Op α) where
  start
    | .tryPush value => .pushLoad value
    | .tryPop => .popLoad
  advance := advance

/-- An operation that has returned. -/
def Op.Returned : Op α → Prop
  | .pushed .. | .full _ | .popped .. | .empty => True
  | _ => False

instance (op : Op α) : Decidable op.Returned :=
  match op with
  | .pushed .. | .full _ | .popped .. | .empty => isTrue trivial
  | .pushLoad _ | .pushCheck .. | .pushClaim .. | .pushWrite .. | .pushPublish .. | .popLoad
  | .popCheck _ | .popClaim _ | .popRead _ | .popPublish .. => isFalse id

/-- An operation that has returned does nothing any more. -/
theorem advance_of_returned {op : Op α} (h : op.Returned) (fails : Bool) (q : MpmcQueue α) :
  advance fails q op = (q, op)
  := by
  cases op <;> first | rfl | exact absurd h id

/-- The capacity does not change. -/
theorem advance_capacity (fails : Bool) (q : MpmcQueue α) (op : Op α) :
  (advance fails q op).1.capacity = q.capacity
  := by
  cases op <;> simp only [advance] <;> first | rfl | (split <;> first | rfl | (split <;> rfl))

/-! ### Slots -/

@[simp]
theorem setSlot_capacity (q : MpmcQueue α) (pos : UInt64) (slot : Slot α) :
  (q.setSlot pos slot).capacity = q.capacity
  := rfl

@[simp]
theorem setSlot_mask (q : MpmcQueue α) (pos : UInt64) (slot : Slot α) :
  (q.setSlot pos slot).mask = q.mask
  := rfl

@[simp]
theorem setSlot_head (q : MpmcQueue α) (pos : UInt64) (slot : Slot α) :
  (q.setSlot pos slot).head = q.head
  := rfl

@[simp]
theorem setSlot_tail (q : MpmcQueue α) (pos : UInt64) (slot : Slot α) :
  (q.setSlot pos slot).tail = q.tail
  := rfl

/-- Changing the slot of a position changes it for the positions that share it. -/
theorem slot_setSlot (q : MpmcQueue α) (pos pos' : UInt64) (slot : Slot α) :
  (q.setSlot pos slot).slot pos'
    = if pos' &&& q.mask = pos &&& q.mask then slot else q.slot pos'
  := by
  change Function.update q.slots (pos &&& q.mask) slot (pos' &&& q.mask) = _
  rw [Function.update_apply]
  rfl

/-- A sequence number and a position do not differ exactly if they are equal. -/
theorem diff_eq_zero_iff (sequence pos : UInt64) :
  diff sequence pos = 0 ↔ sequence = pos
  := by
  rw [diff, Int64.sub_eq_iff_eq_add, Int64.zero_add]
  constructor
  · intro h
    simpa using congrArg Int64.toUInt64 h
  · intro h
    rw [h]

theorem diff_eq (sequence pos : UInt64) :
  diff sequence pos = (sequence - pos).toInt64
  := by
  apply Int64.toBitVec_inj.mp
  rw [diff, Int64.toBitVec_sub]
  simp

/-- A sequence number that is behind, by at most half of the numbers. -/
theorem diff_neg_iff (sequence pos : UInt64) :
  diff sequence pos < 0 ↔ 2 ^ 63 ≤ (sequence - pos).toNat
  := by
  rw [diff_eq, Int64.lt_iff_toInt_lt]
  change (sequence - pos).toBitVec.toInt < 0 ↔ _
  rw [BitVec.toInt_neg_iff]
  change 2 ^ 64 ≤ 2 * (sequence - pos).toNat ↔ _
  omega

end MpmcQueue

end Queue
