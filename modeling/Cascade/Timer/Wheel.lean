import Mathlib

/-!
# The timer wheel

The model of `timer/timer_wheel.hpp`. Timers are kept in a ring of slots, one of which is visited
with each tick. A timer that is due later than in one revolution has the number of revolutions that
its slot is still to be passed over.

The callbacks are of any type; an empty `std::function` is `none`. A `tick` first collects the
callbacks of the timers that are due, under the lock, and then calls them one by one. In between,
that is from inside the callbacks, timers are added and cancelled, so that the calls are steps of
their own.
-/

namespace Timer

/-- A timer in its slot. -/
structure Entry (α : Type) where
  id : UInt64
  remainingRevolutions : UInt64
  callback : Option α

structure TimerWheel (α : Type) where
  slots : List (List (Entry α))
  tickMs : UInt32
  currentSlot : UInt64
  nextId : UInt64
  idToSlot : Finmap fun _ : UInt64 => UInt64

namespace TimerWheel

variable {α : Type}

/-- The largest size of the vector of slots: a slot is a vector, of 24 bytes, and the slots together
have less than `2 ^ 63`. -/
def maxSlots : ℕ := (2 ^ 63 - 1) / 24

/-- The constructor. It throws when the vector would be too large. -/
def make (α : Type) (numSlots : ℕ) (tickMs : UInt32) : Option (TimerWheel α) :=
  if numSlots ≤ maxSlots then some ⟨List.replicate numSlots [], tickMs, 0, 1, ∅⟩ else none

/-- `slots_.size()`. -/
def size (w : TimerWheel α) : UInt64 :=
  UInt64.ofNat w.slots.length

def addTimer (w : TimerWheel α) (delayMs : UInt64) (callback : Option α) :
    UInt64 × TimerWheel α :=
  let ticks := delayMs / w.tickMs.toUInt64
  let ticks := if ticks = 0 then 1 else ticks
  let slotIndex := (w.currentSlot + ticks - 1) % w.size
  let revolutions := (ticks - 1) / w.size
  let id := w.nextId
  (id, { w with
    nextId := id + 1
    slots := w.slots.modify slotIndex.toNat (· ++ [⟨id, revolutions, callback⟩])
    idToSlot := w.idToSlot.insert id slotIndex })

def cancel (w : TimerWheel α) (id : UInt64) : Bool × TimerWheel α :=
  match w.idToSlot.lookup id with
  | none => (false, w)
  | some slot =>
      match w.slots[slot.toNat]? with
      | none => (false, w)
      | some bucket =>
          if bucket.any (·.id = id) then
            (true, { w with
              slots := w.slots.set slot.toNat (bucket.eraseP (·.id = id))
              idToSlot := w.idToSlot.erase id })
          else (false, w)

/-- What `tick` has done with the entries that it has visited. -/
structure Visit (α : Type) where
  due : List (Option α)
  remaining : List (Entry α)
  idToSlot : Finmap fun _ : UInt64 => UInt64

def visit (v : Visit α) (entry : Entry α) : Visit α :=
  if entry.remainingRevolutions = 0 then
    { v with due := v.due ++ [entry.callback], idToSlot := v.idToSlot.erase entry.id }
  else
    let entry := { entry with remainingRevolutions := entry.remainingRevolutions - 1 }
    { v with remaining := v.remaining ++ [entry] }

/-- The part of `tick` under the lock, and the callbacks to call. -/
def collect (w : TimerWheel α) : List (Option α) × TimerWheel α :=
  let bucket := (w.slots[w.currentSlot.toNat]?).getD []
  let v := bucket.foldl visit ⟨[], [], w.idToSlot⟩
  (v.due, { w with
    slots := w.slots.set w.currentSlot.toNat v.remaining
    idToSlot := v.idToSlot
    currentSlot := (w.currentSlot + 1) % w.size })

def pendingCount (w : TimerWheel α) : ℕ :=
  w.idToSlot.keys.card

end TimerWheel

/-! ### Calls -/

/-- What is done with a wheel. A `tick` is followed by as many `fire` as there are callbacks. -/
inductive Call (α : Type)
  | addTimer (delayMs : UInt64) (callback : Option α)
  | cancel (id : UInt64)
  | tick
  | fire

/-- What comes of it. -/
inductive Result (α : Type)
  | added (id : UInt64)
  | cancelled (found : Bool)
  | ticked
  | called (callback : α)
  | nothing

/-- A wheel, and the callbacks that the last `tick` has yet to call. -/
structure Timers (α : Type) where
  wheel : TimerWheel α
  due : List (Option α)

namespace Timers

variable {α : Type}

/-- A call. The wheel does not tick before all callbacks of the last tick were called, and an empty
callback is not called. -/
def step (s : Timers α) : Call α → Timers α × Result α
  | .addTimer delayMs callback =>
      let r := s.wheel.addTimer delayMs callback
      ({ s with wheel := r.2 }, .added r.1)
  | .cancel id =>
      let r := s.wheel.cancel id
      ({ s with wheel := r.2 }, .cancelled r.1)
  | .tick =>
      match s.due with
      | [] =>
          let r := s.wheel.collect
          (⟨r.2, r.1⟩, .ticked)
      | _ :: _ => (s, .nothing)
  | .fire =>
      match s.due with
      | [] => (s, .nothing)
      | none :: due => ({ s with due }, .nothing)
      | some callback :: due => ({ s with due }, .called callback)

end Timers

end Timer
