import Cascade.Timer.Wheel

/-!
# The connection manager

The model of `net/connection_manager.hpp`. Each connection has a timer, which is started again with
each heartbeat, and a connection whose timer expires is reported. The callback of a timer is
`handle_timeout` for a connection, so it is the number of the connection. What is called at a
timeout does not use the manager, so that a tick of the wheel is one step, with all its callbacks.

What the manager is for is told by when the connections were last seen (`Liveness`).
-/

namespace Net

open Timer

abbrev ConnectionId : Type := ℤ

structure ConnectionManager where
  wheel : TimerWheel ConnectionId
  timeoutMs : UInt64
  timers : Finmap fun _ : ConnectionId => UInt64

namespace ConnectionManager

def armTimerLocked (m : ConnectionManager) (id : ConnectionId) : ConnectionManager :=
  let r := m.wheel.addTimer m.timeoutMs (some id)
  { m with wheel := r.2, timers := m.timers.insert id r.1 }

def registerConnection (m : ConnectionManager) (id : ConnectionId) : ConnectionManager :=
  m.armTimerLocked id

def unregisterConnection (m : ConnectionManager) (id : ConnectionId) : ConnectionManager :=
  match m.timers.lookup id with
  | none => m
  | some timerId =>
      { m with wheel := (m.wheel.cancel timerId).2, timers := m.timers.erase id }

def onHeartbeatReceived (m : ConnectionManager) (id : ConnectionId) : ConnectionManager :=
  match m.timers.lookup id with
  | none => m
  | some timerId => { m with wheel := (m.wheel.cancel timerId).2 }.armTimerLocked id

/-- What `handle_timeout` does before it calls `on_timeout_`. -/
def handleTimeout (m : ConnectionManager) (id : ConnectionId) : ConnectionManager :=
  { m with timers := m.timers.erase id }

/-- A tick of the wheel, and the connections for which `on_timeout_` is called. -/
def tick (m : ConnectionManager) : List ConnectionId × ConnectionManager :=
  let r := m.wheel.collect
  let expired := r.1.reduceOption
  (expired, expired.foldl handleTimeout { m with wheel := r.2 })

/-- A manager of a new wheel. -/
def make (numSlots : ℕ) (tickMs : UInt32) (timeoutMs : UInt64) : Option ConnectionManager :=
  (TimerWheel.make ConnectionId numSlots tickMs).map (⟨·, timeoutMs, ∅⟩)

/-- The timers in the wheel that are there for a connection. -/
def timersOf (m : ConnectionManager) (id : ConnectionId) : List UInt64 :=
  m.wheel.slots.flatMap fun bucket => (bucket.filter (·.callback = some id)).map Entry.id

/-! ### Calls -/

inductive Call
  | registerConnection (id : ConnectionId)
  | unregisterConnection (id : ConnectionId)
  | onHeartbeatReceived (id : ConnectionId)
  | tick

def step (m : ConnectionManager) : Call → ConnectionManager
  | .registerConnection id => m.registerConnection id
  | .unregisterConnection id => m.unregisterConnection id
  | .onHeartbeatReceived id => m.onHeartbeatReceived id
  | .tick => m.tick.2

/-- A connection is registered that is not tracked, and a timer that is added does not get the id of
one that is pending. -/
def Allowed (m : ConnectionManager) : Call → Prop
  | .registerConnection id =>
      m.timers.lookup id = none ∧ m.wheel.idToSlot.lookup m.wheel.nextId = none
  | .onHeartbeatReceived _ => m.wheel.idToSlot.lookup m.wheel.nextId = none
  | _ => True

instance (m : ConnectionManager) (call : Call) : Decidable (m.Allowed call) :=
  match call with
  | .registerConnection _ => inferInstanceAs (Decidable (_ ∧ _))
  | .onHeartbeatReceived _ => inferInstanceAs (Decidable (_ = _))
  | .unregisterConnection _ => .isTrue trivial
  | .tick => .isTrue trivial

end ConnectionManager

/-! ### Liveness -/

/-- The number of ticks, and when a connection that is registered was last seen: the number of ticks
before its latest registration or heartbeat. -/
structure Liveness where
  ticks : ℕ
  lastSeen : ConnectionId → Option ℕ

namespace Liveness

open ConnectionManager

/-- No connection is registered. -/
def empty : Liveness := ⟨0, fun _ => none⟩

/-- At the next tick, the connection was last seen exactly `k` ticks before. -/
def expires (k : ℕ) (l : Liveness) (id : ConnectionId) : Bool :=
  (l.lastSeen id).any fun seen => seen + k = l.ticks + 1

/-- What a call means. A connection that expires is no longer registered. -/
def observe (k : ℕ) (l : Liveness) : Call → Liveness
  | .registerConnection id => { l with lastSeen := Function.update l.lastSeen id (some l.ticks) }
  | .unregisterConnection id => { l with lastSeen := Function.update l.lastSeen id none }
  | .onHeartbeatReceived id =>
      match l.lastSeen id with
      | none => l
      | some _ => { l with lastSeen := Function.update l.lastSeen id (some l.ticks) }
  | .tick => ⟨l.ticks + 1, fun id => if l.expires k id then none else l.lastSeen id⟩

end Liveness

/-- A manager, and what there is to know about the connections. -/
structure Supervised where
  manager : ConnectionManager
  liveness : Liveness

namespace Supervised

open ConnectionManager

/-- After so many ticks without being seen, a connection expires. -/
def timeoutTicks (m : ConnectionManager) : ℕ :=
  max 1 (m.timeoutMs.toNat / m.wheel.tickMs.toNat)

def step (s : Supervised) (call : Call) : Supervised :=
  ⟨s.manager.step call, s.liveness.observe (timeoutTicks s.manager) call⟩

/-- Calls one after the other. -/
def run (s : Supervised) (calls : List Call) : Supervised :=
  calls.foldl step s

/-- A call is allowed when it is made. -/
def Allowed (s : Supervised) (call : Call) : Prop := s.manager.Allowed call

instance (s : Supervised) (call : Call) : Decidable (s.Allowed call) :=
  inferInstanceAs (Decidable (s.manager.Allowed call))

end Supervised

end Net
