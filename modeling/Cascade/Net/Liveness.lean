import Cascade.Library.Runs
import Cascade.Net.ConnectionTimers

/-!
# Connections that are not seen expire

The timers of the manager and the timers in the wheel are kept in step: a connection that is
tracked has one timer, which was added when the connection was last seen. Only a registration of a
connection that is tracked already breaks this, as the timer that is there is forgotten, and stays
in the wheel.
-/

namespace Net

open Timer ConnectionManager Runs

variable {numSlots : ℕ} {tickMs : UInt32} {timeoutMs : UInt64} {id : ConnectionId}

/-- The timer that was recorded before is forgotten. -/
theorem armTimerLocked_erase (w : TimerWheel ConnectionId) (timeoutMs : UInt64)
    (timers : Finmap fun _ : ConnectionId => UInt64) (id : ConnectionId) :
  ConnectionManager.armTimerLocked ⟨w, timeoutMs, timers.erase id⟩ id
    = ConnectionManager.armTimerLocked ⟨w, timeoutMs, timers⟩ id
  := by
  have hinsert : ∀ timerId, (timers.erase id).insert id timerId = timers.insert id timerId := by
    intro timerId
    apply Finmap.ext_lookup
    intro id'
    rcases eq_or_ne id' id with rfl | hne
    · rw [Finmap.lookup_insert, Finmap.lookup_insert]
    · rw [Finmap.lookup_insert_of_ne _ hne, Finmap.lookup_insert_of_ne _ hne,
        Finmap.lookup_erase_ne hne]
  rw [ConnectionManager.armTimerLocked, ConnectionManager.armTimerLocked, hinsert]

theorem foldl_handleTimeout (m : ConnectionManager) (ids : List ConnectionId) :
  ids.foldl handleTimeout m
    = { m with timers := ids.foldl (fun timers id => timers.erase id) m.timers }
  := by
  induction ids generalizing m with
  | nil => rfl
  | cons id ids ih =>
      rw [List.foldl_cons, ih]
      rfl

/-- A connection has one timer, if it is tracked, and none otherwise, and it was added when the
connection was last seen. -/
structure Tracks (numSlots : ℕ) (tickMs : UInt32) (timeoutMs : UInt64) (s : Supervised)
    (pending : ConnectionId → Option (UInt64 × ℕ)) : Prop where
  holds : ∃ h, Holds numSlots tickMs timeoutMs s.manager.wheel s.liveness.ticks pending h
  timeoutMs_eq : s.manager.timeoutMs = timeoutMs
  timers : ∀ id, s.manager.timers.lookup id = (pending id).map Prod.fst
  lastSeen : ∀ id, s.liveness.lastSeen id = (pending id).map Prod.snd

namespace Tracks

variable {m : ConnectionManager} {l : Liveness} {pending : ConnectionId → Option (UInt64 × ℕ)}

theorem start (hpos : 0 < numSlots) (htick : 0 < tickMs.toNat)
    (hmake : ConnectionManager.make numSlots tickMs timeoutMs = some m) :
  Tracks numSlots tickMs timeoutMs ⟨m, .empty⟩ fun _ => none
  := by
  obtain ⟨w, hw, rfl⟩ := Option.map_eq_some_iff.mp hmake
  exact ⟨⟨.empty, Holds.start hpos htick hw⟩, rfl, fun _ => rfl, fun _ => rfl⟩

/-- A connection that is not tracked was not seen. -/
theorem lastSeen_eq_none_iff (htracks : Tracks numSlots tickMs timeoutMs ⟨m, l⟩ pending) :
  l.lastSeen id = none ↔ m.timers.lookup id = none
  := by
  have hseen : l.lastSeen id = (pending id).map Prod.snd := htracks.lastSeen id
  have htimer : m.timers.lookup id = (pending id).map Prod.fst := htracks.timers id
  rw [hseen, htimer, Option.map_eq_none_iff, Option.map_eq_none_iff]

/-- The timer of a connection. -/
theorem exists_pending (htracks : Tracks numSlots tickMs timeoutMs ⟨m, l⟩ pending)
    {timerId : UInt64} (hlookup : m.timers.lookup id = some timerId) :
  ∃ added, pending id = some (timerId, added)
  := by
  obtain ⟨⟨timerId', added⟩, hpending, rfl⟩ :=
    Option.map_eq_some_iff.mp ((htracks.timers id).symm.trans hlookup)
  exact ⟨added, hpending⟩

/-- A connection is seen, and gets a timer. -/
theorem armTimerLocked (htracks : Tracks numSlots tickMs timeoutMs ⟨m, l⟩ pending)
    (hshort : timeoutMs.toNat < 2 ^ 63) (hlookup : m.timers.lookup id = none)
    (hfresh : m.wheel.idToSlot.lookup m.wheel.nextId = none) :
  ∃ pending', Tracks numSlots tickMs timeoutMs ⟨m.armTimerLocked id,
    { l with lastSeen := Function.update l.lastSeen id (some l.ticks) }⟩ pending'
  := by
  obtain ⟨h, hholds⟩ := htracks.holds
  have htimeout : m.timeoutMs = timeoutMs := htracks.timeoutMs_eq
  have hid : pending id = none :=
    Option.map_eq_none_iff.mp ((htracks.timers id).symm.trans hlookup)
  refine ⟨Function.update pending id (some (m.wheel.nextId, l.ticks)), ?_, htimeout, ?_, ?_⟩
  · change ∃ h, Holds numSlots tickMs timeoutMs (m.wheel.addTimer m.timeoutMs (some id)).2
      l.ticks _ h
    rw [htimeout]
    exact hholds.addTimer hshort hid hfresh
  · intro id'
    change (m.timers.insert id m.wheel.nextId).lookup id' = _
    rcases eq_or_ne id' id with rfl | hne
    · rw [Finmap.lookup_insert, Function.update_self]
      rfl
    · rw [Finmap.lookup_insert_of_ne _ hne, Function.update_of_ne hne]
      apply htracks.timers
  · intro id'
    simp only [Function.update_apply]
    split
    · rfl
    · apply htracks.lastSeen

/-- Without its timer, a connection is not tracked. -/
theorem cancel (htracks : Tracks numSlots tickMs timeoutMs ⟨m, l⟩ pending) {timerId : UInt64}
    (hlookup : m.timers.lookup id = some timerId) :
  ∃ pending', Tracks numSlots tickMs timeoutMs
    ⟨{ m with wheel := (m.wheel.cancel timerId).2, timers := m.timers.erase id },
      { l with lastSeen := Function.update l.lastSeen id none }⟩ pending'
  := by
  obtain ⟨h, hholds⟩ := htracks.holds
  obtain ⟨added, hid⟩ := htracks.exists_pending hlookup
  refine ⟨_, hholds.cancel hid, htracks.timeoutMs_eq, ?_, ?_⟩
  · intro id'
    change (m.timers.erase id).lookup id' = _
    rcases eq_or_ne id' id with rfl | hne
    · rw [Finmap.lookup_erase, Function.update_self]
      rfl
    · rw [Finmap.lookup_erase_ne hne, Function.update_of_ne hne]
      apply htracks.timers
  · intro id'
    simp only [Function.update_apply]
    split
    · rfl
    · apply htracks.lastSeen

/-- The connections that expire are those that were last seen so long ago. -/
theorem mem_tick_iff (htracks : Tracks numSlots tickMs timeoutMs ⟨m, l⟩ pending) :
  id ∈ m.tick.1 ↔ l.expires (max 1 (timeoutMs.toNat / tickMs.toNat)) id = true
  := by
  obtain ⟨h, hholds⟩ := htracks.holds
  have hseen : l.lastSeen id = (pending id).map Prod.snd := htracks.lastSeen id
  refine hholds.mem_collect_iff.trans ?_
  rw [Liveness.expires, hseen, Option.any_eq_true]
  constructor
  · rintro ⟨timerId, added, hid, hdue⟩
    exact ⟨added, by rw [hid]; rfl, decide_eq_true hdue⟩
  · rintro ⟨added, hadded, hdue⟩
    obtain ⟨⟨timerId, added'⟩, hid, rfl⟩ := Option.map_eq_some_iff.mp hadded
    exact ⟨timerId, added', hid, of_decide_eq_true hdue⟩

theorem timeoutTicks_eq {s : Supervised} (htracks : Tracks numSlots tickMs timeoutMs s pending) :
  Supervised.timeoutTicks s.manager = max 1 (timeoutMs.toNat / tickMs.toNat)
  := by
  obtain ⟨h, hholds⟩ := htracks.holds
  rw [Supervised.timeoutTicks, htracks.timeoutMs_eq, hholds.sim.tickMs_eq]

theorem tick (htracks : Tracks numSlots tickMs timeoutMs ⟨m, l⟩ pending) :
  ∃ pending', Tracks numSlots tickMs timeoutMs (Supervised.step ⟨m, l⟩ .tick) pending'
  := by
  obtain ⟨h, hholds⟩ := htracks.holds
  have hticks : Supervised.timeoutTicks m = _ := htracks.timeoutTicks_eq
  have hmanager : m.tick.2 = { m with
      wheel := m.wheel.collect.2
      timers := m.tick.1.foldl (fun timers id => timers.erase id) m.timers } :=
    foldl_handleTimeout ..
  rw [Supervised.step, ConnectionManager.step, hmanager, hticks]
  refine ⟨_, ⟨_, hholds.collect⟩, htracks.timeoutMs_eq, fun id => ?_, fun id => ?_⟩
  · change Finmap.lookup id (m.tick.1.foldl _ m.timers)
      = Option.map _ (if id ∈ m.tick.1 then _ else _)
    rw [lookup_foldl_erase]
    split
    · rfl
    · apply htracks.timers
  · change (if l.expires _ id then none else l.lastSeen id)
      = Option.map _ (if id ∈ m.tick.1 then _ else _)
    simp only [htracks.mem_tick_iff]
    split
    · rfl
    · apply htracks.lastSeen

/-! ### Runs -/

/-- A call that is allowed keeps the timers in step. -/
theorem step (htracks : Tracks numSlots tickMs timeoutMs ⟨m, l⟩ pending)
    (hshort : timeoutMs.toNat < 2 ^ 63) {call : Call} (hallowed : m.Allowed call) :
  ∃ pending', Tracks numSlots tickMs timeoutMs (Supervised.step ⟨m, l⟩ call) pending'
  := by
  cases call with
  | registerConnection id => exact htracks.armTimerLocked hshort hallowed.1 hallowed.2
  | unregisterConnection id =>
      rw [Supervised.step, ConnectionManager.step, unregisterConnection, Liveness.observe]
      dsimp only
      cases hlookup : m.timers.lookup id with
      | none =>
          have hnone := htracks.lastSeen_eq_none_iff.mpr hlookup
          rw [← hnone, Function.update_eq_self]
          exact ⟨pending, htracks⟩
      | some timerId => exact htracks.cancel hlookup
  | onHeartbeatReceived id =>
      rw [Supervised.step, ConnectionManager.step, onHeartbeatReceived, Liveness.observe]
      dsimp only
      cases hlookup : m.timers.lookup id with
      | none =>
          rw [htracks.lastSeen_eq_none_iff.mpr hlookup]
          exact ⟨pending, htracks⟩
      | some timerId =>
          have hne : l.lastSeen id ≠ none := by
            rw [Ne, htracks.lastSeen_eq_none_iff, hlookup]
            apply Option.some_ne_none
          obtain ⟨seen, hseen⟩ := Option.ne_none_iff_exists'.mp hne
          rw [hseen]
          -- First the timer is cancelled, and then there is a new one.
          obtain ⟨pending₁, htracks₁⟩ := htracks.cancel hlookup
          have hfresh : (m.wheel.cancel timerId).2.idToSlot.lookup
              (m.wheel.cancel timerId).2.nextId = none := by
            rw [nextId_cancel]
            exact lookup_idToSlot_cancel hallowed timerId
          obtain ⟨pending₂, htracks₂⟩ := htracks₁.armTimerLocked hshort
            (Finmap.lookup_erase id m.timers) hfresh
          refine ⟨pending₂, ?_⟩
          rw [armTimerLocked_erase] at htracks₂
          simpa only [Function.update_idem] using htracks₂
  | tick => exact htracks.tick

/-- The invariant of a run. -/
theorem run {s : Supervised} (htracks : Tracks numSlots tickMs timeoutMs s pending)
    (hshort : timeoutMs.toNat < 2 ^ 63) {calls : List Call}
    (halong : Along Supervised.step Supervised.Allowed s calls) :
  ∃ pending', Tracks numSlots tickMs timeoutMs (s.run calls) pending'
  := by
  refine halong.invariant (I := fun s => ∃ pending, Tracks numSlots tickMs timeoutMs s pending) ?_
    ⟨pending, htracks⟩
  rintro s call ⟨pending, htracks⟩ hallowed
  exact htracks.step hshort hallowed

end Tracks

/-- When no connection is registered that is tracked, a connection that is tracked has one timer in
the wheel, and there are no others. At the next tick, those connections are reported that were last
seen as many ticks before as the timeout says. -/
theorem connections_expire {numSlots : ℕ} {tickMs : UInt32} {timeoutMs : UInt64}
    {m : ConnectionManager} (hslots : 1 ≤ numSlots) (htick : 1 ≤ tickMs.toNat)
    (hmake : ConnectionManager.make numSlots tickMs timeoutMs = some m)
    (hshort : timeoutMs.toNat < 2 ^ 63) {calls : List Call}
    (halong : Along Supervised.step Supervised.Allowed ⟨m, .empty⟩ calls) :
  let s := Supervised.run ⟨m, .empty⟩ calls
  (∀ id, s.manager.timersOf id = (s.manager.timers.lookup id).toList)
    ∧ (∀ bucket ∈ s.manager.wheel.slots, ∀ entry ∈ bucket,
        ∃ id, entry.callback = some id ∧ s.manager.timers.lookup id = some entry.id)
    ∧ (∀ id, s.manager.timers.lookup id = none ↔ s.liveness.lastSeen id = none)
    ∧ s.manager.tick.1.Nodup
    ∧ ∀ id, id ∈ s.manager.tick.1 ↔ ∃ seen, s.liveness.lastSeen id = some seen
        ∧ seen + max 1 (timeoutMs.toNat / tickMs.toNat) = s.liveness.ticks + 1
  := by
  intro s
  obtain ⟨pending, htracks⟩ := (Tracks.start hslots htick hmake).run hshort halong
  obtain ⟨h, hholds⟩ := htracks.holds
  refine ⟨fun id => ?_, fun bucket hbucket entry hentry => ?_,
    fun id => htracks.lastSeen_eq_none_iff.symm, hholds.nodup_collect, fun id => ?_⟩
  · exact (hholds.timersOf_eq id).trans (congrArg Option.toList (htracks.timers id).symm)
  · obtain ⟨id, hcallback, hid⟩ := hholds.exists_of_mem_slots hbucket hentry
    exact ⟨id, hcallback, (htracks.timers id).trans hid⟩
  · refine htracks.mem_tick_iff.trans ?_
    rw [Liveness.expires, Option.any_eq_true]
    simp only [decide_eq_true_iff]
    rfl

/-- A manager with a timeout of two ticks. -/
def twoTicks : ConnectionManager :=
  ⟨⟨List.replicate 8 [], 10, 0, 1, ∅⟩, 20, ∅⟩

theorem connections_expire_heartbeat :
  ConnectionManager.make 8 10 20 = some twoTicks
    ∧ let calls : List Call :=
        [.registerConnection 1, .tick, .onHeartbeatReceived 1, .registerConnection 2, .tick]
      Along Supervised.step Supervised.Allowed ⟨twoTicks, .empty⟩ calls
        ∧ (Supervised.run ⟨twoTicks, .empty⟩ calls).manager.tick.1.Nodup
  := by
  have hmake : ConnectionManager.make 8 10 20 = some twoTicks := rfl
  have halong : Along Supervised.step Supervised.Allowed ⟨twoTicks, .empty⟩
      [.registerConnection 1, .tick, .onHeartbeatReceived 1, .registerConnection 2, .tick] := by
    decide +kernel
  exact ⟨hmake, halong,
    (connections_expire (by decide) (by decide) hmake (by decide) halong).2.2.2.1⟩

/-- A connection that is registered twice has two timers, and the first one expires although the
connection was registered one tick before. -/
theorem registered_twice_expires_early :
  ConnectionManager.make 8 10 20 = some twoTicks
    ∧ let s := Supervised.run ⟨twoTicks, .empty⟩
        [.registerConnection 1, .tick, .registerConnection 1]
      s.manager.timersOf 1 = [1, 2] ∧ s.manager.timers.lookup 1 = some 2
        ∧ s.liveness.lastSeen 1 = some 1 ∧ s.liveness.ticks = 1 ∧ s.manager.tick.1 = [1]
  := by
  exact ⟨rfl, by decide +kernel⟩

end Net
