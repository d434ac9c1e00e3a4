import Cascade.Net.Liveness

/-!
# Timeouts that others interrupt

A tick collects the connections whose timers are due, and then handles them one by one: it takes a
connection off the manager's map, and calls `on_timeout_`. Other threads, and what is called, use
the manager in between. When they leave a connection alone from when its timer was collected to
when `on_timeout_` was called, nothing is wrong with the call: the connection is still registered,
was not seen for as long as the timeout says, and was not reported before. Otherwise the timer,
which can no longer be cancelled, is not stopped by what they do.
-/

namespace Net

open Timer Runs

/-- A manager, the connections whose timers were collected, the one that is being handled, which is
off the map, and the one for which a heartbeat has cancelled the timer, and not yet armed the next;
the latter goes with the mutex. When the connections were last seen, and how often `on_timeout_` was
called since they were registered, is not in the source. -/
structure Interleaved where
  manager : ConnectionManager
  firing : List ConnectionId
  handling : Option ConnectionId
  rearming : Option ConnectionId
  liveness : Liveness
  timeouts : ConnectionId → ℕ

namespace Interleaved

/-- The steps of calls and of ticks. A heartbeat takes two steps, as it uses the wheel twice. -/
inductive Action
  | registerConnection (id : ConnectionId)
  | unregisterConnection (id : ConnectionId)
  | onHeartbeatReceived (id : ConnectionId)
  | rearm
  | collect
  | handleTimeout
  | onTimeout

/-- The number of ticks before the connection was last seen, if it is registered and was not
reported since. -/
def alive (s : Interleaved) (id : ConnectionId) : Option ℕ :=
  if s.timeouts id = 0 then s.liveness.lastSeen id else none

/-- Record when a connection was last seen, with `none` for one that is no longer registered. -/
def setLastSeen (s : Interleaved) (id : ConnectionId) (seen : Option ℕ) : Interleaved :=
  { s with liveness.lastSeen := Function.update s.liveness.lastSeen id seen }

/-- Record how often a connection was reported. -/
def setTimeouts (s : Interleaved) (id : ConnectionId) (n : ℕ) : Interleaved :=
  { s with timeouts := Function.update s.timeouts id n }

/-- A step. One that has to wait, for the mutex or for the tick that is under way, does nothing. -/
def step (s : Interleaved) : Action → Interleaved
  | .registerConnection id =>
      match s.rearming with
      | some _ => s
      | none =>
          ({ s with manager := s.manager.registerConnection id }.setLastSeen id
            (some s.liveness.ticks)).setTimeouts id 0
  | .unregisterConnection id =>
      match s.rearming with
      | some _ => s
      | none => { s with manager := s.manager.unregisterConnection id }.setLastSeen id none
  | .onHeartbeatReceived id =>
      match s.rearming, s.manager.timers.lookup id with
      | none, some timerId =>
          { s with
            manager := { s.manager with wheel := (s.manager.wheel.cancel timerId).2 }
            rearming := some id }
      | _, _ => s
  | .rearm =>
      match s.rearming with
      | none => s
      | some id =>
          { s with manager := s.manager.armTimerLocked id, rearming := none }.setLastSeen id
            (some s.liveness.ticks)
  | .collect =>
      match s.firing, s.handling with
      | [], none =>
          let r := s.manager.wheel.collect
          { s with
            manager := { s.manager with wheel := r.2 }
            firing := r.1.reduceOption
            liveness.ticks := s.liveness.ticks + 1 }
      | _, _ => s
  | .handleTimeout =>
      match s.firing, s.handling, s.rearming with
      | id :: firing, none, none =>
          { s with manager := s.manager.handleTimeout id, firing, handling := some id }
      | _, _, _ => s
  | .onTimeout =>
      match s.handling with
      | none => s
      | some id => { s with handling := none }.setTimeouts id (s.timeouts id + 1)

/-- Steps one after the other. -/
def run (s : Interleaved) (actions : List Action) : Interleaved :=
  actions.foldl step s

/-- A new manager. -/
def start (m : ConnectionManager) : Interleaved :=
  ⟨m, [], none, none, .empty, fun _ => 0⟩

/-- A connection is registered once before it is unregistered or times out. -/
def Once (s : Interleaved) : Action → Prop
  | .registerConnection id => s.alive id = none
  | _ => True

/-- A connection whose timer was collected is left alone, and a timer that is added does not get the
id of one that is pending. -/
def Apart (s : Interleaved) : Action → Prop
  | .registerConnection _ | .rearm =>
      s.manager.wheel.idToSlot.lookup s.manager.wheel.nextId = none
  | .unregisterConnection id => id ∉ s.firing ∧ s.handling ≠ some id
  | .onHeartbeatReceived id => id ∉ s.firing
  | _ => True

instance (s : Interleaved) (action : Action) : Decidable (s.Once action) :=
  match action with
  | .registerConnection _ => inferInstanceAs (Decidable (_ = _))
  | .unregisterConnection _ | .onHeartbeatReceived _ | .rearm | .collect | .handleTimeout
  | .onTimeout => .isTrue trivial

instance (s : Interleaved) (action : Action) : Decidable (s.Apart action) :=
  match action with
  | .registerConnection _ | .rearm => inferInstanceAs (Decidable (_ = _))
  | .unregisterConnection _ => inferInstanceAs (Decidable (_ ∧ _))
  | .onHeartbeatReceived _ => inferInstanceAs (Decidable (_ ∉ _))
  | .collect | .handleTimeout | .onTimeout => .isTrue trivial

/-- The connection for which `on_timeout_` is about to be called is registered, was not seen for `k`
ticks, and was not reported since it was registered. -/
def Justified (k : ℕ) (s : Interleaved) : Prop :=
  ∀ id, s.handling = some id → s.timeouts id = 0
    ∧ ∃ seen, s.liveness.lastSeen id = some seen ∧ seen + k ≤ s.liveness.ticks

/-! ### What is recorded -/

variable {s : Interleaved} {id id' : ConnectionId} {seen : Option ℕ}

theorem alive_eq_some_iff {seen : ℕ} :
  s.alive id = some seen ↔ s.timeouts id = 0 ∧ s.liveness.lastSeen id = some seen
  := by
  rw [alive, Option.ite_none_right_eq_some]

theorem alive_setLastSeen_self (hzero : s.timeouts id = 0) :
  (s.setLastSeen id seen).alive id = seen
  := by
  change (if s.timeouts id = 0 then Function.update s.liveness.lastSeen id seen id else none) = seen
  rw [if_pos hzero, Function.update_self]

theorem alive_setLastSeen_none :
  (s.setLastSeen id none).alive id = none
  := by
  change (if s.timeouts id = 0 then Function.update s.liveness.lastSeen id none id else none) = none
  rw [Function.update_self, ite_self]

theorem alive_setLastSeen_of_ne (hne : id' ≠ id) :
  (s.setLastSeen id seen).alive id' = s.alive id'
  := by
  change (if s.timeouts id' = 0 then Function.update s.liveness.lastSeen id seen id' else none) = _
  rw [Function.update_of_ne hne, alive]

theorem alive_setTimeouts_zero :
  (s.setTimeouts id 0).alive id = s.liveness.lastSeen id
  := by
  change (if Function.update s.timeouts id 0 id = 0 then _ else none) = _
  rw [Function.update_self, if_pos rfl]
  rfl

theorem alive_setTimeouts_succ (n : ℕ) :
  (s.setTimeouts id (n + 1)).alive id = none
  := by
  change (if Function.update s.timeouts id (n + 1) id = 0 then _ else none) = none
  rw [Function.update_self, if_neg n.succ_ne_zero]

theorem alive_setTimeouts_of_ne {n : ℕ} (hne : id' ≠ id) :
  (s.setTimeouts id n).alive id' = s.alive id'
  := by
  change (if Function.update s.timeouts id n id' = 0 then _ else none) = _
  rw [Function.update_of_ne hne]
  rfl

end Interleaved

open Interleaved

/-! ### The invariant -/

/-- A connection that is left alone has a timer as in the manager's map, which was added when it was
last seen. A connection whose timer was collected has none, and was not seen for long. -/
structure Settled (numSlots : ℕ) (tickMs : UInt32) (timeoutMs : UInt64) (s : Interleaved)
    (pending : ConnectionId → Option (UInt64 × ℕ)) : Prop where
  holds : ∃ h, Holds numSlots tickMs timeoutMs s.manager.wheel s.liveness.ticks pending h
  timeoutMs_eq : s.manager.timeoutMs = timeoutMs
  firing_nodup : s.firing.Nodup
  handling : ∀ id, s.handling = some id → id ∉ s.firing ∧ s.manager.timers.lookup id = none
  rearming : ∀ id, s.rearming = some id →
    id ∉ s.firing ∧ s.handling ≠ some id ∧ pending id = none ∧ s.timeouts id = 0
  overdue : ∀ id, id ∈ s.firing ∨ s.handling = some id → pending id = none
    ∧ ∃ seen, s.alive id = some seen
      ∧ seen + max 1 (timeoutMs.toNat / tickMs.toNat) ≤ s.liveness.ticks
  tracked : ∀ id, id ∉ s.firing → s.handling ≠ some id → s.rearming ≠ some id →
    s.manager.timers.lookup id = (pending id).map Prod.fst
      ∧ s.alive id = (pending id).map Prod.snd

namespace Settled

variable {numSlots : ℕ} {tickMs : UInt32} {timeoutMs : UInt64} {id : ConnectionId}
  {s : Interleaved} {pending : ConnectionId → Option (UInt64 × ℕ)}

theorem start {m : ConnectionManager} (hpos : 0 < numSlots) (htick : 0 < tickMs.toNat)
    (hmake : ConnectionManager.make numSlots tickMs timeoutMs = some m) :
  Settled numSlots tickMs timeoutMs (.start m) fun _ => none
  := by
  obtain ⟨w, hw, rfl⟩ := Option.map_eq_some_iff.mp hmake
  refine ⟨⟨.empty, Holds.start hpos htick hw⟩, rfl, List.nodup_nil, ?_, ?_, ?_, ?_⟩
  · rintro id ⟨⟩
  · rintro id ⟨⟩
  · rintro id (hid | hid)
    · exact absurd hid List.not_mem_nil
    · cases hid
  · exact fun id _ _ _ => ⟨rfl, rfl⟩

theorem justified (hsettled : Settled numSlots tickMs timeoutMs s pending) :
  s.Justified (max 1 (timeoutMs.toNat / tickMs.toNat))
  := by
  intro id hid
  obtain ⟨-, seen, halive, hlong⟩ := hsettled.overdue id (.inr hid)
  obtain ⟨hzero, hseen⟩ := alive_eq_some_iff.mp halive
  exact ⟨hzero, seen, hseen, hlong⟩

/-- A call changes what is known of one connection only, whose timer was not collected. -/
theorem change (hsettled : Settled numSlots tickMs timeoutMs s pending) {s' : Interleaved}
    {pending' : ConnectionId → Option (UInt64 × ℕ)} (hfiring : id ∉ s.firing)
    (hhandling : s.handling ≠ some id) (hrearming : ∀ id', s.rearming = some id' → id' = id)
    (hholds : ∃ h, Holds numSlots tickMs timeoutMs s'.manager.wheel s.liveness.ticks pending' h)
    (htimeout : s'.manager.timeoutMs = s.manager.timeoutMs) (hfiring' : s'.firing = s.firing)
    (hhandling' : s'.handling = s.handling) (hticks : s'.liveness.ticks = s.liveness.ticks)
    (hothers : ∀ id', id' ≠ id → pending' id' = pending id' ∧ s'.alive id' = s.alive id'
      ∧ s'.manager.timers.lookup id' = s.manager.timers.lookup id')
    (hrearming' : ∀ id', s'.rearming = some id' →
      id' = id ∧ pending' id = none ∧ s'.timeouts id = 0)
    (hself : s'.rearming ≠ some id →
      s'.manager.timers.lookup id = (pending' id).map Prod.fst
        ∧ s'.alive id = (pending' id).map Prod.snd) :
  Settled numSlots tickMs timeoutMs s' pending'
  := by
  have hne : ∀ id', id' ∈ s.firing ∨ s.handling = some id' → id' ≠ id := by
    rintro id' (hid' | hid') rfl
    · exact hfiring hid'
    · exact hhandling hid'
  refine ⟨hticks ▸ hholds, htimeout.trans hsettled.timeoutMs_eq, hfiring' ▸ hsettled.firing_nodup,
    ?_, ?_, ?_, ?_⟩
  · intro id' hid'
    rw [hhandling'] at hid'
    obtain ⟨hmem, hlookup⟩ := hsettled.handling id' hid'
    rw [hfiring', (hothers id' (hne id' (.inr hid'))).2.2]
    exact ⟨hmem, hlookup⟩
  · intro id' hid'
    obtain ⟨rfl, hpending, hzero⟩ := hrearming' id' hid'
    rw [hfiring', hhandling']
    exact ⟨hfiring, hhandling, hpending, hzero⟩
  · intro id' hid'
    rw [hfiring', hhandling'] at hid'
    obtain ⟨hpending, halive, -⟩ := hothers id' (hne id' hid')
    rw [hpending, halive, hticks]
    exact hsettled.overdue id' hid'
  · intro id' hmem hcalled hwaiting
    rcases eq_or_ne id' id with rfl | hid'
    · exact hself hwaiting
    · obtain ⟨hpending, halive, hlookup⟩ := hothers id' hid'
      rw [hfiring'] at hmem
      rw [hhandling'] at hcalled
      rw [hpending, halive, hlookup]
      exact hsettled.tracked id' hmem hcalled fun h => hid' (hrearming id' h)

/-- A connection without a timer gets one. -/
theorem arm (hsettled : Settled numSlots tickMs timeoutMs s pending)
    (hshort : timeoutMs.toNat < 2 ^ 63) (hpending : pending id = none)
    (hfresh : s.manager.wheel.idToSlot.lookup s.manager.wheel.nextId = none) :
  ∃ h, Holds numSlots tickMs timeoutMs (s.manager.armTimerLocked id).wheel s.liveness.ticks
    (Function.update pending id (some (s.manager.wheel.nextId, s.liveness.ticks))) h
  := by
  obtain ⟨h, hholds⟩ := hsettled.holds
  change ∃ h, Holds numSlots tickMs timeoutMs
    (s.manager.wheel.addTimer s.manager.timeoutMs (some id)).2 s.liveness.ticks _ h
  rw [hsettled.timeoutMs_eq]
  exact hholds.addTimer hshort hpending hfresh

theorem registerConnection (hsettled : Settled numSlots tickMs timeoutMs s pending)
    (hshort : timeoutMs.toNat < 2 ^ 63) (honce : s.Once (.registerConnection id))
    (hapart : s.Apart (.registerConnection id)) :
  ∃ pending', Settled numSlots tickMs timeoutMs (s.step (.registerConnection id)) pending'
  := by
  have honce : s.alive id = none := honce
  rw [Interleaved.step]
  split
  · exact ⟨pending, hsettled⟩
  · rename_i hfree
    -- A connection that is about to be reported is still registered.
    have hidle : ¬ (id ∈ s.firing ∨ s.handling = some id) := by
      intro hid
      obtain ⟨-, seen, halive, -⟩ := hsettled.overdue id hid
      rw [honce] at halive
      cases halive
    obtain ⟨hfiring, hhandling⟩ := not_or.mp hidle
    have hpending : pending id = none := by
      have htracked := (hsettled.tracked id hfiring hhandling (by rw [hfree]; simp)).2
      rw [honce] at htracked
      exact Option.map_eq_none_iff.mp htracked.symm
    refine ⟨_, hsettled.change hfiring hhandling (by rw [hfree]; simp)
      (hsettled.arm hshort hpending hapart) rfl rfl rfl rfl ?_ ?_ ?_⟩
    · intro id' hne
      refine ⟨Function.update_of_ne hne .., ?_, Finmap.lookup_insert_of_ne _ hne⟩
      rw [alive_setTimeouts_of_ne hne, alive_setLastSeen_of_ne hne]
      rfl
    · intro id' hid'
      exact absurd (hfree.symm.trans hid') (by simp)
    · intro _
      rw [alive_setTimeouts_zero, Function.update_self]
      exact ⟨Finmap.lookup_insert _, Function.update_self ..⟩

theorem unregisterConnection (hsettled : Settled numSlots tickMs timeoutMs s pending)
    (hapart : s.Apart (.unregisterConnection id)) :
  ∃ pending', Settled numSlots tickMs timeoutMs (s.step (.unregisterConnection id)) pending'
  := by
  obtain ⟨hfiring, hhandling⟩ := hapart
  rw [Interleaved.step]
  split
  · exact ⟨pending, hsettled⟩
  · rename_i hfree
    obtain ⟨htimers, halive⟩ := hsettled.tracked id hfiring hhandling (by rw [hfree]; simp)
    have hrearming : ∀ id', s.rearming = some id' → id' = id := by
      rw [hfree]
      simp
    rw [ConnectionManager.unregisterConnection]
    cases hlookup : s.manager.timers.lookup id with
    | none =>
        rw [hlookup, eq_comm, Option.map_eq_none_iff] at htimers
        refine ⟨pending, hsettled.change hfiring hhandling hrearming hsettled.holds rfl rfl rfl rfl
          ?_ ?_ ?_⟩
        · exact fun id' hne => ⟨rfl, alive_setLastSeen_of_ne hne, rfl⟩
        · intro id' hid'
          exact absurd (hfree.symm.trans hid') (by simp)
        · intro _
          rw [alive_setLastSeen_none, htimers]
          exact ⟨hlookup, rfl⟩
    | some timerId =>
        rw [hlookup, eq_comm] at htimers
        obtain ⟨⟨timerId, added⟩, hpending, rfl⟩ := Option.map_eq_some_iff.mp htimers
        obtain ⟨h, hholds⟩ := hsettled.holds
        refine ⟨_, hsettled.change hfiring hhandling hrearming (hholds.cancel hpending)
          rfl rfl rfl rfl ?_ ?_ ?_⟩
        · intro id' hne
          exact ⟨Function.update_of_ne hne .., alive_setLastSeen_of_ne hne,
            Finmap.lookup_erase_ne hne⟩
        · intro id' hid'
          exact absurd (hfree.symm.trans hid') (by simp)
        · intro _
          rw [alive_setLastSeen_none, Function.update_self]
          exact ⟨Finmap.lookup_erase .., rfl⟩

theorem onHeartbeatReceived (hsettled : Settled numSlots tickMs timeoutMs s pending)
    (hapart : s.Apart (.onHeartbeatReceived id)) :
  ∃ pending', Settled numSlots tickMs timeoutMs (s.step (.onHeartbeatReceived id)) pending'
  := by
  rw [Interleaved.step]
  dsimp only
  split
  · rename_i timerId hfree hlookup
    have hhandling : s.handling ≠ some id := by
      intro hid
      rw [(hsettled.handling id hid).2] at hlookup
      cases hlookup
    obtain ⟨htimers, halive⟩ := hsettled.tracked id hapart hhandling (by rw [hfree]; simp)
    rw [hlookup, eq_comm] at htimers
    obtain ⟨⟨timerId, added⟩, hpending, rfl⟩ := Option.map_eq_some_iff.mp htimers
    rw [hpending] at halive
    obtain ⟨h, hholds⟩ := hsettled.holds
    refine ⟨_, hsettled.change hapart hhandling (by rw [hfree]; simp) (hholds.cancel hpending)
      rfl rfl rfl rfl ?_ ?_ ?_⟩
    · exact fun id' hne => ⟨Function.update_of_ne hne .., rfl, rfl⟩
    · rintro id' ⟨⟩
      exact ⟨rfl, Function.update_self .., (alive_eq_some_iff.mp halive).1⟩
    · exact fun hself => absurd rfl hself
  · exact ⟨pending, hsettled⟩

theorem rearm (hsettled : Settled numSlots tickMs timeoutMs s pending)
    (hshort : timeoutMs.toNat < 2 ^ 63) (hapart : s.Apart .rearm) :
  ∃ pending', Settled numSlots tickMs timeoutMs (s.step .rearm) pending'
  := by
  rw [Interleaved.step]
  split
  · exact ⟨pending, hsettled⟩
  · rename_i id hid
    obtain ⟨hfiring, hhandling, hpending, hzero⟩ := hsettled.rearming id hid
    refine ⟨_, hsettled.change hfiring hhandling ?_ (hsettled.arm hshort hpending hapart)
      rfl rfl rfl rfl ?_ ?_ ?_⟩
    · intro id' hid'
      exact Option.some.inj (hid'.symm.trans hid)
    · intro id' hne
      exact ⟨Function.update_of_ne hne .., alive_setLastSeen_of_ne hne,
        Finmap.lookup_insert_of_ne _ hne⟩
    · rintro id' ⟨⟩
    · intro _
      rw [alive_setLastSeen_self (by exact hzero), Function.update_self]
      exact ⟨Finmap.lookup_insert _, rfl⟩

/-! ### Ticks -/

/-- What is collected was last seen when the timers were added. -/
theorem collect (hsettled : Settled numSlots tickMs timeoutMs s pending) :
  ∃ pending', Settled numSlots tickMs timeoutMs (s.step .collect) pending'
  := by
  rw [Interleaved.step]
  dsimp only
  split
  · rename_i hfiring hhandling
    obtain ⟨h, hholds⟩ := hsettled.holds
    have hnot : ∀ id, id ∉ s.firing := by
      rw [hfiring]
      simp
    have hfree : ∀ id, s.handling ≠ some id := by
      rw [hhandling]
      simp
    have hnone : ∀ id, pending id = none → id ∉ s.manager.wheel.collect.1.reduceOption := by
      intro id hpending hmem
      obtain ⟨timerId, added, hsome, -⟩ := hholds.mem_collect_iff.mp hmem
      rw [hpending] at hsome
      cases hsome
    refine ⟨_, ⟨_, hholds.collect⟩, hsettled.timeoutMs_eq, hholds.nodup_collect, ?_, ?_, ?_, ?_⟩
    · exact fun id hid => absurd hid (hfree id)
    · intro id hid
      obtain ⟨-, -, hpending, hzero⟩ := hsettled.rearming id hid
      exact ⟨hnone id hpending, hfree id, (if_neg (hnone id hpending)).trans hpending, hzero⟩
    · rintro id (hid | hid)
      · refine ⟨if_pos hid, ?_⟩
        obtain ⟨timerId, added, hpending, hdue⟩ := hholds.mem_collect_iff.mp hid
        have hrearming : s.rearming ≠ some id := by
          intro hrearming
          rw [(hsettled.rearming id hrearming).2.2.1] at hpending
          cases hpending
        have halive := (hsettled.tracked id (hnot id) (hfree id) hrearming).2
        rw [hpending] at halive
        exact ⟨added, halive, hdue.le⟩
      · exact absurd hid (hfree id)
    · intro id hid _ hrearming
      rw [if_neg hid]
      exact hsettled.tracked id (hnot id) (hfree id) hrearming
  · exact ⟨pending, hsettled⟩

theorem handleTimeout (hsettled : Settled numSlots tickMs timeoutMs s pending) :
  Settled numSlots tickMs timeoutMs (s.step .handleTimeout) pending
  := by
  rw [Interleaved.step]
  split
  · rename_i id firing hfiring hhandling hfree
    have hnodup := hsettled.firing_nodup
    rw [hfiring, List.nodup_cons] at hnodup
    have hmem : ∀ id', id' ∈ s.firing ↔ id' = id ∨ id' ∈ firing := by
      intro id'
      rw [hfiring, List.mem_cons]
    refine ⟨hsettled.holds, hsettled.timeoutMs_eq, hnodup.2, ?_, ?_, ?_, ?_⟩
    · rintro id' ⟨⟩
      exact ⟨hnodup.1, Finmap.lookup_erase ..⟩
    · intro id' hid'
      exact absurd (hfree.symm.trans hid') (by simp)
    · rintro id' (hid' | hid')
      · exact hsettled.overdue id' (.inl ((hmem id').mpr (.inr hid')))
      · obtain rfl := Option.some.inj hid'
        exact hsettled.overdue id (.inl ((hmem id).mpr (.inl rfl)))
    · intro id' hid' hne _
      have hne : id' ≠ id := fun h => hne (congrArg some h.symm)
      have htracked := hsettled.tracked id' (fun h => ((hmem id').mp h).elim hne hid')
        (by rw [hhandling]; simp) (by rw [hfree]; simp)
      refine ⟨?_, htracked.2⟩
      change (s.manager.timers.erase id).lookup id' = _
      rw [Finmap.lookup_erase_ne hne]
      exact htracked.1
  · exact hsettled

theorem onTimeout (hsettled : Settled numSlots tickMs timeoutMs s pending) :
  Settled numSlots tickMs timeoutMs (s.step .onTimeout) pending
  := by
  rw [Interleaved.step]
  split
  · exact hsettled
  · rename_i id hid
    obtain ⟨hfiring, hlookup⟩ := hsettled.handling id hid
    obtain ⟨hpending, -⟩ := hsettled.overdue id (.inr hid)
    refine ⟨hsettled.holds, hsettled.timeoutMs_eq, hsettled.firing_nodup, ?_, ?_, ?_, ?_⟩
    · rintro id' ⟨⟩
    · intro id' hid'
      obtain ⟨hmem, hne, hpending', hzero⟩ := hsettled.rearming id' hid'
      have hne : id' ≠ id := fun h => hne (h ▸ hid)
      exact ⟨hmem, by simp [setTimeouts], hpending', (Function.update_of_ne hne ..).trans hzero⟩
    · rintro id' (hid' | hid')
      · have hne : id' ≠ id := fun h => hfiring (h ▸ hid')
        rw [alive_setTimeouts_of_ne hne]
        exact hsettled.overdue id' (.inl hid')
      · cases hid'
    · intro id' hid' _ hrearming
      rcases eq_or_ne id' id with rfl | hne
      · rw [alive_setTimeouts_succ, hpending]
        exact ⟨hlookup, rfl⟩
      · rw [alive_setTimeouts_of_ne hne]
        exact hsettled.tracked id' hid' (fun h => hne (Option.some.inj (h.symm.trans hid)))
          hrearming

/-! ### Runs -/

theorem step (hsettled : Settled numSlots tickMs timeoutMs s pending)
    (hshort : timeoutMs.toNat < 2 ^ 63) {action : Action} (honce : s.Once action)
    (hapart : s.Apart action) :
  ∃ pending', Settled numSlots tickMs timeoutMs (s.step action) pending'
  := by
  cases action with
  | registerConnection id => exact hsettled.registerConnection hshort honce hapart
  | unregisterConnection id => exact hsettled.unregisterConnection hapart
  | onHeartbeatReceived id => exact hsettled.onHeartbeatReceived hapart
  | rearm => exact hsettled.rearm hshort hapart
  | collect => exact hsettled.collect
  | handleTimeout => exact ⟨pending, hsettled.handleTimeout⟩
  | onTimeout => exact ⟨pending, hsettled.onTimeout⟩

theorem run (hsettled : Settled numSlots tickMs timeoutMs s pending)
    (hshort : timeoutMs.toNat < 2 ^ 63) {actions : List Action}
    (halong : Along Interleaved.step (fun s action => s.Once action ∧ s.Apart action) s actions) :
  ∃ pending', Settled numSlots tickMs timeoutMs (s.run actions) pending'
  := by
  refine halong.invariant (I := fun s => ∃ pending, Settled numSlots tickMs timeoutMs s pending) ?_
    ⟨pending, hsettled⟩
  rintro s action ⟨pending, hsettled⟩ ⟨honce, hapart⟩
  exact hsettled.step hshort honce hapart

end Settled

/-- When connections whose timers were collected are left alone until they are reported, then in
every state of a run, the connection for which `on_timeout_` is about to be called is registered,
was not seen for as many ticks as the timeout says, and was not reported before. -/
theorem timeouts_justified {numSlots : ℕ} {tickMs : UInt32} {timeoutMs : UInt64}
    {m : ConnectionManager} (hslots : 1 ≤ numSlots) (htick : 1 ≤ tickMs.toNat)
    (hmake : ConnectionManager.make numSlots tickMs timeoutMs = some m)
    (hshort : timeoutMs.toNat < 2 ^ 63) {actions : List Action}
    (halong : Along step (fun s action => s.Once action ∧ s.Apart action) (.start m) actions) :
  ((Interleaved.start m).run actions).Justified (max 1 (timeoutMs.toNat / tickMs.toNat))
  := by
  obtain ⟨pending, hsettled⟩ := (Settled.start hslots htick hmake).run hshort halong
  exact hsettled.justified

/-- Two connections are due in one tick, and a third one gets a heartbeat meanwhile. -/
def undisturbed : List Action :=
  [.registerConnection 1, .registerConnection 2, .collect, .registerConnection 3, .collect,
    .handleTimeout, .onHeartbeatReceived 3, .onTimeout, .rearm, .registerConnection 1,
    .handleTimeout]

theorem timeouts_justified_two :
  ConnectionManager.make 8 10 20 = some twoTicks
    ∧ ((Interleaved.start twoTicks).run undisturbed).handling = some 2
    ∧ ((Interleaved.start twoTicks).run undisturbed).Justified 2
  := by
  have hmake : ConnectionManager.make 8 10 20 = some twoTicks := rfl
  have halong : Along step (fun s action => s.Once action ∧ s.Apart action) (.start twoTicks)
      undisturbed := by
    decide +kernel
  exact ⟨hmake, by decide +kernel,
    timeouts_justified (by decide) (by decide) hmake (by decide) halong⟩

/-- The runs until the first connection is about to be reported, interrupted by what is given. -/
def interrupted (actions : List Action) : List Action :=
  [.registerConnection 1, .registerConnection 2, .collect, .collect, .handleTimeout, .onTimeout]
    ++ actions ++ [.handleTimeout]

/-- When the first of two connections that are due together is reported, the other one is
unregistered, or seen, and reported all the same; in the latter case, it is reported once more. -/
theorem interrupted_not_justified :
  ConnectionManager.make 8 10 20 = some twoTicks
    ∧ (let actions := interrupted [.unregisterConnection 2]
      let s := (Interleaved.start twoTicks).run actions
      Along step Once (.start twoTicks) actions
        ∧ s.handling = some 2 ∧ s.liveness.lastSeen 2 = none)
    ∧ (let actions := interrupted [.onHeartbeatReceived 2, .rearm]
      let s := (Interleaved.start twoTicks).run actions
      Along step Once (.start twoTicks) actions
        ∧ s.handling = some 2 ∧ s.liveness.lastSeen 2 = some 2 ∧ s.liveness.ticks = 2)
    ∧ (let actions := interrupted [.onHeartbeatReceived 2, .rearm, .handleTimeout, .onTimeout,
        .collect, .collect]
      let s := (Interleaved.start twoTicks).run actions
      Along step Once (.start twoTicks) actions ∧ s.handling = some 2 ∧ s.timeouts 2 = 1)
  := by
  exact ⟨rfl, by decide +kernel⟩

end Net
