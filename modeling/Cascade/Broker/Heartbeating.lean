import Cascade.Timer.Exact

/-!
# The heartbeats of a broker

The model of `start_heartbeating`, `schedule_next_heartbeat` and `stop_heartbeating` in
`controlplane/control_plane_client.hpp`, on the timer wheel that the ticker thread of a broker
drives. The callback of a timer submits a heartbeat to a thread pool and then adds the next timer,
unless heartbeating was stopped, which another thread may do at any time.

As long as it is not stopped, there is one timer, and a heartbeat is submitted with every tick whose
number is a multiple of the interval. After it was stopped, at most one more is submitted, and the
wheel becomes empty (`Broker.Heartbeating.heartbeats_periodic`).
-/

open Timer

namespace Broker

/-- The wheel with its history; whether the callback has submitted a heartbeat and is about to
schedule the next one; and whether heartbeating was stopped. After how many ticks it was stopped
first is not in the source. -/
structure Heartbeating where
  wheel : Observed Unit
  scheduling : Bool
  stop : Bool
  stoppedAt : Option ℕ

namespace Heartbeating

/-- Only the ticker thread has to do with the wheel, so that to read the flag and to add the timer
is one step. -/
def scheduleNextHeartbeat (intervalMs : UInt64) (s : Heartbeating) : Heartbeating :=
  if s.stop then s else { s with wheel := s.wheel.step (.addTimer intervalMs (some ())) }

/-- Heartbeating is started on a new wheel. The broker was registered before. -/
def startHeartbeating (intervalMs : UInt64) (w : TimerWheel Unit) : Heartbeating :=
  scheduleNextHeartbeat intervalMs ⟨.start w, false, false, none⟩

def stopHeartbeating (s : Heartbeating) : Heartbeating :=
  { s with stop := true, stoppedAt := s.stoppedAt <|> some s.wheel.history.ticks }

/-- The ticker thread ticks, calls a callback, which submits a heartbeat, and then schedules the
next one. Heartbeating is stopped from another thread. -/
inductive Action where
  | tick
  | submit
  | schedule
  | stop

def step (intervalMs : UInt64) (s : Heartbeating) : Action → Heartbeating
  | .tick => if s.scheduling then s else { s with wheel := s.wheel.step .tick }
  | .submit =>
      match s.scheduling, s.wheel.timers.due with
      | false, some () :: _ => { s with wheel := s.wheel.step .fire, scheduling := true }
      | _, _ => s
  | .schedule =>
      if s.scheduling then { s.scheduleNextHeartbeat intervalMs with scheduling := false } else s
  | .stop => s.stopHeartbeating

def run (intervalMs : UInt64) (s : Heartbeating) (actions : List Action) : Heartbeating :=
  actions.foldl (step intervalMs) s

/-- The numbers of the ticks in which heartbeats were submitted. -/
def submitted (s : Heartbeating) : List ℕ := s.wheel.history.called.map Prod.fst

/-- The ticker thread is not in a callback, and there is none to call. -/
def Idle (s : Heartbeating) : Prop := s.scheduling = false ∧ s.wheel.timers.due = []

/-- The number of ticks from one heartbeat to the next. -/
def period (tickMs : UInt32) (intervalMs : UInt64) : ℕ := max 1 (intervalMs.toNat / tickMs.toNat)

/-! ### The timers -/

/-- The timers are added one period after the other. -/
def timer (tickMs : UInt32) (intervalMs : UInt64) (j : ℕ) : Scheduled Unit :=
  ⟨UInt64.ofNat (1 + j), j * period tickMs intervalMs, intervalMs, some (), false⟩

section

variable {tickMs : UInt32} {intervalMs : UInt64} {m n : ℕ}

theorem period_pos (tickMs : UInt32) (intervalMs : UInt64) :
  0 < period tickMs intervalMs
  := Nat.lt_of_lt_of_le Nat.zero_lt_one (Nat.le_max_left ..)

theorem due_timer (j : ℕ) :
  (timer tickMs intervalMs j).due tickMs = (j + 1) * period tickMs intervalMs
  := (Nat.succ_mul ..).symm

/-- The first `m` timers are due by the end of `m` periods. -/
theorem due_timer_le {j : ℕ} (hj : j < m) :
  (timer tickMs intervalMs j).due tickMs ≤ m * period tickMs intervalMs
  := by
  rw [due_timer]
  exact Nat.mul_le_mul_right _ hj

theorem filter_calledAt_of_lt (hlt : m * period tickMs intervalMs < n) :
  ((List.range m).map (timer tickMs intervalMs)).filter (Scheduled.calledAt tickMs n) = []
  := by
  rw [List.filter_eq_nil_iff]
  intro t ht hcalled
  obtain ⟨j, hj, rfl⟩ := List.mem_map.mp ht
  have hle : (timer tickMs intervalMs j).due tickMs ≤ _ := due_timer_le (List.mem_range.mp hj)
  rw [(Scheduled.calledAt_iff.mp hcalled).2] at hle
  omega

/-- Of the timers, only the last one can be called after the others were due. -/
theorem filter_calledAt_succ (hlt : m * period tickMs intervalMs < n) :
  ((List.range (m + 1)).map (timer tickMs intervalMs)).filter (Scheduled.calledAt tickMs n)
    = if n = (m + 1) * period tickMs intervalMs then [timer tickMs intervalMs m] else []
  := by
  have hlast : Scheduled.calledAt tickMs n (timer tickMs intervalMs m) = true
      ↔ n = (m + 1) * period tickMs intervalMs := by
    rw [Scheduled.calledAt_iff, due_timer, eq_comm (a := n)]
    exact and_iff_right rfl
  rw [List.range_succ, List.map_append, List.filter_append, filter_calledAt_of_lt hlt,
    List.nil_append, List.map_singleton, List.filter_cons, List.filter_nil]
  exact if_congr hlast rfl rfl

theorem countP_pending_of_le (hle : m * period tickMs intervalMs ≤ n) :
  ((List.range m).map (timer tickMs intervalMs)).countP (Scheduled.pending tickMs n) = 0
  := by
  rw [List.countP_eq_zero]
  intro t ht hpending
  obtain ⟨j, hj, rfl⟩ := List.mem_map.mp ht
  have hdue : (timer tickMs intervalMs j).due tickMs ≤ _ := due_timer_le (List.mem_range.mp hj)
  have hlt := (Scheduled.pending_iff.mp hpending).2
  omega

theorem countP_pending_succ (hle : m * period tickMs intervalMs ≤ n)
    (hlt : n < (m + 1) * period tickMs intervalMs) :
  ((List.range (m + 1)).map (timer tickMs intervalMs)).countP (Scheduled.pending tickMs n) = 1
  := by
  have hlast : Scheduled.pending tickMs n (timer tickMs intervalMs m) = true := by
    rw [Scheduled.pending_iff, due_timer]
    exact ⟨rfl, hlt⟩
  rw [List.range_succ, List.map_append, List.countP_append, countP_pending_of_le hle,
    List.map_singleton, List.countP_singleton, if_pos hlast]

end

/-! ### The invariant -/

/-- Where the ticker thread is after `c` heartbeats, and how that goes together with the time at
which heartbeating was stopped. -/
inductive Phase (p c : ℕ) (s : Heartbeating) : Prop where
  | waiting (htimers : s.wheel.history.timers.length = c + 1) (hdue : s.wheel.timers.due = [])
      (hscheduling : s.scheduling = false) (hle : c * p ≤ s.wheel.history.ticks)
      (hlt : s.wheel.history.ticks < (c + 1) * p)
      (hstopped : ∀ t, s.stoppedAt = some t → c * p ≤ t)
  | due (htimers : s.wheel.history.timers.length = c + 1)
      (hdue : s.wheel.timers.due = [some ()]) (hscheduling : s.scheduling = false)
      (hticks : s.wheel.history.ticks = (c + 1) * p)
      (hstopped : ∀ t, s.stoppedAt = some t → c * p ≤ t)
  | scheduling (htimers : s.wheel.history.timers.length = c) (hdue : s.wheel.timers.due = [])
      (hscheduling : s.scheduling = true) (hticks : s.wheel.history.ticks = c * p)
      (hstopped : ∀ t, s.stoppedAt = some t → c * p ≤ t + p)
  | ended (htimers : s.wheel.history.timers.length = c) (hdue : s.wheel.timers.due = [])
      (hscheduling : s.scheduling = false) (hle : c * p ≤ s.wheel.history.ticks)
      (hstop : s.stop = true) (hstopped : ∀ t, s.stoppedAt = some t → c * p ≤ t + p)

/-- The state after `c` heartbeats. -/
structure Beats (numSlots : ℕ) (tickMs : UInt32) (intervalMs : UInt64) (c : ℕ)
    (s : Heartbeating) : Prop where
  sound : Sound numSlots tickMs s.wheel
  numbered : Numbered s.wheel
  timers : s.wheel.history.timers
    = (List.range s.wheel.history.timers.length).map (timer tickMs intervalMs)
  submitted : s.submitted = (List.range c).map fun j => (j + 1) * period tickMs intervalMs
  stop_eq : s.stop = s.stoppedAt.isSome
  phase : Phase (period tickMs intervalMs) c s

/-- A tick, when all callbacks of the last one were called. -/
theorem step_tick {w : Observed Unit} (hdue : w.timers.due = []) :
  w.step .tick = ⟨⟨w.timers.wheel.collect.2, w.timers.wheel.collect.1⟩,
    { w.history with ticks := w.history.ticks + 1 }⟩
  := by
  rw [Observed.step, Timers.step, hdue]
  rfl

namespace Beats

variable {numSlots : ℕ} {tickMs : UInt32} {intervalMs : UInt64} {c : ℕ} {s : Heartbeating}

/-- The timers that were added are as many as the heartbeats, or one more. -/
theorem length_le (h : Beats numSlots tickMs intervalMs c s) :
  c ≤ s.wheel.history.timers.length ∧ s.wheel.history.timers.length ≤ c + 1
    ∧ c * period tickMs intervalMs ≤ s.wheel.history.ticks
  := by
  cases h.phase with
  | waiting htimers _ _ hle _ _ => exact ⟨by omega, htimers.le, hle⟩
  | due htimers _ _ hticks _ =>
      refine ⟨by omega, htimers.le, ?_⟩
      rw [hticks]
      exact Nat.mul_le_mul_right _ (Nat.le_succ c)
  | scheduling htimers _ _ hticks _ => exact ⟨htimers.ge, by omega, hticks.ge⟩
  | ended htimers _ _ hle _ _ => exact ⟨htimers.ge, by omega, hle⟩

theorem length_submitted (h : Beats numSlots tickMs intervalMs c s) :
  s.submitted.length = c
  := by
  rw [h.submitted, List.length_map, List.length_range]

theorem fresh (h : Beats numSlots tickMs intervalMs c s)
    (hticks : s.wheel.history.ticks + 1 < 2 ^ 64) :
  s.wheel.Fresh
  := by
  apply h.numbered.fresh
  obtain ⟨-, hlen, hle⟩ := h.length_le
  have hc : c * 1 ≤ c * period tickMs intervalMs := Nat.mul_le_mul_left c (period_pos ..)
  omega

/-- The callbacks that the next tick collects. -/
theorem collect_due (h : Beats numSlots tickMs intervalMs c s) {m : ℕ}
    (htimers : s.wheel.history.timers.length = m) :
  s.wheel.timers.wheel.collect.1 = (((List.range m).map (timer tickMs intervalMs)).filter
    (Scheduled.calledAt tickMs (s.wheel.history.ticks + 1))).map Scheduled.callback
  := by
  rw [h.sound.sim.collect_due, ← htimers, ← h.timers]

/-- A tick between two heartbeats, or the one with which the next is due. -/
theorem tick (h : Beats numSlots tickMs intervalMs c s) :
  Beats numSlots tickMs intervalMs c (s.step intervalMs .tick)
  := by
  have hsound := h.sound.tick
  have hnumbered := h.numbered.step .tick
  rw [step]
  cases h.phase with
  | scheduling _ _ hscheduling _ _ =>
      rw [if_pos hscheduling]
      exact h
  | due _ hdue hscheduling _ _ =>
      have hsame : s.wheel.step .tick = s.wheel := by
        rw [Observed.step, Timers.step, hdue]
        rfl
      rw [if_neg (Bool.eq_false_iff.mp hscheduling), hsame]
      exact h
  | waiting htimers hdue hscheduling hle hlt hstopped =>
      rw [if_neg (Bool.eq_false_iff.mp hscheduling)]
      rw [step_tick hdue] at hsound hnumbered ⊢
      refine ⟨hsound, hnumbered, h.timers, h.submitted, h.stop_eq, ?_⟩
      have hcollect := h.collect_due htimers
      rw [filter_calledAt_succ (Nat.lt_succ_of_le hle)] at hcollect
      split at hcollect
      case isTrue heq => exact .due htimers hcollect hscheduling heq hstopped
      case isFalse hne =>
          exact .waiting htimers hcollect hscheduling (hle.trans (Nat.le_succ _))
            (Nat.lt_of_le_of_ne hlt hne) hstopped
  | ended htimers hdue hscheduling hle hstop hstopped =>
      rw [if_neg (Bool.eq_false_iff.mp hscheduling)]
      rw [step_tick hdue] at hsound hnumbered ⊢
      refine ⟨hsound, hnumbered, h.timers, h.submitted, h.stop_eq, ?_⟩
      have hcollect := h.collect_due htimers
      rw [filter_calledAt_of_lt (Nat.lt_succ_of_le hle)] at hcollect
      exact .ended htimers hcollect hscheduling (hle.trans (Nat.le_succ _)) hstop hstopped

/-- A heartbeat is submitted only when its timer is due. -/
theorem submit (h : Beats numSlots tickMs intervalMs c s) :
  ∃ c', Beats numSlots tickMs intervalMs c' (s.step intervalMs .submit)
  := by
  cases h.phase with
  | waiting _ hdue hscheduling _ _ _ =>
      rw [step, hscheduling, hdue]
      exact ⟨c, h⟩
  | scheduling _ _ hscheduling _ _ =>
      rw [step, hscheduling]
      exact ⟨c, h⟩
  | ended _ hdue hscheduling _ _ _ =>
      rw [step, hscheduling, hdue]
      exact ⟨c, h⟩
  | due htimers hdue hscheduling hticks hstopped =>
      have hsound := h.sound.fire
      have hnumbered := h.numbered.step .fire
      have hfire : s.wheel.step .fire = ⟨⟨s.wheel.timers.wheel, []⟩, { s.wheel.history with
          called := s.wheel.history.called ++ [(s.wheel.history.ticks, ())] }⟩ := by
        rw [Observed.step, Timers.step, hdue]
        rfl
      rw [hfire] at hsound hnumbered
      rw [step, hscheduling, hdue]
      simp only [hfire]
      refine ⟨c + 1, hsound, hnumbered, h.timers, ?_, h.stop_eq, ?_⟩
      · rw [List.range_succ, List.map_append, ← h.submitted, List.map_singleton, ← hticks]
        exact List.map_append
      · refine .scheduling htimers rfl rfl hticks fun t ht => ?_
        rw [Nat.succ_mul]
        exact Nat.add_le_add_right (hstopped t ht) _

/-- The timer that is added at the end of a period is the next one. -/
theorem schedule (h : Beats numSlots tickMs intervalMs c s) (hshort : intervalMs.toNat < 2 ^ 63)
    (hticks : s.wheel.history.ticks + 1 < 2 ^ 64) :
  Beats numSlots tickMs intervalMs c (s.step intervalMs .schedule)
  := by
  have hidle : s.scheduling = false → s.step intervalMs .schedule = s := by
    intro hscheduling
    rw [step, hscheduling, if_neg Bool.false_ne_true]
  cases h.phase with
  | waiting _ _ hscheduling _ _ _ => exact (hidle hscheduling).symm ▸ h
  | due _ _ hscheduling _ _ => exact (hidle hscheduling).symm ▸ h
  | ended _ _ hscheduling _ _ _ => exact (hidle hscheduling).symm ▸ h
  | scheduling htimers hdue hscheduling heq hstopped =>
      rw [step, if_pos hscheduling, scheduleNextHeartbeat]
      by_cases hstop : s.stop = true
      · rw [if_pos hstop]
        exact ⟨h.sound, h.numbered, h.timers, h.submitted, h.stop_eq,
          .ended htimers hdue rfl heq.ge hstop hstopped⟩
      · rw [if_neg hstop]
        have hrunning : s.stoppedAt = none := by
          rwa [h.stop_eq, Option.not_isSome_iff_eq_none] at hstop
        have hlength : (s.wheel.step (.addTimer intervalMs (some ()))).history.timers.length
            = c + 1 := (length_timers_step ..).trans (congrArg (· + 1) htimers)
        have htimer : (⟨s.wheel.timers.wheel.nextId, s.wheel.history.ticks, intervalMs, some (),
            false⟩ : Scheduled Unit) = timer tickMs intervalMs c := by
          rw [h.numbered.nextId, htimers, heq]
          rfl
        refine ⟨h.sound.addTimer _ hshort (h.fresh hticks), h.numbered.step _, ?_, h.submitted,
          h.stop_eq, .waiting hlength hdue rfl heq.ge ?_ ?_⟩
        · change (s.wheel.step _).history.timers
            = (List.range (s.wheel.step _).history.timers.length).map _
          rw [hlength, List.range_succ, List.map_append, ← htimers, ← h.timers, htimers,
            List.map_singleton, ← htimer]
          rfl
        · change s.wheel.history.ticks < _
          rw [heq, Nat.succ_mul]
          exact Nat.lt_add_of_pos_right (period_pos ..)
        · intro t ht
          rw [hrunning] at ht
          cases ht

/-- Heartbeating can be stopped at any time. -/
theorem stopHeartbeating (h : Beats numSlots tickMs intervalMs c s) :
  Beats numSlots tickMs intervalMs c s.stopHeartbeating
  := by
  have hnew : ∀ {t : ℕ}, s.stopHeartbeating.stoppedAt = some t →
      s.stoppedAt = some t ∨ t = s.wheel.history.ticks := by
    intro t ht
    change (s.stoppedAt <|> some s.wheel.history.ticks) = some t at ht
    cases hstopped : s.stoppedAt with
    | none =>
        rw [hstopped] at ht
        exact .inr (Option.some.inj ht).symm
    | some t' =>
        rw [hstopped] at ht
        exact .inl ht
  refine ⟨h.sound, h.numbered, h.timers, h.submitted, ?_, ?_⟩
  · change true = (s.stoppedAt <|> some _).isSome
    cases s.stoppedAt <;> rfl
  · have hle := h.length_le.2.2
    cases h.phase with
    | waiting htimers hdue hscheduling hle hlt hstopped =>
        refine .waiting htimers hdue hscheduling hle hlt fun t ht => ?_
        rcases hnew ht with ht | rfl
        · exact hstopped t ht
        · exact hle
    | due htimers hdue hscheduling hticks hstopped =>
        refine .due htimers hdue hscheduling hticks fun t ht => ?_
        rcases hnew ht with ht | rfl
        · exact hstopped t ht
        · exact hle
    | scheduling htimers hdue hscheduling hticks hstopped =>
        refine .scheduling htimers hdue hscheduling hticks fun t ht => ?_
        rcases hnew ht with ht | rfl
        · exact hstopped t ht
        · exact hle.trans (Nat.le_add_right ..)
    | ended htimers hdue hscheduling hle hstop hstopped =>
        refine .ended htimers hdue hscheduling hle rfl fun t ht => ?_
        rcases hnew ht with ht | rfl
        · exact hstopped t ht
        · exact hle.trans (Nat.le_add_right ..)

theorem step (h : Beats numSlots tickMs intervalMs c s) (hshort : intervalMs.toNat < 2 ^ 63)
    (hticks : s.wheel.history.ticks + 1 < 2 ^ 64) (action : Action) :
  ∃ c', Beats numSlots tickMs intervalMs c' (s.step intervalMs action)
  := by
  cases action with
  | tick => exact ⟨c, h.tick⟩
  | submit => exact h.submit
  | schedule => exact ⟨c, h.schedule hshort hticks⟩
  | stop => exact ⟨c, h.stopHeartbeating⟩

/-- The first timer. -/
theorem startHeartbeating {w : TimerWheel Unit} (hslots : 1 ≤ numSlots) (htick : 1 ≤ tickMs.toNat)
    (hmake : TimerWheel.make Unit numSlots tickMs = some w)
    (hshort : intervalMs.toNat < 2 ^ 63) :
  Beats numSlots tickMs intervalMs 0 (startHeartbeating intervalMs w)
  := by
  have hnumbered := Numbered.start hmake
  have hfresh : (Observed.start w).Fresh := hnumbered.fresh (Nat.two_pow_pos 64)
  refine ⟨(Sound.start hslots htick hmake).addTimer _ hshort hfresh, hnumbered.step _, ?_, rfl, rfl,
    .waiting rfl rfl rfl (Nat.zero_mul _).le ?_ ?_⟩
  · have hnext : w.nextId = UInt64.ofNat 1 := hnumbered.nextId
    change [(⟨w.nextId, 0, _, _, _⟩ : Scheduled Unit)] = [timer tickMs intervalMs 0]
    rw [hnext, timer, Nat.zero_mul]
  · rw [Nat.zero_add, Nat.one_mul]
    exact period_pos ..
  · intro t ht
    cases ht

/-- At most one timer is pending: the one for the next heartbeat. -/
theorem pendingCount_eq (h : Beats numSlots tickMs intervalMs c s) :
  s.wheel.timers.wheel.pendingCount
    = if s.wheel.history.timers.length = c + 1
        ∧ s.wheel.history.ticks < (c + 1) * period tickMs intervalMs then 1 else 0
  := by
  rw [h.sound.sim.pendingCount_eq]
  have htimers := h.timers
  cases h.phase with
  | waiting hlength _ _ hle hlt _ =>
      rw [hlength] at htimers
      rw [htimers, countP_pending_succ hle hlt, ← htimers, if_pos ⟨hlength, hlt⟩]
  | due hlength _ _ hticks _ =>
      rw [hlength] at htimers
      rw [htimers, countP_pending_of_le hticks.ge, if_neg fun h => h.2.ne hticks]
  | scheduling hlength _ _ hticks _ =>
      rw [hlength] at htimers
      rw [htimers, countP_pending_of_le hticks.ge, ← htimers, if_neg (by omega)]
  | ended hlength _ _ hle _ _ =>
      rw [hlength] at htimers
      rw [htimers, countP_pending_of_le hle, ← htimers, if_neg (by omega)]

/-- As long as heartbeating is not stopped, no heartbeat is missing. -/
theorem of_running (h : Beats numSlots tickMs intervalMs c s) (hrunning : s.stoppedAt = none)
    (hidle : s.Idle) :
  c = s.wheel.history.ticks / period tickMs intervalMs ∧ s.wheel.timers.wheel.pendingCount = 1
  := by
  obtain ⟨hscheduling, hdue⟩ := hidle
  cases h.phase with
  | waiting htimers _ _ hle hlt _ =>
      rw [h.pendingCount_eq, if_pos ⟨htimers, hlt⟩]
      exact ⟨(Nat.div_eq_of_lt_le hle hlt).symm, rfl⟩
  | due _ hdue' _ _ _ =>
      rw [hdue] at hdue'
      cases hdue'
  | scheduling _ _ hscheduling' _ _ =>
      rw [hscheduling] at hscheduling'
      cases hscheduling'
  | ended _ _ _ _ hstop _ =>
      rw [h.stop_eq, hrunning] at hstop
      cases hstop

variable {t : ℕ}

/-- The last heartbeat but one was before heartbeating was stopped. -/
theorem le_of_stopped (h : Beats numSlots tickMs intervalMs c s) (ht : s.stoppedAt = some t) :
  c * period tickMs intervalMs ≤ t + period tickMs intervalMs
  := by
  cases h.phase with
  | waiting _ _ _ _ _ hstopped => exact (hstopped t ht).trans (Nat.le_add_right ..)
  | due _ _ _ _ hstopped => exact (hstopped t ht).trans (Nat.le_add_right ..)
  | scheduling _ _ _ _ hstopped => exact hstopped t ht
  | ended _ _ _ _ _ hstopped => exact hstopped t ht

/-- There is no timer one period later. -/
theorem pendingCount_of_stopped (h : Beats numSlots tickMs intervalMs c s)
    (ht : s.stoppedAt = some t) (hidle : s.Idle)
    (hafter : t + period tickMs intervalMs ≤ s.wheel.history.ticks) :
  s.wheel.timers.wheel.pendingCount = 0
  := by
  rw [h.pendingCount_eq, if_neg]
  rintro ⟨htimers, hlt⟩
  rw [Nat.succ_mul] at hlt
  cases h.phase with
  | waiting _ _ _ _ _ hstopped =>
      have hbefore := hstopped t ht
      omega
  | due _ hdue _ _ _ =>
      rw [hidle.2] at hdue
      cases hdue
  | scheduling htimers' _ _ _ _ => omega
  | ended htimers' _ _ _ _ _ => omega

end Beats

/-! ### Whole runs -/

theorem ticks_step_le (intervalMs : UInt64) (s : Heartbeating) (action : Action) :
  (s.step intervalMs action).wheel.history.ticks ≤ s.wheel.history.ticks + 1
  := by
  cases action with
  | tick =>
      rw [step]
      split
      · exact Nat.le_succ _
      · change (s.wheel.step .tick).history.ticks ≤ _
        rw [Observed.step, Timers.step]
        cases s.wheel.timers.due with
        | nil => exact Nat.le_refl _
        | cons callback due => exact Nat.le_succ _
  | submit =>
      rw [step]
      split
      case h_1 callback due _ hdue =>
          change (s.wheel.step .fire).history.ticks ≤ _
          rw [Observed.step, Timers.step, hdue]
          exact Nat.le_succ _
      case h_2 => exact Nat.le_succ _
  | schedule =>
      rw [step, scheduleNextHeartbeat]
      split
      · split <;> exact Nat.le_succ _
      · exact Nat.le_succ _
  | stop => exact Nat.le_succ _

/-- No timer is added after heartbeating was stopped. -/
theorem timers_run_of_stop {s : Heartbeating} (hstop : s.stop = true) (intervalMs : UInt64)
    (actions : List Action) :
  (s.run intervalMs actions).wheel.history.timers.length = s.wheel.history.timers.length
  := by
  induction actions generalizing s with
  | nil => rfl
  | cons action actions ih =>
      have hstep : (s.step intervalMs action).stop = true
          ∧ (s.step intervalMs action).wheel.history.timers.length
            = s.wheel.history.timers.length := by
        cases action with
        | tick =>
            rw [step]
            split
            · exact ⟨hstop, rfl⟩
            · exact ⟨hstop, length_timers_step s.wheel .tick⟩
        | submit =>
            rw [step]
            split
            · exact ⟨hstop, length_timers_step s.wheel .fire⟩
            · exact ⟨hstop, rfl⟩
        | schedule =>
            rw [step, scheduleNextHeartbeat, if_pos hstop]
            split
            · exact ⟨hstop, rfl⟩
            · exact ⟨hstop, rfl⟩
        | stop => exact ⟨rfl, rfl⟩
      exact (ih hstep.1).trans hstep.2

/-- Every run is between two heartbeats. -/
theorem beats_run {numSlots : ℕ} {tickMs : UInt32} {intervalMs : UInt64} {s : Heartbeating} {c : ℕ}
    (h : Beats numSlots tickMs intervalMs c s) (hshort : intervalMs.toNat < 2 ^ 63)
    {actions : List Action} (hticks : s.wheel.history.ticks + actions.length < 2 ^ 64) :
  ∃ c', Beats numSlots tickMs intervalMs c' (s.run intervalMs actions)
  := by
  induction actions generalizing s c with
  | nil => exact ⟨c, h⟩
  | cons action actions ih =>
      rw [List.length_cons] at hticks
      have hle := ticks_step_le intervalMs s action
      obtain ⟨c', hstep⟩ := h.step hshort (by omega) action
      exact ih hstep (by omega)

/-- The heartbeats are submitted one period after the other, whenever the threads take their steps,
and there is at most one timer. As long as heartbeating is not stopped, and the ticker thread is not
in a callback, none is missing, and there is a timer for the next one. When it is stopped, at most
one more is submitted, and one period later the wheel is empty. -/
theorem heartbeats_periodic {numSlots : ℕ} {tickMs : UInt32} {w : TimerWheel Unit}
    {intervalMs : UInt64} (hslots : 1 ≤ numSlots) (htick : 1 ≤ tickMs.toNat)
    (hmake : TimerWheel.make Unit numSlots tickMs = some w) (hshort : intervalMs.toNat < 2 ^ 63)
    {actions : List Action} (hlength : actions.length < 2 ^ 64) :
  let s := (startHeartbeating intervalMs w).run intervalMs actions
  let p := period tickMs intervalMs
  s.submitted = (List.range s.submitted.length).map (fun j => (j + 1) * p)
    ∧ s.wheel.timers.wheel.pendingCount ≤ 1
    ∧ (s.stoppedAt = none → s.Idle →
        s.submitted.length = s.wheel.history.ticks / p ∧ s.wheel.timers.wheel.pendingCount = 1)
    ∧ (∀ t, s.stoppedAt = some t → s.submitted.length ≤ t / p + 1
        ∧ (s.Idle → t + p ≤ s.wheel.history.ticks → s.wheel.timers.wheel.pendingCount = 0))
    ∧ (∀ before after, actions = before ++ .stop :: after → s.submitted.length
        ≤ ((startHeartbeating intervalMs w).run intervalMs before).submitted.length + 1)
  := by
  intro s p
  have hstart := Beats.startHeartbeating hslots htick hmake hshort
  obtain ⟨c, h⟩ : ∃ c, Beats numSlots tickMs intervalMs c s :=
    beats_run hstart hshort ((Nat.zero_add _).trans_lt hlength)
  have hp : 0 < p := period_pos ..
  have hcount : s.submitted.length = c := h.length_submitted
  rw [hcount]
  refine ⟨h.submitted, ?_, ?_, ?_, ?_⟩
  · rw [h.pendingCount_eq]
    split
    · exact Nat.le_refl 1
    · exact Nat.zero_le 1
  · exact h.of_running
  · intro t ht
    refine ⟨?_, h.pendingCount_of_stopped ht⟩
    rw [← Nat.add_div_right t hp]
    exact (Nat.le_div_iff_mul_le hp).mpr (h.le_of_stopped ht)
  · -- Every heartbeat has a timer, and there is at most one more when heartbeating is stopped.
    rintro before after rfl
    rw [List.length_append] at hlength
    obtain ⟨c', h'⟩ : ∃ c', Beats numSlots tickMs intervalMs c'
        ((startHeartbeating intervalMs w).run intervalMs before) :=
      beats_run hstart hshort ((Nat.zero_add _).trans_lt (by omega))
    have hrun : s = ((startHeartbeating intervalMs w).run intervalMs before).stopHeartbeating.run
        intervalMs after := List.foldl_append
    have hmore : s.wheel.history.timers.length ≤ c' + 1 := by
      rw [hrun, timers_run_of_stop rfl]
      exact h'.length_le.2.1
    have hless := h.length_le.1
    rw [h'.length_submitted]
    omega

theorem heartbeats_periodic_stopped :
  let actions : List Action :=
    [.tick, .tick, .submit, .schedule, .tick, .stop, .tick, .submit, .schedule, .tick]
  ∃ w, TimerWheel.make Unit 4 100 = some w
    ∧ let s := (startHeartbeating 200 w).run 200 actions
      s.stoppedAt = some 3 ∧ s.submitted.length = 2 ∧ s.submitted.length ≤ 3 / period 100 200 + 1
        ∧ s.wheel.timers.wheel.pendingCount = 0
        ∧ s.submitted.length
          ≤ ((startHeartbeating 200 w).run 200 (actions.take 5)).submitted.length + 1
  := by
  intro actions
  have hmake : TimerWheel.make Unit 4 100 = some ⟨List.replicate 4 [], 100, 0, 1, ∅⟩ := rfl
  have hlength : actions.length < 2 ^ 64 := by decide
  refine ⟨_, hmake, rfl, rfl, ?_⟩
  obtain ⟨-, -, -, hstopped, hmore⟩ := heartbeats_periodic (by decide) (by decide) hmake
    (show (200 : UInt64).toNat < 2 ^ 63 by decide) hlength
  obtain ⟨hle, hempty⟩ := hstopped 3 rfl
  exact ⟨hle, hempty ⟨rfl, rfl⟩ (by decide), hmore _ _ rfl⟩

end Heartbeating

end Broker
