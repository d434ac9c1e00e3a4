import Cascade.Timer.Wheel

/-!
# What timers are for

One who makes the calls knows which timers were added, and when, and which were cancelled, from
what the calls have returned. This is the `History` of a wheel. It says when a timer is due, and
that is all there is to say about timers: what a wheel does can be told from its history, without a
look at the slots.
-/

namespace Timer

variable {α : Type}

/-- A timer that was added, after so many ticks. -/
structure Scheduled (α : Type) where
  id : UInt64
  added : ℕ
  delayMs : UInt64
  callback : Option α
  cancelled : Bool

/-- The number of the tick during which a timer is due. -/
def Scheduled.due (tickMs : UInt32) (t : Scheduled α) : ℕ :=
  t.added + max 1 (t.delayMs.toNat / tickMs.toNat)

/-- After so many ticks, the timer is still to come. -/
def Scheduled.pending (tickMs : UInt32) (ticks : ℕ) (t : Scheduled α) : Bool :=
  !t.cancelled && ticks < t.due tickMs

/-- The timer is called during this tick. -/
def Scheduled.calledAt (tickMs : UInt32) (n : ℕ) (t : Scheduled α) : Bool :=
  !t.cancelled && t.due tickMs = n

/-- The number of ticks, the timers in the order in which they were added, and the callbacks that
were called, with the number of the tick. -/
structure History (α : Type) where
  ticks : ℕ
  timers : List (Scheduled α)
  called : List (ℕ × α)

namespace History

def empty : History α := ⟨0, [], []⟩

/-- The timer with this id is cancelled. -/
def markCancelled (tickMs : UInt32) (ticks : ℕ) (id : UInt64) (t : Scheduled α) : Scheduled α :=
  if t.pending tickMs ticks ∧ t.id = id then { t with cancelled := true } else t

/-- What a call and what came of it add. -/
def observe (tickMs : UInt32) (h : History α) : Call α → Result α → History α
  | .addTimer delayMs callback, .added id =>
      { h with timers := h.timers ++ [⟨id, h.ticks, delayMs, callback, false⟩] }
  | .cancel id, .cancelled true =>
      { h with timers := h.timers.map (markCancelled tickMs h.ticks id) }
  | .tick, .ticked => { h with ticks := h.ticks + 1 }
  | .fire, .called callback => { h with called := h.called ++ [(h.ticks, callback)] }
  | _, _ => h

/-- The callbacks of the timers that were due in the ticks so far and were not cancelled, tick by
tick, and in each tick in the order in which they were added. -/
def expected (tickMs : UInt32) (h : History α) : List (ℕ × α) :=
  (List.range' 1 h.ticks).flatMap fun n =>
    ((h.timers.filter (Scheduled.calledAt tickMs n)).filterMap Scheduled.callback).map (n, ·)

end History

/-- A wheel with its history. -/
structure Observed (α : Type) where
  timers : Timers α
  history : History α

namespace Observed

/-- A new wheel. -/
def start (w : TimerWheel α) : Observed α :=
  ⟨⟨w, []⟩, .empty⟩

/-- A call, and what is seen of it. -/
def step (s : Observed α) (call : Call α) : Observed α :=
  let r := s.timers.step call
  ⟨r.1, s.history.observe s.timers.wheel.tickMs call r.2⟩

/-- Calls one after the other. -/
def run (s : Observed α) (calls : List (Call α)) : Observed α :=
  calls.foldl step s

end Observed

/-- The delays are below `2 ^ 63`. -/
def Call.Short : Call α → Prop
  | .addTimer delayMs _ => delayMs.toNat < 2 ^ 63
  | _ => True

/-- The call adds a timer. -/
def Call.adds : Call α → Bool
  | .addTimer .. => true
  | _ => false

/-! ### Time goes on -/

section Facts

variable {tickMs : UInt32} {ticks n : ℕ} {t : Scheduled α} {h : History α}

theorem Scheduled.pending_iff :
  t.pending tickMs ticks = true ↔ t.cancelled = false ∧ ticks < t.due tickMs
  := by
  rw [Scheduled.pending, Bool.and_eq_true, Bool.not_eq_true', decide_eq_true_iff]

theorem Scheduled.calledAt_iff :
  t.calledAt tickMs n = true ↔ t.cancelled = false ∧ t.due tickMs = n
  := by
  rw [Scheduled.calledAt, Bool.and_eq_true, Bool.not_eq_true', decide_eq_true_iff]

/-- A timer is called with the next tick or is then still to come. -/
theorem Scheduled.pending_iff_calledAt_or :
  t.pending tickMs ticks = true
    ↔ t.calledAt tickMs (ticks + 1) = true ∨ t.pending tickMs (ticks + 1) = true
  := by
  rw [pending_iff, pending_iff, calledAt_iff]
  constructor
  · rintro ⟨hcancelled, hlt⟩
    rcases Nat.eq_or_lt_of_le (Nat.succ_le_of_lt hlt) with heq | hlt
    · exact .inl ⟨hcancelled, heq.symm⟩
    · exact .inr ⟨hcancelled, hlt⟩
  · rintro (⟨hcancelled, heq⟩ | ⟨hcancelled, hlt⟩)
    · exact ⟨hcancelled, by omega⟩
    · exact ⟨hcancelled, by omega⟩

/-- What is expected of the ticks so far does not depend on the timers that are not due by then. -/
theorem expected_congr {h' : History α} (hticks : h'.ticks = h.ticks)
    (hcalled : ∀ n ≤ h.ticks,
      (h'.timers.filter (Scheduled.calledAt tickMs n)).filterMap Scheduled.callback
      = (h.timers.filter (Scheduled.calledAt tickMs n)).filterMap Scheduled.callback) :
  h'.expected tickMs = h.expected tickMs
  := by
  rw [History.expected, History.expected, hticks]
  apply List.flatMap_congr
  intro n hn
  rw [List.mem_range'_1] at hn
  rw [hcalled n (by omega)]

theorem expected_tick (h : History α) :
  { h with ticks := h.ticks + 1 }.expected tickMs
    = h.expected tickMs ++ ((h.timers.filter (Scheduled.calledAt tickMs (h.ticks + 1))).filterMap
        Scheduled.callback).map (h.ticks + 1, ·)
  := by
  rw [History.expected, History.expected, List.range'_concat, List.flatMap_append,
    List.flatMap_singleton, Nat.add_comm 1, Nat.one_mul]

end Facts

end Timer
