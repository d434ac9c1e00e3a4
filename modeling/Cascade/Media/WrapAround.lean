import Cascade.Media.Playout

/-!
# Numbers that wrap around

Adding a constant to all numbers of a run, modulo `2 ^ 32`. Whether a frame is late is decided by
comparing its number with that of the next slot. This depends on where the numbers lie: two
adjacent numbers compare the other way when one of them has wrapped and the other has not. The
rest of the jitter buffer works with differences and with equality of numbers. So the run with the
constant added does the same as the one without if and only if no frame arrives whose number wraps
when that of the next slot does not, or the other way around (`Playout.wraparound_iff`).
-/

open Runs

namespace Media

/-- The addition of `c` to `sequence` wraps. -/
def Wraps (c sequence : UInt32) : Prop := 2 ^ 32 ≤ sequence.toNat + c.toNat

instance (c sequence : UInt32) : Decidable (Wraps c sequence) :=
  inferInstanceAs (Decidable (2 ^ 32 ≤ sequence.toNat + c.toNat))

/-! ### Runs with a constant added -/

/-- The call with `c` added to its number. -/
def BufferCall.shift (c : UInt32) : BufferCall → BufferCall
  | .push sequence payload arrivalTimeMs => .push (sequence + c) payload arrivalTimeMs
  | .pull nowMs => .pull nowMs

/-- A result that says that nothing is due has no number. -/
def PullResult.shift (c : UInt32) (r : PullResult) : PullResult :=
  if r.kind = .notReady then r else { r with sequence := r.sequence + c }

/-- The entry with `c` added to its number. -/
def Entry.shift (c : UInt32) : Entry → Entry
  | .pushed sequence payload arrivalTimeMs => .pushed (sequence + c) payload arrivalTimeMs
  | .pulled nowMs result => .pulled nowMs (result.shift c)

namespace Playout

/-- The results of the second run are those of the first with `c` added to their numbers, and the
counters are the same. -/
structure ShiftedBy (c : UInt32) (p p' : Playout) : Prop where
  history : p'.history = p.history.map (Entry.shift c)
  concealed : p'.buffer.concealedCount = p.buffer.concealedCount
  played : p'.buffer.packetsPlayed = p.buffer.packetsPlayed
  late : p'.buffer.lateAfterDeadline = p.buffer.lateAfterDeadline

/-- The number of a frame that arrives wraps if and only if that of the next slot does. -/
def Together (c : UInt32) (p : Playout) : BufferCall → Prop
  | .push sequence _ arrivalTimeMs =>
      Wraps c sequence ↔ Wraps c (p.buffer.begin sequence arrivalTimeMs).nextSequence
  | .pull _ => True

end Playout

/-! ### Numbers -/

/-- A comparison comes out the same if both numbers wrap or none does, and only then. -/
theorem add_lt_add_iff (c s n : UInt32) :
  (s + c < n + c ↔ s < n) ↔ (Wraps c s ↔ Wraps c n)
  := by
  have hs := s.toNat_lt
  have hn := n.toNat_lt
  have hc := c.toNat_lt
  rw [UInt32.lt_iff_toNat_lt, UInt32.lt_iff_toNat_lt, UInt32.toNat_add, UInt32.toNat_add, Wraps,
    Wraps]
  omega

theorem add_sub_add (c n b : UInt32) :
  n + c - (b + c) = n - b
  := by
  have hn := n.toNat_lt
  have hb := b.toNat_lt
  have hc := c.toNat_lt
  apply UInt32.toNat_inj.mp
  rw [UInt32.toNat_sub, UInt32.toNat_sub, UInt32.toNat_add, UInt32.toNat_add]
  omega

/-! ### One call -/

namespace JitterBuffer

/-- A buffer and the one with `c` added to its numbers. -/
structure Shifted (c : UInt32) (j j' : JitterBuffer) : Prop where
  interval : j'.frameIntervalMs = j.frameIntervalMs
  delay : j'.targetDelayMs = j.targetDelayMs
  started : j'.started = j.started
  arrival : j'.baseArrivalMs = j.baseArrivalMs
  base : j.started = true → j'.baseSequence = j.baseSequence + c
  next : j.started = true → j'.nextSequence = j.nextSequence + c
  buffer : ∀ sequence, j'.buffer.lookup (sequence + c) = j.buffer.lookup sequence
  last : j'.lastGoodPayload = j.lastGoodPayload
  hasLast : j'.hasLastGood = j.hasLastGood
  concealed : j'.concealedCount = j.concealedCount
  played : j'.packetsPlayed = j.packetsPlayed
  late : j'.lateAfterDeadline = j.lateAfterDeadline

namespace Shifted

variable {c : UInt32} {j j' : JitterBuffer}

theorem begin (h : Shifted c j j') (sequence : UInt32) (arrivalMs : UInt64) :
  Shifted c (j.begin sequence arrivalMs) (j'.begin (sequence + c) arrivalMs)
    ∧ (j.begin sequence arrivalMs).started = true
  := by
  rw [JitterBuffer.begin, JitterBuffer.begin, h.started]
  split
  · rename_i hstarted
    exact ⟨h, hstarted⟩
  · exact ⟨{ h with started := rfl, arrival := rfl, base := fun _ => rfl, next := fun _ => rfl },
      rfl⟩

theorem insert (h : Shifted c j j') (sequence : UInt32) (payload : List UInt8) :
  Shifted c { j with buffer := j.buffer.insert sequence payload }
    { j' with buffer := j'.buffer.insert (sequence + c) payload }
  := by
  refine { h with buffer := ?_ }
  intro s
  by_cases heq : s = sequence
  · rw [heq, Finmap.lookup_insert, Finmap.lookup_insert]
  · have hne : s + c ≠ sequence + c := (UInt32.add_left_inj c).not.mpr heq
    rw [Finmap.lookup_insert_of_ne _ heq, Finmap.lookup_insert_of_ne _ hne, h.buffer]

/-- A frame is late in both or in none. -/
theorem push (h : Shifted c j j') {sequence : UInt32} {arrivalMs : UInt64}
    (htogether : Wraps c sequence ↔ Wraps c (j.begin sequence arrivalMs).nextSequence)
    (payload : List UInt8) :
  Shifted c (j.push sequence payload arrivalMs) (j'.push (sequence + c) payload arrivalMs)
  := by
  obtain ⟨hbegin, hstarted⟩ := h.begin sequence arrivalMs
  have hiff := (add_lt_add_iff c sequence _).mpr htogether
  rw [← hbegin.next hstarted] at hiff
  rw [JitterBuffer.push, JitterBuffer.push]
  by_cases hlate : sequence < (j.begin sequence arrivalMs).nextSequence
  · rw [if_pos hlate, if_pos (hiff.mpr hlate)]
    exact { hbegin with late := congrArg (· + 1) hbegin.late }
  · rw [if_neg hlate, if_neg (hiff.not.mpr hlate)]
    exact hbegin.insert sequence payload

/-- Else it is counted as late in one of them only. -/
theorem push_late_ne (h : Shifted c j j') {sequence : UInt32} {arrivalMs : UInt64}
    (hapart : ¬ (Wraps c sequence ↔ Wraps c (j.begin sequence arrivalMs).nextSequence))
    (payload : List UInt8) :
  (j'.push (sequence + c) payload arrivalMs).lateAfterDeadline
    ≠ (j.push sequence payload arrivalMs).lateAfterDeadline
  := by
  obtain ⟨hbegin, hstarted⟩ := h.begin sequence arrivalMs
  have hiff := (add_lt_add_iff c sequence _).not.mpr hapart
  rw [← hbegin.next hstarted] at hiff
  rw [JitterBuffer.push, JitterBuffer.push]
  by_cases hlate : sequence < (j.begin sequence arrivalMs).nextSequence
  · have hlate' : ¬ sequence + c < (j'.begin (sequence + c) arrivalMs).nextSequence := by
      intro hlate'
      exact hiff (iff_of_true hlate' hlate)
    rw [if_pos hlate, if_neg hlate']
    dsimp only
    rw [hbegin.late]
    omega
  · have hlate' : sequence + c < (j'.begin (sequence + c) arrivalMs).nextSequence := by
      by_contra hlate'
      exact hiff (iff_of_false hlate' hlate)
    rw [if_neg hlate, if_pos hlate']
    dsimp only
    rw [hbegin.late]
    omega

theorem deadline_eq (h : Shifted c j j') (hstarted : j.started = true) :
  j'.deadline = j.deadline
  := by
  rw [deadline, deadline, h.arrival, h.delay, h.interval, h.next hstarted, h.base hstarted,
    add_sub_add]

theorem erase (h : Shifted c j j') (sequence s : UInt32) :
  (j'.buffer.erase (sequence + c)).lookup (s + c) = (j.buffer.erase sequence).lookup s
  := by
  by_cases heq : s = sequence
  · rw [heq, Finmap.lookup_erase, Finmap.lookup_erase]
  · have hne : s + c ≠ sequence + c := (UInt32.add_left_inj c).not.mpr heq
    rw [Finmap.lookup_erase_ne heq, Finmap.lookup_erase_ne hne, h.buffer]

theorem pull (h : Shifted c j j') (nowMs : UInt64) :
  (j'.pull nowMs).1 = (j.pull nowMs).1.shift c ∧ Shifted c (j.pull nowMs).2 (j'.pull nowMs).2
  := by
  rw [JitterBuffer.pull, JitterBuffer.pull]
  by_cases hstarted : j.started = true
  · have hnext := h.next hstarted
    have hnext' : j.nextSequence + c + 1 = j.nextSequence + 1 + c := by
      rw [UInt32.add_assoc, UInt32.add_comm c, UInt32.add_assoc]
    rw [if_pos hstarted, if_pos (h.started.trans hstarted), h.deadline_eq hstarted, hnext,
      h.buffer]
    cases j.buffer.lookup j.nextSequence with
    | some payload =>
        refine ⟨rfl, ?_⟩
        exact { h with
          next := fun _ => hnext'
          buffer := h.erase j.nextSequence
          last := rfl
          hasLast := rfl
          played := congrArg (· + 1) h.played }
    | none =>
        dsimp only
        by_cases hdue : j.deadline ≤ nowMs
        · rw [if_pos hdue, if_pos hdue, h.hasLast, h.last]
          refine ⟨rfl, ?_⟩
          exact { h with
            next := fun _ => hnext'
            last := rfl
            hasLast := rfl
            concealed := congrArg (· + 1) h.concealed
            played := congrArg (· + 1) h.played }
        · rw [if_neg hdue, if_neg hdue]
          exact ⟨rfl, h⟩
  · have hstarted' : ¬ j'.started = true := by rwa [h.started]
    rw [if_neg hstarted, if_neg hstarted']
    exact ⟨rfl, h⟩

end Shifted

end JitterBuffer

/-! ### Runs -/

namespace Playout

variable {c : UInt32} {p p' : Playout}

/-- Calls after which the buffers correspond. -/
theorem step_shifted (hbuffer : p.buffer.Shifted c p'.buffer)
    (hhistory : p'.history = p.history.map (Entry.shift c)) {call : BufferCall}
    (htogether : p.Together c call) :
  (p.step call).buffer.Shifted c (p'.step (call.shift c)).buffer
    ∧ (p'.step (call.shift c)).history = (p.step call).history.map (Entry.shift c)
  := by
  cases call with
  | push sequence payload arrivalMs =>
      refine ⟨hbuffer.push htogether payload, ?_⟩
      simp only [step, BufferCall.shift]
      rw [hhistory, List.map_append]
      rfl
  | pull nowMs =>
      obtain ⟨hresult, hbuffer'⟩ := hbuffer.pull nowMs
      refine ⟨hbuffer', ?_⟩
      simp only [step, BufferCall.shift]
      rw [hhistory, List.map_append, hresult]
      rfl

/-- A call after which they do not. -/
theorem together_of_late (hbuffer : p.buffer.Shifted c p'.buffer) {call : BufferCall}
    (hlate : (p'.step (call.shift c)).buffer.lateAfterDeadline
      = (p.step call).buffer.lateAfterDeadline) :
  p.Together c call
  := by
  cases call with
  | push sequence payload arrivalMs =>
      by_contra hapart
      exact hbuffer.push_late_ne hapart payload hlate
  | pull nowMs => trivial

theorem shiftedBy_iff (hbuffer : p.buffer.Shifted c p'.buffer)
    (hhistory : p'.history = p.history.map (Entry.shift c)) (calls : List BufferCall) :
  (∀ n, ShiftedBy c (p.run (calls.take n)) (p'.run ((calls.take n).map (BufferCall.shift c))))
    ↔ Along step (Together c) p calls
  := by
  have hnow : ShiftedBy c p p' :=
    ⟨hhistory, hbuffer.concealed, hbuffer.played, hbuffer.late⟩
  induction calls generalizing p p' with
  | nil =>
      refine ⟨fun _ => trivial, fun _ n => ?_⟩
      rw [List.take_nil]
      exact hnow
  | cons call calls ih =>
      rw [Along]
      constructor
      · intro h
        have htogether : p.Together c call := together_of_late hbuffer (h 1).late
        obtain ⟨hbuffer', hhistory'⟩ := step_shifted hbuffer hhistory htogether
        refine ⟨htogether, ?_⟩
        apply (ih hbuffer' hhistory' ?_).mp
        · intro n
          exact h (n + 1)
        · exact ⟨hhistory', hbuffer'.concealed, hbuffer'.played, hbuffer'.late⟩
      · rintro ⟨htogether, halong⟩ n
        obtain ⟨hbuffer', hhistory'⟩ := step_shifted hbuffer hhistory htogether
        cases n with
        | zero => exact hnow
        | succ n =>
            apply (ih hbuffer' hhistory' ?_).mpr halong n
            exact ⟨hhistory', hbuffer'.concealed, hbuffer'.played, hbuffer'.late⟩

/-- Adding a constant to the numbers of all frames of a run adds it to the numbers of all results,
and changes nothing else at any time of the run, if and only if no frame arrives whose number wraps
when that of the next slot does not, or the other way around. -/
theorem wraparound_iff (frameIntervalMs targetDelayMs c : UInt32) (calls : List BufferCall) :
  (∀ n, ShiftedBy c ((start frameIntervalMs targetDelayMs).run (calls.take n))
      ((start frameIntervalMs targetDelayMs).run ((calls.take n).map (BufferCall.shift c))))
    ↔ Along step (Together c) (start frameIntervalMs targetDelayMs) calls
  := by
  apply shiftedBy_iff _ rfl
  exact ⟨rfl, rfl, rfl, rfl, by rintro ⟨⟩, by rintro ⟨⟩, fun _ => rfl, rfl, rfl, rfl, rfl, rfl⟩

/-- Two consecutive frames, and the same two with numbers of which the second has wrapped. -/
theorem wraparound_loses :
  let calls : List BufferCall := [.push 10 [1] 0, .push 11 [2] 5, .pull 100, .pull 100]
  let p := (start 20 50).run calls
  let p' := (start 20 50).run (calls.map (BufferCall.shift 4294967285))
  results p.history = [⟨.packet, 10, [1]⟩, ⟨.packet, 11, [2]⟩]
    ∧ results p'.history = [⟨.packet, 4294967295, [1]⟩, ⟨.concealed, 0, [1]⟩]
    ∧ p.buffer.lateAfterDeadline = 0 ∧ p'.buffer.lateAfterDeadline = 1
  := by
  decide +kernel

end Playout

end Media
