import Mathlib.Data.Finmap
import Cascade.Library.Window

/-!
# The jitter buffer

The model of `media/jitter_buffer.hpp`: frames arrive in any order, and are played in the order of
their numbers. A frame that has not arrived when it is due is concealed by the last one that was
played.
-/

namespace Media

/-- Slots of time are counted from the first frame that arrived, which has the number
`baseSequence`. -/
structure JitterBuffer where
  frameIntervalMs : UInt32
  targetDelayMs : UInt32
  started : Bool
  baseArrivalMs : UInt64
  baseSequence : UInt32
  nextSequence : UInt32
  buffer : Finmap fun _ : UInt32 => List UInt8
  lastGoodPayload : List UInt8
  hasLastGood : Bool
  concealedCount : ℕ
  packetsPlayed : ℕ
  lateAfterDeadline : ℕ

/-- How a slot is filled, if it is due. -/
inductive PullKind
  | packet
  | concealed
  | notReady
deriving DecidableEq

/-- What a pull returns. The defaults are those of a slot that is not due. -/
structure PullResult where
  kind : PullKind := .notReady
  sequence : UInt32 := 0
  payload : List UInt8 := []
deriving DecidableEq

namespace JitterBuffer

/-- The constructor. -/
def make (frameIntervalMs targetDelayMs : UInt32) : JitterBuffer where
  frameIntervalMs
  targetDelayMs
  started := false
  baseArrivalMs := 0
  baseSequence := 0
  nextSequence := 0
  buffer := ∅
  lastGoodPayload := []
  hasLastGood := false
  concealedCount := 0
  packetsPlayed := 0
  lateAfterDeadline := 0

/-- The first frame that arrives is the first one to be played. -/
def begin (j : JitterBuffer) (sequence : UInt32) (arrivalTimeMs : UInt64) : JitterBuffer :=
  if j.started then j
  else
    { j with
      started := true
      baseArrivalMs := arrivalTimeMs
      baseSequence := sequence
      nextSequence := sequence }

/-- A frame whose slot has passed is counted as late, and not kept. -/
def push (j : JitterBuffer) (sequence : UInt32) (payload : List UInt8) (arrivalTimeMs : UInt64) :
    JitterBuffer :=
  let j := j.begin sequence arrivalTimeMs
  if sequence < j.nextSequence then { j with lateAfterDeadline := j.lateAfterDeadline + 1 }
  else { j with buffer := j.buffer.insert sequence payload }

/-- When the next frame is due. -/
def deadline (j : JitterBuffer) : UInt64 :=
  let slot := (j.nextSequence - j.baseSequence).toUInt64
  j.baseArrivalMs + j.targetDelayMs.toUInt64 + slot * j.frameIntervalMs.toUInt64

/-- A frame that is there is played even before its deadline. -/
def pull (j : JitterBuffer) (nowMs : UInt64) : PullResult × JitterBuffer :=
  if j.started then
    match j.buffer.lookup j.nextSequence with
    | some payload =>
        (⟨.packet, j.nextSequence, payload⟩,
          { j with
            lastGoodPayload := payload
            hasLastGood := true
            buffer := j.buffer.erase j.nextSequence
            nextSequence := j.nextSequence + 1
            packetsPlayed := j.packetsPlayed + 1 })
    | none =>
        if j.deadline ≤ nowMs then
          (⟨.concealed, j.nextSequence, if j.hasLastGood then j.lastGoodPayload else []⟩,
            { j with
              nextSequence := j.nextSequence + 1
              concealedCount := j.concealedCount + 1
              packetsPlayed := j.packetsPlayed + 1 })
        else ({}, j)
  else ({}, j)

/-! ### What was played -/

/-- The payload of the last frame that was not concealed. -/
def lastPacket (results : List PullResult) : List UInt8 :=
  ((results.filter (·.kind = .packet)).getLast?.map PullResult.payload).getD []

/-- Each concealed frame repeats the last one before it that was not. -/
def Conceals (results : List PullResult) : Prop :=
  ∀ before r after, results = before ++ r :: after → r.kind = .concealed →
    r.payload = lastPacket before

/-- The results so far are numbered one after the other, those that are no frames repeat the last
one, and the next result comes next. -/
structure Played (j : JitterBuffer) (results : List PullResult) : Prop where
  notStarted : j.started = false → results = []
  sequences : results.map (·.sequence.toNat) = List.range' j.baseSequence.toNat results.length
  next : j.nextSequence = UInt32.ofNat (j.baseSequence.toNat + results.length)
  last : (if j.hasLastGood then j.lastGoodPayload else []) = lastPacket results
  conceals : Conceals results

namespace Played

variable {j : JitterBuffer} {results : List PullResult}

theorem start (frameIntervalMs targetDelayMs : UInt32) :
  Played (make frameIntervalMs targetDelayMs) []
  := by
  refine ⟨fun _ => rfl, rfl, rfl, rfl, ?_⟩
  intro before r after hnil
  cases before <;> cases hnil

theorem begin (h : Played j results) (sequence : UInt32) (arrivalTimeMs : UInt64) :
  Played (j.begin sequence arrivalTimeMs) results
  := by
  rw [JitterBuffer.begin]
  split
  · exact h
  · rename_i hstarted
    obtain rfl := h.notStarted (Bool.eq_false_iff.mpr hstarted)
    refine ⟨fun _ => rfl, rfl, ?_, h.last, h.conceals⟩
    exact UInt32.ofNat_toNat.symm

theorem push (h : Played j results) (sequence : UInt32) (payload : List UInt8)
    (arrivalTimeMs : UInt64) :
  Played (j.push sequence payload arrivalTimeMs) results
  := by
  have hbegin := h.begin sequence arrivalTimeMs
  rw [JitterBuffer.push]
  split
  · exact ⟨hbegin.notStarted, hbegin.sequences, hbegin.next, hbegin.last, hbegin.conceals⟩
  · exact ⟨hbegin.notStarted, hbegin.sequences, hbegin.next, hbegin.last, hbegin.conceals⟩

theorem conceals_concat {r : PullResult} (h : Conceals results)
    (hr : r.kind = .concealed → r.payload = lastPacket results) :
  Conceals (results ++ [r])
  := by
  intro before r' after heq hkind
  rcases Window.split_concat heq with ⟨rfl, rfl⟩ | ⟨after', heq'⟩
  · exact hr hkind
  · exact h before r' after' heq' hkind

/-- Before the numbers wrap, a result has the number that comes next. -/
theorem sequence_concat (h : Played j results)
    (hposition : j.baseSequence.toNat + results.length < 2 ^ 32) {r : PullResult}
    (hr : r.sequence = j.nextSequence) :
  (results ++ [r]).map (·.sequence.toNat)
      = List.range' j.baseSequence.toNat (results ++ [r]).length
    ∧ j.nextSequence + 1 = UInt32.ofNat (j.baseSequence.toNat + (results ++ [r]).length)
  := by
  have hnext : j.nextSequence.toNat = j.baseSequence.toNat + results.length := by
    rw [h.next, UInt32.toNat_ofNat_of_lt' hposition]
  rw [List.length_append, List.length_singleton]
  constructor
  · rw [List.map_append, h.sequences, List.range'_concat, List.map_singleton, hr, hnext, one_mul]
  · rw [h.next, ← Nat.add_assoc, UInt32.ofNat_add (_ + _) 1]
    rfl

/-- The result of a pull is the next one, or there is none. -/
theorem pull (h : Played j results) (nowMs : UInt64)
    (hposition : j.baseSequence.toNat + results.length < 2 ^ 32) :
  (j.pull nowMs).1.kind = .notReady ∧ (j.pull nowMs).2 = j
    ∨ (j.pull nowMs).1.kind ≠ .notReady
      ∧ Played (j.pull nowMs).2 (results ++ [(j.pull nowMs).1])
  := by
  rw [JitterBuffer.pull]
  split
  · rename_i hstarted
    have hstarted' : ∀ {P : Prop}, j.started = false → P := by
      intro P hfalse
      rw [hstarted] at hfalse
      cases hfalse
    split
    · rename_i payload hlookup
      right
      obtain ⟨hsequences, hnext⟩ := h.sequence_concat hposition
        (r := ⟨.packet, j.nextSequence, payload⟩) rfl
      refine ⟨by simp, hstarted', hsequences, hnext, ?_, conceals_concat h.conceals (by simp)⟩
      simp [lastPacket]
    · split
      · right
        obtain ⟨hsequences, hnext⟩ := h.sequence_concat hposition
          (r := ⟨.concealed, j.nextSequence, if j.hasLastGood then j.lastGoodPayload else []⟩) rfl
        refine ⟨by simp, hstarted', hsequences, hnext, ?_,
          conceals_concat h.conceals fun _ => h.last⟩
        rw [lastPacket, List.filter_append, List.filter_cons_of_neg (by simp), List.filter_nil,
          List.append_nil]
        exact h.last
      · exact .inl ⟨rfl, rfl⟩
  · exact .inl ⟨rfl, rfl⟩

end Played

end JitterBuffer

end Media
