import Mathlib.Data.List.DropRight
import Cascade.Media.BitrateController

/-!
# The adaptive sender

The model of `media/adaptive_sender.hpp`, with `media/priority_queue.hpp`: packets of two
priorities are queued, and drained at the bitrate that the controller selects. Packets of high
priority are always sent; the others have to get tokens from a bucket, or are dropped.

Whatever the controller and the bucket do, each packet of high priority is returned by the next
drain, and of the others those are missing that were counted as dropped
(`AdaptiveSender.drain_conserves`). This does not depend on what the numbers are that the bucket
computes with.
-/

namespace Media

/-! ### The queue -/

/-- The levels of the queue. -/
inductive PacketPriority
  | high
  | normal
deriving DecidableEq

/-- One queue for each level. -/
structure PriorityPacketQueue where
  high : List (List UInt8) := []
  normal : List (List UInt8) := []
deriving DecidableEq

namespace PriorityPacketQueue

/-- A packet waits behind the others of its level. -/
def push (q : PriorityPacketQueue) (data : List UInt8) : PacketPriority → PriorityPacketQueue
  | .high => { q with high := q.high ++ [data] }
  | .normal => { q with normal := q.normal ++ [data] }

/-- The first packet of the first level that has one. -/
def popWithPriority (q : PriorityPacketQueue) :
    Option ((PacketPriority × List UInt8) × PriorityPacketQueue) :=
  match q.high, q.normal with
  | data :: high, normal => some ((.high, data), ⟨high, normal⟩)
  | [], data :: normal => some ((.normal, data), ⟨[], normal⟩)
  | [], [] => none

/-- The packets of both levels. -/
def size (q : PriorityPacketQueue) : ℕ := q.high.length + q.normal.length

end PriorityPacketQueue

/-! ### The token bucket -/

/-- A bucket whose clock is an argument of its calls. -/
structure DeterministicTokenBucket (K : Type) where
  rateBytesPerSec : K
  capacityBytes : K
  tokens : K
  lastRefillMs : UInt64
  initialized : Bool

section Model

variable {K : Type}

/-- The smaller one of two numbers, the first one if they are the same. -/
def stdMin [LT K] [DecidableLT K] (a b : K) : K := if b < a then b else a

variable [NatCast K] [Add K] [Sub K] [Mul K] [Div K] [LT K] [LE K] [DecidableLT K] [DecidableLE K]

namespace DeterministicTokenBucket

/-- As it is constructed. -/
def make : DeterministicTokenBucket K where
  rateBytesPerSec := (0 : ℕ)
  capacityBytes := (0 : ℕ)
  tokens := (0 : ℕ)
  lastRefillMs := 0
  initialized := false

/-- Add the tokens since the last call, none if the time has not increased. -/
def refill (b : DeterministicTokenBucket K) (nowMs : UInt64) : DeterministicTokenBucket K :=
  let elapsedSec : K :=
    if b.lastRefillMs < nowMs then ((nowMs - b.lastRefillMs).toNat : K) / ((1000 : ℕ) : K)
    else (0 : ℕ)
  { b with
    lastRefillMs := nowMs
    tokens := stdMin b.capacityBytes (b.tokens + elapsedSec * b.rateBytesPerSec) }

/-- Tokens are settled under the old rate before it changes. -/
def reconfigure (b : DeterministicTokenBucket K) (rateBytesPerSec capacityBytes : K)
    (nowMs : UInt64) : DeterministicTokenBucket K :=
  let b :=
    if b.initialized then b.refill nowMs
    else { b with tokens := capacityBytes, lastRefillMs := nowMs, initialized := true }
  { b with rateBytesPerSec, capacityBytes, tokens := stdMin b.tokens capacityBytes }

/-- Take the tokens if all are there. -/
def tryConsume (b : DeterministicTokenBucket K) (bytes : K) (nowMs : UInt64) :
    Bool × DeterministicTokenBucket K :=
  let b := b.refill nowMs
  if bytes ≤ b.tokens then (true, { b with tokens := b.tokens - bytes }) else (false, b)

end DeterministicTokenBucket

/-! ### The sender -/

/-- The controller, which others use too, is not a part of the sender. -/
structure AdaptiveSender (K : Type) where
  queue : PriorityPacketQueue
  bucket : DeterministicTokenBucket K
  droppedCount : ℕ

namespace AdaptiveSender

/-- A packet is queued without a look at the bucket. -/
def enqueue (s : AdaptiveSender K) (priority : PacketPriority) (data : List UInt8) :
    AdaptiveSender K :=
  { s with queue := s.queue.push data priority }

/-- The loop of a drain, as often as there are packets at most. -/
def drainLoop (nowMs : UInt64) : ℕ → AdaptiveSender K → List (List UInt8) × AdaptiveSender K
  | 0, s => ([], s)
  | n + 1, s =>
      match s.queue.popWithPriority with
      | none => ([], s)
      | some ((.high, data), queue) =>
          let r := drainLoop nowMs n { s with queue }
          (data :: r.1, r.2)
      | some ((.normal, data), queue) =>
          let (granted, bucket) := s.bucket.tryConsume (data.length : K) nowMs
          if granted then
            let r := drainLoop nowMs n { s with queue, bucket }
            (data :: r.1, r.2)
          else drainLoop nowMs n ⟨queue, bucket, s.droppedCount + 1⟩

/-- The byte rate of a level. -/
def bytesPerSec (level : QualityLevel) : K :=
  (level.bitrateKbps.toNat : K) * ((1000 : ℕ) : K) / ((8 : ℕ) : K)

/-- What is sent, and the sender, the controller and the estimator afterwards. -/
def drain (s : AdaptiveSender K) (controller : BitrateController K)
    (estimator : NetworkConditionEstimator K) (nowMs : UInt64) :
    List (List UInt8) × AdaptiveSender K × BitrateController K × NetworkConditionEstimator K :=
  let (_, controller, estimator) := controller.evaluate estimator nowMs
  let rate : K := bytesPerSec controller.current
  let capacity := rate * (((1 : ℕ) : K) / ((2 : ℕ) : K))
  let bucket := s.bucket.reconfigure rate capacity nowMs
  let r := drainLoop nowMs s.queue.size { s with bucket }
  (r.1, r.2, controller, estimator)

end AdaptiveSender

/-! ### Runs -/

/-- The calls to a sender. At each drain the controller and the estimator are in the state in
which their other users have left them. -/
inductive SenderCall (K : Type)
  | enqueue (priority : PacketPriority) (data : List UInt8)
  | drain (controller : BitrateController K) (estimator : NetworkConditionEstimator K)
      (nowMs : UInt64)

namespace AdaptiveSender

/-- One call, and what it returns if it is a drain. -/
def step (s : AdaptiveSender K) :
    SenderCall K → Option (List (List UInt8)) × AdaptiveSender K
  | .enqueue priority data => (none, s.enqueue priority data)
  | .drain controller estimator nowMs =>
      let r := s.drain controller estimator nowMs
      (some r.1, r.2.1)

/-- What the drains of a run return, and the sender afterwards. -/
def run (s : AdaptiveSender K) (calls : List (SenderCall K)) :
    List (List (List UInt8)) × AdaptiveSender K :=
  calls.foldl (fun r call => (r.1 ++ (r.2.step call).1.toList, (r.2.step call).2)) ([], s)

end AdaptiveSender

end Model

namespace SenderCall

variable {K : Type}

/-- Whether the call takes packets from the queue. -/
def isDrain : SenderCall K → Bool
  | .enqueue _ _ => false
  | .drain _ _ _ => true

/-- The packet that a call enqueues with a priority. -/
def packet? (priority : PacketPriority) : SenderCall K → Option (List UInt8)
  | .enqueue priority' data => if priority' = priority then some data else none
  | .drain _ _ _ => none

end SenderCall

section Spec

variable {K : Type} (priority : PacketPriority) (calls : List (SenderCall K))

/-- The packets with a priority that were enqueued. -/
def enqueued : List (List UInt8) := calls.filterMap (SenderCall.packet? priority)

/-- Those of them that were enqueued since the last drain. -/
def enqueuedSince : List (List UInt8) :=
  enqueued priority (calls.rtakeWhile fun call => !call.isDrain)

theorem enqueued_concat (call : SenderCall K) :
  enqueued priority (calls ++ [call]) = enqueued priority calls ++ (call.packet? priority).toList
  := by
  rw [enqueued, List.filterMap_append]
  rfl

theorem enqueuedSince_enqueue (priority' : PacketPriority) (data : List UInt8) :
  enqueuedSince priority (calls ++ [.enqueue priority' data])
    = enqueuedSince priority calls
      ++ (SenderCall.packet? (K := K) priority (.enqueue priority' data)).toList
  := by
  rw [enqueuedSince, List.rtakeWhile_concat_pos, enqueued_concat, enqueuedSince]
  rfl

theorem enqueuedSince_drain (controller : BitrateController K)
    (estimator : NetworkConditionEstimator K) (nowMs : UInt64) :
  enqueuedSince priority (calls ++ [.drain controller estimator nowMs]) = []
  := by
  rw [enqueuedSince, List.rtakeWhile_concat_neg]
  · rfl
  · exact Bool.false_ne_true

end Spec

/-! ### One drain -/

section Drain

variable {K : Type} [NatCast K] [Add K] [Sub K] [Mul K] [Div K] [LT K] [LE K] [DecidableLT K]
  [DecidableLE K]

/-- Which ones of several packets get their tokens, and the bucket afterwards. -/
def DeterministicTokenBucket.admission (nowMs : UInt64) :
    List (List UInt8) → DeterministicTokenBucket K →
      List (List UInt8) × DeterministicTokenBucket K
  | [], b => ([], b)
  | data :: packets, b =>
      let r := admission nowMs packets (b.tryConsume (data.length : K) nowMs).2
      (if (b.tryConsume (data.length : K) nowMs).1 then data :: r.1 else r.1, r.2)

theorem DeterministicTokenBucket.admission_sublist (nowMs : UInt64) (packets : List (List UInt8))
    (b : DeterministicTokenBucket K) :
  (b.admission nowMs packets).1.Sublist packets
  := by
  induction packets generalizing b with
  | nil => exact .slnil
  | cons data packets ih =>
      rw [admission]
      dsimp only
      split
      · exact (ih _).cons_cons data
      · exact (ih _).cons data

namespace AdaptiveSender

/-- The loop sends the packets of high priority and those that the bucket admits, and counts the
others. -/
theorem drainLoop_eq (nowMs : UInt64) (high normal : List (List UInt8))
    (b : DeterministicTokenBucket K) (dropped : ℕ) :
  drainLoop nowMs (high.length + normal.length) ⟨⟨high, normal⟩, b, dropped⟩
    = (high ++ (b.admission nowMs normal).1,
        ⟨{}, (b.admission nowMs normal).2,
          dropped + (normal.length - (b.admission nowMs normal).1.length)⟩)
  := by
  induction high with
  | nil =>
      rw [List.length_nil, Nat.zero_add, List.nil_append]
      induction normal generalizing b dropped with
      | nil => rfl
      | cons data normal ih =>
          have hsub := (b.tryConsume (data.length : K) nowMs).2.admission_sublist nowMs normal
          rw [List.length_cons, drainLoop, DeterministicTokenBucket.admission]
          dsimp only [PriorityPacketQueue.popWithPriority]
          rw [ih, ih]
          split
          · rw [List.length_cons, Nat.add_sub_add_right]
          · rw [Nat.sub_add_comm hsub.length_le, Nat.add_right_comm, Nat.add_assoc]
  | cons data high ih =>
      rw [List.length_cons, Nat.add_right_comm, drainLoop]
      dsimp only [PriorityPacketQueue.popWithPriority]
      rw [ih]
      rfl

/-- The byte rate that a drain selects. -/
def selectedRate (controller : BitrateController K) (estimator : NetworkConditionEstimator K)
    (nowMs : UInt64) : K :=
  bytesPerSec (controller.evaluate estimator nowMs).2.1.current

/-- The bucket when the loop of a drain begins. It can hold half a second of the selected rate. -/
def configured (s : AdaptiveSender K) (controller : BitrateController K)
    (estimator : NetworkConditionEstimator K) (nowMs : UInt64) : DeterministicTokenBucket K :=
  let rate := selectedRate controller estimator nowMs
  s.bucket.reconfigure rate (rate * (((1 : ℕ) : K) / ((2 : ℕ) : K))) nowMs

theorem drain_sent (s : AdaptiveSender K) (controller : BitrateController K)
    (estimator : NetworkConditionEstimator K) (nowMs : UInt64) :
  (s.drain controller estimator nowMs).1
    = s.queue.high
      ++ ((s.configured controller estimator nowMs).admission nowMs s.queue.normal).1
  := by
  rw [drain]
  dsimp only
  rw [PriorityPacketQueue.size, drainLoop_eq]
  rfl

theorem drain_sender (s : AdaptiveSender K) (controller : BitrateController K)
    (estimator : NetworkConditionEstimator K) (nowMs : UInt64) :
  let admitted := (s.configured controller estimator nowMs).admission nowMs s.queue.normal
  (s.drain controller estimator nowMs).2.1
    = ⟨{}, admitted.2, s.droppedCount + (s.queue.normal.length - admitted.1.length)⟩
  := by
  rw [drain]
  dsimp only
  rw [PriorityPacketQueue.size, drainLoop_eq]
  rfl

end AdaptiveSender

end Drain

/-! ### Accounting -/

section Accounting

variable {K : Type}

/-- A packet is queued with its priority. -/
theorem PriorityPacketQueue.push_eq (K : Type) (q : PriorityPacketQueue) (data : List UInt8)
    (priority : PacketPriority) :
  let call : SenderCall K := .enqueue priority data
  q.push data priority
    = ⟨q.high ++ (call.packet? .high).toList, q.normal ++ (call.packet? .normal).toList⟩
  := by
  cases priority with
  | high => simp [push, SenderCall.packet?]
  | normal => simp [push, SenderCall.packet?]

namespace AdaptiveSender

/-- The packets of some calls are accounted for: `parts` are those that the drains have returned,
with high priority and without. -/
structure Accounted (calls : List (SenderCall K))
    (parts : List (List (List UInt8) × List (List UInt8))) (s : AdaptiveSender K) : Prop where
  high : parts.flatMap Prod.fst ++ s.queue.high = enqueued .high calls
  normal : (parts.flatMap Prod.snd ++ s.queue.normal).Sublist (enqueued .normal calls)
  count : (parts.flatMap Prod.snd ++ s.queue.normal).length + s.droppedCount
    = (enqueued .normal calls).length

theorem Accounted.enqueue {calls : List (SenderCall K)}
    {parts : List (List (List UInt8) × List (List UInt8))} {s : AdaptiveSender K}
    (h : Accounted calls parts s) (priority : PacketPriority) (data : List UInt8) :
  Accounted (calls ++ [.enqueue priority data]) parts (s.enqueue priority data)
  := by
  rw [AdaptiveSender.enqueue, PriorityPacketQueue.push_eq K]
  constructor
  · rw [enqueued_concat, ← h.high, List.append_assoc]
  · rw [enqueued_concat, ← List.append_assoc]
    exact h.normal.append (.refl _)
  · rw [enqueued_concat, ← List.append_assoc, List.length_append, Nat.add_right_comm, h.count,
      List.length_append]

theorem length_flatten_parts (parts : List (List (List UInt8) × List (List UInt8))) :
  (parts.map fun p => p.1 ++ p.2).flatten.length
    = (parts.flatMap Prod.fst).length + (parts.flatMap Prod.snd).length
  := by
  induction parts with
  | nil => rfl
  | cons p parts ih =>
      simp only [List.map_cons, List.flatten_cons, List.flatMap_cons, List.length_append, ih]
      omega

end AdaptiveSender

end Accounting

/-! ### Runs of the sender -/

section Runs

variable {K : Type} [NatCast K] [Add K] [Sub K] [Mul K] [Div K] [LT K] [LE K] [DecidableLT K]
  [DecidableLE K]

namespace AdaptiveSender

theorem run_concat (s : AdaptiveSender K) (calls : List (SenderCall K)) (call : SenderCall K) :
  s.run (calls ++ [call])
    = ((s.run calls).1 ++ ((s.run calls).2.step call).1.toList, ((s.run calls).2.step call).2)
  := by
  rw [run, List.foldl_append]
  rfl

/-- What is queued was enqueued since the last drain. -/
theorem queue_run (bucket : DeterministicTokenBucket K) (calls : List (SenderCall K)) :
  (run ⟨{}, bucket, 0⟩ calls).2.queue
    = ⟨enqueuedSince .high calls, enqueuedSince .normal calls⟩
  := by
  induction calls using List.reverseRecOn with
  | nil => rfl
  | append_singleton calls call ih =>
      rw [run_concat]
      cases call with
      | enqueue priority data =>
          rw [enqueuedSince_enqueue, enqueuedSince_enqueue, step, enqueue]
          dsimp only
          rw [ih, PriorityPacketQueue.push_eq K]
      | drain controller estimator nowMs =>
          rw [enqueuedSince_drain, enqueuedSince_drain, step]
          dsimp only
          rw [drain_sender]

theorem Accounted.drain {calls : List (SenderCall K)}
    {parts : List (List (List UInt8) × List (List UInt8))} {s : AdaptiveSender K}
    (h : Accounted calls parts s) (controller : BitrateController K)
    (estimator : NetworkConditionEstimator K) (nowMs : UInt64) :
  let admitted := (s.configured controller estimator nowMs).admission nowMs s.queue.normal
  Accounted (calls ++ [.drain controller estimator nowMs])
    (parts ++ [(s.queue.high, admitted.1)]) (s.drain controller estimator nowMs).2.1
  := by
  intro admitted
  have hsub : admitted.1.Sublist s.queue.normal := DeterministicTokenBucket.admission_sublist ..
  have hcount := h.count
  have hle := hsub.length_le
  have hdrained : (s.drain controller estimator nowMs).2.1
      = ⟨{}, admitted.2, s.droppedCount + (s.queue.normal.length - admitted.1.length)⟩ :=
    s.drain_sender controller estimator nowMs
  rw [hdrained]
  constructor
  · rw [enqueued_concat, ← h.high, List.flatMap_append, List.flatMap_singleton]
    rfl
  · rw [enqueued_concat, List.flatMap_append, List.flatMap_singleton]
    apply List.Sublist.trans _ (List.sublist_append_left ..)
    apply List.Sublist.trans _ h.normal
    rw [List.append_nil]
    exact .append (.refl _) hsub
  · rw [enqueued_concat, List.flatMap_append, List.flatMap_singleton]
    simp only [List.length_append, List.length_nil, SenderCall.packet?, Option.toList_none]
      at hcount ⊢
    omega

/-- The packets of a run are accounted for. -/
theorem accounted_run (bucket : DeterministicTokenBucket K) (calls : List (SenderCall K)) :
  ∃ parts, (run ⟨{}, bucket, 0⟩ calls).1 = parts.map (fun p => p.1 ++ p.2)
    ∧ Accounted calls parts (run ⟨{}, bucket, 0⟩ calls).2
  := by
  induction calls using List.reverseRecOn with
  | nil => exact ⟨[], rfl, rfl, .slnil, rfl⟩
  | append_singleton calls call ih =>
      obtain ⟨parts, hparts, h⟩ := ih
      rw [run_concat]
      cases call with
      | enqueue priority data =>
          refine ⟨parts, ?_, h.enqueue priority data⟩
          rw [← hparts]
          exact List.append_nil _
      | drain controller estimator nowMs =>
          refine ⟨_, ?_, h.drain controller estimator nowMs⟩
          rw [List.map_append, ← hparts, List.map_singleton, ← drain_sent]
          rfl

/-- Drains lose only what they count. Each one returns the packets of high priority that were
enqueued since the one before, in order, and after them some of the others, in order. It leaves no
packet in the queue, and counts those that it has not returned. Over a run, each packet is
returned, counted or still queued, and those of high priority are returned or still queued. -/
theorem drain_conserves (bucket : DeterministicTokenBucket K) (calls : List (SenderCall K)) :
  let outs := (run ⟨{}, bucket, 0⟩ calls).1
  let s := (run ⟨{}, bucket, 0⟩ calls).2
  (∀ controller estimator nowMs, ∃ normal : List (List UInt8),
    let after := (s.drain controller estimator nowMs).2.1
    (s.drain controller estimator nowMs).1 = enqueuedSince .high calls ++ normal
      ∧ normal.Sublist (enqueuedSince .normal calls)
      ∧ after.queue.size = 0
      ∧ after.droppedCount
        = s.droppedCount + ((enqueuedSince .normal calls).length - normal.length))
    ∧ outs.flatten.length + s.droppedCount + s.queue.size
      = (enqueued .high calls).length + (enqueued .normal calls).length
    ∧ ∃ parts : List (List (List UInt8) × List (List UInt8)),
      outs = parts.map (fun p => p.1 ++ p.2)
        ∧ parts.flatMap Prod.fst ++ s.queue.high = enqueued .high calls
        ∧ (parts.flatMap Prod.snd ++ s.queue.normal).Sublist (enqueued .normal calls)
  := by
  intro outs s
  have hqueue : s.queue = _ := queue_run bucket calls
  obtain ⟨parts, hparts, h⟩ : ∃ parts, outs = _ ∧ Accounted calls parts s :=
    accounted_run bucket calls
  refine ⟨?_, ?_, parts, hparts, h.high, h.normal⟩
  · intro controller estimator nowMs
    refine ⟨((s.configured controller estimator nowMs).admission nowMs s.queue.normal).1, ?_⟩
    intro after
    have hafter : after = _ := s.drain_sender controller estimator nowMs
    rw [drain_sent, hafter, hqueue]
    refine ⟨rfl, ?_, rfl, rfl⟩
    apply DeterministicTokenBucket.admission_sublist
  · rw [hparts, length_flatten_parts, PriorityPacketQueue.size, ← h.high,
      ← h.count, List.length_append, List.length_append]
    omega

end AdaptiveSender

end Runs

end Media
