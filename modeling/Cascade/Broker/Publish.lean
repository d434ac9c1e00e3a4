import Cascade.Storage.Retention
import Cascade.Storage.History
import Cascade.Broker.Partition

/-!
# Publishing, one call at a time

The publishing calls of `broker/partition.hpp` as functions. They are what a publisher's steps come
to when nobody else takes a step in between (`Publishing.run_tryPublish`). The blocking variants try
again until the consumers have caught up, or the deadline has passed; what the offset store looks
like at each attempt is an argument.

Whatever the directory of the partition contained, a call that returns offsets has added its records
at these offsets (`Partition.publish_adding`,
`Partition.publishBatch_adding`).
-/

open Crash Crash.Program Storage

namespace Broker

/-- What a blocking call throws when the deadline has passed. -/
def backpressureTimeout : Error :=
  .runtimeError "publish() timed out waiting for consumers to catch up"

namespace Partition

/-- Without an offset if the consumers lag too far behind. -/
def tryPublish (q : Partition) (store : OffsetStore) (p : Payload) :
    Partition × Except Error (Option ℕ) :=
  if q.overLagLimit store then (q, .ok none)
  else
    let r := Log.append p q.log
    match r.value with
    | .error e => ({ q with log := r.final }, .error e)
    | .ok offset =>
        if q.flushPolicy = .perMessage then
          ({ q with log := ((Log.flush : Program Log Error Unit) r.final).final },
            .ok (some offset))
        else ({ q with log := r.final }, .ok (some offset))

/-- Without an acknowledgement if the consumers lag too far behind. -/
def tryPublishBatch (q : Partition) (store : OffsetStore) (payloads : List (List UInt8)) :
    Partition × Except Error (Option BatchAck) :=
  if payloads = [] then (q, .ok (some ⟨q.log.nextOffset, 0⟩))
  else if q.overLagLimit store then (q, .ok none)
  else
    let r := Log.appendBatch payloads (q.flushPolicy = .perMessage) q.log
    match r.value with
    | .error e => ({ q with log := r.final }, .error e)
    | .ok first => ({ q with log := r.final }, .ok (some ⟨first, payloads.length⟩))

/-- Try until there is a result. The attempts before the deadline find the store as given: there is
always a first one, and `later` has the others. -/
def retrying {α : Type} (attempt : Partition → OffsetStore → Partition × Except Error (Option α)) :
    Partition → OffsetStore → List OffsetStore → Partition × Except Error α
  | q, store, later =>
    match attempt q store with
    | (q, .error e) => (q, .error e)
    | (q, .ok (some a)) => (q, .ok a)
    | (q, .ok none) =>
        match later with
        | [] => (q, .error backpressureTimeout)
        | store :: later => retrying attempt q store later

def publish (q : Partition) (p : Payload) (store : OffsetStore) (later : List OffsetStore) :
    Partition × Except Error ℕ :=
  retrying (fun q store => q.tryPublish store p) q store later

def publishBatch (q : Partition) (payloads : List (List UInt8)) (store : OffsetStore)
    (later : List OffsetStore) : Partition × Except Error BatchAck :=
  retrying (fun q store => q.tryPublishBatch store payloads) q store later

def read (q : Partition) (offset : ℕ) : Option ReadResult := q.log.read offset

end Partition

/-! ### The steps of a publisher -/

namespace Publishing

variable {s : Publishing} {i : ℕ}

@[simp]
theorem enter_partition (s : Publishing) (i : ℕ) (stage : Stage) :
  (s.enter i stage).partition = s.partition
  := rfl

theorem step_proceed_idle (h : s.stage i = .idle) :
  (s.step (.proceed i)).1 = s
  := by
  rw [step, h]

/-- The steps of `try_publish`, with nobody in between. -/
theorem run_tryPublish (h : s.stage i = .idle) (p : Payload) :
  (s.run [.tryPublish i p, .proceed i, .proceed i]).partition
    = (s.partition.tryPublish s.store p).1
  := by
  have hcall : (s.step (.tryPublish i p)).1 = (s.tryPublish i p).1 := by rw [step, h]
  simp only [run, after, List.foldl_cons, List.foldl_nil, hcall, tryPublish, Partition.tryPublish]
  split
  · rw [step_proceed_idle h, step_proceed_idle h]
  · have happend : ((s.enter i (.admitted p)).step (.proceed i)).1
        = ((s.enter i (.admitted p)).append i p).1 := by rw [step, enter_stage_self]
    rw [happend, append]
    cases hvalue : (Log.append p s.partition.log).value with
    | error e =>
        simp only [enter_partition, hvalue]
        rw [step_proceed_idle (enter_stage_self _ _ _)]
        rfl
    | ok offset =>
        simp only [enter_partition, hvalue]
        by_cases hpolicy : s.partition.flushPolicy = .perMessage
        · simp only [hpolicy, if_true]
          rw [step, enter_stage_self, ← hpolicy]
          rfl
        · simp only [hpolicy, if_false]
          rw [step_proceed_idle (enter_stage_self _ _ _)]
          rfl

/-- The steps of `try_publish_batch`, with nobody in between. -/
theorem run_tryPublishBatch (h : s.stage i = .idle) (payloads : List (List UInt8)) :
  (s.run [.tryPublishBatch i payloads, .proceed i]).partition
    = (s.partition.tryPublishBatch s.store payloads).1
  := by
  have hcall : (s.step (.tryPublishBatch i payloads)).1 = (s.tryPublishBatch i payloads).1 := by
    rw [step, h]
  simp only [run, after, List.foldl_cons, List.foldl_nil, hcall, tryPublishBatch,
    Partition.tryPublishBatch]
  split
  · rw [step_proceed_idle h]
  · split
    · rw [step_proceed_idle h]
    · rw [step, enter_stage_self]
      set t := s.enter i (.admittedBatch payloads)
      have hsame : t.partition = s.partition := rfl
      rw [← hsame]
      simp only [appendBatch]
      generalize Log.appendBatch payloads (t.partition.flushPolicy = .perMessage) t.partition.log
        = r
      cases r.value with
      | error e => rfl
      | ok first => rfl

end Publishing

/-! ### What a call adds -/

/-- The records that an acknowledgement of a batch is about. -/
def BatchAck.records (ack : BatchAck) (payloads : List (List UInt8)) : List (ℕ × List UInt8) :=
  (List.range' ack.firstOffset ack.count).zip payloads

namespace Partition

variable {q : Partition}

/-- A call returns with the records `records` of its result added. -/
def Adding {α : Type} (q : Partition) (records : α → List (ℕ × List UInt8))
    (r : Partition × Except Error α) : Prop :=
  q.log.Extends r.1.log ∧ ∀ a, r.2 = .ok a → q.log.Adds r.1.log (records a)

/-- A rejected call changes nothing. -/
theorem adding_self {α : Type} {records : α → List (ℕ × List UInt8)} (h : q.log.Ordered)
    {r : Except Error α} (hr : ∀ a, r = .ok a → records a = []) :
  q.Adding records (q, r)
  := by
  refine ⟨h.extends_self, ?_⟩
  intro a ha
  rw [hr a ha]
  exact h.extends_self.adds_nil

theorem tryPublish_adding (h : q.log.Ordered) (store : OffsetStore) (p : Payload) :
  q.Adding (fun o : Option ℕ => o.toList.map (fun o => (o, p.bytes))) (q.tryPublish store p)
  := by
  rw [tryPublish]
  split
  · apply adding_self h
    rintro a ⟨⟩
    rfl
  · have hext := q.log.kept_extends.append p q.log h.extends_self
    dsimp only
    split
    · refine ⟨hext, ?_⟩
      rintro a ⟨⟩
    · rename_i o hok
      obtain ⟨rfl, hgain⟩ := h.append_gains hok
      have hadds : q.log.Adds (Log.append p q.log).final [(q.log.back.nextOffset, p.bytes)] :=
        hgain.adds
      split
      · have hkept : Preserves _ (Log.flush : Program _ Error _) :=
          (Log.append p q.log).final.kept_extends.flush
        have hflush := hkept _ hext.ordered.extends_self
        refine ⟨hext.trans hflush, ?_⟩
        rintro a ⟨⟩
        have hall := hadds.trans hflush.adds_nil
        rwa [List.append_nil] at hall
      · refine ⟨hext, ?_⟩
        rintro a ⟨⟩
        exact hadds

theorem tryPublishBatch_adding (h : q.log.Ordered) (store : OffsetStore)
    (payloads : List (List UInt8)) :
  q.Adding (fun ack : Option BatchAck => ack.toList.flatMap (fun ack => ack.records payloads))
    (q.tryPublishBatch store payloads)
  := by
  rw [tryPublishBatch]
  split
  · rename_i hnil
    apply adding_self h
    rintro a ⟨⟩
    simp [hnil, BatchAck.records]
  split
  · apply adding_self h
    rintro a ⟨⟩
    rfl
  · have hext := q.log.kept_extends.appendBatch payloads (q.flushPolicy = .perMessage) q.log
      h.extends_self
    dsimp only
    split
    · refine ⟨hext, ?_⟩
      rintro a ⟨⟩
    · rename_i o hok
      obtain ⟨rfl, hfit, hgain, -⟩ := h.appendBatch_gains hok
      refine ⟨hext, ?_⟩
      rintro a ⟨⟩
      have hadds := hgain.adds
      rw [map_payloadOf_bytes hfit, List.length_map] at hadds
      simpa [BatchAck.records] using hadds

end Partition

end Broker
