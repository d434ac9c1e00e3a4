import Cascade.Storage.Durability
import Cascade.Broker.OffsetStore

/-!
# Partitions and their publishers

The model of `broker/partition.hpp`: a log with a limit on how far the consumers may lag behind.
Any number of publishers call `try_publish` and `try_publish_batch` at the same time. A call is
not atomic: it checks the lag, then appends under the log's lock, then, for a single record,
forces the log to the device under the lock again. Between these steps the other publishers
and the consumers take theirs.

With `FlushPolicy::PerMessage` a call that returns an offset or an acknowledgement returns only
when the records are on the device, although the flush only covers the segment that is the last
by then (`Publishing.acknowledged_durable`). What a partition finds in its directory may stay off
the device (`Publishing.front_not_durable`).
-/

open Bytes Crash Crash.Program Storage

namespace Broker

/-- When a record is forced to the device. -/
inductive FlushPolicy where
  | perMessage
  | manual
deriving DecidableEq

/-- The records of a batch have the offsets from `firstOffset` to `firstOffset + count - 1`. -/
structure BatchAck where
  firstOffset : ℕ
  count : ℕ
deriving DecidableEq

structure Partition where
  topic : String
  index : ℤ
  log : Log
  maxLagRecords : ℕ
  flushPolicy : FlushPolicy

/-- The consumers registered in the offset store lag too far behind. -/
def Partition.overLagLimit (p : Partition) (store : OffsetStore) : Bool :=
  if p.maxLagRecords = 0 then false
  else match store.minCommittedOffsetFor p.topic p.index with
    | none => false
    | some minCommitted =>
        let hwm := p.log.nextOffset
        let lag := if minCommitted.toNat < hwm then hwm - minCommitted.toNat else 0
        p.maxLagRecords ≤ lag

/-- How far a publisher is in its call. -/
inductive Stage where
  /-- It is not in a call. -/
  | idle
  /-- The lag check of `try_publish` has passed. -/
  | admitted (p : Payload)
  /-- The lag check of `try_publish_batch` has passed. -/
  | admittedBatch (payloads : List (List UInt8))
  /-- The record has been appended and is still to be forced to the device. -/
  | appended (p : Payload) (offset : ℕ)

/-- How a call ends. -/
inductive Outcome where
  /-- `try_publish` returns; without an offset if the consumers lag too far behind. -/
  | published (p : Payload) (offset : Option ℕ)
  /-- `try_publish_batch` returns. -/
  | publishedBatch (payloads : List (List UInt8)) (ack : Option BatchAck)
  /-- The log threw an exception. -/
  | threw (e : Error)

/-- The offsets and the payloads of the records that a call acknowledges. -/
def Outcome.acknowledged : Outcome → List (ℕ × List UInt8)
  | .published p (some offset) => [(offset, p.bytes)]
  | .publishedBatch payloads (some ack) =>
      (List.range' ack.firstOffset ack.count).zip payloads
  | _ => []

/-- A batch acknowledges its payloads at consecutive offsets. -/
theorem Outcome.mem_acknowledged_batch {payloads : List (List UInt8)} {first : ℕ}
    {x : ℕ × List UInt8}
    (hx : x ∈ (publishedBatch payloads (some ⟨first, payloads.length⟩)).acknowledged) :
  ∃ k, x.1 = first + k ∧ payloads[k]? = some x.2
  := by
  obtain ⟨k, hk⟩ := List.mem_iff_getElem?.mp hx
  obtain ⟨hoffset, hpayload⟩ := List.getElem?_zip_eq_some.mp hk
  obtain ⟨hlt, hget⟩ := List.getElem?_eq_some_iff.mp hoffset
  rw [List.getElem_range', one_mul] at hget
  exact ⟨k, hget.symm, hpayload⟩

/-- A partition, the offset store it reads, and the publishers that use it. -/
structure Publishing where
  partition : Partition
  store : OffsetStore
  stage : ℕ → Stage

/-- One atomic step of a publisher, or of somebody else who uses the partition or the store. -/
inductive Publishing.Action where
  /-- Publisher `i` calls `try_publish` and checks the lag. -/
  | tryPublish (i : ℕ) (p : Payload)
  /-- Publisher `i` calls `try_publish_batch` and checks the lag. -/
  | tryPublishBatch (i : ℕ) (payloads : List (List UInt8))
  /-- Publisher `i` takes the next step of its call. -/
  | proceed (i : ℕ)
  /-- Somebody forces the partition to the device. -/
  | flush
  /-- A group is registered in the store. -/
  | registerGroup (topic : String) (partition : ℤ) (group : String)
  /-- A group commits an offset. -/
  | commit (topic : String) (partition : ℤ) (group : String) (nextOffset : UInt64)

namespace Publishing

/-- A partition that is constructed on a directory. No publisher has called yet. -/
def opened (topic : String) (index : ℤ) (maxSegmentBytes maxLagRecords : ℕ)
    (flushPolicy : FlushPolicy) (dir : Directory) (store : OffsetStore) : Publishing where
  partition := ⟨topic, index, Log.recover maxSegmentBytes dir, maxLagRecords, flushPolicy⟩
  store := store
  stage := fun _ => .idle

/-- The partition's directory is fresh. -/
def fresh (topic : String) (index : ℤ) (maxSegmentBytes maxLagRecords : ℕ)
    (flushPolicy : FlushPolicy) (store : OffsetStore) : Publishing :=
  opened topic index maxSegmentBytes maxLagRecords flushPolicy [] store

/-- Publisher `i` enters a stage of its call. -/
def enter (s : Publishing) (i : ℕ) (stage : Stage) : Publishing :=
  { s with stage := Function.update s.stage i stage }

/-- The log is replaced. -/
def setLog (s : Publishing) (l : Log) : Publishing :=
  { s with partition := { s.partition with log := l } }

/-- `try_publish` until the lag check. -/
def tryPublish (s : Publishing) (i : ℕ) (p : Payload) : Publishing × Option Outcome :=
  if s.partition.overLagLimit s.store then (s, some (.published p none))
  else (s.enter i (.admitted p), none)

/-- `try_publish_batch` until the lag check. -/
def tryPublishBatch (s : Publishing) (i : ℕ) (payloads : List (List UInt8)) :
    Publishing × Option Outcome :=
  if payloads = [] then
    (s, some (.publishedBatch payloads (some ⟨s.partition.log.nextOffset, 0⟩)))
  else if s.partition.overLagLimit s.store then (s, some (.publishedBatch payloads none))
  else (s.enter i (.admittedBatch payloads), none)

/-- The append of `try_publish`. -/
def append (s : Publishing) (i : ℕ) (p : Payload) : Publishing × Option Outcome :=
  let r := Log.append p s.partition.log
  match r.value with
  | .error e => ((s.setLog r.final).enter i .idle, some (.threw e))
  | .ok offset =>
      if s.partition.flushPolicy = .perMessage then
        ((s.setLog r.final).enter i (.appended p offset), none)
      else ((s.setLog r.final).enter i .idle, some (.published p (some offset)))

/-- The log is forced to the device. -/
def flush (s : Publishing) : Publishing :=
  s.setLog ((Log.flush : Program Log Error Unit) s.partition.log).final

/-- The flush of `try_publish`. -/
def flushAppended (s : Publishing) (i : ℕ) (p : Payload) (offset : ℕ) :
    Publishing × Option Outcome :=
  (s.flush.enter i .idle, some (.published p (some offset)))

/-- The append of `try_publish_batch`, with the flush if there is one. -/
def appendBatch (s : Publishing) (i : ℕ) (payloads : List (List UInt8)) :
    Publishing × Option Outcome :=
  let r := Log.appendBatch payloads (s.partition.flushPolicy = .perMessage) s.partition.log
  match r.value with
  | .error e => ((s.setLog r.final).enter i .idle, some (.threw e))
  | .ok first =>
      ((s.setLog r.final).enter i .idle,
        some (.publishedBatch payloads (some ⟨first, payloads.length⟩)))

/-- One atomic step, and what the call returns that ends with it. A call that is not possible at
the publisher's stage does nothing. -/
def step (s : Publishing) : Action → Publishing × Option Outcome
  | .tryPublish i p =>
      match s.stage i with
      | .idle => s.tryPublish i p
      | _ => (s, none)
  | .tryPublishBatch i payloads =>
      match s.stage i with
      | .idle => s.tryPublishBatch i payloads
      | _ => (s, none)
  | .proceed i =>
      match s.stage i with
      | .idle => (s, none)
      | .admitted p => s.append i p
      | .admittedBatch payloads => s.appendBatch i payloads
      | .appended p offset => s.flushAppended i p offset
  | .flush => (s.flush, none)
  | .registerGroup topic partition group =>
      ({ s with store := s.store.registerGroup topic partition group }, none)
  | .commit topic partition group nextOffset =>
      ({ s with store := s.store.commit topic partition group nextOffset }, none)

/-- The state after a step. -/
def after (s : Publishing) (a : Action) : Publishing := (s.step a).1

/-- The state after a list of steps. -/
def run (s : Publishing) (actions : List Action) : Publishing :=
  actions.foldl after s

@[simp]
theorem enter_stage_self (s : Publishing) (i : ℕ) (stage : Stage) :
  (s.enter i stage).stage i = stage
  := Function.update_self ..

theorem enter_stage_of_ne (s : Publishing) {i j : ℕ} (h : j ≠ i) (stage : Stage) :
  (s.enter i stage).stage j = s.stage j
  := Function.update_of_ne h ..

/-! ### What publishers preserve -/

/-- Every record is flushed, the segments but the last are on the device, except for those in
`lost`, and what a publisher has appended and not flushed is where a flush puts it on the
device. -/
structure Consistent (lost : Set ℕ) (s : Publishing) : Prop where
  policy : s.partition.flushPolicy = .perMessage
  sound : s.partition.log.Sound lost
  appended : ∀ i p offset, s.stage i = .appended p offset → s.partition.log.Held offset p

/-- The records that the outcome of a step acknowledges are on the device. -/
def AcksDurable (r : Publishing × Option Outcome) : Prop :=
  ∀ out ∈ r.2, ∀ x ∈ out.acknowledged, r.1.partition.log.Durable x.1 x.2

/-- A step leaves a consistent state and acknowledges only what is on the device. -/
def Safe (lost : Set ℕ) (r : Publishing × Option Outcome) : Prop :=
  r.1.Consistent lost ∧ AcksDurable r

variable {lost : Set ℕ} {s : Publishing}

/-- A publisher that does not wait for a flush may enter its stage. -/
theorem Consistent.enter (h : s.Consistent lost) (i : ℕ) (stage : Stage)
    (hstage : ∀ p offset, stage = .appended p offset → s.partition.log.Held offset p) :
  (s.enter i stage).Consistent lost
  := by
  refine ⟨h.policy, h.sound, ?_⟩
  intro j p offset hj
  by_cases hij : j = i
  · subst hij
    rw [enter_stage_self] at hj
    exact hstage p offset hj
  · rw [enter_stage_of_ne s hij] at hj
    exact h.appended j p offset hj

theorem Consistent.enter_idle (h : s.Consistent lost) (i : ℕ) :
  (s.enter i .idle).Consistent lost
  := by
  apply h.enter
  rintro _ _ ⟨⟩

/-- The log may be replaced by what an operation makes of it. -/
theorem Consistent.setLog (h : s.Consistent lost) {α : Type} {op : Program Log Error α}
    (hop : ∀ I, Log.Kept I → Preserves I op) :
  (s.setLog (op s.partition.log).final).Consistent lost
  := by
  refine ⟨h.policy, hop _ (Log.kept_sound lost) _ h.sound, ?_⟩
  intro i p offset hi
  have hext : s.partition.log.Extends (op s.partition.log).final :=
    hop _ (Log.kept_extends _) _ h.sound.extends_self
  exact hext.held (h.appended i p offset hi)

/-- A step that returns nothing acknowledges nothing. -/
theorem Consistent.safe_none (h : s.Consistent lost) :
  Safe lost (s, none)
  := by
  refine ⟨h, ?_⟩
  rintro _ ⟨⟩

/-- So does a call that returns without a record. -/
theorem Consistent.safe_some (h : s.Consistent lost) {out : Outcome}
    (hout : out.acknowledged = []) :
  Safe lost (s, some out)
  := by
  refine ⟨h, ?_⟩
  rintro _ ⟨⟩ x hx
  rw [hout] at hx
  exact absurd hx List.not_mem_nil

theorem Consistent.safe_tryPublish (h : s.Consistent lost) (i : ℕ) (p : Payload) :
  Safe lost (s.tryPublish i p)
  := by
  rw [tryPublish]
  split
  · exact h.safe_some rfl
  · apply Consistent.safe_none
    apply h.enter
    rintro _ _ ⟨⟩

theorem Consistent.safe_tryPublishBatch (h : s.Consistent lost) (i : ℕ)
    (payloads : List (List UInt8)) :
  Safe lost (s.tryPublishBatch i payloads)
  := by
  rw [tryPublishBatch]
  split
  · exact h.safe_some rfl
  · split
    · exact h.safe_some rfl
    · apply Consistent.safe_none
      apply h.enter
      rintro _ _ ⟨⟩

/-- The record is appended, and not yet acknowledged. -/
theorem Consistent.safe_append (h : s.Consistent lost) (i : ℕ) (p : Payload) :
  Safe lost (s.append i p)
  := by
  have hlog := h.setLog (fun _ hkept => hkept.append p)
  rw [append]
  cases hvalue : (Log.append p s.partition.log).value with
  | error e => exact (hlog.enter_idle i).safe_some rfl
  | ok offset =>
      obtain ⟨rfl, hgain⟩ := h.sound.append_gains hvalue
      simp only [if_pos h.policy]
      apply Consistent.safe_none
      apply hlog.enter
      rintro _ _ ⟨⟩
      exact (hgain.gained (k := 0) rfl).2

/-- A flush puts on the device what is held, in whatever segment it is. -/
theorem onDevice_flush (h : s.partition.log.Attached) {offset : ℕ} {p : Payload}
    (hheld : s.partition.log.Held offset p) :
  s.flush.partition.log.OnDevice offset p
  := by
  suffices hwp : wp (fun _ => True) (Log.flush : Program Log Error Unit)
      (fun _ t => t.OnDevice offset p) s.partition.log from wp_final hwp
  simp only [Log.flush, wp_bind, Log.wp_onBack_flush h, orElse_ok, wp_update]
  exact ⟨fun _ => trivial, hheld.flushedBack.2⟩

/-- The record is on the device when it is acknowledged, whatever the other publishers did since
it was appended. -/
theorem Consistent.safe_flushAppended (h : s.Consistent lost) {i : ℕ} {p : Payload} {offset : ℕ}
    (hi : s.stage i = .appended p offset) :
  Safe lost (s.flushAppended i p offset)
  := by
  refine ⟨(h.setLog (fun _ hkept => hkept.flush)).enter_idle i, ?_⟩
  rintro _ ⟨⟩ x hx
  obtain rfl := List.mem_singleton.mp hx
  exact ⟨p, rfl, onDevice_flush h.sound.toAttached (h.appended i p offset hi)⟩

/-- The records of a batch are on the device when it is acknowledged. -/
theorem Consistent.safe_appendBatch (h : s.Consistent lost) (i : ℕ)
    (payloads : List (List UInt8)) :
  Safe lost (s.appendBatch i payloads)
  := by
  have hlog := h.setLog (fun _ hkept =>
    hkept.appendBatch payloads (s.partition.flushPolicy = .perMessage))
  rw [appendBatch]
  cases hvalue : (Log.appendBatch payloads (s.partition.flushPolicy = .perMessage)
      s.partition.log).value with
  | error e => exact (hlog.enter_idle i).safe_some rfl
  | ok first =>
      obtain ⟨-, hfit, -, hdevice⟩ := h.sound.appendBatch_gains hvalue
      refine ⟨hlog.enter_idle i, ?_⟩
      rintro _ ⟨⟩ x hx
      obtain ⟨k, hk, hpayload⟩ := Outcome.mem_acknowledged_batch hx
      refine ⟨Log.payloadOf x.2, ?_, ?_⟩
      · exact Log.payloadOf_bytes_of_fit hfit (List.mem_of_getElem? hpayload)
      · rw [hk]
        apply hdevice (by simpa using h.policy)
        rw [List.getElem?_map, hpayload, Option.map_some]

theorem Consistent.safe_step (h : s.Consistent lost) (a : Action) :
  Safe lost (s.step a)
  := by
  cases a with
  | tryPublish i p =>
      rw [step]
      split
      · exact h.safe_tryPublish i p
      · exact h.safe_none
  | tryPublishBatch i payloads =>
      rw [step]
      split
      · exact h.safe_tryPublishBatch i payloads
      · exact h.safe_none
  | proceed i =>
      rw [step]
      split
      · exact h.safe_none
      · exact h.safe_append i _
      · exact h.safe_appendBatch i _
      · rename_i hi
        exact h.safe_flushAppended hi
  | flush => exact (h.setLog (fun _ hkept => hkept.flush)).safe_none
  | registerGroup topic partition group =>
      exact Consistent.safe_none ⟨h.policy, h.sound, h.appended⟩
  | commit topic partition group nextOffset =>
      exact Consistent.safe_none ⟨h.policy, h.sound, h.appended⟩

theorem Consistent.run (h : s.Consistent lost) (actions : List Action) :
  (s.run actions).Consistent lost
  := by
  induction actions generalizing s with
  | nil => exact h
  | cons a actions ih => exact ih (h.safe_step a).1

/-- Whatever the publishers do, in any order and on any directory, a call that returns an offset or
an acknowledgement returns when its records are on the device. The records of all segments but the
last are there at all times, except for those of files that the constructor took to be sealed
although they were not on the device. -/
theorem acknowledged_durable (topic : String) (index : ℤ) (maxSegmentBytes maxLagRecords : ℕ)
    (dir : Directory) (hdir : dir.Sorted) (store : OffsetStore) (actions : List Action) :
  let s := (opened topic index maxSegmentBytes maxLagRecords .perMessage dir store).run actions
  (∀ a : Action, AcksDurable (s.step a))
    ∧ ∀ seg ∈ s.partition.log.older, seg.baseOffset ∉ dir.unsynced maxSegmentBytes →
        ∀ o : UInt64, seg.baseOffset ≤ o.toNat → o.toNat < seg.nextOffset →
          ∃ bytes, Handle.read ⟨s.partition.log.file seg.baseOffset, seg⟩ o.toNat
              = some ⟨o.toNat, bytes⟩
            ∧ s.partition.log.Durable o.toNat bytes
  := by
  intro s
  have hstart : (opened topic index maxSegmentBytes maxLagRecords .perMessage dir store).Consistent
      (dir.unsynced maxSegmentBytes) := by
    refine ⟨rfl, Log.recover_sound maxSegmentBytes hdir, ?_⟩
    rintro _ _ _ ⟨⟩
  have h : s.Consistent (dir.unsynced maxSegmentBytes) := hstart.run actions
  refine ⟨fun a => (h.safe_step a).2, ?_⟩
  intro seg hseg hlost o hbase hnext
  exact h.sound.durable hseg hlost o.toNat_lt hbase hnext

/-- The directory that a log with segments of 64 bytes leaves when its process stops after one
append. -/
def stoppedDirectory (p : Payload) : Directory := (Log.append p (Log.fresh 64)).final.dir

/-- With segments of the same size, the record that was found is forced to the device when a record
follows that does not fit behind it. -/
theorem acknowledged_durable_stopped :
  let dir := stoppedDirectory ⟨[1], by decide⟩
  let s := (opened "t" 0 64 0 .perMessage dir .empty).run
    [.tryPublish 0 ⟨List.replicate 40 2, by decide⟩, .proceed 0]
  (s.step (.proceed 0)).2.map Outcome.acknowledged = some [(1, List.replicate 40 2)]
    ∧ AcksDurable (s.step (.proceed 0))
    ∧ ∃ seg ∈ s.partition.log.older, ∃ bytes,
        Handle.read ⟨s.partition.log.file seg.baseOffset, seg⟩ 0 = some ⟨0, bytes⟩
          ∧ s.partition.log.Durable 0 bytes
  := by
  intro dir s
  have hdir : List.Pairwise (· < ·) dir.keys := by decide +kernel
  have holder : s.partition.log.older.map (fun seg => (seg.baseOffset, seg.nextOffset))
      = [(0, 1)] := by decide +kernel
  obtain ⟨seg, hseg, hends⟩ := List.map_eq_singleton_iff.mp holder
  obtain ⟨hbase, hnext⟩ : seg.baseOffset = 0 ∧ seg.nextOffset = 1 := Prod.ext_iff.mp hends
  have hmem : seg ∈ s.partition.log.older := by
    rw [hseg]
    exact List.mem_singleton_self seg
  have hsynced : seg.baseOffset ∉ dir.unsynced 64 := by
    rintro ⟨f, hf, ⟨-, -, hlt⟩, -⟩
    have hsize : (dir.find? 0).map (fun f => f.bytes.length) = some 64 := by decide +kernel
    rw [← hbase, hf] at hsize
    exact absurd hlt (Nat.not_lt.mpr (Option.some.inj hsize).ge)
  obtain ⟨hacks, hdurable⟩ := acknowledged_durable "t" 0 64 0 dir hdir .empty
    [.tryPublish 0 ⟨List.replicate 40 2, by decide⟩, .proceed 0]
  refine ⟨by decide +kernel, hacks _, seg, hmem, ?_⟩
  exact hdurable seg hmem hsynced 0 hbase.le hnext.ge

/-- With larger segments the file is taken to be sealed, and the record that was found is in front
of one that was acknowledged, but not on the device. -/
theorem front_not_durable :
  let s := (opened "t" 0 128 0 .perMessage (stoppedDirectory ⟨[1], by decide⟩) .empty).run
    [.tryPublish 0 ⟨[2], by decide⟩, .proceed 0]
  let r := s.step (.proceed 0)
  r.2.map Outcome.acknowledged = some [(1, [2])]
    ∧ r.1.partition.log.older.map
        (fun seg => Handle.read ⟨r.1.partition.log.file seg.baseOffset, seg⟩ 0)
      = [some ⟨0, [1]⟩]
    ∧ ∀ bytes, ¬ r.1.partition.log.Durable 0 bytes
  := by
  intro s r
  refine ⟨by decide +kernel, by decide +kernel, ?_⟩
  apply Log.not_durable_zero
  decide +kernel

end Publishing

end Broker
