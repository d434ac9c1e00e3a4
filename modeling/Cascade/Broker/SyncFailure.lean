import Cascade.Storage.SyncFailure
import Cascade.Broker.Publish

/-!
# Acknowledgements and failing `msync` calls

The publishing calls of `broker/partition.hpp` when calls of `msync` may fail. The code does not
look at what `msync` returns, so a failure changes nothing that a publisher sees
(`UnreliablePartition.outcome_eq_reliable`), and a record can be acknowledged that is not on the
device (`UnreliablePartition.acknowledges_unsynced`). With `FlushPolicy::PerMessage` the records
that a call acknowledges are on the device if the calls of `msync` that it makes for them succeed,
whatever failed before (`UnreliablePartition.acknowledged_durable_of_synced`).
-/

open Crash Crash.Program Storage

namespace Broker

/-- How a call of `try_publish` ends. -/
def Outcome.ofPublish (p : Payload) : Except Error (Option ℕ) → Outcome
  | .ok offset => .published p offset
  | .error e => .threw e

/-- How a call of `try_publish_batch` ends. -/
def Outcome.ofPublishBatch (payloads : List (List UInt8)) :
    Except Error (Option BatchAck) → Outcome
  | .ok ack => .publishedBatch payloads ack
  | .error e => .threw e

/-- A partition on a device that may fail to write. -/
structure UnreliablePartition where
  partition : Partition
  /-- Whether a call of `msync` succeeds, by the number of calls before it. -/
  succeeds : ℕ → Bool
  /-- The calls of `msync` so far. -/
  calls : List Msync

namespace UnreliablePartition

/-- A partition that is constructed on a directory. -/
def make (topic : String) (index : ℤ) (maxSegmentBytes maxLagRecords : ℕ)
    (flushPolicy : FlushPolicy) (dir : Directory) (succeeds : ℕ → Bool) : UnreliablePartition where
  partition := ⟨topic, index, Log.recover maxSegmentBytes dir, maxLagRecords, flushPolicy⟩
  succeeds := succeeds
  calls := []

/-- The log. -/
def device (s : UnreliablePartition) : Unreliable := ⟨s.partition.log, s.succeeds, s.calls⟩

/-- The partition with its log replaced. -/
def setDevice (s : UnreliablePartition) (u : Unreliable) : UnreliablePartition where
  partition := { s.partition with log := u.log }
  succeeds := u.succeeds
  calls := u.calls

def tryPublish (s : UnreliablePartition) (store : OffsetStore) (p : Payload) :
    UnreliablePartition × Except Error (Option ℕ) :=
  if s.partition.overLagLimit store then (s, .ok none)
  else
    let r := s.device.append p
    match r.2 with
    | .error e => (s.setDevice r.1, .error e)
    | .ok offset =>
        if s.partition.flushPolicy = .perMessage then
          (s.setDevice r.1.flush, .ok (some offset))
        else (s.setDevice r.1, .ok (some offset))

def tryPublishBatch (s : UnreliablePartition) (store : OffsetStore)
    (payloads : List (List UInt8)) : UnreliablePartition × Except Error (Option BatchAck) :=
  if payloads = [] then (s, .ok (some ⟨s.partition.log.nextOffset, 0⟩))
  else if s.partition.overLagLimit store then (s, .ok none)
  else
    let r := s.device.appendBatch payloads (s.partition.flushPolicy = .perMessage)
    match r.2 with
    | .error e => (s.setDevice r.1, .error e)
    | .ok first => (s.setDevice r.1, .ok (some ⟨first, payloads.length⟩))

/-- The calls, with what they find in the offset store. -/
inductive Call where
  | tryPublish (store : OffsetStore) (p : Payload)
  | tryPublishBatch (store : OffsetStore) (payloads : List (List UInt8))

def perform (s : UnreliablePartition) : Call → UnreliablePartition × Outcome
  | .tryPublish store p => ((s.tryPublish store p).1, .ofPublish p (s.tryPublish store p).2)
  | .tryPublishBatch store payloads =>
      ((s.tryPublishBatch store payloads).1,
        .ofPublishBatch payloads (s.tryPublishBatch store payloads).2)

/-- The partition after some calls. -/
def run (s : UnreliablePartition) (calls : List Call) : UnreliablePartition :=
  calls.foldl (fun s c => (s.perform c).1) s

/-! ### What a failure does not change -/

/-- The partition is the partition `q` but for what is on the device, and is `q` if `msync` never
fails. -/
structure Mirrors (s : UnreliablePartition) (q : Partition) : Prop where
  log : s.device.Mirrors q.log
  rest : s.partition = { q with log := s.partition.log }

variable {s : UnreliablePartition} {q : Partition}

theorem mirrors_self (s : UnreliablePartition) :
  s.Mirrors s.partition
  := ⟨s.device.mirrors_self, rfl⟩

theorem Mirrors.setDevice (hm : s.Mirrors q) {u : Unreliable} {l : Log} (hu : u.Mirrors l) :
  (s.setDevice u).Mirrors { q with log := l }
  := by
  refine ⟨hu, ?_⟩
  rw [UnreliablePartition.setDevice, hm.rest]

theorem Mirrors.overLagLimit (hm : s.Mirrors q) (store : OffsetStore) :
  s.partition.overLagLimit store = q.overLagLimit store
  := by
  have hnext : s.partition.log.nextOffset = q.log.nextOffset := hm.log.same.nextOffset
  rw [hm.rest, Partition.overLagLimit, Partition.overLagLimit, hnext]

/-- `try_publish` returns the same. -/
theorem Mirrors.tryPublish (hm : s.Mirrors q) (h : q.log.Ordered) (store : OffsetStore)
    (p : Payload) :
  (s.tryPublish store p).2 = (q.tryPublish store p).2
    ∧ (s.tryPublish store p).1.Mirrors (q.tryPublish store p).1
  := by
  obtain ⟨hvalue, hlog⟩ := wp_final (hm.log.wp_append h.toAttached p)
  have hext := q.log.kept_extends.append p q.log h.extends_self
  have hpolicy : s.partition.flushPolicy = q.flushPolicy := by rw [hm.rest]
  rw [UnreliablePartition.tryPublish, Partition.tryPublish, hm.overLagLimit, hpolicy]
  split
  · exact ⟨rfl, hm⟩
  · dsimp only
    rw [hvalue]
    cases (s.device.append p).2 with
    | error e => exact ⟨rfl, hm.setDevice hlog⟩
    | ok offset =>
        dsimp only
        split
        · have hflush : wp _ (Log.flush : Program Log Error Unit) _ _ :=
            hlog.wp_flush hext.ordered.toAttached
          exact ⟨rfl, hm.setDevice (wp_final hflush).2⟩
        · exact ⟨rfl, hm.setDevice hlog⟩

/-- `try_publish_batch` returns the same. -/
theorem Mirrors.tryPublishBatch (hm : s.Mirrors q) (h : q.log.Ordered) (store : OffsetStore)
    (payloads : List (List UInt8)) :
  (s.tryPublishBatch store payloads).2 = (q.tryPublishBatch store payloads).2
    ∧ (s.tryPublishBatch store payloads).1.Mirrors (q.tryPublishBatch store payloads).1
  := by
  have hpolicy : s.partition.flushPolicy = q.flushPolicy := by rw [hm.rest]
  have hnext : s.partition.log.nextOffset = q.log.nextOffset := hm.log.same.nextOffset
  obtain ⟨hvalue, hlog⟩ := wp_final (hm.log.wp_appendBatch h payloads
    (q.flushPolicy = .perMessage))
  rw [UnreliablePartition.tryPublishBatch, Partition.tryPublishBatch, hm.overLagLimit, hpolicy,
    hnext]
  split
  · exact ⟨rfl, hm⟩
  split
  · exact ⟨rfl, hm⟩
  · dsimp only
    rw [hvalue]
    cases (s.device.appendBatch payloads (q.flushPolicy = .perMessage)).2 with
    | error e => exact ⟨rfl, hm.setDevice hlog⟩
    | ok first => exact ⟨rfl, hm.setDevice hlog⟩

/-- The call of a partition on a device that does not fail. -/
def Call.onReliable (q : Partition) : Call → Partition × Outcome
  | .tryPublish store p => ((q.tryPublish store p).1, .ofPublish p (q.tryPublish store p).2)
  | .tryPublishBatch store payloads =>
      ((q.tryPublishBatch store payloads).1,
        .ofPublishBatch payloads (q.tryPublishBatch store payloads).2)

theorem Mirrors.perform (hm : s.Mirrors q) (h : q.log.Ordered) (c : Call) :
  (s.perform c).2 = (c.onReliable q).2 ∧ (s.perform c).1.Mirrors (c.onReliable q).1
    ∧ (c.onReliable q).1.log.Ordered
  := by
  cases c with
  | tryPublish store p =>
      obtain ⟨hvalue, hmirrors⟩ := hm.tryPublish h store p
      rw [UnreliablePartition.perform, Call.onReliable, hvalue]
      exact ⟨rfl, hmirrors, (Partition.tryPublish_adding h store p).1.ordered⟩
  | tryPublishBatch store payloads =>
      obtain ⟨hvalue, hmirrors⟩ := hm.tryPublishBatch h store payloads
      rw [UnreliablePartition.perform, Call.onReliable, hvalue]
      exact ⟨rfl, hmirrors, (Partition.tryPublishBatch_adding h store payloads).1.ordered⟩

theorem Mirrors.run (hm : s.Mirrors q) (h : q.log.Ordered) (calls : List Call) :
  ∃ q', (s.run calls).Mirrors q' ∧ q'.log.Ordered
    ∧ q' = calls.foldl (fun q c => (c.onReliable q).1) q
  := by
  induction calls generalizing s q with
  | nil => exact ⟨q, hm, h, rfl⟩
  | cons c calls ih =>
      obtain ⟨-, hmirrors, hord⟩ := hm.perform h c
      exact ih hmirrors hord

/-- What a call returns or throws does not depend on which calls of `msync` have failed. -/
theorem outcome_eq_reliable (topic : String) (index : ℤ) (maxSegmentBytes maxLagRecords : ℕ)
    (flushPolicy : FlushPolicy) {dir : Directory} (hdir : dir.Sorted) (succeeds : ℕ → Bool)
    (calls : List Call) (c : Call) :
  (((make topic index maxSegmentBytes maxLagRecords flushPolicy dir succeeds).run calls).perform
      c).2
    = (((make topic index maxSegmentBytes maxLagRecords flushPolicy dir (fun _ => true)).run
      calls).perform c).2
  := by
  have hord := Log.recover_ordered maxSegmentBytes hdir
  obtain ⟨q, hm, hq, heq⟩ := (mirrors_self (make topic index maxSegmentBytes maxLagRecords
    flushPolicy dir succeeds)).run hord calls
  obtain ⟨q', hm', hq', heq'⟩ := (mirrors_self (make topic index maxSegmentBytes maxLagRecords
    flushPolicy dir (fun _ => true))).run hord calls
  obtain rfl : q = q' := heq.trans heq'.symm
  rw [(hm.perform hq c).1, (hm'.perform hq' c).1]

/-! ### What is acknowledged -/

/-- The calls of `msync` since the one with number `n` succeeded, if a record is in their range that
the outcome acknowledges. -/
def SyncedFor (n : ℕ) (r : UnreliablePartition × Outcome) : Prop :=
  ∀ c ∈ r.1.calls.drop n, (∃ x ∈ r.2.acknowledged, c.Covers x.1) → c.ok = true

instance (n : ℕ) (r : UnreliablePartition × Outcome) : Decidable (SyncedFor n r) :=
  inferInstanceAs (Decidable (∀ c ∈ r.1.calls.drop n, _))

theorem SyncedFor.device {n : ℕ} {r : UnreliablePartition × Outcome} (h : SyncedFor n r)
    {A : Set ℕ} (hA : ∀ o ∈ A, ∃ x ∈ r.2.acknowledged, x.1 = o) :
  Unreliable.SyncedFor A n r.1.device
  := by
  rintro k c hk hc ⟨o, ho, hcovers⟩
  obtain ⟨x, hx, rfl⟩ := hA o ho
  apply h c
  · rw [List.mem_iff_getElem?]
    refine ⟨k - n, ?_⟩
    rw [List.getElem?_drop, Nat.add_sub_cancel' hk]
    exact hc
  · exact ⟨x, hx, hcovers⟩

theorem tryPublish_durable (h : s.partition.log.Ordered)
    (hpolicy : s.partition.flushPolicy = .perMessage) (store : OffsetStore) (p : Payload)
    (hsync : SyncedFor s.calls.length (s.perform (.tryPublish store p))) :
  ∀ x ∈ (s.perform (.tryPublish store p)).2.acknowledged,
    (s.perform (.tryPublish store p)).1.partition.log.Durable x.1 x.2
  := by
  simp only [perform, tryPublish] at hsync ⊢
  split at hsync
  · rename_i hover
    simp [hover, Outcome.ofPublish, Outcome.acknowledged]
  · rename_i hunder
    simp only [if_neg hunder, if_pos hpolicy] at hsync ⊢
    cases hvalue : (s.device.append p).2 with
    | error e => simp [Outcome.ofPublish, Outcome.acknowledged]
    | ok o =>
        simp only [hvalue] at hsync
        rintro x hx
        obtain rfl := List.mem_singleton.mp hx
        refine ⟨p, rfl, ?_⟩
        apply Unreliable.append_onDevice (u := s.device) h hvalue
        apply hsync.device
        rintro o' rfl
        exact ⟨_, List.mem_singleton_self _, rfl⟩

theorem tryPublishBatch_durable (h : s.partition.log.Ordered)
    (hpolicy : s.partition.flushPolicy = .perMessage) (store : OffsetStore)
    (payloads : List (List UInt8))
    (hsync : SyncedFor s.calls.length (s.perform (.tryPublishBatch store payloads))) :
  ∀ x ∈ (s.perform (.tryPublishBatch store payloads)).2.acknowledged,
    (s.perform (.tryPublishBatch store payloads)).1.partition.log.Durable x.1 x.2
  := by
  simp only [perform, tryPublishBatch] at hsync ⊢
  split at hsync
  · rename_i hnil
    simp [hnil, Outcome.ofPublishBatch, Outcome.acknowledged]
  rename_i hne
  rw [if_neg hne]
  split at hsync
  · rename_i hover
    simp [hover, Outcome.ofPublishBatch, Outcome.acknowledged]
  · rename_i hunder
    simp only [if_neg hunder, hpolicy, decide_true] at hsync ⊢
    cases hvalue : (s.device.appendBatch payloads true).2 with
    | error e => simp [Outcome.ofPublishBatch, Outcome.acknowledged]
    | ok first =>
        simp only [hvalue] at hsync
        intro x hx
        obtain ⟨k, hk, hpayload⟩ := Outcome.mem_acknowledged_batch hx
        set ack : Outcome := .publishedBatch payloads (some ⟨first, payloads.length⟩)
        obtain ⟨hfit, hdevice⟩ := Unreliable.appendBatch_onDevice (u := s.device)
          (A := {o | ∃ x ∈ ack.acknowledged, x.1 = o}) h hvalue (hsync.device (fun _ ho => ho))
        refine ⟨Log.payloadOf x.2,
          Log.payloadOf_bytes_of_fit hfit (List.mem_of_getElem? hpayload), ?_⟩
        rw [hk]
        apply hdevice k
        · rw [List.getElem?_map, hpayload, Option.map_some]
        · exact ⟨x, hx, hk⟩

theorem perform_flushPolicy (s : UnreliablePartition) (c : Call) :
  (s.perform c).1.partition.flushPolicy = s.partition.flushPolicy
  := by
  -- Every branch leaves the partition or replaces its log.
  cases c with
  | tryPublish store p =>
      simp only [perform, tryPublish]
      repeat' split
      all_goals rfl
  | tryPublishBatch store payloads =>
      simp only [perform, tryPublishBatch]
      repeat' split
      all_goals rfl

theorem run_flushPolicy (s : UnreliablePartition) (calls : List Call) :
  (s.run calls).partition.flushPolicy = s.partition.flushPolicy
  := by
  induction calls generalizing s with
  | nil => rfl
  | cons c calls ih => exact (ih _).trans (s.perform_flushPolicy c)

/-- In every run, whatever has failed before: the records that a call acknowledges are on the
device, if the calls of `msync` succeed that it makes for segments with these records. -/
theorem acknowledged_durable_of_synced (topic : String) (index : ℤ)
    (maxSegmentBytes maxLagRecords : ℕ) (dir : Directory) (hdir : dir.Sorted)
    (succeeds : ℕ → Bool) (calls : List Call) (c : Call) :
  let s := (make topic index maxSegmentBytes maxLagRecords .perMessage dir succeeds).run calls
  SyncedFor s.calls.length (s.perform c) →
    ∀ x ∈ (s.perform c).2.acknowledged, (s.perform c).1.partition.log.Durable x.1 x.2
  := by
  intro s hsync
  obtain ⟨q, hm, hq, -⟩ := (mirrors_self (make topic index maxSegmentBytes maxLagRecords
    .perMessage dir succeeds)).run (Log.recover_ordered maxSegmentBytes hdir) calls
  have hord : s.partition.log.Ordered := hm.log.same.ordered hq
  have hpolicy : s.partition.flushPolicy = .perMessage := run_flushPolicy _ calls
  cases c with
  | tryPublish store p => exact tryPublish_durable hord hpolicy store p hsync
  | tryPublishBatch store payloads =>
      exact tryPublishBatch_durable hord hpolicy store payloads hsync

/-- After a failure, a call whose own `msync` succeeds. -/
theorem acknowledged_durable_after_failure :
  let s := (make "t" 0 64 0 .perMessage [] (fun n => n != 0)).run
    [.tryPublish .empty ⟨[7], by decide⟩]
  let r := s.perform (.tryPublish .empty ⟨[8], by decide⟩)
  r.2.acknowledged = [(1, [8])] ∧ r.1.partition.log.Durable 1 [8]
  := by
  intro s r
  have hack : r.2.acknowledged = [(1, [8])] := by decide +kernel
  have hdir : SortedMap.Sorted ([] : Directory) := List.Pairwise.nil
  have hsync : SyncedFor s.calls.length r := by decide +kernel
  refine ⟨hack, ?_⟩
  apply acknowledged_durable_of_synced "t" 0 64 0 [] hdir _ _ _ hsync (1, [8])
  change _ ∈ r.2.acknowledged
  rw [hack]
  exact List.mem_singleton_self _

/-- A record that is not on the device is acknowledged: alone, when the `msync` of the flush fails,
and in a batch, when only the one fails that is made when its segment is sealed. -/
theorem acknowledges_unsynced :
  let s := make "t" 0 20 0 .perMessage [] (fun n => n != 0)
  let r := s.perform (.tryPublish .empty ⟨[7], by decide⟩)
  let r' := s.perform (.tryPublishBatch .empty [[1], [2]])
  (r.2.acknowledged = [(0, [7])] ∧ ¬ r.1.partition.log.Durable 0 [7])
    ∧ r'.2.acknowledged = [(0, [1]), (1, [2])] ∧ ¬ r'.1.partition.log.Durable 0 [1]
  := by
  intro s r r'
  refine ⟨⟨by decide +kernel, ?_⟩, by decide +kernel, ?_⟩
  · apply Log.not_durable_zero
    decide +kernel
  · apply Log.not_durable_zero
    decide +kernel

end UnreliablePartition

end Broker
