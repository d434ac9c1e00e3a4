import Cascade.Broker.Isolation
import Cascade.Broker.Partition
import Cascade.Library.Runs

/-!
# The limit on the lag

A publisher is admitted if the consumers lag less than the limit behind, and appends later. What
it appends is at most the size of a batch, so the lag is beyond the limit by less than that, as
long as nobody is admitted on the strength of a lag that is no longer current: whoever appends
must be such that the check would still admit it (`Publishing.Current`). Two publishers that check
first and append then may both append, and the limit does not hold.
-/

open Crash Crash.Program Runs Storage

namespace Broker

namespace OffsetStore

variable {s s' : OffsetStore}

/-- The groups of a partition are the same, and none of them has moved backwards. -/
structure Onward (topic : String) (partition : ℤ) (s s' : OffsetStore) : Prop where
  groups : s'.groupsByPartition (partitionKey topic partition)
    = s.groupsByPartition (partitionKey topic partition)
  get_le : ∀ group, (s.get topic partition group).getD 0 ≤ (s'.get topic partition group).getD 0

theorem Onward.refl (topic : String) (partition : ℤ) (s : OffsetStore) :
  Onward topic partition s s
  := ⟨rfl, fun _ => UInt64.le_refl _⟩

/-- The least committed offset does not move backwards. -/
theorem Onward.exists_min {topic : String} {partition : ℤ} (h : Onward topic partition s s')
    {v' : UInt64} (hv' : s'.minCommittedOffsetFor topic partition = some v') :
  ∃ v, s.minCommittedOffsetFor topic partition = some v ∧ v ≤ v'
  := by
  obtain ⟨⟨group, hgroup, rfl⟩, -⟩ := (minCommittedOffsetFor_eq_some_iff ..).mp hv'
  rw [h.groups] at hgroup
  have hleast := foldl_min_isLeast_of_ne_nil
    (fun group => (s.get topic partition group).getD 0) (List.ne_nil_of_mem hgroup)
  refine ⟨_, (minCommittedOffsetFor_eq_some_iff ..).mpr hleast, ?_⟩
  apply UInt64.le_trans (hleast.2 ⟨group, hgroup, rfl⟩)
  apply h.get_le

/-- Registering a group that is listed already, or elsewhere, changes nothing for a partition. -/
theorem registerGroup_onward {topic : String} {partition : ℤ} (s : OffsetStore)
    {topic' group' : String} {partition' : ℤ}
    (h : topic' = topic ∧ partition' = partition →
      group' ∈ s.groupsByPartition (partitionKey topic partition)) :
  Onward topic partition s (s.registerGroup topic' partition' group')
  := by
  constructor
  · rw [registerGroup_groupsByPartition]
    by_cases hkey : partitionKey topic partition = partitionKey topic' partition'
    · obtain ⟨rfl, rfl⟩ := partitionKey_inj hkey
      rw [Function.update_self]
      apply List.insert_of_mem (h ⟨rfl, rfl⟩)
    · rw [Function.update_of_ne hkey]
  · intro group
    rw [getD_registerGroup]
    apply UInt64.le_refl

/-- A commit that does not move its own group backwards moves no group backwards. -/
theorem commit_onward (topic : String) (partition : ℤ) (s : OffsetStore) {topic' group' : String}
    {partition' : ℤ} {nextOffset : UInt64}
    (h : (s.get topic' partition' group').getD 0 ≤ nextOffset) :
  Onward topic partition s (s.commit topic' partition' group' nextOffset)
  := by
  refine ⟨rfl, ?_⟩
  intro group
  by_cases hkey : entryKey topic partition group = entryKey topic' partition' group'
  · rw [get_congr s hkey, get_congr _ hkey, get_commit_self]
    exact h
  · rw [get_commit_of_key_ne s hkey]
    apply UInt64.le_refl

end OffsetStore

namespace Publishing

/-! ### Runs -/

/-- A commit does not move its group backwards. -/
def Forward (s : Publishing) : Action → Prop
  | .commit topic partition group nextOffset =>
      (s.store.get topic partition group).getD 0 ≤ nextOffset
  | _ => True

/-- The number of records that a step appends at most. -/
def weight (s : Publishing) : Action → ℕ
  | .proceed i =>
      match s.stage i with
      | .admitted _ => 1
      | .admittedBatch payloads => payloads.length
      | _ => 0
  | _ => 0

/-- A publisher that appends would still be admitted. -/
def Current (s : Publishing) (a : Action) : Prop :=
  s.weight a = 0 ∨ s.partition.overLagLimit s.store = false

instance (s : Publishing) (a : Action) : Decidable (s.Current a) :=
  inferInstanceAs (Decidable (_ ∨ _))

/-- How far the slowest group of the partition is behind. -/
def lag (s : Publishing) : Option ℕ :=
  (s.store.minCommittedOffsetFor s.partition.topic s.partition.index).map
    (fun minCommitted => s.partition.log.nextOffset - minCommitted.toNat)

/-! ### What a step adds -/

variable {s : Publishing} {ps : List Payload}

/-- The partition is as before but for its log, which holds at most `n` records more. -/
def Grown (n : ℕ) (s s' : Publishing) (ps : List Payload) : Prop :=
  ∃ qs, s'.partition = { s.partition with log := s'.partition.log }
    ∧ s'.partition.log.Settled qs ∧ qs.length ≤ ps.length + n

theorem grown_self (hs : s.partition.log.Settled ps) :
  Grown 0 s s ps
  := ⟨ps, rfl, hs, le_rfl⟩

theorem grown_append (hs : s.partition.log.Settled ps) (i : ℕ) (p : Payload) :
  Grown 1 s (s.append i p).1 ps ∧ (s.append i p).1.store = s.store
  := by
  obtain ⟨-, hvalue, hsettled, -⟩ := Log.append_refines p _ ps hs
  have hlen : (appendSpec p s.partition.log.maxSegmentBytes ps).1.length ≤ ps.length + 1 := by
    rw [appendSpec]
    split <;> simp
  rw [append]
  simp only [hvalue]
  split
  · exact ⟨⟨_, rfl, hsettled, hlen⟩, rfl⟩
  · split
    · exact ⟨⟨_, rfl, hsettled, hlen⟩, rfl⟩
    · exact ⟨⟨_, rfl, hsettled, hlen⟩, rfl⟩

theorem grown_appendBatch (hs : s.partition.log.Settled ps) (i : ℕ)
    (payloads : List (List UInt8)) :
  Grown payloads.length s (s.appendBatch i payloads).1 ps
    ∧ (s.appendBatch i payloads).1.store = s.store
  := by
  obtain ⟨-, hvalue, hsettled, -⟩ := Log.appendBatch_refines payloads
    (s.partition.flushPolicy = .perMessage) _ ps hs
  have hlen : (appendBatchSpec payloads s.partition.log.maxSegmentBytes ps).1.length
      ≤ ps.length + payloads.length := by
    rw [appendBatchSpec]
    split <;> simp
  rw [appendBatch]
  simp only [hvalue]
  split
  · exact ⟨⟨_, rfl, hsettled, hlen⟩, rfl⟩
  · exact ⟨⟨_, rfl, hsettled, hlen⟩, rfl⟩

theorem grown_flush (hs : s.partition.log.Settled ps) :
  Grown 0 s s.flush ps
  := by
  obtain ⟨-, -, hsettled, -⟩ := Log.flush_refines _ ps hs
  exact ⟨ps, rfl, hsettled, le_rfl⟩

/-- A call that begins changes at most the stage of its publisher. -/
theorem step_tryPublish (s : Publishing) (i : ℕ) (p : Payload) :
  (s.step (.tryPublish i p)).1 = s ∨ (s.step (.tryPublish i p)).1 = s.enter i (.admitted p)
  := by
  rw [step]
  split
  · rw [tryPublish]
    split
    · exact .inl rfl
    · exact .inr rfl
  · exact .inl rfl

theorem step_tryPublishBatch (s : Publishing) (i : ℕ) (payloads : List (List UInt8)) :
  (s.step (.tryPublishBatch i payloads)).1 = s
    ∨ (s.step (.tryPublishBatch i payloads)).1 = s.enter i (.admittedBatch payloads)
  := by
  rw [step]
  split
  · rw [tryPublishBatch]
    split
    · exact .inl rfl
    · split
      · exact .inl rfl
      · exact .inr rfl
  · exact .inl rfl

/-- What a step appends, and what it does to the store. -/
theorem grown_step (hs : s.partition.log.Settled ps) {a : Action} (hforward : s.Forward a)
    (hregister : ∀ group, a = .registerGroup s.partition.topic s.partition.index group →
      group ∈ s.store.groupsByPartition
        (OffsetStore.partitionKey s.partition.topic s.partition.index)) :
  Grown (s.weight a) s (s.step a).1 ps
    ∧ OffsetStore.Onward s.partition.topic s.partition.index s.store (s.step a).1.store
  := by
  have hself := grown_self hs
  cases a with
  | tryPublish i p =>
      rcases step_tryPublish s i p with hstep | hstep
      · rw [hstep]
        exact ⟨hself, .refl ..⟩
      · rw [hstep]
        exact ⟨hself, .refl ..⟩
  | tryPublishBatch i payloads =>
      rcases step_tryPublishBatch s i payloads with hstep | hstep
      · rw [hstep]
        exact ⟨hself, .refl ..⟩
      · rw [hstep]
        exact ⟨hself, .refl ..⟩
  | proceed i =>
      cases hstage : s.stage i with
      | idle =>
          simp only [step, weight, hstage]
          exact ⟨hself, .refl ..⟩
      | admitted p =>
          obtain ⟨hgrown, hstore⟩ := grown_append hs i p
          simp only [step, weight, hstage, hstore]
          exact ⟨hgrown, .refl ..⟩
      | admittedBatch payloads =>
          obtain ⟨hgrown, hstore⟩ := grown_appendBatch hs i payloads
          simp only [step, weight, hstage, hstore]
          exact ⟨hgrown, .refl ..⟩
      | appended p offset =>
          simp only [step, weight, hstage]
          exact ⟨grown_flush hs, .refl ..⟩
  | flush => exact ⟨grown_flush hs, .refl ..⟩
  | registerGroup topic partition group =>
      refine ⟨hself, OffsetStore.registerGroup_onward s.store ?_⟩
      rintro ⟨rfl, rfl⟩
      apply hregister group rfl
  | commit topic partition group nextOffset =>
      exact ⟨hself, OffsetStore.commit_onward _ _ s.store hforward⟩

/-- A publisher comes to append a batch only by calling with it. -/
theorem admittedBatch_of_enter {i j : ℕ} {stage : Stage} {payloads : List (List UInt8)}
    (h : (s.enter i stage).stage j = .admittedBatch payloads) :
  s.stage j = .admittedBatch payloads ∨ j = i ∧ stage = .admittedBatch payloads
  := by
  by_cases hj : j = i
  · subst hj
    rw [enter_stage_self] at h
    exact .inr ⟨rfl, h⟩
  · rw [enter_stage_of_ne s hj] at h
    exact .inl h

theorem admittedBatch_of_step {a : Action} {j : ℕ} {payloads : List (List UInt8)}
    (h : (s.step a).1.stage j = .admittedBatch payloads) :
  s.stage j = .admittedBatch payloads ∨ a = .tryPublishBatch j payloads
  := by
  -- A publisher that goes on to a stage without a batch.
  have hidle : ∀ (s' : Publishing) i stage, s'.stage = s.stage →
      (s'.enter i stage).stage j = .admittedBatch payloads →
      (∀ payloads, stage ≠ .admittedBatch payloads) →
      s.stage j = .admittedBatch payloads ∨ a = .tryPublishBatch j payloads := by
    intro s' i stage hs' hstage hne
    rcases admittedBatch_of_enter hstage with hold | ⟨-, hnew⟩
    · left
      rw [← hs']
      exact hold
    · exact absurd hnew (hne payloads)
  cases a with
  | tryPublish i p =>
      rcases step_tryPublish s i p with hstep | hstep
      · rw [hstep] at h
        exact .inl h
      · rw [hstep] at h
        exact hidle s i _ rfl h (by simp)
  | tryPublishBatch i payloads' =>
      rcases step_tryPublishBatch s i payloads' with hstep | hstep
      · rw [hstep] at h
        exact .inl h
      · rw [hstep] at h
        apply (admittedBatch_of_enter h).imp_right
        rintro ⟨rfl, ⟨⟩⟩
        rfl
  | proceed i =>
      cases hstage : s.stage i with
      | idle =>
          simp only [step, hstage] at h
          exact .inl h
      | admitted p =>
          simp only [step, hstage, append] at h
          split at h
          · exact hidle (s.setLog _) i _ rfl h (by simp)
          · split at h
            · exact hidle (s.setLog _) i _ rfl h (by simp)
            · exact hidle (s.setLog _) i _ rfl h (by simp)
      | admittedBatch payloads' =>
          simp only [step, hstage, appendBatch] at h
          split at h
          · exact hidle (s.setLog _) i _ rfl h (by simp)
          · exact hidle (s.setLog _) i _ rfl h (by simp)
      | appended p offset =>
          simp only [step, hstage, flushAppended] at h
          exact hidle s.flush i _ rfl h (by simp)
  | flush => exact .inl h
  | registerGroup topic partition group => exact .inl h
  | commit topic partition group nextOffset => exact .inl h

/-! ### The bound -/

/-- The lag is at most `maxLag + (maxBatch - 1)`, and so it will be after the appends to come. -/
structure Bounded (start : Publishing) (maxBatch : ℕ) (s : Publishing) : Prop where
  partition : s.partition = { start.partition with log := s.partition.log }
  groups : s.store.groupsByPartition
      (OffsetStore.partitionKey start.partition.topic start.partition.index)
    = start.store.groupsByPartition
      (OffsetStore.partitionKey start.partition.topic start.partition.index)
  batches : ∀ i payloads, s.stage i = .admittedBatch payloads → payloads.length ≤ maxBatch
  lag : ∃ ps, s.partition.log.Settled ps ∧ ∀ minCommitted,
    s.store.minCommittedOffsetFor start.partition.topic start.partition.index
        = some minCommitted →
      ps.length ≤ minCommitted.toNat + (start.partition.maxLagRecords + (maxBatch - 1))

/-- A publisher is admitted if the lag is below the limit. -/
theorem overLagLimit_eq_false {p : Partition} (hlimit : 0 < p.maxLagRecords)
    {store : OffsetStore} {minCommitted : UInt64}
    (hmin : store.minCommittedOffsetFor p.topic p.index = some minCommitted)
    (h : p.overLagLimit store = false) :
  p.log.nextOffset < minCommitted.toNat + p.maxLagRecords
  := by
  rw [Partition.overLagLimit, if_neg (Nat.ne_of_gt hlimit), hmin] at h
  have hlag := of_decide_eq_false h
  split at hlag <;> omega

/-- No step appends more than the largest batch. -/
theorem weight_le {start : Publishing} {maxBatch : ℕ} (h : Bounded start maxBatch s)
    (hbatch : 0 < maxBatch) (a : Action) :
  s.weight a ≤ maxBatch
  := by
  cases a with
  | proceed i =>
      cases hstage : s.stage i with
      | idle => simp only [weight, hstage, Nat.zero_le]
      | admitted p =>
          simp only [weight, hstage]
          exact hbatch
      | admittedBatch payloads =>
          simp only [weight, hstage]
          apply h.batches i payloads hstage
      | appended p offset => simp only [weight, hstage, Nat.zero_le]
  | _ => apply Nat.zero_le

/-- A step that appends only what would still be admitted keeps the lag bounded. -/
theorem Bounded.step {start : Publishing} {maxBatch : ℕ} (h : Bounded start maxBatch s)
    (hlimit : 0 < start.partition.maxLagRecords) (hbatch : 0 < maxBatch) {a : Action}
    (hforward : s.Forward a) (hcurrent : s.Current a)
    (hregister : ∀ group, a = .registerGroup start.partition.topic start.partition.index group →
      group ∈ start.store.groupsByPartition
        (OffsetStore.partitionKey start.partition.topic start.partition.index))
    (hsize : ∀ i payloads, a = .tryPublishBatch i payloads → payloads.length ≤ maxBatch) :
  Bounded start maxBatch (s.step a).1
  := by
  obtain ⟨ps, hps, hlag⟩ := h.lag
  have htopic : s.partition.topic = start.partition.topic := by rw [h.partition]
  have hindex : s.partition.index = start.partition.index := by rw [h.partition]
  have hmax : s.partition.maxLagRecords = start.partition.maxLagRecords := by rw [h.partition]
  have hgrown := grown_step hps hforward (by rw [htopic, hindex, h.groups]; exact hregister)
  rw [htopic, hindex] at hgrown
  obtain ⟨⟨qs, hpartition, hqs, hlen⟩, honward⟩ := hgrown
  refine ⟨?_, ?_, ?_, qs, hqs, ?_⟩
  · rw [hpartition, h.partition]
  · rw [honward.groups, h.groups]
  · intro i payloads hstage
    rcases admittedBatch_of_step hstage with hold | hnew
    · exact h.batches i payloads hold
    · exact hsize i payloads hnew
  · intro minCommitted' hmin'
    obtain ⟨minCommitted, hmin, hle⟩ := honward.exists_min hmin'
    have hle' := UInt64.le_iff_toNat_le.mp hle
    have hbefore := hlag minCommitted hmin
    have hweight := weight_le h hbatch a
    rcases hcurrent with hzero | hadmit
    · omega
    · rw [← htopic, ← hindex] at hmin
      have hroom := overLagLimit_eq_false (hmax.symm ▸ hlimit) hmin hadmit
      rw [hps.stored, hmax] at hroom
      omega

theorem Bounded.run {start : Publishing} {maxBatch : ℕ} (h : Bounded start maxBatch s)
    (hlimit : 0 < start.partition.maxLagRecords) (hbatch : 0 < maxBatch) {actions : List Action}
    (hforward : Along after Forward s actions) (hcurrent : Along after Current s actions)
    (hregister : ∀ group,
      .registerGroup start.partition.topic start.partition.index group ∈ actions →
      group ∈ start.store.groupsByPartition
        (OffsetStore.partitionKey start.partition.topic start.partition.index))
    (hsize : ∀ i payloads, .tryPublishBatch i payloads ∈ actions → payloads.length ≤ maxBatch) :
  Bounded start maxBatch (s.run actions)
  := by
  induction actions generalizing s with
  | nil => exact h
  | cons a actions ih =>
      have hstep := h.step hlimit hbatch hforward.1 hcurrent.1
        (fun group ha => hregister group (ha ▸ List.mem_cons_self))
        (fun i payloads ha => hsize i payloads (ha ▸ List.mem_cons_self))
      exact ih hstep hforward.2 hcurrent.2
        (fun group ha => hregister group (List.mem_cons_of_mem a ha))
        (fun i payloads ha => hsize i payloads (List.mem_cons_of_mem a ha))

/-- In every run in which a publisher that appends would still be admitted, whatever the order of
the steps, the lag exceeds its limit by less than the size of the largest batch. All groups of the
partition are in the store from the start, and no commit moves a group backwards. -/
theorem lag_bounded (topic : String) (index : ℤ) (maxSegmentBytes : ℕ) {maxLagRecords : ℕ}
    (hlimit : 0 < maxLagRecords) (flushPolicy : FlushPolicy) (store : OffsetStore)
    {maxBatch : ℕ} (hbatch : 0 < maxBatch) {actions : List Action}
    (hregister : ∀ group, .registerGroup topic index group ∈ actions →
      group ∈ store.groupsByPartition (OffsetStore.partitionKey topic index))
    (hsize : ∀ i payloads, .tryPublishBatch i payloads ∈ actions → payloads.length ≤ maxBatch)
    (hforward : Along after Forward
      (fresh topic index maxSegmentBytes maxLagRecords flushPolicy store) actions)
    (hcurrent : Along after Current
      (fresh topic index maxSegmentBytes maxLagRecords flushPolicy store) actions) :
  ∀ lag ∈ ((fresh topic index maxSegmentBytes maxLagRecords flushPolicy store).run actions).lag,
    lag ≤ maxLagRecords + (maxBatch - 1)
  := by
  have hfresh : Bounded (fresh topic index maxSegmentBytes maxLagRecords flushPolicy store)
      maxBatch (fresh topic index maxSegmentBytes maxLagRecords flushPolicy store) := by
    refine ⟨rfl, rfl, ?_, [], Log.fresh_settled maxSegmentBytes, ?_⟩
    · exact fun _ _ hstage => nomatch hstage
    · exact fun _ _ => Nat.zero_le _
  have hrun := hfresh.run hlimit hbatch hforward hcurrent hregister hsize
  obtain ⟨ps, hps, hlag⟩ := hrun.lag
  intro lag hmem
  rw [Publishing.lag, hps.stored, hrun.partition, Option.mem_def, Option.map_eq_some_iff] at hmem
  obtain ⟨minCommitted, hmin, rfl⟩ := hmem
  have hle := hlag minCommitted hmin
  change _ ≤ _ + (maxLagRecords + (maxBatch - 1)) at hle
  omega

/-- A store in which one group is registered. -/
def oneGroup : OffsetStore := OffsetStore.empty.registerGroup "topic" 0 "group"

/-- One publisher after the other. -/
theorem lag_bounded_one_by_one :
  ((fresh "topic" 0 64 1 .manual oneGroup).run
      [.tryPublish 0 ⟨[1], by decide⟩, .proceed 0, .commit "topic" 0 "group" 1,
        .tryPublish 1 ⟨[2], by decide⟩, .proceed 1]).lag = some 1
    ∧ ∀ lag ∈ ((fresh "topic" 0 64 1 .manual oneGroup).run
      [.tryPublish 0 ⟨[1], by decide⟩, .proceed 0, .commit "topic" 0 "group" 1,
        .tryPublish 1 ⟨[2], by decide⟩, .proceed 1]).lag, lag ≤ 1 + (1 - 1)
  := by
  refine ⟨by decide +kernel, ?_⟩
  apply lag_bounded "topic" 0 64 (by decide) .manual oneGroup (by decide)
  · simp
  · simp
  · refine ⟨trivial, trivial, ?_, trivial, trivial, trivial⟩
    change _ ≤ _
    decide +kernel
  · refine ⟨?_, ?_, ?_, ?_, ?_, trivial⟩ <;> decide +kernel

/-- Two publishers are admitted before either of them appends. -/
theorem lag_beyond_limit :
  ((fresh "topic" 0 64 1 .manual oneGroup).run
      [.tryPublish 0 ⟨[1], by decide⟩, .tryPublish 1 ⟨[2], by decide⟩, .proceed 0,
        .proceed 1]).lag = some 2
    ∧ ¬ 2 ≤ 1 + (1 - 1)
  := by
  decide +kernel

end Publishing

end Broker
