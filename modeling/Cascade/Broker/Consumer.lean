import Cascade.Storage.History
import Cascade.Broker.OffsetStore

/-!
# Consumer groups

The model of `broker/consumer.hpp` and `broker/topic.hpp`: the consumers of a group read the
partitions of a topic, each from its own cursor, and commit how far they got.

The consumers, the publishers and other users of the offset store run at the same time. A poll is
not atomic: it reads one record after the other, each under the lock of the log, and the logs grow
in between. Neither is a commit, which commits one partition after the other. Both visit the
partitions of the consumer in the order of a hash map, which is an argument here. A constructor
registers the group for one partition after the other, and reads the offset committed in a step of
its own. A partition counts only as its log.

A group may outlive its consumers: there can be any number of consumer objects with the same
index, of which some are abandoned, and others take over where these committed last. They need not
have been constructed with the same size of the group.
-/

open Storage

namespace Broker

/-- A named collection of partitions. -/
structure Topic where
  name : String
  numPartitions : ℕ
  partition : ℕ → Log

structure PolledRecord where
  partition : ℕ
  offset : ℕ
  payload : List UInt8
deriving DecidableEq

/-- How far a consumer is in a call. -/
inductive Call where
  /-- It is not in a call. -/
  | idle
  /-- In the constructor: the partitions still to be looked at. -/
  | constructing (rest : List ℕ)
  /-- In the constructor, when the group has been registered for a partition. -/
  | assigning (p : ℕ) (rest : List ℕ)
  /-- In a poll: the records so far, and the partitions still to be read, with the one at which
  it is in front. For the statement of results it is noted where the partitions ended when they
  were last read. -/
  | polling (maxRecords : ℕ) (results : List PolledRecord) (rest : List ℕ) (ends : ℕ → ℕ)
  /-- In a commit: the partitions still to be committed. -/
  | committing (rest : List ℕ)

/-- The partition that a constructor is about to assign. -/
def Call.assigning? : Call → Option ℕ
  | .assigning p _ => some p
  | _ => none

/-- A consumer: the partitions it owns, and the offset it reads next in each of them. -/
structure Consumer where
  partitions : List ℕ
  cursor : ℕ → UInt64
  call : Call

/-- A consumer at the beginning of the constructor, which looks at all partitions. -/
def Consumer.empty (numPartitions : ℕ) : Consumer :=
  ⟨[], fun _ => 0, .constructing (List.range numPartitions)⟩

/-- A consumer object: its index in the group, and a label that tells apart those with the same
index. -/
@[ext]
structure Member where
  label : ℕ
  index : ℕ
deriving DecidableEq

/-- What a poll returns, and where the partitions ended when it last read them. -/
structure Polled where
  member : Member
  maxRecords : ℕ
  records : List PolledRecord
  ends : ℕ → ℕ

/-- A topic, the offset store, and the consumers of one group. Those with the same label were
constructed with the same size of the group. -/
structure Consuming where
  topic : Topic
  group : String
  groupSize : ℕ → ℕ
  store : OffsetStore
  consumers : Member → Option Consumer

namespace Consuming

/-- One atomic step. -/
inductive Action where
  /-- An operation on the log of a partition. A publish consists of such operations. -/
  | publish (p : ℕ) (op : Op)
  /-- The constructor of the member is called. -/
  | construct (k : Member)
  /-- The member calls `poll`, which will visit its partitions in the given order. -/
  | poll (k : Member) (maxRecords : ℕ) (order : List ℕ)
  /-- The member calls `commit`, which will visit its partitions in the given order. -/
  | commit (k : Member) (order : List ℕ)
  /-- The member takes the next step of its call. -/
  | proceed (k : Member)
  /-- Another group, or a group of another topic, is registered in the store. -/
  | registerElsewhere (topic : String) (partition : ℤ) (group : String)
  /-- Another group, or a group of another topic, commits an offset. -/
  | commitElsewhere (topic : String) (partition : ℤ) (group : String) (nextOffset : UInt64)

/-- The member that takes the step. -/
def Action.member? : Action → Option Member
  | .construct k => some k
  | .poll k _ _ => some k
  | .commit k _ => some k
  | .proceed k => some k
  | _ => none

/-- Fresh partitions, a store in which nothing is registered, and no consumers. -/
def fresh (name : String) (numPartitions maxSegmentBytes : ℕ) (group : String)
    (groupSize : ℕ → ℕ) : Consuming where
  topic := ⟨name, numPartitions, fun _ => Log.fresh maxSegmentBytes⟩
  group := group
  groupSize := groupSize
  store := .empty
  consumers := fun _ => none

/-- The state of a member is replaced. -/
def setConsumer (s : Consuming) (k : Member) (c : Consumer) : Consuming :=
  { s with consumers := Function.update s.consumers k (some c) }

@[simp]
theorem setConsumer_self (s : Consuming) (k : Member) (c : Consumer) :
  (s.setConsumer k c).consumers k = some c
  := Function.update_self ..

theorem setConsumer_of_ne (s : Consuming) {k k' : Member} (h : k' ≠ k) (c : Consumer) :
  (s.setConsumer k c).consumers k' = s.consumers k'
  := Function.update_of_ne h ..

/-- An operation on the log of a partition. -/
def publish (s : Consuming) (p : ℕ) (op : Op) : Consuming :=
  if p < s.topic.numPartitions then
    { s with
      topic := { s.topic with
        partition := Function.update s.topic.partition p
          (op.perform (s.topic.partition p)).final } }
  else s

/-- The constructor of a member is called, unless it was already or its index is not in the
group. -/
def construct (s : Consuming) (k : Member) : Consuming :=
  if s.consumers k = none ∧ k.index < s.groupSize k.label then
    s.setConsumer k (.empty s.topic.numPartitions)
  else s

/-- The constructor of a member looks at a partition. The partitions go to the members of the group
by their index modulo the size of the group. -/
def examine (s : Consuming) (k : Member) (c : Consumer) (p : ℕ) (rest : List ℕ) : Consuming :=
  if p % s.groupSize k.label = k.index then
    { s with store := s.store.registerGroup s.topic.name p s.group }.setConsumer k
      { c with call := .assigning p rest }
  else s.setConsumer k { c with call := .constructing rest }

/-- The constructor of a member reads the offset that is committed for a partition. -/
def assign (s : Consuming) (k : Member) (c : Consumer) (p : ℕ) (rest : List ℕ) : Consuming :=
  let committed := s.store.get s.topic.name p s.group
  s.setConsumer k
    { partitions := c.partitions ++ [p]
      cursor := Function.update c.cursor p (committed.getD 0)
      call := .constructing rest }

/-- A member that is in no call enters one that visits its partitions in the given order. -/
def enter (s : Consuming) (k : Member) (order : List ℕ) (call : Call) : Consuming :=
  match s.consumers k with
  | some ⟨partitions, cursor, .idle⟩ =>
      if order.Perm partitions then s.setConsumer k ⟨partitions, cursor, call⟩ else s
  | _ => s

/-- A member calls `poll`. -/
def poll (s : Consuming) (k : Member) (maxRecords : ℕ) (order : List ℕ) : Consuming :=
  s.enter k order (.polling maxRecords [] order (fun _ => 0))

/-- A member calls `commit`. -/
def commit (s : Consuming) (k : Member) (order : List ℕ) : Consuming :=
  s.enter k order (.committing order)

/-- The poll of a member returns. -/
def returnPoll (s : Consuming) (k : Member) (c : Consumer) (maxRecords : ℕ)
    (results : List PolledRecord) (ends : ℕ → ℕ) : Consuming × Option Polled :=
  (s.setConsumer k { c with call := .idle }, some ⟨k, maxRecords, results, ends⟩)

/-- The poll of a member reads the partition at which it is. -/
def readNext (s : Consuming) (k : Member) (c : Consumer) (maxRecords : ℕ)
    (results : List PolledRecord) (p : ℕ) (rest : List ℕ) (ends : ℕ → ℕ) : Consuming :=
  let ends := Function.update ends p (s.topic.partition p).nextOffset
  match (s.topic.partition p).read (c.cursor p).toNat with
  | none => s.setConsumer k { c with call := .polling maxRecords results rest ends }
  | some rec =>
      s.setConsumer k { c with
        cursor := Function.update c.cursor p (c.cursor p + 1)
        call := .polling maxRecords (results ++ [⟨p, rec.offset, rec.payload⟩]) (p :: rest) ends }

/-- The next step of a call. -/
def proceed (s : Consuming) (k : Member) (c : Consumer) : Consuming × Option Polled :=
  match c.call with
  | .idle => (s, none)
  | .constructing [] => (s.setConsumer k { c with call := .idle }, none)
  | .constructing (p :: rest) => (s.examine k c p rest, none)
  | .assigning p rest => (s.assign k c p rest, none)
  | .polling maxRecords results [] ends => s.returnPoll k c maxRecords results ends
  | .polling maxRecords results (p :: rest) ends =>
      if results.length < maxRecords then
        (s.readNext k c maxRecords results p rest ends, none)
      else s.returnPoll k c maxRecords results ends
  | .committing [] => (s.setConsumer k { c with call := .idle }, none)
  | .committing (p :: rest) =>
      let store := s.store.commit s.topic.name p s.group (c.cursor p)
      ({ s with store := store }.setConsumer k { c with call := .committing rest }, none)

/-- The store is changed for another topic or another group. -/
def elsewhere (s : Consuming) (topic group : String) (store : OffsetStore) : Consuming :=
  if topic = s.topic.name ∧ group = s.group then s else { s with store := store }

/-- One atomic step, and what the poll returns that ends with it. A step that is not possible
does nothing. -/
def step (s : Consuming) : Action → Consuming × Option Polled
  | .publish p op => (s.publish p op, none)
  | .construct k => (s.construct k, none)
  | .poll k maxRecords order => (s.poll k maxRecords order, none)
  | .commit k order => (s.commit k order, none)
  | .proceed k =>
      match s.consumers k with
      | none => (s, none)
      | some c => s.proceed k c
  | .registerElsewhere topic partition group =>
      (s.elsewhere topic group (s.store.registerGroup topic partition group), none)
  | .commitElsewhere topic partition group nextOffset =>
      (s.elsewhere topic group (s.store.commit topic partition group nextOffset), none)

/-! ### What a step changes -/

/-- What a step of a member may make of the store. -/
inductive Stores (s : Consuming) (k : Member) : OffsetStore → Prop
  | same : s.Stores k s.store
  | register (p : ℕ) : s.Stores k (s.store.registerGroup s.topic.name p s.group)
  | commit {c : Consumer} {p : ℕ} {rest : List ℕ} (hc : s.consumers k = some c)
      (hcall : c.call = .committing (p :: rest)) :
      s.Stores k (s.store.commit s.topic.name p s.group (c.cursor p))

variable {k : Member} {c : Consumer}

theorem proceed_own (s : Consuming) (hc : s.consumers k = some c) :
  (s.proceed k c).1 = s
    ∨ ∃ store c', s.Stores k store ∧ (s.proceed k c).1 = { s with store }.setConsumer k c'
  := by
  rw [proceed]
  split
  · exact .inl rfl
  · exact .inr ⟨_, _, .same, rfl⟩
  · rw [examine]
    split
    · exact .inr ⟨_, _, .register _, rfl⟩
    · exact .inr ⟨_, _, .same, rfl⟩
  · exact .inr ⟨_, _, .same, rfl⟩
  · exact .inr ⟨_, _, .same, rfl⟩
  · split
    · rw [readNext]
      split <;> exact .inr ⟨_, _, .same, rfl⟩
    · exact .inr ⟨_, _, .same, rfl⟩
  · exact .inr ⟨_, _, .same, rfl⟩
  · next hcall => exact .inr ⟨_, _, .commit hc hcall, rfl⟩

theorem enter_own (s : Consuming) (k : Member) (order : List ℕ) (call : Call) :
  s.enter k order call = s
    ∨ ∃ store c', s.Stores k store ∧ s.enter k order call = { s with store }.setConsumer k c'
  := by
  rw [enter]
  split
  · split
    · exact .inr ⟨_, _, .same, rfl⟩
    · exact .inl rfl
  · exact .inl rfl

/-- A step of a member changes the member and the store. -/
theorem step_own (s : Consuming) {a : Action} (ha : a.member? = some k) :
  (s.step a).1 = s
    ∨ ∃ store c', s.Stores k store ∧ (s.step a).1 = { s with store }.setConsumer k c'
  := by
  cases a with
  | construct k' =>
      obtain rfl := Option.some_inj.mp ha
      rw [step, construct]
      split
      · exact .inr ⟨_, _, .same, rfl⟩
      · exact .inl rfl
  | poll k' maxRecords order =>
      obtain rfl := Option.some_inj.mp ha
      apply enter_own
  | commit k' order =>
      obtain rfl := Option.some_inj.mp ha
      apply enter_own
  | proceed k' =>
      obtain rfl := Option.some_inj.mp ha
      simp only [step]
      split
      · exact .inl rfl
      · next hc => exact s.proceed_own hc
  | _ => cases ha

/-- A step of nobody changes no member. -/
theorem step_other (s : Consuming) {a : Action} (ha : a.member? = none) :
  ∃ partition store, (s.step a).1
    = { s with topic := { s.topic with partition := partition }, store := store }
  := by
  cases a with
  | publish p op =>
      simp only [step, publish]
      split
      · exact ⟨_, s.store, rfl⟩
      · exact ⟨s.topic.partition, s.store, rfl⟩
  | registerElsewhere topic partition group =>
      simp only [step, elsewhere]
      split <;> exact ⟨s.topic.partition, _, rfl⟩
  | commitElsewhere topic partition group nextOffset =>
      simp only [step, elsewhere]
      split <;> exact ⟨s.topic.partition, _, rfl⟩
  | _ => cases ha

/-- Nobody else touches a member. -/
theorem step_consumers_of_ne (s : Consuming) {a : Action} (ha : a.member? ≠ some k) :
  (s.step a).1.consumers k = s.consumers k
  := by
  cases hmember : a.member? with
  | none =>
      obtain ⟨partition, store, heq⟩ := s.step_other hmember
      rw [heq]
  | some k' =>
      rcases s.step_own hmember with heq | ⟨store, c, -, heq⟩
      · rw [heq]
      · rw [heq]
        apply setConsumer_of_ne
        rintro rfl
        exact ha hmember

/-- Steps of a member change no log. -/
theorem step_topic (s : Consuming) {a : Action} (ha : a.member? = some k) :
  (s.step a).1.topic = s.topic
  := by
  rcases s.step_own ha with heq | ⟨store, c, -, heq⟩
  · rw [heq]
  · rw [heq]
    rfl

/-- The states agree on what no step changes: the names, the number of partitions and the sizes of
the group. -/
structure SameSetup (s s' : Consuming) : Prop where
  name : s'.topic.name = s.topic.name
  numPartitions : s'.topic.numPartitions = s.topic.numPartitions
  group : s'.group = s.group
  groupSize : s'.groupSize = s.groupSize

theorem SameSetup.trans {s s' s'' : Consuming} (h : s.SameSetup s') (h' : s'.SameSetup s'') :
  s.SameSetup s''
  := by
  constructor
  · rw [h'.name, h.name]
  · rw [h'.numPartitions, h.numPartitions]
  · rw [h'.group, h.group]
  · rw [h'.groupSize, h.groupSize]

theorem step_setup (s : Consuming) (a : Action) :
  s.SameSetup (s.step a).1
  := by
  cases ha : a.member? with
  | none =>
      obtain ⟨partition, store, heq⟩ := s.step_other ha
      rw [heq]
      exact ⟨rfl, rfl, rfl, rfl⟩
  | some k =>
      rcases s.step_own ha with heq | ⟨store, c, -, heq⟩
      · rw [heq]
        exact ⟨rfl, rfl, rfl, rfl⟩
      · rw [heq]
        exact ⟨rfl, rfl, rfl, rfl⟩

/-- The state after a list of steps. -/
def run (s : Consuming) (actions : List Action) : Consuming :=
  actions.foldl (fun s a => (s.step a).1) s

theorem run_append (s : Consuming) (actions actions' : List Action) :
  s.run (actions ++ actions') = (s.run actions).run actions'
  := List.foldl_append

theorem run_setup (s : Consuming) (actions : List Action) :
  s.SameSetup (s.run actions)
  := by
  induction actions generalizing s with
  | nil => exact ⟨rfl, rfl, rfl, rfl⟩
  | cons a actions ih => apply (step_setup s a).trans (ih (s.step a).1)

/-- What the polls return in the course of a list of steps. -/
def returns (s : Consuming) : List Action → List Polled
  | [] => []
  | a :: actions => (s.step a).2.toList ++ (s.step a).1.returns actions

theorem returns_append (s : Consuming) (actions actions' : List Action) :
  s.returns (actions ++ actions') = s.returns actions ++ (s.run actions).returns actions'
  := by
  induction actions generalizing s with
  | nil => rfl
  | cons a actions ih =>
      rw [List.cons_append, returns, ih, returns, List.append_assoc]
      rfl

end Consuming

/-- The records of a partition that polls returned, in order. -/
def delivered (p : ℕ) (polls : List Polled) : List PolledRecord :=
  (polls.flatMap Polled.records).filter (fun r => r.partition = p)

end Broker
