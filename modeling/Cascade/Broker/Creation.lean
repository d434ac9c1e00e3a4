import Cascade.Broker.Consumer
import Cascade.ControlPlane.Stores
import Cascade.Library.Runs

/-!
# Creating topics in a cluster

The model of `create_topic` and `get_topic` in `broker/broker.hpp`, of a broker that is connected
to the control plane: a topic is created there first, and then its partitions are constructed. When
the latter fails, or the reply of the control plane is lost, or the broker is started again, the
topic is registered in the control plane, but not in the table of the broker. A further call is
then rejected by the control plane, as the topic exists already. So the topics that a broker has
created can all be opened again exactly as long as none of them is missing from its table.
-/

open ControlPlane (MetadataStore)
open Runs

namespace Broker

/-! ### Topics -/

/-- What the constructor of a topic finds in the data directory: what the constructor of a partition
throws, if it does, and the logs of the partitions. -/
structure Disk where
  throws : ℕ → Option String
  log : ℕ → Storage.Log

/-- The constructor. A negative number of partitions is far too much to reserve. -/
def Topic.construct (name : String) (numPartitions : Int32) (disk : Disk) : Except String Topic :=
  if numPartitions < 0 then .error "vector::reserve"
  else
    let n := numPartitions.toInt.toNat
    match (List.range n).findSome? disk.throws with
    | some what => .error what
    | none => .ok ⟨name, n, disk.log⟩

/-! ### The broker and the control plane -/

/-- What becomes of a call to the control plane. If the client gets no response, the request may
still have been handled. -/
inductive Reply where
  | delivered
  | failed (message : String) (handled : Bool)

/-- The table of a broker, and the topics that the control plane knows. The calls of the broker that
the control plane accepted are not in the source. -/
structure Clustered where
  topics : Finmap fun _ : String => Topic
  metadata : MetadataStore
  accepted : List (String × Int32)

namespace Clustered

/-- The broker is new. -/
def start (metadata : MetadataStore) : Clustered := ⟨∅, metadata, []⟩

def createTopic (s : Clustered) (name : String) (numPartitions : Int32) (reply : Reply)
    (disk : Disk) : Clustered × Except String Topic :=
  match s.topics.lookup name, s.metadata.createTopic name numPartitions, reply with
  | some _, _, _ => (s, .error ("topic already exists: " ++ name))
  | none, .error e, .delivered => (s, .error ("control plane rejected topic creation: " ++ e))
  | none, .error _, .failed message _ => (s, .error ("CreateTopic RPC failed: " ++ message))
  | none, .ok metadata, .failed message handled =>
      (if handled then { s with metadata, accepted := (name, numPartitions) :: s.accepted } else s,
        .error ("CreateTopic RPC failed: " ++ message))
  | none, .ok metadata, .delivered =>
      let s := { s with metadata, accepted := (name, numPartitions) :: s.accepted }
      match Topic.construct name numPartitions disk with
      | .error what => (s, .error what)
      | .ok topic => ({ s with topics := s.topics.insert name topic }, .ok topic)

def getTopic (s : Clustered) (name : String) : Except String Topic :=
  match s.topics.lookup name with
  | none => .error ("no such topic: " ++ name)
  | some topic => .ok topic

/-- What happens to the broker and to the control plane, which other brokers use too. -/
inductive Action where
  | createTopic (name : String) (numPartitions : Int32) (reply : Reply) (disk : Disk)
  | others (name : String) (numPartitions : Int32)
  | restart

def step (s : Clustered) : Action → Clustered
  | .createTopic name numPartitions reply disk => (s.createTopic name numPartitions reply disk).1
  | .others name numPartitions =>
      match s.metadata.createTopic name numPartitions with
      | .error _ => s
      | .ok metadata => { s with metadata }
  | .restart => { s with topics := ∅ }

def run (s : Clustered) (actions : List Action) : Clustered :=
  actions.foldl step s

/-- A topic that was accepted, and is not in the table, is returned by a further call if it can be
constructed. -/
def Recoverable (s : Clustered) : Prop :=
  ∀ name numPartitions, (name, numPartitions) ∈ s.accepted → s.topics.lookup name = none →
    ∀ disk topic, Topic.construct name numPartitions disk = .ok topic →
      (s.createTopic name numPartitions .delivered disk).2 = .ok topic

/-- All topics that were accepted can be got. -/
def Held (s : Clustered) : Prop :=
  ∀ name numPartitions, (name, numPartitions) ∈ s.accepted → ∃ topic, s.getTopic name = .ok topic

/-- A request for a topic that neither the broker nor the control plane knows does not arrive, or
its reply does and the topic can be constructed; and the broker is not started again once it has a
topic. -/
def Kept (s : Clustered) : Action → Prop
  | .createTopic name numPartitions reply disk =>
      s.topics.lookup name = none →
        (∃ metadata, s.metadata.createTopic name numPartitions = .ok metadata) →
        (∃ message, reply = .failed message false)
          ∨ reply = .delivered ∧ ∃ topic, Topic.construct name numPartitions disk = .ok topic
  | .others _ _ => True
  | .restart => s.accepted = []

/-! ### What a call does -/

variable {s : Clustered} {name : String} {numPartitions : Int32}

theorem createTopic_rejected {e : String} (hlookup : s.topics.lookup name = none)
    (hreject : s.metadata.createTopic name numPartitions = .error e) (disk : Disk) :
  s.createTopic name numPartitions .delivered disk
    = (s, .error ("control plane rejected topic creation: " ++ e))
  := by
  simp only [createTopic, hlookup, hreject]

/-- What a call does to the state: nothing, or the control plane accepts a topic that is not in the
table, and then, if the reply arrives and the topic can be constructed, it is. -/
theorem createTopic_cases (s : Clustered) (name : String) (numPartitions : Int32) (reply : Reply)
    (disk : Disk) :
  let r := s.createTopic name numPartitions reply disk
  r.1 = s
    ∨ s.topics.lookup name = none
      ∧ s.metadata.createTopic name numPartitions = .ok r.1.metadata
      ∧ r.1.accepted = (name, numPartitions) :: s.accepted
      ∧ ((∃ message, reply = .failed message true)
        ∨ reply = .delivered ∧ ∀ topic, Topic.construct name numPartitions disk = .ok topic →
          r.1.topics = s.topics.insert name topic)
  := by
  intro r
  rcases hlookup : s.topics.lookup name with _ | topic
  · rcases hcreate : s.metadata.createTopic name numPartitions with e | metadata
    · left
      rcases reply with _ | ⟨message, handled⟩
      · simp only [r, createTopic, hlookup, hcreate]
      · simp only [r, createTopic, hlookup, hcreate]
    · rcases reply with _ | ⟨message, handled⟩
      · right
        simp only [r, createTopic, hlookup, hcreate]
        cases Topic.construct name numPartitions disk with
        | error what => simp
        | ok topic => simp
      · simp only [r, createTopic, hlookup, hcreate]
        cases handled with
        | false => exact .inl rfl
        | true => exact .inr ⟨trivial, rfl, rfl, .inl ⟨message, rfl⟩⟩
  · left
    simp only [r, createTopic, hlookup]

/-! ### Runs -/

/-- What was accepted is in the control plane, with a positive number of partitions. -/
def Registered (s : Clustered) : Prop :=
  ∀ name numPartitions, (name, numPartitions) ∈ s.accepted →
    ¬ numPartitions ≤ 0 ∧ ∃ topic, s.metadata.topics.find? name = some topic

theorem Registered.step (h : s.Registered) (action : Action) :
  (s.step action).Registered
  := by
  -- The control plane has not lost a topic.
  have hkeeps : ∀ {metadata : MetadataStore} {name' : String} {numPartitions' : Int32},
      s.metadata.createTopic name' numPartitions' = .ok metadata →
      ∀ name numPartitions, (name, numPartitions) ∈ s.accepted →
        ¬ numPartitions ≤ 0 ∧ ∃ topic, metadata.topics.find? name = some topic := by
    intro metadata name' numPartitions' hok name numPartitions hmem
    obtain ⟨hpos, topic, htopic⟩ := h name numPartitions hmem
    exact ⟨hpos, topic, MetadataStore.find?_of_createTopic hok htopic⟩
  cases action with
  | createTopic name numPartitions reply disk =>
      obtain hsame | ⟨-, hok, haccepted, -⟩ :=
        s.createTopic_cases name numPartitions reply disk
      · rw [Clustered.step, hsame]
        exact h
      · intro name' numPartitions' hmem
        rw [Clustered.step, haccepted] at hmem
        rw [Clustered.step]
        rcases List.mem_cons.mp hmem with heq | hmem
        · obtain ⟨rfl, rfl⟩ := Prod.mk.inj heq
          obtain ⟨-, hpos, hmetadata⟩ := MetadataStore.createTopic_eq_ok hok
          rw [hmetadata]
          exact ⟨hpos, _, s.metadata.topics.find?_put_self ⟨name', numPartitions'⟩⟩
        · exact hkeeps hok name' numPartitions' hmem
  | others name numPartitions =>
      rw [Clustered.step]
      split
      · exact h
      · rename_i metadata hok
        exact hkeeps hok
  | restart => exact h

theorem Registered.run (h : s.Registered) (actions : List Action) :
  (s.run actions).Registered
  := by
  induction actions generalizing s with
  | nil => exact h
  | cons action actions ih => exact ih (h.step action)

/-- The topics that were accepted are in the table. -/
theorem held_iff :
  s.Held ↔ ∀ name numPartitions, (name, numPartitions) ∈ s.accepted → s.topics.lookup name ≠ none
  := by
  have hget : ∀ name, (∃ topic, s.getTopic name = .ok topic) ↔ s.topics.lookup name ≠ none := by
    intro name
    rw [getTopic]
    cases s.topics.lookup name with
    | none => simp
    | some topic => simp
  simp only [Held, hget]

/-- Steps that keep the topics in the table. -/
theorem Held.step (h : s.Held) {action : Action} (hkept : s.Kept action) :
  (s.step action).Held
  := by
  rw [held_iff] at h ⊢
  cases action with
  | createTopic name numPartitions reply disk =>
      obtain hsame | ⟨hlookup, hok, haccepted, hcases⟩ :=
        s.createTopic_cases name numPartitions reply disk
      · rw [Clustered.step, hsame]
        exact h
      · obtain ⟨topic, htopics⟩ : ∃ topic,
            (s.createTopic name numPartitions reply disk).1.topics
              = s.topics.insert name topic := by
          obtain ⟨message, rfl⟩ | ⟨rfl, hconstruct⟩ := hcases
          · obtain ⟨_, ⟨⟩⟩ | ⟨⟨⟩, -⟩ := hkept hlookup ⟨_, hok⟩
          · obtain ⟨_, ⟨⟩⟩ | ⟨-, topic, htopic⟩ := hkept hlookup ⟨_, hok⟩
            exact ⟨topic, hconstruct topic htopic⟩
        intro name' numPartitions' hmem
        rw [Clustered.step, haccepted] at hmem
        rw [Clustered.step, htopics]
        rcases eq_or_ne name' name with rfl | hname
        · rw [Finmap.lookup_insert]
          apply Option.some_ne_none
        · rw [Finmap.lookup_insert_of_ne _ hname]
          rcases List.mem_cons.mp hmem with heq | hmem
          · exact absurd (Prod.mk.inj heq).1 hname
          · exact h name' numPartitions' hmem
  | others name numPartitions =>
      rw [Clustered.step]
      split <;> exact h
  | restart =>
      intro name numPartitions hmem
      have hnil : s.accepted = [] := hkept
      rw [Clustered.step, hnil] at hmem
      cases hmem

theorem Held.run (h : s.Held) {actions : List Action}
    (halong : Along Clustered.step Kept s actions) :
  (s.run actions).Held
  := by
  apply halong.invariant _ h
  intro s action h hkept
  exact h.step hkept

/-- A data directory in which everything can be opened. -/
def openable : Disk := ⟨fun _ => none, fun _ => Storage.Log.fresh 4096⟩

/-- A data directory in which the second partition cannot be opened. -/
def brokenDisk : Disk :=
  ⟨fun i => if i = 1 then some "failed to open segment file: data/orders/partition-1" else none,
    fun _ => Storage.Log.fresh 4096⟩

theorem construct_openable (hpos : ¬ numPartitions ≤ 0) :
  Topic.construct name numPartitions openable
    = .ok ⟨name, numPartitions.toInt.toNat, openable.log⟩
  := by
  have hneg : ¬ numPartitions < 0 := fun hlt => hpos (Int32.le_of_lt hlt)
  have hnone : (List.range numPartitions.toInt.toNat).findSome? openable.throws = none :=
    List.findSome?_eq_none_iff.mpr fun _ _ => rfl
  rw [Topic.construct, if_neg hneg]
  dsimp only
  rw [hnone]

/-- In every run, the topics that were accepted can all be opened again by a further call if and
only if none of them is missing from the table; none is missing when every topic that the control
plane accepts is constructed, and the broker is not started again. -/
theorem topics_recoverable_iff (metadata : MetadataStore) (actions : List Action) :
  (((start metadata).run actions).Recoverable ↔ ((start metadata).run actions).Held)
    ∧ (Along step Kept (start metadata) actions → ((start metadata).run actions).Held)
  := by
  have hstart : (start metadata).Registered := by
    intro name numPartitions hmem
    cases hmem
  have hregistered := hstart.run actions
  refine ⟨⟨fun hrecoverable => ?_, fun hheld => ?_⟩, fun halong => ?_⟩
  · rw [held_iff]
    intro name numPartitions hmem hlookup
    obtain ⟨hpos, topic, htopic⟩ := hregistered name numPartitions hmem
    have hok := hrecoverable name numPartitions hmem hlookup openable _ (construct_openable hpos)
    -- The control plane knows the topic.
    have hreject : ((start metadata).run actions).metadata.createTopic name numPartitions
        = .error ("topic already exists: " ++ name) := by
      rw [MetadataStore.createTopic, htopic]
    rw [createTopic_rejected hlookup hreject] at hok
    cases hok
  · intro name numPartitions hmem hlookup
    exact absurd hlookup (held_iff.mp hheld name numPartitions hmem)
  · refine Held.run ?_ halong
    intro name numPartitions hmem
    cases hmem

/-- A partition of a new topic cannot be opened. -/
def failedConstruction : Clustered :=
  (start .new).run [.createTopic "orders" 4 .delivered brokenDisk]

/-- A broker with a new topic is started again. -/
def restarted : Clustered :=
  (start .new).run [.createTopic "orders" 4 .delivered openable, .restart]

/-- In both cases the topic is registered in the control plane, and a further call is rejected. -/
theorem registered_not_recoverable :
  (failedConstruction.accepted = [("orders", 4)]
      ∧ failedConstruction.topics.lookup "orders" = none
      ∧ (failedConstruction.createTopic "orders" 4 .delivered openable).2
        = .error "control plane rejected topic creation: topic already exists: orders")
    ∧ (restarted.accepted = [("orders", 4)]
      ∧ restarted.topics.lookup "orders" = none
      ∧ (restarted.createTopic "orders" 4 .delivered openable).2
        = .error "control plane rejected topic creation: topic already exists: orders")
  := by
  exact ⟨⟨rfl, rfl, rfl⟩, ⟨rfl, rfl, rfl⟩⟩

end Clustered

end Broker
