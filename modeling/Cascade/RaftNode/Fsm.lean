import Cascade.ControlPlane.Stores

/-!
# The replicated state machine

The model of `raftnode/fsm.go`: the state that every node of the cluster replicates, the commands
of the log that change it, and the snapshots from which a node that is far behind is restored.

Commands and snapshots are encoded by `encoding/json`, which is an argument here. So is what the
node's own clock shows when an entry is applied; it is read only for commands to which the leader
assigned no time.
-/

open ControlPlane

namespace RaftNode

/-- The addresses of a member of the cluster. -/
structure NodeInfo where
  id : String
  raftAddr : String
  grpcAddr : String
deriving DecidableEq

/-- The kinds of commands. -/
inductive CommandKind where
  | createTopic
  | registerBroker
  | heartbeat
  | incrementCounter
  | registerNode
  | unknown
deriving DecidableEq

/-- The kind that a string names. -/
def CommandKind.ofString : String → CommandKind
  | "create_topic" => .createTopic
  | "register_broker" => .registerBroker
  | "heartbeat" => .heartbeat
  | "increment_counter" => .incrementCounter
  | "register_node" => .registerNode
  | _ => .unknown

/-- A command of the log. -/
structure Command where
  kind : String
  topicName : String := ""
  numPartitions : Int32 := 0
  brokerId : String := ""
  address : String := ""
  nodeId : String := ""
  raftAddr : String := ""
  grpcAddr : String := ""
  /-- Assigned by the leader; 0 if it is not set. -/
  timestampMs : Int64 := 0
deriving DecidableEq

/-- What applying an entry returns. -/
structure ApplyResult where
  err : Option String := none
  value : Int64 := 0
deriving DecidableEq

/-- The contents of a snapshot. -/
structure FsmSnapshot where
  topics : List Topic
  brokers : List BrokerSnapshotEntry
  counter : Int64
  nodes : List NodeInfo
deriving DecidableEq

/-- What is used of `encoding/json`. -/
structure Json where
  unmarshalCommand : List UInt8 → Except String Command
  marshalSnapshot : FsmSnapshot → Except String (List UInt8)
  decodeSnapshot : List UInt8 → Except String FsmSnapshot

/-- The snapshot is encoded, and decoded as it was. -/
def Json.RoundTrips (json : Json) (snap : FsmSnapshot) : Prop :=
  ∃ data, json.marshalSnapshot snap = .ok data ∧ json.decodeSnapshot data = .ok snap

/-- The replicated state. -/
structure Fsm where
  metadata : MetadataStore
  membership : Membership
  counter : Int64
  nodes : Registry NodeInfo.id
deriving DecidableEq

namespace Fsm

/-- The state of a new node. -/
def new : Fsm := ⟨.new, .new, 0, .empty⟩

/-! ### Applying entries -/

/-- Apply a command, when the node's clock shows `now`. -/
def applyCommand (now : Time) (f : Fsm) (cmd : Command) : Fsm × ApplyResult :=
  match CommandKind.ofString cmd.kind with
  | .createTopic =>
      match f.metadata.createTopic cmd.topicName cmd.numPartitions with
      | .error e => (f, { err := some e })
      | .ok metadata => ({ f with metadata }, {})
  | .registerBroker =>
      if cmd.timestampMs ≠ 0 then
        let time := Time.ofUnixMilli cmd.timestampMs
        ({ f with membership := f.membership.registerAt cmd.brokerId cmd.address time }, {})
      else
        ({ f with membership := f.membership.register cmd.brokerId cmd.address now }, {})
  | .heartbeat =>
      let noted :=
        if cmd.timestampMs ≠ 0 then
          f.membership.heartbeatAt cmd.brokerId (Time.ofUnixMilli cmd.timestampMs)
        else f.membership.heartbeat cmd.brokerId now
      match noted with
      | none => (f, { err := some ("heartbeat on unregistered broker: " ++ cmd.brokerId) })
      | some membership => ({ f with membership }, {})
  | .incrementCounter => ({ f with counter := f.counter + 1 }, { value := f.counter + 1 })
  | .registerNode =>
      ({ f with nodes := f.nodes.put ⟨cmd.nodeId, cmd.raftAddr, cmd.grpcAddr⟩ }, {})
  | .unknown => (f, { err := some ("unknown command kind: " ++ cmd.kind) })

theorem applyCommand_createTopic (now : Time) (f : Fsm) (topicName : String) (numPartitions : Int32)
    (timestampMs : Int64) :
  f.applyCommand now { kind := "create_topic", topicName, numPartitions, timestampMs }
    = match f.metadata.createTopic topicName numPartitions with
      | .error e => (f, { err := some e })
      | .ok metadata => ({ f with metadata }, {})
  := rfl

theorem applyCommand_registerBroker (now : Time) (f : Fsm) (brokerId address : String)
    {timestampMs : Int64} (hstamp : timestampMs ≠ 0) :
  f.applyCommand now { kind := "register_broker", brokerId, address, timestampMs }
    = ({ f with membership := f.membership.registerAt brokerId address (.ofUnixMilli timestampMs) },
      {})
  := by
  exact if_pos hstamp

theorem applyCommand_heartbeat (now : Time) (f : Fsm) (brokerId : String) {timestampMs : Int64}
    (hstamp : timestampMs ≠ 0) :
  f.applyCommand now { kind := "heartbeat", brokerId, timestampMs }
    = match f.membership.heartbeatAt brokerId (.ofUnixMilli timestampMs) with
      | none => (f, { err := some ("heartbeat on unregistered broker: " ++ brokerId) })
      | some membership => ({ f with membership }, {})
  := by
  have hif : (if timestampMs ≠ 0 then
      f.membership.heartbeatAt brokerId (.ofUnixMilli timestampMs)
    else f.membership.heartbeat brokerId now) = _ := if_pos hstamp
  rw [← hif]
  rfl

/-- Apply an entry of the log, when the node's clock shows `now`. -/
def apply (json : Json) (now : Time) (f : Fsm) (data : List UInt8) : Fsm × ApplyResult :=
  match json.unmarshalCommand data with
  | .error e => (f, { err := some ("malformed command: " ++ e) })
  | .ok cmd => f.applyCommand now cmd

/-- Apply the entries of a list in order. The clock shows `clock i` at the entry number `i`. -/
def applyAll (json : Json) (clock : ℕ → Time) (f : Fsm) :
    List (List UInt8) → Fsm × List ApplyResult
  | [] => (f, [])
  | data :: entries =>
      let r := f.apply json (clock 0) data
      let rs := applyAll json (fun i => clock (i + 1)) r.1 entries
      (rs.1, r.2 :: rs.2)

/-! ### Snapshots -/

/-- The orders in which the maps are visited when a snapshot is taken. -/
structure Orders (f : Fsm) where
  topics : f.metadata.topics.Order
  brokers : f.membership.brokers.Order
  nodes : f.nodes.Order

/-- Take a snapshot. -/
def snapshot (f : Fsm) (orders : f.Orders) : FsmSnapshot where
  topics := f.metadata.snapshotTopics orders.topics
  brokers := f.membership.snapshotBrokers orders.brokers
  counter := f.counter
  nodes := orders.nodes.list

/-- Write a snapshot. -/
def persist (json : Json) (snap : FsmSnapshot) : Except String (List UInt8) :=
  json.marshalSnapshot snap

/-- Replace the state by that of a snapshot. -/
def restore (json : Json) (f : Fsm) (data : List UInt8) : Except String Fsm := do
  let snap ← json.decodeSnapshot data
  return {
    metadata := f.metadata.restoreTopics snap.topics
    membership := f.membership.restoreBrokers snap.brokers
    counter := snap.counter
    nodes := .ofList snap.nodes }

end Fsm

end RaftNode
