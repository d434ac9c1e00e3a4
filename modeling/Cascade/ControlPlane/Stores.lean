import Cascade.Library.Registry

/-!
# The stores of the control plane

The model of `controlplane/metadata_store.go`, `membership.go`, `membership_at.go` and
`snapshot_support.go`: the topics and the brokers that the control plane knows of, and the lists
in which they are put into a snapshot and taken out of it again. A range over a map visits its
entries in an arbitrary order, which is an argument here.

Strings are those that come out of the JSON decoder, and so valid UTF-8.
-/

namespace ControlPlane

/-! ### Time -/

/-- A `time.Time`: an instant, in nanoseconds since the Unix epoch. -/
structure Time where
  nanoseconds : ℤ
deriving DecidableEq

/-- `time.UnixMilli`. -/
def Time.ofUnixMilli (msec : Int64) : Time := ⟨msec.toInt * 1000000⟩

/-- The method `UnixMilli`, which rounds down. -/
def Time.unixMilli (t : Time) : Int64 := Int64.ofInt (t.nanoseconds / 1000000)

/-- The method `After`. -/
def Time.After (t u : Time) : Prop := u.nanoseconds < t.nanoseconds

instance (t u : Time) : Decidable (t.After u) := inferInstanceAs (Decidable (_ < _))

/-- Milliseconds are not lost. -/
@[simp]
theorem Time.unixMilli_ofUnixMilli (msec : Int64) :
  (Time.ofUnixMilli msec).unixMilli = msec
  := by
  rw [Time.unixMilli, Time.ofUnixMilli, Int.mul_ediv_cancel _ (by decide), Int64.ofInt_toInt]

/-! ### Topics -/

/-- A topic. -/
structure Topic where
  name : String
  numPartitions : Int32
deriving DecidableEq

/-- The topics by their names. -/
structure MetadataStore where
  topics : Registry Topic.name
deriving DecidableEq

namespace MetadataStore

/-- `NewMetadataStore`. -/
def new : MetadataStore := ⟨.empty⟩

/-- Create a topic, unless there is one of that name or the number of partitions is not
positive. -/
def createTopic (s : MetadataStore) (name : String) (numPartitions : Int32) :
    Except String MetadataStore :=
  match s.topics.find? name with
  | some _ => .error ("topic already exists: " ++ name)
  | none =>
      if numPartitions ≤ 0 then
        .error ("num_partitions must be positive, got " ++ toString numPartitions.toInt)
      else .ok ⟨s.topics.put ⟨name, numPartitions⟩⟩

/-- A topic that is created is new. -/
theorem createTopic_eq_ok {s s' : MetadataStore} {name : String} {numPartitions : Int32}
    (h : s.createTopic name numPartitions = .ok s') :
  s.topics.find? name = none ∧ ¬ numPartitions ≤ 0 ∧ s' = ⟨s.topics.put ⟨name, numPartitions⟩⟩
  := by
  rw [createTopic] at h
  split at h
  · cases h
  · rename_i hnone
    split at h
    · cases h
    · rename_i hpos
      exact ⟨hnone, hpos, (Except.ok.inj h).symm⟩

/-- The topics that are there stay. -/
theorem find?_of_createTopic {s s' : MetadataStore} {name name' : String} {numPartitions : Int32}
    {topic : Topic} (h : s.createTopic name numPartitions = .ok s')
    (hfind : s.topics.find? name' = some topic) :
  s'.topics.find? name' = some topic
  := by
  obtain ⟨hnone, -, rfl⟩ := createTopic_eq_ok h
  have hne : name' ≠ name := by
    rintro rfl
    rw [hnone] at hfind
    cases hfind
  rw [← hfind]
  apply s.topics.find?_put_of_ne hne

/-- The topics, in the order of a range over the map. -/
def listTopics (s : MetadataStore) (order : s.topics.Order) : List Topic := order.list

/-- The topics, for a snapshot. -/
def snapshotTopics (s : MetadataStore) (order : s.topics.Order) : List Topic :=
  s.listTopics order

/-- Replace the topics by those of a list. -/
def restoreTopics (s : MetadataStore) (topics : List Topic) : MetadataStore :=
  { s with topics := .ofList topics }

end MetadataStore

/-! ### Brokers -/

/-- A broker that is registered. -/
structure BrokerRecord where
  brokerId : String
  address : String
  lastHeartbeat : Time
deriving DecidableEq

/-- A broker in a snapshot, with its last heartbeat in milliseconds. -/
structure BrokerSnapshotEntry where
  brokerId : String
  address : String
  lastHeartbeatUnix : Int64
deriving DecidableEq

/-- The brokers by their ids. -/
structure Membership where
  brokers : Registry BrokerRecord.brokerId
deriving DecidableEq

namespace Membership

/-- `NewMembership`. -/
def new : Membership := ⟨.empty⟩

/-- Register a broker, or overwrite it. -/
def registerAt (m : Membership) (brokerId address : String) (time : Time) : Membership :=
  ⟨m.brokers.put ⟨brokerId, address, time⟩⟩

/-- Register a broker at the time that the clock shows. -/
def register (m : Membership) (brokerId address : String) (now : Time) : Membership :=
  m.registerAt brokerId address now

/-- Note a heartbeat. A time before the last heartbeat is not noted. The result is `none` for a
broker that is not registered. -/
def heartbeatAt (m : Membership) (brokerId : String) (time : Time) : Option Membership :=
  match m.brokers.find? brokerId with
  | none => none
  | some rec =>
      if time.After rec.lastHeartbeat then
        some ⟨m.brokers.put { rec with lastHeartbeat := time }⟩
      else some m

/-- Note a heartbeat at the time that the clock shows, whether it is after the last one or not. -/
def heartbeat (m : Membership) (brokerId : String) (now : Time) : Option Membership :=
  match m.brokers.find? brokerId with
  | none => none
  | some rec => some ⟨m.brokers.put { rec with lastHeartbeat := now }⟩

/-- The brokers, in the order of a range over the map. -/
def snapshotBrokers (m : Membership) (order : m.brokers.Order) : List BrokerSnapshotEntry :=
  order.list.map (fun rec => ⟨rec.brokerId, rec.address, rec.lastHeartbeat.unixMilli⟩)

/-- Replace the brokers by those of a list. -/
def restoreBrokers (m : Membership) (entries : List BrokerSnapshotEntry) : Membership :=
  { m with
    brokers := .ofList (entries.map
      (fun e => ⟨e.brokerId, e.address, Time.ofUnixMilli e.lastHeartbeatUnix⟩)) }

end Membership

end ControlPlane
