import Cascade.ControlPlane.Stores

/-!
# The service of the control plane

The requests and responses of the service, and the model of `controlplane/server.go`, which answers
them from the stores of one process. A request is handled at one instant, which is an argument, as
is the order in which the maps are visited.
-/

namespace ControlPlane

/-- A `time.Duration`, in nanoseconds. -/
abbrev Duration : Type := Int64

/-- The method `Sub`. A difference that is no `Duration` becomes the least or the greatest one. -/
def Time.sub (t u : Time) : Duration := Int64.ofIntClamp (t.nanoseconds - u.nanoseconds)

/-! ### The brokers that are alive -/

/-- A broker, as it is seen at a time. -/
structure BrokerStatus where
  brokerId : String
  address : String
  alive : Bool
  lastHeartbeatUnix : Int64
deriving DecidableEq

/-- A broker is alive if its last heartbeat is less than the timeout ago. -/
def BrokerRecord.status (timeout : Duration) (now : Time) (rec : BrokerRecord) : BrokerStatus where
  brokerId := rec.brokerId
  address := rec.address
  alive := now.sub rec.lastHeartbeat < timeout
  lastHeartbeatUnix := rec.lastHeartbeat.unixMilli

/-- The brokers, in the order of a range over the map. -/
def Membership.list (m : Membership) (timeout : Duration) (now : Time) (order : m.brokers.Order) :
    List BrokerStatus :=
  order.list.map (BrokerRecord.status timeout now)

/-! ### Requests and responses -/

/-- The methods of the service. -/
inductive Request where
  | createTopic (name : String) (numPartitions : Int32)
  | listTopics
  | registerBroker (brokerId address : String)
  | heartbeat (brokerId : String)
  | listBrokers

/-- A broker in a response. -/
structure BrokerInfo where
  brokerId : String
  address : String
  alive : Bool
  lastHeartbeatUnixMs : Int64
deriving DecidableEq

/-- The fields are copied. -/
def BrokerInfo.ofStatus (st : BrokerStatus) : BrokerInfo :=
  ⟨st.brokerId, st.address, st.alive, st.lastHeartbeatUnix⟩

/-- The error of a topic that was created is empty. -/
inductive Response where
  | createTopic (created : Bool) (error : String)
  | listTopics (topics : List Topic)
  | registerBroker (registered : Bool)
  | heartbeat (acknowledged : Bool)
  | listBrokers (brokers : List BrokerInfo)

/-- Two responses are the same, but for the order of lists. -/
inductive Response.Same : Response → Response → Prop where
  | createTopic (created : Bool) (error : String) :
      Same (.createTopic created error) (.createTopic created error)
  | listTopics {topics topics' : List Topic} (h : topics.Perm topics') :
      Same (.listTopics topics) (.listTopics topics')
  | registerBroker (registered : Bool) :
      Same (.registerBroker registered) (.registerBroker registered)
  | heartbeat (acknowledged : Bool) :
      Same (.heartbeat acknowledged) (.heartbeat acknowledged)
  | listBrokers {brokers brokers' : List BrokerInfo} (h : brokers.Perm brokers') :
      Same (.listBrokers brokers) (.listBrokers brokers')

theorem Response.Same.refl (response : Response) :
  response.Same response
  := by
  cases response with
  | createTopic created error => exact .createTopic created error
  | listTopics topics => exact .listTopics (.refl topics)
  | registerBroker registered => exact .registerBroker registered
  | heartbeat acknowledged => exact .heartbeat acknowledged
  | listBrokers brokers => exact .listBrokers (.refl brokers)

/-- The orders in which the maps are visited. -/
structure Visits where
  topics : (s : MetadataStore) → s.topics.Order
  brokers : (m : Membership) → m.brokers.Order

instance : Nonempty Visits :=
  ⟨⟨fun s => s.topics.nonempty_order.some, fun m => m.brokers.nonempty_order.some⟩⟩

/-! ### The server -/

/-- The stores of a process, which are lost with it. -/
structure Server where
  metadata : MetadataStore
  membership : Membership
  heartbeatTimeout : Duration

namespace Server

/-- `NewServer`. -/
def new (heartbeatTimeout : Duration) : Server := ⟨.new, .new, heartbeatTimeout⟩

/-- An error of the store is a field of the response. -/
def createTopic (s : Server) (name : String) (numPartitions : Int32) : Server × Response :=
  match s.metadata.createTopic name numPartitions with
  | .error e => (s, .createTopic false e)
  | .ok metadata => ({ s with metadata }, .createTopic true "")

/-- All topics. -/
def listTopics (s : Server) (visits : Visits) : Response :=
  .listTopics (s.metadata.listTopics (visits.topics s.metadata))

/-- A broker can always be registered, also again. -/
def registerBroker (s : Server) (now : Time) (brokerId address : String) : Server × Response :=
  ({ s with membership := s.membership.register brokerId address now }, .registerBroker true)

/-- A heartbeat of an unknown broker is not acknowledged. -/
def heartbeat (s : Server) (now : Time) (brokerId : String) : Server × Response :=
  match s.membership.heartbeat brokerId now with
  | none => (s, .heartbeat false)
  | some membership => ({ s with membership }, .heartbeat true)

/-- All brokers, alive or not. -/
def listBrokers (s : Server) (visits : Visits) (now : Time) : Response :=
  let statuses := s.membership.list s.heartbeatTimeout now (visits.brokers s.membership)
  .listBrokers (statuses.map .ofStatus)

/-- The server after a request, and the response. -/
def handle (visits : Visits) (now : Time) (s : Server) : Request → Server × Response
  | .createTopic name numPartitions => s.createTopic name numPartitions
  | .listTopics => (s, s.listTopics visits)
  | .registerBroker brokerId address => s.registerBroker now brokerId address
  | .heartbeat brokerId => s.heartbeat now brokerId
  | .listBrokers => (s, s.listBrokers visits now)

/-- The responses to requests, each with the time in milliseconds at which it is handled. The maps
are visited as in `visits i` for the request number `i`. -/
def handleAll (visits : ℕ → Visits) (s : Server) : List (Int64 × Request) → List Response
  | [] => []
  | (now, request) :: requests =>
      let r := s.handle (visits 0) (.ofUnixMilli now) request
      r.2 :: handleAll (fun i => visits (i + 1)) r.1 requests

end Server

end ControlPlane
