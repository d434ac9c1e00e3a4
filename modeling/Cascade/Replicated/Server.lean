import Mathlib.Data.Countable.Basic
import Mathlib.Logic.Equiv.Basic
import Mathlib.Logic.Equiv.List
import Cascade.ControlPlane.Server
import Cascade.RaftNode.Fsm

/-!
# The replicated server

The model of `replicated/server.go`, and of `Node.Propose` in `raftnode/cluster.go`: the service of
the control plane, whose writes are commands that are committed to the log of a cluster. What
consensus does with a proposal is an argument (`Consensus`). A command may be committed although the
server has to answer that it does not know; the state is the one after the commands that were
committed.
-/

open ControlPlane RaftNode

namespace Replicated

/-- What is used of `encoding/json`: a command, which holds strings and numbers, is encoded, and
decoded as it was. -/
structure Json extends RaftNode.Json where
  encodeCommand : Command → List UInt8
  roundTrips : ∀ cmd, unmarshalCommand (encodeCommand cmd) = .ok cmd

/-- A command that is encoded is applied as it is. -/
theorem Json.apply_encodeCommand (json : Json) (now : Time) (f : Fsm) (cmd : Command) :
  f.apply json.toJson now (json.encodeCommand cmd) = f.applyCommand now cmd
  := by
  rw [Fsm.apply, json.roundTrips]

theorem countable_string :
  Countable String
  := by
  have hinjective : Function.Injective fun s : String => s.toList.map Char.toNat := by
    intro s t h
    apply String.toList_inj.mp
    exact List.map_injective_iff.mpr (fun _ _ => Char.toNat_inj.mp) h
  exact hinjective.countable

/-- There is such an encoding, as there are no more commands than lists of bytes. -/
instance : Nonempty Json := by
  have hstring := countable_string
  have hfields : Function.Injective fun cmd : Command => (cmd.kind, cmd.topicName,
      cmd.numPartitions.toInt, cmd.brokerId, cmd.address, cmd.nodeId, cmd.raftAddr, cmd.grpcAddr,
      cmd.timestampMs.toInt) := by
    rintro ⟨⟩ ⟨⟩ h
    simpa [Int32.toInt_inj, Int64.toInt_inj] using h
  have hcountable : Countable Command := hfields.countable
  have hinhabited : Nonempty Command := ⟨{ kind := "" }⟩
  obtain ⟨number, hnumber⟩ := exists_injective_nat Command
  have hencode : Function.Injective fun cmd => List.replicate (number cmd) (0 : UInt8) := by
    intro cmd cmd' h
    apply hnumber
    simpa using congrArg List.length h
  exact ⟨⟨fun data => .ok (Function.invFun _ data), fun _ => .error "json: unsupported value",
    fun _ => .error "unexpected end of JSON input"⟩, _,
    fun cmd => congrArg Except.ok (Function.leftInverse_invFun hencode cmd)⟩

/-- The encoding that spells a command as given; the two texts have changed places. -/
def Json.spell (json : Json) (cmd : Command) (data : List UInt8) : Json where
  toJson :=
    { json.toJson with
      unmarshalCommand := fun data' =>
        json.unmarshalCommand (Equiv.swap (json.encodeCommand cmd) data data') }
  encodeCommand cmd' := Equiv.swap (json.encodeCommand cmd) data (json.encodeCommand cmd')
  roundTrips cmd' := by
    dsimp only
    rw [Equiv.swap_apply_self, json.roundTrips]

/-- There is an encoding that spells some commands as given. -/
theorem Json.exists_spells (entries : List (Command × List UInt8))
    (hcmds : (entries.map Prod.fst).Nodup) (hdata : (entries.map Prod.snd).Nodup) :
  ∃ json : Json, ∀ x ∈ entries, json.encodeCommand x.1 = x.2
  := by
  induction entries with
  | nil =>
      obtain ⟨json⟩ : Nonempty Json := inferInstance
      exact ⟨json, by simp⟩
  | cons entry entries ih =>
      rw [List.map_cons, List.nodup_cons] at hcmds hdata
      obtain ⟨json, hjson⟩ := ih hcmds.2 hdata.2
      refine ⟨json.spell entry.1 entry.2, List.forall_mem_cons.mpr ⟨?_, ?_⟩⟩
      · apply Equiv.swap_apply_left
      · intro x hx
        rw [← hjson x hx]
        apply Equiv.swap_apply_of_ne_of_ne
        · intro heq
          have hcmd := (json.roundTrips x.1).symm.trans (heq ▸ json.roundTrips entry.1)
          exact hcmds.1 (Except.ok.inj hcmd ▸ List.mem_map_of_mem hx)
        · rw [hjson x hx]
          intro heq
          exact hdata.1 (heq ▸ List.mem_map_of_mem hx)

/-! ### Statuses -/

/-- The codes that are told apart. -/
inductive Code where
  | failedPrecondition
  | unavailable
  | deadlineExceeded
  | other
deriving DecidableEq

/-- The status of a call that failed, with what is in the trailer under `LeaderTrailerKey`. -/
structure Status where
  code : Code
  message : String
  leader : Option String := none
deriving DecidableEq

/-! ### Proposals -/

/-- What comes of a proposal. When the leadership is lost, or the proposal fails otherwise, the
command may be committed or not. -/
inductive Outcome where
  | applied
  | notLeader
  | leadershipLost (committed : Bool)
  | failed (message : String) (committed : Bool)

/-- What consensus does with a request: whether the node takes itself for the leader, what
`leaderGRPCAddr` finds, and what comes of the proposal. -/
structure Consensus where
  isLeader : Bool
  leaderGrpcAddr : Option String
  outcome : Outcome

/-- The status of a request to a node that is not the leader. -/
def notLeader (leaderGrpcAddr : Option String) : Status :=
  match leaderGrpcAddr with
  | some addr => ⟨.failedPrecondition, "not leader; leader is at " ++ addr, some addr⟩
  | none => ⟨.unavailable, "no leader currently known (election in progress?)", none⟩

/-- Propose a command, which gets the time from the leader. -/
def propose (json : Json) (consensus : Consensus) (now : Time) (f : Fsm) (cmd : Command) :
    Fsm × Except Status ApplyResult :=
  if consensus.isLeader then
    let data := json.encodeCommand { cmd with timestampMs := now.unixMilli }
    let r := f.apply json.toJson now data
    match consensus.outcome with
    | .applied => (r.1, .ok r.2)
    | .notLeader => (f, .error (notLeader consensus.leaderGrpcAddr))
    | .leadershipLost committed =>
        (if committed then r.1 else f, .error (notLeader consensus.leaderGrpcAddr))
    | .failed message committed =>
        (if committed then r.1 else f,
          .error ⟨.unavailable, "raft apply failed: " ++ message, none⟩)
  else (f, .error (notLeader consensus.leaderGrpcAddr))

/-- The node is the leader, and the proposal is applied. -/
def Consensus.Leads (consensus : Consensus) : Prop :=
  consensus.isLeader = true ∧ consensus.outcome = .applied

/-- What a proposal to the leader does. -/
theorem propose_leads {json : Json} {consensus : Consensus} (hleads : consensus.Leads) (now : Time)
    (f : Fsm) (cmd : Command) :
  propose json consensus now f cmd
    = ((f.applyCommand now { cmd with timestampMs := now.unixMilli }).1,
      .ok (f.applyCommand now { cmd with timestampMs := now.unixMilli }).2)
  := by
  rw [propose, if_pos hleads.1, hleads.2]
  dsimp only
  rw [json.apply_encodeCommand]

/-- A proposal changes the state as its command does, or not at all. -/
theorem propose_fst (json : Json) (consensus : Consensus) (now : Time) (f : Fsm) (cmd : Command) :
  (propose json consensus now f cmd).1 = f
    ∨ (propose json consensus now f cmd).1 = (f.apply json.toJson now
      (json.encodeCommand { cmd with timestampMs := now.unixMilli })).1
  := by
  rw [propose]
  dsimp only
  split
  · split
    · exact .inr rfl
    · exact .inl rfl
    · split
      · exact .inr rfl
      · exact .inl rfl
    · split
      · exact .inr rfl
      · exact .inl rfl
  · exact .inl rfl

/-- Only what is applied by the leader has a result. -/
theorem leads_of_propose {json : Json} {consensus : Consensus} {now : Time} {f : Fsm}
    {cmd : Command}
    {res : ApplyResult} (h : (propose json consensus now f cmd).2 = .ok res) :
  consensus.Leads
  := by
  rw [propose] at h
  split at h
  · rename_i hleader
    dsimp only at h
    split at h
    · rename_i happlied
      exact ⟨hleader, happlied⟩
    · cases h
    · cases h
    · cases h
  · cases h

/-! ### Requests -/

def createTopic (json : Json) (consensus : Consensus) (now : Time) (f : Fsm) (name : String)
    (numPartitions : Int32) : Fsm × Except Status Response :=
  let r := propose json consensus now f
    { kind := "create_topic", topicName := name, numPartitions }
  (r.1, r.2.map fun res =>
    match res.err with
    | some e => .createTopic false e
    | none => .createTopic true "")

def listTopics (visits : Visits) (f : Fsm) : Response :=
  .listTopics (f.metadata.listTopics (visits.topics f.metadata))

def registerBroker (json : Json) (consensus : Consensus) (now : Time) (f : Fsm)
    (brokerId address : String) : Fsm × Except Status Response :=
  let r := propose json consensus now f { kind := "register_broker", brokerId, address }
  (r.1, r.2.map fun res => .registerBroker res.err.isNone)

def heartbeat (json : Json) (consensus : Consensus) (now : Time) (f : Fsm) (brokerId : String) :
    Fsm × Except Status Response :=
  let r := propose json consensus now f { kind := "heartbeat", brokerId }
  (r.1, r.2.map fun res => .heartbeat res.err.isNone)

def listBrokers (visits : Visits) (timeout : Duration) (now : Time) (f : Fsm) : Response :=
  let statuses := f.membership.list timeout now (visits.brokers f.membership)
  .listBrokers (statuses.map .ofStatus)

/-- A request to a node whose `Membership` has the given timeout. -/
def handle (json : Json) (timeout : Duration) (consensus : Consensus) (visits : Visits) (now : Time)
    (f : Fsm) : Request → Fsm × Except Status Response
  | .createTopic name numPartitions => createTopic json consensus now f name numPartitions
  | .listTopics => (f, .ok (listTopics visits f))
  | .registerBroker brokerId address => registerBroker json consensus now f brokerId address
  | .heartbeat brokerId => heartbeat json consensus now f brokerId
  | .listBrokers => (f, .ok (listBrokers visits timeout now f))

/-- The responses to requests, each with the time in milliseconds at which it is handled. For the
request number `i`, consensus is as in `consensus i`, and the maps are visited as in `visits i`. -/
def handleAll (json : Json) (timeout : Duration) (consensus : ℕ → Consensus) (visits : ℕ → Visits)
    (f : Fsm) : List (Int64 × Request) → List (Except Status Response)
  | [] => []
  | (now, request) :: requests =>
      let r := handle json timeout (consensus 0) (visits 0) (.ofUnixMilli now) f request
      r.2 :: handleAll json timeout (fun i => consensus (i + 1)) (fun i => visits (i + 1)) r.1
        requests

end Replicated
