import Cascade.Library.Concurrent
import Cascade.Library.ReplicatedLog
import Cascade.RaftNode.Convergence
import Cascade.Replicated.Server

/-!
# A cluster that serves requests

The nodes of a cluster with the requests that they handle, in any interleaving: the writes of
`replicated/server.go` with `JoinCluster` and `EnsureSelfRegistered`, `Node.Propose` of
`raftnode/cluster.go`, and the goroutine of each node that applies entries, takes snapshots and
restores them. Nodes may restart at any time.

What raft does is not in the repository. It is taken to keep one log of committed entries that is
only appended to, of which every node applies the entries in order. Which node takes itself for the
leader, whom a node takes for the leader, and how a future ends is chosen freely at each step; a
command may be committed although its proposer is told that the leadership was lost.
-/

open ControlPlane RaftNode Concurrent ReplicatedLog

namespace Replicated.Serving

/-! ### Nodes -/

/-- What the nodes share, and what each of them has. A snapshot is kept with the number of entries
in it. -/
structure Memory where
  log : List (List UInt8)
  nodes : String → Replica Fsm ApplyResult
  snapshots : List (ℕ × List UInt8)

/-- What the goroutine of a node does. The maps are visited in the given orders. -/
inductive Event where
  | apply
  | snapshot (orders : (f : Fsm) → f.Orders)
  | restore (k : ℕ)
  | restart

def Memory.setNode (m : Memory) (node : String) (r : Replica Fsm ApplyResult) : Memory :=
  { m with nodes := Function.update m.nodes node r }

/-- The next entry is applied, if it is there. -/
def Memory.applyNext (json : Json) (now : Time) (m : Memory) (node : String) : Memory :=
  let r := m.nodes node
  match m.log[r.applied]? with
  | none => m
  | some data =>
      let res := r.state.apply json.toJson now data
      m.setNode node ⟨res.1, r.applied + 1, r.results ++ [(r.applied, res.2)]⟩

/-- A snapshot of the state is taken and written. -/
def Memory.persist (json : Json) (orders : (f : Fsm) → f.Orders) (m : Memory) (node : String) :
    Memory :=
  let r := m.nodes node
  match Fsm.persist json.toJson (r.state.snapshot (orders r.state)) with
  | .error _ => m
  | .ok data => { m with snapshots := m.snapshots ++ [(r.applied, data)] }

/-- A snapshot is restored, one of this node or of another. -/
def Memory.restore (json : Json) (k : ℕ) (m : Memory) (node : String) : Memory :=
  match m.snapshots[k]? with
  | none => m
  | some (i, data) =>
      match (m.nodes node).state.restore json.toJson data with
      | .error _ => m
      | .ok f => m.setNode node ⟨f, i, (m.nodes node).results⟩

def Memory.handle (json : Json) (now : Time) (m : Memory) (node : String) : Event → Memory
  | .apply => m.applyNext json now node
  | .snapshot orders => m.persist json orders node
  | .restore k => m.restore json k node
  | .restart => m.setNode node ⟨.new, 0, []⟩

/-! ### Requests -/

/-- How a future of raft ends. -/
inductive Future where
  | done
  | notLeader
  | leadershipLost
  | failed (message : String)

/-- What a step finds: what the clock shows, whether the node takes itself for the leader, whom it
takes for the leader, how the future ends it waits for, whether the context is done, and what the
goroutine of the node does. -/
structure Choice where
  now : Time
  isLeader : Bool
  leaderId : String
  future : Future
  cancelled : Bool
  event : Event

/-- The requests that are committed to the log. -/
inductive Write where
  | createTopic (name : String) (numPartitions : Int32)
  | registerBroker (brokerId address : String)
  | heartbeat (brokerId : String)
  | joinCluster (nodeId raftAddress grpcAddress : String)

/-- The command of a request. It gets its time later. -/
def Write.command : Write → Command
  | .createTopic name numPartitions => { kind := "create_topic", topicName := name, numPartitions }
  | .registerBroker brokerId address => { kind := "register_broker", brokerId, address }
  | .heartbeat brokerId => { kind := "heartbeat", brokerId }
  | .joinCluster nodeId raftAddress grpcAddress =>
      { kind := "register_node", nodeId, raftAddr := raftAddress, grpcAddr := grpcAddress }

/-- The command with which a node registers itself. -/
def selfCommand (self : NodeInfo) : Command :=
  { kind := "register_node", nodeId := self.id, raftAddr := self.raftAddr,
    grpcAddr := self.grpcAddr }

def lookupNode (f : Fsm) (id : String) : Option NodeInfo := f.nodes.find? id

/-- The address under which the node that raft takes for the leader serves clients. -/
def leaderGrpcAddr (f : Fsm) (leaderId : String) : Option String :=
  if leaderId = "" then none
  else
    match lookupNode f leaderId with
    | none => none
    | some info => if info.grpcAddr = "" then none else some info.grpcAddr

/-- What a node is about to do in a request, and how the request ended. -/
inductive Op where
  | entering (node : String) (write : Write)
  | adding (node : String) (cmd : Command)
  -- `propose`: the command gets its time, the node has to be the leader, the command is handed to
  -- raft, and is then at a position of the log until it is applied
  | stamping (node : String) (cmd : Command)
  | checking (node : String) (cmd : Command)
  | applying (node : String) (cmd : Command)
  | waiting (node : String) (cmd : Command) (position : ℕ)
  | redirecting (node : String)
  | answered (cmd : Command) (position : ℕ) (res : ApplyResult)
  | redirected (leaderId : String) (status : Status)
  | failed (status : Status)
  | refused (error : String)
  -- `EnsureSelfRegistered`
  | ensuring (node : String) (self : NodeInfo)
  | electing (node : String) (self : NodeInfo)
  | registering (node : String) (self : NodeInfo)
  | sleeping (node : String) (self : NodeInfo)
  | ensured (node : String) (self : NodeInfo)
  | abandoned
  -- the goroutine of a node
  | running (node : String)

inductive Call where
  | write (node : String) (write : Write)
  | ensureSelfRegistered (node : String) (self : NodeInfo)
  | run (node : String)

/-- What follows a future of raft that a handler waited for. -/
def Future.next (node what : String) (next : Op) : Future → Op
  | .done => next
  | .notLeader | .leadershipLost => .redirecting node
  | .failed message => .failed ⟨.unavailable, what ++ " failed: " ++ message, none⟩

/-- The command is committed. -/
def Memory.commit (json : Json) (m : Memory) (cmd : Command) : Memory :=
  { m with log := m.log ++ [json.encodeCommand cmd] }

/-- A step of a request. A proposal that is handed to raft may fail before it is committed, and
while it is waited for. -/
def Op.advance (json : Json) (c : Choice) (m : Memory) : Op → Memory × Op
  | .entering node (.joinCluster nodeId raftAddress grpcAddress) =>
      if nodeId = "" ∨ raftAddress = "" ∨ grpcAddress = "" then
        (m, .refused "node_id, raft_address and grpc_address are required")
      else if c.isLeader then
        (m, .adding node (Write.joinCluster nodeId raftAddress grpcAddress).command)
      else (m, .redirecting node)
  | .entering node write => (m, .stamping node write.command)
  | .adding node cmd => (m, c.future.next node "AddVoter" (.stamping node cmd))
  | .stamping node cmd => (m, .checking node { cmd with timestampMs := c.now.unixMilli })
  | .checking node cmd => (m, if c.isLeader then .applying node cmd else .redirecting node)
  | .applying node cmd =>
      match c.future with
      | .done => (m.commit json cmd, .waiting node cmd m.log.length)
      | future => (m, future.next node "raft apply" (.applying node cmd))
  | .waiting node cmd position =>
      match (m.nodes node).results.lookup position with
      | some res => (m, c.future.next node "raft apply" (.answered cmd position res))
      | none => (m, c.future.next node "raft apply" (.waiting node cmd position))
  | .redirecting node =>
      (m, .redirected c.leaderId (notLeader (leaderGrpcAddr (m.nodes node).state c.leaderId)))
  | .ensuring node self =>
      (m, if lookupNode (m.nodes node).state self.id = some self then .ensured node self
        else .electing node self)
  | .electing node self => (m, if c.isLeader then .registering node self else .sleeping node self)
  | .registering node self =>
      match c.future with
      | .done => (m.commit json (selfCommand self), .sleeping node self)
      | _ => (m, .sleeping node self)
  | .sleeping node self => (m, if c.cancelled then .abandoned else .ensuring node self)
  | .running node => (m.handle json c.now node c.event, .running node)
  | op => (m, op)

def serving (json : Json) : Protocol Memory Call Choice Op where
  start
    | .write node write => .entering node write
    | .ensureSelfRegistered node self => .ensuring node self
    | .run node => .running node
  advance := Op.advance json

/-- A cluster of which no node has applied anything. -/
def initial : Concurrent Memory Op := ⟨⟨[], fun _ => ⟨.new, 0, []⟩, []⟩, []⟩

/-! ### Steps -/

/-- What a step can do. -/
inductive Moves (json : Json) (c : Choice) (m : Memory) : Op → Memory → Op → Prop where
  | stay (op : Op) : Moves json c m op m op
  | refuse (op : Op) (error : String) : Moves json c m op m (.refused error)
  | redirect (op : Op) (node : String) : Moves json c m op m (.redirecting node)
  | fail (op : Op) (status : Status) : Moves json c m op m (.failed status)
  | join (node : String) (write : Write) :
      Moves json c m (.entering node write) m (.adding node write.command)
  | enter (node : String) (write : Write) :
      Moves json c m (.entering node write) m (.stamping node write.command)
  | added (node : String) (cmd : Command) :
      Moves json c m (.adding node cmd) m (.stamping node cmd)
  | stamp (node : String) (cmd : Command) :
      Moves json c m (.stamping node cmd) m
        (.checking node { cmd with timestampMs := c.now.unixMilli })
  | check (node : String) (cmd : Command) :
      Moves json c m (.checking node cmd) m (.applying node cmd)
  | commit (node : String) (cmd : Command) :
      Moves json c m (.applying node cmd) (m.commit json cmd) (.waiting node cmd m.log.length)
  | answer (node : String) (cmd : Command) (position : ℕ) (res : ApplyResult)
      (hres : (position, res) ∈ (m.nodes node).results) :
      Moves json c m (.waiting node cmd position) m (.answered cmd position res)
  | point (node : String) :
      Moves json c m (.redirecting node) m
        (.redirected c.leaderId (notLeader (leaderGrpcAddr (m.nodes node).state c.leaderId)))
  | ensure (node : String) (self : NodeInfo) :
      Moves json c m (.ensuring node self) m (.ensured node self)
  | elect (node : String) (self : NodeInfo) :
      Moves json c m (.ensuring node self) m (.electing node self)
  | lead (node : String) (self : NodeInfo) :
      Moves json c m (.electing node self) m (.registering node self)
  | yield (node : String) (self : NodeInfo) :
      Moves json c m (.electing node self) m (.sleeping node self)
  | register (node : String) (self : NodeInfo) :
      Moves json c m (.registering node self) (m.commit json (selfCommand self))
        (.sleeping node self)
  | retry (node : String) (self : NodeInfo) :
      Moves json c m (.registering node self) m (.sleeping node self)
  | wake (node : String) (self : NodeInfo) :
      Moves json c m (.sleeping node self) m (.ensuring node self)
  | abandon (op : Op) : Moves json c m op m .abandoned
  | handle (node : String) :
      Moves json c m (.running node) (m.handle json c.now node c.event) (.running node)

theorem Future.moves {json : Json} {c : Choice} {m : Memory} {op next : Op}
    (hnext : Moves json c m op m next) (future : Future) (node what : String) :
  Moves json c m op m (future.next node what next)
  := by
  cases future with
  | done => exact hnext
  | notLeader => apply Moves.redirect
  | leadershipLost => apply Moves.redirect
  | failed message => apply Moves.fail

theorem Op.moves (json : Json) (c : Choice) (m : Memory) (op : Op) :
  Moves json c m op (op.advance json c m).1 (op.advance json c m).2
  := by
  cases op with
  | entering node write =>
      cases write with
      | joinCluster nodeId raftAddress grpcAddress =>
          simp only [Op.advance]
          split_ifs
          · apply Moves.refuse
          · apply Moves.join
          · apply Moves.redirect
      | _ => apply Moves.enter
  | adding node cmd =>
      apply Future.moves
      apply Moves.added
  | stamping node cmd => apply Moves.stamp
  | checking node cmd =>
      simp only [Op.advance]
      split_ifs
      · apply Moves.check
      · apply Moves.redirect
  | applying node cmd =>
      simp only [Op.advance]
      split
      · apply Moves.commit
      · apply Future.moves
        apply Moves.stay
  | waiting node cmd position =>
      simp only [Op.advance]
      split
      · rename_i res hres
        obtain ⟨before, after, heq, -⟩ := List.lookup_eq_some_iff.mp hres
        apply Future.moves
        apply Moves.answer
        rw [heq]
        exact List.mem_append_right before List.mem_cons_self
      · apply Future.moves
        apply Moves.stay
  | redirecting node => apply Moves.point
  | ensuring node self =>
      simp only [Op.advance]
      split_ifs
      · apply Moves.ensure
      · apply Moves.elect
  | electing node self =>
      simp only [Op.advance]
      split_ifs
      · apply Moves.lead
      · apply Moves.yield
  | registering node self =>
      simp only [Op.advance]
      split
      · apply Moves.register
      · apply Moves.retry
  | sleeping node self =>
      simp only [Op.advance]
      split_ifs
      · apply Moves.abandon
      · apply Moves.wake
  | running node => apply Moves.handle
  | _ => apply Moves.stay

/-! ### One state machine -/

/-- A single state machine that applies the entries. Its clock does not matter. -/
def single (json : Json) (f : Fsm) (data : List UInt8) : Fsm × ApplyResult :=
  f.apply json.toJson ⟨0⟩ data

section Single

variable {json : Json} {log : List (List UInt8)}

theorem single_eq {data : List UInt8} (hstamped : json.toJson.Stamped data) (now : Time)
    (f : Fsm) :
  f.apply json.toJson now data = single json f data
  := Fsm.apply_clock hstamped now ⟨0⟩

theorem single_encodeCommand (f : Fsm) (cmd : Command) :
  single json f (json.encodeCommand cmd) = f.applyCommand ⟨0⟩ cmd
  := json.apply_encodeCommand ⟨0⟩ f cmd

theorem stamped_encodeCommand {cmd : Command} (hcmd : cmd.Stamped) :
  json.toJson.Stamped (json.encodeCommand cmd)
  := by
  intro cmd' hcmd'
  obtain rfl := Except.ok.inj ((json.roundTrips cmd).symm.trans hcmd')
  exact hcmd

/-- What a node ends with that applies the log from its beginning. -/
theorem fst_applyAll (hstamped : ∀ data ∈ log, json.toJson.Stamped data) (clock : ℕ → Time)
    (f : Fsm) {i : ℕ} (hi : i ≤ log.length) :
  (f.applyAll json.toJson clock (log.take i)).1 = stateAt (single json) f log i
  := by
  induction i with
  | zero => rfl
  | succ i ih =>
      have he : log[i]? = some log[i] := List.getElem?_eq_getElem hi
      rw [List.take_add_one, he, Fsm.applyAll_append, stateAt_succ he, ← ih (Nat.le_of_lt hi)]
      apply congrArg Prod.fst (single_eq (hstamped _ (List.getElem_mem hi)) _ _)

/-- What it returns on the way. -/
theorem snd_applyAll (hstamped : ∀ data ∈ log, json.toJson.Stamped data) (clock : ℕ → Time)
    (f : Fsm) (i : ℕ) :
  (f.applyAll json.toJson clock log).2[i]? = resultAt (single json) f log i
  := by
  induction log generalizing f i clock with
  | nil => rfl
  | cons data log ih =>
      rw [List.forall_mem_cons] at hstamped
      simp only [Fsm.applyAll, single_eq hstamped.1]
      cases i with
      | zero => rfl
      | succ i =>
          rw [List.getElem?_cons_succ, ih hstamped.2]
          rfl

theorem exact_stateAt (hstamped : ∀ data ∈ log, json.toJson.Stamped data) (i : ℕ) :
  Exact (stateAt (single json) .new log i).membership
  := by
  refine stateAt_stays (P := fun f : Fsm => Exact f.membership) (i := 0) ?_ Exact.new
    (Nat.zero_le i)
  intro f data hdata hf
  rw [single, Fsm.apply]
  split
  · exact hf
  · rename_i cmd hcmd
    exact hf.applyCommand (hstamped data hdata cmd hcmd) ⟨0⟩

end Single

/-! ### Nodes follow the log -/

/-- A snapshot that was written is read as it was. -/
def ReadsSnapshots (json : Json) : Prop :=
  ∀ snap data, json.marshalSnapshot snap = .ok data → json.decodeSnapshot data = .ok snap

/-- Every node has the state after the entries that it has applied, and so has every snapshot. -/
structure Agreed (json : Json) (m : Memory) : Prop where
  stamped : ∀ data ∈ m.log, json.toJson.Stamped data
  follows : ∀ node, Follows (single json) .new m.log (m.nodes node)
  snapshots : ∀ i data, (i, data) ∈ m.snapshots → i ≤ m.log.length
    ∧ ∀ f : Fsm, f.restore json.toJson data = .ok (stateAt (single json) .new m.log i)

namespace Agreed

variable {json : Json} {m : Memory}

theorem initial (json : Json) :
  Agreed json Serving.initial.memory
  := by
  refine ⟨?_, fun _ => Follows.restart, ?_⟩
  · intro data hdata
    cases hdata
  · intro i data hdata
    cases hdata

theorem commit (h : Agreed json m) {cmd : Command} (hcmd : cmd.Stamped) :
  Agreed json (m.commit json cmd)
  := by
  refine ⟨?_, fun node => (h.follows node).append _, ?_⟩
  · intro data hdata
    rcases List.mem_append.mp hdata with hold | hnew
    · exact h.stamped data hold
    · rw [List.mem_singleton.mp hnew]
      exact stamped_encodeCommand hcmd
  · intro i data hdata
    obtain ⟨hi, hrestore⟩ := h.snapshots i data hdata
    refine ⟨?_, ?_⟩
    · rw [Memory.commit, List.length_append]
      exact hi.trans (Nat.le_add_right _ _)
    · intro f
      rw [hrestore f, Memory.commit, stateAt_append hi]

theorem setNode (h : Agreed json m) (node : String) {r : Replica Fsm ApplyResult}
    (hr : Follows (single json) .new m.log r) :
  Agreed json (m.setNode node r)
  := by
  refine ⟨h.stamped, ?_, h.snapshots⟩
  intro other
  simp only [Memory.setNode]
  by_cases hother : other = node
  · subst hother
    rwa [Function.update_self]
  · rw [Function.update_of_ne hother]
    exact h.follows other

theorem applyNext (h : Agreed json m) (now : Time) (node : String) :
  Agreed json (m.applyNext json now node)
  := by
  rw [Memory.applyNext]
  dsimp only
  split
  · exact h
  · rename_i data hdata
    apply h.setNode
    rw [single_eq (h.stamped data (List.mem_of_getElem? hdata))]
    exact (h.follows node).applyNext hdata

theorem persist (h : Agreed json m) (hjson : ReadsSnapshots json)
    (orders : (f : Fsm) → f.Orders) (node : String) :
  Agreed json (m.persist json orders node)
  := by
  rw [Memory.persist]
  split
  · exact h
  · rename_i data hdata
    refine ⟨h.stamped, h.follows, ?_⟩
    intro i data' hmem
    rcases List.mem_append.mp hmem with hold | hnew
    · exact h.snapshots i data' hold
    · obtain ⟨rfl, rfl⟩ := Prod.mk.inj (List.mem_singleton.mp hnew)
      have hnode := h.follows node
      refine ⟨hnode.applied_le, ?_⟩
      intro f
      have hexact : Exact (m.nodes node).state.membership := by
        rw [hnode.state_eq]
        exact exact_stateAt h.stamped _
      rw [Fsm.restore_snapshot hexact _ (hjson _ _ hdata) f, hnode.state_eq]

theorem restore (h : Agreed json m) (k : ℕ) (node : String) :
  Agreed json (m.restore json k node)
  := by
  rw [Memory.restore]
  split
  · exact h
  · rename_i i data hk
    obtain ⟨hi, hrestore⟩ := h.snapshots i data (List.mem_of_getElem? hk)
    rw [hrestore]
    exact h.setNode node ((h.follows node).install hi)

theorem handle (h : Agreed json m) (hjson : ReadsSnapshots json) (now : Time) (node : String)
    (event : Event) :
  Agreed json (m.handle json now node event)
  := by
  cases event with
  | apply => exact h.applyNext now node
  | snapshot orders => exact h.persist hjson orders node
  | restore k => exact h.restore k node
  | restart => exact h.setNode node Follows.restart

end Agreed

/-- What a goroutine of a node does is not in the log. -/
theorem log_handle (json : Json) (now : Time) (m : Memory) (node : String) (event : Event) :
  (m.handle json now node event).log = m.log
  := by
  cases event with
  | apply =>
      simp only [Memory.handle, Memory.applyNext]
      split <;> rfl
  | snapshot orders =>
      simp only [Memory.handle, Memory.persist]
      split <;> rfl
  | restore k =>
      simp only [Memory.handle, Memory.restore]
      split
      · rfl
      · split <;> rfl
  | restart => rfl

end Replicated.Serving
