import Cascade.Replicated.Linearizable

/-!
# Redirects

A node that does not lead sends its clients to the address under which it knows the leader. It knows
it from the log, where nodes are registered when they join, and when they register themselves. If
nobody is registered with an address that is not its own, then clients are only ever sent to the
address of the node that was taken for the leader (`redirected_to_leader`), however far the nodes
have come in the log.
-/

open ControlPlane RaftNode Concurrent ReplicatedLog

namespace Replicated.Serving

/-! ### Redirects -/

/-- What registers a node registers it with its address. -/
def Command.Honest (addr : String → String) (cmd : Command) : Prop :=
  CommandKind.ofString cmd.kind = .registerNode → cmd.grpcAddr = addr cmd.nodeId

/-- The nodes that are known are known with their addresses. -/
def Known (addr : String → String) (f : Fsm) : Prop :=
  ∀ id info, lookupNode f id = some info → info.grpcAddr = addr id

section Redirects

variable {json : Json} {addr : String → String} {f : Fsm}

theorem Known.applyCommand (hf : Known addr f) {cmd : Command} (hcmd : Command.Honest addr cmd)
    (now : Time) :
  Known addr (f.applyCommand now cmd).1
  := by
  rw [Fsm.applyCommand]
  cases hkind : CommandKind.ofString cmd.kind with
  | createTopic =>
      dsimp only
      split <;> exact hf
  | registerBroker =>
      dsimp only
      split <;> exact hf
  | heartbeat =>
      dsimp only
      split <;> exact hf
  | incrementCounter => exact hf
  | registerNode =>
      intro id info hinfo
      by_cases hid : id = cmd.nodeId
      · subst hid
        have hput := Registry.find?_put_self f.nodes ⟨cmd.nodeId, cmd.raftAddr, cmd.grpcAddr⟩
        obtain rfl := Option.some.inj (hput.symm.trans hinfo)
        exact hcmd hkind
      · have hput := Registry.find?_put_of_ne f.nodes
          (a := ⟨cmd.nodeId, cmd.raftAddr, cmd.grpcAddr⟩) hid
        exact hf id info (hput.symm.trans hinfo)
  | unknown => exact hf

/-- The registrations on their way to the log are of nodes with their addresses, and so are the
redirects. -/
def Op.Honest (addr : String → String) : Op → Prop
  | .entering _ write => Command.Honest addr write.command
  | .adding _ cmd | .stamping _ cmd | .checking _ cmd | .applying _ cmd =>
      Command.Honest addr cmd
  | .ensuring _ self | .electing _ self | .registering _ self | .sleeping _ self =>
      Command.Honest addr (selfCommand self)
  | .redirected leaderId status =>
      ∀ hint, status.leader = some hint → hint = addr leaderId
  | _ => True

/-- All registrations in the log are of nodes with their addresses. -/
def LogHonest (json : Json) (addr : String → String) (log : List (List UInt8)) : Prop :=
  ∀ data ∈ log, ∀ cmd, json.unmarshalCommand data = .ok cmd → Command.Honest addr cmd

theorem known_stateAt {log : List (List UInt8)} (hlog : LogHonest json addr log) (i : ℕ) :
  Known addr (stateAt (single json) .new log i)
  := by
  refine stateAt_stays (P := Known addr) (i := 0) ?_ nofun (Nat.zero_le i)
  intro f data hdata hf
  rw [single, Fsm.apply]
  split
  · exact hf
  · rename_i cmd hcmd
    exact hf.applyCommand (hlog data hdata cmd hcmd) ⟨0⟩

theorem LogHonest.commit {m : Memory} (hlog : LogHonest json addr m.log) {cmd : Command}
    (hcmd : Command.Honest addr cmd) :
  LogHonest json addr (m.commit json cmd).log
  := by
  intro data hdata cmd' hcmd'
  rcases List.mem_append.mp hdata with hold | hnew
  · exact hlog data hold cmd' hcmd'
  · rw [List.mem_singleton.mp hnew, json.roundTrips] at hcmd'
    obtain rfl := Except.ok.inj hcmd'
    exact hcmd

theorem leader_notLeader (hf : Known addr f) {leaderId hint : String}
    (h : (notLeader (leaderGrpcAddr f leaderId)).leader = some hint) :
  hint = addr leaderId
  := by
  rw [leaderGrpcAddr] at h
  split at h
  · cases h
  · split at h
    · cases h
    · rename_i info hinfo
      split at h
      · cases h
      · obtain rfl := Option.some.inj h
        exact hf leaderId info hinfo

theorem Moves.honest {c : Choice} {m m' : Memory} {op op' : Op} (h : Moves json c m op m' op')
    (hknown : ∀ node, Known addr (m.nodes node).state) (hlog : LogHonest json addr m.log)
    (hop : op.Honest addr) :
  LogHonest json addr m'.log ∧ op'.Honest addr
  := by
  cases h with
  | commit node cmd => exact ⟨hlog.commit hop, trivial⟩
  | register node self => exact ⟨hlog.commit hop, hop⟩
  | handle node =>
      rw [log_handle]
      exact ⟨hlog, trivial⟩
  | point node => exact ⟨hlog, fun hint hhint => leader_notLeader (hknown node) hhint⟩
  | refuse op error => exact ⟨hlog, trivial⟩
  | redirect op node => exact ⟨hlog, trivial⟩
  | fail op status => exact ⟨hlog, trivial⟩
  | answer node cmd position res hres => exact ⟨hlog, trivial⟩
  | ensure node self => exact ⟨hlog, trivial⟩
  | abandon op => exact ⟨hlog, trivial⟩
  | _ => exact ⟨hlog, hop⟩

end Redirects

/-- If every node is only ever registered with the address under which it serves, by itself and by
those that join it, then whoever is redirected is told the address of the node that was taken for
the leader, or none. -/
theorem redirected_to_leader (json : Json) (hjson : ReadsSnapshots json)
    (actions : List (Action Call Choice))
    (hclock : ∀ k c, .advance k c ∈ actions → c.now.unixMilli ≠ 0) (addr : String → String)
    (hjoin : ∀ node nodeId raftAddress grpcAddress,
      .call (.write node (.joinCluster nodeId raftAddress grpcAddress)) ∈ actions →
        grpcAddress = addr nodeId)
    (hself : ∀ node self, .call (.ensureSelfRegistered node self) ∈ actions →
      self.grpcAddr = addr self.id)
    {leaderId : String} {status : Status}
    (hop : .redirected leaderId status ∈ (run (serving json) initial actions).ops) :
  status.leader = none ∨ status.leader = some (addr leaderId)
  := by
  have hrun : Consistent json (run (serving json) initial actions)
      ∧ LogHonest json addr (run (serving json) initial actions).memory.log
      ∧ ∀ op ∈ (run (serving json) initial actions).ops, op.Honest addr := by
    apply run_induction_mem (p := serving json) (P := fun s => Consistent json s
      ∧ LogHonest json addr s.memory.log ∧ ∀ op ∈ s.ops, op.Honest addr)
    · rintro s call hcall ⟨hs, hlog, hops⟩
      refine ⟨hs.call call, hlog, ?_⟩
      intro op hop
      rcases List.mem_append.mp hop with hold | hnew
      · exact hops op hold
      · rw [List.mem_singleton.mp hnew]
        cases call with
        | write node write =>
            cases write with
            | joinCluster nodeId raftAddress grpcAddress =>
                exact fun _ => hjoin node nodeId raftAddress grpcAddress hcall
            | _ => exact nofun
        | ensureSelfRegistered node self => exact fun _ => hself node self hcall
        | run node => trivial
    · rintro s k op c hk ⟨hs, hlog, hops⟩ hop
      have hknown : ∀ node, Known addr (s.memory.nodes node).state := by
        intro node
        rw [(hs.agreed.follows node).state_eq]
        exact known_stateAt hlog _
      obtain ⟨hlog', hop'⟩ := (op.moves json c s.memory).honest hknown hlog
        (hops op (List.mem_of_getElem? hop))
      refine ⟨hs.advance hjson hop (hclock k c hk), hlog', ?_⟩
      intro other hother
      rcases List.mem_or_eq_of_mem_set hother with hmem | rfl
      · exact hops other hmem
      · exact hop'
    · refine ⟨consistent_initial json, ?_, ?_⟩
      · exact nofun
      · exact nofun
  have hhint := hrun.2.2 _ hop
  cases hstatus : status.leader with
  | none => exact Or.inl rfl
  | some hint => exact Or.inr (congrArg some (hhint hint hstatus))

/-- A step of a node that takes `n2` for the leader. -/
def obeys : Choice := ⟨⟨1000000⟩, false, "n2", .done, false, .apply⟩

/-- The node `n2` leads and registers itself, and `n1` redirects a heartbeat. -/
def redirectsHeartbeat : List (Action Call Choice) :=
  [.call (.ensureSelfRegistered "n2" ⟨"n2", "raft2", "grpc2"⟩), .advance 0 leads,
    .advance 0 leads, .advance 0 leads, .call (.run "n1"), .advance 1 obeys,
    .call (.write "n1" (.heartbeat "b")), .advance 2 obeys, .advance 2 obeys, .advance 2 obeys,
    .advance 2 obeys]

/-- The entry with which it registers itself. -/
def selfData : List UInt8 :=
  Fsm.bytes ("\x7b\"kind\":\"register_node\",\"node_id\":\"n2\",\"raft_addr\":\"raft2\","
    ++ "\"grpc_addr\":\"grpc2\"\x7d")

theorem run_redirectsHeartbeat (json : Json) :
  (run (serving json) initial redirectsHeartbeat).ops[2]?
    = some (.redirected "n2" (notLeader (some "grpc2")))
  := by
  have happly : Fsm.new.apply json.toJson ⟨1000000⟩
        (json.encodeCommand (selfCommand ⟨"n2", "raft2", "grpc2"⟩))
      = ({ Fsm.new with nodes := Registry.empty.put ⟨"n2", "raft2", "grpc2"⟩ }, {}) := by
    rw [json.apply_encodeCommand]
    rfl
  have hlookup : lookupNode Fsm.new "n2" = none := rfl
  have hleader : leaderGrpcAddr
      { Fsm.new with nodes := Registry.empty.put ⟨"n2", "raft2", "grpc2"⟩ } "n2"
        = some "grpc2" := by decide +kernel
  simp only [redirectsHeartbeat, run, List.foldl_cons, List.foldl_nil, Concurrent.step, serving,
    initial, List.nil_append, List.cons_append, List.getElem?_cons_zero,
    List.getElem?_cons_succ, Op.advance, List.set_cons_zero, List.set_cons_succ, hlookup]
  simp [leads, obeys, Memory.commit, Memory.handle, Memory.applyNext, Memory.setNode, happly,
    hleader]

/-- The client is sent to the address under which the leader has registered itself. -/
theorem redirected_to_registered :
  ∃ json : Json, ReadsSnapshots json
    ∧ json.encodeCommand (selfCommand ⟨"n2", "raft2", "grpc2"⟩) = selfData
    ∧ (run (serving json) initial redirectsHeartbeat).ops[2]?
      = some (.redirected "n2" (notLeader (some "grpc2")))
    ∧ ((notLeader (some "grpc2")).leader = none
      ∨ (notLeader (some "grpc2")).leader = some "grpc2")
  := by
  obtain ⟨json, hjson, hspells⟩ := exists_readsSnapshots
    [(selfCommand ⟨"n2", "raft2", "grpc2"⟩, selfData)] (by simp) (by simp)
  have hop := run_redirectsHeartbeat json
  use json, hjson, hspells _ List.mem_cons_self, hop
  apply redirected_to_leader json hjson redirectsHeartbeat (clock_of_all rfl) (fun _ => "grpc2") _ _
    (List.mem_of_getElem? hop)
  · intro node nodeId raftAddress grpcAddress hcall
    simp [redirectsHeartbeat] at hcall
  · intro node self hcall
    simp [redirectsHeartbeat] at hcall
    rw [hcall.2]

end Replicated.Serving
