import Cascade.RaftNode.Atomicity
import Cascade.Replicated.Serving

/-!
# Linearizable writes

Every answered write has a place in the log, in an order that agrees with time, and its answer is
the one that a single state machine gives there (`writes_linearizable`). So a topic whose creation
was answered is listed by exactly the nodes that have come as far (`created_topic_listed`).
-/

open ControlPlane RaftNode Concurrent ReplicatedLog

namespace Replicated.Serving

/-! ### Writes have a place in the log -/

/-- What is known of a write. -/
def Op.Sound (json : Json) (m : Memory) : Op → Prop
  | .checking _ cmd | .applying _ cmd => cmd.timestampMs ≠ 0
  | .waiting _ cmd position => m.log[position]? = some (json.encodeCommand cmd)
  | .answered cmd position res =>
      m.log[position]? = some (json.encodeCommand cmd)
        ∧ resultAt (single json) .new m.log position = some res
  | _ => True

section Steps

variable {json : Json} {c : Choice} {m m' : Memory} {op op' : Op}

/-- A step appends to the log at most. -/
theorem Moves.log (h : Moves json c m op m' op') :
  m.log <+: m'.log
  := by
  cases h with
  | commit node cmd => apply List.prefix_append
  | register node self => apply List.prefix_append
  | handle node => rw [log_handle]
  | _ => apply List.prefix_refl

theorem Op.Sound.mono (hop : op.Sound json m) (hlog : m.log <+: m'.log) :
  op.Sound json m'
  := by
  obtain ⟨more, hlog⟩ := hlog
  have hget : ∀ {position : ℕ} {data : List UInt8}, m.log[position]? = some data →
      m'.log[position]? = some data := by
    intro position data hdata
    rw [← hlog, List.getElem?_append_left (List.getElem?_eq_some_iff.mp hdata).1]
    exact hdata
  cases op with
  | checking node cmd => exact hop
  | applying node cmd => exact hop
  | waiting node cmd position => exact hget hop
  | answered cmd position res =>
      refine ⟨hget hop.1, ?_⟩
      rw [← hlog]
      exact resultAt_append hop.2 more
  | _ => trivial

theorem selfCommand_stamped (self : NodeInfo) :
  (selfCommand self).Stamped
  := by
  rintro (hkind | hkind) <;> cases hkind

/-- Every step keeps the nodes with the log, and leaves its own request as it should be. -/
theorem Moves.sound (h : Moves json c m op m' op') (hm : Agreed json m) (hop : op.Sound json m)
    (hjson : ReadsSnapshots json) (hclock : c.now.unixMilli ≠ 0) :
  Agreed json m' ∧ op'.Sound json m'
  := by
  cases h with
  | stamp node cmd => exact ⟨hm, hclock⟩
  | commit node cmd => exact ⟨hm.commit fun _ => hop, List.getElem?_concat_length⟩
  | answer node cmd position res hres =>
      exact ⟨hm, hop, (hm.follows node).results_eq position res hres⟩
  | register node self => exact ⟨hm.commit (selfCommand_stamped self), trivial⟩
  | handle node => exact ⟨hm.handle hjson c.now node c.event, trivial⟩
  | stay op => exact ⟨hm, hop⟩
  | check node cmd => exact ⟨hm, hop⟩
  | _ => exact ⟨hm, trivial⟩

/-- The place of a write in the log. -/
def Op.position : Op → Option ℕ
  | .waiting _ _ position | .answered _ position _ => some position
  | _ => none

theorem Op.Sound.position_lt {i : ℕ} (hop : op.Sound json m) (hi : op.position = some i) :
  i < m.log.length
  := by
  cases op with
  | waiting node cmd position =>
      obtain rfl := Option.some.inj hi
      exact (List.getElem?_eq_some_iff.mp hop).1
  | answered cmd position res =>
      obtain rfl := Option.some.inj hi
      exact (List.getElem?_eq_some_iff.mp hop.1).1
  | _ => cases hi

/-- A write gets its place at the end of the log. -/
theorem Moves.position (h : Moves json c m op m' op') {i : ℕ} (hi : op'.position = some i) :
  op.position = some i ∨ i = m.log.length
  := by
  cases h with
  | stay op => exact Or.inl hi
  | commit node cmd => exact Or.inr (Option.some.inj hi).symm
  | answer node cmd position res hres => exact Or.inl hi
  | _ => cases hi

end Steps

/-! ### Runs -/

/-- What holds of a cluster all the time. -/
structure Consistent (json : Json) (s : Concurrent Memory Op) : Prop where
  agreed : Agreed json s.memory
  sound : ∀ op ∈ s.ops, op.Sound json s.memory
  distinct : Distinct s.ops Op.position

section Runs

variable {json : Json} {s : Concurrent Memory Op}

theorem consistent_initial (json : Json) :
  Consistent json initial
  := by
  refine ⟨Agreed.initial json, ?_, Distinct.nil _⟩
  intro op hop
  cases hop

theorem Consistent.call (hs : Consistent json s) (call : Call) :
  Consistent json { s with ops := s.ops ++ [(serving json).start call] }
  := by
  refine ⟨hs.agreed, ?_, ?_⟩
  · intro op hop
    rcases List.mem_append.mp hop with hold | hnew
    · exact hs.sound op hold
    · rw [List.mem_singleton.mp hnew]
      cases call <;> trivial
  · apply hs.distinct.call
    cases call <;> rfl

theorem Consistent.advance (hs : Consistent json s) (hjson : ReadsSnapshots json) {k : ℕ} {op : Op}
    (hop : s.ops[k]? = some op) {c : Choice} (hclock : c.now.unixMilli ≠ 0) :
  Consistent json ⟨(op.advance json c s.memory).1, s.ops.set k (op.advance json c s.memory).2⟩
  := by
  have hmoves := op.moves json c s.memory
  obtain ⟨hagreed, hsound⟩ :=
    hmoves.sound hs.agreed (hs.sound op (List.mem_of_getElem? hop)) hjson hclock
  refine ⟨hagreed, ?_, ?_⟩
  · intro other hother
    rcases List.mem_or_eq_of_mem_set hother with hmem | rfl
    · exact (hs.sound other hmem).mono hmoves.log
    · exact hsound
  · apply hs.distinct.advance hop
    intro i hi
    rcases hmoves.position hi with hold | rfl
    · exact Or.inl hold
    · -- The end of the log is the place of nobody.
      right
      intro other hother hi'
      exact absurd ((hs.sound other hother).position_lt hi') (lt_irrefl _)

theorem consistent_run (hs : Consistent json s) (hjson : ReadsSnapshots json)
    {actions : List (Action Call Choice)}
    (hclock : ∀ k c, .advance k c ∈ actions → c.now.unixMilli ≠ 0) :
  Consistent json (run (serving json) s actions)
  := by
  apply run_induction_mem (P := Consistent json) _ _ hs
  · exact fun s call _ hs => hs.call call
  · exact fun s k op c hk hs hop => hs.advance hjson hop (hclock k c hk)

/-- The log is only appended to. -/
theorem log_run (json : Json) (s : Concurrent Memory Op) (actions : List (Action Call Choice)) :
  s.memory.log <+: (run (serving json) s actions).memory.log
  := by
  refine run_induction (p := serving json)
    (P := fun s' : Concurrent Memory Op => s.memory.log <+: s'.memory.log) ?_ ?_
    (List.prefix_refl _) actions
  · exact fun s' call hs' => hs'
  · intro s' k op c hs' _
    exact hs'.trans (op.moves json c s'.memory).log

/-- Requests that come later get places after those that are in the log already. -/
theorem le_position_run (json : Json) (s : Concurrent Memory Op)
    (actions : List (Action Call Choice)) {k : ℕ} (hk : s.ops.length ≤ k) {op : Op} {i : ℕ}
    (hop : (run (serving json) s actions).ops[k]? = some op) (hi : op.position = some i) :
  s.memory.log.length ≤ i
  := by
  have hrun := run_induction (p := serving json)
    (P := fun s' : Concurrent Memory Op => s.memory.log <+: s'.memory.log
      ∧ ∀ op i, s'.ops[k]? = some op → op.position = some i → s.memory.log.length ≤ i)
    ?_ ?_ ⟨List.prefix_refl _, ?_⟩ actions
  · exact hrun.2 op i hop hi
  · rintro s' call ⟨hlog, hs'⟩
    refine ⟨hlog, ?_⟩
    intro op i hop hi
    apply hs' op i _ hi
    exact getElem?_of_concat (by cases call <;> rfl) hop hi
  · rintro s' j op' c ⟨hlog, hs'⟩ hop'
    refine ⟨hlog.trans (op'.moves json c s'.memory).log, ?_⟩
    intro op i hop hi
    by_cases hjk : j = k
    · subst hjk
      rw [List.getElem?_set_self (List.getElem?_eq_some_iff.mp hop').1] at hop
      obtain rfl := Option.some.inj hop
      rcases (op'.moves json c s'.memory).position hi with hold | rfl
      · exact hs' op' i hop' hold
      · exact hlog.length_le
    · rw [List.getElem?_set_ne hjk] at hop
      exact hs' op i hop hi
  · intro op i hop
    rw [List.getElem?_eq_none hk] at hop
    cases hop

end Runs

/-- Every node has the state that the entries lead to that it has applied. An answered write has a
place in the log that no other has, and its answer is that of a single state machine that applies
the log. A write that comes after the answer has a place after it. -/
theorem writes_linearizable (json : Json) (hjson : ReadsSnapshots json)
    (actions later : List (Action Call Choice))
    (hclock : ∀ k c, .advance k c ∈ actions ++ later → c.now.unixMilli ≠ 0)
    (clock : ℕ → Time) :
  let s := run (serving json) initial actions
  let s' := run (serving json) s later
  (∀ node, (s.memory.nodes node).state = (Fsm.new.applyAll json.toJson clock
      (s.memory.log.take (s.memory.nodes node).applied)).1)
    ∧ (∀ (k : ℕ) cmd i res, s.ops[k]? = some (.answered cmd i res) →
      s.memory.log[i]? = some (json.encodeCommand cmd)
        ∧ (Fsm.new.applyAll json.toJson clock s.memory.log).2[i]? = some res)
    ∧ (∀ (k k' : ℕ) cmd cmd' i res res', s.ops[k]? = some (.answered cmd i res) →
      s.ops[k']? = some (.answered cmd' i res') → k = k')
    ∧ (∀ (k k' : ℕ) cmd cmd' i i' res res', s.ops[k]? = some (.answered cmd i res) →
      s.ops.length ≤ k' → s'.ops[k']? = some (.answered cmd' i' res') → i < i')
    ∧ s.memory.log <+: s'.memory.log
  := by
  intro s s'
  have hs : Consistent json s := consistent_run (consistent_initial json) hjson
    fun k c hk => hclock k c (List.mem_append_left later hk)
  have hsound : ∀ {k : ℕ} {cmd i res}, s.ops[k]? = some (.answered cmd i res) →
      (Op.answered cmd i res).Sound json s.memory :=
    fun hop => hs.sound _ (List.mem_of_getElem? hop)
  refine ⟨?_, ?_, ?_, ?_, log_run json s later⟩
  · intro node
    obtain ⟨hle, hstate, -⟩ := hs.agreed.follows node
    rw [fst_applyAll hs.agreed.stamped clock _ hle, hstate]
  · intro k cmd i res hop
    rw [snd_applyAll hs.agreed.stamped]
    exact hsound hop
  · intro k k' cmd cmd' i res res' hop hop'
    exact hs.distinct k k' _ _ i hop hop' rfl rfl
  · intro k k' cmd cmd' i i' res res' hop hk' hop'
    have hle : s.memory.log.length ≤ i' := le_position_run json s later hk' hop' rfl
    exact lt_of_lt_of_le ((hsound hop).position_lt rfl) hle

/-! ### A run -/

theorem countable_snapshot :
  Countable FsmSnapshot
  := by
  have hstring := countable_string
  have htopic : Countable Topic := by
    have hfields : Function.Injective fun t : Topic => (t.name, t.numPartitions.toInt) := by
      rintro ⟨⟩ ⟨⟩ h
      simpa [Int32.toInt_inj] using h
    exact hfields.countable
  have hbroker : Countable BrokerSnapshotEntry := by
    have hfields : Function.Injective fun e : BrokerSnapshotEntry =>
        (e.brokerId, e.address, e.lastHeartbeatUnix.toInt) := by
      rintro ⟨⟩ ⟨⟩ h
      simpa [Int64.toInt_inj] using h
    exact hfields.countable
  have hnode : Countable NodeInfo := by
    have hfields : Function.Injective fun n : NodeInfo => (n.id, n.raftAddr, n.grpcAddr) := by
      rintro ⟨⟩ ⟨⟩ h
      simpa using h
    exact hfields.countable
  have hfields : Function.Injective fun snap : FsmSnapshot =>
      (snap.topics, snap.brokers, snap.counter.toInt, snap.nodes) := by
    rintro ⟨⟩ ⟨⟩ h
    simpa [Int64.toInt_inj] using h
  exact hfields.countable

/-- There is an encoding that reads the snapshots which it writes, and spells some commands as
given. -/
theorem exists_readsSnapshots (entries : List (Command × List UInt8))
    (hcmds : (entries.map Prod.fst).Nodup) (hdata : (entries.map Prod.snd).Nodup) :
  ∃ json : Json, ReadsSnapshots json ∧ ∀ x ∈ entries, json.encodeCommand x.1 = x.2
  := by
  have hcountable := countable_snapshot
  have hinhabited : Nonempty FsmSnapshot := ⟨⟨[], [], 0, []⟩⟩
  obtain ⟨number, hnumber⟩ := exists_injective_nat FsmSnapshot
  have hencode : Function.Injective fun snap => List.replicate (number snap) (0 : UInt8) := by
    intro snap snap' h
    apply hnumber
    simpa using congrArg List.length h
  obtain ⟨json, hspells⟩ := Json.exists_spells entries hcmds hdata
  use { json with
    marshalSnapshot := fun snap => .ok (List.replicate (number snap) 0)
    decodeSnapshot := fun data =>
      .ok (Function.invFun (fun snap => List.replicate (number snap) (0 : UInt8)) data) }
  refine ⟨?_, hspells⟩
  intro snap data hdata
  obtain rfl := Except.ok.inj hdata
  exact congrArg Except.ok (Function.leftInverse_invFun hencode snap)

/-- A step of the node `n1`, which leads. -/
def leads : Choice := ⟨⟨1000000⟩, true, "n1", .done, false, .apply⟩

/-- The node `n1` creates a topic. -/
def createsTopic : List (Action Call Choice) :=
  [.call (.write "n1" (.createTopic "t" 3)), .call (.run "n1"), .advance 0 leads,
    .advance 0 leads, .advance 0 leads, .advance 0 leads, .advance 1 leads, .advance 0 leads]

/-- The command that is committed. -/
def createCommand : Command :=
  { kind := "create_topic", topicName := "t", numPartitions := 3, timestampMs := 1 }

/-- The entry that it becomes. -/
def createData : List UInt8 :=
  Fsm.bytes ("\x7b\"kind\":\"create_topic\",\"topic_name\":\"t\",\"num_partitions\":3,"
    ++ "\"timestamp_ms\":1\x7d")

/-- The topic is in the state of the node, and the request is answered. -/
theorem run_createsTopic (json : Json) :
  (run (serving json) initial createsTopic).ops = [.answered createCommand 0 {}, .running "n1"]
    ∧ ((run (serving json) initial createsTopic).memory.nodes "n1").applied = 1
  := by
  have happly : Fsm.new.apply json.toJson ⟨1000000⟩ (json.encodeCommand createCommand)
      = ({ Fsm.new with metadata := ⟨Registry.empty.put ⟨"t", 3⟩⟩ }, {}) := by
    rw [json.apply_encodeCommand]
    rfl
  have hcmd : ({ (Write.createTopic "t" 3).command with timestampMs := leads.now.unixMilli }
      : Command) = createCommand := by decide
  simp only [createsTopic, run, List.foldl_cons, List.foldl_nil, Concurrent.step, serving, initial,
    List.nil_append, List.cons_append, List.getElem?_cons_zero, List.getElem?_cons_succ,
    Op.advance, List.set_cons_zero, List.set_cons_succ, hcmd]
  simp [leads, Future.next, Memory.commit, Memory.handle, Memory.applyNext, Memory.setNode, happly]

/-- No clock shows the epoch in these actions. -/
def showsTime : Action Call Choice → Bool
  | .call _ => true
  | .advance _ c => c.now.unixMilli != 0

theorem clock_of_all {actions : List (Action Call Choice)} (h : actions.all showsTime = true)
    (k : ℕ) (c : Choice) (hk : .advance k c ∈ actions) :
  c.now.unixMilli ≠ 0
  := by
  simpa [showsTime] using List.all_eq_true.mp h _ hk

/-- The creation of a topic is answered as a single state machine answers it. -/
theorem writes_linearizable_created :
  ∃ json : Json, ReadsSnapshots json ∧ json.encodeCommand createCommand = createData
    ∧ let s := run (serving json) initial createsTopic
      s.ops[0]? = some (.answered createCommand 0 {})
        ∧ (Fsm.new.applyAll json.toJson (fun _ => ⟨0⟩) s.memory.log).2[0]?
          = some ({} : ApplyResult)
  := by
  obtain ⟨json, hjson, hspells⟩ :=
    exists_readsSnapshots [(createCommand, createData)] (by simp) (by simp)
  have hop : (run (serving json) initial createsTopic).ops[0]?
      = some (.answered createCommand 0 {}) := by
    rw [(run_createsTopic json).1]
    rfl
  obtain ⟨-, hanswered, -⟩ :=
    writes_linearizable json hjson createsTopic [] (clock_of_all rfl) (fun _ => ⟨0⟩)
  exact ⟨json, hjson, hspells _ List.mem_cons_self, hop, (hanswered 0 createCommand 0 {} hop).2⟩

/-! ### Topics -/

section Topics

variable {json : Json} {log : List (List UInt8)} {name : String} {topic : Topic}

/-- A topic stays as it is. -/
theorem find?_topic_single {f : Fsm} (h : f.metadata.topics.find? name = some topic)
    (data : List UInt8) :
  (single json f data).1.metadata.topics.find? name = some topic
  := by
  rw [single, Fsm.find?_topics_apply, h]
  rfl

theorem find?_topic_stateAt {i j : ℕ}
    (h : (stateAt (single json) .new log i).metadata.topics.find? name = some topic)
    (hij : i ≤ j) :
  (stateAt (single json) .new log j).metadata.topics.find? name = some topic
  := stateAt_stays (P := fun f : Fsm => f.metadata.topics.find? name = some topic)
    (fun _ data _ hf => find?_topic_single hf data) h hij

/-- A command that creates a topic creates one that was not there before. -/
theorem created_of_resultAt {cmd : Command} (hkind : CommandKind.ofString cmd.kind = .createTopic)
    {i : ℕ} (hcmd : log[i]? = some (json.encodeCommand cmd)) {res : ApplyResult}
    (hres : resultAt (single json) .new log i = some res) (hok : res.err = none) :
  (stateAt (single json) .new log i).metadata.topics.find? cmd.topicName = none
    ∧ (stateAt (single json) .new log (i + 1)).metadata.topics.find? cmd.topicName
      = some ⟨cmd.topicName, cmd.numPartitions⟩
  := by
  rw [stateAt_succ hcmd]
  rw [resultAt, hcmd, Option.map_some] at hres
  obtain rfl := Option.some.inj hres
  rw [single_encodeCommand, Fsm.applyCommand, hkind] at hok ⊢
  dsimp only at hok ⊢
  split at hok
  · cases hok
  · rename_i metadata hcreate
    obtain ⟨hnone, -, rfl⟩ := MetadataStore.createTopic_eq_ok hcreate
    exact ⟨hnone, Registry.find?_put_self _ (⟨cmd.topicName, cmd.numPartitions⟩ : Topic)⟩

end Topics

/-- When the creation of a topic was answered without an error, then at any later time a node lists
a topic of this name exactly if it has applied the creation, and with the partitions that were asked
for. -/
theorem created_topic_listed (json : Json) (hjson : ReadsSnapshots json)
    (actions later : List (Action Call Choice))
    (hclock : ∀ k c, .advance k c ∈ actions ++ later → c.now.unixMilli ≠ 0) {cmd : Command}
    (hkind : cmd.kind = "create_topic") {i : ℕ} {res : ApplyResult} (hok : res.err = none)
    (hop : .answered cmd i res ∈ (run (serving json) initial actions).ops) (node : String) :
  let r := (run (serving json) initial (actions ++ later)).memory.nodes node
  ∀ order topic, topic ∈ r.state.metadata.listTopics order ∧ topic.name = cmd.topicName
    ↔ i < r.applied ∧ topic = ⟨cmd.topicName, cmd.numPartitions⟩
  := by
  intro r order topic
  have hs : Consistent json (run (serving json) initial actions) :=
    consistent_run (consistent_initial json) hjson
      fun k c hk => hclock k c (List.mem_append_left later hk)
  have hs' : Consistent json (run (serving json) initial (actions ++ later)) :=
    consistent_run (consistent_initial json) hjson hclock
  have hlog : (run (serving json) initial actions).memory.log
      <+: (run (serving json) initial (actions ++ later)).memory.log := by
    rw [run_append]
    apply log_run
  obtain ⟨hcmd, hres⟩ := (hs.sound _ hop).mono hlog
  have hcreate : CommandKind.ofString cmd.kind = .createTopic := by
    rw [hkind]
    rfl
  obtain ⟨hbefore, hafter⟩ := created_of_resultAt hcreate hcmd hres hok
  have hmem : topic ∈ r.state.metadata.listTopics order
      ↔ (stateAt (single json) .new (run (serving json) initial (actions ++ later)).memory.log
        r.applied).metadata.topics.find? topic.name = some topic := by
    rw [← (hs'.agreed.follows node).state_eq]
    exact order.mem topic
  rw [hmem]
  constructor
  · rintro ⟨htopic, hname⟩
    rw [hname] at htopic
    have hi : i < r.applied := by
      by_contra hle
      have hthere := find?_topic_stateAt htopic (not_lt.mp hle)
      rw [hbefore] at hthere
      cases hthere
    have hthere := find?_topic_stateAt hafter hi
    exact ⟨hi, Option.some.inj (htopic.symm.trans hthere)⟩
  · rintro ⟨hi, rfl⟩
    exact ⟨find?_topic_stateAt hafter hi, rfl⟩

/-- The node that created a topic lists it. -/
theorem created_topic_listed_there :
  ∃ json : Json, ReadsSnapshots json ∧ json.encodeCommand createCommand = createData
    ∧ let f := ((run (serving json) initial createsTopic).memory.nodes "n1").state
      ∀ order, ⟨"t", 3⟩ ∈ f.metadata.listTopics order
  := by
  obtain ⟨json, hjson, hspells⟩ :=
    exists_readsSnapshots [(createCommand, createData)] (by simp) (by simp)
  obtain ⟨hops, happlied⟩ := run_createsTopic json
  use json, hjson, hspells _ List.mem_cons_self
  intro f order
  have hop : .answered createCommand 0 {}
      ∈ (run (serving json) initial createsTopic).ops := by
    rw [hops]
    exact List.mem_cons_self
  have hlisted := created_topic_listed json hjson createsTopic [] (clock_of_all rfl) rfl rfl hop
    "n1"
  rw [List.append_nil] at hlisted
  have hlt : 0 < ((run (serving json) initial createsTopic).memory.nodes "n1").applied := by
    rw [happlied]
    decide
  exact ((hlisted order ⟨"t", 3⟩).mpr ⟨hlt, rfl⟩).1

end Replicated.Serving
