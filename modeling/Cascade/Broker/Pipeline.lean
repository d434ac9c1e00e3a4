import Cascade.Broker.Delivery
import Cascade.Broker.Producer

/-!
# From producers to consumers

A topic with everybody who uses it: publisher threads that call a producer, the consumers of a
group, and others. The threads share the producer, as `broker/producer.hpp` allows. A call is not
atomic: it chooses its partition, checks the lag, appends, and forces the log to the device, and a
call that finds the consumers lagging too far behind tries again until its deadline. In between all
others take their steps.

What the threads do to the logs is what the model of consumer groups allows anybody to do
(`Pipeline.step_consuming`), so that the results about consumer groups apply.

Records with one key come to the consumers in the order in which they were published: when a call
has returned before another one with the same key is made, its records are in front of those of the
other, in the partition and in what the polls of the group return
(`Pipeline.delivered_in_key_order`).
-/

open Storage

namespace Broker

/-! ### The calls -/

namespace Producer.Call

/-- What the call tries at its partition, as the only publisher that is looked at. -/
def attempt : Call → Publishing.Action
  | .publish payload => .tryPublish 0 payload
  | .publishKeyed _ payload => .tryPublish 0 payload
  | .publishKeyedConsistent _ payload => .tryPublish 0 payload
  | .publishBatch payloads => .tryPublishBatch 0 payloads
  | .publishBatchKeyed _ payloads => .tryPublishBatch 0 payloads
  | .tryPublishBatch _ payloads => .tryPublishBatch 0 payloads
  | .tryPublish _ payload => .tryPublish 0 payload

/-- Whether the call tries again when the consumers lag too far behind. -/
def blocking : Call → Bool
  | .tryPublishBatch _ _ => false
  | .tryPublish _ _ => false
  | _ => true

/-- The key that chooses the partition by its hash. -/
def key? : Call → Option String
  | .publishKeyed key _ => some key
  | .publishBatchKeyed key _ => some key
  | _ => none

def payloads (c : Call) : List (List UInt8) :=
  match c.attempt with
  | .tryPublish _ payload => [payload.bytes]
  | .tryPublishBatch _ payloads => payloads
  | _ => []

/-- An attempt was rejected since the consumers lag too far behind. It may be that the deadline has
passed; there is no result if the call tries again. -/
def lagging (c : Call) (expired : Bool) : Option (Except PublishException Reply) :=
  if c.blocking then
    if expired then some (.error (.error backpressureTimeout)) else none
  else some (.ok .rejected)

/-- What the call makes of how an attempt at a partition ends. -/
def result (c : Call) (partition : ℕ) (expired : Bool) :
    Outcome → Option (Except PublishException Reply)
  | .published _ (some offset) => some (.ok (.published ⟨partition, offset⟩))
  | .published _ none => c.lagging expired
  | .publishedBatch _ (some ack) =>
      some (.ok (.publishedBatch ⟨partition, ack.firstOffset, ack.count⟩))
  | .publishedBatch _ none => c.lagging expired
  | .threw e => some (.error (.error e))

end Producer.Call

/-- A thread that is in a call of the producer: the partition to which the call goes, and how far
it is with its attempt. For the statement of results it is noted at which step it made the call. -/
structure Publisher where
  call : Producer.Call
  partition : ℕ
  stage : Stage
  calledAt : ℕ

/-- The next step of the thread at its partition. -/
def Publisher.next (b : Publisher) : Publishing.Action :=
  match b.stage with
  | .idle => b.call.attempt
  | _ => .proceed 0

/-- A call of the producer that has returned or thrown, with the steps at which it was made and at
which it ended. -/
structure Returned where
  call : Producer.Call
  result : Except PublishException Producer.Reply
  calledAt : ℕ
  returnedAt : ℕ

/-- The records that the call has published, where it says that they are. -/
def Returned.records (r : Returned) : List Producer.Report :=
  match r.result with
  | .ok (.published result) =>
      r.call.payloads.map (fun payload => ⟨result.partition, result.offset, payload⟩)
  | .ok (.publishedBatch result) =>
      ((List.range' result.firstOffset result.count).zip r.call.payloads).map
        (fun x => ⟨result.partition, x.1, x.2⟩)
  | _ => []

/-! ### The system -/

/-- A topic, its consumers, a producer, and the threads that call it. -/
structure Pipeline where
  consuming : Consuming
  maxLagRecords : ℕ
  flushPolicy : FlushPolicy
  roundRobin : UInt64
  hashRing : ConsistentHashRing
  publishers : ℕ → Option Publisher
  /-- The number of steps so far. -/
  clock : ℕ

namespace Pipeline

/-- One atomic step. -/
inductive Action where
  /-- A consumer, or somebody else who uses the partitions or the offset store. -/
  | consume (action : Consuming.Action)
  /-- Thread `i` calls the producer. -/
  | call (i : ℕ) (call : Producer.Call)
  /-- Thread `i` takes the next step of its call; the deadline may have passed. -/
  | proceed (i : ℕ) (expired : Bool)

/-- What comes out of a step. -/
inductive Output where
  | polled (polled : Polled)
  | returned (returned : Returned)

/-- The consumer that takes the step. -/
def Action.member? : Action → Option Member
  | .consume action => action.member?
  | _ => none

section Steps

variable (hash : String → UInt64)

/-- A fresh topic with a producer. -/
def fresh (name : String) (numPartitions maxSegmentBytes : ℕ) (group : String) (groupSize : ℕ → ℕ)
    (maxLagRecords : ℕ) (flushPolicy : FlushPolicy) : Pipeline where
  consuming := .fresh name numPartitions maxSegmentBytes group groupSize
  maxLagRecords := maxLagRecords
  flushPolicy := flushPolicy
  roundRobin := 0
  hashRing := (List.range numPartitions).foldl (fun ring p => ring.addPartition hash p)
    (ConsistentHashRing.make 128)
  publishers := fun _ => none
  clock := 0

def numPartitions (s : Pipeline) : ℕ := s.consuming.topic.numPartitions

/-- The partition that the producer chooses for a call. -/
def target (s : Pipeline) : Producer.Call → Except PublishException ℤ
  | .publish _ => .ok (s.roundRobin.toNat % s.numPartitions : ℕ)
  | .publishBatch _ => .ok (s.roundRobin.toNat % s.numPartitions : ℕ)
  | .publishKeyed key _ => .ok ((hash key).toNat % s.numPartitions : ℕ)
  | .publishBatchKeyed key _ => .ok ((hash key).toNat % s.numPartitions : ℕ)
  | .publishKeyedConsistent key _ =>
      match s.hashRing.partitionFor hash key with
      | .error what => .error (.error (.runtimeError what))
      | .ok p => .ok p
  | .tryPublishBatch partition _ => .ok partition
  | .tryPublish partition _ => .ok partition

theorem target_of_key (s : Pipeline) {c : Producer.Call} {key : String} (h : c.key? = some key) :
  s.target hash c = .ok ((hash key).toNat % s.numPartitions : ℕ)
  := by
  cases c with
  | publishKeyed key' _ =>
      cases h
      rfl
  | publishBatchKeyed key' _ =>
      cases h
      rfl
  | publish _ => cases h
  | publishBatch _ => cases h
  | publishKeyedConsistent _ _ => cases h
  | tryPublishBatch _ _ => cases h
  | tryPublish _ _ => cases h

/-- Calls without a key move on to the next partition. -/
def advance (s : Pipeline) : Producer.Call → Pipeline
  | .publish _ => { s with roundRobin := s.roundRobin + 1 }
  | .publishBatch _ => { s with roundRobin := s.roundRobin + 1 }
  | _ => s

def setPublisher (s : Pipeline) (i : ℕ) (b : Option Publisher) : Pipeline :=
  { s with publishers := Function.update s.publishers i b }

theorem setPublisher_self (s : Pipeline) (i : ℕ) (b : Option Publisher) :
  (s.setPublisher i b).publishers i = b
  := Function.update_self ..

theorem setPublisher_of_ne (s : Pipeline) {i j : ℕ} (h : j ≠ i) (b : Option Publisher) :
  (s.setPublisher i b).publishers j = s.publishers j
  := Function.update_of_ne h ..

/-- The log of a partition is replaced. -/
def setLog (s : Pipeline) (p : ℕ) (l : Log) : Pipeline :=
  { s with
    consuming := { s.consuming with
      topic := { s.consuming.topic with
        partition := Function.update s.consuming.topic.partition p l } } }

/-- A thread makes a call, unless it is in one. -/
def call (s : Pipeline) (i : ℕ) (c : Producer.Call) : Pipeline × Option Output :=
  match s.publishers i with
  | some _ => (s, none)
  | none =>
      match s.target hash c with
      | .error e => (s.advance c, some (.returned ⟨c, .error e, s.clock, s.clock⟩))
      | .ok index =>
          if 0 ≤ index ∧ index < s.numPartitions then
            ((s.advance c).setPublisher i (some ⟨c, index.toNat, .idle, s.clock⟩), none)
          else (s.advance c, some (.returned ⟨c, .error .outOfRange, s.clock, s.clock⟩))

/-- The partition of a thread, as the thread sees it. -/
def publishing (s : Pipeline) (b : Publisher) : Publishing where
  partition := ⟨s.consuming.topic.name, b.partition, s.consuming.topic.partition b.partition,
    s.maxLagRecords, s.flushPolicy⟩
  store := s.consuming.store
  stage := fun _ => b.stage

/-- A thread takes the next step of its call. -/
def proceed (s : Pipeline) (i : ℕ) (b : Publisher) (expired : Bool) : Pipeline × Option Output :=
  let r := (s.publishing b).step b.next
  let s' := s.setLog b.partition r.1.partition.log
  match r.2 with
  | none => (s'.setPublisher i (some { b with stage := r.1.stage 0 }), none)
  | some out =>
      match b.call.result b.partition expired out with
      | none => (s', none)
      | some result =>
          (s'.setPublisher i none, some (.returned ⟨b.call, result, b.calledAt, s.clock⟩))

/-- What a step does, before it is counted. -/
def act (s : Pipeline) : Action → Pipeline × Option Output
  | .consume action =>
      ({ s with consuming := (s.consuming.step action).1 },
        (s.consuming.step action).2.map .polled)
  | .call i c => s.call hash i c
  | .proceed i expired =>
      match s.publishers i with
      | none => (s, none)
      | some b => s.proceed i b expired

/-- One atomic step, and what comes out of it. -/
def step (s : Pipeline) (a : Action) : Pipeline × Option Output :=
  ({ (s.act hash a).1 with clock := s.clock + 1 }, (s.act hash a).2)

/-- The state after a list of steps. -/
def run (s : Pipeline) (actions : List Action) : Pipeline :=
  actions.foldl (fun s a => (s.step hash a).1) s

theorem run_append (s : Pipeline) (actions actions' : List Action) :
  s.run hash (actions ++ actions') = (s.run hash actions).run hash actions'
  := List.foldl_append

/-- What comes out in the course of a list of steps. -/
def outputs (s : Pipeline) : List Action → List Output
  | [] => []
  | a :: actions => (s.step hash a).2.toList ++ (s.step hash a).1.outputs actions

theorem outputs_append (s : Pipeline) (actions actions' : List Action) :
  s.outputs hash (actions ++ actions')
    = s.outputs hash actions ++ (s.run hash actions).outputs hash actions'
  := by
  induction actions generalizing s with
  | nil => rfl
  | cons a actions ih =>
      rw [List.cons_append, outputs, ih, outputs, List.append_assoc]
      rfl

end Steps

/-- The polls that have returned. -/
def polls (outputs : List Output) : List Polled :=
  outputs.filterMap (fun
    | .polled e => some e
    | .returned _ => none)

/-- The calls of the producer that have returned. -/
def calls (outputs : List Output) : List Returned :=
  outputs.filterMap (fun
    | .polled _ => none
    | .returned r => some r)

theorem polls_append (outputs outputs' : List Output) :
  polls (outputs ++ outputs') = polls outputs ++ polls outputs'
  := List.filterMap_append

theorem calls_append (outputs outputs' : List Output) :
  calls (outputs ++ outputs') = calls outputs ++ calls outputs'
  := List.filterMap_append

end Pipeline

/-! ### A step of a thread at its partition -/

/-- The operation on the log that comes next. -/
def Stage.op? (flushPolicy : FlushPolicy) : Stage → Option Op
  | .idle => none
  | .admitted p => some (.append p)
  | .admittedBatch payloads => some (.appendBatch payloads (flushPolicy = .perMessage))
  | .appended _ _ => some .flush

/-- The payloads after the operation that comes next. -/
def Stage.after (flushPolicy : FlushPolicy) (m : ℕ) (ps : List Payload) (stage : Stage) :
    List Payload :=
  (stage.op? flushPolicy).elim ps (fun op => (op.spec m ps).1)

/-- The stage is one of the call. -/
def Stage.Of (c : Producer.Call) : Stage → Prop
  | .idle => True
  | .admitted p => c.attempt = .tryPublish 0 p
  | .admittedBatch payloads => c.attempt = .tryPublishBatch 0 payloads
  | .appended p _ => c.attempt = .tryPublish 0 p

namespace Outcome

/-- The outcome is one of the call. -/
def Of (c : Producer.Call) : Outcome → Prop
  | .published p _ => c.attempt = .tryPublish 0 p
  | .publishedBatch payloads _ => c.attempt = .tryPublishBatch 0 payloads
  | .threw _ => True

/-- The offsets that are acknowledged increase. -/
theorem increasing (out : Outcome) :
  (out.acknowledged.map Prod.fst).Pairwise (· < ·)
  := by
  cases out with
  | published p offset => cases offset <;> simp [acknowledged]
  | publishedBatch payloads ack =>
      cases ack with
      | none => simp [acknowledged]
      | some ack =>
          rw [acknowledged, List.zip_eq_zip_take_min, List.map_fst_zip (by simp)]
          exact List.Pairwise.sublist (List.take_sublist ..) List.pairwise_lt_range'
  | threw e => simp [acknowledged]

end Outcome

theorem Producer.Call.attempt_cases (c : Call) :
  (∃ p, c.attempt = .tryPublish 0 p) ∨ ∃ payloads, c.attempt = .tryPublishBatch 0 payloads
  := by
  cases c with
  | publish p => exact Or.inl ⟨p, rfl⟩
  | publishKeyed _ p => exact Or.inl ⟨p, rfl⟩
  | publishKeyedConsistent _ p => exact Or.inl ⟨p, rfl⟩
  | publishBatch payloads => exact Or.inr ⟨payloads, rfl⟩
  | publishBatchKeyed _ payloads => exact Or.inr ⟨payloads, rfl⟩
  | tryPublishBatch _ payloads => exact Or.inr ⟨payloads, rfl⟩
  | tryPublish _ p => exact Or.inl ⟨p, rfl⟩

namespace Publishing

/-- A step of the call that makes of the payloads `ps` the payloads `qs`. Records that it appends
are behind those that were there, and what it acknowledges is there. -/
structure Advances (c : Producer.Call) (ps qs : List Payload) (stage : Stage)
    (r : Publishing × Option Outcome) : Prop where
  goesOn : r.2 = none → (r.1.stage 0).Of c
    ∧ ∀ p offset, r.1.stage 0 = .appended p offset → ps.length ≤ offset ∧ qs[offset]? = some p
  ends : ∀ out, r.2 = some out → out.Of c ∧ ∀ x ∈ out.acknowledged,
    (qs.map Payload.bytes)[x.1]? = some x.2
      ∧ (ps.length ≤ x.1 ∨ ∃ p, stage = .appended p x.1)

variable {q : Publishing} {c : Producer.Call} {ps : List Payload}

theorem Advances.of_none {qs : List Payload} {stage : Stage} {t : Publishing}
    (hof : (t.stage 0).Of c)
    (happended : ∀ p offset, t.stage 0 = .appended p offset →
      ps.length ≤ offset ∧ qs[offset]? = some p) :
  Advances c ps qs stage (t, none)
  := ⟨fun _ => ⟨hof, happended⟩, fun _ hout => by cases hout⟩

theorem Advances.of_some {qs : List Payload} {stage : Stage} {t : Publishing} {out : Outcome}
    (hof : out.Of c)
    (hacknowledged : ∀ x ∈ out.acknowledged, (qs.map Payload.bytes)[x.1]? = some x.2
      ∧ (ps.length ≤ x.1 ∨ ∃ p, stage = .appended p x.1)) :
  Advances c ps qs stage (t, some out)
  := by
  refine ⟨(fun h => by cases h), ?_⟩
  rintro _ ⟨⟩
  exact ⟨hof, hacknowledged⟩

theorem advances_attempt (h : q.stage 0 = .idle) (c : Producer.Call) (ps : List Payload) :
  (q.step c.attempt).1.partition = q.partition ∧ Advances c ps ps .idle (q.step c.attempt)
  := by
  rcases c.attempt_cases with ⟨p, hp⟩ | ⟨payloads, hpayloads⟩
  · rw [hp, step, h]
    dsimp only
    rw [tryPublish]
    split
    · exact ⟨rfl, .of_some hp (fun x hx => by cases hx)⟩
    · refine ⟨rfl, .of_none ?_ ?_⟩
      · rw [enter_stage_self]
        exact hp
      · intro p' offset hstage
        rw [enter_stage_self] at hstage
        cases hstage
  · rw [hpayloads, step, h]
    dsimp only
    rw [tryPublishBatch]
    split
    · exact ⟨rfl, .of_some hpayloads (fun x hx => by cases hx)⟩
    · split
      · exact ⟨rfl, .of_some hpayloads (fun x hx => by cases hx)⟩
      · refine ⟨rfl, .of_none ?_ ?_⟩
        · rw [enter_stage_self]
          exact hpayloads
        · intro p' offset hstage
          rw [enter_stage_self] at hstage
          cases hstage

theorem advances_append (hs : q.partition.log.Settled ps) {p : Payload}
    (hp : c.attempt = .tryPublish 0 p) :
  (q.append 0 p).1.partition.log = (Log.append p q.partition.log).final
    ∧ Advances c ps (appendSpec p q.partition.log.maxSegmentBytes ps).1 (.admitted p)
      (q.append 0 p)
  := by
  obtain ⟨-, hvalue, -⟩ := Log.append_refines p _ ps hs
  rw [appendSpec] at hvalue ⊢
  rw [append]
  split at hvalue
  · rename_i hfit
    rw [hvalue, if_pos hfit]
    have hat : (ps ++ [p])[ps.length]? = some p := List.getElem?_concat_length
    dsimp only
    split
    · refine ⟨rfl, .of_none ?_ ?_⟩
      · rw [enter_stage_self]
        exact hp
      · intro p' offset hstage
        rw [enter_stage_self] at hstage
        cases hstage
        exact ⟨le_rfl, hat⟩
    · refine ⟨rfl, .of_some hp ?_⟩
      intro x hx
      obtain rfl := List.mem_singleton.mp hx
      rw [List.getElem?_map, hat]
      exact ⟨rfl, Or.inl le_rfl⟩
  · rename_i hfit
    rw [hvalue, if_neg hfit]
    exact ⟨rfl, .of_some trivial (fun x hx => by cases hx)⟩

theorem advances_appendBatch (hs : q.partition.log.Settled ps) {payloads : List (List UInt8)}
    (hp : c.attempt = .tryPublishBatch 0 payloads) :
  (q.appendBatch 0 payloads).1.partition.log
      = (Log.appendBatch payloads (q.partition.flushPolicy = .perMessage) q.partition.log).final
    ∧ Advances c ps (appendBatchSpec payloads q.partition.log.maxSegmentBytes ps).1
      (.admittedBatch payloads) (q.appendBatch 0 payloads)
  := by
  obtain ⟨-, hvalue, -⟩ := Log.appendBatch_refines payloads
    (q.partition.flushPolicy = .perMessage) _ ps hs
  rw [appendBatchSpec] at hvalue ⊢
  rw [appendBatch]
  split at hvalue
  · rename_i hfit
    rw [hvalue, if_pos hfit]
    exact ⟨rfl, .of_some trivial (fun x hx => by cases hx)⟩
  · rename_i hfit
    rw [hvalue, if_neg hfit]
    refine ⟨rfl, .of_some hp ?_⟩
    intro x hx
    obtain ⟨k, hk, hpayload⟩ := Outcome.mem_acknowledged_batch hx
    rw [List.map_append, map_payloadOf_bytes hfit, hk, List.getElem?_append_right (by simp)]
    simpa using hpayload

theorem advances_flush {p : Payload} {offset : ℕ} (hp : c.attempt = .tryPublish 0 p)
    (hat : ps[offset]? = some p) :
  Advances c ps ps (.appended p offset) (q.flushAppended 0 p offset)
  := by
  refine Advances.of_some (show Outcome.Of c (.published p (some offset)) from hp) ?_
  intro x hx
  obtain rfl := List.mem_singleton.mp hx
  rw [List.getElem?_map, hat]
  exact ⟨rfl, Or.inr ⟨p, rfl⟩⟩

end Publishing

namespace Pipeline

variable {hash : String → UInt64} {s : Pipeline} {m : ℕ}

/-- What a thread does to its partition with its next step. -/
theorem publishing_step {b : Publisher} {ps : List Payload}
    (hs : (s.consuming.topic.partition b.partition).Settled ps)
    (hmax : (s.consuming.topic.partition b.partition).maxSegmentBytes = m)
    (hof : b.stage.Of b.call)
    (happended : ∀ p offset, b.stage = .appended p offset → ps[offset]? = some p) :
  ((s.publishing b).step b.next).1.partition.log
      = (b.stage.op? s.flushPolicy).elim (s.consuming.topic.partition b.partition)
        (fun op => (op.perform (s.consuming.topic.partition b.partition)).final)
    ∧ Publishing.Advances b.call ps (b.stage.after s.flushPolicy m ps) b.stage
      ((s.publishing b).step b.next)
  := by
  have hstage : (s.publishing b).stage 0 = b.stage := rfl
  rw [Publisher.next]
  cases hb : b.stage with
  | idle =>
      obtain ⟨hpartition, hadvances⟩ :=
        Publishing.advances_attempt (hstage.trans hb) b.call ps
      exact ⟨congrArg Partition.log hpartition, hadvances⟩
  | admitted p =>
      rw [hb] at hof hstage
      dsimp only
      rw [Publishing.step, hstage]
      obtain ⟨hlog, hadvances⟩ := Publishing.advances_append (q := s.publishing b) hs hof
      refine ⟨hlog.trans ?_, ?_⟩
      · exact (Crash.Program.final_map ..).symm
      · rw [Stage.after, Stage.op?, Option.elim_some, Op.spec, ← hmax]
        exact hadvances
  | admittedBatch payloads =>
      rw [hb] at hof hstage
      dsimp only
      rw [Publishing.step, hstage]
      obtain ⟨hlog, hadvances⟩ := Publishing.advances_appendBatch (q := s.publishing b) hs hof
      refine ⟨hlog.trans ?_, ?_⟩
      · exact (Crash.Program.final_map ..).symm
      · rw [Stage.after, Stage.op?, Option.elim_some, Op.spec, ← hmax]
        exact hadvances
  | appended p offset =>
      rw [hb] at hof hstage
      dsimp only
      rw [Publishing.step, hstage]
      refine ⟨?_, Publishing.advances_flush hof (happended p offset hb)⟩
      exact (Crash.Program.final_map ..).symm

/-- The steps of consumers and on logs that a step comes to. -/
def logActions (s : Pipeline) : Action → List Consuming.Action
  | .consume action => [action]
  | .call _ _ => []
  | .proceed i _ =>
      match s.publishers i with
      | none => []
      | some b => (b.stage.op? s.flushPolicy).toList.map (.publish b.partition)

/-- The steps of consumers and on logs that a list of steps comes to. -/
def logSteps (hash : String → UInt64) (s : Pipeline) : List Action → List Consuming.Action
  | [] => []
  | a :: actions => s.logActions a ++ (s.step hash a).1.logSteps hash actions

theorem logSteps_append (s : Pipeline) (actions actions' : List Action) :
  s.logSteps hash (actions ++ actions')
    = s.logSteps hash actions ++ (s.run hash actions).logSteps hash actions'
  := by
  induction actions generalizing s with
  | nil => rfl
  | cons a actions ih =>
      rw [List.cons_append, logSteps, ih, logSteps, List.append_assoc]
      rfl

theorem setLog_eq {p : ℕ} (hp : p < s.consuming.topic.numPartitions) (op : Option Op) :
  s.setLog p (op.elim (s.consuming.topic.partition p)
      (fun op => (op.perform (s.consuming.topic.partition p)).final))
    = { s with consuming := s.consuming.run (op.toList.map (.publish p)) }
  := by
  cases op with
  | none =>
      rw [Option.elim_none, setLog, Function.update_eq_self]
      rfl
  | some op =>
      have hrun : s.consuming.run [.publish p op] = s.consuming.publish p op := rfl
      rw [Option.toList_some, List.map_singleton, hrun, Consuming.publish, if_pos hp]
      rfl

theorem proceed_consuming (s : Pipeline) (i : ℕ) (b : Publisher) (expired : Bool) :
  (s.proceed i b expired).1.consuming
    = (s.setLog b.partition ((s.publishing b).step b.next).1.partition.log).consuming
  := by
  rw [proceed]
  split
  · rfl
  · split <;> rfl

theorem advance_consuming (s : Pipeline) (c : Producer.Call) :
  (s.advance c).consuming = s.consuming
  := by
  cases c <;> rfl

theorem call_consuming (s : Pipeline) (i : ℕ) (c : Producer.Call) :
  (s.call hash i c).1.consuming = s.consuming
  := by
  rw [call]
  split
  · rfl
  · split
    · apply advance_consuming
    · split <;> apply advance_consuming

variable (hash) in
theorem polls_call (s : Pipeline) (i : ℕ) (c : Producer.Call) :
  polls (s.call hash i c).2.toList = []
  := by
  rw [call]
  split
  · rfl
  · split
    · rfl
    · split <;> rfl

theorem polls_proceed (s : Pipeline) (i : ℕ) (b : Publisher) (expired : Bool) :
  polls (s.proceed i b expired).2.toList = []
  := by
  rw [proceed]
  split
  · rfl
  · split <;> rfl

theorem returns_publish (t : Consuming) (p : ℕ) (op : Option Op) :
  t.returns (op.toList.map (.publish p)) = []
  := by
  cases op <;> rfl

end Pipeline

end Broker
