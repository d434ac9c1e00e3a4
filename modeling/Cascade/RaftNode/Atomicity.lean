import Cascade.RaftNode.Heartbeats

/-!
# What an entry of the log changes

An entry is refused, and then nothing changes, or it changes the one component of the state that
it names, at the key that it names (`Fsm.apply_outcome`).

From this follows which topics there are. They are determined by the entries that have been applied
(`Fsm.Reached.find?_topics`): for each name, the first one that creates a topic of this name with a
positive number of partitions. It does not matter how a node came to its state, by applying the
entries or from a snapshot of another node that had applied as many.
-/

open ControlPlane

namespace RaftNode

namespace Fsm

variable {json : Json}

/-! ### One entry -/

/-- An entry is refused if it is malformed or of an unknown kind, if it would create a topic that
exists or one without a positive number of partitions, or if it is a heartbeat of a broker that is
not registered. -/
def Refused (json : Json) (f : Fsm) (data : List UInt8) : Prop :=
  match json.unmarshalCommand data with
  | .error _ => True
  | .ok cmd =>
      match CommandKind.ofString cmd.kind with
      | .createTopic =>
          f.metadata.topics.find? cmd.topicName ≠ none ∨ cmd.numPartitions ≤ 0
      | .heartbeat => f.membership.brokers.find? cmd.brokerId = none
      | .unknown => True
      | _ => False

/-- What applying an entry may do. -/
inductive Outcome (json : Json) (f : Fsm) (data : List UInt8) : Fsm × ApplyResult → Prop
  | refused {err : String} (h : Refused json f data) : Outcome json f data (f, { err := some err })
  | topic {cmd : Command} (hdata : json.unmarshalCommand data = .ok cmd)
      (hkind : CommandKind.ofString cmd.kind = .createTopic)
      (hnone : f.metadata.topics.find? cmd.topicName = none) (hcount : ¬ cmd.numPartitions ≤ 0) :
      Outcome json f data
        ({ f with metadata := ⟨f.metadata.topics.put ⟨cmd.topicName, cmd.numPartitions⟩⟩ }, {})
  | broker {cmd : Command} {rec : BrokerRecord} (hdata : json.unmarshalCommand data = .ok cmd)
      (hkind : CommandKind.ofString cmd.kind = .registerBroker
        ∨ CommandKind.ofString cmd.kind = .heartbeat)
      (hheard : CommandKind.ofString cmd.kind = .heartbeat →
        f.membership.brokers.find? cmd.brokerId ≠ none)
      (hid : rec.brokerId = cmd.brokerId) :
      Outcome json f data ({ f with membership := ⟨f.membership.brokers.put rec⟩ }, {})
  | counter {cmd : Command} (hdata : json.unmarshalCommand data = .ok cmd)
      (hkind : CommandKind.ofString cmd.kind = .incrementCounter) :
      Outcome json f data ({ f with counter := f.counter + 1 }, { value := f.counter + 1 })
  | node {cmd : Command} (hdata : json.unmarshalCommand data = .ok cmd)
      (hkind : CommandKind.ofString cmd.kind = .registerNode) :
      Outcome json f data
        ({ f with nodes := f.nodes.put ⟨cmd.nodeId, cmd.raftAddr, cmd.grpcAddr⟩ }, {})

variable {data : List UInt8}

theorem outcome_createTopic {f : Fsm} {cmd : Command} (hdata : json.unmarshalCommand data = .ok cmd)
    (hkind : CommandKind.ofString cmd.kind = .createTopic) (now : Time) :
  Outcome json f data (f.applyCommand now cmd)
  := by
  rw [applyCommand, hkind]
  dsimp only
  cases hcreate : f.metadata.createTopic cmd.topicName cmd.numPartitions with
  | ok metadata =>
      obtain ⟨hnone, hcount, rfl⟩ := MetadataStore.createTopic_eq_ok hcreate
      exact .topic hdata hkind hnone hcount
  | error e =>
      apply Outcome.refused
      simp only [Refused, hdata, hkind]
      by_contra haccepted
      rw [not_or, ne_eq, not_not] at haccepted
      rw [MetadataStore.createTopic, haccepted.1] at hcreate
      simp only [if_neg haccepted.2] at hcreate
      cases hcreate

theorem outcome_heartbeat {f : Fsm} {cmd : Command} (hdata : json.unmarshalCommand data = .ok cmd)
    (hkind : CommandKind.ofString cmd.kind = .heartbeat) (now : Time) :
  Outcome json f data (f.applyCommand now cmd)
  := by
  rw [applyCommand, hkind]
  dsimp only
  cases hrec : f.membership.brokers.find? cmd.brokerId with
  | none =>
      simp only [Membership.heartbeatAt, Membership.heartbeat, hrec, ite_self]
      apply Outcome.refused
      simp only [Refused, hdata, hkind, hrec]
  | some rec =>
      have hid := Registry.key_of_find? hrec
      have hheard : CommandKind.ofString cmd.kind = .heartbeat →
          f.membership.brokers.find? cmd.brokerId ≠ none := by
        intro _
        rw [hrec]
        exact Option.some_ne_none _
      have hput : ∃ rec' : BrokerRecord, rec'.brokerId = cmd.brokerId
          ∧ (if cmd.timestampMs ≠ 0 then
              f.membership.heartbeatAt cmd.brokerId (Time.ofUnixMilli cmd.timestampMs)
            else f.membership.heartbeat cmd.brokerId now)
              = some ⟨f.membership.brokers.put rec'⟩ := by
        split
        · rw [Membership.heartbeatAt_eq, hrec]
          refine ⟨_, ?_, rfl⟩
          exact hid
        · rw [Membership.heartbeat, hrec]
          refine ⟨_, ?_, rfl⟩
          exact hid
      obtain ⟨rec', hid', hnoted⟩ := hput
      rw [hnoted]
      exact .broker hdata (.inr hkind) hheard hid'

/-- Applying an entry does one of these. -/
theorem apply_outcome (json : Json) (f : Fsm) (data : List UInt8) (now : Time) :
  Outcome json f data (f.apply json now data)
  := by
  rw [apply]
  cases hdata : json.unmarshalCommand data with
  | error e =>
      apply Outcome.refused
      simp only [Refused, hdata]
  | ok cmd =>
      dsimp only
      cases hkind : CommandKind.ofString cmd.kind with
      | createTopic => exact outcome_createTopic hdata hkind now
      | heartbeat => exact outcome_heartbeat hdata hkind now
      | registerBroker =>
          have hheard : CommandKind.ofString cmd.kind = .heartbeat →
              f.membership.brokers.find? cmd.brokerId ≠ none := by
            intro hbeat
            rw [hkind] at hbeat
            cases hbeat
          simp only [applyCommand, hkind]
          split
          · exact .broker hdata (.inl hkind) hheard rfl
          · exact .broker hdata (.inl hkind) hheard rfl
      | incrementCounter =>
          simp only [applyCommand, hkind]
          exact .counter hdata hkind
      | registerNode =>
          simp only [applyCommand, hkind]
          exact .node hdata hkind
      | unknown =>
          simp only [applyCommand, hkind]
          apply Outcome.refused
          simp only [Refused, hdata, hkind]

/-- Two states differ at most in the component that a command names, and there at most at the key
that it names. -/
def OnlyChanges (cmd : Command) (f g : Fsm) : Prop :=
  match CommandKind.ofString cmd.kind with
  | .createTopic => g = { f with metadata := g.metadata }
      ∧ ∀ name ≠ cmd.topicName, g.metadata.topics.find? name = f.metadata.topics.find? name
  | .registerBroker => g = { f with membership := g.membership }
      ∧ ∀ id ≠ cmd.brokerId, g.membership.brokers.find? id = f.membership.brokers.find? id
  | .heartbeat => g = { f with membership := g.membership }
      ∧ ∀ id ≠ cmd.brokerId, g.membership.brokers.find? id = f.membership.brokers.find? id
  | .incrementCounter => g = { f with counter := g.counter }
  | .registerNode => g = { f with nodes := g.nodes }
      ∧ ∀ id ≠ cmd.nodeId, g.nodes.find? id = f.nodes.find? id
  | .unknown => g = f

/-- If there is an error, nothing changes. -/
theorem Outcome.refused_of_err {f g : Fsm} {result : ApplyResult}
    (h : Outcome json f data (g, result)) (herr : result.err ≠ none) :
  Refused json f data ∧ g = f
  := by
  cases h with
  | refused h => exact ⟨h, rfl⟩
  | topic => exact absurd rfl herr
  | broker => exact absurd rfl herr
  | counter => exact absurd rfl herr
  | node => exact absurd rfl herr

/-- Otherwise the entry is a command that changes what it names. -/
theorem Outcome.onlyChanges {f g : Fsm} {result : ApplyResult} (h : Outcome json f data (g, result))
    (herr : result.err = none) :
  ¬ Refused json f data ∧ ∃ cmd, json.unmarshalCommand data = .ok cmd ∧ OnlyChanges cmd f g
  := by
  cases h with
  | refused => cases herr
  | topic hdata hkind hnone hcount =>
      refine ⟨?_, _, hdata, ?_⟩
      · simp only [Refused, hdata, hkind]
        rintro (hexists | hle)
        · exact hexists hnone
        · exact hcount hle
      · simp only [OnlyChanges, hkind]
        refine ⟨trivial, ?_⟩
        intro name hname
        exact f.metadata.topics.find?_put_of_ne hname
  | @broker cmd rec hdata hkind hheard hid =>
      have hothers : ∀ id ≠ cmd.brokerId,
          (f.membership.brokers.put rec).find? id = f.membership.brokers.find? id := by
        intro id hne
        apply f.membership.brokers.find?_put_of_ne
        rwa [hid]
      refine ⟨?_, cmd, hdata, ?_⟩
      · rcases hkind with hkind | hkind
        · simp only [Refused, hdata, hkind, not_false_eq_true]
        · simp only [Refused, hdata, hkind]
          exact hheard hkind
      · rcases hkind with hkind | hkind
        · simp only [OnlyChanges, hkind]
          exact ⟨trivial, hothers⟩
        · simp only [OnlyChanges, hkind]
          exact ⟨trivial, hothers⟩
  | counter hdata hkind =>
      refine ⟨?_, _, hdata, ?_⟩
      · simp only [Refused, hdata, hkind, not_false_eq_true]
      · simp only [OnlyChanges, hkind]
  | node hdata hkind =>
      refine ⟨?_, _, hdata, ?_⟩
      · simp only [Refused, hdata, hkind, not_false_eq_true]
      · simp only [OnlyChanges, hkind]
        refine ⟨trivial, ?_⟩
        intro id hid
        exact f.nodes.find?_put_of_ne hid

/-! ### The topics of a log -/

/-- The topic that an entry would create. -/
def creation? (json : Json) (data : List UInt8) : Option Topic :=
  match json.unmarshalCommand data with
  | .error _ => none
  | .ok cmd =>
      if CommandKind.ofString cmd.kind = .createTopic ∧ 0 < cmd.numPartitions then
        some ⟨cmd.topicName, cmd.numPartitions⟩
      else none

/-- The first creation of a topic of a name. -/
def firstCreation? (json : Json) (entries : List (List UInt8)) (name : String) : Option Topic :=
  (entries.filterMap (creation? json)).find? fun topic => topic.name = name

theorem creation?_eq_some {topic : Topic} :
  creation? json data = some topic ↔
    ∃ cmd, json.unmarshalCommand data = .ok cmd ∧ CommandKind.ofString cmd.kind = .createTopic
      ∧ 0 < cmd.numPartitions ∧ ⟨cmd.topicName, cmd.numPartitions⟩ = topic
  := by
  rw [creation?]
  cases hdata : json.unmarshalCommand data with
  | error e => simp
  | ok cmd =>
      simp only [Option.ite_none_right_eq_some, Option.some_inj, Except.ok.injEq, exists_eq_left',
        and_assoc]

/-- An entry that would create no topic changes none. -/
theorem metadata_apply_of_none (h : creation? json data = none) (f : Fsm) (now : Time) :
  (f.apply json now data).1.metadata = f.metadata
  := by
  generalize happly : f.apply json now data = r
  have houtcome := apply_outcome json f data now
  rw [happly] at houtcome
  cases houtcome with
  | refused => rfl
  | topic hdata hkind _ hcount =>
      have hsome := creation?_eq_some.mpr ⟨_, hdata, hkind, Int32.not_le.mp hcount, rfl⟩
      rw [h] at hsome
      cases hsome
  | broker => rfl
  | counter => rfl
  | node => rfl

/-- One that would create a topic does so if there is none of that name. -/
theorem apply_of_creation {topic : Topic} (h : creation? json data = some topic) (f : Fsm)
    (now : Time) :
  (f.metadata.topics.find? topic.name = none
      ∧ f.apply json now data = ({ f with metadata := ⟨f.metadata.topics.put topic⟩ }, {}))
    ∨ (f.metadata.topics.find? topic.name ≠ none ∧ (f.apply json now data).1 = f
      ∧ (f.apply json now data).2.err ≠ none)
  := by
  obtain ⟨cmd, hdata, hkind, hcount, rfl⟩ := creation?_eq_some.mp h
  rw [apply, hdata]
  simp only [applyCommand, hkind, MetadataStore.createTopic]
  cases hfind : f.metadata.topics.find? cmd.topicName with
  | some topic => exact .inr ⟨Option.some_ne_none _, rfl, Option.some_ne_none _⟩
  | none =>
      simp only [if_neg (Int32.not_le.mpr hcount)]
      exact .inl ⟨trivial, trivial⟩

/-- An entry adds the topic that it would create, unless there is one of that name. -/
theorem find?_topics_apply (f : Fsm) (data : List UInt8) (now : Time) (name : String) :
  (f.apply json now data).1.metadata.topics.find? name
    = (f.metadata.topics.find? name).or (firstCreation? json [data] name)
  := by
  cases hcreation : creation? json data with
  | none =>
      rw [metadata_apply_of_none hcreation, firstCreation?,
        List.filterMap_cons_none hcreation, List.filterMap_nil, List.find?_nil, Option.or_none]
  | some topic =>
      rw [firstCreation?, List.filterMap_cons_some hcreation, List.filterMap_nil]
      by_cases hname : topic.name = name
      · subst hname
        rw [List.find?_cons_of_pos (by simp)]
        rcases apply_of_creation hcreation f now with ⟨hnone, happly⟩ | ⟨hsome, hsame, -⟩
        · rw [happly, hnone, Option.none_or]
          exact f.metadata.topics.find?_put_self topic
        · obtain ⟨topic', hfind⟩ := Option.ne_none_iff_exists'.mp hsome
          rw [hsame, hfind, Option.some_or]
      · rw [List.find?_cons_of_neg (by simpa using hname), List.find?_nil, Option.or_none]
        rcases apply_of_creation hcreation f now with ⟨-, happly⟩ | ⟨-, hsame, -⟩
        · rw [happly]
          exact f.metadata.topics.find?_put_of_ne (Ne.symm hname)
        · rw [hsame]

theorem firstCreation?_append (entries entries' : List (List UInt8)) (name : String) :
  firstCreation? json (entries ++ entries') name
    = (firstCreation? json entries name).or (firstCreation? json entries' name)
  := by
  rw [firstCreation?, List.filterMap_append, List.find?_append]
  rfl

/-- The first creation stays the first one in a longer log. -/
theorem firstCreation?_mono {log : List (List UInt8)} {n n' : ℕ} (hle : n ≤ n') {name : String}
    {topic : Topic} (h : firstCreation? json (log.take n) name = some topic) :
  firstCreation? json (log.take n') name = some topic
  := by
  obtain ⟨later, hlater⟩ : log.take n <+: log.take n' := List.take_prefix_take_left hle
  rw [← hlater, firstCreation?_append, h, Option.some_or]

theorem firstCreation?_pos {entries : List (List UInt8)} {name : String} {topic : Topic}
    (h : firstCreation? json entries name = some topic) :
  0 < topic.numPartitions
  := by
  obtain ⟨data, -, hdata⟩ := List.mem_filterMap.mp (List.mem_of_find?_eq_some h)
  obtain ⟨cmd, -, -, hcount, rfl⟩ := creation?_eq_some.mp hdata
  exact hcount

theorem firstCreation?_eq_none {log : List (List UInt8)} {n : ℕ} {name : String} :
  firstCreation? json (log.take n) name = none ↔
    ∀ i < n, ∀ data cmd, log[i]? = some data → json.unmarshalCommand data = .ok cmd →
      CommandKind.ofString cmd.kind = .createTopic → cmd.topicName = name →
      ¬ 0 < cmd.numPartitions
  := by
  rw [firstCreation?, List.find?_eq_none]
  constructor
  · intro h i hi data cmd hlog hdata hkind hname hcount
    have hmem : data ∈ log.take n := by
      apply List.mem_of_getElem? (i := i)
      rw [List.getElem?_take_of_lt hi, hlog]
    have hcreation := creation?_eq_some.mpr ⟨cmd, hdata, hkind, hcount, rfl⟩
    apply h _ (List.mem_filterMap.mpr ⟨data, hmem, hcreation⟩)
    simpa using hname
  · intro h topic htopic hname
    obtain ⟨data, hmem, hcreation⟩ := List.mem_filterMap.mp htopic
    obtain ⟨cmd, hdata, hkind, hcount, rfl⟩ := creation?_eq_some.mp hcreation
    obtain ⟨i, hi⟩ := List.mem_iff_getElem?.mp hmem
    rw [List.getElem?_take] at hi
    split at hi
    · next hlt => exact h i hlt data cmd hi hdata hkind (by simpa using hname) hcount
    · cases hi

/-! ### Nodes -/

/-- Restore a snapshot: the state afterwards, and the error. -/
def restoreFrom (json : Json) (f : Fsm) (data : List UInt8) : Fsm × Option String :=
  match f.restore json data with
  | .ok g => (g, none)
  | .error e => (f, some e)

/-- The states that a node can be in after `n` entries of a log. It applies the next entry, or is
restored from a snapshot of a node that has applied at least as many, or tries to restore what is
no snapshot. -/
inductive Reached (json : Json) (log : List (List UInt8)) : ℕ → Fsm → Prop
  | new : Reached json log 0 new
  | applied {n : ℕ} {f : Fsm} {data : List UInt8} (now : Time) (hf : Reached json log n f)
      (hdata : log[n]? = some data) :
      Reached json log (n + 1) (f.apply json now data).1
  | restored {n k : ℕ} {f g : Fsm} {orders : g.Orders} {data : List UInt8}
      (hf : Reached json log n f) (hg : Reached json log k g) (hle : n ≤ k)
      (hdata : json.decodeSnapshot data = .ok (g.snapshot orders)) :
      Reached json log k (f.restoreFrom json data).1
  | failed {n : ℕ} {f : Fsm} {data : List UInt8} {e : String} (hf : Reached json log n f)
      (hdata : json.decodeSnapshot data = .error e) :
      Reached json log n (f.restoreFrom json data).1

theorem restoreFrom_error {e : String} (h : json.decodeSnapshot data = .error e) (f : Fsm) :
  f.restoreFrom json data = (f, some e)
  := by
  rw [restoreFrom, restore, h]
  rfl

theorem metadata_restoreFrom {f g : Fsm} {orders : g.Orders}
    (h : json.decodeSnapshot data = .ok (g.snapshot orders)) :
  (f.restoreFrom json data).1.metadata = g.metadata
  := by
  rw [restoreFrom, restore, h]
  exact congrArg MetadataStore.mk (Registry.ofList_order orders.topics)

/-- The topics of a node are the first creations of the entries that it has applied. -/
theorem Reached.find?_topics {log : List (List UInt8)} {n : ℕ} {f : Fsm}
    (h : Reached json log n f) (name : String) :
  f.metadata.topics.find? name = firstCreation? json (log.take n) name
  := by
  induction h with
  | new => rfl
  | applied now hf hdata ih =>
      rw [find?_topics_apply, ih, List.take_add_one, hdata, firstCreation?_append]
      rfl
  | restored hf hg hle hdata ihf ihg => rw [metadata_restoreFrom hdata, ihg]
  | failed hf hdata ih => rw [restoreFrom_error hdata, ih]

/-- An entry that is refused changes nothing; another one changes only what it names. So for each
name the first entry that creates a topic with a positive number of partitions succeeds and no other
one does, on every node and with snapshots in between, and what it has created stays. A snapshot
that does not decode changes nothing. -/
theorem apply_atomic (json : Json) :
  (∀ (f : Fsm) data now,
    ((f.apply json now data).2.err ≠ none ↔ Refused json f data)
      ∧ ((f.apply json now data).2.err ≠ none → (f.apply json now data).1 = f)
      ∧ ((f.apply json now data).2.err = none →
        ∃ cmd, json.unmarshalCommand data = .ok cmd ∧ OnlyChanges cmd f (f.apply json now data).1))
  ∧ (∀ log n f, Reached json log n f →
    (∀ name topic, f.metadata.topics.find? name = some topic →
      0 < topic.numPartitions
        ∧ ∀ n' g, n ≤ n' → Reached json log n' g → g.metadata.topics.find? name = some topic)
    ∧ ∀ data cmd now, log[n]? = some data → json.unmarshalCommand data = .ok cmd →
      CommandKind.ofString cmd.kind = .createTopic →
      ((f.apply json now data).2.err = none ↔ 0 < cmd.numPartitions
        ∧ ∀ i < n, ∀ data' cmd', log[i]? = some data' → json.unmarshalCommand data' = .ok cmd' →
          CommandKind.ofString cmd'.kind = .createTopic → cmd'.topicName = cmd.topicName →
          ¬ 0 < cmd'.numPartitions))
  ∧ ∀ (f : Fsm) data e, json.decodeSnapshot data = .error e → f.restoreFrom json data = (f, some e)
  := by
  have hrefused : ∀ (f : Fsm) data now,
      (f.apply json now data).2.err ≠ none ↔ Refused json f data := by
    intro f data now
    have houtcome := apply_outcome json f data now
    constructor
    · intro herr
      exact (houtcome.refused_of_err herr).1
    · intro h herr
      exact (houtcome.onlyChanges herr).1 h
  refine ⟨?_, ?_, fun f data e h => restoreFrom_error h f⟩
  · intro f data now
    have houtcome := apply_outcome json f data now
    exact ⟨hrefused f data now, fun herr => (houtcome.refused_of_err herr).2,
      fun herr => (houtcome.onlyChanges herr).2⟩
  · intro log n f hf
    refine ⟨?_, ?_⟩
    · intro name topic hfind
      rw [hf.find?_topics] at hfind
      refine ⟨firstCreation?_pos hfind, ?_⟩
      intro n' g hle hg
      rw [hg.find?_topics]
      exact firstCreation?_mono hle hfind
    · intro data cmd now hlog hdata hkind
      rw [← firstCreation?_eq_none, ← hf.find?_topics, ← not_iff_not, ← ne_eq, hrefused, Refused,
        hdata]
      simp only [hkind, not_and_or, Int32.not_lt]
      exact or_comm

end Fsm

end RaftNode
