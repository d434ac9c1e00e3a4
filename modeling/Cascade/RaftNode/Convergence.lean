import Cascade.RaftNode.Fsm

/-!
# Convergence of replicas

A node that is restored from a snapshot and then applies the rest of the log ends in the same
state as one that applies the whole log, and returns the same results, whatever their clocks show
and in whatever order the maps were visited. It takes that the leader assigned times to the
commands on brokers. Then all times in the state are whole milliseconds (`Fsm.Exact`), which is
what a snapshot keeps of them.
-/

open ControlPlane

namespace RaftNode

/-- The command does not read the clock. -/
def Command.Stamped (cmd : Command) : Prop :=
  CommandKind.ofString cmd.kind = .registerBroker ∨ CommandKind.ofString cmd.kind = .heartbeat →
    cmd.timestampMs ≠ 0

/-- If the entry is a command, it does not read the clock. -/
def Json.Stamped (json : Json) (data : List UInt8) : Prop :=
  ∀ cmd, json.unmarshalCommand data = .ok cmd → cmd.Stamped

namespace Fsm

variable {json : Json} {f : Fsm}

/-! ### Clocks -/

/-- What the clock shows does not matter to a command with a time. -/
theorem applyCommand_clock {cmd : Command} (h : cmd.Stamped) (now now' : Time) :
  f.applyCommand now cmd = f.applyCommand now' cmd
  := by
  rw [applyCommand, applyCommand]
  cases hkind : CommandKind.ofString cmd.kind with
  | createTopic => rfl
  | registerBroker =>
      have hstamp := h (.inl hkind)
      simp only [if_pos hstamp]
  | heartbeat =>
      have hstamp := h (.inr hkind)
      simp only [if_pos hstamp]
  | incrementCounter => rfl
  | registerNode => rfl
  | unknown => rfl

theorem apply_clock {data : List UInt8} (h : json.Stamped data) (now now' : Time) :
  f.apply json now data = f.apply json now' data
  := by
  rw [apply, apply]
  cases hdata : json.unmarshalCommand data with
  | error e => rfl
  | ok cmd => apply applyCommand_clock (h cmd hdata)

/-- What the clock shows does not matter to a list of commands with times. -/
theorem applyAll_clock {entries : List (List UInt8)} (h : ∀ data ∈ entries, json.Stamped data)
    (clock clock' : ℕ → Time) :
  f.applyAll json clock entries = f.applyAll json clock' entries
  := by
  induction entries generalizing f clock clock' with
  | nil => rfl
  | cons data entries ih =>
      rw [List.forall_mem_cons] at h
      simp only [applyAll]
      rw [apply_clock h.1 (clock 0) (clock' 0), ih h.2 _ (fun i => clock' (i + 1))]

theorem applyAll_append (clock : ℕ → Time) (pre suf : List (List UInt8)) :
  f.applyAll json clock (pre ++ suf)
    = (((f.applyAll json clock pre).1.applyAll json (fun i => clock (i + pre.length)) suf).1,
      (f.applyAll json clock pre).2
        ++ ((f.applyAll json clock pre).1.applyAll json (fun i => clock (i + pre.length)) suf).2)
  := by
  induction pre generalizing f clock with
  | nil => rfl
  | cons data pre ih =>
      simp only [List.cons_append, applyAll, ih, List.length_cons]
      rfl

theorem length_applyAll (clock : ℕ → Time) (entries : List (List UInt8)) :
  (f.applyAll json clock entries).2.length = entries.length
  := by
  induction entries generalizing f clock with
  | nil => rfl
  | cons data entries ih => simp only [applyAll, List.length_cons, ih]

end Fsm

/-! ### Whole milliseconds -/

/-- The last heartbeats are whole milliseconds. -/
def Exact (m : Membership) : Prop :=
  ∀ brokerId rec, m.brokers.find? brokerId = some rec →
    Time.ofUnixMilli rec.lastHeartbeat.unixMilli = rec.lastHeartbeat

namespace Exact

variable {m : Membership}

theorem new :
  Exact .new
  := fun _ _ h => nomatch h

/-- A record with a time in milliseconds may be stored. -/
theorem put (h : Exact m) (brokerId address : String) (msec : Int64) :
  Exact ⟨m.brokers.put ⟨brokerId, address, Time.ofUnixMilli msec⟩⟩
  := by
  intro id rec hrec
  by_cases hid : id = brokerId
  · subst hid
    obtain rfl := Option.some_inj.mp ((m.brokers.find?_put_self ⟨id, address, _⟩).symm.trans hrec)
    rw [Time.unixMilli_ofUnixMilli]
  · apply h id rec
    rw [← hrec]
    symm
    apply m.brokers.find?_put_of_ne hid

theorem heartbeatAt (h : Exact m) (brokerId : String) (msec : Int64) {m' : Membership}
    (hm : m.heartbeatAt brokerId (Time.ofUnixMilli msec) = some m') :
  Exact m'
  := by
  rw [Membership.heartbeatAt] at hm
  cases hrec : m.brokers.find? brokerId with
  | none =>
      rw [hrec] at hm
      exact nomatch hm
  | some rec =>
      simp only [hrec] at hm
      split at hm
      · obtain rfl := Option.some_inj.mp hm
        apply h.put
      · obtain rfl := Option.some_inj.mp hm
        apply h

/-- A command with a time keeps the times whole milliseconds. -/
theorem applyCommand {f : Fsm} (hf : Exact f.membership) {cmd : Command} (h : cmd.Stamped)
    (now : Time) :
  Exact (f.applyCommand now cmd).1.membership
  := by
  rw [Fsm.applyCommand]
  cases hkind : CommandKind.ofString cmd.kind with
  | createTopic =>
      simp only
      split
      · apply hf
      · apply hf
  | registerBroker =>
      simp only [if_pos (h (.inl hkind))]
      apply hf.put
  | heartbeat =>
      simp only [if_pos (h (.inr hkind))]
      split
      · apply hf
      · rename_i m' hm
        apply hf.heartbeatAt _ _ hm
  | incrementCounter => apply hf
  | registerNode => apply hf
  | unknown => apply hf

theorem applyAll {json : Json} {f : Fsm} (hf : Exact f.membership)
    {entries : List (List UInt8)} (h : ∀ data ∈ entries, json.Stamped data) (clock : ℕ → Time) :
  Exact (f.applyAll json clock entries).1.membership
  := by
  induction entries generalizing f clock with
  | nil => apply hf
  | cons data entries ih =>
      rw [List.forall_mem_cons] at h
      apply ih _ h.2
      rw [Fsm.apply]
      split
      · apply hf
      · rename_i cmd hcmd
        apply hf.applyCommand (h.1 cmd hcmd)

/-- The brokers of a snapshot are those of the state. -/
theorem restoreBrokers_snapshotBrokers (h : Exact m) (order : m.brokers.Order)
    (other : Membership) :
  other.restoreBrokers (m.snapshotBrokers order) = m
  := by
  have hlist : (m.snapshotBrokers order).map
      (fun e => (⟨e.brokerId, e.address, Time.ofUnixMilli e.lastHeartbeatUnix⟩ : BrokerRecord))
      = order.list := by
    rw [Membership.snapshotBrokers, List.map_map]
    conv_rhs => rw [← List.map_id order.list]
    apply List.map_congr_left
    intro rec hrec
    simp only [Function.comp_apply, h rec.brokerId rec ((order.mem rec).mp hrec), id]
  rw [Membership.restoreBrokers, hlist, Registry.ofList_order]

end Exact

namespace Fsm

/-- Restoring a snapshot of a state with whole milliseconds gives the state back. -/
theorem restore_snapshot {json : Json} {f : Fsm} (hf : Exact f.membership) (orders : f.Orders)
    {data : List UInt8} (h : json.decodeSnapshot data = .ok (f.snapshot orders)) (other : Fsm) :
  other.restore json data = .ok f
  := by
  have htopics : other.metadata.restoreTopics (f.metadata.snapshotTopics orders.topics)
      = f.metadata := by
    rw [MetadataStore.restoreTopics, MetadataStore.snapshotTopics, MetadataStore.listTopics,
      Registry.ofList_order]
  have hbrokers := hf.restoreBrokers_snapshotBrokers orders.brokers other.membership
  have hnodes := Registry.ofList_order orders.nodes
  rw [restore, h]
  simp only [bind, Except.bind, snapshot, htopics, hbrokers, hnodes]
  rfl

/-- A node that is restored from a snapshot of another and then applies the rest of the log ends
in the state, and returns the results, of a node that applies the whole log. -/
theorem snapshot_converges (json : Json) (pre suf : List (List UInt8))
    (hstamped : ∀ data ∈ pre ++ suf, json.Stamped data) (other : Fsm)
    (clock clock' clock'' : ℕ → Time)
    (orders : (new.applyAll json clock pre).1.Orders)
    (hround : json.RoundTrips ((new.applyAll json clock pre).1.snapshot orders)) :
  ∃ data restored, persist json ((new.applyAll json clock pre).1.snapshot orders) = .ok data
    ∧ other.restore json data = .ok restored
    ∧ (restored.applyAll json clock' suf).1 = (new.applyAll json clock'' (pre ++ suf)).1
    ∧ (restored.applyAll json clock' suf).2
      = (new.applyAll json clock'' (pre ++ suf)).2.drop pre.length
  := by
  obtain ⟨data, hmarshal, hdecode⟩ := hround
  have hpre : ∀ data ∈ pre, json.Stamped data :=
    fun data hdata => hstamped data (List.mem_append_left suf hdata)
  have hsuf : ∀ data ∈ suf, json.Stamped data :=
    fun data hdata => hstamped data (List.mem_append_right pre hdata)
  have hexact := Exact.new.applyAll (f := new) hpre clock
  use data, (new.applyAll json clock pre).1
  refine ⟨hmarshal, restore_snapshot hexact orders hdecode other, ?_⟩
  rw [applyAll_clock hstamped clock'' clock, applyAll_append,
    applyAll_clock hsuf clock' (fun i => clock (i + pre.length))]
  refine ⟨rfl, ?_⟩
  rw [List.drop_left' (length_applyAll clock pre)]

/-! ### Clocks -/

/-- Two nodes in the same state that apply the same entries, with times from the leader, stay in the
same state after each of them, and return the same results, whatever their clocks show. -/
theorem clocks_irrelevant (json : Json) {f g : Fsm} (hfg : f = g) {entries : List (List UInt8)}
    (hstamped : ∀ data ∈ entries, json.Stamped data) (clock clock' : ℕ → Time) (n : ℕ) :
  (f.applyAll json clock (entries.take n)).1 = (g.applyAll json clock' (entries.take n)).1
    ∧ (f.applyAll json clock (entries.take n)).2 = (g.applyAll json clock' (entries.take n)).2
  := by
  subst hfg
  have htake : ∀ data ∈ entries.take n, json.Stamped data :=
    fun data hdata => hstamped data (List.mem_of_mem_take hdata)
  rw [applyAll_clock htake clock clock']
  exact ⟨rfl, rfl⟩

/-! ### A run -/

/-- The bytes of a text. -/
def bytes (text : String) : List UInt8 := text.toUTF8.toList

/-- An entry that registers a broker. -/
def registerEntry : List UInt8 :=
  bytes ("\x7b\"kind\":\"register_broker\",\"broker_id\":\"b1\",\"address\":\"a1\","
    ++ "\"timestamp_ms\":1000\x7d")

/-- An entry with a heartbeat of this broker. -/
def heartbeatEntry : List UInt8 :=
  bytes "\x7b\"kind\":\"heartbeat\",\"broker_id\":\"b1\",\"timestamp_ms\":2000\x7d"

/-- The snapshot of the state after the first of these entries. -/
def registeredSnapshot : FsmSnapshot := ⟨[], [⟨"b1", "a1", 1000⟩], 0, []⟩

/-- The encoding of this snapshot. -/
def registeredSnapshotBytes : List UInt8 :=
  bytes ("\x7b\"topics\":[],\"brokers\":[\x7b\"broker_id\":\"b1\",\"address\":\"a1\","
    ++ "\"last_heartbeat_unix_ms\":1000\x7d],\"counter\":0,\"nodes\":[]\x7d")

/-- What `encoding/json` does with these entries and this snapshot. -/
def entriesJson : Json where
  unmarshalCommand data :=
    if data = registerEntry then
      .ok { kind := "register_broker", brokerId := "b1", address := "a1", timestampMs := 1000 }
    else if data = heartbeatEntry then
      .ok { kind := "heartbeat", brokerId := "b1", timestampMs := 2000 }
    else .error "unexpected end of JSON input"
  marshalSnapshot snap :=
    if snap = registeredSnapshot then .ok registeredSnapshotBytes
    else .error "json: unsupported value"
  decodeSnapshot data :=
    if data = registeredSnapshotBytes then .ok registeredSnapshot
    else .error "unexpected end of JSON input"

theorem entriesJson_stamped (data : List UInt8) :
  entriesJson.Stamped data
  := by
  intro cmd hcmd _
  simp only [entriesJson] at hcmd
  split at hcmd
  · obtain rfl := Except.ok.inj hcmd
    decide
  · split at hcmd
    · obtain rfl := Except.ok.inj hcmd
      decide
    · exact nomatch hcmd

/-- A broker is registered at the time of the leader on two nodes whose clocks differ. The last
entry is no command. -/
theorem clocks_irrelevant_register :
  (new.applyAll entriesJson (fun _ => ⟨7⟩) ([heartbeatEntry, registerEntry, []].take 3)).1
      = (new.applyAll entriesJson (fun i => ⟨i⟩) ([heartbeatEntry, registerEntry, []].take 3)).1
    ∧ (new.applyAll entriesJson (fun _ => ⟨7⟩) ([heartbeatEntry, registerEntry, []].take 3)).2
      = (new.applyAll entriesJson (fun i => ⟨i⟩) ([heartbeatEntry, registerEntry, []].take 3)).2
  := by
  apply clocks_irrelevant entriesJson rfl fun data _ => entriesJson_stamped data

/-- The state after the first entry. -/
def registered : Fsm :=
  { new with membership := ⟨Registry.empty.put ⟨"b1", "a1", Time.ofUnixMilli 1000⟩⟩ }

theorem registered_roundTrips {f : Fsm} (hf : f = registered) :
  ∃ orders : f.Orders, entriesJson.RoundTrips (f.snapshot orders)
  := by
  subst hf
  let orders : registered.Orders := ⟨.nil, .cons .nil rfl, .nil⟩
  have hsnapshot : registered.snapshot orders = registeredSnapshot := by decide +kernel
  use orders, registeredSnapshotBytes
  rw [hsnapshot]
  simp only [entriesJson, if_true, and_self]

/-- A broker that is registered before the snapshot, and whose heartbeat comes after it. -/
theorem snapshot_converges_heartbeat :
  ∃ orders : (new.applyAll entriesJson (fun _ => ⟨7⟩) [registerEntry]).1.Orders,
    ∃ data restored, persist entriesJson
        ((new.applyAll entriesJson (fun _ => ⟨7⟩) [registerEntry]).1.snapshot orders) = .ok data
      ∧ registered.restore entriesJson data = .ok restored
      ∧ (restored.applyAll entriesJson (fun _ => ⟨8⟩) [heartbeatEntry]).1
        = (new.applyAll entriesJson (fun _ => ⟨9⟩) ([registerEntry] ++ [heartbeatEntry])).1
      ∧ (restored.applyAll entriesJson (fun _ => ⟨8⟩) [heartbeatEntry]).2
        = (new.applyAll entriesJson (fun _ => ⟨9⟩) ([registerEntry] ++ [heartbeatEntry])).2.drop
          [registerEntry].length
  := by
  have hstate : (new.applyAll entriesJson (fun _ => ⟨7⟩) [registerEntry]).1 = registered := by
    decide +kernel
  obtain ⟨orders, hround⟩ := registered_roundTrips hstate
  use orders
  apply snapshot_converges entriesJson [registerEntry] [heartbeatEntry]
    (fun data _ => entriesJson_stamped data) registered _ _ _ orders hround

end Fsm

end RaftNode
