import Cascade.RaftNode.Convergence
import Cascade.Replicated.Server

/-!
# Two servers, one service

The server of one process and a replicated server that is always the leader give the same
responses. They note heartbeats in different ways: the former takes the time of its clock, and the
latter keeps the time that it has unless the leader's is later. As the clock does not go back, the
last heartbeats are not later than what it shows (`Agree`), and the two ways are the same.
-/

open ControlPlane RaftNode

namespace Replicated

/-- Two servers hold the same, and no heartbeat is later than the time in milliseconds. -/
structure Agree (now : Int64) (s : Server) (f : Fsm) : Prop where
  metadata : f.metadata = s.metadata
  membership : f.membership = s.membership
  noted : ∀ brokerId rec, s.membership.brokers.find? brokerId = some rec →
    ¬ rec.lastHeartbeat.After (.ofUnixMilli now)

/-- A time after the Unix epoch is taken for one that is set. -/
theorem timestampMs_ne_zero {now : Int64} (hpos : 0 < now) :
  now ≠ 0
  := by
  rintro rfl
  exact absurd hpos (by decide)

/-- A later time is also not before the heartbeats. -/
theorem not_after_mono {now now' : Int64} (hle : now ≤ now') {t : Time}
    (h : ¬ t.After (.ofUnixMilli now)) :
  ¬ t.After (.ofUnixMilli now')
  := by
  rw [Int64.le_iff_toInt_le] at hle
  simp only [Time.After, Time.ofUnixMilli, not_lt] at h ⊢
  omega

/-- If the time is not before the last heartbeat, it does not matter in which way the heartbeat is
noted. -/
theorem heartbeatAt_eq_heartbeat {m : Membership} {brokerId : String} {now : Time}
    (hnoted : ∀ rec, m.brokers.find? brokerId = some rec → ¬ rec.lastHeartbeat.After now) :
  m.heartbeatAt brokerId now = m.heartbeat brokerId now
  := by
  rw [Membership.heartbeatAt, Membership.heartbeat]
  cases hrec : m.brokers.find? brokerId with
  | none => rfl
  | some rec =>
      dsimp only
      split
      · rfl
      · rename_i hnot
        -- Neither of the times is after the other one.
        have heq : rec.lastHeartbeat = now := by
          have hle := hnoted rec hrec
          obtain ⟨t⟩ := now
          rcases rec with ⟨_, _, ⟨u⟩⟩
          simp only [Time.After, not_lt] at hnot hle
          exact congrArg Time.mk (le_antisymm hle hnot)
        obtain rfl := Registry.key_of_find? hrec
        rw [← heq, Registry.put_of_find? hrec]

namespace Agree

variable {json : Json} {timeout : Duration} {consensus : Consensus} {now now' : Int64} {s : Server}
  {f : Fsm}

/-- The clock goes on. -/
theorem mono (h : Agree now s f) (hle : now ≤ now') :
  Agree now' s f
  := by
  refine ⟨h.metadata, h.membership, fun brokerId rec hrec => ?_⟩
  exact not_after_mono hle (h.noted brokerId rec hrec)

/-- A broker was heard of at this time. -/
theorem put {m : Membership}
    (hnoted : ∀ brokerId rec, m.brokers.find? brokerId = some rec →
      ¬ rec.lastHeartbeat.After (.ofUnixMilli now)) (brokerId address : String) :
  ∀ brokerId' rec,
    (m.brokers.put ⟨brokerId, address, .ofUnixMilli now⟩).find? brokerId' = some rec →
    ¬ rec.lastHeartbeat.After (.ofUnixMilli now)
  := by
  intro brokerId' rec hrec
  rcases eq_or_ne brokerId' brokerId with rfl | hne
  · obtain rfl := Option.some_inj.mp
      ((m.brokers.find?_put_self ⟨brokerId', address, _⟩).symm.trans hrec)
    exact lt_irrefl _
  · rw [m.brokers.find?_put_of_ne hne] at hrec
    exact hnoted brokerId' rec hrec

/-! ### Requests -/

theorem createTopic (h : Agree now s f) (hleads : consensus.Leads) (name : String)
    (numPartitions : Int32) :
  let r := Replicated.createTopic json consensus (.ofUnixMilli now) f name numPartitions
  Agree now (s.createTopic name numPartitions).1 r.1
    ∧ r.2 = .ok (s.createTopic name numPartitions).2
  := by
  intro r
  simp only [r, Replicated.createTopic, propose_leads hleads, Fsm.applyCommand_createTopic,
    Server.createTopic, h.metadata]
  cases s.metadata.createTopic name numPartitions with
  | error e => exact ⟨h, rfl⟩
  | ok metadata => exact ⟨⟨rfl, h.membership, h.noted⟩, rfl⟩

theorem registerBroker (h : Agree now s f) (hpos : 0 < now) (hleads : consensus.Leads)
    (brokerId address : String) :
  let r := Replicated.registerBroker json consensus (.ofUnixMilli now) f brokerId address
  Agree now (s.registerBroker (.ofUnixMilli now) brokerId address).1 r.1
    ∧ r.2 = .ok (s.registerBroker (.ofUnixMilli now) brokerId address).2
  := by
  intro r
  simp only [r, Replicated.registerBroker, propose_leads hleads,
    Fsm.applyCommand_registerBroker _ _ _ _ (timestampMs_ne_zero hpos), Time.unixMilli_ofUnixMilli,
    Server.registerBroker, h.membership]
  exact ⟨⟨h.metadata, rfl, put h.noted brokerId address⟩, rfl⟩

theorem heartbeat (h : Agree now s f) (hpos : 0 < now) (hleads : consensus.Leads)
    (brokerId : String) :
  let r := Replicated.heartbeat json consensus (.ofUnixMilli now) f brokerId
  Agree now (s.heartbeat (.ofUnixMilli now) brokerId).1 r.1
    ∧ r.2 = .ok (s.heartbeat (.ofUnixMilli now) brokerId).2
  := by
  intro r
  simp only [r, Replicated.heartbeat, propose_leads hleads,
    Fsm.applyCommand_heartbeat _ _ _ (timestampMs_ne_zero hpos), Time.unixMilli_ofUnixMilli,
    Server.heartbeat, h.membership, heartbeatAt_eq_heartbeat (h.noted brokerId)]
  cases hrec : s.membership.brokers.find? brokerId with
  | none =>
      have hnone : s.membership.heartbeat brokerId (.ofUnixMilli now) = none := by
        rw [Membership.heartbeat, hrec]
      rw [hnone]
      exact ⟨h, rfl⟩
  | some rec =>
      have hsome : s.membership.heartbeat brokerId (.ofUnixMilli now)
          = some ⟨s.membership.brokers.put ⟨rec.brokerId, rec.address, .ofUnixMilli now⟩⟩ := by
        rw [Membership.heartbeat, hrec]
      rw [hsome]
      exact ⟨⟨h.metadata, rfl, put h.noted rec.brokerId rec.address⟩, rfl⟩

theorem listTopics (h : Agree now s f) (visits visits' : Visits) :
  (s.listTopics visits).Same (listTopics visits' f)
  := by
  rw [Replicated.listTopics, h.metadata]
  exact .listTopics (Registry.Order.perm _ _)

theorem listBrokers (h : Agree now s f) (visits visits' : Visits) (time : Time) :
  (s.listBrokers visits time).Same (listBrokers visits' s.heartbeatTimeout time f)
  := by
  rw [Replicated.listBrokers, h.membership]
  exact .listBrokers (((Registry.Order.perm _ _).map _).map _)

/-- A request to both servers. -/
theorem handle (json : Json) (h : Agree now s f) (hpos : 0 < now) (hleads : consensus.Leads)
    (visits visits' : Visits) (request : Request) :
  let r := Replicated.handle json s.heartbeatTimeout consensus visits' (.ofUnixMilli now) f request
  Agree now (s.handle visits (.ofUnixMilli now) request).1 r.1
    ∧ ∃ response, r.2 = .ok response
      ∧ (s.handle visits (.ofUnixMilli now) request).2.Same response
  := by
  cases request with
  | createTopic name numPartitions =>
      obtain ⟨hagree, hresponse⟩ := h.createTopic hleads name numPartitions
      exact ⟨hagree, _, hresponse, .refl _⟩
  | listTopics => exact ⟨h, _, rfl, h.listTopics visits visits'⟩
  | registerBroker brokerId address =>
      obtain ⟨hagree, hresponse⟩ := h.registerBroker hpos hleads brokerId address
      exact ⟨hagree, _, hresponse, .refl _⟩
  | heartbeat brokerId =>
      obtain ⟨hagree, hresponse⟩ := h.heartbeat hpos hleads brokerId
      exact ⟨hagree, _, hresponse, .refl _⟩
  | listBrokers => exact ⟨h, _, rfl, h.listBrokers visits visits' _⟩

theorem heartbeatTimeout_handle (visits : Visits) (time : Time) (s : Server) (request : Request) :
  (s.handle visits time request).1.heartbeatTimeout = s.heartbeatTimeout
  := by
  cases request with
  | createTopic name numPartitions =>
      rw [Server.handle, Server.createTopic]
      split <;> rfl
  | listTopics => rfl
  | registerBroker brokerId address => rfl
  | heartbeat brokerId =>
      rw [Server.handle, Server.heartbeat]
      split <;> rfl
  | listBrokers => rfl

/-- Requests one after the other, from servers that hold the same. -/
theorem handleAll (h : Agree now s f) {requests : List (Int64 × Request)}
    (hpos : ∀ r ∈ requests, 0 < r.1) (hle : ∀ r ∈ requests, now ≤ r.1)
    (hmono : requests.Pairwise fun r r' => r.1 ≤ r'.1) {consensus : ℕ → Consensus}
    (hleads : ∀ i, (consensus i).Leads) (visits visits' : ℕ → Visits) :
  List.Forall₂
    (fun response result => ∃ response', result = .ok response' ∧ response.Same response')
    (s.handleAll visits requests)
    (Replicated.handleAll json s.heartbeatTimeout consensus visits' f requests)
  := by
  induction requests generalizing now s f consensus visits visits' with
  | nil => exact .nil
  | cons r requests ih =>
      obtain ⟨time, request⟩ := r
      rw [List.forall_mem_cons] at hpos hle
      rw [List.pairwise_cons] at hmono
      obtain ⟨hagree, hresponse⟩ := (h.mono hle.1).handle json hpos.1 (hleads 0) (visits 0)
        (visits' 0) request
      refine .cons hresponse ?_
      have hrest := ih hagree hpos.2 hmono.1 hmono.2 (fun i => hleads (i + 1))
        (fun i => visits (i + 1)) (fun i => visits' (i + 1))
      rwa [heartbeatTimeout_handle] at hrest

end Agree

/-- The server of one process and a replicated server that is always the leader respond to requests
in the same way. -/
theorem servers_agree (json : Json) (heartbeatTimeout : Duration) (counter : Int64)
    (nodes : Registry NodeInfo.id) {requests : List (Int64 × Request)}
    (hpos : ∀ r ∈ requests, 0 < r.1) (hmono : requests.Pairwise fun r r' => r.1 ≤ r'.1)
    {consensus : ℕ → Consensus} (hleads : ∀ i, (consensus i).Leads) (visits visits' : ℕ → Visits) :
  List.Forall₂
    (fun response result => ∃ response', result = .ok response' ∧ response.Same response')
    ((Server.new heartbeatTimeout).handleAll visits requests)
    (handleAll json heartbeatTimeout consensus visits' ⟨.new, .new, counter, nodes⟩ requests)
  := by
  have hagree : Agree 0 (Server.new heartbeatTimeout) ⟨.new, .new, counter, nodes⟩ := by
    refine ⟨rfl, rfl, ?_⟩
    intro brokerId rec hrec
    cases hrec
  have hle : ∀ r ∈ requests, 0 ≤ r.1 := by
    intro r hr
    exact Int64.le_of_lt (hpos r hr)
  exact hagree.handleAll hpos hle hmono hleads visits visits'

/-- A broker that is listed when its timeout is just over. -/
def timedOut : List (Int64 × Request) :=
  [(1000, .registerBroker "b1" "a1"), (2000, .heartbeat "b1"), (2000, .createTopic "orders" 4),
    (2000, .createTopic "orders" 4), (12000, .listBrokers), (12000, .listTopics)]

/-- The commands that are committed, and their encodings. -/
def timedOutEntries : List (Command × List UInt8) :=
  [({ kind := "register_broker", brokerId := "b1", address := "a1", timestampMs := 1000 },
      Fsm.registerEntry),
    ({ kind := "heartbeat", brokerId := "b1", timestampMs := 2000 }, Fsm.heartbeatEntry),
    ({ kind := "create_topic", topicName := "orders", numPartitions := 4, timestampMs := 2000 },
      Fsm.bytes ("\x7b\"kind\":\"create_topic\",\"topic_name\":\"orders\",\"num_partitions\":4,"
        ++ "\"timestamp_ms\":2000\x7d"))]

theorem servers_agree_timedOut :
  ∃ (json : Json) (visits : Visits), (∀ x ∈ timedOutEntries, json.encodeCommand x.1 = x.2)
    ∧ List.Forall₂ (fun response result =>
        ∃ response', result = .ok response' ∧ response.Same response')
      ((Server.new 10000000000).handleAll (fun _ => visits) timedOut)
      (handleAll json 10000000000 (fun _ => ⟨true, none, .applied⟩) (fun _ => visits)
        ⟨.new, .new, 0, .empty⟩ timedOut)
  := by
  obtain ⟨json, hspells⟩ :=
    Json.exists_spells timedOutEntries (by decide +kernel) (by decide +kernel)
  obtain ⟨visits⟩ : Nonempty Visits := inferInstance
  use json, visits, hspells
  apply servers_agree json 10000000000 0 .empty (by decide) (by decide) fun _ => ⟨rfl, rfl⟩

end Replicated
