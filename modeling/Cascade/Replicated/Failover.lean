import Cascade.RaftNode.Atomicity
import Cascade.Replicated.Client

/-!
# Creating a topic under failover

A client that creates a topic sends the request again when it does not know what came of it. When
the reply to an attempt is lost, or replaced by a redirect, its command may be committed all the
same, and then the client is told at the next attempt that the topic exists already. The response
is true exactly if no attempt but the one that is answered has created the topic.
-/

open ControlPlane RaftNode

namespace Replicated

/-! ### The cluster -/

/-- The state after the commands that were committed. Whether a command of the call has created the
topic is not in the source. -/
structure Cluster where
  fsm : Fsm
  own : Bool

/-- The topic is there. -/
def Cluster.Exists (name : String) (c : Cluster) : Prop :=
  (c.fsm.metadata.topics.find? name).isSome = true

/-- A command that was committed has changed the state. The topic may have been created by it. -/
def Cluster.commit (name : String) (own : Bool) (c : Cluster) (f : Fsm) : Cluster where
  fsm := f
  own := c.own || (own && (c.fsm.metadata.topics.find? name).isNone
    && (f.metadata.topics.find? name).isSome)

/-- A command that is committed before an attempt: one of another call, or one of an attempt before,
which the client knows nothing about. -/
inductive Entry where
  | other (data : List UInt8)
  | own

/-- What becomes of a request and its reply. A loss shows as a status. -/
inductive Network where
  | delivered
  | requestLost (status : Status)
  | replyLost (status : Status)

/-- What happens with an attempt: the commands that are committed before it, what consensus does
with it, and what the network does. -/
structure Round where
  now : Time
  entries : List Entry
  consensus : Consensus
  network : Network

section

variable (json : Json) (name : String) (numPartitions : Int32) (rounds : ℕ → Round)

def Cluster.commitEntry (now : Time) (c : Cluster) : Entry → Cluster
  | .other data => c.commit name false (c.fsm.apply json.toJson now data).1
  | .own =>
      c.commit name true (createTopic json ⟨true, none, .applied⟩ now c.fsm name numPartitions).1

/-- The cluster when the request of an attempt arrives. -/
def Cluster.before (i : ℕ) (c : Cluster) : Cluster :=
  (rounds i).entries.foldl (Cluster.commitEntry json name numPartitions (rounds i).now) c

/-- An attempt to create the topic. -/
def attempt : Rpc Cluster Response := fun i _ c =>
  let c := c.before json name numPartitions rounds i
  let r := createTopic json (rounds i).consensus (rounds i).now c.fsm name numPartitions
  match (rounds i).network with
  | .delivered => (c.commit name true r.1, r.2)
  | .requestLost status => (c, .error status)
  | .replyLost status => (c.commit name true r.1, .error status)

/-- The cluster after a number of attempts. Which targets they call is not told apart, as anything
may happen with an attempt. -/
def Cluster.after (c : Cluster) : ℕ → Cluster
  | 0 => c
  | i + 1 => (attempt json name numPartitions rounds i "" (Cluster.after c i)).1

end

/-- A response says that the topic was created exactly if the call has created it, and says that the
topic exists only if another call has created it. -/
def Truthful (name : String) (c : Cluster) : Response → Prop
  | .createTopic created error => (created = true ↔ c.own = true)
      ∧ (error = "topic already exists: " ++ name → c.Exists name ∧ c.own = false)
  | _ => False

/-! ### Topics stay -/

variable {json : Json} {name : String} {numPartitions : Int32} {rounds : ℕ → Round} {c c' : Cluster}
  {response : Response}

/-- A topic that is there stays there. -/
theorem exists_apply {f : Fsm} (now : Time) (data : List UInt8)
    (h : (f.metadata.topics.find? name).isSome = true) :
  ((f.apply json.toJson now data).1.metadata.topics.find? name).isSome = true
  := by
  rw [Fsm.find?_topics_apply, Option.isSome_or, h, Bool.true_or]

/-- If the call has created the topic, then it is there. -/
def Known (name : String) (c : Cluster) : Prop := c.own = true → c.Exists name

namespace Known

theorem commit (h : Known name c) (own : Bool) {f : Fsm}
    (hkeeps : c.Exists name → (f.metadata.topics.find? name).isSome = true) :
  Known name (c.commit name own f)
  := by
  intro hown
  rcases Bool.or_eq_true_iff.mp hown with hown | hown
  · exact hkeeps (h hown)
  · exact (Bool.and_eq_true_iff.mp hown).2

theorem commit_createTopic (h : Known name c) (consensus : Consensus) (now : Time) :
  Known name (c.commit name true (createTopic json consensus now c.fsm name numPartitions).1)
  := by
  apply h.commit
  intro hexists
  rw [createTopic]
  rcases propose_fst json consensus now c.fsm
    { kind := "create_topic", topicName := name, numPartitions := numPartitions } with hfst | hfst
  · rw [hfst]
    exact hexists
  · rw [hfst]
    exact exists_apply now _ hexists

theorem before (h : Known name c) (i : ℕ) :
  Known name (c.before json name numPartitions rounds i)
  := by
  rw [Cluster.before]
  induction (rounds i).entries generalizing c with
  | nil => exact h
  | cons entry entries ih =>
      rw [List.foldl_cons]
      apply ih
      cases entry with
      | other data => exact h.commit false (exists_apply _ data)
      | own => exact h.commit_createTopic _ _

theorem attempt (h : Known name c) (i : ℕ) (target : String) :
  Known name (attempt json name numPartitions rounds i target c).1
  := by
  have hbefore : Known name (c.before json name numPartitions rounds i) := h.before i
  rw [Replicated.attempt]
  split
  · exact hbefore.commit_createTopic _ _
  · exact hbefore
  · exact hbefore.commit_createTopic _ _

theorem after (h : Known name c) (i : ℕ) :
  Known name (c.after json name numPartitions rounds i)
  := by
  induction i with
  | zero => exact h
  | succ i ih => exact ih.attempt i ""

end Known

/-! ### The answer -/

/-- Attempts that fail lead to the state after as many attempts. -/
theorem eq_after_of_retried {i j : ℕ} {s t : Cluster}
    (h : Retried (attempt json name numPartitions rounds) i s j t)
    (hs : s = c.after json name numPartitions rounds i) :
  t = c.after json name numPartitions rounds j
  := by
  induction h with
  | refl i s => exact hs
  | step target status hfail hrest ih =>
      apply ih
      rw [hs]
      rfl

/-- An attempt that is answered was handled by the leader. -/
theorem attempt_ok {i : ℕ} {target : String}
    (h : attempt json name numPartitions rounds i target c = (c', .ok response)) :
  let b := c.before json name numPartitions rounds i
  (∃ metadata, b.fsm.metadata.createTopic name numPartitions = .ok metadata
      ∧ response = .createTopic true "" ∧ c' = b.commit name true { b.fsm with metadata })
    ∨ ∃ e, b.fsm.metadata.createTopic name numPartitions = .error e
      ∧ response = .createTopic false e ∧ c' = b.commit name true b.fsm
  := by
  intro b
  rw [attempt] at h
  split at h
  · obtain ⟨rfl, hresponse⟩ := Prod.mk.inj h
    rw [createTopic] at hresponse ⊢
    dsimp only at hresponse ⊢
    cases hpropose : (propose json (rounds i).consensus (rounds i).now b.fsm
        { kind := "create_topic", topicName := name, numPartitions }).2 with
    | error status =>
        rw [hpropose] at hresponse
        cases hresponse
    | ok res =>
        have hleads := leads_of_propose hpropose
        rw [propose_leads hleads] at hresponse ⊢
        rw [Fsm.applyCommand_createTopic] at hresponse ⊢
        cases hcreate : b.fsm.metadata.createTopic name numPartitions with
        | error e =>
            rw [hcreate] at hresponse
            exact .inr ⟨e, rfl, (Except.ok.inj hresponse).symm, rfl⟩
        | ok metadata =>
            rw [hcreate] at hresponse
            exact .inl ⟨metadata, rfl, (Except.ok.inj hresponse).symm, rfl⟩
  · cases h
  · cases h

/-- The errors are told apart. -/
theorem createTopic_error {s : MetadataStore} {e : String}
    (h : s.createTopic name numPartitions = .error e) (he : e = "topic already exists: " ++ name) :
  (s.topics.find? name).isSome = true
  := by
  rw [MetadataStore.createTopic] at h
  split at h
  · rename_i hsome
    rw [hsome]
    rfl
  · split at h
    · obtain rfl := Except.error.inj h
      have hlist := congrArg String.toList he
      rw [String.toList_append, String.toList_append] at hlist
      have hhead := congrArg List.head? hlist
      rw [List.head?_append, List.head?_append] at hhead
      simp at hhead
    · cases h

/-- The answer to an attempt is true if and only if the topic was not created by an attempt before.
-/
theorem truthful_iff {i : ℕ} {target : String} (hknown : Known name c)
    (h : attempt json name numPartitions rounds i target c = (c', .ok response)) :
  Truthful name c' response ↔ (c.before json name numPartitions rounds i).own = false
  := by
  have hbefore : Known name (c.before json name numPartitions rounds i) := hknown.before i
  obtain ⟨metadata, hok, rfl, rfl⟩ | ⟨e, herror, rfl, rfl⟩ := attempt_ok h
  · obtain ⟨hnone, -, rfl⟩ := MetadataStore.createTopic_eq_ok hok
    have hown : (c.before json name numPartitions rounds i).own = false := by
      rw [Bool.eq_false_iff]
      intro hown
      have hexists : (_ : Option Topic).isSome = true := hbefore hown
      rw [hnone] at hexists
      cases hexists
    have hcommit : (Cluster.commit name true (c.before json name numPartitions rounds i)
        { (c.before json name numPartitions rounds i).fsm with
          metadata := ⟨(c.before json name numPartitions rounds i).fsm.metadata.topics.put
            ⟨name, numPartitions⟩⟩ }).own = true := by
      have hsome := (c.before json name numPartitions rounds i).fsm.metadata.topics.find?_put_self
        ⟨name, numPartitions⟩
      simp [Cluster.commit, hnone, hsome]
    refine iff_of_true ⟨iff_of_true rfl hcommit, ?_⟩ hown
    intro hempty
    have hlist := congrArg String.toList hempty
    rw [String.toList_append] at hlist
    cases hlist
  · have hcommit : (Cluster.commit name true (c.before json name numPartitions rounds i)
        (c.before json name numPartitions rounds i).fsm).own
        = (c.before json name numPartitions rounds i).own := by
      simp only [Cluster.commit]
      cases (c.before json name numPartitions rounds i).fsm.metadata.topics.find? name <;> simp
    rw [Truthful, hcommit]
    constructor
    · rintro ⟨hiff, -⟩
      exact Bool.eq_false_iff.mpr fun hown => Bool.false_ne_true (hiff.mpr hown)
    · intro hown
      refine ⟨?_, fun htext => ⟨createTopic_error herror htext, hown⟩⟩
      rw [hown]

/-- When a call returns a response, it is the answer to one of its attempts, and it is true if and
only if the topic had not been created by an attempt before when this one was handled. -/
theorem createTopic_truthful_iff (json : Json) (name : String) (numPartitions : Int32)
    (rounds : ℕ → Round) (f : Fsm) {caller : Caller} {c : Cluster} {response : Response}
    (hcall : caller.call (attempt json name numPartitions rounds) ⟨f, false⟩ = (c, .ok response)) :
  ∃ i, attempt json name numPartitions rounds i ""
      (Cluster.after json name numPartitions rounds ⟨f, false⟩ i) = (c, .ok response)
    ∧ (Truthful name c response ↔ (Cluster.before json name numPartitions rounds i
      (Cluster.after json name numPartitions rounds ⟨f, false⟩ i)).own = false)
  := by
  obtain ⟨i, target, u, hretried, hok⟩ := Caller.retried_of_call hcall
  obtain rfl := eq_after_of_retried (c := ⟨f, false⟩) hretried rfl
  have hknown : Known name ⟨f, false⟩ := by
    rintro ⟨⟩
  exact ⟨i, hok, truthful_iff (hknown.after i) hok⟩

/-! ### Two attempts -/

/-- The first request is handled as given, and the others are answered. -/
def twoRounds (first : Round) : ℕ → Round
  | 0 => first
  | _ => ⟨⟨0⟩, [], ⟨true, none, .applied⟩, .delivered⟩

/-- The request does not arrive. -/
def requestLost : Round :=
  ⟨⟨0⟩, [], ⟨true, none, .applied⟩, .requestLost ⟨.unavailable, "connection refused", none⟩⟩

/-- The reply is lost. -/
def replyLost : Round :=
  ⟨⟨0⟩, [], ⟨true, none, .applied⟩, .replyLost ⟨.unavailable, "connection reset", none⟩⟩

/-- The leadership is lost when the command was committed. -/
def redirected : Round :=
  ⟨⟨0⟩, [], ⟨true, some "n2", .leadershipLost true⟩, .delivered⟩

def goCaller : Caller := .go ⟨["n1", "n2"]⟩ fun _ => none

def cppCaller : Caller := .cpp ⟨["n1", "n2"], 0, by decide⟩

/-- The second attempt is answered. -/
theorem call_twice {σ α : Type} {rpc : Rpc σ α} {s t u : σ} {status : Status} {response : α}
    (hcode : status.code ≠ .other) (hfirst : ∀ target, rpc 0 target s = (t, .error status))
    (hsecond : ∀ target, rpc 1 target t = (u, .ok response)) {caller : Caller}
    (hcaller : caller ∈ [goCaller, cppCaller]) :
  caller.call rpc s = (u, .ok response)
  := by
  rw [List.mem_pair] at hcaller
  obtain ⟨code, message, leader⟩ := status
  rcases hcaller with rfl | rfl
  · simp only [Caller.call, goCaller, Client.do, Client.attempts, hfirst, hsecond]
    cases code with
    | failedPrecondition => exact ite_self _
    | unavailable => rfl
    | deadlineExceeded => rfl
    | other => exact absurd rfl hcode
  · simp only [Caller.call, cppCaller, ControlPlaneClient.callWithFailover,
      ControlPlaneClient.attempts, hfirst, hsecond]
    cases code with
    | failedPrecondition => cases leader <;> rfl
    | unavailable => cases leader <;> rfl
    | deadlineExceeded => cases leader <;> rfl
    | other => exact absurd rfl hcode

/-- The topic was created, by the call. -/
def created : Cluster :=
  ⟨{ Fsm.new with metadata := ⟨Registry.empty.put ⟨"orders", 4⟩⟩ }, true⟩

theorem createTopic_applied (json : Json) (f : Fsm) :
  createTopic json ⟨true, none, .applied⟩ ⟨0⟩ f "orders" 4
    = match f.metadata.createTopic "orders" 4 with
      | .error e => (f, .ok (.createTopic false e))
      | .ok metadata => ({ f with metadata }, .ok (.createTopic true ""))
  := by
  rw [createTopic, propose_leads ⟨rfl, rfl⟩, Fsm.applyCommand_createTopic]
  cases f.metadata.createTopic "orders" 4 with
  | error e => rfl
  | ok metadata => rfl

theorem attempt_zero_replyLost (json : Json) (target : String) :
  attempt json "orders" 4 (twoRounds replyLost) 0 target ⟨.new, false⟩
    = (created, .error ⟨.unavailable, "connection reset", none⟩)
  := by
  change (Cluster.commit "orders" true ⟨.new, false⟩
    (createTopic json ⟨true, none, .applied⟩ ⟨0⟩ .new "orders" 4).1, _) = _
  rw [createTopic_applied]
  rfl

theorem attempt_zero_redirected (json : Json) (target : String) :
  attempt json "orders" 4 (twoRounds redirected) 0 target ⟨.new, false⟩
    = (created, .error ⟨.failedPrecondition, "not leader; leader is at n2", some "n2"⟩)
  := by
  change (Cluster.commit "orders" true ⟨.new, false⟩ (Fsm.apply json.toJson ⟨0⟩ .new
    (json.encodeCommand
      { kind := "create_topic", topicName := "orders", numPartitions := 4 })).1, _) = _
  rw [json.apply_encodeCommand, Fsm.applyCommand_createTopic]
  rfl

/-- The next attempt finds the topic. -/
theorem attempt_one (json : Json) (first : Round) (target : String) :
  attempt json "orders" 4 (twoRounds first) 1 target created
    = (created, .ok (.createTopic false "topic already exists: orders"))
  := by
  change (Cluster.commit "orders" true created
    (createTopic json ⟨true, none, .applied⟩ ⟨0⟩ created.fsm "orders" 4).1,
      (createTopic json ⟨true, none, .applied⟩ ⟨0⟩ created.fsm "orders" 4).2) = _
  rw [createTopic_applied]
  rfl

/-- The command that is sent with both attempts, and its encoding. -/
def createEntry : Command × List UInt8 :=
  ({ kind := "create_topic", topicName := "orders", numPartitions := 4 },
    Fsm.bytes "\x7b\"kind\":\"create_topic\",\"topic_name\":\"orders\",\"num_partitions\":4\x7d")

theorem createTopic_truthful_iff_requestLost :
  ∃ (json : Json) (c : Cluster), json.encodeCommand createEntry.1 = createEntry.2
    ∧ goCaller.call (attempt json "orders" 4 (twoRounds requestLost)) ⟨.new, false⟩
        = (c, .ok (.createTopic true ""))
      ∧ ∃ i, attempt json "orders" 4 (twoRounds requestLost) i ""
          (Cluster.after json "orders" 4 (twoRounds requestLost) ⟨.new, false⟩ i)
            = (c, .ok (.createTopic true ""))
        ∧ (Truthful "orders" c (.createTopic true "")
          ↔ (Cluster.before json "orders" 4 (twoRounds requestLost) i
            (Cluster.after json "orders" 4 (twoRounds requestLost) ⟨.new, false⟩ i)).own = false)
  := by
  obtain ⟨json, hjson⟩ := Json.exists_spells [createEntry] (by simp) (by simp)
  have hsecond : ∀ target, attempt json "orders" 4 (twoRounds requestLost) 1 target ⟨.new, false⟩
      = (created, .ok (.createTopic true "")) := by
    intro target
    change (Cluster.commit "orders" true ⟨.new, false⟩
      (createTopic json ⟨true, none, .applied⟩ ⟨0⟩ .new "orders" 4).1,
        (createTopic json ⟨true, none, .applied⟩ ⟨0⟩ .new "orders" 4).2) = _
    rw [createTopic_applied]
    rfl
  have hcall : goCaller.call (attempt json "orders" 4 (twoRounds requestLost)) ⟨.new, false⟩ = _ :=
    call_twice (by decide) (fun _ => rfl) hsecond List.mem_cons_self
  exact ⟨json, created, hjson createEntry List.mem_cons_self, hcall,
    createTopic_truthful_iff json "orders" 4 _ .new hcall⟩

/-- Both clients are told that the topic exists already, although their call has created it, when
the reply to the first attempt is lost, and when it is replaced by a redirect. -/
theorem createTopic_not_truthful :
  ∃ json : Json, json.encodeCommand createEntry.1 = createEntry.2
    ∧ ∀ caller ∈ [goCaller, cppCaller], ∀ first ∈ [replyLost, redirected], ∃ c,
      caller.call (attempt json "orders" 4 (twoRounds first)) ⟨.new, false⟩
        = (c, .ok (.createTopic false "topic already exists: orders"))
      ∧ c.own = true
  := by
  obtain ⟨json, hjson⟩ := Json.exists_spells [createEntry] (by simp) (by simp)
  use json, hjson createEntry List.mem_cons_self
  intro caller hcaller first hfirst
  rw [List.mem_pair] at hfirst
  use created
  refine ⟨?_, rfl⟩
  rcases hfirst with rfl | rfl
  · exact call_twice (by decide) (attempt_zero_replyLost json) (attempt_one json replyLost) hcaller
  · exact call_twice (by decide) (attempt_zero_redirected json) (attempt_one json redirected)
      hcaller

end Replicated
