import Cascade.RaftNode.Heartbeats
import Cascade.Replicated.Failover
import Cascade.Replicated.Leader

/-!
# The heartbeats that brokers send

The model of `register_broker` and `heartbeat_once` in `controlplane/control_plane_client.hpp`,
against the service of the cluster. Between two attempts anything can happen to the cluster:
commands of others are committed, a node is restored from a snapshot, or all is lost. A broker that
is told that it is not known registers again.

So after a heartbeat that was answered in the end, the broker is known, and it is listed as alive
until the timeout, whatever commands are committed by then (`BrokerClient.heartbeat_heals`).
-/

open ControlPlane RaftNode

namespace Replicated

/-- The client of a broker. -/
structure BrokerClient where
  client : ControlPlaneClient
  brokerId : String
  brokerAddress : String
  registered : Bool

namespace BrokerClient

variable {σ : Type}

/-- `resp.registered()`, which is false if the field is not set. -/
def isRegistered : Response → Bool
  | .registerBroker registered => registered
  | _ => false

/-- `resp.acknowledged()`. -/
def isAcknowledged : Response → Bool
  | .heartbeat acknowledged => acknowledged
  | _ => false

/-- Register the broker. What the source throws is the text of an exception. -/
def registerBroker (rpc : Request → Rpc σ Response) (c : BrokerClient) (s : σ) :
    BrokerClient × σ × Except String Unit :=
  let r := c.client.callWithFailover (rpc (.registerBroker c.brokerId c.brokerAddress)) s
  let c := { c with client := r.1 }
  match r.2.2 with
  | .error status => (c, r.2.1, .error ("RegisterBroker RPC failed: " ++ status.message))
  | .ok resp =>
      if isRegistered resp then ({ c with registered := true }, r.2.1, .ok ())
      else (c, r.2.1, .error "control plane rejected broker registration")

/-- Send a heartbeat, and register again if the control plane does not know the broker. The calls
are numbered. -/
def heartbeatOnce (rpc : ℕ → Request → Rpc σ Response) (c : BrokerClient) (s : σ) :
    BrokerClient × σ × Bool :=
  let r := c.client.callWithFailover (rpc 0 (.heartbeat c.brokerId)) s
  let c := { c with client := r.1 }
  match r.2.2 with
  | .error _ => (c, r.2.1, false)
  | .ok resp =>
      if isAcknowledged resp then (c, r.2.1, true)
      else
        let r := c.registerBroker (rpc 1) r.2.1
        (r.1, r.2.1, false)

/-- The heartbeat is acknowledged, or it is answered that the broker is not known, and then the
registration succeeds. -/
def Answered (rpc : ℕ → Request → Rpc σ Response) (c : BrokerClient) (s : σ) : Prop :=
  let r := c.client.callWithFailover (rpc 0 (.heartbeat c.brokerId)) s
  match r.2.2 with
  | .error _ => False
  | .ok resp => isAcknowledged resp = true
      ∨ ({ c with client := r.1 }.registerBroker (rpc 1) r.2.1).2.2 = .ok ()

/-- A registration is one call. -/
theorem registerBroker_eq (rpc : Request → Rpc σ Response) (c : BrokerClient) (s : σ) :
  let r := c.client.callWithFailover (rpc (.registerBroker c.brokerId c.brokerAddress)) s
  (c.registerBroker rpc s).2.1 = r.2.1
    ∧ ((c.registerBroker rpc s).2.2 = .ok () → ∃ resp, r.2.2 = .ok resp)
  := by
  intro r
  rw [registerBroker]
  cases hcall : r.2.2 with
  | error status => exact ⟨rfl, nofun⟩
  | ok resp =>
      dsimp only
      refine ⟨?_, fun _ => ⟨resp, rfl⟩⟩
      split <;> rfl

end BrokerClient

/-! ### The cluster between two attempts -/

/-- What happens with an attempt: what becomes of the cluster before the request arrives, what
consensus does with it, and what the network does. -/
structure Turn where
  now : Time
  before : Fsm → Fsm
  consensus : Consensus
  network : Network

/-- An attempt at a request. -/
def serve (json : Json) (timeout : Duration) (visits : Visits) (turns : ℕ → Turn)
    (request : Request) : Rpc Fsm Response := fun i _ f =>
  let turn := turns i
  let f := turn.before f
  let r := handle json timeout turn.consensus visits turn.now f request
  match turn.network with
  | .delivered => r
  | .requestLost status => (f, .error status)
  | .replyLost status => (r.1, .error status)

/-- The time that the leader assigns to a command. -/
def Turn.stamp (turn : Turn) : Int64 := turn.now.unixMilli

/-! ### What the cluster knows of a broker -/

section

variable (brokerId address : String)

/-- If the broker is registered, then with this address. -/
def Own (f : Fsm) : Prop :=
  ∀ rec, f.membership.brokers.find? brokerId = some rec → rec.address = address

/-- The broker is registered with this address, and its last heartbeat is not before the time. -/
def Seen (time : Time) (f : Fsm) : Prop :=
  ∃ rec, f.membership.brokers.find? brokerId = some rec ∧ rec.address = address
    ∧ time.nanoseconds ≤ rec.lastHeartbeat.nanoseconds

/-- The command got a time from the leader, and if it registers the broker, then with this address
and not with an earlier time. -/
def Keeps (time : Time) (cmd : Command) : Prop :=
  cmd.timestampMs ≠ 0 ∧ (CommandKind.ofString cmd.kind = .registerBroker → cmd.brokerId = brokerId →
    cmd.address = address ∧ time.nanoseconds ≤ cmd.time.nanoseconds)

end

variable {brokerId address : String} {time : Time} {f : Fsm} {cmd : Command}

theorem find?_registerAt (m : Membership) (brokerId address : String) (time : Time) (id : String) :
  (m.registerAt brokerId address time).brokers.find? id
    = if id = brokerId then some ⟨brokerId, address, time⟩ else m.brokers.find? id
  := by
  split
  case isTrue heq =>
    subst heq
    exact m.brokers.find?_put_self ⟨id, address, time⟩
  case isFalse hne => exact m.brokers.find?_put_of_ne hne

/-- What a command makes of the brokers: nothing, or it registers one, or it stores the time of a
heartbeat, which is not before the last one if the leader assigned it. -/
theorem membership_applyCommand (now : Time) (f : Fsm) (cmd : Command) :
  let m := (f.applyCommand now cmd).1.membership
  m = f.membership
    ∨ (CommandKind.ofString cmd.kind = .registerBroker
      ∧ ∃ time, (cmd.timestampMs ≠ 0 → time = cmd.time)
        ∧ m = f.membership.registerAt cmd.brokerId cmd.address time)
    ∨ ∃ rec time, f.membership.brokers.find? cmd.brokerId = some rec
      ∧ (cmd.timestampMs ≠ 0 → rec.lastHeartbeat.nanoseconds ≤ time.nanoseconds)
      ∧ m = ⟨f.membership.brokers.put { rec with lastHeartbeat := time }⟩
  := by
  rw [Fsm.applyCommand]
  cases hkind : CommandKind.ofString cmd.kind with
  | createTopic =>
      left
      dsimp only
      split <;> rfl
  | incrementCounter => exact .inl rfl
  | registerNode => exact .inl rfl
  | unknown => exact .inl rfl
  | registerBroker =>
      right; left
      refine ⟨rfl, ?_⟩
      dsimp only
      split
      case isTrue => exact ⟨cmd.time, fun _ => rfl, rfl⟩
      case isFalse hstamp => exact ⟨now, fun h => absurd h hstamp, rfl⟩
  | heartbeat =>
      dsimp only
      cases hrec : f.membership.brokers.find? cmd.brokerId with
      | none =>
          left
          rw [Membership.heartbeatAt_eq, Membership.heartbeat, hrec, Option.map_none, ite_self]
      | some rec =>
          right; right
          rw [Membership.heartbeatAt_eq, Membership.heartbeat, hrec, Option.map_some]
          split
          case h_1 hnone => split at hnone <;> cases hnone
          case h_2 m hnoted =>
              split at hnoted
              case isTrue hstamp =>
                obtain rfl := Option.some.inj hnoted
                exact ⟨rec, _, rfl, fun _ => le_max_left .., rfl⟩
              case isFalse hstamp =>
                obtain rfl := Option.some.inj hnoted
                exact ⟨rec, _, rfl, fun h => absurd h hstamp, rfl⟩

/-- The address stays, unless the command registers the broker with another one. -/
theorem Own.applyCommand (h : Own brokerId address f) (now : Time)
    (hcmd : CommandKind.ofString cmd.kind = .registerBroker → cmd.brokerId = brokerId →
      cmd.address = address) :
  Own brokerId address (f.applyCommand now cmd).1
  := by
  intro rec hrec
  rcases membership_applyCommand now f cmd with
    hm | ⟨hkind, time, -, hm⟩ | ⟨rec', time, hrec', -, hm⟩
  · rw [hm] at hrec
    exact h rec hrec
  · rw [hm, find?_registerAt] at hrec
    split at hrec
    case isTrue heq =>
      obtain rfl := Option.some.inj hrec
      exact hcmd hkind heq.symm
    case isFalse => exact h rec hrec
  · rw [hm] at hrec
    obtain hid := Registry.key_of_find? hrec'
    by_cases heq : brokerId = cmd.brokerId
    · have hself := f.membership.brokers.find?_put_self { rec' with lastHeartbeat := time }
      rw [heq, ← hid, hself] at hrec
      obtain rfl := Option.some.inj hrec
      exact h rec' (heq ▸ hrec')
    · have hne : brokerId ≠ BrokerRecord.brokerId { rec' with lastHeartbeat := time } :=
        fun heq' => heq (heq'.trans hid)
      rw [f.membership.brokers.find?_put_of_ne hne] at hrec
      exact h rec hrec

/-- A broker that was seen stays so. -/
theorem Seen.applyCommand (h : Seen brokerId address time f) (now : Time)
    (hcmd : Keeps brokerId address time cmd) :
  Seen brokerId address time (f.applyCommand now cmd).1
  := by
  obtain ⟨rec, hrec, haddress, hle⟩ := h
  rcases membership_applyCommand now f cmd with hm | ⟨hkind, time', htime, hm⟩ |
    ⟨rec', time', hrec', hlater, hm⟩
  · exact ⟨rec, hm ▸ hrec, haddress, hle⟩
  · obtain rfl := htime hcmd.1
    by_cases heq : brokerId = cmd.brokerId
    · obtain ⟨haddress', hle'⟩ := hcmd.2 hkind heq.symm
      exact ⟨_, by rw [hm, find?_registerAt, if_pos heq], haddress', hle'⟩
    · exact ⟨rec, by rw [hm, find?_registerAt, if_neg heq, hrec], haddress, hle⟩
  · have hid := Registry.key_of_find? hrec'
    by_cases heq : brokerId = cmd.brokerId
    · subst heq
      obtain rfl := Option.some.inj (hrec.symm.trans hrec')
      refine ⟨{ rec with lastHeartbeat := time' }, ?_, haddress, hle.trans (hlater hcmd.1)⟩
      rw [hm, ← hid]
      exact f.membership.brokers.find?_put_self { rec with lastHeartbeat := time' }
    · have hne : brokerId ≠ BrokerRecord.brokerId { rec' with lastHeartbeat := time' } :=
        fun heq' => heq (heq'.trans hid)
      refine ⟨rec, ?_, haddress, hle⟩
      rw [hm, f.membership.brokers.find?_put_of_ne hne, hrec]

theorem Seen.applyAll {json : RaftNode.Json} (h : Seen brokerId address time f) (clock : ℕ → Time)
    {entries : List (List UInt8)}
    (hentries : ∀ data ∈ entries, ∀ cmd, json.unmarshalCommand data = .ok cmd →
      Keeps brokerId address time cmd) :
  Seen brokerId address time (f.applyAll json clock entries).1
  := by
  induction entries generalizing f clock with
  | nil => exact h
  | cons data entries ih =>
      apply ih _ _ fun data hdata => hentries data (List.mem_cons_of_mem _ hdata)
      rw [Fsm.apply]
      split
      case h_1 => exact h
      case h_2 cmd hcmd => exact h.applyCommand _ (hentries data List.mem_cons_self cmd hcmd)

/-! ### Attempts -/

/-- The requests of the broker. -/
def OwnRequest (brokerId address : String) (request : Request) : Prop :=
  request = .heartbeat brokerId ∨ request = .registerBroker brokerId address

variable {json : Json} {timeout : Duration} {visits : Visits} {turns : ℕ → Turn}
  {request : Request}

theorem Own.handle (h : Own brokerId address f) (hrequest : OwnRequest brokerId address request)
    (consensus : Consensus) (now : Time) :
  Own brokerId address (handle json timeout consensus visits now f request).1
  := by
  have hpropose : ∀ cmd : Command, cmd.address = address ∨ cmd.kind = "heartbeat" →
      Own brokerId address (propose json consensus now f cmd).1 := by
    intro cmd hcmd
    rcases propose_fst json consensus now f cmd with hfst | hfst
    · rw [hfst]
      exact h
    · rw [hfst, json.apply_encodeCommand]
      apply h.applyCommand
      intro hkind hid
      rcases hcmd with hcmd | hcmd
      · exact hcmd
      · dsimp only at hkind
        rw [hcmd] at hkind
        cases hkind
  rcases hrequest with rfl | rfl
  · exact hpropose _ (.inr rfl)
  · exact hpropose _ (.inl rfl)

theorem Own.serve (h : Own brokerId address f) (hrequest : OwnRequest brokerId address request)
    (hbefore : ∀ i f, Own brokerId address f → Own brokerId address ((turns i).before f)) (i : ℕ)
    (target : String) :
  Own brokerId address (serve json timeout visits turns request i target f).1
  := by
  have hturn := hbefore i f h
  rw [Replicated.serve]
  split
  · exact hturn.handle hrequest _ _
  · exact hturn
  · exact hturn.handle hrequest _ _

theorem Own.retried {i j : ℕ} {g : Fsm} (hrequest : OwnRequest brokerId address request)
    (hbefore : ∀ i f, Own brokerId address f → Own brokerId address ((turns i).before f))
    (hretried : Retried (Replicated.serve json timeout visits turns request) i f j g)
    (h : Own brokerId address f) :
  Own brokerId address g
  := by
  induction hretried with
  | refl i s => exact h
  | step target status hfail hrest ih => exact ih (h.serve hrequest hbefore _ target)

variable {response : Response}

/-- A call that returned a response: an attempt arrived, was handled by the leader, and answered. -/
theorem exists_answered {c : ControlPlaneClient} (hrequest : OwnRequest brokerId address request)
    (hbefore : ∀ i f, Own brokerId address f → Own brokerId address ((turns i).before f))
    (hf : Own brokerId address f)
    (hcall : (c.callWithFailover (serve json timeout visits turns request) f).2.2 = .ok response) :
  let g := (c.callWithFailover (serve json timeout visits turns request) f).2.1
  Own brokerId address g ∧ ∃ i u, Own brokerId address u ∧ (turns i).network = .delivered
    ∧ handle json timeout (turns i).consensus visits (turns i).now u request = (g, .ok response)
  := by
  intro g
  obtain ⟨i, target, u, hretried, hok⟩ :=
    ControlPlaneClient.retried_of_attempts (Prod.ext (rfl : _ = g) hcall)
  have hu := hbefore i u (Own.retried hrequest hbefore hretried hf)
  rw [serve] at hok
  split at hok
  case h_1 hnetwork =>
    refine ⟨?_, i, _, hu, hnetwork, hok⟩
    have hg : g = (handle json timeout (turns i).consensus visits (turns i).now
        ((turns i).before u) request).1 := by rw [hok]
    rw [hg]
    exact hu.handle hrequest _ _
  case h_2 => cases (Prod.mk.inj hok).2
  case h_3 => cases (Prod.mk.inj hok).2

/-- A heartbeat that is acknowledged is stored. -/
theorem seen_of_heartbeat {consensus : Consensus} {now : Time} {g : Fsm}
    (hf : Own brokerId address f) (hstamp : now.unixMilli ≠ 0)
    (hok : handle json timeout consensus visits now f (.heartbeat brokerId) = (g, .ok response))
    (hacknowledged : BrokerClient.isAcknowledged response = true) :
  consensus.Leads ∧ Seen brokerId address (.ofUnixMilli now.unixMilli) g
  := by
  obtain ⟨rfl, hresponse⟩ := Prod.mk.inj hok
  cases hpropose : (propose json consensus now f { kind := "heartbeat", brokerId }).2 with
  | error status =>
      rw [hpropose] at hresponse
      cases hresponse
  | ok res =>
      have hleads := leads_of_propose hpropose
      refine ⟨hleads, ?_⟩
      rw [propose_leads hleads, Fsm.applyCommand_heartbeat _ _ _ hstamp,
        Membership.heartbeatAt_eq] at hresponse ⊢
      cases hrec : f.membership.brokers.find? brokerId with
      | none =>
          rw [hrec] at hresponse
          obtain rfl := Except.ok.inj hresponse
          cases hacknowledged
      | some rec =>
          obtain rfl := Registry.key_of_find? hrec
          exact ⟨_, f.membership.brokers.find?_put_self _, hf rec hrec, le_max_right ..⟩

/-- A registration that is answered is stored. -/
theorem seen_of_registerBroker {consensus : Consensus} {now : Time} {g : Fsm}
    (hstamp : now.unixMilli ≠ 0)
    (hok : handle json timeout consensus visits now f (.registerBroker brokerId address)
      = (g, .ok response)) :
  consensus.Leads ∧ Seen brokerId address (.ofUnixMilli now.unixMilli) g
  := by
  obtain ⟨rfl, hresponse⟩ := Prod.mk.inj hok
  cases hpropose : (propose json consensus now f
      { kind := "register_broker", brokerId, address }).2 with
  | error status =>
      rw [hpropose] at hresponse
      cases hresponse
  | ok res =>
      have hleads := leads_of_propose hpropose
      refine ⟨hleads, ?_⟩
      rw [propose_leads hleads, Fsm.applyCommand_registerBroker _ _ _ _ hstamp]
      refine ⟨⟨brokerId, address, .ofUnixMilli now.unixMilli⟩, ?_, rfl, le_refl _⟩
      rw [find?_registerAt, if_pos rfl]

/-! ### Brokers that are alive -/

theorem toInt_ofIntClamp_le {a b : ℤ} (h : a ≤ b) :
  (Int64.ofIntClamp a).toInt ≤ (Int64.ofIntClamp b).toInt
  := by
  have hclamp : ∀ x : ℤ, (Int64.ofIntClamp x).toInt
      = max Int64.minValue.toInt (min x Int64.maxValue.toInt) := by
    intro x
    rw [Int64.ofIntClamp]
    split
    · split
      · rw [Int64.toInt_ofIntLE]
        omega
      · have : Int64.minValue.toInt ≤ Int64.maxValue.toInt := by decide
        omega
    · omega
  rw [hclamp, hclamp]
  omega

/-- A broker that was seen less than the timeout ago is listed as alive. -/
theorem Seen.alive (h : Seen brokerId address time f) {now : Time} (hnow : now.sub time < timeout) :
  ∃ infos info, listBrokers visits timeout now f = .listBrokers infos ∧ info ∈ infos
    ∧ info.brokerId = brokerId ∧ info.address = address ∧ info.alive = true
  := by
  obtain ⟨rec, hrec, haddress, hle⟩ := h
  have hid := Registry.key_of_find? hrec
  have hmem : rec ∈ (visits.brokers f.membership).list :=
    ((visits.brokers f.membership).mem rec).mpr (hid.symm ▸ hrec)
  refine ⟨_, _, rfl, List.mem_map_of_mem (List.mem_map_of_mem hmem), hid, haddress, ?_⟩
  apply decide_eq_true
  rw [Int64.lt_iff_toInt_lt] at hnow ⊢
  apply lt_of_le_of_lt _ hnow
  exact toInt_ofIntClamp_le (by omega)

namespace BrokerClient

/-- A broker that is known with its own address at most, and is not registered with another one
between the attempts, is registered with its address after a heartbeat that was answered in the end,
and its last heartbeat is not before the time at which an attempt arrived at the leader. From then
on, while the commands that are committed do not register it with another address or an earlier
time, it is listed as alive until the timeout. -/
theorem heartbeat_heals {c : BrokerClient} {turns : ℕ → ℕ → Turn}
    (hstamp : ∀ k i, (turns k i).stamp ≠ 0)
    (hbefore : ∀ k i f, Own c.brokerId c.brokerAddress f →
      Own c.brokerId c.brokerAddress ((turns k i).before f))
    (hf : Own c.brokerId c.brokerAddress f)
    (hanswered : c.Answered (fun k => serve json timeout visits (turns k)) f) :
  let g := (c.heartbeatOnce (fun k => serve json timeout visits (turns k)) f).2.1
  ∃ k i, (turns k i).network = .delivered ∧ (turns k i).consensus.Leads
    ∧ Seen c.brokerId c.brokerAddress (.ofUnixMilli (turns k i).stamp) g
    ∧ ∀ (clock : ℕ → Time) (entries : List (List UInt8)) (now : Time),
      (∀ data ∈ entries, ∀ cmd, json.unmarshalCommand data = .ok cmd →
        Keeps c.brokerId c.brokerAddress (.ofUnixMilli (turns k i).stamp) cmd) →
      now.sub (.ofUnixMilli (turns k i).stamp) < timeout →
      ∃ infos info,
        listBrokers visits timeout now (g.applyAll json.toJson clock entries).1 = .listBrokers infos
          ∧ info ∈ infos ∧ info.brokerId = c.brokerId ∧ info.address = c.brokerAddress
          ∧ info.alive = true
  := by
  intro g
  -- It is enough that the broker was seen at the time of an attempt.
  suffices hseen : ∃ k i, (turns k i).network = .delivered ∧ (turns k i).consensus.Leads
      ∧ Seen c.brokerId c.brokerAddress (.ofUnixMilli (turns k i).stamp) g by
    obtain ⟨k, i, hnetwork, hleads, hseen⟩ := hseen
    refine ⟨k, i, hnetwork, hleads, hseen, fun clock entries now hentries hnow => ?_⟩
    exact (hseen.applyAll clock hentries).alive hnow
  cases hcall : (c.client.callWithFailover
      (serve json timeout visits (turns 0) (.heartbeat c.brokerId)) f).2.2 with
  | error status =>
      simp only [Answered, hcall] at hanswered
  | ok response =>
      simp only [Answered, hcall] at hanswered
      obtain ⟨hown, i, u, hu, hnetwork, hhandle⟩ := exists_answered (.inl rfl) (hbefore 0) hf hcall
      by_cases hacknowledged : isAcknowledged response = true
      · obtain ⟨hleads, hseen⟩ := seen_of_heartbeat hu (hstamp 0 i) hhandle hacknowledged
        refine ⟨0, i, hnetwork, hleads, ?_⟩
        simp only [g, heartbeatOnce, hcall, if_pos hacknowledged]
        exact hseen
      · -- The broker is not known, and registers again.
        obtain ⟨hstate, hresponse⟩ := registerBroker_eq
          (fun request => serve json timeout visits (turns 1) request)
          { c with client := (c.client.callWithFailover
            (serve json timeout visits (turns 0) (.heartbeat c.brokerId)) f).1 }
          (c.client.callWithFailover
            (serve json timeout visits (turns 0) (.heartbeat c.brokerId)) f).2.1
        obtain ⟨response', hcall'⟩ := hresponse (hanswered.resolve_left hacknowledged)
        obtain ⟨-, i', u', -, hnetwork', hhandle'⟩ :=
          exists_answered (.inr rfl) (hbefore 1) hown hcall'
        obtain ⟨hleads, hseen⟩ := seen_of_registerBroker (hstamp 1 i') hhandle'
        refine ⟨1, i', hnetwork', hleads, ?_⟩
        simp only [g, heartbeatOnce, hcall, if_neg hacknowledged]
        exact hstate ▸ hseen

/-- All attempts arrive at the leader, one second after the epoch. -/
def promptTurns : ℕ → ℕ → Turn := fun _ _ => ⟨⟨1000000000⟩, id, ⟨true, none, .applied⟩, .delivered⟩

def exampleClient : BrokerClient := ⟨⟨["n1"], 0, by decide⟩, "b1", "10.0.0.1:9200", true⟩

theorem callWithFailover_of_ok {c : ControlPlaneClient} {rpc : Rpc σ Response} {s t : σ}
    (h : rpc 0 c.target s = (t, .ok response)) :
  c.callWithFailover rpc s = (c, t, .ok response)
  := by
  have hattempts : c.callWithFailover rpc s = (c, (rpc 0 c.target s).1, .ok response) :=
    ControlPlaneClient.attempts_ok (congrArg Prod.snd h)
  rw [hattempts, h]

/-- The commands of the broker, and their encodings. -/
def exampleEntries : List (Command × List UInt8) :=
  [({ kind := "heartbeat", brokerId := "b1", timestampMs := 1000 },
      Fsm.bytes "\x7b\"kind\":\"heartbeat\",\"broker_id\":\"b1\",\"timestamp_ms\":1000\x7d"),
    ({ kind := "register_broker", brokerId := "b1", address := "10.0.0.1:9200",
        timestampMs := 1000 },
      Fsm.bytes ("\x7b\"kind\":\"register_broker\",\"broker_id\":\"b1\","
        ++ "\"address\":\"10.0.0.1:9200\",\"timestamp_ms\":1000\x7d"))]

/-- A cluster that has lost its state does not know the broker, and then knows it again. -/
theorem heartbeat_heals_lost :
  ∃ (json : Json) (visits : Visits), (∀ x ∈ exampleEntries, json.encodeCommand x.1 = x.2)
    ∧ let rpc := fun k => serve json 5000000000 visits (promptTurns k)
    exampleClient.Answered rpc .new ∧ (exampleClient.heartbeatOnce rpc .new).2.2 = false
      ∧ ∃ time, Seen "b1" "10.0.0.1:9200" time (exampleClient.heartbeatOnce rpc .new).2.1
  := by
  obtain ⟨json, hspells⟩ :=
    Json.exists_spells exampleEntries (by decide +kernel) (by decide +kernel)
  obtain ⟨visits⟩ : Nonempty Visits := inferInstance
  refine ⟨json, visits, hspells, ?_⟩
  intro rpc
  have hstamp : (Time.mk 1000000000).unixMilli ≠ 0 := by decide
  have hleads : Consensus.Leads ⟨true, none, .applied⟩ := ⟨rfl, rfl⟩
  have hunknown : exampleClient.client.callWithFailover (rpc 0 (.heartbeat "b1")) .new
      = (exampleClient.client, .new, .ok (.heartbeat false)) := by
    apply callWithFailover_of_ok
    change heartbeat json ⟨true, none, .applied⟩ ⟨1000000000⟩ .new "b1" = _
    rw [heartbeat, propose_leads hleads, Fsm.applyCommand_heartbeat _ _ _ hstamp]
    rfl
  have hknown : ∃ f, exampleClient.client.callWithFailover
      (rpc 1 (.registerBroker "b1" "10.0.0.1:9200")) .new
      = (exampleClient.client, f, .ok (.registerBroker true)) := by
    refine ⟨⟨.new, Membership.new.registerAt "b1" "10.0.0.1:9200"
      (.ofUnixMilli (Time.mk 1000000000).unixMilli), 0, .empty⟩, ?_⟩
    apply callWithFailover_of_ok
    change Replicated.registerBroker json ⟨true, none, .applied⟩ ⟨1000000000⟩ .new "b1"
      "10.0.0.1:9200" = _
    rw [Replicated.registerBroker, propose_leads hleads,
      Fsm.applyCommand_registerBroker _ _ _ _ hstamp]
    rfl
  obtain ⟨f, hknown⟩ := hknown
  have hanswered : exampleClient.Answered rpc .new := by
    rw [Answered]
    simp only [exampleClient] at hunknown hknown ⊢
    simp only [hunknown, registerBroker, hknown]
    exact .inr rfl
  refine ⟨hanswered, ?_, ?_⟩
  · rw [heartbeatOnce]
    simp only [exampleClient] at hunknown ⊢
    simp only [hunknown]
    rfl
  · have hown : Own "b1" "10.0.0.1:9200" .new := fun rec hrec => by cases hrec
    have hstamps : ∀ k i, (promptTurns k i).stamp ≠ 0 := fun _ _ => hstamp
    obtain ⟨k, i, -, -, hseen, -⟩ := heartbeat_heals hstamps (fun _ _ _ h => h) hown hanswered
    exact ⟨_, hseen⟩

end BrokerClient

end Replicated
