import Mathlib.Data.List.Perm.Basic
import Mathlib.Data.Int.Order.Basic
import Cascade.RaftNode.Convergence

/-!
# The times of heartbeats

A heartbeat to which the leader assigned a time raises the last heartbeat of its broker to this
time. As the later of two times does not depend on their order, heartbeats commute, and nothing
changes when some of them are applied once more (`Fsm.heartbeats_commute`).

A registration does not compare: it stores its time, also over a later one. Between two leaders
whose clocks differ, that takes the last heartbeat of a broker back (`Fsm.heartbeats_forward_iff`).
-/

open ControlPlane

namespace ControlPlane

/-! ### The later time -/

/-- The later of two times. -/
def Time.later (t u : Time) : Time := ⟨max t.nanoseconds u.nanoseconds⟩

theorem Time.later_right_comm (t u v : Time) :
  (t.later u).later v = (t.later v).later u
  := congrArg Time.mk (max_right_comm ..)

/-- The latest of a time and some others. -/
def Time.latest (t : Time) (times : List Time) : Time := times.foldl Time.later t

theorem Time.latest_perm {times times' : List Time} (h : times.Perm times') (t : Time) :
  t.latest times = t.latest times'
  := h.foldl_eq' (fun u _ v _ w => Time.later_right_comm w u v) t

theorem Time.le_latest (t : Time) (times : List Time) :
  t.nanoseconds ≤ (t.latest times).nanoseconds
    ∧ ∀ u ∈ times, u.nanoseconds ≤ (t.latest times).nanoseconds
  := by
  induction times generalizing t with
  | nil => exact ⟨le_refl _, by simp⟩
  | cons u times ih =>
      obtain ⟨hle, hall⟩ := ih (t.later u)
      refine ⟨(le_max_left ..).trans hle, ?_⟩
      intro v hv
      rcases List.mem_cons.mp hv with rfl | hv
      · exact (le_max_right ..).trans hle
      · exact hall v hv

/-- Times that are not later do not matter. -/
theorem Time.latest_of_le {t : Time} {times : List Time}
    (h : ∀ u ∈ times, u.nanoseconds ≤ t.nanoseconds) :
  t.latest times = t
  := by
  induction times with
  | nil => rfl
  | cons u times ih =>
      rw [List.forall_mem_cons] at h
      have hlater : t.later u = t := congrArg Time.mk (max_eq_left h.1)
      rw [Time.latest, List.foldl_cons, hlater]
      exact ih h.2

namespace Membership

/-- Noting a heartbeat stores the later of two times. -/
theorem heartbeatAt_eq (m : Membership) (brokerId : String) (time : Time) :
  m.heartbeatAt brokerId time = (m.brokers.find? brokerId).map fun rec =>
    ⟨m.brokers.put { rec with lastHeartbeat := rec.lastHeartbeat.later time }⟩
  := by
  rw [heartbeatAt]
  cases hrec : m.brokers.find? brokerId with
  | none => rfl
  | some rec =>
      simp only [Option.map_some]
      split
      · next hafter =>
          have hlater : rec.lastHeartbeat.later time = time :=
            congrArg Time.mk (max_eq_right (le_of_lt hafter))
          rw [hlater]
      · next hafter =>
          have hlater : rec.lastHeartbeat.later time = rec.lastHeartbeat :=
            congrArg Time.mk (max_eq_left (not_lt.mp hafter))
          obtain rfl := Registry.key_of_find? hrec
          rw [hlater, Registry.put_of_find? hrec]

/-- The brokers after a heartbeat. One that is not registered changes nothing. -/
theorem find?_heartbeatAt (m : Membership) (brokerId : String) (time : Time) (id : String) :
  ((m.heartbeatAt brokerId time).getD m).brokers.find? id
    = (m.brokers.find? id).map fun rec => { rec with
        lastHeartbeat := rec.lastHeartbeat.latest (if brokerId = id then [time] else []) }
  := by
  rw [heartbeatAt_eq]
  cases hrec : m.brokers.find? brokerId with
  | none =>
      rw [Option.map_none, Option.getD_none]
      split
      · next heq => rw [← heq, hrec, Option.map_none]
      · exact (Option.map_id_apply).symm
  | some rec =>
      rw [Option.map_some, Option.getD_some]
      obtain rfl := Registry.key_of_find? hrec
      split
      · next heq =>
          subst heq
          rw [hrec]
          exact Registry.find?_put_self ..
      · next hne =>
          refine (m.brokers.find?_put_of_ne ?_).trans (Option.map_id_apply).symm
          exact Ne.symm hne

end Membership

end ControlPlane

namespace RaftNode

/-! ### Lists of heartbeats -/

/-- The time that the leader assigned. -/
def Command.time (cmd : Command) : Time := .ofUnixMilli cmd.timestampMs

/-- A heartbeat with a time from the leader. -/
structure Command.IsHeartbeat (cmd : Command) : Prop where
  kind : CommandKind.ofString cmd.kind = .heartbeat
  stamped : cmd.timestampMs ≠ 0

/-- The entry is a heartbeat with a time from the leader. -/
def Json.IsHeartbeat (json : Json) (data : List UInt8) : Prop :=
  ∃ cmd, json.unmarshalCommand data = .ok cmd ∧ cmd.IsHeartbeat

/-- The times of the heartbeats of a broker. -/
def Json.heartbeatTimes (json : Json) (brokerId : String) (entries : List (List UInt8)) :
    List Time :=
  entries.flatMap fun data =>
    match json.unmarshalCommand data with
    | .error _ => []
    | .ok cmd => if cmd.brokerId = brokerId then [cmd.time] else []

namespace Fsm

variable {json : Json}

/-- One heartbeat. -/
theorem apply_heartbeat {data : List UInt8} {cmd : Command}
    (hdata : json.unmarshalCommand data = .ok cmd) (h : cmd.IsHeartbeat) (now : Time) (f : Fsm) :
  f.apply json now data
    = ({ f with membership := (f.membership.heartbeatAt cmd.brokerId cmd.time).getD f.membership },
      if (f.membership.brokers.find? cmd.brokerId).isSome then {}
      else { err := some ("heartbeat on unregistered broker: " ++ cmd.brokerId) })
  := by
  have htime : Time.ofUnixMilli cmd.timestampMs = cmd.time := rfl
  rw [apply, hdata]
  simp only [applyCommand, h.kind, if_pos h.stamped, htime, Membership.heartbeatAt_eq]
  cases f.membership.brokers.find? cmd.brokerId with
  | none => rfl
  | some rec => rfl

/-- What a heartbeat returns is not changed by another one before it. -/
theorem apply_heartbeat_snd {data data' : List UInt8} (h : json.IsHeartbeat data)
    (h' : json.IsHeartbeat data') (now now' now'' : Time) (f : Fsm) :
  ((f.apply json now data).1.apply json now' data').2 = (f.apply json now'' data').2
  := by
  obtain ⟨cmd, hdata, hcmd⟩ := h
  obtain ⟨cmd', hdata', hcmd'⟩ := h'
  rw [apply_heartbeat hdata' hcmd', apply_heartbeat hdata' hcmd', apply_heartbeat hdata hcmd]
  simp only [Membership.find?_heartbeatAt, Option.isSome_map]

section

variable {entries : List (List UInt8)}

/-- After a list of heartbeats, the last heartbeat of each broker is the latest of its times. -/
theorem find?_applyAll_heartbeats (h : ∀ data ∈ entries, json.IsHeartbeat data)
    (clock : ℕ → Time) (f : Fsm) (id : String) :
  (f.applyAll json clock entries).1.membership.brokers.find? id
    = (f.membership.brokers.find? id).map fun rec => { rec with
        lastHeartbeat := rec.lastHeartbeat.latest (json.heartbeatTimes id entries) }
  := by
  induction entries generalizing f clock with
  | nil => exact (Option.map_id_apply).symm
  | cons data entries ih =>
      rw [List.forall_mem_cons] at h
      obtain ⟨⟨cmd, hdata, hcmd⟩, hentries⟩ := h
      rw [applyAll, ih hentries, apply_heartbeat hdata hcmd, Membership.find?_heartbeatAt,
        Option.map_map]
      simp only [Json.heartbeatTimes, List.flatMap_cons, hdata, Time.latest, List.foldl_append]
      rfl

/-- They change nothing but the brokers. -/
theorem exists_membership (h : ∀ data ∈ entries, json.IsHeartbeat data) (clock : ℕ → Time)
    (f : Fsm) :
  ∃ membership, (f.applyAll json clock entries).1 = { f with membership }
  := by
  induction entries generalizing f clock with
  | nil => exact ⟨f.membership, rfl⟩
  | cons data entries ih =>
      rw [List.forall_mem_cons] at h
      obtain ⟨⟨cmd, hdata, hcmd⟩, hentries⟩ := h
      obtain ⟨membership, hrest⟩ :=
        ih hentries (fun i => clock (i + 1)) (f.apply json (clock 0) data).1
      use membership
      rw [applyAll, hrest, apply_heartbeat hdata hcmd]

/-- Each one returns what it would return alone. -/
theorem applyAll_heartbeats_snd (h : ∀ data ∈ entries, json.IsHeartbeat data)
    (clock : ℕ → Time) (now : Time) (f : Fsm) :
  (f.applyAll json clock entries).2 = entries.map fun data => (f.apply json now data).2
  := by
  induction entries generalizing f clock with
  | nil => rfl
  | cons data entries ih =>
      rw [List.forall_mem_cons] at h
      obtain ⟨cmd, hdata, hcmd⟩ := h.1
      rw [applyAll, ih h.2, List.map_cons]
      refine congrArg₂ List.cons ?_ ?_
      · rw [apply_heartbeat hdata hcmd, apply_heartbeat hdata hcmd]
      · apply List.map_congr_left
        intro data' hdata'
        exact apply_heartbeat_snd h.1 (h.2 data' hdata') ..

end

variable {f g : Fsm}

/-- States that differ at most in the brokers are equal if the brokers are. -/
theorem eq_of_brokers {membership : Membership} (hg : g = { f with membership })
    (h : ∀ id, g.membership.brokers.find? id = f.membership.brokers.find? id) :
  g = f
  := by
  subst hg
  have hmembership : membership = f.membership :=
    congrArg ControlPlane.Membership.mk (Registry.ext h)
  rw [hmembership]

/-- The order of heartbeats does not matter. -/
theorem applyAll_heartbeats_perm {entries entries' : List (List UInt8)}
    (h : ∀ data ∈ entries, json.IsHeartbeat data) (hperm : entries'.Perm entries)
    (clock clock' : ℕ → Time) (f : Fsm) :
  (f.applyAll json clock' entries').1 = (f.applyAll json clock entries).1
  := by
  have h' : ∀ data ∈ entries', json.IsHeartbeat data :=
    fun data hdata => h data (hperm.subset hdata)
  obtain ⟨membership, hg⟩ := exists_membership h clock f
  obtain ⟨membership', hg'⟩ := exists_membership h' clock' f
  have hframe : (f.applyAll json clock' entries').1
      = { (f.applyAll json clock entries).1 with membership := membership' } := by
    rw [hg', hg]
  apply eq_of_brokers hframe
  intro id
  have htimes : (json.heartbeatTimes id entries').Perm (json.heartbeatTimes id entries) :=
    hperm.flatMap_right _
  rw [find?_applyAll_heartbeats h, find?_applyAll_heartbeats h']
  simp only [Time.latest_perm htimes]

/-- Heartbeats that were applied before change nothing. -/
theorem applyAll_heartbeats_again {entries part : List (List UInt8)}
    (h : ∀ data ∈ entries, json.IsHeartbeat data) (hpart : ∀ data ∈ part, data ∈ entries)
    (clock clock' : ℕ → Time) (f : Fsm) :
  ((f.applyAll json clock entries).1.applyAll json clock' part).1
    = (f.applyAll json clock entries).1
  := by
  have hpart' : ∀ data ∈ part, json.IsHeartbeat data :=
    fun data hdata => h data (hpart data hdata)
  obtain ⟨membership', hg'⟩ := exists_membership hpart' clock' (f.applyAll json clock entries).1
  apply eq_of_brokers hg'
  intro id
  rw [find?_applyAll_heartbeats hpart', find?_applyAll_heartbeats h, Option.map_map]
  congr 1
  funext rec
  -- The times of the part are among those that are noted already.
  have hold : ∀ t ∈ json.heartbeatTimes id part, t.nanoseconds
      ≤ (rec.lastHeartbeat.latest (json.heartbeatTimes id entries)).nanoseconds := by
    intro t ht
    obtain ⟨data, hdata, ht⟩ := List.mem_flatMap.mp ht
    apply (Time.le_latest ..).2
    exact List.mem_flatMap.mpr ⟨data, hpart data hdata, ht⟩
  simp only [Function.comp_apply, Time.latest_of_le hold]

/-- Heartbeats commute. In any order a list of them gives the same state, in which the last
heartbeat of each broker is the latest of its times and nothing else has changed, and each returns
what it would return alone. Applying some of them again changes nothing. -/
theorem heartbeats_commute (json : Json) (f : Fsm) (entries : List (List UInt8))
    (h : ∀ data ∈ entries, json.IsHeartbeat data) (clock : ℕ → Time) :
  let g := (f.applyAll json clock entries).1
  (∀ entries', entries'.Perm entries → ∀ clock' now,
      (f.applyAll json clock' entries').1 = g
        ∧ (f.applyAll json clock' entries').2
          = entries'.map fun data => (f.apply json now data).2)
    ∧ (∀ id, g.membership.brokers.find? id
      = (f.membership.brokers.find? id).map fun rec => { rec with
          lastHeartbeat := rec.lastHeartbeat.latest (json.heartbeatTimes id entries) })
    ∧ g = { f with membership := g.membership }
    ∧ ∀ part, (∀ data ∈ part, data ∈ entries) → ∀ clock', (g.applyAll json clock' part).1 = g
  := by
  intro g
  refine ⟨?_, find?_applyAll_heartbeats h clock f, ?_, ?_⟩
  · intro entries' hperm clock' now
    have h' : ∀ data ∈ entries', json.IsHeartbeat data :=
      fun data hdata => h data (hperm.subset hdata)
    exact ⟨applyAll_heartbeats_perm h hperm clock clock' f,
      applyAll_heartbeats_snd h' clock' now f⟩
  · obtain ⟨membership, hg⟩ := exists_membership h clock f
    simp only [g, hg]
  · intro part hpart clock'
    apply applyAll_heartbeats_again h hpart

theorem entriesJson_registerEntry :
  entriesJson.unmarshalCommand registerEntry
    = .ok { kind := "register_broker", brokerId := "b1", address := "a1", timestampMs := 1000 }
  := if_pos rfl

theorem entriesJson_heartbeatEntry :
  entriesJson.unmarshalCommand heartbeatEntry
    = .ok { kind := "heartbeat", brokerId := "b1", timestampMs := 2000 }
  := by
  have hne : heartbeatEntry ≠ registerEntry := by decide +kernel
  exact (if_neg hne).trans (if_pos rfl)

/-- A heartbeat of a registered broker, and the same one again. -/
theorem heartbeats_commute_again :
  let g := (registered.applyAll entriesJson (fun _ => ⟨7⟩) [heartbeatEntry]).1
  g.membership.brokers.find? "b1" = some ⟨"b1", "a1", Time.ofUnixMilli 2000⟩
    ∧ (g.applyAll entriesJson (fun _ => ⟨8⟩) [heartbeatEntry, heartbeatEntry]).1 = g
  := by
  have hbeat : entriesJson.IsHeartbeat heartbeatEntry :=
    ⟨_, entriesJson_heartbeatEntry, by decide, by decide⟩
  have hall : ∀ data ∈ [heartbeatEntry], entriesJson.IsHeartbeat data := by
    intro data hdata
    rwa [List.mem_singleton.mp hdata]
  obtain ⟨-, hfind, -, hpart⟩ :=
    heartbeats_commute entriesJson registered [heartbeatEntry] hall fun _ => ⟨7⟩
  exact ⟨(hfind "b1").trans (by decide +kernel), hpart _ (by simp) _⟩

/-! ### Runs with registrations and snapshots -/

/-- What may happen to the brokers of a state: a command is applied, or the state is restored from
its own snapshot. -/
inductive BrokerEvent where
  | command (cmd : Command)
  | restored

/-- One event. Commands register a broker or are heartbeats, with a time from the leader. -/
inductive BrokerStep (json : Json) : Fsm → BrokerEvent → Fsm → Prop
  | command {f : Fsm} {data : List UInt8} {cmd : Command} (now : Time)
      (hdata : json.unmarshalCommand data = .ok cmd)
      (hkind : CommandKind.ofString cmd.kind = .registerBroker
        ∨ CommandKind.ofString cmd.kind = .heartbeat)
      (hstamp : cmd.timestampMs ≠ 0) :
      BrokerStep json f (.command cmd) (f.apply json now data).1
  | restored {f g : Fsm} {orders : f.Orders} {data : List UInt8}
      (hdata : json.decodeSnapshot data = .ok (f.snapshot orders))
      (hrestore : f.restore json data = .ok g) :
      BrokerStep json f .restored g

/-- A run, given by each event and the state before it. -/
inductive BrokerRun (json : Json) : Fsm → List (Fsm × BrokerEvent) → Fsm → Prop
  | nil {f : Fsm} : BrokerRun json f [] f
  | cons {f g h : Fsm} {event : BrokerEvent} {rest : List (Fsm × BrokerEvent)}
      (first : BrokerStep json f event g) (later : BrokerRun json g rest h) :
      BrokerRun json f ((f, event) :: rest) h

/-- No broker looks staler in the second state than in the first. -/
def Forward (f g : Fsm) : Prop :=
  ∀ id rec, f.membership.brokers.find? id = some rec →
    ∃ rec', g.membership.brokers.find? id = some rec'
      ∧ rec.lastHeartbeat.nanoseconds ≤ rec'.lastHeartbeat.nanoseconds

/-- A command that registers a broker again does not do so at an earlier time. -/
def ReRegistersLater (f : Fsm) (cmd : Command) : Prop :=
  CommandKind.ofString cmd.kind = .registerBroker →
    ∀ rec, f.membership.brokers.find? cmd.brokerId = some rec →
      rec.lastHeartbeat.nanoseconds ≤ cmd.time.nanoseconds

/-- What keeps an event from taking a time back. -/
def BrokerEvent.Orderly (f : Fsm) : BrokerEvent → Prop
  | command cmd => f.ReRegistersLater cmd
  | restored => ∀ id rec, f.membership.brokers.find? id = some rec →
      rec.lastHeartbeat.nanoseconds ≤ (Time.ofUnixMilli rec.lastHeartbeat.unixMilli).nanoseconds

theorem Forward.trans {f g h : Fsm} (hfg : Forward f g) (hgh : Forward g h) :
  Forward f h
  := by
  intro id rec hrec
  obtain ⟨rec', hrec', hle⟩ := hfg id rec hrec
  obtain ⟨rec'', hrec'', hle'⟩ := hgh id rec' hrec'
  exact ⟨rec'', hrec'', hle.trans hle'⟩

/-- A heartbeat takes no time back. -/
theorem forward_heartbeat {data : List UInt8} {cmd : Command}
    (hdata : json.unmarshalCommand data = .ok cmd) (h : cmd.IsHeartbeat) (now : Time) (f : Fsm) :
  Forward f (f.apply json now data).1
  := by
  intro id rec hrec
  rw [apply_heartbeat hdata h]
  simp only [Membership.find?_heartbeatAt, hrec, Option.map_some]
  exact ⟨_, rfl, (Time.le_latest ..).1⟩

/-- A registration stores its time, and nothing else changes. -/
theorem forward_register_iff {data : List UInt8} {cmd : Command}
    (hdata : json.unmarshalCommand data = .ok cmd)
    (hkind : CommandKind.ofString cmd.kind = .registerBroker) (hstamp : cmd.timestampMs ≠ 0)
    (now : Time) (f : Fsm) :
  Forward f (f.apply json now data).1 ↔ f.ReRegistersLater cmd
  := by
  have happly : (f.apply json now data).1.membership.brokers
      = f.membership.brokers.put ⟨cmd.brokerId, cmd.address, cmd.time⟩ := by
    rw [apply, hdata]
    simp only [applyCommand, hkind, if_pos hstamp]
    rfl
  constructor
  · intro h _ rec hrec
    obtain ⟨rec', hrec', hle⟩ := h cmd.brokerId rec hrec
    rw [happly] at hrec'
    obtain rfl := Option.some_inj.mp
      ((f.membership.brokers.find?_put_self ⟨cmd.brokerId, cmd.address, _⟩).symm.trans hrec')
    exact hle
  · intro h id rec hrec
    rw [happly]
    by_cases hid : id = cmd.brokerId
    · subst hid
      exact ⟨_, f.membership.brokers.find?_put_self ⟨cmd.brokerId, cmd.address, _⟩,
        h hkind rec hrec⟩
    · exact ⟨rec, (f.membership.brokers.find?_put_of_ne hid).trans hrec, le_refl _⟩

/-- What a snapshot keeps of the brokers. -/
theorem find?_restore {f g other : Fsm} {orders : f.Orders} {data : List UInt8}
    (hdata : json.decodeSnapshot data = .ok (f.snapshot orders))
    (hrestore : other.restore json data = .ok g) (id : String) :
  g.membership.brokers.find? id = (f.membership.brokers.find? id).map fun rec => { rec with
    lastHeartbeat := .ofUnixMilli rec.lastHeartbeat.unixMilli }
  := by
  rw [restore, hdata] at hrestore
  obtain rfl := Except.ok.inj hrestore
  simp only [snapshot, Membership.restoreBrokers, Membership.snapshotBrokers, List.map_map]
  exact Registry.find?_ofList_map orders.brokers (g := fun rec => { rec with
    lastHeartbeat := .ofUnixMilli rec.lastHeartbeat.unixMilli }) (fun _ => rfl) id

theorem BrokerStep.forward_iff {event : BrokerEvent} (h : BrokerStep json f event g) :
  Forward f g ↔ event.Orderly f
  := by
  cases h with
  | command now hdata hkind hstamp =>
      rcases hkind with hkind | hkind
      · exact forward_register_iff hdata hkind hstamp now f
      · refine iff_of_true (forward_heartbeat hdata ⟨hkind, hstamp⟩ now f) ?_
        intro hkind'
        rw [hkind] at hkind'
        cases hkind'
  | restored hdata hrestore =>
      constructor
      · intro h id rec hrec
        obtain ⟨rec', hrec', hle⟩ := h id rec hrec
        rw [find?_restore hdata hrestore, hrec] at hrec'
        obtain rfl := Option.some_inj.mp hrec'
        exact hle
      · intro h id rec hrec
        rw [find?_restore hdata hrestore, hrec]
        exact ⟨_, rfl, h id rec hrec⟩

/-- The times stay whole milliseconds. -/
theorem BrokerStep.exact {event : BrokerEvent} (h : BrokerStep json f event g)
    (hf : Exact f.membership) :
  Exact g.membership
  := by
  cases h with
  | command now hdata hkind hstamp =>
      rw [apply, hdata]
      exact hf.applyCommand (fun _ => hstamp) now
  | restored hdata hrestore =>
      rw [restore_snapshot hf _ hdata] at hrestore
      obtain rfl := Except.ok.inj hrestore
      exact hf

variable {steps : List (Fsm × BrokerEvent)}

/-- The first state of a run is the one before its first event, if there is one. -/
theorem BrokerRun.states_eq (h : BrokerRun json f steps g) :
  ∃ later, steps.map Prod.fst ++ [g] = f :: later
  := by
  cases h with
  | nil => exact ⟨[], rfl⟩
  | cons => exact ⟨_, rfl⟩

/-- If no time goes back in one step, none does between any two moments of the run. -/
theorem BrokerRun.pairwise_iff (h : BrokerRun json f steps g) :
  (steps.map Prod.fst ++ [g]).Pairwise Forward ↔ ∀ step ∈ steps, step.2.Orderly step.1
  := by
  induction h with
  | nil => simp
  | @cons f f' g event rest first later ih =>
      obtain ⟨states, hstates⟩ := later.states_eq
      rw [List.forall_mem_cons, ← ih, ← first.forward_iff, List.map_cons, List.cons_append,
        List.pairwise_cons, hstates, List.pairwise_cons]
      constructor
      · rintro ⟨hall, hrest⟩
        exact ⟨hall f' List.mem_cons_self, hrest⟩
      · rintro ⟨hfirst, hlater, hrest⟩
        refine ⟨?_, hlater, hrest⟩
        intro h hh
        rcases List.mem_cons.mp hh with rfl | hh
        · exact hfirst
        · exact hfirst.trans (hlater h hh)

/-- If the times are whole milliseconds, a snapshot keeps them. -/
theorem BrokerRun.orderly_iff (h : BrokerRun json f steps g) (hf : Exact f.membership) :
  (∀ step ∈ steps, step.2.Orderly step.1)
    ↔ ∀ step ∈ steps, ∀ cmd, step.2 = .command cmd → step.1.ReRegistersLater cmd
  := by
  induction h with
  | nil => simp
  | @cons f f' g event rest first later ih =>
      rw [List.forall_mem_cons, List.forall_mem_cons, ih (first.exact hf)]
      refine and_congr_left fun _ => ?_
      cases event with
      | command cmd => simp [BrokerEvent.Orderly]
      | restored =>
          refine iff_of_true ?_ (by simp)
          intro id rec hrec
          rw [hf id rec hrec]

/-- Along a run, the last heartbeats never move backwards if and only if no command registers a
broker again at a time before its last heartbeat, and no snapshot rounds a last heartbeat down. The
latter never happens if the times are whole milliseconds at the beginning, as they are in a new
state. -/
theorem heartbeats_forward_iff (json : Json) {f g : Fsm} {steps : List (Fsm × BrokerEvent)}
    (h : BrokerRun json f steps g) :
  ((steps.map Prod.fst ++ [g]).Pairwise Forward ↔ ∀ step ∈ steps, step.2.Orderly step.1)
    ∧ (Exact f.membership →
      ((steps.map Prod.fst ++ [g]).Pairwise Forward
        ↔ ∀ step ∈ steps, ∀ cmd, step.2 = .command cmd → step.1.ReRegistersLater cmd))
  := ⟨h.pairwise_iff, fun hf => h.pairwise_iff.trans (h.orderly_iff hf)⟩

/-- The state after the heartbeat. -/
def heardFrom : Fsm :=
  { new with membership := ⟨Registry.empty.put ⟨"b1", "a1", Time.ofUnixMilli 2000⟩⟩ }

theorem registerStep
    (h : (f.applyCommand ⟨0⟩
      { kind := "register_broker", brokerId := "b1", address := "a1", timestampMs := 1000 }).1
        = g) :
  BrokerStep entriesJson f (.command
    { kind := "register_broker", brokerId := "b1", address := "a1", timestampMs := 1000 }) g
  := by
  have happly : (f.apply entriesJson ⟨0⟩ registerEntry).1 = g := by
    rw [apply, entriesJson_registerEntry]
    exact h
  rw [← happly]
  exact .command ⟨0⟩ entriesJson_registerEntry (.inl rfl) (by decide)

theorem heartbeatStep
    (h : (f.applyCommand ⟨0⟩ { kind := "heartbeat", brokerId := "b1", timestampMs := 2000 }).1
      = g) :
  BrokerStep entriesJson f (.command
    { kind := "heartbeat", brokerId := "b1", timestampMs := 2000 }) g
  := by
  have happly : (f.apply entriesJson ⟨0⟩ heartbeatEntry).1 = g := by
    rw [apply, entriesJson_heartbeatEntry]
    exact h
  rw [← happly]
  exact .command ⟨0⟩ entriesJson_heartbeatEntry (.inr rfl) (by decide)

/-- A broker is registered and then heard from. -/
theorem heartbeats_forward_heard :
  let steps := [
    (new, BrokerEvent.command
      { kind := "register_broker", brokerId := "b1", address := "a1", timestampMs := 1000 }),
    (registered, .command { kind := "heartbeat", brokerId := "b1", timestampMs := 2000 })]
  BrokerRun entriesJson new steps heardFrom
    ∧ (steps.map Prod.fst ++ [heardFrom]).Pairwise Forward
  := by
  intro steps
  have hrun : BrokerRun entriesJson new steps heardFrom :=
    .cons (registerStep (by decide +kernel)) (.cons (heartbeatStep (by decide +kernel)) .nil)
  refine ⟨hrun, ((heartbeats_forward_iff entriesJson hrun).2 Exact.new).mpr ?_⟩
  simp [steps, ReRegistersLater, new, CommandKind.ofString, Membership.new]

/-- Then another leader, whose clock is behind, registers it again: it looks staler than it was. -/
theorem register_moves_back :
  let register : Command :=
    { kind := "register_broker", brokerId := "b1", address := "a1", timestampMs := 1000 }
  let heartbeat : Command := { kind := "heartbeat", brokerId := "b1", timestampMs := 2000 }
  let steps := [(new, BrokerEvent.command register), (registered, .command heartbeat),
    (heardFrom, .command register)]
  BrokerRun entriesJson new steps registered
    ∧ heardFrom.membership.brokers.find? "b1" = some ⟨"b1", "a1", .ofUnixMilli 2000⟩
    ∧ registered.membership.brokers.find? "b1" = some ⟨"b1", "a1", .ofUnixMilli 1000⟩
    ∧ ¬ (steps.map Prod.fst ++ [registered]).Pairwise Forward
  := by
  intro register heartbeat steps
  have hrun : BrokerRun entriesJson new steps registered :=
    .cons (registerStep (by decide +kernel)) (.cons (heartbeatStep (by decide +kernel))
      (.cons (registerStep (by decide +kernel)) .nil))
  refine ⟨hrun, by decide +kernel, by decide +kernel, ?_⟩
  intro hforward
  have horderly := hrun.pairwise_iff.mp hforward (heardFrom, .command register) (by simp [steps])
  have hle := horderly rfl ⟨"b1", "a1", .ofUnixMilli 2000⟩ (by decide +kernel)
  exact absurd hle (by decide)

end Fsm

end RaftNode
