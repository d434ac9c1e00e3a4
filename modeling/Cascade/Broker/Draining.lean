import Cascade.Broker.Backpressure
import Cascade.Broker.EndToEnd

/-!
# Catching up

What it takes for the consumers to have everything. A record that is acknowledged before the owner
of its partition calls `poll` has been returned when this poll returns fewer records than it may,
or was committed before (`Pipeline.acknowledged_then_polled`).

This is also what lets the producers go on. A thread that waits since the consumers lag too far
behind does not wait for ever because of the consumers of its own group: whatever state the system
is in, the owner of the partition can take steps after which the thread is admitted
(`Pipeline.backpressure_released`).
-/

open Storage

namespace Broker

variable {c : Consumer}

namespace Consuming

variable {m : ℕ} {ops : ℕ → List Op} {s : Consuming} {k : Member} {n : ℕ → ℕ}

/-! ### What a poll finds -/

/-- A poll of the member that is under way has found the partitions that it has left behind at least
as long as `n` says. -/
def Since (k : Member) (n : ℕ → ℕ) (s : Consuming) : Prop :=
  ∀ c maxRecords results rest ends, s.consumers k = some c →
    c.call = .polling maxRecords results rest ends → ∀ p ∈ c.partitions, p ∉ rest → n p ≤ ends p

theorem since_setConsumer
    (hc : ∀ maxRecords results rest ends, c.call = .polling maxRecords results rest ends →
      ∀ p ∈ c.partitions, p ∉ rest → n p ≤ ends p) :
  (s.setConsumer k c).Since k n
  := by
  intro c' maxRecords results rest ends hc'
  rw [setConsumer_self, Option.some_inj] at hc'
  subst hc'
  exact hc maxRecords results rest ends

theorem Since.enter (h : s.Since k n) {order : List ℕ} {call : Call}
    (hcall : ∀ maxRecords results rest ends, call = .polling maxRecords results rest ends →
      rest = order) :
  (s.enter k order call).Since k n
  := by
  rw [Consuming.enter]
  split
  · split
    · rename_i horder
      apply since_setConsumer
      intro maxRecords results rest ends hpolling p hp hrest
      rw [hcall _ _ _ _ hpolling] at hrest
      exact absurd (horder.mem_iff.mpr hp) hrest
    · exact h
  · exact h

theorem Since.proceed (h : s.Since k n) (hn : ∀ p, n p ≤ (s.topic.partition p).nextOffset)
    (hc : s.consumers k = some c) :
  (s.proceed k c).1.Since k n
  := by
  rw [Consuming.proceed]
  split
  · exact h
  · apply since_setConsumer
    rintro _ _ _ _ ⟨⟩
  · rw [examine]
    split
    · apply since_setConsumer
      rintro _ _ _ _ ⟨⟩
    · apply since_setConsumer
      rintro _ _ _ _ ⟨⟩
  · apply since_setConsumer
    rintro _ _ _ _ ⟨⟩
  · apply since_setConsumer
    rintro _ _ _ _ ⟨⟩
  · rename_i maxRecords results p rest ends hcall
    have hends := h c _ _ _ _ hc hcall
    split
    · rw [readNext]
      split
      · apply since_setConsumer
        rintro _ _ _ _ ⟨⟩ q hq hrest
        by_cases hqp : q = p
        · subst hqp
          rw [Function.update_self]
          apply hn
        · rw [Function.update_of_ne hqp]
          apply hends q hq
          simp [hqp, hrest]
      · apply since_setConsumer
        rintro _ _ _ _ ⟨⟩ q hq hrest
        have hqp : q ≠ p := by
          rintro rfl
          simp at hrest
        rw [Function.update_of_ne hqp]
        exact hends q hq hrest
    · apply since_setConsumer
      rintro _ _ _ _ ⟨⟩
  · apply since_setConsumer
    rintro _ _ _ _ ⟨⟩
  · apply since_setConsumer
    rintro _ _ _ _ ⟨⟩

theorem Since.step (h : s.Since k n) (hn : ∀ p, n p ≤ (s.topic.partition p).nextOffset)
    (a : Action) :
  (s.step a).1.Since k n
  := by
  by_cases ha : a.member? = some k
  · cases a with
    | construct k' =>
        cases ha
        simp only [Consuming.step, Consuming.construct]
        split
        · apply since_setConsumer
          rintro _ _ _ _ ⟨⟩
        · exact h
    | poll k' maxRecords order =>
        cases ha
        apply h.enter
        rintro _ _ _ _ ⟨⟩
        rfl
    | commit k' order =>
        cases ha
        apply h.enter
        exact fun _ _ _ _ hcommitting => by cases hcommitting
    | proceed k' =>
        cases ha
        simp only [Consuming.step]
        split
        · exact h
        · rename_i c hc
          exact h.proceed hn hc
    | publish p op => cases ha
    | registerElsewhere topic partition group => cases ha
    | commitElsewhere topic partition group nextOffset => cases ha
  · intro c maxRecords results rest ends hc
    rw [step_consumers_of_ne s ha] at hc
    exact h c maxRecords results rest ends hc

/-- No step shortens a partition. -/
theorem Consistent.nextOffset_le (h : s.Consistent m ops) (actions : List Action) (p : ℕ) :
  (s.topic.partition p).nextOffset ≤ ((s.run actions).topic.partition p).nextOffset
  := by
  rw [(h.logs p).stored, ((h.run actions).logs p).stored]
  apply List.IsPrefix.length_le
  rw [payloads, payloads, Op.specRun_append]
  apply Op.prefix_specRun

theorem Consistent.since_run (h : s.Consistent m ops) (hs : s.Since k n)
    (hn : ∀ p, n p ≤ (s.topic.partition p).nextOffset) (actions : List Action) :
  (s.run actions).Since k n
  := by
  induction actions generalizing s ops with
  | nil => exact hs
  | cons a actions ih =>
      apply ih (h.step a) (hs.step hn a)
      intro p
      exact (hn p).trans (h.nextOffset_le [a] p)

/-- A poll that returns fewer records than it may has read each partition to where it ended when the
poll was called, or further. -/
theorem Consistent.caught_up (h : s.Consistent m ops) (hs : s.Since k n) {a : Action} {e : Polled}
    (he : (s.step a).2 = some e) (hk : e.member = k) (hfew : e.records.length < e.maxRecords) :
  ∃ c, (s.step a).1.consumers k = some c ∧ c.call = .idle
    ∧ ∀ p ∈ c.partitions, n p ≤ (c.cursor p).toNat
  := by
  subst hk
  obtain ⟨-, c, rest, hc, hcall, hrest, hafter⟩ := step_returned he
  have hcallOk := (h.members _ c hc).call
  rw [Consumer.CallOk, hcall] at hcallOk
  obtain rfl : rest = [] := hrest.resolve_right (not_le.mpr hfew)
  refine ⟨_, hafter, rfl, ?_⟩
  intro p hp
  have hcursor : (c.cursor p).toNat = e.ends p := hcallOk.2.2.2 p hp List.not_mem_nil
  exact (hs c _ _ _ _ hc hcall p hp List.not_mem_nil).trans_eq hcursor.symm

/-- How many steps a call can still take. -/
def todo : Call → ℕ
  | .idle => 0
  | .constructing rest => 2 * rest.length + 1
  | .assigning _ rest => 2 * rest.length + 2
  | .polling maxRecords results rest _ => maxRecords - results.length + rest.length + 1
  | .committing rest => rest.length + 1

/-- The member is in a poll. -/
def Polling (k : Member) (s : Consuming) : Prop :=
  ∃ c maxRecords results rest ends, s.consumers k = some c
    ∧ c.call = .polling maxRecords results rest ends

theorem since_of_not_polling (h : ¬ s.Polling k) :
  s.Since k n
  := by
  intro c maxRecords results rest ends hc hcall
  exact absurd ⟨c, maxRecords, results, rest, ends, hc, hcall⟩ h

end Consuming

/-- The cursor behind consecutive records does not overflow. -/
theorem Consecutive.toNat_add {c : UInt64} {published : List (List UInt8)}
    {records : List PolledRecord} (h : Consecutive c published records)
    (hlength : published.length < 2 ^ 64) :
  (c + UInt64.ofNat records.length).toNat = c.toNat + records.length
  := by
  rcases List.eq_nil_or_concat' records with rfl | ⟨front, x, rfl⟩
  · simp
  · have hlast : (front ++ [x])[front.length]? = some x := List.getElem?_concat_length
    have hpublished := (List.getElem?_eq_some_iff.mp (h _ _ hlast).2).1
    have hoffset := congrArg (·[front.length]?) (h.offsets_eq hlength)
    rw [List.length_append, List.length_singleton] at hoffset ⊢
    simp only [List.getElem?_map, hlast, Option.map_some,
      List.getElem?_range' (Nat.lt_succ_self _), Option.some_inj] at hoffset
    rw [UInt64.toNat_add, UInt64.toNat_ofNat']
    omega

namespace Pipeline

open Consuming (payloads published opsOn)

variable {hash : String → UInt64} {m : ℕ} {ops : ℕ → List Op} {returned : List Returned}
  {s : Pipeline}

/-- Only a consumer's step returns a poll. -/
theorem step_polled {a : Action} {e : Polled} (he : (s.step hash a).2 = some (.polled e)) :
  ∃ action, a = .consume action ∧ (s.consuming.step action).2 = some e
  := by
  change (s.act hash a).2 = some (.polled e) at he
  cases a with
  | consume action =>
      obtain ⟨e', he', heq⟩ := Option.map_eq_some_iff.mp he
      cases heq
      exact ⟨action, rfl, he'⟩
  | call i c =>
      have hnone := polls_call hash s i c
      rw [act] at he
      rw [he] at hnone
      cases hnone
  | proceed i expired =>
      rw [act] at he
      split at he
      · cases he
      · rename_i b hb
        have hnone := polls_proceed s i b expired
        rw [he] at hnone
        cases hnone

/-- The constructor of the owner `k` of a partition comes to this partition at some point. A record
that is acknowledged while the owner is not in a poll, at or after the offset that the constructor
finds committed, has been returned when a later poll of the owner returns fewer records than it
may. -/
theorem acknowledged_then_polled {name group : String} (hname : OffsetStore.Plain name)
    (hgroup : OffsetStore.Plain group) (hash : String → UInt64) (numPartitions m : ℕ)
    (groupSize : ℕ → ℕ) (maxLagRecords : ℕ) (flushPolicy : FlushPolicy) {k : Member} {p : ℕ}
    {before waiting middle later : List Action}
    (hwaiting : ∀ a ∈ waiting, ∀ k', a.member? = some k' → k'.label = k.label)
    (hmiddle : ∀ a ∈ middle, ∀ k', a.member? = some k' → k'.label = k.label)
    (hlater : ∀ a ∈ later, ∀ k', a.member? = some k' → k'.label = k.label) :
  let start : Pipeline :=
    fresh hash name numPartitions m group groupSize maxLagRecords flushPolicy
  let actions := waiting ++ .consume (.proceed k) :: middle
  let s := start.run hash before
  let t := s.run hash actions
  let c := (((s.run hash waiting).consuming.store.get name p group).getD 0).toNat
  (s.run hash waiting).consuming.Assigning k p → ¬ t.consuming.Polling k →
    ∀ r ∈ calls (start.outputs hash (before ++ actions)), ∀ x ∈ r.records, x.partition = p →
      c ≤ x.offset → ∀ a e, ((t.run hash later).step hash a).2 = some (.polled e) →
        e.member = k → e.records.length < e.maxRecords →
        (((t.run hash later).step hash a).1.consuming.topic.partition p).nextOffset < 2 ^ 64 →
        ⟨p, x.offset, x.payload⟩ ∈ delivered p (polls (s.outputs hash (actions ++ later ++ [a])))
  := by
  intro start actions s t c hassigning hnot r hr x hx hpartition hc a e he hmember hfew hlength
  have hstart := fresh_accounted hname hgroup hash numPartitions m groupSize maxLagRecords
    flushPolicy
  obtain ⟨hs, -, -⟩ := hstart.run before
  obtain ⟨ht, -, -⟩ := hs.run actions
  obtain ⟨hu, hlogs, -⟩ := ht.run later
  have hsetup := hstart.run_setup before
  -- The poll has read the partition to where it ended before, or further.
  obtain ⟨action, rfl, hpolled⟩ := step_polled he
  have hsince := ht.consistent.since_run (Consuming.since_of_not_polling hnot)
    (fun _ => le_rfl) (t.logSteps hash later)
  rw [← hlogs] at hsince
  obtain ⟨con, hcon, hidle, hcursor⟩ := hu.consistent.caught_up hsince hpolled hmember hfew
  have hlabel : ∀ k', (Action.consume action).member? = some k' → k'.label = k.label := by
    intro k' hk'
    obtain ⟨hmember', -⟩ := Consuming.step_returned hpolled
    rw [show action.member? = some k' from hk', hmember, Option.some_inj] at hmember'
    rw [hmember']
  -- What the owner has returned reaches up to its cursor.
  let full := waiting ++ .consume (.proceed k) :: (middle ++ later ++ [.consume action])
  have hfull : actions ++ later ++ [.consume action] = full := by
    simp [actions, full]
  have hrun : s.run hash full = ((t.run hash later).step hash (.consume action)).1 := by
    rw [← hfull, run_append, run_append]
    rfl
  have hafter : ∀ a ∈ middle ++ later ++ [.consume action], ∀ k', a.member? = some k' →
      k'.label = k.label := by
    intro a ha
    rcases List.mem_append.mp ha with ha | ha
    · rcases List.mem_append.mp ha with ha | ha
      · exact hmiddle a ha
      · exact hlater a ha
    · rw [List.mem_singleton.mp ha]
      exact hlabel
  obtain ⟨con', hcon', howned, hcursor', hread⟩ := hs.delivering hassigning hwaiting hafter
  obtain ⟨hall, -, -⟩ := hs.run full
  rw [← hrun, (hall.consistent.logs p).stored, ← List.length_map (f := Payload.bytes)] at hlength
  rw [hsetup.name, hsetup.group] at hcursor' hread
  rw [hrun] at hcon'
  obtain rfl : con = con' := Option.some_inj.mp (hcon.symm.trans hcon')
  have hpending : con.pending p = [] := by rw [Consumer.pending, hidle]
  rw [hpending, List.append_nil] at hcursor' hread
  have hmem : r ∈ [] ++ calls (start.outputs hash before) ++ calls (s.outputs hash actions) := by
    rw [outputs_append, calls_append] at hr
    exact hr
  have hmem' : r ∈ [] ++ calls (start.outputs hash before) ++ calls (s.outputs hash full) := by
    rw [← hfull, List.append_assoc actions, outputs_append, calls_append, ← List.append_assoc]
    exact List.mem_append_left _ hmem
  have hbelow : x.offset < (con.cursor p).toNat := by
    apply Nat.lt_of_lt_of_le _ (hcursor p howned)
    rw [(ht.consistent.logs p).stored]
    exact ht.offset_lt_length hmem hx hpartition
  rw [hcursor', hread.toNat_add hlength] at hbelow
  obtain ⟨p', hp', hat⟩ := (hall.calls r hmem').place x hx
  rw [hpartition, Int.natCast_inj] at hp'
  subst hp'
  rw [hfull]
  exact List.mem_of_getElem? (getElem?_delivered hread hlength hat hc hbelow)

theorem eq_of_mem_polls {output : Option Output} {e : Polled} (he : e ∈ polls output.toList) :
  output = some (.polled e)
  := by
  cases output with
  | none => cases he
  | some o =>
      cases o with
      | polled e' => rw [List.mem_singleton.mp he]
      | returned r => cases he

/-- The owner of two partitions reads the second one, and is about to return. -/
def pollOfTwo : List Action :=
  [.consume (.poll ⟨0, 0⟩ 5 [0, 1]), .consume (.proceed ⟨0, 0⟩), .consume (.proceed ⟨0, 0⟩),
    .consume (.proceed ⟨0, 0⟩)]

theorem acknowledged_then_polled_keyed :
  let hash : String → UInt64 := fun key => UInt64.ofNat key.length
  let s := (fresh hash "topic" 2 64 "group" (fun _ => 1) 2 .perMessage).run hash []
  let actions := begins ++ .consume (.proceed ⟨0, 0⟩) :: .consume (.proceed ⟨0, 0⟩) :: firstCall
  let records := delivered 1 (polls (s.outputs hash
    (actions ++ pollOfTwo ++ [.consume (.proceed ⟨0, 0⟩)])))
  (calls (s.outputs hash actions)).map Returned.records = [[⟨1, 0, [7]⟩]]
    ∧ ⟨1, 0, [7]⟩ ∈ records
  := by
  intro hash s actions records
  have hwaiting : ∀ a ∈ begins, ∀ k, a.member? = some k → k.label = 0 := by
    simp [begins, Action.member?, Consuming.Action.member?]
  have hmiddle : ∀ a ∈ .consume (.proceed ⟨0, 0⟩) :: firstCall, ∀ k, a.member? = some k →
      k.label = 0 := by
    simp [firstCall, Action.member?, Consuming.Action.member?]
  have hlater : ∀ a ∈ pollOfTwo, ∀ k, a.member? = some k → k.label = 0 := by
    simp [pollOfTwo, Action.member?, Consuming.Action.member?]
  have hassigning : (s.run hash begins).consuming.Assigning ⟨0, 0⟩ 1 := by decide +kernel
  have hreports : (calls (s.outputs hash actions)).map Returned.records = [[⟨1, 0, [7]⟩]] := by
    decide +kernel
  refine ⟨hreports, ?_⟩
  have hnot : ¬ (s.run hash actions).consuming.Polling ⟨0, 0⟩ := by
    rintro ⟨c, _, _, _, _, hc, hcall⟩
    have hidle : ((s.run hash actions).consuming.consumers ⟨0, 0⟩).map
        (fun c => Consuming.todo c.call) = some 0 := by decide +kernel
    rw [hc, Option.map_some, hcall] at hidle
    cases hidle
  obtain ⟨r, hr, hrecords⟩ := List.mem_map.mp (hreports ▸ List.mem_singleton_self _)
  have hpolled : (polls (((s.run hash actions).run hash pollOfTwo).step hash
      (.consume (.proceed ⟨0, 0⟩))).2.toList).map (fun e =>
        (e.member, e.records.length, e.maxRecords)) = [(⟨0, 0⟩, 1, 5)] := by decide +kernel
  obtain ⟨e, hmem, houtput⟩ := List.mem_map.mp (hpolled ▸ List.mem_singleton_self _)
  have houtput := Prod.mk.inj houtput
  have hlengths := Prod.mk.inj houtput.2
  refine acknowledged_then_polled (by decide) (by decide) hash 2 64 (fun _ => 1) 2 .perMessage
    hwaiting hmiddle hlater hassigning hnot r hr ⟨1, 0, [7]⟩ ?_ rfl ?_ _ e (eq_of_mem_polls hmem)
    houtput.1 ?_ ?_
  · rw [hrecords]
    apply List.mem_singleton_self
  · decide +kernel
  · omega
  · decide +kernel

end Pipeline

/-! ### The groups of a partition -/

namespace Consuming

variable {m : ℕ} {ops : ℕ → List Op} {s : Consuming} {k : Member} {p : ℕ}

/-- No other group is registered for the partition. -/
def Alone (p : ℕ) (s : Consuming) : Prop :=
  ∀ group ∈ s.store.groupsByPartition (OffsetStore.partitionKey s.topic.name p), group = s.group

theorem fresh_alone (name : String) (numPartitions m : ℕ) (group : String) (groupSize : ℕ → ℕ)
    (p : ℕ) :
  (fresh name numPartitions m group groupSize).Alone p
  := fun _ hg => by cases hg

/-- The members register their own group. -/
theorem Alone.step (h : s.Alone p) {a : Action}
    (ha : ∀ group, a ≠ .registerElsewhere s.topic.name p group) :
  (s.step a).1.Alone p
  := by
  cases hmember : a.member? with
  | some k =>
      rcases s.step_own hmember with heq | ⟨store, c, hstore, heq⟩
      · rw [heq]
        exact h
      rw [heq]
      cases hstore with
      | same => exact h
      | commit hc hcall => exact h
      | register q =>
          intro g hg
          change g ∈ (s.store.registerGroup s.topic.name q s.group).groupsByPartition
            (OffsetStore.partitionKey s.topic.name p) at hg
          rw [OffsetStore.registerGroup_groupsByPartition] at hg
          by_cases hkey : OffsetStore.partitionKey s.topic.name p
              = OffsetStore.partitionKey s.topic.name q
          · rw [hkey, Function.update_self, List.mem_insert_iff, ← hkey] at hg
            exact hg.elim id (h g)
          · rw [Function.update_of_ne hkey] at hg
            exact h g hg
  | none =>
      cases a with
      | publish q op =>
          simp only [Consuming.step, Consuming.publish]
          split <;> exact h
      | registerElsewhere topic partition group =>
          simp only [Consuming.step, elsewhere]
          split
          · exact h
          · intro g hg
            have hkey : OffsetStore.partitionKey s.topic.name p
                ≠ OffsetStore.partitionKey topic partition := by
              intro heq
              obtain ⟨rfl, rfl⟩ := OffsetStore.partitionKey_inj heq
              exact ha group rfl
            rw [OffsetStore.registerGroup_groupsByPartition, Function.update_of_ne hkey] at hg
            exact h g hg
      | commitElsewhere topic partition group nextOffset =>
          simp only [Consuming.step, elsewhere]
          split <;> exact h
      | _ => cases hmember

theorem Alone.run (h : s.Alone p) {actions : List Action}
    (hactions : ∀ group, .registerElsewhere s.topic.name p group ∉ actions) :
  (s.run actions).Alone p
  := by
  induction actions generalizing s with
  | nil => exact h
  | cons a actions ih =>
      apply ih
      · apply h.step
        rintro group rfl
        exact hactions group List.mem_cons_self
      · intro group hmem
        rw [(step_setup s a).name] at hmem
        exact hactions group (List.mem_cons_of_mem a hmem)

/-! ### The steps of the owner -/

theorem proceed_todo (h : c.call ≠ .idle) :
  ∃ c', (s.proceed k c).1.consumers k = some c' ∧ todo c'.call < todo c.call
  := by
  rw [proceed]
  split
  · rename_i hidle
    exact absurd hidle h
  · rename_i hcall
    rw [hcall]
    exact ⟨_, setConsumer_self .., Nat.succ_pos _⟩
  · rename_i q rest hcall
    rw [hcall, examine]
    split
    · refine ⟨_, setConsumer_self .., ?_⟩
      simp only [todo, List.length_cons]
      omega
    · refine ⟨_, setConsumer_self .., ?_⟩
      simp only [todo, List.length_cons]
      omega
  · rename_i q rest hcall
    rw [hcall]
    exact ⟨_, setConsumer_self .., Nat.lt_succ_self _⟩
  · rename_i hcall
    rw [hcall]
    exact ⟨_, setConsumer_self .., Nat.succ_pos _⟩
  · rename_i maxRecords results q rest ends hcall
    rw [hcall]
    split
    · rw [readNext]
      split
      · refine ⟨_, setConsumer_self .., ?_⟩
        simp [todo]
      · refine ⟨_, setConsumer_self .., ?_⟩
        simp only [todo, List.length_append, List.length_cons, List.length_nil]
        omega
    · exact ⟨_, setConsumer_self .., Nat.succ_pos _⟩
  · rename_i hcall
    rw [hcall]
    exact ⟨_, setConsumer_self .., Nat.succ_pos _⟩
  · rename_i q rest hcall
    rw [hcall]
    exact ⟨_, setConsumer_self .., Nat.lt_succ_self _⟩

/-- A call comes to its end, and what its steps preserve holds then. -/
theorem exists_idle {P : Consuming → Prop}
    (hP : ∀ s c, P s → s.consumers k = some c → P (s.proceed k c).1) (hs : P s)
    (hc : s.consumers k = some c) :
  ∃ steps, (∀ a ∈ steps, a = .proceed k) ∧ P (s.run steps)
    ∧ ∃ c', (s.run steps).consumers k = some c' ∧ c'.call = .idle
  := by
  induction hn : todo c.call using Nat.strong_induction_on generalizing s c with
  | h n ih =>
      by_cases hidle : c.call = .idle
      · exact ⟨[], (fun _ ha => by cases ha), hs, c, hc, hidle⟩
      · obtain ⟨c', hc', hless⟩ := proceed_todo (s := s) (k := k) hidle
        rw [hn] at hless
        obtain ⟨steps, hsteps, hrest⟩ := ih _ hless (hP s c hs hc) hc' rfl
        refine ⟨.proceed k :: steps, ?_, ?_⟩
        · intro a ha
          rcases List.mem_cons.mp ha with rfl | ha
          · rfl
          · exact hsteps a ha
        · have hstep : (s.step (.proceed k)).1 = (s.proceed k c).1 := by
            simp only [step, hc]
          rw [run, List.foldl_cons, hstep]
          exact hrest

/-- The member has read the partition to its end, or is about to, in a poll that may still return
enough records. -/
def Reaching (k : Member) (p len : ℕ) (s : Consuming) : Prop :=
  ∃ c, s.consumers k = some c ∧ p ∈ c.partitions ∧ ((c.cursor p).toNat = len
    ∨ ∃ maxRecords results rest ends, c.call = .polling maxRecords results (p :: rest) ends
      ∧ results.length + (len - (c.cursor p).toNat) < maxRecords)

/-- Reading a partition that is at its end finds nothing. -/
theorem Consistent.reaching_readNext (h : s.Consistent m ops)
    (hlen : (payloads m ops p).length < 2 ^ 64) (hc : s.consumers k = some c)
    (hp : p ∈ c.partitions) {maxRecords : ℕ} {results : List PolledRecord} {q : ℕ}
    {rest : List ℕ} {ends : ℕ → ℕ} (hr : (c.cursor p).toNat = (payloads m ops p).length
      ∨ q = p ∧ results.length + ((payloads m ops p).length - (c.cursor p).toNat) < maxRecords) :
  (s.readNext k c maxRecords results q rest ends).Reaching k p (payloads m ops p).length
  := by
  have hwithin := (h.members k c hc).within p
  simp only [Consuming.readNext, h.read]
  cases hget : (payloads m ops q)[(c.cursor q).toNat]? with
  | none =>
      refine ⟨_, setConsumer_self .., hp, Or.inl ?_⟩
      rcases hr with hend | ⟨rfl, -⟩
      · exact hend
      · exact le_antisymm hwithin (List.getElem?_eq_none_iff.mp hget)
  | some payload =>
      have hlt := (List.getElem?_eq_some_iff.mp hget).1
      refine ⟨_, setConsumer_self .., hp, ?_⟩
      by_cases hq : p = q
      · subst hq
        rcases hr with hend | ⟨-, hroom⟩
        · exact absurd hlt (hend ▸ lt_irrefl _)
        · right
          refine ⟨maxRecords, _, rest, _, rfl, ?_⟩
          dsimp only
          rw [Function.update_self, List.length_append, List.length_singleton, UInt64.toNat_add,
            UInt64.toNat_one, Nat.mod_eq_of_lt (by omega)]
          omega
      · left
        dsimp only
        rw [Function.update_of_ne hq]
        exact hr.resolve_right (fun hfront => hq hfront.1.symm)

theorem Consistent.reaching_proceed (h : s.Consistent m ops)
    (hlen : (payloads m ops p).length < 2 ^ 64) (hc : s.consumers k = some c)
    (hr : s.Reaching k p (payloads m ops p).length) :
  (s.proceed k c).1.Reaching k p (payloads m ops p).length
  := by
  obtain ⟨c', hc', hp, hreach⟩ := hr
  obtain rfl : c = c' := Option.some_inj.mp (hc.symm.trans hc')
  have hend : (∀ maxRecords results rest ends,
      c.call ≠ .polling maxRecords results (p :: rest) ends) →
      (c.cursor p).toNat = (payloads m ops p).length := by
    intro hcall
    rcases hreach with hend | ⟨_, _, _, _, hcall', -⟩
    · exact hend
    · exact absurd hcall' (hcall _ _ _ _)
  rw [Consuming.proceed]
  split
  · exact ⟨c, hc, hp, hreach⟩
  · next hcall => exact ⟨_, setConsumer_self .., hp, Or.inl (hend (by simp [hcall]))⟩
  · next hcall =>
      rw [Consuming.examine]
      split <;> exact ⟨_, setConsumer_self .., hp, Or.inl (hend (by simp [hcall]))⟩
  · next q rest hcall =>
      have hne : p ≠ q := by
        rintro rfl
        exact (h.members k c hc).not_mem_of_assigning hcall hp
      refine ⟨_, setConsumer_self .., List.mem_append_left _ hp, Or.inl ?_⟩
      dsimp only
      rw [Function.update_of_ne hne]
      exact hend (by simp [hcall])
  · next hcall => exact ⟨_, setConsumer_self .., hp, Or.inl (hend (by simp [hcall]))⟩
  · next maxRecords results q rest ends hcall =>
      have hfront : (c.cursor p).toNat = (payloads m ops p).length
          ∨ q = p ∧ results.length + ((payloads m ops p).length - (c.cursor p).toNat)
            < maxRecords := by
        rcases hreach with hend | ⟨_, _, _, _, hcall', hroom⟩
        · exact Or.inl hend
        · rw [hcall] at hcall'
          cases hcall'
          exact Or.inr ⟨rfl, hroom⟩
      split
      · exact h.reaching_readNext hlen hc hp hfront
      · next hfull =>
          refine ⟨_, setConsumer_self .., hp, Or.inl ?_⟩
          rcases hfront with hend | ⟨-, hroom⟩
          · exact hend
          · omega
  · next hcall => exact ⟨_, setConsumer_self .., hp, Or.inl (hend (by simp [hcall]))⟩
  · next hcall => exact ⟨_, setConsumer_self .., hp, Or.inl (hend (by simp [hcall]))⟩

/-- The member has committed that it has read the partition to its end, or is about to. -/
def Settling (k : Member) (p len : ℕ) (s : Consuming) : Prop :=
  ∃ c rest, s.consumers k = some c ∧ (c.cursor p).toNat = len
    ∧ (c.call = .committing rest ∨ c.call = .idle ∧ rest = [])
    ∧ (p ∈ rest ∨ s.store.get s.topic.name p s.group = some (c.cursor p))

theorem Consistent.settling_proceed (h : s.Consistent m ops) (hc : s.consumers k = some c) {len : ℕ}
    (hs : s.Settling k p len) :
  (s.proceed k c).1.Settling k p len
  := by
  obtain ⟨c', rest, hc', hcursor, hcall, hcommitted⟩ := hs
  obtain rfl : c = c' := Option.some_inj.mp (hc.symm.trans hc')
  rcases hcall with hcall | ⟨hcall, rfl⟩
  · cases rest with
    | nil =>
        simp only [Consuming.proceed, hcall]
        refine ⟨_, [], setConsumer_self .., hcursor, Or.inr ⟨rfl, rfl⟩, hcommitted⟩
    | cons q rest =>
        simp only [Consuming.proceed, hcall]
        refine ⟨_, rest, setConsumer_self .., hcursor, Or.inl rfl, ?_⟩
        by_cases hq : p = q
        · subst hq
          exact Or.inr (OffsetStore.get_commit_self ..)
        · have hne : ¬ (s.topic.name = s.topic.name ∧ (p : ℤ) = q ∧ s.group = s.group) := by
            simp [hq]
          rcases hcommitted with hmem | hget
          · exact Or.inl ((List.mem_cons.mp hmem).resolve_left hq)
          · right
            change (s.store.commit s.topic.name q s.group (c.cursor q)).get s.topic.name p s.group
              = some (c.cursor p)
            rw [OffsetStore.get_commit_of_ne _ h.plainTopic h.plainGroup hne]
            exact hget
  · simp only [Consuming.proceed, hcall]
    exact ⟨c, [], hc, hcursor, Or.inr ⟨hcall, rfl⟩, hcommitted⟩

/-- Steps of a member change no log. -/
theorem run_topic (s : Consuming) {steps : List Action}
    (hsteps : ∀ a ∈ steps, a.member? = some k) :
  (s.run steps).topic = s.topic
  := by
  induction steps generalizing s with
  | nil => rfl
  | cons a steps ih =>
      rw [List.forall_mem_cons] at hsteps
      exact (ih (s.step a).1 hsteps.2).trans (step_topic s hsteps.1)

theorem enter_idle (hc : s.consumers k = some c) (hidle : c.call = .idle) {order : List ℕ}
    (horder : order.Perm c.partitions) (call : Call) :
  s.enter k order call = s.setConsumer k { c with call := call }
  := by
  obtain ⟨partitions, cursor, call'⟩ := c
  obtain rfl : call' = .idle := hidle
  rw [enter, hc]
  exact if_pos horder

/-- A partition that a member has it also has after its constructor. -/
theorem Consistent.mem_partitions (h : s.Consistent m ops) {s' : Consuming} {ops' : ℕ → List Op}
    (h' : s'.Consistent m ops') (hsetup : s.SameSetup s') {c c' : Consumer}
    (hc : s.consumers k = some c) (hc' : s'.consumers k = some c') (hidle : c'.call = .idle)
    (hp : p ∈ c.partitions) :
  p ∈ c'.partitions
  := by
  rw [(h'.members k c' hc').partitions_eq hidle, hsetup.numPartitions, hsetup.groupSize]
  exact (h.members k c hc).mem_owned (List.mem_append_left _ hp)

/-- The owner of a partition can read it to its end. -/
theorem Consistent.exists_read (h : s.Consistent m ops) (hlen : (payloads m ops p).length < 2 ^ 64)
    (hc : s.consumers k = some c) (hp : p ∈ c.partitions) :
  ∃ steps, (∀ a ∈ steps, a.member? = some k) ∧ (s.run steps).Consistent m ops
    ∧ ∃ c', (s.run steps).consumers k = some c' ∧ c'.call = .idle
      ∧ (c'.cursor p).toNat = (payloads m ops p).length
  := by
  -- It comes to the end of the call in which it is.
  obtain ⟨steps, hsteps, h₁, c₁, hc₁, hidle⟩ := exists_idle
    (P := fun s => s.Consistent m ops) (fun _ _ h hc => h.proceed hc) h hc
  have hp₁ := h.mem_partitions h₁ (run_setup ..) hc hc₁ hidle hp
  -- Then it polls, and visits the partition first.
  have hstart : ((s.run steps).poll k ((payloads m ops p).length + 1)
      (p :: c₁.partitions.erase p)).Reaching k p (payloads m ops p).length := by
    rw [Consuming.poll, enter_idle hc₁ hidle (List.perm_cons_erase hp₁).symm]
    refine ⟨_, setConsumer_self .., hp₁, Or.inr ⟨_, _, _, _, rfl, ?_⟩⟩
    rw [List.length_nil]
    omega
  have hagain := hstart
  obtain ⟨c₂, hc₂, _⟩ := hagain
  obtain ⟨steps', hsteps', ⟨h₃, hreaching⟩, c₃, hc₃, hidle₃⟩ := exists_idle
    (P := fun s => s.Consistent m ops ∧ s.Reaching k p (payloads m ops p).length)
    (fun _ _ h hc => ⟨h.1.proceed hc, h.1.reaching_proceed hlen hc h.2⟩)
    ⟨h₁.poll k _ _, hstart⟩ hc₂
  refine ⟨steps ++ .poll k ((payloads m ops p).length + 1) (p :: c₁.partitions.erase p) :: steps',
    ?_, ?_⟩
  · intro a ha
    rcases List.mem_append.mp ha with ha | ha
    · rw [hsteps a ha]
      rfl
    · rcases List.mem_cons.mp ha with rfl | ha
      · rfl
      · rw [hsteps' a ha]
        rfl
  · rw [run_append]
    refine ⟨h₃, c₃, hc₃, hidle₃, ?_⟩
    obtain ⟨c₄, hc₄, -, hend⟩ := hreaching
    obtain rfl : c₃ = c₄ := Option.some_inj.mp (hc₃.symm.trans hc₄)
    rcases hend with hend | ⟨_, _, _, _, hcall, -⟩
    · exact hend
    · rw [hidle₃] at hcall
      cases hcall

/-- It can also commit that it has. -/
theorem Consistent.exists_committed (h : s.Consistent m ops)
    (hlen : (payloads m ops p).length < 2 ^ 64) (hc : s.consumers k = some c)
    (hp : p ∈ c.partitions) :
  ∃ steps, (∀ a ∈ steps, a.member? = some k)
    ∧ ∃ o, (s.run steps).store.get (s.run steps).topic.name p (s.run steps).group = some o
      ∧ o.toNat = ((s.run steps).topic.partition p).nextOffset
  := by
  obtain ⟨steps, hsteps, h₁, c₁, hc₁, hidle, hend⟩ := h.exists_read hlen hc hp
  have hp₁ := h.mem_partitions h₁ (run_setup ..) hc hc₁ hidle hp
  have hstart : ((s.run steps).commit k c₁.partitions).Settling k p (payloads m ops p).length := by
    rw [Consuming.commit, enter_idle hc₁ hidle (List.Perm.refl _)]
    exact ⟨_, _, setConsumer_self .., hend, Or.inl rfl, Or.inl hp₁⟩
  have hagain := hstart
  obtain ⟨c₂, _, hc₂, _⟩ := hagain
  have h₂ : ((s.run steps).commit k c₁.partitions).Consistent m ops :=
    h₁.enter k (fun _ _ => rfl) (fun _ _ _ => trivial)
  obtain ⟨steps', hsteps', ⟨-, c₄, rest, hc₄, hcursor, hcall, hcommitted⟩, c₃, hc₃, hidle₃⟩ :=
    exists_idle (P := fun s => s.Consistent m ops ∧ s.Settling k p (payloads m ops p).length)
    (fun _ _ h hc => ⟨h.1.proceed hc, h.1.settling_proceed hc h.2⟩)
    ⟨h₂, hstart⟩ hc₂
  obtain rfl : c₃ = c₄ := Option.some_inj.mp (hc₃.symm.trans hc₄)
  have hrest : rest = [] := by
    rcases hcall with hcall | ⟨-, hnil⟩
    · rw [hidle₃] at hcall
      cases hcall
    · exact hnil
  subst hrest
  have hmember : ∀ a ∈ steps ++ .commit k c₁.partitions :: steps', a.member? = some k := by
    intro a ha
    rcases List.mem_append.mp ha with ha | ha
    · exact hsteps a ha
    · rcases List.mem_cons.mp ha with rfl | ha
      · rfl
      · rw [hsteps' a ha]
        rfl
  refine ⟨steps ++ .commit k c₁.partitions :: steps', hmember, c₃.cursor p, ?_, ?_⟩
  · rw [run_append]
    exact hcommitted.resolve_left List.not_mem_nil
  · rw [run_topic s hmember, (h.logs p).stored]
    exact hcursor

end Consuming

/-! ### A thread that waits -/

/-- When the only group of a partition has committed all of it, it does not lag behind. -/
theorem Partition.overLagLimit_of_committed {q : Partition} {store : OffsetStore} {group : String}
    {o : UInt64}
    (halone : ∀ g ∈ store.groupsByPartition (OffsetStore.partitionKey q.topic q.index), g = group)
    (hget : store.get q.topic q.index group = some o) (ho : o.toNat = q.log.nextOffset) :
  q.overLagLimit store = false
  := by
  rw [overLagLimit]
  split
  · rfl
  · rename_i hlimit
    split
    · rfl
    · rename_i minCommitted hmin
      obtain ⟨⟨g, hg, rfl⟩, -⟩ := (OffsetStore.minCommittedOffsetFor_eq_some_iff ..).mp hmin
      dsimp only
      rw [halone g hg, hget, Option.getD_some, ho, if_neg (lt_irrefl _)]
      exact decide_eq_false (fun hle => hlimit (Nat.le_zero.mp hle))

namespace Publishing

/-- A thread that is not held up is admitted, unless it has nothing to publish. -/
theorem step_attempt_of_not_over {q : Publishing} (hidle : q.stage 0 = .idle)
    (hover : q.partition.overLagLimit q.store = false) {c : Producer.Call}
    (hc : c.attempt ≠ .tryPublishBatch 0 []) :
  (q.step c.attempt).2 = none ∧ (q.step c.attempt).1.stage 0 ≠ .idle
  := by
  rcases c.attempt_cases with ⟨p, hp⟩ | ⟨payloads, hpayloads⟩
  · rw [hp, step, hidle]
    dsimp only
    rw [tryPublish, hover, if_neg Bool.false_ne_true, enter_stage_self]
    exact ⟨rfl, fun h => by cases h⟩
  · have hne : payloads ≠ [] := by
      rintro rfl
      exact hc hpayloads
    rw [hpayloads, step, hidle]
    dsimp only
    rw [tryPublishBatch, if_neg hne, hover, if_neg Bool.false_ne_true, enter_stage_self]
    exact ⟨rfl, fun h => by cases h⟩

end Publishing

namespace Pipeline

/-- Steps of consumers leave the threads alone. -/
theorem run_consume (hash : String → UInt64) (s : Pipeline) (steps : List Consuming.Action) :
  ∃ clock, s.run hash (steps.map .consume)
    = { s with consuming := s.consuming.run steps, clock := clock }
  := by
  induction steps generalizing s with
  | nil => exact ⟨s.clock, rfl⟩
  | cons a steps ih =>
      obtain ⟨clock, hrun⟩ := ih (s.step hash (.consume a)).1
      exact ⟨clock, hrun⟩

/-- A thread waits since the consumers lag too far behind, and no other group is registered for its
partition. Then, whatever state the system is in, the owner of the partition can take steps after
which the thread is admitted. -/
theorem backpressure_released {name group : String} (hname : OffsetStore.Plain name)
    (hgroup : OffsetStore.Plain group) (hash : String → UInt64)
    (numPartitions m : ℕ) (groupSize : ℕ → ℕ) (maxLagRecords : ℕ) (flushPolicy : FlushPolicy)
    {actions : List Action} {i : ℕ} {b : Publisher} {k : Member} {con : Consumer}
    (hothers : ∀ other, .consume (.registerElsewhere name b.partition other) ∉ actions)
    (hidle : b.stage = .idle) (hcall : b.call.attempt ≠ .tryPublishBatch 0 []) :
  let s : Pipeline :=
    (fresh hash name numPartitions m group groupSize maxLagRecords flushPolicy).run hash actions
  s.publishers i = some b → s.consuming.consumers k = some con → b.partition ∈ con.partitions →
    (s.consuming.topic.partition b.partition).nextOffset < 2 ^ 64 →
    ∃ steps : List Consuming.Action, (∀ a ∈ steps, a.member? = some k)
      ∧ ∀ expired,
        let r := (s.run hash (steps.map .consume)).step hash (.proceed i expired)
        r.2 = none ∧ ∃ stage, stage ≠ .idle ∧ r.1.publishers i = some { b with stage := stage }
  := by
  intro s hb hcon howned hlength
  have hstart := fresh_accounted hname hgroup hash numPartitions m groupSize maxLagRecords
    flushPolicy
  obtain ⟨hs, hlogs, -⟩ := hstart.run actions
  have hsetup := hstart.run_setup actions
  have halone : s.consuming.Alone b.partition := by
    rw [hlogs]
    apply Consuming.Alone.run (Consuming.fresh_alone name numPartitions m group groupSize _)
    intro other hmem
    exact hothers other (mem_logSteps (fun _ _ h => by cases h) hmem)
  rw [(hs.consistent.logs b.partition).stored] at hlength
  obtain ⟨steps, hsteps, o, hget, ho⟩ := hs.consistent.exists_committed hlength hcon howned
  refine ⟨steps, hsteps, ?_⟩
  intro expired r
  obtain ⟨clock, hrun⟩ := run_consume hash s steps
  let t : Pipeline := { s with consuming := s.consuming.run steps, clock := clock }
  have halone' : t.consuming.Alone b.partition := by
    apply halone.run
    intro other hmem
    cases hsteps _ hmem
  have hover : (t.publishing b).partition.overLagLimit (t.publishing b).store = false :=
    Partition.overLagLimit_of_committed (q := (t.publishing b).partition) halone' hget ho
  obtain ⟨hnone, hstage⟩ := Publishing.step_attempt_of_not_over hidle hover hcall
  have hnext : b.next = b.call.attempt := by rw [Publisher.next, hidle]
  have hact : t.act hash (.proceed i expired) = t.proceed i b expired := by
    rw [act, show t.publishers i = some b from hb]
  rw [← hnext] at hnone hstage
  have hr : r = t.step hash (.proceed i expired) := congrArg (fun t => step hash t _) hrun
  have hr' : r.2 = (t.proceed i b expired).2
      ∧ r.1.publishers i = (t.proceed i b expired).1.publishers i := by
    rw [hr, ← hact]
    exact ⟨rfl, rfl⟩
  rw [hr'.1, hr'.2, proceed, hnone]
  exact ⟨rfl, _, hstage, setPublisher_self ..⟩

/-- A thread publishes one record, and is held up with the next. -/
def heldUp : List Action :=
  begins ++ .consume (.proceed ⟨0, 0⟩) :: firstCall
    ++ [.call 0 (.publishKeyed "k" (oneByte 9)), .proceed 0 false]

theorem backpressure_released_held_up :
  let hash : String → UInt64 := fun key => UInt64.ofNat key.length
  let s := (fresh hash "topic" 2 64 "group" (fun _ => 1) 1 .perMessage).run hash heldUp
  ∃ b, s.publishers 0 = some b ∧ b.stage = .idle ∧ ∃ steps : List Consuming.Action,
    ∀ expired,
      let r := (s.run hash (steps.map .consume)).step hash (.proceed 0 expired)
      r.2 = none ∧ ∃ stage, stage ≠ .idle ∧ r.1.publishers 0 = some { b with stage := stage }
  := by
  intro hash s
  have hthread : (s.publishers 0).map (fun b => (b.partition, b.call.payloads,
      (b.stage.op? .perMessage).isNone)) = some (1, [[9]], true) := by
    decide +kernel
  have hconsumer : (s.consuming.consumers ⟨0, 0⟩).map Consumer.partitions = some [0, 1] := by
    decide +kernel
  obtain ⟨b, hb, hthread⟩ := Option.map_eq_some_iff.mp hthread
  obtain ⟨con, hcon, hpartitions⟩ := Option.map_eq_some_iff.mp hconsumer
  obtain ⟨hpartition, hrest⟩ := Prod.mk.inj hthread
  obtain ⟨hpayloads, hstage⟩ := Prod.mk.inj hrest
  have hidle : b.stage = .idle := by
    cases h : b.stage with
    | idle => rfl
    | _ =>
        rw [h] at hstage
        cases hstage
  have hcall : b.call.attempt ≠ .tryPublishBatch 0 [] := by
    intro hattempt
    rw [Producer.Call.payloads, hattempt] at hpayloads
    cases hpayloads
  have howned : b.partition ∈ con.partitions := by
    rw [hpartition, hpartitions]
    decide
  have hlength : (s.consuming.topic.partition b.partition).nextOffset < 2 ^ 64 := by
    rw [hpartition]
    decide +kernel
  have hothers : ∀ other, .consume (.registerElsewhere "topic" b.partition other) ∉ heldUp := by
    simp [heldUp, begins, firstCall]
  obtain ⟨steps, -, hreleased⟩ := backpressure_released (by decide) (by decide) hash 2 64
    (fun _ => 1) 1 .perMessage hothers hidle hcall hb hcon howned hlength
  exact ⟨b, hb, hidle, steps, hreleased⟩

end Pipeline

end Broker
