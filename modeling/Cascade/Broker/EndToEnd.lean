import Cascade.Broker.Pipeline

/-!
# Order from end to end

What the threads that publish and the consumers of a group preserve together. A call that has
returned has its records where it says, and a thread that has appended a record and not returned yet
has it behind all records of the calls that had returned when it made its call. So the offsets of a
partition respect the order in time of the calls, and the polls return the records of a partition in
the order of their offsets.
-/

open Storage

namespace Broker

/-- A thread in a call is at its partition, and what it has appended is there, behind the records
of the calls that had returned before. -/
structure Publisher.Ok (hash : String → UInt64) (numPartitions clock : ℕ) (ps : List Payload)
    (calls : List Returned) (b : Publisher) : Prop where
  inRange : b.partition < numPartitions
  keyed : ∀ key, b.call.key? = some key → b.partition = (hash key).toNat % numPartitions
  called : b.calledAt < clock
  stage : b.stage.Of b.call
  appended : ∀ p offset, b.stage = .appended p offset → ps[offset]? = some p
    ∧ ∀ r ∈ calls, r.returnedAt < b.calledAt → ∀ x ∈ r.records, x.partition = b.partition →
      x.offset < offset

/-- The records of a call are in the partition that the call says, at increasing offsets. -/
structure Returned.Ok (hash : String → UInt64) (numPartitions clock : ℕ)
    (published : ℕ → List (List UInt8)) (r : Returned) : Prop where
  called : r.calledAt ≤ r.returnedAt
  returned : r.returnedAt < clock
  place : ∀ x ∈ r.records, ∃ p : ℕ, x.partition = p ∧ (published p)[x.offset]? = some x.payload
  keyed : ∀ key, r.call.key? = some key → ∀ x ∈ r.records,
    x.partition = ((hash key).toNat % numPartitions : ℕ)
  increasing : (r.records.map Producer.Report.offset).Pairwise (· < ·)

/-! ### The records of a call -/

namespace Producer.Call

variable {c : Call} {partition : ℕ} {expired : Bool} {out : Outcome}
  {result : Except PublishException Reply}

theorem records_of_lagging (h : c.lagging expired = some result) (t t' : ℕ) :
  (⟨c, result, t, t'⟩ : Returned).records = []
  := by
  rw [lagging] at h
  split at h
  · split at h
    · cases h
      rfl
    · cases h
  · cases h
    rfl

/-- The records of a call are those that its last attempt acknowledges. -/
theorem records_of_result (hof : out.Of c) (h : c.result partition expired out = some result)
    (t t' : ℕ) :
  (⟨c, result, t, t'⟩ : Returned).records
    = out.acknowledged.map (fun x => ⟨partition, x.1, x.2⟩)
  := by
  cases out with
  | published p offset =>
      cases offset with
      | none => exact records_of_lagging h t t'
      | some offset =>
          have hpayloads : c.payloads = [p.bytes] := by
            rw [payloads, show c.attempt = .tryPublish 0 p from hof]
          cases h
          simp only [Returned.records, hpayloads]
          rfl
  | publishedBatch payloads ack =>
      cases ack with
      | none => exact records_of_lagging h t t'
      | some ack =>
          have hpayloads : c.payloads = payloads := by
            rw [Call.payloads, show c.attempt = .tryPublishBatch 0 payloads from hof]
          cases h
          simp only [Returned.records, hpayloads]
          rfl
  | threw e =>
      cases h
      rfl

end Producer.Call

/-! ### What threads and consumers preserve -/

namespace Pipeline

open Consuming (payloads published opsOn)

/-- The state after some steps, in which the calls `returned` have returned. -/
structure Accounted (hash : String → UInt64) (m : ℕ) (ops : ℕ → List Op)
    (returned : List Returned) (clock : ℕ) (s : Pipeline) : Prop where
  consistent : s.consuming.Consistent m ops
  publishers : ∀ i b, s.publishers i = some b →
    b.Ok hash s.numPartitions clock (payloads m ops b.partition) returned
  calls : ∀ r ∈ returned, r.Ok hash s.numPartitions clock (published m ops)
  ordered : ∀ r ∈ returned, ∀ r' ∈ returned, r.returnedAt < r'.calledAt →
    ∀ x ∈ r.records, ∀ x' ∈ r'.records, x.partition = x'.partition → x.offset < x'.offset

variable {hash : String → UInt64} {m : ℕ} {ops : ℕ → List Op} {returned : List Returned}
  {clock : ℕ} {s : Pipeline}

theorem getElem?_of_isPrefix {α : Type} {l l' : List α} (h : l <+: l') {i : ℕ} {a : α}
    (ha : l[i]? = some a) :
  l'[i]? = some a
  := by
  obtain ⟨rest, rfl⟩ := h
  rw [List.getElem?_append_left (List.getElem?_eq_some_iff.mp ha).1, ha]

/-- What an operation of a thread adds to the payloads of its partition. -/
theorem payloads_publish {numPartitions p : ℕ} (hp : p < numPartitions) (op : Option Op) :
  payloads m (fun q => ops q ++ opsOn numPartitions q (op.toList.map (.publish p))) p
    = op.elim (payloads m ops p) (fun op => (op.spec m (payloads m ops p)).1)
  := by
  cases op with
  | none => simp [opsOn, payloads]
  | some op =>
      have hop : opsOn numPartitions p [.publish p op] = [op] := by
        simp [opsOn, Consuming.Action.op?, hp]
      rw [payloads, Option.toList_some, List.map_singleton, hop, Op.specRun_append]
      rfl

theorem prefix_payloads_append (more : ℕ → List Op) (p : ℕ) :
  payloads m ops p <+: payloads m (fun p => ops p ++ more p) p
  := by
  rw [payloads, payloads, Op.specRun_append]
  apply Op.prefix_specRun

namespace Accounted

/-- The logs grow, the consumers take a step, and time passes. -/
theorem grow (h : Accounted hash m ops returned clock s) {t : Consuming} {ops' : ℕ → List Op}
    (ht : t.Consistent m ops') (hsame : t.topic.numPartitions = s.numPartitions)
    (hgrow : ∀ p, payloads m ops p <+: payloads m ops' p) {clock' : ℕ} (hclock : clock ≤ clock') :
  Accounted hash m ops' returned clock' { s with consuming := t }
  := by
  refine ⟨ht, ?_, ?_, h.ordered⟩
  · intro i b hb
    obtain ⟨hrange, hkeyed, hcalled, hstage, happended⟩ := h.publishers i b hb
    rw [← hsame] at hrange hkeyed
    refine ⟨hrange, hkeyed, hcalled.trans_le hclock, hstage, ?_⟩
    intro p offset hp
    obtain ⟨hat, hbehind⟩ := happended p offset hp
    exact ⟨getElem?_of_isPrefix (hgrow b.partition) hat, hbehind⟩
  · intro r hr
    obtain ⟨hcalled, hreturned, hplace, hkeyed, hincreasing⟩ := h.calls r hr
    rw [← hsame] at hkeyed
    refine ⟨hcalled, hreturned.trans_le hclock, ?_, hkeyed, hincreasing⟩
    intro x hx
    obtain ⟨p, hp, hat⟩ := hplace x hx
    exact ⟨p, hp, getElem?_of_isPrefix ((hgrow p).map Payload.bytes) hat⟩

theorem setPublisher (h : Accounted hash m ops returned clock s) (i : ℕ) {b : Option Publisher}
    (hb : ∀ b' ∈ b, b'.Ok hash s.numPartitions clock (payloads m ops b'.partition) returned) :
  Accounted hash m ops returned clock (s.setPublisher i b)
  := by
  refine ⟨h.consistent, ?_, h.calls, h.ordered⟩
  intro j b' hj
  by_cases hij : j = i
  · subst hij
    rw [setPublisher_self] at hj
    exact hb b' hj
  · rw [setPublisher_of_ne s hij] at hj
    exact h.publishers j b' hj

/-- A call returns, as the last one so far. -/
theorem concat (h : Accounted hash m ops returned clock s) {r : Returned}
    (hr : r.Ok hash s.numPartitions clock (published m ops))
    (hlast : ∀ r' ∈ returned, r'.calledAt ≤ r.returnedAt)
    (hpending : ∀ i b, s.publishers i = some b → b.calledAt ≤ r.returnedAt)
    (hbehind : ∀ r' ∈ returned, r'.returnedAt < r.calledAt →
      ∀ x ∈ r'.records, ∀ x' ∈ r.records, x.partition = x'.partition → x.offset < x'.offset) :
  Accounted hash m ops (returned ++ [r]) clock s
  := by
  refine ⟨h.consistent, ?_, ?_, ?_⟩
  · intro i b hb
    obtain ⟨hrange, hkeyed, hcalled, hstage, happended⟩ := h.publishers i b hb
    refine ⟨hrange, hkeyed, hcalled, hstage, ?_⟩
    intro p offset hp
    obtain ⟨hat, hfront⟩ := happended p offset hp
    refine ⟨hat, ?_⟩
    intro r' hr' hbefore
    rcases List.mem_append.mp hr' with hr' | hr'
    · exact hfront r' hr' hbefore
    · rw [List.mem_singleton.mp hr'] at hbefore
      exact absurd hbefore (Nat.not_lt.mpr (hpending i b hb))
  · intro r' hr'
    rcases List.mem_append.mp hr' with hr' | hr'
    · exact h.calls r' hr'
    · rw [List.mem_singleton.mp hr']
      exact hr
  · intro r₁ h₁ r₂ h₂ hbefore
    rcases List.mem_append.mp h₁ with h₁ | h₁
    · rcases List.mem_append.mp h₂ with h₂ | h₂
      · exact h.ordered r₁ h₁ r₂ h₂ hbefore
      · rw [List.mem_singleton.mp h₂] at hbefore ⊢
        exact hbehind r₁ h₁ hbefore
    · rw [List.mem_singleton.mp h₁] at hbefore
      rcases List.mem_append.mp h₂ with h₂ | h₂
      · exact absurd hbefore (Nat.not_lt.mpr (hlast r₂ h₂))
      · rw [List.mem_singleton.mp h₂] at hbefore
        exact absurd hbefore (Nat.not_lt.mpr hr.called)

/-- Whoever is in front of the payloads that were there is in front of what is appended. -/
theorem offset_lt_length (h : Accounted hash m ops returned clock s) {r : Returned}
    (hr : r ∈ returned) {x : Producer.Report} (hx : x ∈ r.records) {p : ℕ} (hp : x.partition = p) :
  x.offset < (payloads m ops p).length
  := by
  obtain ⟨p', hp', hat⟩ := (h.calls r hr).place x hx
  rw [hp, Int.natCast_inj] at hp'
  subst hp'
  rw [← List.length_map (f := Payload.bytes)]
  exact (List.getElem?_eq_some_iff.mp hat).1

/-- A thread takes a step of its call. -/
theorem proceed (h : Accounted hash m ops returned s.clock s) {i : ℕ} {b : Publisher}
    (hb : s.publishers i = some b) (expired : Bool) :
  Accounted hash m
    (fun p => ops p ++ opsOn s.numPartitions p
      ((b.stage.op? s.flushPolicy).toList.map (.publish b.partition)))
    (returned ++ Pipeline.calls (s.proceed i b expired).2.toList) (s.clock + 1)
    (s.proceed i b expired).1
  := by
  obtain ⟨hrange, hkeyed, hcalled, hstage, happended⟩ := h.publishers i b hb
  obtain ⟨hlog, hadvances⟩ := publishing_step (h.consistent.logs b.partition)
    (h.consistent.sizes b.partition) hstage (fun p offset hp => (happended p offset hp).1)
  set op := b.stage.op? s.flushPolicy
  have hgrown := h.grow (h.consistent.run (op.toList.map (.publish b.partition)))
    (Consuming.run_setup ..).numPartitions (prefix_payloads_append _) s.clock.le_succ
  have hafter : payloads m (fun p => ops p ++ opsOn s.numPartitions p
      (op.toList.map (.publish b.partition))) b.partition
      = b.stage.after s.flushPolicy m (payloads m ops b.partition) := payloads_publish hrange op
  rw [← setLog_eq hrange, ← hlog] at hgrown
  rw [Pipeline.proceed]
  cases hout : ((s.publishing b).step b.next).2 with
  | none =>
      obtain ⟨hof, hnew⟩ := hadvances.goesOn hout
      rw [show Pipeline.calls _ = [] from rfl, List.append_nil]
      apply hgrown.setPublisher
      rintro _ ⟨⟩
      refine ⟨hrange, hkeyed, hcalled.trans (Nat.lt_succ_self _), hof, ?_⟩
      intro p offset hp
      obtain ⟨hle, hat⟩ := hnew p offset hp
      refine ⟨hafter ▸ hat, ?_⟩
      intro r hr _ x hx hpartition
      exact (h.offset_lt_length hr hx hpartition).trans_le hle
  | some out =>
      obtain ⟨hof, hacknowledged⟩ := hadvances.ends out hout
      dsimp only
      cases hresult : b.call.result b.partition expired out with
      | none =>
          rw [show Pipeline.calls _ = [] from rfl, List.append_nil]
          exact hgrown
      | some result =>
          have hrecords := Producer.Call.records_of_result hof hresult b.calledAt s.clock
          have hset := hgrown.setPublisher i (b := none) (fun _ hnone => by cases hnone)
          apply hset.concat
          · refine ⟨hcalled.le, Nat.lt_succ_self _, ?_, ?_, ?_⟩
            · intro x hx
              rw [hrecords] at hx
              obtain ⟨y, hy, rfl⟩ := List.mem_map.mp hx
              have hat := (hacknowledged y hy).1
              rw [← hafter] at hat
              exact ⟨b.partition, rfl, hat⟩
            · intro key hkey x hx
              rw [hrecords] at hx
              obtain ⟨y, -, rfl⟩ := List.mem_map.mp hx
              exact congrArg Nat.cast (hkeyed key hkey)
            · rw [hrecords, List.map_map]
              exact out.increasing
          · intro r hr
            exact (h.calls r hr).called.trans (h.calls r hr).returned.le
          · intro j b' hj
            exact Nat.lt_succ_iff.mp (hset.publishers j b' hj).called
          · intro r hr hbefore x hx x' hx' hpartition
            rw [hrecords] at hx'
            obtain ⟨y, hy, rfl⟩ := List.mem_map.mp hx'
            rcases (hacknowledged y hy).2 with hle | ⟨p, hp⟩
            · exact (h.offset_lt_length hr hx hpartition).trans_le hle
            · exact (happended p y.1 hp).2 r hr hbefore x hx hpartition

/-- A call that fails before it has reached a partition. -/
theorem failed (h : Accounted hash m ops returned s.clock s) (c : Producer.Call)
    (e : PublishException) :
  Accounted hash m ops (returned ++ [⟨c, .error e, s.clock, s.clock⟩]) (s.clock + 1) s
  := by
  have hlater := h.grow h.consistent rfl (fun _ => List.prefix_refl _) s.clock.le_succ
  apply hlater.concat
  · exact ⟨le_rfl, Nat.lt_succ_self _, (fun x hx => by cases hx), (fun _ _ x hx => by cases hx),
      List.Pairwise.nil⟩
  · intro r hr
    exact (h.calls r hr).called.trans (h.calls r hr).returned.le
  · intro i b hb
    exact (h.publishers i b hb).called.le
  · exact fun _ _ _ _ _ x' hx' => by cases hx'

theorem advance (h : Accounted hash m ops returned clock s) (c : Producer.Call) :
  Accounted hash m ops returned clock (s.advance c)
  := by
  cases c with
  | publish _ => exact ⟨h.consistent, h.publishers, h.calls, h.ordered⟩
  | publishBatch _ => exact ⟨h.consistent, h.publishers, h.calls, h.ordered⟩
  | publishKeyed _ _ => exact h
  | publishKeyedConsistent _ _ => exact h
  | publishBatchKeyed _ _ => exact h
  | tryPublishBatch _ _ => exact h
  | tryPublish _ _ => exact h

/-- A thread makes a call. -/
theorem call (h : Accounted hash m ops returned s.clock s) (i : ℕ) (c : Producer.Call) :
  Accounted hash m ops (returned ++ Pipeline.calls (s.call hash i c).2.toList) (s.clock + 1)
    (s.call hash i c).1
  := by
  have hlater := h.grow h.consistent rfl (fun _ => List.prefix_refl _) s.clock.le_succ
  rw [Pipeline.call]
  cases hi : s.publishers i with
  | some b =>
      rw [show Pipeline.calls _ = [] from rfl, List.append_nil]
      exact hlater
  | none =>
      dsimp only
      cases htarget : s.target hash c with
      | error e => exact (h.failed c e).advance c
      | ok index =>
          dsimp only
          split
          · rename_i hindex
            rw [show Pipeline.calls _ = [] from rfl, List.append_nil]
            apply (hlater.advance c).setPublisher
            rintro _ ⟨⟩
            rw [numPartitions, advance_consuming, ← numPartitions]
            refine ⟨?_, ?_, Nat.lt_succ_self _, trivial, fun _ _ hidle => by cases hidle⟩
            · exact (Int.toNat_lt hindex.1).mpr hindex.2
            · intro key hkey
              rw [target_of_key hash s hkey] at htarget
              rw [← Except.ok.inj htarget]
              rfl
          · exact (h.failed c .outOfRange).advance c

/-- Somebody takes a step. -/
theorem step (h : Accounted hash m ops returned s.clock s) (a : Action) :
  Accounted hash m (fun p => ops p ++ opsOn s.numPartitions p (s.logActions a))
    (returned ++ Pipeline.calls (s.step hash a).2.toList) (s.step hash a).1.clock
    (s.step hash a).1
  := by
  suffices hact : Accounted hash m (fun p => ops p ++ opsOn s.numPartitions p (s.logActions a))
      (returned ++ Pipeline.calls (s.act hash a).2.toList) (s.clock + 1) (s.act hash a).1 from
    ⟨hact.consistent, hact.publishers, hact.calls, hact.ordered⟩
  have hnone : Accounted hash m ops returned (s.clock + 1) s :=
    h.grow h.consistent rfl (fun _ => List.prefix_refl _) s.clock.le_succ
  cases a with
  | consume action =>
      have hcalls : Pipeline.calls ((s.consuming.step action).2.map Output.polled).toList = [] := by
        cases (s.consuming.step action).2 <;> rfl
      rw [act, hcalls, List.append_nil]
      apply h.grow (h.consistent.run [action]) (Consuming.step_setup ..).numPartitions
        (prefix_payloads_append _) s.clock.le_succ
  | call i c =>
      simp only [logActions, opsOn, List.filterMap_nil, List.append_nil]
      exact h.call i c
  | proceed i expired =>
      rw [act, logActions]
      cases hi : s.publishers i with
      | none =>
          simp only [opsOn, List.filterMap_nil, List.append_nil]
          rw [show Pipeline.calls _ = [] from rfl, List.append_nil]
          exact hnone
      | some b => exact h.proceed hi expired

/-- What a step does to the logs and the consumers is what anybody may do to them. -/
theorem step_consuming (h : Accounted hash m ops returned s.clock s) (a : Action) :
  (s.step hash a).1.consuming = s.consuming.run (s.logActions a)
    ∧ polls (s.step hash a).2.toList = s.consuming.returns (s.logActions a)
  := by
  change (s.act hash a).1.consuming = _ ∧ polls (s.act hash a).2.toList = _
  cases a with
  | consume action =>
      refine ⟨rfl, ?_⟩
      rw [act, logActions, Consuming.returns, Consuming.returns, List.append_nil]
      cases (s.consuming.step action).2 <;> rfl
  | call i c => exact ⟨call_consuming s i c, polls_call _ s i c⟩
  | proceed i expired =>
      rw [act, logActions]
      cases hi : s.publishers i with
      | none => exact ⟨rfl, rfl⟩
      | some b =>
          obtain ⟨hrange, -, -, hstage, happended⟩ := h.publishers i b hi
          obtain ⟨hlog, -⟩ := publishing_step (h.consistent.logs b.partition)
            (h.consistent.sizes b.partition) hstage (fun p offset hp => (happended p offset hp).1)
          dsimp only
          rw [proceed_consuming, hlog, setLog_eq hrange, polls_proceed, returns_publish]
          exact ⟨rfl, rfl⟩

/-- Every run keeps account, and does to the logs and the consumers what anybody may do. -/
theorem run (h : Accounted hash m ops returned s.clock s) (actions : List Action) :
  Accounted hash m (fun p => ops p ++ opsOn s.numPartitions p (s.logSteps hash actions))
      (returned ++ Pipeline.calls (s.outputs hash actions)) (s.run hash actions).clock
      (s.run hash actions)
    ∧ (s.run hash actions).consuming = s.consuming.run (s.logSteps hash actions)
    ∧ polls (s.outputs hash actions) = s.consuming.returns (s.logSteps hash actions)
  := by
  induction actions generalizing s ops returned with
  | nil =>
      simp only [logSteps, outputs, opsOn, List.filterMap_nil, List.append_nil]
      rw [show Pipeline.calls _ = [] from rfl, List.append_nil]
      exact ⟨h, rfl, rfl⟩
  | cons a actions ih =>
      obtain ⟨hconsuming, hpolls⟩ := h.step_consuming a
      obtain ⟨hrest, hconsuming', hpolls'⟩ := ih (h.step a)
      have hsame : (s.step hash a).1.numPartitions = s.numPartitions := by
        rw [numPartitions, hconsuming, (Consuming.run_setup ..).numPartitions]
        rfl
      rw [hsame] at hrest
      rw [logSteps, outputs, Consuming.run_append, Consuming.returns_append, ← hconsuming]
      refine ⟨?_, hconsuming', ?_⟩
      · simp only [Consuming.opsOn_append, ← List.append_assoc]
        rw [calls_append, ← List.append_assoc]
        exact hrest
      · rw [polls_append]
        exact congrArg₂ (· ++ ·) hpolls hpolls'

theorem run_setup (h : Accounted hash m ops returned s.clock s) (actions : List Action) :
  s.consuming.SameSetup (s.run hash actions).consuming
  := by
  rw [(h.run actions).2.1]
  apply Consuming.run_setup

end Accounted

/-- Nothing has happened yet. -/
theorem fresh_accounted {name group : String} (hname : OffsetStore.Plain name)
    (hgroup : OffsetStore.Plain group) (hash : String → UInt64)
    (numPartitions m : ℕ) (groupSize : ℕ → ℕ) (maxLagRecords : ℕ) (flushPolicy : FlushPolicy) :
  let start := fresh hash name numPartitions m group groupSize maxLagRecords flushPolicy
  Accounted hash m (fun _ => []) [] start.clock start
  := by
  refine ⟨?_, (fun _ _ hb => by cases hb), (fun _ hr => by cases hr), (fun _ hr => by cases hr)⟩
  apply Consuming.fresh_consistent hname hgroup

/-- A step that is not on a log is in the run as such. -/
theorem mem_logSteps {actions : List Action} {a : Consuming.Action}
    (hne : ∀ p op, a ≠ .publish p op) (ha : a ∈ s.logSteps hash actions) :
  .consume a ∈ actions
  := by
  induction actions generalizing s with
  | nil => cases ha
  | cons b actions ih =>
      rw [logSteps] at ha
      rcases List.mem_append.mp ha with ha | ha
      · cases b with
        | consume action =>
            rw [List.mem_singleton.mp ha]
            apply List.mem_cons_self
        | call i c => cases ha
        | proceed i expired =>
            rw [logActions] at ha
            split at ha
            · cases ha
            · obtain ⟨op, -, rfl⟩ := List.mem_map.mp ha
              exact absurd rfl (hne _ op)
      · apply List.mem_cons_of_mem _ (ih ha)

theorem mem_logSteps_of_member {actions : List Action} {a : Consuming.Action} {k : Member}
    (hk : a.member? = some k) (ha : a ∈ s.logSteps hash actions) :
  .consume a ∈ actions
  := by
  apply mem_logSteps _ ha
  rintro p op rfl
  cases hk

/-! ### The order of delivery -/

theorem partition_of_mem_delivered {p : ℕ} {polled : List Polled} {x : PolledRecord}
    (hx : x ∈ delivered p polled) :
  x.partition = p
  := by
  rw [delivered, List.mem_filter] at hx
  simpa using hx.2

/-- A published record that lies between the first and the last one that were delivered was
delivered at its place. -/
theorem getElem?_delivered {p : ℕ} {c : UInt64} {published : List (List UInt8)}
    {polled : List Polled} (h : Consecutive c published (delivered p polled))
    (hlength : published.length < 2 ^ 64) {offset : ℕ} {payload : List UInt8}
    (hat : published[offset]? = some payload) (hle : c.toNat ≤ offset)
    (hlt : offset < c.toNat + (delivered p polled).length) :
  (delivered p polled)[offset - c.toNat]? = some ⟨p, offset, payload⟩
  := by
  have hi : offset - c.toNat < (delivered p polled).length := by omega
  have hget := List.getElem?_eq_getElem hi
  have hoffset : ((delivered p polled)[offset - c.toNat]).offset = offset := by
    have hrange := congrArg (·[offset - c.toNat]?) (h.offsets_eq hlength)
    simp only [List.getElem?_map, hget, Option.map_some, List.getElem?_range' hi,
      Option.some_inj] at hrange
    omega
  have hpayload := (h _ _ hget).2
  rw [hoffset, hat, Option.some_inj] at hpayload
  have hpartition := partition_of_mem_delivered (List.mem_of_getElem? hget)
  rw [hget, Option.some_inj]
  cases hx : (delivered p polled)[offset - c.toNat] with
  | mk partition offset' payload' =>
      rw [hx] at hoffset hpayload hpartition
      subst hoffset hpayload hpartition
      rfl

/-- From when the constructor of its owner has read the offset committed, the records of a partition
that the group returns are consecutive, whatever the threads publish. -/
theorem Accounted.delivering (h : Accounted hash m ops returned s.clock s) {k : Member} {p : ℕ}
    {waiting after : List Action} (hassigning : (s.run hash waiting).consuming.Assigning k p)
    (hwaiting : ∀ a ∈ waiting, ∀ k', a.member? = some k' → k'.label = k.label)
    (hafter : ∀ a ∈ after, ∀ k', a.member? = some k' → k'.label = k.label) :
  let actions := waiting ++ .consume (.proceed k) :: after
  (s.run hash actions).consuming.Delivering k p
    (((s.run hash waiting).consuming.store.get s.consuming.topic.name p s.consuming.group).getD 0)
    (published m (fun p => ops p ++ opsOn s.numPartitions p (s.logSteps hash actions)) p)
    (delivered p (polls (s.outputs hash actions)))
  := by
  intro actions
  obtain ⟨-, hconsuming, hpolls⟩ := h.run actions
  obtain ⟨-, hbefore, -⟩ := h.run waiting
  have hsteps : s.logSteps hash actions = s.logSteps hash waiting ++ .proceed k
      :: ((s.run hash waiting).step hash (.consume (.proceed k))).1.logSteps hash after := by
    rw [logSteps_append]
    rfl
  rw [hbefore] at hassigning
  rw [hconsuming, hpolls, hbefore, hsteps]
  apply h.consistent.delivering_group hassigning
  · intro a ha k' hk'
    exact hwaiting _ (mem_logSteps_of_member hk' ha) k' hk'
  · intro a ha k' hk'
    exact hafter _ (mem_logSteps_of_member hk' ha) k' hk'

/-- Threads publish, and consumers poll and commit, in any order, and the constructor of the owner
`k` of the partition of a key comes to this partition at some point. Then the polls of the members
with its label return the records of the partition from the offset that the constructor finds
committed, one after the other. The records that were published with the key are among them, each at
its place. When a call with the key returned before another one was made, its records are in front
of those of the other, and the records of a batch are in the order of the batch. -/
theorem delivered_in_key_order {name group : String} (hname : OffsetStore.Plain name)
    (hgroup : OffsetStore.Plain group) (hash : String → UInt64) (numPartitions m : ℕ)
    (groupSize : ℕ → ℕ) (maxLagRecords : ℕ) (flushPolicy : FlushPolicy) (key : String) {k : Member}
    {p : ℕ} (hp : p = (hash key).toNat % numPartitions) {before waiting after : List Action}
    (hwaiting : ∀ a ∈ waiting, ∀ k', a.member? = some k' → k'.label = k.label)
    (hafter : ∀ a ∈ after, ∀ k', a.member? = some k' → k'.label = k.label) :
  let start : Pipeline :=
    fresh hash name numPartitions m group groupSize maxLagRecords flushPolicy
  let actions := waiting ++ .consume (.proceed k) :: after
  let s := start.run hash before
  let c := (((s.run hash waiting).consuming.store.get name p group).getD 0).toNat
  let keyed := (calls (start.outputs hash (before ++ actions))).filter
    (fun r => r.call.key? = some key)
  let records := delivered p (polls (s.outputs hash actions))
  (s.run hash waiting).consuming.Assigning k p →
    ((s.run hash actions).consuming.topic.partition p).nextOffset < 2 ^ 64 →
    records.map PolledRecord.offset = List.range' c records.length
      ∧ (∀ r ∈ keyed, ∀ x ∈ r.records, x.partition = p
        ∧ (c ≤ x.offset → x.offset < c + records.length →
          records[x.offset - c]? = some ⟨p, x.offset, x.payload⟩))
      ∧ (∀ r ∈ keyed, ∀ r' ∈ keyed, r.returnedAt < r'.calledAt →
        ∀ x ∈ r.records, ∀ x' ∈ r'.records, x.offset < x'.offset)
      ∧ ∀ r ∈ keyed, (r.records.map Producer.Report.offset).Pairwise (· < ·)
  := by
  intro start actions s c keyed records hassigning hlength
  have hstart := fresh_accounted hname hgroup hash numPartitions m groupSize maxLagRecords
    flushPolicy
  obtain ⟨hs, -, -⟩ := hstart.run before
  obtain ⟨hall, -, -⟩ := hs.run actions
  have hsetup := hstart.run_setup before
  have hn : s.numPartitions = numPartitions := hsetup.numPartitions
  have hn' : (s.run hash actions).numPartitions = numPartitions :=
    (hs.run_setup actions).numPartitions.trans hn
  obtain ⟨con, -, -, -, hread⟩ := hs.delivering hassigning hwaiting hafter
  rw [hsetup.name, hsetup.group] at hread
  have hconsecutive := hread.of_append
  rw [(hall.consistent.logs p).stored, ← List.length_map (f := Payload.bytes)] at hlength
  have hkeyed : ∀ r ∈ keyed, r ∈ [] ++ calls (start.outputs hash before)
      ++ calls (s.outputs hash actions) ∧ r.call.key? = some key := by
    intro r hr
    obtain ⟨hmem, hkey⟩ := List.mem_filter.mp hr
    rw [outputs_append, calls_append] at hmem
    exact ⟨hmem, of_decide_eq_true hkey⟩
  have hplace : ∀ r ∈ keyed, ∀ x ∈ r.records, x.partition = p := by
    intro r hr x hx
    obtain ⟨hmem, hkey⟩ := hkeyed r hr
    rw [(hall.calls r hmem).keyed key hkey x hx, hn', hp]
  refine ⟨hconsecutive.offsets_eq hlength, ?_, ?_, ?_⟩
  · intro r hr x hx
    obtain ⟨hmem, -⟩ := hkeyed r hr
    refine ⟨hplace r hr x hx, ?_⟩
    intro hle hlt
    obtain ⟨p', hp', hat⟩ := (hall.calls r hmem).place x hx
    rw [hplace r hr x hx, Int.natCast_inj] at hp'
    subst hp'
    exact getElem?_delivered hconsecutive hlength hat hle hlt
  · intro r hr r' hr' hbetween x hx x' hx'
    apply hall.ordered r (hkeyed r hr).1 r' (hkeyed r' hr').1 hbetween x hx x' hx'
    rw [hplace r hr x hx, hplace r' hr' x' hx']
  · intro r hr
    exact (hall.calls r (hkeyed r hr).1).increasing

theorem length_singleton_lt (b : UInt8) :
  [b].length < 2 ^ 32
  := by
  rw [List.length_singleton]
  exact Nat.one_lt_two_pow (by decide)

/-- The payload that is one byte. -/
def oneByte (b : UInt8) : Payload := ⟨[b], length_singleton_lt b⟩

/-- A thread publishes a record with a key. -/
def firstCall : List Action :=
  [.call 0 (.publishKeyed "k" (oneByte 7)), .proceed 0 false, .proceed 0 false,
    .proceed 0 false]

/-- The constructor of a consumer comes to the second partition. -/
def begins : List Action :=
  [.consume (.construct ⟨0, 0⟩), .consume (.proceed ⟨0, 0⟩), .consume (.proceed ⟨0, 0⟩),
    .consume (.proceed ⟨0, 0⟩)]

/-- Another thread publishes a batch with the key while the consumer polls. -/
def secondCall : List Action :=
  [.consume (.proceed ⟨0, 0⟩), .call 1 (.publishBatchKeyed "k" [[8], [9]]),
    .consume (.poll ⟨0, 0⟩ 5 [0, 1]), .proceed 1 false, .consume (.proceed ⟨0, 0⟩),
    .proceed 1 false, .consume (.proceed ⟨0, 0⟩), .consume (.proceed ⟨0, 0⟩),
    .consume (.proceed ⟨0, 0⟩), .consume (.proceed ⟨0, 0⟩), .consume (.proceed ⟨0, 0⟩)]

theorem delivered_in_key_order_batch :
  let hash : String → UInt64 := fun key => UInt64.ofNat key.length
  let s := (fresh hash "topic" 2 64 "group" (fun _ => 1) 2 .perMessage).run hash firstCall
  let actions := begins ++ .consume (.proceed ⟨0, 0⟩) :: secondCall
  let c := (((s.run hash begins).consuming.store.get "topic" (1 : ℕ) "group").getD 0).toNat
  let records := delivered 1 (polls (s.outputs hash actions))
  records = [⟨1, 0, [7]⟩, ⟨1, 1, [8]⟩, ⟨1, 2, [9]⟩]
    ∧ records.map PolledRecord.offset = List.range' c records.length
  := by
  intro hash s actions c records
  have hwaiting : ∀ a ∈ begins, ∀ k', a.member? = some k' → k'.label = 0 := by
    simp [begins, Action.member?, Consuming.Action.member?]
  have hafter : ∀ a ∈ secondCall, ∀ k', a.member? = some k' → k'.label = 0 := by
    simp [secondCall, Action.member?, Consuming.Action.member?]
  have hassigning : (s.run hash begins).consuming.Assigning ⟨0, 0⟩ 1 := by decide +kernel
  have hlength : ((s.run hash actions).consuming.topic.partition 1).nextOffset < 2 ^ 64 := by
    decide +kernel
  have hp : 1 = (hash "k").toNat % 2 := by decide
  refine ⟨by decide +kernel, ?_⟩
  exact (delivered_in_key_order (by decide) (by decide) hash 2 64 (fun _ => 1) 2 .perMessage "k" hp
    hwaiting hafter hassigning hlength).1

end Pipeline

end Broker
