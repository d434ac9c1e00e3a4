import Cascade.Broker.Delivery

/-!
# At least once

Any number of consumer objects of a group come and go. Some are abandoned, in the middle of a
poll or not, and some go on committing after others have taken over, so that a committed offset
may move backwards. In every state, whatever is below a committed offset has been returned by a
poll, and whatever is below a cursor has been returned or is about to be
(`Consuming.Covered`).
-/

open Storage

namespace Broker

namespace Consuming

variable {m : ℕ} {ops : ℕ → List Op} {s : Consuming} {k : Member}

/-! ### What a step does to the store -/

/-- The offset that the group is to read next in a partition. -/
def committedOffset (s : Consuming) (p : ℕ) : UInt64 :=
  (s.store.get s.topic.name p s.group).getD 0

/-- A step changes a committed offset only by committing a cursor, when all that the consumer has
read has been returned. -/
theorem Consistent.step_committedOffset (h : s.Consistent m ops) (a : Action) (p : ℕ) :
  (s.step a).1.committedOffset p = s.committedOffset p
    ∨ ∃ k c, s.consumers k = some c ∧ (s.step a).1.committedOffset p = c.cursor p
      ∧ c.pending p = []
  := by
  cases ha : a.member? with
  | some k =>
      rcases s.step_own ha with heq | ⟨store, c', hstore, heq⟩
      · exact .inl (congrArg (committedOffset · p) heq)
      rw [heq]
      cases hstore with
      | same => exact .inl rfl
      | register q => exact .inl (OffsetStore.getD_registerGroup ..)
      | @commit c q rest hc hcall =>
          by_cases hq : p = q
          · subst hq
            refine .inr ⟨k, c, hc, ?_, by rw [Consumer.pending, hcall]⟩
            simp [committedOffset, Consuming.setConsumer, OffsetStore.get_commit_self]
          · have hne : ¬ (s.topic.name = s.topic.name ∧ (p : ℤ) = q ∧ s.group = s.group) := by
              simp [hq]
            left
            simp only [committedOffset, Consuming.setConsumer]
            rw [OffsetStore.get_commit_of_ne _ h.plainTopic h.plainGroup hne]
  | none =>
      left
      cases a with
      | publish q op =>
          simp only [Consuming.step, Consuming.publish]
          split <;> rfl
      | registerElsewhere topic partition group =>
          simp only [Consuming.step, Consuming.elsewhere]
          split
          · rfl
          · apply OffsetStore.getD_registerGroup
      | commitElsewhere topic partition group nextOffset =>
          simp only [Consuming.step, Consuming.elsewhere]
          split
          · rfl
          · rename_i helse
            simp only [committedOffset]
            rw [OffsetStore.get_commit_of_ne _ h.plainTopic h.plainGroup
              (fun heq => helse ⟨heq.1.symm, heq.2.2.symm⟩)]
      | _ => cases ha

/-! ### What has been returned -/

/-- Every offset below a committed offset has been returned, as `Returned` says, and every offset
below a cursor has been returned or is in the poll of that consumer. -/
structure Covered (Returned : ℕ → ℕ → Prop) (s : Consuming) : Prop where
  committed : ∀ p, ∀ o < (s.committedOffset p).toNat, Returned p o
  read : ∀ k c, s.consumers k = some c → ∀ p, ∀ o < (c.cursor p).toNat,
    Returned p o ∨ ∃ r ∈ c.pending p, r.offset = o

variable {Returned Returned' : ℕ → ℕ → Prop}

/-- What a consumer has read stays covered when it takes a step. -/
theorem covered_of_reads {c c' : Consumer} {p : ℕ} {pub : List (List UInt8)}
    {out : List PolledRecord} (hreads : c.Reads p pub out c')
    (hout : ∀ r ∈ out, Returned' p r.offset) (hmono : ∀ o, Returned p o → Returned' p o)
    (h : ∀ o < (c.cursor p).toNat, Returned p o ∨ ∃ r ∈ c.pending p, r.offset = o) :
  ∀ o < (c'.cursor p).toNat, Returned' p o ∨ ∃ r ∈ c'.pending p, r.offset = o
  := by
  have hsplit : ∀ r ∈ out ++ c'.pending p,
      Returned' p r.offset ∨ ∃ r' ∈ c'.pending p, r'.offset = r.offset := by
    intro r hr
    rcases List.mem_append.mp hr with hr | hr
    · exact .inl (hout r hr)
    · exact .inr ⟨r, hr, rfl⟩
  have hold : c.pending p ⊆ out ++ c'.pending p → ∀ o < (c.cursor p).toNat,
      Returned' p o ∨ ∃ r ∈ c'.pending p, r.offset = o := by
    intro hsub o ho
    rcases h o ho with hreturned | ⟨r, hr, rfl⟩
    · exact .inl (hmono o hreturned)
    · apply hsplit r (hsub hr)
  rcases hreads with ⟨hsame, hcur⟩ | ⟨payload, -, hmore, hcur⟩
  · rw [hcur]
    apply hold
    rw [hsame]
    apply List.Subset.refl
  · intro o ho
    have hle : (c'.cursor p).toNat ≤ (c.cursor p).toNat + 1 := by
      rw [hcur, UInt64.toNat_add]
      apply Nat.mod_le
    rcases Nat.lt_or_ge o (c.cursor p).toNat with hlt | hge
    · apply hold _ o hlt
      rw [hmore]
      apply List.subset_append_left
    · obtain rfl : o = (c.cursor p).toNat := by omega
      apply hsplit ⟨p, (c.cursor p).toNat, payload⟩
      rw [hmore]
      apply List.mem_concat_self

/-- A step keeps everything covered, with what it returns. -/
theorem Consistent.covered_step (h : s.Consistent m ops) (hs : s.Covered Returned) (a : Action)
    (hmono : ∀ p o, Returned p o → Returned' p o)
    (hout : ∀ p, ∀ r ∈ delivered p (s.step a).2.toList, Returned' p r.offset) :
  (s.step a).1.Covered Returned'
  := by
  constructor
  · intro p o ho
    rcases h.step_committedOffset a p with hsame | ⟨k, c, hc, hcommit, hpending⟩
    · rw [hsame] at ho
      apply hmono p o (hs.committed p o ho)
    · rw [hcommit] at ho
      rcases hs.read k c hc p o ho with hreturned | ⟨r, hr, -⟩
      · exact hmono p o hreturned
      · rw [hpending] at hr
        cases hr
  · intro k c' hc' p
    cases hc : s.consumers k with
    | none =>
        intro o ho
        rw [step_new hc hc'] at ho
        cases ho
    | some c =>
        by_cases ha : a.member? = some k
        · rcases h.step_cases hc ha p with ⟨rfl, q, rest, hcall⟩ | ⟨c'', hc'', -, hreads⟩
          · rw [step_assign hc hcall] at hc'
            obtain rfl := Option.some_inj.mp ((setConsumer_self ..).symm.trans hc')
            rcases eq_or_ne p q with rfl | hne
            · -- The cursor is now the offset that is committed.
              intro o ho
              dsimp only at ho
              rw [Function.update_self] at ho
              exact .inl (hmono p o (hs.committed p o ho))
            · exact covered_of_reads (reads_assign hcall hne [] _) (fun _ hr => nomatch hr)
                (hmono p) (hs.read k c hc p)
          · obtain rfl := Option.some_inj.mp (hc'.symm.trans hc'')
            exact covered_of_reads hreads (hout p) (hmono p) (hs.read k c hc p)
        · rw [step_consumers_of_ne s ha, hc, Option.some_inj] at hc'
          subst hc'
          apply covered_of_reads (.refl p [] c) (fun _ hr => nomatch hr) (hmono p)
            (hs.read k c hc p)

/-- In the course of a run everything stays covered. -/
theorem Consistent.covered_run (h : s.Consistent m ops) (hs : s.Covered Returned)
    (actions : List Action) :
  (s.run actions).Covered
    (fun p o => Returned p o ∨ ∃ r ∈ delivered p (s.returns actions), r.offset = o)
  := by
  induction actions generalizing s ops Returned with
  | nil => exact ⟨fun p o ho => .inl (hs.committed p o ho),
      fun k c hc p o ho => (hs.read k c hc p o ho).imp_left .inl⟩
  | cons a actions ih =>
      have hstep : (s.step a).1.Covered
          (fun p o => Returned p o ∨ ∃ r ∈ delivered p (s.step a).2.toList, r.offset = o) :=
        h.covered_step hs a (fun _ _ => .inl) (fun p r hr => .inr ⟨r, hr, rfl⟩)
      have hrun := ih (h.step a) hstep
      simp only [returns, delivered_append, List.mem_append, or_and_right, exists_or,
        ← or_assoc]
      exact hrun

theorem fresh_covered (name group : String) (numPartitions m : ℕ) (groupSize : ℕ → ℕ) :
  (fresh name numPartitions m group groupSize).Covered (fun _ _ => False)
  := by
  constructor
  · intro p o ho
    cases ho
  · exact fun _ _ hc => nomatch hc

/-- Whatever the publishers and any number of consumer objects of the group do, every offset below
the committed offset of a partition has been returned by a poll. The first record that a consumer
object returns from a partition is the one at the offset that its constructor found committed. -/
theorem at_least_once {name group : String} (hname : OffsetStore.Plain name)
    (hgroup : OffsetStore.Plain group) (numPartitions m : ℕ) (groupSize : ℕ → ℕ)
    (actions : List Action) :
  let s₀ := fresh name numPartitions m group groupSize
  let s := s₀.run actions
  (∀ p : ℕ, ∀ o < ((s.store.get name p group).getD 0).toNat,
      ∃ r ∈ delivered p (s₀.returns actions), r.offset = o)
    ∧ ∀ k p r, (deliveredBy k p (s₀.returns actions)).head? = some r →
      ∃ before after, actions = before ++ .proceed k :: after ∧ (s₀.run before).Assigning k p
        ∧ r.offset = (((s₀.run before).store.get name p group).getD 0).toNat
        ∧ (appended ((Log.fresh m).history (opsOn numPartitions p actions)))[r.offset]?
          = some r.payload
  := by
  intro s₀ s
  have hfresh := fresh_consistent hname hgroup numPartitions m groupSize
  constructor
  · intro p o ho
    have hsetup := run_setup s₀ actions
    have hcovered := (hfresh.covered_run (fresh_covered ..) actions).committed p o
    rw [committedOffset, hsetup.name, hsetup.group] at hcovered
    exact (hcovered ho).resolve_left id
  · intro k p r hr
    have hstart : s₀.Unassigned k p := fun _ hc => nomatch hc
    have hend : ¬ s.Unassigned k p := by
      intro hk
      rw [(hfresh.deliveredBy_of_unassigned hk).2] at hr
      cases hr
    obtain ⟨before, after, rfl, hassigning⟩ := hfresh.exists_assigning hstart hend
    have h := hfresh.run before
    have hsetup := run_setup s₀ before
    have hnil := (hfresh.deliveredBy_of_unassigned (hassigning.unassigned h)).2
    rw [hassigning.returns_eq, deliveredBy_append, hnil, List.nil_append,
      List.head?_eq_getElem?] at hr
    have hassigned := h.step (.proceed k)
    simp only [Action.op?, Option.toList_none, List.append_nil, List.nil_append] at hassigned
    have hsetup' := hsetup.trans (step_setup _ (.proceed k))
    obtain ⟨con, -, -, -, hread⟩ := hassigned.delivering_run (hassigning.delivering _) after
    rw [hsetup.name, hsetup.group, hsetup'.numPartitions, published_eq] at hread
    obtain ⟨hoffset, hpayload⟩ := hread.of_append 0 r hr
    refine ⟨before, after, rfl, hassigning, ?_, ?_⟩
    · rw [hoffset]
      exact congrArg UInt64.toNat (UInt64.add_zero _)
    · rw [opsOn_append, opsOn_cons]
      exact hpayload

/-- The second owner takes over where the first one committed. -/
theorem at_least_once_handover :
  let s₀ := fresh "topic" 2 64 "group" (fun _ => 2)
  let actions := firstOwner ++ secondBegins ++ .proceed ⟨1, 0⟩ :: secondOwner
  (∃ r ∈ delivered 0 (s₀.returns actions), r.offset = 0)
    ∧ (deliveredBy ⟨1, 0⟩ 0 (s₀.returns actions)).head? = some ⟨0, 1, [8]⟩
    ∧ ∃ before after, actions = before ++ .proceed ⟨1, 0⟩ :: after
      ∧ (s₀.run before).Assigning ⟨1, 0⟩ 0
      ∧ 1 = (((s₀.run before).store.get "topic" (0 : ℕ) "group").getD 0).toNat
  := by
  intro s₀ actions
  have hhead : (deliveredBy ⟨1, 0⟩ 0 (s₀.returns actions)).head? = some ⟨0, 1, [8]⟩ := by
    decide +kernel
  obtain ⟨hcovered, hfirst⟩ := at_least_once (show OffsetStore.Plain "topic" by decide)
    (show OffsetStore.Plain "group" by decide) 2 64 (fun _ => 2) actions
  refine ⟨hcovered 0 0 (by decide +kernel), hhead, ?_⟩
  obtain ⟨before, after, hsplit, hassigning, hoffset, -⟩ := hfirst ⟨1, 0⟩ 0 _ hhead
  exact ⟨before, after, hsplit, hassigning, hoffset⟩

end Consuming

end Broker
