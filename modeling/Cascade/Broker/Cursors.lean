import Cascade.Broker.Keys
import Cascade.Broker.Consumer

/-!
# The cursors of a consumer group

In every state of a group no cursor and no committed offset is beyond the end of its partition,
and a poll that has left a partition behind has left its cursor at the end that the partition had
then (`Consuming.Consistent`), whatever the publishers, the members of the group and other users
of the offset store do. So a poll that returns fewer records than it may has come to the end of
every partition of its consumer.
-/

open Storage

namespace Broker

/-! ### The partitions of a consumer -/

/-- The partitions that go to an index. -/
def owned (numPartitions groupSize index : ℕ) : List ℕ :=
  (List.range numPartitions).filter (fun p => p % groupSize = index)

theorem nodup_owned (numPartitions groupSize index : ℕ) :
  (owned numPartitions groupSize index).Nodup
  := by
  apply List.Nodup.filter
  apply List.nodup_range

theorem index_of_mem_owned {numPartitions groupSize index p : ℕ}
    (h : p ∈ owned numPartitions groupSize index) :
  p % groupSize = index
  := by
  rw [owned, List.mem_filter] at h
  apply of_decide_eq_true h.2

/-- The partitions that a constructor will still assign. -/
def Call.coming (groupSize index : ℕ) : Call → List ℕ
  | .constructing rest => rest.filter (fun p => p % groupSize = index)
  | .assigning p rest => p :: rest.filter (fun p => p % groupSize = index)
  | _ => []

namespace Consumer

/-- A poll that has left a partition behind has left the cursor where the partition ended then. -/
def CallOk (c : Consumer) : Prop :=
  match c.call with
  | .polling _ results rest ends =>
      rest.Nodup ∧ (∀ p ∈ rest, p ∈ c.partitions) ∧ (∀ r ∈ results, r.partition ∈ c.partitions)
        ∧ ∀ p ∈ c.partitions, p ∉ rest → (c.cursor p).toNat = ends p
  | _ => True

/-- The consumer gets the partitions of its index, and no cursor is beyond the end. -/
structure Ok (numPartitions groupSize index : ℕ) (ends : ℕ → ℕ) (c : Consumer) : Prop where
  assigned : c.partitions ++ c.call.coming groupSize index = owned numPartitions groupSize index
  within : ∀ p, (c.cursor p).toNat ≤ ends p
  call : c.CallOk

namespace Ok

variable {numPartitions groupSize index : ℕ} {ends : ℕ → ℕ} {c : Consumer} {p : ℕ}

theorem nodup (h : c.Ok numPartitions groupSize index ends) :
  (c.partitions ++ c.call.coming groupSize index).Nodup
  := by
  rw [h.assigned]
  apply nodup_owned

theorem mem_owned (h : c.Ok numPartitions groupSize index ends)
    (hp : p ∈ c.partitions ++ c.call.coming groupSize index) :
  p ∈ owned numPartitions groupSize index
  := h.assigned ▸ hp

/-- After the constructor, the consumer has all partitions of its index. -/
theorem partitions_eq (h : c.Ok numPartitions groupSize index ends) (hidle : c.call = .idle) :
  c.partitions = owned numPartitions groupSize index
  := by
  rw [← h.assigned, hidle]
  exact (List.append_nil _).symm

/-- A partition is assigned once. -/
theorem not_mem_of_assigning (h : c.Ok numPartitions groupSize index ends) {rest : List ℕ}
    (hcall : c.call = .assigning p rest) :
  p ∉ c.partitions
  := by
  have hnodup := h.nodup
  rw [hcall] at hnodup
  intro hp
  exact List.disjoint_of_nodup_append hnodup hp List.mem_cons_self

end Ok

end Consumer

/-! ### The whole group -/

namespace Consuming

/-- The operation of a step on the log of partition `p`. -/
def Action.op? (numPartitions p : ℕ) : Action → Option Op
  | .publish q op => if q = p ∧ q < numPartitions then some op else none
  | _ => none

/-- The operations on the log of partition `p` in the course of a list of steps. -/
def opsOn (numPartitions p : ℕ) (actions : List Action) : List Op :=
  actions.filterMap (Action.op? numPartitions p)

theorem opsOn_cons (numPartitions p : ℕ) (a : Action) (actions : List Action) :
  opsOn numPartitions p (a :: actions)
    = (a.op? numPartitions p).toList ++ opsOn numPartitions p actions
  := by
  rw [opsOn, List.filterMap_cons]
  cases a.op? numPartitions p <;> rfl

theorem opsOn_append (numPartitions p : ℕ) (actions actions' : List Action) :
  opsOn numPartitions p (actions ++ actions')
    = opsOn numPartitions p actions ++ opsOn numPartitions p actions'
  := List.filterMap_append

/-- The payloads that operations leave in fresh logs. -/
def payloads (m : ℕ) (ops : ℕ → List Op) (p : ℕ) : List Payload := Op.specRun m [] (ops p)

/-- The logs hold what the operations `ops` appended, and no cursor and no committed offset is
beyond the end of its partition. -/
structure Consistent (m : ℕ) (ops : ℕ → List Op) (s : Consuming) : Prop where
  plainTopic : OffsetStore.Plain s.topic.name
  plainGroup : OffsetStore.Plain s.group
  logs : ∀ p, (s.topic.partition p).Settled (payloads m ops p)
  sizes : ∀ p, (s.topic.partition p).maxSegmentBytes = m
  members : ∀ k c, s.consumers k = some c →
    c.Ok s.topic.numPartitions (s.groupSize k.label) k.index (fun p => (payloads m ops p).length)
  committed : ∀ p : ℕ,
    ((s.store.get s.topic.name p s.group).getD 0).toNat ≤ (payloads m ops p).length

variable {m : ℕ} {ops : ℕ → List Op} {s : Consuming}

theorem payloads_update_self (m : ℕ) (ops : ℕ → List Op) (p : ℕ) (op : Op) :
  payloads m (Function.update ops p (ops p ++ [op])) p = (op.spec m (payloads m ops p)).1
  := by
  rw [payloads, Function.update_self]
  apply Op.specRun_append

theorem payloads_update_of_ne (m : ℕ) (ops : ℕ → List Op) {p q : ℕ} (h : q ≠ p)
    (l : List Op) :
  payloads m (Function.update ops p l) q = payloads m ops q
  := by
  rw [payloads, Function.update_of_ne h]
  rfl

/-- Nothing is lost from a log. -/
theorem prefix_payloads (m : ℕ) (ops : ℕ → List Op) (p : ℕ) (op : Op) (q : ℕ) :
  payloads m ops q <+: payloads m (Function.update ops p (ops p ++ [op])) q
  := by
  by_cases hq : q = p
  · subst hq
    rw [payloads_update_self]
    apply Op.prefix_spec
  · rw [payloads_update_of_ne m ops hq]

theorem fresh_consistent {name group : String} (hname : OffsetStore.Plain name)
    (hgroup : OffsetStore.Plain group) (numPartitions m : ℕ) (groupSize : ℕ → ℕ) :
  (fresh name numPartitions m group groupSize).Consistent m (fun _ => [])
  := by
  constructor
  · exact hname
  · exact hgroup
  · exact fun _ => Log.fresh_settled m
  · intro p
    simp only [fresh, Log.fresh_eq]
  · exact fun _ _ hc => nomatch hc
  · exact fun _ => Nat.zero_le _

namespace Consistent

variable {k : Member} {c : Consumer}

theorem setConsumer (h : s.Consistent m ops)
    (hc : c.Ok s.topic.numPartitions (s.groupSize k.label) k.index
      (fun p => (payloads m ops p).length)) :
  (s.setConsumer k c).Consistent m ops
  := by
  refine ⟨h.plainTopic, h.plainGroup, h.logs, h.sizes, ?_, h.committed⟩
  intro k' c' hk'
  by_cases hk : k' = k
  · subst hk
    rw [setConsumer_self, Option.some_inj] at hk'
    subst hk'
    exact hc
  · rw [setConsumer_of_ne s hk] at hk'
    exact h.members k' c' hk'

theorem setStore (h : s.Consistent m ops) (store : OffsetStore)
    (hstore : ∀ p : ℕ, ((store.get s.topic.name p s.group).getD 0).toNat
      ≤ (payloads m ops p).length) :
  Consistent m ops { s with store := store }
  := ⟨h.plainTopic, h.plainGroup, h.logs, h.sizes, h.members, hstore⟩

/-- An operation on a log makes it grow. -/
theorem publish (h : s.Consistent m ops) {p : ℕ} (hp : p < s.topic.numPartitions) (op : Op) :
  (s.publish p op).Consistent m (Function.update ops p (ops p ++ [op]))
  := by
  rw [Consuming.publish, if_pos hp]
  obtain ⟨-, -, hsettled, hsize⟩ := Log.perform_refines op _ _ (h.logs p)
  rw [h.sizes p] at hsettled hsize
  have hgrow := fun q => (prefix_payloads m ops p op q).length_le
  refine ⟨h.plainTopic, h.plainGroup, ?_, ?_, ?_, fun q => (h.committed q).trans (hgrow q)⟩
  · intro q
    by_cases hq : q = p
    · subst hq
      simp only [Function.update_self]
      rw [payloads_update_self]
      exact hsettled
    · simp only [Function.update_of_ne hq]
      rw [payloads_update_of_ne m ops hq]
      exact h.logs q
  · intro q
    by_cases hq : q = p
    · subst hq
      simp only [Function.update_self]
      exact hsize
    · simp only [Function.update_of_ne hq]
      exact h.sizes q
  · intro k c hc
    have hok := h.members k c hc
    exact ⟨hok.assigned, fun q => (hok.within q).trans (hgrow q), hok.call⟩

theorem construct (h : s.Consistent m ops) (k : Member) :
  (s.construct k).Consistent m ops
  := by
  rw [Consuming.construct]
  split
  · apply h.setConsumer
    exact ⟨rfl, fun _ => Nat.zero_le _, trivial⟩
  · exact h

/-- The next record of a partition, if there is one, is that at the cursor. -/
theorem read (h : s.Consistent m ops) (p : ℕ) (o : UInt64) :
  (s.topic.partition p).read o.toNat
    = (payloads m ops p)[o.toNat]?.map (fun q => ⟨o.toNat, q.bytes⟩)
  := by
  apply (h.logs p).read_eq o.toNat_lt

/-- A call may be replaced, if the constructor still assigns the same partitions. -/
theorem setCall (h : s.Consistent m ops) (hc : s.consumers k = some c) {call : Call}
    (hcoming : ∀ groupSize index, call.coming groupSize index = c.call.coming groupSize index)
    (hcall : Consumer.CallOk { c with call := call }) :
  (s.setConsumer k { c with call := call }).Consistent m ops
  := by
  have hok := h.members k c hc
  apply h.setConsumer
  refine ⟨?_, hok.within, hcall⟩
  rw [hcoming]
  exact hok.assigned

/-- The constructor looks at a partition. -/
theorem examine (h : s.Consistent m ops) (hc : s.consumers k = some c) {p : ℕ} {rest : List ℕ}
    (hcall : c.call = .constructing (p :: rest)) :
  (s.examine k c p rest).Consistent m ops
  := by
  have hok := h.members k c hc
  have hassigned := hok.assigned
  rw [hcall, Call.coming, List.filter_cons] at hassigned
  rw [Consuming.examine]
  split
  · next howner =>
      rw [if_pos (decide_eq_true howner)] at hassigned
      have hstore := h.setStore (s.store.registerGroup s.topic.name p s.group) (by
        intro q
        rw [OffsetStore.getD_registerGroup]
        exact h.committed q)
      exact hstore.setConsumer ⟨hassigned, hok.within, trivial⟩
  · next hother =>
      rw [if_neg fun howner => hother (of_decide_eq_true howner)] at hassigned
      exact h.setConsumer ⟨hassigned, hok.within, trivial⟩

/-- The constructor takes the offset committed, which is not beyond the end. -/
theorem assign (h : s.Consistent m ops) (hc : s.consumers k = some c) {p : ℕ} {rest : List ℕ}
    (hcall : c.call = .assigning p rest) :
  (s.assign k c p rest).Consistent m ops
  := by
  have hok := h.members k c hc
  have hassigned := hok.assigned
  rw [hcall, Call.coming, List.append_cons] at hassigned
  apply h.setConsumer
  refine ⟨hassigned, ?_, trivial⟩
  intro q
  dsimp only
  rcases eq_or_ne q p with rfl | hne
  · rw [Function.update_self]
    exact h.committed q
  · rw [Function.update_of_ne hne]
    exact hok.within q

theorem enter (h : s.Consistent m ops) (k : Member) {order : List ℕ} {call : Call}
    (hcoming : ∀ groupSize index, call.coming groupSize index = [])
    (hcall : ∀ c, s.consumers k = some c → order.Perm c.partitions →
      Consumer.CallOk { c with call := call }) :
  (s.enter k order call).Consistent m ops
  := by
  rw [Consuming.enter]
  split
  · rename_i partitions cursor hc
    split
    · rename_i horder
      exact h.setCall hc hcoming (hcall _ hc horder)
    · exact h
  · exact h

theorem poll (h : s.Consistent m ops) (k : Member) (maxRecords : ℕ) (order : List ℕ) :
  (s.poll k maxRecords order).Consistent m ops
  := by
  apply h.enter k (fun _ _ => rfl)
  intro c hc horder
  refine ⟨?_, fun p => horder.mem_iff.mp, fun _ hr => (nomatch hr), ?_⟩
  · rw [horder.nodup_iff]
    exact (h.members k c hc).nodup.of_append_left
  · intro p hp hrest
    exact absurd (horder.mem_iff.mpr hp) hrest

/-- When a poll finds no record, its cursor is at the end of the partition. -/
theorem readNext (h : s.Consistent m ops) (hc : s.consumers k = some c) {maxRecords : ℕ}
    {results : List PolledRecord} {p : ℕ} {rest : List ℕ} {ends : ℕ → ℕ}
    (hcall : c.call = .polling maxRecords results (p :: rest) ends) :
  (s.readNext k c maxRecords results p rest ends).Consistent m ops
  := by
  have hok := h.members k c hc
  have hcallOk := hok.call
  rw [Consumer.CallOk, hcall] at hcallOk
  obtain ⟨hnodup, hrest, hresults, hends⟩ := hcallOk
  rw [List.nodup_cons] at hnodup
  rw [List.forall_mem_cons] at hrest
  have hstored : (s.topic.partition p).nextOffset = (payloads m ops p).length := (h.logs p).stored
  simp only [Consuming.readNext, h.read]
  cases hget : (payloads m ops p)[(c.cursor p).toNat]? with
  | none =>
      have hend : (c.cursor p).toNat = (payloads m ops p).length := by
        apply le_antisymm (hok.within p)
        apply List.getElem?_eq_none_iff.mp hget
      apply h.setCall hc (by simp [Call.coming, hcall])
      refine ⟨hnodup.2, hrest.2, hresults, ?_⟩
      intro q hq hqrest
      by_cases hqp : q = p
      · subst hqp
        rw [Function.update_self, hstored, hend]
      · rw [Function.update_of_ne hqp]
        apply hends q hq
        simp [hqp, hqrest]
  | some payload =>
      have hassigned := hok.assigned
      rw [hcall] at hassigned
      apply h.setConsumer
      constructor
      · exact hassigned
      · intro q
        by_cases hqp : q = p
        · subst hqp
          have hlt := (List.getElem?_eq_some_iff.mp hget).1
          have hle : (c.cursor q + 1).toNat ≤ (c.cursor q).toNat + 1 := by
            rw [UInt64.toNat_add]
            apply Nat.mod_le
          simp only [Function.update_self]
          omega
        · simp only [Function.update_of_ne hqp]
          exact hok.within q
      · refine ⟨List.nodup_cons.mpr hnodup, List.forall_mem_cons.mpr hrest, ?_, ?_⟩
        · intro r hr
          rcases List.mem_append.mp hr with hr | hr
          · exact hresults r hr
          · rw [List.mem_singleton.mp hr]
            exact hrest.1
        · intro q hq hqrest
          have hqp : q ≠ p := by
            rintro rfl
            simp at hqrest
          simp only [Function.update_of_ne hqp]
          exact hends q hq hqrest

theorem commitNext (h : s.Consistent m ops) (hc : s.consumers k = some c) (p : ℕ) :
  Consistent m ops { s with store := s.store.commit s.topic.name p s.group (c.cursor p) }
  := by
  apply h.setStore
  intro q
  by_cases hq : q = p
  · subst hq
    rw [OffsetStore.get_commit_self]
    exact (h.members k c hc).within q
  · have hne : ¬ (s.topic.name = s.topic.name ∧ (q : ℤ) = p ∧ s.group = s.group) := by
      simp [hq]
    rw [OffsetStore.get_commit_of_ne _ h.plainTopic h.plainGroup hne]
    exact h.committed q

theorem proceed (h : s.Consistent m ops) (hc : s.consumers k = some c) :
  (s.proceed k c).1.Consistent m ops
  := by
  rw [Consuming.proceed]
  split
  · exact h
  · next hcall => exact h.setCall hc (by simp [Call.coming, hcall]) trivial
  · next hcall => exact h.examine hc hcall
  · next hcall => exact h.assign hc hcall
  · next hcall => exact h.setCall hc (by simp [Call.coming, hcall]) trivial
  · next hcall =>
      split
      · exact h.readNext hc hcall
      · exact h.setCall hc (by simp [Call.coming, hcall]) trivial
  · next hcall => exact h.setCall hc (by simp [Call.coming, hcall]) trivial
  · next p rest hcall =>
      exact (h.commitNext hc p).setCall hc (by simp [Call.coming, hcall]) trivial

theorem elsewhere (h : s.Consistent m ops) {topic group : String} {store : OffsetStore}
    (hstore : ¬ (topic = s.topic.name ∧ group = s.group) → ∀ p : ℕ,
      (store.get s.topic.name p s.group).getD 0 = (s.store.get s.topic.name p s.group).getD 0) :
  (s.elsewhere topic group store).Consistent m ops
  := by
  rw [Consuming.elsewhere]
  split
  · exact h
  · rename_i helse
    apply h.setStore
    intro p
    rw [hstore helse]
    exact h.committed p

/-- Every step keeps the group consistent. -/
theorem step (h : s.Consistent m ops) (a : Action) :
  (s.step a).1.Consistent m
    (fun p => ops p ++ (a.op? s.topic.numPartitions p).toList)
  := by
  cases a with
  | publish p op =>
      by_cases hp : p < s.topic.numPartitions
      · have hops : (fun q => ops q ++ (Action.op? s.topic.numPartitions q (.publish p op)).toList)
            = Function.update ops p (ops p ++ [op]) := by
          funext q
          by_cases hq : q = p
          · subst hq
            simp [Action.op?, hp]
          · simp [Action.op?, hq, Ne.symm hq]
        rw [hops]
        exact h.publish hp op
      · simp only [Consuming.step, Consuming.publish, Action.op?, hp, and_false, if_false,
          Option.toList_none, List.append_nil]
        exact h
  | construct k =>
      simp only [Action.op?, Option.toList_none, List.append_nil]
      exact h.construct k
  | poll k maxRecords order =>
      simp only [Action.op?, Option.toList_none, List.append_nil]
      exact h.poll k maxRecords order
  | commit k order =>
      simp only [Action.op?, Option.toList_none, List.append_nil]
      exact h.enter k (fun _ _ => rfl) (fun _ _ _ => trivial)
  | proceed k =>
      simp only [Action.op?, Option.toList_none, List.append_nil, Consuming.step]
      split
      · exact h
      · rename_i c hc
        exact h.proceed hc
  | registerElsewhere topic partition group =>
      simp only [Action.op?, Option.toList_none, List.append_nil]
      apply h.elsewhere
      intro _ p
      apply OffsetStore.getD_registerGroup
  | commitElsewhere topic partition group nextOffset =>
      simp only [Action.op?, Option.toList_none, List.append_nil]
      apply h.elsewhere
      intro helse p
      rw [OffsetStore.get_commit_of_ne _ h.plainTopic h.plainGroup
        (fun heq => helse ⟨heq.1.symm, heq.2.2.symm⟩)]

/-- Every run keeps the group consistent. -/
theorem run (h : s.Consistent m ops) (actions : List Action) :
  (s.run actions).Consistent m
    (fun p => ops p ++ opsOn s.topic.numPartitions p actions)
  := by
  induction actions generalizing s ops with
  | nil =>
      simp only [opsOn, List.filterMap_nil, List.append_nil]
      exact h
  | cons a actions ih =>
      have hrun := ih (h.step a)
      rw [(step_setup s a).numPartitions] at hrun
      simp only [opsOn_cons, ← List.append_assoc]
      exact hrun

end Consistent

/-! ### What a poll returns -/

/-- A step ends at most the poll of the member that takes it. -/
theorem step_returned {a : Action} {e : Polled} (he : (s.step a).2 = some e) :
  a.member? = some e.member ∧ ∃ c rest, s.consumers e.member = some c
    ∧ c.call = .polling e.maxRecords e.records rest e.ends
    ∧ (rest = [] ∨ e.maxRecords ≤ e.records.length)
    ∧ (s.step a).1.consumers e.member = some { c with call := .idle }
  := by
  cases a with
  | proceed k =>
      simp only [Consuming.step] at he ⊢
      split at he
      · cases he
      rename_i c hc
      simp only [Consuming.proceed] at he ⊢
      split at he
      · cases he
      · cases he
      · cases he
      · cases he
      · rename_i hcall
        obtain rfl := Option.some_inj.mp he
        refine ⟨rfl, c, [], hc, hcall, Or.inl rfl, ?_⟩
        apply setConsumer_self
      · rename_i maxRecords results p rest ends hcall
        split at he
        · cases he
        · rename_i hfull
          obtain rfl := Option.some_inj.mp he
          refine ⟨rfl, c, p :: rest, hc, hcall, Or.inr (not_lt.mp hfull), ?_⟩
          simp only [if_neg hfull]
          apply setConsumer_self
      · cases he
      · cases he
  | _ => cases he

namespace Consistent

/-- A poll returns records of the partitions of its consumer. -/
theorem mem_of_returned (h : s.Consistent m ops) {a : Action} {e : Polled}
    (he : (s.step a).2 = some e) {r : PolledRecord} (hr : r ∈ e.records) :
  ∃ c, s.consumers e.member = some c ∧ r.partition ∈ c.partitions
  := by
  obtain ⟨-, c, rest, hc, hcall, -⟩ := step_returned he
  have hcallOk := (h.members _ c hc).call
  rw [Consumer.CallOk, hcall] at hcallOk
  exact ⟨c, hc, hcallOk.2.2.1 r hr⟩

/-- They are those of its index. -/
theorem index_of_mem (h : s.Consistent m ops) {k : Member} {c : Consumer}
    (hc : s.consumers k = some c) {p : ℕ}
    (hp : p ∈ c.partitions ++ c.call.coming (s.groupSize k.label) k.index) :
  p % s.groupSize k.label = k.index
  := by
  apply index_of_mem_owned
  exact (h.members k c hc).mem_owned hp

end Consistent

end Consuming

end Broker
