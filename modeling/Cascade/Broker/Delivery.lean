import Cascade.Broker.Cursors

/-!
# Delivery within a consumer group

A partition is owned by one index of the group. What its owner has read of it since it was
constructed, returned or not, are the consecutive records up to its cursor
(`Consuming.Delivering`), so the polls of the group return the records of a partition one after
the other, starting from the offset that was committed when the constructor of the owner read it.
-/

open Storage

namespace Broker

/-! ### Consecutive records -/

/-- The records are those at the offsets `c`, `c + 1`, …, with the payloads published there. -/
def Consecutive (c : UInt64) (published : List (List UInt8)) (records : List PolledRecord) :
    Prop :=
  ∀ i r, records[i]? = some r →
    r.offset = (c + UInt64.ofNat i).toNat ∧ published[r.offset]? = some r.payload

namespace Consecutive

variable {c : UInt64} {published : List (List UInt8)} {records : List PolledRecord}

theorem nil (c : UInt64) (published : List (List UInt8)) :
  Consecutive c published []
  := fun _ _ hr => nomatch hr

/-- Publishing more changes nothing. -/
theorem mono (h : Consecutive c published records) {published' : List (List UInt8)}
    (hgrown : published <+: published') :
  Consecutive c published' records
  := by
  intro i r hr
  obtain ⟨hoffset, hpayload⟩ := h i r hr
  refine ⟨hoffset, ?_⟩
  obtain ⟨more, rfl⟩ := hgrown
  rw [List.getElem?_append_left (List.getElem?_eq_some_iff.mp hpayload).1]
  exact hpayload

theorem concat (h : Consecutive c published records) {r : PolledRecord}
    (hoffset : r.offset = (c + UInt64.ofNat records.length).toNat)
    (hpayload : published[r.offset]? = some r.payload) :
  Consecutive c published (records ++ [r])
  := by
  intro i r' hr'
  rcases lt_trichotomy i records.length with hlt | rfl | hgt
  · apply h i r'
    rwa [List.getElem?_append_left hlt] at hr'
  · rw [List.getElem?_concat_length, Option.some_inj] at hr'
    subst hr'
    exact ⟨hoffset, hpayload⟩
  · rw [List.getElem?_append_right hgt.le, List.getElem?_singleton,
      if_neg (Nat.sub_ne_zero_of_lt hgt)] at hr'
    cases hr'

theorem of_append {more : List PolledRecord} (h : Consecutive c published (records ++ more)) :
  Consecutive c published records
  := by
  intro i r hr
  apply h i r
  rw [List.getElem?_append_left (List.getElem?_eq_some_iff.mp hr).1]
  exact hr

/-- As long as the offsets do not overflow, each comes once. -/
theorem offsets_eq (h : Consecutive c published records) (hlen : published.length < 2 ^ 64) :
  records.map PolledRecord.offset = List.range' c.toNat records.length
  := by
  have hoffset : ∀ i r, records[i]? = some r → r.offset = c.toNat + i := by
    intro i
    induction i with
    | zero =>
        intro r hr
        rw [(h 0 r hr).1]
        simp
    | succ i ih =>
        intro r hr
        have hi : i < records.length :=
          (Nat.lt_succ_self i).trans (List.getElem?_eq_some_iff.mp hr).1
        -- The record before is published, so the next offset is not too large.
        have hbefore := List.getElem?_eq_getElem hi
        have hpublished := (List.getElem?_eq_some_iff.mp (h i _ hbefore).2).1
        rw [ih _ hbefore] at hpublished
        rw [(h (i + 1) r hr).1, UInt64.toNat_add, UInt64.toNat_ofNat']
        omega
  apply List.ext_getElem?
  intro i
  rw [List.getElem?_map]
  cases hr : records[i]? with
  | none =>
      have hi := List.getElem?_eq_none_iff.mp hr
      rw [Option.map_none, eq_comm, List.getElem?_eq_none_iff, List.length_range']
      exact hi
  | some r =>
      have hi := (List.getElem?_eq_some_iff.mp hr).1
      rw [Option.map_some, hoffset i r hr, List.getElem?_range' hi, one_mul]

end Consecutive

/-! ### One consumer -/

theorem delivered_append (p : ℕ) (polls polls' : List Polled) :
  delivered p (polls ++ polls') = delivered p polls ++ delivered p polls'
  := by
  rw [delivered, List.flatMap_append, List.filter_append]
  rfl

/-- The records of a partition that the polls of one member returned, in order. -/
def deliveredBy (k : Member) (p : ℕ) (polls : List Polled) : List PolledRecord :=
  delivered p (polls.filter (fun e => e.member = k))

theorem deliveredBy_append (k : Member) (p : ℕ) (polls polls' : List Polled) :
  deliveredBy k p (polls ++ polls') = deliveredBy k p polls ++ deliveredBy k p polls'
  := by
  rw [deliveredBy, List.filter_append, delivered_append]
  rfl

namespace Consumer

/-- The records of a partition that the consumer has read in a poll that has not returned. -/
def pending (p : ℕ) (c : Consumer) : List PolledRecord :=
  match c.call with
  | .polling _ results _ _ => results.filter (fun r => r.partition = p)
  | _ => []

/-- In a step a consumer returns the records `out` of a partition. It may read the record at its
cursor, and otherwise it has the same records as before. -/
def Reads (p : ℕ) (published : List (List UInt8)) (c : Consumer) (out : List PolledRecord)
    (c' : Consumer) : Prop :=
  (out ++ c'.pending p = c.pending p ∧ c'.cursor p = c.cursor p)
    ∨ ∃ payload, published[(c.cursor p).toNat]? = some payload
      ∧ out ++ c'.pending p = c.pending p ++ [⟨p, (c.cursor p).toNat, payload⟩]
      ∧ c'.cursor p = c.cursor p + 1

theorem Reads.refl (p : ℕ) (published : List (List UInt8)) (c : Consumer) :
  c.Reads p published [] c
  := Or.inl ⟨rfl, rfl⟩

end Consumer

namespace Consuming

variable {m : ℕ} {ops : ℕ → List Op} {s : Consuming} {k : Member} {c : Consumer}

/-- What was published to a partition. -/
def published (m : ℕ) (ops : ℕ → List Op) (p : ℕ) : List (List UInt8) :=
  (payloads m ops p).map Payload.bytes

theorem published_eq (m : ℕ) (ops : ℕ → List Op) (p : ℕ) :
  published m ops p = appended ((Log.fresh m).history (ops p))
  := (Log.fresh_appended m (ops p)).1

theorem prefix_published (m : ℕ) (ops more : ℕ → List Op) (p : ℕ) :
  published m ops p <+: published m (fun p => ops p ++ more p) p
  := by
  apply List.IsPrefix.map
  rw [payloads, payloads, Op.specRun_append]
  apply Op.prefix_specRun

theorem enter_reads (hc : s.consumers k = some c) (order : List ℕ) {call : Call}
    (hcall : ∀ p, Consumer.pending p { c with call := call } = []) (p : ℕ)
    (published : List (List UInt8)) :
  ∃ c', (s.enter k order call).consumers k = some c' ∧ c'.partitions = c.partitions
    ∧ c.Reads p published [] c'
  := by
  rw [enter, hc]
  split
  · rename_i partitions cursor heq
    obtain rfl := Option.some_inj.mp heq
    split
    · refine ⟨_, setConsumer_self .., rfl, Or.inl ⟨?_, rfl⟩⟩
      apply hcall p
    · exact ⟨_, hc, rfl, .refl ..⟩
  · exact ⟨_, hc, rfl, .refl ..⟩

/-- A poll reads the record at the cursor, if there is one. -/
theorem Consistent.readNext_reads (h : s.Consistent m ops) {maxRecords : ℕ}
    {results : List PolledRecord} {q : ℕ} {rest : List ℕ} {ends : ℕ → ℕ}
    (hcall : c.call = .polling maxRecords results (q :: rest) ends) (p : ℕ) :
  ∃ c', (s.readNext k c maxRecords results q rest ends).consumers k = some c'
    ∧ c'.partitions = c.partitions ∧ c.Reads p (published m ops p) [] c'
  := by
  have hpending : c.pending p = results.filter (fun r => r.partition = p) := by
    rw [Consumer.pending, hcall]
  simp only [Consuming.readNext, h.read]
  cases hget : (payloads m ops q)[(c.cursor q).toNat]? with
  | none =>
      refine ⟨_, setConsumer_self .., rfl, Or.inl ⟨?_, rfl⟩⟩
      rw [hpending]
      rfl
  | some payload =>
      refine ⟨_, setConsumer_self .., rfl, ?_⟩
      by_cases hq : q = p
      · subst hq
        refine Or.inr ⟨payload.bytes, ?_, ?_, Function.update_self ..⟩
        · rw [published, List.getElem?_map, hget]
          rfl
        · rw [hpending]
          simp [Consumer.pending]
      · refine Or.inl ⟨?_, Function.update_of_ne (Ne.symm hq) ..⟩
        rw [hpending]
        simp [Consumer.pending, hq]

/-- Outside of a poll, nothing is read. -/
theorem setCall_reads {call : Call} {p : ℕ} (hpending : c.pending p = [])
    (hcall : Consumer.pending p { c with call := call } = []) (s : Consuming)
    (published : List (List UInt8)) :
  ∃ c', (s.setConsumer k { c with call := call }).consumers k = some c'
    ∧ c'.partitions = c.partitions ∧ c.Reads p published [] c'
  := by
  refine ⟨_, setConsumer_self .., rfl, Or.inl ⟨?_, rfl⟩⟩
  rw [hpending]
  exact hcall

theorem Consistent.proceed_reads (h : s.Consistent m ops) (hc : s.consumers k = some c)
    (hcall : ∀ q rest, c.call ≠ .assigning q rest) (p : ℕ) :
  ∃ c', (s.proceed k c).1.consumers k = some c' ∧ c'.partitions = c.partitions
    ∧ c.Reads p (published m ops p) (delivered p (s.proceed k c).2.toList) c'
  := by
  have hreturn : ∀ maxRecords results rest ends, c.call = .polling maxRecords results rest ends →
      ∃ c', (s.returnPoll k c maxRecords results ends).1.consumers k = some c'
        ∧ c'.partitions = c.partitions ∧ c.Reads p (published m ops p)
          (delivered p (s.returnPoll k c maxRecords results ends).2.toList) c' := by
    intro maxRecords results rest ends hcall
    refine ⟨_, setConsumer_self .., rfl, Or.inl ⟨?_, rfl⟩⟩
    simp only [Consumer.pending, hcall, delivered, returnPoll, Option.toList_some,
      List.flatMap_singleton, List.append_nil]
  rw [Consuming.proceed]
  split
  · exact ⟨c, hc, rfl, .refl ..⟩
  · next hcall => exact setCall_reads (by rw [Consumer.pending, hcall]) rfl s _
  · next hcall =>
      rw [Consuming.examine]
      split <;> exact setCall_reads (by rw [Consumer.pending, hcall]) rfl _ _
  · next hassigning => exact absurd hassigning (hcall _ _)
  · next hcall => exact hreturn _ _ _ _ hcall
  · next hcall =>
      split
      · exact h.readNext_reads hcall p
      · exact hreturn _ _ _ _ hcall
  · next hcall => exact setCall_reads (by rw [Consumer.pending, hcall]) rfl s _
  · next hcall => exact setCall_reads (by rw [Consumer.pending, hcall]) rfl _ _

variable {a : Action}

/-- In a step of its own, a member is assigned a partition by its constructor, or it keeps its
partitions, and reads and returns records. -/
theorem Consistent.step_cases (h : s.Consistent m ops) (hc : s.consumers k = some c)
    (ha : a.member? = some k) (p : ℕ) :
  (a = .proceed k ∧ ∃ q rest, c.call = .assigning q rest)
    ∨ ∃ c', (s.step a).1.consumers k = some c' ∧ c'.partitions = c.partitions
      ∧ c.Reads p (published m ops p) (delivered p (s.step a).2.toList) c'
  := by
  cases a with
  | construct k' =>
      obtain rfl := Option.some_inj.mp ha
      have hsame : s.construct k' = s := by simp [Consuming.construct, hc]
      simp only [Consuming.step, hsame]
      exact .inr ⟨c, hc, rfl, .refl ..⟩
  | poll k' maxRecords order =>
      obtain rfl := Option.some_inj.mp ha
      exact .inr (enter_reads hc order (fun _ => rfl) p _)
  | commit k' order =>
      obtain rfl := Option.some_inj.mp ha
      exact .inr (enter_reads hc order (fun _ => rfl) p _)
  | proceed k' =>
      obtain rfl := Option.some_inj.mp ha
      by_cases hcall : ∃ q rest, c.call = .assigning q rest
      · exact .inl ⟨rfl, hcall⟩
      · simp only [not_exists] at hcall
        simp only [Consuming.step, hc]
        exact .inr (h.proceed_reads hc hcall p)
  | _ => cases ha

/-- The step in which a partition is assigned. -/
theorem step_assign (hc : s.consumers k = some c) {q : ℕ} {rest : List ℕ}
    (hcall : c.call = .assigning q rest) :
  s.step (.proceed k) = (s.assign k c q rest, none)
  := by
  simp only [step, hc, proceed, hcall]

/-- When a partition is assigned, nothing is read of the others. -/
theorem reads_assign {p q : ℕ} {rest : List ℕ} (hcall : c.call = .assigning q rest) (hne : p ≠ q)
    (published : List (List UInt8)) (o : UInt64) :
  c.Reads p published []
    ⟨c.partitions ++ [q], Function.update c.cursor q o, .constructing rest⟩
  := by
  refine Or.inl ⟨?_, Function.update_of_ne hne ..⟩
  rw [Consumer.pending, Consumer.pending, hcall]
  rfl

/-- A consumer that is new is at the beginning of its constructor. -/
theorem step_new (hk : s.consumers k = none) (hc : (s.step a).1.consumers k = some c) :
  c = .empty s.topic.numPartitions
  := by
  by_cases ha : a.member? = some k
  swap
  · rw [step_consumers_of_ne s ha, hk] at hc
    cases hc
  cases a with
  | construct k' =>
      obtain rfl := Option.some_inj.mp ha
      simp only [step, construct] at hc
      split at hc
      · rw [setConsumer_self, Option.some_inj] at hc
        exact hc.symm
      · rw [hk] at hc
        cases hc
  | poll k' maxRecords order =>
      obtain rfl := Option.some_inj.mp ha
      simp [step, poll, enter, hk] at hc
  | commit k' order =>
      obtain rfl := Option.some_inj.mp ha
      simp [step, commit, enter, hk] at hc
  | proceed k' =>
      obtain rfl := Option.some_inj.mp ha
      simp [step, hk] at hc
  | _ => cases ha

theorem deliveredBy_step_self (s : Consuming) (p : ℕ) (ha : a.member? = some k) :
  deliveredBy k p (s.step a).2.toList = delivered p (s.step a).2.toList
  := by
  rw [deliveredBy, List.filter_eq_self.mpr]
  intro e he
  have hmember := (step_returned (Option.mem_toList.mp he)).1
  rw [ha, Option.some_inj] at hmember
  apply decide_eq_true hmember.symm

theorem deliveredBy_step_of_ne (s : Consuming) (p : ℕ) (ha : a.member? ≠ some k) :
  deliveredBy k p (s.step a).2.toList = []
  := by
  rw [deliveredBy, List.filter_eq_nil_iff.mpr]
  · rfl
  intro e he hk
  apply ha
  rw [(step_returned (Option.mem_toList.mp he)).1, of_decide_eq_true hk]

/-! ### The owner of a partition -/

/-- The constructor of the member is about to read the offset committed for the partition. -/
def Assigning (k : Member) (p : ℕ) (s : Consuming) : Prop :=
  (s.consumers k).bind (fun c => c.call.assigning?) = some p

instance (k : Member) (p : ℕ) (s : Consuming) : Decidable (s.Assigning k p) :=
  inferInstanceAs (Decidable (_ = _))

/-- The member does not have the partition. -/
def Unassigned (k : Member) (p : ℕ) (s : Consuming) : Prop :=
  ∀ c, s.consumers k = some c → p ∉ c.partitions

variable {p : ℕ} {o : UInt64} {records : List PolledRecord}

theorem assigning_iff :
  s.Assigning k p ↔ ∃ c rest, s.consumers k = some c ∧ c.call = .assigning p rest
  := by
  rw [Assigning, Option.bind_eq_some_iff]
  refine exists_congr fun c => ?_
  rw [exists_and_left, and_congr_right_iff]
  intro _
  cases c.call <;> simp [Call.assigning?]

theorem Assigning.unassigned (hassigning : s.Assigning k p) (h : s.Consistent m ops) :
  s.Unassigned k p
  := by
  obtain ⟨c, rest, hc, hcall⟩ := assigning_iff.mp hassigning
  intro c' hc'
  obtain rfl := Option.some_inj.mp (hc.symm.trans hc')
  exact (h.members k c hc).not_mem_of_assigning hcall

/-- A partition goes to the member with its index. -/
theorem Assigning.index_eq (hassigning : s.Assigning k p) (h : s.Consistent m ops) :
  p % s.groupSize k.label = k.index
  := by
  obtain ⟨c, rest, hc, hcall⟩ := assigning_iff.mp hassigning
  apply h.index_of_mem hc
  rw [hcall]
  exact List.mem_append_right _ List.mem_cons_self

/-- A member gets a partition in its constructor. -/
theorem Consistent.unassigned_step (h : s.Consistent m ops) (hk : s.Unassigned k p) (a : Action) :
  (s.step a).1.Unassigned k p ∨ a = .proceed k ∧ s.Assigning k p
  := by
  by_cases ha : a.member? = some k
  swap
  · left
    rw [Unassigned, step_consumers_of_ne s ha]
    exact hk
  cases hc : s.consumers k with
  | none =>
      left
      intro c' hc'
      rw [step_new hc hc']
      exact List.not_mem_nil
  | some c =>
      rcases h.step_cases hc ha p with ⟨rfl, q, rest, hcall⟩ | ⟨c', hc', hsame, -⟩
      · rcases eq_or_ne p q with rfl | hne
        · exact .inr ⟨rfl, assigning_iff.mpr ⟨c, rest, hc, hcall⟩⟩
        · left
          rw [step_assign hc hcall]
          intro c' hc'
          obtain rfl := Option.some_inj.mp ((setConsumer_self ..).symm.trans hc')
          simp [hk c hc, hne]
      · left
        intro c'' hc''
        obtain rfl := Option.some_inj.mp (hc'.symm.trans hc'')
        rw [hsame]
        exact hk c hc

/-- A member keeps a partition. -/
theorem Consistent.unassigned_of_step (h : s.Consistent m ops) (hk : (s.step a).1.Unassigned k p) :
  s.Unassigned k p
  := by
  intro c hc
  by_cases ha : a.member? = some k
  swap
  · apply hk
    rw [step_consumers_of_ne s ha, hc]
  rcases h.step_cases hc ha p with ⟨rfl, q, rest, hcall⟩ | ⟨c', hc', hsame, -⟩
  · rw [step_assign hc hcall] at hk
    intro hp
    exact hk _ (setConsumer_self ..) (List.mem_append_left _ hp)
  · rw [← hsame]
    exact hk c' hc'

/-- Before a member has a partition, it returns no record of it. -/
theorem Consistent.deliveredBy_of_unassigned (h : s.Consistent m ops) {actions : List Action}
    (hk : (s.run actions).Unassigned k p) :
  s.Unassigned k p ∧ deliveredBy k p (s.returns actions) = []
  := by
  induction actions generalizing s ops with
  | nil => exact ⟨hk, rfl⟩
  | cons a actions ih =>
      obtain ⟨hstep, hnil⟩ := ih (h.step a) hk
      have hbefore := h.unassigned_of_step hstep
      refine ⟨hbefore, ?_⟩
      rw [returns, deliveredBy_append, hnil, List.append_nil]
      cases he : (s.step a).2 with
      | none => rfl
      | some e =>
          rw [deliveredBy, delivered, List.filter_eq_nil_iff]
          intro r hr hp
          obtain ⟨e', he', hrecord⟩ := List.mem_flatMap.mp hr
          obtain ⟨he', hmember⟩ := List.mem_filter.mp he'
          rw [List.mem_singleton.mp he'] at hrecord hmember
          obtain ⟨c, hc, hmem⟩ := h.mem_of_returned he hrecord
          rw [of_decide_eq_true hmember] at hc
          rw [of_decide_eq_true hp] at hmem
          exact hbefore c hc hmem

/-- A member that has a partition was assigned it. -/
theorem Consistent.exists_assigning (h : s.Consistent m ops) (hk : s.Unassigned k p)
    {actions : List Action} (hend : ¬ (s.run actions).Unassigned k p) :
  ∃ before after, actions = before ++ .proceed k :: after ∧ (s.run before).Assigning k p
  := by
  induction actions generalizing s ops with
  | nil => exact absurd hk hend
  | cons a actions ih =>
      rcases h.unassigned_step hk a with hstep | ⟨rfl, hassigning⟩
      · obtain ⟨before, after, rfl, hassigning⟩ := ih (h.step a) hstep hend
        exact ⟨a :: before, after, rfl, hassigning⟩
      · exact ⟨[], actions, rfl, hassigning⟩

/-- Of the members with one label, only one returns records of a partition. -/
theorem Consistent.delivered_eq_nil (h : s.Consistent m ops)
    (hindex : p % s.groupSize k.label = k.index)
    (ha : ∀ k', a.member? = some k' → k'.label = k.label) (hk : a.member? ≠ some k) :
  delivered p (s.step a).2.toList = []
  := by
  cases he : (s.step a).2 with
  | none => rfl
  | some e =>
      rw [delivered, List.filter_eq_nil_iff]
      intro r hr hp
      rw [Option.toList_some, List.flatMap_singleton] at hr
      obtain rfl := of_decide_eq_true hp
      obtain ⟨hmember, -⟩ := step_returned he
      obtain ⟨c, hc, hmem⟩ := h.mem_of_returned he hr
      have howner := h.index_of_mem hc (List.mem_append_left _ hmem)
      have hlabel := ha _ hmember
      rw [hlabel, hindex] at howner
      rw [Member.ext hlabel howner.symm] at hmember
      exact hk hmember

/-- What the member has read of the partition are the consecutive records from offset `o` up to
its cursor. Of these it has returned `records`. -/
def Delivering (k : Member) (p : ℕ) (o : UInt64) (published : List (List UInt8))
    (records : List PolledRecord) (s : Consuming) : Prop :=
  ∃ c, s.consumers k = some c ∧ p ∈ c.partitions
    ∧ c.cursor p = o + UInt64.ofNat (records ++ c.pending p).length
    ∧ Consecutive o published (records ++ c.pending p)

theorem Delivering.mono {pub pub' : List (List UInt8)} (h : s.Delivering k p o pub records)
    (hgrown : pub <+: pub') :
  s.Delivering k p o pub' records
  := by
  obtain ⟨c, hc, hp, hcursor, hread⟩ := h
  exact ⟨c, hc, hp, hcursor, hread.mono hgrown⟩

theorem Delivering.of_reads {pub : List (List UInt8)} {s' : Consuming} {c' : Consumer}
    {out : List PolledRecord} (hc' : s'.consumers k = some c') (hp : p ∈ c'.partitions)
    (hreads : c.Reads p pub out c')
    (hcursor : c.cursor p = o + UInt64.ofNat (records ++ c.pending p).length)
    (hread : Consecutive o pub (records ++ c.pending p)) :
  s'.Delivering k p o pub (records ++ out)
  := by
  refine ⟨c', hc', hp, ?_⟩
  rw [List.append_assoc]
  rcases hreads with ⟨hsame, hcur⟩ | ⟨payload, hpayload, hmore, hcur⟩
  · rw [hsame, hcur]
    exact ⟨hcursor, hread⟩
  · rw [hmore, hcur, ← List.append_assoc]
    generalize records ++ c.pending p = read at hcursor hread ⊢
    constructor
    · rw [hcursor, List.length_append, List.length_singleton, UInt64.ofNat_add, add_assoc]
      rfl
    · apply hread.concat
      · rw [hcursor]
      · exact hpayload

/-- Whoever takes a step, the member goes on from where it was. -/
theorem Consistent.delivering_step (h : s.Consistent m ops)
    (hd : s.Delivering k p o (published m ops p) records) (a : Action) :
  (s.step a).1.Delivering k p o (published m ops p)
    (records ++ deliveredBy k p (s.step a).2.toList)
  := by
  obtain ⟨c, hc, hp, hcursor, hread⟩ := hd
  by_cases hk : a.member? = some k
  · rcases h.step_cases hc hk p with ⟨rfl, q, rest, hcall⟩ | ⟨c', hc', hsame, hreads⟩
    · have hne : p ≠ q := by
        rintro rfl
        exact (h.members k c hc).not_mem_of_assigning hcall hp
      rw [step_assign hc hcall]
      exact .of_reads (setConsumer_self ..) (List.mem_append_left _ hp)
        (reads_assign hcall hne _ _) hcursor hread
    · rw [deliveredBy_step_self s p hk]
      exact .of_reads hc' (hsame ▸ hp) hreads hcursor hread
  · rw [deliveredBy_step_of_ne s p hk]
    apply Delivering.of_reads _ hp (.refl p _ c) hcursor hread
    rw [step_consumers_of_ne s hk, hc]

theorem Consistent.delivering_run (h : s.Consistent m ops)
    (hd : s.Delivering k p o (published m ops p) records) (actions : List Action) :
  (s.run actions).Delivering k p o
    (published m (fun p => ops p ++ opsOn s.topic.numPartitions p actions) p)
    (records ++ deliveredBy k p (s.returns actions))
  := by
  induction actions generalizing s ops records with
  | nil =>
      rw [returns, deliveredBy, List.filter_nil, delivered, List.flatMap_nil, List.filter_nil,
        List.append_nil]
      apply hd.mono
      apply prefix_published
  | cons a actions ih =>
      have hstep := (h.delivering_step hd a).mono
        (prefix_published m ops (fun p => (a.op? s.topic.numPartitions p).toList) p)
      have hrun := ih (h.step a) hstep
      rw [(step_setup s a).numPartitions] at hrun
      simp only [returns, deliveredBy_append, opsOn_cons, ← List.append_assoc] at hrun ⊢
      exact hrun

/-- If only members with one label take steps, only the owner returns records of a partition. -/
theorem Consistent.delivered_eq_deliveredBy (h : s.Consistent m ops)
    (hindex : p % s.groupSize k.label = k.index) (actions : List Action)
    (ha : ∀ a ∈ actions, ∀ k', a.member? = some k' → k'.label = k.label) :
  delivered p (s.returns actions) = deliveredBy k p (s.returns actions)
  := by
  induction actions generalizing s ops with
  | nil => rfl
  | cons a actions ih =>
      rw [List.forall_mem_cons] at ha
      have hindex' : p % (s.step a).1.groupSize k.label = k.index := by
        rw [(step_setup s a).groupSize]
        exact hindex
      rw [returns, delivered_append, deliveredBy_append, ih (h.step a) hindex' ha.2]
      by_cases hk : a.member? = some k
      · rw [deliveredBy_step_self s p hk]
      · rw [deliveredBy_step_of_ne s p hk, h.delivered_eq_nil hindex ha.1 hk]

/-- A consumer starts from the offset that its constructor reads. -/
theorem Assigning.delivering (hassigning : s.Assigning k p) (pub : List (List UInt8)) :
  (s.step (.proceed k)).1.Delivering k p ((s.store.get s.topic.name p s.group).getD 0) pub []
  := by
  obtain ⟨c, rest, hc, hcall⟩ := assigning_iff.mp hassigning
  rw [step_assign hc hcall]
  refine ⟨_, setConsumer_self .., List.mem_concat_self, ?_⟩
  dsimp only
  rw [Function.update_self]
  constructor
  · exact (UInt64.add_zero _).symm
  · apply Consecutive.nil

theorem Assigning.returns_eq {waiting : List Action} (hassigning : (s.run waiting).Assigning k p)
    (after : List Action) :
  s.returns (waiting ++ .proceed k :: after)
    = s.returns waiting ++ ((s.run waiting).step (.proceed k)).1.returns after
  := by
  obtain ⟨c, rest, hc, hcall⟩ := assigning_iff.mp hassigning
  rw [returns_append, returns, step_assign hc hcall]
  rfl

/-- From when the constructor of its owner has read the offset committed, the records of a partition
that the group returns are consecutive. -/
theorem Consistent.delivering_group (h : s.Consistent m ops) {waiting after : List Action}
    (hassigning : (s.run waiting).Assigning k p)
    (hwaiting : ∀ a ∈ waiting, ∀ k', a.member? = some k' → k'.label = k.label)
    (hafter : ∀ a ∈ after, ∀ k', a.member? = some k' → k'.label = k.label) :
  (s.run (waiting ++ .proceed k :: after)).Delivering k p
    (((s.run waiting).store.get s.topic.name p s.group).getD 0)
    (published m
      (fun p => ops p ++ opsOn s.topic.numPartitions p (waiting ++ .proceed k :: after)) p)
    (delivered p (s.returns (waiting ++ .proceed k :: after)))
  := by
  have hsetup := run_setup s waiting
  have hsetup' := hsetup.trans (step_setup _ (.proceed k))
  have hindex := hassigning.index_eq (h.run waiting)
  have hindex' : p % s.groupSize k.label = k.index := hsetup.groupSize ▸ hindex
  have hnil : delivered p (s.returns waiting) = [] := by
    rw [h.delivered_eq_deliveredBy hindex' waiting hwaiting]
    exact (h.deliveredBy_of_unassigned (hassigning.unassigned (h.run waiting))).2
  have hrun : s.run (waiting ++ .proceed k :: after)
      = ((s.run waiting).step (.proceed k)).1.run after := run_append ..
  have hreturns := hassigning.returns_eq after
  have hops : ∀ p, opsOn s.topic.numPartitions p (waiting ++ .proceed k :: after)
      = opsOn s.topic.numPartitions p waiting ++ opsOn s.topic.numPartitions p after := by
    intro p
    rw [opsOn_append, opsOn_cons]
    rfl
  have hstart := hassigning.delivering
    (published m (fun p => ops p ++ opsOn s.topic.numPartitions p waiting) p)
  rw [hsetup.name, hsetup.group] at hstart
  have hassigned := (h.run waiting).step (.proceed k)
  simp only [Action.op?, Option.toList_none, List.append_nil] at hassigned
  have hrest := hassigned.delivering_run hstart after
  rw [← hassigned.delivered_eq_deliveredBy
    ((congrFun hsetup'.groupSize k.label).symm ▸ hindex') after hafter,
    hsetup'.numPartitions] at hrest
  rw [hrun, hreturns, delivered_append, hnil]
  simp only [hops, ← List.append_assoc]
  exact hrest

/-- The first owner of partition 0 is constructed, reads and commits one of two records. -/
def firstOwner : List Action :=
  [.publish 0 (.append ⟨[7], by decide⟩), .publish 0 (.append ⟨[8], by decide⟩),
    .construct ⟨0, 0⟩, .proceed ⟨0, 0⟩, .proceed ⟨0, 0⟩, .proceed ⟨0, 0⟩, .proceed ⟨0, 0⟩,
    .poll ⟨0, 0⟩ 1 [0], .proceed ⟨0, 0⟩, .proceed ⟨0, 0⟩, .commit ⟨0, 0⟩ [0], .proceed ⟨0, 0⟩,
    .proceed ⟨0, 0⟩]

/-- The constructor of the second owner comes to partition 0. -/
def secondBegins : List Action := [.construct ⟨1, 1⟩, .construct ⟨1, 0⟩, .proceed ⟨1, 0⟩]

/-- The second owner reads the partition to its end, which moves while it does. -/
def secondOwner : List Action :=
  [.proceed ⟨1, 0⟩, .proceed ⟨1, 0⟩, .poll ⟨1, 0⟩ 5 [0], .proceed ⟨1, 0⟩,
    .publish 0 (.append ⟨[6], by decide⟩), .proceed ⟨1, 0⟩, .proceed ⟨1, 0⟩, .proceed ⟨1, 0⟩]

end Consuming

end Broker
