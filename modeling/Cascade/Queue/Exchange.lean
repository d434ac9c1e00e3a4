import Cascade.Queue.Ring

/-!
# No value is lost or duplicated

Every position that was claimed is the business of one producer, and every position that was taken
that of one consumer; which stage the position is in is known from where these are (`Tracks`).
Hence what is popped at a position is what was pushed there, and each position is popped once.
-/

namespace Queue

open MpmcQueue

variable {α : Type*}

/-- Producers and consumers. -/
inductive Side
  | producer
  | consumer
deriving DecidableEq

def Side.other : Side → Side
  | .producer => .consumer
  | .consumer => .producer

theorem Side.eq_other {side side' : Side} (h : side' ≠ side) :
  side' = side.other
  := by
  cases side <;> cases side' <;> first | rfl | exact absurd rfl h

/-- The position that is the business of an operation. -/
def MpmcQueue.Op.place : Op α → Option (Side × UInt64)
  | .pushWrite _ pos | .pushPublish _ pos | .pushed _ pos => some (.producer, pos)
  | .popRead pos | .popPublish pos _ | .popped pos _ => some (.consumer, pos)
  | _ => none

/-- The operations whose business a position is, with their numbers. -/
def Cell.holder (pos : UInt64) : Side → Cell α → Option (ℕ × Op α)
  | .producer, .claimed a value => some (a, .pushWrite value pos)
  | .producer, .written a value => some (a, .pushPublish value pos)
  | .producer, .ready a value | .producer, .taken a value _ | .producer, .moved a value _
  | .producer, .released a value _ => some (a, .pushed value pos)
  | .consumer, .taken _ _ b => some (b, .popRead pos)
  | .consumer, .moved _ value b => some (b, .popPublish pos (some value))
  | .consumer, .released _ value b => some (b, .popped pos (some value))
  | _, _ => none

/-- What the operation with a position in its hand, which it has not claimed yet, knows. -/
def Fits (q : MpmcQueue α) (cell : ℕ → Cell α) : Op α → Prop
  | .pushCheck _ pos => pos ≤ q.tail
  | .pushClaim _ pos => pos ≤ q.tail ∧ (pos = q.tail → Vacant q.capacity.toNat cell pos.toNat)
  | .popCheck pos => pos ≤ q.head
  | .popClaim pos => pos ≤ q.head ∧ (pos = q.head → (cell pos.toNat).Ready)
  | _ => True

/-- The stages of the positions are those that the queue and the operations say. -/
structure Tracks (s : Concurrent (MpmcQueue α) (Op α)) (cell : ℕ → Cell α) : Prop where
  ring : Ring s.memory cell
  owned : Owned s.ops Op.place fun place => (cell place.2.toNat).holder place.2 place.1
  fits : ∀ op ∈ s.ops, Fits s.memory cell op

/-- What an operation knows remains true. -/
theorem Fits.mono {q q' : MpmcQueue α} {cell cell' : ℕ → Cell α} {op : Op α}
    (h : Fits q cell op) (hcapacity : q'.capacity = q.capacity) (htail : q.tail ≤ q'.tail)
    (hhead : q.head ≤ q'.head) (hreleased : ∀ i, (cell i).Released → (cell' i).Released)
    (hready : (cell q'.head.toNat).Ready → (cell' q'.head.toNat).Ready) :
  Fits q' cell' op
  := by
  cases op with
  | pushCheck value pos => exact UInt64.le_trans h htail
  | pushClaim value pos =>
      refine ⟨UInt64.le_trans h.1 htail, ?_⟩
      rintro rfl
      have heq : q'.tail = q.tail := UInt64.le_antisymm h.1 htail
      rw [hcapacity]
      exact (h.2 heq).imp_right (hreleased _)
  | popCheck pos => exact UInt64.le_trans h hhead
  | popClaim pos =>
      refine ⟨UInt64.le_trans h.1 hhead, ?_⟩
      rintro rfl
      have heq : q'.head = q.head := UInt64.le_antisymm h.1 hhead
      exact hready (h.2 heq)
  | _ => trivial

namespace Tracks

variable {s : Concurrent (MpmcQueue α) (Op α)} {cell : ℕ → Cell α} {k : ℕ} {op op' : Op α}
  {pos : UInt64} {value : α}

/-- An operation is started. -/
theorem call (h : Tracks s cell) (c : Call α) :
  Tracks { s with ops := s.ops ++ [(protocol α).start c] } cell
  := by
  refine ⟨h.ring, h.owned.call (by cases c <;> rfl), ?_⟩
  intro op hop
  rcases List.mem_append.mp hop with hop | hop
  · apply h.fits op hop
  · rw [List.mem_singleton.mp hop]
    cases c <;> trivial

/-- A step that does not change the queue. -/
theorem idle (h : Tracks s cell) (hop : s.ops[k]? = some op) (hplace : op.place = none)
    (hplace' : op'.place = none) (hfits : Fits s.memory cell op') :
  Tracks ⟨s.memory, s.ops.set k op'⟩ cell
  := by
  refine ⟨h.ring, h.owned.idle hop hplace hplace', ?_⟩
  intro opj hopj
  rcases List.mem_or_eq_of_mem_set hopj with hopj | rfl
  · apply h.fits opj hopj
  · exact hfits

/-- A step with which a position moves from one stage to another. -/
theorem move (h : Tracks s cell) (side : Side) (hop : s.ops[k]? = some op) {c c' : Cell α}
    (hcell : cell pos.toNat = c) {q : MpmcQueue α}
    (hring : Ring q (Function.update cell pos.toNat c'))
    (hcapacity : q.capacity = s.memory.capacity) (htail : s.memory.tail ≤ q.tail)
    (hhead : s.memory.head ≤ q.head) (hreleased : ¬ c.Released)
    (hready : pos.toNat = q.head.toNat → ¬ c.Ready)
    (hplace : op.place = some (side, pos) ∨ op.place = none ∧ c.holder pos side = none)
    (hplace' : op'.place = some (side, pos)) (hholder : c'.holder pos side = some (k, op'))
    (hother : c'.holder pos side.other = c.holder pos side.other) :
  Tracks ⟨q, s.ops.set k op'⟩ (Function.update cell pos.toNat c')
  := by
  subst hcell
  refine ⟨hring, ?_, ?_⟩
  · apply h.owned.advance hop
    · intro place hi
      obtain rfl := Option.some.inj (hplace'.symm.trans hi)
      exact ⟨hplace.imp id And.right, by simpa using hholder⟩
    · intro place hi hi'
      rcases hplace with hplace | ⟨hplace, -⟩
      · exact absurd (hplace'.trans (hplace.symm.trans hi)) hi'
      · rw [hplace] at hi
        cases hi
    · rintro ⟨side', pos'⟩ - hi'
      by_cases hpos : pos' = pos
      · subst hpos
        have hside : side' ≠ side := by
          rintro rfl
          exact hi' hplace'
        simp only [Function.update_self, Side.eq_other hside, hother]
      · rw [Function.update_of_ne fun heq => hpos (UInt64.toNat_inj.mp heq)]
  · intro opj hopj
    rcases List.mem_or_eq_of_mem_set hopj with hopj | rfl
    · apply (h.fits opj hopj).mono hcapacity htail hhead
      · intro i hi
        rw [Function.update_of_ne]
        · exact hi
        · rintro rfl
          exact hreleased hi
      · intro hr
        rw [Function.update_of_ne]
        · exact hr
        · intro heq
          rw [heq] at hr
          exact hready heq.symm hr
    · cases opj <;> trivial

/-! ### Stages and operations -/

theorem holder_of_place (h : Tracks s cell) (hop : s.ops[k]? = some op) {side : Side}
    (hplace : op.place = some (side, pos)) :
  (cell pos.toNat).holder pos side = some (k, op)
  := (h.owned k op (side, pos)).mp ⟨hop, hplace⟩

theorem op_of_cell (h : Tracks s cell) (side : Side) {c : Cell α} (hcell : cell pos.toNat = c)
    (hholder : c.holder pos side = some (k, op)) :
  s.ops[k]? = some op
  := by
  subst hcell
  exact ((h.owned k op (side, pos)).mpr hholder).1

theorem cell_of_pushWrite (h : Tracks s cell) (hop : s.ops[k]? = some (.pushWrite value pos)) :
  cell pos.toNat = .claimed k value
  := by
  have hholder := h.holder_of_place hop rfl
  cases hcell : cell pos.toNat <;> simp_all [Cell.holder]

theorem cell_of_pushPublish (h : Tracks s cell)
    (hop : s.ops[k]? = some (.pushPublish value pos)) :
  cell pos.toNat = .written k value
  := by
  have hholder := h.holder_of_place hop rfl
  cases hcell : cell pos.toNat <;> simp_all [Cell.holder]

theorem cell_of_popRead (h : Tracks s cell) (hop : s.ops[k]? = some (.popRead pos)) :
  ∃ a value, cell pos.toNat = .taken a value k
  := by
  have hholder := h.holder_of_place hop rfl
  cases hcell : cell pos.toNat <;> simp_all [Cell.holder]

theorem cell_of_popPublish (h : Tracks s cell) {result : Option α}
    (hop : s.ops[k]? = some (.popPublish pos result)) :
  ∃ a value, result = some value ∧ cell pos.toNat = .moved a value k
  := by
  have hholder := h.holder_of_place hop rfl
  cases hcell : cell pos.toNat <;> simp_all [Cell.holder]

theorem cell_of_popped (h : Tracks s cell) {result : Option α}
    (hop : s.ops[k]? = some (.popped pos result)) :
  ∃ a value, result = some value ∧ cell pos.toNat = .released a value k
  := by
  have hholder := h.holder_of_place hop rfl
  cases hcell : cell pos.toNat <;> simp_all [Cell.holder]

theorem holder_producer_ne_none {c : Cell α} (h : c ≠ .free) (pos : UInt64) :
  c.holder pos .producer ≠ none
  := by
  cases c <;> simp_all [Cell.holder]

/-- There are at least as many operations as positions that were claimed. -/
theorem tail_le_length (h : Tracks s cell) :
  s.memory.tail.toNat ≤ s.ops.length
  := by
  have hlt := s.memory.tail.toNat_lt
  have hinj : Set.InjOn (fun i => (Side.producer, UInt64.ofNat i))
      (Finset.range s.memory.tail.toNat) := by
    intro i hi j hj heq
    rw [Finset.mem_coe, Finset.mem_range] at hi hj
    have := congrArg UInt64.toNat (Prod.mk.inj heq).2
    rwa [UInt64.toNat_ofNat_of_lt' (lt_trans hi hlt), UInt64.toNat_ofNat_of_lt' (lt_trans hj hlt)]
      at this
  rw [← Finset.card_range s.memory.tail.toNat, ← Finset.card_image_of_injOn hinj]
  apply h.owned.card_le
  intro place hplace
  obtain ⟨i, hi, rfl⟩ := Finset.mem_image.mp hplace
  rw [Finset.mem_range] at hi
  apply holder_producer_ne_none
  rw [UInt64.toNat_ofNat_of_lt' (lt_trans hi hlt), Ne, h.ring.free_iff]
  omega

/-! ### Steps -/

theorem le_succ {pos : UInt64} (h : pos.toNat + 1 < UInt64.size) :
  pos ≤ pos + 1
  := by
  rw [UInt64.le_iff_toNat_le, UInt64.toNat_add, UInt64.toNat_one, Nat.mod_eq_of_lt h]
  apply Nat.le_succ

/-- A step keeps track of the stages. -/
theorem advance (h : Tracks s cell) (hlen : s.ops.length < 2 ^ 63) (hop : s.ops[k]? = some op)
    (fails : Bool) :
  ∃ cell', Tracks ⟨(MpmcQueue.advance fails s.memory op).1,
    s.ops.set k (MpmcQueue.advance fails s.memory op).2⟩ cell'
  := by
  have hfits := h.fits op (List.mem_of_getElem? hop)
  have htail : s.memory.tail.toNat + 1 < UInt64.size := by
    have := h.tail_le_length
    change _ < 2 ^ 64
    omega
  have hhead : s.memory.head.toNat + 1 < UInt64.size :=
    lt_of_le_of_lt (Nat.succ_le_succ h.ring.head_le_tail) htail
  cases op with
  | pushLoad value => exact ⟨cell, h.idle hop rfl rfl (UInt64.le_refl _)⟩
  | pushCheck value pos =>
      refine ⟨cell, ?_⟩
      rw [MpmcQueue.advance]
      simp only [diff_eq_zero_iff]
      split
      · rename_i hseq
        refine h.idle hop rfl rfl ⟨hfits, ?_⟩
        rintro rfl
        exact h.ring.vacant_of_sequence hseq
      · split
        · exact h.idle hop rfl rfl trivial
        · exact h.idle hop rfl rfl trivial
  | pushClaim value pos =>
      rw [MpmcQueue.advance]
      split
      · rename_i hclaim
        obtain ⟨rfl, -⟩ := hclaim
        have hcell : cell s.memory.tail.toNat = .free := (h.ring.free_iff _).mpr le_rfl
        exact ⟨_, h.move .producer hop hcell (h.ring.claim (hfits.2 rfl) htail k value) rfl
          (le_succ htail) (UInt64.le_refl _) id (fun _ => id) (.inr ⟨rfl, rfl⟩) rfl rfl rfl⟩
      · exact ⟨cell, h.idle hop rfl rfl (UInt64.le_refl _)⟩
  | pushWrite value pos =>
      have hcell := h.cell_of_pushWrite hop
      exact ⟨_, h.move .producer hop hcell (h.ring.write hcell).2 rfl (UInt64.le_refl _)
        (UInt64.le_refl _) id (fun _ => id) (.inl rfl) rfl rfl rfl⟩
  | pushPublish value pos =>
      have hcell := h.cell_of_pushPublish hop
      exact ⟨_, h.move .producer hop hcell (h.ring.publish hcell) rfl (UInt64.le_refl _)
        (UInt64.le_refl _) id (fun _ => id) (.inl rfl) rfl rfl rfl⟩
  | popLoad => exact ⟨cell, h.idle hop rfl rfl (UInt64.le_refl _)⟩
  | popCheck pos =>
      refine ⟨cell, ?_⟩
      rw [MpmcQueue.advance]
      simp only [diff_eq_zero_iff]
      split
      · rename_i hseq
        refine h.idle hop rfl rfl ⟨hfits, ?_⟩
        rintro rfl
        exact h.ring.ready_of_sequence hseq hhead
      · split
        · exact h.idle hop rfl rfl trivial
        · exact h.idle hop rfl rfl trivial
  | popClaim pos =>
      rw [MpmcQueue.advance]
      split
      · rename_i hclaim
        obtain ⟨rfl, -⟩ := hclaim
        obtain ⟨a, value, hcell⟩ := Cell.exists_of_ready (hfits.2 rfl)
        -- The head has moved beyond the position.
        have hne : s.memory.head.toNat ≠ (s.memory.head + 1).toNat := by
          rw [UInt64.toNat_add, UInt64.toNat_one, Nat.mod_eq_of_lt hhead]
          omega
        exact ⟨_, h.move .consumer hop hcell (h.ring.take hcell hhead k) rfl (UInt64.le_refl _)
          (le_succ hhead) id (fun heq => absurd heq hne) (.inr ⟨rfl, rfl⟩) rfl rfl rfl⟩
      · exact ⟨cell, h.idle hop rfl rfl (UInt64.le_refl _)⟩
  | popRead pos =>
      obtain ⟨a, value, hcell⟩ := h.cell_of_popRead hop
      obtain ⟨hstorage, hring⟩ := h.ring.read hcell
      rw [MpmcQueue.advance, hstorage]
      exact ⟨_, h.move .consumer hop hcell hring rfl (UInt64.le_refl _) (UInt64.le_refl _) id
        (fun _ => id) (.inl rfl) rfl rfl rfl⟩
  | popPublish pos result =>
      obtain ⟨a, value, rfl, hcell⟩ := h.cell_of_popPublish hop
      exact ⟨_, h.move .consumer hop hcell (h.ring.release hcell) rfl (UInt64.le_refl _)
        (UInt64.le_refl _) id (fun _ => id) (.inl rfl) rfl rfl rfl⟩
  | pushed | full | popped | empty =>
      refine ⟨cell, ?_⟩
      rw [advance_of_returned (by trivial), Concurrent.set_of_getElem? hop]
      exact h

/-- The stages are tracked all the time. -/
theorem run {requested : UInt64} {q : MpmcQueue α} (hq : construct requested = some q)
    (htwo : 2 ≤ q.capacity.toNat) (actions : List (Concurrent.Action (Call α) Bool))
    (hlen : (Concurrent.run (protocol α) ⟨q, []⟩ actions).ops.length < 2 ^ 63) :
  ∃ cell, Tracks (Concurrent.run (protocol α) ⟨q, []⟩ actions) cell
  := by
  refine Concurrent.run_induction (P := fun s => s.ops.length < 2 ^ 63 → ∃ cell, Tracks s cell)
    ?_ ?_ ?_ actions hlen
  · intro s c ih hlen
    rw [List.length_append, List.length_singleton] at hlen
    obtain ⟨cell, hcell⟩ := ih (by omega)
    exact ⟨cell, hcell.call c⟩
  · intro s k op fails ih hop hlen
    rw [List.length_set] at hlen
    obtain ⟨cell, hcell⟩ := ih hlen
    apply hcell.advance hlen hop
  · intro _
    refine ⟨fun _ => .free, Ring.of_construct hq htwo, ?_, ?_⟩
    · apply Owned.nil
      rintro ⟨side, pos⟩
      cases side <;> rfl
    · intro op hop
      cases hop

end Tracks

/-! ### Values -/

section Values

variable {s : Concurrent (MpmcQueue α) (Op α)} {cell : ℕ → Cell α} {pos : UInt64} {value : α}

/-- The value was pushed at the position, and has not been popped. -/
def Unpopped (s : Concurrent (MpmcQueue α) (Op α)) (pos : UInt64) (value : α) : Prop :=
  (∃ a : ℕ, s.ops[a]? = some (.pushed value pos))
    ∧ ∀ (k : ℕ) (result : Option α), s.ops[k]? ≠ some (.popped pos result)

/-- If no operation is under way, the values that were not popped are those that are ready. -/
theorem Tracks.unpopped_iff (h : Tracks s cell) (hrest : ∀ op ∈ s.ops, op.Returned) :
  Unpopped s pos value ↔ ∃ a, cell pos.toNat = .ready a value
  := by
  -- Whoever has the position has returned.
  have hreturned : ∀ side k op, (cell pos.toNat).holder pos side = some (k, op) → op.Returned :=
    fun side _ op hholder => hrest op (List.mem_of_getElem? (h.op_of_cell side rfl hholder))
  constructor
  · rintro ⟨⟨a, ha⟩, hpopped⟩
    have hproducer := h.holder_of_place ha rfl
    cases hcell : cell pos.toNat with
    | ready a' value' =>
        rw [hcell] at hproducer
        simp only [Cell.holder, Option.some_inj, Prod.mk.injEq, Op.pushed.injEq] at hproducer
        obtain ⟨rfl, rfl, -⟩ := hproducer
        exact ⟨_, rfl⟩
    | released a' value' b =>
        exact absurd (h.op_of_cell .consumer hcell rfl) (hpopped b _)
    | taken a' value' b =>
        exact absurd (hreturned .consumer b (.popRead pos) (by rw [hcell]; rfl)) id
    | moved a' value' b =>
        exact absurd (hreturned .consumer b (.popPublish pos (some value')) (by rw [hcell]; rfl))
          id
    | free | claimed | written =>
        rw [hcell] at hproducer
        simp [Cell.holder] at hproducer
  · rintro ⟨a, hcell⟩
    refine ⟨⟨a, h.op_of_cell .producer hcell rfl⟩, ?_⟩
    intro k result hpopped
    obtain ⟨_, _, -, hreleased⟩ := h.cell_of_popped hpopped
    rw [hcell] at hreleased
    cases hreleased

/-- If no operation is under way, the positions between head and tail are ready. -/
theorem Tracks.exists_ready_iff (h : Tracks s cell) (hrest : ∀ op ∈ s.ops, op.Returned) :
  (∃ a value, cell pos.toNat = .ready a value) ↔ s.memory.head ≤ pos ∧ pos < s.memory.tail
  := by
  rw [UInt64.le_iff_toNat_le, ← h.ring.untaken_iff, UInt64.lt_iff_toNat_lt, ← not_le,
    ← h.ring.free_iff]
  have hreturned : ∀ k op, (cell pos.toNat).holder pos .producer = some (k, op) → op.Returned :=
    fun _ op hholder => hrest op (List.mem_of_getElem? (h.op_of_cell .producer rfl hholder))
  cases hcell : cell pos.toNat with
  | ready a value => simp [Cell.Untaken]
  | free | taken | moved | released => simp [Cell.Untaken]
  | claimed a value =>
      exact absurd (hreturned a (.pushWrite value pos) (by rw [hcell]; rfl)) id
  | written a value =>
      exact absurd (hreturned a (.pushPublish value pos) (by rw [hcell]; rfl)) id

theorem run_capacity (q : MpmcQueue α) (actions : List (Concurrent.Action (Call α) Bool)) :
  (Concurrent.run (protocol α) ⟨q, []⟩ actions).memory.capacity = q.capacity
  := by
  refine Concurrent.run_induction
    (P := fun s : Concurrent (MpmcQueue α) (Op α) => s.memory.capacity = q.capacity) ?_ ?_ rfl
    actions
  · intro s c ih
    exact ih
  · intro s k op fails ih _
    exact (advance_capacity fails s.memory op).trans ih

end Values

/-- In every run, what is popped at a position is what was pushed there, and nothing is pushed or
popped twice at a position. A slot is empty when it is written, and when it is read it has the
value of the position. If no operation is under way, the values that were pushed and not popped are
those in the slots from head to tail, not more than the capacity. -/
theorem MpmcQueue.no_loss_no_duplication {requested : UInt64} {q : MpmcQueue α}
    (hq : construct requested = some q) (htwo : 2 ≤ q.capacity)
    (actions : List (Concurrent.Action (Call α) Bool)) {s : Concurrent (MpmcQueue α) (Op α)}
    (hs : Concurrent.run (protocol α) ⟨q, []⟩ actions = s) (hlen : s.ops.length < 2 ^ 63) :
  (∀ (k : ℕ) pos result, s.ops[k]? = some (.popped pos result) →
      ∃ (a : ℕ) (value : α), result = some value ∧ s.ops[a]? = some (.pushed value pos))
    ∧ (∀ (k k' : ℕ) pos result result', s.ops[k]? = some (.popped pos result) →
      s.ops[k']? = some (.popped pos result') → k = k')
    ∧ (∀ (a a' : ℕ) pos value value', s.ops[a]? = some (.pushed value pos) →
      s.ops[a']? = some (.pushed value' pos) → a = a')
    ∧ (∀ (a : ℕ) value pos, s.ops[a]? = some (.pushWrite value pos) →
      (s.memory.slot pos).storage = none)
    ∧ (∀ (k : ℕ) pos, s.ops[k]? = some (.popRead pos) →
      ∃ (a : ℕ) (value : α), (s.memory.slot pos).storage = some value
        ∧ s.ops[a]? = some (.pushed value pos))
    ∧ ((∀ op ∈ s.ops, op.Returned) →
      (∀ pos, (∃ value, Unpopped s pos value) ↔ s.memory.head ≤ pos ∧ pos < s.memory.tail)
        ∧ (∀ pos value, Unpopped s pos value → (s.memory.slot pos).storage = some value)
        ∧ s.memory.head ≤ s.memory.tail
        ∧ s.memory.tail.toNat - s.memory.head.toNat ≤ q.capacity.toNat)
  := by
  subst hs
  obtain ⟨cell, h⟩ := Tracks.run hq (UInt64.le_iff_toNat_le.mp htwo) actions hlen
  refine ⟨?_, ?_, ?_, ?_, ?_, ?_⟩
  · intro k pos result hk
    obtain ⟨a, value, rfl, hcell⟩ := h.cell_of_popped hk
    exact ⟨a, value, rfl, h.op_of_cell .producer hcell rfl⟩
  · intro k k' pos result result' hk hk'
    exact (h.owned.unique hk hk' rfl rfl).1
  · intro a a' pos value value' ha ha'
    exact (h.owned.unique ha ha' rfl rfl).1
  · intro a value pos ha
    exact (h.ring.write (h.cell_of_pushWrite ha)).1
  · intro k pos hk
    obtain ⟨a, value, hcell⟩ := h.cell_of_popRead hk
    exact ⟨a, value, (h.ring.read hcell).1, h.op_of_cell .producer hcell rfl⟩
  · intro hrest
    refine ⟨?_, ?_, UInt64.le_iff_toNat_le.mpr h.ring.head_le_tail, ?_⟩
    · intro pos
      rw [← h.exists_ready_iff hrest, exists_comm]
      apply exists_congr
      intro value
      apply h.unpopped_iff hrest
    · intro pos value hvalue
      obtain ⟨a, hcell⟩ := (h.unpopped_iff hrest).mp hvalue
      rw [h.ring.slots pos (Ring.serving_of_eq hcell (by simp) id _), hcell]
      rfl
    · have := h.ring.tail_le
      rw [run_capacity] at this
      omega

/-- Two producers want the same position, the later one gets it, and its value is popped. -/
def MpmcQueue.overlapping : List (Concurrent.Action (Call ℕ) Bool) :=
  [.call (.tryPush 5), .call (.tryPush 6), .advance 0 false, .advance 1 false, .advance 0 false,
    .advance 1 false, .advance 1 false, .advance 0 false, .advance 1 false, .advance 1 false,
    .call .tryPop, .advance 2 false, .advance 2 false, .advance 2 true, .advance 2 false,
    .advance 2 false, .advance 0 false, .advance 0 false, .advance 2 false, .advance 2 false,
    .advance 0 false, .advance 0 false]

/-- The value of the other producer is the one that is left. -/
theorem MpmcQueue.no_loss_no_duplication_overlapping :
  ∃ q s, construct 2 = some q ∧ Concurrent.run (protocol ℕ) ⟨q, []⟩ overlapping = s
    ∧ s.ops = [.pushed 5 1, .pushed 6 0, .popped 0 (some 6)] ∧ ∃ value, Unpopped s 1 value
  := by
  have hq : construct 2 = some (⟨2, 1, fun i => ⟨i, none⟩, 0, 0⟩ : MpmcQueue ℕ) := rfl
  refine ⟨_, _, hq, rfl, rfl, ?_⟩
  obtain ⟨-, -, -, -, -, hrest⟩ :=
    no_loss_no_duplication hq (by decide) overlapping rfl (by decide)
  apply ((hrest (by decide)).1 1).mpr
  decide

end Queue
