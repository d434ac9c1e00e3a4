import Cascade.Queue.Mpmc

/-!
# Positions of a ring

Every position of the queue of many producers and consumers goes through the same stages, from
being free over being claimed, filled and emptied to being released, once and for all. A slot
serves one position after the other, each when the one before it has been released, and what the
slot holds is determined by the stage of the position it serves (`Ring`). This is where a capacity
of at least two is needed: otherwise a position that is ready to be read looks like the next one
that is ready to be written.
-/

namespace Queue

open MpmcQueue

variable {α : Type*}

/-- The stage of a position. It carries the number of the operation that claimed the position, the
value, and the number of the operation that took it. -/
inductive Cell (α : Type*)
  | free
  | claimed (a : ℕ) (value : α)
  | written (a : ℕ) (value : α)
  | ready (a : ℕ) (value : α)
  | taken (a : ℕ) (value : α) (b : ℕ)
  | moved (a : ℕ) (value : α) (b : ℕ)
  | released (a : ℕ) (value : α) (b : ℕ)

namespace Cell

/-- The slot has been given to the next position. -/
def Released : Cell α → Prop
  | .released .. => True
  | _ => False

/-- There is a value, which no consumer has taken. -/
def Ready : Cell α → Prop
  | .ready .. => True
  | _ => False

/-- No consumer has taken the position. -/
def Untaken : Cell α → Prop
  | .free | .claimed .. | .written .. | .ready .. => True
  | _ => False

/-- What the slot of a position holds as long as it serves the position. -/
def slot (pos : UInt64) : Cell α → Slot α
  | .free | .claimed .. => ⟨pos, none⟩
  | .written _ value => ⟨pos, some value⟩
  | .ready _ value | .taken _ value _ => ⟨pos + 1, some value⟩
  | .moved .. | .released .. => ⟨pos + 1, none⟩

theorem Untaken.not_released {c : Cell α} (h : c.Untaken) :
  ¬ c.Released
  := by
  cases c <;> first | exact id | exact absurd h id

theorem exists_of_ready {c : Cell α} (h : c.Ready) :
  ∃ a value, c = .ready a value
  := by
  cases c <;> first | exact ⟨_, _, rfl⟩ | exact absurd h id

theorem slot_sequence (pos : UInt64) (c : Cell α) :
  (c.slot pos).sequence = pos ∨ (c.slot pos).sequence = pos + 1
  := by
  cases c <;> simp [slot]

end Cell

section Serving

variable {n : ℕ} {cell : ℕ → Cell α} {i j : ℕ}

/-- The slot of a position is not in use by the position before it. -/
def Vacant (n : ℕ) (cell : ℕ → Cell α) (i : ℕ) : Prop :=
  i < n ∨ (cell (i - n)).Released

/-- The position is the one that its slot serves. -/
def Serving (n : ℕ) (cell : ℕ → Cell α) (i : ℕ) : Prop :=
  ¬ (cell i).Released ∧ (cell i = .free → Vacant n cell i)

theorem not_released_free :
  ¬ (Cell.free : Cell α).Released
  := id

/-- A position that serves has a slot to itself. -/
theorem Serving.not_lt (hfree : ∀ i j, i ≤ j → cell i = .free → cell j = .free)
    (hlap : ∀ i, cell (i + n) ≠ .free → (cell i).Released) (hi : Serving n cell i)
    (hj : Serving n cell j) (hmod : i % n = j % n) :
  ¬ i < j
  := by
  intro hlt
  have hle : i + n ≤ j := by
    have hdvd : n ∣ j - i := (Nat.modEq_iff_dvd' hlt.le).mp hmod
    have := Nat.le_of_dvd (by omega) hdvd
    omega
  -- The position after `i` in its slot is free, or `i` would have been released.
  have hnext : cell (i + n) = .free := by
    by_contra hne
    exact hi.1 (hlap i hne)
  have hjfree : cell j = .free := hfree _ _ hle hnext
  rcases hj.2 hjfree with hjn | hreleased
  · omega
  · by_cases hji : j = i + n
    · subst hji
      rw [Nat.add_sub_cancel] at hreleased
      exact hi.1 hreleased
    · have hle' : i + n ≤ j - n := by
        have hdvd : n ∣ j - (i + n) := by
          apply (Nat.modEq_iff_dvd' hle).mp
          rw [Nat.ModEq, Nat.add_mod_right, hmod]
        have := Nat.le_of_dvd (by omega) hdvd
        omega
      rw [hfree _ _ hle' hnext] at hreleased
      exact not_released_free hreleased

end Serving

/-- The queue is as the stages of the positions say. -/
structure Ring (q : MpmcQueue α) (cell : ℕ → Cell α) : Prop where
  pow2 : IsPow2 q.capacity
  two_le : 2 ≤ q.capacity.toNat
  mask : q.mask = q.capacity - 1
  free_iff : ∀ i, cell i = .free ↔ q.tail.toNat ≤ i
  untaken_iff : ∀ i, (cell i).Untaken ↔ q.head.toNat ≤ i
  lap : ∀ i, cell (i + q.capacity.toNat) ≠ .free → (cell i).Released
  slots : ∀ pos : UInt64, Serving q.capacity.toNat cell pos.toNat →
    q.slot pos = (cell pos.toNat).slot pos

namespace Ring

variable {q q' : MpmcQueue α} {cell : ℕ → Cell α} {pos pos' : UInt64} {c : Cell α}

/-- A new queue. -/
theorem of_construct {capacity : UInt64} (hq : construct capacity = some q)
    (htwo : 2 ≤ q.capacity.toNat) :
  Ring q fun _ => .free
  := by
  obtain ⟨c, hc, rfl⟩ := Option.map_eq_some_iff.mp hq
  have hpow := IsPow2.of_roundUpPow2 hc
  refine ⟨hpow, htwo, rfl, ?_, ?_, ?_, ?_⟩
  · intro i
    simp
  · intro i
    simp [Cell.Untaken]
  · intro i hne
    exact absurd rfl hne
  · intro pos hpos
    rcases hpos.2 rfl with hlt | hreleased
    · have hself : pos &&& (c - 1) = pos := by
        rw [← UInt64.toNat_inj, hpow.toNat_and_mask]
        apply Nat.mod_eq_of_lt hlt
      change Slot.mk (pos &&& (c - 1)) none = Slot.mk pos none
      rw [hself]
    · exact absurd hreleased not_released_free

theorem free_of_le (h : Ring q cell) {i j : ℕ} (hij : i ≤ j) (hi : cell i = .free) :
  cell j = .free
  := by
  rw [h.free_iff] at hi ⊢
  omega

theorem and_mask_eq_iff (h : Ring q cell) (pos pos' : UInt64) :
  pos &&& q.mask = pos' &&& q.mask
    ↔ pos.toNat % q.capacity.toNat = pos'.toNat % q.capacity.toNat
  := by
  rw [h.mask]
  apply h.pow2.and_mask_eq_iff

/-- A slot serves one position. -/
theorem serving_unique (h : Ring q cell) (hpos : Serving q.capacity.toNat cell pos.toNat)
    (hpos' : Serving q.capacity.toNat cell pos'.toNat)
    (hslot : pos &&& q.mask = pos' &&& q.mask) :
  pos = pos'
  := by
  rw [h.and_mask_eq_iff] at hslot
  have hfree : ∀ i j, i ≤ j → cell i = .free → cell j = .free := fun _ _ => h.free_of_le
  apply UInt64.toNat_inj.mp
  apply Nat.le_antisymm
  · exact not_lt.mp (hpos'.not_lt hfree h.lap hpos hslot.symm)
  · exact not_lt.mp (hpos.not_lt hfree h.lap hpos' hslot)

/-- A position that serves moves on to a stage in which it still serves. -/
theorem update (h : Ring q cell) (hpos : Serving q.capacity.toNat cell pos.toNat)
    (hcapacity : q'.capacity = q.capacity) (hmask : q'.mask = q.mask)
    (hfree : c ≠ .free) (hreleased : ¬ c.Released)
    (htail : ∀ i, i ≠ pos.toNat → (q'.tail.toNat ≤ i ↔ q.tail.toNat ≤ i))
    (htailpos : pos.toNat < q'.tail.toNat)
    (huntaken : ∀ i, (Function.update cell pos.toNat c i).Untaken ↔ q'.head.toNat ≤ i)
    (hslot : ∀ pos', q'.slot pos'
      = if pos' &&& q.mask = pos &&& q.mask then c.slot pos else q.slot pos') :
  Ring q' (Function.update cell pos.toNat c)
  := by
  refine ⟨hcapacity ▸ h.pow2, hcapacity ▸ h.two_le, ?_, ?_, huntaken, ?_, ?_⟩
  · rw [hmask, hcapacity, h.mask]
  · intro i
    by_cases hi : i = pos.toNat
    · subst hi
      rw [Function.update_self]
      simp only [hfree, false_iff]
      omega
    · rw [Function.update_of_ne hi, htail i hi, h.free_iff]
  · intro i hne
    rw [hcapacity] at hne
    have htwo := h.two_le
    by_cases hi : i = pos.toNat
    · subst hi
      rw [Function.update_of_ne (by omega)] at hne
      exact absurd (h.lap _ hne) hpos.1
    · rw [Function.update_of_ne hi]
      by_cases hnext : i + q.capacity.toNat = pos.toNat
      · -- The slot has come to `pos` because the position before it was released.
        by_cases hposfree : cell pos.toNat = .free
        · have hvacant := hpos.2 hposfree
          rw [← hnext, Vacant, Nat.add_sub_cancel] at hvacant
          apply hvacant.resolve_left (by omega)
        · apply h.lap
          rw [hnext]
          exact hposfree
      · rw [Function.update_of_ne hnext] at hne
        apply h.lap i hne
  · intro pos' hpos'
    rw [hcapacity] at hpos'
    rw [hslot]
    by_cases hpp : pos' = pos
    · subst hpp
      rw [if_pos rfl, Function.update_self]
    · have hne : pos'.toNat ≠ pos.toNat := fun heq => hpp (UInt64.toNat_inj.mp heq)
      rw [Serving, Function.update_of_ne hne] at hpos'
      have hserving : Serving q.capacity.toNat cell pos'.toNat := by
        refine ⟨hpos'.1, fun hf => (hpos'.2 hf).imp_right fun hr => ?_⟩
        by_cases hprev : pos'.toNat - q.capacity.toNat = pos.toNat
        · rw [hprev, Function.update_self] at hr
          exact absurd hr hreleased
        · rwa [Function.update_of_ne hprev] at hr
      rw [if_neg, Function.update_of_ne hne, h.slots pos' hserving]
      intro hmod
      exact hpp (h.serving_unique hserving hpos hmod)

/-- Positions that share a slot. -/
theorem slot_congr (hslot : pos &&& q.mask = pos' &&& q.mask) :
  q.slot pos = q.slot pos'
  := by
  rw [slot, slot, hslot]

/-- A stage with the same slot leaves all slots as they are. -/
theorem slot_unchanged (hpos : q.slot pos = c.slot pos) (pos' : UInt64) :
  q.slot pos' = if pos' &&& q.mask = pos &&& q.mask then c.slot pos else q.slot pos'
  := by
  split
  · rename_i hslot
    rw [slot_congr hslot, hpos]
  · rfl

theorem serving_of_eq (hcell : cell pos.toNat = c) (hfree : c ≠ .free)
    (hreleased : ¬ c.Released) (n : ℕ) :
  Serving n cell pos.toNat
  := by
  subst hcell
  exact ⟨hreleased, fun hf => absurd hf hfree⟩

/-- A producer claims the position at the tail. -/
theorem claim (h : Ring q cell) (hvacant : Vacant q.capacity.toNat cell q.tail.toNat)
    (hroom : q.tail.toNat + 1 < UInt64.size) (a : ℕ) (value : α) :
  Ring { q with tail := q.tail + 1 } (Function.update cell q.tail.toNat (.claimed a value))
  := by
  have hfree : cell q.tail.toNat = .free := (h.free_iff _).mpr le_rfl
  have hserving : Serving q.capacity.toNat cell q.tail.toNat :=
    ⟨by rw [hfree]; exact not_released_free, fun _ => hvacant⟩
  have hsucc : (q.tail + 1).toNat = q.tail.toNat + 1 := by
    rw [UInt64.toNat_add]
    exact Nat.mod_eq_of_lt hroom
  refine h.update hserving rfl rfl (by simp) id ?_ ?_ ?_ ?_
  · intro i hi
    change (q.tail + 1).toNat ≤ i ↔ _
    omega
  · change _ < (q.tail + 1).toNat
    omega
  · intro i
    by_cases hi : i = q.tail.toNat
    · subst hi
      rw [Function.update_self, ← h.untaken_iff, hfree]
      simp [Cell.Untaken]
    · rw [Function.update_of_ne hi, h.untaken_iff]
  · apply slot_unchanged
    change q.slot q.tail = _
    rw [h.slots _ hserving, hfree]
    rfl

/-- A stage in which consumers do not come in is as good as another for them. -/
theorem untaken_update (h : Ring q cell) {i : ℕ} (hc : c.Untaken ↔ (cell i).Untaken) (j : ℕ) :
  (Function.update cell i c j).Untaken ↔ q.head.toNat ≤ j
  := by
  by_cases hj : j = i
  · subst hj
    rw [Function.update_self, hc, h.untaken_iff]
  · rw [Function.update_of_ne hj, h.untaken_iff]

theorem lt_tail_of_ne_free (h : Ring q cell) {i : ℕ} (hi : cell i ≠ .free) :
  i < q.tail.toNat
  := by
  rw [Ne, h.free_iff] at hi
  omega

/-- The slot of a position is changed together with its stage. -/
theorem setSlot (h : Ring q cell) (hfree : cell pos.toNat ≠ .free)
    (hreleased : ¬ (cell pos.toNat).Released) (hcfree : c ≠ .free) (hcreleased : ¬ c.Released)
    (huntaken : c.Untaken ↔ (cell pos.toNat).Untaken) {slot : Slot α} (hslot : slot = c.slot pos) :
  Ring (q.setSlot pos slot) (Function.update cell pos.toNat c)
  := by
  subst hslot
  refine h.update ⟨hreleased, fun hf => absurd hf hfree⟩ rfl rfl hcfree hcreleased ?_ ?_ ?_ ?_
  · intros
    rfl
  · apply h.lt_tail_of_ne_free hfree
  · apply h.untaken_update huntaken
  · intro pos'
    apply slot_setSlot

/-- The value is constructed in the slot. -/
theorem write (h : Ring q cell) {a : ℕ} {value : α}
    (hcell : cell pos.toNat = .claimed a value) :
  (q.slot pos).storage = none
    ∧ Ring (q.setStorage pos (some value)) (Function.update cell pos.toNat (.written a value))
  := by
  have hslot := h.slots pos (serving_of_eq hcell (by simp) id _)
  rw [hcell] at hslot
  refine ⟨by rw [hslot]; rfl, ?_⟩
  apply h.setSlot <;> simp [hcell, Cell.Released, Cell.Untaken, hslot, Cell.slot]

/-- The position becomes ready for consumers. -/
theorem publish (h : Ring q cell) {a : ℕ} {value : α}
    (hcell : cell pos.toNat = .written a value) :
  Ring (q.storeSequence pos (pos + 1)) (Function.update cell pos.toNat (.ready a value))
  := by
  have hslot := h.slots pos (serving_of_eq hcell (by simp) id _)
  rw [hcell] at hslot
  apply h.setSlot <;> simp [hcell, Cell.Released, Cell.Untaken, hslot, Cell.slot]

/-- A consumer takes the position at the head. -/
theorem take (h : Ring q cell) {a : ℕ} {value : α} (hcell : cell q.head.toNat = .ready a value)
    (hroom : q.head.toNat + 1 < UInt64.size) (b : ℕ) :
  Ring { q with head := q.head + 1 } (Function.update cell q.head.toNat (.taken a value b))
  := by
  have hserving : Serving q.capacity.toNat cell q.head.toNat :=
    serving_of_eq hcell (by simp) id _
  have hsucc : (q.head + 1).toNat = q.head.toNat + 1 := by
    rw [UInt64.toNat_add]
    exact Nat.mod_eq_of_lt hroom
  refine h.update hserving rfl rfl (by simp) id ?_ ?_ ?_ ?_
  · intros
    rfl
  · apply h.lt_tail_of_ne_free
    simp [hcell]
  · intro i
    change _ ↔ (q.head + 1).toNat ≤ i
    by_cases hi : i = q.head.toNat
    · subst hi
      rw [Function.update_self]
      simp only [Cell.Untaken, false_iff]
      omega
    · rw [Function.update_of_ne hi, h.untaken_iff]
      omega
  · apply slot_unchanged
    change q.slot q.head = _
    rw [h.slots _ hserving, hcell]
    rfl

/-- The value is moved out of the slot. -/
theorem read (h : Ring q cell) {a b : ℕ} {value : α}
    (hcell : cell pos.toNat = .taken a value b) :
  (q.slot pos).storage = some value
    ∧ Ring (q.setStorage pos none) (Function.update cell pos.toNat (.moved a value b))
  := by
  have hslot := h.slots pos (serving_of_eq hcell (by simp) id _)
  rw [hcell] at hslot
  refine ⟨by rw [hslot]; rfl, ?_⟩
  apply h.setSlot <;> simp [hcell, Cell.Released, Cell.Untaken, hslot, Cell.slot]

/-- The slot is given to the next position. -/
theorem release (h : Ring q cell) {a b : ℕ} {value : α}
    (hcell : cell pos.toNat = .moved a value b) :
  Ring (q.storeSequence pos (pos + q.mask + 1))
    (Function.update cell pos.toNat (.released a value b))
  := by
  have hserving : Serving q.capacity.toNat cell pos.toNat := serving_of_eq hcell (by simp) id _
  have hslot := h.slots pos hserving
  have htwo := h.two_le
  rw [hcell] at hslot
  refine ⟨h.pow2, h.two_le, h.mask, ?_, ?_, ?_, ?_⟩
  · intro i
    by_cases hi : i = pos.toNat
    · subst hi
      have := h.lt_tail_of_ne_free (i := pos.toNat) (by simp [hcell])
      rw [Function.update_self]
      constructor
      · intro hf
        cases hf
      · intro hle
        exact absurd this (not_lt.mpr hle)
    · rw [Function.update_of_ne hi]
      apply h.free_iff
  · apply h.untaken_update
    simp [hcell, Cell.Untaken]
  · intro i hne
    by_cases hi : i = pos.toNat
    · subst hi
      rw [Function.update_self]
      trivial
    · rw [Function.update_of_ne hi]
      apply h.lap
      intro hfree
      apply hne
      change Function.update cell pos.toNat _ (i + q.capacity.toNat) = .free
      rw [Function.update_of_ne, hfree]
      intro heq
      rw [heq, hcell] at hfree
      cases hfree
  · intro pos' hpos'
    change Serving q.capacity.toNat _ _ at hpos'
    rw [storeSequence, slot_setSlot]
    by_cases hpp : pos'.toNat = pos.toNat
    · rw [Serving, hpp, Function.update_self] at hpos'
      exact absurd trivial hpos'.1
    · rw [Serving, Function.update_of_ne hpp] at hpos'
      rw [Function.update_of_ne hpp]
      by_cases hnext : pos'.toNat = pos.toNat + q.capacity.toNat
      · -- The position that the slot serves from now on.
        have hfree : cell pos'.toNat = .free := by
          by_contra hne
          rw [hnext] at hne
          have hreleased := h.lap _ hne
          rw [hcell] at hreleased
          exact hreleased
        have hmod : pos' &&& q.mask = pos &&& q.mask := by
          rw [h.and_mask_eq_iff, hnext, Nat.add_mod_right]
        have hseq : pos + q.mask + 1 = pos' := by
          have hlt := pos'.toNat_lt
          have hadd : pos + q.mask + 1 = pos + q.capacity := by
            rw [h.mask, UInt64.add_assoc, UInt64.sub_add_cancel]
          rw [hadd, ← UInt64.toNat_inj, UInt64.toNat_add, hnext]
          apply Nat.mod_eq_of_lt
          omega
        rw [if_pos hmod, hslot, hfree, hseq]
        rfl
      · have hserving' : Serving q.capacity.toNat cell pos'.toNat := by
          refine ⟨hpos'.1, fun hf => ?_⟩
          by_cases hlt : pos'.toNat < q.capacity.toNat
          · exact .inl hlt
          · have hreleased := (hpos'.2 hf).resolve_left hlt
            rw [Function.update_of_ne (by omega)] at hreleased
            exact .inr hreleased
        rw [if_neg, h.slots pos' hserving']
        intro hmod
        exact hpp (congrArg _ (h.serving_unique hserving' hserving hmod))

/-- A slot that is not vacant serves the position before. -/
theorem slot_of_not_vacant (h : Ring q cell) (hvacant : ¬ Vacant q.capacity.toNat cell pos.toNat)
    (hpos : pos ≤ q.tail) :
  ∃ prev : UInt64, prev.toNat + q.capacity.toNat = pos.toNat
    ∧ q.slot pos = (cell prev.toNat).slot prev
  := by
  obtain ⟨hle, hreleased⟩ := not_or.mp hvacant
  have htwo := h.two_le
  rw [UInt64.le_iff_toNat_le] at hpos
  have hprev : (pos - q.capacity).toNat = pos.toNat - q.capacity.toNat := by
    apply UInt64.toNat_sub_of_le
    rw [UInt64.le_iff_toNat_le]
    omega
  have hmod : pos &&& q.mask = (pos - q.capacity) &&& q.mask := by
    rw [h.and_mask_eq_iff, hprev, ← Nat.mod_eq_sub_mod (by omega)]
  refine ⟨pos - q.capacity, by omega, ?_⟩
  rw [slot_congr hmod]
  apply h.slots
  rw [hprev]
  refine ⟨hreleased, fun hf => ?_⟩
  rw [h.free_iff] at hf
  omega

/-- The sequence number of a slot that is not vacant is below the position. -/
theorem sequence_lt_of_not_vacant (h : Ring q cell)
    (hvacant : ¬ Vacant q.capacity.toNat cell pos.toNat) (hpos : pos ≤ q.tail) :
  (q.slot pos).sequence < pos
  := by
  have htwo := h.two_le
  have hlt := pos.toNat_lt
  obtain ⟨prev, hprev, hslot⟩ := h.slot_of_not_vacant hvacant hpos
  rw [hslot, UInt64.lt_iff_toNat_lt]
  rcases Cell.slot_sequence prev (cell prev.toNat) with heq | heq
  · rw [heq]
    omega
  · rw [heq, UInt64.toNat_add, UInt64.toNat_one, Nat.mod_eq_of_lt (by omega)]
    omega

/-- The sequence number equals the position at the tail only if its slot is vacant. -/
theorem vacant_of_sequence (h : Ring q cell) (hseq : (q.slot q.tail).sequence = q.tail) :
  Vacant q.capacity.toNat cell q.tail.toNat
  := by
  by_contra hvacant
  have hlt := h.sequence_lt_of_not_vacant hvacant (UInt64.le_refl _)
  rw [hseq] at hlt
  exact UInt64.lt_irrefl _ hlt

theorem head_le_tail (h : Ring q cell) :
  q.head.toNat ≤ q.tail.toNat
  := by
  rw [← h.untaken_iff, (h.free_iff _).mpr le_rfl]
  trivial

/-- Not more values than the capacity are in the queue. -/
theorem tail_le (h : Ring q cell) :
  q.tail.toNat ≤ q.head.toNat + q.capacity.toNat
  := by
  by_contra hlt
  have huntaken := (h.untaken_iff q.head.toNat).mpr le_rfl
  apply huntaken.not_released
  apply h.lap
  rw [Ne, h.free_iff]
  omega

/-- The sequence number is one beyond the position at the head only if the position is ready. -/
theorem ready_of_sequence (h : Ring q cell) (hseq : (q.slot q.head).sequence = q.head + 1)
    (hroom : q.head.toNat + 1 < UInt64.size) :
  (cell q.head.toNat).Ready
  := by
  have hsucc : (q.head + 1).toNat = q.head.toNat + 1 := by
    rw [UInt64.toNat_add]
    exact Nat.mod_eq_of_lt hroom
  have hne : q.head ≠ q.head + 1 := by
    intro heq
    have := congrArg UInt64.toNat heq
    omega
  have huntaken : (cell q.head.toNat).Untaken := (h.untaken_iff _).mpr le_rfl
  by_cases hserving : Serving q.capacity.toNat cell q.head.toNat
  · rw [h.slots _ hserving] at hseq
    cases hcell : cell q.head.toNat with
    | ready => trivial
    | free | claimed | written =>
        rw [hcell] at hseq
        exact absurd hseq hne
    | taken | moved | released =>
        rw [hcell] at huntaken
        exact absurd huntaken id
  · have hvacant : ¬ Vacant q.capacity.toNat cell q.head.toNat :=
      fun hv => hserving ⟨huntaken.not_released, fun _ => hv⟩
    have hlt := h.sequence_lt_of_not_vacant hvacant (UInt64.le_iff_toNat_le.mpr h.head_le_tail)
    rw [hseq, UInt64.lt_iff_toNat_lt] at hlt
    omega

end Ring

end Queue
