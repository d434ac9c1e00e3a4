import Cascade.Queue.Mpmc

/-!
# Calls one after the other

A call that is made while no other is under way takes its steps until it returns; a
`compare_exchange_weak` may fail a number of times before it succeeds. With a capacity of at least
two the queue then is a bounded queue, first in first out, however often its positions wrap
around. With a capacity of one it is not: a value that is ready to be popped has the sequence
number for which the next push waits, so the value is overwritten and the calls of `try_pop` do
not return any more.
-/

namespace Queue

open MpmcQueue

variable {α : Type*}

/-- What a call returns. It is undefined if no value had been constructed. -/
inductive Answer (α : Type*)
  | pushed (ok : Bool)
  | popped (value : Option α)
  | undefined
deriving DecidableEq

/-- What an operation returns, when it has returned. -/
def MpmcQueue.Op.answer : Op α → Option (Answer α)
  | .pushed .. => some (.pushed true)
  | .full _ => some (.pushed false)
  | .popped _ (some value) => some (.popped (some value))
  | .popped _ none => some .undefined
  | .empty => some (.popped none)
  | _ => none

/-- Let an operation take its steps, up to a number of them, until it returns. Which of them fail
is given by a list; those beyond the list do not. -/
def complete : ℕ → List Bool → MpmcQueue α → Op α → Option (MpmcQueue α × Answer α)
  | 0, _, _, _ => none
  | steps + 1, fails, q, op =>
      match op.answer with
      | some answer => some (q, answer)
      | none =>
          let r := advance (fails.headD false) q op
          complete steps fails.tail r.1 r.2

/-- Make calls one after the other, each with the list of what fails. -/
def callAll (steps : ℕ) (q : MpmcQueue α) :
    List (Call α × List Bool) → Option (MpmcQueue α × List (Answer α))
  | [] => some (q, [])
  | (c, fails) :: calls => do
      let r ← complete steps fails q ((protocol α).start c)
      let rs ← callAll steps r.1 calls
      return (rs.1, r.2 :: rs.2)

/-! ### The bounded queue -/

/-- What a call does to a bounded queue, and returns. -/
def fifo (capacity : ℕ) (queue : List α) : Call α → List α × Answer α
  | .tryPush value =>
      if queue.length = capacity then (queue, .pushed false)
      else (queue ++ [value], .pushed true)
  | .tryPop =>
      match queue with
      | [] => ([], .popped none)
      | value :: rest => (rest, .popped (some value))

/-- What calls do to a bounded queue. -/
def fifoAll (capacity : ℕ) (queue : List α) : List (Call α) → List α × List (Answer α)
  | [] => (queue, [])
  | c :: calls =>
      let r := fifo capacity queue c
      let rs := fifoAll capacity r.1 calls
      (rs.1, r.2 :: rs.2)

/-! ### Returning -/

variable {q : MpmcQueue α}

/-- More steps do not change what is returned. -/
theorem complete_mono {steps steps' : ℕ} (hle : steps ≤ steps') {fails : List Bool} {op : Op α}
    {r : MpmcQueue α × Answer α} (h : complete steps fails q op = some r) :
  complete steps' fails q op = some r
  := by
  induction steps generalizing steps' fails q op with
  | zero => cases h
  | succ steps ih =>
      obtain ⟨steps', rfl⟩ := Nat.exists_eq_add_of_lt hle
      rw [complete] at h ⊢
      cases hanswer : op.answer with
      | some answer =>
          rw [hanswer] at h
          exact h
      | none =>
          rw [hanswer] at h
          apply ih _ h
          omega

variable {calls : List (Call α × List Bool)}

theorem callAll_mono {steps steps' : ℕ} (hle : steps ≤ steps') {r : MpmcQueue α × List (Answer α)}
    (h : callAll steps q calls = some r) :
  callAll steps' q calls = some r
  := by
  induction calls generalizing q r with
  | nil => exact h
  | cons call calls ih =>
      obtain ⟨c, fails⟩ := call
      simp only [callAll, Option.bind_eq_bind, Option.bind_eq_some_iff] at h ⊢
      obtain ⟨r₁, h₁, rs, hrs, hr⟩ := h
      exact ⟨r₁, complete_mono hle h₁, rs, ih hrs, hr⟩

/-- The operation returns. -/
def Completes (fails : List Bool) (q : MpmcQueue α) (op : Op α) (r : MpmcQueue α × Answer α) :
    Prop :=
  ∃ steps, complete steps fails q op = some r

namespace Completes

variable {fails : List Bool} {q q' : MpmcQueue α} {op op' : Op α} {r : MpmcQueue α × Answer α}

theorem done {answer : Answer α} (h : op.answer = some answer) :
  Completes fails q op (q, answer)
  := ⟨1, by rw [complete, h]⟩

/-- There is one result. -/
theorem unique (h : Completes fails q op r) {steps : ℕ} {r' : MpmcQueue α × Answer α}
    (hr' : complete steps fails q op = some r') :
  r' = r
  := by
  obtain ⟨steps', hr⟩ := h
  have hmax := complete_mono (le_max_left steps steps') hr'
  rw [complete_mono (le_max_right steps steps') hr] at hmax
  exact (Option.some.inj hmax).symm

/-- An operation that returns after a step returns. -/
theorem step (hop : op.answer = none) (hstep : advance (fails.headD false) q op = (q', op'))
    (h : Completes fails.tail q' op' r) :
  Completes fails q op r
  := by
  obtain ⟨steps, hsteps⟩ := h
  refine ⟨steps + 1, ?_⟩
  rw [complete, hop, hstep]
  exact hsteps

end Completes

/-- An operation that tries again as long as something fails returns if it does so when nothing
fails. -/
theorem Completes.retry {q q' : MpmcQueue α} {check : Op α} (claim won : Op α)
    {r : MpmcQueue α × Answer α} (hcheck : check.answer = none) (hclaim : claim.answer = none)
    (hpass : ∀ b, advance b q check = (q, claim)) (hlose : advance true q claim = (q, check))
    (hwin : advance false q claim = (q', won)) (hwon : ∀ fails, Completes fails q' won r)
    (fails : List Bool) :
  Completes fails q check r
  := by
  induction hn : fails.length using Nat.strong_induction_on generalizing fails with
  | _ n ih =>
    apply Completes.step hcheck (hpass _)
    cases hfails : fails.tail.headD false with
    | true =>
        apply Completes.step hclaim (by rw [hfails, hlose])
        apply ih fails.tail.tail.length _ _ rfl
        rcases fails with _ | ⟨_, _ | _⟩ <;> simp_all
        omega
    | false =>
        apply Completes.step hclaim (by rw [hfails, hwin])
        apply hwon

/-- The queue after a push. -/
def MpmcQueue.push (q : MpmcQueue α) (value : α) : MpmcQueue α :=
  ({ q with tail := q.tail + 1 }.setStorage q.tail (some value)).storeSequence q.tail (q.tail + 1)

/-- The queue after a pop. -/
def MpmcQueue.pop (q : MpmcQueue α) : MpmcQueue α :=
  ({ q with head := q.head + 1 }.setStorage q.head none).storeSequence q.head
    (q.head + q.mask + 1)

theorem slot_push (q : MpmcQueue α) (value : α) (pos : UInt64) :
  (q.push value).slot pos
    = if pos &&& q.mask = q.tail &&& q.mask then ⟨q.tail + 1, some value⟩ else q.slot pos
  := by
  rw [push, storeSequence, slot_setSlot, setStorage, slot_setSlot, slot_setSlot]
  by_cases hpos : pos &&& q.mask = q.tail &&& q.mask
  · simp [hpos]
  · simp [hpos, slot]

theorem slot_pop (q : MpmcQueue α) (pos : UInt64) :
  q.pop.slot pos
    = if pos &&& q.mask = q.head &&& q.mask then ⟨q.head + q.mask + 1, none⟩ else q.slot pos
  := by
  rw [pop, storeSequence, slot_setSlot, setStorage, slot_setSlot, slot_setSlot]
  by_cases hpos : pos &&& q.mask = q.head &&& q.mask
  · simp [hpos]
  · simp [hpos, slot]

/-- A push succeeds if the slot at the tail is there for it. -/
theorem completes_push (hseq : (q.slot q.tail).sequence = q.tail) (value : α) (fails : List Bool) :
  Completes fails q (.pushLoad value) (q.push value, .pushed true)
  := by
  apply Completes.step rfl rfl
  apply Completes.retry (.pushClaim value q.tail) (.pushWrite value q.tail) rfl rfl
  · intro b
    rw [advance, if_pos ((diff_eq_zero_iff _ _).mpr hseq)]
  · rw [advance, if_neg (by simp)]
  · rw [advance, if_pos ⟨rfl, rfl⟩]
  · intro fails
    apply Completes.step rfl rfl
    apply Completes.step rfl rfl
    exact Completes.done rfl

/-- A push is refused if the slot at the tail is behind. -/
theorem completes_full (hne : (q.slot q.tail).sequence ≠ q.tail)
    (hneg : diff (q.slot q.tail).sequence q.tail < 0) (value : α) (fails : List Bool) :
  Completes fails q (.pushLoad value) (q, .pushed false)
  := by
  have hcheck : ∀ b, advance b q (.pushCheck value q.tail) = (q, .full value) := by
    intro b
    rw [advance, if_neg (mt (diff_eq_zero_iff _ _).mp hne), if_pos hneg]
  apply Completes.step rfl rfl
  apply Completes.step rfl (hcheck _)
  exact Completes.done rfl

/-- A pop succeeds if the slot at the head is ready. -/
theorem completes_pop (hseq : (q.slot q.head).sequence = q.head + 1) {value : α}
    (hvalue : (q.slot q.head).storage = some value) (fails : List Bool) :
  Completes fails q .popLoad (q.pop, .popped (some value))
  := by
  apply Completes.step rfl rfl
  apply Completes.retry (.popClaim q.head) (.popRead q.head) rfl rfl
  · intro b
    rw [advance, if_pos ((diff_eq_zero_iff _ _).mpr hseq)]
  · rw [advance, if_neg (by simp)]
  · rw [advance, if_pos ⟨rfl, rfl⟩]
  · intro fails
    have hread : ∀ b, advance b { q with head := q.head + 1 } (.popRead q.head)
        = ({ q with head := q.head + 1 }.setStorage q.head none,
          .popPublish q.head (some value)) := by
      intro b
      rw [← hvalue]
      rfl
    apply Completes.step rfl (hread _)
    apply Completes.step rfl rfl
    exact Completes.done rfl

/-- A pop finds nothing if the slot at the head is behind. -/
theorem completes_empty (hne : (q.slot q.head).sequence ≠ q.head + 1)
    (hneg : diff (q.slot q.head).sequence (q.head + 1) < 0) (fails : List Bool) :
  Completes fails q .popLoad (q, .popped none)
  := by
  have hcheck : ∀ b, advance b q (.popCheck q.head) = (q, .empty) := by
    intro b
    rw [advance, if_neg (mt (diff_eq_zero_iff _ _).mp hne), if_pos hneg]
  apply Completes.step rfl rfl
  apply Completes.step rfl (hcheck _)
  exact Completes.done rfl

/-! ### What the queue holds -/

/-- The slot of a position with a value, or without. -/
def entry (pos : UInt64) : Option α → Slot α
  | some value => ⟨pos + 1, some value⟩
  | none => ⟨pos, none⟩

/-- The queue holds the values, the oldest one at the head. -/
structure Holds (q : MpmcQueue α) (queue : List α) : Prop where
  pow2 : IsPow2 q.capacity
  two_le : 2 ≤ q.capacity.toNat
  le_pow : q.capacity.toNat ≤ 2 ^ 62
  mask : q.mask = q.capacity - 1
  length_le : queue.length ≤ q.capacity.toNat
  tail : q.tail = q.head + UInt64.ofNat queue.length
  slots : ∀ i < q.capacity.toNat,
    q.slot (q.head + UInt64.ofNat i) = entry (q.head + UInt64.ofNat i) queue[i]?

namespace Holds

variable {q : MpmcQueue α} {queue : List α} {value : α}

/-- The slot at the tail of a queue that is not full is there for a push. -/
theorem sequence_tail (h : Holds q queue) (hlen : queue.length < q.capacity.toNat) :
  (q.slot q.tail).sequence = q.tail
  := by
  rw [h.tail, h.slots _ hlen, List.getElem?_eq_none le_rfl]
  rfl

theorem slot_head (h : Holds q queue) :
  q.slot q.head = entry q.head queue[0]?
  := by
  have hslot := h.slots 0 h.pow2.pos
  rwa [add_ofNat_zero] at hslot

/-- The slot at the tail of a full queue is the one at the head, which is behind. -/
theorem tail_of_full (h : Holds q queue) (hlen : queue.length = q.capacity.toNat) :
  (q.slot q.tail).sequence - q.tail = 1 - q.capacity
  := by
  have hslot : q.slot q.tail = q.slot q.head := by
    rw [slot, slot]
    congr 1
    have heq := (h.pow2.add_and_mask_eq_iff q.head (i := queue.length) (j := 0)).mpr
      (by rw [hlen, Nat.mod_self, Nat.zero_mod])
    rwa [add_ofNat_zero, ← h.tail, ← h.mask] at heq
  have hlt : 0 < queue.length := hlen ▸ h.pow2.pos
  rw [hslot, h.slot_head, List.getElem?_eq_getElem hlt, h.tail, hlen, UInt64.ofNat_toNat]
  change q.head + 1 - (q.head + q.capacity) = 1 - q.capacity
  grind

/-- A push appends the value. -/
theorem push (h : Holds q queue) (hlen : queue.length < q.capacity.toNat) (value : α) :
  Holds (q.push value) (queue ++ [value])
  := by
  refine ⟨h.pow2, h.two_le, h.le_pow, h.mask, ?_, ?_, ?_⟩
  · rw [List.length_append, List.length_singleton]
    exact hlen
  · change q.tail + 1 = q.head + _
    rw [h.tail, List.length_append, List.length_singleton, add_ofNat_succ]
    grind
  · intro i hi
    change i < q.capacity.toNat at hi
    change (q.push value).slot (q.head + _) = entry (q.head + _) _
    simp only [slot_push, h.tail, h.mask, h.pow2.add_and_mask_eq_iff, Nat.mod_eq_of_lt hi,
      Nat.mod_eq_of_lt hlen]
    by_cases hiq : i = queue.length
    · subst hiq
      rw [if_pos rfl, List.getElem?_concat_length]
      rfl
    · rw [if_neg hiq, h.slots i hi, getElem?_concat_of_ne hiq]

/-- A pop removes the oldest value. -/
theorem pop (h : Holds q (value :: queue)) :
  Holds q.pop queue
  := by
  have hlen := h.length_le
  rw [List.length_cons] at hlen
  have htwo := h.two_le
  refine ⟨h.pow2, h.two_le, h.le_pow, h.mask, by change _ ≤ q.capacity.toNat; omega, ?_, ?_⟩
  · change q.tail = q.head + 1 + _
    rw [h.tail, List.length_cons, add_ofNat_succ]
  · intro i hi
    change i < q.capacity.toNat at hi
    change q.pop.slot (q.head + 1 + _) = entry (q.head + 1 + _) _
    have hhead := h.pow2.add_and_mask_eq_iff q.head (i := i + 1) (j := 0)
    rw [add_ofNat_zero, Nat.zero_mod, ← h.mask] at hhead
    simp only [slot_pop, ← add_ofNat_succ, hhead]
    by_cases hlast : i + 1 = q.capacity.toNat
    · -- The slot that was popped is the one after the last.
      rw [if_pos (by rw [hlast, Nat.mod_self]), hlast, UInt64.ofNat_toNat,
        List.getElem?_eq_none (by omega), h.mask]
      change Slot.mk _ none = Slot.mk _ none
      congr 1
      grind
    · have hlt : i + 1 < q.capacity.toNat := by omega
      rw [if_neg (by rw [Nat.mod_eq_of_lt hlt]; omega), h.slots _ hlt, List.getElem?_cons_succ]

/-- A new queue holds nothing. -/
theorem of_construct {requested : UInt64} (hq : construct requested = some q)
    (htwo : 2 ≤ q.capacity.toNat) (hle : q.capacity.toNat ≤ 2 ^ 62) :
  Holds q []
  := by
  obtain ⟨c, hc, rfl⟩ := Option.map_eq_some_iff.mp hq
  have hpow := IsPow2.of_roundUpPow2 hc
  refine ⟨hpow, htwo, hle, rfl, Nat.zero_le _, rfl, ?_⟩
  intro i hi
  change i < c.toNat at hi
  change Slot.mk ((0 + UInt64.ofNat i) &&& (c - 1)) none = Slot.mk (0 + UInt64.ofNat i) none
  congr 1
  rw [UInt64.zero_add, ← UInt64.toNat_inj, hpow.toNat_and_mask,
    UInt64.toNat_ofNat_of_lt' (lt_trans hi c.toNat_lt), Nat.mod_eq_of_lt hi]

/-- A call does what it does to a bounded queue. -/
theorem call (h : Holds q queue) (c : Call α) (fails : List Bool) :
  ∃ q', Completes fails q ((protocol α).start c) (q', (fifo q.capacity.toNat queue c).2)
    ∧ Holds q' (fifo q.capacity.toNat queue c).1 ∧ q'.capacity = q.capacity
  := by
  cases c with
  | tryPush value =>
      rw [fifo]
      by_cases hlen : queue.length = q.capacity.toNat
      · rw [if_pos hlen]
        have hdiff := h.tail_of_full hlen
        have hneg : 2 ^ 63 ≤ (1 - q.capacity).toNat := by
          have := h.two_le
          have := h.le_pow
          rw [UInt64.toNat_sub]
          change _ ≤ (2 ^ 64 - q.capacity.toNat + 1) % 2 ^ 64
          omega
        refine ⟨q, completes_full ?_ ?_ value fails, h, rfl⟩
        · intro heq
          rw [heq, UInt64.sub_self] at hdiff
          rw [← hdiff] at hneg
          exact absurd hneg (by decide)
        · rw [diff_neg_iff, hdiff]
          exact hneg
      · rw [if_neg hlen]
        have hlt := lt_of_le_of_ne h.length_le hlen
        exact ⟨q.push value, completes_push (h.sequence_tail hlt) value fails, h.push hlt value,
          rfl⟩
  | tryPop =>
      have hslot := h.slot_head
      cases queue with
      | nil =>
          refine ⟨q, completes_empty ?_ ?_ fails, h, rfl⟩
          · rw [hslot]
            change q.head ≠ q.head + 1
            grind
          · rw [diff_neg_iff, hslot]
            change 2 ^ 63 ≤ (q.head - (q.head + 1)).toNat
            have hdiff : q.head - (q.head + 1) = 0 - 1 := by grind
            rw [hdiff]
            decide
      | cons value queue =>
          refine ⟨q.pop, completes_pop ?_ ?_ fails, h.pop, rfl⟩
          · rw [hslot]
            rfl
          · rw [hslot]
            rfl

end Holds

/-- A call that returns, followed by calls that return. -/
theorem exists_callAll_cons {q q₁ q₂ : MpmcQueue α} {c : Call α} {fails : List Bool}
    {answer : Answer α} {answers : List (Answer α)}
    (h : Completes fails q ((protocol α).start c) (q₁, answer))
    (hcalls : ∃ steps, callAll steps q₁ calls = some (q₂, answers)) :
  ∃ steps, callAll steps q ((c, fails) :: calls) = some (q₂, answer :: answers)
  := by
  obtain ⟨steps₁, h₁⟩ := h
  obtain ⟨steps₂, h₂⟩ := hcalls
  refine ⟨max steps₁ steps₂, ?_⟩
  rw [callAll, complete_mono (le_max_left _ _) h₁]
  change (callAll _ q₁ calls).bind _ = _
  rw [callAll_mono (le_max_right _ _) h₂]
  rfl

/-- Calls do what they do to a bounded queue, for any number of failures. -/
theorem exists_callAll {queue : List α} (h : Holds q queue) (calls : List (Call α × List Bool)) :
  ∃ q' steps, callAll steps q calls
    = some (q', (fifoAll q.capacity.toNat queue (calls.map Prod.fst)).2)
  := by
  induction calls generalizing q queue with
  | nil => exact ⟨q, 0, rfl⟩
  | cons call calls ih =>
      obtain ⟨c, fails⟩ := call
      obtain ⟨q₁, hcompletes, hholds, hcapacity⟩ := h.call c fails
      obtain ⟨q₂, hcalls⟩ := ih hholds
      rw [hcapacity] at hcalls
      exact ⟨q₂, exists_callAll_cons hcompletes hcalls⟩

/-! ### A capacity of one -/

/-- The queue with one slot. -/
def single (α : Type*) : MpmcQueue α :=
  ⟨1, 0, fun i => ⟨i, none⟩, 0, 0⟩

/-- Both of two pushes into the queue with one slot succeed. -/
theorem push_single (value value' : α) (fails fails' : List Bool) :
  Completes fails (single α) (.pushLoad value) ((single α).push value, .pushed true)
    ∧ Completes fails' ((single α).push value) (.pushLoad value')
      (((single α).push value).push value', .pushed true)
  := by
  constructor
  · apply completes_push
    change (0 &&& 0 : UInt64) = 0
    decide
  · have hslot : (1 &&& 0 : UInt64) = 0 &&& 0 := by decide
    apply completes_push
    rw [slot_push]
    exact congrArg Slot.sequence (if_pos hslot)

/-- What the calls of two pushes into the queue with one slot return. -/
theorem callAll_single {steps : ℕ} {value value' : α} {r : MpmcQueue α × List (Answer α)}
   
    (h : callAll steps (single α) ((.tryPush value, []) :: (.tryPush value', []) :: calls)
      = some r) :
  ∃ rs, callAll steps (((single α).push value).push value') calls = some rs
    ∧ r.2 = .pushed true :: .pushed true :: rs.2
  := by
  simp only [callAll, Option.bind_eq_bind, Option.bind_eq_some_iff] at h
  obtain ⟨r₁, h₁, _, ⟨r₂, h₂, rs, hrs, hr₂⟩, hr₁⟩ := h
  obtain rfl := (push_single value value' [] []).1.unique h₁
  obtain rfl := (push_single value value' [] []).2.unique h₂
  obtain rfl := Option.some.inj hr₂
  obtain rfl := Option.some.inj hr₁
  exact ⟨rs, hrs, rfl⟩

/-- A pop that finds the slot at the head ahead of it starts again and again. -/
theorem complete_popLoad_eq_none (hne : (q.slot q.head).sequence ≠ q.head + 1)
    (hneg : ¬ diff (q.slot q.head).sequence (q.head + 1) < 0) (steps : ℕ) (fails : List Bool) :
  complete steps fails q .popLoad = none ∧ complete steps fails q (.popCheck q.head) = none
  := by
  have hcheck : ∀ b, advance b q (.popCheck q.head) = (q, .popLoad) := by
    intro b
    rw [advance, if_neg (mt (diff_eq_zero_iff _ _).mp hne), if_neg hneg]
  induction steps generalizing fails with
  | zero => exact ⟨rfl, rfl⟩
  | succ steps ih =>
      constructor
      · exact (ih fails.tail).2
      · rw [complete]
        change complete steps fails.tail (advance (fails.headD false) q (.popCheck q.head)).1
          (advance (fails.headD false) q (.popCheck q.head)).2 = none
        rw [hcheck]
        exact (ih fails.tail).1

/-- For every capacity up to `2 ^ 62` that is asked for, the queue is a bounded queue exactly if
the capacity is at least two, as long as no position or sequence number reaches `2 ^ 63`: a position
is at most the number of calls, and a sequence number is ahead of one by at most the capacity. -/
theorem MpmcQueue.fifo_iff_two_le [Inhabited α] {requested : UInt64}
    (hle : requested.toNat ≤ 2 ^ 62) :
  ∃ q : MpmcQueue α, construct requested = some q ∧
    ((∀ calls : List (Call α × List Bool), calls.length + q.capacity.toNat < 2 ^ 63 →
        ∃ q' steps, callAll steps q calls
          = some (q', (fifoAll q.capacity.toNat [] (calls.map Prod.fst)).2)) ↔ 2 ≤ requested)
  := by
  obtain ⟨c, hc, hpow, hlec, hbelow⟩ := roundUpPow2_spec (v := requested) (by omega)
  have hq : construct requested = some (⟨c, c - 1, fun i => ⟨i, none⟩, 0, 0⟩ : MpmcQueue α) := by
    rw [construct, hc]
    rfl
  refine ⟨_, hq, ?_⟩
  constructor
  · intro h
    by_contra hlt
    have hone : c = 1 := by
      rw [UInt64.le_iff_toNat_le] at hlt
      have hcpos := hpow.pos
      rcases hbelow with hbelow | hbelow
      · apply UInt64.toNat_inj.mp
        change ¬ 2 ≤ requested.toNat at hlt
        change c.toNat = 1
        omega
      · exact hbelow
    subst hone
    have hshort : 2 + (1 : UInt64).toNat < 2 ^ 63 := by decide
    obtain ⟨q', steps, hcalls⟩ := h [(.tryPush default, []), (.tryPush default, [])] hshort
    obtain ⟨rs, -, hanswers⟩ := callAll_single hcalls
    change [Answer.pushed true, .pushed false] = _ at hanswers
    simp at hanswers
  · intro htwo calls _
    apply exists_callAll
    apply Holds.of_construct hq
    · exact UInt64.le_iff_toNat_le.mp (UInt64.le_trans htwo hlec)
    · apply hpow.le_of_lt
      have htwo' := UInt64.le_iff_toNat_le.mp htwo
      rcases hbelow with hbelow | rfl
      · omega
      · decide

/-- A queue of which a capacity of three was asked is a bounded queue of four values. -/
theorem MpmcQueue.fifo_iff_two_le_three :
  ∃ q : MpmcQueue ℕ, construct 3 = some q ∧
    ∀ calls : List (Call ℕ × List Bool), calls.length + q.capacity.toNat < 2 ^ 63 →
      ∃ q' steps, callAll steps q calls
        = some (q', (fifoAll q.capacity.toNat [] (calls.map Prod.fst)).2)
  := by
  have hthree : (3 : UInt64).toNat ≤ 2 ^ 62 := by decide
  obtain ⟨q, hq, hiff⟩ : ∃ q : MpmcQueue ℕ, construct 3 = some q ∧ _ := fifo_iff_two_le hthree
  exact ⟨q, hq, hiff.mpr (by decide)⟩

/-- With a capacity of one, the second push is accepted although the queue is full, and the pop
that follows does not return, however many steps it takes. -/
theorem MpmcQueue.single_overwrites :
  ∃ q : MpmcQueue ℕ, construct 1 = some q
    ∧ (∃ q' steps, callAll steps q [(.tryPush 5, []), (.tryPush 6, [])]
      = some (q', [.pushed true, .pushed true]))
    ∧ (fifoAll q.capacity.toNat [] [.tryPush 5, .tryPush 6]).2 = [.pushed true, .pushed false]
    ∧ ∀ steps, callAll steps q [(.tryPush 5, []), (.tryPush 6, []), (.tryPop, [])] = none
  := by
  refine ⟨single ℕ, rfl, ?_, rfl, ?_⟩
  · obtain ⟨h₁, h₂⟩ := push_single 5 6 [] []
    exact ⟨_, exists_callAll_cons h₁ (exists_callAll_cons h₂ ⟨0, rfl⟩)⟩
  · intro steps
    by_contra hne
    obtain ⟨r, hr⟩ := Option.ne_none_iff_exists'.mp hne
    obtain ⟨rs, hpop, -⟩ := callAll_single hr
    have hnone := complete_popLoad_eq_none (q := ((single ℕ).push 5).push 6) (by decide)
      (by decide) steps []
    simp only [callAll, Option.bind_eq_bind, Option.bind_eq_some_iff] at hpop
    obtain ⟨r₃, h₃, -⟩ := hpop
    cases hnone.1.symm.trans h₃

end Queue
