import Cascade.Queue.Capacity

/-!
# The queue of one producer and one consumer

The model of `queue/spsc_queue.hpp`, and its refinement. The producer alone writes `tail`, the
consumer alone writes `head`, and each keeps a copy of what the other wrote, which may be old. The
loads and stores of `head` and `tail` and the accesses of the buffer are steps of their own; the
copies are private, and using them belongs to the step before.

The values in the buffer are those that were pushed and not yet popped, in order (`Inv`).
-/

namespace Queue

variable {α : Type*}

structure SpscQueue (α : Type*) where
  capacity : UInt64
  mask : UInt64
  buffer : UInt64 → Option α
  head : UInt64
  tailCached : UInt64
  tail : UInt64
  headCached : UInt64

namespace SpscQueue

/-- The constructor, if it returns. -/
def construct (capacity : UInt64) : Option (SpscQueue α) :=
  (roundUpPow2 capacity).map fun capacity =>
    { capacity
      mask := capacity - 1
      buffer := fun _ => none
      head := 0
      tailCached := 0
      tail := 0
      headCached := 0 }

/-- Where the producer is in `try_push`, with its local variables, named by the step that comes
next. -/
inductive Producer (α : Type*)
  | idle
  | loadTail (value : α)
  | loadHead (value : α) (tail : UInt64)
  | write (value : α) (tail : UInt64)
  | storeTail (value : α) (tail : UInt64)

/-- Where the consumer is in `try_pop`. What it has read is what was in the buffer. -/
inductive Consumer (α : Type*)
  | idle
  | loadHead
  | loadTail (head : UInt64)
  | read (head : UInt64)
  | storeHead (head : UInt64) (result : Option α)

/-- What a call returns. -/
inductive Event (α : Type*)
  | pushed (value : α)
  | full (value : α)
  | popped (result : Option α)
  | empty
deriving DecidableEq

/-- A step of the producer. -/
def produce (q : SpscQueue α) : Producer α → SpscQueue α × Producer α × Option (Event α)
  | .idle => (q, .idle, none)
  | .loadTail value =>
      if q.capacity < q.tail + 1 - q.headCached then (q, .loadHead value q.tail, none)
      else (q, .write value q.tail, none)
  | .loadHead value tail =>
      let q' := { q with headCached := q.head }
      if q.capacity < tail + 1 - q.head then (q', .idle, some (.full value))
      else (q', .write value tail, none)
  | .write value tail =>
      ({ q with buffer := Function.update q.buffer (tail &&& q.mask) (some value) },
        .storeTail value tail, none)
  | .storeTail value tail => ({ q with tail := tail + 1 }, .idle, some (.pushed value))

/-- A step of the consumer. -/
def consume (q : SpscQueue α) : Consumer α → SpscQueue α × Consumer α × Option (Event α)
  | .idle => (q, .idle, none)
  | .loadHead =>
      if q.tailCached ≤ q.head then (q, .loadTail q.head, none) else (q, .read q.head, none)
  | .loadTail head =>
      let q' := { q with tailCached := q.tail }
      if q.tail ≤ head then (q', .idle, some .empty) else (q', .read head, none)
  | .read head =>
      ({ q with buffer := Function.update q.buffer (head &&& q.mask) none },
        .storeHead head (q.buffer (head &&& q.mask)), none)
  | .storeHead head result => ({ q with head := head + 1 }, .idle, some (.popped result))

end SpscQueue

open SpscQueue

/-- A queue with its producer and its consumer. -/
structure Spsc (α : Type*) where
  queue : SpscQueue α
  producer : Producer α
  consumer : Consumer α

namespace Spsc

/-- A call by the producer or the consumer, or a step of theirs. -/
inductive Action (α : Type*)
  | tryPush (value : α)
  | tryPop
  | produce
  | consume

/-- What an action does, and what returns with it. A call is made when the one before has
returned. -/
def step (s : Spsc α) : Action α → Spsc α × Option (Event α)
  | .tryPush value =>
      match s.producer with
      | .idle => ({ s with producer := .loadTail value }, none)
      | _ => (s, none)
  | .tryPop =>
      match s.consumer with
      | .idle => ({ s with consumer := .loadHead }, none)
      | _ => (s, none)
  | .produce =>
      let r := s.queue.produce s.producer
      ({ s with queue := r.1, producer := r.2.1 }, r.2.2)
  | .consume =>
      let r := s.queue.consume s.consumer
      ({ s with queue := r.1, consumer := r.2.1 }, r.2.2)

/-- What actions do one after the other, with all that returns. -/
def run (s : Spsc α) : List (Action α) → Spsc α × List (Event α)
  | [] => (s, [])
  | a :: actions =>
      let r := s.step a
      let rs := run r.1 actions
      (rs.1, r.2.toList ++ rs.2)

/-- The number of calls. -/
def calls (actions : List (Action α)) : ℕ :=
  actions.countP fun
    | .tryPush _ | .tryPop => true
    | .produce | .consume => false

/-- The values whose push has succeeded. -/
def pushed (events : List (Event α)) : List α :=
  events.filterMap fun
    | .pushed value => some value
    | _ => none

/-- What pops have returned that found the queue not empty. -/
def popped (events : List (Event α)) : List (Option α) :=
  events.filterMap fun
    | .popped result => some result
    | _ => none

/-! ### The buffer -/

section Stores

variable {q : SpscQueue α} {start : UInt64} {contents : List α}

/-- The buffer holds values from a position on, and nothing else. -/
def Stores (q : SpscQueue α) (start : UInt64) (contents : List α) : Prop :=
  ∀ i < q.capacity.toNat, q.buffer ((start + UInt64.ofNat i) &&& q.mask) = contents[i]?

/-- A value is put behind the others. -/
theorem Stores.write (h : Stores q start contents) (hpow : IsPow2 q.capacity)
    (hmask : q.mask = q.capacity - 1) (hlen : contents.length < q.capacity.toNat) {pos : UInt64}
    (hpos : pos = start + UInt64.ofNat contents.length) (value : α) :
  q.buffer (pos &&& q.mask) = none
    ∧ Stores { q with buffer := Function.update q.buffer (pos &&& q.mask) (some value) } start
      (contents ++ [value])
  := by
  subst hpos
  constructor
  · rw [h _ hlen, List.getElem?_eq_none le_rfl]
  · intro i hi
    change i < q.capacity.toNat at hi
    change Function.update q.buffer _ _ _ = _
    rw [Function.update_apply]
    simp only [hmask, hpow.add_and_mask_eq_iff, Nat.mod_eq_of_lt hi, Nat.mod_eq_of_lt hlen]
    by_cases hic : i = contents.length
    · rw [if_pos hic, hic, List.getElem?_concat_length]
    · rw [if_neg hic, getElem?_concat_of_ne hic, ← h i hi, hmask]

/-- The first value is taken. -/
theorem Stores.read {value : α} (h : Stores q start (value :: contents))
    (hpow : IsPow2 q.capacity) (hmask : q.mask = q.capacity - 1)
    (hlen : contents.length < q.capacity.toNat) :
  q.buffer (start &&& q.mask) = some value
    ∧ Stores { q with buffer := Function.update q.buffer (start &&& q.mask) none } (start + 1)
      contents
  := by
  constructor
  · have hfirst := h 0 hpow.pos
    rwa [add_ofNat_zero] at hfirst
  · intro i hi
    change i < q.capacity.toNat at hi
    change Function.update q.buffer _ _ _ = _
    have hstart := hpow.add_and_mask_eq_iff start (i := i + 1) (j := 0)
    rw [add_ofNat_zero, Nat.zero_mod, ← hmask] at hstart
    rw [Function.update_apply]
    change (if (start + 1 + UInt64.ofNat i) &&& q.mask = _ then none else _) = _
    simp only [← add_ofNat_succ, hstart]
    by_cases hlast : i + 1 = q.capacity.toNat
    · rw [if_pos (by rw [hlast, Nat.mod_self]), List.getElem?_eq_none (by omega)]
    · have hlt : i + 1 < q.capacity.toNat := by omega
      rw [if_neg (by rw [Nat.mod_eq_of_lt hlt]; omega), h _ hlt, List.getElem?_cons_succ]

end Stores

/-! ### The invariant -/

/-- A value that is in the buffer although its push has not returned. -/
def pending : Producer α → List α
  | .storeTail value _ => [value]
  | _ => []

/-- The number of values that have left the buffer although their pop has not returned. -/
def ahead : Consumer α → ℕ
  | .storeHead .. => 1
  | _ => 0

/-- What the producer knows, which is in its `n`-th call or between calls. -/
def ProducerFits (q : SpscQueue α) (n : ℕ) : Producer α → Prop
  | .idle => q.tail.toNat ≤ n
  | .loadTail _ => q.tail.toNat < n
  | .loadHead _ tail => tail = q.tail ∧ q.tail.toNat < n
  | .write _ tail | .storeTail _ tail =>
      tail = q.tail ∧ q.tail.toNat < n ∧ q.tail.toNat < q.head.toNat + q.capacity.toNat

/-- What the consumer knows. -/
def ConsumerFits (q : SpscQueue α) (pushed : List α) : Consumer α → Prop
  | .idle | .loadHead => True
  | .loadTail head => head = q.head
  | .read head => head = q.head ∧ q.head.toNat < q.tail.toNat
  | .storeHead head result =>
      head = q.head ∧ q.head.toNat < q.tail.toNat ∧ result = pushed[q.head.toNat]?

/-- After at most `n` calls some values have been pushed and some popped. -/
structure Inv (q : SpscQueue α) (p : Producer α) (c : Consumer α) (pushed : List α)
    (popped : List (Option α)) (n : ℕ) : Prop where
  pow2 : IsPow2 q.capacity
  mask : q.mask = q.capacity - 1
  head : q.head.toNat = popped.length
  tail : q.tail.toNat = pushed.length
  headCached_le : q.headCached.toNat ≤ q.head.toNat
  tailCached_le : q.tailCached.toNat ≤ q.tail.toNat
  head_le : q.head.toNat ≤ q.tail.toNat
  tail_le : q.tail.toNat ≤ q.head.toNat + q.capacity.toNat
  values : popped <+: pushed.map some
  stores : Stores q (q.head + UInt64.ofNat (ahead c))
    (pushed.drop (q.head.toNat + ahead c) ++ pending p)
  producer : ProducerFits q n p
  consumer : ConsumerFits q pushed c

namespace Inv

variable {q : SpscQueue α} {p : Producer α} {c : Consumer α} {P : List α} {R : List (Option α)}
  {n : ℕ}

theorem head_add_ahead_le (h : Inv q p c P R n) :
  q.head.toNat + ahead c ≤ q.tail.toNat
  := by
  have hle := h.head_le
  have hfits := h.consumer
  cases c with
  | storeHead head result => exact hfits.2.1
  | _ => exact hle

theorem toNat_succ {pos : UInt64} (h : pos.toNat + 1 < 2 ^ 64) :
  (pos + 1).toNat = pos.toNat + 1
  := by
  rw [UInt64.toNat_add]
  exact Nat.mod_eq_of_lt h

/-- The difference that the producer computes. -/
theorem toNat_distance (h : Inv q p c P R n) (hlt : q.tail.toNat + 1 < 2 ^ 64) {cached : UInt64}
    (hcached : cached.toNat ≤ q.head.toNat) :
  (q.tail + 1 - cached).toNat = q.tail.toNat + 1 - cached.toNat
  := by
  have hle := h.head_le
  rw [UInt64.toNat_sub_of_le, toNat_succ hlt]
  rw [UInt64.le_iff_toNat_le, toNat_succ hlt]
  omega

/-- The value that the producer writes goes behind those that are in the buffer. -/
theorem write {value : α} {tail : UInt64} (h : Inv q (.write value tail) c P R n) :
  q.buffer (tail &&& q.mask) = none
    ∧ Inv { q with buffer := Function.update q.buffer (tail &&& q.mask) (some value) }
      (.storeTail value tail) c P R n
  := by
  obtain ⟨rfl, hfits, hroom⟩ := h.producer
  have hahead := h.head_add_ahead_le
  have hlen : (P.drop (q.head.toNat + ahead c)).length
      = q.tail.toNat - (q.head.toNat + ahead c) := by
    rw [List.length_drop, h.tail]
  have hstores : Stores q _ (P.drop (q.head.toNat + ahead c) ++ []) := h.stores
  rw [List.append_nil] at hstores
  have hpos : q.tail = q.head + UInt64.ofNat (ahead c)
      + UInt64.ofNat (P.drop (q.head.toNat + ahead c)).length := by
    have hsum : q.tail.toNat
        = q.head.toNat + ahead c + (P.drop (q.head.toNat + ahead c)).length := by omega
    calc q.tail
        = UInt64.ofNat q.tail.toNat := UInt64.ofNat_toNat.symm
      _ = UInt64.ofNat (q.head.toNat + ahead c + (P.drop (q.head.toNat + ahead c)).length) := by
          rw [hsum]
      _ = _ := by rw [UInt64.ofNat_add, UInt64.ofNat_add, UInt64.ofNat_toNat]
  obtain ⟨hnone, hwrite⟩ := hstores.write h.pow2 h.mask (by omega) hpos value
  exact ⟨hnone, { h with stores := hwrite, producer := ⟨rfl, hfits, hroom⟩ }⟩

/-- A push returns. -/
theorem storeTail {value : α} {tail : UInt64} (h : Inv q (.storeTail value tail) c P R n)
    (hn : n < 2 ^ 64) :
  Inv { q with tail := tail + 1 } .idle c (P ++ [value]) R n
  := by
  obtain ⟨rfl, hfits, hroom⟩ := h.producer
  have hsucc : (q.tail + 1).toNat = q.tail.toNat + 1 := toNat_succ (by omega)
  have hahead := h.head_add_ahead_le
  refine ⟨h.pow2, h.mask, h.head, ?_, h.headCached_le, ?_, ?_, ?_, ?_, ?_, ?_, ?_⟩
  · rw [List.length_append, List.length_singleton, ← h.tail, hsucc]
  · exact h.tailCached_le.trans (by simp only [hsucc]; omega)
  · exact h.head_le.trans (by simp only [hsucc]; omega)
  · simp only [hsucc]
    exact hroom
  · rw [List.map_append]
    exact h.values.trans (List.prefix_append _ _)
  · change Stores q _ ((P ++ [value]).drop (q.head.toNat + ahead c) ++ [])
    rw [List.drop_append_of_le_length (by rw [← h.tail]; exact hahead), List.append_nil]
    exact h.stores
  · change (q.tail + 1).toNat ≤ n
    omega
  · have hconsumer := h.consumer
    cases c with
    | idle | loadHead | loadTail => exact hconsumer
    | read head => exact ⟨hconsumer.1, hconsumer.2.trans (by simp only [hsucc]; omega)⟩
    | storeHead head result =>
        obtain ⟨rfl, hlt, rfl⟩ := hconsumer
        refine ⟨rfl, hlt.trans (by simp only [hsucc]; omega), ?_⟩
        rw [List.getElem?_append_left (by rw [← h.tail]; exact hlt)]

/-- Nothing returns. -/
theorem silent (h : Inv q p c P R n) :
  Inv q p c (P ++ []) (R ++ []) n
  := by
  rwa [List.append_nil, List.append_nil]

/-- A step of the producer, and when it returns `false`. -/
theorem produce (h : Inv q p c P R n) (hn : n < 2 ^ 64) :
  Inv (q.produce p).1 (q.produce p).2.1 c (P ++ pushed (q.produce p).2.2.toList)
      (R ++ popped (q.produce p).2.2.toList) n
    ∧ ∀ value, (q.produce p).2.2 = some (.full value) →
      P.length = R.length + q.capacity.toNat
  := by
  have hfits := h.producer
  have hle := h.tail_le
  cases p with
  | idle => exact ⟨h.silent, nofun⟩
  | loadTail value =>
      have hcached := h.headCached_le
      have hdistance := h.toNat_distance (lt_of_le_of_lt hfits hn) h.headCached_le
      rw [SpscQueue.produce]
      split
      · exact ⟨silent { h with producer := ⟨rfl, hfits⟩ }, nofun⟩
      · rename_i hroom
        rw [UInt64.lt_iff_toNat_lt, hdistance] at hroom
        have hroom' : q.tail.toNat < q.head.toNat + q.capacity.toNat := by omega
        exact ⟨silent { h with producer := ⟨rfl, hfits, hroom'⟩ }, nofun⟩
  | loadHead value tail =>
      obtain ⟨rfl, hfits⟩ := hfits
      have hdistance := h.toNat_distance (lt_of_le_of_lt hfits hn) le_rfl
      have hheadle := h.head_le
      rw [SpscQueue.produce]
      split
      · rename_i hfull
        rw [UInt64.lt_iff_toNat_lt, hdistance] at hfull
        constructor
        · exact silent { h with producer := hfits.le, headCached_le := le_rfl }
        · intro _ _
          rw [← h.tail, ← h.head]
          omega
      · rename_i hroom
        rw [UInt64.lt_iff_toNat_lt, hdistance] at hroom
        have hroom' : q.tail.toNat < q.head.toNat + q.capacity.toNat := by omega
        exact ⟨silent { h with producer := ⟨rfl, hfits, hroom'⟩, headCached_le := le_rfl }, nofun⟩
  | write value tail => exact ⟨silent h.write.2, nofun⟩
  | storeTail value tail =>
      refine ⟨?_, nofun⟩
      change Inv { q with tail := tail + 1 } .idle c (P ++ [value]) (R ++ []) n
      rw [List.append_nil]
      exact h.storeTail hn

/-- The consumer reads the next value. -/
theorem read {head : UInt64} (h : Inv q p (.read head) P R n) :
  q.buffer (head &&& q.mask) = P[q.head.toNat]?
    ∧ Inv { q with buffer := Function.update q.buffer (head &&& q.mask) none } p
      (.storeHead head (q.buffer (head &&& q.mask))) P R n
  := by
  obtain ⟨rfl, hlt⟩ := h.consumer
  have hle := h.tail_le
  have hlen : q.head.toNat < P.length := by
    rw [← h.tail]
    exact hlt
  have hstores : Stores q (q.head + UInt64.ofNat 0) (P.drop q.head.toNat ++ pending p) := h.stores
  rw [add_ofNat_zero, List.drop_eq_getElem_cons hlen, List.cons_append] at hstores
  have hroom : (P.drop (q.head.toNat + 1) ++ pending p).length < q.capacity.toNat := by
    have hproducer := h.producer
    rw [List.length_append, List.length_drop, ← h.tail]
    cases p with
    | storeTail value tail =>
        have hroom := hproducer.2.2
        simp only [pending, List.length_singleton]
        omega
    | _ =>
        simp only [pending, List.length_nil]
        omega
  obtain ⟨hsome, hread⟩ := hstores.read h.pow2 h.mask hroom
  have hvalue : q.buffer (q.head &&& q.mask) = P[q.head.toNat]? := by
    rw [hsome, List.getElem?_eq_getElem hlen]
  refine ⟨hvalue, { h with stores := hread, consumer := ⟨rfl, hlt, hvalue⟩, producer := ?_ }⟩
  have hproducer := h.producer
  cases p <;> exact hproducer

/-- A pop returns a value. -/
theorem storeHead {head : UInt64} {result : Option α} (h : Inv q p (.storeHead head result) P R n) :
  Inv { q with head := head + 1 } p .idle P (R ++ [result]) n
  := by
  obtain ⟨rfl, hlt, rfl⟩ := h.consumer
  have hsucc : (q.head + 1).toNat = q.head.toNat + 1 := by
    apply toNat_succ
    have := q.tail.toNat_lt
    omega
  have hlen : q.head.toNat < P.length := by
    rw [← h.tail]
    exact hlt
  refine ⟨h.pow2, h.mask, ?_, h.tail, ?_, h.tailCached_le, ?_, ?_, ?_, ?_, ?_, trivial⟩
  · rw [List.length_append, List.length_singleton, ← h.head, hsucc]
  · exact h.headCached_le.trans (by simp only [hsucc]; omega)
  · simp only [hsucc]
    exact hlt
  · exact h.tail_le.trans (by simp only [hsucc]; omega)
  · -- What was returned is the next of the values that were pushed.
    have hvalues := List.prefix_iff_eq_take.mp h.values
    have hnext : R ++ [P[q.head.toNat]?] = (P.map some).take (q.head.toNat + 1) := by
      rw [List.take_add_one, h.head, ← hvalues, ← h.head, List.getElem?_map,
        List.getElem?_eq_getElem hlen]
      rfl
    rw [hnext]
    apply List.take_prefix
  · change Stores q (q.head + 1 + UInt64.ofNat 0) (P.drop ((q.head + 1).toNat + 0) ++ pending p)
    rw [add_ofNat_zero, Nat.add_zero, hsucc]
    exact h.stores
  · have hproducer := h.producer
    cases p with
    | idle | loadTail | loadHead => exact hproducer
    | write | storeTail =>
        exact ⟨hproducer.1, hproducer.2.1, hproducer.2.2.trans (by simp only [hsucc]; omega)⟩

/-- A step of the consumer, and when it returns `nullopt`. -/
theorem consume (h : Inv q p c P R n) :
  Inv (q.consume c).1 p (q.consume c).2.1 (P ++ pushed (q.consume c).2.2.toList)
      (R ++ popped (q.consume c).2.2.toList) n
    ∧ ((q.consume c).2.2 = some .empty → P.length = R.length)
  := by
  have hfits := h.consumer
  have hcached := h.tailCached_le
  cases c with
  | idle => exact ⟨h.silent, nofun⟩
  | loadHead =>
      rw [SpscQueue.consume]
      split
      · exact ⟨silent { h with consumer := rfl }, nofun⟩
      · rename_i hlt
        rw [UInt64.le_iff_toNat_le] at hlt
        have hlt' : q.head.toNat < q.tail.toNat := by omega
        exact ⟨silent { h with consumer := ⟨rfl, hlt'⟩ }, nofun⟩
  | loadTail head =>
      obtain rfl : head = q.head := hfits
      have hle := h.head_le
      rw [SpscQueue.consume]
      split
      · rename_i hempty
        rw [UInt64.le_iff_toNat_le] at hempty
        constructor
        · exact silent { h with consumer := trivial, tailCached_le := le_rfl }
        · intro _
          rw [← h.tail, ← h.head]
          omega
      · rename_i hlt
        rw [UInt64.le_iff_toNat_le] at hlt
        have hlt' : q.head.toNat < q.tail.toNat := by omega
        exact ⟨silent { h with consumer := ⟨rfl, hlt'⟩, tailCached_le := le_rfl }, nofun⟩
  | read head => exact ⟨silent h.read.2, nofun⟩
  | storeHead head result =>
      refine ⟨?_, nofun⟩
      change Inv { q with head := head + 1 } p .idle (P ++ []) (R ++ [result]) n
      rw [List.append_nil]
      exact h.storeHead

/-- A call is counted, whether or not it is made. -/
theorem count (h : Inv q p c P R n) :
  Inv q p c P R (n + 1)
  := by
  refine { h with producer := ?_ }
  have hproducer := h.producer
  cases p with
  | idle => exact Nat.le_succ_of_le hproducer
  | loadTail => exact Nat.lt_succ_of_lt hproducer
  | loadHead => exact ⟨hproducer.1, Nat.lt_succ_of_lt hproducer.2⟩
  | write | storeTail => exact ⟨hproducer.1, Nat.lt_succ_of_lt hproducer.2.1, hproducer.2.2⟩

/-- The invariant is preserved. -/
theorem step {s : Spsc α} (h : Inv s.queue s.producer s.consumer P R n) (a : Action α)
    (hn : n + calls [a] < 2 ^ 64) :
  Inv (s.step a).1.queue (s.step a).1.producer (s.step a).1.consumer
    (P ++ pushed (s.step a).2.toList) (R ++ popped (s.step a).2.toList) (n + calls [a])
  := by
  obtain ⟨q, p, c⟩ := s
  cases a with
  | tryPush value =>
      have hcount := h.count
      cases p with
      | idle =>
          exact silent { hcount with producer := Nat.lt_succ_of_le h.producer }
      | loadTail | loadHead | write | storeTail => exact hcount.silent
  | tryPop =>
      have hcount := h.count
      cases c with
      | idle =>
          exact silent { hcount with consumer := trivial }
      | loadHead | loadTail | read | storeHead => exact hcount.silent
  | produce => exact (h.produce hn).1
  | consume => exact h.consume.1

/-- The invariant holds all the time. -/
theorem run {s : Spsc α} (h : Inv s.queue s.producer s.consumer P R n)
    (actions : List (Action α)) (hn : n + calls actions < 2 ^ 64) :
  Inv (s.run actions).1.queue (s.run actions).1.producer (s.run actions).1.consumer
    (P ++ pushed (s.run actions).2) (R ++ popped (s.run actions).2) (n + calls actions)
  := by
  induction actions generalizing s P R n with
  | nil => exact h.silent
  | cons a actions ih =>
      have hcalls : calls (a :: actions) = calls [a] + calls actions := by
        rw [← List.singleton_append]
        apply List.countP_append
      rw [hcalls, ← Nat.add_assoc] at hn ⊢
      have hrun := ih (h.step a (by omega)) hn
      rw [List.append_assoc, List.append_assoc] at hrun
      rw [Spsc.run, pushed, popped, List.filterMap_append, List.filterMap_append]
      exact hrun

/-- A new queue. -/
theorem of_construct {requested : UInt64} (hq : construct requested = some q) :
  Inv q .idle .idle [] [] 0
  := by
  obtain ⟨c, hc, rfl⟩ := Option.map_eq_some_iff.mp hq
  refine ⟨IsPow2.of_roundUpPow2 hc, rfl, rfl, rfl, le_rfl, le_rfl, le_rfl, Nat.zero_le _,
    List.nil_prefix, ?_, le_rfl, trivial⟩
  intro i _
  rfl

end Inv

/-- The capacity does not change. -/
theorem run_capacity (s : Spsc α) (actions : List (Action α)) :
  (s.run actions).1.queue.capacity = s.queue.capacity
  := by
  have hproduce : ∀ (q : SpscQueue α) p, (q.produce p).1.capacity = q.capacity := by
    intro q p
    cases p <;> simp only [SpscQueue.produce] <;> split <;> rfl
  have hconsume : ∀ (q : SpscQueue α) c, (q.consume c).1.capacity = q.capacity := by
    intro q c
    cases c <;> simp only [SpscQueue.consume] <;> split <;> rfl
  induction actions generalizing s with
  | nil => rfl
  | cons a actions ih =>
      rw [run, ih]
      cases a with
      | tryPush => rw [step]; split <;> rfl
      | tryPop => rw [step]; split <;> rfl
      | produce => exact hproduce _ _
      | consume => exact hconsume _ _

end Spsc

end Queue
