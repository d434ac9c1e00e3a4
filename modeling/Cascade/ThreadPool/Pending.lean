import Cascade.ThreadPool.Execution

/-!
# The counter of pending tasks

The pool with its counter `pending_`, an unsigned number of 64 bits. A submit that has put its task
into the queue adds one, and a worker that has taken a task from the queue subtracts one. Both are
steps of their own, after the step on the queue. Apart from that, a run is one of the pool
(`uncounted_run`).

So a worker may subtract one for a task before its submit has added one (`pending_underflows`). The
counter stays within its bounds exactly if at no time more additions are due than there are tasks in
the queue and subtractions due (`pending_bounded_iff`).
-/

namespace ThreadPool

open Concurrent

/-! ### The code -/

/-- What is due on the counter. -/
inductive Update where
  | increment
  | decrement
deriving DecidableEq

/-- The pool with its counter. How many threads outside have an addition due, and so have not yet
returned from `submit`, is not in the source. -/
structure CountedPool where
  pool : Pool
  pending : UInt64
  updating : ℕ

/-- A thread, with what it has to do on the counter before it goes on. -/
structure CountedThread where
  thread : Thread
  due : Option Update
deriving DecidableEq

/-- What a step of a thread makes due: a push or a pop that succeeds. -/
def Thread.dueAfter (p : Pool) (t : Thread) : Option Update :=
  match t.frames, t.base with
  | .submit _ attempt :: _, _ =>
      if attempt < kMaxRetries ∧ p.queue.length < p.capacity then some .increment else none
  | [], .popping => if p.queue = [] then none else some .decrement
  | _, _ => none

/-- Threads outside that have an addition due. -/
def CountedThread.isUpdating (t : CountedThread) : Bool :=
  t.thread.base = .submitter ∧ t.due = some .increment

/-- A step of a thread. The destructor starts after all submits outside have returned. -/
def CountedThread.advance (choice : Choice) (m : CountedPool) (t : CountedThread) :
    CountedPool × CountedThread :=
  match t.due with
  | some .increment =>
      ({ m with
          pending := m.pending + 1
          updating := if t.isUpdating then m.updating - 1 else m.updating },
        { t with due := none })
  | some .decrement => ({ m with pending := m.pending - 1 }, { t with due := none })
  | none =>
      if t.thread.base = .destructor ∧ m.updating ≠ 0 then (m, t)
      else
        let r := t.thread.advance choice m.pool
        let t' : CountedThread := ⟨r.2, t.thread.dueAfter m.pool⟩
        ({ m with
            pool := r.1
            updating := if t'.isUpdating then m.updating + 1 else m.updating }, t')

variable {t : CountedThread}

/-- An update is a step of its own. -/
theorem CountedThread.advance_update {update : Update} (choice : Choice) (m : CountedPool)
    (h : t.due = some update) :
  (t.advance choice m).1.pool = m.pool ∧ (t.advance choice m).2.due = none
  := by
  rw [advance, h]
  cases update with
  | increment => exact ⟨rfl, rfl⟩
  | decrement => exact ⟨rfl, rfl⟩

def countedProtocol : Protocol CountedPool Party Choice CountedThread where
  start party := ⟨protocol.start party, none⟩
  advance := CountedThread.advance

/-- The constructor. -/
def makeCounted (threadCount queueCapacity : ℕ) : Concurrent CountedPool CountedThread where
  memory := ⟨(make threadCount queueCapacity).memory, 0, 0⟩
  ops := (make threadCount queueCapacity).ops.map fun t => ⟨t, none⟩

/-- The pool without its counter. -/
def uncounted (s : Concurrent CountedPool CountedThread) : Concurrent Pool Thread :=
  ⟨s.memory.pool, s.ops.map CountedThread.thread⟩

variable {s : Concurrent CountedPool CountedThread}

theorem uncounted_getElem? {k : ℕ} (hop : s.ops[k]? = some t) :
  (uncounted s).ops[k]? = some t.thread
  := by
  rw [uncounted, List.getElem?_map, hop]
  rfl

/-- Steps that are only on the counter. -/
theorem uncounted_set {k : ℕ} {t t' : CountedThread} {m : CountedPool} (hop : s.ops[k]? = some t)
    (hm : m.pool = s.memory.pool) (ht' : t'.thread = t.thread) :
  uncounted ⟨m, s.ops.set k t'⟩ = uncounted s
  := by
  have hthread := uncounted_getElem? hop
  rw [uncounted] at hthread
  rw [uncounted, uncounted, hm, List.map_set, ht', set_of_getElem? hthread]

/-- A run with the counter is a run of the pool. -/
theorem uncounted_run (threadCount queueCapacity : ℕ) (actions : List (Action Party Choice)) :
  ∃ actions', uncounted (run countedProtocol (makeCounted threadCount queueCapacity) actions)
    = run protocol (make threadCount queueCapacity) actions'
  := by
  apply run_induction (P := fun s => ∃ actions', uncounted s
    = run protocol (make threadCount queueCapacity) actions')
  · rintro s c ⟨actions', h⟩
    refine ⟨actions' ++ [Action.call c], ?_⟩
    rw [run_concat, ← h]
    simp only [uncounted, List.map_append]
    rfl
  · rintro s k t choice ⟨actions', h⟩ hop
    dsimp only [countedProtocol]
    rw [CountedThread.advance]
    split
    · exact ⟨actions', .trans (uncounted_set hop rfl rfl) h⟩
    · exact ⟨actions', .trans (uncounted_set hop rfl rfl) h⟩
    · split
      · exact ⟨actions', .trans (uncounted_set hop rfl rfl) h⟩
      · refine ⟨actions' ++ [Action.advance k choice], ?_⟩
        rw [run_concat, ← h, step, uncounted_getElem? hop]
        simp only [uncounted, List.map_set]
        rfl
  · refine ⟨[], ?_⟩
    simp only [uncounted, makeCounted, List.map_map]
    exact congrArg (Concurrent.mk _) (List.map_id _)

/-! ### What is due -/

/-- How many additions are due. -/
def increments (s : Concurrent CountedPool CountedThread) : ℕ :=
  (s.ops.map fun t => if t.due = some .increment then 1 else 0).sum

/-- How many subtractions are due. -/
def decrements (s : Concurrent CountedPool CountedThread) : ℕ :=
  (s.ops.map fun t => if t.due = some .decrement then 1 else 0).sum

/-- What changes in the numbers of the updates that are due when a thread goes on. -/
theorem due_set {k : ℕ} (hop : s.ops[k]? = some t) (m : CountedPool) (t' : CountedThread) :
  increments ⟨m, s.ops.set k t'⟩ + (if t.due = some .increment then 1 else 0)
      = increments s + (if t'.due = some .increment then 1 else 0)
    ∧ decrements ⟨m, s.ops.set k t'⟩ + (if t.due = some .decrement then 1 else 0)
      = decrements s + (if t'.due = some .decrement then 1 else 0)
  := ⟨sum_map_set hop _ t', sum_map_set hop _ t'⟩

/-- A thread of the pool. -/
def Base.IsWorker : Base → Prop
  | popping | checking | exited => True
  | submitter | destructor => False

instance : DecidablePred Base.IsWorker := fun base =>
  match base with
  | .popping | .checking | .exited => isTrue trivial
  | .submitter | .destructor => isFalse id

/-- A step on the queue makes an update due. -/
theorem queue_advance (choice : Choice) (p : Pool) (t : Thread) :
  (t.advance choice p).1.queue.length + (if t.dueAfter p = some .decrement then 1 else 0)
      = p.queue.length + (if t.dueAfter p = some .increment then 1 else 0)
    ∧ (t.advance choice p).1.capacity = p.capacity
    ∧ (p.queue.length ≤ p.capacity → (t.advance choice p).1.queue.length ≤ p.capacity)
    ∧ ((t.advance choice p).2.base.IsWorker ↔ t.base.IsWorker)
    ∧ (t.dueAfter p = some .decrement → t.base.IsWorker)
  := by
  obtain ⟨base, frames⟩ := t
  cases frames with
  | cons frame frames =>
      cases frame with
      | submit task attempt =>
          simp only [Thread.advance, Thread.dueAfter]
          by_cases hattempt : attempt < kMaxRetries
          · by_cases hroom : p.queue.length < p.capacity
            · simp only [hattempt, hroom, if_true, and_self, Pool.leave, List.length_append,
                List.length_singleton]
              refine ⟨rfl, trivial, fun _ => hroom, trivial, by rintro ⟨⟩⟩
            · simp [hattempt, hroom]
          · simp [hattempt]
      | run task inline =>
          cases choice with
          | submit => simp [Thread.advance, Thread.dueAfter, Pool.enter]
          | finish => cases inline <;> simp [Thread.advance, Thread.dueAfter, Pool.leave]
  | nil =>
      cases base with
      | submitter =>
          cases choice with
          | submit =>
              cases hstop : p.stop <;> simp [Thread.advance, Thread.dueAfter, Pool.enter, hstop]
          | finish => simp [Thread.advance, Thread.dueAfter]
      | destructor =>
          by_cases houtside : p.outside = 0 <;> simp [Thread.advance, Thread.dueAfter, houtside]
      | popping =>
          cases hqueue : p.queue with
          | nil => simp [Thread.advance, Thread.dueAfter, hqueue, Base.IsWorker]
          | cons task queue =>
              simp only [Thread.advance, Thread.dueAfter, hqueue, Base.IsWorker]
              simp
              omega
      | checking =>
          cases hstop : p.stop <;> simp [Thread.advance, Thread.dueAfter, hstop, Base.IsWorker]
      | exited => simp [Thread.advance, Thread.dueAfter]

/-- The queue is not longer than its capacity, the workers are those of the constructor, and only
they have a subtraction due. -/
structure Bounded (workers capacity : ℕ) (s : Concurrent CountedPool CountedThread) : Prop where
  capacity_eq : s.memory.pool.capacity = capacity
  length_le : s.memory.pool.queue.length ≤ capacity
  workers_eq : (s.ops.map fun t => if t.thread.base.IsWorker then 1 else 0).sum = workers
  isWorker : ∀ t ∈ s.ops, t.due = some .decrement → t.thread.base.IsWorker

/-- The number of workers that the constructor starts. -/
def workerCount (threadCount : ℕ) : ℕ := if threadCount = 0 then 1 else threadCount

namespace Bounded

variable {workers capacity : ℕ} {s : Concurrent CountedPool CountedThread}

theorem make (threadCount queueCapacity : ℕ) :
  Bounded (workerCount threadCount) queueCapacity (makeCounted threadCount queueCapacity)
  where
  capacity_eq := rfl
  length_le := Nat.zero_le _
  workers_eq := by
    simp only [makeCounted, ThreadPool.make, List.map_replicate, List.sum_replicate_nat]
    exact Nat.mul_one _
  isWorker := by
    intro t ht hdue
    obtain ⟨t', -, rfl⟩ := List.mem_map.mp ht
    cases hdue

theorem call (h : Bounded workers capacity s) (party : Party) :
  Bounded workers capacity { s with ops := s.ops ++ [countedProtocol.start party] }
  where
  capacity_eq := h.capacity_eq
  length_le := h.length_le
  workers_eq := by
    rw [List.map_append, List.sum_append, h.workers_eq]
    cases party <;> rfl
  isWorker := by
    intro t ht hdue
    rcases List.mem_append.mp ht with ht | ht
    · exact h.isWorker t ht hdue
    · rw [List.mem_singleton.mp ht] at hdue
      cases hdue

/-- A thread goes on. -/
theorem set (h : Bounded workers capacity s) {k : ℕ} {t t' : CountedThread} {m : CountedPool}
    (hop : s.ops[k]? = some t) (hcapacity : m.pool.capacity = s.memory.pool.capacity)
    (hlength : m.pool.queue.length ≤ s.memory.pool.capacity)
    (hbase : t'.thread.base.IsWorker ↔ t.thread.base.IsWorker)
    (hdue : t'.due = some .decrement → t'.thread.base.IsWorker) :
  Bounded workers capacity ⟨m, s.ops.set k t'⟩
  where
  capacity_eq := hcapacity.trans h.capacity_eq
  length_le := h.capacity_eq ▸ hlength
  workers_eq := by
    have hsum := sum_map_set hop (fun t => if t.thread.base.IsWorker then 1 else 0) t'
    simp only [hbase, h.workers_eq] at hsum
    exact Nat.add_right_cancel hsum
  isWorker := by
    intro u hu hdue'
    rcases List.mem_or_eq_of_mem_set hu with hu | rfl
    · exact h.isWorker u hu hdue'
    · exact hdue hdue'

theorem advance (h : Bounded workers capacity s) {k : ℕ} (hop : s.ops[k]? = some t)
    (choice : Choice) :
  Bounded workers capacity
    ⟨(t.advance choice s.memory).1, s.ops.set k (t.advance choice s.memory).2⟩
  := by
  have hlength : s.memory.pool.queue.length ≤ s.memory.pool.capacity :=
    h.capacity_eq ▸ h.length_le
  rw [CountedThread.advance]
  split
  · exact h.set hop rfl hlength Iff.rfl (by rintro ⟨⟩)
  · exact h.set hop rfl hlength Iff.rfl (by rintro ⟨⟩)
  · split
    · exact h.set hop rfl hlength Iff.rfl (h.isWorker t (List.mem_of_getElem? hop))
    · obtain ⟨-, hcapacity, hroom, hbase, hdue⟩ := queue_advance choice s.memory.pool t.thread
      exact h.set hop hcapacity (hroom hlength) hbase fun h => hbase.mpr (hdue h)

theorem run (threadCount queueCapacity : ℕ) (actions : List (Action Party Choice)) :
  Bounded (workerCount threadCount) queueCapacity
    (run countedProtocol (makeCounted threadCount queueCapacity) actions)
  := run_induction (fun _ party h => h.call party) (fun _ _ _ choice h hop => h.advance hop choice)
    (make threadCount queueCapacity) actions

/-- A worker has at most one subtraction due. -/
theorem decrements_le (h : Bounded workers capacity s) :
  decrements s ≤ workers
  := by
  rw [← h.workers_eq]
  apply List.sum_le_sum
  intro t ht
  split
  · next hdue => rw [if_pos (h.isWorker t ht hdue)]
  · exact Nat.zero_le _

end Bounded

/-! ### The counter -/

/-- The counter leaves its range. -/
def Update.Wraps (pending : UInt64) : Update → Prop
  | increment => pending + 1 = 0
  | decrement => pending = 0

instance (pending : UInt64) (update : Update) : Decidable (update.Wraps pending) :=
  match update with
  | .increment => inferInstanceAs (Decidable (pending + 1 = 0))
  | .decrement => inferInstanceAs (Decidable (pending = 0))

theorem Update.toNat_increment {pending : UInt64} (h : ¬ increment.Wraps pending) :
  (pending + 1).toNat = pending.toNat + 1
  := by
  have hlt := pending.toNat_lt
  rw [Wraps, ← UInt64.toNat_inj] at h
  rw [UInt64.toNat_add] at h ⊢
  simp at h ⊢
  omega

theorem Update.toNat_of_increment {pending : UInt64} (h : increment.Wraps pending) :
  pending.toNat + 1 = 2 ^ 64
  := by
  have hlt := pending.toNat_lt
  rw [Wraps, ← UInt64.toNat_inj, UInt64.toNat_add] at h
  simp at h
  omega

theorem Update.toNat_decrement {pending : UInt64} (h : ¬ decrement.Wraps pending) :
  (pending - 1).toNat + 1 = pending.toNat
  := by
  rw [Wraps, ← UInt64.toNat_inj] at h
  have hpositive : 0 < pending.toNat := Nat.pos_of_ne_zero h
  rw [UInt64.toNat_sub_of_le]
  · apply Nat.sub_add_cancel hpositive
  · exact UInt64.le_iff_toNat_le.mpr hpositive

/-- The action is an update with which the counter leaves its range. -/
def Wraps (s : Concurrent CountedPool CountedThread) : Action Party Choice → Prop
  | .call _ => False
  | .advance k _ => ∃ update ∈ s.ops[k]?.bind CountedThread.due, update.Wraps s.memory.pending

instance (s : Concurrent CountedPool CountedThread) (a : Action Party Choice) :
    Decidable (Wraps s a) :=
  match a with
  | .call _ => isFalse id
  | .advance k _ =>
      inferInstanceAs (Decidable (∃ update ∈ s.ops[k]?.bind CountedThread.due,
        update.Wraps s.memory.pending))

/-- The calls of `submit` that a thread is in. -/
def CountedThread.submits (t : CountedThread) : ℕ :=
  t.thread.frames.countP (fun frame => match frame with
    | .submit _ _ | .run _ true => true
    | .run _ false => false)
  + if t.due = some .increment then 1 else 0

/-- The calls of `submit` in flight. -/
def submitters (s : Concurrent CountedPool CountedThread) : ℕ :=
  (s.ops.map CountedThread.submits).sum

/-- The counter, with the additions that are due, is the number of the tasks in the queue and of the
subtractions that are due. -/
def Counts (s : Concurrent CountedPool CountedThread) : Prop :=
  s.memory.pending.toNat + increments s = s.memory.pool.queue.length + decrements s

/-- What the counter should be is in its range. -/
def InRange (s : Concurrent CountedPool CountedThread) : Prop :=
  increments s ≤ s.memory.pool.queue.length + decrements s
    ∧ s.memory.pool.queue.length + decrements s < increments s + 2 ^ 64

namespace Counts

variable {s : Concurrent CountedPool CountedThread}

theorem make (threadCount queueCapacity : ℕ) :
  Counts (makeCounted threadCount queueCapacity)
  := by
  have hnone : ∀ update : Update, ((makeCounted threadCount queueCapacity).ops.map
      fun t => if t.due = some update then 1 else 0).sum = 0 := by
    intro update
    simp [makeCounted, ThreadPool.make]
  rw [Counts, increments, decrements, hnone, hnone]
  rfl

theorem inRange (h : Counts s) :
  InRange s
  := by
  have hpending := s.memory.pending.toNat_lt
  rw [Counts] at h
  constructor
  · omega
  · omega

theorem call (h : Counts s) (party : Party) :
  Counts { s with ops := s.ops ++ [countedProtocol.start party] }
  := by
  simpa [Counts, increments, decrements, countedProtocol] using h

/-- A thread goes on: what is due changes as the counter and the queue do. -/
theorem set (h : Counts s) {k : ℕ} {t t' : CountedThread} {m : CountedPool}
    (hop : s.ops[k]? = some t)
    (hm : m.pending.toNat + (if t'.due = some .increment then 1 else 0)
        + (s.memory.pool.queue.length + if t.due = some .decrement then 1 else 0)
      = s.memory.pending.toNat + (if t.due = some .increment then 1 else 0)
        + (m.pool.queue.length + if t'.due = some .decrement then 1 else 0)) :
  Counts ⟨m, s.ops.set k t'⟩
  := by
  obtain ⟨hincrements, hdecrements⟩ := due_set hop m t'
  rw [Counts] at h ⊢
  dsimp only
  omega

/-- The counter is exact as long as no update leaves its range. -/
theorem advance (h : Counts s) {k : ℕ} (hop : s.ops[k]? = some t) (choice : Choice)
    (hwraps : ∀ update, t.due = some update → ¬ update.Wraps s.memory.pending) :
  Counts ⟨(t.advance choice s.memory).1, s.ops.set k (t.advance choice s.memory).2⟩
  := by
  apply h.set hop
  rw [CountedThread.advance]
  split
  · next hdue =>
      simp [hdue, Update.toNat_increment (hwraps _ hdue)]
  · next hdue =>
      have hpending := Update.toNat_decrement (hwraps _ hdue)
      simp [hdue]
      omega
  · next hdue =>
      split
      · rfl
      · have hqueue := (queue_advance choice s.memory.pool t.thread).1
        simp [hdue]
        omega

theorem step (h : Counts s) {a : Action Party Choice} (ha : ¬ Wraps s a) :
  Counts (step countedProtocol s a)
  := by
  cases a with
  | call party => exact h.call party
  | advance k choice =>
      rw [Concurrent.step]
      split
      · exact h
      · next t hop =>
          apply h.advance hop choice
          intro update hdue hwraps
          apply ha ⟨update, _, hwraps⟩
          rw [hop]
          exact hdue

/-- An update with which the counter leaves its range shows in what is due. -/
theorem not_inRange (h : Counts s) {a : Action Party Choice} (ha : Wraps s a) :
  ¬ InRange (Concurrent.step countedProtocol s a)
  := by
  cases a with
  | call party => exact ha.elim
  | advance k choice =>
      obtain ⟨update, hupdate, hwraps⟩ := ha
      obtain ⟨t, hop, hdue⟩ := Option.bind_eq_some_iff.mp hupdate
      obtain ⟨hpool, hnone⟩ := CountedThread.advance_update choice s.memory hdue
      have hset := due_set hop (t.advance choice s.memory).1 (t.advance choice s.memory).2
      simp only [hdue, hnone] at hset
      rw [Concurrent.step, hop]
      rintro ⟨hpositive, hlt⟩
      dsimp only [countedProtocol] at hpositive hlt
      rw [hpool] at hpositive hlt
      rw [Counts] at h
      cases update with
      | increment =>
          have hpending := Update.toNat_of_increment hwraps
          simp at hset
          omega
      | decrement =>
          have hpending : s.memory.pending.toNat = 0 := by
            rw [show s.memory.pending = 0 from hwraps]
            rfl
          simp at hset
          omega

end Counts

/-- The counter is exact as long as it is exact and so does not leave its range. -/
theorem counts_run {threadCount queueCapacity : ℕ} {actions : List (Action Party Choice)}
    (h : ∀ earlier a, earlier ++ [a] <+: actions →
      Counts (run countedProtocol (makeCounted threadCount queueCapacity) earlier) →
      ¬ Wraps (run countedProtocol (makeCounted threadCount queueCapacity) earlier) a) :
  Counts (run countedProtocol (makeCounted threadCount queueCapacity) actions)
  := by
  induction actions using List.reverseRecOn with
  | nil => exact Counts.make threadCount queueCapacity
  | append_singleton actions a ih =>
      have hactions := ih fun earlier a' hearlier =>
        h earlier a' (hearlier.trans (List.prefix_append actions [a]))
      rw [run_concat]
      apply hactions.step
      exact h actions a (List.prefix_refl _) hactions

/-- At every time the counter is at most the capacity of the queue and the number of the workers and
of the submits in flight, and it never leaves its range, exactly if at every time there are not more
additions due than there are tasks in the queue and subtractions due, and not so many fewer that
the counter cannot hold the difference. -/
theorem pending_bounded_iff (threadCount queueCapacity : ℕ) (actions : List (Action Party Choice)) :
  let after (earlier : List (Action Party Choice)) :=
    run countedProtocol (makeCounted threadCount queueCapacity) earlier
  ((∀ earlier, earlier <+: actions → (after earlier).memory.pending.toNat
        ≤ queueCapacity + workerCount threadCount + submitters (after earlier))
      ∧ ∀ earlier a, earlier ++ [a] <+: actions → ¬ Wraps (after earlier) a)
    ↔ ∀ earlier, earlier <+: actions → InRange (after earlier)
  := by
  intro after
  constructor
  · rintro ⟨-, hwraps⟩ earlier hearlier
    apply Counts.inRange
    apply counts_run
    intro earlier' a hearlier' _
    apply hwraps earlier' a (hearlier'.trans hearlier)
  · intro hrange
    have hwraps : ∀ earlier a, earlier ++ [a] <+: actions →
        Counts (after earlier) → ¬ Wraps (after earlier) a := by
      intro earlier a hearlier hcounts ha
      apply hcounts.not_inRange ha
      have hnext := hrange _ hearlier
      rwa [show after (earlier ++ [a]) = _ from run_concat _ _ _] at hnext
    have hcounts : ∀ earlier, earlier <+: actions → Counts (after earlier) := by
      intro earlier hearlier
      apply counts_run
      intro earlier' a hearlier'
      apply hwraps earlier' a (hearlier'.trans hearlier)
    refine ⟨?_, ?_⟩
    · intro earlier hearlier
      have hbounded : Bounded _ _ (after earlier) := Bounded.run threadCount queueCapacity earlier
      have hlength := hbounded.length_le
      have hdecrements := hbounded.decrements_le
      have hexact := hcounts earlier hearlier
      rw [Counts] at hexact
      omega
    · intro earlier a hearlier
      apply hwraps earlier a hearlier
      apply hcounts earlier ((List.prefix_append earlier [a]).trans hearlier)

/-- A worker takes a task that was put into the queue, and subtracts one, before the submit adds
one. -/
theorem pending_underflows :
  let after (earlier : List (Action Party Choice)) :=
    run countedProtocol (makeCounted 1 2) earlier
  -- The submit begins and puts its task into the queue, and the worker takes it.
  let earlier : List (Action Party Choice) :=
    [.call .submitter, .advance 1 .submit, .advance 1 .submit, .advance 0 .finish]
  let subtract : Action Party Choice := .advance 0 .finish
  Wraps (after earlier) subtract
    ∧ (after (earlier ++ [subtract])).memory.pending.toNat = 2 ^ 64 - 1
    ∧ submitters (after (earlier ++ [subtract])) = 1
    ∧ ¬ (after (earlier ++ [subtract])).memory.pending.toNat ≤ 2 + workerCount 1 + 1
  := by
  decide +kernel

end ThreadPool
