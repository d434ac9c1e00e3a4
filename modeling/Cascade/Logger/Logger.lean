import Mathlib.Data.List.Range
import Cascade.Library.Concurrent

/-!
# The logger

The model of `logger/logger.hpp`. Threads put records into a queue, and a worker takes them out and
writes them. What a thread does while it has the mutex is one step, and so are the load and the
store of the level and of the flag, and the write of a record, for which the worker does not have
the mutex. A thread that waits may look again at any time. How a record is printed is left out.

A flush returns when the queue is empty. At that time, the worker may still have the last record in
its hands (`flush_iff`).
-/

namespace Logging

open Concurrent

/-! ### The code -/

inductive LogLevel where
  | trace
  | debug
  | info
  | warn
  | error
  | fatal
deriving DecidableEq

/-- The position of a level in the enumeration, by which levels are compared. -/
def LogLevel.value : LogLevel → ℕ
  | trace => 0
  | debug => 1
  | info => 2
  | warn => 3
  | error => 4
  | fatal => 5

/-- What a call of `log` puts into a record. -/
structure Entry where
  ts : ℕ
  level : LogLevel
  message : String
  tid : ℕ
deriving DecidableEq

/-- A record in the queue. Its number, which is not in the source, says how many were put into the
queue before it. -/
structure Record where
  number : ℕ
  entry : Entry
deriving DecidableEq

/-- The logger. How many records were put into the queue, and which were written, is not in the
source. -/
structure Logger where
  minLevel : LogLevel
  queue : List Record
  stop : Bool
  total : ℕ
  written : List Record

/-- What a thread is about to do in a call, or the worker in `run`. A flush keeps the number of
records that were put into the queue before it was called. -/
inductive Op where
  | loading (entry : Entry)
  | pushing (entry : Entry)
  | setting (level : LogLevel)
  | called
  | flushing (before : ℕ)
  | flushed (before : ℕ)
  | stopping
  | returned
  | locking
  | writing (rec : Record)
  | exited
deriving DecidableEq

/-- A step of a thread. -/
def Op.advance (l : Logger) : Op → Logger × Op
  -- `log`
  | loading entry =>
      if entry.level.value < l.minLevel.value then (l, returned) else (l, pushing entry)
  | pushing entry =>
      ({ l with queue := l.queue ++ [⟨l.total, entry⟩], total := l.total + 1 }, returned)
  -- `set_min_level`
  | setting level => ({ l with minLevel := level }, returned)
  -- `flush`
  | called => (l, flushing l.total)
  | flushing before => if l.queue = [] then (l, flushed before) else (l, flushing before)
  | flushed before => (l, flushed before)
  -- the destructor
  | stopping => ({ l with stop := true }, returned)
  | returned => (l, returned)
  -- `run`
  | locking =>
      match l.queue with
      | rec :: queue => ({ l with queue }, writing rec)
      | [] => if l.stop then (l, exited) else (l, locking)
  | writing rec => ({ l with written := l.written ++ [rec] }, locking)
  | exited => (l, exited)

inductive Call where
  | log (entry : Entry)
  | setMinLevel (level : LogLevel)
  | flush
  | destroy

def protocol : Protocol Logger Call Unit Op where
  start
    | .log entry => .loading entry
    | .setMinLevel level => .setting level
    | .flush => .called
    | .destroy => .stopping
  advance _ := Op.advance

/-- The constructor, which starts the worker. -/
def make : Concurrent Logger Op where
  memory := ⟨.info, [], false, 0, []⟩
  ops := [.locking]

/-! ### Where the records are -/

/-- The worker, as opposed to the threads that call the logger. -/
def Op.IsWorker : Op → Prop
  | locking | writing _ | exited => True
  | _ => False

/-- The record that the worker has taken and not yet written. -/
def Op.held : Op → List Record
  | writing rec => [rec]
  | _ => []

/-- Every record is written, in the hands of the worker, or in the queue, in the order of the
numbers. A flush was called after no more records than there are. -/
structure Placed (l : Logger) (worker : Op) (others : List Op) : Prop where
  isWorker : worker.IsWorker
  outside : ∀ op ∈ others, ¬ op.IsWorker
  numbers : (l.written ++ worker.held ++ l.queue).map Record.number = List.range l.total
  called : ∀ before, .flushing before ∈ others → before ≤ l.total

namespace Placed

variable {l l' : Logger} {worker : Op} {others : List Op}

theorem make :
  Placed make.memory .locking []
  := ⟨trivial, by simp, rfl, by simp⟩

/-- The worker takes a step. -/
theorem work (h : Placed l worker others) :
  Placed (worker.advance l).1 (worker.advance l).2 others
  := by
  cases worker with
  | locking =>
      rw [Op.advance]
      split
      · next rec queue hqueue =>
          refine ⟨trivial, h.outside, ?_, h.called⟩
          have hnumbers := h.numbers
          simp only [hqueue, Op.held, List.append_nil] at hnumbers
          rw [Op.held, List.append_assoc, List.singleton_append]
          exact hnumbers
      · split
        · exact ⟨trivial, h.outside, h.numbers, h.called⟩
        · exact h
  | writing rec =>
      refine ⟨trivial, h.outside, ?_, h.called⟩
      simp only [Op.advance, Op.held, List.append_nil]
      exact h.numbers
  | exited => exact h
  | loading | pushing | setting | called | flushing | flushed | stopping | returned =>
      exact absurd h.isWorker id

/-- A thread goes on that is not the worker. -/
theorem set (h : Placed l worker others) {k : ℕ} {op' : Op} (hop' : ¬ op'.IsWorker)
    (hnumbers : (l'.written ++ worker.held ++ l'.queue).map Record.number = List.range l'.total)
    (htotal : l.total ≤ l'.total)
    (hcalled : ∀ before, op' = .flushing before → before ≤ l'.total) :
  Placed l' worker (others.set k op')
  := by
  refine ⟨h.isWorker, ?_, hnumbers, ?_⟩
  · intro op hop
    rcases List.mem_or_eq_of_mem_set hop with hop | rfl
    · exact h.outside op hop
    · exact hop'
  · intro before hop
    rcases List.mem_or_eq_of_mem_set hop with hop | heq
    · exact (h.called before hop).trans htotal
    · exact hcalled before heq.symm

/-- Another thread takes a step. -/
theorem other (h : Placed l worker others) {k : ℕ} {op : Op} (hop : others[k]? = some op) :
  Placed (op.advance l).1 worker (others.set k (op.advance l).2)
  := by
  have hmem := List.mem_of_getElem? hop
  cases op with
  | loading entry =>
      rw [Op.advance]
      split
      · exact h.set id h.numbers le_rfl (by rintro _ ⟨⟩)
      · exact h.set id h.numbers le_rfl (by rintro _ ⟨⟩)
  | pushing entry =>
      apply h.set id _ (Nat.le_succ _) (by rintro _ ⟨⟩)
      rw [Op.advance, ← List.append_assoc, List.map_append, h.numbers, List.range_succ]
      rfl
  | setting level => exact h.set id h.numbers le_rfl (by rintro _ ⟨⟩)
  | called =>
      apply h.set id h.numbers le_rfl
      rintro _ ⟨⟩
      exact le_rfl
  | flushing before =>
      rw [Op.advance]
      split
      · exact h.set id h.numbers le_rfl (by rintro _ ⟨⟩)
      · apply h.set id h.numbers le_rfl
        rintro _ ⟨⟩
        exact h.called before hmem
  | flushed before => exact h.set id h.numbers le_rfl (by rintro _ ⟨⟩)
  | stopping => exact h.set id h.numbers le_rfl (by rintro _ ⟨⟩)
  | returned => exact h.set id h.numbers le_rfl (by rintro _ ⟨⟩)
  | locking | writing | exited => exact absurd trivial (h.outside _ hmem)

/-- A call begins. -/
theorem call (h : Placed l worker others) (c : Call) :
  Placed l worker (others ++ [protocol.start c])
  := by
  refine ⟨h.isWorker, ?_, h.numbers, ?_⟩
  · intro op hop
    rcases List.mem_append.mp hop with hop | hop
    · exact h.outside op hop
    · rw [List.mem_singleton.mp hop]
      cases c <;> exact id
  · intro before hop
    rcases List.mem_append.mp hop with hop | hop
    · exact h.called before hop
    · cases c <;> cases List.mem_singleton.mp hop

end Placed

/-- At every moment, the first thread is the worker. -/
theorem placed_run (actions : List (Action Call Unit)) :
  ∃ worker others, (run protocol make actions).ops = worker :: others
    ∧ Placed (run protocol make actions).memory worker others
  := by
  apply run_induction (P := fun s => ∃ worker others, s.ops = worker :: others
    ∧ Placed s.memory worker others)
  · rintro s c ⟨worker, others, hops, h⟩
    exact ⟨worker, others ++ [protocol.start c], by rw [hops]; rfl, h.call c⟩
  · rintro s k op choice ⟨worker, others, hops, h⟩ hop
    rw [hops] at hop ⊢
    cases k with
    | zero =>
        obtain rfl := Option.some.inj hop
        exact ⟨_, others, rfl, h.work⟩
    | succ k => exact ⟨worker, _, rfl, h.other hop⟩
  · exact ⟨.locking, [], rfl, Placed.make⟩

/-! ### Flush -/

/-- If the queue is empty, the records that are not written are those in the hands of the worker. -/
theorem Placed.written_iff {l : Logger} {worker : Op} {others : List Op}
    (h : Placed l worker others) (hqueue : l.queue = []) {before : ℕ} (hbefore : before ≤ l.total) :
  (∀ n < before, n ∈ l.written.map Record.number)
    ↔ ∀ rec, worker = .writing rec → before ≤ rec.number
  := by
  have hnumbers := h.numbers
  rw [hqueue, List.append_nil, List.map_append] at hnumbers
  have hmem : ∀ n < l.total,
      n ∈ l.written.map Record.number ∨ n ∈ worker.held.map Record.number := by
    intro n hn
    rw [← List.mem_append, hnumbers]
    exact List.mem_range.mpr hn
  constructor
  · rintro hall rec rfl
    -- The number of a record that is written is not that of the one in the hands of the worker.
    have hnodup : (l.written.map Record.number ++ [rec.number]).Nodup := by
      have := List.nodup_range (n := l.total)
      rwa [← hnumbers] at this
    by_contra hlt
    have hwritten := hall rec.number (not_le.mp hlt)
    exact (List.nodup_append.mp hnodup).2.2 _ hwritten _ (List.mem_singleton_self _) rfl
  · intro hheld n hn
    rcases hmem n (hn.trans_le hbefore) with hwritten | hmine
    · exact hwritten
    · cases worker with
      | writing rec =>
          have := hheld rec rfl
          rw [Op.held, List.map_singleton, List.mem_singleton] at hmine
          omega
      | _ => cases hmine

/-- When a flush returns, every record that was put into the queue before it was called has been
written if and only if the worker does not have one of them in its hands. -/
theorem flush_iff (actions : List (Action Call Unit)) (k before : ℕ)
    (hop : (run protocol make actions).ops[k]? = some (.flushing before))
    (hreturns : (Op.advance (run protocol make actions).memory (.flushing before)).2
      = .flushed before) :
  (∀ n < before, n ∈ (run protocol make actions).memory.written.map Record.number)
    ↔ ∀ rec, .writing rec ∈ (run protocol make actions).ops → before ≤ rec.number
  := by
  obtain ⟨worker, others, hops, h⟩ := placed_run actions
  have hqueue : (run protocol make actions).memory.queue = [] := by
    rw [Op.advance] at hreturns
    split at hreturns
    · assumption
    · cases hreturns
  rw [hops] at hop ⊢
  have hbefore : before ≤ (run protocol make actions).memory.total := by
    cases k with
    | zero =>
        obtain rfl := Option.some.inj hop
        exact absurd h.isWorker id
    | succ k => exact h.called before (List.mem_of_getElem? hop)
  rw [h.written_iff hqueue hbefore]
  constructor
  · intro hheld rec hrec
    rcases List.mem_cons.mp hrec with heq | hmem
    · exact hheld rec heq.symm
    · exact absurd trivial (h.outside _ hmem)
  · intro hall rec hrec
    exact hall rec (hrec ▸ List.mem_cons_self)

/-- The record that is logged in the following runs. -/
def startedEntry : Entry := ⟨0, .info, "started", 1⟩

/-- The record is taken and written before the flush returns. -/
theorem flush_iff_written :
  let s := run protocol make [.call (.log startedEntry), .advance 1 (), .advance 1 (), .call .flush,
    .advance 2 (), .advance 0 (), .advance 0 ()]
  s.ops[2]? = some (.flushing 1) ∧ ∀ n < 1, n ∈ s.memory.written.map Record.number
  := by
  intro s
  have hop : s.ops[2]? = some (.flushing 1) := by decide +kernel
  refine ⟨hop, (flush_iff _ 2 1 hop (by decide +kernel)).mpr ?_⟩
  have hops : s.ops = [.locking, .returned, .flushing 1] := by decide +kernel
  intro rec hrec
  simp only [s, hops] at hrec
  simp at hrec

/-- The worker takes the record, and the flush returns before it is written. -/
theorem flush_too_early :
  let s := run protocol make [.call (.log startedEntry), .advance 1 (), .advance 1 (), .call .flush,
    .advance 2 (), .advance 0 ()]
  s.ops[2]? = some (.flushing 1)
    ∧ (Op.advance s.memory (.flushing 1)).2 = .flushed 1
    ∧ s.memory.written = [] ∧ s.ops[0]? = some (.writing ⟨0, startedEntry⟩)
  := by
  decide +kernel

end Logging
