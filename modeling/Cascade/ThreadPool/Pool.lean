import Cascade.Library.Concurrent

/-!
# The thread pool

The model of `threadpool/thread_pool.hpp`. Workers take tasks from a bounded queue, and threads
outside submit them; so do tasks. A submit that finds the queue full three times runs the task
itself. The destructor sets a flag, on which the workers leave when they find the queue empty, and
joins them.

An operation on the queue is one step, and so is a load or a store of the flag. What is done in
between does not matter to tasks. A worker waits for at most five milliseconds, and then looks
again, so the waiting is left out, together with the counter `pending_`, which is used for nothing
else here. Tasks are numbered in the order in which they are submitted.
-/

namespace ThreadPool

/-- The queue with its capacity, and the flag. How many threads outside are in a submit, how many
tasks there are, and which of them were submitted and which finished is not in the source. -/
structure Pool where
  queue : List ℕ
  capacity : ℕ
  stop : Bool
  outside : ℕ
  tasks : ℕ
  returned : List ℕ
  finished : List ℕ

def kMaxRetries : ℕ := 3

/-- A call that a thread is in: a task is submitted, and the queue was full so many times, or a task
is run, by a worker or by `submit`. -/
inductive Frame
  | submit (task attempt : ℕ)
  | run (task : ℕ) (inline : Bool)
deriving DecidableEq

/-- What a thread is about to do when it is in no call: a worker takes a task, or loads the flag, or
has left. -/
inductive Base
  | submitter
  | destructor
  | popping
  | checking
  | exited
deriving DecidableEq

/-- A thread, with its calls, the innermost one first. -/
structure Thread where
  base : Base
  frames : List Frame
deriving DecidableEq

/-- What the code of a task, or of a thread outside, does next. -/
inductive Choice
  | submit
  | finish

/-- A submit has returned. -/
def Pool.leave (p : Pool) (task : ℕ) (t : Thread) (frames : List Frame) : Pool × Thread :=
  let outside := if t.base = .submitter ∧ frames = [] then p.outside - 1 else p.outside
  ({ p with returned := task :: p.returned, outside }, { t with frames })

/-- A submit begins. -/
def Pool.enter (p : Pool) (t : Thread) : Pool × Thread :=
  let outside := if t.base = .submitter ∧ t.frames = [] then p.outside + 1 else p.outside
  ({ p with tasks := p.tasks + 1, outside }, { t with frames := .submit p.tasks 0 :: t.frames })

/-- A step of a thread. The destructor starts after all submits outside have returned, and none
starts after it. -/
def Thread.advance (choice : Choice) (p : Pool) (t : Thread) : Pool × Thread :=
  match t.frames, t.base, choice with
  | .submit task attempt :: frames, _, _ =>
      if attempt < kMaxRetries then
        if p.queue.length < p.capacity then
          { p with queue := p.queue ++ [task] }.leave task t frames
        else (p, { t with frames := .submit task (attempt + 1) :: frames })
      else (p, { t with frames := .run task true :: frames })
  | .run _ _ :: _, _, .submit => p.enter t
  | .run task inline :: frames, _, .finish =>
      let p := { p with finished := task :: p.finished }
      if inline then p.leave task t frames else (p, { t with frames })
  | [], .submitter, .submit => if p.stop then (p, t) else p.enter t
  | [], .submitter, .finish => (p, t)
  | [], .destructor, _ => if p.outside = 0 then ({ p with stop := true }, t) else (p, t)
  | [], .popping, _ =>
      match p.queue with
      | [] => (p, { t with base := .checking })
      | task :: queue => ({ p with queue }, { t with frames := [.run task false] })
  | [], .checking, _ =>
      if p.stop then (p, { t with base := .exited }) else (p, { t with base := .popping })
  | [], .exited, _ => (p, t)

/-- Those who use the pool. -/
inductive Party
  | submitter
  | destructor

/-- The threads outside. -/
def protocol : Protocol Pool Party Choice Thread where
  start
    | .submitter => ⟨.submitter, []⟩
    | .destructor => ⟨.destructor, []⟩
  advance := Thread.advance

/-- The constructor, which starts the workers. -/
def make (threadCount queueCapacity : ℕ) : Concurrent Pool Thread where
  memory := ⟨[], queueCapacity, false, 0, 0, [], []⟩
  ops := List.replicate (if threadCount = 0 then 1 else threadCount) ⟨.popping, []⟩

/-- All workers have left. -/
def Joined (s : Concurrent Pool Thread) : Prop :=
  s.memory.stop = true ∧ ∀ t ∈ s.ops, t.base ≠ .popping ∧ t.base ≠ .checking

instance (s : Concurrent Pool Thread) : Decidable (Joined s) :=
  inferInstanceAs (Decidable (_ ∧ _))

/-- How often a task is in a list of calls. -/
def Thread.runs (task : ℕ) (t : Thread) : ℕ :=
  t.frames.countP fun frame => match frame with
    | .submit _ _ => false
    | .run task' _ => task' = task

/-- How often a task was run, or is being run. -/
def executions (s : Concurrent Pool Thread) (task : ℕ) : ℕ :=
  s.memory.finished.count task + (s.ops.map (Thread.runs task)).sum

/-- A worker leaves when another one is still there, or when the queue is empty. -/
def Drained (s : Concurrent Pool Thread) : Concurrent.Action Party Choice → Prop
  | .call _ => True
  | .advance k _ => s.ops[k]? = some ⟨.checking, []⟩ → s.memory.stop = true →
      s.memory.queue = [] ∨ ∃ j t, j ≠ k ∧ s.ops[j]? = some t
        ∧ (t.base = .popping ∨ t.base = .checking)

end ThreadPool
