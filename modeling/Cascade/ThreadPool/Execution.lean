import Cascade.ThreadPool.Pool

/-!
# Every task once

A task is in one place at a time: it is being submitted, in the queue, being run, or finished. So it
is run at most once, and when all workers have left, the tasks that were not run are those in the
queue. There are such tasks if one was submitted after the last worker found the queue empty, and
before it found the flag set.
-/

namespace ThreadPool

open Concurrent Runs

/-! ### What a step does -/

/-- The task of a call. -/
def Frame.task : Frame → ℕ
  | .submit task _ => task
  | .run task _ => task

/-- The steps of a thread. -/
inductive Step (p : Pool) (t : Thread) : Pool → Thread → Prop
  | stay : Step p t p t
  | enter (hidle : t.frames = [] → t.base = .submitter ∧ p.stop = false)
      (hbusy : t.frames ≠ [] → ∃ task inline frames, t.frames = .run task inline :: frames) :
      Step p t (p.enter t).1 (p.enter t).2
  | push {task attempt : ℕ} {frames : List Frame}
      (hframes : t.frames = .submit task attempt :: frames) :
      Step p t ({ p with queue := p.queue ++ [task] }.leave task t frames).1
        ({ p with queue := p.queue ++ [task] }.leave task t frames).2
  | retry {task attempt attempt' : ℕ} {frames : List Frame}
      (hframes : t.frames = .submit task attempt :: frames) :
      Step p t p { t with frames := .submit task attempt' :: frames }
  | inline {task attempt : ℕ} {frames : List Frame}
      (hframes : t.frames = .submit task attempt :: frames) :
      Step p t p { t with frames := .run task true :: frames }
  | finish {task : ℕ} {frames : List Frame} (hframes : t.frames = .run task false :: frames) :
      Step p t { p with finished := task :: p.finished } { t with frames }
  | finishInline {task : ℕ} {frames : List Frame} (hframes : t.frames = .run task true :: frames) :
      Step p t ({ p with finished := task :: p.finished }.leave task t frames).1
        ({ p with finished := task :: p.finished }.leave task t frames).2
  | stop (hbase : t.base = .destructor) (houtside : p.outside = 0) :
      Step p t { p with stop := true } t
  | pop {task : ℕ} {queue : List ℕ} (hframes : t.frames = []) (hbase : t.base = .popping)
      (hqueue : p.queue = task :: queue) :
      Step p t { p with queue } { t with frames := [.run task false] }
  | empty (hframes : t.frames = []) (hbase : t.base = .popping) (hqueue : p.queue = []) :
      Step p t p { t with base := .checking }
  | wake (hframes : t.frames = []) (hbase : t.base = .checking) (hstop : p.stop = false) :
      Step p t p { t with base := .popping }
  | exit (hframes : t.frames = []) (hbase : t.base = .checking) (hstop : p.stop = true) :
      Step p t p { t with base := .exited }

theorem step_advance (choice : Choice) (p : Pool) (t : Thread) :
  Step p t (t.advance choice p).1 (t.advance choice p).2
  := by
  obtain ⟨base, frames⟩ := t
  cases frames with
  | cons frame frames =>
      cases frame with
      | submit task attempt =>
          dsimp only [Thread.advance]
          split
          · split
            · exact .push rfl
            · exact .retry rfl
          · exact .inline rfl
      | run task inline =>
          cases choice with
          | submit => exact .enter (by simp) fun _ => ⟨task, inline, frames, rfl⟩
          | finish =>
              cases inline with
              | true => exact .finishInline rfl
              | false => exact .finish rfl
  | nil =>
      cases base with
      | submitter =>
          cases choice with
          | submit =>
              dsimp only [Thread.advance]
              split
              · exact .stay
              · rename_i hstop
                exact .enter (fun _ => ⟨rfl, Bool.eq_false_iff.mpr hstop⟩) (fun h => absurd rfl h)
          | finish => exact .stay
      | destructor =>
          dsimp only [Thread.advance]
          split
          · rename_i houtside
            exact .stop rfl houtside
          · exact .stay
      | popping =>
          dsimp only [Thread.advance]
          split
          · rename_i hqueue
            exact .empty rfl rfl hqueue
          · rename_i task queue hqueue
            exact .pop rfl rfl hqueue
      | checking =>
          dsimp only [Thread.advance]
          split
          · rename_i hstop
            exact .exit rfl rfl hstop
          · rename_i hstop
            exact .wake rfl rfl (Bool.eq_false_iff.mpr hstop)
      | exited => exact .stay

/-! ### Where a task is -/

/-- How often a task is in the calls of a thread. -/
def Thread.holds (task : ℕ) (t : Thread) : ℕ := (t.frames.map Frame.task).count task

/-- How often a task is in the queue, or finished. -/
def Pool.keeps (task : ℕ) (p : Pool) : ℕ := p.queue.count task + p.finished.count task

/-- How often there is a task. -/
def Pool.knows (task : ℕ) (p : Pool) : ℕ := if task < p.tasks then 1 else 0

variable {p p' : Pool} {t t' : Thread} {task : ℕ}

theorem count_cons_eq (a b : ℕ) (l : List ℕ) :
  (a :: l).count b = [a].count b + l.count b
  := by
  rw [← List.count_append, List.singleton_append]

variable {frames : List Frame}

theorem Thread.holds_cons {frame : Frame} (hframes : t.frames = frame :: frames) (task : ℕ) :
  t.holds task = [frame.task].count task + { t with frames }.holds task
  := by
  rw [Thread.holds, hframes, List.map_cons, count_cons_eq]
  rfl

theorem Thread.holds_nil (hframes : t.frames = []) (task : ℕ) :
  t.holds task = 0
  := by
  rw [Thread.holds, hframes]
  rfl

theorem Pool.knows_enter (p : Pool) (t : Thread) (task : ℕ) :
  (p.enter t).1.knows task = [p.tasks].count task + p.knows task
  := by
  change (if task < p.tasks + 1 then 1 else 0)
    = [p.tasks].count task + if task < p.tasks then 1 else 0
  rcases lt_trichotomy task p.tasks with hlt | rfl | hlt
  · rw [if_pos hlt, if_pos (Nat.lt_succ_of_lt hlt), List.count_singleton, if_neg (by simp; omega)]
  · simp
  · rw [if_neg hlt.asymm, if_neg (by omega), List.count_singleton, if_neg (by simp; omega)]

/-- A step moves tasks, and may add one. -/
theorem Step.keeps (h : Step p t p' t') (task : ℕ) :
  p'.keeps task + t'.holds task + p.knows task = p.keeps task + t.holds task + p'.knows task
  := by
  cases h with
  | stay => rfl
  | enter =>
      have hholds : (p.enter t).2.holds task = [p.tasks].count task + t.holds task :=
        count_cons_eq p.tasks task (t.frames.map Frame.task)
      rw [hholds, p.knows_enter]
      change p.keeps task + _ + _ = _
      omega
  | push hframes =>
      rw [Thread.holds_cons hframes]
      simp only [Pool.keeps, Pool.knows, Pool.leave, Frame.task, List.count_append]
      omega
  | retry hframes =>
      rename_i task' attempt attempt' frames
      rw [Thread.holds_cons hframes,
        Thread.holds_cons (t := ⟨t.base, .submit task' _ :: frames⟩) rfl]
      rfl
  | inline hframes =>
      rename_i task' attempt frames
      rw [Thread.holds_cons hframes,
        Thread.holds_cons (t := ⟨t.base, .run task' true :: frames⟩) rfl]
      rfl
  | finish hframes =>
      rename_i task' frames
      rw [Thread.holds_cons hframes]
      simp only [Pool.keeps, Pool.knows, Frame.task, count_cons_eq task' task p.finished]
      omega
  | finishInline hframes =>
      rename_i task' frames
      rw [Thread.holds_cons hframes]
      simp only [Pool.keeps, Pool.knows, Pool.leave, Frame.task,
        count_cons_eq task' task p.finished]
      omega
  | stop => rfl
  | pop hframes hbase hqueue =>
      rename_i task' queue
      rw [Thread.holds_nil hframes, Thread.holds_cons (t := ⟨t.base, [.run task' false]⟩) rfl,
        Thread.holds_nil rfl]
      simp only [Pool.keeps, Pool.knows, Frame.task, hqueue, count_cons_eq task' task queue]
      omega
  | empty => rfl
  | wake => rfl
  | exit => rfl

/-! ### Threads outside -/

/-- A thread outside is in a submit. -/
def Thread.inside (t : Thread) : ℕ := if t.base = .submitter ∧ t.frames ≠ [] then 1 else 0

theorem Thread.inside_cons {frame : Frame} (hframes : t.frames = frame :: frames) :
  t.inside = if t.base = .submitter then 1 else 0
  := by
  simp [Thread.inside, hframes]

/-- A submit outside that returns is no longer counted. -/
theorem Pool.outside_leave {frame : Frame} (hframes : t.frames = frame :: frames)
    (hle : t.inside ≤ p.outside) :
  (p.leave task t frames).1.outside + t.inside
    = p.outside + (p.leave task t frames).2.inside
  := by
  rw [Thread.inside_cons hframes] at hle ⊢
  change (if t.base = .submitter ∧ frames = [] then _ else _) + _
    = _ + if t.base = .submitter ∧ frames ≠ [] then 1 else 0
  by_cases hbase : t.base = .submitter
  · rw [if_pos hbase] at hle ⊢
    cases frames with
    | nil =>
        simp [hbase]
        omega
    | cons frame frames => simp [hbase]
  · simp [hbase]

/-- The threads outside run tasks only in submits, and a thread that neither submits nor takes
tasks is in no call. -/
structure Thread.Ok (t : Thread) : Prop where
  inline : t.base = .submitter → ∀ task, .run task false ∉ t.frames
  idle : t.base ≠ .submitter → t.base ≠ .popping → t.frames = []

/-- A thread that is in a call submits or takes tasks. -/
theorem Thread.Ok.of_cons (hok : t.Ok) {frame : Frame} (hframes : t.frames = frame :: frames)
    {frames' : List Frame}
    (hinline : ∀ task, .run task false ∈ frames' → .run task false ∈ frames) :
  Thread.Ok { t with frames := frames' }
  := by
  constructor
  · intro hbase task hmem
    apply hok.inline hbase task
    rw [hframes]
    exact List.mem_cons_of_mem _ (hinline task hmem)
  · intro hsub hpop
    rw [hok.idle hsub hpop] at hframes
    cases hframes

theorem Step.ok (h : Step p t p' t') (hok : t.Ok) :
  t'.Ok
  := by
  cases h with
  | stay => exact hok
  | enter hidle hbusy =>
      refine ⟨fun hbase task hmem => ?_, fun hsub hpop => ?_⟩
      · rcases List.mem_cons.mp hmem with heq | hmem
        · cases heq
        · exact hok.inline hbase task hmem
      · have hnil : t.frames = [] := hok.idle hsub hpop
        exact absurd (hidle hnil).1 hsub
  | push hframes => exact hok.of_cons hframes fun _ hmem => hmem
  | retry hframes =>
      apply hok.of_cons hframes
      exact fun _ hmem => (List.mem_cons.mp hmem).resolve_left (by simp)
  | inline hframes =>
      apply hok.of_cons hframes
      exact fun _ hmem => (List.mem_cons.mp hmem).resolve_left (by simp)
  | finish hframes => exact hok.of_cons hframes fun _ hmem => hmem
  | finishInline hframes => exact hok.of_cons hframes fun _ hmem => hmem
  | stop => exact hok
  | pop hframes hbase =>
      exact ⟨fun hsub => absurd (hbase.symm.trans hsub) (by decide),
        fun _ hpop => absurd hbase hpop⟩
  | empty hframes => exact ⟨by simp, fun _ _ => hframes⟩
  | wake hframes => exact ⟨by simp, fun _ _ => hframes⟩
  | exit hframes => exact ⟨by simp, fun _ _ => hframes⟩

/-- The threads outside that are in a submit are counted. -/
theorem Step.inside (h : Step p t p' t') (hok : t.Ok) (hle : t.inside ≤ p.outside) :
  p'.outside + t.inside = p.outside + t'.inside
  := by
  cases h with
  | stay => rfl
  | enter hidle hbusy =>
      have hinside : (p.enter t).2.inside = if t.base = .submitter then 1 else 0 :=
        Thread.inside_cons rfl
      rw [hinside]
      change (if t.base = .submitter ∧ t.frames = [] then _ else _)
        + (if t.base = .submitter ∧ t.frames ≠ [] then 1 else 0) = _
      by_cases hbase : t.base = .submitter
      · by_cases hframes : t.frames = []
        · simp [hbase, hframes]
        · simp [hbase, hframes]
      · simp [hbase]
  | push hframes => exact Pool.outside_leave hframes hle
  | retry hframes =>
      rename_i task' attempt attempt' frames
      rw [Thread.inside_cons hframes,
        Thread.inside_cons (t := ⟨t.base, .submit task' _ :: frames⟩) rfl]
  | inline hframes =>
      rename_i task' attempt frames
      rw [Thread.inside_cons hframes,
        Thread.inside_cons (t := ⟨t.base, .run task' true :: frames⟩) rfl]
  | finish hframes =>
      have hbase : t.base ≠ .submitter := by
        intro hbase
        apply hok.inline hbase
        rw [hframes]
        exact List.mem_cons_self
      simp [Thread.inside, hbase]
  | finishInline hframes => exact Pool.outside_leave hframes hle
  | stop => rfl
  | pop hframes hbase => simp [Thread.inside, hbase]
  | empty hframes hbase => simp [Thread.inside, hbase]
  | wake hframes hbase => simp [Thread.inside, hbase]
  | exit hframes hbase => simp [Thread.inside, hbase]

/-- Once the flag is set, no submit starts outside. -/
theorem Step.stopped (h : Step p t p' t') (hstopped : p.stop = true → p.outside = 0) :
  p'.stop = true → p'.outside = 0
  := by
  cases h with
  | stay => exact hstopped
  | enter hidle =>
      intro hstop
      change (if t.base = .submitter ∧ t.frames = [] then _ else p.outside) = 0
      rw [if_neg]
      · exact hstopped hstop
      · rintro ⟨-, hframes⟩
        have hrunning := (hidle hframes).2
        rw [show p.stop = true from hstop] at hrunning
        cases hrunning
  | push =>
      intro hstop
      have hzero := hstopped hstop
      simp only [Pool.leave, hzero]
      exact ite_self _
  | retry => exact hstopped
  | inline => exact hstopped
  | finish => exact hstopped
  | finishInline =>
      intro hstop
      have hzero := hstopped hstop
      simp only [Pool.leave, hzero]
      exact ite_self _
  | stop hbase houtside => exact fun _ => houtside
  | pop => exact hstopped
  | empty => exact hstopped
  | wake => exact hstopped
  | exit => exact hstopped

/-! ### Submits that have returned -/

/-- The submits of what is in the queue have returned. -/
theorem Step.queued (h : Step p t p' t') (hqueued : ∀ task ∈ p.queue, task ∈ p.returned) :
  ∀ task ∈ p'.queue, task ∈ p'.returned
  := by
  cases h with
  | push =>
      rename_i task attempt frames _
      intro task' hmem
      rcases List.mem_append.mp hmem with hmem | hmem
      · exact List.mem_cons_of_mem _ (hqueued task' hmem)
      · rw [List.mem_singleton.mp hmem]
        exact List.mem_cons_self
  | finishInline => exact fun task hmem => List.mem_cons_of_mem _ (hqueued task hmem)
  | pop hframes hbase hqueue =>
      intro task hmem
      apply hqueued
      rw [hqueue]
      exact List.mem_cons_of_mem _ hmem
  | stay => exact hqueued
  | enter => exact hqueued
  | retry => exact hqueued
  | inline => exact hqueued
  | finish => exact hqueued
  | stop => exact hqueued
  | empty => exact hqueued
  | wake => exact hqueued
  | exit => exact hqueued

/-- What was submitted is one of the tasks. -/
theorem Step.returned (h : Step p t p' t') (hheld : ∀ task, 0 < t.holds task → task < p.tasks)
    (hreturned : ∀ task ∈ p.returned, task < p.tasks) :
  ∀ task ∈ p'.returned, task < p'.tasks
  := by
  -- The task of a submit that returns was held.
  have hleave : ∀ {frame : Frame} {frames : List Frame}, t.frames = frame :: frames →
      ∀ task ∈ frame.task :: p.returned, task < p.tasks := by
    intro frame frames hframes task hmem
    rcases List.mem_cons.mp hmem with rfl | hmem
    · apply hheld
      rw [Thread.holds_cons hframes, List.count_singleton_self]
      omega
    · exact hreturned task hmem
  cases h with
  | enter => exact fun task hmem => Nat.lt_succ_of_lt (hreturned task hmem)
  | push hframes => exact hleave hframes
  | finishInline hframes => exact hleave hframes
  | stay => exact hreturned
  | retry => exact hreturned
  | inline => exact hreturned
  | finish => exact hreturned
  | stop => exact hreturned
  | pop => exact hreturned
  | empty => exact hreturned
  | wake => exact hreturned
  | exit => exact hreturned

/-! ### Runs -/

/-- Every task is in one place, and only what was submitted is in the queue. -/
structure Sound (s : Concurrent Pool Thread) : Prop where
  once : ∀ task, s.memory.keeps task + (s.ops.map (Thread.holds task)).sum = s.memory.knows task
  ok : ∀ t ∈ s.ops, t.Ok
  outside : s.memory.outside = (s.ops.map Thread.inside).sum
  stopped : s.memory.stop = true → s.memory.outside = 0
  queued : ∀ task ∈ s.memory.queue, task ∈ s.memory.returned
  returned : ∀ task ∈ s.memory.returned, task < s.memory.tasks

namespace Sound

variable {s : Concurrent Pool Thread}

theorem start (threadCount queueCapacity : ℕ) :
  Sound (make threadCount queueCapacity)
  := by
  have hops : ∀ t ∈ (make threadCount queueCapacity).ops, t = ⟨.popping, []⟩ :=
    fun t ht => List.eq_of_mem_replicate ht
  have hsum : ∀ f : Thread → ℕ, f ⟨.popping, []⟩ = 0 →
      ((make threadCount queueCapacity).ops.map f).sum = 0 := by
    intro f hf
    simp [make, List.map_replicate, hf]
  refine ⟨fun task => ?_, fun t ht => ?_, ?_, fun _ => rfl, ?_, ?_⟩
  · rw [hsum _ rfl]
    rfl
  · rw [hops t ht]
    exact ⟨by simp, fun _ _ => rfl⟩
  · exact (hsum _ rfl).symm
  · exact fun task hmem => absurd hmem List.not_mem_nil
  · exact fun task hmem => absurd hmem List.not_mem_nil

/-- A thread that is new is in no call. -/
theorem call (h : Sound s) (party : Party) :
  Sound { s with ops := s.ops ++ [protocol.start party] }
  := by
  have hframes : (protocol.start party).frames = [] := by
    cases party <;> rfl
  have hsum : ∀ f : Thread → ℕ, f (protocol.start party) = 0 →
      ((s.ops ++ [protocol.start party]).map f).sum = (s.ops.map f).sum := by
    intro f hf
    rw [List.map_append, List.sum_append, List.map_singleton, List.sum_singleton, hf, add_zero]
  refine ⟨fun task => ?_, fun t ht => ?_, ?_, h.stopped, h.queued, h.returned⟩
  · rw [hsum _ (Thread.holds_nil hframes task)]
    exact h.once task
  · rcases List.mem_append.mp ht with ht | ht
    · exact h.ok t ht
    · rw [List.mem_singleton.mp ht]
      refine ⟨fun _ task => ?_, fun _ _ => hframes⟩
      rw [hframes]
      exact List.not_mem_nil
  · rw [hsum _ (by simp [Thread.inside, hframes])]
    exact h.outside

/-- A thread that holds a task holds one that there is. -/
theorem lt_tasks (h : Sound s) {k : ℕ} {t : Thread} (hk : s.ops[k]? = some t) {task : ℕ}
    (hheld : 0 < t.holds task) :
  task < s.memory.tasks
  := by
  have honce := h.once task
  have hle := le_sum_map hk (Thread.holds task)
  rw [Pool.knows] at honce
  by_contra hlt
  rw [if_neg hlt] at honce
  omega

theorem advance (h : Sound s) {k : ℕ} {t : Thread} (hk : s.ops[k]? = some t) {p' : Pool}
    {t' : Thread} (hstep : Step s.memory t p' t') :
  Sound ⟨p', s.ops.set k t'⟩
  := by
  have hok := h.ok t (List.mem_of_getElem? hk)
  refine ⟨fun task => ?_, fun u hu => ?_, ?_, hstep.stopped h.stopped, hstep.queued h.queued,
    hstep.returned (fun task => h.lt_tasks hk) h.returned⟩
  · have hkeeps := hstep.keeps task
    have hsum := sum_map_set hk (Thread.holds task) t'
    have honce := h.once task
    have hle := le_sum_map hk (Thread.holds task)
    change p'.keeps task + ((s.ops.set k t').map (Thread.holds task)).sum = p'.knows task
    omega
  · rcases List.mem_or_eq_of_mem_set hu with hu | rfl
    · exact h.ok u hu
    · exact hstep.ok hok
  · have hle := le_sum_map hk Thread.inside
    have houtside := h.outside
    have hinside := hstep.inside hok (hle.trans_eq houtside.symm)
    have hsum := sum_map_set hk Thread.inside t'
    change p'.outside = ((s.ops.set k t').map Thread.inside).sum
    omega

theorem run (threadCount queueCapacity : ℕ) (actions : List (Action Party Choice)) :
  Sound (Concurrent.run protocol (make threadCount queueCapacity) actions)
  := by
  apply run_induction
  · exact fun s party h => h.call party
  · exact fun s k t choice h hk => h.advance hk (step_advance choice s.memory t)
  · exact Sound.start threadCount queueCapacity

/-- A task is run at most once. -/
theorem executions_le (h : Sound s) (task : ℕ) :
  executions s task ≤ 1
  := by
  have hruns : ∀ t : Thread, t.runs task ≤ t.holds task := by
    intro t
    rw [Thread.runs, Thread.holds, List.count_eq_countP, List.countP_map]
    apply List.countP_mono_left
    intro frame _ hframe
    cases frame with
    | submit => cases hframe
    | run task' inline => simpa [Frame.task] using hframe
  have hsum : (s.ops.map (Thread.runs task)).sum ≤ (s.ops.map (Thread.holds task)).sum :=
    List.sum_le_sum fun t _ => hruns t
  have honce := h.once task
  have hknows : s.memory.knows task ≤ 1 := by
    rw [Pool.knows]
    split <;> omega
  rw [Pool.keeps] at honce
  rw [executions]
  omega

/-- When the workers have left, no thread is in a call. -/
theorem frames_eq_nil (h : Sound s) (hjoined : Joined s) {t : Thread} (ht : t ∈ s.ops) :
  t.frames = []
  := by
  obtain ⟨hstop, hleft⟩ := hjoined
  by_cases hbase : t.base = .submitter
  · by_contra hframes
    obtain ⟨k, hk⟩ := List.mem_iff_getElem?.mp ht
    have hle := le_sum_map hk Thread.inside
    rw [← h.outside, h.stopped hstop, Thread.inside, if_pos ⟨hbase, hframes⟩] at hle
    omega
  · exact (h.ok t ht).idle hbase (hleft t ht).1

/-- When the workers have left, a task was run unless it is in the queue. -/
theorem keeps_of_joined (h : Sound s) (hjoined : Joined s) (task : ℕ) :
  s.memory.keeps task = s.memory.knows task
  := by
  have honce := h.once task
  have hsum : (s.ops.map (Thread.holds task)).sum = 0 := by
    rw [List.sum_eq_zero_iff]
    intro n hn
    obtain ⟨t, ht, rfl⟩ := List.mem_map.mp hn
    exact Thread.holds_nil (h.frames_eq_nil hjoined ht) task
  omega

theorem executed_iff (h : Sound s) (hjoined : Joined s) :
  (∀ task ∈ s.memory.returned, s.memory.finished.count task = 1) ↔ s.memory.queue = []
  := by
  constructor
  · intro hfinished
    rw [List.eq_nil_iff_forall_not_mem]
    intro task hmem
    have hreturned := h.queued task hmem
    have hone := hfinished task hreturned
    have hkeeps := h.keeps_of_joined hjoined task
    have hpos := List.count_pos_iff.mpr hmem
    rw [Pool.keeps, Pool.knows, if_pos (h.returned task hreturned)] at hkeeps
    omega
  · intro hqueue task hmem
    have hkeeps := h.keeps_of_joined hjoined task
    rw [Pool.keeps, Pool.knows, if_pos (h.returned task hmem), hqueue, List.count_nil] at hkeeps
    omega

end Sound

/-! ### Workers that are still there -/

/-- A worker is there, or the queue is empty for good. -/
def Staffed (s : Concurrent Pool Thread) : Prop :=
  (∃ (k : ℕ) (t : Thread), s.ops[k]? = some t ∧ (t.base = .popping ∨ t.base = .checking))
    ∨ (s.memory.stop = true ∧ s.memory.queue = [])

/-- A worker stays unless it leaves. -/
theorem Step.worker (h : Step p t p' t') (hbase : t.base = .popping ∨ t.base = .checking) :
  (t'.base = .popping ∨ t'.base = .checking)
    ∨ (t = ⟨.checking, []⟩ ∧ p.stop = true ∧ p' = p)
  := by
  cases h with
  | empty => exact .inl (.inr rfl)
  | wake => exact .inl (.inl rfl)
  | exit hframes hchecking hstop =>
      obtain ⟨base, frames⟩ := t
      obtain rfl : frames = [] := hframes
      obtain rfl : base = .checking := hchecking
      exact .inr ⟨rfl, hstop, rfl⟩
  | stay => exact .inl hbase
  | enter => exact .inl hbase
  | push => exact .inl hbase
  | retry => exact .inl hbase
  | inline => exact .inl hbase
  | finish => exact .inl hbase
  | finishInline => exact .inl hbase
  | stop => exact .inl hbase
  | pop => exact .inl hbase

/-- A thread that is in no call puts nothing into the queue. -/
theorem Step.queue_of_nil (h : Step p t p' t') (hframes : t.frames = []) (hstop : p.stop = true)
    (hqueue : p.queue = []) :
  p'.stop = true ∧ p'.queue = []
  := by
  cases h with
  | push hcons =>
      rw [hframes] at hcons
      cases hcons
  | finishInline hcons =>
      rw [hframes] at hcons
      cases hcons
  | pop _ _ hcons =>
      rw [hqueue] at hcons
      cases hcons
  | stop => exact ⟨rfl, hqueue⟩
  | stay => exact ⟨hstop, hqueue⟩
  | enter => exact ⟨hstop, hqueue⟩
  | retry => exact ⟨hstop, hqueue⟩
  | inline => exact ⟨hstop, hqueue⟩
  | finish => exact ⟨hstop, hqueue⟩
  | empty => exact ⟨hstop, hqueue⟩
  | wake => exact ⟨hstop, hqueue⟩
  | exit => exact ⟨hstop, hqueue⟩

theorem Staffed.advance {s : Concurrent Pool Thread} (h : Staffed s) (hsound : Sound s) {k : ℕ}
    {t : Thread} (hk : s.ops[k]? = some t) {choice : Choice}
    (hdrained : Drained s (.advance k choice))
    (hstep : Step s.memory t p' t') :
  Staffed ⟨p', s.ops.set k t'⟩
  := by
  have hlt : k < s.ops.length := (List.getElem?_eq_some_iff.mp hk).1
  have hself : (s.ops.set k t')[k]? = some t' := List.getElem?_set_self hlt
  have hothers : ∀ {j u}, j ≠ k → s.ops[j]? = some u → (s.ops.set k t')[j]? = some u := by
    intro j u hne hj
    rw [List.getElem?_set_ne hne.symm, hj]
  by_cases hworker : t.base = .popping ∨ t.base = .checking
  · rcases hstep.worker hworker with hworker' | ⟨rfl, hstop, rfl⟩
    · exact .inl ⟨k, t', hself, hworker'⟩
    · rcases hdrained hk hstop with hqueue | ⟨j, u, hne, hj, hu⟩
      · exact .inr ⟨hstop, hqueue⟩
      · exact .inl ⟨j, u, hothers hne hj, hu⟩
  · rcases h with ⟨j, u, hj, hu⟩ | ⟨hstop, hqueue⟩
    · refine .inl ⟨j, u, hothers ?_ hj, hu⟩
      rintro rfl
      obtain rfl := Option.some.inj (hj.symm.trans hk)
      exact hworker hu
    · -- Outside, no submit is under way.
      have hframes : t.frames = [] := by
        by_contra hframes
        have hle := le_sum_map hk Thread.inside
        by_cases hbase : t.base = .submitter
        · rw [← hsound.outside, hsound.stopped hstop, Thread.inside, if_pos ⟨hbase, hframes⟩] at hle
          omega
        · exact hframes ((hsound.ok t (List.mem_of_getElem? hk)).idle hbase
            fun hpop => hworker (.inl hpop))
      exact .inr (hstep.queue_of_nil hframes hstop hqueue)

/-- If the last worker leaves an empty queue, it stays empty. -/
theorem Staffed.run (threadCount queueCapacity : ℕ) {actions : List (Action Party Choice)}
    (hdrained : Along (step protocol) Drained (make threadCount queueCapacity) actions) :
  Staffed (Concurrent.run protocol (make threadCount queueCapacity) actions)
  := by
  refine (run_induction_along (P := fun s => Sound s ∧ Staffed s) ?_ ?_ ?_ hdrained).2
  · rintro s party ⟨hsound, hstaffed⟩
    refine ⟨hsound.call party, hstaffed.imp_left ?_⟩
    rintro ⟨k, t, hk, ht⟩
    exact ⟨k, t, List.getElem?_append_left (List.getElem?_eq_some_iff.mp hk).1 ▸ hk, ht⟩
  · rintro s k t choice ⟨hsound, hstaffed⟩ hk hstep
    exact ⟨hsound.advance hk (step_advance choice s.memory t),
      hstaffed.advance hsound hk hstep (step_advance choice s.memory t)⟩
  · refine ⟨Sound.start threadCount queueCapacity, .inl ⟨0, ⟨.popping, []⟩, ?_, .inl rfl⟩⟩
    rw [make, List.getElem?_replicate, if_pos]
    split <;> omega

/-- In every run, no task is run more than once. When the workers have left, every task that was
submitted was run if and only if the queue is empty, which it is if whenever a worker left, another
one was still there, or the queue was empty. -/
theorem tasks_executed_iff (threadCount queueCapacity : ℕ) (actions : List (Action Party Choice)) :
  let s := Concurrent.run protocol (make threadCount queueCapacity) actions
  (∀ task, executions s task ≤ 1)
    ∧ (Joined s →
        ((∀ task ∈ s.memory.returned, s.memory.finished.count task = 1) ↔ s.memory.queue = []))
    ∧ (Along (step protocol) Drained (make threadCount queueCapacity) actions → Joined s →
        s.memory.queue = [])
  := by
  intro s
  have hsound : Sound s := Sound.run threadCount queueCapacity actions
  refine ⟨hsound.executions_le, hsound.executed_iff, fun hdrained hjoined => ?_⟩
  rcases Staffed.run threadCount queueCapacity hdrained with ⟨k, t, hk, ht⟩ | ⟨-, hqueue⟩
  · obtain ⟨hpopping, hchecking⟩ := hjoined.2 t (List.mem_of_getElem? hk)
    exact absurd ht (not_or.mpr ⟨hpopping, hchecking⟩)
  · exact hqueue

/-- One worker finds the queue empty. Then a task is submitted, and the destructor sets the flag,
before the worker loads it. -/
def submittedLate : List (Action Party Choice) :=
  [.advance 0 .finish, .call .submitter, .advance 1 .submit, .advance 1 .submit, .call .destructor,
    .advance 2 .finish, .advance 0 .finish]

/-- The task was submitted, and is not run. -/
theorem submittedLate_not_executed :
  let s := Concurrent.run protocol (make 1 2) submittedLate
  Joined s ∧ s.memory.returned = [0] ∧ executions s 0 = 0 ∧ s.memory.queue = [0]
  := by
  decide +kernel

end ThreadPool
