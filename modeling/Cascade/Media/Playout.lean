import Cascade.Library.Runs
import Cascade.Media.JitterBuffer

/-!
# Playout accounting

What the results of a jitter buffer are, in terms of the calls that were made before. A history
of calls determines what should become of each slot (`Resolves`): the slots follow one after the
other from the first frame that arrived on, a slot is filled by the latest frame that arrived for
it, and it is given up when its time has come and no frame has arrived. The buffer keeps to this
as long as the numbers of the slots fit in 32 bits and the times in 64 (`playout_accounting`).
-/

open Runs Window

namespace Media

/-- A call, with what it returned. -/
inductive Entry
  | pushed (sequence : UInt32) (payload : List UInt8) (arrivalTimeMs : UInt64)
  | pulled (nowMs : UInt64) (result : PullResult)
deriving DecidableEq

/-- The results that fill a slot. -/
def Entry.result? : Entry → Option PullResult
  | .pushed _ _ _ => none
  | .pulled _ result => if result.kind = .notReady then none else some result

/-- The results so far, apart from those that say that nothing is due. -/
def results (history : List Entry) : List PullResult :=
  history.filterMap Entry.result?

/-- The number and the time of the first frame that arrived. -/
def firstPush (history : List Entry) : Option (UInt32 × UInt64) :=
  history.findSome? fun
    | .pushed sequence _ arrivalTimeMs => some (sequence, arrivalTimeMs)
    | .pulled _ _ => none

/-- The latest payload that arrived with a number. -/
def latest (history : List Entry) (sequence : UInt32) : Option (List UInt8) :=
  history.foldl (fun found entry =>
    match entry with
    | .pushed sequence' payload _ => if sequence' = sequence then some payload else found
    | .pulled _ _ => found) none

/-- When a slot is due, counted from the first frame. -/
def due (frameIntervalMs targetDelayMs : UInt32) (arrivalMs : UInt64) (slot : ℕ) : ℕ :=
  arrivalMs.toNat + targetDelayMs.toNat + slot * frameIntervalMs.toNat

/-- What a pull should return after a history of calls. -/
def Resolves (frameIntervalMs targetDelayMs : UInt32) (before : List Entry) (nowMs : UInt64)
    (r : PullResult) : Prop :=
  match firstPush before with
  | none => r.kind = .notReady
  | some (base, arrivalMs) =>
      let slot := (results before).length
      match r.kind with
      | .packet =>
          r.sequence.toNat = base.toNat + slot ∧ latest before r.sequence = some r.payload
      | .concealed =>
          r.sequence.toNat = base.toNat + slot ∧ latest before r.sequence = none
            ∧ due frameIntervalMs targetDelayMs arrivalMs slot ≤ nowMs.toNat
      | .notReady =>
          latest before (UInt32.ofNat (base.toNat + slot)) = none
            ∧ nowMs.toNat < due frameIntervalMs targetDelayMs arrivalMs slot

/-! ### Runs -/

/-- The calls to a jitter buffer. -/
inductive BufferCall
  | push (sequence : UInt32) (payload : List UInt8) (arrivalTimeMs : UInt64)
  | pull (nowMs : UInt64)
deriving DecidableEq

/-- A jitter buffer, with the calls made to it. -/
structure Playout where
  buffer : JitterBuffer
  history : List Entry

namespace Playout

/-- A new buffer. -/
def start (frameIntervalMs targetDelayMs : UInt32) : Playout :=
  ⟨.make frameIntervalMs targetDelayMs, []⟩

/-- A call, noted with its result. -/
def step (p : Playout) : BufferCall → Playout
  | .push sequence payload arrivalTimeMs =>
      ⟨p.buffer.push sequence payload arrivalTimeMs,
        p.history ++ [.pushed sequence payload arrivalTimeMs]⟩
  | .pull nowMs => ⟨(p.buffer.pull nowMs).2, p.history ++ [.pulled nowMs (p.buffer.pull nowMs).1]⟩

/-- The buffer after some calls. -/
def run (p : Playout) (calls : List BufferCall) : Playout :=
  calls.foldl step p

/-- A pull is made while the number of the next slot fits in 32 bits and the time at which it is
due in 64. -/
def Allowed (p : Playout) : BufferCall → Prop
  | .push _ _ _ => True
  | .pull _ =>
      ∀ first ∈ firstPush p.history,
        first.1.toNat + (results p.history).length < 2 ^ 32
          ∧ due p.buffer.frameIntervalMs p.buffer.targetDelayMs first.2
              (results p.history).length < 2 ^ 64

instance (p : Playout) (call : BufferCall) : Decidable (p.Allowed call) :=
  match call with
  | .push _ _ _ => inferInstanceAs (Decidable True)
  -- not by instance search: a pair of machine words also has one that tries all of them
  | .pull _ => Option.decidableForallMem (firstPush p.history)

end Playout

/-! ### Longer histories -/

section Histories

variable (history : List Entry) (sequence : UInt32) (payload : List UInt8)
  (arrivalMs nowMs : UInt64) (r : PullResult)

@[simp]
theorem results_pushed :
  results (history ++ [.pushed sequence payload arrivalMs]) = results history
  := by
  simp [results, Entry.result?]

@[simp]
theorem results_pulled :
  results (history ++ [.pulled nowMs r])
    = results history ++ if r.kind = .notReady then [] else [r]
  := by
  rw [results, List.filterMap_append]
  split <;> simp [results, Entry.result?, *]

@[simp]
theorem firstPush_pushed :
  firstPush (history ++ [.pushed sequence payload arrivalMs])
    = (firstPush history).or (some (sequence, arrivalMs))
  := by
  simp [firstPush, List.findSome?_append]

@[simp]
theorem firstPush_pulled :
  firstPush (history ++ [.pulled nowMs r]) = firstPush history
  := by
  simp [firstPush, List.findSome?_append]

@[simp]
theorem latest_pushed (sequence' : UInt32) :
  latest (history ++ [.pushed sequence payload arrivalMs]) sequence'
    = if sequence = sequence' then some payload else latest history sequence'
  := by
  simp [latest]

@[simp]
theorem latest_pulled (sequence' : UInt32) :
  latest (history ++ [.pulled nowMs r]) sequence' = latest history sequence'
  := by
  simp [latest]

/-- Before the first frame there is none with any number. -/
theorem latest_eq_none {history : List Entry} (h : firstPush history = none) :
  latest history sequence = none
  := by
  induction history using List.reverseRecOn with
  | nil => rfl
  | append_singleton history entry ih =>
      cases entry with
      | pushed => simp at h
      | pulled =>
          rw [firstPush_pulled] at h
          rw [latest_pulled, ih h]

end Histories

namespace JitterBuffer

variable (j : JitterBuffer) (sequence : UInt32) (payload : List UInt8) (arrivalMs : UInt64)

theorem begin_eq :
  (j.begin sequence arrivalMs).frameIntervalMs = j.frameIntervalMs
    ∧ (j.begin sequence arrivalMs).targetDelayMs = j.targetDelayMs
    ∧ (j.begin sequence arrivalMs).concealedCount = j.concealedCount
    ∧ (j.begin sequence arrivalMs).packetsPlayed = j.packetsPlayed
    ∧ (j.begin sequence arrivalMs).buffer = j.buffer
  := by
  rw [begin]
  split <;> exact ⟨rfl, rfl, rfl, rfl, rfl⟩

/-- A frame is entered for slots from the next one on. -/
theorem push_eq :
  ∃ late b, j.push sequence payload arrivalMs
      = { j.begin sequence arrivalMs with lateAfterDeadline := late, buffer := b }
    ∧ (∀ s, (j.begin sequence arrivalMs).nextSequence ≤ s →
        b.lookup s = if sequence = s then some payload else j.buffer.lookup s)
    ∧ ∀ s ∈ b, s ∈ j.buffer ∨ (j.begin sequence arrivalMs).nextSequence ≤ s
  := by
  obtain ⟨-, -, -, -, hbuffer⟩ := j.begin_eq sequence arrivalMs
  rw [push]
  by_cases hlate : sequence < (j.begin sequence arrivalMs).nextSequence
  · simp only [if_pos hlate]
    refine ⟨_, j.buffer, by rw [← hbuffer], ?_, fun s hs => .inl hs⟩
    intro s hs
    have hne : sequence ≠ s := by
      rintro rfl
      exact absurd hlate (UInt32.not_lt.mpr hs)
    rw [if_neg hne]
  · simp only [if_neg hlate, hbuffer]
    refine ⟨_, j.buffer.insert sequence payload, rfl, ?_, ?_⟩
    · intro s _
      split
      · rename_i heq
        rw [heq, Finmap.lookup_insert]
      · rename_i hne
        rw [Finmap.lookup_insert_of_ne _ (Ne.symm hne)]
    · intro s hs
      rcases Finmap.mem_insert.mp hs with rfl | hs
      · exact .inr (UInt32.not_lt.mp hlate)
      · exact .inl hs

/-- A pull that resolves the next slot. -/
structure Advances (j : JitterBuffer) (nowMs : UInt64) (r : PullResult) (j' : JitterBuffer) :
    Prop where
  started : j'.started = j.started
  interval : j'.frameIntervalMs = j.frameIntervalMs
  delay : j'.targetDelayMs = j.targetDelayMs
  arrival : j'.baseArrivalMs = j.baseArrivalMs
  base : j'.baseSequence = j.baseSequence
  sequence : r.sequence = j.nextSequence
  next : j'.nextSequence = j.nextSequence + 1
  others : ∀ s, s ≠ j.nextSequence → j'.buffer.lookup s = j.buffer.lookup s
  taken : j.nextSequence ∉ j'.buffer
  played : j'.packetsPlayed = j.packetsPlayed + 1
  concealed : j'.concealedCount = j.concealedCount + if r.kind = .concealed then 1 else 0
  kind : (r.kind = .packet ∧ j.buffer.lookup j.nextSequence = some r.payload)
    ∨ (r.kind = .concealed ∧ j.buffer.lookup j.nextSequence = none ∧ j.deadline ≤ nowMs)

/-- A pull resolves the next slot, or it is too early for that. -/
theorem pull_cases (nowMs : UInt64) :
  (j.pull nowMs = ({}, j)
      ∧ (j.started = false
        ∨ j.started = true ∧ j.buffer.lookup j.nextSequence = none ∧ nowMs < j.deadline))
    ∨ (j.started = true ∧ j.Advances nowMs (j.pull nowMs).1 (j.pull nowMs).2)
  := by
  rw [pull]
  by_cases hstarted : j.started = true
  · rw [if_pos hstarted]
    cases hlookup : j.buffer.lookup j.nextSequence with
    | some payload =>
        right
        refine ⟨hstarted, rfl, rfl, rfl, rfl, rfl, rfl, rfl, ?_, ?_, rfl, rfl, .inl ⟨rfl, hlookup⟩⟩
        · exact fun s hs => Finmap.lookup_erase_ne hs
        · exact Finmap.notMem_erase_self
    | none =>
        dsimp only
        by_cases hdue : j.deadline ≤ nowMs
        · right
          rw [if_pos hdue]
          exact ⟨hstarted, rfl, rfl, rfl, rfl, rfl, rfl, rfl, fun _ _ => rfl,
            Finmap.lookup_eq_none.mp hlookup, rfl, rfl, .inr ⟨rfl, hlookup, hdue⟩⟩
        · left
          rw [if_neg hdue]
          exact ⟨rfl, .inr ⟨hstarted, rfl, UInt64.not_le.mp hdue⟩⟩
  · rw [if_neg hstarted]
    exact .inl ⟨rfl, .inl (Bool.eq_false_iff.mpr hstarted)⟩

end JitterBuffer

/-! ### The invariant -/

/-- The fields of the buffer are what the history says, and so are the results. -/
structure Playout.Accounted (p : Playout) : Prop where
  first : firstPush p.history
    = if p.buffer.started then some (p.buffer.baseSequence, p.buffer.baseArrivalMs) else none
  empty : p.buffer.started = false → p.buffer.buffer = ∅
  played : p.buffer.Played (results p.history)
  holds : p.buffer.started = true →
    p.buffer.baseSequence.toNat + (results p.history).length < 2 ^ 32 →
      ∀ sequence, p.buffer.nextSequence ≤ sequence →
        p.buffer.buffer.lookup sequence = latest p.history sequence
  above : ∀ sequence ∈ p.buffer.buffer, p.buffer.nextSequence ≤ sequence
  resolved : ∀ before nowMs r after, p.history = before ++ .pulled nowMs r :: after →
    Resolves p.buffer.frameIntervalMs p.buffer.targetDelayMs before nowMs r
  concealed : p.buffer.concealedCount
    = (results p.history).countP (fun r => r.kind = .concealed)
  count : p.buffer.packetsPlayed = (results p.history).length

namespace Playout.Accounted

variable {p : Playout}

theorem start (frameIntervalMs targetDelayMs : UInt32) :
  (Playout.start frameIntervalMs targetDelayMs).Accounted
  := by
  constructor
  case first => rfl
  case empty => exact fun _ => rfl
  case played => exact .start frameIntervalMs targetDelayMs
  case holds =>
    intro h
    cases h
  case above =>
    intro sequence h
    exact absurd h Finmap.notMem_empty
  case resolved =>
    intro before nowMs r after h
    cases before <;> cases h
  case concealed => rfl
  case count => rfl

/-- The next slot, while its number fits in 32 bits. -/
theorem nextSequence_eq (h : p.Accounted)
    (hposition : p.buffer.baseSequence.toNat + (results p.history).length < 2 ^ 32) :
  p.buffer.nextSequence.toNat = p.buffer.baseSequence.toNat + (results p.history).length
  := by
  rw [h.played.next, UInt32.toNat_ofNat_of_lt' hposition]

/-- The deadline of the next slot, while it fits in 64 bits. -/
theorem deadline_eq (h : p.Accounted)
    (hposition : p.buffer.baseSequence.toNat + (results p.history).length < 2 ^ 32)
    (hdue : due p.buffer.frameIntervalMs p.buffer.targetDelayMs p.buffer.baseArrivalMs
      (results p.history).length < 2 ^ 64) :
  p.buffer.deadline.toNat = due p.buffer.frameIntervalMs p.buffer.targetDelayMs
    p.buffer.baseArrivalMs (results p.history).length
  := by
  have hnext := h.nextSequence_eq hposition
  have hslot : (p.buffer.nextSequence - p.buffer.baseSequence).toNat
      = (results p.history).length := by
    rw [UInt32.toNat_sub_of_le _ _ (UInt32.le_iff_toNat_le.mpr (by omega)), hnext,
      Nat.add_sub_cancel_left]
  rw [due] at hdue ⊢
  rw [JitterBuffer.deadline]
  simp only [UInt64.toNat_add, UInt64.toNat_mul, UInt32.toNat_toUInt64, hslot]
  rw [Nat.mod_eq_of_lt (a := _ * _) (by omega),
    Nat.mod_eq_of_lt (a := _ + p.buffer.targetDelayMs.toNat) (by omega), Nat.mod_eq_of_lt hdue]

/-- The first frame that arrives sets the base, later ones find it set. -/
theorem begun (h : p.Accounted) (sequence : UInt32) (arrivalMs : UInt64) :
  (p.buffer.begin sequence arrivalMs).started = true
    ∧ (firstPush p.history).or (some (sequence, arrivalMs))
      = some ((p.buffer.begin sequence arrivalMs).baseSequence,
          (p.buffer.begin sequence arrivalMs).baseArrivalMs)
    ∧ ((p.buffer.begin sequence arrivalMs).baseSequence.toNat
          + (results p.history).length < 2 ^ 32 →
        ∀ s, (p.buffer.begin sequence arrivalMs).nextSequence ≤ s →
          p.buffer.buffer.lookup s = latest p.history s)
    ∧ ∀ s ∈ p.buffer.buffer, (p.buffer.begin sequence arrivalMs).nextSequence ≤ s
  := by
  have hfirst := h.first
  rw [JitterBuffer.begin]
  by_cases hstarted : p.buffer.started = true
  · rw [if_pos hstarted] at hfirst ⊢
    rw [hfirst]
    exact ⟨hstarted, rfl, h.holds hstarted, h.above⟩
  · have hempty := h.empty (Bool.eq_false_iff.mpr hstarted)
    rw [if_neg hstarted] at hfirst ⊢
    rw [hfirst, hempty]
    refine ⟨rfl, rfl, ?_, ?_⟩
    · intro _ s _
      rw [latest_eq_none s hfirst, Finmap.lookup_empty]
    · intro s hs
      exact absurd hs Finmap.notMem_empty

theorem push (h : p.Accounted) (sequence : UInt32) (payload : List UInt8) (arrivalMs : UInt64) :
  (p.step (.push sequence payload arrivalMs)).Accounted
  := by
  obtain ⟨hstarted, hfirst, hholds, habove⟩ := h.begun sequence arrivalMs
  have hplayed := h.played.push sequence payload arrivalMs
  obtain ⟨late, b, hpush, hlookup, hmem⟩ := p.buffer.push_eq sequence payload arrivalMs
  obtain ⟨hinterval, hdelay, hconcealed, hcount, -⟩ := p.buffer.begin_eq sequence arrivalMs
  simp only [Playout.step]
  rw [hpush] at hplayed ⊢
  constructor
  case first =>
    rw [firstPush_pushed, hfirst]
    simp [hstarted]
  case empty =>
    intro hno
    simp only [hstarted] at hno
    cases hno
  case played => rwa [results_pushed]
  case holds =>
    intro _ hposition s hs
    rw [results_pushed] at hposition
    simp only [latest_pushed, hlookup s hs, hholds hposition s hs]
  case above =>
    intro s hs
    rcases hmem s hs with hold | hnew
    · exact habove s hold
    · exact hnew
  case resolved =>
    intro before nowMs r after heq
    simp only [hinterval, hdelay]
    rcases split_concat heq with ⟨-, hlast⟩ | ⟨after', hbefore⟩
    · cases hlast
    · exact h.resolved before nowMs r after' hbefore
  case concealed =>
    rw [results_pushed, ← h.concealed]
    exact hconcealed
  case count =>
    rw [results_pushed, ← h.count]
    exact hcount

/-- A pull that comes too early. -/
theorem pull_early (h : p.Accounted) {nowMs : UInt64} (hallowed : p.Allowed (.pull nowMs))
    (hpull : p.buffer.pull nowMs = ({}, p.buffer))
    (hearly : p.buffer.started = false
      ∨ p.buffer.started = true ∧ p.buffer.buffer.lookup p.buffer.nextSequence = none
        ∧ nowMs < p.buffer.deadline) :
  (p.step (.pull nowMs)).Accounted
  := by
  have hfirst := h.first
  simp only [Playout.step]
  rw [hpull]
  constructor
  case first => rwa [firstPush_pulled]
  case empty => exact h.empty
  case played => simpa using h.played
  case holds => simpa using h.holds
  case above => exact h.above
  case resolved =>
    intro before nowMs' r after heq
    rcases split_concat heq with ⟨rfl, hlast⟩ | ⟨after', hbefore⟩
    · obtain ⟨rfl, rfl⟩ := Entry.pulled.inj hlast
      rcases hearly with hno | ⟨hstarted, hlookup, hlt⟩
      · rw [hno] at hfirst
        rw [Resolves, hfirst]
        rfl
      · rw [hstarted, if_pos rfl] at hfirst
        obtain ⟨hposition, hdue⟩ := hallowed _ hfirst
        rw [Resolves, hfirst]
        simp only
        rw [← h.played.next, ← h.deadline_eq hposition hdue,
          ← h.holds hstarted hposition _ (UInt32.le_refl _)]
        exact ⟨hlookup, UInt64.lt_iff_toNat_lt.mp hlt⟩
    · exact h.resolved before nowMs' r after' hbefore
  case concealed => simpa using h.concealed
  case count => simpa using h.count

/-- A pull that resolves the next slot. -/
theorem pull_due (h : p.Accounted) {nowMs : UInt64} (hallowed : p.Allowed (.pull nowMs))
    (hstarted : p.buffer.started = true)
    (hadv : p.buffer.Advances nowMs (p.buffer.pull nowMs).1 (p.buffer.pull nowMs).2) :
  (p.step (.pull nowMs)).Accounted
  := by
  have hfirst := h.first
  rw [hstarted, if_pos rfl] at hfirst
  obtain ⟨hposition, hdue⟩ := hallowed _ hfirst
  have hnext := h.nextSequence_eq hposition
  have hlatest := h.holds hstarted hposition _ (UInt32.le_refl _)
  have hkind : (p.buffer.pull nowMs).1.kind ≠ .notReady := by
    rcases hadv.kind with ⟨hpacket, -⟩ | ⟨hconcealed, -⟩
    · rw [hpacket]
      simp
    · rw [hconcealed]
      simp
  have hplayed : (p.buffer.pull nowMs).2.Played
      (results p.history ++ [(p.buffer.pull nowMs).1]) := by
    rcases h.played.pull nowMs hposition with ⟨hno, -⟩ | ⟨-, hplayed⟩
    · exact absurd hno hkind
    · exact hplayed
  have hresults : results (p.history ++ [.pulled nowMs (p.buffer.pull nowMs).1])
      = results p.history ++ [(p.buffer.pull nowMs).1] := by
    rw [results_pulled, if_neg hkind]
  simp only [Playout.step]
  constructor
  case first =>
    rw [firstPush_pulled, hfirst]
    simp only [hadv.started, hstarted, hadv.base, hadv.arrival, if_true]
  case empty =>
    intro hno
    simp only [hadv.started, hstarted] at hno
    cases hno
  case played => rwa [hresults]
  case holds =>
    intro _ hposition' s hs
    rw [hresults, List.length_append, List.length_singleton, hadv.base] at hposition'
    simp only [hadv.next, UInt32.le_iff_toNat_le, UInt32.toNat_add, UInt32.reduceToNat] at hs
    rw [latest_pulled, ← h.holds hstarted hposition s (UInt32.le_iff_toNat_le.mpr (by omega))]
    apply hadv.others
    rintro rfl
    omega
  case above =>
    intro s hs
    have hne : s ≠ p.buffer.nextSequence := by
      rintro rfl
      exact hadv.taken hs
    obtain ⟨payload, hlookup⟩ := Finmap.mem_iff.mp hs
    rw [hadv.others s hne] at hlookup
    have hle := h.above s (Finmap.mem_iff.mpr ⟨payload, hlookup⟩)
    have hne' : s.toNat ≠ p.buffer.nextSequence.toNat := fun heq => hne (UInt32.toNat_inj.mp heq)
    simp only [hadv.next]
    rw [UInt32.le_iff_toNat_le] at hle ⊢
    simp only [UInt32.toNat_add, UInt32.reduceToNat]
    omega
  case resolved =>
    intro before nowMs' r after heq
    simp only [hadv.interval, hadv.delay]
    rcases split_concat heq with ⟨rfl, hlast⟩ | ⟨after', hbefore⟩
    · obtain ⟨rfl, rfl⟩ := Entry.pulled.inj hlast
      rw [Resolves, hfirst]
      simp only
      rcases hadv.kind with ⟨hpacket, hlookup⟩ | ⟨hconcealed, hlookup, hle⟩
      · rw [hpacket]
        simp only
        rw [hadv.sequence, ← hlatest, hlookup]
        exact ⟨hnext, rfl⟩
      · rw [hconcealed]
        simp only
        rw [hadv.sequence, ← hlatest, hlookup, ← h.deadline_eq hposition hdue]
        exact ⟨hnext, rfl, UInt64.le_iff_toNat_le.mp hle⟩
    · exact h.resolved before nowMs' r after' hbefore
  case concealed =>
    rw [hresults, List.countP_append, ← h.concealed]
    simp only [hadv.concealed, List.countP_singleton]
    simp
  case count =>
    rw [hresults, List.length_append, ← h.count]
    exact hadv.played

theorem step (h : p.Accounted) {call : BufferCall} (hallowed : p.Allowed call) :
  (p.step call).Accounted
  := by
  cases call with
  | push sequence payload arrivalMs => exact h.push sequence payload arrivalMs
  | pull nowMs =>
      rcases p.buffer.pull_cases nowMs with ⟨hpull, hearly⟩ | ⟨hstarted, hadv⟩
      · exact h.pull_early hallowed hpull hearly
      · exact h.pull_due hallowed hstarted hadv

theorem run (h : p.Accounted) {calls : List BufferCall}
    (halong : Along Playout.step Playout.Allowed p calls) :
  (p.run calls).Accounted
  := by
  apply halong.invariant _ h
  intro p call h hallowed
  exact h.step hallowed

end Playout.Accounted

/-- The parameters of the buffer stay. -/
theorem Playout.run_params (p : Playout) (calls : List BufferCall) :
  (p.run calls).buffer.frameIntervalMs = p.buffer.frameIntervalMs
    ∧ (p.run calls).buffer.targetDelayMs = p.buffer.targetDelayMs
  := by
  induction calls generalizing p with
  | nil => exact ⟨rfl, rfl⟩
  | cons call calls ih =>
      have hstep : (p.step call).buffer.frameIntervalMs = p.buffer.frameIntervalMs
          ∧ (p.step call).buffer.targetDelayMs = p.buffer.targetDelayMs := by
        cases call with
        | push sequence payload arrivalMs =>
            obtain ⟨late, b, hpush, -⟩ := p.buffer.push_eq sequence payload arrivalMs
            obtain ⟨hinterval, hdelay, -⟩ := p.buffer.begin_eq sequence arrivalMs
            simp only [Playout.step]
            rw [hpush]
            exact ⟨hinterval, hdelay⟩
        | pull nowMs =>
            simp only [Playout.step]
            rcases p.buffer.pull_cases nowMs with ⟨hpull, -⟩ | ⟨-, hadv⟩
            · rw [hpull]
              exact ⟨rfl, rfl⟩
            · exact ⟨hadv.interval, hadv.delay⟩
      rw [Playout.run, List.foldl_cons, ← Playout.run, (ih _).1, (ih _).2]
      exact hstep

/-- In every run in which the number of the next slot and the time at which it is due do not
overflow: the results are numbered one after the other from the first frame that arrived on, each
of them is what the calls before it call for, the counters count them, and no frame is kept for a
slot that is behind. -/
theorem playout_accounting (frameIntervalMs targetDelayMs : UInt32) (calls : List BufferCall)
    (halong : Along Playout.step Playout.Allowed (.start frameIntervalMs targetDelayMs) calls) :
  let p := (Playout.start frameIntervalMs targetDelayMs).run calls
  (∀ first ∈ firstPush p.history, (results p.history).map (·.sequence.toNat)
      = List.range' first.1.toNat (results p.history).length)
    ∧ (firstPush p.history = none → results p.history = [])
    ∧ (∀ before nowMs r after, p.history = before ++ .pulled nowMs r :: after →
        Resolves frameIntervalMs targetDelayMs before nowMs r)
    ∧ p.buffer.concealedCount = (results p.history).countP (fun r => r.kind = .concealed)
    ∧ p.buffer.packetsPlayed = (results p.history).length
    ∧ ∀ sequence ∈ p.buffer.buffer, p.buffer.nextSequence ≤ sequence
  := by
  intro p
  have h : p.Accounted := (Playout.Accounted.start frameIntervalMs targetDelayMs).run halong
  obtain ⟨hinterval, hdelay⟩ := Playout.run_params (.start frameIntervalMs targetDelayMs) calls
  have hfirst := h.first
  refine ⟨?_, ?_, ?_, h.concealed, h.count, h.above⟩
  · intro first hmem
    rw [Option.mem_def, hfirst] at hmem
    split at hmem
    · obtain rfl := Option.some.inj hmem
      exact h.played.sequences
    · cases hmem
  · intro hnone
    rw [hfirst] at hnone
    split at hnone
    · cases hnone
    · rename_i hstarted
      exact h.played.notStarted (Bool.eq_false_iff.mpr hstarted)
  · intro before nowMs r after heq
    have hresolved := h.resolved before nowMs r after heq
    rwa [show p.buffer.frameIntervalMs = _ from hinterval,
      show p.buffer.targetDelayMs = _ from hdelay] at hresolved

/-- A run with a frame that arrives out of order, one that is replaced, one that is lost and one
that is late. -/
def reordered : List BufferCall :=
  [.pull 0, .push 7 [1] 100, .push 9 [3] 105, .push 7 [2] 106, .pull 110, .pull 150, .pull 190,
    .push 8 [4] 191, .pull 191]

/-- The first slot is filled with the later one of its two frames, the second one is given up when
it is due. -/
theorem playout_accounting_reordered :
  let p := (Playout.start 20 50).run reordered
  Along Playout.step Playout.Allowed (.start 20 50) reordered
    ∧ results p.history = [⟨.packet, 7, [2]⟩, ⟨.concealed, 8, [2]⟩, ⟨.packet, 9, [3]⟩]
    ∧ p.buffer.concealedCount = (results p.history).countP (fun r => r.kind = .concealed)
    ∧ p.buffer.packetsPlayed = (results p.history).length
  := by
  intro p
  have halong : Along Playout.step Playout.Allowed (.start 20 50) reordered := by decide +kernel
  have hall := playout_accounting 20 50 reordered halong
  exact ⟨halong, by decide +kernel, hall.2.2.2.1, hall.2.2.2.2.1⟩

end Media
