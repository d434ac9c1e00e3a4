import Cascade.Media.JitterBuffer

/-!
# Frames that arrive out of order

Consecutive frames that arrive in any order before the first pull. The first one to arrive becomes
the first one to be played, whatever its number is. Frames with a smaller number are discarded,
although their slots have not been resolved. So the frames are played as they should be if and only
if the one with the smallest number arrives first (`JitterBuffer.reordering_iff`).
-/

namespace Media

/-- A frame that arrives. -/
structure Arrival where
  sequence : UInt32
  payload : List UInt8
  arrivalTimeMs : UInt64

/-- Consecutive frames, numbered from `a` on. -/
def frames (a : UInt32) : List (List UInt8) → List (UInt32 × List UInt8)
  | [] => []
  | payload :: payloads => (a, payload) :: frames (a + 1) payloads

/-- The frame of an arrival. -/
def Arrival.frame (x : Arrival) : UInt32 × List UInt8 := (x.sequence, x.payload)

/-! ### Consecutive numbers -/

variable {payloads : List (List UInt8)}

/-- As long as the numbers do not wrap, they are above the first one. -/
theorem lt_of_mem_frames {a : UInt32} (hwrap : a.toNat + 1 + payloads.length ≤ 2 ^ 32)
    {f : UInt32 × List UInt8} (hf : f ∈ frames (a + 1) payloads) :
  a < f.1
  := by
  induction payloads generalizing a with
  | nil => cases hf
  | cons payload payloads ih =>
      rw [List.length_cons] at hwrap
      have hnext : (a + 1).toNat = a.toNat + 1 := by
        rw [UInt32.toNat_add, UInt32.toNat_one]
        omega
      have hlt : a < a + 1 := by
        rw [UInt32.lt_iff_toNat_lt, hnext]
        apply Nat.lt_succ_self
      rw [frames, List.mem_cons] at hf
      rcases hf with rfl | hf
      · exact hlt
      · apply UInt32.lt_trans hlt
        apply ih _ hf
        omega

theorem le_of_mem_frames {a : UInt32} (hwrap : a.toNat + payloads.length ≤ 2 ^ 32)
    {f : UInt32 × List UInt8} (hf : f ∈ frames a payloads) :
  a ≤ f.1
  := by
  cases payloads with
  | nil => cases hf
  | cons payload payloads =>
      rw [List.length_cons] at hwrap
      rw [frames, List.mem_cons] at hf
      rcases hf with rfl | hf
      · apply UInt32.le_refl
      · apply UInt32.le_of_lt
        apply lt_of_mem_frames _ hf
        omega

theorem nodup_frames {a : UInt32} (hwrap : a.toNat + payloads.length ≤ 2 ^ 32) :
  ((frames a payloads).map Prod.fst).Nodup
  := by
  induction payloads generalizing a with
  | nil => exact List.nodup_nil
  | cons payload payloads ih =>
      rw [List.length_cons] at hwrap
      rw [frames, List.map_cons, List.nodup_cons]
      constructor
      · intro hmem
        obtain ⟨f, hf, heq⟩ := List.mem_map.mp hmem
        have hlt := lt_of_mem_frames (by omega) hf
        rw [heq] at hlt
        exact UInt32.lt_irrefl a hlt
      · -- only if there are more frames does the next number not wrap
        cases payloads with
        | nil => exact List.nodup_nil
        | cons payload' payloads =>
            apply ih
            rw [List.length_cons] at hwrap ⊢
            rw [UInt32.toNat_add, UInt32.toNat_one]
            omega

namespace JitterBuffer

/-- The buffer after some arrivals. -/
def pushAll (j : JitterBuffer) (arrivals : List Arrival) : JitterBuffer :=
  arrivals.foldl (fun j x => j.push x.sequence x.payload x.arrivalTimeMs) j

/-- The results of pulls, one after the other. -/
def pullAll : JitterBuffer → List UInt64 → List PullResult
  | _, [] => []
  | j, nowMs :: times => (j.pull nowMs).1 :: pullAll (j.pull nowMs).2 times

/-! ### Pushes -/

section Pushes

variable {j : JitterBuffer}

/-- A frame for the playout position or a slot ahead of it is kept, one that is behind is
counted. -/
theorem push_of_started (hstarted : j.started = true) (x : Arrival) :
  let j' := j.push x.sequence x.payload x.arrivalTimeMs
  j'.started = true ∧ j'.nextSequence = j.nextSequence
    ∧ j'.lateAfterDeadline
      = j.lateAfterDeadline + (if x.sequence < j.nextSequence then 1 else 0)
    ∧ j'.buffer = if x.sequence < j.nextSequence then j.buffer
        else j.buffer.insert x.sequence x.payload
  := by
  intro j'
  have hj' : j' = if x.sequence < j.nextSequence
      then { j with lateAfterDeadline := j.lateAfterDeadline + 1 }
      else { j with buffer := j.buffer.insert x.sequence x.payload } := by
    simp only [j']
    rw [push, begin, if_pos hstarted]
  rw [hj']
  split
  · exact ⟨hstarted, rfl, rfl, rfl⟩
  · exact ⟨hstarted, rfl, rfl, rfl⟩

theorem pushAll_cons (j : JitterBuffer) (x : Arrival) (arrivals : List Arrival) :
  j.pushAll (x :: arrivals) = (j.push x.sequence x.payload x.arrivalTimeMs).pushAll arrivals
  := rfl

/-- The playout position stays, and each frame that is behind it is counted. -/
theorem pushAll_position (hstarted : j.started = true) (arrivals : List Arrival) :
  (j.pushAll arrivals).started = true
    ∧ (j.pushAll arrivals).nextSequence = j.nextSequence
    ∧ (j.pushAll arrivals).lateAfterDeadline
      = j.lateAfterDeadline + arrivals.countP (·.sequence < j.nextSequence)
  := by
  induction arrivals generalizing j with
  | nil => exact ⟨hstarted, rfl, rfl⟩
  | cons x arrivals ih =>
      obtain ⟨hstarted', hnext, hlate, -⟩ := push_of_started hstarted x
      obtain ⟨hstarted'', hnext', hlate'⟩ := ih hstarted'
      rw [pushAll_cons]
      refine ⟨hstarted'', hnext'.trans hnext, ?_⟩
      rw [hlate', hlate, hnext, List.countP_cons]
      simp only [decide_eq_true_eq]
      omega

theorem lookup_pushAll_of_notMem (hstarted : j.started = true) {arrivals : List Arrival}
    {sequence : UInt32} (h : sequence ∉ arrivals.map Arrival.sequence) :
  (j.pushAll arrivals).buffer.lookup sequence = j.buffer.lookup sequence
  := by
  induction arrivals generalizing j with
  | nil => rfl
  | cons x arrivals ih =>
      rw [List.map_cons, List.mem_cons, not_or] at h
      obtain ⟨hstarted', -, -, hbuffer⟩ := push_of_started hstarted x
      rw [pushAll_cons, ih hstarted' h.2, hbuffer]
      split
      · rfl
      · rw [Finmap.lookup_insert_of_ne _ h.1]

/-- A frame that is not behind is kept, if no other one has its number. -/
theorem lookup_pushAll (hstarted : j.started = true) {arrivals : List Arrival}
    (hnodup : (arrivals.map Arrival.sequence).Nodup) {x : Arrival} (hx : x ∈ arrivals)
    (hahead : j.nextSequence ≤ x.sequence) :
  (j.pushAll arrivals).buffer.lookup x.sequence = some x.payload
  := by
  induction arrivals generalizing j with
  | nil => cases hx
  | cons y arrivals ih =>
      rw [List.map_cons, List.nodup_cons] at hnodup
      obtain ⟨hstarted', hnext, -, hbuffer⟩ := push_of_started hstarted y
      rw [pushAll_cons]
      rcases List.mem_cons.mp hx with rfl | hx
      · rw [lookup_pushAll_of_notMem hstarted' hnodup.1, hbuffer,
          if_neg (UInt32.not_lt.mpr hahead), Finmap.lookup_insert]
      · apply ih hstarted' hnodup.2 hx
        rwa [hnext]

end Pushes

/-! ### Pulls -/

/-- The frames from the playout position on are played, if they are there. -/
theorem pullAll_eq {j : JitterBuffer} (hstarted : j.started = true)
    (hwrap : j.nextSequence.toNat + payloads.length ≤ 2 ^ 32)
    (hbuffer : ∀ f ∈ frames j.nextSequence payloads, j.buffer.lookup f.1 = some f.2)
    {times : List UInt64} (htimes : times.length = payloads.length) :
  j.pullAll times = (frames j.nextSequence payloads).map fun f => ⟨.packet, f.1, f.2⟩
  := by
  induction payloads generalizing j times with
  | nil =>
      rw [List.length_eq_zero_iff.mp htimes]
      rfl
  | cons payload payloads ih =>
      obtain ⟨nowMs, times, rfl⟩ := List.exists_cons_of_length_eq_add_one htimes
      rw [List.length_cons] at hwrap
      have hfirst : j.buffer.lookup j.nextSequence = some payload := hbuffer _ List.mem_cons_self
      rw [pullAll, pull, if_pos hstarted, hfirst, frames, List.map_cons]
      dsimp only
      congr 1
      cases payloads with
      | nil =>
          rw [List.length_eq_zero_iff.mp (Nat.succ.inj htimes)]
          rfl
      | cons payload' payloads =>
          rw [List.length_cons] at hwrap
          apply ih
          case hstarted => exact hstarted
          case htimes => exact Nat.succ.inj htimes
          case hwrap =>
            dsimp only
            rw [UInt32.toNat_add, UInt32.toNat_one, List.length_cons]
            omega
          case hbuffer =>
            intro f hf
            have hlt : j.nextSequence < f.1 := by
              apply lt_of_mem_frames _ hf
              rw [List.length_cons]
              omega
            dsimp only
            rw [Finmap.lookup_erase_ne (UInt32.ne_of_lt hlt).symm]
            exact hbuffer f (List.mem_cons_of_mem _ hf)

/-! ### Frames in any order -/

section Orders

variable {a : UInt32} {payloads : List (List UInt8)} {first : Arrival} {arrivals : List Arrival}

/-- The frame that arrives first becomes the first one to be played. -/
theorem pushAll_make (frameIntervalMs targetDelayMs : UInt32) (first : Arrival)
    (arrivals : List Arrival) :
  let j := (make frameIntervalMs targetDelayMs).pushAll (first :: arrivals)
  j.started = true ∧ j.nextSequence = first.sequence
    ∧ j.lateAfterDeadline = (first :: arrivals).countP (·.sequence < first.sequence)
  := by
  intro j
  have hstarted : ((make frameIntervalMs targetDelayMs).begin first.sequence
      first.arrivalTimeMs).started = true := rfl
  obtain ⟨hstarted', hnext, hlate⟩ := pushAll_position hstarted (first :: arrivals)
  exact ⟨hstarted', hnext, hlate.trans (Nat.zero_add _)⟩

theorem le_sequence (hwrap : a.toNat + payloads.length ≤ 2 ^ 32)
    (hperm : (arrivals.map Arrival.frame).Perm (frames a payloads)) {x : Arrival}
    (hx : x ∈ arrivals) :
  a ≤ x.sequence
  := by
  apply le_of_mem_frames hwrap (f := x.frame)
  apply hperm.mem_iff.mp
  apply List.mem_map_of_mem hx

/-- No frame is behind the one that arrives first if and only if that has the smallest number. -/
theorem countP_eq_zero_iff (hwrap : a.toNat + payloads.length ≤ 2 ^ 32)
    (hperm : ((first :: arrivals).map Arrival.frame).Perm (frames a payloads)) :
  (first :: arrivals).countP (·.sequence < first.sequence) = 0 ↔ first.sequence = a
  := by
  rw [List.countP_eq_zero]
  simp only [decide_eq_true_eq, UInt32.not_lt]
  constructor
  · intro hnone
    obtain ⟨x, hx, hsequence⟩ : ∃ x ∈ first :: arrivals, x.sequence = a := by
      cases payloads with
      | nil => cases hperm.length_eq
      | cons payload payloads =>
          have hmem := hperm.mem_iff.mpr (List.mem_cons_self (a := (a, payload)))
          obtain ⟨x, hx, hframe⟩ := List.mem_map.mp hmem
          exact ⟨x, hx, congrArg Prod.fst hframe⟩
    have hle := hnone x hx
    rw [hsequence] at hle
    exact UInt32.le_antisymm hle (le_sequence hwrap hperm List.mem_cons_self)
  · intro hfirst x hx
    rw [hfirst]
    exact le_sequence hwrap hperm hx

/-- If it has, all frames are played in their order. -/
theorem pullAll_pushAll (frameIntervalMs targetDelayMs : UInt32)
    (hwrap : a.toNat + payloads.length ≤ 2 ^ 32)
    (hperm : ((first :: arrivals).map Arrival.frame).Perm (frames a payloads))
    (hfirst : first.sequence = a) {times : List UInt64}
    (htimes : times.length = payloads.length) :
  ((make frameIntervalMs targetDelayMs).pushAll (first :: arrivals)).pullAll times
    = (frames a payloads).map fun f => ⟨.packet, f.1, f.2⟩
  := by
  obtain ⟨hstarted, hnext, -⟩ := pushAll_make frameIntervalMs targetDelayMs first arrivals
  rw [hfirst] at hnext
  rw [← hnext]
  apply pullAll_eq hstarted
  case hwrap => rwa [hnext]
  case htimes => exact htimes
  case hbuffer =>
    intro f hf
    rw [hnext] at hf
    obtain ⟨x, hx, rfl⟩ := List.mem_map.mp (hperm.mem_iff.mpr hf)
    have hnodup : ((first :: arrivals).map Arrival.sequence).Nodup := by
      have hframes := (hperm.map Prod.fst).nodup_iff.mpr (nodup_frames hwrap)
      rwa [List.map_map] at hframes
    have hkept : (((make frameIntervalMs targetDelayMs).begin first.sequence
        first.arrivalTimeMs).pushAll (first :: arrivals)).buffer.lookup x.sequence
          = some x.payload := by
      apply lookup_pushAll rfl hnodup hx
      exact hfirst.trans_le (le_sequence hwrap hperm hx)
    exact hkept

end Orders

/-- Consecutive frames whose numbers do not wrap, in any order of arrival: as many pulls as there
are frames return them in the order of their numbers, and none is discarded, if and only if the one
with the smallest number is the first to arrive. -/
theorem reordering_iff (frameIntervalMs targetDelayMs a : UInt32) (payloads : List (List UInt8))
    (hwrap : a.toNat + payloads.length ≤ 2 ^ 32) (arrivals : List Arrival)
    (hperm : (arrivals.map Arrival.frame).Perm (frames a payloads)) (times : List UInt64)
    (htimes : times.length = payloads.length) :
  let j := (make frameIntervalMs targetDelayMs).pushAll arrivals
  (j.pullAll times = (frames a payloads).map fun f => ⟨.packet, f.1, f.2⟩)
      ∧ j.lateAfterDeadline = 0
    ↔ ∀ first ∈ arrivals.head?, first.sequence = a
  := by
  intro j
  cases arrivals with
  | nil =>
      rw [List.map_nil, List.nil_perm] at hperm
      have hnone : payloads = [] := by
        cases payloads with
        | nil => rfl
        | cons payload payloads => cases hperm
      rw [hnone, List.length_nil, List.length_eq_zero_iff] at htimes
      rw [hperm, htimes]
      constructor
      · intro _ first hfirst
        cases hfirst
      · intro _
        exact ⟨rfl, rfl⟩
  | cons first arrivals =>
      have hhead : (∀ x ∈ (first :: arrivals).head?, x.sequence = a) ↔ first.sequence = a := by
        simp
      have hlate : j.lateAfterDeadline = 0 ↔ first.sequence = a := by
        obtain ⟨-, -, hlate⟩ := pushAll_make frameIntervalMs targetDelayMs first arrivals
        rw [show j.lateAfterDeadline = _ from hlate]
        apply countP_eq_zero_iff hwrap hperm
      rw [hhead, hlate]
      constructor
      · exact And.right
      · intro hfirst
        refine ⟨?_, hfirst⟩
        apply pullAll_pushAll frameIntervalMs targetDelayMs hwrap hperm hfirst htimes

/-- Of two frames the second arrives first, and the other one is discarded before any pull. -/
theorem reordering_discards :
  let arrivals : List Arrival := [⟨1, [20], 0⟩, ⟨0, [10], 5⟩]
  let j := (make 20 50).pushAll arrivals
  (arrivals.map Arrival.frame).Perm (frames 0 [[10], [20]]) ∧ j.lateAfterDeadline = 1
    ∧ j.pullAll [100, 100] = [⟨.packet, 1, [20]⟩, ⟨.concealed, 2, [20]⟩]
  := by
  decide +kernel

/-- The first of three frames arrives first, the other two are exchanged. -/
theorem reordering_exchanged :
  let arrivals : List Arrival := [⟨7, [10], 0⟩, ⟨9, [30], 5⟩, ⟨8, [20], 9⟩]
  let j := (make 20 50).pushAll arrivals
  j.pullAll [9, 9, 9] = [⟨.packet, 7, [10]⟩, ⟨.packet, 8, [20]⟩, ⟨.packet, 9, [30]⟩]
    ∧ j.lateAfterDeadline = 0
  := by
  intro arrivals
  apply (reordering_iff 20 50 7 [[10], [20], [30]] (by decide) arrivals (by decide +kernel)
    [9, 9, 9] rfl).mpr
  intro first hfirst
  obtain rfl := Option.some.inj hfirst
  rfl

end JitterBuffer

end Media
