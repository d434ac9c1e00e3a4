import Mathlib
import Cascade.Library.Window
import Cascade.Media.NetworkEstimator

/-!
# The bandwidth estimate and the history of the samples

The estimator forgets samples: each call first removes those at the front that have left the
window. Nothing that a later call needs is lost by that. As long as the times do not decrease, the
samples that are kept are those of the whole history that the window covers
(`Tracks.call`), whatever calls there were, so that an estimate is a function of what was recorded
(`estimatedBandwidthKbps_fst`).

The bytes are added up in 64 bits. The estimate is the byte rate of the window as long as their
sum fits (`estimates_exact_iff`).
-/

namespace Media

/-! ### The byte rate of a window -/

/-- The milliseconds since a sample. -/
def Sample.age (s : Sample) (nowMs : UInt64) : ℕ := nowMs.toNat - s.timestampMs.toNat

/-- The samples that the window before a time covers. -/
def inWindow (windowMs : UInt32) (nowMs : UInt64) (history : List Sample) : List Sample :=
  history.filter fun s => s.age nowMs ≤ windowMs.toNat

/-- The bytes of some samples. -/
def totalBytes (samples : List Sample) : ℕ := (samples.map fun s => s.bytes.toNat).sum

/-- The milliseconds since the oldest of some samples, at least 1. -/
def spanMs (nowMs : UInt64) (samples : List Sample) : ℕ :=
  (samples.map fun s => s.age nowMs).foldr max 1

/-- The byte rate of a history over the window before a time, in bits per millisecond. -/
def windowKbps (windowMs : UInt32) (nowMs : UInt64) (history : List Sample) : ℚ :=
  match inWindow windowMs nowMs history with
  | [] => 0
  | oldest :: rest => 8 * totalBytes (oldest :: rest) / spanMs nowMs (oldest :: rest)

theorem spanMs_pos (nowMs : UInt64) (samples : List Sample) :
  0 < spanMs nowMs samples
  := by
  induction samples with
  | nil => exact Nat.one_pos
  | cons s samples ih => exact lt_max_of_lt_right ih

theorem windowKbps_eq (windowMs : UInt32) (nowMs : UInt64) (history : List Sample) :
  windowKbps windowMs nowMs history
    = 8 * totalBytes (inWindow windowMs nowMs history)
      / spanMs nowMs (inWindow windowMs nowMs history)
  := by
  rw [windowKbps]
  cases inWindow windowMs nowMs history with
  | nil => simp [totalBytes]
  | cons oldest rest => rfl

theorem rate_inj (nowMs : UInt64) (samples : List Sample) (m n : ℕ) :
  8 * (m : ℚ) / spanMs nowMs samples = 8 * n / spanMs nowMs samples ↔ m = n
  := by
  have hpos : (spanMs nowMs samples : ℚ) ≠ 0 := Nat.cast_ne_zero.mpr (spanMs_pos ..).ne'
  rw [div_left_inj' hpos, mul_right_inj' (by norm_num), Nat.cast_inj]

/-- In the order of time, the first sample is the oldest. -/
theorem spanMs_cons {nowMs : UInt64} {oldest : Sample} {rest : List Sample}
    (h : ∀ s ∈ rest, oldest.timestampMs ≤ s.timestampMs) :
  spanMs nowMs (oldest :: rest) = max (oldest.age nowMs) 1
  := by
  induction rest with
  | nil => rfl
  | cons s rest ih =>
      have hage : s.age nowMs ≤ oldest.age nowMs := by
        have hle := UInt64.le_iff_toNat_le.mp (h s List.mem_cons_self)
        rw [Sample.age, Sample.age]
        omega
      calc spanMs nowMs (oldest :: s :: rest)
          = max (s.age nowMs) (spanMs nowMs (oldest :: rest)) := max_left_comm ..
        _ = max (oldest.age nowMs) 1 := by
            rw [ih fun s' hs' => h s' (List.mem_cons_of_mem _ hs')]
            apply max_eq_right
            exact le_max_of_le_left hage

/-- The span as it is computed. -/
theorem toNat_span {nowMs : UInt64} {front : Sample} (h : front.timestampMs ≤ nowMs) :
  (if front.timestampMs < nowMs then nowMs - front.timestampMs else 1).toNat
    = max (front.age nowMs) 1
  := by
  rw [Sample.age]
  split
  · next hlt =>
      have := UInt64.lt_iff_toNat_lt.mp hlt
      rw [UInt64.toNat_sub_of_le _ _ h]
      omega
  · next hlt =>
      have := UInt64.le_iff_toNat_le.mp (UInt64.not_lt.mp hlt)
      rw [Nat.sub_eq_zero_of_le this]
      rfl

/-- Of samples in the order of time, the first one in the window is the oldest one there. -/
theorem oldest_of_inWindow {windowMs : UInt32} {nowMs : UInt64} {history rest : List Sample}
    {oldest : Sample} (hordered : history.Pairwise fun a b => a.timestampMs ≤ b.timestampMs)
    (h : inWindow windowMs nowMs history = oldest :: rest) :
  oldest ∈ history ∧ ∀ s ∈ rest, oldest.timestampMs ≤ s.timestampMs
  := by
  have hall := hordered.filter fun s => decide (s.age nowMs ≤ windowMs.toNat)
  rw [← inWindow, h] at hall
  refine ⟨?_, (List.pairwise_cons.mp hall).1⟩
  apply List.mem_of_mem_filter
  rw [← inWindow, h]
  exact List.mem_cons_self

/-- The sum as it is computed, in 64 bits. -/
theorem foldl_bytes (samples : List Sample) (start : UInt64) :
  (samples.foldl (fun total s => total + s.bytes.toUInt64) start).toNat
    = (start.toNat + totalBytes samples) % 2 ^ 64
  := by
  induction samples generalizing start with
  | nil => exact (Nat.mod_eq_of_lt start.toNat_lt).symm
  | cons s samples ih =>
      rw [List.foldl_cons, ih, UInt64.toNat_add, UInt32.toNat_toUInt64, Nat.mod_add_mod]
      simp only [totalBytes, List.map_cons, List.sum_cons, Nat.add_assoc]

namespace NetworkConditionEstimator

/-! ### The samples that are kept -/

/-- The calls that concern the bandwidth. -/
inductive BandwidthCall where
  | record (bytes : UInt32) (nowMs : UInt64)
  | estimate (nowMs : UInt64)

namespace BandwidthCall

/-- The time of a call. -/
def nowMs : BandwidthCall → UInt64
  | record _ nowMs => nowMs
  | estimate nowMs => nowMs

/-- The sample that a call records. -/
def sample? : BandwidthCall → Option Sample
  | record bytes nowMs => some ⟨nowMs, bytes⟩
  | estimate _ => none

/-- The times of the calls do not decrease. -/
def NonDecreasing (calls : List BandwidthCall) : Prop :=
  calls.Pairwise fun a b => a.nowMs ≤ b.nowMs

/-- The history of the samples. -/
def recorded (calls : List BandwidthCall) : List Sample := calls.filterMap sample?

end BandwidthCall

open BandwidthCall

/-- What a call leaves. -/
def call (e : NetworkConditionEstimator ℚ) : BandwidthCall → NetworkConditionEstimator ℚ
  | record bytes nowMs => e.recordReceivedBytes bytes nowMs
  | estimate nowMs => (e.estimatedBandwidthKbps nowMs).2

/-- The estimator after some calls. -/
def calls (e : NetworkConditionEstimator ℚ) (cs : List BandwidthCall) :
    NetworkConditionEstimator ℚ :=
  cs.foldl call e

theorem estimatedBandwidthKbps_snd (e : NetworkConditionEstimator ℚ) (nowMs : UInt64) :
  (e.estimatedBandwidthKbps nowMs).2 = e.evictOldLocked nowMs
  := by
  rw [estimatedBandwidthKbps]
  split <;> rfl

/-- The estimator holds of a history, in the order of time, what the window before the last call
covers. -/
structure Tracks (windowMs : UInt32) (history : List Sample) (lastMs : UInt64)
    (e : NetworkConditionEstimator ℚ) : Prop where
  window : e.bandwidthWindowMs = windowMs
  ordered : history.Pairwise fun a b => a.timestampMs ≤ b.timestampMs
  past : ∀ s ∈ history, s.timestampMs ≤ lastMs
  samples : e.samples = inWindow windowMs lastMs history

section

variable {windowMs : UInt32} {history : List Sample} {lastMs nowMs : UInt64}
  {e : NetworkConditionEstimator ℚ}

/-- For samples of the past, the test of the loop compares the age. -/
theorem old_iff {s : Sample} (h : s.timestampMs ≤ nowMs) :
  windowMs.toUInt64 < nowMs - s.timestampMs ↔ ¬ s.age nowMs ≤ windowMs.toNat
  := by
  rw [UInt64.lt_iff_toNat_lt, UInt64.toNat_sub_of_le _ _ h, UInt32.toNat_toUInt64, ← Sample.age,
    not_le]

/-- Samples are removed as the window moves on. Those that were removed before would be too. -/
theorem samples_evictOldLocked (hwindow : e.bandwidthWindowMs = windowMs)
    (hordered : history.Pairwise fun a b => a.timestampMs ≤ b.timestampMs)
    (hpast : ∀ s ∈ history, s.timestampMs ≤ nowMs) (hle : lastMs ≤ nowMs)
    (hsamples : e.samples = inWindow windowMs lastMs history) :
  (e.evictOldLocked nowMs).samples = inWindow windowMs nowMs history
  := by
  subst hwindow
  have hlast := UInt64.le_iff_toNat_le.mp hle
  rw [evictOldLocked, hsamples, inWindow, Window.dropWhile_filter]
  · apply List.filter_congr
    intro s hs
    simp only [old_iff (hpast s hs), ← decide_not, not_not]
  · apply hordered.imp_of_mem
    intro a b ha hb hab
    have := UInt64.le_iff_toNat_le.mp hab
    simp only [decide_eq_true_eq, old_iff (hpast a ha), old_iff (hpast b hb), Sample.age]
    omega
  · intro s hs
    rw [Bool.not_eq_true', decide_eq_false_iff_not, decide_eq_true_eq, old_iff (hpast s hs),
      Sample.age, Sample.age]
    omega

theorem Tracks.evictOldLocked (h : Tracks windowMs history lastMs e) (hle : lastMs ≤ nowMs) :
  Tracks windowMs history nowMs (e.evictOldLocked nowMs)
  where
  window := h.window
  ordered := h.ordered
  past s hs := UInt64.le_trans (h.past s hs) hle
  samples := by
    apply samples_evictOldLocked h.window h.ordered _ hle h.samples
    intro s hs
    exact UInt64.le_trans (h.past s hs) hle

theorem Tracks.recordReceivedBytes (h : Tracks windowMs history lastMs e)
    (hle : lastMs ≤ nowMs) (bytes : UInt32) :
  Tracks windowMs (history ++ [⟨nowMs, bytes⟩]) nowMs (e.recordReceivedBytes bytes nowMs)
  := by
  have hpast : ∀ s ∈ history ++ [Sample.mk nowMs bytes], s.timestampMs ≤ nowMs := by
    intro s hs
    rcases List.mem_append.mp hs with hs | hs
    · exact UInt64.le_trans (h.past s hs) hle
    · rw [List.mem_singleton.mp hs]
      exact UInt64.le_refl _
  have hordered : (history ++ [Sample.mk nowMs bytes]).Pairwise
      fun a b => a.timestampMs ≤ b.timestampMs := by
    rw [List.pairwise_append]
    refine ⟨h.ordered, List.pairwise_singleton .., ?_⟩
    intro a ha b hb
    rw [List.mem_singleton.mp hb]
    exact UInt64.le_trans (h.past a ha) hle
  -- The new sample has no age yet, at the time of the call before.
  have hage : Sample.age ⟨nowMs, bytes⟩ lastMs ≤ windowMs.toNat := by
    have := UInt64.le_iff_toNat_le.mp hle
    simp only [Sample.age]
    omega
  refine ⟨h.window, hordered, hpast, ?_⟩
  rw [NetworkConditionEstimator.recordReceivedBytes]
  apply samples_evictOldLocked _ hordered hpast hle
  · simp only [h.samples, inWindow, List.filter_append, List.filter_singleton, hage, decide_true,
      cond_true]
  · exact h.window

/-- One call. -/
theorem Tracks.call (h : Tracks windowMs history lastMs e) {c : BandwidthCall}
    (hle : lastMs ≤ c.nowMs) :
  Tracks windowMs (history ++ c.sample?.toList) c.nowMs (e.call c)
  := by
  cases c with
  | record bytes nowMs => exact h.recordReceivedBytes hle bytes
  | estimate nowMs =>
      rw [NetworkConditionEstimator.call, estimatedBandwidthKbps_snd, sample?, Option.toList_none,
        List.append_nil]
      exact h.evictOldLocked hle

/-- Any calls: what is kept is what the window covers of all that was recorded. -/
theorem Tracks.calls (h : Tracks windowMs history lastMs e) {cs : List BandwidthCall}
    (hcs : NonDecreasing (cs ++ [estimate nowMs]))
    (hfirst : ∀ c ∈ cs ++ [estimate nowMs], lastMs ≤ c.nowMs) :
  ∃ last ≤ nowMs, Tracks windowMs (history ++ recorded cs) last (e.calls cs)
  := by
  induction cs generalizing history lastMs e with
  | nil =>
      refine ⟨lastMs, hfirst _ List.mem_cons_self, ?_⟩
      rw [recorded, List.filterMap_nil, List.append_nil]
      exact h
  | cons c cs ih =>
      obtain ⟨hc, hrest⟩ := List.pairwise_cons.mp hcs
      obtain ⟨last, hlast, htracks⟩ := ih (h.call (hfirst c List.mem_cons_self)) hrest hc
      have hrecorded : recorded (c :: cs) = c.sample?.toList ++ recorded cs := by
        rw [recorded, List.filterMap_cons]
        cases c <;> rfl
      refine ⟨last, hlast, ?_⟩
      rw [hrecorded, ← List.append_assoc]
      exact htracks

theorem Tracks.make (windowMs : UInt32) (lossAlpha rttAlpha : ℚ) :
  Tracks windowMs [] 0 (make windowMs lossAlpha rttAlpha)
  where
  window := rfl
  ordered := List.Pairwise.nil
  past := by simp
  samples := rfl

/-! ### The estimates -/

/-- The estimate is the byte rate of the window, with the sum of the bytes cut to 64 bits. -/
theorem Tracks.estimatedBandwidthKbps_fst (h : Tracks windowMs history lastMs e)
    (hle : lastMs ≤ nowMs) :
  (e.estimatedBandwidthKbps nowMs).1
    = 8 * (totalBytes (inWindow windowMs nowMs history) % 2 ^ 64 : ℕ)
      / spanMs nowMs (inWindow windowMs nowMs history)
  := by
  obtain ⟨-, hordered, hpast, hsamples⟩ := h.evictOldLocked hle
  rw [estimatedBandwidthKbps]
  dsimp only
  rw [← hsamples]
  cases hs : (e.evictOldLocked nowMs).samples with
  | nil => simp [totalBytes]
  | cons front rest =>
      obtain ⟨hfront, holdest⟩ := oldest_of_inWindow hordered (hsamples.symm.trans hs)
      have hpos : (spanMs nowMs (front :: rest) : ℚ) ≠ 0 :=
        Nat.cast_ne_zero.mpr (spanMs_pos ..).ne'
      dsimp only
      rw [foldl_bytes, toNat_span (hpast front hfront), ← spanMs_cons holdest, UInt64.toNat_zero,
        Nat.zero_add]
      push_cast
      field_simp

end

/-- An estimate after calls is determined by what they have recorded. -/
theorem estimate_of_recorded (windowMs : UInt32) (lossAlpha rttAlpha : ℚ)
    {cs after : List BandwidthCall} {nowMs : UInt64}
    (h : NonDecreasing (cs ++ estimate nowMs :: after)) :
  (((make windowMs lossAlpha rttAlpha).calls cs).estimatedBandwidthKbps nowMs).1
    = 8 * (totalBytes (inWindow windowMs nowMs (recorded cs)) % 2 ^ 64 : ℕ)
      / spanMs nowMs (inWindow windowMs nowMs (recorded cs))
  := by
  rw [NonDecreasing, List.append_cons] at h
  obtain ⟨last, hlast, htracks⟩ := (Tracks.make windowMs lossAlpha rttAlpha).calls
    (List.pairwise_append.mp h).1 fun c _ => UInt64.zero_le
  exact htracks.estimatedBandwidthKbps_fst hlast

/-- In a run whose times do not decrease, an estimate is the byte rate of the window over the whole
history if and only if the bytes in the window are fewer than `2 ^ 64`. In any case it is the same
in every run that has recorded the same before it, with other estimates made in between or not. -/
theorem estimates_exact_iff (windowMs : UInt32) (lossAlpha rttAlpha : ℚ)
    (cs : List BandwidthCall) (h : NonDecreasing cs) :
  let e : NetworkConditionEstimator ℚ := make windowMs lossAlpha rttAlpha
  (∀ before nowMs after, cs = before ++ estimate nowMs :: after →
    (((e.calls before).estimatedBandwidthKbps nowMs).1 = windowKbps windowMs nowMs (recorded before)
      ↔ totalBytes (inWindow windowMs nowMs (recorded before)) < 2 ^ 64))
  ∧ ∀ cs', NonDecreasing cs' → ∀ before before' nowMs after after',
    cs = before ++ estimate nowMs :: after → cs' = before' ++ estimate nowMs :: after' →
    recorded before' = recorded before →
    ((e.calls before').estimatedBandwidthKbps nowMs).1
      = ((e.calls before).estimatedBandwidthKbps nowMs).1
  := by
  refine ⟨?_, ?_⟩
  · rintro before nowMs after rfl
    rw [estimate_of_recorded windowMs lossAlpha rttAlpha h, windowKbps_eq, rate_inj]
    exact Nat.mod_eq_iff_lt (by norm_num)
  · rintro cs' h' before before' nowMs after after' rfl rfl hsame
    rw [estimate_of_recorded windowMs lossAlpha rttAlpha h,
      estimate_of_recorded windowMs lossAlpha rttAlpha h', hsame]

theorem estimates_exact_second :
  let e : NetworkConditionEstimator ℚ := make
  let before := [BandwidthCall.record 500 0, .estimate 200, .record 700 2500]
  NonDecreasing (before ++ [estimate 3000])
    ∧ ((e.calls before).estimatedBandwidthKbps 3000).1
      = windowKbps 2000 3000 [⟨0, 500⟩, ⟨2500, 700⟩]
  := by
  intro e before
  have hcs : NonDecreasing (before ++ [estimate 3000]) := by
    simp only [before, NonDecreasing, List.cons_append, List.nil_append, List.pairwise_cons]
    decide
  exact ⟨hcs, ((estimates_exact_iff _ _ _ _ hcs).1 before 3000 [] rfl).mpr (by decide)⟩

theorem recorded_replicate (n : ℕ) (bytes : UInt32) (nowMs : UInt64) :
  recorded (List.replicate n (.record bytes nowMs)) = List.replicate n ⟨nowMs, bytes⟩
  := List.filterMap_replicate_of_some (f := sample?) rfl

theorem totalBytes_inWindow_replicate (windowMs : UInt32) (nowMs : UInt64) (n : ℕ)
    (bytes : UInt32) :
  totalBytes (inWindow windowMs nowMs (List.replicate n ⟨nowMs, bytes⟩)) = n * bytes.toNat
  := by
  have hage : Sample.age ⟨nowMs, bytes⟩ nowMs ≤ windowMs.toNat := by
    simp only [Sample.age, Nat.sub_self, Nat.zero_le]
  rw [inWindow, List.filter_replicate_of_pos (by simpa using hage), totalBytes, List.map_replicate,
    List.sum_replicate, smul_eq_mul]

/-- Samples of `2 ^ 32 - 1` bytes at one time, `2 ^ 32 + 2` of them: the sum wraps around, and the
estimate is not the byte rate of the window. -/
theorem estimate_wraps :
  let e : NetworkConditionEstimator ℚ := make
  let cs := List.replicate (2 ^ 32 + 2) (BandwidthCall.record 4294967295 0)
  NonDecreasing (cs ++ [estimate 0])
    ∧ ((e.calls cs).estimatedBandwidthKbps 0).1 ≠ windowKbps 2000 0 (recorded cs)
  := by
  intro e cs
  have hcs : NonDecreasing (cs ++ [estimate 0]) := by
    apply List.pairwise_append.mpr
    refine ⟨List.pairwise_replicate.mpr (.inr (UInt64.le_refl _)), List.pairwise_singleton .., ?_⟩
    intro a ha b hb
    rw [List.eq_of_mem_replicate ha, List.mem_singleton.mp hb]
    exact UInt64.le_refl _
  refine ⟨hcs, ?_⟩
  rw [estimate_of_recorded _ _ _ hcs, windowKbps_eq, recorded_replicate,
    totalBytes_inWindow_replicate, ne_eq, rate_inj]
  decide

end NetworkConditionEstimator

end Media
