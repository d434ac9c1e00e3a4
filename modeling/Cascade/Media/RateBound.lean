import Mathlib
import Cascade.Library.Potential
import Cascade.Media.AdaptiveSender

/-!
# The rate bound

What the token bucket of `media/adaptive_sender.hpp` grants, computed with exact numbers. The
tokens are a potential: what is granted is paid from them, and they grow by the rate in force times
the seconds that have passed. Since they never exceed the capacity, what is granted from one call
to another is at most the capacity at the first one and what the rate has added since
(`DeterministicTokenBucket.rate_bound`). The sender takes all packets that are not of high priority
from the bucket, so they have the same bound.
-/

open Potential Runs

namespace Media

/-! ### What a rate adds up to -/

/-- The seconds between two times. -/
def seconds (fromMs toMs : UInt64) : ℚ := ((toMs.toNat : ℚ) - fromMs.toNat) / 1000

/-- The sum of a rate over the stretches between some times, each of them with the rate that is in
force from then on. -/
def integral : List (ℚ × UInt64) → ℚ
  | (rate, time) :: (rate', time') :: rates =>
      rate * seconds time time' + integral ((rate', time') :: rates)
  | _ => 0

theorem seconds_nonneg {fromMs toMs : UInt64} (h : fromMs ≤ toMs) :
  0 ≤ seconds fromMs toMs
  := by
  have hle : (fromMs.toNat : ℚ) ≤ toMs.toNat := Nat.cast_le.mpr h
  apply div_nonneg
  · linarith
  · norm_num

theorem seconds_self (time : UInt64) :
  seconds time time = 0
  := by
  rw [seconds, sub_self, zero_div]

/-! ### Calls -/

/-- The calls of a bucket. -/
inductive BucketCall
  | reconfigure (rateBytesPerSec capacityBytes : ℚ) (nowMs : UInt64)
  | tryConsume (bytes : ℚ) (nowMs : UInt64)

namespace BucketCall

/-- The time of a call. -/
def nowMs : BucketCall → UInt64
  | reconfigure _ _ nowMs => nowMs
  | tryConsume _ nowMs => nowMs

/-- The numbers that are given to a call are not negative. -/
def Nonneg : BucketCall → Prop
  | reconfigure rate capacity _ => 0 ≤ rate ∧ 0 ≤ capacity
  | tryConsume bytes _ => 0 ≤ bytes

/-- The rate in force after a call, if it was `rate` before. -/
def rateAfter (rate : ℚ) : BucketCall → ℚ
  | reconfigure rate' _ _ => rate'
  | tryConsume _ _ => rate

/-- The capacity in force after a call, if it was `capacity` before. -/
def capacityAfter (capacity : ℚ) : BucketCall → ℚ
  | reconfigure _ capacity' _ => capacity'
  | tryConsume _ _ => capacity

end BucketCall

/-- The rate in force after some calls. -/
def rateInForce (calls : List BucketCall) : ℚ := calls.foldl BucketCall.rateAfter 0

/-- The capacity in force after some calls. -/
def capacityInForce (calls : List BucketCall) : ℚ := calls.foldl BucketCall.capacityAfter 0

/-- The times of some calls, with the rates in force from then on. -/
def ratesFrom : ℚ → List BucketCall → List (ℚ × UInt64)
  | _, [] => []
  | rate, call :: calls =>
      (call.rateAfter rate, call.nowMs) :: ratesFrom (call.rateAfter rate) calls

/-- Runs that begin with a configuration, at times that do not decrease. -/
structure Admissible (calls : List BucketCall) : Prop where
  configured : ∃ rate capacity nowMs rest, calls = .reconfigure rate capacity nowMs :: rest
  nonneg : ∀ call ∈ calls, call.Nonneg
  times : calls.Pairwise fun call call' => call.nowMs ≤ call'.nowMs

namespace DeterministicTokenBucket

/-- One call. -/
def step (b : DeterministicTokenBucket ℚ) : BucketCall → DeterministicTokenBucket ℚ
  | .reconfigure rate capacity nowMs => b.reconfigure rate capacity nowMs
  | .tryConsume bytes nowMs => (b.tryConsume bytes nowMs).2

/-- One call after the other. -/
def run (b : DeterministicTokenBucket ℚ) (calls : List BucketCall) : DeterministicTokenBucket ℚ :=
  calls.foldl step b

/-- The bytes that a call is granted. -/
def grants (b : DeterministicTokenBucket ℚ) : BucketCall → ℚ
  | .reconfigure _ _ _ => 0
  | .tryConsume bytes nowMs => if (b.tryConsume bytes nowMs).1 then bytes else 0

/-- The bytes that some calls are granted together. -/
def granted (b : DeterministicTokenBucket ℚ) (calls : List BucketCall) : ℚ :=
  total step grants b calls

/-! ### One call -/

/-- The bucket is in use, and its numbers make sense. -/
structure Sound (b : DeterministicTokenBucket ℚ) : Prop where
  initialized : b.initialized = true
  rate_nonneg : 0 ≤ b.rateBytesPerSec
  tokens_nonneg : 0 ≤ b.tokens
  tokens_le : b.tokens ≤ b.capacityBytes

/-- What the rate in force adds until a time. -/
def earns (b : DeterministicTokenBucket ℚ) (nowMs : UInt64) : ℚ :=
  b.rateBytesPerSec * seconds b.lastRefillMs nowMs

variable {b : DeterministicTokenBucket ℚ} {call : BucketCall} {nowMs : UInt64}

theorem stdMin_eq_min (a b : ℚ) :
  stdMin a b = min a b
  := by
  rw [stdMin, min_comm, min_def_lt]

theorem refill_tokens (b : DeterministicTokenBucket ℚ) (hnow : b.lastRefillMs ≤ nowMs) :
  (b.refill nowMs).tokens = min b.capacityBytes (b.tokens + b.earns nowMs)
  := by
  rw [refill, earns, seconds]
  dsimp only
  rw [stdMin_eq_min]
  congr 2
  rw [mul_comm]
  congr 1
  split
  · rw [UInt64.toNat_sub_of_le _ _ hnow, Nat.cast_sub (UInt64.le_iff_toNat_le.mp hnow)]
    rfl
  · have heq : b.lastRefillMs = nowMs := by
      apply UInt64.le_antisymm hnow
      apply UInt64.not_lt.mp
      assumption
    rw [heq, sub_self, zero_div, Nat.cast_zero]

theorem Sound.refill (h : b.Sound) (hnow : b.lastRefillMs ≤ nowMs) :
  (b.refill nowMs).Sound
  := by
  have hearns : 0 ≤ b.earns nowMs := mul_nonneg h.rate_nonneg (seconds_nonneg hnow)
  refine ⟨h.initialized, h.rate_nonneg, ?_, ?_⟩
  · rw [b.refill_tokens hnow]
    apply le_min (h.tokens_nonneg.trans h.tokens_le)
    exact add_nonneg h.tokens_nonneg hearns
  · rw [b.refill_tokens hnow]
    apply min_le_left

/-- A configuration of a bucket in use. -/
theorem Sound.reconfigure (h : b.Sound) {rate capacity : ℚ} (hrate : 0 ≤ rate)
    (hcapacity : 0 ≤ capacity) (hnow : b.lastRefillMs ≤ nowMs) :
  (b.reconfigure rate capacity nowMs).Sound
    ∧ (b.reconfigure rate capacity nowMs).tokens ≤ b.tokens + b.earns nowMs
  := by
  have hrefill := h.refill hnow
  have htokens := b.refill_tokens hnow
  rw [DeterministicTokenBucket.reconfigure, if_pos h.initialized]
  dsimp only
  rw [stdMin_eq_min]
  refine ⟨⟨hrefill.initialized, hrate, ?_, ?_⟩, ?_⟩
  · exact le_min hrefill.tokens_nonneg hcapacity
  · apply min_le_right
  · rw [htokens]
    apply (min_le_left ..).trans
    apply min_le_right

/-- The first configuration fills the bucket. -/
theorem reconfigure_make {rate capacity : ℚ} (hrate : 0 ≤ rate) (hcapacity : 0 ≤ capacity)
    (nowMs : UInt64) :
  (make.reconfigure rate capacity nowMs).Sound
    ∧ (make.reconfigure rate capacity nowMs).tokens = capacity
  := by
  have htokens : (make.reconfigure rate capacity nowMs).tokens = capacity := by
    apply (stdMin_eq_min ..).trans
    apply min_self
  refine ⟨⟨rfl, hrate, ?_, ?_⟩, htokens⟩
  · rw [htokens]
    exact hcapacity
  · rw [htokens]
    rfl

/-- What is granted is taken from the tokens that are there after the refill. -/
theorem Sound.tryConsume (h : b.Sound) {bytes : ℚ} (hbytes : 0 ≤ bytes)
    (hnow : b.lastRefillMs ≤ nowMs) :
  (b.tryConsume bytes nowMs).2.Sound
    ∧ b.grants (.tryConsume bytes nowMs) + (b.tryConsume bytes nowMs).2.tokens
      = (b.refill nowMs).tokens
  := by
  have hrefill := h.refill hnow
  rw [grants, DeterministicTokenBucket.tryConsume]
  split
  · refine ⟨⟨hrefill.initialized, hrefill.rate_nonneg, ?_, ?_⟩, ?_⟩
    · dsimp only
      linarith
    · have hle := hrefill.tokens_le
      dsimp only at hle ⊢
      linarith
    · rw [if_pos rfl]
      apply add_sub_cancel
  · refine ⟨hrefill, ?_⟩
    rw [if_neg Bool.false_ne_true, zero_add]

/-- Beyond the refill, only the tokens change. -/
theorem tryConsume_bucket (b : DeterministicTokenBucket ℚ) (bytes : ℚ) (nowMs : UInt64) :
  ∃ tokens, (b.tryConsume bytes nowMs).2 = { b.refill nowMs with tokens }
  := by
  rw [DeterministicTokenBucket.tryConsume]
  split
  · exact ⟨_, rfl⟩
  · exact ⟨_, rfl⟩

theorem step_rate (b : DeterministicTokenBucket ℚ) (call : BucketCall) :
  (b.step call).rateBytesPerSec = call.rateAfter b.rateBytesPerSec
  := by
  cases call with
  | reconfigure rate capacity nowMs => rfl
  | tryConsume bytes nowMs =>
      obtain ⟨tokens, h⟩ := b.tryConsume_bucket bytes nowMs
      rw [step, h]
      rfl

theorem step_capacity (b : DeterministicTokenBucket ℚ) (call : BucketCall) :
  (b.step call).capacityBytes = call.capacityAfter b.capacityBytes
  := by
  cases call with
  | reconfigure rate capacity nowMs => rfl
  | tryConsume bytes nowMs =>
      obtain ⟨tokens, h⟩ := b.tryConsume_bucket bytes nowMs
      rw [step, h]
      rfl

theorem step_time (b : DeterministicTokenBucket ℚ) (call : BucketCall) :
  (b.step call).lastRefillMs = call.nowMs
  := by
  cases call with
  | reconfigure rate capacity nowMs =>
      rw [step, DeterministicTokenBucket.reconfigure]
      dsimp only
      split <;> rfl
  | tryConsume bytes nowMs =>
      obtain ⟨tokens, h⟩ := b.tryConsume_bucket bytes nowMs
      rw [step, h]
      rfl

/-- A call can come next. -/
def Next (b : DeterministicTokenBucket ℚ) (call : BucketCall) : Prop :=
  call.Nonneg ∧ b.lastRefillMs ≤ call.nowMs

theorem Sound.step (h : b.Sound) (hnext : b.Next call) :
  (b.step call).Sound
  := by
  cases call with
  | reconfigure rate capacity nowMs => exact (h.reconfigure hnext.1.1 hnext.1.2 hnext.2).1
  | tryConsume bytes nowMs => exact (h.tryConsume hnext.1 hnext.2).1

/-- What a call is granted is paid from the tokens and from what the rate has added to them. -/
theorem Sound.grants_add_tokens_le (h : b.Sound) (hnext : b.Next call) :
  b.grants call + (b.step call).tokens ≤ b.tokens + b.earns call.nowMs
  := by
  cases call with
  | reconfigure rate capacity nowMs =>
      rw [grants, zero_add]
      exact (h.reconfigure hnext.1.1 hnext.1.2 hnext.2).2
  | tryConsume bytes nowMs =>
      apply (h.tryConsume hnext.1 hnext.2).2.trans_le
      rw [b.refill_tokens hnext.2]
      apply min_le_right

/-- It is also within the capacity. -/
theorem Sound.grants_add_tokens_le_capacity (h : b.Sound) (hnext : b.Next call) :
  b.grants call + (b.step call).tokens ≤ (b.step call).capacityBytes
  := by
  cases call with
  | reconfigure rate capacity nowMs =>
      rw [grants, zero_add]
      exact (h.step hnext).tokens_le
  | tryConsume bytes nowMs =>
      apply (h.tryConsume hnext.1 hnext.2).2.trans_le
      rw [step_capacity]
      exact (h.refill hnext.2).tokens_le

/-! ### Runs of the bucket -/

theorem run_capacity (calls : List BucketCall) :
  (make.run calls).capacityBytes = capacityInForce calls
  := by
  apply (List.foldl_hom capacityBytes _).symm
  exact fun b call => (b.step_capacity call).symm

theorem run_rate (calls : List BucketCall) :
  (make.run calls).rateBytesPerSec = rateInForce calls
  := by
  apply (List.foldl_hom rateBytesPerSec _).symm
  exact fun b call => (b.step_rate call).symm

theorem total_earns (b : DeterministicTokenBucket ℚ) (calls : List BucketCall) :
  total step (fun b call => b.earns call.nowMs) b calls
    = integral ((b.rateBytesPerSec, b.lastRefillMs) :: ratesFrom b.rateBytesPerSec calls)
  := by
  induction calls generalizing b with
  | nil => rfl
  | cons call calls ih =>
      rw [total, ih, step_rate, step_time]
      rfl

/-- The calls of a run can come one after the other. -/
theorem along_next {calls : List BucketCall}
    (hnonneg : ∀ call ∈ calls, call.Nonneg)
    (htimes : calls.Pairwise fun call call' => call.nowMs ≤ call'.nowMs)
    (hfirst : ∀ call ∈ calls, b.lastRefillMs ≤ call.nowMs) :
  Along step Next b calls
  := by
  induction calls generalizing b with
  | nil => trivial
  | cons call calls ih =>
      rw [List.forall_mem_cons] at hnonneg hfirst
      rw [List.pairwise_cons] at htimes
      refine ⟨⟨hnonneg.1, hfirst.1⟩, ih hnonneg.2 htimes.2 ?_⟩
      rw [step_time]
      exact htimes.1

theorem Sound.granted_le {calls : List BucketCall} (h : b.Sound)
    (hnext : Along DeterministicTokenBucket.step Next b calls) :
  b.granted calls
    ≤ b.tokens
      + integral ((b.rateBytesPerSec, b.lastRefillMs) :: ratesFrom b.rateBytesPerSec calls)
  := by
  rw [← total_earns]
  apply total_le tokens _ _ _ hnext h
  · exact fun b hb => hb.tokens_nonneg
  · exact fun b call hb hcall => hb.step hcall
  · exact fun b call hb hcall => hb.grants_add_tokens_le hcall

end DeterministicTokenBucket

namespace Admissible

open DeterministicTokenBucket

theorem first {rate capacity : ℚ} {nowMs : UInt64} {rest : List BucketCall}
    (h : Admissible (.reconfigure rate capacity nowMs :: rest)) :
  (make.reconfigure rate capacity nowMs).Sound
    ∧ Along step Next (make.reconfigure rate capacity nowMs) rest
  := by
  have hnonneg := List.forall_mem_cons.mp h.nonneg
  have htimes := List.pairwise_cons.mp h.times
  obtain ⟨hsound, -⟩ := reconfigure_make hnonneg.1.1 hnonneg.1.2 nowMs
  exact ⟨hsound, along_next hnonneg.2 htimes.2 htimes.1⟩

/-- At each call the bucket is in use, what the call is granted is within the capacity, and the
other calls can follow. -/
theorem call {before rest : List BucketCall} {call : BucketCall}
    (h : Admissible (before ++ call :: rest)) :
  ((make.run before).step call).Sound
    ∧ (make.run before).grants call + ((make.run before).step call).tokens
      ≤ ((make.run before).step call).capacityBytes
    ∧ Along step Next ((make.run before).step call) rest
  := by
  obtain ⟨rate, capacity, nowMs, rest', heq⟩ := h.configured
  cases before with
  | nil =>
      obtain ⟨rfl, rfl⟩ := List.cons.inj heq
      obtain ⟨hsound, hnext⟩ := h.first
      refine ⟨hsound, ?_, hnext⟩
      rw [grants, zero_add]
      exact hsound.tokens_le
  | cons first before =>
      obtain ⟨rfl, rfl⟩ := List.cons.inj heq
      obtain ⟨hsound, hnext⟩ := h.first
      obtain ⟨hbefore, hcall, hrest⟩ := along_append.mp hnext
      have hrun : (make.run (.reconfigure rate capacity nowMs :: before)).Sound :=
        hbefore.invariant (fun _ _ hb hcall => hb.step hcall) hsound
      exact ⟨hrun.step hcall, hrun.grants_add_tokens_le_capacity hcall, hrest⟩

end Admissible

/-! ### The sender -/

/-- What a drain selects, and when. -/
def SenderCall.selected? : SenderCall ℚ → Option (ℚ × UInt64)
  | .enqueue _ _ => none
  | .drain controller estimator nowMs =>
      some (AdaptiveSender.selectedRate controller estimator nowMs, nowMs)

/-- The rates that the drains of a run select, with their times. -/
def selectedRates (calls : List (SenderCall ℚ)) : List (ℚ × UInt64) :=
  calls.filterMap SenderCall.selected?

/-- Half a second of the rate that the first drain selects. -/
def initialBurst (calls : List (SenderCall ℚ)) : ℚ :=
  match selectedRates calls with
  | [] => 0
  | (rate, _) :: _ => rate * (1 / 2)

namespace AdaptiveSender

/-- The sender after a call. -/
def after (s : AdaptiveSender ℚ) (call : SenderCall ℚ) : AdaptiveSender ℚ := (s.step call).2

/-- The bytes of the packets that a drain returns after those of high priority. -/
def normalSent (s : AdaptiveSender ℚ) (call : SenderCall ℚ) : ℚ :=
  match (s.step call).1 with
  | none => 0
  | some sent => (((sent.drop s.queue.high.length).map List.length).sum : ℕ)

/-- Those of all drains of a run together. -/
def normalBytes (s : AdaptiveSender ℚ) (calls : List (SenderCall ℚ)) : ℚ :=
  total after normalSent s calls

end AdaptiveSender

/-- The packets that a bucket admits at the time of its last refill are paid from its tokens. -/
theorem DeterministicTokenBucket.Sound.admission {b : DeterministicTokenBucket ℚ} (h : b.Sound)
    {nowMs : UInt64} (hnow : b.lastRefillMs = nowMs) (packets : List (List UInt8)) :
  let admitted := b.admission nowMs packets
  admitted.2.Sound
    ∧ ((admitted.1.map List.length).sum : ℕ) + admitted.2.tokens ≤ b.tokens
  := by
  induction packets generalizing b with
  | nil =>
      refine ⟨h, ?_⟩
      rw [DeterministicTokenBucket.admission, List.map_nil, List.sum_nil, Nat.cast_zero, zero_add]
  | cons data packets ih =>
      have hnext : b.Next (.tryConsume data.length nowMs) :=
        ⟨Nat.cast_nonneg _, UInt64.le_of_eq hnow⟩
      have hpaid := h.grants_add_tokens_le hnext
      rw [earns, BucketCall.nowMs, hnow, seconds_self, mul_zero, add_zero, grants] at hpaid
      obtain ⟨hsound, hrest⟩ := ih (h.step hnext) (b.step_time _)
      refine ⟨hsound, ?_⟩
      dsimp only [DeterministicTokenBucket.admission, DeterministicTokenBucket.step]
        at hpaid hrest ⊢
      split
      · rw [if_pos ‹_›] at hpaid
        rw [List.map_cons, List.sum_cons, Nat.cast_add]
        linarith
      · rw [if_neg ‹_›] at hpaid
        linarith

/-- Admitting packets does not change the rate, and the time stays. -/
theorem DeterministicTokenBucket.admission_config (b : DeterministicTokenBucket ℚ) {nowMs : UInt64}
    (hnow : b.lastRefillMs = nowMs) (packets : List (List UInt8)) :
  (b.admission nowMs packets).2.rateBytesPerSec = b.rateBytesPerSec
    ∧ (b.admission nowMs packets).2.lastRefillMs = nowMs
  := by
  induction packets generalizing b with
  | nil => exact ⟨rfl, hnow⟩
  | cons data packets ih =>
      obtain ⟨hrate, htime⟩ := ih (b.step (.tryConsume data.length nowMs)) (b.step_time _)
      exact ⟨hrate.trans (b.step_rate _), htime⟩

namespace AdaptiveSender

open DeterministicTokenBucket

theorem selectedRate_nonneg (controller : BitrateController ℚ)
    (estimator : NetworkConditionEstimator ℚ) (nowMs : UInt64) :
  0 ≤ selectedRate controller estimator nowMs
  := by
  rw [selectedRate, bytesPerSec]
  positivity

section Drain

variable (s : AdaptiveSender ℚ) (controller : BitrateController ℚ)
  (estimator : NetworkConditionEstimator ℚ) (nowMs : UInt64)

/-- After a drain the rate that it has selected is in force. -/
theorem drain_config :
  let b := (s.drain controller estimator nowMs).2.1.bucket
  b.rateBytesPerSec = selectedRate controller estimator nowMs ∧ b.lastRefillMs = nowMs
  := by
  rw [drain_sender]
  apply admission_config
  exact s.bucket.step_time (.reconfigure _ _ nowMs)

/-- What a drain sends is paid from the tokens of the bucket when the loop begins. -/
theorem drain_paid (h : (s.configured controller estimator nowMs).Sound) :
  let b := (s.drain controller estimator nowMs).2.1.bucket
  b.Sound
    ∧ s.normalSent (.drain controller estimator nowMs) + b.tokens
      ≤ (s.configured controller estimator nowMs).tokens
  := by
  rw [drain_sender, normalSent]
  dsimp only [step]
  rw [drain_sent, List.drop_left]
  apply h.admission
  exact s.bucket.step_time (.reconfigure _ _ nowMs)

end Drain

/-- The time of a drain is not before that of the last one. -/
def Next (s : AdaptiveSender ℚ) (call : SenderCall ℚ) : Prop :=
  ∀ d, call.selected? = some d → s.bucket.lastRefillMs ≤ d.2

/-- What the bucket earns until a call. -/
def earns (s : AdaptiveSender ℚ) (call : SenderCall ℚ) : ℚ :=
  match call.selected? with
  | none => 0
  | some d => s.bucket.earns d.2

variable {s : AdaptiveSender ℚ}

theorem configured_sound (h : s.bucket.Sound) (controller : BitrateController ℚ)
    (estimator : NetworkConditionEstimator ℚ) {nowMs : UInt64}
    (hnow : s.bucket.lastRefillMs ≤ nowMs) :
  (s.configured controller estimator nowMs).Sound
    ∧ (s.configured controller estimator nowMs).tokens ≤ s.bucket.tokens + s.bucket.earns nowMs
  := by
  have hrate := selectedRate_nonneg controller estimator nowMs
  apply h.reconfigure hrate _ hnow
  positivity

theorem configured_make (queue : PriorityPacketQueue) (controller : BitrateController ℚ)
    (estimator : NetworkConditionEstimator ℚ) (nowMs : UInt64) :
  (configured ⟨queue, make, 0⟩ controller estimator nowMs).Sound
    ∧ (configured ⟨queue, make, 0⟩ controller estimator nowMs).tokens
      = selectedRate controller estimator nowMs * (1 / 2)
  := by
  have hrate := selectedRate_nonneg controller estimator nowMs
  apply reconfigure_make hrate
  positivity

theorem Next.sound {call : SenderCall ℚ} (hnext : s.Next call) (h : s.bucket.Sound) :
  (s.after call).bucket.Sound
  := by
  cases call with
  | enqueue priority data => exact h
  | drain controller estimator nowMs =>
      have hconfigured := configured_sound h controller estimator (hnext _ rfl)
      exact (s.drain_paid controller estimator nowMs hconfigured.1).1

theorem Next.paid {call : SenderCall ℚ} (hnext : s.Next call) (h : s.bucket.Sound) :
  s.normalSent call + (s.after call).bucket.tokens ≤ s.bucket.tokens + s.earns call
  := by
  cases call with
  | enqueue priority data =>
      apply le_of_eq
      apply add_comm
  | drain controller estimator nowMs =>
      have hconfigured := configured_sound h controller estimator (hnext _ rfl)
      apply (s.drain_paid controller estimator nowMs hconfigured.1).2.trans
      exact hconfigured.2

theorem total_earns (s : AdaptiveSender ℚ) (calls : List (SenderCall ℚ)) :
  total after earns s calls
    = integral ((s.bucket.rateBytesPerSec, s.bucket.lastRefillMs) :: selectedRates calls)
  := by
  induction calls generalizing s with
  | nil => rfl
  | cons call calls ih =>
      rw [total, ih]
      cases call with
      | enqueue priority data => apply zero_add
      | drain controller estimator nowMs =>
          obtain ⟨hrate, htime⟩ := s.drain_config controller estimator nowMs
          dsimp only [after, step]
          rw [hrate, htime]
          rfl

variable {calls : List (SenderCall ℚ)}

/-- The drains of a run can come one after the other. -/
theorem along_next (htimes : (selectedRates calls).Pairwise fun d d' => d.2 ≤ d'.2)
    (hfirst : ∀ d ∈ selectedRates calls, s.bucket.lastRefillMs ≤ d.2) :
  Along after Next s calls
  := by
  induction calls generalizing s with
  | nil => trivial
  | cons call calls ih =>
      cases call with
      | enqueue priority data =>
          refine ⟨?_, ih htimes hfirst⟩
          rintro d ⟨⟩
      | drain controller estimator nowMs =>
          obtain ⟨hlater, htimes⟩ := List.pairwise_cons.mp htimes
          obtain ⟨hnow, -⟩ := List.forall_mem_cons.mp hfirst
          refine ⟨?_, ih htimes ?_⟩
          · rintro d ⟨⟩
            exact hnow
          · dsimp only [after, step]
            rw [(s.drain_config controller estimator nowMs).2]
            exact hlater

/-- What a sender with a bucket in use sends. -/
theorem normalBytes_le (h : s.bucket.Sound) (hnext : Along after Next s calls) :
  s.normalBytes calls
    ≤ s.bucket.tokens
      + integral ((s.bucket.rateBytesPerSec, s.bucket.lastRefillMs) :: selectedRates calls)
  := by
  rw [← total_earns]
  apply total_le (I := fun s => s.bucket.Sound) (fun s => s.bucket.tokens) _ _ _ hnext h
  · exact fun s hs => hs.tokens_nonneg
  · exact fun s call hs hcall => hcall.sound hs
  · exact fun s call hs hcall => hcall.paid hs

/-- What a sender with a new bucket sends. Until the first drain, packets are only queued. -/
theorem normalBytes_make_le (htimes : (selectedRates calls).Pairwise fun d d' => d.2 ≤ d'.2)
    (queue : PriorityPacketQueue) :
  normalBytes ⟨queue, make, 0⟩ calls ≤ initialBurst calls + integral (selectedRates calls)
  := by
  induction calls generalizing queue with
  | nil => exact (add_zero _).ge
  | cons call calls ih =>
      rw [normalBytes, total]
      cases call with
      | enqueue priority data =>
          apply (zero_add _).trans_le
          exact ih htimes _
      | drain controller estimator nowMs =>
          let s : AdaptiveSender ℚ := ⟨queue, make, 0⟩
          obtain ⟨hlater, htimes⟩ := List.pairwise_cons.mp htimes
          obtain ⟨hconfigured, htokens⟩ := configured_make queue controller estimator nowMs
          obtain ⟨hsound, hpaid⟩ := s.drain_paid controller estimator nowMs hconfigured
          obtain ⟨hrate, htime⟩ := s.drain_config controller estimator nowMs
          have hnext : Along after Next (s.drain controller estimator nowMs).2.1 calls := by
            apply along_next htimes
            rw [htime]
            exact hlater
          have hrest := normalBytes_le hsound hnext
          rw [hrate, htime] at hrest
          rw [htokens] at hpaid
          calc s.normalSent (.drain controller estimator nowMs)
                + (s.drain controller estimator nowMs).2.1.normalBytes calls
            _ ≤ s.normalSent (.drain controller estimator nowMs)
                + ((s.drain controller estimator nowMs).2.1.bucket.tokens
                  + integral ((selectedRate controller estimator nowMs, nowMs)
                    :: selectedRates calls)) := by gcongr
            _ ≤ _ := by
                rw [← add_assoc]
                exact add_le_add hpaid le_rfl

end AdaptiveSender

/-- The rate bound. From one call of a run to another one, both included, the bytes granted are at
most the capacity in force at the first one and what the rates in force add up to. The tokens stay
between zero and the capacity. So the packets without high priority that a sender sends have at
most the bytes of the initial burst and of what the selected rates add up to. -/
theorem DeterministicTokenBucket.rate_bound {calls : List BucketCall} (h : Admissible calls)
    {senderCalls : List (SenderCall ℚ)}
    (htimes : (selectedRates senderCalls).Pairwise fun d d' => d.2 ≤ d'.2) :
  (∀ before call window after, calls = before ++ call :: (window ++ after) →
    (make.run before).granted (call :: window)
      ≤ capacityInForce (before ++ [call])
        + integral (ratesFrom (rateInForce before) (call :: window)))
    ∧ (∀ before after, calls = before ++ after →
      0 ≤ (make.run before).tokens ∧ (make.run before).tokens ≤ capacityInForce before)
    ∧ AdaptiveSender.normalBytes ⟨{}, make, 0⟩ senderCalls
      ≤ initialBurst senderCalls + integral (selectedRates senderCalls)
  := by
  refine ⟨?_, ?_, AdaptiveSender.normalBytes_make_le htimes {}⟩
  · rintro before call window after rfl
    obtain ⟨hsound, hfirst, hnext⟩ := h.call
    have hrest := hsound.granted_le (along_append.mp hnext).1
    rw [step_rate, step_time, run_rate] at hrest
    have hcapacity : ((make.run before).step call).capacityBytes
        = capacityInForce (before ++ [call]) := by
      rw [← run_capacity, run, run, List.foldl_concat]
    rw [hcapacity] at hfirst
    calc (make.run before).granted (call :: window)
      _ = (make.run before).grants call + ((make.run before).step call).granted window := rfl
      _ ≤ (make.run before).grants call + (((make.run before).step call).tokens
            + integral (ratesFrom (rateInForce before) (call :: window))) := by
          apply add_le_add le_rfl
          exact hrest
      _ ≤ _ := by
          rw [← add_assoc]
          exact add_le_add hfirst le_rfl
  · rintro before after rfl
    rw [← run_capacity]
    cases before using List.reverseRecOn with
    | nil => exact ⟨le_rfl, le_rfl⟩
    | append_singleton before call =>
        rw [List.append_assoc] at h
        obtain ⟨hsound, -, -⟩ := h.call
        rw [run, List.foldl_concat]
        exact ⟨hsound.tokens_nonneg, hsound.tokens_le⟩

/-- With 1000 bytes per second and a capacity of 500, the bytes granted in a quarter of a second are
at most 750. The lowest level, with 32 kbit/s, sends at most 2000 bytes at once. -/
theorem DeterministicTokenBucket.rate_bound_quarter :
  let calls : List BucketCall :=
    [.reconfigure 1000 500 0, .tryConsume 400 0, .tryConsume 300 250]
  let senderCalls : List (SenderCall ℚ) :=
    [.enqueue .normal [1, 2], .drain (.make [⟨"low", 32⟩]) .make 0]
  Admissible calls
    ∧ make.granted calls ≤ 750
    ∧ AdaptiveSender.normalBytes ⟨{}, make, 0⟩ senderCalls ≤ 2000
  := by
  intro calls senderCalls
  have h : Admissible calls := by
    refine ⟨⟨1000, 500, 0, _, rfl⟩, ?_, ?_⟩
    · simp [calls, BucketCall.Nonneg]
    · simp [calls, BucketCall.nowMs]
  have htimes : (selectedRates senderCalls).Pairwise fun d d' => d.2 ≤ d'.2 :=
    List.pairwise_singleton ..
  obtain ⟨hgranted, -, hsent⟩ := rate_bound h htimes
  refine ⟨h, ?_, ?_⟩
  · apply (hgranted [] _ _ [] rfl).trans
    decide +kernel
  · apply hsent.trans
    decide +kernel

end Media
