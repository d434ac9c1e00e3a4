import Mathlib.Data.Nat.Cast.Defs

/-!
# Network conditions

The model of `media/network_estimator.hpp`: what is measured of a network, namely the bandwidth as
the byte rate of a sliding window, and the loss rate and the round trip time as moving averages.

The source computes with doubles. The model leaves open what the numbers are: it takes any type
with the operations that are used, so that doubles and exact rationals are both among them.
-/

namespace Media

/-- The number of bytes that arrived at a time. -/
structure Sample where
  timestampMs : UInt64
  bytes : UInt32
deriving DecidableEq

/-- The samples of the window, and the averages of losses and round trips. -/
structure NetworkConditionEstimator (K : Type) where
  bandwidthWindowMs : UInt32
  lossAlpha : K
  rttAlpha : K
  samples : List Sample
  lossEma : K
  lossInitialized : Bool
  rttEma : K
  rttInitialized : Bool

namespace NetworkConditionEstimator

variable {K : Type}

/-- Remove samples from the front while they are older than the window. The age is computed in
unsigned arithmetic. -/
def evictOldLocked (e : NetworkConditionEstimator K) (nowMs : UInt64) :
    NetworkConditionEstimator K :=
  { e with
    samples := e.samples.dropWhile fun s => e.bandwidthWindowMs.toUInt64 < nowMs - s.timestampMs }

/-- Add a sample, and remove those that are too old at its time. -/
def recordReceivedBytes (e : NetworkConditionEstimator K) (bytes : UInt32) (nowMs : UInt64) :
    NetworkConditionEstimator K :=
  evictOldLocked { e with samples := e.samples ++ [⟨nowMs, bytes⟩] } nowMs

variable [NatCast K] [Add K] [Sub K] [Mul K] [Div K]

/-- The constructor. -/
def make (bandwidthWindowMs : UInt32 := 2000)
    (lossEmaAlpha : K := ((2 : ℕ) : K) / ((10 : ℕ) : K))
    (rttEmaAlpha : K := ((2 : ℕ) : K) / ((10 : ℕ) : K)) : NetworkConditionEstimator K where
  bandwidthWindowMs
  lossAlpha := lossEmaAlpha
  rttAlpha := rttEmaAlpha
  samples := []
  lossEma := (0 : ℕ)
  lossInitialized := false
  rttEma := (0 : ℕ)
  rttInitialized := false

/-- A moving average with one more sample. -/
def ema (alpha : K) (initialized : Bool) (sample average : K) : K :=
  if initialized then alpha * sample + ((1 : ℕ) - alpha) * average else sample

/-- A packet was lost, or was not. -/
def recordLossSample (e : NetworkConditionEstimator K) (lost : Bool) :
    NetworkConditionEstimator K :=
  let sample : K := if lost then (1 : ℕ) else (0 : ℕ)
  { e with
    lossEma := ema e.lossAlpha e.lossInitialized sample e.lossEma
    lossInitialized := true }

/-- A round trip was measured. -/
def recordRttSample (e : NetworkConditionEstimator K) (rttMs : K) : NetworkConditionEstimator K :=
  { e with
    rttEma := ema e.rttAlpha e.rttInitialized rttMs e.rttEma
    rttInitialized := true }

/-- The estimate, and the estimator after samples were removed. -/
def estimatedBandwidthKbps (e : NetworkConditionEstimator K) (nowMs : UInt64) :
    K × NetworkConditionEstimator K :=
  let e := e.evictOldLocked nowMs
  match e.samples with
  | [] => ((0 : ℕ), e)
  | front :: _ =>
      let totalBytes := e.samples.foldl (fun total s => total + s.bytes.toUInt64) 0
      let spanMs := if front.timestampMs < nowMs then nowMs - front.timestampMs else 1
      let kilobits := (totalBytes.toNat : K) * ((8 : ℕ) : K) / ((1000 : ℕ) : K)
      let seconds := (spanMs.toNat : K) / ((1000 : ℕ) : K)
      (kilobits / seconds, e)

/-- The average, or 0 without samples. -/
def estimatedLossRate (e : NetworkConditionEstimator K) : K :=
  if e.lossInitialized then e.lossEma else (0 : ℕ)

/-- The average, or 0 without samples. -/
def smoothedRttMs (e : NetworkConditionEstimator K) : K :=
  if e.rttInitialized then e.rttEma else (0 : ℕ)

end NetworkConditionEstimator

end Media
