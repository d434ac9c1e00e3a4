import Cascade.Media.BitrateController

/-!
# The counter of good readings

The controller counts good readings in an `int`, and sets the count back when a reading is bad or
raises the level. At the top level, or at one that it cannot leave for lack of bandwidth, it counts
on. The count stays in the range of its type exactly if there are never `2 ^ 31` good readings in a
row of which none but the last raises the level (`counter_in_range_iff`).
-/

open Window

namespace Media

namespace BitrateController

section

variable {K : Type} [NatCast K] [Mul K] [LT K] [LE K] [DecidableLT K] [DecidableLE K]

/-- An evaluation counts one good reading more than an `int` can hold. -/
def Overflows (c : BitrateController K) (r : Reading K) : Prop :=
  ¬ c.BadConditions r ∧ 2 ^ 31 ≤ c.consecutiveGood.toInt + 1

/-- No evaluation does so. -/
def InRange (c : BitrateController K) (readings : List (Reading K)) : Prop :=
  ∀ before r after, readings = before ++ r :: after → ¬ (c.run before).Overflows r

/-- One evaluation after the other, each of what is measured then. -/
def evaluations [Add K] [Sub K] [Div K] (c : BitrateController K)
    (calls : List (NetworkConditionEstimator K × UInt64)) : BitrateController K :=
  calls.foldl (fun c call => (c.evaluate call.1 call.2).2.1) c

theorem evaluations_concat [Add K] [Sub K] [Div K] (c : BitrateController K)
    (calls : List (NetworkConditionEstimator K × UInt64)) (e : NetworkConditionEstimator K)
    (nowMs : UInt64) :
  c.evaluations (calls ++ [(e, nowMs)]) = ((c.evaluations calls).evaluate e nowMs).2.1
  := List.foldl_append

/-- What an evaluation reads. -/
def reading [Add K] [Sub K] [Div K] (e : NetworkConditionEstimator K) (nowMs : UInt64) :
    Reading K :=
  ⟨(e.estimatedBandwidthKbps nowMs).1, (e.estimatedBandwidthKbps nowMs).2.estimatedLossRate⟩

/-- A run of evaluations is one of what they read. -/
theorem evaluations_eq_run [Add K] [Sub K] [Div K] (c : BitrateController K)
    (calls : List (NetworkConditionEstimator K × UInt64)) :
  c.evaluations calls = c.run (calls.map fun call => reading call.1 call.2)
  := by
  rw [evaluations, run, List.foldl_map]
  rfl

/-! ### One evaluation -/

section

variable {c : BitrateController K} {r : Reading K}

theorem InLadder.counter_nonneg (h : c.InLadder) (hcount : 0 ≤ c.consecutiveGood.toInt)
    (hr : ¬ c.Overflows r) :
  0 ≤ (c.evaluateReading r).consecutiveGood.toInt
  := by
  have hresponse := h.response r
  generalize c.evaluateReading r = c' at hresponse
  cases hresponse with
  | lowered hbad hindex => exact le_rfl
  | raised hgood hmay hindex => exact le_rfl
  | counted hgood hstays =>
      have hroom : ¬ 2 ^ 31 ≤ c.consecutiveGood.toInt + 1 := fun hfull => hr ⟨hgood, hfull⟩
      dsimp only
      rw [toInt_add_one (by omega)]
      omega

/-- A good reading that does not raise the level is counted. -/
theorem InLadder.counter_succ (h : c.InLadder) (hgood : ¬ c.BadConditions r)
    (hstays : ¬ c.Upgrades r) (hr : ¬ c.Overflows r) :
  (c.evaluateReading r).consecutiveGood.toInt = c.consecutiveGood.toInt + 1
  := by
  have hresponse := h.response r
  rw [Upgrades] at hstays
  generalize c.evaluateReading r = c' at hresponse hstays
  cases hresponse with
  | lowered hbad hindex => exact absurd hbad hgood
  | raised hgood hmay hindex =>
      dsimp only at hstays
      omega
  | counted =>
      have hroom : ¬ 2 ^ 31 ≤ c.consecutiveGood.toInt + 1 := fun hfull => hr ⟨hgood, hfull⟩
      apply toInt_add_one
      omega

end

/-! ### Runs -/

omit [NatCast K] [Mul K] [LT K] [LE K] [DecidableLT K] [DecidableLE K] in
/-- What holds at every reading of a run holds at those of its beginning. -/
theorem at_each_of_append {P : List (Reading K) → Reading K → Prop}
    {readings later : List (Reading K)}
    (h : ∀ before r after, readings ++ later = before ++ r :: after → P before r) :
  ∀ before r after, readings = before ++ r :: after → P before r
  := by
  intro before r after heq
  apply h before r (after ++ later)
  rw [heq, List.append_assoc, List.cons_append]

variable {c : BitrateController K}

theorem InRange.of_append {readings later : List (Reading K)} (h : c.InRange (readings ++ later)) :
  c.InRange readings
  := at_each_of_append h

theorem InRange.last {readings : List (Reading K)} {r : Reading K}
    (h : c.InRange (readings ++ [r])) :
  ¬ (c.run readings).Overflows r
  := h readings r [] rfl

theorem Quiet.of_append {earlier stretch later : List (Reading K)}
    (h : c.Quiet earlier (stretch ++ later)) :
  c.Quiet earlier stretch
  := at_each_of_append h

theorem Quiet.last {earlier stretch : List (Reading K)} {r : Reading K}
    (h : c.Quiet earlier (stretch ++ [r])) :
  ¬ (c.run (earlier ++ stretch)).BadConditions r ∧ ¬ (c.run (earlier ++ stretch)).Upgrades r
  := h stretch r [] rfl

section

variable {c : BitrateController K} (hin : ∀ readings, (c.run readings).InLadder)

include hin

theorem InRange.counter_nonneg {readings : List (Reading K)} (h : c.InRange readings)
    (hstart : 0 ≤ c.consecutiveGood.toInt) :
  0 ≤ (c.run readings).consecutiveGood.toInt
  := by
  induction readings using List.reverseRecOn with
  | nil => exact hstart
  | append_singleton readings r ih =>
      rw [run_concat]
      exact (hin readings).counter_nonneg (ih h.of_append) h.last

/-- A stretch of good readings that do not raise the level is counted. -/
theorem InRange.counter_stretch {earlier stretch : List (Reading K)}
    (h : c.InRange (earlier ++ stretch)) (hquiet : c.Quiet earlier stretch) :
  (c.run (earlier ++ stretch)).consecutiveGood.toInt
    = (c.run earlier).consecutiveGood.toInt + stretch.length
  := by
  induction stretch using List.reverseRecOn with
  | nil => simp
  | append_singleton stretch r ih =>
      rw [← List.append_assoc] at h ⊢
      obtain ⟨hgood, hstays⟩ := hquiet.last
      have hcount := ih h.of_append hquiet.of_append
      rw [run_concat, (hin (earlier ++ stretch)).counter_succ hgood hstays h.last, hcount,
        List.length_append, List.length_singleton]
      push_cast
      ring

end

/-- The count of good readings stays in the range of an `int` if and only if, whenever readings of a
stretch are good and do not raise the level and one more reading is good, these are fewer than
`2 ^ 31` readings. -/
theorem counter_in_range_iff [Div K] (ladder : List QualityLevel) (hladder : ladder ≠ [])
    (lossThreshold : K) (upgradeConfirmations : Int32) (bandwidthHeadroom : K)
    (readings : List (Reading K)) :
  let start : BitrateController K :=
    make ladder lossThreshold upgradeConfirmations bandwidthHeadroom
  start.InRange readings
    ↔ ∀ earlier stretch r after, readings = (earlier ++ stretch) ++ r :: after →
      start.Quiet earlier stretch → ¬ (start.run (earlier ++ stretch)).BadConditions r →
      (stretch ++ [r]).length < 2 ^ 31
  := by
  intro start
  have hin : ∀ readings, (start.run readings).InLadder := inLadder_run hladder
  constructor
  · rintro hrange earlier stretch r after rfl hquiet hgood
    have hcount := hrange.of_append.counter_stretch hin hquiet
    have hnonneg := hrange.of_append.of_append.counter_nonneg hin le_rfl
    have hroom : ¬ 2 ^ 31 ≤ (start.run (earlier ++ stretch)).consecutiveGood.toInt + 1 :=
      fun hfull => hrange _ r after rfl ⟨hgood, hfull⟩
    rw [List.length_append, List.length_singleton]
    omega
  · rintro hshort before r after heq ⟨hgood, hfull⟩
    obtain ⟨earlier, stretch, rfl, hquiet, hcount⟩ := exists_stretch hladder before
    have hlength := hshort earlier stretch r after heq hquiet hgood
    have hle := toInt_ofNat_le stretch.length
    rw [hcount] at hfull
    rw [List.length_append, List.length_singleton] at hlength
    omega

end

/-- Three good readings, the last of which raises the level. -/
theorem counter_in_range_third :
  let start : BitrateController ℚ := make [⟨"low", 32⟩, ⟨"high", 64⟩] (1 / 20) 3 (13 / 10)
  start.InRange [⟨100, 0⟩, ⟨100, 0⟩, ⟨100, 0⟩]
  := by
  apply (counter_in_range_iff _ (by decide) _ _ _ _).mpr
  intro earlier stretch r after heq _ _
  have hlength := congrArg List.length heq
  simp only [List.length_append, List.length_cons, List.length_nil] at hlength ⊢
  omega

/-! ### A level that cannot be left -/

/-- A controller with one level only. -/
def onlyLevel : BitrateController ℚ := make [⟨"only", 64⟩]

theorem reading_nothing :
  (reading NetworkConditionEstimator.make 0 : Reading ℚ) = ⟨0, 0⟩
  := by
  simp [reading, NetworkConditionEstimator.make, NetworkConditionEstimator.estimatedBandwidthKbps,
    NetworkConditionEstimator.evictOldLocked, NetworkConditionEstimator.estimatedLossRate]

/-- Where nothing is measured, a reading is good. -/
theorem good_onlyLevel (count : Int32) :
  ¬ BadConditions { onlyLevel with consecutiveGood := count }
    (reading NetworkConditionEstimator.make 0)
  := by
  rw [reading_nothing]
  norm_num [BadConditions, onlyLevel, make]

/-- So an evaluation counts. -/
theorem evaluate_onlyLevel (count : Int32) :
  (evaluate { onlyLevel with consecutiveGood := count } NetworkConditionEstimator.make 0).2.1
    = { onlyLevel with consecutiveGood := count + 1 }
  := by
  have hstays : ¬ MayUpgrade { onlyLevel with consecutiveGood := count + 1 }
      (reading NetworkConditionEstimator.make 0) := by
    rintro ⟨-, habove, -⟩
    have hnone : ¬ (0 : Int32) + 1 < Int32.ofNat 1 := by decide
    exact hnone habove
  change evaluateReading _ (reading NetworkConditionEstimator.make 0) = _
  rw [evaluateReading, if_neg (good_onlyLevel count)]
  exact if_neg hstays

theorem evaluations_onlyLevel (n : ℕ) :
  onlyLevel.evaluations (List.replicate n (NetworkConditionEstimator.make, 0))
    = { onlyLevel with consecutiveGood := Int32.ofNat n }
  := by
  induction n with
  | zero => rfl
  | succ n ih =>
      rw [List.replicate_succ', evaluations_concat, ih, evaluate_onlyLevel, Int32.ofNat_add]
      rfl

/-- After `2 ^ 31 - 1` good readings at the only level there is, one more makes the count
negative. -/
theorem counter_overflows :
  let nothing : NetworkConditionEstimator ℚ := NetworkConditionEstimator.make
  let c := onlyLevel.evaluations (List.replicate (2 ^ 31 - 1) (nothing, 0))
  c.Overflows (reading nothing 0) ∧ (c.evaluate nothing 0).2.1.consecutiveGood.toInt = - 2 ^ 31
  := by
  intro nothing c
  have hc : c = { onlyLevel with consecutiveGood := Int32.ofNat (2 ^ 31 - 1) } :=
    evaluations_onlyLevel _
  rw [hc]
  refine ⟨⟨good_onlyLevel _, by decide⟩, ?_⟩
  rw [evaluate_onlyLevel]
  decide

end BitrateController

end Media
