import Mathlib
import Cascade.Library.Window
import Cascade.Media.NetworkEstimator

/-!
# The bitrate controller

The model of `media/bitrate_controller.hpp`: one of several levels of quality is selected, by what
is measured of the network. The response is asymmetric. A bad reading lowers the level at once, and
it is raised only after several good readings in a row (`asymmetric_response`).

That no bandwidth is measured does not count as a bad reading, so that the level stays, while a
little bandwidth lowers it. This is the only case in which worse conditions select a better level
(`monotone_response_iff`).
-/

open Window

namespace Media

/-- A step of the ladder. -/
structure QualityLevel where
  name : String
  bitrateKbps : UInt32
deriving DecidableEq

/-- What is measured for one evaluation. -/
structure Reading (K : Type) where
  bw : K
  loss : K

/-- The integers are those of the machine; adding to them wraps around. -/
structure BitrateController (K : Type) where
  ladder : List QualityLevel
  lossThreshold : K
  upgradeConfirmations : Int32
  bandwidthHeadroom : K
  currentIndex : Int32
  consecutiveGood : Int32

namespace BitrateController

section Model

variable {K : Type}

/-- The level at an index of the ladder. -/
def level (c : BitrateController K) (index : Int32) : QualityLevel :=
  c.ladder.getD index.toInt.toNat ⟨"", 0⟩

/-- The level that is selected. -/
def current (c : BitrateController K) : QualityLevel := c.level c.currentIndex

variable [NatCast K]

/-- The constructor. -/
def make [Div K] (ladder : List QualityLevel)
    (lossThreshold : K := ((5 : ℕ) : K) / ((100 : ℕ) : K))
    (upgradeConfirmations : Int32 := 3)
    (bandwidthHeadroom : K := ((13 : ℕ) : K) / ((10 : ℕ) : K)) : BitrateController K where
  ladder
  lossThreshold
  upgradeConfirmations
  bandwidthHeadroom
  currentIndex := 0
  consecutiveGood := 0

variable [Mul K] [LT K] [LE K] [DecidableLT K] [DecidableLE K]

/-- The bandwidth that a level needs. -/
def required (c : BitrateController K) (index : Int32) : K :=
  ((c.level index).bitrateKbps.toNat : K) * c.bandwidthHeadroom

/-- The reading is bad. -/
def BadConditions (c : BitrateController K) (r : Reading K) : Prop :=
  c.lossThreshold ≤ r.loss ∨ (((0 : ℕ) : K) < r.bw ∧ r.bw < c.required c.currentIndex)

instance (c : BitrateController K) (r : Reading K) : Decidable (c.BadConditions r) :=
  inferInstanceAs (Decidable (_ ∨ _))

/-- There were enough good readings, there is a higher level, and it has the bandwidth it needs. -/
def MayUpgrade (c : BitrateController K) (r : Reading K) : Prop :=
  c.upgradeConfirmations ≤ c.consecutiveGood
    ∧ c.currentIndex + 1 < Int32.ofNat c.ladder.length
    ∧ c.required (c.currentIndex + 1) ≤ r.bw

instance (c : BitrateController K) (r : Reading K) : Decidable (c.MayUpgrade r) :=
  inferInstanceAs (Decidable (_ ∧ _))

/-- What an evaluation does with a reading. -/
def evaluateReading (c : BitrateController K) (r : Reading K) : BitrateController K :=
  if c.BadConditions r then
    { c with
      consecutiveGood := 0
      currentIndex := if 0 < c.currentIndex then c.currentIndex - 1 else c.currentIndex }
  else
    let c := { c with consecutiveGood := c.consecutiveGood + 1 }
    if c.MayUpgrade r then
      { c with currentIndex := c.currentIndex + 1, consecutiveGood := 0 }
    else c

/-- An evaluation of what the estimator measures. -/
def evaluate [Add K] [Sub K] [Div K] (c : BitrateController K) (e : NetworkConditionEstimator K)
    (nowMs : UInt64) : QualityLevel × BitrateController K × NetworkConditionEstimator K :=
  let (bw, e) := e.estimatedBandwidthKbps nowMs
  let c := c.evaluateReading ⟨bw, e.estimatedLossRate⟩
  (c.current, c, e)

/-- One evaluation after the other. -/
def run (c : BitrateController K) (readings : List (Reading K)) : BitrateController K :=
  readings.foldl evaluateReading c

/-- An evaluation raises the level. -/
def Upgrades (c : BitrateController K) (r : Reading K) : Prop :=
  c.currentIndex.toInt < (c.evaluateReading r).currentIndex.toInt

end Model

/-! ### Machine integers -/

theorem toInt_add_one {x : Int32} (h : x.toInt < 2 ^ 31 - 1) :
  (x + 1).toInt = x.toInt + 1
  := by
  have hle := x.le_toInt
  rw [Int32.toInt_add, Int32.toInt_one]
  apply Int.bmod_eq_of_le
  · omega
  · omega

theorem toInt_sub_one {x : Int32} (h : 0 < x.toInt) :
  (x - 1).toInt = x.toInt - 1
  := by
  have hlt := x.toInt_lt
  rw [Int32.toInt_sub, Int32.toInt_one]
  apply Int.bmod_eq_of_le
  · omega
  · omega

/-- A count that has become too large for its type is not overestimated. -/
theorem toInt_ofNat_le (n : ℕ) :
  (Int32.ofNat n).toInt ≤ n
  := by
  rw [Int32.toInt_ofNat', show Int32.size = 2 ^ 32 from rfl, Int.bmod]
  split <;> omega

/-! ### One evaluation -/

section Evaluation

variable {K : Type} [NatCast K] [Mul K] [LT K] [LE K] [DecidableLT K] [DecidableLE K]

/-- The index is one of the ladder, and can be increased. -/
structure InLadder (c : BitrateController K) : Prop where
  nonneg : 0 ≤ c.currentIndex.toInt
  lt : c.currentIndex.toInt < c.ladder.length
  small : c.currentIndex.toInt < 2 ^ 31 - 1

/-- What an evaluation can do. A bad reading lowers the level unless it is the lowest one. A good
one raises it or is counted. -/
inductive Response (c : BitrateController K) (r : Reading K) : BitrateController K → Prop
  | lowered (hbad : c.BadConditions r) {index : Int32}
      (hindex : index.toInt = max (c.currentIndex.toInt - 1) 0) :
      Response c r { c with consecutiveGood := 0, currentIndex := index }
  | raised (hgood : ¬ c.BadConditions r)
      (hmay : MayUpgrade { c with consecutiveGood := c.consecutiveGood + 1 } r)
      (hindex : (c.currentIndex + 1).toInt = c.currentIndex.toInt + 1) :
      Response c r { c with consecutiveGood := 0, currentIndex := c.currentIndex + 1 }
  | counted (hgood : ¬ c.BadConditions r)
      (hstays : ¬ MayUpgrade { c with consecutiveGood := c.consecutiveGood + 1 } r) :
      Response c r { c with consecutiveGood := c.consecutiveGood + 1 }

theorem InLadder.response {c : BitrateController K} (h : c.InLadder) (r : Reading K) :
  c.Response r (c.evaluateReading r)
  := by
  rw [evaluateReading]
  by_cases hbad : c.BadConditions r
  · rw [if_pos hbad]
    apply Response.lowered hbad
    by_cases hpos : 0 < c.currentIndex
    · rw [if_pos hpos]
      rw [Int32.lt_iff_toInt_lt, Int32.toInt_zero] at hpos
      rw [toInt_sub_one hpos]
      omega
    · rw [if_neg hpos]
      rw [Int32.lt_iff_toInt_lt, Int32.toInt_zero] at hpos
      have hnonneg := h.nonneg
      omega
  · rw [if_neg hbad]
    dsimp only
    by_cases hmay : MayUpgrade { c with consecutiveGood := c.consecutiveGood + 1 } r
    · rw [if_pos hmay]
      exact .raised hbad hmay (toInt_add_one h.small)
    · rw [if_neg hmay]
      exact .counted hbad hmay

theorem InLadder.evaluateReading {c : BitrateController K} (h : c.InLadder) (r : Reading K) :
  (c.evaluateReading r).InLadder
  := by
  have hnonneg := h.nonneg
  have hlt := h.lt
  have hsmall := h.small
  have hresponse := h.response r
  generalize c.evaluateReading r = c' at hresponse
  cases hresponse with
  | lowered hbad hindex =>
      constructor
      · exact hindex.ge.trans' (le_max_right ..)
      · dsimp only
        omega
      · dsimp only
        omega
  | raised hgood hmay hindex =>
      have hbelow := Int32.lt_iff_toInt_lt.mp hmay.2.1
      dsimp only at hbelow
      have hle := toInt_ofNat_le c.ladder.length
      have hmax := (Int32.ofNat c.ladder.length).toInt_lt
      constructor
      · dsimp only
        omega
      · dsimp only
        omega
      · dsimp only
        omega
  | counted hgood hstays => exact ⟨hnonneg, hlt, hsmall⟩

end Evaluation

/-! ### Runs -/

section Runs

variable {K : Type} [NatCast K] [Mul K] [LT K] [LE K] [DecidableLT K] [DecidableLE K]

theorem run_concat (c : BitrateController K) (readings : List (Reading K)) (r : Reading K) :
  c.run (readings ++ [r]) = (c.run readings).evaluateReading r
  := by
  rw [run, List.foldl_append]
  rfl

/-- What the controller was constructed with stays. -/
theorem run_config (c : BitrateController K) (readings : List (Reading K)) :
  (c.run readings).ladder = c.ladder
    ∧ (c.run readings).lossThreshold = c.lossThreshold
    ∧ (c.run readings).upgradeConfirmations = c.upgradeConfirmations
  := by
  induction readings using List.reverseRecOn with
  | nil => exact ⟨rfl, rfl, rfl⟩
  | append_singleton readings r ih =>
      rw [run_concat, ← ih.1, ← ih.2.1, ← ih.2.2, evaluateReading]
      split
      · exact ⟨rfl, rfl, rfl⟩
      · dsimp only
        split
        · exact ⟨rfl, rfl, rfl⟩
        · exact ⟨rfl, rfl, rfl⟩

/-- Each reading of a stretch is good, and none raises the level. -/
def Quiet (c : BitrateController K) (earlier stretch : List (Reading K)) : Prop :=
  ∀ before r after, stretch = before ++ r :: after →
    ¬ (c.run (earlier ++ before)).BadConditions r ∧ ¬ (c.run (earlier ++ before)).Upgrades r

theorem Quiet.concat {c : BitrateController K} {earlier stretch : List (Reading K)}
    (h : c.Quiet earlier stretch) {r : Reading K}
    (hgood : ¬ (c.run (earlier ++ stretch)).BadConditions r)
    (hstays : ¬ (c.run (earlier ++ stretch)).Upgrades r) :
  c.Quiet earlier (stretch ++ [r])
  := by
  intro before r' after heq
  rcases split_concat heq with ⟨rfl, rfl⟩ | ⟨after', heq'⟩
  · exact ⟨hgood, hstays⟩
  · exact h before r' after' heq'

variable [Div K] {ladder : List QualityLevel} {lossThreshold bandwidthHeadroom : K}
  {upgradeConfirmations : Int32}

theorem inLadder_run (hladder : ladder ≠ []) (readings : List (Reading K)) :
  ((make ladder lossThreshold upgradeConfirmations bandwidthHeadroom).run readings).InLadder
  := by
  induction readings using List.reverseRecOn with
  | nil =>
      have hpos : (0 : ℤ) < ladder.length := by
        exact_mod_cast List.length_pos_of_ne_nil hladder
      have hsmall : (0 : Int32).toInt < 2 ^ 31 - 1 := by decide
      exact ⟨le_rfl, hpos, hsmall⟩
  | append_singleton readings r ih =>
      rw [run_concat]
      exact ih.evaluateReading r

/-- The counter has the length of a stretch of good readings up to now, in which the level was not
raised. -/
theorem exists_stretch (hladder : ladder ≠ []) (readings : List (Reading K)) :
  let c := make ladder lossThreshold upgradeConfirmations bandwidthHeadroom
  ∃ earlier stretch, readings = earlier ++ stretch ∧ c.Quiet earlier stretch
    ∧ (c.run readings).consecutiveGood = Int32.ofNat stretch.length
  := by
  intro c
  have hnone : ∀ earlier, c.Quiet earlier [] := by
    intro earlier before r after heq
    cases before <;> cases heq
  induction readings using List.reverseRecOn with
  | nil => exact ⟨[], [], rfl, hnone [], rfl⟩
  | append_singleton readings r ih =>
      obtain ⟨earlier, stretch, rfl, hquiet, hcount⟩ := ih
      have hresponse : (c.run (earlier ++ stretch)).Response r _ :=
        (inLadder_run hladder (earlier ++ stretch)).response r
      rw [run_concat]
      generalize hafter : (c.run (earlier ++ stretch)).evaluateReading r = after at hresponse
      cases hresponse with
      | lowered hbad hindex =>
          exact ⟨earlier ++ stretch ++ [r], [], (List.append_nil _).symm, hnone _, rfl⟩
      | raised hgood hmay hindex =>
          exact ⟨earlier ++ stretch ++ [r], [], (List.append_nil _).symm, hnone _, rfl⟩
      | counted hgood hstays =>
          have hsame : ¬ (c.run (earlier ++ stretch)).Upgrades r := by
            rw [Upgrades, hafter]
            apply lt_irrefl
          refine ⟨earlier, stretch ++ [r], List.append_assoc .., hquiet.concat hgood hsame, ?_⟩
          dsimp only
          rw [hcount, List.length_append, List.length_singleton, Int32.ofNat_add]
          rfl

/-- After any readings the index is one of the ladder, and a further reading changes it by at most
one. A bad reading does not raise it, and lowers it unless it is the lowest. A reading that raises
it is good, has the bandwidth that the new level needs, and ends a stretch of as many good readings
as have to confirm it, none of which has raised it. -/
theorem asymmetric_response (ladder : List QualityLevel) (hladder : ladder ≠ [])
    (lossThreshold : K) (upgradeConfirmations : Int32) (bandwidthHeadroom : K)
    (readings : List (Reading K)) (r : Reading K) :
  let start := make ladder lossThreshold upgradeConfirmations bandwidthHeadroom
  let c := start.run readings
  let c' := c.evaluateReading r
  (0 ≤ c.currentIndex.toInt ∧ c.currentIndex.toInt < ladder.length)
    ∧ |c'.currentIndex.toInt - c.currentIndex.toInt| ≤ 1
    ∧ (c.BadConditions r → c'.currentIndex.toInt ≤ c.currentIndex.toInt
        ∧ (c.currentIndex.toInt ≠ 0 → c'.currentIndex.toInt < c.currentIndex.toInt))
    ∧ (c.Upgrades r → ¬ c.BadConditions r ∧ c'.required c'.currentIndex ≤ r.bw
        ∧ ∃ earlier stretch, readings = earlier ++ stretch
          ∧ upgradeConfirmations.toInt ≤ (stretch ++ [r]).length
          ∧ start.Quiet earlier stretch)
  := by
  intro start c c'
  have hin : c.InLadder := inLadder_run hladder readings
  obtain ⟨hconfig, -, hconfirmations⟩ := start.run_config readings
  have hladder' : c.ladder = ladder := hconfig
  have hnonneg := hin.nonneg
  have hlt := hin.lt
  have hresponse : c.Response r c' := hin.response r
  have hupgrades : c.Upgrades r ↔ c.currentIndex.toInt < c'.currentIndex.toInt := Iff.rfl
  rw [hladder'] at hlt
  rw [hupgrades]
  refine ⟨⟨hnonneg, hlt⟩, ?_⟩
  generalize c' = after at hresponse
  cases hresponse with
  | lowered hbad hindex =>
      dsimp only
      refine ⟨?_, fun _ => ⟨?_, fun _ => ?_⟩, fun hup => ?_⟩
      · rw [abs_le]
        omega
      · omega
      · omega
      · omega
  | raised hgood hmay hindex =>
      obtain ⟨hconfirmed, -, hbandwidth⟩ := hmay
      dsimp only at hconfirmed ⊢
      refine ⟨?_, fun hbad => absurd hbad hgood, fun _ => ⟨hgood, hbandwidth, ?_⟩⟩
      · rw [abs_le]
        omega
      · obtain ⟨earlier, stretch, heq, hquiet, hcount⟩ := exists_stretch hladder readings
        refine ⟨earlier, stretch, heq, ?_, hquiet⟩
        have hcount' : c.consecutiveGood + 1 = Int32.ofNat (stretch ++ [r]).length := by
          rw [List.length_append, List.length_singleton, Int32.ofNat_add, ← hcount]
          rfl
        rw [hcount', Int32.le_iff_toInt_le, show c.upgradeConfirmations = _ from hconfirmations]
          at hconfirmed
        exact hconfirmed.trans (toInt_ofNat_le _)
  | counted hgood hstays =>
      dsimp only
      refine ⟨?_, fun hbad => absurd hbad hgood, fun hup => ?_⟩
      · rw [sub_self, abs_zero]
        exact zero_le_one
      · exact absurd hup (lt_irrefl _)

end Runs

/-- Two good readings, and a third one that raises the level. -/
theorem asymmetric_response_third :
  let start : BitrateController ℚ := make [⟨"low", 32⟩, ⟨"high", 64⟩] (1 / 20) 3 (13 / 10)
  let good : Reading ℚ := ⟨100, 0⟩
  (start.run [good, good]).Upgrades good
    ∧ ∃ earlier stretch, [good, good] = earlier ++ stretch ∧ 3 ≤ (stretch ++ [good]).length
  := by
  intro start good
  have hupgrades : (start.run [good, good]).Upgrades good := by
    rw [Upgrades]
    decide +kernel
  have hresponse := asymmetric_response [⟨"low", 32⟩, ⟨"high", 64⟩] (by decide) (1 / 20 : ℚ) 3
    (13 / 10) [good, good] good
  obtain ⟨-, -, earlier, stretch, heq, hlen, -⟩ := hresponse.2.2.2 hupgrades
  have hthree : (3 : Int32).toInt = 3 := by decide
  rw [hthree] at hlen
  exact ⟨hupgrades, earlier, stretch, heq, by exact_mod_cast hlen⟩

/-! ### Worse conditions -/

section Monotone

variable {c : BitrateController ℚ} {r₁ r₂ : Reading ℚ}

theorem MayUpgrade.mono (h : c.MayUpgrade r₁) (hbw : r₁.bw ≤ r₂.bw) :
  c.MayUpgrade r₂
  := by
  obtain ⟨hconfirmed, hlt, hbandwidth⟩ := h
  exact ⟨hconfirmed, hlt, hbandwidth.trans hbw⟩

/-- The worse one of two readings is good and the better one bad: none is measured in the worse
one, and too little in the better one. -/
theorem no_bandwidth (hbw : r₁.bw ≤ r₂.bw) (hloss : r₂.loss ≤ r₁.loss)
    (hgood : ¬ c.BadConditions r₁) (hbad : c.BadConditions r₂) :
  r₁.loss < c.lossThreshold ∧ r₁.bw ≤ 0 ∧ 0 < r₂.bw ∧ r₂.bw < c.required c.currentIndex
  := by
  rw [BadConditions, not_or, not_le, not_and, not_lt, Nat.cast_zero] at hgood
  rcases hbad with hlost | ⟨hpos, hlow⟩
  · exact absurd (hlost.trans hloss) (not_le.mpr hgood.1)
  · rw [Nat.cast_zero] at hpos
    refine ⟨hgood.1, ?_, hpos, hlow⟩
    by_contra hsome
    have hge := hgood.2 (not_le.mp hsome)
    exact absurd (hbw.trans_lt hlow) (not_lt.mpr hge)

/-- On a sorted ladder a higher level needs at least the bandwidth of a lower one that needs
some. -/
theorem required_next_pos
    (hsorted : c.ladder.Pairwise fun a b => a.bitrateKbps ≤ b.bitrateKbps) (hin : c.InLadder)
    (hnext : (c.currentIndex + 1).toInt = c.currentIndex.toInt + 1)
    (hlt : (c.currentIndex + 1).toInt < c.ladder.length)
    (hpos : 0 < c.required c.currentIndex) :
  0 < c.required (c.currentIndex + 1)
  := by
  have hnonneg := hin.nonneg
  have hle : (c.level c.currentIndex).bitrateKbps ≤ (c.level (c.currentIndex + 1)).bitrateKbps := by
    rw [level, level, List.getD_eq_getElem _ _ (by omega), List.getD_eq_getElem _ _ (by omega)]
    apply List.pairwise_iff_getElem.mp hsorted
    omega
  have hcast : ((c.level c.currentIndex).bitrateKbps.toNat : ℚ)
      ≤ (c.level (c.currentIndex + 1)).bitrateKbps.toNat := by
    exact_mod_cast UInt32.le_iff_toNat_le.mp hle
  rw [required] at hpos ⊢
  have hrate : (0 : ℚ) ≤ (c.level c.currentIndex).bitrateKbps.toNat := Nat.cast_nonneg _
  have hheadroom : 0 < c.bandwidthHeadroom := pos_of_mul_pos_right hpos hrate
  exact hpos.trans_le (mul_le_mul_of_nonneg_right hcast hheadroom.le)

/-- What becomes of two readings of which one is worse. -/
theorem InLadder.monotone_iff (hin : c.InLadder)
    (hsorted : c.ladder.Pairwise fun a b => a.bitrateKbps ≤ b.bitrateKbps)
    (hbw : r₁.bw ≤ r₂.bw) (hloss : r₂.loss ≤ r₁.loss) :
  (c.evaluateReading r₁).currentIndex.toInt ≤ (c.evaluateReading r₂).currentIndex.toInt
    ↔ ¬ (0 < c.currentIndex.toInt ∧ r₁.loss < c.lossThreshold ∧ r₁.bw ≤ 0 ∧ 0 < r₂.bw
        ∧ r₂.bw < c.required c.currentIndex)
  := by
  have hnonneg := hin.nonneg
  have hgood₁ : r₁.loss < c.lossThreshold → r₁.bw ≤ 0 → ¬ c.BadConditions r₁ := by
    rintro hloss₁ hbw₁ (hbad | ⟨hpos, -⟩)
    · exact absurd hbad (not_le.mpr hloss₁)
    · rw [Nat.cast_zero] at hpos
      exact absurd hpos (not_lt.mpr hbw₁)
  have hbad₂ : 0 < r₂.bw → r₂.bw < c.required c.currentIndex → c.BadConditions r₂ := by
    intro hpos hlow
    rw [BadConditions, Nat.cast_zero]
    exact .inr ⟨hpos, hlow⟩
  have hresponse₁ := hin.response r₁
  have hresponse₂ := hin.response r₂
  generalize c.evaluateReading r₁ = c₁ at hresponse₁
  generalize c.evaluateReading r₂ = c₂ at hresponse₂
  cases hresponse₁ with
  | lowered hbad hindex =>
      apply iff_of_true
      · cases hresponse₂ with
        | lowered hbad' hindex' => exact (hindex.trans hindex'.symm).le
        | raised hgood' hmay' hindex' =>
            dsimp only
            omega
        | counted hgood' hstays' =>
            dsimp only
            omega
      · rintro ⟨-, hloss₁, hbw₁, -, -⟩
        exact hgood₁ hloss₁ hbw₁ hbad
  | raised hgood hmay hindex =>
      cases hresponse₂ with
      | lowered hbad' hindex' =>
          -- on a sorted ladder a level that needs no bandwidth has none below it that needs some
          obtain ⟨-, hbw₁, hpos, hlow⟩ := no_bandwidth hbw hloss hgood hbad'
          have hbelow := Int32.lt_iff_toInt_lt.mp hmay.2.1
          have hlt := hbelow.trans_le (toInt_ofNat_le _)
          have hneeds := required_next_pos hsorted hin hindex hlt (hpos.trans hlow)
          exact absurd (hmay.2.2.trans hbw₁) (not_le.mpr hneeds)
      | raised hgood' hmay' hindex' =>
          apply iff_of_true le_rfl
          rintro ⟨-, -, -, hpos, hlow⟩
          exact hgood' (hbad₂ hpos hlow)
      | counted hgood' hstays' => exact absurd (hmay.mono hbw) hstays'
  | counted hgood hstays =>
      cases hresponse₂ with
      | lowered hbad' hindex' =>
          obtain ⟨hloss₁, hbw₁, hpos, hlow⟩ := no_bandwidth hbw hloss hgood hbad'
          have hcond : r₁.loss < c.lossThreshold ∧ r₁.bw ≤ 0 ∧ 0 < r₂.bw
              ∧ r₂.bw < c.required c.currentIndex := ⟨hloss₁, hbw₁, hpos, hlow⟩
          dsimp only
          constructor
          · rintro hle ⟨habove, -⟩
            omega
          · intro hnot
            have hlowest : ¬ 0 < c.currentIndex.toInt := fun habove => hnot ⟨habove, hcond⟩
            omega
      | raised hgood' hmay' hindex' =>
          apply iff_of_true
          · dsimp only
            omega
          · rintro ⟨-, -, -, hpos, hlow⟩
            exact hgood' (hbad₂ hpos hlow)
      | counted hgood' hstays' =>
          apply iff_of_true le_rfl
          rintro ⟨-, -, -, hpos, hlow⟩
          exact hgood' (hbad₂ hpos hlow)

end Monotone

/-- In every state that is reached on a sorted ladder, the worse one of two readings does not end
at a higher level than the better one, unless the level is not the lowest one, no bandwidth is
measured in the worse reading and too little in the better one, and the loss is small. -/
theorem monotone_response_iff (ladder : List QualityLevel) (hladder : ladder ≠ [])
    (hsorted : ladder.Pairwise fun a b => a.bitrateKbps ≤ b.bitrateKbps) (lossThreshold : ℚ)
    (upgradeConfirmations : Int32) (bandwidthHeadroom : ℚ) (readings : List (Reading ℚ))
    (r₁ r₂ : Reading ℚ) (hbw : r₁.bw ≤ r₂.bw) (hloss : r₂.loss ≤ r₁.loss) :
  let c := (make ladder lossThreshold upgradeConfirmations bandwidthHeadroom).run readings
  (c.evaluateReading r₁).currentIndex.toInt ≤ (c.evaluateReading r₂).currentIndex.toInt
    ↔ ¬ (0 < c.currentIndex.toInt ∧ r₁.loss < lossThreshold ∧ r₁.bw ≤ 0 ∧ 0 < r₂.bw
        ∧ r₂.bw < c.required c.currentIndex)
  := by
  intro c
  obtain ⟨hconfig, hthreshold, -⟩ :=
    (make ladder lossThreshold upgradeConfirmations bandwidthHeadroom).run_config readings
  have hladder' : c.ladder = ladder := hconfig
  have hthreshold' : c.lossThreshold = lossThreshold := hthreshold
  have hin : c.InLadder := inLadder_run hladder readings
  rw [← hladder'] at hsorted
  rw [← hthreshold']
  apply hin.monotone_iff hsorted hbw hloss

/-- From the higher one of two levels, no bandwidth stays there, and a little goes down. -/
theorem monotone_response_fails :
  let start : BitrateController ℚ := make [⟨"low", 32⟩, ⟨"high", 64⟩] (1 / 20) 3 (13 / 10)
  let c := start.run [⟨100, 0⟩, ⟨100, 0⟩, ⟨100, 0⟩]
  (c.evaluateReading ⟨0, 0⟩).currentIndex = 1 ∧ (c.evaluateReading ⟨1, 0⟩).currentIndex = 0
  := by
  decide +kernel

/-- From there, little bandwidth and much. -/
theorem monotone_response_little :
  let start : BitrateController ℚ := make [⟨"low", 32⟩, ⟨"high", 64⟩] (1 / 20) 3 (13 / 10)
  let c := start.run [⟨100, 0⟩, ⟨100, 0⟩, ⟨100, 0⟩]
  (c.evaluateReading ⟨1, 0⟩).currentIndex.toInt ≤ (c.evaluateReading ⟨100, 0⟩).currentIndex.toInt
  := by
  intro start c
  have hladder : ([⟨"low", 32⟩, ⟨"high", 64⟩] : List QualityLevel) ≠ [] := by decide
  apply (monotone_response_iff [⟨"low", 32⟩, ⟨"high", 64⟩] hladder (by decide) (1 / 20) 3 (13 / 10)
    [⟨100, 0⟩, ⟨100, 0⟩, ⟨100, 0⟩] ⟨1, 0⟩ ⟨100, 0⟩ (by norm_num) le_rfl).mpr
  rintro ⟨-, -, hnone, -⟩
  norm_num at hnone

end BitrateController

end Media
