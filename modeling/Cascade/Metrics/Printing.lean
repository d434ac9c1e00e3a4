import Mathlib

/-!
# How numbers are printed

An `ostream` that was not told otherwise prints a double with six significant digits: rounded to
them, without zeros at the end, and with an exponent if it is large or small. The doubles are
rational numbers here. The decimal that is printed is the number itself if and only if six digits
are enough for it (`decimal_value_iff`).
-/

namespace Metrics

/-! ### Decimals -/

/-- A decimal number as it is written: a sign, digits before and behind a point, and an exponent if
there is one. -/
structure Decimal where
  negative : Bool
  whole : List Char
  fraction : List Char
  exponent : Option ℤ
deriving DecidableEq

namespace Decimal

/-- An exponent has a sign and at least two digits. -/
def exponentText (e : ℤ) : List Char :=
  'e' :: (if e < 0 then '-' else '+') :: List.leftpad 2 '0' (Nat.toDigits 10 e.natAbs)

/-- There is no point if no digit is behind it. -/
def text (d : Decimal) : String :=
  String.ofList ((if d.negative then ['-'] else []) ++ d.whole
    ++ (if d.fraction = [] then [] else '.' :: d.fraction) ++ d.exponent.elim [] exponentText)

/-- The number that is written. -/
def value (d : Decimal) : ℚ :=
  (if d.negative then -1 else 1) * Nat.ofDigitChars 10 (d.whole ++ d.fraction) 0
    * 10 ^ (d.exponent.getD 0 - d.fraction.length)

end Decimal

/-! ### Printing -/

/-- The natural number that is closest, and even if there are two. -/
def roundEven (q : ℚ) : ℕ :=
  let n := ⌊q⌋₊
  if q - n < 1 / 2 ∨ q - n = 1 / 2 ∧ n % 2 = 0 then n else n + 1

/-- The six digits of a positive number, and the exponent of the first of them. -/
def significant (q : ℚ) : ℕ × ℤ :=
  let e := Int.log 10 q
  let m := roundEven (q * 10 ^ (5 - e))
  if m = 10 ^ 6 then (10 ^ 5, e + 1) else (m, e)

/-- The digits of a number other than 0, with the point behind the first if there is an exponent. -/
def layout (negative : Bool) (m : ℕ) (e : ℤ) : Decimal :=
  let digits := Nat.toDigits 10 m
  if e < -4 ∨ 6 ≤ e then ⟨negative, digits.take 1, digits.drop 1, some e⟩
  else if e < 0 then ⟨negative, ['0'], List.replicate (-e - 1).toNat '0' ++ digits, none⟩
  else ⟨negative, digits.take (e + 1).toNat, digits.drop (e + 1).toNat, none⟩

/-- The decimal that is printed. Zeros at the end of the fraction are left out. -/
def decimal (q : ℚ) : Decimal :=
  let d := if q = 0 then ⟨false, ['0'], [], none⟩
    else layout (q < 0) (significant |q|).1 (significant |q|).2
  { d with fraction := d.fraction.rdropWhile (· == '0') }

/-- What is printed. -/
def print (q : ℚ) : String := (decimal q).text

/-! ### The number that is printed -/

/-- The zeros that are left out count for nothing. -/
theorem Decimal.value_rdropWhile (d : Decimal) :
  { d with fraction := d.fraction.rdropWhile (· == '0') }.value = d.value
  := by
  obtain ⟨negative, whole, fraction, exponent⟩ := d
  obtain ⟨k, hk⟩ : ∃ k, fraction = fraction.rdropWhile (· == '0') ++ List.replicate k '0' := by
    refine ⟨(fraction.rtakeWhile (· == '0')).length, ?_⟩
    conv_lhs => rw [← List.rdropWhile_append_rtakeWhile (p := (· == '0')) (l := fraction)]
    rw [List.append_right_inj, List.eq_replicate_iff]
    refine ⟨rfl, fun c hc => ?_⟩
    simpa using List.mem_rtakeWhile_imp hc
  simp only [value]
  generalize fraction.rdropWhile (· == '0') = kept at hk ⊢
  rw [hk, ← List.append_assoc, Nat.ofDigitChars_append (l := whole ++ kept),
    Nat.ofDigitChars_replicate_zero, List.length_append, List.length_replicate]
  push_cast
  rw [mul_comm ((10 : ℚ) ^ k), ← mul_assoc, mul_assoc _ ((10 : ℚ) ^ k), ← zpow_natCast (10 : ℚ) k,
    ← zpow_add₀ (by norm_num : (10 : ℚ) ≠ 0)]
  congr 2
  ring

theorem layout_value {m : ℕ} (hlow : 10 ^ 5 ≤ m) (hhigh : m < 10 ^ 6) (negative : Bool) (e : ℤ) :
  (layout negative m e).value = (if negative then -1 else 1) * m * 10 ^ (e - 5)
  := by
  have hlength : (Nat.toDigits 10 m).length = 6 := by
    have hle := (Nat.length_toDigits_le_iff (b := 10) (k := 6) (by decide) (by decide)).mpr hhigh
    have hge := (Nat.length_toDigits_le_iff (b := 10) (n := m) (k := 5) (by decide)
      (by decide)).not
    omega
  have hvalue : Nat.ofDigitChars 10 (Nat.toDigits 10 m) 0 = m := Nat.ofDigitChars_ten_toDigits
  rw [layout]
  split
  · simp only [Decimal.value]
    rw [List.take_append_drop, hvalue, List.length_drop, hlength]
    rfl
  · split
    · have hzeros : ['0'] ++ (List.replicate (-e - 1).toNat '0' ++ Nat.toDigits 10 m)
          = List.replicate ((-e - 1).toNat + 1) '0' ++ Nat.toDigits 10 m := by
        rw [List.replicate_succ]
        rfl
      simp only [Decimal.value]
      rw [hzeros, Nat.ofDigitChars_append, Nat.ofDigitChars_replicate_zero, Nat.mul_zero, hvalue,
        List.length_append, List.length_replicate, hlength]
      congr 2
      simp only [Option.getD_none]
      push_cast
      omega
    · simp only [Decimal.value]
      rw [List.take_append_drop, hvalue, List.length_drop, hlength]
      congr 2
      simp only [Option.getD_none]
      omega

/-! ### Rounding -/

theorem roundEven_bounds (q : ℚ) :
  ⌊q⌋₊ ≤ roundEven q ∧ roundEven q ≤ ⌊q⌋₊ + 1
  := by
  simp only [roundEven]
  split <;> omega

@[simp]
theorem roundEven_natCast (n : ℕ) :
  roundEven n = n
  := by
  simp [roundEven]

section

variable {q : ℚ}

/-- A positive number has six digits before the point when it is scaled by its logarithm. -/
theorem scaled_bounds (hq : 0 < q) :
  (10 : ℚ) ^ 5 ≤ q * 10 ^ (5 - Int.log 10 q) ∧ q * 10 ^ (5 - Int.log 10 q) < 10 ^ 6
  := by
  have hpos : (0 : ℚ) < 10 ^ (5 - Int.log 10 q) := by positivity
  have hlow : (10 : ℚ) ^ Int.log 10 q ≤ q := Int.zpow_log_le_self (by decide) hq
  have hhigh : q < (10 : ℚ) ^ (Int.log 10 q + 1) := Int.lt_zpow_succ_log_self (by decide) q
  constructor
  · calc (10 : ℚ) ^ 5 = 10 ^ Int.log 10 q * 10 ^ (5 - Int.log 10 q) := by
          rw [← zpow_add₀ (by norm_num), add_sub_cancel]
          rfl
      _ ≤ _ := mul_le_mul_of_nonneg_right hlow hpos.le
  · calc q * 10 ^ (5 - Int.log 10 q)
        < 10 ^ (Int.log 10 q + 1) * 10 ^ (5 - Int.log 10 q) := mul_lt_mul_of_pos_right hhigh hpos
      _ = 10 ^ 6 := by
          rw [← zpow_add₀ (by norm_num), show Int.log 10 q + 1 + (5 - Int.log 10 q) = 6 by ring]
          rfl

/-- There are six digits. -/
theorem significant_bounds (hq : 0 < q) :
  10 ^ 5 ≤ (significant q).1 ∧ (significant q).1 < 10 ^ 6
  := by
  obtain ⟨hlow, hhigh⟩ := scaled_bounds hq
  have hfloor : 10 ^ 5 ≤ ⌊q * 10 ^ (5 - Int.log 10 q)⌋₊ := Nat.le_floor (by exact_mod_cast hlow)
  have hlt : ⌊q * 10 ^ (5 - Int.log 10 q)⌋₊ < 10 ^ 6 := by
    rw [Nat.floor_lt (by linarith)]
    exact_mod_cast hhigh
  obtain ⟨hge, hle⟩ := roundEven_bounds (q * 10 ^ (5 - Int.log 10 q))
  simp only [significant]
  split
  · exact ⟨le_rfl, by norm_num⟩
  · dsimp only
    omega

/-- The number has at most six significant digits. -/
def SixDigits (q : ℚ) : Prop := ∃ m k : ℤ, |m| < 10 ^ 6 ∧ q = m * 10 ^ k

/-- A positive number of six digits is a natural number when it is scaled to six of them. -/
theorem significant_eq {m : ℕ} {k : ℤ} (hm : m < 10 ^ 6) (hq : 0 < (m : ℚ) * 10 ^ k) :
  let r := significant (m * 10 ^ k)
  r.1 * (10 : ℚ) ^ (r.2 - 5) = m * 10 ^ k
  := by
  obtain ⟨hlow, hhigh⟩ := scaled_bounds hq
  simp only [significant]
  generalize Int.log 10 ((m : ℚ) * 10 ^ k) = e at hlow hhigh ⊢
  have hten : (10 : ℚ) ≠ 0 := by norm_num
  rw [mul_assoc, ← zpow_add₀ hten] at hlow hhigh ⊢
  have hk : 0 ≤ k + (5 - e) := by
    by_contra hneg
    have hm' : (m : ℚ) < 1000000 := by exact_mod_cast hm
    have hsmall : (10 : ℚ) ^ (k + (5 - e)) ≤ 10 ^ (-1 : ℤ) :=
      zpow_le_zpow_right₀ (by norm_num) (by omega)
    have hpos : (0 : ℚ) < 10 ^ (k + (5 - e)) := by positivity
    norm_num at hsmall hlow
    nlinarith
  obtain ⟨j, hj⟩ := Int.eq_ofNat_of_zero_le hk
  have hnat : (m : ℚ) * 10 ^ (k + (5 - e)) = (m * 10 ^ j : ℕ) := by
    rw [hj]
    push_cast
    rfl
  rw [hnat] at hhigh ⊢
  have hlt : m * 10 ^ j < 10 ^ 6 := by exact_mod_cast hhigh
  rw [roundEven_natCast, if_neg hlt.ne]
  dsimp only
  rw [← hnat, mul_assoc, ← zpow_add₀ hten]
  congr 2
  ring

/-- What is printed is the number if and only if six digits are enough for it. -/
theorem decimal_value_iff (q : ℚ) :
  (decimal q).value = q ↔ SixDigits q
  := by
  rw [decimal, Decimal.value_rdropWhile]
  by_cases hq : q = 0
  · rw [if_pos hq, hq]
    exact iff_of_true (by decide +kernel) ⟨0, 0, by norm_num, by norm_num⟩
  have habs : 0 < |q| := abs_pos.mpr hq
  obtain ⟨hlow, hhigh⟩ := significant_bounds habs
  have hsign : (if decide (q < 0) = true then (-1 : ℚ) else 1) * |q| = q := by
    rcases lt_or_gt_of_ne hq with hneg | hpos
    · simp [hneg, abs_of_neg hneg]
    · simp [hpos.not_gt, abs_of_pos hpos]
  rw [if_neg hq, layout_value hlow hhigh]
  constructor
  · intro heq
    refine ⟨(if q < 0 then -1 else 1) * (significant |q|).1, (significant |q|).2 - 5, ?_, ?_⟩
    · rw [abs_mul, Nat.abs_cast]
      split
      · simpa using hhigh
      · simpa using hhigh
    · conv_lhs => rw [← heq]
      push_cast
      simp
  · rintro ⟨m, k, hm, hmk⟩
    have hmul : |q| = (m.natAbs : ℚ) * 10 ^ k := by
      rw [hmk, abs_mul, abs_of_pos (by positivity : (0 : ℚ) < 10 ^ k), Nat.cast_natAbs,
        Int.cast_abs]
    have hlt : m.natAbs < 10 ^ 6 := by
      rw [Int.abs_eq_natAbs] at hm
      exact_mod_cast hm
    have heq := significant_eq hlt (hmul ▸ habs)
    rw [← hmul] at heq
    rw [mul_assoc, heq]
    exact hsign

end

end Metrics
