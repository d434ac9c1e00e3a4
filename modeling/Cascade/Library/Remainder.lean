import Mathlib.Algebra.CharP.Two
import Mathlib.Algebra.Field.ZMod
import Mathlib.Algebra.Polynomial.Div
import Mathlib.Tactic.LinearCombination
import Cascade.Library.ShiftRegister

/-!
# Shift registers divide polynomials

The bits of a register are the coefficients of a polynomial over the field with two elements, the
top bit that of the constant term. A step multiplies the polynomial by `X` and takes the remainder
by the polynomial that is fed back (`toPoly_step`). So a register to which the bits of a message are
added at the low end, one in each step, has the remainder of the message in it, with `X` to the
width of the register as a factor (`toPoly_foldl_feed`).

A symbol of several bits that is fed at once leaves the same as its bits, the lowest one first
(`feed_eq_foldl_bits`).
-/

open Polynomial

namespace ShiftRegister

variable {w s : ℕ}

/-! ### Bits -/

/-- The bits of a symbol, the lowest one first. -/
def bits (b : BitVec s) : List Bool := (List.range s).map b.getLsbD

@[simp]
theorem length_bits (b : BitVec s) :
  (bits b).length = s
  := by
  simp [bits]

theorem getLsbD_pack (bs : List Bool) (i : ℕ) (hi : i < w) :
  (pack (bs.map BitVec.ofBool) : BitVec w).getLsbD i = bs[i]?.getD false
  := by
  induction bs generalizing i with
  | nil => simp [pack]
  | cons b bs ih =>
      rw [List.map_cons, pack, BitVec.getLsbD_xor, BitVec.getLsbD_setWidth,
        BitVec.getLsbD_shiftLeft]
      cases i with
      | zero => simp [hi]
      | succ i => simp [hi, ih i (Nat.lt_of_succ_lt hi)]

/-- The bits of a symbol next to each other are the symbol. -/
theorem pack_bits (b : BitVec s) :
  (pack ((bits b).map BitVec.ofBool) : BitVec w) = b.setWidth w
  := by
  apply BitVec.eq_of_getLsbD_eq
  intro i hi
  rw [getLsbD_pack _ i hi, BitVec.getLsbD_setWidth, bits, List.getElem?_map]
  by_cases his : i < s
  · simp [List.getElem?_range his, hi]
  · simp [Nat.le_of_not_lt his]

/-- A symbol can be fed bit by bit. -/
theorem feed_eq_foldl_bits (poly c : BitVec w) (b : BitVec s) (h : s ≤ w) :
  feed poly c b = ((bits b).map BitVec.ofBool).foldl (feed poly) c
  := by
  rw [foldl_feed poly c, pack_bits b, feed]
  · simp
  · simpa using h

theorem foldl_feed_eq_foldl_bits (poly c : BitVec w) (bs : List (BitVec s)) (h : s ≤ w) :
  bs.foldl (feed poly) c = ((bs.flatMap bits).map BitVec.ofBool).foldl (feed poly) c
  := by
  induction bs generalizing c with
  | nil => rfl
  | cons b bs ih =>
      rw [List.foldl_cons, ih, feed_eq_foldl_bits poly c b h, List.flatMap_cons, List.map_append,
        List.foldl_append]

/-! ### Polynomials -/

/-- The polynomial of a register. The coefficient of `X ^ i` is the bit `i` places below the top. -/
noncomputable def toPoly (c : BitVec w) : (ZMod 2)[X] :=
  ∑ i ∈ Finset.range w, if c.getMsbD i then X ^ i else 0

/-- The polynomial that is divided by. -/
noncomputable def modulus (poly : BitVec w) : (ZMod 2)[X] := X ^ w + toPoly poly

/-- The polynomial of a message. The last bit is the constant term. -/
noncomputable def message : List Bool → (ZMod 2)[X]
  | [] => 0
  | b :: bs => (if b then X ^ bs.length else 0) + message bs

theorem coeff_toPoly (c : BitVec w) (n : ℕ) :
  (toPoly c).coeff n = if c.getMsbD n then 1 else 0
  := by
  have hterm : ∀ i ∈ Finset.range w,
      (if c.getMsbD i then X ^ i else (0 : (ZMod 2)[X])).coeff n
        = if i = n then if c.getMsbD n then 1 else 0 else 0 := by
    intro i _
    by_cases hi : i = n
    · subst hi
      by_cases hbit : c.getMsbD i <;> simp [hbit]
    · by_cases hbit : c.getMsbD i <;> simp [hbit, hi, coeff_X_pow, Ne.symm hi]
  rw [toPoly, finsetSum_coeff, Finset.sum_congr rfl hterm, Finset.sum_ite_eq']
  by_cases hn : n < w
  · simp [hn]
  · simp [hn, BitVec.getMsbD_of_ge c n (Nat.le_of_not_lt hn)]

theorem degree_toPoly_lt (c : BitVec w) :
  (toPoly c).degree < w
  := by
  rw [degree_lt_iff_coeff_zero]
  intro n hn
  rw [coeff_toPoly, BitVec.getMsbD_of_ge c n hn]
  rfl

theorem monic_modulus (poly : BitVec w) :
  (modulus poly).Monic
  := monic_X_pow_add (degree_toPoly_lt poly)

theorem degree_modulus (poly : BitVec w) :
  (modulus poly).degree = w
  := by
  rw [modulus, degree_add_eq_left_of_degree_lt]
  · exact degree_X_pow w
  · rw [degree_X_pow]
    exact degree_toPoly_lt poly

theorem degree_toPoly_lt_modulus (poly c : BitVec w) :
  (toPoly c).degree < (modulus poly).degree
  := by
  rw [degree_modulus]
  apply degree_toPoly_lt

theorem toPoly_zero :
  toPoly (0#w) = 0
  := by
  simp [toPoly]

theorem toPoly_xor (a b : BitVec w) :
  toPoly (a ^^^ b) = toPoly a + toPoly b
  := by
  ext n
  rw [coeff_add, coeff_toPoly, coeff_toPoly, coeff_toPoly, BitVec.getMsbD_xor]
  cases a.getMsbD n <;> cases b.getMsbD n <;> decide

/-- Moving a register down multiplies by `X`, up to the bit that falls out. -/
theorem toPoly_ushiftRight (c : BitVec w) (hw : 0 < w) :
  toPoly (c >>> 1) + (if c.getLsbD 0 then X ^ w else 0) = X * toPoly c
  := by
  have hlow : c.getLsbD 0 = c.getMsbD (w - 1) := by
    rw [BitVec.getLsbD_eq_getMsbD]
    simp [hw]
  ext n
  rw [coeff_add, coeff_toPoly, BitVec.getMsbD_ushiftRight, hlow]
  cases n with
  | zero =>
      cases c.getMsbD (w - 1) <;> simp [coeff_X_pow, Nat.ne_of_lt hw]
  | succ n =>
      rw [coeff_X_mul, coeff_toPoly]
      rcases Nat.lt_trichotomy (n + 1) w with hn | rfl | hn
      · cases c.getMsbD (w - 1) <;> simp [coeff_X_pow, hn, Nat.ne_of_lt hn]
      · cases hbit : c.getMsbD n <;> simp [hbit]
      · have hge : w ≤ n := Nat.lt_succ_iff.mp hn
        cases c.getMsbD (w - 1) <;>
          simp [coeff_X_pow, Nat.not_lt_of_lt hn, Nat.ne_of_gt hn, BitVec.getMsbD_of_ge c n hge]

/-- A step multiplies by `X` and divides. -/
theorem toPoly_step (poly c : BitVec w) (hw : 0 < w) :
  toPoly (step poly c) = (X * toPoly c) %ₘ modulus poly
  := by
  have hdivision : toPoly (step poly c) + modulus poly * (if c.getLsbD 0 then 1 else 0)
      = X * toPoly c := by
    rw [← toPoly_ushiftRight c hw, step]
    cases c.getLsbD 0 with
    | false => simp
    | true =>
        -- What is fed back is added twice.
        have htwice := CharTwo.add_self_eq_zero (toPoly poly)
        simp only [if_true, toPoly_xor, modulus, mul_one]
        linear_combination htwice
  have hsmall := degree_toPoly_lt_modulus poly (step poly c)
  exact (div_modByMonic_unique _ _ (monic_modulus poly) ⟨hdivision, hsmall⟩).2.symm

/-! ### Messages -/

theorem message_concat (bs : List Bool) (b : Bool) :
  message (bs ++ [b]) = X * message bs + if b then 1 else 0
  := by
  induction bs with
  | nil => simp [message]
  | cons b' bs ih =>
      rw [List.cons_append, message, ih, message, mul_add, add_assoc]
      congr 1
      cases b' <;> simp [pow_succ']

/-- A bit at the low end of a register moves out of it. -/
theorem X_mul_toPoly_ofBool (b : Bool) (hw : 0 < w) :
  X * toPoly ((BitVec.ofBool b).setWidth w) = if b then X ^ w else 0
  := by
  have hout : (BitVec.ofBool b).setWidth w >>> 1 = 0#w := by
    apply BitVec.eq_of_getLsbD_eq
    intro i _
    simp
  rw [← toPoly_ushiftRight _ hw, hout, toPoly_zero, zero_add]
  simp [hw]

/-- Only the last remainder has to be taken. -/
theorem mul_modByMonic_add (m p q r : (ZMod 2)[X]) (hm : m.Monic) :
  (p * (q %ₘ m) + r) %ₘ m = (p * q + r) %ₘ m
  := by
  apply modByMonic_eq_of_dvd_sub hm
  have hdiff : p * (q %ₘ m) + r - (p * q + r) = p * (q %ₘ m - q) := by ring
  rw [hdiff]
  apply Dvd.dvd.mul_left
  exact dvd_modByMonic_sub q m

theorem toPoly_feed_ofBool (poly c : BitVec w) (b : Bool) (hw : 0 < w) :
  toPoly (feed poly c (BitVec.ofBool b))
    = (X * toPoly c + if b then X ^ w else 0) %ₘ modulus poly
  := by
  rw [feed, Function.iterate_one, toPoly_step poly _ hw, toPoly_xor, mul_add,
    X_mul_toPoly_ofBool b hw]

/-- Feeding the bits of a message divides the message by the polynomial, with what the register had
in it in front of the message. -/
theorem toPoly_foldl_feed (poly c : BitVec w) (bs : List Bool) (hw : 0 < w) :
  toPoly ((bs.map BitVec.ofBool).foldl (feed poly) c)
    = (X ^ bs.length * toPoly c + X ^ w * message bs) %ₘ modulus poly
  := by
  induction bs using List.reverseRecOn with
  | nil =>
      have hsmall := degree_toPoly_lt_modulus poly c
      simp [message, (modByMonic_eq_self_iff (monic_modulus poly)).mpr hsmall]
  | append_singleton bs b ih =>
      rw [List.map_append, List.foldl_append, List.map_singleton, List.foldl_cons, List.foldl_nil,
        toPoly_feed_ofBool poly _ b hw, ih,
        mul_modByMonic_add _ _ _ _ (monic_modulus poly), message_concat]
      congr 1
      rw [List.length_append, List.length_singleton, pow_succ']
      cases b with
      | false => simp only [Bool.false_eq_true, if_false]; ring
      | true => simp only [if_true]; ring

end ShiftRegister
