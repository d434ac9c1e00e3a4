import Mathlib.Data.BitVec
import Mathlib.Logic.Function.Iterate

/-!
# Shift registers with linear feedback

A register of `w` bits is shifted to the right, and a polynomial is added to it, bit by bit
modulo two, whenever a one falls out. A step is linear (`step_xor`), and it can be undone if the
top bit of the polynomial is set (`step_injective`). Symbols of `s` bits are fed into the low end
of the register. As long as they fit in it together, they determine its contents and are
determined by them (`foldl_feed_inj`), so a register tells any two sequences of symbols apart
that differ in a stretch of at most `w` bits only (`foldl_feed_ne`).
-/

namespace ShiftRegister

variable {w s : ℕ} (poly : BitVec w)

/-- One step of the register. -/
def step (c : BitVec w) : BitVec w :=
  if c.getLsbD 0 then poly ^^^ (c >>> 1) else c >>> 1

/-- Feed a symbol into the register. -/
def feed (c : BitVec w) (b : BitVec s) : BitVec w :=
  (step poly)^[s] (c ^^^ b.setWidth w)

/-- Symbols next to each other, the first one at the low end. -/
def pack : List (BitVec s) → BitVec w
  | [] => 0
  | b :: bs => b.setWidth w ^^^ (pack bs <<< s)

/-! ### Steps -/

theorem step_xor (a b : BitVec w) :
  step poly (a ^^^ b) = step poly a ^^^ step poly b
  := by
  simp only [step, BitVec.getLsbD_xor, BitVec.ushiftRight_xor_distrib]
  cases a.getLsbD 0 <;> cases b.getLsbD 0
  · simp
  · simp only [Bool.false_xor, ite_true, Bool.false_eq_true, ite_false]
    ac_rfl
  · simp only [Bool.true_xor, Bool.not_false, ite_true, Bool.false_eq_true, ite_false]
    ac_rfl
  · simp only [Bool.xor_self, Bool.false_eq_true, ite_false, ite_true]
    -- The polynomial is added twice.
    have htwice : poly ^^^ a >>> 1 ^^^ (poly ^^^ b >>> 1)
        = (poly ^^^ poly) ^^^ (a >>> 1 ^^^ b >>> 1) := by ac_rfl
    rw [htwice, BitVec.xor_self, BitVec.zero_xor]

/-- With the top bit of the polynomial set, only zero becomes zero. -/
theorem eq_zero_of_step {poly : BitVec w} (hpoly : poly.msb = true) {c : BitVec w}
    (h : step poly c = 0) :
  c = 0
  := by
  rw [step] at h
  split at h
  · have hmsb := congrArg BitVec.msb h
    rw [BitVec.msb_xor, hpoly, BitVec.msb_ushiftRight] at hmsb
    simp at hmsb
  · rename_i hlow
    apply BitVec.eq_of_getLsbD_eq
    intro i hi
    cases i with
    | zero => simpa using hlow
    | succ i =>
        have hbit := congrArg (fun x => x.getLsbD i) h
        simpa [BitVec.getLsbD_ushiftRight, Nat.add_comm] using hbit

theorem step_injective {poly : BitVec w} (hpoly : poly.msb = true) :
  Function.Injective (step poly)
  := by
  intro a b h
  apply BitVec.xor_eq_zero_iff.mp
  apply eq_zero_of_step hpoly
  rw [step_xor, h, BitVec.xor_self]
  rfl

theorem iterate_xor (n : ℕ) (a b : BitVec w) :
  (step poly)^[n] (a ^^^ b) = (step poly)^[n] a ^^^ (step poly)^[n] b
  := by
  induction n generalizing a b with
  | zero => rfl
  | succ n ih =>
      rw [Function.iterate_succ_apply, Function.iterate_succ_apply, Function.iterate_succ_apply,
        step_xor, ih]

/-- Zeros that fall out are not fed back. -/
theorem iterate_shiftLeft (x : BitVec w) (n k : ℕ) (hk : k ≤ n) :
  (step poly)^[k] (x <<< n) = (x <<< n) >>> k
  := by
  induction k with
  | zero => rfl
  | succ k ih =>
      have hlow : ((x <<< n) >>> k).getLsbD 0 = false := by
        simp [BitVec.getLsbD_ushiftRight, BitVec.getLsbD_shiftLeft, Nat.lt_of_succ_le hk]
      rw [Function.iterate_succ_apply', ih (Nat.le_of_succ_le hk), step, hlow,
        BitVec.shiftRight_add]
      rfl

/-- What is moved up without loss can be moved down again. -/
theorem shiftRight_shiftLeft {x : BitVec w} {n : ℕ} (hx : x.toNat * 2 ^ n < 2 ^ w) :
  (x <<< n) >>> n = x
  := by
  apply BitVec.eq_of_toNat_eq
  rw [BitVec.toNat_ushiftRight, BitVec.toNat_shiftLeft, Nat.shiftLeft_eq,
    Nat.mod_eq_of_lt hx, Nat.shiftRight_eq_div_pow, Nat.mul_div_cancel _ (Nat.two_pow_pos n)]

/-! ### Symbols -/

theorem toNat_pack (bs : List (BitVec s)) (h : s * bs.length ≤ w) :
  (pack bs : BitVec w).toNat < 2 ^ (s * bs.length)
  := by
  induction bs with
  | nil => simp [pack]
  | cons b bs ih =>
      have hlen : s * (b :: bs).length = s * bs.length + s := Nat.mul_succ s bs.length
      have hlow : (b.setWidth w).toNat < 2 ^ (s * (b :: bs).length) := by
        rw [BitVec.toNat_setWidth]
        apply Nat.lt_of_le_of_lt (Nat.mod_le _ _)
        apply Nat.lt_of_lt_of_le b.isLt
        apply Nat.pow_le_pow_right (by decide)
        omega
      have hhigh : ((pack bs : BitVec w) <<< s).toNat < 2 ^ (s * (b :: bs).length) := by
        rw [BitVec.toNat_shiftLeft, Nat.shiftLeft_eq, hlen, Nat.pow_add]
        apply Nat.lt_of_le_of_lt (Nat.mod_le _ _)
        apply Nat.mul_lt_mul_of_pos_right (ih (by omega)) (Nat.two_pow_pos s)
      rw [pack, BitVec.toNat_xor]
      apply Nat.xor_lt_two_pow hlow hhigh

/-- There is room below the top of the register for one more symbol. -/
theorem toNat_pack_mul (b : BitVec s) (bs : List (BitVec s)) (h : s * (b :: bs).length ≤ w) :
  (pack bs : BitVec w).toNat * 2 ^ s < 2 ^ w
  := by
  have hlen : s * (b :: bs).length = s * bs.length + s := Nat.mul_succ s bs.length
  have hlt := toNat_pack (w := w) bs (by omega)
  calc (pack bs : BitVec w).toNat * 2 ^ s
      < 2 ^ (s * bs.length) * 2 ^ s := Nat.mul_lt_mul_of_pos_right hlt (Nat.two_pow_pos s)
    _ = 2 ^ (s * (b :: bs).length) := by rw [hlen, Nat.pow_add]
    _ ≤ 2 ^ w := Nat.pow_le_pow_right (by decide) h

/-- Symbols that fit in the register can be fed into it at once. -/
theorem foldl_feed (c : BitVec w) (bs : List (BitVec s)) (h : s * bs.length ≤ w) :
  bs.foldl (feed poly) c = (step poly)^[s * bs.length] (c ^^^ pack bs)
  := by
  induction bs generalizing c with
  | nil => simp [pack]
  | cons b bs ih =>
      have hlen : s * (b :: bs).length = s * bs.length + s := Nat.mul_succ s bs.length
      -- The rest of the symbols enters the register above the first one.
      have hrest : (step poly)^[s] (pack bs <<< s) = pack bs := by
        rw [iterate_shiftLeft poly _ s s (Nat.le_refl s),
          shiftRight_shiftLeft (toNat_pack_mul b bs h)]
      rw [List.foldl_cons, ih _ (by omega), feed, hlen, Function.iterate_add_apply, pack,
        ← BitVec.xor_assoc, iterate_xor poly s _ (pack bs <<< s), hrest]

theorem pack_inj {bs bs' : List (BitVec s)} (hlen : bs.length = bs'.length)
    (h : s * bs.length ≤ w) (heq : (pack bs : BitVec w) = pack bs') :
  bs = bs'
  := by
  induction bs generalizing bs' with
  | nil => exact (List.length_eq_zero_iff.mp hlen.symm).symm
  | cons b bs ih =>
      cases bs' with
      | nil => simp at hlen
      | cons b' bs' =>
          rw [List.length_cons, List.length_cons, Nat.succ_inj] at hlen
          have hs : s ≤ w := by
            rw [List.length_cons, Nat.mul_succ] at h
            omega
          have hbit := fun i => congrArg (fun x => x.getLsbD i) heq
          simp only [pack, BitVec.getLsbD_xor, BitVec.getLsbD_setWidth,
            BitVec.getLsbD_shiftLeft] at hbit
          have hb : b = b' := by
            apply BitVec.eq_of_getLsbD_eq
            intro i hi
            have hiw : i < w := Nat.lt_of_lt_of_le hi hs
            simpa [hi, hiw] using hbit i
          subst hb
          rw [pack, pack, BitVec.xor_right_inj] at heq
          have hrest := congrArg (fun x : BitVec w => x >>> s) heq
          rw [shiftRight_shiftLeft (toNat_pack_mul b bs h),
            shiftRight_shiftLeft (toNat_pack_mul b bs' (by
              rw [List.length_cons, ← hlen]
              exact h))] at hrest
          rw [List.length_cons, Nat.mul_succ] at h
          rw [ih hlen (by omega) hrest]

/-! ### What a register tells apart -/

variable {poly}

/-- Symbols that fit in the register are determined by what they leave in it. -/
theorem foldl_feed_inj (hpoly : poly.msb = true) {c : BitVec w} {bs bs' : List (BitVec s)}
    (hlen : bs.length = bs'.length) (h : s * bs.length ≤ w)
    (heq : bs.foldl (feed poly) c = bs'.foldl (feed poly) c) :
  bs = bs'
  := by
  rw [foldl_feed poly c bs h, foldl_feed poly c bs' (hlen ▸ h), ← hlen] at heq
  have hxor := (step_injective hpoly).iterate _ heq
  rw [BitVec.xor_right_inj] at hxor
  apply pack_inj hlen h hxor

theorem feed_injective (hpoly : poly.msb = true) (b : BitVec s) :
  Function.Injective (fun c => feed poly c b)
  := by
  intro a c h
  have hxor := (step_injective hpoly).iterate _ h
  rwa [BitVec.xor_left_inj] at hxor

/-- Different contents stay different. -/
theorem foldl_feed_injective (hpoly : poly.msb = true) (bs : List (BitVec s)) :
  Function.Injective (fun c => bs.foldl (feed poly) c)
  := by
  induction bs with
  | nil => exact Function.injective_id
  | cons b bs ih => exact ih.comp (feed_injective hpoly b)

/-- A change in a stretch that fits in the register is seen at the end. -/
theorem foldl_feed_ne (hpoly : poly.msb = true) (c : BitVec w) (pre post : List (BitVec s))
    {bs bs' : List (BitVec s)} (hlen : bs.length = bs'.length) (h : s * bs.length ≤ w)
    (hne : bs ≠ bs') :
  (pre ++ (bs ++ post)).foldl (feed poly) c ≠ (pre ++ (bs' ++ post)).foldl (feed poly) c
  := by
  intro heq
  rw [List.foldl_append, List.foldl_append, List.foldl_append, List.foldl_append] at heq
  apply hne
  apply foldl_feed_inj hpoly hlen h (foldl_feed_injective hpoly post heq)

end ShiftRegister
