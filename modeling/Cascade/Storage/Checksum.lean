import Cascade.Library.Remainder
import Cascade.Storage.Crc32

/-!
# The checksum

What the table of `crc32` computes. The running checksum is the contents of a shift register to
which the bytes of the data are fed (`toBitVec_crc32Byte`), and the table makes the eight steps of
a byte at once. So the checksum is the one that is computed without a table, a bit at a time, and
this is the remainder of a division of polynomials (`crc32_eq_bitwise`).
-/

open Polynomial

namespace Storage

/-! ### The checksum as a shift register -/

/-- The polynomial of the checksum. -/
def crc32Poly : BitVec 32 := 0xEDB88320

theorem and_one_eq_one_iff (c : UInt32) :
  c &&& 1 = 1 ↔ c.toBitVec.getLsbD 0 = true
  := by
  rw [← UInt32.toBitVec_inj, UInt32.toBitVec_and]
  have hone := @BitVec.and_one_eq_setWidth_ofBool_getLsbD 32 c.toBitVec
  rw [show (1 : UInt32).toBitVec = 1#32 from rfl, hone]
  cases c.toBitVec.getLsbD 0 <;> decide

theorem toBitVec_crc32Bit (c : UInt32) :
  (crc32Bit c).toBitVec = ShiftRegister.step crc32Poly c.toBitVec
  := by
  rw [crc32Bit, ShiftRegister.step]
  by_cases h : c &&& 1 = 1
  · rw [if_pos h, if_pos ((and_one_eq_one_iff c).mp h)]
    rfl
  · rw [if_neg h, if_neg (fun h' => h ((and_one_eq_one_iff c).mpr h'))]
    rfl

theorem toBitVec_iterate_crc32Bit (n : ℕ) (c : UInt32) :
  (crc32Bit^[n] c).toBitVec = (ShiftRegister.step crc32Poly)^[n] c.toBitVec
  := by
  induction n generalizing c with
  | zero => rfl
  | succ n ih =>
      rw [Function.iterate_succ_apply, Function.iterate_succ_apply, ih, toBitVec_crc32Bit]

/-- An entry of the table is what eight steps make of its index. -/
theorem getD_makeCrc32Table (x : UInt32) :
  (makeCrc32Table.getD (x &&& (0xFF : UInt32)).toNat 0).toBitVec
    = (ShiftRegister.step crc32Poly)^[8] (x.toBitVec &&& 0xFF#32)
  := by
  have hlt : (x &&& (0xFF : UInt32)).toNat < 256 := by
    rw [UInt32.toNat_and]
    apply Nat.lt_of_le_of_lt Nat.and_le_right
    decide
  rw [makeCrc32Table, List.getD_eq_getElem?_getD, List.getElem?_map, List.getElem?_range hlt,
    Option.map_some, Option.getD_some, UInt32.ofNat_toNat, toBitVec_iterate_crc32Bit]
  rfl

/-- The low byte of a register, and the rest of it. -/
theorem xor_low_high (x : BitVec 32) :
  (x &&& 0xFF#32) ^^^ ((x >>> 8) <<< 8) = x
  := by
  apply BitVec.eq_of_getLsbD_eq
  intro i hi
  have hmask : (0xFF#32).getLsbD i = decide (i < 8) := by
    rw [show 0xFF#32 = BitVec.ofNat 32 (2 ^ 8 - 1) from rfl, BitVec.getLsbD_ofNat,
      Nat.testBit_two_pow_sub_one]
    simp [hi]
  rw [BitVec.getLsbD_xor, BitVec.getLsbD_and, BitVec.getLsbD_shiftLeft, BitVec.getLsbD_ushiftRight,
    hmask]
  by_cases h : i < 8
  · simp [h]
  · simp [h, hi, Nat.add_sub_cancel' (Nat.le_of_not_lt h)]

/-- The table makes the eight steps of one byte at once. -/
theorem toBitVec_crc32Byte (c : UInt32) (b : UInt8) :
  (crc32Byte c b).toBitVec = ShiftRegister.feed crc32Poly c.toBitVec b.toBitVec
  := by
  set x := c ^^^ b.toUInt32 with hx
  have hfeed : c.toBitVec ^^^ b.toBitVec.setWidth 32 = x.toBitVec := rfl
  have hhigh : x.toBitVec >>> 8 = c.toBitVec >>> 8 := by
    have hbyte : b.toBitVec.setWidth 32 >>> 8 = 0#32 := by
      apply BitVec.eq_of_toNat_eq
      have := b.toNat_lt
      simp [Nat.shiftRight_eq_div_pow]
      omega
    rw [← hfeed, BitVec.ushiftRight_xor_distrib, hbyte, BitVec.xor_zero]
  have hmoved : (ShiftRegister.step crc32Poly)^[8] ((x.toBitVec >>> 8) <<< 8)
      = x.toBitVec >>> 8 := by
    rw [ShiftRegister.iterate_shiftLeft _ _ 8 8 (Nat.le_refl 8)]
    apply ShiftRegister.shiftRight_shiftLeft
    have := x.toBitVec.isLt
    rw [BitVec.toNat_ushiftRight, Nat.shiftRight_eq_div_pow]
    omega
  rw [ShiftRegister.feed, hfeed, ← xor_low_high x.toBitVec, ShiftRegister.iterate_xor, hmoved,
    hhigh, ← getD_makeCrc32Table]
  rfl

theorem toBitVec_foldl_crc32Byte (c : UInt32) (data : List UInt8) :
  (data.foldl crc32Byte c).toBitVec
    = (data.map UInt8.toBitVec).foldl (ShiftRegister.feed crc32Poly) c.toBitVec
  := by
  rw [List.foldl_map]
  symm
  apply List.foldl_hom
  exact fun c b => (toBitVec_crc32Byte c b).symm

/-! ### The checksum bit by bit -/

/-- The bits of a byte string in the order in which they are divided: of each byte, the lowest one
is the first. -/
def dataBits (data : List UInt8) : List Bool :=
  data.flatMap (fun b => (List.range 8).map b.toNat.testBit)

/-- Divide one bit. -/
def crc32BitwiseStep (c : UInt32) (bit : Bool) : UInt32 :=
  if decide (c &&& 1 = 1) != bit then (c >>> 1) ^^^ (0xEDB88320 : UInt32) else c >>> 1

/-- The reflected checksum, computed without a table. -/
def crc32Bitwise (data : List UInt8) : UInt32 :=
  (dataBits data).foldl crc32BitwiseStep (0xFFFFFFFF : UInt32) ^^^ (0xFFFFFFFF : UInt32)

theorem flatMap_bits (data : List UInt8) :
  (data.map UInt8.toBitVec).flatMap ShiftRegister.bits = dataBits data
  := by
  rw [List.flatMap_map]
  rfl

theorem length_dataBits (data : List UInt8) :
  (dataBits data).length = 8 * data.length
  := by
  simp [dataBits, Nat.mul_comm]

/-- A step is that of the register to which one bit is fed. -/
theorem toBitVec_crc32BitwiseStep (c : UInt32) (bit : Bool) :
  (crc32BitwiseStep c bit).toBitVec
    = ShiftRegister.feed crc32Poly c.toBitVec (BitVec.ofBool bit)
  := by
  have hout : (BitVec.ofBool bit).setWidth 32 >>> 1 = 0#32 := by cases bit <;> rfl
  have hlow : (c.toBitVec ^^^ (BitVec.ofBool bit).setWidth 32).getLsbD 0
      = (decide (c &&& 1 = 1) != bit) := by
    have hdecide : decide (c &&& 1 = 1) = c.toBitVec.getLsbD 0 := by
      rw [Bool.eq_iff_iff, decide_eq_true_iff]
      exact and_one_eq_one_iff c
    rw [hdecide, BitVec.getLsbD_xor]
    cases bit <;> rfl
  rw [ShiftRegister.feed, Function.iterate_one, ShiftRegister.step, hlow,
    BitVec.ushiftRight_xor_distrib, hout, BitVec.xor_zero, crc32BitwiseStep]
  cases decide (c &&& 1 = 1) != bit with
  | false => rfl
  | true => exact BitVec.xor_comm _ _

theorem toBitVec_foldl_crc32BitwiseStep (c : UInt32) (bits : List Bool) :
  (bits.foldl crc32BitwiseStep c).toBitVec
    = (bits.map BitVec.ofBool).foldl (ShiftRegister.feed crc32Poly) c.toBitVec
  := by
  rw [List.foldl_map]
  symm
  apply List.foldl_hom
  exact fun c bit => (toBitVec_crc32BitwiseStep c bit).symm

/-- The bytes of the data leave the same as their bits. -/
theorem foldl_crc32Byte (c : UInt32) (data : List UInt8) :
  data.foldl crc32Byte c = (dataBits data).foldl crc32BitwiseStep c
  := by
  rw [← UInt32.toBitVec_inj, toBitVec_foldl_crc32Byte, toBitVec_foldl_crc32BitwiseStep,
    ← flatMap_bits]
  apply ShiftRegister.foldl_feed_eq_foldl_bits
  decide

/-! ### The checksum as a remainder -/

/-- The polynomial of the standard. -/
noncomputable def crc32Divisor : (ZMod 2)[X] :=
  X ^ 32 + X ^ 26 + X ^ 23 + X ^ 22 + X ^ 16 + X ^ 12 + X ^ 11 + X ^ 10 + X ^ 8 + X ^ 7 + X ^ 5
    + X ^ 4 + X ^ 2 + X + 1

/-- The polynomial all of whose coefficients are one. -/
noncomputable def crc32Ones : (ZMod 2)[X] := ∑ i ∈ Finset.range 32, X ^ i

/-- The feedback is the divisor without its leading term, with the bits in reverse. -/
theorem modulus_crc32Poly :
  ShiftRegister.modulus crc32Poly = crc32Divisor
  := by
  have hbits : ∀ i ∈ Finset.range 32,
      (if crc32Poly.getMsbD i then X ^ i else (0 : (ZMod 2)[X]))
        = if i ∈ [0, 1, 2, 4, 5, 7, 8, 10, 11, 12, 16, 22, 23, 26] then X ^ i else 0 := by
    have hmsb : ∀ i ∈ Finset.range 32, crc32Poly.getMsbD i
        = decide (i ∈ [0, 1, 2, 4, 5, 7, 8, 10, 11, 12, 16, 22, 23, 26]) := by decide
    intro i hi
    simp only [hmsb i hi, decide_eq_true_eq]
  rw [ShiftRegister.modulus, ShiftRegister.toPoly, Finset.sum_congr rfl hbits, crc32Divisor]
  simp [Finset.sum_range_succ]
  ring

theorem toPoly_ones :
  ShiftRegister.toPoly (0xFFFFFFFF#32) = crc32Ones
  := by
  have hmsb : ∀ i ∈ Finset.range 32, (0xFFFFFFFF#32).getMsbD i = true := by decide
  apply Finset.sum_congr rfl
  intro i hi
  rw [hmsb i hi, if_pos rfl]

/-- The table-driven checksum is the one computed a bit at a time. It is the remainder of the data,
shifted by the width of the checksum and with the initial value added in front, and the final
value is added to that. -/
theorem crc32_eq_bitwise (data : List UInt8) :
  crc32 data = crc32Bitwise data
    ∧ ShiftRegister.toPoly (crc32 data).toBitVec
      = (X ^ (8 * data.length) * crc32Ones + X ^ 32 * ShiftRegister.message (dataBits data))
          %ₘ crc32Divisor + crc32Ones
  := by
  have hbitwise : crc32 data = crc32Bitwise data := by
    rw [crc32, crc32Bitwise, foldl_crc32Byte]
  refine ⟨hbitwise, ?_⟩
  rw [hbitwise, crc32Bitwise, UInt32.toBitVec_xor, ShiftRegister.toPoly_xor,
    toBitVec_foldl_crc32BitwiseStep, ShiftRegister.toPoly_foldl_feed _ _ _ (by decide),
    modulus_crc32Poly, length_dataBits]
  have hones : ShiftRegister.toPoly (0xFFFFFFFF : UInt32).toBitVec = crc32Ones := toPoly_ones
  rw [hones]

/-- The check value of the standard: the checksum of the digits `1` to `9`. -/
example : crc32 [0x31, 0x32, 0x33, 0x34, 0x35, 0x36, 0x37, 0x38, 0x39] = 0xCBF43926 := by
  decide +kernel

end Storage
