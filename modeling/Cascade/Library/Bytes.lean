import Mathlib.Data.List.Basic
import Mathlib.Data.Nat.Basic
import Mathlib.Tactic.Ring

/-!
# Bytes in memory

Numbers of a fixed width in little-endian order, and what a program can do to a region of
memory: copy a slice out of it, overwrite a part of it, and resize it, new room being filled
with zeros.
-/

namespace Bytes

/-! ### Little-endian numbers -/

/-- The low `w` bytes of `n`, least significant first. -/
def littleEndian : ℕ → ℕ → List UInt8
  | 0, _ => []
  | w + 1, n => UInt8.ofNat n :: littleEndian w (n / 256)

/-- The number spelled by a list of bytes, least significant first. -/
def ofLittleEndian : List UInt8 → ℕ
  | [] => 0
  | b :: bs => b.toNat + 256 * ofLittleEndian bs

@[simp]
theorem length_littleEndian (w n : ℕ) :
  (littleEndian w n).length = w
  := by
  induction w generalizing n with
  | zero => rfl
  | succ w ih => simp [littleEndian, ih]

/-- Reading back the low `w` bytes of `n` gives `n` modulo `256 ^ w`. -/
theorem ofLittleEndian_littleEndian (w n : ℕ) :
  ofLittleEndian (littleEndian w n) = n % 256 ^ w
  := by
  induction w generalizing n with
  | zero => simp [littleEndian, ofLittleEndian, Nat.mod_one]
  | succ w ih =>
      rw [littleEndian, ofLittleEndian, ih, UInt8.toNat_ofNat', pow_succ' 256 w, Nat.mod_mul]

/-- Spelling the number that a list of bytes spells gives the list back. -/
theorem littleEndian_ofLittleEndian {bs : List UInt8} {w : ℕ} (h : bs.length = w) :
  littleEndian w (ofLittleEndian bs) = bs
  := by
  subst h
  induction bs with
  | nil => rfl
  | cons b bs ih =>
      have hb : b.toNat < 256 := b.toNat_lt
      have hdiv : (b.toNat + 256 * ofLittleEndian bs) / 256 = ofLittleEndian bs := by omega
      have hhead : UInt8.ofNat (b.toNat + 256 * ofLittleEndian bs) = b := by
        apply UInt8.toNat_inj.mp
        rw [UInt8.toNat_ofNat']
        omega
      rw [List.length_cons, ofLittleEndian, littleEndian, hdiv, ih, hhead]

/-- Only the low bytes of a number are spelled. -/
theorem littleEndian_mod (w n : ℕ) :
  littleEndian w (n % 256 ^ w) = littleEndian w n
  := by
  rw [← ofLittleEndian_littleEndian]
  apply littleEndian_ofLittleEndian (length_littleEndian w n)

theorem ofLittleEndian_lt (bs : List UInt8) :
  ofLittleEndian bs < 256 ^ bs.length
  := by
  induction bs with
  | nil => simp [ofLittleEndian]
  | cons b bs ih =>
      have hb : b.toNat < 256 := b.toNat_lt
      rw [ofLittleEndian, List.length_cons, pow_succ]
      omega

@[simp]
theorem ofLittleEndian_replicate_zero (k : ℕ) :
  ofLittleEndian (List.replicate k 0) = 0
  := by
  induction k with
  | zero => rfl
  | succ k ih => simp [List.replicate_succ, ofLittleEndian, ih]

/-! ### Slices -/

/-- The `len` elements of `data` from position `pos` on. -/
def slice {α : Type} (data : List α) (pos len : ℕ) : List α :=
  (data.drop pos).take len

section Slices

variable {α : Type}

theorem length_slice {data : List α} {pos len : ℕ} (h : pos + len ≤ data.length) :
  (slice data pos len).length = len
  := by
  rw [slice, List.length_take, List.length_drop]
  omega

/-- A slice that ends within the first part is a slice of that part. -/
theorem slice_append_left {a : List α} {pos len : ℕ} (b : List α) (h : pos + len ≤ a.length) :
  slice (a ++ b) pos len = slice a pos len
  := by
  rw [slice, slice, List.drop_append_of_le_length (by omega), List.take_append_of_le_length]
  rw [List.length_drop]
  omega

/-- The slice that starts behind the first part and has the length of the second is the second
part. -/
theorem slice_mid {a b c : List α} {pos len : ℕ} (ha : a.length = pos) (hb : b.length = len) :
  slice (a ++ (b ++ c)) pos len = b
  := by
  subst ha hb
  rw [slice, List.drop_left, List.take_left]

/-- Consecutive slices join. -/
theorem slice_append_slice (data : List α) (pos m n : ℕ) :
  slice data pos m ++ slice data (pos + m) n = slice data pos (m + n)
  := by
  rw [slice, slice, slice, List.take_add, List.drop_drop]

theorem getElem?_slice {data : List α} {pos len i : ℕ} (h : i < len) :
  (slice data pos len)[i]? = data[pos + i]?
  := by
  rw [slice, List.getElem?_take_of_lt h, List.getElem?_drop]

/-- A slice up to the end. -/
theorem slice_eq_drop {data : List α} {pos len : ℕ} (h : data.length ≤ pos + len) :
  slice data pos len = data.drop pos
  := by
  rw [slice, List.take_of_length_le]
  rw [List.length_drop]
  omega

end Slices

/-! ### Overwriting and resizing -/

/-- `data` with `src` copied over it from position `pos` on. -/
def overwrite {α : Type} (data : List α) (pos : ℕ) (src : List α) : List α :=
  data.take pos ++ (src ++ data.drop (pos + src.length))

/-- `data` cut to `n` bytes, or filled with zeros up to `n` bytes. -/
def resize (data : List UInt8) (n : ℕ) : List UInt8 :=
  data.take n ++ List.replicate (n - data.length) 0

section Overwriting

variable {α : Type}

theorem length_overwrite {data src : List α} {pos : ℕ}
    (h : pos + src.length ≤ data.length) :
  (overwrite data pos src).length = data.length
  := by
  rw [overwrite, List.length_append, List.length_append, List.length_take, List.length_drop]
  omega

/-- Overwriting right behind a first part keeps that part and replaces the head of the
rest. -/
theorem overwrite_append (a b src : List α) :
  overwrite (a ++ b) a.length src = a ++ (src ++ b.drop src.length)
  := by
  rw [overwrite, List.take_left, List.drop_length_add_append]

/-- Overwriting within the middle one of three parts. -/
theorem overwrite_mid (a : List α) {b src : List α} {i : ℕ} (h : i + src.length ≤ b.length)
    (c : List α) :
  overwrite (a ++ (b ++ c)) (a.length + i) src = a ++ (overwrite b i src ++ c)
  := by
  rw [overwrite, overwrite, List.take_length_add_append, Nat.add_assoc,
    List.drop_length_add_append, List.take_append_of_le_length (by omega),
    List.drop_append_of_le_length h]
  simp only [List.append_assoc]

end Overwriting

/-! ### Writes that stop on the way -/

/-- `src` written over zeros, up to its first `j` bytes. -/
def torn (src : List UInt8) (j : ℕ) : List UInt8 :=
  src.take j ++ List.replicate (src.length - j) 0

@[simp]
theorem length_torn (src : List UInt8) (j : ℕ) :
  (torn src j).length = src.length
  := by
  rw [torn, List.length_append, List.length_take, List.length_replicate]
  omega

/-- A write that stops in the first of two parts leaves zeros in the second. -/
theorem torn_append (a b : List UInt8) (j : ℕ) :
  torn (a ++ b) j = torn a j ++ torn b (j - a.length)
  := by
  by_cases h : j ≤ a.length
  · have hlen : (a ++ b).length - j = (a.length - j) + b.length := by
      rw [List.length_append]
      omega
    rw [torn, torn, torn, List.take_append_of_le_length h, hlen, Nat.sub_eq_zero_of_le h,
      List.take_zero, List.nil_append, Nat.sub_zero, List.append_assoc,
      List.replicate_append_replicate]
  · have hlen : (a ++ b).length - j = b.length - (j - a.length) := by
      rw [List.length_append]
      omega
    rw [torn, torn, torn, List.take_append, List.take_of_length_le (by omega), hlen,
      Nat.sub_eq_zero_of_le (by omega : a.length ≤ j), List.replicate_zero, List.append_nil,
      List.append_assoc]

/-- Of a number of which only the first `j` bytes were written, the low `j` bytes are left. -/
theorem ofLittleEndian_torn (w j n : ℕ) :
  ofLittleEndian (torn (littleEndian w n) j) = n % 256 ^ (min j w)
  := by
  induction w generalizing j n with
  | zero => simp [littleEndian, torn, ofLittleEndian, Nat.mod_one]
  | succ w ih =>
      cases j with
      | zero => simp [torn, Nat.mod_one]
      | succ j =>
          have hmin : min (j + 1) (w + 1) = min j w + 1 := by omega
          have hcons : torn (littleEndian (w + 1) n) (j + 1)
              = UInt8.ofNat n :: torn (littleEndian w (n / 256)) j := by
            simp [littleEndian, torn]
          rw [hcons, ofLittleEndian, ih, hmin, UInt8.toNat_ofNat', pow_succ' 256 (min j w),
            Nat.mod_mul]

/-- Writing a part of `src` over zeros behind a first part. -/
theorem overwrite_torn {a src : List UInt8} {z j : ℕ} (h : src.length ≤ z) :
  overwrite (a ++ List.replicate z 0) a.length (src.take j)
    = a ++ (torn src j ++ List.replicate (z - src.length) 0)
  := by
  rw [overwrite_append, List.drop_replicate, List.length_take, torn, List.append_assoc,
    List.replicate_append_replicate]
  congr 3
  omega

/-! ### Flipped bits -/

/-- `data` with bit `j` of the byte at `pos` flipped. -/
def flipBit (data : List UInt8) (pos j : ℕ) : List UInt8 :=
  data.modify pos (fun b => b ^^^ UInt8.ofNat (2 ^ j))

@[simp]
theorem length_flipBit (data : List UInt8) (pos j : ℕ) :
  (flipBit data pos j).length = data.length
  := by
  rw [flipBit, List.length_modify]

theorem flipBit_append_left {a : List UInt8} {pos : ℕ} (h : pos < a.length) (b : List UInt8)
    (j : ℕ) :
  flipBit (a ++ b) pos j = flipBit a pos j ++ b
  := by
  induction a generalizing pos with
  | nil => simp at h
  | cons x a ih =>
      cases pos with
      | zero => rfl
      | succ pos =>
          have hpos : pos < a.length := Nat.lt_of_succ_lt_succ h
          exact congrArg (x :: ·) (ih hpos)

theorem flipBit_append_right (a b : List UInt8) (pos j : ℕ) :
  flipBit (a ++ b) (a.length + pos) j = a ++ flipBit b pos j
  := by
  induction a with
  | nil => rw [List.length_nil, Nat.zero_add, List.nil_append, List.nil_append]
  | cons x a ih =>
      rw [List.length_cons, Nat.add_right_comm]
      exact congrArg (x :: ·) ih

theorem flipBit_mid (a : List UInt8) {b : List UInt8} {pos : ℕ} (h : pos < b.length)
    (c : List UInt8) (j : ℕ) :
  flipBit (a ++ (b ++ c)) (a.length + pos) j = a ++ (flipBit b pos j ++ c)
  := by
  rw [flipBit_append_right, flipBit_append_left h]

/-- The exclusive or of a number with low byte `b`, byte by byte. -/
theorem xor_byte_add {b : ℕ} (hb : b < 2 ^ 8) (n x : ℕ) :
  (b + 256 * n) ^^^ x = (b ^^^ x % 2 ^ 8) + 256 * (n ^^^ x / 2 ^ 8)
  := by
  have hdiv : ((b + 256 * n) ^^^ x) / 2 ^ 8 = n ^^^ x / 2 ^ 8 := by
    rw [Nat.xor_div_two_pow]
    congr 1
    omega
  have hmod : ((b + 256 * n) ^^^ x) % 2 ^ 8 = b ^^^ x % 2 ^ 8 := by
    rw [Nat.xor_mod_two_pow]
    congr 1
    omega
  rw [← hdiv, ← hmod]
  omega

/-- The number spelled by bytes of which one bit was flipped. -/
theorem ofLittleEndian_flipBit {bs : List UInt8} {pos j : ℕ} (hpos : pos < bs.length)
    (hj : j < 8) :
  ofLittleEndian (flipBit bs pos j) = ofLittleEndian bs ^^^ 2 ^ (8 * pos + j)
  := by
  induction bs generalizing pos with
  | nil => simp at hpos
  | cons b bs ih =>
      have hbit : 2 ^ j < 2 ^ 8 := Nat.pow_lt_pow_right (by decide) hj
      cases pos with
      | zero =>
          have hflip : flipBit (b :: bs) 0 j = (b ^^^ UInt8.ofNat (2 ^ j)) :: bs := rfl
          have hlow : (UInt8.ofNat (2 ^ j)).toNat = 2 ^ j := by
            rw [UInt8.toNat_ofNat']
            apply Nat.mod_eq_of_lt hbit
          rw [hflip, ofLittleEndian, ofLittleEndian, xor_byte_add b.toNat_lt, UInt8.toNat_xor, hlow,
            Nat.mul_zero, Nat.zero_add, Nat.mod_eq_of_lt hbit, Nat.div_eq_of_lt hbit, Nat.xor_zero]
      | succ pos =>
          have hflip : flipBit (b :: bs) (pos + 1) j = b :: flipBit bs pos j := rfl
          have hpow : 2 ^ (8 * (pos + 1) + j) = 2 ^ (8 * pos + j) * 2 ^ 8 := by
            rw [← Nat.pow_add]
            congr 1
            omega
          rw [hflip, ofLittleEndian, ofLittleEndian, xor_byte_add b.toNat_lt,
            ih (Nat.lt_of_succ_lt_succ hpos), hpow, Nat.mul_mod_left,
            Nat.mul_div_cancel _ (by decide), Nat.xor_zero]

@[simp]
theorem length_resize (data : List UInt8) (n : ℕ) :
  (resize data n).length = n
  := by
  rw [resize, List.length_append, List.length_take, List.length_replicate]
  omega

/-- Resizing to the length of a first part keeps exactly that part. -/
theorem resize_append (a b : List UInt8) :
  resize (a ++ b) a.length = a
  := by
  rw [resize, List.take_left, List.length_append, Nat.sub_add_eq, Nat.sub_self, Nat.zero_sub,
    List.replicate_zero, List.append_nil]

/-- Resizing twice to the same length. -/
theorem resize_self (data : List UInt8) (n : ℕ) :
  resize (resize data n) n = resize data n
  := by
  have happ := resize_append (resize data n) []
  rwa [List.append_nil, length_resize] at happ

@[simp]
theorem resize_nil (n : ℕ) :
  resize [] n = List.replicate n 0
  := by
  simp [resize]

end Bytes
