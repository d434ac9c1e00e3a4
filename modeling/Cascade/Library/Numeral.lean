import Mathlib.Data.Char
import Mathlib.Data.List.Lex
import Mathlib.Data.Nat.Digits.Defs
import Mathlib.Order.Monotone.Defs

/-!
# Numerals of a fixed length

Numerals of one length are in lexicographic order exactly if their values are in order
(`lt_iff_value_lt`), and a text that follows all of them changes nothing (`append_lt_append_iff`).
-/

namespace Numeral

variable {α : Type}

/-- The value of a numeral, with the leading digit first. -/
def value (b : ℕ) (digit : α → ℕ) : List α → ℕ
  | [] => 0
  | x :: l => b ^ l.length * digit x + value b digit l

section

variable {b : ℕ} {digit : α → ℕ} {S : Set α}

theorem value_cons_lt_mul {x : α} {l : List α} (h : value b digit l < b ^ l.length) :
  value b digit (x :: l) < b ^ l.length * (digit x + 1)
  := by
  rw [value, Nat.mul_succ]
  apply Nat.add_lt_add_left h

theorem value_lt (hbase : ∀ x ∈ S, digit x < b) {l : List α} (hl : ∀ x ∈ l, x ∈ S) :
  value b digit l < b ^ l.length
  := by
  induction l with
  | nil => simp [value]
  | cons x l ih =>
      have hx := hbase x (hl x List.mem_cons_self)
      have hrest := ih (fun y hy => hl y (List.mem_cons_of_mem x hy))
      calc value b digit (x :: l)
          < b ^ l.length * (digit x + 1) := value_cons_lt_mul hrest
        _ ≤ b ^ l.length * b := Nat.mul_le_mul_left _ hx
        _ = b ^ (x :: l).length := (Nat.pow_succ b l.length).symm

/-- A smaller leading digit makes a smaller numeral. -/
theorem value_cons_lt (hbase : ∀ x ∈ S, digit x < b) {x y : α} {l l' : List α}
    (hlen : l.length = l'.length) (hl : ∀ x ∈ l, x ∈ S) (hlt : digit x < digit y) :
  value b digit (x :: l) < value b digit (y :: l')
  := by
  calc value b digit (x :: l)
      < b ^ l.length * (digit x + 1) := value_cons_lt_mul (value_lt hbase hl)
    _ ≤ b ^ l.length * digit y := Nat.mul_le_mul_left _ hlt
    _ = b ^ l'.length * digit y := by rw [hlen]
    _ ≤ value b digit (y :: l') := Nat.le_add_right _ _

variable [LinearOrder α]

theorem lt_iff_value_lt (hbase : ∀ x ∈ S, digit x < b) (hmono : StrictMonoOn digit S)
    {l l' : List α} (hlen : l.length = l'.length) (hl : ∀ x ∈ l, x ∈ S) (hl' : ∀ x ∈ l', x ∈ S) :
  l < l' ↔ value b digit l < value b digit l'
  := by
  induction l generalizing l' with
  | nil =>
      obtain rfl : l' = [] := List.length_eq_zero_iff.mp hlen.symm
      simp
  | cons x l ih =>
      cases l' with
      | nil => exact nomatch hlen
      | cons y l' =>
          have hlen' : l.length = l'.length := Nat.succ.inj hlen
          have hx := hl x List.mem_cons_self
          have hy := hl' y List.mem_cons_self
          have hrest : ∀ z ∈ l, z ∈ S := fun z hz => hl z (List.mem_cons_of_mem x hz)
          have hrest' : ∀ z ∈ l', z ∈ S := fun z hz => hl' z (List.mem_cons_of_mem y hz)
          rw [List.cons_lt_cons_iff]
          -- The leading digits decide, unless they are equal.
          rcases lt_trichotomy x y with hlt | rfl | hgt
          · have hvalue := value_cons_lt hbase hlen' hrest (hmono hx hy hlt)
            exact ⟨fun _ => hvalue, fun _ => Or.inl hlt⟩
          · simp only [lt_irrefl, true_and, false_or, ih hlen' hrest hrest', value, hlen',
              Nat.add_lt_add_iff_left]
          · have hvalue := value_cons_lt hbase hlen'.symm hrest' (hmono hy hx hgt)
            constructor
            · rintro (hlt | ⟨rfl, -⟩)
              · exact absurd hlt hgt.asymm
              · exact absurd hgt (lt_irrefl x)
            · exact fun h => absurd h hvalue.asymm

end

theorem append_lt_append_iff [LinearOrder α] {l l' : List α} (hlen : l.length = l'.length)
    (s : List α) :
  l ++ s < l' ++ s ↔ l < l'
  := by
  induction l generalizing l' with
  | nil =>
      obtain rfl : l' = [] := List.length_eq_zero_iff.mp hlen.symm
      simp
  | cons x l ih =>
      cases l' with
      | nil => exact nomatch hlen
      | cons y l' =>
          rw [List.cons_append, List.cons_append, List.cons_lt_cons_iff, List.cons_lt_cons_iff,
            ih (Nat.succ.inj hlen)]

/-! ### Decimal numerals -/

/-- What a decimal digit stands for. -/
def decimal (c : Char) : ℕ := c.toNat - '0'.toNat

theorem ofDigitChars_eq_value (l : List Char) :
  Nat.ofDigitChars 10 l 0 = value 10 decimal l
  := by
  induction l with
  | nil => rfl
  | cons c l ih =>
      rw [Nat.ofDigitChars_cons, Nat.ofDigitChars_eq_ofDigitChars_zero, ih, Nat.mul_zero,
        Nat.zero_add]
      rfl

theorem isDigit_bounds {c : Char} (hc : c.isDigit = true) :
  '0'.toNat ≤ c.toNat ∧ c.toNat ≤ '9'.toNat
  := by
  rw [Char.isDigit, Bool.and_eq_true, decide_eq_true_iff, decide_eq_true_iff] at hc
  exact hc

theorem decimal_lt {c : Char} (hc : c.isDigit = true) :
  decimal c < 10
  := by
  have hbounds := isDigit_bounds hc
  have hnine : '9'.toNat = '0'.toNat + 9 := rfl
  rw [decimal]
  omega

theorem decimal_strictMonoOn :
  StrictMonoOn decimal {c | c.isDigit = true}
  := by
  intro c hc d hd hlt
  have hbound := (isDigit_bounds hc).1
  have hlt' : c.toNat < d.toNat := hlt
  rw [decimal, decimal]
  omega

/-- Decimal numerals of one length are in lexicographic order exactly if their values are. -/
theorem decimal_lt_iff {l l' : List Char} (hlen : l.length = l'.length)
    (hl : ∀ c ∈ l, c.isDigit = true) (hl' : ∀ c ∈ l', c.isDigit = true) :
  l < l' ↔ Nat.ofDigitChars 10 l 0 < Nat.ofDigitChars 10 l' 0
  := by
  rw [ofDigitChars_eq_value, ofDigitChars_eq_value]
  apply lt_iff_value_lt _ decimal_strictMonoOn hlen hl hl'
  exact fun c hc => decimal_lt hc

end Numeral
