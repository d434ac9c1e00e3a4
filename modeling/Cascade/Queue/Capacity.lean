import Mathlib

/-!
# The capacity of a queue

Both queues round the capacity they are asked for up to a power of two, so that the slot of a
position is given by its lowest bits. This is the model of `round_up_pow2`, which
`queue/spsc_queue.hpp` and `queue/mpmc_queue.hpp` have in the same words.
-/

namespace Queue

/-- The loop of `round_up_pow2`, for a number of rounds. -/
def roundUpPow2From (v : UInt64) : ℕ → UInt64 → Option UInt64
  | 0, _ => none
  | rounds + 1, p =>
      if p < v then roundUpPow2From v rounds (p <<< 1) else some (if p = 0 then 1 else p)

/-- The least power of two that is not below `v`. There is none when the loop does not end, for
after 64 rounds the power is zero and remains so. -/
def roundUpPow2 (v : UInt64) : Option UInt64 :=
  roundUpPow2From v 65 1

/-- A power of two. -/
def IsPow2 (c : UInt64) : Prop :=
  ∃ k < 64, c.toNat = 2 ^ k

variable {c : UInt64}

theorem IsPow2.pos (h : IsPow2 c) :
  0 < c.toNat
  := by
  obtain ⟨k, -, hk⟩ := h
  rw [hk]
  apply Nat.two_pow_pos

theorem toNat_shiftLeft_one {p : UInt64} (h : p.toNat < 2 ^ 63) :
  (p <<< 1).toNat = 2 * p.toNat
  := by
  rw [UInt64.toNat_shiftLeft]
  change p.toNat <<< 1 % 2 ^ 64 = 2 * p.toNat
  rw [Nat.shiftLeft_eq]
  omega

/-- Going on from a power of two with half of it below `v`, the loop ends with the least power of
two that is not below `v`. -/
theorem roundUpPow2From_spec {v p : UInt64} {k rounds : ℕ} (hp : p.toNat = 2 ^ k) (hk : k < 64)
    (hv : v.toNat ≤ 2 ^ 63) (hrounds : 64 ≤ k + rounds) (hbelow : p.toNat < 2 * v.toNat ∨ k = 0) :
  ∃ c, roundUpPow2From v rounds p = some c ∧ IsPow2 c ∧ v ≤ c
    ∧ (c.toNat < 2 * v.toNat ∨ c = 1)
  := by
  induction rounds generalizing p k with
  | zero => omega
  | succ rounds ih =>
      rw [roundUpPow2From]
      by_cases hlt : p < v
      · rw [if_pos hlt]
        rw [UInt64.lt_iff_toNat_lt] at hlt
        have hdouble := toNat_shiftLeft_one (lt_of_lt_of_le hlt hv)
        have hk' : k + 1 < 64 := by
          have hpow : 2 ^ k < 2 ^ 63 := by omega
          have := (Nat.pow_lt_pow_iff_right (by decide : 1 < 2)).mp hpow
          omega
        apply ih (k := k + 1) _ hk' (by omega) (.inl (by omega))
        rw [hdouble, hp, pow_succ, Nat.mul_comm]
      · have hne : p ≠ 0 := by
          rintro rfl
          have := Nat.two_pow_pos k
          rw [← hp] at this
          exact absurd this (by decide)
        rw [if_neg hlt, if_neg hne]
        refine ⟨p, rfl, ⟨k, hk, hp⟩, UInt64.not_lt.mp hlt, ?_⟩
        apply hbelow.imp_right
        rintro rfl
        exact UInt64.toNat_inj.mp hp

/-- Up to `2 ^ 63` there is a power of two that is not below. -/
theorem roundUpPow2_spec {v : UInt64} (hv : v.toNat ≤ 2 ^ 63) :
  ∃ c, roundUpPow2 v = some c ∧ IsPow2 c ∧ v ≤ c ∧ (c.toNat < 2 * v.toNat ∨ c = 1)
  := roundUpPow2From_spec (k := 0) rfl (by decide) hv (by decide) (.inr rfl)

theorem IsPow2.le_of_lt (hc : IsPow2 c) {m : ℕ} (hlt : c.toNat < 2 ^ (m + 1)) :
  c.toNat ≤ 2 ^ m
  := by
  obtain ⟨k, -, hk⟩ := hc
  rw [hk] at hlt ⊢
  apply Nat.pow_le_pow_right (by decide)
  exact Nat.le_of_lt_succ ((Nat.pow_lt_pow_iff_right (by decide)).mp hlt)

/-- Beyond `2 ^ 63` the loop goes on for ever. -/
theorem roundUpPow2From_eq_none {v p : UInt64} (hv : 2 ^ 63 < v.toNat)
    (hp : p = 0 ∨ ∃ k < 64, p.toNat = 2 ^ k) (rounds : ℕ) :
  roundUpPow2From v rounds p = none
  := by
  induction rounds generalizing p with
  | zero => rfl
  | succ rounds ih =>
      have hlt : p < v := by
        rw [UInt64.lt_iff_toNat_lt]
        rcases hp with rfl | ⟨k, hk, hpk⟩
        · exact lt_trans (Nat.two_pow_pos 63) hv
        · have := Nat.pow_le_pow_right (by decide : 0 < 2) (Nat.le_pred_of_lt hk)
          rw [hpk]
          exact lt_of_le_of_lt this hv
      rw [roundUpPow2From, if_pos hlt]
      apply ih
      rcases hp with rfl | ⟨k, hk, hpk⟩
      · exact .inl rfl
      · by_cases hk63 : k = 63
        · subst hk63
          obtain rfl : p = 0x8000000000000000 := UInt64.toNat_inj.mp hpk
          exact .inl rfl
        · have hpow : 2 ^ k < 2 ^ 63 := Nat.pow_lt_pow_right (by decide) (by omega)
          refine .inr ⟨k + 1, by omega, ?_⟩
          rw [toNat_shiftLeft_one (by omega), hpk, pow_succ, Nat.mul_comm]

/-- What is returned is a power of two. -/
theorem IsPow2.of_roundUpPow2 {v c : UInt64} (h : roundUpPow2 v = some c) :
  IsPow2 c
  := by
  by_cases hv : v.toNat ≤ 2 ^ 63
  · obtain ⟨c', hc', hpow, -⟩ := roundUpPow2_spec hv
    obtain rfl := Option.some.inj (hc'.symm.trans h)
    exact hpow
  · have hnone := roundUpPow2From_eq_none (by omega) (.inr ⟨0, by decide, rfl⟩) 65 (v := v) (p := 1)
    rw [roundUpPow2, hnone] at h
    cases h

theorem IsPow2.toNat_sub_one (hc : IsPow2 c) :
  (c - 1).toNat = c.toNat - 1
  := by
  have hle : (1 : UInt64) ≤ c := UInt64.le_iff_toNat_le.mpr hc.pos
  rw [UInt64.toNat_sub_of_le _ _ hle]
  rfl

/-- The lowest bits of a position are its remainder. -/
theorem IsPow2.toNat_and_mask (hc : IsPow2 c) (pos : UInt64) :
  (pos &&& (c - 1)).toNat = pos.toNat % c.toNat
  := by
  rw [UInt64.toNat_and, hc.toNat_sub_one]
  obtain ⟨k, -, hk⟩ := hc
  rw [hk, Nat.and_two_pow_sub_one_eq_mod]

/-- Positions have the same slot if they differ by a multiple of the capacity. -/
theorem IsPow2.and_mask_eq_iff (hc : IsPow2 c) (pos pos' : UInt64) :
  pos &&& (c - 1) = pos' &&& (c - 1) ↔ pos.toNat % c.toNat = pos'.toNat % c.toNat
  := by
  rw [← UInt64.toNat_inj, hc.toNat_and_mask, hc.toNat_and_mask]

/-- The slots of positions are unaffected by the wrap around of positions. -/
theorem IsPow2.toNat_add_mod (hc : IsPow2 c) (pos : UInt64) (i : ℕ) :
  (pos + UInt64.ofNat i).toNat % c.toNat = (pos.toNat + i) % c.toNat
  := by
  obtain ⟨k, hk, hck⟩ := hc
  have hdvd : c.toNat ∣ 2 ^ 64 := by
    rw [hck]
    apply Nat.pow_dvd_pow 2 hk.le
  rw [UInt64.toNat_add, UInt64.toNat_ofNat', Nat.mod_mod_of_dvd _ hdvd, Nat.add_mod,
    Nat.mod_mod_of_dvd _ hdvd, ← Nat.add_mod]

/-- The positions that share a slot, counted from one of them on. -/
theorem IsPow2.add_and_mask_eq_iff (hc : IsPow2 c) (pos : UInt64) {i j : ℕ} :
  (pos + UInt64.ofNat i) &&& (c - 1) = (pos + UInt64.ofNat j) &&& (c - 1)
    ↔ i % c.toNat = j % c.toNat
  := by
  rw [hc.and_mask_eq_iff, hc.toNat_add_mod, hc.toNat_add_mod]
  exact ⟨Nat.ModEq.add_left_cancel' _, Nat.ModEq.add_left _⟩

theorem add_ofNat_zero (pos : UInt64) :
  pos + UInt64.ofNat 0 = pos
  := UInt64.add_zero pos

theorem add_ofNat_succ (pos : UInt64) (i : ℕ) :
  pos + UInt64.ofNat (i + 1) = pos + 1 + UInt64.ofNat i
  := by
  rw [UInt64.ofNat_add, UInt64.ofNat_one]
  grind

/-- What is appended is behind all others. -/
theorem getElem?_concat_of_ne {α : Type*} {xs : List α} {i : ℕ} (h : i ≠ xs.length) (x : α) :
  (xs ++ [x])[i]? = xs[i]?
  := by
  grind

end Queue
