/-
# Powers of two in a number

The exponent of two in a number (`padicValNat 2`), what is left of a number
once it is taken out (odd, and not zero), the exponent in a bitwise or, and
the facts Stein's binary gcd rests on: the common power of two comes out of
both sides, powers of two come out of one side when the other is odd, and one
side may be subtracted from the other.
-/

import Mathlib

namespace Namada.Math

variable {a b n : ℕ}

theorem two_pow_padicValNat_dvd (n : ℕ) : 2 ^ padicValNat 2 n ∣ n := pow_padicValNat_dvd

/-- A number is its power of two times what is left. -/
theorem two_pow_mul_div_padicValNat (n : ℕ) : 2 ^ padicValNat 2 n * (n / 2 ^ padicValNat 2 n) = n :=
  Nat.mul_div_cancel' (two_pow_padicValNat_dvd n)

/-- What is left of a nonzero number without its power of two is odd. -/
theorem odd_div_two_pow_padicValNat (hn : n ≠ 0) : Odd (n / 2 ^ padicValNat 2 n) := by
  rw [Nat.odd_iff]
  by_contra heven
  have hdvd : 2 ∣ n / 2 ^ padicValNat 2 n := Nat.dvd_of_mod_eq_zero (by omega)
  have hnot : ¬ 2 ^ (padicValNat 2 n + 1) ∣ n := pow_succ_padicValNat_not_dvd hn
  apply hnot
  rw [pow_succ]
  conv_rhs => rw [← two_pow_mul_div_padicValNat n]
  exact Nat.mul_dvd_mul_left _ hdvd

/-- A power of two divides a bitwise or exactly when it divides both sides. -/
theorem two_pow_dvd_or_iff {k : ℕ} : 2 ^ k ∣ (a ||| b) ↔ 2 ^ k ∣ a ∧ 2 ^ k ∣ b := by
  simp only [Nat.dvd_iff_mod_eq_zero, Nat.or_mod_two_pow, Nat.or_eq_zero_iff]

/-- The power of two in a bitwise or is the smaller of the two. -/
theorem padicValNat_or (ha : a ≠ 0) (hb : b ≠ 0) :
    padicValNat 2 (a ||| b) = min (padicValNat 2 a) (padicValNat 2 b) := by
  have hor : a ||| b ≠ 0 := fun hzero => ha (Nat.or_eq_zero_iff.mp hzero).1
  have hiff : ∀ {m : ℕ}, m ≠ 0 → ∀ {k : ℕ}, 2 ^ k ∣ m ↔ k ≤ padicValNat 2 m :=
    fun hm => Nat.pow_dvd_iff_le_padicValNat (by decide) hm
  apply le_antisymm
  · have hboth := two_pow_dvd_or_iff.mp (two_pow_padicValNat_dvd (a ||| b))
    exact le_min ((hiff ha).mp hboth.1) ((hiff hb).mp hboth.2)
  · apply (hiff hor).mp
    apply two_pow_dvd_or_iff.mpr
    exact ⟨(hiff ha).mpr (min_le_left _ _), (hiff hb).mpr (min_le_right _ _)⟩

/-- A common power of two comes out of a gcd. -/
theorem gcd_eq_gcd_div_mul {k : ℕ} (ha : 2 ^ k ∣ a) (hb : 2 ^ k ∣ b) :
    Nat.gcd a b = Nat.gcd (a / 2 ^ k) (b / 2 ^ k) * 2 ^ k := by
  rw [← Nat.gcd_mul_right, Nat.div_mul_cancel ha, Nat.div_mul_cancel hb]

/-- Powers of two come out of one side of a gcd when the other side is odd. -/
theorem gcd_div_two_pow_of_odd {k : ℕ} (hodd : Odd a) (hk : 2 ^ k ∣ b) :
    Nat.gcd a (b / 2 ^ k) = Nat.gcd a b := by
  have hcoprime : Nat.Coprime (2 ^ k) a := Nat.Coprime.pow_left k (Nat.coprime_two_left.mpr hodd)
  conv_rhs => rw [← Nat.mul_div_cancel' hk]
  rw [Nat.gcd_comm a, Nat.gcd_comm a, Nat.Coprime.gcd_mul_left_cancel _ hcoprime]

/-- Out of a bitwise or's power of two, one side is left odd. -/
theorem odd_or_odd_div_padicValNat_or (ha : a ≠ 0) (hb : b ≠ 0) :
    Odd (a / 2 ^ padicValNat 2 (a ||| b)) ∨ Odd (b / 2 ^ padicValNat 2 (a ||| b)) := by
  rw [padicValNat_or ha hb]
  rcases le_total (padicValNat 2 a) (padicValNat 2 b) with hle | hle
  · left
    rw [min_eq_left hle]
    exact odd_div_two_pow_padicValNat ha
  · right
    rw [min_eq_right hle]
    exact odd_div_two_pow_padicValNat hb

/-- The first side of a gcd may lose its power of two when one side is odd. -/
theorem gcd_div_two_pow_padicValNat_left (hodd : Odd a ∨ Odd b) :
    Nat.gcd (a / 2 ^ padicValNat 2 a) b = Nat.gcd a b := by
  rcases hodd with ha | hb
  · have hzero : padicValNat 2 a = 0 :=
      padicValNat.eq_zero_of_not_dvd fun htwo => (Nat.not_even_iff_odd.mpr ha) (even_iff_two_dvd.mpr htwo)
    rw [hzero, Nat.pow_zero, Nat.div_one]
  · rw [Nat.gcd_comm, gcd_div_two_pow_of_odd hb (two_pow_padicValNat_dvd a), Nat.gcd_comm]

end Namada.Math
