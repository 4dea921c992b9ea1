/-
# Fixed-width integers as bytes

A fixed-width integer is laid out as a fixed number of bytes, most significant
first (`to_be_bytes`, `from_be_bytes`): the digits of its value in base 256.
A signed integer of the same width becomes an unsigned one when its sign bit
is flipped, which turns the signed order into the unsigned one: the flipped
value is the signed value plus half the range.
-/

import Mathlib
import Namada.Math.Radix

namespace Namada.Math

/-! ## Bytes -/

/-- The number a byte string writes, most significant byte first. -/
def bytesValue (bytes : List UInt8) : ℕ := ofDigitsBE 256 (bytes.map UInt8.toNat)

/-- The low `count` bytes of `value`, most significant first. -/
def toBytesBE (count value : ℕ) : List UInt8 := (toDigitsBE 256 count value).map UInt8.ofNat

theorem bytesValue_lt (bytes : List UInt8) : bytesValue bytes < 256 ^ bytes.length := by
  have hdigits : ∀ digit ∈ bytes.map UInt8.toNat, digit < 256 := by
    intro digit hmem
    obtain ⟨byte, -, rfl⟩ := List.mem_map.mp hmem
    exact UInt8.toNat_lt byte
  have hlt := ofDigitsBE_lt hdigits
  rwa [List.length_map] at hlt

@[simp] theorem length_toBytesBE (count value : ℕ) : (toBytesBE count value).length = count := by
  simp [toBytesBE]

theorem bytesValue_toBytesBE (count value : ℕ) :
    bytesValue (toBytesBE count value) = value % 256 ^ count := by
  -- every digit is below 256, so it survives the round trip through a byte
  have hdigits : (toDigitsBE 256 count value).map (fun digit => (UInt8.ofNat digit).toNat) =
      toDigitsBE 256 count value := by
    refine (List.map_congr_left fun digit hmem => ?_).trans (List.map_id _)
    have hlt := lt_of_mem_toDigitsBE (by decide) hmem
    simp [UInt8.toNat_ofNat', Nat.mod_eq_of_lt hlt]
  rw [bytesValue, toBytesBE, List.map_map, Function.comp_def, hdigits, ofDigitsBE_toDigitsBE]

theorem toBytesBE_bytesValue (bytes : List UInt8) :
    toBytesBE bytes.length (bytesValue bytes) = bytes := by
  have hdigits : ∀ digit ∈ bytes.map UInt8.toNat, digit < 256 := by
    intro digit hmem
    obtain ⟨byte, -, rfl⟩ := List.mem_map.mp hmem
    exact UInt8.toNat_lt byte
  have hround := toDigitsBE_ofDigitsBE hdigits
  rw [List.length_map] at hround
  rw [toBytesBE, bytesValue, hround]
  simp [List.map_map, Function.comp_def]

/-! ## Flipping the sign bit -/

/-- Flipping the top bit of a number below `2 ^ (bit + 1)` adds or removes `2 ^ bit`. -/
theorem xor_two_pow_of_lt {value bit : ℕ} (hlt : value < 2 ^ (bit + 1)) :
    value ^^^ 2 ^ bit = 2 ^ bit * (1 - value / 2 ^ bit) + value % 2 ^ bit := by
  have htop : value / 2 ^ bit < 2 := by
    rw [Nat.div_lt_iff_lt_mul (Nat.two_pow_pos _), ← Nat.pow_succ']
    exact hlt
  have hhigh : (value ^^^ 2 ^ bit) / 2 ^ bit = 1 - value / 2 ^ bit := by
    rw [Nat.xor_div_two_pow, Nat.div_self (Nat.two_pow_pos _)]
    rcases Nat.lt_or_ge (value / 2 ^ bit) 1 with hzero | hone
    · rw [Nat.lt_one_iff.mp hzero, Nat.zero_xor]
    · rw [Nat.le_antisymm (Nat.le_of_lt_succ htop) hone, Nat.xor_self]
  have hlow : (value ^^^ 2 ^ bit) % 2 ^ bit = value % 2 ^ bit := by
    rw [Nat.xor_mod_two_pow, Nat.mod_self, Nat.xor_zero]
  rw [← Nat.div_add_mod (value ^^^ 2 ^ bit) (2 ^ bit), hhigh, hlow]

/-- Flipping the sign bit gives the signed value plus half the range. -/
theorem toNat_xor_intMin {width : ℕ} (hwidth : 0 < width) (value : BitVec width) :
    ((value ^^^ BitVec.intMin width).toNat : ℤ) = value.toInt + 2 ^ (width - 1) := by
  obtain ⟨bit, rfl⟩ : ∃ bit, width = bit + 1 := ⟨width - 1, by omega⟩
  have hlt : value.toNat < 2 ^ (bit + 1) := value.isLt
  rw [BitVec.toNat_xor, BitVec.toNat_intMin_of_pos hwidth, Nat.add_sub_cancel,
    xor_two_pow_of_lt hlt, BitVec.toInt_eq_toNat_cond]
  rw [Nat.pow_succ'] at hlt
  have hsplit := Nat.div_add_mod value.toNat (2 ^ bit)
  rcases Nat.lt_or_ge value.toNat (2 ^ bit) with hlow | hhigh
  · -- the sign bit is clear: the flip adds `2 ^ bit`
    have hquot : value.toNat / 2 ^ bit = 0 := Nat.div_eq_of_lt hlow
    rw [if_pos (by rw [Nat.pow_succ']; omega), hquot, Nat.mod_eq_of_lt hlow]
    push_cast
    ring
  · -- the sign bit is set: the flip removes `2 ^ bit`
    have hquot : value.toNat / 2 ^ bit = 1 := by
      have hpos : 1 ≤ value.toNat / 2 ^ bit := Nat.div_pos hhigh (Nat.two_pow_pos _)
      have htop : value.toNat / 2 ^ bit < 2 :=
        Nat.div_lt_of_lt_mul (by rw [Nat.mul_comm]; exact hlt)
      omega
    have hmod : value.toNat % 2 ^ bit = value.toNat - 2 ^ bit := by
      rw [hquot, Nat.mul_one] at hsplit
      omega
    rw [if_neg (by rw [Nat.pow_succ']; omega), hquot, hmod]
    push_cast [Nat.cast_sub hhigh]
    ring

/-- Flipping the sign bit turns the signed order into the unsigned one. -/
theorem xor_intMin_lt_iff {width : ℕ} (hwidth : 0 < width) (first second : BitVec width) :
    (first ^^^ BitVec.intMin width).toNat < (second ^^^ BitVec.intMin width).toNat ↔
      first.toInt < second.toInt := by
  have hfirst := toNat_xor_intMin hwidth first
  have hsecond := toNat_xor_intMin hwidth second
  omega

theorem xor_intMin_xor_intMin {width : ℕ} (value : BitVec width) :
    value ^^^ BitVec.intMin width ^^^ BitVec.intMin width = value := by
  rw [BitVec.xor_assoc, BitVec.xor_self, BitVec.xor_zero]

end Namada.Math
