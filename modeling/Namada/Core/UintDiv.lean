/-
# Multiply, then divide, on 512 bits

`uint.rs`: `Uint::checked_mul_div(a, b, d)` multiplies two `Uint`s into eight
words and divides them by `d` with `div_mod_512`. That takes the quotient to be
zero when the dividend has fewer bits than the divisor, divides word by word
for a divisor of one word (`div_mod_small_512`), and otherwise runs Knuth's
Algorithm D (`div_mod_knuth_512`): it shifts both numbers left until the top
bit of the divisor is set, guesses each quotient word from the top words,
lowers the guess while the next word shows it too large, takes the guess times
the divisor off the window, and adds the divisor back once when that went
below zero. `checked_mul_div` gives no result for a zero divisor or a quotient
past four words.

The functions of the `uint` crate that the code calls are taken by what they
compute: `div_mod_word` is the quotient and remainder of two words over one,
`full_mul_u64` and the full multiplication give the words of the product,
`sub_slice` and `add_slice` subtract and add word by word with a borrow or a
carry (`Namada.Math.subBorrow`, `Namada.Math.addCarry`).

Each step of the algorithm keeps the invariant of long division: what is left
of the dividend and the quotient so far make up the dividend, and what is left
is below the divisor times the base to the next position (`KnuthInv`). The
guess is the quotient word or one more (`estimateQHat_bounds`), and one step
of subtraction and add-back takes off exactly the quotient word
(`subtractMul_eq`). So `checked_mul_div` is the exact quotient and remainder of
the product whenever the quotient fits, and `fixed_precision_div` is the
truncated quotient (`checkedMulDiv_exact`); `Namada.Core.checkedMulDiv`, which
`Dec` divides with, is its quotient.
-/

import Namada.Core.Dec
import Namada.Math.LongDivision

namespace Namada.Core.Uint

open Namada.Math

/-! ## What the code takes from the `uint` crate -/

/-- `u64::leading_zeros`. -/
def leadingZeros (word : ℕ) : ℕ := 64 - Nat.size word

/-- `Uint::bits`: the least number of bits that hold the number. -/
def bits (value : ℕ) : ℕ := Nat.size value

/-- `Uint::words`: the words that `bits` bits take. -/
def words (bits : ℕ) : ℕ := 1 + (bits - 1) / 64

/-- `Uint::div_mod_word`: two words over one. -/
def divModWord (hi lo y : ℕ) : ℕ × ℕ := ((hi * 2 ^ 64 + lo) / y, (hi * 2 ^ 64 + lo) % y)

/-- `Uint::split_u128`: the high and the low word. -/
def splitU128 (a : ℕ) : ℕ × ℕ := (a / 2 ^ 64, a % 2 ^ 64)

/-- `Uint::full_mul_u64`: the five words of four words times one. -/
def fullMulU64 (value word : ℕ) : List ℕ := toWords (2 ^ 64) 5 (value * word)

/-- `uint_full_mul_reg!`: the eight words of the product of two `Uint`s. -/
def fullMul (first second : ℕ) : List ℕ := toWords (2 ^ 64) 8 (first * second)

/-- `Uint::sub_slice`. -/
def subSlice (a b : List ℕ) : List ℕ × Bool := subBorrow (2 ^ 64) a b false

/-- `Uint::add_slice`. -/
def addSlice (a b : List ℕ) : List ℕ × Bool := addCarry (2 ^ 64) a b false

/-- The four words of a `Uint` (`self.0`). -/
def toArray (value : ℕ) : List ℕ := toWords (2 ^ 64) 4 value

/-- `Uint::low_u64`. -/
def lowU64 (value : ℕ) : ℕ := value % 2 ^ 64

/-- `<<=` on a `Uint`. -/
def shl (value shift : ℕ) : ℕ := value * 2 ^ shift % 2 ^ 256

/-- `Uint::checked_pow`. -/
def checkedPow (value exponent : ℕ) : Option ℕ :=
  if value ^ exponent < 2 ^ 256 then some (value ^ exponent) else none

/-! ## The division -/

/-- `Uint::bits_512`: from the top word down, the first that is not zero. -/
def bits512 (arr : List ℕ) : ℕ :=
  match (List.range' 1 (arr.length - 1)).find? fun i => 0 < arr.getD (arr.length - i) 0 with
  | some i => 64 * (arr.length - i + 1) - leadingZeros (arr.getD (arr.length - i) 0)
  | none => 64 - leadingZeros (arr.getD 0 0)

/-- `Uint::div_mod_small_512`: word by word from the top, by a divisor of one
word. -/
def divModSmall512 (slf : List ℕ) (other : ℕ) : List ℕ × ℕ :=
  slf.foldr (fun word state => ((divModWord state.2 word other).1 :: state.1, (divModWord state.2 word other).2))
    ([], 0)

/-- `Uint::shr_512`: `ret[i - word_shift] = original[i] >> bit_shift`, plus the
carry `original[i + 1] << (64 - bit_shift)` when `bit_shift > 0`. -/
def shr512 (original : List ℕ) (shift : ℕ) : List ℕ :=
  (List.range 8).map fun i =>
    if i + shift / 64 < 8 then
      original.getD (i + shift / 64) 0 >>> (shift % 64) +
        if 0 < shift % 64 ∧ i + shift / 64 + 1 < 8 then
          (original.getD (i + shift / 64 + 1) 0 <<< (64 - shift % 64)) % 2 ^ 64
        else 0
    else 0

/-- `Uint::full_shl_512`: nine words. -/
def fullShl512 (slf : List ℕ) (shift : ℕ) : List ℕ :=
  (slf.getD 0 0 <<< shift) % 2 ^ 64 :: shr512 slf (64 - shift)

/-- `Uint::full_shr_512`: `res[i] = u[i] >> shift`, or'ed with
`u[i + 1] << (64 - shift)` when `shift > 0`. -/
def fullShr512 (u : List ℕ) (shift : ℕ) : List ℕ :=
  (List.range 8).map fun i =>
    u.getD i 0 >>> shift ||| if 0 < shift then (u.getD (i + 1) 0 <<< (64 - shift)) % 2 ^ 64 else 0

/-- The loop of D3: lower `q_hat` while `q_hat * v_{n-2}` is past
`(r_hat, u_{j+n-2})`, compared word by word, and stop when `r_hat` plus
`v_{n-1}` overflows a word. -/
def correctQHat (vN1 vN2 uJn2 : ℕ) (qHat rHat : ℕ) : ℕ :=
  if hbreak : (splitU128 (qHat * vN2)).1 < rHat ∨
      (splitU128 (qHat * vN2)).1 = rHat ∧ (splitU128 (qHat * vN2)).2 ≤ uJn2 then qHat
  else if 2 ^ 64 ≤ rHat + vN1 then qHat - 1
  else correctQHat vN1 vN2 uJn2 (qHat - 1) (rHat + vN1)
termination_by qHat
decreasing_by
  -- a guess of zero always passes the test
  rcases Nat.eq_zero_or_pos qHat with hzero | hpos
  · subst hzero
    simp [splitU128] at hbreak
    omega
  · omega

/-- D3: the guess at the quotient word `j`, from the top two words of the
window over the top word of the divisor, or `u64::MAX` when the top words are
equal. -/
def estimateQHat (u : List ℕ) (j n vN1 vN2 : ℕ) : ℕ :=
  if u.getD (j + n) 0 < vN1 then
    correctQHat vN1 vN2 (u.getD (j + n - 2) 0) (divModWord (u.getD (j + n) 0) (u.getD (j + n - 1) 0) vN1).1
      (divModWord (u.getD (j + n) 0) (u.getD (j + n - 1) 0) vN1).2
  else 2 ^ 64 - 1

/-- D4 and D6: take `q_hat` times the divisor off the words from `j`, and when
that went below zero lower `q_hat` and add the divisor back, with the carry
into `u[j + n]`. -/
def subtractMul (u : List ℕ) (v j n qHat : ℕ) : ℕ × List ℕ :=
  let subtracted := subSlice (u.drop j) ((fullMulU64 v qHat).take (n + 1))
  let u := u.take j ++ subtracted.1
  if subtracted.2 then
    let added := addSlice (u.drop j) ((toArray v).take n)
    let u := u.take j ++ added.1
    (qHat - 1, u.set (j + n) ((u.getD (j + n) 0 + added.2.toNat) % 2 ^ 64))
  else (qHat, u)

/-- One pass of the loop of `div_mod_knuth_512`, D3 to D5, at the quotient
word `j`. -/
def knuthStep (v n vN1 vN2 : ℕ) (state : List ℕ × List ℕ) (j : ℕ) : List ℕ × List ℕ :=
  let corrected := subtractMul state.1 v j n (estimateQHat state.1 j n vN1 vN2)
  (corrected.2, state.2.set j corrected.1)

/-- `Uint::div_mod_knuth_512`: D1 normalises, the loop runs `j` from `m` down
to `0`, and D8 shifts the remainder back. -/
def divModKnuth512 (slf : List ℕ) (v n m : ℕ) : List ℕ × ℕ :=
  let shift := leadingZeros ((toArray v).getD (n - 1) 0)
  let v := shl v shift
  let state := (List.range (m + 1)).reverse.foldl
    (knuthStep v n ((toArray v).getD (n - 1) 0) ((toArray v).getD (n - 2) 0))
    (fullShl512 slf shift, List.replicate 8 0)
  (state.2, Nat.ofDigits (2 ^ 64) ((fullShr512 state.1 shift).take 4))

/-- `Uint::div_mod_512`. The `assert!` on a zero divisor, which
`checked_mul_div` never reaches, gives no result here. -/
def divMod512 (slf : List ℕ) (other : ℕ) : Option (List ℕ × ℕ) :=
  if bits other = 0 then none
  else if bits512 slf < bits other then some (List.replicate 8 0, Nat.ofDigits (2 ^ 64) (slf.take 4))
  else if bits other ≤ 64 then some (divModSmall512 slf (lowU64 other))
  else if words (bits512 slf) < words (bits other) then none
  else some (divModKnuth512 slf other (words (bits other)) (words (bits512 slf) - words (bits other)))

/-- `Uint::checked_mul_div`. -/
def checkedMulDiv (self num denom : ℕ) : Option (ℕ × ℕ) :=
  if denom = 0 then none
  else
    match divMod512 (fullMul self num) denom with
    | none => none
    | some (quotient, remainder) =>
      if (quotient.drop 4).any (· ≠ 0) then none
      else some (Nat.ofDigits (2 ^ 64) (quotient.take 4), remainder)

/-- `Uint::fixed_precision_div`. -/
def fixedPrecisionDiv (self rhs denom : ℕ) : Option ℕ :=
  ((checkedPow 10 denom).bind fun res => checkedMulDiv res self rhs).map Prod.fst

/-! ## The words of the arrays -/

theorem base_pos : 0 < 2 ^ 64 := Nat.two_pow_pos 64

theorem one_lt_base : 1 < 2 ^ 64 := Nat.one_lt_two_pow (by norm_num)

theorem base_pow_four : (2 ^ 64) ^ 4 = 2 ^ 256 := (Nat.pow_mul 2 64 4).symm

/-- The words of a number at and above `k` words are zero. -/
theorem div_base_pow_eq_zero {x k : ℕ} (hx : x < (2 ^ 64) ^ k) {i : ℕ} (hi : k ≤ i) : x / (2 ^ 64) ^ i = 0 :=
  Nat.div_eq_of_lt (lt_of_lt_of_le hx (Nat.pow_le_pow_right base_pos hi))

/-- `bits_512` is the bit length of the number its words stand for. -/
theorem bits512_toWords {x : ℕ} (hx : x < (2 ^ 64) ^ 8) : bits512 (toWords (2 ^ 64) 8 x) = Nat.size x := by
  unfold bits512
  rw [length_toWords]
  split
  next i hfind =>
    obtain ⟨hpos, k, hk, hget, hbefore⟩ := List.find?_eq_some_iff_getElem.mp hfind
    rw [List.getElem_range', Nat.one_mul] at hget
    rw [List.length_range'] at hk
    subst hget
    -- the words above the one found are zero, so it is the top word
    have hbelow : x < (2 ^ 64) ^ (8 - (1 + k) + 1) := by
      apply lt_pow_of_div_pow_mod_eq_zero base_pos hx
      intro i hti hi8
      have hzero := hbefore (7 - i) (by omega)
      rw [List.getElem_range', Nat.one_mul, Bool.not_eq_true', decide_eq_false_iff_not, not_lt, Nat.le_zero,
        getD_toWords (by omega)] at hzero
      rwa [show 8 - (1 + (7 - i)) = i by omega] at hzero
    rw [decide_eq_true_eq, getD_toWords (by omega)] at hpos
    have htop : x / (2 ^ 64) ^ (8 - (1 + k)) < 2 ^ 64 :=
      Nat.div_lt_of_lt_mul (by rw [← pow_succ]; exact hbelow)
    rw [getD_toWords (by omega)]
    rw [Nat.mod_eq_of_lt htop] at hpos ⊢
    have hsize : Nat.size (x / (2 ^ 64) ^ (8 - (1 + k))) ≤ 64 := Nat.size_le.mpr htop
    have hsplit : Nat.size x = 64 * (8 - (1 + k)) + Nat.size (x / (2 ^ 64) ^ (8 - (1 + k))) := by
      rw [← Nat.pow_mul]
      apply size_eq_add_size_div
      rw [Nat.pow_mul]
      exact (Nat.div_pos_iff.mp hpos).2
    rw [hsplit, leadingZeros]
    omega
  next hfind =>
    -- every word above the lowest is zero
    have hbelow : x < (2 ^ 64) ^ (0 + 1) := by
      apply lt_pow_of_div_pow_mod_eq_zero base_pos hx
      intro i hti hi8
      have hzero := List.find?_eq_none.mp hfind (8 - i) (List.mem_range'_1.mpr ⟨by omega, by omega⟩)
      rw [decide_eq_true_eq, not_lt, Nat.le_zero, getD_toWords (by omega)] at hzero
      rwa [show 8 - (8 - i) = i by omega] at hzero
    rw [Nat.zero_add, pow_one] at hbelow
    rw [getD_toWords (by omega), pow_zero, Nat.div_one, Nat.mod_eq_of_lt hbelow, leadingZeros]
    have hsize : Nat.size x ≤ 64 := Nat.size_le.mpr hbelow
    omega

theorem divModSmall512_cons (word : ℕ) (rest : List ℕ) (other : ℕ) :
    divModSmall512 (word :: rest) other =
      ((divModWord (divModSmall512 rest other).2 word other).1 :: (divModSmall512 rest other).1,
        (divModWord (divModSmall512 rest other).2 word other).2) := rfl

/-- `div_mod_small_512` is the quotient, in as many words, and the remainder. -/
theorem divModSmall512_eq {other : ℕ} (hpos : 0 < other) (hlt : other < 2 ^ 64) :
    ∀ {words : List ℕ}, (∀ word ∈ words, word < 2 ^ 64) →
      divModSmall512 words other =
        (toWords (2 ^ 64) words.length (Nat.ofDigits (2 ^ 64) words / other), Nat.ofDigits (2 ^ 64) words % other)
  | [], _ => by
    rw [List.length_nil, toWords_zero, Nat.ofDigits_nil, Nat.zero_mod]
    rfl
  | word :: rest, hwords => by
    have hword : word < 2 ^ 64 := hwords word List.mem_cons_self
    rw [divModSmall512_cons, divModSmall512_eq hpos hlt fun other hother => hwords other (List.mem_cons_of_mem _ hother),
      divModWord, List.length_cons, toWords_succ, Nat.ofDigits_cons]
    set value := Nat.ofDigits (2 ^ 64) rest
    -- the remainder so far times the base, with the word, is below `other` times the base
    have hstep : value % other * 2 ^ 64 + word < other * 2 ^ 64 := by
      have hrem : value % other + 1 ≤ other := Nat.mod_lt _ hpos
      calc value % other * 2 ^ 64 + word < (value % other + 1) * 2 ^ 64 := by
            rw [Nat.add_mul, Nat.one_mul]
            omega
        _ ≤ other * 2 ^ 64 := Nat.mul_le_mul_right _ hrem
    have hdigit : (value % other * 2 ^ 64 + word) / other < 2 ^ 64 := Nat.div_lt_of_lt_mul hstep
    have hsplit : word + 2 ^ 64 * value = value % other * 2 ^ 64 + word + other * (2 ^ 64 * (value / other)) := by
      conv_lhs => rw [← Nat.mod_add_div value other]
      ring
    rw [hsplit, Nat.add_mul_div_left _ _ hpos, Nat.add_mul_mod_self_left, Nat.add_mul_mod_self_left,
      Nat.mod_eq_of_lt hdigit, Nat.add_mul_div_left _ _ base_pos, Nat.div_eq_of_lt hdigit, Nat.zero_add]

/-- `shr_512` shifts the number its words stand for. -/
theorem shr512_toWords {x : ℕ} (hx : x < (2 ^ 64) ^ 8) (shift : ℕ) :
    shr512 (toWords (2 ^ 64) 8 x) shift = toWords (2 ^ 64) 8 (x / 2 ^ shift) := by
  apply eq_toWords_of_getD (by rw [shr512, List.length_map, List.length_range])
  intro i hi
  rw [shr512, getD_map_range hi, ← Nat.div_add_mod shift 64,
    div_two_pow_div_pow_mod (Nat.le_of_lt (Nat.mod_lt _ (by norm_num))), Nat.div_add_mod]
  by_cases hword : i + shift / 64 < 8
  · rw [if_pos hword, getD_toWords hword, Nat.shiftRight_eq_div_pow]
    congr 1
    by_cases hcarry : 0 < shift % 64 ∧ i + shift / 64 + 1 < 8
    · rw [if_pos hcarry, getD_toWords hcarry.2, Nat.shiftLeft_eq]
    · -- no bits come down: the shift is by whole words, or the next word is past the top
      rw [if_neg hcarry]
      rcases Nat.eq_zero_or_pos (shift % 64) with hzero | hpos
      · rw [hzero, Nat.sub_zero, Nat.mul_mod_left]
      · rw [div_base_pow_eq_zero hx (by omega), Nat.zero_mod, Nat.zero_mul, Nat.zero_mod]
  · rw [if_neg hword, div_base_pow_eq_zero hx (by omega), div_base_pow_eq_zero hx (by omega)]
    simp only [Nat.zero_mod, Nat.zero_div, Nat.zero_mul, Nat.add_zero]

/-- `full_shl_512` by less than a word is the product by the power of two, in
nine words. -/
theorem fullShl512_toWords {x shift : ℕ} (hx : x < (2 ^ 64) ^ 8) (hshift : shift < 64) :
    fullShl512 (toWords (2 ^ 64) 8 x) shift = toWords (2 ^ 64) 9 (x * 2 ^ shift) := by
  have hsplit : 2 ^ 64 = 2 ^ (64 - shift) * 2 ^ shift := by rw [← Nat.pow_add, Nat.sub_add_cancel hshift.le]
  rw [fullShl512, getD_toWords (by norm_num), shr512_toWords hx, toWords_succ 8 (x * 2 ^ shift), pow_zero,
    Nat.div_one, Nat.shiftLeft_eq, Nat.mod_mul_mod]
  congr 2
  conv_rhs => rw [hsplit]
  rw [Nat.mul_div_mul_right _ _ (Nat.two_pow_pos shift)]

/-- `full_shr_512` by less than a word is the quotient by the power of two, in
eight words. -/
theorem fullShr512_toWords {shift : ℕ} (hshift : shift < 64) (x : ℕ) :
    fullShr512 (toWords (2 ^ 64) 9 x) shift = toWords (2 ^ 64) 8 (x / 2 ^ shift) := by
  apply eq_toWords_of_getD (by rw [fullShr512, List.length_map, List.length_range])
  intro i hi
  have hword := div_two_pow_div_pow_mod hshift.le x 0 i
  rw [Nat.mul_zero, Nat.zero_add, Nat.add_zero] at hword
  rw [fullShr512, getD_map_range hi, getD_toWords (by omega), getD_toWords (by omega), hword,
    Nat.shiftRight_eq_div_pow]
  set high := x / (2 ^ 64) ^ (i + 1) % 2 ^ 64
  rcases Nat.eq_zero_or_pos shift with hzero | hpos
  · rw [if_neg (by omega), hzero, Nat.or_zero, Nat.sub_zero, Nat.mul_mod_left, Nat.add_zero]
  · -- the two parts have no bit in common, so or-ing them adds them
    have hlow : x / (2 ^ 64) ^ i % 2 ^ 64 / 2 ^ shift < 2 ^ (64 - shift) := by
      apply Nat.div_lt_of_lt_mul
      rw [← Nat.pow_add, Nat.add_sub_cancel' hshift.le]
      exact Nat.mod_lt _ base_pos
    have hsplit : 2 ^ 64 = 2 ^ shift * 2 ^ (64 - shift) := by rw [← Nat.pow_add, Nat.add_sub_cancel' hshift.le]
    have hhigh : high * 2 ^ (64 - shift) % 2 ^ 64 = (high % 2 ^ shift) <<< (64 - shift) := by
      rw [Nat.shiftLeft_eq]
      conv_lhs => rw [hsplit]
      exact Nat.mul_mod_mul_right _ _ _
    rw [if_pos hpos, Nat.shiftLeft_eq, hhigh, Nat.or_comm, ← Nat.shiftLeft_add_eq_or_of_lt hlow, Nat.add_comm]

/-! ## The guess at a quotient word -/

/-- The test of D3, read as numbers: `q_hat * v_{n-2}` is at most
`r_hat * b + u_{j+n-2}`. -/
theorem splitU128_le_iff {x r u : ℕ} (hu : u < 2 ^ 64) :
    ((splitU128 x).1 < r ∨ (splitU128 x).1 = r ∧ (splitU128 x).2 ≤ u) ↔ x ≤ r * 2 ^ 64 + u :=
  div_lt_or_eq_mod_le_iff base_pos hu

section Guess

variable {w v B t vN1 vN2 uJn2 : ℕ}

/-- A guess that the test of D3 shows too large is too large. -/
theorem div_lt_of_test_fails {qHat rHat : ℕ} (hB : 0 < B) (htop : w / B = t * 2 ^ 64 + uJn2)
    (hdivisor : v / B = vN1 * 2 ^ 64 + vN2) (huJn2 : uJn2 < 2 ^ 64) (hsum : qHat * vN1 + rHat = t)
    (hbreak : ¬((splitU128 (qHat * vN2)).1 < rHat ∨
      (splitU128 (qHat * vN2)).1 = rHat ∧ (splitU128 (qHat * vN2)).2 ≤ uJn2)) : w / v < qHat := by
  have htest : rHat * 2 ^ 64 + uJn2 < qHat * vN2 := Nat.lt_of_not_le (mt (splitU128_le_iff huJn2).mpr hbreak)
  apply div_lt_of_div_lt_mul_div hB
  rw [hdivisor, htop, ← hsum]
  calc (qHat * vN1 + rHat) * 2 ^ 64 + uJn2 = qHat * vN1 * 2 ^ 64 + (rHat * 2 ^ 64 + uJn2) := by ring
    _ < qHat * vN1 * 2 ^ 64 + qHat * vN2 := Nat.add_lt_add_left htest _
    _ = qHat * (vN1 * 2 ^ 64 + vN2) := by ring

/-- The loop of D3 ends at the quotient word of `w / v` or one more, from a guess
that does not fall short, where `q_hat * v_{n-1} + r_hat` stays the top two
words `t` of the window and `v_{n-1}`, `v_{n-2}` are the top words of `v`. -/
theorem correctQHat_bounds (hB : 0 < B) (htop : w / B = t * 2 ^ 64 + uJn2) (hdivisor : v / B = vN1 * 2 ^ 64 + vN2)
    (huJn2 : uJn2 < 2 ^ 64) (hvN2 : vN2 < 2 ^ 64) (hvB : 2 ^ 64 * B ≤ v) :
    ∀ (qHat rHat : ℕ), qHat * vN1 + rHat = t → rHat < 2 ^ 64 → w / v ≤ qHat → qHat < 2 ^ 64 →
      w / v ≤ correctQHat vN1 vN2 uJn2 qHat rHat ∧ correctQHat vN1 vN2 uJn2 qHat rHat ≤ w / v + 1 ∧
        correctQHat vN1 vN2 uJn2 qHat rHat ≤ qHat := by
  intro qHat rHat
  fun_induction correctQHat vN1 vN2 uJn2 qHat rHat with
  | case1 qHat rHat hbreak =>
    -- the test passes: the guess is at most one too large
    intro hsum _ hlow hqHat
    have htest : qHat * vN2 ≤ rHat * 2 ^ 64 + uJn2 := (splitU128_le_iff huJn2).mp hbreak
    have hmul : qHat * (v / B) ≤ w / B := by
      rw [hdivisor, htop, ← hsum]
      calc qHat * (vN1 * 2 ^ 64 + vN2) = qHat * vN1 * 2 ^ 64 + qHat * vN2 := by ring
        _ ≤ qHat * vN1 * 2 ^ 64 + (rHat * 2 ^ 64 + uJn2) := Nat.add_le_add_left htest _
        _ = (qHat * vN1 + rHat) * 2 ^ 64 + uJn2 := by ring
    exact ⟨hlow, le_div_add_one_of_mul_div_le hB hqHat.le hvB hmul, Nat.le_refl _⟩
  | case2 qHat rHat hbreak hoverflow =>
    -- the test fails and `r_hat` would overflow: one less passes the test
    intro hsum _ _ hqHat
    have hlt := div_lt_of_test_fails hB htop hdivisor huJn2 hsum hbreak
    obtain ⟨p, rfl⟩ : ∃ p, qHat = p + 1 := Nat.exists_eq_add_one.mpr (Nat.lt_of_le_of_lt (Nat.zero_le _) hlt)
    have hmul : p * (v / B) ≤ w / B := by
      rw [hdivisor, htop, ← hsum]
      calc p * (vN1 * 2 ^ 64 + vN2) = p * vN1 * 2 ^ 64 + p * vN2 := by ring
        _ ≤ p * vN1 * 2 ^ 64 + 2 ^ 64 * 2 ^ 64 :=
          Nat.add_le_add_left (Nat.mul_le_mul (by omega) hvN2.le) _
        _ ≤ p * vN1 * 2 ^ 64 + (rHat + vN1) * 2 ^ 64 := Nat.add_le_add_left (Nat.mul_le_mul_right _ hoverflow) _
        _ = ((p + 1) * vN1 + rHat) * 2 ^ 64 := by ring
        _ ≤ ((p + 1) * vN1 + rHat) * 2 ^ 64 + uJn2 := Nat.le_add_right _ _
    have hupper := le_div_add_one_of_mul_div_le hB (by omega) hvB hmul
    refine ⟨by omega, by omega, by omega⟩
  | case3 qHat rHat hbreak hoverflow ih =>
    -- the test fails: the loop goes on from one less
    intro hsum hrHat _ hqHat
    have hlt := div_lt_of_test_fails hB htop hdivisor huJn2 hsum hbreak
    obtain ⟨p, rfl⟩ : ∃ p, qHat = p + 1 := Nat.exists_eq_add_one.mpr (Nat.lt_of_le_of_lt (Nat.zero_le _) hlt)
    have hnext : (p + 1 - 1) * vN1 + (rHat + vN1) = t := by
      rw [← hsum, Nat.add_sub_cancel]
      ring
    obtain ⟨hlower, hupper, hdecreased⟩ := ih hnext (by omega) (by omega) (by omega)
    exact ⟨hlower, hupper, by omega⟩

/-- D3 guesses the quotient word of the window at `j` or one more, and a word.
The window `X / b ^ j` is below `V * b`, the divisor `V` has `k + 2` words
and its top word is at least half the base; the guess reads the three top
words of the window. -/
theorem estimateQHat_bounds {X V j k : ℕ} (hjk : j + k + 2 < 9) (hV : V < (2 ^ 64) ^ (k + 2))
    (hnorm : 2 ^ 64 ≤ 2 * (V / (2 ^ 64) ^ (k + 1))) (hX : X < V * (2 ^ 64) ^ (j + 1)) :
    X / (2 ^ 64) ^ j / V ≤ estimateQHat (toWords (2 ^ 64) 9 X) j (k + 2) (V / (2 ^ 64) ^ (k + 1)) (V / (2 ^ 64) ^ k % 2 ^ 64) ∧
      estimateQHat (toWords (2 ^ 64) 9 X) j (k + 2) (V / (2 ^ 64) ^ (k + 1)) (V / (2 ^ 64) ^ k % 2 ^ 64) ≤
        X / (2 ^ 64) ^ j / V + 1 ∧
      estimateQHat (toWords (2 ^ 64) 9 X) j (k + 2) (V / (2 ^ 64) ^ (k + 1)) (V / (2 ^ 64) ^ k % 2 ^ 64) < 2 ^ 64 := by
  set W := X / (2 ^ 64) ^ j with hW
  have hwords : ∀ i, W / (2 ^ 64) ^ i = X / (2 ^ 64) ^ (j + i) := fun i => by
    rw [hW, Nat.div_div_eq_div_mul, ← pow_add]
  have hVlow : (2 ^ 64) ^ (k + 1) ≤ V := by
    by_contra hsmall
    rw [Nat.div_eq_of_lt (Nat.lt_of_not_le hsmall)] at hnorm
    omega
  have hvN1 : V / (2 ^ 64) ^ (k + 1) < 2 ^ 64 := Nat.div_lt_of_lt_mul (by rw [← pow_succ]; exact hV)
  have hwindow : W < V * 2 ^ 64 := by
    apply Nat.div_lt_of_lt_mul
    calc X < V * (2 ^ 64) ^ (j + 1) := hX
      _ = (2 ^ 64) ^ j * (V * 2 ^ 64) := by ring
  -- the words of the window that the guess reads
  have htopWord : (toWords (2 ^ 64) 9 X).getD (j + (k + 2)) 0 = W / (2 ^ 64) ^ (k + 2) := by
    rw [getD_toWords (by omega), ← hwords, Nat.mod_eq_of_lt]
    apply Nat.div_lt_of_lt_mul
    calc W < V * 2 ^ 64 := hwindow
      _ ≤ (2 ^ 64) ^ (k + 2) * 2 ^ 64 := Nat.mul_le_mul_right _ hV.le
  have hsecond : (toWords (2 ^ 64) 9 X).getD (j + (k + 2) - 1) 0 = W / (2 ^ 64) ^ (k + 1) % 2 ^ 64 := by
    rw [show j + (k + 2) - 1 = j + (k + 1) by omega, getD_toWords (by omega), ← hwords]
  have hthird : (toWords (2 ^ 64) 9 X).getD (j + (k + 2) - 2) 0 = W / (2 ^ 64) ^ k % 2 ^ 64 := by
    rw [show j + (k + 2) - 2 = j + k by omega, getD_toWords (by omega), ← hwords]
  have htwo : W / (2 ^ 64) ^ (k + 2) * 2 ^ 64 + W / (2 ^ 64) ^ (k + 1) % 2 ^ 64 = W / (2 ^ 64) ^ (k + 1) :=
    (div_pow_eq_div_pow_succ_mul_add (2 ^ 64) W (k + 1)).symm
  unfold estimateQHat
  rw [htopWord, hsecond, hthird]
  split_ifs with hlt
  · -- the top two words over the top word of the divisor, then the loop of D3
    rw [divModWord, htwo]
    have hvN1pos : 0 < V / (2 ^ 64) ^ (k + 1) := by omega
    have hguess : W / (2 ^ 64) ^ (k + 1) / (V / (2 ^ 64) ^ (k + 1)) < 2 ^ 64 := by
      apply Nat.div_lt_of_lt_mul
      have := Nat.mod_lt (W / (2 ^ 64) ^ (k + 1)) base_pos
      omega
    have hbounds := correctQHat_bounds (Nat.pow_pos base_pos) (div_pow_eq_div_pow_succ_mul_add (2 ^ 64) W k)
      (div_pow_eq_div_pow_succ_mul_add (2 ^ 64) V k) (Nat.mod_lt _ base_pos) (Nat.mod_lt _ base_pos)
      (by rw [← pow_succ']; exact hVlow) _ _ (Nat.div_add_mod' _ _)
      (lt_trans (Nat.mod_lt _ hvN1pos) hvN1) (div_le_div_div W (Nat.pow_pos base_pos) hVlow) hguess
    obtain ⟨hlower, hupper, hdecreased⟩ := hbounds
    exact ⟨hlower, hupper, lt_of_le_of_lt hdecreased hguess⟩
  · -- the top word of the window reaches the divisor's: `b - 1` is at most one too large
    have hbelow : W / V < 2 ^ 64 := Nat.div_lt_of_lt_mul hwindow
    have hhalf : 2 ^ 64 ≤ 2 * (V / (2 ^ 64 * (2 ^ 64) ^ k)) := by rwa [← pow_succ']
    have hreach : V / (2 ^ 64 * (2 ^ 64) ^ k) ≤ W / (2 ^ 64 * (2 ^ 64 * (2 ^ 64) ^ k)) := by
      rw [← pow_succ', ← pow_succ']
      exact Nat.le_of_not_lt hlt
    have hnear : 2 ^ 64 - 2 ≤ W / V := sub_two_le_div hhalf hreach
    omega

end Guess

/-! ## Taking the guess times the divisor off -/

section Subtract

variable {X V j n : ℕ}

/-- The nine words of the state at `j`: the words below `j`, then `n + 1`
words of the window, then zeros. -/
theorem toWords_state (hjn : j + n < 9) {R : ℕ} (hR : R < (2 ^ 64) ^ (n + 1)) :
    toWords (2 ^ 64) 9 (X % (2 ^ 64) ^ j + (2 ^ 64) ^ j * R) =
      toWords (2 ^ 64) j X ++ (toWords (2 ^ 64) (n + 1) R ++ toWords (2 ^ 64) (8 - j - n) 0) := by
  have hlow : X % (2 ^ 64) ^ j < (2 ^ 64) ^ j := Nat.mod_lt _ (Nat.pow_pos base_pos)
  have hwindow := toWords_add_mul base_pos hR (8 - j - n) 0
  rw [Nat.mul_zero, Nat.add_zero R] at hwindow
  rw [show 9 = j + (n + 1 + (8 - j - n)) by omega, toWords_add_mul base_pos hlow, toWords_mod_pow, hwindow]

/-- D4 on the window: taking `q_hat * v` off its `n + 1` words leaves the
difference, plus `b ^ (n + 1)` when it went below zero, and borrows exactly
then. -/
theorem subSlice_window {W qHat : ℕ} (hn : n ≤ 4) (hW : W < (2 ^ 64) ^ (n + 1))
    (hproduct : V * qHat < (2 ^ 64) ^ (n + 1)) (rest : List ℕ) :
    subSlice (toWords (2 ^ 64) (n + 1) W ++ rest) ((fullMulU64 V qHat).take (n + 1)) =
      (toWords (2 ^ 64) (n + 1) (W + (decide (W < V * qHat)).toNat * (2 ^ 64) ^ (n + 1) - V * qHat) ++ rest,
        decide (W < V * qHat)) := by
  rw [subSlice, fullMulU64, take_toWords (by omega), subBorrow_append rest false (by simp),
    subBorrow_toWords one_lt_base hW hproduct, Bool.toNat_false, Nat.add_zero (V * qHat)]

/-- D6 on the window: adding `v` to the low `n` words of the window, with the
carry out of them and the word above. -/
theorem addSlice_window {D : ℕ} (hn : n ≤ 4) (hV : V < (2 ^ 64) ^ n) (rest : List ℕ) :
    addSlice (toWords (2 ^ 64) (n + 1) D ++ rest) ((toArray V).take n) =
      (toWords (2 ^ 64) n (D % (2 ^ 64) ^ n + V -
          (decide ((2 ^ 64) ^ n ≤ D % (2 ^ 64) ^ n + V)).toNat * (2 ^ 64) ^ n) ++
        (D / (2 ^ 64) ^ n % 2 ^ 64 :: rest),
        decide ((2 ^ 64) ^ n ≤ D % (2 ^ 64) ^ n + V)) := by
  rw [addSlice, toArray, take_toWords hn, toWords_add n 1 D, toWords_succ 0, toWords_zero, List.append_assoc,
    ← toWords_mod_pow n D, addCarry_append _ false (by simp),
    addCarry_toWords one_lt_base (Nat.mod_lt _ (Nat.pow_pos base_pos)) hV, Bool.toNat_false,
    Nat.add_zero (D % (2 ^ 64) ^ n + V), List.singleton_append]

/-- Reading and writing the word just above two blocks of words. -/
theorem getD_set_above (A B Z : List ℕ) (d e : ℕ) {i : ℕ} (hi : i = A.length + B.length) :
    (A ++ (B ++ d :: Z)).getD i 0 = d ∧ (A ++ (B ++ d :: Z)).set i e = A ++ (B ++ e :: Z) := by
  subst hi
  refine ⟨?_, ?_⟩
  · rw [List.getD_append_right _ _ _ _ (by omega), List.getD_append_right _ _ _ _ (by omega),
      show A.length + B.length - A.length - B.length = 0 by omega, List.getD_cons_zero]
  · rw [List.set_append_right _ _ (by omega), List.set_append_right _ _ (by omega),
      show A.length + B.length - A.length - B.length = 0 by omega, List.set_cons_zero]

/-- After a borrow the window holds `b ^ (n + 1) + R - v`: adding `v` back
carries out of the low words into the top one, which wraps to zero, and
leaves `R`. -/
theorem addBack_window {R : ℕ} (hV : V < (2 ^ 64) ^ n) (hR : R < V) :
    ((2 ^ 64) ^ (n + 1) + R - V) % (2 ^ 64) ^ n + V = (2 ^ 64) ^ n + R ∧
      ((2 ^ 64) ^ (n + 1) + R - V) / (2 ^ 64) ^ n % 2 ^ 64 = 2 ^ 64 - 1 := by
  have hpos : 0 < (2 ^ 64) ^ n := Nat.pow_pos base_pos
  have hsplit : (2 ^ 64) ^ (n + 1) + R - V = ((2 ^ 64) ^ n + R - V) + (2 ^ 64) ^ n * (2 ^ 64 - 1) := by
    rw [pow_succ, Nat.mul_sub, Nat.mul_one]
    have : (2 ^ 64) ^ n ≤ (2 ^ 64) ^ n * 2 ^ 64 := Nat.le_mul_of_pos_right _ base_pos
    omega
  have hlow : (2 ^ 64) ^ n + R - V < (2 ^ 64) ^ n := by omega
  rw [hsplit, Nat.add_mul_mod_self_left, Nat.mod_eq_of_lt hlow, Nat.add_mul_div_left _ _ hpos,
    Nat.div_eq_of_lt hlow, Nat.zero_add, Nat.mod_eq_of_lt (by norm_num)]
  exact ⟨by omega, rfl⟩

/-- D4 to D6 take the quotient word off the window: from a guess that is the
quotient word of the window at `j` or one more, `subtractMul` gives the
quotient word and leaves the remainder of the window over the words below
`j`. -/
theorem subtractMul_eq {qHat : ℕ} (hn : n ≤ 4) (hjn : j + n < 9) (hV : V < (2 ^ 64) ^ n)
    (hX : X < V * (2 ^ 64) ^ (j + 1)) (hlow : X / (2 ^ 64) ^ j / V ≤ qHat)
    (hhigh : qHat ≤ X / (2 ^ 64) ^ j / V + 1) (hqHat : qHat < 2 ^ 64) :
    subtractMul (toWords (2 ^ 64) 9 X) V j n qHat =
      (X / (2 ^ 64) ^ j / V, toWords (2 ^ 64) 9 (X % (2 ^ 64) ^ j + (2 ^ 64) ^ j * (X / (2 ^ 64) ^ j % V))) := by
  set W := X / (2 ^ 64) ^ j with hW
  have hwindow : W < V * 2 ^ 64 := by
    apply Nat.div_lt_of_lt_mul
    calc X < V * (2 ^ 64) ^ (j + 1) := hX
      _ = (2 ^ 64) ^ j * (V * 2 ^ 64) := by ring
  have hVpos : 0 < V := Nat.pos_of_ne_zero fun hzero => by simp [hzero] at hwindow
  have hpow : (2 ^ 64) ^ (n + 1) = (2 ^ 64) ^ n * 2 ^ 64 := pow_succ _ _
  have hWtop : W < (2 ^ 64) ^ (n + 1) := hpow ▸ lt_of_lt_of_le hwindow (Nat.mul_le_mul_right _ hV.le)
  have hproduct : V * qHat < (2 ^ 64) ^ (n + 1) := hpow ▸ Nat.mul_lt_mul'' hV hqHat
  have hrem : W % V < (2 ^ 64) ^ (n + 1) :=
    lt_of_lt_of_le (Nat.mod_lt _ hVpos) (hV.le.trans (Nat.pow_le_pow_right base_pos (Nat.le_succ n)))
  have hstate : toWords (2 ^ 64) 9 X =
      toWords (2 ^ 64) j X ++ (toWords (2 ^ 64) (n + 1) W ++ toWords (2 ^ 64) (8 - j - n) 0) := by
    conv_lhs => rw [← Nat.mod_add_div X ((2 ^ 64) ^ j)]
    exact toWords_state hjn hWtop
  have hlength : (toWords (2 ^ 64) j X).length = j := length_toWords j X
  rw [toWords_state hjn hrem]
  unfold subtractMul
  rw [hstate, List.drop_left' hlength, List.take_left' hlength, subSlice_window hn hWtop hproduct]
  dsimp only
  by_cases hborrow : W < V * qHat
  · -- D6: the guess was one too large, and adding `v` back carries out of the window
    have hq : qHat = W / V + 1 := by
      have : W / V < qHat := (Nat.div_lt_iff_lt_mul hVpos).mpr (by rwa [Nat.mul_comm])
      omega
    have hover : V * qHat = W + (V - W % V) := by
      rw [hq, Nat.mul_add, Nat.mul_one]
      have := Nat.div_add_mod W V
      have := Nat.mod_lt W hVpos
      omega
    have hdiff : W + (decide (W < V * qHat)).toNat * (2 ^ 64) ^ (n + 1) - V * qHat =
        (2 ^ 64) ^ (n + 1) + W % V - V := by
      rw [decide_eq_true hborrow, Bool.toNat_true, Nat.one_mul, hover]
      have := Nat.mod_lt W hVpos
      omega
    obtain ⟨hcarry, htopWord⟩ := addBack_window hV (Nat.mod_lt W hVpos)
    rw [if_pos (decide_eq_true hborrow), hdiff, List.drop_left' hlength, List.take_left' hlength,
      addSlice_window hn hV, hcarry, htopWord, decide_eq_true (Nat.le_add_right _ _), Bool.toNat_true, Nat.one_mul,
      Nat.add_sub_cancel_left]
    dsimp only
    obtain ⟨hget, hset⟩ := getD_set_above (toWords (2 ^ 64) j X) (toWords (2 ^ 64) n (W % V))
      (toWords (2 ^ 64) (8 - j - n) 0) (2 ^ 64 - 1) ((2 ^ 64 - 1 + 1) % 2 ^ 64)
      (by rw [hlength, length_toWords])
    -- the top word of the remainder is zero, as the wrapped carry left it
    have hzero : W % V / (2 ^ 64) ^ n = 0 := Nat.div_eq_of_lt (lt_trans (Nat.mod_lt W hVpos) hV)
    rw [hget, hset, Nat.sub_add_cancel Nat.one_le_two_pow, Nat.mod_self, toWords_add n 1, toWords_succ 0,
      toWords_zero, hzero, List.append_assoc, List.singleton_append, Nat.zero_mod, hq, Nat.add_sub_cancel]
  · -- no borrow: the guess was the quotient word
    have hq : qHat = W / V := by
      have : qHat ≤ W / V := (Nat.le_div_iff_mul_le hVpos).mpr (by rw [Nat.mul_comm]; omega)
      omega
    rw [if_neg (by simpa using hborrow), decide_eq_false hborrow, Bool.toNat_false, Nat.zero_mul, Nat.add_zero W,
      hq, ← Nat.mod_eq_sub_mul_div]

end Subtract

/-! ## The loop -/

section Loop

variable {U V : ℕ}

/-- The invariant of the loop of Algorithm D before the pass at `j - 1`: what
is left of the dividend, `X`, and the quotient words found so far, `Q`, make
up the dividend `U`; what is left is below the divisor times `b ^ j`; and the
quotient words below `j` are still zero. -/
structure KnuthInv (U V j X Q : ℕ) : Prop where
  sum : X + V * Q = U
  below : X < V * (2 ^ 64) ^ j
  aligned : (2 ^ 64) ^ j ∣ Q

/-- Writing the quotient word at `j` adds it at `j` to a quotient whose words
up to `j` are zero. -/
theorem set_quotient_word {Q j q : ℕ} (hj : j < 8) (hq : q < 2 ^ 64) (haligned : (2 ^ 64) ^ (j + 1) ∣ Q) :
    (toWords (2 ^ 64) 8 Q).set j q = toWords (2 ^ 64) 8 (Q + (2 ^ 64) ^ j * q) := by
  obtain ⟨c, rfl⟩ := haligned
  have hpow : (2 ^ 64) ^ (j + 1) = (2 ^ 64) ^ j * 2 ^ 64 := pow_succ _ _
  have hlow : (2 ^ 64) ^ (j + 1) * c % (2 ^ 64) ^ j = 0 := by
    rw [hpow, Nat.mul_assoc, Nat.mul_mod_right]
  rw [set_toWords base_pos hj hq, hlow, Nat.mul_div_cancel_left _ (Nat.pow_pos base_pos), Nat.zero_add]
  congr 1
  rw [hpow]
  ring

/-- One pass of the loop, D3 to D5, at `j` keeps the invariant: it writes the
quotient word of the window at `j` and leaves the remainder of the window. -/
theorem knuthStep_inv {k j X Q : ℕ} (hk : k + 2 ≤ 4) (hjk : j + k + 2 < 9) (hV : V < (2 ^ 64) ^ (k + 2))
    (hnorm : 2 ^ 64 ≤ 2 * (V / (2 ^ 64) ^ (k + 1))) (hinv : KnuthInv U V (j + 1) X Q) :
    knuthStep V (k + 2) (V / (2 ^ 64) ^ (k + 1)) (V / (2 ^ 64) ^ k % 2 ^ 64)
        (toWords (2 ^ 64) 9 X, toWords (2 ^ 64) 8 Q) j =
      (toWords (2 ^ 64) 9 (X % (2 ^ 64) ^ j + (2 ^ 64) ^ j * (X / (2 ^ 64) ^ j % V)),
        toWords (2 ^ 64) 8 (Q + (2 ^ 64) ^ j * (X / (2 ^ 64) ^ j / V))) ∧
      KnuthInv U V j (X % (2 ^ 64) ^ j + (2 ^ 64) ^ j * (X / (2 ^ 64) ^ j % V))
        (Q + (2 ^ 64) ^ j * (X / (2 ^ 64) ^ j / V)) := by
  obtain ⟨hlow, hhigh, hguess⟩ := estimateQHat_bounds hjk hV hnorm hinv.below
  obtain ⟨hdigit, hrest, hrecompose⟩ := divStep base_pos hinv.below
  refine ⟨?_, ?_⟩
  · rw [knuthStep, subtractMul_eq hk (by omega) hV hinv.below hlow hhigh hguess]
    dsimp only
    rw [set_quotient_word (by omega) hdigit hinv.aligned]
  · refine ⟨?_, hrest, ?_⟩
    · -- the word times the divisor, taken off what is left, is added to the quotient
      calc X % (2 ^ 64) ^ j + (2 ^ 64) ^ j * (X / (2 ^ 64) ^ j % V) + V * (Q + (2 ^ 64) ^ j * (X / (2 ^ 64) ^ j / V))
          = X % (2 ^ 64) ^ j + (2 ^ 64) ^ j * (X / (2 ^ 64) ^ j % V) +
              V * (X / (2 ^ 64) ^ j / V * (2 ^ 64) ^ j) + V * Q := by ring
        _ = X + V * Q := by rw [hrecompose]
        _ = U := hinv.sum
    · exact dvd_add (dvd_trans (pow_dvd_pow _ (Nat.le_succ j)) hinv.aligned) (dvd_mul_right _ _)

/-- The loop of Algorithm D, from `m` down to `0`, keeps the invariant: it
ends with words of what is left below the divisor and of the quotient. -/
theorem knuthLoop_inv {k m X Q : ℕ} (hk : k + 2 ≤ 4) (hmk : m + k + 2 < 9) (hV : V < (2 ^ 64) ^ (k + 2))
    (hnorm : 2 ^ 64 ≤ 2 * (V / (2 ^ 64) ^ (k + 1))) (hinv : KnuthInv U V (m + 1) X Q) :
    ∃ X' Q', (List.range (m + 1)).reverse.foldl
        (knuthStep V (k + 2) (V / (2 ^ 64) ^ (k + 1)) (V / (2 ^ 64) ^ k % 2 ^ 64))
        (toWords (2 ^ 64) 9 X, toWords (2 ^ 64) 8 Q) = (toWords (2 ^ 64) 9 X', toWords (2 ^ 64) 8 Q') ∧
      KnuthInv U V 0 X' Q' := by
  -- the invariant of a pass, with the room it needs above the window
  refine (foldl_range_reverse (fun j state => j + k + 2 ≤ 9 ∧ ∃ X Q,
    state = (toWords (2 ^ 64) 9 X, toWords (2 ^ 64) 8 Q) ∧ KnuthInv U V j X Q) ?_ m _ ⟨by omega, X, Q, rfl, hinv⟩).2
  rintro j state ⟨hj, X, Q, rfl, hinv⟩
  obtain ⟨hstep, hnext⟩ := knuthStep_inv hk (by omega) hV hnorm hinv
  exact ⟨by omega, _, _, hstep, hnext⟩

end Loop

/-! ## The division -/

section Division

variable {U V : ℕ}

/-- A number of `bits` bits has `words bits` words: it is at least
`b ^ (words - 1)` and below `b ^ words`. -/
theorem words_bits_bounds (hV : 0 < V) :
    (2 ^ 64) ^ (words (bits V) - 1) ≤ V ∧ V < (2 ^ 64) ^ words (bits V) := by
  have hsize : 0 < Nat.size V := Nat.size_pos.mpr hV
  rw [bits, words, ← Nat.pow_mul, ← Nat.pow_mul]
  constructor
  · calc 2 ^ (64 * (1 + (Nat.size V - 1) / 64 - 1)) ≤ 2 ^ (Nat.size V - 1) :=
          Nat.pow_le_pow_right (by norm_num) (by omega)
      _ ≤ V := Nat.lt_size.mp (by omega)
  · calc V < 2 ^ Nat.size V := Nat.lt_size_self V
      _ ≤ 2 ^ (64 * (1 + (Nat.size V - 1) / 64)) := Nat.pow_le_pow_right (by norm_num) (by omega)

/-- D1: shifting by the leading zeros of the top word sets the top bit of the
divisor and keeps its words. -/
theorem normalize_bounds {n : ℕ} (hn : 1 ≤ n) (hlow : (2 ^ 64) ^ (n - 1) ≤ V) (hhigh : V < (2 ^ 64) ^ n) :
    leadingZeros (V / (2 ^ 64) ^ (n - 1)) < 64 ∧ V * 2 ^ leadingZeros (V / (2 ^ 64) ^ (n - 1)) < (2 ^ 64) ^ n ∧
      2 ^ 64 ≤ 2 * (V * 2 ^ leadingZeros (V / (2 ^ 64) ^ (n - 1)) / (2 ^ 64) ^ (n - 1)) := by
  have hpos : 0 < (2 ^ 64) ^ (n - 1) := Nat.pow_pos base_pos
  set top := V / (2 ^ 64) ^ (n - 1) with htop
  have htopPos : 0 < top := Nat.div_pos hlow hpos
  have htopLt : top < 2 ^ 64 := by
    apply Nat.div_lt_of_lt_mul
    rwa [← pow_succ, Nat.sub_add_cancel hn]
  have hsizeTop : Nat.size top ≤ 64 := Nat.size_le.mpr htopLt
  have hsizeTopPos : 0 < Nat.size top := Nat.size_pos.mpr htopPos
  -- the bits of the divisor are those of its top word above `n - 1` words
  have hsize : Nat.size V = 64 * (n - 1) + Nat.size top := by
    rw [htop, ← Nat.pow_mul] at *
    exact size_eq_add_size_div hlow
  have hshift : leadingZeros top = 64 - Nat.size top := rfl
  refine ⟨by omega, ?_, ?_⟩
  · calc V * 2 ^ leadingZeros top < 2 ^ Nat.size V * 2 ^ leadingZeros top :=
          Nat.mul_lt_mul_of_pos_right (Nat.lt_size_self V) (Nat.two_pow_pos _)
      _ = (2 ^ 64) ^ n := by
          rw [← Nat.pow_add, ← Nat.pow_mul, hsize, hshift]
          congr 1
          omega
  · -- the top word times the shift reaches half the base
    have htopBits : 2 ^ (Nat.size top - 1) ≤ top := Nat.lt_size.mp (by omega)
    have hhalf : 2 ^ 63 ≤ top * 2 ^ leadingZeros top :=
      calc 2 ^ 63 = 2 ^ (Nat.size top - 1) * 2 ^ leadingZeros top := by
            rw [← Nat.pow_add, hshift]
            congr 1
            omega
        _ ≤ top * 2 ^ leadingZeros top := Nat.mul_le_mul_right _ htopBits
    have hshifted : top * 2 ^ leadingZeros top ≤ V * 2 ^ leadingZeros top / (2 ^ 64) ^ (n - 1) := by
      apply (Nat.le_div_iff_mul_le hpos).mpr
      calc top * 2 ^ leadingZeros top * (2 ^ 64) ^ (n - 1) = top * (2 ^ 64) ^ (n - 1) * 2 ^ leadingZeros top := by
            ring
        _ ≤ V * 2 ^ leadingZeros top := Nat.mul_le_mul_right _ (Nat.div_mul_le_self V _)
    omega

/-- `div_mod_knuth_512` is the quotient and the remainder, for a divisor of
more than one word and a dividend with at least as many words. -/
theorem divModKnuth512_eq (hU : U < (2 ^ 64) ^ 8) (hVlow : 2 ^ 64 ≤ V) (hV : V < 2 ^ 256)
    (hwords : words (bits V) ≤ words (Nat.size U)) :
    divModKnuth512 (toWords (2 ^ 64) 8 U) V (words (bits V)) (words (Nat.size U) - words (bits V)) =
      (toWords (2 ^ 64) 8 (U / V), U % V) := by
  have hVpos : 0 < V := lt_of_lt_of_le base_pos hVlow
  obtain ⟨hpowLow, hpowHigh⟩ := words_bits_bounds hVpos
  -- the divisor has two to four words and the dividend at most eight
  have hsizeV : 64 < Nat.size V ∧ Nat.size V ≤ 256 := ⟨Nat.lt_size.mpr hVlow, Nat.size_le.mpr hV⟩
  have hsizeU : Nat.size U ≤ 64 * 8 := Nat.size_le.mpr (by rwa [← Nat.pow_mul] at hU)
  have hnRange : 2 ≤ words (bits V) ∧ words (bits V) ≤ 4 := by
    rw [words, bits]
    omega
  have hmRange : words (Nat.size U) ≤ 8 := by
    rw [words]
    omega
  set n := words (bits V) with hn
  set m := words (Nat.size U) - n with hm
  obtain ⟨hshiftLt, hshifted, hnorm⟩ := normalize_bounds (by omega) hpowLow hpowHigh
  set shift := leadingZeros (V / (2 ^ 64) ^ (n - 1)) with hshift
  have hVshift : 0 < V * 2 ^ shift := Nat.mul_pos hVpos (Nat.two_pow_pos _)
  have hpow4 : (2 ^ 64) ^ n ≤ 2 ^ 256 := by
    rw [← base_pow_four]
    exact Nat.pow_le_pow_right base_pos hnRange.2
  -- the words the code reads off the divisor, before and after the shift
  have htopWord : (toArray V).getD (n - 1) 0 = V / (2 ^ 64) ^ (n - 1) := by
    rw [toArray, getD_toWords (by omega), Nat.mod_eq_of_lt]
    apply Nat.div_lt_of_lt_mul
    rwa [← pow_succ, Nat.sub_add_cancel (by omega)]
  have hshl : shl V shift = V * 2 ^ shift := Nat.mod_eq_of_lt (lt_of_lt_of_le hshifted hpow4)
  have hvN1 : (toArray (V * 2 ^ shift)).getD (n - 1) 0 = V * 2 ^ shift / (2 ^ 64) ^ (n - 1) := by
    rw [toArray, getD_toWords (by omega), Nat.mod_eq_of_lt]
    apply Nat.div_lt_of_lt_mul
    rwa [← pow_succ, Nat.sub_add_cancel (by omega)]
  have hvN2 : (toArray (V * 2 ^ shift)).getD (n - 2) 0 = V * 2 ^ shift / (2 ^ 64) ^ (n - 2) % 2 ^ 64 :=
    getD_toWords (by omega) _
  -- before the loop: the shifted dividend is below the shifted divisor times `b ^ (m + 1)`
  have hstart : KnuthInv (U * 2 ^ shift) (V * 2 ^ shift) (m + 1) (U * 2 ^ shift) 0 := by
    refine ⟨by rw [Nat.mul_zero, Nat.add_zero], ?_, dvd_zero _⟩
    have hcover : Nat.size U ≤ 64 * words (Nat.size U) := by
      rw [words]
      omega
    have hUwords : U < (2 ^ 64) ^ (n - 1) * (2 ^ 64) ^ (m + 1) := by
      rw [← Nat.pow_add, ← Nat.pow_mul]
      calc U < 2 ^ Nat.size U := Nat.lt_size_self U
        _ ≤ 2 ^ (64 * (n - 1 + (m + 1))) := Nat.pow_le_pow_right (by norm_num) (by omega)
    calc U * 2 ^ shift < (2 ^ 64) ^ (n - 1) * (2 ^ 64) ^ (m + 1) * 2 ^ shift :=
          Nat.mul_lt_mul_of_pos_right hUwords (Nat.two_pow_pos _)
      _ ≤ V * (2 ^ 64) ^ (m + 1) * 2 ^ shift := Nat.mul_le_mul_right _ (Nat.mul_le_mul_right _ hpowLow)
      _ = V * 2 ^ shift * (2 ^ 64) ^ (m + 1) := by ring
  obtain ⟨k, hk⟩ : ∃ k, n = k + 2 := ⟨n - 2, by omega⟩
  rw [hk, show k + 2 - 1 = k + 1 by omega] at hvN1 hnorm
  rw [hk, show k + 2 - 2 = k by omega] at hvN2
  rw [hk] at hshifted
  obtain ⟨X, Q, hloop, hend⟩ := knuthLoop_inv (by omega) (by omega) hshifted hnorm hstart
  unfold divModKnuth512
  dsimp only
  rw [htopWord, ← hshift, hshl, fullShl512_toWords hU hshiftLt, ← toWords_zero_eq_replicate, hk,
    show k + 2 - 1 = k + 1 by omega, show k + 2 - 2 = k by omega, hvN1, hvN2, hloop]
  -- after the loop: what is left is the shifted remainder and the quotient is that of the shifted numbers
  have hquotient : Q = U / V := by
    rw [← Nat.mul_div_mul_right U V (Nat.two_pow_pos shift), ← hend.sum, Nat.add_mul_div_left _ _ hVshift,
      Nat.div_eq_of_lt (by simpa using hend.below), Nat.zero_add]
  have hremainder : X = U % V * 2 ^ shift := by
    rw [← Nat.mul_mod_mul_right, ← hend.sum, Nat.add_mul_mod_self_left, Nat.mod_eq_of_lt (by simpa using hend.below)]
  have hremLt : U % V < (2 ^ 64) ^ 4 := by
    rw [base_pow_four]
    exact lt_trans (Nat.mod_lt U hVpos) hV
  dsimp only
  rw [hquotient, fullShr512_toWords hshiftLt, hremainder, Nat.mul_div_cancel _ (Nat.two_pow_pos shift),
    take_toWords (by norm_num), ofDigits_toWords, Nat.mod_eq_of_lt hremLt]

/-- `div_mod_512` of the eight words of a number by a nonzero `Uint` is the
quotient, in eight words, and the remainder, on each of its routes: a
divisor with more bits, one of one word, and Algorithm D. -/
theorem divMod512_eq (hU : U < (2 ^ 64) ^ 8) (hVpos : 0 < V) (hV : V < 2 ^ 256) :
    divMod512 (toWords (2 ^ 64) 8 U) V = some (toWords (2 ^ 64) 8 (U / V), U % V) := by
  have hsizeV : 0 < Nat.size V := Nat.size_pos.mpr hVpos
  unfold divMod512
  rw [bits512_toWords hU]
  split_ifs with hzero hsmaller hword hfewer
  · rw [bits] at hzero
    omega
  · -- fewer bits than the divisor: the quotient is zero and the remainder the dividend
    have hlt : U < V := Nat.lt_of_not_le fun hle => by
      have := Nat.size_le_size hle
      rw [bits] at hsmaller
      omega
    have hfour : U < (2 ^ 64) ^ 4 := by
      rw [base_pow_four]
      exact lt_trans hlt hV
    rw [← toWords_zero_eq_replicate, take_toWords (by norm_num), ofDigits_toWords, Nat.mod_eq_of_lt hfour,
      Nat.div_eq_of_lt hlt, Nat.mod_eq_of_lt hlt]
  · -- a divisor of one word: word by word from the top
    have hlt : V < 2 ^ 64 := Nat.size_le.mp hword
    rw [lowU64, Nat.mod_eq_of_lt hlt, divModSmall512_eq hVpos hlt (lt_of_mem_toWords base_pos 8 U), length_toWords,
      ofDigits_toWords, Nat.mod_eq_of_lt hU]
  · -- at least as many bits means at least as many words
    rw [bits] at hsmaller hfewer
    rw [words, words] at hfewer
    omega
  · rw [divModKnuth512_eq hU (Nat.lt_size.mp (by rw [bits] at hword; omega)) hV (by rw [bits] at hfewer ⊢; omega)]

end Division

/-! ## Multiply, then divide -/

/-- The eight words of the product of two `Uint`s are those of the product. -/
theorem fullMul_lt {a b : ℕ} (ha : a < 2 ^ 256) (hb : b < 2 ^ 256) : a * b < (2 ^ 64) ^ 8 :=
  calc a * b < 2 ^ 256 * 2 ^ 256 := Nat.mul_lt_mul'' ha hb
    _ = (2 ^ 64) ^ 8 := by norm_num

/-- The quotient has no words past the fourth exactly when it fits a `Uint`. -/
theorem any_high_words_ne_zero {Q : ℕ} (hQ : Q < (2 ^ 64) ^ 8) :
    ((toWords (2 ^ 64) 8 Q).drop 4).any (· ≠ 0) = decide (2 ^ 256 ≤ Q) := by
  have hhigh : Q / (2 ^ 64) ^ 4 < (2 ^ 64) ^ 4 := Nat.div_lt_of_lt_mul (by rwa [← Nat.pow_add])
  rw [drop_toWords (by norm_num), any_toWords_ne_zero base_pos, Nat.mod_eq_of_lt hhigh, base_pow_four]
  apply decide_eq_decide.mpr
  rw [Ne, Nat.div_eq_zero_iff_lt (Nat.two_pow_pos 256), not_lt]

/-- `Uint::checked_mul_div` on `Uint`s: the quotient and remainder of the
product, when the divisor is not zero and the quotient fits. -/
theorem checkedMulDiv_eq {a b d : ℕ} (ha : a < 2 ^ 256) (hb : b < 2 ^ 256) (hd : d < 2 ^ 256) :
    checkedMulDiv a b d = if d ≠ 0 ∧ a * b / d < 2 ^ 256 then some (a * b / d, a * b % d) else none := by
  unfold checkedMulDiv
  rcases Nat.eq_zero_or_pos d with rfl | hdpos
  · simp
  have hprod := fullMul_lt ha hb
  have hquotient : a * b / d < (2 ^ 64) ^ 8 := lt_of_le_of_lt (Nat.div_le_self _ _) hprod
  rw [if_neg (Nat.pos_iff_ne_zero.mp hdpos), fullMul, divMod512_eq hprod hdpos hd]
  dsimp only
  rw [any_high_words_ne_zero hquotient, take_toWords (by norm_num), ofDigits_toWords, base_pow_four]
  by_cases hfits : a * b / d < 2 ^ 256
  · have hlow : ¬decide (2 ^ 256 ≤ a * b / d) = true := by
      rw [decide_eq_true_eq, not_le]
      exact hfits
    rw [if_neg hlow, if_pos ⟨Nat.pos_iff_ne_zero.mp hdpos, hfits⟩, Nat.mod_eq_of_lt hfits]
  · rw [if_pos (decide_eq_true (not_lt.mp hfits)), if_neg (fun h => hfits h.2)]

/-- `Uint::fixed_precision_div`: the truncated quotient of the number times
`10 ^ denom`, when the divisor is not zero and that and `10 ^ denom` fit. -/
theorem fixedPrecisionDiv_eq {a b p : ℕ} (ha : a < 2 ^ 256) (hb : b < 2 ^ 256) :
    fixedPrecisionDiv a b p = if b ≠ 0 ∧ 10 ^ p < 2 ^ 256 ∧ 10 ^ p * a / b < 2 ^ 256 then some (10 ^ p * a / b)
      else none := by
  unfold fixedPrecisionDiv checkedPow
  by_cases hpow : 10 ^ p < 2 ^ 256
  · rw [if_pos hpow, Option.bind_some, checkedMulDiv_eq hpow ha hb]
    by_cases hfits : b ≠ 0 ∧ 10 ^ p * a / b < 2 ^ 256
    · rw [if_pos hfits, if_pos ⟨hfits.1, hpow, hfits.2⟩]
      rfl
    · rw [if_neg hfits, if_neg (fun h => hfits ⟨h.1, h.2.2⟩)]
      rfl
  · rw [if_neg hpow, if_neg (fun h => hpow h.2.1)]
    rfl

/-- `Uint::checked_mul_div` is the exact quotient and remainder of the product
when the divisor is not zero and the quotient fits a `Uint`, and nothing
otherwise; so `fixed_precision_div` is the truncated quotient of the number
times `10 ^ p` whenever that and `10 ^ p` fit a `Uint`. -/
theorem checkedMulDiv_exact :
    (∀ a b d : ℕ, a < 2 ^ 256 → b < 2 ^ 256 → d < 2 ^ 256 →
      checkedMulDiv a b d = if d ≠ 0 ∧ a * b / d < 2 ^ 256 then some (a * b / d, a * b % d) else none) ∧
    (∀ a b p : ℕ, a < 2 ^ 256 → b < 2 ^ 256 →
      fixedPrecisionDiv a b p = if b ≠ 0 ∧ 10 ^ p < 2 ^ 256 ∧ 10 ^ p * a / b < 2 ^ 256 then some (10 ^ p * a / b)
        else none) :=
  ⟨fun _ _ _ ha hb hd => checkedMulDiv_eq ha hb hd, fun _ _ _ ha hb => fixedPrecisionDiv_eq ha hb⟩

/-- Twelve times seven over five, and to two places three over two. -/
theorem checkedMulDiv_exact_small :
    (12 < 2 ^ 256 ∧ 7 < 2 ^ 256 ∧ 5 < 2 ^ 256 ∧ checkedMulDiv 12 7 5 = some (16, 4)) ∧
      (3 < 2 ^ 256 ∧ 2 < 2 ^ 256 ∧ fixedPrecisionDiv 3 2 2 = some 150) := by
  refine ⟨⟨by norm_num, by norm_num, by norm_num, ?_⟩, ⟨by norm_num, by norm_num, ?_⟩⟩
  · rw [checkedMulDiv_exact.1 12 7 5 (by norm_num) (by norm_num) (by norm_num)]
    decide
  · rw [checkedMulDiv_exact.2 3 2 2 (by norm_num) (by norm_num)]
    decide

/-- The division on words refines the one `Dec` is modelled with: on `Uint`s
the quotient of `checked_mul_div` is `Namada.Core.checkedMulDiv`. -/
theorem checkedMulDiv_refines {a b d : ℕ} (ha : a < 2 ^ 256) (hb : b < 2 ^ 256) (hd : d < 2 ^ 256) :
    (checkedMulDiv a b d).map Prod.fst = Namada.Core.checkedMulDiv a b d := by
  rw [checkedMulDiv_eq ha hb hd, Namada.Core.checkedMulDiv]
  by_cases hzero : d = 0
  · rw [if_neg (fun h => h.1 hzero), if_pos hzero]
    rfl
  · rw [if_neg hzero]
    by_cases hfits : a * b / d < 2 ^ 256
    · rw [if_pos ⟨hzero, hfits⟩, if_pos hfits]
      rfl
    · rw [if_neg (fun h => hfits h.2), if_neg hfits]
      rfl

/-- `fixed_precision_div` where `10 ^ denom` fits is the division `Dec` is
modelled with. -/
theorem fixedPrecisionDiv_refines {a b p : ℕ} (ha : a < 2 ^ 256) (hb : b < 2 ^ 256) (hpow : 10 ^ p < 2 ^ 256) :
    fixedPrecisionDiv a b p = Namada.Core.fixedPrecisionDiv a b p := by
  rw [Namada.Core.fixedPrecisionDiv, ← checkedMulDiv_refines hpow ha hb, fixedPrecisionDiv, checkedPow, if_pos hpow,
    Option.bind_some]

theorem fixedPrecisionDiv_refines_small :
    3 < 2 ^ 256 ∧ 2 < 2 ^ 256 ∧ 10 ^ 2 < 2 ^ 256 ∧ fixedPrecisionDiv 3 2 2 = Namada.Core.fixedPrecisionDiv 3 2 2 :=
  ⟨by decide, by decide, by decide, fixedPrecisionDiv_refines (by decide) (by decide) (by decide)⟩

end Namada.Core.Uint
