/-
# Fixed-precision decimals and `Amount::mul_ceil`

`dec.rs` keeps a `Dec` as a signed 256-bit integer `X`, read as `X / 10^12`.
Division truncates to twelve places, so `Dec::one_third()` and
`Dec::two_thirds()` are `0.333333333333` and `0.666666666666`, a little below
the fractions they are named after. `Amount::mul_ceil` multiplies an amount by
a non-negative `Dec` and rounds up. An amount reaches that product exactly when
it times `10^12` reaches the amount times the `Dec`'s integer
(`mulCeil_of_lt`): the threshold is the one of the truncated constant, not of
the fraction.

An `I256` is an integer whose absolute value is at most `MAX_SIGNED_VALUE`; its
checked operations give `none` past that bound, and those of `Uint` past
`2^256`.
-/

import Namada.Core.Token

namespace Namada.Core

open Namada.Math

/-- `POS_DECIMAL_PRECISION`. -/
def posDecimalPrecision : ℕ := 12

/-- `MAX_SIGNED_VALUE`: the greatest absolute value of an `I256`. -/
def maxSignedValue : ℕ := 2 ^ 255 - 1

/-- `Uint::checked_mul_div`: `value * num / denom`, with no result for a zero
divisor or a quotient beyond 256 bits. -/
def checkedMulDiv (value num denom : ℕ) : Option ℕ :=
  if denom = 0 then none
  else if value * num / denom < 2 ^ 256 then some (value * num / denom) else none

/-- `Uint::fixed_precision_div`: `value / rhs` to `denom` decimal places, truncated. -/
def fixedPrecisionDiv (value rhs denom : ℕ) : Option ℕ := checkedMulDiv (10 ^ denom) value rhs

/-- To no decimal places the division is the quotient, which fits for a
dividend that does. -/
theorem fixedPrecisionDiv_zero {value rhs : ℕ} (hrhs : rhs ≠ 0) (hvalue : value < 2 ^ 256) :
    fixedPrecisionDiv value rhs 0 = some (value / rhs) := by
  have hfit : 10 ^ 0 * value / rhs < 2 ^ 256 := by
    rw [Nat.pow_zero, Nat.one_mul]
    exact Nat.lt_of_le_of_lt (Nat.div_le_self _ _) hvalue
  rw [fixedPrecisionDiv, checkedMulDiv, if_neg hrhs, if_pos hfit, Nat.pow_zero, Nat.one_mul]

/-- `Dec`: an `I256` read as that many units of `10^-12`. -/
structure Dec where
  raw : ℤ
  deriving DecidableEq

namespace Dec

/-- `Dec::zero`. -/
def zero : Dec := ⟨0⟩

/-- `Dec(I256::maximum())`. -/
def maximum : Dec := ⟨maxSignedValue⟩

/-- `Dec::checked_add`, by `I256::checked_add`: none past `MAX_SIGNED_VALUE`. -/
def checkedAdd (first second : Dec) : Option Dec :=
  if (first.raw + second.raw).natAbs ≤ maxSignedValue then some ⟨first.raw + second.raw⟩ else none

/-- `Dec::checked_sub`, by `I256::checked_sub`: the sum with the negation. -/
def checkedSub (first second : Dec) : Option Dec := first.checkedAdd ⟨-second.raw⟩

/-- `Dec::trunc_div`: the quotient of the absolute values to twelve places,
negated when exactly one side is negative. -/
def truncDiv (first second : Dec) : Option Dec :=
  let isNeg := Bool.xor (decide (first.raw < 0)) (decide (second.raw < 0))
  match fixedPrecisionDiv first.raw.natAbs second.raw.natAbs posDecimalPrecision with
  | some res => if res ≤ maxSignedValue then some ⟨if isNeg then -res else res⟩ else none
  | none => none

/-- `Dec::checked_div`. -/
def checkedDiv (first second : Dec) : Option Dec := first.truncDiv second

/-- `Dec::checked_mul`: the product of the integers by `I256::checked_mul`, which
fails past `MAX_SIGNED_VALUE`, then divided by `10^12` with truncation. -/
def checkedMul (first second : Dec) : Option Dec :=
  let product := first.raw.natAbs * second.raw.natAbs
  if product ≤ maxSignedValue then
    let quotient : ℤ := ((product / 10 ^ posDecimalPrecision : ℕ) : ℤ)
    some ⟨if decide (first.raw < 0) = decide (second.raw < 0) then quotient else -quotient⟩
  else none

/-- `impl From<u64> for Dec` (and `From<i32>`, through `i128`): the integer as a
decimal. -/
def ofNat (value : ℕ) : Dec := ⟨value * 10 ^ posDecimalPrecision⟩

/-- `NATIVE_MAX_DECIMAL_PLACES`. -/
def nativeMaxDecimalPlaces : ℕ := 6

/-- `impl TryFrom<Amount> for Dec`, on the amount's integer: that many units of
`10^-6`, which fails past `MAX_SIGNED_VALUE`. -/
def tryFromAmount (raw : ℕ) : Option Dec :=
  -- `I256::try_from` of the integer, then the `checked!` product: the product bounds both
  let inner := raw * 10 ^ (posDecimalPrecision - nativeMaxDecimalPlaces)
  if inner ≤ maxSignedValue then some ⟨inner⟩ else none

/-- `Dec::one`. -/
def one : Dec := ⟨10 ^ posDecimalPrecision⟩

/-- `Dec::two`: `one + one`, whose `expect` never fires (`checkedAdd_one_one`). -/
def two : Dec := (one.checkedAdd one).getD zero

/-- `Dec::one_third`: `one / 3`, whose `expect` never fires (`checkedDiv_one_three`). -/
def oneThird : Dec := (one.checkedDiv (ofNat 3)).getD zero

/-- `Dec::two_thirds`: `two / 3`, whose `expect` never fires (`checkedDiv_two_three`). -/
def twoThirds : Dec := (two.checkedDiv (ofNat 3)).getD zero

theorem checkedAdd_one_one : one.checkedAdd one = some ⟨2 * 10 ^ 12⟩ := by decide

theorem checkedDiv_one_three : one.checkedDiv (ofNat 3) = some ⟨333333333333⟩ := by decide

theorem checkedDiv_two_three : two.checkedDiv (ofNat 3) = some ⟨666666666666⟩ := by decide

/-- One third is truncated to twelve places. -/
theorem oneThird_raw : oneThird.raw = (333333333333 : ℕ) := by
  rw [oneThird, checkedDiv_one_three]
  rfl

/-- Two thirds are truncated to twelve places. -/
theorem twoThirds_raw : twoThirds.raw = (666666666666 : ℕ) := by
  rw [twoThirds, checkedDiv_two_three]
  rfl

/-! ### The operations on decimals that are not negative -/

theorem checkedAdd_raw {first second sum : Dec} (h : first.checkedAdd second = some sum) :
    sum.raw = first.raw + second.raw := by
  unfold checkedAdd at h
  split_ifs at h
  cases h
  rfl

theorem checkedAdd_of_le {first second : Dec} (hfit : (first.raw + second.raw).natAbs ≤ maxSignedValue) :
    first.checkedAdd second = some ⟨first.raw + second.raw⟩ :=
  if_pos hfit

theorem checkedSub_raw {first second difference : Dec} (h : first.checkedSub second = some difference) :
    difference.raw = first.raw - second.raw := by
  rw [checkedAdd_raw h, Int.sub_eq_add_neg]

/-- A quotient of decimals that are not negative is the quotient of their
integers to twelve places. -/
theorem truncDiv_raw {first second quotient : Dec} (hfirst : 0 ≤ first.raw) (hsecond : 0 ≤ second.raw)
    (h : first.truncDiv second = some quotient) :
    quotient.raw = ((10 ^ posDecimalPrecision * first.raw.natAbs / second.raw.natAbs : ℕ) : ℤ) := by
  unfold truncDiv fixedPrecisionDiv checkedMulDiv at h
  simp only [Int.not_lt.mpr hfirst, Int.not_lt.mpr hsecond, decide_false, Bool.xor_false,
    Bool.false_eq_true, if_false] at h
  -- the divisor is not zero, the quotient fits in a `Uint` and in an `I256`
  by_cases hzero : second.raw.natAbs = 0
  · simp [hzero] at h
  by_cases hfit : 10 ^ posDecimalPrecision * first.raw.natAbs / second.raw.natAbs < 2 ^ 256
  · by_cases hmax : 10 ^ posDecimalPrecision * first.raw.natAbs / second.raw.natAbs ≤ maxSignedValue
    · simp only [if_neg hzero, if_pos hfit, if_pos hmax, Option.some.injEq] at h
      rw [← h]
    · simp only [if_neg hzero, if_pos hfit, if_neg hmax, reduceCtorEq] at h
  · simp only [if_neg hzero, if_neg hfit, reduceCtorEq] at h

/-- A product of decimals that are not negative is the product of their integers
over `10^12`, truncated. -/
theorem checkedMul_raw {first second product : Dec} (hfirst : 0 ≤ first.raw) (hsecond : 0 ≤ second.raw)
    (h : first.checkedMul second = some product) :
    product.raw = ((first.raw.natAbs * second.raw.natAbs / 10 ^ posDecimalPrecision : ℕ) : ℤ) := by
  unfold checkedMul at h
  simp only [Int.not_lt.mpr hfirst, Int.not_lt.mpr hsecond, decide_false, if_true] at h
  split_ifs at h
  cases h
  rfl

theorem tryFromAmount_raw {raw : ℕ} {dec : Dec} (h : tryFromAmount raw = some dec) :
    dec.raw = ((raw * 10 ^ (posDecimalPrecision - nativeMaxDecimalPlaces) : ℕ) : ℤ) := by
  dsimp only [tryFromAmount] at h
  split_ifs at h
  cases h
  rfl

/-- The thirds are far inside the range of an `I256`. -/
theorem thirds_le_maxSignedValue :
    333333333333 ≤ maxSignedValue ∧ 666666666666 ≤ maxSignedValue := by
  unfold maxSignedValue
  decide

end Dec

/-! ## Multiplying amounts by decimals -/

/-- Rounding a quotient up reaches at most a bound exactly when the dividend is
at most the bound's multiple. -/
theorem roundUp_le_iff {tot denom bound : ℕ} (hdenom : 0 < denom) :
    (if tot % denom ≠ 0 then tot / denom + 1 else tot / denom) ≤ bound ↔ tot ≤ bound * denom := by
  split_ifs with hrem
  · -- a remainder: the dividend is no multiple of the denominator
    have hne : tot ≠ bound * denom := by
      rintro rfl
      exact hrem (Nat.mul_mod_left bound denom)
    calc tot / denom + 1 ≤ bound ↔ tot / denom < bound := Nat.succ_le_iff
      _ ↔ tot < bound * denom := Nat.div_lt_iff_lt_mul hdenom
      _ ↔ tot ≤ bound * denom := ⟨Nat.le_of_lt, fun hle => Nat.lt_of_le_of_ne hle hne⟩
  · -- no remainder: the dividend is the quotient's multiple
    have hmul : tot / denom * denom = tot := Nat.div_mul_cancel (Nat.dvd_of_mod_eq_zero (not_not.mp hrem))
    calc tot / denom ≤ bound ↔ tot / denom * denom ≤ bound * denom :=
          (Nat.mul_le_mul_right_iff hdenom).symm
      _ ↔ tot ≤ bound * denom := by rw [hmul]

namespace Amount

/-- `Amount::mul_ceil`: the product with a non-negative `Dec`, rounded up. -/
def mulCeil (amount : Amount) (dec : Dec) : Option Amount := do
  -- fails if the dec is negative
  let _ ← Dec.maximum.checkedSub dec
  let tot := amount.raw.toNat * dec.raw.natAbs
  if tot < 2 ^ 256 then
    let denom := 10 ^ posDecimalPrecision
    let floorDiv := tot / denom
    let rem := tot % denom
    if rem ≠ 0 then
      if floorDiv + 1 < 2 ^ 256 then some ⟨BitVec.ofNat 256 (floorDiv + 1)⟩ else none
    else some ⟨BitVec.ofNat 256 floorDiv⟩
  else none

/-- A product of 256 bits or more fails. -/
theorem mulCeil_of_not_lt {amount : Amount} {dec : Dec} {n : ℕ} (hraw : dec.raw = n)
    (htot : ¬amount.raw.toNat * n < 2 ^ 256) : amount.mulCeil dec = none := by
  have hnat : dec.raw.natAbs = n := by rw [hraw, Int.natAbs_natCast]
  unfold mulCeil
  cases Dec.maximum.checkedSub dec with
  | none => rfl
  | some _ =>
      rw [hnat]
      exact if_neg htot

/-- By a `Dec` whose integer `n` is at most `MAX_SIGNED_VALUE`, and with a
product below `2^256`, `mul_ceil` gives the least amount whose multiple of
`10^12` reaches `amount * n`. -/
theorem mulCeil_of_lt {amount : Amount} {dec : Dec} {n : ℕ} (hraw : dec.raw = n)
    (hmax : n ≤ maxSignedValue) (htot : amount.raw.toNat * n < 2 ^ 256) :
    ∃ threshold, amount.mulCeil dec = some threshold ∧
      ∀ other : Amount, threshold ≤ other ↔
        amount.raw.toNat * n ≤ other.raw.toNat * 10 ^ posDecimalPrecision := by
  obtain ⟨raw⟩ := dec
  dsimp only at hraw
  subst hraw
  have hsub : Dec.maximum.checkedSub ⟨n⟩ = some ⟨maxSignedValue - n⟩ := by
    unfold Dec.checkedSub Dec.checkedAdd Dec.maximum
    dsimp only
    rw [if_pos (by omega)]
    rfl
  have hdenom : 0 < 10 ^ posDecimalPrecision := Nat.pow_pos (by decide)
  set tot := amount.raw.toNat * n with htotDef
  -- the rounded-up quotient, which fits since the product does
  set rounded := if tot % 10 ^ posDecimalPrecision ≠ 0 then tot / 10 ^ posDecimalPrecision + 1
    else tot / 10 ^ posDecimalPrecision with hrounded
  have hquotient : tot / 10 ^ posDecimalPrecision + 1 < 2 ^ 256 := by
    have hle : tot / 10 ^ posDecimalPrecision ≤ tot / 2 :=
      Nat.div_le_div_left (by unfold posDecimalPrecision; decide) (by decide)
    omega
  have hfits : rounded < 2 ^ 256 := by
    rw [hrounded]
    split_ifs <;> omega
  refine ⟨⟨BitVec.ofNat 256 rounded⟩, ?_, fun other => ?_⟩
  · unfold mulCeil
    rw [hsub]
    simp only [Option.bind_eq_bind, Option.bind_some, Int.natAbs_natCast, ← htotDef, if_pos htot]
    rw [hrounded]
    split_ifs <;> rfl
  · rw [le_iff_toNat_le, BitVec.toNat_ofNat, Nat.mod_eq_of_lt hfits, hrounded]
    exact roundUp_le_iff hdenom

/-- By one, `mul_ceil` gives the amount back while its product fits. -/
theorem mulCeil_one {amount : Amount} (hfit : amount.raw.toNat * 10 ^ posDecimalPrecision < 2 ^ 256) :
    amount.mulCeil Dec.one = some amount := by
  have hraw : Dec.one.raw = ((10 ^ posDecimalPrecision : ℕ) : ℤ) := by simp [Dec.one]
  have hmax : 10 ^ posDecimalPrecision ≤ maxSignedValue := by
    unfold posDecimalPrecision maxSignedValue
    decide
  obtain ⟨threshold, hceil, hleast⟩ := mulCeil_of_lt hraw hmax hfit
  have hdenom : 0 < 10 ^ posDecimalPrecision := Nat.pow_pos (by decide)
  -- the amount reaches its own product, and so does nothing below it
  have hbelow : threshold.raw.toNat ≤ amount.raw.toNat :=
    le_iff_toNat_le.mp ((hleast amount).mpr le_rfl)
  have habove : amount.raw.toNat ≤ threshold.raw.toNat :=
    Nat.le_of_mul_le_mul_right ((hleast threshold).mp (le_iff_toNat_le.mpr le_rfl)) hdenom
  rw [hceil, eq_of_toNat_eq (Nat.le_antisymm hbelow habove)]

/-- The greatest amount `mul_ceil` returns: the greatest product that fits in
256 bits, divided by `10^12` and rounded up. -/
def maxMulCeil : ℕ := (2 ^ 256 - 1) / 10 ^ posDecimalPrecision + 1

/-- `mul_ceil` rounds up the quotient of a product below `2^256`. -/
theorem toNat_le_maxMulCeil {amount result : Amount} {dec : Dec}
    (hceil : amount.mulCeil dec = some result) : result.raw.toNat ≤ maxMulCeil := by
  unfold mulCeil at hceil
  cases hsub : Dec.maximum.checkedSub dec with
  | none =>
      rw [hsub] at hceil
      cases hceil
  | some _ =>
      rw [hsub] at hceil
      simp only [Option.bind_eq_bind, Option.bind_some] at hceil
      -- the quotient of a product that fits is at most that of the greatest one
      have hquotient : ∀ tot, tot < 2 ^ 256 →
          tot / 10 ^ posDecimalPrecision ≤ (2 ^ 256 - 1) / 10 ^ posDecimalPrecision :=
        fun tot htot => Nat.div_le_div_right (Nat.le_sub_one_of_lt htot)
      unfold maxMulCeil
      split_ifs at hceil with htot hrem hfit
      · cases hceil
        rw [BitVec.toNat_ofNat, Nat.mod_eq_of_lt hfit]
        exact Nat.add_le_add_right (hquotient _ htot) 1
      · cases hceil
        rw [BitVec.toNat_ofNat]
        exact (Nat.mod_le _ _).trans ((hquotient _ htot).trans (Nat.le_succ _))

/-- Fewer than `10^12` amounts that `mul_ceil` returns add up below `2^256`. -/
theorem mul_maxMulCeil_lt {count : ℕ} (hcount : count < 10 ^ posDecimalPrecision) :
    count * maxMulCeil < 2 ^ 256 :=
  calc count * maxMulCeil ≤ (10 ^ posDecimalPrecision - 1) * maxMulCeil :=
        Nat.mul_le_mul_right _ (Nat.le_sub_one_of_lt hcount)
    _ < 2 ^ 256 := by
        unfold maxMulCeil posDecimalPrecision
        decide

end Amount

end Namada.Core
