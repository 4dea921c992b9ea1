/-
# Signed 256-bit integers of `namada_core`

`uint.rs`: an `I256` is a `Uint` read in two's complement. The pattern `2^255`
(`MINUS_ZERO`) would stand for the least value, `-2^255`; negation maps it to
zero (`Uint::canonical`), and the checked operations cap absolute values at
`MAX_SIGNED_VALUE = 2^255 - 1`. The operations work on absolute values and
signs: `checked_add` in the four cases of the two signs, `checked_mul`,
`checked_div` and `checked_rem` on the magnitudes with the sign put back.

Read as the integer its bits stand for (`BitVec.toInt`), each checked
operation on values other than minus zero is the exact operation on the
symmetric range `[-(2^255 - 1), 2^255 - 1]`, with none outside it, and gives
no minus zero. `Dec` in `Namada.Core.Dec` is modelled by that integer
(`checkedAdd_toDec`, `checkedSub_toDec`).

`Uint::checked_mul_div`, through which `checked_div` divides, is its exact
value (`fixedPrecisionDiv`).
-/

import Namada.Core.Dec

namespace Namada.Core

open Namada.Math

/-! ## Signs and magnitudes -/

section SignMagnitude

/-- An integer given by a sign and a magnitude. -/
theorem signed_mul (first second : Bool) (m n : ℕ) :
    (if first then -(m : ℤ) else m) * (if second then -(n : ℤ) else n) =
      if first != second then -((m * n : ℕ) : ℤ) else ((m * n : ℕ) : ℤ) := by
  cases first <;> cases second <;> simp

/-- The truncated quotient of signed magnitudes: the magnitudes' quotient, negative
when the signs differ. -/
theorem signed_tdiv (first second : Bool) (m n : ℕ) :
    (if first then -(m : ℤ) else m).tdiv (if second then -(n : ℤ) else n) =
      if first != second then -((m / n : ℕ) : ℤ) else ((m / n : ℕ) : ℤ) := by
  cases first <;> cases second <;> simp [Int.neg_tdiv, Int.tdiv_neg]

/-- The truncated remainder of signed magnitudes has the dividend's sign. -/
theorem signed_tmod (first second : Bool) (m n : ℕ) :
    (if first then -(m : ℤ) else m).tmod (if second then -(n : ℤ) else n) =
      if first then -((m % n : ℕ) : ℤ) else ((m % n : ℕ) : ℤ) := by
  cases first <;> cases second <;> simp [Int.neg_tmod, Int.tmod_neg, ← Int.ofNat_tmod]

theorem ite_beq_swap {α : Type} (first second : Bool) (equal unequal : α) :
    (if (first == second) = true then equal else unequal) =
      if (first != second) = true then unequal else equal := by
  cases first <;> cases second <;> rfl

end SignMagnitude

/-! ## `Uint` -/

namespace Uint

/-- `Uint::checked_add`. -/
def checkedAdd (first second : BitVec 256) : Option (BitVec 256) :=
  if first.toNat + second.toNat < 2 ^ 256 then some (first + second) else none

/-- `Uint::checked_sub`. -/
def checkedSub (first second : BitVec 256) : Option (BitVec 256) :=
  if second ≤ first then some (first - second) else none

/-- `Uint::checked_mul`. -/
def checkedMul (first second : BitVec 256) : Option (BitVec 256) :=
  if first.toNat * second.toNat < 2 ^ 256 then some (first * second) else none

/-- `Uint::checked_rem`: none for a zero divisor. -/
def checkedRem (first second : BitVec 256) : Option (BitVec 256) :=
  if second = 0 then none else some (first % second)

/-- `MINUS_ZERO`, whose words, least significant first, are `[0, 0, 0, 2^63]`. -/
def minusZero : BitVec 256 :=
  BitVec.ofNat 256 (ofDigitsBE (2 ^ 64) [9223372036854775808, 0, 0, 0])

/-- `Uint::canonical`: the minus zero pattern becomes zero. -/
def canonical (self : BitVec 256) : BitVec 256 := if self = minusZero then 0 else self

/-- `Uint::negate`: every bit flipped and one added, made canonical, with the
overflow flag of that addition. -/
def negate (self : BitVec 256) : BitVec 256 × Bool :=
  (canonical (~~~self + 1#256), decide (2 ^ 256 ≤ (~~~self).toNat + 1))

variable {first second : BitVec 256}

theorem minusZero_eq_intMin : minusZero = BitVec.intMin 256 := by decide

theorem canonical_of_ne (hne : first ≠ minusZero) : canonical first = first := if_neg hne

/-- The negation made canonical; only zero overflows. -/
theorem negate_eq (self : BitVec 256) : negate self = (canonical (-self), decide (self = 0)) := by
  rw [negate, ← BitVec.neg_eq_not_add]
  congr 1
  apply decide_eq_decide.mpr
  have hnot : (~~~self).toNat = 2 ^ 256 - 1 - self.toNat := BitVec.toNat_not
  have hlt := self.isLt
  constructor
  · intro hoverflow
    have hzero : (0 : BitVec 256).toNat = 0 := by simp
    apply BitVec.eq_of_toNat_eq
    rw [hzero]
    omega
  · rintro rfl
    rw [hnot]
    simp

/-- A negation is minus zero only for minus zero. -/
theorem neg_ne_minusZero (hne : first ≠ minusZero) : -first ≠ minusZero := by
  rw [minusZero_eq_intMin, Ne, BitVec.neg_eq_intMin, ← minusZero_eq_intMin]
  exact hne

theorem checkedAdd_of_lt (hfit : first.toNat + second.toNat < 2 ^ 256) :
    checkedAdd first second = some (first + second) := if_pos hfit

theorem toNat_add_of_lt (hfit : first.toNat + second.toNat < 2 ^ 256) :
    (first + second).toNat = first.toNat + second.toNat := by
  rw [BitVec.toNat_add, Nat.mod_eq_of_lt hfit]

theorem checkedSub_of_le (hle : second ≤ first) : checkedSub first second = some (first - second) :=
  if_pos hle

theorem checkedMul_of_lt (hfit : first.toNat * second.toNat < 2 ^ 256) :
    checkedMul first second = some (first * second) := if_pos hfit

theorem checkedMul_of_not_lt (hfit : ¬ first.toNat * second.toNat < 2 ^ 256) :
    checkedMul first second = none := if_neg hfit

theorem toNat_mul_of_lt (hfit : first.toNat * second.toNat < 2 ^ 256) :
    (first * second).toNat = first.toNat * second.toNat := by
  rw [BitVec.toNat_mul, Nat.mod_eq_of_lt hfit]

theorem checkedRem_of_ne (hne : second ≠ 0) : checkedRem first second = some (first % second) :=
  if_neg hne

end Uint

/-! ## `I256` -/

/-- `I256`: a signed 256-bit integer, a `Uint` in two's complement. -/
structure I256 where
  raw : BitVec 256
  deriving DecidableEq

namespace I256

/-- `I256::non_negative`: the top word has a leading zero, so the sign bit is clear. -/
def nonNegative (self : I256) : Bool := !self.raw.msb

/-- `I256::is_negative`. -/
def isNegative (self : I256) : Bool := !self.nonNegative

/-- `I256::is_zero`. -/
def isZero (self : I256) : Bool := self.raw == 0

/-- `I256::abs`: the value itself or, for a negative one, `Uint::negate` of it. -/
def abs (self : I256) : BitVec 256 := if self.nonNegative then self.raw else (Uint.negate self.raw).1

/-- `I256::canonical`. -/
def canonical (self : I256) : I256 := ⟨Uint.canonical self.raw⟩

/-- `I256::try_from(Uint)`: none beyond `MAX_SIGNED_VALUE`. -/
def tryFrom (value : BitVec 256) : Option I256 :=
  if value ≤ Amount.maxSigned.raw then some ⟨value⟩ else none

/-- `I256::checked_neg`: zero is its own negation, any other value goes through
`Uint::negate`. -/
def checkedNeg (self : I256) : Option I256 :=
  if self.isZero then some self
  else
    let (inner, overflow) := Uint.negate self.raw
    if overflow then none else some ⟨inner⟩

/-- `I256::checked_add`, in the four cases of the two signs; the result is made
canonical. -/
def checkedAdd (self rhs : I256) : Option I256 :=
  Option.map canonical <|
    match self.nonNegative, rhs.nonNegative with
    | true, true => do
        let inner ← Uint.checkedAdd self.raw rhs.raw
        if inner > Amount.maxSigned.raw then none else some ⟨inner⟩
    | false, false => do
        let inner ← Uint.checkedAdd self.abs rhs.abs
        if inner > Amount.maxSigned.raw then none else checkedNeg ⟨inner⟩
    | true, false =>
        if self.raw ≥ rhs.abs then do
          let inner ← Uint.checkedSub self.raw rhs.abs
          some ⟨inner⟩
        else do
          let inner ← Uint.checkedSub rhs.abs self.raw
          checkedNeg ⟨inner⟩
    | false, true =>
        if rhs.raw ≥ self.abs then do
          let inner ← Uint.checkedSub rhs.abs self.abs
          some ⟨inner⟩
        else do
          let inner ← Uint.checkedSub self.abs rhs.raw
          checkedNeg ⟨inner⟩

/-- `I256::checked_sub`: the sum with the negation. -/
def checkedSub (self other : I256) : Option I256 := do
  self.checkedAdd (← other.checkedNeg)

/-- `I256::checked_mul`: the product of the magnitudes, at most
`MAX_SIGNED_VALUE`, negated when the signs differ. -/
def checkedMul (self v : I256) : Option I256 := do
  let isNegative := self.isNegative != v.isNegative
  let unsignedRes ← tryFrom (← Uint.checkedMul self.abs v.abs)
  if isNegative then unsignedRes.checkedNeg else some unsignedRes

/-- `I256::checked_div`: the quotient of the magnitudes by
`fixed_precision_div(.., 0)`, a failure read as zero, negated when the signs
differ. -/
def checkedDiv (self rhs : I256) : Option I256 :=
  if rhs.isZero then none
  else
    let quot := BitVec.ofNat 256 ((fixedPrecisionDiv self.abs.toNat rhs.abs.toNat 0).getD 0)
    if self.isNegative == rhs.isNegative then some ⟨quot⟩ else checkedNeg ⟨quot⟩

/-- `I256::checked_rem`: the remainder of the magnitudes, negated for a
negative dividend. -/
def checkedRem (self rhs : I256) : Option I256 := do
  let inner ← Uint.checkedRem self.abs rhs.abs
  if self.isNegative then checkedNeg ⟨inner⟩ else some ⟨inner⟩

/-! ### The integer an `I256` stands for -/

/-- The integer the bits stand for in two's complement. -/
def value (self : I256) : ℤ := self.raw.toInt

/-- An `I256` other than the minus zero pattern. -/
def Canonical (self : I256) : Prop := self.raw ≠ Uint.minusZero

instance (self : I256) : Decidable self.Canonical :=
  inferInstanceAs (Decidable (self.raw ≠ Uint.minusZero))

/-- The `I256` of an integer of the symmetric range; none outside it. -/
def ofInt (z : ℤ) : Option I256 :=
  if z.natAbs ≤ maxSignedValue then some ⟨BitVec.ofInt 256 z⟩ else none

variable {a b : I256}

theorem nonNegative_iff : a.nonNegative = true ↔ 0 ≤ a.value := by
  rw [nonNegative, Bool.not_eq_true', value, BitVec.toInt_pos_iff,
    BitVec.msb_eq_false_iff_two_mul_lt]

theorem isZero_iff : a.isZero = true ↔ a.value = 0 := by
  rw [isZero, beq_iff_eq, value, ← BitVec.toInt_zero, BitVec.toInt_inj]
  rfl

/-- The bits of an integer of the symmetric range stand for it. -/
theorem toInt_ofInt_of_le {z : ℤ} (hz : z.natAbs ≤ maxSignedValue) :
    (BitVec.ofInt 256 z).toInt = z := by
  unfold maxSignedValue at hz
  rw [BitVec.toInt_ofInt]
  apply Int.bmod_eq_of_le <;> omega

/-- Only minus zero stands for `-2^255`, so every other value is in the
symmetric range. -/
theorem Canonical.natAbs_value_le (ha : a.Canonical) : a.value.natAbs ≤ maxSignedValue := by
  have hlow : -2 ^ 255 ≤ a.raw.toInt := BitVec.le_toInt a.raw
  have hhigh : a.raw.toInt < 2 ^ 255 := BitVec.toInt_lt
  have hne : a.raw.toInt ≠ -2 ^ 255 := by
    intro heq
    apply ha
    rw [Uint.minusZero_eq_intMin]
    apply BitVec.eq_of_toInt_eq
    rw [heq, BitVec.toInt_intMin]
    decide
  unfold value maxSignedValue
  omega

/-- An integer of the symmetric range gives the canonical `I256` that stands
for it, and only that. -/
theorem ofInt_eq_some_iff {z : ℤ} {r : I256} :
    ofInt z = some r ↔ z.natAbs ≤ maxSignedValue ∧ r.Canonical ∧ r.value = z := by
  unfold ofInt
  split
  case isTrue hz =>
    have hvalue := toInt_ofInt_of_le hz
    constructor
    · rintro ⟨⟩
      refine ⟨hz, fun heq => ?_, hvalue⟩
      have hbits : BitVec.ofInt 256 z = Uint.minusZero := heq
      have hmin : (BitVec.ofInt 256 z).toInt = -2 ^ 255 := by
        rw [hbits, Uint.minusZero_eq_intMin, BitVec.toInt_intMin]
        decide
      unfold maxSignedValue at hz
      omega
    · rintro ⟨-, -, hr⟩
      rw [← hr, value, BitVec.ofInt_toInt]
  case isFalse hz =>
    constructor
    · rintro ⟨⟩
    · rintro ⟨hle, -⟩
      exact absurd hle hz

theorem ofInt_value (ha : a.Canonical) : ofInt a.value = some a :=
  ofInt_eq_some_iff.mpr ⟨ha.natAbs_value_le, ha, rfl⟩

theorem ofInt_of_lt {z : ℤ} (hz : maxSignedValue < z.natAbs) : ofInt z = none :=
  if_neg (Nat.not_le.mpr hz)

/-- A `Uint` up to `MAX_SIGNED_VALUE` is the non-negative `I256` of its value. -/
theorem ofInt_toNat {inner : BitVec 256} (hinner : inner.toNat ≤ maxSignedValue) :
    ofInt inner.toNat = some ⟨inner⟩ := by
  have hmsb : inner.msb = false := by
    rw [BitVec.msb_eq_false_iff_two_mul_lt]
    unfold maxSignedValue at hinner
    omega
  apply ofInt_eq_some_iff.mpr
  refine ⟨by simpa using hinner, fun heq => ?_, BitVec.toInt_eq_toNat_of_msb hmsb⟩
  have hzero : Uint.minusZero.toNat = 2 ^ 255 := by decide
  rw [show inner = Uint.minusZero from heq, hzero] at hinner
  exact absurd hinner (by unfold maxSignedValue; omega)

theorem canonical_of_canonical (ha : a.Canonical) : a.canonical = a :=
  congrArg mk (Uint.canonical_of_ne ha)

/-- Making a result of `ofInt` canonical changes nothing. -/
theorem map_canonical_ofInt (z : ℤ) : (ofInt z).map canonical = ofInt z := by
  cases hz : ofInt z with
  | none => rfl
  | some r => rw [Option.map_some, canonical_of_canonical (ofInt_eq_some_iff.mp hz).2.1]

/-! ### Signs and magnitudes of canonical values -/

theorem abs_of_nonNegative (h : a.nonNegative = true) : a.abs = a.raw := if_pos h

/-- The magnitude of a canonical value is its absolute value. -/
theorem Canonical.abs_toNat (ha : a.Canonical) : a.abs.toNat = a.value.natAbs := by
  unfold abs
  split
  case isTrue hnonneg =>
    have hmsb : a.raw.msb = false := by simpa [nonNegative] using hnonneg
    rw [value, BitVec.toInt_eq_toNat_of_msb hmsb, Int.natAbs_natCast]
  case isFalse hneg =>
    -- the negation of a negative value other than minus zero is its magnitude
    have hmsb : a.raw.msb = true := by simpa [nonNegative] using hneg
    have hlt := a.raw.isLt
    have hpos : 0 < a.raw.toNat := by
      have hmsb' := BitVec.msb_eq_decide a.raw
      rw [hmsb] at hmsb'
      have hhalf : 2 ^ 255 ≤ a.raw.toNat := of_decide_eq_true hmsb'.symm
      omega
    rw [Uint.negate_eq, Uint.canonical_of_ne (Uint.neg_ne_minusZero ha), BitVec.toNat_neg, value,
      BitVec.toInt_eq_msb_cond, if_pos hmsb]
    omega

theorem Canonical.abs_toNat_le (ha : a.Canonical) : a.abs.toNat ≤ maxSignedValue := by
  rw [ha.abs_toNat]
  exact ha.natAbs_value_le

/-- A canonical value is its magnitude with its sign. -/
theorem Canonical.value_eq (ha : a.Canonical) :
    a.value = if a.isNegative then -(a.abs.toNat : ℤ) else a.abs.toNat := by
  rw [ha.abs_toNat, isNegative]
  cases hsign : a.nonNegative
  case false =>
    have hneg : ¬ 0 ≤ a.value := fun hnonneg => by
      rw [nonNegative_iff.mpr hnonneg] at hsign
      cases hsign
    simp only [Bool.not_false, if_true]
    omega
  case true =>
    have hnonneg := nonNegative_iff.mp hsign
    simp only [Bool.not_true, Bool.false_eq_true, if_false]
    omega

theorem Canonical.value_of_nonNegative (ha : a.Canonical) (h : a.nonNegative = true) :
    a.value = a.raw.toNat := by
  rw [ha.value_eq, isNegative, h, ← abs_of_nonNegative h]
  rfl

theorem Canonical.value_of_not_nonNegative (ha : a.Canonical) (h : a.nonNegative = false) :
    a.value = -(a.abs.toNat : ℤ) := by
  rw [ha.value_eq, isNegative, h]
  rfl

/-! ### The operations -/

theorem checkedNeg_eq (ha : a.Canonical) : a.checkedNeg = ofInt (-a.value) := by
  unfold checkedNeg
  by_cases hzero : a.raw = 0
  · -- zero is returned as it is
    have hvalue : a.value = 0 := isZero_iff.mp (by simp [isZero, hzero])
    rw [if_pos (isZero_iff.mpr hvalue), hvalue, neg_zero, ← hvalue, ofInt_value ha]
  · have hvalue : a.value ≠ 0 := fun hvalue => hzero (by simpa [isZero] using isZero_iff.mpr hvalue)
    rw [if_neg (fun hisZero => hvalue (isZero_iff.mp hisZero)), Uint.negate_eq,
      Uint.canonical_of_ne (Uint.neg_ne_minusZero ha)]
    simp only [decide_eq_false hzero, Bool.false_eq_true, if_false]
    symm
    apply ofInt_eq_some_iff.mpr
    refine ⟨by rw [Int.natAbs_neg]; exact ha.natAbs_value_le, Uint.neg_ne_minusZero ha, ?_⟩
    rw [value, BitVec.toInt_neg_of_ne_intMin (by rw [← Uint.minusZero_eq_intMin]; exact ha), value]

/-- A `Uint` up to `MAX_SIGNED_VALUE`, negated: the negative `I256` of its value. -/
theorem checkedNeg_mk {inner : BitVec 256} (hinner : inner.toNat ≤ maxSignedValue) :
    checkedNeg ⟨inner⟩ = ofInt (-(inner.toNat : ℤ)) := by
  obtain ⟨-, hcanonical, hvalue⟩ := ofInt_eq_some_iff.mp (ofInt_toNat hinner)
  rw [checkedNeg_eq hcanonical, hvalue]

/-- A magnitude up to `MAX_SIGNED_VALUE`, negated when asked: the `I256` of the
signed magnitude. -/
theorem signed_mk {inner : BitVec 256} (negative : Bool) (hinner : inner.toNat ≤ maxSignedValue) :
    (if negative then checkedNeg ⟨inner⟩ else some ⟨inner⟩) =
      ofInt (if negative then -(inner.toNat : ℤ) else inner.toNat) := by
  cases negative
  case false => exact (ofInt_toNat hinner).symm
  case true => exact checkedNeg_mk hinner

/-- The cap of the same-sign arms of `checked_add`, for a non-negative sum. -/
theorem capped_eq {inner : BitVec 256} :
    (if inner > Amount.maxSigned.raw then none else some ⟨inner⟩) = ofInt inner.toNat := by
  have hmax : Amount.maxSigned.raw.toNat = maxSignedValue := Amount.maxSigned_toNat
  by_cases hcap : inner > Amount.maxSigned.raw
  · rw [if_pos hcap, ofInt_of_lt (by rw [Int.natAbs_natCast, ← hmax]; exact BitVec.lt_def.mp hcap)]
  · rw [if_neg hcap, ofInt_toNat (by rw [← hmax]; exact BitVec.le_def.mp (BitVec.not_lt.mp hcap))]

/-- The cap of the same-sign arms of `checked_add`, for a negative sum. -/
theorem capped_checkedNeg_eq {inner : BitVec 256} :
    (if inner > Amount.maxSigned.raw then none else checkedNeg ⟨inner⟩) =
      ofInt (-(inner.toNat : ℤ)) := by
  have hmax : Amount.maxSigned.raw.toNat = maxSignedValue := Amount.maxSigned_toNat
  by_cases hcap : inner > Amount.maxSigned.raw
  · rw [if_pos hcap, ofInt_of_lt (by
      rw [Int.natAbs_neg, Int.natAbs_natCast, ← hmax]; exact BitVec.lt_def.mp hcap)]
  · rw [if_neg hcap, checkedNeg_mk (by rw [← hmax]; exact BitVec.le_def.mp (BitVec.not_lt.mp hcap))]

section Operations

variable (ha : a.Canonical) (hb : b.Canonical)
include ha hb

/-- `checked_add` is the exact sum on the symmetric range. -/
theorem checkedAdd_eq : a.checkedAdd b = ofInt (a.value + b.value) := by
  have hamax := ha.abs_toNat_le
  have hbmax := hb.abs_toNat_le
  have hmax : maxSignedValue = 2 ^ 255 - 1 := rfl
  rw [checkedAdd, ← map_canonical_ofInt]
  congr 1
  cases hsa : a.nonNegative <;> cases hsb : b.nonNegative
  case false.false =>
    -- two negative values: the negated sum of the magnitudes
    have hfit : a.abs.toNat + b.abs.toNat < 2 ^ 256 := by omega
    dsimp only
    rw [Uint.checkedAdd_of_lt hfit, Option.bind_eq_bind, Option.bind_some, capped_checkedNeg_eq,
      Uint.toNat_add_of_lt hfit, ha.value_of_not_nonNegative hsa, hb.value_of_not_nonNegative hsb,
      Nat.cast_add, neg_add]
  case true.true =>
    -- two non-negative values: the sum of the values
    rw [abs_of_nonNegative hsa] at hamax
    rw [abs_of_nonNegative hsb] at hbmax
    have hfit : a.raw.toNat + b.raw.toNat < 2 ^ 256 := by omega
    dsimp only
    rw [Uint.checkedAdd_of_lt hfit, Option.bind_eq_bind, Option.bind_some, capped_eq,
      Uint.toNat_add_of_lt hfit, ha.value_of_nonNegative hsa, hb.value_of_nonNegative hsb,
      Nat.cast_add]
  case true.false =>
    -- a non-negative and a negative value: the difference of the magnitudes
    dsimp only
    rw [ha.value_of_nonNegative hsa, hb.value_of_not_nonNegative hsb]
    rw [abs_of_nonNegative hsa] at hamax
    split
    case isTrue hge =>
      have hle := BitVec.le_def.mp hge
      rw [Uint.checkedSub_of_le hge, Option.bind_eq_bind, Option.bind_some,
        ← ofInt_toNat (by rw [BitVec.toNat_sub_of_le hge]; omega), BitVec.toNat_sub_of_le hge]
      congr 1
      omega
    case isFalse hlt =>
      have hle := BitVec.le_of_lt (BitVec.not_le.mp hlt)
      have hlt' := BitVec.lt_def.mp (BitVec.not_le.mp hlt)
      rw [Uint.checkedSub_of_le hle, Option.bind_eq_bind, Option.bind_some,
        checkedNeg_mk (by rw [BitVec.toNat_sub_of_le hle]; omega), BitVec.toNat_sub_of_le hle]
      congr 1
      omega
  case false.true =>
    -- a negative and a non-negative value: the same, the other way round
    dsimp only
    rw [ha.value_of_not_nonNegative hsa, hb.value_of_nonNegative hsb, ← abs_of_nonNegative hsb]
    split
    case isTrue hge =>
      have hle := BitVec.le_def.mp hge
      rw [Uint.checkedSub_of_le hge, Option.bind_eq_bind, Option.bind_some,
        ← ofInt_toNat (by rw [BitVec.toNat_sub_of_le hge]; omega), BitVec.toNat_sub_of_le hge]
      congr 1
      omega
    case isFalse hlt =>
      have hle := BitVec.le_of_lt (BitVec.not_le.mp hlt)
      have hlt' := BitVec.lt_def.mp (BitVec.not_le.mp hlt)
      rw [Uint.checkedSub_of_le hle, Option.bind_eq_bind, Option.bind_some,
        checkedNeg_mk (by rw [BitVec.toNat_sub_of_le hle]; omega), BitVec.toNat_sub_of_le hle]
      congr 1
      omega

/-- `checked_sub` is the exact difference on the symmetric range. -/
theorem checkedSub_eq : a.checkedSub b = ofInt (a.value - b.value) := by
  have hneg : ofInt (-b.value) = some ⟨BitVec.ofInt 256 (-b.value)⟩ :=
    if_pos (by rw [Int.natAbs_neg]; exact hb.natAbs_value_le)
  obtain ⟨-, hcanonical, hvalue⟩ := ofInt_eq_some_iff.mp hneg
  rw [checkedSub, checkedNeg_eq hb, hneg, Option.bind_eq_bind, Option.bind_some,
    checkedAdd_eq ha hcanonical, hvalue, sub_eq_add_neg]

/-- `checked_mul` is the exact product on the symmetric range. -/
theorem checkedMul_eq : a.checkedMul b = ofInt (a.value * b.value) := by
  have hmagnitude : (a.value * b.value).natAbs = a.abs.toNat * b.abs.toNat := by
    rw [Int.natAbs_mul, ha.abs_toNat, hb.abs_toNat]
  have hmax : Amount.maxSigned.raw.toNat = maxSignedValue := Amount.maxSigned_toNat
  unfold checkedMul
  by_cases hfit : a.abs.toNat * b.abs.toNat < 2 ^ 256
  · rw [Uint.checkedMul_of_lt hfit, Option.bind_eq_bind, Option.bind_some, tryFrom]
    by_cases hcap : a.abs * b.abs ≤ Amount.maxSigned.raw
    · -- the product fits: its sign is put back
      have hinner : (a.abs * b.abs).toNat ≤ maxSignedValue := by
        rw [← hmax]
        exact BitVec.le_def.mp hcap
      rw [if_pos hcap, Option.bind_eq_bind, Option.bind_some, signed_mk _ hinner, Uint.toNat_mul_of_lt hfit, ha.value_eq,
        hb.value_eq, signed_mul]
    · have hover : maxSignedValue < (a.value * b.value).natAbs := by
        rw [hmagnitude, ← Uint.toNat_mul_of_lt hfit, ← hmax]
        exact BitVec.lt_def.mp (BitVec.not_le.mp hcap)
      rw [if_neg hcap, Option.bind_eq_bind, Option.bind_none, ofInt_of_lt hover]
  · have hover : maxSignedValue < (a.value * b.value).natAbs := by
      rw [hmagnitude]
      unfold maxSignedValue
      omega
    rw [Uint.checkedMul_of_not_lt hfit, Option.bind_eq_bind, Option.bind_none, ofInt_of_lt hover]

/-- `checked_div` is the quotient truncated toward zero, none for a zero divisor. -/
theorem checkedDiv_eq :
    a.checkedDiv b = if b.value = 0 then none else ofInt (a.value.tdiv b.value) := by
  unfold checkedDiv
  by_cases hzero : b.value = 0
  · rw [if_pos (isZero_iff.mpr hzero), if_pos hzero]
  · have hdivisor : b.abs.toNat ≠ 0 := by
      rw [hb.abs_toNat]
      exact Int.natAbs_ne_zero.mpr hzero
    have hquot : a.abs.toNat / b.abs.toNat ≤ maxSignedValue :=
      Nat.le_trans (Nat.div_le_self _ _) ha.abs_toNat_le
    have hquotNat : (BitVec.ofNat 256 (a.abs.toNat / b.abs.toNat)).toNat = a.abs.toNat / b.abs.toNat := by
      rw [BitVec.toNat_ofNat]
      exact Nat.mod_eq_of_lt (Nat.lt_of_le_of_lt (Nat.div_le_self _ _) a.abs.isLt)
    rw [if_neg (fun hisZero => hzero (isZero_iff.mp hisZero)), if_neg hzero,
      fixedPrecisionDiv_zero hdivisor a.abs.isLt, Option.getD_some]
    dsimp only
    rw [ite_beq_swap, signed_mk _ (by rw [hquotNat]; exact hquot), hquotNat, ha.value_eq, hb.value_eq,
      signed_tdiv]

/-- `checked_rem` is the truncated remainder, with the dividend's sign, none for
a zero divisor. -/
theorem checkedRem_eq :
    a.checkedRem b = if b.value = 0 then none else ofInt (a.value.tmod b.value) := by
  unfold checkedRem
  by_cases hzero : b.value = 0
  · have habs : b.abs = 0 := by
      apply BitVec.eq_of_toNat_eq
      simp [hb.abs_toNat, hzero]
    rw [if_pos hzero, habs]
    rfl
  · have hdivisor : b.abs ≠ 0 := fun habs => by
      have hnat := hb.abs_toNat
      rw [habs] at hnat
      exact hzero (Int.natAbs_eq_zero.mp (by simpa using hnat.symm))
    have hrem : (a.abs % b.abs).toNat ≤ maxSignedValue := by
      rw [BitVec.toNat_umod]
      exact Nat.le_trans (Nat.mod_le _ _) ha.abs_toNat_le
    rw [if_neg hzero, Uint.checkedRem_of_ne hdivisor, Option.bind_eq_bind, Option.bind_some,
      signed_mk _ hrem, BitVec.toNat_umod, ha.value_eq, hb.value_eq, signed_tmod]

end Operations

/-! ### `Dec` over its `I256` -/

/-- The `Dec` of `Namada.Core.Dec` that `Dec(self)` is: the integer of the bits. -/
def toDec (self : I256) : Dec := ⟨self.value⟩

theorem toDec_of_ofInt {z : ℤ} {r : I256} (hr : ofInt z = some r) : r.toDec = ⟨z⟩ := by
  rw [toDec, (ofInt_eq_some_iff.mp hr).2.2]

theorem tryFrom_of_le {value : BitVec 256} (hvalue : value.toNat ≤ maxSignedValue) :
    tryFrom value = some ⟨value⟩ :=
  if_pos (BitVec.le_def.mpr (by rw [Amount.maxSigned_toNat]; exact hvalue))

/-- `I256::try_from` gives no minus zero. -/
theorem tryFrom_canonical {value : BitVec 256} {r : I256} (hr : tryFrom value = some r) :
    r.Canonical := by
  unfold tryFrom at hr
  split at hr
  case isTrue hle =>
    cases hr
    have hvalue : value.toNat ≤ maxSignedValue := by
      have hmax : Amount.maxSigned.raw.toNat = maxSignedValue := Amount.maxSigned_toNat
      rw [← hmax]
      exact BitVec.le_def.mp hle
    exact (ofInt_eq_some_iff.mp (ofInt_toNat hvalue)).2.1
  case isFalse => cases hr

/-- Negation gives no minus zero. -/
theorem checkedNeg_canonical {r : I256} (ha : a.Canonical) (hr : a.checkedNeg = some r) :
    r.Canonical := by
  rw [checkedNeg_eq ha] at hr
  exact (ofInt_eq_some_iff.mp hr).2.1

theorem map_toDec_ofInt (z : ℤ) :
    (ofInt z).map toDec = if z.natAbs ≤ maxSignedValue then some ⟨z⟩ else none := by
  unfold ofInt
  split
  case isTrue hz => rw [Option.map_some, toDec, value, toInt_ofInt_of_le hz]
  case isFalse => rfl

/-- `Dec::checked_add`, the `I256` sum wrapped, is `Dec.checkedAdd` of the integers. -/
theorem checkedAdd_toDec (ha : a.Canonical) (hb : b.Canonical) :
    (a.checkedAdd b).map toDec = a.toDec.checkedAdd b.toDec := by
  rw [checkedAdd_eq ha hb, map_toDec_ofInt]
  rfl

/-- `Dec::checked_sub`, the `I256` difference wrapped, is `Dec.checkedSub` of the integers. -/
theorem checkedSub_toDec (ha : a.Canonical) (hb : b.Canonical) :
    (a.checkedSub b).map toDec = a.toDec.checkedSub b.toDec := by
  rw [checkedSub_eq ha hb, map_toDec_ofInt, sub_eq_add_neg]
  rfl

end I256

/-- On canonical values every checked operation of `I256` is the integer
operation, kept exactly when the result is a canonical value: `checked_div` and
`checked_rem` truncate toward zero and fail on a zero divisor. -/
theorem i256_checked_ops_exact (a b : I256) (ha : a.Canonical) (hb : b.Canonical) :
    a.checkedAdd b = I256.ofInt (a.value + b.value) ∧
      a.checkedSub b = I256.ofInt (a.value - b.value) ∧
      a.checkedMul b = I256.ofInt (a.value * b.value) ∧
      a.checkedNeg = I256.ofInt (-a.value) ∧
      a.checkedDiv b = (if b.value = 0 then none else I256.ofInt (a.value.tdiv b.value)) ∧
      a.checkedRem b = (if b.value = 0 then none else I256.ofInt (a.value.tmod b.value)) ∧
      ∀ (z : ℤ) (r : I256), I256.ofInt z = some r ↔
        z.natAbs ≤ maxSignedValue ∧ r.Canonical ∧ r.value = z :=
  ⟨I256.checkedAdd_eq ha hb, I256.checkedSub_eq ha hb, I256.checkedMul_eq ha hb,
    I256.checkedNeg_eq ha, I256.checkedDiv_eq ha hb, I256.checkedRem_eq ha hb,
    fun _ _ => I256.ofInt_eq_some_iff⟩

/-- Minus seven and two. -/
theorem i256_checked_ops_exact_seven_two :
    (⟨BitVec.ofInt 256 (-7)⟩ : I256).Canonical ∧ (⟨BitVec.ofInt 256 2⟩ : I256).Canonical ∧
      ((⟨BitVec.ofInt 256 (-7)⟩ : I256).checkedAdd ⟨BitVec.ofInt 256 2⟩ =
          I256.ofInt ((⟨BitVec.ofInt 256 (-7)⟩ : I256).value + (⟨BitVec.ofInt 256 2⟩ : I256).value) ∧
        (⟨BitVec.ofInt 256 (-7)⟩ : I256).checkedSub ⟨BitVec.ofInt 256 2⟩ =
          I256.ofInt ((⟨BitVec.ofInt 256 (-7)⟩ : I256).value - (⟨BitVec.ofInt 256 2⟩ : I256).value) ∧
        (⟨BitVec.ofInt 256 (-7)⟩ : I256).checkedMul ⟨BitVec.ofInt 256 2⟩ =
          I256.ofInt ((⟨BitVec.ofInt 256 (-7)⟩ : I256).value * (⟨BitVec.ofInt 256 2⟩ : I256).value) ∧
        (⟨BitVec.ofInt 256 (-7)⟩ : I256).checkedNeg =
          I256.ofInt (-(⟨BitVec.ofInt 256 (-7)⟩ : I256).value) ∧
        (⟨BitVec.ofInt 256 (-7)⟩ : I256).checkedDiv ⟨BitVec.ofInt 256 2⟩ =
          (if (⟨BitVec.ofInt 256 2⟩ : I256).value = 0 then none
            else I256.ofInt ((⟨BitVec.ofInt 256 (-7)⟩ : I256).value.tdiv
              (⟨BitVec.ofInt 256 2⟩ : I256).value)) ∧
        (⟨BitVec.ofInt 256 (-7)⟩ : I256).checkedRem ⟨BitVec.ofInt 256 2⟩ =
          (if (⟨BitVec.ofInt 256 2⟩ : I256).value = 0 then none
            else I256.ofInt ((⟨BitVec.ofInt 256 (-7)⟩ : I256).value.tmod
              (⟨BitVec.ofInt 256 2⟩ : I256).value)) ∧
        ∀ (z : ℤ) (r : I256), I256.ofInt z = some r ↔
          z.natAbs ≤ maxSignedValue ∧ r.Canonical ∧ r.value = z) :=
  ⟨by decide, by decide, i256_checked_ops_exact _ _ (by decide) (by decide)⟩

end Namada.Core
