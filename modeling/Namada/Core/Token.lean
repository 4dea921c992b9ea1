/-
# Token amounts of `namada_core`

`token.rs`: an `Amount` is a 256-bit unsigned integer (`Uint`, four 64-bit
words) ordered as its value, with checked arithmetic that returns `None` on
overflow and underflow. As a key segment an amount writes the base32hex of its
32 big-endian bytes; parsing reads the decoded bytes big-endian
(`Uint::from_big_endian`, which panics beyond 32 bytes).
-/

import Namada.Core.Storage

namespace Namada.Core

open Namada.Math

/-- `Amount`: an amount in micro units. -/
structure Amount where
  raw : BitVec 256
  deriving DecidableEq

namespace Amount

instance : LT Amount := ⟨fun first second => first.raw < second.raw⟩

instance : LE Amount := ⟨fun first second => first.raw ≤ second.raw⟩

instance (first second : Amount) : Decidable (first < second) :=
  inferInstanceAs (Decidable (first.raw < second.raw))

instance (first second : Amount) : Decidable (first ≤ second) :=
  inferInstanceAs (Decidable (first.raw ≤ second.raw))

theorem lt_iff_toNat_lt {first second : Amount} :
    first < second ↔ first.raw.toNat < second.raw.toNat := BitVec.lt_def

theorem le_iff_toNat_le {first second : Amount} :
    first ≤ second ↔ first.raw.toNat ≤ second.raw.toNat := BitVec.le_def

/-- `Amount::zero`. -/
def zero : Amount := ⟨0⟩

theorem eq_zero_of_toNat_eq_zero {amount : Amount} (hzero : amount.raw.toNat = 0) :
    amount = zero := by
  cases amount with
  | mk raw =>
      have hraw : raw = 0 := BitVec.eq_of_toNat_eq (by simpa using hzero)
      rw [hraw]
      rfl

/-- An amount is the one made from its value. -/
theorem eq_mk_ofNat_of_toNat_eq {amount : Amount} {value : ℕ} (hvalue : amount.raw.toNat = value) :
    amount = ⟨BitVec.ofNat 256 value⟩ := by
  cases amount with
  | mk raw =>
      congr
      apply BitVec.eq_of_toNat_eq
      rw [BitVec.toNat_ofNat, ← hvalue, Nat.mod_eq_of_lt raw.isLt]

/-- `uint::MAX_SIGNED_VALUE`, whose words, least significant first, are
`[u64::MAX, u64::MAX, u64::MAX, 2^63 - 1]`. -/
def maxSigned : Amount :=
  ⟨BitVec.ofNat 256 (ofDigitsBE (2 ^ 64)
    [9223372036854775807, 18446744073709551615, 18446744073709551615, 18446744073709551615])⟩

theorem maxSigned_toNat : maxSigned.raw.toNat = 2 ^ 255 - 1 := by decide

/-- `Amount::checked_add`. -/
def checkedAdd (first second : Amount) : Option Amount :=
  if first.raw.toNat + second.raw.toNat < 2 ^ 256 then some ⟨first.raw + second.raw⟩ else none

/-- `Amount::checked_sub`. -/
def checkedSub (first second : Amount) : Option Amount :=
  if second.raw ≤ first.raw then some ⟨first.raw - second.raw⟩ else none

theorem checkedAdd_of_lt {first second : Amount}
    (hfit : first.raw.toNat + second.raw.toNat < 2 ^ 256) :
    first.checkedAdd second = some ⟨first.raw + second.raw⟩ := if_pos hfit

theorem checkedAdd_of_not_lt {first second : Amount}
    (hfit : ¬first.raw.toNat + second.raw.toNat < 2 ^ 256) : first.checkedAdd second = none :=
  if_neg hfit

/-- A sum that fits is the sum of the values. -/
theorem toNat_add_of_lt {first second : Amount}
    (hfit : first.raw.toNat + second.raw.toNat < 2 ^ 256) :
    (first.raw + second.raw).toNat = first.raw.toNat + second.raw.toNat := by
  rw [BitVec.toNat_add, Nat.mod_eq_of_lt hfit]

/-- A checked sum that succeeds is the sum of the values. -/
theorem toNat_of_checkedAdd {first second sum : Amount} (hsum : first.checkedAdd second = some sum) :
    sum.raw.toNat = first.raw.toNat + second.raw.toNat := by
  by_cases hfit : first.raw.toNat + second.raw.toNat < 2 ^ 256
  · rw [checkedAdd_of_lt hfit] at hsum
    cases hsum
    exact toNat_add_of_lt hfit
  · rw [checkedAdd_of_not_lt hfit] at hsum
    cases hsum

theorem checkedSub_of_le {first second : Amount} (hle : second ≤ first) :
    first.checkedSub second = some ⟨first.raw - second.raw⟩ := if_pos hle

theorem checkedSub_of_not_le {first second : Amount} (hle : ¬second ≤ first) :
    first.checkedSub second = none := if_neg hle

theorem toNat_sub_of_le {first second : Amount} (hle : second ≤ first) :
    (first.raw - second.raw).toNat = first.raw.toNat - second.raw.toNat :=
  BitVec.toNat_sub_of_le hle

theorem eq_of_toNat_eq {first second : Amount} (hvalue : first.raw.toNat = second.raw.toNat) :
    first = second := by
  cases first
  cases second
  congr
  exact BitVec.eq_of_toNat_eq hvalue

/-- `checked_sub(..).unwrap_or_default()`: the difference, or zero below zero. -/
def subOrZero (first second : Amount) : Amount := (first.checkedSub second).getD zero

@[simp] theorem toNat_subOrZero (first second : Amount) :
    (first.subOrZero second).raw.toNat = first.raw.toNat - second.raw.toNat := by
  unfold subOrZero
  by_cases hle : second ≤ first
  · rw [checkedSub_of_le hle]
    exact toNat_sub_of_le hle
  · rw [checkedSub_of_not_le hle]
    have hlt := le_iff_toNat_le.not.mp hle
    have hzero : zero.raw.toNat = 0 := rfl
    rw [Option.getD_none, hzero]
    omega

@[simp] theorem subOrZero_zero (amount : Amount) : amount.subOrZero zero = amount :=
  eq_of_toNat_eq (by rw [toNat_subOrZero]; exact Nat.sub_zero _)

/-- `Amount::sum`: a sum checked at every step. -/
def sum (amounts : List Amount) : Option Amount := amounts.foldlM checkedAdd zero

/-- A checked sum that fits is the sum of the values. -/
theorem foldlM_checkedAdd_of_lt :
    ∀ {amounts : List Amount} {acc : Amount},
      acc.raw.toNat + (amounts.map fun amount => amount.raw.toNat).sum < 2 ^ 256 →
      ∃ total, amounts.foldlM checkedAdd acc = some total ∧
        total.raw.toNat = acc.raw.toNat + (amounts.map fun amount => amount.raw.toNat).sum
  | [], acc, _ => ⟨acc, rfl, by simp⟩
  | amount :: rest, acc, hfit => by
      rw [List.map_cons, List.sum_cons] at hfit
      have hhead : acc.raw.toNat + amount.raw.toNat < 2 ^ 256 := by omega
      obtain ⟨total, htotal, hvalue⟩ :=
        foldlM_checkedAdd_of_lt (by rw [toNat_add_of_lt hhead]; omega :
          (acc.raw + amount.raw).toNat + (rest.map fun amount => amount.raw.toNat).sum < 2 ^ 256)
      refine ⟨total, ?_, ?_⟩
      · rw [List.foldlM_cons, checkedAdd_of_lt hhead]
        exact htotal
      · rw [hvalue, toNat_add_of_lt hhead, List.map_cons, List.sum_cons]
        omega

/-- A checked sum that does not fit fails at some step. -/
theorem foldlM_checkedAdd_of_not_lt :
    ∀ {amounts : List Amount} {acc : Amount},
      ¬acc.raw.toNat + (amounts.map fun amount => amount.raw.toNat).sum < 2 ^ 256 →
      amounts.foldlM checkedAdd acc = none
  | [], acc, hfit => absurd (by simpa using acc.raw.isLt) hfit
  | amount :: rest, acc, hfit => by
      rw [List.map_cons, List.sum_cons] at hfit
      rw [List.foldlM_cons]
      by_cases hhead : acc.raw.toNat + amount.raw.toNat < 2 ^ 256
      · rw [checkedAdd_of_lt hhead]
        exact foldlM_checkedAdd_of_not_lt (by rw [toNat_add_of_lt hhead]; omega)
      · rw [checkedAdd_of_not_lt hhead]
        rfl

/-- The sum of one amount is that amount. -/
@[simp] theorem sum_singleton (amount : Amount) : sum [amount] = some amount := by
  have hzero : zero.raw.toNat = 0 := rfl
  obtain ⟨total, htotal, hvalue⟩ := foldlM_checkedAdd_of_lt
    (by simpa [hzero] using amount.raw.isLt : zero.raw.toNat + ([amount].map fun amount => amount.raw.toNat).sum < 2 ^ 256)
  have htotalEq : total = amount := eq_of_toNat_eq (by simpa [hzero] using hvalue)
  rw [sum, htotal, htotalEq]

/-- The key segment string of an amount (`KeySeg::raw`). -/
def rawSegment (amount : Amount) : String := Base32Hex.encode (toBytesBE 32 amount.raw.toNat)

/-- `Amount::parse` of `KeySeg`. -/
def parseSegment (string : String) : Except Error Amount :=
  match Base32Hex.decode string with
  | none => .error (.parseKeySeg string)
  | some bytes =>
      if bytes.length ≤ 32 then .ok ⟨BitVec.ofNat 256 (bytesValue bytes)⟩ else .error .panic

theorem parseSegment_rawSegment (amount : Amount) :
    parseSegment (rawSegment amount) = .ok amount := by
  have hlt : amount.raw.toNat < 256 ^ 32 := amount.raw.isLt
  have hlength : (toBytesBE 32 amount.raw.toNat).length ≤ 32 := by rw [length_toBytesBE]
  have hvalue : BitVec.ofNat 256 (bytesValue (toBytesBE 32 amount.raw.toNat)) = amount.raw := by
    rw [bytesValue_toBytesBE, Nat.mod_eq_of_lt hlt, BitVec.ofNat_toNat, BitVec.setWidth_eq]
  rw [parseSegment, rawSegment, Base32Hex.decode_encode]
  simp only [if_pos hlength, hvalue]

theorem rawSegment_lt_iff (first second : Amount) :
    rawSegment first < rawSegment second ↔ first < second := by
  have hfirst : first.raw.toNat < 256 ^ 32 := first.raw.isLt
  have hsecond : second.raw.toNat < 256 ^ 32 := second.raw.isLt
  have hlength : (toBytesBE 32 first.raw.toNat).length = (toBytesBE 32 second.raw.toNat).length := by
    rw [length_toBytesBE, length_toBytesBE]
  rw [rawSegment, rawSegment, Base32Hex.encode_lt_encode_iff hlength, bytesValue_toBytesBE,
    bytesValue_toBytesBE, Nat.mod_eq_of_lt hfirst, Nat.mod_eq_of_lt hsecond, lt_iff_toNat_lt]

/-- `Amount::parse` panics exactly on a string that decodes to more than 32
bytes: `Uint::from_big_endian` fills a `U256` from at most 32. -/
theorem parseSegment_eq_panic_iff (string : String) :
    parseSegment string = .error .panic ↔
      ∃ bytes, Base32Hex.decode string = some bytes ∧ 32 < bytes.length := by
  unfold parseSegment
  cases hdecode : Base32Hex.decode string with
  | none => simp
  | some bytes =>
      by_cases hlength : bytes.length ≤ 32
      · simp [hlength]
      · simp [hlength, Nat.lt_of_not_le hlength]

/-- Fewer than 32 bytes parse to an amount, though no amount writes them: its
segment is the base32hex of all 32 of its bytes. -/
theorem parseSegment_encode_of_lt {bytes : List UInt8} (hlength : bytes.length < 32) :
    parseSegment (Base32Hex.encode bytes) = .ok ⟨BitVec.ofNat 256 (bytesValue bytes)⟩ ∧
      ∀ amount : Amount, amount.rawSegment ≠ Base32Hex.encode bytes := by
  constructor
  · rw [parseSegment, Base32Hex.decode_encode]
    exact if_pos hlength.le
  · intro amount hraw
    have hdecode := congrArg Base32Hex.decode hraw
    rw [rawSegment, Base32Hex.decode_encode, Base32Hex.decode_encode] at hdecode
    have hlengths := congrArg List.length (Option.some.inj hdecode)
    rw [length_toBytesBE] at hlengths
    omega

end Amount

/-- `impl KeySeg for Amount`. -/
def KeySeg.amount {Address : Type} : KeySeg Address Amount where
  parse := Amount.parseSegment
  raw amount := pure amount.rawSegment
  toDbKey amount := pure (.stringSeg amount.rawSegment)

end Namada.Core
