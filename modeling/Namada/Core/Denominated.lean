/-
# Denominated amounts of `namada_core`

`token.rs`: a `DenominatedAmount` is an `Amount` counted in units of
`10^-denom`, with a `u8` denomination. Its precise string writes the amount's
decimal digits with a point before the last `denom` of them, padding with
zeros; its `Display` string drops the zeros that end the fraction and a bare
point; `FromStr` reads at most 77 digits around at most one point. Two
denominated amounts compare by scaling one to the other's denomination, and an
`Amount` serializes as its decimal digits and deserializes through
`DenominatedAmount::from_str(..).unwrap()`.

Strings are lists of characters; `str::len` and `str::find` count UTF-8
bytes. `char::is_numeric` followed by `to_digit(10)` keeps exactly the ASCII
digits, since `to_digit(10)` gives a value for those only.
-/

import Mathlib
import Namada.Core.Token
import Namada.Math.Decimal

namespace Namada.Core

open Namada.Math

/-- `AmountParseError`, the variants `FromStr for DenominatedAmount` returns. -/
inductive AmountParseError
  | scaleTooLarge (found limit : ℕ)
  | invalidRange
  | precisionOverflow
  | notNumeric
  deriving DecidableEq

/-- `DenominatedAmount`: an amount of units of `10^-denom`. -/
structure DenominatedAmount where
  amount : Amount
  denom : UInt8
  deriving DecidableEq

/-- The result of a checked `Uint` operation whose exact value is `value`. -/
def uintChecked (value : ℕ) : Option ℕ := if value < 2 ^ 256 then some value else none

/-- `str::find`: the byte offset of the first occurrence of a character. -/
def findByte (target : Char) : List Char → Option ℕ
  | [] => none
  | c :: rest => if c = target then some 0 else (findByte target rest).map (c.utf8Size + ·)

namespace DenominatedAmount

/-- The body of `to_string_precise` after the digits are printed: a point
before the last `decimals` of them, or `0.` and zeros before them all. -/
def insertPoint (decimals : ℕ) (string : List Char) : List Char :=
  if decimals = 0 then string
  else if decimals < string.length then
    string.take (string.length - decimals) ++ '.' :: string.drop (string.length - decimals)
  else '0' :: '.' :: (List.replicate (decimals - string.length) '0' ++ string)

/-- `DenominatedAmount::to_string_precise`. -/
def toStringPrecise (self : DenominatedAmount) : List Char :=
  insertPoint self.denom.toNat (Nat.toDigits 10 self.amount.raw.toNat)

/-- `Display for DenominatedAmount`. -/
def toString (self : DenominatedAmount) : List Char :=
  let string := self.toStringPrecise
  let string := if 0 < self.denom.toNat then trimEnd '0' string else string
  trimEnd '.' string

/-- The loop of `DenominatedAmount::canonical`, `rounds` times: a value that
ends in zero loses it and a decimal place. -/
def stripTrailingZeros : ℕ → ℕ × ℕ → ℕ × ℕ
  | 0, state => state
  | rounds + 1, state =>
      stripTrailingZeros rounds (if state.1 % 10 = 0 then (state.1 / 10, state.2 - 1) else state)

/-- `DenominatedAmount::canonical`: as many rounds as there are decimal places. -/
def canonical (self : DenominatedAmount) : DenominatedAmount :=
  let stripped := stripTrailingZeros self.denom.toNat (self.amount.raw.toNat, self.denom.toNat)
  ⟨⟨BitVec.ofNat 256 stripped.1⟩, UInt8.ofNat stripped.2⟩

/-- The loop of `from_str` over the digits, least significant first: the digit
at `pow` adds `10^pow * digit`, each operation checked. -/
def accumulateDigits (pow value : ℕ) : List ℕ → Except AmountParseError ℕ
  | [] => .ok value
  | digit :: rest =>
      match (uintChecked (10 ^ pow)).bind fun scaling =>
          (uintChecked (scaling * digit)).bind fun scaled => uintChecked (value + scaled) with
      | some next => accumulateDigits (pow + 1) next rest
      | none => .error .invalidRange

/-- `FromStr for DenominatedAmount`. -/
def fromStr (s : List Char) : Except AmountParseError DenominatedAmount := do
  let precision := (findByte '.' s).map fun pos => byteLength s - (pos + 1)
  let digits := (s.filterMap toDigit).reverse
  if digits.length ≠ byteLength s ∧ precision.isNone ∨
      digits.length ≠ byteLength s - 1 ∧ precision.isSome then
    throw .notNumeric
  if 77 < digits.length then throw (.scaleTooLarge digits.length 77)
  let value ← accumulateDigits 0 0 digits
  let denom := precision.getD 0
  if denom < 256 then pure ⟨⟨BitVec.ofNat 256 value⟩, UInt8.ofNat denom⟩
  else throw .precisionOverflow

/-- `Uint::exp10`, whose multiplications panic (`none`) past `U256`. -/
def exp10 (exponent : ℕ) : Option ℕ := uintChecked (10 ^ exponent)

/-- The quotient rounded up, as `Ord for DenominatedAmount` computes it:
`div.checked_add(1).unwrap_or(Uint::MAX)` when the remainder is not zero. -/
def divCeil (div rem : ℕ) : ℕ :=
  if rem = 0 then div else if div + 1 < 2 ^ 256 then div + 1 else 2 ^ 256 - 1

/-- `Ord for DenominatedAmount`; `none` where `Uint::exp10` panics. -/
def cmp (self other : DenominatedAmount) : Option Ordering :=
  if self.denom < other.denom then do
    let scale ← exp10 (other.denom - self.denom).toNat
    let div := other.amount.raw.toNat / scale
    let rem := other.amount.raw.toNat % scale
    let ord := compare self.amount.raw.toNat (divCeil div rem)
    pure (if ord = .eq then (if rem = 0 then .eq else .gt) else ord)
  else do
    let scale ← exp10 (self.denom - other.denom).toNat
    let div := self.amount.raw.toNat / scale
    let rem := self.amount.raw.toNat % scale
    let ord := compare (divCeil div rem) other.amount.raw.toNat
    pure (if ord = .eq then (if rem = 0 then .eq else .lt) else ord)

/-- The number a denominated amount stands for. -/
def value (self : DenominatedAmount) : ℚ := (self.amount.raw.toNat : ℚ) / 10 ^ self.denom.toNat

end DenominatedAmount

/-! ## Reading digits -/

theorem uintChecked_of_lt {value : ℕ} (hfit : value < 2 ^ 256) : uintChecked value = some value :=
  if_pos hfit

theorem uintChecked_eq_some {value result : ℕ} (hchecked : uintChecked value = some result) :
    result = value := by
  unfold uintChecked at hchecked
  split_ifs at hchecked
  exact (Option.some.inj hchecked).symm

/-- Powers of ten up to the 76th fit in `U256`. -/
theorem ten_pow_lt {pow : ℕ} (hpow : pow ≤ 76) : 10 ^ pow < 2 ^ 256 :=
  Nat.lt_of_le_of_lt (Nat.pow_le_pow_right (by decide) hpow) (by decide)

theorem findByte_of_forall_ne {target : Char} :
    ∀ {chars : List Char}, (∀ c ∈ chars, c ≠ target) → findByte target chars = none
  | [], _ => rfl
  | c :: rest, hne => by
      rw [findByte, if_neg (hne c List.mem_cons_self),
        findByte_of_forall_ne fun other hother => hne other (List.mem_cons_of_mem _ hother)]
      rfl

/-- The first occurrence of a character is after the bytes before it. -/
theorem findByte_append_cons {target : Char} :
    ∀ {int : List Char}, (∀ c ∈ int, c ≠ target) → ∀ rest,
      findByte target (int ++ target :: rest) = some (byteLength int)
  | [], _, rest => by simp [findByte, byteLength]
  | c :: int, hne, rest => by
      rw [List.cons_append, findByte, if_neg (hne c List.mem_cons_self),
        findByte_append_cons (fun other hother => hne other (List.mem_cons_of_mem _ hother)) rest]
      simp [byteLength]

theorem ne_point_of_isDigit {c : Char} (hc : c.isDigit = true) : c ≠ '.' := by
  rintro rfl
  cases hc

namespace DenominatedAmount

/-- Whatever the loop of `from_str` returns is the number of its digits placed
at `pow` and added to `value`. -/
theorem accumulateDigits_eq_ok : ∀ {pow value result : ℕ} {digits : List ℕ},
    accumulateDigits pow value digits = .ok result →
      result = value + 10 ^ pow * Nat.ofDigits 10 digits
  | _, value, _, [], hdone => by
      cases hdone
      simp
  | pow, value, result, digit :: rest, hdone => by
      unfold accumulateDigits at hdone
      split at hdone
      · rename_i next hstep
        obtain ⟨scaling, hscaling, hstep⟩ := Option.bind_eq_some_iff.mp hstep
        obtain ⟨scaled, hscaled, hnext⟩ := Option.bind_eq_some_iff.mp hstep
        rw [uintChecked_eq_some hnext, uintChecked_eq_some hscaled, uintChecked_eq_some hscaling]
          at hdone
        rw [accumulateDigits_eq_ok hdone, Nat.ofDigits_cons]
        ring
      · cases hdone

/-- The loop of `from_str` succeeds when no digit sits past the 77th place and
the number fits. -/
theorem accumulateDigits_of_lt : ∀ {pow value : ℕ} {digits : List ℕ},
    pow + digits.length ≤ 77 → value + 10 ^ pow * Nat.ofDigits 10 digits < 2 ^ 256 →
      accumulateDigits pow value digits = .ok (value + 10 ^ pow * Nat.ofDigits 10 digits)
  | _, value, [], _, _ => by simp [accumulateDigits]
  | pow, value, digit :: rest, hlength, hfit => by
      rw [List.length_cons] at hlength
      have hscaling : 10 ^ pow < 2 ^ 256 := ten_pow_lt (by omega)
      -- the digit's part is at most the whole
      have hpart : 10 ^ pow * digit ≤ 10 ^ pow * Nat.ofDigits 10 (digit :: rest) := by
        rw [Nat.ofDigits_cons]
        exact Nat.mul_le_mul_left _ (Nat.le_add_right _ _)
      have hnext : value + 10 ^ pow * digit < 2 ^ 256 := by omega
      have hstep : ((uintChecked (10 ^ pow)).bind fun scaling => (uintChecked (scaling * digit)).bind
          fun scaled => uintChecked (value + scaled)) = some (value + 10 ^ pow * digit) := by
        rw [uintChecked_of_lt hscaling, Option.bind_some, uintChecked_of_lt (by omega),
          Option.bind_some, uintChecked_of_lt hnext]
      -- the rest sits one place higher
      have hsum : value + 10 ^ pow * digit + 10 ^ (pow + 1) * Nat.ofDigits 10 rest =
          value + 10 ^ pow * Nat.ofDigits 10 (digit :: rest) := by
        rw [Nat.ofDigits_cons]
        ring
      rw [accumulateDigits, hstep]
      dsimp only
      rw [accumulateDigits_of_lt (by omega) (by rw [hsum]; exact hfit), hsum]

/-- The loop of `from_str` reads at most 77 digits to their number. -/
theorem accumulateDigits_filterMap {chars : List Char} (hcount : (chars.filterMap toDigit).length ≤ 77) :
    accumulateDigits 0 0 (chars.filterMap toDigit).reverse =
      .ok (Nat.ofDigits 10 (chars.filterMap toDigit).reverse) := by
  have hfit : 0 + 10 ^ 0 * Nat.ofDigits 10 (chars.filterMap toDigit).reverse < 2 ^ 256 := by
    have hlt := ofDigits_filterMap_lt chars
    have hpow : 10 ^ (chars.filterMap toDigit).length ≤ 10 ^ 77 := Nat.pow_le_pow_right (by decide) hcount
    have hbig : (10 : ℕ) ^ 77 < 2 ^ 256 := by decide
    omega
  rw [accumulateDigits_of_lt (by rw [List.length_reverse]; omega) hfit, Nat.pow_zero, Nat.one_mul,
    Nat.zero_add]

/-- A string of at most 77 digits reads as its number, with no decimal places. -/
theorem fromStr_digits {digits : List Char} (hdigits : ∀ c ∈ digits, c.isDigit = true)
    (hlength : digits.length ≤ 77) :
    fromStr digits = .ok ⟨⟨BitVec.ofNat 256 (Nat.ofDigits 10 (digits.filterMap toDigit).reverse)⟩, 0⟩ := by
  have hfind : findByte '.' digits = none :=
    findByte_of_forall_ne fun c hc => ne_point_of_isDigit (hdigits c hc)
  have hcount := length_filterMap_of_isDigit hdigits
  have hbytes := byteLength_of_isDigit hdigits
  have hvalue := accumulateDigits_filterMap (hcount ▸ hlength)
  unfold fromStr
  simp only [hfind, Option.map_none, List.length_reverse, hcount, hbytes, hvalue, Option.isNone_none,
    Option.isSome_none, Option.getD_none, ne_eq, not_true_eq_false, false_and, false_or,
    Bool.false_eq_true, and_false, if_false, if_neg (Nat.not_lt.mpr hlength), ok_bind,
    if_pos (by decide : (0 : ℕ) < 256)]
  rfl

/-- Digits around one point read as the number of all the digits, with as many
decimal places as digits after the point. -/
theorem fromStr_point {int frac : List Char} (hint : ∀ c ∈ int, c.isDigit = true)
    (hfrac : ∀ c ∈ frac, c.isDigit = true) (hlength : int.length + frac.length ≤ 77) :
    fromStr (int ++ '.' :: frac) =
      .ok ⟨⟨BitVec.ofNat 256 (Nat.ofDigits 10 ((int ++ frac).filterMap toDigit).reverse)⟩,
        UInt8.ofNat frac.length⟩ := by
  have hdigits : ∀ c ∈ int ++ frac, c.isDigit = true := by
    intro c hc
    rcases List.mem_append.mp hc with hc | hc
    · exact hint c hc
    · exact hfrac c hc
  have hfind : findByte '.' (int ++ '.' :: frac) = some int.length := by
    rw [findByte_append_cons (fun c hc => ne_point_of_isDigit (hint c hc)), byteLength_of_isDigit hint]
  have hbytes : byteLength (int ++ '.' :: frac) = int.length + frac.length + 1 := by
    rw [byteLength_append, byteLength_of_isDigit hint, byteLength, List.map_cons, List.sum_cons,
      ← byteLength, byteLength_of_isDigit hfrac, show ('.' : Char).utf8Size = 1 from rfl]
    omega
  have hfilter : (int ++ '.' :: frac).filterMap toDigit = (int ++ frac).filterMap toDigit := by
    rw [List.filterMap_append, List.filterMap_cons_none (toDigit_of_not_isDigit (by decide)),
      List.filterMap_append]
  have hcount : ((int ++ frac).filterMap toDigit).length = int.length + frac.length := by
    rw [length_filterMap_of_isDigit hdigits, List.length_append]
  have hvalue := accumulateDigits_filterMap (hcount ▸ hlength)
  have hprecision : int.length + frac.length + 1 - (int.length + 1) = frac.length := by omega
  have hdenom : frac.length < 256 := by omega
  unfold fromStr
  simp only [hfind, hbytes, hfilter, Option.map_some, hprecision, List.length_reverse, hcount,
    hvalue, Option.isNone_some, Option.isSome_some, Option.getD_some, ne_eq, Nat.add_sub_cancel,
    not_true_eq_false, false_and, false_or, Bool.false_eq_true, and_false, if_false,
    if_neg (Nat.not_lt.mpr hlength), ok_bind, if_pos hdenom]
  rfl

/-- More than 77 digits are refused, with or without a point. -/
theorem fromStr_of_long {s : List Char} (hnumeric : (s.filterMap toDigit).length = byteLength s ∧
      findByte '.' s = none ∨ (s.filterMap toDigit).length = byteLength s - 1 ∧ findByte '.' s ≠ none)
    (hlong : 77 < (s.filterMap toDigit).length) :
    fromStr s = .error (.scaleTooLarge (s.filterMap toDigit).length 77) := by
  have hcheck : ¬((s.filterMap toDigit).length ≠ byteLength s ∧
      ((findByte '.' s).map fun pos => byteLength s - (pos + 1)).isNone = true ∨
      (s.filterMap toDigit).length ≠ byteLength s - 1 ∧
      ((findByte '.' s).map fun pos => byteLength s - (pos + 1)).isSome = true) := by
    rcases hnumeric with ⟨hbytes, hnone⟩ | ⟨hbytes, hsome⟩
    · simp [hbytes, hnone]
    · obtain ⟨pos, hpos⟩ := Option.ne_none_iff_exists'.mp hsome
      simp [hbytes, hpos]
  unfold fromStr
  simp only [List.length_reverse, if_neg hcheck, if_pos hlong]
  rfl

/-! ## The precise string -/

theorem insertPoint_zero (string : List Char) : insertPoint 0 string = string := if_pos rfl

theorem insertPoint_of_lt {decimals : ℕ} {string : List Char} (hpos : 0 < decimals)
    (hlt : decimals < string.length) :
    insertPoint decimals string =
      string.take (string.length - decimals) ++ '.' :: string.drop (string.length - decimals) := by
  rw [insertPoint, if_neg (by omega), if_pos hlt]

theorem insertPoint_of_le {decimals : ℕ} {string : List Char} (hpos : 0 < decimals)
    (hle : string.length ≤ decimals) :
    insertPoint decimals string =
      ['0'] ++ '.' :: (List.replicate (decimals - string.length) '0' ++ string) := by
  rw [insertPoint, if_neg (by omega), if_neg (by omega)]
  rfl

/-- To a positive number of places the digits of a value are split by a point
with exactly that many digits after it; the two sides read back as the value. -/
theorem insertPoint_eq_split {decimals : ℕ} (hpos : 0 < decimals) (value : ℕ) :
    ∃ int frac, insertPoint decimals (Nat.toDigits 10 value) = int ++ '.' :: frac ∧ int ≠ [] ∧
      (∀ c ∈ int, c.isDigit = true) ∧ (∀ c ∈ frac, c.isDigit = true) ∧ frac.length = decimals ∧
      Nat.ofDigits 10 (int.filterMap toDigit).reverse * 10 ^ decimals +
        Nat.ofDigits 10 (frac.filterMap toDigit).reverse = value := by
  have hall : ∀ c ∈ Nat.toDigits 10 value, c.isDigit = true := fun _ hc => isDigit_of_mem_toDigits hc
  rcases Nat.lt_or_ge decimals (Nat.toDigits 10 value).length with hlt | hle
  · -- the last `decimals` digits go after the point
    have hfracDigits : ∀ c ∈ (Nat.toDigits 10 value).drop ((Nat.toDigits 10 value).length - decimals),
        c.isDigit = true := fun c hc => hall c (List.mem_of_mem_drop hc)
    have hfracLength : ((Nat.toDigits 10 value).drop
        ((Nat.toDigits 10 value).length - decimals)).length = decimals := by
      rw [List.length_drop]
      omega
    have hread := ofDigits_filterMap_append
      ((Nat.toDigits 10 value).take ((Nat.toDigits 10 value).length - decimals))
      ((Nat.toDigits 10 value).drop ((Nat.toDigits 10 value).length - decimals))
    rw [List.take_append_drop, ofDigits_filterMap_toDigits, length_filterMap_of_isDigit hfracDigits,
      hfracLength] at hread
    refine ⟨_, _, insertPoint_of_lt hpos hlt, ?_, fun c hc => hall c (List.mem_of_mem_take hc),
      hfracDigits, hfracLength, hread.symm⟩
    have hdigits : Nat.toDigits 10 value ≠ [] := List.ne_nil_of_length_pos (by omega)
    rw [Ne, List.take_eq_nil_iff, not_or]
    exact ⟨by omega, hdigits⟩
  · -- a zero before the point, zeros and all the digits after it
    refine ⟨['0'], List.replicate (decimals - (Nat.toDigits 10 value).length) '0' ++ Nat.toDigits 10 value,
      insertPoint_of_le hpos hle, List.cons_ne_nil _ _, by simp, ?_, ?_, ?_⟩
    · intro c hc
      rcases List.mem_append.mp hc with hzero | hdigit
      · rw [List.eq_of_mem_replicate hzero]
        rfl
      · exact hall c hdigit
    · rw [List.length_append, List.length_replicate]
      omega
    · have hzero : Nat.ofDigits 10 ((['0'] : List Char).filterMap toDigit).reverse = 0 := rfl
      rw [ofDigits_filterMap_replicate_append, ofDigits_filterMap_toDigits, hzero, Nat.zero_mul,
        Nat.zero_add]

/-- A number with its point reads back as the number with as many decimal
places, when it has at most 77 digits. -/
theorem fromStr_insertPoint {value decimals : ℕ} (hdecimals : decimals < 256)
    (hcount : ((insertPoint decimals (Nat.toDigits 10 value)).filter Char.isDigit).length ≤ 77) :
    fromStr (insertPoint decimals (Nat.toDigits 10 value)) =
      .ok ⟨⟨BitVec.ofNat 256 value⟩, UInt8.ofNat decimals⟩ := by
  have hdigits : ∀ c ∈ Nat.toDigits 10 value, c.isDigit = true := fun _ hc => isDigit_of_mem_toDigits hc
  rcases Nat.eq_zero_or_pos decimals with hzero | hpos
  · -- no decimal places: the digits alone
    subst hzero
    rw [insertPoint_zero, filter_isDigit_of_forall hdigits] at hcount
    rw [insertPoint_zero, fromStr_digits hdigits hcount, ofDigits_filterMap_toDigits]
    rfl
  · by_cases hlt : decimals < (Nat.toDigits 10 value).length
    · -- a point among the digits
      have htake : ∀ c ∈ (Nat.toDigits 10 value).take ((Nat.toDigits 10 value).length - decimals),
          c.isDigit = true := fun c hc => hdigits c (List.mem_of_mem_take hc)
      have hdrop : ∀ c ∈ (Nat.toDigits 10 value).drop ((Nat.toDigits 10 value).length - decimals),
          c.isDigit = true := fun c hc => hdigits c (List.mem_of_mem_drop hc)
      rw [insertPoint_of_lt hpos hlt] at hcount ⊢
      rw [List.filter_append, List.filter_cons_of_neg (by decide), filter_isDigit_of_forall htake,
        filter_isDigit_of_forall hdrop, List.take_append_drop] at hcount
      rw [fromStr_point htake hdrop (by rw [← List.length_append, List.take_append_drop]; exact hcount),
        List.take_append_drop, ofDigits_filterMap_toDigits, List.length_drop,
        show (Nat.toDigits 10 value).length - ((Nat.toDigits 10 value).length - decimals) = decimals by
          omega]
    · -- the digits after `0.` and zeros
      have hzeros : ∀ c ∈ List.replicate (decimals - (Nat.toDigits 10 value).length) '0' ++
          Nat.toDigits 10 value, c.isDigit = true := by
        intro c hc
        rcases List.mem_append.mp hc with hc | hc
        · rw [List.eq_of_mem_replicate hc]
          rfl
        · exact hdigits c hc
      have hzero : ∀ c ∈ ['0'], c.isDigit = true := by simp
      rw [insertPoint_of_le hpos (by omega)] at hcount ⊢
      rw [List.filter_append, filter_isDigit_of_forall hzero, List.filter_cons_of_neg (by decide),
        filter_isDigit_of_forall hzeros] at hcount
      rw [fromStr_point hzero hzeros (by rw [← List.length_append]; exact hcount),
        show ['0'] ++ (List.replicate (decimals - (Nat.toDigits 10 value).length) '0' ++
          Nat.toDigits 10 value) = List.replicate (decimals - (Nat.toDigits 10 value).length + 1) '0' ++
          Nat.toDigits 10 value by rw [List.replicate_succ]; rfl,
        ofDigits_filterMap_replicate_append, ofDigits_filterMap_toDigits, List.length_append,
        List.length_replicate, Nat.sub_add_cancel (by omega)]

/-- The precise string of an amount reads back as the amount, when it has at
most 77 digits. -/
theorem fromStr_toStringPrecise (self : DenominatedAmount)
    (hcount : (self.toStringPrecise.filter Char.isDigit).length ≤ 77) :
    fromStr self.toStringPrecise = .ok self := by
  rw [toStringPrecise, fromStr_insertPoint self.denom.toNat_lt hcount,
    BitVec.ofNat_toNat, BitVec.setWidth_eq, UInt8.ofNat_toNat]

/-! ## The `Display` string -/

/-- A value that does not end in zero keeps its digits and places. -/
theorem stripTrailingZeros_of_mod_ne_zero {value : ℕ} (hrem : value % 10 ≠ 0) :
    ∀ rounds decimals, stripTrailingZeros rounds (value, decimals) = (value, decimals)
  | 0, _ => rfl
  | rounds + 1, decimals => by
      rw [stripTrailingZeros, if_neg hrem]
      exact stripTrailingZeros_of_mod_ne_zero hrem rounds decimals

theorem stripTrailingZeros_succ_of_mod_eq_zero {value : ℕ} (hrem : value % 10 = 0)
    (rounds decimals : ℕ) :
    stripTrailingZeros (rounds + 1) (value, decimals) =
      stripTrailingZeros rounds (value / 10, decimals - 1) := by
  rw [stripTrailingZeros, if_pos hrem]

/-- Stripping never grows the value or the places. -/
theorem stripTrailingZeros_le :
    ∀ rounds value decimals, (stripTrailingZeros rounds (value, decimals)).1 ≤ value ∧
      (stripTrailingZeros rounds (value, decimals)).2 ≤ decimals
  | 0, _, _ => ⟨le_rfl, le_rfl⟩
  | rounds + 1, value, decimals => by
      rw [stripTrailingZeros]
      split_ifs
      · obtain ⟨hvalue, hdecimals⟩ := stripTrailingZeros_le rounds (value / 10) (decimals - 1)
        exact ⟨Nat.le_trans hvalue (Nat.div_le_self _ _), Nat.le_trans hdecimals (Nat.sub_le _ _)⟩
      · exact stripTrailingZeros_le rounds value decimals

/-- The precise string of a value ending in zero is that of its tenth with one
place fewer, and the zero. -/
theorem insertPoint_succ_of_mod_eq_zero {value decimals : ℕ} (hrem : value % 10 = 0)
    (hpos : 0 < decimals) :
    insertPoint (decimals + 1) (Nat.toDigits 10 value) =
      insertPoint decimals (Nat.toDigits 10 (value / 10)) ++ ['0'] := by
  rcases Nat.eq_zero_or_pos value with hzero | hvalue
  · subst hzero
    obtain ⟨fewer, rfl⟩ : ∃ fewer, decimals = fewer + 1 := ⟨decimals - 1, by omega⟩
    rw [Nat.zero_div, Nat.toDigits_zero, insertPoint_of_le (by omega) (by simp),
      insertPoint_of_le hpos (by simp)]
    simp [List.replicate_succ']
  · rw [toDigits_of_mod_eq_zero hvalue hrem]
    rcases Nat.lt_or_ge decimals (Nat.toDigits 10 (value / 10)).length with hlt | hle
    · -- the point stays among the digits of the tenth
      rw [insertPoint_of_lt (by omega) (by simp; omega), insertPoint_of_lt hpos hlt]
      simp only [List.length_append, List.length_singleton,
        show (Nat.toDigits 10 (value / 10)).length + 1 - (decimals + 1) =
          (Nat.toDigits 10 (value / 10)).length - decimals by omega]
      rw [List.take_append_of_le_length (by omega), List.drop_append_of_le_length (by omega)]
      simp
    · rw [insertPoint_of_le (by omega) (by simp; omega), insertPoint_of_le hpos hle]
      simp only [List.length_append, List.length_singleton,
        show decimals + 1 - ((Nat.toDigits 10 (value / 10)).length + 1) =
          decimals - (Nat.toDigits 10 (value / 10)).length by omega]
      simp

/-- With one place, a value ending in zero writes its tenth, a point and the zero. -/
theorem insertPoint_one_of_mod_eq_zero {value : ℕ} (hrem : value % 10 = 0) :
    insertPoint 1 (Nat.toDigits 10 value) = Nat.toDigits 10 (value / 10) ++ ['.', '0'] := by
  rcases Nat.eq_zero_or_pos value with hzero | hvalue
  · subst hzero
    rw [Nat.zero_div, Nat.toDigits_zero, insertPoint_of_le (by omega) (by simp)]
    rfl
  · have hlength := Nat.length_toDigits_pos (b := 10) (n := value / 10)
    rw [toDigits_of_mod_eq_zero hvalue hrem, insertPoint_of_lt (by omega) (by simp; omega)]
    simp only [List.length_append, List.length_singleton, Nat.add_sub_cancel]
    rw [List.take_append_of_le_length le_rfl, List.drop_append_of_le_length le_rfl]
    simp

/-- Every precise string ends with the last digit of the value. -/
theorem insertPoint_eq_append_last (decimals value : ℕ) :
    ∃ init, insertPoint decimals (Nat.toDigits 10 value) = init ++ [(value % 10).digitChar] := by
  obtain ⟨init, hinit⟩ := toDigits_eq_append_last value
  rcases Nat.eq_zero_or_pos decimals with hzero | hpos
  · exact ⟨init, by rw [hzero, insertPoint_zero, hinit]⟩
  · by_cases hlt : decimals < (Nat.toDigits 10 value).length
    · have hinitLength : (Nat.toDigits 10 value).length = init.length + 1 := by simp [hinit]
      -- the point sits before the last digit, so the last digit ends the string
      have hdrop : (Nat.toDigits 10 value).drop ((Nat.toDigits 10 value).length - decimals) =
          init.drop ((Nat.toDigits 10 value).length - decimals) ++ [(value % 10).digitChar] := by
        rw [hinit, List.drop_append_of_le_length (by simp at hinitLength ⊢; omega)]
      refine ⟨(Nat.toDigits 10 value).take ((Nat.toDigits 10 value).length - decimals) ++
        '.' :: init.drop ((Nat.toDigits 10 value).length - decimals), ?_⟩
      rw [insertPoint_of_lt hpos hlt, hdrop]
      simp
    · refine ⟨['0'] ++ '.' :: (List.replicate (decimals - (Nat.toDigits 10 value).length) '0' ++ init), ?_⟩
      rw [insertPoint_of_le hpos (by omega)]
      conv_lhs => rw [hinit]
      simp [hinit]

/-- The `Display` string is the precise string with the zeros that end the
fraction, and a bare point, trimmed: as many as the stripping loop strips. -/
theorem display_eq_insertPoint_strip :
    ∀ decimals value : ℕ,
      trimEnd '.' (if 0 < decimals then trimEnd '0' (insertPoint decimals (Nat.toDigits 10 value))
        else insertPoint decimals (Nat.toDigits 10 value)) =
      insertPoint (stripTrailingZeros decimals (value, decimals)).2
        (Nat.toDigits 10 (stripTrailingZeros decimals (value, decimals)).1)
  | 0, value => by
      rw [if_neg (lt_irrefl 0), insertPoint_zero, trimEnd_toDigits (by decide)]
      rfl
  | decimals + 1, value => by
      rw [if_pos (Nat.succ_pos decimals)]
      by_cases hrem : value % 10 = 0
      · rw [stripTrailingZeros_succ_of_mod_eq_zero hrem, Nat.add_sub_cancel,
          ← display_eq_insertPoint_strip decimals (value / 10)]
        rcases Nat.eq_zero_or_pos decimals with hzero | hpos
        · -- the last zero goes with the point
          subst hzero
          rw [if_neg (lt_irrefl 0), insertPoint_one_of_mod_eq_zero hrem, insertPoint_zero,
            show Nat.toDigits 10 (value / 10) ++ ['.', '0'] =
              (Nat.toDigits 10 (value / 10) ++ ['.']) ++ ['0'] by simp,
            trimEnd_append_self, trimEnd_append_of_ne (by decide), trimEnd_append_self]
        · rw [if_pos hpos, insertPoint_succ_of_mod_eq_zero hrem hpos, trimEnd_append_self]
      · -- a last digit other than zero stays, and so does everything before it
        rw [stripTrailingZeros_of_mod_ne_zero hrem]
        obtain ⟨init, hinit⟩ := insertPoint_eq_append_last (decimals + 1) value
        have hdigit : (value % 10).digitChar.isDigit = true := by
          rw [Nat.isDigit_digitChar]
          exact decide_eq_true (Nat.mod_lt _ (by decide))
        have hnotZero : (value % 10).digitChar ≠ '0' := by
          rw [Ne, Nat.digitChar_eq_zero]
          exact hrem
        rw [hinit, trimEnd_append_of_ne hnotZero, trimEnd_append_of_ne (ne_point_of_isDigit hdigit)]

/-- `Display` writes the precise string of the canonical amount. -/
theorem toString_eq_toStringPrecise_canonical (self : DenominatedAmount) :
    self.toString = self.canonical.toStringPrecise := by
  obtain ⟨hvalue, hdecimals⟩ :=
    stripTrailingZeros_le self.denom.toNat self.amount.raw.toNat self.denom.toNat
  have hvalueFits := Nat.lt_of_le_of_lt hvalue self.amount.raw.isLt
  have hdecimalsFit := Nat.lt_of_le_of_lt hdecimals self.denom.toNat_lt
  unfold toString canonical toStringPrecise
  dsimp only
  rw [display_eq_insertPoint_strip, BitVec.toNat_ofNat, Nat.mod_eq_of_lt hvalueFits,
    UInt8.toNat_ofNat_of_lt' hdecimalsFit]



/-! ## Round trips of the strings -/

/-- `from_str` reads at most 77 digits, so the amounts it returns print at most
77. -/
theorem toDigits_length_of_fromStr {s : List Char} {parsed : DenominatedAmount}
    (hok : fromStr s = .ok parsed) : (Nat.toDigits 10 parsed.amount.raw.toNat).length ≤ 77 := by
  unfold fromStr at hok
  dsimp only at hok
  split at hok
  · cases hok
  · split at hok
    · cases hok
    · rename_i hlong
      obtain ⟨value, hvalue, hrest⟩ := bind_eq_ok hok
      split at hrest
      · cases hrest
        -- the value is the number of at most 77 digits
        have hnumber := accumulateDigits_eq_ok hvalue
        have hbound := ofDigits_filterMap_lt s
        rw [List.length_reverse, Nat.not_lt] at hlong
        have hpow : 10 ^ (s.filterMap toDigit).length ≤ 10 ^ 77 := Nat.pow_le_pow_right (by decide) hlong
        have hvalueLt : value < 10 ^ 77 := by
          rw [hnumber, Nat.pow_zero, Nat.one_mul, Nat.zero_add]
          omega
        dsimp only
        rw [BitVec.toNat_ofNat, Nat.mod_eq_of_lt (Nat.lt_trans hvalueLt (by decide)),
          length_toDigits_le_iff (by decide)]
        exact hvalueLt
      · cases hrest

/-- The precise string of an amount of at most 77 digits, with at most 76
decimal places, has at most 77 digits. -/
theorem count_insertPoint_le {value decimals : ℕ} (hdigits : (Nat.toDigits 10 value).length ≤ 77)
    (hdecimals : decimals ≤ 76) :
    ((insertPoint decimals (Nat.toDigits 10 value)).filter Char.isDigit).length ≤ 77 := by
  have hall : ∀ c ∈ Nat.toDigits 10 value, c.isDigit = true := fun _ hc => isDigit_of_mem_toDigits hc
  rcases Nat.eq_zero_or_pos decimals with hzero | hpos
  · rw [hzero, insertPoint_zero, filter_isDigit_of_forall hall]
    exact hdigits
  · by_cases hlt : decimals < (Nat.toDigits 10 value).length
    · rw [insertPoint_of_lt hpos hlt, List.filter_append, List.filter_cons_of_neg (by decide),
        ← List.filter_append, List.take_append_drop, filter_isDigit_of_forall hall]
      exact hdigits
    · have hzeros : ∀ c ∈ List.replicate (decimals - (Nat.toDigits 10 value).length) '0' ++
          Nat.toDigits 10 value, c.isDigit = true := by
        intro c hc
        rcases List.mem_append.mp hc with hc | hc
        · rw [List.eq_of_mem_replicate hc]
          rfl
        · exact hall c hc
      rw [insertPoint_of_le hpos (by omega), List.filter_append,
        filter_isDigit_of_forall (by simp : ∀ c ∈ ['0'], c.isDigit = true),
        List.filter_cons_of_neg (by decide), filter_isDigit_of_forall hzeros]
      simp only [List.length_append, List.length_singleton, List.length_replicate]
      omega

/-- The `Display` string is a prefix of the precise string. -/
theorem toString_prefix (self : DenominatedAmount) : self.toString <+: self.toStringPrecise := by
  unfold toString
  dsimp only
  split_ifs
  · exact (trimEnd_isPrefix '.' _).trans (trimEnd_isPrefix '0' _)
  · exact trimEnd_isPrefix '.' _

/-- The `Display` string of an amount whose precise string has at most 77
digits reads back as the canonical amount. -/
theorem fromStr_toString (self : DenominatedAmount)
    (hcount : (self.toStringPrecise.filter Char.isDigit).length ≤ 77) :
    fromStr self.toString = .ok self.canonical := by
  have hshorter : (self.canonical.toStringPrecise.filter Char.isDigit).length ≤ 77 := by
    rw [← toString_eq_toStringPrecise_canonical]
    exact Nat.le_trans ((self.toString_prefix.sublist.filter Char.isDigit).length_le) hcount
  rw [toString_eq_toStringPrecise_canonical, fromStr_toStringPrecise _ hshorter]

end DenominatedAmount

/-- `Serialize for Amount`: the decimal digits of the amount. -/
def Amount.serialize (amount : Amount) : List Char := Nat.toDigits 10 amount.raw.toNat

/-- `Deserialize for Amount`: the amount of `DenominatedAmount::from_str`,
whose `unwrap` panics (`none`) on an error. -/
def Amount.deserialize (string : List Char) : Option Amount :=
  match DenominatedAmount.fromStr string with
  | .ok denominated => some denominated.amount
  | .error _ => none

/-- `Amount::from_uint(uint, denom).ok()`: the value itself at denomination
zero, otherwise scaled by `10^denom` where that stays in `U256`
(`ConvertToDecimal` otherwise). -/
def Amount.fromUint (uint : BitVec 256) (denom : UInt8) : Option Amount :=
  if denom = 0 then some ⟨uint⟩
  else ((uintChecked (10 ^ denom.toNat)).bind fun scaling => uintChecked (scaling * uint.toNat)).map
    fun amount => ⟨BitVec.ofNat 256 amount⟩

theorem Amount.fromUint_zero (uint : BitVec 256) : Amount.fromUint uint 0 = some ⟨uint⟩ := if_pos rfl

/-- `DenominatedAmount::from_str` reads back the precise string of every
amount of at most 77 digits, and the canonical amount from `Display`; every
parsed amount with fewer than 77 places reads back from its precise string. -/
theorem denominatedAmount_string_roundTrip :
    (∀ self : DenominatedAmount, (self.toStringPrecise.filter Char.isDigit).length ≤ 77 →
      DenominatedAmount.fromStr self.toStringPrecise = .ok self ∧
        DenominatedAmount.fromStr self.toString = .ok self.canonical) ∧
    (∀ (s : List Char) (parsed : DenominatedAmount), DenominatedAmount.fromStr s = .ok parsed →
      parsed.denom.toNat < 77 → DenominatedAmount.fromStr parsed.toStringPrecise = .ok parsed) := by
  refine ⟨fun self hcount => ⟨self.fromStr_toStringPrecise hcount, self.fromStr_toString hcount⟩, ?_⟩
  intro s parsed hparsed hdenom
  apply parsed.fromStr_toStringPrecise
  exact DenominatedAmount.count_insertPoint_le (DenominatedAmount.toDigits_length_of_fromStr hparsed)
    (by omega)

/-- `1.234500` with six places reads back from its precise string, and as the
canonical `1.2345` from `Display`; `0012.3450` parses to four places and
reads back from its precise string. -/
theorem denominatedAmount_string_roundTrip_six_places :
    DenominatedAmount.fromStr (DenominatedAmount.toStringPrecise ⟨⟨1234500⟩, 6⟩) =
        .ok ⟨⟨1234500⟩, 6⟩ ∧
      DenominatedAmount.fromStr (DenominatedAmount.toString ⟨⟨1234500⟩, 6⟩) = .ok ⟨⟨12345⟩, 4⟩ ∧
      DenominatedAmount.fromStr (DenominatedAmount.toStringPrecise ⟨⟨123450⟩, 4⟩) =
        .ok ⟨⟨123450⟩, 4⟩ := by
  have hcount :
      ((DenominatedAmount.toStringPrecise ⟨⟨1234500⟩, 6⟩).filter Char.isDigit).length ≤ 77 := by
    decide
  have hcanonical : DenominatedAmount.canonical ⟨⟨1234500⟩, 6⟩ = ⟨⟨12345⟩, 4⟩ := by decide
  have hparse : DenominatedAmount.fromStr "0012.3450".toList = .ok ⟨⟨123450⟩, 4⟩ := by decide
  obtain ⟨hprint, hreparse⟩ := denominatedAmount_string_roundTrip
  obtain ⟨hprecise, hdisplay⟩ := hprint _ hcount
  exact ⟨hprecise, hcanonical ▸ hdisplay, hreparse _ _ hparse (by decide)⟩

/-- A point and 77 zeros read as zero with 77 places, whose precise string has
a zero before the point: 78 digits, refused. -/
theorem denominatedAmount_reparse_fails_at_77_places :
    DenominatedAmount.fromStr ('.' :: List.replicate 77 '0') = .ok ⟨⟨0⟩, 77⟩ ∧
      DenominatedAmount.fromStr (⟨⟨0⟩, 77⟩ : DenominatedAmount).toStringPrecise =
        .error (.scaleTooLarge 78 77) := by
  constructor <;> decide

/-- An amount below `10^77` serializes and deserializes to itself; from `10^77`
on its 78 digits are refused by `from_str` and the `unwrap` panics. -/
theorem amount_deserialize_serialize (amount : Amount) :
    Amount.deserialize amount.serialize = if amount.raw.toNat < 10 ^ 77 then some amount else none := by
  have hdigits : ∀ c ∈ Nat.toDigits 10 amount.raw.toNat, c.isDigit = true :=
    fun _ hc => isDigit_of_mem_toDigits hc
  unfold Amount.deserialize Amount.serialize
  by_cases hsmall : amount.raw.toNat < 10 ^ 77
  · rw [if_pos hsmall,
      DenominatedAmount.fromStr_digits hdigits ((length_toDigits_le_iff (by decide)).mpr hsmall),
      ofDigits_filterMap_toDigits, BitVec.ofNat_toNat, BitVec.setWidth_eq]
  · have hlong : 77 < ((Nat.toDigits 10 amount.raw.toNat).filterMap toDigit).length := by
      rw [length_filterMap_of_isDigit hdigits]
      exact Nat.lt_of_not_le fun hle => hsmall ((length_toDigits_le_iff (by decide)).mp hle)
    have hnumeric : ((Nat.toDigits 10 amount.raw.toNat).filterMap toDigit).length =
        byteLength (Nat.toDigits 10 amount.raw.toNat) ∧
        findByte '.' (Nat.toDigits 10 amount.raw.toNat) = none :=
      ⟨by rw [length_filterMap_of_isDigit hdigits, byteLength_toDigits],
        findByte_of_forall_ne fun c hc => ne_point_of_isDigit (hdigits c hc)⟩
    rw [if_neg hsmall, DenominatedAmount.fromStr_of_long (.inl hnumeric) hlong]

/-! ## Comparing amounts -/

/-- Two comparisons agree when their relations do. -/
theorem compare_eq_compare_of_iff {α β : Type} [LinearOrder α] [LinearOrder β] {a b : α} {c d : β}
    (hlt : a < b ↔ c < d) (heq : a = b ↔ c = d) : compare a b = compare c d := by
  rcases lt_trichotomy a b with hab | hab | hab
  · rw [compare_lt_iff_lt.mpr hab, compare_lt_iff_lt.mpr (hlt.mp hab)]
  · rw [compare_eq_iff_eq.mpr hab, compare_eq_iff_eq.mpr (heq.mp hab)]
  · have hdc : d < c := by
      rcases lt_trichotomy c d with hcd | hcd | hcd
      · exact absurd (hlt.mpr hcd) (lt_asymm hab)
      · exact absurd (heq.mpr hcd) (ne_of_gt hab)
      · exact hcd
    rw [compare_gt_iff_gt.mpr hab, compare_gt_iff_gt.mpr hdc]

namespace DenominatedAmount

/-- The comparison of `Ord for DenominatedAmount` against a scaled value: the
first against the second's quotient rounded up, a tie broken by the remainder,
is the first scaled against the second. -/
theorem compare_divCeil {first second scale : ℕ} (hscale : 0 < scale)
    (hfits : second % scale ≠ 0 → second / scale + 1 < 2 ^ 256) :
    (if compare first (divCeil (second / scale) (second % scale)) = .eq then
        (if second % scale = 0 then Ordering.eq else .gt)
      else compare first (divCeil (second / scale) (second % scale))) =
      compare (first * scale) second := by
  have hsplit := Nat.div_add_mod second scale
  have hrem := Nat.mod_lt second hscale
  by_cases hzero : second % scale = 0
  · -- an exact quotient: the comparison is the scaled one
    have hceil : divCeil (second / scale) (second % scale) = second / scale := if_pos hzero
    have hexact : second / scale * scale = second := Nat.div_mul_cancel (Nat.dvd_of_mod_eq_zero hzero)
    have hscaled : compare first (second / scale) = compare (first * scale) second := by
      apply compare_eq_compare_of_iff
      · conv_rhs => rw [← hexact]
        exact (Nat.mul_lt_mul_right hscale).symm
      · conv_rhs => rw [← hexact]
        exact (Nat.mul_left_inj (Nat.pos_iff_ne_zero.mp hscale)).symm
    rw [hceil, hscaled, if_pos hzero]
    split_ifs with heq
    · exact heq.symm
    · rfl
  · -- a remainder: the second lies strictly between its quotient and the next
    have hceil : divCeil (second / scale) (second % scale) = second / scale + 1 := by
      rw [divCeil, if_neg hzero, if_pos (hfits hzero)]
    rw [hceil, if_neg hzero]
    have hlower : (second / scale) * scale < second := by
      rw [Nat.mul_comm]
      omega
    have hupper : second < (second / scale + 1) * scale := by
      rw [Nat.succ_mul, Nat.mul_comm]
      omega
    rcases lt_trichotomy first (second / scale + 1) with hlt | heq | hgt
    · rw [compare_lt_iff_lt.mpr hlt, if_neg (by decide)]
      symm
      apply compare_lt_iff_lt.mpr
      calc first * scale ≤ (second / scale) * scale := Nat.mul_le_mul_right _ (by omega)
        _ < second := hlower
    · rw [compare_eq_iff_eq.mpr heq, if_pos rfl, heq]
      exact (compare_gt_iff_gt.mpr hupper).symm
    · rw [compare_gt_iff_gt.mpr hgt, if_neg (by decide)]
      symm
      apply compare_gt_iff_gt.mpr
      calc second < (second / scale + 1) * scale := hupper
        _ ≤ first * scale := Nat.mul_le_mul_right _ hgt.le

/-- The same comparison with the sides the other way round. -/
theorem compare_divCeil_swap {first second scale : ℕ} (hscale : 0 < scale)
    (hfits : first % scale ≠ 0 → first / scale + 1 < 2 ^ 256) :
    (if compare (divCeil (first / scale) (first % scale)) second = .eq then
        (if first % scale = 0 then Ordering.eq else .lt)
      else compare (divCeil (first / scale) (first % scale)) second) =
      compare first (second * scale) := by
  have hswapped : (if compare second (divCeil (first / scale) (first % scale)) = .eq then
        (if first % scale = 0 then Ordering.eq else .gt)
      else compare second (divCeil (first / scale) (first % scale))) =
      compare (second * scale) first := compare_divCeil hscale hfits
  rw [← Nat.compare_swap (second * scale) first, ← hswapped,
    ← Nat.compare_swap second (divCeil (first / scale) (first % scale))]
  cases compare second (divCeil (first / scale) (first % scale)) <;>
    by_cases hzero : first % scale = 0 <;> simp [hzero, Ordering.swap]

/-- A quotient by a scale that leaves a remainder is at most half the value, so
one more still fits. -/
theorem quotient_succ_lt {value scale : ℕ} (hvalue : value < 2 ^ 256) (hrem : value % scale ≠ 0) :
    value / scale + 1 < 2 ^ 256 := by
  rcases Nat.lt_or_ge scale 2 with hsmall | htwo
  · -- by zero the quotient is zero, and by one nothing remains
    interval_cases scale
    · simp
    · exact absurd (Nat.mod_one value) hrem
  · have hhalf : value / scale ≤ value / 2 := Nat.div_le_div_left htwo (by decide)
    omega

/-- `Uint::exp10` does not panic up to the 77th power. -/
theorem exp10_of_le {exponent : ℕ} (hexponent : exponent ≤ 77) :
    exp10 exponent = some (10 ^ exponent) :=
  uintChecked_of_lt (Nat.lt_of_le_of_lt (Nat.pow_le_pow_right (by decide) hexponent) (by decide))

/-- In `ℚ`, the numbers of two amounts compare as the first scaled to the
second's denomination against the second. -/
theorem compare_value_of_le {first second : DenominatedAmount}
    (hle : first.denom.toNat ≤ second.denom.toNat) :
    compare first.value second.value =
      compare (first.amount.raw.toNat * 10 ^ (second.denom.toNat - first.denom.toNat))
        second.amount.raw.toNat := by
  have hpow : (0 : ℚ) < 10 ^ second.denom.toNat := by positivity
  -- both over the second's denominator
  have hfirst : first.value = ((first.amount.raw.toNat *
      10 ^ (second.denom.toNat - first.denom.toNat) : ℕ) : ℚ) / 10 ^ second.denom.toNat := by
    rw [value, Nat.cast_mul, Nat.cast_pow, Nat.cast_ofNat,
      show second.denom.toNat = first.denom.toNat + (second.denom.toNat - first.denom.toNat) by omega,
      pow_add, Nat.add_sub_cancel_left, mul_div_mul_right _ _ (by positivity)]
  rw [hfirst, value]
  apply compare_eq_compare_of_iff
  · rw [div_lt_div_iff_of_pos_right hpow, Nat.cast_lt]
  · rw [div_left_inj' hpow.ne', Nat.cast_inj]

end DenominatedAmount

/-- `DenominatedAmount::partial_cmp` orders amounts of at most 77 places by
their values. -/
theorem denominatedAmount_cmp_numeric (first second : DenominatedAmount)
    (hfirst : first.denom.toNat ≤ 77) (hsecond : second.denom.toNat ≤ 77) :
    first.cmp second = some (compare first.value second.value) := by
  unfold DenominatedAmount.cmp
  by_cases hlt : first.denom < second.denom
  · -- the first has fewer places: the second is divided down to them
    have hlt' := UInt8.lt_iff_toNat_lt.mp hlt
    have hdiff : (second.denom - first.denom).toNat = second.denom.toNat - first.denom.toNat :=
      UInt8.toNat_sub_of_le _ _ (UInt8.le_iff_toNat_le.mpr hlt'.le)
    rw [if_pos hlt, hdiff, DenominatedAmount.exp10_of_le (by omega)]
    exact congrArg some ((DenominatedAmount.compare_divCeil (Nat.pow_pos (by decide))
      (DenominatedAmount.quotient_succ_lt second.amount.raw.isLt)).trans
      (DenominatedAmount.compare_value_of_le hlt'.le).symm)
  · -- the first has at least as many places: it is divided down to the second's
    have hge : second.denom.toNat ≤ first.denom.toNat :=
      Nat.le_of_not_lt fun hlt' => hlt (UInt8.lt_iff_toNat_lt.mpr hlt')
    have hdiff : (first.denom - second.denom).toNat = first.denom.toNat - second.denom.toNat :=
      UInt8.toNat_sub_of_le _ _ (UInt8.le_iff_toNat_le.mpr hge)
    rw [if_neg hlt, hdiff, DenominatedAmount.exp10_of_le (by omega), Std.OrientedOrd.eq_swap,
      DenominatedAmount.compare_value_of_le hge, Nat.compare_swap]
    exact congrArg some (DenominatedAmount.compare_divCeil_swap (Nat.pow_pos (by decide))
      (DenominatedAmount.quotient_succ_lt first.amount.raw.isLt))

/-- One and a half in tenths compares equal to one and a half in hundredths. -/
theorem denominatedAmount_cmp_numeric_tenths :
    (⟨⟨15⟩, 1⟩ : DenominatedAmount).denom.toNat ≤ 77 ∧
      (⟨⟨150⟩, 2⟩ : DenominatedAmount).denom.toNat ≤ 77 ∧
      (⟨⟨15⟩, 1⟩ : DenominatedAmount).cmp ⟨⟨150⟩, 2⟩ =
        some (compare (⟨⟨15⟩, 1⟩ : DenominatedAmount).value (⟨⟨150⟩, 2⟩ : DenominatedAmount).value) :=
  ⟨by decide, by decide, denominatedAmount_cmp_numeric _ _ (by decide) (by decide)⟩

end Namada.Core
