/-
# The decimal strings of `Dec`

`dec.rs`: `Display for Dec` prints the digits of the absolute value with a
point before the last twelve (a zero and zeros in front when there are fewer),
drops the zeros that end the fraction and then a bare point, and puts a minus
in front of a negative value. `FromStr for Dec` strips a leading minus, splits
at the first point (a missing fraction reads as `"0"`), parses the integer side
and at most twelve fractional digits without their trailing zeros, scales both
to twelve places and makes an `I256` of their sum, negated for the minus.

Every `Dec` of the symmetric range reads back from its display
(`fromStr_toString`), and whatever `from_str` accepts is of that range
(`fromStr_natAbs_le`), so it reads back from its display as well.

`Uint::from_str_radix(.., 10)` is `from_dec_str` of the `uint` crate, which is
not under `src/`: it folds the bytes of the string, each an ASCII digit, into
the value times ten plus the digit, and fails on any other byte and on a value
past `U256`.
-/

import Namada.Core.Denominated
import Namada.Core.Signed

namespace Namada.Core

open Namada.Math

namespace Uint

/-- The errors of `from_dec_str`. -/
inductive FromDecStrErr
  | invalidCharacter
  | invalidLength
  deriving DecidableEq

/-- The loop of `from_dec_str`, from the value read so far. A character that is
no ASCII digit starts with a byte that is none either. -/
def fromDecStrFrom (res : ℕ) : List Char → Except FromDecStrErr ℕ
  | [] => .ok res
  | c :: rest =>
      match toDigit c with
      | none => .error .invalidCharacter
      | some digit =>
          -- `overflowing_mul_u64(10)`, then `overflowing_add` of the digit
          if res * 10 + digit < 2 ^ 256 then fromDecStrFrom (res * 10 + digit) rest
          else .error .invalidLength

/-- `Uint::from_str_radix(.., 10)`, which is `from_dec_str`. -/
def fromDecStr (chars : List Char) : Except FromDecStrErr ℕ := fromDecStrFrom 0 chars

/-- A string of digits reads, after what was read before, as its digits. -/
theorem fromDecStrFrom_eq {chars : List Char} (hdigits : ∀ c ∈ chars, c.isDigit = true) :
    ∀ res : ℕ, res * 10 ^ chars.length + Nat.ofDigits 10 (chars.filterMap toDigit).reverse < 2 ^ 256 →
      fromDecStrFrom res chars =
        .ok (res * 10 ^ chars.length + Nat.ofDigits 10 (chars.filterMap toDigit).reverse) := by
  induction chars with
  | nil =>
      intro res _
      simp [fromDecStrFrom]
  | cons c rest ih =>
      intro res hfit
      have hrest : ∀ x ∈ rest, x.isDigit = true := fun x hx => hdigits x (List.mem_cons_of_mem _ hx)
      obtain ⟨digit, hdigit⟩ : ∃ digit, toDigit c = some digit :=
        ⟨c.toNat - 48, by rw [toDigit, if_pos (hdigits c List.mem_cons_self)]⟩
      -- the first digit is shifted past the others
      have hread : Nat.ofDigits 10 ((c :: rest).filterMap toDigit).reverse =
          digit * 10 ^ rest.length + Nat.ofDigits 10 (rest.filterMap toDigit).reverse := by
        have hjoin := ofDigits_filterMap_append [c] rest
        rw [List.singleton_append, length_filterMap_of_isDigit hrest] at hjoin
        rw [hjoin]
        simp [hdigit]
      have hpow : 10 ^ (c :: rest).length = 10 * 10 ^ rest.length := by
        rw [List.length_cons, pow_succ, Nat.mul_comm]
      have hshift : (res * 10 + digit) * 10 ^ rest.length +
          Nat.ofDigits 10 (rest.filterMap toDigit).reverse =
          res * (10 * 10 ^ rest.length) +
            (digit * 10 ^ rest.length + Nat.ofDigits 10 (rest.filterMap toDigit).reverse) := by
        ring
      rw [hread, hpow, ← hshift] at hfit ⊢
      have hstep : res * 10 + digit < 2 ^ 256 := by
        have hgrow : res * 10 + digit ≤ (res * 10 + digit) * 10 ^ rest.length :=
          Nat.le_mul_of_pos_right _ (Nat.pow_pos (by decide))
        omega
      rw [fromDecStrFrom, hdigit]
      dsimp only
      rw [if_pos hstep, ih hrest _ hfit]

theorem fromDecStr_eq {chars : List Char} (hdigits : ∀ c ∈ chars, c.isDigit = true)
    (hfit : Nat.ofDigits 10 (chars.filterMap toDigit).reverse < 2 ^ 256) :
    fromDecStr chars = .ok (Nat.ofDigits 10 (chars.filterMap toDigit).reverse) := by
  have hread := fromDecStrFrom_eq hdigits 0 (by rw [Nat.zero_mul, Nat.zero_add]; exact hfit)
  rw [Nat.zero_mul, Nat.zero_add] at hread
  exact hread

end Uint

/-- The failures of `FromStr for Dec`: the `eyre!` errors it returns, in the
order it checks them, and the panic of its length arithmetic. -/
inductive DecParseError
  /-- Could not parse the integer side as an integer. -/
  | notInteger (e : Uint.FromDecStrErr)
  /-- Failed to parse Dec from string as there were no numbers following the decimal point. -/
  | noDecimals
  /-- `POS_DECIMAL_PRECISION - trimmed.len()` below zero, which panics. -/
  | lengthUnderflow
  /-- Could not parse the fractional side as decimals. -/
  | notDecimals (e : Uint.FromDecStrErr)
  /-- Decimal part overflow. -/
  | decimalOverflow
  /-- The number is too large to fit in the Dec type. -/
  | tooLarge
  /-- Failed to add integral and decimal part. -/
  | addOverflow
  /-- Could not convert Uint to I256. -/
  | notI256
  /-- Failed to negate. -/
  | negateFailed
  deriving DecidableEq

namespace Dec

/-- `Display for Dec`. `Dec`'s `I256` is its integer, so `is_negative` and
`abs` are the integer's sign and absolute value (`I256.Canonical.value_eq`). -/
def toString (self : Dec) : List Char :=
  let isNeg := decide (self.raw < 0)
  let string := DenominatedAmount.insertPoint posDecimalPrecision (Nat.toDigits 10 self.raw.natAbs)
  let stripped := trimEnd '.' (trimEnd '0' string)
  if stripped.isEmpty then ['0'] else if isNeg then '-' :: stripped else stripped

/-- The sides of the point `FromStr for Dec` reads, and its sign: a leading
minus stripped, then the split at the first point, with `"0"` for a missing
fraction. -/
def splitParts (s : List Char) : (List Char × List Char) × Bool :=
  match s with
  | '-' :: strip => ((splitOnce '.' strip).getD (strip, ['0']), true)
  | _ => ((splitOnce '.' s).getD (s, ['0']), false)

/-- The fractional part `FromStr for Dec` reads, in units of `10^-12`: at most
twelve digits of the fraction without its trailing zeros, scaled up. -/
def decimalPart (small : List Char) : Except DecParseError ℕ :=
  let trimmed := (trimEnd '0' small).take posDecimalPrecision
  if trimmed.isEmpty then .ok 0
  else if posDecimalPrecision < byteLength trimmed then .error .lengthUnderflow
  else do
    let digits ← (Uint.fromDecStr trimmed).mapError .notDecimals
    match uintChecked (digits * 10 ^ (posDecimalPrecision - byteLength trimmed)) with
    | some part => .ok part
    | none => .error .decimalOverflow

/-- The end of `FromStr for Dec`: `I256::try_from` of the sum, negated for a
leading minus. -/
def signedInner (isNeg : Bool) (total : ℕ) : Except DecParseError Dec :=
  match I256.tryFrom (BitVec.ofNat 256 total) with
  | none => .error .notI256
  | some inner =>
      if isNeg then
        match inner.checkedNeg with
        | some negated => .ok negated.toDec
        | none => .error .negateFailed
      else .ok inner.toDec

/-- `FromStr for Dec`. -/
def fromStr (s : List Char) : Except DecParseError Dec := do
  let ((large, small), isNeg) := splitParts s
  let numLarge ← (Uint.fromDecStr large).mapError .notInteger
  if small.isEmpty then throw .noDecimals
  let decimal ← decimalPart small
  let intPart ← (match uintChecked (10 ^ posDecimalPrecision * numLarge) with
    | some part => pure part
    | none => throw .tooLarge)
  let total ← (match uintChecked (intPart + decimal) with
    | some total => pure total
    | none => throw .addOverflow)
  signedInner isNeg total

/-! ## The parser's steps -/

/-- A string that starts with a digit has no sign to strip. -/
theorem splitParts_of_isDigit {s : List Char} (hhead : ∀ c rest, s = c :: rest → c.isDigit = true) :
    splitParts s = ((splitOnce '.' s).getD (s, ['0']), false) := by
  unfold splitParts
  split
  case h_1 strip => exact absurd (hhead '-' strip rfl) (by decide)
  case h_2 => rfl

/-- A sign in front of a string that starts with a digit is read as the sign. -/
theorem splitParts_sign (isNeg : Bool) {rest : List Char}
    (hhead : ∀ c tail, rest = c :: tail → c.isDigit = true) :
    splitParts ((if isNeg then ['-'] else []) ++ rest) = ((splitOnce '.' rest).getD (rest, ['0']), isNeg) := by
  cases isNeg
  case false => exact splitParts_of_isDigit hhead
  case true => rfl

/-- A fraction of zeros reads as zero. -/
theorem decimalPart_of_trimEnd_eq_nil {small : List Char} (hzeros : trimEnd '0' small = []) :
    decimalPart small = .ok 0 := by
  rw [decimalPart, hzeros]
  rfl

/-- A fraction of at most twelve digits that ends in no zero reads as its digits
scaled to twelve places. -/
theorem decimalPart_of_digits {small : List Char} (hdigits : ∀ c ∈ small, c.isDigit = true)
    (htrim : trimEnd '0' small = small) (hne : small ≠ []) (hlength : small.length ≤ posDecimalPrecision) :
    decimalPart small =
      .ok (Nat.ofDigits 10 (small.filterMap toDigit).reverse * 10 ^ (posDecimalPrecision - small.length)) := by
  have hbytes := byteLength_of_isDigit hdigits
  have hread := ofDigits_filterMap_lt small
  rw [length_filterMap_of_isDigit hdigits] at hread
  have htwelve : 10 ^ posDecimalPrecision < 2 ^ 256 := by decide
  have hscaled : Nat.ofDigits 10 (small.filterMap toDigit).reverse * 10 ^ (posDecimalPrecision - small.length) <
      10 ^ posDecimalPrecision := by
    calc Nat.ofDigits 10 (small.filterMap toDigit).reverse * 10 ^ (posDecimalPrecision - small.length)
        < 10 ^ small.length * 10 ^ (posDecimalPrecision - small.length) :=
          Nat.mul_lt_mul_of_pos_right hread (Nat.pow_pos (by decide))
      _ = 10 ^ posDecimalPrecision := by rw [← Nat.pow_add, Nat.add_sub_cancel' hlength]
  have hfit : Nat.ofDigits 10 (small.filterMap toDigit).reverse < 2 ^ 256 :=
    lt_of_lt_of_le hread (le_of_lt (lt_of_le_of_lt (Nat.pow_le_pow_right (by decide) hlength) htwelve))
  rw [decimalPart]
  rw [htrim, List.take_of_length_le hlength, if_neg (by simpa using hne), hbytes, if_neg (by omega),
    Uint.fromDecStr_eq hdigits hfit]
  simp only [Except.mapError, ok_bind]
  rw [uintChecked_of_lt (lt_trans hscaled htwelve)]

/-- A total of the symmetric range is the `Dec` with its sign. -/
theorem signedInner_of_le (isNeg : Bool) {total : ℕ} (htotal : total ≤ maxSignedValue) :
    signedInner isNeg total = .ok ⟨if isNeg then -(total : ℤ) else total⟩ := by
  have hbits : (BitVec.ofNat 256 total).toNat = total := by
    rw [BitVec.toNat_ofNat]
    unfold maxSignedValue at htotal
    exact Nat.mod_eq_of_lt (by omega)
  have hbound : (BitVec.ofNat 256 total).toNat ≤ maxSignedValue := by
    rw [hbits]
    exact htotal
  rw [signedInner, I256.tryFrom_of_le hbound]
  dsimp only
  cases isNeg
  case false =>
    rw [if_neg Bool.false_ne_true, I256.toDec_of_ofInt (I256.ofInt_toNat hbound), hbits]
    rfl
  case true =>
    have hneg : I256.ofInt (-(total : ℤ)) = some ⟨BitVec.ofInt 256 (-(total : ℤ))⟩ :=
      if_pos (by rw [Int.natAbs_neg, Int.natAbs_natCast]; exact htotal)
    rw [if_pos rfl, I256.checkedNeg_mk hbound, hbits, hneg]
    dsimp only
    rw [I256.toDec_of_ofInt hneg]
    rfl

/-- What `signedInner` gives is of the symmetric range. -/
theorem signedInner_natAbs_le {isNeg : Bool} {total : ℕ} {d : Dec} (hok : signedInner isNeg total = .ok d) :
    d.raw.natAbs ≤ maxSignedValue := by
  unfold signedInner at hok
  split at hok
  case h_1 => cases hok
  case h_2 inner hinner =>
    have hcanonical := I256.tryFrom_canonical hinner
    split at hok
    case isTrue =>
      split at hok
      case h_1 negated hnegated =>
        cases hok
        exact (I256.checkedNeg_canonical hcanonical hnegated).natAbs_value_le
      case h_2 => cases hok
    case isFalse =>
      cases hok
      exact hcanonical.natAbs_value_le

/-- `from_str` once the two sides are read. -/
theorem fromStr_of_parts {s large small : List Char} {isNeg : Bool} {numLarge decimal : ℕ}
    (hparts : splitParts s = ((large, small), isNeg)) (hlarge : Uint.fromDecStr large = .ok numLarge)
    (hsmall : small ≠ []) (hdecimal : decimalPart small = .ok decimal)
    (htotal : 10 ^ posDecimalPrecision * numLarge + decimal ≤ maxSignedValue) :
    fromStr s = .ok ⟨if isNeg then -((10 ^ posDecimalPrecision * numLarge + decimal : ℕ) : ℤ)
      else ((10 ^ posDecimalPrecision * numLarge + decimal : ℕ) : ℤ)⟩ := by
  have hmax : maxSignedValue < 2 ^ 256 := by decide
  have hint : 10 ^ posDecimalPrecision * numLarge < 2 ^ 256 := by omega
  have hsum : 10 ^ posDecimalPrecision * numLarge + decimal < 2 ^ 256 := by omega
  unfold fromStr
  rw [hparts]
  dsimp only
  rw [hlarge]
  simp only [Except.mapError, ok_bind, List.isEmpty_eq_false_iff.mpr hsmall, Bool.false_eq_true,
    if_false, hdecimal, uintChecked_of_lt hint, pure_bind, uintChecked_of_lt hsum]
  exact signedInner_of_le isNeg htotal

/-- Whatever `from_str` accepts is of the symmetric range. -/
theorem fromStr_natAbs_le {s : List Char} {d : Dec} (hok : fromStr s = .ok d) :
    d.raw.natAbs ≤ maxSignedValue := by
  unfold fromStr at hok
  rcases hparts : splitParts s with ⟨⟨large, small⟩, isNeg⟩
  rw [hparts] at hok
  dsimp only at hok
  obtain ⟨numLarge, -, hok⟩ := bind_eq_ok hok
  -- a missing fraction is refused
  split at hok
  case isTrue => cases hok
  obtain ⟨decimal, -, hok⟩ := bind_eq_ok hok
  obtain ⟨intPart, -, hok⟩ := bind_eq_ok hok
  obtain ⟨total, -, hok⟩ := bind_eq_ok hok
  exact signedInner_natAbs_le hok

/-! ## The display read back -/

/-- The display trims a split value: the fraction loses its trailing zeros, and
the point goes with them when nothing is left of it. -/
theorem trimEnd_point {int frac : List Char} (hint : ∀ c ∈ int, c.isDigit = true)
    (hfrac : ∀ c ∈ frac, c.isDigit = true) :
    trimEnd '.' (trimEnd '0' (int ++ '.' :: frac)) =
      if trimEnd '0' frac = [] then int else int ++ '.' :: trimEnd '0' frac := by
  have hnoPoint : ∀ {chars : List Char}, (∀ c ∈ chars, c.isDigit = true) → ∀ c ∈ chars, c ≠ '.' :=
    fun hdigits c hc heq => by
      have hdigit := hdigits c hc
      rw [heq] at hdigit
      cases hdigit
  have hjoin : int ++ '.' :: frac = (int ++ ['.']) ++ frac := by simp
  rw [hjoin, trimEnd_append, trimEnd_append_of_ne (by decide : '.' ≠ '0')]
  split
  case isTrue => rw [trimEnd_append_self, trimEnd_of_forall_ne (hnoPoint hint)]
  case isFalse hkept =>
    have hkeptDigits : ∀ c ∈ trimEnd '0' frac, c.isDigit = true :=
      fun c hc => hfrac c ((trimEnd_isPrefix '0' frac).sublist.subset hc)
    rw [trimEnd_append, trimEnd_of_forall_ne (hnoPoint hkeptDigits), if_neg hkept]
    simp

/-- The display of a value split by the point: the sign, the integer side and,
where the fraction is not all zeros, the point and the fraction up to its last
nonzero digit. -/
theorem toString_eq_of_split {d : Dec} {int frac : List Char}
    (hpoint : DenominatedAmount.insertPoint posDecimalPrecision (Nat.toDigits 10 d.raw.natAbs) =
      int ++ '.' :: frac)
    (hintNe : int ≠ []) (hint : ∀ c ∈ int, c.isDigit = true) (hfrac : ∀ c ∈ frac, c.isDigit = true) :
    d.toString = (if decide (d.raw < 0) then ['-'] else []) ++
      (if trimEnd '0' frac = [] then int else int ++ '.' :: trimEnd '0' frac) := by
  have hne : (if trimEnd '0' frac = [] then int else int ++ '.' :: trimEnd '0' frac) ≠ [] := by
    split
    · exact hintNe
    · simp
  unfold toString
  dsimp only
  rw [hpoint, trimEnd_point hint hfrac, if_neg (by simpa using hne)]
  cases decide (d.raw < 0) <;> rfl

/-- A `Dec` is its absolute value with its sign. -/
theorem mk_sign_natAbs (d : Dec) :
    (⟨if decide (d.raw < 0) then -(d.raw.natAbs : ℤ) else (d.raw.natAbs : ℤ)⟩ : Dec) = d := by
  cases d with
  | mk raw =>
      congr 1
      dsimp only
      by_cases hneg : raw < 0
      · rw [if_pos (decide_eq_true hneg)]
        omega
      · rw [if_neg (fun h => hneg (of_decide_eq_true h))]
        omega

/-- Every `Dec` of the symmetric range reads back from its display. -/
theorem fromStr_toString {d : Dec} (hd : d.raw.natAbs ≤ maxSignedValue) : fromStr d.toString = .ok d := by
  obtain ⟨int, frac, hpoint, hintNe, hint, hfrac, hfracLength, hread⟩ :=
    DenominatedAmount.insertPoint_eq_split (by decide : 0 < posDecimalPrecision) d.raw.natAbs
  have hhead : ∀ c tail, int = c :: tail → c.isDigit = true :=
    fun c tail hcons => hint c (hcons ▸ List.mem_cons_self)
  have hnoPoint : ∀ c ∈ int, c ≠ '.' := fun c hc heq => by
    have hdigit := hint c hc
    rw [heq] at hdigit
    cases hdigit
  -- the fraction is what the display keeps of it followed by zeros
  have hkeptDigits : ∀ c ∈ trimEnd '0' frac, c.isDigit = true :=
    fun c hc => hfrac c ((trimEnd_isPrefix '0' frac).sublist.subset hc)
  have hkeptLength : (trimEnd '0' frac).length ≤ posDecimalPrecision :=
    hfracLength ▸ (trimEnd_isPrefix '0' frac).length_le
  have hfracRead : Nat.ofDigits 10 (frac.filterMap toDigit).reverse =
      Nat.ofDigits 10 ((trimEnd '0' frac).filterMap toDigit).reverse *
        10 ^ (posDecimalPrecision - (trimEnd '0' frac).length) := by
    have hzerosAfter : trimEnd '0' frac ++
        List.replicate (frac.length - (trimEnd '0' frac).length) '0' = frac :=
      trimEnd_append_replicate_length frac
    conv_lhs => rw [← hzerosAfter]
    rw [ofDigits_filterMap_append_replicate, hfracLength]
  have htotal : 10 ^ posDecimalPrecision * Nat.ofDigits 10 (int.filterMap toDigit).reverse +
      Nat.ofDigits 10 (frac.filterMap toDigit).reverse = d.raw.natAbs := by
    rw [Nat.mul_comm]
    exact hread
  have hpos : 0 < 10 ^ posDecimalPrecision := Nat.pow_pos (by decide)
  have hintValue : Nat.ofDigits 10 (int.filterMap toDigit).reverse ≤ maxSignedValue := by
    have hgrow := Nat.le_mul_of_pos_right (Nat.ofDigits 10 (int.filterMap toDigit).reverse) hpos
    omega
  have hintRead := Uint.fromDecStr_eq hint (by unfold maxSignedValue at hintValue; omega)
  rw [toString_eq_of_split hpoint hintNe hint hfrac]
  by_cases hzeros : trimEnd '0' frac = []
  · -- an integer: no point is printed, and the fraction reads as zero
    have hsplit : (splitOnce '.' int).getD (int, ['0']) = (int, ['0']) := by
      rw [splitOnce_of_forall_ne hnoPoint]
      rfl
    have hfracZero : Nat.ofDigits 10 (frac.filterMap toDigit).reverse = 0 := by
      rw [hfracRead, hzeros]
      simp
    have hsum : 10 ^ posDecimalPrecision * Nat.ofDigits 10 (int.filterMap toDigit).reverse + 0 =
        d.raw.natAbs := by omega
    rw [if_pos hzeros, fromStr_of_parts (by rw [splitParts_sign _ hhead, hsplit]) hintRead
      (List.cons_ne_nil _ _) (decimalPart_of_trimEnd_eq_nil (by decide)) (hsum ▸ hd), hsum,
      mk_sign_natAbs]
  · -- a fraction: the point and the digits up to the last nonzero one
    have hsplit : (splitOnce '.' (int ++ '.' :: trimEnd '0' frac)).getD
        (int ++ '.' :: trimEnd '0' frac, ['0']) = (int, trimEnd '0' frac) := by
      rw [splitOnce_append_cons hnoPoint]
      rfl
    have hheadPoint : ∀ c tail, int ++ '.' :: trimEnd '0' frac = c :: tail → c.isDigit = true := by
      intro c tail hcons
      obtain ⟨first, others, rfl⟩ := List.exists_cons_of_ne_nil hintNe
      rw [List.cons_append, List.cons.injEq] at hcons
      exact hcons.1 ▸ hint first List.mem_cons_self
    have hsum : 10 ^ posDecimalPrecision * Nat.ofDigits 10 (int.filterMap toDigit).reverse +
        Nat.ofDigits 10 ((trimEnd '0' frac).filterMap toDigit).reverse *
          10 ^ (posDecimalPrecision - (trimEnd '0' frac).length) = d.raw.natAbs := by
      rw [← hfracRead]
      exact htotal
    rw [if_neg hzeros, fromStr_of_parts (by rw [splitParts_sign _ hheadPoint, hsplit]) hintRead hzeros
      (decimalPart_of_digits hkeptDigits (trimEnd_trimEnd _) hzeros hkeptLength) (hsum ▸ hd), hsum,
      mk_sign_natAbs]

end Dec

/-- `Dec::from_str` reads back what `Display` writes, for every canonical
value and for every value `from_str` returned. -/
theorem dec_string_roundTrip :
    (∀ x : I256, x.Canonical → Dec.fromStr x.toDec.toString = .ok x.toDec) ∧
      ∀ (s : List Char) (d : Dec), Dec.fromStr s = .ok d → Dec.fromStr d.toString = .ok d :=
  ⟨fun _ hx => Dec.fromStr_toString hx.natAbs_value_le,
    fun _ _ hok => Dec.fromStr_toString (Dec.fromStr_natAbs_le hok)⟩

/-- `-001.50` reads as minus one and a half, which reads back from its string
`-1.5`; the `I256` of `-70000000000005` reads back from `-70.000000000005`. -/
theorem dec_string_roundTrip_minus_one_and_a_half :
    Dec.fromStr "-001.50".toList = .ok ⟨-1500000000000⟩ ∧
      Dec.fromStr (Dec.toString ⟨-1500000000000⟩) = .ok ⟨-1500000000000⟩ ∧
      Dec.fromStr (⟨BitVec.ofInt 256 (-70000000000005)⟩ : I256).toDec.toString =
        .ok (⟨BitVec.ofInt 256 (-70000000000005)⟩ : I256).toDec := by
  have hparse : Dec.fromStr "-001.50".toList = .ok ⟨-1500000000000⟩ := by decide
  exact ⟨hparse, dec_string_roundTrip.2 _ _ hparse, dec_string_roundTrip.1 _ (by decide)⟩

end Namada.Core
