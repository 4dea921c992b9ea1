/-
# Decimal numerals

A natural number printed in decimal (`Nat.toDigits 10`, no leading zeros, `0`
for zero), the digit an ASCII character stands for, and a list of digits read
back least significant first (`Nat.ofDigits 10`). Parsers that read the digits
of a string are checked against what a number prints with these. Strings are
lists of characters; their length in UTF-8 bytes, the trimming of a
trailing character and the split at the first copy of one are those of
Rust's `str`.
-/

import Mathlib

namespace Namada.Math

/-- `char::to_digit(10)`: the value of an ASCII decimal digit. -/
def toDigit (c : Char) : Option ℕ := if c.isDigit then some (c.toNat - 48) else none

/-- `str::len`: the length of a string in UTF-8 bytes. -/
def byteLength (chars : List Char) : ℕ := (chars.map Char.utf8Size).sum

/-- `str::trim_end_matches` with one character: the string without the copies
of `c` it ends with. -/
def trimEnd (c : Char) (chars : List Char) : List Char := (chars.reverse.dropWhile (· == c)).reverse

/-- `str::split_once` at a character: the parts before and after its first copy. -/
def splitOnce (c : Char) : List Char → Option (List Char × List Char)
  | [] => none
  | x :: rest => if x = c then some ([], rest) else (splitOnce c rest).map fun parts => (x :: parts.1, parts.2)

/-! ## Digits -/

theorem toDigit_digitChar {digit : ℕ} (hdigit : digit < 10) :
    toDigit digit.digitChar = some digit := by
  rw [toDigit, Nat.isDigit_digitChar, decide_eq_true hdigit, if_pos rfl,
    Nat.toNat_digitChar_sub_48_of_lt_ten hdigit]

theorem isDigit_of_toDigit {c : Char} {digit : ℕ} (hdigit : toDigit c = some digit) :
    c.isDigit = true := by
  unfold toDigit at hdigit
  split_ifs at hdigit with hc
  exact hc

/-- An ASCII digit is one of the characters `48` to `57`. -/
theorem toNat_of_isDigit {c : Char} (hc : c.isDigit = true) : 48 ≤ c.toNat ∧ c.toNat ≤ 57 := by
  simp only [Char.isDigit, Bool.and_eq_true, decide_eq_true_eq] at hc
  exact hc

theorem lt_ten_of_toDigit {c : Char} {digit : ℕ} (hdigit : toDigit c = some digit) : digit < 10 := by
  have hc := isDigit_of_toDigit hdigit
  have hbounds := toNat_of_isDigit hc
  unfold toDigit at hdigit
  rw [if_pos hc] at hdigit
  cases hdigit
  omega

/-- An ASCII digit is one byte long. -/
theorem utf8Size_of_isDigit {c : Char} (hc : c.isDigit = true) : c.utf8Size = 1 := by
  have hbounds := toNat_of_isDigit hc
  apply Char.utf8Size_eq_one_iff.mpr
  exact UInt32.le_iff_toNat_le.mpr (by change c.toNat ≤ 127; omega)

/-- A string of ASCII digits is as many bytes long as it has characters. -/
theorem byteLength_of_isDigit {chars : List Char} (hdigits : ∀ c ∈ chars, c.isDigit = true) :
    byteLength chars = chars.length := by
  induction chars with
  | nil => rfl
  | cons c rest ih =>
      have hrest := ih fun other hother => hdigits other (List.mem_cons_of_mem _ hother)
      rw [byteLength, List.map_cons, List.sum_cons, ← byteLength, hrest,
        utf8Size_of_isDigit (hdigits c List.mem_cons_self), List.length_cons, Nat.add_comm]

theorem byteLength_append (first second : List Char) :
    byteLength (first ++ second) = byteLength first + byteLength second := by
  simp [byteLength]

theorem lt_ten_of_mem_filterMap {chars : List Char} {digit : ℕ}
    (hmem : digit ∈ chars.filterMap toDigit) : digit < 10 := by
  obtain ⟨c, _, hc⟩ := List.mem_filterMap.mp hmem
  exact lt_ten_of_toDigit hc

/-- A string of ASCII digits gives a digit for every character. -/
theorem length_filterMap_of_isDigit {chars : List Char} (hdigits : ∀ c ∈ chars, c.isDigit = true) :
    (chars.filterMap toDigit).length = chars.length := by
  rw [List.length_filterMap_eq_countP, List.countP_eq_length]
  intro c hmem
  simp [toDigit, hdigits c hmem]

/-- The digits of a string, read least significant first, are below `10 ^ n`
for `n` the number of them. -/
theorem ofDigits_filterMap_lt (chars : List Char) :
    Nat.ofDigits 10 (chars.filterMap toDigit).reverse < 10 ^ (chars.filterMap toDigit).length := by
  rw [← List.length_reverse]
  exact Nat.ofDigits_lt_base_pow_length (by decide)
    fun digit hmem => lt_ten_of_mem_filterMap (List.mem_reverse.mp hmem)

/-- A character that is no digit gives none. -/
theorem toDigit_of_not_isDigit {c : Char} (hc : c.isDigit = false) : toDigit c = none := by
  rw [toDigit, if_neg (by rw [hc]; decide)]

/-- Zeros in front of a string of digits do not change the number it reads. -/
theorem ofDigits_filterMap_replicate_append (count : ℕ) (chars : List Char) :
    Nat.ofDigits 10 ((List.replicate count '0' ++ chars).filterMap toDigit).reverse =
      Nat.ofDigits 10 (chars.filterMap toDigit).reverse := by
  have hzeros : (List.replicate count '0').filterMap toDigit = List.replicate count 0 := by
    induction count with
    | zero => rfl
    | succ count ih =>
        rw [List.replicate_succ, List.filterMap_cons_some (by decide : toDigit '0' = some 0), ih,
          List.replicate_succ]
  rw [List.filterMap_append, hzeros, List.reverse_append, List.reverse_replicate,
    Nat.ofDigits_append_replicate_zero]

/-- The digits of a joined string read as the first part's shifted past the
second's. -/
theorem ofDigits_filterMap_append (first second : List Char) :
    Nat.ofDigits 10 ((first ++ second).filterMap toDigit).reverse =
      Nat.ofDigits 10 (first.filterMap toDigit).reverse * 10 ^ (second.filterMap toDigit).length +
        Nat.ofDigits 10 (second.filterMap toDigit).reverse := by
  rw [List.filterMap_append, List.reverse_append, Nat.ofDigits_append, List.length_reverse]
  ring

/-- Zeros after a string of digits shift the number it reads. -/
theorem ofDigits_filterMap_append_replicate (chars : List Char) (count : ℕ) :
    Nat.ofDigits 10 ((chars ++ List.replicate count '0').filterMap toDigit).reverse =
      Nat.ofDigits 10 (chars.filterMap toDigit).reverse * 10 ^ count := by
  have hzeros : Nat.ofDigits 10 ((List.replicate count '0').filterMap toDigit).reverse = 0 := by
    simpa using ofDigits_filterMap_replicate_append count []
  have hcount : ((List.replicate count '0').filterMap toDigit).length = count := by
    rw [length_filterMap_of_isDigit (fun c hc => by rw [List.eq_of_mem_replicate hc]; rfl),
      List.length_replicate]
  rw [ofDigits_filterMap_append, hzeros, hcount, Nat.add_zero]

/-- Keeping the digits of a string of digits keeps it all. -/
theorem filter_isDigit_of_forall {chars : List Char} (hdigits : ∀ c ∈ chars, c.isDigit = true) :
    chars.filter Char.isDigit = chars :=
  List.filter_eq_self.mpr hdigits

/-! ## What a number prints -/

theorem isDigit_of_mem_toDigits {value : ℕ} {c : Char} (hmem : c ∈ Nat.toDigits 10 value) :
    c.isDigit = true :=
  Nat.isDigit_of_mem_toDigits (by decide) (by decide) hmem

theorem byteLength_toDigits (value : ℕ) :
    byteLength (Nat.toDigits 10 value) = (Nat.toDigits 10 value).length :=
  byteLength_of_isDigit fun _ hmem => isDigit_of_mem_toDigits hmem

/-- The digits a number prints, read back least significant first, are the
number. -/
theorem ofDigits_filterMap_toDigits (value : ℕ) :
    Nat.ofDigits 10 ((Nat.toDigits 10 value).filterMap toDigit).reverse = value := by
  induction value using Nat.strong_induction_on with
  | _ value ih =>
      rcases Nat.lt_or_ge value 10 with hsmall | hlarge
      · rw [Nat.toDigits_of_lt_base hsmall, List.filterMap_cons_some (toDigit_digitChar hsmall)]
        simp
      · -- the last digit printed is the remainder, the others print the quotient
        have hquotient : value / 10 < value := Nat.div_lt_self (by omega) (by decide)
        rw [Nat.toDigits_of_base_le (by decide) hlarge, List.filterMap_append,
          List.filterMap_cons_some (toDigit_digitChar (Nat.mod_lt _ (by decide))),
          List.filterMap_nil, List.reverse_append, List.reverse_singleton, List.singleton_append,
          Nat.ofDigits_cons, ih _ hquotient]
        omega

/-- A number prints at most `count` digits exactly when it is below `10 ^ count`. -/
theorem length_toDigits_le_iff {value count : ℕ} (hcount : 0 < count) :
    (Nat.toDigits 10 value).length ≤ count ↔ value < 10 ^ count :=
  Nat.length_toDigits_le_iff (by decide) hcount

/-- A number that ends in zero prints its tenth and a zero. -/
theorem toDigits_of_mod_eq_zero {value : ℕ} (hpos : 0 < value) (hzero : value % 10 = 0) :
    Nat.toDigits 10 value = Nat.toDigits 10 (value / 10) ++ ['0'] := by
  have hlarge : 10 ≤ value := by omega
  rw [Nat.toDigits_of_base_le (by decide) hlarge, hzero]
  rfl

/-- A number prints its last digit last. -/
theorem toDigits_eq_append_last (value : ℕ) :
    ∃ init, Nat.toDigits 10 value = init ++ [(value % 10).digitChar] := by
  rcases Nat.lt_or_ge value 10 with hsmall | hlarge
  · exact ⟨[], by rw [Nat.toDigits_of_lt_base hsmall, Nat.mod_eq_of_lt hsmall]; rfl⟩
  · exact ⟨_, Nat.toDigits_of_base_le (by decide) hlarge⟩

/-! ## Trimming the end of a string -/

variable {c : Char}

@[simp] theorem trimEnd_nil : trimEnd c [] = [] := rfl

/-- A copy of the trimmed character at the end goes. -/
@[simp] theorem trimEnd_append_self (chars : List Char) : trimEnd c (chars ++ [c]) = trimEnd c chars := by
  simp [trimEnd]

/-- A string that ends in another character stays whole. -/
theorem trimEnd_append_of_ne {last : Char} (hne : last ≠ c) (chars : List Char) :
    trimEnd c (chars ++ [last]) = chars ++ [last] := by
  simp [trimEnd, hne]

/-- Copies of the trimmed character at the end go. -/
theorem trimEnd_append_replicate (chars : List Char) (count : ℕ) :
    trimEnd c (chars ++ List.replicate count c) = trimEnd c chars := by
  induction count with
  | zero => simp
  | succ count ih => rw [List.replicate_succ', ← List.append_assoc, trimEnd_append_self, ih]

/-- Trimming leaves a prefix of the string. -/
theorem trimEnd_isPrefix (c : Char) (chars : List Char) : trimEnd c chars <+: chars := by
  have hsuffix : chars.reverse.dropWhile (· == c) <:+ chars.reverse := List.dropWhile_suffix _
  simpa [trimEnd] using List.reverse_prefix.mpr hsuffix

/-- A number's digits end in a digit, so no trimming of a non-digit touches them. -/
theorem trimEnd_toDigits (hc : c.isDigit = false) (value : ℕ) :
    trimEnd c (Nat.toDigits 10 value) = Nat.toDigits 10 value := by
  obtain ⟨init, hinit⟩ := toDigits_eq_append_last value
  have hlast : (value % 10).digitChar ≠ c := by
    intro heq
    have hdigit : (value % 10).digitChar.isDigit = true := by
      rw [Nat.isDigit_digitChar]
      exact decide_eq_true (Nat.mod_lt _ (by decide))
    rw [heq, hc] at hdigit
    cases hdigit
  rw [hinit, trimEnd_append_of_ne hlast]

/-- Only a string of copies of the character trims to nothing. -/
theorem trimEnd_eq_nil_iff {chars : List Char} : trimEnd c chars = [] ↔ ∀ x ∈ chars, x = c := by
  simp [trimEnd, List.dropWhile_eq_nil_iff]

/-- A string with no copy of the character stays whole. -/
theorem trimEnd_of_forall_ne {chars : List Char} (hne : ∀ x ∈ chars, x ≠ c) :
    trimEnd c chars = chars := by
  unfold trimEnd
  cases hreverse : chars.reverse with
  | nil => rw [List.dropWhile_nil, List.reverse_nil, List.reverse_eq_nil_iff.mp hreverse]
  | cons last rest =>
      have hlast : last ∈ chars := List.mem_reverse.mp (hreverse ▸ List.mem_cons_self)
      rw [List.dropWhile_cons_of_neg (by simpa using hne last hlast), ← hreverse,
        List.reverse_reverse]

/-- Trimming twice trims as once. -/
@[simp] theorem trimEnd_trimEnd (chars : List Char) : trimEnd c (trimEnd c chars) = trimEnd c chars := by
  simp only [trimEnd, List.reverse_reverse, List.dropWhile_idempotent]

/-- A joined string trims in its second part, or, where that trims to nothing,
in its first. -/
theorem trimEnd_append (first second : List Char) :
    trimEnd c (first ++ second) =
      if trimEnd c second = [] then trimEnd c first else first ++ trimEnd c second := by
  unfold trimEnd
  rw [List.reverse_append, List.dropWhile_append]
  by_cases hnil : List.dropWhile (· == c) second.reverse = []
  · rw [if_pos (List.isEmpty_iff.mpr hnil), if_pos (by rw [hnil, List.reverse_nil])]
  · rw [if_neg (fun hempty => hnil (List.isEmpty_iff.mp hempty)),
      if_neg (fun hreverse => hnil (List.reverse_eq_nil_iff.mp hreverse)), List.reverse_append,
      List.reverse_reverse]

/-- A string is its trimmed part followed by copies of the character. -/
theorem trimEnd_append_replicate_length (chars : List Char) :
    trimEnd c chars ++ List.replicate (chars.length - (trimEnd c chars).length) c = chars := by
  have hsplit := List.takeWhile_append_dropWhile (p := (· == c)) (l := chars.reverse)
  have hlength : (List.takeWhile (· == c) chars.reverse).length =
      chars.length - (trimEnd c chars).length := by
    have hsum := congrArg List.length hsplit
    rw [List.length_append, List.length_reverse] at hsum
    rw [trimEnd, List.length_reverse]
    omega
  have hcopies : List.takeWhile (· == c) chars.reverse =
      List.replicate (chars.length - (trimEnd c chars).length) c :=
    List.eq_replicate_iff.mpr ⟨hlength, fun x hx => by simpa using List.mem_takeWhile_imp hx⟩
  calc trimEnd c chars ++ List.replicate (chars.length - (trimEnd c chars).length) c
      = (List.takeWhile (· == c) chars.reverse ++ List.dropWhile (· == c) chars.reverse).reverse := by
        rw [List.reverse_append, hcopies, List.reverse_replicate]
        rfl
    _ = chars := by rw [hsplit, List.reverse_reverse]

/-! ## Splitting at a character -/

theorem splitOnce_of_forall_ne {chars : List Char} (hne : ∀ x ∈ chars, x ≠ c) :
    splitOnce c chars = none := by
  induction chars with
  | nil => rfl
  | cons x rest ih =>
      rw [splitOnce, if_neg (hne x List.mem_cons_self),
        ih fun y hy => hne y (List.mem_cons_of_mem _ hy)]
      rfl

/-- The split is at the first copy of the character. -/
theorem splitOnce_append_cons {first : List Char} (hne : ∀ x ∈ first, x ≠ c) (second : List Char) :
    splitOnce c (first ++ c :: second) = some (first, second) := by
  induction first with
  | nil => rw [List.nil_append, splitOnce, if_pos rfl]
  | cons x rest ih =>
      rw [List.cons_append, splitOnce, if_neg (hne x List.mem_cons_self),
        ih fun y hy => hne y (List.mem_cons_of_mem _ hy)]
      rfl

end Namada.Math
