/-
# Base32hex without padding

RFC 4648, §7: a byte string is read as a string of bits, the most significant
bit of each byte first; zero bits complete it to a multiple of five, and each
group of five bits is written with the alphabet `0`–`9`, `A`–`V`. Without
padding no `=` follows. Numerically, the bits of `n` bytes are the number the
bytes write in base 256, the completed bits that number shifted left by the
padding, and the output its digits in base 32.

Decoding undoes this and rejects what no encoding produces: a length that no
number of bytes encodes to, a character outside the alphabet, and nonzero
padding bits. Encodings round-trip, and encodings of byte strings of one length
compare, character by character, as the numbers the bytes write.
-/

import Namada.Math.FixedWidth

namespace Namada.Math.Base32Hex

/-- The alphabet, in the order of the digits it writes. -/
def alphabet : List Char :=
  ['0', '1', '2', '3', '4', '5', '6', '7', '8', '9', 'A', 'B', 'C', 'D', 'E', 'F',
    'G', 'H', 'I', 'J', 'K', 'L', 'M', 'N', 'O', 'P', 'Q', 'R', 'S', 'T', 'U', 'V']

/-- The character of a digit below 32. -/
def digitChar (digit : ℕ) : Char := alphabet.getD digit '0'

/-- The digit a character writes, if it is in the alphabet. -/
def charDigit (char : Char) : Option ℕ := alphabet.idxOf? char

/-- The zero bits that complete `8 * byteCount` bits to a multiple of five. -/
def padBits (byteCount : ℕ) : ℕ := (5 - 8 * byteCount % 5) % 5

/-- The number of characters `byteCount` bytes encode to. -/
def encodedLength (byteCount : ℕ) : ℕ := (8 * byteCount + padBits byteCount) / 5

/-- `BASE32HEX_NOPAD.encode`. -/
def encode (bytes : List UInt8) : String :=
  String.ofList ((toDigitsBE 32 (encodedLength bytes.length)
    (bytesValue bytes * 2 ^ padBits bytes.length)).map digitChar)

/-- `BASE32HEX_NOPAD.decode`. -/
def decode (string : String) : Option (List UInt8) :=
  let length := string.toList.length
  let byteCount := 5 * length / 8
  let pad := 5 * length - 8 * byteCount
  if pad < 5 then
    match string.toList.mapM charDigit with
    | some digits =>
        let value := ofDigitsBE 32 digits
        if value % 2 ^ pad = 0 then some (toBytesBE byteCount (value / 2 ^ pad)) else none
    | none => none
  else none

-- the test vectors of RFC 4648, §10
example : (encode [0x66]).toList = "CO".toList := by decide
example : (encode [0x66, 0x6F, 0x6F, 0x62, 0x61, 0x72]).toList = "CPNMUOJ1E8".toList := by decide

/-! ## The alphabet -/

theorem digitChar_lt_digitChar_iff :
    ∀ first < 32, ∀ second < 32, (digitChar first < digitChar second ↔ first < second) := by
  decide

theorem digitChar_injective :
    ∀ first < 32, ∀ second < 32, digitChar first = digitChar second → first = second := by
  decide

theorem charDigit_digitChar : ∀ digit < 32, charDigit (digitChar digit) = some digit := by
  decide

theorem digitChar_mem_alphabet : ∀ digit < 32, digitChar digit ∈ alphabet := by
  decide

theorem mapM_charDigit_map_digitChar {digits : List ℕ} (hdigits : ∀ digit ∈ digits, digit < 32) :
    (digits.map digitChar).mapM charDigit = some digits := by
  induction digits with
  | nil => rfl
  | cons digit digits ih =>
      have hhead := charDigit_digitChar digit (hdigits digit List.mem_cons_self)
      have htail := ih fun other hmem => hdigits other (List.mem_cons_of_mem _ hmem)
      simp [List.mapM_cons, hhead, htail]

/-! ## Lengths -/

theorem padBits_lt (byteCount : ℕ) : padBits byteCount < 5 := by
  unfold padBits
  omega

/-- Five bits a character: the encoding holds the bytes' bits and the padding. -/
theorem five_mul_encodedLength (byteCount : ℕ) :
    5 * encodedLength byteCount = 8 * byteCount + padBits byteCount := by
  unfold encodedLength padBits
  omega

/-- An encoding is written in the alphabet. -/
theorem mem_alphabet_of_mem_encode {bytes : List UInt8} {char : Char}
    (hmem : char ∈ (encode bytes).toList) : char ∈ alphabet := by
  rw [encode, String.toList_ofList] at hmem
  obtain ⟨digit, hdigit, rfl⟩ := List.mem_map.mp hmem
  exact digitChar_mem_alphabet digit (lt_of_mem_toDigitsBE (by decide) hdigit)

theorem length_encode (bytes : List UInt8) :
    (encode bytes).toList.length = encodedLength bytes.length := by
  simp [encode]

/-! ## Round trip and order -/

/-- The number the encoded digits write: the bytes' number shifted by the padding,
which stays below `32 ^ encodedLength`. -/
theorem shifted_lt (bytes : List UInt8) :
    bytesValue bytes * 2 ^ padBits bytes.length < 32 ^ encodedLength bytes.length := by
  have hbits : 32 ^ encodedLength bytes.length =
      256 ^ bytes.length * 2 ^ padBits bytes.length := by
    rw [show (32 : ℕ) = 2 ^ 5 by rfl, show (256 : ℕ) = 2 ^ 8 by rfl, ← Nat.pow_mul, ← Nat.pow_mul,
      ← Nat.pow_add, five_mul_encodedLength]
  rw [hbits]
  exact Nat.mul_lt_mul_of_pos_right (bytesValue_lt bytes) (Nat.two_pow_pos _)

theorem decode_encode (bytes : List UInt8) : decode (encode bytes) = some bytes := by
  have hlength := five_mul_encodedLength bytes.length
  have hpad := padBits_lt bytes.length
  have hcount : 5 * encodedLength bytes.length / 8 = bytes.length := by omega
  have hdigits : ∀ digit ∈ toDigitsBE 32 (encodedLength bytes.length)
      (bytesValue bytes * 2 ^ padBits bytes.length), digit < 32 :=
    fun digit hmem => lt_of_mem_toDigitsBE (by decide) hmem
  have hvalue : ofDigitsBE 32 (toDigitsBE 32 (encodedLength bytes.length)
      (bytesValue bytes * 2 ^ padBits bytes.length)) =
        bytesValue bytes * 2 ^ padBits bytes.length := by
    rw [ofDigitsBE_toDigitsBE, Nat.mod_eq_of_lt (shifted_lt bytes)]
  have hshift : 5 * encodedLength bytes.length - 8 * bytes.length = padBits bytes.length := by
    omega
  simp only [decode, encode, String.toList_ofList, List.length_map, length_toDigitsBE, hcount,
    hshift, if_pos hpad, mapM_charDigit_map_digitChar hdigits, hvalue, Nat.mul_mod_left,
    if_true, Nat.mul_div_cancel _ (Nat.two_pow_pos _), toBytesBE_bytesValue]

/-- Encodings of byte strings of one length compare as the numbers the bytes write. -/
theorem encode_lt_encode_iff {first second : List UInt8} (hlength : first.length = second.length) :
    encode first < encode second ↔ bytesValue first < bytesValue second := by
  have hshift : bytesValue first * 2 ^ padBits first.length <
      bytesValue second * 2 ^ padBits first.length ↔ bytesValue first < bytesValue second :=
    Nat.mul_lt_mul_right (Nat.two_pow_pos _)
  have hsecond := shifted_lt second
  rw [← hlength] at hsecond
  rw [String.lt_iff, encode, encode, String.toList_ofList, String.toList_ofList, ← hlength,
    map_lt_map_iff (fun a b (ha : a < 32) (hb : b < 32) => digitChar_lt_digitChar_iff a ha b hb)
      (fun a b ha hb => digitChar_injective a ha b hb) _ _
      (fun _ hmem => lt_of_mem_toDigitsBE (by decide) hmem)
      (fun _ hmem => lt_of_mem_toDigitsBE (by decide) hmem),
    toDigitsBE_lt_iff _ (shifted_lt first) hsecond, hshift]

end Namada.Math.Base32Hex
