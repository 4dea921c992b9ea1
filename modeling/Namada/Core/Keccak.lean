/-
# Keccak hashes and their strings

`keccak.rs`: a `KeccakHash` is 32 bytes, ordered as byte arrays are (the
derived `Ord`). `Display` writes each byte as two upper-case hex digits, and
`TryFrom<&str>` decodes a string with `HEXUPPER` of `data_encoding`, then takes
the bytes as a hash when there are `HASH_LENGTH` of them (that of `hash.rs`). Storage keys of the
bridge pool are these strings (`Key::from(&PendingTransfer)`,
`KeySeg for KeccakHash`), and `BridgePoolTree::parse_key` reads them back.

`HEXUPPER` is modelled from its specification: the sixteen symbols
`0123456789ABCDEF` and no other, two per byte, the high half first, and no
padding; an input of odd length fails before any symbol is read. It decodes
the bytes of the string (`as_bytes`, its UTF-8 encoding), so a character
outside ASCII is bytes outside the alphabet. Of its `DecodeError` only the
kind is kept: no caller in the model reads the position.

Display and `TryFrom<&str>` are inverse: every hash reads back from its string
(`tryFromStr_toString`), and a string that reads as a hash is that hash's
string (`toString_of_tryFromStr`), since the decoder takes upper-case digits
only and a string is determined by its bytes.
-/

import Mathlib
import Namada.Core.Basic

namespace Namada.Core

/-- `KeccakHash`: its 32 bytes. -/
structure KeccakHash where
  bytes : List (Fin 256)
  length_eq : bytes.length = hashLength
  deriving DecidableEq

/-! ## `HEXUPPER` -/

namespace HexUpper

/-- The alphabet of `HEXUPPER`: the symbol of each digit is at its place. -/
def symbols : List Char := ['0', '1', '2', '3', '4', '5', '6', '7', '8', '9', 'A', 'B', 'C', 'D', 'E', 'F']

/-- The symbol of a hex digit. -/
def symbolOf (digit : Fin 16) : Char := symbols.get (digit.cast rfl)

/-- The ASCII byte of a digit's symbol, which is what the decoder reads. -/
def symbolByte (digit : Fin 16) : UInt8 := (symbolOf digit).toUInt8

/-- The digit a byte stands for, if it is one of the alphabet's. -/
def symbolValue (byte : UInt8) : Option (Fin 16) :=
  (List.finRange 16).find? fun digit => symbolByte digit = byte

/-- The byte of two digits, the high half first. -/
def byteOf (high low : Fin 16) : Fin 256 := ⟨16 * high.val + low.val, by omega⟩

/-- `{:02X}` of a byte: its two digits, the high half first. -/
def hexPair (byte : Fin 256) : List Char :=
  [symbolOf ⟨byte.val / 16, by omega⟩, symbolOf ⟨byte.val % 16, by omega⟩]

/-- `HEXUPPER.encode` of one byte: the ASCII bytes of its two digits. -/
def encodePair (byte : Fin 256) : List UInt8 :=
  [symbolByte ⟨byte.val / 16, by omega⟩, symbolByte ⟨byte.val % 16, by omega⟩]

/-- The kind of a `data_encoding::DecodeError`: an input of no whole number of
bytes, or a symbol outside the alphabet. -/
inductive DecodeKind
  | length
  | symbol
  deriving DecidableEq

/-- The bytes of the symbols taken two at a time. -/
def decodePairs : List UInt8 → Except DecodeKind (List (Fin 256))
  | high :: low :: rest =>
    match symbolValue high, symbolValue low with
    | some high, some low => (decodePairs rest).map fun bytes => byteOf high low :: bytes
    | _, _ => .error .symbol
  | _ => .ok []

/-- `HEXUPPER.decode`: the length is checked before the symbols. -/
def decode (input : List UInt8) : Except DecodeKind (List (Fin 256)) :=
  if input.length % 2 = 0 then decodePairs input else .error .length

/-! ### The symbols read back -/

@[simp] theorem symbolValue_symbolByte (digit : Fin 16) : symbolValue (symbolByte digit) = some digit := by
  revert digit
  decide

/-- A byte that has a value is the byte of that value's symbol: the decoder
takes the upper-case digits only. -/
theorem symbolByte_of_symbolValue {byte : UInt8} {digit : Fin 16} (hvalue : symbolValue byte = some digit) :
    symbolByte digit = byte := by
  have hfound := List.find?_some hvalue
  exact of_decide_eq_true hfound

/-- Each symbol is one byte of UTF-8. -/
theorem utf8EncodeChar_symbolOf (digit : Fin 16) : String.utf8EncodeChar (symbolOf digit) = [symbolByte digit] := by
  revert digit
  decide

/-- `{:02X}` of a byte, as UTF-8, is `HEXUPPER` of the byte. -/
theorem flatMap_utf8EncodeChar_hexPair (byte : Fin 256) :
    (hexPair byte).flatMap String.utf8EncodeChar = encodePair byte := by
  rw [hexPair, List.flatMap_cons, List.flatMap_cons, List.flatMap_nil, utf8EncodeChar_symbolOf,
    utf8EncodeChar_symbolOf]
  rfl

@[simp] theorem byteOf_div_mod (byte : Fin 256) :
    byteOf ⟨byte.val / 16, by omega⟩ ⟨byte.val % 16, by omega⟩ = byte := by
  apply Fin.ext
  simp only [byteOf]
  omega

theorem encodePair_byteOf (high low : Fin 16) : encodePair (byteOf high low) = [symbolByte high, symbolByte low] := by
  have hhigh : (⟨(byteOf high low).val / 16, by omega⟩ : Fin 16) = high := by
    apply Fin.ext
    simp only [byteOf]
    omega
  have hlow : (⟨(byteOf high low).val % 16, by omega⟩ : Fin 16) = low := by
    apply Fin.ext
    simp only [byteOf]
    omega
  rw [encodePair, hhigh, hlow]

theorem length_flatMap_encodePair (bytes : List (Fin 256)) :
    (bytes.flatMap encodePair).length = 2 * bytes.length := by
  induction bytes with
  | nil => rfl
  | cons byte rest ih =>
    rw [List.flatMap_cons, List.length_append, ih, List.length_cons]
    simp only [encodePair, List.length_cons, List.length_nil]
    omega

/-- The encoding of bytes decodes to those bytes. -/
theorem decodePairs_flatMap_encodePair (bytes : List (Fin 256)) :
    decodePairs (bytes.flatMap encodePair) = .ok bytes := by
  induction bytes with
  | nil => rfl
  | cons byte rest ih =>
    rw [List.flatMap_cons, encodePair, List.cons_append, List.cons_append, List.nil_append, decodePairs,
      symbolValue_symbolByte, symbolValue_symbolByte]
    dsimp only
    rw [ih, byteOf_div_mod]
    rfl

/-- What decodes to bytes is their encoding. -/
theorem flatMap_encodePair_of_decodePairs :
    ∀ {input : List UInt8} {bytes : List (Fin 256)}, input.length % 2 = 0 →
      decodePairs input = .ok bytes → bytes.flatMap encodePair = input
  | [], _, _, hdecode => by
    cases hdecode
    rfl
  | [_], _, heven, _ => by simp at heven
  | high :: low :: rest, bytes, heven, hdecode => by
    rw [decodePairs] at hdecode
    -- both symbols have values, and the rest decodes
    cases hhigh : symbolValue high with
    | none => rw [hhigh] at hdecode; cases hdecode
    | some highDigit =>
      cases hlow : symbolValue low with
      | none => rw [hhigh, hlow] at hdecode; cases hdecode
      | some lowDigit =>
        rw [hhigh, hlow] at hdecode
        dsimp only at hdecode
        cases hrest : decodePairs rest with
        | error kind => rw [hrest] at hdecode; cases hdecode
        | ok restBytes =>
          rw [hrest] at hdecode
          cases hdecode
          have hrestEven : rest.length % 2 = 0 := by
            simp only [List.length_cons] at heven
            omega
          rw [List.flatMap_cons, encodePair_byteOf, symbolByte_of_symbolValue hhigh,
            symbolByte_of_symbolValue hlow, flatMap_encodePair_of_decodePairs hrestEven hrest]
          rfl

theorem decode_flatMap_encodePair (bytes : List (Fin 256)) : decode (bytes.flatMap encodePair) = .ok bytes := by
  rw [decode, if_pos (by rw [length_flatMap_encodePair]; omega), decodePairs_flatMap_encodePair]

theorem flatMap_encodePair_of_decode {input : List UInt8} {bytes : List (Fin 256)}
    (hdecode : decode input = .ok bytes) : bytes.flatMap encodePair = input := by
  unfold decode at hdecode
  split_ifs at hdecode with heven
  exact flatMap_encodePair_of_decodePairs heven hdecode

end HexUpper

/-! ## Strings as bytes -/

/-- `str::as_bytes`: the UTF-8 encoding of a string. -/
def asBytes (string : String) : List UInt8 := string.toByteArray.data.toList

theorem asBytes_injective : Function.Injective asBytes := by
  intro first second hbytes
  apply String.toByteArray_inj.mp
  apply ByteArray.ext
  exact Array.toList_inj.mp hbytes

theorem asBytes_ofList (chars : List Char) : asBytes (String.ofList chars) = chars.flatMap String.utf8EncodeChar := by
  rw [asBytes, String.toByteArray_ofList, List.utf8Encode, List.toList_data_toByteArray]

/-! ## The hash -/

namespace KeccakHash

open HexUpper

theorem bytes_injective : Function.Injective bytes := by
  rintro ⟨first, _⟩ ⟨second, _⟩ heq
  cases heq
  rfl

/-- The derived `Ord`: the lexicographic order of the bytes. -/
instance : LinearOrder KeccakHash := LinearOrder.lift' bytes bytes_injective

/-- `TryFromError`. -/
inductive TryFromError
  /-- `WrongLength`: the length found, and `HASH_LENGTH`. -/
  | wrongLength (length expected : ℕ)
  /-- `ConversionFailed`: never returned once the length is checked. -/
  | conversionFailed
  /-- `FromStringError`: the string is no `HEXUPPER`. -/
  | fromStringError (kind : DecodeKind)
  deriving DecidableEq

/-- `Display`: two upper-case hex digits per byte. -/
def toString (hash : KeccakHash) : String := String.ofList (hash.bytes.flatMap hexPair)

/-- `TryFrom<&[u8]>`. -/
def tryFromBytes (bytes : List (Fin 256)) : Except TryFromError KeccakHash :=
  if hlength : bytes.length = hashLength then .ok ⟨bytes, hlength⟩
  else .error (.wrongLength bytes.length hashLength)

/-- `TryFrom<&str>`. -/
def tryFromStr (string : String) : Except TryFromError KeccakHash := do
  let bytes ← (decode (asBytes string)).mapError .fromStringError
  tryFromBytes bytes

theorem tryFromStr_eq (string : String) :
    tryFromStr string =
      match decode (asBytes string) with
      | .ok bytes => tryFromBytes bytes
      | .error kind => .error (.fromStringError kind) := by
  unfold tryFromStr
  cases decode (asBytes string) <;> rfl

/-- The bytes of a hash's string are `HEXUPPER` of its bytes. -/
theorem asBytes_toString (hash : KeccakHash) : asBytes hash.toString = hash.bytes.flatMap encodePair := by
  rw [toString, asBytes_ofList, List.flatMap_assoc]
  congr 1
  funext byte
  exact flatMap_utf8EncodeChar_hexPair byte

/-- Every hash reads back from its string. -/
theorem tryFromStr_toString (hash : KeccakHash) : tryFromStr hash.toString = .ok hash := by
  rw [tryFromStr_eq, asBytes_toString, decode_flatMap_encodePair]
  exact dif_pos hash.length_eq

/-- A string that reads as a hash is that hash's string. -/
theorem toString_of_tryFromStr {string : String} {hash : KeccakHash} (hparse : tryFromStr string = .ok hash) :
    hash.toString = string := by
  rw [tryFromStr_eq] at hparse
  cases hdecode : decode (asBytes string) with
  | error kind =>
    rw [hdecode] at hparse
    cases hparse
  | ok bytes =>
    rw [hdecode] at hparse
    dsimp only [tryFromBytes] at hparse
    split_ifs at hparse
    cases hparse
    apply asBytes_injective
    rw [asBytes_toString, flatMap_encodePair_of_decode hdecode]

end KeccakHash

end Namada.Core
