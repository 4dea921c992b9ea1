/-
# Storage keys of `namada_core`

`storage.rs` builds a storage key from segments. A `DbKeySeg` is an address or
a string; `DbKeySeg::parse` rejects a string that holds the separator `/` and
reads a string that starts with `#` as an address. A type that keys storage
implements `KeySeg`: `parse` and `raw` between it and the segment's string, and
`to_db_key`. The fixed-width integers write the base32hex of their big-endian
bytes, a signed one after flipping its sign bit (`impl_int_key_seg!`); `Epoch`
writes the key of its `u64` but `raw`s to its decimal digits; a `String` is its
own segment.

`KeySeg` is a structure of the three functions, passed explicitly, since one
Lean type stands for two Rust types (`BitVec 8` for `u8` and `i8`). Addresses
and their bech32m strings stay abstract: a type with `encode` and `decode`.
An error keeps the string it was raised for; a panic of the source is an error
of its own, so that a caller's `unwrap` can be told from a returned error.
-/

import Namada.Math.Base32Hex
import Namada.Math.Except
import Namada.Math.Separated

namespace Namada.Core

open Namada.Math

/-- `KEY_SEGMENT_SEPARATOR`. -/
def keySegmentSeparator : Char := '/'

/-- `RESERVED_ADDRESS_PREFIX`. -/
def reservedAddressPrefix : Char := '#'

/-- The errors of key parsing (`storage::Error`), and a panic of the source. -/
inductive Error
  /-- `Error::ParseKeySeg`: a segment that does not decode. -/
  | parseKeySeg (input : String)
  /-- `Error::InvalidKeySeg`: a segment that holds the separator. -/
  | invalidKeySeg (input : String)
  /-- `Error::ParseAddress`: a `#` segment that is not an address. -/
  | parseAddress (input : String)
  /-- `ReadError::UnexpectedlyEmptyStorageKey` of the storage API: a key with no segment. -/
  | unexpectedlyEmptyStorageKey
  /-- The source panics. -/
  | panic
  deriving DecidableEq

/-- The string form of addresses: `Address::encode` and `Address::decode`. -/
class AddressCodec (Address : Type) where
  encode : Address → String
  decode : String → Option Address

/-- A key segment. -/
inductive DbKeySeg (Address : Type)
  /-- A segment made of an address. -/
  | addressSeg (address : Address)
  /-- Any other key segment. -/
  | stringSeg (seg : String)
  deriving DecidableEq

/-- A string that `DbKeySeg::parse` keeps as a string segment: no separator,
and no `#` in front. -/
def PlainSegment (string : String) : Prop :=
  keySegmentSeparator ∉ string.toList ∧ string.toList.head? ≠ some reservedAddressPrefix

namespace DbKeySeg

variable {Address : Type} [AddressCodec Address]

/-- `DbKeySeg::parse`: no separator is allowed, and a leading `#` marks an address. -/
def parse (string : String) : Except Error (DbKeySeg Address) :=
  if keySegmentSeparator ∈ string.toList then .error (.invalidKeySeg string)
  else
    match string.toList with
    | first :: rest =>
        if first = reservedAddressPrefix then
          match AddressCodec.decode (String.ofList rest) with
          | some address => .ok (.addressSeg address)
          | none => .error (.parseAddress string)
        else .ok (.stringSeg string)
    | [] => .ok (.stringSeg string)

/-- `DbKeySeg::raw`: an address is written after `#`. -/
def raw : DbKeySeg Address → String
  | .addressSeg address =>
      String.ofList (reservedAddressPrefix :: (AddressCodec.encode address).toList)
  | .stringSeg seg => seg

/-- A string without a separator that does not start with `#` is its own segment. -/
theorem parse_of_plain {string : String} (hplain : PlainSegment string) :
    (parse string : Except Error (DbKeySeg Address)) = .ok (.stringSeg string) := by
  obtain ⟨hsep, hhead⟩ := hplain
  unfold parse
  rw [if_neg hsep]
  cases hchars : string.toList with
  | nil => rfl
  | cons first rest =>
      have hfirst : first ≠ reservedAddressPrefix := by
        intro heq
        apply hhead
        rw [hchars, heq]
        rfl
      simp [hfirst]

/-- A string with the separator is rejected. -/
theorem parse_of_separator {string : String} (hsep : keySegmentSeparator ∈ string.toList) :
    (parse string : Except Error (DbKeySeg Address)) = .error (.invalidKeySeg string) := by
  unfold parse
  rw [if_pos hsep]

end DbKeySeg

/-- The `KeySeg` trait: how a type is parsed from and written to a key segment.
`raw` and `to_db_key` may panic. -/
structure KeySeg (Address T : Type) where
  parse : String → Except Error T
  raw : T → Except Error String
  toDbKey : T → Except Error (DbKeySeg Address)

/-- A storage key: its segments. -/
structure Key (Address : Type) where
  segments : List (DbKeySeg Address)
  deriving DecidableEq

namespace Key

variable {Address : Type} [AddressCodec Address]

/-- `Key::push`: append the segment parsed from the raw string of `other`. -/
def push {T : Type} (key : Key Address) (keySeg : KeySeg Address T) (other : T) :
    Except Error (Key Address) := do
  let raw ← keySeg.raw other
  let seg ← DbKeySeg.parse raw
  pure ⟨key.segments ++ [seg]⟩

/-- Pushing a value whose raw string parses appends that segment. -/
theorem push_of_parse {T : Type} {key : Key Address} {keySeg : KeySeg Address T} {other : T}
    {raw : String} {seg : DbKeySeg Address} (hraw : keySeg.raw other = .ok raw)
    (hparse : DbKeySeg.parse raw = .ok seg) : key.push keySeg other = .ok ⟨key.segments ++ [seg]⟩ := by
  unfold push
  rw [hraw, ok_bind, hparse, ok_bind]
  rfl

/-- Pushing a value whose raw string is rejected fails with the parse error. -/
theorem push_of_parse_error {T : Type} {key : Key Address} {keySeg : KeySeg Address T}
    {other : T} {raw : String} {err : Error} (hraw : keySeg.raw other = .ok raw)
    (hparse : (DbKeySeg.parse raw : Except Error (DbKeySeg Address)) = .error err) :
    key.push keySeg other = .error err := by
  unfold push
  rw [hraw, ok_bind, hparse, error_bind]

/-- `Display for Key`: the raw segments joined by the separator. -/
def toString (key : Key Address) : String :=
  (String.singleton keySegmentSeparator).intercalate (key.segments.map DbKeySeg.raw)

/-- `Key::parse`: split at every separator and parse each piece as a segment. -/
def parse (string : String) : Except Error (Key Address) :=
  if string.isEmpty then .error (.parseKeySeg string)
  else do
    let segments ← (string.toList.splitOn keySegmentSeparator).mapM
      fun chars => DbKeySeg.parse (String.ofList chars)
    pure ⟨segments⟩

/-- A segment is written after the key it is pushed to, behind a separator. -/
theorem toString_append {key : Key Address} (hkey : key.segments ≠ []) (seg : DbKeySeg Address) :
    (⟨key.segments ++ [seg]⟩ : Key Address).toString =
      key.toString ++ String.singleton keySegmentSeparator ++ seg.raw := by
  have hraws : key.segments.map DbKeySeg.raw ≠ [] := fun hnil => hkey (List.map_eq_nil_iff.mp hnil)
  rw [toString, List.map_append, List.map_singleton,
    String.intercalate_append_of_ne_nil hraws (List.cons_ne_nil _ _), String.intercalate_singleton]
  rfl

/-- `Key::join`: the segments of the key, then those of the other. -/
def join (key other : Key Address) : Key Address := ⟨key.segments ++ other.segments⟩

/-- A key joined with another is written as the two behind a separator. -/
theorem toString_join {key other : Key Address} (hkey : key.segments ≠ []) (hother : other.segments ≠ []) :
    (key.join other).toString = key.toString ++ String.singleton keySegmentSeparator ++ other.toString := by
  have hraws : key.segments.map DbKeySeg.raw ≠ [] := fun hnil => hkey (List.map_eq_nil_iff.mp hnil)
  have hotherRaws : other.segments.map DbKeySeg.raw ≠ [] :=
    fun hnil => hother (List.map_eq_nil_iff.mp hnil)
  rw [toString, join, List.map_append, String.intercalate_append_of_ne_nil hraws hotherRaws]
  rfl

/-- Keys that parse back from their strings are told apart by them. -/
theorem eq_of_toString_eq {key other : Key Address} (hkey : parse key.toString = .ok key)
    (hother : parse other.toString = .ok other) (heq : other.toString = key.toString) : other = key := by
  rw [heq, hkey] at hother
  cases hother
  rfl

/-- Every segment is written without the separator and parses back from its
raw string. -/
def Reparses (key : Key Address) : Prop :=
  ∀ seg ∈ key.segments, keySegmentSeparator ∉ seg.raw.toList ∧ DbKeySeg.parse seg.raw = .ok seg

/-- A key whose segments reparse parses back from its string. -/
theorem parse_toString {key : Key Address} (hsegments : key.Reparses) (hne : key.toString ≠ "") :
    parse key.toString = .ok key := by
  have hraws : key.segments.map DbKeySeg.raw ≠ [] := by
    intro hnil
    apply hne
    rw [toString, hnil, String.intercalate_nil]
  have hsplit : key.toString.toList.splitOn keySegmentSeparator =
      key.segments.map fun seg => seg.raw.toList := by
    rw [toString, splitOn_intercalate_singleton _ _ hraws, List.map_map]
    · rfl
    · intro raw hraw
      obtain ⟨seg, hseg, rfl⟩ := List.mem_map.mp hraw
      exact (hsegments seg hseg).1
  have hread : (key.segments.map fun seg => seg.raw.toList).mapM
      (fun chars => DbKeySeg.parse (String.ofList chars)) = .ok key.segments := by
    apply mapM_map_eq_ok
    intro seg hseg
    rw [String.ofList_toList]
    exact (hsegments seg hseg).2
  unfold parse
  rw [if_neg (by rwa [String.isEmpty_iff]), hsplit, hread]
  rfl

end Key

namespace KeySeg

variable {Address : Type} [AddressCodec Address]

/-- `impl KeySeg for DbKeySeg`. -/
def dbKeySeg : KeySeg Address (DbKeySeg Address) where
  parse := DbKeySeg.parse
  raw seg := pure seg.raw
  toDbKey seg := pure seg

/-- `impl KeySeg for String`. -/
def string : KeySeg Address String where
  parse string := pure string
  raw string := pure string
  toDbKey string := pure (.stringSeg string)

/-! ## Fixed-width integers (`impl_int_key_seg!`) -/

/-- `parse` of an unsigned integer of `byteCount` bytes: decode, copy into the
fixed array (which panics on another length) and read big-endian. -/
def unsignedParse (byteCount : ℕ) (string : String) : Except Error (BitVec (8 * byteCount)) :=
  match Base32Hex.decode string with
  | none => .error (.parseKeySeg string)
  | some bytes =>
      if bytes.length = byteCount then .ok (BitVec.ofNat _ (bytesValue bytes)) else .error .panic

/-- `raw` of an unsigned integer: the base32hex of its big-endian bytes. -/
def unsignedRaw (byteCount : ℕ) (value : BitVec (8 * byteCount)) : String :=
  Base32Hex.encode (toBytesBE byteCount value.toNat)

/-- The `KeySeg` of an unsigned integer of `byteCount` bytes. -/
def unsigned (byteCount : ℕ) : KeySeg Address (BitVec (8 * byteCount)) where
  parse := unsignedParse byteCount
  raw value := pure (unsignedRaw byteCount value)
  toDbKey value := pure (.stringSeg (unsignedRaw byteCount value))

/-- The `KeySeg` of a signed integer of `byteCount` bytes: the unsigned one of
the value with its sign bit flipped (`self ^ MIN`, cast without change of bits). -/
def signed (byteCount : ℕ) : KeySeg Address (BitVec (8 * byteCount)) where
  parse string := do
    let complemented ← unsignedParse byteCount string
    pure (complemented ^^^ BitVec.intMin _)
  raw value := pure (unsignedRaw byteCount (value ^^^ BitVec.intMin _))
  toDbKey value := pure (.stringSeg (unsignedRaw byteCount (value ^^^ BitVec.intMin _)))

def u8 : KeySeg Address (BitVec 8) := unsigned 1
def i8 : KeySeg Address (BitVec 8) := signed 1
def u16 : KeySeg Address (BitVec 16) := unsigned 2
def i16 : KeySeg Address (BitVec 16) := signed 2
def u32 : KeySeg Address (BitVec 32) := unsigned 4
def i32 : KeySeg Address (BitVec 32) := signed 4
def u64 : KeySeg Address (BitVec 64) := unsigned 8
def i64 : KeySeg Address (BitVec 64) := signed 8
def u128 : KeySeg Address (BitVec 128) := unsigned 16
def i128 : KeySeg Address (BitVec 128) := signed 16

/-- `impl KeySeg for Epoch`: parsed and keyed as its `u64`, but `raw` is its
decimal `Display`. -/
def epoch : KeySeg Address ℕ where
  parse string := do
    let raw ← (u64 : KeySeg Address (BitVec 64)).parse string
    pure raw.toNat
  raw epoch := pure (Nat.repr epoch)
  toDbKey epoch := (u64 : KeySeg Address (BitVec 64)).toDbKey (BitVec.ofNat 64 epoch)

omit [AddressCodec Address] in
/-- An epoch parses as the value of the `u64` its segment parses to. -/
theorem epoch_parse (string : String) :
    (epoch : KeySeg Address ℕ).parse string = (unsignedParse 8 string).map BitVec.toNat := by
  simp only [epoch, u64, unsigned]
  cases unsignedParse 8 string <;> rfl

omit [AddressCodec Address] in
/-- An epoch is keyed by the segment of its `u64`. -/
theorem epoch_toDbKey (value : ℕ) :
    (epoch : KeySeg Address ℕ).toDbKey value =
      .ok (.stringSeg (unsignedRaw 8 (BitVec.ofNat 64 value))) := rfl

/-! ## Round trips -/

theorem unsignedParse_unsignedRaw (byteCount : ℕ) (value : BitVec (8 * byteCount)) :
    unsignedParse byteCount (unsignedRaw byteCount value) = .ok value := by
  have hlt : value.toNat < 256 ^ byteCount := by
    have hvalue := value.isLt
    rwa [Nat.pow_mul] at hvalue
  simp only [unsignedParse, unsignedRaw, Base32Hex.decode_encode, length_toBytesBE, if_true,
    bytesValue_toBytesBE, Nat.mod_eq_of_lt hlt, BitVec.ofNat_toNat, BitVec.setWidth_eq]

/-- Raw strings of unsigned integers of one width compare as their values. -/
theorem unsignedRaw_lt_iff (byteCount : ℕ) (first second : BitVec (8 * byteCount)) :
    unsignedRaw byteCount first < unsignedRaw byteCount second ↔ first.toNat < second.toNat := by
  have hfirst : first.toNat < 256 ^ byteCount := by
    have hvalue := first.isLt
    rwa [Nat.pow_mul] at hvalue
  have hsecond : second.toNat < 256 ^ byteCount := by
    have hvalue := second.isLt
    rwa [Nat.pow_mul] at hvalue
  have hlength : (toBytesBE byteCount first.toNat).length =
      (toBytesBE byteCount second.toNat).length := by
    rw [length_toBytesBE, length_toBytesBE]
  rw [unsignedRaw, unsignedRaw, Base32Hex.encode_lt_encode_iff hlength, bytesValue_toBytesBE,
    bytesValue_toBytesBE, Nat.mod_eq_of_lt hfirst, Nat.mod_eq_of_lt hsecond]

/-- A base32hex string is a plain segment: it is made of the alphabet, which
has neither the separator nor `#`. -/
theorem plainSegment_encode (bytes : List UInt8) : PlainSegment (Base32Hex.encode bytes) := by
  have halphabet : ∀ char ∈ (Base32Hex.encode bytes).toList, char ∈ Base32Hex.alphabet :=
    fun char hmem => Base32Hex.mem_alphabet_of_mem_encode hmem
  constructor
  · exact fun hmem => absurd (halphabet _ hmem) (by decide)
  · intro hhead
    exact absurd (halphabet _ (List.mem_of_mem_head? hhead)) (by decide)

/-! ## Parse failures -/

/-- `parse` of an unsigned integer panics exactly on a string that decodes to
another number of bytes than the width: `copy_from_slice` into the fixed array
needs the lengths to agree. -/
theorem unsignedParse_eq_panic_iff (byteCount : ℕ) (string : String) :
    unsignedParse byteCount string = .error .panic ↔
      ∃ bytes, Base32Hex.decode string = some bytes ∧ bytes.length ≠ byteCount := by
  unfold unsignedParse
  cases hdecode : Base32Hex.decode string with
  | none => simp
  | some bytes =>
      by_cases hlength : bytes.length = byteCount
      · simp [hlength]
      · simp [hlength]

/-- The base32hex of any bytes but a value's number of them panics the parse. -/
theorem unsignedParse_encode_of_length_ne {byteCount : ℕ} {bytes : List UInt8}
    (hlength : bytes.length ≠ byteCount) :
    unsignedParse byteCount (Base32Hex.encode bytes) = .error .panic :=
  (unsignedParse_eq_panic_iff byteCount _).mpr ⟨bytes, Base32Hex.decode_encode bytes, hlength⟩

omit [AddressCodec Address] in
/-- A signed integer parses as the unsigned one with its sign bit flipped back. -/
theorem signed_parse (byteCount : ℕ) (string : String) :
    (signed byteCount : KeySeg Address _).parse string =
      (unsignedParse byteCount string).map (· ^^^ BitVec.intMin _) := by
  simp only [signed]
  cases unsignedParse byteCount string <;> rfl

end KeySeg

/-! ## Prefixes of keys -/

namespace Key

variable {Address : Type} [DecidableEq Address]

/-- `Key::split_prefix`: `none` for a key that is not under the prefix, `some
none` for the prefix itself, and otherwise the key of the segments after it. -/
def splitPrefix (key pfx : Key Address) : Option (Option (Key Address)) :=
  if key.segments.length < pfx.segments.length then none
  else if key = pfx then some none
  else if key.segments.take pfx.segments.length = pfx.segments then
    some (some ⟨key.segments.drop pfx.segments.length⟩)
  else none

theorem splitPrefix_self (key : Key Address) : key.splitPrefix key = some none := by
  simp [splitPrefix]

/-- Only the prefix itself splits without a suffix. -/
theorem eq_of_splitPrefix_eq_some_none {key pfx : Key Address} (hsplit : key.splitPrefix pfx = some none) :
    key = pfx := by
  unfold splitPrefix at hsplit
  split_ifs at hsplit with hlt heq htake
  · exact heq
  · cases hsplit

/-- A key splits into a suffix exactly when it is the prefix followed by the
suffix's segments, of which there is at least one. -/
theorem splitPrefix_eq_some_some_iff {key pfx rest : Key Address} :
    key.splitPrefix pfx = some (some rest) ↔
      key.segments = pfx.segments ++ rest.segments ∧ rest.segments ≠ [] := by
  obtain ⟨segments⟩ := key
  obtain ⟨pfxSegments⟩ := pfx
  obtain ⟨restSegments⟩ := rest
  simp only [splitPrefix, Key.mk.injEq]
  constructor
  · intro hsplit
    split_ifs at hsplit with hlt heq htake
    -- the prefix itself has no suffix
    · cases hsplit
    -- otherwise the suffix is the segments after the prefix
    simp only [Option.some.injEq, Key.mk.injEq] at hsplit
    subst hsplit
    constructor
    · calc segments = segments.take pfxSegments.length ++ segments.drop pfxSegments.length :=
            (List.take_append_drop _ _).symm
        _ = pfxSegments ++ segments.drop pfxSegments.length := by rw [htake]
    · intro hnil
      apply heq
      rw [← htake, List.take_of_length_le (List.drop_eq_nil_iff.mp hnil)]
  · rintro ⟨hsegments, hrest⟩
    subst hsegments
    have hlength : ¬(pfxSegments ++ restSegments).length < pfxSegments.length := by simp
    have hne : pfxSegments ++ restSegments ≠ pfxSegments := by simpa using hrest
    rw [if_neg hlength, if_neg hne, if_pos (List.take_left' rfl), List.drop_left' rfl]

end Key

end Namada.Core
