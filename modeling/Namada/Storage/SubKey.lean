/-
# Validation of collection sub-keys

The collection validators of `namada_storage` go through the keys a transaction
changed and ask each lazy collection whether a key is one of its own
(`LazyCollection::is_valid_sub_key`). A key outside the collection's prefix is
none of its business; the prefix itself, or a suffix of another shape, is an
invalid sub-key. The last segment of a data key is parsed as the collection's
key type, and a parse error makes the key invalid. A panic of that parse is no
error the validator sees: it goes through it.

The fixed-width integers and `Epoch` panic on every string that decodes to
another number of bytes than their width, and `Amount` on one of more than 32
bytes (`Namada.Core.Storage`, `Namada.Core.Token`). So a validator of a
collection keyed by such a type panics at keys any transaction may write.

`LazySet`'s `SubKey` and `ValidationError` have the shape of `LazyMap`'s and
are one type each here.
-/

import Namada.Storage.LazyMap

namespace Namada.Storage

open Namada.Math Namada.Core

/-- `ValidationError::InvalidSubKey` of the lazy collections. -/
inductive ValidationError (Address : Type)
  | invalidSubKey (key : Key Address)

/-- The error of `namada_storage::Result` here: a storage error (the model's
panic among them) or a validation error, as `into_storage_result` wraps it. -/
inductive CollectionError (Address : Type)
  | storage (err : Error)
  | validation (err : ValidationError Address)

/-- `SubKey` of a lazy map or set: the data sub-key of one of its keys. -/
inductive SubKey (K : Type)
  | data (key : K)

variable {Address K : Type} [AddressCodec Address] [DecidableEq Address]

/-- The closure `validate_sub_key`: a segment that parses is the data sub-key
of its value, and one that fails to parse makes the key invalid. -/
def validateSubKey (keySeg : KeySeg Address K) (key : Key Address) (rawSubKey : String) :
    Except (CollectionError Address) (Option (SubKey K)) :=
  match keySeg.parse rawSubKey with
  | .ok keyInKv => .ok (some (.data keyInKv))
  -- a panic of `parse` is not the `Err` that the `if let` tests
  | .error .panic => .error (.storage .panic)
  | .error _ => .error (.validation (.invalidSubKey key))

omit [AddressCodec Address] [DecidableEq Address] in
/-- The closure panics exactly when the parse does. -/
theorem validateSubKey_eq_panic_iff (keySeg : KeySeg Address K) (key : Key Address)
    (rawSubKey : String) :
    validateSubKey keySeg key rawSubKey = .error (.storage .panic) ↔
      keySeg.parse rawSubKey = .error .panic := by
  unfold validateSubKey
  split <;> simp_all

omit [AddressCodec Address] [DecidableEq Address] in
/-- The closure accepts exactly the segments that parse. -/
theorem validateSubKey_eq_data_iff (keySeg : KeySeg Address K) (key : Key Address)
    (rawSubKey : String) (keyInKv : K) :
    validateSubKey keySeg key rawSubKey = .ok (some (.data keyInKv)) ↔
      keySeg.parse rawSubKey = .ok keyInKv := by
  unfold validateSubKey
  split <;> simp_all

/-! ## Lazy maps -/

namespace LazyMap

variable (map : LazyMap Address K)

/-- `LazyMap::is_valid_sub_key`. -/
def isValidSubKey (key : Key Address) : Except (CollectionError Address) (Option (SubKey K)) :=
  match key.splitPrefix map.key with
  | none => .ok none
  | some none => .error (.validation (.invalidSubKey key))
  | some (some suffix) =>
      match suffix.segments with
      | [.stringSeg subA, .stringSeg subB] =>
          if subA = dataSubkey then validateSubKey map.keySeg key subB
          else .error (.validation (.invalidSubKey key))
      | [.stringSeg subA, .addressSeg subB] =>
          if subA = dataSubkey then validateSubKey map.keySeg key (DbKeySeg.raw (.addressSeg subB))
          else .error (.validation (.invalidSubKey key))
      | _ => .error (.validation (.invalidSubKey key))

/-- The data key of a map whose last segment is `seg`. -/
def dataKeyAt (seg : DbKeySeg Address) : Key Address :=
  ⟨map.key.segments ++ [.stringSeg dataSubkey, seg]⟩

/-- At a data key the validator is the closure on the last segment's raw string. -/
theorem isValidSubKey_dataKeyAt (seg : DbKeySeg Address) :
    map.isValidSubKey (map.dataKeyAt seg) = validateSubKey map.keySeg (map.dataKeyAt seg) seg.raw := by
  have hsplit : (map.dataKeyAt seg).splitPrefix map.key =
      some (some ⟨[.stringSeg dataSubkey, seg]⟩) :=
    Key.splitPrefix_eq_some_some_iff.mpr ⟨rfl, List.cons_ne_nil _ _⟩
  unfold isValidSubKey
  rw [hsplit]
  cases seg with
  | stringSeg subB => exact if_pos rfl
  | addressSeg subB => exact if_pos rfl

/-- At a key that is no data key of the map, the validator returns `Ok(None)`
or the invalid sub-key: it never parses. -/
theorem isValidSubKey_of_ne_dataKeyAt {key : Key Address}
    (hkey : ∀ seg : DbKeySeg Address, key ≠ map.dataKeyAt seg) :
    map.isValidSubKey key = .ok none ∨
      map.isValidSubKey key = .error (.validation (.invalidSubKey key)) := by
  unfold isValidSubKey
  split
  · exact Or.inl rfl
  · exact Or.inr rfl
  · next suffix hsplit =>
      obtain ⟨hsegments, -⟩ := Key.splitPrefix_eq_some_some_iff.mp hsplit
      -- a suffix of the data shape would make the key a data key
      have hdata : ∀ seg : DbKeySeg Address, suffix.segments ≠ [.stringSeg dataSubkey, seg] := by
        intro seg hsuffix
        apply hkey seg
        calc key = ⟨key.segments⟩ := rfl
          _ = map.dataKeyAt seg := by rw [hsegments, hsuffix]; rfl
      right
      split
      · next subA subB hsuffix =>
          rw [if_neg]
          rintro rfl
          exact hdata _ hsuffix
      · next subA subB hsuffix =>
          rw [if_neg]
          rintro rfl
          exact hdata _ hsuffix
      · rfl

/-- Any outcome but `Ok(None)` and the invalid sub-key is the closure's at a
data key. -/
theorem isValidSubKey_eq_iff {result : Except (CollectionError Address) (Option (SubKey K))}
    (hnone : result ≠ .ok none) (hinvalid : ∀ key, result ≠ .error (.validation (.invalidSubKey key)))
    (key : Key Address) :
    map.isValidSubKey key = result ↔
      ∃ seg, key = map.dataKeyAt seg ∧ validateSubKey map.keySeg key seg.raw = result := by
  constructor
  · intro hresult
    by_cases hkey : ∃ seg, key = map.dataKeyAt seg
    · obtain ⟨seg, rfl⟩ := hkey
      rw [isValidSubKey_dataKeyAt] at hresult
      exact ⟨seg, rfl, hresult⟩
    · have hne : ∀ seg, key ≠ map.dataKeyAt seg := fun seg hseg => hkey ⟨seg, hseg⟩
      rcases map.isValidSubKey_of_ne_dataKeyAt hne with hok | herror
      · exact absurd (hok.symm.trans hresult) (Ne.symm hnone)
      · exact absurd (herror.symm.trans hresult) (Ne.symm (hinvalid key))
  · rintro ⟨seg, rfl, hvalidate⟩
    rw [isValidSubKey_dataKeyAt]
    exact hvalidate

/-- The validator panics exactly at a data key whose last segment panics the
parse of the map's key type. -/
theorem isValidSubKey_eq_panic_iff (key : Key Address) :
    map.isValidSubKey key = .error (.storage .panic) ↔
      ∃ seg, key = map.dataKeyAt seg ∧ map.keySeg.parse seg.raw = .error .panic := by
  rw [map.isValidSubKey_eq_iff (by simp) (by simp)]
  simp only [validateSubKey_eq_panic_iff]

/-- The validator accepts exactly the data keys whose last segment parses, as
the sub-key of the parsed value. -/
theorem isValidSubKey_eq_data_iff (key : Key Address) (keyInKv : K) :
    map.isValidSubKey key = .ok (some (.data keyInKv)) ↔
      ∃ seg, key = map.dataKeyAt seg ∧ map.keySeg.parse seg.raw = .ok keyInKv := by
  rw [map.isValidSubKey_eq_iff (by simp) (by simp)]
  simp only [validateSubKey_eq_data_iff]

end LazyMap

/-! ## Lazy sets -/

/-- `LazySet<K>`: the storage key of the set, and the `KeySeg` of its elements. -/
structure LazySet (Address K : Type) where
  key : Key Address
  keySeg : KeySeg Address K

namespace LazySet

variable (set : LazySet Address K)

/-- `LazySet::is_valid_sub_key`: an element is keyed right below the set. -/
def isValidSubKey (key : Key Address) : Except (CollectionError Address) (Option (SubKey K)) :=
  match key.splitPrefix set.key with
  | none => .ok none
  | some none => .error (.validation (.invalidSubKey key))
  | some (some suffix) =>
      match suffix.segments with
      | [.stringSeg sub] => validateSubKey set.keySeg key sub
      | [.addressSeg sub] => validateSubKey set.keySeg key (DbKeySeg.raw (.addressSeg sub))
      | _ => .error (.validation (.invalidSubKey key))

/-- The key of an element of the set whose segment is `seg`. -/
def elementKeyAt (seg : DbKeySeg Address) : Key Address := ⟨set.key.segments ++ [seg]⟩

theorem isValidSubKey_elementKeyAt (seg : DbKeySeg Address) :
    set.isValidSubKey (set.elementKeyAt seg) =
      validateSubKey set.keySeg (set.elementKeyAt seg) seg.raw := by
  have hsplit : (set.elementKeyAt seg).splitPrefix set.key = some (some ⟨[seg]⟩) :=
    Key.splitPrefix_eq_some_some_iff.mpr ⟨rfl, List.cons_ne_nil _ _⟩
  unfold isValidSubKey
  rw [hsplit]
  cases seg <;> rfl

/-- At a key that is no element key of the set, the validator returns `Ok(None)`
or the invalid sub-key. -/
theorem isValidSubKey_of_ne_elementKeyAt {key : Key Address}
    (hkey : ∀ seg : DbKeySeg Address, key ≠ set.elementKeyAt seg) :
    set.isValidSubKey key = .ok none ∨
      set.isValidSubKey key = .error (.validation (.invalidSubKey key)) := by
  unfold isValidSubKey
  split
  · exact Or.inl rfl
  · exact Or.inr rfl
  · next suffix hsplit =>
      obtain ⟨hsegments, -⟩ := Key.splitPrefix_eq_some_some_iff.mp hsplit
      -- a suffix of one segment would make the key an element key
      have helement : ∀ seg : DbKeySeg Address, suffix.segments ≠ [seg] := by
        intro seg hsuffix
        apply hkey seg
        calc key = ⟨key.segments⟩ := rfl
          _ = set.elementKeyAt seg := by rw [hsegments, hsuffix]; rfl
      right
      split
      · next sub hsuffix => exact absurd hsuffix (helement _)
      · next sub hsuffix => exact absurd hsuffix (helement _)
      · rfl

/-- Any outcome but `Ok(None)` and the invalid sub-key is the closure's at an
element key. -/
theorem isValidSubKey_eq_iff {result : Except (CollectionError Address) (Option (SubKey K))}
    (hnone : result ≠ .ok none) (hinvalid : ∀ key, result ≠ .error (.validation (.invalidSubKey key)))
    (key : Key Address) :
    set.isValidSubKey key = result ↔
      ∃ seg, key = set.elementKeyAt seg ∧ validateSubKey set.keySeg key seg.raw = result := by
  constructor
  · intro hresult
    by_cases hkey : ∃ seg, key = set.elementKeyAt seg
    · obtain ⟨seg, rfl⟩ := hkey
      rw [isValidSubKey_elementKeyAt] at hresult
      exact ⟨seg, rfl, hresult⟩
    · have hne : ∀ seg, key ≠ set.elementKeyAt seg := fun seg hseg => hkey ⟨seg, hseg⟩
      rcases set.isValidSubKey_of_ne_elementKeyAt hne with hok | herror
      · exact absurd (hok.symm.trans hresult) (Ne.symm hnone)
      · exact absurd (herror.symm.trans hresult) (Ne.symm (hinvalid key))
  · rintro ⟨seg, rfl, hvalidate⟩
    rw [isValidSubKey_elementKeyAt]
    exact hvalidate

/-- The validator panics exactly at an element key whose segment panics the
parse of the set's element type. -/
theorem isValidSubKey_eq_panic_iff (key : Key Address) :
    set.isValidSubKey key = .error (.storage .panic) ↔
      ∃ seg, key = set.elementKeyAt seg ∧ set.keySeg.parse seg.raw = .error .panic := by
  rw [set.isValidSubKey_eq_iff (by simp) (by simp)]
  simp only [validateSubKey_eq_panic_iff]

/-- The validator accepts exactly the element keys whose segment parses. -/
theorem isValidSubKey_eq_data_iff (key : Key Address) (keyInKv : K) :
    set.isValidSubKey key = .ok (some (.data keyInKv)) ↔
      ∃ seg, key = set.elementKeyAt seg ∧ set.keySeg.parse seg.raw = .ok keyInKv := by
  rw [set.isValidSubKey_eq_iff (by simp) (by simp)]
  simp only [validateSubKey_eq_data_iff]

end LazySet

/-! ## The key types that panic -/

/-- Parsing a key segment is not total: every fixed-width integer and `Epoch`
panic on the base32hex of another number of bytes than their width, `Amount` on
one of more than 32, and `Amount` reads a value from fewer bytes, which no
amount writes. So the validator of a lazy map or set keyed by such a type
panics at a key that a transaction may write, such as `<map>/data/00` of a map
keyed by `u64`. -/
theorem keySeg_parse_panics_in_validator :
    (∀ byteCount (bytes : List UInt8), bytes.length ≠ byteCount →
      (KeySeg.unsigned byteCount : KeySeg Address _).parse (Base32Hex.encode bytes) =
          .error .panic ∧
        (KeySeg.signed byteCount : KeySeg Address _).parse (Base32Hex.encode bytes) =
          .error .panic) ∧
    (∀ bytes : List UInt8, bytes.length ≠ 8 →
      (KeySeg.epoch : KeySeg Address ℕ).parse (Base32Hex.encode bytes) = .error .panic) ∧
    (∀ bytes : List UInt8, 32 < bytes.length →
      (KeySeg.amount : KeySeg Address Amount).parse (Base32Hex.encode bytes) = .error .panic) ∧
    (∀ bytes : List UInt8, bytes.length < 32 →
      ∃ amount, (KeySeg.amount : KeySeg Address Amount).parse (Base32Hex.encode bytes) =
          .ok amount ∧ ∀ other : Amount, other.rawSegment ≠ Base32Hex.encode bytes) ∧
    (∀ {K : Type} (map : LazyMap Address K) (seg : DbKeySeg Address),
      map.keySeg.parse seg.raw = .error .panic →
        map.isValidSubKey (map.dataKeyAt seg) = .error (.storage .panic)) ∧
    (∀ {K : Type} (set : LazySet Address K) (seg : DbKeySeg Address),
      set.keySeg.parse seg.raw = .error .panic →
        set.isValidSubKey (set.elementKeyAt seg) = .error (.storage .panic)) ∧
    ∀ mapKey : Key Address,
      (⟨mapKey, KeySeg.u64⟩ : LazyMap Address (BitVec 64)).isValidSubKey
        ⟨mapKey.segments ++ [.stringSeg dataSubkey, .stringSeg "00"]⟩ = .error (.storage .panic) := by
  have hunsigned : ∀ byteCount (bytes : List UInt8), bytes.length ≠ byteCount →
      KeySeg.unsignedParse byteCount (Base32Hex.encode bytes) = .error .panic :=
    fun _ _ hlength => KeySeg.unsignedParse_encode_of_length_ne hlength
  refine ⟨fun byteCount bytes hlength => ⟨hunsigned byteCount bytes hlength, ?_⟩,
    fun bytes hlength => ?_, fun bytes hlength => ?_, fun bytes hlength => ?_,
    fun map seg hparse => ?_, fun set seg hparse => ?_, fun mapKey => ?_⟩
  · rw [KeySeg.signed_parse, map_eq_error_iff]
    exact hunsigned byteCount bytes hlength
  · rw [KeySeg.epoch_parse, map_eq_error_iff]
    exact hunsigned 8 bytes hlength
  · exact (Amount.parseSegment_eq_panic_iff _).mpr ⟨bytes, Base32Hex.decode_encode bytes, hlength⟩
  · obtain ⟨hparse, hraw⟩ := Amount.parseSegment_encode_of_lt hlength
    exact ⟨_, hparse, hraw⟩
  · exact (map.isValidSubKey_eq_panic_iff _).mpr ⟨seg, rfl, hparse⟩
  · exact (set.isValidSubKey_eq_panic_iff _).mpr ⟨seg, rfl, hparse⟩
  -- "00" is the base32hex of the one byte 0, not of the eight of a `u64`
  · have hdecode : Base32Hex.decode "00" = some [0] := by decide
    apply ((⟨mapKey, KeySeg.u64⟩ : LazyMap Address (BitVec 64)).isValidSubKey_eq_panic_iff _).mpr
    refine ⟨.stringSeg "00", rfl, ?_⟩
    simp only [KeySeg.u64, KeySeg.unsigned, DbKeySeg.raw]
    exact (KeySeg.unsignedParse_eq_panic_iff 8 "00").mpr ⟨[0], hdecode, by decide⟩

end Namada.Storage
