/-
# Lazy maps over ordered storage

`lazy_map.rs`: a `LazyMap<K, V>` is a storage key. The value of `k` is written
at `<key>/data/<segment of k>` (`get_data_key`, which unwraps both of its
pushes), read and deleted there, and `iter` lists every binding under
`<key>/data/` in the order of storage, parsing the last segment of each key
back with `K::parse`. Storage (`StorageRead`, `StorageWrite`, and `iter_prefix`
of `namada_storage`) holds values under the strings of their keys, sorted as
the database keeps them, and parses each string it iterates over with
`Key::parse`.

On keys whose segments are plain and parse back, a lazy map is a finite map:
no call panics, each does to `contents` what it does to a function from keys
to values (`Refines`), and `iter` lists exactly the bindings, in the order of
their segments. A key whose segment holds the separator makes every call panic.
-/

import Mathlib
import Namada.Storage.KeyOrder
import Namada.Math.SortedMap

namespace Namada.Storage

open Namada.Core Namada.Math Namada.ProofOfStake

/-! ## Storage -/

namespace Store

variable {Address V : Type} [AddressCodec Address]

/-- `StorageRead::read`: the value under the key's string. -/
def read (store : SortedMap String V) (key : Key Address) : Option V :=
  store.find? key.toString

/-- `StorageWrite::write`. -/
def write (store : SortedMap String V) (key : Key Address) (value : V) : SortedMap String V :=
  store.insert key.toString value

/-- `StorageWrite::delete`. -/
def delete (store : SortedMap String V) (key : Key Address) : SortedMap String V :=
  store.erase key.toString

/-- `StorageRead::has_key`. -/
def hasKey (store : SortedMap String V) (key : Key Address) : Bool :=
  (store.find? key.toString).isSome

/-- What the strings a prefix iterator visits begin with: the key and a
separator, or anything under the empty key. -/
def prefixString (pfx : Key Address) : String :=
  if pfx.segments = [] then "" else pfx.toString ++ String.singleton keySegmentSeparator

/-- The bindings a prefix iterator visits, in the order of their strings. -/
def under (store : SortedMap String V) (pfx : Key Address) : List (String × V) :=
  store.entries.filter fun entry => (prefixString pfx).toList.isPrefixOf entry.1.toList

/-- A binding read back as a key: its string parsed with `Key::parse`. -/
def entryItem (entry : String × V) : Except Error (Key Address × V) := do
  let key ← Key.parse entry.1
  pure (key, entry.2)

/-- `iter_prefix`: the bindings under the prefix, each read back as a key. -/
def iterPrefix (store : SortedMap String V) (pfx : Key Address) :
    List (Except Error (Key Address × V)) :=
  (under store pfx).map entryItem

end Store

/-! ## The lazy map -/

/-- `LazyMap<K, V>`: the storage key of the map, and the `KeySeg` of its keys. -/
structure LazyMap (Address K : Type) where
  key : Key Address
  keySeg : KeySeg Address K

/-- `DATA_SUBKEY`. -/
def dataSubkey : String := "data"

/-- `Result::unwrap`: an error becomes a panic. -/
def unwrap {α : Type} : Except Error α → Except Error α
  | .ok value => .ok value
  | .error _ => .error .panic

namespace LazyMap

variable {Address K V : Type} [AddressCodec Address] (map : LazyMap Address K)

/-- `get_data_prefix`. -/
def getDataPrefix : Except Error (Key Address) :=
  unwrap (map.key.push KeySeg.string dataSubkey)

/-- `get_data_key`. -/
def getDataKey (key : K) : Except Error (Key Address) := do
  let keyStr ← map.keySeg.toDbKey key
  let dataPrefix ← map.getDataPrefix
  unwrap (dataPrefix.push KeySeg.dbKeySeg keyStr)

/-- `LazyMap::get`. -/
def get (store : SortedMap String V) (key : K) : Except Error (Option V) := do
  let dataKey ← map.getDataKey key
  pure (Store.read store dataKey)

/-- `LazyMap::insert`: the previous value, and the storage after the write. -/
def insert (store : SortedMap String V) (key : K) (value : V) :
    Except Error (Option V × SortedMap String V) := do
  let previous ← map.get store key
  let dataKey ← map.getDataKey key
  pure (previous, Store.write store dataKey value)

/-- `LazyMap::remove`: the removed value, and the storage after the delete. -/
def remove (store : SortedMap String V) (key : K) :
    Except Error (Option V × SortedMap String V) := do
  let value ← map.get store key
  if value.isSome then
    let dataKey ← map.getDataKey key
    pure (value, Store.delete store dataKey)
  else pure (value, store)

/-- `LazyMap::update`. -/
def update (store : SortedMap String V) (key : K) (f : Option V → V) :
    Except Error (SortedMap String V) := do
  let dataKey ← map.getDataKey key
  let current := Store.read store dataKey
  pure (Store.write store dataKey (f current))

/-- `LazyMap::contains`. -/
def contains (store : SortedMap String V) (key : K) : Except Error Bool := do
  let dataKey ← map.getDataKey key
  pure (Store.hasKey store dataKey)

/-- One item of `iter`: the last segment of the storage key, parsed as a key. -/
def parseItem (item : Except Error (Key Address × V)) : Except Error (K × V) := do
  let entry ← item
  let lastKeySeg ← match entry.1.segments.getLast? with
    | some seg => .ok seg
    | none => .error .unexpectedlyEmptyStorageKey
  let key ← map.keySeg.parse lastKeySeg.raw
  pure (key, entry.2)

/-- `LazyMap::iter`: the items, in the order storage visits them. -/
def iter (store : SortedMap String V) : Except Error (List (Except Error (K × V))) := do
  let dataPrefix ← map.getDataPrefix
  pure ((Store.iterPrefix store dataPrefix).map map.parseItem)

/-! ## Where the data lives -/

/-- The key the data lives under: the map's key and `data`. -/
def dataPrefix : Key Address := ⟨map.key.segments ++ [.stringSeg dataSubkey]⟩

/-- The data key of a key written as the segment `raw`. -/
def dataKeyOf (raw : String) : Key Address := ⟨map.dataPrefix.segments ++ [.stringSeg raw]⟩

theorem plainSegment_dataSubkey : PlainSegment dataSubkey := ⟨by decide, by decide⟩

theorem getDataPrefix_eq : map.getDataPrefix = .ok map.dataPrefix := by
  have hpush : map.key.push KeySeg.string dataSubkey = .ok map.dataPrefix :=
    Key.push_of_parse rfl (DbKeySeg.parse_of_plain plainSegment_dataSubkey)
  rw [getDataPrefix, hpush]
  rfl

/-- A key written as a plain segment has the data key of that segment. -/
theorem getDataKey_of_plain {key : K} {raw : String}
    (hkey : map.keySeg.toDbKey key = .ok (.stringSeg raw)) (hplain : PlainSegment raw) :
    map.getDataKey key = .ok (map.dataKeyOf raw) := by
  have hpush : map.dataPrefix.push KeySeg.dbKeySeg (.stringSeg raw) = .ok (map.dataKeyOf raw) :=
    Key.push_of_parse rfl (DbKeySeg.parse_of_plain hplain)
  rw [getDataKey, hkey, ok_bind, getDataPrefix_eq, ok_bind, hpush]
  rfl

/-- A key written as a segment with the separator has no data key: `DbKeySeg::parse`
rejects the segment and `unwrap` panics. -/
theorem getDataKey_of_separator {key : K} {raw : String}
    (hkey : map.keySeg.toDbKey key = .ok (.stringSeg raw))
    (hsep : keySegmentSeparator ∈ raw.toList) : map.getDataKey key = .error .panic := by
  have hpush : map.dataPrefix.push KeySeg.dbKeySeg (.stringSeg raw) =
      .error (.invalidKeySeg raw) :=
    Key.push_of_parse_error rfl (DbKeySeg.parse_of_separator hsep)
  rw [getDataKey, hkey, ok_bind, getDataPrefix_eq, ok_bind, hpush]
  rfl

theorem prefixString_dataPrefix :
    Store.prefixString map.dataPrefix =
      map.dataPrefix.toString ++ String.singleton keySegmentSeparator := by
  have hne : map.dataPrefix.segments ≠ [] := List.concat_ne_nil _ _
  rw [Store.prefixString, if_neg hne]

/-- The string of a data key: the data prefix, a separator and the segment. -/
theorem toString_dataKeyOf (raw : String) :
    (map.dataKeyOf raw).toString = Store.prefixString map.dataPrefix ++ raw := by
  have hne : map.dataPrefix.segments ≠ [] := List.concat_ne_nil _ _
  rw [dataKeyOf, Key.toString_append hne, prefixString_dataPrefix]
  rfl

/-- The data key of a plain segment parses back from its string. -/
theorem parse_toString_dataKeyOf (hmapKey : map.key.Reparses) {raw : String}
    (hplain : PlainSegment raw) :
    Key.parse (map.dataKeyOf raw).toString = .ok (map.dataKeyOf raw) := by
  have hreparses : (map.dataKeyOf raw).Reparses := by
    intro seg hseg
    simp only [dataKeyOf, dataPrefix, List.mem_append, List.mem_singleton] at hseg
    rcases hseg with (hseg | rfl) | rfl
    · exact hmapKey seg hseg
    · exact ⟨plainSegment_dataSubkey.1, DbKeySeg.parse_of_plain plainSegment_dataSubkey⟩
    · exact ⟨hplain.1, DbKeySeg.parse_of_plain hplain⟩
  -- the string holds the separator after the data prefix, so it is not empty
  have hne : (map.dataKeyOf raw).toString ≠ "" := by
    intro hempty
    have hlength := congrArg (fun string => string.toList.length) hempty
    simp only [toString_dataKeyOf, prefixString_dataPrefix, String.toList_append,
      String.toList_singleton, List.length_append, List.length_singleton] at hlength
    simp at hlength
  exact Key.parse_toString hreparses hne

/-! ## The calls, given the data key -/

section DataKey

variable {map} {key : K} {dataKey : Key Address}

theorem get_of_dataKey (hdata : map.getDataKey key = .ok dataKey) (store : SortedMap String V) :
    map.get store key = .ok (Store.read store dataKey) := by
  rw [get, hdata, ok_bind]
  rfl

theorem insert_of_dataKey (hdata : map.getDataKey key = .ok dataKey)
    (store : SortedMap String V) (value : V) :
    map.insert store key value = .ok (Store.read store dataKey, Store.write store dataKey value) := by
  rw [insert, get_of_dataKey hdata, ok_bind, hdata, ok_bind]
  rfl

theorem remove_of_dataKey (hdata : map.getDataKey key = .ok dataKey) (store : SortedMap String V) :
    map.remove store key = .ok (Store.read store dataKey,
      if (Store.read store dataKey).isSome then Store.delete store dataKey else store) := by
  rw [remove, get_of_dataKey hdata, ok_bind]
  by_cases hsome : (Store.read store dataKey).isSome = true
  · rw [if_pos hsome, if_pos hsome, hdata, ok_bind]
    rfl
  · rw [if_neg hsome, if_neg hsome]
    rfl

theorem update_of_dataKey (hdata : map.getDataKey key = .ok dataKey) (store : SortedMap String V)
    (f : Option V → V) :
    map.update store key f = .ok (Store.write store dataKey (f (Store.read store dataKey))) := by
  rw [update, hdata, ok_bind]
  rfl

theorem contains_of_dataKey (hdata : map.getDataKey key = .ok dataKey)
    (store : SortedMap String V) : map.contains store key = .ok (Store.hasKey store dataKey) := by
  rw [contains, hdata, ok_bind]
  rfl

/-- Without a data key, every call fails with the error of `get_data_key`. -/
theorem calls_of_dataKey_error {err : Error} (hdata : map.getDataKey key = .error err)
    (store : SortedMap String V) (value : V) (f : Option V → V) :
    map.get store key = .error err ∧ map.insert store key value = .error err ∧
      map.remove store key = .error err ∧ map.update store key f = .error err ∧
      map.contains store key = .error err := by
  have hget : map.get store key = .error err := by rw [get, hdata, error_bind]
  refine ⟨hget, ?_, ?_, ?_, ?_⟩
  · rw [insert, hget, error_bind]
  · rw [remove, hget, error_bind]
  · rw [update, hdata, error_bind]
  · rw [contains, hdata, error_bind]

end DataKey

/-! ## What the map holds -/

/-- The value at each key's data key; nothing where a key has no data key. -/
def contents (store : SortedMap String V) (key : K) : Option V :=
  match map.getDataKey key with
  | .ok dataKey => Store.read store dataKey
  | .error _ => none

theorem contents_of_dataKey {map : LazyMap Address K} {key : K} {dataKey : Key Address}
    (hdata : map.getDataKey key = .ok dataKey) (store : SortedMap String V) :
    map.contents store key = Store.read store dataKey := by
  rw [contents, hdata]

section Laws

variable {map} {valid : K → Prop} {precedes : K → K → Prop}

/-- A valid key is written as a plain segment that parses back, and has the data
key of that segment. -/
theorem getDataKey_of_valid (hlaws : OrderedRoundTrip map.keySeg valid precedes) {key : K}
    (hvalid : valid key) :
    ∃ raw, map.keySeg.toDbKey key = .ok (.stringSeg raw) ∧ PlainSegment raw ∧
      map.keySeg.parse raw = .ok key ∧ map.getDataKey key = .ok (map.dataKeyOf raw) := by
  obtain ⟨raw, hkey, hplain, hparse⟩ := hlaws.roundTrip key hvalid
  exact ⟨raw, hkey, hplain, hparse, map.getDataKey_of_plain hkey hplain⟩

/-- Two valid keys share the string of their data keys only if they are equal. -/
theorem eq_of_dataKey_toString_eq (hlaws : OrderedRoundTrip map.keySeg valid precedes)
    {key other : K} (hkey : valid key) (hother : valid other) {dataKey otherDataKey : Key Address}
    (hdata : map.getDataKey key = .ok dataKey)
    (hotherData : map.getDataKey other = .ok otherDataKey)
    (hstring : otherDataKey.toString = dataKey.toString) : other = key := by
  obtain ⟨raw, -, -, hparse, hdataRaw⟩ := getDataKey_of_valid hlaws hkey
  obtain ⟨otherRaw, -, -, hotherParse, hotherDataRaw⟩ := getDataKey_of_valid hlaws hother
  rw [hdata] at hdataRaw
  rw [hotherData] at hotherDataRaw
  cases hdataRaw
  cases hotherDataRaw
  rw [toString_dataKeyOf, toString_dataKeyOf, String.append_right_inj] at hstring
  rw [hstring, hparse] at hotherParse
  exact (Except.ok.inj hotherParse).symm

/-- Writing at the data key of a valid key changes what the map holds there only. -/
theorem contents_write [DecidableEq K] (hlaws : OrderedRoundTrip map.keySeg valid precedes)
    {key other : K} (hkey : valid key) (hother : valid other) {dataKey : Key Address}
    (hdata : map.getDataKey key = .ok dataKey) (store : SortedMap String V) (value : V) :
    map.contents (Store.write store dataKey value) other =
      Function.update (map.contents store) key (some value) other := by
  obtain ⟨otherRaw, -, -, -, hotherData⟩ := getDataKey_of_valid hlaws hother
  rw [contents_of_dataKey hotherData]
  by_cases hsame : other = key
  · subst hsame
    rw [hdata] at hotherData
    cases hotherData
    rw [Function.update_self, Store.read, Store.write, SortedMap.find?_insert_self]
  · have hne : (map.dataKeyOf otherRaw).toString ≠ dataKey.toString :=
      fun hstring => hsame (eq_of_dataKey_toString_eq hlaws hkey hother hdata hotherData hstring)
    rw [Function.update_of_ne hsame, contents_of_dataKey hotherData, Store.read, Store.write,
      SortedMap.find?_insert_of_ne _ _ hne]
    rfl

/-- Deleting at the data key of a valid key empties what the map holds there only. -/
theorem contents_delete [DecidableEq K] (hlaws : OrderedRoundTrip map.keySeg valid precedes)
    {key other : K} (hkey : valid key) (hother : valid other) {dataKey : Key Address}
    (hdata : map.getDataKey key = .ok dataKey) (store : SortedMap String V) :
    map.contents (Store.delete store dataKey) other =
      Function.update (map.contents store) key none other := by
  obtain ⟨otherRaw, -, -, -, hotherData⟩ := getDataKey_of_valid hlaws hother
  rw [contents_of_dataKey hotherData]
  by_cases hsame : other = key
  · subst hsame
    rw [hdata] at hotherData
    cases hotherData
    rw [Function.update_self, Store.read, Store.delete, SortedMap.find?_erase_self]
  · have hne : (map.dataKeyOf otherRaw).toString ≠ dataKey.toString :=
      fun hstring => hsame (eq_of_dataKey_toString_eq hlaws hkey hother hdata hotherData hstring)
    rw [Function.update_of_ne hsame, contents_of_dataKey hotherData, Store.read, Store.delete,
      SortedMap.find?_erase_of_ne _ hne]
    rfl

end Laws

/-! ## Runs of calls against a finite map -/

/-- A call that changes a lazy map. -/
inductive Call (K V : Type)
  | insert (key : K) (value : V)
  | remove (key : K)
  | update (key : K) (f : Option V → V)

/-- The key a call is made at. -/
def Call.key {V : Type} : Call K V → K
  | .insert key _ => key
  | .remove key => key
  | .update key _ => key

/-- What a call does to a finite map of keys to values. -/
def Call.apply [DecidableEq K] (abstract : K → Option V) : Call K V → K → Option V
  | .insert key value => Function.update abstract key (some value)
  | .remove key => Function.update abstract key none
  | .update key f => Function.update abstract key (some (f (abstract key)))

/-- What calls in order do to a finite map. -/
def Call.applyAll [DecidableEq K] (abstract : K → Option V) (calls : List (Call K V)) :
    K → Option V :=
  calls.foldl Call.apply abstract

/-- The storage after one call. -/
def step (store : SortedMap String V) : Call K V → Except Error (SortedMap String V)
  | .insert key value => (map.insert store key value).map Prod.snd
  | .remove key => (map.remove store key).map Prod.snd
  | .update key f => map.update store key f

/-- The storage after calls in order, stopping at the first error. -/
def run (store : SortedMap String V) : List (Call K V) → Except Error (SortedMap String V)
  | [] => .ok store
  | call :: calls => do
      let next ← map.step store call
      run next calls

/-- The storage holds `abstract` on the valid keys, and under the data prefix
only the data keys of valid keys. -/
structure Refines (valid : K → Prop) (store : SortedMap String V) (abstract : K → Option V) :
    Prop where
  onlyDataKeys : ∀ entry ∈ store.entries,
    (Store.prefixString map.dataPrefix).toList.isPrefixOf entry.1.toList = true →
      ∃ key raw, valid key ∧ map.keySeg.toDbKey key = .ok (.stringSeg raw) ∧
        entry.1 = (map.dataKeyOf raw).toString
  contents_eq : ∀ key, valid key → map.contents store key = abstract key

namespace Refines

variable {map} {valid : K → Prop} {precedes : K → K → Prop}

/-- Empty storage holds the empty map. -/
theorem empty : map.Refines valid (SortedMap.empty : SortedMap String V) fun _ => none where
  onlyDataKeys entry hentry := absurd hentry List.not_mem_nil
  contents_eq key _ := by
    unfold contents
    split
    · exact SortedMap.find?_empty _
    · rfl

variable {store : SortedMap String V} {abstract : K → Option V}

theorem write [DecidableEq K] (hlaws : OrderedRoundTrip map.keySeg valid precedes)
    (hrefines : map.Refines valid store abstract) {key : K} (hkey : valid key)
    {dataKey : Key Address} (hdata : map.getDataKey key = .ok dataKey) (value : V) :
    map.Refines valid (Store.write store dataKey value)
      (Function.update abstract key (some value)) where
  onlyDataKeys entry hentry hprefix := by
    rcases SortedMap.mem_entries_insert.mp hentry with rfl | ⟨hold, -⟩
    · -- the new binding is at the data key of `key`
      obtain ⟨raw, hraw, -, -, hdataRaw⟩ := getDataKey_of_valid hlaws hkey
      rw [hdata] at hdataRaw
      cases hdataRaw
      exact ⟨key, raw, hkey, hraw, rfl⟩
    · exact hrefines.onlyDataKeys entry hold hprefix
  contents_eq other hother := by
    rw [contents_write hlaws hkey hother hdata]
    by_cases hsame : other = key
    · subst hsame
      rw [Function.update_self, Function.update_self]
    · rw [Function.update_of_ne hsame, Function.update_of_ne hsame,
        hrefines.contents_eq other hother]

theorem delete [DecidableEq K] (hlaws : OrderedRoundTrip map.keySeg valid precedes)
    (hrefines : map.Refines valid store abstract) {key : K} (hkey : valid key)
    {dataKey : Key Address} (hdata : map.getDataKey key = .ok dataKey) :
    map.Refines valid (Store.delete store dataKey) (Function.update abstract key none) where
  onlyDataKeys entry hentry hprefix :=
    hrefines.onlyDataKeys entry (SortedMap.mem_entries_erase.mp hentry).1 hprefix
  contents_eq other hother := by
    rw [contents_delete hlaws hkey hother hdata]
    by_cases hsame : other = key
    · subst hsame
      rw [Function.update_self, Function.update_self]
    · rw [Function.update_of_ne hsame, Function.update_of_ne hsame,
        hrefines.contents_eq other hother]

/-- A call at a valid key does not fail, and does to the storage what it does
to the finite map. -/
theorem step [DecidableEq K] (hlaws : OrderedRoundTrip map.keySeg valid precedes)
    (hrefines : map.Refines valid store abstract) {call : Call K V} (hcall : valid call.key) :
    ∃ next, map.step store call = .ok next ∧ map.Refines valid next (call.apply abstract) := by
  obtain ⟨raw, -, -, -, hdata⟩ := getDataKey_of_valid hlaws hcall
  have hcurrent : Store.read store (map.dataKeyOf raw) = abstract call.key := by
    rw [← contents_of_dataKey hdata, hrefines.contents_eq _ hcall]
  cases call <;> dsimp only [Call.key] at hcall hdata hcurrent
  case insert key value =>
      refine ⟨_, ?_, hrefines.write hlaws hcall hdata value⟩
      rw [LazyMap.step, insert_of_dataKey hdata]
      rfl
  case remove key =>
      by_cases hsome : (Store.read store (map.dataKeyOf raw)).isSome = true
      · refine ⟨_, ?_, hrefines.delete hlaws hcall hdata⟩
        rw [LazyMap.step, remove_of_dataKey hdata, if_pos hsome]
        rfl
      · -- nothing is bound at `key`: storage is kept, and the map has no value there
        refine ⟨store, ?_, ?_⟩
        · rw [LazyMap.step, remove_of_dataKey hdata, if_neg hsome]
          rfl
        · have hnone : abstract key = none := by
            rw [← hcurrent]
            exact Option.not_isSome_iff_eq_none.mp hsome
          rw [Call.apply, ← hnone, Function.update_eq_self]
          exact hrefines
  case update key f =>
      refine ⟨Store.write store (map.dataKeyOf raw) (f (Store.read store (map.dataKeyOf raw))),
        ?_, ?_⟩
      · rw [LazyMap.step, update_of_dataKey hdata]
      · rw [Call.apply, ← hcurrent]
        exact hrefines.write hlaws hcall hdata _

/-- Calls at valid keys do not fail, and do to the storage what they do to the
finite map. -/
theorem run [DecidableEq K] (hlaws : OrderedRoundTrip map.keySeg valid precedes) :
    ∀ {calls : List (Call K V)} {store : SortedMap String V} {abstract : K → Option V},
      map.Refines valid store abstract → (∀ call ∈ calls, valid call.key) →
        ∃ final, map.run store calls = .ok final ∧
          map.Refines valid final (Call.applyAll abstract calls)
  | [], store, _, hrefines, _ => ⟨store, rfl, hrefines⟩
  | call :: calls, _, _, hrefines, hcalls => by
      obtain ⟨next, hstep, hnext⟩ := hrefines.step hlaws (hcalls call List.mem_cons_self)
      obtain ⟨final, hrun, hfinal⟩ :=
        hnext.run hlaws fun other hother => hcalls other (List.mem_cons_of_mem _ hother)
      refine ⟨final, ?_, hfinal⟩
      rw [LazyMap.run, hstep, ok_bind, hrun]

/-- On a valid key, `get` reads the finite map. -/
theorem get (hlaws : OrderedRoundTrip map.keySeg valid precedes)
    (hrefines : map.Refines valid store abstract) {key : K} (hkey : valid key) :
    map.get store key = .ok (abstract key) := by
  obtain ⟨raw, -, -, -, hdata⟩ := getDataKey_of_valid hlaws hkey
  rw [get_of_dataKey hdata, ← contents_of_dataKey hdata, hrefines.contents_eq key hkey]

/-! ### Iteration -/

/-- A binding under the data prefix reads back, through `Key::parse` and the
last segment, as the valid key whose data key it is, with its value. -/
theorem parseItem_entry (hlaws : OrderedRoundTrip map.keySeg valid precedes)
    (hmapKey : map.key.Reparses) (hrefines : map.Refines valid store abstract)
    {entry : String × V} (hentry : entry ∈ Store.under store map.dataPrefix) :
    ∃ key raw, valid key ∧ map.keySeg.toDbKey key = .ok (.stringSeg raw) ∧
      entry.1 = Store.prefixString map.dataPrefix ++ raw ∧
      map.parseItem (Store.entryItem entry) = .ok (key, entry.2) := by
  obtain ⟨hmem, hprefix⟩ := List.mem_filter.mp hentry
  obtain ⟨key, raw, hvalid, hraw, hstring⟩ := hrefines.onlyDataKeys entry hmem hprefix
  obtain ⟨raw', hraw', hplain, hparse⟩ := hlaws.roundTrip key hvalid
  rw [hraw] at hraw'
  cases hraw'
  refine ⟨key, raw, hvalid, hraw, by rw [hstring, toString_dataKeyOf], ?_⟩
  have hitem : Store.entryItem entry = .ok (map.dataKeyOf raw, entry.2) := by
    rw [Store.entryItem, hstring, parse_toString_dataKeyOf map hmapKey hplain, ok_bind]
    rfl
  rw [hitem, parseItem, ok_bind]
  simp only [dataKeyOf, List.getLast?_concat, ok_bind, DbKeySeg.raw, hparse]
  rfl

/-- `iter` lists, in the order of their segments, exactly the bindings of the
finite map on valid keys. -/
theorem iter (hlaws : OrderedRoundTrip map.keySeg valid precedes) (hmapKey : map.key.Reparses)
    (hrefines : map.Refines valid store abstract) :
    ∃ pairs : List (K × V), map.iter store = .ok (pairs.map .ok) ∧
      (∀ key value, (key, value) ∈ pairs ↔ valid key ∧ abstract key = some value) ∧
      pairs.Pairwise fun first second => precedes first.1 second.1 := by
  let read : String × V → Except Error (K × V) := fun entry =>
    map.parseItem (Store.entryItem entry)
  have hall : ∀ entry ∈ Store.under store map.dataPrefix, ∃ pair, read entry = .ok pair :=
    fun entry hentry => by
      obtain ⟨key, -, -, -, -, hread⟩ := parseItem_entry hlaws hmapKey hrefines hentry
      exact ⟨_, hread⟩
  refine ⟨(Store.under store map.dataPrefix).filterMap fun entry => (read entry).toOption,
    ?_, ?_, ?_⟩
  · rw [LazyMap.iter, getDataPrefix_eq, ok_bind, Store.iterPrefix, List.map_map,
      ← map_eq_map_ok_filterMap hall]
    rfl
  · intro key value
    rw [List.mem_filterMap]
    constructor
    · rintro ⟨entry, hentry, hread⟩
      obtain ⟨key', raw, hvalid, hraw, hstring, hparsed⟩ :=
        parseItem_entry hlaws hmapKey hrefines hentry
      have hsame : (key', entry.2) = (key, value) := by
        have hsome : (read entry).toOption = some (key', entry.2) := by
          show (map.parseItem (Store.entryItem entry)).toOption = _
          rw [hparsed]
          rfl
        rw [hsome] at hread
        exact Option.some.inj hread
      cases hsame
      refine ⟨hvalid, ?_⟩
      -- the binding is at the data key of `key`, where the map reads its value
      obtain ⟨hmem, -⟩ := List.mem_filter.mp hentry
      have hplain := (getDataKey_of_valid hlaws hvalid)
      obtain ⟨raw', hraw', -, -, hdata⟩ := hplain
      rw [hraw] at hraw'
      cases hraw'
      rw [← hrefines.contents_eq key hvalid, contents_of_dataKey hdata, Store.read,
        toString_dataKeyOf, ← hstring]
      exact SortedMap.find?_eq_some_iff.mpr hmem
    · rintro ⟨hvalid, hvalue⟩
      obtain ⟨raw, -, hplain, hparse, hdata⟩ := getDataKey_of_valid hlaws hvalid
      have hmem : ((map.dataKeyOf raw).toString, value) ∈ store.entries := by
        rw [← hrefines.contents_eq key hvalid, contents_of_dataKey hdata] at hvalue
        exact SortedMap.find?_eq_some_iff.mp hvalue
      have hprefix : (Store.prefixString map.dataPrefix).toList.isPrefixOf
          (map.dataKeyOf raw).toString.toList = true := by
        rw [toString_dataKeyOf]
        exact isPrefixOf_append _ _
      refine ⟨((map.dataKeyOf raw).toString, value), List.mem_filter.mpr ⟨hmem, hprefix⟩, ?_⟩
      show (map.parseItem (Store.entryItem _)).toOption = _
      rw [Store.entryItem, parse_toString_dataKeyOf map hmapKey hplain, ok_bind]
      show (map.parseItem (.ok (map.dataKeyOf raw, value))).toOption = _
      simp only [parseItem, dataKeyOf, List.getLast?_concat, ok_bind, DbKeySeg.raw, hparse]
      rfl
  · -- bindings are visited in the order of their strings, which share the data prefix
    rw [List.pairwise_filterMap]
    have hsorted : (Store.under store map.dataPrefix).Pairwise
        fun first second => first.1 < second.1 := store.sorted.filter _
    refine hsorted.imp_of_mem fun {first second} hfirst hsecond hlt => ?_
    intro firstPair hfirstPair secondPair hsecondPair
    obtain ⟨firstKey, firstRaw, hfirstValid, hfirstRaw, hfirstString, hfirstRead⟩ :=
      parseItem_entry hlaws hmapKey hrefines hfirst
    obtain ⟨secondKey, secondRaw, hsecondValid, hsecondRaw, hsecondString, hsecondRead⟩ :=
      parseItem_entry hlaws hmapKey hrefines hsecond
    have hfirstEq : firstPair = (firstKey, first.2) := by
      have hsome : (read first).toOption = some (firstKey, first.2) := by
        show (map.parseItem (Store.entryItem first)).toOption = _
        rw [hfirstRead]
        rfl
      rw [hsome] at hfirstPair
      exact (Option.some.inj hfirstPair).symm
    have hsecondEq : secondPair = (secondKey, second.2) := by
      have hsome : (read second).toOption = some (secondKey, second.2) := by
        show (map.parseItem (Store.entryItem second)).toOption = _
        rw [hsecondRead]
        rfl
      rw [hsome] at hsecondPair
      exact (Option.some.inj hsecondPair).symm
    rw [hfirstEq, hsecondEq]
    rw [hfirstString, hsecondString, string_append_lt_append_left_iff] at hlt
    exact (hlaws.order _ _ _ _ hfirstValid hsecondValid hfirstRaw hsecondRaw).mp hlt

end Refines

section Runs

variable {map} {valid : K → Prop} {precedes : K → K → Prop}

/-- From empty storage, calls at valid keys never fail; `get` then reads, and
`iter` lists in the order of the keys, the finite map the calls build. -/
theorem run_empty_refines [DecidableEq K] (hlaws : OrderedRoundTrip map.keySeg valid precedes)
    (hmapKey : map.key.Reparses) {calls : List (Call K V)}
    (hcalls : ∀ call ∈ calls, valid call.key) :
    ∃ store, map.run SortedMap.empty calls = .ok store ∧
      (∀ key, valid key → map.get store key = .ok (Call.applyAll (fun _ => none) calls key)) ∧
      ∃ pairs : List (K × V), map.iter store = .ok (pairs.map .ok) ∧
        (∀ key value, (key, value) ∈ pairs ↔
          valid key ∧ Call.applyAll (fun _ => none) calls key = some value) ∧
        pairs.Pairwise fun first second => precedes first.1 second.1 := by
  have hempty : map.Refines valid (SortedMap.empty : SortedMap String V) fun _ => none :=
    Refines.empty
  obtain ⟨store, hrun, hrefines⟩ := hempty.run hlaws hcalls
  exact ⟨store, hrun, fun key hkey => hrefines.get hlaws hkey, hrefines.iter hlaws hmapKey⟩

end Runs

/-- A map keyed by strings panics on every call at a string with the separator:
`get_data_key` unwraps the push that `DbKeySeg::parse` rejects. -/
theorem stringKeyed_calls_panic (mapKey : Key Address) {string : String}
    (hsep : keySegmentSeparator ∈ string.toList) (store : SortedMap String V) (value : V)
    (f : Option V → V) :
    (⟨mapKey, KeySeg.string⟩ : LazyMap Address String).get store string = .error .panic ∧
      (⟨mapKey, KeySeg.string⟩ : LazyMap Address String).insert store string value =
        .error .panic ∧
      (⟨mapKey, KeySeg.string⟩ : LazyMap Address String).remove store string = .error .panic ∧
      (⟨mapKey, KeySeg.string⟩ : LazyMap Address String).update store string f = .error .panic ∧
      (⟨mapKey, KeySeg.string⟩ : LazyMap Address String).contains store string = .error .panic :=
  calls_of_dataKey_error (getDataKey_of_separator _ rfl hsep) store value f

end LazyMap

/-! ## The key types of storage -/

section KeyTypes

variable {Address : Type} [AddressCodec Address]

/-- The integers, epochs that fit a `u64`, amounts, and reverse-ordered amounts
up to `max_signed` write plain segments that parse back and order as the keys
(reversed for `ReverseOrdTokenAmount`); so a lazy map over any such keys lists
exactly its bindings, in the order of the keys. -/
theorem keySegs_roundTrip_order_iter :
    (∀ byteCount, OrderedRoundTrip (KeySeg.unsigned byteCount : KeySeg Address _)
      (fun _ => True) (· < ·)) ∧
    (∀ byteCount, 0 < byteCount → OrderedRoundTrip (KeySeg.signed byteCount : KeySeg Address _)
      (fun _ => True) (fun first second => first.toInt < second.toInt)) ∧
    OrderedRoundTrip (KeySeg.epoch : KeySeg Address ℕ) (· < 2 ^ 64) (· < ·) ∧
    OrderedRoundTrip (KeySeg.amount : KeySeg Address Amount) (fun _ => True) (· < ·) ∧
    OrderedRoundTrip (KeySeg.reverseOrdTokenAmount : KeySeg Address ReverseOrdTokenAmount)
      (fun key => key.amount ≤ Amount.maxSigned)
      (fun first second => second.amount < first.amount) ∧
    ∀ {K V : Type} (map : LazyMap Address K) (valid : K → Prop) (precedes : K → K → Prop)
      (store : SortedMap String V) (abstract : K → Option V),
      OrderedRoundTrip map.keySeg valid precedes → map.key.Reparses →
        map.Refines valid store abstract →
        ∃ pairs : List (K × V), map.iter store = .ok (pairs.map .ok) ∧
          (∀ key value, (key, value) ∈ pairs ↔ valid key ∧ abstract key = some value) ∧
          pairs.Pairwise fun first second => precedes first.1 second.1 :=
  ⟨unsigned_orderedRoundTrip, fun _ hbytes => signed_orderedRoundTrip hbytes,
    epoch_orderedRoundTrip, amount_orderedRoundTrip, reverseOrdTokenAmount_orderedRoundTrip,
    fun _ _ _ _ _ hlaws hmapKey hrefines => hrefines.iter hlaws hmapKey⟩

/-- Keys of string segments only: no address is ever written. -/
instance : AddressCodec Empty := ⟨Empty.elim, fun _ => none⟩

/-- A lazy map of epochs under the key `m`. -/
def epochMapAtM : LazyMap Empty ℕ := ⟨⟨[.stringSeg "m"]⟩, KeySeg.epoch⟩

/-- Three inserts and a remove on the epoch map leave a storage whose `iter`
lists the two bindings left, by increasing epoch. -/
theorem keySegs_roundTrip_order_iter_three_epochs :
    ∃ (store : SortedMap String ℕ) (pairs : List (ℕ × ℕ)), epochMapAtM.run SortedMap.empty
          [.insert 3 30, .insert 1 10, .insert 2 20, .remove 2] = .ok store ∧
      epochMapAtM.iter store = .ok (pairs.map .ok) ∧
      (∀ key value, (key, value) ∈ pairs ↔ key < 2 ^ 64 ∧
        LazyMap.Call.applyAll (fun _ => none) [.insert 3 30, .insert 1 10, .insert 2 20, .remove 2]
          key = some value) ∧
      pairs.Pairwise fun first second => first.1 < second.1 := by
  obtain ⟨-, -, hepoch, -, -, hiter⟩ := @keySegs_roundTrip_order_iter Empty _
  have hmapKey : epochMapAtM.key.Reparses := by
    intro seg hseg
    rw [List.mem_singleton.mp hseg]
    decide
  -- the calls are at epochs that fit a `u64`, so the storage refines their finite map
  have hempty : epochMapAtM.Refines (· < 2 ^ 64) (SortedMap.empty : SortedMap String ℕ) fun _ => none :=
    LazyMap.Refines.empty
  have hcalls : ∀ call ∈ ([.insert 3 30, .insert 1 10, .insert 2 20, .remove 2] : List (LazyMap.Call ℕ ℕ)),
      call.key < 2 ^ 64 := by
    decide
  obtain ⟨store, hrun, hrefines⟩ := hempty.run hepoch hcalls
  obtain ⟨pairs, hlist, hmem, hsorted⟩ := hiter epochMapAtM _ _ _ _ hepoch hmapKey hrefines
  exact ⟨store, pairs, hrun, hlist, hmem, hsorted⟩

/-- A lazy map keyed by strings panics on every call at the key "a/b". -/
theorem stringKeyed_lazyMap_panics_at_separator {V : Type} (mapKey : Key Address)
    (store : SortedMap String V) (value : V) (f : Option V → V) :
    (⟨mapKey, KeySeg.string⟩ : LazyMap Address String).get store "a/b" = .error .panic ∧
      (⟨mapKey, KeySeg.string⟩ : LazyMap Address String).insert store "a/b" value =
        .error .panic ∧
      (⟨mapKey, KeySeg.string⟩ : LazyMap Address String).remove store "a/b" = .error .panic ∧
      (⟨mapKey, KeySeg.string⟩ : LazyMap Address String).update store "a/b" f = .error .panic ∧
      (⟨mapKey, KeySeg.string⟩ : LazyMap Address String).contains store "a/b" = .error .panic :=
  LazyMap.stringKeyed_calls_panic mapKey (by decide) store value f

end KeyTypes

end Namada.Storage
