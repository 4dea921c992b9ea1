/-
# Prefix iteration over the write log and the database

`namada_state`'s `PrefixIter` walks two streams at once, both in string order:
the database's bindings under a prefix (`DBIter::iter_prefix`, here that of
`MockDB`) and the write log's modifications under it (`WriteLog::iter_prefix_pre`
for the block log, `iter_prefix_post` for the block log with the
transaction's logs over it). `next` returns the smaller key, the write log's on
a tie with the database's binding skipped, and goes round its loop past a
deletion. What the iterator yields is the library's merge of the two streams
(`collect_eq_mergeShadow`), so it is strictly increasing and a point read of it
is the write log's modification or else the database's value.

The two streams filter by different rules. The database keeps the strings that
begin with the prefix and a separator: the keys strictly under the prefix. The
write log keeps the keys `Key::split_prefix` accepts, which include the prefix
itself. So the prefix key is yielded when the write log holds a value for it,
and not when only the database does (`iterPrefixPost_yields`).
-/

import Namada.State.WriteLog
import Namada.Storage.LazyMap
import Namada.Math.SortedMerge

namespace Namada.State

open Namada.Core Namada.Math Namada.Storage

/-- `STORAGE_ACCESS_GAS_PER_BYTE` of `namada_gas`. -/
def storageAccessGasPerByte : Nat := 163 + physicalStorageLatencyPerByte

/-- What a modification reads as in `read_pre` and `read_post` of the
validity-predicate host functions: the value written, nothing for a deletion,
and the validity-predicate hash of a new account. -/
def modificationValue : StorageModification → Option (List UInt8)
  | .write value => some value
  | .delete => none
  | .initAccount vpCodeHash => some vpCodeHash.bytes.toList

/-- A yielded item without its gas. -/
def binding (item : String × List UInt8 × ℕ) : String × List UInt8 := (item.1, item.2.1)

/-- `MockDB`: every column of the database in one ordered map from strings to
bytes. -/
structure MockDB where
  map : SortedMap String (List UInt8)

namespace MockDB

variable {Address : Type} [AddressCodec Address] [DecidableEq Address]

/-- `SUBSPACE_CF`. -/
def subspaceCf : String := "subspace"

/-- What `iter_prefix` strips off the strings it yields. -/
def strippedPrefix : String := "subspace/"

/-- `DB::read_subspace_val for MockDB`: the value under the string of the key
`subspace` joined with the key. -/
def readSubspaceVal (db : MockDB) (key : Key Address) : Option (List UInt8) :=
  db.map.find? (Key.join ⟨[.stringSeg subspaceCf]⟩ key).toString

/-- `DBIter::iter_prefix for MockDB` with `Some(prefix)`: the bindings whose
string begins with `subspace/` and the prefix, with a separator after a
prefix that is not the empty key, in order, with `subspace/` stripped and the
length of the key and of the value as gas. -/
def iterPrefix (db : MockDB) (pfx : Key Address) : List (String × List UInt8 × ℕ) :=
  let pfxString := strippedPrefix ++ if pfx = ⟨[]⟩ then pfx.toString else pfx.toString ++ "/"
  (db.map.entries.filter fun entry => pfxString.toList.isPrefixOf entry.1.toList).map fun entry =>
    let key := String.ofList (entry.1.toList.drop strippedPrefix.length)
    (key, entry.2, key.utf8ByteSize + entry.2.length)

/-- The strings `iter_prefix` visits after `subspace/`: those the storage
iterator of the prefix visits. -/
theorem iterPrefix_string (pfx : Key Address) :
    (if pfx = ⟨[]⟩ then pfx.toString else pfx.toString ++ "/") = Store.prefixString pfx := by
  by_cases hempty : pfx.segments = []
  · have hpfx : pfx = ⟨[]⟩ := by
      cases pfx
      simp only at hempty
      rw [hempty]
    rw [if_pos hpfx, Store.prefixString, if_pos hempty, hpfx]
    rfl
  · have hpfx : pfx ≠ ⟨[]⟩ := fun heq => hempty (by rw [heq])
    rw [if_neg hpfx, Store.prefixString, if_neg hempty]
    rfl

theorem drop_length_append (common : String) (rest : List Char) :
    (common.toList ++ rest).drop common.length = rest := by
  rw [← String.length_toList, List.drop_left]

/-- `iter_prefix` yields a string with a value exactly when `subspace/` and the
string is bound to the value and the string is under the prefix. -/
theorem mem_iterPrefix {db : MockDB} {pfx : Key Address} {string : String} {value : List UInt8} :
    (string, value) ∈ (db.iterPrefix pfx).map binding ↔
      (strippedPrefix ++ string, value) ∈ db.map.entries ∧
        (Store.prefixString pfx).toList.isPrefixOf string.toList := by
  unfold iterPrefix
  rw [iterPrefix_string]
  simp only [List.map_map, List.mem_map, List.mem_filter, Function.comp, binding]
  constructor
  · rintro ⟨entry, ⟨hentry, hunder⟩, hbinding⟩
    obtain ⟨rest, hrest⟩ := List.isPrefixOf_iff_prefix.mp hunder
    rw [String.toList_append, List.append_assoc] at hrest
    have hstring : string.toList = (Store.prefixString pfx).toList ++ rest := by
      rw [← (Prod.mk.injEq _ _ _ _).mp hbinding |>.1, String.toList_ofList, ← hrest, drop_length_append]
    have hentryKey : entry.1 = strippedPrefix ++ string := by
      rw [String.ext_iff, String.toList_append, hstring, hrest]
    refine ⟨?_, ?_⟩
    · rw [← hentryKey, ← ((Prod.mk.injEq _ _ _ _).mp hbinding).2]
      exact hentry
    · rw [hstring, List.isPrefixOf_iff_prefix]
      exact List.prefix_append _ _
  · rintro ⟨hentry, hunder⟩
    refine ⟨(strippedPrefix ++ string, value), ⟨hentry, ?_⟩, ?_⟩
    · obtain ⟨rest, hrest⟩ := List.isPrefixOf_iff_prefix.mp hunder
      rw [List.isPrefixOf_iff_prefix, String.toList_append, String.toList_append, ← hrest,
        ← List.append_assoc]
      exact List.prefix_append _ _
    · rw [String.toList_append, drop_length_append, String.ofList_toList]

theorem toList_eq_strippedPrefix_append {string under : String}
    (hunder : (strippedPrefix ++ under).toList.isPrefixOf string.toList = true) :
    string.toList = strippedPrefix.toList ++ string.toList.drop strippedPrefix.length := by
  obtain ⟨rest, hrest⟩ := List.isPrefixOf_iff_prefix.mp hunder
  rw [String.toList_append, List.append_assoc] at hrest
  rw [← hrest, drop_length_append]

/-- The strings `iter_prefix` yields strictly increase: stripping a common
beginning keeps the order. -/
theorem increasing_iterPrefix (db : MockDB) (pfx : Key Address) :
    Increasing ((db.iterPrefix pfx).map binding) := by
  unfold iterPrefix
  simp only [List.map_map, Increasing, List.pairwise_map]
  apply List.Pairwise.imp_of_mem _ (db.map.sorted.filter _)
  intro first second hfirst hsecond hlt
  have hfirstSplit := toList_eq_strippedPrefix_append (List.mem_filter.mp hfirst).2
  have hsecondSplit := toList_eq_strippedPrefix_append (List.mem_filter.mp hsecond).2
  show String.ofList (first.1.toList.drop strippedPrefix.length) <
    String.ofList (second.1.toList.drop strippedPrefix.length)
  rw [String.lt_iff, String.toList_ofList, String.toList_ofList,
    ← append_lt_append_left_iff strippedPrefix.toList, ← hfirstSplit, ← hsecondSplit, ← String.lt_iff]
  exact hlt

/-- A point read of what `iter_prefix` yields: under the prefix, the database's
value of `subspace/` and the string; nothing elsewhere. -/
theorem lookup_iterPrefix (db : MockDB) (pfx : Key Address) (string : String) :
    ((db.iterPrefix pfx).map binding).lookup string =
      if (Store.prefixString pfx).toList.isPrefixOf string.toList then db.map.find? (strippedPrefix ++ string)
      else none := by
  apply Option.ext
  intro value
  rw [← mem_iff_lookup_eq (increasing_iterPrefix db pfx), mem_iterPrefix]
  split_ifs with hunder
  · rw [SortedMap.find?_eq_some_iff]
    exact and_iff_left hunder
  · simp [hunder]

omit [DecidableEq Address] in
/-- A key with segments is read from the database under `subspace/` and its
string. -/
theorem readSubspaceVal_eq (db : MockDB) {key : Key Address} (hkey : key.segments ≠ []) :
    db.readSubspaceVal key = db.map.find? (strippedPrefix ++ key.toString) := by
  rw [readSubspaceVal, Key.toString_join (List.cons_ne_nil _ _) hkey]
  rfl

end MockDB

namespace WriteLog

variable {Address ε : Type} [AddressCodec Address] [DecidableEq Address]

/-- One log's modifications under the prefix put into the matches under their
key's string, over what is there. -/
def insertMatches (pfx : Key Address) (matched : SortedMap String StorageModification)
    (bucket : KeyMap (Key Address) StorageModification) : SortedMap String StorageModification :=
  bucket.entries.foldl (fun acc entry =>
    if (entry.1.splitPrefix pfx).isSome then acc.insert entry.1.toString entry.2 else acc) matched

/-- `WriteLog::iter_prefix_pre`: the block log's modifications under the
prefix, in string order. -/
def iterPrefixPre (wl : WriteLog (Key Address) ε) (pfx : Key Address) :
    List (String × StorageModification) :=
  (insertMatches pfx SortedMap.empty wl.blockWriteLog).entries

/-- `WriteLog::iter_prefix_post`: the block log's modifications under the
prefix, then the precommit log's, then the transaction log's, each over the
ones before, in string order. -/
def iterPrefixPost (wl : WriteLog (Key Address) ε) (pfx : Key Address) :
    List (String × StorageModification) :=
  ([wl.blockWriteLog, wl.txPrecommitWriteLog, wl.txWriteLog].foldl (insertMatches pfx)
    SortedMap.empty).entries

/-- The fold of `insertMatches` over one log, read at the string of a key that
no other key of the log shares: the log's modification of the key if the key
is under the prefix, what was there otherwise. -/
theorem find?_foldl_insertMatches (pfx : Key Address) {key : Key Address} :
    ∀ (entries : List (Sigma fun _ : Key Address => StorageModification))
      (matched : SortedMap String StorageModification), entries.NodupKeys →
      (∀ other ∈ entries.keys, other.toString = key.toString → other = key) →
      (entries.foldl (fun acc entry =>
          if (entry.1.splitPrefix pfx).isSome then acc.insert entry.1.toString entry.2 else acc)
        matched).find? key.toString =
        (if (key.splitPrefix pfx).isSome then entries.dlookup key else none).or (matched.find? key.toString)
  | [], matched, _, _ => by
    split_ifs <;> rfl
  | entry :: rest, matched, hnodup, hunique => by
    obtain ⟨hfresh, hrest⟩ := List.nodupKeys_cons.mp hnodup
    rw [List.foldl_cons, find?_foldl_insertMatches pfx rest _ hrest
      fun other hother => hunique other (List.mem_cons_of_mem _ hother)]
    obtain ⟨entryKey, modification⟩ := entry
    by_cases hkey : entryKey = key
    · -- the log's own modification of the key goes over what was there
      subst hkey
      rw [List.dlookup_eq_none.mpr hfresh, List.dlookup_cons_eq]
      by_cases hunder : (entryKey.splitPrefix pfx).isSome
      · simp only [hunder, if_true, SortedMap.find?_insert_self, Option.none_or, Option.some_or]
      · simp only [hunder, if_false, Bool.false_eq_true, Option.none_or]
    · -- another key's modification leaves the key's string alone
      have hstring : entryKey.toString ≠ key.toString :=
        fun heq => hkey (hunique entryKey (List.mem_cons_self) heq)
      have hstep : (if (entryKey.splitPrefix pfx).isSome then matched.insert entryKey.toString modification
          else matched).find? key.toString = matched.find? key.toString := by
        split_ifs
        · exact SortedMap.find?_insert_of_ne _ _ (Ne.symm hstring)
        · rfl
      rw [List.dlookup_cons_ne _ _ (Ne.symm hkey)]
      exact congrArg _ hstep

theorem find?_insertMatches (pfx : Key Address) (matched : SortedMap String StorageModification)
    (bucket : KeyMap (Key Address) StorageModification) {key : Key Address}
    (hunique : ∀ other ∈ bucket.keys, other.toString = key.toString → other = key) :
    (insertMatches pfx matched bucket).find? key.toString =
      (if (key.splitPrefix pfx).isSome then bucket.lookup key else none).or (matched.find? key.toString) :=
  find?_foldl_insertMatches pfx bucket.entries matched bucket.nodupKeys hunique

/-- The matches after one log hold what was there and the strings of the log's
keys under the prefix. -/
theorem mem_foldl_insertMatches (pfx : Key Address) {string : String} {modification : StorageModification} :
    ∀ (entries : List (Sigma fun _ : Key Address => StorageModification))
      (matched : SortedMap String StorageModification),
      (string, modification) ∈ (entries.foldl (fun acc entry =>
          if (entry.1.splitPrefix pfx).isSome then acc.insert entry.1.toString entry.2 else acc)
        matched).entries →
      (string, modification) ∈ matched.entries ∨
        ∃ key ∈ entries.keys, (key.splitPrefix pfx).isSome ∧ key.toString = string
  | [], matched, hmem => Or.inl hmem
  | entry :: rest, matched, hmem => by
    rw [List.foldl_cons] at hmem
    rcases mem_foldl_insertMatches pfx rest _ hmem with hstep | ⟨key, hkey, hunder, hstring⟩
    · by_cases hunder : (entry.1.splitPrefix pfx).isSome
      · rw [if_pos hunder, SortedMap.mem_entries_insert] at hstep
        rcases hstep with hnew | ⟨hold, -⟩
        · exact Or.inr ⟨entry.1, List.mem_cons_self, hunder, by rw [(Prod.mk.injEq _ _ _ _).mp hnew |>.1]⟩
        · exact Or.inl hold
      · rw [if_neg hunder] at hstep
        exact Or.inl hstep
    · exact Or.inr ⟨key, List.mem_cons_of_mem _ hkey, hunder, hstring⟩

end WriteLog

/-- `PrefixIter` of `namada_state`: the database's stream and the write log's,
both peekable. -/
structure PrefixIter where
  storageIter : List (String × List UInt8 × ℕ)
  writeLogIter : List (String × StorageModification)

namespace PrefixIter

/-- What `next` does once it has peeked at both streams. -/
inductive Next
  | returnWl (advanceStorage : Bool)
  | returnStorage

/-- The choice of `next` from the peeked keys; none when both streams are done. -/
def what : Option String → Option String → Option Next
  | none, none => none
  | none, some _ => some (.returnWl false)
  | some _, none => some .returnStorage
  | some storageKey, some wlKey =>
    if wlKey ≤ storageKey then some (.returnWl (wlKey == storageKey)) else some .returnStorage

/-- What a write-log modification yields: the bytes written, or the
validity-predicate hash of a new account, with their length as gas; a deletion
yields nothing. -/
def modificationItem (key : String) : StorageModification → Option (String × List UInt8 × ℕ)
  | .write value => some (key, value, value.length)
  | .initAccount vpCodeHash => some (key, vpCodeHash.bytes.toList, vpCodeHash.len)
  | .delete => none

/-- The loop of `Iterator::next for PrefixIter`: a deletion goes round again. -/
def nextOf (storageIter : List (String × List UInt8 × ℕ)) (writeLogIter : List (String × StorageModification)) :
    Option ((String × List UInt8 × ℕ) × PrefixIter) :=
  match what (storageIter.head?.map Prod.fst) (writeLogIter.head?.map Prod.fst), writeLogIter with
  | none, _ => none
  | some .returnStorage, _ =>
    match storageIter with
    | item :: storageRest => some (item, ⟨storageRest, writeLogIter⟩)
    -- not reached: the stream was peeked
    | [] => none
  | some (.returnWl advanceStorage), (key, modification) :: writeLogRest =>
    let storageIter := if advanceStorage then storageIter.tail else storageIter
    match modificationItem key modification with
    | some item => some (item, ⟨storageIter, writeLogRest⟩)
    | none => nextOf storageIter writeLogRest
  -- not reached: the stream was peeked
  | some (.returnWl _), [] => none

/-- `Iterator::next for PrefixIter`. -/
def next (self : PrefixIter) : Option ((String × List UInt8 × ℕ) × PrefixIter) :=
  nextOf self.storageIter self.writeLogIter

/-- The streams left, counted together. -/
def size (self : PrefixIter) : ℕ := self.storageIter.length + self.writeLogIter.length

/-! ### One call of `next`

`next` by the shapes of the two streams: the database's binding when the
write log is done or its key is larger, and otherwise the write log's
modification, with the database's binding skipped on a tie. -/

section Step

variable (storageIter : List (String × List UInt8 × ℕ)) (writeLogIter : List (String × StorageModification))
  (item : String × List UInt8 × ℕ) (key : String) (modification : StorageModification)

theorem nextOf_nil_nil : nextOf [] [] = none := by
  rw [nextOf.eq_def]
  rfl

theorem nextOf_cons_nil : nextOf (item :: storageIter) [] = some (item, ⟨storageIter, []⟩) := by
  rw [nextOf.eq_def]
  rfl

theorem nextOf_nil_cons :
    nextOf [] ((key, modification) :: writeLogIter) =
      match modificationItem key modification with
      | some item => some (item, ⟨[], writeLogIter⟩)
      | none => nextOf [] writeLogIter := by
  conv_lhs => rw [nextOf.eq_def]
  rfl

variable {storageIter writeLogIter item key modification}

theorem nextOf_of_lt (hlt : item.1 < key) :
    nextOf (item :: storageIter) ((key, modification) :: writeLogIter) =
      some (item, ⟨storageIter, (key, modification) :: writeLogIter⟩) := by
  rw [nextOf.eq_def]
  simp only [List.head?, Option.map, what, if_neg (not_le.mpr hlt)]

theorem nextOf_of_le (hle : key ≤ item.1) :
    nextOf (item :: storageIter) ((key, modification) :: writeLogIter) =
      let storageIter := if key = item.1 then storageIter else item :: storageIter
      match modificationItem key modification with
      | some item => some (item, ⟨storageIter, writeLogIter⟩)
      | none => nextOf storageIter writeLogIter := by
  conv_lhs => rw [nextOf.eq_def]
  simp only [List.head?, Option.map, what, if_pos hle]
  by_cases hkey : key = item.1
  · simp [hkey]
  · simp [hkey]

end Step

/-- A write-log modification yields its value, with its length as gas. -/
theorem modificationItem_eq (key : String) (modification : StorageModification) :
    modificationItem key modification =
      (modificationValue modification).map fun value => (key, value, value.length) := by
  cases modification with
  | write value => rfl
  | delete => rfl
  | initAccount vpCodeHash =>
    show some (key, vpCodeHash.bytes.toList, hashLength) = some (key, vpCodeHash.bytes.toList, _)
    rw [List.Vector.toList_length]

/-- One call of `next` against the merge: the merge of the two streams is what
`next` yields, then the merge of the streams it leaves. -/
theorem mergeShadow_nextOf (storageIter : List (String × List UInt8 × ℕ))
    (writeLogIter : List (String × StorageModification)) :
    mergeShadow modificationValue (storageIter.map binding) writeLogIter =
      match nextOf storageIter writeLogIter with
      | none => []
      | some (item, rest) =>
        binding item :: mergeShadow modificationValue (rest.storageIter.map binding) rest.writeLogIter := by
  -- by the write-log stream: a deletion is the one step that goes round the loop
  induction writeLogIter generalizing storageIter with
  | nil =>
    cases storageIter with
    | nil => rw [nextOf_nil_nil, List.map_nil, mergeShadow.eq_1]
    | cons item storageIter =>
      rw [nextOf_cons_nil, List.map_cons, mergeShadow.eq_1]
      dsimp only
      rw [mergeShadow.eq_1]
  | cons change writeLogIter ih =>
    obtain ⟨key, modification⟩ := change
    cases storageIter with
    | nil =>
      rw [nextOf_nil_cons, modificationItem_eq, List.map_nil, mergeShadow.eq_2]
      cases hvalue : modificationValue modification with
      | none => exact ih []
      | some value => rfl
    | cons item storageIter =>
      rw [List.map_cons, mergeShadow.eq_3]
      rcases lt_trichotomy key item.1 with hlt | heq | hgt
      · -- the write log's key first, the database's binding kept
        rw [nextOf_of_le (le_of_lt hlt)]
        dsimp only
        rw [if_pos (show key < (binding item).1 from hlt), if_neg (ne_of_lt hlt), modificationItem_eq]
        cases hvalue : modificationValue modification with
        | none => exact ih (item :: storageIter)
        | some value => rfl
      · -- a tie: the write log's modification, the database's binding skipped
        rw [nextOf_of_le (le_of_eq heq)]
        dsimp only
        rw [if_neg (show ¬ key < (binding item).1 from not_lt.mpr (ge_of_eq heq)),
          if_pos (show key = (binding item).1 from heq), if_pos heq, modificationItem_eq]
        cases hvalue : modificationValue modification with
        | none => exact ih storageIter
        | some value => rfl
      · -- the database's key first
        rw [nextOf_of_lt hgt, if_neg (show ¬ key < (binding item).1 from not_lt.mpr (le_of_lt hgt)),
          if_neg (show ¬ key = (binding item).1 from ne_of_gt hgt)]

/-- `next` leaves shorter streams. -/
theorem size_lt_of_nextOf {storageIter : List (String × List UInt8 × ℕ)}
    {writeLogIter : List (String × StorageModification)} {item : String × List UInt8 × ℕ} {rest : PrefixIter}
    (hnext : nextOf storageIter writeLogIter = some (item, rest)) :
    rest.size < storageIter.length + writeLogIter.length := by
  induction writeLogIter generalizing storageIter with
  | nil =>
    cases storageIter with
    | nil => rw [nextOf_nil_nil] at hnext; cases hnext
    | cons first storageIter =>
      rw [nextOf_cons_nil] at hnext
      cases hnext
      simp [size]
  | cons change writeLogIter ih =>
    obtain ⟨key, modification⟩ := change
    -- the write log's modification taken, from what is left of the database's stream
    have hwl : ∀ kept : List (String × List UInt8 × ℕ), kept.length ≤ storageIter.length →
        (match modificationItem key modification with
          | some item => some (item, (⟨kept, writeLogIter⟩ : PrefixIter))
          | none => nextOf kept writeLogIter) = some (item, rest) →
        rest.size < storageIter.length + (writeLogIter.length + 1) := by
      intro kept hkept htaken
      cases hitem : modificationItem key modification with
      | none =>
        rw [hitem] at htaken
        have := ih htaken
        omega
      | some taken =>
        rw [hitem] at htaken
        cases htaken
        simp only [size]
        omega
    cases storageIter with
    | nil =>
      rw [nextOf_nil_cons] at hnext
      exact hwl [] (le_refl _) hnext
    | cons first storageIter =>
      by_cases hle : key ≤ first.1
      · rw [nextOf_of_le hle] at hnext
        have hkept : (if key = first.1 then storageIter else first :: storageIter).length ≤
            (first :: storageIter).length := by
          split_ifs
          · exact Nat.le_succ _
          · exact le_refl _
        exact hwl _ hkept hnext
      · rw [nextOf_of_lt (not_le.mp hle)] at hnext
        cases hnext
        simp only [size, List.length_cons]
        omega

set_option linter.unusedVariables false in
/-- The items an iterator yields: `next` after `next`, until `None`. -/
def collect (self : PrefixIter) : List (String × List UInt8 × ℕ) :=
  match hnext : self.next with
  | none => []
  | some (item, rest) => item :: rest.collect
termination_by self.size
decreasing_by exact size_lt_of_nextOf hnext

/-- What an iterator yields, without the gas, is the merge of its two streams:
one call of `next` at a time. -/
theorem collect_eq_mergeShadow (self : PrefixIter) :
    self.collect.map binding = mergeShadow modificationValue (self.storageIter.map binding) self.writeLogIter := by
  fun_induction collect self with
  | case1 self hnext =>
    rw [List.map_nil, mergeShadow_nextOf]
    show [] = match self.next with
      | none => []
      | some (item, rest) => binding item :: mergeShadow modificationValue (rest.storageIter.map binding) rest.writeLogIter
    rw [hnext]
  | case2 self item rest hnext ih =>
    rw [List.map_cons, ih, mergeShadow_nextOf self.storageIter self.writeLogIter]
    show _ = match self.next with
      | none => []
      | some (item, rest) => binding item :: mergeShadow modificationValue (rest.storageIter.map binding) rest.writeLogIter
    rw [hnext]

end PrefixIter

/-! ## Iterating the state before and after the transaction -/

section State

variable {Address ε : Type} [AddressCodec Address] [DecidableEq Address]

/-- `namada_state::iter_prefix_pre`: the database's stream and the block log's,
and the gas of the prefix's bytes. -/
def iterPrefixPre (wl : WriteLog (Key Address) ε) (db : MockDB) (pfx : Key Address) : PrefixIter × ℕ :=
  (⟨db.iterPrefix pfx, wl.iterPrefixPre pfx⟩, pfx.toString.utf8ByteSize * storageAccessGasPerByte)

/-- `namada_state::iter_prefix_post`: the database's stream and the write
log's with the transaction over the block, and the gas of the prefix's bytes. -/
def iterPrefixPost (wl : WriteLog (Key Address) ε) (db : MockDB) (pfx : Key Address) : PrefixIter × ℕ :=
  (⟨db.iterPrefix pfx, wl.iterPrefixPost pfx⟩, pfx.toString.utf8ByteSize * storageAccessGasPerByte)

/-- `Key::len`: the bytes of the key's string. -/
def keyLen (key : Key Address) : ℕ := key.toString.utf8ByteSize

/-- `read_pre` of the validity-predicate host functions, without its gas: the
block log's modification, or else the database's value. -/
def readPre (wl : WriteLog (Key Address) ε) (db : MockDB) (key : Key Address) : Option (List UInt8) :=
  match (wl.readPre keyLen key).1 with
  | some modification => modificationValue modification
  | none => db.readSubspaceVal key

/-- `read_post` of the validity-predicate host functions, without its gas: the
write log's modification, or else the database's value. -/
def readPost (wl : WriteLog (Key Address) ε) (db : MockDB) (key : Key Address) : Option (List UInt8) :=
  match (wl.read keyLen key).1 with
  | some modification => modificationValue modification
  | none => db.readSubspaceVal key

/-- A key strictly under the prefix is written behind the prefix's iteration
string. -/
theorem isPrefixOf_prefixString {key pfx rest : Key Address} (hsplit : key.splitPrefix pfx = some (some rest)) :
    (Store.prefixString pfx).toList.isPrefixOf key.toString.toList = true := by
  obtain ⟨hsegments, hrest⟩ := Key.splitPrefix_eq_some_some_iff.mp hsplit
  by_cases hempty : pfx.segments = []
  · rw [Store.prefixString, if_pos hempty]
    rfl
  · have hjoin : key = pfx.join rest := by
      cases key
      exact congrArg Key.mk hsegments
    rw [Store.prefixString, if_neg hempty, hjoin, Key.toString_join hempty hrest]
    exact isPrefixOf_append _ _

omit [DecidableEq Address] in
/-- The prefix's iteration string is longer than the prefix's own. -/
theorem not_isPrefixOf_prefixString {pfx : Key Address} (hpfx : pfx.segments ≠ []) :
    (Store.prefixString pfx).toList.isPrefixOf pfx.toString.toList = false := by
  rw [Store.prefixString, if_neg hpfx, Bool.eq_false_iff]
  intro hprefix
  have hlength := (List.isPrefixOf_iff_prefix.mp hprefix).length_le
  rw [String.toList_append, List.length_append] at hlength
  have hone : (String.singleton keySegmentSeparator).toList.length = 1 := rfl
  omega

/-- A point read of the write log's stream after the transaction at a key under
the prefix, among keys that parse back from their strings: `WriteLog::read`. -/
theorem lookup_iterPrefixPost (wl : WriteLog (Key Address) ε) (pfx : Key Address) {key : Key Address}
    (hkeys : ∀ bucket ∈ [wl.blockWriteLog, wl.txPrecommitWriteLog, wl.txWriteLog], ∀ other ∈ bucket.keys,
      Key.parse other.toString = .ok other)
    (hkey : Key.parse key.toString = .ok key) (hunder : (key.splitPrefix pfx).isSome) :
    (wl.iterPrefixPost pfx).lookup key.toString = (wl.read keyLen key).1 := by
  have hunique : ∀ bucket ∈ [wl.blockWriteLog, wl.txPrecommitWriteLog, wl.txWriteLog], ∀ other ∈ bucket.keys,
      other.toString = key.toString → other = key :=
    fun bucket hbucket other hother => Key.eq_of_toString_eq hkey (hkeys bucket hbucket other hother)
  rw [WriteLog.iterPrefixPost, ← SortedMap.find?_eq_lookup, List.foldl_cons, List.foldl_cons,
    List.foldl_cons, List.foldl_nil,
    WriteLog.find?_insertMatches _ _ _ (hunique _ (by simp)),
    WriteLog.find?_insertMatches _ _ _ (hunique _ (by simp)),
    WriteLog.find?_insertMatches _ _ _ (hunique _ (by simp)),
    if_pos hunder, if_pos hunder, if_pos hunder, WriteLog.read_fst, Option.or_assoc]
  have hempty : (SortedMap.empty : SortedMap String StorageModification).find? key.toString = none := rfl
  rw [hempty, Option.or_none]

/-- A point read of the block log's stream at a key under the prefix:
`WriteLog::read_pre`. -/
theorem lookup_iterPrefixPre (wl : WriteLog (Key Address) ε) (pfx : Key Address) {key : Key Address}
    (hkeys : ∀ other ∈ wl.blockWriteLog.keys, Key.parse other.toString = .ok other)
    (hkey : Key.parse key.toString = .ok key) (hunder : (key.splitPrefix pfx).isSome) :
    (wl.iterPrefixPre pfx).lookup key.toString = (wl.readPre keyLen key).1 := by
  rw [WriteLog.iterPrefixPre, ← SortedMap.find?_eq_lookup,
    WriteLog.find?_insertMatches _ _ _ fun other hother => Key.eq_of_toString_eq hkey (hkeys other hother),
    if_pos hunder, WriteLog.readPre_fst]
  cases wl.blockWriteLog.lookup key <;> rfl

/-- The write log's stream after the transaction holds only the strings of
keys under the prefix. -/
theorem mem_iterPrefixPost {wl : WriteLog (Key Address) ε} {pfx : Key Address}
    {entry : String × StorageModification} (hmem : entry ∈ wl.iterPrefixPost pfx) :
    ∃ key : Key Address, (key.splitPrefix pfx).isSome ∧ key.toString = entry.1 := by
  rw [WriteLog.iterPrefixPost, List.foldl_cons, List.foldl_cons, List.foldl_cons, List.foldl_nil] at hmem
  -- the transaction log's keys, then the precommit log's, then the block log's
  rcases WriteLog.mem_foldl_insertMatches pfx _ _ hmem with hmem | ⟨key, -, hunder, hstring⟩
  · rcases WriteLog.mem_foldl_insertMatches pfx _ _ hmem with hmem | ⟨key, -, hunder, hstring⟩
    · rcases WriteLog.mem_foldl_insertMatches pfx _ _ hmem with hmem | ⟨key, -, hunder, hstring⟩
      · exact absurd hmem List.not_mem_nil
      · exact ⟨key, hunder, hstring⟩
    · exact ⟨key, hunder, hstring⟩
  · exact ⟨key, hunder, hstring⟩

/-- The block log's stream holds only the strings of keys under the prefix. -/
theorem mem_iterPrefixPre {wl : WriteLog (Key Address) ε} {pfx : Key Address}
    {entry : String × StorageModification} (hmem : entry ∈ wl.iterPrefixPre pfx) :
    ∃ key : Key Address, (key.splitPrefix pfx).isSome ∧ key.toString = entry.1 := by
  rcases WriteLog.mem_foldl_insertMatches pfx _ _ hmem with hmem | ⟨key, -, hunder, hstring⟩
  · exact absurd hmem List.not_mem_nil
  · exact ⟨key, hunder, hstring⟩

end State

/-! ## What the iterator yields -/

section Yields

variable {Address : Type} [AddressCodec Address] [DecidableEq Address] (db : MockDB) (pfx : Key Address)
  {writeLogIter : List (String × StorageModification)}

theorem increasing_collect (hinc : Increasing writeLogIter) :
    Increasing ((⟨db.iterPrefix pfx, writeLogIter⟩ : PrefixIter).collect.map binding) := by
  rw [PrefixIter.collect_eq_mergeShadow]
  exact increasing_mergeShadow (MockDB.increasing_iterPrefix db pfx) hinc

theorem lookup_collect (hinc : Increasing writeLogIter) (string : String) :
    ((⟨db.iterPrefix pfx, writeLogIter⟩ : PrefixIter).collect.map binding).lookup string =
      readThrough modificationValue ((db.iterPrefix pfx).map binding) writeLogIter string := by
  rw [PrefixIter.collect_eq_mergeShadow]
  exact lookup_mergeShadow (MockDB.increasing_iterPrefix db pfx) hinc string

/-- At a key strictly under the prefix, the iterator yields the write log's
modification, or else the database's value. -/
theorem lookup_collect_of_split (hinc : Increasing writeLogIter) {key rest : Key Address}
    (hsplit : key.splitPrefix pfx = some (some rest)) :
    ((⟨db.iterPrefix pfx, writeLogIter⟩ : PrefixIter).collect.map binding).lookup key.toString =
      match writeLogIter.lookup key.toString with
      | some modification => modificationValue modification
      | none => db.readSubspaceVal key := by
  have hsegments : key.segments ≠ [] := by
    obtain ⟨hkeySegments, hrest⟩ := Key.splitPrefix_eq_some_some_iff.mp hsplit
    rw [hkeySegments]
    exact fun hnil => hrest (List.append_eq_nil_iff.mp hnil).2
  rw [lookup_collect db pfx hinc, readThrough, MockDB.lookup_iterPrefix,
    if_pos (isPrefixOf_prefixString hsplit), ← MockDB.readSubspaceVal_eq db hsegments]
  cases writeLogIter.lookup key.toString <;> rfl

/-- At the prefix itself the database is not read: the iterator yields the
write log's modification only. -/
theorem lookup_collect_prefix (hinc : Increasing writeLogIter) (hpfx : pfx.segments ≠ []) :
    ((⟨db.iterPrefix pfx, writeLogIter⟩ : PrefixIter).collect.map binding).lookup pfx.toString =
      (writeLogIter.lookup pfx.toString).bind modificationValue := by
  rw [lookup_collect db pfx hinc, readThrough, MockDB.lookup_iterPrefix, not_isPrefixOf_prefixString hpfx]
  cases writeLogIter.lookup pfx.toString <;> rfl

/-- Every string the iterator yields is the prefix's or under it. -/
theorem mem_collect
    (hkeys : ∀ entry ∈ writeLogIter, ∃ key : Key Address, (key.splitPrefix pfx).isSome ∧ key.toString = entry.1)
    {entry : String × List UInt8}
    (hmem : entry ∈ (⟨db.iterPrefix pfx, writeLogIter⟩ : PrefixIter).collect.map binding) :
    entry.1 = pfx.toString ∨ (Store.prefixString pfx).toList.isPrefixOf entry.1.toList = true := by
  rw [PrefixIter.collect_eq_mergeShadow] at hmem
  rcases key_mem_of_mem_mergeShadow hmem with hdb | hwl
  · obtain ⟨⟨string, value⟩, hfound, hkey⟩ := List.mem_map.mp hdb
    rw [← hkey]
    exact Or.inr (MockDB.mem_iterPrefix.mp hfound).2
  · obtain ⟨found, hfound, hkey⟩ := List.mem_map.mp hwl
    obtain ⟨key, hunder, hstring⟩ := hkeys found hfound
    rw [← hkey, ← hstring]
    -- the write log's keys under the prefix: the prefix, or strictly under it
    cases hsplit : key.splitPrefix pfx with
    | none =>
      rw [hsplit] at hunder
      cases hunder
    | some suffix =>
      cases suffix with
      | none => exact Or.inl (by rw [Key.eq_of_splitPrefix_eq_some_none hsplit])
      | some rest => exact Or.inr (isPrefixOf_prefixString hsplit)

end Yields

section Claims

variable {Address ε : Type} [AddressCodec Address] [DecidableEq Address]

/-- Both prefix iterators, the posterior one and the prior one, yield their
keys in increasing order, each key at or under the prefix, with the value the
matching read gives at it. -/
theorem prefixIter_yields_prefix_key (wl : WriteLog (Key Address) ε) (db : MockDB) (pfx : Key Address)
    (hkeys : ∀ bucket ∈ [wl.blockWriteLog, wl.txPrecommitWriteLog, wl.txWriteLog], ∀ key ∈ bucket.keys,
      Key.parse key.toString = .ok key) :
    (Increasing ((iterPrefixPost wl db pfx).1.collect.map binding) ∧
        (∀ key rest : Key Address, Key.parse key.toString = .ok key → key.splitPrefix pfx = some (some rest) →
          ((iterPrefixPost wl db pfx).1.collect.map binding).lookup key.toString = readPost wl db key) ∧
        (Key.parse pfx.toString = .ok pfx → pfx.segments ≠ [] →
          ((iterPrefixPost wl db pfx).1.collect.map binding).lookup pfx.toString =
            (wl.read keyLen pfx).1.bind modificationValue) ∧
        ∀ entry ∈ (iterPrefixPost wl db pfx).1.collect.map binding,
          entry.1 = pfx.toString ∨ (Store.prefixString pfx).toList.isPrefixOf entry.1.toList = true) ∧
      (Increasing ((iterPrefixPre wl db pfx).1.collect.map binding) ∧
        (∀ key rest : Key Address, Key.parse key.toString = .ok key → key.splitPrefix pfx = some (some rest) →
          ((iterPrefixPre wl db pfx).1.collect.map binding).lookup key.toString = readPre wl db key) ∧
        (Key.parse pfx.toString = .ok pfx → pfx.segments ≠ [] →
          ((iterPrefixPre wl db pfx).1.collect.map binding).lookup pfx.toString =
            (wl.readPre keyLen pfx).1.bind modificationValue) ∧
        ∀ entry ∈ (iterPrefixPre wl db pfx).1.collect.map binding,
          entry.1 = pfx.toString ∨ (Store.prefixString pfx).toList.isPrefixOf entry.1.toList = true) := by
  -- both write-log streams are the entries of a sorted map
  have hpostInc : Increasing (wl.iterPrefixPost pfx) :=
    ([wl.blockWriteLog, wl.txPrecommitWriteLog, wl.txWriteLog].foldl (WriteLog.insertMatches pfx)
      SortedMap.empty).sorted
  have hpreInc : Increasing (wl.iterPrefixPre pfx) :=
    (WriteLog.insertMatches pfx SortedMap.empty wl.blockWriteLog).sorted
  have hblock : ∀ key ∈ wl.blockWriteLog.keys, Key.parse key.toString = .ok key :=
    hkeys _ List.mem_cons_self
  have hselfUnder : (pfx.splitPrefix pfx).isSome := by rw [Key.splitPrefix_self]; rfl
  refine ⟨⟨increasing_collect db pfx hpostInc, ?_, ?_, fun entry hmem => mem_collect db pfx
      (fun _ hentry => mem_iterPrefixPost hentry) hmem⟩,
    ⟨increasing_collect db pfx hpreInc, ?_, ?_, fun entry hmem => mem_collect db pfx
      (fun _ hentry => mem_iterPrefixPre hentry) hmem⟩⟩
  · intro key rest hkey hsplit
    have hunder : (key.splitPrefix pfx).isSome := by rw [hsplit]; rfl
    rw [iterPrefixPost, lookup_collect_of_split db pfx hpostInc hsplit,
      lookup_iterPrefixPost wl pfx hkeys hkey hunder]
    rfl
  · intro hpfx hne
    rw [iterPrefixPost, lookup_collect_prefix db pfx hpostInc hne,
      lookup_iterPrefixPost wl pfx hkeys hpfx hselfUnder]
  · intro key rest hkey hsplit
    have hunder : (key.splitPrefix pfx).isSome := by rw [hsplit]; rfl
    rw [iterPrefixPre, lookup_collect_of_split db pfx hpreInc hsplit,
      lookup_iterPrefixPre wl pfx hblock hkey hunder]
    rfl
  · intro hpfx hne
    rw [iterPrefixPre, lookup_collect_prefix db pfx hpreInc hne,
      lookup_iterPrefixPre wl pfx hblock hpfx hselfUnder]

end Claims

/-- The key `a`. -/
def keyOfA : Key Empty := ⟨[.stringSeg "a"]⟩

/-- A block log that writes the bytes `[1]` at the key `a`, and nothing else. -/
def writeLogOfA : WriteLog (Key Empty) Unit :=
  { blockWriteLog := AList.singleton keyOfA (.write [1]), txWriteLog := ∅, txTempLog := ∅,
    txPrecommitWriteLog := ∅, events := [] }

/-- Iterating under the key `a` itself, with `a` written in the block log and an
empty database, yields `a`. -/
theorem prefixIter_yields_prefix_key_at_a :
    (∀ bucket ∈ [writeLogOfA.blockWriteLog, writeLogOfA.txPrecommitWriteLog, writeLogOfA.txWriteLog],
        ∀ key ∈ bucket.keys, Key.parse key.toString = .ok key) ∧
      ((iterPrefixPost writeLogOfA ⟨SortedMap.empty⟩ keyOfA).1.collect.map binding).lookup keyOfA.toString =
        some [1] := by
  have hkeys : ∀ bucket ∈ [writeLogOfA.blockWriteLog, writeLogOfA.txPrecommitWriteLog, writeLogOfA.txWriteLog],
      ∀ key ∈ bucket.keys, Key.parse key.toString = .ok key := by
    simp only [writeLogOfA, List.mem_cons, List.not_mem_nil, or_false]
    rintro bucket (rfl | rfl | rfl) key hkey
    · rw [List.mem_singleton.mp hkey]
      rfl
    · exact absurd hkey List.not_mem_nil
    · exact absurd hkey List.not_mem_nil
  have hparse : Key.parse keyOfA.toString = .ok keyOfA := rfl
  refine ⟨hkeys, ?_⟩
  rw [(prefixIter_yields_prefix_key writeLogOfA ⟨SortedMap.empty⟩ keyOfA hkeys).1.2.2.1 hparse
    (List.cons_ne_nil _ _)]
  rfl

end Namada.State
