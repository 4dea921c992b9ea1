/-
# Lazy vectors and the validation of their changes

A `LazyVec` keeps its length at a length sub-key and its elements at data
sub-keys by index. `push`, `pop` and `update` keep it in shape: an empty vector
has no key at all, and a vector of length `n` has `n` at the length sub-key and
an element at each index below `n` (`push_ofList`, `pop_ofList`,
`update_ofList`).

A validity predicate sees only the keys a transaction changed, each with what
`read_data` reads of it before and after. `validate_changed_sub_keys` goes
through them once. It collects the length sub-key's change and the indices
added, updated and deleted, and checks them after the loop. This module
supplies that loop and the checks, and says what they do on the changes
between two vectors in shape.

When the length changes, the changes of any two vectors in shape pass in any
order, with the pushes, the pops and the updates the transition made. When the
length stays, there is no length sub-key among the changes, so the bound of the
updates is zero. The validation then rejects every rewrite of an element, at the
first index rewritten. The loop also never checks that the data sub-keys match
the length, so a transaction that deletes one element's key and leaves the
length as it is passes.
-/

import Mathlib
import Namada.Core.Storage
import Namada.Math.Except
import Namada.Math.SortedMap

namespace Namada.Storage.LazyVec

open Namada.Math

variable {T : Type}

/-! ## Changes and actions -/

/-- `Data`: the state of a changed key before and after the transaction. -/
inductive Data (T : Type)
  | add (post : T)
  | update (pre post : T)
  | delete (pre : T)
  deriving DecidableEq

/-- `read_data`: a key absent before and after has no change to validate. -/
def readData (pre post : Option T) : Option (Data T) :=
  match pre, post with
  | none, none => none
  | none, some post => some (.add post)
  | some pre, none => some (.delete pre)
  | some pre, some post => some (.update pre post)

/-- `SubKeyWithData`: the length sub-key or a data sub-key, with its change. -/
inductive SubKeyWithData (T : Type)
  | len (data : Data ℕ)
  | data (index : ℕ) (data : Data T)
  deriving DecidableEq

/-- `Action`: what a change of a data sub-key did to the vector. -/
inductive Action (T : Type)
  | push (value : T)
  | pop (value : T)
  | update (index : ℕ) (pre post : T)
  deriving DecidableEq

/-- `ValidationError` of `LazyVec`, the variants that `validate_changed_sub_keys`
can return. -/
inductive ValidationError
  | invalidLenDiff
  | emptyVecShouldBeDeleted
  | unexpectedPushIndex (got expected : ℕ)
  | unexpectedPopIndex (got expected : ℕ)
  | unexpectedUpdateIndex (got max : ℕ)
  | indexOverflow
  deriving DecidableEq

/-- The error of `namada_storage::Result` here: a storage error (the model's
panic among them) or a validation error, as `into_storage_result` wraps it. -/
inductive CollectionError
  | storage (err : Namada.Core.Error)
  | validation (err : ValidationError)
  deriving DecidableEq

/-- The `+` of two `u64`s, which panics on overflow (the workspace builds with
`overflow-checks`). -/
def addOrPanic (first second : ℕ) : Except CollectionError ℕ :=
  if first + second < 2 ^ 64 then .ok (first + second) else .error (.storage .panic)

/-- `usize::try_into::<u64>` of a set's size. -/
def toIndex (len : ℕ) : Except CollectionError ℕ :=
  if len < 2 ^ 64 then .ok len else .error (.validation .indexOverflow)

theorem addOrPanic_of_lt {first second : ℕ} (hfit : first + second < 2 ^ 64) :
    addOrPanic first second = .ok (first + second) := if_pos hfit

theorem toIndex_of_lt {len : ℕ} (hfit : len < 2 ^ 64) : toIndex len = .ok len := if_pos hfit

/-! ## The loop over the changed keys -/

/-- The variables of `validate_changed_sub_keys`: the actions so far, what the
length sub-key said, and the sets of indices added, updated and deleted (a
`BTreeSet`, iterated in increasing order). -/
structure Accumulator (T : Type) where
  actions : List (Action T)
  postGtPre : Bool
  lenDiff : ℕ
  lenPre : ℕ
  added : Finset ℕ
  updated : Finset ℕ
  deleted : Finset ℕ

namespace Accumulator

/-- The variables before the loop. -/
def init : Accumulator T := ⟨[], false, 0, 0, ∅, ∅, ∅⟩

/-- The arm of the length sub-key: a vector left empty must be deleted. -/
def recordLen (acc : Accumulator T) : Data ℕ → Except CollectionError (Accumulator T)
  | .add post =>
    if post = 0 then .error (.validation .emptyVecShouldBeDeleted)
    else .ok { acc with postGtPre := true, lenDiff := post }
  | .update pre post =>
    if post = 0 then .error (.validation .emptyVecShouldBeDeleted)
    else if pre < post then .ok { acc with postGtPre := true, lenDiff := post - pre, lenPre := pre }
    else .ok { acc with lenDiff := pre - post, lenPre := pre }
  | .delete pre => .ok { acc with lenDiff := pre, lenPre := pre }

/-- The arm of a data sub-key: its action, and its index in the set of its kind. -/
def recordData (acc : Accumulator T) (index : ℕ) : Data T → Accumulator T
  | .add post => { acc with actions := acc.actions ++ [.push post], added := insert index acc.added }
  | .update pre post =>
    { acc with actions := acc.actions ++ [.update index pre post], updated := insert index acc.updated }
  | .delete pre => { acc with actions := acc.actions ++ [.pop pre], deleted := insert index acc.deleted }

/-- One turn of the `for key in keys` loop. -/
def step (acc : Accumulator T) : SubKeyWithData T → Except CollectionError (Accumulator T)
  | .len data => acc.recordLen data
  | .data index data => .ok (acc.recordData index data)

end Accumulator

/-! ## The checks after the loop -/

/-- The length difference must be what was pushed less what was popped. It is
checked only when the length sub-key gave a difference. -/
def checkLenDiff (postGtPre : Bool) (lenDiff addedLen deletedLen : ℕ) :
    Except CollectionError Unit :=
  if lenDiff = 0 then .ok ()
  else do
    let balanced ← match postGtPre with
      | true => (addOrPanic deletedLen lenDiff).map (· == addedLen)
      | false => (addOrPanic addedLen lenDiff).map (· == deletedLen)
    if balanced then .ok () else .error (.validation .invalidLenDiff)

/-- The loops over the added and over the deleted indices, in increasing order:
each index right after the one before it, and the first one at `first` when
there is such a bound (the added ones start at the pre-length, the deleted ones
anywhere). It returns the last index. -/
def checkConsecutive (unexpected : ℕ → ℕ → ValidationError) (first : Option ℕ) :
    Option ℕ → List ℕ → Except CollectionError (Option ℕ)
  | last, [] => .ok last
  | some last, index :: rest => do
    let expected ← addOrPanic last 1
    if expected ≠ index then .error (.validation (unexpected index expected))
    else checkConsecutive unexpected first (some index) rest
  | none, index :: rest =>
    match first with
    | some expected =>
      if index ≠ expected then .error (.validation (unexpected index expected))
      else checkConsecutive unexpected first (some index) rest
    | none => checkConsecutive unexpected first (some index) rest

/-- The last deletion must be at the pre-length less one; with no pre-length
from the length sub-key it is not checked. The error reports the pre-length
itself as the expected index. -/
def checkLastDeleted (lenPre : ℕ) : Option ℕ → Except CollectionError Unit
  | some index =>
    if 0 < lenPre ∧ index ≠ lenPre - 1 then .error (.validation (.unexpectedPopIndex index lenPre))
    else .ok ()
  | none => .ok ()

/-- The loop over the updated indices: each below the pre-length plus the
length difference. -/
def checkUpdated (lenPre lenDiff : ℕ) : List ℕ → Except CollectionError Unit
  | [] => .ok ()
  | index :: rest => do
    let max ← addOrPanic lenPre lenDiff
    if max ≤ index then .error (.validation (.unexpectedUpdateIndex index max))
    else checkUpdated lenPre lenDiff rest

/-- The code of `validate_changed_sub_keys` after its loop. -/
def Accumulator.check (acc : Accumulator T) : Except CollectionError (List (Action T)) := do
  let addedLen ← toIndex acc.added.card
  let deletedLen ← toIndex acc.deleted.card
  checkLenDiff acc.postGtPre acc.lenDiff addedLen deletedLen
  let _ ← checkConsecutive .unexpectedPushIndex (some acc.lenPre) none (acc.added.sort (· ≤ ·))
  let lastDeleted ← checkConsecutive .unexpectedPopIndex none none (acc.deleted.sort (· ≤ ·))
  checkLastDeleted acc.lenPre lastDeleted
  checkUpdated acc.lenPre acc.lenDiff (acc.updated.sort (· ≤ ·))
  .ok acc.actions

/-- `LazyVec::validate_changed_sub_keys`. -/
def validateChangedSubKeys (keys : List (SubKeyWithData T)) :
    Except CollectionError (List (Action T)) := do
  let acc ← keys.foldlM Accumulator.step Accumulator.init
  acc.check

/-! ## The vector in storage -/

/-- The keys under a lazy vector: its length sub-key and its data sub-keys by
index. -/
structure VecStorage (T : Type) where
  len : Option ℕ
  data : SortedMap ℕ T

namespace VecStorage

/-- `LazyVec::len`: the length sub-key, zero when it is absent. -/
def length (vec : VecStorage T) : ℕ := vec.len.getD 0

/-- `LazyVec::push`: the element at the old length, and the length one more. -/
def push (vec : VecStorage T) (val : T) : Except CollectionError (VecStorage T) := do
  let len := vec.length
  let data := vec.data.insert len val
  let newLen ← addOrPanic len 1
  .ok ⟨some newLen, data⟩

/-- `LazyVec::pop`: the last element, and the vector without it; an empty vector
is removed from storage. -/
def pop (vec : VecStorage T) : Option T × VecStorage T :=
  let len := vec.length
  if len = 0 then (none, vec)
  else
    let index := len - 1
    let lenKey := if len = 1 then none else some index
    (vec.data.find? index, ⟨lenKey, vec.data.erase index⟩)

/-- `UpdateError` of `LazyVec`. -/
inductive UpdateError
  | invalidIndex (index len : ℕ)
  deriving DecidableEq

/-- `LazyVec::update`: the element at an index below the length. -/
def update (vec : VecStorage T) (index : ℕ) (val : T) : Except UpdateError (VecStorage T) :=
  let len := vec.length
  if len ≤ index then .error (.invalidIndex index len)
  else .ok { vec with data := vec.data.insert index val }

/-- The indices of the data sub-keys. -/
def keys (vec : VecStorage T) : List ℕ := vec.data.entries.map Prod.fst

/-- The elements, in the order of their indices. -/
def elements (vec : VecStorage T) : List T := vec.data.entries.map Prod.snd

/-- A vector of length `n` as it should be in storage: no key at all when it is
empty, and otherwise `n` at the length sub-key and an element at each index
below `n`. -/
def WellFormed (vec : VecStorage T) (n : ℕ) : Prop :=
  (n = 0 ∧ vec.len = none ∧ vec.data.entries = []) ∨
    (0 < n ∧ vec.len = some n ∧ vec.keys = List.range n)

end VecStorage

/-- The length sub-key of a vector of length `n`: absent when it is empty. -/
def lenSubKey (n : ℕ) : Option ℕ := if n = 0 then none else some n

/-- The bindings `(start, x₀), (start + 1, x₁), …` of a list's elements. -/
def indexed (start : ℕ) : List T → List (ℕ × T)
  | [] => []
  | element :: rest => (start, element) :: indexed (start + 1) rest

theorem mem_indexed {start : ℕ} {entry : ℕ × T} :
    ∀ {xs : List T}, entry ∈ indexed start xs → start ≤ entry.1
  | [], hmem => by cases hmem
  | element :: rest, hmem => by
    rcases List.mem_cons.mp hmem with rfl | hrest
    · exact Nat.le_refl _
    · exact Nat.le_of_succ_le (mem_indexed hrest)

theorem sorted_indexed (start : ℕ) :
    ∀ xs : List T, (indexed start xs).Pairwise (fun first second => first.1 < second.1)
  | [] => List.Pairwise.nil
  | _ :: rest => List.Pairwise.cons (fun _ hmem => mem_indexed hmem) (sorted_indexed (start + 1) rest)

/-- The storage of a vector with these elements, as `push` builds it. -/
def ofList (xs : List T) : VecStorage T :=
  ⟨lenSubKey xs.length, ⟨indexed 0 xs, sorted_indexed 0 xs⟩⟩

/-- The data sub-keys of either state: the pre-state's, then those of the
post-state that the pre-state does not have. -/
def dataIndices (pre post : VecStorage T) : List ℕ :=
  pre.keys ++ post.keys.filter (· ∉ pre.keys)

/-- What `read_data` reads of a key whose value differs between the two states,
and nothing for one whose value is the same. -/
def change {α : Type} [DecidableEq α] (before after : Option α) : Option (Data α) :=
  if before = after then none else readData before after

/-- The sub-keys of the vector whose value differs between the two states, each
with what `read_data` reads of it. -/
def changedSubKeys [DecidableEq T] (pre post : VecStorage T) : List (SubKeyWithData T) :=
  ((change pre.len post.len).map .len).toList ++
    (dataIndices pre post).filterMap fun index =>
      (change (pre.data.find? index) (post.data.find? index)).map (.data index)

/-- The update at an index below both lengths, when its element was rewritten. -/
def rewriteAt [DecidableEq T] (xs ys : List T) (index : ℕ) : Option (Action T) :=
  match xs[index]?, ys[index]? with
  | some pre, some post => if pre = post then none else some (.update index pre post)
  | _, _ => none

/-- The actions of a transition from `xs` to `ys`: a push of each element past
the pre-length, a pop of each element past the post-length, and an update at
each index below both lengths whose element was rewritten. -/
def transitionActions [DecidableEq T] (xs ys : List T) : List (Action T) :=
  (ys.drop xs.length).map .push ++ (xs.drop ys.length).map .pop ++
    (List.range (min xs.length ys.length)).filterMap (rewriteAt xs ys)

/-- The first index at which two lists differ, below the first one's length. -/
def firstRewrite [DecidableEq T] (xs ys : List T) : Option ℕ :=
  (List.range xs.length).find? fun index => xs[index]? ≠ ys[index]?

/-! ## Vectors in shape -/

theorem keys_indexed : ∀ (start : ℕ) (xs : List T),
    (indexed start xs).map Prod.fst = List.range' start xs.length
  | _, [] => rfl
  | start, _ :: rest => by
    rw [indexed, List.map_cons, keys_indexed (start + 1) rest, List.length_cons, List.range'_succ]

theorem elements_indexed : ∀ (start : ℕ) (xs : List T), (indexed start xs).map Prod.snd = xs
  | _, [] => rfl
  | start, _ :: rest => by rw [indexed, List.map_cons, elements_indexed (start + 1) rest]

theorem lookup_indexed : ∀ (start offset : ℕ) (xs : List T),
    (indexed start xs).lookup (start + offset) = xs[offset]?
  | _, _, [] => rfl
  | start, offset, element :: rest => by
    rw [indexed, List.lookup_cons]
    cases offset with
    | zero => simp
    | succ offset =>
      have hne : (start + (offset + 1) == start) = false := by simp
      rw [hne, List.getElem?_cons_succ, ← lookup_indexed (start + 1) offset rest, Nat.add_right_comm,
        Nat.add_assoc]

@[simp] theorem len_ofList (xs : List T) : (ofList xs).len = lenSubKey xs.length := rfl

@[simp] theorem keys_ofList (xs : List T) : (ofList xs).keys = List.range xs.length :=
  (keys_indexed 0 xs).trans List.range_eq_range'.symm

@[simp] theorem elements_ofList (xs : List T) : (ofList xs).elements = xs := elements_indexed 0 xs

@[simp] theorem find?_ofList (xs : List T) (index : ℕ) : (ofList xs).data.find? index = xs[index]? := by
  rw [SortedMap.find?_eq_lookup, ← lookup_indexed 0 index xs, Nat.zero_add]
  rfl

@[simp] theorem length_ofList (xs : List T) : (ofList xs).length = xs.length := by
  by_cases hempty : xs.length = 0 <;> simp [VecStorage.length, lenSubKey, hempty]

theorem wellFormed_ofList (xs : List T) : (ofList xs).WellFormed xs.length := by
  cases xs with
  | nil => exact Or.inl ⟨rfl, rfl, rfl⟩
  | cons element rest => exact Or.inr ⟨Nat.succ_pos _, by simp [lenSubKey], keys_ofList _⟩

/-- Bindings whose keys count up from `start` are the indexed list of their values. -/
theorem indexed_of_keys : ∀ {start k : ℕ} {entries : List (ℕ × T)},
    entries.map Prod.fst = List.range' start k → entries = indexed start (entries.map Prod.snd)
  | _, _, [], _ => rfl
  | _, 0, _ :: _, hkeys => by cases hkeys
  | start, k + 1, (index, element) :: rest, hkeys => by
    simp only [List.map_cons, List.range'_succ, List.cons.injEq] at hkeys
    obtain ⟨rfl, hrest⟩ := hkeys
    rw [List.map_cons, indexed, ← indexed_of_keys hrest]

theorem VecStorage.ext {first second : VecStorage T} (hlen : first.len = second.len)
    (hdata : first.data.entries = second.data.entries) : first = second := by
  obtain ⟨len, data⟩ := first
  obtain ⟨len', data'⟩ := second
  cases hlen
  cases SortedMap.ext hdata
  rfl

/-- A vector in shape is the storage of its elements. -/
theorem eq_ofList_of_wellFormed {vec : VecStorage T} {n : ℕ} (hwf : vec.WellFormed n) :
    vec = ofList vec.elements ∧ vec.elements.length = n := by
  rcases hwf with ⟨rfl, hlen, hentries⟩ | ⟨hpos, hlen, hkeys⟩
  · have hempty : vec.elements = [] := by simp [VecStorage.elements, hentries]
    rw [hempty]
    exact ⟨VecStorage.ext hlen hentries, rfl⟩
  · have hlength : vec.elements.length = n := by
      rw [VecStorage.elements, List.length_map, ← List.length_map Prod.fst, ← VecStorage.keys, hkeys,
        List.length_range]
    refine ⟨VecStorage.ext ?_ (indexed_of_keys (hkeys.trans List.range_eq_range')), hlength⟩
    rw [hlen, len_ofList, hlength, lenSubKey, if_neg (Nat.pos_iff_ne_zero.mp hpos)]


/-! ### The API keeps the vector in shape -/

theorem mem_indexed_lt {start : ℕ} {entry : ℕ × T} :
    ∀ {xs : List T}, entry ∈ indexed start xs → entry.1 < start + xs.length
  | [], hmem => by cases hmem
  | _ :: _, hmem => by
    rcases List.mem_cons.mp hmem with rfl | hrest
    · exact Nat.lt_add_of_pos_right (Nat.succ_pos _)
    · have hlt := mem_indexed_lt hrest
      rw [List.length_cons]
      omega

theorem indexed_append_singleton (val : T) : ∀ (start : ℕ) (xs : List T),
    indexed start (xs ++ [val]) = indexed start xs ++ [(start + xs.length, val)]
  | _, [] => rfl
  | start, element :: rest => by
    rw [List.cons_append, indexed, indexed, indexed_append_singleton val (start + 1) rest, List.length_cons,
      Nat.add_assoc, Nat.add_comm 1]
    rfl

/-- Writing at an index of the vector replaces the element there. -/
theorem insertList_indexed (val : T) : ∀ (start offset : ℕ) (xs : List T), offset < xs.length →
    SortedMap.insertList (start + offset) val (indexed start xs) = indexed start (xs.set offset val)
  | _, _, [], hoffset => absurd hoffset (Nat.not_lt_zero _)
  | start, 0, element :: rest, _ => by simp [indexed, SortedMap.insertList]
  | start, offset + 1, element :: rest, hoffset => by
    have hrest := insertList_indexed val (start + 1) offset rest (by simpa using hoffset)
    rw [show start + 1 + offset = start + (offset + 1) by omega] at hrest
    rw [indexed, List.set_cons_succ, indexed, SortedMap.insertList, if_neg (by omega), if_neg (by omega), hrest]

/-- `push` appends, as long as the new length fits in a `u64`. -/
theorem push_ofList (xs : List T) (val : T) (hfit : xs.length + 1 < 2 ^ 64) :
    (ofList xs).push val = .ok (ofList (xs ++ [val])) := by
  have hentries : ((ofList xs).data.insert xs.length val).entries = indexed 0 (xs ++ [val]) := by
    rw [SortedMap.entries_insert_of_lt fun entry hentry => by simpa using mem_indexed_lt hentry,
      indexed_append_singleton, Nat.zero_add]
    rfl
  simp only [VecStorage.push, length_ofList, addOrPanic_of_lt hfit, ok_bind]
  exact congrArg Except.ok (VecStorage.ext (by simp [lenSubKey]) hentries)

theorem pop_ofList_nil : (ofList ([] : List T)).pop = (none, ofList []) := rfl

/-- `pop` takes the last element off, and removes the vector it leaves empty. -/
theorem pop_ofList_append (init : List T) (last : T) :
    (ofList (init ++ [last])).pop = (some last, ofList init) := by
  have hkept : ((indexed 0 init).filter fun entry => entry.1 ≠ init.length) = indexed 0 init :=
    List.filter_eq_self.mpr fun entry hentry => by simpa using (mem_indexed_lt hentry).ne
  simp only [VecStorage.pop, length_ofList, List.length_append, List.length_singleton, Nat.add_one_ne_zero,
    if_false, Nat.add_sub_cancel, find?_ofList, List.getElem?_concat_length, Nat.add_eq_right]
  refine congrArg (Prod.mk (some last)) (VecStorage.ext ?_ ?_)
  · by_cases hempty : init.length = 0 <;> simp [lenSubKey, hempty]
  · show ((indexed 0 (init ++ [last])).filter fun entry => entry.1 ≠ init.length) = indexed 0 init
    rw [indexed_append_singleton, List.filter_append, hkept, Nat.zero_add]
    simp

/-- `update` writes an element below the length, and fails at any other index. -/
theorem update_ofList (xs : List T) (index : ℕ) (val : T) :
    (ofList xs).update index val =
      if xs.length ≤ index then .error (.invalidIndex index xs.length) else .ok (ofList (xs.set index val)) := by
  simp only [VecStorage.update, length_ofList]
  split_ifs with hindex
  · rfl
  · refine congrArg Except.ok (VecStorage.ext (by simp) ?_)
    show SortedMap.insertList index val (indexed 0 xs) = indexed 0 (xs.set index val)
    simpa using insertList_indexed val 0 index xs (Nat.lt_of_not_le hindex)

/-! ## The changed keys -/

section Changes

variable {α : Type} [DecidableEq α]

@[simp] theorem change_self (value : Option α) : change value value = none := if_pos rfl

theorem change_eq_add {before after : Option α} {post : α} :
    change before after = some (.add post) ↔ before = none ∧ after = some post := by
  cases before <;> cases after <;> simp [change, readData]

theorem change_eq_update {before after : Option α} {pre post : α} :
    change before after = some (.update pre post) ↔
      before = some pre ∧ after = some post ∧ pre ≠ post := by
  cases before <;> cases after <;> simp only [change, readData] <;> simp
  constructor
  · rintro ⟨hne, rfl, rfl⟩
    exact ⟨rfl, rfl, hne⟩
  · rintro ⟨rfl, rfl, hne⟩
    exact ⟨hne, rfl, rfl⟩

theorem change_eq_delete {before after : Option α} {pre : α} :
    change before after = some (.delete pre) ↔ before = some pre ∧ after = none := by
  cases before <;> cases after <;> simp [change, readData]

/-- Two values that differ have a change. -/
theorem exists_change_of_ne {before after : Option α} (hne : before ≠ after) :
    ∃ data, change before after = some data := by
  cases before <;> cases after <;> simp_all [change, readData]

/-- Only a value that is there before or after changes. -/
theorem ne_none_of_change_eq_some {before after : Option α} {data : Data α}
    (hchange : change before after = some data) : before ≠ none ∨ after ≠ none := by
  cases before <;> cases after <;> simp_all [change]

end Changes

theorem nodup_keys (vec : VecStorage T) : vec.keys.Nodup :=
  (List.pairwise_map.mpr vec.data.sorted).imp ne_of_lt

theorem mem_dataIndices {pre post : VecStorage T} {index : ℕ} :
    index ∈ dataIndices pre post ↔ index ∈ pre.keys ∨ index ∈ post.keys := by
  by_cases hpre : index ∈ pre.keys <;> simp [dataIndices, hpre]

theorem nodup_dataIndices (pre post : VecStorage T) : (dataIndices pre post).Nodup :=
  (nodup_keys pre).append ((nodup_keys post).filter _) fun _ hpre hpost =>
    of_decide_eq_true (List.mem_filter.mp hpost).2 hpre

theorem dataIndices_ofList_perm (xs ys : List T) :
    (dataIndices (ofList xs) (ofList ys)).Perm (List.range (max xs.length ys.length)) := by
  refine (List.perm_ext_iff_of_nodup (nodup_dataIndices _ _) List.nodup_range).mpr fun index => ?_
  rw [mem_dataIndices, keys_ofList, keys_ofList, List.mem_range, List.mem_range, List.mem_range]
  omega

section ChangedKeys

variable [DecidableEq T]

theorem mem_changedSubKeys_data {pre post : VecStorage T} {index : ℕ} {data : Data T} :
    .data index data ∈ changedSubKeys pre post ↔
      index ∈ dataIndices pre post ∧ change (pre.data.find? index) (post.data.find? index) = some data := by
  simp [changedSubKeys, List.mem_filterMap]

theorem mem_changedSubKeys_len {pre post : VecStorage T} {data : Data ℕ} :
    .len data ∈ changedSubKeys pre post ↔ change pre.len post.len = some data := by
  simp [changedSubKeys, List.mem_filterMap]

@[simp] theorem changedSubKeys_self (vec : VecStorage T) : changedSubKeys vec vec = [] := by
  simp [changedSubKeys]

/-- The data sub-keys that differ between two vectors in shape are those whose
elements differ. -/
theorem mem_changedSubKeys_ofList {xs ys : List T} {index : ℕ} {data : Data T} :
    .data index data ∈ changedSubKeys (ofList xs) (ofList ys) ↔ change xs[index]? ys[index]? = some data := by
  rw [mem_changedSubKeys_data, find?_ofList, find?_ofList, mem_dataIndices, keys_ofList, keys_ofList,
    List.mem_range, List.mem_range]
  refine ⟨And.right, fun hchange => ⟨?_, hchange⟩⟩
  rcases ne_none_of_change_eq_some hchange with hpre | hpost
  · exact Or.inl (by simpa [List.getElem?_eq_none_iff] using hpre)
  · exact Or.inr (by simpa [List.getElem?_eq_none_iff] using hpost)

/-- The changes between two vectors in shape, in some order: the length
sub-key's, and those of the data sub-keys below the longer length. -/
theorem changedSubKeys_ofList_perm (xs ys : List T) :
    (changedSubKeys (ofList xs) (ofList ys)).Perm
      (((change (lenSubKey xs.length) (lenSubKey ys.length)).map .len).toList ++
        (List.range (max xs.length ys.length)).filterMap fun index =>
          (change xs[index]? ys[index]?).map (.data index)) := by
  unfold changedSubKeys
  simp only [len_ofList, find?_ofList]
  exact (List.Perm.filterMap _ (dataIndices_ofList_perm xs ys)).append_left _

end ChangedKeys

/-! ## What the loop records -/

/-- The action of a data sub-key's change. -/
def Data.action (index : ℕ) : Data T → Action T
  | .add post => .push post
  | .update pre post => .update index pre post
  | .delete pre => .pop pre

/-- The action the loop adds for a key: one for each data sub-key. -/
def SubKeyWithData.action? : SubKeyWithData T → Option (Action T)
  | .len _ => none
  | .data index dataChange => some (dataChange.action index)

namespace Accumulator

/-- The fields that only the length sub-key sets. -/
def lengthFields (acc : Accumulator T) : Bool × ℕ × ℕ := (acc.postGtPre, acc.lenDiff, acc.lenPre)

/-- What the loop has recorded of some keys: the actions of their data sub-keys
in order, and each data sub-key's index in the set of its kind. -/
structure Recorded (start : Accumulator T) (keys : List (SubKeyWithData T))
    (finish : Accumulator T) : Prop where
  actions : finish.actions = start.actions ++ keys.filterMap SubKeyWithData.action?
  added : ∀ index, index ∈ finish.added ↔ index ∈ start.added ∨ ∃ post, .data index (.add post) ∈ keys
  updated : ∀ index, index ∈ finish.updated ↔
    index ∈ start.updated ∨ ∃ pre post, .data index (.update pre post) ∈ keys
  deleted : ∀ index, index ∈ finish.deleted ↔
    index ∈ start.deleted ∨ ∃ pre, .data index (.delete pre) ∈ keys

theorem Recorded.nil (acc : Accumulator T) : Recorded acc [] acc :=
  ⟨by simp, by simp, by simp, by simp⟩

theorem Recorded.append {start middle finish : Accumulator T} {first second : List (SubKeyWithData T)}
    (hfirst : Recorded start first middle) (hsecond : Recorded middle second finish) :
    Recorded start (first ++ second) finish where
  actions := by rw [hsecond.actions, hfirst.actions, List.filterMap_append, List.append_assoc]
  added index := by
    rw [hsecond.added, hfirst.added]
    simp only [List.mem_append, exists_or, or_assoc]
  updated index := by
    rw [hsecond.updated, hfirst.updated]
    simp only [List.mem_append, exists_or, or_assoc]
  deleted index := by
    rw [hsecond.deleted, hfirst.deleted]
    simp only [List.mem_append, exists_or, or_assoc]

/-- The length sub-key's arm leaves the actions and the sets as they were. -/
theorem recorded_recordLen {acc finish : Accumulator T} {data : Data ℕ}
    (hrecord : acc.recordLen data = .ok finish) : Recorded acc [.len data] finish := by
  have hsame : finish.actions = acc.actions ∧ finish.added = acc.added ∧
      finish.updated = acc.updated ∧ finish.deleted = acc.deleted := by
    cases data <;> simp only [recordLen] at hrecord <;> (try split_ifs at hrecord) <;> cases hrecord <;>
      exact ⟨rfl, rfl, rfl, rfl⟩
  obtain ⟨hactions, hadded, hupdated, hdeleted⟩ := hsame
  exact ⟨by simp [hactions, SubKeyWithData.action?], by simp [hadded], by simp [hupdated],
    by simp [hdeleted]⟩

theorem recorded_recordData (acc : Accumulator T) (index : ℕ) (data : Data T) :
    Recorded acc [.data index data] (acc.recordData index data) := by
  cases data <;> constructor <;> intros <;>
    simp [recordData, SubKeyWithData.action?, Data.action, or_comm]

theorem recorded_step {acc finish : Accumulator T} {key : SubKeyWithData T}
    (hstep : acc.step key = .ok finish) : Recorded acc [key] finish := by
  cases key with
  | len data => exact recorded_recordLen hstep
  | data index data =>
    cases hstep
    exact recorded_recordData acc index data

/-- The loop, wherever it gets to, has recorded every key it went through. -/
theorem recorded_foldlM : ∀ {keys : List (SubKeyWithData T)} {acc finish : Accumulator T},
    keys.foldlM step acc = .ok finish → Recorded acc keys finish
  | [], acc, _, hfold => by
    cases hfold
    exact Recorded.nil acc
  | _ :: _, _, _, hfold => by
    rw [List.foldlM_cons] at hfold
    obtain ⟨middle, hstep, hrest⟩ := bind_eq_ok hfold
    exact (recorded_step hstep).append (recorded_foldlM hrest)

theorem lengthFields_recordData (acc : Accumulator T) (index : ℕ) (data : Data T) :
    (acc.recordData index data).lengthFields = acc.lengthFields := by
  cases data <;> rfl

/-- Over data sub-keys only, the loop goes through and leaves the length fields
as they were. -/
theorem foldlM_step_of_data : ∀ {keys : List (SubKeyWithData T)} (acc : Accumulator T),
    (∀ data, .len data ∉ keys) →
      ∃ finish, keys.foldlM step acc = .ok finish ∧ finish.lengthFields = acc.lengthFields
  | [], acc, _ => ⟨acc, rfl, rfl⟩
  | .len data :: _, _, hdata => absurd List.mem_cons_self (hdata data)
  | .data index data :: _, acc, hdata => by
    obtain ⟨finish, hfold, hfields⟩ := foldlM_step_of_data (acc.recordData index data)
      fun other hmem => hdata other (List.mem_cons_of_mem _ hmem)
    refine ⟨finish, ?_, hfields.trans (lengthFields_recordData acc index data)⟩
    rw [List.foldlM_cons]
    exact hfold

/-- Between two lengths that differ, the length sub-key's change sets the length
fields to the pre-length and the difference, when nothing set them before. -/
theorem recordLen_change {acc : Accumulator T} {n m : ℕ} {data : Data ℕ}
    (hchange : change (lenSubKey n) (lenSubKey m) = some data)
    (hfields : acc.lengthFields = (false, 0, 0)) :
    ∃ finish, acc.recordLen data = .ok finish ∧
      finish.lengthFields = (decide (n < m), if n < m then m - n else n - m, n) := by
  simp only [lengthFields, Prod.mk.injEq] at hfields
  obtain ⟨hgt, -, hpre⟩ := hfields
  unfold lenSubKey at hchange
  rcases Nat.eq_zero_or_pos n with rfl | hn <;> rcases Nat.eq_zero_or_pos m with rfl | hm
  · simp at hchange
  · -- a vector that was empty: its length sub-key is added
    simp only [change, readData, if_pos, if_neg hm.ne', reduceCtorEq, if_false,
      Option.some.injEq] at hchange
    subst hchange
    refine ⟨_, if_neg hm.ne', ?_⟩
    simp [lengthFields, hpre, hm]
  · -- a vector left empty: its length sub-key is deleted
    simp only [change, readData, if_pos, if_neg hn.ne', reduceCtorEq, if_false,
      Option.some.injEq] at hchange
    subst hchange
    exact ⟨_, rfl, by simp [lengthFields, hgt]⟩
  · -- the length sub-key is updated from one length to the other
    have hne : n ≠ m := by
      rintro rfl
      simp at hchange
    simp only [change, readData, if_neg hn.ne', if_neg hm.ne', Option.some.injEq, hne,
      if_false] at hchange
    subst hchange
    by_cases hlt : n < m
    · exact ⟨_, by rw [recordLen, if_neg hm.ne', if_pos hlt], by simp [lengthFields, hlt]⟩
    · exact ⟨_, by rw [recordLen, if_neg hm.ne', if_neg hlt], by simp [lengthFields, hlt, hgt]⟩

end Accumulator

/-! ## The checks on the changes of a transition -/

/-- A length difference matched by the pushes, or by the pops, passes. -/
theorem checkLenDiff_of_balanced {postGtPre : Bool} {lenDiff addedLen deletedLen : ℕ}
    (hbalanced : if postGtPre then deletedLen + lenDiff = addedLen else addedLen + lenDiff = deletedLen)
    (hadded : addedLen < 2 ^ 64) (hdeleted : deletedLen < 2 ^ 64) :
    checkLenDiff postGtPre lenDiff addedLen deletedLen = .ok () := by
  unfold checkLenDiff
  split_ifs with hzero
  · rfl
  · cases postGtPre with
    | true =>
      simp only [if_true] at hbalanced
      simp [addOrPanic_of_lt (hbalanced ▸ hadded), hbalanced, Except.map]
    | false =>
      simp only [Bool.false_eq_true, if_false] at hbalanced
      simp [addOrPanic_of_lt (hbalanced ▸ hdeleted), hbalanced, Except.map]

@[simp] theorem checkConsecutive_nil (unexpected : ℕ → ℕ → ValidationError) (first last : Option ℕ) :
    checkConsecutive unexpected first last [] = .ok last := by
  cases last <;> rfl

/-- After an index, the indices that follow it one by one pass, up to the last. -/
theorem checkConsecutive_range'_of_last (unexpected : ℕ → ℕ → ValidationError) (first : Option ℕ) :
    ∀ {last k : ℕ}, last + k < 2 ^ 64 →
      checkConsecutive unexpected first (some last) (List.range' (last + 1) k) = .ok (some (last + k))
  | _, 0, _ => rfl
  | last, k + 1, hfit => by
    have hrest := checkConsecutive_range'_of_last unexpected first (by omega : last + 1 + k < 2 ^ 64)
    have hsum : last + 1 + k = last + (k + 1) := by omega
    simp [List.range'_succ, checkConsecutive, addOrPanic_of_lt (by omega : last + 1 < 2 ^ 64), hrest, hsum]

/-- Indices from a start on, one after another, pass, when the bound on the
first one, if any, is the start. -/
theorem checkConsecutive_range' (unexpected : ℕ → ℕ → ValidationError) {first : Option ℕ}
    {start k : ℕ} (hfirst : ∀ expected ∈ first, expected = start) (hfit : start + k < 2 ^ 64) :
    checkConsecutive unexpected first none (List.range' start (k + 1)) = .ok (some (start + k)) := by
  rw [List.range'_succ]
  cases first with
  | none => exact checkConsecutive_range'_of_last unexpected none hfit
  | some expected =>
    obtain rfl := hfirst expected rfl
    simpa [checkConsecutive] using checkConsecutive_range'_of_last unexpected (some expected) hfit

/-- Updates below the bound pass. -/
theorem checkUpdated_of_lt {lenPre lenDiff : ℕ} (hfit : lenPre + lenDiff < 2 ^ 64) :
    ∀ {indices : List ℕ}, (∀ index ∈ indices, index < lenPre + lenDiff) →
      checkUpdated lenPre lenDiff indices = .ok ()
  | [], _ => rfl
  | index :: _, hlt => by
    have hrest := checkUpdated_of_lt hfit fun other hother => hlt other (List.mem_cons_of_mem _ hother)
    simp [checkUpdated, addOrPanic_of_lt hfit, hlt index List.mem_cons_self, hrest]

/-- With no length sub-key the bound is zero, and the first update fails. -/
theorem checkUpdated_zero_cons (index : ℕ) (rest : List ℕ) :
    checkUpdated 0 0 (index :: rest) = .error (.validation (.unexpectedUpdateIndex index 0)) := by
  simp [checkUpdated, addOrPanic_of_lt (by decide : 0 + 0 < 2 ^ 64)]

theorem sort_toFinset_of_pairwise {indices : List ℕ} (hsorted : indices.Pairwise (· < ·)) :
    indices.toFinset.sort (· ≤ ·) = indices :=
  (List.toFinset_sort (· ≤ ·) (hsorted.imp ne_of_lt)).mpr (hsorted.imp le_of_lt)

/-- After the loop over the changes of a transition that changes the length,
with pushes from the pre-length on, pops down to the post-length and updates
below both lengths, the checks pass. -/
theorem Accumulator.check_of_transition {acc : Accumulator T} {n m : ℕ} (hne : n ≠ m)
    (hfit : n + (n - m) < 2 ^ 64) (hm : m < 2 ^ 64)
    (hfields : acc.lengthFields = (decide (n < m), if n < m then m - n else n - m, n))
    (hadded : acc.added = (List.range' n (m - n)).toFinset)
    (hdeleted : acc.deleted = (List.range' m (n - m)).toFinset)
    (hupdated : ∀ index ∈ acc.updated, index < min n m) :
    acc.check = .ok acc.actions := by
  simp only [lengthFields, Prod.mk.injEq] at hfields
  obtain ⟨hgt, hdiff, hpre⟩ := hfields
  have hcardAdded : acc.added.card = m - n := by
    rw [hadded, List.toFinset_card_of_nodup List.nodup_range', List.length_range']
  have hcardDeleted : acc.deleted.card = n - m := by
    rw [hdeleted, List.toFinset_card_of_nodup List.nodup_range', List.length_range']
  have hsortAdded : acc.added.sort (· ≤ ·) = List.range' n (m - n) := by
    rw [hadded]
    exact sort_toFinset_of_pairwise List.pairwise_lt_range'
  have hsortDeleted : acc.deleted.sort (· ≤ ·) = List.range' m (n - m) := by
    rw [hdeleted]
    exact sort_toFinset_of_pairwise List.pairwise_lt_range'
  -- the bound of the updates is the longer length, or more when popping
  have hbound : acc.lenPre + acc.lenDiff < 2 ^ 64 := by
    rw [hpre, hdiff]
    split_ifs <;> omega
  have hupdates : checkUpdated acc.lenPre acc.lenDiff (acc.updated.sort (· ≤ ·)) = .ok () := by
    refine checkUpdated_of_lt hbound fun index hindex => ?_
    have hlt := hupdated index ((Finset.mem_sort _).mp hindex)
    rw [hpre, hdiff]
    split_ifs <;> omega
  have hlen : checkLenDiff acc.postGtPre acc.lenDiff (m - n) (n - m) = .ok () := by
    refine checkLenDiff_of_balanced ?_ (by omega) (by omega)
    rw [hgt, hdiff]
    by_cases hlt : n < m <;> simp [hlt] <;> omega
  have hfirst : ∀ expected ∈ some acc.lenPre, expected = n := fun expected hexpected =>
    (Option.some.inj hexpected).symm.trans hpre
  rcases Nat.lt_or_gt_of_ne hne with hlt | hlt
  · -- the vector grew: pushes from the pre-length on, and no pop
    have hpushes : checkConsecutive .unexpectedPushIndex (some acc.lenPre) none
        (List.range' n (m - n)) = .ok (some (m - 1)) := by
      obtain ⟨k, hk⟩ : ∃ k, m - n = k + 1 := ⟨m - n - 1, by omega⟩
      rw [hk, checkConsecutive_range' _ hfirst (by omega)]
      congr 2
      omega
    have hpops : List.range' m (n - m) = [] := by rw [Nat.sub_eq_zero_of_le hlt.le]; rfl
    simp only [check, hcardAdded, hcardDeleted, toIndex_of_lt (by omega : m - n < 2 ^ 64),
      toIndex_of_lt (by omega : n - m < 2 ^ 64), ok_bind, hlen, hsortAdded, hpushes, hsortDeleted, hpops,
      checkConsecutive_nil, checkLastDeleted, hupdates]
  · -- the vector shrank: pops down to the post-length, the last one below the pre-length
    have hpushes : List.range' n (m - n) = [] := by rw [Nat.sub_eq_zero_of_le hlt.le]; rfl
    have hpops : checkConsecutive .unexpectedPopIndex none none (List.range' m (n - m)) =
        .ok (some (n - 1)) := by
      obtain ⟨k, hk⟩ : ∃ k, n - m = k + 1 := ⟨n - m - 1, by omega⟩
      rw [hk, checkConsecutive_range' _ (fun _ hnone => by cases hnone) (by omega)]
      congr 2
      omega
    have hlast : checkLastDeleted acc.lenPre (some (n - 1)) = .ok () := by
      rw [checkLastDeleted, hpre, if_neg (fun hwrong => hwrong.2 rfl)]
    simp only [check, hcardAdded, hcardDeleted, toIndex_of_lt (by omega : m - n < 2 ^ 64),
      toIndex_of_lt (by omega : n - m < 2 ^ 64), ok_bind, hlen, hsortAdded, hpushes, hsortDeleted, hpops,
      checkConsecutive_nil, hlast, hupdates]

/-- After the loop over changes with no length sub-key and nothing pushed or
popped, the first update fails, since its bound is zero. -/
theorem Accumulator.check_of_keep {acc : Accumulator T} (hfields : acc.lengthFields = (false, 0, 0))
    (hadded : acc.added = ∅) (hdeleted : acc.deleted = ∅) :
    acc.check = match acc.updated.sort (· ≤ ·) with
      | [] => .ok acc.actions
      | index :: _ => .error (.validation (.unexpectedUpdateIndex index 0)) := by
  simp only [lengthFields, Prod.mk.injEq] at hfields
  obtain ⟨-, hdiff, hpre⟩ := hfields
  -- with no length difference the length check is skipped
  simp only [check, hadded, hdeleted, Finset.card_empty, toIndex_of_lt (by decide : 0 < 2 ^ 64), ok_bind,
    Finset.sort_empty, checkConsecutive_nil, checkLastDeleted, hpre, hdiff]
  cases acc.updated.sort (· ≤ ·) with
  | nil => rfl
  | cons index rest => rw [checkUpdated_zero_cons]; rfl

/-! ## The validation of a transition between vectors in shape -/

theorem lenSubKey_injective {n m : ℕ} (hsame : lenSubKey n = lenSubKey m) : n = m := by
  unfold lenSubKey at hsame
  split_ifs at hsame <;> simp_all

/-- The elements from `start` on, read index by index. -/
theorem filterMap_range'_getElem? {β : Type} (f : T → β) (ys : List T) :
    ∀ {start k : ℕ}, start + k = ys.length →
      (List.range' start k).filterMap (fun index => ys[index]?.map f) = (ys.drop start).map f
  | start, 0, hlen => by
    rw [List.drop_eq_nil_of_le (by omega)]
    rfl
  | start, k + 1, hlen => by
    have hstart : start < ys.length := by omega
    rw [List.range'_succ, List.filterMap_cons_some (by rw [List.getElem?_eq_getElem hstart]; rfl),
      List.drop_eq_getElem_cons hstart, List.map_cons, filterMap_range'_getElem? f ys (by omega)]

theorem validateChangedSubKeys_nil : validateChangedSubKeys ([] : List (SubKeyWithData T)) = .ok [] := by
  simp [validateChangedSubKeys, Accumulator.init, Accumulator.check, toIndex_of_lt, checkLenDiff,
    checkLastDeleted, checkUpdated]

section Transition

variable [DecidableEq T] {xs ys : List T} {keys : List (SubKeyWithData T)}

/-- The actions of the changes below the longer length are, in some order, those
of the transition: updates below both lengths, then the pushes or the pops. -/
theorem filterMap_change_perm (xs ys : List T) :
    ((List.range (max xs.length ys.length)).filterMap fun index =>
      (change xs[index]? ys[index]?).map (Data.action index)).Perm (transitionActions xs ys) := by
  have hsplit : List.range (max xs.length ys.length) = List.range (min xs.length ys.length) ++
      List.range' (min xs.length ys.length) (max xs.length ys.length - min xs.length ys.length) := by
    have happend := @List.range'_append_1 0 (min xs.length ys.length)
      (max xs.length ys.length - min xs.length ys.length)
    rw [Nat.zero_add, Nat.add_sub_cancel' min_le_max] at happend
    rw [List.range_eq_range', List.range_eq_range', happend]
  have hupdates : ((List.range (min xs.length ys.length)).filterMap fun index =>
      (change xs[index]? ys[index]?).map (Data.action index)) =
        (List.range (min xs.length ys.length)).filterMap (rewriteAt xs ys) := by
    refine List.filterMap_congr fun index hindex => ?_
    have hbelow := List.mem_range.mp hindex
    rw [rewriteAt, List.getElem?_eq_getElem (by omega : index < xs.length),
      List.getElem?_eq_getElem (by omega : index < ys.length)]
    by_cases hsame : xs[index] = ys[index] <;> simp [change, readData, hsame, Data.action]
  rw [hsplit, List.filterMap_append, hupdates, transitionActions]
  rcases le_total xs.length ys.length with hle | hle
  · -- the elements past the pre-length are pushed
    have hpushes : ((List.range' (min xs.length ys.length) (max xs.length ys.length -
        min xs.length ys.length)).filterMap fun index =>
          (change xs[index]? ys[index]?).map (Data.action index)) = (ys.drop xs.length).map .push := by
      rw [min_eq_left hle, max_eq_right hle,
        ← filterMap_range'_getElem? Action.push ys (by omega : xs.length + (ys.length - xs.length) = ys.length)]
      refine List.filterMap_congr fun index hindex => ?_
      have hbetween := List.mem_range'_1.mp hindex
      rw [List.getElem?_eq_none (by omega : xs.length ≤ index), List.getElem?_eq_getElem (by omega)]
      rfl
    rw [hpushes, List.drop_eq_nil_of_le hle, List.map_nil, List.append_nil]
    exact List.perm_append_comm
  · -- the elements past the post-length are popped
    have hpops : ((List.range' (min xs.length ys.length) (max xs.length ys.length -
        min xs.length ys.length)).filterMap fun index =>
          (change xs[index]? ys[index]?).map (Data.action index)) = (xs.drop ys.length).map .pop := by
      rw [min_eq_right hle, max_eq_left hle,
        ← filterMap_range'_getElem? Action.pop xs (by omega : ys.length + (xs.length - ys.length) = xs.length)]
      refine List.filterMap_congr fun index hindex => ?_
      have hbetween := List.mem_range'_1.mp hindex
      rw [List.getElem?_eq_none (by omega : ys.length ≤ index), List.getElem?_eq_getElem (by omega)]
      rfl
    rw [hpops, List.drop_eq_nil_of_le hle, List.map_nil, List.nil_append]
    exact List.perm_append_comm

/-- The loop over the changes of a transition goes through. It sets the length
fields from the length sub-key when the lengths differ, and leaves them when
they are the same. -/
theorem foldlM_changedSubKeys (hkeys : keys.Perm (changedSubKeys (ofList xs) (ofList ys))) :
    ∃ finish, keys.foldlM Accumulator.step Accumulator.init = .ok finish ∧
      finish.lengthFields = if xs.length = ys.length then (false, 0, 0) else
        (decide (xs.length < ys.length),
          if xs.length < ys.length then ys.length - xs.length else xs.length - ys.length, xs.length) := by
  have hperm := hkeys.trans (changedSubKeys_ofList_perm xs ys)
  -- the changes of the data sub-keys hold no length sub-key
  have hdata : ∀ data, SubKeyWithData.len data ∉ (List.range (max xs.length ys.length)).filterMap
      fun index => (change xs[index]? ys[index]?).map (.data index) := by
    intro data hmem
    obtain ⟨index, -, hindex⟩ := List.mem_filterMap.mp hmem
    cases hchange : change xs[index]? ys[index]? <;> simp [hchange] at hindex
  by_cases hlen : xs.length = ys.length
  · rw [if_pos hlen]
    rw [congrArg lenSubKey hlen, change_self, Option.map_none, Option.toList_none, List.nil_append] at hperm
    exact Accumulator.foldlM_step_of_data Accumulator.init fun data hmem =>
      hdata data (hperm.mem_iff.mp hmem)
  · rw [if_neg hlen]
    obtain ⟨lenData, hchange⟩ := exists_change_of_ne fun hsame => hlen (lenSubKey_injective hsame)
    rw [hchange, Option.map_some, Option.toList_some, List.singleton_append] at hperm
    -- the length sub-key sits somewhere among the data sub-keys
    obtain ⟨before, after, rfl⟩ := List.append_of_mem (hperm.mem_iff.mpr List.mem_cons_self)
    have hrest := (List.perm_middle.symm.trans hperm).cons_inv
    obtain ⟨middle, hbefore, hmiddle⟩ := Accumulator.foldlM_step_of_data Accumulator.init
      fun data hmem => hdata data (hrest.mem_iff.mp (List.mem_append_left _ hmem))
    obtain ⟨afterLen, hrecord, hfields⟩ := Accumulator.recordLen_change hchange hmiddle
    obtain ⟨finish, hafter, hfinish⟩ := Accumulator.foldlM_step_of_data afterLen
      fun data hmem => hdata data (hrest.mem_iff.mp (List.mem_append_right _ hmem))
    refine ⟨finish, ?_, hfinish.trans hfields⟩
    simp only [List.foldlM_append, hbefore, ok_bind, List.foldlM_cons, Accumulator.step, hrecord]
    exact hafter

section Recorded

variable {finish : Accumulator T} (hkeys : keys.Perm (changedSubKeys (ofList xs) (ofList ys)))
  (hrecorded : Accumulator.Recorded Accumulator.init keys finish)
include hkeys hrecorded

/-- The loop adds the indices past the pre-length and below the post-length. -/
theorem mem_added_of_recorded (index : ℕ) :
    index ∈ finish.added ↔ xs.length ≤ index ∧ index < ys.length := by
  rw [hrecorded.added]
  simp only [Accumulator.init, Finset.notMem_empty, false_or, hkeys.mem_iff, mem_changedSubKeys_ofList,
    change_eq_add, List.getElem?_eq_none_iff]
  constructor
  · rintro ⟨post, hle, hpost⟩
    exact ⟨hle, (List.getElem?_eq_some_iff.mp hpost).1⟩
  · rintro ⟨hle, hlt⟩
    exact ⟨ys[index], hle, List.getElem?_eq_getElem hlt⟩

/-- The loop deletes the indices past the post-length and below the pre-length. -/
theorem mem_deleted_of_recorded (index : ℕ) :
    index ∈ finish.deleted ↔ ys.length ≤ index ∧ index < xs.length := by
  rw [hrecorded.deleted]
  simp only [Accumulator.init, Finset.notMem_empty, false_or, hkeys.mem_iff, mem_changedSubKeys_ofList,
    change_eq_delete, List.getElem?_eq_none_iff]
  constructor
  · rintro ⟨pre, hpre, hle⟩
    exact ⟨hle, (List.getElem?_eq_some_iff.mp hpre).1⟩
  · rintro ⟨hle, hlt⟩
    exact ⟨xs[index], List.getElem?_eq_getElem hlt, hle⟩

/-- The loop updates the indices below both lengths whose elements differ. -/
theorem mem_updated_of_recorded (index : ℕ) :
    index ∈ finish.updated ↔ index < xs.length ∧ index < ys.length ∧ xs[index]? ≠ ys[index]? := by
  rw [hrecorded.updated]
  simp only [Accumulator.init, Finset.notMem_empty, false_or, hkeys.mem_iff, mem_changedSubKeys_ofList,
    change_eq_update]
  constructor
  · rintro ⟨pre, post, hpre, hpost, hne⟩
    refine ⟨(List.getElem?_eq_some_iff.mp hpre).1, (List.getElem?_eq_some_iff.mp hpost).1, ?_⟩
    rw [hpre, hpost]
    exact fun hsame => hne (Option.some.inj hsame)
  · rintro ⟨hx, hy, hne⟩
    refine ⟨xs[index], ys[index], List.getElem?_eq_getElem hx, List.getElem?_eq_getElem hy, fun hsame => ?_⟩
    rw [List.getElem?_eq_getElem hx, List.getElem?_eq_getElem hy, hsame] at hne
    exact hne rfl

/-- The loop's actions are, in some order, those of the transition. -/
theorem actions_perm_of_recorded : finish.actions.Perm (transitionActions xs ys) := by
  rw [hrecorded.actions]
  refine ((hkeys.trans (changedSubKeys_ofList_perm xs ys)).filterMap _).trans ?_
  -- the length sub-key has no action; a data sub-key has the action of its change
  have hlenPart : (((change (lenSubKey xs.length) (lenSubKey ys.length)).map .len).toList.filterMap
      (SubKeyWithData.action? (T := T))) = [] := by
    cases change (lenSubKey xs.length) (lenSubKey ys.length) <;> rfl
  have hdataPart : ∀ index, ((change xs[index]? ys[index]?).map (SubKeyWithData.data index)).bind
      SubKeyWithData.action? = (change xs[index]? ys[index]?).map (Data.action index) := by
    intro index
    cases change xs[index]? ys[index]? <;> rfl
  simp only [List.filterMap_append, hlenPart, List.filterMap_filterMap, hdataPart, List.nil_append]
  exact filterMap_change_perm xs ys

end Recorded

theorem eq_of_firstRewrite_eq_none (hlen : xs.length = ys.length) (hnone : firstRewrite xs ys = none) :
    xs = ys := by
  refine List.ext_getElem? fun index => ?_
  by_cases hindex : index < xs.length
  · simpa using List.find?_eq_none.mp hnone index (List.mem_range.mpr hindex)
  · rw [List.getElem?_eq_none (by omega), List.getElem?_eq_none (by omega)]

/-- A transition that changes the length passes, with its actions in some order. -/
theorem validateChangedSubKeys_of_length_ne (hkeys : keys.Perm (changedSubKeys (ofList xs) (ofList ys)))
    (hne : xs.length ≠ ys.length) (hfit : xs.length + (xs.length - ys.length) < 2 ^ 64)
    (hpost : ys.length < 2 ^ 64) :
    ∃ actions, validateChangedSubKeys keys = .ok actions ∧ actions.Perm (transitionActions xs ys) := by
  obtain ⟨finish, hfold, hfields⟩ := foldlM_changedSubKeys hkeys
  rw [if_neg hne] at hfields
  have hrecorded := Accumulator.recorded_foldlM hfold
  have hadded : finish.added = (List.range' xs.length (ys.length - xs.length)).toFinset := by
    ext index
    rw [mem_added_of_recorded hkeys hrecorded, List.mem_toFinset, List.mem_range'_1]
    omega
  have hdeleted : finish.deleted = (List.range' ys.length (xs.length - ys.length)).toFinset := by
    ext index
    rw [mem_deleted_of_recorded hkeys hrecorded, List.mem_toFinset, List.mem_range'_1]
    omega
  have hupdated : ∀ index ∈ finish.updated, index < min xs.length ys.length := fun index hindex => by
    have hbelow := (mem_updated_of_recorded hkeys hrecorded index).mp hindex
    omega
  refine ⟨finish.actions, ?_, actions_perm_of_recorded hkeys hrecorded⟩
  simp only [validateChangedSubKeys, hfold, ok_bind]
  exact finish.check_of_transition hne hfit hpost hfields hadded hdeleted hupdated

/-- A transition that keeps the length passes only when nothing was rewritten,
and otherwise fails at the first index rewritten. -/
theorem validateChangedSubKeys_of_length_eq (hkeys : keys.Perm (changedSubKeys (ofList xs) (ofList ys)))
    (hlen : xs.length = ys.length) :
    validateChangedSubKeys keys = match firstRewrite xs ys with
      | none => .ok []
      | some index => .error (.validation (.unexpectedUpdateIndex index 0)) := by
  cases hfirst : firstRewrite xs ys with
  | none =>
    obtain rfl : xs = ys := eq_of_firstRewrite_eq_none hlen hfirst
    rw [changedSubKeys_self, List.perm_nil] at hkeys
    rw [hkeys, validateChangedSubKeys_nil]
  | some index =>
    obtain ⟨finish, hfold, hfields⟩ := foldlM_changedSubKeys hkeys
    rw [if_pos hlen] at hfields
    have hrecorded := Accumulator.recorded_foldlM hfold
    have hadded : finish.added = ∅ := by
      ext other
      rw [mem_added_of_recorded hkeys hrecorded]
      simp only [Finset.notMem_empty, iff_false]
      omega
    have hdeleted : finish.deleted = ∅ := by
      ext other
      rw [mem_deleted_of_recorded hkeys hrecorded]
      simp only [Finset.notMem_empty, iff_false]
      omega
    -- the updates, in increasing order, are the indices rewritten
    have hsort : finish.updated.sort (· ≤ ·) =
        (List.range xs.length).filter fun other => xs[other]? ≠ ys[other]? := by
      have hupdated : finish.updated = ((List.range xs.length).filter fun other => xs[other]? ≠ ys[other]?).toFinset := by
        ext other
        rw [mem_updated_of_recorded hkeys hrecorded, List.mem_toFinset, List.mem_filter, List.mem_range,
          decide_eq_true_iff]
        exact ⟨fun ⟨hx, _, hne⟩ => ⟨hx, hne⟩, fun ⟨hx, hne⟩ => ⟨hx, hlen ▸ hx, hne⟩⟩
      rw [hupdated]
      exact sort_toFinset_of_pairwise (List.pairwise_lt_range.filter _)
    obtain ⟨rest, hcons⟩ := List.head?_eq_some_iff.mp ((List.head?_filter).trans hfirst)
    simp only [validateChangedSubKeys, hfold, ok_bind, finish.check_of_keep hfields hadded hdeleted, hsort,
      hcons]

end Transition

/-- Between two vectors in shape, the changed sub-keys in any order pass when
the length changes, with the transition's pushes, pops and updates in some
order. When the length stays they pass only if nothing was rewritten, and
otherwise fail at the first index rewritten, with the bound zero. -/
theorem validateChangedSubKeys_wellFormed_transition [DecidableEq T] (pre post : VecStorage T) (n m : ℕ)
    (hpre : pre.WellFormed n) (hpost : post.WellFormed m) (keys : List (SubKeyWithData T))
    (hkeys : keys.Perm (changedSubKeys pre post)) (hfit : n + (n - m) < 2 ^ 64) (hfitPost : m < 2 ^ 64) :
    (n ≠ m → ∃ actions, validateChangedSubKeys keys = .ok actions ∧
        actions.Perm (transitionActions pre.elements post.elements)) ∧
      (n = m → validateChangedSubKeys keys = match firstRewrite pre.elements post.elements with
        | none => .ok []
        | some index => .error (.validation (.unexpectedUpdateIndex index 0))) := by
  obtain ⟨hpreEq, rfl⟩ := eq_ofList_of_wellFormed hpre
  obtain ⟨hpostEq, rfl⟩ := eq_ofList_of_wellFormed hpost
  rw [hpreEq, hpostEq] at hkeys
  exact ⟨fun hne => validateChangedSubKeys_of_length_ne hkeys hne hfit hfitPost,
    fun hlen => validateChangedSubKeys_of_length_eq hkeys hlen⟩

/-- `LazyVec::update(1, 2)` on `[0, 1]` keeps the length, so its one changed key
fails with the bound zero. -/
theorem validateChangedSubKeys_rejects_update_at_one :
    (ofList [0, 1]).WellFormed 2 ∧ (ofList [0, 2]).WellFormed 2 ∧
      (ofList [0, 1]).update 1 2 = .ok (ofList [0, 2]) ∧
      validateChangedSubKeys (changedSubKeys (ofList [0, 1]) (ofList ([0, 2] : List ℕ))) =
        .error (.validation (.unexpectedUpdateIndex 1 0)) := by
  refine ⟨wellFormed_ofList _, wellFormed_ofList _, by rw [update_ofList]; rfl, ?_⟩
  have hkeep := (validateChangedSubKeys_wellFormed_transition (ofList [0, 1]) (ofList [0, 2]) 2 2
    (wellFormed_ofList _) (wellFormed_ofList _) _ (List.Perm.refl _) (by decide) (by decide)).2 rfl
  rw [hkeep, elements_ofList, elements_ofList]
  rfl

/-- A lone deletion of a data sub-key, with no length sub-key, passes at any index. -/
theorem validateChangedSubKeys_delete (index : ℕ) (pre : T) :
    validateChangedSubKeys [.data index (.delete pre)] = .ok [.pop pre] := by
  simp [validateChangedSubKeys, Accumulator.step, Accumulator.recordData, Accumulator.init, Accumulator.check,
    toIndex_of_lt, checkLenDiff, checkConsecutive, checkLastDeleted, checkUpdated]

/-- The storage after a transaction that deletes the data sub-key of the second
of two elements and leaves the length sub-key at two. -/
def lastElementDropped : VecStorage ℕ := ⟨some 2, ⟨[(0, 0)], List.pairwise_singleton _ _⟩⟩

/-- Validation passes for a vector in shape whose last data sub-key is deleted
while the length sub-key stays, and it leaves a vector out of shape. -/
theorem validateChangedSubKeys_accepts_dropped_element :
    (ofList [0, 1]).WellFormed 2 ∧
      validateChangedSubKeys (changedSubKeys (ofList [0, 1]) lastElementDropped) = .ok [.pop 1] ∧
      ∀ n, ¬ lastElementDropped.WellFormed n := by
  refine ⟨wellFormed_ofList _, ?_, ?_⟩
  · have hchanged : changedSubKeys (ofList [0, 1]) lastElementDropped = [.data 1 (.delete 1)] := by decide
    rw [hchanged]
    exact validateChangedSubKeys_delete 1 1
  · rintro n (⟨-, hlen, -⟩ | ⟨-, hlen, hkeys⟩)
    · cases hlen
    · cases hlen
      exact absurd hkeys (by decide)

end Namada.Storage.LazyVec
