/-
# Sorted association lists

A finite map kept as a list of bindings strictly increasing in key, the way an
ordered key-value store holds its data. `find?` returns the value bound to a
key, `insert` puts a binding in its place (replacing the old one), and `erase`
drops it. Every operation is described by which bindings it keeps, so a reader
of the list, in order, sees the keys in increasing order and each once.
-/

import Mathlib

namespace Namada.Math

/-- Bindings strictly increasing in key. -/
structure SortedMap (κ β : Type) [LinearOrder κ] where
  entries : List (κ × β)
  sorted : entries.Pairwise (fun first second => first.1 < second.1)

namespace SortedMap

variable {κ β : Type} [LinearOrder κ]

/-- The map without bindings. -/
def empty : SortedMap κ β := ⟨[], List.Pairwise.nil⟩

/-- The value bound to `key`. -/
def find? (map : SortedMap κ β) (key : κ) : Option β :=
  (map.entries.find? fun entry => entry.1 = key).map Prod.snd

/-- Put the binding of `key` in its place in a sorted list, over an old one. -/
def insertList (key : κ) (value : β) : List (κ × β) → List (κ × β)
  | [] => [(key, value)]
  | entry :: rest =>
      if key < entry.1 then (key, value) :: entry :: rest
      else if key = entry.1 then (key, value) :: rest
      else entry :: insertList key value rest

/-- A binding of the inserted list is the new one or an old one. -/
theorem mem_insertList_of_mem {key : κ} {value : β} {entry : κ × β} :
    ∀ {entries : List (κ × β)}, entry ∈ insertList key value entries →
      entry = (key, value) ∨ entry ∈ entries
  | [], hmem => Or.inl (List.mem_singleton.mp hmem)
  | first :: rest, hmem => by
      unfold insertList at hmem
      split_ifs at hmem with hlt heq
      · exact (List.mem_cons.mp hmem).imp id id
      · rcases List.mem_cons.mp hmem with hnew | hold
        · exact Or.inl hnew
        · exact Or.inr (List.mem_cons_of_mem _ hold)
      · rcases List.mem_cons.mp hmem with hfirst | hrest
        · exact Or.inr (hfirst ▸ List.mem_cons_self)
        · exact (mem_insertList_of_mem hrest).imp id (List.mem_cons_of_mem _)

theorem sorted_insertList (key : κ) (value : β) :
    ∀ {entries : List (κ × β)}, entries.Pairwise (fun first second => first.1 < second.1) →
      (insertList key value entries).Pairwise (fun first second => first.1 < second.1)
  | [], _ => List.pairwise_singleton _ _
  | first :: rest, hsorted => by
      obtain ⟨hfirst, hrest⟩ := List.pairwise_cons.mp hsorted
      unfold insertList
      split_ifs with hlt heq
      · exact List.Pairwise.cons (fun other hother => by
          rcases List.mem_cons.mp hother with rfl | hother
          · exact hlt
          · exact lt_trans hlt (hfirst other hother)) hsorted
      · exact List.Pairwise.cons (fun other hother => heq ▸ hfirst other hother) hrest
      · -- the new binding goes after `first`, since its key is above `first`'s
        have habove : first.1 < key := lt_of_le_of_ne (not_lt.mp hlt) (Ne.symm heq)
        refine List.Pairwise.cons (fun other hother => ?_) (sorted_insertList key value hrest)
        rcases mem_insertList_of_mem hother with rfl | hold
        · exact habove
        · exact hfirst other hold

/-- Insert or replace the binding of `key`. -/
def insert (key : κ) (value : β) (map : SortedMap κ β) : SortedMap κ β :=
  ⟨insertList key value map.entries, sorted_insertList key value map.sorted⟩

/-- A key above every bound key goes last. -/
theorem insertList_of_lt {key : κ} {value : β} :
    ∀ {entries : List (κ × β)}, (∀ entry ∈ entries, entry.1 < key) →
      insertList key value entries = entries ++ [(key, value)]
  | [], _ => rfl
  | entry :: rest, hlt => by
      have hfirst := hlt entry List.mem_cons_self
      unfold insertList
      rw [if_neg (not_lt_of_gt hfirst), if_neg (ne_of_gt hfirst),
        insertList_of_lt fun other hother => hlt other (List.mem_cons_of_mem _ hother)]
      rfl

theorem entries_insert_of_lt {key : κ} {value : β} {map : SortedMap κ β}
    (hlt : ∀ entry ∈ map.entries, entry.1 < key) :
    (map.insert key value).entries = map.entries ++ [(key, value)] :=
  insertList_of_lt hlt

/-- Drop the binding of `key`. -/
def erase (key : κ) (map : SortedMap κ β) : SortedMap κ β :=
  ⟨map.entries.filter fun entry => entry.1 ≠ key, map.sorted.filter _⟩

/-- Two bindings of one key in a sorted list are the same binding. -/
theorem eq_of_mem_of_key_eq {entries : List (κ × β)}
    (hsorted : entries.Pairwise (fun first second => first.1 < second.1))
    {first second : κ × β} (hfirst : first ∈ entries) (hsecond : second ∈ entries)
    (hkey : first.1 = second.1) : first = second := by
  induction entries with
  | nil => cases hfirst
  | cons head rest ih =>
      obtain ⟨hhead, hrest⟩ := List.pairwise_cons.mp hsorted
      rcases List.mem_cons.mp hfirst with hfirstHead | hfirstRest <;>
        rcases List.mem_cons.mp hsecond with hsecondHead | hsecondRest
      · rw [hfirstHead, hsecondHead]
      · have hlt := hhead second hsecondRest
        rw [← hfirstHead, hkey] at hlt
        exact absurd hlt (lt_irrefl _)
      · have hlt := hhead first hfirstRest
        rw [← hsecondHead, hkey] at hlt
        exact absurd hlt (lt_irrefl _)
      · exact ih hrest hfirstRest hsecondRest

/-- Inserting into a sorted list keeps the new binding and the old ones of other keys. -/
theorem mem_insertList {key : κ} {value : β} {entry : κ × β} :
    ∀ {entries : List (κ × β)}, entries.Pairwise (fun first second => first.1 < second.1) →
      (entry ∈ insertList key value entries ↔
        entry = (key, value) ∨ (entry ∈ entries ∧ entry.1 ≠ key))
  | [], _ => by simp [insertList]
  | first :: rest, hsorted => by
      obtain ⟨hfirst, hrest⟩ := List.pairwise_cons.mp hsorted
      unfold insertList
      split_ifs with hlt heq
      · -- no old binding has `key`: all are at or above `first`, which is above `key`
        rw [List.mem_cons]
        constructor
        · rintro (hnew | hold)
          · exact Or.inl hnew
          · refine Or.inr ⟨hold, fun hkey => ?_⟩
            have hge : first.1 ≤ entry.1 := by
              rcases List.mem_cons.mp hold with hfirstEq | hrestMem
              · rw [hfirstEq]
              · exact le_of_lt (hfirst entry hrestMem)
            rw [hkey] at hge
            exact absurd hlt (not_lt.mpr hge)
        · rintro (hnew | ⟨hold, -⟩)
          · exact Or.inl hnew
          · exact Or.inr hold
      · -- the old binding of `key` is `first`, and it is replaced
        rw [List.mem_cons, List.mem_cons]
        constructor
        · rintro (hnew | hold)
          · exact Or.inl hnew
          · refine Or.inr ⟨Or.inr hold, fun hkey => ?_⟩
            have hlt := hfirst entry hold
            rw [hkey, ← heq] at hlt
            exact lt_irrefl _ hlt
        · rintro (hnew | ⟨hfirstEq | hold, hkey⟩)
          · exact Or.inl hnew
          · exact (hkey (by rw [hfirstEq, heq])).elim
          · exact Or.inr hold
      · rw [List.mem_cons, mem_insertList hrest, List.mem_cons]
        constructor
        · rintro (hfirstEq | hnew | ⟨hold, hkey⟩)
          · exact Or.inr ⟨Or.inl hfirstEq, fun hkey => heq (hfirstEq ▸ hkey).symm⟩
          · exact Or.inl hnew
          · exact Or.inr ⟨Or.inr hold, hkey⟩
        · rintro (hnew | ⟨hfirstEq | hold, hkey⟩)
          · exact Or.inr (Or.inl hnew)
          · exact Or.inl hfirstEq
          · exact Or.inr (Or.inr ⟨hold, hkey⟩)

theorem mem_entries_insert {key : κ} {value : β} {map : SortedMap κ β} {entry : κ × β} :
    entry ∈ (map.insert key value).entries ↔
      entry = (key, value) ∨ (entry ∈ map.entries ∧ entry.1 ≠ key) :=
  mem_insertList map.sorted

theorem mem_entries_erase {key : κ} {map : SortedMap κ β} {entry : κ × β} :
    entry ∈ (map.erase key).entries ↔ entry ∈ map.entries ∧ entry.1 ≠ key := by
  simp [erase]

/-- `find?` returns exactly the values bound. -/
theorem find?_eq_some_iff {map : SortedMap κ β} {key : κ} {value : β} :
    map.find? key = some value ↔ (key, value) ∈ map.entries := by
  unfold find?
  constructor
  · intro hfind
    obtain ⟨entry, hentry, rfl⟩ := Option.map_eq_some_iff.mp hfind
    have hkey : entry.1 = key := by simpa using List.find?_some hentry
    rw [← hkey]
    exact List.mem_of_find?_eq_some hentry
  · intro hmem
    -- some binding of `key` is found, and it is the only one
    have hsome : (map.entries.find? fun entry => decide (entry.1 = key)).isSome :=
      List.find?_isSome.mpr ⟨(key, value), hmem, by simp⟩
    obtain ⟨entry, hentry⟩ := Option.isSome_iff_exists.mp hsome
    have hkey : entry.1 = key := by simpa using List.find?_some hentry
    have hsame : entry = (key, value) :=
      eq_of_mem_of_key_eq map.sorted (List.mem_of_find?_eq_some hentry) hmem hkey
    rw [hentry, hsame]
    rfl

@[simp] theorem find?_empty (key : κ) : (empty : SortedMap κ β).find? key = none := rfl

@[simp] theorem find?_insert_self (key : κ) (value : β) (map : SortedMap κ β) :
    (map.insert key value).find? key = some value :=
  find?_eq_some_iff.mpr (mem_entries_insert.mpr (Or.inl rfl))

/-- `find?` reads the first binding of the key, as `List.lookup` does. -/
theorem find?_entries_eq_lookup (key : κ) :
    ∀ entries : List (κ × β), (entries.find? fun entry => entry.1 = key).map Prod.snd = entries.lookup key
  | [] => rfl
  | (first, value) :: rest => by
    by_cases hkey : first = key
    · subst hkey
      simp [List.lookup_cons_self]
    · rw [List.find?_cons_of_neg (by simpa using hkey), find?_entries_eq_lookup key rest, List.lookup_cons,
        beq_eq_false_iff_ne.mpr (Ne.symm hkey)]

theorem find?_eq_lookup (map : SortedMap κ β) (key : κ) : map.find? key = map.entries.lookup key :=
  find?_entries_eq_lookup key map.entries

theorem find?_insert_of_ne {key other : κ} (value : β) (map : SortedMap κ β)
    (hne : other ≠ key) : (map.insert key value).find? other = map.find? other := by
  apply Option.ext
  intro found
  rw [find?_eq_some_iff, find?_eq_some_iff, mem_entries_insert]
  constructor
  · rintro (hnew | ⟨hold, -⟩)
    · exact absurd (congrArg Prod.fst hnew) hne
    · exact hold
  · exact fun hold => Or.inr ⟨hold, hne⟩

@[simp] theorem find?_erase_self (key : κ) (map : SortedMap κ β) :
    (map.erase key).find? key = none := by
  apply Option.eq_none_iff_forall_ne_some.mpr
  intro found hfound
  exact (mem_entries_erase.mp (find?_eq_some_iff.mp hfound)).2 rfl

theorem find?_erase_of_ne {key other : κ} (map : SortedMap κ β) (hne : other ≠ key) :
    (map.erase key).find? other = map.find? other := by
  apply Option.ext
  intro found
  rw [find?_eq_some_iff, find?_eq_some_iff, mem_entries_erase]
  exact ⟨fun hold => hold.1, fun hold => ⟨hold, hne⟩⟩

@[ext] theorem ext {first second : SortedMap κ β} (hentries : first.entries = second.entries) :
    first = second := by
  cases first
  cases second
  cases hentries
  rfl

theorem erase_comm (first second : κ) (map : SortedMap κ β) :
    (map.erase first).erase second = (map.erase second).erase first := by
  ext1
  simp only [erase, List.filter_filter]
  congr 1
  funext entry
  exact Bool.and_comm _ _

/-! ### Dropping several keys -/

/-- Drop the bindings of `keys`, one after another. -/
def eraseAll (keys : List κ) (map : SortedMap κ β) : SortedMap κ β :=
  keys.foldl (fun map key => map.erase key) map

@[simp] theorem eraseAll_nil (map : SortedMap κ β) : eraseAll [] map = map := rfl

theorem eraseAll_cons (key : κ) (keys : List κ) (map : SortedMap κ β) :
    eraseAll (key :: keys) map = (eraseAll keys map).erase key := by
  show eraseAll keys (map.erase key) = _
  induction keys generalizing map with
  | nil => rfl
  | cons other keys ih =>
      show eraseAll keys ((map.erase key).erase other) = (eraseAll keys (map.erase other)).erase key
      rw [erase_comm, ih]

theorem find?_eraseAll_of_not_mem {key : κ} {keys : List κ} (map : SortedMap κ β)
    (hkey : key ∉ keys) : (eraseAll keys map).find? key = map.find? key := by
  induction keys with
  | nil => rfl
  | cons other keys ih =>
      rw [eraseAll_cons, find?_erase_of_ne _ fun heq => hkey (by rw [heq]; exact List.mem_cons_self),
        ih fun hmem => hkey (List.mem_cons_of_mem _ hmem)]

theorem find?_eraseAll_of_mem {key : κ} {keys : List κ} (map : SortedMap κ β)
    (hkey : key ∈ keys) : (eraseAll keys map).find? key = none := by
  induction keys with
  | nil => cases hkey
  | cons other keys ih =>
      rw [eraseAll_cons]
      by_cases hother : key = other
      · rw [hother, find?_erase_self]
      · rw [find?_erase_of_ne _ hother]
        exact ih ((List.mem_cons.mp hkey).resolve_left hother)

/-! ### Sums over the values -/

section Sums

variable {M : Type} [AddCommMonoid M] (f : β → M)

/-- The sum of `f` over the values bound. -/
def sumBy (map : SortedMap κ β) : M :=
  (map.entries.map fun entry => f entry.2).sum

@[simp] theorem sumBy_empty : (empty : SortedMap κ β).sumBy f = 0 := rfl

/-- Dropping the bindings of one key from a sorted list takes its value out of
the sum. -/
theorem sum_filter_add_find (key : κ) :
    ∀ {entries : List (κ × β)}, entries.Pairwise (fun first second => first.1 < second.1) →
      ((entries.filter fun entry => entry.1 ≠ key).map fun entry => f entry.2).sum +
          (((entries.find? fun entry => entry.1 = key).map Prod.snd).map f).getD 0 =
        (entries.map fun entry => f entry.2).sum
  | [], _ => by simp
  | first :: rest, hsorted => by
      obtain ⟨hfirst, hrest⟩ := List.pairwise_cons.mp hsorted
      by_cases hkey : first.1 = key
      · -- `first` binds `key`, and every later binding lies above it
        have hkept : (rest.filter fun entry => entry.1 ≠ key) = rest := by
          apply List.filter_eq_self.mpr
          intro entry hentry
          have hlt := hfirst entry hentry
          rw [hkey] at hlt
          simpa using ne_of_gt hlt
        simp only [List.filter_cons, hkey, ne_eq, not_true_eq_false, decide_false,
          Bool.false_eq_true, if_false, hkept, List.find?_cons, decide_true, Option.map_some,
          Option.getD_some, List.map_cons, List.sum_cons]
        exact add_comm _ _
      · have hrestSum := sum_filter_add_find key hrest
        simp only [List.filter_cons, hkey, ne_eq, not_false_eq_true, decide_true, if_true,
          List.find?_cons, decide_false, List.map_cons, List.sum_cons]
        rw [add_assoc, hrestSum]

theorem sumBy_erase_add (key : κ) (map : SortedMap κ β) :
    (map.erase key).sumBy f + ((map.find? key).map f).getD 0 = map.sumBy f := by
  rw [find?]
  exact sum_filter_add_find f key map.sorted

/-- Inserting into a sorted list adds the new value to the sum and takes the old
one out. -/
theorem sum_insertList_add (key : κ) (value : β) :
    ∀ {entries : List (κ × β)}, entries.Pairwise (fun first second => first.1 < second.1) →
      ((insertList key value entries).map fun entry => f entry.2).sum +
          (((entries.find? fun entry => entry.1 = key).map Prod.snd).map f).getD 0 =
        (entries.map fun entry => f entry.2).sum + f value
  | [], _ => by simp [insertList]
  | first :: rest, hsorted => by
      obtain ⟨hfirst, hrest⟩ := List.pairwise_cons.mp hsorted
      unfold insertList
      split_ifs with hlt heq
      · -- every binding lies above `key`, so none is replaced
        have hnone : ((first :: rest).find? fun entry => entry.1 = key) = none := by
          apply List.find?_eq_none.mpr
          intro entry hentry
          have hle : first.1 ≤ entry.1 := by
            rcases List.mem_cons.mp hentry with rfl | hmem
            · exact le_rfl
            · exact le_of_lt (hfirst entry hmem)
          simpa using ne_of_gt (lt_of_lt_of_le hlt hle)
        rw [hnone]
        simp only [List.map_cons, List.sum_cons, Option.map_none, Option.getD_none, add_zero]
        exact add_comm _ _
      · simp only [List.map_cons, List.sum_cons, List.find?_cons, heq, decide_true,
          Option.map_some, Option.getD_some]
        ac_rfl
      · have hne : first.1 ≠ key := fun hsame => heq hsame.symm
        have hrestSum := sum_insertList_add key value hrest
        simp only [List.map_cons, List.sum_cons, List.find?_cons, hne, decide_false]
        rw [add_assoc, hrestSum, add_assoc]

theorem sumBy_insert_add (key : κ) (value : β) (map : SortedMap κ β) :
    (map.insert key value).sumBy f + ((map.find? key).map f).getD 0 = map.sumBy f + f value := by
  rw [find?]
  exact sum_insertList_add f key value map.sorted

end Sums

end SortedMap

end Namada.Math
