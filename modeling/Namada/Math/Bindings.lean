/-
# Hash maps as lists of bindings

A `HashMap` is iterated in an order that the program does not choose. Here it
is the list of its bindings in that order, with distinct keys as a field, so
that no map binds a key twice. `get` reads a key and `insert` replaces its
binding. Two maps that `Reorder` each other bind the same keys to the same
values (`Reorders.get_eq`); a map of maps may also reorder each inner map
(`ReordersNested`).

A sum over a list regroups by a key whose values lie in a list of distinct
keys (`sum_map_eq_sum_keys`): a total over many items is the total, over the
keys, of what each key's items hold.
-/

import Mathlib

namespace Namada.Math

/-- A map as its bindings in iteration order; no key is bound twice. -/
structure Bindings (K V : Type) where
  entries : List (K × V)
  nodupKeys : (entries.map Prod.fst).Nodup

namespace Bindings

variable {K V : Type} [DecidableEq K]

/-- `HashMap::default`. -/
def empty : Bindings K V := ⟨[], List.nodup_nil⟩

/-- `HashMap::get`. -/
def get (map : Bindings K V) (key : K) : Option V := map.entries.lookup key

/-- Dropping a key's binding and binding it last keeps the keys distinct. -/
theorem nodup_insert (map : Bindings K V) (key : K) (value : V) :
    (((map.entries.filter fun entry => entry.1 != key) ++ [(key, value)]).map Prod.fst).Nodup := by
  rw [List.map_append, List.nodup_append]
  refine ⟨map.nodupKeys.sublist (List.filter_sublist.map _), List.nodup_singleton key, ?_⟩
  intro other hother last hlast
  rw [List.map_singleton, List.mem_singleton] at hlast
  obtain ⟨entry, hentry, rfl⟩ := List.mem_map.mp hother
  have hne := (List.mem_filter.mp hentry).2
  rw [hlast]
  simpa using hne

/-- `HashMap::insert`: the new binding replaces the key's old one. The source
does not fix where it stands in the iteration order; here it comes last. -/
def insert (map : Bindings K V) (key : K) (value : V) : Bindings K V :=
  ⟨(map.entries.filter fun entry => entry.1 != key) ++ [(key, value)], map.nodup_insert key value⟩

/-- With distinct keys, a lookup finds exactly the bindings of the list. -/
theorem lookup_eq_some_iff_of_nodup {key : K} {value : V} :
    ∀ {entries : List (K × V)}, (entries.map Prod.fst).Nodup →
      (entries.lookup key = some value ↔ (key, value) ∈ entries)
  | [], _ => by simp
  | (first, firstValue) :: rest, hnodup => by
      rw [List.map_cons, List.nodup_cons] at hnodup
      by_cases hkey : key = first
      · -- the first binding is the key's, and no later one is
        subst hkey
        have hrest : (key, value) ∉ rest := fun hmem => hnodup.1 (List.mem_map.mpr ⟨_, hmem, rfl⟩)
        simp [hrest, eq_comm]
      · have hne : (key, value) ≠ (first, firstValue) := fun heq => hkey (Prod.mk.inj heq).1
        rw [List.lookup_cons, beq_false_of_ne hkey, List.mem_cons, or_iff_right hne]
        exact lookup_eq_some_iff_of_nodup hnodup.2

theorem get_eq_some_iff {map : Bindings K V} {key : K} {value : V} :
    map.get key = some value ↔ (key, value) ∈ map.entries :=
  lookup_eq_some_iff_of_nodup map.nodupKeys

theorem get_eq_none_iff {map : Bindings K V} {key : K} :
    map.get key = none ↔ key ∉ map.entries.map Prod.fst := by
  rw [get, List.lookup_eq_none_iff]
  constructor
  · intro hnone hmem
    obtain ⟨entry, hentry, rfl⟩ := List.mem_map.mp hmem
    simpa using hnone entry hentry
  · intro hnot entry hentry
    have hne : key ≠ entry.1 := fun heq => hnot (List.mem_map.mpr ⟨entry, hentry, heq.symm⟩)
    simpa using hne

@[simp] theorem get_empty (key : K) : (empty : Bindings K V).get key = none := rfl

@[simp] theorem get_insert (map : Bindings K V) (key other : K) (value : V) :
    (map.insert key value).get other = if other = key then some value else map.get other := by
  refine Option.ext fun found => ?_
  rw [get_eq_some_iff]
  simp only [insert, List.mem_append, List.mem_filter, List.mem_singleton, Prod.mk.injEq, bne_iff_ne,
    ne_eq]
  split_ifs with hother
  · subst hother
    simp [eq_comm]
  · simp [hother, get_eq_some_iff]

/-- Two maps with the same bindings, iterated in other orders. -/
def Reorders (map other : Bindings K V) : Prop := map.entries.Perm other.entries

theorem Reorders.get_eq {map other : Bindings K V} (hreorders : map.Reorders other) (key : K) :
    map.get key = other.get key :=
  Option.ext fun value => by
    rw [get_eq_some_iff, get_eq_some_iff]
    exact hreorders.mem_iff

/-- Two maps of maps with the same bindings, iterated in other orders and with
each inner map iterated in its own order. -/
def ReordersNested {K' V' : Type} [DecidableEq K'] (map other : Bindings K (Bindings K' V')) : Prop :=
  ∃ middle : List (K × Bindings K' V'), map.entries.Perm middle ∧
    List.Forall₂ (fun first second => first.1 = second.1 ∧ first.2.Reorders second.2) middle other.entries

omit [DecidableEq K] in
/-- What is read off each binding of a map of maps, through its key and the
inner bindings, is the same up to order on a reordered map, when reading a
reordered inner map gives the same up to order. -/
theorem ReordersNested.flatMap_perm {K' V' β : Type} [DecidableEq K']
    {map other : Bindings K (Bindings K' V')} (hreorders : map.ReordersNested other)
    (read : K → List (K' × V') → List β)
    (hread : ∀ key {first second : List (K' × V')}, first.Perm second → (read key first).Perm (read key second)) :
    (map.entries.flatMap fun entry => read entry.1 entry.2.entries).Perm
      (other.entries.flatMap fun entry => read entry.1 entry.2.entries) := by
  obtain ⟨middle, hperm, hinner⟩ := hreorders
  refine (hperm.flatMap_right _).trans ?_
  -- the middle list has the other's keys in the other's order, inner maps aside
  clear hperm
  generalize other.entries = rest at hinner
  induction hinner with
  | nil => exact List.Perm.refl _
  | cons hhead _ ih =>
      rw [List.flatMap_cons, List.flatMap_cons, hhead.1]
      exact (hread _ hhead.2).append ih

end Bindings

/-! ## Regrouping a sum by keys -/

section Regroup

variable {α κ M : Type} [DecidableEq κ] [AddCommMonoid M]

/-- Over distinct keys, a value put at one of them alone sums to that value. -/
theorem sum_map_ite_eq_of_mem {keys : List κ} (hnodup : keys.Nodup) {key : κ} (hmem : key ∈ keys)
    (value : M) : (keys.map fun other => if key = other then value else 0).sum = value := by
  rw [← List.sum_toFinset _ hnodup, Finset.sum_ite_eq, if_pos (List.mem_toFinset.mpr hmem)]

/-- A sum regroups by a key drawn from a list of distinct keys; an item whose
key is not in the list must count nothing. -/
theorem sum_map_eq_sum_keys {keys : List κ} (hnodup : keys.Nodup) (key : α → κ) (f : α → M) :
    ∀ {items : List α}, (∀ item ∈ items, key item ∉ keys → f item = 0) →
      (items.map f).sum = (keys.map fun other => ((items.filter fun item => key item = other).map f).sum).sum
  | [], _ => by simp
  | item :: rest, hkeys => by
      have hrest := sum_map_eq_sum_keys hnodup key f fun other hother =>
        hkeys other (List.mem_cons_of_mem _ hother)
      -- the first item counts at its own key only
      have hsplit : ∀ other, (((item :: rest).filter fun item => key item = other).map f).sum =
          (if key item = other then f item else 0) +
            ((rest.filter fun item => key item = other).map f).sum := by
        intro other
        by_cases hkey : key item = other <;> simp [hkey]
      have hitem : (keys.map fun other => if key item = other then f item else 0).sum = f item := by
        by_cases hmem : key item ∈ keys
        · exact sum_map_ite_eq_of_mem hnodup hmem (f item)
        · simp [hkeys item List.mem_cons_self hmem]
      simp only [hsplit, List.sum_map_add]
      rw [hitem, List.map_cons, List.sum_cons, hrest]

end Regroup

end Namada.Math
