/-
# Sums over the keys of sorted maps, and maps collected from lists

The sum of `f` over the values of a sorted map is a sum over any finite set of
keys that holds its bindings, each key counting for `f` of what it binds, or
for nothing (`sumBy_eq_sum_sumAt`). Maps whose values add up key by key then
have sums that add up (`sumBy_add_sumBy_of_forall`), so a statement about each
key becomes one about the totals.

A map collected from a list of bindings, later ones over earlier ones as
`collect` into a `BTreeMap` does, binds each key of the list to its value when
the keys are distinct (`find?_ofList_of_mem`). A map filled by a fallible loop
binds each key to what the loop computed for it (`find?_foldlM_insert`).
-/

import Mathlib
import Namada.Math.SortedMap
import Namada.Math.Except

namespace Namada.Math

namespace SortedMap

variable {κ β : Type} [LinearOrder κ]

/-- The keys of a sorted map are distinct. -/
theorem nodup_keys (map : SortedMap κ β) : (map.entries.map Prod.fst).Nodup :=
  (List.pairwise_map.mpr map.sorted).imp ne_of_lt

theorem mem_keys_of_find?_eq_some {map : SortedMap κ β} {key : κ} {value : β}
    (hfind : map.find? key = some value) : key ∈ map.entries.map Prod.fst :=
  List.mem_map.mpr ⟨(key, value), find?_eq_some_iff.mp hfind, rfl⟩

theorem find?_eq_none_of_not_mem {map : SortedMap κ β} {key : κ}
    (hkey : key ∉ map.entries.map Prod.fst) : map.find? key = none := by
  cases hfind : map.find? key with
  | none => rfl
  | some value => exact absurd (mem_keys_of_find?_eq_some hfind) hkey

/-! ### Sums key by key -/

section Sums

variable {M : Type} [AddCommMonoid M]

/-- What `key` adds to `map.sumBy f`: `f` of the value it binds, or nothing. -/
def sumAt (f : β → M) (map : SortedMap κ β) (key : κ) : M := ((map.find? key).map f).getD 0

theorem sumAt_of_find?_eq_some {f : β → M} {map : SortedMap κ β} {key : κ} {value : β}
    (hfind : map.find? key = some value) : sumAt f map key = f value := by
  rw [sumAt, hfind]
  rfl

theorem sumAt_of_not_mem (f : β → M) {map : SortedMap κ β} {key : κ}
    (hkey : key ∉ map.entries.map Prod.fst) : sumAt f map key = 0 := by
  rw [sumAt, find?_eq_none_of_not_mem hkey]
  rfl

@[simp] theorem sumAt_empty (f : β → M) (key : κ) : sumAt f (empty : SortedMap κ β) key = 0 := rfl

/-- A sum over the bindings is a sum over any finite set of keys that holds them. -/
theorem sumBy_eq_sum_sumAt (f : β → M) (map : SortedMap κ β) (keys : Finset κ)
    (hkeys : ∀ entry ∈ map.entries, entry.1 ∈ keys) :
    map.sumBy f = ∑ key ∈ keys, sumAt f map key := by
  have hbound : ∀ entry ∈ map.entries, f entry.2 = sumAt f map entry.1 := fun entry hentry =>
    (sumAt_of_find?_eq_some (find?_eq_some_iff.mpr hentry)).symm
  calc map.sumBy f = ((map.entries.map Prod.fst).map (sumAt f map)).sum := by
        rw [sumBy, List.map_map]
        exact congrArg List.sum (List.map_congr_left hbound)
    _ = ∑ key ∈ (map.entries.map Prod.fst).toFinset, sumAt f map key :=
        (List.sum_toFinset _ map.nodup_keys).symm
    _ = ∑ key ∈ keys, sumAt f map key := by
        -- the keys beyond the bindings count for nothing
        refine Finset.sum_subset (fun key hkey => ?_) fun key _ hkey => ?_
        · obtain ⟨entry, hentry, rfl⟩ := List.mem_map.mp (List.mem_toFinset.mp hkey)
          exact hkeys entry hentry
        · exact sumAt_of_not_mem f fun hmem => hkey (List.mem_toFinset.mpr hmem)

/-- The keys of a map, as a finite set. -/
def keySet (map : SortedMap κ β) : Finset κ := (map.entries.map Prod.fst).toFinset

theorem mem_keySet {map : SortedMap κ β} {entry : κ × β} (hentry : entry ∈ map.entries) :
    entry.1 ∈ map.keySet :=
  List.mem_toFinset.mpr (List.mem_map.mpr ⟨entry, hentry, rfl⟩)

/-- Maps whose values add up key by key have sums that add up. -/
theorem sumBy_add_sumBy_of_forall {β₁ β₂ β₃ : Type} {first : SortedMap κ β₁}
    {second : SortedMap κ β₂} {third : SortedMap κ β₃} (f₁ : β₁ → M) (f₂ : β₂ → M) (f₃ : β₃ → M)
    (hadd : ∀ key, sumAt f₁ first key + sumAt f₂ second key = sumAt f₃ third key) :
    first.sumBy f₁ + second.sumBy f₂ = third.sumBy f₃ := by
  have hfirst : ∀ entry ∈ first.entries, entry.1 ∈ first.keySet ∪ second.keySet ∪ third.keySet :=
    fun _ hentry => Finset.mem_union_left _ (Finset.mem_union_left _ (mem_keySet hentry))
  have hsecond : ∀ entry ∈ second.entries, entry.1 ∈ first.keySet ∪ second.keySet ∪ third.keySet :=
    fun _ hentry => Finset.mem_union_left _ (Finset.mem_union_right _ (mem_keySet hentry))
  have hthird : ∀ entry ∈ third.entries, entry.1 ∈ first.keySet ∪ second.keySet ∪ third.keySet :=
    fun _ hentry => Finset.mem_union_right _ (mem_keySet hentry)
  rw [sumBy_eq_sum_sumAt f₁ first _ hfirst, sumBy_eq_sum_sumAt f₂ second _ hsecond,
    sumBy_eq_sum_sumAt f₃ third _ hthird, ← Finset.sum_add_distrib]
  exact Finset.sum_congr rfl fun key _ => hadd key

end Sums

/-! ### Maps collected from lists -/

/-- A map collected from a list of bindings, each over those before it
(`collect` into a `BTreeMap`). -/
def ofList (bindings : List (κ × β)) : SortedMap κ β :=
  bindings.foldl (fun map binding => map.insert binding.1 binding.2) empty

theorem find?_foldl_insert_of_not_mem {key : κ} :
    ∀ {bindings : List (κ × β)} (map : SortedMap κ β), key ∉ bindings.map Prod.fst →
      (bindings.foldl (fun map binding => map.insert binding.1 binding.2) map).find? key =
        map.find? key
  | [], _, _ => rfl
  | binding :: rest, map, hkey => by
      have hne : key ≠ binding.1 := fun heq => hkey (by rw [List.map_cons, heq]; exact List.mem_cons_self)
      rw [List.foldl_cons,
        find?_foldl_insert_of_not_mem _ fun hmem => hkey (List.mem_cons_of_mem _ hmem),
        find?_insert_of_ne _ _ hne]

theorem find?_foldl_insert_of_mem {key : κ} {value : β} :
    ∀ {bindings : List (κ × β)} (map : SortedMap κ β), (bindings.map Prod.fst).Nodup →
      (key, value) ∈ bindings →
      (bindings.foldl (fun map binding => map.insert binding.1 binding.2) map).find? key = some value
  | [], _, _, hmem => absurd hmem List.not_mem_nil
  | binding :: rest, map, hnodup, hmem => by
      rw [List.map_cons] at hnodup
      obtain ⟨hfresh, hrest⟩ := List.nodup_cons.mp hnodup
      rw [List.foldl_cons]
      rcases List.mem_cons.mp hmem with hfirst | hlater
      · -- the binding of `key` comes first, and no later one binds it again
        subst hfirst
        rw [find?_foldl_insert_of_not_mem _ hfresh, find?_insert_self]
      · exact find?_foldl_insert_of_mem _ hrest hlater

theorem find?_ofList_of_mem {bindings : List (κ × β)} {key : κ} {value : β}
    (hnodup : (bindings.map Prod.fst).Nodup) (hmem : (key, value) ∈ bindings) :
    (ofList bindings).find? key = some value :=
  find?_foldl_insert_of_mem _ hnodup hmem

theorem find?_ofList_of_not_mem {bindings : List (κ × β)} {key : κ}
    (hkey : key ∉ bindings.map Prod.fst) : (ofList bindings).find? key = none :=
  find?_foldl_insert_of_not_mem _ hkey

/-- A fallible loop that binds each key to a value it computes leaves each key
bound to the value computed for it, or to what it was bound to before; the
induction follows the keys. -/
theorem find?_foldlM_insert {ε : Type} (compute : κ → Except ε β) :
    ∀ {keys : List κ} {map result : SortedMap κ β},
      keys.foldlM (fun map key => do
          let value ← compute key
          pure (map.insert key value)) map = .ok result →
      ∀ {key : κ} {value : β}, result.find? key = some value →
        (key ∈ keys ∧ compute key = .ok value) ∨ map.find? key = some value
  | [], map, result, hfold, key, value, hfind => by
      cases hfold
      exact Or.inr hfind
  | first :: rest, map, result, hfold, key, value, hfind => by
      rw [List.foldlM_cons] at hfold
      obtain ⟨next, hstep, hrest⟩ := bind_eq_ok hfold
      obtain ⟨computed, hcompute, hpure⟩ := bind_eq_ok hstep
      cases hpure
      rcases find?_foldlM_insert compute hrest hfind with ⟨hmem, hvalue⟩ | hbefore
      · exact Or.inl ⟨List.mem_cons_of_mem _ hmem, hvalue⟩
      · by_cases hkey : key = first
        · -- the key is the first one the loop bound
          subst hkey
          rw [find?_insert_self] at hbefore
          cases hbefore
          exact Or.inl ⟨List.mem_cons_self, hcompute⟩
        · rw [find?_insert_of_ne _ _ hkey] at hbefore
          exact Or.inr hbefore

end SortedMap

end Namada.Math
