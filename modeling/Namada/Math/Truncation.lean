/-
# Sums of truncated quotients

Truncating each term of a sum loses at least as much as truncating the sum: a
sum of quotients is at most the quotient of the sum (`sum_map_div_le`). So
shares of a whole that are computed one by one and rounded down never add up to
more than the whole (`sum_map_mul_div_le`). Sums over part of a list without
repetitions are at most the sum over all of it (`sum_map_le_of_nodup_subset`),
a value given to the one item with a given key is given at most once
(`sum_map_ite_key_le`), and integers that are not negative add up as their
absolute values (`sum_map_natAbs_of_nonneg`). A sum over distinct keys, each of
them the key of one item of a finite set, is the sum over the items
(`sum_map_eq_sum_image`).
-/

import Mathlib

namespace Namada.Math

variable {α β : Type}

/-- A sum of truncated quotients is at most the truncated quotient of the sum. -/
theorem sum_map_div_le (f : α → ℕ) (divisor : ℕ) :
    ∀ items : List α, (items.map fun item => f item / divisor).sum ≤ (items.map f).sum / divisor
  | [] => by simp
  | item :: rest => by
    have hrest := sum_map_div_le f divisor rest
    calc ((item :: rest).map fun item => f item / divisor).sum
        = f item / divisor + (rest.map fun item => f item / divisor).sum := by
          rw [List.map_cons, List.sum_cons]
      _ ≤ f item / divisor + (rest.map f).sum / divisor := Nat.add_le_add_left hrest _
      _ ≤ (f item + (rest.map f).sum) / divisor := Nat.div_add_div_le_add_div
      _ = ((item :: rest).map f).sum / divisor := by rw [List.map_cons, List.sum_cons]

/-- Shares `coeff * part / divisor`, rounded down, of parts that add up to at
most the divisor add up to at most `coeff`. -/
theorem sum_map_mul_div_le (coeff divisor : ℕ) (part : α → ℕ) (items : List α)
    (hparts : (items.map part).sum ≤ divisor) :
    (items.map fun item => coeff * part item / divisor).sum ≤ coeff := by
  rcases Nat.eq_zero_or_pos divisor with hzero | hpos
  · simp [hzero]
  calc (items.map fun item => coeff * part item / divisor).sum
      ≤ (items.map fun item => coeff * part item).sum / divisor := sum_map_div_le _ divisor items
    _ = coeff * (items.map part).sum / divisor := by rw [List.sum_map_mul_left]
    _ ≤ coeff * divisor / divisor := Nat.div_le_div_right (Nat.mul_le_mul_left coeff hparts)
    _ = coeff := Nat.mul_div_cancel coeff hpos

/-- The sum over a list without repetitions whose items all occur in another
list is at most the sum over that list. -/
theorem sum_map_le_of_nodup_subset (f : α → ℕ) {part whole : List α} (hnodup : part.Nodup)
    (hsubset : part ⊆ whole) : (part.map f).sum ≤ (whole.map f).sum := by
  obtain ⟨reordered, hperm, hsublist⟩ := hnodup.subperm hsubset
  calc (part.map f).sum = (reordered.map f).sum := ((hperm.map f).sum_eq).symm
    _ ≤ (whole.map f).sum := (hsublist.map f).sum_le_sum fun _ _ => Nat.zero_le _

/-- Over items whose keys do not repeat, a value given to the item with one key
is given at most once. -/
theorem sum_map_ite_key_le [DecidableEq β] (key : α → β) (target : β) (value : ℕ) :
    ∀ {items : List α}, (items.map key).Nodup →
      (items.map fun item => if key item = target then value else 0).sum ≤ value
  | [], _ => Nat.zero_le _
  | item :: rest, hnodup => by
    rw [List.map_cons, List.nodup_cons] at hnodup
    rw [List.map_cons, List.sum_cons]
    by_cases hkey : key item = target
    · -- no later item has the key, so the rest gives nothing
      have hnone : (rest.map fun item => if key item = target then value else 0).sum = 0 := by
        apply List.sum_eq_zero
        intro share hshare
        obtain ⟨other, hother, rfl⟩ := List.mem_map.mp hshare
        have hne : key other ≠ target := fun hsame =>
          hnodup.1 (hkey ▸ hsame ▸ List.mem_map_of_mem hother)
        exact if_neg hne
      rw [if_pos hkey, hnone, Nat.add_zero]
    · rw [if_neg hkey, Nat.zero_add]
      exact sum_map_ite_key_le key target value hnodup.2

/-- A sum of integers that are not negative is the sum of their absolute values. -/
theorem sum_map_natAbs_of_nonneg (f : α → ℤ) :
    ∀ {items : List α}, (∀ item ∈ items, 0 ≤ f item) →
      (((items.map fun item => (f item).natAbs).sum : ℕ) : ℤ) = (items.map f).sum
  | [], _ => rfl
  | item :: rest, hnonneg => by
    have hrest := sum_map_natAbs_of_nonneg f fun other hother => hnonneg other (List.mem_cons_of_mem _ hother)
    rw [List.map_cons, List.sum_cons, Int.natCast_add, Int.natAbs_of_nonneg (hnonneg item List.mem_cons_self),
      hrest, List.map_cons, List.sum_cons]

/-- A sum over keys without repetitions of a function that is zero except at
keys `key item` of items of a finite set, and zero at the keys of items that
are not in the list, is the sum over the items. -/
theorem sum_map_eq_sum_image [DecidableEq β] {keys : List β} (hnodup : keys.Nodup) {key : α → β}
    (hinj : Function.Injective key) (items : Finset α) (f : β → ℤ)
    (hkeys : ∀ k ∈ keys, f k ≠ 0 → ∃ item ∈ items, key item = k)
    (hitems : ∀ item ∈ items, f (key item) ≠ 0 → key item ∈ keys) :
    (keys.map f).sum = ∑ item ∈ items, f (key item) := by
  have hfilter : ∑ item ∈ items with key item ∈ keys, f (key item) = ∑ item ∈ items, f (key item) :=
    Finset.sum_filter_of_ne hitems
  rw [← List.sum_toFinset f hnodup, ← hfilter, ← Finset.sum_image fun _ _ _ _ hsame => hinj hsame]
  symm
  apply Finset.sum_subset
  · -- the keys of the items in the list are keys of the list
    intro k hk
    obtain ⟨item, hitem, rfl⟩ := Finset.mem_image.mp hk
    exact List.mem_toFinset.mpr (Finset.mem_filter.mp hitem).2
  · -- every other key of the list is not the key of an item, so its term is zero
    intro k hk hnot
    by_contra hne
    obtain ⟨item, hitem, rfl⟩ := hkeys k (List.mem_toFinset.mp hk) hne
    exact hnot (Finset.mem_image_of_mem key (Finset.mem_filter.mpr ⟨hitem, List.mem_toFinset.mp hk⟩))

end Namada.Math
