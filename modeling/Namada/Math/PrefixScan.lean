/-
# Prefix scans of partial maps over the naturals

A partial map `ℕ → Option α` holds values at some points. A prefix scan reads
it upward from `0`, combining what it has accumulated with the value at each
point: the value at the greatest point at or below a point, and the sum of the
values at or below it, are two such scans. Draining a range removes the values
at a run of points and combines them in the same way.

The lemmas say when two maps give the same scan. Maps that agree above a bound
and give the same scan at the bound give the same scan from the bound on; and
draining everything below a bound and folding it into the bound keeps the
scan there, for every combination that skips empty points.
-/

import Mathlib

namespace Namada.Math

universe u

variable {α : Type u}

/-- No value is stored strictly below `bound`. -/
def NoneBelow (data : ℕ → Option α) (bound : ℕ) : Prop :=
  ∀ point, point < bound → data point = none

/-- The two maps agree at every point strictly above `bound`. -/
def AgreeAbove (first second : ℕ → Option α) (bound : ℕ) : Prop :=
  ∀ point, bound < point → first point = second point

theorem NoneBelow.mono {data : ℕ → Option α} {bound lower : ℕ}
    (hnone : NoneBelow data bound) (hle : lower ≤ bound) : NoneBelow data lower :=
  fun point hlt => hnone point (lt_of_lt_of_le hlt hle)

theorem AgreeAbove.mono {first second : ℕ → Option α} {bound higher : ℕ}
    (hagree : AgreeAbove first second bound) (hle : bound ≤ higher) :
    AgreeAbove first second higher :=
  fun point hlt => hagree point (lt_of_le_of_lt hle hlt)

/-! ## Scans and drains -/

section Scan

variable (combine : Option α → Option α → Option α)

/-- Read `data` upward from `0`, combining the accumulated value with the
value at each point in turn. -/
def prefixScan (data : ℕ → Option α) : ℕ → Option α
  | 0 => data 0
  | point + 1 => combine (prefixScan data point) (data (point + 1))

/-- Remove the values at the `count` points from `start`, lowest first,
combining each removed value into an accumulator that starts empty. -/
def drainRange (data : ℕ → Option α) (start : ℕ) : ℕ → Option α × (ℕ → Option α)
  | 0 => (none, data)
  | count + 1 =>
      let previous := drainRange data start count
      (combine previous.1 (previous.2 (start + count)),
        Function.update previous.2 (start + count) none)

variable {combine}

@[simp] theorem prefixScan_zero (data : ℕ → Option α) :
    prefixScan combine data 0 = data 0 := rfl

@[simp] theorem prefixScan_succ (data : ℕ → Option α) (point : ℕ) :
    prefixScan combine data (point + 1) =
      combine (prefixScan combine data point) (data (point + 1)) := rfl

/-- Agreement above a bound and of the scans at the bound is agreement of the
scans from the bound on. -/
theorem prefixScan_congr {first second : ℕ → Option α} {bound : ℕ}
    (habove : AgreeAbove first second bound)
    (hat : prefixScan combine first bound = prefixScan combine second bound) :
    ∀ point, bound ≤ point → prefixScan combine first point = prefixScan combine second point := by
  intro point hle
  induction point, hle using Nat.le_induction with
  | base => exact hat
  | succ point hle ih =>
      rw [prefixScan, prefixScan, habove (point + 1) (by omega), ih]

/-- Writing strictly above a point does not change the scan at it. -/
theorem prefixScan_update_of_lt (data : ℕ → Option α) {written point : ℕ}
    (hlt : point < written) (value : Option α) :
    prefixScan combine (Function.update data written value) point =
      prefixScan combine data point := by
  induction point with
  | zero => simp [prefixScan, Function.update_of_ne (Nat.ne_of_lt hlt)]
  | succ point ih =>
      rw [prefixScan, prefixScan, Function.update_of_ne (Nat.ne_of_lt hlt), ih (by omega)]

/-- A drain empties its range and leaves every other point alone. -/
theorem drainRange_snd (data : ℕ → Option α) (start count point : ℕ) :
    (drainRange combine data start count).2 point =
      if start ≤ point ∧ point < start + count then none else data point := by
  induction count with
  | zero =>
      have hout : ¬(start ≤ point ∧ point < start + 0) := by omega
      rw [if_neg hout]
      rfl
  | succ count ih =>
      by_cases hlast : point = start + count
      · subst hlast
        simp [drainRange]
      · show Function.update (drainRange combine data start count).2 (start + count) none point = _
        rw [Function.update_of_ne hlast, ih]
        by_cases hin : start ≤ point ∧ point < start + count
        · rw [if_pos hin, if_pos (by omega)]
        · rw [if_neg hin, if_neg (by omega)]

/-- After a drain from above the empty part, nothing is left below its end. -/
theorem NoneBelow.drainRange {data : ℕ → Option α} {start : ℕ}
    (hnone : NoneBelow data start) (count : ℕ) :
    NoneBelow (drainRange combine data start count).2 (start + count) := by
  intro point hlt
  rw [drainRange_snd]
  by_cases hin : start ≤ point
  · rw [if_pos ⟨hin, hlt⟩]
  · rw [if_neg (by omega)]
    exact hnone point (by omega)

/-- A drain leaves the points from the end of its range on as they were. -/
theorem drainRange_snd_of_le (data : ℕ → Option α) {start count point : ℕ}
    (hle : start + count ≤ point) :
    (drainRange combine data start count).2 point = data point := by
  rw [drainRange_snd, if_neg (by omega)]

section Skip

-- the combinations that skip empty points: `none` is a left identity
variable (hskip : ∀ value, combine none value = value)
include hskip

theorem prefixScan_eq_none {data : ℕ → Option α} {point : ℕ}
    (hnone : ∀ below, below ≤ point → data below = none) :
    prefixScan combine data point = none := by
  induction point with
  | zero => exact hnone 0 le_rfl
  | succ point ih =>
      rw [prefixScan, hnone (point + 1) le_rfl, ih fun below hle => hnone below (by omega),
        hskip]

/-- With nothing below `bound`, the scan at `bound` reads `bound` itself. -/
theorem prefixScan_of_noneBelow {data : ℕ → Option α} {bound : ℕ}
    (hnone : NoneBelow data bound) : prefixScan combine data bound = data bound := by
  cases bound with
  | zero => rfl
  | succ bound =>
      have hbelow : prefixScan combine data bound = none :=
        prefixScan_eq_none hskip fun below hle => hnone below (by omega)
      rw [prefixScan, hbelow, hskip]

/-- Draining a range from above the empty part accumulates exactly the scan
below its end: the scan at the end combines the drained value with the end. -/
theorem prefixScan_drainRange {data : ℕ → Option α} {start : ℕ}
    (hnone : NoneBelow data start) (count : ℕ) :
    prefixScan combine data (start + count) =
      combine (drainRange combine data start count).1 (data (start + count)) := by
  induction count with
  | zero => rw [Nat.add_zero, prefixScan_of_noneBelow hskip hnone, drainRange, hskip]
  | succ count ih =>
      have hkept : (drainRange combine data start count).2 (start + count) =
          data (start + count) := drainRange_snd_of_le data le_rfl
      rw [← Nat.add_assoc, prefixScan, ih, drainRange]
      simp only [hkept]

end Skip

end Scan

/-! ## The value at the greatest point -/

/-- Keep the newer of the accumulated value and the current one. -/
def keepLatest (latest current : Option α) : Option α := current.or latest

/-- The value at the greatest point at or below `point` that holds one. -/
def lastAtOrBelow (data : ℕ → Option α) : ℕ → Option α := prefixScan keepLatest data

@[simp] theorem keepLatest_none_left (current : Option α) : keepLatest none current = current :=
  Option.or_none

/-- Writing a value at a point makes the scan there read it. -/
theorem lastAtOrBelow_update_self (data : ℕ → Option α) (point : ℕ) (value : α) :
    lastAtOrBelow (Function.update data point (some value)) point = some value := by
  cases point with
  | zero => simp [lastAtOrBelow, prefixScan]
  | succ point => simp [lastAtOrBelow, prefixScan, keepLatest]

/-- The scan reads the value at the greatest point at or below `point` that
holds one. -/
theorem lastAtOrBelow_eq_some_iff (data : ℕ → Option α) (point : ℕ) (value : α) :
    lastAtOrBelow data point = some value ↔
      ∃ written ≤ point, data written = some value ∧
        ∀ later, written < later → later ≤ point → data later = none := by
  induction point with
  | zero =>
      constructor
      · intro hzero
        exact ⟨0, le_rfl, hzero, fun later hlt hle => absurd hle (by omega)⟩
      · rintro ⟨written, hle, hwritten, -⟩
        obtain rfl : written = 0 := by omega
        exact hwritten
  | succ point ih =>
      have hstep : lastAtOrBelow data (point + 1) =
          (data (point + 1)).or (lastAtOrBelow data point) := rfl
      cases htop : data (point + 1) with
      | some top =>
          rw [hstep, htop, Option.some_or, Option.some_inj]
          constructor
          · rintro rfl
            exact ⟨point + 1, le_rfl, htop, fun later hlt hle => absurd hle (by omega)⟩
          · rintro ⟨written, hle, hwritten, hlater⟩
            rcases Nat.lt_or_ge written (point + 1) with hlt | hge
            · rw [hlater (point + 1) hlt le_rfl] at htop
              cases htop
            · obtain rfl : written = point + 1 := by omega
              rw [htop] at hwritten
              exact Option.some_inj.mp hwritten
      | none =>
          rw [hstep, htop, Option.none_or, ih]
          constructor
          · rintro ⟨written, hle, hwritten, hlater⟩
            refine ⟨written, by omega, hwritten, fun later hlt hle' => ?_⟩
            rcases Nat.lt_or_ge later (point + 1) with hbelow | htop'
            · exact hlater later hlt (by omega)
            · obtain rfl : later = point + 1 := by omega
              exact htop
          · rintro ⟨written, hle, hwritten, hlater⟩
            have hne : written ≠ point + 1 := by
              rintro rfl
              rw [htop] at hwritten
              cases hwritten
            exact ⟨written, by omega, hwritten, fun later hlt hle' => hlater later hlt (by omega)⟩

/-! ## The sum at or below a point -/

section Sum

variable [AddCommMonoid α]

/-- Add the current value to the accumulated sum, if either exists. -/
def addUp (sum current : Option α) : Option α := sum.merge (· + ·) current

/-- The sum of the values at or below `point`, added in increasing order of
their points; `none` when there are none. -/
def sumAtOrBelow (data : ℕ → Option α) : ℕ → Option α := prefixScan addUp data

@[simp] theorem addUp_none_left (current : Option α) : addUp none current = current := by
  cases current <;> rfl

theorem addUp_getD (sum current : Option α) :
    (addUp sum current).getD 0 = sum.getD 0 + current.getD 0 := by
  cases sum <;> cases current <;> simp [addUp]

/-- Adding to the value at a point adds to the sum at it. -/
theorem sumAtOrBelow_update_add_self (data : ℕ → Option α) (point : ℕ) (added : α) :
    sumAtOrBelow (Function.update data point (some ((data point).getD 0 + added))) point =
      addUp (sumAtOrBelow data point) (some added) := by
  have hassoc : ∀ sum current : Option α,
      addUp sum (some (current.getD 0 + added)) = addUp (addUp sum current) (some added) := by
    intro sum current
    cases sum <;> cases current <;> simp [addUp, add_assoc]
  cases point with
  | zero => simpa [sumAtOrBelow, prefixScan] using hassoc none (data 0)
  | succ point =>
      rw [sumAtOrBelow, sumAtOrBelow, prefixScan_succ, prefixScan_succ, Function.update_self,
        prefixScan_update_of_lt data (Nat.lt_succ_self point), hassoc]

/-- The scan adds up every value at or below `point`. -/
theorem sumAtOrBelow_getD (data : ℕ → Option α) (point : ℕ) :
    (sumAtOrBelow data point).getD 0 = ∑ below ∈ Finset.range (point + 1), (data below).getD 0 := by
  induction point with
  | zero => simp [sumAtOrBelow, prefixScan]
  | succ point ih =>
      rw [Finset.sum_range_succ, ← ih]
      exact addUp_getD _ _

/-- The sum is `none` exactly when nothing is stored at or below `point`. -/
theorem sumAtOrBelow_eq_none_iff (data : ℕ → Option α) (point : ℕ) :
    sumAtOrBelow data point = none ↔ ∀ below, below ≤ point → data below = none := by
  constructor
  · intro hnone
    induction point with
    | zero =>
        intro below hle
        obtain rfl : below = 0 := by omega
        exact hnone
    | succ point ih =>
        have hboth : sumAtOrBelow data point = none ∧ data (point + 1) = none := by
          change addUp (sumAtOrBelow data point) (data (point + 1)) = none at hnone
          cases hsum : sumAtOrBelow data point <;> cases htop : data (point + 1) <;>
            simp_all [addUp]
        intro below hle
        rcases Nat.lt_or_ge below (point + 1) with hlt | hge
        · exact ih hboth.1 below (by omega)
        · obtain rfl : below = point + 1 := by omega
          exact hboth.2
  · exact prefixScan_eq_none addUp_none_left

end Sum

end Namada.Math
