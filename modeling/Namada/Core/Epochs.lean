/-
# The epoch of a block height

`Epochs` of `storage.rs` keeps the first block height of each known epoch;
its invariant is that they ascend. `get_epoch` reads a height's epoch from the
table. It skips the first entry and walks the rest, counting one epoch for
every start at or below the height, and stops at the first start above it.
On an ascending table and a height no lower than the first start, the count
is the last epoch that starts at or below the height (`getEpoch_spec`).
`get_start_height_of_epoch` then reads that epoch's start back, and the next
known epoch starts above the height. `get_epoch_start_height`, which scans the
table from the end, finds the same start (`getEpochStartHeight_eq`).

Block heights and epochs are natural numbers. The `BlockHeight(pub u64)` values
are only compared. The epoch counter of `get_epoch` stays below the table's
length, so the `expect` of its `Epoch::next` is never reached.
-/

import Mathlib

namespace Namada.Core

/-- `Epochs`: the first block height of each known epoch, in ascending order. -/
structure Epochs where
  firstBlockHeights : List ℕ
  deriving DecidableEq

namespace Epochs

/-- `Epochs::new_epoch`. -/
def newEpoch (self : Epochs) (blockHeight : ℕ) : Epochs :=
  ⟨self.firstBlockHeights ++ [blockHeight]⟩

/-- The `for` loop of `get_epoch`, over the starts after the first one. -/
def getEpochLoop (blockHeight : ℕ) : ℕ → List ℕ → ℕ
  | epoch, [] => epoch
  | epoch, nextBlockHeight :: rest =>
    if blockHeight < nextBlockHeight then epoch else getEpochLoop blockHeight (epoch + 1) rest

/-- `Epochs::get_epoch`. -/
def getEpoch (self : Epochs) (blockHeight : ℕ) : Option ℕ :=
  match self.firstBlockHeights with
  | [] => none
  | _ :: rest => some (getEpochLoop blockHeight 0 rest)

/-- `Epochs::get_epoch_start_height`: the last start at or below `height`. -/
def getEpochStartHeight (self : Epochs) (height : ℕ) : Option ℕ :=
  self.firstBlockHeights.reverse.find? (· ≤ height)

/-- `Epochs::get_start_height_of_epoch`. -/
def getStartHeightOfEpoch (self : Epochs) (epoch : ℕ) : Option ℕ :=
  if self.firstBlockHeights.length < epoch then none else self.firstBlockHeights[epoch]?

/-! ## The loop -/

theorem getEpochLoop_succ (blockHeight epoch : ℕ) (rest : List ℕ) :
    getEpochLoop blockHeight (epoch + 1) rest = getEpochLoop blockHeight epoch rest + 1 := by
  induction rest generalizing epoch with
  | nil => rfl
  | cons nextBlockHeight rest ih =>
    simp only [getEpochLoop]
    split
    · rfl
    · exact ih (epoch + 1)

/-- The count of the loop, started at a start `first` no higher than the block's,
indexes the last start at or below the block's in the ascending table
`first :: rest`. -/
theorem getEpochLoop_spec {blockHeight first : ℕ} {rest : List ℕ}
    (hsorted : (first :: rest).Pairwise (· ≤ ·)) (hfirst : first ≤ blockHeight) :
    ∃ hlt : getEpochLoop blockHeight 0 rest < (first :: rest).length,
      (first :: rest)[getEpochLoop blockHeight 0 rest] ≤ blockHeight ∧
        ∀ (later : ℕ) (hlater : later < (first :: rest).length),
          getEpochLoop blockHeight 0 rest < later → blockHeight < (first :: rest)[later] := by
  -- induction on the walked starts, the start before them in the role of `first`
  induction rest generalizing first with
  | nil =>
    refine ⟨Nat.zero_lt_one, hfirst, fun later hlater hpos => ?_⟩
    simp only [List.length_singleton] at hlater
    omega
  | cons nextBlockHeight rest ih =>
    obtain ⟨-, htail⟩ := List.pairwise_cons.mp hsorted
    by_cases hnext : blockHeight < nextBlockHeight
    · -- the loop stops at once: every later start is at least the next one
      simp only [getEpochLoop, if_pos hnext]
      refine ⟨by simp, hfirst, fun later hlater hpos => ?_⟩
      obtain ⟨later, rfl⟩ : ∃ previous, later = previous + 1 := ⟨later - 1, by omega⟩
      rw [List.getElem_cons_succ]
      cases later with
      | zero => exact hnext
      | succ later =>
        have hge := List.rel_of_pairwise_cons htail (List.getElem_mem (by simpa using hlater))
        rw [List.getElem_cons_succ]
        omega
    · -- the loop counts the next start and goes on from it
      simp only [getEpochLoop, if_neg hnext, getEpochLoop_succ]
      obtain ⟨hlt, hle, habove⟩ := ih htail (by omega)
      refine ⟨by simpa using hlt, by simpa using hle, fun later hlater hpos => ?_⟩
      obtain ⟨later, rfl⟩ : ∃ previous, later = previous + 1 := ⟨later - 1, by omega⟩
      rw [List.getElem_cons_succ]
      exact habove later (by simpa using hlater) (by omega)

/-! ## Reading the table -/

/-- The bound check of `get_start_height_of_epoch` never decides: an epoch one
past the table passes it and is then out of range. -/
theorem getStartHeightOfEpoch_eq (self : Epochs) (epoch : ℕ) :
    self.getStartHeightOfEpoch epoch = self.firstBlockHeights[epoch]? := by
  rw [getStartHeightOfEpoch]
  split
  · rw [List.getElem?_eq_none (by omega)]
  · rfl

/-- On an ascending table and a height no lower than the first start,
`get_epoch` gives the last epoch that starts at or below the height. -/
theorem getEpoch_spec {self : Epochs} (hsorted : self.firstBlockHeights.Pairwise (· ≤ ·))
    {blockHeight : ℕ} (hlen : 0 < self.firstBlockHeights.length)
    (hfirst : self.firstBlockHeights[0] ≤ blockHeight) :
    ∃ (epoch : ℕ) (hlt : epoch < self.firstBlockHeights.length),
      self.getEpoch blockHeight = some epoch ∧ self.firstBlockHeights[epoch] ≤ blockHeight ∧
        ∀ (later : ℕ) (hlater : later < self.firstBlockHeights.length),
          epoch < later → blockHeight < self.firstBlockHeights[later] := by
  obtain ⟨heights⟩ := self
  cases heights with
  | nil => simp at hlen
  | cons first rest =>
    obtain ⟨hlt, hle, habove⟩ := getEpochLoop_spec hsorted hfirst
    exact ⟨getEpochLoop blockHeight 0 rest, hlt, rfl, hle, habove⟩

/-- A scan from the end for a start at or below `height` finds the start at
`epoch` when that start is at or below the height and every later one above it. -/
theorem find?_reverse_eq {heights : List ℕ} {height epoch : ℕ} (hlt : epoch < heights.length)
    (hle : heights[epoch] ≤ height)
    (habove : ∀ (later : ℕ) (hlater : later < heights.length), epoch < later → height < heights[later]) :
    heights.reverse.find? (· ≤ height) = some heights[epoch] := by
  -- the table is the starts up to `epoch`, which end in it, and those after it
  have hsplit : heights = heights.take epoch ++ heights[epoch] :: heights.drop (epoch + 1) := by
    conv_lhs => rw [← List.take_append_drop epoch heights, List.drop_eq_getElem_cons hlt]
  have hafter : ∀ later ∈ heights.drop (epoch + 1), ¬later ≤ height := by
    intro later hmem
    obtain ⟨index, hindex, rfl⟩ := List.getElem_of_mem hmem
    rw [List.getElem_drop]
    have := habove (epoch + 1 + index) (by simp at hindex; omega) (by omega)
    omega
  calc heights.reverse.find? (· ≤ height)
      = (heights.take epoch ++ heights[epoch] :: heights.drop (epoch + 1)).reverse.find? (· ≤ height) :=
        congrArg (fun entries => entries.reverse.find? (· ≤ height)) hsplit
    _ = some heights[epoch] := by
      rw [List.reverse_append, List.reverse_cons, List.append_assoc, List.find?_append,
        List.find?_eq_none.mpr (by simpa using hafter), Option.none_or, List.find?_append,
        List.find?_singleton, if_pos (by simpa using hle)]
      rfl

/-- `get_epoch_start_height` finds the start of the epoch that `get_epoch` gives. -/
theorem getEpochStartHeight_eq {self : Epochs} (hsorted : self.firstBlockHeights.Pairwise (· ≤ ·))
    {blockHeight epoch : ℕ} (hlen : 0 < self.firstBlockHeights.length)
    (hfirst : self.firstBlockHeights[0] ≤ blockHeight) (hepoch : self.getEpoch blockHeight = some epoch) :
    self.getEpochStartHeight blockHeight = self.getStartHeightOfEpoch epoch := by
  obtain ⟨found, hlt, hget, hle, habove⟩ := getEpoch_spec hsorted hlen hfirst
  obtain rfl : found = epoch := Option.some.inj (hget.symm.trans hepoch)
  rw [getEpochStartHeight, find?_reverse_eq hlt hle habove, getStartHeightOfEpoch_eq,
    List.getElem?_eq_getElem hlt]

/-! ## Inverting the table -/

/-- `get_epoch` inverts the epoch start table: on an ascending table, a height no
lower than the first start has the last epoch that starts at or below it; that
epoch's start, read back, is at or below the height, and the next known epoch
starts above it. -/
theorem getEpoch_inverts_start_table (self : Epochs) (hsorted : self.firstBlockHeights.Pairwise (· ≤ ·))
    (blockHeight : ℕ) (hlen : 0 < self.firstBlockHeights.length)
    (hfirst : self.firstBlockHeights[0] ≤ blockHeight) :
    ∃ (epoch : ℕ) (hlt : epoch < self.firstBlockHeights.length),
      self.getEpoch blockHeight = some epoch ∧
        (self.firstBlockHeights[epoch] ≤ blockHeight ∧
          ∀ (later : ℕ) (hlater : later < self.firstBlockHeights.length),
            epoch < later → blockHeight < self.firstBlockHeights[later]) ∧
        (∃ start, self.getStartHeightOfEpoch epoch = some start ∧ start ≤ blockHeight) ∧
        ∀ next, self.getStartHeightOfEpoch (epoch + 1) = some next → blockHeight < next := by
  obtain ⟨epoch, hlt, hget, hle, habove⟩ := getEpoch_spec hsorted hlen hfirst
  refine ⟨epoch, hlt, hget, ⟨hle, habove⟩, ⟨_, ?_, hle⟩, fun next hnext => ?_⟩
  · rw [getStartHeightOfEpoch_eq, List.getElem?_eq_getElem hlt]
  · -- a known next epoch is inside the table, past the last start at or below the height
    rw [getStartHeightOfEpoch_eq] at hnext
    obtain ⟨hnextLt, rfl⟩ := List.getElem?_eq_some_iff.mp hnext
    exact habove (epoch + 1) hnextLt (Nat.lt_succ_self epoch)

/-- Three epochs starting at heights 0, 10 and 20: height 15 is in epoch 1. -/
def threeEpochs : Epochs := ⟨[0, 10, 20]⟩

theorem getEpoch_inverts_start_table_at_fifteen :
    threeEpochs.firstBlockHeights.Pairwise (· ≤ ·) ∧ 0 < threeEpochs.firstBlockHeights.length ∧
      threeEpochs.firstBlockHeights[0] ≤ 15 ∧
      ∃ (epoch : ℕ) (hlt : epoch < threeEpochs.firstBlockHeights.length),
        threeEpochs.getEpoch 15 = some epoch ∧
          (threeEpochs.firstBlockHeights[epoch] ≤ 15 ∧
            ∀ (later : ℕ) (hlater : later < threeEpochs.firstBlockHeights.length),
              epoch < later → 15 < threeEpochs.firstBlockHeights[later]) ∧
          (∃ start, threeEpochs.getStartHeightOfEpoch epoch = some start ∧ start ≤ 15) ∧
          ∀ next, threeEpochs.getStartHeightOfEpoch (epoch + 1) = some next → 15 < next := by
  have hfirst : threeEpochs.firstBlockHeights[0] ≤ 15 := by decide
  have hsorted : threeEpochs.firstBlockHeights.Pairwise (· ≤ ·) := by decide
  have hlen : 0 < threeEpochs.firstBlockHeights.length := by decide
  exact ⟨hsorted, hlen, hfirst, getEpoch_inverts_start_table threeEpochs hsorted 15 hlen hfirst⟩

example : threeEpochs.getEpoch 15 = some 1 := rfl

end Epochs

end Namada.Core
