/-
# Epoched data of `namada_proof_of_stake`

`epoched.rs` keeps a value per epoch under a storage prefix: the epoch of the
last update, the oldest epoch that still holds data, and a lazy map from
epochs to data. `Epoched` reads the value at the nearest written epoch at or
below the one asked for; `EpochedDelta` stores changes and reads their sum.
Every write first trims the history: epochs more than `PastEpochs` before the
current one are removed, and what they held is carried to the new oldest
epoch, as the latest value (`Epoched`) or added to it (`EpochedDelta`).

The handles are generic in `FutureEpochs` and `PastEpochs`; their values for
the parameters at hand are the arguments `future` and `past` here. Epochs are
natural numbers and the lazy map is a partial function on them. The source's `checked!` additions of
`EpochedDelta` are the additions of a commutative monoid: the model does not
overflow, and `unwrap_or_default` is `getD 0`.
-/

import Namada.Math.PrefixScan

namespace Namada.ProofOfStake

open Namada.Math

/-- What an epoched handle stores under its prefix. -/
structure EpochedStorage (α : Type) where
  /-- `last_update`: the epoch of the most recent update. -/
  lastUpdate : Option ℕ
  /-- `oldest_epoch`: the oldest epoch with some data. -/
  oldestEpoch : Option ℕ
  /-- `lazy_map`: the data at each epoch. -/
  data : ℕ → Option α

namespace EpochedStorage

variable {α : Type}

/-- Nothing written under the prefix yet. -/
def empty : EpochedStorage α := ⟨none, none, fun _ => none⟩

/-- `sub_past_epochs`: the epoch `past` epochs back, or genesis. -/
def subPastEpochs (past : Nat) (epoch : ℕ) : ℕ := epoch - past

/-- `init_at_genesis`, shared by both handles: record the genesis epoch as the
last update and the oldest epoch, and the value at it. -/
def initAtGenesis (storage : EpochedStorage α) (value : α) (currentEpoch : ℕ) :
    EpochedStorage α :=
  { lastUpdate := some currentEpoch, oldestEpoch := some currentEpoch,
    data := Function.update storage.data currentEpoch (some value) }

/-- `set_at_epoch`, shared by both handles: write at `current_epoch + offset`. -/
def setAtEpoch (storage : EpochedStorage α) (value : α) (currentEpoch : ℕ) (offset : Nat) :
    EpochedStorage α :=
  { storage with data := Function.update storage.data (currentEpoch + offset) (some value) }

/-- The branch of both `update_data`s that does not trim: record the current
epoch as the last update and, if there was none, as the oldest epoch. -/
def touch (storage : EpochedStorage α) (currentEpoch : ℕ) : EpochedStorage α :=
  { storage with
    lastUpdate := some currentEpoch
    oldestEpoch := storage.oldestEpoch.or (some currentEpoch) }

variable {storage : EpochedStorage α} {currentEpoch : ℕ}

@[simp] theorem touch_lastUpdate : (storage.touch currentEpoch).lastUpdate = some currentEpoch :=
  rfl

@[simp] theorem touch_oldestEpoch :
    (storage.touch currentEpoch).oldestEpoch = storage.oldestEpoch.or (some currentEpoch) := rfl

@[simp] theorem touch_data : (storage.touch currentEpoch).data = storage.data := rfl

@[simp] theorem setAtEpoch_lastUpdate (value : α) (offset : Nat) :
    (storage.setAtEpoch value currentEpoch offset).lastUpdate = storage.lastUpdate := rfl

@[simp] theorem setAtEpoch_oldestEpoch (value : α) (offset : Nat) :
    (storage.setAtEpoch value currentEpoch offset).oldestEpoch = storage.oldestEpoch := rfl

@[simp] theorem setAtEpoch_data (value : α) (offset : Nat) :
    (storage.setAtEpoch value currentEpoch offset).data =
      Function.update storage.data (currentEpoch + offset) (some value) := rfl

end EpochedStorage

namespace Epoched

open EpochedStorage

variable {α : Type}

/-- The downward loop of `Epoched::get`: from `epoch`, step down while nothing
is stored there, and give up at epoch `0` or at `bound`. -/
def getFrom (data : ℕ → Option α) (bound : ℕ) : ℕ → Option α
  | 0 => data 0
  | epoch + 1 =>
      match data (epoch + 1) with
      | some value => some value
      | none => if bound < epoch + 1 then getFrom data bound epoch else none

/-- `Epoched::get`: the value at the given epoch or the nearest epoch before it,
looking no further forward than `future` epochs past the last update and no
further back than `past` epochs before it. -/
def get (past future : Nat) (storage : EpochedStorage α) (epoch : ℕ) : Option α :=
  match storage.lastUpdate with
  | none => none
  | some lastUpdate =>
      getFrom storage.data (subPastEpochs past lastUpdate) (min epoch (lastUpdate + future))

/-- From a bound with nothing stored below it, the downward loop finds the
value at the greatest written epoch. -/
theorem getFrom_eq_lastAtOrBelow {data : ℕ → Option α} {bound : ℕ}
    (hnone : NoneBelow data bound) :
    ∀ epoch, bound ≤ epoch → getFrom data bound epoch = lastAtOrBelow data epoch := by
  intro epoch hle
  induction epoch, hle using Nat.le_induction with
  | base =>
      -- the loop stops at the bound, and nothing lies below it
      rw [lastAtOrBelow, prefixScan_of_noneBelow keepLatest_none_left hnone]
      cases bound with
      | zero => rfl
      | succ bound => cases hat : data (bound + 1) <;> simp [getFrom, hat]
  | succ epoch hle ih =>
      have hstep : lastAtOrBelow data (epoch + 1) =
          keepLatest (lastAtOrBelow data epoch) (data (epoch + 1)) := rfl
      have hlt : bound < epoch + 1 := by omega
      cases hat : data (epoch + 1) with
      | none => simp [getFrom, hat, hstep, ih, hlt, keepLatest]
      | some value => simp [getFrom, hat, hstep, keepLatest]

/-- Read from storage whose data starts at the kept bound, `get` is the scan
up to the requested epoch, capped `future` epochs past the last update. -/
theorem get_eq_lastAtOrBelow {past future : Nat} {storage : EpochedStorage α}
    {lastUpdate epoch : ℕ} (hlu : storage.lastUpdate = some lastUpdate)
    (hnone : NoneBelow storage.data (lastUpdate - past)) (hle : lastUpdate - past ≤ epoch) :
    get past future storage epoch = lastAtOrBelow storage.data (min epoch (lastUpdate + future)) := by
  have hbound : lastUpdate - past ≤ min epoch (lastUpdate + future) := by omega
  unfold get
  rw [hlu]
  exact getFrom_eq_lastAtOrBelow hnone _ hbound

/-- The removal loop of `Epoched::update_data` over `start.iter_range(count)`:
remove each epoch in turn; a removed value replaces the latest one kept. -/
def trimLatest (data : ℕ → Option α) (start count : Nat) : Option α × (ℕ → Option α) :=
  drainRange keepLatest data start count

/-- `Epoched::update_data`: drop the values before the oldest epoch to keep;
if any was dropped, the latest of them moves to the new oldest epoch unless
that epoch holds a value, and the oldest epoch advances. -/
def updateData (past : Nat) (storage : EpochedStorage α) (currentEpoch : ℕ) :
    EpochedStorage α :=
  match storage.lastUpdate, storage.oldestEpoch with
  | some _, some oldestEpoch =>
      let oldestToKeep := currentEpoch - past
      if oldestEpoch < oldestToKeep then
        let trimmed := trimLatest storage.data oldestEpoch (oldestToKeep - oldestEpoch)
        match trimmed.1 with
        | some latestValue =>
            let newOldestEpoch := subPastEpochs past currentEpoch
            { lastUpdate := some currentEpoch, oldestEpoch := some newOldestEpoch,
              data :=
                if (trimmed.2 newOldestEpoch).isNone then
                  Function.update trimmed.2 newOldestEpoch (some latestValue)
                else trimmed.2 }
        | none => { storage with data := trimmed.2, lastUpdate := some currentEpoch }
      else storage.touch currentEpoch
  | _, _ => storage.touch currentEpoch

section UpdateData

variable {past : Nat} {storage : EpochedStorage α} {lastUpdate oldest currentEpoch : ℕ}

/-- When the oldest epoch is still kept, `update_data` only records the update. -/
theorem updateData_of_le (hlu : storage.lastUpdate = some lastUpdate)
    (ho : storage.oldestEpoch = some oldest) (hle : currentEpoch - past ≤ oldest) :
    updateData past storage currentEpoch = storage.touch currentEpoch := by
  simp [updateData, hlu, ho, Nat.not_lt.mpr hle]

/-- When the oldest epoch falls out of the kept range, `update_data` drains the
epochs before the kept bound and keeps the latest drained value at the bound
unless it holds one; the oldest epoch ends at or below the bound. -/
theorem updateData_of_lt (hlu : storage.lastUpdate = some lastUpdate)
    (ho : storage.oldestEpoch = some oldest) (hlt : oldest < currentEpoch - past) :
    (updateData past storage currentEpoch).lastUpdate = some currentEpoch ∧
      (∃ newOldest, (updateData past storage currentEpoch).oldestEpoch = some newOldest ∧
        newOldest ≤ currentEpoch - past) ∧
      (updateData past storage currentEpoch).data =
        Function.update (trimLatest storage.data oldest (currentEpoch - past - oldest)).2
          (currentEpoch - past)
          (keepLatest (trimLatest storage.data oldest (currentEpoch - past - oldest)).1
            ((trimLatest storage.data oldest (currentEpoch - past - oldest)).2
              (currentEpoch - past))) := by
  simp only [updateData, hlu, ho, if_pos hlt]
  cases hlatest : (trimLatest storage.data oldest (currentEpoch - past - oldest)).1 with
  | none =>
      -- nothing was drained: the oldest epoch stays and the data is the drained map
      refine ⟨rfl, ⟨oldest, rfl, hlt.le⟩, ?_⟩
      simp [keepLatest]
  | some latestValue =>
      refine ⟨rfl, ⟨currentEpoch - past, rfl, le_rfl⟩, ?_⟩
      cases hkept : (trimLatest storage.data oldest (currentEpoch - past - oldest)).2
          (currentEpoch - past) with
      | none => simp [subPastEpochs, hkept, keepLatest]
      | some kept =>
          -- the kept epoch already holds a value, which stays
          simp only [subPastEpochs, hkept, Option.isNone_some, keepLatest, Option.some_or]
          rw [← hkept, Function.update_eq_self]
          rfl

end UpdateData

/-- `Epoched::set`: trim, then write at `current_epoch + offset`. -/
def set (past : Nat) (storage : EpochedStorage α) (value : α) (currentEpoch : ℕ)
    (offset : Nat) : EpochedStorage α :=
  (updateData past storage currentEpoch).setAtEpoch value currentEpoch offset

end Epoched

namespace EpochedDelta

open EpochedStorage

variable {α : Type} [AddCommMonoid α]

/-- `EpochedDelta::get_delta_val`: the delta stored at an epoch. -/
def getDeltaVal (storage : EpochedStorage α) (epoch : ℕ) : Option α := storage.data epoch

/-- The upward loop of `EpochedDelta::get_sum` over `count` epochs from `start`. -/
def sumFrom (data : ℕ → Option α) (start : ℕ) : Nat → Option α
  | 0 => none
  | count + 1 => addUp (sumFrom data start count) (data (start + count))

/-- From a start with nothing stored below it, the upward loop adds up every
delta at or below its last epoch. -/
theorem sumFrom_succ {data : ℕ → Option α} {start : ℕ} (hnone : NoneBelow data start)
    (count : Nat) : sumFrom data start (count + 1) = sumAtOrBelow data (start + count) := by
  induction count with
  | zero => simp [sumFrom, sumAtOrBelow, prefixScan_of_noneBelow addUp_none_left hnone]
  | succ count ih =>
      rw [sumFrom, ih, ← Nat.add_assoc]
      rfl

/-- `EpochedDelta::get_sum`: the sum of the deltas up through the given epoch,
over the epochs from `past` before the last update to at most `future` after
it. -/
def getSum (past future : Nat) (storage : EpochedStorage α) (epoch : ℕ) : Option α :=
  match storage.lastUpdate with
  | none => none
  | some lastUpdate =>
      let startEpoch := subPastEpochs past lastUpdate
      let epoch := min epoch (lastUpdate + future)
      sumFrom storage.data startEpoch (epoch + 1 - startEpoch)

/-- Read from storage whose data starts at the kept bound, `get_sum` is the sum
up to the requested epoch, capped `future` epochs past the last update. -/
theorem getSum_eq_sumAtOrBelow {past future : Nat} {storage : EpochedStorage α}
    {lastUpdate epoch : ℕ} (hlu : storage.lastUpdate = some lastUpdate)
    (hnone : NoneBelow storage.data (lastUpdate - past)) (hle : lastUpdate - past ≤ epoch) :
    getSum past future storage epoch = sumAtOrBelow storage.data (min epoch (lastUpdate + future)) := by
  have hcount : min epoch (lastUpdate + future) + 1 - (lastUpdate - past) =
      (min epoch (lastUpdate + future) - (lastUpdate - past)) + 1 := by omega
  have hend : lastUpdate - past + (min epoch (lastUpdate + future) - (lastUpdate - past)) =
      min epoch (lastUpdate + future) := by omega
  simp only [getSum, hlu, subPastEpochs, hcount]
  rw [sumFrom_succ hnone, hend]

/-- The removal loop of `EpochedDelta::update_data` over `start.iter_range(count)`:
remove each epoch in turn, adding up what was removed. -/
def trimSum (data : ℕ → Option α) (start count : Nat) : Option α × (ℕ → Option α) :=
  drainRange addUp data start count

/-- `EpochedDelta::update_data`: drop the deltas before the oldest epoch to keep
and add their sum to the new oldest epoch, which then becomes the oldest. -/
def updateData (past : Nat) (storage : EpochedStorage α) (currentEpoch : ℕ) :
    EpochedStorage α :=
  match storage.lastUpdate, storage.oldestEpoch with
  | some _, some oldestEpoch =>
      let oldestToKeep := currentEpoch - past
      if oldestEpoch < oldestToKeep then
        let trimmed := trimSum storage.data oldestEpoch (oldestToKeep - oldestEpoch)
        match trimmed.1 with
        | some sum =>
            let newOldestEpoch := subPastEpochs past currentEpoch
            let newOldestEpochData :=
              match trimmed.2 newOldestEpoch with
              | some oldestEpochData => oldestEpochData + sum
              | none => sum
            { lastUpdate := some currentEpoch, oldestEpoch := some newOldestEpoch,
              data := Function.update trimmed.2 newOldestEpoch (some newOldestEpochData) }
        | none => { storage with data := trimmed.2, lastUpdate := some currentEpoch }
      else storage.touch currentEpoch
  | _, _ => storage.touch currentEpoch

section UpdateData

variable {past : Nat} {storage : EpochedStorage α} {lastUpdate oldest currentEpoch : ℕ}

/-- When the oldest epoch is still kept, `update_data` only records the update. -/
theorem updateData_of_le (hlu : storage.lastUpdate = some lastUpdate)
    (ho : storage.oldestEpoch = some oldest) (hle : currentEpoch - past ≤ oldest) :
    updateData past storage currentEpoch = storage.touch currentEpoch := by
  simp [updateData, hlu, ho, Nat.not_lt.mpr hle]

/-- When the oldest epoch falls out of the kept range, `update_data` drains the
epochs before the kept bound and adds their sum to the bound; the oldest epoch
ends at or below the bound. -/
theorem updateData_of_lt (hlu : storage.lastUpdate = some lastUpdate)
    (ho : storage.oldestEpoch = some oldest) (hlt : oldest < currentEpoch - past) :
    (updateData past storage currentEpoch).lastUpdate = some currentEpoch ∧
      (∃ newOldest, (updateData past storage currentEpoch).oldestEpoch = some newOldest ∧
        newOldest ≤ currentEpoch - past) ∧
      (updateData past storage currentEpoch).data =
        Function.update (trimSum storage.data oldest (currentEpoch - past - oldest)).2
          (currentEpoch - past)
          (addUp (trimSum storage.data oldest (currentEpoch - past - oldest)).1
            ((trimSum storage.data oldest (currentEpoch - past - oldest)).2
              (currentEpoch - past))) := by
  simp only [updateData, hlu, ho, if_pos hlt]
  cases hsum : (trimSum storage.data oldest (currentEpoch - past - oldest)).1 with
  | none =>
      -- nothing was drained: the oldest epoch stays and the data is the drained map
      refine ⟨rfl, ⟨oldest, rfl, hlt.le⟩, ?_⟩
      simp
  | some sum =>
      refine ⟨rfl, ⟨currentEpoch - past, rfl, le_rfl⟩, ?_⟩
      cases hkept : (trimSum storage.data oldest (currentEpoch - past - oldest)).2
          (currentEpoch - past) <;> simp [subPastEpochs, hkept, addUp, add_comm]

end UpdateData

/-- `EpochedDelta::add`: trim, then add to the delta at `current_epoch + offset`. -/
def add (past : Nat) (storage : EpochedStorage α) (value : α) (currentEpoch : ℕ)
    (offset : Nat) : EpochedStorage α :=
  let updated := updateData past storage currentEpoch
  let curValue := (getDeltaVal updated (currentEpoch + offset)).getD 0
  updated.setAtEpoch (curValue + value) currentEpoch offset

/-- `EpochedDelta::set`: trim, then overwrite the delta at `current_epoch + offset`. -/
def set (past : Nat) (storage : EpochedStorage α) (value : α) (currentEpoch : ℕ)
    (offset : Nat) : EpochedStorage α :=
  (updateData past storage currentEpoch).setAtEpoch value currentEpoch offset

end EpochedDelta

end Namada.ProofOfStake
