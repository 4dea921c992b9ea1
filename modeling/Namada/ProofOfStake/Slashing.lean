/-
# Slashed amounts on the ledger and on the query path

`apply_list_slashes` (used by unbond, withdraw and `bond_amount`) and
`get_slashed_amount` (used by the bonds and unbonds queries) both slash an
amount by the slashes of a validator, ascending by infraction epoch. Each slash
takes its rate, rounded up, of the amount less what the slashes processed
before it occurred took; a slash at epoch `e` is processed at
`e + slash_processing_epoch_offset`. The first keeps every slashed amount and
refolds the processed ones from the original amount at each slash; the second
takes a processed amount off once and drops it from its list.

Both compute the same base for every slash, so the same slashed amounts
(`applySlash_getSlash_lockstep`). They part in two places only.
`get_slashed_amount` adds up the slashed amounts it still holds with a checked
sum, which fails ("token amount overflow") where `apply_list_slashes` returns
a value. And where an epoch plus the offset leaves `u64`, `apply_list_slashes`
panics (`Epoch::unchecked_add`) and `get_slashed_amount` returns an error
(`checked!`). Epochs are natural numbers here, checked against `u64::MAX` in
the additions where the two differ.
-/

import Namada.Core.Dec
import Namada.Math.SortedMap
import Namada.Math.Except

namespace Namada.ProofOfStake

open Namada.Core Namada.Math

/-- How the slashing computations stop early. -/
inductive SlashError
  /-- An `arith::Error`: a checked operation out of range. -/
  | arith
  /-- An error made by `ok_or_err_msg`. -/
  | message (text : String)
  /-- A panic. -/
  | panic
  deriving DecidableEq

/-- The fields of `OwnedPosParams` that the slashing computations read. -/
structure OwnedPosParams where
  unbondingLen : ℕ
  cubicSlashingWindowLength : ℕ

/-- A `u64` addition that fails with `failure` past `u64::MAX`. -/
def addU64 (failure : SlashError) (first second : ℕ) : Except SlashError ℕ :=
  if first + second < 2 ^ 64 then .ok (first + second) else .error failure

/-- `Epoch::unchecked_add`, whose `expect` panics on overflow. -/
def epochUncheckedAdd (epoch offset : ℕ) : Except SlashError ℕ := addU64 .panic epoch offset

/-- `checked!(epoch + offset)?` on epochs. -/
def epochCheckedAdd (epoch offset : ℕ) : Except SlashError ℕ := addU64 .arith epoch offset

/-- `OwnedPosParams::slash_processing_epoch_offset`:
`unbonding_len + cubic_slashing_window_length + 1`, in `u64` with overflow
checks on. -/
def OwnedPosParams.slashProcessingEpochOffset (params : OwnedPosParams) : Except SlashError ℕ := do
  let window ← addU64 .panic params.unbondingLen params.cubicSlashingWindowLength
  addU64 .panic window 1

/-- A value, or the given error in its place. -/
def orError {α : Type} (failure : SlashError) : Option α → Except SlashError α
  | some value => .ok value
  | none => .error failure

@[simp] theorem orError_some {α : Type} (failure : SlashError) (value : α) :
    orError failure (some value) = .ok value := rfl

@[simp] theorem orError_none {α : Type} (failure : SlashError) :
    orError failure (none : Option α) = .error failure := rfl

/-- `Slash`, with the fields the computations read. -/
structure Slash where
  epoch : ℕ
  rate : Dec

theorem addU64_eq_ok {failure : SlashError} {first second sum : ℕ}
    (hsum : addU64 failure first second = .ok sum) : sum = first + second := by
  unfold addU64 at hsum
  split_ifs at hsum
  cases hsum
  rfl

theorem addU64_of_lt (failure : SlashError) {first second : ℕ} (hfit : first + second < 2 ^ 64) :
    addU64 failure first second = .ok (first + second) := if_pos hfit

theorem addU64_of_not_lt (failure : SlashError) {first second : ℕ} (hfit : ¬first + second < 2 ^ 64) :
    addU64 failure first second = .error failure := if_neg hfit

/-- The offset is at least one: a slash is never processed in its own epoch. -/
theorem one_le_of_slashProcessingEpochOffset {params : OwnedPosParams} {offset : ℕ}
    (hoffset : params.slashProcessingEpochOffset = .ok offset) : 1 ≤ offset := by
  unfold OwnedPosParams.slashProcessingEpochOffset at hoffset
  obtain ⟨window, _, hlast⟩ := bind_eq_ok hoffset
  rw [addU64_eq_ok hlast]
  omega

/-- A failing offset is a panic. -/
theorem slashProcessingEpochOffset_eq_error {params : OwnedPosParams} {err : SlashError}
    (hoffset : params.slashProcessingEpochOffset = .error err) : err = .panic := by
  unfold OwnedPosParams.slashProcessingEpochOffset at hoffset
  unfold addU64 at hoffset
  split_ifs at hoffset <;> first | cases hoffset | skip
  · simp only [ok_bind] at hoffset
    split_ifs at hoffset
    cases hoffset
    rfl
  · rfl

/-! ## `apply_list_slashes` -/

/-- One slashed amount in the fold of `compute_slashable_amount`: it comes off
when it was processed before the slash occurred. -/
def subtractProcessed (params : OwnedPosParams) (slash : Slash) (acc : Amount)
    (entry : ℕ × Amount) : Except SlashError Amount := do
  let offset ← params.slashProcessingEpochOffset
  let processedEpoch ← epochUncheckedAdd entry.1 offset
  pure (if processedEpoch ≤ slash.epoch then acc.subOrZero entry.2 else acc)

/-- `compute_slashable_amount`. -/
def computeSlashableAmount (params : OwnedPosParams) (slash : Slash) (amount : Amount)
    (computedSlashes : SortedMap ℕ Amount) : Except SlashError Amount := do
  let updatedAmount ← computedSlashes.entries.foldlM (subtractProcessed params slash) amount
  orError .arith (updatedAmount.mulCeil slash.rate)

/-- One slash of `apply_list_slashes`: the final amount and `computed_slashes`. -/
def applySlash (params : OwnedPosParams) (amount : Amount) (state : Amount × SortedMap ℕ Amount)
    (slash : Slash) : Except SlashError (Amount × SortedMap ℕ Amount) := do
  let slashedAmount ← computeSlashableAmount params slash amount state.2
  pure (state.1.subOrZero slashedAmount, state.2.insert slash.epoch slashedAmount)

/-- `apply_list_slashes`. -/
def applyListSlashes (params : OwnedPosParams) (slashes : List Slash) (amount : Amount) :
    Except SlashError Amount := do
  let state ← slashes.foldlM (applySlash params amount) (amount, SortedMap.empty)
  pure state.1

/-! ## `get_slashed_amount` -/

/-- `SlashedAmount`. -/
structure SlashedAmount where
  amount : Amount
  epoch : ℕ

/-- The inner loop of `get_slashed_amount`: the slashed amounts processed before
`infractionEpoch` come off the updated amount and leave the list, and the
others stay in order (the source marks their indices and removes them from the
last one down). -/
def removeProcessed (params : OwnedPosParams) (infractionEpoch : ℕ) (updatedAmount : Amount) :
    List SlashedAmount → Except SlashError (Amount × List SlashedAmount)
  | [] => .ok (updatedAmount, [])
  | slashedAmount :: rest => do
      let offset ← params.slashProcessingEpochOffset
      let processedEpoch ← epochCheckedAdd slashedAmount.epoch offset
      if processedEpoch ≤ infractionEpoch then
        removeProcessed params infractionEpoch (updatedAmount.subOrZero slashedAmount.amount) rest
      else do
        let kept ← removeProcessed params infractionEpoch updatedAmount rest
        pure (kept.1, slashedAmount :: kept.2)

/-- One slash of `get_slashed_amount`: `updated_amount` and `computed_amounts`. -/
def getSlash (params : OwnedPosParams) (state : Amount × List SlashedAmount) (slash : ℕ × Dec) :
    Except SlashError (Amount × List SlashedAmount) := do
  let removed ← removeProcessed params slash.1 state.1 state.2
  let slashedAmount ← orError .arith (removed.1.mulCeil slash.2)
  pure (removed.1, removed.2 ++ [⟨slashedAmount, slash.1⟩])

/-- `get_slashed_amount`. -/
def getSlashedAmount (params : OwnedPosParams) (amount : Amount) (slashes : SortedMap ℕ Dec) :
    Except SlashError Amount := do
  let state ← slashes.entries.foldlM (getSlash params) (amount, [])
  let totalComputedAmounts ←
    orError (.message "token amount overflow") (Amount.sum (state.2.map SlashedAmount.amount))
  pure (state.1.subOrZero totalComputedAmounts)

/-! ## What one step computes -/

/-- The total of the slashed amounts of a list of `(epoch, amount)`. -/
def slashedTotal (slashes : List (ℕ × Amount)) : ℕ := (slashes.map fun slash => slash.2.raw.toNat).sum

@[simp] theorem slashedTotal_nil : slashedTotal [] = 0 := rfl

@[simp] theorem slashedTotal_cons (slash : ℕ × Amount) (rest : List (ℕ × Amount)) :
    slashedTotal (slash :: rest) = slash.2.raw.toNat + slashedTotal rest := rfl

@[simp] theorem slashedTotal_append (first second : List (ℕ × Amount)) :
    slashedTotal (first ++ second) = slashedTotal first + slashedTotal second := by
  simp [slashedTotal]

/-- Slashed amounts each at most `bound` total at most `bound` per amount. -/
theorem slashedTotal_le_mul {slashes : List (ℕ × Amount)} {bound : ℕ}
    (hbound : ∀ slash ∈ slashes, slash.2.raw.toNat ≤ bound) : slashedTotal slashes ≤ slashes.length * bound := by
  have hsum := List.sum_le_card_nsmul (slashes.map fun slash => slash.2.raw.toNat) bound fun value hvalue => by
    obtain ⟨slash, hslash, rfl⟩ := List.mem_map.mp hvalue
    exact hbound slash hslash
  simpa [slashedTotal] using hsum

/-- Taking slashed amounts off one by one takes off their total, down to zero. -/
theorem toNat_foldl_subOrZero :
    ∀ (slashes : List (ℕ × Amount)) (acc : Amount),
      (slashes.foldl (fun acc slash => acc.subOrZero slash.2) acc).raw.toNat =
        acc.raw.toNat - slashedTotal slashes
  | [], acc => by simp
  | slash :: rest, acc => by
      rw [List.foldl_cons, toNat_foldl_subOrZero rest, Amount.toNat_subOrZero, slashedTotal_cons]
      omega

section Steps

variable {params : OwnedPosParams} {offset : ℕ}

/-- The fold of `compute_slashable_amount`: the amount less the slashed amounts
processed before the slash occurred, unless an epoch plus the offset leaves
`u64`. -/
theorem foldlM_subtractProcessed (hoffset : params.slashProcessingEpochOffset = .ok offset)
    (slash : Slash) :
    ∀ (entries : List (ℕ × Amount)) (acc : Amount),
      entries.foldlM (subtractProcessed params slash) acc =
        if ∀ entry ∈ entries, entry.1 + offset < 2 ^ 64 then
          .ok ((entries.filter fun entry => entry.1 + offset ≤ slash.epoch).foldl
            (fun acc entry => acc.subOrZero entry.2) acc)
        else .error .panic
  | [], acc => by
      rw [if_pos (by simp)]
      rfl
  | entry :: rest, acc => by
      rw [List.foldlM_cons]
      by_cases hfit : entry.1 + offset < 2 ^ 64
      · have hstep : subtractProcessed params slash acc entry =
            .ok (if entry.1 + offset ≤ slash.epoch then acc.subOrZero entry.2 else acc) := by
          unfold subtractProcessed epochUncheckedAdd
          rw [hoffset, ok_bind, addU64_of_lt _ hfit, ok_bind]
          rfl
        rw [hstep, ok_bind, foldlM_subtractProcessed hoffset slash rest]
        -- the head fits, so the rest decides
        have hcons : (∀ other ∈ entry :: rest, other.1 + offset < 2 ^ 64) ↔
            ∀ other ∈ rest, other.1 + offset < 2 ^ 64 := by
          rw [List.forall_mem_cons]
          exact and_iff_right hfit
        by_cases hrest : ∀ other ∈ rest, other.1 + offset < 2 ^ 64
        · rw [if_pos hrest, if_pos (hcons.mpr hrest), List.filter_cons]
          by_cases hprocessed : entry.1 + offset ≤ slash.epoch
          · rw [if_pos hprocessed, if_pos (decide_eq_true hprocessed)]
            rfl
          · rw [if_neg hprocessed, if_neg (by simpa using hprocessed)]
        · rw [if_neg hrest, if_neg fun hall => hrest (hcons.mp hall)]
      · have hstep : subtractProcessed params slash acc entry = .error .panic := by
          unfold subtractProcessed epochUncheckedAdd
          rw [hoffset, ok_bind, addU64_of_not_lt _ hfit, error_bind]
        rw [hstep, error_bind, if_neg fun hall => hfit (hall entry List.mem_cons_self)]

/-- Without an offset the fold stops at its first slashed amount. -/
theorem foldlM_subtractProcessed_of_error {err : SlashError}
    (hoffset : params.slashProcessingEpochOffset = .error err) (slash : Slash) (entry : ℕ × Amount)
    (rest : List (ℕ × Amount)) (acc : Amount) :
    (entry :: rest).foldlM (subtractProcessed params slash) acc = .error err := by
  have hstep : subtractProcessed params slash acc entry = .error err := by
    unfold subtractProcessed
    rw [hoffset, error_bind]
  rw [List.foldlM_cons, hstep, error_bind]

/-- The inner loop of `get_slashed_amount`: the updated amount less the slashed
amounts processed before `infractionEpoch`, and the others, unless an epoch
plus the offset leaves `u64`. -/
theorem removeProcessed_eq (hoffset : params.slashProcessingEpochOffset = .ok offset)
    (infractionEpoch : ℕ) :
    ∀ (slashed : List SlashedAmount) (updatedAmount : Amount),
      removeProcessed params infractionEpoch updatedAmount slashed =
        if ∀ item ∈ slashed, item.epoch + offset < 2 ^ 64 then
          .ok ((slashed.filter fun item => item.epoch + offset ≤ infractionEpoch).foldl
              (fun acc item => acc.subOrZero item.amount) updatedAmount,
            slashed.filter fun item => infractionEpoch < item.epoch + offset)
        else .error .arith
  | [], updatedAmount => by
      rw [if_pos (by simp)]
      rfl
  | item :: rest, updatedAmount => by
      rw [removeProcessed, hoffset, ok_bind]
      unfold epochCheckedAdd
      by_cases hfit : item.epoch + offset < 2 ^ 64
      · rw [addU64_of_lt _ hfit, ok_bind]
        have hcons : (∀ other ∈ item :: rest, other.epoch + offset < 2 ^ 64) ↔
            ∀ other ∈ rest, other.epoch + offset < 2 ^ 64 := by
          rw [List.forall_mem_cons]
          exact and_iff_right hfit
        by_cases hprocessed : item.epoch + offset ≤ infractionEpoch
        · -- the item comes off and leaves the list
          rw [if_pos hprocessed, removeProcessed_eq hoffset infractionEpoch rest]
          by_cases hrest : ∀ other ∈ rest, other.epoch + offset < 2 ^ 64
          · rw [if_pos hrest, if_pos (hcons.mpr hrest), List.filter_cons, List.filter_cons,
              if_pos (decide_eq_true hprocessed), if_neg (by simpa using hprocessed)]
            rfl
          · rw [if_neg hrest, if_neg fun hall => hrest (hcons.mp hall)]
        · -- the item stays
          have hkept : infractionEpoch < item.epoch + offset := Nat.lt_of_not_le hprocessed
          rw [if_neg hprocessed, removeProcessed_eq hoffset infractionEpoch rest]
          by_cases hrest : ∀ other ∈ rest, other.epoch + offset < 2 ^ 64
          · rw [if_pos hrest, ok_bind, if_pos (hcons.mpr hrest), List.filter_cons, List.filter_cons,
              if_neg (by simpa using hprocessed), if_pos (decide_eq_true hkept)]
            rfl
          · rw [if_neg hrest, error_bind, if_neg fun hall => hrest (hcons.mp hall)]
      · rw [addU64_of_not_lt _ hfit, error_bind, if_neg fun hall => hfit (hall item List.mem_cons_self)]

/-- Without an offset the inner loop stops at its first slashed amount. -/
theorem removeProcessed_of_error {err : SlashError}
    (hoffset : params.slashProcessingEpochOffset = .error err) (infractionEpoch : ℕ)
    (updatedAmount : Amount) (item : SlashedAmount) (rest : List SlashedAmount) :
    removeProcessed params infractionEpoch updatedAmount (item :: rest) = .error err := by
  rw [removeProcessed, hoffset, error_bind]

end Steps

/-! ## The two loops in lockstep -/

/-- A computed slash as `get_slashed_amount` keeps it. -/
def toSlashedAmount (slash : ℕ × Amount) : SlashedAmount := ⟨slash.2, slash.1⟩

/-- A total splits at a predicate `removed`: what a larger predicate `within`
keeps is what `removed` keeps and what `within` keeps of the rest. -/
theorem slashedTotal_filter_split (removed kept within : ℕ × Amount → Bool)
    (hkept : ∀ slash, kept slash = !removed slash)
    (hwithin : ∀ slash, removed slash = true → within slash = true) :
    ∀ slashes : List (ℕ × Amount),
      slashedTotal (slashes.filter within) =
        slashedTotal (slashes.filter removed) + slashedTotal ((slashes.filter kept).filter within)
  | [] => rfl
  | slash :: rest => by
      have ih := slashedTotal_filter_split removed kept within hkept hwithin rest
      cases hremoved : removed slash with
      | true =>
          have hin := hwithin slash hremoved
          simp [hremoved, hin, hkept, ih]
          omega
      | false =>
          cases hin : within slash <;> simp [hremoved, hin, hkept, ih]
          omega

/-- A slash not processed by an epoch is one processed after it. -/
theorem kept_eq_not_removed {lastEpoch offset : ℕ} (slash : ℕ × Amount) :
    decide (lastEpoch < slash.1 + offset) = !decide (slash.1 + offset ≤ lastEpoch) := by
  rw [← decide_not]
  exact decide_eq_decide.mpr Nat.not_le.symm

/-- The slashes the query still holds after a slash at `epoch`, at or after
`lastEpoch`, are those of all processed slashes not processed by `epoch`. -/
theorem filter_kept_filter_kept {lastEpoch epoch offset : ℕ} (hlast : lastEpoch ≤ epoch)
    (processed : List (ℕ × Amount)) :
    ((processed.filter fun slash => lastEpoch < slash.1 + offset).map toSlashedAmount).filter
        (fun item => epoch < item.epoch + offset) =
      (processed.filter fun slash => epoch < slash.1 + offset).map toSlashedAmount := by
  rw [List.filter_map, List.filter_filter]
  congr 1
  apply List.filter_congr
  intro slash _
  simp only [Function.comp_def, toSlashedAmount]
  by_cases hkept : epoch < slash.1 + offset
  · simp [hkept, show lastEpoch < slash.1 + offset by omega]
  · simp [hkept]

/-- A total is what was processed by an epoch and what was not. -/
theorem slashedTotal_removed_add_kept (lastEpoch offset : ℕ) (processed : List (ℕ × Amount)) :
    slashedTotal processed =
      slashedTotal (processed.filter fun slash => slash.1 + offset ≤ lastEpoch) +
        slashedTotal (processed.filter fun slash => lastEpoch < slash.1 + offset) := by
  have hsplit := slashedTotal_filter_split (fun slash => slash.1 + offset ≤ lastEpoch)
    (fun slash => lastEpoch < slash.1 + offset) (fun _ => true) kept_eq_not_removed
    (fun _ _ => rfl) processed
  simpa using hsplit

section Lockstep

variable {offset : ℕ} {amount : Amount} {lastEpoch : ℕ} {processed : List (ℕ × Amount)}
  {ledger : Amount × SortedMap ℕ Amount} {query : Amount × List SlashedAmount}

/-- How the states of the two loops relate after the same slashes. `processed`
holds the epoch and the slashed amount of each, and `lastEpoch` the epoch of
the last. The ledger keeps every slashed amount and has taken all of them off
the final amount; the query keeps those not processed by `lastEpoch`, and has
taken the others off its updated amount, each of which fit in `u64` when it
was processed. -/
structure InStep (offset : ℕ) (amount : Amount) (lastEpoch : ℕ) (processed : List (ℕ × Amount))
    (ledger : Amount × SortedMap ℕ Amount) (query : Amount × List SlashedAmount) : Prop where
  computedSlashes : ledger.2.entries = processed
  finalAmount : ledger.1.raw.toNat = amount.raw.toNat - slashedTotal processed
  computedAmounts :
    query.2 = (processed.filter fun slash => lastEpoch < slash.1 + offset).map toSlashedAmount
  updatedAmount : query.1.raw.toNat =
    amount.raw.toNat - slashedTotal (processed.filter fun slash => slash.1 + offset ≤ lastEpoch)
  removedFit : ∀ slash ∈ processed, slash.1 + offset ≤ lastEpoch → slash.1 + offset < 2 ^ 64

/-- The processed epochs of the ledger fit in `u64` exactly when those the
query still holds do: the others fit already. -/
theorem InStep.fits_iff (hstep : InStep offset amount lastEpoch processed ledger query) :
    (∀ entry ∈ ledger.2.entries, entry.1 + offset < 2 ^ 64) ↔
      ∀ item ∈ query.2, item.epoch + offset < 2 ^ 64 := by
  rw [hstep.computedSlashes, hstep.computedAmounts, List.forall_mem_map]
  constructor
  · intro hall slash hslash
    exact hall slash (List.mem_filter.mp hslash).1
  · intro hkept slash hslash
    by_cases hremoved : slash.1 + offset ≤ lastEpoch
    · exact hstep.removedFit slash hslash hremoved
    · exact hkept slash (List.mem_filter.mpr ⟨hslash, decide_eq_true (Nat.lt_of_not_le hremoved)⟩)

/-- Both loops slash the same base: the query's updated amount less what it
still holds and was processed by the slash's epoch is the amount less all the
ledger holds and was processed by then. -/
theorem InStep.base_eq (hstep : InStep offset amount lastEpoch processed ledger query) {epoch : ℕ}
    (hlast : lastEpoch ≤ epoch) :
    (query.2.filter fun item => item.epoch + offset ≤ epoch).foldl
        (fun acc item => acc.subOrZero item.amount) query.1 =
      (ledger.2.entries.filter fun entry => entry.1 + offset ≤ epoch).foldl
        (fun acc entry => acc.subOrZero entry.2) amount := by
  apply Amount.eq_of_toNat_eq
  rw [hstep.computedAmounts, hstep.computedSlashes, List.filter_map, List.foldl_map]
  simp only [Function.comp_def, toSlashedAmount]
  have hsplit := slashedTotal_filter_split (fun slash => slash.1 + offset ≤ lastEpoch)
    (fun slash => lastEpoch < slash.1 + offset) (fun slash => slash.1 + offset ≤ epoch)
    kept_eq_not_removed (fun slash hremoved => by simp at hremoved ⊢; omega) processed
  rw [toNat_foldl_subOrZero, toNat_foldl_subOrZero, hstep.updatedAmount, hsplit, Nat.sub_sub]
  -- the sides differ in how the decidability of one filter is written
  rfl

/-- One slash in both loops: with every processed slash before it, both fail,
or both succeed with the same slashed amount, one that `mul_ceil` returns, and
stay in step. -/
theorem applySlash_getSlash_lockstep {params : OwnedPosParams}
    (hoffset : params.slashProcessingEpochOffset = .ok offset)
    (hstep : InStep offset amount lastEpoch processed ledger query) (slash : ℕ × Dec)
    (hlast : lastEpoch ≤ slash.1) (hafter : ∀ done ∈ processed, done.1 < slash.1) :
    Lockstep (fun nextLedger nextQuery => ∃ slashed : Amount, slashed.raw.toNat ≤ Amount.maxMulCeil ∧
        InStep offset amount slash.1 (processed ++ [(slash.1, slashed)]) nextLedger nextQuery)
      (applySlash params amount ledger ⟨slash.1, slash.2⟩) (getSlash params query slash) := by
  have hpositive := one_le_of_slashProcessingEpochOffset hoffset
  unfold applySlash computeSlashableAmount getSlash
  rw [foldlM_subtractProcessed hoffset, removeProcessed_eq hoffset]
  by_cases hfit : ∀ entry ∈ ledger.2.entries, entry.1 + offset < 2 ^ 64
  · rw [if_pos hfit, if_pos (hstep.fits_iff.mp hfit), ok_bind, ok_bind]
    dsimp only
    rw [hstep.base_eq hlast]
    cases hslashed : ((ledger.2.entries.filter fun entry => entry.1 + offset ≤ slash.1).foldl
        (fun acc entry => acc.subOrZero entry.2) amount).mulCeil slash.2 with
    | none => exact Lockstep.error _ _
    | some slashed =>
        apply Lockstep.ok
        have hlater : ∀ entry ∈ ledger.2.entries, entry.1 < slash.1 := by
          rw [hstep.computedSlashes]
          exact hafter
        -- the new slash is processed after its own epoch
        have hnew : ¬slash.1 + offset ≤ slash.1 := by omega
        have hkeptNew : [(slash.1, slashed)].filter (fun done => slash.1 < done.1 + offset) =
            [(slash.1, slashed)] :=
          List.filter_eq_self.mpr (by simpa using (by omega : slash.1 < slash.1 + offset))
        have hremovedNew : [(slash.1, slashed)].filter (fun done => done.1 + offset ≤ slash.1) = [] :=
          List.filter_eq_nil_iff.mpr (by simp; omega)
        refine ⟨slashed, Amount.toNat_le_maxMulCeil hslashed, ⟨?_, ?_, ?_, ?_, ?_⟩⟩
        · rw [SortedMap.entries_insert_of_lt hlater, hstep.computedSlashes]
        · rw [Amount.toNat_subOrZero, hstep.finalAmount, slashedTotal_append, slashedTotal_cons,
            slashedTotal_nil]
          dsimp only
          omega
        · dsimp only
          rw [hstep.computedAmounts, filter_kept_filter_kept hlast, List.filter_append,
            hkeptNew, List.map_append]
          rfl
        · dsimp only
          rw [toNat_foldl_subOrZero, hstep.computedSlashes, List.filter_append,
            hremovedNew, List.append_nil]
        · intro done hdone hremoved
          rcases List.mem_append.mp hdone with hold | hslash
          · exact hfit done (hstep.computedSlashes ▸ hold)
          · rw [List.mem_singleton.mp hslash] at hremoved
            exact absurd hremoved hnew
  · rw [if_neg hfit, if_neg fun hall => hfit (hstep.fits_iff.mpr hall)]
    exact Lockstep.error _ _

/-- After the last slash, the query's checked total of the slashed amounts it
still holds fits when their total does, and then the query ends where the
ledger does. -/
theorem InStep.sum_of_lt (hstep : InStep offset amount lastEpoch processed ledger query)
    (hfit : slashedTotal (processed.filter fun slash => lastEpoch < slash.1 + offset) < 2 ^ 256) :
    ∃ total, Amount.sum (query.2.map SlashedAmount.amount) = some total ∧
      query.1.subOrZero total = ledger.1 := by
  have hzero : Amount.zero.raw.toNat = 0 := rfl
  have hvalues : ((query.2.map SlashedAmount.amount).map fun amount => amount.raw.toNat).sum =
      slashedTotal (processed.filter fun slash => lastEpoch < slash.1 + offset) := by
    rw [hstep.computedAmounts, List.map_map, List.map_map]
    rfl
  obtain ⟨total, hsum, hvalue⟩ := Amount.foldlM_checkedAdd_of_lt
    (by rw [hzero, hvalues]; omega : Amount.zero.raw.toNat +
      ((query.2.map SlashedAmount.amount).map fun amount => amount.raw.toNat).sum < 2 ^ 256)
  refine ⟨total, hsum, Amount.eq_of_toNat_eq ?_⟩
  rw [Amount.toNat_subOrZero, hvalue, hzero, hvalues, hstep.updatedAmount, hstep.finalAmount,
    slashedTotal_removed_add_kept lastEpoch offset processed]
  omega

/-- The query's checked total fails when the total of what it still holds
does not fit. -/
theorem InStep.sum_of_not_lt (hstep : InStep offset amount lastEpoch processed ledger query)
    (hfit : ¬slashedTotal (processed.filter fun slash => lastEpoch < slash.1 + offset) < 2 ^ 256) :
    Amount.sum (query.2.map SlashedAmount.amount) = none := by
  have hzero : Amount.zero.raw.toNat = 0 := rfl
  have hvalues : ((query.2.map SlashedAmount.amount).map fun amount => amount.raw.toNat).sum =
      slashedTotal (processed.filter fun slash => lastEpoch < slash.1 + offset) := by
    rw [hstep.computedAmounts, List.map_map, List.map_map]
    rfl
  exact Amount.foldlM_checkedAdd_of_not_lt (by rw [hzero, hvalues]; omega)

/-- The slashed amounts computed after the slashes of `all` that come before
`rest`: one per slash, at its epoch, each at most what `mul_ceil` returns, the
last at the epoch of the last slash. -/
structure Computed (all rest : List (ℕ × Dec)) (lastEpoch : ℕ) (processed : List (ℕ × Amount)) :
    Prop where
  epochs : processed.map Prod.fst ++ rest.map Prod.fst = all.map Prod.fst
  bounded : ∀ slash ∈ processed, slash.2.raw.toNat ≤ Amount.maxMulCeil
  last : ∀ slash ∈ processed.getLast?, slash.1 = lastEpoch

theorem Computed.start (all : List (ℕ × Dec)) : Computed all all 0 [] where
  epochs := rfl
  bounded := fun _ hslash => absurd hslash List.not_mem_nil
  last := fun _ hslash => by simp at hslash

/-- A slash done adds its slashed amount at its epoch. -/
theorem Computed.next {all rest : List (ℕ × Dec)} {slash : ℕ × Dec}
    (hcomputed : Computed all (slash :: rest) lastEpoch processed) {slashed : Amount}
    (hslashed : slashed.raw.toNat ≤ Amount.maxMulCeil) :
    Computed all rest slash.1 (processed ++ [(slash.1, slashed)]) where
  epochs := by
    rw [← hcomputed.epochs]
    simp
  bounded := by
    intro done hdone
    rcases List.mem_append.mp hdone with hold | hnew
    · exact hcomputed.bounded done hold
    · rw [List.mem_singleton.mp hnew]
      exact hslashed
  last := by
    intro done hdone
    rw [List.getLast?_concat, Option.mem_some_iff] at hdone
    rw [← hdone]

/-- The states of the two folds over `all` with `rest` still to come: in step
after slashes that all come before those still to come, which ascend. -/
def Ahead (offset : ℕ) (amount : Amount) (all rest : List (ℕ × Dec))
    (ledger : Amount × SortedMap ℕ Amount) (query : Amount × List SlashedAmount) : Prop :=
  ∃ lastEpoch processed, InStep offset amount lastEpoch processed ledger query ∧
    Computed all rest lastEpoch processed ∧
    (∀ next ∈ rest, lastEpoch ≤ next.1 ∧ ∀ done ∈ processed, done.1 < next.1) ∧
    rest.Pairwise fun first second => first.1 < second.1

/-- One slash of a run: the folds stay ahead of the slashes still to come. -/
theorem ahead_lockstep {params : OwnedPosParams} {all : List (ℕ × Dec)}
    (hoffset : params.slashProcessingEpochOffset = .ok offset) (slash : ℕ × Dec)
    (rest : List (ℕ × Dec)) (hahead : Ahead offset amount all (slash :: rest) ledger query) :
    Lockstep (Ahead offset amount all rest)
      (applySlash params amount ledger ⟨slash.1, slash.2⟩) (getSlash params query slash) := by
  obtain ⟨lastEpoch, processed, hstep, hcomputed, hbefore, hsorted⟩ := hahead
  obtain ⟨hlast, hafter⟩ := hbefore slash List.mem_cons_self
  rw [List.pairwise_cons] at hsorted
  apply (applySlash_getSlash_lockstep hoffset hstep slash hlast hafter).imp
  rintro nextLedger nextQuery ⟨slashed, hslashed, hnext⟩
  refine ⟨slash.1, processed ++ [(slash.1, slashed)], hnext, hcomputed.next hslashed,
    fun next hnextMem => ⟨(hsorted.1 next hnextMem).le, ?_⟩, hsorted.2⟩
  intro done hdone
  rcases List.mem_append.mp hdone with hold | hnew
  · exact (hbefore next (List.mem_cons_of_mem _ hnextMem)).2 done hold
  · rw [List.mem_singleton.mp hnew]
    exact hsorted.1 next hnextMem

/-- The states of the two loops after every slash of `all`: in step for an
offset of at least one. -/
def After (amount : Amount) (all : List (ℕ × Dec)) (ledger : Amount × SortedMap ℕ Amount)
    (query : Amount × List SlashedAmount) : Prop :=
  ∃ offset lastEpoch processed, 1 ≤ offset ∧ InStep offset amount lastEpoch processed ledger query ∧
    Computed all [] lastEpoch processed

/-- At the end, the ledger holds one slashed amount per slash, at its epoch;
the query still holds some of them, with the same amounts, among them that of
the last slash. -/
theorem After.agrees {all : List (ℕ × Dec)} (hafter : After amount all ledger query) :
    ledger.2.entries.map Prod.fst = all.map Prod.fst ∧
      (query.2.map fun item => (item.epoch, item.amount)).Sublist ledger.2.entries ∧
      (query.2.map fun item => (item.epoch, item.amount)).getLast? = ledger.2.entries.getLast? := by
  obtain ⟨offset, lastEpoch, processed, hpositive, hstep, hcomputed⟩ := hafter
  -- the query holds the slashed amounts not processed by the last epoch
  have hpairs : (query.2.map fun item => (item.epoch, item.amount)) =
      processed.filter fun slash => lastEpoch < slash.1 + offset := by
    rw [hstep.computedAmounts, List.map_map]
    exact List.map_id'' (fun _ => rfl) _
  have hkeys := hcomputed.epochs
  rw [List.map_nil, List.append_nil] at hkeys
  refine ⟨hstep.computedSlashes ▸ hkeys, ?_, ?_⟩
  · rw [hpairs, hstep.computedSlashes]
    exact List.filter_sublist
  · -- the last slash is never processed at its own epoch
    rw [hpairs, hstep.computedSlashes, List.getLast?_filter, List.getLast?_eq_head?_reverse]
    cases hreversed : processed.reverse with
    | nil => rfl
    | cons last earlier =>
        have hlast : last.1 = lastEpoch := by
          apply hcomputed.last last
          rw [List.getLast?_eq_head?_reverse, hreversed]
          rfl
        rw [List.find?_cons_of_pos (by simp only [decide_eq_true_eq]; omega)]
        rfl

/-- At the end, the query's checked total of what it still holds gives the
ledger's final amount, or overflows; one amount per slash, each at most what
`mul_ceil` returns, overflow only from `10^12` slashes on. -/
theorem After.sum {all : List (ℕ × Dec)} (hafter : After amount all ledger query) :
    (∃ total, Amount.sum (query.2.map SlashedAmount.amount) = some total ∧
        query.1.subOrZero total = ledger.1) ∨
      (Amount.sum (query.2.map SlashedAmount.amount) = none ∧ 10 ^ 12 ≤ all.length) := by
  obtain ⟨offset, lastEpoch, processed, -, hstep, hcomputed⟩ := hafter
  by_cases hfit : slashedTotal (processed.filter fun slash => lastEpoch < slash.1 + offset) < 2 ^ 256
  · exact .inl (hstep.sum_of_lt hfit)
  · refine .inr ⟨hstep.sum_of_not_lt hfit, Nat.le_of_not_lt fun hfew => hfit ?_⟩
    have hkeys := congrArg List.length hcomputed.epochs
    simp only [List.length_append, List.length_map, List.map_nil, List.length_nil, add_zero] at hkeys
    have hheld : (processed.filter fun slash => lastEpoch < slash.1 + offset).length <
        10 ^ posDecimalPrecision := by
      have hfilter := List.length_filter_le (fun slash => decide (lastEpoch < slash.1 + offset)) processed
      unfold posDecimalPrecision
      omega
    exact (slashedTotal_le_mul fun slash hslash => hcomputed.bounded slash (List.mem_filter.mp hslash).1).trans_lt
      (Amount.mul_maxMulCeil_lt hheld)

end Lockstep

section Run

variable {params : OwnedPosParams} {offset : ℕ}

/-- With an offset, the two loops over ascending slashes end in step. -/
theorem foldlM_applySlash_getSlash_lockstep
    (hoffset : params.slashProcessingEpochOffset = .ok offset) (amount : Amount)
    {entries : List (ℕ × Dec)} (hsorted : entries.Pairwise fun first second => first.1 < second.1) :
    Lockstep (After amount entries)
      ((entries.map fun entry => (⟨entry.1, entry.2⟩ : Slash)).foldlM
        (applySlash params amount) (amount, SortedMap.empty))
      (entries.foldlM (getSlash params) (amount, [])) := by
  rw [List.foldlM_map]
  -- before the first slash nothing is processed
  have hstart : Ahead offset amount entries entries (amount, SortedMap.empty) (amount, []) :=
    ⟨0, [], ⟨rfl, by simp, rfl, by simp, by simp⟩, Computed.start entries,
      fun next _ => ⟨Nat.zero_le _, by simp⟩, hsorted⟩
  apply (foldlM_lockstep (fun slash rest ledger query hahead => ahead_lockstep hoffset slash rest hahead)
    hstart).imp
  rintro ledger query ⟨lastEpoch, processed, hstep, hcomputed, -, -⟩
  exact ⟨offset, lastEpoch, processed, one_le_of_slashProcessingEpochOffset hoffset, hstep, hcomputed⟩

/-- The empty map with one slashed amount holds just that one. -/
theorem entries_empty_insert (epoch : ℕ) (slashed : Amount) :
    (SortedMap.empty.insert epoch slashed).entries = [(epoch, slashed)] :=
  SortedMap.entries_insert_of_lt (by simp [SortedMap.empty])

/-- The first slash of `apply_list_slashes` takes its rate of the whole amount:
no slash was computed before it. -/
theorem applySlash_empty (amount : Amount) (slash : Slash) :
    applySlash params amount (amount, SortedMap.empty) slash =
      (orError .arith (amount.mulCeil slash.rate)).map fun slashed =>
        (amount.subOrZero slashed, SortedMap.empty.insert slash.epoch slashed) := by
  unfold applySlash computeSlashableAmount
  dsimp only
  rw [show (SortedMap.empty : SortedMap ℕ Amount).entries = [] from rfl, List.foldlM_nil, pure_bind]
  cases amount.mulCeil slash.rate <;> rfl

/-- The first slash of `get_slashed_amount` too: nothing is held to remove. -/
theorem getSlash_nil (amount : Amount) (slash : ℕ × Dec) :
    getSlash params (amount, []) slash =
      (orError .arith (amount.mulCeil slash.2)).map fun slashed =>
        (amount, [(⟨slashed, slash.1⟩ : SlashedAmount)]) := by
  unfold getSlash
  rw [removeProcessed, ok_bind]
  dsimp only
  cases amount.mulCeil slash.2 <;> rfl

/-- Without an offset, a slash after one computed slash fails in the ledger. -/
theorem applySlash_insert_of_error {err : SlashError} (hoffset : params.slashProcessingEpochOffset = .error err)
    (amount current slashed : Amount) (epoch : ℕ) (slash : Slash) :
    applySlash params amount (current, SortedMap.empty.insert epoch slashed) slash = .error err := by
  unfold applySlash computeSlashableAmount
  rw [entries_empty_insert, foldlM_subtractProcessed_of_error hoffset]
  rfl

/-- Without an offset, a slash after one held slashed amount fails in the query. -/
theorem getSlash_cons_of_error {err : SlashError} (hoffset : params.slashProcessingEpochOffset = .error err)
    (current : Amount) (item : SlashedAmount) (rest : List SlashedAmount) (slash : ℕ × Dec) :
    getSlash params (current, item :: rest) slash = .error err := by
  unfold getSlash
  rw [removeProcessed_of_error hoffset]
  rfl

/-- Without an offset the two loops end in step too: the first slash needs
none, and from the second on both stop at the first slashed amount they hold. -/
theorem foldlM_applySlash_getSlash_of_error {err : SlashError}
    (hoffset : params.slashProcessingEpochOffset = .error err) (amount : Amount)
    (entries : List (ℕ × Dec)) :
    Lockstep (After amount entries)
      ((entries.map fun entry => (⟨entry.1, entry.2⟩ : Slash)).foldlM
        (applySlash params amount) (amount, SortedMap.empty))
      (entries.foldlM (getSlash params) (amount, [])) := by
  rw [List.foldlM_map]
  cases entries with
  | nil => exact Lockstep.ok ⟨1, 0, [], le_rfl, ⟨rfl, by simp, rfl, by simp, by simp⟩, Computed.start []⟩
  | cons first more =>
      -- the first slash takes its rate of the whole amount in both loops
      rw [List.foldlM_cons, List.foldlM_cons, applySlash_empty, getSlash_nil]
      cases hslashed : amount.mulCeil first.2 with
      | none => exact Lockstep.error _ _
      | some slashed =>
          cases more with
          | nil =>
              -- one slash, held by the query since it is not processed at its own epoch
              apply Lockstep.ok
              refine ⟨1, first.1, [] ++ [(first.1, slashed)], le_rfl, ⟨entries_empty_insert _ _, ?_, ?_, ?_, ?_⟩,
                (Computed.start [first]).next (Amount.toNat_le_maxMulCeil hslashed)⟩
              · rw [Amount.toNat_subOrZero]
                simp
              · simp [toSlashedAmount]
              · simp
              · simp
          | cons second rest =>
              simp only [orError_some, Except.map, List.foldlM_cons, applySlash_insert_of_error hoffset,
                getSlash_cons_of_error hoffset, ok_bind, error_bind]
              exact Lockstep.error _ _

/-- Whatever the offset, the two loops over ascending slashes end in step. -/
theorem foldlM_lockstep_after (params : OwnedPosParams) (amount : Amount) {entries : List (ℕ × Dec)}
    (hsorted : entries.Pairwise fun first second => first.1 < second.1) :
    Lockstep (After amount entries)
      ((entries.map fun entry => (⟨entry.1, entry.2⟩ : Slash)).foldlM
        (applySlash params amount) (amount, SortedMap.empty))
      (entries.foldlM (getSlash params) (amount, [])) := by
  cases hoffset : params.slashProcessingEpochOffset with
  | ok offset => exact foldlM_applySlash_getSlash_lockstep hoffset amount hsorted
  | error err => exact foldlM_applySlash_getSlash_of_error hoffset amount entries

/-- The query returns what the ledger does, and the ledger returns a value the
query also returns unless the query's checked total overflows, which takes
`10^12` slashes. -/
theorem getSlashedAmount_agrees (params : OwnedPosParams) (amount : Amount) (slashes : SortedMap ℕ Dec) :
    (∀ result, getSlashedAmount params amount slashes = .ok result →
      applyListSlashes params (slashes.entries.map fun entry => (⟨entry.1, entry.2⟩ : Slash)) amount =
        .ok result) ∧
    (∀ result, applyListSlashes params (slashes.entries.map fun entry => (⟨entry.1, entry.2⟩ : Slash))
        amount = .ok result →
      getSlashedAmount params amount slashes = .ok result ∨
        (getSlashedAmount params amount slashes = .error (.message "token amount overflow") ∧
          10 ^ 12 ≤ slashes.entries.length)) := by
  have hrun := foldlM_lockstep_after params amount slashes.sorted
  unfold applyListSlashes getSlashedAmount
  cases hledger : (slashes.entries.map fun entry => (⟨entry.1, entry.2⟩ : Slash)).foldlM
      (applySlash params amount) (amount, SortedMap.empty) with
  | error ledgerErr =>
      cases hquery : slashes.entries.foldlM (getSlash params) (amount, []) with
      | error queryErr =>
          refine ⟨fun result hresult => ?_, fun result hresult => ?_⟩
          · rw [error_bind] at hresult
            cases hresult
          · rw [error_bind] at hresult
            cases hresult
      | ok query =>
          rw [hledger, hquery] at hrun
          exact hrun.elim
  | ok ledger =>
      cases hquery : slashes.entries.foldlM (getSlash params) (amount, []) with
      | error queryErr =>
          rw [hledger, hquery] at hrun
          exact hrun.elim
      | ok query =>
          rw [hledger, hquery] at hrun
          rcases hrun.sum with ⟨total, hsum, hresult⟩ | ⟨hnone, hmany⟩
          · rw [ok_bind, ok_bind, hsum, orError_some, ok_bind, hresult]
            exact ⟨fun _ hresult => hresult, fun _ hresult => .inl hresult⟩
          · rw [ok_bind, ok_bind, hnone, orError_none, error_bind]
            refine ⟨fun result hresult => ?_, fun _ _ => .inr ⟨rfl, hmany⟩⟩
            cases hresult

/-- `apply_list_slashes` never returns more than the amount: every slash only
takes off. -/
theorem applyListSlashes_le {slashes : List Slash} {amount result : Amount}
    (happly : applyListSlashes params slashes amount = .ok result) : result ≤ amount := by
  unfold applyListSlashes at happly
  obtain ⟨state, hfold, hresult⟩ := bind_eq_ok happly
  have hbound : state.1 ≤ amount := by
    refine foldlM_invariant (fun state : Amount × SortedMap ℕ Amount => state.1 ≤ amount)
      (fun acc slash next hacc hnext => ?_) (Amount.le_iff_toNat_le.mpr le_rfl) hfold
    unfold applySlash at hnext
    obtain ⟨slashed, _, hpure⟩ := bind_eq_ok hnext
    cases hpure
    rw [Amount.le_iff_toNat_le] at hacc ⊢
    rw [Amount.toNat_subOrZero]
    omega
  cases hresult
  exact hbound

end Run

/-! ## The query path and the ledger path -/

theorem slashedAmount_query_agrees_with_ledger (params : OwnedPosParams) (amount : Amount)
    (slashes : SortedMap ℕ Dec) :
    (∀ count, Lockstep
      (fun (ledger : Amount × SortedMap ℕ Amount) (query : Amount × List SlashedAmount) =>
        ledger.2.entries.map Prod.fst = (slashes.entries.take count).map Prod.fst ∧
          (query.2.map fun item => (item.epoch, item.amount)).Sublist ledger.2.entries ∧
          (query.2.map fun item => (item.epoch, item.amount)).getLast? = ledger.2.entries.getLast?)
      (((slashes.entries.take count).map fun entry => (⟨entry.1, entry.2⟩ : Slash)).foldlM
        (applySlash params amount) (amount, SortedMap.empty))
      ((slashes.entries.take count).foldlM (getSlash params) (amount, []))) ∧
    (∀ result, getSlashedAmount params amount slashes = .ok result →
      applyListSlashes params (slashes.entries.map fun entry => (⟨entry.1, entry.2⟩ : Slash)) amount =
        .ok result ∧ result ≤ amount) ∧
    (∀ result, applyListSlashes params (slashes.entries.map fun entry => (⟨entry.1, entry.2⟩ : Slash))
        amount = .ok result →
      result ≤ amount ∧ (getSlashedAmount params amount slashes = .ok result ∨
        (getSlashedAmount params amount slashes = .error (.message "token amount overflow") ∧
          10 ^ 12 ≤ slashes.entries.length))) := by
  obtain ⟨hquery, hledger⟩ := getSlashedAmount_agrees params amount slashes
  refine ⟨fun count => ?_,
    fun result hresult => ⟨hquery result hresult, applyListSlashes_le (hquery result hresult)⟩,
    fun result hresult => ⟨applyListSlashes_le hresult, hledger result hresult⟩⟩
  -- every prefix of the slashes ascends, so its two loops end in step
  exact (foldlM_lockstep_after params amount (slashes.sorted.sublist (List.take_sublist _ _))).imp
    fun _ _ hafter => hafter.agrees

/-! ## Where the query's total overflows -/

/-- Slashes at the epochs `0, 1, …, count - 1`, each at the rate one. -/
def fullSlashes (count : ℕ) : SortedMap ℕ Dec :=
  ⟨(List.range count).map fun epoch => (epoch, Dec.one),
    List.pairwise_map.mpr List.pairwise_lt_range⟩

theorem entries_fullSlashes_succ (count : ℕ) :
    (fullSlashes (count + 1)).entries = (fullSlashes count).entries ++ [(count, Dec.one)] := by
  simp [fullSlashes, List.range_succ]

section FullSlashes

variable {params : OwnedPosParams} {offset : ℕ} {amount : Amount}

/-- Before the offset has passed no slash is processed, so the ledger takes
the whole amount at the first slash and keeps every slashed amount, each the
whole amount. -/
theorem foldlM_applySlash_fullSlashes (hoffset : params.slashProcessingEpochOffset = .ok offset)
    (hfit : amount.raw.toNat * 10 ^ posDecimalPrecision < 2 ^ 256) :
    ∀ count, count < offset → count + offset ≤ 2 ^ 64 →
      ∃ state, ((fullSlashes count).entries.map fun entry => (⟨entry.1, entry.2⟩ : Slash)).foldlM
          (applySlash params amount) (amount, SortedMap.empty) = .ok state ∧
        state.1.raw.toNat = amount.raw.toNat - count * amount.raw.toNat ∧
        state.2.entries = (List.range count).map fun epoch => (epoch, amount)
  | 0, _, _ => ⟨(amount, SortedMap.empty), rfl, by simp, rfl⟩
  | count + 1, hbefore, hfits => by
      obtain ⟨state, hfold, hfinal, hentries⟩ := foldlM_applySlash_fullSlashes hoffset hfit count
        (by omega) (by omega)
      have hearlier : ∀ entry ∈ state.2.entries, entry.1 < count := by
        rw [hentries]
        simp
      have hunprocessed : (state.2.entries.filter fun entry => entry.1 + offset ≤ count) = [] := by
        apply List.filter_eq_nil_iff.mpr
        intro entry _
        simp only [decide_eq_true_eq]
        omega
      have hstep : applySlash params amount state ⟨count, Dec.one⟩ =
          .ok (state.1.subOrZero amount, state.2.insert count amount) := by
        unfold applySlash computeSlashableAmount
        rw [foldlM_subtractProcessed hoffset, if_pos fun entry hentry => by
          have := hearlier entry hentry
          omega]
        dsimp only
        rw [hunprocessed, ok_bind, List.foldl_nil, Amount.mulCeil_one hfit, orError_some, ok_bind]
        rfl
      refine ⟨(state.1.subOrZero amount, state.2.insert count amount), ?_, ?_, ?_⟩
      · rw [entries_fullSlashes_succ, List.map_append, List.foldlM_append, hfold, ok_bind]
        rw [List.map_cons, List.map_nil, List.foldlM_cons, hstep, ok_bind]
        rfl
      · rw [Amount.toNat_subOrZero, hfinal, Nat.succ_mul]
        omega
      · rw [SortedMap.entries_insert_of_lt hearlier, hentries, List.range_succ, List.map_append]
        rfl

/-- The query takes nothing off before the offset has passed, so it holds a
slashed amount of the whole amount for every slash. -/
theorem foldlM_getSlash_fullSlashes (hoffset : params.slashProcessingEpochOffset = .ok offset)
    (hfit : amount.raw.toNat * 10 ^ posDecimalPrecision < 2 ^ 256) :
    ∀ count, count < offset → count + offset ≤ 2 ^ 64 →
      (fullSlashes count).entries.foldlM (getSlash params) (amount, []) =
        .ok (amount, (List.range count).map fun epoch => (⟨amount, epoch⟩ : SlashedAmount))
  | 0, _, _ => rfl
  | count + 1, hbefore, hfits => by
      have hfold := foldlM_getSlash_fullSlashes hoffset hfit count (by omega) (by omega)
      set computed := (List.range count).map fun epoch => (⟨amount, epoch⟩ : SlashedAmount)
      have hearlier : ∀ item ∈ computed, item.epoch < count := by simp [computed]
      have hunprocessed : (computed.filter fun item => item.epoch + offset ≤ count) = [] := by
        apply List.filter_eq_nil_iff.mpr
        intro item _
        simp only [decide_eq_true_eq]
        omega
      have hkept : (computed.filter fun item => count < item.epoch + offset) = computed := by
        apply List.filter_eq_self.mpr
        intro item _
        simp only [decide_eq_true_eq]
        omega
      have hstep : getSlash params (amount, computed) (count, Dec.one) =
          .ok (amount, computed ++ [⟨amount, count⟩]) := by
        unfold getSlash
        rw [removeProcessed_eq hoffset, if_pos fun item hitem => by
          have := hearlier item hitem
          omega]
        rw [ok_bind]
        dsimp only
        rw [hunprocessed, hkept, List.foldl_nil, Amount.mulCeil_one hfit, orError_some, ok_bind]
        rfl
      rw [entries_fullSlashes_succ, List.foldlM_append, hfold, ok_bind, List.foldlM_cons, hstep,
        ok_bind, List.foldlM_nil, List.range_succ, List.map_append]
      rfl

end FullSlashes

/-- The greatest amount whose product with one fits in `U256`. -/
def fullAmount : Amount := ⟨BitVec.ofNat 256 ((2 ^ 256 - 1) / 10 ^ posDecimalPrecision)⟩

theorem slashedAmount_query_overflows_where_ledger_returns :
    applyListSlashes ⟨2 * 10 ^ 12, 0⟩
        ((fullSlashes (2 * 10 ^ 12)).entries.map fun entry => (⟨entry.1, entry.2⟩ : Slash))
        fullAmount = .ok Amount.zero ∧
      getSlashedAmount ⟨2 * 10 ^ 12, 0⟩ fullAmount (fullSlashes (2 * 10 ^ 12)) =
        .error (.message "token amount overflow") := by
  have hoffset : (⟨2 * 10 ^ 12, 0⟩ : OwnedPosParams).slashProcessingEpochOffset =
      .ok (2 * 10 ^ 12 + 1) := by
    unfold OwnedPosParams.slashProcessingEpochOffset
    rw [addU64_of_lt _ (by decide), ok_bind, addU64_of_lt _ (by decide)]
    rfl
  have hvalue : fullAmount.raw.toNat = (2 ^ 256 - 1) / 10 ^ posDecimalPrecision := by
    unfold fullAmount posDecimalPrecision
    decide
  have hfit : fullAmount.raw.toNat * 10 ^ posDecimalPrecision < 2 ^ 256 := by
    rw [hvalue]
    unfold posDecimalPrecision
    decide
  constructor
  · -- the ledger slashes the whole amount at the first slash
    obtain ⟨state, hfold, hfinal, -⟩ :=
      foldlM_applySlash_fullSlashes hoffset hfit (2 * 10 ^ 12) (by decide) (by decide)
    unfold applyListSlashes
    rw [hfold, ok_bind]
    have hzero : state.1 = Amount.zero := by
      apply Amount.eq_zero_of_toNat_eq_zero
      rw [hfinal]
      exact Nat.sub_eq_zero_of_le (Nat.le_mul_of_pos_left _ (by decide))
    rw [hzero]
    rfl
  · -- the query holds two trillion slashed amounts of the whole amount
    unfold getSlashedAmount
    rw [foldlM_getSlash_fullSlashes hoffset hfit (2 * 10 ^ 12) (by decide) (by decide), ok_bind]
    have hoverflow : Amount.sum (((List.range (2 * 10 ^ 12)).map fun epoch =>
        (⟨fullAmount, epoch⟩ : SlashedAmount)).map SlashedAmount.amount) = none := by
      apply Amount.foldlM_checkedAdd_of_not_lt
      have hzero : Amount.zero.raw.toNat = 0 := rfl
      simp only [List.map_map, Function.comp_def, List.map_const', List.length_range,
        List.map_replicate, List.sum_replicate_nat, hzero, hvalue]
      unfold posDecimalPrecision
      decide
    rw [hoverflow, orError_none, error_bind]

end Namada.ProofOfStake
