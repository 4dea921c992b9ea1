/-
# `unbond_tokens`

`proof_of_stake/src/lib.rs`: `unbond_tokens` checks the source and the
validator, takes the amount from the newest bonds first
(`find_bonds_to_remove`), and records what it took: in the source's unbonds at
the withdrawable epoch, in the redelegated bonds and unbonds, and in the
validator's totals bonded and unbonded, by start epoch. It returns what is left
of the unbonded tokens after the slashes of the validator and of the validators
they were redelegated from (`compute_amount_after_slashing_unbond`).

This module translates those steps. What they read and write of the bonds and
the redelegated bonds is the step of `Namada.ProofOfStake.Bonds`
(`PosStore.unbondTokens_bondStore`). The validator set, the validator and total deltas,
the delegation targets and the rewards counters that `unbond_tokens` updates
last are not modelled, nor are its `debug_assert!`s. Amounts are natural
numbers, as in `Bonds`; `apply_list_slashes` reads them as the
`token::Amount`s they are.
-/

import Mathlib
import Namada.ProofOfStake.Bonds
import Namada.ProofOfStake.Slashing
import Namada.Math.SortedMapSum

namespace Namada.ProofOfStake

open Namada.Core Namada.Math

variable {Address : Type} [LinearOrder Address]

/-! ## Parameters, storage and errors -/

/-- The fields of `PosParams` that `unbond_tokens` reads. -/
structure PosParams where
  /-- `unbonding_len` and `cubic_slashing_window_length`. -/
  owned : OwnedPosParams
  pipelineLen : ℕ

/-- `OwnedPosParams::withdrawable_epoch_offset`:
`pipeline_len + unbonding_len + cubic_slashing_window_length` in `u64`. -/
def PosParams.withdrawableEpochOffset (params : PosParams) : Except SlashError ℕ := do
  let offset ← addU64 .panic params.pipelineLen params.owned.unbondingLen
  addU64 .panic offset params.owned.cubicSlashingWindowLength

/-- `OwnedPosParams::redelegation_start_epoch_from_end`, whose `expect` panics
below the pipeline length. -/
def PosParams.redelegationStartEpochFromEnd (params : PosParams) (endEpoch : ℕ) :
    Except SlashError ℕ :=
  if params.pipelineLen ≤ endEpoch then .ok (endEpoch - params.pipelineLen) else .error .panic

/-- `OwnedPosParams::in_redelegation_slashing_window`: the infraction was
processed after the redelegation started and happened before it ended. -/
def PosParams.inRedelegationSlashingWindow (params : PosParams)
    (infractionEpoch redelStart redelEnd : ℕ) : Except SlashError Bool := do
  let offset ← params.owned.slashProcessingEpochOffset
  let processingEpoch ← epochUncheckedAdd infractionEpoch offset
  pure (decide (redelStart < processingEpoch) && decide (infractionEpoch < redelEnd))

/-- What `unbond_tokens` reads and writes of the PoS storage. -/
structure PosStore (Address : Type) [LinearOrder Address] where
  /-- The bonds and the redelegated bonds. -/
  bondStore : BondStore Address
  /-- `unbond_handle(source, validator)`: by start epoch, the amounts unbonded
  by withdrawable epoch. -/
  unbonds : Address × Address → SortedMap ℕ (SortedMap ℕ ℕ)
  /-- `delegator_redelegated_unbonds_handle(delegator).at(validator)`: by start
  epoch and withdrawable epoch, the redelegated tokens unbonded. -/
  redelegatedUnbonds : Address × Address → SortedMap ℕ (SortedMap ℕ (RedelegatedTokens Address))
  /-- `total_bonded_handle(validator)`: the deltas by start epoch. -/
  totalBonded : Address → SortedMap ℕ ℕ
  /-- `total_unbonded_handle(validator)`: by the pipeline epoch of the unbond,
  the amounts by start epoch. -/
  totalUnbonded : Address → SortedMap ℕ (SortedMap ℕ ℕ)
  /-- `validator_total_redelegated_bonded_handle(validator)`: by the epoch the
  redelegation started, the tokens. -/
  totalRedelegatedBonded : Address → SortedMap ℕ (RedelegatedTokens Address)
  /-- `validator_total_redelegated_unbonded_handle(validator)`: by the pipeline
  epoch of the unbond and the epoch the redelegation started, the tokens. -/
  totalRedelegatedUnbonded : Address → SortedMap ℕ (SortedMap ℕ (RedelegatedTokens Address))
  /-- `validator_slashes_handle(validator)`. -/
  validatorSlashes : Address → List Slash
  /-- `validator_max_commission_rate_change_handle(validator)`. -/
  maxCommissionRateChange : Address → Option Dec
  /-- `validator_last_slash_handle(validator)`. -/
  lastSlashEpoch : Address → Option ℕ

/-- The errors of `unbond_tokens`. -/
inductive UnbondTokensError (Address : Type)
  /-- `BondError::SourceMustNotBeAValidator`. -/
  | sourceMustNotBeAValidator (source : Address)
  /-- `BondError::NotAValidator`. -/
  | notAValidator (validator : Address)
  /-- `UnbondError::ValidatorIsFrozen`. -/
  | validatorIsFrozen (validator : Address)
  /-- An error of the bond bookkeeping, `UnbondError::UnbondAmountGreaterThanBond`
  among them. -/
  | pos (err : PosError)
  /-- A checked operation out of range, or a panic. -/
  | checked (err : SlashError)

/-! ## Reads and writes of amounts -/

/-- `try_update(key, |current| current + amount)` on a map of amounts. -/
def addAt (map : SortedMap ℕ ℕ) (key amount : ℕ) : SortedMap ℕ ℕ :=
  map.insert key (deltaVal map key + amount)

/-- `try_update(key, |current| checked!(current - amount))` on a map of amounts. -/
def subAt (map : SortedMap ℕ ℕ) (key amount : ℕ) : Except SlashError (SortedMap ℕ ℕ) :=
  if deltaVal map key < amount then .error .arith
  else .ok (map.insert key (deltaVal map key - amount))

/-- The amount of the tokens redelegated from `srcValidator` out of its bond of
`bondStart`. -/
def tokenAmount (tokens : RedelegatedTokens Address) (srcValidator : Address) (bondStart : ℕ) : ℕ :=
  deltaVal (tokensOf tokens srcValidator) bondStart

/-- `rbonds.entry(src_validator).or_default().insert(bond_start, amount)`. -/
def setToken (tokens : RedelegatedTokens Address) (srcValidator : Address) (bondStart amount : ℕ) :
    RedelegatedTokens Address :=
  tokens.insert srcValidator ((tokensOf tokens srcValidator).insert bondStart amount)

/-- `.at(src_validator).try_update(bond_start, |current| current + change)`. -/
def addToken (tokens : RedelegatedTokens Address) (srcValidator : Address) (bondStart change : ℕ) :
    RedelegatedTokens Address :=
  tokens.insert srcValidator (addAt (tokensOf tokens srcValidator) bondStart change)

@[simp] theorem deltaVal_addAt (map : SortedMap ℕ ℕ) (key amount other : ℕ) :
    deltaVal (addAt map key amount) other = deltaVal map other + if other = key then amount else 0 := by
  by_cases hother : other = key
  · rw [hother, addAt, deltaVal_insert_self, if_pos rfl]
  · rw [addAt, deltaVal_insert_of_ne _ _ hother, if_neg hother, add_zero]

theorem subAt_eq_ok {map next : SortedMap ℕ ℕ} {key amount : ℕ}
    (hsub : subAt map key amount = .ok next) :
    amount ≤ deltaVal map key ∧ next = map.insert key (deltaVal map key - amount) := by
  unfold subAt at hsub
  split_ifs at hsub with hlt
  cases hsub
  exact ⟨Nat.le_of_not_lt hlt, rfl⟩

@[simp] theorem tokensOf_insert_self (tokens : RedelegatedTokens Address) (srcValidator : Address)
    (bonds : SortedMap ℕ ℕ) : tokensOf (tokens.insert srcValidator bonds) srcValidator = bonds := by
  rw [tokensOf, SortedMap.find?_insert_self]
  rfl

theorem tokensOf_insert_of_ne (tokens : RedelegatedTokens Address) {srcValidator other : Address}
    (bonds : SortedMap ℕ ℕ) (hne : other ≠ srcValidator) :
    tokensOf (tokens.insert srcValidator bonds) other = tokensOf tokens other := by
  rw [tokensOf, tokensOf, SortedMap.find?_insert_of_ne _ _ hne]

theorem tokenAmount_setToken (tokens : RedelegatedTokens Address) (srcValidator : Address)
    (bondStart amount : ℕ) (other : Address) (otherStart : ℕ) :
    tokenAmount (setToken tokens srcValidator bondStart amount) other otherStart =
      if other = srcValidator ∧ otherStart = bondStart then amount
      else tokenAmount tokens other otherStart := by
  by_cases hother : other = srcValidator
  · subst hother
    by_cases hstart : otherStart = bondStart
    · rw [hstart, tokenAmount, setToken, tokensOf_insert_self, deltaVal_insert_self, if_pos ⟨rfl, rfl⟩]
    · rw [tokenAmount, setToken, tokensOf_insert_self, deltaVal_insert_of_ne _ _ hstart,
        if_neg fun hboth => hstart hboth.2]
      rfl
  · rw [tokenAmount, setToken, tokensOf_insert_of_ne _ _ hother, if_neg fun hboth => hother hboth.1]
    rfl

/-! ## `compute_new_redelegated_unbonds` -/

/-- `rbonds.entry(src_validator).or_default().insert(epoch, amount)` for each
bond of a source validator, in order. -/
def copyBonds (rbonds : RedelegatedTokens Address) (srcValidator : Address)
    (bonds : SortedMap ℕ ℕ) : RedelegatedTokens Address :=
  bonds.entries.foldl (fun rbonds bond => setToken rbonds srcValidator bond.1 bond.2) rbonds

/-- The redelegated tokens of a bond unbonded whole: all of them, as the
iteration over `redelegated_bonds.at(&start)` copies them. -/
def copyTokens (tokens : RedelegatedTokens Address) : RedelegatedTokens Address :=
  tokens.entries.foldl (fun rbonds entry => copyBonds rbonds entry.1 entry.2) SortedMap.empty

/-- What the modification takes of the tokens that the validator it modifies
redelegated out of its bond of `bondStart`: all of them, or for the epoch it
modifies what that epoch loses. -/
def modifiedBondUnbond (tokens : RedelegatedTokens Address) (modified : ModifiedRedelegation Address)
    (srcValidator : Address) (rbonds : RedelegatedTokens Address) (bondStart : ℕ) :
    Except SlashError (RedelegatedTokens Address) :=
  let curRedelBondAmount := tokenAmount tokens srcValidator bondStart
  if (modified.epochToModify.map fun epoch => bondStart != epoch).getD true then
    .ok (setToken rbonds srcValidator bondStart curRedelBondAmount)
  else
    match modified.newAmount with
    | some newAmount =>
        if curRedelBondAmount < newAmount then .error .arith
        else .ok (setToken rbonds srcValidator bondStart (curRedelBondAmount - newAmount))
    | none => .error .panic

/-- What the modification takes of the tokens of one validator it removes: all
of them, or for the validator it modifies those of the epochs it removes. -/
def modifiedValidatorUnbond (tokens : RedelegatedTokens Address)
    (modified : ModifiedRedelegation Address) (rbonds : RedelegatedTokens Address)
    (srcValidator : Address) : Except SlashError (RedelegatedTokens Address) :=
  if (modified.validatorToModify.map fun validator => srcValidator != validator).getD true then
    .ok (copyBonds rbonds srcValidator (tokensOf tokens srcValidator))
  else modified.epochsToRemove.foldlM (modifiedBondUnbond tokens modified srcValidator) rbonds

/-- The redelegated tokens of the bond unbonded in part that the modification
takes, validator by validator. -/
def modifiedRedelegatedUnbonds (tokens : RedelegatedTokens Address)
    (modified : ModifiedRedelegation Address) : Except SlashError (RedelegatedTokens Address) :=
  modified.validatorsToRemove.foldlM (modifiedValidatorUnbond tokens modified) SortedMap.empty

/-- The redelegated tokens unbonded from the bond of `start`: all of them unless
the bond is the one modified in part. -/
def redelegatedUnbondsAt (tokens : RedelegatedTokens Address) (start : ℕ)
    (modified : ModifiedRedelegation Address) : Except SlashError (RedelegatedTokens Address) :=
  if (modified.epoch.map fun redelegationEpoch => start != redelegationEpoch).getD true ||
      modified.validatorsToRemove.isEmpty then
    .ok (copyTokens tokens)
  else modifiedRedelegatedUnbonds tokens modified

/-- `compute_new_redelegated_unbonds`: by start epoch, the redelegated tokens the
unbond takes, read from the redelegated bonds before it. -/
def computeNewRedelegatedUnbonds (redelegatedBonds : SortedMap ℕ (RedelegatedTokens Address))
    (epochsToRemove : List ℕ) (modified : ModifiedRedelegation Address) :
    Except SlashError (SortedMap ℕ (RedelegatedTokens Address)) :=
  let unbondedEpochs := match modified.epoch with
    | some epoch => List.insert epoch epochsToRemove
    | none => epochsToRemove
  (unbondedEpochs.filter (hasRedelegation redelegatedBonds)).foldlM
    (fun newRedelegatedUnbonds start => do
      let rbonds ← redelegatedUnbondsAt (tokensAt redelegatedBonds start) start modified
      pure (newRedelegatedUnbonds.insert start rbonds))
    SortedMap.empty

/-! ## `compute_amount_after_slashing_unbond` -/

/-- `ResultSlashing`: what is left after slashing, in total and by start epoch. -/
structure ResultSlashing where
  sum : ℕ
  epochMap : SortedMap ℕ ℕ

/-- `ResultSlashing::default()`. -/
def ResultSlashing.default : ResultSlashing := ⟨0, SortedMap.empty⟩

/-- `FoldRedelegatedBondsResult`. -/
structure FoldRedelegatedBondsResult where
  totalRedelegated : ℕ
  totalAfterSlashing : ℕ

/-- `FoldRedelegatedBondsResult::default()`. -/
def FoldRedelegatedBondsResult.default : FoldRedelegatedBondsResult := ⟨0, 0⟩

/-- `apply_list_slashes` on an amount of the bookkeeping, read as the
`token::Amount` it is. -/
def applyListSlashesTo (params : OwnedPosParams) (slashes : List Slash) (amount : ℕ) :
    Except SlashError ℕ :=
  (applyListSlashes params slashes ⟨BitVec.ofNat 256 amount⟩).map fun result => result.raw.toNat

/-- The slashes of `fold_and_slash_redelegated_bonds` for one redelegated bond:
those of its source validator in the redelegation slashing window that the bond
was slashable for, then `list_slashes`, sorted by epoch. -/
def mergedSlashes (params : PosParams) (validatorSlashes : List Slash) (startEpoch bondStart : ℕ)
    (listSlashes : List Slash) (slashEpochFilter : ℕ → Bool) : Except SlashError (List Slash) := do
  let filtered ← validatorSlashes.filterM fun slash => do
    let redelegationStart ← params.redelegationStartEpochFromEnd startEpoch
    let inWindow ← params.inRedelegationSlashingWindow slash.epoch redelegationStart startEpoch
    pure (inWindow && decide (bondStart ≤ slash.epoch) && slashEpochFilter slash.epoch)
  pure ((filtered ++ listSlashes).mergeSort fun first second => decide (first.epoch ≤ second.epoch))

/-- `fold_and_slash_redelegated_bonds`: the redelegated tokens unbonded, and
what is left of them after slashing. -/
def foldAndSlashRedelegatedBonds (params : PosParams) (validatorSlashes : Address → List Slash)
    (redelegatedUnbonds : RedelegatedTokens Address) (startEpoch : ℕ) (listSlashes : List Slash)
    (slashEpochFilter : ℕ → Bool) : Except SlashError FoldRedelegatedBondsResult :=
  redelegatedUnbonds.entries.foldlM (fun result bondsMap =>
    bondsMap.2.entries.foldlM (fun result bond => do
      let merged ← mergedSlashes params (validatorSlashes bondsMap.1) startEpoch bond.1 listSlashes
        slashEpochFilter
      let afterSlashing ← applyListSlashesTo params.owned merged bond.2
      pure ⟨result.totalRedelegated + bond.2, result.totalAfterSlashing + afterSlashing⟩) result)
    FoldRedelegatedBondsResult.default

/-- `compute_amount_after_slashing_unbond`: for each start epoch unbonded, what
is left after the slashes at or after it, of the tokens bonded directly and of
those redelegated. -/
def computeAmountAfterSlashingUnbond (params : PosParams) (validatorSlashes : Address → List Slash)
    (unbonds : SortedMap ℕ ℕ) (redelegatedUnbonds : SortedMap ℕ (RedelegatedTokens Address))
    (slashes : List Slash) : Except SlashError ResultSlashing :=
  unbonds.entries.foldlM (fun resultSlashing unbond => do
    let listSlashes := slashes.filter fun slash => decide (unbond.1 ≤ slash.epoch)
    let resultFold ← match redelegatedUnbonds.find? unbond.1 with
      | some redelegated =>
          foldAndSlashRedelegatedBonds params validatorSlashes redelegated unbond.1 listSlashes
            fun _ => true
      | none => pure FoldRedelegatedBondsResult.default
    let totalNotRedelegated := unbond.2 - resultFold.totalRedelegated
    let afterNotRedelegated ← applyListSlashesTo params.owned listSlashes totalNotRedelegated
    let amountAfterSlashing := afterNotRedelegated + resultFold.totalAfterSlashing
    pure ⟨resultSlashing.sum + amountAfterSlashing,
      resultSlashing.epochMap.insert unbond.1 amountAfterSlashing⟩)
    ResultSlashing.default

/-! ## The writes of `unbond_tokens` -/

/-- `new_unbonds_map`: the amount taken from each bond unbonded, by start epoch. -/
def newUnbondsMap (bonds : SortedMap ℕ ℕ) (bondsToUnbond : BondsForRemoval) : SortedMap ℕ ℕ :=
  SortedMap.ofList (newUnbonds bonds bondsToUnbond)

/-- `unbonds.at(start)`: the unbonds of a start epoch, by withdrawable epoch. -/
def recordsAt (unbonds : SortedMap ℕ (SortedMap ℕ ℕ)) (start : ℕ) : SortedMap ℕ ℕ :=
  (unbonds.find? start).getD SortedMap.empty

/-- The loop of `unbond_tokens` that adds each new unbond to the unbonds of its
start epoch, at the withdrawable epoch. -/
def addUnbonds (unbonds : SortedMap ℕ (SortedMap ℕ ℕ)) (withdrawableEpoch : ℕ)
    (newUnbonds : List (ℕ × ℕ)) : SortedMap ℕ (SortedMap ℕ ℕ) :=
  newUnbonds.foldl (fun unbonds unbond =>
    unbonds.insert unbond.1 (addAt (recordsAt unbonds unbond.1) withdrawableEpoch unbond.2)) unbonds

/-- Each redelegated amount of `changes` added to `tokens`. -/
def addTokens (tokens changes : RedelegatedTokens Address) : RedelegatedTokens Address :=
  changes.entries.foldl (fun tokens srcChanges =>
    srcChanges.2.entries.foldl (fun tokens change => addToken tokens srcChanges.1 change.1 change.2)
      tokens) tokens

/-- The loop of `unbond_tokens` that adds the new redelegated unbonds to the
delegator's, at the withdrawable epoch. -/
def addRedelegatedUnbonds (redelegatedUnbonds : SortedMap ℕ (SortedMap ℕ (RedelegatedTokens Address)))
    (withdrawableEpoch : ℕ) (newRedelegatedUnbonds : SortedMap ℕ (RedelegatedTokens Address)) :
    SortedMap ℕ (SortedMap ℕ (RedelegatedTokens Address)) :=
  newRedelegatedUnbonds.entries.foldl (fun redelegatedUnbonds unbonds =>
    let byWithdrawable := (redelegatedUnbonds.find? unbonds.1).getD SortedMap.empty
    redelegatedUnbonds.insert unbonds.1 (byWithdrawable.insert withdrawableEpoch
      (addTokens (tokensAt byWithdrawable withdrawableEpoch) unbonds.2))) redelegatedUnbonds

/-- The loop of `unbond_tokens` that moves each new unbond from the validator's
total bonded to its total unbonded at the pipeline epoch. -/
def moveTotals (totalBonded totalUnbonded : SortedMap ℕ ℕ) (newUnbonds : List (ℕ × ℕ)) :
    Except SlashError (SortedMap ℕ ℕ × SortedMap ℕ ℕ) :=
  newUnbonds.foldlM (fun totals unbond => do
    let totalBonded ← subAt totals.1 unbond.1 unbond.2
    pure (totalBonded, addAt totals.2 unbond.1 unbond.2)) (totalBonded, totalUnbonded)

/-- `.at(redelegation_start).at(src_validator).try_update(bond_start, |current|
checked!(current - change))`. -/
def subToken (map : SortedMap ℕ (RedelegatedTokens Address)) (redelegationStart : ℕ)
    (srcValidator : Address) (bondStart change : ℕ) :
    Except SlashError (SortedMap ℕ (RedelegatedTokens Address)) := do
  let tokens := tokensAt map redelegationStart
  let bonds ← subAt (tokensOf tokens srcValidator) bondStart change
  pure (map.insert redelegationStart (tokens.insert srcValidator bonds))

/-- The loop of `unbond_tokens` that moves the new redelegated unbonds from the
validator's total redelegated bonded to its total redelegated unbonded at the
pipeline epoch. -/
def moveTotalRedelegated (totalBonded totalUnbonded : SortedMap ℕ (RedelegatedTokens Address))
    (newRedelegatedUnbonds : SortedMap ℕ (RedelegatedTokens Address)) :
    Except SlashError
      (SortedMap ℕ (RedelegatedTokens Address) × SortedMap ℕ (RedelegatedTokens Address)) :=
  newRedelegatedUnbonds.entries.foldlM (fun totals unbonds =>
    unbonds.2.entries.foldlM (fun totals changes =>
      changes.2.entries.foldlM (fun totals change => do
        let bonded ← subToken totals.1 unbonds.1 changes.1 change.1 change.2
        let tokens := tokensAt totals.2 unbonds.1
        pure (bonded, totals.2.insert unbonds.1 (addToken tokens changes.1 change.1 change.2)))
        totals) totals) (totalBonded, totalUnbonded)

/-- `is_validator`: the address has a maximum commission rate change. -/
def PosStore.isValidator (store : PosStore Address) (address : Address) : Bool :=
  (store.maxCommissionRateChange address).isSome

/-- `is_validator_frozen`: a slash of the validator is still to be processed. -/
def PosStore.isValidatorFrozen (store : PosStore Address) (params : PosParams) (validator : Address)
    (currentEpoch : ℕ) : Except SlashError Bool :=
  match store.lastSlashEpoch validator with
  | some lastEpoch => do
      let offset ← params.owned.slashProcessingEpochOffset
      let frozenUntil ← epochCheckedAdd lastEpoch offset
      pure (decide (currentEpoch < frozenUntil))
  | none => pure false

/-- The checks of `unbond_tokens` on the validator: it is one, and not frozen. -/
def PosStore.checkValidator (store : PosStore Address) (params : PosParams) (validator : Address)
    (currentEpoch : ℕ) : Except (UnbondTokensError Address) Unit :=
  if !store.isValidator validator then .error (.notAValidator validator)
  else do
    let frozen ← (store.isValidatorFrozen params validator currentEpoch).mapError .checked
    if frozen then .error (.validatorIsFrozen validator) else .ok ()

/-- The checks of `unbond_tokens`: a source is not another validator, and the
validator's own checks. -/
def PosStore.checkUnbond (store : PosStore Address) (params : PosParams) (source : Option Address)
    (validator : Address) (currentEpoch : ℕ) : Except (UnbondTokensError Address) Unit :=
  match source with
  | some source =>
      if source ≠ validator ∧ store.isValidator source = true then
        .error (.sourceMustNotBeAValidator source)
      else store.checkValidator params validator currentEpoch
  | none => store.checkValidator params validator currentEpoch

/-- The storage after the writes of `unbond_tokens`, from what it computed:
the bonds cut, the unbonds and redelegated unbonds recorded unless the unbond is
part of a redelegation, and the totals of the validator. -/
def PosStore.unbondWrites (store : PosStore Address) (source validator : Address)
    (amount pipelineEpoch withdrawableEpoch : ℕ) (isRedelegation : Bool)
    (newRedelegatedUnbonds updatedRedelegatedBonds : SortedMap ℕ (RedelegatedTokens Address))
    (totals : SortedMap ℕ ℕ × SortedMap ℕ ℕ)
    (redelegatedTotals : SortedMap ℕ (RedelegatedTokens Address) × SortedMap ℕ (RedelegatedTokens Address)) :
    PosStore Address :=
  let bonds := store.bondStore.bonds (source, validator)
  let bondsToUnbond := findBondsToRemove bonds amount
  { store with
    bondStore := ⟨Function.update store.bondStore.bonds (source, validator)
        (removeBonds bonds bondsToUnbond),
      Function.update store.bondStore.redelegatedBonds (source, validator) updatedRedelegatedBonds⟩
    unbonds := if isRedelegation then store.unbonds
      else Function.update store.unbonds (source, validator)
        (addUnbonds (store.unbonds (source, validator)) withdrawableEpoch
          (newUnbondsMap bonds bondsToUnbond).entries)
    redelegatedUnbonds := if isRedelegation then store.redelegatedUnbonds
      else Function.update store.redelegatedUnbonds (source, validator)
        (addRedelegatedUnbonds (store.redelegatedUnbonds (source, validator)) withdrawableEpoch
          newRedelegatedUnbonds)
    totalBonded := Function.update store.totalBonded validator totals.1
    totalUnbonded := Function.update store.totalUnbonded validator
      ((store.totalUnbonded validator).insert pipelineEpoch totals.2)
    totalRedelegatedBonded := Function.update store.totalRedelegatedBonded validator redelegatedTotals.1
    totalRedelegatedUnbonded := Function.update store.totalRedelegatedUnbonded validator
      ((store.totalRedelegatedUnbonded validator).insert pipelineEpoch redelegatedTotals.2) }

/-- What `unbond_tokens` computes and writes once its checks have passed, with
the `ResultSlashing` it returns. The redelegated unbonds are read from the
redelegated bonds before these are modified, as in the source. -/
def PosStore.writeUnbond (store : PosStore Address) (params : PosParams) (source validator : Address)
    (amount pipelineEpoch withdrawableEpoch : ℕ) (isRedelegation : Bool) :
    Except (UnbondTokensError Address) (PosStore Address × ResultSlashing) := do
  let bonds := store.bondStore.bonds (source, validator)
  let redelegatedBonds := store.bondStore.redelegatedBonds (source, validator)
  let bondsToUnbond := findBondsToRemove bonds amount
  let modified := modifiedRedelegation bonds redelegatedBonds bondsToUnbond
  let newUnbonds := newUnbondsMap bonds bondsToUnbond
  let newRedelegatedUnbonds ←
    (computeNewRedelegatedUnbonds redelegatedBonds bondsToUnbond.epochs modified).mapError .checked
  let updatedRedelegatedBonds ←
    (applyModifiedRedelegation (redelegatedBonds.eraseAll bondsToUnbond.epochs) modified).mapError .pos
  let totals ← (moveTotals (store.totalBonded validator)
    (recordsAt (store.totalUnbonded validator) pipelineEpoch) newUnbonds.entries).mapError .checked
  let redelegatedTotals ← (moveTotalRedelegated (store.totalRedelegatedBonded validator)
    (((store.totalRedelegatedUnbonded validator).find? pipelineEpoch).getD SortedMap.empty)
    newRedelegatedUnbonds).mapError .checked
  let resultSlashing ← (computeAmountAfterSlashingUnbond params store.validatorSlashes newUnbonds
    newRedelegatedUnbonds (store.validatorSlashes validator)).mapError .checked
  pure (store.unbondWrites source validator amount pipelineEpoch withdrawableEpoch isRedelegation
    newRedelegatedUnbonds updatedRedelegatedBonds totals redelegatedTotals, resultSlashing)

/-- `unbond_tokens`, up to its updates of the validator set, the deltas, the
delegation targets and the rewards counters. -/
def PosStore.unbondTokens (store : PosStore Address) (params : PosParams) (source : Option Address)
    (validator : Address) (amount currentEpoch : ℕ) (isRedelegation : Bool) :
    Except (UnbondTokensError Address) (PosStore Address × ResultSlashing) :=
  if amount = 0 then .ok (store, ResultSlashing.default)
  else do
    let pipelineEpoch ← (epochCheckedAdd currentEpoch params.pipelineLen).mapError .checked
    let withdrawableEpoch ← (do
      let offset ← params.withdrawableEpochOffset
      epochCheckedAdd currentEpoch offset).mapError .checked
    store.checkUnbond params source validator currentEpoch
    let source := source.getD validator
    let remainingAtPipeline := bondSumUpTo (store.bondStore.bonds (source, validator)) pipelineEpoch
    if remainingAtPipeline < amount then
      .error (.pos (.unbondAmountGreaterThanBond amount remainingAtPipeline))
    else store.writeUnbond params source validator amount pipelineEpoch withdrawableEpoch isRedelegation

/-! ## What a successful call did -/

theorem withdrawableEpochOffset_eq_ok {params : PosParams} {offset : ℕ}
    (hoffset : params.withdrawableEpochOffset = .ok offset) :
    offset = params.pipelineLen + params.owned.unbondingLen + params.owned.cubicSlashingWindowLength := by
  unfold PosParams.withdrawableEpochOffset at hoffset
  obtain ⟨first, hfirst, hsecond⟩ := bind_eq_ok hoffset
  rw [addU64_eq_ok hsecond, addU64_eq_ok hfirst]

/-- What a successful `unbond_tokens` of a nonzero amount did: the bond held the
amount at the pipeline epoch, and the writes ran at the pipeline and the
withdrawable epochs. -/
theorem PosStore.unbondTokens_eq_ok {store next : PosStore Address} {params : PosParams}
    {source : Option Address} {validator : Address} {amount currentEpoch : ℕ}
    {isRedelegation : Bool} {result : ResultSlashing} (hamount : amount ≠ 0)
    (hunbond : store.unbondTokens params source validator amount currentEpoch isRedelegation =
      .ok (next, result)) :
    amount ≤ bondSumUpTo (store.bondStore.bonds (source.getD validator, validator))
        (currentEpoch + params.pipelineLen) ∧
      store.writeUnbond params (source.getD validator) validator amount
        (currentEpoch + params.pipelineLen)
        (currentEpoch + (params.pipelineLen + params.owned.unbondingLen +
          params.owned.cubicSlashingWindowLength)) isRedelegation = .ok (next, result) := by
  rw [PosStore.unbondTokens, if_neg hamount] at hunbond
  obtain ⟨pipelineEpoch, hpipeline, hrest⟩ := bind_eq_ok hunbond
  obtain ⟨withdrawableEpoch, hwithdrawable, hrest⟩ := bind_eq_ok hrest
  obtain ⟨-, -, hrest⟩ := bind_eq_ok hrest
  obtain ⟨offset, hoffset, hadd⟩ := bind_eq_ok (mapError_eq_ok hwithdrawable)
  rw [addU64_eq_ok (mapError_eq_ok hpipeline), addU64_eq_ok hadd,
    withdrawableEpochOffset_eq_ok hoffset] at hrest
  dsimp only at hrest
  split_ifs at hrest with hlt
  exact ⟨Nat.le_of_not_lt hlt, hrest⟩

/-- What a successful `writeUnbond` computed, step by step, and the storage it
left. -/
theorem PosStore.writeUnbond_eq_ok {store next : PosStore Address} {params : PosParams}
    {source validator : Address} {amount pipelineEpoch withdrawableEpoch : ℕ}
    {isRedelegation : Bool} {result : ResultSlashing}
    (hwrite : store.writeUnbond params source validator amount pipelineEpoch withdrawableEpoch
      isRedelegation = .ok (next, result)) :
    ∃ newRedelegatedUnbonds updatedRedelegatedBonds totals redelegatedTotals,
      computeNewRedelegatedUnbonds (store.bondStore.redelegatedBonds (source, validator))
          (findBondsToRemove (store.bondStore.bonds (source, validator)) amount).epochs
          (modifiedRedelegation (store.bondStore.bonds (source, validator))
            (store.bondStore.redelegatedBonds (source, validator))
            (findBondsToRemove (store.bondStore.bonds (source, validator)) amount)) =
        .ok newRedelegatedUnbonds ∧
      applyModifiedRedelegation ((store.bondStore.redelegatedBonds (source, validator)).eraseAll
          (findBondsToRemove (store.bondStore.bonds (source, validator)) amount).epochs)
          (modifiedRedelegation (store.bondStore.bonds (source, validator))
            (store.bondStore.redelegatedBonds (source, validator))
            (findBondsToRemove (store.bondStore.bonds (source, validator)) amount)) =
        .ok updatedRedelegatedBonds ∧
      moveTotals (store.totalBonded validator) (recordsAt (store.totalUnbonded validator) pipelineEpoch)
          (newUnbondsMap (store.bondStore.bonds (source, validator))
            (findBondsToRemove (store.bondStore.bonds (source, validator)) amount)).entries =
        .ok totals ∧
      moveTotalRedelegated (store.totalRedelegatedBonded validator)
          (((store.totalRedelegatedUnbonded validator).find? pipelineEpoch).getD SortedMap.empty)
          newRedelegatedUnbonds = .ok redelegatedTotals ∧
      computeAmountAfterSlashingUnbond params store.validatorSlashes
          (newUnbondsMap (store.bondStore.bonds (source, validator))
            (findBondsToRemove (store.bondStore.bonds (source, validator)) amount))
          newRedelegatedUnbonds (store.validatorSlashes validator) = .ok result ∧
      next = store.unbondWrites source validator amount pipelineEpoch withdrawableEpoch isRedelegation
        newRedelegatedUnbonds updatedRedelegatedBonds totals redelegatedTotals := by
  unfold PosStore.writeUnbond at hwrite
  obtain ⟨newRedelegatedUnbonds, hnew, hrest⟩ := bind_eq_ok hwrite
  obtain ⟨updated, hupdated, hrest⟩ := bind_eq_ok hrest
  obtain ⟨totals, htotals, hrest⟩ := bind_eq_ok hrest
  obtain ⟨redelegatedTotals, hredelegatedTotals, hrest⟩ := bind_eq_ok hrest
  obtain ⟨resultSlashing, hresult, hpure⟩ := bind_eq_ok hrest
  cases hpure
  exact ⟨_, _, _, _, mapError_eq_ok hnew, mapError_eq_ok hupdated, mapError_eq_ok htotals,
    mapError_eq_ok hredelegatedTotals, mapError_eq_ok hresult, rfl⟩

end Namada.ProofOfStake
