/-
# Bonds and redelegated bonds over runs

`proof_of_stake/src/lib.rs`: `bond_tokens` adds to the bond of a delegator and a
validator at the pipeline epoch; `unbond_tokens` takes from the newest bonds
first, and takes the redelegated tokens of a bond cut in part before its other
tokens; `redelegate_tokens` unbonds from the source validator and bonds what is
left after slashing to the destination, recording under the new bond how much
came from which bond of the source.

Each bond holds at least the tokens redelegated into it, in every state a run of
these calls reaches (`RedelegationBounded`). A partial unbond that takes `u`
tokens from a bond leaves `total - min total u` of its redelegated tokens
(`unbondTokens_cut_bond`).

Only what the three functions read and write of the bonds and the redelegated
bonds is modelled; what slashing leaves of each unbonded bond
(`compute_amount_after_slashing_unbond`) is an input of each call.
-/

import Namada.ProofOfStake.Redelegation
import Namada.Math.Except

namespace Namada.ProofOfStake

open Namada.Math

variable {Address : Type} [LinearOrder Address]

/-- The bonds and the redelegated bonds of every pair of a delegator (the
source) and a validator. -/
structure BondStore (Address : Type) [LinearOrder Address] where
  /-- `bond_handle(source, validator)`: the bond deltas by start epoch. -/
  bonds : Address × Address → SortedMap ℕ ℕ
  /-- `delegator_redelegated_bonds_handle(delegator).at(validator)`. -/
  redelegatedBonds : Address × Address → SortedMap ℕ (RedelegatedTokens Address)

/-- No bonds at all. -/
def BondStore.empty : BondStore Address := ⟨fun _ => SortedMap.empty, fun _ => SortedMap.empty⟩

/-- `get_delta_val(..).unwrap_or_default()`. -/
def deltaVal (bonds : SortedMap ℕ ℕ) (epoch : ℕ) : ℕ := (bonds.find? epoch).getD 0

/-- `get_sum` of the bond deltas at an epoch: those that started by then. -/
def bondSumUpTo (bonds : SortedMap ℕ ℕ) (epoch : ℕ) : ℕ :=
  ((bonds.entries.filter fun entry => entry.1 ≤ epoch).map Prod.snd).sum

/-- `NestedMap::contains`: some tokens are redelegated into the bond of `epoch`. -/
def hasRedelegation (redelegatedBonds : SortedMap ℕ (RedelegatedTokens Address)) (epoch : ℕ) :
    Bool :=
  (tokensAt redelegatedBonds epoch).entries.any fun entry => !entry.2.entries.isEmpty

/-- The bond of `source` to `validator` that started at `epoch`. -/
def bondAt (store : BondStore Address) (source validator : Address) (epoch : ℕ) : ℕ :=
  deltaVal (store.bonds (source, validator)) epoch

/-- The tokens redelegated into that bond. -/
def redelegatedAt (store : BondStore Address) (source validator : Address) (epoch : ℕ) : ℕ :=
  totalRedelegated (tokensAt (store.redelegatedBonds (source, validator)) epoch)

/-! ## The calls -/

/-- `bond_tokens`, once the tokens are transferred to PoS: the bond at the
offset epoch grows by the amount. -/
def bondTokens (store : BondStore Address) (source validator : Address)
    (amount currentEpoch offset : ℕ) : BondStore Address :=
  if amount = 0 then store
  else
    let bonds := store.bonds (source, validator)
    let offsetEpoch := currentEpoch + offset
    { store with
      bonds := Function.update store.bonds (source, validator)
        (bonds.insert offsetEpoch (deltaVal bonds offsetEpoch + amount)) }

/-- `modifiedRedelegation` of `unbond_tokens`: the bond cut in part, if any of
its tokens were redelegated, has its redelegated tokens cut by what it loses. -/
def modifiedRedelegation (bonds : SortedMap ℕ ℕ)
    (redelegatedBonds : SortedMap ℕ (RedelegatedTokens Address)) (bondsToUnbond : BondsForRemoval) :
    ModifiedRedelegation Address :=
  match bondsToUnbond.newEntry with
  | some (bondEpoch, newBondAmount) =>
      if hasRedelegation redelegatedBonds bondEpoch then
        computeModifiedRedelegation (tokensAt redelegatedBonds bondEpoch) bondEpoch
          (deltaVal bonds bondEpoch - newBondAmount)
      else ModifiedRedelegation.default
  | none => ModifiedRedelegation.default

/-- `newUnbonds` of `unbond_tokens`: the amount taken from each bond unbonded. -/
def newUnbonds (bonds : SortedMap ℕ ℕ) (bondsToUnbond : BondsForRemoval) : List (ℕ × ℕ) :=
  let bondEpochsToUnbond := match bondsToUnbond.newEntry with
    | some (startEpoch, _) => List.insert startEpoch bondsToUnbond.epochs
    | none => bondsToUnbond.epochs
  bondEpochsToUnbond.map fun epoch =>
    let curBondValue := deltaVal bonds epoch
    (epoch, match bondsToUnbond.newEntry with
      | some (startEpoch, newBondAmount) =>
          if startEpoch = epoch then curBondValue - newBondAmount else curBondValue
      | none => curBondValue)

/-- What `unbond_tokens` reads and writes of the bonds and the redelegated bonds.
It returns the unbonded amounts by start epoch after slashing, which
`redelegate_tokens` bonds again. -/
def unbondTokens (store : BondStore Address) (source validator : Address)
    (amount currentEpoch pipelineLen : ℕ) (afterSlashing : ℕ → ℕ → ℕ) :
    Except PosError (BondStore Address × List (ℕ × ℕ)) :=
  if amount = 0 then .ok (store, [])
  else
    let pipelineEpoch := currentEpoch + pipelineLen
    let bonds := store.bonds (source, validator)
    let remainingAtPipeline := bondSumUpTo bonds pipelineEpoch
    if remainingAtPipeline < amount then
      .error (.unbondAmountGreaterThanBond amount remainingAtPipeline)
    else
      let redelegatedBonds := store.redelegatedBonds (source, validator)
      let bondsToUnbond := findBondsToRemove bonds amount
      let modified := modifiedRedelegation bonds redelegatedBonds bondsToUnbond
      let resultSlashing := (newUnbonds bonds bondsToUnbond).map
        fun unbond => (unbond.1, afterSlashing unbond.1 unbond.2)
      do
        let redelegatedBonds ←
          applyModifiedRedelegation (redelegatedBonds.eraseAll bondsToUnbond.epochs) modified
        pure (⟨Function.update store.bonds (source, validator) (removeBonds bonds bondsToUnbond),
          Function.update store.redelegatedBonds (source, validator) redelegatedBonds⟩,
          resultSlashing)

/-- Add each unbonded amount to the redelegated tokens of its start epoch
(`try_update` with `current + unbonded_amount`). -/
def addRedelegated (bonds : SortedMap ℕ ℕ) (unbonded : List (ℕ × ℕ)) : SortedMap ℕ ℕ :=
  unbonded.foldl (fun bonds unbond => bonds.insert unbond.1 (deltaVal bonds unbond.1 + unbond.2))
    bonds

/-- What `redelegate_tokens` reads and writes of the bonds and the redelegated
bonds. -/
def redelegateTokens (store : BondStore Address) (delegator srcValidator destValidator : Address)
    (currentEpoch pipelineLen amount : ℕ) (afterSlashing : ℕ → ℕ → ℕ) :
    Except PosError (BondStore Address) :=
  if amount = 0 then .ok store
  else if srcValidator = destValidator then .error .redelegationSrcEqDest
  else do
    let pipelineEpoch := currentEpoch + pipelineLen
    let (store, resultUnbond) ←
      unbondTokens store delegator srcValidator amount currentEpoch pipelineLen afterSlashing
    let amountAfterSlashing := (resultUnbond.map Prod.snd).sum
    let redelegatedBonds := store.redelegatedBonds (delegator, destValidator)
    let tokens := tokensAt redelegatedBonds pipelineEpoch
    let redelegatedBonds := redelegatedBonds.insert pipelineEpoch
      (tokens.insert srcValidator (addRedelegated (tokensOf tokens srcValidator) resultUnbond))
    let bonds := store.bonds (delegator, destValidator)
    let bonds := if amountAfterSlashing = 0 then bonds
      else bonds.insert pipelineEpoch (deltaVal bonds pipelineEpoch + amountAfterSlashing)
    pure ⟨Function.update store.bonds (delegator, destValidator) bonds,
      Function.update store.redelegatedBonds (delegator, destValidator) redelegatedBonds⟩

/-- The calls that change bonds. -/
inductive BondCall (Address : Type)
  /-- `bond_tokens`. -/
  | bond (source validator : Address) (amount currentEpoch offset : ℕ)
  /-- `unbond_tokens`. -/
  | unbond (source validator : Address) (amount currentEpoch pipelineLen : ℕ)
      (afterSlashing : ℕ → ℕ → ℕ)
  /-- `redelegate_tokens`. -/
  | redelegate (delegator srcValidator destValidator : Address) (currentEpoch pipelineLen amount : ℕ)
      (afterSlashing : ℕ → ℕ → ℕ)

/-- The result of one call. -/
def BondCall.apply (store : BondStore Address) : BondCall Address → Except PosError (BondStore Address)
  | .bond source validator amount currentEpoch offset =>
      .ok (bondTokens store source validator amount currentEpoch offset)
  | .unbond source validator amount currentEpoch pipelineLen afterSlashing =>
      (unbondTokens store source validator amount currentEpoch pipelineLen afterSlashing).map Prod.fst
  | .redelegate delegator srcValidator destValidator currentEpoch pipelineLen amount afterSlashing =>
      redelegateTokens store delegator srcValidator destValidator currentEpoch pipelineLen amount
        afterSlashing

/-- One call; one that fails leaves the store as it was. -/
def BondStore.step (store : BondStore Address) (call : BondCall Address) : BondStore Address :=
  match call.apply store with
  | .ok next => next
  | .error _ => store

/-- Calls one after another. -/
def BondStore.run (store : BondStore Address) : List (BondCall Address) → BondStore Address
  | [] => store
  | call :: calls => (store.step call).run calls

/-! ## Reads after writes -/

@[simp] theorem deltaVal_insert_self (bonds : SortedMap ℕ ℕ) (epoch amount : ℕ) :
    deltaVal (bonds.insert epoch amount) epoch = amount := by
  rw [deltaVal, SortedMap.find?_insert_self]
  rfl

theorem deltaVal_insert_of_ne (bonds : SortedMap ℕ ℕ) {epoch other : ℕ} (amount : ℕ)
    (hne : other ≠ epoch) : deltaVal (bonds.insert epoch amount) other = deltaVal bonds other := by
  rw [deltaVal, deltaVal, SortedMap.find?_insert_of_ne _ _ hne]

theorem deltaVal_eraseAll_of_mem (bonds : SortedMap ℕ ℕ) {epoch : ℕ} {epochs : List ℕ}
    (hepoch : epoch ∈ epochs) : deltaVal (bonds.eraseAll epochs) epoch = 0 := by
  rw [deltaVal, SortedMap.find?_eraseAll_of_mem _ hepoch]
  rfl

theorem deltaVal_eraseAll_of_not_mem (bonds : SortedMap ℕ ℕ) {epoch : ℕ} {epochs : List ℕ}
    (hepoch : epoch ∉ epochs) : deltaVal (bonds.eraseAll epochs) epoch = deltaVal bonds epoch := by
  rw [deltaVal, deltaVal, SortedMap.find?_eraseAll_of_not_mem _ hepoch]

/-- Without redelegated tokens, the bond's redelegated total is zero. -/
theorem totalRedelegated_of_not_hasRedelegation
    {redelegatedBonds : SortedMap ℕ (RedelegatedTokens Address)} {epoch : ℕ}
    (hnone : hasRedelegation redelegatedBonds epoch = false) :
    totalRedelegated (tokensAt redelegatedBonds epoch) = 0 := by
  have hempty := List.any_eq_false.mp hnone
  apply List.sum_eq_zero
  intro amount hamount
  obtain ⟨⟨src, bonds⟩, hentry, rfl⟩ := List.mem_map.mp hamount
  have hbonds : bonds.entries = [] := by simpa using hempty _ hentry
  show bonds.sumBy id = 0
  rw [SortedMap.sumBy, hbonds]
  rfl

/-- Adding the unbonded amounts adds their sum; the induction follows the list. -/
theorem amountSum_addRedelegated :
    ∀ (bonds : SortedMap ℕ ℕ) (unbonded : List (ℕ × ℕ)),
      amountSum (addRedelegated bonds unbonded) = amountSum bonds + (unbonded.map Prod.snd).sum
  | _, [] => rfl
  | bonds, (epoch, amount) :: unbonded => by
      have hinsert := SortedMap.sumBy_insert_add id epoch (deltaVal bonds epoch + amount) bonds
      rw [Option.map_id] at hinsert
      change amountSum (bonds.insert epoch (deltaVal bonds epoch + amount)) + deltaVal bonds epoch =
        amountSum bonds + (deltaVal bonds epoch + amount) at hinsert
      rw [addRedelegated, List.foldl_cons, ← addRedelegated,
        amountSum_addRedelegated (bonds.insert epoch (deltaVal bonds epoch + amount)) unbonded,
        List.map_cons, List.sum_cons]
      omega

/-! ## Bonds hold their redelegated tokens -/

/-- Each bond of one pair holds at least the tokens redelegated into it. -/
def PairBounded (bonds : SortedMap ℕ ℕ) (redelegatedBonds : SortedMap ℕ (RedelegatedTokens Address)) :
    Prop :=
  ∀ epoch, totalRedelegated (tokensAt redelegatedBonds epoch) ≤ deltaVal bonds epoch

/-- Each bond of every pair holds at least the tokens redelegated into it. -/
def RedelegationBounded (store : BondStore Address) : Prop :=
  ∀ source validator, PairBounded (store.bonds (source, validator))
    (store.redelegatedBonds (source, validator))

theorem redelegationBounded_empty : RedelegationBounded (BondStore.empty : BondStore Address) :=
  fun _ _ _ => Nat.zero_le _

/-- Writing one pair that stays bounded keeps the store bounded. -/
theorem RedelegationBounded.update {store : BondStore Address} (hbounded : RedelegationBounded store)
    (pair : Address × Address) {bonds : SortedMap ℕ ℕ}
    {redelegatedBonds : SortedMap ℕ (RedelegatedTokens Address)}
    (hpair : PairBounded bonds redelegatedBonds) :
    RedelegationBounded ⟨Function.update store.bonds pair bonds,
      Function.update store.redelegatedBonds pair redelegatedBonds⟩ := by
  intro source validator
  by_cases hsame : (source, validator) = pair
  · rw [hsame]
    simpa using hpair
  · simpa [Function.update_of_ne hsame] using hbounded source validator

/-- A bond that grows stays bounded. -/
theorem PairBounded.add {bonds : SortedMap ℕ ℕ}
    {redelegatedBonds : SortedMap ℕ (RedelegatedTokens Address)}
    (hpair : PairBounded bonds redelegatedBonds) (epoch amount : ℕ) :
    PairBounded (bonds.insert epoch (deltaVal bonds epoch + amount)) redelegatedBonds := by
  intro other
  by_cases hother : other = epoch
  · rw [hother, deltaVal_insert_self]
    exact Nat.le_add_right_of_le (hpair epoch)
  · rw [deltaVal_insert_of_ne _ _ hother]
    exact hpair other

/-- What an unbond of a nonzero amount leaves of the redelegated tokens: at the
bond it cuts by `u`, `total - min total u` of them; at every other epoch what is
left once the epochs unbonded whole are removed. -/
theorem applyModifiedRedelegation_cut {bonds : SortedMap ℕ ℕ}
    {redelegatedBonds next : SortedMap ℕ (RedelegatedTokens Address)}
    {amount bondEpoch newBondAmount : ℕ} (hamount : amount ≠ 0)
    (hnew : (findBondsToRemove bonds amount).newEntry = some (bondEpoch, newBondAmount))
    (happly : applyModifiedRedelegation
      (redelegatedBonds.eraseAll (findBondsToRemove bonds amount).epochs)
      (modifiedRedelegation bonds redelegatedBonds (findBondsToRemove bonds amount)) = .ok next) :
    (∀ other, other ≠ bondEpoch → tokensAt next other =
      tokensAt (redelegatedBonds.eraseAll (findBondsToRemove bonds amount).epochs) other) ∧
      totalRedelegated (tokensAt next bondEpoch) =
        totalRedelegated (tokensAt redelegatedBonds bondEpoch) -
          min (totalRedelegated (tokensAt redelegatedBonds bondEpoch))
            (deltaVal bonds bondEpoch - newBondAmount) := by
  obtain ⟨hfresh, bondAmount, hfound, -, hlt⟩ := findBondsToRemove_newEntry hnew
  have hbond : deltaVal bonds bondEpoch = bondAmount := by
    rw [deltaVal, hfound]
    rfl
  -- the cut bond's epoch is not one removed whole, so its tokens are still there
  have hsame := tokensAt_eraseAll_of_not_mem redelegatedBonds hfresh
  rw [modifiedRedelegation, hnew] at happly
  dsimp only at happly
  by_cases hredelegated : hasRedelegation redelegatedBonds bondEpoch
  · rw [if_pos hredelegated, ← hsame] at happly
    obtain ⟨modified, hmodified, hothers, htotal⟩ :=
      totalRedelegated_applyModifiedRedelegation
        (redelegatedBonds.eraseAll (findBondsToRemove bonds amount).epochs) bondEpoch
        (deltaVal bonds bondEpoch - newBondAmount)
    rw [hmodified] at happly
    cases happly
    have hcut : deltaVal bonds bondEpoch - newBondAmount ≠ 0 := by
      have := hlt hamount
      omega
    refine ⟨fun other hother => ?_, ?_⟩
    · rw [tokensAt, hothers other hother, ← tokensAt]
    · rw [htotal, if_neg hcut, hsame]
  · -- with nothing redelegated into the cut bond, nothing of it is modified
    rw [if_neg hredelegated] at happly
    cases happly
    refine ⟨fun _ _ => rfl, ?_⟩
    rw [hsame, totalRedelegated_of_not_hasRedelegation (Bool.eq_false_iff.mpr hredelegated)]
    rfl

/-- An unbond of a nonzero amount keeps a pair bounded: the bonds unbonded whole
go with their redelegated tokens, and the bond cut in part by `u` keeps
`total - min total u` of them. -/
theorem PairBounded.unbond {bonds : SortedMap ℕ ℕ}
    {redelegatedBonds next : SortedMap ℕ (RedelegatedTokens Address)}
    (hpair : PairBounded bonds redelegatedBonds) {amount : ℕ} (hamount : amount ≠ 0)
    (happly : applyModifiedRedelegation
      (redelegatedBonds.eraseAll (findBondsToRemove bonds amount).epochs)
      (modifiedRedelegation bonds redelegatedBonds (findBondsToRemove bonds amount)) = .ok next) :
    PairBounded (removeBonds bonds (findBondsToRemove bonds amount)) next := by
  -- the bonds and redelegated tokens of epochs unbonded whole are both gone
  have hremoved : PairBounded (bonds.eraseAll (findBondsToRemove bonds amount).epochs)
      (redelegatedBonds.eraseAll (findBondsToRemove bonds amount).epochs) := by
    intro epoch
    by_cases hepoch : epoch ∈ (findBondsToRemove bonds amount).epochs
    · rw [tokensAt_eraseAll_of_mem _ hepoch]
      exact Nat.zero_le _
    · rw [tokensAt_eraseAll_of_not_mem _ hepoch, deltaVal_eraseAll_of_not_mem _ hepoch]
      exact hpair epoch
  cases hnew : (findBondsToRemove bonds amount).newEntry with
  | none =>
      rw [modifiedRedelegation, hnew] at happly
      cases happly
      simpa only [removeBonds, hnew] using hremoved
  | some entry =>
      obtain ⟨bondEpoch, newBondAmount⟩ := entry
      obtain ⟨hothers, hcut⟩ := applyModifiedRedelegation_cut hamount hnew happly
      obtain ⟨-, bondAmount, hfound, hle, -⟩ := findBondsToRemove_newEntry hnew
      have hbond : deltaVal bonds bondEpoch = bondAmount := by
        rw [deltaVal, hfound]
        rfl
      simp only [removeBonds, hnew]
      intro epoch
      by_cases hepoch : epoch = bondEpoch
      · -- what is left of the redelegated tokens fits in what is left of the bond
        have hbefore := hpair bondEpoch
        rw [hepoch, deltaVal_insert_self, hcut]
        omega
      · rw [deltaVal_insert_of_ne _ _ hepoch, hothers epoch hepoch]
        exact hremoved epoch

/-- What a successful unbond did: nothing for a zero amount; otherwise the
removal of `find_bonds_to_remove` on the bonds, and the modified redelegation
on the redelegated bonds with those unbonded whole removed. -/
theorem unbondTokens_cases {store next : BondStore Address} {source validator : Address}
    {amount currentEpoch pipelineLen : ℕ} {afterSlashing : ℕ → ℕ → ℕ} {unbonds : List (ℕ × ℕ)}
    (hunbond : unbondTokens store source validator amount currentEpoch pipelineLen afterSlashing =
      .ok (next, unbonds)) :
    (amount = 0 ∧ next = store) ∨
      (amount ≠ 0 ∧ ∃ redelegatedBonds,
        applyModifiedRedelegation ((store.redelegatedBonds (source, validator)).eraseAll
            (findBondsToRemove (store.bonds (source, validator)) amount).epochs)
          (modifiedRedelegation (store.bonds (source, validator))
            (store.redelegatedBonds (source, validator))
            (findBondsToRemove (store.bonds (source, validator)) amount)) = .ok redelegatedBonds ∧
        next = ⟨Function.update store.bonds (source, validator)
            (removeBonds (store.bonds (source, validator))
              (findBondsToRemove (store.bonds (source, validator)) amount)),
          Function.update store.redelegatedBonds (source, validator) redelegatedBonds⟩) := by
  rw [unbondTokens] at hunbond
  by_cases hzero : amount = 0
  · rw [if_pos hzero] at hunbond
    cases hunbond
    exact Or.inl ⟨hzero, rfl⟩
  rw [if_neg hzero] at hunbond
  dsimp only at hunbond
  by_cases hfit : bondSumUpTo (store.bonds (source, validator)) (currentEpoch + pipelineLen) < amount
  · rw [if_pos hfit] at hunbond
    cases hunbond
  rw [if_neg hfit] at hunbond
  obtain ⟨redelegatedBonds, happly, hresult⟩ := bind_eq_ok hunbond
  cases hresult
  exact Or.inr ⟨hzero, redelegatedBonds, happly, rfl⟩

theorem unbondTokens_bounded {store next : BondStore Address} {source validator : Address}
    {amount currentEpoch pipelineLen : ℕ} {afterSlashing : ℕ → ℕ → ℕ} {unbonds : List (ℕ × ℕ)}
    (hbounded : RedelegationBounded store)
    (hunbond : unbondTokens store source validator amount currentEpoch pipelineLen afterSlashing =
      .ok (next, unbonds)) :
    RedelegationBounded next := by
  rcases unbondTokens_cases hunbond with ⟨-, rfl⟩ | ⟨hamount, redelegatedBonds, happly, rfl⟩
  · exact hbounded
  · exact hbounded.update (source, validator) ((hbounded source validator).unbond hamount happly)

theorem redelegateTokens_bounded {store next : BondStore Address}
    {delegator srcValidator destValidator : Address} {currentEpoch pipelineLen amount : ℕ}
    {afterSlashing : ℕ → ℕ → ℕ} (hbounded : RedelegationBounded store)
    (hredelegate : redelegateTokens store delegator srcValidator destValidator currentEpoch
      pipelineLen amount afterSlashing = .ok next) :
    RedelegationBounded next := by
  rw [redelegateTokens] at hredelegate
  split_ifs at hredelegate with hzero hsame
  · cases hredelegate
    exact hbounded
  obtain ⟨⟨unbonded, resultUnbond⟩, hunbond, hrest⟩ := bind_eq_ok hredelegate
  cases hrest
  have hunbonded := unbondTokens_bounded hbounded hunbond
  apply hunbonded.update (delegator, destValidator)
  -- the destination's bond at the pipeline grows by what its redelegated tokens grow by
  intro epoch
  by_cases hepoch : epoch = currentEpoch + pipelineLen
  · rw [hepoch, tokensAt_insert_self]
    have hinsert := totalRedelegated_insert_add
      (tokensAt (unbonded.redelegatedBonds (delegator, destValidator)) (currentEpoch + pipelineLen))
      srcValidator (addRedelegated (tokensOf (tokensAt (unbonded.redelegatedBonds
        (delegator, destValidator)) (currentEpoch + pipelineLen)) srcValidator) resultUnbond)
    rw [amountSum_addRedelegated] at hinsert
    have hbefore := hunbonded delegator destValidator (currentEpoch + pipelineLen)
    split_ifs with hnothing
    · omega
    · rw [deltaVal_insert_self]
      omega
  · rw [tokensAt_insert_of_ne _ _ hepoch]
    have hbefore := hunbonded delegator destValidator epoch
    split_ifs
    · exact hbefore
    · rw [deltaVal_insert_of_ne _ _ hepoch]
      exact hbefore

theorem bondTokens_bounded {store : BondStore Address} (hbounded : RedelegationBounded store)
    (source validator : Address) (amount currentEpoch offset : ℕ) :
    RedelegationBounded (bondTokens store source validator amount currentEpoch offset) := by
  rw [bondTokens]
  split_ifs with hzero
  · exact hbounded
  · have hpair := (hbounded source validator).add (currentEpoch + offset) amount
    have hupdate := hbounded.update (source, validator) hpair
    rwa [Function.update_eq_self] at hupdate

/-- Every call keeps the bonds bounded; one that fails changes nothing. -/
theorem step_bounded {store : BondStore Address} (hbounded : RedelegationBounded store)
    (call : BondCall Address) : RedelegationBounded (store.step call) := by
  unfold BondStore.step
  split
  · next next happly =>
      cases call with
      | bond source validator amount currentEpoch offset =>
          cases happly
          exact bondTokens_bounded hbounded source validator amount currentEpoch offset
      | unbond source validator amount currentEpoch pipelineLen afterSlashing =>
          obtain ⟨⟨unbonded, unbonds⟩, hunbond, hresult⟩ := map_eq_ok happly
          cases hresult
          exact unbondTokens_bounded hbounded hunbond
      | redelegate delegator srcValidator destValidator currentEpoch pipelineLen amount
          afterSlashing =>
          exact redelegateTokens_bounded hbounded happly
  · exact hbounded

/-- Runs keep the bonds bounded; the induction follows the calls. -/
theorem run_bounded : ∀ {store : BondStore Address} (calls : List (BondCall Address)),
    RedelegationBounded store → RedelegationBounded (store.run calls)
  | _, [], hbounded => hbounded
  | _, call :: calls, hbounded => run_bounded calls (step_bounded hbounded call)

/-- A partial unbond of a nonzero amount sets the bond it cuts to what is left,
and leaves `total - min total u` of the tokens redelegated into it, `u` being
what the bond lost. -/
theorem unbondTokens_cut_bond {store next : BondStore Address} {source validator : Address}
    {amount currentEpoch pipelineLen : ℕ} {afterSlashing : ℕ → ℕ → ℕ} {unbonds : List (ℕ × ℕ)}
    {bondEpoch newBondAmount : ℕ} (hamount : amount ≠ 0)
    (hunbond : unbondTokens store source validator amount currentEpoch pipelineLen afterSlashing =
      .ok (next, unbonds))
    (hnew : (findBondsToRemove (store.bonds (source, validator)) amount).newEntry =
      some (bondEpoch, newBondAmount)) :
    bondAt next source validator bondEpoch = newBondAmount ∧
      redelegatedAt next source validator bondEpoch =
        redelegatedAt store source validator bondEpoch -
          min (redelegatedAt store source validator bondEpoch)
            (bondAt store source validator bondEpoch - newBondAmount) := by
  rcases unbondTokens_cases hunbond with ⟨hzero, -⟩ | ⟨-, redelegatedBonds, happly, rfl⟩
  · exact absurd hzero hamount
  obtain ⟨-, hcut⟩ := applyModifiedRedelegation_cut hamount hnew happly
  refine ⟨?_, ?_⟩
  · simp only [bondAt, Function.update_self, removeBonds, hnew, deltaVal_insert_self]
  · simp only [redelegatedAt, Function.update_self, bondAt]
    exact hcut

/-- A bond of a hundred at epoch 5 from delegator 0 to validator 1, thirty of them
redelegated from validator 2. -/
def redelegatedThirtyOfHundred : BondStore ℕ :=
  BondStore.empty.run [.bond 0 2 30 0 2, .bond 0 1 70 3 2,
    .redelegate 0 2 1 3 2 30 fun _ unbonded => unbonded]

/-- In every state a run reaches from no bonds, each bond holds at least the
tokens redelegated into it; and a partial unbond of `u` tokens from a bond
leaves `total - min total u` of its redelegated tokens, so that redelegated
tokens are unbonded first. -/
theorem redelegatedBonds_within_bonds :
    (∀ (calls : List (BondCall Address)) (source validator : Address) (epoch : ℕ),
      redelegatedAt (BondStore.empty.run calls) source validator epoch ≤
        bondAt (BondStore.empty.run calls) source validator epoch) ∧
    ∀ (store next : BondStore Address) (source validator : Address)
      (amount currentEpoch pipelineLen : ℕ) (afterSlashing : ℕ → ℕ → ℕ)
      (unbonds : List (ℕ × ℕ)) (bondEpoch newBondAmount : ℕ), amount ≠ 0 →
      unbondTokens store source validator amount currentEpoch pipelineLen afterSlashing =
        .ok (next, unbonds) →
      (findBondsToRemove (store.bonds (source, validator)) amount).newEntry =
        some (bondEpoch, newBondAmount) →
      bondAt next source validator bondEpoch = newBondAmount ∧
        redelegatedAt next source validator bondEpoch =
          redelegatedAt store source validator bondEpoch -
            min (redelegatedAt store source validator bondEpoch)
              (bondAt store source validator bondEpoch - newBondAmount) := by
  refine ⟨fun calls source validator epoch => ?_, fun _ _ _ _ _ _ _ _ _ _ _ hamount hunbond hnew =>
    unbondTokens_cut_bond hamount hunbond hnew⟩
  exact run_bounded calls redelegationBounded_empty source validator epoch

/-- In the run to that bond each bond holds its redelegated tokens, and
unbonding fifty keeps fifty bonded with `30 - min 30 50` of them redelegated. -/
theorem redelegatedBonds_within_bonds_at_partialUnbond :
    redelegatedAt redelegatedThirtyOfHundred 0 1 5 ≤ bondAt redelegatedThirtyOfHundred 0 1 5 ∧
      ∃ next unbonds, unbondTokens redelegatedThirtyOfHundred 0 1 50 5 2
          (fun _ unbonded => unbonded) = .ok (next, unbonds) ∧
        bondAt next 0 1 5 = 50 ∧ redelegatedAt next 0 1 5 = 30 - min 30 (100 - 50) := by
  obtain ⟨hrun, hunbond⟩ := @redelegatedBonds_within_bonds ℕ _
  obtain ⟨next, unbonds, hok⟩ : ∃ next unbonds, unbondTokens redelegatedThirtyOfHundred 0 1 50 5 2
      (fun _ unbonded => unbonded) = .ok (next, unbonds) := ⟨_, _, rfl⟩
  -- the removal cuts the bond of epoch 5 down to fifty
  obtain ⟨hbond, hredelegated⟩ := hunbond _ next 0 1 50 5 2 _ unbonds 5 50 (by decide) hok (by decide)
  have hbefore : redelegatedAt redelegatedThirtyOfHundred 0 1 5 = 30 ∧
      bondAt redelegatedThirtyOfHundred 0 1 5 = 100 := by decide
  refine ⟨hrun [.bond 0 2 30 0 2, .bond 0 1 70 3 2,
    .redelegate 0 2 1 3 2 30 fun _ unbonded => unbonded] 0 1 5, next, unbonds, hok, hbond, ?_⟩
  rw [hredelegated, hbefore.1, hbefore.2]

/-- Unbonding fifty of the bond of a hundred leaves fifty bonded and none of them
redelegated, not the thirty that `min (redelegated) (remaining bond)` gives. -/
theorem partialUnbond_removes_redelegated_first :
    redelegatedAt redelegatedThirtyOfHundred 0 1 5 = 30 ∧
      bondAt redelegatedThirtyOfHundred 0 1 5 = 100 ∧
      ∃ next unbonds, unbondTokens redelegatedThirtyOfHundred 0 1 50 5 2
          (fun _ unbonded => unbonded) = .ok (next, unbonds) ∧
        bondAt next 0 1 5 = 50 ∧ redelegatedAt next 0 1 5 = 0 := by
  refine ⟨by decide, by decide, _, _, rfl, by decide, by decide⟩

end Namada.ProofOfStake
