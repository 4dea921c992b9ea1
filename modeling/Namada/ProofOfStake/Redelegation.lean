/-
# Partial unbonds of redelegated bonds

`proof_of_stake/src/lib.rs`: a bond of a delegator to a validator maps the epoch
it started contributing to its amount. The part of it that came by
redelegation is recorded under the same start epoch, by source validator and by
the epoch the tokens started contributing to the source (`RedelegatedTokens`).
`find_bonds_to_remove` takes an amount from the newest bonds first: each bond
whole while it can, and then a part of one. `compute_modified_redelegation` does
the same over the redelegated tokens of one bond, source validator by source
validator, and `update_redelegated_bonds` applies what it computed.

A removal takes exactly the amount asked, or everything when there is less
(`amountSum_removeBonds`). Applied to the redelegated tokens of a bond from
which `u` tokens are unbonded, the modification leaves the redelegated total
less `min total u` (`totalRedelegated_applyModifiedRedelegation`): redelegated
tokens are unbonded before the others.

Amounts are natural numbers: the checked additions of the source overflow only
beyond the total supply.
-/

import Mathlib
import Namada.Math.SortedMap

namespace Namada.ProofOfStake

open Namada.Math

/-! ## Bonds -/

/-- The sum of the amounts of a map (`token::Amount::sum` over its values). -/
def amountSum (bonds : SortedMap ℕ ℕ) : ℕ := bonds.sumBy id

/-- `BondsForRemovalRes`: the epochs of the bonds unbonded whole, and the bond
unbonded in part with the amount left in it. -/
structure BondsForRemoval where
  epochs : List ℕ
  newEntry : Option (ℕ × ℕ)

/-- The loop of `find_bonds_to_remove`, over the bonds newest first. -/
def findBondsToRemoveFrom : List (ℕ × ℕ) → ℕ → BondsForRemoval → BondsForRemoval
  | [], _, bondsForRemoval => bondsForRemoval
  | (bondEpoch, bondAmount) :: older, remaining, bondsForRemoval =>
      let toUnbond := min bondAmount remaining
      let bondsForRemoval :=
        if toUnbond = bondAmount then
          { bondsForRemoval with epochs := List.insert bondEpoch bondsForRemoval.epochs }
        else { bondsForRemoval with newEntry := some (bondEpoch, bondAmount - toUnbond) }
      if remaining - toUnbond = 0 then bondsForRemoval
      else findBondsToRemoveFrom older (remaining - toUnbond) bondsForRemoval

/-- `find_bonds_to_remove`. -/
def findBondsToRemove (bonds : SortedMap ℕ ℕ) (amount : ℕ) : BondsForRemoval :=
  findBondsToRemoveFrom bonds.entries.reverse amount ⟨[], none⟩

/-- The removal of `unbond_tokens` (`updatedBonded`), which
`update_redelegated_bonds` makes again on the tokens of one source validator:
the bonds unbonded whole go, and the one unbonded in part is set to what is
left of it. -/
def removeBonds (bonds : SortedMap ℕ ℕ) (bondsForRemoval : BondsForRemoval) : SortedMap ℕ ℕ :=
  let removed := bonds.eraseAll bondsForRemoval.epochs
  match bondsForRemoval.newEntry with
  | some (bondEpoch, newBondAmount) => removed.insert bondEpoch newBondAmount
  | none => removed

/-- The keys of a map, newest first, are distinct. -/
theorem nodup_reverse_keys (bonds : SortedMap ℕ ℕ) : (bonds.entries.reverse.map Prod.fst).Nodup := by
  rw [List.map_reverse]
  apply List.pairwise_reverse.mpr
  exact (List.pairwise_map.mpr bonds.sorted).imp fun hlt => ne_of_gt hlt

/-- The loop takes from the bonds it visits the least of what it is asked and
what they hold; the induction follows the bonds visited. -/
theorem amountSum_removeBonds_from {bonds : SortedMap ℕ ℕ} :
    ∀ {older : List (ℕ × ℕ)} {remaining : ℕ} {epochs : List ℕ},
      (∀ entry ∈ older, entry ∈ bonds.entries) → (older.map Prod.fst).Nodup →
      (∀ entry ∈ older, entry.1 ∉ epochs) →
      amountSum (removeBonds bonds (findBondsToRemoveFrom older remaining ⟨epochs, none⟩)) +
          min remaining (older.map Prod.snd).sum =
        amountSum (bonds.eraseAll epochs)
  | [], _, _, _, _, _ => by simp [findBondsToRemoveFrom, removeBonds]
  | (bondEpoch, bondAmount) :: older, remaining, epochs, hmem, hnodup, hfresh => by
      obtain ⟨hnotMem, hnodupOlder⟩ := List.nodup_cons.mp hnodup
      have hbound : (bonds.eraseAll epochs).find? bondEpoch = some bondAmount := by
        rw [SortedMap.find?_eraseAll_of_not_mem _ (hfresh _ List.mem_cons_self)]
        exact SortedMap.find?_eq_some_iff.mpr (hmem _ List.mem_cons_self)
      have hinsert : List.insert bondEpoch epochs = bondEpoch :: epochs :=
        List.insert_of_not_mem (hfresh _ List.mem_cons_self)
      -- taking the whole bond takes its amount out of the sum
      have herase : amountSum ((bonds.eraseAll epochs).erase bondEpoch) + bondAmount =
          amountSum (bonds.eraseAll epochs) := by
        have hsum := SortedMap.sumBy_erase_add id bondEpoch (bonds.eraseAll epochs)
        rw [hbound] at hsum
        exact hsum
      rw [List.map_cons, List.sum_cons]
      by_cases hle : bondAmount ≤ remaining
      · rw [findBondsToRemoveFrom]
        dsimp only
        rw [min_eq_left hle, if_pos rfl, hinsert]
        by_cases hdone : remaining - bondAmount = 0
        · rw [if_pos hdone]
          simp only [removeBonds, SortedMap.eraseAll_cons]
          omega
        · -- the older bonds are visited with what is left to take
          rw [if_neg hdone]
          have hfreshOlder : ∀ entry ∈ older, entry.1 ∉ bondEpoch :: epochs := by
            intro entry hentry hcons
            rcases List.mem_cons.mp hcons with hsame | hold
            · exact hnotMem (List.mem_map.mpr ⟨entry, hentry, hsame⟩)
            · exact hfresh entry (List.mem_cons_of_mem _ hentry) hold
          have hrest : amountSum (removeBonds bonds (findBondsToRemoveFrom older
                (remaining - bondAmount) ⟨bondEpoch :: epochs, none⟩)) +
              min (remaining - bondAmount) (older.map Prod.snd).sum =
                amountSum (bonds.eraseAll (bondEpoch :: epochs)) :=
            amountSum_removeBonds_from
              (fun entry hentry => hmem entry (List.mem_cons_of_mem _ hentry)) hnodupOlder hfreshOlder
          rw [SortedMap.eraseAll_cons] at hrest
          omega
      · -- the bond holds more than what is left: it is cut, and the loop stops
        have hlt : remaining < bondAmount := Nat.lt_of_not_le hle
        rw [findBondsToRemoveFrom]
        dsimp only
        rw [min_eq_right (le_of_lt hlt), if_neg (ne_of_lt hlt), if_pos (Nat.sub_self _)]
        have hsum := SortedMap.sumBy_insert_add id bondEpoch (bondAmount - remaining)
          (bonds.eraseAll epochs)
        rw [hbound] at hsum
        simp only [removeBonds]
        change amountSum _ + bondAmount = amountSum _ + (bondAmount - remaining) at hsum
        omega

/-- A removal takes the amount asked, or all there is. -/
theorem amountSum_removeBonds (bonds : SortedMap ℕ ℕ) (amount : ℕ) :
    amountSum (removeBonds bonds (findBondsToRemove bonds amount)) = amountSum bonds - amount := by
  have hloop := @amountSum_removeBonds_from bonds bonds.entries.reverse amount []
    (fun entry hentry => List.mem_reverse.mp hentry) (nodup_reverse_keys bonds)
    (fun _ _ hnil => List.not_mem_nil hnil)
  have hsum : (bonds.entries.reverse.map Prod.snd).sum = amountSum bonds := by
    rw [List.map_reverse, List.sum_reverse]
    rfl
  rw [hsum, SortedMap.eraseAll_nil] at hloop
  rw [findBondsToRemove]
  omega

/-- The bond unbonded in part is one of the bonds, not one unbonded whole, and
keeps at most its amount, less when something was asked. -/
theorem findBondsToRemoveFrom_newEntry {bondEpoch newBondAmount : ℕ} :
    ∀ {older : List (ℕ × ℕ)} {remaining : ℕ} {epochs : List ℕ},
      (older.map Prod.fst).Nodup → (∀ entry ∈ older, entry.1 ∉ epochs) →
      (findBondsToRemoveFrom older remaining ⟨epochs, none⟩).newEntry =
        some (bondEpoch, newBondAmount) →
      bondEpoch ∉ (findBondsToRemoveFrom older remaining ⟨epochs, none⟩).epochs ∧
        ∃ bondAmount, (bondEpoch, bondAmount) ∈ older ∧ newBondAmount ≤ bondAmount ∧
          (remaining ≠ 0 → newBondAmount < bondAmount)
  | [], _, _, _, _, hnew => by cases hnew
  | (first, firstAmount) :: older, remaining, epochs, hnodup, hfresh, hnew => by
      obtain ⟨hnotMem, hnodupOlder⟩ := List.nodup_cons.mp hnodup
      have hinsert : List.insert first epochs = first :: epochs :=
        List.insert_of_not_mem (hfresh _ List.mem_cons_self)
      rw [findBondsToRemoveFrom] at hnew ⊢
      dsimp only at hnew ⊢
      by_cases hle : firstAmount ≤ remaining
      · rw [min_eq_left hle, if_pos rfl, hinsert] at hnew ⊢
        by_cases hdone : remaining - firstAmount = 0
        · rw [if_pos hdone] at hnew
          cases hnew
        · rw [if_neg hdone] at hnew ⊢
          have hfreshOlder : ∀ entry ∈ older, entry.1 ∉ first :: epochs := by
            intro entry hentry hcons
            rcases List.mem_cons.mp hcons with hsame | hold
            · exact hnotMem (List.mem_map.mpr ⟨entry, hentry, hsame⟩)
            · exact hfresh entry (List.mem_cons_of_mem _ hentry) hold
          obtain ⟨hfreshEpoch, bondAmount, hmem, hle', hlt'⟩ :=
            findBondsToRemoveFrom_newEntry hnodupOlder hfreshOlder hnew
          exact ⟨hfreshEpoch, bondAmount, List.mem_cons_of_mem _ hmem, hle', fun _ => hlt' hdone⟩
      · have hlt : remaining < firstAmount := Nat.lt_of_not_le hle
        rw [min_eq_right (le_of_lt hlt), if_neg (ne_of_lt hlt), if_pos (Nat.sub_self _)] at hnew ⊢
        obtain ⟨rfl, rfl⟩ := Prod.mk.inj (Option.some.inj hnew)
        exact ⟨hfresh _ List.mem_cons_self, firstAmount, List.mem_cons_self, Nat.sub_le _ _,
          fun hpos => by omega⟩

theorem findBondsToRemove_newEntry {bonds : SortedMap ℕ ℕ} {amount bondEpoch newBondAmount : ℕ}
    (hnew : (findBondsToRemove bonds amount).newEntry = some (bondEpoch, newBondAmount)) :
    bondEpoch ∉ (findBondsToRemove bonds amount).epochs ∧
      ∃ bondAmount, bonds.find? bondEpoch = some bondAmount ∧ newBondAmount ≤ bondAmount ∧
        (amount ≠ 0 → newBondAmount < bondAmount) := by
  obtain ⟨hfresh, bondAmount, hmem, hle, hlt⟩ :=
    findBondsToRemoveFrom_newEntry (nodup_reverse_keys bonds) (fun _ _ hnil => List.not_mem_nil hnil)
      hnew
  exact ⟨hfresh, bondAmount, SortedMap.find?_eq_some_iff.mpr (List.mem_reverse.mp hmem), hle, hlt⟩

/-! ## Redelegated tokens -/

variable {Address : Type} [LinearOrder Address]

/-- `RedelegatedTokens`: by source validator, the amounts by the epoch their bond
started contributing to it. -/
abbrev RedelegatedTokens (Address : Type) [LinearOrder Address] :=
  SortedMap Address (SortedMap ℕ ℕ)

/-- All the tokens redelegated. -/
def totalRedelegated (tokens : RedelegatedTokens Address) : ℕ := tokens.sumBy amountSum

/-- `redelegated_bonds.at(src_validator)`. -/
def tokensOf (tokens : RedelegatedTokens Address) (srcValidator : Address) : SortedMap ℕ ℕ :=
  (tokens.find? srcValidator).getD SortedMap.empty

/-- The source validators the iteration of `compute_modified_redelegation`
meets, which are those with tokens, in the order of their `BTreeSet`. -/
def srcValidators (tokens : RedelegatedTokens Address) : List Address :=
  (tokens.entries.filter fun entry => !entry.2.entries.isEmpty).map Prod.fst

/-- `ModifiedRedelegation`. -/
structure ModifiedRedelegation (Address : Type) where
  epoch : Option ℕ
  validatorsToRemove : List Address
  validatorToModify : Option Address
  epochsToRemove : List ℕ
  epochToModify : Option ℕ
  newAmount : Option ℕ

/-- `ModifiedRedelegation::default()`. -/
def ModifiedRedelegation.default : ModifiedRedelegation Address :=
  ⟨none, [], none, [], none, none⟩

/-- The loop of `compute_modified_redelegation` over the source validators. -/
def computeModifiedRedelegationFrom (tokens : RedelegatedTokens Address) :
    List Address → ℕ → ModifiedRedelegation Address → ModifiedRedelegation Address
  | [], _, modified => modified
  | srcValidator :: rest, remaining, modified =>
      if remaining = 0 then modified
      else
        let rbonds := tokensOf tokens srcValidator
        let totalSrcValAmount := amountSum rbonds
        let modified := { modified with
          validatorsToRemove := List.insert srcValidator modified.validatorsToRemove }
        if totalSrcValAmount ≤ remaining then
          computeModifiedRedelegationFrom tokens rest (remaining - totalSrcValAmount) modified
        else
          let bondsToRemove := findBondsToRemove rbonds remaining
          let modified := match bondsToRemove.newEntry with
            | some (bondEpoch, newBondAmount) =>
                { modified with
                  validatorToModify := some srcValidator
                  epochsToRemove := List.insert bondEpoch bondsToRemove.epochs
                  epochToModify := some bondEpoch
                  newAmount := some newBondAmount }
            | none =>
                { modified with
                  validatorToModify := some srcValidator
                  epochsToRemove := bondsToRemove.epochs }
          computeModifiedRedelegationFrom tokens rest 0 modified

/-- `compute_modified_redelegation`. -/
def computeModifiedRedelegation (tokens : RedelegatedTokens Address) (startEpoch amountToUnbond : ℕ) :
    ModifiedRedelegation Address :=
  let modified := { (ModifiedRedelegation.default : ModifiedRedelegation Address) with
    epoch := some startEpoch }
  if totalRedelegated tokens ≤ amountToUnbond then modified
  else computeModifiedRedelegationFrom tokens (srcValidators tokens) amountToUnbond modified

/-- The errors of the modelled PoS functions. -/
inductive PosError
  /-- `UnbondError::UnbondAmountGreaterThanBond`. -/
  | unbondAmountGreaterThanBond (amount remaining : ℕ)
  /-- `RedelegationError::RedelegationSrcEqDest`. -/
  | redelegationSrcEqDest
  /-- The source panics. -/
  | panic
  deriving DecidableEq

/-- `update_redelegated_bonds`. -/
def updateRedelegatedBonds (tokens : RedelegatedTokens Address)
    (modified : ModifiedRedelegation Address) : Except PosError (RedelegatedTokens Address) :=
  match modified.validatorToModify with
  | some valToModify =>
      let updatedValsToRemove := modified.validatorsToRemove.filter fun val => val != valToModify
      let tokens := tokens.eraseAll updatedValsToRemove
      let valBondsToModify := tokensOf tokens valToModify
      match modified.epochToModify with
      | some epochToModify =>
          let updatedEpochsToRemove :=
            modified.epochsToRemove.filter fun epoch => epoch != epochToModify
          let valBondsToModify := valBondsToModify.eraseAll updatedEpochsToRemove
          match modified.newAmount with
          | some newAmount =>
              .ok (tokens.insert valToModify (valBondsToModify.insert epochToModify newAmount))
          | none => .error .panic
      | none => .ok (tokens.insert valToModify (valBondsToModify.eraseAll modified.epochsToRemove))
  | none => .ok (tokens.eraseAll modified.validatorsToRemove)

/-- `redelegated_bonds.at(&epoch)` of a delegator's redelegated bonds. -/
def tokensAt (redelegatedBonds : SortedMap ℕ (RedelegatedTokens Address)) (epoch : ℕ) :
    RedelegatedTokens Address :=
  (redelegatedBonds.find? epoch).getD SortedMap.empty

@[simp] theorem tokensAt_insert_self (redelegatedBonds : SortedMap ℕ (RedelegatedTokens Address))
    (epoch : ℕ) (tokens : RedelegatedTokens Address) :
    tokensAt (redelegatedBonds.insert epoch tokens) epoch = tokens := by
  rw [tokensAt, SortedMap.find?_insert_self]
  rfl

theorem tokensAt_insert_of_ne (redelegatedBonds : SortedMap ℕ (RedelegatedTokens Address))
    {epoch other : ℕ} (tokens : RedelegatedTokens Address) (hne : other ≠ epoch) :
    tokensAt (redelegatedBonds.insert epoch tokens) other = tokensAt redelegatedBonds other := by
  rw [tokensAt, tokensAt, SortedMap.find?_insert_of_ne _ _ hne]

theorem tokensAt_eraseAll_of_mem (redelegatedBonds : SortedMap ℕ (RedelegatedTokens Address))
    {epoch : ℕ} {epochs : List ℕ} (hepoch : epoch ∈ epochs) :
    tokensAt (redelegatedBonds.eraseAll epochs) epoch = SortedMap.empty := by
  rw [tokensAt, SortedMap.find?_eraseAll_of_mem _ hepoch]
  rfl

theorem tokensAt_eraseAll_of_not_mem (redelegatedBonds : SortedMap ℕ (RedelegatedTokens Address))
    {epoch : ℕ} {epochs : List ℕ} (hepoch : epoch ∉ epochs) :
    tokensAt (redelegatedBonds.eraseAll epochs) epoch = tokensAt redelegatedBonds epoch := by
  rw [tokensAt, tokensAt, SortedMap.find?_eraseAll_of_not_mem _ hepoch]

/-- The application in `unbond_tokens` of a modified redelegation to the
delegator's redelegated bonds: with no validator to remove, all the tokens of
the epoch go (`remove_all`); otherwise `update_redelegated_bonds` rewrites them. -/
def applyModifiedRedelegation (redelegatedBonds : SortedMap ℕ (RedelegatedTokens Address))
    (modified : ModifiedRedelegation Address) :
    Except PosError (SortedMap ℕ (RedelegatedTokens Address)) :=
  match modified.epoch with
  | some epoch =>
      if modified.validatorsToRemove.isEmpty then .ok (redelegatedBonds.erase epoch)
      else do
        let updated ← updateRedelegatedBonds (tokensAt redelegatedBonds epoch) modified
        pure (redelegatedBonds.insert epoch updated)
  | none => .ok redelegatedBonds

/-! ## Totals of the redelegated tokens -/

theorem getD_map_amountSum (found : Option (SortedMap ℕ ℕ)) :
    (found.map amountSum).getD 0 = amountSum (found.getD SortedMap.empty) := by
  cases found <;> rfl

theorem totalRedelegated_erase_add (tokens : RedelegatedTokens Address) (src : Address) :
    totalRedelegated (tokens.erase src) + amountSum (tokensOf tokens src) = totalRedelegated tokens := by
  have hsum := SortedMap.sumBy_erase_add amountSum src tokens
  rw [getD_map_amountSum] at hsum
  exact hsum

theorem totalRedelegated_insert_add (tokens : RedelegatedTokens Address) (src : Address)
    (bonds : SortedMap ℕ ℕ) :
    totalRedelegated (tokens.insert src bonds) + amountSum (tokensOf tokens src) =
      totalRedelegated tokens + amountSum bonds := by
  have hsum := SortedMap.sumBy_insert_add amountSum src bonds tokens
  rw [getD_map_amountSum] at hsum
  exact hsum

theorem tokensOf_eraseAll_of_not_mem (tokens : RedelegatedTokens Address) {src : Address}
    {validators : List Address} (hsrc : src ∉ validators) :
    tokensOf (tokens.eraseAll validators) src = tokensOf tokens src := by
  rw [tokensOf, tokensOf, SortedMap.find?_eraseAll_of_not_mem _ hsrc]

theorem nodup_srcValidators (tokens : RedelegatedTokens Address) : (srcValidators tokens).Nodup := by
  apply List.Pairwise.imp ne_of_lt
  exact List.pairwise_map.mpr (tokens.sorted.filter _)

/-- The source validators with no tokens add nothing to the total. -/
theorem sum_filter_nonempty (tokens : RedelegatedTokens Address) :
    ∀ {entries : List (Address × SortedMap ℕ ℕ)}, (∀ entry ∈ entries, entry ∈ tokens.entries) →
      (((entries.filter fun entry => !entry.2.entries.isEmpty).map Prod.fst).map
          fun src => amountSum (tokensOf tokens src)).sum =
        (entries.map fun entry => amountSum entry.2).sum
  | [], _ => rfl
  | (src, bonds) :: rest, hmem => by
      have hrest := sum_filter_nonempty tokens fun entry hentry =>
        hmem entry (List.mem_cons_of_mem _ hentry)
      have hfound : tokensOf tokens src = bonds := by
        rw [tokensOf, SortedMap.find?_eq_some_iff.mpr (hmem _ List.mem_cons_self)]
        rfl
      by_cases hempty : bonds.entries.isEmpty
      · have hzero : amountSum bonds = 0 := by
          rw [amountSum, SortedMap.sumBy, List.isEmpty_iff.mp hempty]
          rfl
        simp only [List.filter_cons, hempty, Bool.not_true, Bool.false_eq_true, if_false,
          List.map_cons, List.sum_cons, hzero, zero_add]
        exact hrest
      · simp only [List.filter_cons, hempty, Bool.not_false, if_true, List.map_cons,
          List.sum_cons, hfound]
        rw [hrest]

theorem sum_srcValidators (tokens : RedelegatedTokens Address) :
    ((srcValidators tokens).map fun src => amountSum (tokensOf tokens src)).sum =
      totalRedelegated tokens :=
  sum_filter_nonempty tokens fun _ hentry => hentry

/-! ## The loop over the source validators -/

theorem computeModifiedRedelegationFrom_zero (tokens : RedelegatedTokens Address) :
    ∀ (srcs : List Address) (modified : ModifiedRedelegation Address),
      computeModifiedRedelegationFrom tokens srcs 0 modified = modified
  | [], _ => rfl
  | _ :: _, _ => by rw [computeModifiedRedelegationFrom, if_pos rfl]

theorem epoch_computeModifiedRedelegationFrom (tokens : RedelegatedTokens Address) :
    ∀ (srcs : List Address) (remaining : ℕ) (modified : ModifiedRedelegation Address),
      (computeModifiedRedelegationFrom tokens srcs remaining modified).epoch = modified.epoch
  | [], _, _ => rfl
  | src :: rest, remaining, modified => by
      rw [computeModifiedRedelegationFrom]
      dsimp only
      split_ifs with hzero hle
      · rfl
      · exact epoch_computeModifiedRedelegationFrom tokens rest _ _
      · rw [computeModifiedRedelegationFrom_zero]
        split <;> rfl

/-- Once a validator is to be removed, one stays so. -/
theorem validatorsToRemove_ne_nil (tokens : RedelegatedTokens Address) :
    ∀ {srcs : List Address} {remaining : ℕ} {modified : ModifiedRedelegation Address},
      modified.validatorsToRemove ≠ [] →
      (computeModifiedRedelegationFrom tokens srcs remaining modified).validatorsToRemove ≠ []
  | [], _, _, hne => hne
  | src :: rest, remaining, modified, hne => by
      have hinsert : List.insert src modified.validatorsToRemove ≠ [] :=
        List.ne_nil_of_mem List.mem_insert_self
      rw [computeModifiedRedelegationFrom]
      dsimp only
      split_ifs with hzero hle
      · exact hne
      · apply validatorsToRemove_ne_nil tokens
        exact hinsert
      · rw [computeModifiedRedelegationFrom_zero]
        split <;> exact hinsert

/-- With something to take and a source validator to take it from, the loop
marks a validator to remove. -/
theorem validatorsToRemove_ne_nil_of_pos (tokens : RedelegatedTokens Address) {src : Address}
    {rest : List Address} {remaining : ℕ} (modified : ModifiedRedelegation Address)
    (hremaining : remaining ≠ 0) :
    (computeModifiedRedelegationFrom tokens (src :: rest) remaining modified).validatorsToRemove ≠
      [] := by
  have hinsert : List.insert src modified.validatorsToRemove ≠ [] :=
    List.ne_nil_of_mem List.mem_insert_self
  rw [computeModifiedRedelegationFrom, if_neg hremaining]
  dsimp only
  split_ifs with hle
  · apply validatorsToRemove_ne_nil tokens
    exact hinsert
  · rw [computeModifiedRedelegationFrom_zero]
    split <;> exact hinsert

theorem updateRedelegatedBonds_of_none (tokens : RedelegatedTokens Address)
    {modified : ModifiedRedelegation Address} (hnone : modified.validatorToModify = none) :
    updateRedelegatedBonds tokens modified = .ok (tokens.eraseAll modified.validatorsToRemove) := by
  rw [updateRedelegatedBonds, hnone]

/-- Where a source validator holds more than what is left to take, the loop
stops there, and the update removes the validators before it and takes what is
left from its tokens as `find_bonds_to_remove` says. -/
theorem updateRedelegatedBonds_of_cut (tokens : RedelegatedTokens Address) {src : Address}
    {rest : List Address} {remaining : ℕ} {modified : ModifiedRedelegation Address}
    (hremaining : remaining ≠ 0) (hlt : remaining < amountSum (tokensOf tokens src))
    (hsrc : src ∉ modified.validatorsToRemove) (hepoch : modified.epochToModify = none) :
    updateRedelegatedBonds tokens (computeModifiedRedelegationFrom tokens (src :: rest) remaining modified) =
      .ok ((tokens.eraseAll modified.validatorsToRemove).insert src
        (removeBonds (tokensOf tokens src) (findBondsToRemove (tokensOf tokens src) remaining))) := by
  have hinsert : List.insert src modified.validatorsToRemove = src :: modified.validatorsToRemove :=
    List.insert_of_not_mem hsrc
  -- the other validators marked before stay marked, and keep their tokens
  have hkept : (modified.validatorsToRemove.filter fun val => val != src) =
      modified.validatorsToRemove :=
    List.filter_eq_self.mpr fun val hval => bne_iff_ne.mpr fun hsame => hsrc (hsame ▸ hval)
  have hvalBonds := tokensOf_eraseAll_of_not_mem tokens hsrc
  rw [computeModifiedRedelegationFrom, if_neg hremaining]
  dsimp only
  rw [if_neg (Nat.not_le.mpr hlt), computeModifiedRedelegationFrom_zero]
  cases hnew : (findBondsToRemove (tokensOf tokens src) remaining).newEntry with
  | none =>
      simp only [updateRedelegatedBonds, hinsert, List.filter_cons, bne_self_eq_false,
        Bool.false_eq_true, if_false, hkept, hvalBonds, hepoch, removeBonds, hnew]
  | some entry =>
      obtain ⟨bondEpoch, newBondAmount⟩ := entry
      have hfresh := (findBondsToRemove_newEntry hnew).1
      -- the epoch cut is not one of the epochs removed whole
      have hepochs : ((List.insert bondEpoch (findBondsToRemove (tokensOf tokens src) remaining).epochs).filter
          fun epoch => epoch != bondEpoch) = (findBondsToRemove (tokensOf tokens src) remaining).epochs := by
        rw [List.insert_of_not_mem hfresh, List.filter_cons, bne_self_eq_false]
        exact List.filter_eq_self.mpr fun epoch hepoch =>
          bne_iff_ne.mpr fun hsame => hfresh (hsame ▸ hepoch)
      simp only [updateRedelegatedBonds, hinsert, List.filter_cons, bne_self_eq_false,
        Bool.false_eq_true, if_false, hkept, hvalBonds, hepochs, removeBonds, hnew]

/-- The loop and the update take from the source validators, in order, the
least of what is asked and what they hold; the induction follows the source
validators visited. -/
theorem updateRedelegatedBonds_computeFrom (tokens : RedelegatedTokens Address) :
    ∀ {srcs : List Address} {remaining : ℕ} {modified : ModifiedRedelegation Address},
      srcs.Nodup → (∀ src ∈ srcs, src ∉ modified.validatorsToRemove) →
      modified.validatorToModify = none → modified.epochToModify = none →
      ∃ updated, updateRedelegatedBonds tokens
          (computeModifiedRedelegationFrom tokens srcs remaining modified) = .ok updated ∧
        totalRedelegated updated +
            min remaining (srcs.map fun src => amountSum (tokensOf tokens src)).sum =
          totalRedelegated (tokens.eraseAll modified.validatorsToRemove)
  | [], _, _, _, _, hnone, _ => by
      rw [computeModifiedRedelegationFrom, updateRedelegatedBonds_of_none tokens hnone]
      exact ⟨_, rfl, by simp⟩
  | src :: rest, remaining, modified, hnodup, hfresh, hnone, hepoch => by
      obtain ⟨hsrcRest, hnodupRest⟩ := List.nodup_cons.mp hnodup
      have hsrc : src ∉ modified.validatorsToRemove := hfresh src List.mem_cons_self
      -- removing the source validator takes its tokens out of the total
      have herase : totalRedelegated (tokens.eraseAll (src :: modified.validatorsToRemove)) +
          amountSum (tokensOf tokens src) =
            totalRedelegated (tokens.eraseAll modified.validatorsToRemove) := by
        rw [SortedMap.eraseAll_cons, ← tokensOf_eraseAll_of_not_mem tokens hsrc]
        exact totalRedelegated_erase_add _ src
      rw [List.map_cons, List.sum_cons]
      by_cases hzero : remaining = 0
      · rw [hzero, computeModifiedRedelegationFrom_zero, updateRedelegatedBonds_of_none tokens hnone]
        exact ⟨_, rfl, by simp⟩
      by_cases hle : amountSum (tokensOf tokens src) ≤ remaining
      · -- the source validator's tokens all go, and the loop goes on
        have hfreshRest : ∀ other ∈ rest, other ∉ src :: modified.validatorsToRemove := by
          intro other hother hmem
          rcases List.mem_cons.mp hmem with hsame | hold
          · exact hsrcRest (hsame ▸ hother)
          · exact hfresh other (List.mem_cons_of_mem _ hother) hold
        obtain ⟨updated, hupdate, htotal⟩ : ∃ updated, updateRedelegatedBonds tokens
            (computeModifiedRedelegationFrom tokens rest (remaining - amountSum (tokensOf tokens src))
              { modified with validatorsToRemove := src :: modified.validatorsToRemove }) =
                .ok updated ∧
            totalRedelegated updated + min (remaining - amountSum (tokensOf tokens src))
                (rest.map fun src => amountSum (tokensOf tokens src)).sum =
              totalRedelegated (tokens.eraseAll (src :: modified.validatorsToRemove)) :=
          updateRedelegatedBonds_computeFrom tokens hnodupRest hfreshRest hnone hepoch
        rw [computeModifiedRedelegationFrom, if_neg hzero]
        dsimp only
        rw [if_pos hle, List.insert_of_not_mem hsrc]
        exact ⟨updated, hupdate, by omega⟩
      · -- part of the source validator's tokens go, and the loop stops
        have hlt : remaining < amountSum (tokensOf tokens src) := Nat.lt_of_not_le hle
        rw [updateRedelegatedBonds_of_cut tokens hzero hlt hsrc hepoch]
        refine ⟨_, rfl, ?_⟩
        have hinsert := totalRedelegated_insert_add (tokens.eraseAll modified.validatorsToRemove) src
          (removeBonds (tokensOf tokens src) (findBondsToRemove (tokensOf tokens src) remaining))
        rw [tokensOf_eraseAll_of_not_mem tokens hsrc, amountSum_removeBonds] at hinsert
        omega

/-- The modification `unbond_tokens` computes and applies when it unbonds
`amountToUnbond` tokens of the bond of `epoch` leaves that epoch's redelegated
total less `min total amountToUnbond`, and all others as they were; unbonding
nothing removes all of them. -/
theorem totalRedelegated_applyModifiedRedelegation
    (redelegatedBonds : SortedMap ℕ (RedelegatedTokens Address)) (epoch amountToUnbond : ℕ) :
    ∃ next, applyModifiedRedelegation redelegatedBonds
        (computeModifiedRedelegation (tokensAt redelegatedBonds epoch) epoch amountToUnbond) =
          .ok next ∧
      (∀ other, other ≠ epoch → next.find? other = redelegatedBonds.find? other) ∧
      totalRedelegated (tokensAt next epoch) =
        if amountToUnbond = 0 then 0
        else totalRedelegated (tokensAt redelegatedBonds epoch) -
          min (totalRedelegated (tokensAt redelegatedBonds epoch)) amountToUnbond := by
  -- with no validator marked, the epoch's tokens are all removed
  have hremoveAll : ∀ modified : ModifiedRedelegation Address, modified.epoch = some epoch →
      modified.validatorsToRemove = [] →
      applyModifiedRedelegation redelegatedBonds modified = .ok (redelegatedBonds.erase epoch) := by
    intro modified hepoch hnil
    rw [applyModifiedRedelegation, hepoch, hnil]
    rfl
  have herased : totalRedelegated (tokensAt (redelegatedBonds.erase epoch) epoch) = 0 := by
    rw [tokensAt, SortedMap.find?_erase_self]
    rfl
  have herasedOthers : ∀ other, other ≠ epoch →
      (redelegatedBonds.erase epoch).find? other = redelegatedBonds.find? other :=
    fun other hother => SortedMap.find?_erase_of_ne _ hother
  by_cases hall : totalRedelegated (tokensAt redelegatedBonds epoch) ≤ amountToUnbond
  · -- all the redelegated tokens are unbonded
    rw [computeModifiedRedelegation, if_pos hall]
    refine ⟨_, hremoveAll _ rfl rfl, herasedOthers, ?_⟩
    rw [herased]
    split_ifs <;> omega
  by_cases hzero : amountToUnbond = 0
  · rw [computeModifiedRedelegation, if_neg hall, hzero, computeModifiedRedelegationFrom_zero]
    refine ⟨_, hremoveAll _ rfl rfl, herasedOthers, ?_⟩
    rw [herased, if_pos rfl]
  -- some source validators are visited, and the first of them is marked
  have hpos : 0 < totalRedelegated (tokensAt redelegatedBonds epoch) := by omega
  obtain ⟨src, rest, hsrcs⟩ : ∃ src rest, srcValidators (tokensAt redelegatedBonds epoch) = src :: rest := by
    cases hsrcs : srcValidators (tokensAt redelegatedBonds epoch) with
    | nil =>
        have hsum := sum_srcValidators (tokensAt redelegatedBonds epoch)
        rw [hsrcs] at hsum
        simp only [List.map_nil, List.sum_nil] at hsum
        omega
    | cons src rest => exact ⟨src, rest, rfl⟩
  -- the loop starts from the default modification, marked with the epoch
  let start : ModifiedRedelegation Address :=
    { (ModifiedRedelegation.default : ModifiedRedelegation Address) with epoch := some epoch }
  obtain ⟨updated, hupdate, htotal⟩ : ∃ updated, updateRedelegatedBonds (tokensAt redelegatedBonds epoch)
      (computeModifiedRedelegationFrom (tokensAt redelegatedBonds epoch)
        (srcValidators (tokensAt redelegatedBonds epoch)) amountToUnbond start) = .ok updated ∧
      totalRedelegated updated + min amountToUnbond
          ((srcValidators (tokensAt redelegatedBonds epoch)).map
            fun src => amountSum (tokensOf (tokensAt redelegatedBonds epoch) src)).sum =
        totalRedelegated ((tokensAt redelegatedBonds epoch).eraseAll start.validatorsToRemove) :=
    updateRedelegatedBonds_computeFrom (tokensAt redelegatedBonds epoch) (nodup_srcValidators _)
      (fun _ _ hnil => List.not_mem_nil hnil) rfl rfl
  rw [sum_srcValidators, show start.validatorsToRemove = [] from rfl, SortedMap.eraseAll_nil]
    at htotal
  have hmarked : (computeModifiedRedelegationFrom (tokensAt redelegatedBonds epoch)
      (srcValidators (tokensAt redelegatedBonds epoch)) amountToUnbond start).validatorsToRemove ≠ [] := by
    rw [hsrcs]
    exact validatorsToRemove_ne_nil_of_pos _ start hzero
  refine ⟨redelegatedBonds.insert epoch updated, ?_, fun other hother =>
    SortedMap.find?_insert_of_ne _ _ hother, ?_⟩
  · rw [computeModifiedRedelegation, if_neg hall]
    show applyModifiedRedelegation redelegatedBonds (computeModifiedRedelegationFrom
      (tokensAt redelegatedBonds epoch) (srcValidators (tokensAt redelegatedBonds epoch))
        amountToUnbond start) = _
    rw [applyModifiedRedelegation, epoch_computeModifiedRedelegationFrom,
      show start.epoch = some epoch from rfl]
    dsimp only
    rw [if_neg fun hempty => hmarked (List.isEmpty_iff.mp hempty), hupdate]
    rfl
  · rw [tokensAt, SortedMap.find?_insert_self, if_neg hzero]
    change totalRedelegated updated = _
    omega

end Namada.ProofOfStake
