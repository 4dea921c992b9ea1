/-
# What `unbond_tokens` takes, records and returns

A successful `unbond_tokens` of a nonzero amount, in a state that bonds, unbonds
and redelegations reach at epochs up to its pipeline epoch, takes exactly the
amount from the bonds at the pipeline epoch, newest bonds first. It records the
same amounts, start epoch by start epoch, in the source's unbonds at the
withdrawable epoch and in the moves from the validator's total bonded to its
total unbonded. It returns a `ResultSlashing` whose epochs add up to its sum,
and that sum is at most the amount (`unbondTokens_accounting`).

The bound on the sum rests on the redelegated part of each bond unbonded being
at most what is taken from that bond. For a bond taken whole it is the bond's
redelegated tokens, which the bond holds (`RedelegationBounded`); for the bond
cut in part it is what the modification removes of its redelegated tokens,
`min total taken` (`totalRedelegated_redelegatedUnbondsAt_le`).
-/

import Mathlib
import Namada.ProofOfStake.Unbond

namespace Namada.ProofOfStake

open Namada.Core Namada.Math

/-! ## The bonds taken, newest first -/

/-- The amount a list of bindings gives `key`: the value of its first binding
of `key`, or nothing. -/
def boundAmount (bindings : List (ℕ × ℕ)) (key : ℕ) : ℕ :=
  ((bindings.find? fun binding => binding.1 = key).map Prod.snd).getD 0

theorem boundAmount_entries (map : SortedMap ℕ ℕ) (key : ℕ) :
    boundAmount map.entries key = deltaVal map key := rfl

@[simp] theorem boundAmount_nil (key : ℕ) : boundAmount [] key = 0 := rfl

theorem boundAmount_cons (binding : ℕ × ℕ) (rest : List (ℕ × ℕ)) (key : ℕ) :
    boundAmount (binding :: rest) key = if binding.1 = key then binding.2 else boundAmount rest key := by
  by_cases hkey : binding.1 = key
  · rw [if_pos hkey, boundAmount, List.find?_cons_of_pos (by simpa using hkey)]
    rfl
  · rw [if_neg hkey, boundAmount, List.find?_cons_of_neg (by simpa using hkey), ← boundAmount]

theorem boundAmount_of_not_mem {bindings : List (ℕ × ℕ)} {key : ℕ}
    (hkey : key ∉ bindings.map Prod.fst) : boundAmount bindings key = 0 := by
  have hnone : (bindings.find? fun binding => binding.1 = key) = none := by
    apply List.find?_eq_none.mpr
    intro binding hbinding hsame
    exact hkey (List.mem_map.mpr ⟨binding, hbinding, by simpa using hsame⟩)
  rw [boundAmount, hnone]
  rfl

theorem sumAt_id (map : SortedMap ℕ ℕ) (key : ℕ) : SortedMap.sumAt id map key = deltaVal map key := by
  rw [SortedMap.sumAt, Option.map_id]
  rfl

/-- Epochs taken whole stay so as the loop goes on. -/
theorem mem_epochs_findBondsToRemoveFrom {epoch : ℕ} :
    ∀ {older : List (ℕ × ℕ)} {remaining : ℕ} {bondsForRemoval : BondsForRemoval},
      epoch ∈ bondsForRemoval.epochs →
      epoch ∈ (findBondsToRemoveFrom older remaining bondsForRemoval).epochs
  | [], _, _, hmem => hmem
  | (bondEpoch, bondAmount) :: older, remaining, bondsForRemoval, hmem => by
      rw [findBondsToRemoveFrom]
      split_ifs with hdone hwhole hwhole
      · exact List.mem_insert_of_mem hmem
      · exact hmem
      · exact mem_epochs_findBondsToRemoveFrom (List.mem_insert_of_mem hmem)
      · exact mem_epochs_findBondsToRemoveFrom hmem

theorem nodup_epochs_findBondsToRemoveFrom :
    ∀ {older : List (ℕ × ℕ)} {remaining : ℕ} {bondsForRemoval : BondsForRemoval},
      bondsForRemoval.epochs.Nodup → (findBondsToRemoveFrom older remaining bondsForRemoval).epochs.Nodup
  | [], _, _, hnodup => hnodup
  | (bondEpoch, bondAmount) :: older, remaining, bondsForRemoval, hnodup => by
      rw [findBondsToRemoveFrom]
      split_ifs with hdone hwhole hwhole
      · exact hnodup.insert
      · exact hnodup
      · exact nodup_epochs_findBondsToRemoveFrom hnodup.insert
      · exact nodup_epochs_findBondsToRemoveFrom hnodup

theorem nodup_epochs_findBondsToRemove (bonds : SortedMap ℕ ℕ) (amount : ℕ) :
    (findBondsToRemove bonds amount).epochs.Nodup :=
  nodup_epochs_findBondsToRemoveFrom List.nodup_nil

/-- The loop takes the newest bonds first: every bond newer than one it touches
(taking it whole or cutting it) is taken whole. The induction follows the bonds,
newest first; the loop touches a first segment of them, all whole but maybe
the last. -/
theorem findBondsToRemoveFrom_lifo {touched : ℕ} :
    ∀ {older : List (ℕ × ℕ)} {remaining : ℕ} {epochs : List ℕ},
      older.Pairwise (fun newer older => older.1 < newer.1) →
      ((touched ∈ (findBondsToRemoveFrom older remaining ⟨epochs, none⟩).epochs ∧ touched ∉ epochs) ∨
        ∃ left, (findBondsToRemoveFrom older remaining ⟨epochs, none⟩).newEntry = some (touched, left)) →
      ∀ bond ∈ older, touched < bond.1 →
        bond.1 ∈ (findBondsToRemoveFrom older remaining ⟨epochs, none⟩).epochs
  | [], _, _, _, _, _, hbond, _ => absurd hbond List.not_mem_nil
  | (bondEpoch, bondAmount) :: older, remaining, epochs, hsorted, htouched, bond, hbond, hlt => by
      obtain ⟨holder, hsortedOlder⟩ := List.pairwise_cons.mp hsorted
      -- the first bond is the newest
      have hfirst : bond.1 ≤ bondEpoch := by
        rcases List.mem_cons.mp hbond with rfl | hbondOlder
        · exact le_rfl
        · exact le_of_lt (holder bond hbondOlder)
      rw [findBondsToRemoveFrom] at htouched ⊢
      dsimp only at htouched ⊢
      by_cases hle : bondAmount ≤ remaining
      · rw [min_eq_left hle, if_pos rfl] at htouched ⊢
        by_cases hdone : remaining - bondAmount = 0
        · -- the loop stops after taking the first bond whole, the only one it touched
          rw [if_pos hdone] at htouched ⊢
          have hsame : touched = bondEpoch := by
            rcases htouched with ⟨hmem, hfresh⟩ | ⟨left, hnew⟩
            · exact (List.mem_insert_iff.mp hmem).resolve_right hfresh
            · cases hnew
          omega
        · rw [if_neg hdone] at htouched ⊢
          rcases List.mem_cons.mp hbond with rfl | hbondOlder
          · exact mem_epochs_findBondsToRemoveFrom List.mem_insert_self
          · have hnewer : touched ≠ bondEpoch := by
              have := holder bond hbondOlder
              omega
            refine findBondsToRemoveFrom_lifo hsortedOlder ?_ bond hbondOlder hlt
            rcases htouched with ⟨hmem, hfresh⟩ | hnew
            · exact Or.inl ⟨hmem, fun hins => (List.mem_insert_iff.mp hins).elim hnewer hfresh⟩
            · exact Or.inr hnew
      · -- the loop cuts the first bond and stops: it touched only that one
        have hcut : remaining < bondAmount := Nat.lt_of_not_le hle
        rw [min_eq_right (le_of_lt hcut), if_neg (ne_of_lt hcut), if_pos (Nat.sub_self _)]
          at htouched
        have hsame : touched = bondEpoch := by
          rcases htouched with ⟨hmem, hfresh⟩ | ⟨left, hnew⟩
          · exact absurd hmem hfresh
          · exact (Prod.mk.inj (Option.some.inj hnew)).1.symm
        omega

/-- Every bond newer than one that the removal touches is taken whole. -/
theorem findBondsToRemove_lifo {bonds : SortedMap ℕ ℕ} {amount touched : ℕ}
    (htouched : touched ∈ (findBondsToRemove bonds amount).epochs ∨
      ∃ left, (findBondsToRemove bonds amount).newEntry = some (touched, left))
    {later bondAmount : ℕ} (hbond : bonds.find? later = some bondAmount) (hlt : touched < later) :
    later ∈ (findBondsToRemove bonds amount).epochs := by
  have hsorted : bonds.entries.reverse.Pairwise fun newer older => older.1 < newer.1 :=
    List.pairwise_reverse.mpr bonds.sorted
  exact findBondsToRemoveFrom_lifo hsorted
    (htouched.imp_left fun hmem => ⟨hmem, List.not_mem_nil⟩) (later, bondAmount)
    (List.mem_reverse.mpr (SortedMap.find?_eq_some_iff.mp hbond)) hlt

/-! ## `new_unbonds_map` -/

theorem deltaVal_ofList_map {keys : List ℕ} (value : ℕ → ℕ) (hnodup : keys.Nodup) (epoch : ℕ) :
    deltaVal (SortedMap.ofList (keys.map fun key => (key, value key))) epoch =
      if epoch ∈ keys then value epoch else 0 := by
  have hkeys : (keys.map fun key => (key, value key)).map Prod.fst = keys := by
    simp [List.map_map, Function.comp_def]
  split_ifs with hepoch
  · have hnodupKeys : ((keys.map fun key => (key, value key)).map Prod.fst).Nodup := by
      rw [hkeys]
      exact hnodup
    rw [deltaVal, SortedMap.find?_ofList_of_mem hnodupKeys (List.mem_map.mpr ⟨epoch, hepoch, rfl⟩)]
    rfl
  · rw [deltaVal, SortedMap.find?_ofList_of_not_mem (by rw [hkeys]; exact hepoch)]
    rfl

/-- The map of what is taken from each bond, when no bond is cut. -/
theorem newUnbondsMap_of_none {bonds : SortedMap ℕ ℕ} {bondsToUnbond : BondsForRemoval}
    (hnew : bondsToUnbond.newEntry = none) :
    newUnbondsMap bonds bondsToUnbond =
      SortedMap.ofList (bondsToUnbond.epochs.map fun epoch => (epoch, deltaVal bonds epoch)) := by
  simp only [newUnbondsMap, newUnbonds, hnew]

/-- The map of what is taken from each bond, when one is cut to `newBondAmount`. -/
theorem newUnbondsMap_of_some {bonds : SortedMap ℕ ℕ} {bondsToUnbond : BondsForRemoval}
    {bondEpoch newBondAmount : ℕ} (hnew : bondsToUnbond.newEntry = some (bondEpoch, newBondAmount)) :
    newUnbondsMap bonds bondsToUnbond =
      SortedMap.ofList ((List.insert bondEpoch bondsToUnbond.epochs).map fun epoch =>
        (epoch, if bondEpoch = epoch then deltaVal bonds epoch - newBondAmount else deltaVal bonds epoch)) := by
  simp only [newUnbondsMap, newUnbonds, hnew]

/-- Each bond loses what `new_unbonds_map` says is taken from it. -/
theorem deltaVal_removeBonds_add_newUnbondsMap (bonds : SortedMap ℕ ℕ) (amount epoch : ℕ) :
    deltaVal (removeBonds bonds (findBondsToRemove bonds amount)) epoch +
        deltaVal (newUnbondsMap bonds (findBondsToRemove bonds amount)) epoch =
      deltaVal bonds epoch := by
  have hnodup := nodup_epochs_findBondsToRemove bonds amount
  cases hnew : (findBondsToRemove bonds amount).newEntry with
  | none =>
      rw [newUnbondsMap_of_none hnew, deltaVal_ofList_map _ hnodup]
      simp only [removeBonds, hnew]
      by_cases hepoch : epoch ∈ (findBondsToRemove bonds amount).epochs
      · rw [if_pos hepoch, deltaVal_eraseAll_of_mem _ hepoch, zero_add]
      · rw [if_neg hepoch, deltaVal_eraseAll_of_not_mem _ hepoch, add_zero]
  | some entry =>
      obtain ⟨bondEpoch, newBondAmount⟩ := entry
      obtain ⟨hfresh, bondAmount, hfound, hle, -⟩ := findBondsToRemove_newEntry hnew
      have hbond : deltaVal bonds bondEpoch = bondAmount := by
        rw [deltaVal, hfound]
        rfl
      rw [newUnbondsMap_of_some hnew, deltaVal_ofList_map _ (hnodup.insert)]
      simp only [removeBonds, hnew]
      by_cases hcut : epoch = bondEpoch
      · -- the bond cut keeps `newBondAmount` and loses the rest
        subst hcut
        rw [deltaVal_insert_self, if_pos List.mem_insert_self, if_pos rfl, hbond]
        omega
      · rw [deltaVal_insert_of_ne _ _ hcut, if_neg (Ne.symm hcut)]
        by_cases hepoch : epoch ∈ (findBondsToRemove bonds amount).epochs
        · rw [if_pos (List.mem_insert_of_mem hepoch), deltaVal_eraseAll_of_mem _ hepoch, zero_add]
        · have hout : epoch ∉ List.insert bondEpoch (findBondsToRemove bonds amount).epochs := by
            rw [List.mem_insert_iff]
            exact fun hmem => hmem.elim hcut hepoch
          rw [if_neg hout, deltaVal_eraseAll_of_not_mem _ hepoch, add_zero]

/-- `new_unbonds_map` takes the amount, when the bonds hold it. -/
theorem amountSum_newUnbondsMap {bonds : SortedMap ℕ ℕ} {amount : ℕ} (hfits : amount ≤ amountSum bonds) :
    amountSum (newUnbondsMap bonds (findBondsToRemove bonds amount)) = amount := by
  have hadd : amountSum (removeBonds bonds (findBondsToRemove bonds amount)) +
      amountSum (newUnbondsMap bonds (findBondsToRemove bonds amount)) = amountSum bonds :=
    SortedMap.sumBy_add_sumBy_of_forall id id id fun epoch => by
      rw [sumAt_id, sumAt_id, sumAt_id]
      exact deltaVal_removeBonds_add_newUnbondsMap bonds amount epoch
  have hremove := amountSum_removeBonds bonds amount
  omega

/-- A start epoch `new_unbonds_map` takes from is one the removal touched. -/
theorem touched_of_newUnbondsMap {bonds : SortedMap ℕ ℕ} {bondsToUnbond : BondsForRemoval} {epoch : ℕ}
    (htaken : deltaVal (newUnbondsMap bonds bondsToUnbond) epoch ≠ 0) :
    epoch ∈ bondsToUnbond.epochs ∨ ∃ left, bondsToUnbond.newEntry = some (epoch, left) := by
  cases hnew : bondsToUnbond.newEntry with
  | none =>
      refine Or.inl (Classical.byContradiction fun hepoch => htaken ?_)
      rw [newUnbondsMap_of_none hnew, deltaVal, SortedMap.find?_ofList_of_not_mem (by simpa using hepoch)]
      rfl
  | some entry =>
      obtain ⟨bondEpoch, newBondAmount⟩ := entry
      by_cases hcut : epoch = bondEpoch
      · exact Or.inr ⟨newBondAmount, by rw [hcut]⟩
      refine Or.inl (Classical.byContradiction fun hepoch => htaken ?_)
      have hout : epoch ∉ List.insert bondEpoch bondsToUnbond.epochs := by
        rw [List.mem_insert_iff]
        exact fun hmem => hmem.elim hcut hepoch
      rw [newUnbondsMap_of_some hnew, deltaVal, SortedMap.find?_ofList_of_not_mem (by simpa using hout)]
      rfl

/-- The bonds taken whole are gone. -/
theorem deltaVal_removeBonds_of_mem {bonds : SortedMap ℕ ℕ} {amount epoch : ℕ}
    (hepoch : epoch ∈ (findBondsToRemove bonds amount).epochs) :
    deltaVal (removeBonds bonds (findBondsToRemove bonds amount)) epoch = 0 := by
  cases hnew : (findBondsToRemove bonds amount).newEntry with
  | none =>
      simp only [removeBonds, hnew]
      exact deltaVal_eraseAll_of_mem _ hepoch
  | some entry =>
      obtain ⟨bondEpoch, newBondAmount⟩ := entry
      have hne : epoch ≠ bondEpoch := fun hsame =>
        (findBondsToRemove_newEntry hnew).1 (hsame ▸ hepoch)
      simp only [removeBonds, hnew]
      rw [deltaVal_insert_of_ne _ _ hne]
      exact deltaVal_eraseAll_of_mem _ hepoch

/-- `new_unbonds_map` takes the newest bonds first: every bond newer than one it
takes from is taken whole. -/
theorem newUnbondsMap_lifo (bonds : SortedMap ℕ ℕ) (amount : ℕ) {epoch later : ℕ} (hlt : epoch < later)
    (htaken : 0 < deltaVal (newUnbondsMap bonds (findBondsToRemove bonds amount)) epoch) :
    deltaVal (newUnbondsMap bonds (findBondsToRemove bonds amount)) later = deltaVal bonds later := by
  have hsum := deltaVal_removeBonds_add_newUnbondsMap bonds amount later
  cases hfound : bonds.find? later with
  | none =>
      -- no bond at `later`: nothing is taken there
      have hzero : deltaVal bonds later = 0 := by
        rw [deltaVal, hfound]
        rfl
      omega
  | some bondAmount =>
      have htouched := touched_of_newUnbondsMap (Nat.pos_iff_ne_zero.mp htaken)
      rw [deltaVal_removeBonds_of_mem (findBondsToRemove_lifo htouched hfound hlt)] at hsum
      omega

/-! ## Bonds started by the pipeline epoch -/

section Start

variable {Address : Type} [LinearOrder Address]

/-- The latest epoch at which a call can start a bond: the offset epoch of a
bond, the pipeline epoch of a redelegation. An unbond starts none. -/
def BondCall.latestEpoch : BondCall Address → ℕ
  | .bond _ _ _ currentEpoch offset => currentEpoch + offset
  | .unbond _ _ _ _ _ _ => 0
  | .redelegate _ _ _ currentEpoch pipelineLen _ _ => currentEpoch + pipelineLen

/-- Every bond of a map started by `epoch`. -/
def StartsBy (bonds : SortedMap ℕ ℕ) (epoch : ℕ) : Prop := ∀ bond ∈ bonds.entries, bond.1 ≤ epoch

/-- Every bond of the store started by `epoch`. -/
def BondsStartBy (store : BondStore Address) (epoch : ℕ) : Prop :=
  ∀ pair, StartsBy (store.bonds pair) epoch

theorem StartsBy.insert {bonds : SortedMap ℕ ℕ} {epoch : ℕ} (hstart : StartsBy bonds epoch)
    {key : ℕ} (value : ℕ) (hkey : key ≤ epoch) : StartsBy (bonds.insert key value) epoch := by
  intro bond hbond
  rcases SortedMap.mem_entries_insert.mp hbond with rfl | ⟨hold, -⟩
  · exact hkey
  · exact hstart bond hold

theorem StartsBy.eraseAll {bonds : SortedMap ℕ ℕ} {epoch : ℕ} (hstart : StartsBy bonds epoch)
    (keys : List ℕ) : StartsBy (bonds.eraseAll keys) epoch := by
  intro bond hbond
  have hfound := SortedMap.find?_eq_some_iff.mpr hbond
  by_cases hkey : bond.1 ∈ keys
  · rw [SortedMap.find?_eraseAll_of_mem _ hkey] at hfound
    cases hfound
  · rw [SortedMap.find?_eraseAll_of_not_mem _ hkey] at hfound
    exact hstart bond (SortedMap.find?_eq_some_iff.mp hfound)

/-- A removal cuts a bond where there is one, so it starts no new bond. -/
theorem StartsBy.removeBonds {bonds : SortedMap ℕ ℕ} {epoch : ℕ} (hstart : StartsBy bonds epoch)
    (amount : ℕ) : StartsBy (removeBonds bonds (findBondsToRemove bonds amount)) epoch := by
  cases hnew : (findBondsToRemove bonds amount).newEntry with
  | none =>
      simp only [Namada.ProofOfStake.removeBonds, hnew]
      exact hstart.eraseAll _
  | some entry =>
      obtain ⟨bondEpoch, newBondAmount⟩ := entry
      obtain ⟨-, bondAmount, hfound, -⟩ := findBondsToRemove_newEntry hnew
      simp only [Namada.ProofOfStake.removeBonds, hnew]
      exact (hstart.eraseAll _).insert _ (hstart _ (SortedMap.find?_eq_some_iff.mp hfound))

/-- Up to the epoch every bond started by, the bonds sum to all of them. -/
theorem bondSumUpTo_of_startsBy {bonds : SortedMap ℕ ℕ} {epoch : ℕ} (hstart : StartsBy bonds epoch) :
    bondSumUpTo bonds epoch = amountSum bonds := by
  rw [bondSumUpTo, List.filter_eq_self.mpr fun bond hbond => decide_eq_true (hstart bond hbond)]
  rfl

theorem bondsStartBy_empty (epoch : ℕ) : BondsStartBy (BondStore.empty : BondStore Address) epoch :=
  fun _ _ hbond => absurd hbond List.not_mem_nil

theorem BondsStartBy.update {store : BondStore Address} {epoch : ℕ} (hstart : BondsStartBy store epoch)
    (pair : Address × Address) {bonds : SortedMap ℕ ℕ} (hbonds : StartsBy bonds epoch)
    (redelegatedBonds : Address × Address → SortedMap ℕ (RedelegatedTokens Address)) :
    BondsStartBy ⟨Function.update store.bonds pair bonds, redelegatedBonds⟩ epoch := by
  intro other
  by_cases hsame : other = pair
  · rw [hsame]
    simpa using hbonds
  · simpa [Function.update_of_ne hsame] using hstart other

theorem unbondTokens_startsBy {store next : BondStore Address} {source validator : Address}
    {amount currentEpoch pipelineLen : ℕ} {afterSlashing : ℕ → ℕ → ℕ} {unbonds : List (ℕ × ℕ)}
    {epoch : ℕ} (hstart : BondsStartBy store epoch)
    (hunbond : unbondTokens store source validator amount currentEpoch pipelineLen afterSlashing =
      .ok (next, unbonds)) :
    BondsStartBy next epoch := by
  rcases unbondTokens_cases hunbond with ⟨-, rfl⟩ | ⟨-, redelegatedBonds, -, rfl⟩
  · exact hstart
  · exact hstart.update (source, validator) ((hstart (source, validator)).removeBonds amount) _

theorem redelegateTokens_startsBy {store next : BondStore Address}
    {delegator srcValidator destValidator : Address} {currentEpoch pipelineLen amount : ℕ}
    {afterSlashing : ℕ → ℕ → ℕ} {epoch : ℕ} (hstart : BondsStartBy store epoch)
    (hpipeline : currentEpoch + pipelineLen ≤ epoch)
    (hredelegate : redelegateTokens store delegator srcValidator destValidator currentEpoch
      pipelineLen amount afterSlashing = .ok next) :
    BondsStartBy next epoch := by
  rw [redelegateTokens] at hredelegate
  split_ifs at hredelegate with hzero hsame
  · cases hredelegate
    exact hstart
  obtain ⟨⟨unbonded, resultUnbond⟩, hunbond, hrest⟩ := bind_eq_ok hredelegate
  cases hrest
  have hunbonded := unbondTokens_startsBy hstart hunbond
  apply hunbonded.update (delegator, destValidator)
  -- the destination's bond at the pipeline epoch is the only one it may start
  split_ifs
  · exact hunbonded _
  · exact (hunbonded _).insert _ hpipeline

/-- A call that starts its bonds by `epoch` keeps every bond started by it. -/
theorem step_startsBy {store : BondStore Address} {epoch : ℕ} (hstart : BondsStartBy store epoch)
    {call : BondCall Address} (hcall : call.latestEpoch ≤ epoch) :
    BondsStartBy (store.step call) epoch := by
  unfold BondStore.step
  split
  · next next happly =>
      cases call with
      | bond source validator amount currentEpoch offset =>
          cases happly
          unfold bondTokens
          split_ifs
          · exact hstart
          · exact hstart.update (source, validator) ((hstart (source, validator)).insert _ hcall) _
      | unbond source validator amount currentEpoch pipelineLen afterSlashing =>
          obtain ⟨⟨unbonded, unbonds⟩, hunbond, hresult⟩ := map_eq_ok happly
          cases hresult
          exact unbondTokens_startsBy hstart hunbond
      | redelegate delegator srcValidator destValidator currentEpoch pipelineLen amount
          afterSlashing =>
          exact redelegateTokens_startsBy hstart hcall happly
  · exact hstart

/-- Runs of calls that start their bonds by `epoch` keep every bond started by
it; the induction follows the calls. -/
theorem run_startsBy : ∀ {store : BondStore Address} {epoch : ℕ} (calls : List (BondCall Address)),
    BondsStartBy store epoch → (∀ call ∈ calls, call.latestEpoch ≤ epoch) →
      BondsStartBy (store.run calls) epoch
  | _, _, [], hstart, _ => hstart
  | _, _, call :: calls, hstart, hcalls =>
      run_startsBy calls (step_startsBy hstart (hcalls call List.mem_cons_self))
        fun other hother => hcalls other (List.mem_cons_of_mem _ hother)

end Start

/-! ## Unbond records and totals -/

theorem recordsAt_insert (unbonds : SortedMap ℕ (SortedMap ℕ ℕ)) (start : ℕ)
    (records : SortedMap ℕ ℕ) (other : ℕ) :
    recordsAt (unbonds.insert start records) other =
      if other = start then records else recordsAt unbonds other := by
  by_cases hother : other = start
  · rw [hother, if_pos rfl, recordsAt, SortedMap.find?_insert_self]
    rfl
  · rw [if_neg hother, recordsAt, recordsAt, SortedMap.find?_insert_of_ne _ _ hother]

/-- Adding the new unbonds adds to the unbonds of each start epoch, at the
withdrawable epoch, what is taken from its bond; the induction follows the new
unbonds, whose start epochs are distinct. -/
theorem deltaVal_recordsAt_addUnbonds (withdrawableEpoch : ℕ) :
    ∀ (unbonds : SortedMap ℕ (SortedMap ℕ ℕ)) {newUnbonds : List (ℕ × ℕ)},
      (newUnbonds.map Prod.fst).Nodup → ∀ start epoch,
        deltaVal (recordsAt (addUnbonds unbonds withdrawableEpoch newUnbonds) start) epoch =
          deltaVal (recordsAt unbonds start) epoch +
            if epoch = withdrawableEpoch then boundAmount newUnbonds start else 0
  | unbonds, [], _, start, epoch => by simp [addUnbonds]
  | unbonds, unbond :: rest, hnodup, start, epoch => by
      rw [List.map_cons] at hnodup
      obtain ⟨hfresh, hnodupRest⟩ := List.nodup_cons.mp hnodup
      have hrest := deltaVal_recordsAt_addUnbonds withdrawableEpoch
        (unbonds.insert unbond.1 (addAt (recordsAt unbonds unbond.1) withdrawableEpoch unbond.2))
        hnodupRest start epoch
      change deltaVal (recordsAt (addUnbonds (unbonds.insert unbond.1
        (addAt (recordsAt unbonds unbond.1) withdrawableEpoch unbond.2)) withdrawableEpoch rest) start)
          epoch = _
      rw [hrest, boundAmount_cons, recordsAt_insert]
      by_cases hstart : start = unbond.1
      · -- the first new unbond is the one of `start`, and no later one is
        subst hstart
        rw [if_pos rfl, if_pos rfl, boundAmount_of_not_mem hfresh, deltaVal_addAt]
        split_ifs <;> rfl
      · rw [if_neg hstart, if_neg (Ne.symm hstart)]

/-- The unbonds of all start epochs at one withdrawable epoch. -/
def unbondedAt (unbonds : SortedMap ℕ (SortedMap ℕ ℕ)) (withdrawableEpoch : ℕ) : ℕ :=
  unbonds.sumBy fun records => deltaVal records withdrawableEpoch

theorem sumAt_unbondedAt (unbonds : SortedMap ℕ (SortedMap ℕ ℕ)) (withdrawableEpoch start : ℕ) :
    SortedMap.sumAt (fun records => deltaVal records withdrawableEpoch) unbonds start =
      deltaVal (recordsAt unbonds start) withdrawableEpoch := by
  rw [SortedMap.sumAt, recordsAt]
  cases unbonds.find? start <;> rfl

/-- Adding the new unbonds adds their total to the unbonds at the withdrawable
epoch. -/
theorem unbondedAt_addUnbonds (unbonds : SortedMap ℕ (SortedMap ℕ ℕ)) (withdrawableEpoch : ℕ)
    (newUnbonds : SortedMap ℕ ℕ) :
    unbondedAt (addUnbonds unbonds withdrawableEpoch newUnbonds.entries) withdrawableEpoch =
      unbondedAt unbonds withdrawableEpoch + amountSum newUnbonds := by
  symm
  apply SortedMap.sumBy_add_sumBy_of_forall
  intro start
  rw [sumAt_unbondedAt, sumAt_unbondedAt, sumAt_id,
    deltaVal_recordsAt_addUnbonds withdrawableEpoch unbonds newUnbonds.nodup_keys, if_pos rfl,
    boundAmount_entries]

/-- A successful move takes from the total bonded of each start epoch, and adds
to its total unbonded, what is taken from its bond; the induction follows the
new unbonds, whose start epochs are distinct. -/
theorem moveTotals_eq_ok :
    ∀ {totalBonded totalUnbonded : SortedMap ℕ ℕ} {newUnbonds : List (ℕ × ℕ)}
      {totals : SortedMap ℕ ℕ × SortedMap ℕ ℕ}, (newUnbonds.map Prod.fst).Nodup →
      moveTotals totalBonded totalUnbonded newUnbonds = .ok totals → ∀ start,
        deltaVal totals.1 start + boundAmount newUnbonds start = deltaVal totalBonded start ∧
          deltaVal totals.2 start = deltaVal totalUnbonded start + boundAmount newUnbonds start
  | _, _, [], _, _, hmove, start => by
      cases hmove
      simp
  | totalBonded, totalUnbonded, unbond :: rest, totals, hnodup, hmove, start => by
      rw [List.map_cons] at hnodup
      obtain ⟨hfresh, hnodupRest⟩ := List.nodup_cons.mp hnodup
      unfold moveTotals at hmove
      rw [List.foldlM_cons] at hmove
      obtain ⟨next, hstep, hrest⟩ := bind_eq_ok hmove
      obtain ⟨bonded, hsub, hpure⟩ := bind_eq_ok hstep
      cases hpure
      obtain ⟨hfits, rfl⟩ := subAt_eq_ok hsub
      obtain ⟨hbonded, hunbonded⟩ := moveTotals_eq_ok hnodupRest hrest start
      dsimp only at hfits hbonded hunbonded
      rw [boundAmount_cons]
      by_cases hstart : unbond.1 = start
      · -- the first new unbond is the one of `start`, and no later one is
        subst hstart
        rw [if_pos rfl]
        rw [boundAmount_of_not_mem hfresh, deltaVal_insert_self] at hbonded
        rw [boundAmount_of_not_mem hfresh, deltaVal_addAt, if_pos rfl] at hunbonded
        omega
      · rw [if_neg hstart]
        rw [deltaVal_insert_of_ne _ _ (Ne.symm hstart)] at hbonded
        rw [deltaVal_addAt, if_neg (Ne.symm hstart), add_zero] at hunbonded
        exact ⟨hbonded, hunbonded⟩

/-! ## Redelegated tokens, amount by amount -/

section Redelegated

variable {Address : Type} [LinearOrder Address]

@[simp] theorem tokenAmount_empty (srcValidator : Address) (bondStart : ℕ) :
    tokenAmount (SortedMap.empty : RedelegatedTokens Address) srcValidator bondStart = 0 := rfl

theorem deltaVal_of_not_mem {bonds : SortedMap ℕ ℕ} {epoch : ℕ}
    (hepoch : epoch ∉ bonds.entries.map Prod.fst) : deltaVal bonds epoch = 0 := by
  rw [deltaVal, SortedMap.find?_eq_none_of_not_mem hepoch]
  rfl

/-- Redelegated tokens whose amounts add up one by one have totals that add up. -/
theorem totalRedelegated_add_of_forall {first second third : RedelegatedTokens Address}
    (hadd : ∀ srcValidator bondStart, tokenAmount first srcValidator bondStart +
      tokenAmount second srcValidator bondStart = tokenAmount third srcValidator bondStart) :
    totalRedelegated first + totalRedelegated second = totalRedelegated third := by
  apply SortedMap.sumBy_add_sumBy_of_forall
  intro srcValidator
  rw [SortedMap.sumAt, SortedMap.sumAt, SortedMap.sumAt, getD_map_amountSum, getD_map_amountSum,
    getD_map_amountSum]
  apply SortedMap.sumBy_add_sumBy_of_forall
  intro bondStart
  rw [sumAt_id, sumAt_id, sumAt_id]
  exact hadd srcValidator bondStart

theorem totalRedelegated_eq_of_forall {first second : RedelegatedTokens Address}
    (hsame : ∀ srcValidator bondStart,
      tokenAmount first srcValidator bondStart = tokenAmount second srcValidator bondStart) :
    totalRedelegated first = totalRedelegated second := by
  have hadd : totalRedelegated first + totalRedelegated (SortedMap.empty : RedelegatedTokens Address) =
      totalRedelegated second :=
    totalRedelegated_add_of_forall fun srcValidator bondStart => by
      rw [tokenAmount_empty, add_zero, hsame]
  have hempty : totalRedelegated (SortedMap.empty : RedelegatedTokens Address) = 0 := rfl
  rwa [hempty, add_zero] at hadd

/-- Setting the amounts of one validator, bond by bond, sets each of them and
nothing else; the induction follows the bonds, whose epochs are distinct. -/
theorem tokenAmount_foldl_setToken (srcValidator : Address) :
    ∀ (rbonds : RedelegatedTokens Address) {bonds : List (ℕ × ℕ)}, (bonds.map Prod.fst).Nodup →
      ∀ other otherStart,
        tokenAmount (bonds.foldl (fun rbonds bond => setToken rbonds srcValidator bond.1 bond.2) rbonds)
            other otherStart =
          if other = srcValidator ∧ otherStart ∈ bonds.map Prod.fst then boundAmount bonds otherStart
          else tokenAmount rbonds other otherStart
  | rbonds, [], _, other, otherStart => by simp
  | rbonds, bond :: rest, hnodup, other, otherStart => by
      rw [List.map_cons] at hnodup
      obtain ⟨hfresh, hnodupRest⟩ := List.nodup_cons.mp hnodup
      rw [List.foldl_cons, tokenAmount_foldl_setToken srcValidator _ hnodupRest, tokenAmount_setToken,
        boundAmount_cons, List.map_cons]
      by_cases hother : other = srcValidator
      · subst hother
        by_cases hstart : otherStart = bond.1
        · subst hstart
          simp [hfresh]
        · have hmem : otherStart ∈ bond.1 :: rest.map Prod.fst ↔ otherStart ∈ rest.map Prod.fst := by
            simp [hstart]
          simp only [hmem, if_neg (Ne.symm hstart), hstart, and_false, if_false]
      · simp [hother]

/-- Copying the bonds of a validator that has no amounts yet gives it those of
the bonds. -/
theorem tokenAmount_copyBonds (rbonds : RedelegatedTokens Address) (srcValidator : Address)
    (bonds : SortedMap ℕ ℕ) (hfresh : ∀ bondStart, tokenAmount rbonds srcValidator bondStart = 0)
    (other : Address) (otherStart : ℕ) :
    tokenAmount (copyBonds rbonds srcValidator bonds) other otherStart =
      if other = srcValidator then deltaVal bonds otherStart else tokenAmount rbonds other otherStart := by
  rw [copyBonds, tokenAmount_foldl_setToken srcValidator rbonds bonds.nodup_keys]
  by_cases hother : other = srcValidator
  · subst hother
    by_cases hstart : otherStart ∈ bonds.entries.map Prod.fst
    · rw [if_pos ⟨rfl, hstart⟩, if_pos rfl, boundAmount_entries]
    · rw [if_neg fun hboth => hstart hboth.2, if_pos rfl, hfresh, deltaVal_of_not_mem hstart]
  · rw [if_neg fun hboth => hother hboth.1, if_neg hother]

/-- Copying the tokens of several validators, none of which has amounts yet,
gives each the amounts of its bonds; the induction follows the validators,
which are distinct. -/
theorem tokenAmount_foldl_copyBonds :
    ∀ (rbonds : RedelegatedTokens Address) {entries : List (Address × SortedMap ℕ ℕ)},
      (entries.map Prod.fst).Nodup → (∀ entry ∈ entries, ∀ bondStart, tokenAmount rbonds entry.1 bondStart = 0) →
      ∀ srcValidator bondStart,
        tokenAmount (entries.foldl (fun rbonds entry => copyBonds rbonds entry.1 entry.2) rbonds)
            srcValidator bondStart =
          (((entries.find? fun entry => entry.1 = srcValidator).map fun entry =>
            deltaVal entry.2 bondStart).getD (tokenAmount rbonds srcValidator bondStart))
  | rbonds, [], _, _, srcValidator, bondStart => rfl
  | rbonds, entry :: rest, hnodup, hfresh, srcValidator, bondStart => by
      rw [List.map_cons] at hnodup
      obtain ⟨hnew, hnodupRest⟩ := List.nodup_cons.mp hnodup
      -- the later validators still have no amounts once the first is copied
      have hfreshRest : ∀ other ∈ rest, ∀ otherStart,
          tokenAmount (copyBonds rbonds entry.1 entry.2) other.1 otherStart = 0 := by
        intro other hother otherStart
        have hne : other.1 ≠ entry.1 := fun hsame =>
          hnew (hsame ▸ List.mem_map.mpr ⟨other, hother, rfl⟩)
        rw [tokenAmount_copyBonds _ _ _ (hfresh entry List.mem_cons_self), if_neg hne]
        exact hfresh other (List.mem_cons_of_mem _ hother) otherStart
      rw [List.foldl_cons, tokenAmount_foldl_copyBonds _ hnodupRest hfreshRest,
        tokenAmount_copyBonds _ _ _ (hfresh entry List.mem_cons_self)]
      by_cases hsrc : entry.1 = srcValidator
      · have hnone : (rest.find? fun other => other.1 = srcValidator) = none := by
          apply List.find?_eq_none.mpr
          intro other hother hsame
          exact hnew (List.mem_map.mpr ⟨other, hother, by simpa [hsrc] using hsame⟩)
        rw [hnone, List.find?_cons_of_pos (by simpa using hsrc), if_pos hsrc.symm]
        rfl
      · rw [List.find?_cons_of_neg (by simpa using hsrc), if_neg (Ne.symm hsrc)]

/-- The copy of a bond's redelegated tokens has its amounts. -/
theorem tokenAmount_copyTokens (tokens : RedelegatedTokens Address) (srcValidator : Address)
    (bondStart : ℕ) : tokenAmount (copyTokens tokens) srcValidator bondStart =
      tokenAmount tokens srcValidator bondStart := by
  rw [copyTokens, tokenAmount_foldl_copyBonds SortedMap.empty tokens.nodup_keys fun _ _ _ => rfl,
    tokenAmount_empty]
  show _ = deltaVal ((tokens.find? srcValidator).getD SortedMap.empty) bondStart
  rw [SortedMap.find?]
  cases tokens.entries.find? fun entry => entry.1 = srcValidator <;> rfl

/-! ### What the modification takes -/

/-- What the modification takes of the tokens that `srcValidator`, one of the
validators it removes, redelegated out of its bond of `bondStart`. -/
def modifiedTake (tokens : RedelegatedTokens Address) (modified : ModifiedRedelegation Address)
    (srcValidator : Address) (bondStart : ℕ) : ℕ :=
  if modified.validatorToModify = some srcValidator then
    if modified.epochsToRemove.contains bondStart then
      if modified.epochToModify = some bondStart then
        tokenAmount tokens srcValidator bondStart - modified.newAmount.getD 0
      else tokenAmount tokens srcValidator bondStart
    else 0
  else tokenAmount tokens srcValidator bondStart

/-- One epoch of the validator modified: it is set to what the modification
takes of it, which it holds. -/
theorem modifiedBondUnbond_eq_ok {tokens rbonds next : RedelegatedTokens Address}
    {modified : ModifiedRedelegation Address} {srcValidator : Address} {bondStart : ℕ}
    (hstep : modifiedBondUnbond tokens modified srcValidator rbonds bondStart = .ok next) :
    next = setToken rbonds srcValidator bondStart
        (if modified.epochToModify = some bondStart then
          tokenAmount tokens srcValidator bondStart - modified.newAmount.getD 0
        else tokenAmount tokens srcValidator bondStart) ∧
      (modified.epochToModify = some bondStart → ∃ newAmount, modified.newAmount = some newAmount ∧
        newAmount ≤ tokenAmount tokens srcValidator bondStart) := by
  unfold modifiedBondUnbond at hstep
  cases hepoch : modified.epochToModify with
  | none =>
      rw [hepoch] at hstep
      cases hstep
      exact ⟨rfl, fun hsome => by cases hsome⟩
  | some epoch =>
      rw [hepoch] at hstep
      by_cases hsame : bondStart = epoch
      · -- the epoch modified: the new amount is there and fits
        subst hsame
        simp only [Option.map_some, bne_self_eq_false, Option.getD_some, Bool.false_eq_true,
          if_false] at hstep
        cases hnew : modified.newAmount with
        | none =>
            rw [hnew] at hstep
            cases hstep
        | some newAmount =>
            rw [hnew] at hstep
            dsimp only at hstep
            split_ifs at hstep with hlt
            cases hstep
            exact ⟨by rw [if_pos rfl]; rfl, fun _ => ⟨newAmount, rfl, Nat.le_of_not_lt hlt⟩⟩
      · have hne : (bondStart != epoch) = true := bne_iff_ne.mpr hsame
        simp only [Option.map_some, hne, Option.getD_some, if_true] at hstep
        cases hstep
        refine ⟨by rw [if_neg fun hsome => hsame (Option.some.inj hsome).symm], fun hsome => ?_⟩
        exact absurd (Option.some.inj hsome).symm hsame

/-- The epochs of the validator modified, one after another: each is set to what
the modification takes of it, nothing else changes, and the epoch modified
fits; the induction follows the epochs. -/
theorem foldlM_modifiedBondUnbond_eq_ok {tokens : RedelegatedTokens Address}
    {modified : ModifiedRedelegation Address} {srcValidator : Address} :
    ∀ {epochs : List ℕ} {rbonds result : RedelegatedTokens Address},
      epochs.foldlM (modifiedBondUnbond tokens modified srcValidator) rbonds = .ok result →
      (∀ other otherStart, tokenAmount result other otherStart =
        if other = srcValidator ∧ otherStart ∈ epochs then
          (if modified.epochToModify = some otherStart then
            tokenAmount tokens srcValidator otherStart - modified.newAmount.getD 0
          else tokenAmount tokens srcValidator otherStart)
        else tokenAmount rbonds other otherStart) ∧
      (∀ epoch ∈ epochs, modified.epochToModify = some epoch → ∃ newAmount,
        modified.newAmount = some newAmount ∧ newAmount ≤ tokenAmount tokens srcValidator epoch)
  | [], _, _, hfold => by
      cases hfold
      exact ⟨fun _ _ => by simp, fun _ hepoch => absurd hepoch List.not_mem_nil⟩
  | bondStart :: rest, rbonds, result, hfold => by
      rw [List.foldlM_cons] at hfold
      obtain ⟨next, hstep, hrest⟩ := bind_eq_ok hfold
      obtain ⟨rfl, hfits⟩ := modifiedBondUnbond_eq_ok hstep
      obtain ⟨hamounts, hfitsRest⟩ := foldlM_modifiedBondUnbond_eq_ok hrest
      refine ⟨fun other otherStart => ?_, fun epoch hepoch hmodify => ?_⟩
      · rw [hamounts, tokenAmount_setToken]
        by_cases hother : other = srcValidator
        · subst hother
          by_cases hstart : otherStart = bondStart
          · subst hstart
            simp
          · simp [hstart]
        · simp [hother]
      · rcases List.mem_cons.mp hepoch with rfl | hlater
        · exact hfits hmodify
        · exact hfitsRest epoch hlater hmodify

/-- The validators the modification removes, one after another, none with
amounts yet: each gets what the modification takes of it, and for the
validator modified the epoch modified fits; the induction follows the
validators, which are distinct. -/
theorem foldlM_modifiedValidatorUnbond_eq_ok {tokens : RedelegatedTokens Address}
    {modified : ModifiedRedelegation Address} :
    ∀ {srcs : List Address} {rbonds result : RedelegatedTokens Address}, srcs.Nodup →
      (∀ src ∈ srcs, ∀ bondStart, tokenAmount rbonds src bondStart = 0) →
      srcs.foldlM (modifiedValidatorUnbond tokens modified) rbonds = .ok result →
      (∀ src bondStart, tokenAmount result src bondStart =
        if src ∈ srcs then modifiedTake tokens modified src bondStart
        else tokenAmount rbonds src bondStart) ∧
      (∀ src ∈ srcs, modified.validatorToModify = some src → ∀ epoch ∈ modified.epochsToRemove,
        modified.epochToModify = some epoch → ∃ newAmount, modified.newAmount = some newAmount ∧
          newAmount ≤ tokenAmount tokens src epoch)
  | [], _, _, _, _, hfold => by
      cases hfold
      exact ⟨fun _ _ => by simp, fun _ hsrc => absurd hsrc List.not_mem_nil⟩
  | src :: rest, rbonds, result, hnodup, hfresh, hfold => by
      obtain ⟨hnew, hnodupRest⟩ := List.nodup_cons.mp hnodup
      rw [List.foldlM_cons] at hfold
      obtain ⟨next, hstep, hrest⟩ := bind_eq_ok hfold
      -- one validator: all its amounts, or for the validator modified its epochs removed
      have hone : (∀ other bondStart, tokenAmount next other bondStart =
            if other = src then modifiedTake tokens modified src bondStart
            else tokenAmount rbonds other bondStart) ∧
          (modified.validatorToModify = some src → ∀ epoch ∈ modified.epochsToRemove,
            modified.epochToModify = some epoch → ∃ newAmount, modified.newAmount = some newAmount ∧
              newAmount ≤ tokenAmount tokens src epoch) := by
        unfold modifiedValidatorUnbond at hstep
        by_cases hmodify : modified.validatorToModify = some src
        · rw [hmodify] at hstep
          simp only [Option.map_some, bne_self_eq_false, Option.getD_some, Bool.false_eq_true,
            if_false] at hstep
          obtain ⟨hamounts, hfits⟩ := foldlM_modifiedBondUnbond_eq_ok hstep
          refine ⟨fun other bondStart => ?_, fun _ => hfits⟩
          rw [hamounts]
          by_cases hother : other = src
          · subst hother
            by_cases hepoch : bondStart ∈ modified.epochsToRemove
            · simp [modifiedTake, hmodify, hepoch]
            · simp [modifiedTake, hmodify, hepoch, hfresh other List.mem_cons_self]
          · simp [hother]
        · have hcopy : (modified.validatorToModify.map fun validator => src != validator).getD true =
              true := by
            cases hvalidator : modified.validatorToModify with
            | none => rfl
            | some validator =>
                have hne : src ≠ validator := fun hsame => hmodify (by rw [hvalidator, hsame])
                simpa using hne
          rw [hcopy, if_pos rfl] at hstep
          cases hstep
          refine ⟨fun other bondStart => ?_, fun hsome => absurd hsome hmodify⟩
          rw [tokenAmount_copyBonds _ _ _ (hfresh src List.mem_cons_self)]
          by_cases hother : other = src
          · rw [if_pos hother, if_pos hother, modifiedTake, if_neg hmodify]
            subst hother
            rfl
          · rw [if_neg hother, if_neg hother]
      obtain ⟨hnextAmounts, hnextFits⟩ := hone
      have hfreshRest : ∀ other ∈ rest, ∀ bondStart, tokenAmount next other bondStart = 0 := by
        intro other hother bondStart
        have hne : other ≠ src := fun hsame => hnew (hsame ▸ hother)
        rw [hnextAmounts, if_neg hne]
        exact hfresh other (List.mem_cons_of_mem _ hother) bondStart
      obtain ⟨hamounts, hfits⟩ := foldlM_modifiedValidatorUnbond_eq_ok hnodupRest hfreshRest hrest
      refine ⟨fun other bondStart => ?_, fun other hother => ?_⟩
      · rw [hamounts, hnextAmounts]
        by_cases hsame : other = src
        · subst hsame
          simp [hnew]
        · simp [hsame]
      · rcases List.mem_cons.mp hother with rfl | hlater
        · exact hnextFits
        · exact hfits other hlater

/-- The shape `compute_new_redelegated_unbonds` assumes of a modification (its
assumptions 2 and 3): the validator modified is one it removes, and so is the
epoch modified. -/
structure ModifiedRedelegation.Consistent (modified : ModifiedRedelegation Address) : Prop where
  nodup : modified.validatorsToRemove.Nodup
  validatorToModify_mem : ∀ validator, modified.validatorToModify = some validator →
    validator ∈ modified.validatorsToRemove
  epochToModify_mem : ∀ epoch, modified.epochToModify = some epoch →
    epoch ∈ modified.epochsToRemove

/-- The redelegated tokens after the update, amount by amount. -/
theorem tokenAmount_updateRedelegatedBonds {tokens updated : RedelegatedTokens Address}
    {modified : ModifiedRedelegation Address}
    (hupdate : updateRedelegatedBonds tokens modified = .ok updated) (src : Address) (bondStart : ℕ) :
    tokenAmount updated src bondStart =
      if modified.validatorToModify = some src then
        if modified.epochToModify = some bondStart then modified.newAmount.getD 0
        else if bondStart ∈ modified.epochsToRemove then 0
        else tokenAmount tokens src bondStart
      else if src ∈ modified.validatorsToRemove then 0
      else tokenAmount tokens src bondStart := by
  unfold updateRedelegatedBonds at hupdate
  cases hvalidator : modified.validatorToModify with
  | none =>
      rw [hvalidator] at hupdate
      cases hupdate
      rw [if_neg (by simp)]
      by_cases hsrc : src ∈ modified.validatorsToRemove
      · rw [if_pos hsrc, tokenAmount, tokensOf, SortedMap.find?_eraseAll_of_mem _ hsrc]
        rfl
      · rw [if_neg hsrc, tokenAmount, tokenAmount, tokensOf_eraseAll_of_not_mem _ hsrc]
  | some validator =>
      rw [hvalidator] at hupdate
      dsimp only at hupdate
      -- the other validators removed are erased, the one modified is rewritten
      have hkept : validator ∉ modified.validatorsToRemove.filter fun val => val != validator := by
        simp
      by_cases hsrc : src = validator
      · subst hsrc
        rw [if_pos rfl]
        cases hepoch : modified.epochToModify with
        | none =>
            rw [hepoch] at hupdate
            cases hupdate
            rw [tokenAmount, tokensOf_insert_self, if_neg (by simp)]
            by_cases hstart : bondStart ∈ modified.epochsToRemove
            · rw [if_pos hstart, deltaVal_eraseAll_of_mem _ hstart]
            · rw [if_neg hstart, deltaVal_eraseAll_of_not_mem _ hstart,
                tokensOf_eraseAll_of_not_mem _ hkept]
              rfl
        | some epoch =>
            rw [hepoch] at hupdate
            dsimp only at hupdate
            cases hnew : modified.newAmount with
            | none =>
                rw [hnew] at hupdate
                cases hupdate
            | some newAmount =>
                rw [hnew] at hupdate
                cases hupdate
                rw [tokenAmount, tokensOf_insert_self]
                by_cases hstart : bondStart = epoch
                · subst hstart
                  rw [deltaVal_insert_self, if_pos rfl]
                  rfl
                · have hother : ¬(some epoch = some bondStart) := fun hsome =>
                    hstart (Option.some.inj hsome).symm
                  rw [deltaVal_insert_of_ne _ _ hstart, if_neg hother]
                  by_cases hremoved : bondStart ∈ modified.epochsToRemove
                  · have hmem : bondStart ∈ modified.epochsToRemove.filter fun e => e != epoch := by
                      simpa [hremoved] using hstart
                    rw [if_pos hremoved, deltaVal_eraseAll_of_mem _ hmem]
                  · have hmem : bondStart ∉ modified.epochsToRemove.filter fun e => e != epoch := by
                      simp [hremoved]
                    rw [if_neg hremoved, deltaVal_eraseAll_of_not_mem _ hmem,
                      tokensOf_eraseAll_of_not_mem _ hkept]
                    rfl
      · have hne : ¬(some validator = some src) := fun hsome => hsrc (Option.some.inj hsome).symm
        rw [if_neg hne]
        -- a validator other than the one modified is erased if removed, kept if not
        have hrewrite : ∀ (rest : RedelegatedTokens Address) (bonds : SortedMap ℕ ℕ),
            tokenAmount (rest.insert validator bonds) src bondStart = tokenAmount rest src bondStart :=
          fun rest bonds => by rw [tokenAmount, tokenAmount, tokensOf_insert_of_ne _ _ hsrc]
        have hupdated : tokenAmount updated src bondStart =
            tokenAmount (tokens.eraseAll (modified.validatorsToRemove.filter fun val => val != validator))
              src bondStart := by
          revert hupdate
          cases modified.epochToModify with
          | none =>
              intro hupdate
              cases hupdate
              exact hrewrite _ _
          | some epoch =>
              cases modified.newAmount with
              | none => exact fun hupdate => by cases hupdate
              | some newAmount =>
                  intro hupdate
                  cases hupdate
                  exact hrewrite _ _
        rw [hupdated]
        by_cases hremoved : src ∈ modified.validatorsToRemove
        · have hmem : src ∈ modified.validatorsToRemove.filter fun val => val != validator := by
            simpa [hremoved] using hsrc
          rw [if_pos hremoved, tokenAmount, tokensOf, SortedMap.find?_eraseAll_of_mem _ hmem]
          rfl
        · have hmem : src ∉ modified.validatorsToRemove.filter fun val => val != validator := by
            simp [hremoved]
          rw [if_neg hremoved, tokenAmount, tokenAmount, tokensOf_eraseAll_of_not_mem _ hmem]

/-- What the modification takes and what the update leaves add up, amount by
amount, to the tokens before. -/
theorem tokenAmount_modified_add_updated {tokens unbonded updated : RedelegatedTokens Address}
    {modified : ModifiedRedelegation Address} (hconsistent : modified.Consistent)
    (hunbonded : modifiedRedelegatedUnbonds tokens modified = .ok unbonded)
    (hupdate : updateRedelegatedBonds tokens modified = .ok updated) (src : Address) (bondStart : ℕ) :
    tokenAmount unbonded src bondStart + tokenAmount updated src bondStart =
      tokenAmount tokens src bondStart := by
  obtain ⟨hamounts, hfits⟩ := foldlM_modifiedValidatorUnbond_eq_ok hconsistent.nodup
    (fun _ _ _ => rfl) hunbonded
  rw [hamounts, tokenAmount_updateRedelegatedBonds hupdate, tokenAmount_empty]
  by_cases hmodify : modified.validatorToModify = some src
  · have hsrc := hconsistent.validatorToModify_mem src hmodify
    rw [if_pos hsrc, if_pos hmodify, modifiedTake, if_pos hmodify]
    by_cases hepoch : modified.epochToModify = some bondStart
    · -- the epoch modified keeps its new amount and gives up the rest
      have hremoved := hconsistent.epochToModify_mem bondStart hepoch
      obtain ⟨newAmount, hnew, hle⟩ := hfits src hsrc hmodify bondStart hremoved hepoch
      rw [if_pos (List.contains_iff_mem.mpr hremoved), if_pos hepoch, if_pos hepoch, hnew]
      simp only [Option.getD_some]
      omega
    · rw [if_neg hepoch, if_neg hepoch]
      by_cases hremoved : bondStart ∈ modified.epochsToRemove
      · rw [if_pos (List.contains_iff_mem.mpr hremoved), if_pos hremoved, add_zero]
      · rw [if_neg (fun hcontains => hremoved (List.contains_iff_mem.mp hcontains)),
          if_neg hremoved, zero_add]
  · rw [if_neg hmodify]
    by_cases hsrc : src ∈ modified.validatorsToRemove
    · rw [if_pos hsrc, if_pos hsrc, modifiedTake, if_neg hmodify, add_zero]
    · rw [if_neg hsrc, if_neg hsrc, zero_add]

/-- The loop of `compute_modified_redelegation` leaves its modification in the
shape `compute_new_redelegated_unbonds` assumes: it marks a validator to remove
before it modifies it, and the epoch it modifies is one it removes. The
induction follows the source validators visited. -/
theorem consistent_computeModifiedRedelegationFrom (tokens : RedelegatedTokens Address) :
    ∀ {srcs : List Address} {remaining : ℕ} {modified : ModifiedRedelegation Address},
      modified.validatorsToRemove.Nodup → modified.validatorToModify = none →
      modified.epochToModify = none →
      (computeModifiedRedelegationFrom tokens srcs remaining modified).Consistent
  | [], _, modified, hnodup, hvalidator, hepoch => by
      rw [computeModifiedRedelegationFrom]
      exact ⟨hnodup, fun _ hsome => (by rw [hvalidator] at hsome; cases hsome),
        fun _ hsome => (by rw [hepoch] at hsome; cases hsome)⟩
  | src :: rest, remaining, modified, hnodup, hvalidator, hepoch => by
      rw [computeModifiedRedelegationFrom]
      dsimp only
      split_ifs with hzero hle
      · exact ⟨hnodup, fun _ hsome => (by rw [hvalidator] at hsome; cases hsome),
          fun _ hsome => (by rw [hepoch] at hsome; cases hsome)⟩
      · exact consistent_computeModifiedRedelegationFrom tokens hnodup.insert hvalidator hepoch
      · -- the source validator is cut: it is marked, and so is the epoch cut
        rw [computeModifiedRedelegationFrom_zero]
        split
        · exact ⟨hnodup.insert, fun _ hsome => (by cases hsome; exact List.mem_insert_self),
            fun _ hsome => (by cases hsome; exact List.mem_insert_self)⟩
        · exact ⟨hnodup.insert, fun _ hsome => (by cases hsome; exact List.mem_insert_self),
            fun _ hsome => (by rw [hepoch] at hsome; cases hsome)⟩

theorem consistent_computeModifiedRedelegation (tokens : RedelegatedTokens Address)
    (startEpoch amountToUnbond : ℕ) :
    (computeModifiedRedelegation tokens startEpoch amountToUnbond).Consistent := by
  rw [computeModifiedRedelegation]
  split_ifs
  · exact ⟨List.nodup_nil, fun _ hsome => (by simp [ModifiedRedelegation.default] at hsome),
      fun _ hsome => (by simp [ModifiedRedelegation.default] at hsome)⟩
  · exact consistent_computeModifiedRedelegationFrom tokens List.nodup_nil rfl rfl

end Redelegated

/-! ## The redelegated unbonds, within what is taken -/

section RedelegatedUnbonds

variable {Address : Type} [LinearOrder Address]

theorem totalRedelegated_copyTokens (tokens : RedelegatedTokens Address) :
    totalRedelegated (copyTokens tokens) = totalRedelegated tokens :=
  totalRedelegated_eq_of_forall (tokenAmount_copyTokens tokens)

/-- `new_unbonds_map` at a bond taken whole. -/
theorem deltaVal_newUnbondsMap_of_mem {bonds : SortedMap ℕ ℕ} {amount epoch : ℕ}
    (hepoch : epoch ∈ (findBondsToRemove bonds amount).epochs) :
    deltaVal (newUnbondsMap bonds (findBondsToRemove bonds amount)) epoch = deltaVal bonds epoch := by
  have hsum := deltaVal_removeBonds_add_newUnbondsMap bonds amount epoch
  rw [deltaVal_removeBonds_of_mem hepoch, zero_add] at hsum
  exact hsum

/-- `new_unbonds_map` at the bond cut. -/
theorem deltaVal_newUnbondsMap_of_newEntry {bonds : SortedMap ℕ ℕ} {amount bondEpoch newBondAmount : ℕ}
    (hnew : (findBondsToRemove bonds amount).newEntry = some (bondEpoch, newBondAmount)) :
    deltaVal (newUnbondsMap bonds (findBondsToRemove bonds amount)) bondEpoch =
      deltaVal bonds bondEpoch - newBondAmount := by
  have hsum := deltaVal_removeBonds_add_newUnbondsMap bonds amount bondEpoch
  simp only [removeBonds, hnew, deltaVal_insert_self] at hsum
  omega

theorem epoch_computeModifiedRedelegation (tokens : RedelegatedTokens Address)
    (startEpoch amountToUnbond : ℕ) :
    (computeModifiedRedelegation tokens startEpoch amountToUnbond).epoch = some startEpoch := by
  rw [computeModifiedRedelegation]
  split_ifs
  · rfl
  · rw [epoch_computeModifiedRedelegationFrom]

/-- The modification of `unbond_tokens` names an epoch only for the bond it
cuts, and is then the one computed from that bond's redelegated tokens. -/
theorem modifiedRedelegation_of_epoch {bonds : SortedMap ℕ ℕ}
    {redelegatedBonds : SortedMap ℕ (RedelegatedTokens Address)} {bondsToUnbond : BondsForRemoval}
    {epoch : ℕ} (hepoch : (modifiedRedelegation bonds redelegatedBonds bondsToUnbond).epoch = some epoch) :
    ∃ newBondAmount, bondsToUnbond.newEntry = some (epoch, newBondAmount) ∧
      modifiedRedelegation bonds redelegatedBonds bondsToUnbond =
        computeModifiedRedelegation (tokensAt redelegatedBonds epoch) epoch
          (deltaVal bonds epoch - newBondAmount) := by
  unfold modifiedRedelegation at hepoch ⊢
  cases hnew : bondsToUnbond.newEntry with
  | none =>
      rw [hnew] at hepoch
      simp [ModifiedRedelegation.default] at hepoch
  | some entry =>
      obtain ⟨bondEpoch, newBondAmount⟩ := entry
      rw [hnew] at hepoch
      dsimp only at hepoch ⊢
      by_cases hredelegated : hasRedelegation redelegatedBonds bondEpoch
      · rw [if_pos hredelegated, epoch_computeModifiedRedelegation] at hepoch
        cases hepoch
        exact ⟨newBondAmount, rfl, if_pos hredelegated⟩
      · rw [if_neg hredelegated] at hepoch
        simp [ModifiedRedelegation.default] at hepoch

/-- With a nonzero amount to take, the modification marks no validator only
when it takes all the redelegated tokens. -/
theorem totalRedelegated_le_of_validatorsToRemove_eq_nil (tokens : RedelegatedTokens Address)
    (startEpoch : ℕ) {amountToUnbond : ℕ} (hamount : amountToUnbond ≠ 0)
    (hnil : (computeModifiedRedelegation tokens startEpoch amountToUnbond).validatorsToRemove = []) :
    totalRedelegated tokens ≤ amountToUnbond := by
  by_contra hlt
  rw [computeModifiedRedelegation] at hnil
  dsimp only at hnil
  rw [if_neg hlt] at hnil
  cases hsrcs : srcValidators tokens with
  | nil =>
      -- no source validator has tokens, so there are none
      have hsum := sum_srcValidators tokens
      rw [hsrcs] at hsum
      simp only [List.map_nil, List.sum_nil] at hsum
      omega
  | cons src rest =>
      rw [hsrcs] at hnil
      exact validatorsToRemove_ne_nil_of_pos tokens _ hamount hnil

/-- Where the modification names an epoch and marks validators, applying it
rewrites that epoch's redelegated tokens by `update_redelegated_bonds`. -/
theorem updateRedelegatedBonds_of_applyModifiedRedelegation
    {redelegatedBonds next : SortedMap ℕ (RedelegatedTokens Address)}
    {modified : ModifiedRedelegation Address} {epoch : ℕ} (hepoch : modified.epoch = some epoch)
    (hmarked : modified.validatorsToRemove.isEmpty = false)
    (happly : applyModifiedRedelegation redelegatedBonds modified = .ok next) :
    updateRedelegatedBonds (tokensAt redelegatedBonds epoch) modified = .ok (tokensAt next epoch) := by
  rw [applyModifiedRedelegation, hepoch] at happly
  dsimp only at happly
  simp only [hmarked, Bool.false_eq_true, if_false] at happly
  obtain ⟨updated, hupdate, hpure⟩ := bind_eq_ok happly
  cases hpure
  rw [tokensAt_insert_self]
  exact hupdate

/-- The redelegated tokens unbonded from a bond are at most what is taken from
it: for a bond taken whole they are those redelegated into it, which the bond
holds; for the bond cut, the modification takes `min total taken` of them. -/
theorem totalRedelegated_redelegatedUnbondsAt_le {bonds : SortedMap ℕ ℕ}
    {redelegatedBonds next : SortedMap ℕ (RedelegatedTokens Address)}
    (hbounded : PairBounded bonds redelegatedBonds) {amount : ℕ} (hamount : amount ≠ 0)
    (happly : applyModifiedRedelegation
      (redelegatedBonds.eraseAll (findBondsToRemove bonds amount).epochs)
      (modifiedRedelegation bonds redelegatedBonds (findBondsToRemove bonds amount)) = .ok next)
    {start : ℕ} (hstart : start ∈ (findBondsToRemove bonds amount).epochs ∨
      (modifiedRedelegation bonds redelegatedBonds (findBondsToRemove bonds amount)).epoch = some start)
    {rbonds : RedelegatedTokens Address}
    (hrbonds : redelegatedUnbondsAt (tokensAt redelegatedBonds start) start
      (modifiedRedelegation bonds redelegatedBonds (findBondsToRemove bonds amount)) = .ok rbonds) :
    totalRedelegated rbonds ≤ deltaVal (newUnbondsMap bonds (findBondsToRemove bonds amount)) start := by
  unfold redelegatedUnbondsAt at hrbonds
  split_ifs at hrbonds with hcopy
  · -- all the bond's redelegated tokens are copied
    cases hrbonds
    rw [totalRedelegated_copyTokens]
    rcases hstart with hmem | hepoch
    · rw [deltaVal_newUnbondsMap_of_mem hmem]
      exact hbounded start
    · -- the bond cut, where the modification marks no validator: it takes them all
      obtain ⟨newBondAmount, hnew, hmodified⟩ := modifiedRedelegation_of_epoch hepoch
      obtain ⟨-, bondAmount, hfound, -, hlt⟩ := findBondsToRemove_newEntry hnew
      have hbond : deltaVal bonds start = bondAmount := by
        rw [deltaVal, hfound]
        rfl
      have hnil : (modifiedRedelegation bonds redelegatedBonds
          (findBondsToRemove bonds amount)).validatorsToRemove = [] := by
        rw [hepoch] at hcopy
        simpa using hcopy
      rw [hmodified] at hnil
      rw [deltaVal_newUnbondsMap_of_newEntry hnew]
      have hcut := hlt hamount
      exact totalRedelegated_le_of_validatorsToRemove_eq_nil _ start (by omega) hnil
  · -- the bond cut, whose redelegated tokens the modification splits
    simp only [Bool.or_eq_true, not_or, Bool.not_eq_true] at hcopy
    obtain ⟨hnamed, hmarked⟩ := hcopy
    have hepoch : (modifiedRedelegation bonds redelegatedBonds
        (findBondsToRemove bonds amount)).epoch = some start := by
      cases hsome : (modifiedRedelegation bonds redelegatedBonds (findBondsToRemove bonds amount)).epoch with
      | none =>
          rw [hsome] at hnamed
          cases hnamed
      | some epoch =>
          rw [hsome] at hnamed
          simp only [Option.map_some, Option.getD_some, bne_eq_false_iff_eq] at hnamed
          rw [hnamed]
    obtain ⟨newBondAmount, hnew, hmodified⟩ := modifiedRedelegation_of_epoch hepoch
    obtain ⟨hfresh, -⟩ := findBondsToRemove_newEntry hnew
    have hupdate := updateRedelegatedBonds_of_applyModifiedRedelegation hepoch hmarked happly
    rw [tokensAt_eraseAll_of_not_mem _ hfresh] at hupdate
    have hconsistent : (modifiedRedelegation bonds redelegatedBonds
        (findBondsToRemove bonds amount)).Consistent := by
      rw [hmodified]
      exact consistent_computeModifiedRedelegation _ _ _
    -- what is unbonded and what is left add up to the tokens before
    have hsplit := totalRedelegated_add_of_forall
      (tokenAmount_modified_add_updated hconsistent hrbonds hupdate)
    obtain ⟨-, hleft⟩ := applyModifiedRedelegation_cut hamount hnew happly
    rw [deltaVal_newUnbondsMap_of_newEntry hnew]
    omega

/-- The redelegated tokens `compute_new_redelegated_unbonds` gives a start epoch
are those of a bond unbonded, as `redelegatedUnbondsAt` reads them. -/
theorem find?_computeNewRedelegatedUnbonds
    {redelegatedBonds newRedelegatedUnbonds : SortedMap ℕ (RedelegatedTokens Address)}
    {epochsToRemove : List ℕ} {modified : ModifiedRedelegation Address}
    (hcompute : computeNewRedelegatedUnbonds redelegatedBonds epochsToRemove modified =
      .ok newRedelegatedUnbonds)
    {start : ℕ} {rbonds : RedelegatedTokens Address}
    (hfind : newRedelegatedUnbonds.find? start = some rbonds) :
    (start ∈ epochsToRemove ∨ modified.epoch = some start) ∧
      redelegatedUnbondsAt (tokensAt redelegatedBonds start) start modified = .ok rbonds := by
  unfold computeNewRedelegatedUnbonds at hcompute
  rcases SortedMap.find?_foldlM_insert
      (fun start => redelegatedUnbondsAt (tokensAt redelegatedBonds start) start modified)
      hcompute hfind with ⟨hmem, hrbonds⟩ | hempty
  · refine ⟨?_, hrbonds⟩
    have hunbonded := (List.mem_filter.mp hmem).1
    cases hepoch : modified.epoch with
    | none =>
        rw [hepoch] at hunbonded
        exact Or.inl hunbonded
    | some epoch =>
        rw [hepoch] at hunbonded
        rcases List.mem_insert_iff.mp hunbonded with rfl | hremoved
        · exact Or.inr rfl
        · exact Or.inl hremoved
  · cases hempty

/-- Every start epoch's redelegated unbonds are at most what is taken from its
bond. -/
theorem totalRedelegated_computeNewRedelegatedUnbonds_le {bonds : SortedMap ℕ ℕ}
    {redelegatedBonds next newRedelegatedUnbonds : SortedMap ℕ (RedelegatedTokens Address)}
    (hbounded : PairBounded bonds redelegatedBonds) {amount : ℕ} (hamount : amount ≠ 0)
    (happly : applyModifiedRedelegation
      (redelegatedBonds.eraseAll (findBondsToRemove bonds amount).epochs)
      (modifiedRedelegation bonds redelegatedBonds (findBondsToRemove bonds amount)) = .ok next)
    (hcompute : computeNewRedelegatedUnbonds redelegatedBonds (findBondsToRemove bonds amount).epochs
      (modifiedRedelegation bonds redelegatedBonds (findBondsToRemove bonds amount)) =
        .ok newRedelegatedUnbonds)
    (start : ℕ) (rbonds : RedelegatedTokens Address)
    (hfind : newRedelegatedUnbonds.find? start = some rbonds) :
    totalRedelegated rbonds ≤ deltaVal (newUnbondsMap bonds (findBondsToRemove bonds amount)) start := by
  obtain ⟨hstart, hrbonds⟩ := find?_computeNewRedelegatedUnbonds hcompute hfind
  exact totalRedelegated_redelegatedUnbondsAt_le hbounded hamount happly hstart hrbonds

end RedelegatedUnbonds

/-! ## What slashing leaves -/

section Slashing

variable {Address : Type} [LinearOrder Address]

/-- Slashing leaves at most the amount slashed. -/
theorem applyListSlashesTo_le {params : OwnedPosParams} {slashes : List Slash} {amount result : ℕ}
    (happly : applyListSlashesTo params slashes amount = .ok result) : result ≤ amount := by
  obtain ⟨slashed, hslashed, rfl⟩ := map_eq_ok happly
  have hle := Amount.le_iff_toNat_le.mp (applyListSlashes_le hslashed)
  rw [BitVec.toNat_ofNat] at hle
  exact le_trans hle (Nat.mod_le _ _)

/-- A step of the loops of `fold_and_slash_redelegated_bonds` that counts `weight`
of what it visits as redelegated, and at most that as left after slashing. -/
def CountsWithin {δ : Type} (weight : δ → ℕ)
    (step : FoldRedelegatedBondsResult → δ → Except SlashError FoldRedelegatedBondsResult) : Prop :=
  ∀ acc item next, step acc item = .ok next →
    next.totalRedelegated = acc.totalRedelegated + weight item ∧
      next.totalAfterSlashing ≤ acc.totalAfterSlashing + weight item

/-- A loop of such steps is one such step over a list, weighing the sum of the
weights; the induction follows the list. -/
theorem CountsWithin.foldlM {δ : Type} {weight : δ → ℕ}
    {step : FoldRedelegatedBondsResult → δ → Except SlashError FoldRedelegatedBondsResult}
    (hstep : CountsWithin weight step) :
    CountsWithin (fun items : List δ => (items.map weight).sum)
      fun acc items => items.foldlM step acc := by
  intro acc items
  induction items generalizing acc with
  | nil =>
      intro next hfold
      cases hfold
      simp
  | cons item rest ih =>
      intro next hfold
      dsimp only at hfold ih ⊢
      rw [List.foldlM_cons] at hfold
      obtain ⟨mid, hmid, hrest⟩ := bind_eq_ok hfold
      obtain ⟨hred, hafter⟩ := hstep acc item mid hmid
      obtain ⟨hredRest, hafterRest⟩ := ih mid next hrest
      simp only [List.map_cons, List.sum_cons]
      omega

/-- `fold_and_slash_redelegated_bonds` counts all the redelegated tokens it is
given, and leaves at most them after slashing. -/
theorem foldAndSlashRedelegatedBonds_eq_ok {params : PosParams}
    {validatorSlashes : Address → List Slash} {redelegatedUnbonds : RedelegatedTokens Address}
    {startEpoch : ℕ} {listSlashes : List Slash} {slashEpochFilter : ℕ → Bool}
    {result : FoldRedelegatedBondsResult}
    (hfold : foldAndSlashRedelegatedBonds params validatorSlashes redelegatedUnbonds startEpoch
      listSlashes slashEpochFilter = .ok result) :
    result.totalRedelegated = totalRedelegated redelegatedUnbonds ∧
      result.totalAfterSlashing ≤ result.totalRedelegated := by
  -- the loop over the source validators, each a loop over its bonds
  obtain ⟨hred, hafter⟩ := @CountsWithin.foldlM _
    (fun bondsMap : Address × SortedMap ℕ ℕ => amountSum bondsMap.2) _
    (fun acc bondsMap next hsrc => by
      refine @CountsWithin.foldlM _ (fun bond : ℕ × ℕ => bond.2) _ ?_ acc bondsMap.2.entries next hsrc
      intro acc bond next hbond
      obtain ⟨merged, -, hrest⟩ := bind_eq_ok hbond
      obtain ⟨afterSlashing, hslashed, hpure⟩ := bind_eq_ok hrest
      cases hpure
      have hle := applyListSlashesTo_le hslashed
      exact ⟨rfl, by dsimp only; omega⟩)
    FoldRedelegatedBondsResult.default redelegatedUnbonds.entries result hfold
  have htotal : (redelegatedUnbonds.entries.map fun bondsMap => amountSum bondsMap.2).sum =
      totalRedelegated redelegatedUnbonds := rfl
  have hdefault : FoldRedelegatedBondsResult.default.totalRedelegated = 0 ∧
      FoldRedelegatedBondsResult.default.totalAfterSlashing = 0 := ⟨rfl, rfl⟩
  dsimp only at hred hafter
  rw [htotal, hdefault.1, zero_add] at hred
  rw [htotal, hdefault.2, zero_add] at hafter
  exact ⟨hred, hred ▸ hafter⟩

/-- What the loop of `compute_amount_after_slashing_unbond` keeps with `rest` of
the unbonds still to visit: the start epochs visited are in the epoch map with
amounts that add up to the sum, and the sum with what is still to visit is at
most all the unbonds. -/
structure SlashingProgress (unbonds : SortedMap ℕ ℕ) (rest : List (ℕ × ℕ)) (acc : ResultSlashing) :
    Prop where
  sub : ∀ unbond ∈ rest, unbond ∈ unbonds.entries
  nodup : (rest.map Prod.fst).Nodup
  fresh : ∀ unbond ∈ rest, acc.epochMap.find? unbond.1 = none
  sum_eq : amountSum acc.epochMap = acc.sum
  sum_le : acc.sum + (rest.map Prod.snd).sum ≤ amountSum unbonds

/-- `compute_amount_after_slashing_unbond` returns an epoch map whose amounts
add up to its sum, and that sum is at most the unbonds, where each start
epoch's redelegated unbonds are at most its unbond. The loop keeps
`SlashingProgress`. -/
theorem computeAmountAfterSlashingUnbond_eq_ok {params : PosParams}
    {validatorSlashes : Address → List Slash} {unbonds : SortedMap ℕ ℕ}
    {redelegatedUnbonds : SortedMap ℕ (RedelegatedTokens Address)} {slashes : List Slash}
    {result : ResultSlashing}
    (hbound : ∀ start rbonds, redelegatedUnbonds.find? start = some rbonds →
      totalRedelegated rbonds ≤ deltaVal unbonds start)
    (hcompute : computeAmountAfterSlashingUnbond params validatorSlashes unbonds redelegatedUnbonds
      slashes = .ok result) :
    amountSum result.epochMap = result.sum ∧ result.sum ≤ amountSum unbonds := by
  have hinit : SlashingProgress unbonds unbonds.entries ResultSlashing.default :=
    ⟨fun _ hunbond => hunbond, unbonds.nodup_keys, fun _ _ => rfl, rfl, by
      simp only [ResultSlashing.default, zero_add]
      rfl⟩
  have hdone := foldlM_invariant_rest (SlashingProgress unbonds) (fun acc unbond rest next hprogress hstep => by
    have hentry := hprogress.sub unbond List.mem_cons_self
    have hdelta : deltaVal unbonds unbond.1 = unbond.2 := by
      rw [deltaVal, SortedMap.find?_eq_some_iff.mpr hentry]
      rfl
    -- the step adds what is left of the unbond to the sum and to the epoch map
    obtain ⟨left, hleft, rfl⟩ : ∃ left, left ≤ unbond.2 ∧
        next = ⟨acc.sum + left, acc.epochMap.insert unbond.1 left⟩ := by
      dsimp only at hstep
      split at hstep
      · -- the start epoch has redelegated unbonds, within the unbond
        next rbonds hfind =>
        obtain ⟨resultFold, hfold, hrest⟩ := bind_eq_ok hstep
        obtain ⟨afterNotRedelegated, hnot, hpure⟩ := bind_eq_ok hrest
        cases hpure
        obtain ⟨htotal, hafter⟩ := foldAndSlashRedelegatedBonds_eq_ok hfold
        have hwithin := hbound _ rbonds hfind
        have hleft := applyListSlashesTo_le hnot
        rw [hdelta] at hwithin
        exact ⟨afterNotRedelegated + resultFold.totalAfterSlashing, by omega, rfl⟩
      · obtain ⟨resultFold, hfold, hrest⟩ := bind_eq_ok hstep
        cases hfold
        obtain ⟨afterNotRedelegated, hnot, hpure⟩ := bind_eq_ok hrest
        cases hpure
        have hleft := applyListSlashesTo_le hnot
        exact ⟨afterNotRedelegated + FoldRedelegatedBondsResult.default.totalAfterSlashing,
          by simp only [FoldRedelegatedBondsResult.default] at hleft ⊢; omega, rfl⟩
    have hnodup := hprogress.nodup
    rw [List.map_cons] at hnodup
    obtain ⟨hnew, hnodupRest⟩ := List.nodup_cons.mp hnodup
    have hfresh := hprogress.fresh unbond List.mem_cons_self
    have hsumLe := hprogress.sum_le
    rw [List.map_cons, List.sum_cons] at hsumLe
    refine ⟨fun other hother => hprogress.sub other (List.mem_cons_of_mem _ hother), hnodupRest,
      fun other hother => ?_, ?_, ?_⟩
    · -- a later unbond has another start epoch
      have hne : other.1 ≠ unbond.1 := fun hsame => hnew (hsame ▸ List.mem_map.mpr ⟨other, hother, rfl⟩)
      rw [SortedMap.find?_insert_of_ne _ _ hne]
      exact hprogress.fresh other (List.mem_cons_of_mem _ hother)
    · have hsum := SortedMap.sumBy_insert_add id unbond.1 left acc.epochMap
      rw [hfresh, Option.map_none, Option.getD_none, add_zero] at hsum
      change amountSum (acc.epochMap.insert unbond.1 left) = acc.sum + left
      rw [← hprogress.sum_eq]
      exact hsum
    · dsimp only
      omega) hinit hcompute
  have hsumLe := hdone.sum_le
  rw [List.map_nil, List.sum_nil, add_zero] at hsumLe
  exact ⟨hdone.sum_eq, hsumLe⟩

end Slashing

/-! ## `unbond_tokens` -/

section Accounting

variable {Address : Type} [LinearOrder Address]

/-- A successful `unbond_tokens` of a nonzero amount, not part of a
redelegation, in a state whose bonds were reached by calls that start bonds by
its pipeline epoch. It takes exactly the amount from the bond's sum at the
pipeline epoch, bond by bond as `moved` says, newest bonds first: every bond
newer than one it takes from is taken whole. It adds the same amounts at the
withdrawable epoch to the unbonds of their start epochs, the amount in all,
and moves them from the validator's total bonded to its total unbonded at the
pipeline epoch. What it returns adds up to its sum, which is at most the
amount. Nothing is assumed of the state beyond its bonds. -/
theorem unbondTokens_accounting {calls : List (BondCall Address)} {state next : PosStore Address}
    {params : PosParams} {source : Option Address} {validator : Address} {amount currentEpoch : ℕ}
    {result : ResultSlashing} (hreach : state.bondStore = BondStore.empty.run calls)
    (hepochs : ∀ call ∈ calls, call.latestEpoch ≤ currentEpoch + params.pipelineLen)
    (hamount : 0 < amount)
    (hunbond : state.unbondTokens params source validator amount currentEpoch false =
      .ok (next, result)) :
    bondSumUpTo (next.bondStore.bonds (source.getD validator, validator))
          (currentEpoch + params.pipelineLen) + amount =
        bondSumUpTo (state.bondStore.bonds (source.getD validator, validator))
          (currentEpoch + params.pipelineLen) ∧
      (∃ moved : SortedMap ℕ ℕ, amountSum moved = amount ∧
        (∀ epoch, bondAt next.bondStore (source.getD validator) validator epoch +
            deltaVal moved epoch = bondAt state.bondStore (source.getD validator) validator epoch) ∧
        (∀ epoch later, epoch < later → 0 < deltaVal moved epoch →
          deltaVal moved later = bondAt state.bondStore (source.getD validator) validator later) ∧
        (∀ start, deltaVal (recordsAt (next.unbonds (source.getD validator, validator)) start)
            (currentEpoch + (params.pipelineLen + params.owned.unbondingLen +
              params.owned.cubicSlashingWindowLength)) =
          deltaVal (recordsAt (state.unbonds (source.getD validator, validator)) start)
            (currentEpoch + (params.pipelineLen + params.owned.unbondingLen +
              params.owned.cubicSlashingWindowLength)) + deltaVal moved start) ∧
        unbondedAt (next.unbonds (source.getD validator, validator))
            (currentEpoch + (params.pipelineLen + params.owned.unbondingLen +
              params.owned.cubicSlashingWindowLength)) =
          unbondedAt (state.unbonds (source.getD validator, validator))
            (currentEpoch + (params.pipelineLen + params.owned.unbondingLen +
              params.owned.cubicSlashingWindowLength)) + amount ∧
        (∀ start, deltaVal (next.totalBonded validator) start + deltaVal moved start =
          deltaVal (state.totalBonded validator) start) ∧
        (∀ start, deltaVal (recordsAt (next.totalUnbonded validator)
            (currentEpoch + params.pipelineLen)) start =
          deltaVal (recordsAt (state.totalUnbonded validator) (currentEpoch + params.pipelineLen))
            start + deltaVal moved start)) ∧
      amountSum result.epochMap = result.sum ∧ result.sum ≤ amount := by
  have hne : amount ≠ 0 := Nat.pos_iff_ne_zero.mp hamount
  obtain ⟨hfits, hwrite⟩ := PosStore.unbondTokens_eq_ok hne hunbond
  obtain ⟨newRedelegatedUnbonds, updated, totals, redelegatedTotals, hcompute, happly, hmove, -,
    hslash, rfl⟩ := PosStore.writeUnbond_eq_ok hwrite
  -- what the calls that reached the state keep of the pair: bonds started by
  -- the pipeline epoch, each holding its redelegated tokens
  have hstartsBy : StartsBy (state.bondStore.bonds (source.getD validator, validator))
      (currentEpoch + params.pipelineLen) := by
    rw [hreach]
    exact run_startsBy calls (bondsStartBy_empty _) hepochs _
  have hbounded : PairBounded (state.bondStore.bonds (source.getD validator, validator))
      (state.bondStore.redelegatedBonds (source.getD validator, validator)) := by
    rw [hreach]
    exact run_bounded calls redelegationBounded_empty _ _
  rw [bondSumUpTo_of_startsBy hstartsBy] at hfits
  have hmoved := amountSum_newUnbondsMap hfits
  have htotals := moveTotals_eq_ok (SortedMap.nodup_keys _) hmove
  refine ⟨?_, ⟨_, hmoved, fun epoch => ?_, fun epoch later hlt htaken => ?_, fun start => ?_, ?_,
    fun start => ?_, fun start => ?_⟩, ?_⟩
  · -- the bond's sum at the pipeline epoch
    have hleft := amountSum_removeBonds (state.bondStore.bonds (source.getD validator, validator)) amount
    simp only [PosStore.unbondWrites, Function.update_self]
    rw [bondSumUpTo_of_startsBy (hstartsBy.removeBonds amount), bondSumUpTo_of_startsBy hstartsBy, hleft]
    omega
  · simp only [bondAt, PosStore.unbondWrites, Function.update_self]
    exact deltaVal_removeBonds_add_newUnbondsMap _ amount epoch
  · exact newUnbondsMap_lifo _ amount hlt htaken
  · simp only [PosStore.unbondWrites, Bool.false_eq_true, if_false, Function.update_self]
    rw [deltaVal_recordsAt_addUnbonds _ _ (SortedMap.nodup_keys _), if_pos rfl, boundAmount_entries]
  · simp only [PosStore.unbondWrites, Bool.false_eq_true, if_false, Function.update_self]
    rw [unbondedAt_addUnbonds, hmoved]
  · simp only [PosStore.unbondWrites, Function.update_self]
    rw [← boundAmount_entries]
    exact (htotals start).1
  · simp only [PosStore.unbondWrites, Function.update_self]
    rw [recordsAt_insert, if_pos rfl, ← boundAmount_entries]
    exact (htotals start).2
  · -- what slashing leaves: each start epoch's redelegated unbonds fit in its unbond
    obtain ⟨hsumEq, hsumLe⟩ := computeAmountAfterSlashingUnbond_eq_ok
      (totalRedelegated_computeNewRedelegatedUnbonds_le hbounded hne happly hcompute) hslash
    exact ⟨hsumEq, hmoved ▸ hsumLe⟩

/-- A delegator bonds 100 tokens to validator 2 and redelegates 60 of them to
validator 1, then bonds 50 more to validator 1 one epoch earlier. -/
def redelegationCalls : List (BondCall ℕ) :=
  [.bond 0 2 100 0 2, .redelegate 0 2 1 0 2 60 fun _ amount => amount, .bond 0 1 50 0 1]

/-- The storage after those calls, with the validator's totals to match; validators
1 and 2 unslashed. -/
def redelegationStore : PosStore ℕ where
  bondStore := BondStore.empty.run redelegationCalls
  unbonds := fun _ => SortedMap.empty
  redelegatedUnbonds := fun _ => SortedMap.empty
  totalBonded := fun _ => SortedMap.empty.insert 1 50 |>.insert 2 60
  totalUnbonded := fun _ => SortedMap.empty
  totalRedelegatedBonded := fun _ =>
    SortedMap.empty.insert 2 (SortedMap.empty.insert 2 (SortedMap.empty.insert 2 60))
  totalRedelegatedUnbonded := fun _ => SortedMap.empty
  validatorSlashes := fun _ => []
  maxCommissionRateChange := fun address => if address = 0 then none else some Dec.zero
  lastSlashEpoch := fun _ => none

/-- The parameters of the example: pipeline length 2. -/
def redelegationParams : PosParams := ⟨⟨4, 1⟩, 2⟩

/-- Unbonding 30 of the delegator's bonds to validator 1 cuts the redelegated
bond of epoch 2, and so modifies its redelegated tokens. -/
theorem unbondTokens_accounting_after_redelegation :
    (∀ call ∈ redelegationCalls, call.latestEpoch ≤ 0 + redelegationParams.pipelineLen) ∧
      ∃ next result, redelegationStore.unbondTokens redelegationParams (some 0) 1 30 0 false =
          .ok (next, result) ∧
        bondSumUpTo (next.bondStore.bonds (0, 1)) 2 + 30 =
          bondSumUpTo (redelegationStore.bondStore.bonds (0, 1)) 2 ∧
        amountSum result.epochMap = result.sum ∧ result.sum ≤ 30 := by
  have hepochs : ∀ call ∈ redelegationCalls, call.latestEpoch ≤ 0 + redelegationParams.pipelineLen := by
    simp [redelegationCalls, BondCall.latestEpoch, redelegationParams]
  have hok : (redelegationStore.unbondTokens redelegationParams (some 0) 1 30 0 false).toBool = true := by
    decide +kernel
  obtain ⟨next, result, hunbond⟩ : ∃ next result,
      redelegationStore.unbondTokens redelegationParams (some 0) 1 30 0 false = .ok (next, result) := by
    revert hok
    cases redelegationStore.unbondTokens redelegationParams (some 0) 1 30 0 false with
    | error err => exact fun hok => by cases hok
    | ok value => exact fun _ => ⟨value.1, value.2, rfl⟩
  obtain ⟨hsum, -, hresult⟩ := unbondTokens_accounting rfl hepochs (by decide) hunbond
  exact ⟨hepochs, next, result, hunbond, hsum, hresult⟩

end Accounting

end Namada.ProofOfStake
