/-
# Liveness records over runs of blocks

`finalize_block` keeps two records for each consensus validator: the heights of
the blocks whose votes it missed, in a sliding window (`liveness_missed_votes`),
and the number of those heights (`liveness_sum_missed_votes`).
`record_liveness_data` takes out the height that left the window, then records
the previous block's missing votes. `prune_liveness_data` removes, at a new
epoch, the records of the validators that left the consensus set.
`jail_for_liveness` only reads the counts.

In every state that a run of blocks reaches from the empty records, a validator
with a missed height has a count, and every count equals the number of heights
(`Counted`). The reason is that each block's vote height is above every height
recorded before it. So the `unwrap` and the `- 1` of `record_liveness_data`
never panic (`runBlocks_counted`). The consensus sets are inputs of each
block, so the result holds whichever validators the rest of PoS puts in them.
-/

import Mathlib
import Namada.Math.Except
import Namada.ProofOfStake.Redelegation

namespace Namada.ProofOfStake

open Namada.Math

variable {Address : Type}

/-- The liveness records of PoS storage. -/
structure LivenessData (Address : Type) where
  /-- `liveness_missed_votes_handle()`: the heights at which each validator's
  vote was missing. -/
  missedVotes : Address → Finset ℕ
  /-- `liveness_sum_missed_votes_handle()`: how many there are, once recorded. -/
  sumMissedVotes : Address → Option ℕ

namespace LivenessData

/-- No liveness records. -/
def empty : LivenessData Address := ⟨fun _ => ∅, fun _ => none⟩

variable [DecidableEq Address]

/-- The two records of one validator replaced. -/
def setRecords (data : LivenessData Address) (validator : Address) (missed : Finset ℕ)
    (sum : Option ℕ) : LivenessData Address :=
  ⟨Function.update data.missedVotes validator missed, Function.update data.sumMissedVotes validator sum⟩

@[simp] theorem setRecords_missedVotes (data : LivenessData Address) (validator : Address)
    (missed : Finset ℕ) (sum : Option ℕ) (other : Address) :
    (data.setRecords validator missed sum).missedVotes other =
      if other = validator then missed else data.missedVotes other :=
  Function.update_apply _ _ _ _

@[simp] theorem setRecords_sumMissedVotes (data : LivenessData Address) (validator : Address)
    (missed : Finset ℕ) (sum : Option ℕ) (other : Address) :
    (data.setRecords validator missed sum).sumMissedVotes other =
      if other = validator then sum else data.sumMissedVotes other :=
  Function.update_apply _ _ _ _

/-! ## `record_liveness_data` -/

/-- The first half of the loop body of `record_liveness_data`: the height that
just left the window is removed, and a count is lowered by one when it was
there (`missed_votes.unwrap() - 1`). -/
def pruneMissedVote (heightToPrune : Option ℕ) (missed : Finset ℕ) (sum : Option ℕ) :
    Except PosError (Finset ℕ × Option ℕ) :=
  match heightToPrune with
  | some pruneHeight =>
    let prunedMissingVote := pruneHeight ∈ missed
    let missed := missed.erase pruneHeight
    if prunedMissingVote then
      match sum with
      | some missedVotes => if missedVotes = 0 then .error .panic else .ok (missed, some (missedVotes - 1))
      | none => .error .panic
    else .ok (missed, sum)
  | none => .ok (missed, sum)

/-- The second half: a missing vote is recorded at the vote height and counted
(the `u64` count's `+ 1` panics on overflow), and a validator that voted gets a
count of zero if it had none. -/
def recordVote (voted : Bool) (votesHeight : ℕ) (missed : Finset ℕ) (sum : Option ℕ) :
    Except PosError (Finset ℕ × Option ℕ) :=
  if voted then .ok (missed, if sum.isSome then sum else some 0)
  else
    match sum with
    | some missedVotes =>
      if missedVotes + 1 < 2 ^ 64 then .ok (insert votesHeight missed, some (missedVotes + 1))
      else .error .panic
    | none => .ok (insert votesHeight missed, some 1)

/-- The loop body of `record_liveness_data` for one consensus validator. -/
def recordValidator (data : LivenessData Address) (votes : List Address) (votesHeight : ℕ)
    (heightToPrune : Option ℕ) (consValidator : Address) : Except PosError (LivenessData Address) := do
  let (missed, sum) ← pruneMissedVote heightToPrune (data.missedVotes consValidator)
    (data.sumMissedVotes consValidator)
  let (missed, sum) ← recordVote (consValidator ∈ votes) votesHeight missed sum
  .ok (data.setRecords consValidator missed sum)

/-- `record_liveness_data`, over the consensus validators of the votes' epoch
and the addresses of the validators that voted. -/
def recordLivenessData (data : LivenessData Address) (consensusValidators votes : List Address)
    (votesHeight livenessWindowCheck : ℕ) : Except PosError (LivenessData Address) :=
  let heightToPrune :=
    if livenessWindowCheck ≤ votesHeight then some (votesHeight - livenessWindowCheck) else none
  consensusValidators.foldlM (fun data consValidator =>
    data.recordValidator votes votesHeight heightToPrune consValidator) data

/-! ## `prune_liveness_data` and the blocks -/

/-- `prune_liveness_data`: the validators with a count that are not in the
consensus set lose both records. -/
def pruneLivenessData (data : LivenessData Address) (consensusValidators : List Address) :
    LivenessData Address :=
  let pruned := fun validator => (data.sumMissedVotes validator).isSome ∧ validator ∉ consensusValidators
  ⟨fun validator => if pruned validator then ∅ else data.missedVotes validator,
    fun validator => if pruned validator then none else data.sumMissedVotes validator⟩

end LivenessData

/-- What a block brings to the liveness records. -/
structure Block (Address : Type) where
  /-- `storage.get_block_height()`. -/
  height : ℕ
  isNewEpoch : Bool
  /-- The addresses of the validators whose votes on the previous block came in. -/
  votes : List Address
  /-- `read_consensus_validator_set_addresses` at the epoch of the votes. -/
  votesConsensus : List Address
  /-- `read_consensus_validator_set_addresses` at the current epoch. -/
  currentConsensus : List Address

variable [DecidableEq Address]

/-- The consensus set liveness check of `finalize_block`: the votes on the
previous block are recorded when there are any. -/
def recordBlockVotes (livenessWindowCheck : ℕ) (data : LivenessData Address) (block : Block Address) :
    Except PosError (LivenessData Address) :=
  if block.votes.isEmpty then .ok data
  -- `height.prev_height()`: the block of the votes, none below height one
  else if block.height = 0 then .ok data
  else data.recordLivenessData block.votesConsensus block.votes (block.height - 1) livenessWindowCheck

/-- The liveness part of `finalize_block`: the votes on the previous block are
recorded, and the records of the validators that left the consensus set are
pruned at a new epoch. `jail_for_liveness`, between the two, reads the counts
and writes none of them. -/
def finalizeBlock (livenessWindowCheck : ℕ) (data : LivenessData Address) (block : Block Address) :
    Except PosError (LivenessData Address) := do
  let data ← recordBlockVotes livenessWindowCheck data block
  if block.isNewEpoch then .ok (data.pruneLivenessData block.currentConsensus) else .ok data

/-- A run of blocks, one `finalize_block` after another. -/
def runBlocks (livenessWindowCheck : ℕ) :
    LivenessData Address → List (Block Address) → Except PosError (LivenessData Address)
  | data, [] => .ok data
  | data, block :: rest => do
    let data ← finalizeBlock livenessWindowCheck data block
    runBlocks livenessWindowCheck data rest

/-- Blocks as a chain finalizes them: each above the one before it, at a `u64`
height, with a set (no address twice) of consensus validators for the votes. -/
def Chained : ℕ → List (Block Address) → Prop
  | _, [] => True
  | last, block :: rest =>
    last < block.height ∧ block.height < 2 ^ 64 ∧ block.votesConsensus.Nodup ∧ Chained block.height rest

/-! ## The records agree along every run -/

namespace LivenessData

/-- The two records of one validator agree: no count goes with no missed
height, and a count is the number of missed heights. -/
def RecordCounted (missed : Finset ℕ) : Option ℕ → Prop
  | none => missed = ∅
  | some count => count = missed.card

/-- Every validator's records agree. -/
def Counted (data : LivenessData Address) : Prop :=
  ∀ validator, RecordCounted (data.missedVotes validator) (data.sumMissedVotes validator)

/-- Every missed height recorded is below `height`. -/
def Below (data : LivenessData Address) (height : ℕ) : Prop :=
  ∀ validator, ∀ missedHeight ∈ data.missedVotes validator, missedHeight < height

omit [DecidableEq Address] in
theorem Below.mono {data : LivenessData Address} {low high : ℕ} (hbelow : data.Below low)
    (hle : low ≤ high) : data.Below high :=
  fun validator missedHeight hmem => Nat.lt_of_lt_of_le (hbelow validator missedHeight hmem) hle

omit [DecidableEq Address] in
theorem counted_empty : (empty : LivenessData Address).Counted := fun _ => rfl

/-- Removing the height that left the window keeps the records agreeing: a
height that was there has a count of at least one. -/
theorem pruneMissedVote_counted (heightToPrune : Option ℕ) {missed : Finset ℕ} {sum : Option ℕ}
    (hcounted : RecordCounted missed sum) :
    ∃ pruned, pruneMissedVote heightToPrune missed sum = .ok pruned ∧
      RecordCounted pruned.1 pruned.2 ∧ pruned.1 ⊆ missed := by
  cases heightToPrune with
  | none => exact ⟨(missed, sum), rfl, hcounted, subset_refl _⟩
  | some pruneHeight =>
    by_cases hmem : pruneHeight ∈ missed
    · cases sum with
      | none =>
        rw [RecordCounted] at hcounted
        rw [hcounted] at hmem
        cases hmem
      | some count =>
        have hpos : count ≠ 0 := by
          rw [RecordCounted] at hcounted
          rw [hcounted]
          exact Finset.card_ne_zero_of_mem hmem
        refine ⟨(missed.erase pruneHeight, some (count - 1)), by simp [pruneMissedVote, hmem, hpos], ?_,
          Finset.erase_subset _ _⟩
        rw [RecordCounted] at hcounted ⊢
        rw [Finset.card_erase_of_mem hmem, hcounted]
    · refine ⟨(missed.erase pruneHeight, sum), by simp [pruneMissedVote, hmem], ?_, Finset.erase_subset _ _⟩
      rwa [Finset.erase_eq_of_notMem hmem]

/-- Recording a vote at a height above every missed one keeps the records
agreeing. The count stays below the vote height, so its `+ 1` fits. -/
theorem recordVote_counted (voted : Bool) {votesHeight : ℕ} {missed : Finset ℕ} {sum : Option ℕ}
    (hcounted : RecordCounted missed sum) (hbelow : ∀ missedHeight ∈ missed, missedHeight < votesHeight)
    (hfit : votesHeight + 1 < 2 ^ 64) :
    ∃ recorded, recordVote voted votesHeight missed sum = .ok recorded ∧
      RecordCounted recorded.1 recorded.2 ∧ ∀ missedHeight ∈ recorded.1, missedHeight ≤ votesHeight := by
  have hnew : votesHeight ∉ missed := fun hmem => lt_irrefl _ (hbelow _ hmem)
  have hcard : missed.card ≤ votesHeight :=
    calc missed.card ≤ (Finset.range votesHeight).card :=
          Finset.card_le_card fun missedHeight hmem => Finset.mem_range.mpr (hbelow missedHeight hmem)
      _ = votesHeight := Finset.card_range _
  have hinsert : ∀ missedHeight ∈ insert votesHeight missed, missedHeight ≤ votesHeight := by
    intro missedHeight hmem
    rcases Finset.mem_insert.mp hmem with rfl | hold
    · exact le_refl _
    · exact (hbelow missedHeight hold).le
  cases voted with
  | true =>
    refine ⟨(missed, if sum.isSome then sum else some 0), rfl, ?_, fun missedHeight hmem =>
      (hbelow missedHeight hmem).le⟩
    cases sum with
    | none =>
      rw [RecordCounted] at hcounted
      show 0 = missed.card
      rw [hcounted, Finset.card_empty]
    | some count => exact hcounted
  | false =>
    cases sum with
    | none =>
      rw [RecordCounted] at hcounted
      subst hcounted
      exact ⟨(insert votesHeight ∅, some 1), rfl, by simp [RecordCounted], hinsert⟩
    | some count =>
      rw [RecordCounted] at hcounted
      have hfitCount : count + 1 < 2 ^ 64 := by omega
      refine ⟨(insert votesHeight missed, some (count + 1)),
        by simp only [recordVote, Bool.false_eq_true, if_false, if_pos hfitCount], ?_, hinsert⟩
      show count + 1 = (insert votesHeight missed).card
      rw [Finset.card_insert_of_notMem hnew, hcounted]

/-- The loop body on one validator changes only its records, and keeps them
agreeing, with no height above the vote height. -/
theorem recordValidator_counted {data : LivenessData Address} (votes : List Address) {votesHeight : ℕ}
    (heightToPrune : Option ℕ) {consValidator : Address}
    (hcounted : RecordCounted (data.missedVotes consValidator) (data.sumMissedVotes consValidator))
    (hbelow : ∀ missedHeight ∈ data.missedVotes consValidator, missedHeight < votesHeight)
    (hfit : votesHeight + 1 < 2 ^ 64) :
    ∃ missed sum, data.recordValidator votes votesHeight heightToPrune consValidator =
        .ok (data.setRecords consValidator missed sum) ∧
      RecordCounted missed sum ∧ ∀ missedHeight ∈ missed, missedHeight ≤ votesHeight := by
  obtain ⟨pruned, hprune, hprunedCounted, hsubset⟩ := pruneMissedVote_counted heightToPrune hcounted
  obtain ⟨recorded, hrecord, hrecordedCounted, hrecordedBelow⟩ :=
    recordVote_counted (consValidator ∈ votes) hprunedCounted
      (fun missedHeight hmem => hbelow missedHeight (hsubset hmem)) hfit
  refine ⟨recorded.1, recorded.2, ?_, hrecordedCounted, hrecordedBelow⟩
  simp only [recordValidator, hprune, ok_bind, hrecord]

theorem Counted.setRecords {data : LivenessData Address} (hcounted : data.Counted) {validator : Address}
    {missed : Finset ℕ} {sum : Option ℕ} (hrecord : RecordCounted missed sum) :
    (data.setRecords validator missed sum).Counted := by
  intro other
  by_cases hother : other = validator
  · simpa [hother] using hrecord
  · simpa [hother] using hcounted other

/-- The loop of `record_liveness_data` over a set of validators goes through:
each one is visited once, with its heights still below the vote height. -/
theorem foldlM_recordValidator_counted (votes : List Address) {votesHeight : ℕ}
    (heightToPrune : Option ℕ) (hfit : votesHeight + 1 < 2 ^ 64) :
    ∀ {validators : List Address} {data : LivenessData Address}, validators.Nodup → data.Counted →
      data.Below (votesHeight + 1) →
      (∀ validator ∈ validators, ∀ missedHeight ∈ data.missedVotes validator, missedHeight < votesHeight) →
      ∃ final, validators.foldlM (fun data consValidator =>
          data.recordValidator votes votesHeight heightToPrune consValidator) data = .ok final ∧
        final.Counted ∧ final.Below (votesHeight + 1)
  | [], data, _, hcounted, hbelow, _ => ⟨data, rfl, hcounted, hbelow⟩
  | validator :: rest, data, hnodup, hcounted, hbelow, hpending => by
    obtain ⟨hfresh, hrestNodup⟩ := List.nodup_cons.mp hnodup
    obtain ⟨missed, sum, hrecord, hrecordCounted, hrecordBelow⟩ :=
      recordValidator_counted votes heightToPrune (hcounted validator)
        (hpending validator List.mem_cons_self) hfit
    -- the validators still to visit keep their records
    have hrestPending : ∀ other ∈ rest, ∀ missedHeight ∈ (data.setRecords validator missed sum).missedVotes other,
        missedHeight < votesHeight := by
      intro other hother missedHeight hmem
      have hne : other ≠ validator := fun hsame => hfresh (hsame ▸ hother)
      rw [setRecords_missedVotes, if_neg hne] at hmem
      exact hpending other (List.mem_cons_of_mem _ hother) missedHeight hmem
    have hbelow' : (data.setRecords validator missed sum).Below (votesHeight + 1) := by
      intro other missedHeight hmem
      rw [setRecords_missedVotes] at hmem
      split_ifs at hmem
      · exact Nat.lt_succ_of_le (hrecordBelow missedHeight hmem)
      · exact hbelow other missedHeight hmem
    obtain ⟨final, hfold, hfinal⟩ := foldlM_recordValidator_counted votes heightToPrune hfit hrestNodup
      (hcounted.setRecords hrecordCounted) hbelow' hrestPending
    refine ⟨final, ?_, hfinal⟩
    rw [List.foldlM_cons, hrecord, ok_bind]
    exact hfold

/-- `record_liveness_data` at a vote height above every missed height goes
through and keeps the records agreeing. -/
theorem recordLivenessData_counted {data : LivenessData Address} {consensusValidators : List Address}
    (votes : List Address) (votesHeight livenessWindowCheck : ℕ) (hnodup : consensusValidators.Nodup)
    (hcounted : data.Counted) (hbelow : data.Below votesHeight) (hfit : votesHeight + 1 < 2 ^ 64) :
    ∃ final, data.recordLivenessData consensusValidators votes votesHeight livenessWindowCheck = .ok final ∧
      final.Counted ∧ final.Below (votesHeight + 1) :=
  foldlM_recordValidator_counted votes _ hfit hnodup hcounted (hbelow.mono (Nat.le_succ _))
    fun validator _ => hbelow validator

/-- Pruning keeps the records agreeing: it drops both records of a validator or
neither. -/
theorem Counted.prune {data : LivenessData Address} (hcounted : data.Counted)
    (consensusValidators : List Address) : (data.pruneLivenessData consensusValidators).Counted := by
  intro validator
  by_cases hpruned : (data.sumMissedVotes validator).isSome ∧ validator ∉ consensusValidators
  · simp only [pruneLivenessData, if_pos hpruned]
    rfl
  · simp only [pruneLivenessData, if_neg hpruned]
    exact hcounted validator

theorem Below.prune {data : LivenessData Address} {height : ℕ} (hbelow : data.Below height)
    (consensusValidators : List Address) : (data.pruneLivenessData consensusValidators).Below height := by
  intro validator missedHeight hmem
  simp only [pruneLivenessData] at hmem
  split_ifs at hmem
  · cases hmem
  · exact hbelow validator missedHeight hmem

end LivenessData

/-- The votes of a block above every missed height are recorded, and leave the
records agreeing with every missed height below the block's own. -/
theorem recordBlockVotes_counted (livenessWindowCheck : ℕ) {data : LivenessData Address}
    {block : Block Address} {last : ℕ} (hcounted : data.Counted) (hbelow : data.Below last)
    (hlast : last < block.height) (hfit : block.height < 2 ^ 64) (hnodup : block.votesConsensus.Nodup) :
    ∃ recorded, recordBlockVotes livenessWindowCheck data block = .ok recorded ∧ recorded.Counted ∧
      recorded.Below block.height := by
  unfold recordBlockVotes
  split_ifs with hempty hzero
  · exact ⟨data, rfl, hcounted, hbelow.mono hlast.le⟩
  · exact ⟨data, rfl, hcounted, hbelow.mono hlast.le⟩
  · -- the votes are on the block before, which is above every missed height
    obtain ⟨recorded, hrecord, hrecordCounted, hrecordBelow⟩ :=
      LivenessData.recordLivenessData_counted block.votes (block.height - 1) livenessWindowCheck hnodup
        hcounted (hbelow.mono (by omega)) (by omega)
    exact ⟨recorded, hrecord, hrecordCounted, hrecordBelow.mono (by omega)⟩

/-- A block above every missed height goes through, and leaves the records
agreeing with every missed height below the block's own. -/
theorem finalizeBlock_counted (livenessWindowCheck : ℕ) {data : LivenessData Address} {block : Block Address}
    {last : ℕ} (hcounted : data.Counted) (hbelow : data.Below last) (hlast : last < block.height)
    (hfit : block.height < 2 ^ 64) (hnodup : block.votesConsensus.Nodup) :
    ∃ final, finalizeBlock livenessWindowCheck data block = .ok final ∧ final.Counted ∧
      final.Below block.height := by
  obtain ⟨recorded, hrecord, hrecordCounted, hrecordBelow⟩ :=
    recordBlockVotes_counted livenessWindowCheck hcounted hbelow hlast hfit hnodup
  simp only [finalizeBlock, hrecord, ok_bind]
  split_ifs
  · exact ⟨_, rfl, hrecordCounted.prune _, hrecordBelow.prune _⟩
  · exact ⟨recorded, rfl, hrecordCounted, hrecordBelow⟩

/-- A run of chained blocks goes through and keeps the records agreeing. -/
theorem runBlocks_counted_of (livenessWindowCheck : ℕ) :
    ∀ {blocks : List (Block Address)} {data : LivenessData Address} {last : ℕ}, Chained last blocks →
      data.Counted → data.Below last →
      ∃ final, runBlocks livenessWindowCheck data blocks = .ok final ∧ final.Counted
  | [], data, _, _, hcounted, _ => ⟨data, rfl, hcounted⟩
  | block :: rest, data, last, hchained, hcounted, hbelow => by
    obtain ⟨hlast, hfit, hnodup, hrest⟩ := hchained
    obtain ⟨next, hblock, hnextCounted, hnextBelow⟩ :=
      finalizeBlock_counted livenessWindowCheck hcounted hbelow hlast hfit hnodup
    obtain ⟨final, hrun, hfinal⟩ := runBlocks_counted_of livenessWindowCheck hrest hnextCounted hnextBelow
    refine ⟨final, ?_, hfinal⟩
    rw [runBlocks, hblock, ok_bind]
    exact hrun

/-- From the empty records, every run of blocks goes through, so the `unwrap`
and the `- 1` of `record_liveness_data` never panic, and it leaves every count
present whenever there is a missed height and equal to their number. -/
theorem runBlocks_counted (livenessWindowCheck : ℕ) (blocks : List (Block Address))
    (hchained : Chained 0 blocks) :
    ∃ final, runBlocks livenessWindowCheck LivenessData.empty blocks = .ok final ∧
      ∀ validator, match final.sumMissedVotes validator with
        | none => final.missedVotes validator = ∅
        | some count => count = (final.missedVotes validator).card :=
  runBlocks_counted_of livenessWindowCheck hchained LivenessData.counted_empty fun _ _ hmem => by cases hmem

/-- Three blocks: validator `1` misses its vote on block one, both vote on block
two, and at the new epoch of block three only validator `0` stays in the
consensus set. -/
def threeBlocks : List (Block ℕ) :=
  [⟨1, false, [], [], []⟩, ⟨2, false, [0], [0, 1], []⟩, ⟨3, true, [0, 1], [0, 1], [0]⟩]

theorem runBlocks_counted_threeBlocks :
    Chained 0 threeBlocks ∧
      ∃ final, runBlocks 10 LivenessData.empty threeBlocks = .ok final ∧
        ∀ validator, match final.sumMissedVotes validator with
          | none => final.missedVotes validator = ∅
          | some count => count = (final.missedVotes validator).card := by
  have hchained : Chained 0 threeBlocks := by simp [Chained, threeBlocks]
  exact ⟨hchained, runBlocks_counted 10 threeBlocks hchained⟩

example : ((runBlocks 10 LivenessData.empty (threeBlocks.take 2)).map fun data =>
    (data.sumMissedVotes 1, data.missedVotes 1)) = .ok (some 1, {1}) := rfl

end Namada.ProofOfStake
