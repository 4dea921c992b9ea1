/-
# Block rewards

`proof_of_stake/src/rewards.rs`: at each block `log_block_rewards_aux` gives
each consensus validator a fraction of the block's rewards. The proposer gets a
share that grows with the signing stake above two thirds, the signers share the
vote reward by their stake among the signers, and every consensus validator
shares the rest by its stake. The fractions are added to the rewards
accumulators. At the end of the epoch `update_rewards_products_and_mint_inflation`
divides each accumulator by the number of blocks, turns it into a share of the
inflation rounded down, and mints what is left to PGF.

Every operation on `Dec` truncates, and the three coefficients are not negative
and add up to one when the proposer and vote rewards leave room for
`MIN_PROPOSER_REWARD` (`getRewardCoeffs_spec`). So the fractions of one block
add up to at most one (`rewardsFractions_sum_le`), the accumulators of `n`
blocks to at most `n` (`logBlocks_accumulated`), and the shares to at most the
inflation, so the subtraction of each share from what is left never underflows
and the PoS and PGF mints add up to the inflation.

This holds of blocks that are well formed (`BlockRewardsInputs.WellFormed`):
each voter in the consensus state is in the consensus set under its stake from
the deltas, and the total stored at the start of the epoch is the set's. These
are invariants of the validator sets, which the model does not hold: they are
assumed here, not proved.

Amounts are natural numbers, and each checked operation of `Uint` fails past
`2^256`.
-/

import Mathlib
import Namada.Core.Dec
import Namada.Math.Except
import Namada.Math.SortedMap
import Namada.Math.Truncation

namespace Namada.ProofOfStake

open Namada.Core Namada.Math

/-! ## Coefficients -/

/-- `MIN_PROPOSER_REWARD`: 0.01. -/
def minProposerReward : Dec := ⟨10000000000⟩

/-- `Amount::mul_floor`, on the amount's integer: the product with a `Dec` that
is not negative, rounded down. -/
def mulFloor (amount : ℕ) (dec : Dec) : Option ℕ := do
  -- fails if the dec is negative
  let _ ← Dec.maximum.checkedSub dec
  let product := amount * dec.raw.natAbs
  if product < 2 ^ 256 then some (product / 10 ^ posDecimalPrecision) else none

/-- The failures of the rewards computations: those of `RewardsError`, the
`ExpectedValidatorInConsensus` of `InflationError`, and a panic for an
`expect`. -/
inductive RewardsError (Address : Type)
  /-- The signers' stake is below two thirds of the consensus stake. -/
  | insufficientVotes (votesNeeded signingStake : ℕ)
  /-- A voter is not in the consensus state. -/
  | expectedValidatorInConsensus (validator : Address)
  /-- A checked operation on amounts or decimals failed. -/
  | arith
  /-- An `expect` failed. -/
  | panic
  deriving DecidableEq

variable {Address : Type}

/-- A checked operation that gives nothing fails with `arith`. -/
def orArith {α : Type} : Option α → Except (RewardsError Address) α
  | some value => .ok value
  | none => .error .arith

/-- The PoS parameters that the rewards read. -/
structure RewardsParams where
  /-- `block_proposer_reward`. -/
  blockProposerReward : Dec
  /-- `block_vote_reward`. -/
  blockVoteReward : Dec

/-- `PosRewardsCalculator`. -/
structure PosRewardsCalculator where
  proposerReward : Dec
  signerReward : Dec
  signingStake : ℕ
  totalStake : ℕ

/-- `PosRewards`. -/
structure PosRewards where
  proposerCoeff : Dec
  signerCoeff : Dec
  activeValCoeff : Dec

namespace PosRewardsCalculator

/-- `get_min_required_votes`: two thirds of the total stake, rounded up. Its
`expect`s fail past `2^256`, the product only if the sum does. -/
def getMinRequiredVotes (calculator : PosRewardsCalculator) : Option ℕ :=
  if calculator.totalStake * 2 + (3 - 1) < 2 ^ 256 then some ((calculator.totalStake * 2 + (3 - 1)) / 3)
  else none

/-- `get_reward_coeffs`. -/
def getRewardCoeffs (calculator : PosRewardsCalculator) : Except (RewardsError Address) PosRewards := do
  let some votesNeeded := calculator.getMinRequiredVotes | throw .panic
  if calculator.signingStake < votesNeeded then
    throw (.insufficientVotes votesNeeded calculator.signingStake)
  -- the subtraction cannot underflow after the check above
  let proposerRewardCoeff ← orArith ((mulFloor (calculator.signingStake - votesNeeded)
    calculator.proposerReward).bind Dec.tryFromAmount)
  let totalStakeDec ← orArith (Dec.tryFromAmount calculator.totalStake)
  let proposerCoeff ← orArith ((proposerRewardCoeff.checkedDiv totalStakeDec).bind fun quotient =>
    quotient.checkedAdd minProposerReward)
  let signerCoeff := calculator.signerReward
  let activeValCoeff ← orArith ((Dec.one.checkedSub proposerCoeff).bind fun rest => rest.checkedSub signerCoeff)
  pure ⟨proposerCoeff, signerCoeff, activeValCoeff⟩

end PosRewardsCalculator

@[simp] theorem orArith_eq_ok {α : Type} {value : Option α} {result : α} :
    (orArith value : Except (RewardsError Address) α) = .ok result ↔ value = some result := by
  cases value <;> simp [orArith]

/-- By a `Dec` that is not negative, `mul_floor` is the product over `10^12`,
rounded down. -/
theorem mulFloor_eq_some {amount result : ℕ} {dec : Dec} (h : mulFloor amount dec = some result) :
    result = amount * dec.raw.natAbs / 10 ^ posDecimalPrecision := by
  unfold mulFloor at h
  cases hsub : Dec.maximum.checkedSub dec with
  | none => simp [hsub] at h
  | some _ =>
    simp only [hsub, Option.bind_eq_bind, Option.bind_some] at h
    split_ifs at h
    exact (Option.some.inj h).symm

/-- Amounts as decimals keep their ratios. -/
theorem scaled_div (first second : ℕ) :
    10 ^ posDecimalPrecision * (first * 10 ^ (posDecimalPrecision - Dec.nativeMaxDecimalPlaces)) /
        (second * 10 ^ (posDecimalPrecision - Dec.nativeMaxDecimalPlaces)) =
      10 ^ posDecimalPrecision * first / second := by
  rw [← Nat.mul_assoc]
  exact Nat.mul_div_mul_right _ _ (Nat.pow_pos (by decide))

/-- The proposer's share of the signing stake above two thirds is at most the
proposer reward: the stake above two thirds is at most the whole. -/
theorem proposerShare_le {signingStake totalStake : ℕ} (votesNeeded proposerReward : ℕ)
    (hstake : signingStake ≤ totalStake) :
    10 ^ posDecimalPrecision * ((signingStake - votesNeeded) * proposerReward / 10 ^ posDecimalPrecision) /
      totalStake ≤ proposerReward := by
  apply Nat.div_le_of_le_mul
  calc 10 ^ posDecimalPrecision * ((signingStake - votesNeeded) * proposerReward / 10 ^ posDecimalPrecision)
      ≤ (signingStake - votesNeeded) * proposerReward := Nat.mul_div_le _ _
    _ ≤ totalStake * proposerReward := Nat.mul_le_mul_right _ (le_trans (Nat.sub_le _ _) hstake)

/-- With a proposer reward that is not negative, rewards that leave room for the minimum proposer
reward, and a signing stake within the total, the coefficients are not negative
and add up to one. -/
theorem getRewardCoeffs_spec {calculator : PosRewardsCalculator} {coeffs : PosRewards}
    (h : calculator.getRewardCoeffs = (.ok coeffs : Except (RewardsError Address) PosRewards))
    (hproposer : 0 ≤ calculator.proposerReward.raw)
    (hroom : calculator.proposerReward.raw + calculator.signerReward.raw + minProposerReward.raw ≤ Dec.one.raw)
    (hstake : calculator.signingStake ≤ calculator.totalStake) :
    0 ≤ coeffs.proposerCoeff.raw ∧ coeffs.signerCoeff = calculator.signerReward ∧
      0 ≤ coeffs.activeValCoeff.raw ∧
        coeffs.proposerCoeff.raw + coeffs.signerCoeff.raw + coeffs.activeValCoeff.raw = Dec.one.raw := by
  cases hvotes : calculator.getMinRequiredVotes with
  | none => simp [PosRewardsCalculator.getRewardCoeffs, hvotes] at h
  | some votesNeeded =>
    simp only [PosRewardsCalculator.getRewardCoeffs, hvotes] at h
    split_ifs at h with hbelow
    · simp [throw, throwThe, MonadExceptOf.throw] at h
    obtain ⟨proposerRewardCoeff, hproposerRewardCoeff, h⟩ := bind_eq_ok h
    obtain ⟨totalStakeDec, htotalStakeDec, h⟩ := bind_eq_ok h
    obtain ⟨proposerCoeff, hproposerCoeff, h⟩ := bind_eq_ok h
    obtain ⟨activeValCoeff, hactiveValCoeff, h⟩ := bind_eq_ok h
    cases h
    rw [orArith_eq_ok] at hproposerRewardCoeff htotalStakeDec hproposerCoeff hactiveValCoeff
    obtain ⟨reward, hreward, hrewardDec⟩ := Option.bind_eq_some_iff.mp hproposerRewardCoeff
    obtain ⟨quotient, hquotient, hadd⟩ := Option.bind_eq_some_iff.mp hproposerCoeff
    obtain ⟨rest, hrest, hsub⟩ := Option.bind_eq_some_iff.mp hactiveValCoeff
    -- the proposer coefficient: the proposer's share over the total stake, plus the minimum
    have hrewardRaw := Dec.tryFromAmount_raw hrewardDec
    have htotalRaw := Dec.tryFromAmount_raw htotalStakeDec
    have hquotientRaw := Dec.truncDiv_raw (hrewardRaw ▸ Int.natCast_nonneg _)
      (htotalRaw ▸ Int.natCast_nonneg _) hquotient
    rw [hrewardRaw, htotalRaw, Int.natAbs_natCast, Int.natAbs_natCast, scaled_div, mulFloor_eq_some hreward]
      at hquotientRaw
    have hshare := proposerShare_le votesNeeded calculator.proposerReward.raw.natAbs hstake
    have hproposerRaw : proposerCoeff.raw = quotient.raw + minProposerReward.raw := Dec.checkedAdd_raw hadd
    have hactiveRaw : activeValCoeff.raw = Dec.one.raw - proposerCoeff.raw - calculator.signerReward.raw := by
      rw [Dec.checkedSub_raw hsub, Dec.checkedSub_raw hrest]
    have hquotientLe : quotient.raw ≤ calculator.proposerReward.raw := by
      rw [hquotientRaw, ← Int.natAbs_of_nonneg hproposer]
      exact Int.ofNat_le.mpr hshare
    have hquotientNonneg : 0 ≤ quotient.raw := hquotientRaw ▸ Int.natCast_nonneg _
    have hminimum : minProposerReward.raw = 10000000000 := rfl
    clear hquotientRaw
    refine ⟨?_, rfl, ?_, ?_⟩ <;> dsimp only
    · omega
    · omega
    · omega

/-! ## Logging the rewards of a block -/

/-- What `log_block_rewards_aux` reads of a block and of PoS storage at its
epoch. -/
structure BlockRewardsInputs (Address : Type) where
  params : RewardsParams
  /-- The consensus validator set, in its order: each validator with the stake
  it is kept under. -/
  consensusValidators : List (ℕ × Address)
  /-- `total_consensus_stake_handle().get(epoch)`: the total that
  `compute_and_store_total_consensus_stake` stored when the epoch began. -/
  storedTotalConsensusStake : Option ℕ
  /-- Whether the validator's state is `Consensus`. -/
  isConsensus : Address → Bool
  /-- `read_validator_stake`. -/
  validatorStake : Address → ℕ
  /-- The proposer of the block. -/
  proposer : Address
  /-- The votes of the block: each validator with its voting power. -/
  votes : List (Address × ℕ)

variable [LinearOrder Address]

/-- `compute_total_consensus_stake`: the stakes of the consensus set added up.
Its `expect` fails past `2^256`, which a partial sum reaches only if the whole
does. -/
def computeTotalConsensusStake (inputs : BlockRewardsInputs Address) : Except (RewardsError Address) ℕ :=
  let total := (inputs.consensusValidators.map Prod.fst).sum
  if total < 2 ^ 256 then .ok total else .error .panic

/-- `get_total_consensus_stake`: the stored total, whose `expect` panics when
there is none. -/
def totalConsensusStake (inputs : BlockRewardsInputs Address) : Except (RewardsError Address) ℕ :=
  match inputs.storedTotalConsensusStake with
  | some total => .ok total
  | none => .error .panic

/-- The loop over the votes: the validators that signed, and their stake from
the deltas. -/
def signerStep (inputs : BlockRewardsInputs Address) (signers : List Address × ℕ) (vote : Address × ℕ) :
    Except (RewardsError Address) (List Address × ℕ) :=
  if vote.2 = 0 then .ok signers
  else if inputs.isConsensus vote.1 then
    let stakeFromDeltas := inputs.validatorStake vote.1
    if signers.2 + stakeFromDeltas < 2 ^ 256 then .ok (signers.1.insert vote.1, signers.2 + stakeFromDeltas)
    else .error .arith
  else .error (.expectedValidatorInConsensus vote.1)

/-- The proposer reward of `log_block_rewards_aux`: the proposer coefficient,
for the block's proposer. -/
def addProposerReward (inputs : BlockRewardsInputs Address) (coeffs : PosRewards) (address : Address) :
    Except (RewardsError Address) Dec :=
  if address = inputs.proposer then orArith (Dec.zero.checkedAdd coeffs.proposerCoeff) else .ok Dec.zero

/-- The signer reward: for a signer, the vote coefficient times its stake over
the signing stake. -/
def addSignerReward (coeffs : PosRewards) (signers : List Address) (signingStakeUnscaled stakeUnscaled : Dec)
    (rewardsFrac : Dec) (address : Address) : Except (RewardsError Address) Dec :=
  if address ∈ signers then
    orArith ((stakeUnscaled.checkedDiv signingStakeUnscaled).bind fun signingFrac =>
      (coeffs.signerCoeff.checkedMul signingFrac).bind rewardsFrac.checkedAdd)
  else .ok rewardsFrac

/-- The fraction of the block's rewards of one consensus validator with a
stake: the proposer reward, the signer reward, and the active coefficient times
its stake over the consensus stake. -/
def rewardsFraction (inputs : BlockRewardsInputs Address) (coeffs : PosRewards) (signers : List Address)
    (signingStakeUnscaled consensusStakeUnscaled : Dec) (stake : ℕ) (address : Address) :
    Except (RewardsError Address) Dec := do
  let stakeUnscaled ← orArith (Dec.tryFromAmount stake)
  let rewardsFrac ← addProposerReward inputs coeffs address
  let rewardsFrac ← addSignerReward coeffs signers signingStakeUnscaled stakeUnscaled rewardsFrac address
  orArith ((stakeUnscaled.checkedDiv consensusStakeUnscaled).bind fun stakeFrac =>
    (coeffs.activeValCoeff.checkedMul stakeFrac).bind rewardsFrac.checkedAdd)

/-- The loop over the consensus set: validators of no stake are skipped. -/
def fractionStep (inputs : BlockRewardsInputs Address) (coeffs : PosRewards) (signers : List Address)
    (signingStakeUnscaled consensusStakeUnscaled : Dec) (values : SortedMap Address Dec)
    (validator : ℕ × Address) : Except (RewardsError Address) (SortedMap Address Dec) :=
  if validator.1 = 0 then .ok values
  else (rewardsFraction inputs coeffs signers signingStakeUnscaled consensusStakeUnscaled validator.1
    validator.2).map fun frac => values.insert validator.2 frac

/-- `log_block_rewards_aux` up to the accumulators: the fraction of the block's
rewards of each consensus validator with a stake. -/
def rewardsFractions (inputs : BlockRewardsInputs Address) :
    Except (RewardsError Address) (SortedMap Address Dec) := do
  let totalConsensusStake ← totalConsensusStake inputs
  let (signers, totalSigningStake) ← inputs.votes.foldlM (signerStep inputs) ([], 0)
  let coeffs ← PosRewardsCalculator.getRewardCoeffs
    ⟨inputs.params.blockProposerReward, inputs.params.blockVoteReward, totalSigningStake, totalConsensusStake⟩
  let consensusStakeUnscaled ← orArith (Dec.tryFromAmount totalConsensusStake)
  let signingStakeUnscaled ← orArith (Dec.tryFromAmount totalSigningStake)
  inputs.consensusValidators.foldlM
    (fractionStep inputs coeffs signers signingStakeUnscaled consensusStakeUnscaled) SortedMap.empty

/-- `try_update` of one validator's rewards accumulator with its fraction. -/
def accumulate (accumulator : SortedMap Address Dec) (entry : Address × Dec) :
    Except (RewardsError Address) (SortedMap Address Dec) :=
  (orArith (((accumulator.find? entry.1).getD Dec.zero).checkedAdd entry.2)).map fun sum =>
    accumulator.insert entry.1 sum

/-- `log_block_rewards_aux`. -/
def logBlockRewardsAux (accumulator : SortedMap Address Dec) (inputs : BlockRewardsInputs Address) :
    Except (RewardsError Address) (SortedMap Address Dec) := do
  let values ← rewardsFractions inputs
  values.entries.foldlM accumulate accumulator

/-- The blocks of an epoch, logged from accumulators that hold nothing. -/
def logBlocks (blocks : List (BlockRewardsInputs Address)) :
    Except (RewardsError Address) (SortedMap Address Dec) :=
  blocks.foldlM logBlockRewardsAux SortedMap.empty

/-! ## The signers -/

/-- A vote of no power is skipped; any other vote is of a validator in the
consensus state, which is added to the signers with its stake. -/
theorem signerStep_eq_ok {inputs : BlockRewardsInputs Address} {signers next : List Address × ℕ}
    {vote : Address × ℕ} (h : signerStep inputs signers vote = .ok next) :
    (vote.2 = 0 ∧ next = signers) ∨
      (vote.2 ≠ 0 ∧ inputs.isConsensus vote.1 = true ∧
        next = (signers.1.insert vote.1, signers.2 + inputs.validatorStake vote.1)) := by
  dsimp only [signerStep] at h
  split_ifs at h with hzero hconsensus hfit
  · exact .inl ⟨hzero, (Except.ok.inj h).symm⟩
  · exact .inr ⟨hzero, hconsensus, (Except.ok.inj h).symm⟩

/-- Over votes of validators that do not repeat, the loop keeps each signer
once with the sum of their stakes, and every signer it adds voted with some
power in the consensus state. -/
theorem signers_spec (inputs : BlockRewardsInputs Address) :
    ∀ {votes : List (Address × ℕ)} {signers : List Address} {result : List Address × ℕ},
      (votes.map Prod.fst).Nodup → (∀ vote ∈ votes, vote.1 ∉ signers) → signers.Nodup →
      votes.foldlM (signerStep inputs) (signers, (signers.map inputs.validatorStake).sum) = .ok result →
      result.1.Nodup ∧ result.2 = (result.1.map inputs.validatorStake).sum ∧
        ∀ signer ∈ result.1, signer ∈ signers ∨
          ∃ vote ∈ votes, vote.1 = signer ∧ vote.2 ≠ 0 ∧ inputs.isConsensus signer = true
  | [], _, _, _, _, hnodup, h => by
    cases h
    exact ⟨hnodup, rfl, fun signer hsigner => .inl hsigner⟩
  | vote :: rest, signers, result, hvotes, hfresh, hnodup, h => by
    rw [List.map_cons, List.nodup_cons] at hvotes
    rw [List.foldlM_cons] at h
    obtain ⟨next, hstep, hrest⟩ := bind_eq_ok h
    rcases signerStep_eq_ok hstep with ⟨hzero, rfl⟩ | ⟨hpower, hconsensus, rfl⟩
    · -- a vote of no power
      obtain ⟨hresultNodup, hsum, hmem⟩ := signers_spec inputs hvotes.2
        (fun other hother => hfresh other (List.mem_cons_of_mem _ hother)) hnodup hrest
      refine ⟨hresultNodup, hsum, fun signer hsigner => ?_⟩
      rcases hmem signer hsigner with hold | ⟨other, hother, hsame⟩
      · exact .inl hold
      · exact .inr ⟨other, List.mem_cons_of_mem _ hother, hsame⟩
    · -- a signer, who is not among the signers yet
      have hinsert : signers.insert vote.1 = vote.1 :: signers :=
        List.insert_of_not_mem (hfresh vote List.mem_cons_self)
      have hsum : (signers.map inputs.validatorStake).sum + inputs.validatorStake vote.1 =
          ((vote.1 :: signers).map inputs.validatorStake).sum := by
        rw [List.map_cons, List.sum_cons, Nat.add_comm]
      simp only [hinsert, hsum] at hrest
      have hfreshRest : ∀ other ∈ rest, other.1 ∉ vote.1 :: signers := by
        intro other hother hmem
        rcases List.mem_cons.mp hmem with hsame | hold
        · exact hvotes.1 (hsame ▸ List.mem_map_of_mem hother)
        · exact hfresh other (List.mem_cons_of_mem _ hother) hold
      obtain ⟨hresultNodup, hresultSum, hmem⟩ := signers_spec inputs hvotes.2 hfreshRest
        (List.nodup_cons.mpr ⟨hfresh vote List.mem_cons_self, hnodup⟩) hrest
      refine ⟨hresultNodup, hresultSum, fun signer hsigner => ?_⟩
      rcases hmem signer hsigner with hold | ⟨other, hother, hsame⟩
      · rcases List.mem_cons.mp hold with rfl | hold
        · exact .inr ⟨vote, List.mem_cons_self, rfl, hpower, hconsensus⟩
        · exact .inl hold
      · exact .inr ⟨other, List.mem_cons_of_mem _ hother, hsame⟩

/-- What a block is assumed to satisfy: rewards that are not negative and leave
room for the minimum proposer reward, a consensus set and votes in which no
validator repeats, a stored total that is the set's, and each voter in the
consensus state in the consensus set under its stake from the deltas. The last
two are invariants of the validator sets, which the model does not hold. -/
structure BlockRewardsInputs.WellFormed (inputs : BlockRewardsInputs Address) : Prop where
  proposerReward : 0 ≤ inputs.params.blockProposerReward.raw
  voteReward : 0 ≤ inputs.params.blockVoteReward.raw
  rewardsRoom : inputs.params.blockProposerReward.raw + inputs.params.blockVoteReward.raw +
    minProposerReward.raw ≤ Dec.one.raw
  consensusNodup : (inputs.consensusValidators.map Prod.snd).Nodup
  votesNodup : (inputs.votes.map Prod.fst).Nodup
  voterInConsensusSet : ∀ vote ∈ inputs.votes, vote.2 ≠ 0 → inputs.isConsensus vote.1 = true →
    (inputs.validatorStake vote.1, vote.1) ∈ inputs.consensusValidators
  storedTotal : ∃ total, computeTotalConsensusStake inputs = .ok total ∧
    inputs.storedTotalConsensusStake = some total

omit [LinearOrder Address] in
/-- Under the invariants, the stored total is the stakes of the consensus set
added up. -/
theorem BlockRewardsInputs.WellFormed.total_eq_sum {inputs : BlockRewardsInputs Address}
    (hwell : inputs.WellFormed) {total : ℕ} (htotal : totalConsensusStake inputs = .ok total) :
    total = (inputs.consensusValidators.map Prod.fst).sum := by
  obtain ⟨computed, hcompute, hstored⟩ := hwell.storedTotal
  rw [totalConsensusStake, hstored] at htotal
  dsimp only [computeTotalConsensusStake] at hcompute
  split_ifs at hcompute
  rw [← Except.ok.inj htotal, ← Except.ok.inj hcompute]

/-- Each signer of a block, under its stake, in the consensus set. -/
def signerEntries (inputs : BlockRewardsInputs Address) (signers : List Address) : List (ℕ × Address) :=
  signers.map fun signer => (inputs.validatorStake signer, signer)

/-- The signers' entries are distinct members of the consensus set; so the
signing stake is at most the consensus stake, and the consensus validators that
signed have at most the signing stake. -/
theorem signerEntries_sums {inputs : BlockRewardsInputs Address} (hwell : inputs.WellFormed)
    {signers : List Address} (hnodup : signers.Nodup)
    (hsigned : ∀ signer ∈ signers, (inputs.validatorStake signer, signer) ∈ inputs.consensusValidators) :
    ((signerEntries inputs signers).map Prod.fst).sum ≤ (inputs.consensusValidators.map Prod.fst).sum ∧
      (((inputs.consensusValidators.filter fun validator => validator.1 ≠ 0).filter fun validator =>
          validator.2 ∈ signers).map Prod.fst).sum ≤ ((signerEntries inputs signers).map Prod.fst).sum := by
  have hsigners : (signerEntries inputs signers).map Prod.snd = signers := by
    simp [signerEntries, Function.comp_def]
  have hentriesNodup : (signerEntries inputs signers).Nodup :=
    List.Nodup.of_map Prod.snd (by rw [hsigners]; exact hnodup)
  have hsubset : signerEntries inputs signers ⊆ inputs.consensusValidators := by
    intro entry hentry
    obtain ⟨signer, hsigner, rfl⟩ := List.mem_map.mp hentry
    exact hsigned signer hsigner
  refine ⟨sum_map_le_of_nodup_subset Prod.fst hentriesNodup hsubset, ?_⟩
  apply sum_map_le_of_nodup_subset Prod.fst
  · exact ((hwell.consensusNodup.of_map Prod.snd).filter _).filter _
  · -- a consensus validator that signed is kept under its stake, since none repeats
    intro validator hvalidator
    simp only [List.mem_filter, decide_eq_true_eq] at hvalidator
    obtain ⟨⟨hmem, -⟩, hsigner⟩ := hvalidator
    have hsame : validator = (inputs.validatorStake validator.2, validator.2) :=
      List.inj_on_of_nodup_map hwell.consensusNodup hmem (hsigned validator.2 hsigner) rfl
    rw [hsame]
    exact List.mem_map_of_mem hsigner

/-! ## The fractions of a block -/

/-- A validator's fraction as the truncating operations compute it, in units of
`10^-12`: the proposer coefficient for the proposer, the vote coefficient's
share by stake among the signers for a signer, and the active coefficient's
share by stake in the consensus set. -/
def fractionOf (proposer : Address) (coeffs : PosRewards) (signers : List Address)
    (signingStake totalStake : ℕ) (validator : ℕ × Address) : ℕ :=
  (if validator.2 = proposer then coeffs.proposerCoeff.raw.natAbs else 0) +
    (if validator.2 ∈ signers then
      coeffs.signerCoeff.raw.natAbs * (10 ^ posDecimalPrecision * validator.1 / signingStake) /
        10 ^ posDecimalPrecision
    else 0) +
    coeffs.activeValCoeff.raw.natAbs * (10 ^ posDecimalPrecision * validator.1 / totalStake) /
      10 ^ posDecimalPrecision

omit [LinearOrder Address] in
/-- Adding a coefficient's share: the stake over the total to twelve places,
times the coefficient, each rounded down. -/
theorem addShare_raw {acc coeff stake total result : Dec} (hcoeff : 0 ≤ coeff.raw) (hstake : 0 ≤ stake.raw)
    (htotal : 0 ≤ total.raw)
    (h : ((stake.checkedDiv total).bind fun frac => (coeff.checkedMul frac).bind acc.checkedAdd) = some result) :
    result.raw = acc.raw + ((coeff.raw.natAbs * (10 ^ posDecimalPrecision * stake.raw.natAbs /
      total.raw.natAbs) / 10 ^ posDecimalPrecision : ℕ) : ℤ) := by
  obtain ⟨frac, hfrac, h⟩ := Option.bind_eq_some_iff.mp h
  obtain ⟨product, hproduct, hsum⟩ := Option.bind_eq_some_iff.mp h
  have hfracRaw := Dec.truncDiv_raw hstake htotal hfrac
  have hproductRaw := Dec.checkedMul_raw hcoeff (hfracRaw ▸ Int.natCast_nonneg _) hproduct
  rw [Dec.checkedAdd_raw hsum, hproductRaw, hfracRaw, Int.natAbs_natCast]

/-- With coefficients that are not negative, a validator's fraction is
`fractionOf` it. -/
theorem rewardsFraction_raw {inputs : BlockRewardsInputs Address} {coeffs : PosRewards}
    {signers : List Address} {signingStakeUnscaled consensusStakeUnscaled frac : Dec}
    {signingStake totalStake stake : ℕ} {address : Address}
    (hproposer : 0 ≤ coeffs.proposerCoeff.raw) (hsigner : 0 ≤ coeffs.signerCoeff.raw)
    (hactive : 0 ≤ coeffs.activeValCoeff.raw)
    (hsigning : Dec.tryFromAmount signingStake = some signingStakeUnscaled)
    (hconsensus : Dec.tryFromAmount totalStake = some consensusStakeUnscaled)
    (h : rewardsFraction inputs coeffs signers signingStakeUnscaled consensusStakeUnscaled stake address =
      .ok frac) :
    frac.raw = (fractionOf inputs.proposer coeffs signers signingStake totalStake (stake, address) : ℕ) := by
  unfold rewardsFraction at h
  obtain ⟨stakeUnscaled, hstakeUnscaled, h⟩ := bind_eq_ok h
  obtain ⟨proposerFrac, hproposerFrac, h⟩ := bind_eq_ok h
  obtain ⟨signerFrac, hsignerFrac, h⟩ := bind_eq_ok h
  rw [orArith_eq_ok] at hstakeUnscaled h
  have hstakeRaw := Dec.tryFromAmount_raw hstakeUnscaled
  have hsigningRaw := Dec.tryFromAmount_raw hsigning
  have hconsensusRaw := Dec.tryFromAmount_raw hconsensus
  -- the proposer coefficient, or nothing
  have hproposerRaw : proposerFrac.raw =
      ((if address = inputs.proposer then coeffs.proposerCoeff.raw.natAbs else 0 : ℕ) : ℤ) := by
    unfold addProposerReward at hproposerFrac
    split_ifs at hproposerFrac with hsame
    · rw [orArith_eq_ok] at hproposerFrac
      rw [Dec.checkedAdd_raw hproposerFrac, if_pos hsame, Int.natAbs_of_nonneg hproposer]
      exact Int.zero_add _
    · rw [← Except.ok.inj hproposerFrac, if_neg hsame]
      rfl
  -- the signer's share, or nothing
  have hsignerRaw : signerFrac.raw = proposerFrac.raw +
      ((if address ∈ signers then coeffs.signerCoeff.raw.natAbs * (10 ^ posDecimalPrecision * stake /
        signingStake) / 10 ^ posDecimalPrecision else 0 : ℕ) : ℤ) := by
    unfold addSignerReward at hsignerFrac
    split_ifs at hsignerFrac with hmem
    · rw [orArith_eq_ok] at hsignerFrac
      rw [addShare_raw hsigner (hstakeRaw ▸ Int.natCast_nonneg _) (hsigningRaw ▸ Int.natCast_nonneg _)
        hsignerFrac, hstakeRaw, hsigningRaw, Int.natAbs_natCast, Int.natAbs_natCast, scaled_div, if_pos hmem]
    · rw [← Except.ok.inj hsignerFrac, if_neg hmem, Nat.cast_zero, Int.add_zero]
  rw [addShare_raw hactive (hstakeRaw ▸ Int.natCast_nonneg _) (hconsensusRaw ▸ Int.natCast_nonneg _) h,
    hsignerRaw, hproposerRaw, hstakeRaw, hconsensusRaw, Int.natAbs_natCast, Int.natAbs_natCast, scaled_div]
  simp only [fractionOf, Nat.cast_add]

/-- A validator of no stake is skipped; any other gets its fraction. -/
theorem fractionStep_eq_ok {inputs : BlockRewardsInputs Address} {coeffs : PosRewards}
    {signers : List Address} {signingStakeUnscaled consensusStakeUnscaled : Dec}
    {values next : SortedMap Address Dec} {validator : ℕ × Address}
    (h : fractionStep inputs coeffs signers signingStakeUnscaled consensusStakeUnscaled values validator =
      .ok next) :
    (validator.1 = 0 ∧ next = values) ∨
      (validator.1 ≠ 0 ∧ ∃ frac, rewardsFraction inputs coeffs signers signingStakeUnscaled
        consensusStakeUnscaled validator.1 validator.2 = .ok frac ∧ next = values.insert validator.2 frac) := by
  unfold fractionStep at h
  split_ifs at h with hzero
  · exact .inl ⟨hzero, (Except.ok.inj h).symm⟩
  · obtain ⟨frac, hfrac, rfl⟩ := map_eq_ok h
    exact .inr ⟨hzero, frac, hfrac, rfl⟩

/-- Over a consensus set in which no validator repeats, the loop adds the
fraction of each validator with a stake, each at a key of its own, and every
value it adds is not negative. The induction is on the validators, from values
that hold none of their keys. -/
theorem fractions_sum {inputs : BlockRewardsInputs Address} {coeffs : PosRewards}
    {signers : List Address} {signingStakeUnscaled consensusStakeUnscaled : Dec}
    {signingStake totalStake : ℕ} (hproposer : 0 ≤ coeffs.proposerCoeff.raw)
    (hsigner : 0 ≤ coeffs.signerCoeff.raw) (hactive : 0 ≤ coeffs.activeValCoeff.raw)
    (hsigning : Dec.tryFromAmount signingStake = some signingStakeUnscaled)
    (hconsensus : Dec.tryFromAmount totalStake = some consensusStakeUnscaled)
    (validators : List (ℕ × Address)) :
    ∀ {values result : SortedMap Address Dec}, (validators.map Prod.snd).Nodup →
      (∀ validator ∈ validators, values.find? validator.2 = none) →
      (∀ entry ∈ values.entries, 0 ≤ entry.2.raw) →
      validators.foldlM (fractionStep inputs coeffs signers signingStakeUnscaled consensusStakeUnscaled)
        values = .ok result →
      result.sumBy Dec.raw = values.sumBy Dec.raw + (((validators.filter fun validator => validator.1 ≠ 0).map
        (fractionOf inputs.proposer coeffs signers signingStake totalStake)).sum : ℕ) ∧
        ∀ entry ∈ result.entries, 0 ≤ entry.2.raw := by
  induction validators with
  | nil =>
    intro values result _ _ hnonneg h
    cases h
    exact ⟨by simp, hnonneg⟩
  | cons validator rest ih =>
    intro values result hnodup hfresh hnonneg h
    rw [List.map_cons, List.nodup_cons] at hnodup
    rw [List.foldlM_cons] at h
    obtain ⟨next, hstep, hrest⟩ := bind_eq_ok h
    rcases fractionStep_eq_ok hstep with ⟨hzero, rfl⟩ | ⟨hstake, frac, hfrac, rfl⟩
    · -- no stake: nothing is added
      obtain ⟨hsum, hnonnegResult⟩ :=
        ih hnodup.2 (fun other hother => hfresh other (List.mem_cons_of_mem _ hother)) hnonneg hrest
      refine ⟨?_, hnonnegResult⟩
      rw [hsum, List.filter_cons_of_neg (by simp [hzero])]
    · have hfracRaw := rewardsFraction_raw hproposer hsigner hactive hsigning hconsensus hfrac
      -- the later validators' keys are not the new one
      have hfreshRest : ∀ other ∈ rest, (values.insert validator.2 frac).find? other.2 = none := by
        intro other hother
        have hne : other.2 ≠ validator.2 := fun hsame => hnodup.1 (hsame ▸ List.mem_map_of_mem hother)
        rw [SortedMap.find?_insert_of_ne _ _ hne]
        exact hfresh other (List.mem_cons_of_mem _ hother)
      have hnonnegNext : ∀ entry ∈ (values.insert validator.2 frac).entries, 0 ≤ entry.2.raw := by
        intro entry hentry
        rcases SortedMap.mem_entries_insert.mp hentry with rfl | ⟨hold, -⟩
        · rw [hfracRaw]
          exact Int.natCast_nonneg _
        · exact hnonneg entry hold
      obtain ⟨hsum, hnonnegResult⟩ := ih hnodup.2 hfreshRest hnonnegNext hrest
      have hinsert := SortedMap.sumBy_insert_add Dec.raw validator.2 frac values
      rw [hfresh validator List.mem_cons_self, Option.map_none, Option.getD_none, Int.add_zero] at hinsert
      refine ⟨?_, hnonnegResult⟩
      rw [hsum, hinsert, List.filter_cons_of_pos (by simp [hstake]), List.map_cons, List.sum_cons, hfracRaw,
        Nat.cast_add, Int.add_assoc]

/-- The fractions of validators that do not repeat add up to at most the three
coefficients: the proposer coefficient goes to one validator at most, and the
other two are shared by stakes that add up to at most their totals. -/
theorem sum_fractionOf_le (proposer : Address) (coeffs : PosRewards) {signers : List Address} {signingStake totalStake : ℕ} {validators : List (ℕ × Address)}
    (hnodup : (validators.map Prod.snd).Nodup)
    (hsigned : ((validators.filter fun validator => validator.2 ∈ signers).map Prod.fst).sum ≤ signingStake)
    (htotal : (validators.map Prod.fst).sum ≤ totalStake) :
    (validators.map (fractionOf proposer coeffs signers signingStake totalStake)).sum ≤
      coeffs.proposerCoeff.raw.natAbs + coeffs.signerCoeff.raw.natAbs + coeffs.activeValCoeff.raw.natAbs := by
  unfold fractionOf
  rw [List.sum_map_add, List.sum_map_add]
  have hproposer := sum_map_ite_key_le Prod.snd proposer coeffs.proposerCoeff.raw.natAbs hnodup
  -- only the signers share the vote coefficient, by stakes within the signing stake
  have hsigner : (validators.map fun validator => if validator.2 ∈ signers then
      coeffs.signerCoeff.raw.natAbs * (10 ^ posDecimalPrecision * validator.1 / signingStake) /
        10 ^ posDecimalPrecision else 0).sum ≤ coeffs.signerCoeff.raw.natAbs := by
    have hnone : (((validators.filter fun validator => ¬validator.2 ∈ signers).map fun _ => 0).sum) = 0 := by
      simp
    rw [List.sum_map_ite, hnone, Nat.add_zero]
    exact sum_map_mul_div_le _ _ _ _ (sum_map_mul_div_le _ _ Prod.fst _ hsigned)
  have hactive := sum_map_mul_div_le coeffs.activeValCoeff.raw.natAbs (10 ^ posDecimalPrecision)
    (fun validator => 10 ^ posDecimalPrecision * validator.1 / totalStake) validators
    (sum_map_mul_div_le _ _ Prod.fst _ htotal)
  omega

/-- The fractions of a block add up to at most one, and none is negative. -/
theorem rewardsFractions_sum_le {inputs : BlockRewardsInputs Address} (hwell : inputs.WellFormed)
    {values : SortedMap Address Dec} (h : rewardsFractions inputs = .ok values) :
    values.sumBy Dec.raw ≤ Dec.one.raw ∧ ∀ entry ∈ values.entries, 0 ≤ entry.2.raw := by
  unfold rewardsFractions at h
  obtain ⟨totalStake, htotal, h⟩ := bind_eq_ok h
  obtain ⟨⟨signers, signingStake⟩, hsigners, h⟩ := bind_eq_ok h
  obtain ⟨coeffs, hcoeffs, h⟩ := bind_eq_ok h
  obtain ⟨consensusStakeUnscaled, hconsensus, h⟩ := bind_eq_ok h
  obtain ⟨signingStakeUnscaled, hsigning, h⟩ := bind_eq_ok h
  rw [orArith_eq_ok] at hconsensus hsigning
  have htotalEq : totalStake = (inputs.consensusValidators.map Prod.fst).sum := hwell.total_eq_sum htotal
  -- the signers: each in the consensus set under its stake
  obtain ⟨hsignersNodup, hsigningEq, hsignerMem⟩ :=
    signers_spec inputs hwell.votesNodup (fun _ _ => List.not_mem_nil) List.nodup_nil hsigners
  dsimp only at hsignersNodup hsigningEq hsignerMem
  have hsigned : ∀ signer ∈ signers, (inputs.validatorStake signer, signer) ∈ inputs.consensusValidators := by
    intro signer hsigner
    rcases hsignerMem signer hsigner with hnil | ⟨vote, hvote, rfl, hpower, hconsensusState⟩
    · exact absurd hnil List.not_mem_nil
    · exact hwell.voterInConsensusSet vote hvote hpower hconsensusState
  obtain ⟨hsigningLe, hsignedLe⟩ := signerEntries_sums hwell hsignersNodup hsigned
  have hsigningSum : ((signerEntries inputs signers).map Prod.fst).sum = signingStake := by
    rw [hsigningEq]
    simp [signerEntries, Function.comp_def]
  -- the coefficients
  obtain ⟨hproposer, hsignerCoeff, hactive, hcoeffSum⟩ := getRewardCoeffs_spec hcoeffs hwell.proposerReward
    hwell.rewardsRoom (show signingStake ≤ totalStake by omega)
  have hsigner : 0 ≤ coeffs.signerCoeff.raw := by
    rw [hsignerCoeff]
    exact hwell.voteReward
  -- the fractions, of the validators with a stake
  obtain ⟨hsum, hnonneg⟩ := fractions_sum hproposer hsigner hactive hsigning hconsensus
    inputs.consensusValidators hwell.consensusNodup (fun _ _ => SortedMap.find?_empty _)
    (fun _ hentry => absurd hentry List.not_mem_nil) h
  have hstaked : (inputs.consensusValidators.filter fun validator => validator.1 ≠ 0).Sublist
      inputs.consensusValidators := List.filter_sublist
  have hbound := sum_fractionOf_le inputs.proposer coeffs
    (hwell.consensusNodup.sublist (hstaked.map Prod.snd)) (hsignedLe.trans_eq hsigningSum)
    (((hstaked.map Prod.fst).sum_le_sum fun _ _ => Nat.zero_le _).trans_eq htotalEq.symm)
  refine ⟨?_, hnonneg⟩
  rw [hsum, SortedMap.sumBy_empty, Int.zero_add, ← hcoeffSum, ← Int.natAbs_of_nonneg hproposer,
    ← Int.natAbs_of_nonneg hsigner, ← Int.natAbs_of_nonneg hactive]
  exact_mod_cast hbound

/-- A block that breaks `voterInConsensusSet`: its one validator is kept under
100 in the consensus set, but its stake from the deltas is 70. -/
def skewedVoterBlock : BlockRewardsInputs ℕ :=
  ⟨⟨⟨125000000000⟩, ⟨100000000000⟩⟩, [(100, 0)], some 100, fun validator => validator == 0, fun _ => 70, 0,
    [(0, 1)]⟩

-- the signer's share is taken of a signing stake of 70: the fraction passes one
example : (rewardsFractions skewedVoterBlock).toOption.map (fun values => values.sumBy Dec.raw) =
    some 1042857142857 := by
  decide

/-! ## The accumulators over an epoch -/

/-- One update of an accumulator adds the fraction to the sum of the
accumulators and keeps them not negative. -/
theorem accumulate_spec {accumulator next : SortedMap Address Dec} {entry : Address × Dec}
    (hnonneg : ∀ other ∈ accumulator.entries, 0 ≤ other.2.raw) (hentry : 0 ≤ entry.2.raw)
    (h : accumulate accumulator entry = .ok next) :
    next.sumBy Dec.raw = accumulator.sumBy Dec.raw + entry.2.raw ∧
      ∀ other ∈ next.entries, 0 ≤ other.2.raw := by
  unfold accumulate at h
  obtain ⟨sum, hsum, rfl⟩ := map_eq_ok h
  rw [orArith_eq_ok] at hsum
  have hsumRaw := Dec.checkedAdd_raw hsum
  -- the accumulator so far, or zero
  have hprev : ((accumulator.find? entry.1).map Dec.raw).getD 0 =
      ((accumulator.find? entry.1).getD Dec.zero).raw := by
    cases accumulator.find? entry.1 <;> rfl
  have hprevNonneg : 0 ≤ ((accumulator.find? entry.1).getD Dec.zero).raw := by
    cases hfind : accumulator.find? entry.1 with
    | none => exact Int.le_refl 0
    | some prev => exact hnonneg _ (SortedMap.find?_eq_some_iff.mp hfind)
  have hinsert := SortedMap.sumBy_insert_add Dec.raw entry.1 sum accumulator
  rw [hprev, hsumRaw] at hinsert
  refine ⟨by omega, fun other hother => ?_⟩
  rcases SortedMap.mem_entries_insert.mp hother with rfl | ⟨hold, -⟩
  · rw [hsumRaw]
    omega
  · exact hnonneg other hold

/-- Updating the accumulators with fractions that are not negative adds them
all to the sum. -/
theorem accumulates_sum :
    ∀ {entries : List (Address × Dec)} {accumulator result : SortedMap Address Dec},
      (∀ entry ∈ entries, 0 ≤ entry.2.raw) → (∀ entry ∈ accumulator.entries, 0 ≤ entry.2.raw) →
      entries.foldlM accumulate accumulator = .ok result →
      result.sumBy Dec.raw = accumulator.sumBy Dec.raw + (entries.map fun entry => entry.2.raw).sum ∧
        ∀ entry ∈ result.entries, 0 ≤ entry.2.raw
  | [], _, _, _, hnonneg, h => by
    cases h
    exact ⟨by simp, hnonneg⟩
  | entry :: rest, accumulator, result, hentries, hnonneg, h => by
    rw [List.foldlM_cons] at h
    obtain ⟨next, hstep, hrest⟩ := bind_eq_ok h
    obtain ⟨hnext, hnonnegNext⟩ := accumulate_spec hnonneg (hentries entry List.mem_cons_self) hstep
    obtain ⟨hsum, hnonnegResult⟩ :=
      accumulates_sum (fun other hother => hentries other (List.mem_cons_of_mem _ hother)) hnonnegNext hrest
    refine ⟨?_, hnonnegResult⟩
    rw [hsum, hnext, List.map_cons, List.sum_cons, Int.add_assoc]

/-- Logging a block adds at most one to the sum of the accumulators, and keeps
them not negative. -/
theorem logBlockRewardsAux_spec {accumulator next : SortedMap Address Dec}
    {inputs : BlockRewardsInputs Address} (hwell : inputs.WellFormed)
    (hnonneg : ∀ entry ∈ accumulator.entries, 0 ≤ entry.2.raw)
    (h : logBlockRewardsAux accumulator inputs = .ok next) :
    next.sumBy Dec.raw ≤ accumulator.sumBy Dec.raw + Dec.one.raw ∧ ∀ entry ∈ next.entries, 0 ≤ entry.2.raw := by
  unfold logBlockRewardsAux at h
  obtain ⟨values, hvalues, h⟩ := bind_eq_ok h
  obtain ⟨hvaluesSum, hvaluesNonneg⟩ := rewardsFractions_sum_le hwell hvalues
  obtain ⟨hsum, hnonnegNext⟩ := accumulates_sum hvaluesNonneg hnonneg h
  -- the values add up as their entries do
  have hentries : (values.entries.map fun entry => entry.2.raw).sum = values.sumBy Dec.raw := rfl
  exact ⟨by omega, hnonnegNext⟩

/-- Over the blocks of an epoch, the accumulators stay not negative and their
sum grows by at most one a block. The induction is on the blocks. -/
theorem logBlocks_accumulated :
    ∀ {blocks : List (BlockRewardsInputs Address)} {accumulator result : SortedMap Address Dec},
      (∀ block ∈ blocks, block.WellFormed) → (∀ entry ∈ accumulator.entries, 0 ≤ entry.2.raw) →
      blocks.foldlM logBlockRewardsAux accumulator = .ok result →
      result.sumBy Dec.raw ≤ accumulator.sumBy Dec.raw + blocks.length * Dec.one.raw ∧
        ∀ entry ∈ result.entries, 0 ≤ entry.2.raw
  | [], _, _, _, hnonneg, h => by
    cases h
    exact ⟨by simp, hnonneg⟩
  | block :: rest, accumulator, result, hwell, hnonneg, h => by
    rw [List.foldlM_cons] at h
    obtain ⟨next, hstep, hrest⟩ := bind_eq_ok h
    obtain ⟨hnext, hnonnegNext⟩ := logBlockRewardsAux_spec (hwell block List.mem_cons_self) hnonneg hstep
    obtain ⟨hsum, hnonnegResult⟩ :=
      logBlocks_accumulated (fun other hother => hwell other (List.mem_cons_of_mem _ hother)) hnonnegNext hrest
    refine ⟨?_, hnonnegResult⟩
    rw [List.length_cons, Nat.cast_add, Nat.cast_one, Int.add_mul, Int.one_mul]
    omega

/-! ## Minting the inflation -/

/-- `Rewards`: a validator's rewards product and commissions. -/
structure Rewards where
  product : Dec
  commissions : ℕ

/-- What `update_rewards_products_and_mint_inflation` reads. -/
structure InflationInputs (Address : Type) where
  numBlocksInLastEpoch : ℕ
  inflation : ℕ
  /-- `read_validator_stake` at the last epoch. -/
  validatorStake : Address → ℕ
  /-- The validators' commission rates at the last epoch. -/
  commissionRate : Address → Dec

/-- The loop body of `update_rewards_products_and_mint_inflation` before the
subtraction from what is left: the validator's reward tokens, and its rewards
product and commissions. -/
def rewardClaim (inputs : InflationInputs Address) (validator : Address) (value : Dec) :
    Option (ℕ × Rewards) := do
  let fractionalClaim ← value.checkedDiv (Dec.ofNat inputs.numBlocksInLastEpoch)
  let rewardTokens ← mulFloor inputs.inflation fractionalClaim
  let stake ← Dec.tryFromAmount (inputs.validatorStake validator)
  let commissionRate := inputs.commissionRate validator
  let rewardTokensDec ← Dec.tryFromAmount rewardTokens
  let product ← ((Dec.one.checkedSub commissionRate).bind fun share => share.checkedMul rewardTokensDec).bind
    fun tokens => tokens.checkedDiv stake
  let commissions ← mulFloor rewardTokens commissionRate
  pure (rewardTokens, ⟨product, commissions⟩)

/-- The state of the loop over the accumulators. -/
structure MintState (Address : Type) [LinearOrder Address] where
  rewardTokensRemaining : ℕ
  newRewardsProducts : SortedMap Address Rewards
  accumulatorsSum : Dec

/-- One validator of the loop over the accumulators. -/
def mintStep (inputs : InflationInputs Address) (state : MintState Address) (entry : Address × Dec) :
    Except (RewardsError Address) (MintState Address) := do
  let accumulatorsSum ← orArith (state.accumulatorsSum.checkedAdd entry.2)
  let (rewardTokens, rewards) ← orArith (rewardClaim inputs entry.1 entry.2)
  if rewardTokens ≤ state.rewardTokensRemaining then
    pure ⟨state.rewardTokensRemaining - rewardTokens, state.newRewardsProducts.insert entry.1 rewards,
      accumulatorsSum⟩
  else throw .arith

/-- What `update_rewards_products_and_mint_inflation` writes and mints. -/
structure InflationMint (Address : Type) [LinearOrder Address] where
  rewardsProducts : SortedMap Address Rewards
  posRewardTokens : ℕ
  pgfRewardTokens : ℕ

/-- `update_rewards_products_and_mint_inflation`: what is left of the inflation
goes to PGF, credited when it is not zero. -/
def updateRewardsProductsAndMintInflation (inputs : InflationInputs Address)
    (accumulator : SortedMap Address Dec) : Except (RewardsError Address) (InflationMint Address) := do
  let state ← accumulator.entries.foldlM (mintStep inputs) ⟨inputs.inflation, SortedMap.empty, Dec.zero⟩
  if state.rewardTokensRemaining ≤ inputs.inflation then
    pure ⟨state.newRewardsProducts, inputs.inflation - state.rewardTokensRemaining,
      state.rewardTokensRemaining⟩
  else throw .arith


omit [LinearOrder Address] in
/-- A validator's reward tokens: its accumulator over the number of blocks, to
twelve places, times the inflation, each rounded down. -/
theorem rewardClaim_tokens {inputs : InflationInputs Address} {validator : Address} {value : Dec}
    {rewardTokens : ℕ} {rewards : Rewards} (hvalue : 0 ≤ value.raw)
    (h : rewardClaim inputs validator value = some (rewardTokens, rewards)) :
    rewardTokens = inputs.inflation * (value.raw.natAbs / inputs.numBlocksInLastEpoch) /
      10 ^ posDecimalPrecision := by
  unfold rewardClaim at h
  obtain ⟨fractionalClaim, hclaim, h⟩ := Option.bind_eq_some_iff.mp h
  obtain ⟨tokens, htokens, h⟩ := Option.bind_eq_some_iff.mp h
  -- the rest of the body only reads the tokens
  obtain ⟨_, _, h⟩ := Option.bind_eq_some_iff.mp h
  obtain ⟨_, _, h⟩ := Option.bind_eq_some_iff.mp h
  obtain ⟨_, _, h⟩ := Option.bind_eq_some_iff.mp h
  obtain ⟨_, _, h⟩ := Option.bind_eq_some_iff.mp h
  cases h
  have hblocks : (Dec.ofNat inputs.numBlocksInLastEpoch).raw =
      ((inputs.numBlocksInLastEpoch * 10 ^ posDecimalPrecision : ℕ) : ℤ) := rfl
  have hclaimRaw := Dec.truncDiv_raw hvalue (hblocks ▸ Int.natCast_nonneg _) hclaim
  rw [hblocks, Int.natAbs_natCast, Nat.mul_comm inputs.numBlocksInLastEpoch,
    Nat.mul_div_mul_left _ _ (Nat.pow_pos (by decide))] at hclaimRaw
  rw [mulFloor_eq_some htokens, hclaimRaw, Int.natAbs_natCast]

/-- A step of the loop whose claim succeeds, whose accumulator sum fits and whose
tokens are within what is left. -/
theorem mintStep_of_claim {inputs : InflationInputs Address} {state : MintState Address}
    {entry : Address × Dec} {rewardTokens : ℕ} {rewards : Rewards}
    (hclaim : rewardClaim inputs entry.1 entry.2 = some (rewardTokens, rewards))
    (hfit : (state.accumulatorsSum.raw + entry.2.raw).natAbs ≤ maxSignedValue)
    (hle : rewardTokens ≤ state.rewardTokensRemaining) :
    mintStep inputs state entry = .ok ⟨state.rewardTokensRemaining - rewardTokens,
      state.newRewardsProducts.insert entry.1 rewards, ⟨state.accumulatorsSum.raw + entry.2.raw⟩⟩ := by
  unfold mintStep
  rw [Dec.checkedAdd_of_le hfit, hclaim]
  simp only [orArith, ok_bind, if_pos hle]
  rfl

/-- The loop over the accumulators succeeds when every claim does, the
accumulators fit, and their reward tokens are within what is left; what is left
then only goes down. The induction is on the accumulators. -/
theorem mints_ok {inputs : InflationInputs Address} :
    ∀ {entries : List (Address × Dec)} (state : MintState Address),
      (∀ entry ∈ entries, (rewardClaim inputs entry.1 entry.2).isSome) →
      (∀ entry ∈ entries, 0 ≤ entry.2.raw) → 0 ≤ state.accumulatorsSum.raw →
      state.accumulatorsSum.raw + (entries.map fun entry => entry.2.raw).sum ≤ maxSignedValue →
      (entries.map fun entry => inputs.inflation * (entry.2.raw.natAbs / inputs.numBlocksInLastEpoch) /
        10 ^ posDecimalPrecision).sum ≤ state.rewardTokensRemaining →
      ∃ final, entries.foldlM (mintStep inputs) state = .ok final ∧
        final.rewardTokensRemaining ≤ state.rewardTokensRemaining
  | [], state, _, _, _, _, _ => ⟨state, rfl, le_refl _⟩
  | entry :: rest, state, hclaims, hnonneg, hsumNonneg, hfit, hshares => by
    obtain ⟨⟨rewardTokens, rewards⟩, hclaim⟩ := Option.isSome_iff_exists.mp (hclaims entry List.mem_cons_self)
    have hentry := hnonneg entry List.mem_cons_self
    have htokens := rewardClaim_tokens hentry hclaim
    rw [List.map_cons, List.sum_cons] at hfit hshares
    -- the sum of the accumulators so far, with this one, is within the sum of all
    have hrestNonneg : 0 ≤ (rest.map fun entry => entry.2.raw).sum :=
      List.sum_nonneg fun share hshare => by
        obtain ⟨other, hother, rfl⟩ := List.mem_map.mp hshare
        exact hnonneg other (List.mem_cons_of_mem _ hother)
    have hstepFit : (state.accumulatorsSum.raw + entry.2.raw).natAbs ≤ maxSignedValue := by
      omega
    rw [List.foldlM_cons, mintStep_of_claim hclaim hstepFit (by omega), ok_bind]
    obtain ⟨final, hfinal, hle⟩ := mints_ok ⟨state.rewardTokensRemaining - rewardTokens,
        state.newRewardsProducts.insert entry.1 rewards, ⟨state.accumulatorsSum.raw + entry.2.raw⟩⟩
      (fun other hother => hclaims other (List.mem_cons_of_mem _ hother))
      (fun other hother => hnonneg other (List.mem_cons_of_mem _ hother)) (by dsimp only; omega)
      (by dsimp only; omega) (by dsimp only; omega)
    exact ⟨final, hfinal, le_trans hle (Nat.sub_le _ _)⟩

/-- What the PoS and PGF accounts are credited adds up to the inflation, and the
update succeeds when every claim does: with accumulators that are not negative
and add up to at most the number of blocks, no subtraction from what is left
underflows. -/
theorem updateRewardsProductsAndMintInflation_spec (inputs : InflationInputs Address)
    (accumulator : SortedMap Address Dec) (hblocks : inputs.numBlocksInLastEpoch < 2 ^ 64)
    (hnonneg : ∀ entry ∈ accumulator.entries, 0 ≤ entry.2.raw)
    (hsum : accumulator.sumBy Dec.raw ≤ inputs.numBlocksInLastEpoch * Dec.one.raw) :
    (∀ mint, updateRewardsProductsAndMintInflation inputs accumulator = .ok mint →
        mint.posRewardTokens + mint.pgfRewardTokens = inputs.inflation) ∧
      ((∀ entry ∈ accumulator.entries, (rewardClaim inputs entry.1 entry.2).isSome) →
        ∃ mint, updateRewardsProductsAndMintInflation inputs accumulator = .ok mint) := by
  constructor
  · intro mint h
    unfold updateRewardsProductsAndMintInflation at h
    obtain ⟨state, -, h⟩ := bind_eq_ok h
    split_ifs at h with hle
    cases h
    exact Nat.sub_add_cancel hle
  · intro hclaims
    -- the accumulators as natural numbers, and what they add up to
    have hcast := sum_map_natAbs_of_nonneg (fun entry : Address × Dec => entry.2.raw) hnonneg
    have hsumEq : accumulator.sumBy Dec.raw = (accumulator.entries.map fun entry => entry.2.raw).sum := rfl
    have hone : Dec.one.raw = ((10 ^ posDecimalPrecision : ℕ) : ℤ) := rfl
    have hnat : (accumulator.entries.map fun entry => entry.2.raw.natAbs).sum ≤
        inputs.numBlocksInLastEpoch * 10 ^ posDecimalPrecision := by
      have := hsum
      rw [hsumEq, ← hcast, hone] at this
      exact_mod_cast this
    -- each claim is a share of the inflation, of fractions that add up to at most one
    have hparts : (accumulator.entries.map fun entry => entry.2.raw.natAbs / inputs.numBlocksInLastEpoch).sum ≤
        10 ^ posDecimalPrecision :=
      calc _ ≤ (accumulator.entries.map fun entry => entry.2.raw.natAbs).sum / inputs.numBlocksInLastEpoch :=
            sum_map_div_le _ _ _
        _ ≤ inputs.numBlocksInLastEpoch * 10 ^ posDecimalPrecision / inputs.numBlocksInLastEpoch :=
            Nat.div_le_div_right hnat
        _ ≤ 10 ^ posDecimalPrecision := Nat.div_le_of_le_mul (le_refl _)
    have hshares := sum_map_mul_div_le inputs.inflation (10 ^ posDecimalPrecision)
      (fun entry : Address × Dec => entry.2.raw.natAbs / inputs.numBlocksInLastEpoch) accumulator.entries hparts
    -- the accumulators' sum fits in an `I256`
    have hbound : inputs.numBlocksInLastEpoch * 10 ^ posDecimalPrecision ≤ maxSignedValue := by
      unfold posDecimalPrecision maxSignedValue
      omega
    have hfit : (accumulator.entries.map fun entry => entry.2.raw).sum ≤ maxSignedValue :=
      calc _ = accumulator.sumBy Dec.raw := hsumEq.symm
        _ ≤ inputs.numBlocksInLastEpoch * Dec.one.raw := hsum
        _ = ((inputs.numBlocksInLastEpoch * 10 ^ posDecimalPrecision : ℕ) : ℤ) := by
          rw [hone, Int.natCast_mul]
        _ ≤ maxSignedValue := Int.ofNat_le.mpr hbound
    obtain ⟨state, hstate, hle⟩ := mints_ok ⟨inputs.inflation, SortedMap.empty, Dec.zero⟩ hclaims hnonneg
      (Int.le_refl 0) (by dsimp only [Dec.zero]; omega) hshares
    dsimp only at hle
    refine ⟨⟨state.newRewardsProducts, inputs.inflation - state.rewardTokensRemaining,
      state.rewardTokensRemaining⟩, ?_⟩
    unfold updateRewardsProductsAndMintInflation
    rw [hstate, ok_bind, if_pos hle]
    rfl

/-! ## Rewards never mint more than the inflation -/

/-- Over the blocks of an epoch, each well formed and logged, the fractions of
each block add up to at most one. Then `update_rewards_products_and_mint_inflation`
with the number of blocks credits PoS and PGF exactly the inflation, and fails
only where a validator's claim does, never at the subtraction from what is left. -/
theorem logBlocks_never_overmints (blocks : List (BlockRewardsInputs Address))
    (hwell : ∀ block ∈ blocks, block.WellFormed) (hu64 : blocks.length < 2 ^ 64)
    (accumulator : SortedMap Address Dec) (hrun : logBlocks blocks = .ok accumulator)
    (inputs : InflationInputs Address) (hnum : inputs.numBlocksInLastEpoch = blocks.length) :
    (∀ block ∈ blocks, ∀ values, rewardsFractions block = .ok values → values.sumBy Dec.raw ≤ Dec.one.raw) ∧
      (∀ mint, updateRewardsProductsAndMintInflation inputs accumulator = .ok mint →
        mint.posRewardTokens + mint.pgfRewardTokens = inputs.inflation) ∧
      ((∀ entry ∈ accumulator.entries, (rewardClaim inputs entry.1 entry.2).isSome) →
        ∃ mint, updateRewardsProductsAndMintInflation inputs accumulator = .ok mint) := by
  obtain ⟨hsum, hnonneg⟩ := logBlocks_accumulated hwell (fun _ hentry => absurd hentry List.not_mem_nil) hrun
  rw [SortedMap.sumBy_empty, Int.zero_add, ← hnum] at hsum
  obtain ⟨hmint, hok⟩ :=
    updateRewardsProductsAndMintInflation_spec inputs accumulator (hnum ▸ hu64) hnonneg hsum
  exact ⟨fun block hblock _ hvalues => (rewardsFractions_sum_le (hwell block hblock) hvalues).1, hmint, hok⟩

/-- A block of one validator of stake 100, which proposes it and signs it, with
a proposer reward of 0.125 and a vote reward of 0.1. -/
def soleValidatorBlock : BlockRewardsInputs ℕ :=
  ⟨⟨⟨125000000000⟩, ⟨100000000000⟩⟩, [(100, 0)], some 100, fun validator => validator == 0, fun _ => 100, 0,
    [(0, 1)]⟩

/-- The validator's accumulator after the block: all of it. -/
def soleValidatorAccumulator : SortedMap ℕ Dec := ⟨[(0, ⟨1000000000000⟩)], List.pairwise_singleton _ _⟩

/-- An epoch of that block, an inflation of one token, and a commission of 5%. -/
def soleValidatorInflation : InflationInputs ℕ := ⟨1, 1000000, fun _ => 100, fun _ => ⟨50000000000⟩⟩

example :
    soleValidatorBlock.WellFormed ∧ logBlocks [soleValidatorBlock] = .ok soleValidatorAccumulator ∧
      ∃ mint, updateRewardsProductsAndMintInflation soleValidatorInflation soleValidatorAccumulator = .ok mint ∧
        mint.posRewardTokens + mint.pgfRewardTokens = 1000000 := by
  have hwell : soleValidatorBlock.WellFormed :=
    ⟨by decide, by decide, by decide, by decide, by decide, by decide, 100, rfl, rfl⟩
  have hrun : logBlocks [soleValidatorBlock] = .ok soleValidatorAccumulator := rfl
  obtain ⟨-, hmint, hok⟩ := logBlocks_never_overmints [soleValidatorBlock]
    (fun block hblock => List.mem_singleton.mp hblock ▸ hwell) (by decide) soleValidatorAccumulator hrun
    soleValidatorInflation rfl
  obtain ⟨mint, hmintEq⟩ := hok (by decide)
  exact ⟨hwell, hrun, mint, hmintEq, hmint mint hmintEq⟩

end Namada.ProofOfStake
