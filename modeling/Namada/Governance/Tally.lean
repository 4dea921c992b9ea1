/-
# Tallying a proposal

`TallyResult::new` decides a proposal from its yay, nay and abstain voting
power and the total voting power, by one of three rules: two thirds of the
total voted and two thirds of the non-abstaining power said yay; a third voted
and yay beat nay; or less than a third voted or yay beat nay.
`ProposalResult::two_thirds_nay_over_two_thirds_total` is the first rule for
nay, with any arithmetic failure read as `false`.

The thirds are `Amount::mul_ceil` by `Dec::two_thirds()` and
`Dec::one_third()`, truncated to twelve places (`Namada.Core.Dec`). So each rule
holds with `2/3` replaced by `666666666666 / 10^12` and `1/3` by
`333333333333 / 10^12`: a threshold below the fraction by up to
`total / (1.5 * 10^12)`, and an error once the product with the total leaves
256 bits.
-/

import Namada.Core.Dec

namespace Namada.Governance

open Namada.Core Namada.Math

/-- `VotePower`. -/
abbrev VotePower := Amount

/-- `TallyType`. -/
inductive TallyType
  | twoThirds
  | oneHalfOverOneThird
  | lessOneHalfOverOneThirdNay
  deriving DecidableEq, Repr

/-- `TallyResult`. -/
inductive TallyResult
  | passed
  | rejected
  deriving DecidableEq, Repr

namespace TallyResult

/-- `TallyResult::get_total_voted_power`. -/
def getTotalVotedPower (yay nay abstain : VotePower) : Option VotePower := do
  let yayNay ← yay.checkedAdd nay
  yayNay.checkedAdd abstain

/-- `TallyResult::new`; `none` is its `arith::Error`. -/
def new (tallyType : TallyType) (yay nay abstain total : VotePower) : Option TallyResult := do
  let passed ← match tallyType with
    | .twoThirds => do
        let voted ← getTotalVotedPower yay nay abstain
        let threshold ← total.mulCeil Dec.twoThirds
        let yayNay ← nay.checkedAdd yay
        let yayThreshold ← yayNay.mulCeil Dec.twoThirds
        pure (decide (threshold ≤ voted) && decide (yayThreshold ≤ yay))
    | .oneHalfOverOneThird => do
        let voted ← getTotalVotedPower yay nay abstain
        let threshold ← total.mulCeil Dec.oneThird
        pure (decide (threshold ≤ voted) && decide (nay < yay))
    | .lessOneHalfOverOneThirdNay => do
        let voted ← getTotalVotedPower yay nay abstain
        let threshold ← total.mulCeil Dec.oneThird
        pure (decide (voted < threshold) || decide (nay < yay))
  pure (if passed then .passed else .rejected)

end TallyResult

/-- `ProposalResult`: the outcome of a tally and the powers it was made from. -/
structure ProposalResult where
  result : TallyResult
  tallyType : TallyType
  totalVotingPower : VotePower
  totalYayPower : VotePower
  totalNayPower : VotePower
  totalAbstainPower : VotePower

/-- `ProposalResult::two_thirds_nay_over_two_thirds_total`: an arithmetic
failure is `false` (`unwrap_or_default`). -/
def ProposalResult.twoThirdsNayOverTwoThirdsTotal (proposal : ProposalResult) : Bool :=
  (do
    let twoThirdsPower ← proposal.totalVotingPower.mulCeil Dec.twoThirds
    let yayNay ← proposal.totalYayPower.checkedAdd proposal.totalNayPower
    let voted ← yayNay.checkedAdd proposal.totalAbstainPower
    let atLeastTwoThirdVoted := decide (twoThirdsPower ≤ voted)
    let yayNayAgain ← proposal.totalYayPower.checkedAdd proposal.totalNayPower
    let nayThreshold ← yayNayAgain.mulCeil Dec.twoThirds
    pure (atLeastTwoThirdVoted && decide (nayThreshold ≤ proposal.totalNayPower))).getD false

/-! ## The thresholds -/

section Thresholds

variable {yay nay abstain total : VotePower}

/-- A checked sum of amounts that fits. -/
theorem checkedAdd_of_fits (first second : Amount)
    (hfit : first.raw.toNat + second.raw.toNat < 2 ^ 256) :
    ∃ sum, first.checkedAdd second = some sum ∧
      sum.raw.toNat = first.raw.toNat + second.raw.toNat :=
  ⟨_, Amount.checkedAdd_of_lt hfit, Amount.toNat_add_of_lt hfit⟩

/-- The voted power, when it fits, is the sum of the three. -/
theorem getTotalVotedPower_of_lt
    (hvoted : yay.raw.toNat + nay.raw.toNat + abstain.raw.toNat < 2 ^ 256) :
    ∃ voted, TallyResult.getTotalVotedPower yay nay abstain = some voted ∧
      voted.raw.toNat = yay.raw.toNat + nay.raw.toNat + abstain.raw.toNat := by
  obtain ⟨yayNay, hyayNay, hyayNayNat⟩ := checkedAdd_of_fits yay nay (by omega)
  obtain ⟨voted, hvotedEq, hvotedNat⟩ :=
    checkedAdd_of_fits yayNay abstain (by omega)
  refine ⟨voted, ?_, by omega⟩
  rw [TallyResult.getTotalVotedPower, hyayNay, Option.bind_eq_bind, Option.bind_some, hvotedEq]

/-- The voted power fails to sum when the three do not fit. -/
theorem getTotalVotedPower_of_not_lt
    (hvoted : ¬yay.raw.toNat + nay.raw.toNat + abstain.raw.toNat < 2 ^ 256) :
    TallyResult.getTotalVotedPower yay nay abstain = none := by
  rw [TallyResult.getTotalVotedPower]
  cases hyayNay : yay.checkedAdd nay with
  | none => rfl
  | some yayNay =>
      have hsum : ¬yayNay.raw.toNat + abstain.raw.toNat < 2 ^ 256 := by
        rw [Amount.toNat_of_checkedAdd hyayNay]
        exact hvoted
      rw [Option.bind_eq_bind, Option.bind_some, Amount.checkedAdd_of_not_lt hsum]

/-! ### The three rules, one step at a time -/

section Steps

variable {voted threshold yayNay yayThreshold : VotePower}

/-- Every rule fails when the voted power does not sum. -/
theorem new_of_getTotalVotedPower_none (tallyType : TallyType)
    (hvoted : TallyResult.getTotalVotedPower yay nay abstain = none) :
    TallyResult.new tallyType yay nay abstain total = none := by
  -- the voted power is the first step of every rule
  cases tallyType <;>
  · rw [TallyResult.new]
    dsimp only
    rw [hvoted, Option.bind_eq_bind, Option.bind_none]

/-- `TallyType::TwoThirds` once every sum and product has succeeded. -/
theorem new_twoThirds_of (hvoted : TallyResult.getTotalVotedPower yay nay abstain = some voted)
    (hthreshold : total.mulCeil Dec.twoThirds = some threshold)
    (hyayNay : nay.checkedAdd yay = some yayNay)
    (hyayThreshold : yayNay.mulCeil Dec.twoThirds = some yayThreshold) :
    TallyResult.new .twoThirds yay nay abstain total =
      some (if decide (threshold ≤ voted) && decide (yayThreshold ≤ yay) then .passed
        else .rejected) := by
  -- rewriting step by step keeps the kernel from unfolding `mul_ceil`
  rw [TallyResult.new]
  dsimp only
  rw [hvoted, Option.bind_eq_bind, Option.bind_some, hthreshold, Option.bind_some, hyayNay,
    Option.bind_some, hyayThreshold, Option.bind_some]
  rfl

/-- `TallyType::TwoThirds` fails when two thirds of the total do not fit. -/
theorem new_twoThirds_of_threshold_none
    (hvoted : TallyResult.getTotalVotedPower yay nay abstain = some voted)
    (hthreshold : total.mulCeil Dec.twoThirds = none) :
    TallyResult.new .twoThirds yay nay abstain total = none := by
  rw [TallyResult.new]
  dsimp only
  rw [hvoted, Option.bind_eq_bind, Option.bind_some, hthreshold, Option.bind_none]

/-- `TallyType::TwoThirds` fails when two thirds of the non-abstaining power do
not fit. -/
theorem new_twoThirds_of_yayThreshold_none
    (hvoted : TallyResult.getTotalVotedPower yay nay abstain = some voted)
    (hthreshold : total.mulCeil Dec.twoThirds = some threshold)
    (hyayNay : nay.checkedAdd yay = some yayNay)
    (hyayThreshold : yayNay.mulCeil Dec.twoThirds = none) :
    TallyResult.new .twoThirds yay nay abstain total = none := by
  rw [TallyResult.new]
  dsimp only
  rw [hvoted, Option.bind_eq_bind, Option.bind_some, hthreshold, Option.bind_some, hyayNay,
    Option.bind_some, hyayThreshold, Option.bind_none]

/-- `TallyType::OneHalfOverOneThird` once the sum and the product have succeeded. -/
theorem new_oneHalfOverOneThird_of
    (hvoted : TallyResult.getTotalVotedPower yay nay abstain = some voted)
    (hthreshold : total.mulCeil Dec.oneThird = some threshold) :
    TallyResult.new .oneHalfOverOneThird yay nay abstain total =
      some (if decide (threshold ≤ voted) && decide (nay < yay) then .passed else .rejected) := by
  rw [TallyResult.new]
  dsimp only
  rw [hvoted, Option.bind_eq_bind, Option.bind_some, hthreshold, Option.bind_some]
  rfl

/-- `TallyType::LessOneHalfOverOneThirdNay` once the sum and the product have
succeeded. -/
theorem new_lessOneHalfOverOneThirdNay_of
    (hvoted : TallyResult.getTotalVotedPower yay nay abstain = some voted)
    (hthreshold : total.mulCeil Dec.oneThird = some threshold) :
    TallyResult.new .lessOneHalfOverOneThirdNay yay nay abstain total =
      some (if decide (voted < threshold) || decide (nay < yay) then .passed else .rejected) := by
  rw [TallyResult.new]
  dsimp only
  rw [hvoted, Option.bind_eq_bind, Option.bind_some, hthreshold, Option.bind_some]
  rfl

/-- The rules by a third fail when a third of the total does not fit. -/
theorem new_oneThird_of_threshold_none
    (hvoted : TallyResult.getTotalVotedPower yay nay abstain = some voted)
    (hthreshold : total.mulCeil Dec.oneThird = none) :
    TallyResult.new .oneHalfOverOneThird yay nay abstain total = none ∧
      TallyResult.new .lessOneHalfOverOneThirdNay yay nay abstain total = none := by
  constructor
  · rw [TallyResult.new]
    dsimp only
    rw [hvoted, Option.bind_eq_bind, Option.bind_some, hthreshold, Option.bind_none]
  · rw [TallyResult.new]
    dsimp only
    rw [hvoted, Option.bind_eq_bind, Option.bind_some, hthreshold, Option.bind_none]

/-- `two_thirds_nay_over_two_thirds_total` once every sum and product has
succeeded. -/
theorem twoThirdsNayOverTwoThirdsTotal_of {proposal : ProposalResult} {nayThreshold : VotePower}
    (hthreshold : proposal.totalVotingPower.mulCeil Dec.twoThirds = some threshold)
    (hyayNay : proposal.totalYayPower.checkedAdd proposal.totalNayPower = some yayNay)
    (hvoted : yayNay.checkedAdd proposal.totalAbstainPower = some voted)
    (hnayThreshold : yayNay.mulCeil Dec.twoThirds = some nayThreshold) :
    proposal.twoThirdsNayOverTwoThirdsTotal =
      (decide (threshold ≤ voted) && decide (nayThreshold ≤ proposal.totalNayPower)) := by
  rw [ProposalResult.twoThirdsNayOverTwoThirdsTotal, hthreshold, Option.bind_eq_bind,
    Option.bind_some, hyayNay, Option.bind_some, hvoted, Option.bind_some, Option.bind_some,
    hnayThreshold, Option.bind_some]
  rfl

/-- `two_thirds_nay_over_two_thirds_total` is `false` when a product does not fit. -/
theorem twoThirdsNayOverTwoThirdsTotal_of_none {proposal : ProposalResult}
    (hyayNay : proposal.totalYayPower.checkedAdd proposal.totalNayPower = some yayNay)
    (hvoted : yayNay.checkedAdd proposal.totalAbstainPower = some voted)
    (hnone : proposal.totalVotingPower.mulCeil Dec.twoThirds = none ∨
      yayNay.mulCeil Dec.twoThirds = none) :
    proposal.twoThirdsNayOverTwoThirdsTotal = false := by
  rcases hnone with hthreshold | hnayThreshold
  · rw [ProposalResult.twoThirdsNayOverTwoThirdsTotal, hthreshold, Option.bind_eq_bind,
      Option.bind_none]
    rfl
  · cases hthreshold : proposal.totalVotingPower.mulCeil Dec.twoThirds with
    | none =>
        rw [ProposalResult.twoThirdsNayOverTwoThirdsTotal, hthreshold, Option.bind_eq_bind,
          Option.bind_none]
        rfl
    | some threshold =>
        rw [ProposalResult.twoThirdsNayOverTwoThirdsTotal, hthreshold, Option.bind_eq_bind,
          Option.bind_some, hyayNay, Option.bind_some, hvoted, Option.bind_some, Option.bind_some,
          hnayThreshold, Option.bind_none]
        rfl

/-- A `true` of `two_thirds_nay_over_two_thirds_total` comes from sums and
products that all succeeded. -/
theorem twoThirdsNayOverTwoThirdsTotal_eq_true {proposal : ProposalResult}
    (htrue : proposal.twoThirdsNayOverTwoThirdsTotal = true) :
    ∃ threshold yayNay voted nayThreshold,
      proposal.totalVotingPower.mulCeil Dec.twoThirds = some threshold ∧
      proposal.totalYayPower.checkedAdd proposal.totalNayPower = some yayNay ∧
      yayNay.checkedAdd proposal.totalAbstainPower = some voted ∧
      yayNay.mulCeil Dec.twoThirds = some nayThreshold ∧
      threshold ≤ voted ∧ nayThreshold ≤ proposal.totalNayPower := by
  unfold ProposalResult.twoThirdsNayOverTwoThirdsTotal at htrue
  -- each failed step makes the result the default `false`
  cases hthreshold : proposal.totalVotingPower.mulCeil Dec.twoThirds with
  | none =>
      rw [hthreshold, Option.bind_eq_bind, Option.bind_none] at htrue
      cases htrue
  | some threshold =>
      rw [hthreshold, Option.bind_eq_bind, Option.bind_some] at htrue
      cases hyayNay : proposal.totalYayPower.checkedAdd proposal.totalNayPower with
      | none =>
          rw [hyayNay, Option.bind_none] at htrue
          cases htrue
      | some yayNay =>
          rw [hyayNay, Option.bind_some] at htrue
          cases hvoted : yayNay.checkedAdd proposal.totalAbstainPower with
          | none =>
              rw [hvoted, Option.bind_none] at htrue
              cases htrue
          | some voted =>
              rw [hvoted, Option.bind_some, Option.bind_some] at htrue
              cases hnayThreshold : yayNay.mulCeil Dec.twoThirds with
              | none =>
                  rw [hnayThreshold, Option.bind_none] at htrue
                  cases htrue
              | some nayThreshold =>
                  rw [hnayThreshold, Option.bind_some] at htrue
                  have hboth : (decide (threshold ≤ voted) &&
                      decide (nayThreshold ≤ proposal.totalNayPower)) = true := htrue
                  rw [Bool.and_eq_true, decide_eq_true_eq, decide_eq_true_eq] at hboth
                  exact ⟨threshold, yayNay, voted, nayThreshold, rfl, rfl, hvoted, hnayThreshold, hboth⟩

end Steps

/-! ### The thresholds as inequalities -/

/-- `TallyType::TwoThirds` passes exactly when `666666666666 / 10^12` of the
total voted and of the non-abstaining power said yay; it fails when the voted
power or either product leaves 256 bits. -/
theorem new_twoThirds :
    TallyResult.new .twoThirds yay nay abstain total =
      if yay.raw.toNat + nay.raw.toNat + abstain.raw.toNat < 2 ^ 256 ∧
          total.raw.toNat * 666666666666 < 2 ^ 256 ∧
          (yay.raw.toNat + nay.raw.toNat) * 666666666666 < 2 ^ 256 then
        some (if total.raw.toNat * 666666666666 ≤
              (yay.raw.toNat + nay.raw.toNat + abstain.raw.toNat) * 10 ^ 12 ∧
            (yay.raw.toNat + nay.raw.toNat) * 666666666666 ≤ yay.raw.toNat * 10 ^ 12
          then .passed else .rejected)
      else none := by
  by_cases hvoted : yay.raw.toNat + nay.raw.toNat + abstain.raw.toNat < 2 ^ 256
  swap
  · rw [new_of_getTotalVotedPower_none _ (getTotalVotedPower_of_not_lt hvoted),
      if_neg fun hfits => hvoted hfits.1]
  obtain ⟨voted, hvotedEq, hvotedNat⟩ := getTotalVotedPower_of_lt hvoted
  obtain ⟨yayNay, hyayNayEq, hyayNayNat⟩ := checkedAdd_of_fits nay yay (by omega)
  have hyayNayComm : yayNay.raw.toNat = yay.raw.toNat + nay.raw.toNat := by
    rw [hyayNayNat, Nat.add_comm]
  by_cases htotal : total.raw.toNat * 666666666666 < 2 ^ 256
  swap
  · rw [new_twoThirds_of_threshold_none hvotedEq (Amount.mulCeil_of_not_lt Dec.twoThirds_raw htotal),
      if_neg fun hfits => htotal hfits.2.1]
  obtain ⟨threshold, hthreshold, hreach⟩ :=
    Amount.mulCeil_of_lt Dec.twoThirds_raw Dec.thirds_le_maxSignedValue.2 htotal
  by_cases hyay : (yay.raw.toNat + nay.raw.toNat) * 666666666666 < 2 ^ 256
  swap
  · have hyayNayFits : ¬yayNay.raw.toNat * 666666666666 < 2 ^ 256 := by
      rw [hyayNayComm]
      exact hyay
    rw [new_twoThirds_of_yayThreshold_none hvotedEq hthreshold hyayNayEq
      (Amount.mulCeil_of_not_lt Dec.twoThirds_raw hyayNayFits), if_neg fun hfits => hyay hfits.2.2]
  have hyayNayFits : yayNay.raw.toNat * 666666666666 < 2 ^ 256 := by
    rw [hyayNayComm]
    exact hyay
  obtain ⟨yayThreshold, hyayThreshold, hyayReach⟩ :=
    Amount.mulCeil_of_lt Dec.twoThirds_raw Dec.thirds_le_maxSignedValue.2 hyayNayFits
  rw [new_twoThirds_of hvotedEq hthreshold hyayNayEq hyayThreshold,
    if_pos (And.intro hvoted (And.intro htotal hyay))]
  simp only [Bool.and_eq_true, decide_eq_true_eq, hreach, hyayReach, hvotedNat, hyayNayComm,
    posDecimalPrecision]

/-- `TallyType::OneHalfOverOneThird` passes exactly when `333333333333 / 10^12`
of the total voted and yay beat nay; it fails when the voted power or the
product leaves 256 bits. -/
theorem new_oneHalfOverOneThird :
    TallyResult.new .oneHalfOverOneThird yay nay abstain total =
      if yay.raw.toNat + nay.raw.toNat + abstain.raw.toNat < 2 ^ 256 ∧
          total.raw.toNat * 333333333333 < 2 ^ 256 then
        some (if total.raw.toNat * 333333333333 ≤
              (yay.raw.toNat + nay.raw.toNat + abstain.raw.toNat) * 10 ^ 12 ∧
            nay.raw.toNat < yay.raw.toNat
          then .passed else .rejected)
      else none := by
  by_cases hvoted : yay.raw.toNat + nay.raw.toNat + abstain.raw.toNat < 2 ^ 256
  swap
  · rw [new_of_getTotalVotedPower_none _ (getTotalVotedPower_of_not_lt hvoted),
      if_neg fun hfits => hvoted hfits.1]
  obtain ⟨voted, hvotedEq, hvotedNat⟩ := getTotalVotedPower_of_lt hvoted
  by_cases htotal : total.raw.toNat * 333333333333 < 2 ^ 256
  swap
  · rw [(new_oneThird_of_threshold_none hvotedEq
      (Amount.mulCeil_of_not_lt Dec.oneThird_raw htotal)).1, if_neg fun hfits => htotal hfits.2]
  obtain ⟨threshold, hthreshold, hreach⟩ :=
    Amount.mulCeil_of_lt Dec.oneThird_raw Dec.thirds_le_maxSignedValue.1 htotal
  rw [new_oneHalfOverOneThird_of hvotedEq hthreshold, if_pos (And.intro hvoted htotal)]
  simp only [Bool.and_eq_true, decide_eq_true_eq, hreach, hvotedNat, Amount.lt_iff_toNat_lt,
    posDecimalPrecision]

/-- `TallyType::LessOneHalfOverOneThirdNay` passes exactly when less than
`333333333333 / 10^12` of the total voted or yay beat nay; it fails when the
voted power or the product leaves 256 bits. -/
theorem new_lessOneHalfOverOneThirdNay :
    TallyResult.new .lessOneHalfOverOneThirdNay yay nay abstain total =
      if yay.raw.toNat + nay.raw.toNat + abstain.raw.toNat < 2 ^ 256 ∧
          total.raw.toNat * 333333333333 < 2 ^ 256 then
        some (if (yay.raw.toNat + nay.raw.toNat + abstain.raw.toNat) * 10 ^ 12 <
              total.raw.toNat * 333333333333 ∨
            nay.raw.toNat < yay.raw.toNat
          then .passed else .rejected)
      else none := by
  by_cases hvoted : yay.raw.toNat + nay.raw.toNat + abstain.raw.toNat < 2 ^ 256
  swap
  · rw [new_of_getTotalVotedPower_none _ (getTotalVotedPower_of_not_lt hvoted),
      if_neg fun hfits => hvoted hfits.1]
  obtain ⟨voted, hvotedEq, hvotedNat⟩ := getTotalVotedPower_of_lt hvoted
  by_cases htotal : total.raw.toNat * 333333333333 < 2 ^ 256
  swap
  · rw [(new_oneThird_of_threshold_none hvotedEq
      (Amount.mulCeil_of_not_lt Dec.oneThird_raw htotal)).2, if_neg fun hfits => htotal hfits.2]
  obtain ⟨threshold, hthreshold, hreach⟩ :=
    Amount.mulCeil_of_lt Dec.oneThird_raw Dec.thirds_le_maxSignedValue.1 htotal
  -- less than the threshold is not reaching it
  have hbelow : voted < threshold ↔
      (yay.raw.toNat + nay.raw.toNat + abstain.raw.toNat) * 10 ^ 12 <
        total.raw.toNat * 333333333333 := by
    have hreachVoted := not_congr (hreach voted)
    rw [Amount.le_iff_toNat_le, Nat.not_le, Nat.not_le, hvotedNat] at hreachVoted
    rw [Amount.lt_iff_toNat_lt, hvotedNat]
    exact hreachVoted
  rw [new_lessOneHalfOverOneThirdNay_of hvotedEq hthreshold, if_pos (And.intro hvoted htotal)]
  simp only [Bool.or_eq_true, decide_eq_true_eq, hbelow, Amount.lt_iff_toNat_lt]

/-- `two_thirds_nay_over_two_thirds_total` holds exactly when every sum and
product fits, `666666666666 / 10^12` of the total voted and of the
non-abstaining power said nay. -/
theorem twoThirdsNayOverTwoThirdsTotal_iff (proposal : ProposalResult) :
    proposal.twoThirdsNayOverTwoThirdsTotal = true ↔
      proposal.totalYayPower.raw.toNat + proposal.totalNayPower.raw.toNat +
          proposal.totalAbstainPower.raw.toNat < 2 ^ 256 ∧
        proposal.totalVotingPower.raw.toNat * 666666666666 < 2 ^ 256 ∧
        (proposal.totalYayPower.raw.toNat + proposal.totalNayPower.raw.toNat) * 666666666666 <
          2 ^ 256 ∧
        proposal.totalVotingPower.raw.toNat * 666666666666 ≤
          (proposal.totalYayPower.raw.toNat + proposal.totalNayPower.raw.toNat +
            proposal.totalAbstainPower.raw.toNat) * 10 ^ 12 ∧
        (proposal.totalYayPower.raw.toNat + proposal.totalNayPower.raw.toNat) * 666666666666 ≤
          proposal.totalNayPower.raw.toNat * 10 ^ 12 := by
  constructor
  · intro htrue
    obtain ⟨threshold, yayNay, voted, nayThreshold, hthreshold, hyayNay, hvoted, hnayThreshold,
      hreached, hnayReached⟩ := twoThirdsNayOverTwoThirdsTotal_eq_true htrue
    have hyayNayNat := Amount.toNat_of_checkedAdd hyayNay
    have hvotedNat := Amount.toNat_of_checkedAdd hvoted
    -- a product that did not fit would have failed `mul_ceil`
    have htotal : proposal.totalVotingPower.raw.toNat * 666666666666 < 2 ^ 256 := by
      by_contra hnot
      rw [Amount.mulCeil_of_not_lt Dec.twoThirds_raw hnot] at hthreshold
      cases hthreshold
    have hyayNayFits : yayNay.raw.toNat * 666666666666 < 2 ^ 256 := by
      by_contra hnot
      rw [Amount.mulCeil_of_not_lt Dec.twoThirds_raw hnot] at hnayThreshold
      cases hnayThreshold
    obtain ⟨threshold', hthreshold', hreach⟩ :=
      Amount.mulCeil_of_lt Dec.twoThirds_raw Dec.thirds_le_maxSignedValue.2 htotal
    obtain ⟨nayThreshold', hnayThreshold', hnayReach⟩ :=
      Amount.mulCeil_of_lt Dec.twoThirds_raw Dec.thirds_le_maxSignedValue.2 hyayNayFits
    rw [hthreshold, Option.some.injEq] at hthreshold'
    rw [hnayThreshold, Option.some.injEq] at hnayThreshold'
    subst hthreshold' hnayThreshold'
    rw [hreach, hvotedNat, hyayNayNat] at hreached
    rw [hnayReach, hyayNayNat] at hnayReached
    rw [hyayNayNat] at hyayNayFits
    exact ⟨hyayNayNat ▸ hvotedNat ▸ voted.raw.isLt, htotal, hyayNayFits, hreached, hnayReached⟩
  · rintro ⟨hvoted, htotal, hyayNayFits, hreached, hnayReached⟩
    obtain ⟨yayNay, hyayNay, hyayNayNat⟩ :=
      checkedAdd_of_fits proposal.totalYayPower proposal.totalNayPower (by omega)
    obtain ⟨voted, hvotedEq, hvotedNat⟩ :=
      checkedAdd_of_fits yayNay proposal.totalAbstainPower (by omega)
    obtain ⟨threshold, hthreshold, hreach⟩ :=
      Amount.mulCeil_of_lt Dec.twoThirds_raw Dec.thirds_le_maxSignedValue.2 htotal
    obtain ⟨nayThreshold, hnayThreshold, hnayReach⟩ :=
      Amount.mulCeil_of_lt Dec.twoThirds_raw Dec.thirds_le_maxSignedValue.2
        (hyayNayNat.symm ▸ hyayNayFits)
    rw [twoThirdsNayOverTwoThirdsTotal_of hthreshold hyayNay hvotedEq hnayThreshold,
      Bool.and_eq_true, decide_eq_true_eq, decide_eq_true_eq, hreach, hnayReach, hvotedNat,
      hyayNayNat]
    exact ⟨hreached, hnayReached⟩

end Thresholds

/-! ## The tally against the exact fractions -/

/-- Every tally rule is the one of the truncated thirds: a proposal passes when
`666666666666 / 10^12` or `333333333333 / 10^12` of a power is reached, and the
tally fails when the voted power or a product with a third leaves 256 bits. -/
theorem tally_thresholds_of_truncated_thirds (yay nay abstain total : VotePower)
    (result : TallyResult) (tallyType : TallyType) :
    (TallyResult.new .twoThirds yay nay abstain total =
      if yay.raw.toNat + nay.raw.toNat + abstain.raw.toNat < 2 ^ 256 ∧
          total.raw.toNat * 666666666666 < 2 ^ 256 ∧
          (yay.raw.toNat + nay.raw.toNat) * 666666666666 < 2 ^ 256 then
        some (if total.raw.toNat * 666666666666 ≤
              (yay.raw.toNat + nay.raw.toNat + abstain.raw.toNat) * 10 ^ 12 ∧
            (yay.raw.toNat + nay.raw.toNat) * 666666666666 ≤ yay.raw.toNat * 10 ^ 12
          then .passed else .rejected)
      else none) ∧
    (TallyResult.new .oneHalfOverOneThird yay nay abstain total =
      if yay.raw.toNat + nay.raw.toNat + abstain.raw.toNat < 2 ^ 256 ∧
          total.raw.toNat * 333333333333 < 2 ^ 256 then
        some (if total.raw.toNat * 333333333333 ≤
              (yay.raw.toNat + nay.raw.toNat + abstain.raw.toNat) * 10 ^ 12 ∧
            nay.raw.toNat < yay.raw.toNat
          then .passed else .rejected)
      else none) ∧
    (TallyResult.new .lessOneHalfOverOneThirdNay yay nay abstain total =
      if yay.raw.toNat + nay.raw.toNat + abstain.raw.toNat < 2 ^ 256 ∧
          total.raw.toNat * 333333333333 < 2 ^ 256 then
        some (if (yay.raw.toNat + nay.raw.toNat + abstain.raw.toNat) * 10 ^ 12 <
              total.raw.toNat * 333333333333 ∨
            nay.raw.toNat < yay.raw.toNat
          then .passed else .rejected)
      else none) ∧
    ((⟨result, tallyType, total, yay, nay, abstain⟩ : ProposalResult).twoThirdsNayOverTwoThirdsTotal =
        true ↔
      yay.raw.toNat + nay.raw.toNat + abstain.raw.toNat < 2 ^ 256 ∧
        total.raw.toNat * 666666666666 < 2 ^ 256 ∧
        (yay.raw.toNat + nay.raw.toNat) * 666666666666 < 2 ^ 256 ∧
        total.raw.toNat * 666666666666 ≤
          (yay.raw.toNat + nay.raw.toNat + abstain.raw.toNat) * 10 ^ 12 ∧
        (yay.raw.toNat + nay.raw.toNat) * 666666666666 ≤ nay.raw.toNat * 10 ^ 12) :=
  ⟨new_twoThirds, new_oneHalfOverOneThird, new_lessOneHalfOverOneThirdNay,
    twoThirdsNayOverTwoThirdsTotal_iff _⟩

/-! ### Below the totals where the truncation shows -/

/-- Below `5 * 10^11` the truncated two thirds are the fraction: the rounding
error `2 * total / (3 * 10^12)` stays below a third of a unit. -/
theorem reachesTwoThirds_iff_of_lt {total voted : ℕ} (htotal : total < 500000000000) :
    total * 666666666666 ≤ voted * 10 ^ 12 ↔ 2 * total ≤ 3 * voted := by
  omega

/-- Below `10^12` the truncated third is the fraction. -/
theorem reachesOneThird_iff_of_lt {total voted : ℕ} (htotal : total < 1000000000000) :
    total * 333333333333 ≤ voted * 10 ^ 12 ↔ total ≤ 3 * voted := by
  omega

/-- A product with a third of a power below `10^12` fits. -/
theorem mul_third_lt {power third : ℕ} (hpower : power < 1000000000000)
    (hthird : third ≤ 666666666666) : power * third < 2 ^ 256 :=
  calc power * third ≤ 1000000000000 * 666666666666 :=
        Nat.mul_le_mul (Nat.le_of_lt hpower) hthird
    _ < 2 ^ 256 := by decide

/-- While the total and the non-abstaining power stay below `5 * 10^11`,
`TallyType::TwoThirds` is the rule of the fraction. -/
theorem new_twoThirds_of_lt
    (hvoted : yay.raw.toNat + nay.raw.toNat + abstain.raw.toNat < 2 ^ 256)
    (htotal : total.raw.toNat < 500000000000)
    (hyayNay : yay.raw.toNat + nay.raw.toNat < 500000000000) :
    TallyResult.new .twoThirds yay nay abstain total =
      some (if 2 * total.raw.toNat ≤ 3 * (yay.raw.toNat + nay.raw.toNat + abstain.raw.toNat) ∧
          2 * (yay.raw.toNat + nay.raw.toNat) ≤ 3 * yay.raw.toNat
        then .passed else .rejected) := by
  have hfits : total.raw.toNat * 666666666666 < 2 ^ 256 ∧
      (yay.raw.toNat + nay.raw.toNat) * 666666666666 < 2 ^ 256 :=
    ⟨mul_third_lt (by omega) le_rfl, mul_third_lt (by omega) le_rfl⟩
  rw [new_twoThirds, if_pos ⟨hvoted, hfits⟩]
  simp only [reachesTwoThirds_iff_of_lt htotal, reachesTwoThirds_iff_of_lt hyayNay]

/-- While the total stays below `10^12`, the rules by a third are those of the
fraction. -/
theorem new_oneThird_of_lt
    (hvoted : yay.raw.toNat + nay.raw.toNat + abstain.raw.toNat < 2 ^ 256)
    (htotal : total.raw.toNat < 1000000000000) :
    TallyResult.new .oneHalfOverOneThird yay nay abstain total =
        some (if total.raw.toNat ≤ 3 * (yay.raw.toNat + nay.raw.toNat + abstain.raw.toNat) ∧
            nay.raw.toNat < yay.raw.toNat
          then .passed else .rejected) ∧
      TallyResult.new .lessOneHalfOverOneThirdNay yay nay abstain total =
        some (if 3 * (yay.raw.toNat + nay.raw.toNat + abstain.raw.toNat) < total.raw.toNat ∨
            nay.raw.toNat < yay.raw.toNat
          then .passed else .rejected) := by
  have hfits : total.raw.toNat * 333333333333 < 2 ^ 256 := mul_third_lt htotal (by decide)
  -- less than the truncated third is less than the third
  have hbelow : (yay.raw.toNat + nay.raw.toNat + abstain.raw.toNat) * 10 ^ 12 <
        total.raw.toNat * 333333333333 ↔
      3 * (yay.raw.toNat + nay.raw.toNat + abstain.raw.toNat) < total.raw.toNat := by
    have hreach : ¬total.raw.toNat * 333333333333 ≤
          (yay.raw.toNat + nay.raw.toNat + abstain.raw.toNat) * 10 ^ 12 ↔
        ¬total.raw.toNat ≤ 3 * (yay.raw.toNat + nay.raw.toNat + abstain.raw.toNat) :=
      not_congr (reachesOneThird_iff_of_lt htotal)
    rwa [Nat.not_le, Nat.not_le] at hreach
  have hcond : yay.raw.toNat + nay.raw.toNat + abstain.raw.toNat < 2 ^ 256 ∧
      total.raw.toNat * 333333333333 < 2 ^ 256 := ⟨hvoted, hfits⟩
  rw [new_oneHalfOverOneThird, new_lessOneHalfOverOneThirdNay, if_pos hcond, if_pos hcond]
  simp only [reachesOneThird_iff_of_lt htotal, hbelow, and_self]

/-- The truncated thirds part from the fractions from totals of `5 * 10^11` on:
two thirds of `5 * 10^11` pass with `333333333333`, less than two thirds; a
third of `10^12` passes with `333333333333`, less than a third; and the same
power of nay is not seen as less than a third. -/
theorem tally_passes_below_exact_thirds :
    TallyResult.new .twoThirds ⟨333333333333⟩ ⟨0⟩ ⟨0⟩ ⟨500000000000⟩ = some .passed ∧
      3 * 333333333333 < 2 * 500000000000 ∧
    TallyResult.new .oneHalfOverOneThird ⟨333333333333⟩ ⟨0⟩ ⟨0⟩ ⟨1000000000000⟩ = some .passed ∧
      3 * 333333333333 < 1000000000000 ∧
    TallyResult.new .lessOneHalfOverOneThirdNay ⟨0⟩ ⟨333333333333⟩ ⟨0⟩ ⟨1000000000000⟩ =
      some .rejected := by
  -- each tally is the one of the truncated thirds, evaluated at these powers
  have htwo := (tally_thresholds_of_truncated_thirds ⟨333333333333⟩ ⟨0⟩ ⟨0⟩ ⟨500000000000⟩
    .passed .twoThirds).1
  have hhalf := (tally_thresholds_of_truncated_thirds ⟨333333333333⟩ ⟨0⟩ ⟨0⟩ ⟨1000000000000⟩
    .passed .oneHalfOverOneThird).2.1
  have hnay := (tally_thresholds_of_truncated_thirds ⟨0⟩ ⟨333333333333⟩ ⟨0⟩ ⟨1000000000000⟩
    .rejected .lessOneHalfOverOneThirdNay).2.2.1
  refine ⟨?_, by decide, ?_, by decide, ?_⟩
  · rw [htwo]
    decide
  · rw [hhalf]
    decide
  · rw [hnay]
    decide

end Namada.Governance
