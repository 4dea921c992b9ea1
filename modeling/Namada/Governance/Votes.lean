/-
# Counting the votes of a proposal

`compute_proposal_result` adds each voting validator's power to the side it
voted for, then goes through the delegators that voted. The power a delegator
has with a validator that voted otherwise moves from the validator's side to
the delegator's; its power with a validator that did not vote goes to the
delegator's side. Every addition and subtraction is checked, and a failure is
the function's `arith::Error`, as is a failure of `TallyResult::new`.

The maps are `HashMap`s, here `Bindings` in an order the model leaves open.
Under two bounds no step fails, whatever the order: no validator has more
power delegated against its vote than its own, and the power that ends up on a
side fits in an `Amount`. Each side then holds its validators' power, less what
their delegators took away, plus what delegators of the side brought from
validators that did not vote it (`tally_eq`), and the result is that of
`TallyResult::new` on those totals in every iteration order. `TallyResult::new`
may still fail: `mul_ceil` of a large total voting power leaves 256 bits.
-/

import Namada.Governance.Tally
import Namada.Math.Bindings

namespace Namada.Governance

open Namada.Core Namada.Math

/-- `ProposalVote`. -/
inductive ProposalVote
  | yay
  | nay
  | abstain
  deriving DecidableEq, Repr

/-- `ProposalVote::is_same_side`: the same variant. -/
def ProposalVote.isSameSide : ProposalVote → ProposalVote → Bool
  | .yay, .yay => true
  | .nay, .nay => true
  | .abstain, .abstain => true
  | _, _ => false

theorem ProposalVote.isSameSide_iff {first second : ProposalVote} :
    first.isSameSide second = true ↔ first = second := by
  cases first <;> cases second <;> decide

/-- `ProposalVotes`. -/
structure ProposalVotes (Address : Type) where
  validatorsVote : Bindings Address ProposalVote
  validatorVotingPower : Bindings Address VotePower
  delegatorsVote : Bindings Address ProposalVote
  delegatorVotingPower : Bindings Address (Bindings Address VotePower)

namespace ProposalVotes

variable {Address : Type} [DecidableEq Address]

/-- `ProposalVotes::default`. -/
def empty : ProposalVotes Address := ⟨.empty, .empty, .empty, .empty⟩

/-- `ProposalVotes::add_validator`: a first vote records the power with it; a
second one replaces the vote and leaves the power as it was. -/
def addValidator (votes : ProposalVotes Address) (address : Address) (votingPower : VotePower)
    (vote : ProposalVote) : ProposalVotes Address :=
  match votes.validatorsVote.get address with
  | none =>
      { votes with
        validatorsVote := votes.validatorsVote.insert address vote
        validatorVotingPower := votes.validatorVotingPower.insert address votingPower }
  -- the source logs a duplicate vote as an error
  | some _ => { votes with validatorsVote := votes.validatorsVote.insert address vote }

/-- `ProposalVotes::add_delegator`. -/
def addDelegator (votes : ProposalVotes Address) (address validatorAddress : Address)
    (votingPower : VotePower) (vote : ProposalVote) : ProposalVotes Address :=
  { votes with
    delegatorVotingPower := votes.delegatorVotingPower.insert address
      (((votes.delegatorVotingPower.get address).getD .empty).insert validatorAddress votingPower)
    delegatorsVote := votes.delegatorsVote.insert address vote }

/-- The validators with a vote are those with a voting power. -/
def SameKeys (votes : ProposalVotes Address) : Prop :=
  ∀ validator, (votes.validatorsVote.get validator).isSome =
    (votes.validatorVotingPower.get validator).isSome

theorem sameKeys_empty : (empty : ProposalVotes Address).SameKeys := fun _ => rfl

/-- A first vote binds both maps, a second neither's keys. -/
theorem SameKeys.addValidator {votes : ProposalVotes Address} (hsame : votes.SameKeys)
    (address : Address) (votingPower : VotePower) (vote : ProposalVote) :
    (votes.addValidator address votingPower vote).SameKeys := by
  intro validator
  unfold ProposalVotes.addValidator
  split
  next hnone =>
    simp only [Bindings.get_insert]
    split_ifs <;> simp [hsame validator]
  next previous hsome =>
    simp only [Bindings.get_insert]
    split_ifs with hvalidator
    · subst hvalidator
      rw [← hsame, hsome]
      rfl
    · exact hsame validator

theorem SameKeys.addDelegator {votes : ProposalVotes Address} (hsame : votes.SameKeys)
    (address validatorAddress : Address) (votingPower : VotePower) (vote : ProposalVote) :
    (votes.addDelegator address validatorAddress votingPower vote).SameKeys := hsame

/-- A vote as `compute_proposal_votes` records it. -/
inductive Addition (Address : Type)
  | validator (address : Address) (votingPower : VotePower) (vote : ProposalVote)
  | delegator (address validatorAddress : Address) (votingPower : VotePower) (vote : ProposalVote)

/-- Record one vote. -/
def add (votes : ProposalVotes Address) : Addition Address → ProposalVotes Address
  | .validator address votingPower vote => votes.addValidator address votingPower vote
  | .delegator address validatorAddress votingPower vote =>
      votes.addDelegator address validatorAddress votingPower vote

/-- Votes recorded one after another through `add_validator` and
`add_delegator` keep the validators' maps on the same keys. -/
theorem SameKeys.foldl_add {votes : ProposalVotes Address} (hsame : votes.SameKeys) :
    ∀ additions : List (Addition Address), (additions.foldl add votes).SameKeys
  | [] => hsame
  | addition :: rest => by
      have hstep : (votes.add addition).SameKeys := by
        cases addition with
        | validator address votingPower vote => exact hsame.addValidator address votingPower vote
        | delegator address validatorAddress votingPower vote =>
            exact hsame.addDelegator address validatorAddress votingPower vote
      exact hstep.foldl_add rest

/-- The same votes, with each map, and each delegator's map of delegations,
iterated in another order. -/
structure Reorders (votes other : ProposalVotes Address) : Prop where
  validatorsVote : votes.validatorsVote.Reorders other.validatorsVote
  validatorVotingPower : votes.validatorVotingPower.Reorders other.validatorVotingPower
  delegatorsVote : votes.delegatorsVote.Reorders other.delegatorsVote
  delegatorVotingPower : votes.delegatorVotingPower.ReordersNested other.delegatorVotingPower

end ProposalVotes

/-! ## The running totals -/

/-- The running `yay_voting_power`, `nay_voting_power` and `abstain_voting_power`. -/
structure Tally where
  yay : VotePower
  nay : VotePower
  abstain : VotePower

namespace Tally

/-- `VotePower::default()` on every side. -/
def zero : Tally := ⟨Amount.zero, Amount.zero, Amount.zero⟩

/-- The power on a side. -/
def get (tally : Tally) : ProposalVote → VotePower
  | .yay => tally.yay
  | .nay => tally.nay
  | .abstain => tally.abstain

/-- The tally with a side's power replaced. -/
def set (tally : Tally) : ProposalVote → VotePower → Tally
  | .yay, power => { tally with yay := power }
  | .nay, power => { tally with nay := power }
  | .abstain, power => { tally with abstain := power }

/-- `checked!(side + power)`. -/
def add (tally : Tally) (side : ProposalVote) (power : VotePower) : Option Tally :=
  ((tally.get side).checkedAdd power).map (tally.set side)

/-- `checked!(side - power)`. -/
def sub (tally : Tally) (side : ProposalVote) (power : VotePower) : Option Tally :=
  ((tally.get side).checkedSub power).map (tally.set side)

/-- The power on a side, as a number. -/
def value (tally : Tally) (side : ProposalVote) : ℕ := (tally.get side).raw.toNat

/-- The power on the three sides together. -/
def total (tally : Tally) : ℕ := tally.value .yay + tally.value .nay + tally.value .abstain

@[simp] theorem get_set (tally : Tally) (side other : ProposalVote) (power : VotePower) :
    (tally.set side power).get other = if other = side then power else tally.get other := by
  cases side <;> cases other <;> rfl

@[simp] theorem value_zero (side : ProposalVote) : zero.value side = 0 := by
  cases side <;> rfl

@[simp] theorem total_zero : zero.total = 0 := rfl

theorem value_le_total (tally : Tally) (side : ProposalVote) : tally.value side ≤ tally.total := by
  unfold total
  cases side <;> omega

theorem value_add_value_le_total (tally : Tally) {first second : ProposalVote} (hne : first ≠ second) :
    tally.value first + tally.value second ≤ tally.total := by
  unfold total
  cases first <;> cases second <;> first | omega | exact absurd rfl hne

/-- Power put on one side alone adds to the total. -/
theorem total_eq_of_value {first second : Tally} {side : ProposalVote} {power : ℕ}
    (hvalue : ∀ other, first.value other = second.value other + if other = side then power else 0) :
    first.total = second.total + power := by
  have hyay := hvalue .yay
  have hnay := hvalue .nay
  have habstain := hvalue .abstain
  unfold total
  cases side <;> simp at hyay hnay habstain <;> omega

/-- An addition that fits puts the power on its side alone. -/
theorem add_of_lt {tally : Tally} {side : ProposalVote} {power : VotePower}
    (hfit : tally.value side + power.raw.toNat < 2 ^ 256) :
    ∃ added, tally.add side power = some added ∧
      ∀ other, added.value other = tally.value other + if other = side then power.raw.toNat else 0 := by
  refine ⟨tally.set side ⟨(tally.get side).raw + power.raw⟩, ?_, fun other => ?_⟩
  · rw [add, Amount.checkedAdd_of_lt hfit]
    rfl
  · by_cases hother : other = side
    · subst hother
      simp only [value, get_set, if_pos]
      exact Amount.toNat_add_of_lt hfit
    · simp [value, hother]

/-- A subtraction of at most a side's power takes it from that side alone. -/
theorem sub_of_le {tally : Tally} {side : ProposalVote} {power : VotePower}
    (hle : power.raw.toNat ≤ tally.value side) :
    ∃ taken, tally.sub side power = some taken ∧
      ∀ other, taken.value other + (if other = side then power.raw.toNat else 0) = tally.value other := by
  have hamount : power ≤ tally.get side := Amount.le_iff_toNat_le.mpr hle
  refine ⟨tally.set side ⟨(tally.get side).raw - power.raw⟩, ?_, fun other => ?_⟩
  · rw [sub, Amount.checkedSub_of_le hamount]
    rfl
  · by_cases hother : other = side
    · subst hother
      simp only [value, get_set, if_pos]
      rw [Amount.toNat_sub_of_le hamount]
      exact Nat.sub_add_cancel hle
    · simp [value, hother]

end Tally

/-! ## `compute_proposal_result` -/

variable {Address : Type} [DecidableEq Address]

/-- The body of the loop over `validator_voting_power`. -/
def countValidator (votes : ProposalVotes Address) (tally : Tally) (entry : Address × VotePower) :
    Option Tally :=
  match votes.validatorsVote.get entry.1 with
  | some vote => tally.add vote entry.2
  | none => some tally

/-- The body of the loop over a delegator's delegations. -/
def countDelegation (votes : ProposalVotes Address) (delegatorVote : ProposalVote) (tally : Tally)
    (entry : Address × VotePower) : Option Tally :=
  match votes.validatorsVote.get entry.1 with
  | some validatorVote =>
      if validatorVote.isSameSide delegatorVote then some tally
      else do
        -- the power moves from the validator's side to the delegator's
        let tally ← tally.add delegatorVote entry.2
        tally.sub validatorVote entry.2
  | none => tally.add delegatorVote entry.2

/-- The body of the loop over `delegator_voting_power`; a delegator without a
vote is skipped. -/
def countDelegator (votes : ProposalVotes Address) (tally : Tally)
    (entry : Address × Bindings Address VotePower) : Option Tally :=
  match votes.delegatorsVote.get entry.1 with
  | some delegatorVote => entry.2.entries.foldlM (countDelegation votes delegatorVote) tally
  | none => some tally

/-- `compute_proposal_result`; `none` is its `arith::Error`. -/
def computeProposalResult (votes : ProposalVotes Address) (totalVotingPower : VotePower)
    (tallyType : TallyType) : Option ProposalResult := do
  let tally ← votes.validatorVotingPower.entries.foldlM (countValidator votes) Tally.zero
  let tally ← votes.delegatorVotingPower.entries.foldlM (countDelegator votes) tally
  let tallyResult ← TallyResult.new tallyType tally.yay tally.nay tally.abstain totalVotingPower
  pure ⟨tallyResult, tallyType, totalVotingPower, tally.yay, tally.nay, tally.abstain⟩

/-! ## What each side receives -/

/-- A delegator's delegations, each with its vote as `(vote, validator, power)`;
none for a delegator that did not vote. -/
def delegationsOf (votes : ProposalVotes Address) (entry : Address × Bindings Address VotePower) :
    List (ProposalVote × Address × VotePower) :=
  match votes.delegatorsVote.get entry.1 with
  | some vote => entry.2.entries.map fun delegation => (vote, delegation)
  | none => []

/-- The delegations of the delegators that voted. -/
def votedDelegations (votes : ProposalVotes Address) : List (ProposalVote × Address × VotePower) :=
  votes.delegatorVotingPower.entries.flatMap (delegationsOf votes)

/-- A validator's power, if it voted `side`. -/
def ownPower (votes : ProposalVotes Address) (entry : Address × VotePower) (side : ProposalVote) : ℕ :=
  if votes.validatorsVote.get entry.1 = some side then entry.2.raw.toNat else 0

/-- A validator's power, if it voted. -/
def votingPower (votes : ProposalVotes Address) (entry : Address × VotePower) : ℕ :=
  if (votes.validatorsVote.get entry.1).isSome then entry.2.raw.toNat else 0

/-- What a delegation takes from `side`: its power, when its validator voted
`side` and its delegator did not. -/
def takenFrom (votes : ProposalVotes Address) (delegation : ProposalVote × Address × VotePower)
    (side : ProposalVote) : ℕ :=
  if votes.validatorsVote.get delegation.2.1 = some side ∧ delegation.1 ≠ side then
    delegation.2.2.raw.toNat
  else 0

/-- What a delegation brings to `side`: its power, when its delegator voted
`side` and its validator did not. -/
def broughtTo (votes : ProposalVotes Address) (delegation : ProposalVote × Address × VotePower)
    (side : ProposalVote) : ℕ :=
  if delegation.1 = side ∧ votes.validatorsVote.get delegation.2.1 ≠ some side then
    delegation.2.2.raw.toNat
  else 0

/-- A delegation's power, when its validator did not vote. -/
def unclaimed (votes : ProposalVotes Address) (delegation : ProposalVote × Address × VotePower) : ℕ :=
  if votes.validatorsVote.get delegation.2.1 = none then delegation.2.2.raw.toNat else 0

/-- The power of the validators that voted `side`. -/
def validatorPower (votes : ProposalVotes Address) (side : ProposalVote) : ℕ :=
  (votes.validatorVotingPower.entries.map (ownPower votes · side)).sum

/-- The power that delegators took away from the validators that voted `side`. -/
def delegatedAway (votes : ProposalVotes Address) (side : ProposalVote) : ℕ :=
  ((votedDelegations votes).map (takenFrom votes · side)).sum

/-- The power that delegators who voted `side` brought from validators that did not. -/
def delegatedTo (votes : ProposalVotes Address) (side : ProposalVote) : ℕ :=
  ((votedDelegations votes).map (broughtTo votes · side)).sum

/-- What `side` receives: the power of its validators, less what their
delegators took away, plus what delegators of the side brought. -/
def attributedPower (votes : ProposalVotes Address) (side : ProposalVote) : ℕ :=
  validatorPower votes side - delegatedAway votes side + delegatedTo votes side

/-- `attributedPower` as a `VotePower`. -/
def attributedAmount (votes : ProposalVotes Address) (side : ProposalVote) : VotePower :=
  ⟨BitVec.ofNat 256 (attributedPower votes side)⟩

/-- The power that ends up on some side: that of the validators that voted,
and that of the voted delegations to validators that did not. -/
def votedPower (votes : ProposalVotes Address) : ℕ :=
  (votes.validatorVotingPower.entries.map (votingPower votes)).sum +
    ((votedDelegations votes).map (unclaimed votes)).sum

/-- The power delegated to a validator by the delegators that did not vote `vote`. -/
def delegatedAgainst (votes : ProposalVotes Address) (validator : Address) (vote : ProposalVote) : ℕ :=
  (((votedDelegations votes).filter fun delegation => delegation.2.1 = validator).map fun delegation =>
    if delegation.1 ≠ vote then delegation.2.2.raw.toNat else 0).sum

/-- No validator that voted has more power delegated against its vote than its own. -/
def ProposalVotes.DelegationsBounded (votes : ProposalVotes Address) : Prop :=
  ∀ validator vote power, votes.validatorsVote.get validator = some vote →
    votes.validatorVotingPower.get validator = some power →
      delegatedAgainst votes validator vote ≤ power.raw.toNat

/-! ## The validator loop -/

section Loops

variable {votes : ProposalVotes Address}

/-- One validator puts its power on the side it voted for, if any. -/
theorem countValidator_eq {tally : Tally} {entry : Address × VotePower}
    (hfit : tally.total + votingPower votes entry < 2 ^ 256) :
    ∃ stepped, countValidator votes tally entry = some stepped ∧
      (∀ side, stepped.value side = tally.value side + ownPower votes entry side) ∧
      stepped.total = tally.total + votingPower votes entry := by
  unfold countValidator
  cases hvote : votes.validatorsVote.get entry.1 with
  | none => exact ⟨tally, rfl, fun side => by simp [ownPower, hvote], by simp [votingPower, hvote]⟩
  | some vote =>
      have hpower : votingPower votes entry = entry.2.raw.toNat := by simp [votingPower, hvote]
      have hfitAdd : tally.value vote + entry.2.raw.toNat < 2 ^ 256 := by
        have hle := tally.value_le_total vote
        omega
      obtain ⟨added, hadded, hvalue⟩ := Tally.add_of_lt hfitAdd
      refine ⟨added, hadded, fun side => ?_, ?_⟩
      · rw [hvalue]
        by_cases hside : side = vote
        · simp [ownPower, hvote, hside]
        · simp [ownPower, hvote, hside, Ne.symm hside]
      · rw [hpower]
        exact Tally.total_eq_of_value hvalue

/-- The validator loop puts each voting validator's power on its side, when
the whole fits; the induction runs over the validators still to visit. -/
theorem foldlM_countValidator :
    ∀ {entries : List (Address × VotePower)} {tally : Tally},
      tally.total + (entries.map (votingPower votes)).sum < 2 ^ 256 →
      ∃ counted, entries.foldlM (countValidator votes) tally = some counted ∧
        (∀ side, counted.value side = tally.value side + (entries.map (ownPower votes · side)).sum) ∧
        counted.total = tally.total + (entries.map (votingPower votes)).sum
  | [], tally, _ => ⟨tally, rfl, fun side => by simp, by simp⟩
  | entry :: rest, tally, hfit => by
      rw [List.map_cons, List.sum_cons] at hfit
      obtain ⟨stepped, hstep, hvalue, htotal⟩ := countValidator_eq (by omega : tally.total + votingPower votes entry < 2 ^ 256)
      obtain ⟨counted, hcounted, hcountedValue, hcountedTotal⟩ :=
        foldlM_countValidator (by omega : stepped.total + (rest.map (votingPower votes)).sum < 2 ^ 256)
      refine ⟨counted, ?_, fun side => ?_, ?_⟩
      · rw [List.foldlM_cons, hstep]
        exact hcounted
      · rw [hcountedValue, hvalue, List.map_cons, List.sum_cons]
        omega
      · rw [hcountedTotal, htotal, List.map_cons, List.sum_cons]
        omega

/-! ## The delegator loop -/

/-- The inner loop's body on a delegation with its delegator's vote. -/
def countVotedDelegation (votes : ProposalVotes Address) (tally : Tally)
    (delegation : ProposalVote × Address × VotePower) : Option Tally :=
  countDelegation votes delegation.1 tally delegation.2

/-- The nested loop over delegators and their delegations is one loop over the
voted delegations. -/
theorem foldlM_countDelegator :
    ∀ (entries : List (Address × Bindings Address VotePower)) (tally : Tally),
      entries.foldlM (countDelegator votes) tally =
        (entries.flatMap (delegationsOf votes)).foldlM (countVotedDelegation votes) tally
  | [], _ => rfl
  | entry :: rest, tally => by
      have hentry : countDelegator votes tally entry =
          (delegationsOf votes entry).foldlM (countVotedDelegation votes) tally := by
        unfold countDelegator delegationsOf
        cases votes.delegatorsVote.get entry.1 with
        | none => rfl
        | some vote =>
            rw [List.foldlM_map]
            rfl
      rw [List.foldlM_cons, List.flatMap_cons, List.foldlM_append, hentry]
      congr 1
      funext stepped
      exact foldlM_countDelegator rest stepped

/-- One delegation moves its power to its delegator's side, from its
validator's side when that one voted otherwise. -/
theorem countVotedDelegation_eq {tally : Tally} {delegation : ProposalVote × Address × VotePower}
    (htaken : ∀ side, takenFrom votes delegation side ≤ tally.value side)
    (hfit : tally.total + unclaimed votes delegation < 2 ^ 256) :
    ∃ stepped, countVotedDelegation votes tally delegation = some stepped ∧
      (∀ side, stepped.value side + takenFrom votes delegation side =
        tally.value side + broughtTo votes delegation side) ∧
      stepped.total = tally.total + unclaimed votes delegation := by
  obtain ⟨delegatorVote, validator, power⟩ := delegation
  unfold countVotedDelegation countDelegation
  dsimp only
  cases hvote : votes.validatorsVote.get validator with
  | none =>
      -- the validator did not vote: the power joins the delegator's side
      have hunclaimed : unclaimed votes (delegatorVote, validator, power) = power.raw.toNat := by
        simp [unclaimed, hvote]
      have hfitAdd : tally.value delegatorVote + power.raw.toNat < 2 ^ 256 := by
        have hle := tally.value_le_total delegatorVote
        omega
      obtain ⟨added, hadded, hvalue⟩ := Tally.add_of_lt hfitAdd
      refine ⟨added, hadded, fun side => ?_, ?_⟩
      · rw [hvalue]
        by_cases hside : side = delegatorVote
        · simp [takenFrom, broughtTo, hvote, hside]
        · simp [takenFrom, broughtTo, hvote, hside, Ne.symm hside]
      · rw [hunclaimed]
        exact Tally.total_eq_of_value hvalue
  | some validatorVote =>
      dsimp only
      have hunclaimed : unclaimed votes (delegatorVote, validator, power) = 0 := by
        simp [unclaimed, hvote]
      by_cases hsame : validatorVote = delegatorVote
      · -- the same side: nothing moves
        subst hsame
        rw [if_pos (ProposalVote.isSameSide_iff.mpr rfl), hunclaimed]
        refine ⟨tally, rfl, fun side => ?_, rfl⟩
        by_cases hside : side = validatorVote
        · simp [takenFrom, broughtTo, hvote, hside]
        · simp [takenFrom, broughtTo, hvote, Ne.symm hside]
      · -- another side: the power moves from the validator's side to the delegator's
        rw [if_neg (fun hsameSide => hsame (ProposalVote.isSameSide_iff.mp hsameSide)), hunclaimed]
        have hle : power.raw.toNat ≤ tally.value validatorVote := by
          have htakenValidator := htaken validatorVote
          simpa [takenFrom, hvote, Ne.symm hsame] using htakenValidator
        have hfitAdd : tally.value delegatorVote + power.raw.toNat < 2 ^ 256 := by
          have hsum := tally.value_add_value_le_total (Ne.symm hsame)
          omega
        obtain ⟨added, hadded, haddedValue⟩ := Tally.add_of_lt hfitAdd
        have hleAdded : power.raw.toNat ≤ added.value validatorVote := by
          rw [haddedValue, if_neg hsame]
          exact hle
        obtain ⟨taken, htakenEq, htakenValue⟩ := Tally.sub_of_le hleAdded
        refine ⟨taken, ?_, fun side => ?_, ?_⟩
        · rw [hadded]
          exact htakenEq
        · have hadd := haddedValue side
          have hsub := htakenValue side
          by_cases hv : side = validatorVote
          · simp [takenFrom, broughtTo, hvote, hv, hsame, Ne.symm hsame] at hadd hsub ⊢
            omega
          · by_cases hd : side = delegatorVote
            · simp [takenFrom, broughtTo, hvote, hd, hsame, Ne.symm hsame] at hadd hsub ⊢
              omega
            · simp [takenFrom, broughtTo, hvote, hv, hd, Ne.symm hv, Ne.symm hd] at hadd hsub ⊢
              omega
        · have haddTotal := Tally.total_eq_of_value haddedValue
          have hsubTotal := Tally.total_eq_of_value fun other => (htakenValue other).symm
          omega

/-- The delegation loop, over any list of voted delegations, when each side
holds what the delegations still to visit take from it and the power they put
on a side fits; the induction runs over the delegations still to visit. -/
theorem foldlM_countVotedDelegation :
    ∀ {delegations : List (ProposalVote × Address × VotePower)} {tally : Tally},
      (∀ side, (delegations.map (takenFrom votes · side)).sum ≤ tally.value side) →
      tally.total + (delegations.map (unclaimed votes)).sum < 2 ^ 256 →
      ∃ counted, delegations.foldlM (countVotedDelegation votes) tally = some counted ∧
        (∀ side, counted.value side + (delegations.map (takenFrom votes · side)).sum =
          tally.value side + (delegations.map (broughtTo votes · side)).sum) ∧
        counted.total = tally.total + (delegations.map (unclaimed votes)).sum
  | [], tally, _, _ => ⟨tally, rfl, fun side => by simp, by simp⟩
  | delegation :: rest, tally, htaken, hfit => by
      simp only [List.map_cons, List.sum_cons] at htaken hfit ⊢
      obtain ⟨stepped, hstep, hvalue, htotal⟩ :=
        countVotedDelegation_eq (fun side => by have := htaken side; omega)
          (by omega : tally.total + unclaimed votes delegation < 2 ^ 256)
      -- what the rest takes from a side is still there after this delegation
      have htakenRest : ∀ side, (rest.map (takenFrom votes · side)).sum ≤ stepped.value side := by
        intro side
        have hside := hvalue side
        have htakenSide := htaken side
        omega
      obtain ⟨counted, hcounted, hcountedValue, hcountedTotal⟩ :=
        foldlM_countVotedDelegation htakenRest (by omega)
      refine ⟨counted, ?_, fun side => ?_, ?_⟩
      · rw [List.foldlM_cons, hstep]
        exact hcounted
      · have hside := hvalue side
        have hcountedSide := hcountedValue side
        omega
      · omega

end Loops

/-! ## The totals -/

section Totals

variable {votes : ProposalVotes Address}

/-- A side loses to delegators at most its validators' power, when no validator
has more delegated against it than its own: regrouped by validator, the power
taken from the side is what each of its validators has delegated against it. -/
theorem delegatedAway_le (hsame : votes.SameKeys) (hbounded : votes.DelegationsBounded)
    (side : ProposalVote) : delegatedAway votes side ≤ validatorPower votes side := by
  -- a delegation to a validator without voting power takes nothing
  have hkeys : ∀ delegation ∈ votedDelegations votes,
      delegation.2.1 ∉ votes.validatorVotingPower.entries.map Prod.fst →
        takenFrom votes delegation side = 0 := by
    intro delegation _ hnot
    have hnone : votes.validatorsVote.get delegation.2.1 = none := by
      have hkey := hsame delegation.2.1
      rw [Bindings.get_eq_none_iff.mpr hnot, Option.isSome_none] at hkey
      exact Option.not_isSome_iff_eq_none.mp (by simp [hkey])
    simp [takenFrom, hnone]
  unfold delegatedAway validatorPower
  rw [sum_map_eq_sum_keys votes.validatorVotingPower.nodupKeys (fun delegation => delegation.2.1)
    (takenFrom votes · side) hkeys, List.map_map]
  apply List.sum_le_sum
  intro entry hentry
  have hpower : votes.validatorVotingPower.get entry.1 = some entry.2 :=
    Bindings.get_eq_some_iff.mpr hentry
  dsimp only [Function.comp]
  by_cases hvote : votes.validatorsVote.get entry.1 = some side
  · -- the validator voted the side: it loses what is delegated against its vote
    have hagainst : (((votedDelegations votes).filter fun delegation => delegation.2.1 = entry.1).map
        (takenFrom votes · side)).sum = delegatedAgainst votes entry.1 side := by
      unfold delegatedAgainst
      congr 1
      apply List.map_congr_left
      intro delegation hdelegation
      have hvalidator : delegation.2.1 = entry.1 := by simpa using (List.mem_filter.mp hdelegation).2
      simp [takenFrom, hvalidator, hvote]
    rw [hagainst, ownPower, if_pos hvote]
    exact hbounded _ _ _ hvote hpower
  · -- a validator of another side loses nothing from this one
    have hzero : (((votedDelegations votes).filter fun delegation => delegation.2.1 = entry.1).map
        (takenFrom votes · side)).sum = 0 := by
      apply List.sum_eq_zero
      intro taken htaken
      obtain ⟨delegation, hdelegation, rfl⟩ := List.mem_map.mp htaken
      have hvalidator : delegation.2.1 = entry.1 := by simpa using (List.mem_filter.mp hdelegation).2
      simp [takenFrom, hvalidator, hvote]
    rw [hzero]
    exact Nat.zero_le _

/-- Under the bounds both loops of `compute_proposal_result` succeed, and each
side holds what is attributed to it. -/
theorem tally_eq (hsame : votes.SameKeys) (hbounded : votes.DelegationsBounded)
    (hfit : votedPower votes < 2 ^ 256) :
    ∃ counted tally,
      votes.validatorVotingPower.entries.foldlM (countValidator votes) Tally.zero = some counted ∧
      votes.delegatorVotingPower.entries.foldlM (countDelegator votes) counted = some tally ∧
      ∀ side, tally.value side = attributedPower votes side := by
  unfold votedPower at hfit
  obtain ⟨counted, hcounted, hcountedValue, hcountedTotal⟩ :=
    foldlM_countValidator (by rw [Tally.total_zero]; omega :
      Tally.zero.total + (votes.validatorVotingPower.entries.map (votingPower votes)).sum < 2 ^ 256)
  -- after the validators, each side holds its validators' power
  have hown : ∀ side, counted.value side = validatorPower votes side := by
    intro side
    rw [hcountedValue, Tally.value_zero, Nat.zero_add]
    rfl
  have htaken : ∀ side, ((votedDelegations votes).map (takenFrom votes · side)).sum ≤ counted.value side := by
    intro side
    rw [hown]
    exact delegatedAway_le hsame hbounded side
  obtain ⟨tally, htally, htallyValue, -⟩ := foldlM_countVotedDelegation htaken
    (by rw [hcountedTotal, Tally.total_zero]; omega)
  refine ⟨counted, tally, hcounted, ?_, fun side => ?_⟩
  · rw [foldlM_countDelegator]
    exact htally
  · have hside := htallyValue side
    have hle := delegatedAway_le hsame hbounded side
    rw [hown] at hside
    unfold attributedPower delegatedAway delegatedTo at *
    omega

/-- What is attributed to a side fits in a `VotePower`. -/
theorem attributedPower_lt (hsame : votes.SameKeys) (hbounded : votes.DelegationsBounded)
    (hfit : votedPower votes < 2 ^ 256) (side : ProposalVote) : attributedPower votes side < 2 ^ 256 := by
  obtain ⟨_, tally, _, _, hvalue⟩ := tally_eq hsame hbounded hfit
  rw [← hvalue side]
  exact (tally.get side).raw.isLt

/-- Under the bounds `compute_proposal_result` is `TallyResult::new` on the
attributed totals. -/
theorem computeProposalResult_eq (hsame : votes.SameKeys) (hbounded : votes.DelegationsBounded)
    (hfit : votedPower votes < 2 ^ 256) (totalVotingPower : VotePower) (tallyType : TallyType) :
    computeProposalResult votes totalVotingPower tallyType =
      (TallyResult.new tallyType (attributedAmount votes .yay) (attributedAmount votes .nay)
        (attributedAmount votes .abstain) totalVotingPower).map fun result =>
          ⟨result, tallyType, totalVotingPower, attributedAmount votes .yay, attributedAmount votes .nay,
            attributedAmount votes .abstain⟩ := by
  obtain ⟨counted, tally, hcounted, htally, hvalue⟩ := tally_eq hsame hbounded hfit
  have hamount : ∀ side, tally.get side = attributedAmount votes side := fun side =>
    Amount.eq_mk_ofNat_of_toNat_eq (hvalue side)
  have hyay : tally.yay = attributedAmount votes .yay := hamount .yay
  have hnay : tally.nay = attributedAmount votes .nay := hamount .nay
  have habstain : tally.abstain = attributedAmount votes .abstain := hamount .abstain
  rw [computeProposalResult, hcounted, Option.bind_eq_bind, Option.bind_some, htally, Option.bind_eq_bind,
    Option.bind_some, hyay, hnay, habstain]
  cases TallyResult.new tallyType _ _ _ totalVotingPower <;> rfl

end Totals

/-! ## Any iteration order -/

section Reorder

variable {votes other : ProposalVotes Address}

theorem ProposalVotes.Reorders.validatorsVote_get (hreorders : votes.Reorders other) :
    other.validatorsVote.get = votes.validatorsVote.get :=
  funext fun key => (hreorders.validatorsVote.get_eq key).symm

/-- Reordered votes have the same voted delegations, in another order. -/
theorem ProposalVotes.Reorders.votedDelegations_perm (hreorders : votes.Reorders other) :
    (votedDelegations votes).Perm (votedDelegations other) := by
  have hdelegations : delegationsOf other = delegationsOf votes := by
    funext entry
    unfold delegationsOf
    rw [← hreorders.delegatorsVote.get_eq]
  unfold votedDelegations
  rw [hdelegations]
  refine hreorders.delegatorVotingPower.flatMap_perm (fun key inner =>
    match votes.delegatorsVote.get key with
    | some vote => inner.map fun delegation => (vote, delegation)
    | none => []) fun key first second hperm => ?_
  split
  · exact hperm.map _
  · exact List.Perm.refl _

theorem ProposalVotes.Reorders.attributedPower_eq (hreorders : votes.Reorders other)
    (side : ProposalVote) : attributedPower other side = attributedPower votes side := by
  have hvalidators : validatorPower other side = validatorPower votes side := by
    unfold validatorPower ownPower
    rw [hreorders.validatorsVote_get]
    exact ((hreorders.validatorVotingPower.map _).sum_eq).symm
  have haway : delegatedAway other side = delegatedAway votes side := by
    unfold delegatedAway takenFrom
    rw [hreorders.validatorsVote_get]
    exact ((hreorders.votedDelegations_perm.map _).sum_eq).symm
  have hto : delegatedTo other side = delegatedTo votes side := by
    unfold delegatedTo broughtTo
    rw [hreorders.validatorsVote_get]
    exact ((hreorders.votedDelegations_perm.map _).sum_eq).symm
  unfold attributedPower
  rw [hvalidators, haway, hto]

theorem ProposalVotes.Reorders.sameKeys (hreorders : votes.Reorders other) (hsame : votes.SameKeys) :
    other.SameKeys := fun validator => by
  rw [← hreorders.validatorsVote.get_eq, ← hreorders.validatorVotingPower.get_eq]
  exact hsame validator

theorem ProposalVotes.Reorders.delegationsBounded (hreorders : votes.Reorders other)
    (hbounded : votes.DelegationsBounded) : other.DelegationsBounded := by
  intro validator vote power hvote hpower
  have hagainst : delegatedAgainst other validator vote = delegatedAgainst votes validator vote := by
    unfold delegatedAgainst
    exact (((hreorders.votedDelegations_perm.filter _).map _).sum_eq).symm
  rw [hagainst]
  exact hbounded validator vote power (by rwa [hreorders.validatorsVote.get_eq])
    (by rwa [hreorders.validatorVotingPower.get_eq])

theorem ProposalVotes.Reorders.votedPower_eq (hreorders : votes.Reorders other) :
    votedPower other = votedPower votes := by
  unfold votedPower votingPower unclaimed
  rw [hreorders.validatorsVote_get, (hreorders.validatorVotingPower.map _).sum_eq,
    (hreorders.votedDelegations_perm.map _).sum_eq]

end Reorder

/-! ## Attribution -/

/-- When no validator has more power delegated against its vote than its own,
and the voted power fits in an `Amount`, no step of the two loops fails, each
side receives what is attributed to it, and the result is `TallyResult::new`
on those totals, whatever order each map is iterated in. -/
theorem proposalResult_of_bounded_delegations (votes : ProposalVotes Address)
    (totalVotingPower : VotePower) (tallyType : TallyType) (hsame : votes.SameKeys)
    (hbounded : votes.DelegationsBounded) (hfit : votedPower votes < 2 ^ 256) :
    (∀ side, delegatedAway votes side ≤ validatorPower votes side ∧
      attributedPower votes side < 2 ^ 256) ∧
    computeProposalResult votes totalVotingPower tallyType =
      (TallyResult.new tallyType (attributedAmount votes .yay) (attributedAmount votes .nay)
        (attributedAmount votes .abstain) totalVotingPower).map (fun result =>
          ⟨result, tallyType, totalVotingPower, attributedAmount votes .yay,
            attributedAmount votes .nay, attributedAmount votes .abstain⟩) ∧
    ∀ other : ProposalVotes Address, votes.Reorders other →
      computeProposalResult other totalVotingPower tallyType =
        computeProposalResult votes totalVotingPower tallyType := by
  refine ⟨fun side => ⟨delegatedAway_le hsame hbounded side, attributedPower_lt hsame hbounded hfit side⟩,
    computeProposalResult_eq hsame hbounded hfit totalVotingPower tallyType, fun other hreorders => ?_⟩
  -- both results are the one of the attributed totals, which the order does not change
  have hamount : ∀ side, attributedAmount other side = attributedAmount votes side := by
    intro side
    unfold attributedAmount
    rw [hreorders.attributedPower_eq]
  rw [computeProposalResult_eq (hreorders.sameKeys hsame) (hreorders.delegationsBounded hbounded)
      (by rwa [hreorders.votedPower_eq]),
    computeProposalResult_eq hsame hbounded hfit, hamount, hamount, hamount]

/-- Validator 1 votes yay with ten; delegator 2 votes nay, with three at
validator 1 and four at validator 5, which did not vote. -/
def splitVotes : ProposalVotes ℕ :=
  ((ProposalVotes.empty.addValidator 1 ⟨10⟩ .yay).addDelegator 2 1 ⟨3⟩ .nay).addDelegator 2 5 ⟨4⟩ .nay

theorem splitVotes_sameKeys : splitVotes.SameKeys :=
  ((ProposalVotes.sameKeys_empty.addValidator 1 ⟨10⟩ .yay).addDelegator 2 1 ⟨3⟩ .nay).addDelegator
    2 5 ⟨4⟩ .nay

theorem splitVotes_delegationsBounded : splitVotes.DelegationsBounded := by
  intro validator vote power hvote hpower
  simp [splitVotes, ProposalVotes.addDelegator, ProposalVotes.addValidator, ProposalVotes.empty] at hvote hpower
  obtain ⟨rfl, rfl⟩ := hvote
  obtain ⟨-, rfl⟩ := hpower
  decide

/-- Three of validator 1's ten go to nay, with the four delegated to validator
5: seven on each side. -/
theorem proposalResult_of_bounded_delegations_split :
    splitVotes.SameKeys ∧ splitVotes.DelegationsBounded ∧ votedPower splitVotes < 2 ^ 256 ∧
      computeProposalResult splitVotes ⟨20⟩ .twoThirds =
        some ⟨.rejected, .twoThirds, ⟨20⟩, ⟨7⟩, ⟨7⟩, ⟨0⟩⟩ := by
  have hfit : votedPower splitVotes < 2 ^ 256 := by decide
  refine ⟨splitVotes_sameKeys, splitVotes_delegationsBounded, hfit, ?_⟩
  rw [(proposalResult_of_bounded_delegations splitVotes ⟨20⟩ .twoThirds splitVotes_sameKeys
    splitVotes_delegationsBounded hfit).2.1, new_twoThirds, if_pos (by decide), if_neg (by decide)]
  rfl

/-- With no votes at all and the greatest total voting power, every bound holds
and `compute_proposal_result` still fails: `mul_ceil` of the total by two thirds
leaves 256 bits. -/
theorem proposalResult_fails_at_large_total :
    (ProposalVotes.empty : ProposalVotes ℕ).SameKeys ∧
      (ProposalVotes.empty : ProposalVotes ℕ).DelegationsBounded ∧
      votedPower (ProposalVotes.empty : ProposalVotes ℕ) < 2 ^ 256 ∧
      computeProposalResult (ProposalVotes.empty : ProposalVotes ℕ) ⟨BitVec.ofNat 256 (2 ^ 256 - 1)⟩
        .twoThirds = none := by
  refine ⟨ProposalVotes.sameKeys_empty, fun _ _ _ hvote => by simp [ProposalVotes.empty] at hvote,
    by decide, ?_⟩
  have hvoted : TallyResult.getTotalVotedPower Tally.zero.yay Tally.zero.nay Tally.zero.abstain =
      some Amount.zero := by decide
  have htotal : ¬(BitVec.ofNat 256 (2 ^ 256 - 1)).toNat * 666666666666 < 2 ^ 256 := by decide
  have hnew : TallyResult.new .twoThirds Tally.zero.yay Tally.zero.nay Tally.zero.abstain
      ⟨BitVec.ofNat 256 (2 ^ 256 - 1)⟩ = none :=
    new_twoThirds_of_threshold_none hvoted (Amount.mulCeil_of_not_lt Dec.twoThirds_raw htotal)
  simp only [computeProposalResult, ProposalVotes.empty, Bindings.empty, List.foldlM_nil, pure_bind,
    Option.bind_eq_bind, hnew, Option.bind_none]

end Namada.Governance
