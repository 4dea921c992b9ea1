/-
# End-of-epoch minting

Three steps mint native tokens when an epoch ends. Proof of stake credits the
epoch's inflation to the PoS account and what is left for rewards to PGF
(`update_rewards_products_and_mint_inflation`). PGF credits its inflation to
itself, pays its continuous fundings by transfers from its account, and credits
the stewards (`apply_inflation`). The MASP raises its balance of the native
token by the rewards it backs (`update_allowed_conversions`). The amounts are
computed from the effective supply and the parameters before these writes, and
are inputs here.

Credits keep the supply backed, and so do the PGF payments to other owners. A
payment from PGF to PGF raises the PGF balance with no credit, and the MASP step
writes a balance and not the supply: both leave more in balances than the
supply records.
-/

import Namada.Token.Storage

namespace Namada.Token

open Namada.Math
open Namada.Core (Amount Key)

variable {Address : Type} [DecidableEq Address] [InternalAddresses Address]

/-! ## Proof of stake -/

/-- The minting at the end of `update_rewards_products_and_mint_inflation`:
the inflation less what is left for rewards goes to PoS, and what is left, if
anything, to PGF. -/
def mintInflation (storage : Key Address → Option Amount) (stakingToken : Address)
    (inflation rewardTokensRemaining : Amount) :
    Except (Error Address) (Key Address → Option Amount) := do
  let posRewardTokens ← okOr (inflation.checkedSub rewardTokensRemaining) .insufficient
  let credited ← creditTokens storage stakingToken InternalAddresses.pos posRewardTokens
  if Amount.zero < rewardTokensRemaining then
    creditTokens credited stakingToken InternalAddresses.pgf rewardTokensRemaining
  else pure credited

/-! ## Public goods funding -/

/-- The target of a PGF payment (`PGFTarget`), with its amount. -/
inductive PGFTarget (Address : Type)
  /-- `PGFTarget::Internal`: an address of this chain. -/
  | internal (target : Address) (amount : Amount)
  /-- `PGFTarget::Ibc`: an address on another chain. -/
  | ibc (target : String) (amount : Amount)

/-- One continuous funding paid from the PGF account; a payment that fails
changes nothing, and `apply_inflation` goes on. -/
def payFunding
    (transferOverIbc : (Key Address → Option Amount) → String → Amount →
      Except (Error Address) (Key Address → Option Amount))
    (stakingToken : Address) (storage : Key Address → Option Amount) :
    PGFTarget Address → Key Address → Option Amount
  | .internal target amount =>
      match transfer storage stakingToken InternalAddresses.pgf target amount with
      | .ok next => next
      | .error _ => storage
  | .ibc target amount =>
      match transferOverIbc storage target amount with
      | .ok next => next
      | .error _ => storage

/-- `credit_tokens(..).is_ok()`: an error is not raised, and the writes made
before it stay. -/
def creditKeepingWrites (storage : Key Address → Option Amount) (token dest : Address)
    (amount : Amount) : Key Address → Option Amount :=
  match incrementBalance storage token dest amount with
  | .error _ => storage
  | .ok credited =>
      match incrementTotalSupply credited token amount with
      | .ok next => next
      | .error _ => credited

/-- `apply_inflation`: PGF's inflation and the stewards' rewards are computed
from the effective supply; the inflation is credited to PGF, the fundings paid
in order, and the stewards credited. -/
def applyInflation
    (transferOverIbc : (Key Address → Option Amount) → String → Amount →
      Except (Error Address) (Key Address → Option Amount))
    (storage : Key Address → Option Amount) (stakingToken : Address)
    (pgfInflation : Amount → Amount) (fundings : List (PGFTarget Address))
    (stewardRewards : Amount → List (Address × Amount)) :
    Except (Error Address) (Key Address → Option Amount) := do
  let totalSupply ← getEffectiveTotalNativeSupply storage stakingToken
  let credited ← creditTokens storage stakingToken InternalAddresses.pgf (pgfInflation totalSupply)
  let paid := fundings.foldl (payFunding transferOverIbc stakingToken) credited
  pure ((stewardRewards totalSupply).foldl
    (fun current reward => creditKeepingWrites current stakingToken reward.1 reward.2) paid)

/-! ## MASP -/

/-- The end of `update_allowed_conversions`: the MASP's balance of the native
token is raised by the rewards it backs, by a write to the balance key. -/
def updateMaspRewardBalance (storage : Key Address → Option Amount) (nativeToken : Address)
    (totalReward : Amount) : Except (Error Address) (Key Address → Option Amount) :=
  let rewardKey := balanceKey nativeToken InternalAddresses.masp
  let addrBal := (storage rewardKey).getD Amount.zero
  match addrBal.checkedAdd totalReward with
  | some newBal => .ok (write storage rewardKey newBal)
  | none => .error .balanceWithRewardOverflow

/-! ## Which steps keep the supply backed -/

namespace Backed

variable {storage next : Key Address → Option Amount} {token : Address} {owners : Finset Address}

/-- The PoS minting credits two owners, so it keeps the supply backed. -/
theorem mintInflation (hbacked : Backed storage token owners)
    (hpos : (InternalAddresses.pos : Address) ∈ owners)
    (hpgf : (InternalAddresses.pgf : Address) ∈ owners) {inflation remaining : Amount}
    (hmint : Token.mintInflation storage token inflation remaining = .ok next) :
    Backed next token owners := by
  obtain ⟨posRewardTokens, -, hrest⟩ := bind_eq_ok hmint
  obtain ⟨credited, hcredit, hrest⟩ := bind_eq_ok hrest
  have hcredited := hbacked.credit hpos hcredit
  by_cases hremaining : Amount.zero < remaining
  · rw [if_pos hremaining] at hrest
    exact hcredited.credit hpgf hrest
  · rw [if_neg hremaining] at hrest
    cases hrest
    exact hcredited

/-- A payment from PGF to another owner, or over IBC by a transfer that keeps the
supply backed, keeps it backed. -/
theorem payFunding
    {transferOverIbc : (Key Address → Option Amount) → String → Amount →
      Except (Error Address) (Key Address → Option Amount)}
    (hibc : ∀ {storage next : Key Address → Option Amount} target amount,
      Backed storage token owners → transferOverIbc storage target amount = .ok next →
        Backed next token owners ∧ readTotalSupply next token = readTotalSupply storage token)
    (hbacked : Backed storage token owners) {funding : PGFTarget Address}
    (htarget : ∀ target amount, funding = .internal target amount →
      target ≠ InternalAddresses.pgf ∧ target ∈ owners) :
    Backed (Token.payFunding transferOverIbc token storage funding) token owners ∧
      readTotalSupply (Token.payFunding transferOverIbc token storage funding) token =
        readTotalSupply storage token := by
  cases funding with
  | internal target amount =>
      obtain ⟨hne, hmem⟩ := htarget target amount rfl
      cases htransfer : Token.transfer storage token InternalAddresses.pgf target amount with
      | ok next =>
          have hpay : Token.payFunding transferOverIbc token storage (.internal target amount) =
              next := by
            simp only [Token.payFunding, htransfer]
          rw [hpay]
          refine ⟨hbacked.transfer (Ne.symm hne) hmem htransfer, ?_⟩
          -- a transfer writes balances only
          rcases transfer_cases htransfer with ⟨-, rfl⟩ | ⟨-, -, -, rfl⟩
          · rfl
          · simp only [readTotalSupply_write_balanceKey]
      | error err =>
          have hpay : Token.payFunding transferOverIbc token storage (.internal target amount) =
              storage := by
            simp only [Token.payFunding, htransfer]
          rw [hpay]
          exact ⟨hbacked, rfl⟩
  | ibc target amount =>
      cases htransfer : transferOverIbc storage target amount with
      | ok next =>
          have hpay : Token.payFunding transferOverIbc token storage (.ibc target amount) = next := by
            simp only [Token.payFunding, htransfer]
          rw [hpay]
          exact hibc target amount hbacked htransfer
      | error err =>
          have hpay : Token.payFunding transferOverIbc token storage (.ibc target amount) =
              storage := by
            simp only [Token.payFunding, htransfer]
          rw [hpay]
          exact ⟨hbacked, rfl⟩

/-- The fundings paid in order keep the supply backed and as it was. -/
theorem payFundings
    {transferOverIbc : (Key Address → Option Amount) → String → Amount →
      Except (Error Address) (Key Address → Option Amount)}
    (hibc : ∀ {storage next : Key Address → Option Amount} target amount,
      Backed storage token owners → transferOverIbc storage target amount = .ok next →
        Backed next token owners ∧ readTotalSupply next token = readTotalSupply storage token) :
    ∀ {fundings : List (PGFTarget Address)} {storage : Key Address → Option Amount},
      Backed storage token owners →
      (∀ funding ∈ fundings, ∀ target amount, funding = .internal target amount →
        target ≠ InternalAddresses.pgf ∧ target ∈ owners) →
      Backed (fundings.foldl (Token.payFunding transferOverIbc token) storage) token owners ∧
        readTotalSupply (fundings.foldl (Token.payFunding transferOverIbc token) storage) token =
          readTotalSupply storage token
  | [], _, hbacked, _ => ⟨hbacked, rfl⟩
  | funding :: fundings, _, hbacked, htargets => by
      obtain ⟨hpaid, hsupply⟩ := hbacked.payFunding hibc (htargets funding List.mem_cons_self)
      obtain ⟨hrest, hrestSupply⟩ :=
        payFundings hibc hpaid fun other hother => htargets other (List.mem_cons_of_mem _ hother)
      exact ⟨hrest, hrestSupply.trans hsupply⟩

/-- A balance of a backed token is at most its supply. -/
theorem readBalance_le_supply (hbacked : Backed storage token owners) (owner : Address) :
    (readBalance storage token owner).raw.toNat ≤ (readTotalSupply storage token).raw.toNat := by
  rw [hbacked.supply]
  by_cases howner : owner ∈ owners
  · exact toNat_le_balanceSum howner
  · rw [hbacked.outside owner howner]
    exact Nat.zero_le _

/-- A steward credit with room in the supply succeeds, so it keeps the supply
backed, and raises the supply by the reward. -/
theorem creditKeepingWrites (hbacked : Backed storage token owners) {dest : Address}
    (hdest : dest ∈ owners) {amount : Amount}
    (hroom : (readTotalSupply storage token).raw.toNat + amount.raw.toNat < 2 ^ 256) :
    Backed (Token.creditKeepingWrites storage token dest amount) token owners ∧
      (readTotalSupply (Token.creditKeepingWrites storage token dest amount) token).raw.toNat =
        (readTotalSupply storage token).raw.toNat + amount.raw.toNat := by
  -- the balance is at most the supply, so neither addition overflows
  have hbalance : (readBalance storage token dest).raw.toNat + amount.raw.toNat < 2 ^ 256 :=
    Nat.lt_of_le_of_lt (Nat.add_le_add_right (hbacked.readBalance_le_supply dest) _) hroom
  have hcredit := creditTokens_eq hbalance hroom
  have hkeeping : Token.creditKeepingWrites storage token dest amount =
      write (write storage (balanceKey token dest)
          ⟨(readBalance storage token dest).raw + amount.raw⟩)
        (mintedBalanceKey token) ⟨(readTotalSupply storage token).raw + amount.raw⟩ := by
    have hroom' : (readTotalSupply (write storage (balanceKey token dest)
        ⟨(readBalance storage token dest).raw + amount.raw⟩) token).raw.toNat + amount.raw.toNat <
          2 ^ 256 := by
      rwa [readTotalSupply_write_balanceKey]
    simp only [Token.creditKeepingWrites, incrementBalance_eq hbalance,
      incrementTotalSupply_eq hroom', readTotalSupply_write_balanceKey]
  refine ⟨hbacked.credit hdest (hkeeping ▸ hcredit), ?_⟩
  rw [hkeeping, readTotalSupply_write_mintedBalanceKey, Amount.toNat_add_of_lt hroom]

/-- Steward credits with room in the supply for all of them keep it backed. -/
theorem creditStewards :
    ∀ {rewards : List (Address × Amount)} {storage : Key Address → Option Amount},
      Backed storage token owners → (∀ reward ∈ rewards, reward.1 ∈ owners) →
      (readTotalSupply storage token).raw.toNat + (rewards.map fun reward => reward.2.raw.toNat).sum <
        2 ^ 256 →
      Backed (rewards.foldl (fun current reward =>
        Token.creditKeepingWrites current token reward.1 reward.2) storage) token owners
  | [], _, hbacked, _, _ => hbacked
  | reward :: rewards, _, hbacked, hdests, hroom => by
      rw [List.map_cons, List.sum_cons] at hroom
      obtain ⟨hcredited, hsupply⟩ := hbacked.creditKeepingWrites (hdests reward List.mem_cons_self)
        (by omega : _ + reward.2.raw.toNat < 2 ^ 256)
      rw [List.foldl_cons]
      exact creditStewards hcredited (fun other hother => hdests other (List.mem_cons_of_mem _ hother))
        (by rw [hsupply]; omega)

/-- `apply_inflation` keeps the supply backed when no funding pays PGF itself,
every target and steward is one of `owners`, IBC payments keep it backed, and the
supply has room for everything minted. -/
theorem applyInflation
    {transferOverIbc : (Key Address → Option Amount) → String → Amount →
      Except (Error Address) (Key Address → Option Amount)}
    (hibc : ∀ {storage next : Key Address → Option Amount} target amount,
      Backed storage token owners → transferOverIbc storage target amount = .ok next →
        Backed next token owners ∧ readTotalSupply next token = readTotalSupply storage token)
    (hbacked : Backed storage token owners)
    (hpgf : (InternalAddresses.pgf : Address) ∈ owners) {pgfInflation : Amount → Amount}
    {fundings : List (PGFTarget Address)} {stewardRewards : Amount → List (Address × Amount)}
    (htargets : ∀ funding ∈ fundings, ∀ target amount, funding = .internal target amount →
      target ≠ InternalAddresses.pgf ∧ target ∈ owners)
    (hstewards : ∀ totalSupply, ∀ reward ∈ stewardRewards totalSupply, reward.1 ∈ owners)
    (hroom : ∀ totalSupply, (readTotalSupply storage token).raw.toNat +
      (pgfInflation totalSupply).raw.toNat +
        ((stewardRewards totalSupply).map fun reward => reward.2.raw.toNat).sum < 2 ^ 256)
    (happly : Token.applyInflation transferOverIbc storage token pgfInflation fundings stewardRewards =
      .ok next) :
    Backed next token owners := by
  obtain ⟨totalSupply, -, hrest⟩ := bind_eq_ok happly
  obtain ⟨credited, hcredit, hrest⟩ := bind_eq_ok hrest
  cases hrest
  have hroomSupply := hroom totalSupply
  obtain ⟨-, -, hcredited⟩ := creditTokens_cases hcredit
  have hcreditedBacked := hbacked.credit hpgf hcredit
  -- the credit raised the supply by the inflation, and the payments kept it
  have hcreditedSupply : (readTotalSupply credited token).raw.toNat =
      (readTotalSupply storage token).raw.toNat + (pgfInflation totalSupply).raw.toNat := by
    obtain ⟨-, hsupplyRoom, -⟩ := creditTokens_cases hcredit
    rw [hcredited, readTotalSupply_write_mintedBalanceKey, Amount.toNat_add_of_lt hsupplyRoom]
  obtain ⟨hpaid, hpaidSupply⟩ := payFundings hibc hcreditedBacked htargets
  exact creditStewards hpaid (hstewards totalSupply) (by rw [hpaidSupply, hcreditedSupply]; omega)

end Backed

/-! ## Where the supply falls behind the balances -/

section Unbacked

variable {storage next : Key Address → Option Amount} {token : Address}

/-- No set of owners backs a supply below the balance of one owner. -/
theorem not_backed_of_lt {owner : Address}
    (hlt : (readTotalSupply storage token).raw.toNat < (readBalance storage token owner).raw.toNat)
    (owners : Finset Address) : ¬Backed storage token owners := fun hbacked =>
  absurd (hbacked.readBalance_le_supply owner) (Nat.not_le.mpr hlt)

/-- A payment from PGF to PGF raises the PGF balance by the amount, and leaves
the supply as it was. -/
theorem payFunding_pgf_self
    {transferOverIbc : (Key Address → Option Amount) → String → Amount →
      Except (Error Address) (Key Address → Option Amount)} {amount : Amount}
    (htransfer : transfer storage token InternalAddresses.pgf InternalAddresses.pgf amount =
      .ok next) :
    payFunding transferOverIbc token storage (.internal InternalAddresses.pgf amount) = next ∧
      (readBalance next token InternalAddresses.pgf).raw.toNat =
        (readBalance storage token InternalAddresses.pgf).raw.toNat + amount.raw.toNat ∧
      readTotalSupply next token = readTotalSupply storage token := by
  refine ⟨?_, transfer_self htransfer⟩
  simp only [payFunding, htransfer]

/-- A continuous funding whose internal target is PGF itself, over a supply of
ten held by PGF: the transfer of five succeeds, PGF then holds fifteen against a
supply of ten, no set of owners backs the supply, and the next
`get_effective_total_native_supply` panics. -/
theorem pgfSelfFunding_outgrows_supply (token : Address)
    (transferOverIbc : (Key Address → Option Amount) → String → Amount →
      Except (Error Address) (Key Address → Option Amount)) :
    Backed (heldWhole token InternalAddresses.pgf ⟨10⟩) token {InternalAddresses.pgf} ∧
      ∃ next, payFunding transferOverIbc token (heldWhole token InternalAddresses.pgf ⟨10⟩)
          (.internal InternalAddresses.pgf ⟨5⟩) = next ∧
        transfer (heldWhole token InternalAddresses.pgf ⟨10⟩) token InternalAddresses.pgf
          InternalAddresses.pgf ⟨5⟩ = .ok next ∧
        readBalance next token InternalAddresses.pgf = ⟨15⟩ ∧
        readTotalSupply next token = ⟨10⟩ ∧
        (∀ owners, ¬Backed next token owners) ∧
        getEffectiveTotalNativeSupply next token = .error .panic := by
  have hbalance := readBalance_heldWhole token InternalAddresses.pgf ⟨10⟩
  -- source and destination are both read as ten before either write
  obtain ⟨next, htransfer, hnext⟩ : ∃ next, transfer (heldWhole token InternalAddresses.pgf ⟨10⟩)
      token InternalAddresses.pgf InternalAddresses.pgf ⟨5⟩ = .ok next ∧
      next = write (write (heldWhole token InternalAddresses.pgf ⟨10⟩)
        (balanceKey token InternalAddresses.pgf) ⟨10 - 5⟩)
          (balanceKey token InternalAddresses.pgf) ⟨10 + 5⟩ :=
    ⟨_, transfer_eq (by decide) (by rw [hbalance]; decide) (by rw [hbalance]; decide),
      by rw [hbalance]⟩
  obtain ⟨hpay, -, hsame⟩ := payFunding_pgf_self htransfer
  have hnextBalance : readBalance next token InternalAddresses.pgf = ⟨15⟩ := by
    rw [hnext, readBalance_write_balanceKey]
    rfl
  rw [readTotalSupply_heldWhole] at hsame
  have hlt : readTotalSupply next token < readBalance next token InternalAddresses.pgf := by
    rw [hsame, hnextBalance]
    decide
  exact ⟨Backed.of_heldWhole _ _, next, hpay, htransfer, hnextBalance, hsame,
    fun owners => not_backed_of_lt (Amount.lt_iff_toNat_lt.mp hlt) owners,
    getEffectiveTotalNativeSupply_of_lt hlt⟩

/-- The MASP step writes the MASP balance raised by the reward, and not the supply. -/
theorem updateMaspRewardBalance_eq {totalReward : Amount}
    (hfit : (readBalance storage token InternalAddresses.masp).raw.toNat + totalReward.raw.toNat <
      2 ^ 256) :
    updateMaspRewardBalance storage token totalReward =
      .ok (write storage (balanceKey token InternalAddresses.masp)
        ⟨(readBalance storage token InternalAddresses.masp).raw + totalReward.raw⟩) := by
  unfold updateMaspRewardBalance
  show (match (readBalance storage token InternalAddresses.masp).checkedAdd totalReward with
    | some newBal => _ | none => _) = _
  rw [Amount.checkedAdd_of_lt hfit]

theorem updateMaspRewardBalance_of_not_lt {totalReward : Amount}
    (hfit : ¬(readBalance storage token InternalAddresses.masp).raw.toNat +
      totalReward.raw.toNat < 2 ^ 256) :
    updateMaspRewardBalance storage token totalReward = .error .balanceWithRewardOverflow := by
  unfold updateMaspRewardBalance
  show (match (readBalance storage token InternalAddresses.masp).checkedAdd totalReward with
    | some newBal => _ | none => _) = _
  rw [Amount.checkedAdd_of_not_lt hfit]

/-- Over a backed supply, the MASP step leaves the supply as it was and the
balances summing to the supply plus the reward. -/
theorem balanceSum_updateMaspRewardBalance {owners : Finset Address}
    (hbacked : Backed storage token owners) (hmasp : (InternalAddresses.masp : Address) ∈ owners)
    {totalReward : Amount} (hupdate : updateMaspRewardBalance storage token totalReward = .ok next) :
    balanceSum next token owners = (readTotalSupply next token).raw.toNat + totalReward.raw.toNat ∧
      readTotalSupply next token = readTotalSupply storage token := by
  by_cases hfit : (readBalance storage token InternalAddresses.masp).raw.toNat +
      totalReward.raw.toNat < 2 ^ 256
  · rw [updateMaspRewardBalance_eq hfit] at hupdate
    cases hupdate
    have hsum := balanceSum_write storage token hmasp
      ⟨(readBalance storage token InternalAddresses.masp).raw + totalReward.raw⟩
    rw [Amount.toNat_add_of_lt hfit] at hsum
    rw [readTotalSupply_write_balanceKey, hbacked.supply]
    exact ⟨by omega, rfl⟩
  · rw [updateMaspRewardBalance_of_not_lt hfit] at hupdate
    cases hupdate

/-- The MASP step over a supply of a hundred held by the MASP, with a reward of
ten: the MASP then holds a hundred and ten against a supply of a hundred, and no
set of owners backs the supply. -/
theorem maspReward_outgrows_supply (token : Address) :
    Backed (heldWhole token InternalAddresses.masp ⟨100⟩) token {InternalAddresses.masp} ∧
      ∃ next, updateMaspRewardBalance (heldWhole token InternalAddresses.masp ⟨100⟩) token ⟨10⟩ =
          .ok next ∧
        readBalance next token InternalAddresses.masp = ⟨110⟩ ∧
        readTotalSupply next token = ⟨100⟩ ∧
        ∀ owners, ¬Backed next token owners := by
  have hbalance := readBalance_heldWhole token InternalAddresses.masp ⟨100⟩
  have hfit : (readBalance (heldWhole token InternalAddresses.masp ⟨100⟩) token
      InternalAddresses.masp).raw.toNat + (⟨10⟩ : Amount).raw.toNat < 2 ^ 256 := by
    rw [hbalance]
    decide
  obtain ⟨next, hupdate, hnext⟩ : ∃ next,
      updateMaspRewardBalance (heldWhole token InternalAddresses.masp ⟨100⟩) token ⟨10⟩ =
        .ok next ∧
      next = write (heldWhole token InternalAddresses.masp ⟨100⟩)
        (balanceKey token InternalAddresses.masp) ⟨100 + 10⟩ :=
    ⟨_, updateMaspRewardBalance_eq hfit, by rw [hbalance]⟩
  have hnextBalance : readBalance next token InternalAddresses.masp = ⟨110⟩ := by
    rw [hnext, readBalance_write_balanceKey]
    rfl
  have hnextSupply : readTotalSupply next token = ⟨100⟩ := by
    rw [hnext, readTotalSupply_write_balanceKey, readTotalSupply_heldWhole]
  have hlt : readTotalSupply next token < readBalance next token InternalAddresses.masp := by
    rw [hnextSupply, hnextBalance]
    decide
  exact ⟨Backed.of_heldWhole _ _, next, hupdate, hnextBalance, hnextSupply,
    fun owners => not_backed_of_lt (Amount.lt_iff_toNat_lt.mp hlt) owners⟩

end Unbacked

end Namada.Token
