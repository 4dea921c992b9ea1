/-
# Balances and supply of `trans_token`

`trans_token/src/storage.rs`: the balance of an owner is an amount under
`#multitoken/<token>/balance/<owner>`, the minted supply of a token an amount
under `#multitoken/<token>/balance/minted`, and a key with no value reads as
zero. `transfer` reads the balances of source and destination before it writes
either; `credit_tokens` raises one balance and the supply; `burn_tokens` lowers
one balance, and the supply by what it took.

A token's supply is backed when it is the sum of the balances, all of them held
within a finite set of owners (`Backed`). Credit, burn, and a transfer between
two different owners keep it backed; a transfer from an owner to itself raises
that owner's balance by the amount and leaves the supply as it was.
-/

import Mathlib
import Namada.Core.Token
import Namada.Math.Except

namespace Namada.Token

open Namada.Math
open Namada.Core (Amount Key DbKeySeg)

/-- The internal addresses the token functions and the minting steps name. -/
class InternalAddresses (Address : Type) where
  /-- `InternalAddress::Multitoken`. -/
  multitoken : Address
  /-- `InternalAddress::Pgf`. -/
  pgf : Address
  /-- `InternalAddress::PoS`. -/
  pos : Address
  /-- `InternalAddress::Masp`. -/
  masp : Address

/-- `BALANCE_STORAGE_KEY`. -/
def balanceStorageKey : String := "balance"

/-- `MINTED_STORAGE_KEY`. -/
def mintedStorageKey : String := "minted"

/-- The errors of the token functions. -/
inductive Error (Address : Type)
  /-- "`src` has insufficient balance". -/
  | insufficientBalance (src : Address)
  /-- "The transfer would overflow balance of `dest`". -/
  | transferOverflow (dest : Address)
  /-- `AmountError::Overflow`. -/
  | overflow
  /-- `AmountError::Insufficient`. -/
  | insufficient
  /-- "Balance with reward overflow", of the MASP reward step. -/
  | balanceWithRewardOverflow
  /-- The source panics. -/
  | panic
  deriving DecidableEq

/-- `Option::ok_or`. -/
def okOr {α ε : Type} : Option α → ε → Except ε α
  | some value, _ => .ok value
  | none, err => .error err

variable {Address : Type} [InternalAddresses Address]

/-! ## Keys -/

/-- `balance_prefix`. -/
def balancePrefix (token : Address) : Key Address :=
  ⟨[.addressSeg InternalAddresses.multitoken, .addressSeg token, .stringSeg balanceStorageKey]⟩

/-- `balance_key`. -/
def balanceKey (token owner : Address) : Key Address :=
  ⟨(balancePrefix token).segments ++ [.addressSeg owner]⟩

/-- `minted_balance_key`. -/
def mintedBalanceKey (token : Address) : Key Address :=
  ⟨(balancePrefix token).segments ++ [.stringSeg mintedStorageKey]⟩

theorem balanceKey_eq_iff {token token' owner owner' : Address} :
    balanceKey token owner = balanceKey token' owner' ↔ token = token' ∧ owner = owner' := by
  constructor
  · intro heq
    simpa [balanceKey, balancePrefix] using heq
  · rintro ⟨rfl, rfl⟩
    rfl

theorem balanceKey_ne_mintedBalanceKey (token owner token' : Address) :
    balanceKey token owner ≠ mintedBalanceKey token' := by
  simp [balanceKey, mintedBalanceKey, balancePrefix]

/-! ## Storage -/

variable [DecidableEq Address]

/-- `StorageWrite::write` of an amount. -/
def write (storage : Key Address → Option Amount) (key : Key Address) (value : Amount) :
    Key Address → Option Amount :=
  Function.update storage key (some value)

/-- `read_balance`: the balance, zero where none is stored. -/
def readBalance (storage : Key Address → Option Amount) (token owner : Address) : Amount :=
  (storage (balanceKey token owner)).getD Amount.zero

/-- `read_total_supply`. -/
def readTotalSupply (storage : Key Address → Option Amount) (token : Address) : Amount :=
  (storage (mintedBalanceKey token)).getD Amount.zero

/-- `update_balance`. -/
def updateBalance (storage : Key Address → Option Amount) (token owner : Address)
    (f : Amount → Except (Error Address) Amount) :
    Except (Error Address) (Key Address → Option Amount) := do
  let key := balanceKey token owner
  let balance := (storage key).getD Amount.zero
  let newBalance ← f balance
  pure (write storage key newBalance)

/-- `increment_balance`. -/
def incrementBalance (storage : Key Address → Option Amount) (token owner : Address)
    (amount : Amount) : Except (Error Address) (Key Address → Option Amount) :=
  updateBalance storage token owner fun current => okOr (current.checkedAdd amount) .overflow

/-- `update_total_supply`. -/
def updateTotalSupply (storage : Key Address → Option Amount) (token : Address)
    (f : Amount → Except (Error Address) Amount) :
    Except (Error Address) (Key Address → Option Amount) := do
  let key := mintedBalanceKey token
  let totalSupply := (storage key).getD Amount.zero
  let newSupply ← f totalSupply
  pure (write storage key newSupply)

/-- `increment_total_supply`. -/
def incrementTotalSupply (storage : Key Address → Option Amount) (token : Address)
    (amount : Amount) : Except (Error Address) (Key Address → Option Amount) :=
  updateTotalSupply storage token fun current => okOr (current.checkedAdd amount) .overflow

/-- `decrement_total_supply`. -/
def decrementTotalSupply (storage : Key Address → Option Amount) (token : Address)
    (amount : Amount) : Except (Error Address) (Key Address → Option Amount) :=
  updateTotalSupply storage token fun current => okOr (current.checkedSub amount) .insufficient

/-- `transfer`: both balances are read before either is written. -/
def transfer (storage : Key Address → Option Amount) (token src dest : Address)
    (amount : Amount) : Except (Error Address) (Key Address → Option Amount) :=
  if amount = Amount.zero then .ok storage
  else
    let srcKey := balanceKey token src
    let srcBalance := readBalance storage token src
    match srcBalance.checkedSub amount with
    | some newSrcBalance =>
        let destKey := balanceKey token dest
        let destBalance := readBalance storage token dest
        match destBalance.checkedAdd amount with
        | some newDestBalance =>
            .ok (write (write storage srcKey newSrcBalance) destKey newDestBalance)
        | none => .error (.transferOverflow dest)
    | none => .error (.insufficientBalance src)

/-- `credit_tokens`: the balance, then the supply. -/
def creditTokens (storage : Key Address → Option Amount) (token dest : Address)
    (amount : Amount) : Except (Error Address) (Key Address → Option Amount) := do
  let credited ← incrementBalance storage token dest amount
  incrementTotalSupply credited token amount

/-- `burn_tokens`: all of a smaller balance is burned, and the supply lowered by
what was burned. -/
def burnTokens (storage : Key Address → Option Amount) (token source : Address)
    (amount : Amount) : Except (Error Address) (Key Address → Option Amount) :=
  let sourceBalanceKey := balanceKey token source
  let sourceBalance := readBalance storage token source
  match sourceBalance.checkedSub amount with
  | some newAmount => decrementTotalSupply (write storage sourceBalanceKey newAmount) token amount
  | none => decrementTotalSupply (write storage sourceBalanceKey Amount.zero) token sourceBalance

/-- `get_effective_total_native_supply`: the supply less the PGF balance, with
`expect` that the balance is not larger. -/
def getEffectiveTotalNativeSupply (storage : Key Address → Option Amount)
    (nativeToken : Address) : Except (Error Address) Amount :=
  let rawTotal := readTotalSupply storage nativeToken
  let pgfBalance := readBalance storage nativeToken InternalAddresses.pgf
  match rawTotal.checkedSub pgfBalance with
  | some effective => .ok effective
  | none => .error .panic

/-! ## Reads after writes -/

section Reads

variable {storage : Key Address → Option Amount}

@[simp] theorem readBalance_write_balanceKey (token owner : Address) (value : Amount) :
    readBalance (write storage (balanceKey token owner) value) token owner = value := by
  simp [readBalance, write]

theorem readBalance_write_of_ne {token owner token' owner' : Address} (value : Amount)
    (hne : ¬(token' = token ∧ owner' = owner)) :
    readBalance (write storage (balanceKey token owner) value) token' owner' =
      readBalance storage token' owner' := by
  have hkey : balanceKey token' owner' ≠ balanceKey token owner :=
    fun heq => hne (balanceKey_eq_iff.mp heq)
  simp [readBalance, write, Function.update_of_ne hkey]

@[simp] theorem readBalance_write_mintedBalanceKey (token token' owner : Address) (value : Amount) :
    readBalance (write storage (mintedBalanceKey token) value) token' owner =
      readBalance storage token' owner := by
  simp [readBalance, write, Function.update_of_ne (balanceKey_ne_mintedBalanceKey token' owner token)]

@[simp] theorem readTotalSupply_write_balanceKey (token owner token' : Address) (value : Amount) :
    readTotalSupply (write storage (balanceKey token owner) value) token' =
      readTotalSupply storage token' := by
  simp [readTotalSupply, write,
    Function.update_of_ne (balanceKey_ne_mintedBalanceKey token owner token').symm]

@[simp] theorem readTotalSupply_write_mintedBalanceKey (token : Address) (value : Amount) :
    readTotalSupply (write storage (mintedBalanceKey token) value) token = value := by
  simp [readTotalSupply, write]

/-- The storage in which `owner` holds the whole supply `value` of `token`, and
nothing else is stored. -/
def heldWhole (token owner : Address) (value : Amount) : Key Address → Option Amount :=
  write (write (fun _ => none) (balanceKey token owner) value) (mintedBalanceKey token) value

@[simp] theorem readBalance_heldWhole (token owner : Address) (value : Amount) :
    readBalance (heldWhole token owner value) token owner = value := by
  simp only [heldWhole, readBalance_write_mintedBalanceKey, readBalance_write_balanceKey]

@[simp] theorem readTotalSupply_heldWhole (token owner : Address) (value : Amount) :
    readTotalSupply (heldWhole token owner value) token = value := by
  simp only [heldWhole, readTotalSupply_write_mintedBalanceKey]

end Reads

/-! ## What each function does -/

section Specs

variable {storage : Key Address → Option Amount}

theorem incrementBalance_eq {token owner : Address} {amount : Amount}
    (hfit : (readBalance storage token owner).raw.toNat + amount.raw.toNat < 2 ^ 256) :
    incrementBalance storage token owner amount = .ok (write storage (balanceKey token owner)
      ⟨(readBalance storage token owner).raw + amount.raw⟩) := by
  rw [incrementBalance, updateBalance]
  show (okOr ((readBalance storage token owner).checkedAdd amount) Error.overflow >>= _) = _
  rw [Amount.checkedAdd_of_lt hfit]
  rfl

theorem incrementBalance_of_not_lt {token owner : Address} {amount : Amount}
    (hfit : ¬(readBalance storage token owner).raw.toNat + amount.raw.toNat < 2 ^ 256) :
    incrementBalance storage token owner amount = .error .overflow := by
  rw [incrementBalance, updateBalance]
  show (okOr ((readBalance storage token owner).checkedAdd amount) Error.overflow >>= _) = _
  rw [Amount.checkedAdd_of_not_lt hfit]
  rfl

theorem incrementTotalSupply_eq {token : Address} {amount : Amount}
    (hfit : (readTotalSupply storage token).raw.toNat + amount.raw.toNat < 2 ^ 256) :
    incrementTotalSupply storage token amount = .ok (write storage (mintedBalanceKey token)
      ⟨(readTotalSupply storage token).raw + amount.raw⟩) := by
  rw [incrementTotalSupply, updateTotalSupply]
  show (okOr ((readTotalSupply storage token).checkedAdd amount) Error.overflow >>= _) = _
  rw [Amount.checkedAdd_of_lt hfit]
  rfl

theorem incrementTotalSupply_of_not_lt {token : Address} {amount : Amount}
    (hfit : ¬(readTotalSupply storage token).raw.toNat + amount.raw.toNat < 2 ^ 256) :
    incrementTotalSupply storage token amount = .error .overflow := by
  rw [incrementTotalSupply, updateTotalSupply]
  show (okOr ((readTotalSupply storage token).checkedAdd amount) Error.overflow >>= _) = _
  rw [Amount.checkedAdd_of_not_lt hfit]
  rfl

/-- A transfer of a nonzero amount the source holds, that does not overflow the
destination, writes the source's balance less the amount and then the
destination's balance, as read before the first write, plus the amount. -/
theorem transfer_eq {token src dest : Address} {amount : Amount} (hzero : amount ≠ Amount.zero)
    (hle : amount ≤ readBalance storage token src)
    (hfit : (readBalance storage token dest).raw.toNat + amount.raw.toNat < 2 ^ 256) :
    transfer storage token src dest amount =
      .ok (write (write storage (balanceKey token src)
          ⟨(readBalance storage token src).raw - amount.raw⟩)
        (balanceKey token dest) ⟨(readBalance storage token dest).raw + amount.raw⟩) := by
  rw [transfer, if_neg hzero]
  simp only [Amount.checkedSub_of_le hle, Amount.checkedAdd_of_lt hfit]

/-- A transfer that succeeds moved nothing, or a nonzero amount the source held
and the destination could take. -/
theorem transfer_cases {token src dest : Address} {amount : Amount}
    {next : Key Address → Option Amount}
    (htransfer : transfer storage token src dest amount = .ok next) :
    (amount = Amount.zero ∧ next = storage) ∨
      (amount ≠ Amount.zero ∧ amount ≤ readBalance storage token src ∧
        (readBalance storage token dest).raw.toNat + amount.raw.toNat < 2 ^ 256 ∧
        next = write (write storage (balanceKey token src)
            ⟨(readBalance storage token src).raw - amount.raw⟩)
          (balanceKey token dest) ⟨(readBalance storage token dest).raw + amount.raw⟩) := by
  by_cases hzero : amount = Amount.zero
  · rw [transfer, if_pos hzero] at htransfer
    exact Or.inl ⟨hzero, (Except.ok.inj htransfer).symm⟩
  by_cases hle : amount ≤ readBalance storage token src
  · by_cases hfit : (readBalance storage token dest).raw.toNat + amount.raw.toNat < 2 ^ 256
    · rw [transfer_eq hzero hle hfit] at htransfer
      exact Or.inr ⟨hzero, hle, hfit, (Except.ok.inj htransfer).symm⟩
    · -- the destination would overflow
      rw [transfer, if_neg hzero] at htransfer
      simp only [Amount.checkedSub_of_le hle, Amount.checkedAdd_of_not_lt hfit] at htransfer
      cases htransfer
  · -- the source does not hold the amount
    rw [transfer, if_neg hzero] at htransfer
    simp only [Amount.checkedSub_of_not_le hle] at htransfer
    cases htransfer

/-- Crediting raises the balance and then the supply, each by the amount. -/
theorem creditTokens_eq {token dest : Address} {amount : Amount}
    (hbalance : (readBalance storage token dest).raw.toNat + amount.raw.toNat < 2 ^ 256)
    (hsupply : (readTotalSupply storage token).raw.toNat + amount.raw.toNat < 2 ^ 256) :
    creditTokens storage token dest amount =
      .ok (write (write storage (balanceKey token dest)
          ⟨(readBalance storage token dest).raw + amount.raw⟩)
        (mintedBalanceKey token) ⟨(readTotalSupply storage token).raw + amount.raw⟩) := by
  have hsupply' : (readTotalSupply (write storage (balanceKey token dest)
      ⟨(readBalance storage token dest).raw + amount.raw⟩) token).raw.toNat + amount.raw.toNat <
        2 ^ 256 := by
    rwa [readTotalSupply_write_balanceKey]
  rw [creditTokens, incrementBalance_eq hbalance, ok_bind, incrementTotalSupply_eq hsupply',
    readTotalSupply_write_balanceKey]

/-- A credit that succeeds did not overflow the balance or the supply. -/
theorem creditTokens_cases {token dest : Address} {amount : Amount}
    {next : Key Address → Option Amount}
    (hcredit : creditTokens storage token dest amount = .ok next) :
    (readBalance storage token dest).raw.toNat + amount.raw.toNat < 2 ^ 256 ∧
      (readTotalSupply storage token).raw.toNat + amount.raw.toNat < 2 ^ 256 ∧
      next = write (write storage (balanceKey token dest)
          ⟨(readBalance storage token dest).raw + amount.raw⟩)
        (mintedBalanceKey token) ⟨(readTotalSupply storage token).raw + amount.raw⟩ := by
  by_cases hbalance : (readBalance storage token dest).raw.toNat + amount.raw.toNat < 2 ^ 256
  · by_cases hsupply : (readTotalSupply storage token).raw.toNat + amount.raw.toNat < 2 ^ 256
    · rw [creditTokens_eq hbalance hsupply] at hcredit
      exact ⟨hbalance, hsupply, (Except.ok.inj hcredit).symm⟩
    · -- the balance is raised, and then the supply overflows
      have hsupply' : ¬(readTotalSupply (write storage (balanceKey token dest)
          ⟨(readBalance storage token dest).raw + amount.raw⟩) token).raw.toNat +
            amount.raw.toNat < 2 ^ 256 := by
        rwa [readTotalSupply_write_balanceKey]
      rw [creditTokens, incrementBalance_eq hbalance, ok_bind,
        incrementTotalSupply_of_not_lt hsupply'] at hcredit
      cases hcredit
  · rw [creditTokens, incrementBalance_of_not_lt hbalance, error_bind] at hcredit
    cases hcredit

theorem decrementTotalSupply_eq {token : Address} {amount : Amount}
    (hle : amount ≤ readTotalSupply storage token) :
    decrementTotalSupply storage token amount = .ok (write storage (mintedBalanceKey token)
      ⟨(readTotalSupply storage token).raw - amount.raw⟩) := by
  rw [decrementTotalSupply, updateTotalSupply]
  show (okOr ((readTotalSupply storage token).checkedSub amount) Error.insufficient >>= _) = _
  rw [Amount.checkedSub_of_le hle]
  rfl

theorem decrementTotalSupply_cases {token : Address} {amount : Amount}
    {next : Key Address → Option Amount}
    (hdecrement : decrementTotalSupply storage token amount = .ok next) :
    amount ≤ readTotalSupply storage token ∧
      next = write storage (mintedBalanceKey token)
        ⟨(readTotalSupply storage token).raw - amount.raw⟩ := by
  by_cases hle : amount ≤ readTotalSupply storage token
  · rw [decrementTotalSupply_eq hle] at hdecrement
    exact ⟨hle, (Except.ok.inj hdecrement).symm⟩
  · rw [decrementTotalSupply, updateTotalSupply] at hdecrement
    change (okOr ((readTotalSupply storage token).checkedSub amount) Error.insufficient >>= _) =
      _ at hdecrement
    rw [Amount.checkedSub_of_not_le hle] at hdecrement
    cases hdecrement

/-- A burn that succeeds took what it burned, the amount or else the whole
balance, from the balance and from the supply. -/
theorem burnTokens_cases {token source : Address} {amount : Amount}
    {next : Key Address → Option Amount}
    (hburn : burnTokens storage token source amount = .ok next) :
    ∃ burned : Amount, burned ≤ readBalance storage token source ∧
      burned ≤ readTotalSupply storage token ∧
      (burned = amount ∨ burned = readBalance storage token source) ∧
      next = write (write storage (balanceKey token source)
          ⟨(readBalance storage token source).raw - burned.raw⟩)
        (mintedBalanceKey token) ⟨(readTotalSupply storage token).raw - burned.raw⟩ := by
  unfold burnTokens at hburn
  by_cases hle : amount ≤ readBalance storage token source
  · simp only [Amount.checkedSub_of_le hle] at hburn
    obtain ⟨hsupply, rfl⟩ := decrementTotalSupply_cases hburn
    rw [readTotalSupply_write_balanceKey] at hsupply ⊢
    exact ⟨amount, hle, hsupply, Or.inl rfl, rfl⟩
  · -- the whole balance is burned, and zero written in its place
    simp only [Amount.checkedSub_of_not_le hle] at hburn
    obtain ⟨hsupply, rfl⟩ := decrementTotalSupply_cases hburn
    rw [readTotalSupply_write_balanceKey] at hsupply ⊢
    refine ⟨readBalance storage token source, Amount.le_iff_toNat_le.mpr (Nat.le_refl _),
      hsupply, Or.inr rfl, ?_⟩
    rw [BitVec.sub_self]
    rfl

end Specs

/-! ## Backed supply -/

/-- The sum of the balances of `owners`, as numbers. -/
def balanceSum (storage : Key Address → Option Amount) (token : Address) (owners : Finset Address) :
    ℕ :=
  ∑ owner ∈ owners, (readBalance storage token owner).raw.toNat

/-- All balances of `token` are held within `owners`, and the minted supply is
their sum. -/
structure Backed (storage : Key Address → Option Amount) (token : Address)
    (owners : Finset Address) : Prop where
  outside : ∀ owner ∉ owners, readBalance storage token owner = Amount.zero
  supply : (readTotalSupply storage token).raw.toNat = balanceSum storage token owners

section Sums

variable {storage : Key Address → Option Amount}

/-- Writing one owner's balance changes the sum by the difference. -/
theorem balanceSum_write (storage : Key Address → Option Amount) (token : Address) {owner : Address}
    {owners : Finset Address} (howner : owner ∈ owners) (value : Amount) :
    balanceSum (write storage (balanceKey token owner) value) token owners +
        (readBalance storage token owner).raw.toNat =
      balanceSum storage token owners + value.raw.toNat := by
  unfold balanceSum
  rw [← Finset.add_sum_erase _ _ howner, ← Finset.add_sum_erase _ _ howner,
    readBalance_write_balanceKey]
  -- the other owners keep their balances
  have hrest : ∑ other ∈ owners.erase owner,
      (readBalance (write storage (balanceKey token owner) value) token other).raw.toNat =
        ∑ other ∈ owners.erase owner, (readBalance storage token other).raw.toNat := by
    apply Finset.sum_congr rfl
    intro other hother
    rw [readBalance_write_of_ne value fun hsame => Finset.ne_of_mem_erase hother hsame.2]
  rw [hrest]
  omega

@[simp] theorem balanceSum_write_mintedBalanceKey (token token' : Address) (owners : Finset Address)
    (value : Amount) :
    balanceSum (write storage (mintedBalanceKey token) value) token' owners =
      balanceSum storage token' owners := by
  simp [balanceSum]

omit [DecidableEq Address] in
/-- A balance is at most the sum of the balances of `owners` that hold it. -/
theorem toNat_le_balanceSum {token owner : Address} {owners : Finset Address}
    (howner : owner ∈ owners) :
    (readBalance storage token owner).raw.toNat ≤ balanceSum storage token owners := by
  unfold balanceSum
  apply Finset.single_le_sum _ howner
  exact fun _ _ => Nat.zero_le _

end Sums

namespace Backed

variable {storage next : Key Address → Option Amount} {token : Address} {owners : Finset Address}

/-- A transfer between two owners keeps the supply backed: what the source loses
the destination gains. -/
theorem transfer {src dest : Address} {amount : Amount} (hbacked : Backed storage token owners)
    (hne : src ≠ dest) (hdest : dest ∈ owners)
    (htransfer : Token.transfer storage token src dest amount = .ok next) :
    Backed next token owners := by
  rcases transfer_cases htransfer with ⟨-, rfl⟩ | ⟨hzero, hle, hfit, rfl⟩
  · exact hbacked
  · -- the source holds the amount, so it is one of `owners`
    have hsrc : src ∈ owners := by
      by_contra hsrc
      apply hzero
      have hleZero := Amount.le_iff_toNat_le.mp hle
      rw [hbacked.outside src hsrc] at hleZero
      exact Amount.eq_zero_of_toNat_eq_zero (Nat.le_zero.mp hleZero)
    have hsub := Amount.toNat_sub_of_le hle
    have hadd := Amount.toNat_add_of_lt hfit
    have hsrcSum := balanceSum_write storage token hsrc
      ⟨(readBalance storage token src).raw - amount.raw⟩
    have hdestSum := balanceSum_write
      (write storage (balanceKey token src) ⟨(readBalance storage token src).raw - amount.raw⟩)
      token hdest ⟨(readBalance storage token dest).raw + amount.raw⟩
    rw [readBalance_write_of_ne _ fun hsame => hne hsame.2.symm] at hdestSum
    have hle' := Amount.le_iff_toNat_le.mp hle
    constructor
    · intro owner howner
      have hsrcOwner : owner ≠ src := fun heq => howner (heq ▸ hsrc)
      have hdestOwner : owner ≠ dest := fun heq => howner (heq ▸ hdest)
      rw [readBalance_write_of_ne _ fun hsame => hdestOwner hsame.2,
        readBalance_write_of_ne _ fun hsame => hsrcOwner hsame.2]
      exact hbacked.outside owner howner
    · rw [readTotalSupply_write_balanceKey, readTotalSupply_write_balanceKey, hbacked.supply]
      simp only at hsub hadd hsrcSum hdestSum
      omega

/-- A credit to one of `owners` keeps the supply backed. -/
theorem credit {dest : Address} {amount : Amount} (hbacked : Backed storage token owners)
    (hdest : dest ∈ owners) (hcredit : creditTokens storage token dest amount = .ok next) :
    Backed next token owners := by
  obtain ⟨hbalance, hsupply, rfl⟩ := creditTokens_cases hcredit
  have hsum := balanceSum_write storage token hdest
    ⟨(readBalance storage token dest).raw + amount.raw⟩
  constructor
  · intro owner howner
    have hdestOwner : owner ≠ dest := fun heq => howner (heq ▸ hdest)
    rw [readBalance_write_mintedBalanceKey, readBalance_write_of_ne _ fun hsame => hdestOwner hsame.2]
    exact hbacked.outside owner howner
  · rw [readTotalSupply_write_mintedBalanceKey, balanceSum_write_mintedBalanceKey,
      Amount.toNat_add_of_lt hsupply, hbacked.supply]
    rw [Amount.toNat_add_of_lt hbalance] at hsum
    omega

/-- A burn from one of `owners` keeps the supply backed. -/
theorem burn {source : Address} {amount : Amount} (hbacked : Backed storage token owners)
    (hsource : source ∈ owners) (hburn : burnTokens storage token source amount = .ok next) :
    Backed next token owners := by
  obtain ⟨burned, hbalance, hsupply, -, rfl⟩ := burnTokens_cases hburn
  have hsum := balanceSum_write storage token hsource
    ⟨(readBalance storage token source).raw - burned.raw⟩
  rw [Amount.toNat_sub_of_le hbalance] at hsum
  have hbalance' := Amount.le_iff_toNat_le.mp hbalance
  constructor
  · intro owner howner
    have hsourceOwner : owner ≠ source := fun heq => howner (heq ▸ hsource)
    rw [readBalance_write_mintedBalanceKey,
      readBalance_write_of_ne _ fun hsame => hsourceOwner hsame.2]
    exact hbacked.outside owner howner
  · rw [readTotalSupply_write_mintedBalanceKey, balanceSum_write_mintedBalanceKey,
      Amount.toNat_sub_of_le hsupply, hbacked.supply]
    omega

/-- In a backed native token, the PGF balance is at most the supply, so
`get_effective_total_native_supply` does not panic. -/
theorem getEffectiveTotalNativeSupply_ok (hbacked : Backed storage token owners) :
    ∃ effective, getEffectiveTotalNativeSupply storage token = .ok effective := by
  have hle : readBalance storage token InternalAddresses.pgf ≤ readTotalSupply storage token := by
    rw [Amount.le_iff_toNat_le, hbacked.supply]
    by_cases hpgf : (InternalAddresses.pgf : Address) ∈ owners
    · exact toNat_le_balanceSum hpgf
    · rw [hbacked.outside _ hpgf]
      exact Nat.zero_le _
  refine ⟨⟨(readTotalSupply storage token).raw -
    (readBalance storage token InternalAddresses.pgf).raw⟩, ?_⟩
  rw [getEffectiveTotalNativeSupply]
  simp only [Amount.checkedSub_of_le hle]

/-- A supply held whole by one owner, with no other balance stored, is backed
by that owner. -/
theorem of_heldWhole (owner : Address) (value : Amount) :
    Backed (heldWhole token owner value) token {owner} := by
  constructor
  · intro other hother
    rw [heldWhole, readBalance_write_mintedBalanceKey,
      readBalance_write_of_ne _ fun hsame => hother (Finset.mem_singleton.mpr hsame.2)]
    rfl
  · rw [readTotalSupply_heldWhole, balanceSum, Finset.sum_singleton, readBalance_heldWhole]

end Backed

omit [DecidableEq Address] in
/-- Where the PGF balance is above the supply,
`get_effective_total_native_supply` panics. -/
theorem getEffectiveTotalNativeSupply_of_lt {storage : Key Address → Option Amount}
    {token : Address}
    (hlt : readTotalSupply storage token < readBalance storage token InternalAddresses.pgf) :
    getEffectiveTotalNativeSupply storage token = .error .panic := by
  have hnotle : ¬readBalance storage token InternalAddresses.pgf ≤ readTotalSupply storage token :=
    fun hle => absurd (Amount.lt_iff_toNat_lt.mp hlt) (Nat.not_lt.mpr (Amount.le_iff_toNat_le.mp hle))
  rw [getEffectiveTotalNativeSupply]
  simp only [Amount.checkedSub_of_not_le hnotle]

/-- A transfer from an owner to itself writes the balance less the amount and
then the balance read before it plus the amount: the owner gains the amount,
and the supply is as it was. -/
theorem transfer_self {storage next : Key Address → Option Amount} {token owner : Address}
    {amount : Amount} (htransfer : transfer storage token owner owner amount = .ok next) :
    (readBalance next token owner).raw.toNat =
        (readBalance storage token owner).raw.toNat + amount.raw.toNat ∧
      readTotalSupply next token = readTotalSupply storage token := by
  rcases transfer_cases htransfer with ⟨rfl, rfl⟩ | ⟨-, -, hfit, rfl⟩
  · exact ⟨by simp [Amount.zero], rfl⟩
  · refine ⟨?_, by simp only [readTotalSupply_write_balanceKey]⟩
    rw [readBalance_write_balanceKey, Amount.toNat_add_of_lt hfit]

end Namada.Token
