/-
# The multitoken validity predicate

`native_vp/multitoken.rs`: `MultitokenVp::validate_tx` reads each changed key.
A balance key adds the rise of the balance to its token's increase, or its fall
to the token's decrease. A minted-supply key does the same for the supply and
asks for a valid minter. While the native token is not transferable, its
balances may only rise for PoS and governance and only fall for other owners.
At the end each token's balance changes must match its supply changes, which
the source compares through four unsigned sums and a case split on which side
is larger.

The case split decides the signed equality (`tokenChangesAreBalanced_iff`), and
the sums follow the changed keys one by one (`Tracks`). So a transaction that
the VP accepts, with no change to a token's parameters, changes the balances of
each token by exactly what it mints or burns, mints or burns only IBC tokens of
the IBC account with the IBC VP triggered, and keeps to the native token's
restrictions (`validateTx_balanced`).
-/

import Namada.Math.Truncation
import Namada.Token.Storage

namespace Namada.Token

open Namada.Math
open Namada.Core (Amount Key DbKeySeg)

/-- `MINTER_STORAGE_KEY`. -/
def minterStorageKey : String := "minter"

/-- `PARAMETERS_STORAGE_KEY`. -/
def parametersStorageKey : String := "parameters"

/-- The addresses and kinds of address that the multitoken VP names besides
those of the token functions. -/
class MultitokenAddresses (Address : Type) where
  /-- `GOV`. -/
  gov : Address
  /-- `InternalAddress::Ibc`. -/
  ibc : Address
  /-- Whether the address is an `InternalAddress::IbcToken`. -/
  isIbcToken : Address → Bool
  /-- Whether the address is an `InternalAddress::Nut`. -/
  isNut : Address → Bool

variable {Address : Type} [InternalAddresses Address] [DecidableEq Address]

/-! ## Keys -/

/-- `minter_key`. -/
def minterKey (token : Address) : Key Address :=
  ⟨[.addressSeg InternalAddresses.multitoken, .addressSeg token, .stringSeg minterStorageKey]⟩

/-- `is_any_token_balance_key`: the token and the owner of a balance key. -/
def isAnyTokenBalanceKey (key : Key Address) : Option (Address × Address) :=
  match key.segments with
  | [.addressSeg addr, .addressSeg token, .stringSeg balance, .addressSeg owner] =>
    if addr = InternalAddresses.multitoken ∧ balance = balanceStorageKey then some (token, owner) else none
  | _ => none

/-- `is_any_minted_balance_key`: the token of a minted-supply key. -/
def isAnyMintedBalanceKey (key : Key Address) : Option Address :=
  match key.segments with
  | [.addressSeg addr, .addressSeg token, .stringSeg balance, .stringSeg owner] =>
    if addr = InternalAddresses.multitoken ∧ balance = balanceStorageKey ∧ owner = mintedStorageKey then
      some token
    else none
  | _ => none

/-- `is_any_minter_key`: the token of a minter key. -/
def isAnyMinterKey (key : Key Address) : Option Address :=
  match key.segments with
  | [.addressSeg addr, .addressSeg token, .stringSeg minter] =>
    if addr = InternalAddresses.multitoken ∧ minter = minterStorageKey then some token else none
  | _ => none

/-- `is_any_token_parameter_key`: the token of a parameter key. -/
def isAnyTokenParameterKey (key : Key Address) : Option Address :=
  match key.segments with
  | [.addressSeg addr, .addressSeg token, .stringSeg parameter, .stringSeg _] =>
    if addr = InternalAddresses.multitoken ∧ parameter = parametersStorageKey then some token else none
  | _ => none

/-! ## The VP -/

/-- What the multitoken VP reads: the amounts before and after the
transaction, the minters after it, the native token and whether it is
transferable, and what `is_proposal_accepted` says of the transaction's data
when it has data. -/
structure VpContext (Address : Type) where
  pre : Key Address → Option Amount
  post : Key Address → Option Amount
  postMinter : Key Address → Option Address
  nativeToken : Address
  isNativeTokenTransferable : Bool
  proposalAccepted : Option Bool

/-- The errors of the multitoken VP, by their messages. -/
inductive VpError (Address : Type)
  /-- "Native token deposit isn't allowed", for a rise or a fall. -/
  | nativeTokenDepositNotAllowed
  /-- "Overflowed in balance check". -/
  | overflowedInBalanceCheck
  /-- "Minting/Burning native token isn't allowed". -/
  | mintingNativeTokenNotAllowed
  /-- "The IBC VP was not triggered". -/
  | ibcVpNotTriggered
  /-- "Only the IBC account is able to mint IBC tokens". -/
  | onlyIbcMintsIbcTokens
  /-- "Attempted to mint non-IBC token {token}". -/
  | mintNonIbcToken (token : Address)
  /-- "Token parameter changes require tx data to be present". -/
  | parameterWithoutTxData
  /-- "Token parameter changes can only be performed by a governance proposal
  that has been accepted". -/
  | parameterWithoutProposal
  /-- "Unexpected change to the multitoken account: {key}". -/
  | unexpectedChange (key : Key Address)
  /-- "Token {token} must verify the tx". -/
  | tokenMustVerify (token : Address)
  /-- "The transaction's token changes are unbalanced". -/
  | unbalanced

/-- An amount read, zero where none is stored. -/
def readAmount (storage : Key Address → Option Amount) (key : Key Address) : ℕ :=
  ((storage key).getD Amount.zero).raw.toNat

/-- The four sums of `validate_tx` by token (`inc_changes`, `dec_changes`,
`inc_mints`, `dec_mints`), and the tokens that have an entry in one. -/
structure TokenChanges (Address : Type) where
  incChanges : Address → ℕ
  decChanges : Address → ℕ
  incMints : Address → ℕ
  decMints : Address → ℕ
  tokens : List Address

/-- The sums before any key. -/
def TokenChanges.empty : TokenChanges Address := ⟨fun _ => 0, fun _ => 0, fun _ => 0, fun _ => 0, []⟩

/-- `checked_add` of a difference to one token's sum, which fails past `2^256`. -/
def addToSum (sums : Address → ℕ) (token : Address) (diff : ℕ) :
    Except (VpError Address) (Address → ℕ) :=
  if sums token + diff < 2 ^ 256 then .ok (Function.update sums token (sums token + diff))
  else .error .overflowedInBalanceCheck

section Vp

variable [MultitokenAddresses Address]

/-- `is_allowed_inc`: the native token may rise only for PoS and governance
while it is not transferable. -/
def isAllowedInc (ctx : VpContext Address) (token target : Address) : Bool :=
  token != ctx.nativeToken || ctx.isNativeTokenTransferable || target == InternalAddresses.pos ||
    target == MultitokenAddresses.gov

/-- `is_allowed_dec`: the native token may fall only for others while it is not
transferable. -/
def isAllowedDec (ctx : VpContext Address) (token target : Address) : Bool :=
  token != ctx.nativeToken || ctx.isNativeTokenTransferable ||
    (target != InternalAddresses.pos && target != MultitokenAddresses.gov)

/-- The loop body at a balance key. -/
def balanceStep (ctx : VpContext Address) (changes : TokenChanges Address) (key : Key Address)
    (token owner : Address) : Except (VpError Address) (TokenChanges Address) :=
  let pre := readAmount ctx.pre key
  let post := readAmount ctx.post key
  if pre ≤ post then
    if isAllowedInc ctx token owner then
      (addToSum changes.incChanges token (post - pre)).map fun incChanges =>
        { changes with incChanges, tokens := changes.tokens.insert token }
    else .error .nativeTokenDepositNotAllowed
  else if isAllowedDec ctx token owner then
    (addToSum changes.decChanges token (pre - post)).map fun decChanges =>
      { changes with decChanges, tokens := changes.tokens.insert token }
  else .error .nativeTokenDepositNotAllowed

/-- `is_valid_minter`: only IBC tokens, whose minter after the transaction is
the IBC account, with the IBC VP among the verifiers. -/
def isValidMinter (ctx : VpContext Address) (verifiers : List Address) (token : Address) :
    Except (VpError Address) Unit :=
  if MultitokenAddresses.isIbcToken token then
    match ctx.postMinter (minterKey token) with
    | some minter =>
      if minter = MultitokenAddresses.ibc then
        if minter ∈ verifiers then .ok () else .error .ibcVpNotTriggered
      else .error .onlyIbcMintsIbcTokens
    | none => .error .onlyIbcMintsIbcTokens
  else .error (.mintNonIbcToken token)

/-- The minted sums after a minted-supply key: its rise added to the increase,
or its fall to the decrease. -/
def recordMint (ctx : VpContext Address) (changes : TokenChanges Address) (key : Key Address)
    (token : Address) : Except (VpError Address) (TokenChanges Address) :=
  let pre := readAmount ctx.pre key
  let post := readAmount ctx.post key
  if pre ≤ post then
    (addToSum changes.incMints token (post - pre)).map fun incMints =>
      { changes with incMints, tokens := changes.tokens.insert token }
  else
    (addToSum changes.decMints token (pre - post)).map fun decMints =>
      { changes with decMints, tokens := changes.tokens.insert token }

/-- The loop body at a minted-supply key. -/
def mintedStep (ctx : VpContext Address) (verifiers : List Address) (changes : TokenChanges Address)
    (key : Key Address) (token : Address) : Except (VpError Address) (TokenChanges Address) :=
  if token = ctx.nativeToken ∧ ctx.isNativeTokenTransferable = false then .error .mintingNativeTokenNotAllowed
  else do
    let changes ← recordMint ctx changes key token
    isValidMinter ctx verifiers token
    pure changes

/-- `is_valid_parameter`. -/
def isValidParameter (ctx : VpContext Address) : Except (VpError Address) Unit :=
  match ctx.proposalAccepted with
  | none => .error .parameterWithoutTxData
  | some true => .ok ()
  | some false => .error .parameterWithoutProposal

/-- Where the loop over the changed keys stands: still adding up the changes,
or returned at a parameter key after `is_valid_parameter` passed. -/
inductive KeysOutcome (Address : Type)
  | accumulating (changes : TokenChanges Address)
  | returned

/-- The loop body of `validate_tx` at one changed key. -/
def keyStep (ctx : VpContext Address) (verifiers : List Address) (changes : TokenChanges Address)
    (key : Key Address) : Except (VpError Address) (KeysOutcome Address) :=
  match isAnyTokenBalanceKey key with
  | some (token, owner) => (balanceStep ctx changes key token owner).map .accumulating
  | none =>
    match isAnyMintedBalanceKey key with
    | some token => (mintedStep ctx verifiers changes key token).map .accumulating
    | none =>
      match isAnyMinterKey key with
      | some token => (isValidMinter ctx verifiers token).map fun _ => .accumulating changes
      | none =>
        if (isAnyTokenParameterKey key).isSome then (isValidParameter ctx).map fun _ => .returned
        else if key.segments.head? = some (.addressSeg InternalAddresses.multitoken) then
          .error (.unexpectedChange key)
        else .ok (.accumulating changes)

/-- The loop over the changed keys, in their order, which returns at once at a
parameter key. -/
def checkKeys (ctx : VpContext Address) (verifiers : List Address) :
    TokenChanges Address → List (Key Address) → Except (VpError Address) (KeysOutcome Address)
  | changes, [] => .ok (.accumulating changes)
  | changes, key :: rest => do
    match ← keyStep ctx verifiers changes key with
    | .accumulating next => checkKeys ctx verifiers next rest
    | .returned => pure .returned

/-- `Amount::checked_sub`, on the integers. -/
def amountCheckedSub (first second : ℕ) : Option ℕ :=
  if second ≤ first then some (first - second) else none

/-- `token_changes_are_balanced`: the four sums compared by which side is
larger. -/
def tokenChangesAreBalanced (changes : TokenChanges Address) (token : Address) : Bool :=
  let incChange := changes.incChanges token
  let decChange := changes.decChanges token
  let incMint := changes.incMints token
  let decMint := changes.decMints token
  if incChange ≥ decChange ∧ incMint ≥ decMint then
    amountCheckedSub incChange decChange == amountCheckedSub incMint decMint
  else if (incChange < decChange ∧ incMint ≥ decMint) ∨ (incChange ≥ decChange ∧ incMint < decMint) then
    false
  else amountCheckedSub decChange incChange == amountCheckedSub decMint incMint

/-- The check of one token at the end: a `Nut` token must verify, and its
changes must be balanced. -/
def checkToken (verifiers : List Address) (changes : TokenChanges Address) (token : Address) :
    Except (VpError Address) Unit :=
  if MultitokenAddresses.isNut token = true ∧ token ∉ verifiers then .error (.tokenMustVerify token)
  else if tokenChangesAreBalanced changes token then .ok ()
  else .error .unbalanced

/-- `MultitokenVp::validate_tx`. -/
def validateTx (ctx : VpContext Address) (keysChanged : List (Key Address)) (verifiers : List Address) :
    Except (VpError Address) Unit := do
  match ← checkKeys ctx verifiers TokenChanges.empty keysChanged with
  | .returned => pure ()
  | .accumulating changes => changes.tokens.forM (checkToken verifiers changes)

end Vp

/-! ## The keys the VP tells apart -/

theorem isAnyTokenBalanceKey_eq_some {key : Key Address} {token owner : Address} :
    isAnyTokenBalanceKey key = some (token, owner) ↔ key = balanceKey token owner := by
  constructor
  · intro h
    obtain ⟨segments⟩ := key
    unfold isAnyTokenBalanceKey at h
    split at h
    · rename_i addr keyToken balance keyOwner hsegments
      split_ifs at h with hprefix
      cases h
      obtain ⟨rfl, rfl⟩ := hprefix
      simp only at hsegments
      rw [hsegments]
      rfl
    · cases h
  · rintro rfl
    simp [isAnyTokenBalanceKey, balanceKey, balancePrefix]

theorem isAnyMintedBalanceKey_eq_some {key : Key Address} {token : Address} :
    isAnyMintedBalanceKey key = some token ↔ key = mintedBalanceKey token := by
  constructor
  · intro h
    obtain ⟨segments⟩ := key
    unfold isAnyMintedBalanceKey at h
    split at h
    · rename_i addr keyToken balance minted hsegments
      split_ifs at h with hprefix
      cases h
      obtain ⟨rfl, rfl, rfl⟩ := hprefix
      simp only at hsegments
      rw [hsegments]
      rfl
    · cases h
  · rintro rfl
    simp [isAnyMintedBalanceKey, mintedBalanceKey, balancePrefix]

/-- A minter key is neither a balance key nor a minted-supply key. -/
theorem minterKey_ne {token : Address} (key : Key Address) (h : isAnyMinterKey key = some token) :
    isAnyTokenBalanceKey key = none ∧ isAnyMintedBalanceKey key = none := by
  obtain ⟨segments⟩ := key
  unfold isAnyMinterKey at h
  split at h
  · rename_i hsegments
    simp only at hsegments
    subst hsegments
    exact ⟨rfl, rfl⟩
  · cases h

/-! ## What the sums follow -/

/-- Whether a key is a balance key of the token. -/
def isBalanceKeyOf (token : Address) (key : Key Address) : Bool :=
  (isAnyTokenBalanceKey key).map Prod.fst == some token

theorem isBalanceKeyOf_iff {token : Address} {key : Key Address} :
    isBalanceKeyOf token key = true ↔ ∃ owner, key = balanceKey token owner := by
  unfold isBalanceKeyOf
  constructor
  · intro h
    obtain ⟨⟨keyToken, owner⟩, hkey, hsame⟩ := Option.map_eq_some_iff.mp (beq_iff_eq.mp h)
    cases hsame
    exact ⟨owner, isAnyTokenBalanceKey_eq_some.mp hkey⟩
  · rintro ⟨owner, rfl⟩
    simp [isAnyTokenBalanceKey_eq_some.mpr rfl]

/-- The change of a token's balance at a key, as an integer: none unless the
key is one of its balance keys. -/
def balanceDiff (ctx : VpContext Address) (token : Address) (key : Key Address) : ℤ :=
  if isBalanceKeyOf token key then (readAmount ctx.post key : ℤ) - readAmount ctx.pre key else 0

/-- The change of a token's supply at a key. -/
def mintedDiff (ctx : VpContext Address) (token : Address) (key : Key Address) : ℤ :=
  if key = mintedBalanceKey token then (readAmount ctx.post key : ℤ) - readAmount ctx.pre key else 0

omit [InternalAddresses Address] [DecidableEq Address] in
@[simp]
theorem readAmount_eq (storage : Key Address → Option Amount) (key : Key Address) :
    readAmount storage key = ((storage key).getD Amount.zero).raw.toNat := rfl

/-- The sums agree with the changes at the keys read so far: each token's
increase less its decrease is the net change of its balances, and of its
supply, and a token with no entry has four zero sums. -/
structure Tracks (ctx : VpContext Address) (keys : List (Key Address)) (changes : TokenChanges Address) :
    Prop where
  balance : ∀ token, (changes.incChanges token : ℤ) - changes.decChanges token =
    (keys.map (balanceDiff ctx token)).sum
  minted : ∀ token, (changes.incMints token : ℤ) - changes.decMints token =
    (keys.map (mintedDiff ctx token)).sum
  untracked : ∀ token, token ∉ changes.tokens →
    changes.incChanges token = 0 ∧ changes.decChanges token = 0 ∧ changes.incMints token = 0 ∧
      changes.decMints token = 0

theorem tracks_empty (ctx : VpContext Address) : Tracks ctx [] (TokenChanges.empty : TokenChanges Address) :=
  ⟨fun _ => rfl, fun _ => rfl, fun _ _ => ⟨rfl, rfl, rfl, rfl⟩⟩

omit [DecidableEq Address] in
theorem mintedBalanceKey_eq_iff {token token' : Address} :
    mintedBalanceKey token = mintedBalanceKey token' ↔ token = token' := by
  constructor
  · intro heq
    simpa [mintedBalanceKey, balancePrefix] using heq
  · rintro rfl
    rfl

@[simp]
theorem balanceDiff_balanceKey (ctx : VpContext Address) (token' token owner : Address) :
    balanceDiff ctx token' (balanceKey token owner) = if token' = token then
      (readAmount ctx.post (balanceKey token owner) : ℤ) - readAmount ctx.pre (balanceKey token owner)
    else 0 := by
  have hkey : isBalanceKeyOf token' (balanceKey token owner) = decide (token' = token) := by
    rw [Bool.eq_iff_iff, isBalanceKeyOf_iff, decide_eq_true_iff]
    constructor
    · rintro ⟨other, hother⟩
      exact (balanceKey_eq_iff.mp hother).1.symm
    · rintro rfl
      exact ⟨owner, rfl⟩
  simp only [balanceDiff, hkey, decide_eq_true_eq]

@[simp]
theorem mintedDiff_balanceKey (ctx : VpContext Address) (token' token owner : Address) :
    mintedDiff ctx token' (balanceKey token owner) = 0 :=
  if_neg (balanceKey_ne_mintedBalanceKey token owner token')

@[simp]
theorem balanceDiff_mintedBalanceKey (ctx : VpContext Address) (token' token : Address) :
    balanceDiff ctx token' (mintedBalanceKey token) = 0 := by
  have hkey : isBalanceKeyOf token' (mintedBalanceKey token) = false := by
    rw [Bool.eq_false_iff, ne_eq, isBalanceKeyOf_iff]
    rintro ⟨owner, howner⟩
    exact balanceKey_ne_mintedBalanceKey token' owner token howner.symm
  simp only [balanceDiff, hkey, Bool.false_eq_true, if_false]

@[simp]
theorem mintedDiff_mintedBalanceKey (ctx : VpContext Address) (token' token : Address) :
    mintedDiff ctx token' (mintedBalanceKey token) = if token' = token then
      (readAmount ctx.post (mintedBalanceKey token) : ℤ) - readAmount ctx.pre (mintedBalanceKey token)
    else 0 := by
  by_cases hsame : token' = token
  · subst hsame
    simp only [mintedDiff, if_true]
  · have hne : mintedBalanceKey token ≠ mintedBalanceKey token' := fun h =>
      hsame (mintedBalanceKey_eq_iff.mp h).symm
    simp only [mintedDiff, if_neg hne, if_neg hsame]

omit [InternalAddresses Address] in
theorem cast_update_apply (sums : Address → ℕ) (token token' : Address) (diff : ℕ) :
    ((Function.update sums token (sums token + diff) token' : ℕ) : ℤ) =
      sums token' + if token' = token then (diff : ℤ) else 0 := by
  by_cases hsame : token' = token
  · subst hsame
    simp
  · simp [hsame]

omit [InternalAddresses Address] in
theorem addToSum_eq_ok {sums next : Address → ℕ} {token : Address} {diff : ℕ}
    (h : addToSum sums token diff = .ok next) : next = Function.update sums token (sums token + diff) := by
  unfold addToSum at h
  split_ifs at h
  · cases h
    rfl

section Record

variable {ctx : VpContext Address} {keys : List (Key Address)} {changes next : TokenChanges Address}
  {key : Key Address}

theorem sum_map_append_singleton {α : Type} (f : α → ℤ) (items : List α) (item : α) :
    ((items ++ [item]).map f).sum = (items.map f).sum + f item := by
  rw [List.map_append, List.sum_append, List.map_singleton, List.sum_singleton]

/-- One key's step keeps the sums in line: each net change moves by what the key
changes, and only one token's sums move, which the step then lists. -/
theorem Tracks.record (htracks : Tracks ctx keys changes) (token : Address)
    (hbalance : ∀ token', (next.incChanges token' : ℤ) - next.decChanges token' =
      (changes.incChanges token' : ℤ) - changes.decChanges token' + balanceDiff ctx token' key)
    (hminted : ∀ token', (next.incMints token' : ℤ) - next.decMints token' =
      (changes.incMints token' : ℤ) - changes.decMints token' + mintedDiff ctx token' key)
    (hother : ∀ token', token' ≠ token →
      next.incChanges token' = changes.incChanges token' ∧ next.decChanges token' = changes.decChanges token' ∧
        next.incMints token' = changes.incMints token' ∧ next.decMints token' = changes.decMints token')
    (htokens : next.tokens = changes.tokens.insert token) : Tracks ctx (keys ++ [key]) next := by
  refine ⟨fun token' => ?_, fun token' => ?_, fun token' huntracked => ?_⟩
  · rw [hbalance, htracks.balance, sum_map_append_singleton]
  · rw [hminted, htracks.minted, sum_map_append_singleton]
  · rw [htokens, List.mem_insert_iff, not_or] at huntracked
    obtain ⟨hinc, hdec, hincMints, hdecMints⟩ := hother token' huntracked.1
    rw [hinc, hdec, hincMints, hdecMints]
    exact htracks.untracked token' huntracked.2

/-- A key that is neither a balance key nor a minted-supply key leaves the
sums where they are. -/
theorem Tracks.skip (htracks : Tracks ctx keys changes) (hbalance : isAnyTokenBalanceKey key = none)
    (hminted : isAnyMintedBalanceKey key = none) : Tracks ctx (keys ++ [key]) changes := by
  have hnotBalance : ∀ token, balanceDiff ctx token key = 0 := by
    intro token
    simp [balanceDiff, isBalanceKeyOf, hbalance]
  have hnotMinted : ∀ token, mintedDiff ctx token key = 0 := by
    intro token
    have hne : key ≠ mintedBalanceKey token := by
      intro hsame
      rw [isAnyMintedBalanceKey_eq_some.mpr hsame] at hminted
      cases hminted
    exact if_neg hne
  refine ⟨fun token => ?_, fun token => ?_, htracks.untracked⟩
  · rw [htracks.balance token, sum_map_append_singleton, hnotBalance, Int.add_zero]
  · rw [htracks.minted token, sum_map_append_singleton, hnotMinted, Int.add_zero]

end Record

/-! ## The loop over the changed keys -/

section Loop

variable [MultitokenAddresses Address] {ctx : VpContext Address} {verifiers : List Address}
  {keys : List (Key Address)} {changes next : TokenChanges Address}

/-- What the loop checked at a key it went past: a minted supply has a valid
minter, and a balance of the native token moves only the way its owner
allows. -/
structure KeyChecked (ctx : VpContext Address) (verifiers : List Address) (key : Key Address) : Prop where
  minted : ∀ token, isAnyMintedBalanceKey key = some token → isValidMinter ctx verifiers token = .ok ()
  rise : ∀ token owner, isAnyTokenBalanceKey key = some (token, owner) →
    readAmount ctx.pre key ≤ readAmount ctx.post key → isAllowedInc ctx token owner = true
  fall : ∀ token owner, isAnyTokenBalanceKey key = some (token, owner) →
    readAmount ctx.post key < readAmount ctx.pre key → isAllowedDec ctx token owner = true

theorem balanceStep_tracks (htracks : Tracks ctx keys changes) {token owner : Address}
    (hstep : balanceStep ctx changes (balanceKey token owner) token owner = .ok next) :
    Tracks ctx (keys ++ [balanceKey token owner]) next := by
  dsimp only [balanceStep] at hstep
  -- the branches that fail leave no goal
  split_ifs at hstep with hrise hallowed hallowed
  · -- a rise adds to the increase of the token
    obtain ⟨incChanges, hadd, rfl⟩ := map_eq_ok hstep
    cases addToSum_eq_ok hadd
    refine htracks.record token (fun token' => ?_) (fun token' => ?_) (fun token' hne => ?_) rfl
    · dsimp only
      rw [cast_update_apply, balanceDiff_balanceKey]
      split_ifs <;> omega
    · simp
    · simp [hne]
  · -- a fall adds to the decrease of the token
    obtain ⟨decChanges, hadd, rfl⟩ := map_eq_ok hstep
    cases addToSum_eq_ok hadd
    refine htracks.record token (fun token' => ?_) (fun token' => ?_) (fun token' hne => ?_) rfl
    · dsimp only
      rw [cast_update_apply, balanceDiff_balanceKey]
      split_ifs <;> omega
    · simp
    · simp [hne]

omit [MultitokenAddresses Address] in
theorem recordMint_tracks (htracks : Tracks ctx keys changes) {token : Address}
    (hrecord : recordMint ctx changes (mintedBalanceKey token) token = .ok next) :
    Tracks ctx (keys ++ [mintedBalanceKey token]) next := by
  dsimp only [recordMint] at hrecord
  split_ifs at hrecord with hrise
  · -- a rise adds to the minted increase of the token
    obtain ⟨incMints, hadd, rfl⟩ := map_eq_ok hrecord
    cases addToSum_eq_ok hadd
    refine htracks.record token (fun token' => ?_) (fun token' => ?_) (fun token' hne => ?_) rfl
    · simp
    · dsimp only
      rw [cast_update_apply, mintedDiff_mintedBalanceKey]
      split_ifs <;> omega
    · simp [hne]
  · -- a fall adds to the minted decrease of the token
    obtain ⟨decMints, hadd, rfl⟩ := map_eq_ok hrecord
    cases addToSum_eq_ok hadd
    refine htracks.record token (fun token' => ?_) (fun token' => ?_) (fun token' hne => ?_) rfl
    · simp
    · dsimp only
      rw [cast_update_apply, mintedDiff_mintedBalanceKey]
      split_ifs <;> omega
    · simp [hne]

theorem mintedStep_tracks (htracks : Tracks ctx keys changes) {token : Address}
    (hstep : mintedStep ctx verifiers changes (mintedBalanceKey token) token = .ok next) :
    Tracks ctx (keys ++ [mintedBalanceKey token]) next ∧ isValidMinter ctx verifiers token = .ok () := by
  -- the native token, while not transferable, fails at once
  unfold mintedStep at hstep
  split_ifs at hstep
  obtain ⟨recorded, hrecord, hrest⟩ := bind_eq_ok hstep
  obtain ⟨⟨⟩, hminter, hpure⟩ := bind_eq_ok hrest
  cases hpure
  exact ⟨recordMint_tracks htracks hrecord, hminter⟩

/-- A key that is neither a balance key nor a minted-supply key asks for
nothing. -/
theorem KeyChecked.of_none {key : Key Address} (hbalance : isAnyTokenBalanceKey key = none)
    (hminted : isAnyMintedBalanceKey key = none) : KeyChecked ctx verifiers key where
  minted _ hsome := by rw [hminted] at hsome; cases hsome
  rise _ _ hsome := by rw [hbalance] at hsome; cases hsome
  fall _ _ hsome := by rw [hbalance] at hsome; cases hsome

/-- A balance step that passes moved the balance the way its owner allows. -/
theorem balanceStep_allowed {token owner : Address} {key : Key Address}
    (hstep : balanceStep ctx changes key token owner = .ok next) :
    (readAmount ctx.pre key ≤ readAmount ctx.post key → isAllowedInc ctx token owner = true) ∧
      (readAmount ctx.post key < readAmount ctx.pre key → isAllowedDec ctx token owner = true) := by
  dsimp only [balanceStep] at hstep
  constructor
  · intro hrise
    by_contra hnot
    rw [if_pos hrise, if_neg hnot] at hstep
    cases hstep
  · intro hfall
    by_contra hnot
    rw [if_neg (Nat.not_le.mpr hfall), if_neg hnot] at hstep
    cases hstep

theorem keyChecked_balanceKey {token owner : Address}
    (hstep : balanceStep ctx changes (balanceKey token owner) token owner = .ok next) :
    KeyChecked ctx verifiers (balanceKey token owner) := by
  obtain ⟨hrise, hfall⟩ := balanceStep_allowed hstep
  refine ⟨fun token' hminted => ?_, fun token' owner' hbalance => ?_, fun token' owner' hbalance => ?_⟩
  · exact absurd (isAnyMintedBalanceKey_eq_some.mp hminted) (balanceKey_ne_mintedBalanceKey _ _ _)
  all_goals
    -- the key names its own token and owner
    obtain ⟨rfl, rfl⟩ := balanceKey_eq_iff.mp (isAnyTokenBalanceKey_eq_some.mp hbalance).symm
    assumption

theorem keyChecked_mintedBalanceKey {token : Address} (hminter : isValidMinter ctx verifiers token = .ok ()) :
    KeyChecked ctx verifiers (mintedBalanceKey token) := by
  refine ⟨fun token' hminted => ?_, fun token' owner hbalance => ?_, fun token' owner hbalance => ?_⟩
  · obtain rfl := mintedBalanceKey_eq_iff.mp (isAnyMintedBalanceKey_eq_some.mp hminted).symm
    exact hminter
  all_goals exact absurd (isAnyTokenBalanceKey_eq_some.mp hbalance).symm (balanceKey_ne_mintedBalanceKey _ _ _)

/-- One step of the loop at a key that is not a parameter key goes on
accumulating, keeps the sums in line and checked what the key asks for. -/
theorem keyStep_tracks (htracks : Tracks ctx keys changes) {key : Key Address} {outcome : KeysOutcome Address}
    (hparam : isAnyTokenParameterKey key = none) (hstep : keyStep ctx verifiers changes key = .ok outcome) :
    ∃ next, outcome = .accumulating next ∧ Tracks ctx (keys ++ [key]) next ∧ KeyChecked ctx verifiers key := by
  unfold keyStep at hstep
  cases hbalance : isAnyTokenBalanceKey key with
  | some pair =>
    obtain ⟨token, owner⟩ := pair
    obtain rfl := isAnyTokenBalanceKey_eq_some.mp hbalance
    simp only [hbalance] at hstep
    obtain ⟨next, hnext, rfl⟩ := map_eq_ok hstep
    exact ⟨next, rfl, balanceStep_tracks htracks hnext, keyChecked_balanceKey hnext⟩
  | none =>
    simp only [hbalance] at hstep
    cases hminted : isAnyMintedBalanceKey key with
    | some token =>
      obtain rfl := isAnyMintedBalanceKey_eq_some.mp hminted
      simp only [hminted] at hstep
      obtain ⟨next, hnext, rfl⟩ := map_eq_ok hstep
      obtain ⟨hnextTracks, hminter⟩ := mintedStep_tracks htracks hnext
      exact ⟨next, rfl, hnextTracks, keyChecked_mintedBalanceKey hminter⟩
    | none =>
      -- every other key leaves the sums alone, or fails
      simp only [hminted] at hstep
      refine ⟨changes, ?_, htracks.skip hbalance hminted, KeyChecked.of_none hbalance hminted⟩
      cases hminter : isAnyMinterKey key with
      | some token =>
        simp only [hminter] at hstep
        obtain ⟨⟨⟩, -, rfl⟩ := map_eq_ok hstep
        rfl
      | none =>
        simp only [hminter, hparam, Option.isSome_none, Bool.false_eq_true, if_false] at hstep
        split_ifs at hstep
        cases hstep
        rfl

/-- The loop over keys none of which is a parameter key runs to its end, with
the sums in line with all the keys and every key checked. -/
theorem checkKeys_tracks :
    ∀ {rest done : List (Key Address)} {changes : TokenChanges Address} {outcome : KeysOutcome Address},
      Tracks ctx done changes → (∀ key ∈ rest, isAnyTokenParameterKey key = none) →
        checkKeys ctx verifiers changes rest = .ok outcome →
          ∃ result, outcome = .accumulating result ∧ Tracks ctx (done ++ rest) result ∧
            ∀ key ∈ rest, KeyChecked ctx verifiers key
  | [], done, changes, _, htracks, _, hrun => by
    cases hrun
    exact ⟨changes, rfl, by rw [List.append_nil]; exact htracks, fun _ hkey => absurd hkey List.not_mem_nil⟩
  | key :: rest, done, changes, _, htracks, hparams, hrun => by
    obtain ⟨stepped, hstep, hrest⟩ := bind_eq_ok hrun
    obtain ⟨next, rfl, hnext, hchecked⟩ := keyStep_tracks htracks (hparams key List.mem_cons_self) hstep
    obtain ⟨result, rfl, hresult, hrestChecked⟩ :=
      checkKeys_tracks hnext (fun other hother => hparams other (List.mem_cons_of_mem _ hother)) hrest
    refine ⟨result, rfl, by rwa [List.append_assoc, List.singleton_append] at hresult, ?_⟩
    intro other hother
    rcases List.mem_cons.mp hother with rfl | hother
    · exact hchecked
    · exact hrestChecked other hother

end Loop

/-! ## The check of the tokens -/

omit [InternalAddresses Address] [DecidableEq Address] in
/-- The four-way comparison is the signed equality of the net balance change
and the net supply change. -/
theorem tokenChangesAreBalanced_iff (changes : TokenChanges Address) (token : Address) :
    tokenChangesAreBalanced changes token = true ↔
      (changes.incChanges token : ℤ) - changes.decChanges token =
        (changes.incMints token : ℤ) - changes.decMints token := by
  dsimp only [tokenChangesAreBalanced]
  split_ifs with hdominant hmixed
  · -- both sides rose: the two differences agree
    rw [amountCheckedSub, amountCheckedSub, if_pos hdominant.1, if_pos hdominant.2, beq_iff_eq,
      Option.some.injEq]
    omega
  · -- one side rose and the other fell
    simp only [false_iff]
    omega
  · -- both sides fell: the two differences agree
    have hchanges : changes.incChanges token ≤ changes.decChanges token := by omega
    have hmints : changes.incMints token ≤ changes.decMints token := by omega
    rw [amountCheckedSub, amountCheckedSub, if_pos hchanges, if_pos hmints, beq_iff_eq, Option.some.injEq]
    omega

example : tokenChangesAreBalanced (⟨fun _ => 5, fun _ => 7, fun _ => 1, fun _ => 3, [0]⟩ : TokenChanges ℕ) 0 =
    true := by decide

section Tokens

variable [MultitokenAddresses Address] {ctx : VpContext Address} {verifiers : List Address}
  {keys : List (Key Address)} {changes : TokenChanges Address}

omit [InternalAddresses Address] in
theorem checkToken_balanced {token : Address} (hcheck : checkToken verifiers changes token = .ok ()) :
    tokenChangesAreBalanced changes token = true := by
  unfold checkToken at hcheck
  split_ifs at hcheck with hnut hbalanced
  exact hbalanced

omit [InternalAddresses Address] in
/-- The check at the end passes only if every listed token is balanced. -/
theorem forM_checkToken_balanced :
    ∀ {tokens : List Address}, tokens.forM (checkToken verifiers changes) = .ok () →
      ∀ token ∈ tokens, tokenChangesAreBalanced changes token = true
  | [], _ => fun _ hmem => absurd hmem List.not_mem_nil
  | token :: rest, hrun => by
    obtain ⟨⟨⟩, hcheck, hrest⟩ := bind_eq_ok hrun
    intro other hother
    rcases List.mem_cons.mp hother with rfl | hother
    · exact checkToken_balanced hcheck
    · exact forM_checkToken_balanced hrest other hother

omit [MultitokenAddresses Address] in
/-- Sums in line with the keys, balanced for every listed token, make each
token's balances change as much as its supply. -/
theorem Tracks.balanced (htracks : Tracks ctx keys changes)
    (hbalanced : ∀ token ∈ changes.tokens, tokenChangesAreBalanced changes token = true) (token : Address) :
    (keys.map (balanceDiff ctx token)).sum = (keys.map (mintedDiff ctx token)).sum := by
  rw [← htracks.balance, ← htracks.minted]
  by_cases hlisted : token ∈ changes.tokens
  · exact (tokenChangesAreBalanced_iff changes token).mp (hbalanced token hlisted)
  · -- a token that is not listed has four zero sums
    obtain ⟨hinc, hdec, hincMints, hdecMints⟩ := htracks.untracked token hlisted
    rw [hinc, hdec, hincMints, hdecMints]

theorem isValidMinter_eq_ok {token : Address} (hminter : isValidMinter ctx verifiers token = .ok ()) :
    MultitokenAddresses.isIbcToken token = true ∧ ctx.postMinter (minterKey token) = some MultitokenAddresses.ibc ∧
      MultitokenAddresses.ibc ∈ verifiers := by
  unfold isValidMinter at hminter
  split_ifs at hminter with hibc
  split at hminter
  · rename_i minter hpost
    split_ifs at hminter with hsame hverifier
    subst hsame
    exact ⟨hibc, hpost, hverifier⟩
  · cases hminter

end Tokens

/-! ## From the changed keys to the owners -/

section Owners

variable {ctx : VpContext Address} {keys : List (Key Address)}

/-- Over changed keys without repetitions, the changes of one token's balances
at the keys add up to the net change of its balances over any finite set of
owners outside which no balance changes. -/
theorem sum_balanceDiff (hnodup : keys.Nodup) (hchanged : ∀ key ∉ keys, ctx.pre key = ctx.post key)
    (token : Address) (owners : Finset Address)
    (howners : ∀ owner ∉ owners, readBalance ctx.pre token owner = readBalance ctx.post token owner) :
    (keys.map (balanceDiff ctx token)).sum = ∑ owner ∈ owners,
      (((readBalance ctx.post token owner).raw.toNat : ℤ) - (readBalance ctx.pre token owner).raw.toNat) := by
  have hinj : Function.Injective (balanceKey token : Address → Key Address) := fun _ _ hsame =>
    (balanceKey_eq_iff.mp hsame).2
  rw [sum_map_eq_sum_image hnodup hinj owners _ ?keys ?owners]
  · simp [readBalance]
  case keys =>
    -- a key that moves the token's balance is the balance key of an owner whose balance moved
    intro key _ hne
    have hkey : isBalanceKeyOf token key = true := by
      by_contra hnot
      exact hne (if_neg hnot)
    obtain ⟨owner, rfl⟩ := isBalanceKeyOf_iff.mp hkey
    refine ⟨owner, ?_, rfl⟩
    by_contra hout
    apply hne
    have hsame := howners owner hout
    simp only [readBalance] at hsame
    simp [hsame]
  case owners =>
    -- an owner whose balance key did not change adds nothing
    intro owner _ hne
    by_contra hout
    apply hne
    simp [hchanged _ hout]

/-- The change of a token's supply at the changed keys is the change of its
minted supply. -/
theorem sum_mintedDiff (hnodup : keys.Nodup) (hchanged : ∀ key ∉ keys, ctx.pre key = ctx.post key)
    (token : Address) :
    (keys.map (mintedDiff ctx token)).sum =
      ((readTotalSupply ctx.post token).raw.toNat : ℤ) - (readTotalSupply ctx.pre token).raw.toNat := by
  have hinj : Function.Injective (mintedBalanceKey : Address → Key Address) := fun _ _ hsame =>
    mintedBalanceKey_eq_iff.mp hsame
  -- the supply is the one key of the one-token set
  rw [sum_map_eq_sum_image hnodup hinj {token} _ ?keys ?tokens, Finset.sum_singleton]
  · simp [readTotalSupply]
  case keys =>
    intro key _ hne
    refine ⟨token, Finset.mem_singleton_self token, ?_⟩
    by_contra hother
    exact hne (if_neg (Ne.symm hother))
  case tokens =>
    intro token' htoken hne
    rw [Finset.mem_singleton.mp htoken] at hne ⊢
    by_contra hout
    apply hne
    simp [hchanged _ hout]

end Owners

/-! ## What the VP accepts -/

variable [MultitokenAddresses Address]

/-- A transaction the multitoken VP accepts, whose changed keys are listed
without repetition and hold no token parameter, changes the balances of each
token by what it mints or burns of it, changes a supply only for an IBC token
minted by the IBC account with the IBC VP among the verifiers, and moves the
native token, while it is not transferable, only into PoS and governance and
only out of other owners. -/
theorem validateTx_balanced (ctx : VpContext Address) (keysChanged : List (Key Address))
    (verifiers : List Address) (hnodup : keysChanged.Nodup)
    (hchanged : ∀ key ∉ keysChanged, ctx.pre key = ctx.post key)
    (hparams : ∀ key ∈ keysChanged, isAnyTokenParameterKey key = none)
    (hvalid : validateTx ctx keysChanged verifiers = .ok ()) (token : Address) :
    (∀ owners : Finset Address,
      (∀ owner ∉ owners, readBalance ctx.pre token owner = readBalance ctx.post token owner) →
        ∑ owner ∈ owners,
          (((readBalance ctx.post token owner).raw.toNat : ℤ) - (readBalance ctx.pre token owner).raw.toNat) =
            ((readTotalSupply ctx.post token).raw.toNat : ℤ) - (readTotalSupply ctx.pre token).raw.toNat) ∧
      (ctx.pre (mintedBalanceKey token) ≠ ctx.post (mintedBalanceKey token) →
        MultitokenAddresses.isIbcToken token = true ∧
          ctx.postMinter (minterKey token) = some MultitokenAddresses.ibc ∧ MultitokenAddresses.ibc ∈ verifiers) ∧
      (token = ctx.nativeToken → ctx.isNativeTokenTransferable = false → ∀ owner,
        ((readBalance ctx.pre token owner).raw.toNat < (readBalance ctx.post token owner).raw.toNat →
          owner = InternalAddresses.pos ∨ owner = MultitokenAddresses.gov) ∧
        ((readBalance ctx.post token owner).raw.toNat < (readBalance ctx.pre token owner).raw.toNat →
          owner ≠ InternalAddresses.pos ∧ owner ≠ MultitokenAddresses.gov)) := by
  obtain ⟨outcome, hcheck, hrest⟩ := bind_eq_ok hvalid
  obtain ⟨changes, rfl, htracks, hchecked⟩ := checkKeys_tracks (tracks_empty ctx) hparams hcheck
  rw [List.nil_append] at htracks
  -- a balance that moved has its key among the changed keys, which the loop checked
  have hmoved : ∀ owner, (readBalance ctx.pre token owner).raw.toNat ≠ (readBalance ctx.post token owner).raw.toNat →
      KeyChecked ctx verifiers (balanceKey token owner) := by
    intro owner hne
    apply hchecked
    by_contra hout
    exact hne (by rw [readBalance, readBalance, hchanged _ hout])
  refine ⟨fun owners howners => ?_, fun hminted => ?_, fun hnative htransfer owner => ⟨fun hrise => ?_, fun hfall => ?_⟩⟩
  · rw [← sum_balanceDiff hnodup hchanged token owners howners,
      htracks.balanced (forM_checkToken_balanced hrest) token, sum_mintedDiff hnodup hchanged token]
  · have hkey : mintedBalanceKey token ∈ keysChanged := by
      by_contra hout
      exact hminted (hchanged _ hout)
    exact isValidMinter_eq_ok ((hchecked _ hkey).minted token (isAnyMintedBalanceKey_eq_some.mpr rfl))
  · have hallowed := (hmoved owner hrise.ne).rise token owner (isAnyTokenBalanceKey_eq_some.mpr rfl) hrise.le
    simpa [isAllowedInc, hnative, htransfer] using hallowed
  · have hallowed := (hmoved owner hfall.ne').fall token owner (isAnyTokenBalanceKey_eq_some.mpr rfl) hfall
    simpa [isAllowedDec, hnative, htransfer] using hallowed

/-- Addresses for a run of the VP: the internal accounts it names, the native
token, user accounts and IBC tokens. -/
inductive SampleAddress
  | multitoken | pgf | pos | masp | gov | ibc | nam
  | account (id : ℕ)
  | ibcToken (id : ℕ)
  deriving DecidableEq

instance : InternalAddresses SampleAddress := ⟨.multitoken, .pgf, .pos, .masp⟩

instance : MultitokenAddresses SampleAddress where
  gov := .gov
  ibc := .ibc
  isIbcToken
    | .ibcToken _ => true
    | _ => false
  isNut _ := false

/-- The keys of an IBC transfer in: ten of an IBC token minted to an account. -/
def ibcMintKeys : List (Key SampleAddress) :=
  [balanceKey (.ibcToken 0) (.account 1), mintedBalanceKey (.ibcToken 0)]

/-- The storage of that transfer, with the IBC account as the token's minter. -/
def ibcMint : VpContext SampleAddress where
  pre _ := none
  post key := if key ∈ ibcMintKeys then some ⟨10⟩ else none
  postMinter key := if key = minterKey (.ibcToken 0) then some .ibc else none
  nativeToken := .nam
  isNativeTokenTransferable := false
  proposalAccepted := none

theorem validateTx_balanced_ibcMint :
    ibcMintKeys.Nodup ∧ (∀ key ∉ ibcMintKeys, ibcMint.pre key = ibcMint.post key) ∧
      (∀ key ∈ ibcMintKeys, isAnyTokenParameterKey key = none) ∧
      validateTx ibcMint ibcMintKeys [.ibc] = .ok () ∧
      ((∀ owners : Finset SampleAddress,
        (∀ owner ∉ owners, readBalance ibcMint.pre (.ibcToken 0) owner = readBalance ibcMint.post (.ibcToken 0) owner) →
          ∑ owner ∈ owners, (((readBalance ibcMint.post (.ibcToken 0) owner).raw.toNat : ℤ) -
            (readBalance ibcMint.pre (.ibcToken 0) owner).raw.toNat) =
              ((readTotalSupply ibcMint.post (.ibcToken 0)).raw.toNat : ℤ) -
                (readTotalSupply ibcMint.pre (.ibcToken 0)).raw.toNat) ∧
        (ibcMint.pre (mintedBalanceKey (.ibcToken 0)) ≠ ibcMint.post (mintedBalanceKey (.ibcToken 0)) →
          MultitokenAddresses.isIbcToken (SampleAddress.ibcToken 0) = true ∧
            ibcMint.postMinter (minterKey (.ibcToken 0)) = some MultitokenAddresses.ibc ∧
              MultitokenAddresses.ibc ∈ [SampleAddress.ibc]) ∧
        (SampleAddress.ibcToken 0 = ibcMint.nativeToken → ibcMint.isNativeTokenTransferable = false → ∀ owner,
          ((readBalance ibcMint.pre (.ibcToken 0) owner).raw.toNat <
              (readBalance ibcMint.post (.ibcToken 0) owner).raw.toNat →
            owner = InternalAddresses.pos ∨ owner = MultitokenAddresses.gov) ∧
          ((readBalance ibcMint.post (.ibcToken 0) owner).raw.toNat <
              (readBalance ibcMint.pre (.ibcToken 0) owner).raw.toNat →
            owner ≠ InternalAddresses.pos ∧ owner ≠ MultitokenAddresses.gov))) := by
  have hnodup : ibcMintKeys.Nodup := by decide
  have hchanged : ∀ key ∉ ibcMintKeys, ibcMint.pre key = ibcMint.post key := by
    intro key hkey
    simp [ibcMint, hkey]
  have hparams : ∀ key ∈ ibcMintKeys, isAnyTokenParameterKey key = none := by decide
  have hvalid : validateTx ibcMint ibcMintKeys [.ibc] = .ok () := by rfl
  exact ⟨hnodup, hchanged, hparams, hvalid,
    validateTx_balanced ibcMint ibcMintKeys [.ibc] hnodup hchanged hparams hvalid (.ibcToken 0)⟩

end Namada.Token
