/-
# Types of `namada_proof_of_stake`

`types/rev_order.rs`: `ReverseOrdTokenAmount` wraps an amount and keys storage
in the reverse order of amounts, by writing `max_signed - amount` in its place
(`invert`, which panics when the amount exceeds `max_signed`).
-/

import Namada.Core.Token
import Namada.Math.Except

namespace Namada.ProofOfStake

open Namada.Core Namada.Math

/-- A token amount whose `KeySeg` has the reverse order of `Amount`. -/
structure ReverseOrdTokenAmount where
  amount : Amount
  deriving DecidableEq

/-- `invert`: `max_signed - amount`, with `expect("Cannot underflow")`. -/
def invert (amount : Amount) : Except Error Amount :=
  match Amount.maxSigned.checkedSub amount with
  | some inverted => .ok inverted
  | none => .error .panic

/-- `impl KeySeg for ReverseOrdTokenAmount`. -/
def KeySeg.reverseOrdTokenAmount {Address : Type} : KeySeg Address ReverseOrdTokenAmount where
  parse string := do
    let amount ← (KeySeg.amount : KeySeg Address Amount).parse string
    let inverted ← invert amount
    pure ⟨inverted⟩
  raw value := do
    let inverted ← invert value.amount
    (KeySeg.amount : KeySeg Address Amount).raw inverted
  toDbKey value := do
    let inverted ← invert value.amount
    (KeySeg.amount : KeySeg Address Amount).toDbKey inverted

/-- Below `max_signed`, inverting subtracts from it. -/
theorem invert_of_le {amount : Amount} (hle : amount ≤ Amount.maxSigned) :
    invert amount = .ok ⟨Amount.maxSigned.raw - amount.raw⟩ := by
  rw [invert, Amount.checkedSub_of_le hle]

/-- Inverting twice gives the amount back. -/
theorem invert_invert {amount : Amount} (hle : amount ≤ Amount.maxSigned) :
    invert ⟨Amount.maxSigned.raw - amount.raw⟩ = .ok amount := by
  have hinverted : (⟨Amount.maxSigned.raw - amount.raw⟩ : Amount) ≤ Amount.maxSigned := by
    rw [Amount.le_iff_toNat_le, Amount.toNat_sub_of_le hle]
    exact Nat.sub_le _ _
  have hcancel : Amount.maxSigned.raw - (Amount.maxSigned.raw - amount.raw) = amount.raw := by
    rw [Amount.le_iff_toNat_le] at hle
    bv_omega
  rw [invert_of_le hinverted, hcancel]

/-- Up to `max_signed`, a reverse-ordered amount is keyed by the segment of its
inverse. -/
theorem reverseOrdTokenAmount_toDbKey {Address : Type} {key : ReverseOrdTokenAmount}
    (hle : key.amount ≤ Amount.maxSigned) :
    (KeySeg.reverseOrdTokenAmount : KeySeg Address ReverseOrdTokenAmount).toDbKey key =
      .ok (.stringSeg (Amount.rawSegment ⟨Amount.maxSigned.raw - key.amount.raw⟩)) := by
  dsimp only [KeySeg.reverseOrdTokenAmount, KeySeg.amount]
  rewrite [invert_of_le hle, ok_bind]
  rfl

/-- The segment of the inverse parses back to the reverse-ordered amount. -/
theorem reverseOrdTokenAmount_parse {Address : Type} {key : ReverseOrdTokenAmount}
    (hle : key.amount ≤ Amount.maxSigned) :
    (KeySeg.reverseOrdTokenAmount : KeySeg Address ReverseOrdTokenAmount).parse
      (Amount.rawSegment ⟨Amount.maxSigned.raw - key.amount.raw⟩) = .ok key := by
  -- rewriting, not simp: the kernel must not evaluate `invert` on an open amount
  dsimp only [KeySeg.reverseOrdTokenAmount, KeySeg.amount]
  rewrite [Amount.parseSegment_rawSegment, ok_bind, invert_invert hle, ok_bind]
  rfl

end Namada.ProofOfStake
