/-
# Key segments that keep order

Lazy collections store an entry under the key segment of its key and read the
key back from the segment; iterating over storage visits segments in
byte-wise string order. What they need of a key type is that every key is
written as a string segment that parses back to it, and that the strings of
two keys compare as the keys do. This holds for the fixed-width integers, for
epochs that fit a `u64`, for token amounts, and, in reverse, for
`ReverseOrdTokenAmount` up to `max_signed`: the strings are base32hex of
big-endian bytes of one length.
-/

import Namada.ProofOfStake.Types

namespace Namada.Storage

open Namada.Core Namada.Math Namada.ProofOfStake

variable {Address : Type} {T : Type}

/-- On the keys `valid` admits, `keySeg` writes plain string segments that parse
back to their keys and compare as `precedes` orders the keys. -/
structure OrderedRoundTrip (keySeg : KeySeg Address T) (valid : T → Prop)
    (precedes : T → T → Prop) : Prop where
  roundTrip : ∀ key, valid key →
    ∃ raw, keySeg.toDbKey key = .ok (.stringSeg raw) ∧ PlainSegment raw ∧
      keySeg.parse raw = .ok key
  order : ∀ first second firstRaw secondRaw, valid first → valid second →
    keySeg.toDbKey first = .ok (.stringSeg firstRaw) →
    keySeg.toDbKey second = .ok (.stringSeg secondRaw) →
    (firstRaw < secondRaw ↔ precedes first second)

namespace OrderedRoundTrip

variable {keySeg : KeySeg Address T} {valid : T → Prop} {precedes : T → T → Prop}

/-- The laws from the segment each key is written as. -/
theorem of_segment (segment : T → String)
    (hkey : ∀ key, valid key → keySeg.toDbKey key = .ok (.stringSeg (segment key)))
    (hplain : ∀ key, valid key → PlainSegment (segment key))
    (hparse : ∀ key, valid key → keySeg.parse (segment key) = .ok key)
    (hlt : ∀ first second, valid first → valid second →
      (segment first < segment second ↔ precedes first second)) :
    OrderedRoundTrip keySeg valid precedes where
  roundTrip key hvalid := ⟨segment key, hkey key hvalid, hplain key hvalid, hparse key hvalid⟩
  order first second firstRaw secondRaw hfirst hsecond hfirstKey hsecondKey := by
    rw [hkey first hfirst] at hfirstKey
    rw [hkey second hsecond] at hsecondKey
    cases hfirstKey
    cases hsecondKey
    exact hlt first second hfirst hsecond

/-- Segments listed in increasing string order, as storage iteration visits
them, parse to keys in increasing order. -/
theorem pairwise_of_sorted (hordered : OrderedRoundTrip keySeg valid precedes)
    (entries : List (T × String))
    (hentries : ∀ entry ∈ entries,
      valid entry.1 ∧ keySeg.toDbKey entry.1 = .ok (.stringSeg entry.2))
    (hsorted : (entries.map Prod.snd).Pairwise (· < ·)) :
    (entries.map Prod.fst).Pairwise precedes := by
  rw [List.pairwise_map] at hsorted ⊢
  refine hsorted.imp_of_mem fun {first second} hfirst hsecond hlt => ?_
  obtain ⟨hfirstValid, hfirstKey⟩ := hentries first hfirst
  obtain ⟨hsecondValid, hsecondKey⟩ := hentries second hsecond
  exact (hordered.order _ _ _ _ hfirstValid hsecondValid hfirstKey hsecondKey).mp hlt

end OrderedRoundTrip

/-! ## The key types -/

/-- A string keys storage as itself, when it is a plain segment. -/
theorem string_orderedRoundTrip :
    OrderedRoundTrip (KeySeg.string : KeySeg Address String) PlainSegment (· < ·) :=
  .of_segment id (fun _ _ => rfl) (fun _ hplain => hplain) (fun _ _ => rfl)
    (fun _ _ _ _ => Iff.rfl)

theorem unsigned_orderedRoundTrip (byteCount : ℕ) :
    OrderedRoundTrip (KeySeg.unsigned byteCount : KeySeg Address _) (fun _ => True) (· < ·) :=
  .of_segment (KeySeg.unsignedRaw byteCount) (fun _ _ => rfl)
    (fun _ _ => KeySeg.plainSegment_encode _)
    (fun key _ => KeySeg.unsignedParse_unsignedRaw byteCount key)
    (fun first second _ _ => (KeySeg.unsignedRaw_lt_iff byteCount first second).trans
      BitVec.lt_def.symm)

/-- Signed integers order by their signed values. -/
theorem signed_orderedRoundTrip {byteCount : ℕ} (hbytes : 0 < byteCount) :
    OrderedRoundTrip (KeySeg.signed byteCount : KeySeg Address _) (fun _ => True)
      (fun first second => first.toInt < second.toInt) := by
  have hwidth : 0 < 8 * byteCount := by omega
  refine .of_segment (fun key => KeySeg.unsignedRaw byteCount (key ^^^ BitVec.intMin _))
    (fun _ _ => rfl) (fun _ _ => KeySeg.plainSegment_encode _) (fun key _ => ?_)
    (fun first second _ _ => ?_)
  · -- flipping the sign bit twice gives the key back
    simp only [KeySeg.signed, KeySeg.unsignedParse_unsignedRaw, bind, Except.bind, pure,
      Except.pure, xor_intMin_xor_intMin]
  · rw [KeySeg.unsignedRaw_lt_iff, xor_intMin_lt_iff hwidth]

/-- Epochs key storage through their `u64`, for epochs that fit one. -/
theorem epoch_orderedRoundTrip :
    OrderedRoundTrip (KeySeg.epoch : KeySeg Address ℕ) (· < 2 ^ 64) (· < ·) := by
  refine .of_segment (fun epoch => KeySeg.unsignedRaw 8 (BitVec.ofNat 64 epoch))
    (fun epoch _ => KeySeg.epoch_toDbKey epoch) (fun _ _ => KeySeg.plainSegment_encode _)
    (fun epoch hepoch => ?_)
    (fun first second hfirst hsecond => ?_)
  · have htoNat : (BitVec.ofNat (8 * 8) epoch).toNat = epoch := by
      rw [BitVec.toNat_ofNat]
      exact Nat.mod_eq_of_lt hepoch
    rw [KeySeg.epoch_parse, KeySeg.unsignedParse_unsignedRaw]
    exact congrArg Except.ok htoNat
  · rw [KeySeg.unsignedRaw_lt_iff, BitVec.toNat_ofNat, BitVec.toNat_ofNat, Nat.mod_eq_of_lt hfirst,
      Nat.mod_eq_of_lt hsecond]

theorem amount_orderedRoundTrip :
    OrderedRoundTrip (KeySeg.amount : KeySeg Address Amount) (fun _ => True) (· < ·) :=
  .of_segment Amount.rawSegment (fun _ _ => rfl) (fun _ _ => KeySeg.plainSegment_encode _)
    (fun amount _ => Amount.parseSegment_rawSegment amount)
    (fun first second _ _ => Amount.rawSegment_lt_iff first second)

/-- Reverse-ordered amounts up to `max_signed` key storage in the reverse order. -/
theorem reverseOrdTokenAmount_orderedRoundTrip :
    OrderedRoundTrip (KeySeg.reverseOrdTokenAmount : KeySeg Address ReverseOrdTokenAmount)
      (fun key => key.amount ≤ Amount.maxSigned) (fun first second => second.amount < first.amount) := by
  refine .of_segment (fun key => Amount.rawSegment ⟨Amount.maxSigned.raw - key.amount.raw⟩)
    (fun key hkey => reverseOrdTokenAmount_toDbKey hkey) (fun _ _ => KeySeg.plainSegment_encode _)
    (fun key hkey => reverseOrdTokenAmount_parse hkey) (fun first second hfirst hsecond => ?_)
  · -- `max_signed - a < max_signed - b` exactly when `b < a`
    rw [Amount.rawSegment_lt_iff, Amount.lt_iff_toNat_lt, Amount.lt_iff_toNat_lt]
    rw [Amount.le_iff_toNat_le] at hfirst hsecond
    simp only
    rw [Amount.toNat_sub_of_le (Amount.le_iff_toNat_le.mpr hfirst),
      Amount.toNat_sub_of_le (Amount.le_iff_toNat_le.mpr hsecond)]
    omega

end Namada.Storage
