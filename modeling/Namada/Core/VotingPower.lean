/-
# Fractional voting power and `Integer for Uint`

`uint.rs` implements `num_integer::Integer` for `Uint`, as
`num_rational::Ratio<Uint>` needs. Its `gcd` is Stein's binary algorithm: the
common power of two comes out, the first side is made odd, and the loop takes
the powers of two out of the second side and subtracts the smaller side from
the larger until nothing is left (`gcd_toNat`). A zero argument is returned as
it is, so `gcd(0, b)` and `gcd(a, 0)` are zero (`gcd_zero_left`,
`gcd_zero_right`).

`voting_power.rs` keeps a `FractionalVotingPower` as a `Ratio<Uint>`.
`num-rational` 0.4, which is not under `src/`, multiplies a ratio by an
integer, or by a ratio, after dividing by gcds of their parts, and reduces a
new ratio by the gcd of its numerator and denominator; `Uint` division by zero
and `Uint` multiplication past `U256` panic. So `checked_mul_amount` of a zero
amount divides by zero, as does `checked_mul` of a zero numerator, and
`checked_mul_amount` of an amount whose scaled product with the numerator
leaves `U256` overflows (`checkedMulAmount_eq`). `Ord for Ratio` compares the
fractions (`Ratio.cmp_eq`), so the check against `WHOLE` is the numerator
against the denominator. `has_majority_quorum` multiplies two thirds by the
greatest voting power of the epochs voted on, and so divides by zero when that
power is zero (`hasMajorityQuorum_zero`).
-/

import Namada.Core.Denominated
import Namada.Core.Signed
import Namada.Math.TwoAdic

namespace Namada.Core

open Namada.Math

/-- The panics of `Uint` arithmetic and of `Ratio`. -/
inductive Panic
  /-- `Uint` division by zero. -/
  | divisionByZero
  /-- `Uint` multiplication past `U256`. -/
  | arithmeticOverflow
  /-- `Ratio::reduce` of a zero denominator. -/
  | zeroDenominator
  /-- `Option::expect` of `None`, with its message. -/
  | expect (message : String)
  deriving DecidableEq

namespace Uint

/-- `Uint::trailing_zeros`: the exponent of two in a nonzero value, all 256
bits for zero. -/
def trailingZeros (value : BitVec 256) : ℕ := if value = 0 then 256 else padicValNat 2 value.toNat

/-- `Div for Uint`. -/
def div (first second : BitVec 256) : Except Panic (BitVec 256) :=
  if second = 0 then .error .divisionByZero else .ok (first / second)

/-- `Mul for Uint`. -/
def mul (first second : BitVec 256) : Except Panic (BitVec 256) :=
  if first.toNat * second.toNat < 2 ^ 256 then .ok (first * second) else .error .arithmeticOverflow

variable {u v : BitVec 256}

theorem toNat_ne_zero (hv : v ≠ 0) : v.toNat ≠ 0 :=
  fun hzero => hv (BitVec.eq_of_toNat_eq (by simpa using hzero))

/-- A nonzero value without its power of two: what is left of its number. -/
theorem toNat_shiftRight_trailingZeros (hv : v ≠ 0) :
    (v >>> trailingZeros v).toNat = v.toNat / 2 ^ padicValNat 2 v.toNat := by
  rw [BitVec.toNat_ushiftRight, trailingZeros, if_neg hv, Nat.shiftRight_eq_div_pow]

theorem odd_shiftRight_trailingZeros (hv : v ≠ 0) : Odd (v >>> trailingZeros v).toNat := by
  rw [toNat_shiftRight_trailingZeros hv]
  exact odd_div_two_pow_padicValNat (toNat_ne_zero hv)

theorem shiftRight_trailingZeros_ne_zero (hv : v ≠ 0) : v >>> trailingZeros v ≠ 0 := fun hzero => by
  have hodd := odd_shiftRight_trailingZeros hv
  rw [hzero] at hodd
  simp at hodd

/-- The loop of `gcd` does the work: one side less the other when it swaps. -/
theorem gcdLoop_swap_lt (hv : v ≠ 0) (hswap : u > v >>> trailingZeros v) :
    (v >>> trailingZeros v).toNat + (u - v >>> trailingZeros v).toNat < u.toNat + v.toNat := by
  have hlt := BitVec.lt_def.mp hswap
  have hpos := Nat.pos_of_ne_zero (toNat_ne_zero hv)
  rw [BitVec.toNat_sub_of_le (BitVec.le_of_lt hswap)]
  omega

/-- The loop of `gcd` does the work: the larger side less the smaller. -/
theorem gcdLoop_lt (hu : u ≠ 0) (hswap : ¬ u > v >>> trailingZeros v) :
    u.toNat + (v >>> trailingZeros v - u).toNat < u.toNat + v.toNat := by
  have hle := BitVec.not_lt.mp hswap
  have hpos := Nat.pos_of_ne_zero (toNat_ne_zero hu)
  have hshift : (v >>> trailingZeros v).toNat ≤ v.toNat := by
    rw [BitVec.toNat_ushiftRight, Nat.shiftRight_eq_div_pow]
    exact Nat.div_le_self _ _
  rw [BitVec.toNat_sub_of_le hle]
  have hle' := BitVec.le_def.mp hle
  omega

set_option linter.unusedVariables false in
/-- The loop of `Integer::gcd for Uint`: the powers of two out of `v`, the
smaller side first, the larger less the smaller, until that leaves zero. -/
def gcdLoop (u v : BitVec 256) (hu : u ≠ 0) (hv : v ≠ 0) : BitVec 256 :=
  if hswap : u > v >>> trailingZeros v then
    -- `std::mem::swap(&mut u, &mut v)`, then `v -= u`
    if hdone : u - v >>> trailingZeros v = 0 then v >>> trailingZeros v
    else gcdLoop (v >>> trailingZeros v) (u - v >>> trailingZeros v) (shiftRight_trailingZeros_ne_zero hv) hdone
  else if hdone : v >>> trailingZeros v - u = 0 then u
  else gcdLoop u (v >>> trailingZeros v - u) hu hdone
termination_by u.toNat + v.toNat
decreasing_by
  · exact gcdLoop_swap_lt hv hswap
  · exact gcdLoop_lt hu hswap

/-- The common power of two of the two sides is that of their bitwise or. -/
theorem trailingZeros_or (hu : u ≠ 0) :
    trailingZeros (u ||| v) = padicValNat 2 (u.toNat ||| v.toNat) := by
  have hor : u ||| v ≠ 0 := fun hzero => hu (by
    have hnat := congrArg BitVec.toNat hzero
    rw [BitVec.toNat_or] at hnat
    exact BitVec.eq_of_toNat_eq (by simpa using (Nat.or_eq_zero_iff.mp (by simpa using hnat)).1))
  rw [trailingZeros, if_neg hor, BitVec.toNat_or]

/-- The common power of two divides both sides. -/
theorem two_pow_trailingZeros_or_dvd (hu : u ≠ 0) :
    2 ^ trailingZeros (u ||| v) ∣ u.toNat ∧ 2 ^ trailingZeros (u ||| v) ∣ v.toNat := by
  rw [trailingZeros_or hu]
  exact two_pow_dvd_or_iff.mp (two_pow_padicValNat_dvd _)

theorem shiftRight_ne_zero_of_dvd {k : ℕ} (hv : v ≠ 0) (hdvd : 2 ^ k ∣ v.toNat) : v >>> k ≠ 0 :=
  fun hzero => by
    have hle : 2 ^ k ≤ v.toNat := Nat.le_of_dvd (Nat.pos_of_ne_zero (toNat_ne_zero hv)) hdvd
    have hnat := congrArg BitVec.toNat hzero
    rw [BitVec.toNat_ushiftRight, Nat.shiftRight_eq_div_pow] at hnat
    have hpos : 0 < v.toNat / 2 ^ k := Nat.div_pos hle (Nat.pow_pos (by decide))
    simp at hnat
    omega

/-- `Integer::gcd for Uint`: a zero argument as it is, otherwise the binary
algorithm with the common power of two taken out and put back. -/
def gcd (self other : BitVec 256) : BitVec 256 :=
  if hself : self = 0 then self
  else if hother : other = 0 then other
  else
    let shift := trailingZeros (self ||| other)
    have hu : self >>> shift ≠ 0 :=
      shiftRight_ne_zero_of_dvd hself (two_pow_trailingZeros_or_dvd hself).1
    have hv : other >>> shift ≠ 0 :=
      shiftRight_ne_zero_of_dvd hother (two_pow_trailingZeros_or_dvd hself).2
    gcdLoop (self >>> shift >>> trailingZeros (self >>> shift)) (other >>> shift)
      (shiftRight_trailingZeros_ne_zero hu) hv <<< shift

theorem eq_of_sub_eq_zero (hzero : u - v = 0) : u = v := by bv_omega

/-- Powers of two come out of the second side against an odd first side. -/
theorem gcd_shiftRight_trailingZeros (hodd : Odd u.toNat) (hv : v ≠ 0) :
    Nat.gcd u.toNat (v >>> trailingZeros v).toNat = Nat.gcd u.toNat v.toNat := by
  rw [toNat_shiftRight_trailingZeros hv]
  exact gcd_div_two_pow_of_odd hodd (two_pow_padicValNat_dvd _)

/-- From an odd first side the loop computes the gcd: each round keeps the gcd
of the two sides and the first side odd. -/
theorem gcdLoop_toNat (hu : u ≠ 0) (hv : v ≠ 0) (hodd : Odd u.toNat) :
    (gcdLoop u v hu hv).toNat = Nat.gcd u.toNat v.toNat := by
  fun_induction gcdLoop u v hu hv with
  | case1 u v hu hv hswap hdone =>
    -- a swap leaves a positive difference, so this exit is never taken
    rw [eq_of_sub_eq_zero hdone] at hswap
    exact absurd hswap (BitVec.lt_irrefl _)
  | case2 u v hu hv hswap hdone ih =>
    have hle := BitVec.le_def.mp (BitVec.le_of_lt hswap)
    rw [ih (odd_shiftRight_trailingZeros hv), BitVec.toNat_sub_of_le (BitVec.le_of_lt hswap),
      Nat.gcd_sub_self_right hle, Nat.gcd_comm, gcd_shiftRight_trailingZeros hodd hv]
  | case3 u v hu hv hswap hdone =>
    rw [← gcd_shiftRight_trailingZeros hodd hv, eq_of_sub_eq_zero hdone, Nat.gcd_self]
  | case4 u v hu hv hswap hdone ih =>
    have hle := BitVec.not_lt.mp hswap
    rw [ih hodd, BitVec.toNat_sub_of_le hle, Nat.gcd_sub_self_right (BitVec.le_def.mp hle),
      gcd_shiftRight_trailingZeros hodd hv]

/-- `Integer::gcd for Uint` of two nonzero values is their greatest common
divisor: the loop's gcd of the sides without their common power of two, times
that power. -/
theorem gcd_toNat (hself : u ≠ 0) (hother : v ≠ 0) : (gcd u v).toNat = Nat.gcd u.toNat v.toNat := by
  have hdvd := two_pow_trailingZeros_or_dvd (v := v) hself
  have hu : u >>> trailingZeros (u ||| v) ≠ 0 := shiftRight_ne_zero_of_dvd hself hdvd.1
  have hv : v >>> trailingZeros (u ||| v) ≠ 0 := shiftRight_ne_zero_of_dvd hother hdvd.2
  -- one of the sides is odd once the common power of two is out, so the
  -- first loses its own power of two without changing the gcd
  have hloop : (gcdLoop (u >>> trailingZeros (u ||| v) >>> trailingZeros (u >>> trailingZeros (u ||| v)))
      (v >>> trailingZeros (u ||| v)) (shiftRight_trailingZeros_ne_zero hu) hv).toNat =
      Nat.gcd (u.toNat / 2 ^ trailingZeros (u ||| v)) (v.toNat / 2 ^ trailingZeros (u ||| v)) := by
    rw [gcdLoop_toNat _ _ (odd_shiftRight_trailingZeros hu), toNat_shiftRight_trailingZeros hu]
    simp only [BitVec.toNat_ushiftRight, Nat.shiftRight_eq_div_pow]
    rw [trailingZeros_or hself]
    exact gcd_div_two_pow_padicValNat_left
      (odd_or_odd_div_padicValNat_or (toNat_ne_zero hself) (toNat_ne_zero hother))
  have hfits : Nat.gcd u.toNat v.toNat < 2 ^ 256 :=
    lt_of_le_of_lt (Nat.le_of_dvd (Nat.pos_of_ne_zero (toNat_ne_zero hself)) (Nat.gcd_dvd_left _ _)) u.isLt
  rw [gcd, dif_neg hself, dif_neg hother]
  dsimp only
  rw [BitVec.toNat_shiftLeft, hloop, Nat.shiftLeft_eq, ← gcd_eq_gcd_div_mul hdvd.1 hdvd.2,
    Nat.mod_eq_of_lt hfits]

theorem div_of_ne {first second : BitVec 256} (hsecond : second ≠ 0) :
    div first second = .ok (first / second) := if_neg hsecond

theorem div_zero (first : BitVec 256) : div first 0 = .error .divisionByZero := if_pos rfl

theorem mul_of_lt {first second : BitVec 256} (hfit : first.toNat * second.toNat < 2 ^ 256) :
    mul first second = .ok (first * second) := if_pos hfit

theorem mul_of_not_lt {first second : BitVec 256} (hfit : ¬ first.toNat * second.toNat < 2 ^ 256) :
    mul first second = .error .arithmeticOverflow := if_neg hfit

theorem gcd_zero_left (other : BitVec 256) : gcd 0 other = 0 := dif_pos rfl

theorem gcd_zero_right (self : BitVec 256) : gcd self 0 = 0 := by
  by_cases hself : self = 0
  · rw [hself, gcd_zero_left]
  · rw [gcd, dif_neg hself, dif_pos rfl]

theorem gcd_ne_zero (hself : u ≠ 0) (hother : v ≠ 0) : gcd u v ≠ 0 := fun hzero => by
  have hpos := Nat.gcd_pos_of_pos_left v.toNat (Nat.pos_of_ne_zero (toNat_ne_zero hself))
  rw [← gcd_toNat hself hother, hzero] at hpos
  simp at hpos

end Uint

/-! ## Fractions compared by cross products -/

section CrossProducts

variable {a b c d k : ℕ}

theorem compare_mul_right_of_pos (hk : 0 < k) : compare (a * k) (c * k) = compare a c :=
  compare_eq_compare_of_iff (Nat.mul_lt_mul_right hk)
    ⟨Nat.eq_of_mul_eq_mul_right hk, fun heq => heq ▸ rfl⟩

theorem compare_mul_left_of_pos (hk : 0 < k) : compare (k * a) (k * c) = compare a c := by
  rw [Nat.mul_comm k, Nat.mul_comm k]
  exact compare_mul_right_of_pos hk

/-- A common divisor cancels out of a floor quotient. -/
theorem div_div_div_of_dvd (hk : 0 < k) (ha : k ∣ a) (hb : k ∣ b) : a / k / (b / k) = a / b := by
  obtain ⟨a, rfl⟩ := ha
  obtain ⟨b, rfl⟩ := hb
  rw [Nat.mul_div_cancel_left _ hk, Nat.mul_div_cancel_left _ hk, Nat.mul_div_mul_left _ _ hk]

/-- A smaller floor is a smaller fraction. -/
theorem mul_lt_mul_of_div_lt (hb : 0 < b) (hd : 0 < d) (hlt : a / b < c / d) : a * d < c * b := by
  have hbelow : a < b * (c / d) :=
    Nat.lt_of_lt_of_le (Nat.lt_mul_div_succ a hb) (Nat.mul_le_mul_left b hlt)
  calc a * d < b * (c / d) * d := Nat.mul_lt_mul_of_pos_right hbelow hd
    _ = b * (c / d * d) := Nat.mul_assoc _ _ _
    _ ≤ b * c := Nat.mul_le_mul_left b (Nat.div_mul_le_self c d)
    _ = c * b := Nat.mul_comm _ _

/-- Equal floors leave the remainders to compare. -/
theorem compare_mul_of_div_eq (heq : a / b = c / d) :
    compare (a * d) (c * b) = compare (a % b * d) (c % d * b) := by
  have ha : a * d = b * (a / b) * d + a % b * d := by rw [← Nat.add_mul, Nat.div_add_mod]
  have hc : c * b = d * (c / d) * b + c % d * b := by rw [← Nat.add_mul, Nat.div_add_mod]
  have hsame : d * (c / d) * b = b * (a / b) * d := by
    rw [heq, Nat.mul_comm d, Nat.mul_right_comm, Nat.mul_comm (c / d)]
  rw [ha, hc, hsame]
  exact compare_eq_compare_of_iff (by omega) (by omega)

end CrossProducts

/-- `num_rational::Ratio<Uint>`: a numerator over a denominator, reduced or not. -/
structure Ratio where
  numer : BitVec 256
  denom : BitVec 256
  deriving DecidableEq

namespace Ratio

/-- `Ratio::reduce`: a zero denominator panics, a zero numerator gets the
denominator one, equal parts give one, and otherwise both parts are divided by
their gcd. (Its last step, which makes a negative denominator positive, does
nothing to a `Uint`.) -/
def reduce (self : Ratio) : Except Panic Ratio :=
  if self.denom = 0 then .error .zeroDenominator
  else if self.numer = 0 then .ok ⟨self.numer, 1⟩
  else if self.numer = self.denom then .ok ⟨1, 1⟩
  else do
    let g := Uint.gcd self.numer self.denom
    let numer ← Uint.div self.numer g
    let denom ← Uint.div self.denom g
    pure ⟨numer, denom⟩

/-- `Ratio::new`: the reduced ratio. -/
def new (numer denom : BitVec 256) : Except Panic Ratio := reduce ⟨numer, denom⟩

/-- `Ratio::to_integer`: the numerator of `trunc`, the quotient of the parts. -/
def toInteger (self : Ratio) : Except Panic (BitVec 256) := Uint.div self.numer self.denom

/-- `Mul<Uint> for Ratio<Uint>`: the denominator and the integer are divided by
their gcd before the numerator is multiplied. -/
def mulInt (self : Ratio) (other : BitVec 256) : Except Panic Ratio := do
  let gcd := Uint.gcd self.denom other
  let denom ← Uint.div self.denom gcd
  let scaled ← Uint.div other gcd
  let numer ← Uint.mul self.numer scaled
  new numer denom

/-- `CheckedMul for Ratio<Uint>`: each numerator and the other's denominator
are divided by their gcd, then the parts are multiplied with `checked_mul`,
whose `None` ends the product. -/
def checkedMul (self rhs : Ratio) : Except Panic (Option Ratio) := do
  let gcdAd := Uint.gcd self.numer rhs.denom
  let gcdBc := Uint.gcd self.denom rhs.numer
  let first ← Uint.div self.numer gcdAd
  let second ← Uint.div rhs.numer gcdBc
  match Uint.checkedMul first second with
  | none => pure none
  | some numer =>
    let third ← Uint.div self.denom gcdBc
    let fourth ← Uint.div rhs.denom gcdAd
    match Uint.checkedMul third fourth with
    | none => pure none
    | some denom => (new numer denom).map some

/-- The step of `Ord for Ratio<T>` past equal floors: the remainders are both
nonzero here, so each reciprocal has a smaller denominator. -/
theorem cmp_decreasing {self other : Ratio} (hself : self.denom ≠ 0) (hother : other.denom ≠ 0) :
    (self.numer % self.denom).toNat + (other.numer % other.denom).toNat <
      self.denom.toNat + other.denom.toNat := by
  have hselfLt := Nat.mod_lt self.numer.toNat (Nat.pos_of_ne_zero (Uint.toNat_ne_zero hself))
  have hotherLt := Nat.mod_lt other.numer.toNat (Nat.pos_of_ne_zero (Uint.toNat_ne_zero hother))
  rw [BitVec.toNat_umod, BitVec.toNat_umod]
  omega

set_option linter.unusedVariables false in
/-- `Ord for Ratio<T>`: equal denominators compare the numerators, equal
numerators the denominators the other way; otherwise the floors
(`div_mod_floor`, which divides by zero for a zero denominator), a tie broken
by which remainder is zero, and two nonzero remainders by the reciprocals of
what is left, the other way. (The reversals for a negative part do nothing to
a `Uint`.) -/
def cmp (self other : Ratio) : Except Panic Ordering :=
  if self.denom = other.denom then .ok (compare self.numer.toNat other.numer.toNat)
  else if self.numer = other.numer then
    if self.numer = 0 then .ok .eq else .ok (compare self.denom.toNat other.denom.toNat).swap
  else if hself : self.denom = 0 then .error .divisionByZero
  else if hother : other.denom = 0 then .error .divisionByZero
  else
    match compare (self.numer / self.denom).toNat (other.numer / other.denom).toNat with
    | .gt => .ok .gt
    | .lt => .ok .lt
    | .eq =>
      match self.numer % self.denom == 0, other.numer % other.denom == 0 with
      | true, true => .ok .eq
      | true, false => .ok .lt
      | false, true => .ok .gt
      | false, false =>
        (cmp ⟨self.denom, self.numer % self.denom⟩ ⟨other.denom, other.numer % other.denom⟩).map
          Ordering.swap
termination_by self.denom.toNat + other.denom.toNat
decreasing_by exact cmp_decreasing hself hother

theorem toNat_pos {x : BitVec 256} (hx : x ≠ 0) : 0 < x.toNat := Nat.pos_of_ne_zero (Uint.toNat_ne_zero hx)

theorem toNat_umod_of_beq {x y : BitVec 256} (hzero : (x % y == 0) = true) :
    x.toNat % y.toNat = 0 := by
  rw [← BitVec.toNat_umod, beq_iff_eq.mp hzero]
  rfl

theorem toNat_umod_ne_of_beq {x y : BitVec 256} (hzero : (x % y == 0) = false) :
    x.toNat % y.toNat ≠ 0 := by
  rw [← BitVec.toNat_umod]
  exact Uint.toNat_ne_zero (by simpa using hzero)

/-- `Ord for Ratio<T>` of two nonzero denominators compares the fractions: the
numerators, each times the other's denominator. -/
theorem cmp_eq (self other : Ratio) (hself : self.denom ≠ 0) (hother : other.denom ≠ 0) :
    self.cmp other =
      .ok (compare (self.numer.toNat * other.denom.toNat) (other.numer.toNat * self.denom.toNat)) := by
  fun_induction cmp self other with
  | case1 self other hdenom =>
    rw [hdenom, compare_mul_right_of_pos (toNat_pos hother)]
  | case2 self other _ hnumer hzero =>
    rw [← hnumer, hzero, compare_eq_iff_eq.mpr (by simp)]
  | case3 self other _ hnumer hzero =>
    rw [hnumer] at hzero
    rw [hnumer, compare_mul_left_of_pos (toNat_pos hzero), Nat.compare_swap]
  | case4 self other _ _ hzero => exact absurd hzero hself
  | case5 self other _ _ _ hzero => exact absurd hzero hother
  | case6 self other _ _ _ _ hfloor =>
    rw [BitVec.toNat_udiv, BitVec.toNat_udiv, compare_gt_iff_gt] at hfloor
    rw [compare_gt_iff_gt.mpr (mul_lt_mul_of_div_lt (toNat_pos hother) (toNat_pos hself) hfloor)]
  | case7 self other _ _ _ _ hfloor =>
    rw [BitVec.toNat_udiv, BitVec.toNat_udiv, compare_lt_iff_lt] at hfloor
    rw [compare_lt_iff_lt.mpr (mul_lt_mul_of_div_lt (toNat_pos hself) (toNat_pos hother) hfloor)]
  | case8 self other _ _ _ _ hfloor hother0 hself0 =>
    rw [BitVec.toNat_udiv, BitVec.toNat_udiv, compare_eq_iff_eq] at hfloor
    rw [compare_mul_of_div_eq hfloor, toNat_umod_of_beq hself0, toNat_umod_of_beq hother0]
    simp
  | case9 self other _ _ _ _ hfloor hother0 hself0 =>
    rw [BitVec.toNat_udiv, BitVec.toNat_udiv, compare_eq_iff_eq] at hfloor
    have hpos := Nat.mul_pos (Nat.pos_of_ne_zero (toNat_umod_ne_of_beq hother0)) (toNat_pos hself)
    rw [compare_mul_of_div_eq hfloor, toNat_umod_of_beq hself0, Nat.zero_mul,
      compare_lt_iff_lt.mpr hpos]
  | case10 self other _ _ _ _ hfloor hother0 hself0 =>
    rw [BitVec.toNat_udiv, BitVec.toNat_udiv, compare_eq_iff_eq] at hfloor
    have hpos := Nat.mul_pos (Nat.pos_of_ne_zero (toNat_umod_ne_of_beq hself0)) (toNat_pos hother)
    rw [compare_mul_of_div_eq hfloor, toNat_umod_of_beq hother0, Nat.zero_mul,
      compare_gt_iff_gt.mpr hpos]
  | case11 self other _ _ _ _ hfloor hother0 hself0 ih =>
    -- the reciprocals of the remainders, compared the other way
    rw [BitVec.toNat_udiv, BitVec.toNat_udiv, compare_eq_iff_eq] at hfloor
    rw [ih (by simpa using hself0) (by simpa using hother0), compare_mul_of_div_eq hfloor]
    dsimp only
    rw [BitVec.toNat_umod, BitVec.toNat_umod, Nat.mul_comm self.denom.toNat,
      Nat.mul_comm other.denom.toNat]
    exact congrArg Except.ok (Nat.compare_swap _ _)

theorem udiv_eq_ofNat (x y : BitVec 256) : x / y = BitVec.ofNat 256 (x.toNat / y.toNat) := by
  apply BitVec.eq_of_toNat_eq
  rw [BitVec.toNat_udiv, BitVec.toNat_ofNat,
    Nat.mod_eq_of_lt (Nat.lt_of_le_of_lt (Nat.div_le_self _ _) x.isLt)]

theorem ofNat_ne_zero {m : ℕ} (hpos : 0 < m) (hlt : m < 2 ^ 256) : BitVec.ofNat 256 m ≠ 0 :=
  fun hzero => by
    have hnat := congrArg BitVec.toNat hzero
    rw [BitVec.toNat_ofNat, Nat.mod_eq_of_lt hlt] at hnat
    exact Nat.pos_iff_ne_zero.mp hpos hnat

/-- A part over a gcd with it stays a `Uint`. -/
theorem div_gcd_lt (x : BitVec 256) (m : ℕ) : x.toNat / m < 2 ^ 256 :=
  Nat.lt_of_le_of_lt (Nat.div_le_self _ _) x.isLt

/-- `Ratio::reduce` of a nonzero denominator: both parts over their gcd. -/
theorem reduce_eq (self : Ratio) (hdenom : self.denom ≠ 0) :
    self.reduce = .ok ⟨BitVec.ofNat 256 (self.numer.toNat / Nat.gcd self.numer.toNat self.denom.toNat),
      BitVec.ofNat 256 (self.denom.toNat / Nat.gcd self.numer.toNat self.denom.toNat)⟩ := by
  have hd := toNat_pos hdenom
  unfold reduce
  rw [if_neg hdenom]
  by_cases hzero : self.numer = 0
  · -- the gcd with a zero numerator is the denominator
    have hzeroNat : (0 : BitVec 256).toNat = 0 := rfl
    rw [if_pos hzero, hzero, hzeroNat, Nat.gcd_zero_left, Nat.zero_div, Nat.div_self hd]
    rfl
  · rw [if_neg hzero]
    by_cases hsame : self.numer = self.denom
    · rw [if_pos hsame, hsame, Nat.gcd_self, Nat.div_self hd]
      rfl
    · have hg := Uint.gcd_ne_zero hzero hdenom
      rw [if_neg hsame]
      dsimp only
      rw [Uint.div_of_ne hg, ok_bind, Uint.div_of_ne hg, ok_bind, udiv_eq_ofNat, udiv_eq_ofNat,
        Uint.gcd_toNat hzero hdenom]
      rfl

theorem toInteger_eq (self : Ratio) (hdenom : self.denom ≠ 0) :
    self.toInteger = .ok (BitVec.ofNat 256 (self.numer.toNat / self.denom.toNat)) := by
  rw [toInteger, Uint.div_of_ne hdenom, udiv_eq_ofNat]

/-- Reducing keeps the integer part. -/
theorem new_bind_toInteger (numer denom : BitVec 256) (hdenom : denom ≠ 0) :
    (new numer denom >>= toInteger) = .ok (BitVec.ofNat 256 (numer.toNat / denom.toNat)) := by
  have hg := Nat.gcd_pos_of_pos_right numer.toNat (toNat_pos hdenom)
  have hreduced : 0 < denom.toNat / Nat.gcd numer.toNat denom.toNat :=
    Nat.div_pos (Nat.le_of_dvd (toNat_pos hdenom) (Nat.gcd_dvd_right _ _)) hg
  rw [new, reduce_eq _ hdenom, ok_bind, toInteger_eq _ (ofNat_ne_zero hreduced (div_gcd_lt _ _))]
  dsimp only
  rw [BitVec.toNat_ofNat, BitVec.toNat_ofNat, Nat.mod_eq_of_lt (div_gcd_lt _ _),
    Nat.mod_eq_of_lt (div_gcd_lt _ _),
    div_div_div_of_dvd hg (Nat.gcd_dvd_left _ _) (Nat.gcd_dvd_right _ _)]

/-- `Mul<Uint>` by zero: the gcd with zero is zero, and the denominator is
divided by it. -/
theorem mulInt_zero (self : Ratio) : self.mulInt 0 = .error .divisionByZero := by
  unfold mulInt
  dsimp only
  rw [Uint.gcd_zero_right, Uint.div_zero, error_bind]

/-- `Mul<Uint>` of a nonzero denominator by a nonzero integer: the denominator
and the integer over their gcd, the numerator times that integer. -/
theorem mulInt_eq (self : Ratio) (other : BitVec 256) (hdenom : self.denom ≠ 0) (hother : other ≠ 0) :
    self.mulInt other =
      Uint.mul self.numer (BitVec.ofNat 256 (other.toNat / Nat.gcd self.denom.toNat other.toNat)) >>=
        fun numer => new numer (BitVec.ofNat 256 (self.denom.toNat / Nat.gcd self.denom.toNat other.toNat)) := by
  have hg := Uint.gcd_ne_zero hdenom hother
  unfold mulInt
  dsimp only
  rw [Uint.div_of_ne hg, ok_bind, Uint.div_of_ne hg, ok_bind, udiv_eq_ofNat, udiv_eq_ofNat,
    Uint.gcd_toNat hdenom hother]

/-- The integer part of a product that fits is the floor of the exact product. -/
theorem mulInt_bind_toInteger (self : Ratio) (other : BitVec 256) (hdenom : self.denom ≠ 0) (hother : other ≠ 0)
    (hfit : self.numer.toNat * (other.toNat / Nat.gcd self.denom.toNat other.toNat) < 2 ^ 256) :
    (self.mulInt other >>= toInteger) =
      .ok (BitVec.ofNat 256 (self.numer.toNat * other.toNat / self.denom.toNat)) := by
  have hg := Nat.gcd_pos_of_pos_left other.toNat (toNat_pos hdenom)
  have hreduced : 0 < self.denom.toNat / Nat.gcd self.denom.toNat other.toNat :=
    Nat.div_pos (Nat.le_of_dvd (toNat_pos hdenom) (Nat.gcd_dvd_left _ _)) hg
  have hscaled : (BitVec.ofNat 256 (other.toNat / Nat.gcd self.denom.toNat other.toNat)).toNat =
      other.toNat / Nat.gcd self.denom.toNat other.toNat := by
    rw [BitVec.toNat_ofNat, Nat.mod_eq_of_lt (div_gcd_lt _ _)]
  have hfit' := hfit
  rw [← hscaled] at hfit'
  rw [mulInt_eq _ _ hdenom hother, Uint.mul_of_lt hfit', ok_bind,
    new_bind_toInteger _ _ (ofNat_ne_zero hreduced (div_gcd_lt _ _)), BitVec.toNat_mul, hscaled,
    Nat.mod_eq_of_lt hfit, BitVec.toNat_ofNat, Nat.mod_eq_of_lt (div_gcd_lt _ _),
    ← Nat.mul_div_assoc _ (Nat.gcd_dvd_right _ _),
    div_div_div_of_dvd hg (Nat.dvd_mul_left_of_dvd (Nat.gcd_dvd_right _ _) _) (Nat.gcd_dvd_left _ _)]

/-- A product past `U256` overflows. -/
theorem mulInt_of_not_lt (self : Ratio) (other : BitVec 256) (hdenom : self.denom ≠ 0) (hother : other ≠ 0)
    (hfit : ¬ self.numer.toNat * (other.toNat / Nat.gcd self.denom.toNat other.toNat) < 2 ^ 256) :
    self.mulInt other = .error .arithmeticOverflow := by
  have hscaled : (BitVec.ofNat 256 (other.toNat / Nat.gcd self.denom.toNat other.toNat)).toNat =
      other.toNat / Nat.gcd self.denom.toNat other.toNat := by
    rw [BitVec.toNat_ofNat, Nat.mod_eq_of_lt (div_gcd_lt _ _)]
  rw [← hscaled] at hfit
  rw [mulInt_eq _ _ hdenom hother, Uint.mul_of_not_lt hfit, error_bind]

/-- `CheckedMul` of a zero numerator: its gcd with the other denominator is
zero, and the numerator is divided by it, whatever the other ratio. -/
theorem checkedMul_zero_numer (denom : BitVec 256) (rhs : Ratio) :
    (⟨0, denom⟩ : Ratio).checkedMul rhs = .error .divisionByZero := by
  unfold checkedMul
  dsimp only
  rw [Uint.gcd_zero_left, Uint.div_zero, error_bind]

end Ratio

/-- `FractionalVotingPower`: a fraction of the total voting power, meant to
be reduced and between zero and one, which nothing enforces. -/
structure FractionalVotingPower where
  ratio : Ratio
  deriving DecidableEq

namespace FractionalVotingPower

/-- `FractionalVotingPower::TWO_THIRDS`. -/
def twoThirds : FractionalVotingPower := ⟨⟨2, 3⟩⟩

/-- `FractionalVotingPower::WHOLE`. -/
def whole : FractionalVotingPower := ⟨⟨1, 1⟩⟩

/-- `FractionalVotingPower::checked_mul`. -/
def checkedMul (self v : FractionalVotingPower) : Except Panic (Option FractionalVotingPower) :=
  (self.ratio.checkedMul v.ratio).map (Option.map mk)

/-- `FractionalVotingPower::checked_mul_amount`: none above the whole power,
otherwise the integer part of the ratio times the amount, made an amount at
denomination zero. -/
def checkedMulAmount (self : FractionalVotingPower) (v : Amount) : Except Panic (Option Amount) := do
  let order ← self.ratio.cmp whole.ratio
  if order = .gt then pure none
  else do
    let product ← self.ratio.mulInt v.raw
    let fraction ← product.toInteger
    pure (Amount.fromUint fraction 0)

variable {self : FractionalVotingPower}

/-- Against the whole power the comparison is of the numerator with the
denominator. -/
theorem cmp_whole (hdenom : self.ratio.denom ≠ 0) :
    self.ratio.cmp whole.ratio = .ok (compare self.ratio.numer.toNat self.ratio.denom.toNat) := by
  have hone : (1 : BitVec 256).toNat = 1 := rfl
  rw [Ratio.cmp_eq _ _ hdenom (by decide)]
  show Except.ok (compare (self.ratio.numer.toNat * (1 : BitVec 256).toNat)
    ((1 : BitVec 256).toNat * self.ratio.denom.toNat)) = _
  rw [hone, Nat.mul_one, Nat.one_mul]

theorem checkedMulAmount_of_gt (v : Amount) (hdenom : self.ratio.denom ≠ 0)
    (hgt : self.ratio.denom.toNat < self.ratio.numer.toNat) : self.checkedMulAmount v = .ok none := by
  rw [checkedMulAmount, cmp_whole hdenom, ok_bind, if_pos (compare_gt_iff_gt.mpr hgt)]
  rfl

/-- At most the whole power, the amount is multiplied. -/
theorem checkedMulAmount_of_le (v : Amount) (hdenom : self.ratio.denom ≠ 0)
    (hle : self.ratio.numer.toNat ≤ self.ratio.denom.toNat) :
    self.checkedMulAmount v = (self.ratio.mulInt v.raw >>= Ratio.toInteger) >>=
      fun fraction => pure (Amount.fromUint fraction 0) := by
  have hnotGt : compare self.ratio.numer.toNat self.ratio.denom.toNat ≠ .gt :=
    fun hgt => absurd (compare_gt_iff_gt.mp hgt) (Nat.not_lt.mpr hle)
  rw [checkedMulAmount, cmp_whole hdenom, ok_bind, if_neg hnotGt, bind_assoc]

/-- A zero amount: the gcd of the denominator with zero is zero, and the
denominator is divided by it. -/
theorem checkedMulAmount_zero (hdenom : self.ratio.denom ≠ 0)
    (hle : self.ratio.numer.toNat ≤ self.ratio.denom.toNat) :
    self.checkedMulAmount Amount.zero = .error .divisionByZero := by
  have hraw : Amount.zero.raw = 0 := rfl
  rw [checkedMulAmount_of_le _ hdenom hle, hraw, Ratio.mulInt_zero, error_bind, error_bind]

/-- A nonzero amount times a power of at most one: the floor of the exact
product, unless the numerator times the amount over its gcd with the
denominator leaves `U256`, which overflows. -/
theorem checkedMulAmount_eq (v : Amount) (hdenom : self.ratio.denom ≠ 0)
    (hle : self.ratio.numer.toNat ≤ self.ratio.denom.toNat) (hv : v.raw ≠ 0) :
    self.checkedMulAmount v =
      if self.ratio.numer.toNat * (v.raw.toNat / Nat.gcd self.ratio.denom.toNat v.raw.toNat) < 2 ^ 256 then
        .ok (some ⟨BitVec.ofNat 256 (self.ratio.numer.toNat * v.raw.toNat / self.ratio.denom.toNat)⟩)
      else .error .arithmeticOverflow := by
  rw [checkedMulAmount_of_le _ hdenom hle]
  by_cases hfit : self.ratio.numer.toNat * (v.raw.toNat / Nat.gcd self.ratio.denom.toNat v.raw.toNat) < 2 ^ 256
  · rw [if_pos hfit, Ratio.mulInt_bind_toInteger _ _ hdenom hv hfit, ok_bind, Amount.fromUint_zero]
    rfl
  · rw [if_neg hfit, Ratio.mulInt_of_not_lt _ _ hdenom hv hfit, error_bind, error_bind]

end FractionalVotingPower

end Namada.Core

namespace Namada.EthBridge

open Namada.Core Namada.Math

/-- `EpochedVotingPowerExt::has_majority_quorum`, given the tallied stake and
`epoch_max_voting_power` (the greatest total voting power of the epochs voted
on, none without epochs): more than two thirds of that power. -/
def hasMajorityQuorum (talliedStake : Amount) (maxVotingPower : Option Amount) : Except Panic Bool :=
  match maxVotingPower with
  | none => pure false
  | some maxVotingPower => do
    match ← FractionalVotingPower.twoThirds.checkedMulAmount maxVotingPower with
    | none => throw (.expect "Cannot overflow")
    | some threshold => pure (decide (threshold < talliedStake))

/-- A zero greatest voting power divides by zero, whatever was tallied. -/
theorem hasMajorityQuorum_zero (talliedStake : Amount) :
    hasMajorityQuorum talliedStake (some Amount.zero) = .error .divisionByZero := by
  rw [hasMajorityQuorum, FractionalVotingPower.checkedMulAmount_zero (by decide) (by decide), error_bind]

/-- Below `2^255` a nonzero greatest voting power is compared as the floor of
two thirds of it. -/
theorem hasMajorityQuorum_eq (talliedStake maxVotingPower : Amount) (hmax : maxVotingPower.raw ≠ 0)
    (hbelow : maxVotingPower.raw.toNat < 2 ^ 255) :
    hasMajorityQuorum talliedStake (some maxVotingPower) =
      .ok (decide (2 * maxVotingPower.raw.toNat / 3 < talliedStake.raw.toNat)) := by
  have htwo : FractionalVotingPower.twoThirds.ratio.numer.toNat = 2 := rfl
  have hthree : FractionalVotingPower.twoThirds.ratio.denom.toNat = 3 := rfl
  have hfit : 2 * (maxVotingPower.raw.toNat / Nat.gcd 3 maxVotingPower.raw.toNat) < 2 ^ 256 := by
    have hle := Nat.div_le_self maxVotingPower.raw.toNat (Nat.gcd 3 maxVotingPower.raw.toNat)
    omega
  have hthreshold : 2 * maxVotingPower.raw.toNat / 3 < 2 ^ 256 := by omega
  rw [hasMajorityQuorum, FractionalVotingPower.checkedMulAmount_eq _ (by decide) (by decide) hmax,
    htwo, hthree, if_pos hfit, ok_bind]
  show Except.ok (decide ((⟨BitVec.ofNat 256 (2 * maxVotingPower.raw.toNat / 3)⟩ : Amount) < talliedStake)) = _
  rw [decide_eq_decide.mpr (by rw [Amount.lt_iff_toNat_lt, BitVec.toNat_ofNat, Nat.mod_eq_of_lt hthreshold])]

/-- `Uint::gcd` is the gcd on nonzero words and zero when either side is zero;
so the ratio built from a zero numerator or multiplied into a zero amount
fails with a division by zero, as does the quorum check against a zero total,
and two thirds of `2 ^ 256 - 2` overflow. -/
theorem uint_gcd_with_zero_panics :
    (∀ a b : BitVec 256, a ≠ 0 → b ≠ 0 → (Uint.gcd a b).toNat = Nat.gcd a.toNat b.toNat) ∧
      (∀ b : BitVec 256, Uint.gcd 0 b = 0) ∧ (∀ a : BitVec 256, Uint.gcd a 0 = 0) ∧
      (∀ r : FractionalVotingPower, r.ratio.denom ≠ 0 → r.ratio.numer.toNat ≤ r.ratio.denom.toNat →
        r.checkedMulAmount Amount.zero = .error .divisionByZero) ∧
      (∀ (denom : BitVec 256) (v : FractionalVotingPower),
        FractionalVotingPower.checkedMul ⟨⟨0, denom⟩⟩ v = .error .divisionByZero) ∧
      (∀ talliedStake : Amount, hasMajorityQuorum talliedStake (some Amount.zero) = .error .divisionByZero) ∧
      FractionalVotingPower.twoThirds.checkedMulAmount ⟨BitVec.ofNat 256 (2 ^ 256 - 2)⟩ =
        .error .arithmeticOverflow := by
  refine ⟨fun a b ha hb => Uint.gcd_toNat ha hb, Uint.gcd_zero_left, Uint.gcd_zero_right,
    fun r hdenom hle => FractionalVotingPower.checkedMulAmount_zero hdenom hle, ?_, hasMajorityQuorum_zero, ?_⟩
  · intro denom v
    rw [FractionalVotingPower.checkedMul, Ratio.checkedMul_zero_numer]
    rfl
  · -- `2^256 - 2` is prime to three, so the numerator doubles all of it
    rw [FractionalVotingPower.checkedMulAmount_eq _ (by decide) (by decide) (by decide), if_neg (by decide)]

/-- `gcd(12, 18)` is 6 but `gcd(0, 5)` is 0, so two thirds of a zero amount and
the quorum check against a greatest voting power of zero divide by zero. -/
theorem uint_gcd_with_zero_panics_at_five :
    (Uint.gcd 12 18).toNat = 6 ∧ Uint.gcd 0 5 = 0 ∧
      FractionalVotingPower.twoThirds.checkedMulAmount Amount.zero = .error .divisionByZero ∧
      hasMajorityQuorum ⟨7⟩ (some Amount.zero) = .error .divisionByZero := by
  obtain ⟨hgcd, hzero, -, hmul, -, hquorum, -⟩ := uint_gcd_with_zero_panics
  refine ⟨?_, hzero 5, hmul _ (by decide) (by decide), hquorum _⟩
  rw [hgcd 12 18 (by decide) (by decide)]
  rfl

end Namada.EthBridge
