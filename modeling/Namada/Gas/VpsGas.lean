/-
# Gas of validity predicates run in parallel

`execute_vps` of `protocol/mod.rs` runs the validity predicates of a
transaction in parallel with rayon. Each predicate gets a `VpGasMeter` started
from the transaction's meter. `try_fold` sets each finished meter into an
accumulating `VpsGas`. `try_reduce` then merges the accumulators through
`merge_vp_results`. Rayon picks how the predicates are split and grouped, and
it may add fresh accumulators (`Schedule`).

`VpsGas` keeps the largest amount seen and pushes every other amount into
`rest`, the zeros of fresh accumulators included. Its gas is that largest
amount plus a tenth of the rest (`get_current_gas`). Each `set` and each
`merge` checks the transaction's limit against this gas. For every schedule,
the final gas is the parallel cost of the predicates' gas (`parallelCost`).
The aggregation fails exactly when that cost exceeds what the transaction has
left, and so does not depend on the schedule (`vpsGas_schedule_independent`).
A schedule with no step checks nothing. With no predicate and no merge, even a
meter already past its limit goes through (`vpsGas_unchecked_without_steps`).

Gas is the `u64` of `Gas { sub }`, as natural numbers, with `checked_add`
failing at `2 ^ 64`.
-/

import Namada.Math.Schedule

namespace Namada.Gas

open Namada.Math

/-- `Error` of the gas crate. -/
inductive Error
  /-- "Transaction gas limit exceeded". -/
  | transactionGasExceededError
  /-- "Block gas limit exceeded". -/
  | blockGasExceeded
  /-- "Overflow during gas operations". -/
  | gasOverflow
  deriving DecidableEq

/-- `PARALLEL_GAS_DIVIDER`. -/
def parallelGasDivider : ℕ := 10

/-- `Gas::checked_add`: `u64::checked_add` on the sub-units. -/
def checkedAdd (first second : ℕ) : Option ℕ :=
  if first + second < 2 ^ 64 then some (first + second) else none

/-- `checked_add(..).ok_or(Error::GasOverflow)`. -/
def addOrOverflow (first second : ℕ) : Except Error ℕ :=
  match checkedAdd first second with
  | some total => .ok total
  | none => .error .gasOverflow

/-- `TxGasMeter`. -/
structure TxGasMeter where
  gasOverflow : Bool
  txGasLimit : ℕ
  transactionGas : ℕ

/-- `VpGasMeter`. -/
structure VpGasMeter where
  gasOverflow : Bool
  txGasLimit : ℕ
  initialGas : ℕ
  currentGas : ℕ

/-- `VpsGas`: the largest gas of the parallel runs and the others. -/
structure VpsGas where
  max : ℕ
  rest : List ℕ

namespace TxGasMeter

/-- `GasMetering::get_tx_consumed_gas for TxGasMeter`. -/
def getTxConsumedGas (self : TxGasMeter) : ℕ :=
  if !self.gasOverflow then self.transactionGas else 2 ^ 64 - 1

/-- `GasMetering::get_gas_limit for TxGasMeter`. -/
def getGasLimit (self : TxGasMeter) : ℕ := self.txGasLimit

end TxGasMeter

namespace VpGasMeter

/-- `GasMetering::consume for VpGasMeter`: the updated meter, which is kept
also when the result is an error, and the result. -/
def consume (self : VpGasMeter) (gas : ℕ) : VpGasMeter × Except Error Unit :=
  if self.gasOverflow then (self, .error .gasOverflow)
  else
    match checkedAdd self.currentGas gas with
    | none => ({ self with gasOverflow := true }, .error .gasOverflow)
    | some currentGas =>
      match checkedAdd self.initialGas currentGas with
      | none => ({ self with currentGas := currentGas }, .error .gasOverflow)
      | some currentTotal =>
        ({ self with currentGas := currentGas },
          if self.txGasLimit < currentTotal then .error .transactionGasExceededError else .ok ())

/-- `GasMetering::get_tx_consumed_gas for VpGasMeter`. -/
def getTxConsumedGas (self : VpGasMeter) : ℕ :=
  if !self.gasOverflow then self.initialGas else 2 ^ 64 - 1

/-- `GasMetering::get_gas_limit for VpGasMeter`. -/
def getGasLimit (self : VpGasMeter) : ℕ := self.txGasLimit

/-- `VpGasMeter::new_from_tx_meter`. -/
def newFromTxMeter (txGasMeter : TxGasMeter) : VpGasMeter :=
  ⟨false, txGasMeter.txGasLimit, txGasMeter.transactionGas, 0⟩

end VpGasMeter

namespace VpsGas

/-- `VpsGas::default`. -/
def default : VpsGas := ⟨0, []⟩

/-- The update `set` and `merge` share: a larger amount becomes the largest and
the old largest joins the rest; any other amount joins the rest. -/
def push (self : VpsGas) (gas : ℕ) : VpsGas :=
  if self.max < gas then ⟨gas, self.rest ++ [self.max]⟩ else ⟨self.max, self.rest ++ [gas]⟩

/-- `VpsGas::get_current_gas`. -/
def getCurrentGas (self : VpsGas) : Except Error ℕ := do
  let rest ← self.rest.foldlM addOrOverflow 0
  addOrOverflow self.max (rest / parallelGasDivider)

/-- `VpsGas::check_limit`, with the consumed gas and the limit the meter gives. -/
def checkLimit (self : VpsGas) (txConsumedGas gasLimit : ℕ) : Except Error Unit := do
  let total ← addOrOverflow txConsumedGas (← self.getCurrentGas)
  if gasLimit < total then .error .transactionGasExceededError else pure ()

/-- `VpsGas::set`. -/
def set (self : VpsGas) (vpGasMeter : VpGasMeter) : Except Error VpsGas := do
  let self := self.push vpGasMeter.currentGas
  self.checkLimit vpGasMeter.getTxConsumedGas vpGasMeter.getGasLimit
  pure self

/-- `VpsGas::merge`. -/
def merge (self other : VpsGas) (txGasMeter : TxGasMeter) : Except Error VpsGas := do
  let self := self.push other.max
  let self := { self with rest := self.rest ++ other.rest }
  self.checkLimit txGasMeter.getTxConsumedGas txGasMeter.getGasLimit
  pure self

end VpsGas

/-- The meter a validity predicate hands back: `new_from_tx_meter` of the
transaction's meter, having consumed `consumedGas` without overflow. A meter
that consumes amounts adding up below `2 ^ 64` ends here
(`foldl_consume_newFromTxMeter`). -/
def vpMeterOf (txGasMeter : TxGasMeter) (consumedGas : ℕ) : VpGasMeter :=
  { VpGasMeter.newFromTxMeter txGasMeter with currentGas := consumedGas }

/-- The gas part of `execute_vps` and `merge_vp_results` in one schedule:
`try_fold` sets the meter of each validity predicate, given by the gas it
consumed, into its accumulator, and `try_reduce` merges the accumulators. -/
def executeVpsGas (txGasMeter : TxGasMeter) (schedule : Schedule ℕ) : Except Error VpsGas :=
  schedule.run VpsGas.default (fun gasUsed consumedGas => gasUsed.set (vpMeterOf txGasMeter consumedGas))
    fun gasUsed other => gasUsed.merge other txGasMeter

/-! ## A meter's consumption -/

namespace VpGasMeter

/-- Short of overflow, a meter adds up what it consumes, whether or not the
limit is passed. -/
theorem consume_fst {meter : VpGasMeter} {gas : ℕ} (hflag : meter.gasOverflow = false)
    (hfits : meter.currentGas + gas < 2 ^ 64) :
    (meter.consume gas).1 = { meter with currentGas := meter.currentGas + gas } := by
  rw [consume, if_neg (by simp [hflag]), checkedAdd, if_pos hfits]
  dsimp only
  split <;> rfl

/-- A validity predicate's meter, after consuming amounts that add up below
`2 ^ 64`, is `vpMeterOf` their sum. -/
theorem foldl_consume_newFromTxMeter (txGasMeter : TxGasMeter) (amounts : List ℕ)
    (hfits : amounts.sum < 2 ^ 64) :
    amounts.foldl (fun meter gas => (meter.consume gas).1) (newFromTxMeter txGasMeter) =
      vpMeterOf txGasMeter amounts.sum := by
  -- the fold from any meter that has not overflowed, with what it consumed so far
  suffices hfold : ∀ (meter : VpGasMeter), meter.gasOverflow = false →
      meter.currentGas + amounts.sum < 2 ^ 64 →
      amounts.foldl (fun meter gas => (meter.consume gas).1) meter =
        { meter with currentGas := meter.currentGas + amounts.sum } by
    rw [hfold _ rfl (by simpa [newFromTxMeter] using hfits)]
    simp [vpMeterOf, newFromTxMeter]
  clear hfits
  induction amounts with
  | nil => intro meter _ _; simp
  | cons gas amounts ih =>
    intro meter hflag hsum
    rw [List.sum_cons] at hsum
    rw [List.foldl_cons, consume_fst hflag (by omega),
      ih { meter with currentGas := meter.currentGas + gas } hflag
        (by show meter.currentGas + gas + amounts.sum < 2 ^ 64; omega),
      List.sum_cons, Nat.add_assoc]

end VpGasMeter

/-! ## What `VpsGas` holds -/

namespace VpsGas

/-- The amounts a `VpsGas` holds: its largest and the rest. -/
def content (self : VpsGas) : Multiset ℕ := self.max ::ₘ (self.rest : Multiset ℕ)

/-- The largest amount bounds the rest. -/
def Balanced (self : VpsGas) : Prop := ∀ gas ∈ self.rest, gas ≤ self.max

theorem balanced_default : default.Balanced := fun _ hmem => absurd hmem List.not_mem_nil

@[simp] theorem content_default : default.content = {0} := rfl

theorem content_push (self : VpsGas) (gas : ℕ) : (self.push gas).content = gas ::ₘ self.content := by
  rw [push]
  split
  · rw [content, content, Multiset.coe_eq_coe.mpr (List.perm_append_singleton _ _), ← Multiset.cons_coe]
  · rw [content, content, Multiset.coe_eq_coe.mpr (List.perm_append_singleton _ _), ← Multiset.cons_coe,
      Multiset.cons_swap]

theorem Balanced.push {self : VpsGas} (hbalanced : self.Balanced) (gas : ℕ) : (self.push gas).Balanced := by
  rw [VpsGas.push]
  split
  · -- the new amount is the largest: the old largest and the rest lie below it
    rename_i hlt
    intro amount hmem
    rcases List.mem_append.mp hmem with hrest | hmax
    · exact Nat.le_of_lt (Nat.lt_of_le_of_lt (hbalanced amount hrest) hlt)
    · rw [List.mem_singleton.mp hmax]
      exact Nat.le_of_lt hlt
  · rename_i hge
    intro amount hmem
    rcases List.mem_append.mp hmem with hrest | hnew
    · exact hbalanced amount hrest
    · rw [List.mem_singleton.mp hnew]
      exact Nat.not_lt.mp hge

/-- The update of `merge`: the other's largest pushed, then its rest appended. -/
def absorb (self other : VpsGas) : VpsGas :=
  { self.push other.max with rest := (self.push other.max).rest ++ other.rest }

theorem content_absorb (self other : VpsGas) : (self.absorb other).content = self.content + other.content := by
  have hpush := content_push self other.max
  rw [content, content] at hpush ⊢
  rw [absorb, ← Multiset.coe_add, ← Multiset.cons_add, hpush, content, Multiset.add_cons, Multiset.cons_add]

theorem Balanced.absorb {self other : VpsGas} (hself : self.Balanced) (hother : other.Balanced) :
    (self.absorb other).Balanced := by
  -- the push keeps the largest at least the other's largest, which bounds its rest
  have hge : other.max ≤ (self.push other.max).max := by
    rw [VpsGas.push]
    split
    · exact Nat.le_refl _
    · exact Nat.not_lt.mp ‹_›
  intro amount hmem
  rcases List.mem_append.mp hmem with hpushed | hrest
  · exact hself.push other.max amount hpushed
  · exact Nat.le_trans (hother amount hrest) hge

theorem merge_eq (self other : VpsGas) (txGasMeter : TxGasMeter) :
    self.merge other txGasMeter =
      ((self.absorb other).checkLimit txGasMeter.getTxConsumedGas txGasMeter.getGasLimit).map
        fun _ => self.absorb other := by
  have hmerge : self.merge other txGasMeter =
      (do (self.absorb other).checkLimit txGasMeter.getTxConsumedGas txGasMeter.getGasLimit
          pure (self.absorb other)) := rfl
  rw [hmerge]
  cases (self.absorb other).checkLimit txGasMeter.getTxConsumedGas txGasMeter.getGasLimit <;> rfl

theorem set_eq (self : VpsGas) (vpGasMeter : VpGasMeter) :
    self.set vpGasMeter =
      ((self.push vpGasMeter.currentGas).checkLimit vpGasMeter.getTxConsumedGas vpGasMeter.getGasLimit).map
        fun _ => self.push vpGasMeter.currentGas := by
  rw [set]
  cases (self.push vpGasMeter.currentGas).checkLimit vpGasMeter.getTxConsumedGas vpGasMeter.getGasLimit <;> rfl

end VpsGas

/-! ## The gas of a `VpsGas` -/

/-- Adding up with `checked_add` fails exactly when the whole sum leaves `u64`:
the partial sums only grow. -/
theorem foldlM_addOrOverflow (amounts : List ℕ) {start : ℕ} (hstart : start < 2 ^ 64) :
    amounts.foldlM addOrOverflow start =
      if start + amounts.sum < 2 ^ 64 then .ok (start + amounts.sum) else .error .gasOverflow := by
  induction amounts generalizing start with
  | nil =>
    rw [List.sum_nil, Nat.add_zero, if_pos hstart]
    rfl
  | cons amount amounts ih =>
    rw [List.foldlM_cons, List.sum_cons, addOrOverflow, checkedAdd]
    by_cases hfits : start + amount < 2 ^ 64
    · rw [if_pos hfits]
      show (amounts.foldlM addOrOverflow (start + amount)) = _
      rw [ih hfits, Nat.add_assoc]
    · rw [if_neg hfits, if_neg (by omega)]
      rfl

namespace VpsGas

variable {self : VpsGas}

/-- A balanced `VpsGas` has the parallel cost of its amounts as its gas, short
of overflow. -/
theorem getCurrentGas_eq (hbalanced : self.Balanced) :
    self.getCurrentGas =
      if restSum self.content < 2 ^ 64 ∧ parallelCost parallelGasDivider self.content < 2 ^ 64 then
        .ok (parallelCost parallelGasDivider self.content)
      else .error .gasOverflow := by
  have hrest : restSum self.content = self.rest.sum := by
    rw [content, restSum_cons_of_forall_le (fun amount hmem => hbalanced amount hmem), Multiset.sum_coe]
  have hcost : parallelCost parallelGasDivider self.content = self.max + self.rest.sum / parallelGasDivider := by
    rw [parallelCost, hrest, content, sup_cons_of_forall_le (fun amount hmem => hbalanced amount hmem)]
  rw [getCurrentGas, foldlM_addOrOverflow _ (Nat.two_pow_pos 64), Nat.zero_add, hrest, hcost]
  by_cases hsum : self.rest.sum < 2 ^ 64
  · rw [if_pos hsum]
    show addOrOverflow self.max (self.rest.sum / parallelGasDivider) = _
    rw [addOrOverflow, checkedAdd]
    by_cases hfits : self.max + self.rest.sum / parallelGasDivider < 2 ^ 64
    · rw [if_pos hfits, if_pos ⟨hsum, hfits⟩]
    · rw [if_neg hfits, if_neg (fun h => hfits h.2)]
  · rw [if_neg hsum, if_neg (fun h => hsum h.1)]
    rfl

/-- What a failed check says about the amounts it was made at. -/
def Exceeds (txConsumedGas gasLimit : ℕ) (work : Multiset ℕ) (err : Error) : Prop :=
  (err = .transactionGasExceededError → gasLimit < txConsumedGas + parallelCost parallelGasDivider work) ∧
    (err = .gasOverflow →
      2 ^ 64 ≤ restSum work ∨ 2 ^ 64 ≤ txConsumedGas + parallelCost parallelGasDivider work) ∧
    err ≠ .blockGasExceeded

theorem Exceeds.mono {txConsumedGas gasLimit : ℕ} {work more : Multiset ℕ} {err : Error}
    (hle : work ≤ more) (hexceeds : Exceeds txConsumedGas gasLimit work err) :
    Exceeds txConsumedGas gasLimit more err := by
  have hcost := parallelCost_mono parallelGasDivider hle
  have hrest := restSum_mono hle
  obtain ⟨hlimit, hoverflow, hblock⟩ := hexceeds
  refine ⟨fun herr => ?_, fun herr => ?_, hblock⟩
  · have := hlimit herr
    omega
  · rcases hoverflow herr with hbig | hbig
    · exact Or.inl (Nat.le_trans hbig hrest)
    · exact Or.inr (by omega)

/-- A check on a balanced `VpsGas` fails only as `Exceeds` says. -/
theorem checkLimit_error {txConsumedGas gasLimit : ℕ} {err : Error} (hbalanced : self.Balanced)
    (hcheck : self.checkLimit txConsumedGas gasLimit = .error err) :
    Exceeds txConsumedGas gasLimit self.content err := by
  rw [checkLimit, getCurrentGas_eq hbalanced] at hcheck
  by_cases hfits : restSum self.content < 2 ^ 64 ∧ parallelCost parallelGasDivider self.content < 2 ^ 64
  · rw [if_pos hfits] at hcheck
    change (do
      let total ← addOrOverflow txConsumedGas (parallelCost parallelGasDivider self.content)
      if gasLimit < total then .error .transactionGasExceededError else pure ()) = _ at hcheck
    rw [addOrOverflow, checkedAdd] at hcheck
    by_cases htotal : txConsumedGas + parallelCost parallelGasDivider self.content < 2 ^ 64
    · rw [if_pos htotal] at hcheck
      change (if gasLimit < _ then _ else _) = _ at hcheck
      by_cases hexceeded : gasLimit < txConsumedGas + parallelCost parallelGasDivider self.content
      · rw [if_pos hexceeded] at hcheck
        cases hcheck
        exact ⟨fun _ => hexceeded, fun h => absurd h (by decide), by decide⟩
      · rw [if_neg hexceeded] at hcheck
        cases hcheck
    · rw [if_neg htotal] at hcheck
      cases hcheck
      exact ⟨fun h => absurd h (by decide), fun _ => Or.inr (Nat.not_lt.mp htotal), by decide⟩
  · rw [if_neg hfits] at hcheck
    cases hcheck
    refine ⟨fun h => absurd h (by decide), fun _ => ?_, by decide⟩
    rw [not_and_or, Nat.not_lt, Nat.not_lt] at hfits
    rcases hfits with hbig | hbig
    · exact Or.inl hbig
    · exact Or.inr (Nat.le_trans hbig (Nat.le_add_left _ _))

/-- A check on a balanced `VpsGas` that passes finds the limit not exceeded. -/
theorem checkLimit_ok {txConsumedGas gasLimit : ℕ} (hbalanced : self.Balanced)
    (hcheck : self.checkLimit txConsumedGas gasLimit = .ok ()) :
    ¬gasLimit < txConsumedGas + parallelCost parallelGasDivider self.content := by
  intro hexceeded
  rw [checkLimit, getCurrentGas_eq hbalanced] at hcheck
  by_cases hfits : restSum self.content < 2 ^ 64 ∧ parallelCost parallelGasDivider self.content < 2 ^ 64
  · rw [if_pos hfits] at hcheck
    change (do
      let total ← addOrOverflow txConsumedGas (parallelCost parallelGasDivider self.content)
      if gasLimit < total then .error .transactionGasExceededError else pure ()) = _ at hcheck
    rw [addOrOverflow, checkedAdd] at hcheck
    by_cases htotal : txConsumedGas + parallelCost parallelGasDivider self.content < 2 ^ 64
    · rw [if_pos htotal] at hcheck
      change (if gasLimit < _ then _ else _) = _ at hcheck
      rw [if_pos hexceeded] at hcheck
      cases hcheck
    · rw [if_neg htotal] at hcheck
      cases hcheck
  · rw [if_neg hfits] at hcheck
    cases hcheck

end VpsGas

/-! ## Any schedule -/

section Schedule

variable {txGasMeter : TxGasMeter}

/-- A meter that has not overflowed gives its own gas as consumed. -/
theorem TxGasMeter.getTxConsumedGas_of_valid (hvalid : txGasMeter.gasOverflow = false) :
    txGasMeter.getTxConsumedGas = txGasMeter.transactionGas := by
  rw [TxGasMeter.getTxConsumedGas, hvalid]
  rfl

/-- `set` and `merge` keep the largest amount on top, `set` adds the
predicate's gas to what the accumulator holds, and `merge` adds up the two. -/
theorem executeVpsGas_additive (txGasMeter : TxGasMeter) :
    Schedule.Additive VpsGas.default
      (fun gasUsed consumedGas => gasUsed.set (vpMeterOf txGasMeter consumedGas))
      (fun gasUsed other => gasUsed.merge other txGasMeter) VpsGas.Balanced VpsGas.content := by
  refine ⟨VpsGas.balanced_default, fun acc consumedGas next hacc hset => ?_,
    fun first second next hfirst hsecond hmerge => ?_⟩
  · obtain ⟨_, -, rfl⟩ := map_eq_ok ((VpsGas.set_eq acc _).symm.trans hset)
    exact ⟨hacc.push consumedGas, VpsGas.content_push acc consumedGas⟩
  · obtain ⟨_, -, rfl⟩ := map_eq_ok ((VpsGas.merge_eq first second txGasMeter).symm.trans hmerge)
    exact ⟨hfirst.absorb hsecond, VpsGas.content_absorb first second⟩

/-- A `set` or a `merge` that fails, fails at the amounts it has just taken in. -/
theorem executeVpsGas_monotone (hvalid : txGasMeter.gasOverflow = false) :
    Schedule.Monotone VpsGas.default
      (fun gasUsed consumedGas => gasUsed.set (vpMeterOf txGasMeter consumedGas))
      (fun gasUsed other => gasUsed.merge other txGasMeter) VpsGas.Balanced VpsGas.content
      (VpsGas.Exceeds txGasMeter.transactionGas txGasMeter.txGasLimit) := by
  refine ⟨fun _ _ _ hle hexceeds => hexceeds.mono hle, fun acc consumedGas err hacc hset => ?_,
    fun first second err hfirst hsecond hmerge => ?_⟩
  · -- the predicate's meter reads the transaction's gas and limit
    rw [VpsGas.set_eq, map_eq_error_iff] at hset
    have hexceeds := VpsGas.checkLimit_error (hacc.push consumedGas) hset
    rwa [VpsGas.content_push] at hexceeds
  · rw [VpsGas.merge_eq, map_eq_error_iff, TxGasMeter.getTxConsumedGas_of_valid hvalid] at hmerge
    have hexceeds := VpsGas.checkLimit_error (hfirst.absorb hsecond) hmerge
    rwa [VpsGas.content_absorb] at hexceeds

/-- The amounts a schedule's result holds: the predicates' gas, and one zero
for every accumulator. -/
theorem content_executeVpsGas {schedule : Schedule ℕ} {gasUsed : VpsGas}
    (hrun : executeVpsGas txGasMeter schedule = .ok gasUsed) :
    gasUsed.Balanced ∧ gasUsed.content = ↑schedule.items + schedule.leaves • {0} :=
  Schedule.run_ok_content (executeVpsGas_additive txGasMeter) schedule hrun

/-- A schedule that takes a step ends with a check that passed. -/
theorem executeVpsGas_within_limit (hvalid : txGasMeter.gasOverflow = false) {schedule : Schedule ℕ}
    (hsteps : schedule ≠ .fold []) {gasUsed : VpsGas} (hrun : executeVpsGas txGasMeter schedule = .ok gasUsed) :
    ¬txGasMeter.txGasLimit < txGasMeter.transactionGas + parallelCost parallelGasDivider gasUsed.content := by
  refine Schedule.run_ok_of_ne_fold_nil (executeVpsGas_additive txGasMeter)
    (fun gasUsed => ¬txGasMeter.txGasLimit <
      txGasMeter.transactionGas + parallelCost parallelGasDivider gasUsed.content)
    (fun acc consumedGas next hacc hset => ?_) (fun first second next hfirst hsecond hmerge => ?_)
    schedule hsteps hrun
  · obtain ⟨_, hcheck, rfl⟩ := map_eq_ok ((VpsGas.set_eq acc _).symm.trans hset)
    exact VpsGas.checkLimit_ok (hacc.push consumedGas) hcheck
  · obtain ⟨_, hcheck, rfl⟩ := map_eq_ok ((VpsGas.merge_eq first second txGasMeter).symm.trans hmerge)
    rw [TxGasMeter.getTxConsumedGas_of_valid hvalid] at hcheck
    exact VpsGas.checkLimit_ok (hfirst.absorb hsecond) hcheck

end Schedule

/-! ## The gas does not depend on the schedule -/

section Independence

variable {txGasMeter : TxGasMeter} {schedule : Schedule ℕ}

/-- A schedule that succeeds ends with the parallel cost of the predicates'
gas, within what the transaction has left. -/
theorem executeVpsGas_ok (hvalid : txGasMeter.gasOverflow = false)
    (hfits : restSum ↑schedule.items < 2 ^ 64 ∧
      txGasMeter.transactionGas + parallelCost parallelGasDivider ↑schedule.items < 2 ^ 64)
    (hchecked : schedule ≠ .fold [] ∨ txGasMeter.transactionGas ≤ txGasMeter.txGasLimit)
    {gasUsed : VpsGas} (hrun : executeVpsGas txGasMeter schedule = .ok gasUsed) :
    gasUsed.getCurrentGas = .ok (parallelCost parallelGasDivider ↑schedule.items) ∧
      ¬txGasMeter.txGasLimit < txGasMeter.transactionGas + parallelCost parallelGasDivider ↑schedule.items := by
  obtain ⟨hbalanced, hcontent⟩ := content_executeVpsGas hrun
  -- the zeros of the accumulators change neither the rest's sum nor the cost
  have hcost : parallelCost parallelGasDivider gasUsed.content = parallelCost parallelGasDivider ↑schedule.items := by
    rw [hcontent, parallelCost_add_zeros]
  have hrest : restSum gasUsed.content = restSum ↑schedule.items := by
    rw [hcontent, restSum_add_zeros]
  refine ⟨?_, ?_⟩
  · rw [VpsGas.getCurrentGas_eq hbalanced, hcost, hrest, if_pos ⟨hfits.1, by omega⟩]
  · rcases hchecked with hsteps | hwithin
    · rw [← hcost]
      exact executeVpsGas_within_limit hvalid hsteps hrun
    · -- a schedule without steps feeds nothing, at no cost
      by_cases hsteps : schedule = .fold []
      · subst hsteps
        have hzero : parallelCost parallelGasDivider ↑(Schedule.fold ([] : List ℕ)).items = 0 := by decide
        rw [hzero]
        omega
      · rw [← hcost]
        exact executeVpsGas_within_limit hvalid hsteps hrun

/-- A schedule fails only by exceeding the limit, when the cost of the
predicates' gas is more than the transaction has left. -/
theorem executeVpsGas_error (hvalid : txGasMeter.gasOverflow = false)
    (hfits : restSum ↑schedule.items < 2 ^ 64 ∧
      txGasMeter.transactionGas + parallelCost parallelGasDivider ↑schedule.items < 2 ^ 64)
    {err : Error} (hrun : executeVpsGas txGasMeter schedule = .error err) :
    err = .transactionGasExceededError ∧
      txGasMeter.txGasLimit < txGasMeter.transactionGas + parallelCost parallelGasDivider ↑schedule.items := by
  have hexceeds := Schedule.run_error (executeVpsGas_additive txGasMeter) (executeVpsGas_monotone hvalid)
    schedule hrun
  rw [VpsGas.content_default] at hexceeds
  obtain ⟨hlimit, hoverflow, hblock⟩ := hexceeds
  rw [parallelCost_add_zeros] at hlimit hoverflow
  rw [restSum_add_zeros] at hoverflow
  cases err with
  | transactionGasExceededError => exact ⟨rfl, hlimit rfl⟩
  | blockGasExceeded => exact absurd rfl hblock
  | gasOverflow =>
    -- the whole schedule's sums fit, so no partial one overflowed
    rcases hoverflow rfl with hbig | hbig <;> omega

/-- What a schedule charges, its gas or its error, depends on the predicates'
gas alone. -/
theorem executeVpsGas_bind_getCurrentGas (hvalid : txGasMeter.gasOverflow = false)
    (hfits : restSum ↑schedule.items < 2 ^ 64 ∧
      txGasMeter.transactionGas + parallelCost parallelGasDivider ↑schedule.items < 2 ^ 64)
    (hchecked : schedule ≠ .fold [] ∨ txGasMeter.transactionGas ≤ txGasMeter.txGasLimit) :
    (executeVpsGas txGasMeter schedule).bind VpsGas.getCurrentGas =
      if txGasMeter.txGasLimit < txGasMeter.transactionGas + parallelCost parallelGasDivider ↑schedule.items then
        .error .transactionGasExceededError
      else .ok (parallelCost parallelGasDivider ↑schedule.items) := by
  cases hrun : executeVpsGas txGasMeter schedule with
  | ok gasUsed =>
    obtain ⟨hgas, hwithin⟩ := executeVpsGas_ok hvalid hfits hchecked hrun
    rw [if_neg hwithin]
    exact hgas
  | error err =>
    obtain ⟨rfl, hexceeded⟩ := executeVpsGas_error hvalid hfits hrun
    rw [if_pos hexceeded]
    rfl

/-- Validity-predicate gas does not depend on the parallel schedule. Take a
transaction meter that has not overflowed, and the gas each predicate consumed,
split and combined by `try_fold` and `try_reduce` in any way. Assume the final
aggregate's sums fit a `u64`, so that no step of the schedule overflows. Assume
also that some `set` or `merge` happens, or that the transaction is within its
limit. Then a successful run's gas is the largest amount plus a tenth of the
others. The run can only fail by exceeding the limit, and it fails so exactly
when that gas is more than the transaction has left. Any two schedules of the
same predicates charge the same. -/
theorem vpsGas_schedule_independent (txGasMeter : TxGasMeter) (hvalid : txGasMeter.gasOverflow = false)
    (schedule : Schedule ℕ)
    (hfits : restSum ↑schedule.items < 2 ^ 64 ∧
      txGasMeter.transactionGas + parallelCost parallelGasDivider ↑schedule.items < 2 ^ 64)
    (hchecked : schedule ≠ .fold [] ∨ txGasMeter.transactionGas ≤ txGasMeter.txGasLimit) :
    (∀ gasUsed, executeVpsGas txGasMeter schedule = .ok gasUsed →
      gasUsed.getCurrentGas = .ok (parallelCost parallelGasDivider ↑schedule.items)) ∧
    (∀ err, executeVpsGas txGasMeter schedule = .error err → err = .transactionGasExceededError) ∧
    (executeVpsGas txGasMeter schedule = .error .transactionGasExceededError ↔
      txGasMeter.txGasLimit < txGasMeter.transactionGas + parallelCost parallelGasDivider ↑schedule.items) ∧
    ∀ other : Schedule ℕ, other.items.Perm schedule.items →
      (other ≠ .fold [] ∨ txGasMeter.transactionGas ≤ txGasMeter.txGasLimit) →
      (executeVpsGas txGasMeter other).bind VpsGas.getCurrentGas =
        (executeVpsGas txGasMeter schedule).bind VpsGas.getCurrentGas := by
  refine ⟨fun gasUsed hrun => (executeVpsGas_ok hvalid hfits hchecked hrun).1,
    fun err hrun => (executeVpsGas_error hvalid hfits hrun).1, ⟨fun hrun => ?_, fun hexceeded => ?_⟩,
    fun other hperm hotherChecked => ?_⟩
  · exact (executeVpsGas_error hvalid hfits hrun).2
  · -- a run that succeeded would be within the limit
    cases hrun : executeVpsGas txGasMeter schedule with
    | ok gasUsed => exact absurd hexceeded (executeVpsGas_ok hvalid hfits hchecked hrun).2
    | error err => rw [(executeVpsGas_error hvalid hfits hrun).1]
  · -- the two schedules feed the same multiset of amounts
    have hsame : (↑other.items : Multiset ℕ) = ↑schedule.items := Multiset.coe_eq_coe.mpr hperm
    rw [executeVpsGas_bind_getCurrentGas hvalid (hsame ▸ hfits) hotherChecked,
      executeVpsGas_bind_getCurrentGas hvalid hfits hchecked, hsame]

end Independence

/-! ## Two schedules -/

/-- A transaction of 10 units out of 100, with predicates of 30, 20 and 40
units in two accumulators. -/
def tenOfHundred : TxGasMeter := ⟨false, 100, 10⟩

/-- Two accumulators: one fed 30 and 20, the other 40. -/
def twoAccumulators : Schedule ℕ := .reduce (.fold [30, 20]) (.fold [40])

theorem vpsGas_schedule_independent_two_accumulators :
    tenOfHundred.gasOverflow = false ∧
      (restSum ↑twoAccumulators.items < 2 ^ 64 ∧
        tenOfHundred.transactionGas + parallelCost parallelGasDivider ↑twoAccumulators.items < 2 ^ 64) ∧
      (twoAccumulators ≠ .fold [] ∨ tenOfHundred.transactionGas ≤ tenOfHundred.txGasLimit) ∧
      (∀ gasUsed, executeVpsGas tenOfHundred twoAccumulators = .ok gasUsed →
        gasUsed.getCurrentGas = .ok (parallelCost parallelGasDivider ↑twoAccumulators.items)) ∧
      (∀ err, executeVpsGas tenOfHundred twoAccumulators = .error err → err = .transactionGasExceededError) ∧
      (executeVpsGas tenOfHundred twoAccumulators = .error .transactionGasExceededError ↔
        tenOfHundred.txGasLimit < tenOfHundred.transactionGas +
          parallelCost parallelGasDivider ↑twoAccumulators.items) ∧
      ∀ other : Schedule ℕ, other.items.Perm twoAccumulators.items →
        (other ≠ .fold [] ∨ tenOfHundred.transactionGas ≤ tenOfHundred.txGasLimit) →
        (executeVpsGas tenOfHundred other).bind VpsGas.getCurrentGas =
          (executeVpsGas tenOfHundred twoAccumulators).bind VpsGas.getCurrentGas := by
  have hvalid : tenOfHundred.gasOverflow = false := rfl
  have hfits : restSum ↑twoAccumulators.items < 2 ^ 64 ∧
      tenOfHundred.transactionGas + parallelCost parallelGasDivider ↑twoAccumulators.items < 2 ^ 64 := by
    decide
  have hchecked : twoAccumulators ≠ .fold [] ∨ tenOfHundred.transactionGas ≤ tenOfHundred.txGasLimit :=
    Or.inl (by decide)
  exact ⟨hvalid, hfits, hchecked, vpsGas_schedule_independent tenOfHundred hvalid twoAccumulators hfits hchecked⟩

/-- A transaction already past its limit: 1 unit out of 0. -/
def pastItsLimit : TxGasMeter := ⟨false, 0, 1⟩

/-- With no predicate and no merge nothing is checked: the run succeeds,
although the transaction's gas plus the cost of nothing exceeds the limit. -/
theorem vpsGas_unchecked_without_steps :
    executeVpsGas pastItsLimit (.fold []) = .ok VpsGas.default ∧
      pastItsLimit.txGasLimit <
        pastItsLimit.transactionGas + parallelCost parallelGasDivider ↑(Schedule.fold ([] : List ℕ)).items :=
  ⟨rfl, by decide⟩

end Namada.Gas
