/-
# Trimming keeps what epoched handles read

The abstract view of an epoched handle is its untrimmed history: every value
set, or every delta added, at the epoch it was written for, with nothing ever
removed. `Epoched::get` should read the value at the greatest written epoch up
to the requested one, and `EpochedDelta::get_sum` the sum of the deltas up to
it, both as the untrimmed history would give them.

`Trims` says what the trimmed storage keeps of the history at the epoch of its
last update: nothing below the kept bound `last_update - PastEpochs`, the
history itself above the bound, and the history's scan at the bound. Both
handles' writes keep it when their current epochs do not decrease, except an
`EpochedDelta::set` that overwrites the epoch trimmed deltas were just added
to; from it the reads follow for every epoch from the kept bound on.
-/

import Namada.ProofOfStake.Epoched

namespace Namada.ProofOfStake

open Namada.Math EpochedStorage

variable {α : Type}

/-- The arguments of one write through an epoched handle. -/
structure Call (α : Type) where
  value : α
  currentEpoch : ℕ
  offset : ℕ

/-- The epoch a call writes at, `current_epoch + offset`. -/
def Call.target (call : Call α) : ℕ := call.currentEpoch + call.offset

/-- The current epoch of the last call, or `start` when there is none. -/
def latestEpoch (start : ℕ) (calls : List (Call α)) : ℕ :=
  calls.foldl (fun _ call => call.currentEpoch) start

/-- A write through an `EpochedDelta` handle. -/
inductive DeltaCall (α : Type)
  | add (call : Call α)
  | set (call : Call α)

/-- The arguments of a delta write. -/
def DeltaCall.call : DeltaCall α → Call α
  | .add call => call
  | .set call => call

/-! ## Runs and untrimmed histories -/

namespace Epoched

/-- `Epoched::set` with each call's arguments in turn. -/
def setAll (past : ℕ) (storage : EpochedStorage α) (calls : List (Call α)) : EpochedStorage α :=
  calls.foldl (fun storage call => set past storage call.value call.currentEpoch call.offset)
    storage

/-- The untrimmed history of the same calls: each value at the epoch it was set for. -/
def setHistory (history : ℕ → Option α) (calls : List (Call α)) : ℕ → Option α :=
  calls.foldl (fun history call => Function.update history call.target (some call.value)) history

end Epoched

namespace EpochedDelta

variable [AddCommMonoid α]

/-- One delta write through the handle. -/
def apply (past : ℕ) (storage : EpochedStorage α) : DeltaCall α → EpochedStorage α
  | .add call => add past storage call.value call.currentEpoch call.offset
  | .set call => set past storage call.value call.currentEpoch call.offset

/-- The delta writes in turn. -/
def applyAll (past : ℕ) (storage : EpochedStorage α) (calls : List (DeltaCall α)) :
    EpochedStorage α :=
  calls.foldl (apply past) storage

/-- One delta write on the untrimmed deltas. -/
def record (history : ℕ → Option α) : DeltaCall α → ℕ → Option α
  | .add call =>
      Function.update history call.target (some ((history call.target).getD 0 + call.value))
  | .set call => Function.update history call.target (some call.value)

/-- The untrimmed deltas of the same writes. -/
def recordAll (history : ℕ → Option α) (calls : List (DeltaCall α)) : ℕ → Option α :=
  calls.foldl record history

/-- A write that cannot overwrite the epoch trimmed deltas were added to: an
add, or a set with a positive `PastEpochs`, a positive offset, or at genesis. -/
def KeepsCarry (past : ℕ) : DeltaCall α → Prop
  | .add _ => True
  | .set call => 0 < past ∨ 0 < call.offset ∨ call.currentEpoch = 0

end EpochedDelta

/-! ## The trimming invariant -/

/-- What the trimmed storage keeps of an untrimmed history, for a handle last
updated at `lastUpdate` whose reads scan with `combine`. -/
structure Trims (combine : Option α → Option α → Option α) (past : ℕ)
    (storage : EpochedStorage α) (history : ℕ → Option α) (lastUpdate : ℕ) : Prop where
  lastUpdate_eq : storage.lastUpdate = some lastUpdate
  /-- The oldest epoch is at most the last update, with nothing stored below it. -/
  oldest : ∃ oldest : ℕ, storage.oldestEpoch = some oldest ∧ oldest ≤ lastUpdate ∧
    NoneBelow storage.data oldest
  noneBelow_kept : NoneBelow storage.data (lastUpdate - past)
  agreeAbove : AgreeAbove storage.data history (lastUpdate - past)
  scan_kept :
    prefixScan combine storage.data (lastUpdate - past) =
      prefixScan combine history (lastUpdate - past)

namespace Trims

variable {combine : Option α → Option α → Option α} {past : ℕ} {storage : EpochedStorage α}
  {history : ℕ → Option α} {lastUpdate : ℕ}

/-- `init_at_genesis` on empty storage starts with the history itself. -/
theorem genesis (combine : Option α → Option α → Option α) (past : ℕ) (value : α) (epoch : ℕ) :
    Trims combine past (empty.initAtGenesis value epoch) (empty.initAtGenesis value epoch).data
      epoch where
  lastUpdate_eq := rfl
  oldest := ⟨epoch, rfl, le_rfl, fun _ hlt => Function.update_of_ne (Nat.ne_of_lt hlt) _ _⟩
  noneBelow_kept := fun _ hlt => Function.update_of_ne (by omega) _ _
  agreeAbove := fun _ _ => rfl
  scan_kept := rfl

/-- From the kept bound on, the storage scans as the history does. -/
theorem scan_eq (htrims : Trims combine past storage history lastUpdate) {epoch : ℕ}
    (hle : lastUpdate - past ≤ epoch) :
    prefixScan combine storage.data epoch = prefixScan combine history epoch :=
  prefixScan_congr htrims.agreeAbove htrims.scan_kept epoch hle

/-- An update that trims nothing: the oldest epoch is still kept. -/
theorem touch (htrims : Trims combine past storage history lastUpdate) {currentEpoch : ℕ}
    (hle : lastUpdate ≤ currentEpoch)
    (hkept : ∀ oldest, storage.oldestEpoch = some oldest → currentEpoch - past ≤ oldest) :
    Trims combine past (storage.touch currentEpoch) history currentEpoch := by
  obtain ⟨oldest, ho, hol, hnone⟩ := htrims.oldest
  have hbound : currentEpoch - past ≤ oldest := hkept oldest ho
  exact {
    lastUpdate_eq := rfl
    oldest := ⟨oldest, by simp [ho], by omega, hnone⟩
    noneBelow_kept := hnone.mono hbound
    agreeAbove := htrims.agreeAbove.mono (by omega)
    scan_kept := htrims.scan_eq (by omega) }

/-- An update that drains the epochs from the oldest up to the new kept bound
and combines what it drained into the bound. -/
theorem drain (hskip : ∀ value, combine none value = value)
    (htrims : Trims combine past storage history lastUpdate) {currentEpoch oldest : ℕ}
    (hle : lastUpdate ≤ currentEpoch) (ho : storage.oldestEpoch = some oldest)
    (hlt : oldest < currentEpoch - past) {updated : EpochedStorage α}
    (hlu : updated.lastUpdate = some currentEpoch)
    (hnewOldest : ∃ newOldest, updated.oldestEpoch = some newOldest ∧
      newOldest ≤ currentEpoch - past)
    (hdata : updated.data =
      Function.update (drainRange combine storage.data oldest (currentEpoch - past - oldest)).2
        (currentEpoch - past)
        (combine (drainRange combine storage.data oldest (currentEpoch - past - oldest)).1
          ((drainRange combine storage.data oldest (currentEpoch - past - oldest)).2
            (currentEpoch - past)))) :
    Trims combine past updated history currentEpoch := by
  obtain ⟨oldest', ho', -, hnone⟩ := htrims.oldest
  obtain rfl : oldest = oldest' := Option.some_inj.mp (ho.symm.trans ho')
  obtain ⟨newOldest, hnew, hnewle⟩ := hnewOldest
  -- the drain ends exactly at the new kept bound
  have hend : oldest + (currentEpoch - past - oldest) = currentEpoch - past := by omega
  have hdrained : NoneBelow (drainRange combine storage.data oldest
      (currentEpoch - past - oldest)).2 (oldest + (currentEpoch - past - oldest)) :=
    hnone.drainRange _
  rw [hend] at hdrained
  have hbelow : NoneBelow updated.data (currentEpoch - past) := by
    intro epoch hepoch
    rw [hdata, Function.update_of_ne (Nat.ne_of_lt hepoch)]
    exact hdrained epoch hepoch
  -- what the drain combines into the bound is the scan there
  have hfold := prefixScan_drainRange hskip hnone (currentEpoch - past - oldest)
  rw [hend] at hfold
  have hscan : prefixScan combine updated.data (currentEpoch - past) =
      prefixScan combine storage.data (currentEpoch - past) := by
    rw [prefixScan_of_noneBelow hskip hbelow, hdata, Function.update_self,
      drainRange_snd_of_le _ hend.le, hfold]
  exact {
    lastUpdate_eq := hlu
    oldest := ⟨newOldest, hnew, by omega, hbelow.mono hnewle⟩
    noneBelow_kept := hbelow
    agreeAbove := fun epoch hepoch => by
      rw [hdata, Function.update_of_ne (Nat.ne_of_gt hepoch),
        drainRange_snd_of_le _ (by omega)]
      exact htrims.agreeAbove epoch (by omega)
    scan_kept := hscan.trans (htrims.scan_eq (by omega)) }

/-- A write above the kept bound, made alike in the storage and the history. -/
theorem write_above (htrims : Trims combine past storage history lastUpdate) (value : α)
    (offset : ℕ) (habove : lastUpdate - past < lastUpdate + offset) :
    Trims combine past (storage.setAtEpoch value lastUpdate offset)
      (Function.update history (lastUpdate + offset) (some value)) lastUpdate := by
  obtain ⟨oldest, ho, hol, hnone⟩ := htrims.oldest
  exact {
    lastUpdate_eq := htrims.lastUpdate_eq
    oldest := ⟨oldest, ho, hol, fun epoch hepoch => by
      rw [setAtEpoch_data, Function.update_of_ne (by omega)]
      exact hnone epoch hepoch⟩
    noneBelow_kept := fun epoch hepoch => by
      rw [setAtEpoch_data, Function.update_of_ne (by omega)]
      exact htrims.noneBelow_kept epoch hepoch
    agreeAbove := fun epoch hepoch => by
      by_cases hat : epoch = lastUpdate + offset
      · subst hat
        simp
      · rw [setAtEpoch_data, Function.update_of_ne hat, Function.update_of_ne hat]
        exact htrims.agreeAbove epoch hepoch
    scan_kept := by
      rw [setAtEpoch_data, prefixScan_update_of_lt _ habove, prefixScan_update_of_lt _ habove]
      exact htrims.scan_kept }

/-- A write at the kept bound itself, which keeps the invariant when the two
scans still agree there. -/
theorem write_kept (htrims : Trims combine past storage history lastUpdate) (value : α)
    (recorded : Option α) (offset : ℕ) (hat : lastUpdate + offset = lastUpdate - past)
    (hscan : prefixScan combine (Function.update storage.data (lastUpdate - past) (some value))
        (lastUpdate - past) =
      prefixScan combine (Function.update history (lastUpdate - past) recorded)
        (lastUpdate - past)) :
    Trims combine past (storage.setAtEpoch value lastUpdate offset)
      (Function.update history (lastUpdate + offset) recorded) lastUpdate := by
  obtain ⟨oldest, ho, hol, hnone⟩ := htrims.oldest
  rw [hat]
  exact {
    lastUpdate_eq := htrims.lastUpdate_eq
    oldest := ⟨oldest, ho, hol, fun epoch hepoch => by
      rw [setAtEpoch_data, hat, Function.update_of_ne (by omega)]
      exact hnone epoch hepoch⟩
    noneBelow_kept := fun epoch hepoch => by
      rw [setAtEpoch_data, hat, Function.update_of_ne (Nat.ne_of_lt hepoch)]
      exact htrims.noneBelow_kept epoch hepoch
    agreeAbove := fun epoch hepoch => by
      rw [setAtEpoch_data, hat, Function.update_of_ne (Nat.ne_of_gt hepoch),
        Function.update_of_ne (Nat.ne_of_gt hepoch)]
      exact htrims.agreeAbove epoch hepoch
    scan_kept := by rw [setAtEpoch_data, hat]; exact hscan }

end Trims

/-! ## The writes of each handle keep the invariant -/

namespace Epoched

variable {past : ℕ} {storage : EpochedStorage α} {history : ℕ → Option α} {lastUpdate : ℕ}

theorem trims_updateData (htrims : Trims keepLatest past storage history lastUpdate)
    {currentEpoch : ℕ} (hle : lastUpdate ≤ currentEpoch) :
    Trims keepLatest past (updateData past storage currentEpoch) history currentEpoch := by
  obtain ⟨oldest, ho, -, -⟩ := htrims.oldest
  rcases Nat.lt_or_ge oldest (currentEpoch - past) with hlt | hge
  · obtain ⟨hlu, hnewOldest, hdata⟩ := updateData_of_lt htrims.lastUpdate_eq ho hlt
    exact htrims.drain keepLatest_none_left hle ho hlt hlu hnewOldest hdata
  · rw [updateData_of_le htrims.lastUpdate_eq ho hge]
    exact htrims.touch hle fun oldest' ho' => by
      obtain rfl : oldest' = oldest := Option.some_inj.mp (ho'.symm.trans ho)
      exact hge

theorem trims_set (htrims : Trims keepLatest past storage history lastUpdate)
    {currentEpoch : ℕ} (hle : lastUpdate ≤ currentEpoch) (value : α) (offset : ℕ) :
    Trims keepLatest past (set past storage value currentEpoch offset)
      (Function.update history (currentEpoch + offset) (some value)) currentEpoch := by
  have hupdated := trims_updateData htrims hle
  rcases Nat.lt_or_ge (currentEpoch - past) (currentEpoch + offset) with habove | hkept
  · exact hupdated.write_above value offset habove
  · -- the write lands on the kept bound, and both scans read the value written
    apply hupdated.write_kept value (some value) offset (by omega)
    rw [← lastAtOrBelow, ← lastAtOrBelow, lastAtOrBelow_update_self,
      lastAtOrBelow_update_self]

/-- A run of sets with non-decreasing current epochs keeps the invariant. -/
theorem trims_setAll (htrims : Trims keepLatest past storage history lastUpdate)
    (calls : List (Call α))
    (hepochs : (lastUpdate :: calls.map Call.currentEpoch).Pairwise (· ≤ ·)) :
    Trims keepLatest past (setAll past storage calls) (setHistory history calls)
      (latestEpoch lastUpdate calls) := by
  induction calls generalizing storage history lastUpdate with
  | nil => exact htrims
  | cons call calls ih =>
      rw [List.map_cons, List.pairwise_cons] at hepochs
      have hle : lastUpdate ≤ call.currentEpoch := hepochs.1 _ List.mem_cons_self
      exact ih (trims_set htrims hle call.value call.offset) hepochs.2

/-- Reads of trimmed storage are the history's reads from the kept bound on. -/
theorem get_of_trims (htrims : Trims keepLatest past storage history lastUpdate) (future : ℕ)
    {epoch : ℕ} (hle : lastUpdate - past ≤ epoch) :
    get past future storage epoch = lastAtOrBelow history (min epoch (lastUpdate + future)) := by
  rw [get_eq_lastAtOrBelow htrims.lastUpdate_eq htrims.noneBelow_kept hle]
  exact htrims.scan_eq (by omega)

end Epoched

namespace EpochedDelta

variable [AddCommMonoid α] {past : ℕ} {storage : EpochedStorage α} {history : ℕ → Option α}
  {lastUpdate : ℕ}

theorem trims_updateData (htrims : Trims addUp past storage history lastUpdate)
    {currentEpoch : ℕ} (hle : lastUpdate ≤ currentEpoch) :
    Trims addUp past (updateData past storage currentEpoch) history currentEpoch := by
  obtain ⟨oldest, ho, -, -⟩ := htrims.oldest
  rcases Nat.lt_or_ge oldest (currentEpoch - past) with hlt | hge
  · obtain ⟨hlu, hnewOldest, hdata⟩ := updateData_of_lt htrims.lastUpdate_eq ho hlt
    exact htrims.drain addUp_none_left hle ho hlt hlu hnewOldest hdata
  · rw [updateData_of_le htrims.lastUpdate_eq ho hge]
    exact htrims.touch hle fun oldest' ho' => by
      obtain rfl : oldest' = oldest := Option.some_inj.mp (ho'.symm.trans ho)
      exact hge

theorem trims_add (htrims : Trims addUp past storage history lastUpdate)
    {currentEpoch : ℕ} (hle : lastUpdate ≤ currentEpoch) (value : α) (offset : ℕ) :
    Trims addUp past (add past storage value currentEpoch offset)
      (Function.update history (currentEpoch + offset)
        (some ((history (currentEpoch + offset)).getD 0 + value)))
      currentEpoch := by
  have hupdated := trims_updateData htrims hle
  rcases Nat.lt_or_ge (currentEpoch - past) (currentEpoch + offset) with habove | hkept
  · -- above the kept bound the storage holds the history's delta, so both add alike
    have hsame : (updateData past storage currentEpoch).data (currentEpoch + offset) =
        history (currentEpoch + offset) := hupdated.agreeAbove _ habove
    simp only [add, getDeltaVal, hsame]
    exact hupdated.write_above _ offset habove
  · -- at the kept bound the two deltas differ, but adding to each adds to both sums
    have hat : currentEpoch + offset = currentEpoch - past := by omega
    apply hupdated.write_kept _ _ offset hat
    simp only [getDeltaVal, hat]
    rw [← sumAtOrBelow, ← sumAtOrBelow, sumAtOrBelow_update_add_self,
      sumAtOrBelow_update_add_self]
    exact congrArg (addUp · (some value)) (hupdated.scan_eq le_rfl)

theorem trims_set (htrims : Trims addUp past storage history lastUpdate)
    {currentEpoch : ℕ} (hle : lastUpdate ≤ currentEpoch) (value : α) (offset : ℕ)
    (hcarry : 0 < past ∨ 0 < offset ∨ currentEpoch = 0) :
    Trims addUp past (set past storage value currentEpoch offset)
      (Function.update history (currentEpoch + offset) (some value)) currentEpoch := by
  have hupdated := trims_updateData htrims hle
  rcases Nat.lt_or_ge (currentEpoch - past) (currentEpoch + offset) with habove | hkept
  · exact hupdated.write_above value offset habove
  · -- only a set at genesis lands on the kept bound, where both scans start
    have hzero : currentEpoch - past = 0 := by omega
    apply hupdated.write_kept value _ offset (by omega)
    rw [hzero]
    simp

theorem trims_apply (htrims : Trims addUp past storage history lastUpdate) (call : DeltaCall α)
    (hle : lastUpdate ≤ call.call.currentEpoch) (hcarry : KeepsCarry past call) :
    Trims addUp past (apply past storage call) (record history call) call.call.currentEpoch := by
  cases call with
  | add call => exact trims_add htrims hle call.value call.offset
  | set call => exact trims_set htrims hle call.value call.offset hcarry

/-- A run of delta writes with non-decreasing current epochs, none of which
overwrites carried deltas, keeps the invariant. -/
theorem trims_applyAll (htrims : Trims addUp past storage history lastUpdate)
    (calls : List (DeltaCall α))
    (hepochs : (lastUpdate :: calls.map fun call => call.call.currentEpoch).Pairwise (· ≤ ·))
    (hcarry : ∀ call ∈ calls, KeepsCarry past call) :
    Trims addUp past (applyAll past storage calls) (recordAll history calls)
      (latestEpoch lastUpdate (calls.map DeltaCall.call)) := by
  induction calls generalizing storage history lastUpdate with
  | nil => exact htrims
  | cons call calls ih =>
      rw [List.map_cons, List.pairwise_cons] at hepochs
      have hle : lastUpdate ≤ call.call.currentEpoch := hepochs.1 _ List.mem_cons_self
      exact ih (trims_apply htrims call hle (hcarry call List.mem_cons_self)) hepochs.2
        fun call' hmem => hcarry call' (List.mem_cons_of_mem _ hmem)

/-- Sums of trimmed storage are the history's sums from the kept bound on. -/
theorem getSum_of_trims (htrims : Trims addUp past storage history lastUpdate) (future : ℕ)
    {epoch : ℕ} (hle : lastUpdate - past ≤ epoch) :
    getSum past future storage epoch = sumAtOrBelow history (min epoch (lastUpdate + future)) := by
  rw [getSum_eq_sumAtOrBelow htrims.lastUpdate_eq htrims.noneBelow_kept hle]
  exact htrims.scan_eq (by omega)

end EpochedDelta

/-! ## Reads after a run from genesis -/

/-- After `init_at_genesis` and writes with non-decreasing current epochs, both
handles read their untrimmed history from the kept bound on: `Epoched::get`
the value at the greatest written epoch up to the capped epoch, and
`EpochedDelta::get_sum` the sum of every delta up to it, `None` exactly when
there is none, provided no `EpochedDelta::set` overwrites carried deltas. -/
theorem epoched_reads_untrimmed_history (α β : Type) [AddCommMonoid β] (past future genesis : ℕ) :
    (∀ (first : α) (calls : List (Call α)),
      (genesis :: calls.map Call.currentEpoch).Pairwise (· ≤ ·) →
      let storage := Epoched.setAll past (empty.initAtGenesis first genesis) calls
      let history := Epoched.setHistory (empty.initAtGenesis first genesis).data calls
      let lastUpdate := latestEpoch genesis calls
      storage.lastUpdate = some lastUpdate ∧
        ∀ epoch, lastUpdate - past ≤ epoch → ∀ value,
          Epoched.get past future storage epoch = some value ↔
            ∃ written ≤ min epoch (lastUpdate + future), history written = some value ∧
              ∀ later, written < later → later ≤ min epoch (lastUpdate + future) →
                history later = none) ∧
    (∀ (first : β) (calls : List (DeltaCall β)),
      (genesis :: calls.map fun call => call.call.currentEpoch).Pairwise (· ≤ ·) →
      (∀ call ∈ calls, EpochedDelta.KeepsCarry past call) →
      let storage := EpochedDelta.applyAll past (empty.initAtGenesis first genesis) calls
      let history := EpochedDelta.recordAll (empty.initAtGenesis first genesis).data calls
      let lastUpdate := latestEpoch genesis (calls.map DeltaCall.call)
      storage.lastUpdate = some lastUpdate ∧
        ∀ epoch, lastUpdate - past ≤ epoch →
          (EpochedDelta.getSum past future storage epoch).getD 0 =
              ∑ written ∈ Finset.range (min epoch (lastUpdate + future) + 1),
                (history written).getD 0 ∧
            (EpochedDelta.getSum past future storage epoch = none ↔
              ∀ written ≤ min epoch (lastUpdate + future), history written = none)) := by
  refine ⟨fun first calls hepochs => ?_, fun first calls hepochs hcarry => ?_⟩
  · have htrims := Epoched.trims_setAll (Trims.genesis keepLatest past first genesis) calls hepochs
    refine ⟨htrims.lastUpdate_eq, fun epoch hle value => ?_⟩
    rw [Epoched.get_of_trims htrims future hle]
    exact lastAtOrBelow_eq_some_iff _ _ _
  · have htrims :=
      EpochedDelta.trims_applyAll (Trims.genesis addUp past first genesis) calls hepochs hcarry
    refine ⟨htrims.lastUpdate_eq, fun epoch hle => ?_⟩
    rw [EpochedDelta.getSum_of_trims htrims future hle]
    exact ⟨sumAtOrBelow_getD _ _, sumAtOrBelow_eq_none_iff _ _⟩

/-- With one past epoch kept, runs that trim the epochs below 4 still read the
value set for epoch 4 and the sum of every delta from genesis on. -/
theorem epoched_reads_untrimmed_history_after_trims :
    Epoched.get 1 2 (Epoched.setAll 1 (empty.initAtGenesis (1 : ℕ) 0) [⟨7, 1, 2⟩, ⟨9, 4, 0⟩]) 5 =
        some 9 ∧
      EpochedDelta.getSum 1 2 (EpochedDelta.applyAll 1 (empty.initAtGenesis (5 : ℤ) 0)
        [.add ⟨3, 1, 2⟩, .set ⟨2, 4, 1⟩, .add ⟨4, 5, 0⟩]) 6 = some 14 := by
  obtain ⟨hset, hdelta⟩ := epoched_reads_untrimmed_history ℕ ℤ 1 2 0
  constructor
  · -- the value set at epoch 4 is the last one written up to epoch 5
    refine (((hset 1 [⟨7, 1, 2⟩, ⟨9, 4, 0⟩] (by decide)).2 5 (by decide) 9).mpr
      ⟨4, by decide, by decide, fun later hafter hle => ?_⟩)
    obtain rfl : later = 5 := by omega
    decide
  · -- the deltas of epochs 0 to 6 add up to 14, though the storage keeps none below 4
    have hcalls := hdelta 5 [.add ⟨3, 1, 2⟩, .set ⟨2, 4, 1⟩, .add ⟨4, 5, 0⟩] (by decide)
      (by simp [EpochedDelta.KeepsCarry])
    obtain ⟨hsum, hnone⟩ := hcalls.2 6 (by decide)
    cases hget : EpochedDelta.getSum 1 2 (EpochedDelta.applyAll 1 (empty.initAtGenesis (5 : ℤ) 0)
        [.add ⟨3, 1, 2⟩, .set ⟨2, 4, 1⟩, .add ⟨4, 5, 0⟩]) 6 with
    | none => exact absurd ((hnone.mp hget) 0 (by decide)) (by decide)
    | some total =>
      rw [hget, Option.getD_some] at hsum
      rw [hsum]
      decide

/-- With `PastEpochs` zero, a set at offset zero after genesis overwrites the
delta the trim has just carried to the current epoch: the sum loses the
genesis delta that the untrimmed history keeps. -/
theorem epochedDelta_set_drops_carried_sum :
    EpochedDelta.getSum 0 0
        (EpochedDelta.applyAll 0 (empty.initAtGenesis (5 : ℤ) 0) [.set ⟨1, 1, 0⟩]) 1 = some 1 ∧
      sumAtOrBelow
        (EpochedDelta.recordAll (empty.initAtGenesis (5 : ℤ) 0).data [.set ⟨1, 1, 0⟩]) 1 =
          some 6 := by
  decide

end Namada.ProofOfStake
