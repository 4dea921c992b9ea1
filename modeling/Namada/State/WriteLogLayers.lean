/-
# The write log refines a stack of append-only logs

The intended reading of the write log: every modification lands in one of
three layers, the open transaction, its precommit bucket, or the block; a read
takes the most recent modification of the highest layer that has one, and
`read_pre` sees the block layer only. `LayeredLog` states that reading with
lists that are only ever appended to, moved wholesale between layers, or
cleared. The hash maps of `WriteLog` summarize those lists
(`Namada.Math.Summarizes`), and every operation keeps that correspondence, so
that along any sequence of calls the hash-map reads agree with the log reads.

The layering is by layer first and by time second: a protocol write made
while a transaction is open lands in the block layer, below the open
transaction's own writes, although it happened later.
-/

import Namada.State.WriteLog

namespace Namada.State

open Namada.Math

/-- The calls that change the write log. -/
inductive Op (κ : Type)
  | write (key : κ) (value : List UInt8)
  | delete (key : κ)
  | writeTemp (key : κ) (value : List UInt8)
  | protocolWrite (key : κ) (value : List UInt8)
  | protocolDelete (key : κ)
  | precommitTx
  | commitTx
  | dropTx
  | dropTxKeepPrecommit

/-- The calls that may change the block log. -/
def Op.writesBlock {κ : Type} : Op κ → Bool
  | .protocolWrite _ _ | .protocolDelete _ | .commitTx => true
  | _ => false

/-- Whether a previous modification initialized an account. -/
def isInitAccount : Option StorageModification → Bool
  | some (.initAccount _) => true
  | _ => false

namespace WriteLog

variable {κ ε : Type} [DecidableEq κ] (keyLen : κ → Nat) (isValidityPredicate : κ → Bool)

/-! ## What each call does to the state -/

theorem write_snd (wl : WriteLog κ ε) (key : κ) (value : List UInt8) :
    (wl.write keyLen key value).2 =
      if key ∈ wl.txTempLog ∨ isInitAccount (wl.lookupTx key) = true then wl
      else { wl with txWriteLog := wl.txWriteLog.insert key (.write value) } := by
  unfold write
  by_cases htemp : key ∈ wl.txTempLog
  · simp [htemp]
  · rw [if_neg htemp]
    cases hprev : wl.lookupTx key with
    | none => simp [htemp, isInitAccount]
    | some prev => cases prev <;> simp [htemp, isInitAccount]

theorem delete_snd (wl : WriteLog κ ε) (key : κ) :
    (wl.delete keyLen isValidityPredicate key).2 =
      if isValidityPredicate key = true ∨ isInitAccount (wl.lookupTx key) = true then wl
      else { wl with txWriteLog := wl.txWriteLog.insert key .delete } := by
  unfold delete
  by_cases hvp : isValidityPredicate key = true
  · simp [hvp]
  · rw [if_neg hvp]
    cases hprev : wl.lookupTx key with
    | none => simp [hvp, isInitAccount]
    | some prev => cases prev <;> simp [hvp, isInitAccount]

theorem writeTemp_snd (wl : WriteLog κ ε) (key : κ) (value : List UInt8) :
    (wl.writeTemp keyLen key value).2 =
      if (wl.lookupTx key).isSome then wl
      else { wl with txTempLog := wl.txTempLog.insert key value } := by
  unfold writeTemp
  cases hprev : wl.lookupTx key with
  | none => simp
  | some prev => cases prev <;> simp

theorem protocolWrite_snd (wl : WriteLog κ ε) (key : κ) (value : List UInt8) :
    (wl.protocolWrite key value).2 =
      if key ∈ wl.txTempLog then wl
      else { wl with blockWriteLog := wl.blockWriteLog.insert key (.write value) } := by
  unfold protocolWrite
  by_cases htemp : key ∈ wl.txTempLog
  · simp [htemp]
  · rw [if_neg htemp, if_neg htemp]
    split <;> rfl

theorem protocolDelete_snd (wl : WriteLog κ ε) (key : κ) :
    (wl.protocolDelete isValidityPredicate key).2 =
      if isValidityPredicate key = true then wl
      else { wl with blockWriteLog := wl.blockWriteLog.insert key .delete } := by
  unfold protocolDelete
  by_cases hvp : isValidityPredicate key = true
  · simp [hvp]
  · rw [if_neg hvp, if_neg hvp]
    split <;> rfl

/-! ## Failing calls -/

/-- A failing `write` leaves every log as it was. -/
theorem write_error_snd {wl : WriteLog κ ε} {key : κ} {value : List UInt8} {e : Error}
    (hfail : (wl.write keyLen key value).1 = .error e) : (wl.write keyLen key value).2 = wl := by
  unfold write at hfail ⊢
  by_cases htemp : key ∈ wl.txTempLog
  · simp [htemp]
  · cases hprev : wl.lookupTx key with
    | none => simp [htemp, hprev] at hfail
    | some prev => cases prev <;> simp [htemp, hprev] at hfail ⊢

/-- A failing `delete` leaves every log as it was. -/
theorem delete_error_snd {wl : WriteLog κ ε} {key : κ} {e : Error}
    (hfail : (wl.delete keyLen isValidityPredicate key).1 = .error e) :
    (wl.delete keyLen isValidityPredicate key).2 = wl := by
  unfold delete at hfail ⊢
  by_cases hvp : isValidityPredicate key = true
  · simp [hvp]
  · cases hprev : wl.lookupTx key with
    | none => simp [hvp, hprev] at hfail
    | some prev => cases prev <;> simp [hvp, hprev] at hfail ⊢

/-- A failing `write_temp` leaves every log as it was. -/
theorem writeTemp_error_snd {wl : WriteLog κ ε} {key : κ} {value : List UInt8} {e : Error}
    (hfail : (wl.writeTemp keyLen key value).1 = .error e) :
    (wl.writeTemp keyLen key value).2 = wl := by
  unfold writeTemp at hfail ⊢
  cases hprev : wl.lookupTx key with
  | none => simp [hprev] at hfail
  | some prev => cases prev <;> simp

/-- A failing `protocol_write` after an account initialization has still
overwritten the block log: the source inserts before it inspects. -/
theorem protocolWrite_error_writes {wl : WriteLog κ ε} {key : κ} {value : List UInt8}
    {vpCodeHash : Core.Hash} (htemp : key ∉ wl.txTempLog)
    (hinit : wl.blockWriteLog.lookup key = some (.initAccount vpCodeHash)) :
    wl.protocolWrite key value =
      (.error .updateVpOfNewAccount,
        { wl with blockWriteLog := wl.blockWriteLog.insert key (.write value) }) := by
  simp [protocolWrite, htemp, hinit]

/-! ## Runs -/

/-- One call, keeping the state after it. -/
def step (wl : WriteLog κ ε) : Op κ → WriteLog κ ε
  | .write key value => (wl.write keyLen key value).2
  | .delete key => (wl.delete keyLen isValidityPredicate key).2
  | .writeTemp key value => (wl.writeTemp keyLen key value).2
  | .protocolWrite key value => (wl.protocolWrite key value).2
  | .protocolDelete key => (wl.protocolDelete isValidityPredicate key).2
  | .precommitTx => wl.precommitTx
  | .commitTx => wl.commitTx
  | .dropTx => wl.dropTx
  | .dropTxKeepPrecommit => wl.dropTxKeepPrecommit

/-- A sequence of calls. -/
def run (wl : WriteLog κ ε) (ops : List (Op κ)) : WriteLog κ ε :=
  ops.foldl (step keyLen isValidityPredicate) wl

/-- Only `commit_tx` and the protocol writes touch the block log. -/
theorem step_blockWriteLog (wl : WriteLog κ ε) (op : Op κ) (hop : op.writesBlock = false) :
    (step keyLen isValidityPredicate wl op).blockWriteLog = wl.blockWriteLog := by
  cases op with
  | write key value =>
      simp only [step, write_snd]
      split <;> rfl
  | delete key =>
      simp only [step, delete_snd]
      split <;> rfl
  | writeTemp key value =>
      simp only [step, writeTemp_snd]
      split <;> rfl
  | protocolWrite | protocolDelete | commitTx => cases hop
  | precommitTx | dropTx | dropTxKeepPrecommit => rfl

end WriteLog

/-- The write log as append-only logs of modifications, one per layer, each in
the order the modifications were made. -/
structure LayeredLog (κ : Type) where
  block : List (κ × StorageModification)
  precommit : List (κ × StorageModification)
  tx : List (κ × StorageModification)
  temp : List (κ × List UInt8)

namespace LayeredLog

variable {κ : Type} [DecidableEq κ] (isValidityPredicate : κ → Bool)

/-- The empty layers. -/
def empty : LayeredLog κ := ⟨[], [], [], []⟩

/-- The latest transaction-level modification: the open transaction, then the
precommit bucket. -/
def lookupTx (layers : LayeredLog κ) (key : κ) : Option StorageModification :=
  (lastWrite layers.tx key).or (lastWrite layers.precommit key)

/-- The layered read: the latest modification of the highest layer holding one. -/
def read (layers : LayeredLog κ) (key : κ) : Option StorageModification :=
  (layers.lookupTx key).or (lastWrite layers.block key)

/-- One call on the layers. A call appends to the layer it writes into, a
boundary moves or clears whole layers, and a rejected call changes nothing. -/
def step (layers : LayeredLog κ) : Op κ → LayeredLog κ
  | .write key value =>
      if (lastWrite layers.temp key).isSome ∨ isInitAccount (layers.lookupTx key) = true then
        layers
      else { layers with tx := layers.tx ++ [(key, .write value)] }
  | .delete key =>
      if isValidityPredicate key = true ∨ isInitAccount (layers.lookupTx key) = true then layers
      else { layers with tx := layers.tx ++ [(key, .delete)] }
  | .writeTemp key value =>
      if (layers.lookupTx key).isSome then layers
      else { layers with temp := layers.temp ++ [(key, value)] }
  | .protocolWrite key value =>
      if (lastWrite layers.temp key).isSome then layers
      else { layers with block := layers.block ++ [(key, .write value)] }
  | .protocolDelete key =>
      if isValidityPredicate key = true then layers
      else { layers with block := layers.block ++ [(key, .delete)] }
  | .precommitTx => { layers with precommit := layers.precommit ++ layers.tx, tx := [] }
  | .commitTx =>
      { block := layers.block ++ (layers.precommit ++ layers.tx), precommit := [], tx := [],
        temp := [] }
  | .dropTx => { layers with precommit := [], tx := [], temp := [] }
  | .dropTxKeepPrecommit => { layers with tx := [] }

/-- A sequence of calls on the layers. -/
def run (layers : LayeredLog κ) (ops : List (Op κ)) : LayeredLog κ :=
  ops.foldl (step isValidityPredicate) layers

end LayeredLog

/-- Each hash map of the write log summarizes the log of its layer. -/
structure Refines {κ ε : Type} [DecidableEq κ] (wl : WriteLog κ ε) (layers : LayeredLog κ) :
    Prop where
  block : Summarizes wl.blockWriteLog layers.block
  precommit : Summarizes wl.txPrecommitWriteLog layers.precommit
  tx : Summarizes wl.txWriteLog layers.tx
  temp : Summarizes wl.txTempLog layers.temp

namespace Refines

variable {κ ε : Type} [DecidableEq κ] {wl : WriteLog κ ε} {layers : LayeredLog κ}

theorem empty : Refines (default : WriteLog κ ε) (LayeredLog.empty : LayeredLog κ) :=
  ⟨summarizes_empty, summarizes_empty, summarizes_empty, summarizes_empty⟩

theorem lookupTx_eq (href : Refines wl layers) (key : κ) :
    wl.lookupTx key = layers.lookupTx key := by
  rw [WriteLog.lookupTx, LayeredLog.lookupTx, href.tx key, href.precommit key]

theorem read_eq (href : Refines wl layers) (keyLen : κ → Nat) (key : κ) :
    wl.read keyLen key = WriteLog.chargeRead (keyLen key) (layers.read key) := by
  rw [WriteLog.read, LayeredLog.read, href.lookupTx_eq key, href.block key]

theorem mem_temp_iff (href : Refines wl layers) (key : κ) :
    key ∈ wl.txTempLog ↔ (lastWrite layers.temp key).isSome := by
  rw [← href.temp key, AList.lookup_isSome]

/-- Every call keeps the correspondence between the hash maps and the layers. -/
theorem step (href : Refines wl layers) (keyLen : κ → Nat) (isValidityPredicate : κ → Bool)
    (op : Op κ) :
    Refines (WriteLog.step keyLen isValidityPredicate wl op)
      (LayeredLog.step isValidityPredicate layers op) := by
  cases op with
  | write key value =>
      simp only [WriteLog.step, WriteLog.write_snd, LayeredLog.step, href.mem_temp_iff,
        href.lookupTx_eq]
      split
      · exact href
      · exact ⟨href.block, href.precommit, href.tx.insert key _, href.temp⟩
  | delete key =>
      simp only [WriteLog.step, WriteLog.delete_snd, LayeredLog.step, href.lookupTx_eq]
      split
      · exact href
      · exact ⟨href.block, href.precommit, href.tx.insert key _, href.temp⟩
  | writeTemp key value =>
      simp only [WriteLog.step, WriteLog.writeTemp_snd, LayeredLog.step, href.lookupTx_eq]
      split
      · exact href
      · exact ⟨href.block, href.precommit, href.tx, href.temp.insert key _⟩
  | protocolWrite key value =>
      simp only [WriteLog.step, WriteLog.protocolWrite_snd, LayeredLog.step, href.mem_temp_iff]
      split
      · exact href
      · exact ⟨href.block.insert key _, href.precommit, href.tx, href.temp⟩
  | protocolDelete key =>
      simp only [WriteLog.step, WriteLog.protocolDelete_snd, LayeredLog.step]
      split
      · exact href
      · exact ⟨href.block.insert key _, href.precommit, href.tx, href.temp⟩
  | precommitTx =>
      exact ⟨href.block, href.tx.union href.precommit, summarizes_empty, href.temp⟩
  | commitTx =>
      exact ⟨(href.tx.union href.precommit).union href.block, summarizes_empty,
        summarizes_empty, summarizes_empty⟩
  | dropTx => exact ⟨href.block, summarizes_empty, summarizes_empty, summarizes_empty⟩
  | dropTxKeepPrecommit => exact ⟨href.block, href.precommit, summarizes_empty, href.temp⟩

/-- Along any sequence of calls the correspondence persists. -/
theorem run (href : Refines wl layers) (keyLen : κ → Nat) (isValidityPredicate : κ → Bool)
    (ops : List (Op κ)) :
    Refines (WriteLog.run keyLen isValidityPredicate wl ops)
      (LayeredLog.run isValidityPredicate layers ops) := by
  induction ops generalizing wl layers with
  | nil => exact href
  | cons op ops ih => exact ih (href.step keyLen isValidityPredicate op)

end Refines

/-! ## The layering of the write log -/

section Layering

variable {κ ε : Type} [DecidableEq κ] (keyLen : κ → Nat) (isValidityPredicate : κ → Bool)

/-- Along any sequence of calls from the empty write log, a read returns the
latest modification of the highest layer holding one (the open transaction over
its precommit bucket over the block), `read_pre` returns the latest modification
of the block layer, which only `commit_tx` and the protocol writes and deletes
extend; in any state only those calls change the block log, so `drop_tx` leaves
it as it was, and a failing `write`, `delete` or `write_temp` leaves every log
unchanged. -/
theorem writeLog_read_layered (ops : List (Op κ)) (key : κ) :
    let wl := WriteLog.run keyLen isValidityPredicate (default : WriteLog κ ε) ops
    let layers := LayeredLog.run isValidityPredicate LayeredLog.empty ops
    wl.read keyLen key = WriteLog.chargeRead (keyLen key) (layers.read key) ∧
    wl.readPre keyLen key = WriteLog.chargeRead (keyLen key) (lastWrite layers.block key) ∧
    (∀ (state : WriteLog κ ε) (op : Op κ), op.writesBlock = false →
      (WriteLog.step keyLen isValidityPredicate state op).blockWriteLog =
        state.blockWriteLog) ∧
    (∀ (state : WriteLog κ ε) (value : List UInt8) (e : Error),
      (state.write keyLen key value).1 = .error e → (state.write keyLen key value).2 = state) ∧
    (∀ (state : WriteLog κ ε) (e : Error),
      (state.delete keyLen isValidityPredicate key).1 = .error e →
        (state.delete keyLen isValidityPredicate key).2 = state) ∧
    (∀ (state : WriteLog κ ε) (value : List UInt8) (e : Error),
      (state.writeTemp keyLen key value).1 = .error e →
        (state.writeTemp keyLen key value).2 = state) := by
  intro wl layers
  have href : Refines wl layers := Refines.empty.run keyLen isValidityPredicate ops
  refine ⟨href.read_eq keyLen key, ?_, ?_, ?_, ?_, ?_⟩
  · rw [WriteLog.readPre, href.block key]
  · intro state op hop
    exact WriteLog.step_blockWriteLog keyLen isValidityPredicate state op hop
  · intro state value e hfail
    exact WriteLog.write_error_snd keyLen hfail
  · intro state e hfail
    exact WriteLog.delete_error_snd keyLen isValidityPredicate hfail
  · intro state value e hfail
    exact WriteLog.writeTemp_error_snd keyLen hfail

end Layering

/-- Both calls succeed, yet the read returns the transaction's earlier write:
a protocol write made while a transaction is open lands below it. -/
theorem read_shadows_later_protocolWrite :
    let first := (default : WriteLog Nat Unit).write (fun _ => 1) 0 [1]
    let second := first.2.protocolWrite 0 [2]
    first.1 = .ok (2 * storageWriteGasPerByte, 1) ∧ second.1 = .ok () ∧
      (second.2.read (fun _ => 1) 0).1 = some (.write [1]) := by
  decide

end Namada.State
