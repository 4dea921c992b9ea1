/-
# The write log of `namada_state`

`write_log.rs` stages storage modifications in four hash maps: the block log
(accepted by all validity predicates, not yet in the database), the current
transaction's log, its precommit bucket, and the transaction's temporary
values. This module translates the operations over them: the reads with their
gas, the transaction-level and protocol-level writes and deletes with their
error cases, and the transaction boundaries `precommit_tx`, `commit_tx`,
`drop_tx` and `drop_tx_keep_precommit`.

Each `HashMap` is an association list with unique keys; `HashMap::extend`
is a left-biased union with the extending map on the left. Calls that mutate
`&mut self` return their result together with the state after the call,
also when the result is an error, because `protocol_write` and
`protocol_delete` insert before they inspect the previous value.

Storage keys stay abstract: the model reads only their string length
(`Key::len`) and whether they name a validity predicate
(`Key::is_validity_predicate`). The address generator, the replay-protection
set and the event tree's contents are not read by these operations; events
are kept as a list so that the boundaries can clear them.
-/

import Namada.Core.Basic
import Namada.Math.LastWrite

namespace Namada.State

open Namada.Core

/-- `MEMORY_ACCESS_GAS_PER_BYTE` of `namada_gas`. -/
def memoryAccessGasPerByte : Nat := 104

/-- `PHYSICAL_STORAGE_LATENCY_PER_BYTE` of `namada_gas`. -/
def physicalStorageLatencyPerByte : Nat := 1000000

/-- `STORAGE_OCCUPATION_GAS_PER_BYTE` of `namada_gas`. -/
def storageOccupationGasPerByte : Nat := 100000 + physicalStorageLatencyPerByte

/-- `STORAGE_WRITE_GAS_PER_BYTE` of `namada_gas`. -/
def storageWriteGasPerByte : Nat :=
  memoryAccessGasPerByte + 69634 + storageOccupationGasPerByte

/-- A storage modification. -/
inductive StorageModification
  /-- Write a new value. -/
  | write (value : List UInt8)
  /-- Delete an existing key-value. -/
  | delete
  /-- Initialize a new account with a validity predicate hash. -/
  | initAccount (vpCodeHash : Hash)
  deriving DecidableEq

/-- The write-log errors raised by the modelled operations. -/
inductive Error
  | updateTemporaryValue
  | updateVpOfNewAccount
  | deleteVp
  | writeTempAfterDelete
  | writeTempAfterWrite
  deriving DecidableEq

/-- A `HashMap` keyed by storage keys. -/
abbrev KeyMap (κ ν : Type) := AList (fun _ : κ => ν)

/-- The write log storage. -/
structure WriteLog (κ ε : Type) where
  /-- Modifications accepted by validity predicates, before the database commit. -/
  blockWriteLog : KeyMap κ StorageModification
  /-- Modifications of the current transaction. -/
  txWriteLog : KeyMap κ StorageModification
  /-- Temporary key-values of the current transaction. -/
  txTempLog : KeyMap κ (List UInt8)
  /-- The precommit bucket of the transaction log. -/
  txPrecommitWriteLog : KeyMap κ StorageModification
  /-- Events emitted by the current transaction. -/
  events : List ε

namespace WriteLog

variable {κ ε : Type} [DecidableEq κ]

/-- `WriteLog::default`: every log empty. -/
instance : Inhabited (WriteLog κ ε) :=
  ⟨{ blockWriteLog := ∅, txWriteLog := ∅, txTempLog := ∅, txPrecommitWriteLog := ∅,
     events := [] }⟩

/-- The bytes a read of a modification is charged for: the key and what the
modification stores. -/
def modificationLen (keyLen : Nat) : StorageModification → Nat
  | .write value => keyLen + value.length
  | .delete => keyLen
  | .initAccount vpCodeHash => keyLen + vpCodeHash.len

/-- The gas computation shared by `read` and `read_pre`. -/
def chargeRead (keyLen : Nat) : Option StorageModification → Option StorageModification × Nat
  | some modification =>
      (some modification, modificationLen keyLen modification * memoryAccessGasPerByte)
  | none => (none, keyLen * memoryAccessGasPerByte)

/-- The transaction-level lookup used by the writes: the transaction log, then
its precommit bucket. -/
def lookupTx (wl : WriteLog κ ε) (key : κ) : Option StorageModification :=
  (wl.txWriteLog.lookup key).or (wl.txPrecommitWriteLog.lookup key)

variable (keyLen : κ → Nat) (isValidityPredicate : κ → Bool)

/-- Read a non-temp value: the transaction log, then the precommit log, then the
block log. -/
def read (wl : WriteLog κ ε) (key : κ) : Option StorageModification × Nat :=
  chargeRead (keyLen key) ((lookupTx wl key).or (wl.blockWriteLog.lookup key))

/-- Read a value before the latest transaction: the block log only. -/
def readPre (wl : WriteLog κ ε) (key : κ) : Option StorageModification × Nat :=
  chargeRead (keyLen key) (wl.blockWriteLog.lookup key)

theorem chargeRead_fst (len : Nat) (found : Option StorageModification) :
    (chargeRead len found).1 = found := by
  cases found <;> rfl

theorem read_fst (wl : WriteLog κ ε) (key : κ) :
    (read keyLen wl key).1 = ((wl.txWriteLog.lookup key).or (wl.txPrecommitWriteLog.lookup key)).or
      (wl.blockWriteLog.lookup key) :=
  chargeRead_fst _ _

theorem readPre_fst (wl : WriteLog κ ε) (key : κ) : (readPre keyLen wl key).1 = wl.blockWriteLog.lookup key :=
  chargeRead_fst _ _

/-- Read a temporary value. -/
def readTemp (wl : WriteLog κ ε) (key : κ) : Option (List UInt8) × Nat :=
  match wl.txTempLog.lookup key with
  | some value => (some value, (keyLen key + value.length) * memoryAccessGasPerByte)
  | none => (none, keyLen key * memoryAccessGasPerByte)

/-- Write a key and a value; returns the gas cost and the size difference.
Fails on a temporary value and on a validity predicate of an uncommitted
account. -/
def write (wl : WriteLog κ ε) (key : κ) (value : List UInt8) :
    Except Error (Nat × Int) × WriteLog κ ε :=
  let len := value.length
  let gas := keyLen key + len
  let accept (sizeDiff : Int) : Except Error (Nat × Int) × WriteLog κ ε :=
    (.ok (gas * storageWriteGasPerByte, sizeDiff),
      { wl with txWriteLog := wl.txWriteLog.insert key (.write value) })
  if key ∈ wl.txTempLog then (.error .updateTemporaryValue, wl)
  else
    match lookupTx wl key with
    | some (.write prev) => accept ((len : Int) - prev.length)
    | some .delete => accept len
    | some (.initAccount _) => (.error .updateVpOfNewAccount, wl)
    -- the previous value may or may not exist in the storage
    | none => accept len

/-- Write a key and a value into the block log directly. The insertion happens
before the previous value is inspected. -/
def protocolWrite (wl : WriteLog κ ε) (key : κ) (value : List UInt8) :
    Except Error Unit × WriteLog κ ε :=
  if key ∈ wl.txTempLog then (.error .updateTemporaryValue, wl)
  else
    let written := { wl with blockWriteLog := wl.blockWriteLog.insert key (.write value) }
    match wl.blockWriteLog.lookup key with
    | some (.initAccount _) => (.error .updateVpOfNewAccount, written)
    | _ => (.ok (), written)

/-- Write a temporary value; returns the gas cost and the size difference. Fails
after a write or a delete of the same key in the transaction. -/
def writeTemp (wl : WriteLog κ ε) (key : κ) (value : List UInt8) :
    Except Error (Nat × Int) × WriteLog κ ε :=
  match lookupTx wl key with
  | some (.write _) => (.error .writeTempAfterWrite, wl)
  | some .delete => (.error .writeTempAfterDelete, wl)
  | some (.initAccount _) => (.error .updateVpOfNewAccount, wl)
  | none =>
      let len := value.length
      let gas := keyLen key + len
      let sizeDiff : Int :=
        match wl.txTempLog.lookup key with
        | some prev => (len : Int) - prev.length
        | none => len
      (.ok (gas * memoryAccessGasPerByte, sizeDiff),
        { wl with txTempLog := wl.txTempLog.insert key value })

/-- Delete a key; returns the gas cost and the size difference. Fails on a
validity predicate key. -/
def delete (wl : WriteLog κ ε) (key : κ) : Except Error (Nat × Int) × WriteLog κ ε :=
  let accept (sizeDiff : Nat) : Except Error (Nat × Int) × WriteLog κ ε :=
    (.ok ((keyLen key + sizeDiff) * storageWriteGasPerByte, -(sizeDiff : Int)),
      { wl with txWriteLog := wl.txWriteLog.insert key .delete })
  if isValidityPredicate key then (.error .deleteVp, wl)
  else
    match lookupTx wl key with
    | some (.write value) => accept value.length
    | some .delete => accept 0
    | some (.initAccount _) => (.error .deleteVp, wl)
    | none => accept 0

/-- Delete a key in the block log directly. The insertion happens before the
previous value is inspected. -/
def protocolDelete (wl : WriteLog κ ε) (key : κ) : Except Error Unit × WriteLog κ ε :=
  if isValidityPredicate key then (.error .deleteVp, wl)
  else
    let deleted := { wl with blockWriteLog := wl.blockWriteLog.insert key .delete }
    match wl.blockWriteLog.lookup key with
    | some (.initAccount _) => (.error .deleteVp, deleted)
    | _ => (.ok (), deleted)

/-- Move the transaction log into the precommit bucket. -/
def precommitTx (wl : WriteLog κ ε) : WriteLog κ ε :=
  { wl with txWriteLog := ∅, txPrecommitWriteLog := wl.txWriteLog ∪ wl.txPrecommitWriteLog }

/-- Commit the transaction and its precommit bucket to the block log; clear the
temporary values and the events. -/
def commitTx (wl : WriteLog κ ε) : WriteLog κ ε :=
  let precommitted := wl.precommitTx
  { precommitted with
    blockWriteLog := precommitted.txPrecommitWriteLog ∪ precommitted.blockWriteLog
    txPrecommitWriteLog := ∅
    txTempLog := ∅
    events := [] }

/-- Drop the transaction, its precommit bucket, temporary values and events. -/
def dropTx (wl : WriteLog κ ε) : WriteLog κ ε :=
  { wl with txPrecommitWriteLog := ∅, txWriteLog := ∅, txTempLog := ∅, events := [] }

/-- Drop the transaction log but keep the precommit bucket. -/
def dropTxKeepPrecommit (wl : WriteLog κ ε) : WriteLog κ ε :=
  { wl with txWriteLog := ∅ }

end WriteLog

end Namada.State
