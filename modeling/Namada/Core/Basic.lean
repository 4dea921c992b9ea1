/-
# Basic types of `namada_core`

Hashes as the rest of the model uses them. A `Hash` is the fixed 32-byte
array of `hash.rs`; only its length is ever read by the modelled code.

An `Epoch(pub u64)` of `storage.rs` is a counter that starts at genesis and
grows by one per epoch; the modules that use epochs take them as natural
numbers, since no modelled function comes near `u64::MAX` (the source's
`unchecked_add` would panic there).
-/

import Mathlib

namespace Namada.Core

/-- `HASH_LENGTH` of `hash.rs`. -/
def hashLength : Nat := 32

/-- `Hash(pub [u8; HASH_LENGTH])` of `hash.rs`. -/
structure Hash where
  bytes : List.Vector UInt8 hashLength
  deriving DecidableEq

/-- `Hash::len`, a constant. -/
def Hash.len (_ : Hash) : Nat := hashLength

end Namada.Core
