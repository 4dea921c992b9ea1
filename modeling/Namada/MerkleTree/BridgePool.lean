/-
# The Ethereum bridge pool Merkle tree

`eth_bridge_pool.rs`: the bridge pool keeps the hashes of its pending
transfers as the leaves of a binary Merkle tree, in increasing order, each with
the height at which it was added. `compute_root` hashes the leaves in pairs,
level by level, with the prefix `0x00` on the lowest level and `0xff` above,
and pairs the last hash of an odd level with the all-zero hash. The root of
the empty tree is the all-zero hash and that of one leaf is the leaf.
`get_membership_proof` walks the same levels with each node marked on or off
the paths from the proved leaves to the root, and emits a flag for each pair
that holds such a node (set when both do) and the sibling when only one does.
`BridgePoolProof::verify` replays the flags with one queue that takes the
proved leaves first and the hashes it computes after them.

Keccak is taken by what it is applied to (`Hasher`): a transfer, or a prefix
byte with two hashes. `hash_pair` orders the two hashes before hashing them,
so it does not depend on their order (`hashPair_comm`). The tree is generic in
its hashes and in how a key segment is read as one; for `KeccakHash` that is
`TryFrom<&str>` (`keccakParseHash`), and `parse_key` then accepts exactly the
keys of hashes, each read back as its hash (`parseKey_keccak_iff`).

This module is the model and the facts about the tree: every operation
recomputes the root (`root_eq_computeRoot`), and the root is the last of the
levels of the tree (`levels`, `computeRoot_eq_levels`). `verify` indexes the
proof and the hashes it computes without a check of its own; an index past
the end is a panic of the source, and `none` here (`verify_panics`).
-/

import Mathlib
import Namada.Core.Keccak
import Namada.Core.Storage
import Namada.Math.SortedMap

namespace Namada.MerkleTree

open Namada.Math

/-- `POOL_ROOT_PREFIX_LEAF`. -/
def poolRootPrefixLeaf : UInt8 := 0x00

/-- `POOL_ROOT_PREFIX_NON_LEAF`. -/
def poolRootPrefixNonLeaf : UInt8 := 0xff

/-- What keccak is applied to in the bridge pool: `zero` is
`KeccakHash::default()`, `transfer` is `PendingTransfer::keccak256`, and
`buffer` is `keccak_hash` of the prefix byte and two hashes in `hash_pair`. -/
structure Hasher (T H : Type) where
  zero : H
  transfer : T → H
  buffer : UInt8 → H → H → H

/-- A hasher on numbers, to run the model: the zero hash is `0`, a transfer
`t` hashes to the odd `2 * t + 1`, and a buffer to an even number past `0`
that codes its three parts. -/
def numberHasher : Hasher ℕ ℕ where
  zero := 0
  transfer transfer := 2 * transfer + 1
  buffer pre left right := 2 * Nat.pair pre.toNat (Nat.pair left right) + 2

/-- `BridgePoolTree`: the root and the leaves, each with the height at which it
was added. -/
structure BridgePoolTree (H : Type) [LinearOrder H] where
  root : H
  leaves : SortedMap H ℕ

/-- `BridgePoolProof`: the hashes besides the proved leaves, the proved
transfers, and one flag for each hash the verifier computes. -/
structure BridgePoolProof (T H : Type) where
  proof : List H
  leaves : List T
  flags : List Bool

/-- `Node`: a node is on a path from the root to a proved leaf, or not. -/
inductive Node (H : Type)
  | onPath (hash : H)
  | offPath (hash : H)

variable {T H : Type} [LinearOrder H] (hasher : Hasher T H)

namespace BridgePoolTree

/-- The leaves in increasing order, as `self.leaves.keys()` lists them. -/
def keys (tree : BridgePoolTree H) : List H := tree.leaves.entries.map Prod.fst

/-- The tree of `BridgePoolTree::default()`. -/
def empty : BridgePoolTree H := ⟨hasher.zero, SortedMap.empty⟩

end BridgePoolTree

/-! ## The root -/

/-- `hash_pair`: the prefix, then the smaller hash, then the other one. -/
def hashPair (left right : H) (pre : UInt8) : H :=
  if left < right then hasher.buffer pre left right else hasher.buffer pre right left

/-- One level of `compute_root`: the hashes in pairs, the last one with the
all-zero hash when they are odd in number. -/
def computeLevel (pre : UInt8) : List H → List H
  | [] => []
  | [left] => [hashPair hasher left hasher.zero pre]
  | left :: right :: rest => hashPair hasher left right pre :: computeLevel pre rest

theorem length_computeLevel (pre : UInt8) :
    ∀ hashes : List H, (computeLevel hasher pre hashes).length = (hashes.length + 1) / 2
  | [] => by simp [computeLevel]
  | [_] => by simp [computeLevel]
  | _ :: _ :: rest => by
    rw [computeLevel, List.length_cons, length_computeLevel pre rest, List.length_cons, List.length_cons]
    omega

/-- The loop of `compute_root` from `hashes`, hashed next with `pre`: while
there is more than one hash, go a level up. -/
def computeRootOf (hashes : List H) (pre : UInt8) : H :=
  if 1 < hashes.length then computeRootOf (computeLevel hasher pre hashes) poolRootPrefixNonLeaf
  else hashes.headD hasher.zero
termination_by hashes.length
decreasing_by
  rw [length_computeLevel]
  omega

theorem computeRootOf_of_lt {hashes : List H} {pre : UInt8} (h : 1 < hashes.length) :
    computeRootOf hasher hashes pre = computeRootOf hasher (computeLevel hasher pre hashes) poolRootPrefixNonLeaf := by
  rw [computeRootOf, if_pos h]

theorem computeRootOf_of_le {hashes : List H} {pre : UInt8} (h : hashes.length ≤ 1) :
    computeRootOf hasher hashes pre = hashes.headD hasher.zero := by
  rw [computeRootOf, if_neg (by omega)]

/-- `BridgePoolTree::compute_root`. -/
def computeRoot (tree : BridgePoolTree H) : H := computeRootOf hasher tree.keys poolRootPrefixLeaf

/-- `BridgePoolTree::validate`: the root is the one of the leaves. -/
def validate (tree : BridgePoolTree H) : Bool := decide (computeRoot hasher tree = tree.root)

/-! ## Keys and updates -/

section Updates

variable {Address : Type} (parseHash : String → Option H)

/-- `BridgePoolTree::parse_key`: a key of one string segment, read as a hash. -/
def parseKey (key : Namada.Core.Key Address) : Except String H :=
  match key.segments with
  | [.stringSeg string] =>
    match parseHash string with
    | some hash => .ok hash
    | none => .error "Could not parse key segment as a hash"
  | [.addressSeg _] => .error "Bridge pool keys should be strings."
  | _ => .error "Key for the bridge pool should have exactly one segment."

omit [LinearOrder H] in
/-- `parse_key` succeeds exactly on a key of one string segment that reads as a
hash. -/
theorem parseKey_eq_ok_iff (key : Namada.Core.Key Address) (hash : H) :
    parseKey parseHash key = .ok hash ↔
      ∃ string, key.segments = [.stringSeg string] ∧ parseHash string = some hash := by
  unfold parseKey
  split
  · -- one string segment: the result is the segment's reading
    rename_i string hsegments
    cases hparse : parseHash string with
    | none => simp [hsegments, hparse]
    | some parsed => simp [hsegments, hparse]
  · -- one address segment
    rename_i hsegments
    simp [hsegments]
  · -- any other number of segments
    rename_i hstring _
    simp only [reduceCtorEq, false_iff, not_exists, not_and]
    intro string hsegments
    exact absurd hsegments (hstring string)

/-- The tree over the given leaves, with their root. -/
def withLeaves (leaves : SortedMap H ℕ) : BridgePoolTree H :=
  ⟨computeRootOf hasher (leaves.entries.map Prod.fst) poolRootPrefixLeaf, leaves⟩

/-- `BridgePoolTree::insert_key`: the new tree and its root. -/
def insertKey (tree : BridgePoolTree H) (key : Namada.Core.Key Address) (value : ℕ) :
    Except String (BridgePoolTree H × H) := do
  let hash ← parseKey parseHash key
  let tree := withLeaves hasher (tree.leaves.insert hash value)
  pure (tree, tree.root)

/-- `BridgePoolTree::delete_key`. -/
def deleteKey (tree : BridgePoolTree H) (key : Namada.Core.Key Address) : Except String (BridgePoolTree H) := do
  let hash ← parseKey parseHash key
  pure (withLeaves hasher (tree.leaves.erase hash))

/-- `BridgePoolTree::contains_key`. -/
def containsKey (tree : BridgePoolTree H) (key : Namada.Core.Key Address) : Except String Bool := do
  let hash ← parseKey parseHash key
  pure (tree.leaves.find? hash).isSome

/-- `BridgePoolTree::get`: the height at which the key was added. -/
def get (tree : BridgePoolTree H) (key : Namada.Core.Key Address) : Except String ℕ := do
  let hash ← parseKey parseHash key
  match tree.leaves.find? hash with
  | some height => pure height
  | none => .error "Key not present in Bridge Pool merkle tree."

theorem insertKey_eq_ok {tree next : BridgePoolTree H} {key : Namada.Core.Key Address} {value : ℕ} {root : H}
    (h : insertKey hasher parseHash tree key value = .ok (next, root)) :
    ∃ hash, parseKey parseHash key = .ok hash ∧ next = withLeaves hasher (tree.leaves.insert hash value) ∧
      root = next.root := by
  obtain ⟨hash, hparse, hrest⟩ := bind_eq_ok h
  cases hrest
  exact ⟨hash, hparse, rfl, rfl⟩

theorem deleteKey_eq_ok {tree next : BridgePoolTree H} {key : Namada.Core.Key Address}
    (h : deleteKey hasher parseHash tree key = .ok next) :
    ∃ hash, parseKey parseHash key = .ok hash ∧ next = withLeaves hasher (tree.leaves.erase hash) := by
  obtain ⟨hash, hparse, hrest⟩ := bind_eq_ok h
  cases hrest
  exact ⟨hash, hparse, rfl⟩

end Updates

/-! ## Keys of keccak hashes -/

/-- `TryFrom<&str>` of `KeccakHash`, as `parse_key` calls it: its error gives
way to the message. -/
def keccakParseHash (string : String) : Option Namada.Core.KeccakHash :=
  (Namada.Core.KeccakHash.tryFromStr string).toOption

theorem keccakParseHash_eq_some {string : String} {hash : Namada.Core.KeccakHash} :
    keccakParseHash string = some hash ↔ Namada.Core.KeccakHash.tryFromStr string = .ok hash := by
  unfold keccakParseHash
  cases Namada.Core.KeccakHash.tryFromStr string with
  | error err => simp [Except.toOption]
  | ok parsed => simp [Except.toOption]

/-- The keys `parse_key` reads as a keccak hash are those of one string
segment that is the hash's string, as `Key::from(&PendingTransfer)` writes
them; each is read back as its hash. -/
theorem parseKey_keccak_iff {Address : Type} (key : Namada.Core.Key Address) (hash : Namada.Core.KeccakHash) :
    parseKey keccakParseHash key = .ok hash ↔ key = ⟨[.stringSeg hash.toString]⟩ := by
  rw [parseKey_eq_ok_iff]
  constructor
  · rintro ⟨string, hsegments, hstring⟩
    -- the segment is the hash's string, since it reads as the hash
    rw [← Namada.Core.KeccakHash.toString_of_tryFromStr (keccakParseHash_eq_some.mp hstring)] at hsegments
    cases key
    cases hsegments
    rfl
  · rintro rfl
    exact ⟨hash.toString, rfl, keccakParseHash_eq_some.mpr (Namada.Core.KeccakHash.tryFromStr_toString hash)⟩

/-- The trees that `insert_key` and `delete_key` reach from the empty tree:
the leaves of each come from inserting and erasing hashes, and its root is
recomputed each time. -/
inductive Reachable : BridgePoolTree H → Prop
  | empty : Reachable (BridgePoolTree.empty hasher)
  | insert {tree : BridgePoolTree H} (hash : H) (value : ℕ) :
      Reachable tree → Reachable (withLeaves hasher (tree.leaves.insert hash value))
  | delete {tree : BridgePoolTree H} (hash : H) :
      Reachable tree → Reachable (withLeaves hasher (tree.leaves.erase hash))

section Reach

variable {Address : Type} (parseHash : String → Option H)

theorem Reachable.insertKey {tree next : BridgePoolTree H} {key : Namada.Core.Key Address} {value : ℕ} {root : H}
    (hreach : Reachable hasher tree) (h : insertKey hasher parseHash tree key value = .ok (next, root)) :
    Reachable hasher next := by
  obtain ⟨hash, _, rfl, _⟩ := insertKey_eq_ok hasher parseHash h
  exact .insert hash value hreach

theorem Reachable.deleteKey {tree next : BridgePoolTree H} {key : Namada.Core.Key Address}
    (hreach : Reachable hasher tree) (h : deleteKey hasher parseHash tree key = .ok next) :
    Reachable hasher next := by
  obtain ⟨hash, _, rfl⟩ := deleteKey_eq_ok hasher parseHash h
  exact .delete hash hreach

end Reach

/-- Every reachable tree keeps the root of its leaves: `validate` holds. -/
theorem root_eq_computeRoot {tree : BridgePoolTree H} (hreach : Reachable hasher tree) :
    tree.root = computeRoot hasher tree := by
  cases hreach with
  | empty => rw [computeRoot, computeRootOf_of_le hasher (by exact Nat.zero_le 1)]; rfl
  | insert => rfl
  | delete => rfl

/-! ## The membership proof -/

/-- `Node::default()`: the all-zero hash, off every path. -/
def defaultNode : Node H := .offPath hasher.zero

/-- One pair of a level of `get_membership_proof`: the node above it, with the
flag and the sibling hash the pair emits. -/
def provePair (pre : UInt8) : Node H → Node H → Node H × List Bool × List H
  | .onPath left, .onPath right => (.onPath (hashPair hasher left right pre), [true], [])
  | .onPath hash, .offPath sib => (.onPath (hashPair hasher hash sib pre), [false], [sib])
  | .offPath sib, .onPath hash => (.onPath (hashPair hasher hash sib pre), [false], [sib])
  | .offPath left, .offPath right => (.offPath (hashPair hasher left right pre), [], [])

/-- One level of `get_membership_proof`: the nodes in pairs, the last one with
`Node::default()` when they are odd in number. -/
def proveLevel (pre : UInt8) : List (Node H) → List (Node H) × List Bool × List H
  | [] => ([], [], [])
  | [left] => ([(provePair hasher pre left (defaultNode hasher)).1], (provePair hasher pre left (defaultNode hasher)).2.1,
      (provePair hasher pre left (defaultNode hasher)).2.2)
  | left :: right :: rest =>
    ((provePair hasher pre left right).1 :: (proveLevel pre rest).1,
      (provePair hasher pre left right).2.1 ++ (proveLevel pre rest).2.1,
      (provePair hasher pre left right).2.2 ++ (proveLevel pre rest).2.2)

theorem length_proveLevel (pre : UInt8) :
    ∀ nodes : List (Node H), (proveLevel hasher pre nodes).1.length = (nodes.length + 1) / 2
  | [] => by simp [proveLevel]
  | [_] => by simp [proveLevel]
  | _ :: _ :: rest => by
    rw [proveLevel, List.length_cons, length_proveLevel pre rest, List.length_cons, List.length_cons]
    omega

/-- The loop of `get_membership_proof` from `nodes`, hashed next with `pre`:
the flags and the proof hashes of every level, appended in order. -/
def proveLevels (nodes : List (Node H)) (pre : UInt8) (flags : List Bool) (proof : List H) : List Bool × List H :=
  if 1 < nodes.length then
    proveLevels (proveLevel hasher pre nodes).1 poolRootPrefixNonLeaf (flags ++ (proveLevel hasher pre nodes).2.1)
      (proof ++ (proveLevel hasher pre nodes).2.2)
  else (flags, proof)
termination_by nodes.length
decreasing_by
  rw [length_proveLevel]
  omega

/-- The leaves of the tree, on a path exactly when they are proved. -/
def markNodes (tree : BridgePoolTree H) (leaves : List H) : List (Node H) :=
  tree.keys.map fun hash => if leaves.contains hash then .onPath hash else .offPath hash

/-- `BridgePoolTree::get_membership_proof`: the transfers sorted by hash, the
flags and siblings of every level, and the root alone when there is nothing
to prove. -/
def getMembershipProof (tree : BridgePoolTree H) (values : List T) : Except String (BridgePoolProof T H) :=
  let values := values.mergeSort fun first second => decide (hasher.transfer first ≤ hasher.transfer second)
  let leaves := values.map hasher.transfer
  if !leaves.all fun hash => (tree.leaves.find? hash).isSome then
    .error "Cannot generate proof for values that aren't in the tree"
  else
    let proved := proveLevels hasher (markNodes tree leaves) poolRootPrefixLeaf [] []
    .ok ⟨if proved.1.isEmpty ∧ proved.2.isEmpty ∧ leaves.isEmpty then proved.2 ++ [tree.root] else proved.2,
      values, proved.1⟩

/-! ## Verification -/

/-- The variables of the loop of `verify`: the computed hashes and the
positions in them, in the leaves and in the proof. -/
structure VerifyState (H : Type) where
  hashes : List H
  hashPos : ℕ
  leafPos : ℕ
  proofPos : ℕ

variable (p : BridgePoolProof T H)

/-- The next operand of `verify` from the queue: the next proved leaf with the
prefix of leaves while there is one, then the next computed hash with the
prefix of the levels above. An index past the computed hashes panics. -/
def takeNext (state : VerifyState H) : Option (H × UInt8 × VerifyState H) :=
  if h : state.leafPos < p.leaves.length then
    some (hasher.transfer p.leaves[state.leafPos], poolRootPrefixLeaf, { state with leafPos := state.leafPos + 1 })
  else
    (state.hashes[state.hashPos]?).map fun next =>
      (next, poolRootPrefixNonLeaf, { state with hashPos := state.hashPos + 1 })

/-- The next hash of the proof. An index past its end panics. -/
def takeProof (state : VerifyState H) : Option (H × VerifyState H) :=
  (p.proof[state.proofPos]?).map fun next => (next, { state with proofPos := state.proofPos + 1 })

/-- One pass of the loop of `verify`, for flag `i`: the left operand from the
queue, whose source fixes the prefix; the right one from the queue when the
flag is set, from the proof when not; their hash at `i`. -/
def verifyStep (flag : Bool) (i : ℕ) (state : VerifyState H) : Option (VerifyState H) :=
  (takeNext hasher p state).bind fun left =>
    (if flag then (takeNext hasher p left.2.2).map fun right => (right.1, right.2.2)
      else takeProof p left.2.2).map fun right =>
      { right.2 with hashes := right.2.hashes.set i (hashPair hasher left.1 right.1 left.2.1) }

/-- The loop of `verify` over the flags from `i` on. -/
def verifyLoop : List Bool → ℕ → VerifyState H → Option (VerifyState H)
  | [], _, state => some state
  | flag :: flags, i, state => (verifyStep hasher p flag i state).bind (verifyLoop flags (i + 1))

/-- `BridgePoolProof::verify`: the counts must fit; with no flag the root is
the last leaf, or else the last proof hash; otherwise the last computed hash.
A panic of the source is `none`. -/
def verify (root : H) : Option Bool :=
  if p.proof.length + p.leaves.length ≠ p.flags.length + 1 then some false
  else if p.flags.isEmpty then
    some (match p.leaves.getLast? with
      | some leaf => decide (root = hasher.transfer leaf)
      | none =>
        match p.proof.getLast? with
        | some proofRoot => decide (root = proofRoot)
        | none => false)
  else
    (verifyLoop hasher p p.flags 0 ⟨List.replicate p.flags.length hasher.zero, 0, 0, 0⟩).map fun state =>
      match state.hashes.getLast? with
      | some computed => decide (computed = root)
      | none => false

/-- `verify` panics on a proof whose counts fit but whose flag asks for a
sibling that the proof does not hold: two leaves, no proof hash and one flag
`false` read `self.proof[0]`, here against the root of the empty tree. -/
theorem verify_panics :
    verify numberHasher ⟨[], [1, 2], [false]⟩ (BridgePoolTree.empty numberHasher).root = none := rfl

/-! ## Hashing pairs -/

theorem hashPair_comm (left right : H) (pre : UInt8) :
    hashPair hasher left right pre = hashPair hasher right left pre := by
  unfold hashPair
  rcases lt_trichotomy left right with hlt | heq | hgt
  · rw [if_pos hlt, if_neg (lt_asymm hlt)]
  · rw [heq]
  · rw [if_neg (lt_asymm hgt), if_pos hgt]

/-- A hash of a pair is a hash of a buffer. -/
theorem hashPair_eq_buffer (left right : H) (pre : UInt8) :
    ∃ first second, hashPair hasher left right pre = hasher.buffer pre first second := by
  unfold hashPair
  split_ifs
  · exact ⟨left, right, rfl⟩
  · exact ⟨right, left, rfl⟩

/-- Keccak without collisions, as the soundness of a proof takes it: the hash
of a transfer and that of a buffer determine what they hash, they never meet,
and neither is the all-zero hash. -/
structure CollisionFree (hasher : Hasher T H) : Prop where
  transfer_injective : Function.Injective hasher.transfer
  buffer_injective : ∀ {pre pre' : UInt8} {first second first' second' : H},
    hasher.buffer pre first second = hasher.buffer pre' first' second' →
      pre = pre' ∧ first = first' ∧ second = second'
  transfer_ne_buffer : ∀ (transfer : T) (pre : UInt8) (first second : H),
    hasher.transfer transfer ≠ hasher.buffer pre first second
  transfer_ne_zero : ∀ transfer : T, hasher.transfer transfer ≠ hasher.zero
  buffer_ne_zero : ∀ (pre : UInt8) (first second : H), hasher.buffer pre first second ≠ hasher.zero

section CollisionFree

variable {hasher}

theorem hashPair_ne_zero (hfree : CollisionFree hasher) (left right : H) (pre : UInt8) :
    hashPair hasher left right pre ≠ hasher.zero := by
  obtain ⟨first, second, heq⟩ := hashPair_eq_buffer hasher left right pre
  rw [heq]
  exact hfree.buffer_ne_zero pre first second

theorem transfer_ne_hashPair (hfree : CollisionFree hasher) (transfer : T) (left right : H) (pre : UInt8) :
    hasher.transfer transfer ≠ hashPair hasher left right pre := by
  obtain ⟨first, second, heq⟩ := hashPair_eq_buffer hasher left right pre
  rw [heq]
  exact hfree.transfer_ne_buffer transfer pre first second

/-- Two pairs with the same hash are the same pair, in some order, with the
same prefix. -/
theorem hashPair_inj (hfree : CollisionFree hasher) {left right left' right' : H} {pre pre' : UInt8}
    (h : hashPair hasher left right pre = hashPair hasher left' right' pre') :
    pre = pre' ∧ (left = left' ∧ right = right' ∨ left = right' ∧ right = left') := by
  unfold hashPair at h
  split_ifs at h with hlt hlt'
  · obtain ⟨hpre, hfirst, hsecond⟩ := hfree.buffer_injective h
    exact ⟨hpre, .inl ⟨hfirst, hsecond⟩⟩
  · obtain ⟨hpre, hfirst, hsecond⟩ := hfree.buffer_injective h
    exact ⟨hpre, .inr ⟨hfirst, hsecond⟩⟩
  · obtain ⟨hpre, hfirst, hsecond⟩ := hfree.buffer_injective h
    exact ⟨hpre, .inr ⟨hsecond, hfirst⟩⟩
  · obtain ⟨hpre, hfirst, hsecond⟩ := hfree.buffer_injective h
    exact ⟨hpre, .inl ⟨hsecond, hfirst⟩⟩

end CollisionFree

/-- The number hasher has no collisions. -/
theorem numberHasher_collisionFree : CollisionFree numberHasher where
  transfer_injective := fun first second h => by
    simp only [numberHasher] at h
    omega
  buffer_injective := fun {pre pre' first second first' second'} h => by
    simp only [numberHasher] at h
    have hpair : Nat.pair pre.toNat (Nat.pair first second) = Nat.pair pre'.toNat (Nat.pair first' second') := by
      omega
    obtain ⟨hpre, hinner⟩ := Nat.pair_eq_pair.mp hpair
    obtain ⟨hfirst, hsecond⟩ := Nat.pair_eq_pair.mp hinner
    exact ⟨UInt8.toNat_inj.mp hpre, hfirst, hsecond⟩
  transfer_ne_buffer := fun _ _ _ _ h => by
    simp only [numberHasher] at h
    omega
  transfer_ne_zero := fun _ h => by
    simp only [numberHasher] at h
    omega
  buffer_ne_zero := fun _ _ _ h => by
    simp only [numberHasher] at h
    omega

/-! ## The levels of the tree -/

/-- The prefix with which level `level` is hashed into the one above. -/
def levelPrefix (level : ℕ) : UInt8 := if level = 0 then poolRootPrefixLeaf else poolRootPrefixNonLeaf

/-- The levels of the tree over `keys`: the leaves, then each level hashed in
pairs as `compute_root` does. -/
def levels (keys : List H) : ℕ → List H
  | 0 => keys
  | level + 1 => computeLevel hasher (levelPrefix level) (levels keys level)

/-- A hash of a level of `compute_root` is the hash of a pair of the level
below, or of its last hash with the all-zero hash. -/
theorem mem_computeLevel {pre : UInt8} {hash : H} :
    ∀ {hashes : List H}, hash ∈ computeLevel hasher pre hashes →
      ∃ left right, hash = hashPair hasher left right pre ∧ left ∈ hashes ∧ (right ∈ hashes ∨ right = hasher.zero)
  | [], hmem => absurd hmem List.not_mem_nil
  | [left], hmem => ⟨left, hasher.zero, List.mem_singleton.mp hmem, List.mem_singleton_self _, .inr rfl⟩
  | left :: right :: rest, hmem => by
    rcases List.mem_cons.mp hmem with hfirst | hrest
    · exact ⟨left, right, hfirst, List.mem_cons_self, .inl (List.mem_cons_of_mem _ List.mem_cons_self)⟩
    · obtain ⟨first, second, heq, hfirst, hsecond⟩ := mem_computeLevel hrest
      refine ⟨first, second, heq, List.mem_cons_of_mem _ (List.mem_cons_of_mem _ hfirst), ?_⟩
      exact hsecond.imp (fun h => List.mem_cons_of_mem _ (List.mem_cons_of_mem _ h)) id

theorem mem_levels_succ {keys : List H} {level : ℕ} {hash : H} (hmem : hash ∈ levels hasher keys (level + 1)) :
    ∃ left right, hash = hashPair hasher left right (levelPrefix level) ∧ left ∈ levels hasher keys level ∧
      (right ∈ levels hasher keys level ∨ right = hasher.zero) :=
  mem_computeLevel hasher hmem

/-- The root of two or more leaves is the hash of the two hashes of the level
below the top, with the prefix of that level. -/
theorem computeRootOf_levels (keys : List H) :
    ∀ n level, (levels hasher keys level).length ≤ n → 2 ≤ (levels hasher keys level).length →
      ∃ top first second, levels hasher keys top = [first, second] ∧
        computeRootOf hasher (levels hasher keys level) (levelPrefix level) =
          hashPair hasher first second (levelPrefix top)
  | 0, _, hlen, htwo => by omega
  | n + 1, level, hlen, htwo => by
    rw [computeRootOf_of_lt hasher (by omega)]
    rcases Nat.eq_or_lt_of_le htwo with hexact | hmore
    · -- two hashes: their pair is the root
      obtain ⟨first, second, hpair⟩ : ∃ first second, levels hasher keys level = [first, second] := by
        match hlevel : levels hasher keys level, hexact with
        | [first, second], _ => exact ⟨first, second, rfl⟩
      refine ⟨level, first, second, hpair, ?_⟩
      rw [hpair, computeLevel, computeLevel, computeRootOf_of_le hasher (by simp)]
      rfl
    · -- more: the level above is shorter and still has two
      have hnext : levels hasher keys (level + 1) = computeLevel hasher (levelPrefix level) (levels hasher keys level) :=
        rfl
      have hlength := length_computeLevel hasher (levelPrefix level) (levels hasher keys level)
      have hnonLeaf : levelPrefix (level + 1) = poolRootPrefixNonLeaf := if_neg (Nat.succ_ne_zero level)
      obtain ⟨top, first, second, htop, hroot⟩ :=
        computeRootOf_levels keys n (level + 1) (by rw [hnext]; omega) (by rw [hnext]; omega)
      rw [hnonLeaf, hnext] at hroot
      exact ⟨top, first, second, htop, hroot⟩

/-- The root of a tree of two or more leaves. -/
theorem computeRoot_eq_levels (tree : BridgePoolTree H) (htwo : 2 ≤ tree.keys.length) :
    ∃ top first second, levels hasher tree.keys top = [first, second] ∧
      computeRoot hasher tree = hashPair hasher first second (levelPrefix top) :=
  computeRootOf_levels hasher tree.keys tree.keys.length 0 le_rfl htwo

end Namada.MerkleTree
