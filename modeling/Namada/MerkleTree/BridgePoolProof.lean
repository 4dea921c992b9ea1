/-
# Bridge pool proofs verify, and only for leaves of the tree

`get_membership_proof` emits the flags of each level in order, so on the
queue of `verify` each level takes the hashes on the paths at that level from
the front and leaves those of the level above behind them
(`queueRun_proveLevel`): the proof of any proved leaves runs to the root
(`getMembershipProof_verifies`). Conversely, an operand a step of the queue
takes is a node of the tree when the hash it goes into is one above the
leaves, since a key is the hash of a transfer and no node above is, and
`hash_pair` has no collisions (`queueStep_inTree`). The root is such a node,
and the counts of the proof leave it as the only hash in the queue at the
end; so each proved leaf, taken on the way, is a key (`verify_sound`).
-/

import Namada.MerkleTree.BridgePoolVerify

namespace Namada.MerkleTree

open Namada.Math

variable {T H : Type} [LinearOrder H] (hasher : Hasher T H)

/-! ## The queue of `get_membership_proof` -/

/-- The hash a node carries. -/
def Node.hash : Node H → H
  | .onPath hash => hash
  | .offPath hash => hash

/-- Whether a node is on a path to a proved leaf. -/
def Node.isOnPath : Node H → Bool
  | .onPath _ => true
  | .offPath _ => false

/-- The hashes of the nodes on a path, as operands of the queue marked
`isLeaf`. -/
def onPathItems (isLeaf : Bool) : List (Node H) → List (H × Bool)
  | [] => []
  | .onPath hash :: nodes => (hash, isLeaf) :: onPathItems isLeaf nodes
  | .offPath _ :: nodes => onPathItems isLeaf nodes

@[simp] theorem leafPrefix_true : leafPrefix true = poolRootPrefixLeaf := rfl

@[simp] theorem leafPrefix_false : leafPrefix false = poolRootPrefixNonLeaf := rfl

omit [LinearOrder H] in
theorem onPathItems_append (isLeaf : Bool) (nodes nodes' : List (Node H)) :
    onPathItems isLeaf (nodes ++ nodes') = onPathItems isLeaf nodes ++ onPathItems isLeaf nodes' := by
  induction nodes with
  | nil => rfl
  | cons node nodes ih => cases node <;> simp [onPathItems, ih]

omit [LinearOrder H] in
theorem onPathItems_eq_nil_iff (isLeaf : Bool) :
    ∀ nodes : List (Node H), onPathItems isLeaf nodes = [] ↔ nodes.any Node.isOnPath = false
  | [] => by simp [onPathItems]
  | .onPath _ :: _ => by simp [onPathItems, Node.isOnPath]
  | .offPath _ :: nodes => by simp [onPathItems, Node.isOnPath, onPathItems_eq_nil_iff isLeaf nodes]

/-- A pair takes its hashes on a path from the front of the queue, and the
sibling from the proof when only one is on a path, and leaves the hash
above them at the back. -/
theorem queueRun_provePair (isLeaf : Bool) (left right : Node H) (proof : List H) (queue : List (H × Bool)) :
    queueRun hasher (provePair hasher (leafPrefix isLeaf) left right).2.1
        ((provePair hasher (leafPrefix isLeaf) left right).2.2 ++ proof, onPathItems isLeaf [left, right] ++ queue) =
      some (proof, queue ++ onPathItems false [(provePair hasher (leafPrefix isLeaf) left right).1]) := by
  cases left <;> cases right
  case offPath.offPath => simp [provePair, onPathItems, queueRun]
  all_goals rfl

theorem hash_provePair (pre : UInt8) (left right : Node H) :
    (provePair hasher pre left right).1.hash = hashPair hasher left.hash right.hash pre := by
  cases left <;> cases right
  case offPath.onPath sib hash => exact hashPair_comm hasher hash sib pre
  all_goals rfl

theorem isOnPath_provePair (pre : UInt8) (left right : Node H) :
    (provePair hasher pre left right).1.isOnPath = (left.isOnPath || right.isOnPath) := by
  cases left <;> cases right <;> rfl

/-- A level takes its hashes on a path from the front of the queue and leaves
those of the level above at the back. -/
theorem queueRun_proveLevel (isLeaf : Bool) :
    ∀ (nodes : List (Node H)) (proof : List H) (queue : List (H × Bool)),
      queueRun hasher (proveLevel hasher (leafPrefix isLeaf) nodes).2.1
          ((proveLevel hasher (leafPrefix isLeaf) nodes).2.2 ++ proof, onPathItems isLeaf nodes ++ queue) =
        some (proof, queue ++ onPathItems false (proveLevel hasher (leafPrefix isLeaf) nodes).1)
  | [], proof, queue => by simp [proveLevel, onPathItems, queueRun]
  | [left], proof, queue => by
    -- the padding node is off every path
    have hpad : onPathItems isLeaf [left, defaultNode hasher] = onPathItems isLeaf [left] := by
      cases left <;> rfl
    have hpair := queueRun_provePair hasher isLeaf left (defaultNode hasher) proof queue
    rw [hpad] at hpair
    exact hpair
  | left :: right :: rest, proof, queue => by
    have hsplit : onPathItems isLeaf (left :: right :: rest) ++ queue =
        onPathItems isLeaf [left, right] ++ (onPathItems isLeaf rest ++ queue) := by
      rw [← List.append_assoc, ← onPathItems_append]
      rfl
    simp only [proveLevel]
    rw [queueRun_append, List.append_assoc, hsplit, queueRun_provePair, Option.bind_some, List.append_assoc,
      queueRun_proveLevel isLeaf rest, List.append_assoc, ← onPathItems_append]
    rfl

theorem hash_proveLevel (pre : UInt8) :
    ∀ nodes : List (Node H),
      (proveLevel hasher pre nodes).1.map Node.hash = computeLevel hasher pre (nodes.map Node.hash)
  | [] => rfl
  | [left] => by
    simp only [proveLevel, List.map_cons, List.map_nil, hash_provePair, computeLevel]
    rfl
  | left :: right :: rest => by simp [proveLevel, computeLevel, hash_provePair, hash_proveLevel pre rest]

theorem any_isOnPath_proveLevel (pre : UInt8) :
    ∀ nodes : List (Node H), (proveLevel hasher pre nodes).1.any Node.isOnPath = nodes.any Node.isOnPath
  | [] => rfl
  | [left] => by
    simp only [proveLevel, List.any_cons, List.any_nil, isOnPath_provePair]
    cases left <;> rfl
  | left :: right :: rest => by
    simp [proveLevel, isOnPath_provePair, any_isOnPath_proveLevel pre rest, Bool.or_assoc]

/-- The loop of `get_membership_proof` appends to the flags and proof it is
given. -/
theorem proveLevels_append (nodes : List (Node H)) (pre : UInt8) (flags : List Bool) (proof : List H) :
    proveLevels hasher nodes pre flags proof =
      (flags ++ (proveLevels hasher nodes pre [] []).1, proof ++ (proveLevels hasher nodes pre [] []).2) := by
  unfold proveLevels
  split_ifs with hlt
  · rw [proveLevels_append _ _ (flags ++ _), proveLevels_append _ _ ([] ++ _)]
    simp
  · simp
termination_by nodes.length
decreasing_by all_goals (rw [length_proveLevel]; omega)

/-- The flags and proof of `get_membership_proof` run on the queue of the
hashes on a path, and leave the node at the top: the root, a computed hash
when there was more than one node. -/
theorem queueRun_proveLevels (nodes : List (Node H)) (isLeaf : Bool) (hne : nodes ≠ []) (proof : List H) :
    ∃ top, queueRun hasher (proveLevels hasher nodes (leafPrefix isLeaf) [] []).1
          ((proveLevels hasher nodes (leafPrefix isLeaf) [] []).2 ++ proof, onPathItems isLeaf nodes) =
        some (proof, onPathItems (if 1 < nodes.length then false else isLeaf) [top]) ∧
      top.hash = computeRootOf hasher (nodes.map Node.hash) (leafPrefix isLeaf) ∧
      top.isOnPath = nodes.any Node.isOnPath := by
  by_cases hlt : 1 < nodes.length
  · -- one level, then the levels above from the nodes it computes
    have hproved : proveLevels hasher nodes (leafPrefix isLeaf) [] [] =
        ((proveLevel hasher (leafPrefix isLeaf) nodes).2.1 ++
            (proveLevels hasher (proveLevel hasher (leafPrefix isLeaf) nodes).1 (leafPrefix false) [] []).1,
          (proveLevel hasher (leafPrefix isLeaf) nodes).2.2 ++
            (proveLevels hasher (proveLevel hasher (leafPrefix isLeaf) nodes).1 (leafPrefix false) [] []).2) := by
      rw [proveLevels, if_pos hlt, proveLevels_append]
      simp
    have hne' : (proveLevel hasher (leafPrefix isLeaf) nodes).1 ≠ [] := by
      rw [← List.length_pos_iff, length_proveLevel]
      omega
    obtain ⟨top, hrun, hhash, hpath⟩ := queueRun_proveLevels (proveLevel hasher (leafPrefix isLeaf) nodes).1 false hne' proof
    refine ⟨top, ?_, ?_, ?_⟩
    · rw [hproved, queueRun_append, List.append_assoc, ← List.append_nil (onPathItems isLeaf nodes),
        queueRun_proveLevel, Option.bind_some, List.nil_append, hrun, if_pos hlt, ite_self]
    · have hlength : 1 < (nodes.map Node.hash).length := by rwa [List.length_map]
      rw [hhash, computeRootOf_of_lt hasher hlength, ← hash_proveLevel, leafPrefix_false]
    · rw [hpath, any_isOnPath_proveLevel]
  · -- a single node: nothing is left to prove
    obtain ⟨node, rfl⟩ : ∃ node, nodes = [node] := by
      match nodes, hne, hlt with
      | [node], _, _ => exact ⟨node, rfl⟩
      | _ :: _ :: _, _, hlt => simp at hlt
    refine ⟨node, ?_, ?_, ?_⟩
    · rw [proveLevels, if_neg hlt, if_neg hlt]
      rfl
    · rw [computeRootOf_of_le hasher (by simp)]
      rfl
    · simp
termination_by nodes.length
decreasing_by rw [length_proveLevel]; omega

/-! ## Proofs of leaves of the tree verify -/

theorem keys_sorted (tree : BridgePoolTree H) : tree.keys.Pairwise (· < ·) :=
  List.pairwise_map.mpr tree.leaves.sorted

theorem find?_isSome_iff_mem_keys (tree : BridgePoolTree H) (hash : H) :
    (tree.leaves.find? hash).isSome ↔ hash ∈ tree.keys := by
  rw [Option.isSome_iff_exists, BridgePoolTree.keys, List.mem_map]
  constructor
  · rintro ⟨value, hfind⟩
    exact ⟨(hash, value), SortedMap.find?_eq_some_iff.mp hfind, rfl⟩
  · rintro ⟨⟨key, value⟩, hmem, rfl⟩
    exact ⟨value, SortedMap.find?_eq_some_iff.mpr hmem⟩

theorem hash_markNodes (tree : BridgePoolTree H) (leaves : List H) :
    (markNodes tree leaves).map Node.hash = tree.keys := by
  rw [markNodes, List.map_map]
  refine (List.map_congr_left fun hash _ => ?_).trans (List.map_id _)
  show Node.hash (if leaves.contains hash then .onPath hash else .offPath hash) = hash
  split_ifs <;> rfl

theorem onPathItems_markNodes (isLeaf : Bool) (tree : BridgePoolTree H) (leaves : List H) :
    onPathItems isLeaf (markNodes tree leaves) =
      (tree.keys.filter fun hash => leaves.contains hash).map fun hash => (hash, isLeaf) := by
  rw [markNodes]
  induction tree.keys with
  | nil => rfl
  | cons key keys ih =>
    cases hkey : leaves.contains key
    · simp only [List.map_cons, List.filter_cons, hkey, Bool.false_eq_true, if_false, onPathItems, ih]
    · simp only [List.map_cons, List.filter_cons, hkey, if_true, onPathItems, ih]

/-- The keys that are proved leaves, in the order of the tree, are the proved
leaves when these are sorted and in the tree. -/
theorem filter_keys_eq {tree : BridgePoolTree H} {leaves : List H} (hsorted : leaves.Pairwise (· < ·))
    (hsub : ∀ hash ∈ leaves, hash ∈ tree.keys) : (tree.keys.filter fun hash => leaves.contains hash) = leaves := by
  have hfiltered := (keys_sorted tree).filter fun hash => leaves.contains hash
  have hperm : (tree.keys.filter fun hash => leaves.contains hash).Perm leaves := by
    refine (List.perm_ext_iff_of_nodup hfiltered.nodup hsorted.nodup).mpr fun hash => ?_
    rw [List.mem_filter, List.contains_iff_mem]
    exact ⟨And.right, fun hmem => ⟨hsub hash hmem, hmem⟩⟩
  exact hperm.eq_of_pairwise (fun _ _ _ _ hlt hgt => absurd hlt (lt_asymm hgt)) hfiltered hsorted

/-- `get_membership_proof` sorts distinct transfers into strictly increasing
hashes. -/
theorem mergeSort_sorted {values : List T} (hnodup : (values.map hasher.transfer).Nodup) :
    ((values.mergeSort fun first second => decide (hasher.transfer first ≤ hasher.transfer second)).map
      hasher.transfer).Pairwise (· < ·) := by
  have hle := List.pairwise_mergeSort
    (fun first second third (hfirst : decide (hasher.transfer first ≤ hasher.transfer second) = true)
        (hsecond : decide (hasher.transfer second ≤ hasher.transfer third) = true) =>
      decide_eq_true ((of_decide_eq_true hfirst).trans (of_decide_eq_true hsecond)))
    (fun first second => by simpa using le_total (hasher.transfer first) (hasher.transfer second)) values
  have hdistinct := ((List.mergeSort_perm values fun first second =>
    decide (hasher.transfer first ≤ hasher.transfer second)).map hasher.transfer).nodup_iff.mpr hnodup
  refine ((List.pairwise_map.mpr (hle.imp of_decide_eq_true)).and hdistinct).imp ?_
  exact fun hboth => lt_of_le_of_ne hboth.1 hboth.2

/-- Nothing runs on an empty queue. -/
theorem queueRun_of_nil {proof : List H} :
    ∀ {flags : List Bool} {result : List H × List (H × Bool)}, queueRun hasher flags (proof, []) = some result →
      flags = [] ∧ result = (proof, [])
  | [], _, h => ⟨rfl, (Option.some.inj h).symm⟩
  | _ :: _, _, h => by simp [queueRun, queueStep] at h

/-- The proof that `get_membership_proof` builds for sorted leaves of the tree
verifies against the root of the tree. -/
theorem verify_proveLevels {tree : BridgePoolTree H} {sorted : List T}
    (hsorted : (sorted.map hasher.transfer).Pairwise (· < ·)) (hsub : ∀ hash ∈ sorted.map hasher.transfer, hash ∈ tree.keys) :
    verify hasher
        ⟨if (proveLevels hasher (markNodes tree (sorted.map hasher.transfer)) poolRootPrefixLeaf [] []).1.isEmpty ∧
            (proveLevels hasher (markNodes tree (sorted.map hasher.transfer)) poolRootPrefixLeaf [] []).2.isEmpty ∧
            (sorted.map hasher.transfer).isEmpty
          then (proveLevels hasher (markNodes tree (sorted.map hasher.transfer)) poolRootPrefixLeaf [] []).2 ++
            [computeRoot hasher tree]
          else (proveLevels hasher (markNodes tree (sorted.map hasher.transfer)) poolRootPrefixLeaf [] []).2,
          sorted, (proveLevels hasher (markNodes tree (sorted.map hasher.transfer)) poolRootPrefixLeaf [] []).1⟩
        (computeRoot hasher tree) = some true := by
  generalize hproved : proveLevels hasher (markNodes tree (sorted.map hasher.transfer)) poolRootPrefixLeaf [] [] = proved
  obtain ⟨flags, proof⟩ := proved
  by_cases hkeys : tree.keys = []
  · -- an empty tree: nothing is proved, and the proof is the root alone
    have hnil : sorted = [] := by
      cases sorted with
      | nil => rfl
      | cons value _ => exact absurd (hsub _ List.mem_cons_self) (by rw [hkeys]; exact List.not_mem_nil)
    have hmarked : markNodes tree (sorted.map hasher.transfer) = [] := by rw [markNodes, hkeys, List.map_nil]
    rw [hmarked, proveLevels, if_neg (by simp)] at hproved
    cases hproved
    subst hnil
    simp [verify]
  have hne : markNodes tree (sorted.map hasher.transfer) ≠ [] := by
    rwa [markNodes, ne_eq, List.map_eq_nil_iff]
  obtain ⟨top, hrun, hhash, hpath⟩ := queueRun_proveLevels hasher _ true hne []
  rw [leafPrefix_true, hproved, List.append_nil, onPathItems_markNodes, filter_keys_eq hsorted hsub,
    List.map_map] at hrun
  dsimp only at hrun
  rw [hash_markNodes, leafPrefix_true] at hhash
  by_cases hempty : sorted = []
  · -- nothing to prove: no flag and no proof hash, the root is appended
    have hoff : top.isOnPath = false := by
      rw [hpath, ← onPathItems_eq_nil_iff true, onPathItems_markNodes, filter_keys_eq hsorted hsub, hempty]
      rfl
    have hitems : ∀ isLeaf, onPathItems isLeaf [top] = [] := fun isLeaf =>
      (onPathItems_eq_nil_iff isLeaf [top]).mpr (by simpa using hoff)
    rw [hempty, List.map_nil, hitems] at hrun
    obtain ⟨rfl, hresult⟩ := queueRun_of_nil hasher hrun
    cases hresult
    subst hempty
    simp [verify]
  have hon : top.isOnPath = true := by
    rw [hpath, ← Bool.not_eq_false, ← onPathItems_eq_nil_iff true, onPathItems_markNodes, filter_keys_eq hsorted hsub]
    simpa using hempty
  obtain ⟨hash, rfl⟩ : ∃ hash, top = .onPath hash := by
    cases top with
    | onPath hash => exact ⟨hash, rfl⟩
    | offPath _ => cases hon
  rw [Node.hash] at hhash
  subst hhash
  have hcond : ¬(flags.isEmpty = true ∧ proof.isEmpty = true ∧ (sorted.map hasher.transfer).isEmpty = true) := by
    simp [hempty]
  rw [if_neg hcond]
  by_cases hflags : flags = []
  · -- a single leaf is its own root
    subst hflags
    obtain ⟨rfl, hleaves⟩ := Prod.mk.inj (Option.some.inj hrun)
    rw [onPathItems, onPathItems] at hleaves
    obtain ⟨leaf, rfl, hleaf⟩ := List.map_eq_singleton_iff.mp hleaves
    have hroot : hasher.transfer leaf = computeRoot hasher tree := (Prod.mk.inj hleaf).1
    simp [verify, hroot]
  · -- the flags run the leaves to the root, a computed hash
    have hmore : 1 < (markNodes tree (sorted.map hasher.transfer)).length := by
      by_contra hle
      rw [proveLevels, if_neg hle] at hproved
      exact hflags (Prod.mk.inj hproved).1.symm
    rw [if_pos hmore] at hrun
    exact verify_of_queueRun hflags hrun

/-- A proof of transfers that are distinct leaves of a reachable tree is
built, and it verifies against the root of the tree. -/
theorem getMembershipProof_verifies {tree : BridgePoolTree H} (hreach : Reachable hasher tree) {values : List T}
    (hnodup : (values.map hasher.transfer).Nodup) (hmem : ∀ value ∈ values, hasher.transfer value ∈ tree.keys) :
    ∃ p, getMembershipProof hasher tree values = .ok p ∧ verify hasher p tree.root = some true := by
  have hperm := List.mergeSort_perm values fun first second => decide (hasher.transfer first ≤ hasher.transfer second)
  have hsorted := mergeSort_sorted hasher hnodup
  unfold getMembershipProof
  generalize values.mergeSort (fun first second => decide (hasher.transfer first ≤ hasher.transfer second)) =
    sorted at hperm hsorted ⊢
  have hsub : ∀ hash ∈ sorted.map hasher.transfer, hash ∈ tree.keys := by
    intro hash hhash
    obtain ⟨value, hvalue, rfl⟩ := List.mem_map.mp hhash
    exact hmem value (hperm.mem_iff.mp hvalue)
  have hall : (sorted.map hasher.transfer).all (fun hash => (tree.leaves.find? hash).isSome) = true :=
    List.all_eq_true.mpr fun hash hhash => (find?_isSome_iff_mem_keys tree hash).mpr (hsub hash hhash)
  simp only [hall, Bool.not_true, Bool.false_eq_true, if_false]
  refine ⟨_, rfl, ?_⟩
  rw [root_eq_computeRoot hasher hreach]
  exact verify_proveLevels hasher hsorted hsub

/-! ## Proofs that verify are of leaves of the tree -/

/-- An operand of the queue: a proved leaf is the hash of a transfer, a
computed hash is the hash of a pair. -/
def ItemShape : H × Bool → Prop
  | (hash, true) => ∃ transfer, hasher.transfer transfer = hash
  | (hash, false) => ∃ left right pre, hash = hashPair hasher left right pre

/-- An operand of the queue that belongs to the tree over `keys`: a proved
leaf is a key, a computed hash is a node at a level above the leaves. -/
def InTree (keys : List H) : H × Bool → Prop
  | (hash, true) => hash ∈ keys
  | (hash, false) => ∃ level, hash ∈ levels hasher keys (level + 1)

theorem queueStep_shape {flag : Bool} {state state' : List H × List (H × Bool)}
    (hshape : ∀ item ∈ state.2, ItemShape hasher item) (h : queueStep hasher flag state = some state') :
    ∀ item ∈ state'.2, ItemShape hasher item := by
  obtain ⟨left, isLeaf, right, rest, hnext, hcase⟩ := queueStep_eq_some hasher h
  have hrest : ∀ item ∈ rest, item ∈ state.2 := by
    rcases hcase with ⟨_, hqueue, _⟩ | ⟨hqueue, _⟩ <;> intro item hitem <;> simp [hqueue, hitem]
  intro item hitem
  rw [hnext, List.mem_append, List.mem_singleton] at hitem
  rcases hitem with hitem | rfl
  · exact hshape item (hrest item hitem)
  · exact ⟨left, right, leafPrefix isLeaf, rfl⟩

theorem queueRun_shape :
    ∀ {flags : List Bool} {state state' : List H × List (H × Bool)},
      (∀ item ∈ state.2, ItemShape hasher item) → queueRun hasher flags state = some state' →
        ∀ item ∈ state'.2, ItemShape hasher item
  | [], _, _, hshape, h => by
    cases h
    exact hshape
  | _ :: _, _, _, hshape, h => by
    obtain ⟨next, hstep, hrest⟩ := Option.bind_eq_some_iff.mp h
    exact queueRun_shape (queueStep_shape hasher hshape hstep) hrest

/-- The root of the tree: the all-zero hash with no leaf, the leaf itself with
one, and otherwise the hash of the two nodes of the level below the top. -/
theorem computeRoot_cases (tree : BridgePoolTree H) :
    (tree.keys = [] ∧ computeRoot hasher tree = hasher.zero) ∨
      (∃ key, tree.keys = [key] ∧ computeRoot hasher tree = key) ∨
      ∃ top first second, levels hasher tree.keys top = [first, second] ∧
        computeRoot hasher tree = hashPair hasher first second (levelPrefix top) := by
  match hkeys : tree.keys with
  | [] => exact .inl ⟨rfl, by rw [computeRoot, hkeys, computeRootOf_of_le hasher (by simp)]; rfl⟩
  | [key] => exact .inr (.inl ⟨key, rfl, by rw [computeRoot, hkeys, computeRootOf_of_le hasher (by simp)]; rfl⟩)
  | _ :: _ :: _ =>
    rw [← hkeys]
    exact .inr (.inr (computeRoot_eq_levels hasher tree (by rw [hkeys]; simp)))

theorem hashPair_mem_levels {keys : List H} {top : ℕ} {first second : H}
    (htop : levels hasher keys top = [first, second]) :
    hashPair hasher first second (levelPrefix top) ∈ levels hasher keys (top + 1) := by
  show _ ∈ computeLevel hasher (levelPrefix top) (levels hasher keys top)
  rw [htop]
  exact List.mem_singleton_self _

section Sound

variable {hasher}

theorem ItemShape.ne_zero (hfree : CollisionFree hasher) {item : H × Bool} (hshape : ItemShape hasher item) :
    item.1 ≠ hasher.zero := by
  obtain ⟨hash, _ | _⟩ := item
  · obtain ⟨left, right, pre, rfl⟩ := hshape
    exact hashPair_ne_zero hfree left right pre
  · obtain ⟨transfer, rfl⟩ := hshape
    exact hfree.transfer_ne_zero transfer

/-- No level of a tree whose keys are hashes of transfers holds the all-zero
hash. -/
theorem zero_not_mem_levels (hfree : CollisionFree hasher) {keys : List H}
    (hkeys : ∀ key ∈ keys, ∃ transfer, hasher.transfer transfer = key) :
    ∀ level, hasher.zero ∉ levels hasher keys level
  | 0, hmem => by
    obtain ⟨transfer, htransfer⟩ := hkeys _ hmem
    exact hfree.transfer_ne_zero transfer htransfer
  | level + 1, hmem => by
    obtain ⟨left, right, heq, _⟩ := mem_levels_succ hasher hmem
    exact hashPair_ne_zero hfree left right _ heq.symm

/-- An operand of the right shape that is a node of some level belongs to the
tree: a leaf of a level above would be the hash of a pair, and a computed
hash among the keys the hash of a transfer. -/
theorem inTree_of_mem_levels (hfree : CollisionFree hasher) {keys : List H}
    (hkeys : ∀ key ∈ keys, ∃ transfer, hasher.transfer transfer = key) {item : H × Bool}
    (hshape : ItemShape hasher item) {level : ℕ} (hmem : item.1 ∈ levels hasher keys level) :
    InTree hasher keys item := by
  obtain ⟨hash, isLeaf⟩ := item
  cases isLeaf with
  | false =>
    cases level with
    | zero =>
      obtain ⟨transfer, rfl⟩ := hkeys hash hmem
      obtain ⟨left, right, pre, heq⟩ := hshape
      exact absurd heq (transfer_ne_hashPair hfree transfer left right pre)
    | succ level => exact ⟨level, hmem⟩
  | true =>
    cases level with
    | zero => exact hmem
    | succ level =>
      obtain ⟨transfer, rfl⟩ := hshape
      obtain ⟨left, right, heq, _⟩ := mem_levels_succ hasher hmem
      exact absurd heq (transfer_ne_hashPair hfree transfer left right _)

/-- The left operand of a hash that is a node above the leaves is a node of
the level below. -/
theorem inTree_of_hashPair (hfree : CollisionFree hasher) {keys : List H}
    (hkeys : ∀ key ∈ keys, ∃ transfer, hasher.transfer transfer = key) {left right : H} {pre : UInt8}
    (hin : InTree hasher keys (hashPair hasher left right pre, false)) {isLeaf : Bool}
    (hshape : ItemShape hasher (left, isLeaf)) : InTree hasher keys (left, isLeaf) := by
  obtain ⟨level, hmem⟩ := hin
  obtain ⟨first, second, heq, hfirst, hsecond⟩ := mem_levels_succ hasher hmem
  obtain ⟨_, ⟨rfl, _⟩ | ⟨rfl, _⟩⟩ := hashPair_inj hfree heq
  · exact inTree_of_mem_levels hfree hkeys hshape hfirst
  · exact inTree_of_mem_levels hfree hkeys hshape (hsecond.resolve_right (hshape.ne_zero hfree))

/-- A step whose hashes left in the queue belong to the tree took operands
from the queue that belong to the tree. -/
theorem queueStep_inTree (hfree : CollisionFree hasher) {keys : List H}
    (hkeys : ∀ key ∈ keys, ∃ transfer, hasher.transfer transfer = key) {flag : Bool}
    {state state' : List H × List (H × Bool)} (hshape : ∀ item ∈ state.2, ItemShape hasher item)
    (h : queueStep hasher flag state = some state') (hin : ∀ item ∈ state'.2, InTree hasher keys item) :
    ∀ item ∈ state.2, InTree hasher keys item := by
  obtain ⟨left, isLeaf, right, rest, hnext, hcase⟩ := queueStep_eq_some hasher h
  rw [hnext] at hin
  have hnew := hin _ (List.mem_append_right _ (List.mem_singleton_self _))
  have hrest : ∀ item ∈ rest, InTree hasher keys item := fun item hitem => hin item (List.mem_append_left _ hitem)
  rcases hcase with ⟨isLeaf', hqueue, _⟩ | ⟨hqueue, _⟩ <;> rw [hqueue] at hshape ⊢ <;> intro item hitem
  · -- both operands came from the queue
    rcases List.mem_cons.mp hitem with rfl | hitem
    · exact inTree_of_hashPair hfree hkeys hnew (hshape _ List.mem_cons_self)
    rcases List.mem_cons.mp hitem with rfl | hitem
    · rw [hashPair_comm] at hnew
      exact inTree_of_hashPair hfree hkeys hnew (hshape _ (List.mem_cons_of_mem _ List.mem_cons_self))
    · exact hrest item hitem
  · -- the right operand came from the proof
    rcases List.mem_cons.mp hitem with rfl | hitem
    · exact inTree_of_hashPair hfree hkeys hnew (hshape _ List.mem_cons_self)
    · exact hrest item hitem

theorem queueRun_inTree (hfree : CollisionFree hasher) {keys : List H}
    (hkeys : ∀ key ∈ keys, ∃ transfer, hasher.transfer transfer = key) :
    ∀ {flags : List Bool} {state state' : List H × List (H × Bool)},
      (∀ item ∈ state.2, ItemShape hasher item) → queueRun hasher flags state = some state' →
        (∀ item ∈ state'.2, InTree hasher keys item) → ∀ item ∈ state.2, InTree hasher keys item
  | [], _, _, _, h, hin => by
    cases h
    exact hin
  | _ :: _, _, _, hshape, h, hin => by
    obtain ⟨next, hstep, hrest⟩ := Option.bind_eq_some_iff.mp h
    exact queueStep_inTree hfree hkeys hshape hstep
      (queueRun_inTree hfree hkeys (queueStep_shape hasher hshape hstep) hrest hin)

/-- With no flag, a proof verifies only as the single leaf that is the root,
which then is a key. -/
theorem verify_sound_of_nil (hfree : CollisionFree hasher) {tree : BridgePoolTree H} {p : BridgePoolProof T H}
    (hflags : p.flags = []) (hverify : verify hasher p (computeRoot hasher tree) = some true) :
    ∀ leaf ∈ p.leaves, hasher.transfer leaf ∈ tree.keys := by
  unfold verify at hverify
  split_ifs at hverify with hcount hempty
  · cases hverify
  swap
  · exact absurd (List.isEmpty_iff.mpr hflags) hempty
  rw [hflags, List.length_nil] at hcount
  cases hlast : p.leaves.getLast? with
  | none =>
    rw [List.getLast?_eq_none_iff.mp hlast]
    exact fun _ hleaf => absurd hleaf List.not_mem_nil
  | some leaf =>
    -- one leaf and no proof hash: the leaf is the root
    rw [hlast] at hverify
    simp only [Option.some.injEq, decide_eq_true_eq] at hverify
    have hne : p.leaves ≠ [] := fun hnil => by rw [hnil] at hlast; cases hlast
    have hpos := List.length_pos_iff.mpr hne
    obtain ⟨only, hsingle⟩ : ∃ only, p.leaves = [only] := List.length_eq_one_iff.mp (by omega)
    rw [hsingle, List.getLast?_singleton, Option.some.injEq] at hlast
    subst hlast
    rw [hsingle]
    intro _ hmem
    rw [List.mem_singleton.mp hmem]
    rcases computeRoot_cases hasher tree with ⟨_, hzero⟩ | ⟨key, hone, hkey⟩ | ⟨_, first, second, _, hpair⟩
    · exact absurd (hverify.symm.trans hzero) (hfree.transfer_ne_zero only)
    · rw [hone, ← hverify, hkey]
      exact List.mem_singleton_self key
    · exact absurd (hverify.symm.trans hpair) (transfer_ne_hashPair hfree only first second _)

/-- A proof that verifies against the root of a reachable tree whose keys are
hashes of transfers proves only leaves of the tree. -/
theorem verify_sound (hfree : CollisionFree hasher) {tree : BridgePoolTree H} (hreach : Reachable hasher tree)
    (hkeys : ∀ key ∈ tree.keys, ∃ transfer, hasher.transfer transfer = key) {p : BridgePoolProof T H}
    (hverify : verify hasher p tree.root = some true) : ∀ leaf ∈ p.leaves, hasher.transfer leaf ∈ tree.keys := by
  rw [root_eq_computeRoot hasher hreach] at hverify
  by_cases hflags : p.flags = []
  · exact verify_sound_of_nil hfree hflags hverify
  have hnoKey : ∀ key, tree.keys = [key] → ∀ left right pre, key ≠ hashPair hasher left right pre := by
    intro key hone left right pre heq
    obtain ⟨transfer, htransfer⟩ := hkeys key (by rw [hone]; exact List.mem_singleton_self key)
    exact transfer_ne_hashPair hfree transfer left right pre (htransfer.trans heq)
  rcases verify_cases hflags hverify with hrun | ⟨right, pre, hzero⟩
  · -- the root is the one hash left in the queue, and a node above the leaves
    have hleaves : ∀ item ∈ (p.leaves.map fun leaf => (hasher.transfer leaf, true)), ItemShape hasher item := by
      simp only [List.mem_map]
      rintro _ ⟨leaf, _, rfl⟩
      exact ⟨leaf, rfl⟩
    obtain ⟨left, right, pre, hcomputed⟩ :=
      queueRun_shape hasher hleaves hrun (computeRoot hasher tree, false) (List.mem_singleton_self _)
    rcases computeRoot_cases hasher tree with ⟨_, hzero⟩ | ⟨key, hone, hkey⟩ | ⟨top, first, second, htop, hpair⟩
    · exact absurd (hcomputed.symm.trans hzero) (hashPair_ne_zero hfree left right pre)
    · exact absurd (hkey.symm.trans hcomputed) (hnoKey key hone left right pre)
    · have hroot : ∀ item ∈ [(computeRoot hasher tree, false)], InTree hasher tree.keys item := by
        intro item hitem
        rw [List.mem_singleton.mp hitem, hpair]
        exact ⟨top, hashPair_mem_levels hasher htop⟩
      intro leaf hleaf
      exact queueRun_inTree hfree hkeys hleaves hrun hroot (hasher.transfer leaf, true) (List.mem_map_of_mem hleaf)
  · -- a root with a zero operand is no root of the tree
    rcases computeRoot_cases hasher tree with ⟨_, hroot⟩ | ⟨key, hone, hkey⟩ | ⟨top, first, second, htop, hpair⟩
    · exact absurd (hzero.symm.trans hroot) (hashPair_ne_zero hfree _ right pre)
    · exact absurd (hkey.symm.trans hzero) (hnoKey key hone _ right pre)
    · have hlevel : ∀ hash ∈ [first, second], hash ∈ levels hasher tree.keys top := by rw [htop]; exact fun _ => id
      obtain ⟨_, ⟨hfirst, _⟩ | ⟨hsecond, _⟩⟩ := hashPair_inj hfree (hzero.symm.trans hpair)
      · exact (zero_not_mem_levels hfree hkeys top (hfirst ▸ hlevel first List.mem_cons_self)).elim
      · exact (zero_not_mem_levels hfree hkeys top
          (hsecond ▸ hlevel second (List.mem_cons_of_mem _ List.mem_cons_self))).elim

end Sound

/-- Membership proofs of a reachable bridge pool tree, for a hash without
collisions: the proof of distinct transfers in the tree is built and
verifies, and a proof that verifies, when the keys are hashes of transfers,
proves only transfers in the tree. -/
theorem bridgePoolProof_complete_sound (hfree : CollisionFree hasher) {tree : BridgePoolTree H}
    (hreach : Reachable hasher tree) :
    (∀ values : List T, values.Nodup → (∀ value ∈ values, hasher.transfer value ∈ tree.keys) →
      ∃ p, getMembershipProof hasher tree values = .ok p ∧ verify hasher p tree.root = some true) ∧
    ((∀ key ∈ tree.keys, ∃ transfer, hasher.transfer transfer = key) →
      ∀ p : BridgePoolProof T H, verify hasher p tree.root = some true →
        ∀ leaf ∈ p.leaves, hasher.transfer leaf ∈ tree.keys) :=
  ⟨fun _ hnodup hmem => getMembershipProof_verifies hasher hreach (hnodup.map hfree.transfer_injective) hmem,
    fun hkeys _ hverify => verify_sound hfree hreach hkeys hverify⟩

theorem bridgePoolProof_complete_sound_two :
    (∃ p, getMembershipProof numberHasher
        (withLeaves numberHasher ((withLeaves numberHasher (SortedMap.empty.insert 3 0)).leaves.insert 5 0)) [1, 2] =
          .ok p ∧
        verify numberHasher p
          (withLeaves numberHasher ((withLeaves numberHasher (SortedMap.empty.insert 3 0)).leaves.insert 5 0)).root =
          some true) ∧
    ∀ p : BridgePoolProof ℕ ℕ, verify numberHasher p
        (withLeaves numberHasher ((withLeaves numberHasher (SortedMap.empty.insert 3 0)).leaves.insert 5 0)).root =
          some true →
      ∀ leaf ∈ p.leaves, numberHasher.transfer leaf ∈
        (withLeaves numberHasher ((withLeaves numberHasher (SortedMap.empty.insert 3 0)).leaves.insert 5 0)).keys := by
  have hreach : Reachable numberHasher
      (withLeaves numberHasher ((withLeaves numberHasher (SortedMap.empty.insert 3 0)).leaves.insert 5 0)) :=
    .insert 5 0 (.insert 3 0 .empty)
  have hodd : ∀ key ∈ (withLeaves numberHasher ((withLeaves numberHasher (SortedMap.empty.insert 3 0)).leaves.insert
      5 0)).keys, key % 2 = 1 := by decide
  refine ⟨(bridgePoolProof_complete_sound numberHasher numberHasher_collisionFree hreach).1 [1, 2] (by decide)
    (by decide), (bridgePoolProof_complete_sound numberHasher numberHasher_collisionFree hreach).2 ?_⟩
  intro key hkey
  refine ⟨key / 2, ?_⟩
  have hkeyOdd := hodd key hkey
  simp only [numberHasher]
  omega

/-- A tree whose one key is no hash of a transfer: it is the root of the tree
of the transfers 1 and 2. -/
def pairRootTree : BridgePoolTree ℕ := withLeaves numberHasher (SortedMap.empty.insert 1570 0)

/-- Soundness needs the keys to be hashes of transfers: the tree of the one key
1570 is reachable, and the proof of the transfers 1 and 2, whose hashes pair to
1570, verifies against its root, though neither hash is a key of it. -/
theorem bridgePoolProof_sound_needs_transfer_keys :
    Reachable numberHasher pairRootTree ∧
      verify numberHasher ⟨[], [1, 2], [true]⟩ pairRootTree.root = some true ∧
      numberHasher.transfer 1 ∉ pairRootTree.keys ∧ numberHasher.transfer 2 ∉ pairRootTree.keys := by
  -- the root of one leaf is the leaf
  have hroot : pairRootTree.root = 1570 := computeRootOf_of_le numberHasher (by decide)
  refine ⟨.insert 1570 0 .empty, ?_, by decide, by decide⟩
  rw [hroot]
  decide

end Namada.MerkleTree
