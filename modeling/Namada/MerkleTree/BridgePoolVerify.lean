/-
# `verify` of bridge pool proofs, read as a queue

`BridgePoolProof::verify` keeps its computed hashes in an array with a read
position, and takes an operand from the proved leaves while there are any.
Read as a queue (`queueStep`), it takes the next proved leaf or computed hash
from the front and puts each hash it computes at the back; this module runs
the flags on that queue and relates the array to it. While the read position
stays below the hashes computed so far, the array holds the queue
(`Tracks`, `verifyLoop_of_queueRun`). Once a read passes them it only reads
the all-zero hash from then on, and the last hash it computes has the zero
hash for an operand (`Ahead`). A proof verifies exactly when its flags run
the queue of its leaves to the root alone, or when the root is computed with
a zero operand (`verify_of_queueRun`, `verify_cases`).
-/

import Namada.MerkleTree.BridgePool

namespace Namada.MerkleTree

variable {T H : Type} [LinearOrder H] (hasher : Hasher T H)

/-! ## The queue of `verify` -/

/-- The prefix of an operand from the queue: that of leaves for a proved leaf,
that of the levels above for a computed hash. -/
def leafPrefix (isLeaf : Bool) : UInt8 := if isLeaf then poolRootPrefixLeaf else poolRootPrefixNonLeaf

/-- One flag of `verify` read on a queue: the proof hashes not yet used, and
the hashes not yet used, each marked when it is a proved leaf. The left
operand comes from the front of the queue, the right one from the queue too
when the flag is set and from the proof when not, and their hash goes to the
back. -/
def queueStep (flag : Bool) : List H × List (H × Bool) → Option (List H × List (H × Bool))
  | (_, []) => none
  | (proof, (left, isLeaf) :: queue) =>
    if flag then
      match queue with
      | [] => none
      | (right, _) :: queue => some (proof, queue ++ [(hashPair hasher left right (leafPrefix isLeaf), false)])
    else
      match proof with
      | [] => none
      | right :: proof => some (proof, queue ++ [(hashPair hasher left right (leafPrefix isLeaf), false)])

/-- The flags of `verify`, one after the other, on the queue. -/
def queueRun : List Bool → List H × List (H × Bool) → Option (List H × List (H × Bool))
  | [], state => some state
  | flag :: flags, state => (queueStep hasher flag state).bind (queueRun flags)

theorem queueRun_append (flags flags' : List Bool) :
    ∀ state : List H × List (H × Bool),
      queueRun hasher (flags ++ flags') state = (queueRun hasher flags state).bind (queueRun hasher flags') := by
  induction flags with
  | nil => intro state; rfl
  | cons flag flags ih =>
    intro state
    simp only [List.cons_append, queueRun, Option.bind_assoc, ih]

/-- What a step of the queue does: it takes a left operand from the front and
a right one after it, or from the proof, and puts their hash at the back. -/
theorem queueStep_eq_some {flag : Bool} {state state' : List H × List (H × Bool)}
    (h : queueStep hasher flag state = some state') :
    ∃ left isLeaf right rest, state'.2 = rest ++ [(hashPair hasher left right (leafPrefix isLeaf), false)] ∧
      ((∃ isLeaf', state.2 = (left, isLeaf) :: (right, isLeaf') :: rest ∧ state'.1 = state.1) ∨
        (state.2 = (left, isLeaf) :: rest ∧ state.1 = right :: state'.1)) := by
  obtain ⟨proof, queue⟩ := state
  rcases queue with _ | ⟨⟨left, isLeaf⟩, rest⟩
  · simp [queueStep] at h
  cases flag with
  | true =>
    rcases rest with _ | ⟨⟨right, isLeaf'⟩, rest⟩
    · simp [queueStep] at h
    · simp only [queueStep, if_true, Option.some.injEq] at h
      subst h
      exact ⟨left, isLeaf, right, rest, rfl, .inl ⟨isLeaf', rfl, rfl⟩⟩
  | false =>
    rcases proof with _ | ⟨right, proof⟩
    · simp [queueStep] at h
    · simp only [queueStep, Bool.false_eq_true, if_false, Option.some.injEq] at h
      subst h
      exact ⟨left, isLeaf, right, rest, rfl, .inr ⟨rfl, rfl⟩⟩

/-- A step takes two operands and puts back one hash. -/
theorem queueStep_length {flag : Bool} {proof proof' : List H} {queue queue' : List (H × Bool)}
    (h : queueStep hasher flag (proof, queue) = some (proof', queue')) :
    queue'.length + proof'.length + 1 = queue.length + proof.length := by
  obtain ⟨left, isLeaf, right, rest, hnext, hcase⟩ := queueStep_eq_some hasher h
  simp only at hnext hcase
  rw [hnext, List.length_append, List.length_singleton]
  rcases hcase with ⟨_, hqueue, hproof⟩ | ⟨hqueue, hproof⟩
  · rw [hqueue, hproof, List.length_cons, List.length_cons]
    omega
  · rw [hqueue, hproof, List.length_cons, List.length_cons]
    omega

/-- Each flag uses up one of the leaves, proof hashes and hashes it is given. -/
theorem queueRun_length :
    ∀ {flags : List Bool} {state state' : List H × List (H × Bool)}, queueRun hasher flags state = some state' →
      state'.2.length + state'.1.length + flags.length = state.2.length + state.1.length
  | [], _, _, h => by
    cases h
    simp
  | _ :: _, _, _, h => by
    obtain ⟨next, hstep, hrest⟩ := Option.bind_eq_some_iff.mp h
    have hfirst := queueStep_length hasher hstep
    have hlater := queueRun_length hrest
    rw [List.length_cons]
    omega

/-- The hash a step computes is the last in the queue. -/
theorem queueStep_getLast {flag : Bool} {state state' : List H × List (H × Bool)}
    (h : queueStep hasher flag state = some state') : ∃ hash, state'.2.getLast? = some (hash, false) := by
  obtain ⟨left, isLeaf, right, rest, hnext, _⟩ := queueStep_eq_some hasher h
  exact ⟨_, by rw [hnext, List.getLast?_concat]⟩

theorem queueRun_getLast :
    ∀ {flags : List Bool} {state state' : List H × List (H × Bool)}, flags ≠ [] →
      queueRun hasher flags state = some state' → ∃ hash, state'.2.getLast? = some (hash, false)
  | [], _, _, hne, _ => absurd rfl hne
  | [_], _, _, _, h => by
    obtain ⟨next, hstep, hrest⟩ := Option.bind_eq_some_iff.mp h
    cases hrest
    exact queueStep_getLast hasher hstep
  | _ :: flag :: flags, _, _, _, h => by
    obtain ⟨_, _, hrest⟩ := Option.bind_eq_some_iff.mp h
    exact queueRun_getLast (List.cons_ne_nil flag flags) hrest

/-! ## The array of `verify` holds the queue -/

section Refinement

variable (p : BridgePoolProof T H)

/-- What the loop of `verify` has not yet used at flag `i`: the proved leaves
from `leaf_pos` on, then the hashes computed before `i` from `hash_pos` on. -/
def queueOf (i : ℕ) (state : VerifyState H) : List (H × Bool) :=
  (p.leaves.drop state.leafPos).map (fun leaf => (hasher.transfer leaf, true)) ++
    ((state.hashes.take i).drop state.hashPos).map fun hash => (hash, false)

/-- The state of `verify` at flag `i` whose reads stayed within the hashes
computed before them: the hashes from `i` on are still the zero hash, and no
hash was read while leaves were left. -/
structure Tracks (i : ℕ) (state : VerifyState H) : Prop where
  length : state.hashes.length = p.flags.length
  unset : state.hashes.drop i = List.replicate (p.flags.length - i) hasher.zero
  flag_le : i ≤ p.flags.length
  leafPos_le : state.leafPos ≤ p.leaves.length
  hashPos_le : state.hashPos ≤ i
  leaves_first : state.leafPos < p.leaves.length → state.hashPos = 0

/-- The state of `verify` at flag `i` after a read past the computed hashes:
the leaves are used up, every read from now on is of the zero hash, and the
last hash computed has the zero hash for an operand. -/
structure Ahead (i : ℕ) (state : VerifyState H) : Prop where
  length : state.hashes.length = p.flags.length
  unset : state.hashes.drop i = List.replicate (p.flags.length - i) hasher.zero
  leaves_used : p.leaves.length ≤ state.leafPos
  hashPos_ge : i ≤ state.hashPos
  last_zero : ∃ right pre, state.hashes[i - 1]? = some (hashPair hasher hasher.zero right pre)

omit [LinearOrder H] in
theorem tracks_start :
    Tracks hasher p 0 ⟨List.replicate p.flags.length hasher.zero, 0, 0, 0⟩ where
  length := List.length_replicate
  unset := by rw [List.drop_zero, Nat.sub_zero]
  flag_le := Nat.zero_le _
  leafPos_le := Nat.zero_le _
  hashPos_le := le_rfl
  leaves_first := fun _ => rfl

omit [LinearOrder H] in
theorem queueOf_start :
    queueOf hasher p 0 ⟨List.replicate p.flags.length hasher.zero, 0, 0, 0⟩ =
      p.leaves.map fun leaf => (hasher.transfer leaf, true) := by
  simp [queueOf]

theorem drop_eq_cons {α : Type} {l rest : List α} {n : ℕ} {x : α} (h : l.drop n = x :: rest) :
    l[n]? = some x ∧ l.drop (n + 1) = rest := by
  refine ⟨?_, ?_⟩
  · have hhead := congrArg List.head? h
    rwa [List.head?_drop, List.head?_cons] at hhead
  · have htail := congrArg List.tail h
    rwa [List.tail_drop, List.tail_cons] at htail

omit [LinearOrder H] in
/-- A hash read at or past `i` is the zero hash. -/
theorem getElem?_of_unset {hashes : List H} {i k : ℕ} {hash : H}
    (hunset : hashes.drop i = List.replicate (p.flags.length - i) hasher.zero) (hk : i ≤ k)
    (hget : hashes[k]? = some hash) : hash = hasher.zero := by
  have hdrop : (hashes.drop i)[k - i]? = some hash := by
    rw [List.getElem?_drop, Nat.add_sub_cancel' hk, hget]
  rw [hunset, List.getElem?_replicate] at hdrop
  split_ifs at hdrop
  exact (Option.some.inj hdrop).symm

variable {hasher p}

omit [LinearOrder H] in
/-- Taking the next operand from a state that tracks the queue takes the front
of the queue. -/
theorem takeNext_of_queue {i : ℕ} {state : VerifyState H} {item : H × Bool} {rest : List (H × Bool)}
    (htracks : Tracks hasher p i state) (hqueue : queueOf hasher p i state = item :: rest) :
    ∃ state', takeNext hasher p state = some (item.1, leafPrefix item.2, state') ∧ Tracks hasher p i state' ∧
      state'.hashes = state.hashes ∧ state'.proofPos = state.proofPos ∧ queueOf hasher p i state' = rest := by
  unfold takeNext
  by_cases hleaf : state.leafPos < p.leaves.length
  · -- a proved leaf is left: it is the front of the queue
    rw [dif_pos hleaf]
    rw [queueOf, List.drop_eq_getElem_cons hleaf, List.map_cons, List.cons_append] at hqueue
    obtain ⟨rfl, rfl⟩ := List.cons.inj hqueue
    refine ⟨_, rfl, ⟨htracks.length, htracks.unset, htracks.flag_le, hleaf, htracks.hashPos_le, ?_⟩, rfl, rfl, rfl⟩
    intro _
    exact htracks.leaves_first hleaf
  · -- the leaves are used up: the front is the next computed hash
    rw [dif_neg hleaf]
    have hused : p.leaves.length ≤ state.leafPos := Nat.le_of_not_lt hleaf
    rw [queueOf, List.drop_of_length_le hused, List.map_nil, List.nil_append] at hqueue
    obtain ⟨hash, hashes, hdrop, rfl, rfl⟩ := List.map_eq_cons_iff.mp hqueue
    obtain ⟨hget, hnext⟩ := drop_eq_cons hdrop
    have hbelow : state.hashPos < i := by
      by_contra hge
      rw [List.getElem?_take, if_neg hge] at hget
      cases hget
    rw [List.getElem?_take, if_pos hbelow] at hget
    rw [hget, Option.map_some]
    refine ⟨_, rfl, ⟨htracks.length, htracks.unset, htracks.flag_le, htracks.leafPos_le, hbelow, ?_⟩, rfl, rfl, ?_⟩
    · intro hlt
      exact absurd hlt hleaf
    · rw [queueOf, List.drop_of_length_le hused, List.map_nil, List.nil_append]
      exact congrArg (List.map _) hnext

omit [LinearOrder H] in
/-- Taking the next operand when the queue is empty reads past the computed
hashes: the zero hash, with the prefix of the levels above. -/
theorem takeNext_of_empty {i : ℕ} {state state' : VerifyState H} {hash : H} {pre : UInt8}
    (hunset : state.hashes.drop i = List.replicate (p.flags.length - i) hasher.zero)
    (hlength : state.hashes.length = p.flags.length) (hi : i ≤ p.flags.length)
    (hempty : queueOf hasher p i state = []) (h : takeNext hasher p state = some (hash, pre, state')) :
    hash = hasher.zero ∧ pre = poolRootPrefixNonLeaf ∧ p.leaves.length ≤ state'.leafPos ∧
      i < state'.hashPos ∧ state'.hashes = state.hashes ∧ state'.proofPos = state.proofPos := by
  rw [queueOf, List.append_eq_nil_iff, List.map_eq_nil_iff, List.map_eq_nil_iff, List.drop_eq_nil_iff,
    List.drop_eq_nil_iff, List.length_take, hlength, Nat.min_eq_left hi] at hempty
  obtain ⟨hused, hpast⟩ := hempty
  unfold takeNext at h
  rw [dif_neg (Nat.not_lt.mpr hused)] at h
  obtain ⟨next, hget, hnext⟩ := Option.map_eq_some_iff.mp h
  cases hnext
  exact ⟨getElem?_of_unset hasher p hunset hpast hget, rfl, hused, Nat.lt_succ_of_le hpast, rfl, rfl⟩

omit [LinearOrder H] in
theorem takeProof_eq_some {state state' : VerifyState H} {hash : H}
    (h : takeProof p state = some (hash, state')) :
    p.proof.drop state.proofPos = hash :: p.proof.drop (state.proofPos + 1) ∧
      state' = { state with proofPos := state.proofPos + 1 } := by
  obtain ⟨next, hget, hnext⟩ := Option.map_eq_some_iff.mp h
  cases hnext
  obtain ⟨hlt, rfl⟩ := List.getElem?_eq_some_iff.mp hget
  exact ⟨List.drop_eq_getElem_cons hlt, rfl⟩

omit [LinearOrder H] in
theorem takeProof_of_cons {state : VerifyState H} {hash : H} {rest : List H}
    (hproof : p.proof.drop state.proofPos = hash :: rest) :
    takeProof p state = some (hash, { state with proofPos := state.proofPos + 1 }) ∧
      p.proof.drop (state.proofPos + 1) = rest := by
  obtain ⟨hget, hnext⟩ := drop_eq_cons hproof
  refine ⟨?_, hnext⟩
  rw [takeProof, hget, Option.map_some]

omit [LinearOrder H] in
/-- Writing the hash computed at `i` puts it at the back of the queue. -/
theorem queueOf_set {i : ℕ} {state : VerifyState H} (hash : H) (hi : i < state.hashes.length)
    (hpos : state.hashPos ≤ i) :
    queueOf hasher p (i + 1) { state with hashes := state.hashes.set i hash } =
      queueOf hasher p i state ++ [(hash, false)] := by
  have htake : (state.hashes.set i hash).take (i + 1) = state.hashes.take i ++ [hash] := by
    rw [List.take_add_one, List.getElem?_set_self hi, List.take_set_of_le (Nat.le_refl i), Option.toList_some]
  simp only [queueOf]
  rw [htake, List.drop_append_of_le_length (by rw [List.length_take]; omega), List.map_append, List.append_assoc]
  rfl

omit [LinearOrder H] in
/-- Writing the hash at `i` leaves the zero hashes past it. -/
theorem drop_set_of_unset {hashes : List H} {i : ℕ}
    (hunset : hashes.drop i = List.replicate (p.flags.length - i) hasher.zero) (hash : H) :
    (hashes.set i hash).drop (i + 1) = List.replicate (p.flags.length - (i + 1)) hasher.zero := by
  rw [List.drop_set_of_lt (Nat.lt_add_one i), ← List.drop_drop, hunset, List.drop_replicate]
  congr 1

omit [LinearOrder H] in
/-- The state after writing the hash computed at `i` tracks the queue at
`i + 1`. -/
theorem Tracks.set {i : ℕ} {state : VerifyState H} (htracks : Tracks hasher p i state) (hi : i < p.flags.length)
    (hash : H) : Tracks hasher p (i + 1) { state with hashes := state.hashes.set i hash } where
  length := by rw [List.length_set, htracks.length]
  unset := drop_set_of_unset htracks.unset hash
  flag_le := hi
  leafPos_le := htracks.leafPos_le
  hashPos_le := Nat.le_succ_of_le htracks.hashPos_le
  leaves_first := htracks.leaves_first

/-- A step of `verify` from a state that tracks the queue is the step on the
queue, when that does not run out. -/
theorem verifyStep_of_queueStep {flag : Bool} {i : ℕ} {state : VerifyState H} {proof : List H}
    {queue : List (H × Bool)} (htracks : Tracks hasher p i state) (hi : i < p.flags.length)
    (hstep : queueStep hasher flag (p.proof.drop state.proofPos, queueOf hasher p i state) = some (proof, queue)) :
    ∃ state', verifyStep hasher p flag i state = some state' ∧ Tracks hasher p (i + 1) state' ∧
      p.proof.drop state'.proofPos = proof ∧ queueOf hasher p (i + 1) state' = queue := by
  match hqueue : queueOf hasher p i state, hstep with
  | (left, isLeaf) :: rest, hstep =>
    obtain ⟨first, hfirst, hfirstTracks, hfirstHashes, hfirstProof, hfirstQueue⟩ := takeNext_of_queue htracks hqueue
    cases flag with
    | true =>
      -- the right operand is the next in the queue
      match hrest : rest, hstep with
      | (right, rightIsLeaf) :: rest', hstep =>
        simp only [queueStep, if_true, Option.some.injEq, Prod.mk.injEq] at hstep
        obtain ⟨rfl, rfl⟩ := hstep
        obtain ⟨second, hsecond, hsecondTracks, hsecondHashes, hsecondProof, hsecondQueue⟩ :=
          takeNext_of_queue hfirstTracks hfirstQueue
        have hlen : i < second.hashes.length := by rw [hsecondTracks.length]; exact hi
        refine ⟨_, ?_, hsecondTracks.set hi (hashPair hasher left right (leafPrefix isLeaf)), ?_, ?_⟩
        · rw [verifyStep, hfirst, Option.bind_some, if_pos rfl, hsecond, Option.map_some, Option.map_some]
        · rw [hsecondProof, hfirstProof]
        · rw [queueOf_set _ hlen hsecondTracks.hashPos_le, hsecondQueue]
    | false =>
      -- the right operand is the next proof hash
      match hproof : p.proof.drop state.proofPos, hstep with
      | right :: proof', hstep =>
        simp only [queueStep, Bool.false_eq_true, if_false, Option.some.injEq, Prod.mk.injEq] at hstep
        obtain ⟨rfl, rfl⟩ := hstep
        rw [← hfirstProof] at hproof
        obtain ⟨htake, hnext⟩ := takeProof_of_cons hproof
        have hsecondTracks : Tracks hasher p i { first with proofPos := first.proofPos + 1 } :=
          ⟨hfirstTracks.length, hfirstTracks.unset, hfirstTracks.flag_le, hfirstTracks.leafPos_le,
            hfirstTracks.hashPos_le, hfirstTracks.leaves_first⟩
        have hlen : i < ({ first with proofPos := first.proofPos + 1 } : VerifyState H).hashes.length := by
          rw [hfirstTracks.length]
          exact hi
        refine ⟨_, ?_, hsecondTracks.set hi (hashPair hasher left right (leafPrefix isLeaf)), hnext, ?_⟩
        · rw [verifyStep, hfirst, Option.bind_some, if_neg Bool.false_ne_true, htake, Option.map_some]
        · rw [queueOf_set _ hlen hsecondTracks.hashPos_le]
          exact congrArg (· ++ [_]) hfirstQueue

omit [LinearOrder H] in
/-- Taking an operand reads forward and writes no hash. -/
theorem takeNext_mono {state state' : VerifyState H} {hash : H} {pre : UInt8}
    (h : takeNext hasher p state = some (hash, pre, state')) :
    state'.hashes = state.hashes ∧ state.hashPos ≤ state'.hashPos ∧ state.leafPos ≤ state'.leafPos := by
  unfold takeNext at h
  split_ifs at h
  · cases h
    exact ⟨rfl, le_rfl, Nat.le_succ _⟩
  · obtain ⟨_, _, hnext⟩ := Option.map_eq_some_iff.mp h
    cases hnext
    exact ⟨rfl, Nat.le_succ _, le_rfl⟩

omit [LinearOrder H] in
theorem takeRight_mono {flag : Bool} {state : VerifyState H} {right : H × VerifyState H}
    (h : (if flag then (takeNext hasher p state).map (fun right => (right.1, right.2.2)) else takeProof p state) =
      some right) :
    right.2.hashes = state.hashes ∧ state.hashPos ≤ right.2.hashPos ∧ state.leafPos ≤ right.2.leafPos := by
  cases flag with
  | true =>
    obtain ⟨next, hnext, rfl⟩ := Option.map_eq_some_iff.mp h
    exact takeNext_mono hnext
  | false =>
    rw [(takeProof_eq_some h).2]
    exact ⟨rfl, le_rfl, le_rfl⟩

/-- A state of `verify` that has read past the computed hashes and writes at
`i` a hash with a zero operand is ahead at `i + 1`. -/
theorem ahead_of_set {i : ℕ} {state : VerifyState H} {right pre : H} {prefixByte : UInt8}
    (hlength : state.hashes.length = p.flags.length)
    (hunset : state.hashes.drop i = List.replicate (p.flags.length - i) hasher.zero) (hi : i < p.flags.length)
    (hused : p.leaves.length ≤ state.leafPos) (hpast : i + 1 ≤ state.hashPos)
    (hzero : right = hashPair hasher hasher.zero pre prefixByte) :
    Ahead hasher p (i + 1) { state with hashes := state.hashes.set i right } where
  length := by rw [List.length_set, hlength]
  unset := drop_set_of_unset hunset right
  leaves_used := hused
  hashPos_ge := hpast
  last_zero := ⟨pre, prefixByte, by rw [Nat.add_sub_cancel, List.getElem?_set_self (by omega), hzero]⟩

omit [LinearOrder H] in
/-- No operand is left in the queue once the leaves are used up and the reads
have reached `i`. -/
theorem queueOf_eq_nil {i : ℕ} {state : VerifyState H} (hused : p.leaves.length ≤ state.leafPos)
    (hpast : i ≤ state.hashPos) : queueOf hasher p i state = [] := by
  rw [queueOf, List.drop_of_length_le hused, List.drop_of_length_le (by rw [List.length_take]; omega)]
  rfl

/-- A step of `verify` whose left operand is read past the computed hashes is
ahead. -/
theorem verifyStep_of_empty {flag : Bool} {i : ℕ} {state state' : VerifyState H}
    (hlength : state.hashes.length = p.flags.length)
    (hunset : state.hashes.drop i = List.replicate (p.flags.length - i) hasher.zero) (hi : i < p.flags.length)
    (hempty : queueOf hasher p i state = []) (hstep : verifyStep hasher p flag i state = some state') :
    Ahead hasher p (i + 1) state' := by
  obtain ⟨left, hleft, hrest⟩ := Option.bind_eq_some_iff.mp hstep
  obtain ⟨hzero, _, hused, hpast, hhashes, _⟩ := takeNext_of_empty hunset hlength hi.le hempty hleft
  obtain ⟨right, hright, rfl⟩ := Option.map_eq_some_iff.mp hrest
  obtain ⟨hrightHashes, hrightPos, hrightLeaf⟩ := takeRight_mono hright
  rw [← hhashes] at hlength hunset
  rw [← hrightHashes] at hlength hunset
  exact ahead_of_set hlength hunset hi (hused.trans hrightLeaf) (hpast.trans_le hrightPos) (by rw [hzero])

/-- A step of `verify` from a state that tracks the queue is the step on the
queue, or it reads past the computed hashes and is ahead. -/
theorem verifyStep_cases {flag : Bool} {i : ℕ} {state state' : VerifyState H} (htracks : Tracks hasher p i state)
    (hi : i < p.flags.length) (hstep : verifyStep hasher p flag i state = some state') :
    (∃ proof queue, queueStep hasher flag (p.proof.drop state.proofPos, queueOf hasher p i state) = some (proof, queue) ∧
      Tracks hasher p (i + 1) state' ∧ p.proof.drop state'.proofPos = proof ∧ queueOf hasher p (i + 1) state' = queue) ∨
      Ahead hasher p (i + 1) state' := by
  cases hqueue : queueStep hasher flag (p.proof.drop state.proofPos, queueOf hasher p i state) with
  | some result =>
    obtain ⟨state'', hstep'', htracks'', hproof, hnext⟩ := verifyStep_of_queueStep htracks hi hqueue
    rw [hstep''] at hstep
    cases hstep
    exact .inl ⟨result.1, result.2, rfl, htracks'', hproof, hnext⟩
  | none =>
    right
    match hfront : queueOf hasher p i state with
    | [] => exact verifyStep_of_empty htracks.length htracks.unset hi hfront hstep
    | (left, isLeaf) :: rest =>
      -- the left operand is in the queue; the right one is read past it
      obtain ⟨first, hfirst, hfirstTracks, hfirstHashes, hfirstProof, hfirstQueue⟩ := takeNext_of_queue htracks hfront
      cases flag with
      | false =>
        -- the proof has a hash left, so the step on the queue succeeds
        obtain ⟨leftOp, hleft, hrest⟩ := Option.bind_eq_some_iff.mp hstep
        rw [hfirst, Option.some.injEq] at hleft
        subst hleft
        obtain ⟨right, hright, _⟩ := Option.map_eq_some_iff.mp hrest
        have hdrop : p.proof.drop first.proofPos = right.1 :: p.proof.drop (first.proofPos + 1) :=
          (takeProof_eq_some hright).1
        rw [← hfirstProof, hdrop, hfront] at hqueue
        simp [queueStep] at hqueue
      | true =>
        match rest, hqueue, hfirstQueue with
        | (_, _) :: _, hqueue, _ =>
          rw [hfront] at hqueue
          simp [queueStep] at hqueue
        | [], _, hfirstQueue =>
          obtain ⟨leftOp, hleft, hrest⟩ := Option.bind_eq_some_iff.mp hstep
          rw [hfirst, Option.some.injEq] at hleft
          subst hleft
          obtain ⟨right, hright, rfl⟩ := Option.map_eq_some_iff.mp hrest
          obtain ⟨second, hsecond, rfl⟩ := Option.map_eq_some_iff.mp hright
          obtain ⟨hzero, _, hused, hpast, hhashes, _⟩ :=
            takeNext_of_empty hfirstTracks.unset hfirstTracks.length hi.le hfirstQueue hsecond
          have hlength := hfirstTracks.length
          have hunset := hfirstTracks.unset
          rw [← hhashes] at hlength hunset
          exact ahead_of_set hlength hunset hi hused hpast (by rw [hzero, hashPair_comm])

/-- A state that is ahead stays ahead. -/
theorem Ahead.step {flag : Bool} {i : ℕ} {state state' : VerifyState H} (hahead : Ahead hasher p i state)
    (hi : i < p.flags.length) (hstep : verifyStep hasher p flag i state = some state') :
    Ahead hasher p (i + 1) state' :=
  verifyStep_of_empty hahead.length hahead.unset hi (queueOf_eq_nil hahead.leaves_used hahead.hashPos_ge) hstep

/-! ## The loop of `verify` -/

theorem verifyLoop_of_queueRun :
    ∀ (flags : List Bool) {i : ℕ} {state : VerifyState H} {result : List H × List (H × Bool)},
      i + flags.length = p.flags.length → Tracks hasher p i state →
      queueRun hasher flags (p.proof.drop state.proofPos, queueOf hasher p i state) = some result →
      ∃ state', verifyLoop hasher p flags i state = some state' ∧ Tracks hasher p p.flags.length state' ∧
        p.proof.drop state'.proofPos = result.1 ∧ queueOf hasher p p.flags.length state' = result.2
  | [], i, state, result, hcount, htracks, hrun => by
    cases hrun
    rw [List.length_nil, Nat.add_zero] at hcount
    subst hcount
    exact ⟨state, rfl, htracks, rfl, rfl⟩
  | flag :: flags, i, state, result, hcount, htracks, hrun => by
    obtain ⟨⟨proof, queue⟩, hstep, hrest⟩ := Option.bind_eq_some_iff.mp hrun
    rw [List.length_cons] at hcount
    obtain ⟨state', hstep', htracks', hproof, hqueue⟩ := verifyStep_of_queueStep htracks (by omega) hstep
    rw [← hproof, ← hqueue] at hrest
    obtain ⟨state'', hloop, hresult⟩ := verifyLoop_of_queueRun flags (by omega) htracks' hrest
    exact ⟨state'', by rw [verifyLoop, hstep', Option.bind_some, hloop], hresult⟩

theorem Ahead.loop :
    ∀ (flags : List Bool) {i : ℕ} {state state' : VerifyState H}, i + flags.length = p.flags.length →
      Ahead hasher p i state → verifyLoop hasher p flags i state = some state' → Ahead hasher p p.flags.length state'
  | [], i, state, state', hcount, hahead, hloop => by
    cases hloop
    rw [List.length_nil, Nat.add_zero] at hcount
    rwa [← hcount]
  | flag :: flags, i, state, state', hcount, hahead, hloop => by
    obtain ⟨next, hstep, hrest⟩ := Option.bind_eq_some_iff.mp hloop
    rw [List.length_cons] at hcount
    exact Ahead.loop flags (by omega) (hahead.step (by omega) hstep) hrest

/-- A run of `verify` from a state that tracks the queue is the run on the
queue, or it ends ahead. -/
theorem verifyLoop_cases :
    ∀ (flags : List Bool) {i : ℕ} {state state' : VerifyState H}, i + flags.length = p.flags.length →
      Tracks hasher p i state → verifyLoop hasher p flags i state = some state' →
      (∃ result, queueRun hasher flags (p.proof.drop state.proofPos, queueOf hasher p i state) = some result ∧
        Tracks hasher p p.flags.length state' ∧ p.proof.drop state'.proofPos = result.1 ∧
        queueOf hasher p p.flags.length state' = result.2) ∨ Ahead hasher p p.flags.length state'
  | [], i, state, state', hcount, htracks, hloop => by
    cases hloop
    rw [List.length_nil, Nat.add_zero] at hcount
    subst hcount
    exact .inl ⟨_, rfl, htracks, rfl, rfl⟩
  | flag :: flags, i, state, state', hcount, htracks, hloop => by
    obtain ⟨next, hstep, hrest⟩ := Option.bind_eq_some_iff.mp hloop
    rw [List.length_cons] at hcount
    rcases verifyStep_cases htracks (by omega) hstep with ⟨proof, queue, hqueue, htracks', hproof, hnext⟩ | hahead
    · rcases verifyLoop_cases flags (by omega) htracks' hrest with ⟨result, hrun, hresult⟩ | hahead
      · refine .inl ⟨result, ?_, hresult⟩
        rw [queueRun, hqueue, Option.bind_some, ← hproof, ← hnext, hrun]
      · exact .inr hahead
    · exact .inr (hahead.loop flags (by omega) hrest)

omit [LinearOrder H] in
/-- A run that tracks the queue to a single computed hash leaves that hash
last in the array. -/
theorem getLast?_of_tracks {state : VerifyState H} {hash : H} (htracks : Tracks hasher p p.flags.length state)
    (hqueue : queueOf hasher p p.flags.length state = [(hash, false)]) : state.hashes.getLast? = some hash := by
  rw [queueOf, List.take_of_length_le htracks.length.le] at hqueue
  cases hleaves : p.leaves.drop state.leafPos with
  | cons leaf rest =>
    -- a proved leaf left over would be at the front
    rw [hleaves, List.map_cons, List.cons_append, List.cons.injEq, Prod.mk.injEq] at hqueue
    exact absurd hqueue.1.2 (by decide)
  | nil =>
    rw [hleaves, List.map_nil, List.nil_append, List.map_eq_cons_iff] at hqueue
    obtain ⟨last, rest, hdrop, hlast, hrest⟩ := hqueue
    rw [List.map_eq_nil_iff] at hrest
    subst hrest
    have hgetLast := congrArg List.getLast? hdrop
    rw [List.getLast?_drop, List.getLast?_singleton] at hgetLast
    split_ifs at hgetLast
    rw [hgetLast, ← (Prod.mk.inj hlast).1]

theorem getLast?_of_ahead {state : VerifyState H} (hahead : Ahead hasher p p.flags.length state) :
    ∃ right pre, state.hashes.getLast? = some (hashPair hasher hasher.zero right pre) := by
  rw [List.getLast?_eq_getElem?, hahead.length]
  exact hahead.last_zero

/-! ## `verify` on the queue -/

/-- A proof whose flags run on the queue of its leaves to the root alone, with
every proof hash used, verifies. -/
theorem verify_of_queueRun {root : H} (hflags : p.flags ≠ [])
    (hrun : queueRun hasher p.flags (p.proof, p.leaves.map fun leaf => (hasher.transfer leaf, true)) =
      some ([], [(root, false)])) :
    verify hasher p root = some true := by
  have hcount := queueRun_length hasher hrun
  simp only [List.length_cons, List.length_nil, List.length_map] at hcount
  rw [← queueOf_start hasher p] at hrun
  obtain ⟨state, hloop, htracks, _, hqueue⟩ :=
    verifyLoop_of_queueRun p.flags (Nat.zero_add _) (tracks_start hasher p) hrun
  rw [verify, if_neg (by omega), if_neg (by simpa using hflags), hloop, Option.map_some,
    getLast?_of_tracks htracks hqueue]
  simp

/-- A proof with flags that verifies ran on the queue of its leaves to the
root alone, or its root is computed with the zero hash for an operand. -/
theorem verify_cases {root : H} (hflags : p.flags ≠ []) (hverify : verify hasher p root = some true) :
    queueRun hasher p.flags (p.proof, p.leaves.map fun leaf => (hasher.transfer leaf, true)) =
        some ([], [(root, false)]) ∨
      ∃ right pre, root = hashPair hasher hasher.zero right pre := by
  unfold verify at hverify
  split_ifs at hverify with hcount hempty
  · cases hverify
  · exact absurd (List.isEmpty_iff.mp hempty) hflags
  obtain ⟨state, hloop, hresult⟩ := Option.map_eq_some_iff.mp hverify
  rcases verifyLoop_cases p.flags (Nat.zero_add _) (tracks_start hasher p) hloop with
    ⟨result, hrun, htracks, _, hqueue⟩ | hahead
  · -- the queue ends with one computed hash and no proof hash left
    rw [List.drop_zero, queueOf_start] at hrun
    obtain ⟨proof, queue⟩ := result
    have hlength := queueRun_length hasher hrun
    obtain ⟨last, hlast⟩ := queueRun_getLast hasher hflags hrun
    rw [List.length_map] at hlength
    match proof, queue, hlast, hlength, hqueue, hrun with
    | [], [(hash, false)], _, _, hqueue, hrun =>
      rw [getLast?_of_tracks htracks hqueue] at hresult
      simp only [decide_eq_true_eq] at hresult
      rw [hrun, hresult]
      exact .inl rfl
    | [], [(_, true)], hlast, _, _, _ => simp at hlast
    | _, [], hlast, _, _, _ => cases hlast
    | _ :: _, _ :: _, _, hlength, _, _ => simp at hlength; omega
    | _, _ :: _ :: _, _, hlength, _, _ => simp at hlength; omega
  · obtain ⟨right, pre, hlast⟩ := getLast?_of_ahead hahead
    rw [hlast] at hresult
    simp only [decide_eq_true_eq] at hresult
    exact .inr ⟨right, pre, hresult.symm⟩

/-- A proof with flags verifies against a root without a zero operand exactly
when its flags run the queue of its leaves to that root alone: the array of
`verify` computes what the queue does. -/
theorem verify_eq_some_true_iff {root : H} (hflags : p.flags ≠ [])
    (hroot : ∀ right pre, root ≠ hashPair hasher hasher.zero right pre) :
    verify hasher p root = some true ↔
      queueRun hasher p.flags (p.proof, p.leaves.map fun leaf => (hasher.transfer leaf, true)) =
        some ([], [(root, false)]) :=
  ⟨fun hverify => (verify_cases hflags hverify).resolve_right fun ⟨right, pre, heq⟩ => hroot right pre heq,
    verify_of_queueRun hflags⟩

end Refinement

theorem verify_eq_some_true_iff_pair :
    ([true] ≠ []) ∧
      (∀ right pre, hashPair numberHasher 3 5 poolRootPrefixLeaf ≠ hashPair numberHasher numberHasher.zero right pre) ∧
      (verify numberHasher ⟨[], [1, 2], [true]⟩ (hashPair numberHasher 3 5 poolRootPrefixLeaf) = some true ↔
        queueRun numberHasher [true] ([], [1, 2].map fun leaf => (numberHasher.transfer leaf, true)) =
          some ([], [(hashPair numberHasher 3 5 poolRootPrefixLeaf, false)])) := by
  have hflags : [true] ≠ [] := List.cons_ne_nil true []
  have hroot : ∀ right pre,
      hashPair numberHasher 3 5 poolRootPrefixLeaf ≠ hashPair numberHasher numberHasher.zero right pre := by
    intro right pre heq
    -- one of the leaves would be the zero hash
    obtain ⟨_, ⟨hzero, _⟩ | ⟨_, hzero⟩⟩ := hashPair_inj numberHasher_collisionFree heq <;> cases hzero
  exact ⟨hflags, hroot, verify_eq_some_true_iff (p := ⟨[], [1, 2], [true]⟩) hflags hroot⟩

end Namada.MerkleTree
