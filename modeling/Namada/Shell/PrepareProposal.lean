/-
# Block proposals and the block allocator

`prepare_proposal` fills a block in three phases, with a `BlockAllocator` that
counts the space and the gas. First come the vote extensions, in at most half of
the block's bytes. Then come the wrapper txs that pass `validate_wrapper_bytes`,
in the rest of the bytes and in the block's gas. Last, more vote extensions go
in what space is left. Each phase takes txs while the allocator goes on. It
stops at a tx that the bin cannot take now (`Rejected`), but it goes on past a
tx that is larger than the whole bin (`OverflowsBin`), and that tx stays in the
proposal. The allocator does not count it.

The counters never leave the block. The bins' counts stay within their
allotments, and the two space bins' counts stay within the block's bytes, so
`unoccupied_space_in_bytes` never underflows (`WithinBlock`). But a tx larger
than its bin is proposed as it is. A tx larger than the block's bytes, or with
a gas limit above the block's gas, goes into the proposal
(`prepareProposal_includes_oversized`). The last phase's bin is only what the
first two left, so a small vote extension can overflow it too (`smallTxs`).
-/

import Mathlib

namespace Namada.Shell

/-! ## The allocator -/

/-- `AllocFailure`. -/
inductive AllocFailure
  /-- The tx fits in the bin, but not in what is left of it. -/
  | rejected (binResourceLeft : ℕ)
  /-- The tx is larger than the whole bin. -/
  | overflowsBin (binResource : ℕ)
  deriving DecidableEq

/-- `TxBin`: how much of a resource a batch of txs uses and may use. -/
structure TxBin where
  occupied : ℕ
  allotted : ℕ
  deriving DecidableEq

namespace TxBin

/-- `TxBin::init`. -/
def init (maxCapacity : ℕ) : TxBin := ⟨0, maxCapacity⟩

/-- `TxBin::resource_left`. -/
def resourceLeft (bin : TxBin) : ℕ := bin.allotted - bin.occupied

/-- `TxBin::shrink_to_fit`. -/
def shrinkToFit (bin : TxBin) : TxBin := { bin with allotted := bin.occupied }

/-- `TxBin::try_dump`: a resource larger than the bin overflows it, one larger
than what is left is rejected, and the bin is unchanged on either. -/
def tryDump (bin : TxBin) (resource : ℕ) : Except AllocFailure TxBin :=
  if bin.allotted < resource then .error (.overflowsBin bin.allotted)
  else
    let occupied := bin.occupied + resource
    if occupied ≤ bin.allotted then .ok { bin with occupied } else .error (.rejected bin.resourceLeft)

end TxBin

/-- `NormalTxsBins`: the space and the gas of the wrapper txs. -/
structure NormalTxsBins where
  space : TxBin
  gas : TxBin
  deriving DecidableEq

/-- `BlockAllocator`: the block's space, and the bins of the protocol txs and of
the wrapper txs. Its state type is the phase that the functions below are for. -/
structure BlockAllocator where
  block : TxBin
  protocolTxs : TxBin
  normalTxs : NormalTxsBins
  deriving DecidableEq

namespace BlockAllocator

/-- `BlockAllocator::init` of the first phase: half of the block for the vote
extensions (`threshold::ONE_HALF.over`), and the gas of the block for the wrapper
txs, whose space bin is empty until the next phase. -/
def init (cometbftMaxBlockSpaceInBytes maxBlockGas : ℕ) : BlockAllocator :=
  ⟨TxBin.init cometbftMaxBlockSpaceInBytes, TxBin.init (cometbftMaxBlockSpaceInBytes / 2),
    ⟨⟨0, 0⟩, TxBin.init maxBlockGas⟩⟩

/-- `unoccupied_space_in_bytes`: the block's bytes that neither space bin uses. -/
def unoccupiedSpaceInBytes (alloc : BlockAllocator) : ℕ :=
  alloc.block.allotted - (alloc.protocolTxs.occupied + alloc.normalTxs.space.occupied)

/-- `next_state` from the first protocol phase to the wrapper txs: the protocol
bin shrinks to what it uses, and the wrapper txs get the rest of the block. -/
def toNormalTxBatch (alloc : BlockAllocator) : BlockAllocator :=
  let alloc := { alloc with protocolTxs := alloc.protocolTxs.shrinkToFit }
  { alloc with normalTxs := { alloc.normalTxs with space := TxBin.init alloc.unoccupiedSpaceInBytes } }

/-- `next_state` from the wrapper txs to the last protocol phase: a new protocol
bin of what is left of the block. -/
def toProtocolTxBatch (alloc : BlockAllocator) : BlockAllocator :=
  { alloc with protocolTxs := TxBin.init alloc.unoccupiedSpaceInBytes }

/-- `try_alloc` of a protocol phase. -/
def tryAllocProtocol (alloc : BlockAllocator) (tx : ℕ) : Except AllocFailure BlockAllocator :=
  (alloc.protocolTxs.tryDump tx).map fun protocolTxs => { alloc with protocolTxs }

/-- `try_alloc` of the wrapper phase: the space, then the gas. When the gas
fails, the space stays taken. -/
def tryAllocNormal (alloc : BlockAllocator) (size gas : ℕ) : BlockAllocator × Except AllocFailure Unit :=
  match alloc.normalTxs.space.tryDump size with
  | .error failure => (alloc, .error failure)
  | .ok space =>
    let alloc := { alloc with normalTxs := { alloc.normalTxs with space } }
    match alloc.normalTxs.gas.tryDump gas with
    | .error failure => (alloc, .error failure)
    | .ok gas => ({ alloc with normalTxs := { alloc.normalTxs with gas } }, .ok ())

end BlockAllocator

/-! ## The three phases -/

/-- A tx of the proposal request, with what the proposer's checks make of it. -/
structure MempoolTx where
  /-- Its length in bytes. -/
  size : ℕ
  /-- Whether `deserialize_vote_extensions` drains it: a vote extension worth
  proposing. -/
  proposableVext : Bool
  /-- What `validate_wrapper_bytes` returns: the gas limit of a wrapper tx that
  passes, or none. -/
  wrapperGas : Option ℕ
  deriving DecidableEq

/-- The `take_while` of `build_protocol_txs` over `deserialize_vote_extensions`.
The proposable vote extensions are drained from the txs in order and taken while
the allocator goes on. The one at which it stops is drained and dropped, and the
txs after it stay (`keep_rest`). It returns the allocator, the txs taken and the
txs left. -/
def drainProtocolTxs (alloc : BlockAllocator) :
    List MempoolTx → BlockAllocator × List MempoolTx × List MempoolTx
  | [] => (alloc, [], [])
  | tx :: rest =>
    if tx.proposableVext then
      match alloc.tryAllocProtocol tx.size with
      | .ok next =>
        let (final, taken, kept) := drainProtocolTxs next rest
        (final, tx :: taken, kept)
      | .error (.rejected _) => (alloc, [], rest)
      -- "Dropping large protocol tx", but the predicate is `true`: the tx is taken
      | .error (.overflowsBin _) =>
        let (final, taken, kept) := drainProtocolTxs alloc rest
        (final, tx :: taken, kept)
    else
      let (final, taken, kept) := drainProtocolTxs alloc rest
      (final, taken, tx :: kept)

/-- `build_protocol_txs`: no vote extension before the first block. -/
def buildProtocolTxs (hasLastBlock : Bool) (alloc : BlockAllocator) (txs : List MempoolTx) :
    BlockAllocator × List MempoolTx × List MempoolTx :=
  if hasLastBlock then drainProtocolTxs alloc txs else (alloc, [], txs)

/-- The `filter_map` and `take_while` of `build_normal_txs`: the wrapper txs
that pass `validate_wrapper_bytes`, in order, taken while the allocator goes
on. -/
def takeNormalTxs (alloc : BlockAllocator) : List MempoolTx → BlockAllocator × List MempoolTx
  | [] => (alloc, [])
  | tx :: rest =>
    match tx.wrapperGas with
    | none => takeNormalTxs alloc rest
    | some gas =>
      match alloc.tryAllocNormal tx.size gas with
      | (next, .ok ()) =>
        let (final, taken) := takeNormalTxs next rest
        (final, tx :: taken)
      | (next, .error (.rejected _)) => (next, [])
      -- "Dropping large encrypted tx", but the predicate is `true`: the tx is taken
      | (next, .error (.overflowsBin _)) =>
        let (final, taken) := takeNormalTxs next rest
        (final, tx :: taken)

/-- `prepare_proposal` of a validator: the txs proposed, and the allocator at
the end. -/
def prepareProposal (maxProposalBytes maxBlockGas : ℕ) (hasLastBlock : Bool) (txs : List MempoolTx) :
    List MempoolTx × BlockAllocator :=
  let alloc := BlockAllocator.init maxProposalBytes maxBlockGas
  let (alloc, protocolTxs, txs) := buildProtocolTxs hasLastBlock alloc txs
  let alloc := alloc.toNormalTxBatch
  let (alloc, normalTxs) := takeNormalTxs alloc txs
  let alloc := alloc.toProtocolTxBatch
  let (alloc, remainingTxs, _) := buildProtocolTxs hasLastBlock alloc txs
  (protocolTxs ++ normalTxs ++ remainingTxs, alloc)

/-! ## The counters stay within the block -/

namespace TxBin

theorem tryDump_eq_ok {bin next : TxBin} {resource : ℕ} (h : bin.tryDump resource = .ok next) :
    next = { bin with occupied := bin.occupied + resource } ∧ bin.occupied + resource ≤ bin.allotted := by
  simp only [tryDump] at h
  split_ifs at h with hlarge hfits
  cases h
  exact ⟨rfl, hfits⟩

end TxBin

namespace BlockAllocator

/-- What a protocol phase may do to the allocator: move the protocol bin's
count, within its allotment, and nothing else. -/
structure ProtocolGrows (alloc next : BlockAllocator) : Prop where
  block : next.block = alloc.block
  normalTxs : next.normalTxs = alloc.normalTxs
  allotted : next.protocolTxs.allotted = alloc.protocolTxs.allotted
  within : alloc.protocolTxs.occupied ≤ alloc.protocolTxs.allotted →
    next.protocolTxs.occupied ≤ next.protocolTxs.allotted

theorem ProtocolGrows.refl (alloc : BlockAllocator) : ProtocolGrows alloc alloc :=
  ⟨rfl, rfl, rfl, id⟩

theorem ProtocolGrows.trans {alloc middle next : BlockAllocator} (first : ProtocolGrows alloc middle)
    (second : ProtocolGrows middle next) : ProtocolGrows alloc next :=
  ⟨second.block.trans first.block, second.normalTxs.trans first.normalTxs,
    second.allotted.trans first.allotted, fun h => second.within (first.within h)⟩

theorem tryAllocProtocol_grows {alloc next : BlockAllocator} {tx : ℕ}
    (h : alloc.tryAllocProtocol tx = .ok next) : ProtocolGrows alloc next := by
  unfold tryAllocProtocol at h
  cases hdump : alloc.protocolTxs.tryDump tx with
  | error failure => simp [hdump, Except.map] at h
  | ok protocolTxs =>
    simp only [hdump, Except.map, Except.ok.injEq] at h
    subst h
    obtain ⟨rfl, hfits⟩ := TxBin.tryDump_eq_ok hdump
    exact ⟨rfl, rfl, rfl, fun _ => hfits⟩

/-- What the wrapper phase may do to the allocator: move the counts of its space
and gas bins, each within its allotment, and nothing else. -/
structure NormalGrows (alloc next : BlockAllocator) : Prop where
  block : next.block = alloc.block
  protocolTxs : next.protocolTxs = alloc.protocolTxs
  spaceAllotted : next.normalTxs.space.allotted = alloc.normalTxs.space.allotted
  gasAllotted : next.normalTxs.gas.allotted = alloc.normalTxs.gas.allotted
  spaceWithin : alloc.normalTxs.space.occupied ≤ alloc.normalTxs.space.allotted →
    next.normalTxs.space.occupied ≤ next.normalTxs.space.allotted
  gasWithin : alloc.normalTxs.gas.occupied ≤ alloc.normalTxs.gas.allotted →
    next.normalTxs.gas.occupied ≤ next.normalTxs.gas.allotted

theorem NormalGrows.refl (alloc : BlockAllocator) : NormalGrows alloc alloc :=
  ⟨rfl, rfl, rfl, rfl, id, id⟩

theorem NormalGrows.trans {alloc middle next : BlockAllocator} (first : NormalGrows alloc middle)
    (second : NormalGrows middle next) : NormalGrows alloc next :=
  ⟨second.block.trans first.block, second.protocolTxs.trans first.protocolTxs,
    second.spaceAllotted.trans first.spaceAllotted, second.gasAllotted.trans first.gasAllotted,
    fun h => second.spaceWithin (first.spaceWithin h), fun h => second.gasWithin (first.gasWithin h)⟩

/-- Every outcome of a wrapper allocation grows the bins within their
allotments, the failed gas one included, whose space stays taken. -/
theorem tryAllocNormal_grows (alloc : BlockAllocator) (size gas : ℕ) :
    NormalGrows alloc (alloc.tryAllocNormal size gas).1 := by
  cases hspace : alloc.normalTxs.space.tryDump size with
  | error failure =>
    simp only [tryAllocNormal, hspace]
    exact NormalGrows.refl alloc
  | ok space =>
    obtain ⟨rfl, hspaceFits⟩ := TxBin.tryDump_eq_ok hspace
    cases hgas : alloc.normalTxs.gas.tryDump gas with
    | error failure =>
      simp only [tryAllocNormal, hspace, hgas]
      exact ⟨rfl, rfl, rfl, rfl, fun _ => hspaceFits, id⟩
    | ok gasBin =>
      obtain ⟨rfl, hgasFits⟩ := TxBin.tryDump_eq_ok hgas
      simp only [tryAllocNormal, hspace, hgas]
      exact ⟨rfl, rfl, rfl, rfl, fun _ => hspaceFits, fun _ => hgasFits⟩

end BlockAllocator

open BlockAllocator

/-- A protocol phase only grows the protocol bin. The induction is on the txs,
one case per outcome of the allocation. -/
theorem drainProtocolTxs_grows (alloc : BlockAllocator) (txs : List MempoolTx) :
    ProtocolGrows alloc (drainProtocolTxs alloc txs).1 := by
  induction txs generalizing alloc with
  | nil => exact ProtocolGrows.refl alloc
  | cons tx rest ih =>
    unfold drainProtocolTxs
    split_ifs
    · cases hfit : alloc.tryAllocProtocol tx.size with
      | ok next => exact (tryAllocProtocol_grows hfit).trans (ih next)
      | error failure =>
        cases failure with
        | rejected _ => exact ProtocolGrows.refl alloc
        | overflowsBin _ => exact ih alloc
    · exact ih alloc

theorem buildProtocolTxs_grows (hasLastBlock : Bool) (alloc : BlockAllocator) (txs : List MempoolTx) :
    ProtocolGrows alloc (buildProtocolTxs hasLastBlock alloc txs).1 := by
  unfold buildProtocolTxs
  split_ifs
  · exact drainProtocolTxs_grows alloc txs
  · exact ProtocolGrows.refl alloc

/-- The wrapper phase only grows its own bins. -/
theorem takeNormalTxs_grows (alloc : BlockAllocator) (txs : List MempoolTx) :
    NormalGrows alloc (takeNormalTxs alloc txs).1 := by
  induction txs generalizing alloc with
  | nil => exact NormalGrows.refl alloc
  | cons tx rest ih =>
    cases hwrapper : tx.wrapperGas with
    | none =>
      simp only [takeNormalTxs, hwrapper]
      exact ih alloc
    | some gas =>
      have hstep := tryAllocNormal_grows alloc tx.size gas
      rcases halloc : alloc.tryAllocNormal tx.size gas with ⟨next, failure | ⟨⟩⟩
      all_goals
        rw [halloc] at hstep
        simp only [takeNormalTxs, hwrapper, halloc]
      · cases failure with
        | rejected _ => exact hstep
        | overflowsBin _ => exact hstep.trans (ih next)
      · exact hstep.trans (ih next)

namespace BlockAllocator

variable (alloc : BlockAllocator)

@[simp] theorem toNormalTxBatch_block : alloc.toNormalTxBatch.block = alloc.block := rfl

@[simp] theorem toNormalTxBatch_protocolTxs :
    alloc.toNormalTxBatch.protocolTxs = ⟨alloc.protocolTxs.occupied, alloc.protocolTxs.occupied⟩ := rfl

@[simp] theorem toNormalTxBatch_normalTxs :
    alloc.toNormalTxBatch.normalTxs = ⟨⟨0, alloc.unoccupiedSpaceInBytes⟩, alloc.normalTxs.gas⟩ := rfl

@[simp] theorem toProtocolTxBatch_block : alloc.toProtocolTxBatch.block = alloc.block := rfl

@[simp] theorem toProtocolTxBatch_protocolTxs :
    alloc.toProtocolTxBatch.protocolTxs = ⟨0, alloc.unoccupiedSpaceInBytes⟩ := rfl

@[simp] theorem toProtocolTxBatch_normalTxs : alloc.toProtocolTxBatch.normalTxs = alloc.normalTxs := rfl

/-- The bins' counts are within their allotments, and the protocol bin's
allotment and the wrapper txs' bytes within the block. -/
structure WithinBlock (alloc : BlockAllocator) : Prop where
  protocolTxs : alloc.protocolTxs.occupied ≤ alloc.protocolTxs.allotted
  space : alloc.normalTxs.space.occupied ≤ alloc.normalTxs.space.allotted
  gas : alloc.normalTxs.gas.occupied ≤ alloc.normalTxs.gas.allotted
  block : alloc.protocolTxs.allotted + alloc.normalTxs.space.occupied ≤ alloc.block.allotted

/-- The two space bins' counts are within the block's bytes, so
`unoccupied_space_in_bytes` does not underflow. -/
theorem WithinBlock.occupied_le {alloc : BlockAllocator} (h : alloc.WithinBlock) :
    alloc.protocolTxs.occupied + alloc.normalTxs.space.occupied ≤ alloc.block.allotted :=
  Nat.le_trans (Nat.add_le_add_right h.protocolTxs _) h.block

theorem withinBlock_init (maxProposalBytes maxBlockGas : ℕ) :
    (init maxProposalBytes maxBlockGas).WithinBlock :=
  ⟨Nat.zero_le _, Nat.le_refl 0, Nat.zero_le _, by simp [init, TxBin.init, Nat.div_le_self]⟩

theorem WithinBlock.of_protocolGrows {alloc next : BlockAllocator} (h : alloc.WithinBlock)
    (hgrows : ProtocolGrows alloc next) : next.WithinBlock :=
  ⟨hgrows.within h.protocolTxs, hgrows.normalTxs ▸ h.space, hgrows.normalTxs ▸ h.gas,
    by rw [hgrows.block, hgrows.normalTxs, hgrows.allotted]; exact h.block⟩

/-- The wrapper phase keeps the counts within the block while its space bin and
the protocol bin's allotment fit in the block together, as `next_state` leaves
them. -/
theorem WithinBlock.of_normalGrows {alloc next : BlockAllocator} (h : alloc.WithinBlock)
    (hroom : alloc.protocolTxs.allotted + alloc.normalTxs.space.allotted ≤ alloc.block.allotted)
    (hgrows : NormalGrows alloc next) : next.WithinBlock := by
  have hspace := hgrows.spaceWithin h.space
  refine ⟨hgrows.protocolTxs ▸ h.protocolTxs, hspace, hgrows.gasWithin h.gas, ?_⟩
  rw [hgrows.block, hgrows.protocolTxs]
  rw [hgrows.spaceAllotted] at hspace
  omega

/-- `next_state` to the wrapper txs: the protocol bin is shrunk to its count,
and the wrapper txs get exactly the rest of the block. -/
theorem WithinBlock.toNormalTxBatch {alloc : BlockAllocator} (h : alloc.WithinBlock) :
    alloc.toNormalTxBatch.WithinBlock ∧
      alloc.toNormalTxBatch.protocolTxs.allotted + alloc.toNormalTxBatch.normalTxs.space.allotted ≤
        alloc.toNormalTxBatch.block.allotted := by
  have hocc := h.occupied_le
  refine ⟨⟨Nat.le_refl _, Nat.zero_le _, h.gas, ?_⟩, ?_⟩
  all_goals
    simp only [toNormalTxBatch_block, toNormalTxBatch_protocolTxs, toNormalTxBatch_normalTxs,
      unoccupiedSpaceInBytes]
    omega

/-- `next_state` to the last protocol phase: its bin is what the first two left. -/
theorem WithinBlock.toProtocolTxBatch {alloc : BlockAllocator} (h : alloc.WithinBlock) :
    alloc.toProtocolTxBatch.WithinBlock := by
  have hocc := h.occupied_le
  refine ⟨Nat.zero_le _, h.space, h.gas, ?_⟩
  simp only [toProtocolTxBatch_block, toProtocolTxBatch_protocolTxs, toProtocolTxBatch_normalTxs,
    unoccupiedSpaceInBytes]
  omega

end BlockAllocator

/-- The allocator's counters never leave the block: after all three phases each
bin's count is within its allotment, the space bins within the block's bytes,
and the block and its gas are still those of the request. -/
theorem prepareProposal_withinBlock (maxProposalBytes maxBlockGas : ℕ) (hasLastBlock : Bool)
    (txs : List MempoolTx) :
    (prepareProposal maxProposalBytes maxBlockGas hasLastBlock txs).2.WithinBlock ∧
      (prepareProposal maxProposalBytes maxBlockGas hasLastBlock txs).2.block.allotted = maxProposalBytes ∧
      (prepareProposal maxProposalBytes maxBlockGas hasLastBlock txs).2.normalTxs.gas.allotted =
        maxBlockGas := by
  let init := BlockAllocator.init maxProposalBytes maxBlockGas
  -- the three phases, each from the allocator the one before leaves
  let first := buildProtocolTxs hasLastBlock init txs
  let second := (takeNormalTxs first.1.toNormalTxBatch first.2.2).1
  have hfirst := buildProtocolTxs_grows hasLastBlock init txs
  have hsecond := takeNormalTxs_grows first.1.toNormalTxBatch first.2.2
  have hthird := buildProtocolTxs_grows hasLastBlock second.toProtocolTxBatch first.2.2
  obtain ⟨hnormal, hroom⟩ := ((withinBlock_init maxProposalBytes maxBlockGas).of_protocolGrows hfirst).toNormalTxBatch
  have hwithin := ((hnormal.of_normalGrows hroom hsecond).toProtocolTxBatch).of_protocolGrows hthird
  refine ⟨hwithin, ?_, ?_⟩
  · show (buildProtocolTxs hasLastBlock second.toProtocolTxBatch first.2.2).1.block.allotted = maxProposalBytes
    rw [hthird.block, toProtocolTxBatch_block, hsecond.block, toNormalTxBatch_block, hfirst.block]
    rfl
  · show (buildProtocolTxs hasLastBlock second.toProtocolTxBatch first.2.2).1.normalTxs.gas.allotted =
      maxBlockGas
    rw [hthird.normalTxs, toProtocolTxBatch_normalTxs, hsecond.gasAllotted, toNormalTxBatch_normalTxs,
      hfirst.normalTxs]
    rfl

/-! ## What the proposal holds -/

/-- The allocator of the wrapper phase, when the first phase took nothing: the
wrapper txs get the whole block. -/
theorem toNormalTxBatch_init (maxProposalBytes maxBlockGas : ℕ) :
    (BlockAllocator.init maxProposalBytes maxBlockGas).toNormalTxBatch =
      ⟨TxBin.init maxProposalBytes, ⟨0, 0⟩, ⟨TxBin.init maxProposalBytes, TxBin.init maxBlockGas⟩⟩ := by
  simp [BlockAllocator.init, BlockAllocator.toNormalTxBatch, BlockAllocator.unoccupiedSpaceInBytes,
    TxBin.shrinkToFit, TxBin.init]

/-- A tx that is no vote extension is left by a protocol phase. -/
theorem buildProtocolTxs_of_not_vext (hasLastBlock : Bool) (alloc : BlockAllocator) {tx : MempoolTx}
    (hvext : tx.proposableVext = false) : buildProtocolTxs hasLastBlock alloc [tx] = (alloc, [], [tx]) := by
  cases hasLastBlock <;> simp [buildProtocolTxs, drainProtocolTxs, hvext]

/-- A wrapper tx larger than the block's bytes, or one that fits in them with a
gas limit above the block's gas, is proposed: the allocator finds it larger
than its bin and goes on. -/
theorem prepareProposal_includes_oversized (maxProposalBytes maxBlockGas : ℕ) (hasLastBlock : Bool)
    (tx : MempoolTx) (gas : ℕ) (hvext : tx.proposableVext = false) (hwrapper : tx.wrapperGas = some gas)
    (hoversized : maxProposalBytes < tx.size ∨ (tx.size ≤ maxProposalBytes ∧ maxBlockGas < gas)) :
    (prepareProposal maxProposalBytes maxBlockGas hasLastBlock [tx]).1 = [tx] := by
  have hnormal : (takeNormalTxs (BlockAllocator.init maxProposalBytes maxBlockGas).toNormalTxBatch [tx]).2 =
      [tx] := by
    rw [toNormalTxBatch_init]
    rcases hoversized with hlarge | ⟨hfits, hgas⟩
    · -- the bytes overflow the wrapper bin
      simp [takeNormalTxs, hwrapper, BlockAllocator.tryAllocNormal, TxBin.tryDump, TxBin.init, hlarge]
    · -- the bytes fit, and the gas overflows the gas bin
      simp [takeNormalTxs, hwrapper, BlockAllocator.tryAllocNormal, TxBin.tryDump, TxBin.init,
        Nat.not_lt.mpr hfits, hfits, hgas]
  simp only [prepareProposal, buildProtocolTxs_of_not_vext hasLastBlock _ hvext, List.nil_append,
    List.append_nil]
  exact hnormal

/-- A wrapper tx of 150 bytes, in a block of 100 bytes. -/
def largeWrapper : MempoolTx := ⟨150, false, some 10⟩

theorem prepareProposal_includes_largeWrapper :
    largeWrapper.proposableVext = false ∧ largeWrapper.wrapperGas = some 10 ∧
      (100 < largeWrapper.size ∨ (largeWrapper.size ≤ 100 ∧ 1000 < 10)) ∧
      (prepareProposal 100 1000 true [largeWrapper]).1 = [largeWrapper] :=
  ⟨rfl, rfl, Or.inl (by decide),
    prepareProposal_includes_oversized 100 1000 true largeWrapper 10 rfl rfl (Or.inl (by decide))⟩

/-- Txs of at most half a block of 100 bytes each. The vote extension of 45
bytes leaves 5 of the first phase's 50, the next one of 10 is rejected and
dropped, the wrapper of 50 bytes takes 50 of the 55 left, and the last phase's
bin is the 5 bytes left. -/
def smallTxs : List MempoolTx := [⟨45, true, none⟩, ⟨10, true, none⟩, ⟨10, true, none⟩, ⟨50, false, some 1⟩]

-- The last phase proposes a vote extension of 10 bytes that overflows its bin
-- of 5, and the proposal is larger than the block.
example :
    (∀ tx ∈ smallTxs, tx.size ≤ 100 / 2) ∧
      100 < ((prepareProposal 100 100 true smallTxs).1.map MempoolTx.size).sum := by
  decide

end Namada.Shell
