import Prism.Network.Node
import Prism.Invariant.Growth
import Prism.Invariant.TransactionRefs

/-!
# The node's threads agree

Across any interleaving of the worker threads, the ledger manager and the
miner, each stored block has at most one holder: the worker thread that will
process it, the buffer, the blockchain, or the genesis configuration
(`Node.Invariant`).  `recent_blocks` is what makes this hold while a block is
being stored: the thread that registers a hash there is the only one that may
store it, and it stores it only after finding it missing from the database.
So no block is inserted twice, and every block a worker inserts passes the
checks on the blockchain it is inserted into, which grows only in ways that
keep them passed.  The blockchain of every run is one of the blockchain's own
runs (`Reachable.refines`), where all its invariants hold.
-/

namespace Prism
namespace Network

open Function

variable {H T : Type}

namespace Stage

/-- The blocks a thread at this stage holds: stored by it, and not yet done
with. -/
def held : Stage H T → List (Block H T)
  | .idle | .lookingUp _ _ | .adding _ => []
  | .decoding progress | .arrived _ progress | .claimed _ progress | .storing _ progress => progress.blocks
  | .stored block progress => progress.blocks ++ [block]
  | .processing pending | .inserted _ pending => pending.toProcess
  | .available block pending | .validated block pending | .cleared block pending => block :: pending.toProcess

variable [Hashable (Header H) H]

/-- The hash a thread at this stage has registered in `recent_blocks`. -/
def claim : Stage H T → Option H
  | .claimed block _ | .storing block _ | .stored block _ => some block.hash
  | _ => none

/-- The hash a thread at this stage found missing from the database, and
stores next. -/
def storingHash : Stage H T → Option H
  | .storing block _ => some block.hash
  | _ => none

/-- What the checks the thread has made say of the block at hand, on the
blockchain as it is now. -/
def Checked (checkSignatureBatch : List T → Bool) (chain : BlockChain H) : Stage H T → Prop
  | .available block _ => Validation.checkDataAvailability chain block = .pass
  | .validated block _ | .cleared block _ => Validation.checkDataAvailability chain block = .pass ∧
      Validation.checkContentSemantic checkSignatureBatch chain block = some .pass
  | _ => True

omit [Hashable (Header H) H] in
/-- Checks made on a blockchain stay passed on any blockchain that extends
it. -/
theorem Checked.of_extends {checkSignatureBatch : List T → Bool} {chain next : BlockChain H}
    (grows : chain.Extends next) {stage : Stage H T} (checked : stage.Checked checkSignatureBatch chain) :
    stage.Checked checkSignatureBatch next := by
  cases stage with
  | available block pending => exact grows.checkDataAvailability checked
  | validated block pending =>
      exact ⟨grows.checkDataAvailability checked.1, grows.checkContentSemantic checked.1 checked.2⟩
  | cleared block pending =>
      exact ⟨grows.checkDataAvailability checked.1, grows.checkContentSemantic checked.1 checked.2⟩
  | _ => trivial

theorem storingHash_claim {stage : Stage H T} {hash : H} (found : stage.storingHash = some hash) :
    stage.claim = some hash := by
  cases stage with
  | storing block progress => exact found
  | _ => cases found

end Stage

/-- Who holds a block. -/
inductive Holder
  | thread (thread : Nat)
  | buffer
  | chain
  | genesis
  deriving DecidableEq

namespace Node

variable [Hashable (Header H) H]

/-- `holder` holds the block of hash `hash`, with `inserted` the blocks in
the blockchain. -/
def Holds (config : BlockchainConfig H) (node : Node H T) (inserted : List (Block H T)) (hash : H) :
    Holder → Prop
  | .thread thread => hash ∈ (node.threads thread).stage.held.map Block.hash
  | .buffer => (node.buffer.blocks hash).isSome
  | .chain => hash ∈ inserted.map Block.hash
  | .genesis => hash ∈ config.genesisHashes

variable (config : BlockchainConfig H)

section HoldsLemmas

variable {node : Node H T} {inserted : List (Block H T)} {hash : H}

@[simp] theorem holds_thread {thread : Nat} :
    node.Holds config inserted hash (.thread thread) ↔ hash ∈ (node.threads thread).stage.held.map Block.hash :=
  Iff.rfl

@[simp] theorem holds_buffer : node.Holds config inserted hash .buffer ↔ (node.buffer.blocks hash).isSome :=
  Iff.rfl

@[simp] theorem holds_chain : node.Holds config inserted hash .chain ↔ hash ∈ inserted.map Block.hash :=
  Iff.rfl

@[simp] theorem holds_genesis : node.Holds config inserted hash .genesis ↔ hash ∈ config.genesisHashes :=
  Iff.rfl

end HoldsLemmas

section Invariant

variable [DecidableEq H] [Inhabited H] [Hashable T H] (checkSignatureBatch : List T → Bool)
  (policy : ConfirmationPolicy H) (sizeLimit : Nat)

/-- What every state of a node's run keeps, with `inserted` the blocks its
blockchain holds. -/
structure Invariant (node : Node H T) (inserted : List (Block H T)) : Prop where
  /-- The blockchain is one of the blockchain's own runs. -/
  reachable : Prism.Reachable checkSignatureBatch policy config node.chain inserted
  /-- What is held is stored. -/
  stored : ∀ hash holder, node.Holds config inserted hash holder → node.blockdb.contains hash = true
  /-- Each hash has one holder at most. -/
  unique : ∀ hash holder other, node.Holds config inserted hash holder → node.Holds config inserted hash other →
    holder = other
  /-- A thread holds a hash once. -/
  held_nodup : ∀ thread, ((node.threads thread).stage.held.map Block.hash).Nodup
  /-- `recent_blocks` holds the claimed hashes. -/
  recent : ∀ hash, hash ∈ node.recentBlocks ↔ ∃ thread, (node.threads thread).stage.claim = some hash
  /-- One thread claims a hash at most. -/
  claim_unique : ∀ thread other hash, (node.threads thread).stage.claim = some hash →
    (node.threads other).stage.claim = some hash → thread = other
  /-- A hash about to be stored is not stored. -/
  storing_fresh : ∀ thread hash, (node.threads thread).stage.storingHash = some hash →
    node.blockdb.contains hash = false
  /-- The checks each thread has made still pass. -/
  checked : ∀ thread, (node.threads thread).stage.Checked checkSignatureBatch node.chain
  /-- The buffer is well formed. -/
  buffer : node.buffer.Invariant
  /-- The memory pool is one of its own runs. -/
  mempool : ∃ queue, MemoryPool.Reachable sizeLimit node.mempool queue

end Invariant

/-! ## How holdings move -/

section Holdings

variable {node next : Node H T} {inserted inserted' : List (Block H T)}

/-- A step that gives the hashes `moved` to `target`, takes them from their
holders, and otherwise only takes holdings away, keeps one holder a hash. -/
theorem unique_of_moves {moved : H → Prop} {target : Holder}
    (unique : ∀ hash holder other, node.Holds config inserted hash holder → node.Holds config inserted hash other →
      holder = other)
    (moves : ∀ hash holder, next.Holds config inserted' hash holder →
      node.Holds config inserted hash holder ∨ (moved hash ∧ holder = target))
    (taken : ∀ hash, moved hash → ∀ holder, node.Holds config inserted hash holder →
      ¬ next.Holds config inserted' hash holder) :
    ∀ hash holder other, next.Holds config inserted' hash holder → next.Holds config inserted' hash other →
      holder = other := by
  intro hash holder other holds holdsOther
  rcases moves hash holder holds with old | ⟨isMoved, rfl⟩ <;>
    rcases moves hash other holdsOther with oldOther | ⟨isMovedOther, rfl⟩
  · exact unique hash holder other old oldOther
  · exact absurd holds (taken hash isMovedOther holder old)
  · exact absurd holdsOther (taken hash isMoved other oldOther)
  · rfl

/-- What such a step leaves held is stored, if the database keeps what it
stored and has the moved hashes. -/
theorem stored_of_moves {moved : H → Prop} {target : Holder}
    (stored : ∀ hash holder, node.Holds config inserted hash holder → node.blockdb.contains hash = true)
    (grows : ∀ hash, node.blockdb.contains hash = true → next.blockdb.contains hash = true)
    (moves : ∀ hash holder, next.Holds config inserted' hash holder →
      node.Holds config inserted hash holder ∨ (moved hash ∧ holder = target))
    (movedStored : ∀ hash, moved hash → next.blockdb.contains hash = true) :
    ∀ hash holder, next.Holds config inserted' hash holder → next.blockdb.contains hash = true := by
  intro hash holder holds
  rcases moves hash holder holds with old | ⟨isMoved, -⟩
  · exact grows hash (stored hash holder old)
  · exact movedStored hash isMoved

/-- A step that changes the holdings of one thread only, within what it
held, with the buffer and the blockchain as they were. -/
theorem holds_of_quiet {thread : Nat} (bufferEq : next.buffer = node.buffer)
    (others : ∀ other, other ≠ thread → (next.threads other).stage = (node.threads other).stage)
    (heldSub : ((next.threads thread).stage.held.map Block.hash).Subperm
      ((node.threads thread).stage.held.map Block.hash))
    {hash : H} {holder : Holder} (holds : next.Holds config inserted hash holder) :
    node.Holds config inserted hash holder := by
  cases holder with
  | thread other =>
      by_cases same : other = thread
      · subst same
        exact heldSub.subset holds
      · rw [holds_thread, others other same] at holds
        exact holds
  | buffer =>
      rw [holds_buffer, bufferEq] at holds
      exact holds
  | chain => exact holds
  | genesis => exact holds

omit [Hashable (Header H) H] in
/-- The holdings a thread keeps or reorders have no repetition if the old
ones had none. -/
theorem nodup_of_subperm {held held' : List H} (sub : held'.Subperm held) (nodup : held.Nodup) : held'.Nodup := by
  obtain ⟨kept, perm, sublist⟩ := sub
  exact perm.nodup_iff.mp (nodup.sublist sublist)

end Holdings

/-! ## Claims on `recent_blocks` -/

section Claims

variable {node next : Node H T}

/-- Claims that every thread keeps, with `recent_blocks` as it was. -/
theorem claims_of_same (recent : ∀ hash, hash ∈ node.recentBlocks ↔ ∃ thread, (node.threads thread).stage.claim = some hash)
    (claimUnique : ∀ thread other hash, (node.threads thread).stage.claim = some hash →
      (node.threads other).stage.claim = some hash → thread = other)
    (recentEq : next.recentBlocks = node.recentBlocks)
    (claimsEq : ∀ thread, (next.threads thread).stage.claim = (node.threads thread).stage.claim) :
    (∀ hash, hash ∈ next.recentBlocks ↔ ∃ thread, (next.threads thread).stage.claim = some hash) ∧
      ∀ thread other hash, (next.threads thread).stage.claim = some hash →
        (next.threads other).stage.claim = some hash → thread = other := by
  refine ⟨fun hash => ?_, fun thread other hash claimed claimedOther => ?_⟩
  · simp only [recentEq, recent, claimsEq]
  · rw [claimsEq] at claimed claimedOther
    exact claimUnique thread other hash claimed claimedOther

variable [DecidableEq H]

/-- A thread that claimed nothing claims a hash outside `recent_blocks`,
which takes it in. -/
theorem claims_of_claim {thread : Nat} {hash : H}
    (recent : ∀ hash, hash ∈ node.recentBlocks ↔ ∃ thread, (node.threads thread).stage.claim = some hash)
    (claimUnique : ∀ thread other hash, (node.threads thread).stage.claim = some hash →
      (node.threads other).stage.claim = some hash → thread = other)
    (fresh : hash ∉ node.recentBlocks) (before : (node.threads thread).stage.claim = none)
    (recentEq : next.recentBlocks = insert hash node.recentBlocks)
    (claimed : (next.threads thread).stage.claim = some hash)
    (others : ∀ other, other ≠ thread → (next.threads other).stage.claim = (node.threads other).stage.claim) :
    (∀ hash, hash ∈ next.recentBlocks ↔ ∃ thread, (next.threads thread).stage.claim = some hash) ∧
      ∀ thread other hash, (next.threads thread).stage.claim = some hash →
        (next.threads other).stage.claim = some hash → thread = other := by
  -- an old claim is another thread's, and it is not on `hash`
  have oldClaim : ∀ other claimedHash, (node.threads other).stage.claim = some claimedHash →
      other ≠ thread ∧ claimedHash ≠ hash := by
    intro other claimedHash found
    refine ⟨fun same => ?_, fun same => fresh ((recent hash).mpr ⟨other, same ▸ found⟩)⟩
    rw [same, before] at found
    cases found
  refine ⟨fun other => ?_, fun first second claimedHash firstClaim secondClaim => ?_⟩
  · rw [recentEq, Finset.mem_insert, recent]
    constructor
    · rintro (rfl | ⟨owner, found⟩)
      · exact ⟨thread, claimed⟩
      · exact ⟨owner, by rw [others owner (oldClaim owner other found).1, found]⟩
    · rintro ⟨owner, found⟩
      by_cases same : owner = thread
      · subst same
        rw [claimed] at found
        exact .inl (Option.some.inj found).symm
      · rw [others owner same] at found
        exact .inr ⟨owner, found⟩
  · by_cases firstSame : first = thread <;> by_cases secondSame : second = thread
    · rw [firstSame, secondSame]
    · rw [firstSame, claimed] at firstClaim
      rw [others second secondSame, ← firstClaim] at secondClaim
      exact absurd rfl (oldClaim second hash secondClaim).2
    · rw [secondSame, claimed] at secondClaim
      rw [others first firstSame, ← secondClaim] at firstClaim
      exact absurd rfl (oldClaim first hash firstClaim).2
    · rw [others first firstSame] at firstClaim
      rw [others second secondSame] at secondClaim
      exact claimUnique first second claimedHash firstClaim secondClaim

/-- A thread drops its claim on `hash`, which leaves `recent_blocks`. -/
theorem claims_of_unclaim {thread : Nat} {hash : H}
    (recent : ∀ hash, hash ∈ node.recentBlocks ↔ ∃ thread, (node.threads thread).stage.claim = some hash)
    (claimUnique : ∀ thread other hash, (node.threads thread).stage.claim = some hash →
      (node.threads other).stage.claim = some hash → thread = other)
    (before : (node.threads thread).stage.claim = some hash)
    (recentEq : next.recentBlocks = node.recentBlocks.erase hash)
    (unclaimed : (next.threads thread).stage.claim = none)
    (others : ∀ other, other ≠ thread → (next.threads other).stage.claim = (node.threads other).stage.claim) :
    (∀ hash, hash ∈ next.recentBlocks ↔ ∃ thread, (next.threads thread).stage.claim = some hash) ∧
      ∀ thread other hash, (next.threads thread).stage.claim = some hash →
        (next.threads other).stage.claim = some hash → thread = other := by
  -- a claim after the step is another thread's, as it was before
  have newClaim : ∀ other claimedHash, (next.threads other).stage.claim = some claimedHash →
      other ≠ thread ∧ (node.threads other).stage.claim = some claimedHash := by
    intro other claimedHash found
    have apart : other ≠ thread := by
      rintro rfl
      rw [unclaimed] at found
      cases found
    exact ⟨apart, by rwa [others other apart] at found⟩
  refine ⟨fun other => ?_, fun first second claimedHash firstClaim secondClaim => ?_⟩
  · rw [recentEq, Finset.mem_erase, recent]
    constructor
    · rintro ⟨apart, owner, found⟩
      have ownerApart : owner ≠ thread := by
        rintro rfl
        rw [before] at found
        exact apart (Option.some.inj found).symm
      exact ⟨owner, by rw [others owner ownerApart, found]⟩
    · rintro ⟨owner, found⟩
      obtain ⟨ownerApart, oldFound⟩ := newClaim owner other found
      refine ⟨fun same => ownerApart ?_, owner, oldFound⟩
      rw [same] at oldFound
      exact claimUnique owner thread hash oldFound before
  · exact claimUnique first second claimedHash (newClaim first claimedHash firstClaim).2
      (newClaim second claimedHash secondClaim).2

end Claims

/-! ## The memory pool's steps -/

section Mempool

variable [DecidableEq H] [Hashable T H] {sizeLimit : Nat} {pool next : MemoryPool H T} {queue : List (H × T)}

omit [Hashable (Header H) H] in
/-- `new_transaction` is a step of the pool's runs. -/
theorem reachable_newTransaction (reach : MemoryPool.Reachable sizeLimit pool queue) {tx : T}
    (added : pool.newTransaction tx = some next) : ∃ queue, MemoryPool.Reachable sizeLimit next queue := by
  unfold MemoryPool.newTransaction at added
  split at added
  · cases added
    exact ⟨queue, reach⟩
  · rename_i absent
    exact ⟨_, .insert reach (by simpa [MemoryPool.contains] using absent) added⟩

omit [Hashable (Header H) H] in
/-- The memory-pool half of `new_validated_block` is a run of removals. -/
theorem reachable_removeTransactions (reach : MemoryPool.Reachable sizeLimit pool queue) {block : Block H T}
    (removed : removeTransactions pool block = some next) : ∃ queue, MemoryPool.Reachable sizeLimit next queue := by
  unfold removeTransactions at removed
  split at removed
  · exact List.foldlM_option_invariant (fun pool => ∃ queue, MemoryPool.Reachable sizeLimit pool queue) _
      (fun _ _ _ _ ⟨_, reach⟩ removedOne => ⟨_, .removeByHash reach removedOne⟩) _ _ ⟨queue, reach⟩ removed
  · cases removed
    exact ⟨queue, reach⟩

omit [Hashable (Header H) H] in
/-- The memory-pool half of `new_validated_block` never panics: every
`remove_by_hash` of a pool along its runs returns. -/
theorem removeTransactions_isSome (reach : MemoryPool.Reachable sizeLimit pool queue) (block : Block H T) :
    ∃ next, removeTransactions pool block = some next := by
  unfold removeTransactions
  split
  · obtain ⟨next, removed, -⟩ := List.foldlM_option_exists
      (fun pool => ∃ queue, MemoryPool.Reachable sizeLimit pool queue) _ (fun pool (tx : T) _ reachable => by
        obtain ⟨queue, reach⟩ := reachable
        obtain ⟨next, removedOne⟩ :=
          Option.isSome_iff_exists.mp (reach.invariant.removeByHash_isSome (Hashable.hash tx : H))
        exact ⟨next, removedOne, _, .removeByHash reach removedOne⟩) _ ⟨queue, reach⟩
    exact ⟨next, removed⟩
  · exact ⟨pool, rfl⟩

end Mempool

/-! ## Steps of one thread -/

section Steps

variable {config} [DecidableEq H] [Inhabited H] [Hashable T H] {checkSignatureBatch : List T → Bool}
  {policy : ConfirmationPolicy H} {sizeLimit : Nat} {node next : Node H T} {inserted : List (Block H T)}

/-- A step of one thread that writes no shared store but `recent_blocks`
and the memory pool, and keeps to the blocks the thread held. -/
theorem Invariant.restage (invariant : Invariant config checkSignatureBatch policy sizeLimit node inserted)
    {thread : Nat} (chainEq : next.chain = node.chain) (blockdbEq : next.blockdb = node.blockdb)
    (bufferEq : next.buffer = node.buffer)
    (others : ∀ other, other ≠ thread → (next.threads other).stage = (node.threads other).stage)
    (heldSub : ((next.threads thread).stage.held.map Block.hash).Subperm
      ((node.threads thread).stage.held.map Block.hash))
    (recent : ∀ hash, hash ∈ next.recentBlocks ↔ ∃ other, (next.threads other).stage.claim = some hash)
    (claimUnique : ∀ other other' hash, (next.threads other).stage.claim = some hash →
      (next.threads other').stage.claim = some hash → other = other')
    (storingFresh : ∀ hash, (next.threads thread).stage.storingHash = some hash → node.blockdb.contains hash = false)
    (checked : (next.threads thread).stage.Checked checkSignatureBatch node.chain)
    (mempool : ∃ queue, MemoryPool.Reachable sizeLimit next.mempool queue) :
    Invariant config checkSignatureBatch policy sizeLimit next inserted where
  reachable := by
    rw [chainEq]
    exact invariant.reachable
  stored hash holder holds := by
    rw [blockdbEq]
    exact invariant.stored hash holder (holds_of_quiet config bufferEq others heldSub holds)
  unique hash holder other holds holdsOther :=
    invariant.unique hash holder other (holds_of_quiet config bufferEq others heldSub holds)
      (holds_of_quiet config bufferEq others heldSub holdsOther)
  held_nodup other := by
    by_cases same : other = thread
    · subst same
      exact nodup_of_subperm heldSub (invariant.held_nodup other)
    · rw [others other same]
      exact invariant.held_nodup other
  recent := recent
  claim_unique := claimUnique
  storing_fresh other hash found := by
    rw [blockdbEq]
    by_cases same : other = thread
    · subst same
      exact storingFresh hash found
    · rw [others other same] at found
      exact invariant.storing_fresh other hash found
  checked other := by
    rw [chainEq]
    by_cases same : other = thread
    · subst same
      exact checked
    · rw [others other same]
      exact invariant.checked other
  buffer := by
    rw [bufferEq]
    exact invariant.buffer
  mempool := mempool

/-- A thread moves to `stage`, and the hashes `moved` move from `source` to
`target`: out of the thread's hands, the buffer or the blockchain, or into
them.  The database, `recent_blocks` and the other threads stay as they were,
and the blockchain grows. -/
theorem Invariant.transfer (invariant : Invariant config checkSignatureBatch policy sizeLimit node inserted)
    {thread : Nat} {stage : Stage H T} {node' : Node H T} {inserted' : List (Block H T)} {moved : H → Prop}
    {source target : Holder} (reachable : Prism.Reachable checkSignatureBatch policy config node'.chain inserted')
    (grows : node.chain.Extends node'.chain) (blockdbEq : node'.blockdb = node.blockdb)
    (recentEq : node'.recentBlocks = node.recentBlocks) (threadsEq : node'.threads = node.threads)
    (buffer : node'.buffer.Invariant)
    (heldMoves : ∀ hash ∈ stage.held.map Block.hash,
      hash ∈ (node.threads thread).stage.held.map Block.hash ∨ (moved hash ∧ Holder.thread thread = target))
    (bufferMoves : ∀ hash, (node'.buffer.blocks hash).isSome →
      (node.buffer.blocks hash).isSome ∨ (moved hash ∧ Holder.buffer = target))
    (chainMoves : ∀ hash ∈ inserted'.map Block.hash,
      hash ∈ inserted.map Block.hash ∨ (moved hash ∧ Holder.chain = target))
    (sourced : ∀ hash, moved hash → node.Holds config inserted hash source ∧
      ¬ (node'.setStage thread stage).Holds config inserted' hash source)
    (heldNodup : (stage.held.map Block.hash).Nodup) (claimEq : stage.claim = (node.threads thread).stage.claim)
    (storingFresh : ∀ hash, stage.storingHash = some hash → node.blockdb.contains hash = false)
    (checked : stage.Checked checkSignatureBatch node'.chain)
    (mempool : ∃ queue, MemoryPool.Reachable sizeLimit node'.mempool queue) :
    Invariant config checkSignatureBatch policy sizeLimit (node'.setStage thread stage) inserted' := by
  have others : ∀ other, other ≠ thread →
      ((node'.setStage thread stage).threads other).stage = (node.threads other).stage := by
    intro other apart
    rw [Node.stage_setStage_of_ne _ _ _ apart, threadsEq]
  have claimsEq : ∀ other, ((node'.setStage thread stage).threads other).stage.claim =
      (node.threads other).stage.claim := by
    intro other
    by_cases same : other = thread
    · rw [same, Node.stage_setStage_self, claimEq]
    · rw [others other same]
  -- every holding after the step is an old one or a moved hash at the target
  have moves : ∀ hash holder, (node'.setStage thread stage).Holds config inserted' hash holder →
      node.Holds config inserted hash holder ∨ (moved hash ∧ holder = target) := by
    intro hash holder holds
    cases holder with
    | thread other =>
        by_cases same : other = thread
        · rw [same, holds_thread, Node.stage_setStage_self] at holds
          rw [same]
          exact heldMoves hash holds
        · rw [holds_thread, others other same] at holds
          exact .inl holds
    | buffer => exact bufferMoves hash holds
    | chain => exact chainMoves hash holds
    | genesis => exact .inl holds
  obtain ⟨recent, claimUnique⟩ := claims_of_same invariant.recent invariant.claim_unique
    (by rw [Node.setStage_recentBlocks, recentEq]) claimsEq
  refine ⟨reachable, ?_, ?_, fun other => ?_, recent, claimUnique, fun other hash found => ?_, fun other => ?_,
    buffer, mempool⟩
  · refine stored_of_moves config invariant.stored (fun hash stored => ?_) moves fun hash isMoved => ?_
    · rw [Node.setStage_blockdb, blockdbEq]
      exact stored
    · rw [Node.setStage_blockdb, blockdbEq]
      exact invariant.stored hash source (sourced hash isMoved).1
  · refine unique_of_moves config invariant.unique moves fun hash isMoved holder holds => ?_
    -- only the source held a moved hash, and it holds it no more
    obtain ⟨fromSource, released⟩ := sourced hash isMoved
    rw [invariant.unique hash holder source holds fromSource]
    exact released
  · by_cases same : other = thread
    · rw [same, Node.stage_setStage_self]
      exact heldNodup
    · rw [others other same]
      exact invariant.held_nodup other
  · rw [Node.setStage_blockdb, blockdbEq]
    by_cases same : other = thread
    · rw [same, Node.stage_setStage_self] at found
      exact storingFresh hash found
    · rw [others other same] at found
      exact invariant.storing_fresh other hash found
  · by_cases same : other = thread
    · rw [same, Node.stage_setStage_self]
      exact checked
    · rw [others other same]
      exact (invariant.checked other).of_extends grows

/-- A thread moves to `stage` and nothing else of the shared state changes
but the memory pool and what is sent or requested; the new stage keeps to
the blocks the thread held and claims what it claimed. -/
theorem Invariant.setStage (invariant : Invariant config checkSignatureBatch policy sizeLimit node inserted)
    {thread : Nat} {stage : Stage H T} {node' : Node H T} (chainEq : node'.chain = node.chain)
    (blockdbEq : node'.blockdb = node.blockdb) (bufferEq : node'.buffer = node.buffer)
    (recentEq : node'.recentBlocks = node.recentBlocks) (threadsEq : node'.threads = node.threads)
    (heldSub : (stage.held.map Block.hash).Subperm ((node.threads thread).stage.held.map Block.hash))
    (claimEq : stage.claim = (node.threads thread).stage.claim)
    (storingFresh : ∀ hash, stage.storingHash = some hash → node.blockdb.contains hash = false)
    (checked : stage.Checked checkSignatureBatch node.chain)
    (mempool : ∃ queue, MemoryPool.Reachable sizeLimit node'.mempool queue) :
    Invariant config checkSignatureBatch policy sizeLimit (node'.setStage thread stage) inserted := by
  -- nothing moves
  have chainMoves : ∀ hash ∈ inserted.map Block.hash,
      hash ∈ inserted.map Block.hash ∨ (False ∧ Holder.chain = .buffer) :=
    fun _ member => .inl member
  have sourced : ∀ hash : H, False → node.Holds config inserted hash .buffer ∧
      ¬ (node'.setStage thread stage).Holds config inserted hash .buffer :=
    fun _ impossible => impossible.elim
  refine invariant.transfer (chainEq ▸ invariant.reachable) (chainEq ▸ BlockChain.Extends.refl _) blockdbEq
    recentEq threadsEq (bufferEq ▸ invariant.buffer) (fun hash held => .inl (heldSub.subset held))
    (fun hash parked => .inl (bufferEq ▸ parked)) chainMoves sourced
    (nodup_of_subperm heldSub (invariant.held_nodup thread)) claimEq storingFresh (chainEq ▸ checked) mempool

/-- `insert_encoded` of the block the thread found missing: the thread holds
the block from now on. -/
theorem Invariant.store (invariant : Invariant config checkSignatureBatch policy sizeLimit node inserted)
    {thread : Nat} {block : Block H T} {progress : Decoding H T}
    (stageEq : (node.threads thread).stage = .storing block progress) :
    Invariant config checkSignatureBatch policy sizeLimit
      ({ node with blockdb := node.blockdb.insertEncoded block.hash block }.setStage thread (.stored block progress))
      inserted := by
  set next := { node with blockdb := node.blockdb.insertEncoded block.hash block }.setStage thread
    (.stored block progress) with nextEq
  have fresh : node.blockdb.contains block.hash = false :=
    invariant.storing_fresh thread block.hash (by rw [stageEq]; rfl)
  -- nothing holds the block yet, since what is held is stored
  have unheld : ∀ holder, ¬ node.Holds config inserted block.hash holder := by
    intro holder holds
    have stored := invariant.stored _ holder holds
    rw [fresh] at stored
    cases stored
  have others : ∀ other, other ≠ thread → (next.threads other).stage = (node.threads other).stage :=
    fun other apart => Node.stage_setStage_of_ne _ _ _ apart
  have heldEq : (next.threads thread).stage.held = (node.threads thread).stage.held ++ [block] := by
    rw [nextEq, Node.stage_setStage_self, stageEq]
    rfl
  have moves : ∀ hash holder, next.Holds config inserted hash holder →
      node.Holds config inserted hash holder ∨ (hash = block.hash ∧ holder = .thread thread) := by
    intro hash holder holds
    cases holder with
    | thread other =>
        by_cases same : other = thread
        · subst same
          dsimp only [Holds] at holds ⊢
          rw [heldEq, List.map_append, List.mem_append] at holds
          rcases holds with old | added
          · exact .inl old
          · exact .inr ⟨List.mem_singleton.mp added, rfl⟩
        · dsimp only [Holds] at holds ⊢
          rw [others other same] at holds
          exact .inl holds
    | buffer => exact .inl holds
    | chain => exact .inl holds
    | genesis => exact .inl holds
  have claimsEq : ∀ other, (next.threads other).stage.claim = (node.threads other).stage.claim := by
    intro other
    by_cases same : other = thread
    · rw [same, nextEq, Node.stage_setStage_self, stageEq]
      rfl
    · rw [others other same]
  obtain ⟨recent, claimUnique⟩ := claims_of_same invariant.recent invariant.claim_unique
    (rfl : next.recentBlocks = node.recentBlocks) claimsEq
  refine ⟨invariant.reachable, ?_, ?_, fun other => ?_, recent, claimUnique, fun other hash found => ?_,
    fun other => ?_, invariant.buffer, invariant.mempool⟩
  · refine stored_of_moves config invariant.stored (fun hash stored => ?_) moves ?_
    · simp [nextEq, stored]
    · rintro hash rfl
      simp [nextEq]
  · exact unique_of_moves config invariant.unique moves (fun hash isMoved holder holds => absurd (isMoved ▸ holds)
      (unheld holder))
  · by_cases same : other = thread
    · subst same
      rw [heldEq, List.map_append]
      refine List.nodup_append.mpr ⟨invariant.held_nodup other, List.nodup_singleton _, ?_⟩
      intro hash held added addedMem same
      rw [List.mem_singleton.mp addedMem] at same
      exact unheld (.thread other) (same ▸ held)
    · rw [others other same]
      exact invariant.held_nodup other
  · by_cases same : other = thread
    · rw [same, nextEq, Node.stage_setStage_self] at found
      cases found
    · rw [others other same] at found
      -- another thread stores another hash: the two claims differ
      have apart : hash ≠ block.hash := by
        rintro rfl
        exact same (invariant.claim_unique other thread block.hash (Stage.storingHash_claim found)
          (by rw [stageEq]; rfl))
      simpa [nextEq, apart] using invariant.storing_fresh other hash found
  · by_cases same : other = thread
    · rw [same, nextEq, Node.stage_setStage_self]
      trivial
    · rw [others other same]
      exact invariant.checked other

/-- A block with missing references goes from the thread to the buffer
(`BlockBuffer::insert` under the buffer lock). -/
theorem Invariant.park (invariant : Invariant config checkSignatureBatch policy sizeLimit node inserted)
    {thread : Nat} {block : Block H T} {toProcess : List (Block H T)} {toRequest missing : List H}
    {signals : List Miner.ContextUpdateSignal}
    (stageEq : (node.threads thread).stage = .processing ⟨block :: toProcess, toRequest, signals⟩)
    (missed : Validation.checkDataAvailability node.chain block = .missingReferences missing) :
    Invariant config checkSignatureBatch policy sizeLimit
      ({ node with buffer := node.buffer.insert block missing }.setStage thread
        (.processing ⟨toProcess, toRequest ++ missing, signals⟩)) inserted := by
  have heldEq : (node.threads thread).stage.held = block :: toProcess := by
    rw [stageEq]
    rfl
  have holdsThread : node.Holds config inserted block.hash (.thread thread) := by
    simp [heldEq]
  have nodup := invariant.held_nodup thread
  rw [heldEq, List.map_cons, List.nodup_cons] at nodup
  -- the thread holds the block, so the buffer does not
  have notBuffered : node.buffer.blocks block.hash = none := by
    cases parked : node.buffer.blocks block.hash with
    | none => rfl
    | some parkedBlock =>
        cases invariant.unique block.hash .buffer (.thread thread) (by simp [parked]) holdsThread
  have bufferMoves : ∀ hash, ((node.buffer.insert block missing).blocks hash).isSome →
      (node.buffer.blocks hash).isSome ∨ (hash = block.hash ∧ Holder.buffer = .buffer) := by
    intro hash parked
    by_cases same : hash = block.hash
    · exact .inr ⟨same, rfl⟩
    · left
      simpa [(BlockBuffer.insert_spec node.buffer block missing).1, same] using parked
  refine invariant.transfer invariant.reachable (BlockChain.Extends.refl _) rfl rfl rfl
    (invariant.buffer.insert notBuffered (Validation.checkDataAvailability_missing_ne_nil missed))
    (fun hash held => .inl ?_) bufferMoves (fun hash member => .inl member)
    (fun hash moved => show node.Holds config inserted hash (.thread thread) ∧ _ from ?_) nodup.2
    (by rw [stageEq]; rfl) (fun _ found => by cases found) trivial invariant.mempool
  · rw [heldEq, List.map_cons]
    exact List.mem_cons_of_mem _ held
  · rw [moved]
    exact ⟨holdsThread, by simpa [Stage.held] using nodup.1⟩

/-- The block a thread is about to insert is accepted: the thread holds it,
so it is neither a genesis block nor inserted, and the checks the thread made
still pass. -/
theorem Invariant.accepted (invariant : Invariant config checkSignatureBatch policy sizeLimit node inserted)
    {thread : Nat} {block : Block H T} {pending : Pending H T}
    (stageEq : (node.threads thread).stage = .cleared block pending) :
    Accepted checkSignatureBatch node.chain inserted block := by
  have holdsThread : node.Holds config inserted block.hash (.thread thread) := by
    simp [stageEq, Stage.held]
  have checked := invariant.checked thread
  rw [stageEq] at checked
  refine ⟨?_, fun member => ?_, checked.1, checked.2⟩
  · rw [invariant.reachable.config]
    intro genesis
    cases invariant.unique block.hash .genesis (.thread thread) genesis holdsThread
  · cases invariant.unique block.hash .chain (.thread thread) member holdsThread

/-- `insert_block` of the block the thread validated: the block goes from
the thread to the blockchain, whose run it extends by one accepted block. -/
theorem Invariant.insertBlock (invariant : Invariant config checkSignatureBatch policy sizeLimit node inserted)
    {thread : Nat} {block : Block H T} {pending : Pending H T} {chain : BlockChain H}
    (stageEq : (node.threads thread).stage = .cleared block pending)
    (insertedEq : node.chain.insertBlock block = some chain) :
    Invariant config checkSignatureBatch policy sizeLimit ({ node with chain }.setStage thread (.inserted block pending))
      (inserted ++ [block]) := by
  have heldEq : (node.threads thread).stage.held = block :: pending.toProcess := by
    rw [stageEq]
    rfl
  have holdsThread : node.Holds config inserted block.hash (.thread thread) := by
    simp [heldEq]
  have nodup := invariant.held_nodup thread
  rw [heldEq, List.map_cons, List.nodup_cons] at nodup
  have accepted := invariant.accepted stageEq
  obtain ⟨freshProposer, freshVoter, freshParent⟩ :=
    invariant.reachable.index.keys.fresh accepted.fresh_genesis accepted.fresh_received
  have chainMoves : ∀ hash ∈ (inserted ++ [block]).map Block.hash,
      hash ∈ inserted.map Block.hash ∨ (hash = block.hash ∧ Holder.chain = .chain) := by
    intro hash member
    rw [List.map_append, List.mem_append] at member
    rcases member with old | added
    · exact .inl old
    · exact .inr ⟨List.mem_singleton.mp added, rfl⟩
  refine invariant.transfer (invariant.reachable.insertBlock accepted insertedEq)
    (.of_insertBlock insertedEq freshProposer freshVoter freshParent) rfl rfl rfl invariant.buffer
    (fun hash held => .inl ?_) (fun hash parked => .inl parked) chainMoves
    (fun hash moved => show node.Holds config inserted hash (.thread thread) ∧ _ from ?_) nodup.2
    (by rw [stageEq]; rfl) (fun _ found => by cases found) trivial invariant.mempool
  · rw [heldEq, List.map_cons]
    exact List.mem_cons_of_mem _ held
  · rw [moved]
    exact ⟨holdsThread, by simpa [Stage.held] using nodup.1⟩

/-- `satisfy` of the inserted block's hash: the blocks that waited only for
it go from the buffer to the thread's stack. -/
theorem Invariant.release (invariant : Invariant config checkSignatureBatch policy sizeLimit node inserted)
    {thread : Nat} {block : Block H T} {toProcess resolved : List (Block H T)} {toRequest : List H}
    {signals : List Miner.ContextUpdateSignal} {buffer : BlockBuffer H T}
    (stageEq : (node.threads thread).stage = .inserted block ⟨toProcess, toRequest, signals⟩)
    (satisfied : node.buffer.satisfy block.hash = some (buffer, resolved)) :
    Invariant config checkSignatureBatch policy sizeLimit
      ({ node with buffer }.setStage thread
        (.processing ⟨resolved.reverse ++ toProcess, toRequest, signals ++ [block.signal]⟩)) inserted := by
  have heldEq : (node.threads thread).stage.held = toProcess := by
    rw [stageEq]
    rfl
  -- a released block was in the buffer, and is no more
  have released : ∀ hash ∈ resolved.map Block.hash,
      node.Holds config inserted hash .buffer ∧ buffer.blocks hash = none := by
    intro hash member
    obtain ⟨releasedBlock, releasedMem, rfl⟩ := List.mem_map.mp member
    obtain ⟨parked, gone⟩ := invariant.buffer.satisfy_released satisfied releasedMem
    exact ⟨by simp [parked], gone⟩
  have heldNodup : ((resolved.reverse ++ toProcess).map Block.hash).Nodup := by
    rw [List.map_append, List.map_reverse, List.nodup_append]
    refine ⟨List.nodup_reverse.mpr (invariant.buffer.satisfy_nodup satisfied),
      heldEq ▸ invariant.held_nodup thread, ?_⟩
    intro hash fromBuffer held heldMem same
    rw [same, List.mem_reverse] at fromBuffer
    cases invariant.unique held .buffer (.thread thread) (released held fromBuffer).1 (by simp [heldEq, heldMem])
  have heldMoves : ∀ hash ∈ (resolved.reverse ++ toProcess).map Block.hash,
      hash ∈ (node.threads thread).stage.held.map Block.hash ∨
        (hash ∈ resolved.map Block.hash ∧ Holder.thread thread = .thread thread) := by
    intro hash member
    rw [List.map_append, List.map_reverse, List.mem_append, List.mem_reverse] at member
    rcases member with fromBuffer | held
    · exact .inr ⟨fromBuffer, rfl⟩
    · exact .inl (heldEq ▸ held)
  have bufferMoves : ∀ hash, (buffer.blocks hash).isSome →
      (node.buffer.blocks hash).isSome ∨ (hash ∈ resolved.map Block.hash ∧ Holder.buffer = .thread thread) := by
    intro hash parked
    obtain ⟨parkedBlock, parkedEq⟩ := Option.isSome_iff_exists.mp parked
    exact .inl (by rw [invariant.buffer.satisfy_blocks satisfied parkedEq]; rfl)
  refine invariant.transfer invariant.reachable (BlockChain.Extends.refl _) rfl rfl rfl
    (invariant.buffer.satisfy satisfied) heldMoves bufferMoves (fun hash member => .inl member)
    (fun hash moved => ⟨(released hash moved).1, ?_⟩) heldNodup (by rw [stageEq]; rfl)
    (fun _ found => by cases found) trivial invariant.mempool
  simp [(released hash moved).2]

/-- A thread registers the hash of the block at hand in `recent_blocks`. -/
theorem Invariant.claim (invariant : Invariant config checkSignatureBatch policy sizeLimit node inserted)
    {thread : Nat} {block : Block H T} {progress : Decoding H T}
    (stageEq : (node.threads thread).stage = .arrived block progress) (fresh : block.hash ∉ node.recentBlocks) :
    Invariant config checkSignatureBatch policy sizeLimit
      ({ node with recentBlocks := insert block.hash node.recentBlocks }.setStage thread (.claimed block progress))
      inserted := by
  set next := { node with recentBlocks := insert block.hash node.recentBlocks }.setStage thread
    (.claimed block progress) with nextEq
  have others : ∀ other, other ≠ thread → (next.threads other).stage = (node.threads other).stage :=
    fun other apart => Node.stage_setStage_of_ne _ _ _ apart
  obtain ⟨recent, claimUnique⟩ := claims_of_claim invariant.recent invariant.claim_unique fresh
    (by rw [stageEq]; rfl) (rfl : next.recentBlocks = insert block.hash node.recentBlocks)
    (by rw [nextEq, Node.stage_setStage_self]; rfl) fun other apart => by rw [others other apart]
  refine invariant.restage rfl rfl rfl others ?_ recent claimUnique (fun _ found => ?_) ?_ invariant.mempool
  · rw [nextEq, Node.stage_setStage_self, stageEq]
    exact List.Subperm.refl _
  · rw [nextEq, Node.stage_setStage_self] at found
    cases found
  · rw [nextEq, Node.stage_setStage_self]
    trivial

/-- A thread drops its claim on `hash` from `recent_blocks` and goes on
decoding with what it held. -/
theorem Invariant.unclaim (invariant : Invariant config checkSignatureBatch policy sizeLimit node inserted)
    {thread : Nat} {hash : H} {progress : Decoding H T} (before : (node.threads thread).stage.claim = some hash)
    (heldEq : progress.blocks = (node.threads thread).stage.held) :
    Invariant config checkSignatureBatch policy sizeLimit
      ({ node with recentBlocks := node.recentBlocks.erase hash }.setStage thread (.decoding progress)) inserted := by
  set next := { node with recentBlocks := node.recentBlocks.erase hash }.setStage thread (.decoding progress)
    with nextEq
  have others : ∀ other, other ≠ thread → (next.threads other).stage = (node.threads other).stage :=
    fun other apart => Node.stage_setStage_of_ne _ _ _ apart
  obtain ⟨recent, claimUnique⟩ := claims_of_unclaim invariant.recent invariant.claim_unique before
    (rfl : next.recentBlocks = node.recentBlocks.erase hash) (by rw [nextEq, Node.stage_setStage_self]; rfl)
    fun other apart => by rw [others other apart]
  refine invariant.restage rfl rfl rfl others ?_ recent claimUnique (fun _ found => ?_) ?_ invariant.mempool
  · rw [nextEq, Node.stage_setStage_self, ← heldEq]
    exact List.Subperm.refl _
  · rw [nextEq, Node.stage_setStage_self] at found
    cases found
  · rw [nextEq, Node.stage_setStage_self]
    trivial

/-- An idle thread takes a message and starts on it, holding nothing yet. -/
theorem Invariant.start (invariant : Invariant config checkSignatureBatch policy sizeLimit node inserted)
    {thread : Nat} {job : Job H T} (idle : (node.threads thread).stage = .idle) (unheld : job.stage.held = [])
    (unclaimed : job.stage.claim = none) (notStoring : job.stage.storingHash = none)
    (checked : job.stage.Checked checkSignatureBatch node.chain) :
    Invariant config checkSignatureBatch policy sizeLimit { node with threads := update node.threads thread job }
      inserted := by
  set next := { node with threads := update node.threads thread job } with nextEq
  have jobEq : next.threads thread = job := update_self _ _ _
  have others : ∀ other, other ≠ thread → (next.threads other).stage = (node.threads other).stage :=
    fun other apart => congrArg Job.stage (update_of_ne apart _ _)
  have claimsEq : ∀ other, (next.threads other).stage.claim = (node.threads other).stage.claim := by
    intro other
    by_cases same : other = thread
    · rw [same, jobEq, unclaimed, idle]
      rfl
    · rw [others other same]
  obtain ⟨recent, claimUnique⟩ := claims_of_same invariant.recent invariant.claim_unique
    (rfl : next.recentBlocks = node.recentBlocks) claimsEq
  refine invariant.restage rfl rfl rfl others ?_ recent claimUnique (fun _ found => ?_) ?_ invariant.mempool
  · rw [jobEq, unheld]
    exact List.nil_subperm
  · rw [jobEq, notStoring] at found
    cases found
  · rw [jobEq]
    exact checked

/-- A step that changes no thread and no store a block is held in, and
moves the blockchain along one of its own runs, keeps the invariant. -/
theorem Invariant.reframe (invariant : Invariant config checkSignatureBatch policy sizeLimit node inserted)
    (reachable : Prism.Reachable checkSignatureBatch policy config next.chain inserted)
    (grows : node.chain.Extends next.chain) (blockdbEq : next.blockdb = node.blockdb)
    (mempoolEq : next.mempool = node.mempool) (bufferEq : next.buffer = node.buffer)
    (recentEq : next.recentBlocks = node.recentBlocks) (threadsEq : next.threads = node.threads) :
    Invariant config checkSignatureBatch policy sizeLimit next inserted := by
  have holdsIff : ∀ hash holder, next.Holds config inserted hash holder ↔ node.Holds config inserted hash holder := by
    intro hash holder
    cases holder <;> simp [bufferEq, threadsEq]
  refine ⟨reachable, fun hash holder holds => ?_, fun hash holder other holds holdsOther => ?_, ?_, ?_, ?_, ?_,
    fun thread => ?_, bufferEq ▸ invariant.buffer, mempoolEq ▸ invariant.mempool⟩
  · rw [blockdbEq]
    exact invariant.stored hash holder ((holdsIff hash holder).mp holds)
  · exact invariant.unique hash holder other ((holdsIff hash holder).mp holds) ((holdsIff hash other).mp holdsOther)
  · rw [threadsEq]
    exact invariant.held_nodup
  · rw [recentEq, threadsEq]
    exact invariant.recent
  · rw [threadsEq]
    exact invariant.claim_unique
  · rw [threadsEq, blockdbEq]
    exact invariant.storing_fresh
  · rw [threadsEq]
    exact (invariant.checked thread).of_extends grows

/-- The miner's block: stored, inserted into the blockchain, and held by the
blockchain from then on. -/
theorem Invariant.mine (invariant : Invariant config checkSignatureBatch policy sizeLimit node inserted)
    {block : Block H T} (fresh : node.blockdb.contains block.hash = false) (unclaimed : block.hash ∉ node.recentBlocks)
    (available : Validation.checkDataAvailability node.chain block = .pass)
    (semantic : Validation.checkContentSemantic checkSignatureBatch node.chain block = some .pass)
    (mined : node.insertMined block = some next) :
    Invariant config checkSignatureBatch policy sizeLimit next (inserted ++ [block]) := by
  simp only [Node.insertMined, Node.newValidatedBlock, Option.bind_eq_bind, Option.bind_eq_some_iff] at mined
  obtain ⟨_, ⟨pool, removed, chain, insertedEq, pairEq⟩, nextEq⟩ := mined
  cases pairEq
  cases nextEq
  -- nothing holds the block yet, since what is held is stored
  have unheld : ∀ holder, ¬ node.Holds config inserted block.hash holder := by
    intro holder holds
    have stored := invariant.stored _ holder holds
    rw [fresh] at stored
    cases stored
  have notGenesis : block.hash ∉ node.chain.config.genesisHashes := by
    rw [invariant.reachable.config]
    exact unheld .genesis
  have accepted : Accepted checkSignatureBatch node.chain inserted block :=
    ⟨notGenesis, unheld .chain, available, semantic⟩
  obtain ⟨freshProposer, freshVoter, freshParent⟩ := invariant.reachable.index.keys.fresh notGenesis (unheld .chain)
  have grows := BlockChain.Extends.of_insertBlock insertedEq freshProposer freshVoter freshParent
  obtain ⟨queue, reach⟩ := invariant.mempool
  have moves : ∀ hash holder,
      Holds config { node with blockdb := node.blockdb.insert block, mempool := pool, chain,
                                sent := node.sent ++ [Output.broadcast (.newBlockHashes [block.hash])] }
        (inserted ++ [block]) hash holder →
      node.Holds config inserted hash holder ∨ (hash = block.hash ∧ holder = .chain) := by
    intro hash holder holds
    cases holder with
    | chain =>
        rw [holds_chain, List.map_append, List.mem_append] at holds
        rcases holds with old | added
        · exact .inl old
        · exact .inr ⟨List.mem_singleton.mp added, rfl⟩
    | thread other => exact .inl holds
    | buffer => exact .inl holds
    | genesis => exact .inl holds
  refine ⟨invariant.reachable.insertBlock accepted insertedEq, ?_, ?_, invariant.held_nodup, invariant.recent,
    invariant.claim_unique, fun thread hash found => ?_, fun thread => (invariant.checked thread).of_extends grows,
    invariant.buffer, reachable_removeTransactions reach removed⟩
  · refine stored_of_moves config invariant.stored (fun hash stored => ?_) moves fun hash isMoved => ?_
    · simp [BlockDatabase.insert, stored]
    · simp [BlockDatabase.insert, isMoved]
  · exact unique_of_moves config invariant.unique moves fun hash isMoved holder holds => absurd (isMoved ▸ holds)
      (unheld holder)
  · -- a thread stores a hash it claimed, and the miner's hash is claimed by none
    have apart : hash ≠ block.hash := by
      rintro rfl
      exact unclaimed ((invariant.recent block.hash).mpr ⟨thread, Stage.storingHash_claim found⟩)
    simpa [BlockDatabase.insert, apart] using invariant.storing_fresh thread hash found

omit [Hashable (Header H) H] [DecidableEq H] [Inhabited H] [Hashable T H] in
/-- A step that inserts nothing leaves the inserted blocks as they were. -/
theorem append_insertion {stage : Stage H T} (noInsertion : stage.insertion = none) :
    inserted ++ stage.insertion.toList = inserted := by
  rw [noInsertion, Option.toList_none, List.append_nil]

end Steps

/-! ## Runs -/

section Runs

variable {config} [DecidableEq H] [Inhabited H] [Hashable T H] {checkSignatureBatch : List T → Bool}
  {policy : ConfirmationPolicy H} {sizeLimit : Nat} {node next : Node H T} {inserted : List (Block H T)}

/-- A new node: the genesis blocks are stored, and nothing else is held. -/
theorem invariant_new {defaultDifficulty : H} (created : Node.new config defaultDifficulty sizeLimit = some node) :
    Invariant config checkSignatureBatch policy sizeLimit node [] := by
  simp only [Node.new, Option.bind_eq_bind, Option.bind_eq_some_iff, Option.some.injEq] at created
  obtain ⟨blockdb, stored, rfl⟩ := created
  -- only the genesis configuration holds a block
  have onlyGenesis : ∀ hash holder, Holds config
      ⟨BlockChain.new config, blockdb, MemoryPool.new sizeLimit, BlockBuffer.new, ∅, ∅, fun _ => ⟨0, .idle⟩, []⟩
      ([] : List (Block H T)) hash holder → holder = .genesis := by
    intro hash holder holds
    cases holder with
    | thread thread => cases holds
    | buffer => cases holds
    | chain => cases holds
    | genesis => rfl
  refine ⟨.new, fun hash holder holds => ?_, fun hash holder other holds holdsOther => ?_, fun _ => List.nodup_nil,
    fun hash => ?_, (fun _ _ _ claimed => by cases claimed), (fun _ _ found => by cases found), fun _ => trivial,
    BlockBuffer.invariant_new, ⟨[], .new⟩⟩
  · rw [onlyGenesis hash holder holds] at holds
    exact BlockDatabase.contains_new stored hash holds
  · rw [onlyGenesis hash holder holds, onlyGenesis hash other holdsOther]
  · simp [Stage.claim]

/-- An idle thread's taking a message keeps the invariant: a reply changes
only what is sent, and any other message starts the thread on it. -/
theorem Invariant.receive (invariant : Invariant config checkSignatureBatch policy sizeLimit node inserted)
    {thread peer : Nat} {message : Message H T} (idle : (node.threads thread).stage = .idle) :
    Invariant config checkSignatureBatch policy sizeLimit (node.receive thread peer message) inserted := by
  have quiet : ∀ sent, Invariant config checkSignatureBatch policy sizeLimit { node with sent } inserted :=
    fun _ => invariant.reframe invariant.reachable (.refl _) rfl rfl rfl rfl rfl
  cases message with
  | ping nonce => exact quiet _
  | pong nonce => exact invariant
  | newBlockHashes hashes => exact invariant.start idle rfl rfl rfl trivial
  | getBlocks hashes => exact quiet _
  | blocks blocks => exact invariant.start idle rfl rfl rfl trivial
  | newTransactionHashes hashes =>
      simp only [Node.receive]
      split
      · exact invariant
      · exact quiet _
  | getTransactions hashes => exact quiet _
  | transactions transactions => exact invariant.start idle rfl rfl rfl trivial
  | bootstrap after => exact invariant

/-- The ledger manager's step keeps the invariant: `update_ledger` is a step
of the blockchain's runs that takes away nothing validation reads. -/
theorem Invariant.updateTransactionSequence
    (invariant : Invariant config checkSignatureBatch policy sizeLimit node inserted) {fuel : Nat}
    (updated : node.updateTransactionSequence policy fuel = some next) :
    Invariant config checkSignatureBatch policy sizeLimit next inserted := by
  simp only [Node.updateTransactionSequence, Option.bind_eq_bind, Option.bind_eq_some_iff, Option.some.injEq]
    at updated
  obtain ⟨⟨chain, added, removed⟩, ledgerUpdated, batches, -, rfl⟩ := updated
  exact invariant.reframe (invariant.reachable.updateLedger ledgerUpdated)
    (.of_ledgerFrame (BlockChain.updateLedger_frame ledgerUpdated)) rfl rfl rfl rfl rfl

variable (hashPair : H → H → H) (sortition : SortitionConfig) [Hashable (Content H T) H] [AsU256 H] [Ord H]

/-- Every step of a worker thread keeps the invariant, and adds to the
inserted blocks the one it hands to `insert_block`. -/
theorem Invariant.advance (invariant : Invariant config checkSignatureBatch policy sizeLimit node inserted)
    {thread : Nat} (advanced : node.advance hashPair sortition checkSignatureBatch thread = some next) :
    Invariant config checkSignatureBatch policy sizeLimit next
      (inserted ++ (node.threads thread).stage.insertion.toList) := by
  obtain ⟨queue, reach⟩ := invariant.mempool
  -- one case for each arm of `advance`
  cases stageEq : (node.threads thread).stage with
  | idle =>
      simp only [Node.advance, stageEq, Option.some.injEq] at advanced
      rw [append_insertion rfl, ← advanced]
      exact invariant
  | lookingUp hashes toRequest =>
      rw [append_insertion rfl]
      cases hashes with
      | nil =>
          simp only [Node.advance, stageEq, Option.some.injEq] at advanced
          split at advanced <;> rw [← advanced] <;>
            exact invariant.setStage rfl rfl rfl rfl rfl List.nil_subperm (by rw [stageEq]; rfl)
              (fun _ found => by cases found) trivial ⟨queue, reach⟩
      | cons hash hashes =>
          simp only [Node.advance, stageEq, Option.some.injEq] at advanced
          rw [← advanced]
          exact invariant.setStage rfl rfl rfl rfl rfl List.nil_subperm (by rw [stageEq]; rfl)
            (fun _ found => by cases found) trivial ⟨queue, reach⟩
  | adding transactions =>
      rw [append_insertion rfl]
      cases transactions with
      | nil =>
          simp only [Node.advance, stageEq, Option.some.injEq] at advanced
          rw [← advanced]
          exact invariant.setStage rfl rfl rfl rfl rfl List.nil_subperm (by rw [stageEq]; rfl)
            (fun _ found => by cases found) trivial ⟨queue, reach⟩
      | cons tx transactions =>
          simp only [Node.advance, stageEq, Option.bind_eq_bind, Option.bind_eq_some_iff, Option.some.injEq]
            at advanced
          obtain ⟨mempool, added, advanced⟩ := advanced
          rw [← advanced]
          exact invariant.setStage rfl rfl rfl rfl rfl List.nil_subperm (by rw [stageEq]; rfl)
            (fun _ found => by cases found) trivial (reachable_newTransaction reach added)
  | decoding progress =>
      rw [append_insertion rfl]
      obtain ⟨encoded, blocks⟩ := progress
      cases encoded with
      | nil =>
          simp only [Node.advance, stageEq] at advanced
          split at advanced
          · rw [← Option.some.inj advanced]
            exact invariant.setStage rfl rfl rfl rfl rfl List.nil_subperm (by rw [stageEq]; rfl)
              (fun _ found => by cases found) trivial ⟨queue, reach⟩
          · rw [← Option.some.inj advanced]
            -- the stored blocks go on the stack `to_process`, the last stored on top
            have reversed : (blocks.reverse.map Block.hash).Subperm (blocks.map Block.hash) := by
              rw [List.map_reverse]
              exact (List.reverse_perm _).subperm
            exact invariant.setStage rfl rfl rfl rfl rfl (by rw [stageEq]; exact reversed) (by rw [stageEq]; rfl)
              (fun _ found => by cases found) trivial ⟨queue, reach⟩
      | cons block encoded =>
          simp only [Node.advance, stageEq, Option.bind_eq_bind, Option.bind_eq_some_iff] at advanced
          obtain ⟨powCheck, -, advanced⟩ := advanced
          split at advanced <;> rw [← Option.some.inj advanced] <;>
            exact invariant.setStage rfl rfl rfl rfl rfl (by rw [stageEq]; exact .refl _) (by rw [stageEq]; rfl)
              (fun _ found => by cases found) trivial ⟨queue, reach⟩
  | arrived block progress =>
      rw [append_insertion rfl]
      simp only [Node.advance, stageEq] at advanced
      split at advanced
      · rw [← Option.some.inj advanced]
        exact invariant.setStage rfl rfl rfl rfl rfl (by rw [stageEq]; exact .refl _) (by rw [stageEq]; rfl)
          (fun _ found => by cases found) trivial ⟨queue, reach⟩
      · rename_i fresh
        rw [← Option.some.inj advanced]
        exact invariant.claim stageEq fresh
  | claimed block progress =>
      rw [append_insertion rfl]
      simp only [Node.advance, stageEq] at advanced
      split at advanced
      · rw [← Option.some.inj advanced]
        exact invariant.unclaim (by rw [stageEq]; rfl) (by rw [stageEq]; rfl)
      · rename_i absent
        rw [← Option.some.inj advanced]
        refine invariant.setStage rfl rfl rfl rfl rfl (by rw [stageEq]; exact .refl _) (by rw [stageEq]; rfl)
          (fun _ found => ?_) trivial ⟨queue, reach⟩
        -- the thread goes on to store the block it found missing
        cases found
        simpa using absent
  | storing block progress =>
      rw [append_insertion rfl]
      simp only [Node.advance, stageEq, Option.some.injEq] at advanced
      rw [← advanced]
      exact invariant.store stageEq
  | stored block progress =>
      rw [append_insertion rfl]
      obtain ⟨encoded, blocks⟩ := progress
      simp only [Node.advance, stageEq, Option.some.injEq] at advanced
      rw [← advanced]
      exact invariant.unclaim (by rw [stageEq]; rfl) (by rw [stageEq]; rfl)
  | processing pending =>
      rw [append_insertion rfl]
      obtain ⟨toProcess, toRequest, signals⟩ := pending
      cases toProcess with
      | nil =>
          simp only [Node.advance, stageEq, Option.some.injEq] at advanced
          rw [← advanced]
          exact invariant.setStage rfl rfl rfl rfl rfl List.nil_subperm (by rw [stageEq]; rfl)
            (fun _ found => by cases found) trivial ⟨queue, reach⟩
      | cons block toProcess =>
          simp only [Node.advance, stageEq] at advanced
          split at advanced
          · rename_i available
            rw [← Option.some.inj advanced]
            exact invariant.setStage rfl rfl rfl rfl rfl (by rw [stageEq]; exact .refl _) (by rw [stageEq]; rfl)
              (fun _ found => by cases found) available ⟨queue, reach⟩
          · rename_i missing missed
            rw [← Option.some.inj advanced]
            exact invariant.park stageEq missed
          · cases advanced
  | available block pending =>
      rw [append_insertion rfl]
      simp only [Node.advance, stageEq, Option.bind_eq_bind, Option.bind_eq_some_iff] at advanced
      obtain ⟨sortitionProof, -, advanced⟩ := advanced
      have checked := invariant.checked thread
      rw [stageEq] at checked
      -- a block that fails a check is dropped, and the thread goes on with the stack
      split at advanced
      · rw [Option.bind_eq_some_iff] at advanced
        obtain ⟨contentSemantic, semantic, advanced⟩ := advanced
        split at advanced
        · rw [← Option.some.inj advanced]
          exact invariant.setStage rfl rfl rfl rfl rfl (by rw [stageEq]; exact .refl _) (by rw [stageEq]; rfl)
            (fun _ found => by cases found) ⟨checked, semantic⟩ ⟨queue, reach⟩
        · rw [← Option.some.inj advanced]
          exact invariant.setStage rfl rfl rfl rfl rfl (by rw [stageEq]; exact List.Subperm.cons_self)
            (by rw [stageEq]; rfl) (fun _ found => by cases found) trivial ⟨queue, reach⟩
      · rw [← Option.some.inj advanced]
        exact invariant.setStage rfl rfl rfl rfl rfl (by rw [stageEq]; exact List.Subperm.cons_self)
          (by rw [stageEq]; rfl) (fun _ found => by cases found) trivial ⟨queue, reach⟩
  | validated block pending =>
      rw [append_insertion rfl]
      simp only [Node.advance, stageEq, Option.bind_eq_bind, Option.bind_eq_some_iff, Option.some.injEq] at advanced
      obtain ⟨mempool, removed, advanced⟩ := advanced
      have checked := invariant.checked thread
      rw [stageEq] at checked
      rw [← advanced]
      exact invariant.setStage rfl rfl rfl rfl rfl (by rw [stageEq]; exact .refl _) (by rw [stageEq]; rfl)
        (fun _ found => by cases found) checked (reachable_removeTransactions reach removed)
  | cleared block pending =>
      simp only [Node.advance, stageEq, Option.bind_eq_bind, Option.bind_eq_some_iff, Option.some.injEq] at advanced
      obtain ⟨chain, insertedEq, advanced⟩ := advanced
      rw [← advanced]
      exact invariant.insertBlock stageEq insertedEq
  | inserted block pending =>
      rw [append_insertion rfl]
      obtain ⟨toProcess, toRequest, signals⟩ := pending
      simp only [Node.advance, stageEq, Option.bind_eq_bind, Option.bind_eq_some_iff, Option.some.injEq] at advanced
      obtain ⟨⟨buffer, resolved⟩, satisfied, advanced⟩ := advanced
      rw [← advanced]
      exact invariant.release stageEq satisfied

variable {defaultDifficulty : H}

/-- Every state of every run of the node keeps the invariant. -/
theorem Reachable.invariant
    (reach : Node.Reachable hashPair sortition checkSignatureBatch config defaultDifficulty sizeLimit policy node inserted) :
    Invariant config checkSignatureBatch policy sizeLimit node inserted := by
  induction reach with
  | new created => exact invariant_new created
  | receive _ idle invariant => exact invariant.receive idle
  | advance _ advanced invariant => exact invariant.advance hashPair sortition advanced
  | updateLedger _ updated invariant => exact invariant.updateTransactionSequence updated
  | mine _ fresh unclaimed available semantic mined invariant =>
      exact invariant.mine fresh unclaimed available semantic mined

/-! ## What every run of the node keeps -/

section Reach

namespace NatHash

/-- For concrete runs, a transaction is its own hash. -/
scoped instance transactions : Hashable Nat Nat := ⟨id⟩

/-- For concrete runs, every content hashes to zero. -/
scoped instance contents : Hashable (Content Nat Nat) Nat := ⟨fun _ => 0⟩

end NatHash

end Reach

end Runs

end Node

end Network
end Prism
