import Prism.Invariant.Ledger

/-!
# Transaction references

`check_data_availability` accepts a transaction reference of a proposer block
when `contains_transaction` finds it, and that function only asks whether the
referred block has a proposer parent.  The voter genesis blocks and every
inserted block have one, whatever their content, and no check asks whether a
transaction block is referred to already.  What validation guarantees is
therefore weaker than that transaction references name transaction blocks,
each once: along every run they name voter genesis blocks or inserted blocks,
and so does every hash that `update_ledger` adds to the ledger.

Two accepted runs over one voter chain show that no more holds.  In the first
a proposer block names the voter genesis block as a transaction block and is
confirmed, so the ledger manager receives a voter block to execute.  In the
second two proposer blocks mined from the same view of
`unreferred_transactions` name one transaction block, and both are confirmed.
A repetition needs such a stale view: along a run whose proposer blocks name
only unreferred transaction blocks, each once, the ledger's transaction
sequence and every list `update_ledger` adds have no repetition.
-/

namespace Prism

namespace BlockChain

variable {H : Type} [DecidableEq H] {chain next : BlockChain H}

/-! ## The transaction references of a list of blocks -/

section Refs

omit [DecidableEq H] in
/-- Every transaction reference of a list of blocks is a reference of one of
them. -/
theorem mem_transactionRefs {blocks refs : List H} (given : chain.transactionRefs blocks = some refs) :
    ∀ ref ∈ refs, ∃ block ∈ blocks, ∃ blockRefs, chain.transactionRefNeighbor block = some blockRefs ∧
      ref ∈ blockRefs := by
  simp only [transactionRefs, Option.bind_eq_bind] at given
  exact List.mem_foldlM_option_append chain.transactionRefNeighbor given

/-- Each transaction block is referred to at most once: no reference list
names a block twice, and the lists of two proposer blocks share none. -/
structure RefsOnce (chain : BlockChain H) : Prop where
  /-- No reference list repeats a block. -/
  nodup : ∀ block refs, chain.transactionRefNeighbor block = some refs → refs.Nodup
  /-- Two reference lists share no block. -/
  disjoint : ∀ block other refs otherRefs, block ≠ other → chain.transactionRefNeighbor block = some refs →
    chain.transactionRefNeighbor other = some otherRefs → ∀ ref ∈ refs, ref ∉ otherRefs

omit [DecidableEq H] in
theorem RefsOnce.of_agree (once : chain.RefsOnce)
    (same : next.transactionRefNeighbor = chain.transactionRefNeighbor) : next.RefsOnce := by
  constructor
  · intro block refs refsEq
    rw [same] at refsEq
    exact once.nodup block refs refsEq
  · intro block other refs otherRefs ne refsEq otherEq
    rw [same] at refsEq otherEq
    exact once.disjoint block other refs otherRefs ne refsEq otherEq

omit [DecidableEq H] in
/-- The transaction references of distinct blocks, each referred to once,
have no repetition. -/
theorem RefsOnce.nodup_transactionRefs (once : chain.RefsOnce) {blocks refs : List H} (distinct : blocks.Nodup)
    (given : chain.transactionRefs blocks = some refs) : refs.Nodup := by
  simp only [transactionRefs, Option.bind_eq_bind] at given
  exact List.nodup_foldlM_option_append chain.transactionRefNeighbor once.nodup once.disjoint distinct given

theorem refsOnce_new [Inhabited H] (config : BlockchainConfig H) : (new config).RefsOnce := by
  -- the proposer genesis block refers to no transaction block, and no other block has a list
  have empty : ∀ block refs, (new config).transactionRefNeighbor block = some refs → refs = [] := by
    intro block refs refsEq
    by_cases same : block = config.proposerGenesis
    · subst same
      simp only [new_transactionRefNeighbor, Function.update_self, Option.some.injEq] at refsEq
      exact refsEq.symm
    · simp [same] at refsEq
  constructor
  · intro block refs refsEq
    rw [empty block refs refsEq]
    exact List.nodup_nil
  · intro block _ refs _ _ refsEq _ ref member
    rw [empty block refs refsEq] at member
    cases member

/-- Inserting a proposer block with a fresh hash whose transaction references
are unreferred transaction blocks, each named once, keeps every transaction
block referred to at most once. -/
theorem RefsOnce.addProposer (once : chain.RefsOnce) (unreferred : chain.Unreferred) {blockHash parentHash : H}
    {timestamp parentLevel : Nat} {content : ProposerContent H}
    (fresh : chain.transactionRefNeighbor blockHash = none) (distinct : content.transactionRefs.Nodup)
    (unreferredRefs : ∀ ref ∈ content.transactionRefs, (chain.unreferredTransactions ref).isSome) :
    (chain.addProposer blockHash parentHash timestamp parentLevel content).RefsOnce := by
  -- an unreferred transaction block is in no reference list yet
  have notReferred : ∀ ref ∈ content.transactionRefs, ∀ block refs,
      chain.transactionRefNeighbor block = some refs → ref ∉ refs :=
    fun ref member => ((unreferred.transactions ref).mp (unreferredRefs ref member)).2
  -- the lists of the other blocks are those before
  have other : ∀ block, block ≠ blockHash →
      (chain.addProposer blockHash parentHash timestamp parentLevel content).transactionRefNeighbor block =
        chain.transactionRefNeighbor block :=
    fun block ne => by rw [addProposer_transactionRefNeighbor, Function.update_of_ne ne]
  have own : (chain.addProposer blockHash parentHash timestamp parentLevel content).transactionRefNeighbor
      blockHash = some content.transactionRefs := by
    rw [addProposer_transactionRefNeighbor, Function.update_self]
  constructor
  · intro block refs refsEq
    by_cases same : block = blockHash
    · subst same
      rw [own, Option.some.injEq] at refsEq
      exact refsEq ▸ distinct
    · rw [other block same] at refsEq
      exact once.nodup block refs refsEq
  · intro block otherBlock refs otherRefs ne refsEq otherEq ref member otherMember
    by_cases blockNew : block = blockHash
    · subst blockNew
      rw [own, Option.some.injEq] at refsEq
      subst refsEq
      rw [other otherBlock (Ne.symm ne)] at otherEq
      exact notReferred ref member otherBlock otherRefs otherEq otherMember
    · rw [other block blockNew] at refsEq
      by_cases otherNew : otherBlock = blockHash
      · subst otherNew
        rw [own, Option.some.injEq] at otherEq
        subst otherEq
        exact notReferred ref otherMember block refs refsEq member
      · rw [other otherBlock otherNew] at otherEq
        exact once.disjoint block otherBlock refs otherRefs ne refsEq otherEq ref member otherMember

end Refs

end BlockChain

/-! ## What validation guarantees -/

section Run

variable {H T : Type} [DecidableEq H] [Hashable (Header H) H] [Inhabited H]
  {checkSignatureBatch : List T → Bool} {policy : ConfirmationPolicy H} {config : BlockchainConfig H}
  {chain : BlockChain H} {inserted : List (Block H T)}

/-- In every reachable state `contains_transaction` finds exactly the voter
genesis blocks and the inserted blocks, whatever their content. -/
theorem Reachable.containsTransaction_iff (reachable : Reachable checkSignatureBatch policy config chain inserted)
    (hash : H) :
    chain.containsTransaction hash = true ↔ hash ∈ config.voterGenesis ∨ hash ∈ inserted.map Block.hash := by
  rw [BlockChain.containsTransaction, ← reachable.config]
  exact reachable.index.keys.parent hash

/-- In every reachable state every transaction reference names a voter
genesis block or an inserted block. -/
theorem Reachable.transactionRef_mem (reachable : Reachable checkSignatureBatch policy config chain inserted)
    {block : H} {refs : List H} (refsEq : chain.transactionRefNeighbor block = some refs) {ref : H}
    (member : ref ∈ refs) : ref ∈ config.voterGenesis ∨ ref ∈ inserted.map Block.hash :=
  (reachable.containsTransaction_iff ref).mp (reachable.index.proposers.transactionRefs_parent block refs refsEq ref member)

/-- Every hash `update_ledger` adds to the ledger from a reachable state names
a voter genesis block or an inserted block. -/
theorem Reachable.updateLedger_added_mem (reachable : Reachable checkSignatureBatch policy config chain inserted)
    {fuel : Nat} {next : BlockChain H} {added removed : List H}
    (updated : chain.updateLedger policy fuel = some (next, added, removed)) :
    ∀ hash ∈ added, hash ∈ config.voterGenesis ∨ hash ∈ inserted.map Block.hash := by
  have index := reachable.index
  obtain ⟨_, _, _, _, addedBlocks, _, _, _, _, _, addedEq, _⟩ :=
    reachable.ledgerState.updateLedger_spec reachable.voteTable index.voters index.proposers updated
  intro hash member
  obtain ⟨_, _, refs, refsEq, inRefs⟩ := BlockChain.mem_transactionRefs addedEq hash member
  exact reachable.transactionRef_mem refsEq inRefs

end Run

/-! ## A voter genesis block confirmed as a transaction block -/

/-- A proposer block over the genesis that names the voter genesis block `1`
as a transaction block. -/
def voterGenesisRef : Block Nat Nat :=
  ⟨runHeader 0 2, .proposer { transactionRefs := [1], proposerRefs := [] }, []⟩

/-- A vote for `voterGenesisRef`, on the one voter chain. -/
def voterGenesisRefVote : Block Nat Nat :=
  ⟨runHeader 2 3, .voter { chainNumber := 0, voterParent := 1, votes := [2] }, []⟩

/-- Both blocks pass every check, and once the vote is in `update_ledger`
confirms the proposer block and adds the voter genesis block to the ledger
as a transaction block. -/
theorem voterGenesis_confirmed_as_transaction :
    ∃ (chain : BlockChain Nat) (inserted : List (Block Nat Nat)),
      Reachable (fun _ : List Nat => true) firstBlockPolicy singleChainConfig chain inserted ∧
      ∃ block ∈ inserted, ∃ content, block.content = .proposer content ∧
        ∃ refs hash, chain.transactionRefNeighbor block.hash = some refs ∧ hash ∈ refs ∧
          hash ∈ singleChainConfig.voterGenesis ∧
          (¬ ∃ transaction ∈ inserted, transaction.hash = hash ∧
            ∃ transactions, transaction.content = .transaction transactions) ∧
          ∃ next added removed, chain.updateLedger firstBlockPolicy 2 = some (next, added, removed) ∧
            hash ∈ added := by
  have run : Reachable (fun _ : List Nat => true) firstBlockPolicy singleChainConfig _
      [voterGenesisRef, voterGenesisRefVote] :=
    .insertBlock (.insertBlock .new ⟨by decide, by decide, by decide, by decide⟩ rfl)
      ⟨by decide, by decide, by decide, by decide⟩ rfl
  refine ⟨_, _, run, voterGenesisRef, by decide, _, rfl, [1], 1, rfl, by decide, by decide, ?_,
    _, _, _, (Option.some_get (by decide)).symm, by decide⟩
  -- neither inserted block is a transaction block
  rintro ⟨transaction, member, -, transactions, contentEq⟩
  simp only [List.mem_cons, List.not_mem_nil, or_false] at member
  rcases member with rfl | rfl <;> cases contentEq

/-! ## Transaction blocks referred to once -/

section Fresh

variable {H T : Type} [DecidableEq H] [Hashable (Header H) H]

/-- A block mined from an up-to-date view of the blockchain: a proposer
block's transaction references are unreferred transaction blocks, each named
once, as `miner_loop` takes them from `unreferred_transactions` when no block
is inserted between reading them and inserting the block. -/
def MinedFresh (chain : BlockChain H) (block : Block H T) : Prop :=
  ∀ content, block.content = .proposer content →
    content.transactionRefs.Nodup ∧ ∀ ref ∈ content.transactionRefs, (chain.unreferredTransactions ref).isSome

/-- The runs of `Reachable` whose proposer blocks are all mined from an
up-to-date view. -/
inductive FreshRun [Inhabited H] (checkSignatureBatch : List T → Bool) (policy : ConfirmationPolicy H)
    (config : BlockchainConfig H) : BlockChain H → List (Block H T) → Prop
  | new : FreshRun checkSignatureBatch policy config (BlockChain.new config) []
  | insertBlock {chain : BlockChain H} {inserted : List (Block H T)} {block : Block H T}
      {next : BlockChain H} :
      FreshRun checkSignatureBatch policy config chain inserted →
      Accepted checkSignatureBatch chain inserted block → MinedFresh chain block →
      chain.insertBlock block = some next →
      FreshRun checkSignatureBatch policy config next (inserted ++ [block])
  | updateLedger {chain : BlockChain H} {inserted : List (Block H T)} {fuel : Nat}
      {next : BlockChain H} {added removed : List H} :
      FreshRun checkSignatureBatch policy config chain inserted →
      chain.updateLedger policy fuel = some (next, added, removed) →
      FreshRun checkSignatureBatch policy config next inserted

variable [Inhabited H] {checkSignatureBatch : List T → Bool} {policy : ConfirmationPolicy H}
  {config : BlockchainConfig H} {chain : BlockChain H} {inserted : List (Block H T)}

/-- A fresh run is a run. -/
theorem FreshRun.reachable (run : FreshRun checkSignatureBatch policy config chain inserted) :
    Reachable checkSignatureBatch policy config chain inserted := by
  induction run with
  | new => exact .new
  | insertBlock _ accepted _ insertedEq inductionHypothesis => exact .insertBlock inductionHypothesis accepted insertedEq
  | updateLedger _ updated inductionHypothesis => exact .updateLedger inductionHypothesis updated

/-- Along a fresh run every transaction block is referred to at most once. -/
theorem FreshRun.refsOnce (run : FreshRun checkSignatureBatch policy config chain inserted) :
    chain.RefsOnce := by
  induction run with
  | new => exact BlockChain.refsOnce_new config
  | @insertBlock before _ block _ previous accepted mined insertedEq inductionHypothesis =>
      have index := previous.reachable.index
      obtain ⟨freshProposer, _, _⟩ := index.keys.fresh accepted.fresh_genesis accepted.fresh_received
      rcases BlockChain.insertBlock_eq_some insertedEq with ⟨content, _, contentEq, _, rfl⟩ |
        ⟨_, _, _, _, _, _, _, _, _, _, rfl⟩ | ⟨_, _, rfl⟩
      · -- the new block has no reference list yet, since it has no level
        have fresh : before.transactionRefNeighbor block.hash = none := by
          rw [← Option.not_isSome_iff_eq_none, index.proposers.transactionRefs_isSome, freshProposer]
          exact Bool.false_ne_true
        obtain ⟨distinct, unreferredRefs⟩ := mined content contentEq
        exact inductionHypothesis.addProposer index.unreferred fresh distinct unreferredRefs
      · exact inductionHypothesis.of_agree rfl
      · exact inductionHypothesis.of_agree rfl
  | updateLedger _ updated inductionHypothesis =>
      exact inductionHypothesis.of_agree (by rw [BlockChain.updateLedger_frame updated]; rfl)

/-- Along a run whose proposer blocks are all mined from an up-to-date view,
no transaction block is confirmed twice: the transaction references of the
ledger have no repetition, and neither has the list of transaction blocks
that a call of `update_ledger` adds. -/
theorem FreshRun.transactionRefs_nodup (run : FreshRun checkSignatureBatch policy config chain inserted) :
    (∃ refs, chain.transactionRefs chain.ledger = some refs ∧ refs.Nodup) ∧
      ∀ {fuel : Nat} {next : BlockChain H} {added removed : List H},
        chain.updateLedger policy fuel = some (next, added, removed) → added.Nodup := by
  have reachable := run.reachable
  have state := reachable.ledgerState
  have index := reachable.index
  have once := run.refsOnce
  refine ⟨?_, fun updated => ?_⟩
  · obtain ⟨refs, given⟩ := BlockChain.transactionRefs_isSome fun block member =>
      state.transactionRefNeighbor_isSome index.proposers member
    exact ⟨refs, given, once.nodup_transactionRefs state.confirmed.nodup given⟩
  · obtain ⟨nextState, _, keep, _, addedBlocks, _, _, _, nextSplit, _, addedEq, _⟩ :=
      state.updateLedger_spec reachable.voteTable index.voters index.proposers updated
    -- the added blocks end the new ledger, which has no repetition
    have distinct : addedBlocks.Nodup := by
      have ledgerNodup := nextState.confirmed.nodup
      rw [BlockChain.ledger] at nextSplit
      rw [nextSplit] at ledgerNodup
      exact ledgerNodup.of_append_right
    exact once.nodup_transactionRefs distinct addedEq

theorem transactionRefs_nodup_sample :
    FreshRun (fun _ : List Nat => true) votedBlockPolicy singleChainConfig sampleForked
        (sampleBlocks ++ [sampleForkNext, sampleForkTip]) ∧
      sampleForked.transactionRefs sampleForked.ledger = some [3] ∧
      sampleForked.updateLedger votedBlockPolicy 4 = some (sampleReorged, [3], [3]) ∧
      (∃ refs, sampleForked.transactionRefs sampleForked.ledger = some refs ∧ refs.Nodup) ∧
      ∀ {fuel : Nat} {next : BlockChain Nat} {added removed : List Nat},
        sampleForked.updateLedger votedBlockPolicy fuel = some (next, added, removed) → added.Nodup := by
  -- each proposer block refers to unreferred transaction blocks, each once
  have run : FreshRun (fun _ : List Nat => true) votedBlockPolicy singleChainConfig sampleForked
      (sampleBlocks ++ [sampleForkNext, sampleForkTip]) :=
    .insertBlock (.insertBlock (.updateLedger (.insertBlock (.insertBlock (.insertBlock
      (.updateLedger (.insertBlock (.insertBlock (.insertBlock (.insertBlock .new
      ⟨by decide, by decide, by decide, by decide⟩ (by intro _ contentEq; cases contentEq) rfl)
      ⟨by decide, by decide, by decide, by decide⟩ (by intro _ contentEq; cases contentEq; decide) rfl)
      ⟨by decide, by decide, by decide, by decide⟩ (by intro _ contentEq; cases contentEq; decide) rfl)
      ⟨by decide, by decide, by decide, by decide⟩ (by intro _ contentEq; cases contentEq) rfl)
      sampleVoted_updateLedger)
      ⟨by decide, by decide, by decide, by decide⟩ (by intro _ contentEq; cases contentEq) rfl)
      ⟨by decide, by decide, by decide, by decide⟩ (by intro _ contentEq; cases contentEq; decide) rfl)
      ⟨by decide, by decide, by decide, by decide⟩ (by intro _ contentEq; cases contentEq) rfl)
      sampleChain_updateLedger)
      ⟨by decide, by decide, by decide, by decide⟩ (by intro _ contentEq; cases contentEq) rfl)
      ⟨by decide, by decide, by decide, by decide⟩ (by intro _ contentEq; cases contentEq) rfl
  exact ⟨run, by decide, sampleForked_updateLedger, FreshRun.transactionRefs_nodup run⟩

end Fresh

/-! ## A transaction block confirmed twice -/

/-- A transaction block over the genesis. -/
def sharedTransaction : Block Nat Nat :=
  ⟨runHeader 0 3, .transaction { transactions := [] }, []⟩

/-- A proposer block that refers to `sharedTransaction`, mined after it arrived. -/
def firstSharer : Block Nat Nat :=
  ⟨runHeader 0 2, .proposer { transactionRefs := [3], proposerRefs := [] }, []⟩

/-- A proposer block of the same level that refers to `sharedTransaction`,
mined concurrently from the same view of `unreferred_transactions`. -/
def secondSharer : Block Nat Nat :=
  ⟨runHeader 0 4, .proposer { transactionRefs := [3], proposerRefs := [] }, []⟩

/-- A proposer block over `firstSharer` that refers to `secondSharer`, which
is unreferred once both are in. -/
def sharersRef : Block Nat Nat :=
  ⟨runHeader 2 5, .proposer { transactionRefs := [], proposerRefs := [4] }, []⟩

/-- A vote for `firstSharer` and `sharersRef`, on the one voter chain. -/
def sharersVote : Block Nat Nat :=
  ⟨runHeader 5 6, .voter { chainNumber := 0, voterParent := 1, votes := [2, 5] }, []⟩

/-- Every block passes every check, and once the vote is in `update_ledger`
confirms both sharers: it adds the shared transaction block twice, and the
transaction sequence of the ledger that `proposer_transaction_in_ledger`
reads names it twice.  The second sharer is not mined fresh, since the first
already refers to the block when it is inserted. -/
theorem transaction_confirmed_twice :
    ∃ (chain : BlockChain Nat) (inserted : List (Block Nat Nat)),
      Reachable (fun _ : List Nat => true) firstBlockPolicy singleChainConfig chain inserted ∧
      ∃ next added removed, chain.updateLedger firstBlockPolicy 6 = some (next, added, removed) ∧ ¬ added.Nodup ∧
        ∃ sequence, next.proposerTransactionInLedger next.proposerLedgerTip = some sequence ∧
          ¬ (sequence.flatMap Prod.snd).Nodup := by
  have run : Reachable (fun _ : List Nat => true) firstBlockPolicy singleChainConfig _
      [sharedTransaction, firstSharer, secondSharer, sharersRef, sharersVote] :=
    .insertBlock (.insertBlock (.insertBlock (.insertBlock (.insertBlock .new
      ⟨by decide, by decide, by decide, by decide⟩ rfl)
      ⟨by decide, by decide, by decide, by decide⟩ rfl)
      ⟨by decide, by decide, by decide, by decide⟩ rfl)
      ⟨by decide, by decide, by decide, by decide⟩ rfl)
      ⟨by decide, by decide, by decide, by decide⟩ rfl
  exact ⟨_, _, run, _, _, _, (Option.some_get (by decide)).symm, by decide, _,
    (Option.some_get (by decide)).symm, by decide⟩

end Prism
