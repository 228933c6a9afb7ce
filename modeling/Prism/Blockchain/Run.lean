import Prism.Blockchain.Ledger
import Prism.Validation

/-!
# Runs of a node's blockchain

The blockchain of a node is created by `BlockChain::new` and then changed by
two threads: the worker, which inserts each received block once it passes
validation, and the ledger manager, which calls `update_ledger` in a loop.
Each call is taken as one atomic step, so a run is a sequence of calls.  The
worker hands a block to `insert_block` only when it has not seen
its hash before (genesis blocks are in the block database from the start),
when `check_data_availability` finds every reference, and when
`check_content_semantic` passes; blocks that the local miner produces are
built from the blockchain's own indices so that they pass the same checks.

`Reachable` records, with the state, the blocks inserted so far.
-/

namespace Prism

variable {H T : Type} [Hashable (Header H) H]

/-- The hashes of the genesis blocks. -/
def BlockchainConfig.genesisHashes (config : BlockchainConfig H) : List H :=
  config.proposerGenesis :: config.voterGenesis

/-- A block the worker passes to `insert_block` after `received`: a hash it
has not seen, every reference present, and the content semantics checked. -/
structure Accepted (checkSignatureBatch : List T → Bool) (chain : BlockChain H)
    (received : List (Block H T)) (block : Block H T) : Prop where
  /-- Not a genesis block. -/
  fresh_genesis : block.hash ∉ chain.config.genesisHashes
  /-- Not a block inserted before. -/
  fresh_received : block.hash ∉ received.map Block.hash
  /-- `check_data_availability` passes. -/
  available : Validation.checkDataAvailability chain block = .pass
  /-- `check_content_semantic` passes. -/
  semantic : Validation.checkContentSemantic checkSignatureBatch chain block = some .pass

namespace Accepted

variable {checkSignatureBatch : List T → Bool} {chain : BlockChain H} {received : List (Block H T)}
  {block : Block H T}

/-- The proposer parent of an accepted block is a proposer block. -/
theorem parent_isSome (accepted : Accepted checkSignatureBatch chain received block) :
    (chain.proposerNodeLevel block.header.parent).isSome :=
  (Validation.checkDataAvailability_eq_pass.mp accepted.available).1

/-- An accepted proposer block refers to blocks with a proposer parent as
transaction blocks, and to proposer blocks no deeper than its parent. -/
theorem proposer (accepted : Accepted checkSignatureBatch chain received block) {content : ProposerContent H}
    (contentEq : block.content = .proposer content) :
    (∀ hash ∈ content.transactionRefs, (chain.parentNeighbor hash).isSome) ∧
      ∀ parentLevel, chain.proposerNodeLevel block.header.parent = some parentLevel →
        ∀ ref ∈ content.proposerRefs, ∃ refLevel, chain.proposerNodeLevel ref = some refLevel ∧
          refLevel ≤ parentLevel := by
  have available := (Validation.checkDataAvailability_eq_pass.mp accepted.available).2
  have semantic := accepted.semantic
  rw [contentEq] at available
  unfold Validation.checkContentSemantic at semantic
  rw [contentEq] at semantic
  refine ⟨available.1, ?_⟩
  intro parentLevel parentAt
  have refsOk : Validation.checkRefProposerLevel chain block.header.parent content = some true := by
    cases checked : Validation.checkRefProposerLevel chain block.header.parent content with
    | none => simp [checked] at semantic
    | some refsOk => cases refsOk <;> simp_all
  simp only [Validation.checkRefProposerLevel, BlockChain.proposerLevel, parentAt, Option.bind_eq_bind,
    Option.bind_some] at refsOk
  exact Validation.checkRefLevels_eq_some_true _ |>.mp refsOk

/-- An accepted voter block extends a voter block of the chain it names, and
votes for one proposer block of each level after its voter parent's deepest
voted level, up to its proposer parent's level. -/
theorem voter (accepted : Accepted checkSignatureBatch chain received block) {content : VoterContent H}
    (contentEq : block.content = .voter content) :
    (chain.voterNodeLevel content.voterParent).isSome ∧
      chain.voterNodeChain content.voterParent = some content.chainNumber ∧
      ∃ start endLevel, chain.voterNodeVotedLevel content.voterParent = some start ∧
        chain.proposerNodeLevel block.header.parent = some endLevel ∧ start ≤ endLevel ∧
        content.votes.map chain.proposerNodeLevel = (List.range' (start + 1) (endLevel - start)).map some := by
  have available := (Validation.checkDataAvailability_eq_pass.mp accepted.available).2
  have semantic := accepted.semantic
  rw [contentEq] at available
  unfold Validation.checkContentSemantic at semantic
  rw [contentEq] at semantic
  refine ⟨available.1, ?_, ?_⟩
  · cases chainNum : chain.voterNodeChain content.voterParent with
    | none => simp [Validation.checkChainNumber, BlockChain.voterChainNumber, chainNum] at semantic
    | some chainNum' =>
        by_cases same : chainNum' = content.chainNumber
        · rw [same]
        · simp [Validation.checkChainNumber, BlockChain.voterChainNumber, chainNum, same] at semantic
  · have levelsOk : Validation.checkLevelsVoted chain content block.header.parent = some true := by
      cases chainOk : Validation.checkChainNumber chain content with
      | none => simp [chainOk] at semantic
      | some chainOk' =>
          cases chainOk' with
          | false => simp [chainOk] at semantic
          | true =>
              cases checked : Validation.checkLevelsVoted chain content block.header.parent with
              | none => simp [chainOk, checked] at semantic
              | some levelsOk => cases levelsOk <;> simp_all
    exact Validation.checkLevelsVoted_eq_some_true.mp levelsOk

end Accepted

variable [DecidableEq H]

/-- The states reachable from `BlockChain::new config` by accepted insertions
and ledger updates, with the blocks inserted along the way. -/
inductive Reachable [Inhabited H] (checkSignatureBatch : List T → Bool) (policy : ConfirmationPolicy H)
    (config : BlockchainConfig H) : BlockChain H → List (Block H T) → Prop
  | new : Reachable checkSignatureBatch policy config (BlockChain.new config) []
  | insertBlock {chain : BlockChain H} {inserted : List (Block H T)} {block : Block H T}
      {next : BlockChain H} :
      Reachable checkSignatureBatch policy config chain inserted →
      Accepted checkSignatureBatch chain inserted block → chain.insertBlock block = some next →
      Reachable checkSignatureBatch policy config next (inserted ++ [block])
  | updateLedger {chain : BlockChain H} {inserted : List (Block H T)} {fuel : Nat}
      {next : BlockChain H} {added removed : List H} :
      Reachable checkSignatureBatch policy config chain inserted →
      chain.updateLedger policy fuel = some (next, added, removed) →
      Reachable checkSignatureBatch policy config next inserted

/-- A run keeps the configuration it started from. -/
theorem Reachable.config [Inhabited H] {checkSignatureBatch : List T → Bool} {policy : ConfirmationPolicy H}
    {config : BlockchainConfig H} {chain : BlockChain H} {inserted : List (Block H T)}
    (reachable : Reachable checkSignatureBatch policy config chain inserted) : chain.config = config := by
  induction reachable with
  | new => exact BlockChain.new_config config
  | insertBlock _ _ insertedEq inductionHypothesis =>
      rcases BlockChain.insertBlock_eq_some insertedEq with ⟨_, _, _, _, rfl⟩ | ⟨_, _, _, _, _, _, _, _, _, _, rfl⟩ |
        ⟨_, _, rfl⟩ <;> exact inductionHypothesis
  | updateLedger _ updated inductionHypothesis =>
      rw [BlockChain.updateLedger_frame updated]
      exact inductionHypothesis

/-! ## Parameters of concrete runs

Hashes are natural numbers and a header hashes to its nonce (`nonceHash`); the one voter
chain has genesis `1` over the proposer genesis `0`; the confirmation rule
takes the first proposer block of the level, or the first with a vote. -/

/-- One voter chain: proposer genesis `0`, voter genesis `1`. -/
def singleChainConfig : BlockchainConfig Nat where
  voterChains := 1
  proposerGenesis := 0
  voterGenesis := [1]
  voterChains_lt := by decide
  length_voterGenesis := rfl
  nodup_genesis := by decide

/-- The rule that confirms the first proposer block of the level. -/
def firstBlockPolicy : ConfirmationPolicy Nat where
  select _ blocks _ _ _ := blocks.head?
  select_mem _ _ _ _ _ _ chosen := List.mem_of_mem_head? chosen

/-- The rule that confirms the first proposer block of the level with a vote. -/
def votedBlockPolicy : ConfirmationPolicy Nat where
  select _ blocks depths _ _ := blocks.find? fun block => (depths.lookup block).getD [] != []
  select_mem _ _ _ _ _ _ chosen := List.mem_of_find?_eq_some chosen

/-! ## A sample run

A transaction block `3` and two proposer blocks of level one, `2`, which
refers to `3`, and `6`; the vote `4` for `2`, and an update that confirms `2`.
Then a fork vote `8` for `6`, the proposer block `7` of level two over `2`,
which refers to `6`, and the vote `5` for `7` over `4`; an update confirms `7`
and `6` with it.  Last the fork grows past the main chain by `9` and `10`, and
an update switches the voter chain's main chain: `6` becomes the leader of
level one, and the ledger is deconfirmed from there and rebuilt.  Every block
passes every check. -/

section Sample

/-- Insert blocks in turn, keeping the chain where an insertion fails. -/
def insertInOrder (chain : BlockChain Nat) (blocks : List (Block Nat Nat)) : BlockChain Nat :=
  blocks.foldl (fun chain block => (chain.insertBlock block).getD chain) chain

/-- The state after one ledger update, or the same state if it fails. -/
def updateOrKeep (chain : BlockChain Nat) (fuel : Nat) : BlockChain Nat :=
  ((chain.updateLedger votedBlockPolicy fuel).map Prod.fst).getD chain

/-- A transaction block over the genesis. -/
def sampleTransaction : Block Nat Nat := ⟨runHeader 0 3, .transaction { transactions := [] }, []⟩

/-- A proposer block of level one that refers to `sampleTransaction`. -/
def sampleProposer : Block Nat Nat := ⟨runHeader 0 2, .proposer { transactionRefs := [3], proposerRefs := [] }, []⟩

/-- A second proposer block of level one. -/
def sampleRival : Block Nat Nat := ⟨runHeader 0 6, .proposer { transactionRefs := [], proposerRefs := [] }, []⟩

/-- A vote for `sampleProposer` on the voter genesis. -/
def sampleVote : Block Nat Nat := ⟨runHeader 2 4, .voter { chainNumber := 0, voterParent := 1, votes := [2] }, []⟩

/-- A vote for `sampleRival` on the voter genesis, a fork of `sampleVote`. -/
def sampleForkVote : Block Nat Nat :=
  ⟨runHeader 6 8, .voter { chainNumber := 0, voterParent := 1, votes := [6] }, []⟩

/-- A proposer block of level two over `sampleProposer` that refers to `sampleRival`. -/
def sampleNext : Block Nat Nat := ⟨runHeader 2 7, .proposer { transactionRefs := [], proposerRefs := [6] }, []⟩

/-- A vote for `sampleNext` over `sampleVote`. -/
def sampleNextVote : Block Nat Nat :=
  ⟨runHeader 7 5, .voter { chainNumber := 0, voterParent := 4, votes := [7] }, []⟩

/-- A voter block over `sampleForkVote` with no vote. -/
def sampleForkNext : Block Nat Nat := ⟨runHeader 6 9, .voter { chainNumber := 0, voterParent := 8, votes := [] }, []⟩

/-- A vote for `sampleNext` over `sampleForkNext`, one voter level past `sampleNextVote`. -/
def sampleForkTip : Block Nat Nat :=
  ⟨runHeader 7 10, .voter { chainNumber := 0, voterParent := 9, votes := [7] }, []⟩

/-- The blocks inserted up to the second update. -/
def sampleBlocks : List (Block Nat Nat) :=
  [sampleTransaction, sampleProposer, sampleRival, sampleVote, sampleForkVote, sampleNext, sampleNextVote]

/-- The state before the first update. -/
def sampleVoted : BlockChain Nat :=
  insertInOrder (BlockChain.new singleChainConfig) (sampleBlocks.take 4)

/-- The state after the second update: the ledger is `[0, 2, 6, 7]`. -/
def sampleChain : BlockChain Nat :=
  updateOrKeep (insertInOrder (updateOrKeep sampleVoted 4) (sampleBlocks.drop 4)) 4

/-- The state before the third update, with the fork past the main chain. -/
def sampleForked : BlockChain Nat := insertInOrder sampleChain [sampleForkNext, sampleForkTip]

/-- The state after the third update: the ledger is `[0, 6, 2, 7]`. -/
def sampleReorged : BlockChain Nat := updateOrKeep sampleForked 4

/-- The first update confirms `sampleProposer` and adds its transaction block. -/
theorem sampleVoted_updateLedger :
    sampleVoted.updateLedger votedBlockPolicy 4 = some (updateOrKeep sampleVoted 4, [3], []) := rfl

/-- The third update removes and adds back the transaction block. -/
theorem sampleForked_updateLedger :
    sampleForked.updateLedger votedBlockPolicy 4 = some (sampleReorged, [3], [3]) := rfl

theorem sampleVoted_reachable :
    Reachable (fun _ : List Nat => true) votedBlockPolicy singleChainConfig sampleVoted (sampleBlocks.take 4) :=
  .insertBlock (.insertBlock (.insertBlock (.insertBlock .new
    ⟨by decide, by decide, by decide, by decide⟩ rfl)
    ⟨by decide, by decide, by decide, by decide⟩ rfl)
    ⟨by decide, by decide, by decide, by decide⟩ rfl)
    ⟨by decide, by decide, by decide, by decide⟩ rfl

/-- The second update confirms `sampleNext`, and `sampleRival` before it. -/
theorem sampleChain_updateLedger :
    (insertInOrder (updateOrKeep sampleVoted 4) (sampleBlocks.drop 4)).updateLedger votedBlockPolicy 4 =
      some (sampleChain, [], []) := rfl

theorem sampleChain_reachable :
    Reachable (fun _ : List Nat => true) votedBlockPolicy singleChainConfig sampleChain sampleBlocks :=
  .updateLedger (.insertBlock (.insertBlock (.insertBlock
    (.updateLedger sampleVoted_reachable sampleVoted_updateLedger)
    ⟨by decide, by decide, by decide, by decide⟩ rfl)
    ⟨by decide, by decide, by decide, by decide⟩ rfl)
    ⟨by decide, by decide, by decide, by decide⟩ rfl)
    sampleChain_updateLedger

theorem sampleForked_reachable :
    Reachable (fun _ : List Nat => true) votedBlockPolicy singleChainConfig sampleForked
      (sampleBlocks ++ [sampleForkNext, sampleForkTip]) :=
  .insertBlock (.insertBlock sampleChain_reachable
    ⟨by decide, by decide, by decide, by decide⟩ rfl)
    ⟨by decide, by decide, by decide, by decide⟩ rfl

theorem sampleReorged_reachable :
    Reachable (fun _ : List Nat => true) votedBlockPolicy singleChainConfig sampleReorged
      (sampleBlocks ++ [sampleForkNext, sampleForkTip]) :=
  .updateLedger sampleForked_reachable sampleForked_updateLedger

end Sample

end Prism
