import Prism.Blockchain.State

/-!
# Inserting a block

`BlockChain::insert_block` and the lookups that validation and the miner
make.  `insert_block` reads the stored levels it needs, panicking (`none`)
when one is missing, and then writes one batch; each branch is split into the
reads, in `insertBlock`, and the total update they feed, in `addProposer`,
`addVoter` and `addTransaction`, whose fields have one `rfl` lemma each.
-/

namespace Prism

namespace BlockChain

variable {H T : Type} [DecidableEq H]

/-- `for key in keys { map.remove(&key) }` on the in-memory hash maps. -/
def removeKeys (map : H → Option Nat) (keys : List H) : H → Option Nat :=
  keys.foldl (fun map key => Function.update map key none) map

@[simp] theorem removeKeys_apply (map : H → Option Nat) (keys : List H) (hash : H) :
    removeKeys map keys hash = if hash ∈ keys then none else map hash := by
  induction keys generalizing map with
  | nil => simp [removeKeys]
  | cons key rest inductionHypothesis =>
      simp only [removeKeys, List.foldl_cons] at *
      rw [inductionHypothesis, Function.update_apply]
      by_cases same : hash = key <;> simp [same]

/-- `merge_value!(proposer_vote_count_cf, proposer_hash, 1)` for every vote of
a voter block, in order. -/
def addVoteCounts (counts : H → Option Nat) (votes : List H) : H → Option Nat :=
  votes.foldl (fun counts proposer =>
    Function.update counts proposer (some (u64PlusMerge (counts proposer) [1]))) counts

/-- The count of a proposer block grows by the number of times the votes name it. -/
theorem addVoteCounts_getD (counts : H → Option Nat) (votes : List H) (proposer : H) :
    (addVoteCounts counts votes proposer).getD 0 = (counts proposer).getD 0 + votes.count proposer := by
  induction votes generalizing counts with
  | nil => simp [addVoteCounts]
  | cons vote rest inductionHypothesis =>
      simp only [addVoteCounts, List.foldl_cons] at inductionHypothesis ⊢
      rw [inductionHypothesis, List.count_cons]
      by_cases same : proposer = vote
      · subst same
        simp [u64PlusMerge]
        omega
      · simp [same, Ne.symm same]

/-- The writes of the proposer branch of `insert_block`, given the level of
the parent. -/
def addProposer (chain : BlockChain H) (blockHash parentHash : H) (timestamp parentLevel : Nat)
    (content : ProposerContent H) : BlockChain H :=
  let selfLevel := parentLevel + 1
  { chain with
    parentNeighbor := Function.update chain.parentNeighbor blockHash (some parentHash)
    -- the parent is the first proposer block that a proposer block refers to
    proposerRefNeighbor :=
      Function.update chain.proposerRefNeighbor blockHash (some (parentHash :: content.proposerRefs))
    transactionRefNeighbor :=
      Function.update chain.transactionRefNeighbor blockHash (some content.transactionRefs)
    proposerNodeLevel := Function.update chain.proposerNodeLevel blockHash (some selfLevel)
    proposerTreeLevel := Function.update chain.proposerTreeLevel selfLevel
      (some (h256VecAppendMerge (chain.proposerTreeLevel selfLevel) [[blockHash]]))
    -- the block is marked unreferred before its references are removed
    unreferredProposers := removeKeys
      (Function.update chain.unreferredProposers blockHash (some timestamp))
      (content.proposerRefs ++ [parentHash])
    unconfirmedProposers := insert blockHash chain.unconfirmedProposers
    proposerBestLevel :=
      if selfLevel > chain.proposerBestLevel then selfLevel else chain.proposerBestLevel
    unreferredTransactions := removeKeys chain.unreferredTransactions content.transactionRefs }

/-- The writes of the voter branch of `insert_block`, given the voter parent's
level and chain, the proposer parent's level and the best block of the chain. -/
def addVoter (chain : BlockChain H) (blockHash parentHash : H)
    (voterParentLevel voterParentChain proposerParentLevel : Nat) (best : H × Nat)
    (content : VoterContent H) : BlockChain H :=
  let selfLevel := voterParentLevel + 1
  let selfChain := voterParentChain
  { chain with
    parentNeighbor := Function.update chain.parentNeighbor blockHash (some parentHash)
    voterParentNeighbor := Function.update chain.voterParentNeighbor blockHash (some content.voterParent)
    voterNodeLevel := Function.update chain.voterNodeLevel blockHash (some selfLevel)
    voterNodeChain := Function.update chain.voterNodeChain blockHash (some selfChain)
    voterTreeLevelCount := Function.update chain.voterTreeLevelCount (selfChain, selfLevel)
      (some (u64PlusMerge (chain.voterTreeLevelCount (selfChain, selfLevel)) [1]))
    proposerVoteCount := addVoteCounts chain.proposerVoteCount content.votes
    voteNeighbor := Function.update chain.voteNeighbor blockHash (some content.votes)
    -- the voted level is the level of the proposer parent
    voterNodeVotedLevel := Function.update chain.voterNodeVotedLevel blockHash (some proposerParentLevel)
    voterBest :=
      if selfLevel > best.2 then chain.voterBest.set selfChain (blockHash, selfLevel) else chain.voterBest }

/-- The writes of the transaction branch of `insert_block`. -/
def addTransaction (chain : BlockChain H) (blockHash parentHash : H) (timestamp : Nat) :
    BlockChain H :=
  { chain with
    parentNeighbor := Function.update chain.parentNeighbor blockHash (some parentHash)
    unreferredTransactions := Function.update chain.unreferredTransactions blockHash (some timestamp) }

/-- `BlockChain::insert_block`.  A missing level or chain number, or a chain
number without a `voter_best` entry, is a panic. -/
def insertBlock [Hashable (Header H) H] (chain : BlockChain H) (block : Block H T) :
    Option (BlockChain H) :=
  match block.content with
  | .proposer content => do
      let parentLevel ← chain.proposerNodeLevel block.header.parent
      some (chain.addProposer block.hash block.header.parent block.header.timestamp parentLevel content)
  | .voter content => do
      let voterParentLevel ← chain.voterNodeLevel content.voterParent
      let voterParentChain ← chain.voterNodeChain content.voterParent
      let proposerParentLevel ← chain.proposerNodeLevel block.header.parent
      let best ← chain.voterBest[voterParentChain]?
      some (chain.addVoter block.hash block.header.parent voterParentLevel voterParentChain
        proposerParentLevel best content)
  | .transaction _ =>
      some (chain.addTransaction block.hash block.header.parent block.header.timestamp)

/-- What a call of `insert_block` that returns did, by the kind of the block:
the levels and the chain it read, and the writes of its branch. -/
theorem insertBlock_eq_some [Hashable (Header H) H] {chain next : BlockChain H} {block : Block H T}
    (inserted : chain.insertBlock block = some next) :
    (∃ content parentLevel, block.content = .proposer content ∧
      chain.proposerNodeLevel block.header.parent = some parentLevel ∧
      next = chain.addProposer block.hash block.header.parent block.header.timestamp parentLevel content) ∨
    (∃ content voterParentLevel voterParentChain proposerParentLevel best, block.content = .voter content ∧
      chain.voterNodeLevel content.voterParent = some voterParentLevel ∧
      chain.voterNodeChain content.voterParent = some voterParentChain ∧
      chain.proposerNodeLevel block.header.parent = some proposerParentLevel ∧
      chain.voterBest[voterParentChain]? = some best ∧
      next = chain.addVoter block.hash block.header.parent voterParentLevel voterParentChain
        proposerParentLevel best content) ∨
    (∃ content, block.content = .transaction content ∧
      next = chain.addTransaction block.hash block.header.parent block.header.timestamp) := by
  unfold insertBlock at inserted
  cases contentEq : block.content with
  | proposer content =>
      rw [contentEq] at inserted
      simp only [Option.bind_eq_bind, Option.bind_eq_some_iff, Option.some.injEq] at inserted
      obtain ⟨parentLevel, parentAt, rfl⟩ := inserted
      exact .inl ⟨content, parentLevel, rfl, parentAt, rfl⟩
  | voter content =>
      rw [contentEq] at inserted
      simp only [Option.bind_eq_bind, Option.bind_eq_some_iff, Option.some.injEq] at inserted
      obtain ⟨voterParentLevel, voterParentAt, voterParentChain, chainAt, proposerParentLevel, parentAt,
        best, bestAt, rfl⟩ := inserted
      exact .inr (.inl ⟨content, voterParentLevel, voterParentChain, proposerParentLevel, best, rfl,
        voterParentAt, chainAt, parentAt, bestAt, rfl⟩)
  | transaction content =>
      rw [contentEq] at inserted
      exact .inr (.inr ⟨content, rfl, (Option.some.inj inserted).symm⟩)

/-! ## Lookups -/

/-- `BlockChain::proposer_level`. -/
def proposerLevel (chain : BlockChain H) (hash : H) : Option Nat :=
  chain.proposerNodeLevel hash

/-- `BlockChain::deepest_voted_level`. -/
def deepestVotedLevel (chain : BlockChain H) (voter : H) : Option Nat :=
  chain.voterNodeVotedLevel voter

/-- `BlockChain::voter_chain_number`. -/
def voterChainNumber (chain : BlockChain H) (hash : H) : Option Nat :=
  chain.voterNodeChain hash

/-- `BlockChain::contains_proposer`: the block has a proposer level. -/
def containsProposer (chain : BlockChain H) (hash : H) : Bool :=
  (chain.proposerNodeLevel hash).isSome

/-- `BlockChain::contains_voter`: the block has a voter level. -/
def containsVoter (chain : BlockChain H) (hash : H) : Bool :=
  (chain.voterNodeLevel hash).isSome

/-- `BlockChain::contains_transaction`: the block has a proposer parent, which
every inserted block and every voter genesis block has. -/
def containsTransaction (chain : BlockChain H) (hash : H) : Bool :=
  (chain.parentNeighbor hash).isSome

/-- `BlockChain::best_proposer`: the first block of the best level. -/
def bestProposer (chain : BlockChain H) : Option H := do
  let blocks ← chain.proposerTreeLevel chain.proposerBestLevel
  blocks.head?

/-! ### Field lemmas -/

section Fields

variable (chain : BlockChain H) (blockHash parentHash : H)

@[simp] theorem addProposer_config (timestamp parentLevel : Nat) (content : ProposerContent H) :
    (chain.addProposer blockHash parentHash timestamp parentLevel content).config = chain.config := rfl

@[simp] theorem addProposer_proposerNodeLevel (timestamp parentLevel : Nat) (content : ProposerContent H) :
    (chain.addProposer blockHash parentHash timestamp parentLevel content).proposerNodeLevel =
      Function.update chain.proposerNodeLevel blockHash (some (parentLevel + 1)) := rfl

@[simp] theorem addProposer_proposerTreeLevel (timestamp parentLevel : Nat) (content : ProposerContent H) :
    (chain.addProposer blockHash parentHash timestamp parentLevel content).proposerTreeLevel =
      Function.update chain.proposerTreeLevel (parentLevel + 1)
        (some (h256VecAppendMerge (chain.proposerTreeLevel (parentLevel + 1)) [[blockHash]])) := rfl

@[simp] theorem addProposer_proposerRefNeighbor (timestamp parentLevel : Nat) (content : ProposerContent H) :
    (chain.addProposer blockHash parentHash timestamp parentLevel content).proposerRefNeighbor =
      Function.update chain.proposerRefNeighbor blockHash (some (parentHash :: content.proposerRefs)) := rfl

@[simp] theorem addProposer_transactionRefNeighbor (timestamp parentLevel : Nat) (content : ProposerContent H) :
    (chain.addProposer blockHash parentHash timestamp parentLevel content).transactionRefNeighbor =
      Function.update chain.transactionRefNeighbor blockHash (some content.transactionRefs) := rfl

@[simp] theorem addProposer_parentNeighbor (timestamp parentLevel : Nat) (content : ProposerContent H) :
    (chain.addProposer blockHash parentHash timestamp parentLevel content).parentNeighbor =
      Function.update chain.parentNeighbor blockHash (some parentHash) := rfl

@[simp] theorem addProposer_unconfirmedProposers (timestamp parentLevel : Nat) (content : ProposerContent H) :
    (chain.addProposer blockHash parentHash timestamp parentLevel content).unconfirmedProposers =
      insert blockHash chain.unconfirmedProposers := rfl

@[simp] theorem addProposer_proposerBestLevel (timestamp parentLevel : Nat) (content : ProposerContent H) :
    (chain.addProposer blockHash parentHash timestamp parentLevel content).proposerBestLevel =
      max (parentLevel + 1) chain.proposerBestLevel := by
  simp only [addProposer]
  split_ifs with higher <;> omega

@[simp] theorem addProposer_unreferredProposers (timestamp parentLevel : Nat) (content : ProposerContent H) :
    (chain.addProposer blockHash parentHash timestamp parentLevel content).unreferredProposers =
      removeKeys (Function.update chain.unreferredProposers blockHash (some timestamp))
        (content.proposerRefs ++ [parentHash]) := rfl

@[simp] theorem addProposer_unreferredTransactions (timestamp parentLevel : Nat) (content : ProposerContent H) :
    (chain.addProposer blockHash parentHash timestamp parentLevel content).unreferredTransactions =
      removeKeys chain.unreferredTransactions content.transactionRefs := rfl

variable (voterParentLevel voterParentChain proposerParentLevel : Nat) (best : H × Nat)
  (content : VoterContent H)

@[simp] theorem addVoter_config :
    (chain.addVoter blockHash parentHash voterParentLevel voterParentChain proposerParentLevel best
      content).config = chain.config := rfl

@[simp] theorem addVoter_parentNeighbor :
    (chain.addVoter blockHash parentHash voterParentLevel voterParentChain proposerParentLevel best
      content).parentNeighbor = Function.update chain.parentNeighbor blockHash (some parentHash) := rfl

@[simp] theorem addVoter_voterParentNeighbor :
    (chain.addVoter blockHash parentHash voterParentLevel voterParentChain proposerParentLevel best
      content).voterParentNeighbor =
      Function.update chain.voterParentNeighbor blockHash (some content.voterParent) := rfl

@[simp] theorem addVoter_voterNodeLevel :
    (chain.addVoter blockHash parentHash voterParentLevel voterParentChain proposerParentLevel best
      content).voterNodeLevel =
      Function.update chain.voterNodeLevel blockHash (some (voterParentLevel + 1)) := rfl

@[simp] theorem addVoter_voterNodeChain :
    (chain.addVoter blockHash parentHash voterParentLevel voterParentChain proposerParentLevel best
      content).voterNodeChain = Function.update chain.voterNodeChain blockHash (some voterParentChain) := rfl

@[simp] theorem addVoter_voterTreeLevelCount :
    (chain.addVoter blockHash parentHash voterParentLevel voterParentChain proposerParentLevel best
      content).voterTreeLevelCount =
      Function.update chain.voterTreeLevelCount (voterParentChain, voterParentLevel + 1)
        (some (u64PlusMerge (chain.voterTreeLevelCount (voterParentChain, voterParentLevel + 1)) [1])) :=
  rfl

@[simp] theorem addVoter_proposerVoteCount :
    (chain.addVoter blockHash parentHash voterParentLevel voterParentChain proposerParentLevel best
      content).proposerVoteCount = addVoteCounts chain.proposerVoteCount content.votes := rfl

@[simp] theorem addVoter_voteNeighbor :
    (chain.addVoter blockHash parentHash voterParentLevel voterParentChain proposerParentLevel best
      content).voteNeighbor = Function.update chain.voteNeighbor blockHash (some content.votes) := rfl

@[simp] theorem addVoter_voterNodeVotedLevel :
    (chain.addVoter blockHash parentHash voterParentLevel voterParentChain proposerParentLevel best
      content).voterNodeVotedLevel =
      Function.update chain.voterNodeVotedLevel blockHash (some proposerParentLevel) := rfl

@[simp] theorem addVoter_voterBest :
    (chain.addVoter blockHash parentHash voterParentLevel voterParentChain proposerParentLevel best
      content).voterBest =
      if voterParentLevel + 1 > best.2 then chain.voterBest.set voterParentChain (blockHash, voterParentLevel + 1)
      else chain.voterBest := rfl

@[simp] theorem addTransaction_config (timestamp : Nat) :
    (chain.addTransaction blockHash parentHash timestamp).config = chain.config := rfl

@[simp] theorem addTransaction_parentNeighbor (timestamp : Nat) :
    (chain.addTransaction blockHash parentHash timestamp).parentNeighbor =
      Function.update chain.parentNeighbor blockHash (some parentHash) := rfl

@[simp] theorem addTransaction_unreferredTransactions (timestamp : Nat) :
    (chain.addTransaction blockHash parentHash timestamp).unreferredTransactions =
      Function.update chain.unreferredTransactions blockHash (some timestamp) := rfl

end Fields

end BlockChain

end Prism
