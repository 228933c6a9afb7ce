import Prism.Blockchain.Insert

/-!
# The leader of a proposer level

`BlockChain::proposer_leader` first collects, for every proposer block of the
level, the depth of each of its main-chain votes, together with the number of
votes and the number of voter blocks mined on top of them.  Its integer
bookkeeping is modelled here as the source computes it, with a `none` for
every panic: a missing `PROPOSER_TREE_LEVEL` entry, a chain without a
`voter_best` entry, a missing `VOTER_TREE_LEVEL_COUNT` entry, and the explicit
panic when more votes than voter chains are counted.  The arithmetic is that
of the release build (`cargo build --release`), which wraps: the `u16`
product `voter_chains * 3` does wrap for large configurations and is modelled
so, while the `u16` vote count and the `u64` depth `voter_best_level -
vote_level` are modelled as stopping (`none`) where they would leave their
range, which the invariants of the vote table show never happens.  Past the
three-fifths gate the leader is chosen by the floating-point rule, a
`ConfirmationPolicy`.
-/

namespace Prism

namespace BlockChain

variable {H : Type}

/-- `BlockChain::num_voter_blocks`: the voter blocks of a chain at the levels
`start_level..=end_level`. -/
def numVoterBlocks (chain : BlockChain H) (chainNum startLevel endLevel : Nat) : Option Nat :=
  (List.range' startLevel (endLevel + 1 - startLevel)).foldlM (fun total level => do
    let count ← chain.voterTreeLevelCount (chainNum, level)
    some (total + count)) 0

/-- One vote `(chain_num, vote_level)` of the counting loop: its depth is
appended and the two totals grow. -/
def countVote (chain : BlockChain H) (state : List Nat × Nat × Nat) (vote : Nat × Nat) :
    Option (List Nat × Nat × Nat) := do
  let (voteDepth, totalVoteBlocks, totalVoteCount) := state
  let (chainNum, voteLevel) := vote
  let best ← chain.voterBest[chainNum]?
  let voterBestLevel := best.2
  let blocks ← chain.numVoterBlocks chainNum voteLevel voterBestLevel
  -- `total_vote_count += 1` on a `u16`, then `voter_best_level - vote_level + 1` on a `u64`
  if totalVoteCount + 1 < 65536 ∧ voteLevel ≤ voterBestLevel then
    some (voteDepth ++ [voterBestLevel - voteLevel + 1], totalVoteBlocks + blocks, totalVoteCount + 1)
  else none

/-- One proposer block of the counting loop: the depths of its votes, from
`PROPOSER_NODE_VOTE` (no entry is no vote), are recorded under the block and
the two totals grow. -/
def countBlockVotes (chain : BlockChain H) (state : List (H × List Nat) × Nat × Nat) (block : H) :
    Option (List (H × List Nat) × Nat × Nat) := do
  let (votesDepth, totalVoteBlocks, totalVoteCount) := state
  let votes := (chain.proposerNodeVote block).getD []
  let (voteDepth, totalVoteBlocks, totalVoteCount) ←
    votes.foldlM chain.countVote ([], totalVoteBlocks, totalVoteCount)
  some (votesDepth ++ [(block, voteDepth)], totalVoteBlocks, totalVoteCount)

/-- The loop over the proposer blocks of the level: the vote depths of each
block, the number of voter blocks on top of the votes and the number of votes. -/
def collectVotes (chain : BlockChain H) (proposerBlocks : List H) :
    Option (List (H × List Nat) × Nat × Nat) :=
  proposerBlocks.foldlM chain.countBlockVotes ([], 0, 0)

/-- `BlockChain::proposer_leader(level, quantile)`. -/
def proposerLeader (policy : ConfirmationPolicy H) (chain : BlockChain H) (level : Nat)
    (quantile : Quantile) : Option (Option H) := do
  let proposerBlocks ← chain.proposerTreeLevel level
  let (votesDepth, totalVoteBlocks, totalVoteCount) ← chain.collectVotes proposerBlocks
  if chain.config.voterChains < totalVoteCount then none
  -- `voter_chains * 3 / 5` on a `u16`, wrapping
  else if chain.config.voterChains * 3 % 65536 / 5 < totalVoteCount then
    some (policy.select quantile proposerBlocks votesDepth totalVoteBlocks totalVoteCount)
  else some none

/-! ## What the leader can be -/

/-- A leader is always one of the proposer blocks of its level. -/
theorem proposerLeader_mem {policy : ConfirmationPolicy H} {chain : BlockChain H} {level : Nat}
    {quantile : Quantile} {leader : H}
    (chosen : chain.proposerLeader policy level quantile = some (some leader)) :
    ∃ proposerBlocks, chain.proposerTreeLevel level = some proposerBlocks ∧ leader ∈ proposerBlocks := by
  unfold proposerLeader at chosen
  cases blocksEq : chain.proposerTreeLevel level with
  | none => simp [blocksEq] at chosen
  | some proposerBlocks =>
      refine ⟨proposerBlocks, rfl, ?_⟩
      cases votesEq : chain.collectVotes proposerBlocks with
      | none => simp [blocksEq, votesEq] at chosen
      | some collected =>
          obtain ⟨votesDepth, totalVoteBlocks, totalVoteCount⟩ := collected
          simp only [blocksEq, votesEq, Option.bind_eq_bind, Option.bind_some] at chosen
          split_ifs at chosen with tooMany gate
          · exact policy.select_mem _ _ _ _ _ _ (Option.some.inj chosen)
          · cases chosen

end BlockChain

end Prism
