import Prism.Invariant.VoteTable
import Mathlib.Data.Finset.Card

/-!
# The votes that `proposer_leader` counts

`proposer_leader` reads the vote table entry of every proposer block of a
level, and for each vote `(c, v)` the best level of chain `c` and the voter
tree counts of chain `c` from `v` to that level; it panics when it counts more
votes than there are voter chains.  The counting loop returns when every vote
is countable in that sense and the number of votes fits the `u16` counter.

In a reachable state both hold.  A main chain votes for one proposer block of
each level (`VoterIndex.pathVotes_distinct`), so the entries of the blocks of
one level name each chain at most once, and a vote is never deeper than the
best block of its chain.
-/

namespace Prism

namespace BlockChain

variable {H : Type}

/-! ## The counting loop -/

section Counting

variable {chain : BlockChain H}

/-- A vote `(c, v)` that the counting loop can count: chain `c` has a best
block at level `v` or above, and a voter tree count at each level between. -/
def Countable (chain : BlockChain H) (vote : Nat × Nat) : Prop :=
  ∃ best, chain.voterBest[vote.1]? = some best ∧ vote.2 ≤ best.2 ∧
    ∀ level, vote.2 ≤ level → level ≤ best.2 → (chain.voterTreeLevelCount (vote.1, level)).isSome

/-- The entry of a proposer block, as the counting loop reads it. -/
def voteEntry (chain : BlockChain H) (block : H) : List (Nat × Nat) :=
  (chain.proposerNodeVote block).getD []

theorem numVoterBlocks_isSome {chainNum startLevel endLevel : Nat}
    (present : ∀ level, startLevel ≤ level → level ≤ endLevel →
      (chain.voterTreeLevelCount (chainNum, level)).isSome) :
    ∃ blocks, chain.numVoterBlocks chainNum startLevel endLevel = some blocks := by
  unfold numVoterBlocks
  apply List.foldlM_option_isSome
  intro total level member
  rw [List.mem_range'_1] at member
  obtain ⟨count, countAt⟩ := Option.isSome_iff_exists.mp (present level member.1 (by omega))
  exact ⟨total + count, by simp [countAt]⟩

/-- A countable vote is counted when the counter has room. -/
theorem countVote_of_countable (voteDepth : List Nat) (totalVoteBlocks totalVoteCount : Nat)
    {vote : Nat × Nat} (countable : chain.Countable vote) (room : totalVoteCount + 1 < 65536) :
    ∃ voteDepth' totalVoteBlocks', chain.countVote (voteDepth, totalVoteBlocks, totalVoteCount) vote =
      some (voteDepth', totalVoteBlocks', totalVoteCount + 1) := by
  obtain ⟨chainNum, voteLevel⟩ := vote
  obtain ⟨best, bestAt, below, present⟩ := countable
  obtain ⟨blocks, counted⟩ := numVoterBlocks_isSome present
  refine ⟨voteDepth ++ [best.2 - voteLevel + 1], totalVoteBlocks + blocks, ?_⟩
  simp only [countVote, bestAt, counted, Option.bind_eq_bind, Option.bind_some]
  rw [if_pos ⟨room, below⟩]

/-- The inner loop counts every vote of an entry whose votes are countable,
when the counter has room for all of them. -/
theorem foldlM_countVote_of_countable :
    ∀ (votes : List (Nat × Nat)) (voteDepth : List Nat) (totalVoteBlocks totalVoteCount : Nat),
      (∀ vote ∈ votes, chain.Countable vote) → totalVoteCount + votes.length < 65536 →
      ∃ voteDepth' totalVoteBlocks', votes.foldlM chain.countVote (voteDepth, totalVoteBlocks, totalVoteCount) =
        some (voteDepth', totalVoteBlocks', totalVoteCount + votes.length) := by
  intro votes
  induction votes with
  | nil => exact fun voteDepth totalVoteBlocks totalVoteCount _ _ => ⟨voteDepth, totalVoteBlocks, rfl⟩
  | cons vote rest inductionHypothesis =>
      intro voteDepth totalVoteBlocks totalVoteCount countable room
      rw [List.length_cons] at room
      obtain ⟨middleDepth, middleBlocks, counted⟩ :=
        countVote_of_countable voteDepth totalVoteBlocks totalVoteCount (countable vote List.mem_cons_self) (by omega)
      obtain ⟨voteDepth', totalVoteBlocks', finished⟩ := inductionHypothesis middleDepth middleBlocks
        (totalVoteCount + 1) (fun other member => countable other (List.mem_cons_of_mem vote member)) (by omega)
      refine ⟨voteDepth', totalVoteBlocks', ?_⟩
      rw [List.foldlM_option_cons, counted, Option.bind_some, finished, List.length_cons, Nat.add_right_comm,
        Nat.add_assoc]

/-- The outer loop counts the votes of every block, when they are countable
and the counter has room for all of them. -/
theorem foldlM_countBlockVotes_of_countable :
    ∀ (blocks : List H) (votesDepth : List (H × List Nat)) (totalVoteBlocks totalVoteCount : Nat),
      (∀ block ∈ blocks, ∀ vote ∈ chain.voteEntry block, chain.Countable vote) →
      totalVoteCount + (blocks.flatMap chain.voteEntry).length < 65536 →
      ∃ votesDepth' totalVoteBlocks', blocks.foldlM chain.countBlockVotes (votesDepth, totalVoteBlocks, totalVoteCount) =
        some (votesDepth', totalVoteBlocks', totalVoteCount + (blocks.flatMap chain.voteEntry).length) := by
  intro blocks
  induction blocks with
  | nil => exact fun votesDepth totalVoteBlocks totalVoteCount _ _ => ⟨votesDepth, totalVoteBlocks, rfl⟩
  | cons block rest inductionHypothesis =>
      intro votesDepth totalVoteBlocks totalVoteCount countable room
      rw [List.flatMap_cons, List.length_append] at room
      obtain ⟨voteDepth, middleBlocks, counted⟩ := foldlM_countVote_of_countable (chain.voteEntry block) []
        totalVoteBlocks totalVoteCount (countable block List.mem_cons_self) (by omega)
      obtain ⟨votesDepth', totalVoteBlocks', finished⟩ :=
        inductionHypothesis (votesDepth ++ [(block, voteDepth)]) middleBlocks
          (totalVoteCount + (chain.voteEntry block).length)
          (fun other member => countable other (List.mem_cons_of_mem block member)) (by omega)
      refine ⟨votesDepth', totalVoteBlocks', ?_⟩
      have stepped : chain.countBlockVotes (votesDepth, totalVoteBlocks, totalVoteCount) block =
          some (votesDepth ++ [(block, voteDepth)], middleBlocks, totalVoteCount + (chain.voteEntry block).length) := by
        simp only [countBlockVotes, Option.bind_eq_bind]
        rw [show (chain.proposerNodeVote block).getD [] = chain.voteEntry block from rfl, counted, Option.bind_some]
      rw [List.foldlM_option_cons, stepped, Option.bind_some, finished, List.flatMap_cons, List.length_append,
        Nat.add_assoc]

/-- `proposer_leader` returns, and counts exactly the votes of the level's
entries, when the level has its tree entry, every vote is countable and there
are no more votes than voter chains. -/
theorem proposerLeader_isSome (policy : ConfirmationPolicy H) (quantile : Quantile) {level : Nat}
    {proposerBlocks : List H} (blocksAt : chain.proposerTreeLevel level = some proposerBlocks)
    (countable : ∀ block ∈ proposerBlocks, ∀ vote ∈ chain.voteEntry block, chain.Countable vote)
    (fewVotes : (proposerBlocks.flatMap chain.voteEntry).length ≤ chain.config.voterChains) :
    ∃ leader, chain.proposerLeader policy level quantile = some leader := by
  have room := chain.config.voterChains_lt
  obtain ⟨votesDepth, totalVoteBlocks, collected⟩ :=
    foldlM_countBlockVotes_of_countable proposerBlocks [] 0 0 countable (by omega)
  rw [Nat.zero_add] at collected
  unfold proposerLeader
  rw [blocksAt, Option.bind_eq_bind, Option.bind_some]
  simp only [collectVotes, collected, Option.bind_eq_bind, Option.bind_some]
  rw [if_neg (by omega)]
  split_ifs
  · exact ⟨_, rfl⟩
  · exact ⟨_, rfl⟩

end Counting

/-! ## One vote per chain and level -/

section Table

variable [DecidableEq H] {chain : BlockChain H}

/-- Two votes of one chain on proposer blocks of one level are the same vote:
the main chain votes for one block of each level. -/
theorem VoteTable.eq_of_level_eq (table : chain.VoteTable) (index : chain.VoterIndex)
    (proposers : chain.ProposerIndex) {first second : H} {chainNum firstLevel secondLevel : Nat}
    (firstIn : (chainNum, firstLevel) ∈ chain.voteEntry first)
    (secondIn : (chainNum, secondLevel) ∈ chain.voteEntry second)
    (sameLevel : chain.proposerNodeLevel first = chain.proposerNodeLevel second) :
    first = second ∧ firstLevel = secondLevel := by
  obtain ⟨votes, mainEq, firstVote⟩ := (table.mem first chainNum firstLevel).mp firstIn
  obtain ⟨votes', mainEq', secondVote⟩ := (table.mem second chainNum secondLevel).mp secondIn
  rw [mainEq, Option.some.injEq] at mainEq'
  subst mainEq'
  obtain ⟨tip, tipLevel, _, tipLevelAt, pathEq⟩ := mainChainVotes_eq_some mainEq
  obtain ⟨levelsDistinct, _, _⟩ := index.pathVotes_distinct proposers tipLevelAt pathEq
  have sameVote := List.inj_on_of_nodup_map levelsDistinct firstVote secondVote sameLevel
  exact Prod.mk.inj sameVote

/-- The vote of a chain is never deeper than the best block of the chain, and
every level between has voter blocks: every vote in the table is countable. -/
theorem VoteTable.countable (table : chain.VoteTable) (index : chain.VoterIndex) {proposer : H}
    {vote : Nat × Nat} (member : vote ∈ chain.voteEntry proposer) : chain.Countable vote := by
  obtain ⟨chainNum, voteLevel⟩ := vote
  obtain ⟨votes, mainEq, voteIn⟩ := (table.mem proposer chainNum voteLevel).mp member
  obtain ⟨tip, tipLevel, tipAt, tipLevelAt, pathEq⟩ := mainChainVotes_eq_some mainEq
  obtain ⟨votes', pathEq', levelsBelow, _⟩ := index.mem_pathVotes tipLevel tip tipLevelAt
  rw [pathEq, Option.some.injEq] at pathEq'
  subst pathEq'
  have tipChain := (table.tip_block chainNum tip tipAt).2
  have chainLt := index.chain_lt tip chainNum tipChain
  obtain ⟨best, bestAt⟩ : ∃ best, chain.voterBest[chainNum]? = some best :=
    ⟨_, List.getElem?_eq_getElem (by rw [index.best_length]; exact chainLt)⟩
  have tipBelow := index.le_best tip chainNum tipLevel best tipChain tipLevelAt bestAt
  refine ⟨best, bestAt, (levelsBelow _ voteIn).trans tipBelow, fun level _ below => ?_⟩
  obtain ⟨count, countAt, _⟩ := index.levelCount_pos bestAt below
  rw [countAt]
  rfl

/-- The entries of the proposer blocks of one level name each chain at most
once. -/
theorem VoteTable.nodup_levelChains (table : chain.VoteTable) (index : chain.VoterIndex)
    (proposers : chain.ProposerIndex) {level : Nat} {proposerBlocks : List H}
    (blocksAt : chain.proposerTreeLevel level = some proposerBlocks) :
    (proposerBlocks.flatMap (fun block => (chain.voteEntry block).map Prod.fst)).Nodup := by
  obtain ⟨blocksDistinct, blocksMem⟩ := proposers.tree level proposerBlocks blocksAt
  rw [List.nodup_flatMap]
  constructor
  · -- one block: its votes are of different chains
    intro block member
    have atLevel := (blocksMem block).mp member
    refine (table.nodup block).map_on fun first firstIn second secondIn sameChain => ?_
    obtain ⟨firstChain, firstLevel⟩ := first
    obtain ⟨secondChain, secondLevel⟩ := second
    dsimp only at sameChain
    subst sameChain
    rw [(table.eq_of_level_eq index proposers firstIn secondIn rfl).2]
  · -- two blocks: a chain in both would vote twice on the level
    refine blocksDistinct.pairwise_of_forall_ne fun first firstMember second secondMember different => ?_
    show ((chain.voteEntry first).map Prod.fst).Disjoint ((chain.voteEntry second).map Prod.fst)
    intro chainNum firstIn secondIn
    obtain ⟨⟨_, firstLevel⟩, firstVote, rfl⟩ := List.mem_map.mp firstIn
    obtain ⟨⟨_, secondLevel⟩, secondVote, sameChain⟩ := List.mem_map.mp secondIn
    dsimp only at sameChain
    subst sameChain
    have sameLevel : chain.proposerNodeLevel first = chain.proposerNodeLevel second := by
      rw [(blocksMem first).mp firstMember, (blocksMem second).mp secondMember]
    exact different (table.eq_of_level_eq index proposers firstVote secondVote sameLevel).1

/-- The entries of the proposer blocks of one level hold at most one vote per
voter chain. -/
theorem VoteTable.length_levelVotes_le (table : chain.VoteTable) (index : chain.VoterIndex)
    (proposers : chain.ProposerIndex) {level : Nat} {proposerBlocks : List H}
    (blocksAt : chain.proposerTreeLevel level = some proposerBlocks) :
    (proposerBlocks.flatMap chain.voteEntry).length ≤ chain.config.voterChains := by
  have distinct := table.nodup_levelChains index proposers blocksAt
  -- every chain number named is a voter chain
  have within : (proposerBlocks.flatMap (fun block => (chain.voteEntry block).map Prod.fst)).toFinset ⊆
      Finset.range chain.config.voterChains := by
    intro chainNum member
    simp only [List.mem_toFinset, List.mem_flatMap, List.mem_map] at member
    obtain ⟨block, _, ⟨_, voteLevel⟩, voteIn, rfl⟩ := member
    obtain ⟨votes, mainEq, _⟩ := (table.mem block _ voteLevel).mp voteIn
    obtain ⟨tip, _, tipAt, _, _⟩ := mainChainVotes_eq_some mainEq
    rw [Finset.mem_range, ← table.tips_length]
    exact (List.getElem?_eq_some_iff.mp tipAt).1
  calc (proposerBlocks.flatMap chain.voteEntry).length
      = (proposerBlocks.flatMap (fun block => (chain.voteEntry block).map Prod.fst)).length := by
        simp [List.length_flatMap]
    _ = (proposerBlocks.flatMap (fun block => (chain.voteEntry block).map Prod.fst)).toFinset.card :=
        (List.toFinset_card_of_nodup distinct).symm
    _ ≤ (Finset.range chain.config.voterChains).card := Finset.card_le_card within
    _ = chain.config.voterChains := Finset.card_range _

/-- `proposer_leader` returns at every proposer level of a state with the
indices and the vote table. -/
theorem VoteTable.proposerLeader_exists (table : chain.VoteTable) (index : chain.VoterIndex)
    (proposers : chain.ProposerIndex) (policy : ConfirmationPolicy H) (quantile : Quantile) {level : Nat}
    (below : level ≤ chain.proposerBestLevel) :
    ∃ leader, chain.proposerLeader policy level quantile = some leader := by
  obtain ⟨proposerBlocks, blocksAt⟩ : ∃ proposerBlocks, chain.proposerTreeLevel level = some proposerBlocks :=
    Option.isSome_iff_exists.mp ((proposers.tree_isSome level).mpr (proposers.exists_at_level level below))
  exact proposerLeader_isSome policy quantile blocksAt
    (fun block _ vote member => table.countable index member)
    (table.length_levelVotes_le index proposers blocksAt)

end Table

end BlockChain

/-! ## Along a run -/

section Run

variable {H T : Type} [DecidableEq H] [Hashable (Header H) H]

/-- In every reachable state: the path of every voter block votes for one
proposer block of each level up to its voted level, the level of its proposer
parent, each level once; the entries of the proposer blocks of each level name
each voter chain at most once, so the counting loop of `proposer_leader` counts
at most `voter_chains` votes and `proposer_leader` returns at every proposer
level; and every vote `(c, v)` is at most the best level of chain `c`, with the
voter blocks between counted. -/
theorem one_vote_per_chain_per_level [Inhabited H] {checkSignatureBatch : List T → Bool}
    {policy : ConfirmationPolicy H} {config : BlockchainConfig H} {chain : BlockChain H}
    {inserted : List (Block H T)} (reachable : Reachable checkSignatureBatch policy config chain inserted) :
    (∀ hash level, chain.voterNodeLevel hash = some level →
      ∃ votes voted parent, chain.pathVotes hash level = some votes ∧
        chain.voterNodeVotedLevel hash = some voted ∧ chain.parentNeighbor hash = some parent ∧
        chain.proposerNodeLevel parent = some voted ∧
        (votes.map (fun vote => chain.proposerNodeLevel vote.1)).Perm ((List.range (voted + 1)).map some)) ∧
      (∀ level proposerBlocks, chain.proposerTreeLevel level = some proposerBlocks →
        (proposerBlocks.flatMap (fun block => ((chain.proposerNodeVote block).getD []).map Prod.fst)).Nodup ∧
        ∃ votesDepth totalVoteBlocks totalVoteCount,
          chain.collectVotes proposerBlocks = some (votesDepth, totalVoteBlocks, totalVoteCount) ∧
          totalVoteCount ≤ chain.config.voterChains) ∧
      (∀ (anyPolicy : ConfirmationPolicy H) level quantile, level ≤ chain.proposerBestLevel →
        ∃ leader, chain.proposerLeader anyPolicy level quantile = some leader) ∧
      ∀ proposer chainNum voteLevel, (chainNum, voteLevel) ∈ (chain.proposerNodeVote proposer).getD [] →
        ∃ best blocks, chain.voterBest[chainNum]? = some best ∧ voteLevel ≤ best.2 ∧
          chain.numVoterBlocks chainNum voteLevel best.2 = some blocks := by
  have table := reachable.voteTable
  have index := reachable.index
  have countable : ∀ proposer vote, vote ∈ chain.voteEntry proposer → chain.Countable vote :=
    fun proposer vote member => table.countable index.voters member
  refine ⟨fun hash level atLevel => ?_, fun level proposerBlocks blocksAt => ?_, fun anyPolicy level quantile below => ?_,
    fun proposer chainNum voteLevel member => ?_⟩
  · obtain ⟨votes, voted, pathEq, votedAt, perm⟩ := index.voters.pathVotes_perm index.proposers level hash atLevel
    obtain ⟨parent, parentEq, parentAt⟩ := index.voters.votedLevel_parent hash voted votedAt
    exact ⟨votes, voted, parent, pathEq, votedAt, parentEq, parentAt, perm⟩
  · have fewVotes := table.length_levelVotes_le index.voters index.proposers blocksAt
    obtain ⟨votesDepth, totalVoteBlocks, collected⟩ :=
      BlockChain.foldlM_countBlockVotes_of_countable proposerBlocks [] 0 0
        (fun block _ vote member => countable block vote member) (by have := chain.config.voterChains_lt; omega)
    rw [Nat.zero_add] at collected
    exact ⟨table.nodup_levelChains index.voters index.proposers blocksAt, votesDepth, totalVoteBlocks, _,
      collected, fewVotes⟩
  · exact table.proposerLeader_exists index.voters index.proposers anyPolicy quantile below
  · obtain ⟨best, bestAt, below, present⟩ := countable proposer (chainNum, voteLevel) member
    obtain ⟨blocks, counted⟩ := BlockChain.numVoterBlocks_isSome present
    exact ⟨best, blocks, bestAt, below, counted⟩

theorem one_vote_per_chain_per_level_sample :
    Reachable (fun _ : List Nat => true) votedBlockPolicy singleChainConfig sampleReorged
        (sampleBlocks ++ [sampleForkNext, sampleForkTip]) ∧
      sampleReorged.proposerNodeVote 7 = some [(0, 3)] ∧
      (∀ hash level, sampleReorged.voterNodeLevel hash = some level →
        ∃ votes voted parent, sampleReorged.pathVotes hash level = some votes ∧
          sampleReorged.voterNodeVotedLevel hash = some voted ∧
          sampleReorged.parentNeighbor hash = some parent ∧
          sampleReorged.proposerNodeLevel parent = some voted ∧
          (votes.map (fun vote => sampleReorged.proposerNodeLevel vote.1)).Perm
            ((List.range (voted + 1)).map some)) ∧
      (∀ level proposerBlocks, sampleReorged.proposerTreeLevel level = some proposerBlocks →
        (proposerBlocks.flatMap (fun block =>
          ((sampleReorged.proposerNodeVote block).getD []).map Prod.fst)).Nodup ∧
        ∃ votesDepth totalVoteBlocks totalVoteCount,
          sampleReorged.collectVotes proposerBlocks =
            some (votesDepth, totalVoteBlocks, totalVoteCount) ∧
          totalVoteCount ≤ sampleReorged.config.voterChains) ∧
      (∀ (anyPolicy : ConfirmationPolicy Nat) level quantile,
        level ≤ sampleReorged.proposerBestLevel →
        ∃ leader, sampleReorged.proposerLeader anyPolicy level quantile = some leader) ∧
      ∀ proposer chainNum voteLevel,
        (chainNum, voteLevel) ∈ (sampleReorged.proposerNodeVote proposer).getD [] →
        ∃ best blocks, sampleReorged.voterBest[chainNum]? = some best ∧ voteLevel ≤ best.2 ∧
          sampleReorged.numVoterBlocks chainNum voteLevel best.2 = some blocks :=
  ⟨sampleReorged_reachable, by decide, one_vote_per_chain_per_level sampleReorged_reachable⟩

end Run

end Prism
