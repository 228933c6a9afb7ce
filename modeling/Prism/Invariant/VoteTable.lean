import Prism.Invariant.Index
import Mathlib

/-!
# The vote table

`PROPOSER_NODE_VOTE` holds, for every proposer block, the votes cast on it by
the main chain of each voter chain: the blocks on the voter-parent path from
the chain's ledger tip back to its genesis block.  `update_ledger` keeps it so
by merging the difference between the old and the new tip, removals first.

The path of a voter block votes for exactly one proposer block of each level
up to its voted level (`VoterIndex.pathVotes_perm`), which is what bounds the
votes that `proposer_leader` counts on one level by the number of chains.
-/

namespace Prism

namespace BlockChain

variable {H : Type}

/-- `ancestor` is on the voter-parent path from `hash`, `hash` included. -/
def VoterAncestor (chain : BlockChain H) (hash ancestor : H) : Prop :=
  Relation.ReflTransGen (fun child parent => chain.voterParentNeighbor child = some parent) hash ancestor

/-- The votes of the main chain of chain `chainNum`: the path votes of its
ledger tip. -/
def mainChainVotes (chain : BlockChain H) (chainNum : Nat) : Option (List (H × Nat)) := do
  let tip ← chain.voterLedgerTips[chainNum]?
  let level ← chain.voterNodeLevel tip
  chain.pathVotes tip level

/-! ## Votes along a path -/

section Paths

variable [DecidableEq H] {chain : BlockChain H}

/-- The path votes of a voter block are the votes of the blocks on its path,
each tagged with the level of the block, which is at most the block's own. -/
theorem VoterIndex.mem_pathVotes (index : chain.VoterIndex) :
    ∀ level hash, chain.voterNodeLevel hash = some level →
      ∃ votes, chain.pathVotes hash level = some votes ∧ (∀ vote ∈ votes, vote.2 ≤ level) ∧
        ∀ proposer voterLevel, (proposer, voterLevel) ∈ votes ↔
          ∃ ancestor, chain.VoterAncestor hash ancestor ∧ chain.voterNodeLevel ancestor = some voterLevel ∧
            proposer ∈ (chain.voteNeighbor ancestor).getD [] := by
  intro level
  induction level with
  | zero =>
      intro hash atZero
      obtain ⟨votes, votesEq⟩ := Option.isSome_iff_exists.mp (index.votes_isSome hash 0 atZero)
      refine ⟨votes.map (·, 0), by simp [pathVotes, votesEq], by simp, fun proposer voterLevel => ?_⟩
      -- a genesis block has no voter parent: it is its own only ancestor
      have onlySelf : ∀ ancestor, chain.VoterAncestor hash ancestor → ancestor = hash := by
        intro ancestor onPath
        rcases Relation.ReflTransGen.cases_head onPath with same | ⟨parent, parentEq, _⟩
        · exact same.symm
        · rw [index.root hash atZero] at parentEq
          cases parentEq
      constructor
      · intro member
        obtain ⟨proposer', proposerIn, pairEq⟩ := List.mem_map.mp member
        simp only [Prod.mk.injEq] at pairEq
        obtain ⟨rfl, rfl⟩ := pairEq
        exact ⟨hash, Relation.ReflTransGen.refl, atZero, by rw [votesEq]; exact proposerIn⟩
      · rintro ⟨ancestor, onPath, ancestorAt, proposerIn⟩
        obtain rfl := onlySelf ancestor onPath
        rw [atZero, Option.some.injEq] at ancestorAt
        subst ancestorAt
        rw [votesEq, Option.getD_some] at proposerIn
        exact List.mem_map.mpr ⟨proposer, proposerIn, rfl⟩
  | succ level inductionHypothesis =>
      intro hash atLevel
      obtain ⟨votes, votesEq⟩ := Option.isSome_iff_exists.mp (index.votes_isSome hash _ atLevel)
      obtain ⟨parent, parentEq, parentAt, _⟩ := index.parent hash level atLevel
      obtain ⟨below, belowEq, belowLevels, belowMem⟩ := inductionHypothesis parent parentAt
      refine ⟨votes.map (·, level + 1) ++ below, by simp [pathVotes, votesEq, parentEq, belowEq], ?_,
        fun proposer voterLevel => ?_⟩
      · intro vote member
        rcases List.mem_append.mp member with own | older
        · obtain ⟨_, _, rfl⟩ := List.mem_map.mp own
          exact Nat.le_refl _
        · have := belowLevels vote older
          omega
      rw [List.mem_append, belowMem]
      constructor
      · rintro (own | ⟨ancestor, onPath, ancestorAt, proposerIn⟩)
        · obtain ⟨proposer', proposerIn, pairEq⟩ := List.mem_map.mp own
          simp only [Prod.mk.injEq] at pairEq
          obtain ⟨rfl, rfl⟩ := pairEq
          exact ⟨hash, Relation.ReflTransGen.refl, atLevel, by rw [votesEq]; exact proposerIn⟩
        · exact ⟨ancestor, Relation.ReflTransGen.head parentEq onPath, ancestorAt, proposerIn⟩
      · rintro ⟨ancestor, onPath, ancestorAt, proposerIn⟩
        rcases Relation.ReflTransGen.cases_head onPath with same | ⟨next, nextEq, rest⟩
        · subst same
          rw [atLevel, Option.some.injEq] at ancestorAt
          subst ancestorAt
          rw [votesEq, Option.getD_some] at proposerIn
          exact .inl (List.mem_map.mpr ⟨proposer, proposerIn, rfl⟩)
        · rw [parentEq, Option.some.injEq] at nextEq
          subst nextEq
          exact .inr ⟨ancestor, rest, ancestorAt, proposerIn⟩

/-- The blocks on the path of a voter block vote, together, for one proposer
block of each level from the genesis level up to the block's voted level. -/
theorem VoterIndex.pathVotes_perm (index : chain.VoterIndex) (proposers : chain.ProposerIndex) :
    ∀ level hash, chain.voterNodeLevel hash = some level →
      ∃ votes voted, chain.pathVotes hash level = some votes ∧ chain.voterNodeVotedLevel hash = some voted ∧
        (votes.map (fun vote => chain.proposerNodeLevel vote.1)).Perm ((List.range (voted + 1)).map some) := by
  intro level
  induction level with
  | zero =>
      intro hash atZero
      -- a block at level zero is the genesis block of its chain
      obtain ⟨chainNum, chainAt⟩ := Option.isSome_iff_exists.mp (index.chain_isSome hash 0 atZero)
      obtain ⟨_, _, votesEq, votedAt⟩ := index.genesis_block chainNum hash (index.genesis hash chainNum atZero chainAt)
      refine ⟨[(chain.config.proposerGenesis, 0)], 0, by simp [pathVotes, votesEq], votedAt, ?_⟩
      simp [proposers.genesis_level]
  | succ level inductionHypothesis =>
      intro hash atLevel
      obtain ⟨parent, votes, parentVoted, voted, parentEq, votesEq, parentVotedAt, votedAt, votedLe, levels⟩ :=
        index.votes hash level atLevel
      obtain ⟨parent', parentEq', parentAt, _⟩ := index.parent hash level atLevel
      rw [parentEq, Option.some.injEq] at parentEq'
      subst parentEq'
      obtain ⟨below, parentVoted', belowEq, parentVotedAt', belowPerm⟩ := inductionHypothesis parent parentAt
      rw [parentVotedAt, Option.some.injEq] at parentVotedAt'
      subst parentVotedAt'
      refine ⟨votes.map (·, level + 1) ++ below, voted, by simp [pathVotes, votesEq, parentEq, belowEq], votedAt, ?_⟩
      -- the new levels follow the parent's: `0..=parentVoted` then `parentVoted+1..=voted`
      have split : List.range (voted + 1) =
          List.range (parentVoted + 1) ++ List.range' (parentVoted + 1) (voted - parentVoted) := by
        have total : voted + 1 = (parentVoted + 1) + (voted - parentVoted) := by omega
        rw [total, List.range_eq_range', List.range_eq_range']
        simpa using (List.range'_append_1 (s := 0) (m := parentVoted + 1) (n := voted - parentVoted)).symm
      rw [List.map_append, List.map_map, split, List.map_append]
      have ownLevels : votes.map ((fun vote => chain.proposerNodeLevel vote.1) ∘ (·, level + 1)) =
          votes.map chain.proposerNodeLevel := rfl
      rw [ownLevels, levels]
      exact List.perm_append_comm.trans (List.Perm.append_right _ belowPerm)

/-- Path votes have no duplicates, and no two of them are for proposer blocks
of the same level. -/
theorem VoterIndex.pathVotes_distinct (index : chain.VoterIndex) (proposers : chain.ProposerIndex)
    {level : Nat} {hash : H} {votes : List (H × Nat)} (atLevel : chain.voterNodeLevel hash = some level)
    (votesEq : chain.pathVotes hash level = some votes) :
    (votes.map (fun vote => chain.proposerNodeLevel vote.1)).Nodup ∧ votes.Nodup ∧
      ∀ vote ∈ votes, ∃ proposerLevel, chain.proposerNodeLevel vote.1 = some proposerLevel := by
  obtain ⟨votes', voted, votesEq', _, perm⟩ := index.pathVotes_perm proposers level hash atLevel
  rw [votesEq, Option.some.injEq] at votesEq'
  subst votesEq'
  have mapped : (votes.map (fun vote => chain.proposerNodeLevel vote.1)).Nodup :=
    perm.nodup_iff.mpr ((List.nodup_range).map (Option.some_injective _))
  refine ⟨mapped, mapped.of_map _, fun vote member => ?_⟩
  have inRange : chain.proposerNodeLevel vote.1 ∈ (List.range (voted + 1)).map some :=
    perm.subset (List.mem_map_of_mem member)
  obtain ⟨proposerLevel, _, isLevel⟩ := List.mem_map.mp inRange
  exact ⟨proposerLevel, isLevel.symm⟩

/-- A vote cast above level zero is for a proposer block above level zero. -/
theorem VoterIndex.proposerLevel_pos (index : chain.VoterIndex) {ancestor proposer : H} {voterLevel : Nat}
    (ancestorAt : chain.voterNodeLevel ancestor = some (voterLevel + 1))
    (member : proposer ∈ (chain.voteNeighbor ancestor).getD []) :
    ∃ proposerLevel, chain.proposerNodeLevel proposer = some proposerLevel ∧ 0 < proposerLevel := by
  obtain ⟨_, votes, parentVoted, voted, _, votesEq, _, _, _, levels⟩ := index.votes ancestor voterLevel ancestorAt
  rw [votesEq, Option.getD_some] at member
  have inRange : chain.proposerNodeLevel proposer ∈
      (List.range' (parentVoted + 1) (voted - parentVoted)).map some := by
    rw [← levels]
    exact List.mem_map_of_mem member
  obtain ⟨proposerLevel, inRange', isLevel⟩ := List.mem_map.mp inRange
  rw [List.mem_range'_1] at inRange'
  exact ⟨proposerLevel, isLevel.symm, by omega⟩

/-- A vote cast above voter level zero on the path of a voter block is for a
proposer block between level one and the best level. -/
theorem VoterIndex.pathVote_level (index : chain.VoterIndex) (proposers : chain.ProposerIndex) {hash : H}
    {level voterLevel : Nat} {votes : List (H × Nat)} {proposer : H}
    (atLevel : chain.voterNodeLevel hash = some level) (votesEq : chain.pathVotes hash level = some votes)
    (member : (proposer, voterLevel) ∈ votes) (positive : 0 < voterLevel) :
    ∃ proposerLevel, chain.proposerNodeLevel proposer = some proposerLevel ∧ 1 ≤ proposerLevel ∧
      proposerLevel ≤ chain.proposerBestLevel := by
  obtain ⟨votes', votesEq', _, votesMem⟩ := index.mem_pathVotes level hash atLevel
  rw [votesEq, Option.some.injEq] at votesEq'
  subst votesEq'
  obtain ⟨ancestor, _, ancestorAt, proposerIn⟩ := (votesMem proposer voterLevel).mp member
  obtain ⟨below, rfl⟩ : ∃ below, voterLevel = below + 1 := ⟨voterLevel - 1, by omega⟩
  obtain ⟨proposerLevel, proposerAt, proposerPos⟩ := index.proposerLevel_pos ancestorAt proposerIn
  exact ⟨proposerLevel, proposerAt, proposerPos, proposers.le_best proposer proposerLevel proposerAt⟩

omit [DecidableEq H] in
/-- The path votes of a block read only the votes and voter parents of voter
blocks: a state that agrees there has the same path votes. -/
theorem VoterTree.pathVotes_congr (tree : chain.VoterTree) {next : BlockChain H}
    (votesAgree : ∀ hash, (chain.voterNodeLevel hash).isSome → next.voteNeighbor hash = chain.voteNeighbor hash)
    (parentsAgree : ∀ hash, (chain.voterNodeLevel hash).isSome →
      next.voterParentNeighbor hash = chain.voterParentNeighbor hash) :
    ∀ level hash, chain.voterNodeLevel hash = some level → next.pathVotes hash level = chain.pathVotes hash level := by
  intro level
  induction level with
  | zero =>
      intro hash atZero
      simp only [pathVotes, votesAgree hash (by rw [atZero]; rfl)]
  | succ level inductionHypothesis =>
      intro hash atLevel
      obtain ⟨parent, parentEq, parentAt, _⟩ := tree.parent hash level atLevel
      have present : (chain.voterNodeLevel hash).isSome := by rw [atLevel]; rfl
      simp only [pathVotes, votesAgree hash present, parentsAgree hash present, parentEq, Option.bind_eq_bind,
        Option.bind_some, inductionHypothesis parent parentAt]

end Paths

/-! ## The vote table -/

section Table

variable {chain : BlockChain H}

/-- `PROPOSER_NODE_VOTE` refines the main chains: every entry is free of
duplicates and holds `(c, l)` exactly when the block of voter level `l` on the
main chain of chain `c` votes for the proposer block. -/
structure VoteTable (chain : BlockChain H) : Prop where
  /-- One ledger tip per chain. -/
  tips_length : chain.voterLedgerTips.length = chain.config.voterChains
  /-- The ledger tip of a chain is a voter block of that chain. -/
  tip_block : ∀ chainNum tip, chain.voterLedgerTips[chainNum]? = some tip →
    (chain.voterNodeLevel tip).isSome ∧ chain.voterNodeChain tip = some chainNum
  /-- No entry holds a vote twice. -/
  nodup : ∀ proposer, ((chain.proposerNodeVote proposer).getD []).Nodup
  /-- The entries are the votes of the main chains. -/
  mem : ∀ proposer chainNum level, (chainNum, level) ∈ (chain.proposerNodeVote proposer).getD [] ↔
    ∃ votes, chain.mainChainVotes chainNum = some votes ∧ (proposer, level) ∈ votes

theorem mainChainVotes_eq {chainNum level : Nat} {tip : H}
    (tipAt : chain.voterLedgerTips[chainNum]? = some tip) (levelAt : chain.voterNodeLevel tip = some level) :
    chain.mainChainVotes chainNum = chain.pathVotes tip level := by
  simp [mainChainVotes, tipAt, levelAt]

/-- The main chain of a chain is the path of its tip. -/
theorem mainChainVotes_eq_some {chainNum : Nat} {votes : List (H × Nat)}
    (mainEq : chain.mainChainVotes chainNum = some votes) :
    ∃ tip tipLevel, chain.voterLedgerTips[chainNum]? = some tip ∧ chain.voterNodeLevel tip = some tipLevel ∧
      chain.pathVotes tip tipLevel = some votes := by
  simp only [mainChainVotes, Option.bind_eq_bind, Option.bind_eq_some_iff] at mainEq
  obtain ⟨tip, tipAt, tipLevel, tipLevelAt, pathEq⟩ := mainEq
  exact ⟨tip, tipLevel, tipAt, tipLevelAt, pathEq⟩

/-- Path votes read only the votes and the voter parents. -/
theorem pathVotes_eq_of_fields {next : BlockChain H} (votesEq : next.voteNeighbor = chain.voteNeighbor)
    (parentsEq : next.voterParentNeighbor = chain.voterParentNeighbor) : next.pathVotes = chain.pathVotes := by
  funext hash level
  induction level generalizing hash with
  | zero => simp [pathVotes, votesEq]
  | succ level inductionHypothesis => simp [pathVotes, votesEq, parentsEq, inductionHypothesis]

/-- Moving the ledger tip of one chain changes the main chain of that chain
only. -/
theorem mainChainVotes_of_setTip {next : BlockChain H} {chainNum : Nat} {tip : H}
    (within : chainNum < chain.voterLedgerTips.length)
    (tipsEq : next.voterLedgerTips = chain.voterLedgerTips.set chainNum tip)
    (levelsEq : next.voterNodeLevel = chain.voterNodeLevel) (votesEq : next.voteNeighbor = chain.voteNeighbor)
    (parentsEq : next.voterParentNeighbor = chain.voterParentNeighbor) (other : Nat) :
    next.mainChainVotes other =
      if other = chainNum then (chain.voterNodeLevel tip).bind (chain.pathVotes tip) else chain.mainChainVotes other := by
  unfold mainChainVotes
  rw [tipsEq, levelsEq, pathVotes_eq_of_fields votesEq parentsEq]
  by_cases same : other = chainNum
  · subst same
    simp [List.getElem?_set_self within]
  · simp [List.getElem?_set_ne (Ne.symm same), same]

/-- The main chains read only the tips and, on voter blocks, the levels, votes
and voter parents. -/
theorem VoterTree.mainChainVotes_congr (tree : chain.VoterTree) {next : BlockChain H}
    (tipsEq : next.voterLedgerTips = chain.voterLedgerTips)
    (tipsAt : ∀ (chainNum : Nat) (tip : H), chain.voterLedgerTips[chainNum]? = some tip →
      (chain.voterNodeLevel tip).isSome)
    (levelsAgree : ∀ hash, (chain.voterNodeLevel hash).isSome → next.voterNodeLevel hash = chain.voterNodeLevel hash)
    (votesAgree : ∀ hash, (chain.voterNodeLevel hash).isSome → next.voteNeighbor hash = chain.voteNeighbor hash)
    (parentsAgree : ∀ hash, (chain.voterNodeLevel hash).isSome →
      next.voterParentNeighbor hash = chain.voterParentNeighbor hash) (chainNum : Nat) :
    next.mainChainVotes chainNum = chain.mainChainVotes chainNum := by
  cases tipAt : chain.voterLedgerTips[chainNum]? with
  | none => simp [mainChainVotes, tipsEq, tipAt]
  | some tip =>
      have present := tipsAt chainNum tip tipAt
      obtain ⟨level, levelAt⟩ := Option.isSome_iff_exists.mp present
      rw [mainChainVotes_eq tipAt levelAt, mainChainVotes_eq (tipsEq ▸ tipAt) ((levelsAgree tip present).trans levelAt)]
      exact tree.pathVotes_congr votesAgree parentsAgree level tip levelAt

/-- A state that agrees on the vote table, the tips and, on voter blocks, on
everything the main chains read keeps the vote table. -/
theorem VoteTable.of_agree (table : chain.VoteTable) (tree : chain.VoterTree) {next : BlockChain H}
    (configEq : next.config = chain.config) (votesEq : next.proposerNodeVote = chain.proposerNodeVote)
    (tipsEq : next.voterLedgerTips = chain.voterLedgerTips)
    (levelsAgree : ∀ hash, (chain.voterNodeLevel hash).isSome → next.voterNodeLevel hash = chain.voterNodeLevel hash)
    (chainsAgree : ∀ hash, (chain.voterNodeLevel hash).isSome → next.voterNodeChain hash = chain.voterNodeChain hash)
    (voteNeighborsAgree : ∀ hash, (chain.voterNodeLevel hash).isSome →
      next.voteNeighbor hash = chain.voteNeighbor hash)
    (parentsAgree : ∀ hash, (chain.voterNodeLevel hash).isSome →
      next.voterParentNeighbor hash = chain.voterParentNeighbor hash) :
    next.VoteTable := by
  refine ⟨?_, fun chainNum tip tipAt => ?_, ?_, fun proposer chainNum level => ?_⟩
  · rw [tipsEq, configEq]
    exact table.tips_length
  · rw [tipsEq] at tipAt
    obtain ⟨present, chainAt⟩ := table.tip_block chainNum tip tipAt
    rw [levelsAgree tip present, chainsAgree tip present]
    exact ⟨present, chainAt⟩
  · rw [votesEq]
    exact table.nodup
  · rw [votesEq, tree.mainChainVotes_congr tipsEq (fun chainNum tip tipAt => (table.tip_block chainNum tip tipAt).1)
      levelsAgree voteNeighborsAgree parentsAgree]
    exact table.mem proposer chainNum level

end Table

/-! ## Merging the votes of one chain

`affected_range` only ever grows by the levels of voted proposer blocks, which
are between one and the best level. -/

section Merge

variable [DecidableEq H]

/-- `affected_range` starts at level one or later and ends at most one past
`bound`. -/
def RangeWithin (bound : Nat) (range : Nat × Nat) : Prop :=
  1 ≤ range.1 ∧ range.2 ≤ bound + 1

omit [DecidableEq H] in
theorem rangeWithin_empty (bound : Nat) : RangeWithin bound (u64Max, 0) := by
  simp [RangeWithin, u64Max]

omit [DecidableEq H] in
theorem widenRange_within {bound level : Nat} {range : Nat × Nat} (within : RangeWithin bound range)
    (positive : 1 ≤ level) (below : level ≤ bound) : RangeWithin bound (widenRange range level) := by
  simp only [RangeWithin, widenRange] at within ⊢
  split_ifs <;> omega

/-- A merge whose operation applies, on a voted block with a level, succeeds
and writes the operation's result to that block's entry only. -/
theorem mergeVote_spec {chainNum : Nat} {add : Bool} {state : BlockChain H × (Nat × Nat)} {vote : H × Nat}
    {result : List (Nat × Nat)}
    (operated : voteOperation ((state.1.proposerNodeVote vote.1).getD []) (add, chainNum, vote.2) = some result)
    (levelSome : (state.1.proposerNodeLevel vote.1).isSome) :
    ∃ next, mergeVote chainNum add state vote = some next ∧ VotesFrame state.1 next.1 ∧
      ∀ proposer, (next.1.proposerNodeVote proposer).getD [] =
        if proposer = vote.1 then result else (state.1.proposerNodeVote proposer).getD [] := by
  obtain ⟨level, levelAt⟩ := Option.isSome_iff_exists.mp levelSome
  refine ⟨_, mergeVote_of_some operated levelAt, rfl, fun proposer => ?_⟩
  by_cases same : proposer = vote.1
  · subst same
    simp
  · simp [same]

/-- The levels of the voted blocks bound the range a merge loop leaves. -/
theorem foldlM_mergeVote_within {chainNum bound : Nat} {add : Bool} {votes : List (H × Nat)}
    {state next : BlockChain H × (Nat × Nat)} (merged : votes.foldlM (mergeVote chainNum add) state = some next)
    (levels : ∀ vote ∈ votes, ∀ level, state.1.proposerNodeLevel vote.1 = some level → 1 ≤ level ∧ level ≤ bound)
    (within : RangeWithin bound state.2) : RangeWithin bound next.2 := by
  refine (List.foldlM_option_invariant
    (fun current => current.1.proposerNodeLevel = state.1.proposerNodeLevel ∧ RangeWithin bound current.2)
    votes ?_ state next ⟨rfl, within⟩ merged).2
  rintro current vote after member ⟨levelsEq, currentWithin⟩ stepped
  obtain ⟨result, level, _, levelAt, rfl⟩ := mergeVote_eq_some stepped
  rw [levelsEq] at levelAt
  obtain ⟨positive, below⟩ := levels vote member level levelAt
  exact ⟨levelsEq, widenRange_within currentWithin positive below⟩

/-- Merging the removal of votes that are all in the table: every merge finds
its entry, and the votes of chain `chainNum` that the list names leave the
table. -/
theorem foldlM_mergeVote_remove (chainNum : Nat) :
    ∀ (votes : List (H × Nat)) (state : BlockChain H × (Nat × Nat)), votes.Nodup →
      (∀ proposer, ((state.1.proposerNodeVote proposer).getD []).Nodup) →
      (∀ vote ∈ votes, (chainNum, vote.2) ∈ (state.1.proposerNodeVote vote.1).getD [] ∧
        (state.1.proposerNodeLevel vote.1).isSome) →
      ∃ next, votes.foldlM (mergeVote chainNum false) state = some next ∧
        (∀ proposer, ((next.1.proposerNodeVote proposer).getD []).Nodup) ∧
        ∀ proposer pair, pair ∈ (next.1.proposerNodeVote proposer).getD [] ↔
          pair ∈ (state.1.proposerNodeVote proposer).getD [] ∧ ¬(pair.1 = chainNum ∧ (proposer, pair.2) ∈ votes) := by
  intro votes
  induction votes with
  | nil =>
      intro state _ distinct _
      exact ⟨state, rfl, distinct, fun proposer pair => by simp⟩
  | cons vote rest inductionHypothesis =>
      obtain ⟨voted, voteLevel⟩ := vote
      intro state votesDistinct distinct present
      obtain ⟨voteAbsent, restDistinct⟩ := List.nodup_cons.mp votesDistinct
      obtain ⟨voteIn, levelSome⟩ := present (voted, voteLevel) List.mem_cons_self
      obtain ⟨result, operated, resultDistinct, resultMem⟩ := voteOperation_remove (distinct voted) voteIn
      obtain ⟨middle, stepped, frame, middleVotes⟩ := mergeVote_spec operated levelSome
      dsimp only at middleVotes
      have middleLevels : middle.1.proposerNodeLevel = state.1.proposerNodeLevel :=
        frame.proposerNodeLevel_eq
      -- the later removals still find their entries: each is a different vote
      have restPresent : ∀ other ∈ rest, (chainNum, other.2) ∈ (middle.1.proposerNodeVote other.1).getD [] ∧
          (middle.1.proposerNodeLevel other.1).isSome := by
        intro other member
        obtain ⟨otherIn, otherLevel⟩ := present other (List.mem_cons_of_mem _ member)
        refine ⟨?_, by rw [middleLevels]; exact otherLevel⟩
        rw [middleVotes]
        split_ifs with same
        · rw [resultMem, ← same]
          refine ⟨otherIn, fun pairEq => voteAbsent ?_⟩
          have sameVote : other = (voted, voteLevel) := Prod.ext same (Prod.mk.inj pairEq).2
          exact sameVote ▸ member
        · exact otherIn
      have middleDistinct : ∀ proposer, ((middle.1.proposerNodeVote proposer).getD []).Nodup := by
        intro proposer
        rw [middleVotes]
        split_ifs
        · exact resultDistinct
        · exact distinct proposer
      obtain ⟨next, finished, nextDistinct, nextMem⟩ := inductionHypothesis middle restDistinct middleDistinct restPresent
      refine ⟨next, by rw [List.foldlM_option_cons, stepped, Option.bind_some]; exact finished, nextDistinct, ?_⟩
      rintro proposer ⟨otherChain, level⟩
      rw [nextMem, middleVotes]
      by_cases same : proposer = voted
      · subst same
        rw [if_pos rfl, resultMem]
        simp only [ne_eq, Prod.mk.injEq, List.mem_cons, true_and]
        tauto
      · rw [if_neg same]
        simp [same]

/-- Merging the addition of votes on blocks with a level: every merge
succeeds, and the votes of chain `chainNum` that the list names join the
table once. -/
theorem foldlM_mergeVote_add (chainNum : Nat) :
    ∀ (votes : List (H × Nat)) (state : BlockChain H × (Nat × Nat)),
      (∀ proposer, ((state.1.proposerNodeVote proposer).getD []).Nodup) →
      (∀ vote ∈ votes, (state.1.proposerNodeLevel vote.1).isSome) →
      ∃ next, votes.foldlM (mergeVote chainNum true) state = some next ∧
        (∀ proposer, ((next.1.proposerNodeVote proposer).getD []).Nodup) ∧
        ∀ proposer pair, pair ∈ (next.1.proposerNodeVote proposer).getD [] ↔
          pair ∈ (state.1.proposerNodeVote proposer).getD [] ∨ (pair.1 = chainNum ∧ (proposer, pair.2) ∈ votes) := by
  intro votes
  induction votes with
  | nil =>
      intro state distinct _
      exact ⟨state, rfl, distinct, fun proposer pair => by simp⟩
  | cons vote rest inductionHypothesis =>
      obtain ⟨voted, voteLevel⟩ := vote
      intro state distinct present
      obtain ⟨middle, stepped, frame, middleVotes⟩ :=
        mergeVote_spec (voteOperation_add _ chainNum voteLevel) (present (voted, voteLevel) List.mem_cons_self)
      dsimp only at middleVotes
      have middleLevels : middle.1.proposerNodeLevel = state.1.proposerNodeLevel :=
        frame.proposerNodeLevel_eq
      have middleDistinct : ∀ proposer, ((middle.1.proposerNodeVote proposer).getD []).Nodup := by
        intro proposer
        rw [middleVotes]
        split_ifs
        · exact (distinct voted).pushIfAbsent _
        · exact distinct proposer
      obtain ⟨next, finished, nextDistinct, nextMem⟩ := inductionHypothesis middle middleDistinct
        (fun other member => by rw [middleLevels]; exact present other (List.mem_cons_of_mem _ member))
      refine ⟨next, by rw [List.foldlM_option_cons, stepped, Option.bind_some]; exact finished, nextDistinct, ?_⟩
      rintro proposer ⟨otherChain, level⟩
      rw [nextMem, middleVotes]
      by_cases same : proposer = voted
      · subst same
        rw [if_pos rfl, List.mem_pushIfAbsent]
        simp only [Prod.mk.injEq, List.mem_cons, true_and]
        tauto
      · rw [if_neg same]
        simp [same]

end Merge

/-! ## The chain loop of `update_ledger` -/

section Update

variable [DecidableEq H] {chain : BlockChain H}

/-- The merges of one chain's vote difference, once the old tip and the best
block are split at their common ancestor: the removals all find their entries,
the additions succeed, and the table afterwards refines the main chain of the
best block, with the range within the proposer levels. -/
theorem VoteTable.mergeDiff (table : chain.VoteTable) (index : chain.VoterIndex) (proposers : chain.ProposerIndex)
    {chainNum fromLevel ancestorLevel : Nat} {fromTip : H} {best : H × Nat} {range : Nat × Nat}
    {added removed common : List (H × Nat)}
    (fromEq : chain.voterLedgerTips[chainNum]? = some fromTip) (bestEq : chain.voterBest[chainNum]? = some best)
    (fromAt : chain.voterNodeLevel fromTip = some fromLevel)
    (toPath : chain.pathVotes best.1 best.2 = some (added ++ common))
    (fromPath : chain.pathVotes fromTip fromLevel = some (removed ++ common))
    (addedAbove : ∀ vote ∈ added, ancestorLevel < vote.2) (removedAbove : ∀ vote ∈ removed, ancestorLevel < vote.2)
    (within : RangeWithin chain.proposerBestLevel range) :
    ∃ next, (removed.foldlM (mergeVote chainNum false)
        ({ chain with voterLedgerTips := chain.voterLedgerTips.set chainNum best.1 }, range)).bind
        (added.foldlM (mergeVote chainNum true)) = some next ∧
      next.1.VoteTable ∧ RangeWithin next.1.proposerBestLevel next.2 := by
  obtain ⟨toAt, toChain⟩ := index.best_block chainNum best bestEq
  have mainEq : chain.mainChainVotes chainNum = some (removed ++ common) := by
    rw [mainChainVotes_eq fromEq fromAt, fromPath]
  obtain ⟨_, fromDistinct, fromLevels⟩ := index.pathVotes_distinct proposers fromAt fromPath
  obtain ⟨_, _, toLevels⟩ := index.pathVotes_distinct proposers toAt toPath
  -- the removals find their entries: the old tip's main chain cast them
  obtain ⟨middle, removedEq, middleDistinct, middleMem⟩ := foldlM_mergeVote_remove chainNum removed
    ({ chain with voterLedgerTips := chain.voterLedgerTips.set chainNum best.1 }, range)
    (List.nodup_append.mp fromDistinct).1 table.nodup
    (fun vote member => ⟨(table.mem vote.1 chainNum vote.2).mpr ⟨_, mainEq, List.mem_append_left _ member⟩,
      Option.isSome_iff_exists.mpr (fromLevels vote (List.mem_append_left _ member))⟩)
  have middleFrame := foldlM_mergeVote_frame removedEq
  obtain ⟨final, addedEq, finalDistinct, finalMem⟩ := foldlM_mergeVote_add chainNum added middle middleDistinct
    (fun vote member => by
      rw [middleFrame.proposerNodeLevel_eq]
      exact Option.isSome_iff_exists.mpr (toLevels vote (List.mem_append_left _ member)))
  refine ⟨final, by rw [removedEq, Option.bind_some]; exact addedEq, ?_, ?_⟩
  · -- past the merges, only the tip of this chain and the table have changed
    have shape : final.1 = { chain with
        voterLedgerTips := chain.voterLedgerTips.set chainNum best.1
        proposerNodeVote := final.1.proposerNodeVote } := middleFrame.trans (foldlM_mergeVote_frame addedEq)
    have tipsEq : final.1.voterLedgerTips = chain.voterLedgerTips.set chainNum best.1 := by rw [shape]
    have levelsEq : final.1.voterNodeLevel = chain.voterNodeLevel := by rw [shape]
    have chainsEq : final.1.voterNodeChain = chain.voterNodeChain := by rw [shape]
    have within : chainNum < chain.voterLedgerTips.length := (List.getElem?_eq_some_iff.mp fromEq).1
    have mainAfter : ∀ other, final.1.mainChainVotes other =
        if other = chainNum then some (added ++ common) else chain.mainChainVotes other := by
      intro other
      rw [mainChainVotes_of_setTip within tipsEq levelsEq (by rw [shape]) (by rw [shape]), toAt, Option.bind_some,
        toPath]
    refine ⟨?_, fun other tip tipAt => ?_, finalDistinct, fun proposer other level => ?_⟩
    · rw [tipsEq, List.length_set, show final.1.config = chain.config by rw [shape]]
      exact table.tips_length
    · rw [tipsEq, List.getElem?_set] at tipAt
      rw [levelsEq, chainsEq]
      split_ifs at tipAt with same
      · obtain ⟨_, rfl⟩ := tipAt
        rw [toAt, toChain, same]
        exact ⟨rfl, rfl⟩
      · exact table.tip_block other tip tipAt
    · rw [finalMem, middleMem, mainAfter]
      dsimp only
      by_cases same : other = chainNum
      · subst same
        rw [table.mem, mainEq, if_pos rfl]
        simp only [Option.some.injEq, exists_eq_left', List.mem_append, true_and]
        -- a removed vote is not a common one: the old path has no duplicates
        have separate : (proposer, level) ∈ removed → (proposer, level) ∉ common :=
          fun removedIn commonIn => List.disjoint_of_nodup_append fromDistinct removedIn commonIn
        tauto
      · rw [if_neg same, table.mem]
        simp [same]
  · rw [show final.1.proposerBestLevel = chain.proposerBestLevel by
      rw [middleFrame.trans (foldlM_mergeVote_frame addedEq)]]
    refine foldlM_mergeVote_within addedEq ?_ (foldlM_mergeVote_within removedEq ?_ within)
    · intro vote member level levelAt
      rw [middleFrame.proposerNodeLevel_eq] at levelAt
      obtain ⟨proposerLevel, proposerAt, positive, below⟩ :=
        index.pathVote_level proposers toAt toPath (List.mem_append_left _ member)
          (Nat.lt_of_le_of_lt (Nat.zero_le _) (addedAbove vote member))
      rw [levelAt, Option.some.injEq] at proposerAt
      exact ⟨proposerAt ▸ positive, proposerAt ▸ below⟩
    · intro vote member level levelAt
      obtain ⟨proposerLevel, proposerAt, positive, below⟩ :=
        index.pathVote_level proposers fromAt fromPath (List.mem_append_left _ member)
          (Nat.lt_of_le_of_lt (Nat.zero_le _) (removedAbove vote member))
      rw [levelAt, Option.some.injEq] at proposerAt
      exact ⟨proposerAt ▸ positive, proposerAt ▸ below⟩

/-- One iteration of the chain loop, with whatever fuel it ran: the table
afterwards refines the main chains with this chain's tip moved to its best
block, and the range stays within the proposer levels. -/
theorem VoteTable.of_updateChainVotes {state next : BlockChain H × (Nat × Nat)} (table : state.1.VoteTable)
    (index : state.1.VoterIndex) (proposers : state.1.ProposerIndex) {fuel chainNum : Nat}
    (within : RangeWithin state.1.proposerBestLevel state.2)
    (updated : updateChainVotes fuel state chainNum = some next) :
    next.1.VoteTable ∧ RangeWithin next.1.proposerBestLevel next.2 := by
  cases fromEq : state.1.voterLedgerTips[chainNum]? with
  | none =>
      unfold updateChainVotes at updated
      simp [fromEq] at updated
  | some fromTip =>
      cases bestEq : state.1.voterBest[chainNum]? with
      | none =>
          unfold updateChainVotes at updated
          simp [fromEq, bestEq] at updated
      | some best =>
          rw [updateChainVotes_eq_bind fromEq bestEq] at updated
          obtain ⟨fromPresent, fromChain⟩ := table.tip_block chainNum fromTip fromEq
          obtain ⟨fromLevel, fromAt⟩ := Option.isSome_iff_exists.mp fromPresent
          obtain ⟨toAt, toChain⟩ := index.best_block chainNum best bestEq
          -- the difference is computed once the tip has moved, which it does not read
          have movedFrame : LedgerFrame state.1
              { state.1 with voterLedgerTips := state.1.voterLedgerTips.set chainNum best.1 } := rfl
          have samePaths : ({ state.1 with voterLedgerTips := state.1.voterLedgerTips.set chainNum best.1 } :
              BlockChain H).pathVotes = state.1.pathVotes := pathVotes_eq_of_fields rfl rfl
          cases diffEq : ({ state.1 with voterLedgerTips := state.1.voterLedgerTips.set chainNum best.1 } :
              BlockChain H).voteDiff fuel fromTip best.1 with
          | none => simp [diffEq] at updated
          | some diff =>
              obtain ⟨added, removed⟩ := diff
              rw [diffEq, Option.bind_some] at updated
              obtain ⟨_, _, common, _, _, toPath, fromPath, addedAbove, removedAbove⟩ :=
                (index.ledgerFrame movedFrame).toVoterTree.voteDiff_of_eq_some fromAt toAt
                  (toChain.trans fromChain.symm) diffEq
              rw [samePaths] at toPath fromPath
              obtain ⟨final, merged, finalTable, finalWithin⟩ :=
                table.mergeDiff index proposers fromEq bestEq fromAt toPath fromPath addedAbove removedAbove within
              rw [merged, Option.some.injEq] at updated
              subst updated
              exact ⟨finalTable, finalWithin⟩

/-- One iteration of the chain loop returns when the fuel covers the voter
levels. -/
theorem VoteTable.updateChainVotes_isSome {state : BlockChain H × (Nat × Nat)} (table : state.1.VoteTable)
    (index : state.1.VoterIndex) (proposers : state.1.ProposerIndex) {fuel chainNum : Nat}
    (chainLt : chainNum < state.1.config.voterChains)
    (enough : ∀ hash level, state.1.voterNodeLevel hash = some level → level ≤ fuel)
    (within : RangeWithin state.1.proposerBestLevel state.2) :
    ∃ next, updateChainVotes fuel state chainNum = some next := by
  obtain ⟨fromTip, fromEq⟩ : ∃ fromTip, state.1.voterLedgerTips[chainNum]? = some fromTip :=
    ⟨_, List.getElem?_eq_getElem (by rw [table.tips_length]; exact chainLt)⟩
  obtain ⟨best, bestEq⟩ : ∃ best, state.1.voterBest[chainNum]? = some best :=
    ⟨_, List.getElem?_eq_getElem (by rw [index.best_length]; exact chainLt)⟩
  obtain ⟨fromPresent, fromChain⟩ := table.tip_block chainNum fromTip fromEq
  obtain ⟨fromLevel, fromAt⟩ := Option.isSome_iff_exists.mp fromPresent
  obtain ⟨toAt, toChain⟩ := index.best_block chainNum best bestEq
  have movedFrame : LedgerFrame state.1
      { state.1 with voterLedgerTips := state.1.voterLedgerTips.set chainNum best.1 } := rfl
  have samePaths : ({ state.1 with voterLedgerTips := state.1.voterLedgerTips.set chainNum best.1 } :
      BlockChain H).pathVotes = state.1.pathVotes := pathVotes_eq_of_fields rfl rfl
  obtain ⟨added, removed, _, _, common, diffEq, _, _, toPath, fromPath, addedAbove, removedAbove⟩ :=
    (index.ledgerFrame movedFrame).toVoterTree.voteDiff_spec fromAt toAt (toChain.trans fromChain.symm)
      (enough _ _ fromAt) (enough _ _ toAt)
  rw [samePaths] at toPath fromPath
  obtain ⟨final, merged, _⟩ :=
    table.mergeDiff index proposers fromEq bestEq fromAt toPath fromPath addedAbove removedAbove within
  exact ⟨final, by rw [updateChainVotes_eq_bind fromEq bestEq, diffEq, Option.bind_some]; exact merged⟩

/-- What the chain loop keeps of a state: the table, the range, and every
field outside the ones `update_ledger` writes. -/
def ChainLoopInvariant (chain : BlockChain H) (state : BlockChain H × (Nat × Nat)) : Prop :=
  state.1.VoteTable ∧ RangeWithin state.1.proposerBestLevel state.2 ∧ LedgerFrame chain state.1

/-- The first phase of `update_ledger`, with whatever fuel it ran: the table
refines the main chains of the new tips, and `affected_range` is within the
proposer levels. -/
theorem VoteTable.of_updateVotes (table : chain.VoteTable) (voters : chain.VoterIndex) (proposers : chain.ProposerIndex)
    {fuel : Nat} {next : BlockChain H × (Nat × Nat)} (updated : chain.updateVotes fuel = some next) :
    next.1.VoteTable ∧ RangeWithin next.1.proposerBestLevel next.2 := by
  refine (List.foldlM_option_invariant (ChainLoopInvariant chain) _ ?_ (chain, (u64Max, 0)) next
    ⟨table, rangeWithin_empty _, LedgerFrame.refl chain⟩ updated).imp_right And.left
  rintro state chainNum after _ ⟨stateTable, stateWithin, frame⟩ stepped
  obtain ⟨afterTable, afterWithin⟩ :=
    stateTable.of_updateChainVotes (voters.ledgerFrame frame) (proposers.ledgerFrame frame) stateWithin stepped
  exact ⟨afterTable, afterWithin, frame.trans (updateChainVotes_frame stepped)⟩

/-- The first phase of `update_ledger` returns when the fuel covers the voter
levels. -/
theorem VoteTable.updateVotes_isSome (table : chain.VoteTable) (voters : chain.VoterIndex)
    (proposers : chain.ProposerIndex) {fuel : Nat}
    (enough : ∀ hash level, chain.voterNodeLevel hash = some level → level ≤ fuel) :
    ∃ next, chain.updateVotes fuel = some next := by
  obtain ⟨next, updated, _⟩ := List.foldlM_option_exists (ChainLoopInvariant chain) (List.range chain.config.voterChains)
    (fun state chainNum member ⟨stateTable, stateWithin, frame⟩ => by
      have sameFields : state.1.voterNodeLevel = chain.voterNodeLevel ∧ state.1.config = chain.config := by
        rw [show state.1 = _ from frame]
        exact ⟨rfl, rfl⟩
      obtain ⟨after, stepped⟩ := stateTable.updateChainVotes_isSome (voters.ledgerFrame frame)
        (proposers.ledgerFrame frame) (by rw [sameFields.2]; exact List.mem_range.mp member)
        (by rw [sameFields.1]; exact enough) stateWithin
      obtain ⟨afterTable, afterWithin⟩ :=
        stateTable.of_updateChainVotes (voters.ledgerFrame frame) (proposers.ledgerFrame frame) stateWithin stepped
      exact ⟨after, stepped, afterTable, afterWithin, frame.trans (updateChainVotes_frame stepped)⟩)
    (chain, (u64Max, 0)) ⟨table, rangeWithin_empty _, LedgerFrame.refl chain⟩
  exact ⟨next, updated⟩

/-- The table read back through the voter chains: `(c, l)` is in the entry of a
proposer block exactly when `c` is a chain and the block of voter level `l` on
the path from the chain's ledger tip votes for it. -/
theorem VoteTable.mem_iff (table : chain.VoteTable) (index : chain.VoterIndex) (proposer : H)
    (chainNum level : Nat) :
    (chainNum, level) ∈ (chain.proposerNodeVote proposer).getD [] ↔
      chainNum < chain.config.voterChains ∧ ∃ tip block, chain.voterLedgerTips[chainNum]? = some tip ∧
        chain.VoterAncestor tip block ∧ chain.voterNodeLevel block = some level ∧
        proposer ∈ (chain.voteNeighbor block).getD [] := by
  rw [table.mem]
  constructor
  · rintro ⟨votes, mainEq, member⟩
    cases tipAt : chain.voterLedgerTips[chainNum]? with
    | none => simp [mainChainVotes, tipAt] at mainEq
    | some tip =>
        obtain ⟨tipLevel, tipLevelAt⟩ := Option.isSome_iff_exists.mp (table.tip_block chainNum tip tipAt).1
        obtain ⟨votes', votesEq, _, votesMem⟩ := index.mem_pathVotes tipLevel tip tipLevelAt
        rw [mainChainVotes_eq tipAt tipLevelAt, votesEq, Option.some.injEq] at mainEq
        subst mainEq
        obtain ⟨block, onPath, blockAt, proposerIn⟩ := (votesMem proposer level).mp member
        refine ⟨?_, tip, block, rfl, onPath, blockAt, proposerIn⟩
        rw [← table.tips_length]
        exact (List.getElem?_eq_some_iff.mp tipAt).1
  · rintro ⟨_, tip, block, tipAt, onPath, blockAt, proposerIn⟩
    obtain ⟨tipLevel, tipLevelAt⟩ := Option.isSome_iff_exists.mp (table.tip_block chainNum tip tipAt).1
    obtain ⟨votes, votesEq, _, votesMem⟩ := index.mem_pathVotes tipLevel tip tipLevelAt
    exact ⟨votes, by rw [mainChainVotes_eq tipAt tipLevelAt, votesEq],
      (votesMem proposer level).mpr ⟨block, onPath, blockAt, proposerIn⟩⟩

/-- No voter block is deeper than the sum of the best levels: fuel that large
covers every voter level. -/
theorem VoterIndex.level_le_sum (index : chain.VoterIndex) {hash : H} {level : Nat}
    (atLevel : chain.voterNodeLevel hash = some level) : level ≤ (chain.voterBest.map Prod.snd).sum := by
  obtain ⟨chainNum, chainAt⟩ := Option.isSome_iff_exists.mp (index.chain_isSome hash level atLevel)
  have chainLt := index.chain_lt hash chainNum chainAt
  obtain ⟨best, bestAt⟩ : ∃ best, chain.voterBest[chainNum]? = some best :=
    ⟨_, List.getElem?_eq_getElem (by rw [index.best_length]; exact chainLt)⟩
  calc level ≤ best.2 := index.le_best hash chainNum level best chainAt atLevel bestAt
    _ ≤ (chain.voterBest.map Prod.snd).sum :=
      List.le_sum_of_mem (List.mem_map_of_mem (List.mem_of_getElem? bestAt))

end Update

/-! ## The vote table along a run -/

section Run

variable {T : Type} [DecidableEq H]

/-- `BlockChain::new` sets up the table with the votes of the voter genesis
blocks. -/
theorem mainChainVotes_new [Inhabited H] (config : BlockchainConfig H) (chainNum : Nat) :
    (new config).mainChainVotes chainNum =
      if chainNum < config.voterChains then some [(config.proposerGenesis, 0)] else none := by
  by_cases within : chainNum < config.voterChains
  · have inRange : chainNum < config.voterGenesis.length := by rw [config.length_voterGenesis]; exact within
    have tipAt : (new config).voterLedgerTips[chainNum]? = some config.voterGenesis[chainNum] := by
      rw [new_voterLedgerTips]
      exact List.getElem?_eq_getElem inRange
    have genesisIn : config.voterGenesis[chainNum] ∈ config.voterGenesis := List.getElem_mem inRange
    rw [mainChainVotes_eq tipAt (show (new config).voterNodeLevel config.voterGenesis[chainNum] = some 0 by
      simp [genesisIn]), if_pos within]
    simp [pathVotes, genesisIn]
  · have tipAt : (new config).voterLedgerTips[chainNum]? = none := by
      rw [new_voterLedgerTips, List.getElem?_eq_none_iff, config.length_voterGenesis]
      omega
    rw [if_neg within]
    unfold mainChainVotes
    rw [tipAt]
    rfl

theorem voteTable_new [Inhabited H] (config : BlockchainConfig H) : (new config).VoteTable := by
  refine ⟨by simp [config.length_voterGenesis], fun chainNum tip tipAt => ?_, fun proposer => ?_,
    fun proposer chainNum level => ?_⟩
  · rw [new_voterLedgerTips] at tipAt
    obtain ⟨levelAt, chainAt, _⟩ := (voterIndex_new config).genesis_block chainNum tip (by simpa using tipAt)
    rw [levelAt, chainAt]
    exact ⟨rfl, rfl⟩
  · rw [new_proposerNodeVote]
    split_ifs
    · exact (List.nodup_range).map (fun first second same => (Prod.mk.inj same).1)
    · exact List.nodup_nil
  · rw [new_proposerNodeVote, mainChainVotes_new]
    by_cases within : chainNum < config.voterChains
    · have nonempty : config.voterGenesis ≠ [] := by
        rw [← List.length_pos_iff, config.length_voterGenesis]
        omega
      by_cases same : proposer = config.proposerGenesis
      · simp [same, nonempty, within, eq_comm]
      · simp [same]
    · split_ifs <;> simp [within]

/-- `insert_block` of an accepted block keeps the table: it writes no vote
table entry and no tip, and a new voter block is no block on a main chain. -/
theorem VoteTable.insertBlock [Hashable (Header H) H] {chain next : BlockChain H} {inserted : List (Block H T)}
    {block : Block H T} {checkSignatureBatch : List T → Bool} (table : chain.VoteTable) (index : chain.Index inserted)
    (accepted : Accepted checkSignatureBatch chain inserted block)
    (insertedEq : chain.insertBlock block = some next) : next.VoteTable := by
  obtain ⟨_, freshVoter, _⟩ := index.keys.fresh accepted.fresh_genesis accepted.fresh_received
  have tree := index.voters.toVoterTree
  rcases insertBlock_eq_some insertedEq with ⟨_, _, _, _, rfl⟩ | ⟨_, _, _, _, _, _, _, _, _, _, rfl⟩ | ⟨_, _, rfl⟩
  · exact table.of_agree tree rfl rfl rfl (fun _ _ => rfl) (fun _ _ => rfl) (fun _ _ => rfl) (fun _ _ => rfl)
  · -- the voter block's hash is new, so every old voter block keeps its entries
    have other : ∀ hash, (chain.voterNodeLevel hash).isSome → hash ≠ block.hash :=
      fun hash present => ne_of_isSome_of_eq_none present freshVoter
    exact table.of_agree tree rfl rfl rfl (fun hash present => Function.update_of_ne (other hash present) _ _)
      (fun hash present => Function.update_of_ne (other hash present) _ _)
      (fun hash present => Function.update_of_ne (other hash present) _ _)
      (fun hash present => Function.update_of_ne (other hash present) _ _)
  · exact table.of_agree tree rfl rfl rfl (fun _ _ => rfl) (fun _ _ => rfl) (fun _ _ => rfl) (fun _ _ => rfl)

omit [DecidableEq H] in
/-- The leader and ledger phases keep the table. -/
theorem VoteTable.leaderFrame {chain next : BlockChain H} (table : chain.VoteTable) (tree : chain.VoterTree)
    (frame : LeaderFrame chain next) : next.VoteTable := by
  rw [show next = _ from frame]
  exact table.of_agree tree rfl rfl rfl (fun _ _ => rfl) (fun _ _ => rfl) (fun _ _ => rfl) (fun _ _ => rfl)

end Run

end BlockChain

section Run

variable {H T : Type} [DecidableEq H] [Hashable (Header H) H]

/-- Every reachable state has a vote table that refines its main chains. -/
theorem Reachable.voteTable [Inhabited H] {checkSignatureBatch : List T → Bool} {policy : ConfirmationPolicy H}
    {config : BlockchainConfig H} {chain : BlockChain H} {inserted : List (Block H T)}
    (reachable : Reachable checkSignatureBatch policy config chain inserted) : chain.VoteTable := by
  induction reachable with
  | new => exact BlockChain.voteTable_new config
  | insertBlock previous accepted insertedEq inductionHypothesis =>
      exact inductionHypothesis.insertBlock previous.index accepted insertedEq
  | updateLedger previous updated inductionHypothesis =>
      -- the first phase keeps the table, the other two leave it alone
      obtain ⟨voted, range, votesEq, frame⟩ := BlockChain.updateLedger_leaderFrame updated
      have index := previous.index
      have votedTable := (inductionHypothesis.of_updateVotes index.voters index.proposers votesEq).1
      exact votedTable.leaderFrame ((index.voters.ledgerFrame (BlockChain.updateVotes_frame votesEq)).toVoterTree)
        frame

/-- In every reachable state, `PROPOSER_NODE_VOTE` refines the voter main
chains: each entry is free of duplicates and holds `(c, l)` exactly when `c` is
a voter chain and the block of voter level `l` on the path from the chain's
ledger tip votes for the proposer block.  The first phase of the next
`update_ledger` returns, once its loops have the fuel to walk the voter
chains: no removal it merges misses its entry. -/
theorem voteTable_refines_mainChains [Inhabited H] {checkSignatureBatch : List T → Bool}
    {policy : ConfirmationPolicy H} {config : BlockchainConfig H} {chain : BlockChain H}
    {inserted : List (Block H T)} (reachable : Reachable checkSignatureBatch policy config chain inserted) :
    (∀ proposer, ((chain.proposerNodeVote proposer).getD []).Nodup) ∧
      (∀ proposer chainNum level, (chainNum, level) ∈ (chain.proposerNodeVote proposer).getD [] ↔
        chainNum < chain.config.voterChains ∧ ∃ tip block, chain.voterLedgerTips[chainNum]? = some tip ∧
          chain.VoterAncestor tip block ∧ chain.voterNodeLevel block = some level ∧
          proposer ∈ (chain.voteNeighbor block).getD []) ∧
      ∃ bound, ∀ fuel ≥ bound, ∃ voted range, chain.updateVotes fuel = some (voted, range) := by
  have table := reachable.voteTable
  have index := reachable.index
  refine ⟨table.nodup, table.mem_iff index.voters, (chain.voterBest.map Prod.snd).sum, fun fuel enough => ?_⟩
  obtain ⟨⟨voted, range⟩, updated⟩ := table.updateVotes_isSome index.voters index.proposers
    (fun hash level atLevel => (index.voters.level_le_sum atLevel).trans enough)
  exact ⟨voted, range, updated⟩

theorem voteTable_refines_mainChains_sample :
    Reachable (fun _ : List Nat => true) votedBlockPolicy singleChainConfig sampleReorged
        (sampleBlocks ++ [sampleForkNext, sampleForkTip]) ∧
      sampleReorged.proposerNodeVote 6 = some [(0, 1)] ∧
      (∀ proposer, ((sampleReorged.proposerNodeVote proposer).getD []).Nodup) ∧
      (∀ proposer chainNum level,
        (chainNum, level) ∈ (sampleReorged.proposerNodeVote proposer).getD [] ↔
          chainNum < sampleReorged.config.voterChains ∧ ∃ tip block,
            sampleReorged.voterLedgerTips[chainNum]? = some tip ∧
            sampleReorged.VoterAncestor tip block ∧
            sampleReorged.voterNodeLevel block = some level ∧
            proposer ∈ (sampleReorged.voteNeighbor block).getD []) ∧
      ∃ bound, ∀ fuel ≥ bound, ∃ voted range,
        sampleReorged.updateVotes fuel = some (voted, range) :=
  ⟨sampleReorged_reachable, by decide, voteTable_refines_mainChains sampleReorged_reachable⟩

end Run

end Prism
