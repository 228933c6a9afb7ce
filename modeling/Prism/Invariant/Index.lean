import Prism.Blockchain.Run
import Mathlib.Algebra.BigOperators.Group.Finset.Basic

/-!
# The indices of the blockchain

What `BlockChain::new` sets up and every `insert_block` of an accepted block
keeps, across the column families and the in-memory fields that index the
block graph:

* `ProposerIndex`: proposer levels, parents and references, the proposer
  tree and the best level;
* `VoterIndex`: the voter trees, the votes of each voter block, the best
  block of each chain, and the counts kept with `u64_plus_merge`;
* `Unreferred`: the unreferred proposer and transaction blocks;
* `Keys`: which hashes have entries, in terms of the blocks inserted so far.

`update_ledger` writes none of these fields (`updateLedger_frame`), so they
hold in every reachable state.
-/

namespace Prism

namespace BlockChain

variable {H T : Type}

/-! ## Proposer blocks -/

/-- A key with a value is not a key without one. -/
theorem ne_of_isSome_of_eq_none {α : Type} {map : H → Option α} {hash fresh : H}
    (present : (map hash).isSome) (absent : map fresh = none) : hash ≠ fresh := by
  rintro rfl
  rw [absent] at present
  cases present


/-- The proposer indices: levels, parent and reference lists, the proposer
tree and the best level. -/
structure ProposerIndex (chain : BlockChain H) : Prop where
  /-- The proposer genesis block is at level zero. -/
  genesis_level : chain.proposerNodeLevel chain.config.proposerGenesis = some 0
  /-- The proposer genesis block refers to nothing. -/
  genesis_refs : chain.proposerRefNeighbor chain.config.proposerGenesis = some []
  /-- Every other proposer block is one level above its parent, which it
  refers to first, and its other proposer references are no deeper than the
  parent. -/
  parent : ∀ hash level, hash ≠ chain.config.proposerGenesis → chain.proposerNodeLevel hash = some level →
    ∃ parent refs parentLevel, chain.parentNeighbor hash = some parent ∧
      chain.proposerRefNeighbor hash = some (parent :: refs) ∧
      chain.proposerNodeLevel parent = some parentLevel ∧ level = parentLevel + 1 ∧
      ∀ ref ∈ refs, ∃ refLevel, chain.proposerNodeLevel ref = some refLevel ∧ refLevel ≤ parentLevel
  /-- Exactly the proposer blocks have reference lists. -/
  refs_isSome : ∀ hash, (chain.proposerRefNeighbor hash).isSome = (chain.proposerNodeLevel hash).isSome
  /-- Exactly the proposer blocks have transaction reference lists. -/
  transactionRefs_isSome : ∀ hash,
    (chain.transactionRefNeighbor hash).isSome = (chain.proposerNodeLevel hash).isSome
  /-- Transaction references name blocks with a proposer parent. -/
  transactionRefs_parent : ∀ hash refs, chain.transactionRefNeighbor hash = some refs →
    ∀ ref ∈ refs, (chain.parentNeighbor ref).isSome
  /-- The tree lists each proposer block of a level once. -/
  tree : ∀ level blocks, chain.proposerTreeLevel level = some blocks →
    blocks.Nodup ∧ ∀ hash, hash ∈ blocks ↔ chain.proposerNodeLevel hash = some level
  /-- The tree has an entry exactly at the levels that have a proposer block. -/
  tree_isSome : ∀ level, (chain.proposerTreeLevel level).isSome ↔
    ∃ hash, chain.proposerNodeLevel hash = some level
  /-- No proposer block is deeper than the best level. -/
  le_best : ∀ hash level, chain.proposerNodeLevel hash = some level → level ≤ chain.proposerBestLevel
  /-- Some proposer block is at the best level. -/
  best : ∃ hash, chain.proposerNodeLevel hash = some chain.proposerBestLevel

namespace ProposerIndex

variable {chain : BlockChain H}

/-- Every reference of a proposer block is a proposer block of a lower level. -/
theorem ref_lt (index : chain.ProposerIndex) {hash ref : H} {refs : List H} {level : Nat}
    (atLevel : chain.proposerNodeLevel hash = some level) (refsEq : chain.proposerRefNeighbor hash = some refs)
    (member : ref ∈ refs) : ∃ refLevel, chain.proposerNodeLevel ref = some refLevel ∧ refLevel < level := by
  by_cases genesis : hash = chain.config.proposerGenesis
  · subst genesis
    rw [index.genesis_refs, Option.some.injEq] at refsEq
    subst refsEq
    cases member
  · obtain ⟨parent, rest, parentLevel, _, restEq, parentAt, levelEq, restBelow⟩ :=
      index.parent hash level genesis atLevel
    rw [restEq, Option.some.injEq] at refsEq
    subst refsEq
    rcases List.mem_cons.mp member with rfl | later
    · exact ⟨parentLevel, parentAt, by omega⟩
    · obtain ⟨refLevel, refAt, refBelow⟩ := restBelow ref later
      exact ⟨refLevel, refAt, by omega⟩

/-- A reference of any block with a reference list is a proposer block. -/
theorem ref_isSome (index : chain.ProposerIndex) {hash ref : H} {refs : List H}
    (refsEq : chain.proposerRefNeighbor hash = some refs) (member : ref ∈ refs) :
    (chain.proposerNodeLevel ref).isSome := by
  have present : (chain.proposerNodeLevel hash).isSome := by
    rw [← index.refs_isSome, refsEq]
    rfl
  obtain ⟨level, atLevel⟩ := Option.isSome_iff_exists.mp present
  obtain ⟨refLevel, refAt, _⟩ := index.ref_lt atLevel refsEq member
  rw [refAt]
  rfl

/-- Every level up to the best one has a proposer block: the best block's
ancestors are at all the levels below it. -/
theorem exists_at_level (index : chain.ProposerIndex) :
    ∀ level, level ≤ chain.proposerBestLevel → ∃ hash, chain.proposerNodeLevel hash = some level := by
  -- descend from a block of `level + gap` to its ancestor `gap` levels down
  have descend : ∀ gap level hash, chain.proposerNodeLevel hash = some (level + gap) →
      ∃ ancestor, chain.proposerNodeLevel ancestor = some level := by
    intro gap
    induction gap with
    | zero => intro level hash atLevel; exact ⟨hash, atLevel⟩
    | succ gap inductionHypothesis =>
        intro level hash atLevel
        have notGenesis : hash ≠ chain.config.proposerGenesis := by
          rintro rfl
          rw [index.genesis_level, Option.some.injEq] at atLevel
          omega
        obtain ⟨parent, _, parentLevel, _, _, parentAt, levelEq, _⟩ :=
          index.parent hash _ notGenesis atLevel
        have parentLevelEq : parentLevel = level + gap := by omega
        rw [parentLevelEq] at parentAt
        exact inductionHypothesis level parent parentAt
  intro level within
  obtain ⟨best, bestAt⟩ := index.best
  have shifted : chain.proposerBestLevel = level + (chain.proposerBestLevel - level) := by omega
  rw [shifted] at bestAt
  exact descend _ level best bestAt

/-- The tree has a non-empty entry exactly at the levels up to the best one. -/
theorem tree_ne_nil_iff (index : chain.ProposerIndex) (level : Nat) :
    (∃ blocks, chain.proposerTreeLevel level = some blocks ∧ blocks ≠ []) ↔
      level ≤ chain.proposerBestLevel := by
  constructor
  · rintro ⟨blocks, blocksEq, nonEmpty⟩
    obtain ⟨hash, member⟩ := List.exists_mem_of_ne_nil blocks nonEmpty
    exact index.le_best hash level (((index.tree level blocks blocksEq).2 hash).mp member)
  · intro within
    obtain ⟨hash, atLevel⟩ := index.exists_at_level level within
    obtain ⟨blocks, blocksEq⟩ := Option.isSome_iff_exists.mp ((index.tree_isSome level).mpr ⟨hash, atLevel⟩)
    refine ⟨blocks, blocksEq, List.ne_nil_of_mem (((index.tree level blocks blocksEq).2 hash).mpr atLevel)⟩

/-- The proposer indices read only the proposer fields, and the parent links
of proposer blocks and of transaction references: a state that agrees with
`chain` there, and keeps every parent link, keeps them. -/
theorem of_agree (index : chain.ProposerIndex) {next : BlockChain H}
    (configEq : next.config = chain.config)
    (levelEq : next.proposerNodeLevel = chain.proposerNodeLevel)
    (refsEq : next.proposerRefNeighbor = chain.proposerRefNeighbor)
    (transactionRefsEq : next.transactionRefNeighbor = chain.transactionRefNeighbor)
    (treeEq : next.proposerTreeLevel = chain.proposerTreeLevel)
    (bestEq : next.proposerBestLevel = chain.proposerBestLevel)
    (parentsAgree : ∀ hash, (chain.proposerNodeLevel hash).isSome →
      next.parentNeighbor hash = chain.parentNeighbor hash)
    (parentsKept : ∀ hash, (chain.parentNeighbor hash).isSome → (next.parentNeighbor hash).isSome) :
    next.ProposerIndex := by
  refine ⟨?_, ?_, ?_, ?_, ?_, ?_, ?_, ?_, ?_, ?_⟩
  · rw [levelEq, configEq]
    exact index.genesis_level
  · rw [refsEq, configEq]
    exact index.genesis_refs
  · intro hash level notGenesis atLevel
    rw [configEq] at notGenesis
    rw [levelEq] at atLevel ⊢
    obtain ⟨parent, refs, parentLevel, parentEq, refsAt, rest⟩ := index.parent hash level notGenesis atLevel
    refine ⟨parent, refs, parentLevel, ?_, by rw [refsEq]; exact refsAt, rest⟩
    rw [parentsAgree hash (by rw [atLevel]; rfl)]
    exact parentEq
  · intro hash
    rw [refsEq, levelEq]
    exact index.refs_isSome hash
  · intro hash
    rw [transactionRefsEq, levelEq]
    exact index.transactionRefs_isSome hash
  · intro hash refs refsAt ref member
    rw [transactionRefsEq] at refsAt
    exact parentsKept ref (index.transactionRefs_parent hash refs refsAt ref member)
  · rw [treeEq, levelEq]
    exact index.tree
  · rw [treeEq, levelEq]
    exact index.tree_isSome
  · rw [levelEq, bestEq]
    exact index.le_best
  · rw [levelEq, bestEq]
    exact index.best

/-- The tree entry of a level, empty when absent, lists the proposer blocks of
that level once each. -/
theorem getD_tree (index : chain.ProposerIndex) (level : Nat) :
    ((chain.proposerTreeLevel level).getD []).Nodup ∧
      ∀ hash, hash ∈ (chain.proposerTreeLevel level).getD [] ↔ chain.proposerNodeLevel hash = some level := by
  cases treeEq : chain.proposerTreeLevel level with
  | some blocks => exact index.tree level blocks treeEq
  | none =>
      refine ⟨List.nodup_nil, fun hash => ⟨fun member => (by cases member), fun atLevel => ?_⟩⟩
      have present := (index.tree_isSome level).mpr ⟨hash, atLevel⟩
      rw [treeEq] at present
      cases present

end ProposerIndex

section Preservation

variable [DecidableEq H] {chain : BlockChain H}

/-- A write at a key with no value keeps every value that is there. -/
theorem isSome_update_of_isSome {α : Type} {map : H → Option α} {key hash : H} {value : α}
    (present : (map hash).isSome) : (Function.update map key (some value) hash).isSome := by
  by_cases same : hash = key
  · subst same
    simp
  · rw [Function.update_of_ne same]
    exact present

/-- Inserting a proposer block keeps the proposer indices, when the block has
no level yet, its parent has level `parentLevel`, its proposer references are
no deeper than the parent and its transaction references have a parent. -/
theorem ProposerIndex.addProposer (index : chain.ProposerIndex) {blockHash parentHash : H}
    {timestamp parentLevel : Nat} {content : ProposerContent H}
    (fresh : chain.proposerNodeLevel blockHash = none)
    (parentAt : chain.proposerNodeLevel parentHash = some parentLevel)
    (refsBelow : ∀ ref ∈ content.proposerRefs, ∃ refLevel, chain.proposerNodeLevel ref = some refLevel ∧
      refLevel ≤ parentLevel)
    (transactionRefsPresent : ∀ ref ∈ content.transactionRefs, (chain.parentNeighbor ref).isSome) :
    (chain.addProposer blockHash parentHash timestamp parentLevel content).ProposerIndex := by
  -- every block that already has a level is another block than the new one
  have other : ∀ {hash}, (chain.proposerNodeLevel hash).isSome → hash ≠ blockHash :=
    fun present => ne_of_isSome_of_eq_none present fresh
  have levelOther : ∀ {hash level}, chain.proposerNodeLevel hash = some level →
      Function.update chain.proposerNodeLevel blockHash (some (parentLevel + 1)) hash = some level := by
    intro hash level atLevel
    rw [Function.update_of_ne (other (by rw [atLevel]; rfl))]
    exact atLevel
  have genesisOther := other (by rw [index.genesis_level]; rfl)
  refine ⟨?_, ?_, ?_, ?_, ?_, ?_, ?_, ?_, ?_, ?_⟩
  · simp only [addProposer_proposerNodeLevel, addProposer_config]
    exact levelOther index.genesis_level
  · simp only [addProposer_proposerRefNeighbor, addProposer_config, Function.update_of_ne genesisOther]
    exact index.genesis_refs
  · intro hash level notGenesis atLevel
    simp only [addProposer_config] at notGenesis
    simp only [addProposer_proposerNodeLevel, addProposer_parentNeighbor,
      addProposer_proposerRefNeighbor] at atLevel ⊢
    by_cases same : hash = blockHash
    · subst same
      simp only [Function.update_self, Option.some.injEq] at atLevel ⊢
      refine ⟨parentHash, content.proposerRefs, parentLevel, rfl, rfl, levelOther parentAt, atLevel.symm, ?_⟩
      intro ref member
      obtain ⟨refLevel, refAt, below⟩ := refsBelow ref member
      exact ⟨refLevel, levelOther refAt, below⟩
    · rw [Function.update_of_ne same] at atLevel
      obtain ⟨parent, refs, parentLevel', parentEq, refsEq, parentAt', levelEq, refsBelow'⟩ :=
        index.parent hash level notGenesis atLevel
      refine ⟨parent, refs, parentLevel', ?_, ?_, levelOther parentAt', levelEq, ?_⟩
      · rw [Function.update_of_ne same]
        exact parentEq
      · rw [Function.update_of_ne same]
        exact refsEq
      · intro ref member
        obtain ⟨refLevel, refAt, below⟩ := refsBelow' ref member
        exact ⟨refLevel, levelOther refAt, below⟩
  · intro hash
    simp only [addProposer_proposerRefNeighbor, addProposer_proposerNodeLevel]
    by_cases same : hash = blockHash
    · subst same
      simp
    · simp only [Function.update_of_ne same]
      exact index.refs_isSome hash
  · intro hash
    simp only [addProposer_transactionRefNeighbor, addProposer_proposerNodeLevel]
    by_cases same : hash = blockHash
    · subst same
      simp
    · simp only [Function.update_of_ne same]
      exact index.transactionRefs_isSome hash
  · intro hash refs refsAt ref member
    simp only [addProposer_transactionRefNeighbor, addProposer_parentNeighbor] at refsAt ⊢
    by_cases same : hash = blockHash
    · subst same
      simp only [Function.update_self, Option.some.injEq] at refsAt
      subst refsAt
      exact isSome_update_of_isSome (transactionRefsPresent ref member)
    · rw [Function.update_of_ne same] at refsAt
      exact isSome_update_of_isSome (index.transactionRefs_parent hash refs refsAt ref member)
  · intro level blocks blocksEq
    simp only [addProposer_proposerTreeLevel, addProposer_proposerNodeLevel] at blocksEq ⊢
    by_cases sameLevel : level = parentLevel + 1
    · subst sameLevel
      simp only [Function.update_self, Option.some.injEq, h256VecAppendMerge, List.foldl_cons,
        List.foldl_nil] at blocksEq
      obtain ⟨distinct, members⟩ := index.getD_tree (parentLevel + 1)
      have absent : blockHash ∉ (chain.proposerTreeLevel (parentLevel + 1)).getD [] := by
        rw [members, fresh]
        simp
      rw [← blocksEq, List.pushIfAbsent, if_neg absent]
      refine ⟨distinct.append (List.nodup_singleton _) (List.disjoint_singleton.mpr absent), ?_⟩
      intro hash
      by_cases same : hash = blockHash
      · subst same
        simp
      · simp [members, same]
    · rw [Function.update_of_ne sameLevel] at blocksEq
      obtain ⟨distinct, members⟩ := index.tree level blocks blocksEq
      refine ⟨distinct, fun hash => ?_⟩
      rw [members]
      by_cases same : hash = blockHash
      · subst same
        rw [fresh, Function.update_self]
        constructor
        · intro impossible
          cases impossible
        · intro atLevel
          exact absurd (Option.some.inj atLevel).symm sameLevel
      · rw [Function.update_of_ne same]
  · intro level
    simp only [addProposer_proposerTreeLevel, addProposer_proposerNodeLevel]
    by_cases sameLevel : level = parentLevel + 1
    · subst sameLevel
      simp only [Function.update_self, Option.isSome_some, true_iff]
      exact ⟨blockHash, by simp⟩
    · rw [Function.update_of_ne sameLevel, index.tree_isSome level]
      constructor
      · rintro ⟨hash, atLevel⟩
        exact ⟨hash, levelOther atLevel⟩
      · rintro ⟨hash, atLevel⟩
        by_cases same : hash = blockHash
        · subst same
          simp only [Function.update_self, Option.some.injEq] at atLevel
          omega
        · rw [Function.update_of_ne same] at atLevel
          exact ⟨hash, atLevel⟩
  · intro hash level atLevel
    simp only [addProposer_proposerNodeLevel, addProposer_proposerBestLevel] at atLevel ⊢
    by_cases same : hash = blockHash
    · subst same
      simp only [Function.update_self, Option.some.injEq] at atLevel
      omega
    · rw [Function.update_of_ne same] at atLevel
      have := index.le_best hash level atLevel
      omega
  · simp only [addProposer_proposerNodeLevel, addProposer_proposerBestLevel]
    by_cases higher : chain.proposerBestLevel ≤ parentLevel + 1
    · refine ⟨blockHash, ?_⟩
      rw [Function.update_self, max_eq_left higher]
    · obtain ⟨best, bestAt⟩ := index.best
      refine ⟨best, ?_⟩
      rw [max_eq_right (by omega)]
      exact levelOther bestAt

/-- Inserting a voter or a transaction block writes, among the fields the
proposer indices read, only the parent link of a block that is not a proposer
block. -/
theorem ProposerIndex.of_parentNeighbor (index : chain.ProposerIndex) {next : BlockChain H} {blockHash parent : H}
    (fresh : chain.proposerNodeLevel blockHash = none)
    (configEq : next.config = chain.config)
    (levelEq : next.proposerNodeLevel = chain.proposerNodeLevel)
    (refsEq : next.proposerRefNeighbor = chain.proposerRefNeighbor)
    (transactionRefsEq : next.transactionRefNeighbor = chain.transactionRefNeighbor)
    (treeEq : next.proposerTreeLevel = chain.proposerTreeLevel)
    (bestEq : next.proposerBestLevel = chain.proposerBestLevel)
    (parentEq : next.parentNeighbor = Function.update chain.parentNeighbor blockHash (some parent)) :
    next.ProposerIndex :=
  index.of_agree configEq levelEq refsEq transactionRefsEq treeEq bestEq
    (fun hash present => by rw [parentEq, Function.update_of_ne (ne_of_isSome_of_eq_none present fresh)])
    (fun hash present => by rw [parentEq]; exact isSome_update_of_isSome present)

end Preservation

/-! ## Voter blocks -/

/-- The voter blocks among `voters` of chain `chainNum` at level `level`. -/
def levelVoters (chain : BlockChain H) (voters : Finset H) (chainNum level : Nat) : Finset H :=
  voters.filter (fun hash => chain.voterNodeChain hash = some chainNum ∧ chain.voterNodeLevel hash = some level)

/-- The voter indices: one tree per chain, the votes of each voter block, the
best block of each chain, and the counts that `u64_plus_merge` keeps. -/
structure VoterIndex [DecidableEq H] (chain : BlockChain H) : Prop extends chain.VoterTree where
  /-- Chain numbers are below `voter_chains`. -/
  chain_lt : ∀ hash chainNum, chain.voterNodeChain hash = some chainNum → chainNum < chain.config.voterChains
  /-- The genesis blocks have no voter parent. -/
  root : ∀ hash, chain.voterNodeLevel hash = some 0 → chain.voterParentNeighbor hash = none
  /-- Only voter blocks have a voted level. -/
  votedLevel_keys : ∀ hash, (chain.voterNodeVotedLevel hash).isSome → (chain.voterNodeLevel hash).isSome
  /-- The genesis block of each chain is at level zero, votes for the proposer
  genesis block and has voted up to level zero. -/
  genesis_block : ∀ chainNum hash, chain.config.voterGenesis[chainNum]? = some hash →
    chain.voterNodeLevel hash = some 0 ∧ chain.voterNodeChain hash = some chainNum ∧
      chain.voteNeighbor hash = some [chain.config.proposerGenesis] ∧ chain.voterNodeVotedLevel hash = some 0
  /-- A voter block above level zero votes for one proposer block of each level
  after its voter parent's voted level, up to its own voted level. -/
  votes : ∀ hash level, chain.voterNodeLevel hash = some (level + 1) →
    ∃ parent votes parentVoted voted, chain.voterParentNeighbor hash = some parent ∧
      chain.voteNeighbor hash = some votes ∧ chain.voterNodeVotedLevel parent = some parentVoted ∧
      chain.voterNodeVotedLevel hash = some voted ∧ parentVoted ≤ voted ∧
      votes.map chain.proposerNodeLevel = (List.range' (parentVoted + 1) (voted - parentVoted)).map some
  /-- The voted level of a voter block is the level of its proposer parent. -/
  votedLevel_parent : ∀ hash voted, chain.voterNodeVotedLevel hash = some voted →
    ∃ parent, chain.parentNeighbor hash = some parent ∧ chain.proposerNodeLevel parent = some voted
  /-- One best block per chain. -/
  best_length : chain.voterBest.length = chain.config.voterChains
  /-- The best block of a chain is a voter block of that chain, at its level. -/
  best_block : ∀ chainNum best, chain.voterBest[chainNum]? = some best →
    chain.voterNodeLevel best.1 = some best.2 ∧ chain.voterNodeChain best.1 = some chainNum
  /-- No voter block of a chain is deeper than its best block. -/
  le_best : ∀ hash chainNum level best, chain.voterNodeChain hash = some chainNum →
    chain.voterNodeLevel hash = some level → chain.voterBest[chainNum]? = some best → level ≤ best.2
  /-- `VOTER_TREE_LEVEL_COUNT` counts the voter blocks of each chain and level,
  with no entry for none, and `PROPOSER_VOTE_COUNT` counts the votes of all
  voter blocks on each proposer block. -/
  counts : ∃ voters : Finset H, (∀ hash, hash ∈ voters ↔ (chain.voterNodeLevel hash).isSome) ∧
    (∀ chainNum level, chain.voterTreeLevelCount (chainNum, level) =
      if (chain.levelVoters voters chainNum level).card = 0 then none
      else some (chain.levelVoters voters chainNum level).card) ∧
    ∀ proposer, (chain.proposerVoteCount proposer).getD 0 =
      ∑ voter ∈ voters, ((chain.voteNeighbor voter).getD []).count proposer

section Counts

variable [DecidableEq H]

/-- After one more voter block, of chain `chainNum` at level `level`, a chain
and level has one more voter block if it is that block's, and as many as
before otherwise. -/
theorem card_levelVoters_insert (chain next : BlockChain H) {voters : Finset H} {blockHash : H}
    (chainNum level : Nat) (absent : blockHash ∉ voters)
    (chainsAgree : ∀ hash ∈ voters, next.voterNodeChain hash = chain.voterNodeChain hash)
    (levelsAgree : ∀ hash ∈ voters, next.voterNodeLevel hash = chain.voterNodeLevel hash)
    (chainAt : next.voterNodeChain blockHash = some chainNum) (levelAt : next.voterNodeLevel blockHash = some level)
    (someChain someLevel : Nat) :
    (next.levelVoters (insert blockHash voters) someChain someLevel).card =
      (chain.levelVoters voters someChain someLevel).card +
        if someChain = chainNum ∧ someLevel = level then 1 else 0 := by
  have sameFilter : next.levelVoters voters someChain someLevel = chain.levelVoters voters someChain someLevel := by
    unfold levelVoters
    apply Finset.filter_congr
    intro hash member
    rw [chainsAgree hash member, levelsAgree hash member]
  have notFiltered : blockHash ∉ next.levelVoters voters someChain someLevel := by
    unfold levelVoters
    rw [Finset.mem_filter]
    exact fun filtered => absent filtered.1
  unfold levelVoters at sameFilter notFiltered ⊢
  rw [Finset.filter_insert, chainAt, levelAt]
  by_cases here : someChain = chainNum ∧ someLevel = level
  · obtain ⟨rfl, rfl⟩ := here
    rw [if_pos ⟨rfl, rfl⟩, if_pos ⟨rfl, rfl⟩, Finset.card_insert_of_notMem notFiltered, sameFilter]
  · have notHere : ¬ (some chainNum = some someChain ∧ some level = some someLevel) := by
      simp only [Option.some.injEq]
      omega
    rw [if_neg notHere, if_neg here, sameFilter, Nat.add_zero]

end Counts

/-- A voter block has an ancestor on its chain at every lower level. -/
theorem VoterTree.exists_ancestor {chain : BlockChain H} (tree : chain.VoterTree) :
    ∀ gap level hash, chain.voterNodeLevel hash = some (level + gap) →
      ∃ ancestor, chain.voterNodeLevel ancestor = some level ∧
        chain.voterNodeChain ancestor = chain.voterNodeChain hash := by
  intro gap
  induction gap with
  | zero => intro level hash atLevel; exact ⟨hash, atLevel, rfl⟩
  | succ gap inductionHypothesis =>
      intro level hash atLevel
      obtain ⟨parent, _, parentAt, parentChain⟩ := tree.parent hash (level + gap) atLevel
      obtain ⟨ancestor, ancestorAt, ancestorChain⟩ := inductionHypothesis level parent parentAt
      exact ⟨ancestor, ancestorAt, ancestorChain.trans parentChain⟩

/-- Every level up to the best block of a chain has a voter block of that
chain, so `VOTER_TREE_LEVEL_COUNT` has a positive entry there. -/
theorem VoterIndex.levelCount_pos [DecidableEq H] {chain : BlockChain H} (index : chain.VoterIndex)
    {chainNum level : Nat} {best : H × Nat} (bestAt : chain.voterBest[chainNum]? = some best)
    (within : level ≤ best.2) :
    ∃ count, chain.voterTreeLevelCount (chainNum, level) = some count ∧ 0 < count := by
  obtain ⟨bestLevel, bestChain⟩ := index.best_block chainNum best bestAt
  have shifted : best.2 = level + (best.2 - level) := by omega
  rw [shifted] at bestLevel
  obtain ⟨ancestor, ancestorAt, ancestorChain⟩ := index.toVoterTree.exists_ancestor _ level best.1 bestLevel
  rw [bestChain] at ancestorChain
  obtain ⟨voters, votersEq, countsEq, _⟩ := index.counts
  have counted : ancestor ∈ chain.levelVoters voters chainNum level := by
    unfold levelVoters
    rw [Finset.mem_filter, votersEq, ancestorAt]
    exact ⟨rfl, ancestorChain, rfl⟩
  have positive : 0 < (chain.levelVoters voters chainNum level).card := Finset.card_pos.mpr ⟨ancestor, counted⟩
  refine ⟨_, ?_, positive⟩
  rw [countsEq, if_neg (Nat.pos_iff_ne_zero.mp positive)]

section VoterPreservation

variable [DecidableEq H] {chain : BlockChain H}

/-- The voter indices read the proposer levels only of proposer blocks, and the
parent links only of voter blocks: a state that agrees with `chain` on the
voter fields and there keeps them. -/
theorem VoterIndex.of_agree (index : chain.VoterIndex) {next : BlockChain H}
    (configEq : next.config = chain.config)
    (levelEq : next.voterNodeLevel = chain.voterNodeLevel)
    (chainEq : next.voterNodeChain = chain.voterNodeChain)
    (countEq : next.voterTreeLevelCount = chain.voterTreeLevelCount)
    (votedEq : next.voterNodeVotedLevel = chain.voterNodeVotedLevel)
    (voteCountEq : next.proposerVoteCount = chain.proposerVoteCount)
    (votesEq : next.voteNeighbor = chain.voteNeighbor)
    (voterParentEq : next.voterParentNeighbor = chain.voterParentNeighbor)
    (bestEq : next.voterBest = chain.voterBest)
    (proposerLevelsAgree : ∀ hash, (chain.proposerNodeLevel hash).isSome →
      next.proposerNodeLevel hash = chain.proposerNodeLevel hash)
    (parentsAgree : ∀ hash, (chain.voterNodeLevel hash).isSome →
      next.parentNeighbor hash = chain.parentNeighbor hash) :
    next.VoterIndex := by
  have tree := index.toVoterTree
  refine ⟨⟨?_, ?_, ?_, ?_⟩, ?_, ?_, ?_, ?_, ?_, ?_, ?_, ?_, ?_, ?_⟩
  · rw [levelEq, chainEq]
    exact tree.chain_isSome
  · rw [levelEq, votesEq]
    exact tree.votes_isSome
  · rw [levelEq, chainEq, configEq]
    exact tree.genesis
  · rw [levelEq, chainEq, voterParentEq]
    exact tree.parent
  · rw [chainEq, configEq]
    exact index.chain_lt
  · rw [levelEq, voterParentEq]
    exact index.root
  · rw [votedEq, levelEq]
    exact index.votedLevel_keys
  · rw [levelEq, chainEq, votesEq, votedEq, configEq]
    exact index.genesis_block
  · intro hash level atLevel
    rw [levelEq] at atLevel
    obtain ⟨parent, votes, parentVoted, voted, parentEq, votesAt, parentVotedAt, votedAt, le, levels⟩ :=
      index.votes hash level atLevel
    refine ⟨parent, votes, parentVoted, voted, by rw [voterParentEq]; exact parentEq,
      by rw [votesEq]; exact votesAt, by rw [votedEq]; exact parentVotedAt, by rw [votedEq]; exact votedAt, le, ?_⟩
    rw [← levels]
    apply List.map_congr_left
    intro vote member
    have present : (chain.proposerNodeLevel vote).isSome := by
      have inLevels : chain.proposerNodeLevel vote ∈ votes.map chain.proposerNodeLevel :=
        List.mem_map_of_mem member
      rw [levels] at inLevels
      obtain ⟨_, _, isLevel⟩ := List.mem_map.mp inLevels
      rw [← isLevel]
      rfl
    exact proposerLevelsAgree vote present
  · intro hash voted votedAt
    rw [votedEq] at votedAt
    obtain ⟨parent, parentEq, parentAt⟩ := index.votedLevel_parent hash voted votedAt
    refine ⟨parent, ?_, by rw [proposerLevelsAgree parent (by rw [parentAt]; rfl)]; exact parentAt⟩
    rw [parentsAgree hash (index.votedLevel_keys hash (by rw [votedAt]; rfl))]
    exact parentEq
  · rw [bestEq, configEq]
    exact index.best_length
  · rw [bestEq, levelEq, chainEq]
    exact index.best_block
  · rw [bestEq, levelEq, chainEq]
    exact index.le_best
  · rw [levelEq, countEq, voteCountEq, votesEq]
    unfold levelVoters
    rw [chainEq, levelEq]
    exact index.counts

/-- Inserting a proposer or a transaction block writes, among the fields the
voter indices read, only the proposer level and the parent link of a block that
is not a voter block. -/
theorem VoterIndex.of_fresh (index : chain.VoterIndex) {next : BlockChain H} {blockHash : H}
    (freshProposer : chain.proposerNodeLevel blockHash = none) (freshVoter : chain.voterNodeLevel blockHash = none)
    (configEq : next.config = chain.config)
    (levelEq : next.voterNodeLevel = chain.voterNodeLevel)
    (chainEq : next.voterNodeChain = chain.voterNodeChain)
    (countEq : next.voterTreeLevelCount = chain.voterTreeLevelCount)
    (votedEq : next.voterNodeVotedLevel = chain.voterNodeVotedLevel)
    (voteCountEq : next.proposerVoteCount = chain.proposerVoteCount)
    (votesEq : next.voteNeighbor = chain.voteNeighbor)
    (voterParentEq : next.voterParentNeighbor = chain.voterParentNeighbor)
    (bestEq : next.voterBest = chain.voterBest)
    (proposerLevelsOther : ∀ hash, hash ≠ blockHash → next.proposerNodeLevel hash = chain.proposerNodeLevel hash)
    (parentsOther : ∀ hash, hash ≠ blockHash → next.parentNeighbor hash = chain.parentNeighbor hash) :
    next.VoterIndex :=
  index.of_agree configEq levelEq chainEq countEq votedEq voteCountEq votesEq voterParentEq bestEq
    (fun hash present => proposerLevelsOther hash (ne_of_isSome_of_eq_none present freshProposer))
    (fun hash present => parentsOther hash (ne_of_isSome_of_eq_none present freshVoter))

/-- Inserting a voter block keeps the voter indices, when the block has no
level yet, extends a voter block of its chain, and votes for one proposer
block of each level after its voter parent's voted level, up to its proposer
parent's level. -/
theorem VoterIndex.addVoter (index : chain.VoterIndex) {blockHash parentHash : H}
    {voterParentLevel voterParentChain proposerParentLevel voterParentVoted : Nat} {best : H × Nat}
    {content : VoterContent H}
    (fresh : chain.voterNodeLevel blockHash = none)
    (voterParentAt : chain.voterNodeLevel content.voterParent = some voterParentLevel)
    (voterParentChainAt : chain.voterNodeChain content.voterParent = some voterParentChain)
    (parentAt : chain.proposerNodeLevel parentHash = some proposerParentLevel)
    (bestAt : chain.voterBest[voterParentChain]? = some best)
    (voterParentVotedAt : chain.voterNodeVotedLevel content.voterParent = some voterParentVoted)
    (votedLe : voterParentVoted ≤ proposerParentLevel)
    (votesLevels : content.votes.map chain.proposerNodeLevel =
      (List.range' (voterParentVoted + 1) (proposerParentLevel - voterParentVoted)).map some) :
    (chain.addVoter blockHash parentHash voterParentLevel voterParentChain proposerParentLevel best
      content).VoterIndex := by
  have tree := index.toVoterTree
  -- every voter block already there is another block than the new one
  have other : ∀ {hash}, (chain.voterNodeLevel hash).isSome → hash ≠ blockHash :=
    fun present => ne_of_isSome_of_eq_none present fresh
  have otherAt : ∀ {hash level}, chain.voterNodeLevel hash = some level → hash ≠ blockHash :=
    fun atLevel => other (by rw [atLevel]; rfl)
  have voterParentOther := otherAt voterParentAt
  refine ⟨⟨?_, ?_, ?_, ?_⟩, ?_, ?_, ?_, ?_, ?_, ?_, ?_, ?_, ?_, ?_⟩
  · intro hash level atLevel
    simp only [addVoter_voterNodeLevel, addVoter_voterNodeChain] at atLevel ⊢
    by_cases same : hash = blockHash
    · subst same
      simp
    · rw [Function.update_of_ne same] at atLevel ⊢
      exact tree.chain_isSome hash level atLevel
  · intro hash level atLevel
    simp only [addVoter_voterNodeLevel, addVoter_voteNeighbor] at atLevel ⊢
    by_cases same : hash = blockHash
    · subst same
      simp
    · rw [Function.update_of_ne same] at atLevel ⊢
      exact tree.votes_isSome hash level atLevel
  · intro hash chainNum atZero chainAt
    simp only [addVoter_voterNodeLevel, addVoter_voterNodeChain, addVoter_config] at atZero chainAt ⊢
    by_cases same : hash = blockHash
    · subst same
      simp at atZero
    · rw [Function.update_of_ne same] at atZero chainAt
      exact tree.genesis hash chainNum atZero chainAt
  · intro hash level atLevel
    simp only [addVoter_voterNodeLevel, addVoter_voterNodeChain, addVoter_voterParentNeighbor] at atLevel ⊢
    by_cases same : hash = blockHash
    · subst same
      simp only [Function.update_self, Option.some.injEq, Nat.add_right_cancel_iff] at atLevel ⊢
      subst atLevel
      exact ⟨content.voterParent, rfl, by rw [Function.update_of_ne voterParentOther]; exact voterParentAt,
        by rw [Function.update_of_ne voterParentOther]; exact voterParentChainAt⟩
    · rw [Function.update_of_ne same] at atLevel
      obtain ⟨parent, parentEq, parentLevelAt, parentChain⟩ := tree.parent hash level atLevel
      have parentOther := otherAt parentLevelAt
      refine ⟨parent, by rw [Function.update_of_ne same]; exact parentEq, ?_, ?_⟩
      · rw [Function.update_of_ne parentOther]
        exact parentLevelAt
      · rw [Function.update_of_ne parentOther, Function.update_of_ne same]
        exact parentChain
  · intro hash chainNum chainAt
    simp only [addVoter_voterNodeChain, addVoter_config] at chainAt ⊢
    by_cases same : hash = blockHash
    · subst same
      simp only [Function.update_self, Option.some.injEq] at chainAt
      subst chainAt
      exact index.chain_lt content.voterParent voterParentChain voterParentChainAt
    · rw [Function.update_of_ne same] at chainAt
      exact index.chain_lt hash chainNum chainAt
  · intro hash atZero
    simp only [addVoter_voterNodeLevel, addVoter_voterParentNeighbor] at atZero ⊢
    by_cases same : hash = blockHash
    · subst same
      simp at atZero
    · rw [Function.update_of_ne same] at atZero ⊢
      exact index.root hash atZero
  · intro hash votedAt
    simp only [addVoter_voterNodeVotedLevel, addVoter_voterNodeLevel] at votedAt ⊢
    by_cases same : hash = blockHash
    · subst same
      simp
    · rw [Function.update_of_ne same] at votedAt ⊢
      exact index.votedLevel_keys hash votedAt
  · intro chainNum hash genesisAt
    simp only [addVoter_config] at genesisAt
    obtain ⟨atZero, chainAt, votesAt, votedAt⟩ := index.genesis_block chainNum hash genesisAt
    have same := otherAt atZero
    simp only [addVoter_voterNodeLevel, addVoter_voterNodeChain, addVoter_voteNeighbor,
      addVoter_voterNodeVotedLevel, addVoter_config, Function.update_of_ne same]
    exact ⟨atZero, chainAt, votesAt, votedAt⟩
  · intro hash level atLevel
    simp only [addVoter_voterNodeLevel, addVoter_voterParentNeighbor, addVoter_voteNeighbor,
      addVoter_voterNodeVotedLevel] at atLevel ⊢
    by_cases same : hash = blockHash
    · subst same
      refine ⟨content.voterParent, content.votes, voterParentVoted, proposerParentLevel, by simp, by simp,
        ?_, by simp, votedLe, votesLevels⟩
      rw [Function.update_of_ne voterParentOther]
      exact voterParentVotedAt
    · rw [Function.update_of_ne same] at atLevel
      obtain ⟨parent, votes, parentVoted, voted, parentEq, votesAt, parentVotedAt, votedAt, le, levels⟩ :=
        index.votes hash level atLevel
      have parentOther := other (index.votedLevel_keys parent (by rw [parentVotedAt]; rfl))
      refine ⟨parent, votes, parentVoted, voted, ?_, ?_, ?_, ?_, le, levels⟩
      · rw [Function.update_of_ne same]
        exact parentEq
      · rw [Function.update_of_ne same]
        exact votesAt
      · rw [Function.update_of_ne parentOther]
        exact parentVotedAt
      · rw [Function.update_of_ne same]
        exact votedAt
  · intro hash voted votedAt
    simp only [addVoter_voterNodeVotedLevel, addVoter_parentNeighbor] at votedAt ⊢
    by_cases same : hash = blockHash
    · subst same
      simp only [Function.update_self, Option.some.injEq] at votedAt ⊢
      subst votedAt
      exact ⟨parentHash, rfl, parentAt⟩
    · rw [Function.update_of_ne same] at votedAt ⊢
      exact index.votedLevel_parent hash voted votedAt
  · simp only [addVoter_voterBest, addVoter_config]
    split_ifs
    · rw [List.length_set]
      exact index.best_length
    · exact index.best_length
  · intro chainNum entry entryAt
    simp only [addVoter_voterBest, addVoter_voterNodeLevel, addVoter_voterNodeChain] at entryAt ⊢
    by_cases deeper : voterParentLevel + 1 > best.2
    · rw [if_pos deeper] at entryAt
      by_cases sameChain : chainNum = voterParentChain
      · subst sameChain
        rw [List.getElem?_set_self ((List.getElem?_eq_some_iff.mp bestAt).1),
          Option.some.injEq] at entryAt
        subst entryAt
        simp
      · rw [List.getElem?_set_ne (Ne.symm sameChain)] at entryAt
        obtain ⟨entryLevel, entryChain⟩ := index.best_block chainNum entry entryAt
        have entryOther := otherAt entryLevel
        rw [Function.update_of_ne entryOther, Function.update_of_ne entryOther]
        exact ⟨entryLevel, entryChain⟩
    · rw [if_neg deeper] at entryAt
      obtain ⟨entryLevel, entryChain⟩ := index.best_block chainNum entry entryAt
      have entryOther := otherAt entryLevel
      rw [Function.update_of_ne entryOther, Function.update_of_ne entryOther]
      exact ⟨entryLevel, entryChain⟩
  · intro hash chainNum level entry chainAt atLevel entryAt
    simp only [addVoter_voterBest, addVoter_voterNodeLevel, addVoter_voterNodeChain] at chainAt atLevel entryAt
    have bestLength : voterParentChain < chain.voterBest.length :=
      (List.getElem?_eq_some_iff.mp bestAt).1
    by_cases same : hash = blockHash
    · subst same
      simp only [Function.update_self, Option.some.injEq] at chainAt atLevel
      subst chainAt atLevel
      split_ifs at entryAt with deeper
      · rw [List.getElem?_set_self bestLength, Option.some.injEq] at entryAt
        subst entryAt
        exact Nat.le_refl _
      · rw [bestAt, Option.some.injEq] at entryAt
        subst entryAt
        omega
    · rw [Function.update_of_ne same] at chainAt atLevel
      split_ifs at entryAt with deeper
      · by_cases sameChain : chainNum = voterParentChain
        · subst sameChain
          rw [List.getElem?_set_self bestLength, Option.some.injEq] at entryAt
          subst entryAt
          have := index.le_best hash chainNum level best chainAt atLevel bestAt
          dsimp only
          omega
        · rw [List.getElem?_set_ne (Ne.symm sameChain)] at entryAt
          exact index.le_best hash chainNum level entry chainAt atLevel entryAt
      · exact index.le_best hash chainNum level entry chainAt atLevel entryAt
  · obtain ⟨voters, votersEq, countsEq, voteCountsEq⟩ := index.counts
    have absent : blockHash ∉ voters := by
      rw [votersEq, fresh]
      simp
    refine ⟨insert blockHash voters, ?_, ?_, ?_⟩
    · intro hash
      simp only [addVoter_voterNodeLevel, Finset.mem_insert, votersEq]
      by_cases same : hash = blockHash
      · subst same
        simp
      · simp [same]
    · intro chainNum level
      have members : ∀ hash ∈ voters, hash ≠ blockHash := fun hash member => ne_of_mem_of_not_mem member absent
      rw [card_levelVoters_insert chain (chain.addVoter blockHash parentHash voterParentLevel voterParentChain
        proposerParentLevel best content) voterParentChain (voterParentLevel + 1) absent
        (fun hash member => by simp [Function.update_of_ne (members hash member)])
        (fun hash member => by simp [Function.update_of_ne (members hash member)]) (by simp) (by simp)]
      simp only [addVoter_voterTreeLevelCount]
      by_cases here : chainNum = voterParentChain ∧ level = voterParentLevel + 1
      · rw [if_pos here]
        obtain ⟨rfl, rfl⟩ := here
        -- the stored count was the number of voter blocks there, zero when absent
        have oldEq : (chain.voterTreeLevelCount (chainNum, voterParentLevel + 1)).getD 0 =
            (chain.levelVoters voters chainNum (voterParentLevel + 1)).card := by
          rw [countsEq]
          split_ifs with zero
          · rw [zero]
            rfl
          · rfl
        rw [Function.update_self, if_neg (Nat.succ_ne_zero _)]
        simp only [u64PlusMerge, List.foldl_cons, List.foldl_nil, oldEq]
      · have notHere : (chainNum, level) ≠ (voterParentChain, voterParentLevel + 1) := by
          simp only [ne_eq, Prod.mk.injEq]
          exact here
        rw [Function.update_of_ne notHere, if_neg here, Nat.add_zero, countsEq]
    · intro proposer
      simp only [addVoter_proposerVoteCount, addVoter_voteNeighbor]
      rw [addVoteCounts_getD, voteCountsEq, Finset.sum_insert absent, Function.update_self]
      have unchanged : ∑ voter ∈ voters,
          ((Function.update chain.voteNeighbor blockHash (some content.votes) voter).getD []).count proposer =
          ∑ voter ∈ voters, ((chain.voteNeighbor voter).getD []).count proposer := by
        apply Finset.sum_congr rfl
        intro voter member
        rw [Function.update_of_ne (ne_of_mem_of_not_mem member absent)]
      rw [unchanged, Option.getD_some]
      omega

end VoterPreservation

/-! ## Unreferred blocks -/

/-- A transaction block: a block with a parent link but neither a proposer
level nor a voter level. -/
def IsTransactionBlock (chain : BlockChain H) (hash : H) : Prop :=
  (chain.parentNeighbor hash).isSome ∧ chain.proposerNodeLevel hash = none ∧ chain.voterNodeLevel hash = none

/-- `unreferred_proposers` and `unreferred_transactions`: the proposer blocks
that no proposer block names as parent or reference, and the transaction
blocks that no proposer block refers to. -/
structure Unreferred (chain : BlockChain H) : Prop where
  /-- The unreferred proposer blocks. -/
  proposers : ∀ hash, (chain.unreferredProposers hash).isSome ↔
    (chain.proposerNodeLevel hash).isSome ∧
      ∀ block refs, chain.proposerRefNeighbor block = some refs → hash ∉ refs
  /-- The unreferred transaction blocks. -/
  transactions : ∀ hash, (chain.unreferredTransactions hash).isSome ↔
    chain.IsTransactionBlock hash ∧ ∀ block refs, chain.transactionRefNeighbor block = some refs → hash ∉ refs

section UnreferredPreservation

variable [DecidableEq H] {chain : BlockChain H}

/-- Inserting a proposer block with a fresh hash: it becomes unreferred, and
its parent, references and transaction references stop being so. -/
theorem Unreferred.addProposer (unreferred : chain.Unreferred) (index : chain.ProposerIndex)
    {blockHash parentHash : H} {timestamp parentLevel : Nat} {content : ProposerContent H}
    (fresh : chain.proposerNodeLevel blockHash = none) (freshParent : chain.parentNeighbor blockHash = none) :
    (chain.addProposer blockHash parentHash timestamp parentLevel content).Unreferred := by
  -- no reference list names the new block, which has no level
  have notReferred : ∀ block refs, chain.proposerRefNeighbor block = some refs → blockHash ∉ refs := by
    intro block refs refsEq member
    have present := index.ref_isSome refsEq member
    rw [fresh] at present
    cases present
  constructor
  · intro hash
    simp only [addProposer_unreferredProposers, addProposer_proposerNodeLevel,
      addProposer_proposerRefNeighbor, removeKeys_apply]
    by_cases named : hash ∈ content.proposerRefs ++ [parentHash]
    · rw [if_pos named]
      simp only [Option.isSome_none, Bool.false_eq_true, false_iff, not_and, not_forall]
      intro _
      refine ⟨blockHash, parentHash :: content.proposerRefs, by simp, ?_⟩
      simp only [List.mem_append, List.mem_singleton] at named
      simp only [List.mem_cons, not_not]
      exact named.symm
    · rw [if_neg named]
      simp only [List.mem_append, List.mem_singleton, not_or] at named
      have notInNew : hash ∉ parentHash :: content.proposerRefs := by
        simp only [List.mem_cons, not_or]
        exact ⟨named.2, named.1⟩
      by_cases same : hash = blockHash
      · subst same
        simp only [Function.update_self, Option.isSome_some, true_and, true_iff]
        intro block refs refsEq
        by_cases sameBlock : block = hash
        · subst sameBlock
          simp only [Function.update_self, Option.some.injEq] at refsEq
          rw [← refsEq]
          exact notInNew
        · rw [Function.update_of_ne sameBlock] at refsEq
          exact notReferred block refs refsEq
      · rw [Function.update_of_ne same, Function.update_of_ne same, unreferred.proposers hash]
        apply and_congr_right
        intro _
        constructor
        · intro unnamed block refs refsEq
          by_cases sameBlock : block = blockHash
          · subst sameBlock
            simp only [Function.update_self, Option.some.injEq] at refsEq
            rw [← refsEq]
            exact notInNew
          · rw [Function.update_of_ne sameBlock] at refsEq
            exact unnamed block refs refsEq
        · intro unnamed block refs refsEq
          by_cases sameBlock : block = blockHash
          · subst sameBlock
            have present : (chain.proposerRefNeighbor block).isSome := by rw [refsEq]; rfl
            rw [index.refs_isSome, fresh] at present
            cases present
          · apply unnamed block refs
            rw [Function.update_of_ne sameBlock]
            exact refsEq
  · intro hash
    simp only [addProposer_unreferredTransactions, addProposer_transactionRefNeighbor, removeKeys_apply]
    by_cases named : hash ∈ content.transactionRefs
    · rw [if_pos named]
      simp only [Option.isSome_none, Bool.false_eq_true, false_iff, not_and, not_forall]
      intro _
      exact ⟨blockHash, content.transactionRefs, by simp, by simpa using named⟩
    · rw [if_neg named, unreferred.transactions hash]
      unfold IsTransactionBlock
      simp only [addProposer_parentNeighbor, addProposer_proposerNodeLevel]
      by_cases same : hash = blockHash
      · subst same
        simp [freshParent]
      · simp only [Function.update_of_ne same]
        apply and_congr_right
        intro _
        constructor
        · intro unnamed block refs refsEq
          by_cases sameBlock : block = blockHash
          · subst sameBlock
            simp only [Function.update_self, Option.some.injEq] at refsEq
            rw [← refsEq]
            exact named
          · rw [Function.update_of_ne sameBlock] at refsEq
            exact unnamed block refs refsEq
        · intro unnamed block refs refsEq
          by_cases sameBlock : block = blockHash
          · subst sameBlock
            have present : (chain.transactionRefNeighbor block).isSome := by rw [refsEq]; rfl
            rw [index.transactionRefs_isSome, fresh] at present
            cases present
          · apply unnamed block refs
            rw [Function.update_of_ne sameBlock]
            exact refsEq

/-- Inserting a voter block with a fresh hash changes neither unreferred set. -/
theorem Unreferred.addVoter (unreferred : chain.Unreferred) {blockHash parentHash : H}
    {voterParentLevel voterParentChain proposerParentLevel : Nat} {best : H × Nat} {content : VoterContent H}
    (freshParent : chain.parentNeighbor blockHash = none) :
    (chain.addVoter blockHash parentHash voterParentLevel voterParentChain proposerParentLevel best
      content).Unreferred := by
  refine ⟨unreferred.proposers, fun hash => ?_⟩
  rw [show (chain.addVoter blockHash parentHash voterParentLevel voterParentChain proposerParentLevel best
    content).unreferredTransactions = chain.unreferredTransactions from rfl, unreferred.transactions hash]
  unfold IsTransactionBlock
  simp only [addVoter_parentNeighbor, addVoter_voterNodeLevel]
  by_cases same : hash = blockHash
  · subst same
    simp [freshParent]
  · simp only [Function.update_of_ne same]
    rfl

/-- Inserting a transaction block with a fresh hash makes it unreferred. -/
theorem Unreferred.addTransaction (unreferred : chain.Unreferred) (index : chain.ProposerIndex)
    {blockHash parentHash : H} {timestamp : Nat}
    (freshProposer : chain.proposerNodeLevel blockHash = none) (freshVoter : chain.voterNodeLevel blockHash = none)
    (freshParent : chain.parentNeighbor blockHash = none) :
    (chain.addTransaction blockHash parentHash timestamp).Unreferred := by
  refine ⟨unreferred.proposers, fun hash => ?_⟩
  simp only [addTransaction_unreferredTransactions]
  unfold IsTransactionBlock
  simp only [addTransaction_parentNeighbor]
  by_cases same : hash = blockHash
  · subst same
    simp only [Function.update_self, Option.isSome_some, true_and, true_iff]
    refine ⟨⟨freshProposer, freshVoter⟩, ?_⟩
    -- every transaction reference has a parent link, which the new block had not
    intro block refs refsEq member
    have present := index.transactionRefs_parent block refs refsEq hash member
    rw [freshParent] at present
    cases present
  · rw [Function.update_of_ne same, Function.update_of_ne same, unreferred.transactions hash]
    rfl

end UnreferredPreservation

/-! ## Which hashes have entries -/

section Keys

variable [Hashable (Header H) H]

/-- The keys of the proposer levels, the voter levels and the parent links:
the genesis blocks and the blocks inserted so far, by kind. -/
structure Keys (chain : BlockChain H) (inserted : List (Block H T)) : Prop where
  /-- The proposer blocks. -/
  proposer : ∀ hash, (chain.proposerNodeLevel hash).isSome ↔ hash = chain.config.proposerGenesis ∨
    ∃ block ∈ inserted, block.hash = hash ∧ ∃ content, block.content = .proposer content
  /-- The voter blocks. -/
  voter : ∀ hash, (chain.voterNodeLevel hash).isSome ↔ hash ∈ chain.config.voterGenesis ∨
    ∃ block ∈ inserted, block.hash = hash ∧ ∃ content, block.content = .voter content
  /-- The blocks with a parent link. -/
  parent : ∀ hash, (chain.parentNeighbor hash).isSome ↔ hash ∈ chain.config.voterGenesis ∨
    hash ∈ inserted.map Block.hash

/-- A hash that is neither a genesis block's nor an inserted block's has no
level and no parent link. -/
theorem Keys.fresh {chain : BlockChain H} {inserted : List (Block H T)} (keys : chain.Keys inserted) {hash : H}
    (notGenesis : hash ∉ chain.config.genesisHashes) (notInserted : hash ∉ inserted.map Block.hash) :
    chain.proposerNodeLevel hash = none ∧ chain.voterNodeLevel hash = none ∧ chain.parentNeighbor hash = none := by
  simp only [BlockchainConfig.genesisHashes, List.mem_cons, not_or] at notGenesis
  have notBlock : ∀ block ∈ inserted, block.hash ≠ hash := by
    intro block member same
    exact notInserted (List.mem_map.mpr ⟨block, member, same⟩)
  refine ⟨?_, ?_, ?_⟩
  · cases levelEq : chain.proposerNodeLevel hash with
    | none => rfl
    | some level =>
        rcases (keys.proposer hash).mp (by rw [levelEq]; rfl) with genesis | ⟨block, member, same, _⟩
        · exact absurd genesis notGenesis.1
        · exact absurd same (notBlock block member)
  · cases levelEq : chain.voterNodeLevel hash with
    | none => rfl
    | some level =>
        rcases (keys.voter hash).mp (by rw [levelEq]; rfl) with genesis | ⟨block, member, same, _⟩
        · exact absurd genesis notGenesis.2
        · exact absurd same (notBlock block member)
  · cases parentEq : chain.parentNeighbor hash with
    | none => rfl
    | some parent =>
        rcases (keys.parent hash).mp (by rw [parentEq]; rfl) with genesis | member
        · exact absurd genesis notGenesis.2
        · exact absurd member notInserted

/-- `insert_block` adds the inserted block to the keys of its kind. -/
theorem Keys.insertBlock [DecidableEq H] {chain next : BlockChain H} {inserted : List (Block H T)}
    {block : Block H T} (keys : chain.Keys inserted) (insertedEq : chain.insertBlock block = some next) :
    next.Keys (inserted ++ [block]) := by
  -- the new key is the block's hash; every other key keeps its entry
  have otherKey : ∀ {α : Type} (map : H → Option α) (value : α) (hash : H), hash ≠ block.hash →
      Function.update map block.hash (some value) hash = map hash :=
    fun map value hash same => Function.update_of_ne same _ _
  rcases insertBlock_eq_some insertedEq with ⟨content, parentLevel, contentEq, _, rfl⟩ |
    ⟨content, voterParentLevel, voterParentChain, proposerParentLevel, best, contentEq, _, _, _, _, rfl⟩ |
    ⟨content, contentEq, rfl⟩
  · refine ⟨fun hash => ?_, fun hash => ?_, fun hash => ?_⟩
    · simp only [addProposer_proposerNodeLevel, addProposer_config]
      by_cases same : hash = block.hash
      · subst same
        simp [contentEq]
      · rw [otherKey _ _ _ same, keys.proposer hash]
        simp [Ne.symm same, or_and_right, exists_or]
    · rw [show (chain.addProposer block.hash block.header.parent block.header.timestamp parentLevel
        content).voterNodeLevel = chain.voterNodeLevel from rfl, keys.voter hash]
      simp [contentEq, or_and_right, exists_or]
    · simp only [addProposer_parentNeighbor, addProposer_config]
      by_cases same : hash = block.hash
      · subst same
        simp
      · rw [otherKey _ _ _ same, keys.parent hash]
        simp [same]
  · refine ⟨fun hash => ?_, fun hash => ?_, fun hash => ?_⟩
    · rw [show (chain.addVoter block.hash block.header.parent voterParentLevel voterParentChain
        proposerParentLevel best content).proposerNodeLevel = chain.proposerNodeLevel from rfl,
        keys.proposer hash]
      simp [contentEq, or_and_right, exists_or]
    · simp only [addVoter_voterNodeLevel, addVoter_config]
      by_cases same : hash = block.hash
      · subst same
        simp [contentEq]
      · rw [otherKey _ _ _ same, keys.voter hash]
        simp [Ne.symm same, or_and_right, exists_or]
    · simp only [addVoter_parentNeighbor, addVoter_config]
      by_cases same : hash = block.hash
      · subst same
        simp
      · rw [otherKey _ _ _ same, keys.parent hash]
        simp [same]
  · refine ⟨fun hash => ?_, fun hash => ?_, fun hash => ?_⟩
    · rw [show (chain.addTransaction block.hash block.header.parent block.header.timestamp).proposerNodeLevel =
        chain.proposerNodeLevel from rfl, keys.proposer hash]
      simp [contentEq, or_and_right, exists_or]
    · rw [show (chain.addTransaction block.hash block.header.parent block.header.timestamp).voterNodeLevel =
        chain.voterNodeLevel from rfl, keys.voter hash]
      simp [contentEq, or_and_right, exists_or]
    · simp only [addTransaction_parentNeighbor]
      by_cases same : hash = block.hash
      · subst same
        simp
      · rw [otherKey _ _ _ same, keys.parent hash]
        simp [same]

end Keys

/-! ## The indices of `BlockChain::new` -/

section New

variable [DecidableEq H] [Inhabited H] (config : BlockchainConfig H)

/-- `BlockChain::new` sets up the proposer indices for the proposer genesis block. -/
theorem proposerIndex_new : (new config).ProposerIndex := by
  refine ⟨by simp, by simp, ?_, ?_, ?_, ?_, ?_, ?_, ?_, ⟨config.proposerGenesis, by simp⟩⟩
  · intro hash level notGenesis atLevel
    simp only [new_config] at notGenesis
    simp [notGenesis] at atLevel
  · intro hash
    by_cases same : hash = config.proposerGenesis <;> simp [same]
  · intro hash
    by_cases same : hash = config.proposerGenesis <;> simp [same]
  · intro hash refs refsEq ref member
    by_cases same : hash = config.proposerGenesis
    · subst same
      simp only [new_transactionRefNeighbor, Function.update_self, Option.some.injEq] at refsEq
      subst refsEq
      cases member
    · simp [same] at refsEq
  · intro level blocks blocksEq
    by_cases atZero : level = 0
    · subst atZero
      simp only [new_proposerTreeLevel, Function.update_self, Option.some.injEq] at blocksEq
      subst blocksEq
      refine ⟨List.nodup_singleton _, fun hash => ?_⟩
      by_cases same : hash = config.proposerGenesis <;> simp [same]
    · simp [atZero] at blocksEq
  · intro level
    by_cases atZero : level = 0
    · subst atZero
      simp only [new_proposerTreeLevel, Function.update_self, Option.isSome_some, true_iff]
      exact ⟨config.proposerGenesis, by simp⟩
    · simp only [new_proposerTreeLevel, new_proposerNodeLevel, Function.update_apply, atZero, if_false]
      constructor
      · intro impossible
        cases impossible
      · rintro ⟨hash, atLevel⟩
        split_ifs at atLevel with same
        exact absurd (Option.some.inj atLevel).symm atZero
  · intro hash level atLevel
    by_cases same : hash = config.proposerGenesis
    · simp only [same, new_proposerNodeLevel, Function.update_self, Option.some.injEq] at atLevel
      simp [← atLevel]
    · simp [same] at atLevel

/-- In `BlockChain::new`, each chain and level has one voter block, the genesis
block, at level zero. -/
theorem card_levelVoters_new (chainNum level : Nat) :
    ((new config).levelVoters config.voterGenesis.toFinset chainNum level).card =
      if level = 0 ∧ chainNum < config.voterChains then 1 else 0 := by
  have distinct := (List.nodup_cons.mp config.nodup_genesis).2
  unfold levelVoters
  split_ifs with here
  · obtain ⟨rfl, within⟩ := here
    have withinLength : chainNum < config.voterGenesis.length := by
      rw [config.length_voterGenesis]
      exact within
    rw [Finset.card_eq_one]
    refine ⟨config.voterGenesis[chainNum], Finset.ext fun hash => ?_⟩
    simp only [Finset.mem_filter, List.mem_toFinset, new_voterNodeChain, new_voterNodeLevel,
      Finset.mem_singleton]
    constructor
    · rintro ⟨member, chainEq, _⟩
      simp only [member, if_true, Option.some.injEq] at chainEq
      subst chainEq
      exact (List.getElem_idxOf _).symm
    · rintro rfl
      have member : config.voterGenesis[chainNum] ∈ config.voterGenesis := List.getElem_mem withinLength
      simp [member, List.Nodup.idxOf_getElem distinct chainNum withinLength]
  · rw [Finset.card_eq_zero, Finset.filter_eq_empty_iff]
    intro hash member
    simp only [List.mem_toFinset] at member
    simp only [new_voterNodeChain, new_voterNodeLevel, member, if_true, Option.some.injEq, not_and]
    intro chainEq levelEq
    have within : config.voterGenesis.idxOf hash < config.voterChains := by
      rw [← config.length_voterGenesis]
      exact List.idxOf_lt_length_of_mem member
    exact here ⟨levelEq.symm, chainEq ▸ within⟩

/-- `BlockChain::new` sets up the voter indices for the voter genesis blocks. -/
theorem voterIndex_new : (new config).VoterIndex := by
  have distinct := (List.nodup_cons.mp config.nodup_genesis).2
  have genesisChain : ∀ chainNum hash, config.voterGenesis[chainNum]? = some hash →
      hash ∈ config.voterGenesis ∧ config.voterGenesis.idxOf hash = chainNum := by
    intro chainNum hash genesisAt
    obtain ⟨within, hashEq⟩ := List.getElem?_eq_some_iff.mp genesisAt
    subst hashEq
    exact ⟨List.getElem_mem within, List.Nodup.idxOf_getElem distinct chainNum within⟩
  refine ⟨⟨?_, ?_, ?_, ?_⟩, ?_, fun hash _ => by simp, ?_, ?_, ?_, ?_, ?_, ?_, ?_, ?_⟩
  · intro hash level atLevel
    by_cases member : hash ∈ config.voterGenesis <;> simp_all
  · intro hash level atLevel
    by_cases member : hash ∈ config.voterGenesis <;> simp_all
  · intro hash chainNum _ chainAt
    by_cases member : hash ∈ config.voterGenesis
    · simp only [new_voterNodeChain, member, if_true, Option.some.injEq, new_config] at chainAt ⊢
      rw [← chainAt]
      exact List.getElem?_idxOf member
    · simp [member] at chainAt
  · intro hash level atLevel
    by_cases member : hash ∈ config.voterGenesis <;> simp [member] at atLevel
  · intro hash chainNum chainAt
    by_cases member : hash ∈ config.voterGenesis
    · simp only [new_voterNodeChain, member, if_true, Option.some.injEq, new_config] at chainAt ⊢
      rw [← chainAt, ← config.length_voterGenesis]
      exact List.idxOf_lt_length_of_mem member
    · simp [member] at chainAt
  · intro hash votedAt
    by_cases member : hash ∈ config.voterGenesis <;> simp_all
  · intro chainNum hash genesisAt
    simp only [new_config] at genesisAt
    obtain ⟨member, indexEq⟩ := genesisChain chainNum hash genesisAt
    simp [member, indexEq]
  · intro hash level atLevel
    by_cases member : hash ∈ config.voterGenesis <;> simp [member] at atLevel
  · intro hash voted votedAt
    by_cases member : hash ∈ config.voterGenesis
    · simp only [new_voterNodeVotedLevel, member, if_true, Option.some.injEq] at votedAt
      subst votedAt
      exact ⟨config.proposerGenesis, by simp [member], by simp⟩
    · simp [member] at votedAt
  · simp [config.length_voterGenesis]
  · intro chainNum best bestAt
    simp only [new_voterBest, List.getElem?_map, Option.map_eq_some_iff] at bestAt
    obtain ⟨hash, genesisAt, rfl⟩ := bestAt
    obtain ⟨member, indexEq⟩ := genesisChain chainNum hash genesisAt
    simp [member, indexEq]
  · intro hash chainNum level best _ atLevel _
    by_cases member : hash ∈ config.voterGenesis
    · simp only [new_voterNodeLevel, member, if_true, Option.some.injEq] at atLevel
      omega
    · simp [member] at atLevel
  · refine ⟨config.voterGenesis.toFinset, fun hash => by simp, fun chainNum level => ?_, fun proposer => ?_⟩
    · rw [card_levelVoters_new, new_voterTreeLevelCount]
      split_ifs <;> simp_all
    · have votesOfGenesis : ∀ voter ∈ config.voterGenesis.toFinset,
          (((new config).voteNeighbor voter).getD []).count proposer = [config.proposerGenesis].count proposer := by
        intro voter member
        simp only [List.mem_toFinset] at member
        simp [member]
      rw [Finset.sum_const_nat votesOfGenesis, List.toFinset_card_of_nodup distinct,
        config.length_voterGenesis, new_proposerVoteCount]
      by_cases same : proposer = config.proposerGenesis
      · subst same
        by_cases empty : config.voterGenesis = []
        · have noChains : config.voterChains = 0 := by
            rw [← config.length_voterGenesis, empty]
            rfl
          simp [empty, noChains]
        · simp [empty]
      · simp [same, Ne.symm same]

/-- In `BlockChain::new`, the proposer genesis block is unreferred. -/
theorem unreferred_new : (new config).Unreferred := by
  constructor
  · intro hash
    by_cases same : hash = config.proposerGenesis
    · subst same
      simp only [new_unreferredProposers, Function.update_self, Option.isSome_some, new_proposerNodeLevel,
        true_and, true_iff]
      intro block refs refsEq
      by_cases isGenesis : block = config.proposerGenesis
      · subst isGenesis
        simp only [new_proposerRefNeighbor, Function.update_self, Option.some.injEq] at refsEq
        rw [← refsEq]
        exact List.not_mem_nil
      · simp [isGenesis] at refsEq
    · simp [same]
  · intro hash
    simp only [new_unreferredTransactions, Option.isSome_none, Bool.false_eq_true, false_iff, not_and]
    intro ⟨parentPresent, _, notVoter⟩
    by_cases member : hash ∈ config.voterGenesis <;> simp_all

variable [Hashable (Header H) H]

/-- In `BlockChain::new`, the keys are those of the genesis blocks. -/
theorem keys_new : (new config).Keys ([] : List (Block H T)) := by
  refine ⟨fun hash => ?_, fun hash => ?_, fun hash => ?_⟩
  · by_cases same : hash = config.proposerGenesis <;> simp [same]
  · by_cases member : hash ∈ config.voterGenesis <;> simp [member]
  · by_cases member : hash ∈ config.voterGenesis <;> simp [member]

end New

/-! ## What `update_ledger` leaves of the indices -/

section Frame

variable {chain next : BlockChain H}

/-- `update_ledger` writes no field of the proposer index. -/
theorem ProposerIndex.ledgerFrame (proposers : chain.ProposerIndex)
    (frame : LedgerFrame chain next) : next.ProposerIndex := by
  rw [frame]
  exact proposers.of_agree rfl rfl rfl rfl rfl rfl (fun _ _ => rfl) (fun _ present => present)

/-- `update_ledger` writes no field of the voter index. -/
theorem VoterIndex.ledgerFrame [DecidableEq H] (voters : chain.VoterIndex)
    (frame : LedgerFrame chain next) : next.VoterIndex := by
  rw [frame]
  exact voters.of_agree rfl rfl rfl rfl rfl rfl rfl rfl rfl (fun _ _ => rfl) (fun _ _ => rfl)

end Frame

/-! ## The indices along a run -/

section Run

variable [DecidableEq H] [Hashable (Header H) H]

/-- All the indices of a state, with the blocks inserted to reach it. -/
structure Index (chain : BlockChain H) (inserted : List (Block H T)) : Prop where
  /-- The proposer indices. -/
  proposers : chain.ProposerIndex
  /-- The voter indices. -/
  voters : chain.VoterIndex
  /-- The unreferred blocks. -/
  unreferred : chain.Unreferred
  /-- The keys. -/
  keys : chain.Keys inserted

/-- `BlockChain::new` sets up the indices. -/
theorem index_new [Inhabited H] (config : BlockchainConfig H) : (new config).Index ([] : List (Block H T)) :=
  ⟨proposerIndex_new config, voterIndex_new config, unreferred_new config, keys_new config⟩

/-- `insert_block` of an accepted block keeps the indices. -/
theorem Index.insertBlock {chain next : BlockChain H} {inserted : List (Block H T)} {block : Block H T}
    {checkSignatureBatch : List T → Bool} (index : chain.Index inserted)
    (accepted : Accepted checkSignatureBatch chain inserted block)
    (insertedEq : chain.insertBlock block = some next) : next.Index (inserted ++ [block]) := by
  -- the block's hash is new: it has no level and no parent link yet
  obtain ⟨freshProposer, freshVoter, freshParent⟩ :=
    index.keys.fresh accepted.fresh_genesis accepted.fresh_received
  have keys := index.keys.insertBlock insertedEq
  rcases insertBlock_eq_some insertedEq with ⟨content, parentLevel, contentEq, parentAt, rfl⟩ |
    ⟨content, voterParentLevel, voterParentChain, proposerParentLevel, best, contentEq, voterParentAt,
      voterParentChainAt, parentAt, bestAt, rfl⟩ |
    ⟨content, contentEq, rfl⟩
  · obtain ⟨transactionRefsPresent, refsBelow⟩ := accepted.proposer contentEq
    refine ⟨index.proposers.addProposer freshProposer parentAt (refsBelow parentLevel parentAt)
        transactionRefsPresent, ?_, index.unreferred.addProposer index.proposers freshProposer freshParent, keys⟩
    exact index.voters.of_fresh freshProposer freshVoter rfl rfl rfl rfl rfl rfl rfl rfl rfl
      (fun hash other => Function.update_of_ne other _ _) (fun hash other => Function.update_of_ne other _ _)
  · obtain ⟨_, _, start, endLevel, votedAt, endAt, startLe, levels⟩ := accepted.voter contentEq
    rw [parentAt, Option.some.injEq] at endAt
    subst endAt
    refine ⟨index.proposers.of_parentNeighbor freshProposer rfl rfl rfl rfl rfl rfl rfl,
      index.voters.addVoter freshVoter voterParentAt voterParentChainAt parentAt bestAt votedAt startLe levels,
      index.unreferred.addVoter freshParent, keys⟩
  · refine ⟨index.proposers.of_parentNeighbor freshProposer rfl rfl rfl rfl rfl rfl rfl, ?_,
      index.unreferred.addTransaction index.proposers freshProposer freshVoter freshParent, keys⟩
    exact index.voters.of_fresh freshProposer freshVoter rfl rfl rfl rfl rfl rfl rfl rfl rfl
      (fun _ _ => rfl) (fun hash other => Function.update_of_ne other _ _)

/-- A call of `update_ledger` keeps the indices, none of whose fields it writes. -/
theorem Index.ledgerFrame {chain next : BlockChain H} {inserted : List (Block H T)} (index : chain.Index inserted)
    (frame : LedgerFrame chain next) : next.Index inserted := by
  refine ⟨index.proposers.ledgerFrame frame, index.voters.ledgerFrame frame, ?_, ?_⟩
  · rw [frame]
    exact ⟨index.unreferred.proposers, index.unreferred.transactions⟩
  · rw [frame]
    exact ⟨index.keys.proposer, index.keys.voter, index.keys.parent⟩

end Run

end BlockChain

section Run

variable {H T : Type} [DecidableEq H] [Hashable (Header H) H]

/-- Every reachable state has the indices of the blocks inserted to reach it. -/
theorem Reachable.index [Inhabited H] {checkSignatureBatch : List T → Bool} {policy : ConfirmationPolicy H}
    {config : BlockchainConfig H} {chain : BlockChain H} {inserted : List (Block H T)}
    (reachable : Reachable checkSignatureBatch policy config chain inserted) : chain.Index inserted := by
  induction reachable with
  | new => exact BlockChain.index_new config
  | insertBlock _ accepted insertedEq inductionHypothesis =>
      exact inductionHypothesis.insertBlock accepted insertedEq
  | updateLedger _ updated inductionHypothesis =>
      exact inductionHypothesis.ledgerFrame (BlockChain.updateLedger_frame updated)

end Run

end Prism
