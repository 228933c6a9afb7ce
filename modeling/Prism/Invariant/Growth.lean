import Prism.Invariant.Index

/-!
# The blockchain only grows

A worker checks a block's data availability and content, and inserts it a few
steps later; in between, other threads insert blocks and update the ledger.
Neither takes away what the checks read.  `insert_block` of a block whose hash
is new writes entries under that hash only, and `update_ledger` writes the
ledger's own fields (`Extends.of_insertBlock`, `Extends.of_ledgerFrame`).  So a
block that passed the checks passes them still when it is inserted
(`Extends.checkDataAvailability`, `Extends.checkContentSemantic`).

On a reachable blockchain the checks return on every block whose references
are there, `insert_block` returns on every block they accept, and the
inserted blocks have distinct hashes, none of a genesis block
(`Reachable.checkContentSemantic_isSome`, `Reachable.insertBlock_isSome`,
`Reachable.inserted_fresh`).
-/

namespace Prism
namespace BlockChain

open Function

variable {H T : Type}

/-- `next` keeps every entry of `chain` that validation reads: the levels,
the chain number and voted level of each voter block, and the parent links. -/
structure Extends (chain next : BlockChain H) : Prop where
  /-- Proposer levels stay. -/
  proposerNodeLevel : ∀ hash level, chain.proposerNodeLevel hash = some level →
    next.proposerNodeLevel hash = some level
  /-- Voter levels stay. -/
  voterNodeLevel : ∀ hash level, chain.voterNodeLevel hash = some level → next.voterNodeLevel hash = some level
  /-- A voter block keeps its chain. -/
  voterNodeChain : ∀ hash, (chain.voterNodeLevel hash).isSome → next.voterNodeChain hash = chain.voterNodeChain hash
  /-- A voter block keeps its deepest voted level. -/
  voterNodeVotedLevel : ∀ hash, (chain.voterNodeLevel hash).isSome →
    next.voterNodeVotedLevel hash = chain.voterNodeVotedLevel hash
  /-- Parent links stay. -/
  parentNeighbor : ∀ hash parent, chain.parentNeighbor hash = some parent → next.parentNeighbor hash = some parent

namespace Extends

variable {chain next : BlockChain H}

/-- A blockchain extends itself. -/
theorem refl (chain : BlockChain H) : Extends chain chain :=
  ⟨fun _ _ found => found, fun _ _ found => found, fun _ _ => rfl, fun _ _ => rfl, fun _ _ found => found⟩

/-- `update_ledger` writes none of the entries validation reads. -/
theorem of_ledgerFrame (frame : LedgerFrame chain next) : Extends chain next := by
  rw [frame]
  exact ⟨fun _ _ found => found, fun _ _ found => found, fun _ _ => rfl, fun _ _ => rfl, fun _ _ found => found⟩

/-- `insert_block` of a block with a new hash writes under that hash only. -/
theorem of_insertBlock [DecidableEq H] [Hashable (Header H) H] {block : Block H T}
    (inserted : chain.insertBlock block = some next) (freshProposer : chain.proposerNodeLevel block.hash = none)
    (freshVoter : chain.voterNodeLevel block.hash = none) (freshParent : chain.parentNeighbor block.hash = none) :
    Extends chain next := by
  -- an entry that is there is under another hash than the new block's
  have other : ∀ {α : Type} {map : H → Option α} {hash : H}, map block.hash = none → (map hash).isSome →
      hash ≠ block.hash := by
    rintro α map hash fresh found rfl
    rw [fresh] at found
    cases found
  have kept : ∀ {α : Type} {map : H → Option α} {hash : H} (value : Option α), map block.hash = none →
      (map hash).isSome → update map block.hash value hash = map hash :=
    fun value fresh found => update_of_ne (other fresh found) _ _
  rcases insertBlock_eq_some inserted with ⟨content, parentLevel, -, -, rfl⟩ |
    ⟨content, voterParentLevel, voterParentChain, proposerParentLevel, best, -, -, -, -, -, rfl⟩ | ⟨content, -, rfl⟩
  · refine ⟨fun hash level found => ?_, fun _ _ found => found, fun _ _ => rfl, fun _ _ => rfl,
      fun hash parent found => ?_⟩
    · rw [addProposer_proposerNodeLevel, kept _ freshProposer (by rw [found]; rfl), found]
    · rw [addProposer_parentNeighbor, kept _ freshParent (by rw [found]; rfl), found]
  · refine ⟨fun _ _ found => found, fun hash level found => ?_, fun hash voter => ?_, fun hash voter => ?_,
      fun hash parent found => ?_⟩
    · rw [addVoter_voterNodeLevel, kept _ freshVoter (by rw [found]; rfl), found]
    · rw [addVoter_voterNodeChain, update_of_ne (other freshVoter voter)]
    · rw [addVoter_voterNodeVotedLevel, update_of_ne (other freshVoter voter)]
    · rw [addVoter_parentNeighbor, kept _ freshParent (by rw [found]; rfl), found]
  · refine ⟨fun _ _ found => found, fun _ _ found => found, fun _ _ => rfl, fun _ _ => rfl,
      fun hash parent found => ?_⟩
    rw [addTransaction_parentNeighbor, kept _ freshParent (by rw [found]; rfl), found]

variable (grows : Extends chain next)
include grows

theorem proposerLevel {hash : H} {level : Nat} (found : chain.proposerLevel hash = some level) :
    next.proposerLevel hash = some level :=
  grows.proposerNodeLevel hash level found

theorem containsProposer {hash : H} (present : chain.containsProposer hash = true) :
    next.containsProposer hash = true := by
  obtain ⟨level, found⟩ := Option.isSome_iff_exists.mp present
  rw [BlockChain.containsProposer, grows.proposerNodeLevel hash level found]
  rfl

theorem containsVoter {hash : H} (present : chain.containsVoter hash = true) : next.containsVoter hash = true := by
  obtain ⟨level, found⟩ := Option.isSome_iff_exists.mp present
  rw [BlockChain.containsVoter, grows.voterNodeLevel hash level found]
  rfl

theorem containsTransaction {hash : H} (present : chain.containsTransaction hash = true) :
    next.containsTransaction hash = true := by
  obtain ⟨parent, found⟩ := Option.isSome_iff_exists.mp present
  rw [BlockChain.containsTransaction, grows.parentNeighbor hash parent found]
  rfl

/-- A block whose parent and references are there has them still. -/
theorem checkDataAvailability {block : Block H T} (available : Validation.checkDataAvailability chain block = .pass) :
    Validation.checkDataAvailability next block = .pass := by
  rw [Validation.checkDataAvailability_eq_pass] at available ⊢
  obtain ⟨parent, refs⟩ := available
  refine ⟨grows.containsProposer parent, ?_⟩
  cases contentEq : block.content with
  | proposer content =>
      rw [contentEq] at refs
      exact ⟨fun hash member => grows.containsTransaction (refs.1 hash member),
        fun hash member => grows.containsProposer (refs.2 hash member)⟩
  | voter content =>
      rw [contentEq] at refs
      exact ⟨grows.containsVoter refs.1, fun hash member => grows.containsProposer (refs.2 hash member)⟩
  | transaction content => trivial

theorem checkRefProposerLevel {parent : H} {content : ProposerContent H}
    (passed : Validation.checkRefProposerLevel chain parent content = some true) :
    Validation.checkRefProposerLevel next parent content = some true := by
  unfold Validation.checkRefProposerLevel at passed ⊢
  cases parentEq : chain.proposerLevel parent with
  | none => simp [parentEq] at passed
  | some parentLevel =>
      simp only [parentEq, Option.bind_eq_bind, Option.bind_some] at passed
      rw [grows.proposerLevel parentEq, Option.bind_eq_bind, Option.bind_some,
        Validation.checkRefLevels_eq_some_true]
      intro ref member
      obtain ⟨level, levelEq, within⟩ := (Validation.checkRefLevels_eq_some_true _).mp passed ref member
      exact ⟨level, grows.proposerLevel levelEq, within⟩

theorem checkChainNumber {content : VoterContent H} (voter : (chain.voterNodeLevel content.voterParent).isSome) :
    Validation.checkChainNumber next content = Validation.checkChainNumber chain content := by
  unfold Validation.checkChainNumber voterChainNumber
  rw [grows.voterNodeChain _ voter]

theorem checkLevelsVoted {content : VoterContent H} {parent : H}
    (voter : (chain.voterNodeLevel content.voterParent).isSome)
    (passed : Validation.checkLevelsVoted chain content parent = some true) :
    Validation.checkLevelsVoted next content parent = some true := by
  obtain ⟨start, endLevel, startEq, endEq, ordered, levels⟩ := Validation.checkLevelsVoted_eq_some_true.mp passed
  -- every vote has a level, which it keeps
  have votesKept : content.votes.map next.proposerLevel = content.votes.map chain.proposerLevel := by
    refine List.map_congr_left fun vote member => ?_
    have listed : chain.proposerLevel vote ∈ (List.range' (start + 1) (endLevel - start)).map some :=
      levels ▸ List.mem_map_of_mem member
    obtain ⟨level, -, found⟩ := List.mem_map.mp listed
    rw [← found, grows.proposerLevel found.symm]
  refine Validation.checkLevelsVoted_eq_some_true.mpr ⟨start, endLevel, ?_, grows.proposerLevel endEq, ordered, ?_⟩
  · rw [deepestVotedLevel, grows.voterNodeVotedLevel _ voter]
    exact startEq
  · rw [votesKept]
    exact levels

/-- A block whose content passed the semantic checks, with its references
there, passes them still. -/
theorem checkContentSemantic {checkSignatureBatch : List T → Bool} {block : Block H T}
    (available : Validation.checkDataAvailability chain block = .pass)
    (valid : Validation.checkContentSemantic checkSignatureBatch chain block = some .pass) :
    Validation.checkContentSemantic checkSignatureBatch next block = some .pass := by
  have refs := (Validation.checkDataAvailability_eq_pass.mp available).2
  rw [Validation.checkContentSemantic_eq_pass] at valid ⊢
  cases contentEq : block.content with
  | proposer content =>
      rw [contentEq] at valid
      exact grows.checkRefProposerLevel valid
  | voter content =>
      rw [contentEq] at valid refs
      exact ⟨(grows.checkChainNumber refs.1).trans valid.1, grows.checkLevelsVoted refs.1 valid.2⟩
  | transaction content =>
      rw [contentEq] at valid
      exact valid

end Extends

/-- Every voter block has a deepest voted level. -/
theorem VoterIndex.votedLevel_isSome [DecidableEq H] {chain : BlockChain H} (index : chain.VoterIndex) {hash : H}
    {level : Nat} (atLevel : chain.voterNodeLevel hash = some level) : (chain.voterNodeVotedLevel hash).isSome := by
  cases level with
  | zero =>
      -- a voter block at level zero is the genesis block of its chain
      obtain ⟨chainNum, chainEq⟩ := Option.isSome_iff_exists.mp (index.chain_isSome hash 0 atLevel)
      rw [(index.genesis_block chainNum hash (index.genesis hash chainNum atLevel chainEq)).2.2.2]
      rfl
  | succ level =>
      obtain ⟨_, _, _, voted, _, _, _, votedEq, _⟩ := index.votes hash level atLevel
      rw [votedEq]
      rfl

end BlockChain

/-! ## What never panics on a reachable blockchain -/

section Run

variable {H T : Type} [DecidableEq H] [Hashable (Header H) H] [Inhabited H] {checkSignatureBatch : List T → Bool}
  {policy : ConfirmationPolicy H} {config : BlockchainConfig H} {chain : BlockChain H} {inserted : List (Block H T)}
  {block : Block H T}

/-- On a reachable blockchain, `check_content_semantic` returns on every block
whose references are there: every lookup it makes finds its entry. -/
theorem Reachable.checkContentSemantic_isSome (reachable : Reachable checkSignatureBatch policy config chain inserted)
    (available : Validation.checkDataAvailability chain block = .pass) :
    (Validation.checkContentSemantic checkSignatureBatch chain block).isSome := by
  have voters := reachable.index.voters
  obtain ⟨parent, refs⟩ := Validation.checkDataAvailability_eq_pass.mp available
  refine Validation.checkContentSemantic_isSome_of_found parent ?_
  cases contentEq : block.content with
  | proposer content =>
      rw [contentEq] at refs
      exact refs.2
  | voter content =>
      rw [contentEq] at refs
      obtain ⟨level, levelEq⟩ := Option.isSome_iff_exists.mp refs.1
      exact ⟨voters.chain_isSome _ level levelEq, voters.votedLevel_isSome levelEq, refs.2⟩
  | transaction content => trivial

/-- `insert_block` returns on every accepted block of a reachable blockchain:
the levels, the chain and the best block it reads are there. -/
theorem Reachable.insertBlock_isSome (reachable : Reachable checkSignatureBatch policy config chain inserted)
    (accepted : Accepted checkSignatureBatch chain inserted block) : ∃ next, chain.insertBlock block = some next := by
  obtain ⟨parentLevel, parentEq⟩ := Option.isSome_iff_exists.mp accepted.parent_isSome
  suffices found : (chain.insertBlock block).isSome from Option.isSome_iff_exists.mp found
  cases contentEq : block.content with
  | proposer content => simp [BlockChain.insertBlock, contentEq, parentEq]
  | voter content =>
      have voters := reachable.index.voters
      obtain ⟨voter, chainEq, -⟩ := accepted.voter contentEq
      obtain ⟨voterLevel, voterEq⟩ := Option.isSome_iff_exists.mp voter
      -- the voter parent's chain is one of the voter chains, each with a best block
      have within : content.chainNumber < chain.voterBest.length := by
        rw [voters.best_length]
        exact voters.chain_lt _ _ chainEq
      simp [BlockChain.insertBlock, contentEq, voterEq, chainEq, parentEq, List.getElem?_eq_getElem within]
  | transaction content => simp [BlockChain.insertBlock, contentEq]

/-- No block is inserted twice along a run of the blockchain, and no genesis
block is inserted. -/
theorem Reachable.inserted_fresh (reachable : Reachable checkSignatureBatch policy config chain inserted) :
    (inserted.map Block.hash).Nodup ∧ ∀ block ∈ inserted, block.hash ∉ config.genesisHashes := by
  induction reachable with
  | new => exact ⟨List.nodup_nil, fun _ member => by cases member⟩
  | insertBlock previous accepted _ inductionHypothesis =>
      obtain ⟨nodup, notGenesis⟩ := inductionHypothesis
      refine ⟨?_, fun block member => ?_⟩
      · rw [List.map_append, List.nodup_append]
        refine ⟨nodup, List.nodup_singleton _, fun hash old other added same => ?_⟩
        rw [List.map_singleton, List.mem_singleton] at added
        rw [same, added] at old
        exact accepted.fresh_received old
      · rcases List.mem_append.mp member with old | added
        · exact notGenesis block old
        · rw [List.mem_singleton.mp added, ← previous.config]
          exact accepted.fresh_genesis
  | updateLedger _ _ inductionHypothesis => exact inductionHypothesis

end Run

end Prism
