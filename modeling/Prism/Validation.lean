import Prism.Blockchain.Insert

/-!
# Block validation

The checks of `validation/mod.rs` that read the blockchain: data
availability, and the semantic checks of proposer and voter content.  The
lookups they `unwrap` panic (`none`) on a missing entry; the worker runs data
availability first, so the semantic checks only see blocks whose references
are there.  The transaction signature check is cryptographic and is a
parameter.  The proof-of-work and sortition checks read only the block and
the configuration; they are in `Prism.Sortition`.
-/

namespace Prism

/-- The results of the modelled checks (`validation::BlockResult`). -/
inductive BlockResult (H : Type)
  /-- The validation passes. -/
  | pass
  /-- The proof of work does not pass. -/
  | wrongPoW
  /-- The sortition id and the content type do not match. -/
  | wrongSortitionId
  /-- The content's Merkle proof does not verify: the root, the content hash,
  the proof, the sortition id and the number of leaves it was checked with. -/
  | wrongSortitionProof (root data : H) (proof : List H) (index leafSize : Nat)
  /-- Some references are missing. -/
  | missingReferences (missing : List H)
  /-- A referred proposer block is deeper than the parent. -/
  | wrongProposerRef
  /-- A voter block's chain number is not its voter parent's. -/
  | wrongChainNumber
  /-- A voter block votes for incorrect proposer levels. -/
  | wrongVoteLevel
  /-- A transaction signature does not verify. -/
  | wrongSignature
  deriving DecidableEq, Repr

namespace Validation

variable {H T : Type}

/-- `check_proposer_block_exists`. -/
def checkProposerBlockExists (chain : BlockChain H) (hash : H) : Bool :=
  chain.containsProposer hash

/-- `check_voter_block_exists`. -/
def checkVoterBlockExists (chain : BlockChain H) (hash : H) : Bool :=
  chain.containsVoter hash

/-- `check_transaction_block_exists`. -/
def checkTransactionBlockExists (chain : BlockChain H) (hash : H) : Bool :=
  chain.containsTransaction hash

/-- `proposer_block::get_missing_references`: missing transaction blocks, then
missing proposer blocks. -/
def proposerMissingReferences (chain : BlockChain H) (content : ProposerContent H) : List H :=
  content.transactionRefs.filter (fun hash => !checkTransactionBlockExists chain hash) ++
    content.proposerRefs.filter (fun hash => !checkProposerBlockExists chain hash)

/-- `voter_block::get_missing_references`: a missing voter parent, then missing
voted blocks. -/
def voterMissingReferences (chain : BlockChain H) (content : VoterContent H) : List H :=
  (if checkVoterBlockExists chain content.voterParent then [] else [content.voterParent]) ++
    content.votes.filter (fun hash => !checkProposerBlockExists chain hash)

/-- `check_data_availability`: the proposer parent and every reference exist. -/
def checkDataAvailability (chain : BlockChain H) (block : Block H T) : BlockResult H :=
  let missing :=
    (if checkProposerBlockExists chain block.header.parent then [] else [block.header.parent]) ++
      match block.content with
      | .proposer content => proposerMissingReferences chain content
      | .voter content => voterMissingReferences chain content
      | .transaction _ => []
  if missing.isEmpty then .pass else .missingReferences missing

/-- The loop of `check_ref_proposer_level`: every referred proposer block is
at most as deep as the parent, checked in order. -/
def checkRefLevels (chain : BlockChain H) (parentLevel : Nat) : List H → Option Bool
  | [] => some true
  | ref :: rest => do
      let level ← chain.proposerLevel ref
      if level > parentLevel then some false else checkRefLevels chain parentLevel rest

/-- `proposer_block::check_ref_proposer_level`. -/
def checkRefProposerLevel (chain : BlockChain H) (parent : H) (content : ProposerContent H) :
    Option Bool := do
  let parentLevel ← chain.proposerLevel parent
  checkRefLevels chain parentLevel content.proposerRefs

/-- `voter_block::check_chain_number`: the chain number is the voter parent's. -/
def checkChainNumber (chain : BlockChain H) (content : VoterContent H) : Option Bool := do
  let chainNum ← chain.voterChainNumber content.voterParent
  some (chainNum == content.chainNumber)

/-- The loop of `check_levels_voted`: the votes are for consecutive levels
after `level`. -/
def checkVoteLevels (chain : BlockChain H) : Nat → List H → Option Bool
  | _, [] => some true
  | level, vote :: rest => do
      let voteLevel ← chain.proposerLevel vote
      if level + 1 ≠ voteLevel then some false else checkVoteLevels chain (level + 1) rest

/-- `voter_block::check_levels_voted`: the votes cover exactly the levels after
the voter parent's deepest voted level, up to the proposer parent's level. -/
def checkLevelsVoted (chain : BlockChain H) (content : VoterContent H) (parent : H) : Option Bool := do
  let start ← chain.deepestVotedLevel content.voterParent
  let endLevel ← chain.proposerLevel parent
  if start > endLevel then some false
  else if content.votes.length ≠ endLevel - start then some false
  else checkVoteLevels chain start content.votes

/-- `check_content_semantic`. -/
def checkContentSemantic (checkSignatureBatch : List T → Bool) (chain : BlockChain H)
    (block : Block H T) : Option (BlockResult H) :=
  match block.content with
  | .proposer content => do
      let refsOk ← checkRefProposerLevel chain block.header.parent content
      some (if refsOk then .pass else .wrongProposerRef)
  | .voter content => do
      let chainOk ← checkChainNumber chain content
      if !chainOk then some .wrongChainNumber
      else do
        let levelsOk ← checkLevelsVoted chain content block.header.parent
        some (if levelsOk then .pass else .wrongVoteLevel)
  | .transaction content =>
      some (if checkSignatureBatch content.transactions then .pass else .wrongSignature)

/-! ## What a passing check says -/

section Spec

variable {chain : BlockChain H}

/-- Data availability passes exactly when the parent is a proposer block and
every reference of the content is there. -/
theorem checkDataAvailability_eq_pass {block : Block H T} :
    checkDataAvailability chain block = .pass ↔
      chain.containsProposer block.header.parent = true ∧
      match block.content with
      | .proposer content => (∀ hash ∈ content.transactionRefs, chain.containsTransaction hash = true) ∧
          ∀ hash ∈ content.proposerRefs, chain.containsProposer hash = true
      | .voter content => chain.containsVoter content.voterParent = true ∧
          ∀ hash ∈ content.votes, chain.containsProposer hash = true
      | .transaction _ => True := by
  unfold checkDataAvailability
  rcases block with ⟨header, content, proof⟩
  cases parentExists : chain.containsProposer header.parent with
  | false => simp [checkProposerBlockExists, parentExists]
  | true =>
      cases content with
      | proposer content =>
          simp [proposerMissingReferences, checkProposerBlockExists, checkTransactionBlockExists,
            List.filter_eq_nil_iff, parentExists]
      | voter content =>
          cases voterParentExists : chain.containsVoter content.voterParent <;>
            simp [voterMissingReferences, checkProposerBlockExists, checkVoterBlockExists,
              List.filter_eq_nil_iff, parentExists, voterParentExists]
      | transaction content =>
          simp [checkProposerBlockExists, parentExists]

/-- The reference-level loop passes exactly when every reference has a level
at most `parentLevel`. -/
theorem checkRefLevels_eq_some_true {parentLevel : Nat} :
    ∀ refs : List H, checkRefLevels chain parentLevel refs = some true ↔
      ∀ ref ∈ refs, ∃ level, chain.proposerLevel ref = some level ∧ level ≤ parentLevel := by
  intro refs
  induction refs with
  | nil => simp [checkRefLevels]
  | cons ref rest inductionHypothesis =>
      cases levelEq : chain.proposerLevel ref with
      | none => simp [checkRefLevels, levelEq]
      | some level =>
          by_cases deeper : level > parentLevel
          · simp [checkRefLevels, levelEq, deeper]
          · have within : level ≤ parentLevel := by omega
            simp [checkRefLevels, levelEq, deeper, inductionHypothesis, within]

/-- The vote-level loop passes exactly when the votes are for the consecutive
levels after `level`. -/
theorem checkVoteLevels_eq_some_true :
    ∀ (votes : List H) (level : Nat), checkVoteLevels chain level votes = some true ↔
      votes.map chain.proposerLevel = (List.range' (level + 1) votes.length).map some := by
  intro votes
  induction votes with
  | nil => simp [checkVoteLevels]
  | cons vote rest inductionHypothesis =>
      intro level
      cases levelEq : chain.proposerLevel vote with
      | none => simp [checkVoteLevels, levelEq, List.range'_succ]
      | some voteLevel =>
          by_cases consecutive : level + 1 = voteLevel
          · subst consecutive
            simp [checkVoteLevels, levelEq, inductionHypothesis, List.range'_succ]
          · simp [checkVoteLevels, levelEq, consecutive, List.range'_succ, Ne.symm consecutive]

/-- With the voter parent's deepest voted level and the proposer parent's level
known, `check_levels_voted` passes exactly when the votes are for the levels
between them. -/
theorem checkLevelsVoted_eq_some_true_of {content : VoterContent H} {parent : H} {start endLevel : Nat}
    (startEq : chain.deepestVotedLevel content.voterParent = some start)
    (endEq : chain.proposerLevel parent = some endLevel) :
    checkLevelsVoted chain content parent = some true ↔ start ≤ endLevel ∧
      content.votes.map chain.proposerLevel = (List.range' (start + 1) (endLevel - start)).map some := by
  simp only [checkLevelsVoted, startEq, endEq, Option.bind_eq_bind, Option.bind_some]
  by_cases later : start > endLevel
  · simp [later]
  · by_cases wrongLength : content.votes.length ≠ endLevel - start
    · have mismatch : ¬ content.votes.map chain.proposerLevel =
          (List.range' (start + 1) (endLevel - start)).map some := by
        intro same
        apply wrongLength
        simpa using congrArg List.length same
      simp [later, wrongLength, mismatch]
    · have lengthEq : content.votes.length = endLevel - start := by
        simpa using wrongLength
      rw [if_neg later, if_neg wrongLength, checkVoteLevels_eq_some_true, lengthEq]
      constructor
      · intro levels
        exact ⟨by omega, levels⟩
      · intro ⟨_, levels⟩
        exact levels

/-- `check_levels_voted` passes exactly when the votes are for the levels
after the voter parent's deepest voted level, up to the proposer parent's. -/
theorem checkLevelsVoted_eq_some_true {content : VoterContent H} {parent : H} :
    checkLevelsVoted chain content parent = some true ↔
      ∃ start endLevel, chain.deepestVotedLevel content.voterParent = some start ∧
        chain.proposerLevel parent = some endLevel ∧ start ≤ endLevel ∧
        content.votes.map chain.proposerLevel = (List.range' (start + 1) (endLevel - start)).map some := by
  cases startEq : chain.deepestVotedLevel content.voterParent with
  | none => simp [checkLevelsVoted, startEq]
  | some start =>
      cases endEq : chain.proposerLevel parent with
      | none => simp [checkLevelsVoted, startEq, endEq]
      | some endLevel =>
          rw [checkLevelsVoted_eq_some_true_of startEq endEq]
          simp

/-- Data availability reports missing references only when some are
missing. -/
theorem checkDataAvailability_missing_ne_nil {block : Block H T} {missing : List H}
    (missed : checkDataAvailability chain block = .missingReferences missing) : missing ≠ [] := by
  -- the result is `MissingReferences` of the collected list only when that list is not empty
  have collected : ∀ found : List H,
      (if found.isEmpty then BlockResult.pass else .missingReferences found) = .missingReferences missing →
        missing ≠ [] := by
    intro found reported
    split at reported
    · cases reported
    · rename_i nonempty
      cases reported
      simpa [List.isEmpty_iff] using nonempty
  exact collected _ missed

/-- What each kind of content must pass for `check_content_semantic` to
pass. -/
theorem checkContentSemantic_eq_pass {checkSignatureBatch : List T → Bool} {block : Block H T} :
    checkContentSemantic checkSignatureBatch chain block = some .pass ↔
      match block.content with
      | .proposer content => checkRefProposerLevel chain block.header.parent content = some true
      | .voter content => checkChainNumber chain content = some true ∧
          checkLevelsVoted chain content block.header.parent = some true
      | .transaction content => checkSignatureBatch content.transactions = true := by
  unfold checkContentSemantic
  cases block.content with
  | proposer content =>
      cases refs : checkRefProposerLevel chain block.header.parent content with
      | none => simp [refs]
      | some refsOk => cases refsOk <;> simp [refs]
  | voter content =>
      cases chainNum : checkChainNumber chain content with
      | none => simp [chainNum]
      | some chainOk =>
          cases chainOk
          · simp [chainNum]
          · cases levels : checkLevelsVoted chain content block.header.parent with
            | none => simp [chainNum, levels]
            | some levelsOk => cases levelsOk <;> simp [chainNum, levels]
  | transaction content => cases checkSignatureBatch content.transactions <;> simp

/-- Data availability passes or reports the missing references; it has no
other result. -/
theorem checkDataAvailability_cases {block : Block H T} :
    checkDataAvailability chain block = .pass ∨
      ∃ missing, checkDataAvailability chain block = .missingReferences missing := by
  -- the result is `Pass` or `MissingReferences` of the collected list
  have collected : ∀ found : List H,
      (if found.isEmpty then BlockResult.pass else .missingReferences found) = .pass ∨
        ∃ missing, (if found.isEmpty then BlockResult.pass else .missingReferences found) = .missingReferences missing := by
    intro found
    by_cases empty : found.isEmpty <;> simp [empty]
  exact collected _

/-- The reference-level loop returns when every reference has a level. -/
theorem checkRefLevels_isSome (parentLevel : Nat) :
    ∀ refs : List H, (∀ ref ∈ refs, (chain.proposerLevel ref).isSome) →
      (checkRefLevels chain parentLevel refs).isSome := by
  intro refs
  induction refs with
  | nil => intro _; rfl
  | cons ref rest inductionHypothesis =>
      intro levels
      obtain ⟨level, levelEq⟩ := Option.isSome_iff_exists.mp (levels ref List.mem_cons_self)
      simp only [checkRefLevels, levelEq, Option.bind_eq_bind, Option.bind_some]
      split
      · rfl
      · exact inductionHypothesis fun other member => levels other (List.mem_cons_of_mem ref member)

/-- The vote-level loop returns when every vote has a level. -/
theorem checkVoteLevels_isSome :
    ∀ (votes : List H) (level : Nat), (∀ vote ∈ votes, (chain.proposerLevel vote).isSome) →
      (checkVoteLevels chain level votes).isSome := by
  intro votes
  induction votes with
  | nil => intro _ _; rfl
  | cons vote rest inductionHypothesis =>
      intro level levels
      obtain ⟨voteLevel, levelEq⟩ := Option.isSome_iff_exists.mp (levels vote List.mem_cons_self)
      simp only [checkVoteLevels, levelEq, Option.bind_eq_bind, Option.bind_some]
      split
      · rfl
      · exact inductionHypothesis _ fun other member => levels other (List.mem_cons_of_mem vote member)

/-- `check_content_semantic` returns when every lookup it makes finds its
entry: the parent's level, the levels of the proposer references and of the
votes, and the voter parent's chain and deepest voted level. -/
theorem checkContentSemantic_isSome_of_found {checkSignatureBatch : List T → Bool} {block : Block H T}
    (parent : (chain.proposerLevel block.header.parent).isSome)
    (lookups : match block.content with
      | .proposer content => ∀ ref ∈ content.proposerRefs, (chain.proposerLevel ref).isSome
      | .voter content => (chain.voterChainNumber content.voterParent).isSome ∧
          (chain.deepestVotedLevel content.voterParent).isSome ∧
          ∀ vote ∈ content.votes, (chain.proposerLevel vote).isSome
      | .transaction _ => True) :
    (checkContentSemantic checkSignatureBatch chain block).isSome := by
  obtain ⟨parentLevel, parentEq⟩ := Option.isSome_iff_exists.mp parent
  unfold checkContentSemantic
  cases contentEq : block.content with
  | proposer content =>
      rw [contentEq] at lookups
      obtain ⟨refsOk, refsEq⟩ := Option.isSome_iff_exists.mp (checkRefLevels_isSome parentLevel
        content.proposerRefs lookups)
      simp [checkRefProposerLevel, parentEq, refsEq]
  | voter content =>
      rw [contentEq] at lookups
      obtain ⟨⟨chainNum, chainEq⟩, ⟨start, startEq⟩, votes⟩ :=
        And.imp Option.isSome_iff_exists.mp (And.imp_left Option.isSome_iff_exists.mp) lookups
      simp only [checkChainNumber, chainEq, Option.bind_eq_bind, Option.bind_some]
      split
      · rfl
      · simp only [checkLevelsVoted, startEq, parentEq, Option.bind_eq_bind, Option.bind_some]
        split
        · rfl
        · split
          · rfl
          · obtain ⟨levelsOk, levelsEq⟩ := Option.isSome_iff_exists.mp (checkVoteLevels_isSome content.votes start votes)
            simp [levelsEq]
  | transaction content => rfl

end Spec

end Validation

end Prism
