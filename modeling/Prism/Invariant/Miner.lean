import Prism.Miner.Context
import Prism.Library.OptionFold

/-!
# What the miner keeps

The contents of the miner stay one per slot, each of its slot's kind
(`Shaped`): the proposer content first, the transaction content second and
the content of voter chain `k` at `FIRST_VOTER_INDEX + k`.  While a pass
refreshes them, every entry it writes is touched (`Tracks`), so the tree it
updates at the touched entries is the tree built over the new contents; after
a new proposer block it is rebuilt.  Along every run the tree is the one
`MerkleTree::new` builds over the contents (`Reachable.invariant`), and a
block the miner produces carries the content of its slot with a proof that
`verify` accepts against the header's root (`Invariant.produceBlock_spec`).
-/

namespace Prism

namespace Miner

variable {H T : Type}

/-- The contents the miner keeps: one per slot, each of its slot's kind. -/
structure Shaped (voterChains : Nat) (contents : List (Content H T)) : Prop where
  /-- A slot for the proposer, one for the transactions and one per voter chain. -/
  length_eq : contents.length = voterChains + firstVoterIndex
  /-- Each content is in its slot. -/
  inSlot : ∀ {chainId : Nat} {content : Content H T}, contents[chainId]? = some content → content.InSlot chainId

/-- A content of a slot's kind written to the slot keeps the contents shaped. -/
theorem Shaped.set {voterChains chainId : Nat} {contents : List (Content H T)} {content : Content H T}
    (shaped : Shaped voterChains contents) (inSlot : content.InSlot chainId) :
    Shaped voterChains (contents.set chainId content) where
  length_eq := by rw [List.length_set, shaped.length_eq]
  inSlot := by
    intro index other found
    rw [List.getElem?_set] at found
    split_ifs at found with same
    · obtain ⟨rfl, -⟩ := same
      cases found
      exact inSlot
    · exact shaped.inSlot found

namespace ContextUpdate

/-- The voter content of an entry is the content there. -/
theorem voterContent_eq_some {update : ContextUpdate H T} {chainId : Nat} {content : VoterContent H}
    (found : update.voterContent chainId = some content) : update.contents[chainId]? = some (.voter content) := by
  unfold voterContent at found
  split at found
  · next stored => cases found; exact stored
  · cases found

/-- What a context update keeps, against the contents `start` it began with:
the contents stay shaped, every touched entry is one of theirs, and every
entry not touched is as it was. -/
structure Tracks (voterChains : Nat) (start : List (Content H T)) (update : ContextUpdate H T) : Prop where
  /-- The contents stay one per slot. -/
  shaped : Shaped voterChains update.contents
  /-- Touched entries are entries of the contents. -/
  touched_lt : ∀ chainId ∈ update.touchedContent.keys, chainId < update.contents.length
  /-- An entry not touched is unchanged. -/
  unchanged : ∀ chainId, chainId ∉ update.touchedContent.keys → update.contents[chainId]? = start[chainId]?

variable {voterChains : Nat} {start : List (Content H T)}

/-- An update that starts from shaped contents, with nothing touched. -/
theorem tracks_start {header : Header H} {newProposerBlock : Bool} (shaped : Shaped voterChains start) :
    Tracks voterChains start ⟨header, start, .empty, newProposerBlock⟩ where
  shaped := shaped
  touched_lt := by simp
  unchanged := fun _ _ => rfl

/-- Changing what is not the contents or the touched entries keeps the update tracked. -/
theorem Tracks.of_eq {update next : ContextUpdate H T} (tracks : Tracks voterChains start update)
    (sameContents : next.contents = update.contents) (sameTouched : next.touchedContent = update.touchedContent) :
    Tracks voterChains start next where
  shaped := sameContents ▸ tracks.shaped
  touched_lt := sameContents ▸ sameTouched ▸ tracks.touched_lt
  unchanged := sameContents ▸ sameTouched ▸ tracks.unchanged

/-- Writing an entry of the contents with a content of its slot's kind, and
touching it, keeps the update tracked. -/
theorem Tracks.write {update : ContextUpdate H T} {chainId : Nat} {old content : Content H T}
    (tracks : Tracks voterChains start update) (stored : update.contents[chainId]? = some old)
    (inSlot : content.InSlot chainId) : Tracks voterChains start (update.write chainId content) where
  shaped := tracks.shaped.set inSlot
  touched_lt := by
    have inside : chainId < update.contents.length := (List.getElem?_eq_some_iff.mp stored).1
    intro touched member
    rw [write_touchedContent, SortedMap.mem_keys_insert] at member
    rw [write_contents, List.length_set]
    rcases member with rfl | member
    · exact inside
    · exact tracks.touched_lt touched member
  unchanged := by
    intro other untouched
    rw [write_touchedContent, SortedMap.mem_keys_insert, not_or] at untouched
    rw [write_contents, List.getElem?_set_ne (Ne.symm untouched.1)]
    exact tracks.unchanged other untouched.2

/-- Writing back, and touching, a content that keeps the slot of the one
stored: each write of a context update. -/
theorem Tracks.rewrite {update : ContextUpdate H T} {chainId : Nat} {old content : Content H T}
    (tracks : Tracks voterChains start update) (stored : update.contents[chainId]? = some old)
    (keepsSlot : old.InSlot chainId → content.InSlot chainId) : Tracks voterChains start (update.write chainId content) :=
  tracks.write stored (keepsSlot (tracks.shaped.inSlot stored))

end ContextUpdate

/-! ## Each phase of a context update keeps it tracked -/

section Phases

open ContextUpdate

variable {voterChains : Nat} {start : List (Content H T)} {update next : ContextUpdate H T}

theorem updateVoterParent_tracks [DecidableEq H] {bestVoter : Nat → H} {voterChain : Nat} (tracks : Tracks voterChains start update)
    (updated : updateVoterParent bestVoter update voterChain = some next) : Tracks voterChains start next := by
  simp only [updateVoterParent, Option.bind_eq_bind, Option.bind_eq_some_iff] at updated
  obtain ⟨chainId, -, content, found, updated⟩ := updated
  have stored := voterContent_eq_some found
  split_ifs at updated
  · cases updated
    exact tracks.rewrite stored id
  · cases updated
    exact tracks

theorem updateTransactionContent_tracks {newTransactionBlock : Bool} {transactions : List T}
    (tracks : Tracks voterChains start update)
    (updated : updateTransactionContent newTransactionBlock transactions update = some next) :
    Tracks voterChains start next := by
  unfold updateTransactionContent at updated
  split_ifs at updated
  · split at updated
    · next content stored =>
        cases updated
        exact tracks.rewrite stored id
    · cases updated
  · cases updated
    exact tracks

theorem appendTransactionRefs_tracks {proposerTxRefs : Nat} {append : Bool} {unreferred : List H}
    (tracks : Tracks voterChains start update)
    (updated : appendTransactionRefs proposerTxRefs append unreferred update = some next) :
    Tracks voterChains start next := by
  unfold appendTransactionRefs at updated
  split_ifs at updated
  · split at updated
    · next content stored =>
        split_ifs at updated
        · cases updated
          exact tracks.rewrite stored id
        · cases updated
          exact tracks
    · cases updated
  · cases updated
    exact tracks

theorem updateBestProposer_tracks {bestProposer : Option H} (tracks : Tracks voterChains start update)
    (updated : updateBestProposer bestProposer update = some next) : Tracks voterChains start next := by
  unfold updateBestProposer at updated
  split_ifs at updated
  · obtain ⟨parent, -, updated⟩ := Option.bind_eq_some_iff.mp updated
    cases updated
    exact tracks.of_eq rfl rfl
  · cases updated
    exact tracks

theorem refreshProposerContent_tracks [DecidableEq H] {proposerTxRefs : Nat} {unreferredTransactions unreferredProposers : List H}
    (tracks : Tracks voterChains start update)
    (updated : refreshProposerContent proposerTxRefs unreferredTransactions unreferredProposers update = some next) :
    Tracks voterChains start next := by
  unfold refreshProposerContent at updated
  split_ifs at updated
  · split at updated
    · next content stored =>
        cases updated
        exact tracks.rewrite stored id
    · cases updated
  · cases updated
    exact tracks

/-- Every round of the refresh loop keeps the update tracked. -/
theorem refreshLoop_tracks [DecidableEq H] {answers : Answers H T} {proposerTxRefs : Nat} :
    ∀ {fuel round : Nat} {update next : ContextUpdate H T}, Tracks voterChains start update →
      refreshLoop answers proposerTxRefs fuel round update = some next → Tracks voterChains start next
  | 0, _, _, _, _, looped => by cases looped
  | fuel + 1, round, update, next, tracks, looped => by
      simp only [refreshLoop, Option.bind_eq_bind, Option.bind_eq_some_iff] at looped
      obtain ⟨refreshed, refreshedEq, bestProposer, -, looped⟩ := looped
      have refreshedTracks := refreshProposerContent_tracks tracks refreshedEq
      split_ifs at looped
      · cases looped
        exact refreshedTracks
      · refine refreshLoop_tracks ?_ looped
        exact refreshedTracks.of_eq rfl rfl

theorem setVotes_tracks [DecidableEq H] {unvotedProposer : Nat → H → H → Option (List H)} {voterChain : Nat}
    (tracks : Tracks voterChains start update) (updated : setVotes unvotedProposer update voterChain = some next) :
    Tracks voterChains start next := by
  simp only [setVotes, Option.bind_eq_bind, Option.bind_eq_some_iff] at updated
  obtain ⟨chainId, -, content, found, votes, -, updated⟩ := updated
  have stored := voterContent_eq_some found
  cases updated
  exact tracks.rewrite stored id

theorem refreshVotes_tracks [DecidableEq H] {unvotedProposer : Nat → H → H → Option (List H)} {voterChain : Nat}
    (tracks : Tracks voterChains start update) (updated : refreshVotes unvotedProposer update voterChain = some next) :
    Tracks voterChains start next := by
  simp only [refreshVotes, Option.bind_eq_bind, Option.bind_eq_some_iff] at updated
  obtain ⟨chainId, -, content, found, votes, -, updated⟩ := updated
  have stored := voterContent_eq_some found
  split_ifs at updated
  · cases updated
    exact tracks.rewrite stored id
  · cases updated
    exact tracks

theorem updateVotes_tracks [DecidableEq H] {unvotedProposer : Nat → H → H → Option (List H)} {chains : Nat} {newVoterBlock : Bool}
    (tracks : Tracks voterChains start update)
    (updated : updateVotes unvotedProposer chains newVoterBlock update = some next) :
    Tracks voterChains start next := by
  unfold updateVotes at updated
  split_ifs at updated
  · exact List.foldlM_option_invariant (Tracks voterChains start) _
      (fun _ _ _ _ tracks stepped => setVotes_tracks tracks stepped) update next tracks updated
  · exact List.foldlM_option_invariant (Tracks voterChains start) _
      (fun _ _ _ _ tracks stepped => refreshVotes_tracks tracks stepped) update next tracks updated
  · cases updated
    exact tracks

end Phases

/-! ## The tree after a pass is the tree over the contents -/

section Tree

variable (hashPair : H → H → H) [Inhabited H]

/-- Updating a built tree at some entries from `contents`, where the data it
was built over agree with `contents` at every other entry, builds the tree
over `contents`. -/
theorem foldlM_update_eq_new {α : Type} [Hashable α H] {contents : List α} :
    ∀ (chainIds : List Nat) {data : List α} {tree : MerkleTree H},
      MerkleTree.new hashPair data = some tree → data.length = contents.length →
      (∀ chainId ∈ chainIds, chainId < contents.length) →
      (∀ chainId, chainId ∉ chainIds → data[chainId]? = contents[chainId]?) →
      chainIds.foldlM (fun tree chainId => do
        let content ← contents[chainId]?
        tree.update hashPair chainId content) tree = MerkleTree.new hashPair contents := by
  intro chainIds
  induction chainIds with
  | nil =>
      intro data tree built _ _ agrees
      have same : data = contents := List.ext_getElem? (fun chainId => agrees chainId List.not_mem_nil)
      rw [List.foldlM_nil, ← same, built]
      rfl
  | cons chainId rest inductionHypothesis =>
      intro data tree built sameLength inside agrees
      have inRange := inside chainId List.mem_cons_self
      -- updating one entry gives the tree over the data with that entry set
      have updated : tree.update hashPair chainId contents[chainId] =
          MerkleTree.new hashPair (data.set chainId contents[chainId]) := by
        rw [← MerkleTree.new_bind_update, built, Option.bind_some]
      rw [List.foldlM_option_cons, List.getElem?_eq_getElem inRange, Option.bind_eq_bind, Option.bind_some, updated,
        MerkleTree.new_eq hashPair (data.set chainId contents[chainId]), Option.bind_some]
      refine inductionHypothesis (MerkleTree.new_eq hashPair _) (by rw [List.length_set, sameLength])
        (fun other member => inside other (List.mem_cons_of_mem chainId member)) ?_
      intro other untouched
      by_cases same : chainId = other
      · subst same
        rw [List.getElem?_set_self (by omega), List.getElem?_eq_getElem inRange]
      · rw [List.getElem?_set_ne same]
        exact agrees other (by simp [Ne.symm same, untouched])

variable [Hashable (Content H T) H] {voterChains : Nat} {start : List (Content H T)}

/-- The tree after a tracked update, from the tree over the contents it
started from, is the tree over its contents: rebuilt, or updated at the
touched entries. -/
theorem updateTree_eq {tree : MerkleTree H} {update : ContextUpdate H T}
    (tracks : ContextUpdate.Tracks voterChains start update) (startShaped : Shaped voterChains start)
    (built : MerkleTree.new hashPair start = some tree) :
    updateTree hashPair tree update = MerkleTree.new hashPair update.contents := by
  unfold updateTree
  split_ifs
  · rfl
  · exact foldlM_update_eq_new hashPair _ built (by rw [startShaped.length_eq, tracks.shaped.length_eq])
      tracks.touched_lt (fun chainId untouched => (tracks.unchanged chainId untouched).symm)

end Tree

/-! ## Along every run the tree is the tree over the contents -/

section Run

variable (hashPair : H → H → H) [Inhabited H] [Hashable (Content H T) H]

/-- What every context of a run keeps: its contents one per slot, and its
tree the one `MerkleTree::new` builds over them. -/
structure Invariant (context : Context H T) : Prop where
  /-- The contents are in their slots. -/
  shaped : Shaped context.config.chains.voterChains context.contents
  /-- `content_merkle_tree` is `MerkleTree::new(&contents)`. -/
  built : MerkleTree.new hashPair context.contents = some context.contentMerkleTree

variable [DecidableEq H] (defaultDifficulty : H) {context next : Context H T} {answers : Answers H T} {fuel : Nat}

/-- A context update keeps the invariant, and leaves the header's root the
tree's, the configuration and the operating state as they were. -/
theorem updateContext_invariant (invariant : Invariant hashPair context)
    (updated : updateContext hashPair defaultDifficulty answers fuel context = some next) :
    Invariant hashPair next ∧ next.header.contentMerkleRoot = next.contentMerkleTree.root ∧
      next.config = context.config ∧ next.operatingState = context.operatingState := by
  simp only [updateContext, Option.bind_eq_bind, Option.bind_eq_some_iff, Option.some.injEq] at updated
  obtain ⟨parents, parentsEq, transactions, transactionsEq, appended, appendedEq, best, bestEq, refreshed,
    refreshedEq, voted, votedEq, difficulty, -, tree, treeEq, rfl⟩ := updated
  -- every phase of the update keeps it tracked against the contents the pass started from
  have startTracks : ContextUpdate.Tracks context.config.chains.voterChains context.contents
      ⟨context.header, context.contents, .empty, (readSignals answers.signals).newProposerBlock⟩ :=
    ContextUpdate.tracks_start invariant.shaped
  have parentsTracks := List.foldlM_option_invariant _ _
    (fun _ _ _ _ tracks stepped => updateVoterParent_tracks tracks stepped) _ _ startTracks parentsEq
  have votedTracks := updateVotes_tracks (refreshLoop_tracks (updateBestProposer_tracks
    (appendTransactionRefs_tracks (updateTransactionContent_tracks parentsTracks transactionsEq) appendedEq)
      bestEq) refreshedEq) votedEq
  have treeBuilt : MerkleTree.new hashPair voted.contents = some tree := by
    rw [← updateTree_eq hashPair votedTracks invariant.shaped invariant.built, treeEq]
  exact ⟨⟨votedTracks.shaped, treeBuilt⟩, by simp, rfl, rfl⟩

omit [DecidableEq H] in
/-- The contents of `miner::new` are in their slots, and its tree is the tree
over them. -/
theorem new_invariant {config : MinerConfig H} {time : Nat}
    (created : new hashPair defaultDifficulty config time = some context) :
    Invariant hashPair context ∧ context.config = config := by
  simp only [new, Option.bind_eq_bind, Option.bind_eq_some_iff, Option.some.injEq] at created
  obtain ⟨voterContents, voterEq, tree, treeEq, rfl⟩ := created
  have voterLength := List.length_of_mapM_option voterEq
  have voterAt := List.getElem?_of_mapM_option voterEq
  refine ⟨⟨⟨?_, ?_⟩, treeEq⟩, rfl⟩
  · simp only [List.length_append, List.length_cons, List.length_nil, voterLength, List.length_range]
    unfold firstVoterIndex
    omega
  · intro chainId content found
    -- the proposer slot, the transaction slot, then the chains' slots in order
    match chainId, found with
    | 0, found => cases found; rfl
    | 1, found => cases found; rfl
    | voterIdx + 2, found =>
        rw [List.cons_append, List.cons_append, List.getElem?_cons_succ, List.getElem?_cons_succ, List.nil_append,
          voterAt] at found
        by_cases inside : voterIdx < config.chains.voterChains
        · rw [List.getElem?_range inside] at found
          simp only [Option.bind_some, Option.bind_eq_some_iff] at found
          obtain ⟨voterParent, -, found⟩ := found
          cases found
          rfl
        · rw [List.getElem?_eq_none (by simpa using inside)] at found
          cases found

omit [DecidableEq H] in
/-- `miner::new` returns: every chain has a genesis block. -/
theorem new_isSome (config : MinerConfig H) (time : Nat) :
    ∃ context : Context H T, new hashPair defaultDifficulty config time = some context := by
  have genesisAt : ∀ voterIdx ∈ List.range config.chains.voterChains, ∃ content : Content H T,
      (config.chains.voterGenesis[voterIdx]?.bind fun voterParent =>
        some (Content.voter ⟨voterIdx, voterParent, []⟩)) = some content := by
    intro voterIdx member
    have inside : voterIdx < config.chains.voterGenesis.length := by
      rw [config.chains.length_voterGenesis]
      exact List.mem_range.mp member
    exact ⟨_, by rw [List.getElem?_eq_getElem inside, Option.bind_some]⟩
  obtain ⟨voterContents, voterEq⟩ := List.mapM_option_isSome _ genesisAt
  simp only [new, Option.bind_eq_bind, voterEq, Option.bind_some, MerkleTree.new_eq]
  exact ⟨_, rfl⟩

/-- A context update with no signal, where the parent is still the best
proposer block and the database answers, changes only the header: its
difficulty, root, nonce and time, and the lazy annotation. -/
theorem updateContext_of_quiet (context : Context H T) (answers : Answers H T) (fuel : Nat) {stored : Option H}
    (quiet : answers.signals = []) (best : answers.bestProposer 1 = some context.header.parent)
    (storedEq : answers.storedBlock = some stored) :
    updateContext hashPair defaultDifficulty answers (fuel + 1) context = some { context with
      header := annotate context.operatingState answers.lazyDrop { context.header with
        difficulty := stored.getD defaultDifficulty, contentMerkleRoot := context.contentMerkleTree.root,
        nonce := answers.nonce, timestamp := answers.timestamp } } := by
  cases stored <;>
  simp [updateContext, readSignals, quiet, NewContent.empty, updateTransactionContent, appendTransactionRefs,
    updateBestProposer, refreshLoop, refreshProposerContent, best, updateVotes, getDifficulty, storedEq, updateTree]

variable [AsU256 H] [Hashable (Header H) H] [Ord H]

/-- A pass keeps the invariant and the configuration: the control signal
changes only the operating state, and mining only the context update's
state and the pause after a step. -/
theorem minerPass_invariant {mined : Option (Block H T)} (invariant : Invariant hashPair context)
    (passed : minerPass hashPair defaultDifficulty answers fuel context = some (.next next mined)) :
    Invariant hashPair next ∧ next.config = context.config := by
  have received : Invariant hashPair (receive answers.control context) :=
    ⟨by simpa using invariant.shaped, by simpa using invariant.built⟩
  unfold minerPass at passed
  split at passed
  · cases passed
    exact ⟨received, by simp⟩
  · cases passed
  · dsimp only at passed
    split_ifs at passed
    · cases passed
    · obtain ⟨updated, updatedEq, outcome⟩ := mine_eq_some hashPair defaultDifficulty passed
      obtain ⟨updatedInvariant, -, sameConfig, -⟩ :=
        updateContext_invariant hashPair defaultDifficulty received updatedEq
      rcases outcome with ⟨-, block, -, outcomeEq⟩ | ⟨-, outcomeEq⟩
      · -- a mined block, and a pause after a step
        cases outcomeEq
        exact ⟨⟨updatedInvariant.shaped, updatedInvariant.built⟩, by simpa using sameConfig⟩
      · cases outcomeEq
        exact ⟨updatedInvariant, by simpa using sameConfig⟩

/-- Along every run of `miner_loop`, with any answers and any interleaving of
signals, the contents stay one per slot and `content_merkle_tree` is the tree
`MerkleTree::new` builds over them. -/
theorem Reachable.invariant {config : MinerConfig H} (reach : Reachable hashPair defaultDifficulty config context) :
    Invariant hashPair context ∧ context.config = config := by
  induction reach with
  | new created => exact new_invariant hashPair defaultDifficulty created
  | pass _ passed holds =>
      obtain ⟨invariant, sameConfig⟩ := holds
      obtain ⟨nextInvariant, nextConfig⟩ := minerPass_invariant hashPair defaultDifficulty invariant passed
      exact ⟨nextInvariant, nextConfig.trans sameConfig⟩

end Run

/-! ## A miner with one voter chain -/

namespace ZeroHash

/-- Every header hashes to zero, below the default difficulty. -/
scoped instance headers : Hashable (Header H256) H256 := ⟨fun _ => default⟩

/-- Every content hashes to zero. -/
scoped instance contents : Hashable (Content H256 Nat) H256 := ⟨fun _ => default⟩

end ZeroHash

/-- One voter chain, on the genesis hashes of `BlockchainConfig::new`, with
the widths of `narrowConfig`. -/
def oneChainConfig : MinerConfig H256 where
  chains := genesisConfig 1 (by decide)
  sortition := narrowConfig
  voterChains_eq := rfl
  txTxs := 0
  proposerTxRefs := 0

/-! ## Mined blocks pass validation -/

section Mining

variable (hashPair : H → H → H) [Inhabited H] [Hashable (Content H T) H] [DecidableEq H] (defaultDifficulty : H)
  {context next : Context H T} {answers : Answers H T} {fuel : Nat} [AsU256 H] [Hashable (Header H) H] [Ord H]

omit [Hashable (Header H) H] [Ord H] in
/-- `produce_block` on a context that keeps the invariant, with the tree's
root in the header, at a hash that selects a slot: it returns the slot's
content, which is of the slot's kind, with a proof that `verify` accepts
against the header's root among `voter_chains + FIRST_VOTER_INDEX` leaves. -/
theorem Invariant.produceBlock_spec {headerHash : H} {sortitionId : Nat} (invariant : Invariant hashPair context)
    (rooted : context.header.contentMerkleRoot = context.contentMerkleTree.root)
    (selected : context.config.sortition.sortitionHash (AsU256.asU256 headerHash)
      (AsU256.asU256 context.header.difficulty) = some (some sortitionId)) :
    ∃ block, produceBlock context headerHash = some block ∧ block.header = context.header ∧
      block.content.InSlot sortitionId ∧ sortitionId < context.config.chains.voterChains + firstVoterIndex ∧
      MerkleTree.verify hashPair block.header.contentMerkleRoot (Hashable.hash block.content) block.sortitionProof
        sortitionId (context.config.chains.voterChains + firstVoterIndex) = some true := by
  have slot := context.config.sortition.sortitionHash_slot selected
  have inside : sortitionId < context.contents.length := by
    rw [invariant.shaped.length_eq, ← context.config.voterChains_eq]
    unfold proposerIndex transactionIndex at slot
    unfold firstVoterIndex at slot ⊢
    omega
  obtain ⟨branch, proofEq, -, verified⟩ := MerkleTree.verify_proof_of_new hashPair invariant.built sortitionId inside
  refine ⟨⟨context.header, context.contents[sortitionId], branch⟩, ?_, rfl,
    invariant.shaped.inSlot (List.getElem?_eq_getElem inside), by rwa [invariant.shaped.length_eq] at inside, ?_⟩
  · simp only [produceBlock, selected, proofEq, List.getElem?_eq_getElem inside, Option.bind_eq_bind, Option.bind_some]
  · rw [rooted, ← invariant.shaped.length_eq]
    exact verified

/-- What a pass mines, from any context that a run reaches: where the
context update gets through to a header whose hash is below its difficulty
under `Ord`, which orders hashes as the numbers they spell, and where the
sortition selects a slot for that hash, the pass mines the block that
`produce_block` returns; the block's hash selects a slot below
`voter_chains + FIRST_VOTER_INDEX`, its content is of the slot's kind, and
`verify` accepts its proof among that many leaves. -/
theorem Reachable.mine_produces {config : MinerConfig H} {control : Option ControlSignal}
    (reach : Reachable hashPair defaultDifficulty config context)
    (updated : updateContext hashPair defaultDifficulty answers fuel (receive control context) = some next)
    (below : compare (Hashable.hash next.header : H) next.header.difficulty = .lt)
    (ordered : ∀ hash difficulty : H, compare hash difficulty = .lt → AsU256.asU256 hash < AsU256.asU256 difficulty)
    (total : ∀ hash difficulty, hash < difficulty → difficulty < 2 ^ 256 →
      ∃ sortitionId, config.sortition.sortitionHash hash difficulty = some (some sortitionId)) :
    ∃ after block sortitionId,
      mine hashPair defaultDifficulty answers fuel (receive control context) = some (.next after (some block)) ∧
      config.sortition.sortitionHash (AsU256.asU256 block.hash) (AsU256.asU256 block.header.difficulty) =
        some (some sortitionId) ∧ block.content.InSlot sortitionId ∧
      sortitionId < config.chains.voterChains + firstVoterIndex ∧
      MerkleTree.verify hashPair block.header.contentMerkleRoot (Hashable.hash block.content) block.sortitionProof
        sortitionId (config.chains.voterChains + firstVoterIndex) = some true := by
  obtain ⟨invariant, sameConfig⟩ := reach.invariant hashPair defaultDifficulty
  have received : Invariant hashPair (receive control context) :=
    ⟨by simpa using invariant.shaped, by simpa using invariant.built⟩
  obtain ⟨nextInvariant, rooted, nextConfig, -⟩ := updateContext_invariant hashPair defaultDifficulty received updated
  have configEq : next.config = config := by rw [nextConfig, receive_config, sameConfig]
  -- below the difficulty under `Ord` is below it as numbers, where sortition selects a slot
  obtain ⟨sortitionId, selected⟩ := total _ _ (ordered _ _ below) (AsU256.asU256_lt _)
  rw [← configEq] at selected
  obtain ⟨block, produced, headerEq, inSlot, slotLt, verified⟩ := nextInvariant.produceBlock_spec hashPair rooted selected
  have hashed : config.sortition.sortitionHash (AsU256.asU256 block.hash) (AsU256.asU256 block.header.difficulty) =
      some (some sortitionId) := by
    rw [Block.hash, headerEq, ← configEq]
    exact selected
  rw [configEq] at slotLt verified
  refine ⟨{ next with operatingState := if next.operatingState = .step then .paused else next.operatingState },
    block, sortitionId, ?_, hashed, inSlot, slotLt, verified⟩
  -- the pass mines the block `produce_block` returns
  unfold mine
  rw [updated]
  dsimp only [Option.bind_eq_bind, Option.bind_some]
  rw [if_pos below, produced]
  rfl

end Mining

/-- The answers of a pass with nothing new: no signal, the parent still the
best proposer block, and no stored parent block. -/
def quietAnswers (parent : H256) : Answers H256 Nat :=
  ⟨none, [], fun _ => parent, [], fun _ => [], fun _ => [], fun _ => some parent, fun _ _ _ => none, some none,
    0, 0, false⟩

end Miner

end Prism
