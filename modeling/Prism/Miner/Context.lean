import Prism.Crypto.Hash
import Prism.Library.SortedMap

/-!
# The miner

`miner::Context` and its `miner_loop`.  The miner keeps a content of each
kind, the proposer content, the transaction content and one content per
voter chain, a Merkle tree over them, and a header whose Merkle root is the
tree's.  A pass of the loop reads the control and the context-update
signals, refreshes the contents and the header from the blockchain and the
memory pool, brings the tree up to date, rebuilt after a new proposer block
and otherwise updated at the entries it touched, and tries a nonce: a header
hash below the difficulty makes a block of the content that its sortition
selects.

The blockchain, the memory pool, the block database and the channels are
shared with other threads, which change them between any two calls, so a
pass reads them as `Answers`, one answer per call; the random nonce, the
clock and the lazy-drop coin are answers too.  Blocking on the control
channel is a pass that changes nothing.  An `unwrap` of an error, an
`unreachable!`, an index out of range and a `u16` overflow panic (`none`),
and so does a refresh loop still running after the rounds it is given.
-/

namespace Prism

namespace Miner

/-- `miner::ControlSignal`, without the mining rate and the lazy-drop
probability, which only the random draws read. -/
inductive ControlSignal
  /-- Mine continuously, lazily or not. -/
  | start (lazy : Bool)
  /-- Mine one block. -/
  | step
  /-- Shut down. -/
  | exit
  deriving DecidableEq, Repr

/-- `miner::ContextUpdateSignal`. -/
inductive ContextUpdateSignal
  /-- A new proposer block: every content changes. -/
  | newProposerBlock
  /-- A new block on a voter chain, a `u16`. -/
  | newVoterBlock (chain : Nat)
  /-- A new transaction block: the proposer content may refer to it. -/
  | newTransactionBlock
  deriving DecidableEq, Repr

/-- `miner::OperatingState`, without the mining rate and the probability. -/
inductive OperatingState
  /-- Waiting for a control signal. -/
  | paused
  /-- Mining continuously, lazily or not. -/
  | run (lazy : Bool)
  /-- Mining one block. -/
  | step
  /-- Shut down. -/
  | shutDown
  deriving DecidableEq, Repr

/-- `config::LAZY_ANNOTATION`: thirty-two bytes `0x42`. -/
def lazyAnnotation : List UInt8 := List.replicate 32 0x42

/-- The part of `config::BlockchainConfig` that the miner reads: the chains
and their genesis blocks, the sortition widths over the same chains, and the
two quotas. -/
structure MinerConfig (H : Type) where
  /-- The voter chains and the genesis blocks. -/
  chains : BlockchainConfig H
  /-- The sortition widths. -/
  sortition : SortitionConfig
  /-- One configuration: sortition is over the same voter chains. -/
  voterChains_eq : sortition.voterChains = chains.voterChains
  /-- `tx_txs`: the transactions a transaction block carries at most. -/
  txTxs : Nat
  /-- `proposer_tx_refs`: the transaction blocks a proposer block refers to at most. -/
  proposerTxRefs : Nat

/-- `miner::Context`, without the handles of the shared components. -/
structure Context (H T : Type) where
  /-- `operating_state`. -/
  operatingState : OperatingState
  /-- The header the miner tries nonces on. -/
  header : Header H
  /-- The content candidates, one per slot. -/
  contents : List (Content H T)
  /-- `content_merkle_tree`, over `contents`. -/
  contentMerkleTree : MerkleTree H
  /-- The configuration. -/
  config : MinerConfig H

/-- What the shared components and the random draws answer in one pass.  A
call the refresh loop repeats has an answer for each round: round `0` is
the call before the loop. -/
structure Answers (H T : Type) where
  /-- The control signal waiting, if any. -/
  control : Option ControlSignal
  /-- The context-update signals waiting, in order. -/
  signals : List ContextUpdateSignal
  /-- `blockchain.best_voter(chain)`. -/
  bestVoter : Nat → H
  /-- `mempool.get_transactions(tx_txs)`. -/
  transactions : List T
  /-- `blockchain.unreferred_transactions()` in each round. -/
  unreferredTransactions : Nat → List H
  /-- `blockchain.unreferred_proposers()` in each round. -/
  unreferredProposers : Nat → List H
  /-- `blockchain.best_proposer()` in each round; `unwrap` panics on an error. -/
  bestProposer : Nat → Option H
  /-- `blockchain.unvoted_proposer(voter_parent, parent)` for a chain;
  `unwrap` panics on an error. -/
  unvotedProposer : Nat → H → H → Option (List H)
  /-- `blockdb.get(parent)`: an error, no block, or the difficulty of the block. -/
  storedBlock : Option (Option H)
  /-- `rng.gen()`: the nonce. -/
  nonce : Nat
  /-- `get_time()`. -/
  timestamp : Nat
  /-- `rng.gen_bool(prob)`: whether a lazy miner drops this block. -/
  lazyDrop : Bool

/-- The signals a pass read: whether a transaction block came, the voter
chains with a new block (a `BTreeSet<u16>`), and whether a proposer block
came. -/
structure NewContent where
  /-- `new_transaction_block`. -/
  newTransactionBlock : Bool
  /-- `new_voter_block`. -/
  newVoterBlock : SortedMap Nat Unit
  /-- `new_proposer_block`. -/
  newProposerBlock : Bool

namespace NewContent

/-- No signal read yet. -/
def empty : NewContent := ⟨false, .empty, false⟩

/-- The body of the `try_iter` loop over the context-update signals. -/
def read (flags : NewContent) : ContextUpdateSignal → NewContent
  | .newProposerBlock => { flags with newProposerBlock := true }
  | .newVoterBlock chain => { flags with newVoterBlock := flags.newVoterBlock.insert chain () }
  | .newTransactionBlock => { flags with newTransactionBlock := true }

end NewContent

/-- The `try_iter` loop over the context-update signals. -/
def readSignals (signals : List ContextUpdateSignal) : NewContent :=
  signals.foldl NewContent.read NewContent.empty

/-- The variables of a context update: the header and the contents being
refreshed, the entries touched (`touched_content`, a `BTreeSet<u16>`), and
`new_proposer_block`, which the refresh loop may set. -/
structure ContextUpdate (H T : Type) where
  /-- The header. -/
  header : Header H
  /-- The contents. -/
  contents : List (Content H T)
  /-- `touched_content`. -/
  touchedContent : SortedMap Nat Unit
  /-- `new_proposer_block`. -/
  newProposerBlock : Bool

namespace ContextUpdate

variable {H T : Type}

/-- A content written to its entry, which is marked touched: every write
of the update is followed by `touched_content.insert` of its entry. -/
def write (update : ContextUpdate H T) (chainId : Nat) (content : Content H T) : ContextUpdate H T :=
  { update with
    contents := update.contents.set chainId content
    touchedContent := update.touchedContent.insert chainId () }

@[simp] theorem write_header (update : ContextUpdate H T) (chainId : Nat) (content : Content H T) :
    (update.write chainId content).header = update.header := rfl

@[simp] theorem write_contents (update : ContextUpdate H T) (chainId : Nat) (content : Content H T) :
    (update.write chainId content).contents = update.contents.set chainId content := rfl

@[simp] theorem write_touchedContent (update : ContextUpdate H T) (chainId : Nat) (content : Content H T) :
    (update.write chainId content).touchedContent = update.touchedContent.insert chainId () := rfl

@[simp] theorem write_newProposerBlock (update : ContextUpdate H T) (chainId : Nat) (content : Content H T) :
    (update.write chainId content).newProposerBlock = update.newProposerBlock := rfl

/-- The voter content at an entry: `if let Content::Voter(c)`, whose `else`
is `unreachable!`. -/
def voterContent (update : ContextUpdate H T) (chainId : Nat) : Option (VoterContent H) :=
  match update.contents[chainId]? with
  | some (.voter content) => some content
  | _ => none

end ContextUpdate

section Update

variable {H T : Type} [DecidableEq H]

/-- A round of the loop over the chains with a new voter block: the chain's
content takes the chain's best voter block as its voter parent, and is
touched if that changed it. -/
def updateVoterParent (bestVoter : Nat → H) (update : ContextUpdate H T) (voterChain : Nat) :
    Option (ContextUpdate H T) := do
  let chainId ← Checked.add 16 firstVoterIndex voterChain
  let voterParent := bestVoter voterChain
  let content ← update.voterContent chainId
  if voterParent ≠ content.voterParent then
    some (update.write chainId (.voter { content with voterParent }))
  else some update

/-- After a new transaction block the transaction content carries the
memory pool's transactions, touched. -/
def updateTransactionContent (newTransactionBlock : Bool) (transactions : List T) (update : ContextUpdate H T) :
    Option (ContextUpdate H T) :=
  if newTransactionBlock then
    match update.contents[transactionIndex]? with
    | some (.transaction content) => some (update.write transactionIndex (.transaction { content with transactions }))
    | _ => none
  else some update

/-- Appending transaction references, after a new transaction block and no
new proposer block: below its quota the proposer content refers to the
unreferred transaction blocks, up to the quota, touched. -/
def appendTransactionRefs (proposerTxRefs : Nat) (append : Bool) (unreferred : List H)
    (update : ContextUpdate H T) : Option (ContextUpdate H T) :=
  if append then
    match update.contents[proposerIndex]? with
    | some (.proposer content) =>
        if content.transactionRefs.length < proposerTxRefs then
          some (update.write proposerIndex
            (.proposer { content with transactionRefs := unreferred.take proposerTxRefs }))
        else some update
    | _ => none
  else some update

/-- After a new proposer block the header's parent is the best proposer block. -/
def updateBestProposer (bestProposer : Option H) (update : ContextUpdate H T) : Option (ContextUpdate H T) :=
  if update.newProposerBlock then do
    let parent ← bestProposer
    some { update with header := { update.header with parent } }
  else some update

/-- The first half of a round of the refresh loop: after a new proposer block
the proposer content refers to the unreferred transaction blocks, up to the
quota, and to the unreferred proposer blocks but the parent, touched. -/
def refreshProposerContent (proposerTxRefs : Nat) (unreferredTransactions unreferredProposers : List H)
    (update : ContextUpdate H T) : Option (ContextUpdate H T) :=
  if update.newProposerBlock then
    match update.contents[proposerIndex]? with
    | some (.proposer content) =>
        let parent := update.header.parent
        some (update.write proposerIndex (.proposer { content with
          transactionRefs := unreferredTransactions.take proposerTxRefs
          proposerRefs := unreferredProposers.filter (fun hash => hash ≠ parent) }))
    | _ => none
  else some update

/-- The refresh loop, from round `round` with `fuel` rounds left: refresh the
proposer content, and end if the parent is the best proposer block, or take
that block as the parent, as after a new proposer block, and go round again. -/
def refreshLoop (answers : Answers H T) (proposerTxRefs : Nat) :
    Nat → Nat → ContextUpdate H T → Option (ContextUpdate H T)
  | 0, _, _ => none
  | fuel + 1, round, update => do
      let update ← refreshProposerContent proposerTxRefs (answers.unreferredTransactions round)
        (answers.unreferredProposers round) update
      let bestProposer ← answers.bestProposer round
      if update.header.parent = bestProposer then some update
      else
        let update := { update with newProposerBlock := true, header := { update.header with parent := bestProposer } }
        refreshLoop answers proposerTxRefs fuel (round + 1) update

/-- A round of the loop over all chains after a new proposer block: the
chain's content votes for what `unvoted_proposer` gives from its voter
parent to the proposer parent, touched.  The source reads the entry twice,
for the voter parent and to write it. -/
def setVotes (unvotedProposer : Nat → H → H → Option (List H)) (update : ContextUpdate H T) (voterChain : Nat) :
    Option (ContextUpdate H T) := do
  let chainId ← Checked.add 16 firstVoterIndex voterChain
  let content ← update.voterContent chainId
  let votes ← unvotedProposer voterChain content.voterParent update.header.parent
  some (update.write chainId (.voter { content with votes }))

/-- A round of the loop over all chains after new voter blocks and no new
proposer block: as `setVotes`, but only votes that differ from the
content's are written and touched. -/
def refreshVotes (unvotedProposer : Nat → H → H → Option (List H)) (update : ContextUpdate H T)
    (voterChain : Nat) : Option (ContextUpdate H T) := do
  let chainId ← Checked.add 16 firstVoterIndex voterChain
  let content ← update.voterContent chainId
  let votes ← unvotedProposer voterChain content.voterParent update.header.parent
  if votes.length != content.votes.length || (votes.zip content.votes).any (fun pair => pair.1 != pair.2) then
    some (update.write chainId (.voter { content with votes }))
  else some update

/-- Updating the votes: of every chain after a new proposer block, of the
chains whose votes changed after new voter blocks, and of none otherwise. -/
def updateVotes (unvotedProposer : Nat → H → H → Option (List H)) (voterChains : Nat) (newVoterBlock : Bool)
    (update : ContextUpdate H T) : Option (ContextUpdate H T) :=
  if update.newProposerBlock then (List.range voterChains).foldlM (setVotes unvotedProposer) update
  else if newVoterBlock then (List.range voterChains).foldlM (refreshVotes unvotedProposer) update
  else some update

/-- `get_difficulty`: the difficulty of the stored parent block, or
`DEFAULT_DIFFICULTY` if there is none; a database error panics. -/
def getDifficulty (defaultDifficulty : H) (stored : Option (Option H)) : Option H :=
  match stored with
  | some (some difficulty) => some difficulty
  | some none => some defaultDifficulty
  | none => none

/-- The lazy annotation: a lazy miner marks the blocks it drops in
`extra_content`. -/
def annotate (operatingState : OperatingState) (lazyDrop : Bool) (header : Header H) : Header H :=
  match operatingState with
  | .run true => { header with extraContent := if lazyDrop then lazyAnnotation else List.replicate 32 0 }
  | _ => header

omit [DecidableEq H] in
@[simp] theorem annotate_contentMerkleRoot (operatingState : OperatingState) (lazyDrop : Bool) (header : Header H) :
    (annotate operatingState lazyDrop header).contentMerkleRoot = header.contentMerkleRoot := by
  unfold annotate
  split <;> rfl

omit [DecidableEq H] in
@[simp] theorem annotate_difficulty (operatingState : OperatingState) (lazyDrop : Bool) (header : Header H) :
    (annotate operatingState lazyDrop header).difficulty = header.difficulty := by
  unfold annotate
  split <;> rfl

omit [DecidableEq H] in
@[simp] theorem annotate_parent (operatingState : OperatingState) (lazyDrop : Bool) (header : Header H) :
    (annotate operatingState lazyDrop header).parent = header.parent := by
  unfold annotate
  split <;> rfl

variable (hashPair : H → H → H) [Inhabited H] [Hashable (Content H T) H]

/-- The tree after a context update: rebuilt after a new proposer block, and
otherwise updated at each touched entry, in increasing order. -/
def updateTree (tree : MerkleTree H) (update : ContextUpdate H T) : Option (MerkleTree H) :=
  if update.newProposerBlock then MerkleTree.new hashPair update.contents
  else update.touchedContent.keys.foldlM (fun tree chainId => do
    let content ← update.contents[chainId]?
    tree.update hashPair chainId content) tree

variable (defaultDifficulty : H)

/-- The context update of a pass, from the signals to the header of the next
nonce, with `fuel` rounds for the refresh loop. -/
def updateContext (answers : Answers H T) (fuel : Nat) (context : Context H T) : Option (Context H T) := do
  let signals := readSignals answers.signals
  let update : ContextUpdate H T := ⟨context.header, context.contents, .empty, signals.newProposerBlock⟩
  let update ← signals.newVoterBlock.keys.foldlM (updateVoterParent answers.bestVoter) update
  let update ← updateTransactionContent signals.newTransactionBlock answers.transactions update
  let update ← appendTransactionRefs context.config.proposerTxRefs
    (signals.newTransactionBlock && !signals.newProposerBlock) (answers.unreferredTransactions 0) update
  let update ← updateBestProposer (answers.bestProposer 0) update
  let update ← refreshLoop answers context.config.proposerTxRefs fuel 1 update
  let update ← updateVotes answers.unvotedProposer context.config.chains.voterChains
    (!signals.newVoterBlock.keys.isEmpty) update
  let difficulty ← getDifficulty defaultDifficulty answers.storedBlock
  let tree ← updateTree hashPair context.contentMerkleTree update
  let header := { update.header with
    difficulty, contentMerkleRoot := tree.root, nonce := answers.nonce, timestamp := answers.timestamp }
  some { context with
    header := annotate context.operatingState answers.lazyDrop header
    contents := update.contents
    contentMerkleTree := tree }

end Update

section Pass

variable {H T : Type} [DecidableEq H] [AsU256 H]

/-- `produce_block`: the content that the sortition of the header hash
selects, with its Merkle proof; `expect` panics on a hash that selects no
slot. -/
def produceBlock (context : Context H T) (headerHash : H) : Option (Block H T) := do
  let sortitionId ← context.config.sortition.sortitionHash (AsU256.asU256 headerHash)
    (AsU256.asU256 context.header.difficulty)
  let sortitionId ← sortitionId
  let sortitionProof ← context.contentMerkleTree.proof sortitionId
  let content ← context.contents[sortitionId]?
  some ⟨context.header, content, sortitionProof⟩

/-- `handle_control_signal`. -/
def handleControlSignal : ControlSignal → OperatingState
  | .exit => .shutDown
  | .start lazy => .run lazy
  | .step => .step

/-- The context after the control signal waiting, if any, is handled. -/
def receive (control : Option ControlSignal) (context : Context H T) : Context H T :=
  match control with
  | some signal => { context with operatingState := handleControlSignal signal }
  | none => context

omit [DecidableEq H] [AsU256 H] in
@[simp] theorem receive_header (control : Option ControlSignal) (context : Context H T) :
    (receive control context).header = context.header := by
  cases control <;> rfl

omit [DecidableEq H] [AsU256 H] in
@[simp] theorem receive_contents (control : Option ControlSignal) (context : Context H T) :
    (receive control context).contents = context.contents := by
  cases control <;> rfl

omit [DecidableEq H] [AsU256 H] in
@[simp] theorem receive_contentMerkleTree (control : Option ControlSignal) (context : Context H T) :
    (receive control context).contentMerkleTree = context.contentMerkleTree := by
  cases control <;> rfl

omit [DecidableEq H] [AsU256 H] in
@[simp] theorem receive_config (control : Option ControlSignal) (context : Context H T) :
    (receive control context).config = context.config := by
  cases control <;> rfl

/-- How a pass of `miner_loop` ends. -/
inductive Outcome (H T : Type)
  /-- The loop returns. -/
  | shutDown
  /-- The next pass starts from `context`; `mined` is the block the pass mined, if any. -/
  | next (context : Context H T) (mined : Option (Block H T))

variable (hashPair : H → H → H) [Inhabited H] [Hashable (Content H T) H] (defaultDifficulty : H)
  [Hashable (Header H) H] [Ord H]

/-- The mining half of a pass: the context update, then a try of one nonce;
a hash below the difficulty under `Ord` makes a block, after which a miner
in step mode pauses. -/
def mine (answers : Answers H T) (fuel : Nat) (context : Context H T) : Option (Outcome H T) := do
  let context ← updateContext hashPair defaultDifficulty answers fuel context
  let headerHash : H := Hashable.hash context.header
  if compare headerHash context.header.difficulty = .lt then do
    let block ← produceBlock context headerHash
    let operatingState := if context.operatingState = .step then .paused else context.operatingState
    some (.next { context with operatingState } (some block))
  else some (.next context none)

/-- What a mining half of a pass can do: update the context, and then mine
a block if the header hash is below the difficulty, or not. -/
theorem mine_eq_some {answers : Answers H T} {fuel : Nat} {context : Context H T} {outcome : Outcome H T}
    (mined : mine hashPair defaultDifficulty answers fuel context = some outcome) :
    ∃ updated, updateContext hashPair defaultDifficulty answers fuel context = some updated ∧
      ((compare (Hashable.hash updated.header : H) updated.header.difficulty = .lt ∧
        ∃ block, produceBlock updated (Hashable.hash updated.header) = some block ∧
          outcome = .next { updated with operatingState :=
            if updated.operatingState = .step then .paused else updated.operatingState } (some block)) ∨
       (compare (Hashable.hash updated.header : H) updated.header.difficulty ≠ .lt ∧ outcome = .next updated none)) := by
  unfold mine at mined
  cases updatedEq : updateContext hashPair defaultDifficulty answers fuel context with
  | none =>
      rw [updatedEq] at mined
      cases mined
  | some updated =>
      rw [updatedEq] at mined
      refine ⟨updated, rfl, ?_⟩
      dsimp only [Option.bind_eq_bind, Option.bind_some] at mined
      by_cases below : compare (Hashable.hash updated.header : H) updated.header.difficulty = .lt
      · rw [if_pos below] at mined
        cases producedEq : produceBlock updated (Hashable.hash updated.header) with
        | none =>
            rw [producedEq] at mined
            cases mined
        | some block =>
            rw [producedEq] at mined
            cases mined
            exact .inl ⟨below, block, rfl, rfl⟩
      · rw [if_neg below] at mined
        cases mined
        exact .inr ⟨below, rfl⟩

/-- A pass of `miner_loop`: a paused miner waits for a control signal, a miner
shut down returns, and a running one handles the signal waiting, if any,
and mines unless it shut down. -/
def minerPass (answers : Answers H T) (fuel : Nat) (context : Context H T) : Option (Outcome H T) :=
  match context.operatingState with
  | .paused => some (.next (receive answers.control context) none)
  | .shutDown => some .shutDown
  | _ =>
      let context := receive answers.control context
      if context.operatingState = .shutDown then some .shutDown
      else mine hashPair defaultDifficulty answers fuel context

/-- `miner::new`: the proposer content, the transaction content and a voter
content for each chain on the chain's genesis block, the tree over them,
and a header on the proposer genesis block with the default difficulty. -/
def new (config : MinerConfig H) (time : Nat) : Option (Context H T) := do
  let voterContents ← (List.range config.chains.voterChains).mapM fun voterIdx => do
    let voterParent ← config.chains.voterGenesis[voterIdx]?
    some (Content.voter ⟨voterIdx, voterParent, []⟩)
  let contents := [.proposer ⟨[], []⟩, .transaction ⟨[]⟩] ++ voterContents
  let contentMerkleTree ← MerkleTree.new hashPair contents
  some ⟨.paused, ⟨config.chains.proposerGenesis, time, 0, default, List.replicate 32 0, defaultDifficulty⟩,
    contents, contentMerkleTree, config⟩

/-- The contexts that a run of `miner_loop` reaches from `new`, through passes
with any answers. -/
inductive Reachable (config : MinerConfig H) : Context H T → Prop
  | new {time : Nat} {context : Context H T} (created : new hashPair defaultDifficulty config time = some context) :
      Reachable config context
  | pass {context next : Context H T} {answers : Answers H T} {fuel : Nat} {mined : Option (Block H T)}
      (reach : Reachable config context)
      (passed : minerPass hashPair defaultDifficulty answers fuel context = some (.next next mined)) :
      Reachable config next

end Pass

end Miner

end Prism
