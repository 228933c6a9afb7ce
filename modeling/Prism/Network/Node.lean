import Prism.Miner.Context
import Prism.Miner.MemoryPool
import Prism.Network.Buffer

/-!
# A node

The threads of a node that share its block database, blockchain, memory pool
and block buffer: the `p2p_workers` threads of `network/worker.rs`, each
running `worker_loop` on the messages the server hands it, the ledger
manager's `update_transaction_sequence` loop of `ledger_manager/mod.rs`, and
the miner, which stores each block it mines and passes it to
`handler::new_validated_block`.

The threads interleave.  Each step of a worker thread is one call on shared
state: one lock region, or one call of the database or the blockchain.  A
thread's `Stage` says where it is between two such steps, with what it holds
locally.  The `Blocks` branch is the one whose steps matter: a received
block is registered in `recent_blocks`, looked up in the database, stored,
and deregistered, each a step of its own, and each block taken off the stack
`to_process` is checked for data availability under the buffer lock, checked
for its sortition proof and content, passed to `new_validated_block` (the
memory pool under its lock, then `insert_block`), and its hash satisfied in
the buffer, again under the lock.  Steps that only read a monotone store, and
the reads of `check_content_semantic`, are taken as one step each.

Blocks travel decoded; a message that fails to decode panics in the source
and is left out.  Hash sets are `Finset`s.  A panic (`none`) stops the step.
-/

namespace Prism

/-- The miner's signal for a new block (`context_update_sig.push`). -/
def Block.signal {H T : Type} (block : Block H T) : Miner.ContextUpdateSignal :=
  match block.content with
  | .proposer _ => .newProposerBlock
  | .voter content => .newVoterBlock content.chainNumber
  | .transaction _ => .newTransactionBlock

namespace Network

open Function Miner

variable {H T : Type}

/-- `blockdb::BlockDatabase`: the blocks by hash (`BLOCK_CF`). -/
structure BlockDatabase (H T : Type) where
  /-- The stored blocks. -/
  blocks : H → Option (Block H T)

namespace BlockDatabase

/-- `BlockDatabase::contains`. -/
def contains (db : BlockDatabase H T) (hash : H) : Bool :=
  (db.blocks hash).isSome

/-- `BlockDatabase::get`. -/
def get (db : BlockDatabase H T) (hash : H) : Option (Block H T) :=
  db.blocks hash

variable [DecidableEq H]

/-- `BlockDatabase::insert_encoded`: the block stored under the given hash. -/
def insertEncoded (db : BlockDatabase H T) (hash : H) (block : Block H T) : BlockDatabase H T :=
  ⟨update db.blocks hash (some block)⟩

@[simp] theorem contains_insertEncoded (db : BlockDatabase H T) (hash other : H) (block : Block H T) :
    (db.insertEncoded hash block).contains other = (decide (other = hash) || db.contains other) := by
  by_cases same : other = hash
  · simp [contains, insertEncoded, same]
  · simp [contains, insertEncoded, same]

@[simp] theorem get_insertEncoded (db : BlockDatabase H T) (hash other : H) (block : Block H T) :
    (db.insertEncoded hash block).get other = if other = hash then some block else db.get other := by
  by_cases same : other = hash
  · simp [get, insertEncoded, same]
  · simp [get, insertEncoded, same]

/-- `BlockDatabase::insert`: the block stored under its own hash. -/
def insert [Hashable (Header H) H] (db : BlockDatabase H T) (block : Block H T) : BlockDatabase H T :=
  db.insertEncoded block.hash block

variable [Inhabited H]

/-- The header that `proposer::genesis` and `voter::genesis` give their
blocks: an all-zero parent and root, time and nonce zero, zero extra
content and the default difficulty. -/
def genesisHeader (defaultDifficulty : H) : Header H :=
  ⟨default, 0, 0, default, List.replicate 32 0, defaultDifficulty⟩

/-- `proposer::genesis`. -/
def proposerGenesis (defaultDifficulty : H) : Block H T :=
  ⟨genesisHeader defaultDifficulty, .proposer ⟨[], []⟩, []⟩

/-- `voter::genesis`. -/
def voterGenesis (defaultDifficulty : H) (chainNum : Nat) : Block H T :=
  ⟨genesisHeader defaultDifficulty, .voter ⟨chainNum, default, []⟩, []⟩

/-- `BlockDatabase::new`: an empty database with the proposer genesis block,
then each chain's genesis block, under the hashes of the configuration. -/
def new (config : BlockchainConfig H) (defaultDifficulty : H) : Option (BlockDatabase H T) :=
  let db : BlockDatabase H T := ⟨fun _ => none⟩
  let db := db.insertEncoded config.proposerGenesis (proposerGenesis defaultDifficulty)
  (List.range config.voterChains).foldlM (fun db chainNum => do
    let hash ← config.voterGenesis[chainNum]?
    some (db.insertEncoded hash (voterGenesis defaultDifficulty chainNum))) db

/-- `BlockDatabase::new` returns: every chain has its genesis hash. -/
theorem new_isSome (config : BlockchainConfig H) (defaultDifficulty : H) :
    ∃ db : BlockDatabase H T, new config defaultDifficulty = some db := by
  refine List.foldlM_option_isSome _ (fun db chainNum member => ?_) _
  have within : chainNum < config.voterGenesis.length := by
    rw [config.length_voterGenesis]
    exact List.mem_range.mp member
  exact ⟨_, by rw [List.getElem?_eq_getElem within]; rfl⟩

/-- `BlockDatabase::new` stores a genesis block, of no transaction content,
under every genesis hash. -/
theorem get_new {config : BlockchainConfig H} {defaultDifficulty : H} {db : BlockDatabase H T}
    (created : new config defaultDifficulty = some db) :
    ∀ hash ∈ config.genesisHashes, ∃ block, db.get hash = some block ∧
      ∀ content, block.content ≠ .transaction content := by
  -- each round stores its chain's genesis block, and keeps a genesis block under every other hash
  have loop := List.foldlM_option_keeps
    (fun hash (db : BlockDatabase H T) => ∃ block, db.get hash = some block ∧
      ∀ content, block.content ≠ .transaction content)
    (fun chainNum hash => config.voterGenesis[chainNum]? = some hash) (fun db chainNum next stepped hash stored => ?_)
    (fun db chainNum next stepped hash found => ?_) _ _ _ created
  · obtain ⟨keeps, adds⟩ := loop
    intro hash genesis
    rcases List.mem_cons.mp genesis with rfl | voter
    · exact keeps _ ⟨proposerGenesis defaultDifficulty, by simp, fun _ => by simp [proposerGenesis]⟩
    · obtain ⟨chainNum, within, found⟩ := List.getElem_of_mem voter
      refine adds chainNum (List.mem_range.mpr ?_) hash (by rw [List.getElem?_eq_getElem within, found])
      rw [← config.length_voterGenesis]
      exact within
  · simp only [Option.bind_eq_bind, Option.bind_eq_some_iff, Option.some.injEq] at stepped
    obtain ⟨genesisHash, -, rfl⟩ := stepped
    by_cases same : hash = genesisHash
    · exact ⟨voterGenesis defaultDifficulty chainNum, by simp [same], fun _ => by simp [voterGenesis]⟩
    · simpa [same] using stored
  · simp only [Option.bind_eq_bind, Option.bind_eq_some_iff, Option.some.injEq] at stepped
    obtain ⟨genesisHash, genesisEq, rfl⟩ := stepped
    rw [found, Option.some.injEq] at genesisEq
    exact ⟨voterGenesis defaultDifficulty chainNum, by simp [genesisEq], fun _ => by simp [voterGenesis]⟩

/-- `BlockDatabase::new` stores a block under every genesis hash. -/
theorem contains_new {config : BlockchainConfig H} {defaultDifficulty : H} {db : BlockDatabase H T}
    (created : new config defaultDifficulty = some db) : ∀ hash ∈ config.genesisHashes, db.contains hash = true := by
  intro hash genesis
  obtain ⟨block, found, -⟩ := get_new created hash genesis
  rw [contains, ← get, found]
  rfl

end BlockDatabase

/-- `network::message::Message`, with blocks decoded. -/
inductive Message (H T : Type)
  | ping (nonce : String)
  | pong (nonce : String)
  | newBlockHashes (hashes : List H)
  | getBlocks (hashes : List H)
  | blocks (blocks : List (Block H T))
  | newTransactionHashes (hashes : List H)
  | getTransactions (hashes : List H)
  | transactions (transactions : List T)
  | bootstrap (after : H)

/-- What a node sends: a message to one peer, a broadcast to all, a signal
on the miner's context-update channel, or a batch of confirmed transactions
for the ledger manager's executor. -/
inductive Output (H T : Type)
  | write (peer : Nat) (message : Message H T)
  | broadcast (message : Message H T)
  | signal (signal : ContextUpdateSignal)
  | confirm (transactions : List T)

/-- The decoding loop of the `Blocks` branch: the blocks still to decode,
and the blocks stored so far. -/
structure Decoding (H T : Type) where
  /-- Still to decode. -/
  encoded : List (Block H T)
  /-- Stored by this thread, in order. -/
  blocks : List (Block H T)

/-- The processing loop of the `Blocks` branch: the stack `to_process`, its
top first, the hashes to request, and the signals for the miner. -/
structure Pending (H T : Type) where
  /-- `to_process`, top first. -/
  toProcess : List (Block H T)
  /-- `to_request`. -/
  toRequest : List H
  /-- `context_update_sig`. -/
  signals : List ContextUpdateSignal

/-- Where a worker thread is between two steps on shared state. -/
inductive Stage (H T : Type)
  /-- Waiting on the message channel. -/
  | idle
  /-- `NewBlockHashes`: the hashes still to look up, and those to request. -/
  | lookingUp (hashes toRequest : List H)
  /-- `Transactions`: the transactions still to pass to `new_transaction`. -/
  | adding (transactions : List T)
  /-- `Blocks`: decoding. -/
  | decoding (decoding : Decoding H T)
  /-- The proof of work of `block` passed; next, `recent_blocks`. -/
  | arrived (block : Block H T) (decoding : Decoding H T)
  /-- `block` is registered in `recent_blocks`; next, the database lookup. -/
  | claimed (block : Block H T) (decoding : Decoding H T)
  /-- `block` is not in the database; next, `insert_encoded`. -/
  | storing (block : Block H T) (decoding : Decoding H T)
  /-- `block` is stored; next, its removal from `recent_blocks`. -/
  | stored (block : Block H T) (decoding : Decoding H T)
  /-- `Blocks`: processing. -/
  | processing (pending : Pending H T)
  /-- `block` is available; next, its sortition proof and content. -/
  | available (block : Block H T) (pending : Pending H T)
  /-- `block` is valid; next, the memory pool. -/
  | validated (block : Block H T) (pending : Pending H T)
  /-- The memory pool is cleared of `block`'s transactions; next, `insert_block`. -/
  | cleared (block : Block H T) (pending : Pending H T)
  /-- `block` is in the blockchain; next, `satisfy`. -/
  | inserted (block : Block H T) (pending : Pending H T)

/-- The block that the next step of a thread at this stage inserts into the
blockchain. -/
def Stage.insertion : Stage H T → Option (Block H T)
  | .cleared block _ => some block
  | _ => none

/-- A worker thread: the peer whose message it handles, and its stage. -/
structure Job (H T : Type) where
  /-- The peer to answer. -/
  peer : Nat
  /-- Where the thread is. -/
  stage : Stage H T

/-- The state the threads share, with each worker thread's own, and what the
node has sent. -/
structure Node (H T : Type) where
  /-- The blockchain. -/
  chain : BlockChain H
  /-- The block database. -/
  blockdb : BlockDatabase H T
  /-- The memory pool. -/
  mempool : MemoryPool H T
  /-- The block buffer. -/
  buffer : BlockBuffer H T
  /-- `recent_blocks`: blocks being stored. -/
  recentBlocks : Finset H
  /-- `requested_blocks`: blocks requested and not yet received. -/
  requestedBlocks : Finset H
  /-- The worker threads, by number. -/
  threads : Nat → Job H T
  /-- Everything sent, in order. -/
  sent : List (Output H T)

namespace Node

/-- Thread `thread` moved to `stage`. -/
def setStage (node : Node H T) (thread : Nat) (stage : Stage H T) : Node H T :=
  { node with threads := update node.threads thread { node.threads thread with stage } }

section SetStage

variable (node : Node H T) (thread : Nat) (stage : Stage H T)

@[simp] theorem setStage_chain : (node.setStage thread stage).chain = node.chain := rfl

@[simp] theorem setStage_blockdb : (node.setStage thread stage).blockdb = node.blockdb := rfl

@[simp] theorem setStage_mempool : (node.setStage thread stage).mempool = node.mempool := rfl

@[simp] theorem setStage_buffer : (node.setStage thread stage).buffer = node.buffer := rfl

@[simp] theorem setStage_recentBlocks : (node.setStage thread stage).recentBlocks = node.recentBlocks := rfl

@[simp] theorem stage_setStage_self : ((node.setStage thread stage).threads thread).stage = stage := by
  simp [setStage]

@[simp] theorem stage_setStage_of_ne {other : Nat} (apart : other ≠ thread) :
    ((node.setStage thread stage).threads other).stage = (node.threads other).stage := by
  simp [setStage, apart]

end SetStage

variable [DecidableEq H] [Hashable (Header H) H]

/-- The node after `new` (`main.rs`): a new blockchain and block database,
an empty memory pool of the given size, an empty buffer, and idle workers. -/
def new [Inhabited H] (config : BlockchainConfig H) (defaultDifficulty : H) (sizeLimit : Nat) :
    Option (Node H T) := do
  let blockdb ← BlockDatabase.new config defaultDifficulty
  some ⟨BlockChain.new config, blockdb, MemoryPool.new sizeLimit, BlockBuffer.new, ∅, ∅,
    fun _ => ⟨0, .idle⟩, []⟩

omit [Hashable (Header H) H] in
/-- `new` returns: the block database is created. -/
theorem new_isSome [Inhabited H] (config : BlockchainConfig H) (defaultDifficulty : H) (sizeLimit : Nat) :
    ∃ node : Node H T, Node.new config defaultDifficulty sizeLimit = some node := by
  obtain ⟨blockdb, created⟩ : ∃ blockdb : BlockDatabase H T, BlockDatabase.new config defaultDifficulty = some blockdb :=
    BlockDatabase.new_isSome config defaultDifficulty
  exact ⟨_, by rw [Node.new, created]; rfl⟩

/-- The memory-pool half of `handler::new_validated_block`: a transaction
block's transactions leave the pool. -/
def removeTransactions [Hashable T H] (pool : MemoryPool H T) (block : Block H T) : Option (MemoryPool H T) :=
  match block.content with
  | .transaction content => content.transactions.foldlM (fun pool tx => pool.removeByHash (Hashable.hash tx)) pool
  | _ => some pool

/-- `handler::new_validated_block`: the memory pool, then `insert_block`,
whose error is unwrapped. -/
def newValidatedBlock [Hashable T H] (pool : MemoryPool H T) (chain : BlockChain H) (block : Block H T) :
    Option (MemoryPool H T × BlockChain H) := do
  let pool ← removeTransactions pool block
  let chain ← chain.insertBlock block
  some (pool, chain)

/-- `to_request.sort(); to_request.dedup()`. -/
def sortDedup [Ord H] (hashes : List H) : List H :=
  (hashes.mergeSort fun left right => compare left right != .gt).destutter (· ≠ ·)

/-- An idle worker thread takes a message of `peer` off the channel.  The
replies that read only the database or the memory pool are sent at once. -/
def receive [Hashable T H] (node : Node H T) (thread peer : Nat) (message : Message H T) : Node H T :=
  let start := fun (stage : Stage H T) => { node with threads := update node.threads thread ⟨peer, stage⟩ }
  match message with
  | .ping nonce => { node with sent := node.sent ++ [.write peer (.pong nonce)] }
  | .pong _ => node
  | .newBlockHashes hashes => start (.lookingUp hashes [])
  | .getBlocks hashes => { node with sent := node.sent ++ [.write peer (.blocks (hashes.filterMap node.blockdb.get))] }
  | .blocks blocks => start (.decoding ⟨blocks, []⟩)
  | .newTransactionHashes hashes =>
      let toRequest := hashes.filter fun hash => !node.mempool.contains hash
      if toRequest.isEmpty then node else { node with sent := node.sent ++ [.write peer (.getTransactions toRequest)] }
  | .getTransactions hashes =>
      let transactions := hashes.filterMap fun hash => (node.mempool.get hash).map Entry.transaction
      { node with sent := node.sent ++ [.write peer (.transactions transactions)] }
  | .transactions transactions => start (.adding transactions)
  | .bootstrap _ => node

variable (hashPair : H → H → H) (sortition : SortitionConfig) (checkSignatureBatch : List T → Bool)
  [Hashable T H] [Hashable (Content H T) H] [AsU256 H] [Ord H]

/-- The next step of worker thread `thread`: one call on shared state. -/
def advance (node : Node H T) (thread : Nat) : Option (Node H T) :=
  let job := node.threads thread
  match job.stage with
  | .idle => some node
  | .lookingUp (hash :: hashes) toRequest =>
      -- in the database, or requested already
      let known := node.blockdb.contains hash || decide (hash ∈ node.requestedBlocks)
      some (node.setStage thread (.lookingUp hashes (if known then toRequest else toRequest ++ [hash])))
  | .lookingUp [] toRequest =>
      let node := { node with requestedBlocks := toRequest.foldl (fun set hash => insert hash set) node.requestedBlocks }
      let node := if toRequest.isEmpty then node else { node with sent := node.sent ++ [.write job.peer (.getBlocks toRequest)] }
      some (node.setStage thread .idle)
  | .adding (tx :: transactions) => do
      let mempool ← node.mempool.newTransaction tx
      some ({ node with mempool }.setStage thread (.adding transactions))
  | .adding [] => some (node.setStage thread .idle)
  | .decoding ⟨block :: encoded, blocks⟩ => do
      -- the block has arrived, so it is no longer requested; then its proof of work
      let node := { node with requestedBlocks := node.requestedBlocks.erase block.hash }
      let powCheck ← Validation.checkPowSortitionId block sortition
      match powCheck with
      | .pass => some (node.setStage thread (.arrived block ⟨encoded, blocks⟩))
      | _ => some (node.setStage thread (.decoding ⟨encoded, blocks⟩))
  | .decoding ⟨[], blocks⟩ =>
      if blocks.isEmpty then some (node.setStage thread .idle)
      else
        let node := { node with sent := node.sent ++ [Output.broadcast (.newBlockHashes (blocks.map Block.hash))] }
        some (node.setStage thread (.processing ⟨blocks.reverse, [], []⟩))
  | .arrived block decoding =>
      if block.hash ∈ node.recentBlocks then some (node.setStage thread (.decoding decoding))
      else
        let node := { node with recentBlocks := insert block.hash node.recentBlocks }
        some (node.setStage thread (.claimed block decoding))
  | .claimed block decoding =>
      if node.blockdb.contains block.hash then
        let node := { node with recentBlocks := node.recentBlocks.erase block.hash }
        some (node.setStage thread (.decoding decoding))
      else some (node.setStage thread (.storing block decoding))
  | .storing block decoding =>
      let node := { node with blockdb := node.blockdb.insertEncoded block.hash block }
      some (node.setStage thread (.stored block decoding))
  | .stored block ⟨encoded, blocks⟩ =>
      let node := { node with recentBlocks := node.recentBlocks.erase block.hash }
      some (node.setStage thread (.decoding ⟨encoded, blocks ++ [block]⟩))
  | .processing ⟨[], toRequest, signals⟩ =>
      let requests := if toRequest.isEmpty then [] else [.write job.peer (.getBlocks (sortDedup toRequest))]
      let node := { node with sent := node.sent ++ signals.map Output.signal ++ requests }
      some (node.setStage thread .idle)
  | .processing ⟨block :: toProcess, toRequest, signals⟩ =>
      -- under the buffer lock: availability, and buffering on missing references
      match Validation.checkDataAvailability node.chain block with
      | .pass => some (node.setStage thread (.available block ⟨toProcess, toRequest, signals⟩))
      | .missingReferences missing =>
          let node := { node with buffer := node.buffer.insert block missing }
          some (node.setStage thread (.processing ⟨toProcess, toRequest ++ missing, signals⟩))
      | _ => none
  | .available block pending => do
      let sortitionProof ← Validation.checkSortitionProof hashPair block sortition
      match sortitionProof with
      | .pass => do
          let contentSemantic ← Validation.checkContentSemantic checkSignatureBatch node.chain block
          match contentSemantic with
          | .pass => some (node.setStage thread (.validated block pending))
          | _ => some (node.setStage thread (.processing pending))
      | _ => some (node.setStage thread (.processing pending))
  | .validated block pending => do
      let mempool ← removeTransactions node.mempool block
      some ({ node with mempool }.setStage thread (.cleared block pending))
  | .cleared block pending => do
      let chain ← node.chain.insertBlock block
      some ({ node with chain }.setStage thread (.inserted block pending))
  | .inserted block ⟨toProcess, toRequest, signals⟩ => do
      let (buffer, resolved) ← node.buffer.satisfy block.hash
      some ({ node with buffer }.setStage thread
        (.processing ⟨resolved.reverse ++ toProcess, toRequest, signals ++ [block.signal]⟩))

/-- `ledger_manager::update_transaction_sequence`: the ledger update, then
for each newly confirmed block, looked up in the database, its transactions
for the executor; a lazily annotated block is skipped, and a block missing
from the database or of another kind panics. -/
def updateTransactionSequence [Inhabited H] (policy : ConfirmationPolicy H) (fuel : Nat) (node : Node H T) :
    Option (Node H T) := do
  let (chain, added, _) ← node.chain.updateLedger policy fuel
  let batches ← added.filterMapM fun hash => do
    let block ← node.blockdb.get hash
    if block.header.extraContent = lazyAnnotation then some none
    else
      match block.content with
      | .transaction content => some (some content.transactions)
      | _ => none
  some { node with chain, sent := node.sent ++ batches.map Output.confirm }

/-- The miner's handling of a block it mined (`miner_loop`): stored, passed
to `new_validated_block`, and announced. -/
def insertMined (node : Node H T) (block : Block H T) : Option (Node H T) := do
  let (mempool, chain) ← newValidatedBlock node.mempool node.chain block
  some { node with blockdb := node.blockdb.insert block, mempool, chain,
                   sent := node.sent ++ [Output.broadcast (.newBlockHashes [block.hash])] }

/-- The states of a node's runs, with the blocks inserted into its
blockchain so far: any interleaving of worker steps on any messages, of
ledger updates and of blocks the miner mines.  A mined block is new, its hash
neither stored nor being stored, and it is built from the blockchain's own
indices, so it passes the checks that `insert_block` relies on. -/
inductive Reachable [Inhabited H] (config : BlockchainConfig H) (defaultDifficulty : H) (sizeLimit : Nat)
    (policy : ConfirmationPolicy H) : Node H T → List (Block H T) → Prop
  | new {node : Node H T} (created : Node.new config defaultDifficulty sizeLimit = some node) : Reachable config defaultDifficulty sizeLimit policy node []
  | receive {node : Node H T} {inserted : List (Block H T)} {thread peer : Nat} {message : Message H T}
      (reach : Reachable config defaultDifficulty sizeLimit policy node inserted) (idle : (node.threads thread).stage = .idle) :
      Reachable config defaultDifficulty sizeLimit policy (node.receive thread peer message) inserted
  | advance {node next : Node H T} {inserted : List (Block H T)} {thread : Nat} (reach : Reachable config defaultDifficulty sizeLimit policy node inserted)
      (advanced : node.advance hashPair sortition checkSignatureBatch thread = some next) :
      Reachable config defaultDifficulty sizeLimit policy next (inserted ++ (node.threads thread).stage.insertion.toList)
  | updateLedger {node next : Node H T} {inserted : List (Block H T)} {fuel : Nat} (reach : Reachable config defaultDifficulty sizeLimit policy node inserted)
      (updated : node.updateTransactionSequence policy fuel = some next) :
      Reachable config defaultDifficulty sizeLimit policy next inserted
  | mine {node next : Node H T} {inserted : List (Block H T)} {block : Block H T} (reach : Reachable config defaultDifficulty sizeLimit policy node inserted)
      (fresh : node.blockdb.contains block.hash = false) (unclaimed : block.hash ∉ node.recentBlocks)
      (available : Validation.checkDataAvailability node.chain block = .pass)
      (semantic : Validation.checkContentSemantic checkSignatureBatch node.chain block = some .pass)
      (mined : node.insertMined block = some next) :
      Reachable config defaultDifficulty sizeLimit policy next (inserted ++ [block])

end Node

end Network
end Prism
