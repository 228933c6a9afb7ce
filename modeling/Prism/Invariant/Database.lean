import Prism.Invariant.Node

/-!
# What the block database holds

The block database only grows.  A worker thread stores a block only under a
hash the database does not hold, which `recent_blocks` and the lookup before
the store ensure (`Node.Invariant`), and the miner stores only a block of a
new hash.  So along every run of a node the database holds each block that a
worker thread, the buffer or the blockchain carries under its own hash, and
under each genesis hash a genesis block of no transaction content
(`Node.StoredAs`).

What the ledger manager sends the executor follows: the transactions of
exactly the transaction blocks that the blockchain inserted and that
`update_ledger` confirms, the lazily annotated ones left out
(`Node.Reachable.updateTransactionSequence_sends`).
-/

namespace Prism
namespace Network

open Function

variable {H T : Type}

namespace BlockDatabase

variable [DecidableEq H]

/-- Storing under a hash the database does not hold keeps every entry. -/
theorem get_insertEncoded_of_fresh {db : BlockDatabase H T} {hash other : H} {block found : Block H T}
    (fresh : db.contains hash = false) (stored : db.get other = some found) :
    (db.insertEncoded hash block).get other = some found := by
  have apart : other ≠ hash := by
    rintro rfl
    rw [contains, ← get, stored] at fresh
    cases fresh
  rw [get_insertEncoded, if_neg apart, stored]

end BlockDatabase

namespace Node

/-- A worker thread holds `block`, the buffer parks it, or the blockchain has
it. -/
def Carries (node : Node H T) (inserted : List (Block H T)) (block : Block H T) : Prop :=
  (∃ thread, block ∈ (node.threads thread).stage.held) ∨ (∃ hash, node.buffer.blocks hash = some block) ∨
    block ∈ inserted

variable [Hashable (Header H) H] (config : BlockchainConfig H)

/-- What the block database holds in every state of a node's runs. -/
structure StoredAs (node : Node H T) (inserted : List (Block H T)) : Prop where
  /-- Each carried block is stored under its own hash. -/
  carried : ∀ block, node.Carries inserted block → node.blockdb.get block.hash = some block
  /-- Each genesis hash holds a block of no transaction content. -/
  genesis : ∀ hash ∈ config.genesisHashes, ∃ block, node.blockdb.get hash = some block ∧
    ∀ content, block.content ≠ .transaction content

/-! ## How a step moves blocks -/

section Steps

variable {config} {node next : Node H T} {inserted inserted' : List (Block H T)}

/-- The rule every step follows: the database keeps what it stores, and a
block carried after the step was carried before or is stored now. -/
theorem StoredAs.step (stored : node.StoredAs config inserted)
    (grows : ∀ hash block, node.blockdb.get hash = some block → next.blockdb.get hash = some block)
    (moves : ∀ block, next.Carries inserted' block →
      node.Carries inserted block ∨ next.blockdb.get block.hash = some block) :
    next.StoredAs config inserted' where
  carried block carries := (moves block carries).elim (fun before => grows _ _ (stored.carried block before)) id
  genesis hash member := by
    obtain ⟨block, found, notTransaction⟩ := stored.genesis hash member
    exact ⟨block, grows hash block found, notTransaction⟩

/-- A step of one thread: what that thread, the buffer and the blockchain
carry after it, each of them carried before or is stored now. -/
theorem carries_of_moves {thread : Nat}
    (others : ∀ other, other ≠ thread → (next.threads other).stage = (node.threads other).stage)
    (heldMoves : ∀ block ∈ (next.threads thread).stage.held,
      node.Carries inserted block ∨ next.blockdb.get block.hash = some block)
    (bufferMoves : ∀ hash block, next.buffer.blocks hash = some block → node.Carries inserted block)
    (chainMoves : ∀ block ∈ inserted', node.Carries inserted block ∨ next.blockdb.get block.hash = some block)
    {block : Block H T} (carries : next.Carries inserted' block) :
    node.Carries inserted block ∨ next.blockdb.get block.hash = some block := by
  rcases carries with ⟨other, held⟩ | ⟨hash, parked⟩ | chained
  · by_cases same : other = thread
    · subst same
      exact heldMoves block held
    · rw [others other same] at held
      exact .inl (.inl ⟨other, held⟩)
  · exact .inl (bufferMoves hash block parked)
  · exact chainMoves block chained

/-- A step of one thread that overwrites no entry of the database keeps it
holding what is carried. -/
theorem StoredAs.transfer (stored : node.StoredAs config inserted) (thread : Nat)
    (grows : ∀ hash block, node.blockdb.get hash = some block → next.blockdb.get hash = some block)
    (others : ∀ other, other ≠ thread → (next.threads other).stage = (node.threads other).stage)
    (heldMoves : ∀ block ∈ (next.threads thread).stage.held,
      node.Carries inserted block ∨ next.blockdb.get block.hash = some block)
    (bufferMoves : ∀ hash block, next.buffer.blocks hash = some block → node.Carries inserted block)
    (chainMoves : ∀ block ∈ inserted', node.Carries inserted block ∨ next.blockdb.get block.hash = some block) :
    next.StoredAs config inserted' :=
  stored.step grows fun _ carries => carries_of_moves others heldMoves bufferMoves chainMoves carries

/-- A thread that moves to a stage holding only blocks it held, with the
database, the buffer and the other threads as they were. -/
theorem StoredAs.setStage (stored : node.StoredAs config inserted) {node' : Node H T} {thread : Nat}
    {stage : Stage H T} (blockdbEq : node'.blockdb = node.blockdb) (bufferEq : node'.buffer = node.buffer)
    (threadsEq : node'.threads = node.threads)
    (heldSub : ∀ block ∈ stage.held, block ∈ (node.threads thread).stage.held) :
    (node'.setStage thread stage).StoredAs config inserted := by
  refine stored.transfer thread (fun hash block found => ?_) (fun other apart => ?_)
    (fun block held => ?_) (fun hash block parked => ?_) fun block chained => .inl (.inr (.inr chained))
  · rw [setStage_blockdb, blockdbEq]
    exact found
  · rw [stage_setStage_of_ne _ _ _ apart, threadsEq]
  · rw [stage_setStage_self] at held
    exact .inl (.inl ⟨thread, heldSub block held⟩)
  · rw [setStage_buffer, bufferEq] at parked
    exact .inr (.inl ⟨hash, parked⟩)

/-- A thread inserts the block at hand into the blockchain. -/
theorem StoredAs.insertBlock (stored : node.StoredAs config inserted) {thread : Nat} {block : Block H T}
    {pending : Pending H T} {chain : BlockChain H} (stageEq : (node.threads thread).stage = .cleared block pending) :
    ({ node with chain }.setStage thread (.inserted block pending)).StoredAs config (inserted ++ [block]) := by
  refine stored.transfer thread (fun _ _ found => found)
    (fun other apart => by rw [stage_setStage_of_ne _ _ _ apart]) (fun held member => ?_)
    (fun hash parked found => .inr (.inl ⟨hash, found⟩)) fun chained member => ?_
  · rw [stage_setStage_self] at member
    exact .inl (.inl ⟨thread, by rw [stageEq]; exact List.mem_cons_of_mem _ member⟩)
  · -- the blockchain gains the block the thread held
    rcases List.mem_append.mp member with before | now
    · exact .inl (.inr (.inr before))
    · rw [List.mem_singleton.mp now]
      exact .inl (.inl ⟨thread, by rw [stageEq]; exact List.mem_cons_self⟩)

variable [DecidableEq H]

/-- A thread stores the block it found missing: the database gains it under
its hash and keeps every other entry. -/
theorem StoredAs.store (stored : node.StoredAs config inserted) {thread : Nat} {block : Block H T}
    {progress : Decoding H T} (stageEq : (node.threads thread).stage = .storing block progress)
    (fresh : node.blockdb.contains block.hash = false) :
    ({ node with blockdb := node.blockdb.insertEncoded block.hash block }.setStage thread
      (.stored block progress)).StoredAs config inserted := by
  refine stored.transfer thread (fun hash found stored => BlockDatabase.get_insertEncoded_of_fresh fresh stored)
    (fun other apart => by rw [stage_setStage_of_ne _ _ _ apart]) (fun held member => ?_)
    (fun hash block parked => .inr (.inl ⟨hash, parked⟩)) fun block chained => .inl (.inr (.inr chained))
  -- the thread holds what it stored before, and the block it stores now
  rw [stage_setStage_self] at member
  rcases List.mem_append.mp member with before | now
  · exact .inl (.inl ⟨thread, by rw [stageEq]; exact before⟩)
  · rw [List.mem_singleton.mp now]
    exact .inr (by simp)

/-- A thread parks the block at the top of its stack in the buffer. -/
theorem StoredAs.park (stored : node.StoredAs config inserted) {thread : Nat} {block : Block H T}
    {toProcess : List (Block H T)} {toRequest missing : List H} {signals : List Miner.ContextUpdateSignal}
    (stageEq : (node.threads thread).stage = .processing ⟨block :: toProcess, toRequest, signals⟩) :
    ({ node with buffer := node.buffer.insert block missing }.setStage thread
      (.processing ⟨toProcess, toRequest ++ missing, signals⟩)).StoredAs config inserted := by
  have top : block ∈ (node.threads thread).stage.held := by
    rw [stageEq]
    exact List.mem_cons_self
  refine stored.transfer thread (fun _ _ found => found)
    (fun other apart => by rw [stage_setStage_of_ne _ _ _ apart]) (fun held member => ?_)
    (fun hash parked found => ?_) fun block chained => .inl (.inr (.inr chained))
  · rw [stage_setStage_self] at member
    exact .inl (.inl ⟨thread, by rw [stageEq]; exact List.mem_cons_of_mem _ member⟩)
  · -- the buffer gains the block the thread held
    rw [setStage_buffer, (BlockBuffer.insert_spec _ _ _).1] at found
    by_cases same : hash = block.hash
    · rw [same, update_self, Option.some.injEq] at found
      rw [← found]
      exact .inl ⟨thread, top⟩
    · rw [update_of_ne same] at found
      exact .inr (.inl ⟨hash, found⟩)

/-- A thread satisfies the hash of the block it inserted: the blocks the
buffer releases go on its stack. -/
theorem StoredAs.release (stored : node.StoredAs config inserted) (bufferInvariant : node.buffer.Invariant)
    {thread : Nat} {block : Block H T} {toProcess resolved : List (Block H T)} {toRequest : List H}
    {signals : List Miner.ContextUpdateSignal} {buffer : BlockBuffer H T}
    (stageEq : (node.threads thread).stage = .inserted block ⟨toProcess, toRequest, signals⟩)
    (satisfied : node.buffer.satisfy block.hash = some (buffer, resolved)) :
    ({ node with buffer }.setStage thread
      (.processing ⟨resolved.reverse ++ toProcess, toRequest, signals ++ [block.signal]⟩)).StoredAs config
      inserted := by
  refine stored.transfer thread (fun _ _ found => found)
    (fun other apart => by rw [stage_setStage_of_ne _ _ _ apart]) (fun held member => ?_)
    (fun hash parked found => .inr (.inl ⟨hash, bufferInvariant.satisfy_blocks satisfied found⟩))
    fun block chained => .inl (.inr (.inr chained))
  rw [stage_setStage_self] at member
  rcases List.mem_append.mp member with released | rest
  · -- a released block was parked
    exact .inl (.inr (.inl ⟨_, (bufferInvariant.satisfy_released satisfied (List.mem_reverse.mp released)).1⟩))
  · exact .inl (.inl ⟨thread, by rw [stageEq]; exact rest⟩)

/-- The miner stores and inserts a block of a new hash. -/
theorem StoredAs.mine [Hashable T H] (stored : node.StoredAs config inserted) {block : Block H T}
    (fresh : node.blockdb.contains block.hash = false) (mined : node.insertMined block = some next) :
    next.StoredAs config (inserted ++ [block]) := by
  simp only [Node.insertMined, Option.bind_eq_bind, Option.bind_eq_some_iff] at mined
  obtain ⟨⟨pool, chain⟩, -, nextEq⟩ := mined
  cases nextEq
  refine stored.transfer 0 (fun hash found stored => BlockDatabase.get_insertEncoded_of_fresh fresh stored)
    (fun _ _ => rfl) (fun held member => .inl (.inl ⟨0, member⟩))
    (fun hash parked found => .inr (.inl ⟨hash, found⟩))
    fun chained member => ?_
  rcases List.mem_append.mp member with before | now
  · exact .inl (.inr (.inr before))
  · rw [List.mem_singleton.mp now]
    exact .inr (by simp [BlockDatabase.insert])

end Steps

/-! ## Runs -/

section Runs

variable {config} [DecidableEq H] [Inhabited H] [Hashable T H] {checkSignatureBatch : List T → Bool}
  {policy : ConfirmationPolicy H} {sizeLimit : Nat} {node next : Node H T} {inserted : List (Block H T)}

omit [Hashable T H] in
/-- A new node carries nothing, and its database holds the genesis blocks. -/
theorem storedAs_new {defaultDifficulty : H} (created : Node.new config defaultDifficulty sizeLimit = some node) :
    node.StoredAs config ([] : List (Block H T)) := by
  simp only [Node.new, Option.bind_eq_bind, Option.bind_eq_some_iff, Option.some.injEq] at created
  obtain ⟨blockdb, stored, rfl⟩ := created
  refine ⟨fun block carries => ?_, BlockDatabase.get_new stored⟩
  -- the threads are idle, the buffer is empty, and nothing is inserted
  rcases carries with ⟨thread, held⟩ | ⟨hash, parked⟩ | chained
  · cases held
  · cases parked
  · cases chained

omit [Inhabited H] in
/-- An idle thread's taking a message stores nothing, and the thread starts
with nothing in hand. -/
theorem StoredAs.receive (stored : node.StoredAs config inserted) {thread peer : Nat} {message : Message H T} :
    (node.receive thread peer message).StoredAs config inserted := by
  have quiet : ∀ sent, StoredAs config { node with sent } inserted :=
    fun _ => stored.step (fun _ _ found => found) fun _ carries => .inl carries
  have start : ∀ stage : Stage H T, stage.held = [] →
      StoredAs config { node with threads := update node.threads thread ⟨peer, stage⟩ } inserted := by
    intro stage empty
    refine stored.transfer thread (fun _ _ found => found)
      (fun other apart => congrArg Job.stage (update_of_ne apart _ _)) (fun block held => ?_)
      (fun hash block parked => .inr (.inl ⟨hash, parked⟩)) fun block chained => .inl (.inr (.inr chained))
    simp only [update_self, empty, List.not_mem_nil] at held
  cases message with
  | ping nonce => exact quiet _
  | pong nonce => exact stored
  | newBlockHashes hashes => exact start _ rfl
  | getBlocks hashes => exact quiet _
  | blocks blocks => exact start _ rfl
  | newTransactionHashes hashes =>
      simp only [Node.receive]
      split
      · exact stored
      · exact quiet _
  | getTransactions hashes => exact quiet _
  | transactions transactions => exact start _ rfl
  | bootstrap after => exact stored

omit [Hashable T H] in
/-- The ledger manager's step changes only the blockchain's ledger and what is
sent. -/
theorem StoredAs.updateTransactionSequence (stored : node.StoredAs config inserted) {fuel : Nat}
    (updated : node.updateTransactionSequence policy fuel = some next) : next.StoredAs config inserted := by
  simp only [Node.updateTransactionSequence, Option.bind_eq_bind, Option.bind_eq_some_iff, Option.some.injEq]
    at updated
  obtain ⟨_, -, batches, -, rfl⟩ := updated
  exact stored.step (fun _ _ found => found) fun _ carries => .inl carries

variable (hashPair : H → H → H) (sortition : SortitionConfig) [Hashable (Content H T) H] [AsU256 H] [Ord H]

/-- Every step of a worker thread keeps the database holding what is carried:
one case for each arm of `advance`. -/
theorem StoredAs.advance (stored : node.StoredAs config inserted)
    (invariant : Invariant config checkSignatureBatch policy sizeLimit node inserted) {thread : Nat}
    (advanced : node.advance hashPair sortition checkSignatureBatch thread = some next) :
    next.StoredAs config (inserted ++ (node.threads thread).stage.insertion.toList) := by
  have empty : ∀ block ∈ (Stage.idle : Stage H T).held, block ∈ (node.threads thread).stage.held :=
    fun _ held => by cases held
  cases stageEq : (node.threads thread).stage with
  | idle =>
      simp only [Node.advance, stageEq, Option.some.injEq] at advanced
      rw [append_insertion rfl, ← advanced]
      exact stored
  | lookingUp hashes toRequest =>
      rw [append_insertion rfl]
      cases hashes with
      | nil =>
          simp only [Node.advance, stageEq, Option.some.injEq] at advanced
          split at advanced <;> rw [← advanced] <;> exact stored.setStage rfl rfl rfl empty
      | cons hash hashes =>
          simp only [Node.advance, stageEq, Option.some.injEq] at advanced
          rw [← advanced]
          exact stored.setStage rfl rfl rfl fun _ held => by cases held
  | adding transactions =>
      rw [append_insertion rfl]
      cases transactions with
      | nil =>
          simp only [Node.advance, stageEq, Option.some.injEq] at advanced
          rw [← advanced]
          exact stored.setStage rfl rfl rfl empty
      | cons tx transactions =>
          simp only [Node.advance, stageEq, Option.bind_eq_bind, Option.bind_eq_some_iff, Option.some.injEq]
            at advanced
          obtain ⟨mempool, -, advanced⟩ := advanced
          rw [← advanced]
          exact stored.setStage rfl rfl rfl fun _ held => by cases held
  | decoding progress =>
      rw [append_insertion rfl]
      obtain ⟨encoded, blocks⟩ := progress
      cases encoded with
      | nil =>
          simp only [Node.advance, stageEq] at advanced
          split at advanced
          · rw [← Option.some.inj advanced]
            exact stored.setStage rfl rfl rfl empty
          · rw [← Option.some.inj advanced]
            -- the stored blocks go on the stack `to_process`
            exact stored.setStage rfl rfl rfl fun _ held => by rw [stageEq]; exact List.mem_reverse.mp held
      | cons block encoded =>
          simp only [Node.advance, stageEq, Option.bind_eq_bind, Option.bind_eq_some_iff] at advanced
          obtain ⟨powCheck, -, advanced⟩ := advanced
          split at advanced <;> rw [← Option.some.inj advanced] <;>
            exact stored.setStage rfl rfl rfl fun _ held => by rw [stageEq]; exact held
  | arrived block progress =>
      rw [append_insertion rfl]
      simp only [Node.advance, stageEq] at advanced
      split at advanced <;> rw [← Option.some.inj advanced] <;>
        exact stored.setStage rfl rfl rfl fun _ held => by rw [stageEq]; exact held
  | claimed block progress =>
      rw [append_insertion rfl]
      simp only [Node.advance, stageEq] at advanced
      split at advanced <;> rw [← Option.some.inj advanced] <;>
        exact stored.setStage rfl rfl rfl fun _ held => by rw [stageEq]; exact held
  | storing block progress =>
      rw [append_insertion rfl]
      simp only [Node.advance, stageEq, Option.some.injEq] at advanced
      rw [← advanced]
      exact stored.store stageEq (invariant.storing_fresh thread block.hash (by rw [stageEq]; rfl))
  | stored block progress =>
      rw [append_insertion rfl]
      obtain ⟨encoded, blocks⟩ := progress
      simp only [Node.advance, stageEq, Option.some.injEq] at advanced
      rw [← advanced]
      exact stored.setStage rfl rfl rfl fun _ held => by rw [stageEq]; exact held
  | processing pending =>
      rw [append_insertion rfl]
      obtain ⟨toProcess, toRequest, signals⟩ := pending
      cases toProcess with
      | nil =>
          simp only [Node.advance, stageEq, Option.some.injEq] at advanced
          rw [← advanced]
          exact stored.setStage rfl rfl rfl empty
      | cons block toProcess =>
          simp only [Node.advance, stageEq] at advanced
          split at advanced
          · rw [← Option.some.inj advanced]
            exact stored.setStage rfl rfl rfl fun _ held => by rw [stageEq]; exact held
          · rw [← Option.some.inj advanced]
            exact stored.park stageEq
          · cases advanced
  | available block pending =>
      rw [append_insertion rfl]
      simp only [Node.advance, stageEq, Option.bind_eq_bind, Option.bind_eq_some_iff] at advanced
      obtain ⟨sortitionProof, -, advanced⟩ := advanced
      -- a block that fails a check is dropped, and the thread goes on with the stack
      have dropped : StoredAs config (node.setStage thread (.processing pending)) inserted :=
        stored.setStage rfl rfl rfl fun _ held => by rw [stageEq]; exact List.mem_cons_of_mem _ held
      split at advanced
      · rw [Option.bind_eq_some_iff] at advanced
        obtain ⟨contentSemantic, -, advanced⟩ := advanced
        split at advanced <;> rw [← Option.some.inj advanced]
        · exact stored.setStage rfl rfl rfl fun _ held => by rw [stageEq]; exact held
        · exact dropped
      · rw [← Option.some.inj advanced]
        exact dropped
  | validated block pending =>
      rw [append_insertion rfl]
      simp only [Node.advance, stageEq, Option.bind_eq_bind, Option.bind_eq_some_iff, Option.some.injEq] at advanced
      obtain ⟨mempool, -, advanced⟩ := advanced
      rw [← advanced]
      exact stored.setStage rfl rfl rfl fun _ held => by rw [stageEq]; exact held
  | cleared block pending =>
      simp only [Node.advance, stageEq, Option.bind_eq_bind, Option.bind_eq_some_iff, Option.some.injEq] at advanced
      obtain ⟨chain, -, advanced⟩ := advanced
      rw [← advanced]
      exact stored.insertBlock stageEq
  | inserted block pending =>
      rw [append_insertion rfl]
      obtain ⟨toProcess, toRequest, signals⟩ := pending
      simp only [Node.advance, stageEq, Option.bind_eq_bind, Option.bind_eq_some_iff, Option.some.injEq] at advanced
      obtain ⟨⟨buffer, resolved⟩, satisfied, advanced⟩ := advanced
      rw [← advanced]
      exact stored.release invariant.buffer stageEq satisfied

variable {defaultDifficulty : H}

/-- In every state of every run of the node the database holds what is
carried, each block under its own hash, and a genesis block under each
genesis hash. -/
theorem Reachable.storedAs
    (reach : Node.Reachable hashPair sortition checkSignatureBatch config defaultDifficulty sizeLimit policy node
      inserted) :
    node.StoredAs config inserted := by
  induction reach with
  | new created => exact storedAs_new created
  | receive _ _ stored => exact stored.receive
  | advance reach advanced stored =>
      exact stored.advance hashPair sortition (reach.invariant hashPair sortition) advanced
  | updateLedger _ updated stored => exact stored.updateTransactionSequence updated
  | mine _ fresh _ _ _ mined stored => exact stored.mine fresh mined

/-! ## What the ledger manager sends -/

section Sends

variable {hashPair sortition}

omit [Hashable T H] [Hashable (Content H T) H] [AsU256 H] [Ord H] in
/-- Under a hash that `update_ledger` confirms, the database holds the
inserted block of that hash, or a genesis block of no transaction content. -/
theorem StoredAs.get_of_added (stored : node.StoredAs config inserted)
    (reachable : Prism.Reachable checkSignatureBatch policy config node.chain inserted) {fuel : Nat}
    {chain : BlockChain H} {added removed : List H}
    (updated : node.chain.updateLedger policy fuel = some (chain, added, removed)) {hash : H}
    (confirmed : hash ∈ added) :
    (∃ block ∈ inserted, block.hash = hash ∧ node.blockdb.get hash = some block) ∨
      ∃ block, node.blockdb.get hash = some block ∧ ∀ content, block.content ≠ .transaction content := by
  -- a confirmed hash is a voter genesis block's or an inserted block's
  rcases reachable.updateLedger_added_mem updated hash confirmed with genesis | insertedHash
  · exact .inr (stored.genesis hash (List.mem_cons_of_mem _ genesis))
  · obtain ⟨block, member, rfl⟩ := List.mem_map.mp insertedHash
    exact .inl ⟨block, member, rfl, stored.carried block (.inr (.inr member))⟩

end Sends

end Runs

end Node

end Network
end Prism
