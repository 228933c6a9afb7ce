import Prism.Blockchain.Run
import Prism.Crypto.Merkle
import Prism.Library.BigEndian
import Prism.Library.Checked

/-!
# Sortition

`BlockchainConfig::sortition_hash` of `config.rs`, and the proof-of-work and
sortition-proof checks of `validation/mod.rs` that read it.  Mining is one proof of work for all
block types: a hash below the difficulty is valid, and where it falls below
the difficulty selects the content the block may carry, the proposer slot,
the transaction slot or one of the voter chains.  The arithmetic is that of
the 256-bit integers of the `bigint` crate and of `u16`, and both panic on
overflow (`none`).

The code compares the hash with `transaction_width + proposer_width`, where
`transaction_width` already spans the proposer and the transaction slots: the
transaction slot is one proposer width wider than its share
(`SortitionConfig.sortitionHash_eq`), and where the proposer width exceeds
the voter widths together it reaches past the difficulty.  The sortition-proof
check counts the leaves as `voter_chains + FIRST_VOTER_INDEX` in `u16`, which
overflows for the largest numbers of chains.
-/

namespace Prism

/-- `SORTITION_PRECISION`, `u64::MAX`: the total sortition width. -/
def sortitionPrecision : Nat := 2 ^ 64 - 1

/-- `PROPOSER_INDEX`. -/
def proposerIndex : Nat := 0

/-- `TRANSACTION_INDEX`. -/
def transactionIndex : Nat := 1

/-- `FIRST_VOTER_INDEX`. -/
def firstVoterIndex : Nat := 2

/-- A hash read as a 256-bit number (`U256::from_big_endian`). -/
class AsU256 (H : Type) where
  /-- The number the hash spells. -/
  asU256 : H → Nat
  /-- It fits in 256 bits. -/
  asU256_lt : ∀ hash, asU256 hash < 2 ^ 256

/-- An `H256`, thirty-two bytes, read most significant first. -/
instance h256AsU256 : AsU256 (Vector UInt8 32) where
  asU256 hash := BigEndian.fromBeBytes hash.toList
  asU256_lt hash := by
    have fits := BigEndian.fromBeBytes_lt hash.toList
    rw [Vector.length_toList] at fits
    exact fits.trans_eq (by decide)

/-- The part of `config::BlockchainConfig` that sortition reads: the number of
voter chains, a `u16`, and the `u64` widths `BlockchainConfig::new` gives the
block types.  `new` computes the transaction width as what the others leave
of `SORTITION_PRECISION`, in checked `u64` arithmetic, so the widths add up
to it. -/
structure SortitionConfig where
  /-- Number of voter chains. -/
  voterChains : Nat
  /-- The proposer block's share of `SORTITION_PRECISION`. -/
  proposerSortitionWidth : Nat
  /-- The transaction block's share. -/
  txSortitionWidth : Nat
  /-- The share of one voter chain. -/
  voterSortitionWidth : Nat
  /-- `voter_chains` is a `u16`. -/
  voterChains_lt : voterChains < 2 ^ 16
  /-- The voter width is a `u64`. -/
  voterSortitionWidth_lt : voterSortitionWidth < 2 ^ 64
  /-- The widths add up to `SORTITION_PRECISION`. -/
  widths_sum : proposerSortitionWidth + txSortitionWidth + voterSortitionWidth * voterChains = sortitionPrecision

namespace SortitionConfig

/-- `BlockchainConfig::sortition_hash`: the slot that `hash` selects under
`difficulty`, or `none` inside when it is no valid proof of work.  The total
sortition width is `SORTITION_PRECISION`, as `new` sets it. -/
def sortitionHash (config : SortitionConfig) (hash difficulty : Nat) : Option (Option Nat) := do
  let multiplier := difficulty / sortitionPrecision
  let proposerWidth ← Checked.mul 256 multiplier config.proposerSortitionWidth
  let widths ← Checked.add 256 config.proposerSortitionWidth config.txSortitionWidth
  let transactionWidth ← Checked.mul 256 multiplier widths
  if hash < proposerWidth then some (some proposerIndex)
  else do
    let bound ← Checked.add 256 transactionWidth proposerWidth
    if hash < bound then some (some transactionIndex)
    else if hash < difficulty then do
      let above ← Checked.sub hash proposerWidth
      let above ← Checked.sub above transactionWidth
      let voterIdx ← Checked.rem above config.voterChains
      -- `as_u32` panics past `u32`, `as u16` truncates
      let voterIdx ← Checked.narrow 32 voterIdx
      let sortitionId ← Checked.add 16 (voterIdx % 2 ^ 16) firstVoterIndex
      some (some sortitionId)
    else some none

/-- `proposer_width` of `sortition_hash`: the proposer slot. -/
def proposerWidth (config : SortitionConfig) (difficulty : Nat) : Nat :=
  difficulty / sortitionPrecision * config.proposerSortitionWidth

/-- `transaction_width` of `sortition_hash`, which spans the proposer and the
transaction slots. -/
def transactionWidth (config : SortitionConfig) (difficulty : Nat) : Nat :=
  difficulty / sortitionPrecision * (config.proposerSortitionWidth + config.txSortitionWidth)

section Spec

variable (config : SortitionConfig) {hash difficulty : Nat}

/-- The proposer and transaction widths leave the voter widths of the total. -/
theorem proposer_add_tx_le : config.proposerSortitionWidth + config.txSortitionWidth ≤ sortitionPrecision := by
  have sum := config.widths_sum
  omega

/-- What `sortition_hash` computes where nothing overflows: the proposer slot
below the proposer width, the transaction slot below `transaction_width +
proposer_width`, a voter chain below the difficulty, and no slot from the
difficulty on. -/
theorem sortitionHash_eq (chains : 0 < config.voterChains) (room : config.voterChains + firstVoterIndex ≤ 2 ^ 16)
    (fits : config.transactionWidth difficulty + config.proposerWidth difficulty < 2 ^ 256) :
    config.sortitionHash hash difficulty = some
      (if hash < config.proposerWidth difficulty then some proposerIndex
      else if hash < config.transactionWidth difficulty + config.proposerWidth difficulty then some transactionIndex
      else if hash < difficulty then
        some ((hash - config.proposerWidth difficulty - config.transactionWidth difficulty) % config.voterChains +
          firstVoterIndex)
      else none) := by
  have proposerFits : config.proposerWidth difficulty < 2 ^ 256 := by omega
  have transactionFits : config.transactionWidth difficulty < 2 ^ 256 := by omega
  have widthsFit : config.proposerSortitionWidth + config.txSortitionWidth < 2 ^ 256 :=
    (config.proposer_add_tx_le).trans_lt (by decide)
  unfold proposerWidth transactionWidth at *
  dsimp only [sortitionHash]
  simp only [Checked.mul_of_lt proposerFits, Checked.add_of_lt widthsFit, Checked.mul_of_lt transactionFits,
    Checked.add_of_lt fits, Option.bind_eq_bind, Option.bind_some]
  split_ifs with below inTransaction inVoter
  · rfl
  · rfl
  · -- a voter chain: the subtractions stay above zero, and the index below the chains fits a `u16`
    have indexLt := Nat.mod_lt (hash - difficulty / sortitionPrecision * config.proposerSortitionWidth -
      difficulty / sortitionPrecision * (config.proposerSortitionWidth + config.txSortitionWidth)) chains
    have chainsLt := config.voterChains_lt
    rw [Checked.sub_of_le (by omega), Option.bind_some, Checked.sub_of_le (by omega), Option.bind_some,
      Checked.rem_of_pos chains, Option.bind_some, Checked.narrow_of_lt (by omega), Option.bind_some,
      Nat.mod_eq_of_lt (by omega), Checked.add_of_lt (by unfold firstVoterIndex at room ⊢; omega)]
    rfl
  · rfl

/-- Where the voter chains together are at least as wide as the proposer, with
at least one chain and room for every slot in a `u16`, every hash below a
256-bit difficulty selects a slot: the sum `transaction_width +
proposer_width` stays within the difficulty. -/
theorem sortitionHash_isSome_of_lt (chains : 0 < config.voterChains)
    (room : config.voterChains + firstVoterIndex ≤ 2 ^ 16)
    (proposerFits : config.proposerSortitionWidth ≤ config.voterSortitionWidth * config.voterChains)
    (below : hash < difficulty) (fits : difficulty < 2 ^ 256) :
    ∃ sortitionId, config.sortitionHash hash difficulty = some (some sortitionId) := by
  have spread : config.transactionWidth difficulty + config.proposerWidth difficulty ≤
      difficulty / sortitionPrecision * sortitionPrecision := by
    have sum := config.widths_sum
    unfold transactionWidth proposerWidth
    rw [← Nat.mul_add]
    exact Nat.mul_le_mul_left _ (by omega)
  have withinDifficulty := Nat.div_mul_le_self difficulty sortitionPrecision
  rw [config.sortitionHash_eq chains room (by omega)]
  split_ifs
  · exact ⟨_, rfl⟩
  · exact ⟨_, rfl⟩
  · exact ⟨_, rfl⟩

/-- What a slot that `sortition_hash` selects is: the proposer's, the
transaction's, or the slot of a voter chain, a checked `u16` sum. -/
theorem sortitionHash_eq_some {sortitionId : Nat}
    (selected : config.sortitionHash hash difficulty = some (some sortitionId)) :
    sortitionId = proposerIndex ∨ sortitionId = transactionIndex ∨
      ∃ voterIdx < config.voterChains, sortitionId = voterIdx + firstVoterIndex ∧ sortitionId < 2 ^ 16 := by
  dsimp only [sortitionHash] at selected
  simp only [Option.bind_eq_bind, Option.bind_eq_some_iff] at selected
  obtain ⟨proposerWidth, -, widths, -, transactionWidth, -, selected⟩ := selected
  split_ifs at selected with below valid
  · exact .inl (Option.some.inj (Option.some.inj selected)).symm
  · simp only [Option.bind_eq_some_iff] at selected
    obtain ⟨bound, -, selected⟩ := selected
    split_ifs at selected with inTransaction
    · exact .inr (.inl (Option.some.inj (Option.some.inj selected)).symm)
    · -- a voter chain: the index is a remainder by the number of chains
      simp only [Option.bind_eq_some_iff] at selected
      obtain ⟨above, -, above', -, index, remainder, index', narrowed, sortitionId', added, selected⟩ := selected
      obtain ⟨chains, rfl⟩ := Checked.rem_eq_some remainder
      obtain ⟨-, rfl⟩ := Checked.narrow_eq_some narrowed
      obtain ⟨fits, rfl⟩ := Checked.add_eq_some added
      cases selected
      have indexLt := Nat.mod_lt above' chains
      have chainsLt := config.voterChains_lt
      rw [Nat.mod_eq_of_lt (by omega)] at fits ⊢
      exact .inr (.inr ⟨above' % config.voterChains, indexLt, rfl, fits⟩)
  · -- past the difficulty only the transaction slot is left
    simp only [Option.bind_eq_some_iff] at selected
    obtain ⟨bound, -, selected⟩ := selected
    split_ifs at selected with inTransaction
    · exact .inr (.inl (Option.some.inj (Option.some.inj selected)).symm)
    · cases selected

/-- Whatever the widths and the difficulty, a slot that `sortition_hash`
selects is the proposer's, the transaction's or that of one of the voter
chains. -/
theorem sortitionHash_slot {sortitionId : Nat} (selected : config.sortitionHash hash difficulty = some (some sortitionId)) :
    sortitionId = proposerIndex ∨ sortitionId = transactionIndex ∨
      (firstVoterIndex ≤ sortitionId ∧ sortitionId - firstVoterIndex < config.voterChains) := by
  rcases config.sortitionHash_eq_some selected with proposer | transaction | ⟨voterIdx, chain, rfl, -⟩
  · exact .inl proposer
  · exact .inr (.inl transaction)
  · exact .inr (.inr ⟨Nat.le_add_left _ _, by rw [Nat.add_sub_cancel]; exact chain⟩)

/-- A slot that `sortition_hash` selects fits a `u16`. -/
theorem sortitionHash_lt {sortitionId : Nat} (selected : config.sortitionHash hash difficulty = some (some sortitionId)) :
    sortitionId < 2 ^ 16 := by
  rcases config.sortitionHash_eq_some selected with rfl | rfl | ⟨-, -, -, fits⟩
  · decide
  · decide
  · exact fits

end Spec

end SortitionConfig

/-- Widths that give the proposer more of `SORTITION_PRECISION` than the voter
chains together: one voter chain of width one, and two to the 63 to the
proposer. -/
def wideProposerConfig : SortitionConfig where
  voterChains := 1
  proposerSortitionWidth := 2 ^ 63
  txSortitionWidth := 2 ^ 63 - 2
  voterSortitionWidth := 1
  voterChains_lt := by decide
  voterSortitionWidth_lt := by decide
  widths_sum := by decide

/-- Under these widths a hash at the difficulty, no valid proof of work,
selects the transaction slot; and at the largest difficulty the sum
`transaction_width + proposer_width` overflows. -/
theorem sortitionHash_past_difficulty :
    wideProposerConfig.sortitionHash (2 ^ 64 - 1) (2 ^ 64 - 1) = some (some transactionIndex) ∧
      wideProposerConfig.sortitionHash (2 ^ 256 - 1) (2 ^ 256 - 1) = none := by
  decide

/-- The content is of the kind slot `sortitionId` selects: the proposer slot,
the transaction slot, or the slot of its voter chain. -/
def Content.InSlot {H T : Type} : Content H T → Nat → Prop
  | .proposer _, sortitionId => sortitionId = proposerIndex
  | .transaction _, sortitionId => sortitionId = transactionIndex
  | .voter content, sortitionId => sortitionId = content.chainNumber + firstVoterIndex

namespace Validation

/-- The comparison that ends the check passes only on equal slots. -/
theorem eq_of_compare_pass {H : Type} {sortitionId correctSortitionId : Nat}
    (passed : (if sortitionId ≠ correctSortitionId then some (BlockResult.wrongSortitionId : BlockResult H)
      else some .pass) = some .pass) : sortitionId = correctSortitionId := by
  by_contra differ
  simp [differ] at passed

variable {H T : Type} [Hashable (Header H) H] [AsU256 H]

/-- `check_pow_sortition_id`: the block hash is a proof of work and the
content is of the kind its slot selects.  The slot of a voter block is its
chain number plus `FIRST_VOTER_INDEX`, in `u16`. -/
def checkPowSortitionId (block : Block H T) (config : SortitionConfig) : Option (BlockResult H) := do
  let sortitionId ← config.sortitionHash (AsU256.asU256 block.hash) (AsU256.asU256 block.header.difficulty)
  match sortitionId with
  | some sortitionId => do
      let correctSortitionId ← match block.content with
        | .proposer _ => some proposerIndex
        | .transaction _ => some transactionIndex
        | .voter content => Checked.add 16 content.chainNumber firstVoterIndex
      some (if sortitionId ≠ correctSortitionId then .wrongSortitionId else .pass)
  | none => some .wrongPoW

/-- A block passes the check only if its hash selects a slot and its content
is of that slot's kind; a voter block's chain is then one of the voter
chains. -/
theorem checkPowSortitionId_pass {block : Block H T} {config : SortitionConfig}
    (passed : checkPowSortitionId block config = some .pass) :
    ∃ sortitionId, config.sortitionHash (AsU256.asU256 block.hash) (AsU256.asU256 block.header.difficulty) =
      some (some sortitionId) ∧ block.content.InSlot sortitionId ∧
      ∀ content, block.content = .voter content → content.chainNumber < config.voterChains := by
  unfold checkPowSortitionId at passed
  simp only [Option.bind_eq_bind, Option.bind_eq_some_iff] at passed
  obtain ⟨selected, hashed, passed⟩ := passed
  cases selected with
  | none => cases passed
  | some sortitionId =>
      have slot := config.sortitionHash_slot hashed
      refine ⟨sortitionId, hashed, ?_⟩
      -- the content decides the slot it needs
      cases contentEq : block.content with
      | proposer content =>
          rw [contentEq] at passed
          exact ⟨eq_of_compare_pass (by simpa only [Option.bind_some, apply_ite some] using passed),
            fun _ voter => by cases voter⟩
      | transaction content =>
          rw [contentEq] at passed
          exact ⟨eq_of_compare_pass (by simpa only [Option.bind_some, apply_ite some] using passed),
            fun _ voter => by cases voter⟩
      | voter content =>
          rw [contentEq] at passed
          simp only [Option.bind_eq_some_iff] at passed
          obtain ⟨correctSortitionId, added, passed⟩ := passed
          obtain ⟨-, rfl⟩ := Checked.add_eq_some added
          have same := eq_of_compare_pass (by simpa only [apply_ite some] using passed)
          refine ⟨same, fun other voterEq => ?_⟩
          cases voterEq
          unfold proposerIndex transactionIndex firstVoterIndex at slot
          unfold firstVoterIndex at same
          omega

/-- A block whose hash selects a slot, with content of that slot's kind,
passes the check: a voter block's slot is its chain number plus
`FIRST_VOTER_INDEX`, and a selected slot fits a `u16`. -/
theorem checkPowSortitionId_eq_pass {block : Block H T} {config : SortitionConfig} {sortitionId : Nat}
    (hashed : config.sortitionHash (AsU256.asU256 block.hash) (AsU256.asU256 block.header.difficulty) =
      some (some sortitionId))
    (inSlot : block.content.InSlot sortitionId) : checkPowSortitionId block config = some .pass := by
  have fits := config.sortitionHash_lt hashed
  rcases block with ⟨header, content, proof⟩
  cases content with
  | proposer content =>
      simp only [Content.InSlot] at inSlot
      simp [checkPowSortitionId, hashed, inSlot]
  | transaction content =>
      simp only [Content.InSlot] at inSlot
      simp [checkPowSortitionId, hashed, inSlot]
  | voter content =>
      simp only [Content.InSlot] at inSlot
      subst inSlot
      simp [checkPowSortitionId, hashed, Checked.add_of_lt fits]

/-- A voter block whose hash selects any slot, with a chain number that the
`u16` sum with `FIRST_VOTER_INDEX` overflows, makes the check panic. -/
theorem checkPowSortitionId_eq_none {block : Block H T} {config : SortitionConfig} {sortitionId : Nat}
    {content : VoterContent H}
    (hashed : config.sortitionHash (AsU256.asU256 block.hash) (AsU256.asU256 block.header.difficulty) =
      some (some sortitionId))
    (voter : block.content = .voter content) (top : 2 ^ 16 ≤ content.chainNumber + firstVoterIndex) :
    checkPowSortitionId block config = none := by
  simp [checkPowSortitionId, hashed, voter, Checked.add_of_le top]

section Proof

variable (hashPair : H → H → H) [Hashable (Content H T) H] [DecidableEq H]

/-- `check_sortition_proof`: the content's Merkle proof against the header's
root, at the slot the hash selects, among `voter_chains + FIRST_VOTER_INDEX`
leaves, a `u16` sum.  It runs after `check_pow_sortition_id`, so a hash that
selects no slot is `unreachable!`. -/
def checkSortitionProof (block : Block H T) (config : SortitionConfig) : Option (BlockResult H) := do
  let sortitionId ← config.sortitionHash (AsU256.asU256 block.hash) (AsU256.asU256 block.header.difficulty)
  match sortitionId with
  | some sortitionId => do
      let leafSize ← Checked.add 16 config.voterChains firstVoterIndex
      let verified ← MerkleTree.verify hashPair block.header.contentMerkleRoot (Hashable.hash block.content)
        block.sortitionProof sortitionId leafSize
      if !verified then
        some (.wrongSortitionProof block.header.contentMerkleRoot (Hashable.hash block.content)
          block.sortitionProof sortitionId leafSize)
      else some .pass
  | none => none

variable {block : Block H T} {config : SortitionConfig} {sortitionId : Nat}

/-- Where the leaf count fits a `u16`, the check passes when `verify` accepts
the block's proof at the slot its hash selects. -/
theorem checkSortitionProof_eq_pass
    (hashed : config.sortitionHash (AsU256.asU256 block.hash) (AsU256.asU256 block.header.difficulty) =
      some (some sortitionId))
    (fits : config.voterChains + firstVoterIndex < 2 ^ 16)
    (verified : MerkleTree.verify hashPair block.header.contentMerkleRoot (Hashable.hash block.content)
      block.sortitionProof sortitionId (config.voterChains + firstVoterIndex) = some true) :
    checkSortitionProof hashPair block config = some .pass := by
  simp [checkSortitionProof, hashed, Checked.add_of_lt fits, verified]

end Proof

end Validation

/-- A number read as a 256-bit hash: its low 256 bits. -/
instance natAsU256 : AsU256 Nat where
  asU256 hash := hash % 2 ^ 256
  asU256_lt hash := Nat.mod_lt hash (Nat.two_pow_pos 256)

/-- One voter chain; the proposer and transaction widths one each, and the
voter chain the rest of `SORTITION_PRECISION`. -/
def narrowConfig : SortitionConfig where
  voterChains := 1
  proposerSortitionWidth := 1
  txSortitionWidth := 1
  voterSortitionWidth := 2 ^ 64 - 3
  voterChains_lt := by decide
  voterSortitionWidth_lt := by decide
  widths_sum := by decide

/-- A voter block claiming chain `65534`, with hash `0` (its nonce) and
difficulty `2 ^ 64 - 1`. -/
def topVoterBlock : Block Nat Nat where
  header := ⟨0, 0, 0, 0, [], 2 ^ 64 - 1⟩
  content := .voter ⟨65534, 1, []⟩
  sortitionProof := []

/-- With one voter chain, the hash of this block selects the proposer slot,
and the check then overflows adding `FIRST_VOTER_INDEX` to the chain number:
it panics in a build with overflow checks. -/
theorem checkPowSortitionId_overflows :
    1 ≤ narrowConfig.voterChains ∧ narrowConfig.voterChains ≤ 2 ^ 16 - 1 - firstVoterIndex ∧
      narrowConfig.sortitionHash (AsU256.asU256 topVoterBlock.hash) (AsU256.asU256 topVoterBlock.header.difficulty) =
        some (some proposerIndex) ∧
      Validation.checkPowSortitionId topVoterBlock narrowConfig = none := by
  decide

end Prism
