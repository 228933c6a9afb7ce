import Prism.Block
import Prism.Library.VecSet
import Mathlib.Data.Finset.Basic

/-!
# The blockchain indices

The state of `blockchain::BlockChain`: fifteen RocksDB column families, each a
partial map, and the in-memory fields behind its mutexes.  The merge
operators of the column families are modelled as the functions of
`blockchain/mod.rs`; a `merge_cf` write becomes the full merge of the stored
value with that one operand, which is what RocksDB computes when it applies
the operands in write order (`voteVecFullMerge_append` and
`voteVecFullMerge_partialMerge` below).

Hashes are an arbitrary type with decidable equality, levels, chain numbers,
counts and timestamps are natural numbers: the `u16` chain numbers stay below
`voter_chains`, and the `u64` counters count blocks.
-/

namespace Prism

/-- The two quantiles of the confirmation rule: `quantile_epsilon_confirm`
and `quantile_epsilon_deconfirm` of `BlockchainConfig`. -/
inductive Quantile
  | confirm
  | deconfirm
  deriving DecidableEq, Repr

/-- The part of `config::BlockchainConfig` that the blockchain reads: the number
of voter chains, a `u16`, and the genesis hashes, which `BlockchainConfig::new`
derives from distinct chain indices. -/
structure BlockchainConfig (H : Type) where
  /-- Number of voter chains. -/
  voterChains : Nat
  /-- Hash of the proposer genesis block. -/
  proposerGenesis : H
  /-- Hashes of the voter genesis blocks, one per chain. -/
  voterGenesis : List H
  /-- `voter_chains` is a `u16`. -/
  voterChains_lt : voterChains < 65536
  /-- One voter genesis block per chain. -/
  length_voterGenesis : voterGenesis.length = voterChains
  /-- The genesis hashes are pairwise distinct. -/
  nodup_genesis : (proposerGenesis :: voterGenesis).Nodup

/-- The floating-point part of `BlockChain::proposer_leader`, the confirmation
rule run once more than three fifths of the voter chains have voted on a
level.  It sees the quantile, the proposer blocks of the level, the depth of
every vote on each of them and the two vote totals, and either picks a leader
among the blocks or none.  Every result below holds for every such rule. -/
structure ConfirmationPolicy (H : Type) where
  /-- The leader the rule picks, if any. -/
  select : Quantile → List H → List (H × List Nat) → Nat → Nat → Option H
  /-- The rule only picks a block of the level (`new_leader = Some(*block)`). -/
  select_mem : ∀ quantile blocks depths voteBlocks voteCount leader,
    select quantile blocks depths voteBlocks voteCount = some leader → leader ∈ blocks

/-- `blockchain::BlockChain`: the column families, as partial maps, and the
in-memory fields. -/
structure BlockChain (H : Type) where
  /-- The configuration. -/
  config : BlockchainConfig H
  /-- `PROPOSER_NODE_LEVEL`: level of each proposer block. -/
  proposerNodeLevel : H → Option Nat
  /-- `VOTER_NODE_LEVEL`: level of each voter block on its chain. -/
  voterNodeLevel : H → Option Nat
  /-- `VOTER_NODE_CHAIN`: chain number of each voter block. -/
  voterNodeChain : H → Option Nat
  /-- `VOTER_TREE_LEVEL_COUNT`: number of voter blocks at a chain and level. -/
  voterTreeLevelCount : Nat × Nat → Option Nat
  /-- `PROPOSER_TREE_LEVEL`: the proposer blocks of each level. -/
  proposerTreeLevel : Nat → Option (List H)
  /-- `VOTER_NODE_VOTED_LEVEL`: deepest proposer level a voter block has voted. -/
  voterNodeVotedLevel : H → Option Nat
  /-- `PROPOSER_NODE_VOTE`: chain number and voter level of the main-chain
  votes on each proposer block. -/
  proposerNodeVote : H → Option (List (Nat × Nat))
  /-- `PROPOSER_LEADER_SEQUENCE`: the leader of each level. -/
  proposerLeaderSequence : Nat → Option H
  /-- `PROPOSER_LEDGER_ORDER`: the proposer blocks confirmed by each level's
  leader, in ledger order, the leader included. -/
  proposerLedgerOrder : Nat → Option (List H)
  /-- `PROPOSER_VOTE_COUNT`: number of votes on each proposer block. -/
  proposerVoteCount : H → Option Nat
  /-- `GRAPH_PARENT_NEIGHBOR`: the proposer parent of each block. -/
  parentNeighbor : H → Option H
  /-- `GRAPH_VOTE_NEIGHBOR`: the proposer blocks each voter block votes for. -/
  voteNeighbor : H → Option (List H)
  /-- `GRAPH_VOTER_PARENT_NEIGHBOR`: the voter parent of each voter block. -/
  voterParentNeighbor : H → Option H
  /-- `GRAPH_TRANSACTION_REF_NEIGHBOR`: transaction references of proposer blocks. -/
  transactionRefNeighbor : H → Option (List H)
  /-- `GRAPH_PROPOSER_REF_NEIGHBOR`: parent and proposer references of proposer blocks. -/
  proposerRefNeighbor : H → Option (List H)
  /-- `proposer_best_level`. -/
  proposerBestLevel : Nat
  /-- `voter_best`: best block and its level, for each chain. -/
  voterBest : List (H × Nat)
  /-- `unreferred_transactions`, with the timestamps. -/
  unreferredTransactions : H → Option Nat
  /-- `unreferred_proposers`, with the timestamps. -/
  unreferredProposers : H → Option Nat
  /-- `unconfirmed_proposers`. -/
  unconfirmedProposers : Finset H
  /-- `proposer_ledger_tip`. -/
  proposerLedgerTip : Nat
  /-- `voter_ledger_tips`: the voter block of each chain whose votes the
  vote table holds. -/
  voterLedgerTips : List H

variable {H : Type} [DecidableEq H]

/-! ## Merge operators -/

/-- `h256_vec_append_merge`: append each operand hash that is not there yet. -/
def h256VecAppendMerge (existing : Option (List H)) (operands : List (List H)) : List H :=
  operands.foldl (fun acc newHashes => newHashes.foldl List.pushIfAbsent acc) (existing.getD [])

/-- `u64_plus_merge`: add up the operands. -/
def u64PlusMerge (existing : Option Nat) (operands : List Nat) : Nat :=
  operands.foldl (· + ·) (existing.getD 0)

/-- One operation `(add, chain, level)` of `vote_vec_full_merge`: an addition
pushes the pair if it is absent, a removal finds the pair and swap-removes it,
and a removal of an absent pair is the `unreachable!()`. -/
def voteOperation (existing : List (Nat × Nat)) : Bool × Nat × Nat → Option (List (Nat × Nat))
  | (true, chain, level) => some (existing.pushIfAbsent (chain, level))
  | (false, chain, level) =>
      match existing.findIdx? (fun x => x.1 == chain && x.2 == level) with
      | some position => existing.swapRemove position
      | none => none

/-- `vote_vec_full_merge`. -/
def voteVecFullMerge (existing : Option (List (Nat × Nat)))
    (operands : List (List (Bool × Nat × Nat))) : Option (List (Nat × Nat)) :=
  operands.foldlM (fun acc operations => operations.foldlM voteOperation acc) (existing.getD [])

/-- `vote_vec_partial_merge`: concatenate the operands. -/
def voteVecPartialMerge (operands : List (List (Bool × Nat × Nat))) : List (Bool × Nat × Nat) :=
  operands.flatten

/-- Full merges of consecutive operand lists compose: applying the operands one
write at a time is the same as merging them at once. -/
theorem voteVecFullMerge_append (existing : Option (List (Nat × Nat)))
    (first second : List (List (Bool × Nat × Nat))) :
    voteVecFullMerge existing (first ++ second) =
      (voteVecFullMerge existing first).bind (fun merged => voteVecFullMerge (some merged) second) := by
  simp [voteVecFullMerge, List.foldlM_append]

/-- A partial merge changes nothing about the final value. -/
theorem voteVecFullMerge_partialMerge (existing : Option (List (Nat × Nat)))
    (operands : List (List (Bool × Nat × Nat))) :
    voteVecFullMerge existing [voteVecPartialMerge operands] = voteVecFullMerge existing operands := by
  unfold voteVecFullMerge voteVecPartialMerge
  generalize existing.getD [] = start
  induction operands generalizing start with
  | nil => rfl
  | cons operations rest inductionHypothesis =>
      simp only [List.flatten_cons, List.foldlM_cons, List.foldlM_nil, List.foldlM_append] at *
      cases firstPart : operations.foldlM voteOperation start with
      | none => rfl
      | some merged =>
          simp only [Option.bind_eq_bind, Option.bind_some]
          simpa using inductionHypothesis merged

/-- A full merge with one operand of one operation is that operation. -/
@[simp] theorem voteVecFullMerge_single (existing : Option (List (Nat × Nat))) (operation : Bool × Nat × Nat) :
    voteVecFullMerge existing [[operation]] = voteOperation (existing.getD []) operation := by
  simp only [voteVecFullMerge, List.foldlM_cons, List.foldlM_nil, Option.bind_eq_bind]
  cases voteOperation (existing.getD []) operation <;> rfl

/-- Appending a vote through the merge operator. -/
theorem voteOperation_add (existing : List (Nat × Nat)) (chain level : Nat) :
    voteOperation existing (true, chain, level) = some (existing.pushIfAbsent (chain, level)) := rfl

/-- Removing a vote through the merge operator: it succeeds exactly when the
pair is present, and on a duplicate-free list it takes out that pair only. -/
theorem voteOperation_remove {existing : List (Nat × Nat)} {chain level : Nat}
    (distinct : existing.Nodup) (member : (chain, level) ∈ existing) :
    ∃ result, voteOperation existing (false, chain, level) = some result ∧ result.Nodup ∧
      ∀ pair, pair ∈ result ↔ pair ∈ existing ∧ pair ≠ (chain, level) := by
  have position : existing.findIdx? (fun x => x.1 == chain && x.2 == level) =
      some (existing.idxOf (chain, level)) :=
    List.findIdx?_beq_eq_some_idxOf member
  obtain ⟨result, removed, resultDistinct, resultMem⟩ := List.swapRemove_idxOf distinct member
  exact ⟨result, by simp [voteOperation, position, removed], resultDistinct, resultMem⟩

theorem voteOperation_remove_absent {existing : List (Nat × Nat)} {chain level : Nat}
    (absent : (chain, level) ∉ existing) :
    voteOperation existing (false, chain, level) = none := by
  have position : existing.findIdx? (fun x => x.1 == chain && x.2 == level) = none :=
    List.findIdx?_beq_eq_none absent
  simp [voteOperation, position]

/-! ## `BlockChain::new` -/

namespace BlockChain

/-- The proposer genesis writes of `BlockChain::new`, on the fields that
`BlockChain::open` fills with default values. -/
def genesis [Inhabited H] (config : BlockchainConfig H) : BlockChain H where
  config := config
  proposerNodeLevel := Function.update (fun _ => none) config.proposerGenesis (some 0)
  voterNodeLevel := fun _ => none
  voterNodeChain := fun _ => none
  voterTreeLevelCount := fun _ => none
  proposerTreeLevel :=
    Function.update (fun _ => none) 0 (some (h256VecAppendMerge none [[config.proposerGenesis]]))
  voterNodeVotedLevel := fun _ => none
  proposerNodeVote := fun _ => none
  proposerLeaderSequence := Function.update (fun _ => none) 0 (some config.proposerGenesis)
  proposerLedgerOrder := Function.update (fun _ => none) 0 (some [config.proposerGenesis])
  proposerVoteCount := fun _ => none
  parentNeighbor := fun _ => none
  voteNeighbor := fun _ => none
  voterParentNeighbor := fun _ => none
  transactionRefNeighbor := Function.update (fun _ => none) config.proposerGenesis (some [])
  proposerRefNeighbor := Function.update (fun _ => none) config.proposerGenesis (some [])
  proposerBestLevel := 0
  voterBest := List.replicate config.voterChains (default, 0)
  unreferredTransactions := fun _ => none
  unreferredProposers := Function.update (fun _ => none) config.proposerGenesis (some 0)
  unconfirmedProposers := ∅
  proposerLedgerTip := 0
  voterLedgerTips := List.replicate config.voterChains default

/-- The writes of `BlockChain::new` for the genesis block of one voter chain. -/
def addVoterGenesis (chain : BlockChain H) (voterGenesis : H) (chainNum : Nat) : BlockChain H :=
  let proposerGenesis := chain.config.proposerGenesis
  { chain with
    parentNeighbor := Function.update chain.parentNeighbor voterGenesis (some proposerGenesis)
    voteNeighbor := Function.update chain.voteNeighbor voterGenesis
      (some (h256VecAppendMerge (chain.voteNeighbor voterGenesis) [[proposerGenesis]]))
    proposerVoteCount := Function.update chain.proposerVoteCount proposerGenesis
      (some (u64PlusMerge (chain.proposerVoteCount proposerGenesis) [1]))
    -- the operand `(true, chain_num, 0)` is an addition, which the full merge
    -- applies by pushing the pair if it is absent
    proposerNodeVote := Function.update chain.proposerNodeVote proposerGenesis
      (some (((chain.proposerNodeVote proposerGenesis).getD []).pushIfAbsent (chainNum, 0)))
    voterNodeLevel := Function.update chain.voterNodeLevel voterGenesis (some 0)
    voterNodeVotedLevel := Function.update chain.voterNodeVotedLevel voterGenesis (some 0)
    voterNodeChain := Function.update chain.voterNodeChain voterGenesis (some chainNum)
    voterTreeLevelCount := Function.update chain.voterTreeLevelCount (chainNum, 0)
      (some (u64PlusMerge (chain.voterTreeLevelCount (chainNum, 0)) [1]))
    voterBest := chain.voterBest.set chainNum (voterGenesis, (chain.voterBest.getD chainNum (voterGenesis, 0)).2)
    voterLedgerTips := chain.voterLedgerTips.set chainNum voterGenesis }

/-- The loop `for chain_num in 0..voter_chains` of `BlockChain::new`, over the
voter genesis blocks from the chain numbered `chainNum` on. -/
def addVoterGeneses (chain : BlockChain H) : List H → Nat → BlockChain H
  | [], _ => chain
  | voterGenesis :: rest, chainNum =>
      (chain.addVoterGenesis voterGenesis chainNum).addVoterGeneses rest (chainNum + 1)

/-- `BlockChain::new`: the proposer genesis block, then the genesis block of
each voter chain in chain order. -/
def new [Inhabited H] (config : BlockchainConfig H) : BlockChain H :=
  (genesis config).addVoterGeneses config.voterGenesis 0

/-! ### Closed forms of `new` -/

@[simp] theorem addVoterGenesis_config (chain : BlockChain H) (voterGenesis : H) (chainNum : Nat) :
    (chain.addVoterGenesis voterGenesis chainNum).config = chain.config := rfl

/-- A field that `addVoterGenesis` leaves alone keeps its value through the loop. -/
theorem addVoterGeneses_field {α : Type} (field : BlockChain H → α)
    (untouched : ∀ chain voterGenesis chainNum, field (chain.addVoterGenesis voterGenesis chainNum) = field chain) :
    ∀ (voterGenesis : List H) (chain : BlockChain H) (chainNum : Nat),
      field (chain.addVoterGeneses voterGenesis chainNum) = field chain := by
  intro voterGenesis
  induction voterGenesis with
  | nil => intro chain chainNum; rfl
  | cons first rest inductionHypothesis =>
      intro chain chainNum
      rw [addVoterGeneses, inductionHypothesis, untouched]

/-- A field that `addVoterGenesis` leaves alone keeps its `genesis` value in `new`. -/
theorem new_field [Inhabited H] {α : Type} (field : BlockChain H → α) (config : BlockchainConfig H)
    (untouched : ∀ chain voterGenesis chainNum, field (chain.addVoterGenesis voterGenesis chainNum) = field chain) :
    field (new config) = field (genesis config) :=
  addVoterGeneses_field field untouched _ _ _

section Loop

/-- The loop writes the level of every voter genesis block. -/
theorem addVoterGeneses_voterNodeLevel :
    ∀ (voterGenesis : List H) (chain : BlockChain H) (chainNum : Nat) (hash : H),
      (chain.addVoterGeneses voterGenesis chainNum).voterNodeLevel hash =
        if hash ∈ voterGenesis then some 0 else chain.voterNodeLevel hash := by
  intro voterGenesis
  induction voterGenesis with
  | nil => intro chain chainNum hash; simp [addVoterGeneses]
  | cons first rest inductionHypothesis =>
      intro chain chainNum hash
      rw [addVoterGeneses, inductionHypothesis]
      by_cases same : hash = first <;> simp [addVoterGenesis, same]

/-- The loop writes the voted level of every voter genesis block. -/
theorem addVoterGeneses_voterNodeVotedLevel :
    ∀ (voterGenesis : List H) (chain : BlockChain H) (chainNum : Nat) (hash : H),
      (chain.addVoterGeneses voterGenesis chainNum).voterNodeVotedLevel hash =
        if hash ∈ voterGenesis then some 0 else chain.voterNodeVotedLevel hash := by
  intro voterGenesis
  induction voterGenesis with
  | nil => intro chain chainNum hash; simp [addVoterGeneses]
  | cons first rest inductionHypothesis =>
      intro chain chainNum hash
      rw [addVoterGeneses, inductionHypothesis]
      by_cases same : hash = first <;> simp [addVoterGenesis, same]

/-- The loop writes the proposer genesis block as the parent of every voter
genesis block. -/
theorem addVoterGeneses_parentNeighbor :
    ∀ (voterGenesis : List H) (chain : BlockChain H) (chainNum : Nat) (hash : H),
      (chain.addVoterGeneses voterGenesis chainNum).parentNeighbor hash =
        if hash ∈ voterGenesis then some chain.config.proposerGenesis else chain.parentNeighbor hash := by
  intro voterGenesis
  induction voterGenesis with
  | nil => intro chain chainNum hash; simp [addVoterGeneses]
  | cons first rest inductionHypothesis =>
      intro chain chainNum hash
      rw [addVoterGeneses, inductionHypothesis]
      by_cases same : hash = first <;> simp [addVoterGenesis, same]

/-- The loop merges a vote for the proposer genesis block into the votes of
every voter genesis block. -/
theorem addVoterGeneses_voteNeighbor :
    ∀ (voterGenesis : List H) (chain : BlockChain H) (chainNum : Nat) (hash : H),
      (chain.addVoterGeneses voterGenesis chainNum).voteNeighbor hash =
        if hash ∈ voterGenesis then
          some (((chain.voteNeighbor hash).getD []).pushIfAbsent chain.config.proposerGenesis)
        else chain.voteNeighbor hash := by
  intro voterGenesis
  induction voterGenesis with
  | nil => intro chain chainNum hash; simp [addVoterGeneses]
  | cons first rest inductionHypothesis =>
      intro chain chainNum hash
      rw [addVoterGeneses, inductionHypothesis]
      by_cases same : hash = first
      · subst same
        -- a second merge of the same vote finds it there
        have pushed : ∀ votes : List H, chain.config.proposerGenesis ∈
            votes.pushIfAbsent chain.config.proposerGenesis := fun votes => by simp
        by_cases again : hash ∈ rest <;>
          simp [addVoterGenesis, h256VecAppendMerge, again, List.pushIfAbsent_of_mem (pushed _)]
      · simp [addVoterGenesis, same]

/-- Without duplicate voter genesis blocks, the loop writes the chain number of
each as its position. -/
theorem addVoterGeneses_voterNodeChain :
    ∀ (voterGenesis : List H), voterGenesis.Nodup → ∀ (chain : BlockChain H) (chainNum : Nat) (hash : H),
      (chain.addVoterGeneses voterGenesis chainNum).voterNodeChain hash =
        if hash ∈ voterGenesis then some (chainNum + voterGenesis.idxOf hash)
        else chain.voterNodeChain hash := by
  intro voterGenesis
  induction voterGenesis with
  | nil => intro _ chain chainNum hash; simp [addVoterGeneses]
  | cons first rest inductionHypothesis =>
      intro distinct chain chainNum hash
      have firstFresh : first ∉ rest := (List.nodup_cons.mp distinct).1
      rw [addVoterGeneses, inductionHypothesis (List.nodup_cons.mp distinct).2]
      by_cases same : hash = first
      · subst same
        simp [addVoterGenesis, firstFresh]
      · by_cases later : hash ∈ rest
        · simp [same, later, List.idxOf_cons_ne _ (Ne.symm same)]
          omega
        · simp [addVoterGenesis, same, later]

/-- The loop counts one voter block at level zero of each chain it goes over. -/
theorem addVoterGeneses_voterTreeLevelCount :
    ∀ (voterGenesis : List H) (chain : BlockChain H) (chainNum : Nat) (key : Nat × Nat),
      (chain.addVoterGeneses voterGenesis chainNum).voterTreeLevelCount key =
        if key.2 = 0 ∧ chainNum ≤ key.1 ∧ key.1 < chainNum + voterGenesis.length then
          some ((chain.voterTreeLevelCount key).getD 0 + 1)
        else chain.voterTreeLevelCount key := by
  intro voterGenesis
  induction voterGenesis with
  | nil => intro chain chainNum key; simp [addVoterGeneses]
  | cons first rest inductionHypothesis =>
      intro chain chainNum key
      rw [addVoterGeneses, inductionHypothesis]
      obtain ⟨keyChain, keyLevel⟩ := key
      by_cases here : keyLevel = 0 ∧ keyChain = chainNum
      · obtain ⟨rfl, rfl⟩ := here
        simp [addVoterGenesis, u64PlusMerge]
      · have notHere : (keyChain, keyLevel) ≠ (chainNum, 0) := by
          intro same
          simp only [Prod.mk.injEq] at same
          omega
        simp only [addVoterGenesis, Function.update_of_ne notHere, List.length_cons]
        by_cases inRange : keyLevel = 0 ∧ chainNum + 1 ≤ keyChain ∧ keyChain < chainNum + 1 + rest.length
        · rw [if_pos inRange, if_pos (by omega)]
        · rw [if_neg inRange, if_neg (by omega)]

/-- The loop counts one vote on the proposer genesis block for each voter
genesis block. -/
theorem addVoterGeneses_proposerVoteCount :
    ∀ (voterGenesis : List H) (chain : BlockChain H) (chainNum : Nat) (hash : H),
      (chain.addVoterGeneses voterGenesis chainNum).proposerVoteCount hash =
        if hash = chain.config.proposerGenesis ∧ voterGenesis ≠ [] then
          some ((chain.proposerVoteCount hash).getD 0 + voterGenesis.length)
        else chain.proposerVoteCount hash := by
  intro voterGenesis
  induction voterGenesis with
  | nil => intro chain chainNum hash; simp [addVoterGeneses]
  | cons first rest inductionHypothesis =>
      intro chain chainNum hash
      rw [addVoterGeneses, inductionHypothesis]
      by_cases same : hash = chain.config.proposerGenesis
      · subst same
        cases rest with
        | nil => simp [addVoterGenesis, u64PlusMerge]
        | cons second rest => simp [addVoterGenesis, u64PlusMerge]; omega
      · simp [addVoterGenesis, same]

/-- The loop appends the vote `(chain_num, 0)` of each voter genesis block to
the vote table entry of the proposer genesis block, when no vote there comes
from a chain it goes over. -/
theorem addVoterGeneses_proposerNodeVote :
    ∀ (voterGenesis : List H) (chain : BlockChain H) (chainNum : Nat),
      (∀ vote ∈ (chain.proposerNodeVote chain.config.proposerGenesis).getD [], vote.1 < chainNum) →
      ∀ hash, (chain.addVoterGeneses voterGenesis chainNum).proposerNodeVote hash =
        if hash = chain.config.proposerGenesis ∧ voterGenesis ≠ [] then
          some ((chain.proposerNodeVote hash).getD [] ++
            (List.range' chainNum voterGenesis.length).map (·, 0))
        else chain.proposerNodeVote hash := by
  intro voterGenesis
  induction voterGenesis with
  | nil => intro chain chainNum _ hash; simp [addVoterGeneses]
  | cons first rest inductionHypothesis =>
      intro chain chainNum earlier hash
      -- the pair `(chain_num, 0)` is new, so the merge appends it
      have appended : ((chain.proposerNodeVote chain.config.proposerGenesis).getD []).pushIfAbsent
          (chainNum, 0) = (chain.proposerNodeVote chain.config.proposerGenesis).getD [] ++ [(chainNum, 0)] := by
        have absent : (chainNum, 0) ∉ (chain.proposerNodeVote chain.config.proposerGenesis).getD [] := by
          intro member
          have := earlier _ member
          omega
        simp [List.pushIfAbsent, absent]
      have laterEarlier : ∀ vote ∈ ((chain.addVoterGenesis first chainNum).proposerNodeVote
          chain.config.proposerGenesis).getD [], vote.1 < chainNum + 1 := by
        intro vote member
        simp only [addVoterGenesis, Function.update_self, Option.getD_some, appended,
          List.mem_append, List.mem_singleton] at member
        rcases member with older | rfl
        · have := earlier vote older
          omega
        · simp
      rw [addVoterGeneses, inductionHypothesis _ _ laterEarlier]
      by_cases same : hash = chain.config.proposerGenesis
      · subst same
        cases rest with
        | nil => simp [addVoterGenesis, appended]
        | cons second rest =>
            simp [addVoterGenesis, appended, List.range'_succ]
      · simp [addVoterGenesis, same]

/-- From a `voter_best` whose unvisited entries are at level zero, the loop
makes the genesis block of each chain its best block. -/
theorem addVoterGeneses_voterBest :
    ∀ (voterGenesis : List H) (chain : BlockChain H) (done : List (H × Nat)) (default : H) (extra : Nat),
      chain.voterBest = done ++ List.replicate (voterGenesis.length + extra) (default, 0) →
      (chain.addVoterGeneses voterGenesis done.length).voterBest =
        done ++ voterGenesis.map (·, 0) ++ List.replicate extra (default, 0) := by
  intro voterGenesis
  induction voterGenesis with
  | nil => intro chain done default extra bestEq; simpa [addVoterGeneses] using bestEq
  | cons first rest inductionHypothesis =>
      intro chain done default extra bestEq
      have stepped : (chain.addVoterGenesis first done.length).voterBest =
          (done ++ [(first, 0)]) ++ List.replicate (rest.length + extra) (default, 0) := by
        have shape : rest.length + 1 + extra = (rest.length + extra) + 1 := by omega
        simp only [addVoterGenesis, bestEq, List.length_cons, shape, List.replicate_succ]
        simp [List.getD_eq_getElem?_getD, List.set_append_right]
      have next := inductionHypothesis _ _ default extra stepped
      rw [List.length_append, List.length_singleton] at next
      rw [addVoterGeneses, next]
      simp

/-- The loop makes the genesis block of each chain its ledger tip. -/
theorem addVoterGeneses_voterLedgerTips :
    ∀ (voterGenesis : List H) (chain : BlockChain H) (done : List H) (default : H) (extra : Nat),
      chain.voterLedgerTips = done ++ List.replicate (voterGenesis.length + extra) default →
      (chain.addVoterGeneses voterGenesis done.length).voterLedgerTips =
        done ++ voterGenesis ++ List.replicate extra default := by
  intro voterGenesis
  induction voterGenesis with
  | nil => intro chain done default extra tipsEq; simpa [addVoterGeneses] using tipsEq
  | cons first rest inductionHypothesis =>
      intro chain done default extra tipsEq
      have stepped : (chain.addVoterGenesis first done.length).voterLedgerTips =
          (done ++ [first]) ++ List.replicate (rest.length + extra) default := by
        have shape : rest.length + 1 + extra = (rest.length + extra) + 1 := by omega
        simp only [addVoterGenesis, tipsEq, List.length_cons, shape, List.replicate_succ]
        simp [List.set_append_right]
      have next := inductionHypothesis _ _ default extra stepped
      rw [List.length_append, List.length_singleton] at next
      rw [addVoterGeneses, next]
      simp

end Loop

@[simp] theorem new_config [Inhabited H] (config : BlockchainConfig H) :
    (new config).config = config :=
  new_field BlockChain.config config (fun _ _ _ => rfl)

@[simp] theorem new_proposerNodeLevel [Inhabited H] (config : BlockchainConfig H) :
    (new config).proposerNodeLevel = Function.update (fun _ => none) config.proposerGenesis (some 0) :=
  new_field BlockChain.proposerNodeLevel config (fun _ _ _ => rfl)

@[simp] theorem new_proposerTreeLevel [Inhabited H] (config : BlockchainConfig H) :
    (new config).proposerTreeLevel =
      Function.update (fun _ : Nat => (none : Option (List H))) 0 (some [config.proposerGenesis]) :=
  new_field BlockChain.proposerTreeLevel config (fun _ _ _ => rfl)

@[simp] theorem new_proposerLeaderSequence [Inhabited H] (config : BlockchainConfig H) :
    (new config).proposerLeaderSequence = Function.update (fun _ => none) 0 (some config.proposerGenesis) :=
  new_field BlockChain.proposerLeaderSequence config (fun _ _ _ => rfl)

@[simp] theorem new_proposerLedgerOrder [Inhabited H] (config : BlockchainConfig H) :
    (new config).proposerLedgerOrder =
      Function.update (fun _ : Nat => (none : Option (List H))) 0 (some [config.proposerGenesis]) :=
  new_field BlockChain.proposerLedgerOrder config (fun _ _ _ => rfl)

@[simp] theorem new_transactionRefNeighbor [Inhabited H] (config : BlockchainConfig H) :
    (new config).transactionRefNeighbor = Function.update (fun _ => none) config.proposerGenesis (some []) :=
  new_field BlockChain.transactionRefNeighbor config (fun _ _ _ => rfl)

@[simp] theorem new_proposerRefNeighbor [Inhabited H] (config : BlockchainConfig H) :
    (new config).proposerRefNeighbor = Function.update (fun _ => none) config.proposerGenesis (some []) :=
  new_field BlockChain.proposerRefNeighbor config (fun _ _ _ => rfl)

@[simp] theorem new_voterParentNeighbor [Inhabited H] (config : BlockchainConfig H) :
    (new config).voterParentNeighbor = fun _ => none :=
  new_field BlockChain.voterParentNeighbor config (fun _ _ _ => rfl)

@[simp] theorem new_proposerBestLevel [Inhabited H] (config : BlockchainConfig H) :
    (new config).proposerBestLevel = 0 :=
  new_field BlockChain.proposerBestLevel config (fun _ _ _ => rfl)

@[simp] theorem new_unreferredTransactions [Inhabited H] (config : BlockchainConfig H) :
    (new config).unreferredTransactions = fun _ => none :=
  new_field BlockChain.unreferredTransactions config (fun _ _ _ => rfl)

@[simp] theorem new_unreferredProposers [Inhabited H] (config : BlockchainConfig H) :
    (new config).unreferredProposers = Function.update (fun _ => none) config.proposerGenesis (some 0) :=
  new_field BlockChain.unreferredProposers config (fun _ _ _ => rfl)

@[simp] theorem new_unconfirmedProposers [Inhabited H] (config : BlockchainConfig H) :
    (new config).unconfirmedProposers = ∅ :=
  new_field BlockChain.unconfirmedProposers config (fun _ _ _ => rfl)

@[simp] theorem new_proposerLedgerTip [Inhabited H] (config : BlockchainConfig H) :
    (new config).proposerLedgerTip = 0 :=
  new_field BlockChain.proposerLedgerTip config (fun _ _ _ => rfl)

/-- The voter genesis blocks are at level zero. -/
@[simp] theorem new_voterNodeLevel [Inhabited H] (config : BlockchainConfig H) (hash : H) :
    (new config).voterNodeLevel hash = if hash ∈ config.voterGenesis then some 0 else none := by
  simp [new, addVoterGeneses_voterNodeLevel, genesis]

/-- The voter genesis blocks have voted up to level zero. -/
@[simp] theorem new_voterNodeVotedLevel [Inhabited H] (config : BlockchainConfig H) (hash : H) :
    (new config).voterNodeVotedLevel hash = if hash ∈ config.voterGenesis then some 0 else none := by
  simp [new, addVoterGeneses_voterNodeVotedLevel, genesis]

/-- The parent of every voter genesis block is the proposer genesis block. -/
@[simp] theorem new_parentNeighbor [Inhabited H] (config : BlockchainConfig H) (hash : H) :
    (new config).parentNeighbor hash =
      if hash ∈ config.voterGenesis then some config.proposerGenesis else none := by
  simp [new, addVoterGeneses_parentNeighbor, genesis]

/-- Every voter genesis block votes for the proposer genesis block. -/
@[simp] theorem new_voteNeighbor [Inhabited H] (config : BlockchainConfig H) (hash : H) :
    (new config).voteNeighbor hash =
      if hash ∈ config.voterGenesis then some [config.proposerGenesis] else none := by
  simp [new, addVoterGeneses_voteNeighbor, genesis, List.pushIfAbsent]

/-- The chain number of a voter genesis block is its position. -/
@[simp] theorem new_voterNodeChain [Inhabited H] (config : BlockchainConfig H) (hash : H) :
    (new config).voterNodeChain hash =
      if hash ∈ config.voterGenesis then some (config.voterGenesis.idxOf hash) else none := by
  have distinct := (List.nodup_cons.mp config.nodup_genesis).2
  simp [new, addVoterGeneses_voterNodeChain _ distinct, genesis]

/-- Each chain has one voter block, at level zero. -/
@[simp] theorem new_voterTreeLevelCount [Inhabited H] (config : BlockchainConfig H) (key : Nat × Nat) :
    (new config).voterTreeLevelCount key =
      if key.2 = 0 ∧ key.1 < config.voterChains then some 1 else none := by
  simp [new, addVoterGeneses_voterTreeLevelCount, genesis, config.length_voterGenesis]

/-- The proposer genesis block has one vote from each chain. -/
@[simp] theorem new_proposerVoteCount [Inhabited H] (config : BlockchainConfig H) (hash : H) :
    (new config).proposerVoteCount hash =
      if hash = config.proposerGenesis ∧ config.voterGenesis ≠ [] then some config.voterChains
      else none := by
  simp [new, addVoterGeneses_proposerVoteCount, genesis, config.length_voterGenesis]

/-- The vote table holds the vote of each voter genesis block, at level zero,
on the proposer genesis block. -/
@[simp] theorem new_proposerNodeVote [Inhabited H] (config : BlockchainConfig H) (hash : H) :
    (new config).proposerNodeVote hash =
      if hash = config.proposerGenesis ∧ config.voterGenesis ≠ [] then
        some ((List.range config.voterChains).map (·, 0))
      else none := by
  have noVotes : ∀ vote ∈ ((genesis config).proposerNodeVote
      (genesis config).config.proposerGenesis).getD [], vote.1 < 0 := by
    simp [genesis]
  rw [new, addVoterGeneses_proposerNodeVote _ _ _ noVotes]
  simp [genesis, config.length_voterGenesis, List.range_eq_range']

/-- The best block of each chain is its genesis block. -/
@[simp] theorem new_voterBest [Inhabited H] (config : BlockchainConfig H) :
    (new config).voterBest = config.voterGenesis.map (·, 0) := by
  have start : (genesis config).voterBest =
      [] ++ List.replicate (config.voterGenesis.length + 0) ((default : H), 0) := by
    simp [genesis, config.length_voterGenesis]
  simpa [new] using addVoterGeneses_voterBest config.voterGenesis (genesis config) [] default 0 start

/-- The ledger tip of each chain is its genesis block. -/
@[simp] theorem new_voterLedgerTips [Inhabited H] (config : BlockchainConfig H) :
    (new config).voterLedgerTips = config.voterGenesis := by
  have start : (genesis config).voterLedgerTips =
      [] ++ List.replicate (config.voterGenesis.length + 0) (default : H) := by
    simp [genesis, config.length_voterGenesis]
  simpa [new] using addVoterGeneses_voterLedgerTips config.voterGenesis (genesis config) [] default 0 start

end BlockChain

end Prism
