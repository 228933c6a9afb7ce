import Prism.Blockchain.VoteDiff
import Prism.Blockchain.Leader
import Prism.Library.Traversal
import Prism.Library.OptionFold

/-!
# Updating the ledger

`BlockChain::update_ledger` in its three phases.

1. For every voter chain, the vote table `PROPOSER_NODE_VOTE` moves from the
   chain's ledger tip to its best block: the removed votes of `vote_diff` are
   merged first, then the added ones, and `affected_range` grows to cover the
   proposer levels they touch.
2. The leader of every affected level is recomputed, from the ledger tip's
   next level at the latest; `change_begin` is the first level whose leader
   changes.
3. From `change_begin`, the ledger levels up to the old tip are deconfirmed,
   and, when `change_begin` is at most one past the old tip, the ledger is
   rebuilt level by level until a level without a leader: a depth-first
   traverse from the leader through the references of unconfirmed blocks,
   reversed, and deduplicated by taking each block out of
   `unconfirmed_proposers`.

Each write batch is applied as it is written: no phase reads back a key it
writes in the same batch.  The unbounded loops (`vote_diff`, the rebuild and
its traverse) run on `fuel`.
-/

namespace Prism

namespace BlockChain

variable {H : Type} [DecidableEq H]

/-! ## Phase 1: the vote table -/

/-- `std::u64::MAX`, the start of the empty `affected_range`. -/
def u64Max : Nat := 18446744073709551615

/-- `affected_range` after a vote change on a proposer block of level `level`. -/
def widenRange (range : Nat × Nat) (level : Nat) : Nat × Nat :=
  (if level < range.1 then level else range.1, if level ≥ range.2 then level + 1 else range.2)

/-- `merge_value!(proposer_node_vote_cf, vote.0, vec![(add, chain_num, vote.1)])`
and the range update with the level of the voted block. -/
def mergeVote (chainNum : Nat) (add : Bool) (state : BlockChain H × (Nat × Nat)) (vote : H × Nat) :
    Option (BlockChain H × (Nat × Nat)) := do
  let (chain, range) := state
  let merged ← voteVecFullMerge (chain.proposerNodeVote vote.1) [[(add, chainNum, vote.2)]]
  let proposerLevel ← chain.proposerNodeLevel vote.1
  some ({ chain with proposerNodeVote := Function.update chain.proposerNodeVote vote.1 (some merged) },
    widenRange range proposerLevel)

/-- One iteration of the loop over the voter chains: the chain's ledger tip
moves to its best block, and the vote difference is merged, removals first. -/
def updateChainVotes (fuel : Nat) (state : BlockChain H × (Nat × Nat)) (chainNum : Nat) :
    Option (BlockChain H × (Nat × Nat)) := do
  let (chain, range) := state
  let fromTip ← chain.voterLedgerTips[chainNum]?
  let best ← chain.voterBest[chainNum]?
  let toTip := best.1
  let chain := { chain with voterLedgerTips := chain.voterLedgerTips.set chainNum toTip }
  let (added, removed) ← chain.voteDiff fuel fromTip toTip
  let state ← removed.foldlM (mergeVote chainNum false) (chain, range)
  added.foldlM (mergeVote chainNum true) state

/-- The first phase: the vote table of every chain, and `affected_range`. -/
def updateVotes (fuel : Nat) (chain : BlockChain H) : Option (BlockChain H × (Nat × Nat)) :=
  (List.range chain.config.voterChains).foldlM (updateChainVotes fuel) (chain, (u64Max, 0))

/-! ## Phase 2: the leaders -/

/-- One level of the leader loop: a level with a leader is recomputed with the
deconfirmation quantile, one without with the confirmation quantile, and the
first level whose leader changes is recorded. -/
def updateLeader (policy : ConfirmationPolicy H) (state : BlockChain H × Option Nat) (level : Nat) :
    Option (BlockChain H × Option Nat) := do
  let (chain, changeBegin) := state
  let existingLeader := chain.proposerLeaderSequence level
  let newLeaderConfirm ← chain.proposerLeader policy level .confirm
  let newLeaderDeconfirm ← chain.proposerLeader policy level .deconfirm
  let newLeader := if existingLeader.isSome then newLeaderDeconfirm else newLeaderConfirm
  if newLeader ≠ existingLeader then
    some ({ chain with
        proposerLeaderSequence := Function.update chain.proposerLeaderSequence level newLeader },
      if changeBegin.isNone then some level else changeBegin)
  else some (chain, changeBegin)

/-- The levels of the leader loop: `affected_range`, whose start is lowered
to `proposer_ledger_tip + 1` when the range is not empty. -/
def leaderLevels (tip : Nat) (range : Nat × Nat) : List Nat :=
  let start := if range.1 < range.2 ∧ tip + 1 < range.1 then tip + 1 else range.1
  List.range' start (range.2 - start)

/-- The second phase: the leaders of the affected levels, and `change_begin`. -/
def updateLeaders (policy : ConfirmationPolicy H) (chain : BlockChain H) (range : Nat × Nat) :
    Option (BlockChain H × Option Nat) :=
  (leaderLevels chain.proposerLedgerTip range).foldlM (updateLeader policy) (chain, none)

/-! ## Phase 3: the ledger -/

/-- One level of the deconfirm loop: its ledger is deleted, its blocks become
unconfirmed again and are appended to `removed`. -/
def deconfirmLevel (state : BlockChain H × List H) (level : Nat) : Option (BlockChain H × List H) := do
  let (chain, removed) := state
  let originalLedger ← chain.proposerLedgerOrder level
  some ({ chain with
      proposerLedgerOrder := Function.update chain.proposerLedgerOrder level none
      unconfirmedProposers :=
        originalLedger.foldl (fun unconfirmed block => insert block unconfirmed) chain.unconfirmedProposers },
    removed ++ originalLedger)

/-- The ledger of one level: the depth-first traverse from the leader through
the references of unconfirmed blocks, reversed and filtered through
`unconfirmed_proposers`; with what stays unconfirmed. -/
def confirmLevel (fuel : Nat) (chain : BlockChain H) (leader : H) : Option (List H × Finset H) := do
  let order ← Traversal.run (fun hash => decide (hash ∈ chain.unconfirmedProposers))
    chain.proposerRefNeighbor fuel [leader] []
  some (Traversal.filterRemove chain.unconfirmedProposers order.reverse)

/-- The loop `for level in change_begin..`, for at most `levels` levels: it
stops at the first level without a leader, whose predecessor becomes the
ledger tip. -/
def recomputeLedger (fuel : Nat) : Nat → BlockChain H → Nat → List H → Option (BlockChain H × List H)
  | 0, _, _, _ => none
  | levels + 1, chain, level, added =>
      match chain.proposerLeaderSequence level with
      | none =>
          -- `level - 1` on a `u64`
          if level = 0 then none else some ({ chain with proposerLedgerTip := level - 1 }, added)
      | some leader => do
          let (order, unconfirmed) ← chain.confirmLevel fuel leader
          recomputeLedger fuel levels
            { chain with
              unconfirmedProposers := unconfirmed
              proposerLedgerOrder := Function.update chain.proposerLedgerOrder level (some order) }
            (level + 1) (added ++ order)

/-- The transaction blocks that a list of proposer blocks refers to, in order. -/
def transactionRefs (chain : BlockChain H) (blocks : List H) : Option (List H) :=
  blocks.foldlM (fun refs block => do
    let transactionBlocks ← chain.transactionRefNeighbor block
    some (refs ++ transactionBlocks)) []

/-- `BlockChain::update_ledger`: the new state, with the transaction blocks
added to and removed from the ledger. -/
def updateLedger (policy : ConfirmationPolicy H) (fuel : Nat) (chain : BlockChain H) :
    Option (BlockChain H × List H × List H) := do
  let (chain, range) ← chain.updateVotes fuel
  let (chain, changeBegin) ← chain.updateLeaders policy range
  match changeBegin with
  | none => some (chain, [], [])
  | some changeBegin => do
      let tip := chain.proposerLedgerTip
      let (chain, removed) ←
        (List.range' changeBegin (tip + 1 - changeBegin)).foldlM deconfirmLevel (chain, [])
      let (chain, added) ←
        if changeBegin ≤ tip + 1 then recomputeLedger fuel fuel chain changeBegin []
        else some (chain, [])
      let removedTransactionBlocks ← chain.transactionRefs removed
      let addedTransactionBlocks ← chain.transactionRefs added
      some (chain, addedTransactionBlocks, removedTransactionBlocks)

/-! ## Reading the ledger -/

/-- `BlockChain::proposer_leaders`: the leaders of the levels up to the ledger
tip; a missing one is the `unreachable!()`. -/
def proposerLeaders (chain : BlockChain H) : Option (List H) :=
  (List.range (chain.proposerLedgerTip + 1)).mapM chain.proposerLeaderSequence

/-- `BlockChain::proposer_transaction_in_ledger(limit)`: the ledger's proposer
blocks of the last `limit` levels and the tip, each with its transaction
references; a missing entry is an `unreachable!()`. -/
def proposerTransactionInLedger (chain : BlockChain H) (limit : Nat) : Option (List (H × List H)) := do
  let ledgerTip := chain.proposerLedgerTip
  let ledgerBottom := if ledgerTip > limit then ledgerTip - limit else 0
  let proposerInLedger ←
    (List.range' ledgerBottom (ledgerTip + 1 - ledgerBottom)).foldlM (fun blocks level => do
      let order ← chain.proposerLedgerOrder level
      some (blocks ++ order)) []
  proposerInLedger.mapM (fun hash => do
    let blocks ← chain.transactionRefNeighbor hash
    some (hash, blocks))

/-! ## One level of the rebuild -/

section Rebuild

/-- The rebuild at a level without a leader: the ledger tip becomes the level
before. -/
theorem recomputeLedger_succ_of_none {fuel levels level : Nat} {chain : BlockChain H} {added : List H}
    (leaderEq : chain.proposerLeaderSequence level = none) :
    recomputeLedger fuel (levels + 1) chain level added =
      if level = 0 then none else some ({ chain with proposerLedgerTip := level - 1 }, added) := by
  simp only [recomputeLedger, leaderEq]

/-- The rebuild at a level with a leader: the level is confirmed and the
rebuild goes on at the next level. -/
theorem recomputeLedger_succ_of_some {fuel levels level : Nat} {chain : BlockChain H} {added : List H}
    {leader : H} {order : List H} {unconfirmed : Finset H}
    (leaderEq : chain.proposerLeaderSequence level = some leader)
    (confirmed : chain.confirmLevel fuel leader = some (order, unconfirmed)) :
    recomputeLedger fuel (levels + 1) chain level added =
      recomputeLedger fuel levels
        { chain with
          unconfirmedProposers := unconfirmed
          proposerLedgerOrder := Function.update chain.proposerLedgerOrder level (some order) }
        (level + 1) (added ++ order) := by
  simp only [recomputeLedger, leaderEq, confirmed, Option.bind_eq_bind, Option.bind_some]

end Rebuild

/-! ## What `update_ledger` leaves alone -/

/-- `chain` with the fields that `update_ledger` writes taken from `other`. -/
def withLedgerOf (chain other : BlockChain H) : BlockChain H :=
  { chain with
    proposerNodeVote := other.proposerNodeVote
    voterLedgerTips := other.voterLedgerTips
    proposerLeaderSequence := other.proposerLeaderSequence
    proposerLedgerOrder := other.proposerLedgerOrder
    unconfirmedProposers := other.unconfirmedProposers
    proposerLedgerTip := other.proposerLedgerTip }

/-- `next` differs from `chain` at most in the fields `update_ledger` writes. -/
def LedgerFrame (chain next : BlockChain H) : Prop :=
  next = chain.withLedgerOf next

omit [DecidableEq H] in
theorem LedgerFrame.refl (chain : BlockChain H) : LedgerFrame chain chain := rfl

omit [DecidableEq H] in
theorem LedgerFrame.trans {first second third : BlockChain H} (firstSecond : LedgerFrame first second)
    (secondThird : LedgerFrame second third) : LedgerFrame first third := by
  unfold LedgerFrame at *
  calc third = second.withLedgerOf third := secondThird
    _ = (first.withLedgerOf second).withLedgerOf third := by rw [← firstSecond]
    _ = first.withLedgerOf third := rfl

/-- `chain` with the fields that the leader and ledger phases write taken from
`other`. -/
def withLeadersOf (chain other : BlockChain H) : BlockChain H :=
  { chain with
    proposerLeaderSequence := other.proposerLeaderSequence
    proposerLedgerOrder := other.proposerLedgerOrder
    unconfirmedProposers := other.unconfirmedProposers
    proposerLedgerTip := other.proposerLedgerTip }

/-- `next` differs from `chain` at most in the leaders, the ledger order, the
unconfirmed blocks and the ledger tip. -/
def LeaderFrame (chain next : BlockChain H) : Prop :=
  next = chain.withLeadersOf next

omit [DecidableEq H] in
theorem LeaderFrame.refl (chain : BlockChain H) : LeaderFrame chain chain := rfl

omit [DecidableEq H] in
theorem LeaderFrame.trans {first second third : BlockChain H} (firstSecond : LeaderFrame first second)
    (secondThird : LeaderFrame second third) : LeaderFrame first third := by
  unfold LeaderFrame at *
  calc third = second.withLeadersOf third := secondThird
    _ = (first.withLeadersOf second).withLeadersOf third := by rw [← firstSecond]
    _ = first.withLeadersOf third := rfl

omit [DecidableEq H] in
/-- The leader and ledger phases write a subset of what `update_ledger` writes. -/
theorem LeaderFrame.ledgerFrame {chain next : BlockChain H} (frame : LeaderFrame chain next) :
    LedgerFrame chain next := by
  unfold LeaderFrame at frame
  unfold LedgerFrame
  rw [frame]
  rfl

/-- `next` differs from `chain` at most in the vote table. -/
def VotesFrame (chain next : BlockChain H) : Prop :=
  next = { chain with proposerNodeVote := next.proposerNodeVote }

omit [DecidableEq H] in
theorem VotesFrame.refl (chain : BlockChain H) : VotesFrame chain chain := rfl

omit [DecidableEq H] in
theorem VotesFrame.trans {first second third : BlockChain H} (firstSecond : VotesFrame first second)
    (secondThird : VotesFrame second third) : VotesFrame first third := by
  unfold VotesFrame at *
  calc third = { second with proposerNodeVote := third.proposerNodeVote } := secondThird
    _ = { { first with proposerNodeVote := second.proposerNodeVote } with
          proposerNodeVote := third.proposerNodeVote } := by rw [← firstSecond]
    _ = { first with proposerNodeVote := third.proposerNodeVote } := rfl

omit [DecidableEq H] in
theorem VotesFrame.ledgerFrame {chain next : BlockChain H} (frame : VotesFrame chain next) :
    LedgerFrame chain next := by
  unfold VotesFrame at frame
  unfold LedgerFrame
  rw [frame]
  rfl

omit [DecidableEq H] in
theorem VotesFrame.proposerNodeLevel_eq {chain next : BlockChain H} (frame : VotesFrame chain next) :
    next.proposerNodeLevel = chain.proposerNodeLevel := by
  unfold VotesFrame at frame
  rw [frame]

/-- `next` differs from `chain` at most in what the vote phase writes: the vote
table and the voter ledger tips. -/
def VotePhaseFrame (chain next : BlockChain H) : Prop :=
  next = { chain with proposerNodeVote := next.proposerNodeVote, voterLedgerTips := next.voterLedgerTips }

omit [DecidableEq H] in
theorem VotePhaseFrame.refl (chain : BlockChain H) : VotePhaseFrame chain chain := rfl

omit [DecidableEq H] in
theorem VotePhaseFrame.trans {first second third : BlockChain H} (firstSecond : VotePhaseFrame first second)
    (secondThird : VotePhaseFrame second third) : VotePhaseFrame first third := by
  unfold VotePhaseFrame at *
  rw [secondThird, firstSecond]

omit [DecidableEq H] in
theorem VotesFrame.votePhaseFrame {chain next : BlockChain H} (frame : VotesFrame chain next) :
    VotePhaseFrame chain next := by
  unfold VotesFrame at frame
  unfold VotePhaseFrame
  rw [frame]

omit [DecidableEq H] in
theorem VotePhaseFrame.ledgerFrame {chain next : BlockChain H} (frame : VotePhaseFrame chain next) :
    LedgerFrame chain next := by
  unfold VotePhaseFrame at frame
  unfold LedgerFrame
  rw [frame]
  rfl

/-- `next` differs from `chain` at most in the leaders. -/
def LeadersFrame (chain next : BlockChain H) : Prop :=
  next = { chain with proposerLeaderSequence := next.proposerLeaderSequence }

omit [DecidableEq H] in
theorem LeadersFrame.refl (chain : BlockChain H) : LeadersFrame chain chain := rfl

omit [DecidableEq H] in
theorem LeadersFrame.trans {first second third : BlockChain H} (firstSecond : LeadersFrame first second)
    (secondThird : LeadersFrame second third) : LeadersFrame first third := by
  unfold LeadersFrame at *
  rw [secondThird, firstSecond]

omit [DecidableEq H] in
theorem LeadersFrame.leaderFrame {chain next : BlockChain H} (frame : LeadersFrame chain next) :
    LeaderFrame chain next := by
  unfold LeadersFrame at frame
  unfold LeaderFrame
  rw [frame]
  rfl

/-- A vote merge writes only the vote table entry of the voted block, and
widens the range with that block's level. -/
theorem mergeVote_eq_some {chainNum : Nat} {add : Bool} {state next : BlockChain H × (Nat × Nat)}
    {vote : H × Nat} (merged : mergeVote chainNum add state vote = some next) :
    ∃ result level, voteOperation ((state.1.proposerNodeVote vote.1).getD []) (add, chainNum, vote.2) = some result ∧
      state.1.proposerNodeLevel vote.1 = some level ∧
      next = ({ state.1 with
        proposerNodeVote := Function.update state.1.proposerNodeVote vote.1 (some result) },
        widenRange state.2 level) := by
  obtain ⟨chain, range⟩ := state
  unfold mergeVote at merged
  simp only [voteVecFullMerge_single] at merged
  cases mergeEq : voteOperation ((chain.proposerNodeVote vote.1).getD []) (add, chainNum, vote.2) with
  | none => simp [mergeEq] at merged
  | some result =>
      cases levelEq : chain.proposerNodeLevel vote.1 with
      | none => simp [mergeEq, levelEq] at merged
      | some level =>
          simp only [mergeEq, levelEq, Option.bind_eq_bind, Option.bind_some, Option.some.injEq] at merged
          exact ⟨result, level, rfl, rfl, merged.symm⟩

/-- A merge succeeds when the operation applies and the voted block has a level. -/
theorem mergeVote_of_some {chainNum : Nat} {add : Bool} {state : BlockChain H × (Nat × Nat)}
    {vote : H × Nat} {result : List (Nat × Nat)} {level : Nat}
    (operated : voteOperation ((state.1.proposerNodeVote vote.1).getD []) (add, chainNum, vote.2) = some result)
    (levelAt : state.1.proposerNodeLevel vote.1 = some level) :
    mergeVote chainNum add state vote = some ({ state.1 with
        proposerNodeVote := Function.update state.1.proposerNodeVote vote.1 (some result) },
        widenRange state.2 level) := by
  obtain ⟨chain, range⟩ := state
  unfold mergeVote
  simp only [voteVecFullMerge_single]
  rw [operated]
  simp only [Option.bind_eq_bind, Option.bind_some]
  rw [levelAt]
  rfl

theorem mergeVote_frame {chainNum : Nat} {add : Bool} {state next : BlockChain H × (Nat × Nat)}
    {vote : H × Nat} (merged : mergeVote chainNum add state vote = some next) :
    VotesFrame state.1 next.1 := by
  obtain ⟨result, level, _, _, rfl⟩ := mergeVote_eq_some merged
  rfl

theorem foldlM_mergeVote_frame {chainNum : Nat} {add : Bool} {votes : List (H × Nat)}
    {state next : BlockChain H × (Nat × Nat)}
    (merged : votes.foldlM (mergeVote chainNum add) state = some next) : VotesFrame state.1 next.1 :=
  List.foldlM_option_relation (fun first second => VotesFrame first.1 second.1)
    (fun state => VotesFrame.refl state.1) (fun _ _ _ => VotesFrame.trans)
    (fun _ _ _ => mergeVote_frame) votes state next merged

/-- One iteration of the chain loop, once its two reads succeed: the
difference between the old tip and the best block, computed after the tip has
moved, then the removals and the additions. -/
theorem updateChainVotes_eq_bind {fuel chainNum : Nat} {state : BlockChain H × (Nat × Nat)} {fromTip : H}
    {best : H × Nat} (fromEq : state.1.voterLedgerTips[chainNum]? = some fromTip)
    (bestEq : state.1.voterBest[chainNum]? = some best) :
    updateChainVotes fuel state chainNum =
      (({ state.1 with voterLedgerTips := state.1.voterLedgerTips.set chainNum best.1 } : BlockChain H).voteDiff
          fuel fromTip best.1).bind (fun diff =>
        (diff.2.foldlM (mergeVote chainNum false)
          ({ state.1 with voterLedgerTips := state.1.voterLedgerTips.set chainNum best.1 }, state.2)).bind
          (diff.1.foldlM (mergeVote chainNum true))) := by
  unfold updateChainVotes
  simp only [fromEq, bestEq, Option.bind_eq_bind, Option.bind_some]

theorem updateChainVotes_votePhaseFrame {fuel chainNum : Nat} {state next : BlockChain H × (Nat × Nat)}
    (updated : updateChainVotes fuel state chainNum = some next) : VotePhaseFrame state.1 next.1 := by
  unfold updateChainVotes at updated
  cases fromEq : state.1.voterLedgerTips[chainNum]? with
  | none => simp [fromEq] at updated
  | some fromTip =>
      cases bestEq : state.1.voterBest[chainNum]? with
      | none => simp [fromEq, bestEq] at updated
      | some best =>
          simp only [fromEq, bestEq, Option.bind_eq_bind, Option.bind_some] at updated
          generalize tipsEq : ({ state.1 with voterLedgerTips := state.1.voterLedgerTips.set chainNum best.1 } :
            BlockChain H) = moved at updated
          have movedFrame : VotePhaseFrame state.1 moved := by
            subst tipsEq
            rfl
          cases diffEq : moved.voteDiff fuel fromTip best.1 with
          | none => simp [diffEq] at updated
          | some diff =>
              obtain ⟨added, removed⟩ := diff
              cases removedEq : removed.foldlM (mergeVote chainNum false) (moved, state.2) with
              | none => simp [diffEq, removedEq] at updated
              | some middle =>
                  simp only [diffEq, removedEq, Option.bind_some] at updated
                  exact movedFrame.trans ((foldlM_mergeVote_frame removedEq).votePhaseFrame.trans
                    (foldlM_mergeVote_frame updated).votePhaseFrame)

theorem updateChainVotes_frame {fuel chainNum : Nat} {state next : BlockChain H × (Nat × Nat)}
    (updated : updateChainVotes fuel state chainNum = some next) : LedgerFrame state.1 next.1 :=
  (updateChainVotes_votePhaseFrame updated).ledgerFrame

theorem updateVotes_votePhaseFrame {fuel : Nat} {chain : BlockChain H} {next : BlockChain H × (Nat × Nat)}
    (updated : chain.updateVotes fuel = some next) : VotePhaseFrame chain next.1 :=
  List.foldlM_option_relation (fun first second => VotePhaseFrame first.1 second.1)
    (fun state => VotePhaseFrame.refl state.1) (fun _ _ _ => VotePhaseFrame.trans)
    (fun _ _ _ => updateChainVotes_votePhaseFrame) _ (chain, (u64Max, 0)) next updated

theorem updateVotes_frame {fuel : Nat} {chain : BlockChain H} {next : BlockChain H × (Nat × Nat)}
    (updated : chain.updateVotes fuel = some next) : LedgerFrame chain next.1 :=
  (updateVotes_votePhaseFrame updated).ledgerFrame

theorem updateLeader_leadersFrame {policy : ConfirmationPolicy H} {state next : BlockChain H × Option Nat}
    {level : Nat} (updated : updateLeader policy state level = some next) : LeadersFrame state.1 next.1 := by
  unfold updateLeader at updated
  cases confirmEq : state.1.proposerLeader policy level .confirm with
  | none => simp [confirmEq] at updated
  | some newLeaderConfirm =>
      cases deconfirmEq : state.1.proposerLeader policy level .deconfirm with
      | none => simp [confirmEq, deconfirmEq] at updated
      | some newLeaderDeconfirm =>
          simp only [confirmEq, deconfirmEq, Option.bind_eq_bind, Option.bind_some] at updated
          generalize (if (state.1.proposerLeaderSequence level).isSome then newLeaderDeconfirm
            else newLeaderConfirm) = newLeader at updated
          -- a changed leader is the only write; `change_begin` is not part of the chain
          by_cases changed : newLeader ≠ state.1.proposerLeaderSequence level
          · rw [if_pos changed] at updated
            rw [← Option.some.inj updated]
            rfl
          · rw [if_neg changed] at updated
            rw [← Option.some.inj updated]
            exact LeadersFrame.refl _

theorem updateLeader_frame {policy : ConfirmationPolicy H} {state next : BlockChain H × Option Nat}
    {level : Nat} (updated : updateLeader policy state level = some next) : LeaderFrame state.1 next.1 :=
  (updateLeader_leadersFrame updated).leaderFrame

theorem updateLeaders_leadersFrame {policy : ConfirmationPolicy H} {chain : BlockChain H} {range : Nat × Nat}
    {next : BlockChain H × Option Nat} (updated : chain.updateLeaders policy range = some next) :
    LeadersFrame chain next.1 :=
  List.foldlM_option_relation (fun first second => LeadersFrame first.1 second.1)
    (fun state => LeadersFrame.refl state.1) (fun _ _ _ => LeadersFrame.trans)
    (fun _ _ _ => updateLeader_leadersFrame) _ (chain, none) next updated

theorem updateLeaders_frame {policy : ConfirmationPolicy H} {chain : BlockChain H} {range : Nat × Nat}
    {next : BlockChain H × Option Nat} (updated : chain.updateLeaders policy range = some next) :
    LeaderFrame chain next.1 :=
  (updateLeaders_leadersFrame updated).leaderFrame

theorem deconfirmLevel_frame {state next : BlockChain H × List H} {level : Nat}
    (deconfirmed : deconfirmLevel state level = some next) : LeaderFrame state.1 next.1 := by
  unfold deconfirmLevel at deconfirmed
  cases orderEq : state.1.proposerLedgerOrder level with
  | none => simp [orderEq] at deconfirmed
  | some original =>
      simp only [orderEq, Option.bind_eq_bind, Option.bind_some, Option.some.injEq] at deconfirmed
      subst deconfirmed
      rfl

theorem recomputeLedger_frame {fuel : Nat} :
    ∀ {levels : Nat} {chain : BlockChain H} {level : Nat} {added : List H} {next : BlockChain H × List H},
      recomputeLedger fuel levels chain level added = some next → LeaderFrame chain next.1 := by
  intro levels
  induction levels with
  | zero =>
      intro chain level added next recomputed
      cases recomputed
  | succ levels inductionHypothesis =>
      intro chain level added next recomputed
      unfold recomputeLedger at recomputed
      cases leaderEq : chain.proposerLeaderSequence level with
      | none =>
          simp only [leaderEq] at recomputed
          split_ifs at recomputed with atZero
          cases recomputed
          rfl
      | some leader =>
          cases confirmedEq : chain.confirmLevel fuel leader with
          | none => simp [leaderEq, confirmedEq] at recomputed
          | some confirmed =>
              simp only [leaderEq, confirmedEq, Option.bind_eq_bind, Option.bind_some] at recomputed
              refine LeaderFrame.trans ?_ (inductionHypothesis recomputed)
              rfl

/-- The phases of a call of `update_ledger` that returns: the vote phase, the
leader phase, and, when a leader changed, the deconfirm loop, the rebuild when
`change_begin` is at most one past the tip, and the transaction references of
the removed and added blocks. -/
theorem updateLedger_phases {policy : ConfirmationPolicy H} {fuel : Nat} {chain next : BlockChain H}
    {added removed : List H} (updated : chain.updateLedger policy fuel = some (next, added, removed)) :
    ∃ voted range led changeBegin, chain.updateVotes fuel = some (voted, range) ∧
      voted.updateLeaders policy range = some (led, changeBegin) ∧
      ((changeBegin = none ∧ next = led ∧ added = [] ∧ removed = []) ∨
        ∃ begin deconfirmed removedBlocks addedBlocks, changeBegin = some begin ∧
          (List.range' begin (led.proposerLedgerTip + 1 - begin)).foldlM deconfirmLevel (led, []) =
            some (deconfirmed, removedBlocks) ∧
          (if begin ≤ led.proposerLedgerTip + 1 then
              recomputeLedger fuel fuel deconfirmed begin [] = some (next, addedBlocks)
            else next = deconfirmed ∧ addedBlocks = []) ∧
          next.transactionRefs removedBlocks = some removed ∧
          next.transactionRefs addedBlocks = some added) := by
  unfold updateLedger at updated
  simp only [Option.bind_eq_bind, Option.bind_eq_some_iff] at updated
  obtain ⟨⟨voted, range⟩, votesEq, updated⟩ := updated
  obtain ⟨⟨led, changeBegin⟩, leadersEq, updated⟩ := updated
  refine ⟨voted, range, led, changeBegin, votesEq, leadersEq, ?_⟩
  cases changeBegin with
  | none =>
      simp only [Option.some.injEq, Prod.mk.injEq] at updated
      exact .inl ⟨rfl, updated.1.symm, updated.2.1.symm, updated.2.2.symm⟩
  | some begin =>
      right
      simp only [Option.bind_eq_some_iff] at updated
      obtain ⟨⟨deconfirmed, removedBlocks⟩, deconfirmEq, updated⟩ := updated
      split_ifs at updated with rebuilds
      · simp only [Option.bind_eq_some_iff, Option.some.injEq, Prod.mk.injEq] at updated
        obtain ⟨⟨rebuilt, addedBlocks⟩, rebuiltEq, removedRefs, removedEq, addedRefs, addedEq, rfl, rfl,
          rfl⟩ := updated
        exact ⟨begin, deconfirmed, removedBlocks, addedBlocks, rfl, deconfirmEq,
          by rw [if_pos rebuilds]; exact rebuiltEq, removedEq, addedEq⟩
      · simp only [Option.bind_some, Option.bind_eq_some_iff, Option.some.injEq, Prod.mk.injEq] at updated
        obtain ⟨removedRefs, removedEq, addedRefs, addedEq, rfl, rfl, rfl⟩ := updated
        exact ⟨begin, deconfirmed, removedBlocks, [], rfl, deconfirmEq,
          by rw [if_neg rebuilds]; exact ⟨rfl, rfl⟩, removedEq, addedEq⟩

/-- The converse of `updateLedger_phases`: phases that return make
`update_ledger` return. -/
theorem updateLedger_of_phases {policy : ConfirmationPolicy H} {fuel : Nat} {chain voted led next : BlockChain H}
    {range : Nat × Nat} {changeBegin : Option Nat} {added removed : List H}
    (votesEq : chain.updateVotes fuel = some (voted, range))
    (leadersEq : voted.updateLeaders policy range = some (led, changeBegin))
    (rest : (changeBegin = none ∧ next = led ∧ added = [] ∧ removed = []) ∨
        ∃ begin deconfirmed removedBlocks addedBlocks, changeBegin = some begin ∧
          (List.range' begin (led.proposerLedgerTip + 1 - begin)).foldlM deconfirmLevel (led, []) =
            some (deconfirmed, removedBlocks) ∧
          (if begin ≤ led.proposerLedgerTip + 1 then
              recomputeLedger fuel fuel deconfirmed begin [] = some (next, addedBlocks)
            else next = deconfirmed ∧ addedBlocks = []) ∧
          next.transactionRefs removedBlocks = some removed ∧
          next.transactionRefs addedBlocks = some added) :
    chain.updateLedger policy fuel = some (next, added, removed) := by
  unfold updateLedger
  rw [votesEq]
  simp only [Option.bind_eq_bind, Option.bind_some, leadersEq]
  rcases rest with ⟨rfl, rfl, rfl, rfl⟩ | ⟨begin, deconfirmed, removedBlocks, addedBlocks, rfl, deconfirmEq,
    rebuiltEq, removedEq, addedEq⟩
  · rfl
  · simp only [deconfirmEq, Option.bind_some]
    split_ifs at rebuiltEq ⊢ with rebuilds
    · rw [rebuiltEq]
      simp [removedEq, addedEq]
    · obtain ⟨rfl, rfl⟩ := rebuiltEq
      simp [removedEq, addedEq]

theorem deconfirmLevels_frame {levels : List Nat} {state next : BlockChain H × List H}
    (deconfirmed : levels.foldlM deconfirmLevel state = some next) : LeaderFrame state.1 next.1 :=
  List.foldlM_option_relation (fun first second => LeaderFrame first.1 second.1)
    (fun state => LeaderFrame.refl state.1) (fun _ _ _ => LeaderFrame.trans)
    (fun _ _ _ => deconfirmLevel_frame) levels state next deconfirmed

/-- After the vote phase, `update_ledger` writes only the leaders, the ledger
order, the unconfirmed blocks and the ledger tip. -/
theorem updateLedger_leaderFrame {policy : ConfirmationPolicy H} {fuel : Nat} {chain next : BlockChain H}
    {added removed : List H} (updated : chain.updateLedger policy fuel = some (next, added, removed)) :
    ∃ voted range, chain.updateVotes fuel = some (voted, range) ∧ LeaderFrame voted next := by
  obtain ⟨voted, range, led, changeBegin, votesEq, leadersEq, rest⟩ := updateLedger_phases updated
  refine ⟨voted, range, votesEq, ?_⟩
  have leadersFrame := updateLeaders_frame leadersEq
  rcases rest with ⟨_, rfl, _, _⟩ | ⟨begin, deconfirmed, removedBlocks, addedBlocks, _, deconfirmEq,
    rebuiltEq, _, _⟩
  · exact leadersFrame
  · have deconfirmFrame := leadersFrame.trans (deconfirmLevels_frame deconfirmEq)
    split_ifs at rebuiltEq with rebuilds
    · exact deconfirmFrame.trans (recomputeLedger_frame rebuiltEq)
    · rw [rebuiltEq.1]
      exact deconfirmFrame

/-- `update_ledger` writes only the vote table, the voter ledger tips, the
leaders, the ledger order, the unconfirmed blocks and the ledger tip. -/
theorem updateLedger_frame {policy : ConfirmationPolicy H} {fuel : Nat} {chain next : BlockChain H}
    {added removed : List H} (updated : chain.updateLedger policy fuel = some (next, added, removed)) :
    LedgerFrame chain next := by
  obtain ⟨voted, range, votesEq, frame⟩ := updateLedger_leaderFrame updated
  exact (updateVotes_frame votesEq).trans frame.ledgerFrame

/-! ## More fuel -/

section Fuel

theorem updateChainVotes_add_fuel {fuel : Nat} (extra : Nat) {chainNum : Nat}
    {state next : BlockChain H × (Nat × Nat)} (updated : updateChainVotes fuel state chainNum = some next) :
    updateChainVotes (fuel + extra) state chainNum = some next := by
  cases fromEq : state.1.voterLedgerTips[chainNum]? with
  | none => simp [updateChainVotes, fromEq] at updated
  | some fromTip =>
      cases bestEq : state.1.voterBest[chainNum]? with
      | none => simp [updateChainVotes, fromEq, bestEq] at updated
      | some best =>
          rw [updateChainVotes_eq_bind fromEq bestEq] at updated ⊢
          obtain ⟨diff, diffEq, merged⟩ := Option.bind_eq_some_iff.mp updated
          rw [voteDiff_add_fuel extra diffEq, Option.bind_some]
          exact merged

/-- More fuel does not change a finished vote phase. -/
theorem updateVotes_add_fuel {fuel : Nat} (extra : Nat) {chain : BlockChain H} {next : BlockChain H × (Nat × Nat)}
    (updated : chain.updateVotes fuel = some next) : chain.updateVotes (fuel + extra) = some next :=
  List.foldlM_option_of_step (fun _ _ _ stepped => updateChainVotes_add_fuel extra stepped) _ _ _ updated

theorem confirmLevel_add_fuel {fuel : Nat} (extra : Nat) {chain : BlockChain H} {leader : H}
    {result : List H × Finset H} (confirmed : chain.confirmLevel fuel leader = some result) :
    chain.confirmLevel (fuel + extra) leader = some result := by
  simp only [confirmLevel, Option.bind_eq_bind, Option.bind_eq_some_iff] at confirmed ⊢
  obtain ⟨order, traversed, kept⟩ := confirmed
  exact ⟨order, Traversal.run_add_fuel extra traversed, kept⟩

/-- More fuel, for the traverses and for the number of levels, does not
change a finished rebuild. -/
theorem recomputeLedger_add_fuel {fuel : Nat} (extraFuel : Nat) :
    ∀ {levels : Nat} (extraLevels : Nat) {chain : BlockChain H} {level : Nat} {added : List H}
      {next : BlockChain H × List H}, recomputeLedger fuel levels chain level added = some next →
      recomputeLedger (fuel + extraFuel) (levels + extraLevels) chain level added = some next := by
  intro levels
  induction levels with
  | zero =>
      intro extraLevels chain level added next recomputed
      cases recomputed
  | succ levels inductionHypothesis =>
      intro extraLevels chain level added next recomputed
      rw [Nat.add_right_comm]
      cases leaderEq : chain.proposerLeaderSequence level with
      | none =>
          rw [recomputeLedger_succ_of_none leaderEq] at recomputed ⊢
          exact recomputed
      | some leader =>
          cases confirmed : chain.confirmLevel fuel leader with
          | none => simp [recomputeLedger, leaderEq, confirmed] at recomputed
          | some result =>
              rw [recomputeLedger_succ_of_some leaderEq confirmed] at recomputed
              rw [recomputeLedger_succ_of_some leaderEq (confirmLevel_add_fuel extraFuel confirmed)]
              exact inductionHypothesis extraLevels recomputed

end Fuel

end BlockChain

end Prism
