import Prism.Invariant.LedgerOrder

/-!
# The ledger over runs

`LedgerState` is what the ledger is between calls: the levels up to
`proposer_ledger_tip` are confirmed, the level after the tip has no leader,
and every leader is a proposer block of its level.  `BlockChain::new` sets it
up, `insert_block` keeps it (a new proposer block is unconfirmed), and so does
`update_ledger`, which rewrites the ledger from the first level whose leader
changed: its removed blocks are the old ledger from there on and its added
blocks the new one.  In a state with the indices and the vote table,
`update_ledger` returns once its loops have enough fuel.
-/

namespace Prism

namespace BlockChain

variable {H : Type} [DecidableEq H]

/-! ## The invariant -/

section State

/-- The ledger between calls of `update_ledger`. -/
structure LedgerState (chain : BlockChain H) : Prop where
  /-- The levels up to the ledger tip are confirmed. -/
  confirmed : chain.Confirmed (chain.proposerLedgerTip + 1)
  /-- The level after the tip has no leader. -/
  next_leader : chain.proposerLeaderSequence (chain.proposerLedgerTip + 1) = none
  /-- Every leader is a block of its level. -/
  leaders : chain.LeadersAtLevel

variable {chain next : BlockChain H}

omit [DecidableEq H] in
/-- `LedgerState` reads the leaders, the orders, the unconfirmed blocks, the
ledger tip, the levels and references of the proposer blocks and the genesis. -/
theorem LedgerState.of_agree (state : chain.LedgerState)
    (genesis : next.config.proposerGenesis = chain.config.proposerGenesis)
    (leaders : next.proposerLeaderSequence = chain.proposerLeaderSequence)
    (orders : next.proposerLedgerOrder = chain.proposerLedgerOrder)
    (unconfirmed : next.unconfirmedProposers = chain.unconfirmedProposers)
    (atLevel : next.proposerNodeLevel = chain.proposerNodeLevel)
    (refNeighbor : next.proposerRefNeighbor = chain.proposerRefNeighbor)
    (tip : next.proposerLedgerTip = chain.proposerLedgerTip) : next.LedgerState := by
  refine ⟨?_, ?_, ?_⟩
  · rw [tip]
    exact state.confirmed.of_agree genesis (fun level _ => by rw [leaders]) orders unconfirmed atLevel refNeighbor
  · rw [tip, leaders]
    exact state.next_leader
  · exact state.leaders.of_agree leaders atLevel

omit [DecidableEq H] in
/-- The vote phase writes nothing `LedgerState` reads. -/
theorem LedgerState.votePhaseFrame (state : chain.LedgerState) (frame : VotePhaseFrame chain next) :
    next.LedgerState := by
  rw [frame]
  exact state.of_agree rfl rfl rfl rfl rfl rfl rfl

/-- `BlockChain::new` confirms the proposer genesis block at level zero. -/
theorem ledgerState_new [Inhabited H] (config : BlockchainConfig H) : (new config).LedgerState := by
  have genesisRefs : (new config).proposerRefs config.proposerGenesis = [] := by
    simp [proposerRefs]
  have ledgerEq : (new config).ledgerUpTo (0 + 1) = [config.proposerGenesis] := by
    simp [ledgerUpTo]
  refine ⟨⟨by simp, by simp, by simp, fun level below => ?_, fun level above => ?_, ?_, ?_, fun hash => ?_, ?_⟩,
    by simp, fun level leader leaderEq => ?_⟩
  · -- the genesis level
    obtain rfl : level = 0 := by simpa using below
    refine ⟨config.proposerGenesis, [config.proposerGenesis], by simp, by simp,
      ⟨rfl, fun hash member => ?_, fun hash member => ?_⟩⟩
    · rw [List.mem_singleton] at member
      exact ⟨0, by simp [member], le_rfl⟩
    · rw [List.mem_singleton] at member
      rw [member]
  · rw [new_proposerLedgerOrder, Function.update_of_ne (by simp at above; omega)]
  · rw [new_proposerLedgerTip, ledgerEq]
    exact List.nodup_singleton _
  · simp
  · rw [new_proposerLedgerTip, ledgerEq, new_proposerNodeLevel, new_unconfirmedProposers]
    by_cases genesis : hash = config.proposerGenesis
    · simp [genesis]
    · simp [genesis]
  · rw [new_proposerLedgerTip, ledgerEq]
    intro front block back split ref isRef
    obtain ⟨rfl, rfl, rfl⟩ : front = [] ∧ block = config.proposerGenesis ∧ back = [] := by
      cases front with
      | nil => simpa using split.symm
      | cons => simp at split
    rw [genesisRefs] at isRef
    cases isRef
  · -- only level zero has a leader, the genesis block
    rw [new_proposerLeaderSequence] at leaderEq
    by_cases zero : level = 0
    · subst zero
      simp only [Function.update_self, Option.some.injEq] at leaderEq
      simp [← leaderEq]
    · rw [Function.update_of_ne zero] at leaderEq
      cases leaderEq

/-- Inserting a proposer block with a fresh hash: it is unconfirmed, and no
confirmed block or leader changes its level or references. -/
theorem LedgerState.addProposer (state : chain.LedgerState) (proposers : chain.ProposerIndex)
    {blockHash parentHash : H} {timestamp parentLevel : Nat} {content : ProposerContent H}
    (fresh : chain.proposerNodeLevel blockHash = none) :
    (chain.addProposer blockHash parentHash timestamp parentLevel content).LedgerState := by
  have other : ∀ hash, (chain.proposerNodeLevel hash).isSome → hash ≠ blockHash :=
    fun hash present => ne_of_isSome_of_eq_none present fresh
  have freshRefs : chain.proposerRefs blockHash = [] := by
    have absent : chain.proposerRefNeighbor blockHash = none := by
      rw [← Option.not_isSome_iff_eq_none, proposers.refs_isSome, fresh]
      simp
    rw [proposerRefs, absent]
    rfl
  -- the reference relation only grows, by the new block's references
  have refsGrow : ∀ block ref, ref ∈ chain.proposerRefs block →
      ref ∈ (chain.addProposer blockHash parentHash timestamp parentLevel content).proposerRefs block := by
    intro block ref member
    by_cases same : block = blockHash
    · rw [same, freshRefs] at member
      cases member
    · simpa [proposerRefs, Function.update_of_ne same] using member
  have confirmed := state.confirmed
  have ledgerEq : ∀ levels, (chain.addProposer blockHash parentHash timestamp parentLevel content).ledgerUpTo levels =
      chain.ledgerUpTo levels := fun _ => ledgerUpTo_congr fun _ _ => rfl
  refine ⟨⟨confirmed.genesis_leader, confirmed.genesis_order, confirmed.positive, fun level below => ?_,
    confirmed.absent, ?_, ?_, fun hash => ?_, ?_⟩, state.next_leader, fun level leader leaderEq => ?_⟩
  · obtain ⟨leader, order, leaderEq, orderEq, ⟨last, blocksBelow, reached⟩⟩ := confirmed.level level below
    refine ⟨leader, order, leaderEq, orderEq, ⟨last, fun hash member => ?_, fun hash member => ?_⟩⟩
    · obtain ⟨hashLevel, atLevel, atMost⟩ := blocksBelow hash member
      refine ⟨hashLevel, ?_, atMost⟩
      rw [addProposer_proposerNodeLevel, Function.update_of_ne (other hash (by rw [atLevel]; rfl)), atLevel]
    · exact Relation.ReflTransGen.mono refsGrow _ _ (reached hash member)
  · rw [ledgerEq]
    exact confirmed.nodup
  · rw [ledgerEq]
    intro hash member
    rw [addProposer_unconfirmedProposers, Finset.mem_insert, not_or]
    obtain ⟨_, atLevel, _⟩ := confirmed.level_lt_of_mem member
    exact ⟨other hash (by rw [atLevel]; rfl), confirmed.disjoint hash member⟩
  · rw [ledgerEq, addProposer_proposerNodeLevel, addProposer_unconfirmedProposers, Finset.mem_insert]
    by_cases same : hash = blockHash
    · simp [same]
    · rw [Function.update_of_ne same, confirmed.cover hash]
      tauto
  · rw [ledgerEq]
    apply confirmed.topological.congr
    intro block member
    obtain ⟨_, atLevel, _⟩ := confirmed.level_lt_of_mem member
    simp [proposerRefs, Function.update_of_ne (other block (by rw [atLevel]; rfl))]
  · have atLevel := state.leaders level leader leaderEq
    rw [addProposer_proposerNodeLevel, Function.update_of_ne (other leader (by rw [atLevel]; rfl)), atLevel]

/-- `insert_block` of an accepted block keeps the ledger invariant. -/
theorem LedgerState.insertBlock {T : Type} [Hashable (Header H) H] {inserted : List (Block H T)}
    {block : Block H T} {checkSignatureBatch : List T → Bool} (state : chain.LedgerState)
    (index : chain.Index inserted) (accepted : Accepted checkSignatureBatch chain inserted block)
    (insertedEq : chain.insertBlock block = some next) : next.LedgerState := by
  obtain ⟨freshProposer, _, _⟩ := index.keys.fresh accepted.fresh_genesis accepted.fresh_received
  rcases insertBlock_eq_some insertedEq with ⟨_, _, _, _, rfl⟩ | ⟨_, _, _, _, _, _, _, _, _, _, rfl⟩ | ⟨_, _, rfl⟩
  · exact state.addProposer index.proposers freshProposer
  · -- a voter block writes no proposer field
    exact state.of_agree rfl rfl rfl rfl rfl rfl rfl
  · exact state.of_agree rfl rfl rfl rfl rfl rfl rfl

end State

/-! ## Transaction references of a list of blocks -/

section TransactionRefs

variable {chain next : BlockChain H}

omit [DecidableEq H] in
/-- The transaction references of an append of two lists of blocks. -/
theorem transactionRefs_append (chain : BlockChain H) (first second : List H) :
    chain.transactionRefs (first ++ second) =
      (chain.transactionRefs first).bind fun front => (chain.transactionRefs second).map (front ++ ·) := by
  simp only [transactionRefs, Option.bind_eq_bind]
  exact List.foldlM_option_append_split chain.transactionRefNeighbor first second

omit [DecidableEq H] in
theorem transactionRefs_isSome {blocks : List H}
    (present : ∀ block ∈ blocks, (chain.transactionRefNeighbor block).isSome) :
    ∃ refs, chain.transactionRefs blocks = some refs :=
  List.foldlM_option_isSome blocks (fun refs block member => by
    obtain ⟨transactionBlocks, given⟩ := Option.isSome_iff_exists.mp (present block member)
    exact ⟨refs ++ transactionBlocks, by rw [given]; rfl⟩) []

omit [DecidableEq H] in
theorem transactionRefs_congr (same : next.transactionRefNeighbor = chain.transactionRefNeighbor) :
    next.transactionRefs = chain.transactionRefs := by
  funext blocks
  simp only [transactionRefs, same]

omit [DecidableEq H] in
/-- Every proposer block has a transaction reference list. -/
theorem ProposerIndex.transactionRefNeighbor_isSome (proposers : chain.ProposerIndex) {hash : H}
    (present : (chain.proposerNodeLevel hash).isSome) : (chain.transactionRefNeighbor hash).isSome := by
  rw [proposers.transactionRefs_isSome]
  exact present

end TransactionRefs

/-! ## One call of `update_ledger` -/

section Update

variable {chain : BlockChain H} {policy : ConfirmationPolicy H}

/-- The leader phase keeps leaders blocks of their level: a new leader is a
block of the proposer tree at its level. -/
theorem LeadersAtLevel.updateLeaders (leadersAtLevel : chain.LeadersAtLevel) (proposers : chain.ProposerIndex)
    {range : Nat × Nat} {led : BlockChain H} {changeBegin : Option Nat}
    (updated : chain.updateLeaders policy range = some (led, changeBegin)) : led.LeadersAtLevel := by
  obtain ⟨chosen, _, _⟩ := updateLeaders_spec updated
  have frame : LeadersFrame chain led := updateLeaders_leadersFrame updated
  intro level leader leaderEq
  rw [show led.proposerNodeLevel = chain.proposerNodeLevel by rw [frame]]
  rcases chosen level leader leaderEq with unchanged | ⟨blocks, treeEq, member⟩
  · exact leadersAtLevel level leader (by rw [← unchanged]; exact leaderEq)
  · exact ((proposers.tree level blocks treeEq).2 leader).mp member

/-- The first two phases from a state with the ledger invariant, the indices
and the vote table: the voted state keeps the invariant and the proposer
index; the leader phase writes only leaders, keeps them blocks of their
level, and either changes none or records a positive `change_begin` whose
leader it changed and below which it changed none. -/
theorem LedgerState.leaderPhase (state : chain.LedgerState) (table : chain.VoteTable) (voters : chain.VoterIndex)
    (proposers : chain.ProposerIndex) {fuel : Nat} {voted led : BlockChain H} {range : Nat × Nat}
    {changeBegin : Option Nat} (votesEq : chain.updateVotes fuel = some (voted, range))
    (leadersEq : voted.updateLeaders policy range = some (led, changeBegin)) :
    voted.LedgerState ∧ voted.ProposerIndex ∧ VotePhaseFrame chain voted ∧ LeadersFrame voted led ∧
      led.LeadersAtLevel ∧ (changeBegin = none → led.proposerLeaderSequence = voted.proposerLeaderSequence) ∧
      ∀ begin, changeBegin = some begin → 0 < begin ∧
        led.proposerLeaderSequence begin ≠ voted.proposerLeaderSequence begin ∧
        ∀ level < begin, led.proposerLeaderSequence level = voted.proposerLeaderSequence level := by
  have votedFrame := updateVotes_votePhaseFrame votesEq
  have votedState := state.votePhaseFrame votedFrame
  have votedProposers := proposers.ledgerFrame votedFrame.ledgerFrame
  have within := (table.of_updateVotes voters proposers votesEq).2
  obtain ⟨_, unchanged, first⟩ := updateLeaders_spec leadersEq
  refine ⟨votedState, votedProposers, votedFrame, updateLeaders_leadersFrame leadersEq,
    votedState.leaders.updateLeaders votedProposers leadersEq, unchanged, fun begin recorded => ?_⟩
  obtain ⟨member, changed, below⟩ := first begin recorded
  exact ⟨(mem_leaderLevels within member).1, changed, below⟩

/-- The deconfirm loop of a ledger phase that rebuilds, from a voted state with
the ledger invariant whose leaders below `change_begin` the leader phase kept:
it leaves the first `change_begin` levels confirmed with the ledger they had,
the proposer index and the leaders at their level, and removes the ledger
from `change_begin` on. -/
theorem LedgerState.deconfirmPhase {begin : Nat} {voted led : BlockChain H} (state : voted.LedgerState)
    (proposers : voted.ProposerIndex) (frame : LeadersFrame voted led) (ledLeaders : led.LeadersAtLevel)
    (positive : 0 < begin) (rebuilds : begin ≤ voted.proposerLedgerTip + 1)
    (below : ∀ level < begin, led.proposerLeaderSequence level = voted.proposerLeaderSequence level) :
    ∃ deconfirmed removedBlocks,
      (List.range' begin (led.proposerLedgerTip + 1 - begin)).foldlM deconfirmLevel (led, []) =
        some (deconfirmed, removedBlocks) ∧
      deconfirmed.Confirmed begin ∧ deconfirmed.ProposerIndex ∧ deconfirmed.LeadersAtLevel ∧
      LeaderFrame led deconfirmed ∧ deconfirmed.proposerLeaderSequence = led.proposerLeaderSequence ∧
      deconfirmed.ledgerUpTo begin = voted.ledgerUpTo begin ∧ voted.ledger = voted.ledgerUpTo begin ++ removedBlocks := by
  have ledTip : led.proposerLedgerTip = voted.proposerLedgerTip := by rw [frame]
  obtain ⟨deconfirmed, removedBlocks, deconfirmEq, deconfirmedConfirmed, deconfirmedFrame, deconfirmedLeaders,
    _, prefixEq, votedSplit⟩ := state.confirmed.deconfirmLevels frame positive rebuilds below
  have deconfirmedLevel : deconfirmed.proposerNodeLevel = led.proposerNodeLevel := by
    rw [deconfirmedFrame]
    rfl
  rw [← ledTip] at deconfirmEq
  exact ⟨deconfirmed, removedBlocks, deconfirmEq, deconfirmedConfirmed,
    proposers.ledgerFrame (frame.leaderFrame.trans deconfirmedFrame).ledgerFrame,
    ledLeaders.of_agree deconfirmedLeaders deconfirmedLevel, deconfirmedFrame, deconfirmedLeaders, prefixEq,
    votedSplit⟩

/-- The ledger phase after a leader phase that recorded `change_begin`, from a
voted state with the ledger invariant whose leaders below `change_begin` the
leader phase kept: it keeps the invariant, and rewrites the ledger from a
level `keep` at most one past the tip, below which no leader changed: `keep`
is `change_begin`, or one past the tip when `change_begin` is further up, and
then it removes and adds nothing. -/
theorem LedgerState.ledgerPhase {fuel begin : Nat} {voted led deconfirmed next : BlockChain H}
    {removedBlocks addedBlocks : List H} (state : voted.LedgerState) (proposers : voted.ProposerIndex)
    (frame : LeadersFrame voted led) (ledLeaders : led.LeadersAtLevel) (positive : 0 < begin)
    (below : ∀ level < begin, led.proposerLeaderSequence level = voted.proposerLeaderSequence level)
    (deconfirmEq : (List.range' begin (led.proposerLedgerTip + 1 - begin)).foldlM deconfirmLevel (led, []) =
      some (deconfirmed, removedBlocks))
    (rebuiltEq : if begin ≤ led.proposerLedgerTip + 1 then
        deconfirmed.recomputeLedger fuel fuel begin [] = some (next, addedBlocks)
      else next = deconfirmed ∧ addedBlocks = []) :
    next.LedgerState ∧ LedgerFrame voted next ∧ next.proposerLeaderSequence = led.proposerLeaderSequence ∧
      ∃ keep, keep ≤ voted.proposerLedgerTip + 1 ∧ keep ≤ begin ∧
        voted.ledger = voted.ledgerUpTo keep ++ removedBlocks ∧ next.ledger = voted.ledgerUpTo keep ++ addedBlocks ∧
        (voted.proposerLedgerTip + 1 < begin → removedBlocks = [] ∧ addedBlocks = []) ∧
        (keep = begin ∨ keep = voted.proposerLedgerTip + 1) := by
  have ledTip : led.proposerLedgerTip = voted.proposerLedgerTip := by rw [frame]
  by_cases rebuilds : begin ≤ voted.proposerLedgerTip + 1
  · -- the ledger from `begin` is deconfirmed and rebuilt
    rw [if_pos (by rwa [ledTip])] at rebuiltEq
    obtain ⟨deconfirmed', removed, deconfirmEq', deconfirmedConfirmed, deconfirmedProposers, deconfirmedAtLevel,
      deconfirmedFrame, deconfirmedLeaders, prefixEq, votedSplit⟩ :=
      state.deconfirmPhase proposers frame ledLeaders positive rebuilds below
    rw [deconfirmEq, Option.some.injEq, Prod.mk.injEq] at deconfirmEq'
    obtain ⟨rfl, rfl⟩ := deconfirmEq'
    obtain ⟨nextConfirmed, nextLeader, nextFrame, nextLeaders, orders, addedEq, nextLedger⟩ :=
      deconfirmedConfirmed.recomputeLedger_spec deconfirmedProposers deconfirmedAtLevel rebuiltEq
    have nextLevel : next.proposerNodeLevel = deconfirmed.proposerNodeLevel := by
      rw [nextFrame]
      rfl
    refine ⟨⟨nextConfirmed, nextLeader, deconfirmedAtLevel.of_agree nextLeaders nextLevel⟩,
      (frame.leaderFrame.trans (deconfirmedFrame.trans nextFrame)).ledgerFrame,
      nextLeaders.trans deconfirmedLeaders, begin, rebuilds, le_rfl, votedSplit, ?_, fun above => by omega,
      .inl rfl⟩
    rw [nextLedger, prefixEq, addedEq, List.nil_append]
  · -- the first changed leader is above the tip's next level: the ledger stays
    rw [if_neg (by rwa [ledTip])] at rebuiltEq
    obtain ⟨rfl, rfl⟩ := rebuiltEq
    rw [ledTip, show voted.proposerLedgerTip + 1 - begin = 0 by omega, List.range'_zero, List.foldlM_nil,
      Option.pure_def, Option.some.injEq, Prod.mk.injEq] at deconfirmEq
    obtain ⟨rfl, rfl⟩ := deconfirmEq
    have ledOrders : led.proposerLedgerOrder = voted.proposerLedgerOrder := by rw [frame]
    have ledgerEq : led.ledger = voted.ledger := by
      rw [ledger, ledger, ledTip]
      exact ledgerUpTo_congr fun level _ => by rw [ledOrders]
    refine ⟨⟨?_, ?_, ledLeaders⟩, frame.leaderFrame.ledgerFrame, rfl, voted.proposerLedgerTip + 1, le_rfl,
      by omega, by rw [List.append_nil]; rfl, by rw [List.append_nil, ledgerEq]; rfl, fun _ => ⟨rfl, rfl⟩,
      .inr rfl⟩
    · rw [ledTip]
      exact state.confirmed.of_agree (by rw [frame]) (fun level below' => below level (by omega)) ledOrders
        (by rw [frame]) (by rw [frame]) (by rw [frame])
    · rw [ledTip, below _ (by omega)]
      exact state.next_leader

/-- One call of `update_ledger` from a state with the ledger invariant, the
indices and the vote table keeps the invariant.  It rewrites the ledger from
a level `keep` at most one past the tip, below which no leader changed: the
removed blocks are the old ledger from `keep` on, the added blocks the new
one, and `removed` and `added` are their transaction references.  When no
leader up to one past the tip changes, it removes and adds no block; `keep` is
one past the tip or the first level whose leader changed. -/
theorem LedgerState.updateLedger_spec (state : chain.LedgerState) (table : chain.VoteTable)
    (voters : chain.VoterIndex) (proposers : chain.ProposerIndex) {fuel : Nat} {next : BlockChain H}
    {added removed : List H} (updated : chain.updateLedger policy fuel = some (next, added, removed)) :
    next.LedgerState ∧ LedgerFrame chain next ∧
      ∃ keep removedBlocks addedBlocks, keep ≤ chain.proposerLedgerTip + 1 ∧
        (∀ level < keep, next.proposerLeaderSequence level = chain.proposerLeaderSequence level) ∧
        chain.ledger = chain.ledgerUpTo keep ++ removedBlocks ∧ next.ledger = chain.ledgerUpTo keep ++ addedBlocks ∧
        chain.transactionRefs removedBlocks = some removed ∧ chain.transactionRefs addedBlocks = some added ∧
        ((∀ level ≤ chain.proposerLedgerTip + 1,
            next.proposerLeaderSequence level = chain.proposerLeaderSequence level) →
          removedBlocks = [] ∧ addedBlocks = []) ∧
        (keep = chain.proposerLedgerTip + 1 ∨ next.proposerLeaderSequence keep ≠ chain.proposerLeaderSequence keep) := by
  obtain ⟨voted, range, led, changeBegin, votesEq, leadersEq, rest⟩ := updateLedger_phases updated
  obtain ⟨votedState, votedProposers, votedFrame, leadersFrame, ledLeaders, unchanged, first⟩ :=
    state.leaderPhase table voters proposers votesEq leadersEq
  -- the vote phase writes nothing of the ledger
  have votedTip : voted.proposerLedgerTip = chain.proposerLedgerTip := by rw [votedFrame]
  have votedLeaders : voted.proposerLeaderSequence = chain.proposerLeaderSequence := by rw [votedFrame]
  have votedLedgerUpTo : ∀ levels, voted.ledgerUpTo levels = chain.ledgerUpTo levels :=
    fun _ => ledgerUpTo_congr fun level _ => by rw [votedFrame]
  have votedLedger : voted.ledger = chain.ledger := by rw [ledger, ledger, votedTip, votedLedgerUpTo]
  rcases rest with ⟨rfl, rfl, rfl, rfl⟩ | ⟨begin, deconfirmed, removedBlocks, addedBlocks, rfl, deconfirmEq,
    rebuiltEq, removedEq, addedEq⟩
  · -- no leader changed
    have ledLeaders' := unchanged rfl
    have ledgerEq : next.ledger = chain.ledger := by
      rw [← votedLedger, ledger, ledger, show next.proposerLedgerTip = voted.proposerLedgerTip by rw [leadersFrame]]
      exact ledgerUpTo_congr fun level _ => by rw [leadersFrame]
    refine ⟨votedState.of_agree (by rw [leadersFrame]) ledLeaders' (by rw [leadersFrame]) (by rw [leadersFrame])
        (by rw [leadersFrame]) (by rw [leadersFrame]) (by rw [leadersFrame]),
      votedFrame.ledgerFrame.trans leadersFrame.leaderFrame.ledgerFrame,
      chain.proposerLedgerTip + 1, [], [], le_rfl, fun level _ => by rw [ledLeaders', votedLeaders],
      by rw [List.append_nil]; rfl, by rw [List.append_nil, ledgerEq]; rfl, rfl, rfl, fun _ => ⟨rfl, rfl⟩, .inl rfl⟩
  · obtain ⟨positive, changed, below⟩ := first begin rfl
    obtain ⟨nextState, nextFrame, nextLeaders, keep, keepLe, keepBelow, votedSplit, nextSplit, above, keepEq⟩ :=
      votedState.ledgerPhase votedProposers leadersFrame ledLeaders positive below deconfirmEq rebuiltEq
    have frame := votedFrame.ledgerFrame.trans nextFrame
    have sameRefs : next.transactionRefs = chain.transactionRefs := by
      apply transactionRefs_congr
      rw [frame]
      rfl
    refine ⟨nextState, frame, keep, removedBlocks, addedBlocks, by rwa [votedTip] at keepLe,
      fun level lower => ?_, by rw [← votedLedger, votedSplit, votedLedgerUpTo],
      by rw [nextSplit, votedLedgerUpTo], by rw [← sameRefs]; exact removedEq,
      by rw [← sameRefs]; exact addedEq, fun kept => above ?_, ?_⟩
    · rw [nextLeaders, below level (by omega), votedLeaders]
    · -- otherwise the leader of `change_begin` changed
      by_contra notAbove
      apply changed
      rw [← nextLeaders, kept begin (by omega), votedLeaders]
    · rcases keepEq with rfl | rebuildsAbove
      · -- `keep` is `change_begin`, whose leader changed
        right
        rwa [nextLeaders, ← votedLeaders]
      · exact .inl (by rwa [votedTip] at rebuildsAbove)

omit [DecidableEq H] in
/-- Every block of the ledger has a transaction reference list. -/
theorem LedgerState.transactionRefNeighbor_isSome (state : chain.LedgerState) (proposers : chain.ProposerIndex)
    {block : H} (member : block ∈ chain.ledger) : (chain.transactionRefNeighbor block).isSome := by
  obtain ⟨_, atLevel, _⟩ := state.confirmed.level_lt_of_mem member
  exact proposers.transactionRefNeighbor_isSome (by rw [atLevel]; rfl)

/-- From a state with the ledger invariant, the indices and the vote table,
`update_ledger` returns once its loops have enough fuel: the vote phase once
the fuel reaches every voter level, and the rebuild once it covers the
traverses of the levels it confirms and their number. -/
theorem LedgerState.updateLedger_isSome (state : chain.LedgerState) (table : chain.VoteTable)
    (voters : chain.VoterIndex) (proposers : chain.ProposerIndex) (policy : ConfirmationPolicy H) :
    ∃ bound, ∀ fuel ≥ bound, ∃ result, chain.updateLedger policy fuel = some result := by
  obtain ⟨⟨voted, range⟩, votesEq⟩ := table.updateVotes_isSome voters proposers
    (fun _ _ atLevel => voters.level_le_sum atLevel)
  -- the vote phase returns the same for more fuel
  have votesMore : ∀ fuel ≥ (chain.voterBest.map Prod.snd).sum, chain.updateVotes fuel = some (voted, range) := by
    intro fuel enough
    obtain ⟨extra, rfl⟩ := Nat.exists_eq_add_of_le enough
    exact updateVotes_add_fuel extra votesEq
  have votedFrame := updateVotes_votePhaseFrame votesEq
  obtain ⟨votedTable, within⟩ := table.of_updateVotes voters proposers votesEq
  obtain ⟨⟨led, changeBegin⟩, leadersEq⟩ : ∃ result, voted.updateLeaders policy range = some result :=
    votedTable.updateLeaders_isSome (voters.ledgerFrame votedFrame.ledgerFrame)
      (proposers.ledgerFrame votedFrame.ledgerFrame) within
  obtain ⟨votedState, votedProposers, _, leadersFrame, ledLeaders, _, first⟩ :=
    state.leaderPhase table voters proposers votesEq leadersEq
  have ledTip : led.proposerLedgerTip = voted.proposerLedgerTip := by rw [leadersFrame]
  cases changeBegin with
  | none =>
      exact ⟨_, fun fuel enough =>
        ⟨_, updateLedger_of_phases (votesMore fuel enough) leadersEq (.inl ⟨rfl, rfl, rfl, rfl⟩)⟩⟩
  | some begin =>
      obtain ⟨positive, _, below⟩ := first begin rfl
      by_cases rebuilds : begin ≤ voted.proposerLedgerTip + 1
      · obtain ⟨deconfirmed, removedBlocks, deconfirmEq, deconfirmedConfirmed, deconfirmedProposers,
          deconfirmedAtLevel, -⟩ := votedState.deconfirmPhase votedProposers leadersFrame ledLeaders positive rebuilds below
        obtain ⟨rebuildFuel, ⟨next, addedBlocks⟩, rebuiltEq⟩ := recomputeLedger_isSome _ [] le_rfl
          deconfirmedConfirmed deconfirmedProposers deconfirmedAtLevel
        have rebuilt : if begin ≤ led.proposerLedgerTip + 1 then
            deconfirmed.recomputeLedger rebuildFuel rebuildFuel begin [] = some (next, addedBlocks)
          else next = deconfirmed ∧ addedBlocks = [] := by
          rw [if_pos (by rwa [ledTip])]
          exact rebuiltEq
        obtain ⟨nextState, nextFrame, _, keep, _, _, votedSplit, nextSplit, _⟩ :=
          votedState.ledgerPhase votedProposers leadersFrame ledLeaders positive below deconfirmEq rebuilt
        -- the removed and the added blocks are ledger blocks, with transaction references
        have nextProposers := votedProposers.ledgerFrame nextFrame
        have nextLevel : next.proposerNodeLevel = voted.proposerNodeLevel := by
          rw [nextFrame]
          rfl
        obtain ⟨removed, removedEq⟩ : ∃ refs, next.transactionRefs removedBlocks = some refs :=
          transactionRefs_isSome fun block member => by
            apply nextProposers.transactionRefNeighbor_isSome
            rw [nextLevel]
            obtain ⟨_, atLevel, _⟩ := votedState.confirmed.level_lt_of_mem
              (show block ∈ voted.ledger by rw [votedSplit]; exact List.mem_append_right _ member)
            rw [atLevel]
            rfl
        obtain ⟨added, addedEq⟩ : ∃ refs, next.transactionRefs addedBlocks = some refs :=
          transactionRefs_isSome fun block member =>
            nextState.transactionRefNeighbor_isSome nextProposers
              (by rw [nextSplit]; exact List.mem_append_right _ member)
        refine ⟨(chain.voterBest.map Prod.snd).sum + rebuildFuel, fun fuel enough => ⟨(next, added, removed), ?_⟩⟩
        refine updateLedger_of_phases (votesMore fuel (by omega)) leadersEq
          (.inr ⟨begin, deconfirmed, removedBlocks, addedBlocks, rfl, deconfirmEq, ?_, removedEq, addedEq⟩)
        rw [if_pos (by rwa [ledTip])]
        have rebuiltMore := recomputeLedger_add_fuel (fuel - rebuildFuel) (fuel - rebuildFuel) rebuiltEq
        rwa [Nat.add_sub_cancel' (by omega)] at rebuiltMore
      · -- nothing to deconfirm or rebuild
        refine ⟨(chain.voterBest.map Prod.snd).sum, fun fuel enough => ⟨(led, [], []), ?_⟩⟩
        refine updateLedger_of_phases (votesMore fuel enough) leadersEq
          (.inr ⟨begin, led, [], [], rfl, ?_, ?_, rfl, rfl⟩)
        · rw [ledTip, show voted.proposerLedgerTip + 1 - begin = 0 by omega]
          rfl
        · rw [if_neg (by rwa [ledTip])]
          exact ⟨rfl, rfl⟩

end Update

/-! ## Reading the ledger -/

section Read

variable {chain : BlockChain H}

omit [DecidableEq H] in
/-- `proposer_leaders` finds a leader at every level up to the tip. -/
theorem LedgerState.proposerLeaders_isSome (state : chain.LedgerState) :
    ∃ leaders, chain.proposerLeaders = some leaders := by
  apply List.mapM_option_isSome
  intro level member
  obtain ⟨leader, _, leaderEq, _⟩ := state.confirmed.level level (List.mem_range.mp member)
  exact ⟨leader, leaderEq⟩

omit [DecidableEq H] in
/-- `proposer_transaction_in_ledger` finds an order at every level it reads,
and transaction references for every block of them. -/
theorem LedgerState.proposerTransactionInLedger_isSome (state : chain.LedgerState)
    (proposers : chain.ProposerIndex) (limit : Nat) :
    ∃ blocks, chain.proposerTransactionInLedger limit = some blocks := by
  unfold proposerTransactionInLedger
  simp only [Option.bind_eq_bind]
  generalize (if chain.proposerLedgerTip > limit then chain.proposerLedgerTip - limit else 0) = bottom
  -- the levels it reads are ledger levels, so their blocks are ledger blocks
  obtain ⟨inLedger, folded, confirmedBlocks⟩ : ∃ blocks,
      (List.range' bottom (chain.proposerLedgerTip + 1 - bottom)).foldlM
        (fun blocks level => (chain.proposerLedgerOrder level).bind fun order => some (blocks ++ order)) [] =
        some blocks ∧ ∀ block ∈ blocks, block ∈ chain.ledger := by
    apply List.foldlM_option_exists
    · intro blocks level member confirmedBlocks
      rw [List.mem_range'_1] at member
      obtain ⟨leader, order, _, orderEq, _⟩ := state.confirmed.level level (by omega)
      refine ⟨blocks ++ order, by rw [orderEq]; rfl, fun block inAppend => ?_⟩
      rcases List.mem_append.mp inAppend with earlier | inOrder
      · exact confirmedBlocks block earlier
      · exact mem_ledgerUpTo.mpr ⟨level, by omega, by rw [orderEq]; exact inOrder⟩
    · intro block member
      cases member
  rw [folded, Option.bind_some]
  apply List.mapM_option_isSome
  intro hash member
  obtain ⟨blocks, given⟩ :=
    Option.isSome_iff_exists.mp (state.transactionRefNeighbor_isSome proposers (confirmedBlocks hash member))
  exact ⟨(hash, blocks), by rw [given]; rfl⟩

end Read

end BlockChain

/-! ## Runs -/

section Run

variable {H T : Type} [DecidableEq H] [Hashable (Header H) H]

/-- Every reachable state has the ledger invariant. -/
theorem Reachable.ledgerState [Inhabited H] {checkSignatureBatch : List T → Bool} {policy : ConfirmationPolicy H}
    {config : BlockchainConfig H} {chain : BlockChain H} {inserted : List (Block H T)}
    (reachable : Reachable checkSignatureBatch policy config chain inserted) : chain.LedgerState := by
  induction reachable with
  | new => exact BlockChain.ledgerState_new config
  | insertBlock previous accepted insertedEq inductionHypothesis =>
      exact inductionHypothesis.insertBlock previous.index accepted insertedEq
  | updateLedger previous updated inductionHypothesis =>
      have index := previous.index
      exact (inductionHypothesis.updateLedger_spec previous.voteTable index.voters index.proposers updated).1

/-- `update_ledger` returns from every reachable state once its loops have
enough fuel. -/
theorem Reachable.updateLedger_isSome [Inhabited H] {checkSignatureBatch : List T → Bool}
    {policy : ConfirmationPolicy H} {config : BlockchainConfig H} {chain : BlockChain H}
    {inserted : List (Block H T)} (reachable : Reachable checkSignatureBatch policy config chain inserted) :
    ∃ bound, ∀ fuel ≥ bound, ∃ result, chain.updateLedger policy fuel = some result := by
  have index := reachable.index
  exact reachable.ledgerState.updateLedger_isSome reachable.voteTable index.voters index.proposers policy

/-- In every reachable state, `update_ledger` returns once its loops have
enough fuel, and the ledger `PROPOSER_LEDGER_ORDER[0..=proposer_ledger_tip]`
is well formed: it has no repetition, shares no block with
`unconfirmed_proposers`, and with it makes up the inserted proposer blocks and
the genesis; every level up to the tip ends with its leader and holds blocks
of the level or below that the leader reaches through references; and every
ledger block comes after its references. -/
theorem ledger_order_invariant [Inhabited H] {checkSignatureBatch : List T → Bool}
    {policy : ConfirmationPolicy H} {config : BlockchainConfig H} {chain : BlockChain H}
    {inserted : List (Block H T)} (reachable : Reachable checkSignatureBatch policy config chain inserted) :
    (∃ bound, ∀ fuel ≥ bound, ∃ result, chain.updateLedger policy fuel = some result) ∧
      chain.ledger.Nodup ∧ (∀ hash ∈ chain.ledger, hash ∉ chain.unconfirmedProposers) ∧
      (∀ hash, hash ∈ chain.ledger ∨ hash ∈ chain.unconfirmedProposers ↔
        hash = config.proposerGenesis ∨
          ∃ block ∈ inserted, block.hash = hash ∧ ∃ content, block.content = .proposer content) ∧
      (∀ level ≤ chain.proposerLedgerTip, ∃ leader order, chain.proposerLeaderSequence level = some leader ∧
        chain.proposerLedgerOrder level = some order ∧ order.getLast? = some leader ∧
        ∀ hash ∈ order, (∃ hashLevel, chain.proposerNodeLevel hash = some hashLevel ∧ hashLevel ≤ level) ∧
          Relation.ReflTransGen (fun block ref => ref ∈ chain.proposerRefs block) leader hash) ∧
      ∀ front block back, chain.ledger = front ++ block :: back → ∀ ref ∈ chain.proposerRefs block, ref ∈ front := by
  have confirmed := reachable.ledgerState.confirmed
  have keys := reachable.index.keys
  refine ⟨reachable.updateLedger_isSome, confirmed.nodup, confirmed.disjoint, fun hash => ?_,
    fun level atMost => ?_, confirmed.topological⟩
  · rw [BlockChain.ledger, ← confirmed.cover hash, keys.proposer hash, reachable.config]
  · obtain ⟨leader, order, leaderEq, orderEq, levelOrder⟩ := confirmed.level level (by omega)
    exact ⟨leader, order, leaderEq, orderEq, levelOrder.last,
      fun hash member => ⟨levelOrder.below hash member, levelOrder.reached hash member⟩⟩

theorem ledger_order_invariant_sample :
    Reachable (fun _ : List Nat => true) votedBlockPolicy singleChainConfig sampleReorged
        (sampleBlocks ++ [sampleForkNext, sampleForkTip]) ∧
      sampleReorged.ledger = [0, 6, 2, 7] ∧
      (∃ bound, ∀ fuel ≥ bound, ∃ result, sampleReorged.updateLedger votedBlockPolicy fuel = some result) ∧
      sampleReorged.ledger.Nodup ∧
      (∀ hash ∈ sampleReorged.ledger, hash ∉ sampleReorged.unconfirmedProposers) ∧
      (∀ hash, hash ∈ sampleReorged.ledger ∨ hash ∈ sampleReorged.unconfirmedProposers ↔
        hash = singleChainConfig.proposerGenesis ∨ ∃ block ∈ (sampleBlocks ++ [sampleForkNext, sampleForkTip]),
          block.hash = hash ∧ ∃ content, block.content = .proposer content) ∧
      (∀ level ≤ sampleReorged.proposerLedgerTip, ∃ leader order,
        sampleReorged.proposerLeaderSequence level = some leader ∧
        sampleReorged.proposerLedgerOrder level = some order ∧ order.getLast? = some leader ∧
        ∀ hash ∈ order, (∃ hashLevel, sampleReorged.proposerNodeLevel hash = some hashLevel ∧
            hashLevel ≤ level) ∧
          Relation.ReflTransGen (fun block ref => ref ∈ sampleReorged.proposerRefs block)
            leader hash) ∧
      ∀ front block back, sampleReorged.ledger = front ++ block :: back →
        ∀ ref ∈ sampleReorged.proposerRefs block, ref ∈ front :=
  ⟨sampleReorged_reachable, by decide, ledger_order_invariant sampleReorged_reachable⟩

/-- The delta that `update_ledger` returns agrees with the ledger before and
after: the transaction references of the ledger before are those of its
levels below some `keep`, the first level whose leader changed or else one
past the old tip, followed by `removed`; after, they are the same followed by
`added`.  When no leader up to one past the old tip changes, the call adds
and removes nothing and leaves the ledger as it was. -/
theorem updateLedger_delta_agrees [Inhabited H] {checkSignatureBatch : List T → Bool}
    {policy : ConfirmationPolicy H} {config : BlockchainConfig H} {chain : BlockChain H}
    {inserted : List (Block H T)} (reachable : Reachable checkSignatureBatch policy config chain inserted)
    {fuel : Nat} {next : BlockChain H} {added removed : List H}
    (updated : chain.updateLedger policy fuel = some (next, added, removed)) :
    (∃ keep common, keep ≤ chain.proposerLedgerTip + 1 ∧
      (∀ level < keep, next.proposerLeaderSequence level = chain.proposerLeaderSequence level) ∧
      (keep = chain.proposerLedgerTip + 1 ∨ next.proposerLeaderSequence keep ≠ chain.proposerLeaderSequence keep) ∧
      chain.transactionRefs (chain.ledgerUpTo keep) = some common ∧
      chain.transactionRefs chain.ledger = some (common ++ removed) ∧
      next.transactionRefs next.ledger = some (common ++ added)) ∧
    ((∀ level ≤ chain.proposerLedgerTip + 1, next.proposerLeaderSequence level = chain.proposerLeaderSequence level) →
      added = [] ∧ removed = [] ∧ next.ledger = chain.ledger) := by
  have state := reachable.ledgerState
  have index := reachable.index
  obtain ⟨_, frame, keep, removedBlocks, addedBlocks, keepLe, keepBelow, ledgerSplit, nextSplit, removedEq, addedEq,
    unchanged, keepFirst⟩ := state.updateLedger_spec reachable.voteTable index.voters index.proposers updated
  have sameRefs : next.transactionRefs = chain.transactionRefs := by
    apply BlockChain.transactionRefs_congr
    rw [frame]
    rfl
  -- the kept levels are ledger blocks, with transaction references
  obtain ⟨common, commonEq⟩ : ∃ refs, chain.transactionRefs (chain.ledgerUpTo keep) = some refs :=
    BlockChain.transactionRefs_isSome fun block member => state.transactionRefNeighbor_isSome index.proposers
      (by rw [ledgerSplit]; exact List.mem_append_left _ member)
  refine ⟨⟨keep, common, keepLe, keepBelow, keepFirst, commonEq, ?_, ?_⟩, fun kept => ?_⟩
  · rw [ledgerSplit, BlockChain.transactionRefs_append, commonEq, removedEq]
    rfl
  · rw [nextSplit, sameRefs, BlockChain.transactionRefs_append, commonEq, addedEq]
    rfl
  · obtain ⟨rfl, rfl⟩ := unchanged kept
    simp only [BlockChain.transactionRefs, List.foldlM_nil, Option.pure_def, Option.some.injEq] at removedEq addedEq
    refine ⟨addedEq.symm, removedEq.symm, ?_⟩
    rw [nextSplit, ledgerSplit]

theorem updateLedger_delta_agrees_sample :
    Reachable (fun _ : List Nat => true) votedBlockPolicy singleChainConfig sampleForked
        (sampleBlocks ++ [sampleForkNext, sampleForkTip]) ∧
      sampleForked.updateLedger votedBlockPolicy 4 = some (sampleReorged, [3], [3]) ∧
      sampleReorged.proposerLeaderSequence 1 ≠ sampleForked.proposerLeaderSequence 1 ∧
      (∃ keep common, keep ≤ sampleForked.proposerLedgerTip + 1 ∧
        (∀ level < keep, sampleReorged.proposerLeaderSequence level = sampleForked.proposerLeaderSequence level) ∧
        (keep = sampleForked.proposerLedgerTip + 1 ∨
          sampleReorged.proposerLeaderSequence keep ≠ sampleForked.proposerLeaderSequence keep) ∧
        sampleForked.transactionRefs (sampleForked.ledgerUpTo keep) = some common ∧
        sampleForked.transactionRefs sampleForked.ledger = some (common ++ [3]) ∧
        sampleReorged.transactionRefs sampleReorged.ledger = some (common ++ [3])) ∧
      ((∀ level ≤ sampleForked.proposerLedgerTip + 1,
          sampleReorged.proposerLeaderSequence level = sampleForked.proposerLeaderSequence level) →
        ([3] : List Nat) = [] ∧ ([3] : List Nat) = [] ∧ sampleReorged.ledger = sampleForked.ledger) :=
  ⟨sampleForked_reachable, sampleForked_updateLedger, by decide,
    updateLedger_delta_agrees sampleForked_reachable sampleForked_updateLedger⟩

end Run

end Prism
