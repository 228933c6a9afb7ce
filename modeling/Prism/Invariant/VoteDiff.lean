import Prism.Invariant.VoteTable
import Mathlib

/-!
# `vote_diff` stops at the lowest common ancestor

The two loops of `BlockChain::vote_diff` keep the common ancestors of their
cursors: a step back from a cursor that is not an ancestor of the other loses
no common ancestor, since the ancestors of a block other than itself are its
parent's.  Both loops step back only from such a cursor (the deeper one, or
either of two different blocks of one level), so the cursors meet at a block
whose ancestors are exactly the common ancestors of `from` and `to`: their
lowest common ancestor.  The votes `vote_diff` adds are then those of the
blocks strictly above it on the path from `to`, and those it removes the same
on the path from `from`.
-/

namespace Prism

namespace BlockChain

variable {H : Type}

/-! ## Ancestors along a voter chain -/

section Ancestors

variable {chain : BlockChain H}

/-- A block's ancestors are itself and its voter parent's ancestors. -/
theorem voterAncestor_iff_parent {hash parent : H} (parentEq : chain.voterParentNeighbor hash = some parent)
    (block : H) : chain.VoterAncestor hash block ↔ block = hash ∨ chain.VoterAncestor parent block := by
  unfold VoterAncestor
  rw [Relation.ReflTransGen.cases_head_iff]
  constructor
  · rintro (same | ⟨next, nextEq, above⟩)
    · exact .inl same.symm
    · rw [parentEq, Option.some.injEq] at nextEq
      subst nextEq
      exact .inr above
  · rintro (same | above)
    · exact .inl same.symm
    · exact .inr ⟨parent, parentEq, above⟩

/-- The ancestors of one block lie on one path: of two of them, one is an
ancestor of the other. -/
theorem VoterAncestor.total {hash first second : H} (firstOn : chain.VoterAncestor hash first)
    (secondOn : chain.VoterAncestor hash second) :
    chain.VoterAncestor first second ∨ chain.VoterAncestor second first := by
  have unique : Relator.RightUnique (fun child parent : H => chain.voterParentNeighbor child = some parent) := by
    intro child parent other parentEq otherEq
    rw [parentEq, Option.some.injEq] at otherEq
    exact otherEq
  exact Relation.ReflTransGen.total_of_right_unique unique firstOn secondOn

/-- Stepping back from a block that is not an ancestor of `other` keeps the
common ancestors of the two. -/
theorem common_ancestors_parent {hash parent other : H} (parentEq : chain.voterParentNeighbor hash = some parent)
    (notAncestor : ¬chain.VoterAncestor other hash) (block : H) :
    chain.VoterAncestor hash block ∧ chain.VoterAncestor other block ↔
      chain.VoterAncestor parent block ∧ chain.VoterAncestor other block := by
  rw [voterAncestor_iff_parent parentEq]
  constructor
  · rintro ⟨rfl | above, otherOn⟩
    · exact absurd otherOn notAncestor
    · exact ⟨above, otherOn⟩
  · rintro ⟨above, otherOn⟩
    exact ⟨.inr above, otherOn⟩

/-- Voter blocks of different levels are different blocks. -/
theorem ne_of_voterNodeLevel_ne {hash other : H} {level otherLevel : Nat}
    (atLevel : chain.voterNodeLevel hash = some level) (otherAt : chain.voterNodeLevel other = some otherLevel)
    (differ : level ≠ otherLevel) : hash ≠ other := by
  rintro rfl
  rw [atLevel, Option.some.injEq] at otherAt
  exact differ otherAt

variable [DecidableEq H]

/-- An ancestor of a voter block is a voter block of a level no higher, and
at the block's own level it is the block. -/
theorem VoterIndex.ancestor_level (index : chain.VoterIndex) {hash ancestor : H} {level : Nat}
    (onPath : chain.VoterAncestor hash ancestor) (atLevel : chain.voterNodeLevel hash = some level) :
    ∃ ancestorLevel, chain.voterNodeLevel ancestor = some ancestorLevel ∧ ancestorLevel ≤ level ∧
      (ancestorLevel = level → ancestor = hash) := by
  unfold VoterAncestor at onPath
  induction onPath using Relation.ReflTransGen.head_induction_on generalizing level with
  | refl => exact ⟨level, atLevel, le_rfl, fun _ => rfl⟩
  | head parentEq _ inductionHypothesis =>
      -- a genesis block has no voter parent, so this block is above level zero
      cases level with
      | zero =>
          rw [index.root _ atLevel] at parentEq
          cases parentEq
      | succ level =>
          obtain ⟨parent, parentEq', parentAt, _⟩ := index.parent _ level atLevel
          rw [parentEq, Option.some.injEq] at parentEq'
          subst parentEq'
          obtain ⟨ancestorLevel, ancestorAt, lower, _⟩ := inductionHypothesis parentAt
          exact ⟨ancestorLevel, ancestorAt, by omega, fun same => by omega⟩

/-- A voter block is not an ancestor of a block of its level or above, other
than itself. -/
theorem VoterIndex.not_ancestor (index : chain.VoterIndex) {hash other : H} {level otherLevel : Nat}
    (atLevel : chain.voterNodeLevel hash = some level) (otherAt : chain.voterNodeLevel other = some otherLevel)
    (notAbove : otherLevel ≤ level) (different : hash ≠ other) : ¬chain.VoterAncestor other hash := by
  intro onPath
  obtain ⟨ancestorLevel, ancestorAt, lower, atOwn⟩ := index.ancestor_level onPath otherAt
  rw [atLevel, Option.some.injEq] at ancestorAt
  subst ancestorAt
  exact different (atOwn (by omega))

end Ancestors

/-! ## The loops keep the common ancestors -/

section Loops

variable {chain : BlockChain H}

/-- Stepping the `to` cursor back moves it to its voter parent. -/
theorem advanceTo_parent {state next : VoteDiffState H} (advanced : chain.advanceTo state = some next) :
    chain.voterParentNeighbor state.toHash = some next.toHash ∧ next.fromHash = state.fromHash := by
  simp only [advanceTo, stepBack, Option.bind_eq_bind, Option.bind_eq_some_iff] at advanced
  obtain ⟨stepped, ⟨votes, _, parent, parentEq, steppedEq⟩, nextEq⟩ := advanced
  split_ifs at steppedEq
  rw [Option.some.injEq] at steppedEq nextEq
  subst steppedEq nextEq
  exact ⟨parentEq, rfl⟩

/-- Stepping the `from` cursor back moves it to its voter parent. -/
theorem advanceFrom_parent {state next : VoteDiffState H} (advanced : chain.advanceFrom state = some next) :
    chain.voterParentNeighbor state.fromHash = some next.fromHash ∧ next.toHash = state.toHash := by
  simp only [advanceFrom, stepBack, Option.bind_eq_bind, Option.bind_eq_some_iff] at advanced
  obtain ⟨stepped, ⟨votes, _, parent, parentEq, steppedEq⟩, nextEq⟩ := advanced
  split_ifs at steppedEq
  rw [Option.some.injEq] at steppedEq nextEq
  subst steppedEq nextEq
  exact ⟨parentEq, rfl⟩

/-- The common ancestors of the two cursors are those of `fromHash` and
`toHash`. -/
def VoteDiffState.KeepsCommon (chain : BlockChain H) (state : VoteDiffState H) (fromHash toHash : H) : Prop :=
  ∀ block, chain.VoterAncestor state.toHash block ∧ chain.VoterAncestor state.fromHash block ↔
    chain.VoterAncestor toHash block ∧ chain.VoterAncestor fromHash block

variable {fromHash toHash : H}

theorem VoteDiffState.KeepsCommon.advanceTo {state next : VoteDiffState H}
    (keeps : state.KeepsCommon chain fromHash toHash)
    (notAncestor : ¬chain.VoterAncestor state.fromHash state.toHash) (advanced : chain.advanceTo state = some next) :
    next.KeepsCommon chain fromHash toHash := by
  obtain ⟨parentEq, fromSame⟩ := advanceTo_parent advanced
  intro block
  rw [fromSame, ← common_ancestors_parent parentEq notAncestor block]
  exact keeps block

theorem VoteDiffState.KeepsCommon.advanceFrom {state next : VoteDiffState H}
    (keeps : state.KeepsCommon chain fromHash toHash)
    (notAncestor : ¬chain.VoterAncestor state.toHash state.fromHash) (advanced : chain.advanceFrom state = some next) :
    next.KeepsCommon chain fromHash toHash := by
  obtain ⟨parentEq, toSame⟩ := advanceFrom_parent advanced
  intro block
  rw [toSame, and_comm, ← common_ancestors_parent parentEq notAncestor block, and_comm]
  exact keeps block

variable [DecidableEq H] {start : VoteDiffState H} {toVotes fromVotes : List (H × Nat)}

/-- The first loop, when it ends, keeps the common ancestors, with both
cursors at one level: it only steps back from the deeper cursor. -/
theorem VoteDiffState.Tracks.equalizeLevels_keepsCommon (index : chain.VoterIndex) :
    ∀ (fuel : Nat) (state result : VoteDiffState H), state.Tracks chain start toVotes fromVotes →
      state.KeepsCommon chain fromHash toHash → chain.equalizeLevels fuel state = some result →
      result.Tracks chain start toVotes fromVotes ∧ result.KeepsCommon chain fromHash toHash ∧
        result.toLevel = result.fromLevel := by
  intro fuel
  induction fuel with
  | zero =>
      intro state result tracks keeps finished
      rw [equalizeLevels] at finished
      split_ifs at finished with same
      rw [Option.some.injEq] at finished
      subst finished
      exact ⟨tracks, keeps, same⟩
  | succ fuel inductionHypothesis =>
      intro state result tracks keeps finished
      rw [equalizeLevels] at finished
      by_cases same : state.toLevel = state.fromLevel
      · rw [if_pos same, Option.some.injEq] at finished
        subst finished
        exact ⟨tracks, keeps, same⟩
      have different := ne_of_voterNodeLevel_ne tracks.toAt tracks.fromAt same
      rw [if_neg same] at finished
      by_cases deeper : state.toLevel > state.fromLevel
      · -- the `to` cursor is deeper, so it is no ancestor of the other
        simp only [if_pos deeper, Option.bind_eq_bind, Option.bind_eq_some_iff] at finished
        obtain ⟨next, advanced, equalized⟩ := finished
        obtain ⟨next', advanced', nextTracks, _⟩ := tracks.advanceTo_spec index.toVoterTree (by omega)
        rw [advanced, Option.some.injEq] at advanced'
        subst advanced'
        exact inductionHypothesis next result nextTracks
          (keeps.advanceTo (index.not_ancestor tracks.toAt tracks.fromAt (by omega) different) advanced) equalized
      · -- the `from` cursor is deeper
        simp only [if_neg deeper, Option.bind_eq_bind, Option.bind_eq_some_iff] at finished
        obtain ⟨next, advanced, equalized⟩ := finished
        obtain ⟨next', advanced', nextTracks, _⟩ := tracks.advanceFrom_spec index.toVoterTree (by omega)
        rw [advanced, Option.some.injEq] at advanced'
        subst advanced'
        exact inductionHypothesis next result nextTracks
          (keeps.advanceFrom (index.not_ancestor tracks.fromAt tracks.toAt (by omega) different.symm) advanced)
          equalized

/-- The second loop, when it ends, keeps the common ancestors, with both
cursors on one block: it steps back from two different blocks of one level. -/
theorem VoteDiffState.Tracks.walkToAncestor_keepsCommon (index : chain.VoterIndex) :
    ∀ (fuel : Nat) (state result : VoteDiffState H), state.Tracks chain start toVotes fromVotes →
      state.KeepsCommon chain fromHash toHash → state.toLevel = state.fromLevel →
      chain.walkToAncestor fuel state = some result →
      result.Tracks chain start toVotes fromVotes ∧ result.KeepsCommon chain fromHash toHash ∧
        result.toHash = result.fromHash := by
  intro fuel
  induction fuel with
  | zero =>
      intro state result tracks keeps sameLevel finished
      rw [walkToAncestor] at finished
      split_ifs at finished with meet
      rw [Option.some.injEq] at finished
      subst finished
      exact ⟨tracks, keeps, meet⟩
  | succ fuel inductionHypothesis =>
      intro state result tracks keeps sameLevel finished
      rw [walkToAncestor] at finished
      by_cases meet : state.toHash = state.fromHash
      · rw [if_pos meet, Option.some.injEq] at finished
        subst finished
        exact ⟨tracks, keeps, meet⟩
      simp only [if_neg meet, Option.bind_eq_bind, Option.bind_eq_some_iff] at finished
      obtain ⟨middle, advancedTo, next, advancedFrom, walked⟩ := finished
      -- two different blocks of one level are above level zero
      have positive : 0 < state.toLevel := by
        by_contra atZero
        have toAt := tracks.toAt
        have fromAt := tracks.fromAt
        rw [show state.toLevel = 0 by omega] at toAt
        rw [← sameLevel, show state.toLevel = 0 by omega] at fromAt
        exact meet (index.toVoterTree.eq_of_level_zero toAt fromAt tracks.sameChain)
      obtain ⟨middle', advancedTo', middleTracks, toLower, fromSame, _⟩ :=
        tracks.advanceTo_spec index.toVoterTree positive
      rw [advancedTo, Option.some.injEq] at advancedTo'
      subst advancedTo'
      obtain ⟨next', advancedFrom', nextTracks, fromLower, toSame, _⟩ :=
        middleTracks.advanceFrom_spec index.toVoterTree (by omega)
      rw [advancedFrom, Option.some.injEq] at advancedFrom'
      subst advancedFrom'
      -- first `to` steps back beside a different block of its level, then
      -- `from` steps back beside a block one level lower
      have middleKeeps := keeps.advanceTo (index.not_ancestor tracks.toAt tracks.fromAt (by omega) meet) advancedTo
      have middleDifferent := ne_of_voterNodeLevel_ne middleTracks.fromAt middleTracks.toAt (by omega)
      have nextKeeps := middleKeeps.advanceFrom
        (index.not_ancestor middleTracks.fromAt middleTracks.toAt (by omega) middleDifferent) advancedFrom
      exact inductionHypothesis next result nextTracks nextKeeps (by omega) walked

end Loops

/-! ## What `vote_diff` returns -/

section Diff

variable [DecidableEq H] {chain : BlockChain H}

/-- Whatever `vote_diff` returns, it stops at the lowest common ancestor of
the two blocks, whose ancestors are exactly their common ancestors: the votes
along the path from `to` are the added votes, all cast above it, followed by
its own path votes, and likewise for `from` and the removed votes. -/
theorem VoterIndex.voteDiff_lowestCommon (index : chain.VoterIndex) {fromHash toHash : H}
    {fromLevel toLevel fuel : Nat} {added removed : List (H × Nat)}
    (fromAt : chain.voterNodeLevel fromHash = some fromLevel) (toAt : chain.voterNodeLevel toHash = some toLevel)
    (sameChain : chain.voterNodeChain toHash = chain.voterNodeChain fromHash)
    (diffEq : chain.voteDiff fuel fromHash toHash = some (added, removed)) :
    ∃ ancestor ancestorLevel common,
      (∀ block, chain.VoterAncestor ancestor block ↔
        chain.VoterAncestor fromHash block ∧ chain.VoterAncestor toHash block) ∧
      chain.voterNodeLevel ancestor = some ancestorLevel ∧ chain.pathVotes ancestor ancestorLevel = some common ∧
      chain.pathVotes toHash toLevel = some (added ++ common) ∧
      chain.pathVotes fromHash fromLevel = some (removed ++ common) ∧
      (∀ vote ∈ added, ancestorLevel < vote.2) ∧ (∀ vote ∈ removed, ancestorLevel < vote.2) := by
  obtain ⟨toVotes, toVotesEq⟩ := Option.isSome_iff_exists.mp (index.pathVotes_isSome toLevel toHash toAt)
  obtain ⟨fromVotes, fromVotesEq⟩ :=
    Option.isSome_iff_exists.mp (index.pathVotes_isSome fromLevel fromHash fromAt)
  let start : VoteDiffState H := ⟨toHash, toLevel, fromHash, fromLevel, [], []⟩
  have startTracks : start.Tracks chain start toVotes fromVotes :=
    ⟨toAt, fromAt, sameChain, ⟨toVotes, toVotesEq, rfl⟩, ⟨fromVotes, fromVotesEq, rfl⟩,
      by simp [start], by simp [start], le_rfl, le_rfl⟩
  have startKeeps : start.KeepsCommon chain fromHash toHash := fun block => Iff.rfl
  -- the two loops, in turn
  simp only [voteDiff, toAt, fromAt, Option.bind_eq_bind, Option.bind_some, Option.bind_eq_some_iff] at diffEq
  obtain ⟨equal, equalized, final, walked, resultEq⟩ := diffEq
  obtain ⟨equalTracks, equalKeeps, sameLevel⟩ :=
    startTracks.equalizeLevels_keepsCommon index fuel start equal startKeeps equalized
  obtain ⟨finalTracks, finalKeeps, meet⟩ :=
    equalTracks.walkToAncestor_keepsCommon index fuel equal final equalKeeps sameLevel walked
  rw [Option.some.injEq, Prod.mk.injEq] at resultEq
  obtain ⟨rfl, rfl⟩ := resultEq
  -- the cursors meet at one block, at one level
  have levelsEq : final.toLevel = final.fromLevel := by
    have fromAt := finalTracks.fromAt
    rw [← meet, finalTracks.toAt, Option.some.injEq] at fromAt
    exact fromAt
  obtain ⟨common, commonEq, toSplit⟩ := finalTracks.toPath
  obtain ⟨fromCommon, fromCommonEq, fromSplit⟩ := finalTracks.fromPath
  rw [← meet, ← levelsEq, commonEq, Option.some.injEq] at fromCommonEq
  subst fromCommonEq
  refine ⟨final.toHash, final.toLevel, common, fun block => ?_, finalTracks.toAt, commonEq,
    by rw [toVotesEq, toSplit], by rw [fromVotesEq, fromSplit], finalTracks.addedAbove, ?_⟩
  · have keeps := finalKeeps block
    rw [← meet, and_self] at keeps
    rw [keeps, and_comm]
  · intro vote member
    rw [levelsEq]
    exact finalTracks.removedAbove vote member

/-- The votes of a path before those of an ancestor's are the votes of the
blocks strictly above the ancestor on the path, tagged with their levels. -/
theorem VoterIndex.mem_votes_above (index : chain.VoterIndex) {hash ancestor : H} {level ancestorLevel : Nat}
    {above common : List (H × Nat)} (atLevel : chain.voterNodeLevel hash = some level)
    (ancestorAt : chain.voterNodeLevel ancestor = some ancestorLevel) (onPath : chain.VoterAncestor hash ancestor)
    (commonEq : chain.pathVotes ancestor ancestorLevel = some common)
    (split : chain.pathVotes hash level = some (above ++ common)) (aboveLevels : ∀ vote ∈ above, ancestorLevel < vote.2)
    (proposer : H) (voterLevel : Nat) :
    (proposer, voterLevel) ∈ above ↔ ∃ block, chain.VoterAncestor hash block ∧ chain.VoterAncestor block ancestor ∧
      block ≠ ancestor ∧ chain.voterNodeLevel block = some voterLevel ∧
      proposer ∈ (chain.voteNeighbor block).getD [] := by
  obtain ⟨votes, votesEq, _, votesMem⟩ := index.mem_pathVotes level hash atLevel
  rw [split, Option.some.injEq] at votesEq
  subst votesEq
  obtain ⟨common', commonEq', commonLevels, _⟩ := index.mem_pathVotes ancestorLevel ancestor ancestorAt
  rw [commonEq, Option.some.injEq] at commonEq'
  subst commonEq'
  -- a vote of the path is one of those above exactly when it is cast above the ancestor
  have aboveIff : (proposer, voterLevel) ∈ above ↔
      (proposer, voterLevel) ∈ above ++ common ∧ ancestorLevel < voterLevel := by
    constructor
    · intro member
      exact ⟨List.mem_append_left _ member, aboveLevels _ member⟩
    · rintro ⟨member, higher⟩
      rcases List.mem_append.mp member with own | older
      · exact own
      · have := commonLevels _ older
        dsimp only at this
        omega
  rw [aboveIff, votesMem]
  constructor
  · rintro ⟨⟨block, blockOn, blockAt, proposerIn⟩, higher⟩
    -- the block and the ancestor are on one path, and the block is the higher
    rcases onPath.total blockOn with ancestorBelow | blockBelow
    · obtain ⟨blockLevel, blockAt', lower, _⟩ := index.ancestor_level ancestorBelow ancestorAt
      rw [blockAt, Option.some.injEq] at blockAt'
      omega
    · exact ⟨block, blockOn, blockBelow, ne_of_voterNodeLevel_ne blockAt ancestorAt (by omega), blockAt, proposerIn⟩
  · rintro ⟨block, blockOn, blockBelow, different, blockAt, proposerIn⟩
    obtain ⟨belowLevel, belowAt, lower, atOwn⟩ := index.ancestor_level blockBelow blockAt
    rw [ancestorAt, Option.some.injEq] at belowAt
    subst belowAt
    refine ⟨⟨block, blockOn, blockAt, proposerIn⟩, ?_⟩
    by_contra notHigher
    exact different (atOwn (by omega)).symm

end Diff

end BlockChain

section Run

variable {H T : Type} [DecidableEq H] [Hashable (Header H) H]

/-- In every reachable state, `vote_diff` between two voter blocks of one
chain returns once its loops have the fuel for their levels, and it reads the
voter parent of no genesis block, which has none.  It stops at the lowest
common ancestor of the two, the block whose ancestors are exactly their common
ancestors: the added votes are those of the blocks strictly above it on the
path from `to`, tagged with their levels, and the removed votes those on the
path from `from`.  So the path votes of `from`, less the removed votes, with
the added votes, are the path votes of `to`, and neither list repeats a vote. -/
theorem voteDiff_switches_main_chain [Inhabited H] {checkSignatureBatch : List T → Bool}
    {policy : ConfirmationPolicy H} {config : BlockchainConfig H} {chain : BlockChain H}
    {inserted : List (Block H T)} (reachable : Reachable checkSignatureBatch policy config chain inserted)
    {fromHash toHash : H} {fromLevel toLevel : Nat} (fromAt : chain.voterNodeLevel fromHash = some fromLevel)
    (toAt : chain.voterNodeLevel toHash = some toLevel)
    (sameChain : chain.voterNodeChain toHash = chain.voterNodeChain fromHash) (fuel : Nat)
    (fromEnough : fromLevel ≤ fuel) (toEnough : toLevel ≤ fuel) :
    (∀ hash, chain.voterNodeLevel hash = some 0 → chain.voterParentNeighbor hash = none) ∧
      ∃ added removed ancestor fromVotes toVotes,
        chain.voteDiff fuel fromHash toHash = some (added, removed) ∧
        (∀ block, chain.VoterAncestor ancestor block ↔
          chain.VoterAncestor fromHash block ∧ chain.VoterAncestor toHash block) ∧
        (∀ proposer voterLevel, (proposer, voterLevel) ∈ added ↔
          ∃ block, chain.VoterAncestor toHash block ∧ chain.VoterAncestor block ancestor ∧ block ≠ ancestor ∧
            chain.voterNodeLevel block = some voterLevel ∧ proposer ∈ (chain.voteNeighbor block).getD []) ∧
        (∀ proposer voterLevel, (proposer, voterLevel) ∈ removed ↔
          ∃ block, chain.VoterAncestor fromHash block ∧ chain.VoterAncestor block ancestor ∧ block ≠ ancestor ∧
            chain.voterNodeLevel block = some voterLevel ∧ proposer ∈ (chain.voteNeighbor block).getD []) ∧
        chain.pathVotes fromHash fromLevel = some fromVotes ∧ chain.pathVotes toHash toLevel = some toVotes ∧
        (∀ vote, vote ∈ toVotes ↔ vote ∈ added ∨ (vote ∈ fromVotes ∧ vote ∉ removed)) ∧
        added.Nodup ∧ removed.Nodup := by
  have index := reachable.index
  obtain ⟨added, removed, _, _, _, diffEq, _⟩ :=
    index.voters.toVoterTree.voteDiff_spec fromAt toAt sameChain fromEnough toEnough
  obtain ⟨ancestor, ancestorLevel, common, lowest, ancestorAt, commonEq, toSplit, fromSplit, addedAbove,
    removedAbove⟩ := index.voters.voteDiff_lowestCommon fromAt toAt sameChain diffEq
  have ancestorOn := (lowest ancestor).mp Relation.ReflTransGen.refl
  obtain ⟨common', commonEq', commonLevels, _⟩ := index.voters.mem_pathVotes ancestorLevel ancestor ancestorAt
  rw [commonEq, Option.some.injEq] at commonEq'
  subst commonEq'
  refine ⟨index.voters.root, added, removed, ancestor, removed ++ common, added ++ common, diffEq, lowest,
    index.voters.mem_votes_above toAt ancestorAt ancestorOn.2 commonEq toSplit addedAbove,
    index.voters.mem_votes_above fromAt ancestorAt ancestorOn.1 commonEq fromSplit removedAbove, fromSplit,
    toSplit, fun vote => ?_, (List.nodup_append.mp (index.voters.pathVotes_distinct index.proposers toAt
      toSplit).2.1).1, (List.nodup_append.mp (index.voters.pathVotes_distinct index.proposers fromAt
      fromSplit).2.1).1⟩
  -- the common votes are cast at the ancestor or below, the removed ones above it
  simp only [List.mem_append]
  constructor
  · rintro (fresh | kept)
    · exact .inl fresh
    · refine .inr ⟨.inr kept, fun dropped => ?_⟩
      have := removedAbove vote dropped
      have := commonLevels vote kept
      omega
  · rintro (fresh | ⟨dropped | kept, notDropped⟩)
    · exact .inl fresh
    · exact absurd dropped notDropped
    · exact .inr kept

theorem voteDiff_switches_main_chain_sample :
    Reachable (fun _ : List Nat => true) votedBlockPolicy singleChainConfig sampleForked
        (sampleBlocks ++ [sampleForkNext, sampleForkTip]) ∧
      sampleForked.voterNodeLevel 5 = some 2 ∧ sampleForked.voterNodeLevel 10 = some 3 ∧
      sampleForked.voterNodeChain 10 = sampleForked.voterNodeChain 5 ∧
      sampleForked.voteDiff 3 5 10 = some ([(7, 3), (6, 1)], [(7, 2), (2, 1)]) ∧
      (∀ hash, sampleForked.voterNodeLevel hash = some 0 → sampleForked.voterParentNeighbor hash = none) ∧
      ∃ added removed ancestor fromVotes toVotes,
        sampleForked.voteDiff 3 5 10 = some (added, removed) ∧
        (∀ block, sampleForked.VoterAncestor ancestor block ↔
          sampleForked.VoterAncestor 5 block ∧ sampleForked.VoterAncestor 10 block) ∧
        (∀ proposer voterLevel, (proposer, voterLevel) ∈ added ↔
          ∃ block, sampleForked.VoterAncestor 10 block ∧ sampleForked.VoterAncestor block ancestor ∧
            block ≠ ancestor ∧ sampleForked.voterNodeLevel block = some voterLevel ∧
            proposer ∈ (sampleForked.voteNeighbor block).getD []) ∧
        (∀ proposer voterLevel, (proposer, voterLevel) ∈ removed ↔
          ∃ block, sampleForked.VoterAncestor 5 block ∧ sampleForked.VoterAncestor block ancestor ∧
            block ≠ ancestor ∧ sampleForked.voterNodeLevel block = some voterLevel ∧
            proposer ∈ (sampleForked.voteNeighbor block).getD []) ∧
        sampleForked.pathVotes 5 2 = some fromVotes ∧ sampleForked.pathVotes 10 3 = some toVotes ∧
        (∀ vote, vote ∈ toVotes ↔ vote ∈ added ∨ (vote ∈ fromVotes ∧ vote ∉ removed)) ∧
        added.Nodup ∧ removed.Nodup := by
  have fromAt : sampleForked.voterNodeLevel 5 = some 2 := by decide
  have toAt : sampleForked.voterNodeLevel 10 = some 3 := by decide
  have sameChain : sampleForked.voterNodeChain 10 = sampleForked.voterNodeChain 5 := by decide
  exact ⟨sampleForked_reachable, fromAt, toAt, sameChain, by decide,
    voteDiff_switches_main_chain sampleForked_reachable fromAt toAt sameChain 3 (by decide) le_rfl⟩

end Run

end Prism
