import Prism.Blockchain.Insert

/-!
# The vote difference between two voter tips

`BlockChain::vote_diff` walks two blocks of one voter chain back to their
common ancestor: first the deeper one until both have the same level, then
both together until they meet.  The votes of the blocks walked from `to` are
added, those walked from `from` are removed, each tagged with the voter level
of the block that cast it.

Its specification is stated with `pathVotes`, the votes of every block on the
voter-parent path from a block down to its chain's genesis block: the votes
along the path from `to` are the added votes followed by the votes along the
path from the common ancestor, and likewise for `from` and the removed votes.
-/

namespace Prism

namespace BlockChain

variable {H : Type}

/-- The cursors and accumulators of the two loops of `vote_diff`. -/
structure VoteDiffState (H : Type) where
  /-- The block reached from `to`. -/
  toHash : H
  /-- Its level. -/
  toLevel : Nat
  /-- The block reached from `from`. -/
  fromHash : H
  /-- Its level. -/
  fromLevel : Nat
  /-- Votes walked from `to`, with the level of the voter block. -/
  addedVotes : List (H × Nat)
  /-- Votes walked from `from`, with the level of the voter block. -/
  removedVotes : List (H × Nat)

/-- One step back along a voter chain: the votes of `hash` tagged with its
level, its voter parent and the level below (`level -= 1` on a `u64`). -/
def stepBack (chain : BlockChain H) (hash : H) (level : Nat) : Option (List (H × Nat) × H × Nat) := do
  let votes ← chain.voteNeighbor hash
  let parent ← chain.voterParentNeighbor hash
  if level = 0 then none else some (votes.map (·, level), parent, level - 1)

/-- Step the `to` cursor back, adding its votes. -/
def advanceTo (chain : BlockChain H) (state : VoteDiffState H) : Option (VoteDiffState H) := do
  let (votes, parent, level) ← chain.stepBack state.toHash state.toLevel
  some { state with toHash := parent, toLevel := level, addedVotes := state.addedVotes ++ votes }

/-- Step the `from` cursor back, removing its votes. -/
def advanceFrom (chain : BlockChain H) (state : VoteDiffState H) : Option (VoteDiffState H) := do
  let (votes, parent, level) ← chain.stepBack state.fromHash state.fromLevel
  some { state with fromHash := parent, fromLevel := level, removedVotes := state.removedVotes ++ votes }

/-- The loop `while to_level != from_level`, for at most `fuel` iterations. -/
def equalizeLevels (chain : BlockChain H) : Nat → VoteDiffState H → Option (VoteDiffState H)
  | 0, state => if state.toLevel = state.fromLevel then some state else none
  | fuel + 1, state =>
      if state.toLevel = state.fromLevel then some state
      else do
        let state ← if state.toLevel > state.fromLevel then chain.advanceTo state
          else chain.advanceFrom state
        chain.equalizeLevels fuel state

/-- The loop `while to != from`, for at most `fuel` iterations. -/
def walkToAncestor [DecidableEq H] (chain : BlockChain H) : Nat → VoteDiffState H → Option (VoteDiffState H)
  | 0, state => if state.toHash = state.fromHash then some state else none
  | fuel + 1, state =>
      if state.toHash = state.fromHash then some state
      else do
        let state ← chain.advanceTo state
        let state ← chain.advanceFrom state
        chain.walkToAncestor fuel state

/-- `BlockChain::vote_diff(from, to)`: the added and the removed votes, each
loop running for at most `fuel` iterations. -/
def voteDiff [DecidableEq H] (chain : BlockChain H) (fuel : Nat) (fromHash toHash : H) :
    Option (List (H × Nat) × List (H × Nat)) := do
  let toLevel ← chain.voterNodeLevel toHash
  let fromLevel ← chain.voterNodeLevel fromHash
  let state ← chain.equalizeLevels fuel ⟨toHash, toLevel, fromHash, fromLevel, [], []⟩
  let state ← chain.walkToAncestor fuel state
  some (state.addedVotes, state.removedVotes)

/-! ## More fuel

The fuel of the two loops only bounds their iterations: a loop that ends with
some fuel ends the same way with more. -/

section Fuel

variable {chain : BlockChain H}

theorem equalizeLevels_add_fuel (extra : Nat) :
    ∀ (fuel : Nat) (state result : VoteDiffState H), chain.equalizeLevels fuel state = some result →
      chain.equalizeLevels (fuel + extra) state = some result := by
  intro fuel
  induction fuel with
  | zero =>
      intro state result finished
      rw [equalizeLevels] at finished
      split_ifs at finished with same
      rw [Nat.zero_add]
      cases extra <;> rw [equalizeLevels, if_pos same] <;> exact finished
  | succ fuel inductionHypothesis =>
      intro state result finished
      rw [Nat.add_right_comm, equalizeLevels]
      rw [equalizeLevels] at finished
      by_cases same : state.toLevel = state.fromLevel
      · rw [if_pos same] at finished ⊢
        exact finished
      · rw [if_neg same] at finished ⊢
        -- either cursor steps back, then the loop goes on with the same fuel
        by_cases deeper : state.toLevel > state.fromLevel
        · simp only [if_pos deeper, Option.bind_eq_bind, Option.bind_eq_some_iff] at finished ⊢
          obtain ⟨next, advanced, equalized⟩ := finished
          exact ⟨next, advanced, inductionHypothesis next result equalized⟩
        · simp only [if_neg deeper, Option.bind_eq_bind, Option.bind_eq_some_iff] at finished ⊢
          obtain ⟨next, advanced, equalized⟩ := finished
          exact ⟨next, advanced, inductionHypothesis next result equalized⟩

theorem walkToAncestor_add_fuel [DecidableEq H] (extra : Nat) :
    ∀ (fuel : Nat) (state result : VoteDiffState H), chain.walkToAncestor fuel state = some result →
      chain.walkToAncestor (fuel + extra) state = some result := by
  intro fuel
  induction fuel with
  | zero =>
      intro state result finished
      rw [walkToAncestor] at finished
      split_ifs at finished with meet
      rw [Nat.zero_add]
      cases extra <;> rw [walkToAncestor, if_pos meet] <;> exact finished
  | succ fuel inductionHypothesis =>
      intro state result finished
      rw [Nat.add_right_comm, walkToAncestor]
      rw [walkToAncestor] at finished
      by_cases meet : state.toHash = state.fromHash
      · rw [if_pos meet] at finished ⊢
        exact finished
      · rw [if_neg meet] at finished ⊢
        simp only [Option.bind_eq_bind, Option.bind_eq_some_iff] at finished ⊢
        obtain ⟨middle, advancedTo, next, advancedFrom, walked⟩ := finished
        exact ⟨middle, advancedTo, next, advancedFrom, inductionHypothesis next result walked⟩

theorem voteDiff_add_fuel [DecidableEq H] {fuel : Nat} (extra : Nat) {fromHash toHash : H}
    {diff : List (H × Nat) × List (H × Nat)} (finished : chain.voteDiff fuel fromHash toHash = some diff) :
    chain.voteDiff (fuel + extra) fromHash toHash = some diff := by
  simp only [voteDiff, Option.bind_eq_bind, Option.bind_eq_some_iff] at finished ⊢
  obtain ⟨toLevel, toAt, fromLevel, fromAt, equal, equalized, final, walked, done⟩ := finished
  exact ⟨toLevel, toAt, fromLevel, fromAt, equal, equalizeLevels_add_fuel extra fuel _ _ equalized, final,
    walkToAncestor_add_fuel extra fuel _ _ walked, done⟩

end Fuel

/-! ## Votes along a voter chain -/

/-- The votes of the blocks on the voter-parent path from `hash`, a block of
voter level `level`, down to level zero, each tagged with the level of the
block that casts it. -/
def pathVotes (chain : BlockChain H) : H → Nat → Option (List (H × Nat))
  | hash, 0 => do
      let votes ← chain.voteNeighbor hash
      some (votes.map (·, 0))
  | hash, level + 1 => do
      let votes ← chain.voteNeighbor hash
      let parent ← chain.voterParentNeighbor hash
      let below ← chain.pathVotes parent level
      some (votes.map (·, level + 1) ++ below)

/-- The voter blocks form one tree per chain, rooted at the chain's genesis
block: what `vote_diff` needs of the voter indices. -/
structure VoterTree (chain : BlockChain H) : Prop where
  /-- Every voter block has a chain number. -/
  chain_isSome : ∀ hash level, chain.voterNodeLevel hash = some level →
    (chain.voterNodeChain hash).isSome
  /-- Every voter block has its votes. -/
  votes_isSome : ∀ hash level, chain.voterNodeLevel hash = some level →
    (chain.voteNeighbor hash).isSome
  /-- A voter block of level zero is the genesis block of its chain. -/
  genesis : ∀ hash chainNum, chain.voterNodeLevel hash = some 0 →
    chain.voterNodeChain hash = some chainNum → chain.config.voterGenesis[chainNum]? = some hash
  /-- A voter block above level zero has a voter parent one level lower on the
  same chain. -/
  parent : ∀ hash level, chain.voterNodeLevel hash = some (level + 1) →
    ∃ parent, chain.voterParentNeighbor hash = some parent ∧
      chain.voterNodeLevel parent = some level ∧ chain.voterNodeChain parent = chain.voterNodeChain hash

section Spec

variable {chain : BlockChain H}

/-- Two voter blocks of one chain at level zero are the same block. -/
theorem VoterTree.eq_of_level_zero (tree : chain.VoterTree) {first second : H}
    (firstAt : chain.voterNodeLevel first = some 0) (secondAt : chain.voterNodeLevel second = some 0)
    (sameChain : chain.voterNodeChain first = chain.voterNodeChain second) : first = second := by
  obtain ⟨chainNum, chainEq⟩ := Option.isSome_iff_exists.mp (tree.chain_isSome first 0 firstAt)
  have firstGenesis := tree.genesis first chainNum firstAt chainEq
  have secondGenesis := tree.genesis second chainNum secondAt (sameChain ▸ chainEq)
  rw [firstGenesis] at secondGenesis
  exact Option.some.inj secondGenesis

/-- Every voter block has its path votes. -/
theorem VoterTree.pathVotes_isSome (tree : chain.VoterTree) :
    ∀ (level : Nat) (hash : H), chain.voterNodeLevel hash = some level →
      (chain.pathVotes hash level).isSome := by
  intro level
  induction level with
  | zero =>
      intro hash at0
      obtain ⟨votes, votesEq⟩ := Option.isSome_iff_exists.mp (tree.votes_isSome hash 0 at0)
      simp [pathVotes, votesEq]
  | succ level inductionHypothesis =>
      intro hash atLevel
      obtain ⟨votes, votesEq⟩ := Option.isSome_iff_exists.mp (tree.votes_isSome hash _ atLevel)
      obtain ⟨parent, parentEq, parentAt, _⟩ := tree.parent hash level atLevel
      obtain ⟨below, belowEq⟩ := Option.isSome_iff_exists.mp (inductionHypothesis parent parentAt)
      simp [pathVotes, votesEq, parentEq, belowEq]

/-- A step back from a voter block above level zero peels its votes off its
path votes. -/
theorem VoterTree.stepBack_spec (tree : chain.VoterTree) {hash : H} {level : Nat}
    (atLevel : chain.voterNodeLevel hash = some (level + 1)) :
    ∃ votes parent below, chain.stepBack hash (level + 1) = some (votes, parent, level) ∧
      chain.voterNodeLevel parent = some level ∧
      chain.voterNodeChain parent = chain.voterNodeChain hash ∧
      chain.pathVotes parent level = some below ∧
      chain.pathVotes hash (level + 1) = some (votes ++ below) ∧
      ∀ vote ∈ votes, vote.2 = level + 1 := by
  obtain ⟨votes, votesEq⟩ := Option.isSome_iff_exists.mp (tree.votes_isSome hash _ atLevel)
  obtain ⟨parent, parentEq, parentAt, parentChain⟩ := tree.parent hash level atLevel
  obtain ⟨below, belowEq⟩ := Option.isSome_iff_exists.mp (tree.pathVotes_isSome level parent parentAt)
  refine ⟨votes.map (·, level + 1), parent, below, ?_, parentAt, parentChain, belowEq, ?_, ?_⟩
  · simp [stepBack, votesEq, parentEq]
  · simp [pathVotes, votesEq, parentEq, belowEq]
  · intro vote member
    obtain ⟨_, _, rfl⟩ := List.mem_map.mp member
    rfl

/-- What the loops of `vote_diff` keep: both cursors are blocks of the chain at
their levels, and the votes of the starting blocks' paths are the walked votes
followed by the votes of the cursors' paths. -/
structure VoteDiffState.Tracks (chain : BlockChain H) (state start : VoteDiffState H)
    (toVotes fromVotes : List (H × Nat)) : Prop where
  toAt : chain.voterNodeLevel state.toHash = some state.toLevel
  fromAt : chain.voterNodeLevel state.fromHash = some state.fromLevel
  sameChain : chain.voterNodeChain state.toHash = chain.voterNodeChain state.fromHash
  toPath : ∃ below, chain.pathVotes state.toHash state.toLevel = some below ∧
    toVotes = state.addedVotes ++ below
  fromPath : ∃ below, chain.pathVotes state.fromHash state.fromLevel = some below ∧
    fromVotes = state.removedVotes ++ below
  addedAbove : ∀ vote ∈ state.addedVotes, state.toLevel < vote.2
  removedAbove : ∀ vote ∈ state.removedVotes, state.fromLevel < vote.2
  toBelow : state.toLevel ≤ start.toLevel
  fromBelow : state.fromLevel ≤ start.fromLevel

theorem VoteDiffState.Tracks.advanceTo_spec (tree : chain.VoterTree) {start state : VoteDiffState H}
    {toVotes fromVotes : List (H × Nat)} (tracks : state.Tracks chain start toVotes fromVotes)
    (positive : 0 < state.toLevel) :
    ∃ next, chain.advanceTo state = some next ∧ next.Tracks chain start toVotes fromVotes ∧
      next.toLevel + 1 = state.toLevel ∧ next.fromLevel = state.fromLevel ∧
      next.fromHash = state.fromHash := by
  obtain ⟨level, levelEq⟩ : ∃ level, state.toLevel = level + 1 := ⟨state.toLevel - 1, by omega⟩
  have atLevel := tracks.toAt
  rw [levelEq] at atLevel
  obtain ⟨votes, parent, below, stepped, parentAt, parentChain, belowEq, pathEq, votesAt⟩ :=
    tree.stepBack_spec atLevel
  obtain ⟨oldBelow, oldEq, toVotesEq⟩ := tracks.toPath
  rw [levelEq, pathEq, Option.some.injEq] at oldEq
  refine ⟨{ state with toHash := parent, toLevel := level, addedVotes := state.addedVotes ++ votes },
    by unfold advanceTo; rw [levelEq, stepped]; rfl, ?_, levelEq.symm, rfl, rfl⟩
  refine ⟨parentAt, tracks.fromAt, parentChain.trans tracks.sameChain, ⟨below, belowEq, ?_⟩,
    tracks.fromPath, ?_, tracks.removedAbove, by have := tracks.toBelow; dsimp only; omega,
    tracks.fromBelow⟩
  · rw [toVotesEq, ← oldEq, List.append_assoc]
  · intro vote member
    dsimp only
    rcases List.mem_append.mp member with earlier | fresh
    · have := tracks.addedAbove vote earlier
      omega
    · have := votesAt vote fresh
      omega

theorem VoteDiffState.Tracks.advanceFrom_spec (tree : chain.VoterTree) {start state : VoteDiffState H}
    {toVotes fromVotes : List (H × Nat)} (tracks : state.Tracks chain start toVotes fromVotes)
    (positive : 0 < state.fromLevel) :
    ∃ next, chain.advanceFrom state = some next ∧ next.Tracks chain start toVotes fromVotes ∧
      next.fromLevel + 1 = state.fromLevel ∧ next.toLevel = state.toLevel ∧
      next.toHash = state.toHash := by
  obtain ⟨level, levelEq⟩ : ∃ level, state.fromLevel = level + 1 := ⟨state.fromLevel - 1, by omega⟩
  have atLevel := tracks.fromAt
  rw [levelEq] at atLevel
  obtain ⟨votes, parent, below, stepped, parentAt, parentChain, belowEq, pathEq, votesAt⟩ :=
    tree.stepBack_spec atLevel
  obtain ⟨oldBelow, oldEq, fromVotesEq⟩ := tracks.fromPath
  rw [levelEq, pathEq, Option.some.injEq] at oldEq
  refine ⟨{ state with
      fromHash := parent, fromLevel := level, removedVotes := state.removedVotes ++ votes },
    by unfold advanceFrom; rw [levelEq, stepped]; rfl, ?_, levelEq.symm, rfl, rfl⟩
  refine ⟨tracks.toAt, parentAt, tracks.sameChain.trans parentChain.symm, tracks.toPath,
    ⟨below, belowEq, ?_⟩, tracks.addedAbove, ?_, tracks.toBelow,
    by have := tracks.fromBelow; dsimp only; omega⟩
  · rw [fromVotesEq, ← oldEq, List.append_assoc]
  · intro vote member
    dsimp only
    rcases List.mem_append.mp member with earlier | fresh
    · have := tracks.removedAbove vote earlier
      omega
    · have := votesAt vote fresh
      omega

/-- The first loop ends, with both cursors at the same level, when the fuel
covers the difference of the levels. -/
theorem VoteDiffState.Tracks.equalizeLevels_spec (tree : chain.VoterTree) {start : VoteDiffState H}
    {toVotes fromVotes : List (H × Nat)} :
    ∀ (fuel : Nat) (state : VoteDiffState H), state.Tracks chain start toVotes fromVotes →
      state.toLevel - state.fromLevel + (state.fromLevel - state.toLevel) ≤ fuel →
      ∃ result, chain.equalizeLevels fuel state = some result ∧
        result.Tracks chain start toVotes fromVotes ∧ result.toLevel = result.fromLevel := by
  intro fuel
  induction fuel with
  | zero =>
      intro state tracks enough
      have same : state.toLevel = state.fromLevel := by omega
      exact ⟨state, by rw [equalizeLevels, if_pos same], tracks, same⟩
  | succ fuel inductionHypothesis =>
      intro state tracks enough
      by_cases same : state.toLevel = state.fromLevel
      · exact ⟨state, by rw [equalizeLevels, if_pos same], tracks, same⟩
      · by_cases deeper : state.toLevel > state.fromLevel
        · obtain ⟨next, advanced, nextTracks, lower, fromSame, _⟩ :=
            tracks.advanceTo_spec tree (by omega)
          obtain ⟨result, finished, resultTracks, resultSame⟩ :=
            inductionHypothesis next nextTracks (by omega)
          exact ⟨result, by rw [equalizeLevels, if_neg same, if_pos deeper, advanced]; exact finished,
            resultTracks, resultSame⟩
        · obtain ⟨next, advanced, nextTracks, lower, toSame, _⟩ :=
            tracks.advanceFrom_spec tree (by omega)
          obtain ⟨result, finished, resultTracks, resultSame⟩ :=
            inductionHypothesis next nextTracks (by omega)
          exact ⟨result, by rw [equalizeLevels, if_neg same, if_neg deeper, advanced]; exact finished,
            resultTracks, resultSame⟩

/-- The second loop ends at the common ancestor when the fuel covers the
level of the cursors. -/
theorem VoteDiffState.Tracks.walkToAncestor_spec [DecidableEq H] (tree : chain.VoterTree) {start : VoteDiffState H}
    {toVotes fromVotes : List (H × Nat)} :
    ∀ (fuel : Nat) (state : VoteDiffState H), state.Tracks chain start toVotes fromVotes →
      state.toLevel = state.fromLevel → state.toLevel ≤ fuel →
      ∃ result, chain.walkToAncestor fuel state = some result ∧
        result.Tracks chain start toVotes fromVotes ∧ result.toHash = result.fromHash ∧
        result.toLevel = result.fromLevel := by
  intro fuel
  induction fuel with
  | zero =>
      intro state tracks sameLevel enough
      have at0 : state.toLevel = 0 := by omega
      have meet : state.toHash = state.fromHash := by
        have toAt := tracks.toAt
        have fromAt := tracks.fromAt
        rw [at0] at toAt
        rw [← sameLevel, at0] at fromAt
        exact tree.eq_of_level_zero toAt fromAt tracks.sameChain
      exact ⟨state, by rw [walkToAncestor, if_pos meet], tracks, meet, sameLevel⟩
  | succ fuel inductionHypothesis =>
      intro state tracks sameLevel enough
      by_cases meet : state.toHash = state.fromHash
      · exact ⟨state, by rw [walkToAncestor, if_pos meet], tracks, meet, sameLevel⟩
      · have positive : 0 < state.toLevel := by
          by_contra atZero
          have at0 : state.toLevel = 0 := by omega
          have toAt := tracks.toAt
          have fromAt := tracks.fromAt
          rw [at0] at toAt
          rw [← sameLevel, at0] at fromAt
          exact meet (tree.eq_of_level_zero toAt fromAt tracks.sameChain)
        obtain ⟨middle, advancedTo, middleTracks, toLower, fromSame, _⟩ :=
          tracks.advanceTo_spec tree positive
        obtain ⟨next, advancedFrom, nextTracks, fromLower, toSame, _⟩ :=
          middleTracks.advanceFrom_spec tree (by omega)
        obtain ⟨result, finished, resultTracks, resultMeet, resultSame⟩ :=
          inductionHypothesis next nextTracks (by omega) (by omega)
        refine ⟨result, ?_, resultTracks, resultMeet, resultSame⟩
        rw [walkToAncestor, if_neg meet, advancedTo]
        change (chain.advanceFrom middle).bind _ = _
        rw [advancedFrom]
        exact finished

/-- `vote_diff` between two blocks of one voter chain ends when the fuel
covers their levels, at a common ancestor: the votes along the path from `to`
are the added votes, all cast above the ancestor, followed by the votes along
the ancestor's path, and the votes along the path from `from` are the removed
votes followed by the same. -/
theorem VoterTree.voteDiff_spec [DecidableEq H] (tree : chain.VoterTree) {fromHash toHash : H}
    {fromLevel toLevel fuel : Nat}
    (fromAt : chain.voterNodeLevel fromHash = some fromLevel)
    (toAt : chain.voterNodeLevel toHash = some toLevel)
    (sameChain : chain.voterNodeChain toHash = chain.voterNodeChain fromHash)
    (fromEnough : fromLevel ≤ fuel) (toEnough : toLevel ≤ fuel) :
    ∃ added removed ancestor ancestorLevel common,
      chain.voteDiff fuel fromHash toHash = some (added, removed) ∧
      chain.voterNodeLevel ancestor = some ancestorLevel ∧
      chain.pathVotes ancestor ancestorLevel = some common ∧
      chain.pathVotes toHash toLevel = some (added ++ common) ∧
      chain.pathVotes fromHash fromLevel = some (removed ++ common) ∧
      (∀ vote ∈ added, ancestorLevel < vote.2) ∧ (∀ vote ∈ removed, ancestorLevel < vote.2) := by
  obtain ⟨toVotes, toVotesEq⟩ := Option.isSome_iff_exists.mp (tree.pathVotes_isSome toLevel toHash toAt)
  obtain ⟨fromVotes, fromVotesEq⟩ :=
    Option.isSome_iff_exists.mp (tree.pathVotes_isSome fromLevel fromHash fromAt)
  let start : VoteDiffState H := ⟨toHash, toLevel, fromHash, fromLevel, [], []⟩
  have startTracks : start.Tracks chain start toVotes fromVotes :=
    ⟨toAt, fromAt, sameChain, ⟨toVotes, toVotesEq, rfl⟩, ⟨fromVotes, fromVotesEq, rfl⟩,
      by simp [start], by simp [start], le_rfl, le_rfl⟩
  obtain ⟨equal, equalized, equalTracks, sameLevel⟩ :=
    startTracks.equalizeLevels_spec tree fuel start (by simp only [start]; omega)
  obtain ⟨final, walked, finalTracks, meet, levelsEq⟩ :=
    equalTracks.walkToAncestor_spec tree fuel equal sameLevel
      (by have := equalTracks.toBelow; simp only [start] at this; omega)
  obtain ⟨common, commonEq, toSplit⟩ := finalTracks.toPath
  obtain ⟨fromCommon, fromCommonEq, fromSplit⟩ := finalTracks.fromPath
  rw [← meet, ← levelsEq, commonEq, Option.some.injEq] at fromCommonEq
  subst fromCommonEq
  refine ⟨final.addedVotes, final.removedVotes, final.toHash, final.toLevel, common, ?_,
    finalTracks.toAt, commonEq, ?_, ?_, finalTracks.addedAbove, ?_⟩
  · simp [voteDiff, toAt, fromAt, start] at equalized ⊢
    simp [equalized, walked]
  · rw [toVotesEq, toSplit]
  · rw [fromVotesEq, fromSplit]
  · intro vote member
    rw [levelsEq]
    exact finalTracks.removedAbove vote member

/-- Whatever `vote_diff` returns, with any fuel, is the split of the two paths
at their common ancestor that `voteDiff_spec` describes. -/
theorem VoterTree.voteDiff_of_eq_some [DecidableEq H] (tree : chain.VoterTree) {fromHash toHash : H}
    {fromLevel toLevel fuel : Nat} {added removed : List (H × Nat)}
    (fromAt : chain.voterNodeLevel fromHash = some fromLevel)
    (toAt : chain.voterNodeLevel toHash = some toLevel)
    (sameChain : chain.voterNodeChain toHash = chain.voterNodeChain fromHash)
    (diffEq : chain.voteDiff fuel fromHash toHash = some (added, removed)) :
    ∃ ancestor ancestorLevel common,
      chain.voterNodeLevel ancestor = some ancestorLevel ∧
      chain.pathVotes ancestor ancestorLevel = some common ∧
      chain.pathVotes toHash toLevel = some (added ++ common) ∧
      chain.pathVotes fromHash fromLevel = some (removed ++ common) ∧
      (∀ vote ∈ added, ancestorLevel < vote.2) ∧ (∀ vote ∈ removed, ancestorLevel < vote.2) := by
  -- with fuel for both levels the loops end; more fuel keeps the result
  obtain ⟨added', removed', ancestor, ancestorLevel, common, diffEq', ancestorAt, commonEq, toPath, fromPath,
    addedAbove, removedAbove⟩ :=
    tree.voteDiff_spec fromAt toAt sameChain (show fromLevel ≤ fuel + (fromLevel + toLevel) by omega) (by omega)
  rw [voteDiff_add_fuel (fromLevel + toLevel) diffEq, Option.some.injEq, Prod.mk.injEq] at diffEq'
  obtain ⟨rfl, rfl⟩ := diffEq'
  exact ⟨ancestor, ancestorLevel, common, ancestorAt, commonEq, toPath, fromPath, addedAbove, removedAbove⟩

end Spec

end BlockChain

end Prism
