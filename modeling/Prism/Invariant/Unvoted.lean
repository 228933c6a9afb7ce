import Prism.Invariant.Index
import Prism.Blockchain.Unvoted
import Mathlib

/-!
# The miner's votes pass `check_levels_voted`

The miner fills a new voter block's votes with `unvoted_proposer`, and its
peers check them with `check_levels_voted`: the two compute the window of
levels with different code, an inclusive range against a length check and a
running counter.  In every reachable state each level of the window has a
proposer block (every level up to the best one does, and the proposer parent
is no deeper), so `unvoted_proposer` returns one block for each level of the
window, in order, and the check passes.
-/

namespace Prism

section Run

variable {H T : Type} [LinearOrder H] [Hashable (Header H) H]

/-- In every reachable state, for a voter block `tip` and a proposer block
`parent` no shallower than the tip's deepest voted level, `unvoted_proposer`
returns one block for each level after that voted level up to the parent's,
the block at place `index` being a proposer block of the `index`-th of those
levels with as many votes as any other block of its level, and the least of
those with as many; and `check_levels_voted` passes a voter block on `tip`
with these votes. -/
theorem unvotedProposer_passes_check [Inhabited H] {checkSignatureBatch : List T → Bool}
    {policy : ConfirmationPolicy H} {config : BlockchainConfig H} {chain : BlockChain H}
    {inserted : List (Block H T)} (reachable : Reachable checkSignatureBatch policy config chain inserted)
    {tip parent : H} {voted parentLevel : Nat} (tipVoted : chain.voterNodeVotedLevel tip = some voted)
    (parentAt : chain.proposerNodeLevel parent = some parentLevel) (votedBelow : voted ≤ parentLevel) :
    ∃ votes, chain.unvotedProposer tip parent = some votes ∧
      (∀ content : VoterContent H, content.voterParent = tip → content.votes = votes →
        Validation.checkLevelsVoted chain content parent = some true) ∧
      votes.length = parentLevel - voted ∧
      ∀ (index : Nat) (inside : index < votes.length), ∃ blocks,
        chain.proposerTreeLevel (voted + 1 + index) = some blocks ∧ votes[index] ∈ blocks ∧
        chain.proposerNodeLevel votes[index] = some (voted + 1 + index) ∧
        ∀ other ∈ blocks, (chain.proposerVoteCount other).getD 0 ≤ (chain.proposerVoteCount votes[index]).getD 0 ∧
          ((chain.proposerVoteCount other).getD 0 = (chain.proposerVoteCount votes[index]).getD 0 →
            votes[index] ≤ other) := by
  have indices := reachable.index
  -- every level of the window has a proposer block: none is deeper than the best level
  have filled : ∀ level, voted < level → level ≤ parentLevel →
      ∃ blocks, chain.proposerTreeLevel level = some blocks ∧ blocks ≠ [] := fun level _ below =>
    (indices.proposers.tree_ne_nil_iff level).mpr (below.trans (indices.proposers.le_best parent parentLevel parentAt))
  obtain ⟨votes, returned, related⟩ := chain.unvotedProposer_spec tipVoted parentAt filled
  have lengthEq : votes.length = parentLevel - voted := by
    rw [← related.length_eq, List.length_range']
  -- the block at each place is of that place's level
  have atPlace : ∀ (index : Nat) (inside : index < votes.length), ∃ blocks,
      chain.proposerTreeLevel (voted + 1 + index) = some blocks ∧ votes[index] ∈ blocks ∧
      chain.proposerNodeLevel votes[index] = some (voted + 1 + index) ∧
      ∀ other ∈ blocks, (chain.proposerVoteCount other).getD 0 ≤ (chain.proposerVoteCount votes[index]).getD 0 ∧
        ((chain.proposerVoteCount other).getD 0 = (chain.proposerVoteCount votes[index]).getD 0 →
          votes[index] ≤ other) := by
    intro index inside
    obtain ⟨blocks, blocksEq, bestIn, bestMax⟩ :=
      related.get (show index < (List.range' (voted + 1) (parentLevel - voted)).length by
        rw [List.length_range']; omega) inside
    simp only [List.get_eq_getElem, List.getElem_range', Nat.one_mul] at blocksEq bestIn bestMax
    exact ⟨blocks, blocksEq, bestIn, ((indices.proposers.tree _ blocks blocksEq).2 _).mp bestIn, bestMax⟩
  refine ⟨votes, returned, fun content parentEq votesEq => ?_, lengthEq, atPlace⟩
  -- the votes are for the levels the check counts through
  have levelsEq : votes.map chain.proposerLevel = (List.range' (voted + 1) (parentLevel - voted)).map some := by
    apply List.ext_getElem (by simp [lengthEq])
    intro index inMap inRange
    obtain ⟨_, _, _, levelAt, _⟩ := atPlace index (by simpa using inMap)
    simp [BlockChain.proposerLevel, levelAt]
  rw [Validation.checkLevelsVoted_eq_some_true_of (by rw [parentEq]; exact tipVoted) parentAt, votesEq]
  exact ⟨votedBelow, levelsEq⟩

theorem unvotedProposer_passes_check_sample :
    Reachable (fun _ : List Nat => true) votedBlockPolicy singleChainConfig sampleReorged
        (sampleBlocks ++ [sampleForkNext, sampleForkTip]) ∧
      sampleReorged.voterNodeVotedLevel 1 = some 0 ∧ sampleReorged.proposerNodeLevel 7 = some 2 ∧
      sampleReorged.proposerTreeLevel 1 = some [2, 6] ∧ sampleReorged.proposerVoteCount 2 = some 1 ∧
      sampleReorged.proposerVoteCount 6 = some 1 ∧
      ∃ votes, sampleReorged.unvotedProposer 1 7 = some votes ∧
        (∀ content : VoterContent Nat, content.voterParent = 1 → content.votes = votes →
          Validation.checkLevelsVoted sampleReorged content 7 = some true) ∧
        votes.length = 2 - 0 ∧
        ∀ (index : Nat) (inside : index < votes.length), ∃ blocks,
          sampleReorged.proposerTreeLevel (0 + 1 + index) = some blocks ∧ votes[index] ∈ blocks ∧
          sampleReorged.proposerNodeLevel votes[index] = some (0 + 1 + index) ∧
          ∀ other ∈ blocks, (sampleReorged.proposerVoteCount other).getD 0 ≤
              (sampleReorged.proposerVoteCount votes[index]).getD 0 ∧
            ((sampleReorged.proposerVoteCount other).getD 0 = (sampleReorged.proposerVoteCount votes[index]).getD 0 →
              votes[index] ≤ other) := by
  have tipVoted : sampleReorged.voterNodeVotedLevel 1 = some 0 := by decide
  have parentAt : sampleReorged.proposerNodeLevel 7 = some 2 := by decide
  exact ⟨sampleReorged_reachable, tipVoted, parentAt, by decide, by decide, by decide,
    unvotedProposer_passes_check sampleReorged_reachable tipVoted parentAt (by decide)⟩

end Run

end Prism
