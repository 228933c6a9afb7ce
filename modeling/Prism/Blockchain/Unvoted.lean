import Prism.Blockchain.State
import Prism.Library.FirstMax
import Prism.Library.OptionFold

/-!
# The proposer blocks a new voter block votes for

`BlockChain::unvoted_proposer`: for each proposer level after the deepest
level the voter chain's tip has voted for, up to the level of the proposer
parent, the block of that level with the most votes, ties going to the least
hash.  The blocks of a level are sorted (`sort_unstable`, here a merge sort:
for a linear order both give the one sorted permutation), and the loop over
them replaces the best block only by one with strictly more votes, the scan of
`FirstMax`.
-/

namespace Prism

namespace BlockChain

variable {H : Type}

/-- The loop over the sorted blocks of one level: the best block so far, with
its vote count, and the next block, whose count is zero when it has none. -/
def bestVoteStep (chain : BlockChain H) (bestVote : Option (H × Nat)) (blockHash : H) : Option (H × Nat) :=
  let voteCount := (chain.proposerVoteCount blockHash).getD 0
  match bestVote with
  | some (hash, numVotes) => if voteCount > numVotes then some (blockHash, voteCount) else some (hash, numVotes)
  | none => some (blockHash, voteCount)

/-- `BlockChain::unvoted_proposer`: the best block of each level from the
tip's deepest voted level, exclusive, to the proposer parent's, inclusive. -/
def unvotedProposer [LinearOrder H] (chain : BlockChain H) (tip proposerParent : H) : Option (List H) := do
  let firstVoteLevel ← chain.voterNodeVotedLevel tip
  let lastVoteLevel ← chain.proposerNodeLevel proposerParent
  (List.range' (firstVoteLevel + 1) (lastVoteLevel - firstVoteLevel)).mapM fun level => do
    let blocks ← chain.proposerTreeLevel level
    let bestVote ← blocks.mergeSort.foldl chain.bestVoteStep none
    some bestVote.1

section Spec

variable {chain : BlockChain H}

/-- The loop over a level is the scan of `FirstMax` by vote count. -/
theorem bestVoteStep_eq :
    chain.bestVoteStep = FirstMax.step fun block => (chain.proposerVoteCount block).getD 0 := by
  funext bestVote blockHash
  rcases bestVote with _ | ⟨hash, numVotes⟩ <;> rfl

variable [LinearOrder H]

/-- Over the blocks of a level, the loop ends at one of them with as many
votes as any, and the least of those with as many. -/
theorem bestVote_of_level {blocks : List H} (nonempty : blocks ≠ []) :
    ∃ best, blocks.mergeSort.foldl chain.bestVoteStep none = some (best, (chain.proposerVoteCount best).getD 0) ∧
      best ∈ blocks ∧ ∀ other ∈ blocks,
        (chain.proposerVoteCount other).getD 0 ≤ (chain.proposerVoteCount best).getD 0 ∧
        ((chain.proposerVoteCount other).getD 0 = (chain.proposerVoteCount best).getD 0 → best ≤ other) := by
  have sorted : blocks.mergeSort.Pairwise (· ≤ ·) := List.pairwise_mergeSort' (· ≤ ·) blocks
  have sortedNonempty : blocks.mergeSort ≠ [] := by
    intro empty
    obtain ⟨block, member⟩ := List.exists_mem_of_ne_nil blocks nonempty
    have sortedMember : block ∈ blocks.mergeSort := List.mem_mergeSort.mpr member
    rw [empty] at sortedMember
    cases sortedMember
  obtain ⟨best, scanned, bestIn, bestMax⟩ := FirstMax.foldl_step_of_sorted _ sorted sortedNonempty
  refine ⟨best, by rw [bestVoteStep_eq]; exact scanned, List.mem_mergeSort.mp bestIn, fun other member => ?_⟩
  exact bestMax other (List.mem_mergeSort.mpr member)

/-- With a block at each level it covers, `unvoted_proposer` returns, for each
level from the tip's deepest voted level, exclusive, to the proposer parent's,
a block of that level with as many votes as any other there, and the least of
those with as many. -/
theorem unvotedProposer_spec {tip proposerParent : H} {voted parentLevel : Nat}
    (tipVoted : chain.voterNodeVotedLevel tip = some voted)
    (parentAt : chain.proposerNodeLevel proposerParent = some parentLevel)
    (levelsFilled : ∀ level, voted < level → level ≤ parentLevel →
      ∃ blocks, chain.proposerTreeLevel level = some blocks ∧ blocks ≠ []) :
    ∃ votes, chain.unvotedProposer tip proposerParent = some votes ∧
      List.Forall₂ (fun level best => ∃ blocks, chain.proposerTreeLevel level = some blocks ∧ best ∈ blocks ∧
        ∀ other ∈ blocks, (chain.proposerVoteCount other).getD 0 ≤ (chain.proposerVoteCount best).getD 0 ∧
          ((chain.proposerVoteCount other).getD 0 = (chain.proposerVoteCount best).getD 0 → best ≤ other))
        (List.range' (voted + 1) (parentLevel - voted)) votes := by
  simp only [unvotedProposer, tipVoted, parentAt, Option.bind_eq_bind, Option.bind_some]
  apply List.mapM_option_forall₂
  intro level member
  rw [List.mem_range'_1] at member
  obtain ⟨blocks, blocksEq, nonempty⟩ := levelsFilled level (by omega) (by omega)
  obtain ⟨best, scanned, bestIn, bestMax⟩ := @bestVote_of_level H chain _ blocks nonempty
  exact ⟨best, by simp [blocksEq, scanned], blocks, blocksEq, bestIn, bestMax⟩

end Spec

end BlockChain

end Prism
