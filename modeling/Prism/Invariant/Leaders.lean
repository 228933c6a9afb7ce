import Prism.Invariant.VoteCount

/-!
# The leader phase of `update_ledger`

The leader phase recomputes the leader of every level of the affected range,
in increasing order, and records the first level whose leader changes as
`change_begin`.  What it leaves: the leaders of the other levels and, below
`change_begin`, of every level as they were; no leader changed at all when
there is no `change_begin`; and every new leader a proposer block of its
level.  The affected range lies within the proposer levels, so in a state with
the indices and the vote table every `proposer_leader` it calls returns, and so
does the phase.
-/

namespace Prism

namespace BlockChain

variable {H : Type} [DecidableEq H] {policy : ConfirmationPolicy H}

/-! ## One level -/

section Step

omit [DecidableEq H] in
/-- `proposer_leader` reads no leader. -/
theorem LeaderFrame.proposerLeader_eq {chain next : BlockChain H} (frame : LeaderFrame chain next)
    (policy : ConfirmationPolicy H) : next.proposerLeader policy = chain.proposerLeader policy := by
  rw [show next = _ from frame]
  rfl

/-- One level of the leader loop writes the leader it computes, none or a
block of the level, and records the level as `change_begin` when the leader
changes and no level was recorded yet. -/
theorem updateLeader_eq_some {state next : BlockChain H × Option Nat} {level : Nat}
    (updated : updateLeader policy state level = some next) :
    ∃ newLeader, (∀ leader, newLeader = some leader →
        ∃ blocks, state.1.proposerTreeLevel level = some blocks ∧ leader ∈ blocks) ∧
      next.1.proposerLeaderSequence = Function.update state.1.proposerLeaderSequence level newLeader ∧
      LeaderFrame state.1 next.1 ∧
      next.2 = if newLeader = state.1.proposerLeaderSequence level then state.2
        else if state.2.isNone then some level else state.2 := by
  obtain ⟨chain, changeBegin⟩ := state
  unfold updateLeader at updated
  cases confirmEq : chain.proposerLeader policy level .confirm with
  | none => simp [confirmEq] at updated
  | some confirmed =>
      cases deconfirmEq : chain.proposerLeader policy level .deconfirm with
      | none => simp [confirmEq, deconfirmEq] at updated
      | some deconfirmed =>
          simp only [confirmEq, deconfirmEq, Option.bind_eq_bind, Option.bind_some] at updated
          -- the leader computed with the quantile of the level's state
          have chosen : ∀ leader, (if (chain.proposerLeaderSequence level).isSome then deconfirmed
              else confirmed) = some leader →
              ∃ blocks, chain.proposerTreeLevel level = some blocks ∧ leader ∈ blocks := by
            intro leader picked
            split_ifs at picked
            · exact proposerLeader_mem (by rw [deconfirmEq, picked])
            · exact proposerLeader_mem (by rw [confirmEq, picked])
          generalize (if (chain.proposerLeaderSequence level).isSome then deconfirmed
            else confirmed) = newLeader at updated chosen
          refine ⟨newLeader, chosen, ?_⟩
          by_cases same : newLeader = chain.proposerLeaderSequence level
          · rw [if_neg (not_not.mpr same), Option.some.injEq] at updated
            subst updated
            exact ⟨by rw [same, Function.update_eq_self], LeaderFrame.refl _, by rw [if_pos same]⟩
          · rw [if_pos same, Option.some.injEq] at updated
            subst updated
            exact ⟨rfl, rfl, by rw [if_neg same]⟩

/-- One level of the leader loop returns when `proposer_leader` does for both
quantiles. -/
theorem updateLeader_isSome {state : BlockChain H × Option Nat} {level : Nat}
    (confirms : ∃ leader, state.1.proposerLeader policy level .confirm = some leader)
    (deconfirms : ∃ leader, state.1.proposerLeader policy level .deconfirm = some leader) :
    ∃ next, updateLeader policy state level = some next := by
  obtain ⟨confirmed, confirmEq⟩ := confirms
  obtain ⟨deconfirmed, deconfirmEq⟩ := deconfirms
  unfold updateLeader
  simp only [confirmEq, deconfirmEq, Option.bind_eq_bind, Option.bind_some]
  -- every branch returns
  split_ifs <;> exact ⟨_, rfl⟩

end Step

/-! ## The loop over the affected levels -/

section Loop

/-- The leader loop over increasing levels: the leaders of the other levels
stay; every new leader is a block of its level; a recorded `change_begin`
stays recorded; and from no `change_begin`, no leader changes unless one is
recorded, which is one of the levels, below which no leader changed. -/
theorem foldlM_updateLeader_spec :
    ∀ (levels : List Nat) (state result : BlockChain H × Option Nat), levels.Pairwise (· < ·) →
      levels.foldlM (updateLeader policy) state = some result →
      (∀ level ∉ levels, result.1.proposerLeaderSequence level = state.1.proposerLeaderSequence level) ∧
      (∀ level leader, result.1.proposerLeaderSequence level = some leader →
        result.1.proposerLeaderSequence level = state.1.proposerLeaderSequence level ∨
          ∃ blocks, state.1.proposerTreeLevel level = some blocks ∧ leader ∈ blocks) ∧
      (∀ begin, state.2 = some begin → result.2 = some begin) ∧
      (state.2 = none → result.2 = none → result.1.proposerLeaderSequence = state.1.proposerLeaderSequence) ∧
      (state.2 = none → ∀ begin, result.2 = some begin → begin ∈ levels ∧
        result.1.proposerLeaderSequence begin ≠ state.1.proposerLeaderSequence begin ∧
        ∀ level < begin, result.1.proposerLeaderSequence level = state.1.proposerLeaderSequence level) := by
  intro levels
  induction levels with
  | nil =>
      intro state result _ finished
      cases finished
      exact ⟨fun _ _ => rfl, fun _ _ _ => .inl rfl, fun _ recorded => recorded, fun _ _ => rfl,
        fun unrecorded begin recorded => by rw [unrecorded] at recorded; cases recorded⟩
  | cons level rest inductionHypothesis =>
      intro state result increasing finished
      obtain ⟨levelBelow, restIncreasing⟩ := List.pairwise_cons.mp increasing
      rw [List.foldlM_option_cons] at finished
      cases stepped : updateLeader policy state level with
      | none => rw [stepped] at finished; cases finished
      | some middle =>
          rw [stepped, Option.bind_some] at finished
          obtain ⟨newLeader, newInTree, middleLeaders, frame, middleBegin⟩ := updateLeader_eq_some stepped
          obtain ⟨restOthers, restNew, restKeeps, restNone, restFirst⟩ :=
            inductionHypothesis middle result restIncreasing finished
          have sameTree : middle.1.proposerTreeLevel = state.1.proposerTreeLevel := by
            rw [show middle.1 = _ from frame]
            rfl
          -- the leaders of every level but `level` are those of the middle state
          have middleOther : ∀ other, other ≠ level →
              middle.1.proposerLeaderSequence other = state.1.proposerLeaderSequence other := by
            intro other different
            rw [middleLeaders, Function.update_of_ne different]
          refine ⟨fun other absent => ?_, fun other leader chosen => ?_, fun begin recorded => ?_,
            fun unrecorded resultNone => ?_, fun unrecorded begin recorded => ?_⟩
          · rw [restOthers other (fun inRest => absent (List.mem_cons_of_mem level inRest))]
            exact middleOther other (fun same => absent (same ▸ List.mem_cons_self))
          · rcases restNew other leader chosen with unchanged | inTree
            · by_cases same : other = level
              · subst same
                rw [unchanged, middleLeaders, Function.update_self] at chosen ⊢
                exact .inr (newInTree leader chosen)
              · exact .inl (unchanged.trans (middleOther other same))
            · rw [sameTree] at inTree
              exact .inr inTree
          · apply restKeeps begin
            rw [middleBegin, recorded]
            simp
          · -- no level is recorded, so `level` kept its leader
            have unchanged : newLeader = state.1.proposerLeaderSequence level := by
              by_contra changed
              rw [if_neg changed, unrecorded, Option.isNone_none, if_pos rfl] at middleBegin
              rw [restKeeps level middleBegin] at resultNone
              cases resultNone
            have middleNone : middle.2 = none := by rw [middleBegin, if_pos unchanged, unrecorded]
            rw [restNone middleNone resultNone, middleLeaders, unchanged, Function.update_eq_self]
          · by_cases unchanged : newLeader = state.1.proposerLeaderSequence level
            · -- `level` kept its leader: the recorded level comes later
              have middleNone : middle.2 = none := by rw [middleBegin, if_pos unchanged, unrecorded]
              obtain ⟨inRest, changed, restBelow⟩ := restFirst middleNone begin recorded
              have later : begin ≠ level := fun same => Nat.lt_irrefl level (levelBelow level (same ▸ inRest))
              refine ⟨List.mem_cons_of_mem level inRest, by rwa [← middleOther begin later], fun other below => ?_⟩
              rw [restBelow other below, middleLeaders, unchanged, Function.update_eq_self]
            · -- `level` is recorded, and the later levels are all above it
              rw [if_neg unchanged, unrecorded, Option.isNone_none, if_pos rfl] at middleBegin
              rw [restKeeps level middleBegin, Option.some.injEq] at recorded
              subst recorded
              have notLater : level ∉ rest := fun inRest => Nat.lt_irrefl level (levelBelow level inRest)
              refine ⟨List.mem_cons_self, ?_, fun other below => ?_⟩
              · rw [restOthers level notLater, middleLeaders, Function.update_self]
                exact unchanged
              · rw [restOthers other (fun inRest => Nat.lt_asymm below (levelBelow other inRest))]
                exact middleOther other (Nat.ne_of_lt below)

/-- The affected levels are within the proposer levels when the range is. -/
theorem mem_leaderLevels {tip bound level : Nat} {range : Nat × Nat} (within : RangeWithin bound range)
    (member : level ∈ leaderLevels tip range) : 1 ≤ level ∧ level ≤ bound := by
  unfold leaderLevels at member
  rw [List.mem_range'_1] at member
  obtain ⟨startsAfter, endsBelow⟩ := within
  split_ifs at member <;> omega

/-- The leader phase: it leaves the leaders below a recorded `change_begin`,
which is an affected level whose leader it changes, and all of them when none
is recorded; every new leader is a block of its level. -/
theorem updateLeaders_spec {chain : BlockChain H} {range : Nat × Nat} {result : BlockChain H × Option Nat}
    (updated : chain.updateLeaders policy range = some result) :
    (∀ level leader, result.1.proposerLeaderSequence level = some leader →
      result.1.proposerLeaderSequence level = chain.proposerLeaderSequence level ∨
        ∃ blocks, chain.proposerTreeLevel level = some blocks ∧ leader ∈ blocks) ∧
    (result.2 = none → result.1.proposerLeaderSequence = chain.proposerLeaderSequence) ∧
    ∀ begin, result.2 = some begin → begin ∈ leaderLevels chain.proposerLedgerTip range ∧
      result.1.proposerLeaderSequence begin ≠ chain.proposerLeaderSequence begin ∧
      ∀ level < begin, result.1.proposerLeaderSequence level = chain.proposerLeaderSequence level := by
  obtain ⟨_, newInTree, _, unchanged, first⟩ :=
    foldlM_updateLeader_spec _ (chain, none) result List.pairwise_lt_range' updated
  exact ⟨newInTree, unchanged rfl, first rfl⟩

/-- The leader phase returns when `proposer_leader` does at every affected
level. -/
theorem updateLeaders_isSome {chain : BlockChain H} {range : Nat × Nat}
    (leads : ∀ level ∈ leaderLevels chain.proposerLedgerTip range, ∀ quantile,
      ∃ leader, chain.proposerLeader policy level quantile = some leader) :
    ∃ result, chain.updateLeaders policy range = some result := by
  unfold updateLeaders
  -- every level returns, from a state whose only changes are leaders
  obtain ⟨result, updated, _⟩ : ∃ result, (leaderLevels chain.proposerLedgerTip range).foldlM
      (updateLeader policy) (chain, none) = some result ∧ LeaderFrame chain result.1 := by
    apply List.foldlM_option_exists
    · intro state level member frame
      have confirms : ∃ leader, state.1.proposerLeader policy level .confirm = some leader := by
        rw [frame.proposerLeader_eq]
        exact leads level member .confirm
      have deconfirms : ∃ leader, state.1.proposerLeader policy level .deconfirm = some leader := by
        rw [frame.proposerLeader_eq]
        exact leads level member .deconfirm
      obtain ⟨next, stepped⟩ := updateLeader_isSome confirms deconfirms
      exact ⟨next, stepped, frame.trans (updateLeader_frame stepped)⟩
    · exact LeaderFrame.refl chain
  exact ⟨result, updated⟩

/-- In a state with the indices and the vote table, and a range within the
proposer levels, the leader phase returns. -/
theorem VoteTable.updateLeaders_isSome {chain : BlockChain H} (table : chain.VoteTable)
    (voters : chain.VoterIndex) (proposers : chain.ProposerIndex) {range : Nat × Nat}
    (within : RangeWithin chain.proposerBestLevel range) :
    ∃ result, chain.updateLeaders policy range = some result :=
  BlockChain.updateLeaders_isSome fun _ member quantile =>
    table.proposerLeader_exists voters proposers policy quantile (mem_leaderLevels within member).2

end Loop

end BlockChain

end Prism
