import Prism.Invariant.Leaders

/-!
# The ledger order

The ledger is `PROPOSER_LEDGER_ORDER` of the levels from `0` to
`proposer_ledger_tip`, concatenated.  `Confirmed chain levels` says what the
ledger of the first `levels` levels is:

* every level has a leader and an order that ends with it, whose blocks are
  proposer blocks of the level or below that the leader reaches through
  references, and no level above has an order;
* the ledger has no repetition, shares no block with `unconfirmed_proposers`,
  and with it makes up the proposer blocks;
* every block of the ledger comes after its references.

The level loops of `update_ledger` move between these.  Confirming the level
`levels` with a leader of that level gives `Confirmed (levels + 1)`; the
deconfirm loop from a level `begin` gives `Confirmed begin`; and the rebuild
confirms level after level until one without a leader.  The traverse of a
level ends for enough fuel since references go down in level, and the rebuild
ends since leaders are blocks of their level.
-/

namespace Prism

namespace BlockChain

variable {H : Type} [DecidableEq H]

/-! ## The ledger -/

section Ledger

/-- The parent and proposer references of a block; none for a block without a
reference list. -/
def proposerRefs (chain : BlockChain H) (hash : H) : List H :=
  (chain.proposerRefNeighbor hash).getD []

/-- The ledger orders of the levels below `levels`, concatenated. -/
def ledgerUpTo (chain : BlockChain H) : Nat → List H
  | 0 => []
  | levels + 1 => chain.ledgerUpTo levels ++ (chain.proposerLedgerOrder levels).getD []

/-- The ledger: `PROPOSER_LEDGER_ORDER[0..=proposer_ledger_tip]`, concatenated. -/
def ledger (chain : BlockChain H) : List H :=
  chain.ledgerUpTo (chain.proposerLedgerTip + 1)

variable {chain next : BlockChain H}

omit [DecidableEq H] in
theorem mem_ledgerUpTo {hash : H} :
    ∀ {levels : Nat}, hash ∈ chain.ledgerUpTo levels ↔
      ∃ level < levels, hash ∈ (chain.proposerLedgerOrder level).getD [] := by
  intro levels
  induction levels with
  | zero => simp [ledgerUpTo]
  | succ levels inductionHypothesis =>
      rw [ledgerUpTo, List.mem_append, inductionHypothesis]
      constructor
      · rintro (⟨level, below, member⟩ | member)
        · exact ⟨level, by omega, member⟩
        · exact ⟨levels, by omega, member⟩
      · rintro ⟨level, below, member⟩
        rcases Nat.lt_succ_iff_lt_or_eq.mp below with lower | rfl
        · exact .inl ⟨level, lower, member⟩
        · exact .inr member

omit [DecidableEq H] in
/-- The ledger below `levels` reads the orders below `levels` only. -/
theorem ledgerUpTo_congr :
    ∀ {levels : Nat}, (∀ level < levels, next.proposerLedgerOrder level = chain.proposerLedgerOrder level) →
      next.ledgerUpTo levels = chain.ledgerUpTo levels := by
  intro levels
  induction levels with
  | zero => intro _; rfl
  | succ levels inductionHypothesis =>
      intro agree
      rw [ledgerUpTo, ledgerUpTo, inductionHypothesis (fun level below => agree level (by omega)),
        agree levels (by omega)]

omit [DecidableEq H] in
/-- The ledger below `start + count` is the ledger below `start` followed by
the orders of the `count` levels from `start`. -/
theorem ledgerUpTo_add (chain : BlockChain H) (start : Nat) :
    ∀ count, chain.ledgerUpTo (start + count) =
      chain.ledgerUpTo start ++ (List.range' start count).flatMap fun level => (chain.proposerLedgerOrder level).getD [] := by
  intro count
  induction count with
  | zero => simp
  | succ count inductionHypothesis =>
      rw [← Nat.add_assoc, ledgerUpTo, inductionHypothesis, List.range'_concat, List.flatMap_append,
        List.append_assoc]
      simp

omit [DecidableEq H] in
/-- Writing the order of the level `levels` appends it to the ledger below. -/
theorem ledgerUpTo_succ_of_update {levels : Nat} {order : List H}
    (orders : next.proposerLedgerOrder = Function.update chain.proposerLedgerOrder levels (some order)) :
    next.ledgerUpTo (levels + 1) = chain.ledgerUpTo levels ++ order := by
  have below : next.ledgerUpTo levels = chain.ledgerUpTo levels :=
    ledgerUpTo_congr fun level below => by rw [orders, Function.update_of_ne (by omega)]
  rw [ledgerUpTo, below, orders, Function.update_self, Option.getD_some]

/-- The order of one ledger level with its leader: it ends with the leader,
and its blocks are proposer blocks of the level or below that the leader
reaches through references. -/
structure LevelOrder (chain : BlockChain H) (level : Nat) (leader : H) (order : List H) : Prop where
  /-- The leader comes last. -/
  last : order.getLast? = some leader
  /-- No block is above the level. -/
  below : ∀ hash ∈ order, ∃ hashLevel, chain.proposerNodeLevel hash = some hashLevel ∧ hashLevel ≤ level
  /-- The leader reaches every block. -/
  reached : ∀ hash ∈ order, Relation.ReflTransGen (fun block ref => ref ∈ chain.proposerRefs block) leader hash

/-- The first `levels` levels of the ledger are confirmed, and no level above
has an order. -/
structure Confirmed (chain : BlockChain H) (levels : Nat) : Prop where
  /-- The genesis level as `BlockChain::new` writes it. -/
  genesis_leader : chain.proposerLeaderSequence 0 = some chain.config.proposerGenesis
  genesis_order : chain.proposerLedgerOrder 0 = some [chain.config.proposerGenesis]
  /-- The genesis level is confirmed. -/
  positive : 0 < levels
  /-- Each level has a leader and an order of it. -/
  level : ∀ level < levels, ∃ leader order, chain.proposerLeaderSequence level = some leader ∧
    chain.proposerLedgerOrder level = some order ∧ chain.LevelOrder level leader order
  /-- No level above has an order. -/
  absent : ∀ level, levels ≤ level → chain.proposerLedgerOrder level = none
  /-- No block is confirmed twice. -/
  nodup : (chain.ledgerUpTo levels).Nodup
  /-- No confirmed block is unconfirmed. -/
  disjoint : ∀ hash ∈ chain.ledgerUpTo levels, hash ∉ chain.unconfirmedProposers
  /-- The confirmed and the unconfirmed blocks are the proposer blocks. -/
  cover : ∀ hash, (chain.proposerNodeLevel hash).isSome ↔
    hash ∈ chain.ledgerUpTo levels ∨ hash ∈ chain.unconfirmedProposers
  /-- Every confirmed block comes after its references. -/
  topological : Traversal.Topological chain.proposerRefs (chain.ledgerUpTo levels)

omit [DecidableEq H] in
theorem LevelOrder.of_agree {level : Nat} {leader : H} {order : List H} (levelOrder : chain.LevelOrder level leader order)
    (atLevel : next.proposerNodeLevel = chain.proposerNodeLevel) (refs : next.proposerRefs = chain.proposerRefs) :
    next.LevelOrder level leader order :=
  ⟨levelOrder.last, by rw [atLevel]; exact levelOrder.below, by rw [refs]; exact levelOrder.reached⟩

omit [DecidableEq H] in
/-- `Confirmed` reads the leaders below `levels`, the orders, the unconfirmed
blocks, the levels and references of the proposer blocks and the genesis. -/
theorem Confirmed.of_agree {levels : Nat} (confirmed : chain.Confirmed levels)
    (genesis : next.config.proposerGenesis = chain.config.proposerGenesis)
    (leaders : ∀ level < levels, next.proposerLeaderSequence level = chain.proposerLeaderSequence level)
    (orders : next.proposerLedgerOrder = chain.proposerLedgerOrder)
    (unconfirmed : next.unconfirmedProposers = chain.unconfirmedProposers)
    (atLevel : next.proposerNodeLevel = chain.proposerNodeLevel)
    (refNeighbor : next.proposerRefNeighbor = chain.proposerRefNeighbor) :
    next.Confirmed levels := by
  have ledgerEq : next.ledgerUpTo levels = chain.ledgerUpTo levels :=
    ledgerUpTo_congr fun level _ => by rw [orders]
  have refs : next.proposerRefs = chain.proposerRefs := by
    funext hash
    simp only [proposerRefs, refNeighbor]
  refine ⟨?_, ?_, confirmed.positive, ?_, ?_, ?_, ?_, ?_, ?_⟩
  · rw [leaders 0 confirmed.positive, genesis]
    exact confirmed.genesis_leader
  · rw [orders, genesis]
    exact confirmed.genesis_order
  · intro level below
    obtain ⟨leader, order, leaderEq, orderEq, levelOrder⟩ := confirmed.level level below
    exact ⟨leader, order, by rw [leaders level below, leaderEq], by rw [orders, orderEq],
      levelOrder.of_agree atLevel refs⟩
  · intro level above
    rw [orders]
    exact confirmed.absent level above
  · rw [ledgerEq]
    exact confirmed.nodup
  · rw [ledgerEq, unconfirmed]
    exact confirmed.disjoint
  · rw [ledgerEq, unconfirmed, atLevel]
    exact confirmed.cover
  · rw [ledgerEq, refs]
    exact confirmed.topological

omit [DecidableEq H] in
/-- A confirmed block is a proposer block below the confirmed levels. -/
theorem Confirmed.level_lt_of_mem {levels : Nat} (confirmed : chain.Confirmed levels) {hash : H}
    (member : hash ∈ chain.ledgerUpTo levels) :
    ∃ hashLevel, chain.proposerNodeLevel hash = some hashLevel ∧ hashLevel < levels := by
  obtain ⟨level, below, inOrder⟩ := mem_ledgerUpTo.mp member
  obtain ⟨leader, order, _, orderEq, levelOrder⟩ := confirmed.level level below
  rw [orderEq, Option.getD_some] at inOrder
  obtain ⟨hashLevel, atLevel, hashBelow⟩ := levelOrder.below hash inOrder
  exact ⟨hashLevel, atLevel, by omega⟩

omit [DecidableEq H] in
/-- References go down in proposer level. -/
theorem ProposerIndex.rank_lt (proposers : chain.ProposerIndex) {hash ref : H} {refs : List H}
    (refsEq : chain.proposerRefNeighbor hash = some refs) (member : ref ∈ refs) :
    (chain.proposerNodeLevel ref).getD 0 < (chain.proposerNodeLevel hash).getD 0 := by
  have present : (chain.proposerNodeLevel hash).isSome := by
    rw [← proposers.refs_isSome, refsEq]
    rfl
  obtain ⟨level, atLevel⟩ := Option.isSome_iff_exists.mp present
  obtain ⟨refLevel, refAt, below⟩ := proposers.ref_lt atLevel refsEq member
  rw [atLevel, refAt]
  exact below

end Ledger

/-! ## Confirming one level -/

section Confirm

variable {chain : BlockChain H} {levels : Nat}

/-- The traverse from a leader of the level `levels`: the leader, which is
unconfirmed, then unconfirmed blocks below its level that it reaches through
references. -/
theorem Confirmed.run_leader (confirmed : chain.Confirmed levels) (proposers : chain.ProposerIndex)
    {fuel : Nat} {leader : H} {traversal : List H} (leaderLevel : chain.proposerNodeLevel leader = some levels)
    (traversed : Traversal.run (fun hash => decide (hash ∈ chain.unconfirmedProposers))
      chain.proposerRefNeighbor fuel [leader] [] = some traversal) :
    leader ∈ chain.unconfirmedProposers ∧ ∃ rest, traversal = leader :: rest ∧
      ∀ hash ∈ rest, hash ∈ chain.unconfirmedProposers ∧
        (∃ hashLevel, chain.proposerNodeLevel hash = some hashLevel ∧ hashLevel < levels) ∧
        Relation.ReflTransGen (fun block ref => ref ∈ chain.proposerRefs block) leader hash := by
  -- the leader is no confirmed block: those are below `levels`
  have leaderUnconfirmed : leader ∈ chain.unconfirmedProposers := by
    rcases (confirmed.cover leader).mp (by rw [leaderLevel]; rfl) with inLedger | unconfirmed
    · obtain ⟨hashLevel, atLevel, below⟩ := confirmed.level_lt_of_mem inLedger
      rw [leaderLevel, Option.some.injEq] at atLevel
      omega
    · exact unconfirmed
  obtain ⟨refs, rest, refsEq, rfl, reached⟩ :=
    Traversal.run_singleton traversed (decide_eq_true leaderUnconfirmed)
  refine ⟨leaderUnconfirmed, rest, rfl, fun hash member => ?_⟩
  obtain ⟨alive, start, isRef, reaches⟩ := reached hash member
  have unconfirmed : hash ∈ chain.unconfirmedProposers := of_decide_eq_true alive
  -- the rank of a reached block is at most that of the reference it is reached from
  have rankLe := reaches.rank_le (fun hash => (chain.proposerNodeLevel hash).getD 0)
    (fun _ _ _ successors _ member => proposers.rank_lt successors member)
  have rankLt := proposers.rank_lt refsEq isRef
  obtain ⟨hashLevel, atLevel⟩ := Option.isSome_iff_exists.mp ((confirmed.cover hash).mpr (.inr unconfirmed))
  rw [leaderLevel, Option.getD_some] at rankLt
  rw [atLevel, Option.getD_some] at rankLe
  refine ⟨unconfirmed, ⟨hashLevel, atLevel, by omega⟩, ?_⟩
  exact .head (by rw [proposerRefs, refsEq]; exact isRef) reaches.reflTransGen

/-- What `confirmLevel` computes from a leader of the level `levels`: a level
order of the leader without repetition, taken out of the unconfirmed blocks,
in which every block comes after its unconfirmed references. -/
theorem Confirmed.confirmLevel_spec (confirmed : chain.Confirmed levels) (proposers : chain.ProposerIndex)
    {fuel : Nat} {leader : H} {order : List H} {unconfirmed : Finset H}
    (leaderLevel : chain.proposerNodeLevel leader = some levels)
    (confirmedEq : chain.confirmLevel fuel leader = some (order, unconfirmed)) :
    chain.LevelOrder levels leader order ∧ order.Nodup ∧
      (∀ hash, hash ∈ chain.unconfirmedProposers ↔ hash ∈ order ∨ hash ∈ unconfirmed) ∧
      (∀ hash ∈ order, hash ∉ unconfirmed) ∧
      ∀ front block back, order = front ++ block :: back →
        ∀ ref ∈ chain.proposerRefs block, ref ∈ chain.unconfirmedProposers → ref ∈ front := by
  simp only [confirmLevel, Option.bind_eq_bind, Option.bind_eq_some_iff, Option.some.injEq] at confirmedEq
  obtain ⟨traversal, traversed, kept⟩ := confirmedEq
  have children := Traversal.run_childrenAfter traversed (fun _ _ _ split => by simp at split)
  obtain ⟨leaderUnconfirmed, rest, rfl, restFacts⟩ := confirmed.run_leader proposers leaderLevel traversed
  have orderKept : (Traversal.filterRemove chain.unconfirmedProposers (leader :: rest).reverse).1 = order := by
    rw [kept]
  have unconfirmedKept : (Traversal.filterRemove chain.unconfirmedProposers (leader :: rest).reverse).2 =
      unconfirmed := by
    rw [kept]
  have orderEq : order = (Traversal.filterRemove chain.unconfirmedProposers rest.reverse).1 ++ [leader] := by
    have notRest : leader ∉ rest.reverse := fun inRest => by
      obtain ⟨_, ⟨hashLevel, atLevel, below⟩, _⟩ := restFacts leader (List.mem_reverse.mp inRest)
      rw [leaderLevel, Option.some.injEq] at atLevel
      omega
    rw [← orderKept, List.reverse_cons,
      Traversal.filterRemove_append_singleton _ notRest leaderUnconfirmed]
  have memOrder : ∀ hash, hash ∈ order ↔ hash ∈ leader :: rest ∧ hash ∈ chain.unconfirmedProposers := by
    intro hash
    rw [← orderKept, Traversal.mem_filterRemove_fst, List.mem_reverse]
  have memUnconfirmed : ∀ hash, hash ∈ unconfirmed ↔
      hash ∈ chain.unconfirmedProposers ∧ hash ∉ leader :: rest := by
    intro hash
    rw [← unconfirmedKept, Traversal.mem_filterRemove_snd, List.mem_reverse]
  refine ⟨⟨?_, fun hash member => ?_, fun hash member => ?_⟩, ?_, fun hash => ?_, fun hash member => ?_, ?_⟩
  · rw [orderEq, List.getLast?_append, List.getLast?_singleton]
    rfl
  · rcases List.mem_cons.mp ((memOrder hash).mp member).1 with rfl | inRest
    · exact ⟨levels, leaderLevel, le_rfl⟩
    · obtain ⟨_, ⟨hashLevel, atLevel, below⟩, _⟩ := restFacts hash inRest
      exact ⟨hashLevel, atLevel, by omega⟩
  · rcases List.mem_cons.mp ((memOrder hash).mp member).1 with rfl | inRest
    · exact .refl
    · exact (restFacts hash inRest).2.2
  · rw [← orderKept]
    exact Traversal.nodup_filterRemove_fst _ _
  · rw [memOrder, memUnconfirmed]
    tauto
  · exact fun remaining => ((memUnconfirmed hash).mp remaining).2 ((memOrder hash).mp member).1
  · intro front block back split ref isRef refUnconfirmed
    have blockUnconfirmed := ((memOrder block).mp (by rw [split]; simp)).2
    obtain ⟨refs, refsEq⟩ := Option.isSome_iff_exists.mp
      (by rw [proposers.refs_isSome]; exact (confirmed.cover block).mpr (.inr blockUnconfirmed))
    rw [proposerRefs, refsEq, Option.getD_some] at isRef
    exact Traversal.filterRemove_reverse_topological (fun _ => decide_eq_true_iff) children front block back
      (by rw [orderKept]; exact split) refs refsEq ref isRef refUnconfirmed

/-- Confirming the level `levels` with a leader of that level extends the
confirmed levels by one. -/
theorem Confirmed.confirmLevel (confirmed : chain.Confirmed levels) (proposers : chain.ProposerIndex)
    {fuel : Nat} {leader : H} {order : List H} {unconfirmed : Finset H}
    (leaderEq : chain.proposerLeaderSequence levels = some leader)
    (leaderLevel : chain.proposerNodeLevel leader = some levels)
    (confirmedEq : chain.confirmLevel fuel leader = some (order, unconfirmed)) :
    ({ chain with
        unconfirmedProposers := unconfirmed
        proposerLedgerOrder := Function.update chain.proposerLedgerOrder levels (some order) } :
      BlockChain H).Confirmed (levels + 1) := by
  obtain ⟨levelOrder, distinct, taken, remaining, ordered⟩ :=
    confirmed.confirmLevel_spec proposers leaderLevel confirmedEq
  have otherOrder : ∀ level, level ≠ levels → Function.update chain.proposerLedgerOrder levels (some order) level =
      chain.proposerLedgerOrder level := fun level other => Function.update_of_ne other _ _
  have ledgerEq : ({ chain with
      unconfirmedProposers := unconfirmed
      proposerLedgerOrder := Function.update chain.proposerLedgerOrder levels (some order) } :
      BlockChain H).ledgerUpTo (levels + 1) = chain.ledgerUpTo levels ++ order :=
    ledgerUpTo_succ_of_update rfl
  have fromUnconfirmed : ∀ hash ∈ order, hash ∈ chain.unconfirmedProposers :=
    fun hash member => (taken hash).mpr (.inl member)
  refine ⟨confirmed.genesis_leader, ?_, by omega, fun level below => ?_, fun level above => ?_, ?_, ?_,
    fun hash => ?_, ?_⟩
  · exact (otherOrder 0 (by have := confirmed.positive; omega)).trans confirmed.genesis_order
  · rcases Nat.lt_succ_iff_lt_or_eq.mp below with lower | rfl
    · obtain ⟨leader, order, leaderEq, orderEq, levelOrder⟩ := confirmed.level level lower
      exact ⟨leader, order, leaderEq, (otherOrder level (by omega)).trans orderEq, levelOrder.of_agree rfl rfl⟩
    · exact ⟨leader, order, leaderEq, Function.update_self _ _ _, levelOrder.of_agree rfl rfl⟩
  · exact (otherOrder level (by omega)).trans (confirmed.absent level (by omega))
  · rw [ledgerEq, List.nodup_append]
    exact ⟨confirmed.nodup, distinct, fun first inLedger second inOrder same =>
      confirmed.disjoint first inLedger (same ▸ fromUnconfirmed second inOrder)⟩
  · rw [ledgerEq]
    intro hash member stillUnconfirmed
    rcases List.mem_append.mp member with inLedger | inOrder
    · exact confirmed.disjoint hash inLedger ((taken hash).mpr (.inr stillUnconfirmed))
    · exact remaining hash inOrder stillUnconfirmed
  · dsimp only
    rw [ledgerEq, List.mem_append, or_assoc, ← taken]
    exact confirmed.cover hash
  · rw [ledgerEq]
    apply confirmed.topological.append
    intro front block back split ref isRef
    -- an unconfirmed reference comes earlier in the order, a confirmed one is in the ledger
    by_cases refUnconfirmed : ref ∈ chain.unconfirmedProposers
    · exact .inr (ordered front block back split ref isRef refUnconfirmed)
    · have blockUnconfirmed := fromUnconfirmed block (by rw [split]; simp)
      obtain ⟨refs, refsEq⟩ := Option.isSome_iff_exists.mp
        (by rw [proposers.refs_isSome]; exact (confirmed.cover block).mpr (.inr blockUnconfirmed))
      rw [proposerRefs, refsEq, Option.getD_some] at isRef
      rcases (confirmed.cover ref).mp (proposers.ref_isSome refsEq isRef) with inLedger | unconfirmedRef
      · exact .inl inLedger
      · exact absurd unconfirmedRef refUnconfirmed

/-- The traverse of a level ends for enough fuel. -/
theorem Confirmed.confirmLevel_isSome (confirmed : chain.Confirmed levels) (proposers : chain.ProposerIndex)
    (leader : H) : ∃ fuel result, chain.confirmLevel fuel leader = some result := by
  have expands : ∀ hash, decide (hash ∈ chain.unconfirmedProposers) = true →
      ∃ refs, chain.proposerRefNeighbor hash = some refs := by
    intro hash alive
    apply Option.isSome_iff_exists.mp
    rw [proposers.refs_isSome]
    exact (confirmed.cover hash).mpr (.inr (of_decide_eq_true alive))
  obtain ⟨fuel, traversal, traversed⟩ := Traversal.run_terminates (fun hash => (chain.proposerNodeLevel hash).getD 0)
    expands (fun _ _ _ successors _ member => proposers.rank_lt successors member) [leader] []
  refine ⟨fuel, Traversal.filterRemove chain.unconfirmedProposers traversal.reverse, ?_⟩
  simp only [BlockChain.confirmLevel, traversed, Option.bind_eq_bind, Option.bind_some]

end Confirm

/-! ## Deconfirming levels -/

section Deconfirm

variable {chain : BlockChain H}

theorem mem_foldl_insert (blocks : List H) :
    ∀ (set : Finset H) (hash : H),
      hash ∈ blocks.foldl (fun unconfirmed block => insert block unconfirmed) set ↔ hash ∈ set ∨ hash ∈ blocks := by
  induction blocks with
  | nil => simp
  | cons block rest inductionHypothesis =>
      intro set hash
      rw [List.foldl_cons, inductionHypothesis, Finset.mem_insert, List.mem_cons]
      tauto

/-- The deconfirm loop over the `count` levels from `start`, each with an
order: their orders are deleted, and their blocks become unconfirmed again and
are appended to `removed` level by level. -/
theorem foldlM_deconfirmLevel_eq :
    ∀ (count start : Nat) (chain : BlockChain H) (removed : List H),
      (∀ level, start ≤ level → level < start + count → (chain.proposerLedgerOrder level).isSome) →
      ∃ unconfirmed, (∀ hash, hash ∈ unconfirmed ↔ hash ∈ chain.unconfirmedProposers ∨
          hash ∈ (List.range' start count).flatMap fun level => (chain.proposerLedgerOrder level).getD []) ∧
        (List.range' start count).foldlM deconfirmLevel (chain, removed) =
          some ({ chain with
              proposerLedgerOrder := fun level =>
                if start ≤ level ∧ level < start + count then none else chain.proposerLedgerOrder level
              unconfirmedProposers := unconfirmed },
            removed ++ (List.range' start count).flatMap fun level => (chain.proposerLedgerOrder level).getD []) := by
  intro count
  induction count with
  | zero =>
      intro start chain removed _
      have unchanged : (fun level => if start ≤ level ∧ level < start + 0 then none
          else chain.proposerLedgerOrder level) = chain.proposerLedgerOrder := by
        funext level
        rw [if_neg (by omega)]
      refine ⟨chain.unconfirmedProposers, by simp, ?_⟩
      simp only [List.range'_zero, List.foldlM_nil, List.flatMap_nil, List.append_nil, unchanged]
      rfl
  | succ count inductionHypothesis =>
      intro start chain removed present
      obtain ⟨original, originalEq⟩ := Option.isSome_iff_exists.mp (present start le_rfl (by omega))
      -- the state after the first level, from which the loop goes on
      set first : BlockChain H := { chain with
        proposerLedgerOrder := Function.update chain.proposerLedgerOrder start none
        unconfirmedProposers :=
          original.foldl (fun unconfirmed block => insert block unconfirmed) chain.unconfirmedProposers }
        with firstEq
      have stepped : deconfirmLevel (chain, removed) start = some (first, removed ++ original) := by
        simp only [deconfirmLevel, originalEq, Option.bind_eq_bind, Option.bind_some, firstEq]
      have firstOrder : ∀ level, level ≠ start → first.proposerLedgerOrder level = chain.proposerLedgerOrder level :=
        fun level other => Function.update_of_ne other _ _
      have firstStart : first.proposerLedgerOrder start = none := Function.update_self _ _ _
      obtain ⟨unconfirmed, memUnconfirmed, restEq⟩ := inductionHypothesis (start + 1) first (removed ++ original)
        (fun level above below => by rw [firstOrder level (by omega)]; exact present level (by omega) (by omega))
      have restOrders : ((List.range' (start + 1) count).flatMap fun level => (first.proposerLedgerOrder level).getD []) =
          (List.range' (start + 1) count).flatMap fun level => (chain.proposerLedgerOrder level).getD [] :=
        List.flatMap_congr fun level member => by
          rw [firstOrder level (by rw [List.mem_range'_1] at member; omega)]
      have ordersEq : (fun level => if start + 1 ≤ level ∧ level < start + 1 + count then none
          else first.proposerLedgerOrder level) =
          fun level => if start ≤ level ∧ level < start + (count + 1) then none else chain.proposerLedgerOrder level := by
        funext level
        by_cases atStart : level = start
        · subst atStart
          rw [if_neg (by omega), if_pos (by omega), firstStart]
        · rw [firstOrder level atStart]
          split_ifs <;> first | rfl | omega
      refine ⟨unconfirmed, fun hash => ?_, ?_⟩
      · rw [memUnconfirmed, restOrders, List.range'_succ, List.flatMap_cons, originalEq, Option.getD_some,
          List.mem_append, firstEq, mem_foldl_insert]
        tauto
      · rw [List.range'_succ, List.foldlM_option_cons, stepped, Option.bind_some, restEq, restOrders, ordersEq,
          List.flatMap_cons, originalEq, Option.getD_some, List.append_assoc]

/-- The deconfirm loop from `begin`, on a state whose first `levels` levels
were confirmed before the leader phase changed leaders from `begin` on: the
first `begin` levels stay confirmed with the ledger they had, and the removed
blocks are the ledger from `begin` on. -/
theorem Confirmed.deconfirmLevels {levels : Nat} (confirmed : chain.Confirmed levels) {led : BlockChain H}
    (frame : LeadersFrame chain led) {begin : Nat} (positive : 0 < begin) (within : begin ≤ levels)
    (leadersBelow : ∀ level < begin, led.proposerLeaderSequence level = chain.proposerLeaderSequence level) :
    ∃ next removed, (List.range' begin (levels - begin)).foldlM deconfirmLevel (led, []) = some (next, removed) ∧
      next.Confirmed begin ∧ LeaderFrame led next ∧ next.proposerLeaderSequence = led.proposerLeaderSequence ∧
      next.proposerLedgerTip = led.proposerLedgerTip ∧ next.ledgerUpTo begin = chain.ledgerUpTo begin ∧
      chain.ledgerUpTo levels = chain.ledgerUpTo begin ++ removed := by
  have ledOrders : led.proposerLedgerOrder = chain.proposerLedgerOrder := by rw [frame]
  have ledUnconfirmed : led.unconfirmedProposers = chain.unconfirmedProposers := by rw [frame]
  obtain ⟨unconfirmed, memUnconfirmed, deconfirmed⟩ := foldlM_deconfirmLevel_eq (levels - begin) begin led []
    (fun level _ below => by
      obtain ⟨_, order, _, orderEq, _⟩ := confirmed.level level (by omega)
      rw [ledOrders, orderEq]
      rfl)
  rw [ledOrders, ledUnconfirmed] at memUnconfirmed
  rw [ledOrders] at deconfirmed
  set next : BlockChain H := { led with
    proposerLedgerOrder := fun level =>
      if begin ≤ level ∧ level < begin + (levels - begin) then none else chain.proposerLedgerOrder level
    unconfirmedProposers := unconfirmed } with nextEq
  -- what `Confirmed` reads of `next`
  have nextGenesis : next.config.proposerGenesis = chain.config.proposerGenesis := by
    show led.config.proposerGenesis = _
    rw [frame]
  have nextLevel : next.proposerNodeLevel = chain.proposerNodeLevel := by
    show led.proposerNodeLevel = _
    rw [frame]
  have nextRefs : next.proposerRefs = chain.proposerRefs := by
    funext hash
    show (led.proposerRefNeighbor hash).getD [] = _
    rw [frame]
    rfl
  have nextBelow : ∀ level < begin, next.proposerLedgerOrder level = chain.proposerLedgerOrder level :=
    fun level below => if_neg (by omega)
  have ledgerSplit := chain.ledgerUpTo_add begin (levels - begin)
  rw [Nat.add_sub_cancel' within] at ledgerSplit
  have prefixEq : next.ledgerUpTo begin = chain.ledgerUpTo begin := ledgerUpTo_congr nextBelow
  have ledgerNodup := confirmed.nodup
  rw [ledgerSplit, List.nodup_append] at ledgerNodup
  refine ⟨next, _, deconfirmed, ⟨?_, ?_, positive, fun level below => ?_, fun level above => ?_, ?_,
    fun hash member => ?_, fun hash => ?_, ?_⟩, rfl, rfl, rfl, prefixEq, by rw [ledgerSplit, List.nil_append]⟩
  · show led.proposerLeaderSequence 0 = _
    rw [nextGenesis, leadersBelow 0 positive]
    exact confirmed.genesis_leader
  · rw [nextBelow 0 positive, nextGenesis]
    exact confirmed.genesis_order
  · obtain ⟨leader, order, leaderEq, orderEq, levelOrder⟩ := confirmed.level level (by omega)
    exact ⟨leader, order, (leadersBelow level below).trans leaderEq, (nextBelow level below).trans orderEq,
      levelOrder.of_agree nextLevel nextRefs⟩
  · show (if begin ≤ level ∧ level < begin + (levels - begin) then none else chain.proposerLedgerOrder level) = none
    split_ifs with inRange
    · rfl
    · exact confirmed.absent level (by omega)
  · rw [prefixEq]
    exact ledgerNodup.1
  · -- a block below `begin` was not unconfirmed, nor removed from a later level
    rw [prefixEq] at member
    show hash ∉ unconfirmed
    rw [memUnconfirmed]
    rintro (stillUnconfirmed | removedBlock)
    · exact confirmed.disjoint hash (by rw [ledgerSplit]; exact List.mem_append_left _ member) stillUnconfirmed
    · exact ledgerNodup.2.2 hash member hash removedBlock rfl
  · show (next.proposerNodeLevel hash).isSome ↔ hash ∈ next.ledgerUpTo begin ∨ hash ∈ unconfirmed
    rw [prefixEq, memUnconfirmed, nextLevel, confirmed.cover, ledgerSplit, List.mem_append]
    tauto
  · have ordered := confirmed.topological
    rw [ledgerSplit] at ordered
    rw [prefixEq, nextRefs]
    exact ordered.left

end Deconfirm

/-! ## Rebuilding the ledger -/

section Rebuild

/-- Leaders are blocks of their level. -/
def LeadersAtLevel (chain : BlockChain H) : Prop :=
  ∀ level leader, chain.proposerLeaderSequence level = some leader → chain.proposerNodeLevel leader = some level

omit [DecidableEq H] in
theorem LeadersAtLevel.of_agree {chain next : BlockChain H} (leadersAtLevel : chain.LeadersAtLevel)
    (leaders : next.proposerLeaderSequence = chain.proposerLeaderSequence)
    (atLevel : next.proposerNodeLevel = chain.proposerNodeLevel) : next.LeadersAtLevel := by
  intro level leader leaderEq
  rw [atLevel]
  exact leadersAtLevel level leader (by rw [← leaders]; exact leaderEq)

/-- The rebuild from `level` on a state whose first `level` levels are
confirmed: it confirms the levels up to the first one without a leader, whose
predecessor becomes the ledger tip, and appends their orders to `added`. -/
theorem Confirmed.recomputeLedger_spec {fuel : Nat} :
    ∀ {count : Nat} {chain : BlockChain H} {level : Nat} {added : List H} {next : BlockChain H}
      {nextAdded : List H}, chain.Confirmed level → chain.ProposerIndex → chain.LeadersAtLevel →
      chain.recomputeLedger fuel count level added = some (next, nextAdded) →
      next.Confirmed (next.proposerLedgerTip + 1) ∧ next.proposerLeaderSequence (next.proposerLedgerTip + 1) = none ∧
      LeaderFrame chain next ∧ next.proposerLeaderSequence = chain.proposerLeaderSequence ∧
      ∃ orders, nextAdded = added ++ orders ∧ next.ledger = chain.ledgerUpTo level ++ orders := by
  intro count
  induction count with
  | zero =>
      intro chain level added next nextAdded _ _ _ recomputed
      cases recomputed
  | succ count inductionHypothesis =>
      intro chain level added next nextAdded confirmed proposers leadersAtLevel recomputed
      cases leaderEq : chain.proposerLeaderSequence level with
      | none =>
          -- the level without a leader: its predecessor becomes the tip
          have positive := confirmed.positive
          rw [recomputeLedger_succ_of_none leaderEq, if_neg (by omega), Option.some.injEq, Prod.mk.injEq]
            at recomputed
          obtain ⟨rfl, rfl⟩ := recomputed
          have tipEq : level - 1 + 1 = level := Nat.sub_add_cancel positive
          refine ⟨?_, ?_, rfl, rfl, [], by rw [List.append_nil], ?_⟩
          · show ({ chain with proposerLedgerTip := level - 1 } : BlockChain H).Confirmed (level - 1 + 1)
            rw [tipEq]
            exact confirmed.of_agree rfl (fun _ _ => rfl) rfl rfl rfl rfl
          · show chain.proposerLeaderSequence (level - 1 + 1) = none
            rw [tipEq, leaderEq]
          · show ({ chain with proposerLedgerTip := level - 1 } : BlockChain H).ledgerUpTo (level - 1 + 1) = _
            rw [tipEq, List.append_nil]
            exact ledgerUpTo_congr fun _ _ => rfl
      | some leader =>
          cases confirmedEq : chain.confirmLevel fuel leader with
          | none => simp [BlockChain.recomputeLedger, leaderEq, confirmedEq] at recomputed
          | some result =>
              obtain ⟨order, unconfirmed⟩ := result
              rw [recomputeLedger_succ_of_some leaderEq confirmedEq] at recomputed
              -- the level is confirmed, and the rebuild goes on from the next one
              have extended := confirmed.confirmLevel proposers leaderEq (leadersAtLevel level leader leaderEq)
                confirmedEq
              obtain ⟨nextConfirmed, nextLeader, frame, leadersEq, orders, addedEq, ledgerEq⟩ :=
                inductionHypothesis extended (proposers.ledgerFrame rfl) leadersAtLevel recomputed
              refine ⟨nextConfirmed, nextLeader, LeaderFrame.trans ?_ frame, leadersEq, order ++ orders,
                by rw [addedEq, List.append_assoc], ?_⟩
              · rfl
              · rw [ledgerEq, ledgerUpTo_succ_of_update rfl, List.append_assoc]

/-- The rebuild ends, for enough fuel, on a state whose first `level` levels
are confirmed and whose leaders are blocks of their level: each level it
confirms is at most the best level. -/
theorem recomputeLedger_isSome :
    ∀ (measure : Nat) {chain : BlockChain H} {level : Nat} (added : List H),
      chain.proposerBestLevel + 1 - level ≤ measure → chain.Confirmed level → chain.ProposerIndex →
      chain.LeadersAtLevel → ∃ fuel result, chain.recomputeLedger fuel fuel level added = some result := by
  intro measure
  induction measure with
  | zero =>
      intro chain level added above confirmed proposers leadersAtLevel
      -- no level above the best level has a leader
      have leaderEq : chain.proposerLeaderSequence level = none := by
        cases leaderEq : chain.proposerLeaderSequence level with
        | none => rfl
        | some leader =>
            have := proposers.le_best leader level (leadersAtLevel level leader leaderEq)
            omega
      refine ⟨1, ({ chain with proposerLedgerTip := level - 1 }, added), ?_⟩
      show chain.recomputeLedger 1 (0 + 1) level added = _
      rw [recomputeLedger_succ_of_none leaderEq, if_neg (by have := confirmed.positive; omega)]
  | succ measure inductionHypothesis =>
      intro chain level added above confirmed proposers leadersAtLevel
      cases leaderEq : chain.proposerLeaderSequence level with
      | none =>
          refine ⟨1, ({ chain with proposerLedgerTip := level - 1 }, added), ?_⟩
          show chain.recomputeLedger 1 (0 + 1) level added = _
          rw [recomputeLedger_succ_of_none leaderEq, if_neg (by have := confirmed.positive; omega)]
      | some leader =>
          have leaderLevel := leadersAtLevel level leader leaderEq
          have belowBest := proposers.le_best leader level leaderLevel
          obtain ⟨traverseFuel, ⟨order, unconfirmed⟩, confirmedEq⟩ := confirmed.confirmLevel_isSome proposers leader
          obtain ⟨restFuel, result, restEq⟩ := inductionHypothesis (added ++ order) (by dsimp only; omega)
            (confirmed.confirmLevel proposers leaderEq leaderLevel confirmedEq) (proposers.ledgerFrame rfl)
            leadersAtLevel
          -- enough fuel for this level's traverse and for the rest of the rebuild
          refine ⟨traverseFuel + restFuel + 1, result, ?_⟩
          have confirmedMore := confirmLevel_add_fuel (restFuel + 1) confirmedEq
          rw [← Nat.add_assoc] at confirmedMore
          rw [recomputeLedger_succ_of_some leaderEq confirmedMore]
          have restMore := recomputeLedger_add_fuel (traverseFuel + 1) traverseFuel restEq
          rw [show restFuel + (traverseFuel + 1) = traverseFuel + restFuel + 1 by omega,
            show restFuel + traverseFuel = traverseFuel + restFuel by omega] at restMore
          exact restMore

end Rebuild

end BlockChain

end Prism
