import Prism.Network.Buffer

/-!
# The worker's use of the block buffer

The `Blocks` branch of `worker_loop` in `network/worker.rs` calls the buffer in
a fixed pattern.  A block whose availability check fails is inserted with the
hashes the check found missing; the check and the insertion run under the
buffer lock, so none of those hashes has been processed yet.  The worker never
buffers a block that is already buffered, since a block already in the block
database is dropped before this point.  After a block is processed, its hash is
satisfied, once.

A `Run` records such a sequence of calls with what each call returned.  Along a
run the representation invariant holds, and each buffered block comes back from
exactly the call that satisfies the last hash it waited for.
-/

namespace Prism
namespace Network

open Function

variable {H T : Type} [DecidableEq H] [Hashable (Header H) H]

/-- A call of the worker on the buffer. -/
inductive BufferCall (H T : Type)
  | insert (block : Block H T) (dependencies : List H)
  | satisfy (hash : H)

/-- The buffer together with the hashes the worker has processed. -/
structure Worker (H T : Type) where
  /-- The shared block buffer. -/
  buffer : BlockBuffer H T
  /-- Hashes already passed to `satisfy`. -/
  satisfied : List H

/-- A worker that has processed nothing. -/
def Worker.new : Worker H T :=
  ⟨BlockBuffer.new, []⟩

/-- One call of the worker loop, with the blocks the call returns. -/
inductive Step : Worker H T → BufferCall H T → List (Block H T) → Worker H T → Prop
  | insert {worker : Worker H T} {block : Block H T} {dependencies : List H}
      (nonempty : dependencies ≠ [])
      (fresh : worker.buffer.blocks block.hash = none)
      (missing : ∀ d ∈ dependencies, d ∉ worker.satisfied) :
      Step worker (.insert block dependencies) []
        ⟨worker.buffer.insert block dependencies, worker.satisfied⟩
  | satisfy {worker : Worker H T} {hash : H} {buffer : BlockBuffer H T}
      {resolved : List (Block H T)}
      (once : hash ∉ worker.satisfied)
      (result : worker.buffer.satisfy hash = some (buffer, resolved)) :
      Step worker (.satisfy hash) resolved ⟨buffer, hash :: worker.satisfied⟩

/-- A sequence of worker calls, each with the blocks it returned. -/
inductive Run : Worker H T → List (BufferCall H T × List (Block H T)) → Worker H T → Prop
  | nil (worker : Worker H T) : Run worker [] worker
  | cons {worker middle last : Worker H T} {call : BufferCall H T}
      {returned : List (Block H T)} {rest : List (BufferCall H T × List (Block H T))} :
      Step worker call returned middle → Run middle rest last →
      Run worker ((call, returned) :: rest) last

/-- The hashes satisfied by a sequence of calls, in order. -/
def satisfiedBy : List (BufferCall H T × List (Block H T)) → List H
  | [] => []
  | (.satisfy hash, _) :: rest => hash :: satisfiedBy rest
  | (.insert _ _, _) :: rest => satisfiedBy rest

/-- No call of the sequence inserts a block with the given hash. -/
def NoInsertOf (hash : H) (calls : List (BufferCall H T × List (Block H T))) : Prop :=
  ∀ call ∈ calls, ∀ block dependencies,
    call.1 = .insert block dependencies → block.hash ≠ hash

namespace Run

theorem append {worker last : Worker H T}
    {first second : List (BufferCall H T × List (Block H T))} :
    Run worker (first ++ second) last ↔
      ∃ middle, Run worker first middle ∧ Run middle second last := by
  induction first generalizing worker with
  | nil =>
      constructor
      · intro run
        exact ⟨worker, .nil worker, run⟩
      · rintro ⟨middle, (_ | _), run⟩
        exact run
  | cons head tail inductionHypothesis =>
      constructor
      · rintro (_ | ⟨step, run⟩)
        obtain ⟨middle, first, second⟩ := inductionHypothesis.mp run
        exact ⟨middle, .cons step first, second⟩
      · rintro ⟨middle, (_ | ⟨step, first⟩), second⟩
        exact .cons step (inductionHypothesis.mpr ⟨middle, first, second⟩)

theorem invariant {worker last : Worker H T}
    {calls : List (BufferCall H T × List (Block H T))}
    (run : Run worker calls last) (start : worker.buffer.Invariant) :
    last.buffer.Invariant := by
  induction run with
  | nil => exact start
  | cons step _ inductionHypothesis =>
      apply inductionHypothesis
      cases step with
      | insert nonempty fresh _ => exact start.insert fresh nonempty
      | satisfy _ result => exact start.satisfy result

theorem mem_satisfied {worker last : Worker H T}
    {calls : List (BufferCall H T × List (Block H T))}
    (run : Run worker calls last) (hash : H) :
    hash ∈ last.satisfied ↔ hash ∈ satisfiedBy calls ∨ hash ∈ worker.satisfied := by
  induction run with
  | nil => simp [satisfiedBy]
  | cons step _ inductionHypothesis =>
      rw [inductionHypothesis]
      cases step with
      | insert => simp [satisfiedBy]
      | satisfy => simp [satisfiedBy]; tauto

end Run

namespace BlockBuffer

/-- Where a block stands in the buffer when it still waits for `pending`: gone
once nothing is pending, parked with exactly `pending` as its dependency set
otherwise. -/
def Tracked (buffer : BlockBuffer H T) (block : Block H T) (pending : List H) : Prop :=
  (pending = [] → buffer.blocks block.hash = none) ∧
    (pending ≠ [] → buffer.blocks block.hash = some block ∧
      ∀ x, x ∈ (buffer.dependency block.hash).getD [] ↔ x ∈ pending)

theorem tracked_insert {buffer : BlockBuffer H T} {block : Block H T}
    {dependencies : List H} (nonempty : dependencies ≠ []) :
    Tracked (buffer.insert block dependencies) block dependencies := by
  obtain ⟨blocksEq, ⟨waiting, dependencyEq, -, waitingMem⟩, -⟩ :=
    insert_spec buffer block dependencies
  refine ⟨fun empty => absurd empty nonempty, fun _ => ⟨?_, ?_⟩⟩
  · rw [blocksEq, update_self]
  · intro x
    rw [dependencyEq, update_self, Option.getD_some, waitingMem]

theorem Tracked.insert_other {buffer : BlockBuffer H T} {block other : Block H T}
    {pending dependencies : List H} (tracked : Tracked buffer block pending)
    (distinct : other.hash ≠ block.hash) :
    Tracked (buffer.insert other dependencies) block pending := by
  obtain ⟨blocksEq, ⟨waiting, dependencyEq, -, -⟩, -⟩ :=
    insert_spec buffer other dependencies
  have apart : block.hash ≠ other.hash := fun same => distinct same.symm
  refine ⟨fun empty => ?_, fun nonempty => ?_⟩
  · rw [blocksEq, update_of_ne apart]
    exact tracked.1 empty
  · rw [blocksEq, dependencyEq, update_of_ne apart, update_of_ne apart]
    exact tracked.2 nonempty

/-- Satisfying `hash` takes it off the pending list of a tracked block. -/
theorem Tracked.satisfy {buffer buffer' : BlockBuffer H T} {block : Block H T}
    {pending : List H} {hash : H} {resolved : List (Block H T)}
    (invariant : Invariant buffer) (tracked : Tracked buffer block pending)
    (result : buffer.satisfy hash = some (buffer', resolved)) :
    Tracked buffer' block (pending.filter fun x => x ≠ hash) := by
  cases waiting : buffer.dependent hash with
  | none =>
      simp only [BlockBuffer.satisfy, waiting, Option.some.injEq, Prod.mk.injEq] at result
      rw [← result.1]
      have absent : hash ∉ pending := by
        intro member
        by_cases empty : pending = []
        · simp [empty] at member
        · have listed := ((tracked.2 empty).2 hash).mpr member
          rw [invariant.inverse, waiting] at listed
          simp at listed
      have kept : ∀ x ∈ pending, decide (x ≠ hash) = true := by
        intro x member
        have : x ≠ hash := by
          rintro rfl
          exact absent member
        simpa using this
      rw [List.filter_eq_self.mpr kept]
      exact tracked
  | some dependents =>
      rw [satisfy_eq buffer hash dependents waiting
        (invariant.dependent_nodup hash dependents waiting) (invariant.present waiting),
        Option.some.injEq, Prod.mk.injEq] at result
      rw [← result.1]
      by_cases empty : pending = []
      · have gone := tracked.1 empty
        refine ⟨fun _ => ?_, fun nonempty => absurd (by simp [empty]) nonempty⟩
        simp [gone]
      · obtain ⟨parked, waitingFor⟩ := tracked.2 empty
        by_cases member : block.hash ∈ dependents
        · obtain ⟨original, originalEq⟩ :=
            Option.isSome_iff_exists.mp (invariant.present waiting _ member).1
          have nodup := invariant.dependency_nodup _ original originalEq
          have remainingMem : ∀ x, x ∈ buffer.remaining hash block.hash ↔
              x ∈ pending.filter fun x => x ≠ hash := by
            intro x
            rw [remaining, originalEq, Option.getD_some, nodup.mem_erase_iff,
              List.mem_filter, ← waitingFor, originalEq, Option.getD_some]
            simp [and_comm]
          by_cases done : buffer.remaining hash block.hash = []
          · have filtered : (pending.filter fun x => x ≠ hash) = [] := by
              apply List.eq_nil_iff_forall_not_mem.mpr
              intro x inFilter
              rw [← remainingMem, done] at inFilter
              simp at inFilter
            refine ⟨fun _ => ?_, fun nonempty => absurd filtered nonempty⟩
            simp [member, done]
          · have filtered : (pending.filter fun x => x ≠ hash) ≠ [] := by
              intro filtered
              apply done
              apply List.eq_nil_iff_forall_not_mem.mpr
              intro x inRemaining
              rw [remainingMem, filtered] at inRemaining
              simp at inRemaining
            refine ⟨fun empty => absurd empty filtered, fun _ => ⟨?_, ?_⟩⟩
            · simp [member, done, parked]
            · intro x
              rw [getD_resolveAll_dependency _ hash member, remaining_withDependent,
                remainingMem]
        · have absent : hash ∉ pending := by
            intro inPending
            have listed := (waitingFor hash).mpr inPending
            rw [invariant.inverse, waiting] at listed
            exact member listed
          have kept : ∀ x ∈ pending, decide (x ≠ hash) = true := by
            intro x inPending
            have : x ≠ hash := by
              rintro rfl
              exact absent inPending
            simpa using this
          rw [List.filter_eq_self.mpr kept]
          refine ⟨fun stillEmpty => absurd stillEmpty empty, fun _ => ⟨?_, ?_⟩⟩
          · simp [member, parked]
          · intro x
            simp only [resolveAll_dependency, if_neg member]
            exact waitingFor x

section Count

variable [DecidableEq T]

/-- A released list holds a block at most once: exactly when the block is
parked under one of the scanned hashes and waits for nothing else. -/
theorem count_released {buffer : BlockBuffer H T} (invariant : Invariant buffer)
    (block : Block H T) (hash : H) :
    ∀ dependents : List H, dependents.Nodup →
      (buffer.released hash dependents).count block =
        if block.hash ∈ dependents ∧ buffer.remaining hash block.hash = [] ∧
          buffer.blocks block.hash = some block then 1 else 0 := by
  intro dependents
  induction dependents with
  | nil => simp [released]
  | cons node rest inductionHypothesis =>
      intro nodup
      obtain ⟨fresh, restNodup⟩ := List.nodup_cons.mp nodup
      have restCount := inductionHypothesis restNodup
      unfold released at restCount ⊢
      rw [List.filterMap_cons]
      by_cases same : node = block.hash
      · subst same
        rw [if_neg (fun inside => fresh inside.1)] at restCount
        by_cases done : buffer.remaining hash block.hash = []
        · cases stored : buffer.blocks block.hash with
          | none => simp [done, restCount]
          | some found =>
              by_cases equal : found = block
              · simp [done, restCount, equal]
              · simp [done, restCount, equal]
        · simp [done, restCount]
      · have other : block.hash ∈ node :: rest ↔ block.hash ∈ rest := by
          simp [Ne.symm same]
        cases found : (if buffer.remaining hash node = [] then buffer.blocks node else none) with
        | none =>
            simp only [restCount, other]
        | some released =>
            have notBlock : released ≠ block := by
              rintro rfl
              split at found
              · exact same (invariant.blocks_hash node released found).symm
              · cases found
            simp only [List.count_cons, restCount, other, beq_iff_eq, notBlock, if_false,
              Nat.add_zero]

/-- The call that satisfies `hash` returns a tracked block once if `hash` was
the only hash it still waited for, and not at all otherwise. -/
theorem Tracked.count_satisfy {buffer buffer' : BlockBuffer H T} {block : Block H T}
    {pending : List H} {hash : H} {resolved : List (Block H T)}
    (invariant : Invariant buffer) (tracked : Tracked buffer block pending)
    (result : buffer.satisfy hash = some (buffer', resolved)) :
    resolved.count block = if hash ∈ pending ∧ ∀ x ∈ pending, x = hash then 1 else 0 := by
  cases waiting : buffer.dependent hash with
  | none =>
      simp only [BlockBuffer.satisfy, waiting, Option.some.injEq, Prod.mk.injEq] at result
      rw [← result.2]
      have absent : hash ∉ pending := by
        intro member
        have listed := ((tracked.2 (List.ne_nil_of_mem member)).2 hash).mpr member
        rw [invariant.inverse, waiting] at listed
        simp at listed
      simp [absent]
  | some dependents =>
      rw [satisfy_eq buffer hash dependents waiting
        (invariant.dependent_nodup hash dependents waiting) (invariant.present waiting),
        Option.some.injEq, Prod.mk.injEq] at result
      rw [← result.2, count_released invariant block hash dependents
        (invariant.dependent_nodup hash dependents waiting)]
      by_cases empty : pending = []
      · simp [empty, tracked.1 empty]
      · obtain ⟨parked, waitingFor⟩ := tracked.2 empty
        obtain ⟨original, originalEq⟩ : ∃ original,
            buffer.dependency block.hash = some original := by
          apply Option.isSome_iff_exists.mp
          rw [← invariant.keys, parked]
          rfl
        have nodup := invariant.dependency_nodup _ original originalEq
        have listed : block.hash ∈ dependents ↔ hash ∈ pending := by
          rw [← waitingFor, invariant.inverse, waiting]
          rfl
        have done : buffer.remaining hash block.hash = [] ↔ ∀ x ∈ pending, x = hash := by
          rw [remaining, originalEq, Option.getD_some, List.eq_nil_iff_forall_not_mem]
          constructor
          · intro none x member
            rw [← waitingFor, originalEq, Option.getD_some] at member
            by_contra other
            exact none x (nodup.mem_erase_iff.mpr ⟨other, member⟩)
          · intro all x member
            have inOriginal := (nodup.mem_erase_iff.mp member)
            have inPending := (waitingFor x).mp (by rw [originalEq]; exact inOriginal.2)
            exact inOriginal.1 (all x inPending)
        simp only [listed, done, parked, and_true]

end Count

end BlockBuffer

namespace Run

open BlockBuffer

/-- Along a run, a tracked block loses exactly the satisfied hashes from its
pending list, as long as it is not inserted again. -/
theorem tracked {worker last : Worker H T}
    {calls : List (BufferCall H T × List (Block H T))}
    (run : Run worker calls last) (invariant : worker.buffer.Invariant)
    {block : Block H T} {pending : List H} (tracked : Tracked worker.buffer block pending)
    (notAgain : NoInsertOf block.hash calls ∨
      (pending.filter fun x => x ∉ satisfiedBy calls) ≠ []) :
    Tracked last.buffer block (pending.filter fun x => x ∉ satisfiedBy calls) := by
  induction run generalizing pending with
  | nil =>
      have kept : ∀ x ∈ pending, decide (x ∉ satisfiedBy ([] : List
          (BufferCall H T × List (Block H T)))) = true := by
        simp [satisfiedBy]
      rw [List.filter_eq_self.mpr kept]
      exact tracked
  | @cons _ middle _ call returned rest step _ inductionHypothesis =>
      cases step with
      | @insert other dependencies nonempty fresh _ =>
          have distinct : other.hash ≠ block.hash := by
            intro same
            rcases notAgain with never | stillPending
            · exact never _ List.mem_cons_self other dependencies rfl same
            · have waitingNow : pending ≠ [] := by
                intro empty
                simp [empty] at stillPending
              rw [same, (tracked.2 waitingNow).1] at fresh
              cases fresh
          apply inductionHypothesis (invariant.insert fresh nonempty)
            (tracked.insert_other distinct)
          rcases notAgain with never | stillPending
          · exact .inl fun call member => never call (List.mem_cons_of_mem _ member)
          · exact .inr stillPending
      | @satisfy hash buffer resolved _ result =>
          have next := inductionHypothesis (invariant.satisfy result)
            (tracked.satisfy invariant result)
          have combined : ((pending.filter fun x => x ≠ hash).filter
              fun x => x ∉ satisfiedBy rest) =
              pending.filter fun x => x ∉ satisfiedBy ((BufferCall.satisfy hash, returned) :: rest) := by
            rw [List.filter_filter]
            apply List.filter_congr
            intro x _
            simp [satisfiedBy, Bool.and_comm]
          rw [← combined]
          apply next
          rcases notAgain with never | stillPending
          · exact .inl fun call member => never call (List.mem_cons_of_mem _ member)
          · exact .inr (by rw [combined]; exact stillPending)

/-- After an insertion the inserted block is tracked with all its
dependencies, from a state where the invariant holds. -/
theorem after_insert {before calls : List (BufferCall H T × List (Block H T))}
    {block : Block H T} {dependencies : List H} {last : Worker H T}
    (run : Run Worker.new (before ++ (.insert block dependencies, []) :: calls) last) :
    ∃ worker : Worker H T, worker.buffer.Invariant ∧
      Tracked worker.buffer block dependencies ∧ Run worker calls last := by
  obtain ⟨start, first, second⟩ := append.mp run
  have startInvariant := first.invariant invariant_new
  cases second with
  | cons step rest =>
      cases step with
      | insert nonempty fresh _ =>
          exact ⟨_, startInvariant.insert fresh nonempty, tracked_insert nonempty, rest⟩

end Run

omit [Hashable (Header H) H] in
omit [Hashable (Header H) H] in
/-- Every nonempty set of hashes satisfied along a sequence of calls is
completed by one call: the one that satisfies the last of them. -/
theorem exists_completing_satisfy :
    ∀ (calls : List (BufferCall H T × List (Block H T))) (pending : List H),
      pending ≠ [] → (∀ x ∈ pending, x ∈ satisfiedBy calls) →
      ∃ middle hash returned after,
        calls = middle ++ (.satisfy hash, returned) :: after ∧ hash ∈ pending ∧
          ∀ x ∈ pending, x = hash ∨ x ∈ satisfiedBy middle := by
  intro calls
  induction calls with
  | nil =>
      intro pending nonempty covered
      obtain ⟨x, member⟩ := List.exists_mem_of_ne_nil _ nonempty
      simpa [satisfiedBy] using covered x member
  | cons head rest inductionHypothesis =>
      intro pending nonempty covered
      obtain ⟨call, returned⟩ := head
      cases call with
      | insert block dependencies =>
          obtain ⟨middle, hash, returned', after, split, member, completes⟩ :=
            inductionHypothesis pending nonempty covered
          exact ⟨(.insert block dependencies, returned) :: middle, hash, returned', after,
            by rw [split]; rfl, member, completes⟩
      | satisfy hash =>
          by_cases last : ∀ x ∈ pending, x = hash
          · obtain ⟨x, member⟩ := List.exists_mem_of_ne_nil _ nonempty
            refine ⟨[], hash, returned, rest, rfl, ?_, fun x member => .inl (last x member)⟩
            rw [← last x member]
            exact member
          · have others : (pending.filter fun x => x ≠ hash) ≠ [] := by
              push Not at last
              obtain ⟨x, member, other⟩ := last
              exact List.ne_nil_of_mem (List.mem_filter.mpr ⟨member, by simpa using other⟩)
            have laterCovered : ∀ x ∈ pending.filter (fun x => x ≠ hash),
                x ∈ satisfiedBy rest := by
              intro x member
              obtain ⟨inPending, other⟩ := List.mem_filter.mp member
              have := covered x inPending
              simp only [satisfiedBy, List.mem_cons] at this
              simp only [decide_eq_true_eq] at other
              exact this.resolve_left other
            obtain ⟨middle, hash', returned', after, split, member, completes⟩ :=
              inductionHypothesis _ others laterCovered
            refine ⟨(.satisfy hash, returned) :: middle, hash', returned', after,
              by rw [split]; rfl, (List.mem_filter.mp member).1, ?_⟩
            intro x inPending
            by_cases same : x = hash
            · exact .inr (by simp [satisfiedBy, same])
            · have := completes x (List.mem_filter.mpr ⟨inPending, by simpa using same⟩)
              simp only [satisfiedBy, List.mem_cons]
              tauto

open BlockBuffer in
/-- The block buffer under the worker's protocol.  In every state of a run the
representation invariant holds, so `satisfy` never unwraps a missing entry.
A buffered block comes back from the `satisfy` call that satisfies the last of
its dependencies, once, and from no other call before it is inserted again; and
if a dependency is never satisfied the block stays in the buffer. -/
theorem blockBuffer_releases_each_block_once [DecidableEq T] :
    (∀ (calls : List (BufferCall H T × List (Block H T))) (worker : Worker H T),
        Run Worker.new calls worker →
          worker.buffer.Invariant ∧ ∀ hash, (worker.buffer.satisfy hash).isSome) ∧
      (∀ (before middle after : List (BufferCall H T × List (Block H T)))
          (block : Block H T) (dependencies : List H) (hash : H)
          (returned : List (Block H T)) (worker : Worker H T),
        Run Worker.new (before ++ (.insert block dependencies, []) ::
          (middle ++ (.satisfy hash, returned) :: after)) worker →
        NoInsertOf block.hash middle →
        returned.count block =
          if hash ∈ dependencies ∧ ∀ d ∈ dependencies, d = hash ∨ d ∈ satisfiedBy middle
          then 1 else 0) ∧
      (∀ (before after : List (BufferCall H T × List (Block H T)))
          (block : Block H T) (dependencies : List H) (worker : Worker H T),
        Run Worker.new (before ++ (.insert block dependencies, []) :: after) worker →
        (∀ d ∈ dependencies, d ∈ satisfiedBy after) →
        ∃ middle hash returned rest,
          after = middle ++ (.satisfy hash, returned) :: rest ∧ returned.count block = 1) ∧
      (∀ (before after : List (BufferCall H T × List (Block H T)))
          (block : Block H T) (dependencies : List H) (worker : Worker H T),
        Run Worker.new (before ++ (.insert block dependencies, []) :: after) worker →
        (∃ d ∈ dependencies, d ∉ satisfiedBy after) →
        worker.buffer.blocks block.hash = some block) := by
  refine ⟨?_, ?_, ?_, ?_⟩
  · intro calls worker run
    have invariant := run.invariant invariant_new
    exact ⟨invariant, invariant.satisfy_isSome⟩
  · intro before middle after block dependencies hash returned worker run notAgain
    obtain ⟨inserted, invariant, tracked, rest⟩ := Run.after_insert run
    obtain ⟨waiting, throughMiddle, fromWaiting⟩ := Run.append.mp rest
    have waitingInvariant := throughMiddle.invariant invariant
    have waitingTracked := throughMiddle.tracked invariant tracked (.inl notAgain)
    cases fromWaiting with
    | cons step _ =>
        cases step with
        | satisfy once result =>
            rw [waitingTracked.count_satisfy waitingInvariant result]
            have notEarlier : hash ∉ satisfiedBy middle := fun member =>
              once ((throughMiddle.mem_satisfied hash).mpr (.inl member))
            congr 1
            apply propext
            simp only [List.mem_filter, decide_eq_true_eq]
            constructor
            · rintro ⟨⟨member, _⟩, only⟩
              refine ⟨member, fun d inDependencies => ?_⟩
              by_cases earlier : d ∈ satisfiedBy middle
              · exact .inr earlier
              · exact .inl (only d ⟨inDependencies, earlier⟩)
            · rintro ⟨member, completes⟩
              refine ⟨⟨member, notEarlier⟩, fun d ⟨inDependencies, later⟩ => ?_⟩
              exact (completes d inDependencies).resolve_right later
  · intro before after block dependencies worker run covered
    obtain ⟨inserted, invariant, tracked, rest⟩ := Run.after_insert run
    have nonempty : dependencies ≠ [] := by
      obtain ⟨_, _, second⟩ := Run.append.mp run
      cases second with
      | cons step _ =>
          cases step with
          | insert nonempty _ _ => exact nonempty
    obtain ⟨middle, hash, returned, tail, split, member, completes⟩ :=
      exists_completing_satisfy after dependencies nonempty covered
    refine ⟨middle, hash, returned, tail, split, ?_⟩
    rw [split] at rest
    obtain ⟨waiting, throughMiddle, fromWaiting⟩ := Run.append.mp rest
    cases fromWaiting with
    | cons step _ =>
        cases step with
        | satisfy once result =>
            have notEarlier : hash ∉ satisfiedBy middle := fun inMiddle =>
              once ((throughMiddle.mem_satisfied hash).mpr (.inl inMiddle))
            have stillPending : (dependencies.filter fun x => x ∉ satisfiedBy middle) ≠ [] :=
              List.ne_nil_of_mem (List.mem_filter.mpr ⟨member, by simpa using notEarlier⟩)
            have waitingTracked := throughMiddle.tracked invariant tracked (.inr stillPending)
            rw [waitingTracked.count_satisfy (throughMiddle.invariant invariant) result]
            rw [if_pos]
            refine ⟨List.mem_filter.mpr ⟨member, by simpa using notEarlier⟩, ?_⟩
            intro d inFilter
            obtain ⟨inDependencies, later⟩ := List.mem_filter.mp inFilter
            simp only [decide_eq_true_eq] at later
            exact (completes d inDependencies).resolve_right later
  · intro before after block dependencies worker run uncovered
    obtain ⟨inserted, invariant, tracked, rest⟩ := Run.after_insert run
    obtain ⟨d, member, never⟩ := uncovered
    have stillPending : (dependencies.filter fun x => x ∉ satisfiedBy after) ≠ [] :=
      List.ne_nil_of_mem (List.mem_filter.mpr ⟨member, by simpa using never⟩)
    exact ((rest.tracked invariant tracked (.inr stillPending)).2 stillPending).1

/-- A block that waits for the hashes `1` and `2`. -/
def waitingFirst : Block Nat Nat := ⟨runHeader 1 5, .transaction { transactions := [] }, []⟩

/-- A block that waits for the hash `2` only. -/
def waitingSecond : Block Nat Nat := ⟨runHeader 2 6, .transaction { transactions := [] }, []⟩

/-- The calls between inserting `waitingFirst` and satisfying `1`: the second
block waits for `2`, and satisfying `2` releases it. -/
def sharedMiddle : List (BufferCall Nat Nat × List (Block Nat Nat)) :=
  [(.insert waitingSecond [2], []), (.satisfy 2, [waitingSecond])]

/-- Both blocks wait for `2`; satisfying `1` last releases the first. -/
def sharedCalls : List (BufferCall Nat Nat × List (Block Nat Nat)) :=
  (.insert waitingFirst [1, 2], []) :: (sharedMiddle ++ [(.satisfy 1, [waitingFirst])])

theorem blockBuffer_releases_shared_dependency :
    ∃ worker, Run Worker.new sharedCalls worker ∧ worker.buffer.Invariant ∧
      NoInsertOf waitingFirst.hash sharedMiddle ∧
      [waitingFirst].count waitingFirst =
        (if 1 ∈ [1, 2] ∧ ∀ d ∈ [1, 2], d = 1 ∨ d ∈ satisfiedBy sharedMiddle then 1 else 0) ∧
      ∃ middle hash returned rest, sharedMiddle ++ [(.satisfy 1, [waitingFirst])] =
        middle ++ (.satisfy hash, returned) :: rest ∧ returned.count waitingFirst = 1 := by
  obtain ⟨worker, run⟩ : ∃ worker, Run Worker.new sharedCalls worker :=
    ⟨_, .cons (.insert (by decide) (by decide) (by decide)) (.cons (.insert (by decide) (by decide) (by decide))
      (.cons (.satisfy (by decide) rfl) (.cons (.satisfy (by decide) rfl) (.nil _))))⟩
  have notAgain : NoInsertOf waitingFirst.hash sharedMiddle := by
    intro call member block dependencies isInsert
    simp only [sharedMiddle, List.mem_cons, List.not_mem_nil, or_false] at member
    rcases member with rfl | rfl <;> cases isInsert
    decide
  -- the first block is inserted first, with nothing before it
  have split : Run Worker.new ([] ++ (.insert waitingFirst [1, 2], []) ::
      (sharedMiddle ++ (.satisfy 1, [waitingFirst]) :: [])) worker := run
  obtain ⟨always, released, completed, _⟩ := blockBuffer_releases_each_block_once (H := Nat) (T := Nat)
  exact ⟨worker, run, (always _ _ run).1, notAgain, released _ _ _ _ _ _ _ _ split notAgain,
    completed [] _ _ _ _ split (by decide)⟩

end Network
end Prism
