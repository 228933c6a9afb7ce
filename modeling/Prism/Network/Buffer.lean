import Prism.Block
import Mathlib.Data.List.Nodup
import Mathlib.Logic.Function.Basic

/-!
# The block buffer

`network/buffer.rs`.  The network worker parks a block whose parent or
references are missing, together with the hashes it still waits for, and
releases it once the last of them has been processed.  Two hash maps keep the
waiting relation in both directions: `dependency` from a parked block to the
hashes it waits for, and `dependent` from a hash to the parked blocks waiting
for it.

Hash maps are partial functions and hash sets are duplicate-free lists; the
order of such a list stands for the unspecified iteration order of `HashSet`.
A failed `unwrap` is `none`.
-/

namespace Prism
namespace Network

open Function

variable {H T : Type} [DecidableEq H]

/-- Blocks received but not processed (`network::buffer::BlockBuffer`). -/
@[ext] structure BlockBuffer (H T : Type) where
  /-- Parked blocks, by hash. -/
  blocks : H → Option (Block H T)
  /-- For a parked block, the hashes it still waits for. -/
  dependency : H → Option (List H)
  /-- For a hash, the parked blocks waiting for it. -/
  dependent : H → Option (List H)

namespace BlockBuffer

/-- The empty buffer (`BlockBuffer::new`). -/
def new : BlockBuffer H T :=
  ⟨fun _ => none, fun _ => none, fun _ => none⟩

/-- One pass of the loop over the dependencies in `insert`: add `depHash` to
the dependency set, creating the entry of `depHash` in `dependent` when it is
missing, and add the new block to it. -/
def insertDependency (hash : H) (state : List H × (H → Option (List H)))
    (depHash : H) : List H × (H → Option (List H)) :=
  let dependent :=
    if (state.2 depHash).isSome then state.2 else update state.2 depHash (some [])
  (state.1.insert depHash,
    update dependent depHash (some (((dependent depHash).getD []).insert hash)))

/-- Buffer a block whose parent or references are missing
(`BlockBuffer::insert`). -/
def insert [Hashable (Header H) H] (buffer : BlockBuffer H T) (block : Block H T)
    (dependencies : List H) : BlockBuffer H T :=
  let hash := block.hash
  let loop := dependencies.foldl (insertDependency hash) ([], buffer.dependent)
  { blocks := update buffer.blocks hash (some block)
    dependency := update buffer.dependency hash (some loop.1)
    dependent := loop.2 }

/-- One pass of the loop over the dependents in `satisfy`: drop `hash` from the
dependency set of `node`, and release `node` when nothing is left. -/
def resolveDependent (hash : H) (state : BlockBuffer H T × List (Block H T))
    (node : H) : Option (BlockBuffer H T × List (Block H T)) :=
  match state.1.dependency node with
  | none => none
  | some dependency =>
      let dependency := dependency.erase hash
      if dependency.isEmpty then
        match state.1.blocks node with
        | none => none
        | some block =>
            some ({ state.1 with
                blocks := update state.1.blocks node none
                dependency := update state.1.dependency node none },
              state.2 ++ [block])
      else
        some ({ state.1 with
            dependency := update state.1.dependency node (some dependency) },
          state.2)

/-- Mark that the block `hash` has been processed and return the blocks that
waited for nothing else (`BlockBuffer::satisfy`). -/
def satisfy (buffer : BlockBuffer H T) (hash : H) :
    Option (BlockBuffer H T × List (Block H T)) :=
  match buffer.dependent hash with
  | none => some (buffer, [])
  | some dependents =>
      dependents.foldlM (resolveDependent hash)
        ({ buffer with dependent := update buffer.dependent hash none }, [])

/-! ## Spec of `insert` -/

theorem insertDependency_eq (hash : H) (collected : List H)
    (dependent : H → Option (List H)) (depHash : H) :
    insertDependency hash (collected, dependent) depHash =
      (collected.insert depHash,
        update dependent depHash
          (some (((dependent depHash).getD []).insert hash))) := by
  unfold insertDependency
  by_cases present : (dependent depHash).isSome
  · simp [present]
  · have missing : dependent depHash = none := Option.not_isSome_iff_eq_none.mp present
    simp [missing]

theorem mem_foldl_insertDependency_fst (hash : H) (dependencies : List H) :
    ∀ (collected : List H) (dependent : H → Option (List H)) (x : H),
      x ∈ (dependencies.foldl (insertDependency hash) (collected, dependent)).1 ↔
        x ∈ collected ∨ x ∈ dependencies := by
  induction dependencies with
  | nil => simp
  | cons depHash rest inductionHypothesis =>
      intro collected dependent x
      rw [List.foldl_cons, insertDependency_eq, inductionHypothesis,
        List.mem_insert_iff, List.mem_cons]
      tauto

theorem nodup_foldl_insertDependency_fst (hash : H) (dependencies : List H) :
    ∀ (collected : List H) (dependent : H → Option (List H)),
      collected.Nodup →
        (dependencies.foldl (insertDependency hash) (collected, dependent)).1.Nodup := by
  induction dependencies with
  | nil => simp
  | cons depHash rest inductionHypothesis =>
      intro collected dependent collectedNodup
      rw [List.foldl_cons, insertDependency_eq]
      exact inductionHypothesis _ _ (List.Nodup.insert collectedNodup)

theorem foldl_insertDependency_snd (hash : H) (dependencies : List H) :
    ∀ (collected : List H) (dependent : H → Option (List H)) (d : H),
      (dependencies.foldl (insertDependency hash) (collected, dependent)).2 d =
        if d ∈ dependencies then some (((dependent d).getD []).insert hash)
        else dependent d := by
  induction dependencies with
  | nil => simp
  | cons depHash rest inductionHypothesis =>
      intro collected dependent d
      rw [List.foldl_cons, insertDependency_eq, inductionHypothesis]
      by_cases same : d = depHash
      · subst same
        simp
      · by_cases later : d ∈ rest <;> simp [same, later]

/-- `insert` parks the block under its hash, waiting for exactly the given
hashes, and registers it as a dependent of each of them. -/
theorem insert_spec [Hashable (Header H) H] (buffer : BlockBuffer H T) (block : Block H T)
    (dependencies : List H) :
    (buffer.insert block dependencies).blocks = update buffer.blocks block.hash (some block) ∧
      (∃ waiting, (buffer.insert block dependencies).dependency =
          update buffer.dependency block.hash (some waiting) ∧
        waiting.Nodup ∧ ∀ x, x ∈ waiting ↔ x ∈ dependencies) ∧
      ∀ d, (buffer.insert block dependencies).dependent d =
        if d ∈ dependencies then some (((buffer.dependent d).getD []).insert block.hash)
        else buffer.dependent d := by
  refine ⟨rfl, ⟨_, rfl, ?_, ?_⟩, ?_⟩
  · exact nodup_foldl_insertDependency_fst _ _ _ _ List.nodup_nil
  · intro x
    rw [mem_foldl_insertDependency_fst]
    simp
  · intro d
    exact foldl_insertDependency_snd _ _ _ _ d

/-! ## Spec of `satisfy` -/

/-- The hashes `node` still waits for once `hash` has been processed. -/
def remaining (buffer : BlockBuffer H T) (hash node : H) : List H :=
  ((buffer.dependency node).getD []).erase hash

/-- The buffer that `satisfy hash` leaves when `dependents` are the blocks
that waited for `hash`: each of them waits for one hash less, and leaves the
buffer when it waits for nothing. -/
def resolveAll (buffer : BlockBuffer H T) (hash : H) (dependents : List H) :
    BlockBuffer H T where
  blocks node :=
    if node ∈ dependents ∧ buffer.remaining hash node = [] then none
    else buffer.blocks node
  dependency node :=
    if node ∈ dependents then
      if buffer.remaining hash node = [] then none
      else some (buffer.remaining hash node)
    else buffer.dependency node
  dependent := buffer.dependent

/-- The blocks among `dependents` that wait for `hash` only, in order. -/
def released (buffer : BlockBuffer H T) (hash : H) (dependents : List H) :
    List (Block H T) :=
  dependents.filterMap fun node =>
    if buffer.remaining hash node = [] then buffer.blocks node else none

theorem resolveDependent_eq (hash : H) (buffer : BlockBuffer H T)
    (resolved : List (Block H T)) (node : H)
    (parked : (buffer.dependency node).isSome)
    (stored : (buffer.blocks node).isSome) :
    resolveDependent hash (buffer, resolved) node =
      some (buffer.resolveAll hash [node],
        resolved ++ buffer.released hash [node]) := by
  obtain ⟨waiting, waitingEq⟩ := Option.isSome_iff_exists.mp parked
  obtain ⟨block, blockEq⟩ := Option.isSome_iff_exists.mp stored
  have remainingEq : buffer.remaining hash node = waiting.erase hash := by
    simp [remaining, waitingEq]
  unfold resolveDependent
  by_cases done : waiting.erase hash = []
  · simp only [waitingEq, done, List.isEmpty_nil, if_true, blockEq]
    congr 2
    ext x : 2
    · by_cases same : x = node <;> simp [resolveAll, same, remainingEq, done]
    · by_cases same : x = node <;> simp [resolveAll, same, remainingEq, done]
    · rfl
    · simp [released, remainingEq, done, blockEq]
  · have notEmpty : (waiting.erase hash).isEmpty = false := by
      simpa [List.isEmpty_iff] using done
    simp only [waitingEq, notEmpty, Bool.false_eq_true, if_false]
    congr 2
    ext x : 2
    · by_cases same : x = node <;> simp [resolveAll, same, remainingEq, done]
    · by_cases same : x = node <;> simp [resolveAll, same, remainingEq, done]
    · rfl
    · simp [released, remainingEq, done]

@[simp] theorem resolveAll_blocks (buffer : BlockBuffer H T) (hash : H)
    (dependents : List H) (node : H) :
    (buffer.resolveAll hash dependents).blocks node =
      if node ∈ dependents ∧ buffer.remaining hash node = [] then none
      else buffer.blocks node := rfl

@[simp] theorem resolveAll_dependency (buffer : BlockBuffer H T) (hash : H)
    (dependents : List H) (node : H) :
    (buffer.resolveAll hash dependents).dependency node =
      if node ∈ dependents then
        if buffer.remaining hash node = [] then none
        else some (buffer.remaining hash node)
      else buffer.dependency node := rfl

@[simp] theorem resolveAll_dependent (buffer : BlockBuffer H T) (hash : H)
    (dependents : List H) :
    (buffer.resolveAll hash dependents).dependent = buffer.dependent := rfl

theorem remaining_resolveAll_of_not_mem (buffer : BlockBuffer H T) (hash : H)
    {dependents : List H} {node : H} (outside : node ∉ dependents) :
    (buffer.resolveAll hash dependents).remaining hash node =
      buffer.remaining hash node := by
  simp [remaining, outside]

theorem resolveAll_cons (buffer : BlockBuffer H T) (hash node : H)
    (rest : List H) (fresh : node ∉ rest) :
    (buffer.resolveAll hash [node]).resolveAll hash rest =
      buffer.resolveAll hash (node :: rest) := by
  ext x : 2
  · by_cases member : x ∈ rest
    · have other : x ∉ [node] := by
        rw [List.mem_singleton]
        rintro rfl
        exact fresh member
      rw [resolveAll_blocks, remaining_resolveAll_of_not_mem buffer hash other]
      simp_all
    · by_cases same : x = node <;> simp [member, same, fresh]
  · by_cases member : x ∈ rest
    · have other : x ∉ [node] := by
        rw [List.mem_singleton]
        rintro rfl
        exact fresh member
      rw [resolveAll_dependency, remaining_resolveAll_of_not_mem buffer hash other]
      simp_all
    · by_cases same : x = node <;> simp [member, same, fresh]
  · rfl

theorem released_cons (buffer : BlockBuffer H T) (hash node : H)
    (rest : List H) (fresh : node ∉ rest) :
    buffer.released hash [node] ++ (buffer.resolveAll hash [node]).released hash rest =
      buffer.released hash (node :: rest) := by
  have restEq : (buffer.resolveAll hash [node]).released hash rest =
      buffer.released hash rest := by
    unfold released
    apply List.filterMap_congr
    intro x member
    have other : x ∉ [node] := by
      rw [List.mem_singleton]
      rintro rfl
      exact fresh member
    rw [remaining_resolveAll_of_not_mem buffer hash other, resolveAll_blocks]
    simp [other]
  rw [restEq]
  simp only [released, List.filterMap_cons, List.filterMap_nil]
  split <;> simp

theorem foldlM_resolveDependent (hash : H) (dependents : List H) :
    ∀ (buffer : BlockBuffer H T) (resolved : List (Block H T)),
      dependents.Nodup →
      (∀ node ∈ dependents,
        (buffer.dependency node).isSome ∧ (buffer.blocks node).isSome) →
      dependents.foldlM (resolveDependent hash) (buffer, resolved) =
        some (buffer.resolveAll hash dependents,
          resolved ++ buffer.released hash dependents) := by
  induction dependents with
  | nil =>
      intro buffer resolved _ _
      have unchanged : buffer.resolveAll hash [] = buffer := by
        ext x : 2 <;> simp
      simp [unchanged, released]
  | cons node rest inductionHypothesis =>
      intro buffer resolved nodup present
      obtain ⟨fresh, restNodup⟩ := List.nodup_cons.mp nodup
      obtain ⟨parked, stored⟩ := present node List.mem_cons_self
      have restPresent : ∀ x ∈ rest,
          ((buffer.resolveAll hash [node]).dependency x).isSome ∧
            ((buffer.resolveAll hash [node]).blocks x).isSome := by
        intro x member
        have other : x ≠ node := fun same => fresh (same ▸ member)
        simpa [other] using present x (List.mem_cons_of_mem node member)
      rw [List.foldlM_cons, resolveDependent_eq hash buffer resolved node parked stored]
      simp only [Option.bind_eq_bind, Option.bind_some]
      rw [inductionHypothesis _ _ restNodup restPresent, resolveAll_cons _ _ _ _ fresh,
        List.append_assoc, released_cons _ _ _ _ fresh]

theorem getD_resolveAll_dependency (buffer : BlockBuffer H T) (hash : H)
    {dependents : List H} {node : H} (member : node ∈ dependents) :
    ((buffer.resolveAll hash dependents).dependency node).getD [] =
      buffer.remaining hash node := by
  rw [resolveAll_dependency, if_pos member]
  split <;> simp_all

@[simp] theorem remaining_withDependent (buffer : BlockBuffer H T)
    (dependent : H → Option (List H)) :
    ({ buffer with dependent } : BlockBuffer H T).remaining = buffer.remaining := rfl

/-- With every waiting block present, `satisfy` runs its loop to the end. -/
theorem satisfy_eq (buffer : BlockBuffer H T) (hash : H) (dependents : List H)
    (waiting : buffer.dependent hash = some dependents) (nodup : dependents.Nodup)
    (present : ∀ node ∈ dependents,
      (buffer.dependency node).isSome ∧ (buffer.blocks node).isSome) :
    buffer.satisfy hash =
      some (({ buffer with dependent := update buffer.dependent hash none } :
          BlockBuffer H T).resolveAll hash dependents,
        buffer.released hash dependents) := by
  unfold satisfy
  rw [waiting]
  exact foldlM_resolveDependent hash dependents _ [] nodup present

/-! ## The representation invariant -/

variable [Hashable (Header H) H]

/-- The representation invariant of the buffer. -/
structure Invariant (buffer : BlockBuffer H T) : Prop where
  /-- The keys of `blocks` are the keys of `dependency`. -/
  keys : ∀ h, (buffer.blocks h).isSome = (buffer.dependency h).isSome
  /-- A parked block is stored under its own hash. -/
  blocks_hash : ∀ h block, buffer.blocks h = some block → block.hash = h
  /-- A parked block waits for at least one hash. -/
  dependency_ne_nil : ∀ h waiting, buffer.dependency h = some waiting → waiting ≠ []
  /-- Dependency sets have no duplicates. -/
  dependency_nodup : ∀ h waiting, buffer.dependency h = some waiting → waiting.Nodup
  /-- Dependent sets have no duplicates. -/
  dependent_nodup : ∀ d blocked, buffer.dependent d = some blocked → blocked.Nodup
  /-- `h` waits for `d` exactly when `h` is registered as a dependent of `d`. -/
  inverse : ∀ h d, d ∈ (buffer.dependency h).getD [] ↔ h ∈ (buffer.dependent d).getD []

omit [DecidableEq H] in
theorem invariant_new : Invariant (new : BlockBuffer H T) where
  keys _ := rfl
  blocks_hash _ _ stored := by cases stored
  dependency_ne_nil _ _ parked := by cases parked
  dependency_nodup _ _ parked := by cases parked
  dependent_nodup _ _ blocked := by cases blocked
  inverse _ _ := by simp [new]

section Insert

variable {buffer : BlockBuffer H T} {block : Block H T} {dependencies : List H}

/-- Inserting a block that is not parked, with at least one dependency, keeps
the invariant. -/
theorem Invariant.insert (invariant : Invariant buffer)
    (fresh : buffer.blocks block.hash = none) (nonempty : dependencies ≠ []) :
    Invariant (buffer.insert block dependencies) := by
  obtain ⟨blocksEq, ⟨waiting, dependencyEq, waitingNodup, waitingMem⟩, dependentEq⟩ :=
    insert_spec buffer block dependencies
  have unparked : buffer.dependency block.hash = none := by
    have := invariant.keys block.hash
    rw [fresh] at this
    exact Option.not_isSome_iff_eq_none.mp (by simpa using this.symm)
  have waitingNe : waiting ≠ [] := by
    obtain ⟨d, member⟩ := List.exists_mem_of_ne_nil _ nonempty
    exact List.ne_nil_of_mem ((waitingMem d).mpr member)
  constructor
  · intro h
    rw [blocksEq, dependencyEq]
    by_cases same : h = block.hash
    · simp [same]
    · simp [same, invariant.keys h]
  · intro h stored parked
    rw [blocksEq] at parked
    by_cases same : h = block.hash
    · subst same
      simp only [update_self, Option.some.injEq] at parked
      rw [← parked]
    · rw [update_of_ne same] at parked
      exact invariant.blocks_hash h stored parked
  · intro h stored parked
    rw [dependencyEq] at parked
    by_cases same : h = block.hash
    · subst same
      simp only [update_self, Option.some.injEq] at parked
      rw [← parked]
      exact waitingNe
    · rw [update_of_ne same] at parked
      exact invariant.dependency_ne_nil h stored parked
  · intro h stored parked
    rw [dependencyEq] at parked
    by_cases same : h = block.hash
    · subst same
      simp only [update_self, Option.some.injEq] at parked
      rw [← parked]
      exact waitingNodup
    · rw [update_of_ne same] at parked
      exact invariant.dependency_nodup h stored parked
  · intro d blocked parked
    rw [dependentEq] at parked
    split at parked
    · simp only [Option.some.injEq] at parked
      rw [← parked]
      cases known : buffer.dependent d with
      | none => simp
      | some previous =>
          exact List.Nodup.insert (invariant.dependent_nodup d previous known)
    · exact invariant.dependent_nodup d blocked parked
  · intro h d
    rw [dependencyEq, dependentEq]
    by_cases same : h = block.hash
    · subst same
      have notBlocked : block.hash ∉ (buffer.dependent d).getD [] := by
        rw [← invariant.inverse, unparked]
        simp
      by_cases listed : d ∈ dependencies
      · simp [listed, waitingMem]
      · simp [listed, waitingMem, notBlocked]
    · by_cases listed : d ∈ dependencies
      · simp [same, listed, invariant.inverse]
      · simp [same, listed, invariant.inverse]

end Insert

section Satisfy

variable {buffer : BlockBuffer H T} {hash : H}

omit [DecidableEq H] in
/-- Under the invariant, every block waiting for `hash` is parked with its
dependency set. -/
theorem Invariant.present (invariant : Invariant buffer) {dependents : List H}
    (waiting : buffer.dependent hash = some dependents) :
    ∀ node ∈ dependents,
      (buffer.dependency node).isSome ∧ (buffer.blocks node).isSome := by
  intro node member
  have listed : hash ∈ (buffer.dependency node).getD [] := by
    rw [invariant.inverse, waiting]
    exact member
  have parked : (buffer.dependency node).isSome := by
    cases known : buffer.dependency node with
    | none => simp [known] at listed
    | some _ => rfl
  exact ⟨parked, by rw [invariant.keys]; exact parked⟩

/-- Under the invariant `satisfy` never unwraps a missing entry. -/
theorem Invariant.satisfy_isSome (invariant : Invariant buffer) (hash : H) :
    (buffer.satisfy hash).isSome := by
  cases waiting : buffer.dependent hash with
  | none => simp [satisfy, waiting]
  | some dependents =>
      rw [satisfy_eq buffer hash dependents waiting
        (invariant.dependent_nodup hash dependents waiting) (invariant.present waiting)]
      rfl

/-- `satisfy` keeps the invariant. -/
theorem Invariant.satisfy (invariant : Invariant buffer)
    {buffer' : BlockBuffer H T} {resolved : List (Block H T)}
    (result : buffer.satisfy hash = some (buffer', resolved)) :
    Invariant buffer' := by
  cases waiting : buffer.dependent hash with
  | none =>
      simp only [BlockBuffer.satisfy, waiting, Option.some.injEq, Prod.mk.injEq] at result
      rw [← result.1]
      exact invariant
  | some dependents =>
      rw [satisfy_eq buffer hash dependents waiting
        (invariant.dependent_nodup hash dependents waiting) (invariant.present waiting),
        Option.some.injEq, Prod.mk.injEq] at result
      rw [← result.1]
      have present := invariant.present waiting
      constructor
      · intro x
        simp only [resolveAll_blocks, resolveAll_dependency, remaining_withDependent]
        by_cases member : x ∈ dependents
        · by_cases done : buffer.remaining hash x = []
          · simp [member, done]
          · simp [member, done, (present x member).2]
        · simp [member, invariant.keys x]
      · intro x block stored
        simp only [resolveAll_blocks] at stored
        split at stored
        · cases stored
        · exact invariant.blocks_hash x block stored
      · intro x left parked
        simp only [resolveAll_dependency, remaining_withDependent] at parked
        by_cases member : x ∈ dependents
        · by_cases done : buffer.remaining hash x = []
          · simp [member, done] at parked
          · simp only [member, done, if_true, if_false, Option.some.injEq] at parked
            rw [← parked]
            exact done
        · rw [if_neg member] at parked
          exact invariant.dependency_ne_nil x left parked
      · intro x left parked
        simp only [resolveAll_dependency, remaining_withDependent] at parked
        by_cases member : x ∈ dependents
        · by_cases done : buffer.remaining hash x = []
          · simp [member, done] at parked
          · simp only [member, done, if_true, if_false, Option.some.injEq] at parked
            rw [← parked]
            obtain ⟨original, originalEq⟩ :=
              Option.isSome_iff_exists.mp (present x member).1
            have erased := (invariant.dependency_nodup x original originalEq).erase hash
            simpa [remaining, originalEq] using erased
        · rw [if_neg member] at parked
          exact invariant.dependency_nodup x left parked
      · intro d blocked parked
        simp only [resolveAll_dependent] at parked
        by_cases same : d = hash
        · subst same
          simp at parked
        · rw [update_of_ne same] at parked
          exact invariant.dependent_nodup d blocked parked
      · intro h d
        simp only [resolveAll_dependent]
        by_cases member : h ∈ dependents
        · rw [getD_resolveAll_dependency _ hash member, remaining_withDependent]
          obtain ⟨original, originalEq⟩ := Option.isSome_iff_exists.mp (present h member).1
          have nodup := invariant.dependency_nodup h original originalEq
          have inverse := invariant.inverse h d
          rw [originalEq, Option.getD_some] at inverse
          rw [remaining, originalEq, Option.getD_some, nodup.mem_erase_iff]
          by_cases same : d = hash
          · simp [same]
          · simp [same, inverse]
        · simp only [resolveAll_dependency, if_neg member]
          by_cases same : d = hash
          · subst same
            rw [invariant.inverse, waiting]
            simp [member]
          · simp [same, invariant.inverse]

/-- What `satisfy` leaves parked was parked before. -/
theorem Invariant.satisfy_blocks (invariant : Invariant buffer) {buffer' : BlockBuffer H T}
    {resolved : List (Block H T)} (result : buffer.satisfy hash = some (buffer', resolved)) {node : H}
    {block : Block H T} (parked : buffer'.blocks node = some block) : buffer.blocks node = some block := by
  cases waiting : buffer.dependent hash with
  | none =>
      simp only [BlockBuffer.satisfy, waiting, Option.some.injEq, Prod.mk.injEq] at result
      rw [← result.1] at parked
      exact parked
  | some dependents =>
      rw [satisfy_eq buffer hash dependents waiting
        (invariant.dependent_nodup hash dependents waiting) (invariant.present waiting),
        Option.some.injEq, Prod.mk.injEq] at result
      rw [← result.1, resolveAll_blocks] at parked
      split at parked
      · cases parked
      · exact parked

/-- A block that `satisfy` releases was parked under its hash, and is parked
no more. -/
theorem Invariant.satisfy_released (invariant : Invariant buffer) {buffer' : BlockBuffer H T}
    {resolved : List (Block H T)} (result : buffer.satisfy hash = some (buffer', resolved)) {block : Block H T}
    (member : block ∈ resolved) : buffer.blocks block.hash = some block ∧ buffer'.blocks block.hash = none := by
  cases waiting : buffer.dependent hash with
  | none =>
      simp only [BlockBuffer.satisfy, waiting, Option.some.injEq, Prod.mk.injEq] at result
      rw [← result.2] at member
      cases member
  | some dependents =>
      rw [satisfy_eq buffer hash dependents waiting
        (invariant.dependent_nodup hash dependents waiting) (invariant.present waiting),
        Option.some.injEq, Prod.mk.injEq] at result
      rw [← result.2, released, List.mem_filterMap] at member
      obtain ⟨node, listed, found⟩ := member
      -- a released block waited for nothing else, and is parked under its own hash
      split at found
      · rename_i done
        have named := invariant.blocks_hash node block found
        subst named
        refine ⟨found, ?_⟩
        rw [← result.1, resolveAll_blocks, remaining_withDependent, if_pos ⟨listed, done⟩]
      · cases found

/-- `satisfy` releases each hash at most once. -/
theorem Invariant.satisfy_nodup (invariant : Invariant buffer) {buffer' : BlockBuffer H T}
    {resolved : List (Block H T)} (result : buffer.satisfy hash = some (buffer', resolved)) :
    (resolved.map Block.hash).Nodup := by
  cases waiting : buffer.dependent hash with
  | none =>
      simp only [BlockBuffer.satisfy, waiting, Option.some.injEq, Prod.mk.injEq] at result
      rw [← result.2]
      exact List.nodup_nil
  | some dependents =>
      have nodup := invariant.dependent_nodup hash dependents waiting
      rw [satisfy_eq buffer hash dependents waiting nodup (invariant.present waiting),
        Option.some.injEq, Prod.mk.injEq] at result
      rw [← result.2, released, List.map_filterMap]
      -- the block released for a dependent has that dependent's hash
      refine nodup.filterMap fun node other hash' found otherFound => ?_
      have named : ∀ {x : H}, hash' ∈ Option.map Block.hash
          (if buffer.remaining hash x = [] then buffer.blocks x else none) → x = hash' := by
        intro x released
        obtain ⟨block, parked, rfl⟩ := Option.map_eq_some_iff.mp released
        split at parked
        · exact (invariant.blocks_hash x block parked).symm
        · cases parked
      exact (named found).trans (named otherFound).symm

end Satisfy

end BlockBuffer

end Network
end Prism
