import Prism.Block
import Prism.Library.Checked
import Prism.Library.SortedMap
import Prism.Library.OptionFold
import Mathlib.Data.List.AList

/-!
# The memory pool

`miner::memory_pool`: the transactions waiting to be mined, kept twice, by
hash in a hash map and in arrival order in an ordered map from a storage index
that a counter hands out.  Together they implement a first-in first-out queue
of the transactions (`MemoryPool.Invariant`): the ordered map lists the queued
hashes oldest first, the hash map holds the transaction of each, the storage
index of each entry maps back to its hash, and the count is the queue's
length.  The counts are `u64`s, whose overflow panics (`none`).

The capacity guard lets a transaction in while the count is at most
`max_transactions`, so a pool holds up to one more than that
(`MemoryPool.Invariant.bounded`).  Every pool that a run reaches behaves as
its queue (`MemoryPool.Reachable.behaves_as_queue`).
-/

namespace Prism

/-- An entry of the pool (`memory_pool::Entry`). -/
structure Entry (T : Type) where
  /-- The transaction. -/
  transaction : T
  /-- Its place in arrival order. -/
  storageIndex : Nat
  deriving DecidableEq

/-- `memory_pool::MemoryPool`.  The hash map is an association list with
distinct keys, the ordered map a list sorted by key. -/
structure MemoryPool (H T : Type) where
  /-- Number of transactions. -/
  numTransactions : Nat
  /-- Maximum number that the memory pool can hold. -/
  maxTransactions : Nat
  /-- Counter for the storage index. -/
  counter : Nat
  /-- By-hash storage. -/
  byHash : AList (fun _ : H => Entry T)
  /-- Storage by storage index, which is arrival order. -/
  byStorageIndex : SortedMap Nat H

namespace MemoryPool

variable {H T : Type} [DecidableEq H]

/-- `MemoryPool::new`. -/
def new (sizeLimit : Nat) : MemoryPool H T :=
  ⟨0, sizeLimit, 0, ∅, SortedMap.empty⟩

/-- `MemoryPool::insert`: a full pool stays as it is; otherwise the transaction
gets the next storage index and goes into both maps. -/
def insert [Hashable T H] (pool : MemoryPool H T) (tx : T) : Option (MemoryPool H T) :=
  if pool.numTransactions > pool.maxTransactions then some pool
  else do
    let hash : H := Hashable.hash tx
    let entry : Entry T := ⟨tx, pool.counter⟩
    let counter ← Checked.add 64 pool.counter 1
    let numTransactions ← Checked.add 64 pool.numTransactions 1
    some { numTransactions := numTransactions
           maxTransactions := pool.maxTransactions
           counter := counter
           byHash := pool.byHash.insert hash entry
           byStorageIndex := pool.byStorageIndex.insert entry.storageIndex hash }

/-- `MemoryPool::get`. -/
def get (pool : MemoryPool H T) (hash : H) : Option (Entry T) :=
  pool.byHash.lookup hash

/-- `MemoryPool::contains`. -/
def contains (pool : MemoryPool H T) (hash : H) : Bool :=
  decide (hash ∈ pool.byHash)

/-- `MemoryPool::remove_and_get`: the entry of a held hash, taken out of both
maps. -/
def removeAndGet (pool : MemoryPool H T) (hash : H) : Option (Option (Entry T) × MemoryPool H T) :=
  match pool.byHash.lookup hash with
  | none => some (none, pool)
  | some entry => do
      let numTransactions ← Checked.sub pool.numTransactions 1
      some (some entry, { pool with byHash := pool.byHash.erase hash
                                    byStorageIndex := pool.byStorageIndex.erase entry.storageIndex
                                    numTransactions := numTransactions })

/-- `MemoryPool::remove_by_hash`. -/
def removeByHash (pool : MemoryPool H T) (hash : H) : Option (MemoryPool H T) :=
  (pool.removeAndGet hash).map Prod.snd

/-- `MemoryPool::get_transactions`: the first `n` transactions in storage
index order, each looked up by its hash, with an `unwrap`. -/
def getTransactions (pool : MemoryPool H T) (n : Nat) : Option (List T) :=
  (pool.byStorageIndex.values.take n).mapM fun hash => (pool.get hash).map Entry.transaction

/-- `MemoryPool::len`. -/
def len (pool : MemoryPool H T) : Nat :=
  pool.byHash.entries.length

/-- `handler::new_transaction`: a transaction whose hash the pool holds is
left out, any other inserted. -/
def newTransaction [Hashable T H] (pool : MemoryPool H T) (tx : T) : Option (MemoryPool H T) :=
  if pool.contains (Hashable.hash tx) then some pool else pool.insert tx

/-! ## The queue the pool implements -/

/-- An insertion into the queue of `(hash, transaction)`, oldest first, behind
the same guard as `insert`. -/
def fifoInsert [Hashable T H] (sizeLimit : Nat) (queue : List (H × T)) (tx : T) : List (H × T) :=
  if queue.length > sizeLimit then queue else queue ++ [(Hashable.hash tx, tx)]

/-- A removal from the queue: the transaction of the hash leaves it. -/
def fifoRemove (queue : List (H × T)) (hash : H) : List (H × T) :=
  queue.filter (fun entry => entry.1 ≠ hash)

theorem map_fst_fifoRemove (queue : List (H × T)) (hash : H) :
    (fifoRemove queue hash).map Prod.fst = (queue.map Prod.fst).filter (fun other => other ≠ hash) := by
  simp [fifoRemove, List.filter_map, Function.comp_def]

theorem fifoRemove_of_not_mem {queue : List (H × T)} {hash : H} (absent : hash ∉ queue.map Prod.fst) :
    fifoRemove queue hash = queue := by
  refine List.filter_eq_self.mpr fun entry member => ?_
  have : entry.1 ≠ hash := fun same => absent (List.mem_map.mpr ⟨entry, member, same⟩)
  simpa using this

/-- A removal of a hash queued once shortens the queue by one. -/
theorem length_fifoRemove {queue : List (H × T)} {hash : H} (nodup : (queue.map Prod.fst).Nodup)
    (present : hash ∈ queue.map Prod.fst) : (fifoRemove queue hash).length = queue.length - 1 := by
  have erased := nodup.erase_eq_filter hash
  calc (fifoRemove queue hash).length = ((fifoRemove queue hash).map Prod.fst).length := (List.length_map _).symm
    _ = ((queue.map Prod.fst).erase hash).length := by
        rw [map_fst_fifoRemove, erased]
        congr 1
        exact List.filter_congr fun other _ => by by_cases same : other = hash <;> simp [same]
    _ = queue.length - 1 := by rw [List.length_erase_of_mem present, List.length_map]

/-- The pools reachable from `MemoryPool::new` by insertions of transactions
whose hash the pool does not hold (`new_transaction` checks it) and by
removals, each with the queue of the same operations. -/
inductive Reachable [Hashable T H] (sizeLimit : Nat) : MemoryPool H T → List (H × T) → Prop
  | new : Reachable sizeLimit (MemoryPool.new sizeLimit) []
  | insert {pool next : MemoryPool H T} {queue : List (H × T)} {tx : T} (reach : Reachable sizeLimit pool queue)
      (fresh : (Hashable.hash tx : H) ∉ pool.byHash) (inserted : pool.insert tx = some next) :
      Reachable sizeLimit next (fifoInsert sizeLimit queue tx)
  | removeByHash {pool next : MemoryPool H T} {queue : List (H × T)} {hash : H}
      (reach : Reachable sizeLimit pool queue) (removed : pool.removeByHash hash = some next) :
      Reachable sizeLimit next (fifoRemove queue hash)

/-- How the two maps, the counter and the count implement the queue. -/
structure Invariant (sizeLimit : Nat) (pool : MemoryPool H T) (queue : List (H × T)) : Prop where
  /-- The limit is the one `new` set. -/
  limit : pool.maxTransactions = sizeLimit
  /-- Each hash is queued once. -/
  nodup : (queue.map Prod.fst).Nodup
  /-- The ordered map lists the queued hashes, oldest first. -/
  values : pool.byStorageIndex.values = queue.map Prod.fst
  /-- The hash map holds the transaction of each queued hash, and nothing else. -/
  lookup : ∀ hash tx, (hash, tx) ∈ queue ↔ ∃ entry, pool.byHash.lookup hash = some entry ∧ entry.transaction = tx
  /-- The storage index of an entry maps back to its hash. -/
  indexed : ∀ hash entry, pool.byHash.lookup hash = some entry → (entry.storageIndex, hash) ∈ pool.byStorageIndex.entries
  /-- Storage indices are below the counter. -/
  below : ∀ index hash, (index, hash) ∈ pool.byStorageIndex.entries → index < pool.counter
  /-- The count is the length of the queue. -/
  count : pool.numTransactions = queue.length
  /-- The guard lets the count reach one past the limit. -/
  bounded : pool.numTransactions ≤ sizeLimit + 1

/-! ## One operation -/

/-- What `insert` did: nothing on a full pool, or the transaction stored under
the counter, which moved on. -/
theorem insert_eq_some [Hashable T H] {pool next : MemoryPool H T} {tx : T} (inserted : pool.insert tx = some next) :
    (pool.maxTransactions < pool.numTransactions ∧ next = pool) ∨
      (pool.numTransactions ≤ pool.maxTransactions ∧
        next = ⟨pool.numTransactions + 1, pool.maxTransactions, pool.counter + 1,
          pool.byHash.insert (Hashable.hash tx) ⟨tx, pool.counter⟩,
          pool.byStorageIndex.insert pool.counter (Hashable.hash tx)⟩) := by
  unfold insert at inserted
  split_ifs at inserted with full
  · exact .inl ⟨full, (Option.some.inj inserted).symm⟩
  · simp only [Option.bind_eq_bind, Option.bind_eq_some_iff] at inserted
    obtain ⟨counter, counted, numTransactions, added, stored⟩ := inserted
    obtain ⟨-, rfl⟩ := Checked.add_eq_some counted
    obtain ⟨-, rfl⟩ := Checked.add_eq_some added
    exact .inr ⟨Nat.not_lt.mp full, (Option.some.inj stored).symm⟩

/-- What `remove_by_hash` did: nothing for a hash the pool does not hold, or
the entry taken out of both maps and the count lowered. -/
theorem removeByHash_eq_some {pool next : MemoryPool H T} {hash : H} (removed : pool.removeByHash hash = some next) :
    (pool.byHash.lookup hash = none ∧ next = pool) ∨
      ∃ entry, pool.byHash.lookup hash = some entry ∧ 1 ≤ pool.numTransactions ∧
        next = ⟨pool.numTransactions - 1, pool.maxTransactions, pool.counter, pool.byHash.erase hash,
          pool.byStorageIndex.erase entry.storageIndex⟩ := by
  unfold removeByHash removeAndGet at removed
  cases looked : pool.byHash.lookup hash with
  | none =>
      rw [looked] at removed
      exact .inl ⟨rfl, (Option.some.inj removed).symm⟩
  | some entry =>
      rw [looked] at removed
      simp only [Option.bind_eq_bind, Option.map_bind, Option.bind_eq_some_iff, Function.comp_apply,
        Option.map_some, Option.some.injEq] at removed
      obtain ⟨numTransactions, subtracted, rfl⟩ := removed
      unfold Checked.sub at subtracted
      split_ifs at subtracted with enough
      cases subtracted
      exact .inr ⟨entry, rfl, enough, rfl⟩

section Invariant

variable {sizeLimit : Nat} {pool next : MemoryPool H T} {queue : List (H × T)}

theorem invariant_new (sizeLimit : Nat) : Invariant sizeLimit (new sizeLimit : MemoryPool H T) [] where
  limit := rfl
  nodup := List.nodup_nil
  values := rfl
  lookup hash tx := by simp [new, AList.lookup_empty]
  indexed hash entry looked := by simp [new, AList.lookup_empty] at looked
  below index hash member := by simp [new] at member
  count := rfl
  bounded := Nat.zero_le _

/-- A queued hash has its entry in the hash map. -/
theorem Invariant.mem_byHash (invariant : Invariant sizeLimit pool queue) {hash : H}
    (queued : hash ∈ queue.map Prod.fst) : hash ∈ pool.byHash := by
  obtain ⟨⟨_, tx⟩, member, rfl⟩ := List.mem_map.mp queued
  obtain ⟨entry, looked, -⟩ := (invariant.lookup _ tx).mp member
  exact AList.lookup_isSome.mp (by simp [looked])

/-- An insertion of a transaction whose hash the pool does not hold keeps the
invariant, with the transaction queued last unless the pool is full. -/
theorem Invariant.insert [Hashable T H] (invariant : Invariant sizeLimit pool queue) {tx : T}
    (fresh : (Hashable.hash tx : H) ∉ pool.byHash) (inserted : pool.insert tx = some next) :
    Invariant sizeLimit next (fifoInsert sizeLimit queue tx) := by
  have count := invariant.count
  have limit := invariant.limit
  rcases insert_eq_some inserted with ⟨full, rfl⟩ | ⟨room, rfl⟩
  · -- a full pool and a full queue both stay as they are
    rwa [fifoInsert, if_pos (by omega)]
  rw [fifoInsert, if_neg (by omega)]
  have unqueued : (Hashable.hash tx : H) ∉ queue.map Prod.fst := fun queued => fresh (invariant.mem_byHash queued)
  -- the counter is past every storage index, so the new one goes last
  have appended : (pool.byStorageIndex.insert pool.counter (Hashable.hash tx)).entries =
      pool.byStorageIndex.entries ++ [(pool.counter, Hashable.hash tx)] :=
    SortedMap.entries_insert_of_lt fun entry member => invariant.below entry.1 entry.2 member
  refine ⟨limit, ?_, ?_, fun hash tx' => ?_, fun hash entry looked => ?_, fun index hash member => ?_, ?_, ?_⟩
  · rw [List.map_append, List.nodup_append]
    refine ⟨invariant.nodup, by simp, fun hash queued other added => ?_⟩
    simp only [List.map_singleton, List.mem_singleton] at added
    rintro rfl
    exact unqueued (added ▸ queued)
  · simp [SortedMap.values, appended, ← invariant.values]
  · by_cases same : hash = Hashable.hash tx
    · subst same
      have notQueued : ∀ tx'', (Hashable.hash tx, tx'') ∉ queue := fun tx'' member =>
        unqueued (List.mem_map.mpr ⟨_, member, rfl⟩)
      simp [AList.lookup_insert, notQueued, eq_comm]
    · simp [AList.lookup_insert_ne same, same, invariant.lookup]
  · by_cases same : hash = Hashable.hash tx
    · subst same
      rw [AList.lookup_insert] at looked
      cases looked
      simp [appended]
    · rw [AList.lookup_insert_ne same] at looked
      rw [appended]
      exact List.mem_append_left _ (invariant.indexed hash entry looked)
  · rw [appended, List.mem_append] at member
    rcases member with member | member
    · exact (invariant.below index hash member).trans (Nat.lt_succ_self _)
    · simp only [List.mem_singleton, Prod.mk.injEq] at member
      dsimp only
      omega
  · simp [count]
  · dsimp only
    omega

/-- A removal keeps the invariant, with the transaction of the hash out of
the queue. -/
theorem Invariant.removeByHash (invariant : Invariant sizeLimit pool queue) {hash : H}
    (removed : pool.removeByHash hash = some next) : Invariant sizeLimit next (fifoRemove queue hash) := by
  rcases removeByHash_eq_some removed with ⟨absent, rfl⟩ | ⟨entry, looked, positive, rfl⟩
  · -- a hash the pool does not hold is not queued either
    have unqueued : hash ∉ queue.map Prod.fst := fun queued => by
      have := AList.lookup_isSome.mpr (invariant.mem_byHash queued)
      simp [absent] at this
    rwa [fifoRemove_of_not_mem unqueued]
  have queued : (hash, entry.transaction) ∈ queue := (invariant.lookup _ _).mpr ⟨entry, looked, rfl⟩
  have held := invariant.indexed hash entry looked
  refine ⟨invariant.limit, ?_, ?_, fun other tx => ?_, fun other otherEntry otherLooked => ?_,
    fun index other member => ?_, ?_, ?_⟩
  · rw [map_fst_fifoRemove]
    exact invariant.nodup.sublist List.filter_sublist
  · rw [map_fst_fifoRemove, ← invariant.values]
    exact SortedMap.values_erase held (invariant.values ▸ invariant.nodup)
  · by_cases same : other = hash
    · subst same
      simp [fifoRemove, AList.lookup_erase]
    · simp [fifoRemove, AList.lookup_erase_ne same, same, invariant.lookup]
  · -- another entry keeps its storage index, which differs from the removed one
    have different : other ≠ hash := by
      rintro rfl
      simp [AList.lookup_erase] at otherLooked
    rw [AList.lookup_erase_ne different] at otherLooked
    have otherHeld := invariant.indexed other otherEntry otherLooked
    refine SortedMap.mem_erase.mpr ⟨otherHeld, fun sameIndex => different ?_⟩
    exact congrArg Prod.snd (SortedMap.eq_of_key_eq otherHeld held sameIndex)
  · exact invariant.below index other (SortedMap.mem_erase.mp member).1
  · rw [length_fifoRemove invariant.nodup (List.mem_map.mpr ⟨_, queued, rfl⟩), ← invariant.count]
  · have := invariant.bounded
    dsimp only
    omega

/-- Every reachable pool implements its queue. -/
theorem Reachable.invariant [Hashable T H] (reach : Reachable sizeLimit pool queue) : Invariant sizeLimit pool queue := by
  induction reach with
  | new => exact invariant_new sizeLimit
  | insert _ fresh inserted inductionHypothesis => exact inductionHypothesis.insert fresh inserted
  | removeByHash _ removed inductionHypothesis => exact inductionHypothesis.removeByHash removed

/-! ## What the invariant gives -/

/-- Each entry of the ordered map is the storage index of the entry of its
hash: with `indexed`, the two maps are in bijection. -/
theorem Invariant.lookup_of_mem (invariant : Invariant sizeLimit pool queue) {index : Nat} {hash : H}
    (member : (index, hash) ∈ pool.byStorageIndex.entries) :
    ∃ entry, pool.byHash.lookup hash = some entry ∧ entry.storageIndex = index := by
  have queued : hash ∈ queue.map Prod.fst := by
    rw [← invariant.values]
    exact List.mem_map.mpr ⟨_, member, rfl⟩
  obtain ⟨⟨_, tx⟩, queuedPair, rfl⟩ := List.mem_map.mp queued
  obtain ⟨entry, looked, -⟩ := (invariant.lookup _ tx).mp queuedPair
  refine ⟨entry, looked, ?_⟩
  -- the ordered map holds each hash once
  have unique : (pool.byStorageIndex.entries.map Prod.snd).Nodup := by
    show pool.byStorageIndex.values.Nodup
    rw [invariant.values]
    exact invariant.nodup
  exact congrArg Prod.fst (List.inj_on_of_nodup_map unique (invariant.indexed _ entry looked) member rfl)

/-- Distinct entries have distinct storage indices. -/
theorem Invariant.storageIndex_injective (invariant : Invariant sizeLimit pool queue) {hash other : H}
    {entry otherEntry : Entry T} (looked : pool.byHash.lookup hash = some entry)
    (otherLooked : pool.byHash.lookup other = some otherEntry) (sameIndex : entry.storageIndex = otherEntry.storageIndex) :
    hash = other :=
  congrArg Prod.snd (SortedMap.eq_of_key_eq (invariant.indexed hash entry looked)
    (invariant.indexed other otherEntry otherLooked) sameIndex)

/-- Every storage index is below the counter. -/
theorem Invariant.storageIndex_lt (invariant : Invariant sizeLimit pool queue) {hash : H} {entry : Entry T}
    (looked : pool.byHash.lookup hash = some entry) : entry.storageIndex < pool.counter :=
  invariant.below _ hash (invariant.indexed hash entry looked)

/-- The hash map holds exactly the queued hashes. -/
theorem Invariant.mem_byHash_iff (invariant : Invariant sizeLimit pool queue) {hash : H} :
    hash ∈ pool.byHash ↔ hash ∈ queue.map Prod.fst := by
  refine ⟨fun held => ?_, invariant.mem_byHash⟩
  obtain ⟨entry, looked⟩ := Option.isSome_iff_exists.mp (AList.lookup_isSome.mpr held)
  exact List.mem_map.mpr ⟨_, (invariant.lookup hash entry.transaction).mpr ⟨entry, looked, rfl⟩, rfl⟩

/-- The count is the size of the hash map. -/
theorem Invariant.numTransactions_eq_len (invariant : Invariant sizeLimit pool queue) :
    pool.numTransactions = pool.len := by
  have same : pool.byHash.keys.Perm (queue.map Prod.fst) :=
    (List.perm_ext_iff_of_nodup pool.byHash.keys_nodup invariant.nodup).mpr fun hash => by
      rw [← AList.mem_keys, invariant.mem_byHash_iff]
  have sameLength := same.length_eq
  simp only [AList.keys, List.keys, List.length_map] at sameLength
  rw [invariant.count, len, sameLength]

/-- `get_transactions` never panics, and returns the oldest `n` queued
transactions, oldest first. -/
theorem Invariant.getTransactions_eq (invariant : Invariant sizeLimit pool queue) (n : Nat) :
    pool.getTransactions n = some ((queue.take n).map Prod.snd) := by
  unfold getTransactions
  rw [invariant.values, ← List.map_take]
  refine List.mapM_option_map_eq_some Prod.fst Prod.snd _ fun queued member => ?_
  obtain ⟨entry, looked, transaction⟩ :=
    (invariant.lookup queued.1 queued.2).mp (List.mem_of_mem_take member)
  simp [get, looked, transaction]

/-- `remove_by_hash` never panics. -/
theorem Invariant.removeByHash_isSome (invariant : Invariant sizeLimit pool queue) (hash : H) :
    (pool.removeByHash hash).isSome := by
  unfold MemoryPool.removeByHash removeAndGet
  cases looked : pool.byHash.lookup hash with
  | none => rfl
  | some entry =>
      -- the hash is queued, so the count is positive
      have queued := (invariant.lookup hash entry.transaction).mpr ⟨entry, looked, rfl⟩
      have positive : 1 ≤ pool.numTransactions := by
        rw [invariant.count]
        exact List.length_pos_of_mem queued
      simp [Checked.sub_of_le positive]

/-- Every pool that a run reaches behaves as its queue: each hash is queued
once, `get_transactions` never panics and returns the oldest `n` queued
transactions, oldest first, `contains` holds exactly the queued hashes,
`num_transactions` and `len` both count the queue, which the guard lets grow
to one past the limit, and `remove_by_hash` never panics. -/
theorem Reachable.behaves_as_queue [Hashable T H] (reach : Reachable sizeLimit pool queue) :
    (queue.map Prod.fst).Nodup ∧
      (∀ n, pool.getTransactions n = some ((queue.take n).map Prod.snd)) ∧
      (∀ hash, pool.contains hash = true ↔ hash ∈ queue.map Prod.fst) ∧
      pool.numTransactions = queue.length ∧ pool.len = queue.length ∧ queue.length ≤ sizeLimit + 1 ∧
      ∀ hash, (pool.removeByHash hash).isSome := by
  have invariant := reach.invariant
  have counted := invariant.count
  refine ⟨invariant.nodup, invariant.getTransactions_eq, fun hash => ?_, counted, ?_, ?_,
    invariant.removeByHash_isSome⟩
  · rw [contains, decide_eq_true_iff]
    exact invariant.mem_byHash_iff
  · rw [← invariant.numTransactions_eq_len, counted]
  · rw [← counted]
    exact invariant.bounded

namespace IdHash

/-- For concrete runs, a transaction is its own hash. -/
scoped instance transactions : Hashable Nat Nat := ⟨id⟩

end IdHash

open IdHash in
/-- Three transactions into a pool of limit two, and the middle one removed. -/
theorem behaves_as_queue_removed : ∃ pool : MemoryPool Nat Nat,
    Reachable 2 pool [(5, 5), (9, 9)] ∧ ([(5, 5), (9, 9)].map Prod.fst).Nodup ∧
      (∀ n, pool.getTransactions n = some (([(5, 5), (9, 9)].take n).map Prod.snd)) ∧
      (∀ hash, pool.contains hash = true ↔ hash ∈ [(5, 5), (9, 9)].map Prod.fst) ∧
      pool.numTransactions = [(5, 5), (9, 9)].length ∧ pool.len = [(5, 5), (9, 9)].length ∧
      [(5, 5), (9, 9)].length ≤ 2 + 1 ∧ ∀ hash, (pool.removeByHash hash).isSome := by
  have five : Reachable 2 (_ : MemoryPool Nat Nat) (fifoInsert 2 [] (5 : Nat)) := .insert .new (by decide) rfl
  have seven : Reachable 2 _ (fifoInsert 2 (fifoInsert 2 [] 5) 7) := .insert five (by decide) rfl
  have nine : Reachable 2 _ (fifoInsert 2 (fifoInsert 2 (fifoInsert 2 [] 5) 7) 9) := .insert seven (by decide) rfl
  have removed : Reachable 2 _ (fifoRemove (fifoInsert 2 (fifoInsert 2 (fifoInsert 2 [] 5) 7) 9) 7) :=
    .removeByHash nine rfl
  exact ⟨_, removed, Reachable.behaves_as_queue removed⟩

end Invariant

/-- At its limit a pool still takes a transaction, one past the limit. -/
theorem insert_past_limit [Hashable T H] {pool : MemoryPool H T} {tx : T} (atLimit : pool.numTransactions = pool.maxTransactions)
    (counterFits : pool.counter + 1 < 2 ^ 64) (countFits : pool.numTransactions + 1 < 2 ^ 64) :
    ∃ next, pool.insert tx = some next ∧ next.numTransactions = pool.maxTransactions + 1 := by
  have room : ¬pool.numTransactions > pool.maxTransactions := by omega
  simp only [insert, if_neg room, Checked.add_of_lt counterFits, Checked.add_of_lt countFits, Option.bind_eq_bind,
    Option.bind_some]
  exact ⟨_, rfl, by rw [atLimit]⟩

/-- A pool made with a limit of zero takes a transaction, and holds more
than its limit. -/
theorem memoryPool_exceeds_max [Hashable T H] (tx : T) :
    ∃ pool : MemoryPool H T, Reachable 0 pool [(Hashable.hash tx, tx)] ∧
      pool.maxTransactions = 0 ∧ pool.numTransactions = 1 :=
  ⟨_, Reachable.insert Reachable.new (AList.notMem_empty _) rfl, rfl, rfl⟩

end MemoryPool

end Prism
