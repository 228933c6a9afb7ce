import Mathlib.Algebra.BigOperators.Group.Finset.Basic

/-!
# Sorted maps

A finite map whose entries are kept in strictly increasing order of key: the
model of an ordered map such as a B-tree map.  Its values come out in key
order, inserting past the largest key appends, and erasing a key whose value
is held nowhere else erases that value.  A map to `Unit` is an ordered set,
such as a B-tree set, and its keys come out in increasing order.
-/

/-- A map from `K` to `V` with its entries in strictly increasing key order. -/
structure SortedMap (K V : Type) [LinearOrder K] where
  /-- The entries, by increasing key. -/
  entries : List (K × V)
  /-- Keys strictly increase along the entries. -/
  sorted : entries.Pairwise (fun a b => a.1 < b.1)

namespace SortedMap

variable {K V : Type} [LinearOrder K]

/-- The empty map. -/
def empty : SortedMap K V := ⟨[], .nil⟩

/-- Insert into entries sorted by key, in place of an entry of the same key. -/
def insertEntry (key : K) (value : V) : List (K × V) → List (K × V)
  | [] => [(key, value)]
  | entry :: rest =>
      if key < entry.1 then (key, value) :: entry :: rest
      else if key = entry.1 then (key, value) :: rest
      else entry :: insertEntry key value rest

/-- The keys after an insertion are the new key and keys from before. -/
theorem key_of_mem_insertEntry {key : K} {value : V} :
    ∀ {entries : List (K × V)} {entry : K × V}, entry ∈ insertEntry key value entries →
      entry.1 = key ∨ ∃ old ∈ entries, entry.1 = old.1
  | [], _, member => .inl (by simp_all [insertEntry])
  | first :: rest, entry, member => by
      unfold insertEntry at member
      split_ifs at member with before same
      · rcases List.mem_cons.mp member with rfl | member
        · exact .inl rfl
        · exact .inr ⟨entry, member, rfl⟩
      · rcases List.mem_cons.mp member with rfl | member
        · exact .inl rfl
        · exact .inr ⟨entry, List.mem_cons_of_mem _ member, rfl⟩
      · rcases List.mem_cons.mp member with rfl | member
        · exact .inr ⟨entry, List.mem_cons_self, rfl⟩
        · rcases key_of_mem_insertEntry member with fresh | ⟨old, oldMem, oldKey⟩
          · exact .inl fresh
          · exact .inr ⟨old, List.mem_cons_of_mem _ oldMem, oldKey⟩

/-- Insertion keeps the keys strictly increasing. -/
theorem pairwise_insertEntry (key : K) (value : V) :
    ∀ {entries : List (K × V)}, entries.Pairwise (fun a b => a.1 < b.1) →
      (insertEntry key value entries).Pairwise (fun a b => a.1 < b.1)
  | [], _ => by simp [insertEntry]
  | first :: rest, sorted => by
      obtain ⟨firstBelow, restSorted⟩ := List.pairwise_cons.mp sorted
      unfold insertEntry
      split_ifs with before same
      · exact List.Pairwise.cons (fun entry member => by
          rcases List.mem_cons.mp member with rfl | member
          · exact before
          · exact before.trans (firstBelow entry member)) sorted
      · exact List.Pairwise.cons (fun entry member => same ▸ firstBelow entry member) restSorted
      · -- the new key comes after `first`, so `first` stays in front
        refine List.Pairwise.cons (fun entry member => ?_) (pairwise_insertEntry key value restSorted)
        rcases key_of_mem_insertEntry member with fresh | ⟨old, oldMem, oldKey⟩
        · rw [fresh]
          exact lt_of_le_of_ne (not_lt.mp before) (Ne.symm same)
        · rw [oldKey]
          exact firstBelow old oldMem

/-- `insert`: the value of a key, set. -/
def insert (map : SortedMap K V) (key : K) (value : V) : SortedMap K V :=
  ⟨insertEntry key value map.entries, pairwise_insertEntry key value map.sorted⟩

/-- `remove`: the entry of a key, dropped. -/
def erase (map : SortedMap K V) (key : K) : SortedMap K V :=
  ⟨map.entries.filter (fun entry => entry.1 ≠ key), map.sorted.filter _⟩

/-- `values`: the values by increasing key. -/
def values (map : SortedMap K V) : List V :=
  map.entries.map Prod.snd

/-- The keys, in increasing order: the iteration of an ordered set. -/
def keys (map : SortedMap K V) : List K :=
  map.entries.map Prod.fst

@[simp] theorem entries_empty : (empty : SortedMap K V).entries = [] := rfl

@[simp] theorem values_empty : (empty : SortedMap K V).values = [] := rfl

@[simp] theorem keys_empty : (empty : SortedMap K V).keys = [] := rfl

/-- The keys after an insertion are the new key and the keys from before. -/
theorem mem_map_fst_insertEntry {key other : K} {value : V} :
    ∀ {entries : List (K × V)}, other ∈ (insertEntry key value entries).map Prod.fst ↔
      other = key ∨ other ∈ entries.map Prod.fst
  | [] => by simp [insertEntry]
  | first :: rest => by
      unfold insertEntry
      split_ifs with before same
      · simp
      · simp [same]
      · simp only [List.map_cons, List.mem_cons, mem_map_fst_insertEntry]
        tauto

@[simp] theorem mem_keys_insert {map : SortedMap K V} {key other : K} {value : V} :
    other ∈ (map.insert key value).keys ↔ other = key ∨ other ∈ map.keys :=
  mem_map_fst_insertEntry

/-- Inserting past every key appends. -/
theorem insertEntry_of_lt {key : K} {value : V} :
    ∀ {entries : List (K × V)}, (∀ entry ∈ entries, entry.1 < key) →
      insertEntry key value entries = entries ++ [(key, value)]
  | [], _ => rfl
  | first :: rest, above => by
      have firstBelow := above first List.mem_cons_self
      rw [insertEntry, if_neg (not_lt.mpr firstBelow.le), if_neg (ne_of_gt firstBelow),
        insertEntry_of_lt (fun entry member => above entry (List.mem_cons_of_mem _ member)), List.cons_append]

theorem entries_insert_of_lt {map : SortedMap K V} {key : K} {value : V}
    (above : ∀ entry ∈ map.entries, entry.1 < key) :
    (map.insert key value).entries = map.entries ++ [(key, value)] :=
  insertEntry_of_lt above

@[simp] theorem mem_erase {map : SortedMap K V} {key : K} {entry : K × V} :
    entry ∈ (map.erase key).entries ↔ entry ∈ map.entries ∧ entry.1 ≠ key := by
  simp [erase]

/-- A key has one entry. -/
theorem eq_of_key_eq {map : SortedMap K V} {entry other : K × V} (entryMem : entry ∈ map.entries)
    (otherMem : other ∈ map.entries) (sameKey : entry.1 = other.1) : entry = other := by
  have keysNodup : (map.entries.map Prod.fst).Nodup :=
    (List.pairwise_map.mpr map.sorted).imp (fun below => ne_of_lt below)
  exact List.inj_on_of_nodup_map keysNodup entryMem otherMem sameKey

/-- Erasing the key of a value held nowhere else erases that value. -/
theorem values_erase [DecidableEq V] {map : SortedMap K V} {key : K} {value : V}
    (held : (key, value) ∈ map.entries) (unique : map.values.Nodup) :
    (map.erase key).values = map.values.filter (fun other => other ≠ value) := by
  simp only [values, erase, List.filter_map]
  congr 1
  apply List.filter_congr
  intro entry member
  -- an entry has the key exactly when it has the value
  have sameKey : entry.1 = key ↔ entry.2 = value := by
    constructor
    · intro keyEq
      rw [eq_of_key_eq member held keyEq]
    · intro valueEq
      rw [List.inj_on_of_nodup_map unique member held valueEq]
  simp [sameKey]

end SortedMap
