import Mathlib.Data.List.Perm.Basic
import Mathlib.Data.List.Nodup

/-!
# Vectors used as sets

Two idioms for keeping a vector free of duplicates: push an element only when
the vector does not contain it yet, and find an element's position and
`swap_remove` it.  `swap_remove` breaks the order of the vector, so its
result is described up to permutation: it is the vector with that one position
erased.
-/

namespace List

variable {α : Type}

/-- `if !vec.contains(&x) { vec.push(x) }`. -/
def pushIfAbsent [DecidableEq α] (l : List α) (x : α) : List α :=
  if x ∈ l then l else l ++ [x]

/-- `Vec::swap_remove`: the element at `index` is removed and the last element
takes its place.  An index out of range panics. -/
def swapRemove (l : List α) (index : Nat) : Option (List α) :=
  match l.getLast? with
  | none => none
  | some last => if index < l.length then some ((l.set index last).dropLast) else none

section PushIfAbsent

variable [DecidableEq α]

@[simp] theorem mem_pushIfAbsent {l : List α} {x y : α} :
    y ∈ l.pushIfAbsent x ↔ y ∈ l ∨ y = x := by
  unfold pushIfAbsent
  split_ifs with member
  · constructor
    · exact .inl
    · rintro (inList | rfl)
      · exact inList
      · exact member
  · simp

theorem Nodup.pushIfAbsent {l : List α} (distinct : l.Nodup) (x : α) :
    (l.pushIfAbsent x).Nodup := by
  unfold List.pushIfAbsent
  split_ifs with member
  · exact distinct
  · exact distinct.append (nodup_singleton x) (by simpa using member)

theorem pushIfAbsent_of_mem {l : List α} {x : α} (member : x ∈ l) : l.pushIfAbsent x = l := by
  simp [pushIfAbsent, member]

end PushIfAbsent

/-- `swap_remove` at an index in range is the erasure of that index, up to
the order of the rest. -/
theorem swapRemove_perm_eraseIdx {l result : List α} {index : Nat}
    (removed : l.swapRemove index = some result) : result.Perm (l.eraseIdx index) := by
  unfold swapRemove at removed
  cases lastEq : l.getLast? with
  | none => simp [lastEq] at removed
  | some last =>
      simp only [lastEq] at removed
      split_ifs at removed with inRange
      cases removed
      have split : l = l.dropLast ++ [last] := (List.dropLast_append_getLast? last lastEq).symm
      rw [split] at inRange ⊢
      rw [List.length_append, List.length_singleton] at inRange
      rcases Nat.lt_succ_iff_lt_or_eq.mp inRange with inside | atLast
      · rw [List.set_append_left _ _ inside, List.dropLast_concat,
          List.eraseIdx_append_of_lt_length inside, List.set_eq_take_append_cons_drop,
          if_pos inside, List.eraseIdx_eq_take_drop_succ]
        exact List.perm_middle.trans (List.perm_append_singleton _ _).symm
      · subst atLast
        rw [List.set_append_right _ _ (Nat.le_refl _), Nat.sub_self, List.set_cons_zero,
          List.dropLast_concat, List.eraseIdx_append_of_length_le (Nat.le_refl _)]
        simp

theorem swapRemove_isSome {l : List α} {index : Nat} (inRange : index < l.length) :
    (l.swapRemove index).isSome := by
  unfold swapRemove
  cases lastEq : l.getLast? with
  | none =>
      rw [List.getLast?_eq_none_iff] at lastEq
      simp [lastEq] at inRange
  | some last => simp [inRange]

section Position

variable [BEq α] [LawfulBEq α]

/-- The position search `iter().position(|x| x == a)` finds `a` at its first index. -/
theorem findIdx?_beq_eq_some_idxOf {l : List α} {a : α} (member : a ∈ l) :
    l.findIdx? (· == a) = some (l.idxOf a) :=
  List.findIdx?_eq_some_iff_findIdx_eq.mpr ⟨List.idxOf_lt_length_iff.mpr member, rfl⟩

theorem findIdx?_beq_eq_none {l : List α} {a : α} (absent : a ∉ l) :
    l.findIdx? (· == a) = none := by
  rw [List.findIdx?_eq_none_iff]
  intro x member
  rw [beq_eq_false_iff_ne]
  rintro rfl
  exact absent member

/-- Removing an element of a duplicate-free vector by its position leaves the
other elements, still without duplicates. -/
theorem swapRemove_idxOf {l : List α} {a : α} (distinct : l.Nodup) (member : a ∈ l) :
    ∃ result, l.swapRemove (l.idxOf a) = some result ∧ result.Nodup ∧
      ∀ x, x ∈ result ↔ x ∈ l ∧ x ≠ a := by
  obtain ⟨result, removed⟩ := Option.isSome_iff_exists.mp
    (swapRemove_isSome (List.idxOf_lt_length_iff.mpr member))
  have perm : result.Perm (l.erase a) :=
    (swapRemove_perm_eraseIdx removed).trans (by rw [List.erase_eq_eraseIdx_of_idxOf rfl])
  refine ⟨result, removed, perm.nodup_iff.mpr (distinct.erase a), fun x => ?_⟩
  rw [perm.mem_iff, distinct.mem_erase_iff]
  exact and_comm

end Position

end List
