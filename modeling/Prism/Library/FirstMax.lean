import Mathlib

/-!
# The first heaviest element of a list

A scan that keeps the heaviest element seen so far, with its weight, and
replaces it only by a strictly heavier one.  Over a sorted list it ends at an
element as heavy as any other, and the least of those as heavy
(`foldl_step_of_sorted`).
-/

namespace FirstMax

variable {α : Type} (weight : α → Nat)

/-- One step of the scan: the heaviest element so far with its weight, and
the next element. -/
def step : Option (α × Nat) → α → Option (α × Nat)
  | some (best, most), next => if weight next > most then some (next, weight next) else some (best, most)
  | none, next => some (next, weight next)

variable [LinearOrder α]

/-- From an element no greater than the rest of a sorted list, the scan ends
at an element of the list as heavy as any other, and the least of those as
heavy. -/
theorem foldl_step_from (xs : List α) :
    ∀ first, (first :: xs).Pairwise (· ≤ ·) →
      ∃ best, xs.foldl (step weight) (some (first, weight first)) = some (best, weight best) ∧
        best ∈ first :: xs ∧
        ∀ other ∈ first :: xs, weight other ≤ weight best ∧ (weight other = weight best → best ≤ other) := by
  induction xs with
  | nil =>
      intro first _
      refine ⟨first, rfl, List.mem_singleton_self _, fun other member => ?_⟩
      rw [List.mem_singleton.mp member]
      exact ⟨le_rfl, fun _ => le_rfl⟩
  | cons next rest inductionHypothesis =>
      intro first sorted
      obtain ⟨firstBelow, restSorted⟩ := List.pairwise_cons.mp sorted
      by_cases heavier : weight next > weight first
      · -- the scan goes on from `next`
        obtain ⟨best, scanned, bestIn, bestMax⟩ := inductionHypothesis next restSorted
        refine ⟨best, by rw [List.foldl_cons, step, if_pos heavier]; exact scanned,
          List.mem_cons_of_mem _ bestIn, fun other member => ?_⟩
        rcases List.mem_cons.mp member with rfl | later
        · have := (bestMax next List.mem_cons_self).1
          exact ⟨by omega, fun same => by omega⟩
        · exact bestMax other later
      · -- the scan keeps `first`, which is no greater than what follows `next`
        have keptSorted : (first :: rest).Pairwise (· ≤ ·) :=
          List.pairwise_cons.mpr ⟨fun other member => firstBelow other (List.mem_cons_of_mem _ member),
            (List.pairwise_cons.mp restSorted).2⟩
        obtain ⟨best, scanned, bestIn, bestMax⟩ := inductionHypothesis first keptSorted
        refine ⟨best, by rw [List.foldl_cons, step, if_neg heavier]; exact scanned, ?_, fun other member => ?_⟩
        · rcases List.mem_cons.mp bestIn with rfl | later
          · exact List.mem_cons_self
          · exact List.mem_cons_of_mem _ (List.mem_cons_of_mem _ later)
        rcases List.mem_cons.mp member with rfl | member
        · exact bestMax other List.mem_cons_self
        rcases List.mem_cons.mp member with rfl | later
        · -- `next` weighs no more than `first` and comes after it
          have firstMax := bestMax first List.mem_cons_self
          refine ⟨by omega, fun same => ?_⟩
          exact (firstMax.2 (by omega)).trans (firstBelow other List.mem_cons_self)
        · exact bestMax other (List.mem_cons_of_mem _ later)

/-- Over a sorted list with an element, the scan ends at an element as heavy
as any other, and the least of those as heavy. -/
theorem foldl_step_of_sorted {xs : List α} (sorted : xs.Pairwise (· ≤ ·)) (nonempty : xs ≠ []) :
    ∃ best, xs.foldl (step weight) none = some (best, weight best) ∧ best ∈ xs ∧
      ∀ other ∈ xs, weight other ≤ weight best ∧ (weight other = weight best → best ≤ other) := by
  obtain ⟨first, rest, rfl⟩ := List.exists_cons_of_ne_nil nonempty
  exact foldl_step_from weight rest first sorted

end FirstMax
