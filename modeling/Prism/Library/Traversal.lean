import Mathlib.Data.Multiset.DershowitzManna
import Mathlib.Data.Finset.Basic

/-!
# Depth-first traversal without a visited set

A stack-driven depth-first traversal that skips dead nodes but keeps no set of
visited nodes: a node reachable along several paths is emitted once for each
path.  The emitted order has one property that does not depend on the
duplicates: after every copy of a node come all of its live successors.

`filterRemove` is the filter that keeps an element of a list only while it is
still in a set, taking it out of the set as it is kept.  On a list whose
elements all start in the set it keeps the first copy of each element, in the
order of first copies.

The stack is a list with its top at the head.
-/

namespace Traversal

variable {α : Type}

section Run

variable (live : α → Bool) (succ : α → Option (List α))

/-- The loop
`while let Some(top) = stack.pop() { if !live(top) { continue }; order.push(top);`
`for next in succ(top) { stack.push(next) } }`, run for at most `fuel`
iterations.  `none` means the fuel ran out or `succ` failed on a live node. -/
def run : Nat → List α → List α → Option (List α)
  | _, [], order => some order
  | 0, _ :: _, _ => none
  | fuel + 1, top :: stack, order =>
      if live top then
        match succ top with
        | none => none
        | some next => run fuel (next.reverse ++ stack) (order ++ [top])
      else run fuel stack order

@[simp] theorem run_nil (fuel : Nat) (order : List α) :
    run live succ fuel [] order = some order := by
  cases fuel <;> rfl

theorem run_live {fuel : Nat} {top : α} {stack order next : List α}
    (alive : live top = true) (successors : succ top = some next) :
    run live succ (fuel + 1) (top :: stack) order =
      run live succ fuel (next.reverse ++ stack) (order ++ [top]) := by
  simp [run, alive, successors]

theorem run_dead {fuel : Nat} {top : α} {stack order : List α}
    (dead : live top = false) :
    run live succ (fuel + 1) (top :: stack) order = run live succ fuel stack order := by
  simp [run, dead]

/-- `y` is reachable from `x` along successors of live nodes. -/
inductive Reaches : α → α → Prop
  | refl (x : α) : Reaches x x
  | step {x y z : α} {next : List α} : live x = true → succ x = some next → y ∈ next →
      Reaches y z → Reaches x z

/-- After every copy of a node in `order` come all of its live successors. -/
def ChildrenAfter (order : List α) : Prop :=
  ∀ front x back, order = front ++ x :: back →
    ∀ next, succ x = some next → ∀ child ∈ next, live child = true → child ∈ back

/-- The loop invariant behind `ChildrenAfter`: a live successor of a copy in
`order` comes later in `order` or is still on the stack. -/
def ChildrenPending (order stack : List α) : Prop :=
  ∀ front x back, order = front ++ x :: back →
    ∀ next, succ x = some next → ∀ child ∈ next, live child = true →
      child ∈ back ∨ child ∈ stack

end Run

/-- A split of a list with one more element at its end. -/
theorem split_append_singleton {order front back : List α} {x top : α}
    (split : order ++ [top] = front ++ x :: back) :
    (front = order ∧ x = top ∧ back = []) ∨
      ∃ middle, order = front ++ x :: middle ∧ back = middle ++ [top] := by
  induction back using List.reverseRecOn with
  | nil =>
      obtain ⟨sameFront, sameLast⟩ := List.append_inj' split rfl
      exact .inl ⟨sameFront.symm, by simpa using sameLast.symm, rfl⟩
  | append_singleton middle last _ =>
      have split' : order ++ [top] = (front ++ x :: middle) ++ [last] := by simpa using split
      obtain ⟨sameFront, sameLast⟩ := List.append_inj' split' rfl
      exact .inr ⟨middle, sameFront, by simpa using sameLast.symm⟩

section Run

variable {live : α → Bool} {succ : α → Option (List α)}

theorem ChildrenPending.push {order stack next : List α} {top : α}
    (pending : ChildrenPending live succ order (top :: stack))
    (successors : succ top = some next) :
    ChildrenPending live succ (order ++ [top]) (next.reverse ++ stack) := by
  intro front x back split children expanded child member alive
  rcases split_append_singleton split with ⟨_, rfl, rfl⟩ | ⟨middle, earlier, rfl⟩
  · rw [successors, Option.some.injEq] at expanded
    subst expanded
    exact .inr (List.mem_append_left _ (List.mem_reverse.mpr member))
  · rcases pending front x middle earlier children expanded child member alive with
      later | waiting
    · exact .inl (List.mem_append_left _ later)
    · rcases List.mem_cons.mp waiting with same | below
      · exact .inl (by simp [same])
      · exact .inr (List.mem_append_right _ below)

theorem ChildrenPending.skip {order stack : List α} {top : α}
    (pending : ChildrenPending live succ order (top :: stack))
    (dead : live top = false) :
    ChildrenPending live succ order stack := by
  intro front x back split children expanded child member alive
  rcases pending front x back split children expanded child member alive with
    later | waiting
  · exact .inl later
  · rcases List.mem_cons.mp waiting with same | below
    · rw [same, dead] at alive
      cases alive
    · exact .inr below

/-- The traversal emits every live successor after each copy of a node. -/
theorem run_childrenAfter :
    ∀ {fuel : Nat} {stack order result : List α},
      run live succ fuel stack order = some result →
      ChildrenPending live succ order stack → ChildrenAfter live succ result := by
  intro fuel
  induction fuel with
  | zero =>
      intro stack order result finished pending
      cases stack with
      | nil =>
          simp only [run_nil, Option.some.injEq] at finished
          subst finished
          intro front x back split next expanded child member alive
          simpa using pending front x back split next expanded child member alive
      | cons => cases finished
  | succ fuel inductionHypothesis =>
      intro stack order result finished pending
      cases stack with
      | nil =>
          simp only [run_nil, Option.some.injEq] at finished
          subst finished
          intro front x back split next expanded child member alive
          simpa using pending front x back split next expanded child member alive
      | cons top stack =>
          cases alive : live top with
          | true =>
              cases successors : succ top with
              | none => simp [run, alive, successors] at finished
              | some next =>
                  rw [run_live live succ alive successors] at finished
                  exact inductionHypothesis finished (pending.push successors)
          | false =>
              rw [run_dead live succ alive] at finished
              exact inductionHypothesis finished (pending.skip alive)

/-- The traversal extends `order` by live nodes reachable from the stack. -/
theorem run_reaches :
    ∀ {fuel : Nat} {stack order result : List α},
      run live succ fuel stack order = some result →
      ∃ emitted, result = order ++ emitted ∧
        ∀ x ∈ emitted, live x = true ∧ ∃ start ∈ stack, Reaches live succ start x := by
  intro fuel
  induction fuel with
  | zero =>
      intro stack order result finished
      cases stack with
      | nil =>
          simp only [run_nil, Option.some.injEq] at finished
          exact ⟨[], by simp [finished], by simp⟩
      | cons => cases finished
  | succ fuel inductionHypothesis =>
      intro stack order result finished
      cases stack with
      | nil =>
          simp only [run_nil, Option.some.injEq] at finished
          exact ⟨[], by simp [finished], by simp⟩
      | cons top stack =>
          cases alive : live top with
          | true =>
              cases successors : succ top with
              | none => simp [run, alive, successors] at finished
              | some next =>
                  rw [run_live live succ alive successors] at finished
                  obtain ⟨emitted, resultEq, reached⟩ := inductionHypothesis finished
                  refine ⟨top :: emitted, by simp [resultEq], ?_⟩
                  intro x member
                  rcases List.mem_cons.mp member with rfl | later
                  · exact ⟨alive, x, List.mem_cons_self, .refl x⟩
                  · obtain ⟨isLive, start, onStack, reaches⟩ := reached x later
                    refine ⟨isLive, ?_⟩
                    rcases List.mem_append.mp onStack with pushed | below
                    · exact ⟨top, List.mem_cons_self,
                        .step alive successors (List.mem_reverse.mp pushed) reaches⟩
                    · exact ⟨start, List.mem_cons_of_mem _ below, reaches⟩
          | false =>
              rw [run_dead live succ alive] at finished
              obtain ⟨emitted, resultEq, reached⟩ := inductionHypothesis finished
              refine ⟨emitted, resultEq, fun x member => ?_⟩
              obtain ⟨isLive, start, onStack, reaches⟩ := reached x member
              exact ⟨isLive, start, List.mem_cons_of_mem _ onStack, reaches⟩

/-- A traversal from one live node emits it first, and after it only live
nodes reached from its successors. -/
theorem run_singleton {fuel : Nat} {x : α} {result : List α}
    (finished : run live succ fuel [x] [] = some result) (alive : live x = true) :
    ∃ next rest, succ x = some next ∧ result = x :: rest ∧
      ∀ y ∈ rest, live y = true ∧ ∃ start ∈ next, Reaches live succ start y := by
  cases fuel with
  | zero => cases finished
  | succ fuel =>
      cases successors : succ x with
      | none => simp [run, alive, successors] at finished
      | some next =>
          rw [run_live live succ alive successors] at finished
          obtain ⟨emitted, resultEq, reached⟩ := run_reaches finished
          refine ⟨next, emitted, rfl, by simpa using resultEq, fun y member => ?_⟩
          obtain ⟨isLive, start, onStack, reaches⟩ := reached y member
          exact ⟨isLive, start, by simpa using onStack, reaches⟩

/-- Reaching along live successors is reaching along successors. -/
theorem Reaches.reflTransGen {x y : α} (reaches : Reaches live succ x y) :
    Relation.ReflTransGen (fun first second => second ∈ (succ first).getD []) x y := by
  induction reaches with
  | refl => exact .refl
  | step _ successors member _ inductionHypothesis =>
      exact .head (by rw [successors]; exact member) inductionHypothesis

/-- More fuel does not change a finished traversal. -/
theorem run_add_fuel :
    ∀ {fuel : Nat} {stack order result : List α} (extra : Nat),
      run live succ fuel stack order = some result →
      run live succ (fuel + extra) stack order = some result := by
  intro fuel
  induction fuel with
  | zero =>
      intro stack order result extra finished
      cases stack with
      | nil => simpa using finished
      | cons => cases finished
  | succ fuel inductionHypothesis =>
      intro stack order result extra finished
      cases stack with
      | nil => simpa using finished
      | cons top stack =>
          rw [Nat.add_right_comm]
          cases alive : live top with
          | true =>
              cases successors : succ top with
              | none => simp [run, alive, successors] at finished
              | some next =>
                  rw [run_live live succ alive successors] at finished ⊢
                  exact inductionHypothesis extra finished
          | false =>
              rw [run_dead live succ alive] at finished ⊢
              exact inductionHypothesis extra finished

/-- Along live successors a rank that strictly decreases bounds every path. -/
theorem Reaches.rank_le (rank : α → ℕ)
    (decreasing : ∀ x next, live x = true → succ x = some next → ∀ c ∈ next, rank c < rank x)
    {x y : α} (reaches : Reaches live succ x y) : rank y ≤ rank x := by
  induction reaches with
  | refl => exact le_rfl
  | step alive successors member _ inductionHypothesis =>
      exact le_of_lt (lt_of_le_of_lt inductionHypothesis
        (decreasing _ _ alive successors _ member))

/-- When every live node has successors of smaller rank, the traversal ends for
enough fuel. -/
theorem run_terminates (rank : α → ℕ)
    (expands : ∀ x, live x = true → ∃ next, succ x = some next)
    (decreasing : ∀ x next, live x = true → succ x = some next → ∀ c ∈ next, rank c < rank x) :
    ∀ (stack order : List α), ∃ fuel result, run live succ fuel stack order = some result := by
  suffices measure : ∀ (ranks : Multiset ℕ) (stack : List α),
      (stack.map rank : Multiset ℕ) = ranks →
      ∀ order, ∃ fuel result, run live succ fuel stack order = some result by
    intro stack order
    exact measure _ stack rfl order
  have wellFounded : WellFounded (Multiset.IsDershowitzMannaLT : Multiset ℕ → Multiset ℕ → Prop) :=
    Multiset.wellFounded_isDershowitzMannaLT
  intro ranks
  induction ranks using wellFounded.induction with
  | _ ranks inductionHypothesis =>
      intro stack stackRanks order
      cases stack with
      | nil => exact ⟨0, order, run_nil live succ 0 order⟩
      | cons top rest =>
          cases alive : live top with
          | true =>
              obtain ⟨next, successors⟩ := expands top alive
              have smaller : Multiset.IsDershowitzMannaLT
                  (((next.reverse ++ rest).map rank : List ℕ) : Multiset ℕ) ranks := by
                refine ⟨(rest.map rank : Multiset ℕ), (next.map rank : Multiset ℕ),
                  {rank top}, by simp, ?_, ?_, ?_⟩
                · rw [List.map_append, List.map_reverse, ← Multiset.coe_add, Multiset.coe_reverse,
                    add_comm]
                · rw [← stackRanks, List.map_cons, add_comm, Multiset.singleton_add,
                    Multiset.cons_coe]
                · intro y member
                  obtain ⟨c, inNext, rfl⟩ := List.mem_map.mp (Multiset.mem_coe.mp member)
                  exact ⟨rank top, Multiset.mem_singleton_self _,
                    decreasing top next alive successors c inNext⟩
              obtain ⟨fuel, result, finished⟩ :=
                inductionHypothesis _ smaller (next.reverse ++ rest) rfl (order ++ [top])
              exact ⟨fuel + 1, result, by rw [run_live live succ alive successors]; exact finished⟩
          | false =>
              have smaller : Multiset.IsDershowitzMannaLT
                  ((rest.map rank : List ℕ) : Multiset ℕ) ranks := by
                refine ⟨(rest.map rank : Multiset ℕ), 0, {rank top}, by simp, by simp, ?_, by simp⟩
                rw [← stackRanks, List.map_cons, add_comm, Multiset.singleton_add,
                  Multiset.cons_coe]
              obtain ⟨fuel, result, finished⟩ :=
                inductionHypothesis _ smaller rest rfl order
              exact ⟨fuel + 1, result, by rw [run_dead live succ alive]; exact finished⟩

end Run

/-! ## Keeping first copies -/

section FilterRemove

variable [DecidableEq α]

/-- `list.into_iter().filter(|x| set.remove(x)).collect()`: keep an element
while it is still in `set`, and take it out of `set` as it is kept. -/
def filterRemove : Finset α → List α → List α × Finset α
  | set, [] => ([], set)
  | set, x :: rest =>
      if x ∈ set then
        ((filterRemove (set.erase x) rest).1 |>.cons x, (filterRemove (set.erase x) rest).2)
      else filterRemove set rest

theorem filterRemove_cons_mem {set : Finset α} {x : α} {rest : List α} (member : x ∈ set) :
    filterRemove set (x :: rest) =
      (x :: (filterRemove (set.erase x) rest).1, (filterRemove (set.erase x) rest).2) := by
  simp [filterRemove, member]

theorem filterRemove_cons_not_mem {set : Finset α} {x : α} {rest : List α} (absent : x ∉ set) :
    filterRemove set (x :: rest) = filterRemove set rest := by
  simp [filterRemove, absent]

/-- The kept elements are the elements of the list that start in the set. -/
theorem mem_filterRemove_fst :
    ∀ (list : List α) (set : Finset α) (y : α),
      y ∈ (filterRemove set list).1 ↔ y ∈ list ∧ y ∈ set := by
  intro list
  induction list with
  | nil => simp [filterRemove]
  | cons x rest inductionHypothesis =>
      intro set y
      by_cases member : x ∈ set
      · rw [filterRemove_cons_mem member, List.mem_cons, inductionHypothesis,
          Finset.mem_erase, List.mem_cons]
        by_cases same : y = x
        · subst same
          simp [member]
        · simp [same]
      · rw [filterRemove_cons_not_mem member, inductionHypothesis, List.mem_cons]
        by_cases same : y = x
        · subst same
          simp [member]
        · simp [same]

/-- What is left of the set is what the list did not take out. -/
theorem mem_filterRemove_snd :
    ∀ (list : List α) (set : Finset α) (y : α),
      y ∈ (filterRemove set list).2 ↔ y ∈ set ∧ y ∉ list := by
  intro list
  induction list with
  | nil => simp [filterRemove]
  | cons x rest inductionHypothesis =>
      intro set y
      by_cases member : x ∈ set
      · rw [filterRemove_cons_mem member, inductionHypothesis, Finset.mem_erase, List.mem_cons]
        tauto
      · rw [filterRemove_cons_not_mem member, inductionHypothesis, List.mem_cons]
        by_cases same : y = x
        · subst same
          simp [member]
        · simp [same]

theorem nodup_filterRemove_fst :
    ∀ (list : List α) (set : Finset α), (filterRemove set list).1.Nodup := by
  intro list
  induction list with
  | nil => simp [filterRemove]
  | cons x rest inductionHypothesis =>
      intro set
      by_cases member : x ∈ set
      · rw [filterRemove_cons_mem member, List.nodup_cons, mem_filterRemove_fst]
        exact ⟨fun kept => by simp at kept, inductionHypothesis _⟩
      · rw [filterRemove_cons_not_mem member]
        exact inductionHypothesis set

/-- An element that comes before the first copy of another one is kept before
it. -/
theorem pair_sublist_filterRemove :
    ∀ (front : List α) {back : List α} {set : Finset α} {x y : α},
      y ∈ set → x ∈ set → x ∉ front → x ≠ y → x ∈ back →
      [y, x].Sublist (filterRemove set (front ++ y :: back)).1 := by
  intro front
  induction front with
  | nil =>
      intro back set x y yMember xMember _ distinct later
      rw [List.nil_append, filterRemove_cons_mem yMember]
      apply List.Sublist.cons_cons
      apply List.singleton_sublist.mpr
      rw [mem_filterRemove_fst]
      exact ⟨later, Finset.mem_erase.mpr ⟨distinct, xMember⟩⟩
  | cons z front inductionHypothesis =>
      intro back set x y yMember xMember notFront distinct later
      have zx : x ≠ z := fun same => notFront (by simp [same])
      rw [List.cons_append]
      by_cases zMember : z ∈ set
      · rw [filterRemove_cons_mem zMember]
        by_cases zy : z = y
        · subst zy
          apply List.Sublist.cons_cons
          apply List.singleton_sublist.mpr
          rw [mem_filterRemove_fst]
          exact ⟨by simp [later], Finset.mem_erase.mpr ⟨distinct, xMember⟩⟩
        · apply List.Sublist.cons
          exact inductionHypothesis (Finset.mem_erase.mpr ⟨Ne.symm zy, yMember⟩)
            (Finset.mem_erase.mpr ⟨zx, xMember⟩) (fun inFront => notFront (by simp [inFront]))
            distinct later
      · rw [filterRemove_cons_not_mem zMember]
        exact inductionHypothesis yMember xMember
          (fun inFront => notFront (by simp [inFront])) distinct later

/-- A last element that occurs nowhere before is kept last. -/
theorem filterRemove_append_singleton :
    ∀ (list : List α) {set : Finset α} {x : α}, x ∉ list → x ∈ set →
      (filterRemove set (list ++ [x])).1 = (filterRemove set list).1 ++ [x] := by
  intro list
  induction list with
  | nil =>
      intro set x _ member
      simp [filterRemove, member]
  | cons z rest inductionHypothesis =>
      intro set x absent member
      have zx : x ≠ z := fun same => absent (by simp [same])
      have restAbsent : x ∉ rest := fun inRest => absent (by simp [inRest])
      rw [List.cons_append]
      by_cases zMember : z ∈ set
      · rw [filterRemove_cons_mem zMember, filterRemove_cons_mem zMember,
          inductionHypothesis restAbsent (Finset.mem_erase.mpr ⟨zx, member⟩)]
        rfl
      · rw [filterRemove_cons_not_mem zMember, filterRemove_cons_not_mem zMember]
        exact inductionHypothesis restAbsent member

end FilterRemove

/-! ## Orders in which successors come first -/

section Topological

variable (edges : α → List α)

/-- Every element of `order` comes after all of its `edges`. -/
def Topological (order : List α) : Prop :=
  ∀ front x back, order = front ++ x :: back → ∀ y ∈ edges x, y ∈ front

variable {edges}

/-- A topological order followed by a list whose elements find their edges
earlier in it or in the first part is a topological order. -/
theorem Topological.append {first second : List α} (earlier : Topological edges first)
    (later : ∀ front x back, second = front ++ x :: back → ∀ y ∈ edges x, y ∈ first ∨ y ∈ front) :
    Topological edges (first ++ second) := by
  intro front x back split y edge
  rcases List.append_eq_append_iff.mp split with ⟨middle, frontEq, secondEq⟩ | ⟨middle, firstEq, backEq⟩
  · -- `x` is in the second part
    rcases later middle x back secondEq y edge with inFirst | inMiddle
    · rw [frontEq]
      exact List.mem_append_left _ inFirst
    · rw [frontEq]
      exact List.mem_append_right _ inMiddle
  · -- `x` is in the first part, or starts the second
    cases middle with
    | nil =>
        rw [List.append_nil] at firstEq
        rw [List.nil_append] at backEq
        subst firstEq
        rcases later [] x back backEq.symm y edge with inFirst | inNil
        · exact inFirst
        · cases inNil
    | cons z middle =>
        rw [List.cons_append, List.cons.injEq] at backEq
        obtain ⟨rfl, -⟩ := backEq
        exact earlier front x middle firstEq y edge

/-- A topological order stays one for edges that agree on its elements. -/
theorem Topological.congr {edges' : α → List α} {order : List α} (ordered : Topological edges order)
    (agree : ∀ x ∈ order, edges' x = edges x) : Topological edges' order := by
  intro front x back split y edge
  rw [agree x (by rw [split]; simp)] at edge
  exact ordered front x back split y edge

/-- A front part of a topological order is a topological order. -/
theorem Topological.left {first second : List α} (ordered : Topological edges (first ++ second)) :
    Topological edges first := by
  intro front x back split y edge
  exact ordered front x (back ++ second) (by rw [split]; simp) y edge

end Topological

/-- In a list without duplicates, the first element of a two-element sublist
stands before every split at the second. -/
theorem mem_front_of_pair_sublist {list front back : List α} {x y : α} (distinct : list.Nodup)
    (pair : [y, x].Sublist list) (split : list = front ++ x :: back) : y ∈ front := by
  subst split
  obtain ⟨first, second, pairEq, firstSub, secondSub⟩ := List.sublist_append_iff.mp pair
  have xBack : x ∉ back := (List.nodup_cons.mp (List.nodup_append.mp distinct).2.1).1
  have xFront : x ∉ front := fun inFront =>
    List.disjoint_of_nodup_append distinct inFront List.mem_cons_self
  -- the pair splits into a part in `front` and a part in `x :: back`
  match first, pairEq with
  | [], pairEq =>
      simp only [List.nil_append] at pairEq
      subst pairEq
      rcases List.sublist_cons_iff.mp secondSub with inBack | ⟨rest, restEq, restSub⟩
      · exact absurd (inBack.subset (by simp)) xBack
      · simp only [List.cons.injEq] at restEq
        obtain ⟨rfl, rfl⟩ := restEq
        exact absurd (restSub.subset (by simp)) xBack
  | [_], pairEq =>
      simp only [List.singleton_append, List.cons.injEq] at pairEq
      obtain ⟨rfl, -⟩ := pairEq
      exact firstSub.subset (by simp)
  | [_, _], pairEq =>
      simp only [List.cons_append, List.nil_append, List.cons.injEq] at pairEq
      obtain ⟨rfl, rfl, -⟩ := pairEq
      exact absurd (firstSub.subset (by simp)) xFront
  | _ :: _ :: _ :: _, pairEq => simp at pairEq

/-! ## The first copies of a reversed traversal -/

section Ordered

variable [DecidableEq α] {live : α → Bool} {succ : α → Option (List α)}

/-- Keeping the first copies of a reversed traversal whose live nodes are those
of `set` puts the live successors of every kept node before it. -/
theorem filterRemove_reverse_topological {set : Finset α} {order : List α}
    (liveIff : ∀ x, live x = true ↔ x ∈ set) (children : ChildrenAfter live succ order) :
    ∀ front x back, (filterRemove set order.reverse).1 = front ++ x :: back →
      ∀ next, succ x = some next → ∀ y ∈ next, y ∈ set → y ∈ front := by
  intro front x back kept next expanded y member yLive
  have xKept : x ∈ (filterRemove set order.reverse).1 := by
    rw [kept]
    exact List.mem_append_right _ List.mem_cons_self
  obtain ⟨xIn, xSet⟩ := (mem_filterRemove_fst _ _ _).mp xKept
  -- the first copy of `x` in the reversed order is its last copy in the traversal
  obtain ⟨before, after, xSplit, xFirst⟩ := List.eq_append_cons_of_mem xIn
  have orderSplit : order = after.reverse ++ x :: before.reverse := by
    rw [← List.reverse_reverse order, xSplit]
    simp
  have yBefore : y ∈ before :=
    List.mem_reverse.mp (children _ x _ orderSplit next expanded y member ((liveIff y).mpr yLive))
  have distinct : x ≠ y := fun same => xFirst (same ▸ yBefore)
  obtain ⟨front', middle, beforeSplit, yFirst⟩ := List.eq_append_cons_of_mem yBefore
  have xNotFront : x ∉ front' := fun inFront => xFirst (by rw [beforeSplit]; exact List.mem_append_left _ inFront)
  have pair := pair_sublist_filterRemove front' yLive xSet xNotFront distinct
    (List.mem_append_right middle (List.mem_cons_self : x ∈ x :: after))
  have reversedEq : order.reverse = front' ++ y :: (middle ++ x :: after) := by
    rw [xSplit, beforeSplit]
    simp
  rw [← reversedEq] at pair
  exact mem_front_of_pair_sublist (nodup_filterRemove_fst _ _) pair kept

end Ordered

end Traversal
