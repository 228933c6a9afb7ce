import Mathlib.Order.Basic
import Mathlib.Data.List.Forall2

/-!
# Loops that may fail

A loop over a list whose body may fail (a panic, a missing entry) is a
`List.foldlM` in `Option`.  Three rules carry facts through such loops: an
invariant of the accumulator, a reflexive and transitive relation between the
accumulator before and after, and the success of the whole loop when every
iteration succeeds from a state satisfying an invariant.  A fourth says what
a loop keeps of its start and adds for each element.  Two more compare
loops: one whose body returns what another's returns, and a loop that appends
what each element gives, split at an append of the list; of the latter, where
each returned element comes from and when none is returned twice.  A `mapM`
in `Option` returns when every element gives a value, and then what it
returns is those values, index by index.  A `filterMapM` in `Option` fails
exactly when the function fails on an element, and otherwise returns what the
function gives the elements it keeps.
-/

namespace List

variable {α β : Type}

@[simp] theorem foldlM_option_cons (f : α → β → Option α) (start : α) (x : β) (rest : List β) :
    (x :: rest).foldlM f start = (f start x).bind (fun next => rest.foldlM f next) := rfl

/-- An invariant kept by every iteration over an element of the list holds
after the loop. -/
theorem foldlM_option_invariant (invariant : α → Prop) {f : α → β → Option α} :
    ∀ (xs : List β), (∀ state x next, x ∈ xs → invariant state → f state x = some next → invariant next) →
      ∀ (start result : α), invariant start → xs.foldlM f start = some result → invariant result := by
  intro xs
  induction xs with
  | nil =>
      intro _ start result holds finished
      cases finished
      exact holds
  | cons x rest inductionHypothesis =>
      intro step start result holds finished
      rw [foldlM_option_cons] at finished
      cases stepped : f start x with
      | none => simp [stepped] at finished
      | some next =>
          rw [stepped, Option.bind_some] at finished
          exact inductionHypothesis (fun state y next member => step state y next (mem_cons_of_mem x member))
            next result (step start x next mem_cons_self holds stepped) finished

/-- A reflexive and transitive relation that relates the accumulator before
and after every iteration relates it before and after the loop. -/
theorem foldlM_option_relation (relation : α → α → Prop) (refl : ∀ state, relation state state)
    (trans : ∀ first second third, relation first second → relation second third → relation first third)
    {f : α → β → Option α} (step : ∀ state x next, f state x = some next → relation state next) :
    ∀ (xs : List β) (start result : α), xs.foldlM f start = some result → relation start result := by
  intro xs
  induction xs with
  | nil =>
      intro start result finished
      cases finished
      exact refl start
  | cons x rest inductionHypothesis =>
      intro start result finished
      rw [foldlM_option_cons] at finished
      cases stepped : f start x with
      | none => simp [stepped] at finished
      | some next =>
          rw [stepped, Option.bind_some] at finished
          exact trans _ _ _ (step start x next stepped) (inductionHypothesis next result finished)

/-- A loop whose iterations keep every key they find, and each of which adds
the keys its element gives, keeps the keys it started with and ends with the
keys of every element. -/
theorem foldlM_option_keeps {γ : Type} (present : γ → α → Prop) (adds : β → γ → Prop) {f : α → β → Option α}
    (keeps : ∀ state x next, f state x = some next → ∀ key, present key state → present key next)
    (added : ∀ state x next, f state x = some next → ∀ key, adds x key → present key next) :
    ∀ (xs : List β) (start result : α), xs.foldlM f start = some result →
      (∀ key, present key start → present key result) ∧ ∀ x ∈ xs, ∀ key, adds x key → present key result := by
  intro xs
  induction xs with
  | nil =>
      intro start result finished
      cases finished
      exact ⟨fun _ holds => holds, fun _ member => by cases member⟩
  | cons x rest inductionHypothesis =>
      intro start result finished
      rw [foldlM_option_cons] at finished
      cases stepped : f start x with
      | none => simp [stepped] at finished
      | some next =>
          rw [stepped, Option.bind_some] at finished
          obtain ⟨restKeeps, restAdds⟩ := inductionHypothesis next result finished
          refine ⟨fun key holds => restKeeps key (keeps start x next stepped key holds), fun y member key adding => ?_⟩
          rcases mem_cons.mp member with rfl | later
          · exact restKeeps key (added start y next stepped key adding)
          · exact restAdds y later key adding

/-- When every iteration over an element of the list succeeds from a state
satisfying an invariant and keeps it, the loop succeeds and keeps it. -/
theorem foldlM_option_exists (invariant : α → Prop) {f : α → β → Option α} :
    ∀ (xs : List β),
      (∀ state x, x ∈ xs → invariant state → ∃ next, f state x = some next ∧ invariant next) →
      ∀ start, invariant start → ∃ result, xs.foldlM f start = some result ∧ invariant result := by
  intro xs
  induction xs with
  | nil =>
      intro _ start holds
      exact ⟨start, rfl, holds⟩
  | cons x rest inductionHypothesis =>
      intro step start holds
      obtain ⟨next, stepped, nextHolds⟩ := step start x mem_cons_self holds
      obtain ⟨result, finished, resultHolds⟩ :=
        inductionHypothesis (fun state y member => step state y (mem_cons_of_mem x member)) next nextHolds
      refine ⟨result, ?_, resultHolds⟩
      rw [foldlM_option_cons, stepped, Option.bind_some]
      exact finished

/-- When every iteration over an element of the list succeeds, the loop
succeeds. -/
theorem foldlM_option_isSome {f : α → β → Option α} (xs : List β)
    (step : ∀ state x, x ∈ xs → ∃ next, f state x = some next) (start : α) :
    ∃ result, xs.foldlM f start = some result := by
  obtain ⟨result, finished, _⟩ := foldlM_option_exists (fun _ => True) xs
    (fun state x member _ => (step state x member).imp fun _ stepped => ⟨stepped, trivial⟩) start trivial
  exact ⟨result, finished⟩

/-- A loop returns what another returns when each iteration that returns in
the first returns the same in the second. -/
theorem foldlM_option_of_step {f g : α → β → Option α}
    (step : ∀ state x next, f state x = some next → g state x = some next) :
    ∀ (xs : List β) (start result : α), xs.foldlM f start = some result → xs.foldlM g start = some result := by
  intro xs
  induction xs with
  | nil =>
      intro start result finished
      exact finished
  | cons x rest inductionHypothesis =>
      intro start result finished
      rw [foldlM_option_cons] at finished ⊢
      cases stepped : f start x with
      | none => simp [stepped] at finished
      | some next =>
          rw [stepped, Option.bind_some] at finished
          rw [step start x next stepped, Option.bind_some]
          exact inductionHypothesis next result finished

/-- `mapM` in `Option` returns when the function returns on every element. -/
theorem mapM_option_isSome {γ : Type} {f : β → Option γ} :
    ∀ (xs : List β), (∀ x ∈ xs, ∃ y, f x = some y) → ∃ ys, xs.mapM f = some ys := by
  intro xs
  induction xs with
  | nil => exact fun _ => ⟨[], rfl⟩
  | cons x rest inductionHypothesis =>
      intro returns
      obtain ⟨y, given⟩ := returns x mem_cons_self
      obtain ⟨ys, restGiven⟩ := inductionHypothesis fun z member => returns z (mem_cons_of_mem x member)
      refine ⟨y :: ys, ?_⟩
      rw [mapM_cons, given, restGiven]
      rfl

/-- A `mapM` whose function returns, at each element, a value related to it
returns a list of such values, one for each element. -/
theorem mapM_option_forall₂ {γ : Type} {f : β → Option γ} (related : β → γ → Prop) :
    ∀ (xs : List β), (∀ x ∈ xs, ∃ y, f x = some y ∧ related x y) →
      ∃ ys, xs.mapM f = some ys ∧ Forall₂ related xs ys := by
  intro xs
  induction xs with
  | nil => exact fun _ => ⟨[], rfl, Forall₂.nil⟩
  | cons x rest inductionHypothesis =>
      intro returns
      obtain ⟨y, given, relatedY⟩ := returns x mem_cons_self
      obtain ⟨ys, restGiven, restRelated⟩ :=
        inductionHypothesis fun z member => returns z (mem_cons_of_mem x member)
      refine ⟨y :: ys, ?_, Forall₂.cons relatedY restRelated⟩
      rw [mapM_cons, given, restGiven]
      rfl

/-- `mapM` in `Option` over the keys of some records returns their values
where the function gives each key's value. -/
theorem mapM_option_map_eq_some {γ δ : Type} {f : β → Option γ} (key : δ → β) (value : δ → γ) :
    ∀ (xs : List δ), (∀ x ∈ xs, f (key x) = some (value x)) → (xs.map key).mapM f = some (xs.map value) := by
  intro xs
  induction xs with
  | nil => exact fun _ => rfl
  | cons x rest inductionHypothesis =>
      intro gives
      rw [map_cons, mapM_cons, gives x mem_cons_self,
        inductionHypothesis fun z member => gives z (mem_cons_of_mem x member)]
      rfl

/-- `filterMapM` in `Option` fails exactly when the function fails on some
element. -/
theorem filterMapM_option_eq_none {γ : Type} {f : β → Option (Option γ)} :
    ∀ xs : List β, xs.filterMapM f = none ↔ ∃ x ∈ xs, f x = none := by
  intro xs
  induction xs with
  | nil => simp
  | cons x rest inductionHypothesis =>
      rw [filterMapM_cons]
      cases fx : f x with
      | none => simp [fx]
      | some result =>
          -- the head returns, so the loop fails exactly when the rest does
          cases result with
          | none => simp [fx, inductionHypothesis]
          | some value =>
              cases restEq : rest.filterMapM f with
              | none => simp [fx, restEq, ← inductionHypothesis]
              | some values => simp [fx, restEq, ← inductionHypothesis]

/-- What `filterMapM` in `Option` returns is what the function gives the
elements it keeps. -/
theorem mem_filterMapM_option {γ : Type} {f : β → Option (Option γ)} :
    ∀ {xs : List β} {ys : List γ}, xs.filterMapM f = some ys → ∀ y, y ∈ ys ↔ ∃ x ∈ xs, f x = some (some y)
  | [], ys, mapped, y => by
      cases mapped
      simp
  | x :: rest, ys, mapped, y => by
      rw [filterMapM_cons] at mapped
      cases fx : f x with
      | none => simp [fx] at mapped
      | some result =>
          -- the head is left out, or kept in front of what the rest returns
          cases result with
          | none =>
              simp only [fx, Option.bind_eq_bind, Option.bind_some] at mapped
              simp [mem_filterMapM_option mapped y, fx]
          | some value =>
              simp only [fx, Option.bind_eq_bind, Option.bind_some, Option.bind_eq_some_iff, Option.pure_def,
                Option.some.injEq] at mapped
              obtain ⟨values, restMapped, rfl⟩ := mapped
              simp [mem_filterMapM_option restMapped y, fx, eq_comm]

/-- What `mapM` in `Option` returns has one value per element. -/
theorem length_of_mapM_option {γ : Type} {f : β → Option γ} :
    ∀ {xs : List β} {ys : List γ}, xs.mapM f = some ys → ys.length = xs.length
  | [], ys, mapped => by
      cases mapped
      rfl
  | x :: rest, ys, mapped => by
      rw [mapM_cons] at mapped
      simp only [Option.bind_eq_bind, Option.bind_eq_some_iff, Option.pure_def, Option.some.injEq] at mapped
      obtain ⟨y, -, rest', restMapped, rfl⟩ := mapped
      rw [length_cons, length_cons, length_of_mapM_option restMapped]

/-- What `mapM` in `Option` returns holds, at each index, what the function
gives at that index. -/
theorem getElem?_of_mapM_option {γ : Type} {f : β → Option γ} :
    ∀ {xs : List β} {ys : List γ}, xs.mapM f = some ys → ∀ index : Nat, ys[index]? = xs[index]?.bind f
  | [], ys, mapped, index => by
      cases mapped
      rfl
  | x :: rest, ys, mapped, index => by
      rw [mapM_cons] at mapped
      simp only [Option.bind_eq_bind, Option.bind_eq_some_iff, Option.pure_def, Option.some.injEq] at mapped
      obtain ⟨y, given, rest', restMapped, rfl⟩ := mapped
      cases index with
      | zero => simp [given]
      | succ index => simpa using getElem?_of_mapM_option restMapped index

section Append

variable {γ : Type} (gives : β → Option (List γ))

/-- The loop that appends to an accumulator what each element gives. -/
theorem foldlM_option_append_start :
    ∀ (xs : List β) (start : List γ),
      xs.foldlM (fun acc x => (gives x).bind fun ys => some (acc ++ ys)) start =
        (xs.foldlM (fun acc x => (gives x).bind fun ys => some (acc ++ ys)) []).map (start ++ ·) := by
  intro xs
  induction xs with
  | nil =>
      intro start
      simp
  | cons x rest inductionHypothesis =>
      intro start
      rw [foldlM_option_cons, foldlM_option_cons]
      cases given : gives x with
      | none => rfl
      | some ys =>
          simp only [Option.bind_some]
          rw [inductionHypothesis (start ++ ys), inductionHypothesis ([] ++ ys), Option.map_map]
          congr 1
          funext zs
          simp

/-- What the appending loop gives over an append of two lists. -/
theorem foldlM_option_append_split (first second : List β) :
    (first ++ second).foldlM (fun acc x => (gives x).bind fun ys => some (acc ++ ys)) [] =
      (first.foldlM (fun acc x => (gives x).bind fun ys => some (acc ++ ys)) []).bind fun front =>
        (second.foldlM (fun acc x => (gives x).bind fun ys => some (acc ++ ys)) []).map (front ++ ·) := by
  rw [List.foldlM_append, ← Option.bind_eq_bind]
  congr 1
  funext front
  exact foldlM_option_append_start gives second front

/-- The appending loop from the front: what the first element gives, then
the loop over the rest. -/
theorem foldlM_option_append_cons (x : β) (rest : List β) :
    (x :: rest).foldlM (fun acc x => (gives x).bind fun ys => some (acc ++ ys)) [] =
      (gives x).bind fun ys => (rest.foldlM (fun acc x => (gives x).bind fun ys => some (acc ++ ys)) []).map
        (ys ++ ·) := by
  rw [foldlM_option_cons]
  cases gives x with
  | none => rfl
  | some ys =>
      simp only [Option.bind_some, nil_append]
      exact foldlM_option_append_start gives rest ys

/-- Everything the appending loop returns comes from what some element gives. -/
theorem mem_foldlM_option_append :
    ∀ {xs : List β} {result : List γ},
      xs.foldlM (fun acc x => (gives x).bind fun ys => some (acc ++ ys)) [] = some result →
      ∀ z ∈ result, ∃ x ∈ xs, ∃ ys, gives x = some ys ∧ z ∈ ys := by
  intro xs
  induction xs with
  | nil =>
      intro result finished z member
      cases finished
      cases member
  | cons x rest inductionHypothesis =>
      intro result finished z member
      rw [foldlM_option_append_cons] at finished
      obtain ⟨ys, given, restResult⟩ := Option.bind_eq_some_iff.mp finished
      obtain ⟨zs, restFinished, rfl⟩ := Option.map_eq_some_iff.mp restResult
      rcases mem_append.mp member with inFirst | inRest
      · exact ⟨x, mem_cons_self, ys, given, inFirst⟩
      · obtain ⟨y, inXs, yys, yGiven, inYs⟩ := inductionHypothesis restFinished z inRest
        exact ⟨y, mem_cons_of_mem x inXs, yys, yGiven, inYs⟩

/-- The appending loop returns a list without repetition when the elements
are distinct, each gives a list without repetition and distinct elements give
disjoint lists. -/
theorem nodup_foldlM_option_append
    (nodup : ∀ x ys, gives x = some ys → ys.Nodup)
    (disjoint : ∀ x y xs ys, x ≠ y → gives x = some xs → gives y = some ys → ∀ z ∈ xs, z ∉ ys) :
    ∀ {xs : List β} {result : List γ}, xs.Nodup →
      xs.foldlM (fun acc x => (gives x).bind fun ys => some (acc ++ ys)) [] = some result → result.Nodup := by
  intro xs
  induction xs with
  | nil =>
      intro result _ finished
      cases finished
      exact nodup_nil
  | cons x rest inductionHypothesis =>
      intro result distinct finished
      rw [foldlM_option_append_cons] at finished
      obtain ⟨ys, given, restResult⟩ := Option.bind_eq_some_iff.mp finished
      obtain ⟨zs, restFinished, rfl⟩ := Option.map_eq_some_iff.mp restResult
      have ⟨notInRest, restDistinct⟩ := nodup_cons.mp distinct
      refine nodup_append.mpr ⟨nodup x ys given, inductionHypothesis restDistinct restFinished, ?_⟩
      -- what a later element gives is disjoint from what the first gives
      intro z inFirst z' inRest same
      subst same
      obtain ⟨y, inXs, yys, yGiven, inYs⟩ := mem_foldlM_option_append gives restFinished z inRest
      have other : x ≠ y := fun same => notInRest (same ▸ inXs)
      exact disjoint x y ys yys other given yGiven z inFirst inYs

end Append

end List
