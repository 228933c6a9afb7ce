import Mathlib.Algebra.BigOperators.Group.Finset.Basic

/-!
# Checked unsigned arithmetic

Unsigned integers of a fixed width whose operations panic where the result
does not fit, as Rust's do in a build with overflow checks and as the 256-bit
integers of the `bigint` crate do.  A value is a natural number below
`2 ^ width`, and a panic is `none`.
-/

namespace Checked

/-- Addition, panicking at `2 ^ width` and past it. -/
def add (width a b : Nat) : Option Nat :=
  if a + b < 2 ^ width then some (a + b) else none

/-- Subtraction, panicking below zero. -/
def sub (a b : Nat) : Option Nat :=
  if b ≤ a then some (a - b) else none

/-- Multiplication, panicking at `2 ^ width` and past it. -/
def mul (width a b : Nat) : Option Nat :=
  if a * b < 2 ^ width then some (a * b) else none

/-- The remainder, panicking on a zero divisor. -/
def rem (a b : Nat) : Option Nat :=
  if b = 0 then none else some (a % b)

/-- A narrowing conversion, panicking where the value does not fit. -/
def narrow (width a : Nat) : Option Nat :=
  if a < 2 ^ width then some a else none

section Fits

variable {width a b : Nat}

@[simp] theorem add_of_lt (fits : a + b < 2 ^ width) : add width a b = some (a + b) := if_pos fits

@[simp] theorem sub_of_le (le : b ≤ a) : sub a b = some (a - b) := if_pos le

@[simp] theorem mul_of_lt (fits : a * b < 2 ^ width) : mul width a b = some (a * b) := if_pos fits

@[simp] theorem rem_of_pos (positive : 0 < b) : rem a b = some (a % b) := if_neg (Nat.pos_iff_ne_zero.mp positive)

@[simp] theorem narrow_of_lt (fits : a < 2 ^ width) : narrow width a = some a := if_pos fits

theorem add_of_le (exceeds : 2 ^ width ≤ a + b) : add width a b = none := if_neg (Nat.not_lt.mpr exceeds)

theorem add_eq_some {c : Nat} (added : add width a b = some c) : a + b < 2 ^ width ∧ c = a + b := by
  unfold add at added
  split_ifs at added with fits
  exact ⟨fits, (Option.some.inj added).symm⟩

theorem rem_eq_some {c : Nat} (divided : rem a b = some c) : 0 < b ∧ c = a % b := by
  unfold rem at divided
  split_ifs at divided with zero
  exact ⟨Nat.pos_of_ne_zero zero, (Option.some.inj divided).symm⟩

theorem narrow_eq_some {c : Nat} (narrowed : narrow width a = some c) : a < 2 ^ width ∧ c = a := by
  unfold narrow at narrowed
  split_ifs at narrowed with fits
  exact ⟨fits, (Option.some.inj narrowed).symm⟩

end Fits

end Checked
