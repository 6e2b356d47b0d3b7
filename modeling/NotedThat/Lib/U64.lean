-- SUMMARY: Arithmetic on 64-bit counters that stops instead of wrapping.
import Mathlib.Algebra.Group.Nat.Defs
import Mathlib.Data.Nat.Basic

/-!
# 64-bit counters

A counter is a natural number below `2 ^ 64`. `none` is what overflow makes of an operation. An operation
that is shown to stay in bounds has the value that it has on natural numbers.
-/

namespace U64

def add (a b : Nat) : Option Nat := if a + b < 2 ^ 64 then some (a + b) else none

def sub (a b : Nat) : Option Nat := if b ≤ a then some (a - b) else none

def mul (a b : Nat) : Option Nat := if a * b < 2 ^ 64 then some (a * b) else none

/-- The greatest counter, at which a sum can be made to stop. -/
def greatest : Nat := 2 ^ 64 - 1

def saturatingAdd (a b : Nat) : Nat := min (a + b) greatest

variable {a b c : Nat}

theorem add_eq (h : a + b < 2 ^ 64) : add a b = some (a + b) := if_pos h

theorem sub_eq (h : b ≤ a) : sub a b = some (a - b) := if_pos h

theorem mul_eq (h : a * b < 2 ^ 64) : mul a b = some (a * b) := if_pos h

theorem add_eq_some : add a b = some c ↔ a + b < 2 ^ 64 ∧ c = a + b := by
  rw [add, Option.ite_none_right_eq_some, Option.some.injEq, eq_comm (a := c)]

theorem add_eq_none : add a b = none ↔ 2 ^ 64 ≤ a + b := by
  unfold add
  split
  · next h => exact iff_of_false nofun (Nat.not_le.mpr h)
  · next h => exact iff_of_true rfl (Nat.not_lt.mp h)

end U64
