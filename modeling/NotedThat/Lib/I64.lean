-- SUMMARY: Signed 64-bit arithmetic that stops instead of wrapping.
import Mathlib.Algebra.Group.Int.Defs
import Mathlib.Data.Int.Init

/-!
# Signed 64-bit integers

`none` is what overflow makes of an operation. On numbers that are not negative both divisions, the one
that truncates and the one that rounds down, are the division of integers.
-/

namespace I64

def checked (n : Int) : Option Int := if -2 ^ 63 ≤ n ∧ n < 2 ^ 63 then some n else none

def add (a b : Int) : Option Int := checked (a + b)

def sub (a b : Int) : Option Int := checked (a - b)

def mul (a b : Int) : Option Int := checked (a * b)

/-- Division that truncates, which is what the operator `/` does. -/
def div (a b : Int) : Option Int := if b = 0 then none else checked (a.tdiv b)

/-- The remainder of the division that truncates. It stops where the division does. -/
def rem (a b : Int) : Option Int := (div a b).map fun _ => a.tmod b

def divEuclid (a b : Int) : Option Int := if b = 0 then none else checked (a / b)

def remEuclid (a b : Int) : Option Int := (divEuclid a b).map fun _ => a % b

variable {n a b : Int}

/-- A computation goes on with the value of its first step. -/
theorem bind_of_eq {α β : Type} {o : Option α} {a : α} {f : α → Option β} {r : Option β} (ho : o = some a)
    (hf : f a = r) : o >>= f = r := by
  rw [ho]
  exact hf

theorem checked_eq (hle : 0 ≤ n) (hlt : n < 2 ^ 63) : checked n = some n := if_pos ⟨by omega, hlt⟩

theorem add_eq (hle : 0 ≤ a + b) (hlt : a + b < 2 ^ 63) : add a b = some (a + b) := checked_eq hle hlt

theorem sub_eq (hle : b ≤ a) (hlt : a - b < 2 ^ 63) : sub a b = some (a - b) :=
  checked_eq (Int.sub_nonneg.mpr hle) hlt

theorem mul_eq (hle : 0 ≤ a * b) (hlt : a * b < 2 ^ 63) : mul a b = some (a * b) := checked_eq hle hlt

theorem divEuclid_eq (ha : 0 ≤ a) (hlt : a < 2 ^ 63) (hb : 0 < b) : divEuclid a b = some (a / b) := by
  rw [divEuclid, if_neg (Int.ne_of_gt hb)]
  exact checked_eq (Int.ediv_nonneg ha (Int.le_of_lt hb)) (Int.lt_of_le_of_lt (Int.ediv_le_self b ha) hlt)

theorem remEuclid_eq (ha : 0 ≤ a) (hlt : a < 2 ^ 63) (hb : 0 < b) : remEuclid a b = some (a % b) := by
  rw [remEuclid, divEuclid_eq ha hlt hb, Option.map_some]

theorem div_eq (ha : 0 ≤ a) (hlt : a < 2 ^ 63) (hb : 0 < b) : div a b = some (a / b) := by
  rw [div, Int.tdiv_eq_ediv_of_nonneg ha]
  exact divEuclid_eq ha hlt hb

theorem rem_eq (ha : 0 ≤ a) (hlt : a < 2 ^ 63) (hb : 0 < b) : rem a b = some (a % b) := by
  rw [rem, div_eq ha hlt hb, Option.map_some, Int.tmod_eq_emod_of_nonneg ha]

end I64
