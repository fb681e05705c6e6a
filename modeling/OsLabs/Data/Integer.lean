import Mathlib.Algebra.Group.Int.Defs
import Mathlib.Algebra.Group.Nat.Defs
import Mathlib.Algebra.Order.Group.Int

/-! The type `int` of C, of 32 bits that wrap. -/

namespace OsLabs

def intMin : Int := -2 ^ 31
def intMax : Int := 2 ^ 31 - 1

/-- The value of an expression of type `int`. -/
def int (x : Int) : Int := x.bmod (2 ^ 32)

def InInt (x : Int) : Prop := -2 ^ 31 ≤ x ∧ x < 2 ^ 31

theorem int_small {x : Int} (low : -2 ^ 31 ≤ x) (high : x < 2 ^ 31) : int x = x :=
  Int.bmod_eq_of_le (by omega) (by omega)

theorem int_eq {x : Int} (inside : InInt x) : int x = x := int_small inside.1 inside.2

theorem int_inInt (x : Int) : InInt (int x) := ⟨Int.le_bmod (by decide), Int.bmod_lt (by decide)⟩

/-- A sum that leaves the range at its upper end is negative. -/
theorem int_wraps {x : Int} (low : 2 ^ 31 ≤ x) (high : x < 2 ^ 32) : int x = x - 2 ^ 32 := by
  unfold int
  rw [Int.bmod_def]
  omega

end OsLabs
