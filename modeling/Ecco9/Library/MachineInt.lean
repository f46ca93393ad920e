import Mathlib.Data.Int.Init
import Mathlib.Tactic.Ring

/-! Fixed-width signed arithmetic on `Int`: a result is brought back into the range of the type,
as two's complement machines do. -/

namespace Ecco9.Library

/-- The largest value of a 32-bit signed integer. -/
def maxInt32 : Int := 2 ^ 31 - 1

/-- The largest value of a 64-bit signed integer, for lengths and indices. -/
def maxInt : Nat := 2 ^ 63 - 1

def wrap32 (x : Int) : Int := Int.bmod x (2 ^ 32)

def wrap64 (x : Int) : Int := Int.bmod x (2 ^ 64)

def add32 (a b : Int) : Int := wrap32 (a + b)

def sub32 (a b : Int) : Int := wrap32 (a - b)

theorem wrap32_of_range {x : Int} (lo : -2 ^ 31 ≤ x) (hi : x < 2 ^ 31) : wrap32 x = x := by
  unfold wrap32
  rw [Int.bmod_def]
  split <;> omega

theorem wrap64_of_range {x : Int} (lo : -2 ^ 63 ≤ x) (hi : x < 2 ^ 63) : wrap64 x = x := by
  unfold wrap64
  rw [Int.bmod_def]
  split <;> omega

theorem sub32_of_range {a b : Int} (lo : -2 ^ 31 ≤ a - b) (hi : a - b < 2 ^ 31) :
    sub32 a b = a - b := wrap32_of_range lo hi

theorem add32_of_range {a b : Int} (lo : -2 ^ 31 ≤ a + b) (hi : a + b < 2 ^ 31) :
    add32 a b = a + b := wrap32_of_range lo hi

theorem wrap64_add_wrap64 (x y : Int) : wrap64 (x + wrap64 y) = wrap64 (x + y) := Int.add_bmod_bmod

end Ecco9.Library
