import Mathlib.Algebra.Order.Floor.Ring
import Mathlib.Analysis.Real.Sqrt
import Mathlib.Tactic.Linarith

/-! Rounding to whole numbers, and sides that are scaled to an area. -/

universe u

namespace Ecco9.Library

section Round

variable {R : Type u} [Field R] [LinearOrder R] [FloorRing R]

/-- The nearest whole number, and of two the even one. -/
def roundToEven (x : R) : ℤ :=
  if x - ⌊x⌋ < 1 / 2 then ⌊x⌋
  else if 1 / 2 < x - ⌊x⌋ then ⌊x⌋ + 1
  else if Even ⌊x⌋ then ⌊x⌋ else ⌊x⌋ + 1

theorem roundToEven_cases (x : R) : roundToEven x = ⌊x⌋ ∧ x - ⌊x⌋ ≤ 1 / 2 ∨
    roundToEven x = ⌊x⌋ + 1 ∧ 1 / 2 ≤ x - ⌊x⌋ := by
  rw [roundToEven]
  split_ifs with hlow hhigh heven
  · exact .inl ⟨rfl, le_of_lt hlow⟩
  · exact .inr ⟨rfl, le_of_lt hhigh⟩
  · exact .inl ⟨rfl, not_lt.mp hhigh⟩
  · exact .inr ⟨rfl, not_lt.mp hlow⟩

theorem floor_le_roundToEven (x : R) : ⌊x⌋ ≤ roundToEven x := by
  rcases roundToEven_cases x with ⟨heq, -⟩ | ⟨heq, -⟩ <;> omega

variable [IsStrictOrderedRing R]

/-- Rounding moves a number by at most one half. -/
theorem abs_roundToEven_sub_le (x : R) : |(roundToEven x : R) - x| ≤ 1 / 2 := by
  have hfloor := Int.floor_le x
  have hlt := Int.lt_floor_add_one x
  rcases roundToEven_cases x with ⟨heq, hx⟩ | ⟨heq, hx⟩
  · rw [heq, abs_le]
    constructor <;> linarith
  · rw [heq, Int.cast_add, Int.cast_one, abs_le]
    constructor <;> linarith

theorem floor_mul_floor_le {x y : R} (hx : 0 ≤ x) (hy : 0 ≤ y) : ((⌊x⌋ * ⌊y⌋ : ℤ) : R) ≤ x * y := by
  rw [Int.cast_mul]
  exact mul_le_mul (Int.floor_le x) (Int.floor_le y) (Int.cast_nonneg (Int.floor_nonneg.mpr hy)) hx

theorem le_ceil_mul_ceil {x y : R} (hx : 0 ≤ x) (hy : 0 ≤ y) : x * y ≤ ((⌈x⌉ * ⌈y⌉ : ℤ) : R) := by
  rw [Int.cast_mul]
  exact mul_le_mul (Int.le_ceil x) (Int.le_ceil y) hy (hx.trans (Int.le_ceil x))

end Round

/-! ### Scaling to an area -/

section Scale

variable {h w area : ℝ}

/-- Both sides divided by the root of the quotient of the areas. -/
theorem scaled_mul (hh : 0 < h) (hw : 0 < w) (ha : 0 < area) :
    h / √(h * w / area) * (w / √(h * w / area)) = area := by
  have hpos : 0 < h * w / area := by positivity
  rw [div_mul_div_comm, Real.mul_self_sqrt (le_of_lt hpos)]
  field_simp

theorem scaled_sq (hh : 0 < h) (hw : 0 < w) (ha : 0 < area) :
    (h / √(h * w / area)) ^ 2 = area * (h / w) := by
  have hpos : 0 < h * w / area := by positivity
  rw [div_pow, Real.sq_sqrt (le_of_lt hpos)]
  field_simp

/-- The reciprocal factor. -/
theorem mul_sqrt_eq (h w area : ℝ) (s : ℝ) : s * √(area / (h * w)) = s / √(h * w / area) := by
  rw [← inv_div (h * w) area, Real.sqrt_inv, ← div_eq_mul_inv]

end Scale

end Ecco9.Library
