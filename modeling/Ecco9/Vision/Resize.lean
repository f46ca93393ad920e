import Ecco9.Library.Rounding
import Ecco9.Vision.Patches
import Mathlib.Tactic.NormNum

/-! `SmartResize` of `model/models/qwen25vl/process_image.go`, over the real numbers. -/

namespace Ecco9.Vision.Qwen25vl

open Ecco9.Library

/-- The settings of the vision part of a model that `newImageProcessor` reads. -/
structure VisionConfig where
  patchSize : Nat := 14
  spatialMergeSize : Nat := 2
  numChannels : Nat := 3
  maxPixels : Nat := 28 * 28 * 1280

def newImageProcessor (c : VisionConfig) : ImageProcessor where
  numChannels := c.numChannels
  patchSize := c.patchSize
  temporalPatchSize := 2
  mergeSize := c.spatialMergeSize
  minPixels := 56 * 56
  maxPixels := c.maxPixels
  factor := c.patchSize * c.spatialMergeSize

/-- The panics of `SmartResize`. -/
inductive ResizePanic
  | smallerThanFactor (height width factor : Int)
  | aspectRatio (ratio : Int)

namespace ImageProcessor

noncomputable def smartResize (p : ImageProcessor) (height width : Int) :
    Except ResizePanic (Int × Int) :=
  let factor : Int := p.factor
  if height < factor ∨ width < factor then .error (.smallerThanFactor height width factor)
  else if (max height width).tdiv (min height width) > 200 then
    .error (.aspectRatio ((max height width).tdiv (min height width)))
  else
    let hBar := roundToEven ((height : ℝ) / factor) * factor
    let wBar := roundToEven ((width : ℝ) / factor) * factor
    if hBar * wBar > p.maxPixels then
      let beta := √((height : ℝ) * width / p.maxPixels)
      .ok (⌊height / beta / factor⌋ * factor, ⌊width / beta / factor⌋ * factor)
    else if hBar * wBar < p.minPixels then
      let beta := √(p.minPixels / ((height : ℝ) * width))
      .ok (⌈height * beta / factor⌉ * factor, ⌈width * beta / factor⌉ * factor)
    else .ok (hBar, wBar)

end ImageProcessor

/-- Sides that are positive multiples of the factor, and their product within the budget. -/
structure WithinBudget (p : ImageProcessor) (height width : Int) : Prop where
  height_pos : 0 < height
  width_pos : 0 < width
  height_dvd : (p.factor : Int) ∣ height
  width_dvd : (p.factor : Int) ∣ width
  le_area : (p.minPixels : Int) ≤ height * width
  area_le : height * width ≤ p.maxPixels

section Sides

variable {h w : ℝ}

/-- A side that is scaled to an area and counted in units: its square, from the ratio of the sides. -/
theorem scaled_div_sq (hh : 0 < h) (hw : 0 < w) {area : ℝ} (ha : 0 < area) (unit : ℝ) :
    (h / √(h * w / area) / unit) ^ 2 = area / unit ^ 2 * (h / w) := by
  rw [div_pow, scaled_sq hh hw ha]
  ring

theorem scaled_div_mul (hh : 0 < h) (hw : 0 < w) {area : ℝ} (ha : 0 < area) (unit : ℝ) :
    h / √(h * w / area) / unit * (w / √(h * w / area) / unit) = area / unit ^ 2 := by
  rw [div_mul_div_comm, scaled_mul hh hw ha]
  ring

/-- Scaled down to 1280 units, a side of at most 201 times the other one is at least two of them. -/
theorem two_le_scaled (hh : 0 < h) (hw : 0 < w) (hratio : w < 201 * h) :
    2 ≤ h / √(h * w / 1003520) / 28 := by
  have hsq := scaled_div_sq hh hw (by norm_num : (0 : ℝ) < 1003520) 28
  have hpos : 0 ≤ h / √(h * w / 1003520) / 28 := by positivity
  refine (sq_le_sq₀ zero_le_two hpos).mp ?_
  rw [hsq, ← mul_div_assoc, le_div_iff₀ hw]
  linarith

/-- Scaled up to 4 units, a side of at most four times the other one is at most four of them. -/
theorem scaled_le_four (hh : 0 < h) (hw : 0 < w) (hratio : h ≤ 4 * w) :
    h / √(h * w / 3136) / 28 ≤ 4 := by
  have hsq := scaled_div_sq hh hw (by norm_num : (0 : ℝ) < 3136) 28
  have hpos : 0 ≤ h / √(h * w / 3136) / 28 := by positivity
  refine (sq_le_sq₀ hpos zero_le_four).mp ?_
  rw [hsq, ← mul_div_assoc, div_le_iff₀ hw]
  linarith

end Sides

section Default

variable {height width : Int}

/-- The default configuration. -/
def defaultProcessor : ImageProcessor := newImageProcessor {}

theorem withinBudget_units {m n : Int} (hm : 0 < m) (hn : 0 < n) (hlow : 4 ≤ m * n)
    (hhigh : m * n ≤ 1280) : WithinBudget defaultProcessor (m * 28) (n * 28) where
  height_pos := by omega
  width_pos := by omega
  height_dvd := Int.dvd_mul_left m 28
  width_dvd := Int.dvd_mul_left n 28
  le_area := by
    change (3136 : Int) ≤ m * 28 * (n * 28)
    linarith
  area_le := by
    change m * 28 * (n * 28) ≤ (1003520 : Int)
    linarith

/-- Rounded down from an area of 1280 units. -/
theorem shrink_withinBudget {h w : ℝ} (hh : 0 < h) (hw : 0 < w) (hratio : w < 201 * h)
    (hratio' : h < 201 * w) : WithinBudget defaultProcessor
      (⌊h / √(h * w / 1003520) / 28⌋ * 28) (⌊w / √(h * w / 1003520) / 28⌋ * 28) := by
  have hx := two_le_scaled hh hw hratio
  have hy := two_le_scaled hw hh hratio'
  rw [mul_comm w h] at hy
  have hmul := scaled_div_mul hh hw (by norm_num : (0 : ℝ) < 1003520) 28
  have hm : 2 ≤ ⌊h / √(h * w / 1003520) / 28⌋ := Int.le_floor.mpr hx
  have hn : 2 ≤ ⌊w / √(h * w / 1003520) / 28⌋ := Int.le_floor.mpr hy
  have hle := floor_mul_floor_le (zero_le_two.trans hx) (zero_le_two.trans hy)
  refine withinBudget_units (by omega) (by omega) ?_ ?_
  · exact (by norm_num : (4 : Int) = 2 * 2) ▸ mul_le_mul hm hn (by norm_num) (by omega)
  · have hcast : ((1280 : Int) : ℝ) = 1003520 / 28 ^ 2 := by norm_num
    rw [← Int.cast_le (R := ℝ), hcast, ← hmul]
    exact hle

/-- Rounded up from an area of 4 units. -/
theorem grow_withinBudget {h w : ℝ} (hh : 0 < h) (hw : 0 < w) (hratio : h ≤ 4 * w)
    (hratio' : w ≤ 4 * h) : WithinBudget defaultProcessor
      (⌈h / √(h * w / 3136) / 28⌉ * 28) (⌈w / √(h * w / 3136) / 28⌉ * 28) := by
  have hx := scaled_le_four hh hw hratio
  have hy := scaled_le_four hw hh hratio'
  rw [mul_comm w h] at hy
  have hmul := scaled_div_mul hh hw (by norm_num : (0 : ℝ) < 3136) 28
  have hx0 : 0 < h / √(h * w / 3136) / 28 := by positivity
  have hy0 : 0 < w / √(h * w / 3136) / 28 := by positivity
  have hm := Int.ceil_pos.mpr hx0
  have hn := Int.ceil_pos.mpr hy0
  have hm' : ⌈h / √(h * w / 3136) / 28⌉ ≤ 4 := Int.ceil_le.mpr hx
  have hn' : ⌈w / √(h * w / 3136) / 28⌉ ≤ 4 := Int.ceil_le.mpr hy
  have hle := le_ceil_mul_ceil hx0.le hy0.le
  refine withinBudget_units hm hn ?_ ?_
  · have hcast : ((4 : Int) : ℝ) = 3136 / 28 ^ 2 := by norm_num
    rw [← Int.cast_le (R := ℝ), hcast, ← hmul]
    exact hle
  · have hprod := mul_le_mul hm' hn' hn.le zero_le_four
    linarith

theorem lt_mul_of_tdiv (hheight : 28 ≤ height) (hwidth : 28 ≤ width)
    (hratio : (max height width).tdiv (min height width) ≤ 200) :
    height < 201 * width ∧ width < 201 * height := by
  have hmin : 0 < min height width := by omega
  rw [Int.tdiv_eq_ediv_of_nonneg (by omega)] at hratio
  have hlt : max height width / min height width < 201 := by omega
  rw [Int.ediv_lt_iff_lt_mul hmin] at hlt
  omega

theorem one_le_roundToEven (hheight : 28 ≤ height) : 1 ≤ roundToEven ((height : ℝ) / 28) := by
  have hcast : (28 : ℝ) ≤ height := by exact_mod_cast hheight
  have hone : (1 : ℝ) ≤ height / 28 := by
    rw [le_div_iff₀ (by norm_num)]
    linarith
  exact (Int.le_floor.mpr (by exact_mod_cast hone)).trans (floor_le_roundToEven _)

/-- A side that is rounded to three units at most is below four of them. -/
theorem le_of_roundToEven_le (h : roundToEven ((height : ℝ) / 28) ≤ 3) : (height : ℝ) ≤ 112 := by
  have hround := (abs_le.mp (abs_roundToEven_sub_le ((height : ℝ) / 28))).1
  have hcast : (roundToEven ((height : ℝ) / 28) : ℝ) ≤ 3 := by exact_mod_cast h
  have hdiv : (height : ℝ) / 28 ≤ 4 := by linarith
  rw [div_le_iff₀ (by norm_num)] at hdiv
  linarith

/-- An image that is accepted is resized within the budget. -/
theorem smartResize_withinBudget (hheight : 28 ≤ height) (hwidth : 28 ≤ width)
    (hratio : (max height width).tdiv (min height width) ≤ 200) :
    ∃ hBar wBar, defaultProcessor.smartResize height width = .ok (hBar, wBar) ∧
      WithinBudget defaultProcessor hBar wBar := by
  have hh : (28 : ℝ) ≤ height := by exact_mod_cast hheight
  have hw : (28 : ℝ) ≤ width := by exact_mod_cast hwidth
  have hm := one_le_roundToEven hheight
  have hn := one_le_roundToEven hwidth
  obtain ⟨hlt, hlt'⟩ := lt_mul_of_tdiv hheight hwidth hratio
  have hfactor : defaultProcessor.factor = 28 := rfl
  have hmax : defaultProcessor.maxPixels = 1003520 := rfl
  have hmin : defaultProcessor.minPixels = 3136 := rfl
  have hsmall : ¬(height < 28 ∨ width < 28) := by omega
  simp only [ImageProcessor.smartResize, hfactor, hmax, hmin, Nat.cast_ofNat, Int.cast_ofNat, hsmall,
    if_false, gt_iff_lt, Int.not_lt.mpr hratio]
  generalize hmdef : roundToEven ((height : ℝ) / 28) = m at hm
  generalize hndef : roundToEven ((width : ℝ) / 28) = n at hn
  split_ifs with hbig hlow
  · refine ⟨_, _, rfl, shrink_withinBudget (by linarith) (by linarith) ?_ ?_⟩
    · exact_mod_cast hlt'
    · exact_mod_cast hlt
  · have hunits : m * n < 4 := by linarith
    have hm3 : m ≤ 3 := by nlinarith
    have hn3 : n ≤ 3 := by nlinarith
    have hheight' := le_of_roundToEven_le (hmdef ▸ hm3)
    have hwidth' := le_of_roundToEven_le (hndef ▸ hn3)
    rw [mul_sqrt_eq, mul_sqrt_eq]
    exact ⟨_, _, rfl, grow_withinBudget (by linarith) (by linarith) (by linarith) (by linarith)⟩
  · exact ⟨_, _, rfl, withinBudget_units (by omega) (by omega) (by linarith) (by linarith)⟩

theorem smartResize_thin : ∃ hBar wBar, defaultProcessor.smartResize 28 5600 = .ok (hBar, wBar) ∧
    WithinBudget defaultProcessor hBar wBar :=
  smartResize_withinBudget (by decide) (by decide) (by decide)

end Default

end Ecco9.Vision.Qwen25vl
