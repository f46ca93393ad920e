import Ecco9.Library.Grids
import Ecco9.Library.MachineInt

/-! The windows of the vision model of `qwen25vl`: `WindowIndex` in
`model/models/qwen25vl/model_vision.go`. -/

namespace Ecco9.Vision.Qwen25vl

open Ecco9.Library

structure Grid where
  height : Nat
  width : Nat
  temporal : Nat

/-- What `WindowIndex` reads of the options. -/
structure VisionModelOptions where
  windowSize : Nat
  spatialMergeSize : Nat
  patchSize : Nat

def VisionModelOptions.vitMergerWindowSize (m : VisionModelOptions) : Nat :=
  m.windowSize / m.spatialMergeSize / m.patchSize

structure Window where
  hStart : Nat
  wStart : Nat
  hEnd : Nat
  wEnd : Nat

def Window.seqLen (win : Window) : Nat := (win.hEnd - win.hStart) * (win.wEnd - win.wStart)

/-- The indices of a window, as `int32`. -/
def Window.index (win : Window) (llmGridW : Nat) : List Int :=
  cells (List.range' win.hStart (win.hEnd - win.hStart)) (List.range' win.wStart (win.wEnd - win.wStart))
    fun h w => wrap32 (h * llmGridW + w : Nat)

/-- The windows in the order of the loops. The numbers of windows are rounded up as `float64`, which is
exact as long as the sizes are. -/
def windows (llmGridH llmGridW size : Nat) : List Window :=
  (List.range (ceilDiv llmGridH size)).flatMap fun wh =>
    (List.range (ceilDiv llmGridW size)).map fun ww => {
      hStart := wh * size
      wStart := ww * size
      hEnd := min (wh * size + size) llmGridH
      wEnd := min (ww * size + size) llmGridW
    }

structure WindowState where
  index : List Int := []
  bounds : List Nat := [0]
  totalSeqLen : Nat := 0

/-- One round of the loops. -/
def WindowState.add (unit llmGridW : Nat) (st : WindowState) (win : Window) : WindowState where
  index := st.index ++ win.index llmGridW
  totalSeqLen := st.totalSeqLen + win.seqLen
  bounds := st.bounds ++ [(st.totalSeqLen + win.seqLen) * unit + st.bounds.headD 0]

def windowIndex (m : VisionModelOptions) (grid : Grid) : List Int × List Nat :=
  let llmGridH := grid.height / m.spatialMergeSize
  let llmGridW := grid.width / m.spatialMergeSize
  let st := (windows llmGridH llmGridW m.vitMergerWindowSize).foldl
    (WindowState.add (m.spatialMergeSize * m.spatialMergeSize) llmGridW) {}
  (st.index, st.bounds)

/-! ### The state after some windows -/

section Run

variable {unit llmGridW : Nat} {ws : List Window}

/-- The sums of the lengths of the first windows. -/
def boundsOf (unit : Nat) (ws : List Window) : List Nat :=
  (List.range (ws.length + 1)).map fun k => ((ws.map Window.seqLen).take k).sum * unit

theorem boundsOf_concat (unit : Nat) (ws : List Window) (win : Window) :
    boundsOf unit (ws ++ [win]) =
      boundsOf unit ws ++ [((ws.map Window.seqLen).sum + win.seqLen) * unit] := by
  rw [boundsOf, List.length_append, List.length_singleton, List.range_succ, List.map_append,
    List.map_singleton, boundsOf]
  refine congrArg₂ _ (List.map_congr_left fun k hk => ?_) ?_
  · rw [List.map_append, List.take_append_of_le_length]
    rw [List.length_map]
    exact Nat.le_of_lt_succ (List.mem_range.mp hk)
  · rw [List.take_of_length_le (by simp), List.map_append, List.sum_append, List.map_singleton,
      List.sum_singleton]

theorem foldl_add (unit llmGridW : Nat) (ws : List Window) :
    ws.foldl (WindowState.add unit llmGridW) {} = {
      index := ws.flatMap (·.index llmGridW)
      bounds := boundsOf unit ws
      totalSeqLen := (ws.map Window.seqLen).sum
    } := by
  induction ws using List.reverseRecOn with
  | nil => simp [boundsOf]
  | append_singleton ws win ih =>
    have hhead : (boundsOf unit ws).headD 0 = 0 := by simp [boundsOf, List.range_succ_eq_map]
    rw [List.foldl_concat, ih, WindowState.add, boundsOf_concat, List.flatMap_append,
      List.flatMap_singleton, hhead]
    simp

theorem Window.length_index (win : Window) : (win.index llmGridW).length = win.seqLen := by
  rw [index, length_cells, List.length_range', List.length_range', seqLen]

theorem boundsOf_get? {k bound : Nat} (h : (boundsOf unit ws)[k]? = some bound) :
    k ≤ ws.length ∧ bound = ((ws.map Window.seqLen).take k).sum * unit := by
  obtain ⟨i, hi, rfl⟩ := Option.map_eq_some_iff.mp ((List.getElem?_map ..).symm.trans h)
  obtain ⟨hlt, hget⟩ := List.getElem?_eq_some_iff.mp hi
  rw [List.length_range] at hlt
  rw [List.getElem_range] at hget
  exact ⟨Nat.le_of_lt_succ hlt, by rw [hget]⟩

theorem boundsOf_head? : (boundsOf unit ws).head? = some 0 := by
  simp [boundsOf, List.range_succ_eq_map]

theorem boundsOf_getLast? :
    (boundsOf unit ws).getLast? = some ((ws.map Window.seqLen).sum * unit) := by
  rw [boundsOf, List.range_succ, List.map_append, List.map_singleton, List.getLast?_concat,
    List.take_of_length_le (by rw [List.length_map])]

/-- Where no window is empty, the bounds increase. -/
theorem boundsOf_pairwise (hunit : 0 < unit) (hws : ∀ win ∈ ws, 0 < win.seqLen) :
    (boundsOf unit ws).Pairwise (· < ·) := by
  induction ws using List.reverseRecOn with
  | nil => exact List.pairwise_singleton _ _
  | append_singleton ws win ih =>
    rw [boundsOf_concat]
    refine List.pairwise_append.mpr ⟨ih fun w hw => hws w (List.mem_append_left _ hw),
      List.pairwise_singleton _ _, fun bound hbound last hlast => ?_⟩
    obtain ⟨k, hk⟩ := List.mem_iff_getElem?.mp hbound
    obtain ⟨-, rfl⟩ := boundsOf_get? hk
    rw [List.mem_singleton.mp hlast]
    have hsum := (List.sum_take_add_sum_drop (ws.map Window.seqLen) k).symm
    have hwin := hws win (List.mem_append_right _ List.mem_cons_self)
    exact Nat.mul_lt_mul_of_pos_right (by omega) hunit

/-- The entries between two bounds are those of one window. -/
theorem slice_eq (hunit : 0 < unit) {k lo hi : Nat} (hlo : (boundsOf unit ws)[k]? = some lo)
    (hhi : (boundsOf unit ws)[k + 1]? = some hi) : ∃ win ∈ ws,
      ((ws.flatMap (·.index llmGridW)).take (hi / unit)).drop (lo / unit) = win.index llmGridW := by
  obtain ⟨-, rfl⟩ := boundsOf_get? hlo
  obtain ⟨hk, rfl⟩ := boundsOf_get? hhi
  refine ⟨ws[k], List.getElem_mem hk, ?_⟩
  have hlengths : (ws.map (·.index llmGridW)).map List.length = ws.map Window.seqLen := by
    rw [List.map_map]
    exact List.map_congr_left fun win _ => win.length_index
  have hslice := List.drop_take_succ_flatten_eq_getElem (ws.map (·.index llmGridW)) k
    (by rw [List.length_map]; exact hk)
  rw [hlengths, List.getElem_map] at hslice
  rw [Nat.mul_div_cancel _ hunit, Nat.mul_div_cancel _ hunit, List.flatMap_def]
  exact hslice

end Run

/-! ### The partition of the grid -/

/-- The cells of one rectangle of the tiling with squares of size `s`, numbered row by row. -/
def Rectangle (a b s i j : Nat) (x : Int) : Prop :=
  ∃ h w : Nat, h < a ∧ w < b ∧ h / s = i ∧ w / s = j ∧ x = (h * b + w : Nat)

structure Partition (m : VisionModelOptions) (grid : Grid) (index : List Int) (bounds : List Nat) :
    Prop where
  perm : index.Perm (indices (grid.height / m.spatialMergeSize * (grid.width / m.spatialMergeSize)))
  first : bounds.head? = some 0
  increasing : bounds.Pairwise (· < ·)
  last : bounds.getLast? = some (grid.height * grid.width)
  window : ∀ (k lo hi : Nat), bounds[k]? = some lo → bounds[k + 1]? = some hi → ∃ i j, ∀ x,
    x ∈ (index.take (hi / (m.spatialMergeSize * m.spatialMergeSize))).drop
      (lo / (m.spatialMergeSize * m.spatialMergeSize)) ↔
    Rectangle (grid.height / m.spatialMergeSize) (grid.width / m.spatialMergeSize)
      m.vitMergerWindowSize i j x
  gather : ∀ (α : Type) (rows : List α) (positions : List Int),
    rows.length = grid.height / m.spatialMergeSize * (grid.width / m.spatialMergeSize) →
    IsArgsort index positions → (gather rows index).bind (gather · positions) = some rows

section Partition

variable {a b s : Nat}

theorem mem_windows {win : Window} : win ∈ windows a b s ↔
    ∃ wh < ceilDiv a s, ∃ ww < ceilDiv b s, win = {
      hStart := wh * s
      wStart := ww * s
      hEnd := min (wh * s + s) a
      wEnd := min (ww * s + s) b
    } := by
  simp only [windows, List.mem_flatMap, List.mem_map, List.mem_range, eq_comm]

theorem seqLen_pos (hs : 0 < s) {win : Window} (h : win ∈ windows a b s) : 0 < win.seqLen := by
  obtain ⟨wh, hwh, ww, hww, rfl⟩ := mem_windows.mp h
  have hrow := mul_lt_of_lt_ceilDiv hs hwh
  have hcol := mul_lt_of_lt_ceilDiv hs hww
  exact Nat.mul_pos (by dsimp only; omega) (by dsimp only; omega)

/-- All indices are those of the cells, as `int32`. -/
theorem windows_index_perm (a b : Nat) (hs : 0 < s) :
    ((windows a b s).flatMap (·.index b)).Perm
      ((List.range (a * b)).map fun x => wrap32 (x : Nat)) := by
  have heq : (windows a b s).flatMap (·.index b) =
      (List.range (ceilDiv a s)).flatMap fun wh => (List.range (ceilDiv b s)).flatMap fun ww =>
        cells (part a s wh) (part b s ww) fun h w => wrap32 (h * b + w : Nat) := by
    rw [windows, List.flatMap_assoc]
    simp only [List.flatMap_map]
    rfl
  rw [heq, ← cells_number, map_cells]
  exact cells_perm a b hs _

theorem wrap32_natCast {x : Nat} (hx : x < 2 ^ 31) : wrap32 x = x :=
  wrap32_of_range (by omega) (by omega)

theorem windows_perm (hs : 0 < s) (hcells : a * b ≤ 2 ^ 31) :
    ((windows a b s).flatMap (·.index b)).Perm (indices (a * b)) := by
  refine (windows_index_perm a b hs).trans (List.Perm.of_eq (List.map_congr_left fun x hx => ?_))
  exact wrap32_natCast (Nat.lt_of_lt_of_le (List.mem_range.mp hx) hcells)

/-- With more cells the first index that does not fit is negative. -/
theorem not_windows_perm (hs : 0 < s) (hcells : 2 ^ 31 < a * b) :
    ¬((windows a b s).flatMap (·.index b)).Perm (indices (a * b)) := by
  intro hperm
  have hmem : wrap32 (2 ^ 31 : Nat) ∈ (windows a b s).flatMap (·.index b) :=
    (windows_index_perm a b hs).mem_iff.mpr (List.mem_map.mpr ⟨2 ^ 31, List.mem_range.mpr hcells, rfl⟩)
  obtain ⟨i, -, hi⟩ := List.mem_map.mp (hperm.mem_iff.mp hmem)
  have hneg : wrap32 (2 ^ 31 : Nat) < 0 := by decide
  have hpos : 0 ≤ Int.ofNat i := Int.natCast_nonneg i
  omega

theorem sum_seqLen (a b : Nat) (hs : 0 < s) : ((windows a b s).map Window.seqLen).sum = a * b := by
  have hlen := (windows_index_perm a b hs).length_eq
  rw [List.length_map, List.length_range, List.length_flatMap] at hlen
  rw [← hlen]
  exact congrArg _ (List.map_congr_left fun win _ => win.length_index.symm)

theorem mem_index (hs : 0 < s) (hcells : a * b ≤ 2 ^ 31) {win : Window} (h : win ∈ windows a b s) :
    ∃ i j, ∀ x, x ∈ win.index b ↔ Rectangle a b s i j x := by
  obtain ⟨wh, -, ww, -, rfl⟩ := mem_windows.mp h
  refine ⟨wh, ww, fun x => ?_⟩
  change x ∈ cells (part a s wh) (part b s ww) _ ↔ _
  rw [mem_cells]
  have hwrap {h w : Nat} (hh : h < a) (hw : w < b) : wrap32 (h * b + w : Nat) = (h * b + w : Nat) := by
    have hle : (h + 1) * b ≤ a * b := Nat.mul_le_mul_right b hh
    rw [Nat.succ_mul] at hle
    exact wrap32_natCast (by omega)
  constructor
  · rintro ⟨h, hh, w, hw, rfl⟩
    obtain ⟨hh, hi⟩ := (mem_part hs).mp hh
    obtain ⟨hw, hj⟩ := (mem_part hs).mp hw
    exact ⟨h, w, hh, hw, hi, hj, hwrap hh hw⟩
  · rintro ⟨h, w, hh, hw, hi, hj, rfl⟩
    exact ⟨h, (mem_part hs).mpr ⟨hh, hi⟩, w, (mem_part hs).mpr ⟨hw, hj⟩, hwrap hh hw⟩

end Partition

/-- The windows are a partition of the grid just when the numbers of its cells are in `int32`. -/
theorem windowIndex_partition {m : VisionModelOptions} {grid : Grid} (hmerge : 0 < m.spatialMergeSize)
    (hwindow : 1 ≤ m.vitMergerWindowSize) (hheight : m.spatialMergeSize ∣ grid.height)
    (hwidth : m.spatialMergeSize ∣ grid.width) :
    Partition m grid (windowIndex m grid).1 (windowIndex m grid).2 ↔
      grid.height / m.spatialMergeSize * (grid.width / m.spatialMergeSize) ≤ 2 ^ 31 := by
  have hunit : 0 < m.spatialMergeSize * m.spatialMergeSize := Nat.mul_pos hmerge hmerge
  have harea : grid.height / m.spatialMergeSize * (grid.width / m.spatialMergeSize) *
      (m.spatialMergeSize * m.spatialMergeSize) = grid.height * grid.width := by
    obtain ⟨a, ha⟩ := hheight
    obtain ⟨b, hb⟩ := hwidth
    rw [ha, hb, Nat.mul_div_cancel_left _ hmerge, Nat.mul_div_cancel_left _ hmerge]
    ac_rfl
  simp only [windowIndex, foldl_add]
  constructor
  · intro h
    by_contra hcells
    exact not_windows_perm hwindow (Nat.lt_of_not_le hcells) h.perm
  · intro hcells
    have hperm := windows_perm hwindow hcells
    exact {
      perm := hperm
      first := boundsOf_head?
      increasing := boundsOf_pairwise hunit fun win hwin => seqLen_pos hwindow hwin
      last := by rw [boundsOf_getLast?, sum_seqLen _ _ hwindow, harea]
      window := by
        intro k lo hi hlo hhi
        obtain ⟨win, hwin, hslice⟩ := slice_eq hunit hlo hhi
        rw [hslice]
        exact mem_index hwindow hcells hwin
      gather := by
        intro α rows positions hrows hsort
        exact gather_argsort (hrows ▸ hperm) hsort
    }

def defaultOptions : VisionModelOptions where
  windowSize := 112
  spatialMergeSize := 2
  patchSize := 14

theorem smallGrid_partition : Partition defaultOptions { height := 6, width := 10, temporal := 1 }
    (windowIndex defaultOptions { height := 6, width := 10, temporal := 1 }).1
    (windowIndex defaultOptions { height := 6, width := 10, temporal := 1 }).2 :=
  (windowIndex_partition (by decide) (by decide) (by decide) (by decide)).mpr (by decide)

/-- A grid of `2 ^ 32` merged cells. -/
theorem largeGrid_not_partition :
    ¬Partition defaultOptions { height := 131072, width := 131072, temporal := 1 }
      (windowIndex defaultOptions { height := 131072, width := 131072, temporal := 1 }).1
      (windowIndex defaultOptions { height := 131072, width := 131072, temporal := 1 }).2 := by
  intro h
  have hperm := h.perm
  simp only [windowIndex, foldl_add] at hperm
  exact not_windows_perm (by decide) (by decide) hperm

end Ecco9.Vision.Qwen25vl
