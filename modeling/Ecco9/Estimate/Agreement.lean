import Ecco9.Estimate.Placement
import Ecco9.Library.Cuts
import Mathlib.Algebra.BigOperators.Ring.Finset
import Mathlib.Order.Interval.Finset.Nat
import Mathlib.Tactic.Ring

/-! The assignment of layers to GPUs in `New` of `ml/backend/ggml/ggml.go`, with exact fractions; the layers
that it gives to the GPUs, and the sizes that the estimate has for them. -/

namespace Ecco9.Estimate

open Ecco9.Library

/-- `NumGPULayers` and `TensorSplit` of the parameters, the blocks of the model, and the free memory
of each GPU. -/
structure Backend where
  blocks : Nat
  numGPULayers : Nat
  tensorSplit : List ℚ
  memory : List ℚ

namespace Backend

variable (b : Backend)

def useDefaultSplit : Bool := b.tensorSplit.all fun s => s = 0

def split : List ℚ := if b.useDefaultSplit then b.memory else b.tensorSplit

/-- The splits, added up and normalized. -/
def splits : List ℚ := (cumulative 0 b.split).map fun f => f / b.split.sum

def gpuRangeStart : Nat := b.blocks - b.numGPULayers

def gpuRangeStop : Nat := min (b.gpuRangeStart + b.numGPULayers) (b.blocks + 1)

/-- The GPU of a layer; the output is the layer `blocks`, and `none` is the CPU. -/
def assignLayer (i : Nat) : Option Nat :=
  if i < b.gpuRangeStart ∨ i ≥ b.gpuRangeStop then none
  else
    let r : ℚ := (i - b.gpuRangeStart : Nat) / (b.gpuRangeStop - b.gpuRangeStart : Nat)
    match b.splits.findIdx? fun f => r < f with
    | some index => if index < b.memory.length then some index else none
    | none => none

/-- The layers of a GPU, with the output. -/
def assigned (j : Nat) : Finset Nat :=
  (Finset.range (b.blocks + 1)).filter fun i => b.assignLayer i = some j

section

variable {b : Backend} {counts : List Nat} {i j : Nat}

theorem range_length (layers : b.numGPULayers = counts.sum) (le : counts.sum ≤ b.blocks + 1) :
    b.gpuRangeStop = b.gpuRangeStart + counts.sum := by
  simp only [gpuRangeStop, gpuRangeStart]
  omega

/-- A GPU with `counts[j]` layers gets the next `counts[j]` layers of the range. -/
theorem assignLayer_eq_some (split : b.tensorSplit = counts.map (↑))
    (layers : b.numGPULayers = counts.sum) (pos : 0 < counts.sum) (le : counts.sum ≤ b.blocks + 1)
    (gpus : b.memory.length = counts.length) : b.assignLayer i = some j ↔
      b.gpuRangeStart + (counts.take j).sum ≤ i ∧
        i < b.gpuRangeStart + (counts.take (j + 1)).sum := by
  have stop := range_length layers le
  have hnotDefault : b.useDefaultSplit = false := by
    rw [useDefaultSplit, Bool.eq_false_iff]
    intro hall
    obtain ⟨c, hc, hpos⟩ : ∃ c ∈ counts, c ≠ 0 := by
      by_contra hzero
      push Not at hzero
      exact absurd (List.sum_eq_zero hzero) (by omega)
    have := List.all_eq_true.mp hall c (split ▸ List.mem_map_of_mem hc)
    simp [hpos] at this
  have hsplit : b.split = counts.map (↑) := by simp [Backend.split, hnotDefault, split]
  have hprefix : ∀ k, ((counts.map ((↑) : Nat → ℚ)).take k).sum = ((counts.take k).sum : Nat) := by
    intro k
    rw [← List.map_take, Nat.cast_list_sum]
  have hsum : (counts.map ((↑) : Nat → ℚ)).sum = (counts.sum : Nat) := (Nat.cast_list_sum _).symm
  by_cases out : i < b.gpuRangeStart ∨ i ≥ b.gpuRangeStop
  · have hle := take_sum_le counts (j + 1)
    simp only [assignLayer, if_pos out, reduceCtorEq, false_iff]
    omega
  · obtain ⟨k, rfl⟩ : ∃ k, i = b.gpuRangeStart + k := ⟨i - b.gpuRangeStart, by omega⟩
    have hlen : b.gpuRangeStop - b.gpuRangeStart = counts.sum := by omega
    have hk : b.gpuRangeStart + k - b.gpuRangeStart = k := by omega
    have hposQ : (0 : ℚ) < (counts.sum : Nat) := by exact_mod_cast pos
    have hfind : b.splits.findIdx? (fun f => decide (((k : Nat) : ℚ) / (counts.sum : Nat) < f)) =
        (cumulative 0 (counts.map (↑))).findIdx? fun f => decide ((k : ℚ) < f) := by
      rw [splits, hsplit, List.findIdx?_map, hsum]
      congr 1
      funext f
      simp only [Function.comp_apply, decide_eq_decide]
      exact div_lt_div_iff_of_pos_right hposQ
    have hnonneg : ∀ x ∈ counts.map ((↑) : Nat → ℚ), 0 ≤ x := by
      intro x hx
      obtain ⟨c, -, rfl⟩ := List.mem_map.mp hx
      exact Nat.cast_nonneg c
    have hiff : ∀ j, (cumulative 0 (counts.map ((↑) : Nat → ℚ))).findIdx? (fun f => decide ((k : ℚ) < f)) =
        some j ↔ (counts.take j).sum ≤ k ∧ k < (counts.take (j + 1)).sum := by
      intro j
      rw [findIdx?_cumulative hnonneg (Nat.cast_nonneg k), zero_add, zero_add, hprefix, hprefix,
        Nat.cast_le, Nat.cast_lt]
    simp only [assignLayer, if_neg out, hlen, hk, hfind]
    have hgoal : (b.gpuRangeStart + (counts.take j).sum ≤ b.gpuRangeStart + k ∧
        b.gpuRangeStart + k < b.gpuRangeStart + (counts.take (j + 1)).sum) ↔
          (counts.take j).sum ≤ k ∧ k < (counts.take (j + 1)).sum := by omega
    rw [hgoal, ← hiff]
    cases hcase : (cumulative 0 (counts.map ((↑) : Nat → ℚ))).findIdx? fun f => decide ((k : ℚ) < f) with
    | none => rfl
    | some index =>
      have hlt : index < b.memory.length := by
        have := (List.findIdx?_eq_some_iff_getElem.mp hcase).1
        rwa [length_cumulative, List.length_map, ← gpus] at this
      simp only [hlt, if_pos]

/-- It gets as many as that. -/
theorem assigned_eq (split : b.tensorSplit = counts.map (↑))
    (layers : b.numGPULayers = counts.sum) (pos : 0 < counts.sum) (le : counts.sum ≤ b.blocks + 1)
    (gpus : b.memory.length = counts.length) :
    b.assigned j = Finset.Ico (b.gpuRangeStart + (counts.take j).sum)
      (b.gpuRangeStart + (counts.take (j + 1)).sum) := by
  have hle := take_sum_le counts (j + 1)
  have hstart : b.gpuRangeStart + counts.sum ≤ b.blocks + 1 := by
    simp only [gpuRangeStart]
    omega
  ext i
  rw [assigned, Finset.mem_filter, Finset.mem_range, Finset.mem_Ico,
    assignLayer_eq_some split layers pos le gpus]
  omega

theorem card_assigned (split : b.tensorSplit = counts.map (↑))
    (layers : b.numGPULayers = counts.sum) (pos : 0 < counts.sum) (le : counts.sum ≤ b.blocks + 1)
    (gpus : b.memory.length = counts.length) (hj : j < counts.length) :
    (b.assigned j).card = counts[j] := by
  rw [assigned_eq split layers pos le gpus, Nat.card_Ico, List.sum_take_succ counts j hj]
  omega

/-- The layers on GPUs are the last blocks, and the output if there are more layers than blocks. -/
theorem exists_assignLayer (split : b.tensorSplit = counts.map (↑))
    (layers : b.numGPULayers = counts.sum) (pos : 0 < counts.sum) (le : counts.sum ≤ b.blocks + 1)
    (gpus : b.memory.length = counts.length) :
    (∃ j, b.assignLayer i = some j) ↔
      b.gpuRangeStart ≤ i ∧ i < b.gpuRangeStart + counts.sum := by
  simp only [assignLayer_eq_some split layers pos le gpus]
  constructor
  · rintro ⟨j, hlo, hhi⟩
    have hle := take_sum_le counts (j + 1)
    omega
  · rintro ⟨hlo, hhi⟩
    obtain ⟨j, hj⟩ := exists_take_sum (l := counts) (k := i - b.gpuRangeStart) (by omega)
    exact ⟨j, by omega⟩

end

end Backend

open Finset (sum_add_distrib)

/-! ### The backend of an estimate -/

/-- The backend on the same GPUs, with the layers and the splits of the estimate. -/
def backend (m : Model) (gpus : List Gpu) (e : MemoryEstimate) : Backend where
  blocks := m.blockCount
  numGPULayers := e.layers
  tensorSplit := e.tensorSplit.map (↑)
  memory := gpus.map fun g => g.freeMemory

/-- What the layers take that the backend assigns to a GPU. -/
def gpuLoad (m : Model) (o : Options) (b : Backend) (j : Nat) : Nat :=
  ∑ i ∈ b.assigned j, m.loadSize o i

/-- The blocks take between `lo` and `hi`. -/
structure Model.Between (m : Model) (lo hi : Nat) : Prop extends m.AtLeast lo where
  most : ∀ i < m.blockCount, (m.blk i).getD 0 + m.kv i ≤ hi

section

variable {m : Model} {o : Options} {library : Library} {gpus : List Gpu} {lo hi : Nat}

/-! ### What the estimate has placed -/

theorem Model.atLeast_zero (m : Model) : m.AtLeast 0 := ⟨Nat.zero_le _, fun _ _ _ _ => Nat.zero_le _⟩

variable (m o library gpus) in
theorem place_budget :
    Budget m gpus 0 (startSpace m o library gpus).gpusWithSpace (place m o library gpus) ∧
      (place m o library gpus).layerCount ≤ m.blockCount + 1 := by
  obtain ⟨h, hle⟩ := placeLayers_budget o library gpus
    m.atLeast_zero
  obtain heq | ⟨-, -, g, hg, -, heq⟩ := place_cases m o library gpus
  · rw [heq]
    exact ⟨{ h with }, hle.trans (Nat.le_succ _)⟩
  · rw [heq]
    exact ⟨h.put hg (m.memoryLastLayer o) (Nat.zero_le _), Nat.succ_le_succ hle⟩

/-- A GPU with layers has its minimum, the buffer, and as much as its layers take, one of which may
be the output. -/
theorem place_least (least : m.AtLeast lo) {j : Nat}
    (hj : (place m o library gpus).layerCounts j ≠ 0) :
    ∃ c, ((place m o library gpus).layerCounts j = c ∧
        minimumMemory gpus j + m.buffer + lo * c ≤ (place m o library gpus).gpuAllocations j) ∨
      (place m o library gpus).layerCounts j = c + 1 ∧
        minimumMemory gpus j + m.buffer + lo * c + m.memoryLastLayer o ≤
          (place m o library gpus).gpuAllocations j := by
  obtain ⟨h, -⟩ := placeLayers_budget o library gpus least
  obtain heq | ⟨-, -, g, hg, -, heq⟩ := place_cases m o library gpus
  · rw [heq] at hj ⊢
    exact ⟨_, .inl ⟨rfl, h.least j (h.counted j hj)⟩⟩
  · rw [heq] at hj ⊢
    by_cases hjg : j = g
    · subst hjg
      have hleast := h.least j (h.subset hg)
      simp only [Alloc.put, Alloc.allocate, if_true]
      exact ⟨_, .inr ⟨rfl, Nat.add_le_add_right hleast _⟩⟩
    · simp only [Alloc.put, Alloc.allocate, if_neg hjg] at hj ⊢
      exact ⟨_, .inl ⟨rfl, h.least j (h.counted j hj)⟩⟩

variable (o library gpus) in
/-- The GPUs with layers have together what the last layers take, over what they had at first. -/
theorem place_total (tensors : ∀ i < m.blockCount, ∃ size, m.blk i = some size) :
    (∀ j, (place m o library gpus).layerCounts j = 0 →
      (place m o library gpus).gpuAllocations j =
        (startSpace m o library gpus).gpuAllocations j) ∧
    ∑ j ∈ Finset.range gpus.length, (place m o library gpus).gpuAllocations j =
      ∑ j ∈ Finset.range gpus.length, (startSpace m o library gpus).gpuAllocations j +
        ∑ i ∈ Finset.Ico (m.blockCount - (place m o library gpus).layerCount)
          (m.blockCount - (place m o library gpus).layerCount +
            (place m o library gpus).layerCount), m.loadSize o i := by
  have h := placeLayers_filled o library gpus tensors
  obtain ⟨hbudget, hle⟩ := placeLayers_budget o library gpus
    m.atLeast_zero
  obtain heq | ⟨-, hall, g, hg, -, heq⟩ := place_cases m o library gpus
  · rw [heq]
    refine ⟨h.untouched, h.total.trans ?_⟩
    dsimp only
    rw [Nat.sub_add_cancel hle]
  · rw [heq]
    refine ⟨fun j hj => ?_, ?_⟩
    · have hjg : j ≠ g := by
        rintro rfl
        simp [Alloc.put] at hj
      simp only [Alloc.put, Alloc.allocate, if_neg hjg] at hj ⊢
      exact h.untouched j hj
    · have hput := sum_bump (placeLayers m o library gpus).gpuAllocations (m.memoryLastLayer o)
        (hbudget.lt g (hbudget.subset hg))
      have hfrom : m.blockCount - (m.blockCount + 1) = 0 := by omega
      have hlast : m.loadSize o m.blockCount = m.memoryLastLayer o := if_pos rfl
      simp only [Alloc.put, Alloc.allocate]
      rw [hput, h.total, hall, hfrom, Nat.sub_self, Nat.zero_add,
        Finset.sum_Ico_succ_top (Nat.zero_le _), hlast, Nat.add_assoc]

/-- The counts, as the list that the backend gets. -/
def layerCounts (m : Model) (o : Options) (library : Library) (gpus : List Gpu) : List Nat :=
  (List.range gpus.length).map (place m o library gpus).layerCounts

theorem estimate_of_loaded (many : 2 ≤ gpus.length)
    (loaded : 0 < (estimateGPULayers m o library gpus).layers) :
    (estimateGPULayers m o library gpus).layers = (place m o library gpus).layerCount ∧
      (estimateGPULayers m o library gpus).graph = graphOffload m o library gpus ∧
      (estimateGPULayers m o library gpus).tensorSplit = layerCounts m o library gpus ∧
      (estimateGPULayers m o library gpus).gpuSizes =
        (List.range gpus.length).map (gpuSize m o library gpus) := by
  unfold estimateGPULayers at loaded ⊢
  dsimp only at loaded ⊢
  split at loaded
  · exact absurd loaded (Nat.lt_irrefl 0)
  · rename_i hloaded
    rw [if_neg hloaded]
    exact ⟨rfl, rfl, if_pos many, rfl⟩

/-! ### What the backend assigns -/

variable (m o library gpus) in
theorem layerCounts_sum : (layerCounts m o library gpus).sum = (place m o library gpus).layerCount :=
  (place_budget m o library gpus).1.sum.symm

/-- The backend gets the counts of the estimate as its splits. -/
theorem backend_assigned (many : 2 ≤ gpus.length)
    (loaded : 0 < (estimateGPULayers m o library gpus).layers) (j : Nat) :
    (backend m gpus (estimateGPULayers m o library gpus)).assigned j =
      Finset.Ico (m.blockCount - (place m o library gpus).layerCount +
          ((layerCounts m o library gpus).take j).sum)
        (m.blockCount - (place m o library gpus).layerCount +
          ((layerCounts m o library gpus).take (j + 1)).sum) := by
  obtain ⟨hlayers, -, hsplit, -⟩ := estimate_of_loaded many loaded
  have hsum := layerCounts_sum m o library gpus
  have hle := (place_budget m o library gpus).2
  rw [Backend.assigned_eq (congrArg (List.map ((↑) : Nat → ℚ)) hsplit) (hlayers.trans hsum.symm) (by omega) (by
      rw [hsum]
      exact hle) (by simp [backend, layerCounts])]
  simp only [Backend.gpuRangeStart, backend, hlayers]

variable (m o library) in
theorem sum_take_layerCounts {j : Nat} (hj : j < gpus.length) :
    ((layerCounts m o library gpus).take (j + 1)).sum =
      ((layerCounts m o library gpus).take j).sum + (place m o library gpus).layerCounts j := by
  have hj' : j < (layerCounts m o library gpus).length := by simpa [layerCounts] using hj
  rw [List.sum_take_succ _ j hj']
  simp [layerCounts]

/-- The GPUs up to one have the layers up to its last. -/
theorem sum_gpuLoad (many : 2 ≤ gpus.length)
    (loaded : 0 < (estimateGPULayers m o library gpus).layers) (k : Nat) :
    ∑ j ∈ Finset.range k, gpuLoad m o (backend m gpus (estimateGPULayers m o library gpus)) j =
      ∑ i ∈ Finset.Ico (m.blockCount - (place m o library gpus).layerCount)
        (m.blockCount - (place m o library gpus).layerCount +
          ((layerCounts m o library gpus).take k).sum), m.loadSize o i := by
  induction k with
  | zero => simp
  | succ k ih =>
    have hmono : ((layerCounts m o library gpus).take k).sum ≤
        ((layerCounts m o library gpus).take (k + 1)).sum := by
      rw [List.take_add, List.sum_append]
      exact Nat.le_add_right _ _
    rw [Finset.sum_range_succ, ih, gpuLoad, backend_assigned many loaded,
      Finset.sum_Ico_consecutive _ (Nat.le_add_right _ _) (by omega)]

/-- A range of layers without the output, and one with it. -/
theorem sum_loadSize_le (between : m.Between lo hi) {s t : Nat} (ht : t ≤ m.blockCount + 1)
    (hst : s < t) :
    ∑ i ∈ Finset.Ico s t, m.loadSize o i ≤ hi * (t - s) ∨
      ∑ i ∈ Finset.Ico s t, m.loadSize o i ≤ hi * (t - s - 1) + m.memoryLastLayer o := by
  have blocks : ∀ t ≤ m.blockCount, ∑ i ∈ Finset.Ico s t, m.loadSize o i ≤ hi * (t - s) := by
    intro t ht
    refine (Finset.sum_le_card_nsmul _ _ hi fun i hi' => ?_).trans_eq ?_
    · have hlt : i < m.blockCount := (Finset.mem_Ico.mp hi').2.trans_le ht
      rw [Model.loadSize, if_neg (Nat.ne_of_lt hlt)]
      exact between.most i hlt
    · rw [Nat.card_Ico, nsmul_eq_mul, Nat.cast_id, Nat.mul_comm]
  rcases Nat.lt_or_ge m.blockCount t with hlt | hge
  · obtain rfl : t = m.blockCount + 1 := by omega
    have hlast : m.loadSize o m.blockCount = m.memoryLastLayer o := if_pos rfl
    have hlen : m.blockCount + 1 - s - 1 = m.blockCount - s := by omega
    rw [Finset.sum_Ico_succ_top (by omega), hlast, hlen]
    exact .inr (Nat.add_le_add_right (blocks _ (Nat.le_refl _)) _)
  · exact .inl (blocks t hge)

/-- The layers of the backend against the estimate, on at least two GPUs. -/
structure Agreement (m : Model) (o : Options) (gpus : List Gpu) (e : MemoryEstimate) : Prop where
  counts : ∀ j < gpus.length, e.tensorSplit[j]? = some ((backend m gpus e).assigned j).card
  layers : ∀ i, (∃ j, i ∈ (backend m gpus e).assigned j) ↔
    m.blockCount - e.layers ≤ i ∧ i < m.blockCount - e.layers + e.layers
  total : (∀ i < m.blockCount, ∃ size, m.blk i = some size) →
    ∑ j ∈ Finset.range gpus.length with e.tensorSplit.getD j 0 ≠ 0,
        (gpuLoad m o (backend m gpus e) j + m.buffer + e.graph + minimumMemory gpus j) ≤
      ∑ j ∈ Finset.range gpus.length with e.tensorSplit.getD j 0 ≠ 0, e.gpuSizes.getD j 0
  each : ∀ lo hi, m.Between lo hi → ∀ j < gpus.length, e.tensorSplit.getD j 0 ≠ 0 →
    gpuLoad m o (backend m gpus e) j + m.buffer + e.graph + minimumMemory gpus j ≤
      e.gpuSizes.getD j 0 + e.tensorSplit.getD j 0 * (hi - lo) +
        ((m.memoryLastLayer o - lo) + (lo - m.memoryLastLayer o))

/-- A GPU's share of the range of layers against what is placed on it, when the layers take between
`lo` and `hi`. -/
theorem gpuLoad_le (many : 2 ≤ gpus.length)
    (loaded : 0 < (estimateGPULayers m o library gpus).layers) (between : m.Between lo hi)
    {j : Nat} (hj : j < gpus.length) (hne : (place m o library gpus).layerCounts j ≠ 0) :
    gpuLoad m o (backend m gpus (estimateGPULayers m o library gpus)) j + m.buffer +
        minimumMemory gpus j ≤
      (place m o library gpus).gpuAllocations j +
        (place m o library gpus).layerCounts j * (hi - lo) +
          ((m.memoryLastLayer o - lo) + (lo - m.memoryLastLayer o)) := by
  have hle := (place_budget m o library gpus).2
  have htake := take_sum_le (layerCounts m o library gpus) (j + 1)
  have hcount := sum_take_layerCounts m o library hj
  rw [layerCounts_sum] at htake
  rw [gpuLoad, backend_assigned many loaded]
  have hload := sum_loadSize_le (o := o) between
    (s := m.blockCount - (place m o library gpus).layerCount +
      ((layerCounts m o library gpus).take j).sum)
    (t := m.blockCount - (place m o library gpus).layerCount +
      ((layerCounts m o library gpus).take (j + 1)).sum) (by omega) (by omega)
  rw [hcount, Nat.add_sub_add_left, Nat.add_sub_cancel_left] at hload
  rw [hcount]
  generalize ∑ i ∈ Finset.Ico _ _, m.loadSize o i = load at hload ⊢
  have hhi : ∀ c, hi * c ≤ lo * c + c * (hi - lo) := by
    intro c
    rw [Nat.mul_comm c, ← Nat.add_mul]
    exact Nat.mul_le_mul_right c (by omega)
  obtain ⟨c, ⟨hc, hleast⟩ | ⟨hc, hleast⟩⟩ := place_least between.toAtLeast hne
  · rw [hc] at hload hne ⊢
    rcases hload with hload | hload
    · have := hhi c
      omega
    · -- the output is here, but a block is budgeted in its place
      obtain ⟨d, rfl⟩ : ∃ d, c = d + 1 := ⟨c - 1, by omega⟩
      have := hhi d
      rw [Nat.add_sub_cancel] at hload
      rw [Nat.mul_add, Nat.mul_one] at hleast
      rw [Nat.add_mul, Nat.one_mul]
      omega
  · rw [hc] at hload ⊢
    rcases hload with hload | hload
    · -- the output is budgeted here, but a block is in its place
      have := hhi (c + 1)
      rw [Nat.mul_add lo, Nat.mul_one] at this
      omega
    · have := hhi c
      rw [Nat.add_sub_cancel] at hload
      rw [Nat.add_mul, Nat.one_mul]
      omega

/-- The GPUs with layers have together what they are given. -/
theorem sum_gpuLoad_le (many : 2 ≤ gpus.length)
    (loaded : 0 < (estimateGPULayers m o library gpus).layers)
    (tensors : ∀ i < m.blockCount, ∃ size, m.blk i = some size) :
    ∑ j ∈ Finset.range gpus.length with (place m o library gpus).layerCounts j ≠ 0,
        (gpuLoad m o (backend m gpus (estimateGPULayers m o library gpus)) j + m.buffer +
          minimumMemory gpus j) ≤
      ∑ j ∈ Finset.range gpus.length with (place m o library gpus).layerCounts j ≠ 0,
        (place m o library gpus).gpuAllocations j := by
  obtain ⟨budget, -⟩ := place_budget m o library gpus
  have fresh := startSpace_fresh o library gpus (Nat.zero_le m.buffer)
  obtain ⟨untouched, total⟩ := place_total o library gpus tensors
  have hload : ∑ j ∈ Finset.range gpus.length with (place m o library gpus).layerCounts j ≠ 0,
      gpuLoad m o (backend m gpus (estimateGPULayers m o library gpus)) j =
        ∑ i ∈ Finset.Ico (m.blockCount - (place m o library gpus).layerCount)
          (m.blockCount - (place m o library gpus).layerCount +
            (place m o library gpus).layerCount), m.loadSize o i := by
    rw [Finset.sum_filter_of_ne, sum_gpuLoad many loaded, List.take_of_length_le,
      layerCounts_sum]
    · simp [layerCounts]
    · intro j hj hload hzero
      apply hload
      rw [gpuLoad, backend_assigned many loaded,
        sum_take_layerCounts m o library (Finset.mem_range.mp hj), hzero, Nat.add_zero, Finset.Ico_self,
        Finset.sum_empty]
  have hstart : ∑ j ∈ Finset.range gpus.length with (place m o library gpus).layerCounts j ≠ 0,
      (m.buffer + minimumMemory gpus j) ≤
        ∑ j ∈ Finset.range gpus.length with (place m o library gpus).layerCounts j ≠ 0,
          (startSpace m o library gpus).gpuAllocations j := by
    refine Finset.sum_le_sum fun j hj => ?_
    have hleast := fresh.least j (budget.counted j (Finset.mem_filter.mp hj).2)
    omega
  have hrest : ∑ j ∈ Finset.range gpus.length with ¬ (place m o library gpus).layerCounts j ≠ 0,
      (place m o library gpus).gpuAllocations j =
        ∑ j ∈ Finset.range gpus.length with ¬ (place m o library gpus).layerCounts j ≠ 0,
          (startSpace m o library gpus).gpuAllocations j :=
    Finset.sum_congr rfl fun j hj => untouched j (not_not.mp (Finset.mem_filter.mp hj).2)
  rw [← Finset.sum_filter_add_sum_filter_not (Finset.range gpus.length)
    (fun j => (place m o library gpus).layerCounts j ≠ 0),
    ← Finset.sum_filter_add_sum_filter_not (Finset.range gpus.length)
    (fun j => (place m o library gpus).layerCounts j ≠ 0)
    (fun j => (startSpace m o library gpus).gpuAllocations j), hrest] at total
  simp only [Nat.add_assoc, sum_add_distrib] at hstart ⊢
  rw [hload]
  omega

/-- The counts are those of the estimate, and so are the sizes of all GPUs together. -/
theorem placement (many : 2 ≤ gpus.length)
    (loaded : 0 < (estimateGPULayers m o library gpus).layers) :
    Agreement m o gpus (estimateGPULayers m o library gpus) := by
  obtain ⟨hlayers, hgraph, hsplit, hsizes⟩ := estimate_of_loaded many loaded
  have count : ∀ j < gpus.length, (estimateGPULayers m o library gpus).tensorSplit.getD j 0 =
      (place m o library gpus).layerCounts j := by
    intro j hj
    simp [hsplit, layerCounts, hj]
  have size : ∀ j < gpus.length, (place m o library gpus).layerCounts j ≠ 0 →
      (estimateGPULayers m o library gpus).gpuSizes.getD j 0 =
        (place m o library gpus).gpuAllocations j + (estimateGPULayers m o library gpus).graph := by
    intro j hj hne
    simp [hsizes, hj, gpuSize, hne, hgraph]
  exact {
    counts := fun j hj => by
      rw [backend_assigned many loaded, Nat.card_Ico, sum_take_layerCounts m o library hj,
        Nat.add_sub_add_left, Nat.add_sub_cancel_left, hsplit]
      simp [layerCounts, hj]
    layers := fun i => by
      simp only [backend_assigned many loaded, Finset.mem_Ico, hlayers]
      rw [← layerCounts_sum]
      constructor
      · rintro ⟨j, hlo, hhi⟩
        have := take_sum_le (layerCounts m o library gpus) (j + 1)
        omega
      · rintro ⟨hlo, hhi⟩
        obtain ⟨j, hj⟩ := exists_take_sum (l := layerCounts m o library gpus)
          (k := i - (m.blockCount - (layerCounts m o library gpus).sum)) (by omega)
        exact ⟨j, by omega, by omega⟩
    total := fun tensors => by
      have hused : (Finset.range gpus.length).filter (fun j =>
          (estimateGPULayers m o library gpus).tensorSplit.getD j 0 ≠ 0) =
            (Finset.range gpus.length).filter fun j =>
              (place m o library gpus).layerCounts j ≠ 0 :=
        Finset.filter_congr fun j hj => by rw [count j (Finset.mem_range.mp hj)]
      rw [hused, Finset.sum_congr rfl fun j hj =>
        size j (Finset.mem_range.mp (Finset.mem_filter.mp hj).1) (Finset.mem_filter.mp hj).2]
      have hle := sum_gpuLoad_le many loaded tensors
      simp only [sum_add_distrib] at hle ⊢
      omega
    each := fun lo hi between j hj hne => by
      rw [count j hj] at hne ⊢
      have hle := gpuLoad_le many loaded between hj hne
      have hsize := size j hj hne
      omega
  }

/-- Two blocks and an output that is much larger. -/
def largeOutput : Model where
  blockCount := 2
  blk _ := some 10
  output := some 100
  kv _ := 0
  graphPartialOffload := 1
  graphFullOffload := 1

/-- The output fits on the first GPU only. -/
def unevenGpus : List Gpu := [⟨1000, 0⟩, ⟨30, 0⟩]

theorem largeOutput_placed : Agreement largeOutput {} unevenGpus
    (estimateGPULayers largeOutput {} .other unevenGpus) :=
  placement (by decide) (by decide)

/-- The estimate has the output on the first GPU, the backend on the second. -/
theorem output_elsewhere :
    0 < (estimateGPULayers largeOutput {} .other unevenGpus).layers ∧
      ¬ gpuLoad largeOutput {}
          (backend largeOutput unevenGpus (estimateGPULayers largeOutput {} .other unevenGpus)) 1 ≤
        (estimateGPULayers largeOutput {} .other unevenGpus).gpuSizes.getD 1 0 -
          (estimateGPULayers largeOutput {} .other unevenGpus).graph -
            minimumMemory unevenGpus 1 := by
  refine ⟨by decide, ?_⟩
  rw [gpuLoad, backend_assigned (by decide) (by decide)]
  decide

end

end Ecco9.Estimate
