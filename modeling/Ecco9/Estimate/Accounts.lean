import Ecco9.Estimate.Agreement

/-! What `EstimateGPULayers` counts, and where: for a GPU, which gets no more than it has free, or in the
overflow. -/

namespace Ecco9.Estimate

/-- A GPU that was given anything has room for it, for the graph and for the overhead. -/
def Within (m : Model) (o : Options) (library : Library) (gpus : List Gpu) (a : Alloc) : Prop :=
  ∀ j, a.gpuAllocations j ≠ 0 ∨ a.layerCounts j ≠ 0 →
    o.overhead + a.gpuAllocations j + m.graph library gpus ≤ freeMemory gpus j

/-- While the GPUs with space are found: those that were looked at are below `i`, and the first of them
has room for the projectors as well. -/
structure Finding (m : Model) (o : Options) (library : Library) (gpus : List Gpu) (i : Nat)
    (a : Alloc) : Prop where
  lt : ∀ j ∈ a.gpusWithSpace, j < i
  counts : a.layerCounts = fun _ => 0
  untouched : ∀ j ∉ a.gpusWithSpace, a.gpuAllocations j = 0
  fits : ∀ j ∈ a.gpusWithSpace, o.overhead + a.gpuAllocations j + m.graph library gpus +
    (if a.gpusWithSpace.head? = some j then Model.gpuZeroOverhead o else 0) ≤ freeMemory gpus j

section

variable {m : Model} {o : Options} {library : Library} {gpus : List Gpu} {a : Alloc}

theorem Finding.findSpace {i : Nat} (h : Finding m o library gpus i a) :
    Finding m o library gpus (i + 1) (findSpace m o library gpus a i) := by
  have hi : i ∉ a.gpusWithSpace := fun hmem => Nat.lt_irrefl i (h.lt i hmem)
  have hlt : ∀ j ∈ a.gpusWithSpace, j < i + 1 := fun j hj => Nat.lt_succ_of_lt (h.lt j hj)
  unfold Estimate.findSpace
  dsimp only
  generalize hgzo : (if a.gpusWithSpace = [] then Model.gpuZeroOverhead o else 0) = gzo
  split
  · exact { h with lt := hlt }
  · rename_i hfree
    have hother {j : Nat} (hj : j ≠ i) : (a.allocate i (minimumMemory gpus i + m.buffer)).gpuAllocations j =
        a.gpuAllocations j := if_neg hj
    exact {
      lt := fun j hj => by
        rcases List.mem_append.mp hj with hj | hj
        · exact hlt j hj
        · rw [List.mem_singleton.mp hj]
          exact Nat.lt_succ_self i
      counts := h.counts
      untouched := fun j hj => by
        rw [List.mem_append, not_or, List.mem_singleton] at hj
        exact (hother hj.2).trans (h.untouched j hj.1)
      fits := fun j hj => by
        dsimp only
        rcases List.mem_append.mp hj with hj | hj
        · have hne : j ≠ i := fun heq => hi (heq ▸ hj)
          rw [hother hne, List.head?_append_of_ne_nil _ (List.ne_nil_of_mem hj)]
          exact h.fits j hj
        · rw [List.mem_singleton.mp hj]
          have hnew : (a.allocate i (minimumMemory gpus i + m.buffer)).gpuAllocations i =
              minimumMemory gpus i + m.buffer := by
            rw [Alloc.allocate]
            dsimp only
            rw [if_pos rfl, h.untouched i hi, Nat.zero_add]
          rw [hnew]
          cases hspace : a.gpusWithSpace with
          | nil =>
            rw [hspace, if_pos rfl] at hgzo
            rw [List.nil_append, List.head?_cons, if_pos rfl]
            omega
          | cons g space =>
            have hne : ¬(g :: space ++ [i]).head? = some i := by
              rw [List.cons_append, List.head?_cons, Option.some.injEq]
              rintro rfl
              exact hi (hspace ▸ List.mem_cons_self)
            rw [if_neg hne]
            omega
    }

variable (m o library gpus) in
theorem findSpace_finding (n : Nat) : Finding m o library gpus n
    ((List.range n).foldl (findSpace m o library gpus) { layerSize := m.buffer }) := by
  induction n with
  | zero =>
    exact {
      lt := fun j hj => absurd hj List.not_mem_nil
      counts := rfl
      untouched := fun _ _ => rfl
      fits := fun j hj => absurd hj List.not_mem_nil
    }
  | succ n ih =>
    rw [List.range_succ, List.foldl_append]
    exact ih.findSpace

variable (m o library gpus) in
theorem startSpace_within : Within m o library gpus (startSpace m o library gpus) ∧
    (startSpace m o library gpus).layerCount = 0 := by
  have h := findSpace_finding m o library gpus gpus.length
  refine ⟨fun j hj => ?_, (startSpace_fresh o library gpus (Nat.zero_le m.buffer)).count⟩
  unfold startSpace at hj ⊢
  dsimp only at hj ⊢
  generalize (List.range gpus.length).foldl (findSpace m o library gpus) { layerSize := m.buffer } = a
    at h hj ⊢
  cases hspace : a.gpusWithSpace with
  | nil =>
    rw [hspace] at hj
    dsimp only at hj
    rw [h.counts, h.untouched j (hspace ▸ List.not_mem_nil)] at hj
    simp at hj
  | cons g space =>
    rw [hspace] at hj
    dsimp only at hj ⊢
    have hmem : j ∈ a.gpusWithSpace := by
      by_contra hno
      have hjg : j ≠ g := fun heq => hno (hspace ▸ heq ▸ List.mem_cons_self)
      simp only [Alloc.allocate, if_neg hjg, h.counts, h.untouched j hno] at hj
      simp at hj
    have hfits := h.fits j hmem
    rw [hspace, List.head?_cons] at hfits
    by_cases hjg : j = g
    · subst hjg
      rw [if_pos rfl] at hfits
      simp only [Alloc.allocate, if_true]
      omega
    · simp only [Alloc.allocate, if_neg hjg]
      omega

/-- A layer goes where there is room for it. -/
theorem Within.put {g size : Nat} (h : Within m o library gpus a)
    (hfits : hasSpace m o library gpus a g size = true) : Within m o library gpus (a.put g size) := by
  intro j hj
  rw [hasSpace, decide_eq_true_eq] at hfits
  by_cases hjg : j = g
  · subst hjg
    simp only [Alloc.put, Alloc.allocate, if_true]
    omega
  · simp only [Alloc.put, Alloc.allocate, if_neg hjg] at hj ⊢
    exact h j hj

/-- The layers placed are not more than were asked for. -/
def Asked (o : Options) (count : Nat) : Prop := 0 ≤ o.numGPU → (count : Int) ≤ o.numGPU

theorem Asked.succ {count : Nat} (h : o.numGPU < 0 ∨ (count : Int) < o.numGPU) :
    Asked o (count + 1) := by
  intro hpos
  push_cast
  omega

theorem Within.layerTurn {i : Nat} (h : Within m o library gpus a) (hasked : Asked o a.layerCount) :
    Within m o library gpus (layerTurn m o library gpus a i) ∧
      Asked o (layerTurn m o library gpus a i).layerCount := by
  obtain ⟨rest, -, ⟨-, heq⟩ | ⟨hmore, g, -, hfits, heq⟩⟩ := layerTurn_cases m o library gpus a i
  · rw [heq]
    exact ⟨h, hasked⟩
  · rw [heq]
    have h' : Within m o library gpus
      { a with layerSize := turnSize m a i, gpusWithSpace := rest } := h
    exact ⟨h'.put hfits, Asked.succ hmore⟩

variable (m o library gpus) in
theorem place_within : Within m o library gpus (place m o library gpus) ∧
    Asked o (place m o library gpus).layerCount := by
  obtain ⟨hstart, hzero⟩ := startSpace_within m o library gpus
  have hlayers := placeLayers_induction (P := fun _ a => Within m o library gpus a ∧ Asked o a.layerCount)
    ⟨hstart, fun hpos => hzero ▸ hpos⟩ fun k _ a ha => ha.1.layerTurn ha.2
  obtain heq | ⟨hmore, -, g, -, hfits, heq⟩ := place_cases m o library gpus
  · rw [heq]
    exact hlayers
  · rw [heq]
    exact ⟨hlayers.1.put hfits, Asked.succ hmore⟩

theorem graphOffload_le : graphOffload m o library gpus ≤ m.graph library gpus := by
  unfold graphOffload Model.graph
  split
  · exact Nat.le_max_right ..
  · exact Nat.le_max_left ..

variable (m o library gpus) in
theorem gpuSize_fits (j : Nat) (h : gpuSize m o library gpus j ≠ 0) :
    gpuSize m o library gpus j + o.overhead ≤ freeMemory gpus j := by
  have hwithin := (place_within m o library gpus).1 j
  have hgraph : graphOffload m o library gpus ≤ m.graph library gpus := graphOffload_le
  unfold gpuSize at h ⊢
  split at h
  · rename_i hcount
    have := hwithin (.inl (by simpa [hcount] using h))
    rw [if_pos hcount]
    omega
  · rename_i hcount
    have := hwithin (.inr hcount)
    rw [if_neg hcount]
    omega

/-- Each GPU's part fits into what it has free, and the layers that are reported are those placed, at
most those there are and those asked for. -/
theorem estimate_within (m : Model) (o : Options) (library : Library) (gpus : List Gpu) :
    (∀ j size, (estimateGPULayers m o library gpus).gpuSizes[j]? = some size → size ≠ 0 →
      size + o.overhead ≤ freeMemory gpus j) ∧
    (library ≠ .cpu →
      (layerCounts m o library gpus).sum = (estimateGPULayers m o library gpus).layers) ∧
    (1 < gpus.length → (estimateGPULayers m o library gpus).tensorSplit.sum =
      (estimateGPULayers m o library gpus).layers) ∧
    (estimateGPULayers m o library gpus).layers ≤ m.blockCount + 1 ∧
    (0 ≤ o.numGPU → ((estimateGPULayers m o library gpus).layers : Int) ≤ o.numGPU) := by
  have hsum := layerCounts_sum m o library gpus
  unfold estimateGPULayers
  dsimp only
  split
  · rename_i hnone
    refine ⟨fun j size hsize => ?_, fun hcpu => ?_, fun _ => rfl, Nat.zero_le _, id⟩
    · cases hsize
    · rw [hsum, hnone.resolve_left hcpu]
  · refine ⟨fun j size hsize hne => ?_, fun _ => hsum, fun hmany => ?_,
      (place_budget m o library gpus).2, (place_within m o library gpus).2⟩
    · rw [List.getElem?_map, Option.map_eq_some_iff] at hsize
      obtain ⟨k, hk, rfl⟩ := hsize
      obtain rfl : j = k := by
        have hlt := (List.getElem?_eq_some_iff.mp hk).1
        rw [List.getElem?_range (by simpa using hlt)] at hk
        exact Option.some.inj hk
      exact gpuSize_fits m o library gpus j hne
    · rw [if_pos hmany]
      exact hsum

end

open Finset (sum_add_distrib)

/-! ### What is counted -/

/-- What is counted for a GPU, or in the overflow. -/
def Alloc.counted (a : Alloc) : Option Nat → Nat
  | some g => a.gpuAllocations g
  | none => a.overflow

/-- From one state to the next, this much is counted in this place and nothing anywhere else. -/
def Counts (place : Option Nat) (size : Nat) (a a' : Alloc) : Prop :=
  ∀ p, a'.counted p = a.counted p + if place = p then size else 0

/-- The size that the loop has for a block: its weights and its kv, or where a block has no tensors the
size of the block after it, and of the buffer when there is none. -/
def Model.layerSize (m : Model) (i : Nat) : Nat :=
  ((List.range' i (m.blockCount - i)).findSome? fun k => (m.blk k).map (· + m.kv k)).getD m.buffer

section

variable (m : Model) (o : Options) (library : Library) (gpus : List Gpu)

/-- The state with the GPUs that have space, before the projectors are counted. -/
def findSpaces : Alloc :=
  (List.range gpus.length).foldl (findSpace m o library gpus) { layerSize := m.buffer }

/-- The state after the turns of the blocks from `k` on. -/
def layersFrom (k : Nat) : Alloc :=
  (List.range' k (m.blockCount - k)).reverse.foldl (layerTurn m o library gpus)
    (startSpace m o library gpus)

/-- What a GPU with space is given before any layer. -/
def reserved (g : Nat) : Nat :=
  if g ∈ (findSpaces m o library gpus).gpusWithSpace then minimumMemory gpus g + m.buffer else 0

/-- The block `i`, or for `blockCount` the output layer with what is loaded with it. -/
def countedSize (i : Nat) : Nat :=
  if i = m.blockCount then m.memoryLastLayer o else m.layerSize i

/-- The graph of a GPU that has layers. -/
def graphSize (g : Nat) : Nat :=
  if (place m o library gpus).layerCounts g = 0 then 0 else graphOffload m o library gpus

/-- The estimate with the place of each layer and of the projectors: the turn of a layer counts it
there and only there, and the sizes of the estimate are the sums of what was counted. -/
structure Accounts (layer : Nat → Option Nat) (projectors : Option Nat) : Prop where
  onGpu : ∀ i ≤ m.blockCount, ∀ g ∈ layer i, g < gpus.length
  projectorsOnGpu : ∀ g ∈ projectors, g < gpus.length
  projector : Counts projectors (Model.gpuZeroOverhead o) (findSpaces m o library gpus)
    (startSpace m o library gpus)
  block : ∀ i < m.blockCount, Counts (layer i) (m.layerSize i) (layersFrom m o library gpus (i + 1))
    (layersFrom m o library gpus i)
  output : Counts (layer m.blockCount) (m.memoryLastLayer o) (placeLayers m o library gpus)
    (place m o library gpus)
  gpuSize : ∀ g < gpus.length, gpuSize m o library gpus g =
    reserved m o library gpus g + (if projectors = some g then Model.gpuZeroOverhead o else 0) +
      (∑ i ∈ Finset.range (m.blockCount + 1) with layer i = some g, countedSize m o i) +
        graphSize m o library gpus g
  overflow : (place m o library gpus).overflow =
    (if projectors = none then Model.gpuZeroOverhead o else 0) +
      ∑ i ∈ Finset.range (m.blockCount + 1) with layer i = none, countedSize m o i
  totalSize : (estimateGPULayers m o library gpus).totalSize =
    ∑ g ∈ Finset.range gpus.length, Estimate.gpuSize m o library gpus g +
      (place m o library gpus).overflow

end

section

variable {m : Model} {o : Options} {library : Library} {gpus : List Gpu} {a : Alloc}

theorem Model.layerSize_of_tensors {i size : Nat} (hi : i < m.blockCount)
    (hsize : m.blk i = some size) : m.layerSize i = size + m.kv i := by
  have hleft : m.blockCount - i = m.blockCount - (i + 1) + 1 := by omega
  rw [layerSize, hleft, List.range'_succ, List.findSome?_cons, hsize]
  rfl

theorem Model.layerSize_of_none {i : Nat} (hi : i < m.blockCount) (hnone : m.blk i = none) :
    m.layerSize i = m.layerSize (i + 1) := by
  have hleft : m.blockCount - i = m.blockCount - (i + 1) + 1 := by omega
  rw [layerSize, hleft, List.range'_succ, List.findSome?_cons, hnone]
  rfl

/-! ### One step -/

theorem counts_put (a : Alloc) (g size : Nat) : Counts (some g) size a (a.put g size) := by
  rintro (_ | j)
  · rfl
  · simp only [Alloc.counted, Alloc.put, Alloc.allocate, Option.some.injEq]
    split
    · rename_i hj
      rw [if_pos hj.symm]
    · rename_i hj
      rw [if_neg (Ne.symm hj), Nat.add_zero]

theorem counts_overflow (a : Alloc) (size : Nat) :
    Counts none size a { a with overflow := a.overflow + size } := by
  rintro (_ | j)
  · rfl
  · rfl

variable (m o library gpus) in
theorem layerTurn_counts (a : Alloc) (i : Nat) : ∃ p, (∀ g ∈ p, g ∈ a.gpusWithSpace) ∧
    Counts p (turnSize m a i) a (layerTurn m o library gpus a i) := by
  obtain ⟨space, hsubset, ⟨-, heq⟩ | ⟨-, g, hg, -, heq⟩⟩ := layerTurn_cases m o library gpus a i
  · rw [heq]
    exact ⟨none, nofun, counts_overflow a _⟩
  · rw [heq]
    refine ⟨some g, ?_, counts_put _ g _⟩
    rintro _ ⟨⟩
    exact hsubset hg

variable (m o library gpus) in
theorem place_counts : ∃ p, (∀ g ∈ p, g ∈ (placeLayers m o library gpus).gpusWithSpace) ∧
    Counts p (m.memoryLastLayer o) (placeLayers m o library gpus) (place m o library gpus) := by
  obtain heq | ⟨-, -, g, hg, -, heq⟩ := place_cases m o library gpus
  · rw [heq]
    exact ⟨none, nofun, counts_overflow _ _⟩
  · rw [heq]
    refine ⟨some g, ?_, counts_put _ g _⟩
    rintro _ ⟨⟩
    exact hg

theorem startSpace_eq : startSpace m o library gpus =
    match (findSpaces m o library gpus).gpusWithSpace with
    | [] => { findSpaces m o library gpus with overflow := Model.gpuZeroOverhead o }
    | g :: _ => (findSpaces m o library gpus).allocate g (Model.gpuZeroOverhead o) := rfl

/-! ### The GPUs with space -/

/-- Before any layer only the GPUs with space have anything. -/
structure Reserving (m : Model) (gpus : List Gpu) (i : Nat) (a : Alloc) : Prop where
  lt : ∀ g ∈ a.gpusWithSpace, g < i
  gpu : ∀ g, a.gpuAllocations g = if g ∈ a.gpusWithSpace then minimumMemory gpus g + m.buffer else 0
  overflow : a.overflow = 0
  layerSize : a.layerSize = m.buffer

theorem Reserving.findSpace {i : Nat} (h : Reserving m gpus i a) :
    Reserving m gpus (i + 1) (findSpace m o library gpus a i) := by
  have hi : i ∉ a.gpusWithSpace := fun hmem => Nat.lt_irrefl i (h.lt i hmem)
  have hlt : ∀ g ∈ a.gpusWithSpace, g < i + 1 := fun g hg => Nat.lt_succ_of_lt (h.lt g hg)
  rcases findSpace_cases m o library gpus a i with heq | heq
  · rw [heq]
    exact { h with lt := hlt }
  · rw [heq]
    exact {
      lt := fun g hg => by
        rcases List.mem_append.mp hg with hg | hg
        · exact hlt g hg
        · rw [List.mem_singleton.mp hg]
          exact Nat.lt_succ_self i
      gpu := fun g => by
        simp only [Alloc.allocate, h.gpu, List.mem_append, List.mem_singleton]
        by_cases hg : g = i
        · subst hg
          rw [if_pos rfl, if_neg hi, if_pos (.inr rfl), Nat.zero_add]
        · simp only [hg, if_false, or_false]
      overflow := h.overflow
      layerSize := h.layerSize
    }

variable (m o library gpus) in
theorem findSpaces_reserving : Reserving m gpus gpus.length (findSpaces m o library gpus) := by
  have fold : ∀ n, Reserving m gpus n
      ((List.range n).foldl (Estimate.findSpace m o library gpus) { layerSize := m.buffer }) := by
    intro n
    induction n with
    | zero => exact { lt := nofun, gpu := fun _ => rfl, overflow := rfl, layerSize := rfl }
    | succ n ih =>
      rw [List.range_succ, List.foldl_append]
      exact ih.findSpace
  exact fold gpus.length

variable (m o library gpus) in
theorem startSpace_counts : ∃ p, (∀ g ∈ p, g < gpus.length) ∧
    Counts p (Model.gpuZeroOverhead o) (findSpaces m o library gpus)
      (startSpace m o library gpus) := by
  have h := findSpaces_reserving m o library gpus
  rw [startSpace_eq]
  cases hspace : (findSpaces m o library gpus).gpusWithSpace with
  | nil =>
    refine ⟨none, nofun, ?_⟩
    have hcounts := counts_overflow (findSpaces m o library gpus) (Model.gpuZeroOverhead o)
    rw [h.overflow, Nat.zero_add] at hcounts
    exact hcounts
  | cons g space =>
    refine ⟨some g, ?_, fun p => counts_put (findSpaces m o library gpus) g _ p⟩
    rintro _ ⟨⟩
    exact h.lt g (hspace ▸ List.mem_cons_self)

/-! ### The turns -/

theorem startSpace_layerSize : (startSpace m o library gpus).layerSize = m.buffer := by
  rw [startSpace_eq]
  split
  · exact (findSpaces_reserving m o library gpus).layerSize
  · exact (findSpaces_reserving m o library gpus).layerSize

theorem layerTurn_layerSize (a : Alloc) (i : Nat) :
    (layerTurn m o library gpus a i).layerSize = turnSize m a i := by
  obtain ⟨space, -, ⟨-, heq⟩ | ⟨-, g, -, -, heq⟩⟩ := layerTurn_cases m o library gpus a i
  · rw [heq]
  · rw [heq]
    rfl

theorem layersFrom_blockCount : layersFrom m o library gpus m.blockCount =
    startSpace m o library gpus := by
  rw [layersFrom, Nat.sub_self]
  rfl

theorem layersFrom_zero : layersFrom m o library gpus 0 = placeLayers m o library gpus := by
  rw [layersFrom, placeLayers, List.range_eq_range', Nat.sub_zero]

theorem layersFrom_turn {k : Nat} (hk : k < m.blockCount) : layersFrom m o library gpus k =
    layerTurn m o library gpus (layersFrom m o library gpus (k + 1)) k := by
  have hleft : m.blockCount - k = m.blockCount - (k + 1) + 1 := by omega
  rw [layersFrom, hleft, List.range'_succ, List.reverse_cons, List.foldl_append]
  rfl

variable (o library gpus) in
theorem layersFrom_layerSize {k : Nat} (hk : k ≤ m.blockCount) :
    (layersFrom m o library gpus k).layerSize = m.layerSize k := by
  obtain ⟨d, hd⟩ := Nat.exists_eq_add_of_le hk
  induction d generalizing k with
  | zero =>
    obtain rfl : k = m.blockCount := hd.symm
    rw [layersFrom_blockCount, startSpace_layerSize, Model.layerSize, Nat.sub_self]
    rfl
  | succ d ih =>
    have hlt : k < m.blockCount := by omega
    rw [layersFrom_turn hlt, layerTurn_layerSize, turnSize, ih (k := k + 1) hlt (by omega)]
    cases hblk : m.blk k with
    | none => exact (Model.layerSize_of_none hlt hblk).symm
    | some size => exact (Model.layerSize_of_tensors hlt hblk).symm

variable (o library gpus) in
theorem turnSize_layersFrom {k : Nat} (hk : k < m.blockCount) :
    turnSize m (layersFrom m o library gpus (k + 1)) k = m.layerSize k := by
  rw [← layersFrom_layerSize o library gpus (Nat.le_of_lt hk), layersFrom_turn hk,
    layerTurn_layerSize]

variable (o library gpus) in
theorem layersFrom_space {k : Nat} (hk : k ≤ m.blockCount) :
    ∀ g ∈ (layersFrom m o library gpus k).gpusWithSpace, g < gpus.length := by
  have start := startSpace_fresh o library gpus (Nat.zero_le m.buffer)
  suffices h : Budget m gpus 0 (startSpace m o library gpus).gpusWithSpace
      (layersFrom m o library gpus k) from fun g hg => h.lt g (h.subset hg)
  obtain ⟨d, hd⟩ := Nat.exists_eq_add_of_le hk
  induction d generalizing k with
  | zero =>
    obtain rfl : k = m.blockCount := hd.symm
    rw [layersFrom_blockCount]
    exact start.toBudget
  | succ d ih =>
    have hlt : k < m.blockCount := by omega
    rw [layersFrom_turn hlt]
    exact ((ih (k := k + 1) hlt (by omega)).layerTurn o library m.atLeast_zero hlt).1

/-- What the turns from `k` on have counted in a place. -/
theorem counted_layersFrom {layer : Nat → Option Nat} (block : ∀ i < m.blockCount,
      Counts (layer i) (m.layerSize i) (layersFrom m o library gpus (i + 1))
        (layersFrom m o library gpus i))
    (p : Option Nat) {k : Nat} (hk : k ≤ m.blockCount) :
    (layersFrom m o library gpus k).counted p = (startSpace m o library gpus).counted p +
      ∑ i ∈ Finset.Ico k m.blockCount, if layer i = p then m.layerSize i else 0 := by
  obtain ⟨d, hd⟩ := Nat.exists_eq_add_of_le hk
  induction d generalizing k with
  | zero =>
    obtain rfl : k = m.blockCount := hd.symm
    rw [layersFrom_blockCount, Finset.Ico_self, Finset.sum_empty, Nat.add_zero]
  | succ d ih =>
    have hlt : k < m.blockCount := by omega
    rw [block k hlt p, ih (k := k + 1) hlt (by omega), Finset.sum_eq_sum_Ico_succ_bot hlt]
    simp only [eq_comm]
    omega

theorem counted_place {layer : Nat → Option Nat} {projectors : Option Nat}
    (projector : Counts projectors (Model.gpuZeroOverhead o) (findSpaces m o library gpus)
      (startSpace m o library gpus))
    (block : ∀ i < m.blockCount, Counts (layer i) (m.layerSize i)
      (layersFrom m o library gpus (i + 1)) (layersFrom m o library gpus i))
    (output : Counts (layer m.blockCount) (m.memoryLastLayer o) (placeLayers m o library gpus)
      (place m o library gpus)) (p : Option Nat) :
    (place m o library gpus).counted p = (findSpaces m o library gpus).counted p +
      (if projectors = p then Model.gpuZeroOverhead o else 0) +
        ∑ i ∈ Finset.range (m.blockCount + 1) with layer i = p, countedSize m o i := by
  have hlast : countedSize m o m.blockCount = m.memoryLastLayer o := if_pos rfl
  have hblocks : ∑ i ∈ Finset.range m.blockCount, (if layer i = p then countedSize m o i else 0) =
      ∑ i ∈ Finset.range m.blockCount, if layer i = p then m.layerSize i else 0 := by
    refine Finset.sum_congr rfl fun i hi => ?_
    rw [countedSize, if_neg (Nat.ne_of_lt (Finset.mem_range.mp hi))]
  rw [output p, ← layersFrom_zero, counted_layersFrom block p (Nat.zero_le _), projector p,
    Finset.sum_filter, Finset.sum_range_succ, hblocks, hlast, Nat.Ico_zero_eq_range]
  omega

/-- All places together have what is counted in one. -/
theorem sum_places {place : Option Nat} {n : Nat} (hplace : ∀ g ∈ place, g < n) (size : Nat) :
    ∑ g ∈ Finset.range n, (if place = some g then size else 0) + (if place = none then size else 0) =
      size := by
  cases place with
  | none => simp
  | some g =>
    have hg : g < n := hplace g rfl
    simp only [Option.some.injEq, reduceCtorEq, if_false, Finset.sum_ite_eq, Finset.mem_range, hg,
      if_true, Nat.add_zero]

/-- All that the estimate counts, each thing once. -/
theorem Accounts.totalSize_eq {layer : Nat → Option Nat} {projectors : Option Nat}
    (h : Accounts m o library gpus layer projectors) :
    (estimateGPULayers m o library gpus).totalSize =
      ∑ g ∈ Finset.range gpus.length, (reserved m o library gpus g + graphSize m o library gpus g) +
        Model.gpuZeroOverhead o + ∑ i ∈ Finset.range m.blockCount, m.layerSize i +
          m.memoryLastLayer o := by
  have hlast : countedSize m o m.blockCount = m.memoryLastLayer o := if_pos rfl
  have hblocks : ∑ i ∈ Finset.range (m.blockCount + 1), countedSize m o i =
      ∑ i ∈ Finset.range m.blockCount, m.layerSize i + m.memoryLastLayer o := by
    rw [Finset.sum_range_succ, hlast]
    congr 1
    exact Finset.sum_congr rfl fun i hi => if_neg (Nat.ne_of_lt (Finset.mem_range.mp hi))
  have hlayers : ∑ g ∈ Finset.range gpus.length,
        (∑ i ∈ Finset.range (m.blockCount + 1), if layer i = some g then countedSize m o i else 0) +
      (∑ i ∈ Finset.range (m.blockCount + 1), if layer i = none then countedSize m o i else 0) =
        ∑ i ∈ Finset.range (m.blockCount + 1), countedSize m o i := by
    rw [Finset.sum_comm, ← sum_add_distrib]
    exact Finset.sum_congr rfl fun i hi =>
      sum_places (h.onGpu i (Nat.le_of_lt_succ (Finset.mem_range.mp hi))) _
  have hprojectors := sum_places h.projectorsOnGpu (Model.gpuZeroOverhead o)
  have hgpus := Finset.sum_congr rfl fun g hg => h.gpuSize g (Finset.mem_range.mp hg)
  rw [h.totalSize, hgpus, h.overflow]
  simp only [Finset.sum_filter, sum_add_distrib]
  rw [hblocks] at hlayers
  omega

/-- Each block is counted once, for one GPU or in the overflow, and so are the output layer with the
vision projector, and the projectors; the total size is what is counted in all places. -/
theorem estimate_accounts (m : Model) (o : Options) (library : Library) (gpus : List Gpu) :
    (∀ i < m.blockCount, ∀ size, m.blk i = some size → m.layerSize i = size + m.kv i) ∧
    ∃ layer projectors, Accounts m o library gpus layer projectors := by
  refine ⟨fun i hi size hsize => Model.layerSize_of_tensors hi hsize, ?_⟩
  have hturn : ∀ i, ∃ p, i < m.blockCount → (∀ g ∈ p, g < gpus.length) ∧
      Counts p (m.layerSize i) (layersFrom m o library gpus (i + 1))
        (layersFrom m o library gpus i) := by
    intro i
    obtain ⟨p, hp, hcounts⟩ := layerTurn_counts m o library gpus (layersFrom m o library gpus (i + 1)) i
    refine ⟨p, fun hi => ⟨fun g hg => layersFrom_space o library gpus hi g (hp g hg), ?_⟩⟩
    rw [turnSize_layersFrom o library gpus hi, ← layersFrom_turn hi] at hcounts
    exact hcounts
  choose blocks hblocks using hturn
  obtain ⟨last, hlastOn, houtput⟩ := place_counts m o library gpus
  obtain ⟨projectors, hprojectorsOn, hprojectors⟩ := startSpace_counts m o library gpus
  have hfound := findSpaces_reserving m o library gpus
  set layer : Nat → Option Nat := fun i => if i = m.blockCount then last else blocks i with hlayer
  have hlast : layer m.blockCount = last := if_pos rfl
  have hblock : ∀ i < m.blockCount, layer i = blocks i := fun i hi => if_neg (Nat.ne_of_lt hi)
  have block : ∀ i < m.blockCount, Counts (layer i) (m.layerSize i)
      (layersFrom m o library gpus (i + 1)) (layersFrom m o library gpus i) := by
    intro i hi
    rw [hblock i hi]
    exact (hblocks i hi).2
  rw [← hlast] at houtput
  have hcounted := counted_place hprojectors block houtput
  refine ⟨layer, projectors, {
    onGpu := fun i hi => ?_
    projectorsOnGpu := hprojectorsOn
    projector := hprojectors
    block := block
    output := houtput
    gpuSize := fun g _ => ?_
    overflow := ?_
    totalSize := ?_ }⟩
  · rcases Nat.lt_or_eq_of_le hi with hlt | rfl
    · rw [hblock i hlt]
      exact (hblocks i hlt).1
    · rw [hlast]
      exact fun g hg => layersFrom_space o library gpus (Nat.zero_le _) g
        (layersFrom_zero (m := m) ▸ hlastOn g hg)
  · have hreserved : (findSpaces m o library gpus).gpuAllocations g = reserved m o library gpus g :=
      hfound.gpu g
    rw [← hreserved]
    exact congrArg (· + graphSize m o library gpus g) (hcounted (some g))
  · have hnone := hcounted none
    rw [Alloc.counted, Alloc.counted, hfound.overflow, Nat.zero_add] at hnone
    exact hnone
  · unfold estimateGPULayers
    dsimp only
    split
    · rfl
    · rfl

end

end Ecco9.Estimate
