import Mathlib.Algebra.BigOperators.Intervals
import Mathlib.Algebra.Order.BigOperators.Group.Finset
import Ecco9.Estimate.Memory

/-! What the loops of `EstimateGPULayers` put on each GPU, and what they put on all of them. -/

namespace Ecco9.Estimate

open Finset (sum_add_distrib)

/-- What a layer takes where it is loaded; the layer `blockCount` is the output. -/
def Model.loadSize (m : Model) (o : Options) (i : Nat) : Nat :=
  if i = m.blockCount then m.memoryLastLayer o else (m.blk i).getD 0 + m.kv i

/-- The blocks and the buffer take at least `lo`. -/
structure Model.AtLeast (m : Model) (lo : Nat) : Prop where
  buffer : lo ≤ m.buffer
  block : ∀ i < m.blockCount, ∀ size, m.blk i = some size → lo ≤ size + m.kv i

/-- What holds of the state of the loops: the GPUs of `space` had space at first, and each layer of a
GPU took at least `lo`. -/
structure Budget (m : Model) (gpus : List Gpu) (lo : Nat) (space : List Nat) (a : Alloc) : Prop where
  subset : a.gpusWithSpace ⊆ space
  lt : ∀ g ∈ space, g < gpus.length
  counted : ∀ j, a.layerCounts j ≠ 0 → j ∈ space
  sum : a.layerCount = ∑ j ∈ Finset.range gpus.length, a.layerCounts j
  least : ∀ j ∈ space,
    minimumMemory gpus j + m.buffer + lo * a.layerCounts j ≤ a.gpuAllocations j
  layerSize : lo ≤ a.layerSize

/-- What holds with `left` layers to go: a layer is only left out when no GPU has space or there are
enough, so that the layers on the GPUs are the last ones. -/
structure Filled (m : Model) (o : Options) (gpus : List Gpu) (start : Nat → Nat) (left : Nat)
    (a : Alloc) : Prop where
  le : a.layerCount + left ≤ m.blockCount
  stopped : a.layerCount + left < m.blockCount →
    a.gpusWithSpace = [] ∨ 0 ≤ o.numGPU ∧ o.numGPU ≤ a.layerCount
  untouched : ∀ j, a.layerCounts j = 0 → a.gpuAllocations j = start j
  total : ∑ j ∈ Finset.range gpus.length, a.gpuAllocations j =
    ∑ j ∈ Finset.range gpus.length, start j +
      ∑ i ∈ Finset.Ico (m.blockCount - a.layerCount) m.blockCount, m.loadSize o i

section

variable {m : Model} {o : Options} {library : Library} {gpus : List Gpu} {lo : Nat}
  {space : List Nat} {a : Alloc}

theorem sum_bump (f : Nat → Nat) (x : Nat) {n g : Nat} (hg : g < n) :
    (∑ j ∈ Finset.range n, if j = g then f j + x else f j) = ∑ j ∈ Finset.range n, f j + x := by
  have hbump : ∀ j, (if j = g then f j + x else f j) = f j + if j = g then x else 0 := by
    intro j
    split <;> rfl
  simp only [hbump, sum_add_distrib, Finset.sum_ite_eq', Finset.mem_range, hg, if_true]

theorem le_allocate (a : Alloc) (g size j : Nat) :
    a.gpuAllocations j ≤ (a.allocate g size).gpuAllocations j := by
  unfold Alloc.allocate
  dsimp only
  split <;> omega

/-! ### What a turn of each loop does -/

variable (m o library gpus) in
theorem findSpace_cases (a : Alloc) (i : Nat) : findSpace m o library gpus a i = a ∨
    findSpace m o library gpus a i = { a.allocate i (minimumMemory gpus i + m.buffer) with
      gpusWithSpace := a.gpusWithSpace ++ [i] } := ite_eq_or_eq ..

variable (m o library gpus) in
/-- The layer goes to a GPU that has space, or there is none left. -/
theorem placeLayer_cases (i j : Nat) (a : Alloc) (hj : j = a.gpusWithSpace.length) :
    ∃ space ⊆ a.gpusWithSpace,
      space = [] ∧ placeLayer m o library gpus i j a = { a with gpusWithSpace := space } ∨
        ∃ g ∈ space, hasSpace m o library gpus a g a.layerSize = true ∧
          placeLayer m o library gpus i j a =
            { a with gpusWithSpace := space }.put g a.layerSize := by
  induction j generalizing a with
  | zero =>
    have hnil : a.gpusWithSpace = [] := List.length_eq_zero_iff.mp hj.symm
    exact ⟨a.gpusWithSpace, List.Subset.refl _, .inl ⟨hnil, rfl⟩⟩
  | succ j ih =>
    have hlt : i % (j + 1) < a.gpusWithSpace.length := hj ▸ Nat.mod_lt i j.succ_pos
    unfold placeLayer
    rw [List.getElem?_eq_getElem hlt]
    dsimp only
    split
    · rename_i hfits
      exact ⟨a.gpusWithSpace, List.Subset.refl _, .inr ⟨_, List.getElem_mem hlt, hfits, rfl⟩⟩
    · obtain ⟨space, hsubset, hcases⟩ := ih
        { a with gpusWithSpace := a.gpusWithSpace.eraseIdx (i % (j + 1)) } (by
          rw [List.length_eraseIdx_of_lt hlt, ← hj, Nat.add_sub_cancel])
      exact ⟨space, fun g hg => List.mem_of_mem_eraseIdx (hsubset hg), hcases⟩

/-- The size of a layer as the loop has it: a block without tensors has the size of the one before. -/
def turnSize (m : Model) (a : Alloc) (i : Nat) : Nat :=
  match m.blk i with
  | some size => size + m.kv i
  | none => a.layerSize

theorem layerTurn_eq (a : Alloc) (i : Nat) : layerTurn m o library gpus a i =
    let a := { a with layerSize := turnSize m a i }
    if o.numGPU ≥ 0 ∧ a.layerCount ≥ o.numGPU then { a with overflow := a.overflow + a.layerSize }
    else
      let a := placeLayer m o library gpus i a.gpusWithSpace.length a
      if a.gpusWithSpace = [] then { a with overflow := a.overflow + a.layerSize } else a := by
  unfold layerTurn turnSize
  cases m.blk i <;> rfl

variable (m o library gpus) in
/-- The layer is counted as overflow, or it goes to a GPU that has space. -/
theorem layerTurn_cases (a : Alloc) (i : Nat) : ∃ space ⊆ a.gpusWithSpace,
    (space = [] ∨ 0 ≤ o.numGPU ∧ o.numGPU ≤ a.layerCount) ∧
        layerTurn m o library gpus a i =
          { a with
            layerSize := turnSize m a i
            overflow := a.overflow + turnSize m a i
            gpusWithSpace := space } ∨
      (o.numGPU < 0 ∨ a.layerCount < o.numGPU) ∧ ∃ g ∈ space,
        hasSpace m o library gpus a g (turnSize m a i) = true ∧ layerTurn m o library gpus a i =
          { a with layerSize := turnSize m a i, gpusWithSpace := space }.put g (turnSize m a i) := by
  rw [layerTurn_eq]
  generalize turnSize m a i = size
  dsimp only
  split
  · rename_i hfull
    exact ⟨a.gpusWithSpace, List.Subset.refl _, .inl ⟨.inr hfull, rfl⟩⟩
  · rename_i hfull
    obtain ⟨space, hsubset, ⟨rfl, hplace⟩ | ⟨g, hg, hfits, hplace⟩⟩ :=
      placeLayer_cases m o library gpus i
        a.gpusWithSpace.length { a with layerSize := size } rfl
    · rw [hplace, if_pos rfl]
      exact ⟨[], hsubset, .inl ⟨.inl rfl, rfl⟩⟩
    · have hne : ¬ space = [] := List.ne_nil_of_mem hg
      have hspace : ({ a with layerSize := size, gpusWithSpace := space }.put g
          size).gpusWithSpace = space := rfl
      rw [hplace, if_neg (hspace ▸ hne)]
      exact ⟨space, hsubset, .inr ⟨by omega, g, hg, hfits, rfl⟩⟩

variable (m o library gpus) in
theorem placeOutput_cases (j : Nat) (a : Alloc) : placeOutput m o library gpus j a = a ∨
    ∃ g ∈ a.gpusWithSpace, hasSpace m o library gpus a g (m.memoryLastLayer o) = true ∧
      placeOutput m o library gpus j a = a.put g (m.memoryLastLayer o) := by
  induction j with
  | zero => exact .inl rfl
  | succ j ih =>
    unfold placeOutput
    split
    · exact .inl rfl
    · rename_i g hg
      split
      · rename_i hfits
        exact .inr ⟨g, List.mem_of_getElem? hg, hfits, rfl⟩
      · exact ih

/-- What each turn keeps, with the number of layers to go, holds at the end. -/
theorem placeLayers_induction {P : Nat → Alloc → Prop}
    (start : P m.blockCount (startSpace m o library gpus))
    (turn : ∀ k < m.blockCount, ∀ a, P (k + 1) a → P k (layerTurn m o library gpus a k)) :
    P 0 (placeLayers m o library gpus) := by
  have fold : ∀ k ≤ m.blockCount, ∀ a, P k a →
      P 0 ((List.range k).reverse.foldl (layerTurn m o library gpus) a) := by
    intro k
    induction k with
    | zero => exact fun _ a h => h
    | succ k ih =>
      intro hk a h
      rw [List.range_succ, List.reverse_append, List.reverse_singleton, List.singleton_append]
      exact ih (by omega) _ (turn k hk a h)
  exact fold m.blockCount (Nat.le_refl _) _ start

/-! ### Each GPU -/

/-- A layer is put on a GPU that has space. -/
theorem Budget.put {g : Nat} (h : Budget m gpus lo space a) (hg : g ∈ a.gpusWithSpace)
    (size : Nat) (hsize : lo ≤ size) : Budget m gpus lo space (a.put g size) where
  subset := h.subset
  lt := h.lt
  counted j hj := by
    by_cases hjg : j = g
    · exact hjg ▸ h.subset hg
    · exact h.counted j (by simpa [Alloc.put, hjg] using hj)
  sum := by
    change a.layerCount + 1 = _
    rw [h.sum]
    exact (sum_bump a.layerCounts 1 (h.lt g (h.subset hg))).symm
  least j hj := by
    have hleast := h.least j hj
    simp only [Alloc.put, Alloc.allocate]
    split
    · rw [Nat.mul_add, Nat.mul_one]
      omega
    · exact hleast
  layerSize := h.layerSize

theorem Budget.allocate (h : Budget m gpus lo space a) (g size : Nat) :
    Budget m gpus lo space (a.allocate g size) where
  subset := h.subset
  lt := h.lt
  counted := h.counted
  sum := h.sum
  least j hj := (h.least j hj).trans (le_allocate a g size j)
  layerSize := h.layerSize

/-- Nothing is placed yet. -/
structure Fresh (m : Model) (gpus : List Gpu) (lo : Nat) (a : Alloc) : Prop
    extends Budget m gpus lo a.gpusWithSpace a where
  counts : a.layerCounts = fun _ => 0
  count : a.layerCount = 0

theorem Fresh.findSpace (h : Fresh m gpus lo a) {i : Nat} (hi : i < gpus.length) :
    Fresh m gpus lo (findSpace m o library gpus a i) := by
  rcases findSpace_cases m o library gpus a i with heq | heq
  · rw [heq]
    exact h
  · rw [heq]
    exact {
      subset := List.Subset.refl _
      lt g hg := by
        rcases List.mem_append.mp hg with hg | hg
        · exact h.lt g hg
        · exact List.mem_singleton.mp hg ▸ hi
      counted j hj := absurd (congrFun h.counts j) hj
      sum := h.sum
      least j hj := by
        have hzero : a.layerCounts j = 0 := congrFun h.counts j
        change _ + lo * a.layerCounts j ≤ _
        rw [hzero]
        rcases List.mem_append.mp hj with hj | hj
        · have hleast := h.least j hj
          rw [hzero] at hleast
          exact hleast.trans (le_allocate a i _ j)
        · obtain rfl := List.mem_singleton.mp hj
          simp [Alloc.allocate]
      layerSize := h.layerSize
      counts := h.counts
      count := h.count
    }

variable (o library gpus) in
theorem startSpace_fresh (hlo : lo ≤ m.buffer) : Fresh m gpus lo (startSpace m o library gpus) := by
  have fold : ∀ l : List Nat, (∀ i ∈ l, i < gpus.length) → ∀ a, Fresh m gpus lo a →
      Fresh m gpus lo (l.foldl (findSpace m o library gpus) a) := by
    intro l
    induction l with
    | nil => exact fun _ a h => h
    | cons i l ih =>
      exact fun hl a h => ih (fun j hj => hl j (List.mem_cons_of_mem _ hj)) _
        (h.findSpace (hl i List.mem_cons_self))
  have first : Fresh m gpus lo { layerSize := m.buffer } := {
    subset := List.Subset.refl _
    lt := nofun
    counted j hj := absurd rfl hj
    sum := Finset.sum_const_zero.symm
    least := nofun
    layerSize := hlo
    counts := rfl
    count := rfl
  }
  have h := fold (List.range gpus.length) (fun i hi => List.mem_range.mp hi) _ first
  unfold startSpace
  dsimp only
  split
  · exact { h with }
  · exact { h.toBudget.allocate _ _ with counts := h.counts, count := h.count }

variable (o library) in
theorem Budget.layerTurn {i : Nat} (least : m.AtLeast lo) (hlt : i < m.blockCount)
    (h : Budget m gpus lo space a) : Budget m gpus lo space (layerTurn m o library gpus a i) ∧
      (layerTurn m o library gpus a i).layerCount ≤ a.layerCount + 1 := by
  have hsize : lo ≤ turnSize m a i := by
    unfold turnSize
    cases hblk : m.blk i with
    | none => exact h.layerSize
    | some size => exact least.block i hlt size hblk
  obtain ⟨rest, hsubset, ⟨-, heq⟩ | ⟨-, g, hg, -, heq⟩⟩ := layerTurn_cases m o library gpus a i
  · rw [heq]
    exact ⟨{ h with subset := fun g hg => h.subset (hsubset hg), layerSize := hsize },
      Nat.le_succ _⟩
  · have h' : Budget m gpus lo space
        { a with layerSize := turnSize m a i, gpusWithSpace := rest } :=
      { h with subset := fun g hg => h.subset (hsubset hg), layerSize := hsize }
    rw [heq]
    exact ⟨h'.put hg _ hsize, Nat.le_refl _⟩

variable (o library gpus) in
theorem placeLayers_budget (least : m.AtLeast lo) :
    Budget m gpus lo (startSpace m o library gpus).gpusWithSpace (placeLayers m o library gpus) ∧
      (placeLayers m o library gpus).layerCount ≤ m.blockCount := by
  have start := startSpace_fresh o library gpus least.buffer
  refine placeLayers_induction (P := fun k a =>
    Budget m gpus lo (startSpace m o library gpus).gpusWithSpace a ∧
      a.layerCount + k ≤ m.blockCount) ⟨start.toBudget, ?_⟩ ?_
  · rw [start.count, Nat.zero_add]
  · rintro k hk a ⟨h, hle⟩
    obtain ⟨hturn, hcount⟩ := h.layerTurn o library least hk
    exact ⟨hturn, by omega⟩

/-! ### What is left out -/

/-- With `left` layers to go: a layer is only left out when no GPU has space or there are enough. -/
structure Stopped (m : Model) (o : Options) (left : Nat) (a : Alloc) : Prop where
  le : a.layerCount + left ≤ m.blockCount
  stopped : a.layerCount + left < m.blockCount →
    a.gpusWithSpace = [] ∨ 0 ≤ o.numGPU ∧ o.numGPU ≤ a.layerCount

/-- What is put on a GPU is not left out, and nothing was before. -/
theorem Stopped.all_placed {left g : Nat} (h : Stopped m o left a) (hg : g ∈ a.gpusWithSpace)
    (hmore : o.numGPU < 0 ∨ a.layerCount < o.numGPU) : a.layerCount + left = m.blockCount := by
  have hle := h.le
  by_contra hne
  rcases h.stopped (by omega) with hnil | hfull
  · exact absurd (hnil ▸ hg) List.not_mem_nil
  · omega

theorem Stopped.layerTurn {k : Nat} (h : Stopped m o (k + 1) a) :
    Stopped m o k (layerTurn m o library gpus a k) := by
  have hle := h.le
  obtain ⟨rest, hsubset, ⟨hstop, heq⟩ | ⟨hmore, g, hg, -, heq⟩⟩ := layerTurn_cases m o library
    gpus a k
  · rw [heq]
    exact { le := by dsimp only; omega, stopped := fun _ => hstop }
  · have hall := h.all_placed (hsubset hg) hmore
    rw [heq]
    exact {
      le := by simp only [Alloc.put]; omega
      stopped := fun hlt => by simp only [Alloc.put] at hlt; omega
    }

variable (m o library gpus) in
theorem placeLayers_stopped : Stopped m o 0 (placeLayers m o library gpus) := by
  have start := startSpace_fresh o library gpus (Nat.zero_le m.buffer)
  refine placeLayers_induction ?_ fun k _ a h => h.layerTurn
  exact {
    le := by rw [start.count, Nat.zero_add]
    stopped := fun hlt => by rw [start.count] at hlt; omega
  }

variable (m o library gpus) in
/-- The output is counted as overflow, or it goes to a GPU that has space when all blocks are on
one. -/
theorem place_cases :
    place m o library gpus = { placeLayers m o library gpus with
      overflow := (placeLayers m o library gpus).overflow + m.memoryLastLayer o } ∨
    (o.numGPU < 0 ∨ (placeLayers m o library gpus).layerCount < o.numGPU) ∧
      (placeLayers m o library gpus).layerCount = m.blockCount ∧
        ∃ g ∈ (placeLayers m o library gpus).gpusWithSpace,
          hasSpace m o library gpus (placeLayers m o library gpus) g (m.memoryLastLayer o) = true ∧
          place m o library gpus =
            (placeLayers m o library gpus).put g (m.memoryLastLayer o) := by
  have hstopped := placeLayers_stopped m o library gpus
  have hleft : (placeLayers m o library gpus).layerCount < m.blockCount + 1 :=
    Nat.lt_succ_of_le hstopped.le
  unfold place
  dsimp only
  split
  · split
    · rename_i hmore
      rcases placeOutput_cases m o library gpus
        (placeLayers m o library gpus).gpusWithSpace.length (placeLayers m o library gpus)
        with heq | ⟨g, hg, hfits, heq⟩
      · rw [heq, if_pos hleft]
        exact .inl rfl
      · have hall : (placeLayers m o library gpus).layerCount = m.blockCount :=
          hstopped.all_placed hg hmore
        have hnone : ¬ ((placeLayers m o library gpus).put g (m.memoryLastLayer o)).layerCount <
            m.blockCount + 1 := by
          rw [Alloc.put, hall]
          exact Nat.lt_irrefl _
        rw [heq, if_neg hnone]
        exact .inr ⟨hmore, hall, g, hg, hfits, rfl⟩
    · exact .inl rfl
  · rename_i hzero
    rw [Nat.eq_zero_of_not_pos hzero]
    exact .inl rfl

/-! ### All GPUs -/

theorem Filled.layerTurn {start : Nat → Nat} {k : Nat} (hk : k < m.blockCount) {size : Nat}
    (hsize : m.blk k = some size) (hspace : ∀ g ∈ a.gpusWithSpace, g < gpus.length)
    (h : Filled m o gpus start (k + 1) a) :
    Filled m o gpus start k (layerTurn m o library gpus a k) := by
  have hturn : turnSize m a k = m.loadSize o k := by
    simp only [turnSize, Model.loadSize, hsize, Nat.ne_of_lt hk, if_false, Option.getD_some]
  have hstopped : Stopped m o k (Estimate.layerTurn m o library gpus a k) :=
    Stopped.layerTurn ⟨h.le, h.stopped⟩
  obtain ⟨rest, hsubset, ⟨-, heq⟩ | ⟨hmore, g, hg, -, heq⟩⟩ := layerTurn_cases m o library gpus a k
  · rw [heq] at hstopped ⊢
    exact {
      le := hstopped.le
      stopped := hstopped.stopped
      untouched := h.untouched
      total := h.total
    }
  · have hg' := hsubset hg
    have hall := Stopped.all_placed ⟨h.le, h.stopped⟩ hg' hmore
    rw [heq] at hstopped ⊢
    exact {
      le := hstopped.le
      stopped := hstopped.stopped
      untouched := fun j hj => by
        have hjg : j ≠ g := by
          rintro rfl
          simp [Alloc.put] at hj
        simp only [Alloc.put, Alloc.allocate, if_neg hjg] at hj ⊢
        exact h.untouched j hj
      total := by
        have hput := sum_bump a.gpuAllocations (turnSize m a k) (hspace g hg')
        have hfrom : m.blockCount - a.layerCount = k + 1 := by omega
        have hfrom' : m.blockCount - (a.layerCount + 1) = k := by omega
        simp only [Alloc.put, Alloc.allocate]
        rw [hput, h.total, hturn, hfrom, hfrom', Finset.sum_eq_sum_Ico_succ_bot hk]
        omega
    }

variable (o library gpus) in
theorem placeLayers_filled (tensors : ∀ i < m.blockCount, ∃ size, m.blk i = some size) :
    Filled m o gpus (startSpace m o library gpus).gpuAllocations 0
      (placeLayers m o library gpus) := by
  have start := startSpace_fresh o library gpus (Nat.zero_le m.buffer)
  have least : m.AtLeast 0 := ⟨Nat.zero_le _, fun _ _ _ _ => Nat.zero_le _⟩
  refine (placeLayers_induction (P := fun k a =>
    Budget m gpus 0 (startSpace m o library gpus).gpusWithSpace a ∧
      Filled m o gpus (startSpace m o library gpus).gpuAllocations k a)
    ⟨start.toBudget, ?_⟩ ?_).2
  · exact {
      le := by rw [start.count, Nat.zero_add]
      stopped := fun hlt => by rw [start.count] at hlt; omega
      untouched := fun _ _ => rfl
      total := by rw [start.count, Nat.sub_zero, Finset.Ico_self, Finset.sum_empty, Nat.add_zero]
    }
  · rintro k hk a ⟨h, hfilled⟩
    obtain ⟨size, hsize⟩ := tensors k hk
    exact ⟨(h.layerTurn o library least hk).1,
      hfilled.layerTurn hk hsize fun g hg => h.lt g (h.subset hg)⟩

end

end Ecco9.Estimate
