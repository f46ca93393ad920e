import Ecco9.KvCache.DefragRows
import Ecco9.KvCache.Window
import Mathlib.Algebra.Order.BigOperators.Group.Finset

/-! When `defrag` keeps every row with its cell. -/

universe u

namespace Ecco9.KvCache

open Ecco9.Library

/-- The same cells over other tensors. -/
def Causal.withTensors (c : Causal κ) (tensors : List (Option (LayerTensors ρ))) : Causal ρ where
  swaWindowSize := c.swaWindowSize
  swaMemorySize := c.swaMemorySize
  chunkSize := c.chunkSize
  except := c.except
  maxBatch := c.maxBatch
  config := c.config
  curReserve := c.curReserve
  curLayer := c.curLayer
  curLoc := c.curLoc
  curBatchSize := c.curBatchSize
  curMask := c.curMask
  curCellRange := c.curCellRange
  curSequences := c.curSequences
  curPositions := c.curPositions
  cells := c.cells
  cellRanges := c.cellRanges
  tensors

/-- In every layer, and for keys as for values, the cells in use carry the same positions and
sequences with the same rows in both caches. -/
def Causal.SameContents (c c' : Causal κ) : Prop :=
  List.Forall₂ (Option.Rel fun t t' => entries c'.cells t'.key = entries c.cells t.key ∧
    entries c'.cells t'.value = entries c.cells t.value) c.tensors c'.tensors

/-- `defrag` keeps the contents, whatever rows are stored. -/
def Causal.DefragKeeps (c : Causal κ) : Prop :=
  ∀ (ρ : Type) (tensors : List (Option (LayerTensors ρ))) (maxGraphNodes : Int),
    1 ≤ (c.withTensors tensors).layers →
    1 ≤ maxMoves maxGraphNodes (c.withTensors tensors).layers →
    (c.withTensors tensors).SameContents ((c.withTensors tensors).defrag maxGraphNodes)

/-- The window of the current batch has been applied: no entry of the batch's sequences is older
than the memory.  `StartForward` sees to this before it calls `defrag`. -/
def Causal.WindowSettled (c : Causal κ) : Prop :=
  c.swaMemorySize = maxInt32 ∨
    ∀ cell ∈ c.cells, ∀ seq ∈ cell.sequences, (c.cellRanges seq).isSome →
      ∀ low, c.lowestPos seq = some low → ¬cell.pos < sub32 low c.swaMemorySize

theorem compute_eq_map (ts : List (Option (LayerTensors κ))) (ms : List Move) :
    compute ts ms = ts.map (·.map fun t => ⟨copyAll ms t.key, copyAll ms t.value⟩) := by
  induction ms generalizing ts with
  | nil =>
    have : (fun t : Option (LayerTensors κ) => t.map fun t =>
        (⟨copyAll [] t.key, copyAll [] t.value⟩ : LayerTensors κ)) = id := by
      funext t
      cases t <;> rfl
    rw [this, List.map_id]
    rfl
  | cons m ms ih =>
    change compute (ts.map (·.map (·.moveCells m))) ms = _
    rw [ih, List.map_map]
    congr 1
    funext t
    cases t <;> rfl

/-! ### The window after the moves -/

/-- The cache `defrag` hands to `updateSlidingWindow`. -/
def Causal.moved (c : Causal κ) (maxGraphNodes : Int) : Causal κ :=
  { c with
    cells := (c.defragCells maxGraphNodes).cells
    tensors := (c.defragCells maxGraphNodes).tensors
    cellRanges := fun seq => (c.cellRanges seq).map fun _ =>
      rangeOf (c.defragCells maxGraphNodes).cells seq }

theorem Causal.defrag_eq (c : Causal κ) (maxGraphNodes : Int) :
    c.defrag maxGraphNodes = (c.moved maxGraphNodes).updateSlidingWindow := rfl

theorem lt_of_mem_cell {cells : List CacheCell} {j : Nat} {s : Int}
    (h : s ∈ (cells.getD j {}).sequences) : j < cells.length := by
  by_contra hge
  rw [List.getD_eq_getElem?_getD, List.getElem?_eq_none (Nat.not_lt.mp hge)] at h
  cases h

theorem Causal.covered_moved (c : Causal κ) (maxGraphNodes : Int) :
    (c.moved maxGraphNodes).Covered := by
  intro j s hs r hr
  obtain ⟨old, -, rfl⟩ := Option.map_eq_some_iff.mp hr
  exact rangeOf_has (lt_of_mem_cell hs) hs

theorem Causal.trimAll_moved (c : Causal κ) (maxGraphNodes : Int) (cell : CacheCell) :
    (c.moved maxGraphNodes).trimAll cell = c.trimAll cell := by
  have htrim (seq : Int) (cell : CacheCell) :
      (c.moved maxGraphNodes).trim seq cell = c.trim seq cell := by
    simp only [trim, moved, Option.isSome_map]
    rfl
  unfold trimAll
  simp only [htrim]
  rfl

theorem Causal.defrag_cell (c : Causal κ) (maxGraphNodes : Int) (j : Nat) :
    (c.defrag maxGraphNodes).cell j =
      c.trimAll ((applyPairs c.cells (fillings c.cells)).getD j {}) := by
  rw [defrag_eq, updateSlidingWindow_cell (covered_moved c _), trimAll_moved]
  change c.trimAll ((c.defragCells maxGraphNodes).cells.getD j {}) = _
  rw [defragCells_cells]

theorem Causal.defrag_length (c : Causal κ) (maxGraphNodes : Int) :
    (c.defrag maxGraphNodes).cells.length = c.cells.length := by
  rw [defrag_eq, (updateSlidingWindow_setup (covered_moved c _)).2]
  change (c.defragCells maxGraphNodes).cells.length = _
  rw [defragCells_cells, applyPairs_length]

theorem Causal.defrag_tensors (c : Causal κ) (maxGraphNodes : Int) :
    (c.defrag maxGraphNodes).tensors =
      c.tensors.map (·.map fun t => ⟨copyAll (mergePairs none (fillings c.cells)) t.key,
        copyAll (mergePairs none (fillings c.cells)) t.value⟩) := by
  rw [← compute_eq_map, ← defragCells_tensors c maxGraphNodes, defrag_eq,
    (updateSlidingWindow_setup (covered_moved c _)).1]
  rfl

theorem Causal.trimAll_of_settled {c : Causal κ} (settled : c.WindowSettled) {cell : CacheCell}
    (h : cell ∈ c.cells) : c.trimAll cell = cell := by
  unfold trimAll
  rcases settled with hmax | hold
  · rw [if_pos hmax]
  · split
    · rfl
    · have keep (seq : Int) : c.trim seq cell = cell := by
        unfold trim
        split
        · split
          · split
            · rename_i low hlow hlt
              apply CacheCell.delete_of_notMem
              intro hmem
              exact hold cell h seq hmem ‹_› low hlow hlt
            · rfl
          · rfl
        · rfl
      induction c.curSequences.dedup with
      | nil => rfl
      | cons seq seqs ih => rw [List.foldl_cons, keep, ih]

/-! ### The cells that are moved -/

theorem getD_mem_or (cells : List CacheCell) (i : Nat) :
    cells.getD i {} ∈ cells ∨ cells.getD i {} = {} := by
  rw [List.getD_eq_getElem?_getD]
  cases h : cells[i]? with
  | none => exact .inr rfl
  | some cell => exact .inl (List.mem_of_getElem? h)

theorem mem_applyPairs {cells : List CacheCell} {ps : List (Nat × Nat)} {cell : CacheCell}
    (h : cell ∈ applyPairs cells ps) : cell ∈ cells ∨ cell = {} := by
  induction ps generalizing cells with
  | nil => exact .inl h
  | cons p ps ih =>
    rcases ih h with h | h
    · rcases List.mem_or_eq_of_mem_set h with h | h
      · rcases List.mem_or_eq_of_mem_set h with h | rfl
        · exact .inl h
        · exact getD_mem_or _ p.2
      · exact .inr h
    · exact .inr h

/-- The moves permute the cells in use. -/
theorem entries_applyPairs {cells : List CacheCell} {lo hi : Nat} {ps : List (Nat × Nat)}
    (fills : Fills cells lo hi ps) (hlen : hi ≤ cells.length) :
    entries (applyPairs cells ps) (fun _ => ()) = entries cells (fun _ => ()) := by
  induction ps generalizing cells lo hi with
  | nil => rfl
  | cons p ps ih =>
    have h3 := fills.2.2.1
    refine (ih fills.tail (by rw [applyPair_length]; omega)).trans ?_
    exact entries_single fills.2.1 (by omega) fills.2.2.2.1 fun _ => ()

theorem Causal.entries_defrag {c : Causal κ} (settled : c.WindowSettled) (maxGraphNodes : Int)
    (row : Nat → ρ) :
    entries (c.defrag maxGraphNodes).cells row =
      entries (applyPairs c.cells (fillings c.cells)) row := by
  rw [entries, entries, defrag_length, applyPairs_length]
  apply contents_congr
  · intro i _
    have hcell := defrag_cell c maxGraphNodes i
    rw [cell] at hcell
    rw [hcell]
    rcases getD_mem_or (applyPairs c.cells (fillings c.cells)) i with h | h
    · rcases mem_applyPairs h with h | h
      · exact trimAll_of_settled settled h
      · rw [h, trimAll_default]
    · rw [h, trimAll_default]
  · intro i _ _
    rfl

/-! ### The window deletes nothing -/

/-- How many entries a store holds, over all sequences. -/
theorem sum_entries (cells : List CacheCell) (row : Nat → ρ) :
    ((entries cells row).map fun e => e.1.sequences.length).sum =
      ∑ i ∈ Finset.range cells.length, (cells.getD i {}).sequences.length := by
  refine sum_contents _ _ _ _ (fun cell : CacheCell => cell.sequences.length) ?_
  intro cell h
  simpa [CacheCell.free] using h

theorem Causal.settled_of_entries {c : Causal κ} {maxGraphNodes : Int} {row row' : Nat → ρ}
    (h : entries (c.defrag maxGraphNodes).cells row' = entries c.cells row) : c.WindowSettled := by
  have fills := fills_fillings c.cells
  have before : ∑ i ∈ Finset.range c.cells.length, (c.cells.getD i {}).sequences.length =
      ∑ i ∈ Finset.range c.cells.length,
        ((applyPairs c.cells (fillings c.cells)).getD i {}).sequences.length := by
    have moved := sum_entries (applyPairs c.cells (fillings c.cells)) fun _ => ()
    rw [entries_applyPairs fills (Nat.le_refl _), applyPairs_length, sum_entries] at moved
    exact moved
  have after := sum_entries (c.defrag maxGraphNodes).cells row'
  rw [h, sum_entries, defrag_length, before] at after
  have hle : ∀ i ∈ Finset.range c.cells.length,
      ((c.defrag maxGraphNodes).cells.getD i {}).sequences.length ≤
        ((applyPairs c.cells (fillings c.cells)).getD i {}).sequences.length := by
    intro i _
    have hcell := c.defrag_cell maxGraphNodes i
    rw [cell] at hcell
    rw [hcell]
    exact (c.trimAll_sublist _).length_le
  have heq := (Finset.sum_eq_sum_iff_of_le hle).mp after.symm
  by_cases hmem : c.swaMemorySize = maxInt32
  · exact .inl hmem
  · refine .inr ?_
    intro cell hcell seq hseq hrange low hlow hlt
    -- the cell is in use, so it is among the moved ones
    obtain ⟨i, hi, rfl⟩ := List.mem_iff_getElem.mp hcell
    have hused : (c.cells[i], ()) ∈ entries c.cells fun _ => () := by
      refine mem_contents.mpr ⟨i, hi, ?_, ?_⟩
      · have : c.cells[i].sequences ≠ [] := List.ne_nil_of_mem hseq
        simpa [hi, CacheCell.free] using this
      · simp [hi]
    rw [← entries_applyPairs fills (Nat.le_refl _)] at hused
    obtain ⟨j, hj, -, hjcell⟩ := mem_contents.mp hused
    rw [applyPairs_length] at hj
    have hlen := heq j (Finset.mem_range.mpr hj)
    have hdefrag := c.defrag_cell maxGraphNodes j
    rw [Causal.cell] at hdefrag
    rw [hdefrag, ← (Prod.mk.inj hjcell).1] at hlen
    have := trimAll_of_length hlen
    apply notMem_trimAll hmem hrange hlow hlt
    rwa [this]

/-! ### The contents -/

theorem Causal.sameContents_defrag {c : Causal κ}
    (harmless : SwapsHarmless c.cells (fillings c.cells)) (settled : c.WindowSettled)
    (maxGraphNodes : Int) : c.SameContents (c.defrag maxGraphNodes) := by
  have keep (row : Nat → κ) :
      entries (c.defrag maxGraphNodes).cells
        (copyAll (mergePairs none (fillings c.cells)) row) = entries c.cells row := by
    rw [entries_defrag settled]
    exact entries_mergePairs (fills_fillings c.cells) (Nat.le_refl _) harmless row
  rw [SameContents, defrag_tensors, List.forall₂_map_right_iff, List.forall₂_same]
  intro t _
  cases t with
  | none => exact .none
  | some t => exact .some ⟨keep t.key, keep t.value⟩

/-- `defrag` keeps every row with its cell exactly when no filling is copied to the wrong cell and
the window has been applied. -/
theorem Causal.defrag_keeps_iff (c : Causal κ) :
    c.DefragKeeps ↔ SwapsHarmless c.cells (fillings c.cells) ∧ c.WindowSettled := by
  constructor
  · intro h
    -- the rows of the one layer are the numbers of their cells
    have hlayers : (c.withTensors [some (⟨id, id⟩ : LayerTensors Nat)]).layers = 1 := rfl
    have rows := h Nat [some ⟨id, id⟩] 8 (by rw [hlayers]) (by rw [hlayers]; decide)
    rw [SameContents, defrag_tensors] at rows
    obtain ⟨hkey, -⟩ : _ ∧ _ := by
      cases rows with
      | cons head _ => cases head with
        | some h => exact h
    have settled : (c.withTensors [some (⟨id, id⟩ : LayerTensors Nat)]).WindowSettled :=
      settled_of_entries hkey
    rw [entries_defrag settled] at hkey
    exact ⟨harmless_of_entries (fills_fillings c.cells) (Nat.le_refl _) hkey, settled⟩
  · rintro ⟨harmless, settled⟩ ρ tensors maxGraphNodes - -
    exact sameContents_defrag (c := c.withTensors tensors) harmless settled maxGraphNodes

/-- Two tokens of one sequence behind two free cells. -/
def twoBehind : Causal Nat :=
  { newCausalCache none with
    swaWindowSize := maxInt32
    swaMemorySize := maxInt32
    config := ⟨1, 1⟩
    cells := [{}, {}, { pos := 0, sequences := [0] }, { pos := 1, sequences := [0] }]
    cellRanges := Function.update (fun _ => none) 0 (some ⟨2, 3⟩) }

/-- The holes are filled in the order `0 ← 3`, `1 ← 2`, but copied as the block `2, 3`. -/
theorem twoBehind_swapped : ¬twoBehind.DefragKeeps := by
  intro h
  have rows := h Nat [some ⟨id, id⟩] 8 (by decide) (by decide)
  rw [Causal.SameContents, Causal.defrag_tensors] at rows
  cases rows with
  | cons head _ => cases head with
    | some same =>
      have hkey := same.1
      revert hkey
      decide

end Ecco9.KvCache
