import Ecco9.Library.Runs
import Ecco9.KvCache.DefragContents

/-! Every operation keeps the cells of a sequence within the range recorded for it. -/

universe u

namespace Ecco9.KvCache

open Ecco9.Library

/-! ### Sizes -/

/-- What `Init` fixes for good. -/
structure Sizes where
  config : CacheConfig
  length : Nat
  window : Int
  memory : Int
  chunk : Int

def Causal.sizes (c : Causal κ) : Sizes where
  config := c.config
  length := c.cells.length
  window := c.swaWindowSize
  memory := c.swaMemorySize
  chunk := c.chunkSize

structure Sizes.Valid (z : Sizes) : Prop where
  cachePadding : 0 < z.config.cachePadding
  maskBatchPadding : 0 < z.config.maskBatchPadding
  padded : z.config.cachePadding ∣ z.length
  window : 0 ≤ z.window
  memory : z.window ≤ z.memory
  memory_le : z.memory ≤ maxInt32
  chunk : z.chunk ≤ maxInt32

theorem Causal.SameSetup.sizes {c c' : Causal κ} (h : c.SameSetup c')
    (length : c'.cells.length = c.cells.length) : c'.sizes = c.sizes := by
  rw [Causal.sizes, length, h]
  rfl

/-! ### The invariant -/

structure Causal.Ranged (c : Causal κ) : Prop where
  covered : c.Covered
  tracked : ∀ j, ∀ s ∈ (c.cell j).sequences, (c.cellRanges s).isSome
  bounded : ∀ s r, c.cellRanges s = some r → r.max ≤ c.cells.length - 1

theorem Causal.Ranged.has {c : Causal κ} (ranged : c.Ranged) {j : Nat} {s : Int}
    (h : s ∈ (c.cell j).sequences) : ∃ r, c.cellRanges s = some r ∧ r.Has j := by
  obtain ⟨r, hr⟩ := Option.isSome_iff_exists.mp (ranged.tracked j s h)
  exact ⟨r, hr, ranged.covered j s h r hr⟩

theorem Causal.ranged_of_has {c : Causal κ}
    (has : ∀ j, ∀ s ∈ (c.cell j).sequences, ∃ r, c.cellRanges s = some r ∧ r.Has j)
    (bounded : ∀ s r, c.cellRanges s = some r → r.max ≤ c.cells.length - 1) : c.Ranged where
  covered := by
    intro j s hs r hr
    obtain ⟨r', hr', hhas⟩ := has j s hs
    rw [hr'] at hr
    rwa [← Option.some.inj hr]
  tracked := by
    intro j s hs
    obtain ⟨r, hr, -⟩ := has j s hs
    rw [hr]
    rfl
  bounded

/-- Only the cells and their ranges matter. -/
theorem Causal.Ranged.congr {c : Causal κ} {c' : Causal ρ} (ranged : c.Ranged)
    (cells : c'.cells = c.cells) (ranges : c'.cellRanges = c.cellRanges) : c'.Ranged := by
  have cell (j : Nat) : c'.cell j = c.cell j := by rw [Causal.cell, cells, Causal.cell]
  apply ranged_of_has
  · intro j s hs
    rw [cell] at hs
    rw [ranges]
    exact ranged.has hs
  · intro s r hr
    rw [ranges] at hr
    rw [cells]
    exact ranged.bounded s r hr

theorem CellRange.not_has_newRange (j : Nat) : ¬newRange.Has j := by
  rintro ⟨lo, hi⟩
  have := lo.trans hi
  exact absurd this (by decide)

/-! ### The window -/

theorem Causal.slideSeq_ranged {c : Causal κ} (ranged : c.Ranged) (seq pos : Int) :
    (c.slideSeq seq pos).Ranged where
  covered := slideSeq_covered ranged.covered seq pos
  tracked := by
    intro j s hs
    rw [slideSeq_isSome]
    exact ranged.tracked j s (slideSeq_mem ranged.covered hs)
  bounded := by
    intro s r hr
    rw [slideSeq_length]
    cases hrange : c.cellRanges seq with
    | none =>
      simp only [slideSeq, hrange] at hr
      exact ranged.bounded s r hr
    | some old =>
      simp only [slideSeq, hrange] at hr
      by_cases hs : s = seq
      · subst hs
        rw [Function.update_self, Option.some.injEq] at hr
        rw [← hr]
        apply CellRange.foldl_max_le (Nat.zero_le _)
        intro i hi
        have hold := (CellRange.mem_indices.mp (List.mem_filter.mp (List.mem_filter.mp hi).1).1).2
        exact hold.trans (ranged.bounded s old hrange)
      · rw [Function.update_of_ne hs] at hr
        exact ranged.bounded s r hr

theorem Causal.slideSeq_has {c : Causal κ} (seq pos : Int) {j : Nat} (h : c.curCellRange.Has j) :
    (c.slideSeq seq pos).curCellRange.Has j := by
  unfold slideSeq
  split
  · exact h
  · exact h.foldl _

theorem Causal.slideSeq_curMax {c : Causal κ} (ranged : c.Ranged) (seq pos : Int)
    (h : c.curCellRange.max ≤ c.cells.length - 1) :
    (c.slideSeq seq pos).curCellRange.max ≤ c.cells.length - 1 := by
  unfold slideSeq
  split
  · exact h
  · rename_i old hrange
    apply CellRange.foldl_max_le h
    intro i hi
    have hold := (CellRange.mem_indices.mp (List.mem_filter.mp (List.mem_filter.mp hi).1).1).2
    exact hold.trans (ranged.bounded seq old hrange)

/-- The cells of `seq` within the window of `pos` are in the range of the batch. -/
theorem Causal.slideSeq_sees {c : Causal κ} (ranged : c.Ranged) {seq pos : Int} {j : Nat}
    (h : seq ∈ (c.cell j).sequences) (hpos : sub32 pos c.swaWindowSize ≤ (c.cell j).pos) :
    (c.slideSeq seq pos).curCellRange.Has j := by
  obtain ⟨r, hr, hhas⟩ := ranged.has h
  simp only [slideSeq, hr]
  apply CellRange.has_foldl
  simp only [List.mem_filter, CellRange.mem_indices, List.contains_iff_mem, decide_eq_true_eq]
  exact ⟨⟨hhas, h⟩, hpos⟩

/-- Every cell of these sequences that the window of the batch reaches is in its range. -/
def Causal.Sees (c : Causal κ) (seqs : List Int) : Prop :=
  ∀ s ∈ seqs, ∀ j, s ∈ (c.cell j).sequences → ∀ low, c.lowestPos s = some low →
    sub32 low c.swaWindowSize ≤ (c.cell j).pos → c.curCellRange.Has j

structure Causal.SlidRange (c c' : Causal κ) (seqs : List Int) : Prop where
  ranged : c'.Ranged
  has : ∀ j, c.curCellRange.Has j → c'.curCellRange.Has j
  curMax : c.curCellRange.max ≤ c.cells.length - 1 → c'.curCellRange.max ≤ c.cells.length - 1
  sees : c'.Sees seqs

theorem Causal.slidRange_turn {c : Causal κ} (ranged : c.Ranged) (seq : Int) :
    c.SlidRange (c.slideAll [seq]) [seq] := by
  have slid := slid_turn ranged.covered seq
  simp only [slideAll, List.foldl_cons, List.foldl_nil] at slid ⊢
  cases hlow : c.lowestPos seq with
  | none =>
    refine ⟨ranged, fun _ h => h, fun h => h, ?_⟩
    intro s hs j _ low hlow'
    obtain rfl := List.mem_singleton.mp hs
    rw [hlow] at hlow'
    cases hlow'
  | some pos =>
    rw [hlow] at slid
    refine ⟨slideSeq_ranged ranged seq pos, fun _ => slideSeq_has seq pos,
      slideSeq_curMax ranged seq pos, ?_⟩
    intro s hs j hmem low hlow' hle
    obtain rfl := List.mem_singleton.mp hs
    rw [slid.setup.lowestPos, hlow, Option.some.injEq] at hlow'
    subst hlow'
    have hpos : ((c.slideSeq s pos).cell j).pos = (c.cell j).pos := by
      rw [slideSeq_cell ranged.covered]
      split <;> rfl
    have hwin : (c.slideSeq s pos).swaWindowSize = c.swaWindowSize := by
      rw [slideSeq_setup c s pos]
    rw [hpos, hwin] at hle
    exact slideSeq_sees ranged (slideSeq_mem ranged.covered hmem) hle

theorem Causal.Slid.mem {c c' : Causal κ} {seqs : List Int} (slid : c.Slid c' seqs) {j : Nat}
    {s : Int} (h : s ∈ (c'.cell j).sequences) : s ∈ (c.cell j).sequences := by
  rw [slid.cell] at h
  exact (c.foldl_trim_sublist seqs _).subset h

theorem Causal.Slid.pos {c c' : Causal κ} {seqs : List Int} (slid : c.Slid c' seqs) (j : Nat) :
    (c'.cell j).pos = (c.cell j).pos := by
  rw [slid.cell]
  exact c.foldl_trim_pos seqs _

theorem Causal.slidRange_slideAll {c : Causal κ} (ranged : c.Ranged) (seqs : List Int) :
    c.SlidRange (c.slideAll seqs) seqs := by
  induction seqs generalizing c with
  | nil =>
    refine ⟨ranged, fun _ h => h, fun h => h, ?_⟩
    intro s hs
    cases hs
  | cons seq seqs ih =>
    have turn := slidRange_turn ranged seq
    have first := slid_turn ranged.covered seq
    have rest := ih turn.ranged
    have later := slid_slideAll turn.ranged.covered seqs
    change c.SlidRange ((c.slideAll [seq]).slideAll seqs) (seq :: seqs)
    refine ⟨rest.ranged, fun j h => rest.has j (turn.has j h), ?_, ?_⟩
    · intro h
      have := rest.curMax
      rw [first.length] at this
      exact this (turn.curMax h)
    · intro s hs j hmem low hlow hle
      rcases List.mem_cons.mp hs with rfl | hs
      · -- seen in its own turn, and kept since
        apply rest.has
        have hwin : ((c.slideAll [s]).slideAll seqs).swaWindowSize =
            (c.slideAll [s]).swaWindowSize := by rw [later.setup]
        rw [hwin, later.pos] at hle
        rw [later.setup.lowestPos] at hlow
        exact turn.sees s (by simp) j (later.mem hmem) low hlow hle
      · exact rest.sees s hs j hmem low hlow hle

/-- After `updateSlidingWindow` the batch's range holds all that its window reaches. -/
structure Causal.WindowReady (c : Causal κ) : Prop where
  ranged : c.Ranged
  curMax : c.curCellRange.max ≤ c.cells.length - 1
  sees : c.Sees c.curSequences

theorem CellRange.foldl_ranges {ranges : Int → Option CellRange} (seqs : List Int) {n : Nat}
    (bounded : ∀ s r, ranges s = some r → r.max ≤ n) (init : CellRange) (hinit : init.max ≤ n) :
    let all := seqs.foldl (fun r seq =>
      match ranges seq with
      | none => r
      | some seqRange => ⟨Nat.min r.min seqRange.min, Nat.max r.max seqRange.max⟩) init
    all.max ≤ n ∧ (∀ j, init.Has j → all.Has j) ∧
      ∀ s ∈ seqs, ∀ r, ranges s = some r → ∀ j, r.Has j → all.Has j := by
  induction seqs generalizing init with
  | nil => exact ⟨hinit, fun _ h => h, by simp⟩
  | cons seq seqs ih =>
    intro all
    simp only [all, List.foldl_cons]
    cases hr : ranges seq with
    | none =>
      obtain ⟨h1, h2, h3⟩ := ih init hinit
      refine ⟨h1, h2, ?_⟩
      intro s hs r hsr
      rcases List.mem_cons.mp hs with rfl | hs
      · rw [hr] at hsr
        cases hsr
      · exact h3 s hs r hsr
    | some old =>
      obtain ⟨h1, h2, h3⟩ := ih ⟨Nat.min init.min old.min, Nat.max init.max old.max⟩
        (Nat.max_le.mpr ⟨hinit, bounded seq old hr⟩)
      refine ⟨h1, ?_, ?_⟩
      · intro j h
        apply h2
        exact ⟨(Nat.min_le_left _ _).trans h.1, h.2.trans (Nat.le_max_left _ _)⟩
      · intro s hs r hsr j h
        rcases List.mem_cons.mp hs with rfl | hs
        · apply h2
          rw [hr, Option.some.injEq] at hsr
          subst hsr
          exact ⟨(Nat.min_le_right _ _).trans h.1, h.2.trans (Nat.le_max_right _ _)⟩
        · exact h3 s hs r hsr j h

theorem Causal.updateSlidingWindow_ready {c : Causal κ} (ranged : c.Ranged) :
    c.updateSlidingWindow.WindowReady := by
  have fresh : ({ c with curCellRange := newRange } : Causal κ).Ranged := ranged.congr rfl rfl
  have setup := updateSlidingWindow_setup ranged.covered
  unfold updateSlidingWindow at setup ⊢
  dsimp only at setup ⊢
  split
  · obtain ⟨h1, -, h3⟩ := CellRange.foldl_ranges c.curSequences ranged.bounded newRange
      (Nat.zero_le _)
    refine ⟨ranged.congr rfl rfl, h1, ?_⟩
    intro s hs j hmem low _ _
    obtain ⟨r, hr, hhas⟩ := ranged.has hmem
    exact h3 s hs r hr j hhas
  · rename_i hmem
    rw [if_neg hmem] at setup
    have slid := slidRange_slideAll fresh c.curSequences.dedup
    refine ⟨slid.ranged, ?_, ?_⟩
    · rw [setup.2]
      exact slid.curMax (Nat.zero_le _)
    · intro s hs
      apply slid.sees
      rw [setup.1] at hs
      exact List.mem_dedup.mpr hs

theorem Causal.updateSlidingWindow_sizes {c : Causal κ} (ranged : c.Ranged) :
    c.updateSlidingWindow.sizes = c.sizes :=
  (updateSlidingWindow_setup ranged.covered).1.sizes (updateSlidingWindow_setup ranged.covered).2

/-! ### Defragmentation -/

theorem Causal.moved_ranged {c : Causal κ} (ranged : c.Ranged) (maxGraphNodes : Int) :
    (c.moved maxGraphNodes).Ranged where
  covered := covered_moved c maxGraphNodes
  tracked := by
    intro j s hs
    simp only [moved, Option.isSome_map]
    change s ∈ ((c.defragCells maxGraphNodes).cells.getD j {}).sequences at hs
    rw [defragCells_cells] at hs
    rcases getD_mem_or (applyPairs c.cells (fillings c.cells)) j with h | h
    · rcases mem_applyPairs h with h | h
      · obtain ⟨i, hi, heq⟩ := List.mem_iff_getElem.mp h
        rw [← heq] at hs
        apply ranged.tracked i s
        simpa [cell, hi] using hs
      · rw [h] at hs
        cases hs
    · rw [h] at hs
      cases hs
  bounded := by
    intro s r hr
    obtain ⟨old, -, rfl⟩ := Option.map_eq_some_iff.mp hr
    exact rangeOf_max_le _ s

theorem Causal.moved_sizes (c : Causal κ) (maxGraphNodes : Int) :
    (c.moved maxGraphNodes).sizes = c.sizes := by
  have length : (c.moved maxGraphNodes).cells.length = c.cells.length := by
    change (c.defragCells maxGraphNodes).cells.length = _
    rw [defragCells_cells, applyPairs_length]
  rw [sizes, length]
  rfl

theorem Causal.defrag_ready {c : Causal κ} (ranged : c.Ranged) (maxGraphNodes : Int) :
    (c.defrag maxGraphNodes).WindowReady := by
  rw [defrag_eq]
  exact updateSlidingWindow_ready (moved_ranged ranged maxGraphNodes)

theorem Causal.defrag_sizes {c : Causal κ} (ranged : c.Ranged) (maxGraphNodes : Int) :
    (c.defrag maxGraphNodes).sizes = c.sizes := by
  rw [defrag_eq, updateSlidingWindow_sizes (moved_ranged ranged maxGraphNodes), moved_sizes]

end Ecco9.KvCache
