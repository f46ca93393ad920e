import Ecco9.KvCache.Mask
import Mathlib.Order.Interval.Finset.Nat
import Mathlib.Algebra.BigOperators.Group.Finset.Piecewise
import Mathlib.Data.Finset.Card

/-! When `StartForward` finds room: `defrag` leaves the free cells at the end, so that all of them
count. -/

universe u

namespace Ecco9.KvCache

open Ecco9.Library

/-- The cells in use. -/
def usedCells (cells : List CacheCell) : Finset Nat :=
  (Finset.range cells.length).filter fun i => (cells.getD i {}).free = false

theorem mem_usedCells {cells : List CacheCell} {i : Nat} :
    i ∈ usedCells cells ↔ i < cells.length ∧ (cells.getD i {}).free = false := by
  rw [usedCells, Finset.mem_filter, Finset.mem_range]

theorem lt_of_used {cells : List CacheCell} {i : Nat} (h : (cells.getD i {}).free = false) :
    i < cells.length := by
  by_contra hge
  rw [List.getD_eq_getElem?_getD, List.getElem?_eq_none (Nat.not_lt.mp hge)] at h
  cases h

/-- A block of free cells takes no room from those in use. -/
theorem usedCells_add_le {cells : List CacheCell} {loc n : Nat} (fits : loc + n ≤ cells.length)
    (free : ∀ k, loc ≤ k → k < loc + n → (cells.getD k {}).free) :
    (usedCells cells).card + n ≤ cells.length := by
  have apart : Disjoint (usedCells cells) (Finset.Ico loc (loc + n)) := by
    rw [Finset.disjoint_left]
    intro i hi hmem
    rw [Finset.mem_Ico] at hmem
    have := free i hmem.1 hmem.2
    rw [(mem_usedCells.mp hi).2] at this
    cases this
  have both : usedCells cells ∪ Finset.Ico loc (loc + n) ⊆ Finset.range cells.length := by
    intro i hi
    rw [Finset.mem_range]
    rcases Finset.mem_union.mp hi with hi | hi
    · exact (mem_usedCells.mp hi).1
    · have := (Finset.mem_Ico.mp hi).2
      omega
  have := Finset.card_le_card both
  rwa [Finset.card_union_of_disjoint apart, Nat.card_Ico, Nat.add_sub_cancel_left,
    Finset.card_range] at this

/-! ### After the fillings -/

/-- The cells in use come first. -/
def Compact (cells : List CacheCell) : Prop :=
  ∀ i j, i < j → (cells.getD i {}).free → (cells.getD j {}).free

theorem findSrc_none {cells : List CacheCell} {dst src : Nat} (h : findSrc cells dst src = none)
    (i : Nat) (hlo : dst < i) (hhi : i ≤ src) : (cells.getD i {}).free := by
  induction src with
  | zero => omega
  | succ src ih =>
    rw [findSrc, if_pos (by omega)] at h
    split at h
    · rename_i hfree
      by_cases hi : i = src + 1
      · rwa [hi]
      · exact ih h (by omega)
    · cases h

theorem compact_fillPairs {cells : List CacheCell} {src lo n : Nat}
    (front : ∀ i < lo, (cells.getD i {}).free = false)
    (back : ∀ i, src < i → (cells.getD i {}).free) (hn : cells.length ≤ lo + n) :
    Compact (applyPairs cells (fillPairs cells src (List.range' lo n))) := by
  induction n generalizing cells src lo with
  | zero =>
    intro i j hij hi
    rcases Nat.lt_or_ge j cells.length with hj | hj
    · have := front i (by omega)
      rw [show (cells.getD i {}).free = true from hi] at this
      cases this
    · change (cells.getD j {}).free
      rw [List.getD_eq_getElem?_getD, List.getElem?_eq_none hj]
      rfl
  | succ n ih =>
    rw [List.range'_succ, fillPairs]
    split
    · rename_i hlt
      split
      · split
        · rename_i s hs
          obtain ⟨h1, h2, h3, h4⟩ := findSrc_some hs
          have hlen := lt_of_used h3
          rw [← fillPairs_applyPair]
          apply ih
          · intro i hi
            rcases Nat.lt_succ_iff_lt_or_eq.mp hi with hi | rfl
            · rw [getD_applyPair_of_ne (by omega) (by omega)]
              exact front i hi
            · rwa [getD_applyPair_dst h1 hlen]
          · intro i hi
            rw [getD_applyPair_of_ne (by omega) (by omega)]
            by_cases hsrc : i ≤ src
            · exact h4 i hi hsrc
            · exact back i (by omega)
          · rw [applyPair_length]
            omega
        · rename_i hnone
          intro i j hij hi
          by_cases hj : j ≤ src
          · have hlo : lo ≤ i := by
              by_contra hlt
              have := front i (by omega)
              rw [show (cells.getD i {}).free = true from hi] at this
              cases this
            exact findSrc_none hnone j (by omega) hj
          · exact back j (by omega)
      · rename_i hused
        apply ih _ back (by omega)
        intro i hi
        rcases Nat.lt_succ_iff_lt_or_eq.mp hi with hi | rfl
        · exact front i hi
        · simpa using hused
    · intro i j hij hi
      apply back j
      by_contra hle
      have := front i (by omega)
      rw [show (cells.getD i {}).free = true from hi] at this
      cases this

theorem compact_fillings (cells : List CacheCell) :
    Compact (applyPairs cells (fillings cells)) := by
  rw [fillings_eq, List.range_eq_range']
  apply compact_fillPairs
  · intro i hi
    omega
  · intro i hi
    rw [List.getD_eq_getElem?_getD, List.getElem?_eq_none (by omega)]
    rfl
  · omega

theorem card_usedCells (cells : List CacheCell) : (usedCells cells).card =
    ((entries cells fun _ => ()).map fun e => if e.1.free then 0 else 1).sum := by
  have sum := sum_contents (fun cell => !cell.free) cells.length (fun i => cells.getD i {})
    (fun _ => ()) (fun cell => if cell.free then 0 else 1) (by simp)
  rw [usedCells, Finset.card_filter, entries, sum]
  refine Finset.sum_congr rfl fun i _ => ?_
  cases (cells.getD i {}).free <;> rfl

theorem card_usedCells_applyPairs (cells : List CacheCell) :
    (usedCells (applyPairs cells (fillings cells))).card = (usedCells cells).card := by
  rw [card_usedCells, card_usedCells, entries_applyPairs (fills_fillings cells) (Nat.le_refl _)]

/-! ### The search for room -/

theorem findStartLocFrom_isSome {batchSize : Nat} {all cells : List CacheCell}
    {i start count loc : Nat} (hi : all.drop i = cells) (hcount : start + count = i)
    (hsmall : count < batchSize) (hstart : start ≤ loc) (fits : loc + batchSize ≤ all.length)
    (free : ∀ k, loc ≤ k → k < loc + batchSize → (all.getD k {}).free) :
    (findStartLocFrom batchSize cells i start count).isSome := by
  induction cells generalizing i start count with
  | nil =>
    have := List.drop_eq_nil_iff.mp hi
    omega
  | cons cell cells ih =>
    have hlt : i < all.length := by
      by_contra hge
      rw [List.drop_eq_nil_of_le (Nat.not_lt.mp hge)] at hi
      cases hi
    have hcell : all.getD i {} = cell := by
      rw [List.drop_eq_getElem_cons hlt] at hi
      simpa [hlt] using (List.cons.inj hi).1
    have htail : all.drop (i + 1) = cells := by
      rw [← List.tail_drop, hi]
      rfl
    rw [findStartLocFrom]
    split
    · split
      · rfl
      · exact ih htail (by omega) (by omega) hstart
    · rename_i hused
      apply ih htail (by omega) (by omega)
      -- the block lies behind a cell in use
      by_contra hle
      exact hused (hcell ▸ free i (by omega) (by omega))

theorem Compact.free {cells : List CacheCell} (compact : Compact cells) {k : Nat}
    (hk : (usedCells cells).card ≤ k) : (cells.getD k {}).free := by
  by_contra hused
  have hused : (cells.getD k {}).free = false := by simpa using hused
  have before : Finset.range (k + 1) ⊆ usedCells cells := by
    intro i hi
    have hi := Finset.mem_range.mp hi
    have here : (cells.getD i {}).free = false := by
      by_contra hfree
      have hfree : (cells.getD i {}).free = true := by simpa using hfree
      have hne : i ≠ k := by
        rintro rfl
        rw [hused] at hfree
        cases hfree
      have := compact i k (by omega) hfree
      rw [hused] at this
      cases this
    exact mem_usedCells.mpr ⟨lt_of_used here, here⟩
  have := Finset.card_le_card before
  rw [Finset.card_range] at this
  omega

theorem Causal.findStartLoc_of_compact {c : Causal κ} (compact : Compact c.cells)
    (hn : 1 ≤ c.curBatchSize) (hroom : (usedCells c.cells).card + c.curBatchSize ≤ c.cells.length) :
    c.findStartLoc.isSome :=
  findStartLocFrom_isSome (show c.cells.drop 0 = c.cells from rfl) rfl hn (Nat.zero_le _) hroom
    fun _ hk _ => compact.free hk

theorem Causal.room_of_findStartLoc {c : Causal κ} {loc : Nat} (h : c.findStartLoc = some loc) :
    (usedCells c.cells).card + c.curBatchSize ≤ c.cells.length :=
  usedCells_add_le (findStartLoc_some h).1 (findStartLoc_some h).2

/-! ### The window before and after -/

theorem Causal.updateSlidingWindow_settled {c : Causal κ} (ranged : c.Ranged) :
    c.updateSlidingWindow.WindowSettled := by
  have setup := (updateSlidingWindow_setup ranged.covered).1
  have hmemory : c.updateSlidingWindow.swaMemorySize = c.swaMemorySize := by rw [setup]
  by_cases hmem : c.swaMemorySize = maxInt32
  · exact .inl (hmemory.trans hmem)
  · refine .inr ?_
    intro cell hcell seq hseq _ low hlow hlt
    obtain ⟨j, hj, rfl⟩ := List.mem_iff_getElem.mp hcell
    have here : c.updateSlidingWindow.cells[j] = c.trimAll (c.cell j) := by
      rw [← updateSlidingWindow_cell ranged.covered, Causal.cell]
      simp [hj]
    rw [here] at hseq hlt
    rw [setup.lowestPos] at hlow
    rw [hmemory, trimAll_pos] at hlt
    have hold := (c.trimAll_sublist _).subset hseq
    exact notMem_trimAll hmem (ranged.tracked j seq hold) hlow hlt hseq

theorem Causal.defrag_cells {c : Causal κ} (settled : c.WindowSettled) (maxGraphNodes : Int) :
    (c.defrag maxGraphNodes).cells = applyPairs c.cells (fillings c.cells) := by
  apply List.ext_getElem
  · rw [defrag_length, applyPairs_length]
  · intro j h1 h2
    have hcell := defrag_cell c maxGraphNodes j
    have here : c.trimAll (applyPairs c.cells (fillings c.cells))[j] =
        (applyPairs c.cells (fillings c.cells))[j] := by
      rcases mem_applyPairs (List.getElem_mem h2) with h | h
      · exact trimAll_of_settled settled h
      · rw [h, trimAll_default]
    have hget : (applyPairs c.cells (fillings c.cells)).getD j {} =
        (applyPairs c.cells (fillings c.cells))[j] := by
      rw [List.getD_eq_getElem?_getD, List.getElem?_eq_getElem h2, Option.getD_some]
    rw [hget, here] at hcell
    rw [← hcell, Causal.cell]
    simp [h1]

/-- `StartForward` finds room exactly when the free cells are enough once the window has moved on. -/
theorem Causal.prepare_none_iff {c : Causal κ} (ranged : c.Ranged) {batch : Batch}
    (hne : batch.positions ≠ []) (maxGraphNodes : Int) :
    (c.prepare batch maxGraphNodes).2 = none ↔
      (usedCells (c.withBatch batch).updateSlidingWindow.cells).card + batch.positions.length ≤
        c.cells.length := by
  obtain ⟨ready, setup, sizes⟩ := updateSlidingWindow_withBatch ranged batch
  have settled := updateSlidingWindow_settled (c := c.withBatch batch) (ranged.congr rfl rfl)
  rw [prepare_eq]
  dsimp only
  generalize (c.withBatch batch).updateSlidingWindow = w at ready setup sizes settled
  have hsize : w.curBatchSize = batch.positions.length := by
    rw [setup]
    rfl
  have hlen : w.cells.length = c.cells.length := congrArg (·.length) sizes
  have hpos := List.length_pos_iff.mpr hne
  rw [← hsize, ← hlen]
  have hcells := defrag_cells settled maxGraphNodes
  have hsizeD : (w.defrag maxGraphNodes).curBatchSize = w.curBatchSize := by
    rw [defrag_eq, (updateSlidingWindow_setup (covered_moved w maxGraphNodes)).1]
    rfl
  split
  · rename_i loc hloc
    simp only [true_iff]
    exact room_of_findStartLoc hloc
  · split
    · rename_i loc hloc
      simp only [true_iff]
      have := room_of_findStartLoc hloc
      rwa [hsizeD, defrag_length, hcells, card_usedCells_applyPairs] at this
    · rename_i hnone
      simp only [reduceCtorEq, false_iff]
      intro hroom
      have := findStartLoc_of_compact (c := w.defrag maxGraphNodes)
        (by rw [hcells]; exact compact_fillings w.cells) (by omega)
        (by rw [hsizeD, defrag_length, hcells, card_usedCells_applyPairs]; exact hroom)
      rw [hnone] at this
      cases this

/-! ### What stays -/

/-- What a batch leaves of `seq` in a cell: all, unless it goes on with the sequence and the cell
lies before the memory of its first position. -/
def Causal.stays (c : Causal κ) (batch : Batch) (cell : CacheCell) (seq : Int) : Bool :=
  match (c.withBatch batch).lowestPos seq with
  | none => true
  | some low => decide (sub32 low c.swaMemorySize ≤ cell.pos)

/-- The cells in which some sequence stays when a batch comes. -/
def Causal.staying (c : Causal κ) (batch : Batch) : Finset Nat :=
  (Finset.range c.cells.length).filter fun i =>
    ∃ seq ∈ (c.cell i).sequences, c.stays batch (c.cell i) seq

theorem Causal.mem_trim {c : Causal κ} {seq s : Int} {cell : CacheCell}
    (h : s ∈ cell.sequences) (keep : ∀ low, c.lowestPos s = some low →
      sub32 low c.swaMemorySize ≤ cell.pos) : s ∈ (c.trim seq cell).sequences := by
  unfold trim
  split
  · split
    · rename_i low hlow
      split
      · rename_i hlt
        refine CacheCell.mem_delete.mpr ⟨h, ?_⟩
        rintro rfl
        have := keep low hlow
        omega
      · exact h
    · exact h
  · exact h

theorem Causal.mem_trimAll {c : Causal κ} (hmem : c.swaMemorySize ≠ maxInt32) {s : Int}
    {cell : CacheCell} (hrange : s ∈ cell.sequences → (c.cellRanges s).isSome) :
    s ∈ (c.trimAll cell).sequences ↔ s ∈ cell.sequences ∧ ∀ low, c.lowestPos s = some low →
      sub32 low c.swaMemorySize ≤ cell.pos := by
  constructor
  · intro h
    have hold := (c.trimAll_sublist cell).subset h
    refine ⟨hold, fun low hlow => ?_⟩
    by_contra hlt
    exact notMem_trimAll hmem (hrange hold) hlow (Int.not_le.mp hlt) h
  · rintro ⟨h, keep⟩
    rw [trimAll, if_neg hmem]
    clear hrange
    induction c.curSequences.dedup generalizing cell with
    | nil => exact h
    | cons seq seqs ih =>
      rw [List.foldl_cons]
      apply ih (mem_trim h keep)
      rwa [trim_pos]

theorem Causal.usedCells_slid {c : Causal κ} (ranged : c.Ranged)
    (hmem : c.swaMemorySize ≠ maxInt32) (batch : Batch) :
    usedCells (c.withBatch batch).updateSlidingWindow.cells = c.staying batch := by
  have here : (c.withBatch batch).Ranged := ranged.congr rfl rfl
  have hlen := (updateSlidingWindow_setup here.covered).2
  ext i
  rw [mem_usedCells, hlen, staying, Finset.mem_filter, Finset.mem_range]
  refine and_congr_right fun _ => ?_
  have hcell := updateSlidingWindow_cell here.covered i
  rw [Causal.cell] at hcell
  rw [hcell, CacheCell.free, Bool.eq_false_iff, ne_eq, List.isEmpty_iff,
    List.eq_nil_iff_forall_not_mem]
  push Not
  refine exists_congr fun s => ?_
  rw [mem_trimAll (c := c.withBatch batch) hmem (here.tracked i s), stays]
  refine and_congr_right fun _ => ?_
  cases (c.withBatch batch).lowestPos s with
  | none => simp
  | some low =>
    simp only [Option.some.injEq, forall_eq', decide_eq_true_eq]
    exact Iff.rfl

/-- `StartForward` fails exactly when what stays and the batch are more than the cache has. -/
theorem Causal.startForward_none_iff {c : Causal κ} (ranged : c.Ranged)
    (hmem : c.swaMemorySize ≠ maxInt32) {batch : Batch} (hne : batch.positions ≠ [])
    (maxGraphNodes : Int) : (c.startForward batch false maxGraphNodes).2 = none ↔
      (c.staying batch).card + batch.positions.length ≤ c.cells.length := by
  rw [← usedCells_slid ranged hmem, ← prepare_none_iff ranged hne maxGraphNodes, startForward,
    if_neg Bool.false_ne_true]
  split
  · rename_i h
    rw [h]
  · rename_i h
    rw [h]

end Ecco9.KvCache
