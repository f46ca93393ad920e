import Ecco9.KvCache.Causal

/-! The sliding window: which entries `updateSlidingWindow` deletes, and the range of cells it
leaves for the batch. -/

universe u

namespace Ecco9.KvCache

open Ecco9.Library

/-! ### Ranges -/

def CellRange.Has (r : CellRange) (j : Nat) : Prop := r.min ≤ j ∧ j ≤ r.max

theorem CellRange.has_extend_self (r : CellRange) (i : Nat) : (r.extend i).Has i :=
  ⟨Nat.min_le_right _ _, Nat.le_max_right _ _⟩

theorem CellRange.Has.extend {r : CellRange} {j : Nat} (h : r.Has j) (i : Nat) :
    (r.extend i).Has j :=
  ⟨(Nat.min_le_left _ _).trans h.1, h.2.trans (Nat.le_max_left _ _)⟩

theorem CellRange.Has.foldl {r : CellRange} {j : Nat} (h : r.Has j) (l : List Nat) :
    (l.foldl CellRange.extend r).Has j := by
  induction l generalizing r with
  | nil => exact h
  | cons i l ih => exact ih (h.extend i)

theorem CellRange.has_foldl {l : List Nat} {j : Nat} (h : j ∈ l) (r : CellRange) :
    (l.foldl CellRange.extend r).Has j := by
  induction l generalizing r with
  | nil => cases h
  | cons i l ih =>
    rcases List.mem_cons.mp h with rfl | h
    · exact (has_extend_self r j).foldl l
    · exact ih h _

theorem CellRange.foldl_max_le {l : List Nat} {r : CellRange} {n : Nat} (hr : r.max ≤ n)
    (hl : ∀ i ∈ l, i ≤ n) : (l.foldl CellRange.extend r).max ≤ n := by
  induction l generalizing r with
  | nil => exact hr
  | cons i l ih =>
    apply ih
    · exact Nat.max_le.mpr ⟨hr, hl i (by simp)⟩
    · intro k hk
      exact hl k (by simp [hk])

theorem CellRange.mem_indices {r : CellRange} {j : Nat} : j ∈ r.indices ↔ r.Has j := by
  simp only [indices, Has, List.mem_range'_1]
  omega

theorem rangeOf_has {cells : List CacheCell} {seq : Int} {j : Nat} (hj : j < cells.length)
    (h : seq ∈ (cells.getD j {}).sequences) : (rangeOf cells seq).Has j := by
  apply CellRange.has_foldl
  rw [List.mem_filter, List.mem_range, List.contains_iff_mem]
  exact ⟨hj, h⟩

theorem rangeOf_max_le (cells : List CacheCell) (seq : Int) :
    (rangeOf cells seq).max ≤ cells.length - 1 := by
  apply CellRange.foldl_max_le (Nat.zero_le _)
  intro i hi
  have := (List.mem_filter.mp hi).1
  rw [List.mem_range] at this
  omega

/-! ### The lowest position of a sequence in the batch -/

theorem foldl_lowerPos_some (seq low : Int) (l : List (Int × Int)) :
    ∃ low', l.foldl (lowerPos seq) (some low) = some low' ∧ low' ≤ low := by
  induction l generalizing low with
  | nil => exact ⟨low, rfl, Int.le_refl _⟩
  | cons e l ih =>
    rw [List.foldl_cons, lowerPos]
    split
    · split
      · obtain ⟨low', h, hle⟩ := ih e.2
        exact ⟨low', h, by omega⟩
      · exact ih low
    · exact ih low

theorem foldl_lowerPos_le {seq pos : Int} {l : List (Int × Int)} (h : (seq, pos) ∈ l)
    (init : Option Int) : ∃ low, l.foldl (lowerPos seq) init = some low ∧ low ≤ pos := by
  induction l generalizing init with
  | nil => cases h
  | cons e l ih =>
    rw [List.foldl_cons]
    rcases List.mem_cons.mp h with rfl | h
    · have first : ∃ low, lowerPos seq init (seq, pos) = some low ∧ low ≤ pos := by
        cases init with
        | none => exact ⟨pos, if_pos rfl, Int.le_refl _⟩
        | some low =>
          rw [lowerPos, if_pos rfl]
          split
          · exact ⟨pos, rfl, Int.le_refl _⟩
          · exact ⟨low, rfl, by omega⟩
      obtain ⟨low, hlow, hle⟩ := first
      obtain ⟨low', hlow', hle'⟩ := foldl_lowerPos_some seq low l
      rw [hlow]
      exact ⟨low', hlow', by omega⟩
    · exact ih h _

theorem Causal.lowestPos_le {c : Causal κ} {seq pos : Int}
    (h : (seq, pos) ∈ c.curSequences.zip c.curPositions) :
    ∃ low, c.lowestPos seq = some low ∧ low ≤ pos := foldl_lowerPos_le h none

theorem mem_of_foldl_lowerPos {seq low : Int} {l : List (Int × Int)} {init : Option Int}
    (h : l.foldl (lowerPos seq) init = some low) : (seq, low) ∈ l ∨ init = some low := by
  induction l generalizing init with
  | nil => exact .inr h
  | cons e l ih =>
    rcases ih h with h | h
    · exact .inl (List.mem_cons_of_mem _ h)
    · unfold lowerPos at h
      split at h
      · rename_i heq
        have new (h : some e.2 = some low) : (seq, low) ∈ e :: l := by
          rw [← heq, ← Option.some.inj h]
          exact List.mem_cons_self
        split at h
        · exact .inl (new h)
        · split at h
          · exact .inl (new h)
          · exact .inr h
      · exact .inr h

theorem Causal.lowestPos_mem {c : Causal κ} {seq low : Int} (h : c.lowestPos seq = some low) :
    (seq, low) ∈ c.curSequences.zip c.curPositions := by
  rcases mem_of_foldl_lowerPos h with h | h
  · exact h
  · cases h

theorem Causal.mem_of_lowestPos {c : Causal κ} {seq low : Int} (h : c.lowestPos seq = some low) :
    seq ∈ c.curSequences := (List.of_mem_zip (lowestPos_mem h)).1

/-! ### Deletions -/

/-- The two caches differ at most in their cells and ranges. -/
def Causal.SameSetup (c c' : Causal κ) : Prop :=
  c' = { c with
    cells := c'.cells, cellRanges := c'.cellRanges, curCellRange := c'.curCellRange }

theorem Causal.SameSetup.trans {c c' c'' : Causal κ} (h : c.SameSetup c') (h' : c'.SameSetup c'') :
    c.SameSetup c'' := by
  unfold SameSetup at h h' ⊢
  rw [h'.trans (by rw [h])]

theorem Causal.SameSetup.lowestPos {c c' : Causal κ} (h : c.SameSetup c') (seq : Int) :
    c'.lowestPos seq = c.lowestPos seq := by
  rw [h]
  rfl

/-- Every cell of a sequence that has a range lies in it. -/
def Causal.Covered (c : Causal κ) : Prop :=
  ∀ j, ∀ s ∈ (c.cell j).sequences, ∀ r, c.cellRanges s = some r → r.Has j

/-- What the window leaves of a cell for the sequence `seq`. -/
def Causal.trim (c : Causal κ) (seq : Int) (cell : CacheCell) : CacheCell :=
  if (c.cellRanges seq).isSome then
    match c.lowestPos seq with
    | some pos => if cell.pos < sub32 pos c.swaMemorySize then cell.delete seq else cell
    | none => cell
  else cell

@[simp] theorem CacheCell.delete_pos (cell : CacheCell) (seq : Int) :
    (cell.delete seq).pos = cell.pos := rfl

theorem CacheCell.mem_delete {cell : CacheCell} {seq s : Int} :
    s ∈ (cell.delete seq).sequences ↔ s ∈ cell.sequences ∧ s ≠ seq := by
  simp [delete]

theorem CacheCell.delete_of_notMem {cell : CacheCell} {seq : Int} (h : seq ∉ cell.sequences) :
    cell.delete seq = cell := by
  have : cell.sequences.filter (· ≠ seq) = cell.sequences := by
    rw [List.filter_eq_self]
    rintro s hs
    rw [decide_eq_true_eq]
    rintro rfl
    exact h hs
  rw [delete, this]

theorem Causal.slideSeq_setup (c : Causal κ) (seq pos : Int) :
    c.SameSetup (c.slideSeq seq pos) := by
  unfold slideSeq
  split <;> rfl

theorem Causal.slideSeq_cell {c : Causal κ} (covered : c.Covered) (seq pos : Int) (j : Nat) :
    (c.slideSeq seq pos).cell j =
      if (c.cellRanges seq).isSome ∧ (c.cell j).pos < sub32 pos c.swaMemorySize then
        (c.cell j).delete seq
      else c.cell j := by
  unfold slideSeq
  cases hr : c.cellRanges seq with
  | none => simp
  | some r =>
    have hcell : ∀ f : Nat → CacheCell → CacheCell, (∀ j, f j {} = {}) →
        (c.cells.mapIdx f).getD j {} = f j (c.cell j) := by
      intro f hf
      simp only [cell, List.getD_eq_getElem?_getD, List.getElem?_mapIdx]
      cases c.cells[j]? with
      | none => exact (hf j).symm
      | some cell => rfl
    change (c.cells.mapIdx _).getD j ({} : CacheCell) = _
    rw [hcell]
    · simp only [expired, decide_eq_true_eq, Option.isSome_some, true_and]
      by_cases hin : r.Has j
      · simp only [show r.min ≤ j from hin.1, show j ≤ r.max from hin.2, true_and]
      · -- outside its range the sequence has no cells
        have hnot : seq ∉ (c.cell j).sequences := fun h => hin (covered j seq h r hr)
        rw [CacheCell.delete_of_notMem hnot, ite_self, ite_self]
    · intro j
      split <;> rfl

theorem Causal.slideSeq_mem {c : Causal κ} (covered : c.Covered) {seq pos s : Int} {j : Nat}
    (h : s ∈ ((c.slideSeq seq pos).cell j).sequences) : s ∈ (c.cell j).sequences := by
  rw [slideSeq_cell covered] at h
  split at h
  · exact (CacheCell.mem_delete.mp h).1
  · exact h

@[simp] theorem Causal.slideSeq_length (c : Causal κ) (seq pos : Int) :
    (c.slideSeq seq pos).cells.length = c.cells.length := by
  unfold slideSeq
  split
  · rfl
  · exact List.length_mapIdx

@[simp] theorem Causal.slideSeq_isSome (c : Causal κ) (seq pos s : Int) :
    ((c.slideSeq seq pos).cellRanges s).isSome = (c.cellRanges s).isSome := by
  unfold slideSeq
  split
  · rfl
  · rename_i r hr
    by_cases hs : s = seq
    · simp [hs, hr]
    · simp [Function.update_of_ne hs]

theorem Causal.slideSeq_covered {c : Causal κ} (covered : c.Covered) (seq pos : Int) :
    (c.slideSeq seq pos).Covered := by
  intro j s hs r hr
  have hmem := slideSeq_mem covered hs
  cases hrange : c.cellRanges seq with
  | none =>
    have : c.slideSeq seq pos = c := by simp only [slideSeq, hrange]
    rw [this] at hr
    exact covered j s hmem r hr
  | some old =>
    by_cases hseq : s = seq
    · subst hseq
      simp only [slideSeq, hrange, Function.update_self, Option.some.injEq] at hr
      rw [← hr]
      apply CellRange.has_foldl
      rw [slideSeq_cell covered] at hs
      have hkept : ¬(c.cell j).pos < sub32 pos c.swaMemorySize := by
        intro hlt
        rw [if_pos ⟨by rw [hrange]; rfl, hlt⟩, CacheCell.mem_delete] at hs
        exact hs.2 rfl
      simp only [List.mem_filter, CellRange.mem_indices, List.contains_iff_mem, expired,
        Bool.not_eq_true', decide_eq_false_iff_not]
      exact ⟨⟨covered j s hmem old hrange, hmem⟩, hkept⟩
    · simp only [slideSeq, hrange, Function.update_of_ne hseq] at hr
      exact covered j s hmem r hr

/-- The loop of `updateSlidingWindow` over the sequences of the batch. -/
def Causal.slideAll (c : Causal κ) (seqs : List Int) : Causal κ :=
  seqs.foldl (fun c seq =>
    match c.lowestPos seq with
    | none => c
    | some pos => c.slideSeq seq pos) c

/-- What holds of the cache after some turns of that loop. -/
structure Causal.Slid (c c' : Causal κ) (seqs : List Int) : Prop where
  setup : c.SameSetup c'
  length : c'.cells.length = c.cells.length
  covered : c'.Covered
  isSome : ∀ s, (c'.cellRanges s).isSome = (c.cellRanges s).isSome
  cell : ∀ j, c'.cell j = seqs.foldl (fun cell seq => c.trim seq cell) (c.cell j)

theorem Causal.Slid.trim {c c' : Causal κ} {seqs : List Int} (h : c.Slid c' seqs) (seq : Int)
    (cell : CacheCell) : c'.trim seq cell = c.trim seq cell := by
  have hmem : c'.swaMemorySize = c.swaMemorySize := by rw [h.setup]
  simp only [Causal.trim, h.isSome, h.setup.lowestPos, hmem]

theorem Causal.slid_turn {c : Causal κ} (covered : c.Covered) (seq : Int) :
    c.Slid (c.slideAll [seq]) [seq] := by
  simp only [slideAll, List.foldl_cons, List.foldl_nil]
  cases hlow : c.lowestPos seq with
  | none =>
    refine ⟨rfl, rfl, covered, fun _ => rfl, ?_⟩
    intro j
    simp [Causal.trim, hlow]
  | some pos =>
    refine ⟨slideSeq_setup c seq pos, slideSeq_length c seq pos, slideSeq_covered covered seq pos,
      slideSeq_isSome c seq pos, ?_⟩
    intro j
    rw [slideSeq_cell covered]
    simp only [Causal.trim, hlow, List.foldl_cons, List.foldl_nil]
    split_ifs <;> simp_all

theorem Causal.slid_slideAll {c : Causal κ} (covered : c.Covered) (seqs : List Int) :
    c.Slid (c.slideAll seqs) seqs := by
  induction seqs generalizing c with
  | nil => exact ⟨rfl, rfl, covered, fun _ => rfl, fun _ => rfl⟩
  | cons seq seqs ih =>
    have turn := slid_turn covered seq
    have rest := ih turn.covered
    change c.Slid ((c.slideAll [seq]).slideAll seqs) (seq :: seqs)
    refine ⟨turn.setup.trans rest.setup, rest.length.trans turn.length, rest.covered, ?_, ?_⟩
    · intro s
      rw [rest.isSome, turn.isSome]
    · intro j
      simp only [rest.cell, turn.cell, turn.trim, List.foldl_cons, List.foldl_nil]

/-- What the whole window leaves of a cell. -/
def Causal.trimAll (c : Causal κ) (cell : CacheCell) : CacheCell :=
  if c.swaMemorySize = maxInt32 then cell
  else c.curSequences.dedup.foldl (fun cell seq => c.trim seq cell) cell

theorem Causal.updateSlidingWindow_cell {c : Causal κ} (covered : c.Covered) (j : Nat) :
    c.updateSlidingWindow.cell j = c.trimAll (c.cell j) := by
  unfold updateSlidingWindow trimAll
  dsimp only
  split
  · rfl
  · exact (slid_slideAll (c := { c with curCellRange := newRange }) covered _).cell j

theorem Causal.updateSlidingWindow_setup {c : Causal κ} (covered : c.Covered) :
    c.SameSetup c.updateSlidingWindow ∧
      c.updateSlidingWindow.cells.length = c.cells.length := by
  unfold updateSlidingWindow
  dsimp only
  split
  · exact ⟨rfl, rfl⟩
  · have slid := slid_slideAll (c := { c with curCellRange := newRange }) covered
      c.curSequences.dedup
    refine ⟨?_, slid.length⟩
    have := slid.setup
    exact this

theorem Causal.trim_sublist (c : Causal κ) (seq : Int) (cell : CacheCell) :
    List.Sublist (c.trim seq cell).sequences cell.sequences := by
  unfold trim
  split
  · split
    · split
      · exact List.filter_sublist
      · exact List.Sublist.refl _
    · exact List.Sublist.refl _
  · exact List.Sublist.refl _

@[simp] theorem Causal.trim_pos (c : Causal κ) (seq : Int) (cell : CacheCell) :
    (c.trim seq cell).pos = cell.pos := by
  unfold trim
  split
  · split
    · split <;> rfl
    · rfl
  · rfl

theorem Causal.foldl_trim_sublist (c : Causal κ) (seqs : List Int) (cell : CacheCell) :
    List.Sublist (seqs.foldl (fun cell seq => c.trim seq cell) cell).sequences cell.sequences := by
  induction seqs generalizing cell with
  | nil => exact List.Sublist.refl _
  | cons seq seqs ih => exact (ih _).trans (c.trim_sublist seq cell)

theorem Causal.trimAll_sublist (c : Causal κ) (cell : CacheCell) :
    List.Sublist (c.trimAll cell).sequences cell.sequences := by
  unfold trimAll
  split
  · exact List.Sublist.refl _
  · exact c.foldl_trim_sublist _ cell

theorem Causal.foldl_trim_pos (c : Causal κ) (seqs : List Int) (cell : CacheCell) :
    (seqs.foldl (fun cell seq => c.trim seq cell) cell).pos = cell.pos := by
  induction seqs generalizing cell with
  | nil => rfl
  | cons seq seqs ih => rw [List.foldl_cons, ih, trim_pos]

@[simp] theorem Causal.trimAll_pos (c : Causal κ) (cell : CacheCell) :
    (c.trimAll cell).pos = cell.pos := by
  unfold trimAll
  split
  · rfl
  · exact c.foldl_trim_pos _ cell

theorem Causal.trimAll_of_length {c : Causal κ} {cell : CacheCell}
    (h : (c.trimAll cell).sequences.length = cell.sequences.length) : c.trimAll cell = cell :=
  CacheCell.ext (c.trimAll_pos cell) ((c.trimAll_sublist cell).eq_of_length h)

@[simp] theorem Causal.trimAll_default (c : Causal κ) : c.trimAll {} = {} := by
  apply trimAll_of_length
  exact Nat.le_zero.mp (c.trimAll_sublist {}).length_le

/-- An entry older than the memory is deleted. -/
theorem Causal.notMem_trimAll {c : Causal κ} {seq low : Int} {cell : CacheCell}
    (hmem : c.swaMemorySize ≠ maxInt32) (hrange : (c.cellRanges seq).isSome)
    (hlow : c.lowestPos seq = some low) (hlt : cell.pos < sub32 low c.swaMemorySize) :
    seq ∉ (c.trimAll cell).sequences := by
  rw [trimAll, if_neg hmem]
  have hseq : seq ∈ c.curSequences.dedup := List.mem_dedup.mpr (mem_of_lowestPos hlow)
  revert hseq
  generalize c.curSequences.dedup = seqs
  intro hseq
  induction seqs generalizing cell with
  | nil => cases hseq
  | cons s seqs ih =>
    rw [List.foldl_cons]
    rcases List.mem_cons.mp hseq with rfl | hseq
    · intro h
      have := (c.foldl_trim_sublist seqs _).subset h
      rw [trim, if_pos hrange, hlow] at this
      dsimp only at this
      rw [if_pos hlt, CacheCell.mem_delete] at this
      exact this.2 rfl
    · exact ih (by rwa [trim_pos]) hseq

end Ecco9.KvCache
