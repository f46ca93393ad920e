import Ecco9.KvCache.Reachable
import Ecco9.KvCache.DefragContents

/-! What the cache holds of one sequence, and what each operation makes of it. -/

universe u

namespace Ecco9.KvCache

open Ecco9.Library

/-- What a cell with row `x` adds to the entries of `seq`. -/
def heldAt (seq : Int) (cell : CacheCell) (x : κ) : Multiset (Int × κ) :=
  if seq ∈ cell.sequences then {(cell.pos, x)} else 0

/-- The positions of `seq` in the cache, each with its row. -/
def held (cells : List CacheCell) (seq : Int) (row : Nat → κ) : Multiset (Int × κ) :=
  ∑ i ∈ Finset.range cells.length, heldAt seq (cells.getD i {}) (row i)

theorem heldAt_of_mem {seq : Int} {cell : CacheCell} (h : seq ∈ cell.sequences) (x : κ) :
    heldAt seq cell x = {(cell.pos, x)} := if_pos h

theorem heldAt_of_notMem {seq : Int} {cell : CacheCell} (h : seq ∉ cell.sequences) (x : κ) :
    heldAt seq cell x = 0 := if_neg h

theorem heldAt_free {seq : Int} {cell : CacheCell} (h : cell.free) (x : κ) :
    heldAt seq cell x = 0 := by
  apply heldAt_of_notMem
  rw [CacheCell.free, List.isEmpty_iff] at h
  rw [h]
  exact List.not_mem_nil

@[simp] theorem heldAt_default (seq : Int) (x : κ) : heldAt seq {} x = 0 :=
  heldAt_free rfl x

/-- What a cell of the same position adds for a sequence that both have, or both lack. -/
theorem heldAt_congr {seq : Int} {cell cell' : CacheCell} (hmem : seq ∈ cell'.sequences ↔
    seq ∈ cell.sequences) (hpos : seq ∈ cell.sequences → cell'.pos = cell.pos) (x : κ) :
    heldAt seq cell' x = heldAt seq cell x := by
  by_cases h : seq ∈ cell.sequences
  · rw [heldAt_of_mem h, heldAt_of_mem (hmem.mpr h), hpos h]
  · rw [heldAt_of_notMem h, heldAt_of_notMem (fun h' => h (hmem.mp h'))]

theorem held_congr {cells cells' : List CacheCell} {seq : Int} {row row' : Nat → κ}
    (hlen : cells'.length = cells.length)
    (h : ∀ i < cells.length,
      heldAt seq (cells'.getD i {}) (row' i) = heldAt seq (cells.getD i {}) (row i)) :
    held cells' seq row' = held cells seq row := by
  rw [held, held, hlen]
  exact Finset.sum_congr rfl fun i hi => h i (Finset.mem_range.mp hi)

/-- What is held follows from the contents. -/
theorem held_of_entries {cells cells' : List CacheCell} {row row' : Nat → κ}
    (h : entries cells' row' = entries cells row) (seq : Int) :
    held cells' seq row' = held cells seq row := by
  have sum (cells : List CacheCell) (row : Nat → κ) :
      held cells seq row = (entries cells row).bind fun e => heldAt seq e.1 e.2 := by
    rw [held, entries, contents]
    induction cells.length with
    | zero => rfl
    | succ n ih =>
      rw [Finset.sum_range_succ, Finset.sum_range_succ, Multiset.add_bind, ih, slot]
      congr 1
      split
      · rw [Multiset.singleton_bind]
      · rename_i hfree
        rw [Multiset.zero_bind]
        exact heldAt_free (by simpa using hfree) _
  rw [sum, sum, h]

/-- Each entry of a sequence turned into others. -/
theorem held_bind {cells cells' : List CacheCell} {seq seq' : Int} {row : Nat → κ}
    {f : Int × κ → Multiset (Int × κ)} (hlen : cells'.length = cells.length)
    (h : ∀ i < cells.length, heldAt seq' (cells'.getD i {}) (row i) =
      (heldAt seq (cells.getD i {}) (row i)).bind f) :
    held cells' seq' row = (held cells seq row).bind f := by
  have sum (n : Nat) (g : Nat → Multiset (Int × κ)) :
      (∑ i ∈ Finset.range n, g i).bind f = ∑ i ∈ Finset.range n, (g i).bind f := by
    induction n with
    | zero => rfl
    | succ n ih => rw [Finset.sum_range_succ, Finset.sum_range_succ, Multiset.add_bind, ih]
  rw [held, held, hlen, sum]
  exact Finset.sum_congr rfl fun i hi => h i (Finset.mem_range.mp hi)

/-! ### Copying a prefix -/

theorem copyCell_other {srcSeq dstSeq len seq : Int} (h : seq ≠ dstSeq) (cell : CacheCell) (x : κ) :
    heldAt seq (Causal.copyCell srcSeq dstSeq len cell) x = heldAt seq cell x := by
  apply heldAt_congr
  · unfold Causal.copyCell
    dsimp only
    split <;> split <;> simp [CacheCell.mem_delete, h]
  · intro _
    unfold Causal.copyCell
    dsimp only
    split <;> split <;> rfl

theorem copyCell_dst {srcSeq dstSeq : Int} (h : srcSeq ≠ dstSeq) (len : Int) (cell : CacheCell)
    (x : κ) : heldAt dstSeq (Causal.copyCell srcSeq dstSeq len cell) x =
      (heldAt srcSeq cell x).bind fun e => if e.1 < len then {e} else 0 := by
  have deleted : ∃ cell' : CacheCell, cell'.pos = cell.pos ∧ dstSeq ∉ cell'.sequences ∧
      (srcSeq ∈ cell'.sequences ↔ srcSeq ∈ cell.sequences) ∧
      Causal.copyCell srcSeq dstSeq len cell =
        if srcSeq ∈ cell'.sequences ∧ cell'.pos < len then
          { cell' with sequences := cell'.sequences ++ [dstSeq] } else cell' := by
    by_cases hd : dstSeq ∈ cell.sequences
    · refine ⟨cell.delete dstSeq, rfl, ?_, ?_, ?_⟩
      · simp [CacheCell.mem_delete]
      · simp [CacheCell.mem_delete, h]
      · unfold Causal.copyCell
        simp only [List.contains_iff_mem, hd, if_true]
    · refine ⟨cell, rfl, hd, Iff.rfl, ?_⟩
      unfold Causal.copyCell
      simp [hd]
  obtain ⟨cell', hpos, hdst, hsrc, heq⟩ := deleted
  rw [heq]
  by_cases hs : srcSeq ∈ cell.sequences
  · rw [heldAt_of_mem hs, Multiset.singleton_bind]
    by_cases hlt : cell.pos < len
    · rw [if_pos ⟨hsrc.mpr hs, hpos ▸ hlt⟩, if_pos hlt, heldAt_of_mem (by simp), hpos]
    · rw [if_neg (fun hh => hlt (hpos ▸ hh.2)), if_neg hlt, heldAt_of_notMem hdst]
  · rw [heldAt_of_notMem hs, Multiset.zero_bind, if_neg (fun hh => hs (hsrc.mp hh.1)),
      heldAt_of_notMem hdst]

theorem Causal.held_copyPrefix_other (c : Causal κ) {srcSeq dstSeq len seq : Int}
    (h : seq ≠ dstSeq) (row : Nat → ρ) :
    held (c.copyPrefix srcSeq dstSeq len).cells seq row = held c.cells seq row := by
  apply held_congr
  · exact List.length_map _
  · intro i _
    change heldAt seq ((c.copyPrefix srcSeq dstSeq len).cell i) _ = _
    rw [copyPrefix_cell]
    exact copyCell_other h _ _

theorem Causal.held_copyPrefix (c : Causal κ) {srcSeq dstSeq : Int} (h : srcSeq ≠ dstSeq)
    (len : Int) (row : Nat → ρ) : held (c.copyPrefix srcSeq dstSeq len).cells dstSeq row =
      (held c.cells srcSeq row).bind fun e => if e.1 < len then {e} else 0 := by
  apply held_bind
  · exact List.length_map _
  · intro i _
    change heldAt dstSeq ((c.copyPrefix srcSeq dstSeq len).cell i) _ = _
    rw [copyPrefix_cell]
    exact copyCell_dst h len _ _

/-! ### Removing a range -/

/-- What `Remove` makes of a cell. -/
def removedCell (seq beginIndex endIndex offset : Int) (cell : CacheCell) : CacheCell :=
  if seq ∈ cell.sequences then
    if cell.pos ≥ beginIndex ∧ cell.pos < endIndex then cell.delete seq
    else if cell.pos ≥ endIndex then { cell with pos := add32 cell.pos offset }
    else cell
  else cell

/-- The cells after the loop of `Remove`: each is removed or moved as it should be, and a cell that
is moved is not shared; or the loop has stopped before it. -/
theorem removeCells_cell (seq beginIndex endIndex offset : Int) (cells : List CacheCell) (i : Nat)
    (r : CellRange) (j : Nat) :
    ((removeCells seq beginIndex endIndex offset cells i r).1.getD j {} =
        removedCell seq beginIndex endIndex offset (cells.getD j {}) ∧
      (seq ∈ (cells.getD j {}).sequences → (cells.getD j {}).pos ≥ beginIndex →
        (cells.getD j {}).pos ≥ endIndex → ∀ s ∈ (cells.getD j {}).sequences, s = seq)) ∨
    (removeCells seq beginIndex endIndex offset cells i r).2.2 = true ∧
      (removeCells seq beginIndex endIndex offset cells i r).1.getD j {} = cells.getD j {} := by
  induction cells generalizing i r j with
  | nil =>
    refine .inl ⟨?_, ?_⟩
    · simp [removeCells, removedCell]
    · intro h
      simp at h
  | cons cell cells ih =>
    -- a cell that the loop passes, as it is then
    have passed (cell' : CacheCell) (r : CellRange)
        (hcell : cell' = removedCell seq beginIndex endIndex offset cell)
        (own : seq ∈ cell.sequences → cell.pos ≥ beginIndex → cell.pos ≥ endIndex →
          ∀ s ∈ cell.sequences, s = seq) :
        ((cell' :: (removeCells seq beginIndex endIndex offset cells (i + 1) r).1).getD j {} =
            removedCell seq beginIndex endIndex offset ((cell :: cells).getD j {}) ∧
          (seq ∈ ((cell :: cells).getD j {}).sequences →
            ((cell :: cells).getD j {}).pos ≥ beginIndex →
            ((cell :: cells).getD j {}).pos ≥ endIndex →
            ∀ s ∈ ((cell :: cells).getD j {}).sequences, s = seq)) ∨
        (removeCells seq beginIndex endIndex offset cells (i + 1) r).2.2 = true ∧
          (cell' :: (removeCells seq beginIndex endIndex offset cells (i + 1) r).1).getD j {} =
            (cell :: cells).getD j {} := by
      cases j with
      | zero => exact .inl ⟨hcell, own⟩
      | succ j => exact ih (i + 1) r j
    rw [removeCells]
    split
    · rename_i hmem
      rw [List.contains_iff_mem] at hmem
      split
      · rename_i hin
        apply passed (cell.delete seq) r
        · rw [removedCell, if_pos hmem, if_pos hin]
        · intro _ _ hge
          omega
      · rename_i hout
        split
        · rename_i hge
          split
          · exact .inr ⟨rfl, rfl⟩
          · rename_i hown
            apply passed { cell with pos := add32 cell.pos offset } (r.extend i)
            · rw [removedCell, if_pos hmem, if_neg hout, if_pos hge]
            · intro _ _ _ s hs
              by_contra hne
              exact hown (List.any_eq_true.mpr ⟨s, hs, by simpa using hne⟩)
        · rename_i hlt
          apply passed cell (r.extend i)
          · rw [removedCell, if_pos hmem, if_neg hout, if_neg hlt]
          · intro _ _ hge
            exact absurd hge hlt
    · rename_i hmem
      rw [List.contains_iff_mem] at hmem
      apply passed cell r
      · rw [removedCell, if_neg hmem]
      · intro h
        exact absurd h hmem

theorem removedCell_other {seq s : Int} (hs : s ≠ seq) {beginIndex endIndex : Int} (offset : Int)
    {cell : CacheCell} (hle : beginIndex ≤ endIndex)
    (own : seq ∈ cell.sequences → cell.pos ≥ beginIndex → cell.pos ≥ endIndex →
      ∀ s ∈ cell.sequences, s = seq) (x : κ) :
    heldAt s (removedCell seq beginIndex endIndex offset cell) x = heldAt s cell x := by
  unfold removedCell
  split
  · rename_i hmem
    split
    · apply heldAt_congr
      · simp [CacheCell.mem_delete, hs]
      · exact fun _ => rfl
    · split
      · rename_i hge
        have hnot : s ∉ cell.sequences := fun h => hs (own hmem (by omega) hge s h)
        rw [heldAt_of_notMem hnot]
        exact if_neg hnot
      · rfl
  · rfl

/-- What is left of an entry of the sequence. -/
def removedEntry (beginIndex endIndex offset : Int) (e : Int × κ) : Multiset (Int × κ) :=
  if e.1 ≥ beginIndex ∧ e.1 < endIndex then 0
  else if e.1 ≥ endIndex then {(add32 e.1 offset, e.2)} else {e}

theorem removedCell_self (seq beginIndex endIndex offset : Int) (cell : CacheCell) (x : κ) :
    heldAt seq (removedCell seq beginIndex endIndex offset cell) x =
      (heldAt seq cell x).bind (removedEntry beginIndex endIndex offset) := by
  unfold removedCell
  by_cases hmem : seq ∈ cell.sequences
  · rw [if_pos hmem, heldAt_of_mem hmem, Multiset.singleton_bind, removedEntry]
    split
    · rw [heldAt_of_notMem]
      simp [CacheCell.mem_delete]
    · split
      · exact if_pos hmem
      · exact heldAt_of_mem hmem x
  · rw [if_neg hmem, heldAt_of_notMem hmem, Multiset.zero_bind]

/-- The offset by which `Remove` moves what follows the range. -/
def removeOffset (beginIndex endIndex : Int) : Int :=
  if endIndex ≠ maxInt32 then sub32 beginIndex endIndex else 0

theorem Causal.remove_eq (c : Causal κ) (seq beginIndex endIndex : Int) :
    c.remove seq beginIndex endIndex =
      let out := removeCells seq beginIndex endIndex (removeOffset beginIndex endIndex) c.cells 0
        newRange
      let c := { c with cells := out.1 }
      if out.2.2 then (c, some .sharedCells)
      else if out.2.1 = newRange then
        ({ c with cellRanges := Function.update c.cellRanges seq none }, none)
      else
        let c := { c with cellRanges := Function.update c.cellRanges seq (some out.2.1) }
        if endIndex ≠ maxInt32 then
          c.shift seq (add32 endIndex (removeOffset beginIndex endIndex))
            (removeOffset beginIndex endIndex)
        else (c, none) := rfl

theorem Causal.remove_cells (c : Causal κ) (seq beginIndex endIndex : Int) :
    (c.remove seq beginIndex endIndex).1.cells = (removeCells seq beginIndex endIndex
      (removeOffset beginIndex endIndex) c.cells 0 newRange).1 := by
  rw [remove_eq]
  dsimp only
  split
  · rfl
  · split
    · rfl
    · split
      · rw [shift_setup]
      · rfl

theorem Causal.remove_length (c : Causal κ) (seq beginIndex endIndex : Int) :
    (c.remove seq beginIndex endIndex).1.cells.length = c.cells.length := by
  rw [remove_cells]
  exact (removeCells_spec ..).length

/-- Whatever comes of it, `Remove` leaves the other sequences alone. -/
theorem Causal.held_remove_other (c : Causal κ) {seq s : Int} (hs : s ≠ seq)
    {beginIndex endIndex : Int} (hle : beginIndex ≤ endIndex) (row : Nat → ρ) :
    held (c.remove seq beginIndex endIndex).1.cells s row = held c.cells s row := by
  apply held_congr (c.remove_length ..)
  intro i _
  rw [remove_cells]
  rcases removeCells_cell seq beginIndex endIndex (removeOffset beginIndex endIndex) c.cells 0
    newRange i with ⟨heq, own⟩ | ⟨-, heq⟩
  · rw [heq]
    exact removedCell_other hs _ hle own _
  · rw [heq]

theorem Causal.remove_shared {c : Causal κ} {seq beginIndex endIndex : Int}
    (h : (c.remove seq beginIndex endIndex).2 = none) : (removeCells seq beginIndex endIndex
      (removeOffset beginIndex endIndex) c.cells 0 newRange).2.2 = false := by
  rw [remove_eq] at h
  dsimp only at h
  split at h
  · cases h
  · rename_i hshared
    simpa using hshared

theorem Causal.held_remove {c : Causal κ} {seq beginIndex endIndex : Int}
    (h : (c.remove seq beginIndex endIndex).2 = none) (row : Nat → ρ) :
    held (c.remove seq beginIndex endIndex).1.cells seq row =
      (held c.cells seq row).bind
        (removedEntry beginIndex endIndex (removeOffset beginIndex endIndex)) := by
  apply held_bind (c.remove_length ..)
  intro i _
  rw [remove_cells]
  rcases removeCells_cell seq beginIndex endIndex (removeOffset beginIndex endIndex) c.cells 0
    newRange i with ⟨heq, -⟩ | ⟨hshared, -⟩
  · rw [heq]
    exact removedCell_self ..
  · rw [remove_shared h] at hshared
    cases hshared

/-- The positions of a sequence, as `Remove` expects them. -/
def Causal.Positions (c : Causal κ) (seq : Int) : Prop :=
  ∀ j, seq ∈ (c.cell j).sequences → 0 ≤ (c.cell j).pos ∧ (c.cell j).pos < maxInt32

/-- Also where `Remove` fails the positions stay within their bounds. -/
theorem Causal.Positions.remove {c : Causal κ} {seq : Int} (h : c.Positions seq)
    {beginIndex endIndex : Int} (h0 : 0 ≤ beginIndex) (hle : beginIndex ≤ endIndex) :
    (c.remove seq beginIndex endIndex).1.Positions seq := by
  intro j hmem
  rw [cell, remove_cells] at hmem ⊢
  rcases removeCells_cell seq beginIndex endIndex (removeOffset beginIndex endIndex) c.cells 0
    newRange j with ⟨heq, -⟩ | ⟨-, heq⟩
  · rw [heq] at hmem ⊢
    have old (hold : seq ∈ (c.cells.getD j {}).sequences) := h j hold
    simp only [cell] at old
    unfold removedCell at hmem ⊢
    split at hmem
    · rename_i hold
      obtain ⟨hlo, hhi⟩ := old hold
      rw [if_pos hold]
      split at hmem
      · exact absurd rfl (CacheCell.mem_delete.mp hmem).2
      · rename_i hout
        rw [if_neg hout]
        split
        · rename_i hge
          -- only an end before the maximum is reached
          unfold maxInt32 at hhi
          have hoff : removeOffset beginIndex endIndex = beginIndex - endIndex := by
            rw [removeOffset, if_pos (by unfold maxInt32; omega)]
            exact sub32_of_range (by omega) (by omega)
          dsimp only
          rw [hoff, add32_of_range (by omega) (by omega)]
          unfold maxInt32
          omega
        · exact ⟨hlo, hhi⟩
    · rename_i hnot
      exact absurd hmem hnot
  · rw [heq] at hmem ⊢
    exact h j hmem

theorem removeCells_shared {seq beginIndex endIndex offset : Int} {cells : List CacheCell}
    (h : ∀ cell ∈ cells, seq ∈ cell.sequences → cell.pos < endIndex) (i : Nat) (r : CellRange) :
    (removeCells seq beginIndex endIndex offset cells i r).2.2 = false := by
  induction cells generalizing i r with
  | nil => rfl
  | cons cell cells ih =>
    have rest := ih (fun cell' h' => h cell' (by simp [h']))
    rw [removeCells]
    split
    · rename_i hmem
      rw [List.contains_iff_mem] at hmem
      have hlt := h cell (by simp) hmem
      split
      · exact rest _ _
      · rw [if_neg (by omega)]
        exact rest _ _
    · exact rest _ _

/-- `Remove` of everything from some position on never fails. -/
theorem Causal.remove_end_ok {c : Causal κ} {seq : Int}
    (below : ∀ j, seq ∈ (c.cell j).sequences → (c.cell j).pos < maxInt32) (beginIndex : Int) :
    (c.remove seq beginIndex maxInt32).2 = none := by
  have hlt : ∀ cell ∈ c.cells, seq ∈ cell.sequences → cell.pos < maxInt32 := by
    intro cell hcell hmem
    obtain ⟨j, hj, rfl⟩ := List.mem_iff_getElem.mp hcell
    have := below j
    rw [Causal.cell, List.getD_eq_getElem?_getD, List.getElem?_eq_getElem hj,
      Option.getD_some] at this
    exact this hmem
  rw [Causal.remove_eq]
  dsimp only
  rw [removeCells_shared hlt, if_neg (by simp)]
  split
  · rfl
  · rw [if_neg (by simp)]

theorem Causal.Positions.remove_ok {c : Causal κ} {seq : Int} (h : c.Positions seq)
    (beginIndex : Int) : (c.remove seq beginIndex maxInt32).2 = none :=
  remove_end_ok (fun j hmem => (h j hmem).2) beginIndex

end Ecco9.KvCache
