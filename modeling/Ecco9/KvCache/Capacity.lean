import Ecco9.KvCache.Invariant
import Ecco9.KvCache.Forward
import Ecco9.KvCache.Room
import Mathlib.Data.Int.Interval

/-! The size of a cache with a sliding window against what its sequences hold. -/

universe u

namespace Ecco9.KvCache

open Ecco9.Library

/-! ### Cells that are kept or moved -/

/-- Every cell in use is one of `cells`, each of them once, maybe without some sequences. -/
def Draws (cells cells' : List CacheCell) : Prop :=
  ∃ f : Nat → Nat,
    (∀ i j, (cells'.getD i {}).free = false → (cells'.getD j {}).free = false → f i = f j → i = j) ∧
    ∀ j, ∀ s ∈ (cells'.getD j {}).sequences,
      s ∈ (cells.getD (f j) {}).sequences ∧ (cells'.getD j {}).pos = (cells.getD (f j) {}).pos

theorem used_of_mem {cell : CacheCell} {s : Int} (h : s ∈ cell.sequences) : cell.free = false := by
  rw [CacheCell.free, List.isEmpty_eq_false_iff]
  exact List.ne_nil_of_mem h

theorem Draws.refl (cells : List CacheCell) : Draws cells cells :=
  ⟨id, fun _ _ _ _ h => h, fun _ _ h => ⟨h, rfl⟩⟩

theorem Draws.trans {cells cells' cells'' : List CacheCell} (h : Draws cells cells')
    (h' : Draws cells' cells'') : Draws cells cells'' := by
  obtain ⟨f, inj, hf⟩ := h
  obtain ⟨g, inj', hg⟩ := h'
  have used {j : Nat} (hj : (cells''.getD j {}).free = false) :
      (cells'.getD (g j) {}).free = false := by
    rw [CacheCell.free, List.isEmpty_eq_false_iff] at hj
    obtain ⟨s, hs⟩ := List.exists_mem_of_ne_nil _ hj
    exact used_of_mem (hg j s hs).1
  refine ⟨f ∘ g, ?_, ?_⟩
  · intro i j hi hj heq
    exact inj' i j hi hj (inj _ _ (used hi) (used hj) heq)
  · intro j s hs
    obtain ⟨h1, h2⟩ := hg j s hs
    obtain ⟨h3, h4⟩ := hf _ s h1
    exact ⟨h3, h2.trans h4⟩

theorem Draws.of_cell {cells cells' : List CacheCell} (h : ∀ j, ∀ s ∈ (cells'.getD j {}).sequences,
    s ∈ (cells.getD j {}).sequences ∧ (cells'.getD j {}).pos = (cells.getD j {}).pos) :
    Draws cells cells' :=
  ⟨id, fun _ _ _ _ h => h, h⟩

theorem Draws.applyPair {cells : List CacheCell} {d s : Nat} (hds : d < s)
    (hs : s < cells.length) : Draws cells (applyPair cells (d, s)) := by
  have none (i : Nat) (hi : ((KvCache.applyPair cells (d, s)).getD i {}).free = false) : i ≠ s := by
    rintro rfl
    rw [free_applyPair_src] at hi
    cases hi
  refine ⟨fun i => if i = d then s else i, ?_, ?_⟩
  · intro i j hi hj heq
    have := none i hi
    have := none j hj
    dsimp only at heq
    split at heq <;> split at heq <;> omega
  · intro j s' hmem
    have hj := none j (used_of_mem hmem)
    dsimp only
    split
    · rename_i hd
      rw [hd, getD_applyPair_dst hds hs] at hmem ⊢
      exact ⟨hmem, rfl⟩
    · rename_i hd
      rw [getD_applyPair_of_ne hd hj] at hmem ⊢
      exact ⟨hmem, rfl⟩

theorem Draws.applyPairs {cells : List CacheCell} {lo hi : Nat} {ps : List (Nat × Nat)}
    (fills : Fills cells lo hi ps) (hlen : hi ≤ cells.length) :
    Draws cells (applyPairs cells ps) := by
  induction ps generalizing cells lo hi with
  | nil => exact .refl cells
  | cons p ps ih =>
    have hs := fills.2.2.1
    refine (Draws.applyPair fills.2.1 (by omega)).trans ?_
    exact ih fills.tail (by rw [applyPair_length]; omega)

theorem Causal.draws_prepare {c : Causal κ} (ranged : c.Ranged) (batch : Batch)
    (maxGraphNodes : Int) : Draws c.cells (c.prepare batch maxGraphNodes).1.cells := by
  have here : (c.withBatch batch).Ranged := ranged.congr rfl rfl
  have slid : Draws c.cells (c.withBatch batch).updateSlidingWindow.cells := by
    apply Draws.of_cell
    intro j s hs
    have hcell := updateSlidingWindow_cell here.covered j
    rw [Causal.cell] at hcell
    rw [hcell] at hs ⊢
    exact ⟨((c.withBatch batch).trimAll_sublist _).subset hs, trimAll_pos ..⟩
  have moved : Draws c.cells ((c.withBatch batch).updateSlidingWindow.defrag maxGraphNodes).cells := by
    rw [defrag_cells (updateSlidingWindow_settled here)]
    exact slid.trans (.applyPairs (fills_fillings _) (Nat.le_refl _))
  rw [prepare_eq]
  dsimp only
  split
  · exact slid
  · split
    · exact moved
    · exact moved

/-! ### Numbered positions -/

/-- The sequences are those below `maxSequences`, each with no position twice. -/
structure Numbered (maxSequences : Nat) (cells : List CacheCell) : Prop where
  ids : ∀ j, ∀ s ∈ (cells.getD j {}).sequences, 0 ≤ s ∧ s < maxSequences
  bounded : ∀ j, ∀ s ∈ (cells.getD j {}).sequences, (cells.getD j {}).pos ≤ maxInt32
  apart : ∀ s i j, s ∈ (cells.getD i {}).sequences → s ∈ (cells.getD j {}).sequences →
    (cells.getD i {}).pos = (cells.getD j {}).pos → i = j

theorem Numbered.draws {maxSequences : Nat} {cells cells' : List CacheCell}
    (numbered : Numbered maxSequences cells) (draws : Draws cells cells') :
    Numbered maxSequences cells' := by
  obtain ⟨f, inj, hf⟩ := draws
  refine ⟨?_, ?_, ?_⟩
  · intro j s hs
    exact numbered.ids _ s (hf j s hs).1
  · intro j s hs
    rw [(hf j s hs).2]
    exact numbered.bounded _ s (hf j s hs).1
  · intro s i j hi hj hpos
    apply inj i j (used_of_mem hi) (used_of_mem hj)
    apply numbered.apart s _ _ (hf i s hi).1 (hf j s hj).1
    rw [← (hf i s hi).2, ← (hf j s hj).2, hpos]

/-- The batch has no position twice, and each lies behind all that its sequence holds: so it is when
positions go on where their sequence ends. -/
def Causal.Continues (c : Causal κ) (batch : Batch) : Prop :=
  (batch.sequences.zip batch.positions).Nodup ∧
    ∀ e ∈ batch.sequences.zip batch.positions, ∀ cell ∈ c.cells, e.1 ∈ cell.sequences →
      cell.pos < e.2

theorem Causal.Continues.lt {c : Causal κ} {batch : Batch} (continues : c.Continues batch)
    {e : Int × Int} (he : e ∈ batch.sequences.zip batch.positions) {j : Nat}
    (hj : e.1 ∈ (c.cells.getD j {}).sequences) : (c.cells.getD j {}).pos < e.2 := by
  have hlt := lt_of_mem_cell hj
  have hget : c.cells.getD j {} = c.cells[j] := by
    rw [List.getD_eq_getElem?_getD, List.getElem?_eq_getElem hlt, Option.getD_some]
  rw [hget] at hj ⊢
  exact continues.2 e he _ (List.getElem_mem hlt) hj

theorem mem_batch {batch : Batch} (hlen : batch.sequences.length = batch.positions.length) {k : Nat}
    (hk : k < batch.positions.length) :
    (batch.sequences.zip batch.positions)[k]? =
      some (batch.sequences.getD k 0, batch.positions.getD k 0) := by
  have hk' : k < batch.sequences.length := by omega
  rw [List.getElem?_zip_eq_some]
  simp [hk, hk']

theorem Numbered.stored {maxSequences : Nat} {c : Causal κ} {cells cells' : List CacheCell}
    {batch : Batch} (loc : Nat) (numbered : Numbered maxSequences cells)
    (draws : Draws c.cells cells) (valid : batch.Valid)
    (ids : ∀ s ∈ batch.sequences, 0 ≤ s ∧ s < maxSequences) (continues : c.Continues batch)
    (hcell : ∀ i, cells'.getD i {} = storedCell batch loc (fun i => cells.getD i {}) i) :
    Numbered maxSequences cells' := by
  have cases_of {i : Nat} {s : Int} (hs : s ∈ (cells'.getD i {}).sequences) :
      (∃ k < batch.positions.length, i = loc + k ∧
        (s, (cells'.getD i {}).pos) = (batch.sequences.getD k 0, batch.positions.getD k 0)) ∨
      cells'.getD i {} = cells.getD i {} := by
    by_cases hi : loc ≤ i ∧ i < loc + batch.positions.length
    · refine .inl ⟨i - loc, by omega, by omega, ?_⟩
      rw [hcell, storedCell, if_pos hi] at hs ⊢
      rw [List.mem_singleton.mp hs]
    · refine .inr ?_
      rw [hcell, storedCell, if_neg hi]
  have inBatch {k : Nat} {s p : Int} (hk : k < batch.positions.length)
      (h : (s, p) = (batch.sequences.getD k 0, batch.positions.getD k 0)) :
      (s, p) ∈ batch.sequences.zip batch.positions := by
    rw [h]
    exact List.mem_of_getElem? (mem_batch valid.sequences hk)
  obtain ⟨f, -, hf⟩ := draws
  -- a position of the batch is none of those held before
  have new {k i : Nat} {s p : Int} (hk : k < batch.positions.length)
      (h : (s, p) = (batch.sequences.getD k 0, batch.positions.getD k 0))
      (hs : s ∈ (cells.getD i {}).sequences) : (cells.getD i {}).pos < p := by
    rw [(hf i s hs).2]
    exact continues.lt (inBatch hk h) (hf i s hs).1
  refine ⟨?_, ?_, ?_⟩
  · intro j s hs
    rcases cases_of hs with ⟨k, hk, -, h⟩ | h
    · exact ids s (List.of_mem_zip (inBatch hk h)).1
    · rw [h] at hs
      exact numbered.ids j s hs
  · intro j s hs
    rcases cases_of hs with ⟨k, hk, -, h⟩ | h
    · exact (valid.positions _ (List.of_mem_zip (inBatch hk h)).2).2
    · rw [h] at hs ⊢
      exact numbered.bounded j s hs
  · intro s i j hi hj hpos
    rcases cases_of hi with ⟨k, hk, rfl, h⟩ | h
    · rcases cases_of hj with ⟨k', hk', rfl, h'⟩ | h'
      · -- two of the batch
        rw [hpos, h'] at h
        have heq := mem_batch valid.sequences hk
        rw [← h, ← mem_batch valid.sequences hk'] at heq
        have hlt : k < (batch.sequences.zip batch.positions).length := by
          rw [List.length_zip, valid.sequences]
          omega
        rw [(List.getElem?_inj hlt continues.1).mp heq]
      · rw [h'] at hj hpos
        have := new hk h hj
        omega
    · rcases cases_of hj with ⟨k', hk', rfl, h'⟩ | h'
      · rw [h] at hi hpos
        have := new hk' h' hi
        omega
      · rw [h] at hi hpos
        rw [h'] at hj hpos
        exact numbered.apart s i j hi hj hpos

theorem mem_copyCell_dst {srcSeq dstSeq len : Int} {cell : CacheCell}
    (h : dstSeq ∈ (Causal.copyCell srcSeq dstSeq len cell).sequences) :
    srcSeq ∈ cell.sequences := by
  unfold Causal.copyCell at h
  dsimp only at h
  split at h
  · split at h
    · rename_i hsrc
      rw [List.contains_iff_mem] at hsrc
      exact (CacheCell.mem_delete.mp hsrc.1).1
    · exact absurd rfl (CacheCell.mem_delete.mp h).2
  · rename_i hnot
    rw [List.contains_iff_mem] at hnot
    split at h
    · rename_i hsrc
      exact List.contains_iff_mem.mp hsrc.1
    · exact absurd h hnot

theorem copyCell_pos (srcSeq dstSeq len : Int) (cell : CacheCell) :
    (Causal.copyCell srcSeq dstSeq len cell).pos = cell.pos := by
  unfold Causal.copyCell
  dsimp only
  split <;> split <;> rfl

theorem Numbered.copyPrefix {maxSequences : Nat} {c : Causal κ}
    (numbered : Numbered maxSequences c.cells) (srcSeq : Int) {dstSeq : Int}
    (hdst : 0 ≤ dstSeq ∧ dstSeq < maxSequences) (len : Int) :
    Numbered maxSequences (c.copyPrefix srcSeq dstSeq len).cells := by
  have cell (j : Nat) : (c.copyPrefix srcSeq dstSeq len).cells.getD j {} =
      Causal.copyCell srcSeq dstSeq len (c.cells.getD j {}) := c.copyPrefix_cell srcSeq dstSeq len j
  have old {j : Nat} {s : Int}
      (hs : s ∈ ((c.copyPrefix srcSeq dstSeq len).cells.getD j {}).sequences) :
      (if s = dstSeq then srcSeq else s) ∈ (c.cells.getD j {}).sequences := by
    rw [cell] at hs
    split
    · rename_i heq
      rw [heq] at hs
      exact mem_copyCell_dst hs
    · rename_i hne
      rcases copyCell_mem hs with h | h
      · exact absurd h hne
      · exact h.1
  refine ⟨?_, ?_, ?_⟩
  · intro j s hs
    have := old hs
    split at this
    · rename_i heq
      rw [heq]
      exact hdst
    · exact numbered.ids j s this
  · intro j s hs
    rw [cell, copyCell_pos]
    exact numbered.bounded j _ (old hs)
  · intro s i j hi hj hpos
    rw [cell, cell, copyCell_pos, copyCell_pos] at hpos
    exact numbered.apart _ i j (old hi) (old hj) hpos

/-- Removing up to the end moves nothing. -/
theorem Numbered.remove {maxSequences : Nat} {c : Causal κ}
    (numbered : Numbered maxSequences c.cells) (seq beginIndex : Int) :
    Numbered maxSequences (c.remove seq beginIndex maxInt32).1.cells := by
  apply numbered.draws
  apply Draws.of_cell
  intro j s hs
  rw [Causal.remove_cells] at hs ⊢
  rcases removeCells_cell seq beginIndex maxInt32 (removeOffset beginIndex maxInt32) c.cells 0
    newRange j with ⟨h, -⟩ | ⟨-, h⟩
  · rw [h] at hs ⊢
    have hold := (removedCell_sublist ..).subset hs
    refine ⟨hold, ?_⟩
    have hle := numbered.bounded j s hold
    unfold removedCell
    split
    · split
      · rfl
      · split
        · rename_i hge
          have heq : (c.cells.getD j {}).pos = maxInt32 := by omega
          have hoff : removeOffset beginIndex maxInt32 = 0 := if_neg (by simp)
          dsimp only
          rw [heq, hoff]
          decide
        · rfl
    · rfl
  · rw [h] at hs ⊢
    exact ⟨hs, rfl⟩

/-! ### What sequences hold -/

def Causal.cellsOf (c : Causal κ) (seq : Int) : Finset Nat :=
  (Finset.range c.cells.length).filter fun i => seq ∈ (c.cell i).sequences

/-- Of a sequence that goes on, no more stays than the memory. -/
theorem Causal.card_stays_le {c : Causal κ} {maxSequences : Nat}
    (numbered : Numbered maxSequences c.cells) (valid : c.sizes.Valid) {batch : Batch}
    (hbatch : batch.Valid) (continues : c.Continues batch) {seq low : Int}
    (hlow : (c.withBatch batch).lowestPos seq = some low) :
    ((c.cellsOf seq).filter fun i => c.stays batch (c.cell i) seq).card ≤
      c.swaMemorySize.toNat := by
  have hmem := lowestPos_mem hlow
  have hpos := hbatch.positions low (List.of_mem_zip hmem).2
  have hwindow := valid.window
  have hmemory := valid.memory
  have hmax := valid.memory_le
  simp only [sizes] at hwindow hmemory hmax
  have hsub : sub32 low c.swaMemorySize = low - c.swaMemorySize := by
    unfold maxInt32 at hpos hmax
    exact sub32_of_range (by omega) (by omega)
  have card : (Finset.Ico (low - c.swaMemorySize) low).card = c.swaMemorySize.toNat := by
    rw [Int.card_Ico]
    congr 1
    omega
  rw [← card]
  apply Finset.card_le_card_of_injOn fun i => (c.cell i).pos
  · intro i hi
    have hi := Finset.mem_filter.mp (Finset.mem_coe.mp hi)
    have hstays := hi.2
    rw [stays, hlow] at hstays
    dsimp only at hstays
    rw [decide_eq_true_eq, hsub] at hstays
    exact Finset.mem_coe.mpr (Finset.mem_Ico.mpr
      ⟨hstays, continues.lt hmem (Finset.mem_filter.mp hi.1).2⟩)
  · intro i hi j hj heq
    have hi := (Finset.mem_filter.mp (Finset.mem_coe.mp hi)).1
    have hj := (Finset.mem_filter.mp (Finset.mem_coe.mp hj)).1
    exact numbered.apart seq i j (Finset.mem_filter.mp hi).2 (Finset.mem_filter.mp hj).2 heq

theorem Causal.card_staying_le {c : Causal κ} {maxSequences : Nat}
    (numbered : Numbered maxSequences c.cells) (valid : c.sizes.Valid) {batch : Batch}
    (hbatch : batch.Valid) (continues : c.Continues batch)
    (others : ∀ seq, seq ∉ batch.sequences → (c.cellsOf seq).card ≤ c.swaMemorySize.toNat) :
    (c.staying batch).card ≤ maxSequences * c.swaMemorySize.toNat := by
  have cover : c.staying batch ⊆ (Finset.range maxSequences).biUnion fun k =>
      (c.cellsOf k).filter fun i => c.stays batch (c.cell i) k := by
    intro i hi
    obtain ⟨hi, seq, hseq, hstays⟩ := Finset.mem_filter.mp hi
    obtain ⟨h0, hlt⟩ := numbered.ids i seq hseq
    rw [Finset.mem_biUnion]
    refine ⟨seq.toNat, Finset.mem_range.mpr (by omega), ?_⟩
    rw [Int.toNat_of_nonneg h0]
    exact Finset.mem_filter.mpr ⟨Finset.mem_filter.mpr ⟨hi, hseq⟩, hstays⟩
  have each := Finset.card_biUnion_le_card_mul (Finset.range maxSequences)
    (fun k => (c.cellsOf k).filter fun i => c.stays batch (c.cell i) k) c.swaMemorySize.toNat
  rw [Finset.card_range] at each
  refine (Finset.card_le_card cover).trans (each ?_)
  intro k _
  cases hlow : (c.withBatch batch).lowestPos k with
  | some low => exact card_stays_le numbered valid hbatch continues hlow
  | none =>
    refine (Finset.card_le_card (Finset.filter_subset _ _)).trans (others k ?_)
    intro hmem
    obtain ⟨i, hi, heq⟩ := List.mem_iff_getElem.mp hmem
    have here := mem_batch hbatch.sequences (hbatch.sequences ▸ hi)
    obtain ⟨low, hsome, -⟩ := (c.withBatch batch).lowestPos_le (List.mem_of_getElem? here)
    have hget : batch.sequences.getD i 0 = k := by
      rw [← heq, List.getD_eq_getElem?_getD, List.getElem?_eq_getElem hi, Option.getD_some]
    rw [hget, hlow] at hsome
    cases hsome

/-! ### Runs -/

/-- What the cache is asked for: batches of at most `maxBatch` tokens that go on where their
sequences end, copies, and removals up to the end. -/
def CacheOp.Orderly (maxSequences maxBatch : Nat) (c : Causal κ) : CacheOp → Prop
  | startForward batch reserve _ => reserve = false ∧ batch.Valid ∧
      batch.positions.length ≤ maxBatch ∧ (∀ s ∈ batch.sequences, 0 ≤ s ∧ s < maxSequences) ∧
      c.Continues batch
  | copyPrefix _ dstSeq _ => 0 ≤ dstSeq ∧ dstSeq < maxSequences
  | remove _ _ endIndex => endIndex = maxInt32

def Causal.OrderlyRun (maxSequences maxBatch : Nat) : Causal κ → List CacheOp → Prop
  | _, [] => True
  | c, op :: ops => op.Orderly maxSequences maxBatch c ∧
      OrderlyRun maxSequences maxBatch (c.apply op).1 ops

theorem Causal.apply_sizes {c : Causal κ} (ranged : c.Ranged) (op : CacheOp) :
    (c.apply op).1.sizes = c.sizes := by
  cases op with
  | startForward batch reserve maxGraphNodes =>
    exact (startForward_keeps ranged batch reserve maxGraphNodes).2
  | copyPrefix srcSeq dstSeq len => exact copyPrefix_sizes c srcSeq dstSeq len
  | remove seq beginIndex endIndex => exact (remove_keeps ranged seq beginIndex endIndex).2

theorem Numbered.startForward {maxSequences : Nat} {c : Causal κ} (ranged : c.Ranged)
    (numbered : Numbered maxSequences c.cells) {batch : Batch} (valid : batch.Valid)
    (ids : ∀ s ∈ batch.sequences, 0 ≤ s ∧ s < maxSequences) (continues : c.Continues batch)
    (maxGraphNodes : Int) :
    Numbered maxSequences (c.startForward batch false maxGraphNodes).1.cells := by
  have draws := c.draws_prepare ranged batch maxGraphNodes
  have hprepared := (Causal.prepare_spec ranged batch maxGraphNodes).2.2
  rw [Causal.startForward, if_neg Bool.false_ne_true]
  split
  · rename_i c₁ err heq
    rw [heq] at draws
    exact numbered.draws draws
  · rename_i c₁ heq
    rw [heq] at draws hprepared
    have prepared := hprepared rfl
    rw [Causal.buildMask_same]
    refine Numbered.stored c₁.curLoc (numbered.draws draws) draws valid ids continues ?_
    intro i
    have hlen : (c₁.curPositions.zip c₁.curSequences).length = batch.positions.length := by
      rw [prepared.positions, prepared.sequences, List.length_zip, valid.sequences, Nat.min_self]
    have hcell := c₁.storeTokens_cell (c₁.curPositions.zip c₁.curSequences) 0
      (by rw [hlen]; exact prepared.fits) i
    refine hcell.trans ?_
    rw [hlen, storedCell, Nat.add_zero]
    by_cases hi : c₁.curLoc ≤ i ∧ i < c₁.curLoc + batch.positions.length
    · rw [if_pos hi, if_pos hi, prepared.positions, prepared.sequences]
      have h1 : i - c₁.curLoc < batch.positions.length := by omega
      have h2 : i - c₁.curLoc < batch.sequences.length := by rw [valid.sequences]; exact h1
      simp [h1, h2]
    · rw [if_neg hi, if_neg hi]
      rfl

/-- What a run keeps. -/
structure Causal.Ordered (maxSequences : Nat) (z : Sizes) (c : Causal κ) : Prop where
  ranged : c.Ranged
  sizes : c.sizes = z
  numbered : Numbered maxSequences c.cells

theorem Causal.Ordered.apply {maxSequences maxBatch : Nat} {z : Sizes} {c : Causal κ}
    (ordered : c.Ordered maxSequences z) {op : CacheOp}
    (orderly : op.Orderly maxSequences maxBatch c) : (c.apply op).1.Ordered maxSequences z := by
  have ranged := ordered.ranged
  have sizes := (apply_sizes ranged op).trans ordered.sizes
  cases op with
  | startForward batch reserve maxGraphNodes =>
    obtain ⟨rfl, valid, -, ids, continues⟩ := orderly
    exact ⟨(startForward_keeps ranged batch false maxGraphNodes).1, sizes,
      ordered.numbered.startForward ranged valid ids continues maxGraphNodes⟩
  | copyPrefix srcSeq dstSeq len =>
    exact ⟨copyPrefix_ranged ranged srcSeq dstSeq len, sizes,
      ordered.numbered.copyPrefix srcSeq orderly len⟩
  | remove seq beginIndex endIndex =>
    obtain rfl : endIndex = maxInt32 := orderly
    exact ⟨(remove_keeps ranged seq beginIndex maxInt32).1, sizes,
      ordered.numbered.remove seq beginIndex⟩

theorem Causal.Ordered.after {maxSequences maxBatch : Nat} {z : Sizes} {c : Causal κ}
    (ordered : c.Ordered maxSequences z) {ops : List CacheOp}
    (orderly : c.OrderlyRun maxSequences maxBatch ops) :
    (c.after ops).Ordered maxSequences z := by
  induction ops generalizing c with
  | nil => exact ordered
  | cons op ops ih => exact ih (ordered.apply orderly.1) orderly.2

theorem Causal.init_ordered {c c₀ : Causal κ} (variant : Variant c) {config : CacheConfig}
    {maxSequences capacity maxBatch : Nat}
    (h : c.init config maxSequences capacity maxBatch = some c₀)
    (finite : c₀.swaMemorySize ≠ maxInt32) : c₀.Ordered maxSequences c₀.sizes ∧
      maxSequences * c₀.swaMemorySize.toNat + maxBatch ≤ c₀.cells.length := by
  have ranged := (variant.init h).2
  simp only [init, Option.ite_none_left_eq_some] at h
  obtain ⟨-, h⟩ := h
  have hcells : ∃ n, c₀.cells = List.replicate n {} := ⟨_, by rw [← Option.some.inj h]⟩
  refine ⟨⟨ranged, rfl, ?_⟩, ?_⟩
  · obtain ⟨n, hcells⟩ := hcells
    have free (j : Nat) (s : Int) (hs : s ∈ (c₀.cells.getD j {}).sequences) : False := by
      rw [hcells] at hs
      rcases getD_mem_or (List.replicate n {}) j with h | h
      · rw [List.eq_of_mem_replicate h] at hs
        cases hs
      · rw [h] at hs
        cases hs
    exact ⟨fun j s hs => (free j s hs).elim, fun j s hs => (free j s hs).elim,
      fun s i _ hi => (free i s hi).elim⟩
  · obtain rfl := Option.some.inj h
    dsimp only at finite ⊢
    rw [if_neg finite, List.length_replicate]
    apply le_roundUp
    split <;> omega

/-- A window of two over two sequences, four tokens in a batch. -/
def twoWindows : Causal Nat := ((newSWACache 2 none).init ⟨1, 1⟩ 2 16 4).getD (newSWACache 2 none)

end Ecco9.KvCache
