import Ecco9.KvCache.Ranges

/-! The caches that runs of operations reach from `Init`. -/

universe u

namespace Ecco9.KvCache

open Ecco9.Library

structure Batch.Valid (b : Batch) : Prop where
  nonempty : b.positions ≠ []
  sequences : b.sequences.length = b.positions.length
  positions : ∀ p ∈ b.positions, 0 ≤ p ∧ p ≤ maxInt32

/-! ### Free cells -/

theorem findStartLocFrom_some {batchSize : Nat} (h1 : 1 ≤ batchSize) {all cells : List CacheCell}
    {i start count loc : Nat} (hi : all.drop i = cells) (hcount : start + count = i)
    (hle : i ≤ all.length) (hsmall : count < batchSize)
    (hfree : ∀ k, start ≤ k → k < i → (all.getD k {}).free)
    (h : findStartLocFrom batchSize cells i start count = some loc) :
    loc + batchSize ≤ all.length ∧ ∀ k, loc ≤ k → k < loc + batchSize → (all.getD k {}).free := by
  induction cells generalizing i start count with
  | nil => cases h
  | cons cell cells ih =>
    have hlt : i < all.length := by
      by_contra hge
      rw [List.drop_eq_nil_of_le (Nat.not_lt.mp hge)] at hi
      cases hi
    have hcell : all.getD i {} = cell := by
      rw [List.drop_eq_getElem_cons hlt] at hi
      simpa [hlt] using (List.cons.inj hi).1
    have htail : all.drop (i + 1) = cells := by
      rw [← List.tail_drop, hi]
      rfl
    have grown (free : cell.free) : ∀ k, start ≤ k → k < i + 1 → (all.getD k {}).free := by
      intro k hk hk'
      rcases Nat.lt_succ_iff_lt_or_eq.mp hk' with hk' | rfl
      · exact hfree k hk hk'
      · rwa [hcell]
    rw [findStartLocFrom] at h
    split at h
    · rename_i free
      split at h
      · obtain rfl := Option.some.inj h
        refine ⟨by omega, ?_⟩
        intro k hk hk'
        exact grown free k hk (by omega)
      · exact ih htail (by omega) hlt (by omega) (grown free) h
    · apply ih htail (by omega) hlt (by omega) _ h
      intro k hk hk'
      omega

theorem findStartLocFrom_le {batchSize : Nat} {cells : List CacheCell} {i start count loc : Nat}
    (hstart : start ≤ i) (h : findStartLocFrom batchSize cells i start count = some loc) :
    loc ≤ i + cells.length := by
  induction cells generalizing i start count with
  | nil => cases h
  | cons cell cells ih =>
    rw [List.length_cons]
    rw [findStartLocFrom] at h
    split at h
    · split at h
      · obtain rfl := Option.some.inj h
        omega
      · have := ih (by omega) h
        omega
    · have := ih (Nat.le_refl _) h
      omega

theorem Causal.findStartLoc_some {c : Causal κ} {loc : Nat} (h : c.findStartLoc = some loc) :
    loc + c.curBatchSize ≤ c.cells.length ∧
      ∀ k, loc ≤ k → k < loc + c.curBatchSize → (c.cell k).free := by
  by_cases h1 : 1 ≤ c.curBatchSize
  · exact findStartLocFrom_some h1 (show c.cells.drop 0 = c.cells from rfl) rfl (Nat.zero_le _) h1
      (by intro k _ hk; omega) h
  · have := findStartLocFrom_le (Nat.le_refl 0) h
    exact ⟨by omega, by intro k _ hk; omega⟩

/-! ### Storing the batch -/

theorem Causal.storeToken_cell {c : Causal κ} {i : Nat} (h : c.curLoc + i < c.cells.length)
    (pos seq : Int) (j : Nat) :
    (c.storeToken i pos seq).cell j =
      if j = c.curLoc + i then { pos, sequences := [seq] } else c.cell j := by
  simp only [cell, storeToken, List.getD_eq_getElem?_getD, List.getElem?_set]
  by_cases hj : c.curLoc + i = j
  · subst hj
    rw [if_pos rfl, if_pos rfl, if_pos h]
    rfl
  · rw [if_neg hj, if_neg (Ne.symm hj)]

theorem Causal.storeToken_ranged {c : Causal κ} (ranged : c.Ranged) {i : Nat}
    (h : c.curLoc + i < c.cells.length) (pos seq : Int) : (c.storeToken i pos seq).Ranged := by
  apply ranged_of_has
  · intro j s hs
    rw [storeToken_cell h] at hs
    simp only [storeToken]
    split at hs
    · rename_i hj
      obtain rfl := List.mem_singleton.mp hs
      refine ⟨_, Function.update_self .., ?_⟩
      rw [hj]
      exact CellRange.has_extend_self _ _
    · obtain ⟨r, hr, hhas⟩ := ranged.has hs
      by_cases hseq : s = seq
      · subst hseq
        refine ⟨_, Function.update_self .., ?_⟩
        rw [hr]
        exact hhas.extend _
      · rw [Function.update_of_ne hseq]
        exact ⟨r, hr, hhas⟩
  · intro s r hr
    simp only [storeToken, List.length_set] at hr ⊢
    by_cases hseq : s = seq
    · subst hseq
      rw [Function.update_self, Option.some.injEq] at hr
      rw [← hr]
      apply Nat.max_le.mpr ⟨_, by omega⟩
      cases hold : c.cellRanges s with
      | none => exact Nat.zero_le _
      | some old => exact ranged.bounded s old hold
    · rw [Function.update_of_ne hseq] at hr
      exact ranged.bounded s r hr

/-- The cache after the first entries of a batch are stored. -/
structure Causal.Stored (c c' : Causal κ) (entries : List ((Int × Int) × Nat)) : Prop where
  setup : c.SameSetup c'
  length : c'.cells.length = c.cells.length
  ranged : c'.Ranged
  curMax : c'.curCellRange.max ≤ c.cells.length - 1
  has : ∀ j, c.curCellRange.Has j → c'.curCellRange.Has j
  new : ∀ e ∈ entries, c'.curCellRange.Has (c.curLoc + e.2)
  cell : ∀ j, c'.cell j = c.cell j ∨ ∃ e ∈ entries, j = c.curLoc + e.2

theorem Causal.storeToken_setup (c : Causal κ) (i : Nat) (pos seq : Int) :
    c.SameSetup (c.storeToken i pos seq) := rfl

theorem Causal.stored_foldl {c : Causal κ} (ranged : c.Ranged)
    (curMax : c.curCellRange.max ≤ c.cells.length - 1) {entries : List ((Int × Int) × Nat)}
    (fits : ∀ e ∈ entries, c.curLoc + e.2 < c.cells.length) :
    c.Stored (entries.foldl (fun c e => c.storeToken e.2 e.1.1 e.1.2) c) entries := by
  induction entries generalizing c with
  | nil => exact ⟨rfl, rfl, ranged, curMax, fun _ h => h, by simp, fun _ => .inl rfl⟩
  | cons e entries ih =>
    have hfit := fits e (by simp)
    have length : (c.storeToken e.2 e.1.1 e.1.2).cells.length = c.cells.length :=
      List.length_set
    have first : (c.storeToken e.2 e.1.1 e.1.2).curCellRange.Has (c.curLoc + e.2) :=
      CellRange.has_extend_self _ _
    have rest := ih (storeToken_ranged ranged hfit e.1.1 e.1.2)
      (by
        rw [length]
        exact Nat.max_le.mpr ⟨curMax, by omega⟩)
      (by
        intro e' he'
        rw [length]
        exact fits e' (by simp [he']))
    refine ⟨(storeToken_setup c _ _ _).trans rest.setup, rest.length.trans length, rest.ranged,
      ?_, ?_, ?_, ?_⟩
    · have := rest.curMax
      rwa [length] at this
    · intro j h
      exact rest.has j (h.extend _)
    · intro e' he'
      rcases List.mem_cons.mp he' with rfl | he'
      · exact rest.has _ first
      · exact rest.new e' he'
    · intro j
      rcases rest.cell j with h | ⟨e', he', h⟩
      · rw [storeToken_cell hfit] at h
        by_cases hj : j = c.curLoc + e.2
        · exact .inr ⟨e, by simp, hj⟩
        · rw [if_neg hj] at h
          exact .inl h
      · exact .inr ⟨e', by simp [he'], h⟩

/-! ### `StartForward` -/

/-- What `StartForward` has arranged when it starts to store the batch. -/
structure Causal.Prepared (c : Causal κ) (batch : Batch) : Prop where
  ready : c.WindowReady
  size : c.curBatchSize = batch.positions.length
  positions : c.curPositions = batch.positions
  sequences : c.curSequences = batch.sequences
  reserve : c.curReserve = false
  fits : c.curLoc + batch.positions.length ≤ c.cells.length

/-- The cache right before `StartForward` looks for room. -/
def Causal.withBatch (c : Causal κ) (batch : Batch) : Causal κ :=
  { c with
    curReserve := false, curBatchSize := batch.positions.length
    curSequences := batch.sequences, curPositions := batch.positions, except := [] }

theorem Causal.prepared_of_findStartLoc {c : Causal κ} {batch : Batch}
    (ready : c.WindowReady) (setup : ∃ b : Causal κ, (b.withBatch batch).SameSetup c) {loc : Nat}
    (h : c.findStartLoc = some loc) : ({ c with curLoc := loc } : Causal κ).Prepared batch := by
  obtain ⟨b, hb⟩ := setup
  have size : c.curBatchSize = batch.positions.length := by
    rw [hb]
    rfl
  refine ⟨⟨ready.ranged.congr rfl rfl, ready.curMax, ready.sees⟩, size, ?_, ?_, ?_, ?_⟩
  · change c.curPositions = _
    rw [hb]
    rfl
  · change c.curSequences = _
    rw [hb]
    rfl
  · change c.curReserve = _
    rw [hb]
    rfl
  · rw [← size]
    exact (findStartLoc_some h).1

theorem Causal.updateSlidingWindow_withBatch {c : Causal κ} (ranged : c.Ranged) (batch : Batch) :
    (c.withBatch batch).updateSlidingWindow.WindowReady ∧
      (c.withBatch batch).SameSetup (c.withBatch batch).updateSlidingWindow ∧
      (c.withBatch batch).updateSlidingWindow.sizes = c.sizes := by
  have hb : (c.withBatch batch).Ranged := ranged.congr rfl rfl
  exact ⟨updateSlidingWindow_ready hb, (updateSlidingWindow_setup hb.covered).1,
    updateSlidingWindow_sizes hb⟩

theorem Causal.prepare_eq (c : Causal κ) (batch : Batch) (maxGraphNodes : Int) :
    c.prepare batch maxGraphNodes =
      let w := (c.withBatch batch).updateSlidingWindow
      match w.findStartLoc with
      | some loc => ({ w with curLoc := loc }, none)
      | none =>
        match (w.defrag maxGraphNodes).findStartLoc with
        | some loc => ({ w.defrag maxGraphNodes with curLoc := loc }, none)
        | none => ({ w.defrag maxGraphNodes with curLoc := 0 }, some .kvCacheFull) := rfl

theorem Causal.moved_setup (c : Causal κ) (maxGraphNodes : Int) :
    ({ c with tensors := (c.defragCells maxGraphNodes).tensors } : Causal κ).SameSetup
      (c.moved maxGraphNodes) := rfl

theorem Causal.prepare_spec {c : Causal κ} (ranged : c.Ranged) (batch : Batch)
    (maxGraphNodes : Int) :
    (c.prepare batch maxGraphNodes).1.Ranged ∧
      (c.prepare batch maxGraphNodes).1.sizes = c.sizes ∧
      ((c.prepare batch maxGraphNodes).2 = none →
        (c.prepare batch maxGraphNodes).1.Prepared batch) := by
  obtain ⟨ready, setup, sizes⟩ := updateSlidingWindow_withBatch ranged batch
  rw [prepare_eq]
  dsimp only
  generalize hw : (c.withBatch batch).updateSlidingWindow = w at ready setup sizes
  have ready' := defrag_ready ready.ranged maxGraphNodes
  have sizes' := defrag_sizes ready.ranged maxGraphNodes
  split
  · rename_i loc hloc
    refine ⟨ready.ranged.congr rfl rfl, sizes, ?_⟩
    intro _
    exact prepared_of_findStartLoc ready ⟨c, setup⟩ hloc
  · split
    · rename_i loc hloc
      refine ⟨ready'.ranged.congr rfl rfl, sizes'.trans sizes, ?_⟩
      intro _
      apply prepared_of_findStartLoc ready' _ hloc
      refine ⟨{ c with tensors := (w.defragCells maxGraphNodes).tensors }, ?_⟩
      have after := (updateSlidingWindow_setup (covered_moved w maxGraphNodes)).1
      have before := w.moved_setup maxGraphNodes
      have chain : (({ c with tensors := (w.defragCells maxGraphNodes).tensors } : Causal κ).withBatch
          batch).SameSetup { w with tensors := (w.defragCells maxGraphNodes).tensors } := by
        unfold SameSetup at setup ⊢
        rw [setup]
        rfl
      exact (chain.trans before).trans after
    · refine ⟨ready'.ranged.congr rfl rfl, sizes'.trans sizes, ?_⟩
      intro h
      cases h

theorem zipIdx_fits {α : Type*} {l : List α} {e : α × Nat} (h : e ∈ l.zipIdx) :
    e.2 < l.length := by
  obtain ⟨a, i⟩ := e
  have := List.mem_zipIdx h
  omega

theorem Causal.Prepared.stored {c : Causal κ} {batch : Batch} (prepared : c.Prepared batch) :
    c.Stored c.storeBatch (c.curPositions.zip c.curSequences).zipIdx := by
  apply stored_foldl prepared.ready.ranged prepared.ready.curMax
  intro e he
  have hlt := zipIdx_fits he
  have := prepared.fits
  rw [List.length_zip, prepared.positions] at hlt
  omega

/-! ### `CopyPrefix` -/

theorem copyCell_mem {srcSeq dstSeq len s : Int} {cell : CacheCell}
    (h : s ∈ (Causal.copyCell srcSeq dstSeq len cell).sequences) :
    s = dstSeq ∨ s ∈ cell.sequences ∧ s ≠ dstSeq := by
  by_cases hs : s = dstSeq
  · exact .inl hs
  · refine .inr ⟨?_, hs⟩
    simp only [Causal.copyCell] at h
    split at h <;> split at h <;> simp_all [CacheCell.mem_delete]

theorem copyCell_default (srcSeq dstSeq len : Int) :
    Causal.copyCell srcSeq dstSeq len {} = {} := by
  simp [Causal.copyCell]

theorem getD_map_of_default {f : CacheCell → CacheCell} (h : f {} = {}) (cells : List CacheCell)
    (j : Nat) : (cells.map f).getD j {} = f (cells.getD j {}) := by
  simp only [List.getD_eq_getElem?_getD, List.getElem?_map]
  cases cells[j]? with
  | none => exact h.symm
  | some cell => rfl

theorem Causal.copyPrefix_cell (c : Causal κ) (srcSeq dstSeq len : Int) (j : Nat) :
    (c.copyPrefix srcSeq dstSeq len).cell j = copyCell srcSeq dstSeq len (c.cell j) :=
  getD_map_of_default (copyCell_default srcSeq dstSeq len) c.cells j

theorem Causal.copyPrefix_ranged {c : Causal κ} (ranged : c.Ranged) (srcSeq dstSeq len : Int) :
    (c.copyPrefix srcSeq dstSeq len).Ranged := by
  apply ranged_of_has
  · intro j s hs
    simp only [copyPrefix]
    by_cases hseq : s = dstSeq
    · subst hseq
      exact ⟨_, Function.update_self .., rangeOf_has (lt_of_mem_cell hs) hs⟩
    · rw [copyPrefix_cell] at hs
      rw [Function.update_of_ne hseq]
      rcases copyCell_mem hs with h | h
      · exact absurd h hseq
      · exact ranged.has h.1
  · intro s r hr
    simp only [copyPrefix] at hr ⊢
    by_cases hseq : s = dstSeq
    · subst hseq
      rw [Function.update_self, Option.some.injEq] at hr
      rw [← hr]
      exact rangeOf_max_le _ s
    · rw [Function.update_of_ne hseq] at hr
      rw [List.length_map]
      exact ranged.bounded s r hr

/-! ### `Remove` -/

/-- What the loop of `Remove` leaves. -/
structure RemoveSpec (seq : Int) (cells : List CacheCell) (i : Nat) (r : CellRange)
    (out : List CacheCell × CellRange × Bool) : Prop where
  length : out.1.length = cells.length
  has : ∀ j, r.Has j → out.2.1.Has j
  max_le : ∀ n, r.max ≤ n → i + cells.length ≤ n + 1 → out.2.1.max ≤ n
  mem : ∀ k s, s ∈ (out.1.getD k {}).sequences → s ∈ (cells.getD k {}).sequences
  range : out.2.2 = false → ∀ k, seq ∈ (out.1.getD k {}).sequences → out.2.1.Has (i + k)

theorem RemoveSpec.cons {seq : Int} {cell cell' : CacheCell} {cells : List CacheCell} {i : Nat}
    {r r' : CellRange} {out : List CacheCell × CellRange × Bool}
    (rest : RemoveSpec seq cells (i + 1) r' out) (sub : cell'.sequences ⊆ cell.sequences)
    (hr : r' = r ∨ r' = r.extend i) (mem : seq ∈ cell'.sequences → r' = r.extend i) :
    RemoveSpec seq (cell :: cells) i r (cell' :: out.1, out.2.1, out.2.2) where
  length := by simp [rest.length]
  has := by
    intro j h
    apply rest.has
    rcases hr with rfl | rfl
    · exact h
    · exact h.extend i
  max_le := by
    intro n h hn
    rw [List.length_cons] at hn
    apply rest.max_le n _ (by omega)
    rcases hr with rfl | rfl
    · exact h
    · exact Nat.max_le.mpr ⟨h, by omega⟩
  mem := by
    intro k s h
    cases k with
    | zero => exact sub h
    | succ k => exact rest.mem k s h
  range := by
    intro hshared k h
    cases k with
    | zero =>
      apply rest.has
      rw [mem h]
      exact CellRange.has_extend_self r i
    | succ k =>
      rw [show i + (k + 1) = i + 1 + k by omega]
      exact rest.range hshared k h

theorem removeCells_spec (seq beginIndex endIndex offset : Int) (cells : List CacheCell) (i : Nat)
    (r : CellRange) : RemoveSpec seq cells i r
      (removeCells seq beginIndex endIndex offset cells i r) := by
  induction cells generalizing i r with
  | nil =>
    refine ⟨rfl, fun _ h => h, fun _ h _ => h, fun _ _ h => h, ?_⟩
    intro _ k h
    simp [removeCells] at h
  | cons cell cells ih =>
    rw [removeCells]
    split
    · split
      · apply RemoveSpec.cons (ih (i + 1) r)
        · intro s hs
          exact (CacheCell.mem_delete.mp hs).1
        · exact .inl rfl
        · intro h
          exact absurd rfl (CacheCell.mem_delete.mp h).2
      · split
        · split
          · refine ⟨rfl, fun _ h => h, fun _ h _ => h, fun _ _ h => h, ?_⟩
            intro h
            cases h
          · exact RemoveSpec.cons (ih (i + 1) _) (fun _ h => h) (.inr rfl) fun _ => rfl
        · exact RemoveSpec.cons (ih (i + 1) _) (fun _ h => h) (.inr rfl) fun _ => rfl
    · rename_i hnot
      apply RemoveSpec.cons (ih (i + 1) r) (fun _ h => h) (.inl rfl)
      intro h
      rw [List.contains_iff_mem] at hnot
      exact absurd h hnot

theorem Causal.shiftBatch_setup {c c' : Causal κ} {fn : ShiftFn κ} {seq beginIndex offset : Int}
    {start size : Nat} (h : c.shiftBatch fn seq beginIndex offset start size = some c') :
    c' = { c with tensors := c'.tensors } := by
  unfold shiftBatch at h
  dsimp only at h
  split at h
  · split at h
    · cases h
    · obtain rfl := Option.some.inj h
      rfl
  · obtain rfl := Option.some.inj h
    rfl

theorem Causal.shiftBatches_setup (c : Causal κ) (fn : ShiftFn κ) (seq beginIndex offset : Int)
    (seqRange : CellRange) (ks : List Nat) :
    (c.shiftBatches fn seq beginIndex offset seqRange ks).1 =
      { c with tensors := (c.shiftBatches fn seq beginIndex offset seqRange ks).1.tensors } := by
  induction ks generalizing c with
  | nil => rfl
  | cons k ks ih =>
    simp only [shiftBatches]
    cases h : c.shiftBatch fn seq beginIndex offset (seqRange.min + k * c.maxBatch)
        (Nat.min (seqRange.max + 1 - (seqRange.min + k * c.maxBatch)) c.maxBatch) with
    | none => rfl
    | some c' =>
      dsimp only
      rw [ih c', shiftBatch_setup h]

/-- `shift` leaves everything but the key rows alone. -/
theorem Causal.shift_setup (c : Causal κ) (seq beginIndex offset : Int) :
    (c.shift seq beginIndex offset).1 =
      { c with tensors := (c.shift seq beginIndex offset).1.tensors } := by
  unfold shift
  split
  · rfl
  · exact shiftBatches_setup c _ seq beginIndex offset _ _

theorem Causal.remove_keeps {c : Causal κ} (ranged : c.Ranged) (seq beginIndex endIndex : Int) :
    (c.remove seq beginIndex endIndex).1.Ranged ∧
      (c.remove seq beginIndex endIndex).1.sizes = c.sizes := by
  simp only [remove]
  generalize hoff : (if endIndex ≠ maxInt32 then sub32 beginIndex endIndex else 0) = offset
  have spec := removeCells_spec seq beginIndex endIndex offset c.cells 0 newRange
  generalize removeCells seq beginIndex endIndex offset c.cells 0 newRange = out at spec
  obtain ⟨cells, r, shared⟩ := out
  have length : cells.length = c.cells.length := spec.length
  have mem (j : Nat) (s : Int) (h : s ∈ (cells.getD j {}).sequences) :
      s ∈ (c.cell j).sequences := spec.mem j s h
  have sizes : ({ c with cells } : Causal κ).sizes = c.sizes := by
    rw [Causal.sizes, length]
    rfl
  have kept (ranges : Int → Option CellRange) {c' : Causal κ} (hcells : c'.cells = cells)
      (hranges : c'.cellRanges = ranges)
      (other : ∀ s, s ≠ seq → ranges s = c.cellRanges s)
      (mine : ∀ j, seq ∈ (cells.getD j {}).sequences → ∃ r, ranges seq = some r ∧ r.Has j)
      (bounded : ∀ r, ranges seq = some r → r.max ≤ cells.length - 1) : c'.Ranged := by
    apply ranged_of_has
    · intro j s hs
      rw [Causal.cell, hcells] at hs
      rw [hranges]
      by_cases hseq : s = seq
      · subst hseq
        exact mine j hs
      · rw [other s hseq]
        exact ranged.has (mem j s hs)
    · intro s r hr
      rw [hranges] at hr
      rw [hcells]
      by_cases hseq : s = seq
      · subst hseq
        exact bounded r hr
      · rw [other s hseq] at hr
        rw [length]
        exact ranged.bounded s r hr
  have mine (hshared : shared = false) (j : Nat) (h : seq ∈ (cells.getD j {}).sequences) :
      r.Has j := by
    have := spec.range hshared j h
    rwa [Nat.zero_add] at this
  by_cases hshared : shared
  · -- the ranges are as before
    rw [if_pos hshared]
    refine ⟨kept c.cellRanges rfl rfl (fun _ _ => rfl) ?_ ?_, sizes⟩
    · intro j h
      exact ranged.has (mem j seq h)
    · intro r hr
      rw [length]
      exact ranged.bounded seq r hr
  · rw [if_neg hshared]
    have hshared : shared = false := by simpa using hshared
    split
    · rename_i hnew
      refine ⟨kept (Function.update c.cellRanges seq none) rfl rfl
        (fun _ h => Function.update_of_ne h ..) ?_ ?_, sizes⟩
      · intro j h
        have := mine hshared j h
        rw [show r = newRange from hnew] at this
        exact absurd this (CellRange.not_has_newRange j)
      · intro r hr
        rw [Function.update_self] at hr
        cases hr
    · have updated : ({ c with
          cells, cellRanges := Function.update c.cellRanges seq (some r) } : Causal κ).Ranged := by
        refine kept (Function.update c.cellRanges seq (some r)) rfl rfl
          (fun _ h => Function.update_of_ne h ..) ?_ ?_
        · intro j h
          exact ⟨r, Function.update_self .., mine hshared j h⟩
        · intro r' hr'
          rw [Function.update_self, Option.some.injEq] at hr'
          subst hr'
          have := spec.max_le (cells.length - 1) (Nat.zero_le _)
          dsimp only at this
          omega
      split
      · constructor
        · rw [shift_setup]
          exact updated.congr rfl rfl
        · rw [shift_setup]
          exact sizes
      · exact ⟨updated, sizes⟩

end Ecco9.KvCache
