import Ecco9.KvCache.Held
import Ecco9.KvCache.Mask

/-! A forward pass through a cache without a window: the batch is stored in free cells, the rest
stays. -/

universe u

namespace Ecco9.KvCache

open Ecco9.Library

/-! ### A cache without a window -/

/-- The rows are labels that a shift does not change, and nothing falls out of the memory. -/
structure Causal.Plain (c : Causal κ) : Prop where
  memory : c.swaMemorySize = maxInt32
  labels : ∀ fn, c.shiftFn = some fn → ∀ l x offset, fn.rotate l x offset = x

theorem Causal.Plain.congr {c : Causal κ} (plain : c.Plain) {c' : Causal κ}
    (hmemory : c'.swaMemorySize = c.swaMemorySize) (hshift : c'.shiftFn = c.shiftFn) : c'.Plain :=
  ⟨hmemory.trans plain.memory, fun fn h => plain.labels fn (hshift ▸ h)⟩

theorem Causal.shiftBatch_tensors {c c' : Causal κ} {fn : ShiftFn κ}
    (labels : ∀ l x offset, fn.rotate l x offset = x) {seq beginIndex offset : Int}
    {start size : Nat} (h : c.shiftBatch fn seq beginIndex offset start size = some c') :
    c'.tensors = c.tensors := by
  unfold shiftBatch at h
  dsimp only at h
  split at h
  · split at h
    · cases h
    · obtain rfl := Option.some.inj h
      dsimp only
      apply List.ext_getElem?
      intro l
      rw [List.getElem?_mapIdx]
      simp only [labels, ite_self]
      simp
  · obtain rfl := Option.some.inj h
    rfl

theorem Causal.shiftBatches_tensors (c : Causal κ) {fn : ShiftFn κ}
    (labels : ∀ l x offset, fn.rotate l x offset = x) (seq beginIndex offset : Int)
    (seqRange : CellRange) (ks : List Nat) :
    (c.shiftBatches fn seq beginIndex offset seqRange ks).1.tensors = c.tensors := by
  induction ks generalizing c with
  | nil => rfl
  | cons k ks ih =>
    rw [shiftBatches]
    split
    · rfl
    · rename_i c' hbatch
      rw [ih c', shiftBatch_tensors labels hbatch]

theorem Causal.Plain.shift_tensors {c : Causal κ} (plain : c.Plain) (seq beginIndex offset : Int) :
    (c.shift seq beginIndex offset).1.tensors = c.tensors := by
  unfold shift
  split
  · rfl
  · rename_i fn hfn
    exact shiftBatches_tensors c (plain.labels fn hfn) ..

theorem Causal.Plain.shift {c : Causal κ} (plain : c.Plain) (seq beginIndex offset : Int) :
    (c.shift seq beginIndex offset).1.Plain := by
  have setup := c.shift_setup seq beginIndex offset
  exact plain.congr (congrArg (·.swaMemorySize) setup) (congrArg (·.shiftFn) setup)

theorem Causal.Plain.withCells {c : Causal κ} (plain : c.Plain) (cells : List CacheCell)
    (cellRanges : Int → Option CellRange) : Plain { c with cells, cellRanges } :=
  plain.congr rfl rfl

theorem Causal.Plain.remove {c : Causal κ} (plain : c.Plain) (seq beginIndex endIndex : Int) :
    (c.remove seq beginIndex endIndex).1.tensors = c.tensors ∧
      (c.remove seq beginIndex endIndex).1.Plain := by
  rw [remove_eq]
  dsimp only
  split
  · exact ⟨rfl, plain.withCells _ _⟩
  · split
    · exact ⟨rfl, plain.withCells _ _⟩
    · split
      · exact ⟨(plain.withCells _ _).shift_tensors .., (plain.withCells _ _).shift ..⟩
      · exact ⟨rfl, plain.withCells _ _⟩

theorem Causal.Plain.updateSlidingWindow {c : Causal κ} (plain : c.Plain) :
    c.updateSlidingWindow = { c with curCellRange := c.updateSlidingWindow.curCellRange } := by
  unfold Causal.updateSlidingWindow
  dsimp only
  rw [if_pos plain.memory]

/-! ### Storing a batch -/

/-- The cells with a batch stored from `loc` on. -/
def storedCell (batch : Batch) (loc : Nat) (old : Nat → CacheCell) (i : Nat) : CacheCell :=
  if loc ≤ i ∧ i < loc + batch.positions.length then
    { pos := batch.positions.getD (i - loc) 0, sequences := [batch.sequences.getD (i - loc) 0] }
  else old i

theorem Causal.storeTokens_cell {c : Causal κ} (entries : List (Int × Int)) (k : Nat)
    (h : c.curLoc + k + entries.length ≤ c.cells.length) (i : Nat) :
    ((entries.zipIdx k).foldl (fun c e => c.storeToken e.2 e.1.1 e.1.2) c).cell i =
      if c.curLoc + k ≤ i ∧ i < c.curLoc + k + entries.length then
        { pos := (entries.getD (i - (c.curLoc + k)) (0, 0)).1
          sequences := [(entries.getD (i - (c.curLoc + k)) (0, 0)).2] }
      else c.cell i := by
  induction entries generalizing c k with
  | nil =>
    rw [if_neg (by simp)]
    rfl
  | cons e entries ih =>
    rw [List.length_cons] at h ⊢
    have hloc : (c.storeToken k e.1 e.2).curLoc = c.curLoc := rfl
    have hlen : (c.storeToken k e.1 e.2).cells.length = c.cells.length := List.length_set
    rw [List.zipIdx_cons, List.foldl_cons, ih (k + 1) (by rw [hloc, hlen]; omega), hloc]
    by_cases hi : i = c.curLoc + k
    · subst hi
      rw [if_neg (by omega), if_pos (by omega), storeToken_cell (by omega), if_pos rfl]
      simp
    · by_cases hin : c.curLoc + k ≤ i ∧ i < c.curLoc + k + (entries.length + 1)
      · rw [if_pos (by omega), if_pos hin]
        have : i - (c.curLoc + k) = i - (c.curLoc + (k + 1)) + 1 := by omega
        rw [this, List.getD_cons_succ]
      · rw [if_neg (by omega), if_neg hin, storeToken_cell (by omega), if_neg hi]

theorem Causal.storeTokens_setup (c : Causal κ) (entries : List ((Int × Int) × Nat)) :
    c.SameSetup (entries.foldl (fun c e => c.storeToken e.2 e.1.1 e.1.2) c) ∧
      (entries.foldl (fun c e => c.storeToken e.2 e.1.1 e.1.2) c).cells.length =
        c.cells.length := by
  induction entries generalizing c with
  | nil => exact ⟨rfl, rfl⟩
  | cons e entries ih =>
    obtain ⟨setup, hlen⟩ := ih (c.storeToken e.2 e.1.1 e.1.2)
    exact ⟨(storeToken_setup c _ _ _).trans setup, hlen.trans List.length_set⟩

/-- What is held once a block of free cells is filled. -/
theorem held_stored {cells cells' : List CacheCell} {batch : Batch} {loc : Nat}
    {row row' : Nat → κ} (hlen : cells'.length = cells.length)
    (fits : loc + batch.positions.length ≤ cells.length)
    (free : ∀ i, loc ≤ i → i < loc + batch.positions.length → (cells.getD i {}).free)
    (hcell : ∀ i, cells'.getD i {} = storedCell batch loc (fun i => cells.getD i {}) i)
    (hrow : ∀ i, ¬(loc ≤ i ∧ i < loc + batch.positions.length) → row' i = row i) (seq : Int) :
    held cells' seq row' = held cells seq row +
      ∑ k ∈ Finset.range batch.positions.length, heldAt seq
        { pos := batch.positions.getD k 0, sequences := [batch.sequences.getD k 0] }
        (row' (loc + k)) := by
  rw [held, held, hlen]
  obtain ⟨rest, hrest⟩ : ∃ rest, cells.length = loc + batch.positions.length + rest :=
    ⟨cells.length - (loc + batch.positions.length), by omega⟩
  rw [hrest, Finset.sum_range_add, Finset.sum_range_add, Finset.sum_range_add,
    Finset.sum_range_add]
  have before : ∀ i ∈ Finset.range loc, heldAt seq (cells'.getD i {}) (row' i) =
      heldAt seq (cells.getD i {}) (row i) := by
    intro i hi
    rw [Finset.mem_range] at hi
    rw [hcell, storedCell, if_neg (by omega), hrow i (by omega)]
  have after : ∀ i ∈ Finset.range rest,
      heldAt seq (cells'.getD (loc + batch.positions.length + i) {})
        (row' (loc + batch.positions.length + i)) =
      heldAt seq (cells.getD (loc + batch.positions.length + i) {})
        (row (loc + batch.positions.length + i)) := by
    intro i _
    rw [hcell, storedCell, if_neg (by omega), hrow _ (by omega)]
  have old : ∀ i ∈ Finset.range batch.positions.length,
      heldAt seq (cells.getD (loc + i) {}) (row (loc + i)) = 0 := by
    intro i hi
    rw [Finset.mem_range] at hi
    exact heldAt_free (free _ (by omega) (by omega)) _
  have new : ∀ i ∈ Finset.range batch.positions.length,
      heldAt seq (cells'.getD (loc + i) {}) (row' (loc + i)) = heldAt seq
        { pos := batch.positions.getD i 0, sequences := [batch.sequences.getD i 0] }
        (row' (loc + i)) := by
    intro i hi
    rw [Finset.mem_range] at hi
    rw [hcell, storedCell, if_pos (by omega), Nat.add_sub_cancel_left]
  rw [Finset.sum_congr rfl before, Finset.sum_congr rfl after, Finset.sum_congr rfl old,
    Finset.sum_congr rfl new, Finset.sum_const_zero, add_zero]
  exact add_right_comm _ _ _

/-! ### A forward pass -/

/-- Looking for room for `n` tokens does no harm: there is room, or no defragmentation mixes up
rows. -/
def Causal.Undisturbed (c : Causal κ) (n : Nat) : Prop :=
  (findStartLocFrom n c.cells 0 0 0).isSome = true ∨ SwapsHarmless c.cells (fillings c.cells)

/-- The cache with a batch stored, whose rows are still to be put: `old` is the cache before, maybe
defragmented. -/
structure Causal.Started (c old c' : Causal κ) (batch : Batch) : Prop where
  same : c.SameContents old
  labels : ∀ row : Nat → Unit, entries old.cells row = entries c.cells row
  plain : c'.Plain
  shiftFn : c'.shiftFn = c.shiftFn
  tensors : c'.tensors = old.tensors
  size : c'.curBatchSize = batch.positions.length
  length : c'.cells.length = old.cells.length
  fits : c'.curLoc + batch.positions.length ≤ old.cells.length
  free : ∀ i, c'.curLoc ≤ i → i < c'.curLoc + batch.positions.length → (old.cell i).free
  cell : ∀ i, c'.cell i = storedCell batch c'.curLoc old.cell i

theorem Causal.SameContents.refl (c : Causal κ) : c.SameContents c := by
  unfold SameContents
  induction c.tensors with
  | nil => exact .nil
  | cons t ts ih =>
    refine .cons ?_ ih
    cases t with
    | none => exact .none
    | some t => exact .some ⟨rfl, rfl⟩

theorem Causal.started_of_room {c old : Causal κ} {batch : Batch} {loc : Nat}
    (hseq : batch.sequences.length = batch.positions.length)
    (plain : old.Plain) (same : c.SameContents old) (hshift : old.shiftFn = c.shiftFn)
    (labels : ∀ row : Nat → Unit, entries old.cells row = entries c.cells row)
    (hsize : old.curBatchSize = batch.positions.length) (hpos : old.curPositions = batch.positions)
    (hseqs : old.curSequences = batch.sequences) (h : old.findStartLoc = some loc) :
    c.Started old ({ old with curLoc := loc } : Causal κ).storeBatch.buildMask batch := by
  obtain ⟨fits, free⟩ := findStartLoc_some h
  obtain ⟨setup, hlen⟩ := storeTokens_setup ({ old with curLoc := loc } : Causal κ)
    ((old.curPositions.zip old.curSequences).zipIdx)
  have hzip : (old.curPositions.zip old.curSequences).length = batch.positions.length := by
    rw [hpos, hseqs, List.length_zip, hseq, Nat.min_self]
  rw [hsize] at fits free
  have stored : ({ old with curLoc := loc } : Causal κ).storeBatch.curLoc = loc := by
    have := congrArg (·.curLoc) setup
    exact this
  rw [buildMask_same]
  refine ⟨same, labels, ?_, ?_, ?_, ?_, hlen, ?_, ?_, ?_⟩
  · have hm := congrArg (·.swaMemorySize) setup
    have hs := congrArg (·.shiftFn) setup
    exact plain.congr hm hs
  · have := congrArg (·.shiftFn) setup
    exact this.trans hshift
  · have := congrArg (·.tensors) setup
    exact this
  · have := congrArg (·.curBatchSize) setup
    exact this.trans hsize
  · change ({ old with curLoc := loc } : Causal κ).storeBatch.curLoc + _ ≤ _
    rw [stored]
    exact fits
  · intro i
    change ({ old with curLoc := loc } : Causal κ).storeBatch.curLoc ≤ i →
      i < ({ old with curLoc := loc } : Causal κ).storeBatch.curLoc + _ → _
    rw [stored]
    exact free i
  · intro i
    change ({ old with curLoc := loc } : Causal κ).storeBatch.cell i = storedCell batch
      ({ old with curLoc := loc } : Causal κ).storeBatch.curLoc old.cell i
    have := storeTokens_cell (c := ({ old with curLoc := loc } : Causal κ))
      (old.curPositions.zip old.curSequences) 0 (by rw [hzip]; exact fits) i
    rw [stored]
    refine this.trans ?_
    rw [hzip, storedCell]
    dsimp only
    rw [Nat.add_zero]
    by_cases hi : loc ≤ i ∧ i < loc + batch.positions.length
    · rw [if_pos hi, if_pos hi, hpos, hseqs]
      have h1 : i - loc < batch.positions.length := by omega
      have h2 : i - loc < batch.sequences.length := by omega
      simp [h1, h2]
    · rw [if_neg hi, if_neg hi]
      rfl

/-- What a forward pass makes of a cache without a window. -/
theorem Causal.Plain.started {c c' : Causal κ} (plain : c.Plain) {batch : Batch}
    (hseq : batch.sequences.length = batch.positions.length)
    {maxGraphNodes : Int} (undisturbed : c.Undisturbed batch.positions.length)
    (h : c.startForward batch false maxGraphNodes = (c', none)) :
    ∃ old, c.Started old c' batch := by
  have plain' : (c.withBatch batch).Plain := plain.congr rfl rfl
  have hw := plain'.updateSlidingWindow
  have hcells : (c.withBatch batch).updateSlidingWindow.cells = c.cells := by rw [hw]; rfl
  have htensors : (c.withBatch batch).updateSlidingWindow.tensors = c.tensors := by rw [hw]; rfl
  have plainW : (c.withBatch batch).updateSlidingWindow.Plain := by
    rw [hw]
    exact plain.congr rfl rfl
  have hshift : (c.withBatch batch).updateSlidingWindow.shiftFn = c.shiftFn := by rw [hw]; rfl
  have hsize : (c.withBatch batch).updateSlidingWindow.curBatchSize = batch.positions.length := by
    rw [hw]
    rfl
  have hpos : (c.withBatch batch).updateSlidingWindow.curPositions = batch.positions := by
    rw [hw]
    rfl
  have hseqs : (c.withBatch batch).updateSlidingWindow.curSequences = batch.sequences := by
    rw [hw]
    rfl
  rw [startForward, if_neg (by simp), prepare_eq] at h
  dsimp only at h
  generalize (c.withBatch batch).updateSlidingWindow = w
    at hcells htensors plainW hshift hsize hpos hseqs h
  have same : c.SameContents w := by
    have := SameContents.refl c
    unfold SameContents at this ⊢
    rw [hcells, htensors]
    exact this
  cases hloc : w.findStartLoc with
  | some loc =>
    rw [hloc] at h
    obtain ⟨rfl, -⟩ := Prod.mk.inj h
    exact ⟨w, started_of_room hseq plainW same hshift (fun row => by rw [hcells]) hsize hpos
      hseqs hloc⟩
  | none =>
    rw [hloc] at h
    dsimp only at h
    have harmless : SwapsHarmless w.cells (fillings w.cells) := by
      rw [hcells]
      rcases undisturbed with hroom | hharmless
      · rw [findStartLoc, hsize, hcells] at hloc
        rw [hloc] at hroom
        cases hroom
      · exact hharmless
    have settled : w.WindowSettled := .inl plainW.memory
    have setup := (updateSlidingWindow_setup (covered_moved w maxGraphNodes)).1
    rw [← defrag_eq] at setup
    have moved (row : Nat → Unit) :
        entries (w.defrag maxGraphNodes).cells row = entries c.cells row := by
      rw [entries_defrag settled, ← hcells]
      exact entries_applyPairs (fills_fillings w.cells) (by omega)
    have plainD : (w.defrag maxGraphNodes).Plain :=
      plainW.congr (congrArg (·.swaMemorySize) setup) (congrArg (·.shiftFn) setup)
    cases hloc' : (w.defrag maxGraphNodes).findStartLoc with
    | none =>
      rw [hloc'] at h
      cases (Prod.mk.inj h).2
    | some loc =>
      rw [hloc'] at h
      obtain ⟨rfl, -⟩ := Prod.mk.inj h
      have sameD : c.SameContents (w.defrag maxGraphNodes) := by
        have := sameContents_defrag harmless settled maxGraphNodes
        unfold SameContents at this ⊢
        rw [hcells, htensors] at this
        exact this
      exact ⟨_, started_of_room hseq plainD sameD
        ((congrArg (·.shiftFn) setup).trans hshift) moved
        ((congrArg (·.curBatchSize) setup).trans hsize)
        ((congrArg (·.curPositions) setup).trans hpos)
        ((congrArg (·.curSequences) setup).trans hseqs) hloc'⟩

/-! ### The layers -/

/-- A model puts the rows of the batch into every layer. -/
def Causal.storeLayers (c : Causal κ) (zero : κ) (rows : Nat → κ) (layers : Nat) : Causal κ :=
  (List.range layers).foldl (fun c layer => (c.setLayer layer).put zero rows rows) c

theorem modify_length_append {α : Type*} (f : α → α) (new : List α) (a : α) (old : List α) :
    (new ++ a :: old).modify new.length f = new ++ f a :: old := by
  induction new with
  | nil => rfl
  | cons b new ih => simp [ih]

theorem put_tensors {α : Type*} (f : Option α → α) (new old : List (Option α)) :
    (new ++ old ++ List.replicate (new.length + 1 - (new ++ old).length) none).modify new.length
        (fun t => some (f t)) = new ++ some (f (old.getD 0 none)) :: old.drop 1 := by
  cases old with
  | nil => simp [modify_length_append]
  | cons t old => simp [modify_length_append]

theorem Causal.storeLayers_spec (c : Causal κ) (zero : κ) (rows : Nat → κ) (layers : Nat) :
    c.storeLayers zero rows layers = { c with
      curLayer := (c.storeLayers zero rows layers).curLayer
      tensors := ((List.range layers).map fun layer =>
        some (c.storeLayer zero rows rows (c.tensors.getD layer none))) ++ c.tensors.drop layers } := by
  induction layers with
  | zero => simp [storeLayers]
  | succ layers ih =>
    have step : c.storeLayers zero rows (layers + 1) =
        ((c.storeLayers zero rows layers).setLayer layers).put zero rows rows := by
      rw [storeLayers, List.range_succ, List.foldl_append]
      rfl
    have tensors := put_tensors (c.storeLayer zero rows rows) ((List.range layers).map fun layer =>
      some (c.storeLayer zero rows rows (c.tensors.getD layer none))) (c.tensors.drop layers)
    rw [List.length_map, List.length_range] at tensors
    have after : ((c.storeLayers zero rows layers).setLayer layers).put zero rows rows = { c with
        curLayer := layers
        tensors := ((List.range layers).map fun layer =>
          some (c.storeLayer zero rows rows (c.tensors.getD layer none))) ++
            some (c.storeLayer zero rows rows ((c.tensors.drop layers).getD 0 none)) ::
            (c.tensors.drop layers).drop 1 } := by
      rw [ih, ← tensors]
      rfl
    rw [step, after, List.range_succ, List.map_append, List.drop_drop, List.append_assoc]
    simp

end Ecco9.KvCache
