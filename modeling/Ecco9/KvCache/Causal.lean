import Ecco9.Library.LabelledStore
import Ecco9.Library.MachineInt
import Mathlib.Data.List.Dedup
import Mathlib.Data.List.Basic

/-! The causal KV cache of `kvcache/causal.go`: the metadata of every cell, the range of cells of
every sequence, and the rows of the key and value tensors, one row a cell. -/

universe u

namespace Ecco9.KvCache

open Ecco9.Library

structure CacheConfig where
  cachePadding : Nat
  maskBatchPadding : Nat
  deriving DecidableEq

@[ext] structure CacheCell where
  pos : Int := 0
  sequences : List Int := []
  deriving DecidableEq

/-- A cell is free when no sequence refers to it. -/
def CacheCell.free (cell : CacheCell) : Bool := cell.sequences.isEmpty

def CacheCell.delete (cell : CacheCell) (seq : Int) : CacheCell :=
  { cell with sequences := cell.sequences.filter (· ≠ seq) }

structure CellRange where
  min : Nat
  max : Nat
  deriving DecidableEq

def newRange : CellRange := ⟨maxInt, 0⟩

def CellRange.extend (r : CellRange) (i : Nat) : CellRange :=
  ⟨Nat.min r.min i, Nat.max r.max i⟩

/-- The indices `r.min, …, r.max`, in order; none when the range is `newRange`. -/
def CellRange.indices (r : CellRange) : List Nat := List.range' r.min (r.max + 1 - r.min)

/-- Key and value rows of one layer. -/
structure LayerTensors (κ : Type u) where
  key : Nat → κ
  value : Nat → κ

/-- `shiftFn`: rotates the key row of a layer by an offset, or fails for the whole layer. -/
structure ShiftFn (κ : Type u) where
  rotate : Nat → κ → Int → κ
  fails : Nat → Bool

structure Batch where
  positions : List Int
  sequences : List Int
  deriving DecidableEq

inductive CacheErr
  | kvCacheFull | notSupported | sharedCells | shiftFailed
  deriving DecidableEq

structure Causal (κ : Type u) where
  swaWindowSize : Int
  swaMemorySize : Int
  chunkSize : Int
  except : List Nat := []
  maxBatch : Nat := 0
  config : CacheConfig
  curReserve : Bool := false
  curLayer : Nat := 0
  curLoc : Nat := 0
  curBatchSize : Nat := 0
  /-- one row for each token, `true` where the entry is minus infinity -/
  curMask : List (List Bool) := []
  curCellRange : CellRange := newRange
  curSequences : List Int := []
  curPositions : List Int := []
  cells : List CacheCell := []
  cellRanges : Int → Option CellRange := fun _ => none
  shiftFn : Option (ShiftFn κ) := none
  /-- `keys` and `values`, by layer; a layer without tensors is `none` -/
  tensors : List (Option (LayerTensors κ)) := []

def Causal.cell (c : Causal κ) (i : Nat) : CacheCell := c.cells.getD i {}

def roundDown (length pad : Nat) : Nat := length / pad * pad

def roundUp (length pad : Nat) : Nat := (length + pad - 1) / pad * pad

def newCausalCache (shift : Option (ShiftFn κ)) : Causal κ :=
  { swaWindowSize := 0, swaMemorySize := 0, chunkSize := 0, config := ⟨0, 0⟩, shiftFn := shift }

def newSWACache (windowSize : Int) (shift : Option (ShiftFn κ)) : Causal κ :=
  { newCausalCache shift with swaWindowSize := windowSize }

def newSWAMemCache (windowSize memorySize : Int) (shift : Option (ShiftFn κ)) : Causal κ :=
  { newCausalCache shift with swaWindowSize := windowSize, swaMemorySize := memorySize }

def newChunkedAttentionCache (chunkSize : Int) (shift : Option (ShiftFn κ)) : Causal κ :=
  { newCausalCache shift with chunkSize := chunkSize }

/-- `Init`; `none` where it panics because the memory is smaller than the window. -/
def Causal.init (c : Causal κ) (config : CacheConfig) (maxSequences capacity maxBatch : Nat) :
    Option (Causal κ) :=
  let config : CacheConfig :=
    { cachePadding := if config.cachePadding = 0 then 1 else config.cachePadding
      maskBatchPadding := if config.maskBatchPadding = 0 then 1 else config.maskBatchPadding }
  let window := if c.swaWindowSize = 0 then maxInt32 else c.swaWindowSize
  let memory := if c.swaMemorySize = 0 then window else c.swaMemorySize
  let memory := if memory > capacity then maxInt32 else memory
  if memory < window then none
  else
    let cacheSize :=
      if memory = maxInt32 then maxSequences * capacity
      else maxSequences * memory.toNat + maxBatch
    some { c with
      config, swaWindowSize := window, swaMemorySize := memory, maxBatch
      cells := List.replicate (roundUp cacheSize config.cachePadding) {}
      cellRanges := fun _ => none }

/-! ### Sliding window -/

/-- One turn of the loop that fills the map `lowestPos`, at the entry of `seq`. -/
def lowerPos (seq : Int) (low : Option Int) (e : Int × Int) : Option Int :=
  if e.1 = seq then
    match low with
    | none => some e.2
    | some pos => if e.2 < pos then some e.2 else some pos
  else low

/-- The lowest position of `seq` in the current batch. -/
def Causal.lowestPos (c : Causal κ) (seq : Int) : Option Int :=
  (c.curSequences.zip c.curPositions).foldl (lowerPos seq) none

/-- Whether cell `i` has fallen out of the memory of a sequence whose batch starts at `pos`. -/
def Causal.expired (c : Causal κ) (pos : Int) (i : Nat) : Bool :=
  decide ((c.cell i).pos < sub32 pos c.swaMemorySize)

def Causal.slideSeq (c : Causal κ) (seq pos : Int) : Causal κ :=
  match c.cellRanges seq with
  | none => c
  | some oldRange =>
    let mine := oldRange.indices.filter fun i => (c.cell i).sequences.contains seq
    let kept := mine.filter fun i => !c.expired pos i
    let seen := mine.filter fun i => sub32 pos c.swaWindowSize ≤ (c.cell i).pos
    { c with
      cells := c.cells.mapIdx fun i cell =>
        if oldRange.min ≤ i ∧ i ≤ oldRange.max ∧ c.expired pos i then cell.delete seq else cell
      cellRanges := Function.update c.cellRanges seq (some (kept.foldl CellRange.extend newRange))
      curCellRange := seen.foldl CellRange.extend c.curCellRange }

def Causal.updateSlidingWindow (c : Causal κ) : Causal κ :=
  let c := { c with curCellRange := newRange }
  if c.swaMemorySize = maxInt32 then
    { c with
      curCellRange := c.curSequences.foldl (fun r seq =>
        match c.cellRanges seq with
        | none => r
        | some seqRange => ⟨Nat.min r.min seqRange.min, Nat.max r.max seqRange.max⟩)
        c.curCellRange }
  else
    c.curSequences.dedup.foldl (fun c seq =>
      match c.lowestPos seq with
      | none => c
      | some pos => c.slideSeq seq pos) c

/-! ### Defragmentation -/

/-- A block of consecutive rows to be copied, as `moveCells` emits it. -/
structure Move where
  src : Nat
  dst : Nat
  length : Nat
  deriving DecidableEq

/-- The copy of a block; the rows are read before any is written. -/
def Move.copy (m : Move) (rows : Nat → κ) : Nat → κ := blockCopy m.src m.dst m.length rows

/-- `moveCells` adds one copy of keys and one of values for every layer to the graph. -/
def LayerTensors.moveCells (t : LayerTensors κ) (m : Move) : LayerTensors κ :=
  ⟨m.copy t.key, m.copy t.value⟩

/-- `ctx.Compute` on a graph of moves. -/
def compute (tensors : List (Option (LayerTensors κ))) (graph : List Move) :
    List (Option (LayerTensors κ)) :=
  graph.foldl (fun ts m => ts.map (·.map (·.moveCells m))) tensors

structure DefragState (κ : Type u) where
  cells : List CacheCell
  src : Nat
  pendingSrc : Nat := 0
  pendingDst : Nat := 0
  pendingLen : Nat := 0
  moves : Int := 0
  /-- copies added to the current context and not computed yet -/
  graph : List Move := []
  tensors : List (Option (LayerTensors κ))

/-- `for ; src > dst; src--`: the last cell in use at or before `src` and after `dst`. -/
def findSrc (cells : List CacheCell) (dst : Nat) : Nat → Option Nat
  | 0 => none
  | src + 1 =>
    if src + 1 > dst then
      if (cells.getD (src + 1) {}).free then findSrc cells dst src else some (src + 1)
    else none

def DefragState.moveCells (s : DefragState κ) : DefragState κ :=
  { s with graph := s.graph ++ [⟨s.pendingSrc, s.pendingDst, s.pendingLen⟩], moves := s.moves + 1 }

def DefragState.compute (s : DefragState κ) : DefragState κ :=
  { s with tensors := KvCache.compute s.tensors s.graph, graph := [], moves := 0 }

/-- What happens to a cell in use found at `src` for the hole at `dst`. -/
def DefragState.fill (s : DefragState κ) (dst src : Nat) : DefragState κ :=
  let s := { s with cells := (s.cells.set dst (s.cells.getD src {})).set src {}, src }
  if s.pendingLen > 0 then
    if src + s.pendingLen = s.pendingSrc ∧ dst = s.pendingDst + s.pendingLen then
      { s with pendingSrc := src, pendingLen := s.pendingLen + 1 }
    else
      { s.moveCells with pendingSrc := src, pendingDst := dst, pendingLen := 1 }
  else
    { s with pendingSrc := src, pendingDst := dst, pendingLen := 1 }

/-- One turn of the loop over `dst`. -/
def DefragState.step (maxMoves : Int) (s : DefragState κ) (dst : Nat) : DefragState κ :=
  let s :=
    if (s.cells.getD dst {}).free then
      match findSrc s.cells dst s.src with
      | some src => s.fill dst src
      | none => { s with src := dst }
    else s
  if s.moves ≥ maxMoves then s.compute else s

/-- `for dst := 0; dst < src; dst++`. Since `src` never grows, a turn with `dst ≥ src` ends the
loop: every later one is skipped too. -/
def DefragState.loop (maxMoves : Int) (s : DefragState κ) (n : Nat) : DefragState κ :=
  (List.range n).foldl (fun s dst => if dst < s.src then s.step maxMoves dst else s) s

/-- After the loop: the block still held back is copied and the last context computed. -/
def DefragState.finish (s : DefragState κ) : DefragState κ :=
  let s := if s.pendingLen > 0 then s.moveCells else s
  if s.moves > 0 then s.compute else s

def maxMoves (maxGraphNodes layers : Int) : Int := (maxGraphNodes - 2 * layers).tdiv (6 * layers)

def Causal.layers (c : Causal κ) : Nat := (c.tensors.filter Option.isSome).length

/-- The range of cells that `seq` occupies. -/
def rangeOf (cells : List CacheCell) (seq : Int) : CellRange :=
  ((List.range cells.length).filter fun i => (cells.getD i {}).sequences.contains seq).foldl
    CellRange.extend newRange

def Causal.defragCells (c : Causal κ) (maxGraphNodes : Int) : DefragState κ :=
  let s : DefragState κ := { cells := c.cells, src := c.cells.length - 1, tensors := c.tensors }
  (s.loop (maxMoves maxGraphNodes c.layers) c.cells.length).finish

def Causal.defrag (c : Causal κ) (maxGraphNodes : Int) : Causal κ :=
  let s := c.defragCells maxGraphNodes
  let c := { c with cells := s.cells, tensors := s.tensors }
  let c := { c with
    cellRanges := fun seq => (c.cellRanges seq).map fun _ => rangeOf c.cells seq }
  c.updateSlidingWindow

/-! ### Forward pass -/

/-- The first contiguous block of at least `curBatchSize` free cells. -/
def findStartLocFrom (batchSize : Nat) : List CacheCell → (i start count : Nat) → Option Nat
  | [], _, _, _ => none
  | cell :: cells, i, start, count =>
    if cell.free then
      if count + 1 ≥ batchSize then some start
      else findStartLocFrom batchSize cells (i + 1) start (count + 1)
    else findStartLocFrom batchSize cells (i + 1) (i + 1) 0

def Causal.findStartLoc (c : Causal κ) : Option Nat :=
  findStartLocFrom c.curBatchSize c.cells 0 0 0

/-- Whether row `i` of the mask hides cell `j`. -/
def Causal.masked (c : Causal κ) (i j : Nat) : Bool :=
  let enabled := !c.except.contains i
  let cell := c.cell j
  let pos := c.curPositions.getD i 0
  !cell.sequences.contains (c.curSequences.getD i 0) ||
    (enabled && decide (cell.pos > pos)) ||
    (decide (c.chunkSize > 0) && decide (cell.pos < sub32 pos (pos.tmod c.chunkSize))) ||
    decide (cell.pos < sub32 pos c.swaWindowSize)

def CellRange.pad (r : CellRange) (padding : Nat) : CellRange :=
  ⟨roundDown r.min padding, roundUp (r.max + 1) padding - 1⟩

def Causal.buildMask (c : Causal κ) : Causal κ :=
  let batchSize := roundUp c.curBatchSize c.config.maskBatchPadding
  let c := { c with curCellRange := c.curCellRange.pad c.config.cachePadding }
  if c.curReserve then
    { c with curMask := List.replicate batchSize (c.curCellRange.indices.map fun _ => false) }
  else
    { c with curMask := (List.range batchSize).map fun i => c.curCellRange.indices.map fun j =>
        if i < c.curBatchSize then c.masked i j else true }

/-- The cells, ranges and window of one batch entry. -/
def Causal.storeToken (c : Causal κ) (i : Nat) (pos seq : Int) : Causal κ :=
  { c with
    cells := c.cells.set (c.curLoc + i) { pos, sequences := [seq] }
    cellRanges := Function.update c.cellRanges seq
      (some (((c.cellRanges seq).getD newRange).extend (c.curLoc + i)))
    curCellRange := c.curCellRange.extend (c.curLoc + i) }

def Causal.storeBatch (c : Causal κ) : Causal κ :=
  (c.curPositions.zip c.curSequences).zipIdx.foldl (fun c e => c.storeToken e.2 e.1.1 e.1.2) c

/-- `StartForward` up to the choice of `curLoc`. -/
def Causal.prepare (c : Causal κ) (batch : Batch) (maxGraphNodes : Int) :
    Causal κ × Option CacheErr :=
  let c := { c with
    curReserve := false, curBatchSize := batch.positions.length
    curSequences := batch.sequences, curPositions := batch.positions, except := [] }
  let c := c.updateSlidingWindow
  match c.findStartLoc with
  | some loc => ({ c with curLoc := loc }, none)
  | none =>
    let c := c.defrag maxGraphNodes
    match c.findStartLoc with
    | some loc => ({ c with curLoc := loc }, none)
    | none => ({ c with curLoc := 0 }, some .kvCacheFull)

def Causal.startForward (c : Causal κ) (batch : Batch) (reserve : Bool) (maxGraphNodes : Int) :
    Causal κ × Option CacheErr :=
  if reserve then
    ({ c with
      curReserve := true, curBatchSize := batch.positions.length
      curSequences := batch.sequences, curPositions := batch.positions, except := []
      curLoc := 0, curCellRange := ⟨0, c.cells.length - 1⟩ }.buildMask, none)
  else
    match c.prepare batch maxGraphNodes with
    | (c, some err) => (c, some err)
    | (c, none) => (c.storeBatch.buildMask, none)

def Causal.setLayer (c : Causal κ) (layer : Nat) : Causal κ := { c with curLayer := layer }

/-- `SetCausal`; without a context the mask is not rebuilt. -/
def Causal.setCausal (c : Causal κ) (ctx : Bool) (except : List Nat) : Causal κ :=
  if c.except = except then c
  else
    let c := { c with except }
    if ctx then c.buildMask else c

/-- The first `size` rows of `batch` copied over the rows from `loc` on. -/
def storeRows (loc size : Nat) (batch rows : Nat → κ) : Nat → κ := fun j =>
  if loc ≤ j ∧ j < loc + size then batch (j - loc) else rows j

def Causal.storeLayer (c : Causal κ) (zero : κ) (key value : Nat → κ)
    (t : Option (LayerTensors κ)) : LayerTensors κ :=
  let t := t.getD ⟨fun _ => zero, fun _ => zero⟩
  ⟨storeRows c.curLoc c.curBatchSize key t.key, storeRows c.curLoc c.curBatchSize value t.value⟩

/-- `Put`: the rows of the batch are stored from `curLoc` on; a layer seen for the first time gets
tensors of zeros. -/
def Causal.put (c : Causal κ) (zero : κ) (key value : Nat → κ) : Causal κ :=
  let tensors := c.tensors ++ List.replicate (c.curLayer + 1 - c.tensors.length) none
  { c with tensors := tensors.modify c.curLayer fun t => some (c.storeLayer zero key value t) }

/-! ### Sequence management -/

def Causal.copyCell (srcSeq dstSeq len : Int) (cell : CacheCell) : CacheCell :=
  let cell := if cell.sequences.contains dstSeq then cell.delete dstSeq else cell
  if cell.sequences.contains srcSeq ∧ cell.pos < len then
    { cell with sequences := cell.sequences ++ [dstSeq] }
  else cell

def Causal.copyPrefix (c : Causal κ) (srcSeq dstSeq len : Int) : Causal κ :=
  let cells := c.cells.map (copyCell srcSeq dstSeq len)
  { c with
    cells
    cellRanges := Function.update c.cellRanges dstSeq (some (rangeOf cells dstSeq)) }

def Causal.canResume (c : Causal κ) (seq pos : Int) : Bool :=
  if c.swaMemorySize = maxInt32 then true
  else
    match c.cellRanges seq with
    | none => false
    | some seqRange =>
      let last := (seqRange.indices.filter fun i => (c.cell i).sequences.contains seq).foldl
        (fun last i => max last (c.cell i).pos) (-1)
      if last = -1 then false
      else max 0 (sub32 pos c.swaWindowSize) ≥ max 0 (sub32 last c.swaMemorySize)

/-- Whether `shift` rotates the row of a cell. -/
def CacheCell.shifts (cell : CacheCell) (seq beginIndex : Int) : Bool :=
  cell.sequences.contains seq && decide (cell.pos ≥ beginIndex)

/-- One batch of `shift`, the cells `start, …, start + size - 1`; `none` when `shiftFn` fails, in
which case the graph of the batch is dropped. -/
def Causal.shiftBatch (c : Causal κ) (fn : ShiftFn κ) (seq beginIndex offset : Int)
    (start size : Nat) : Option (Causal κ) :=
  let hits := (List.range' start size).filter fun i => (c.cell i).shifts seq beginIndex
  match hits.head?, hits.getLast? with
  | some first, some last =>
    if (List.range c.tensors.length).any fun l => (c.tensors.getD l none).isSome && fn.fails l then
      none
    else
      some { c with tensors := c.tensors.mapIdx fun l t => t.map fun t =>
        { t with key := fun j =>
            if first ≤ j ∧ j ≤ last then
              fn.rotate l (t.key j) (if (c.cell j).shifts seq beginIndex then offset else 0)
            else t.key j } }
  | _, _ => some c

def Causal.shiftBatches (c : Causal κ) (fn : ShiftFn κ) (seq beginIndex offset : Int)
    (seqRange : CellRange) : List Nat → Causal κ × Option CacheErr
  | [] => (c, none)
  | k :: ks =>
    let start := seqRange.min + k * c.maxBatch
    let size := Nat.min (seqRange.max + 1 - start) c.maxBatch
    match c.shiftBatch fn seq beginIndex offset start size with
    | none => (c, some .shiftFailed)
    | some c => c.shiftBatches fn seq beginIndex offset seqRange ks

/-- `for start := seqRange.min; start <= seqRange.max; start += c.maxBatch`. -/
def Causal.shift (c : Causal κ) (seq beginIndex offset : Int) : Causal κ × Option CacheErr :=
  match c.shiftFn with
  | none => (c, some .notSupported)
  | some fn =>
    let seqRange := (c.cellRanges seq).getD ⟨0, 0⟩
    c.shiftBatches fn seq beginIndex offset seqRange
      (List.range ((seqRange.max + 1 - seqRange.min + c.maxBatch - 1) / c.maxBatch))

/-- The loop of `Remove` over the cells from index `i` on: the cells and the range it leaves, and
whether it stopped at a shared cell that would have to be shifted. -/
def removeCells (seq beginIndex endIndex offset : Int) :
    List CacheCell → Nat → CellRange → List CacheCell × CellRange × Bool
  | [], _, r => ([], r, false)
  | cell :: cells, i, r =>
    if cell.sequences.contains seq then
      if cell.pos ≥ beginIndex ∧ cell.pos < endIndex then
        let (cells, r, shared) := removeCells seq beginIndex endIndex offset cells (i + 1) r
        (cell.delete seq :: cells, r, shared)
      else if cell.pos ≥ endIndex then
        if cell.sequences.any (· ≠ seq) then (cell :: cells, r, true)
        else
          let (cells, r, shared) :=
            removeCells seq beginIndex endIndex offset cells (i + 1) (r.extend i)
          ({ cell with pos := add32 cell.pos offset } :: cells, r, shared)
      else
        let (cells, r, shared) :=
          removeCells seq beginIndex endIndex offset cells (i + 1) (r.extend i)
        (cell :: cells, r, shared)
    else
      let (cells, r, shared) := removeCells seq beginIndex endIndex offset cells (i + 1) r
      (cell :: cells, r, shared)

def Causal.remove (c : Causal κ) (seq beginIndex endIndex : Int) : Causal κ × Option CacheErr :=
  let offset := if endIndex ≠ maxInt32 then sub32 beginIndex endIndex else 0
  let (cells, seqRange, shared) := removeCells seq beginIndex endIndex offset c.cells 0 newRange
  let c := { c with cells }
  if shared then (c, some .sharedCells)
  else if seqRange = newRange then
    ({ c with cellRanges := Function.update c.cellRanges seq none }, none)
  else
    let c := { c with cellRanges := Function.update c.cellRanges seq (some seqRange) }
    if endIndex ≠ maxInt32 then c.shift seq (add32 endIndex offset) offset else (c, none)

end Ecco9.KvCache
