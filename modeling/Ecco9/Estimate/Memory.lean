import Mathlib.Algebra.GroupWithZero.Nat
import Mathlib.Algebra.BigOperators.Group.List.Basic
import Mathlib.Order.Lattice

/-! `EstimateGPULayers` of `llm/memory.go`. Sizes are in bytes. -/

namespace Ecco9.Estimate

inductive Library
  | cpu
  | metal
  | other
  deriving DecidableEq

/-- What the estimate reads of a GPU. -/
structure Gpu where
  freeMemory : Nat
  minimumMemory : Nat

/-- What the estimate reads of the model: the sizes of its groups of tensors, `VisionGraphSize`,
`GraphSize` and some of its keys. `GraphSize` gives one entry of `kv` for each block. -/
structure Model where
  blockCount : Nat
  blk : Nat → Option Nat
  outputNorm : Option Nat := none
  output : Option Nat := none
  tokenEmbd : Option Nat := none
  visionWeights : Nat := 0
  visionGraph : Nat := 0
  kv : Nat → Nat
  graphPartialOffload : Nat
  graphFullOffload : Nat
  headCountKVMin : Nat := 1
  headCountMax : Nat := 1

structure Options where
  numGPU : Int := -1
  overhead : Nat := 0
  /-- `projectorMemoryRequirements` of each projector -/
  projectors : List Nat := []

namespace Model

variable (m : Model) (o : Options) (library : Library) (gpus : List Gpu)

def kvTotal : Nat := ((List.range m.blockCount).map m.kv).sum

/-- The layer that is kept free as a buffer on each GPU. -/
def buffer : Nat := (m.blk 0).getD 0 + if m.blockCount > 0 then m.kv 0 else 0

/-- `graphPartialOffload` and `graphFullOffload` -/
def graphs : Nat × Nat :=
  let headsKV := if m.headCountKVMin = 0 then 1 else m.headCountKVMin
  let gqa := m.headCountMax / headsKV
  let part := if m.graphPartialOffload = 0 then gqa * m.kvTotal / 6 else m.graphPartialOffload
  let full := if m.graphFullOffload = 0 then part else m.graphFullOffload
  if library = .metal then (full, full)
  else if gpus.length > 1 then (part, part)
  else (part, full)

/-- `max(graphPartialOffload, graphFullOffload)` -/
def graph : Nat := max (m.graphs library gpus).1 (m.graphs library gpus).2

def memoryLayerOutput : Nat :=
  m.outputNorm.getD 0 +
    match m.output with
    | some size => size
    | none => m.tokenEmbd.getD 0

def gpuZeroOverhead (o : Options) : Nat := o.projectors.sum

/-- The output layer and what is loaded with it. -/
def memoryLastLayer : Nat :=
  m.memoryLayerOutput + if gpuZeroOverhead o = 0 then m.visionWeights + m.visionGraph else 0

end Model

/-- The state of the loops. -/
structure Alloc where
  gpusWithSpace : List Nat := []
  gpuAllocations : Nat → Nat := fun _ => 0
  layerCounts : Nat → Nat := fun _ => 0
  layerCount : Nat := 0
  layerSize : Nat := 0
  overflow : Nat := 0

def Alloc.allocate (a : Alloc) (g size : Nat) : Alloc :=
  { a with gpuAllocations := fun j => if j = g then a.gpuAllocations j + size else a.gpuAllocations j }

/-- A layer of this size goes to the GPU. -/
def Alloc.put (a : Alloc) (g size : Nat) : Alloc :=
  { a.allocate g size with
    layerCounts := fun j => if j = g then a.layerCounts j + 1 else a.layerCounts j
    layerCount := a.layerCount + 1 }

structure MemoryEstimate where
  layers : Nat := 0
  graph : Nat := 0
  vramSize : Nat := 0
  totalSize : Nat
  /-- empty for one GPU -/
  tensorSplit : List Nat := []
  gpuSizes : List Nat := []

section

variable (m : Model) (o : Options) (library : Library) (gpus : List Gpu)

def freeMemory (g : Nat) : Nat := (gpus[g]?.map (·.freeMemory)).getD 0

def minimumMemory (g : Nat) : Nat := (gpus[g]?.map (·.minimumMemory)).getD 0

/-- Whether the GPU has space for more of this size. -/
def hasSpace (a : Alloc) (g size : Nat) : Bool :=
  freeMemory gpus g > o.overhead + (a.gpuAllocations g + m.graph library gpus) + size

/-- The GPUs that can fit the graph, the minimum, the buffer and one more layer. -/
def findSpace (a : Alloc) (i : Nat) : Alloc :=
  let gzo := if a.gpusWithSpace = [] then Model.gpuZeroOverhead o else 0
  if freeMemory gpus i <
      o.overhead + gzo + m.graph library gpus + minimumMemory gpus i + 2 * m.buffer then a
  else
    { a.allocate i (minimumMemory gpus i + m.buffer) with
      gpusWithSpace := a.gpusWithSpace ++ [i] }

def startSpace : Alloc :=
  let a := (List.range gpus.length).foldl (findSpace m o library gpus)
    { layerSize := m.buffer }
  match a.gpusWithSpace with
  | [] => { a with overflow := Model.gpuZeroOverhead o }
  | g :: _ => a.allocate g (Model.gpuZeroOverhead o)

/-- The inner loop for the layer `i`, with `j` GPUs left to try. -/
def placeLayer (i : Nat) : Nat → Alloc → Alloc
  | 0, a => a
  | j + 1, a =>
    match a.gpusWithSpace[i % (j + 1)]? with
    | none => a
    | some g =>
      if hasSpace m o library gpus a g a.layerSize then a.put g a.layerSize
      else placeLayer i j { a with gpusWithSpace := a.gpusWithSpace.eraseIdx (i % (j + 1)) }

/-- One turn of the loop over the layers. -/
def layerTurn (a : Alloc) (i : Nat) : Alloc :=
  let a := match m.blk i with
    | some size => { a with layerSize := size + m.kv i }
    | none => a
  if o.numGPU ≥ 0 ∧ a.layerCount ≥ o.numGPU then { a with overflow := a.overflow + a.layerSize }
  else
    let a := placeLayer m o library gpus i a.gpusWithSpace.length a
    if a.gpusWithSpace = [] then { a with overflow := a.overflow + a.layerSize } else a

/-- The loop that finds where the output fits, with `j` GPUs left to try. -/
def placeOutput : Nat → Alloc → Alloc
  | 0, a => a
  | j + 1, a =>
    match a.gpusWithSpace[a.layerCount % (j + 1)]? with
    | none => a
    | some g =>
      if hasSpace m o library gpus a g (m.memoryLastLayer o) then a.put g (m.memoryLastLayer o)
      else placeOutput j a

/-- All layers, from the last. -/
def placeLayers : Alloc :=
  (List.range m.blockCount).reverse.foldl (layerTurn m o library gpus) (startSpace m o library gpus)

/-- Where the layers and the output go, before the graph is added. -/
def place : Alloc :=
  let a := placeLayers m o library gpus
  if m.memoryLastLayer o > 0 then
    let a := if o.numGPU < 0 ∨ a.layerCount < o.numGPU then
        placeOutput m o library gpus a.gpusWithSpace.length a
      else a
    if a.layerCount < m.blockCount + 1 then { a with overflow := a.overflow + m.memoryLastLayer o }
    else a
  else a

def fullyLoaded : Bool :=
  (placeLayers m o library gpus).layerCount ≥ m.blockCount &&
    (m.memoryLastLayer o = 0 || (place m o library gpus).layerCount ≥ m.blockCount + 1)

/-- The graph that a GPU gets which has layers. -/
def graphOffload : Nat :=
  if fullyLoaded m o library gpus then (m.graphs library gpus).2 else (m.graphs library gpus).1

def gpuSize (j : Nat) : Nat :=
  (place m o library gpus).gpuAllocations j +
    if (place m o library gpus).layerCounts j = 0 then 0 else graphOffload m o library gpus

def estimateGPULayers : MemoryEstimate :=
  let a := place m o library gpus
  let gpuSizes := (List.range gpus.length).map (gpuSize m o library gpus)
  let totalSize := gpuSizes.sum + a.overflow
  if library = .cpu ∨ a.layerCount = 0 then { totalSize }
  else {
    layers := a.layerCount
    graph := graphOffload m o library gpus
    vramSize := gpuSizes.sum
    totalSize := totalSize
    tensorSplit := if gpus.length > 1 then (List.range gpus.length).map a.layerCounts else []
    gpuSizes := gpuSizes
  }

end

end Ecco9.Estimate
