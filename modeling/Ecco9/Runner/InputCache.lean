import Ecco9.Library.MachineInt
import Mathlib.Data.List.Basic

/-! The input cache of `runner/ollamarunner/cache.go`: which slot of the KV cache a prompt is loaded
into, and how a slot that is full is shifted. -/

universe u

namespace Ecco9.Runner

open Ecco9.Library

structure Input where
  token : Int
  /-- a handle of the element in the multimodal store -/
  multimodal : Option Nat := none
  multimodalHash : Nat := 0
  sameBatch : Nat := 0
  deriving DecidableEq

/-- One token of a batch: `Inputs`, `Positions` and `Sequences` at one index. -/
structure BatchEntry where
  input : Input
  position : Nat
  sequence : Int
  deriving DecidableEq

structure ForwardBatch where
  entries : List BatchEntry := []
  multimodal : List (Nat × Nat) := []
  outputs : List Nat := []
  deriving DecidableEq

/-- The KV cache and the model over it: `kvcache.Cache` as the runner uses it, and `model.Forward`.
An operation that fails still leaves a cache behind. -/
structure KvOps (K : Type u) where
  canResume : K → (seq pos : Int) → Bool
  remove : K → (seq beginIndex endIndex : Int) → K × Bool
  copyPrefix : K → (srcSeq dstSeq len : Int) → K
  forward : K → ForwardBatch → K × Bool

structure InputCacheSlot where
  id : Int
  inputs : List Input := []
  inUse : Bool := false
  lastUsed : Nat := 0
  deriving DecidableEq

structure InputCache (K : Type u) where
  numCtx : Nat
  slots : List InputCacheSlot
  multiUserCache : Bool
  cache : K
  /-- the clock, `time.Now` -/
  now : Nat := 1

def InputCache.slot (c : InputCache K) (i : Nat) : InputCacheSlot := c.slots.getD i { id := i }

def InputCache.setSlot (c : InputCache K) (i : Nat) (f : InputCacheSlot → InputCacheSlot) :
    InputCache K := { c with slots := c.slots.modify i f }

def InputCache.setInputs (c : InputCache K) (i : Nat) (inputs : List Input) : InputCache K :=
  c.setSlot i fun s => { s with inputs }

/-- `NewInputCache`, for a model whose cache is `cache`. -/
def newInputCache (cache : K) (kvSize numSlots : Nat) (multiUserCache : Bool) :
    Option (InputCache K) :=
  let numCtx := kvSize / numSlots
  if numCtx < 1 then none
  else
    let slots := (List.range numSlots).map fun i : Nat => { id := i }
    some { numCtx, slots, multiUserCache, cache }

def Input.same (a b : Input) : Bool :=
  decide (a.token = b.token) && decide (a.multimodalHash = b.multimodalHash)

def countCommonPrefix : List Input → List Input → Nat
  | a :: as, b :: bs => if a.same b then countCommonPrefix as bs + 1 else 0
  | _, _ => 0

/-! ### Choosing a slot -/

/-- The loop of `findLongestCacheSlot` from slot `i` on. -/
def findLongestFrom (prompt : List Input) :
    List InputCacheSlot → (i : Nat) → (longest : Option (Nat × Nat)) → Option (Nat × Nat)
  | [], _, longest => longest
  | s :: slots, i, longest =>
    if s.inUse then findLongestFrom prompt slots (i + 1) longest
    else
      let count := countCommonPrefix s.inputs prompt
      findLongestFrom prompt slots (i + 1)
        (if ∀ l ∈ longest, l.2 < count then some (i, count) else longest)

def InputCache.findLongestCacheSlot (c : InputCache K) (prompt : List Input) : Option (Nat × Nat) :=
  findLongestFrom prompt c.slots 0 none

/-- The loop of `findBestCacheSlot` from slot `i` on: the slot with the longest prefix and that
prefix, and the slot that was not used for the longest time. -/
def findBestFrom (prompt : List Input) :
    List InputCacheSlot → (i : Nat) → (longest : Option (Nat × Nat)) → (oldest : Nat) →
      (oldestSlot : Option Nat) → Option (Nat × Nat) × Option Nat
  | [], _, longest, _, oldestSlot => (longest, oldestSlot)
  | s :: slots, i, longest, oldest, oldestSlot =>
    let count := countCommonPrefix s.inputs prompt
    let longest := if ∀ l ∈ longest, l.2 < count then some (i, count) else longest
    if s.lastUsed < oldest ∧ !s.inUse then
      findBestFrom prompt slots (i + 1) longest s.lastUsed (some i)
    else findBestFrom prompt slots (i + 1) longest oldest oldestSlot

/-- `findBestCacheSlot`; `none` where it fails or dereferences a slot it did not find. -/
def InputCache.findBestCacheSlot (c : InputCache K) (ops : KvOps K) (prompt : List Input) :
    InputCache K × Option (Nat × Nat) :=
  match findBestFrom prompt c.slots 0 none c.now none with
  | (none, _) => (c, none)
  | (some (longestSlot, longest), oldestSlot) =>
    if longest = (c.slot longestSlot).inputs.length ∧ !(c.slot longestSlot).inUse then
      (c, some (longestSlot, longest))
    else
      match oldestSlot with
      | none => (c, none)
      | some oldestSlot =>
        if (c.slot oldestSlot).inUse then (c, none)
        else if longest > 0 ∧ longestSlot ≠ oldestSlot then
          let inputs := (c.slot longestSlot).inputs.take longest
          let cache :=
            ops.copyPrefix c.cache (c.slot longestSlot).id (c.slot oldestSlot).id longest
          ({ c.setInputs oldestSlot inputs with cache },
            some (oldestSlot, longest))
        else (c, some (oldestSlot, longest))

/-- Chooses the slot and the length of the prefix that is in the cache already. -/
def InputCache.findSlot (c : InputCache K) (ops : KvOps K) (prompt : List Input) :
    InputCache K × Option (Nat × Nat) :=
  if c.multiUserCache then c.findBestCacheSlot ops prompt
  else (c, c.findLongestCacheSlot prompt)

/-- Drops what the slot holds from `numPast` on, or all of it where that is not supported. -/
def InputCache.truncate (c : InputCache K) (ops : KvOps K) (i numPast : Nat) :
    InputCache K × Option Nat :=
  let id := (c.slot i).id
  let numPast := if numPast > 0 ∧ !ops.canResume c.cache id numPast then 0 else numPast
  match ops.remove c.cache id numPast maxInt32 with
  | (cache, true) => ({ c with cache }, some numPast)
  | (cache, false) =>
    match ops.remove cache id 0 maxInt32 with
    | (cache, true) => ({ c with cache }, some 0)
    | (cache, false) => ({ c with cache }, none)

/-- `LoadCacheSlot`: the slot and the inputs that remain to be processed. -/
def InputCache.loadCacheSlot (c : InputCache K) (ops : KvOps K) (prompt : List Input) :
    InputCache K × Option (Nat × List Input) :=
  match c.findSlot ops prompt with
  | (c, none) => (c, none)
  | (c, some (i, numPast)) =>
    let c := { c.setSlot i fun s => { s with inUse := true, lastUsed := c.now + 1 } with
      now := c.now + 2 }
    -- one input is left to sample from
    let numPast := if numPast = prompt.length then numPast - 1 else numPast
    match c.truncate ops i numPast with
    | (c, none) => (c, none)
    | (c, some numPast) =>
      (c.setInputs i (prompt.take numPast), some (i, prompt.drop numPast))

/-! ### Shifting -/

def shiftDiscard (numCtx inputLen numKeep : Nat) : Nat :=
  let targetFree := Nat.max ((numCtx - numKeep) / 2) 1
  targetFree + inputLen - numCtx

/-- The inputs without the `discard` ones that follow the first `numKeep`. -/
def keepInputs (inputs : List Input) (numKeep discard : Nat) : List Input :=
  inputs.take numKeep ++ inputs.drop (numKeep + discard)

inductive ShiftResult
  | ok
  | reprocess (inputs : List Input)
  | error
  deriving DecidableEq

def InputCache.shiftCacheSlot (c : InputCache K) (ops : KvOps K) (i numKeep : Nat) :
    InputCache K × ShiftResult :=
  if numKeep ≥ c.numCtx then (c, .error)
  else
    let inputs := (c.slot i).inputs
    let id := (c.slot i).id
    let discard := shiftDiscard c.numCtx inputs.length numKeep
    if discard = 0 then (c, .ok)
    else
      let kept := keepInputs inputs numKeep discard
      match ops.remove c.cache id numKeep (numKeep + discard) with
      | (cache, true) => ({ c.setInputs i kept with cache }, .ok)
      | (cache, false) =>
        let cache := (ops.remove cache id 0 maxInt32).1
        ({ c.setInputs i [] with cache }, .reprocess kept)

end Ecco9.Runner
