import Ecco9.Runner.InputCache
import Ecco9.Runner.Stop

/-! The server of `runner/ollamarunner/runner.go`: sequences that share a batch, from the request to
the last token. Every step happens under the server's mutex. -/

universe u

namespace Ecco9.Runner

open Ecco9.Library

structure Sequence extends Stream where
  inputs : List Input
  pendingInputs : List Input := []
  /-- the slot of the input cache -/
  cache : Nat := 0
  iBatch : Nat := 0
  numPredict : Int
  numPredicted : Nat := 0
  numKeep : Nat
  embeddingOnly : Bool := false

inductive DoneReason
  | stop | length | connectionClosed
  deriving DecidableEq

structure Server (K : Type u) where
  seqs : List (Option Sequence)
  cache : InputCache K
  batchSize : Nat
  nextSeq : Nat := 0
  /-- what is taken of `seqsSem`, whose size is the number of `seqs` -/
  acquired : Nat := 0
  finished : List (Sequence × DoneReason) := []

def Server.seq (s : Server K) (i : Nat) : Option Sequence := (s.seqs[i]?).join

def Server.active (s : Server K) : Nat := s.seqs.countP Option.isSome

def Server.setSeq (s : Server K) (i : Nat) (seq : Option Sequence) : Server K :=
  { s with seqs := s.seqs.set i seq }

/-- What a call of `processBatch` gets from outside: embeddings, logits through the sampler (for
each sequence and row), the tokenizer, and whether a connection is closed when something is sent to
it, first while generating and then by `removeSequence`. -/
structure Env where
  getMultimodal : Nat → Option Nat
  sample : (seqIdx row : Nat) → Option Int
  isEOS : Int → Bool
  decode : Int → Option Text
  quit : Nat → Bool
  quitAtEnd : Nat → Bool

def Server.removeSequence (s : Server K) (env : Env) (seqIdx : Nat) (reason : DoneReason) :
    Server K :=
  match s.seq seqIdx with
  | none => s
  | some seq =>
    let seq := { seq with toStream := (seq.flushPending (env.quitAtEnd seqIdx)).1 }
    { s.setSeq seqIdx none with
      cache := s.cache.setSlot seq.cache fun slot => { slot with inUse := false }
      acquired := s.acquired - 1
      finished := s.finished ++ [(seq, reason)] }

/-! ### Building a batch -/

structure Building (K : Type u) where
  server : Server K
  batch : ForwardBatch := {}
  resumeSeq : Option Nat := none
  /-- the inputs that had to be put in front of a queue again, as they are logged -/
  requeued : List (Nat × List Input) := []

inductive Room (K : Type u)
  | yes (cache : InputCache K)
  | full
  | requeued (cache : InputCache K) (inputs : List Input)
  | failed

/-- Whether a sequence has room for `minBatch` more inputs in its context, shifting it if need be. -/
def InputCache.makeRoom (c : InputCache K) (ops : KvOps K) (seq : Sequence) (minBatch : Nat) :
    Room K :=
  if (c.slot seq.cache).inputs.length + seq.pendingInputs.length + minBatch > c.numCtx then
    if seq.pendingInputs.length ≠ 0 then .full
    else
      match c.shiftCacheSlot ops seq.cache seq.numKeep with
      | (c, .ok) => .yes c
      | (c, .reprocess inputs) => .requeued c inputs
      | (_, .error) => .failed
  else .yes c

/-- `batch` with one more input; `last` when it is the last one that the sequence has queued. -/
def ForwardBatch.push (b : ForwardBatch) (env : Env) (slot : InputCacheSlot) (pending : Nat)
    (inp : Input) (last : Bool) : Option ForwardBatch :=
  let entry : BatchEntry := ⟨inp, slot.inputs.length + pending, slot.id⟩
  let outputs := if last then b.outputs ++ [b.entries.length] else b.outputs
  match inp.multimodal with
  | none => some { b with entries := b.entries ++ [entry], outputs }
  | some handle =>
    match env.getMultimodal handle with
    | none => none
    | some mm => some {
        entries := b.entries ++ [entry]
        multimodal := b.multimodal ++ [(b.entries.length, mm)]
        outputs }

/-- The loop over the inputs of one sequence, `i` of which it has gone through. A sequence whose
inputs are queued again goes on with the inputs it had. -/
def Building.addInputs (ops : KvOps K) (env : Env) (seqIdx : Nat) :
    List Input → (i batchSize : Nat) → Building K → Sequence → Option (Building K × Sequence)
  | [], _, _, b, seq => some (b, seq)
  | inp :: inputs, i, batchSize, b, seq =>
    let minBatch := 1 + inp.sameBatch
    let batchSize := if minBatch > batchSize then minBatch else batchSize
    if b.batch.entries.length + minBatch > batchSize then
      let resumeSeq :=
        if seq.pendingInputs.length = 0 ∧ b.resumeSeq = none then some seqIdx else b.resumeSeq
      some ({ b with resumeSeq }, seq)
    else
      match b.server.cache.makeRoom ops seq minBatch with
      | .full => some (b, seq)
      | .failed => none
      | .requeued cache retained =>
        addInputs ops env seqIdx inputs (i + 1) batchSize
          { b with
            server := { b.server with cache }, requeued := b.requeued ++ [(seqIdx, retained)] }
          { seq with inputs := retained ++ seq.inputs }
      | .yes cache =>
        let last := i + 1 = seq.inputs.length
        match b.batch.push env (cache.slot seq.cache) seq.pendingInputs.length inp last with
        | none => none
        | some batch =>
          addInputs ops env seqIdx inputs (i + 1) batchSize
            { b with server := { b.server with cache }, batch }
            { seq with
              iBatch := b.batch.outputs.length, pendingInputs := seq.pendingInputs ++ [inp] }

/-- One turn of the loop over the sequences. -/
def Building.visit (ops : KvOps K) (env : Env) (b : Building K) (seqIdx : Nat) :
    Option (Building K) :=
  match b.server.seq seqIdx with
  | none => some b
  | some seq =>
    if seq.numPredict > 0 ∧ seq.numPredicted ≥ seq.numPredict then
      some { b with server := b.server.removeSequence env seqIdx .length }
    else
      match b.addInputs ops env seqIdx seq.inputs 0 b.server.batchSize seq with
      | none => none
      | some (b, seq) =>
        let seq := { seq with inputs := seq.inputs.drop seq.pendingInputs.length }
        some { b with server := b.server.setSeq seqIdx (some seq) }

/-- The sequences in the order in which a batch takes them. -/
def Server.order (s : Server K) : List Nat :=
  (List.range s.seqs.length).map fun k => (s.nextSeq + k) % s.seqs.length

def Server.buildBatch (ops : KvOps K) (env : Env) (s : Server K) : Option (Building K) :=
  match s.order.foldlM (Building.visit ops env) { server := s } with
  | none => none
  | some b =>
    let nextSeq := match b.resumeSeq with
      | some seqIdx => seqIdx
      | none => (s.nextSeq + (s.seqs.length - 1)) % s.seqs.length + 1
    some { b with server := { b.server with nextSeq } }

/-! ### After `Forward` -/

structure Finishing (K : Type u) where
  server : Server K
  sampled : List (Nat × Input) := []

/-- The inputs that stay in the cache when a stop was hit; `none` where the slice is out of range. -/
def inputsAtStop (inputs : List Input) (origLen newLen : Nat) (tokenTruncated : Bool) :
    Option (List Input) :=
  let cut := origLen - newLen + if tokenTruncated || origLen = newLen then 1 else 0
  if cut > inputs.length + 1 then none else some (inputs.take (inputs.length + 1 - cut))

/-- The sampled token of a sequence that has no inputs left. -/
def Finishing.sample (env : Env) (outputs : List Nat) (f : Finishing K) (i : Nat)
    (seq : Sequence) : Option (Finishing K) :=
  if seq.iBatch < outputs.length then
    match env.sample i seq.iBatch with
    | none => none
    | some token =>
      if env.isEOS token then some { f with server := f.server.removeSequence env i .stop }
      else
        match env.decode token with
        | none => none
        | some piece =>
          let inp : Input := { token := token }
          let seq := { seq with inputs := [inp] }
          let f := { f with sampled := f.sampled ++ [(i, inp)] }
          match seq.toStream.addPiece piece (env.quit i) with
          | .more stream =>
            some { f with server := f.server.setSeq i (some { seq with toStream := stream }) }
          | .closed stream =>
            some { f with server := (f.server.setSeq i (some { seq with toStream := stream }))
              |>.removeSequence env i .connectionClosed }
          | .stopped stream origLen tokenTruncated =>
            match inputsAtStop (f.server.cache.slot seq.cache).inputs origLen
                stream.pendingResponses.length tokenTruncated with
            | none => none
            | some inputs =>
              let server := f.server.setSeq i (some { seq with toStream := stream })
              let cache := server.cache.setInputs seq.cache inputs
              some { f with server := { server with cache }.removeSequence env i .stop }
  else none

/-- One turn of the loop over the sequences after `Forward`. -/
def Finishing.visit (env : Env) (outputs : List Nat) (f : Finishing K) (i : Nat) :
    Option (Finishing K) :=
  match f.server.seq i with
  | none => some f
  | some seq =>
    -- the pending inputs are in the cache now
    let cache := f.server.cache.setInputs seq.cache
      ((f.server.cache.slot seq.cache).inputs ++ seq.pendingInputs)
    let seq := { seq with pendingInputs := [] }
    let f := { f with server := { f.server with cache }.setSeq i (some seq) }
    if seq.inputs.length ≠ 0 then some f
    else
      let seq := { seq with numPredicted := seq.numPredicted + 1 }
      let f := { f with server := f.server.setSeq i (some seq) }
      if seq.embeddingOnly then some { f with server := f.server.removeSequence env i .stop }
      else f.sample env outputs i seq

/-- What a call of `processBatch` has done. -/
structure Processed (K : Type u) where
  server : Server K
  building : Building K
  sampled : List (Nat × Input)

/-- `processBatch`, called with at least one sequence; `none` where it fails, which ends the
server. -/
def Server.processBatch (ops : KvOps K) (env : Env) (s : Server K) : Option (Processed K) :=
  match s.buildBatch ops env with
  | none => none
  | some b =>
    if b.batch.entries.length = 0 then some ⟨b.server, b, []⟩
    else
      match ops.forward b.server.cache.cache b.batch with
      | (_, false) => none
      | (cache, true) =>
        let server := { b.server with cache := { b.server.cache with cache } }
        match (List.range server.seqs.length).foldlM (Finishing.visit env b.batch.outputs)
            { server } with
        | none => none
        | some f => some ⟨f.server, b, f.sampled⟩

/-! ### Requests -/

/-- A request has a place among the sequences. -/
def Server.acquire (s : Server K) : Option (Server K) :=
  if s.acquired < s.seqs.length then some { s with acquired := s.acquired + 1 } else none

/-- The slot assignment of `completion`: the index of the new sequence. -/
def Server.completion (ops : KvOps K) (s : Server K) (seq : Sequence) : Server K × Option Nat :=
  match s.seqs.findIdx? Option.isNone with
  | none => ({ s with acquired := s.acquired - 1 }, none)
  | some i =>
    match s.cache.loadCacheSlot ops seq.inputs with
    | (cache, none) => ({ s with cache, acquired := s.acquired - 1 }, none)
    | (cache, some (slot, inputs)) =>
      ({ s with cache }.setSeq i (some { seq with cache := slot, inputs }), some i)

end Ecco9.Runner
