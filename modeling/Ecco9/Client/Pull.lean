import Ecco9.Blob.Chunked
import Ecco9.Library.Runs

/-! `Registry.Pull` of `server/internal/client/ollama/registry.go`, one pull after another on a cache: the
loop over the layers and over their chunks, and beside it the downloads that it has started, each of which
reads and writes in its own time. The disk always takes what is written. -/

namespace Ecco9.Client

open Ecco9.Library Ecco9.Blob

structure Layer where
  digest : Digest
  size : Nat
  deriving DecidableEq

structure Manifest where
  name : Text
  data : Bytes
  layers : List Layer
  config : Option Layer
  deriving DecidableEq

/-- `IsValid` -/
def isValid (d : Digest) : Bool := d.sum ≠ List.replicate 32 0

/-- The layers that are pulled, the configuration behind the others. -/
def Manifest.all (m : Manifest) : List Layer :=
  match m.config with
  | some config => if isValid config.digest then m.layers ++ [config] else m.layers
  | none => m.layers

def Manifest.expected (m : Manifest) : Nat := (m.all.map Layer.size).sum

/-- `chunksums`, where `words` is what the registry lists of the layer. -/
def chunksums (threshold : Nat) (l : Layer) (words : List Text) : List Chunksum :=
  if l.size < threshold then [⟨⟨0, (l.size : Int) - 1⟩, l.digest⟩] else readChunksums words

/-- The download of a chunk, and what it has read and written. The blob of a layer that was found to be
there when it was opened is not written. -/
structure Download where
  layer : Layer
  cs : Chunksum
  validated : Bool
  h : Bytes := []
  deriving DecidableEq

/-- Where the loop over the layers stands: before a layer, at one that is not in the cache, or at the
chunks of one. -/
inductive Turn
  | next
  | missing (l : Layer)
  | chunks (l : Layer) (validated : Bool) (todo : List Chunksum)

structure Pull where
  m : Manifest
  threshold : Nat
  todo : List Layer
  turn : Turn := .next
  downloads : List Download := []
  completed : Nat := 0
  failed : Bool := false

/-- The cache, the pull that is running, and the manifests of those that returned `nil`. -/
structure State where
  cache : DiskCache := {}
  pull : Option Pull := none
  pulled : List Manifest := []

inductive Event
  /-- A pull is begun, with the manifest that the registry serves. -/
  | pull (name : Text) (data : Bytes) (threshold : Nat)
  /-- The loop looks for the next layer in the cache. -/
  | layer
  /-- It opens the blob of one that is not there, and has its chunks listed. -/
  | open (words : List Text)
  /-- It goes on to the next chunk. -/
  | chunk
  /-- A download reads from its response, and writes what it read. -/
  | read (i : Nat) (p : Bytes)
  /-- The request or the response of a download fails or ends too early. -/
  | fail (i : Nat)
  /-- A download that is done records its chunk. -/
  | record (i : Nat)
  /-- All downloads have ended. -/
  | finish

section

-- SHA-256, and the layers and the configuration of a manifest
variable (sum256 : Bytes → Digest) (unmarshal : Bytes → Option (List Layer × Option Layer))

def State.start (s : State) (name : Text) (data : Bytes) (threshold : Nat) : State :=
  match unmarshal data with
  | none => s
  | some (layers, config) =>
    if layers = [] then s
    else
      let m : Manifest := { name, data, layers, config }
      { s with pull := some { m, threshold, todo := m.all } }

def State.layer (s : State) (p : Pull) : State :=
  match p.turn, p.todo with
  | .next, l :: todo =>
    if s.cache.get l.digest = some l.size then
      { s with pull := some { p with todo, completed := p.completed + l.size } }
    else { s with pull := some { p with todo, turn := .missing l } }
  | _, _ => s

/-- `Chunked`, and the request of `chunksums`. -/
def State.open (s : State) (p : Pull) (words : List Text) : State :=
  match p.turn with
  | .missing l =>
    let todo := chunksums p.threshold l words
    if (s.cache.blobs l.digest).map List.length = some l.size then
      { s with pull := some { p with turn := .chunks l true todo } }
    else
      { s with cache := s.cache.create l.digest, pull := some { p with turn := .chunks l false todo } }
  | _ => s

def State.chunk (s : State) (p : Pull) : State :=
  match p.turn with
  | .chunks _ _ [] => { s with pull := some { p with turn := .next } }
  | .chunks l validated (cs :: todo) =>
    let p := { p with turn := .chunks l validated todo }
    if (s.cache.get (sum256 (cacheKey l.digest cs))).isSome then
      { s with pull := some { p with completed := p.completed + cs.chunk.size } }
    else
      { s with pull := some { p with downloads := p.downloads ++ [{ layer := l, cs, validated }] } }
  | _ => s

/-- `checkWriter.Write`. -/
def Download.write (x : Download) (p : Bytes) : Option Download :=
  let h := x.h ++ p
  if h.length = x.cs.chunk.size ∧ sum256 h ≠ x.cs.digest then none
  else if h.length > x.cs.chunk.size then none
  else some { x with h }

/-- One turn of `io.CopyN`: what is read is counted, and no more of it than the chunk still needs. -/
def State.read (s : State) (p : Pull) (i : Nat) (bytes : Bytes) : State :=
  match p.downloads[i]? with
  | none => s
  | some x =>
    if x.validated ∨ bytes = [] ∨ x.h.length + bytes.length > x.cs.chunk.size then s
    else
      let p := { p with completed := p.completed + bytes.length }
      match x.write sum256 bytes with
      | none => { s with pull := some { p with downloads := p.downloads.eraseIdx i, failed := true } }
      | some y =>
        { s with
          cache := s.cache.writeAt x.layer.digest (x.cs.chunk.start + x.h.length) bytes
          pull := some { p with downloads := p.downloads.set i y } }

/-- `chunked.Put` has returned `nil`, or will when it is called. -/
def Download.Done (x : Download) : Prop := x.validated = true ∨ x.h.length = x.cs.chunk.size

instance (x : Download) : Decidable x.Done := inferInstanceAs (Decidable (_ ∨ _))

def State.fail (s : State) (p : Pull) (i : Nat) : State :=
  match p.downloads[i]? with
  | none => s
  | some x =>
    if x.validated ∨ ¬x.Done then
      { s with pull := some { p with downloads := p.downloads.eraseIdx i, failed := true } }
    else s

/-- `PutBytes` of the record. -/
def State.record (s : State) (p : Pull) (i : Nat) : State :=
  match p.downloads[i]? with
  | none => s
  | some x =>
    if x.Done then
      let key := cacheKey x.layer.digest x.cs
      let (cache, ok) := s.cache.put sum256 (sum256 key) ⟨key, true⟩ key.length
      { s with
        cache
        pull := some { p with downloads := p.downloads.eraseIdx i, failed := p.failed || !ok } }
    else s

/-- What stands behind the loop. The bytes are counted in 64 bits. -/
def State.finish (s : State) (p : Pull) : State :=
  match p.turn, p.todo, p.downloads with
  | .next, [], [] =>
    if p.failed then { s with pull := none }
    else if p.completed % 2 ^ 64 ≠ p.m.expected % 2 ^ 64 then { s with pull := none }
    else
      let md := sum256 p.m.data
      match s.cache.put sum256 md ⟨p.m.data, true⟩ p.m.data.length with
      | (cache, false) => { s with cache, pull := none }
      | (cache, true) =>
        match cache.link sum256 p.m.name md with
        | (cache, false) => { s with cache, pull := none }
        | (cache, true) => { s with cache, pull := none, pulled := p.m :: s.pulled }
  | _, _, _ => s

/-- One pull runs at a time. -/
def State.step (s : State) (e : Event) : State :=
  match s.pull, e with
  | none, .pull name data threshold => s.start unmarshal name data threshold
  | some p, .layer => s.layer p
  | some p, .open words => s.open p words
  | some p, .chunk => s.chunk sum256 p
  | some p, .read i bytes => s.read sum256 p i bytes
  | some p, .fail i => s.fail p i
  | some p, .record i => s.record sum256 p i
  | some p, .finish => s.finish sum256 p
  | _, _ => s

end

end Ecco9.Client
