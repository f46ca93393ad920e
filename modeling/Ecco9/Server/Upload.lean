import Ecco9.Library.Cuts
import Mathlib.Logic.Function.Basic

/-! `blobUpload` of `server/upload.go`: the uploads that calls of `uploadBlob` share by digest, and
one step for each request, operation on a channel and access to `blobUploadManager`. -/

universe u v

namespace Ecco9.Server.Upload

def numUploadParts : Nat := 16
def minUploadPartSize : Nat := 100 * 1000000
def maxUploadPartSize : Nat := 1000 * 1000000
def maxRetries : Nat := 6

/-- `blobUploadPart`, with the bytes that its hash has been fed, once it has one. -/
structure Part where
  offset : Nat
  size : Nat
  hash : Option (List UInt8) := none
  deriving DecidableEq

/-- Where the goroutine of a part is. The head of `tries` is the attempt in the innermost loop: the
request is a `PATCH` in the only loop, and a `PUT` in the loops that redirects have started. -/
inductive Task
  | waiting
  /-- passed over by the loop of `Run` -/
  | skipped
  /-- a request for which so many bytes of the part have been read -/
  | sending (tries : List Nat) (written : Nat)
  /-- at `b.nextURL <- nextURL`, of a part that is accepted or else redirected -/
  | offering (tries : List Nat) (accepted : Bool)
  | returned (ok : Bool)
  deriving DecidableEq

def Task.active : Task → Bool
  | .sending .. | .offering .. => true
  | _ => false

def Task.ended : Task → Bool
  | .skipped | .returned _ => true
  | _ => false

/-- The bytes that a part has in `Completed`. -/
def Task.written (size : Nat) : Task → Nat
  | .sending _ written => written
  | .offering _ true | .returned true => size
  | _ => 0

abbrev Worker := Part × Task

/-- A checksum of the checksums of all parts, and their number. -/
abbrev Etag := List UInt8 × Nat

/-- What the registry has been sent. -/
inductive Event (δ : Type v)
  /-- a part that it has accepted for an upload -/
  | accepted (id : Nat) (offset size : Nat)
  | commit (id : Nat) (digest : δ) (etag : Etag)
  deriving DecidableEq

/-- Where `Run` is. -/
inductive Phase
  /-- not started: the call of `uploadBlob` is in `Prepare` -/
  | preparing (call : Nat)
  | launched
  /-- at part `i` of the loop, with a URL for it if `taken` -/
  | loop (i : Nat) (taken : Bool)
  /-- at `<-b.nextURL` behind `g.Wait` -/
  | taking
  | committing (attempt : Nat) (etag : Etag)
  /-- only the deferred call is left -/
  | returning
  | returned
  deriving DecidableEq

structure BlobUpload (ρ : Type u) (δ : Type v) where
  repo : ρ
  digest : δ
  total : Nat := 0
  completed : Int := 0
  parts : List Worker := []
  /-- how many URLs are in the channel, which has room for one; `none` for the nil channel -/
  nextURL : Option Nat := none
  /-- `CancelFunc` is not nil -/
  cancelFunc : Bool := false
  cancelled : Bool := false
  done : Bool := false
  err : Bool := false
  references : Int := 0
  phase : Phase

/-- Where a call of `uploadBlob` is. -/
inductive Stage
  | head
  | store
  | preparing (id : Nat)
  /-- `Prepare` has failed -/
  | dropping
  | entering (id : Nat)
  | waiting (id : Nat)
  /-- at the deferred `release`, with the result of `Wait` -/
  | leaving (id : Nat) (ok : Bool)
  | returned (ok : Bool)
  deriving DecidableEq

/-- The upload that a call has got. -/
def Stage.upload : Stage → Option Nat
  | .preparing id | .entering id | .waiting id | .leaving id _ => some id
  | _ => none

structure Call (ρ : Type u) (δ : Type v) where
  repo : ρ
  digest : δ
  stage : Stage := .head

structure State (ρ : Type u) (δ : Type v) where
  /-- the blobs that the registry has in its repositories -/
  registry : ρ → δ → Bool
  blobUploadManager : δ → Option Nat := fun _ => none
  uploads : List (BlobUpload ρ δ) := []
  calls : List (Call ρ δ) := []
  /-- the newest first -/
  log : List (Event δ) := []
  panicked : Bool := false

/-- What the request of a part comes to, and what is done then. -/
inductive TaskAction
  | read (n : Nat)
  | fail (canceled : Bool)
  | redirect
  | accept
  | offer (located : Bool)
  deriving DecidableEq

inductive RunAction
  | launch (opened : Bool)
  | receive
  | go
  | skip
  | part (i : Nat) (action : TaskAction)
  | wait
  | take
  | commit
  | notCommitted (canceled : Bool)
  | delete
  deriving DecidableEq

inductive CallAction
  | found
  | absent
  | failed
  | loadOrStore
  | mounted
  | location
  /-- `Prepare` fails; the parts are made already if it is the URL that is not understood -/
  | notPrepared (made : Bool)
  | delete
  | acquire
  | tick
  | cancel
  | release
  deriving DecidableEq

inductive Action (ρ : Type u) (δ : Type v)
  | call (repo : ρ) (digest : δ)
  /-- another client uploads a blob -/
  | appear (repo : ρ) (digest : δ)
  | caller (i : Nat) (action : CallAction)
  | upload (id : Nat) (action : RunAction)

/-! ### Parts -/

def partSize (total : Nat) : Nat :=
  let size := total / numUploadParts
  if size < minUploadPartSize then minUploadPartSize
  else if size > maxUploadPartSize then maxUploadPartSize
  else size

/-- The loop of `Prepare`, which ends after at most `fuel` turns. -/
def makeParts (total : Nat) : (fuel offset size : Nat) → List Part
  | 0, _, _ => []
  | fuel + 1, offset, size =>
    if offset < total then
      let size := if offset + size > total then total - offset else size
      { offset, size } :: makeParts total fuel (offset + size) size
    else []

def prepareParts (total : Nat) : List Worker :=
  (makeParts total total 0 (partSize total)).map (·, .waiting)

/-- `io.NewSectionReader`. -/
def sectionOf (content : List UInt8) (offset size : Nat) : List UInt8 :=
  (content.drop offset).take size

/-- The next attempt of the innermost loop. Where there is none, `errMaxRetriesExceeded` ends the
other loops too. -/
def retry : List Nat → Task
  | attempt :: tries =>
    if attempt + 1 < maxRetries then .sending ((attempt + 1) :: tries) 0 else .returned false
  | [] => .returned false

section

variable {ρ : Type u} {δ : Type v}

/-- `inner.Done()`: the upload is cancelled, or a part has failed. -/
def BlobUpload.innerDone (u : BlobUpload ρ δ) : Bool :=
  u.cancelled || u.parts.any fun w => w.2 = .returned false

/-- A task is at `task'` now, and `Completed` follows what it has written. -/
def BlobUpload.setTask (u : BlobUpload ρ δ) (i : Nat) (w : Worker) (task : Task) :
    BlobUpload ρ δ :=
  { u with
    parts := u.parts.set i (w.1, task)
    completed := u.completed + (task.written w.1.size - w.2.written w.1.size : Int) }

/-- A step of the goroutine of a part; with the part that the registry has accepted. -/
def BlobUpload.partStep (content : List UInt8) (u : BlobUpload ρ δ) (i : Nat) (w : Worker) :
    TaskAction → Option (BlobUpload ρ δ × Option Part)
  | .read n =>
    match w.2 with
    | .sending tries written =>
      if written + n ≤ w.1.size then some (u.setTask i w (.sending tries (written + n)), none)
      else none
    | _ => none
  | .fail canceled =>
    match w.2 with
    | .sending tries _ =>
      if canceled then if u.innerDone then some (u.setTask i w (.returned false), none) else none
      else some (u.setTask i w (retry tries), none)
    | _ => none
  | .redirect =>
    match w.2 with
    | .sending tries _ => some (u.setTask i w (.offering tries false), none)
    | _ => none
  | .accept =>
    match w.2 with
    | .sending tries written =>
      if written = w.1.size then
        if tries.length = 1 then some (u.setTask i w (.offering tries true), some w.1)
        else
          let part := { w.1 with hash := some (sectionOf content w.1.offset w.1.size) }
          some ({ u with parts := u.parts.set i (part, .returned true) }, some w.1)
      else none
    | _ => none
  | .offer located =>
    match w.2, u.nextURL with
    | .offering tries accepted, some 0 =>
      let u := { u with nextURL := some 1 }
      if accepted then
        let part := { w.1 with hash := some (sectionOf content w.1.offset w.1.size) }
        some ({ u with parts := u.parts.set i (part, .returned true) }, none)
      else some (u.setTask i w (if located then .sending (0 :: tries) 0 else retry tries), none)
    | _, _ => none

/-- The checksum of all parts, if each has a hash; `part.Sum` panics for one that has none. -/
def etagOf (md5 : List UInt8 → List UInt8) (parts : List Worker) : Option Etag :=
  (parts.mapM fun w : Worker => w.1.hash.map md5).map fun sums => (md5 sums.flatten, parts.length)

/-- What a step of an upload does to the rest. -/
structure Effect (ρ : Type u) (δ : Type v) where
  upload : BlobUpload ρ δ
  events : List (Event δ) := []
  stored : Bool := false
  deleted : Bool := false
  panicked : Bool := false

variable (content : δ → List UInt8) (md5 : List UInt8 → List UInt8)

/-- A step of `Run`. -/
def BlobUpload.step (id : Nat) (u : BlobUpload ρ δ) : RunAction → Option (Effect ρ δ)
  | .launch opened =>
    if u.phase = .launched then
      some { upload :=
        if opened then { u with cancelFunc := true, phase := .loop 0 false }
        else { u with cancelFunc := true, err := true, phase := .returning } }
    else none
  | .receive =>
    match u.phase, u.nextURL with
    | .loop i false, some (n + 1) =>
      if i < u.parts.length then
        some { upload := { u with nextURL := some n, phase := .loop i true } }
      else none
    | _, _ => none
  | .go =>
    match u.phase with
    | .loop i true =>
      if (u.parts.countP fun w => w.2.active) < numUploadParts then
        u.parts[i]?.map fun w =>
          { upload := { u with
              parts := u.parts.set i (w.1, .sending [0] 0), phase := .loop (i + 1) false } }
      else none
    | _ => none
  | .skip =>
    match u.phase with
    | .loop i false =>
      if u.innerDone then
        u.parts[i]?.map fun w =>
          { upload := { u with
              parts := u.parts.set i (w.1, .skipped), phase := .loop (i + 1) false } }
      else none
    | _ => none
  | .part i action =>
    u.parts[i]?.bind fun w =>
      (u.partStep (content u.digest) i w action).map fun (u, accepted) =>
        { upload := u, events := accepted.toList.map fun p => .accepted id p.offset p.size }
  | .wait =>
    if u.phase = .loop u.parts.length false ∧ u.parts.all fun w => w.2.ended then
      some { upload :=
        if u.parts.any fun w => w.2 = .returned false then
          { u with err := true, phase := .returning }
        else { u with phase := .taking } }
    else none
  | .take =>
    match u.phase, u.nextURL with
    | .taking, some (n + 1) =>
      match etagOf md5 u.parts with
      | some etag => some { upload := { u with nextURL := some n, phase := .committing 0 etag } }
      | none => some { upload := u, panicked := true }
    | _, _ => none
  | .commit =>
    match u.phase with
    | .committing _ etag =>
      some
        { upload := { u with err := false, done := true, phase := .returning }
          events := [.commit id u.digest etag]
          stored := true }
    | _ => none
  | .notCommitted canceled =>
    match u.phase with
    | .committing attempt etag =>
      if canceled && !u.cancelled then none
      else if !canceled && attempt + 1 < maxRetries then
        some
          { upload := { u with phase := .committing (attempt + 1) etag }
            events := [.commit id u.digest etag] }
      else
        some
          { upload := { u with err := true, done := true, phase := .returning }
            events := [.commit id u.digest etag] }
    | _ => none
  | .delete =>
    if u.phase = .returning then some { upload := { u with phase := .returned }, deleted := true }
    else none

def State.setStage (s : State ρ δ) (i : Nat) (c : Call ρ δ) (stage : Stage) : State ρ δ :=
  { s with calls := s.calls.set i { c with stage } }

def State.setUpload (s : State ρ δ) (id : Nat) (u : BlobUpload ρ δ) : State ρ δ :=
  { s with uploads := s.uploads.set id u }

variable [DecidableEq ρ] [DecidableEq δ]

/-- The registry has the blob from now on. -/
def State.store (s : State ρ δ) (repo : ρ) (digest : δ) : State ρ δ :=
  { s with registry := fun r d => if r = repo ∧ d = digest then true else s.registry r d }

def State.apply (s : State ρ δ) (id : Nat) (e : Effect ρ δ) : State ρ δ :=
  { s with
    registry :=
      if e.stored then (s.store e.upload.repo e.upload.digest).registry else s.registry
    blobUploadManager :=
      if e.deleted then Function.update s.blobUploadManager e.upload.digest none
      else s.blobUploadManager
    uploads := s.uploads.set id e.upload
    log := e.events ++ s.log
    panicked := e.panicked }

/-- A step of `uploadBlob`. -/
def State.callStep (s : State ρ δ) (i : Nat) (c : Call ρ δ) :
    Stage → CallAction → Option (State ρ δ)
  | .head, .found =>
    if s.registry c.repo c.digest then some (s.setStage i c (.returned true)) else none
  | .head, .absent => some (s.setStage i c .store)
  | .head, .failed => some (s.setStage i c (.returned false))
  | .store, .loadOrStore =>
    match s.blobUploadManager c.digest with
    | some id => some (s.setStage i c (.entering id))
    | none =>
      let id := s.uploads.length
      let u : BlobUpload ρ δ := { repo := c.repo, digest := c.digest, phase := .preparing i }
      let s := { s with
        uploads := s.uploads ++ [u]
        blobUploadManager := Function.update s.blobUploadManager c.digest (some id) }
      some (s.setStage i c (.preparing id))
  | .preparing id, .mounted =>
    s.uploads[id]?.map fun u =>
      let total := (content u.digest).length
      let u := { u with total, completed := total, done := true, phase := .launched }
      ((s.store u.repo u.digest).setUpload id u).setStage i c (.entering id)
  | .preparing id, .location =>
    s.uploads[id]?.map fun u =>
      let total := (content u.digest).length
      let u := { u with total, parts := prepareParts total, nextURL := some 1, phase := .launched }
      (s.setUpload id u).setStage i c (.entering id)
  | .preparing id, .notPrepared made =>
    s.uploads[id]?.map fun u =>
      let total := (content u.digest).length
      let s := if made then s.setUpload id { u with total, parts := prepareParts total } else s
      s.setStage i c .dropping
  | .dropping, .delete =>
    let s := { s with
      blobUploadManager := Function.update s.blobUploadManager c.digest none }
    some (s.setStage i c (.returned false))
  | .entering id, .acquire =>
    s.uploads[id]?.map fun u =>
      (s.setUpload id { u with references := u.references + 1 }).setStage i c (.waiting id)
  | .waiting id, .tick =>
    s.uploads[id]?.map fun u =>
      if u.done || u.err then s.setStage i c (.leaving id !u.err) else s
  | .waiting id, .cancel => some (s.setStage i c (.leaving id false))
  | .leaving id ok, .release =>
    s.uploads[id]?.map fun u =>
      let u := { u with references := u.references - 1 }
      if u.references = 0 then
        if u.cancelFunc then
          (s.setUpload id { u with cancelled := true }).setStage i c (.returned ok)
        else { s.setUpload id u with panicked := true }
      else (s.setUpload id u).setStage i c (.returned ok)
  | _, _ => none

def step (s : State ρ δ) (a : Action ρ δ) : Option (State ρ δ) :=
  if s.panicked then none
  else
    match a with
    | .call repo digest => some { s with calls := s.calls ++ [{ repo, digest }] }
    | .appear repo digest => some (s.store repo digest)
    | .caller i action => s.calls[i]?.bind fun c => s.callStep content i c c.stage action
    | .upload id action =>
      s.uploads[id]?.bind fun u => (u.step content md5 id action).map (s.apply id)

def run (s : State ρ δ) (actions : List (Action ρ δ)) : Option (State ρ δ) :=
  actions.foldlM (step content md5) s

end

end Ecco9.Server.Upload
