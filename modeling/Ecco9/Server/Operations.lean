import Ecco9.Library.Utf8

/-! The files of the server: the blobs and the manifests of `server/manifest.go`, `server/layer.go`
and `server/modelpath.go`. A blob file is known by its name in the directory of the blobs, a manifest
by the name of its model.

The operations on the files: `PullModel` with `deleteUnusedLayers` of `server/images.go` and
`downloadBlob` of `server/download.go`, `CreateHandler` with `createModel` of `server/create.go`,
`DeleteHandler` of `server/routes.go`, and the layers they make and remove. A step is one existence
check, one file put in place or removed, one scan of the manifests, or one manifest read, written or
removed. What a step can be, and how the steps of the server change its state. -/

namespace Ecco9.Server

section

open Ecco9.Library

abbrev Bytes := List UInt8

structure Layer where
  mediaType : Text := []
  digest : Text
  deriving DecidableEq

structure Manifest where
  config : Layer
  layers : List Layer
  deriving DecidableEq

/-- The layers and the config, as `append(m.Layers, m.Config)`. -/
def Manifest.all (m : Manifest) : List Layer := m.layers ++ [m.config]

/-- The layers, and the config if it has a digest. -/
def Manifest.named (m : Manifest) : List Layer :=
  m.layers ++ if m.config.digest = [] then [] else [m.config]

def isHexDigit (c : UInt8) : Bool :=
  decide (0x30 ≤ c ∧ c ≤ 0x39) || decide (0x61 ≤ c ∧ c ≤ 0x66) || decide (0x41 ≤ c ∧ c ≤ 0x46)

/-- `^sha256[:-][0-9a-fA-F]{64}$` -/
def isDigest (digest : Text) : Bool :=
  digest.take 6 = ascii "sha256" && (digest[6]? = some 0x3A || digest[6]? = some 0x2D) &&
    (digest.drop 7).length = 64 && (digest.drop 7).all isHexDigit

/-- `GetBlobsPath` of a digest, for the name of the file. -/
def getBlobsPath (digest : Text) : Option Text :=
  if isDigest digest then some (digest.map fun c => if c = 0x3A then 0x2D else c) else none

theorem ne_colon_of_isHexDigit {c : UInt8} (h : isHexDigit c = true) : c ≠ 0x3A := by
  rintro rfl
  revert h
  decide

theorem getBlobsPath_sha256 {sum : Text} (length : sum.length = 64)
    (hex : sum.all isHexDigit = true) :
    getBlobsPath (ascii "sha256:" ++ sum) = some (ascii "sha256-" ++ sum) := by
  have valid : isDigest (ascii "sha256:" ++ sum) = true := by
    have htake : (ascii "sha256:" ++ sum).take 6 = ascii "sha256" := rfl
    have hcolon : (ascii "sha256:" ++ sum)[6]? = some 0x3A := rfl
    have hdrop : (ascii "sha256:" ++ sum).drop 7 = sum := rfl
    rw [isDigest, htake, hcolon, hdrop, length, hex]
    rfl
  have hmap : sum.map (fun c => if c = 0x3A then 0x2D else c) = sum := by
    conv_rhs => rw [← List.map_id sum]
    refine List.map_congr_left fun c hc => if_neg ?_
    exact ne_colon_of_isHexDigit (List.all_eq_true.mp hex c hc)
  rw [getBlobsPath, if_pos valid, List.map_append, hmap]
  rfl

/-- A manifest that cannot be parsed is `none`. -/
structure Files where
  blobs : Text → Option Bytes := fun _ => none
  manifests : List (Text × Option Manifest) := []

namespace Files

/-- `ParseNamedManifest` and `GetManifest` -/
def manifest (fs : Files) (name : Text) : Option Manifest := (fs.manifests.lookup name).join

/-- Whether one of `Manifests(true)` has a layer or config with this digest. -/
def uses (fs : Files) (digest : Text) : Bool :=
  fs.manifests.any fun (_, m) => m.any fun m => m.all.any fun l => l.digest = digest

def blob (fs : Files) (digest : Text) : Option Bytes := (getBlobsPath digest).bind fs.blobs

def place (fs : Files) (file : Text) (content : Bytes) : Files :=
  { fs with blobs := fun f => if f = file then some content else fs.blobs f }

def remove (fs : Files) (file : Text) : Files :=
  { fs with blobs := fun f => if f = file then none else fs.blobs f }

def write (fs : Files) (name : Text) (m : Option Manifest) : Files :=
  { fs with manifests := (name, m) :: fs.manifests.filter fun e => e.1 ≠ name }

def unlink (fs : Files) (name : Text) : Files :=
  { fs with manifests := fs.manifests.filter fun e => e.1 ≠ name }

@[simp] theorem manifest_place (fs : Files) (f : Text) (c : Bytes) (name : Text) :
    (fs.place f c).manifest name = fs.manifest name := rfl

@[simp] theorem manifest_remove (fs : Files) (f name : Text) :
    (fs.remove f).manifest name = fs.manifest name := rfl

@[simp] theorem blobs_place_self (fs : Files) (f : Text) (c : Bytes) :
    (fs.place f c).blobs f = some c := if_pos rfl

theorem blobs_place_of_ne (fs : Files) {f f' : Text} (c : Bytes) (h : f' ≠ f) :
    (fs.place f c).blobs f' = fs.blobs f' := if_neg h

@[simp] theorem blobs_remove_self (fs : Files) (f : Text) : (fs.remove f).blobs f = none :=
  if_pos rfl

theorem blobs_remove_of_ne (fs : Files) {f f' : Text} (h : f' ≠ f) :
    (fs.remove f).blobs f' = fs.blobs f' := if_neg h

@[simp] theorem blob_write (fs : Files) (name : Text) (m : Option Manifest) (d : Text) :
    (fs.write name m).blob d = fs.blob d := rfl

@[simp] theorem blob_unlink (fs : Files) (name d : Text) :
    (fs.unlink name).blob d = fs.blob d := rfl

theorem lookup_filter_ne (l : List (Text × Option Manifest)) (name other : Text) :
    (l.filter fun e => e.1 ≠ name).lookup other = if other = name then none else l.lookup other := by
  induction l with
  | nil => simp
  | cons e l ih =>
    obtain ⟨n, m⟩ := e
    by_cases hn : n = name
    · subst hn
      rw [List.filter_cons_of_neg (by simp), ih, List.lookup_cons]
      by_cases ho : other = n
      · simp [ho]
      · rw [beq_false_of_ne ho, if_neg ho]
    · rw [List.filter_cons_of_pos (by simpa using hn), List.lookup_cons, List.lookup_cons, ih]
      by_cases ho : other = n
      · simp [ho, hn]
      · rw [beq_false_of_ne ho]

theorem manifest_write (fs : Files) (name : Text) (m : Option Manifest) (other : Text) :
    (fs.write name m).manifest other = if other = name then m else fs.manifest other := by
  unfold manifest write
  rw [List.lookup_cons, lookup_filter_ne]
  by_cases h : other = name
  · simp [h]
  · rw [beq_false_of_ne h, if_neg h, if_neg h]

theorem manifest_unlink (fs : Files) (name other : Text) :
    (fs.unlink name).manifest other = if other = name then none else fs.manifest other := by
  unfold manifest unlink
  rw [lookup_filter_ne]
  split <;> simp

end Files

/-- A digest that has a blob file. -/
def Present (fs : Files) (digest : Text) : Prop := ∃ c, fs.blob digest = some c

theorem Present.place {fs : Files} {d : Text} (h : Present fs d) (f : Text) (c : Bytes) :
    Present (fs.place f c) d := by
  obtain ⟨c', h⟩ := h
  obtain ⟨f', hf, h⟩ := Option.bind_eq_some_iff.mp h
  by_cases hff : f' = f
  · exact ⟨c, by simp [Files.blob, Files.place, hf, hff]⟩
  · exact ⟨c', by simp [Files.blob, Files.place, hf, hff, h]⟩

theorem present_place_self {fs : Files} {d f : Text} {c : Bytes} (h : getBlobsPath d = some f) :
    Present (fs.place f c) d := ⟨c, by simp [Files.blob, Files.place, h]⟩

theorem Present.remove {fs : Files} {d f : Text} (h : Present fs d) (hf : getBlobsPath d ≠ some f) :
    Present (fs.remove f) d := by
  obtain ⟨c, h⟩ := h
  obtain ⟨f', hf', h⟩ := Option.bind_eq_some_iff.mp h
  have hff : f' ≠ f := fun e => hf (e ▸ hf')
  exact ⟨c, by simp [Files.blob, Files.remove, hf', hff, h]⟩

end

section

open Ecco9.Library

structure Pull where
  name : Text
  deleteMap : List Text
  manifest : Manifest
  skipVerify : List (Text × Bool) := []

/-- What the loop over the layers does when `downloadBlob` returns without an error. -/
def Pull.got (p : Pull) (digest : Text) (cacheHit : Bool) : Pull :=
  { p with skipVerify := (digest, cacheHit) :: p.skipVerify,
           deleteMap := p.deleteMap.filter (· ≠ digest) }

/-- What `createModel` does with layers, one after the other. -/
inductive Instruction
  /-- `NewLayer` -/
  | make (mediaType : Text) (content : Bytes)
  /-- `NewLayerFromLayer` -/
  | take (l : Layer)
  /-- `removeLayer` -/
  | drop (mediaType : Text)

def removeLayer (mediaType : Text) : List Instruction := [.drop mediaType]

def setTemplate (t : Bytes) : List Instruction :=
  removeLayer (ascii "application/vnd.ollama.image.template") ++
    [.make (ascii "application/vnd.ollama.image.template") t]

def setSystem (s : Bytes) : List Instruction :=
  removeLayer (ascii "application/vnd.ollama.image.system") ++
    if s = [] then [] else [.make (ascii "application/vnd.ollama.image.system") s]

def setLicense (l : Bytes) : List Instruction :=
  [.make (ascii "application/vnd.ollama.image.license") l]

/-- `none` if there are no parameters, else their JSON. -/
def setParameters : Option Bytes → List Instruction
  | none => []
  | some p => removeLayer (ascii "application/vnd.ollama.image.params") ++
    [.make (ascii "application/vnd.ollama.image.params") p]

/-- `none` if there are no messages, else their JSON. -/
def setMessages : Option Bytes → List Instruction
  | none => []
  | some m => removeLayer (ascii "application/vnd.ollama.image.messages") ++
    [.make (ascii "application/vnd.ollama.image.messages") m]

structure CreateRequest where
  template : Bytes := []
  system : Bytes := []
  license : List Bytes := []
  parameters : Option Bytes := none
  messages : Option Bytes := none

/-- `createModel` up to its config layer, after the layers of `baseLayers` are made. -/
def createModel (r : CreateRequest) (baseLayers : List Instruction) : List Instruction :=
  baseLayers ++ (if r.template = [] then [] else setTemplate r.template) ++
    (if r.system = [] then [] else setSystem r.system) ++ r.license.flatMap setLicense ++
    setParameters r.parameters ++ setMessages r.messages

structure Build where
  name : Text
  /-- the content of the config layer -/
  config : Bytes
  oldManifest : Option Manifest := none
  layers : List Layer := []

/-- Where an operation is. -/
inductive Op
  | pull (name : Text)
  | fetch (name : Text) (deleteMap : List Text)
  | stat (p : Pull) (todo : List Layer)
  | wait (p : Pull) (l : Layer) (todo : List Layer)
  | arrived (p : Pull) (l : Layer) (todo : List Layer)
  | verify (p : Pull) (todo : List Layer)
  | mismatch (p : Pull) (digest : Text)
  | scan (p : Pull)
  | prune (p : Pull) (todo : List Text)
  | pulled (p : Pull)
  | create (b : Build) (todo : List Instruction)
  | build (b : Build) (todo : List Instruction)
  | place (b : Build) (l : Layer) (content : Bytes) (todo : List Instruction)
  | dropping (b : Build) (mediaType : Text) (kept ls : List Layer) (todo : List Instruction)
  | dropped (b : Build) (mediaType : Text) (kept : List Layer) (l : Layer) (ls : List Layer)
      (todo : List Instruction)
  | placeConfig (b : Build) (config : Layer)
  | write (b : Build) (config : Layer)
  | delete (name : Text)
  | unlink (name : Text) (m : Manifest)
  | clean (todo : List Layer)
  | cleaned (l : Layer) (todo : List Layer)

/-- Which way a step goes that the files do not decide: as the source has it, with an error of the
file system, with the manifest that the registry serves, or with the next digest of a map. -/
inductive Event
  | go
  | fail
  | served (m : Manifest)
  | pick (digest : Text)
  | keep (digest : Text)

/-- What a step does to the files. -/
inductive Effect
  | nothing
  | download (digest : Text)
  | place (file : Text) (content : Bytes)
  | remove (file : Text)
  | write (name : Text) (m : Option Manifest)
  | unlink (name : Text)

section

-- SHA-256, in lower-case hexadecimal digits
variable (sum256 : Bytes → Text)

/-- `GetSHA256Digest` -/
def digestOf (content : Bytes) : Text := ascii "sha256:" ++ sum256 content

/-- `os.Remove` of the blob of a digest. -/
def removeBlob (digest : Text) : Effect :=
  match getBlobsPath digest with
  | some f => .remove f
  | none => .nothing

variable (fs : Files)

/-- The layers of the manifest that `PullModel` is about to replace. -/
def deleteMap (name : Text) : List Text :=
  match fs.manifest name with
  | some m => m.named.map (·.digest)
  | none => []

/-- The existence check of `downloadBlob`. -/
def actStat (p : Pull) (l : Layer) (todo : List Layer) : Effect × Option Op :=
  match getBlobsPath l.digest with
  | none => (.nothing, none)
  | some f =>
    match fs.blobs f with
    | some _ => (.nothing, some (.stat (p.got l.digest true) todo))
    | none => (.download l.digest, some (.wait p l todo))

/-- The loop that verifies. -/
def actVerify (p : Pull) (l : Layer) (todo : List Layer) : Effect × Option Op :=
  if p.skipVerify.lookup l.digest = some true then (.nothing, some (.verify p todo))
  else
    match fs.blob l.digest with
    | none => (.nothing, none)
    | some c =>
      if l.digest = digestOf sum256 c then (.nothing, some (.verify p todo))
      else (.nothing, some (.mismatch p l.digest))

/-- `NewLayer` for a layer of this content, or the config. -/
def actMake (l : Layer) (present absent : Op) : Effect × Option Op :=
  match getBlobsPath l.digest with
  | none => (.nothing, none)
  | some f =>
    match fs.blobs f with
    | some _ => (.nothing, some present)
    | none => (.nothing, some absent)

/-- The rename of `NewLayer`. -/
def actPlace (l : Layer) (content : Bytes) (next : Op) : Effect × Option Op :=
  match getBlobsPath l.digest with
  | none => (.nothing, none)
  | some f => (.place f content, some next)

def actBuild (b : Build) (todo : List Instruction) : Instruction → Effect × Option Op
  | .make mediaType content =>
    let l : Layer := ⟨mediaType, digestOf sum256 content⟩
    actMake fs l (.build { b with layers := b.layers ++ [l] } todo) (.place b l content todo)
  | .take l =>
    match fs.blob l.digest with
    | some _ => (.nothing, some (.build { b with layers := b.layers ++ [l] } todo))
    | none => (.nothing, none)
  | .drop mediaType => (.nothing, some (.dropping b mediaType [] b.layers todo))

/-- `removeLayer` at the layer `l`, up to the scan of `Layer.Remove`. -/
def actDrop (b : Build) (mediaType : Text) (kept : List Layer) (l : Layer) (ls : List Layer)
    (todo : List Instruction) : Effect × Option Op :=
  if l.mediaType ≠ mediaType then (.nothing, some (.dropping b mediaType (kept ++ [l]) ls todo))
  else if l.digest = [] ∨ fs.uses l.digest then (.nothing, some (.dropping b mediaType kept ls todo))
  else (.nothing, some (.dropped b mediaType kept l ls todo))

/-- `RemoveLayers` at the layer `l`, up to the scan of `Layer.Remove`. -/
def actClean (l : Layer) (todo : List Layer) : Effect × Option Op :=
  if l.digest = [] ∨ fs.uses l.digest then (.nothing, some (.clean todo))
  else (.nothing, some (.cleaned l todo))

/-- A step of an operation; `none` for the operation is its end. -/
def act : Op → Event → Option (Effect × Option Op)
  | .pull name, .go => some (.nothing, some (.fetch name (deleteMap fs name)))
  | .fetch name dels, .served m => some (.nothing, some (.stat ⟨name, dels, m, []⟩ m.named))
  | .stat p [], .go =>
    -- `delete(deleteMap, manifest.Config.Digest)`
    some (.nothing, some (.verify
      { p with deleteMap := p.deleteMap.filter (· ≠ p.manifest.config.digest) } p.manifest.named))
  | .stat p (l :: todo), .go => some (actStat fs p l todo)
  | .arrived p l todo, .go => some (.nothing, some (.stat (p.got l.digest false) todo))
  | .verify p (l :: todo), .go => some (actVerify sum256 fs p l todo)
  | .verify p [], .go => some (.write p.name (some p.manifest), some (.scan p))
  -- the file is left cut off
  | .verify p [], .fail => some (.write p.name none, none)
  | .mismatch _ digest, .go => some (removeBlob digest, none)
  | .mismatch _ _, .fail => some (.nothing, none)
  | .scan p, .go => some (.nothing, some (.prune p (p.deleteMap.filter fun d => !fs.uses d)))
  -- pruning is switched off, or fails
  | .scan p, .fail => some (.nothing, some (.pulled p))
  | .prune p todo, .pick d =>
    if d ∈ todo then some (removeBlob d, some (.prune p (todo.erase d))) else none
  | .prune p todo, .keep d =>
    if d ∈ todo then some (.nothing, some (.prune p (todo.erase d))) else none
  | .prune p [], .go => some (.nothing, some (.pulled p))
  | .pulled _, .go => some (.nothing, none)
  | .create b todo, .go =>
    some (.nothing, some (.build { b with oldManifest := fs.manifest b.name, layers := [] } todo))
  | .build b (i :: todo), .go => some (actBuild sum256 fs b todo i)
  | .build b [], .go =>
    let config : Layer := ⟨ascii "application/vnd.docker.container.image.v1+json",
      digestOf sum256 b.config⟩
    some (actMake fs config (.write b config) (.placeConfig b config))
  | .place b l content todo, .go =>
    some (actPlace l content (.build { b with layers := b.layers ++ [l] } todo))
  | .placeConfig b config, .go => some (actPlace config b.config (.write b config))
  | .dropping b _ kept [] todo, .go => some (.nothing, some (.build { b with layers := kept } todo))
  | .dropping b mt kept (l :: ls) todo, .go => some (actDrop fs b mt kept l ls todo)
  -- the scan fails; the layer goes all the same
  | .dropping b mt kept (l :: ls) todo, .fail =>
    if l.mediaType ≠ mt then none else some (.nothing, some (.dropping b mt kept ls todo))
  | .dropped b mt kept l ls todo, .go =>
    some (removeBlob l.digest, some (.dropping b mt kept ls todo))
  | .dropped b mt kept _ ls todo, .fail => some (.nothing, some (.dropping b mt kept ls todo))
  | .write b config, .go =>
    some (.write b.name (some ⟨config, b.layers⟩), match b.oldManifest with
      -- pruning may be switched off: then the operation ends by itself
      | some m => some (.clean m.all)
      | none => none)
  | .write b _, .fail => some (.write b.name none, none)
  | .delete name, .go => some (.nothing, (fs.manifest name).map fun m => .unlink name m)
  | .unlink name m, .go =>
    if (fs.manifests.lookup name).isSome then some (.unlink name, some (.clean m.all))
    else some (.nothing, none)
  | .clean (l :: todo), .go => some (actClean fs l todo)
  | .clean [], .go => some (.nothing, none)
  | .cleaned l todo, .go => some (removeBlob l.digest, some (.clean todo))
  | _, _ => none

/-- `flight` has the digests of the downloads that go on by themselves; `written` the models whose
manifest was written by an operation. -/
structure State where
  files : Files := {}
  ops : Nat → Option Op := fun _ => none
  flight : List Text := []
  written : List Text := []

namespace State

def setOp (s : State) (i : Nat) (op : Option Op) : State :=
  { s with ops := fun j => if j = i then op else s.ops j }

def apply (s : State) : Effect → State
  | .nothing => s
  | .download d => { s with flight := d :: s.flight.filter (· ≠ d) }
  | .place f c => { s with files := s.files.place f c }
  | .remove f => { s with files := s.files.remove f }
  | .write name (some m) =>
    { s with files := s.files.write name (some m), written := name :: s.written }
  | .write name none =>
    { s with files := s.files.write name none, written := s.written.filter (· ≠ name) }
  | .unlink name =>
    { s with files := s.files.unlink name, written := s.written.filter (· ≠ name) }

/-- What becomes of an operation when the download of `d` is over. -/
def wake (d : Text) (ok : Bool) : Op → Option Op
  | .wait p l todo =>
    if l.digest = d then (if ok then some (.arrived p l todo) else none) else some (.wait p l todo)
  | op => some op

end State

def Op.isFirst : Op → Bool
  | .pull _ | .create .. | .delete _ => true
  | _ => false

inductive Label
  | start (i : Nat) (op : Op)
  | act (i : Nat) (e : Event)
  /-- an error or the end of its context stops an operation -/
  | abort (i : Nat)
  /-- a download puts its file in place -/
  | land (digest : Text) (content : Bytes)
  | lose (digest : Text)

def step (s : State) : Label → Option State
  | .start i op => if (s.ops i).isNone ∧ op.isFirst then some (s.setOp i (some op)) else none
  | .act i e =>
    match s.ops i with
    | none => none
    | some op => (act sum256 s.files op e).map fun (effect, op') => (s.apply effect).setOp i op'
  | .abort i => if (s.ops i).isSome then some (s.setOp i none) else none
  | .land d c =>
    match getBlobsPath d with
    | none => none
    | some f =>
      if d ∈ s.flight then
        some { s with files := s.files.place f c, flight := s.flight.filter (· ≠ d),
                      ops := fun i => (s.ops i).bind (State.wake d true) }
      else none
  | .lose d =>
    if d ∈ s.flight then
      some { s with flight := s.flight.filter (· ≠ d),
                    ops := fun i => (s.ops i).bind (State.wake d false) }
    else none

def run (s : State) (labels : List Label) : Option State := labels.foldlM (step sum256) s

end

end

section

open Ecco9.Library

theorem removeBlob_cases (d : Text) :
    removeBlob d = .nothing ∨ ∃ f, getBlobsPath d = some f ∧ removeBlob d = .remove f := by
  unfold removeBlob
  cases h : getBlobsPath d with
  | none => exact .inl rfl
  | some f => exact .inr ⟨f, rfl, rfl⟩

/-- The steps after which an operation goes on. -/
inductive Moves (sum256 : Bytes → Text) (fs : Files) : Op → Effect → Op → Prop
  | pull : Moves sum256 fs (.pull name) .nothing (.fetch name (deleteMap fs name))
  | served : Moves sum256 fs (.fetch name dels) .nothing (.stat ⟨name, dels, m, []⟩ m.named)
  | cached (present : Present fs l.digest) :
    Moves sum256 fs (.stat p (l :: todo)) .nothing (.stat (p.got l.digest true) todo)
  | missing : Moves sum256 fs (.stat p (l :: todo)) (.download l.digest) (.wait p l todo)
  | arrived : Moves sum256 fs (.arrived p l todo) .nothing (.stat (p.got l.digest false) todo)
  | fetched : Moves sum256 fs (.stat p []) .nothing (.verify
      { p with deleteMap := p.deleteMap.filter (· ≠ p.manifest.config.digest) } p.manifest.named)
  | skipped (skip : p.skipVerify.lookup l.digest = some true) :
    Moves sum256 fs (.verify p (l :: todo)) .nothing (.verify p todo)
  | verified (found : fs.blob l.digest = some c) (equal : l.digest = digestOf sum256 c) :
    Moves sum256 fs (.verify p (l :: todo)) .nothing (.verify p todo)
  | mismatch : Moves sum256 fs (.verify p (l :: todo)) .nothing (.mismatch p l.digest)
  | writeManifest :
    Moves sum256 fs (.verify p []) (.write p.name (some p.manifest)) (.scan p)
  | scan : Moves sum256 fs (.scan p) .nothing (.prune p (p.deleteMap.filter fun d => !fs.uses d))
  | noPrune : Moves sum256 fs (.scan p) .nothing (.pulled p)
  | prune (decided : d ∈ todo) :
    Moves sum256 fs (.prune p todo) (removeBlob d) (.prune p (todo.erase d))
  | keep : Moves sum256 fs (.prune p todo) .nothing (.prune p (todo.erase d))
  | pruned : Moves sum256 fs (.prune p []) .nothing (.pulled p)
  | create : Moves sum256 fs (.create b todo) .nothing
      (.build { b with oldManifest := fs.manifest b.name, layers := [] } todo)
  | have (present : Present fs l.digest) : Moves sum256 fs (.build b (i :: todo)) .nothing
      (.build { b with layers := b.layers ++ [l] } todo)
  | make : Moves sum256 fs (.build b (i :: todo)) .nothing (.place b l content todo)
  | place (path : getBlobsPath l.digest = some f) :
    Moves sum256 fs (.place b l content todo) (.place f content)
      (.build { b with layers := b.layers ++ [l] } todo)
  | drop : Moves sum256 fs (.build b (i :: todo)) .nothing (.dropping b ty [] b.layers todo)
  | other : Moves sum256 fs (.dropping b ty kept (l :: ls) todo) .nothing
      (.dropping b ty (kept ++ [l]) ls todo)
  | used : Moves sum256 fs (.dropping b ty kept (l :: ls) todo) .nothing
      (.dropping b ty kept ls todo)
  | unused (unused : fs.uses l.digest = false) :
    Moves sum256 fs (.dropping b ty kept (l :: ls) todo) .nothing (.dropped b ty kept l ls todo)
  | remove : Moves sum256 fs (.dropped b ty kept l ls todo) (removeBlob l.digest)
      (.dropping b ty kept ls todo)
  | notRemoved : Moves sum256 fs (.dropped b ty kept l ls todo) .nothing
      (.dropping b ty kept ls todo)
  | dropped : Moves sum256 fs (.dropping b ty kept [] todo) .nothing
      (.build { b with layers := kept } todo)
  | haveConfig (present : Present fs config.digest) :
    Moves sum256 fs (.build b []) .nothing (.write b config)
  | makeConfig : Moves sum256 fs (.build b []) .nothing (.placeConfig b config)
  | placeConfig (path : getBlobsPath config.digest = some f) :
    Moves sum256 fs (.placeConfig b config) (.place f content) (.write b config)
  | write : Moves sum256 fs (.write b config) (.write b.name (some ⟨config, b.layers⟩))
      (.clean ls)
  | delete : Moves sum256 fs (.delete name) .nothing (.unlink name m)
  | unlink : Moves sum256 fs (.unlink name m) (.unlink name) (.clean ls)
  | cleanUsed : Moves sum256 fs (.clean (l :: todo)) .nothing (.clean todo)
  | cleanUnused (unused : fs.uses l.digest = false) :
    Moves sum256 fs (.clean (l :: todo)) .nothing (.cleaned l todo)
  | clean : Moves sum256 fs (.cleaned l todo) (removeBlob l.digest) (.clean todo)

/-- The steps that end an operation. -/
inductive Ends : Op → Effect → Prop
  | nothing : Ends op .nothing
  | mismatch : Ends (.mismatch p d) (removeBlob d)
  | cutOff : Ends op (.write name none)
  | write : Ends (.write b config) (.write b.name (some ⟨config, b.layers⟩))

section

variable {sum256 : Bytes → Text} {fs : Files} {op op' : Op} {e : Event} {effect : Effect}

theorem actStat_moves (h : actStat fs p l todo = (effect, some op')) :
    Moves sum256 fs (.stat p (l :: todo)) effect op' := by
  unfold actStat at h
  split at h
  · simp at h
  · rename_i f hf
    split at h
    · rename_i c hc
      cases h
      exact .cached ⟨c, by simp [Files.blob, hf, hc]⟩
    · cases h
      exact .missing

theorem actVerify_moves (h : actVerify sum256 fs p l todo = (effect, some op')) :
    Moves sum256 fs (.verify p (l :: todo)) effect op' := by
  unfold actVerify at h
  split at h
  case isTrue skip =>
    cases h
    exact .skipped skip
  case isFalse =>
    split at h
    · simp at h
    · rename_i c hc
      split at h
      case isTrue equal =>
        cases h
        exact .verified hc equal
      case isFalse =>
        cases h
        exact .mismatch

/-- A layer that `NewLayer` makes is there, or is put in place next. -/
theorem actMake_cases {l : Layer} {present absent : Op}
    (h : actMake fs l present absent = (effect, some op')) :
    effect = .nothing ∧ (op' = present ∧ Present fs l.digest ∨ op' = absent) := by
  unfold actMake at h
  split at h
  · simp at h
  · rename_i f hf
    split at h
    · rename_i c hc
      cases h
      exact ⟨rfl, .inl ⟨rfl, c, by simp [Files.blob, hf, hc]⟩⟩
    · cases h
      exact ⟨rfl, .inr rfl⟩

theorem actPlace_cases {l : Layer} {content : Bytes} {next : Op}
    (h : actPlace l content next = (effect, some op')) :
    op' = next ∧ ∃ f, getBlobsPath l.digest = some f ∧ effect = .place f content := by
  unfold actPlace at h
  split at h
  · simp at h
  · rename_i f hf
    cases h
    exact ⟨rfl, f, hf, rfl⟩

theorem actBuild_moves {i : Instruction}
    (h : actBuild sum256 fs b todo i = (effect, some op')) :
    Moves sum256 fs (.build b (i :: todo)) effect op' := by
  cases i with
  | make ty content =>
    obtain ⟨rfl, ⟨rfl, present⟩ | rfl⟩ := actMake_cases h
    · exact .have present
    · exact .make
  | take l =>
    simp only [actBuild] at h
    split at h
    · rename_i c hc
      cases h
      exact .have ⟨c, hc⟩
    · cases h
  | drop ty =>
    cases h
    exact .drop

theorem actDrop_moves (h : actDrop fs b ty kept l ls todo = (effect, some op')) :
    Moves sum256 fs (.dropping b ty kept (l :: ls) todo) effect op' := by
  unfold actDrop at h
  split at h
  · cases h
    exact .other
  · split at h
    · cases h
      exact .used
    · rename_i unused
      cases h
      exact .unused (Bool.eq_false_iff.mpr fun used => unused (.inr used))

theorem actClean_moves (h : actClean fs l todo = (effect, some op')) :
    Moves sum256 fs (.clean (l :: todo)) effect op' := by
  unfold actClean at h
  split at h
  · cases h
    exact .cleanUsed
  · rename_i unused
    cases h
    exact .cleanUnused (Bool.eq_false_iff.mpr fun used => unused (.inr used))

theorem act_moves (h : act sum256 fs op e = some (effect, some op')) :
    Moves sum256 fs op effect op' := by
  revert h
  fun_cases act sum256 fs op e
  all_goals intro h
  case case4 => exact actStat_moves (Option.some.inj h)
  case case6 => exact actVerify_moves (Option.some.inj h)
  case case20 => exact actBuild_moves (Option.some.inj h)
  case case21 =>
    obtain ⟨rfl, ⟨rfl, present⟩ | rfl⟩ := actMake_cases (Option.some.inj h)
    · exact .haveConfig present
    · exact .makeConfig
  case case22 =>
    obtain ⟨rfl, f, hf, rfl⟩ := actPlace_cases (Option.some.inj h)
    exact .place hf
  case case23 =>
    obtain ⟨rfl, f, hf, rfl⟩ := actPlace_cases (Option.some.inj h)
    exact .placeConfig hf
  case case25 => exact actDrop_moves (Option.some.inj h)
  case case30 =>
    split at h
    · cases h
      exact .write
    · cases h
  case case32 =>
    simp only [Option.some.injEq, Prod.mk.injEq, Option.map_eq_some_iff] at h
    obtain ⟨rfl, m, -, rfl⟩ := h
    exact .delete
  case case35 => exact actClean_moves (Option.some.inj h)
  -- what remains is a step of one kind, or none after which the operation goes on
  all_goals first
    | (cases h; constructor; done)
    | (cases h; constructor; assumption)
    | cases h

theorem act_ends (h : act sum256 fs op e = some (effect, none)) : Ends op effect := by
  revert h
  fun_cases act sum256 fs op e
  all_goals intro h
  case case30 =>
    split at h
    · cases h
    · cases h
      exact .write
  case case32 =>
    simp only [Option.some.injEq, Prod.mk.injEq] at h
    exact h.1 ▸ .nothing
  all_goals first
    | (cases h; constructor)
    | cases h
    | (simp only [actStat, actVerify, actBuild, actMake, actPlace, actDrop, actClean,
        Option.some.injEq] at h
       (repeat' split at h) <;> cases h <;> exact .nothing)

end

end

end Ecco9.Server
