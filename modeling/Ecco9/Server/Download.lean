import Mathlib.Algebra.GroupWithZero.Nat
import Mathlib.Data.List.AList
import Mathlib.Data.List.Sort

/-! The attempts of `blobDownload` of `server/download.go` to download one blob: the files that they
keep beside it, and one step for each operation on a file. -/

namespace Ecco9.Server.Download

/-- `blobDownloadPart`, as in the JSON of a part file. -/
structure Part where
  n : Nat
  offset : Nat
  size : Nat
  completed : Nat := 0
  deriving DecidableEq

structure File where
  size : Nat := 0
  byte : Nat → UInt8 := fun _ => 0

def File.truncate (f : File) (size : Nat) : File where
  size := size
  byte x := if x < size ∧ x < f.size then f.byte x else 0

/-- `n` bytes of the blob are written at `offset`. -/
def File.write (f : File) (content : Nat → UInt8) (offset n : Nat) : File where
  size := if n = 0 then f.size else max f.size (offset + n)
  byte x := if offset ≤ x ∧ x < offset + n then content x else f.byte x

/-- The file `-partial`, the part files `-partial-N` by their number (`none` for one that is emptied
and not written yet), and the blob. -/
structure Disk where
  data : Option File := none
  parts : AList fun _ : Nat => Option Part := ∅
  blob : Option File := none

/-- The numbers of the part files in the order of their names. -/
def Disk.glob (d : Disk) : List Nat :=
  d.parts.keys.insertionSort fun a b => toString a ≤ toString b

/-- `readPart` of each part file. -/
def Disk.readParts (d : Disk) : Option (List Part) :=
  d.glob.mapM fun n => (d.parts.lookup n).join

def Disk.setPart (d : Disk) (n : Nat) (part : Option Part) : Disk :=
  { d with parts := d.parts.insert n part }

def numDownloadParts : Nat := 16
def minDownloadPartSize : Nat := 100 * 1000000
def maxDownloadPartSize : Nat := 1000 * 1000000

def partSize (total : Nat) : Nat :=
  let size := total / numDownloadParts
  if size < minDownloadPartSize then minDownloadPartSize
  else if size > maxDownloadPartSize then maxDownloadPartSize
  else size

theorem partSize_pos (total : Nat) : 0 < partSize total := by
  grind [partSize, minDownloadPartSize, maxDownloadPartSize]

/-- Where the download of a part is: `copied k` has `k` bytes in the file that are not counted in
`Completed` yet; at `opened` its part file is emptied. -/
inductive Stage
  | ready
  | copied (k : Nat)
  | advanced
  | opened
  deriving DecidableEq

/-- The bytes that a chunk has in the file, if it may take more. -/
def Stage.received : Stage → Option Nat
  | .ready => some 0
  | .copied k => some k
  | .advanced | .opened => none

abbrev Worker := Part × Stage

/-- Where an attempt is. -/
inductive Phase
  | idle
  /-- in the loop of `Prepare`; the last part file is emptied, and not written yet, if `opened` -/
  | creating (offset size : Nat) (parts : List Part) (opened : Bool)
  | prepared (total : Nat) (parts : List Part)
  | opened (total : Nat) (parts : List Part)
  | loading (workers : List Worker)
  | removing (count i : Nat)
  | removed
  /-- `run` has returned nil -/
  | done

structure State where
  disk : Disk := {}
  phase : Phase := .idle

inductive Label
  | start
  | make
  | open
  | truncate
  | notTruncated
  | copy (i n : Nat)
  | rollback (i : Nat)
  | advance (i : Nat)
  | openPart (i : Nat)
  | writePart (i : Nat)
  | join
  | remove
  | rename
  /-- the process crashes, or the attempt returns an error -/
  | halt

section

variable (content : Nat → UInt8) (contentLength : Nat)

def start (s : State) : State :=
  match s.disk.readParts with
  | none => { s with phase := .idle }
  | some [] => { s with phase := .creating 0 (partSize contentLength) [] false }
  | some parts => { s with phase := .prepared (parts.map (·.size)).sum parts }

/-- The next operation on a file of `newPart`. -/
def make (d : Disk) (offset size : Nat) (parts : List Part) : Bool → State
  | false =>
    if offset < contentLength then
      let size := if offset + size > contentLength then contentLength - offset else size
      ⟨d.setPart parts.length none, .creating offset size parts true⟩
    else ⟨d, .prepared contentLength parts⟩
  | true =>
    let part : Part := { n := parts.length, offset, size }
    ⟨d.setPart part.n (some part), .creating (offset + size) size (parts ++ [part]) false⟩

/-- A step of the download of a part. -/
def load (d : Disk) (part : Part) (stage : Stage) : Label → Option (Disk × Worker)
  | .copy _ n =>
    stage.received.bind fun k =>
      if part.completed + k + n ≤ part.size then
        some ({ d with data := d.data.map (·.write content (part.offset + part.completed + k) n) },
          (part, .copied (k + n)))
      else none
  | .rollback _ => stage.received.map fun _ => (d, (part, .ready))
  | .advance _ =>
    match stage with
    | .copied k => some (d, ({ part with completed := part.completed + k }, .advanced))
    | _ => none
  | .openPart _ => if stage = .advanced then some (d.setPart part.n none, (part, .opened)) else none
  | .writePart _ =>
    if stage = .opened then some (d.setPart part.n (some part), (part, .ready)) else none
  | _ => none

def Label.worker : Label → Option Nat
  | .copy i _ | .rollback i | .advance i | .openPart i | .writePart i => some i
  | _ => none

def step (s : State) (lab : Label) : Option State :=
  match s.phase, lab with
  | .idle, .start | .done, .start => some (start contentLength s)
  | .idle, _ | .done, _ => none
  | _, .halt => some { s with phase := .idle }
  | .creating offset size parts opened, .make =>
    some (make contentLength s.disk offset size parts opened)
  | .prepared total parts, .open =>
    some ⟨{ s.disk with data := some (s.disk.data.getD {}) }, .opened total parts⟩
  | .opened total parts, .truncate =>
    some ⟨{ s.disk with data := s.disk.data.map (·.truncate total) },
      .loading (parts.map (·, .ready))⟩
  -- the error of `Truncate` is ignored
  | .opened _ parts, .notTruncated => some { s with phase := .loading (parts.map (·, .ready)) }
  | .loading workers, .join =>
    if workers.all fun (part, stage) => stage = .ready ∧ part.completed = part.size then
      some { s with phase := .removing workers.length 0 }
    else none
  | .loading workers, lab =>
    lab.worker.bind fun i => workers[i]?.bind fun (part, stage) =>
      (load content s.disk part stage lab).map fun (disk, worker) =>
        ⟨disk, .loading (workers.set i worker)⟩
  | .removing count i, .remove =>
    if i < count then
      if i ∈ s.disk.parts then
        some ⟨{ s.disk with parts := s.disk.parts.erase i }, .removing count (i + 1)⟩
      else some { s with phase := .idle }
    else some { s with phase := .removed }
  | .removed, .rename =>
    match s.disk.data with
    | some f => some ⟨{ s.disk with data := none, blob := some f }, .done⟩
    | none => some { s with phase := .idle }
  | _, _ => none

/-- The bytes below `Content-Length` are there, and the blob's. -/
def Complete (f : File) : Prop := contentLength ≤ f.size ∧ ∀ x < contentLength, f.byte x = content x

/-- The points where an attempt may stop: no part file is emptied, all part files or none are made,
and none or all are removed. -/
def Resumable : Phase → Prop
  | .creating offset _ parts opened => opened = false ∧ (parts = [] ∨ contentLength ≤ offset)
  | .loading workers => ∀ w ∈ workers, w.2 ≠ .opened
  | .removing count i => i = 0 ∨ i = count
  | _ => True

/-- Nothing goes wrong. -/
def Undisturbed : Label → Prop
  | .halt | .rollback _ | .notTruncated => False
  | _ => True

def SafeStep (s t : State) : Prop :=
  ∃ lab, step content contentLength s lab = some t ∧
    (lab = .halt → Resumable contentLength s.phase)

def UndisturbedStep (s t : State) : Prop :=
  ∃ lab, step content contentLength s lab = some t ∧ Undisturbed lab

def run (s : State) (labels : List Label) : Option State :=
  labels.foldlM (step content contentLength) s

end

end Ecco9.Server.Download
