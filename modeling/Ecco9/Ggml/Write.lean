import Ecco9.Ggml.Decode
import Ecco9.Library.Codecs

/-! `WriteGGUF` of `fs/ggml/gguf.go`. -/

namespace Ecco9.Ggml

open Ecco9.Library

/-! ### Files that are written -/

inductive WriteError
  | improperType (key : Text)
  | tooLarge
  | negativeOffset
  deriving DecidableEq

structure File where
  content : Text := []
  pos : Nat := 0

/-- How a writing ends that is not done. -/
inductive WriteStop
  | error (e : WriteError)
  | panic
  deriving DecidableEq

abbrev Writing := EStateM WriteStop File

/-- The largest that an offset in a file can be. -/
def maxOffset : Nat := 2 ^ 63 - 1

def write (p : Text) : Writing Unit := fun f =>
  if f.pos + p.length ≤ maxOffset then .ok () ⟨writeAt 0 f.content f.pos p, f.pos + p.length⟩
  else .error (.error .tooLarge) f

/-- `WriteTo` an `io.OffsetWriter` -/
def writeTo (offset : Int64) (p : Text) : Writing Unit := fun f =>
  if p = [] then .ok () f
  else if offset < 0 then .error (.error .negativeOffset) f
  else if offset.toInt.toNat + p.length ≤ maxOffset then
    .ok () { f with content := writeAt 0 f.content offset.toInt.toNat p }
  else .error (.error .tooLarge) f

/-- `Seek` to where the file is -/
def here : Writing Int64 := fun f => .ok (.ofNat f.pos) f

/-- `ggufPadding`, which reads nothing -/
def paddingFor (offset align : Int64) : Writing Int64 :=
  match ggufPadding offset align ⟨[], 0⟩ with
  | .ok padding _ => return padding
  | .error _ _ => throw .panic

def writeNat (width n : Nat) : Writing Unit := write (digits width n)

/-! ### Key values -/

/-- A string is in memory. -/
abbrev GoString := { s : Text // s.length ≤ maxAlloc }

/-- The elements of a slice, or those of an array that are kept. -/
inductive Items
  | int32s (l : List Int32)
  | uint32s (l : List UInt32)
  | float32s (bits : List UInt32)
  | strings (l : List GoString)
  | bools (l : List Bool)

namespace Items

def type : Items → UInt32
  | .int32s _ => 5
  | .uint32s _ => 4
  | .float32s _ => 6
  | .strings _ => 8
  | .bools _ => 7

def values : Items → List Gguf.Value
  | .int32s l => l.map .int32
  | .uint32s l => l.map .uint32
  | .float32s l => l.map .float32
  | .strings l => l.map fun s => .string s.1
  | .bools l => l.map .bool

/-- The elements as they are written. -/
def bytes : Items → Text
  | .int32s l => l.flatMap fun n => digits 4 n.toUInt32.toNat
  | .uint32s l => l.flatMap fun n => digits 4 n.toNat
  | .float32s l => l.flatMap fun n => digits 4 n.toNat
  | .strings l => l.flatMap fun s => digits 8 s.1.length ++ s.1
  | .bools l => l.flatMap fun b => digits 1 b.toNat

def elemSize : Items → Nat
  | .int32s _ | .uint32s _ | .float32s _ => 4
  | .strings _ => 16
  | .bools _ => 1

theorem elemSize_type (items : Items) : Ggml.elemSize items.type = some items.elemSize := by
  cases items <;> rfl

theorem elemSize_pos (items : Items) : 0 < items.elemSize := by
  cases items <;> exact Nat.succ_pos _

end Items

/-- A value that `WriteGGUF` may be given; a slice and an array of its elements are written alike. -/
inductive Entry
  | uint32 (n : UInt32)
  | fileType (n : UInt32)
  | uint64 (n : UInt64)
  | float32 (bits : UInt32)
  | bool (b : Bool)
  | string (s : GoString)
  | items (items : { items : Items // items.values.length * items.elemSize ≤ maxAlloc })
  | improper

/-- The keys of a map are distinct. -/
structure Metadata where
  entries : List (GoString × Entry)
  nodup : (entries.map fun e => e.1.1).Nodup

/-- The order of strings. -/
def textLe : Text → Text → Bool
  | [], _ => true
  | _ :: _, [] => false
  | a :: s, b :: t => a < b || a == b && textLe s t

namespace Metadata

variable (kv : Metadata)

def lookup (key : Text) : Option Entry := (kv.entries.find? (·.1.1 = key)).map Prod.snd

/-- `Uint` of the alignment: only a `uint32` is one. -/
def alignment : UInt32 :=
  match kv.lookup (ascii "general.alignment") with
  | some (.uint32 n) => n
  | _ => 32

def sorted : List (GoString × Entry) := kv.entries.mergeSort fun e e' => textLe e.1.1 e'.1.1

end Metadata

def writeGGUFString (s : GoString) : Writing Unit := do
  writeNat 4 typeString.toNat
  writeNat 8 s.1.length
  write s.1

def writeGGUFArray (items : Items) : Writing Unit := do
  writeNat 4 Gguf.typeArray.toNat
  writeNat 4 items.type.toNat
  writeNat 8 items.values.length
  write items.bytes

/-- `writeGGUF`, for a type and the number that a value is written as -/
def writeGGUF (t : UInt32) (width n : Nat) : Writing Unit := do
  writeNat 4 t.toNat
  writeNat width n

def ggufWriteKV (k : GoString) (v : Entry) : Writing Unit := do
  writeNat 8 k.1.length
  write k.1
  match v with
  | .uint32 n | .fileType n => writeGGUF 4 4 n.toNat
  | .uint64 n => writeGGUF 10 8 n.toNat
  | .float32 bits => writeGGUF 6 4 bits.toNat
  | .bool b => writeGGUF 7 1 b.toNat
  | .string s => writeGGUFString s
  | .items items => writeGGUFArray items.1
  | .improper => throw (.error (.improperType k.1))

/-! ### Tensors -/

/-- A tensor, with the bytes that its `WriterTo` writes. -/
structure TensorSource where
  name : GoString
  kind : UInt32
  shape : List UInt64
  data : Text
  /-- just its size -/
  length_data : data.length = (Tensor.size ⟨name.1, kind, 0, shape⟩).toNat

namespace TensorSource

variable (t : TensorSource)

/-- The tensor as it is told of. -/
def tensor (offset : UInt64) : Tensor := ⟨t.name.1, t.kind, offset, t.shape⟩

def size : UInt64 := (t.tensor 0).size

end TensorSource

def ggufWriteTensorInfo (t : TensorSource) (offset : UInt64) : Writing Unit := do
  writeNat 8 t.name.1.length
  write t.name.1
  -- the number of dimensions is cut off
  writeNat 4 (UInt32.ofNat t.shape.length).toNat
  t.shape.forM fun n => writeNat 8 n.toNat
  writeNat 4 t.kind.toNat
  writeNat 8 offset.toNat

/-- The tensors are told of, each with its offset. -/
def writeTensorInfos (alignment : Int64) : UInt64 → List TensorSource →
    Writing (List (TensorSource × UInt64))
  | _, [] => return []
  | s, t :: ts => do
    ggufWriteTensorInfo t s
    let padding ← paddingFor (s + t.size).toInt64 alignment
    let placed ← writeTensorInfos alignment (s + t.size + padding.toUInt64) ts
    return (t, s) :: placed

/-- An order that a list is brought into. -/
structure Arrangement (α : Type) where
  apply : List α → List α
  perm : ∀ l, (apply l).Perm l

/-- What `WriteGGUF` writes one behind the other. -/
def writeHeader (sort : Arrangement TensorSource) (kv : Metadata) (ts : List TensorSource) :
    Writing (List (TensorSource × UInt64)) := do
  write (ascii "GGUF")
  writeNat 4 3
  writeNat 8 ts.length
  writeNat 8 kv.entries.length
  kv.sorted.forM fun e => ggufWriteKV e.1 e.2
  writeTensorInfos kv.alignment.toUInt64.toInt64 0 (sort.apply ts)

/-- `WriteGGUF`, for the order that the tensors are sorted into and the one in which they are written. -/
def writeGGUFFile (sort : Arrangement TensorSource) (schedule : Arrangement (TensorSource × UInt64))
    (kv : Metadata) (ts : List TensorSource) : Writing Unit := do
  let placed ← writeHeader sort kv ts
  let offset ← here
  let padding ← paddingFor offset kv.alignment.toUInt64.toInt64
  (schedule.apply placed).forM fun t => writeTo (offset + padding + t.2.toInt64) t.1.data

end Ecco9.Ggml
