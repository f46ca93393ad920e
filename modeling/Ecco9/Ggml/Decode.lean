import Ecco9.Gguf.Reading
import Ecco9.Library.Assignments
import Ecco9.Library.Preconditions
import Ecco9.Library.Readers
import Ecco9.Quantize.Kinds

/-! `Decode` of `fs/ggml`: what `gguf.go` reads of a model file, of each version and byte order. -/

namespace Ecco9.Ggml

open Ecco9.Library

inductive DecodeError
  | eof
  | unexpectedEOF
  | invalidMagic
  | invalidType (t : UInt32)
  | invalidArrayType (t : UInt32)
  | seek
  | failed (what : String) (e : DecodeError)
  deriving DecidableEq

/-- How a decoding ends that gives no value. -/
inductive Stop
  | error (e : DecodeError)
  | panic
  deriving DecidableEq

abbrev Source := ReadSeeker UInt8

abbrev Decoding := EStateM Stop Source

/-! ### What can panic -/

def check (p : Prop) [Decidable p] : Decoding Unit := if p then return else throw .panic

/-- The bytes that a slice can have, on a 64-bit machine. -/
def maxAlloc : Nat := 2 ^ 48

/-- `make`, for a slice of elements of a size. -/
def makeSlice (size : Nat) (n : Int) : Decoding Unit := check (0 ≤ n ∧ n * size ≤ maxAlloc)

def scratchSize : Nat := 16384

/-- Where a string is read to: a slice of the scratch space, or one that is made. -/
def makeBuffer (length : Int) : Decoding Unit :=
  if scratchSize < length then makeSlice 1 length else check (0 ≤ length)

/-- `Truncate` of a buffer. -/
def truncate (b : Text) (n : Int) : Decoding Text := do
  check (0 ≤ n ∧ n ≤ b.length)
  return b.take n.toNat

def ggufPadding (offset align : Int64) : Decoding Int64 := do
  check (align ≠ 0)
  return (align - offset % align) % align

/-! ### Reading -/

/-- `io.ReadFull`: what there is of it is read, also if it is not enough. -/
def readFull (n : Nat) : Decoding Text := fun rs =>
  if n ≤ rs.rest.length then .ok (rs.rest.take n) { rs with pos := rs.pos + n }
  else
    .error (.error (if rs.rest = [] then .eof else .unexpectedEOF))
      { rs with pos := rs.pos + rs.rest.length }

/-- `io.CopyN` to a buffer; of a negative number nothing is copied, and that is no error. -/
def copyN (n : Int) : Decoding Text := fun rs =>
  if n.toNat ≤ rs.rest.length then .ok (rs.rest.take n.toNat) { rs with pos := rs.pos + n.toNat }
  else .error (.error .eof) { rs with pos := rs.pos + rs.rest.length }

theorem readFull_ok {n : Nat} {rs : Source} (h : n ≤ rs.rest.length) :
    readFull n rs = .ok (rs.rest.take n) { rs with pos := rs.pos + n } := if_pos h

theorem readFull_error {n : Nat} {rs : Source} (h : ¬n ≤ rs.rest.length) :
    ∃ e rs', readFull n rs = .error (.error e) rs' := ⟨_, _, if_neg h⟩

theorem copyN_ok {n : Int} {rs : Source} (h : n.toNat ≤ rs.rest.length) :
    copyN n rs = .ok (rs.rest.take n.toNat) { rs with pos := rs.pos + n.toNat } := if_pos h

theorem copyN_error {n : Int} {rs : Source} (h : ¬n.toNat ≤ rs.rest.length) :
    ∃ e rs', copyN n rs = .error (.error e) rs' := ⟨_, _, if_neg h⟩

/-- `Seek` from where the source is. -/
def seekCurrent (offset : Int64) : Decoding Int64 := fun rs =>
  match rs.seek offset.toInt 1 true with
  | (some n, rs) => .ok (.ofNat n) rs
  | (none, rs) => .error (.error .seek) rs

def failing {α : Type} (what : String) (x : Decoding α) : Decoding α := fun rs =>
  match x rs with
  | .error (.error e) rs => .error (.error (.failed what e)) rs
  | result => result

/-- The error is not looked at. -/
def ignoring (x : Decoding Unit) : Decoding Unit := fun rs =>
  match x rs with
  | .error (.error _) rs => .ok () rs
  | result => result

inductive ByteOrder
  | littleEndian
  | bigEndian
  deriving DecidableEq

def ByteOrder.nat : ByteOrder → Text → Nat
  | .littleEndian, b => Gguf.littleEndian b
  | .bigEndian, b => Gguf.littleEndian b.reverse

/-- `containerGGUF`; the counts are those of the version that the file has. -/
structure Container where
  order : ByteOrder
  version : UInt32
  numTensor : UInt64
  numKV : UInt64
  maxArraySize : Int

/-- A value; of an array that is larger than what is wanted there is only the size. -/
inductive Value
  | plain (v : Gguf.Value)
  | array (t : UInt32) (size : Int) (values : Option (List Gguf.Value))

def typeString : UInt32 := 8

/-- How many bytes the values of a type have that are neither strings nor arrays, and what these are. -/
def scalar (t : UInt32) : Option (Nat × (Nat → Gguf.Value)) :=
  match t.toNat with
  | 0 => some (1, fun n => .uint8 (.ofNat n))
  | 1 => some (1, fun n => .int8 (UInt8.ofNat n).toInt8)
  | 2 => some (2, fun n => .uint16 (.ofNat n))
  | 3 => some (2, fun n => .int16 (UInt16.ofNat n).toInt16)
  | 4 => some (4, fun n => .uint32 (.ofNat n))
  | 5 => some (4, fun n => .int32 (UInt32.ofNat n).toInt32)
  | 6 => some (4, fun n => .float32 (.ofNat n))
  | 7 => some (1, fun n => .bool (n != 0))
  | 10 => some (8, fun n => .uint64 (.ofNat n))
  | 11 => some (8, fun n => .int64 (UInt64.ofNat n).toInt64)
  | 12 => some (8, fun n => .float64 (.ofNat n))
  | _ => none

/-- The size of an element of an array in memory. -/
def elemSize (t : UInt32) : Option Nat := if t = typeString then some 16 else (scalar t).map Prod.fst

def int (n : UInt64) : Int := n.toInt64.toInt

namespace Container

variable (c : Container)

/-- `readGGUF` for the numbers of a width. -/
def readNat (width : Nat) : Decoding Nat := return c.order.nat (← readFull width)

def readUint32 : Decoding UInt32 := return .ofNat (← c.readNat 4)

def readUint64 : Decoding UInt64 := return .ofNat (← c.readNat 8)

def readGGUFV1String : Decoding Text := do
  let length ← c.readUint64
  let b ← copyN (int length)
  -- gguf v1 strings are null-terminated
  truncate b (b.length - 1)

def readGGUFString : Decoding Text :=
  if c.version = 1 then c.readGGUFV1String
  else do
    let length ← c.readUint64
    makeBuffer (int length)
    readFull (int length).toNat

/-- In version 1 too; however it is read, it is read to its end or that of the source. -/
def discardGGUFString : Decoding Unit := do
  let size ← c.readUint64
  let _ ← copyN (int size)

/-- The values of an array are kept. -/
def Keeps (n : Int) : Prop := c.maxArraySize < 0 ∨ n ≤ c.maxArraySize

instance (n : Int) : Decidable (c.Keeps n) := inferInstanceAs (Decidable (_ ∨ _))

def newArray (size : Nat) (n : Int) : Decoding Unit := if c.Keeps n then makeSlice size n else return

/-- `readGGUFArrayData`, `readGGUFStringsData` and `readGGUFV1StringsData` -/
def readGGUFArrayData (t : UInt32) (n : Int) : Decoding (Option (List Gguf.Value)) :=
  match scalar t with
  | some (width, value) => do
    let elems ← repeated (c.readNat width) n.toNat
    return if c.Keeps n then some (elems.map value) else none
  | none =>
    if c.Keeps n then return some ((← repeated c.readGGUFString n.toNat).map Gguf.Value.string)
    else do
      let _ ← repeated (ignoring c.discardGGUFString) n.toNat
      return none

def readGGUFArray : Decoding Value := do
  let t ← c.readUint32
  let n ← c.readUint64
  match elemSize t with
  | none => throw (.error (.invalidArrayType t))
  | some size =>
    c.newArray size (int n)
    return .array t (int n) (← c.readGGUFArrayData t (int n))

def readValue (t : UInt32) : Decoding Value :=
  if t = Gguf.typeArray then c.readGGUFArray
  else if t = typeString then return .plain (.string (← c.readGGUFString))
  else
    match scalar t with
    | some (width, value) => return .plain (value (← c.readNat width))
    | none => throw (.error (.invalidType t))

def readKeyValue : Decoding (Text × Value) := do
  let k ← c.readGGUFString
  let t ← c.readUint32
  let v ← c.readValue t
  return (k, v)

end Container

/-! ### Tensors -/

/-- The numbers of the kinds. -/
def kinds : List Quantize.TensorType :=
  [.f32, .f16, .q4_0, .q4_1, .mxfp4, .q4_3, .q5_0, .q5_1, .q8_0, .q8_1, .q2_K, .q3_K, .q4_K, .q5_K, .q6_K,
    .q8_K, .iq2_XXS, .iq2_XS, .iq3_XXS, .iq1_S, .iq4_NL, .iq3_S, .iq2_S, .iq4_XS, .i8, .i16, .i32, .i64,
    .f64, .iq1_M, .bf16, .q4_0_4_4, .q4_0_4_8, .q4_0_8_8, .tq1_0, .tq2_0, .iq4_NL_4_4, .iq4_NL_4_8,
    .iq4_NL_8_8]

structure Tensor where
  name : Text
  kind : UInt32
  offset : UInt64
  shape : List UInt64
  deriving DecidableEq

namespace Tensor

variable (t : Tensor)

/-- Other kinds are like those that have a number and no size. -/
def type : Quantize.TensorType := kinds[t.kind.toNat]?.getD .iq4_NL_8_8

def elements : UInt64 := t.shape.foldl (· * ·) 1

def size : UInt64 := t.elements * t.type.typeSize / t.type.blockSize

end Tensor

def Container.readTensor (c : Container) : Decoding Tensor := do
  let name ← failing "failed to read tensor name: " c.readGGUFString
  let dims ← failing "failed to read tensor dimensions: " c.readUint32
  makeSlice 8 dims.toNat
  let shape ← failing "failed to read tensor shape: " (repeated c.readUint64 dims.toNat)
  let kind ← failing "failed to read tensor kind: " c.readUint32
  let offset ← failing "failed to read tensor offset: " c.readUint64
  return { name, kind, offset, shape }

/-! ### Files -/

abbrev KV := AList fun _ : Text => Value

/-- The value is of the type. -/
def Value.uint32 : Value → Option UInt32
  | .plain (.uint32 n) => some n
  | _ => none

namespace KV

/-- `Uint`, for a whole key. -/
def uint (kv : KV) (key : Text) (default : UInt32) : UInt32 :=
  ((kv.lookup key).bind Value.uint32).getD default

def alignment (kv : KV) : UInt32 := kv.uint (ascii "general.alignment") 32

end KV

/-- `gguf` -/
structure Model where
  kv : KV
  tensors : List Tensor
  parameters : UInt64
  tensorOffset : UInt64

/-- The data of a tensor is passed over. -/
def seekTensor (alignment : Int64) (t : Tensor) : Decoding Unit := do
  let offset ← failing "failed to get current offset: " (seekCurrent 0)
  let padding ← ggufPadding offset alignment
  let _ ← failing "failed to seek to init padding: " (seekCurrent padding)
  let _ ← failing "failed to seek to tensor: " (seekCurrent t.size.toInt64)

/-- The data follows where the key values and the tensors have been read. -/
def decodeData (kv : KV) (tensors : List Tensor) (parameters : UInt64) : Decoding Model := do
  let alignment := kv.alignment.toUInt64.toInt64
  let offset ← seekCurrent 0
  let padding ← ggufPadding offset alignment
  tensors.forM (seekTensor alignment)
  return { kv, tensors, parameters, tensorOffset := (offset + padding).toUInt64 }

def Container.decode (c : Container) : Decoding Model := do
  let keyValues ← repeated c.readKeyValue c.numKV.toNat
  let tensors ← repeated c.readTensor c.numTensor.toNat
  let parameters := tensors.foldl (· + ·.elements) 0
  decodeData ((assign Prod.fst Prod.snd keyValues ∅).insert (ascii "general.parameter_count")
    (.plain (.uint64 parameters))) tensors parameters

/-- `Decode` of a container: the version and the counts come first. -/
def decodeContainer (order : ByteOrder) (maxArraySize : Int) : Decoding (Container × Model) := do
  let version : UInt32 := .ofNat (order.nat (← readFull 4))
  let width := if version = 1 then 4 else 8
  let counts ← readFull (2 * width)
  let c : Container :=
    { order, version, maxArraySize
      numTensor := .ofNat (order.nat (counts.take width))
      numKV := .ofNat (order.nat (counts.drop width)) }
  return (c, ← c.decode)

/-- `GGML`, with its `Length` -/
structure GGML where
  container : Container
  model : Model
  length : Int64

def magicLE : Nat := 0x46554747

def magicBE : Nat := 0x47475546

/-- The byte order that the magic shows. -/
def byteOrder (magic : Nat) : Decoding ByteOrder :=
  if magic = magicLE then return .littleEndian
  else if magic = magicBE then return .bigEndian
  else throw (.error .invalidMagic)

def decode (maxArraySize : Int) : Decoding GGML := do
  let magic ← readFull 4
  let order ← byteOrder (Gguf.littleEndian magic)
  let (container, model) ← decodeContainer order maxArraySize
  let length ← seekCurrent 0
  return { container, model, length }

/-- `Decode` of a file; `bufioutil.NewBufferedSeeker` does not show. -/
def decodeFile (bytes : Text) (maxArraySize : Int) : Except Stop GGML :=
  match decode maxArraySize ⟨bytes, 0⟩ with
  | .ok ggml _ => .ok ggml
  | .error stop _ => .error stop

end Ecco9.Ggml
