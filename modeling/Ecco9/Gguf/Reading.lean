import Ecco9.Library.Utf8

/-! What `fs/gguf/gguf.go` reads of a file: strings, values, key values and tensor infos. -/

namespace Ecco9.Gguf

open Ecco9.Library

/-- What is still to be read, and how much has been. -/
structure Reader where
  rest : Text
  offset : Nat
  deriving DecidableEq

inductive ReadError
  | eof
  | unexpectedEOF
  | unsupportedFile (magic : Text)
  | unsupportedVersion (version : UInt32)
  | unsupportedType (t : UInt32)
  deriving DecidableEq

abbrev Read := EStateM ReadError Reader

/-- `io.ReadFull`: what there is of it is read, also if it is not enough. A length that no slice has
is like one that the file does not have. -/
def readFull (n : Nat) : Read Text := fun r =>
  if n ≤ r.rest.length then .ok (r.rest.take n) ⟨r.rest.drop n, r.offset + n⟩
  else .error (if r.rest = [] then .eof else .unexpectedEOF) ⟨[], r.offset + r.rest.length⟩

def littleEndian : Text → Nat
  | [] => 0
  | b :: s => b.toNat + 256 * littleEndian s

/-- `read[T]` for the numbers of a width. -/
def readNat (width : Nat) : Read Nat := return littleEndian (← readFull width)

def readUint8 : Read UInt8 := return .ofNat (← readNat 1)

def readUint16 : Read UInt16 := return .ofNat (← readNat 2)

def readUint32 : Read UInt32 := return .ofNat (← readNat 4)

def readUint64 : Read UInt64 := return .ofNat (← readNat 8)

def readString : Read Text := do
  let n ← readUint64
  readFull n.toNat

/-- As often as is asked for, in order. -/
def readMany {α : Type} (read : Read α) : Nat → Read (List α)
  | 0 => return []
  | n + 1 => do
    let a ← read
    let rest ← readMany read n
    return a :: rest

/-! ### Values -/

/-- A value; floats are their bits. -/
inductive Value
  | uint8 (n : UInt8)
  | int8 (n : Int8)
  | uint16 (n : UInt16)
  | int16 (n : Int16)
  | uint32 (n : UInt32)
  | int32 (n : Int32)
  | float32 (bits : UInt32)
  | bool (b : Bool)
  | string (s : Text)
  | uint64 (n : UInt64)
  | int64 (n : Int64)
  | float64 (bits : UInt64)
  | array (t : UInt32) (elems : List Value)

def typeArray : UInt32 := 9

/-- How a value of a type is read, by `typeUint8` to `typeFloat64`, but for arrays. -/
def readOne (t : UInt32) : Option (Read Value) :=
  match t.toNat with
  | 0 => some (return .uint8 (← readUint8))
  | 1 => some (return .int8 (← readUint8).toInt8)
  | 2 => some (return .uint16 (← readUint16))
  | 3 => some (return .int16 (← readUint16).toInt16)
  | 4 => some (return .uint32 (← readUint32))
  | 5 => some (return .int32 (← readUint32).toInt32)
  | 6 => some (return .float32 (← readUint32))
  | 7 => some (return .bool ((← readUint8) != 0))
  | 8 => some (return .string (← readString))
  | 10 => some (return .uint64 (← readUint64))
  | 11 => some (return .int64 (← readUint64).toInt64)
  | 12 => some (return .float64 (← readUint64))
  | _ => none

/-- `readArray`, with `readArrayData` and `readArrayString`. -/
def readArray : Read Value := do
  let t ← readUint32
  let n ← readUint64
  match readOne t with
  | some read => return .array t (← readMany read n.toNat)
  | none => throw (.unsupportedType t)

def readValue (t : UInt32) : Read Value :=
  if t = typeArray then readArray
  else
    match readOne t with
    | some read => read
    | none => throw (.unsupportedType t)

namespace Value

/-- `Int` -/
def int : Option Value → Int64
  | some (.int8 n) => n.toInt64
  | some (.int16 n) => n.toInt64
  | some (.int32 n) => n.toInt64
  | some (.int64 n) => n
  | _ => 0

/-- `String` -/
def text : Option Value → Text
  | some (.string s) => s
  | _ => []

end Value

/-! ### Key values and tensor infos -/

structure KeyValue where
  key : Text := []
  value : Option Value := none

structure TensorInfo where
  name : Text := []
  offset : UInt64 := 0
  shape : List UInt64 := []
  type : UInt32 := 0

def readKeyValue : Read KeyValue := do
  let key ← readString
  let t ← readUint32
  let value ← readValue t
  return { key, value }

def readTensor : Read TensorInfo := do
  let name ← readString
  let dims ← readUint32
  let shape ← readMany readUint64 dims.toNat
  let type ← readUint32
  let offset ← readUint64
  return { name, offset, shape, type }

/-- The number of values of a block of a tensor type. -/
def blockSize (t : UInt32) : Int64 :=
  match t.toNat with
  | 0 | 1 | 24 | 25 | 26 | 27 | 28 | 30 => 1
  | 2 | 3 | 6 | 7 | 8 | 9 | 20 => 32
  | _ => 256

/-- The number of bytes of a block; the types are numbered from `F32` and `F16` on. -/
def typeSize (t : UInt32) : Int64 :=
  let n := blockSize t
  match t.toNat with
  | 0 => 4
  | 1 => 2
  | 2 => 2 + n / 2
  | 3 => 2 + 2 + n / 2
  | 6 => 2 + 4 + n / 2
  | 7 => 2 + 2 + 4 + n / 2
  | 8 => 2 + n
  | 9 => 2 + 2 + n
  | 10 => n / 16 + n / 4 + 2 + 2
  | 11 => n / 8 + n / 4 + 12 + 2
  | 12 => 2 + 2 + 12 + n / 2
  | 13 => 2 + 2 + 12 + n / 8 + n / 2
  | 14 => n / 2 + n / 4 + n / 16 + 2
  | 15 => 4 + n + 2 * n / 16
  | 16 => 2 + 2 * n / 8
  | 17 => 2 + 2 * n / 8 + n / 32
  | 18 => 2 + n / 4 + n / 8
  | 19 => 2 + n / 8 + n / 16
  | 20 => 2 + n / 2
  | 21 => 2 + n / 4 + n / 8 + n / 32 + 4
  | 22 => 2 + n / 4 + n / 16
  | 23 => 2 + 2 + n / 2 + n / 64
  | 24 => 1
  | 25 => 2
  | 26 => 4
  | 27 => 8
  | 28 => 8
  | 29 => n / 8 + n / 16 + n / 32
  | 30 => 2
  | _ => 0

namespace TensorInfo

def numValues (ti : TensorInfo) : Int64 := ti.shape.foldl (fun n dim => n * dim.toInt64) 1

def numBytes (ti : TensorInfo) : Int64 :=
  (ti.numValues.toFloat * ((typeSize ti.type).toFloat / (blockSize ti.type).toFloat)).toInt64

end TensorInfo

end Ecco9.Gguf
