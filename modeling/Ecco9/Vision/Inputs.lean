import Ecco9.Library.Decimal
import Ecco9.Library.MachineInt
import Mathlib.Data.List.Basic

/-! How the multimodal models arrange their inputs: `PostTokenize` of `model/models/gemma3/model.go`,
`llama4/model.go`, `mistral3/model.go` and `qwen25vl/model.go`. -/

namespace Ecco9.Vision

open Ecco9.Library

/-- A tensor of the backend, or a view that starts at some row of it. -/
structure Tensor where
  handle : Nat
  row : Nat := 0
  shape : List Nat
  deriving DecidableEq

def Tensor.dim (t : Tensor) (n : Nat) : Nat := t.shape.getD n 1

def Tensor.view (t : Tensor) (row rows : Nat) : Tensor :=
  { t with row := t.row + row, shape := [t.dim 0, rows] }

/-- `separator` of `llama4`, the only data that these models store in a `Multimodal`. -/
structure Separator where
  x : Bool := false
  y : Bool := false
  deriving DecidableEq

structure Multimodal where
  tensor : Tensor
  data : Option Separator := none
  deriving DecidableEq

structure Input where
  token : Int := 0
  /-- `nil` is none -/
  multimodal : Option (List Multimodal) := none
  multimodalHash : Nat := 0
  sameBatch : Nat := 0
  deriving DecidableEq

def Input.parts (inp : Input) : List Multimodal := inp.multimodal.getD []

/-- The panics, and the error of the tokenizer. -/
inductive Failure
  | indexOutOfRange
  | negativeRepeat
  | noSeparator
  | encode (err : Text)
  deriving DecidableEq

/-- `slices.Repeat` of one input. -/
def repeatInput (inp : Input) (count : Int) : Except Failure (List Input) :=
  if count < 0 then .error .negativeRepeat else .ok (List.replicate count.toNat inp)

/-! ### `gemma3` -/

namespace Gemma3

/-- What `EncodeMultimodal` returns. -/
def multimodal (visionOutputs : Tensor) : List Multimodal := [{ tensor := visionOutputs }]

def inputs (inp : Input) : Except Failure (List Input) :=
  match inp.parts with
  | [] => .ok [inp]
  | inputMultimodal :: _ => do
    let dim := inputMultimodal.tensor.dim 1
    let placeholders ← repeatInput { token := 0 } ((dim : Int) - 1)
    return [
      { token := 108, sameBatch := dim + 3 }, -- "\n\n"
      { token := 255999 }, -- <start_of_image>
      {
        multimodal := some [{ tensor := inputMultimodal.tensor }]
        multimodalHash := inp.multimodalHash
      }
    ] ++ placeholders ++ [
      { token := 256000 }, -- <end_of_image>
      { token := 108 }
    ]

def postTokenize (l : List Input) : Except Failure (List Input) := do
  return (← l.mapM inputs).flatten

end Gemma3

/-! ### `llama4` -/

namespace Llama4

/-- What `EncodeMultimodal` returns for an image of `ratioW` times `ratioH` tiles. -/
def multimodal (projectedOutputs : Tensor) (ratioW ratioH : Nat) : List Multimodal :=
  if ratioH * ratioW > 1 then
    let patchesPerChunk := projectedOutputs.dim 1 / (ratioW * ratioH + 1)
    ((List.range ratioH).flatMap fun y => (List.range ratioW).map fun x => {
      tensor := projectedOutputs.view ((y * ratioW + x) * patchesPerChunk) patchesPerChunk
      data := some (if x + 1 < ratioW then { x := true } else { y := true })
    }) ++ [{
      tensor := projectedOutputs.view (ratioH * ratioW * patchesPerChunk) patchesPerChunk
      data := some {}
    }]
  else [{
    tensor := projectedOutputs.view 0 (projectedOutputs.dim 1)
    data := some {}
  }]

/-- `<|patch|>` with the tensor of a chunk, and the placeholders. -/
def patches (hash : Nat) (mm : Multimodal) : Except Failure (List Input) := do
  let patchesPerChunk := mm.tensor.dim 1
  let placeholders ← repeatInput { token := 200092 } ((patchesPerChunk : Int) - 1)
  return {
    token := 200092
    multimodal := some [{ tensor := mm.tensor }]
    multimodalHash := hash
    sameBatch := patchesPerChunk
  } :: placeholders

/-- The loop over the chunks of an image. -/
def chunks (hash : Nat) : List Multimodal → Except Failure (List Input)
  | [] => .ok []
  | [mm] => do
    let image ← patches hash mm
    return { token := 200090 } :: image ++ [{ token := 200080 }] -- <|image|> and <|image_end|>
  | mm :: next :: rest =>
    match mm.data with
    | none => .error .noSeparator
    | some separator => do
      let image ← patches hash mm
      let after ← chunks hash (next :: rest)
      return image ++ (if separator.x then [{ token := 200084 }] else []) ++
        (if separator.y then [{ token := 200085 }] else []) ++ after

def inputs (inp : Input) : Except Failure (List Input) :=
  match inp.parts with
  | [] => .ok [inp]
  | mm :: rest => do
    let image ← chunks inp.multimodalHash (mm :: rest)
    return { token := 200080 } :: image -- <|image_start|>

def postTokenize (l : List Input) : Except Failure (List Input) := do
  return (← l.mapM inputs).flatten

end Llama4

/-! ### `mistral3` -/

namespace Mistral3

/-- What `EncodeMultimodal` returns for features of `height` rows. -/
def multimodal (features : Tensor) (width height : Nat) : List Multimodal :=
  (List.range height).map fun i => { tensor := features.view (width * i) width }

/-- The loop over the rows of an image. -/
def rows (hash : Nat) : List Multimodal → Except Failure (List Input)
  | [] => .ok []
  | row :: rest => do
    let placeholders ← repeatInput { token := 10 } ((row.tensor.dim 1 : Int) - 1)
    let after ← rows hash rest
    return {
      token := 10 -- [IMG]
      multimodal := some [{ tensor := row.tensor }]
      multimodalHash := hash
      sameBatch := row.tensor.dim 1
    } :: placeholders ++ { token := if rest = [] then 13 else 12 } :: after -- [IMG_END], [IMG_BREAK]

def inputs (inp : Input) : Except Failure (List Input) :=
  match inp.parts with
  | [] => .ok [inp]
  | row :: rest => rows inp.multimodalHash (row :: rest)

def postTokenize (l : List Input) : Except Failure (List Input) := do
  return (← l.mapM inputs).flatten

end Mistral3

/-! ### `qwen25vl` -/

namespace Qwen25vl

def imageToken : Int := 151655

def visionStartToken : Int := 151652

def visionEndToken : Int := 151653

/-- What `EncodeMultimodal` returns. -/
def multimodal (visionOutputs : Tensor) : List Multimodal := [{ tensor := visionOutputs }]

/-- The text before the picture of this number. -/
def picture (nImg : Nat) : Text := ascii " Picture " ++ decimal nImg ++ ascii ": "

section Encode

variable (encode : Text → Bool → Except Text (List Int))

def image (nImg : Nat) (inp : Input) (multimodal : List Multimodal) : Except Failure (List Input) :=
  match encode (picture nImg) true with
  | .error err => .error (.encode (ascii "failed to encode image prompt: " ++ err))
  | .ok pre =>
    match multimodal with
    | [] => .error .indexOutOfRange
    | mm :: _ => do
      let patchesPerChunk := mm.tensor.dim 1
      let placeholders ← repeatInput { token := imageToken } ((patchesPerChunk : Int) - 1)
      return pre.map (fun token => { token }) ++ [
        { token := visionStartToken },
        {
          token := imageToken
          multimodal := some multimodal
          multimodalHash := inp.multimodalHash
          sameBatch := patchesPerChunk
        }
      ] ++ placeholders ++ [{ token := visionEndToken }]

/-- The loop over the inputs, with the number of images before them. -/
def postTokenizeFrom : Nat → List Input → Except Failure (List Input)
  | _, [] => .ok []
  | nImg, inp :: rest =>
    match inp.multimodal with
    | none => do
      return inp :: (← postTokenizeFrom nImg rest)
    | some multimodal => do
      let block ← image encode (nImg + 1) inp multimodal
      return block ++ (← postTokenizeFrom (nImg + 1) rest)

def postTokenize (l : List Input) : Except Failure (List Input) := postTokenizeFrom encode 0 l

end Encode

end Qwen25vl

end Ecco9.Vision
