import Ecco9.Library.Search
import Ecco9.Library.Utf8
import Mathlib.Algebra.Group.Nat.Defs
import Mathlib.Data.List.Forall2

/-! The kinds of tensors and of files (`fs/ggml/type.go`, and the sizes of tensors in `fs/ggml/ggml.go`), and
those that `quantize` in `server/quantization.go` gives the tensors of a model. -/

namespace Ecco9.Quantize

section

open Ecco9.Library

inductive FileType
  | f32 | f16 | q4_0 | q4_1 | mxfp4 | q4_2 | q4_3 | q8_0 | q5_0 | q5_1
  | q2_K | q3_K_S | q3_K_M | q3_K_L | q4_K_S | q4_K_M | q5_K_S | q5_K_M | q6_K
  | iq2_XXS | iq2_XS | q2_K_S | iq3_XS | iq3_XXS | iq1_S | iq4_NL | iq3_S | iq3_M
  | iq2_S | iq2_M | iq4_XS | iq1_M | bf16 | q4_0_4_4 | q4_0_4_8 | q4_0_8_8 | tq1_0 | tq2_0
  | unknown
  deriving DecidableEq

inductive TensorType
  | f32 | f16 | q4_0 | q4_1 | mxfp4 | q4_3 | q5_0 | q5_1 | q8_0 | q8_1
  | q2_K | q3_K | q4_K | q5_K | q6_K | q8_K
  | iq2_XXS | iq2_XS | iq3_XXS | iq1_S | iq4_NL | iq3_S | iq2_S | iq4_XS
  | i8 | i16 | i32 | i64 | f64 | iq1_M | bf16 | q4_0_4_4 | q4_0_4_8 | q4_0_8_8
  | tq1_0 | tq2_0 | iq4_NL_4_4 | iq4_NL_4_8 | iq4_NL_8_8
  deriving DecidableEq

/-- `ParseFileType`, without the text of its error. -/
def parseFileType (s : Text) : Option FileType :=
  if s = ascii "F32" then some .f32
  else if s = ascii "F16" then some .f16
  else if s = ascii "Q8_0" then some .q8_0
  else if s = ascii "Q4_K_S" then some .q4_K_S
  else if s = ascii "Q4_K_M" ∨ s = ascii "Q4_K" then some .q4_K_M
  else if s = ascii "BF16" then some .bf16
  else none

def FileType.toTensorType : FileType → TensorType
  | .f32 => .f32
  | .f16 => .f16
  | .q4_0 => .q4_0
  | .q4_1 => .q4_1
  | .mxfp4 => .mxfp4
  | .q8_0 => .q8_0
  | .q5_0 => .q5_0
  | .q5_1 => .q5_1
  | .q2_K => .q2_K
  | .q3_K_S => .q3_K
  | .q3_K_M => .q3_K
  | .q3_K_L => .q3_K
  | .q4_K_S => .q4_K
  | .q4_K_M => .q4_K
  | .q5_K_S => .q5_K
  | .q5_K_M => .q5_K
  | .q6_K => .q6_K
  | .q2_K_S => .q2_K
  | .bf16 => .bf16
  | _ => .f32

namespace TensorType

def isQuantized : TensorType → Bool
  | .f32 | .f16 | .bf16 => false
  | _ => true

/-- The number of values of a block. -/
def blockSize : TensorType → UInt64
  | .f32 | .f16 | .i8 | .i16 | .i32 | .i64 | .f64 | .bf16 => 1
  | .q4_0 | .q4_1 | .mxfp4 | .q5_0 | .q5_1 | .q8_0 | .q8_1 | .iq4_NL => 32
  | _ => 256

/-- The number of bytes of a block. -/
def typeSize (t : TensorType) : UInt64 :=
  let blockSize := t.blockSize
  match t with
  | .f32 => 4
  | .f16 => 2
  | .q4_0 => 2 + blockSize / 2
  | .q4_1 => 2 + 2 + blockSize / 2
  | .mxfp4 => 1 + blockSize / 2
  | .q5_0 => 2 + 4 + blockSize / 2
  | .q5_1 => 2 + 2 + 4 + blockSize / 2
  | .q8_0 => 2 + blockSize
  | .q8_1 => 2 + 2 + blockSize
  | .q2_K => blockSize / 16 + blockSize / 4 + 2 + 2
  | .q3_K => blockSize / 8 + blockSize / 4 + 12 + 2
  | .q4_K => 2 + 2 + 12 + blockSize / 2
  | .q5_K => 2 + 2 + 12 + blockSize / 8 + blockSize / 2
  | .q6_K => blockSize / 2 + blockSize / 4 + blockSize / 16 + 2
  | .q8_K => 4 + blockSize + 2 * blockSize / 16
  | .iq2_XXS => 2 + 2 * blockSize / 8
  | .iq2_XS => 2 + 2 * blockSize / 8 + blockSize / 32
  | .iq3_XXS => 2 + blockSize / 4 + blockSize / 8
  | .iq1_S => 2 + blockSize / 8 + blockSize / 16
  | .iq4_NL => 2 + blockSize / 2
  | .iq3_S => 2 + blockSize / 4 + blockSize / 8 + blockSize / 32 + 4
  | .iq2_S => 2 + blockSize / 4 + blockSize / 16
  | .iq4_XS => 2 + 2 + blockSize / 2 + blockSize / 64
  | .i8 => 1
  | .i16 => 2
  | .i32 => 4
  | .i64 => 8
  | .f64 => 8
  | .iq1_M => blockSize / 8 + blockSize / 16 + blockSize / 32
  | .bf16 => 2
  | _ => 0

theorem blockSize_dvd (t : TensorType) : t.blockSize.toNat ∣ 2 ^ 64 := by
  cases t <;> decide

theorem blockSize_of_not_quantized {t : TensorType} (h : t.isQuantized = false) :
    t.blockSize = 1 := by
  cases t <;> first | rfl | cases h

end TensorType

structure Tensor where
  name : Text
  kind : TensorType
  shape : List UInt64

namespace Tensor

def elements (t : Tensor) : UInt64 := t.shape.foldl (· * ·) 1

def size (t : Tensor) : UInt64 := t.elements * t.kind.typeSize / t.kind.blockSize

/-- The tensor can be stored in its kind: its rows are whole numbers of blocks, and its size is that
of its elements without a remainder. -/
structure Storable (t : Tensor) : Prop where
  row : ∀ nx ∈ t.shape.head?, t.kind.blockSize.toNat ∣ nx.toNat
  size : t.size.toNat * t.kind.blockSize.toNat = (t.elements * t.kind.typeSize).toNat

theorem foldl_mul_dvd {d : Nat} (hd : d ∣ 2 ^ 64) (shape : List UInt64) {n : UInt64}
    (hn : d ∣ n.toNat) : d ∣ (shape.foldl (· * ·) n).toNat := by
  induction shape generalizing n with
  | nil => exact hn
  | cons dim shape ih =>
    refine ih ?_
    rw [UInt64.toNat_mul]
    exact (Nat.dvd_mod_iff hd).mpr (Nat.dvd_mul_right_of_dvd hn _)

/-- A first dimension of whole blocks makes the number of elements one of whole blocks. -/
theorem storable_of_row {t : Tensor} (hne : t.shape ≠ [] ∨ t.kind.isQuantized = false)
    (row : ∀ nx ∈ t.shape.head?, t.kind.blockSize.toNat ∣ nx.toNat) : t.Storable := by
  have helements : t.kind.blockSize.toNat ∣ t.elements.toNat := by
    unfold elements
    cases hshape : t.shape with
    | nil =>
      have hfloat := hne.resolve_left (not_not_intro hshape)
      rw [TensorType.blockSize_of_not_quantized hfloat]
      exact Nat.one_dvd _
    | cons nx shape =>
      have hrow := row nx (by rw [hshape]; rfl)
      refine foldl_mul_dvd t.kind.blockSize_dvd shape ?_
      dsimp only
      rwa [UInt64.one_mul]
  refine ⟨row, ?_⟩
  have hbytes : t.kind.blockSize.toNat ∣ (t.elements * t.kind.typeSize).toNat := by
    rw [UInt64.toNat_mul]
    exact (Nat.dvd_mod_iff t.kind.blockSize_dvd).mpr (Nat.dvd_mul_right_of_dvd helements _)
  rw [size, UInt64.toNat_div, Nat.div_mul_cancel hbytes]

end Tensor

end

section

open Ecco9.Library

/-! ### Keys -/

inductive Value
  | uint32 (n : UInt32)
  | string (s : Text)
  | fileType (t : FileType)
  | other

abbrev KV := Text → Option Value

namespace KV

/-- `kv.String("general.architecture", "unknown")`; this key is one of all files. -/
def architecture (kv : KV) : Text :=
  match kv (ascii "general.architecture") with
  | some (.string s) => s
  | _ => ascii "unknown"

/-- A key that is not one of all files stands behind the architecture. -/
def fullKey (kv : KV) (key : Text) : Text :=
  if ¬ascii "tokenizer." <+: key ∧ ¬ascii "general." <+: key then
    kv.architecture ++ ascii "." ++ key
  else key

def uint (kv : KV) (key : Text) (default : UInt32) : UInt32 :=
  match kv (kv.fullKey key) with
  | some (.uint32 n) => n
  | _ => default

def set (kv : KV) (key : Text) (v : Value) : KV := fun k => if k = key then some v else kv k

end KV

/-! ### `Tensors.GroupLayers` -/

/-- `strings.Contains`. -/
def contains (s sub : Text) : Bool := (cut sub s).isSome

/-- The layer that a tensor is grouped into, and its name there. -/
def layerKey (name : Text) : Text × Text :=
  let parts := split (ascii ".") name
  let parts :=
    match parts.findIdx? fun s => s = ascii "blk" || s = ascii "mm" with
    | some index =>
      if parts.length > index + 2 then
        (ascii ".").intercalate (parts.take (index + 2)) :: parts.drop (index + 2)
      else parts
    | none => parts
  (parts.headD [], (ascii ".").intercalate parts.tail)

/-- A tensor takes the place of one that is grouped under the same names. -/
def insertLayer (layers : List ((Text × Text) × Tensor)) (t : Tensor) :
    List ((Text × Text) × Tensor) :=
  layers.filter (fun l => l.1 != layerKey t.name) ++ [(layerKey t.name, t)]

def groupLayers (tensors : List Tensor) : List ((Text × Text) × Tensor) :=
  tensors.foldl insertLayer []

/-! ### The kinds -/

structure QuantizeState where
  nAttnV : Nat := 0
  nFfnDown : Nat := 0
  iAttnV : Nat := 0
  iFfnDown : Nat := 0
  hasOutput : Bool := false

def useMoreBits (iLayer nLayers : Nat) : Bool :=
  iLayer < nLayers / 8 || iLayer ≥ 7 * nLayers / 8 || (iLayer - nLayers / 8) % 3 = 2

/-- The tests of the name in `getTensorNewType`, and what they change. -/
def adjustType (kv : KV) (qs : QuantizeState) (newType : TensorType) (name : Text) (nx : UInt64)
    (ftype : FileType) : TensorType × QuantizeState :=
  let nExperts := max 1 (kv.uint (ascii "expert_count") 0)
  if name = ascii "output.weight" ∨ name = ascii "output_norm.weight" ∨
      (!qs.hasOutput && name = ascii "token_embd.weight") then
    if nx % newType.blockSize ≠ 0 then (.q8_0, qs)
    else if newType ≠ .q8_0 then (.q6_K, qs)
    else (newType, qs)
  else if contains name (ascii "attn_v.weight") then
    let newType :=
      if ftype = .q4_K_M ∧ useMoreBits qs.iAttnV qs.nAttnV then .q6_K
      else if ftype = .q4_K_S ∧ qs.iAttnV < 4 then .q5_K
      else newType
    (if nExperts = 8 then .q8_0 else newType, { qs with iAttnV := qs.iAttnV + 1 })
  else if contains name (ascii "attn_k.weight") then
    (if nExperts = 8 then .q8_0 else newType, qs)
  else if contains name (ascii "ffn_down") then
    let newType :=
      if ftype = .q4_K_M then if useMoreBits qs.iFfnDown qs.nFfnDown then .q6_K else newType
      else if ftype = .q4_K_S ∧ qs.iFfnDown < qs.nFfnDown / 8 then .q5_K
      else newType
    (newType, { qs with iFfnDown := qs.iFfnDown + 1 })
  else if contains name (ascii "attn_output.weight") then
    (if nExperts = 8 ∧ (ftype = .q4_K_S ∨ ftype = .q4_K_M) then .q5_K else newType, qs)
  else if contains name (ascii "attn_qkv.weight") then
    (if ftype = .q4_K_M then .q5_K else newType, qs)
  else (newType, qs)

/-- The end of `getTensorNewType`: rows that are not whole blocks take a kind with smaller ones. -/
def fallbackType (newType : TensorType) (nx : UInt64) : TensorType :=
  if newType.isQuantized ∧ nx % newType.blockSize ≠ 0 then
    let newType :=
      match newType with
      | .q4_K => .q5_0
      | .q5_K => .q5_1
      | .q6_K => .q8_0
      | _ => newType
    if nx % newType.blockSize ≠ 0 then .f16 else newType
  else newType

def getTensorNewType (kv : KV) (qs : QuantizeState) (newType : TensorType) (name : Text)
    (nx : UInt64) (ftype : FileType) : TensorType × QuantizeState :=
  let (newType, qs) := adjustType kv qs newType name nx ftype
  (fallbackType newType nx, qs)

/-- What `newType` asks of a tensor before it gives it another kind. -/
def quantizable (t : Tensor) : Bool :=
  (ascii "weight").isSuffixOf t.name
    && (!contains t.name (ascii "v.") || contains t.name (ascii "_v."))
    && !contains t.name (ascii "mm.")
    && t.shape.length ≥ 2
    && !contains t.name (ascii "_norm.weight")
    && !contains t.name (ascii "ffn_gate_inp.weight")
    && t.name ≠ ascii "position_embd.weight"
    && t.name ≠ ascii "token_types.weight"
    && !contains t.name (ascii "ssm_conv1d.weight")
    && !contains t.name (ascii "time_mix_first.weight")
    && !contains t.name (ascii "time_mix_w1.weight")
    && !contains t.name (ascii "time_mix_w2.weight")
    && !contains t.name (ascii "time_mix_decay_w1.weight")
    && !contains t.name (ascii "time_mix_decay_w2.weight")
    && !contains t.name (ascii "time_mix_lerp_fused.weight")
    && !contains t.name (ascii "attn_rel_b.weight")
    && !contains t.name (ascii "per_layer_token_embd.weight")

/-- Only a tensor of at least two dimensions is quantized, so that `shape[0]` is there. -/
def newType (t : Tensor) (kv : KV) (qs : QuantizeState) (ftype : FileType) :
    TensorType × QuantizeState :=
  match t.shape with
  | nx :: _ =>
    if quantizable t then getTensorNewType kv qs ftype.toTensorType t.name nx ftype else (t.kind, qs)
  | [] => (t.kind, qs)

/-- What the first loop of `quantize` counts. -/
def quantizeState (tensors : List Tensor) : QuantizeState :=
  let layers := groupLayers tensors
  let attnV (l : (Text × Text) × Tensor) :=
    contains l.2.name (ascii "attn_v.weight") || contains l.2.name (ascii "attn_qkv.weight") ||
      contains l.2.name (ascii "attn_kv_b.weight")
  { nAttnV := layers.countP attnV
    hasOutput := layers.any fun l => !attnV l && l.2.name = ascii "output.weight"
    nFfnDown := ((layers.map (·.1.1)).dedup.filter ((ascii "blk.").isPrefixOf ·)).length }

/-- The second loop, over the tensors in the order of the file. -/
def quantizeFrom (kv : KV) (ftype : FileType) : QuantizeState → List Tensor → List Tensor
  | _, [] => []
  | qs, t :: tensors =>
    let (kind, qs) := newType t kv qs ftype
    { t with kind } :: quantizeFrom kv ftype qs tensors

/-- The tensors that `quantize` writes. -/
def quantize (kv : KV) (tensors : List Tensor) (ftype : FileType) : List Tensor :=
  quantizeFrom (kv.set (ascii "general.file_type") (.fileType ftype)) ftype (quantizeState tensors)
    tensors

end

end Ecco9.Quantize
