import Ecco9.Library.Decimal
import Ecco9.Library.Paths
import Ecco9.Library.Replace
import Mathlib.Data.List.Sort

/-! The tensors of safetensors files, and how they are merged: `convert/reader_safetensors.go`,
`convert/reader.go` and `convert/tensor.go`. The experts of a Mixtral model: `convert/convert_mixtral.go`. -/

namespace Ecco9.Convert

open Ecco9.Library

/-- `safetensorMetadata`; an entry that describes no tensor has no `dtype`. -/
structure Metadata where
  dtype : Text
  shape : List Nat
  offsets : List Int

/-- A file with the length of its header and the entries of the header, which are those of a map. -/
structure File where
  path : Text
  n : Int
  headers : List (Text × Metadata)
  nodup : (headers.map (·.1)).Nodup

structure Tensor where
  path : Text
  dtype : Text
  offset : Int
  size : Int
  name : Text
  shape : List Nat
  deriving DecidableEq

inductive ParseError
  | unsupported
  | duplicate (name : Text)
  | indexOutOfRange

/-- `safetensorsPad` -/
def safetensorsPad (n offset : Int) : Int := 8 + n + offset

/-- The tensor that an entry describes. -/
def File.tensor (f : File) (replace : Text → Text) (key : Text) (value : Metadata) :
    Except ParseError Tensor :=
  match value.offsets with
  | first :: last :: _ => .ok {
      path := f.path
      dtype := value.dtype
      offset := safetensorsPad f.n first
      size := safetensorsPad f.n last - safetensorsPad f.n first
      name := replace key
      shape := value.shape
    }
  | _ => .error .indexOutOfRange

/-- The entries of the header, in the order of their keys as strings. -/
def File.entries (f : File) : List (Text × Metadata) :=
  f.headers.mergeSort fun a b => decide (a.1 ≤ b.1)

/-- The loop over the keys of a file, with the names that it has seen. -/
def File.parseFrom (f : File) (replace : Text → Text) (names : List Text) :
    List (Text × Metadata) → Except ParseError (List Tensor)
  | [] => .ok []
  | (key, value) :: entries =>
    if value.dtype = [] then f.parseFrom replace names entries
    else if value.shape = [] then .error .unsupported
    else if names.contains (replace key) then .error (.duplicate (replace key))
    else do
      let t ← f.tensor replace key value
      return t :: (← f.parseFrom replace (replace key :: names) entries)

/-- The files are those that were found, in the order of their names. -/
def parseSafetensors (replace : Text → Text) (files : List File) :
    Except ParseError (List Tensor) := do
  return (← files.mapM fun f => f.parseFrom replace [] f.entries).flatten

/-! ### `tensorBase.Kind` and `safetensor.Kind` -/

inductive Kind
  | fp32
  | fp16
  | mxfp4
  | bf16
  deriving DecidableEq

def Tensor.baseKind (t : Tensor) : Kind :=
  if (ascii ".ffn_gate_inp.weight").isSuffixOf t.name || t.name = ascii "token_types.weight" ||
      t.name = ascii "v.positional_embedding_vlm" ||
      t.name = ascii "v.tile_position_embd.weight" ||
      t.name = ascii "v.pre_tile_position_embd.weight" ||
      t.name = ascii "v.post_tile_position_embd.weight" then .fp32
  else if t.shape.length = 1 then .fp32
  else .fp16

def Tensor.kind (t : Tensor) : Kind :=
  if t.dtype = ascii "BF16" ∧ t.baseKind ≠ .fp32 then .bf16 else t.baseKind

/-! ### Merging -/

structure Merge where
  pattern : Text
  name : Text

/-- A tensor that is written from several ones. -/
structure Merged where
  name : Text
  kind : Kind
  shape : List Nat
  writerTo : List Tensor

/-- `slicesSplitFunc` by a pattern -/
def splitMatched (unmatched : List Tensor) (pattern : Text) : List Tensor × List Tensor :=
  unmatched.partition fun t => pathMatch pattern t.name

def mergeTensors (unmatched : List Tensor) : List Merge → List Merged × List Tensor
  | [] => ([], unmatched)
  | merge :: merges =>
    let (matched, unmatched) := splitMatched unmatched merge.pattern
    let (out, unmatched) := mergeTensors unmatched merges
    match matched with
    | [] => (out, unmatched)
    | t :: _ =>
      ({ name := merge.name
         kind := t.kind
         shape := matched.length :: t.shape
         writerTo := matched } :: out, unmatched)

/-- `mergeGroup.WriteTo`, by what the tensors write; it stops at the first that fails. -/
def writeTo (write : Tensor → Option Text) : List Tensor → Option Text
  | [] => some []
  | t :: group => do return (← write t) ++ (← writeTo write group)

/-- The tensors that are written under a name. -/
def writerTo (out : List Merged) (name : Text) : List Tensor :=
  (out.filter (·.name = name)).flatMap (·.writerTo)

/-! ### What is read -/

/-- The entry describes a tensor, as far as it is looked at. -/
structure Metadata.Ok (value : Metadata) : Prop where
  shape : value.shape ≠ []
  offsets : 2 ≤ value.offsets.length

/-- The tensors of a file when there is no error. -/
def File.tensors (f : File) (replace : Text → Text) (entries : List (Text × Metadata)) :
    List Tensor :=
  (entries.filter (·.2.dtype ≠ [])).filterMap fun e => (f.tensor replace e.1 e.2).toOption

variable {f : File} {replace : Text → Text}

theorem File.tensor_ok (f : File) (replace : Text → Text) (key : Text) {value : Metadata} (h : value.Ok) :
    ∃ t, f.tensor replace key value = .ok t ∧ t.name = replace key := by
  have hoffsets := h.offsets
  unfold tensor
  match value.offsets, hoffsets with
  | first :: last :: _, _ => exact ⟨_, rfl, rfl⟩

theorem File.parseFrom_ok {entries : List (Text × Metadata)} {names : List Text}
    (ok : ∀ e ∈ entries, e.2.dtype ≠ [] → e.2.Ok)
    (fresh : ∀ e ∈ entries, e.2.dtype ≠ [] → replace e.1 ∉ names)
    (distinct : (entries.filter (·.2.dtype ≠ [])).Pairwise fun a b => replace a.1 ≠ replace b.1) :
    f.parseFrom replace names entries = .ok (f.tensors replace entries) := by
  induction entries generalizing names with
  | nil => rfl
  | cons e entries ih =>
    obtain ⟨key, value⟩ := e
    have okRest : ∀ e ∈ entries, e.2.dtype ≠ [] → e.2.Ok :=
      fun e he => ok e (List.mem_cons_of_mem _ he)
    by_cases hdtype : value.dtype = []
    · rw [List.filter_cons_of_neg (by simpa using hdtype)] at distinct
      rw [parseFrom, if_pos hdtype,
        ih okRest (fun e he => fresh e (List.mem_cons_of_mem _ he)) distinct, tensors, tensors,
        List.filter_cons_of_neg (by simpa using hdtype)]
    · have hok := ok _ List.mem_cons_self hdtype
      have hfresh := fresh _ List.mem_cons_self hdtype
      obtain ⟨t, ht, -⟩ := f.tensor_ok replace key hok
      rw [List.filter_cons_of_pos (by simpa using hdtype), List.pairwise_cons] at distinct
      have freshRest : ∀ e ∈ entries, e.2.dtype ≠ [] → replace e.1 ∉ replace key :: names := by
        intro e he hd
        rw [List.mem_cons, not_or]
        exact ⟨(distinct.1 e (List.mem_filter.mpr ⟨he, by simpa using hd⟩)).symm,
          fresh e (List.mem_cons_of_mem _ he) hd⟩
      have hrest := ih okRest freshRest distinct.2
      rw [parseFrom, if_neg hdtype, if_neg hok.shape, if_neg (by simpa using hfresh), ht, hrest,
        tensors, tensors, List.filter_cons_of_pos (by simpa using hdtype)]
      simp only [List.filterMap_cons, ht]
      rfl

theorem parseSafetensors_ok {files : List File}
    (h : ∀ f ∈ files, f.parseFrom replace [] f.entries = .ok (f.tensors replace f.entries)) :
    parseSafetensors replace files = .ok (files.flatMap fun f => f.tensors replace f.entries) := by
  have hmap : files.mapM (fun f => f.parseFrom replace [] f.entries) =
      .ok (files.map fun f => f.tensors replace f.entries) := by
    induction files with
    | nil => rfl
    | cons f files ih =>
      rw [List.mapM_cons, h f List.mem_cons_self, ih fun g hg => h g (List.mem_cons_of_mem _ hg)]
      rfl
  rw [parseSafetensors, hmap]
  rfl

/-! ### What is merged -/

/-- Two merges that have different names and fit no tensor both. -/
def Merge.Apart (ts : List Tensor) (a b : Merge) : Prop :=
  a.name ≠ b.name ∧ ∀ t ∈ ts, pathMatch a.pattern t.name = true → pathMatch b.pattern t.name = false

theorem writerTo_cons (ts : List Tensor) (a : Merge) (merges : List Merge) (name : Text) :
    writerTo (mergeTensors ts (a :: merges)).1 name =
      (if a.name = name then ts.filter fun t => pathMatch a.pattern t.name else []) ++
        writerTo (mergeTensors (ts.filter fun t => !pathMatch a.pattern t.name) merges).1 name := by
  rw [mergeTensors, splitMatched, List.partition_eq_filter_filter]
  dsimp only
  have hrest : (ts.filter (not ∘ fun t => pathMatch a.pattern t.name)) =
      ts.filter fun t => !pathMatch a.pattern t.name := rfl
  rw [hrest]
  cases hmatched : ts.filter fun t => pathMatch a.pattern t.name with
  | nil => rw [ite_self, List.nil_append]
  | cons t matched =>
    dsimp only
    unfold writerTo
    by_cases hname : a.name = name
    · rw [List.filter_cons_of_pos (by simpa using hname), List.flatMap_cons, if_pos hname]
    · rw [List.filter_cons_of_neg (by simpa using hname), if_neg hname, List.nil_append]

theorem writerTo_other {ts : List Tensor} {merges : List Merge} {name : Text}
    (h : ∀ a ∈ merges, a.name ≠ name) : writerTo (mergeTensors ts merges).1 name = [] := by
  induction merges generalizing ts with
  | nil => rfl
  | cons a merges ih =>
    rw [writerTo_cons, if_neg (h a List.mem_cons_self), List.nil_append,
      ih fun b hb => h b (List.mem_cons_of_mem _ hb)]

/-- A merged tensor is written from the tensors that fit, in the order in which they were read. -/
theorem mergeTensors_writerTo {ts : List Tensor} {merges : List Merge}
    (apart : merges.Pairwise (Merge.Apart ts)) {m : Merge} (hm : m ∈ merges) :
    writerTo (mergeTensors ts merges).1 m.name = ts.filter fun t => pathMatch m.pattern t.name := by
  induction merges generalizing ts with
  | nil => cases hm
  | cons a merges ih =>
    obtain ⟨ha, hrest⟩ := List.pairwise_cons.mp apart
    rw [writerTo_cons]
    rcases List.mem_cons.mp hm with rfl | hm
    · rw [if_pos rfl, writerTo_other fun b hb => (ha b hb).1.symm, List.append_nil]
    · have hless : merges.Pairwise
          (Merge.Apart (ts.filter fun t => !pathMatch a.pattern t.name)) :=
        hrest.imp fun h => ⟨h.1, fun t ht => h.2 t (List.mem_of_mem_filter ht)⟩
      rw [if_neg (ha m hm).1, List.nil_append, ih hless hm, List.filter_filter]
      refine List.filter_congr fun t ht => ?_
      have hapart := (ha m hm).2 t ht
      cases hmatch : pathMatch a.pattern t.name with
      | true => rw [hapart hmatch, Bool.false_and]
      | false => rw [Bool.not_false, Bool.and_true]

/-! ### The experts of a Mixtral model -/

/-- `mixtralModel.Replacements`, those of `llamaModel` first -/
def mixtralReplacements : List (Text × Text) :=
  [(ascii "lm_head", ascii "output"),
    (ascii "model.embed_tokens", ascii "token_embd"),
    (ascii "model.norm", ascii "output_norm"),
    (ascii "model.layers", ascii "blk"),
    (ascii "input_layernorm", ascii "attn_norm"),
    (ascii "self_attn.q_proj", ascii "attn_q"),
    (ascii "self_attn.k_proj", ascii "attn_k"),
    (ascii "self_attn.v_proj", ascii "attn_v"),
    (ascii "self_attn.o_proj", ascii "attn_output"),
    (ascii "mlp.gate_proj", ascii "ffn_gate"),
    (ascii "mlp.down_proj", ascii "ffn_down"),
    (ascii "mlp.up_proj", ascii "ffn_up"),
    (ascii "post_attention_layernorm", ascii "ffn_norm"),
    (ascii "model.layers", ascii "blk"),
    (ascii "block_sparse_moe.gate", ascii "ffn_gate_inp"),
    (ascii "block_sparse_moe.experts.", ascii ".")]

/-- The matrices of an expert, with the names that the merged ones get. -/
inductive Weight
  | w1
  | w2
  | w3
  deriving DecidableEq

namespace Weight

def text : Weight → Text
  | .w1 => ascii "w1"
  | .w2 => ascii "w2"
  | .w3 => ascii "w3"

def exps : Weight → Text
  | .w1 => ascii "ffn_gate_exps"
  | .w2 => ascii "ffn_up_exps"
  | .w3 => ascii "ffn_down_exps"

end Weight

def expsName (layer : Nat) (w : Weight) (last : Text) : Text :=
  ascii "blk." ++ decimal layer ++ ascii "." ++ w.exps ++ last

def expsPattern (layer : Nat) (w : Weight) (last : Text) : Text :=
  ascii "blk." ++ decimal layer ++ ascii ".*." ++ w.text ++ last

/-- The merges of `mixtralModel.Tensors`. -/
def mixtralMerges (numHiddenLayers : Nat) : List Merge :=
  (List.range numHiddenLayers).flatMap fun i =>
    [Weight.w1, .w2, .w3].flatMap fun w =>
      [⟨expsPattern i w (ascii ".weight"), expsName i w (ascii ".weight")⟩,
        ⟨expsPattern i w (ascii ".bias"), expsName i w (ascii ".bias")⟩]

/-! ### The names of a Mixtral model -/

inductive Projection
  | q
  | k
  | v
  | o
  deriving DecidableEq

inductive Part
  | inputLayernorm
  | postAttentionLayernorm
  | selfAttn (p : Projection)
  | gate
  | expert (e : Nat) (w : Weight)
  deriving DecidableEq

inductive Name
  | embedTokens
  | norm
  | lmHead
  | layer (n : Nat) (part : Part)
  deriving DecidableEq

namespace Part

/-- What the key has behind the number of the layer. -/
def key : Part → Text
  | .inputLayernorm => ascii "input_layernorm.weight"
  | .postAttentionLayernorm => ascii "post_attention_layernorm.weight"
  | .selfAttn .q => ascii "self_attn.q_proj.weight"
  | .selfAttn .k => ascii "self_attn.k_proj.weight"
  | .selfAttn .v => ascii "self_attn.v_proj.weight"
  | .selfAttn .o => ascii "self_attn.o_proj.weight"
  | .gate => ascii "block_sparse_moe.gate.weight"
  | .expert e w => ascii "block_sparse_moe.experts." ++ decimal e ++ ascii "." ++ w.text ++ ascii ".weight"

def ggufName : Part → Text
  | .inputLayernorm => ascii "attn_norm.weight"
  | .postAttentionLayernorm => ascii "ffn_norm.weight"
  | .selfAttn .q => ascii "attn_q.weight"
  | .selfAttn .k => ascii "attn_k.weight"
  | .selfAttn .v => ascii "attn_v.weight"
  | .selfAttn .o => ascii "attn_output.weight"
  | .gate => ascii "ffn_gate_inp.weight"
  | .expert e w => ascii "." ++ decimal e ++ ascii "." ++ w.text ++ ascii ".weight"

end Part

namespace Name

def key : Name → Text
  | .embedTokens => ascii "model.embed_tokens.weight"
  | .norm => ascii "model.norm.weight"
  | .lmHead => ascii "lm_head.weight"
  | .layer n part => ascii "model.layers." ++ decimal n ++ ascii "." ++ part.key

def ggufName : Name → Text
  | .embedTokens => ascii "token_embd.weight"
  | .norm => ascii "output_norm.weight"
  | .lmHead => ascii "output.weight"
  | .layer n part => ascii "blk." ++ decimal n ++ ascii "." ++ part.ggufName

end Name

/-! ### What the names become -/

/-- Everything that is replaced begins with a letter. -/
theorem replacements_keep {b : UInt8} (h : IsDigit b ∨ b = 46) :
    ∀ p ∈ mixtralReplacements, ∃ a old, p.1 = a :: old ∧ a ≠ b := by
  have hletter : ∀ p ∈ mixtralReplacements, 97 ≤ (p.1.headD 0).toNat := by decide
  intro p hp
  have hp := hletter p hp
  cases heq : p.1 with
  | nil =>
    rw [heq] at hp
    exact absurd hp (by decide)
  | cons a old =>
    rw [heq] at hp
    refine ⟨a, old, rfl, ?_⟩
    rintro rfl
    have ha : 97 ≤ a.toNat := hp
    rcases h with hdigit | rfl
    · have := hdigit.2
      omega
    · exact absurd ha (by decide)

theorem replacer_digits (n : Nat) (t : Text) : replacer mixtralReplacements (decimal n ++ t) =
    decimal n ++ replacer mixtralReplacements t :=
  replacer_keep (fun _ hb => replacements_keep (.inl (isDigit_of_mem_decimal hb))) t

theorem replacer_dot (t : Text) : replacer mixtralReplacements (46 :: t) =
    46 :: replacer mixtralReplacements t :=
  replacer_keep (c := [46]) (by
    intro b hb
    exact replacements_keep (.inr (List.mem_singleton.mp hb))) t

theorem replacer_part (part : Part) : replacer mixtralReplacements part.key = part.ggufName := by
  cases part with
  | inputLayernorm => decide
  | postAttentionLayernorm => decide
  | selfAttn p => cases p <;> decide
  | gate => decide
  | expert e w =>
    have hfind (t : Text) : mixtralReplacements.find?
        (fun p => p.1 <+: ascii "block_sparse_moe.experts." ++ t) =
          some (ascii "block_sparse_moe.experts.", ascii ".") := rfl
    have hrest : replacer mixtralReplacements (ascii "." ++ (w.text ++ ascii ".weight")) =
        ascii "." ++ (w.text ++ ascii ".weight") := by
      cases w <;> decide
    rw [Part.key, Part.ggufName, List.append_assoc, List.append_assoc, List.append_assoc,
      replacer_front (by decide) (hfind _), replacer_digits, hrest]
    simp only [List.append_assoc]

theorem replacer_key (name : Name) : replacer mixtralReplacements name.key = name.ggufName := by
  cases name with
  | embedTokens => decide
  | norm => decide
  | lmHead => decide
  | layer n part =>
    have hfind (t : Text) : mixtralReplacements.find? (fun p => p.1 <+: ascii "model.layers" ++ t) =
        some (ascii "model.layers", ascii "blk") := rfl
    have hkey : (Name.layer n part).key =
        ascii "model.layers" ++ (46 :: (decimal n ++ (46 :: part.key))) := by
      simp only [Name.key, List.append_assoc]
      rfl
    have hname : (Name.layer n part).ggufName =
        ascii "blk" ++ (46 :: (decimal n ++ (46 :: part.ggufName))) := by
      simp only [Name.ggufName, List.append_assoc]
      rfl
    rw [hkey, hname, replacer_front (by decide) (hfind _), replacer_dot, replacer_digits,
      replacer_dot, replacer_part]

/-! ### The names are told apart -/

/-- The parts of a layer that are no experts. -/
def plainParts : List Part :=
  [.inputLayernorm, .postAttentionLayernorm, .selfAttn .q, .selfAttn .k, .selfAttn .v, .selfAttn .o,
    .gate]

theorem Part.plain_or_expert (part : Part) : part ∈ plainParts ∨ ∃ e w, part = .expert e w := by
  cases part with
  | selfAttn p =>
    left
    cases p <;> decide
  | expert e w => exact .inr ⟨e, w, rfl⟩
  | _ =>
    left
    decide

theorem Weight.text_injective {w w' : Weight} (h : w.text = w'.text) : w = w' := by
  cases w <;> cases w' <;> first | rfl | exact absurd h (by decide)

theorem not_isDigit_dot : ¬IsDigit 46 := by
  rintro ⟨h, -⟩
  exact absurd h (by decide)

theorem Part.ggufName_expert (e : Nat) (w : Weight) :
    (Part.expert e w).ggufName = 46 :: (decimal e ++ (46 :: (w.text ++ ascii ".weight"))) := by
  simp only [Part.ggufName, List.append_assoc]
  rfl

theorem Part.ggufName_injective {p q : Part} (h : p.ggufName = q.ggufName) : p = q := by
  have hplain : (plainParts.map Part.ggufName).Nodup := by decide
  have hhead : ∀ p ∈ plainParts, p.ggufName.head? ≠ some 46 := by decide
  rcases p.plain_or_expert with hp | ⟨e, w, rfl⟩
  · rcases q.plain_or_expert with hq | ⟨e, w, rfl⟩
    · exact List.inj_on_of_nodup_map hplain hp hq h
    · exact absurd (congrArg List.head? h) (hhead p hp)
  · rcases q.plain_or_expert with hq | ⟨e', w', rfl⟩
    · exact absurd (congrArg List.head? h.symm) (hhead q hq)
    · rw [ggufName_expert, ggufName_expert] at h
      obtain ⟨rfl, hrest⟩ := decimal_append_inj not_isDigit_dot (List.tail_eq_of_cons_eq h)
      rw [Weight.text_injective (List.append_cancel_right hrest)]

theorem Name.ggufName_layer (n : Nat) (part : Part) : (Name.layer n part).ggufName =
    ascii "blk." ++ (decimal n ++ (46 :: part.ggufName)) := by
  simp only [Name.ggufName, List.append_assoc]
  rfl

theorem Name.ggufName_injective {a b : Name} (h : a.ggufName = b.ggufName) : a = b := by
  have hlayer (n : Nat) (part : Part) : (Name.layer n part).ggufName.head? = some 98 := rfl
  cases a with
  | layer n part =>
    cases b with
    | layer n' part' =>
      rw [ggufName_layer, ggufName_layer] at h
      obtain ⟨rfl, hrest⟩ := decimal_append_inj not_isDigit_dot (List.append_cancel_left h)
      rw [Part.ggufName_injective hrest]
    | _ => exact absurd (congrArg List.head? h) (by rw [hlayer]; decide)
  | _ =>
    cases b with
    | layer n' part' => exact absurd (congrArg List.head? h) (by rw [hlayer]; decide)
    | _ => first | rfl | exact absurd h (by decide)

/-! ### The patterns -/

theorem expsPattern_eq (layer : Nat) (w : Weight) (last : Text) : expsPattern layer w last =
    (ascii "blk." ++ (decimal layer ++ [46])) ++ 42 :: (46 :: (w.text ++ last)) := by
  simp only [expsPattern, List.append_assoc]
  rfl

/-- Only the name of an expert ends with that of one of its matrices. -/
theorem Part.of_suffix {part : Part} {w : Weight} {last : Text}
    (hlast : last = ascii ".weight" ∨ last = ascii ".bias")
    (h : 46 :: (w.text ++ last) <:+ part.ggufName) :
    last = ascii ".weight" ∧ ∃ e, part = .expert e w := by
  have hplain : ∀ w : Weight, ∀ last ∈ [ascii ".weight", ascii ".bias"], ∀ p ∈ plainParts,
      ¬46 :: (w.text ++ last) <:+ p.ggufName := by
    intro w
    cases w <;> decide
  rcases part.plain_or_expert with hp | ⟨e, w', rfl⟩
  · exact absurd h (hplain w last (by simpa using hlast) part hp)
  · have h' : 46 :: (w'.text ++ ascii ".weight") <:+ (Part.expert e w').ggufName :=
      ⟨46 :: decimal e, by rw [ggufName_expert]; simp⟩
    rcases hlast with rfl | rfl
    · have hlen : (46 :: (w.text ++ ascii ".weight")).length =
          (46 :: (w'.text ++ ascii ".weight")).length := by
        cases w <;> cases w' <;> rfl
      have heq := List.IsSuffix.eq_of_length (List.suffix_of_suffix_length_le h h' (Nat.le_of_eq hlen)) hlen
      rw [Weight.text_injective (List.append_cancel_right (List.tail_eq_of_cons_eq heq))]
      exact ⟨rfl, e, rfl⟩
    · have hlast : (46 :: (w.text ++ ascii ".bias")).getLast? = some 115 := by cases w <;> decide
      have hlast' : (46 :: (w'.text ++ ascii ".weight")).getLast? = some 116 := by cases w' <;> decide
      obtain ⟨front, hfront⟩ := h
      obtain ⟨front', hfront'⟩ := h'
      have hends := congrArg List.getLast? (hfront.trans hfront'.symm)
      rw [List.getLast?_append, List.getLast?_append, hlast, hlast'] at hends
      cases hends

/-- Only experts of the layer fit, and only with their weights. -/
theorem pathMatch_exps {layer : Nat} {w : Weight} {last : Text}
    (hlast : last = ascii ".weight" ∨ last = ascii ".bias") (name : Name) :
    pathMatch (expsPattern layer w last) name.ggufName = true ↔
      last = ascii ".weight" ∧ ∃ e, name = .layer layer (.expert e w) := by
  have hfront : 42 ∉ ascii "blk." ++ (decimal layer ++ [46]) := by
    rw [List.mem_append, List.mem_append]
    rintro (h | h | h)
    · revert h
      decide
    · exact absurd (isDigit_of_mem_decimal h).1 (by decide)
    · revert h
      decide
  have hback : 42 ∉ 46 :: (w.text ++ last) := by
    rcases hlast with rfl | rfl <;> cases w <;> decide
  rw [expsPattern_eq, pathMatch_star hfront hback]
  constructor
  · rintro ⟨mid, hmid, heq⟩
    cases name with
    | layer n part =>
      rw [Name.ggufName_layer, List.append_assoc, List.append_assoc, List.append_assoc] at heq
      obtain ⟨rfl, hrest⟩ := decimal_append_inj not_isDigit_dot (List.append_cancel_left heq)
      obtain ⟨hweight, e, rfl⟩ := Part.of_suffix hlast ⟨mid, hrest.symm⟩
      exact ⟨hweight, e, rfl⟩
    | _ =>
      have hhead : (ascii "blk." ++ (decimal layer ++ [46]) ++ mid ++
          46 :: (w.text ++ last)).head? = some 98 := rfl
      exact absurd ((congrArg List.head? heq).trans hhead) (by decide)
  · rintro ⟨rfl, e, rfl⟩
    refine ⟨46 :: decimal e, ?_, ?_⟩
    · rw [List.mem_cons]
      rintro (h | h)
      · revert h
        decide
      · exact absurd (isDigit_of_mem_decimal h).1 (by decide)
    · rw [Name.ggufName_layer, Part.ggufName_expert]
      simp

end Ecco9.Convert
