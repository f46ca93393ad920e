import Ecco9.Quantize.Kinds

/-! The kinds that `quantize` gives can be stored, and when they are those that were asked for. -/

namespace Ecco9.Quantize

open Ecco9.Library

/-- The files whose tensors are not in blocks. -/
def FileType.IsFloat (ftype : FileType) : Prop := ftype = .f16 ∨ ftype = .f32 ∨ ftype = .bf16

/-- The tensors that get a kind of their own, whatever was asked for: the output, and with eight
experts what the attention reads. -/
def Overridden (kv : KV) (tensors : List Tensor) (t : Tensor) : Prop :=
  t.name = ascii "output.weight" ∨
    (t.name = ascii "token_embd.weight" ∧ ¬∃ u ∈ tensors, u.name = ascii "output.weight") ∨
    (kv.uint (ascii "expert_count") 0 = 8 ∧
      (contains t.name (ascii "attn_v.weight") ∨ contains t.name (ascii "attn_k.weight")))

/-! ### The groups -/

theorem intercalate_cons_tail {sep : Text} {parts : List Text} (h : 2 ≤ parts.length) :
    parts.headD [] ++ sep ++ sep.intercalate parts.tail = sep.intercalate parts := by
  match parts, h with
  | a :: b :: rest, _ => simp [List.intercalate, List.intersperse]

/-- The first pieces may be joined before the others. -/
theorem intercalate_join (sep : Text) {front back : List Text} (hfront : front ≠ [])
    (hback : back ≠ []) :
    sep.intercalate (sep.intercalate front :: back) = sep.intercalate (front ++ back) := by
  rw [List.intercalate_cons_of_ne_nil hback]
  induction front with
  | nil => exact absurd rfl hfront
  | cons a front ih =>
    cases front with
    | nil =>
      rw [List.intercalate_singleton, List.singleton_append,
        List.intercalate_cons_of_ne_nil hback]
    | cons b front =>
      have ih := ih (List.cons_ne_nil b front)
      rw [List.intercalate_cons_cons, List.cons_append, List.cons_append, List.append_assoc,
        List.append_assoc, ← List.append_assoc _ sep, ih]
      exact List.intercalate_cons_cons.symm

/-- Where a tensor has a name in its layer, the two are its name. -/
theorem layerKey_spec {name : Text} (h : (layerKey name).2 ≠ []) :
    name = (layerKey name).1 ++ ascii "." ++ (layerKey name).2 := by
  unfold layerKey at h ⊢
  have hjoin : (ascii ".").intercalate (split (ascii ".") name) = name := join_splitFrom ..
  dsimp only at h ⊢
  generalize split (ascii ".") name = parts at h hjoin ⊢
  have whole (parts : List Text) (hjoin : (ascii ".").intercalate parts = name)
      (h : (ascii ".").intercalate parts.tail ≠ []) :
      name = parts.headD [] ++ ascii "." ++ (ascii ".").intercalate parts.tail := by
    match parts with
    | [] => exact absurd rfl h
    | [_] => exact absurd rfl h
    | a :: b :: rest => rw [← hjoin, intercalate_cons_tail (by simp)]
  cases hindex : parts.findIdx? fun s => s = ascii "blk" || s = ascii "mm" with
  | none =>
    rw [hindex] at h
    exact whole _ hjoin h
  | some index =>
    rw [hindex] at h
    dsimp only at h ⊢
    split at h
    · rename_i hlong
      have hfront : parts.take (index + 2) ≠ [] :=
        List.ne_nil_of_length_pos (by rw [List.length_take]; omega)
      have hback : parts.drop (index + 2) ≠ [] :=
        List.ne_nil_of_length_pos (by rw [List.length_drop]; omega)
      rw [if_pos hlong]
      refine whole _ ?_ h
      rw [intercalate_join _ hfront hback, List.take_append_drop, hjoin]
    · rename_i hshort
      rw [if_neg hshort]
      exact whole _ hjoin h

theorem groupLayers_spec (tensors : List Tensor) :
    (∀ l ∈ groupLayers tensors, l.2 ∈ tensors ∧ l.1 = layerKey l.2.name) ∧
      ∀ t ∈ tensors, ∃ l ∈ groupLayers tensors, l.1 = layerKey t.name := by
  unfold groupLayers
  induction tensors using List.reverseRecOn with
  | nil => exact ⟨nofun, nofun⟩
  | append_singleton tensors t ih =>
    rw [List.foldl_append]
    generalize tensors.foldl insertLayer [] = layers at ih
    change (∀ l ∈ insertLayer layers t, _) ∧ ∀ u ∈ _, ∃ l ∈ insertLayer layers t, _
    unfold insertLayer
    constructor
    · intro l hl
      rcases List.mem_append.mp hl with hl | hl
      · have := ih.1 l (List.mem_of_mem_filter hl)
        exact ⟨List.mem_append_left _ this.1, this.2⟩
      · obtain rfl := List.mem_singleton.mp hl
        exact ⟨List.mem_append_right _ (List.mem_singleton.mpr rfl), rfl⟩
    · intro u hu
      by_cases hkey : layerKey u.name = layerKey t.name
      · exact ⟨_, List.mem_append_right _ (List.mem_singleton.mpr rfl), hkey.symm⟩
      · rcases List.mem_append.mp hu with hu | hu
        · obtain ⟨l, hl, heq⟩ := ih.2 u hu
          refine ⟨l, List.mem_append_left _ (List.mem_filter.mpr ⟨hl, ?_⟩), heq⟩
          rw [heq, bne_iff_ne]
          exact hkey
        · exact absurd (List.mem_singleton.mp hu ▸ rfl) hkey

theorem quantizeState_hasOutput (tensors : List Tensor) :
    (quantizeState tensors).hasOutput = true ↔ ∃ u ∈ tensors, u.name = ascii "output.weight" := by
  obtain ⟨hfrom, hkept⟩ := groupLayers_spec tensors
  have hplain : (contains (ascii "output.weight") (ascii "attn_v.weight") ||
      contains (ascii "output.weight") (ascii "attn_qkv.weight") ||
        contains (ascii "output.weight") (ascii "attn_kv_b.weight")) = false := by decide
  have hkey : layerKey (ascii "output.weight") = (ascii "output", ascii "weight") := by decide
  unfold quantizeState
  simp only [List.any_eq_true, Bool.and_eq_true, decide_eq_true_eq]
  constructor
  · rintro ⟨l, hl, -, hname⟩
    exact ⟨l.2, (hfrom l hl).1, hname⟩
  · rintro ⟨u, hu, hname⟩
    obtain ⟨l, hl, heq⟩ := hkept u hu
    rw [hname, hkey] at heq
    have hl' := (hfrom l hl).2
    have hspec := @layerKey_spec l.2.name (by rw [← hl', heq]; decide)
    rw [← hl', heq] at hspec
    have hout : l.2.name = ascii "output.weight" := hspec
    refine ⟨l, hl, ?_, hout⟩
    rw [hout, hplain]
    rfl

/-! ### One tensor -/

theorem mod_eq_zero_iff {nx n : UInt64} : nx % n = 0 ↔ n.toNat ∣ nx.toNat := by
  rw [← UInt64.toNat_inj, UInt64.toNat_mod, Nat.dvd_iff_mod_eq_zero]
  rfl

/-- The final check of `getTensorNewType`. -/
theorem checked_blockSize (t : TensorType) (nx : UInt64) :
    (if nx % t.blockSize ≠ 0 then TensorType.f16 else t).blockSize.toNat ∣ nx.toNat := by
  split
  · exact Nat.one_dvd _
  · rename_i hdvd
    exact mod_eq_zero_iff.mp (not_not.mp hdvd)

/-- Whatever was adjusted, the rows are whole blocks of the kind at the end. -/
theorem fallbackType_blockSize (newType : TensorType) (nx : UInt64) :
    (fallbackType newType nx).blockSize.toNat ∣ nx.toNat := by
  unfold fallbackType
  by_cases hwhole : newType.isQuantized ∧ nx % newType.blockSize ≠ 0
  · rw [if_pos hwhole]
    exact checked_blockSize _ nx
  · rw [if_neg hwhole]
    rw [not_and, not_not] at hwhole
    cases hquantized : newType.isQuantized with
    | true => exact mod_eq_zero_iff.mp (hwhole hquantized)
    | false =>
      rw [TensorType.blockSize_of_not_quantized hquantized]
      exact Nat.one_dvd _

/-- The two kinds that are given whatever was asked for. -/
theorem fallbackType_isQuantized {newType : TensorType} (h : newType = .q6_K ∨ newType = .q8_0)
    (nx : UInt64) : (fallbackType newType nx).isQuantized = true ↔ 32 ∣ nx.toNat := by
  have h32 : nx % 32 = 0 ↔ 32 ∣ nx.toNat := mod_eq_zero_iff
  have h256 : nx % 256 = 0 ↔ 256 ∣ nx.toNat := mod_eq_zero_iff
  have hblocks : nx % 256 = 0 → nx % 32 = 0 := fun h => h32.mpr (Nat.dvd_trans (by decide) (h256.mp h))
  rw [← h32]
  rcases h with rfl | rfl
  · by_cases h : nx % 256 = 0
    · simp [fallbackType, TensorType.blockSize, TensorType.isQuantized, h, hblocks h]
    · by_cases h' : nx % 32 = 0
      · simp [fallbackType, TensorType.blockSize, TensorType.isQuantized, h, h']
      · simp [fallbackType, TensorType.blockSize, TensorType.isQuantized, h, h']
  · by_cases h : nx % 32 = 0
    · simp [fallbackType, TensorType.blockSize, TensorType.isQuantized, h]
    · simp [fallbackType, TensorType.blockSize, TensorType.isQuantized, h]

theorem fallbackType_float {newType : TensorType} (h : newType.isQuantized = false) (nx : UInt64) :
    fallbackType newType nx = newType := by
  simp [fallbackType, h]

theorem newType_cons (kv : KV) (qs : QuantizeState) (ftype : FileType) {t : Tensor} {nx : UInt64}
    {shape : List UInt64} (hshape : t.shape = nx :: shape) : newType t kv qs ftype =
      if quantizable t then getTensorNewType kv qs ftype.toTensorType t.name nx ftype
      else (t.kind, qs) := by
  rw [newType, hshape]

theorem newType_storable (kv : KV) (qs : QuantizeState) (ftype : FileType) {t : Tensor}
    (h : t.kind.isQuantized = false) :
    { t with kind := (newType t kv qs ftype).1 : Tensor }.Storable := by
  cases hshape : t.shape with
  | nil =>
    have hkind : newType t kv qs ftype = (t.kind, qs) := by rw [newType, hshape]
    rw [hkind]
    exact Tensor.storable_of_row (.inr h) fun nx hnx => by cases hnx
  | cons nx shape =>
    refine Tensor.storable_of_row (.inl (List.cons_ne_nil _ _)) ?_
    rintro _ ⟨⟩
    rw [newType_cons kv qs ftype hshape]
    split
    · exact fallbackType_blockSize _ nx
    · rw [TensorType.blockSize_of_not_quantized h]
      exact Nat.one_dvd _

theorem max_eq_eight {n : UInt32} : max 1 n = 8 ↔ n = 8 := by
  change (if (1 : UInt32) ≤ n then n else 1) = 8 ↔ n = 8
  split
  · rfl
  · rename_i hlt
    constructor
    · intro h
      cases h
    · rintro rfl
      exact absurd (by decide) hlt

/-- With kinds that are not in blocks, only the tensors with a kind of their own are quantized. -/
theorem adjustType_float (kv : KV) (qs : QuantizeState) {ftype : FileType} (hfloat : ftype.IsFloat)
    (name : Text) (nx : UInt64) :
    (adjustType kv qs ftype.toTensorType name nx ftype).1 =
      if name = ascii "output.weight" ∨ name = ascii "output_norm.weight" ∨
        (!qs.hasOutput && name = ascii "token_embd.weight") then .q6_K
      else if kv.uint (ascii "expert_count") 0 = 8 ∧
        (contains name (ascii "attn_v.weight") ∨ contains name (ascii "attn_k.weight")) then .q8_0
      else ftype.toTensorType := by
  have hone : nx % ftype.toTensorType.blockSize = 0 := by
    rw [mod_eq_zero_iff]
    rcases hfloat with rfl | rfl | rfl <;> exact Nat.one_dvd _
  have hne : ftype.toTensorType ≠ .q8_0 := by
    rcases hfloat with rfl | rfl | rfl <;> decide
  have hm : ftype ≠ .q4_K_M := by
    rcases hfloat with rfl | rfl | rfl <;> decide
  have hs : ftype ≠ .q4_K_S := by
    rcases hfloat with rfl | rfl | rfl <;> decide
  unfold adjustType
  simp only [hone, hne, hm, hs, max_eq_eight, ne_eq, not_true_eq_false, not_false_eq_true, if_true,
    if_false, false_and, and_false, or_self]
  split
  · rfl
  · cases contains name (ascii "attn_v.weight") with
    | true => simp
    | false =>
      cases contains name (ascii "attn_k.weight") with
      | true => simp
      | false =>
        simp only [Bool.false_eq_true, if_false, or_self, and_false, ite_self]
        split
        · rfl
        · rfl

theorem uint_set_fileType (kv : KV) (ftype : FileType) :
    (kv.set (ascii "general.file_type") (.fileType ftype)).uint (ascii "expert_count") 0 =
      kv.uint (ascii "expert_count") 0 := by
  have harch : (kv.set (ascii "general.file_type") (.fileType ftype)).architecture =
      kv.architecture := by
    rw [KV.architecture, KV.set, if_neg (by decide)]
    rfl
  have hfull : (kv.set (ascii "general.file_type") (.fileType ftype)).fullKey (ascii "expert_count") =
      kv.fullKey (ascii "expert_count") := by
    rw [KV.fullKey, KV.fullKey, harch]
  have hne : kv.fullKey (ascii "expert_count") ≠ ascii "general.file_type" := by
    intro heq
    have hlast := congrArg List.getLast? heq
    have hcount : (ascii "expert_count").getLast? = some 116 := by decide
    have htype : (ascii "general.file_type").getLast? = some 101 := by decide
    rw [KV.fullKey, if_pos (by decide), List.getLast?_append, hcount, htype] at hlast
    cases hlast
  rw [KV.uint, KV.uint, hfull, KV.set, if_neg hne]

/-- What a tensor is given in a file whose tensors are not in blocks. -/
theorem newType_isQuantized (kv : KV) (qs : QuantizeState) {ftype : FileType}
    (hfloat : ftype.IsFloat) {t : Tensor} (h : t.kind.isQuantized = false) :
    (newType t kv qs ftype).1.isQuantized = true ↔
      quantizable t = true ∧ (∃ nx ∈ t.shape.head?, 32 ∣ nx.toNat) ∧
        (t.name = ascii "output.weight" ∨
          (t.name = ascii "token_embd.weight" ∧ qs.hasOutput = false) ∨
          (kv.uint (ascii "expert_count") 0 = 8 ∧
            (contains t.name (ascii "attn_v.weight") ∨
              contains t.name (ascii "attn_k.weight")))) := by
  have hdefault : ftype.toTensorType.isQuantized = false := by
    rcases hfloat with rfl | rfl | rfl <;> rfl
  cases hshape : t.shape with
  | nil =>
    have hkind : newType t kv qs ftype = (t.kind, qs) := by rw [newType, hshape]
    rw [hkind, h]
    simp
  | cons nx shape =>
    rw [newType_cons kv qs ftype hshape]
    cases hquantizable : quantizable t with
    | false => simp [h]
    | true =>
      have hnorm : t.name ≠ ascii "output_norm.weight" := by
        intro hname
        have hcontains : contains t.name (ascii "_norm.weight") = true := by
          rw [hname]
          decide
        simp [quantizable, hcontains] at hquantizable
      rw [if_pos rfl]
      change (fallbackType (adjustType kv qs ftype.toTensorType t.name nx ftype).1
        nx).isQuantized = true ↔ _
      rw [adjustType_float kv qs hfloat]
      simp only [hnorm, false_or, Bool.and_eq_true, Bool.not_eq_true', decide_eq_true_eq,
        List.head?_cons, Option.mem_some_iff, exists_eq_left', true_and]
      split
      · rename_i hout
        rw [fallbackType_isQuantized (.inl rfl)]
        exact ⟨fun hdvd => ⟨hdvd, hout.imp_right fun h => .inl h.symm⟩, And.left⟩
      · rename_i hout
        split
        · rename_i hexperts
          rw [fallbackType_isQuantized (.inr rfl)]
          exact ⟨fun hdvd => ⟨hdvd, .inr (.inr hexperts)⟩, And.left⟩
        · rename_i hexperts
          rw [fallbackType_float hdefault, hdefault]
          refine ⟨nofun, ?_⟩
          rintro ⟨-, hname | hname | hname⟩
          · exact absurd (.inl hname) hout
          · exact absurd (.inr hname.symm) hout
          · exact absurd hname hexperts

/-! ### All tensors -/

theorem newType_hasOutput (t : Tensor) (kv : KV) (qs : QuantizeState) (ftype : FileType) :
    (newType t kv qs ftype).2.hasOutput = qs.hasOutput := by
  have hadjust (default : TensorType) (nx : UInt64) :
      (adjustType kv qs default t.name nx ftype).2.hasOutput = qs.hasOutput := by
    unfold adjustType
    dsimp only
    repeat' split
    all_goals rfl
  cases hshape : t.shape with
  | nil => rw [newType, hshape]
  | cons nx shape =>
    rw [newType_cons kv qs ftype hshape]
    split
    · exact hadjust ..
    · rfl

theorem quantizeFrom_storable (kv : KV) (ftype : FileType) {tensors : List Tensor}
    (h : ∀ t ∈ tensors, t.kind.isQuantized = false) (qs : QuantizeState) :
    ∀ t ∈ quantizeFrom kv ftype qs tensors, t.Storable := by
  induction tensors generalizing qs with
  | nil => exact nofun
  | cons t tensors ih =>
    intro u hu
    rcases List.mem_cons.mp hu with rfl | hu
    · exact newType_storable kv qs ftype (h t List.mem_cons_self)
    · exact ih (fun t ht => h t (List.mem_cons_of_mem _ ht)) _ u hu

/-- Some tensor is written in blocks exactly if one was read that gets such a kind. -/
theorem quantizeFrom_isQuantized (kv : KV) {ftype : FileType} (hfloat : ftype.IsFloat)
    {tensors : List Tensor} (h : ∀ t ∈ tensors, t.kind.isQuantized = false) (qs : QuantizeState) :
    (∃ t ∈ quantizeFrom kv ftype qs tensors, t.kind.isQuantized = true) ↔
      ∃ t ∈ tensors, quantizable t = true ∧ (∃ nx ∈ t.shape.head?, 32 ∣ nx.toNat) ∧
        (t.name = ascii "output.weight" ∨
          (t.name = ascii "token_embd.weight" ∧ qs.hasOutput = false) ∨
          (kv.uint (ascii "expert_count") 0 = 8 ∧
            (contains t.name (ascii "attn_v.weight") ∨
              contains t.name (ascii "attn_k.weight")))) := by
  induction tensors generalizing qs with
  | nil => simp [quantizeFrom]
  | cons t tensors ih =>
    have ih := ih (fun t ht => h t (List.mem_cons_of_mem _ ht)) (newType t kv qs ftype).2
    rw [newType_hasOutput] at ih
    rw [quantizeFrom]
    simp only [List.exists_mem_cons_iff]
    rw [ih, newType_isQuantized kv qs hfloat (h t List.mem_cons_self)]

theorem overridden_iff (kv : KV) (tensors : List Tensor) (t : Tensor) :
    Overridden kv tensors t ↔ t.name = ascii "output.weight" ∨
      (t.name = ascii "token_embd.weight" ∧ (quantizeState tensors).hasOutput = false) ∨
        (kv.uint (ascii "expert_count") 0 = 8 ∧
          (contains t.name (ascii "attn_v.weight") ∨ contains t.name (ascii "attn_k.weight"))) := by
  rw [Overridden, ← quantizeState_hasOutput, Bool.not_eq_true]

/-- The rows of every tensor are whole blocks of the kind it is given. A file type without blocks is
kept to exactly when no tensor is quantized that gets a kind of its own. -/
theorem quantize_kinds (kv : KV) (tensors : List Tensor) (ftype : FileType)
    (h : ∀ t ∈ tensors, t.kind = .f16 ∨ t.kind = .f32) :
    ((∀ t ∈ quantize kv tensors ftype, t.Storable) ∧
        (ftype.IsFloat → ∀ t ∈ quantize kv tensors ftype, t.kind.isQuantized = false)) ↔
      (ftype.IsFloat → ∀ t ∈ tensors, quantizable t = true → Overridden kv tensors t →
        ∀ nx ∈ t.shape.head?, ¬32 ∣ nx.toNat) := by
  have hkind : ∀ t ∈ tensors, t.kind.isQuantized = false := by
    intro t ht
    rcases h t ht with hf | hf <;> rw [hf] <;> rfl
  have hstorable : ∀ t ∈ quantize kv tensors ftype, t.Storable :=
    quantizeFrom_storable _ ftype hkind _
  rw [and_iff_right hstorable]
  refine imp_congr_right fun hfloat => ?_
  have hquantized := quantizeFrom_isQuantized
    (kv.set (ascii "general.file_type") (.fileType ftype)) hfloat hkind (quantizeState tensors)
  rw [uint_set_fileType] at hquantized
  simp only [← overridden_iff] at hquantized
  constructor
  · intro hnone t ht hq hover nx hnx hdvd
    obtain ⟨u, hu, huq⟩ := hquantized.mpr ⟨t, ht, hq, ⟨nx, hnx, hdvd⟩, hover⟩
    rw [hnone u hu] at huq
    cases huq
  · intro hnone u hu
    by_contra huq
    rw [Bool.not_eq_false] at huq
    obtain ⟨t, ht, hq, ⟨nx, hnx, hdvd⟩, hover⟩ := hquantized.mp ⟨u, hu, huq⟩
    exact hnone t ht hq hover nx hnx hdvd

/-- A block and the output, of 16-bit numbers. -/
def tinyModel : List Tensor :=
  [{ name := ascii "blk.0.attn_q.weight", kind := .f16, shape := [512, 2] },
    { name := ascii "output.weight", kind := .f16, shape := [256, 4] }]

theorem tinyModel_kinds : (∀ t ∈ quantize (fun _ => none) tinyModel .q4_K_M, t.Storable) ∧
    (FileType.q4_K_M.IsFloat →
      ∀ t ∈ quantize (fun _ => none) tinyModel .q4_K_M, t.kind.isQuantized = false) := by
  refine (quantize_kinds (fun _ => none) tinyModel .q4_K_M (by decide)).mpr fun hfloat => ?_
  rcases hfloat with h | h | h <;> cases h

/-- The model is asked for in 32-bit numbers, and its output is quantized. -/
theorem tinyModel_f32 : parseFileType (ascii "F32") = some .f32 ∧
    (∀ t ∈ tinyModel, t.kind = .f16 ∨ t.kind = .f32) ∧
    ¬((∀ t ∈ quantize (fun _ => none) tinyModel .f32, t.Storable) ∧
      (FileType.f32.IsFloat →
        ∀ t ∈ quantize (fun _ => none) tinyModel .f32, t.kind.isQuantized = false)) := by
  refine ⟨by decide, by decide, fun h => ?_⟩
  have hkinds := h.2 (.inr (.inl rfl))
  revert hkinds
  decide

end Ecco9.Quantize
