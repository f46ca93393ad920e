import Ecco9.Ggml.RoundTrip
import Ecco9.Gguf.Agreement

/-! The readers of `fs/ggml` and `fs/gguf`: what `Decode` finds in a file, `Open` finds in it too. -/

namespace Ecco9.Gguf

open Ecco9.Library

/-! ### Reading the same -/

/-- A reader is where a source is. -/
def At (rs : Ggml.Source) (r : Reader) : Prop := r = ⟨rs.rest, rs.pos⟩

theorem mirrors_readFull (n : Nat) :
    Mirrors At (fun b b' => b' = b ∧ b.length = n) (Ggml.readFull n) (readFull n) := by
  rintro rs _ b rs' rfl h
  by_cases hn : n ≤ rs.rest.length
  · cases (Ggml.readFull_ok hn).symm.trans h
    refine ⟨_, _, if_pos hn, ?_, rfl, List.length_take_of_le hn⟩
    rw [At, ReadSeeker.rest, ReadSeeker.rest, List.drop_drop]
  · obtain ⟨e, rs'', herr⟩ := Ggml.readFull_error hn
    cases herr.symm.trans h

theorem littleEndian_lt (b : Text) : littleEndian b < 256 ^ b.length := by
  induction b with
  | nil => exact Nat.one_pos
  | cons b s ih =>
    have := b.toNat_lt
    rw [littleEndian, List.length_cons, Nat.pow_succ]
    omega

theorem readMany_eq {α : Type} (read : Read α) (n : Nat) : readMany read n = repeated read n := by
  induction n with
  | zero => rfl
  | succ n ih => rw [readMany, repeated, ih]

/-- A check passes over nothing. -/
theorem check_ok {p : Prop} [Decidable p] {rs rs' : Ggml.Source} {u : Unit}
    (h : Ggml.check p rs = .ok u rs') : rs' = rs ∧ p := by
  rw [Ggml.check] at h
  split at h
  · rename_i hp
    cases h
    exact ⟨rfl, hp⟩
  · cases h

theorem makeBuffer_ok {length : Int} {rs rs' : Ggml.Source} {u : Unit}
    (h : Ggml.makeBuffer length rs = .ok u rs') : rs' = rs ∧ 0 ≤ length := by
  rw [Ggml.makeBuffer] at h
  split at h
  · exact (check_ok h).imp_right And.left
  · exact check_ok h

theorem int_toNat {n : UInt64} (h : 0 ≤ Ggml.int n) : (Ggml.int n).toNat = n.toNat := by
  have hint : Ggml.int n = n.toBitVec.toInt := rfl
  have hlt := n.toBitVec.isLt
  rw [hint, BitVec.toInt_eq_toNat_cond] at h ⊢
  split at h
  · rename_i hhalf
    rw [if_pos hhalf]
    rfl
  · omega

theorem mirrors_failing {α β : Type} {V : α → β → Prop} {x : Ggml.Decoding α} {y : Read β} (what : String)
    (h : Mirrors At V x y) : Mirrors At V (Ggml.failing what x) y := by
  intro rs r a rs' hr heq
  rw [Ggml.failing] at heq
  split at heq
  · cases heq
  · exact h rs r a rs' hr heq

/-! ### Values -/

/-- The value, where all of it was kept. -/
def kept : Ggml.Value → Option Value
  | .plain v => some v
  | .array t _ (some values) => some (.array t values)
  | .array _ _ none => none

/-- The key value, as it is read here. -/
def keyValueOf (kv : Text × Ggml.Value) : KeyValue := ⟨kv.1, kept kv.2⟩

def tensorInfoOf (t : Ggml.Tensor) : TensorInfo := ⟨t.name, t.offset, t.shape, t.kind⟩

/-- How the values of a type are read that are neither strings nor arrays. -/
theorem readOne_scalar {t : UInt32} {width : Nat} {value : Nat → Value}
    (h : Ggml.scalar t = some (width, value)) :
    ∃ of : Nat → Value, readOne t = some (do return of (← readNat width)) ∧
      ∀ n < 256 ^ width, of n = value n := by
  unfold Ggml.scalar at h
  split at h <;> cases h <;> rename_i ht
  all_goals
    simp only [readOne, ht, readUint8, readUint16, readUint32, readUint64, bind_assoc, pure_bind,
      Option.some.injEq]
  case h_8.refl =>
    refine ⟨_, rfl, fun n hn => congrArg Value.bool ?_⟩
    have hzero : UInt8.ofNat n = 0 ↔ n = 0 := by
      rw [← UInt8.toNat_inj, UInt8.toNat_ofNat', UInt8.toNat_zero]
      omega
    rw [Bool.eq_iff_iff, bne_iff_ne, bne_iff_ne, ne_eq, ne_eq, hzero]
  all_goals exact ⟨_, rfl, fun _ _ => rfl⟩

section

variable {c : Ggml.Container}

theorem mirrors_readNat (order : c.order = .littleEndian) (width : Nat) :
    Mirrors At (fun n n' => n' = n ∧ n < 256 ^ width) (c.readNat width) (readNat width) := by
  refine (mirrors_readFull width).map ?_
  rintro _ b ⟨rfl, hlen⟩
  rw [order, Ggml.ByteOrder.nat]
  exact ⟨rfl, hlen ▸ littleEndian_lt b⟩

theorem mirrors_readUint32 (order : c.order = .littleEndian) :
    Mirrors At (fun n n' => n' = n) c.readUint32 readUint32 :=
  (mirrors_readNat order 4).map fun _ _ h => congrArg UInt32.ofNat h.1

theorem mirrors_readUint64 (order : c.order = .littleEndian) :
    Mirrors At (fun n n' => n' = n) c.readUint64 readUint64 :=
  (mirrors_readNat order 8).map fun _ _ h => congrArg UInt64.ofNat h.1

theorem mirrors_readString (order : c.order = .littleEndian) (version : c.version ≠ 1) :
    Mirrors At (fun s s' => s' = s) c.readGGUFString readString := by
  rw [Ggml.Container.readGGUFString, if_neg version]
  refine (mirrors_readUint64 order).bind ?_
  rintro _ n rfl
  refine Mirrors.after (fun _ _ _ => makeBuffer_ok) fun _ hn => ?_
  rw [int_toNat hn]
  intro rs r b rs' hr heq
  obtain ⟨b', r', hb', hr', rfl, -⟩ := mirrors_readFull n.toNat rs r b rs' hr heq
  exact ⟨b', r', hb', hr', rfl⟩

theorem forall₂_map {α β : Type} {f : α → β} {as : List α} {bs : List β}
    (h : List.Forall₂ (fun a b => b = f a) as bs) : bs = as.map f := by
  induction h with
  | nil => rfl
  | cons hab _ ih => rw [List.map_cons, hab, ih]

theorem mirrors_many {α β : Type} {x : Ggml.Decoding α} {y : Read β} {f : α → β}
    (h : Mirrors At (fun a b => b = f a) x y) (n : Nat) :
    Mirrors At (fun as bs => bs = as.map f) (repeated x n) (readMany y n) := by
  rw [readMany_eq]
  intro rs r as rs' hr heq
  obtain ⟨bs, r', hbs, hr', hall⟩ := h.repeated n rs r as rs' hr heq
  exact ⟨bs, r', hbs, hr', forall₂_map hall⟩

theorem mirrors_scalar (order : c.order = .littleEndian) {t : UInt32} {width : Nat} {value : Nat → Value}
    (h : Ggml.scalar t = some (width, value)) :
    ∃ read, readOne t = some read ∧ Mirrors At (fun n v => v = value n) (c.readNat width) read := by
  obtain ⟨of, hread, hof⟩ := readOne_scalar h
  refine ⟨_, hread, ?_⟩
  intro rs r n rs' hr heq
  obtain ⟨m, r', hm, hr', rfl, hlt⟩ := mirrors_readNat order width rs r n rs' hr heq
  exact ⟨of m, r', bind_of_ok hm _, hr', hof m hlt⟩

theorem readOne_string {t : UInt32} (h : t = Ggml.typeString) :
    readOne t = some (do return .string (← readString)) := by
  rw [h]
  rfl

/-- The elements of an array that is kept. -/
theorem mirrors_arrayData (order : c.order = .littleEndian) (version : c.version ≠ 1) {t : UInt32}
    {size : Nat} (hsize : Ggml.elemSize t = some size) {n : Int} (keeps : c.Keeps n) :
    ∃ read, readOne t = some read ∧
      Mirrors At (fun values elems => values = some elems) (c.readGGUFArrayData t n) (readMany read n.toNat) := by
  rw [Ggml.Container.readGGUFArrayData]
  cases hscalar : Ggml.scalar t with
  | some wv =>
    obtain ⟨width, value⟩ := wv
    obtain ⟨read, hread, mirrors⟩ := mirrors_scalar order hscalar
    refine ⟨read, hread, ?_⟩
    simp only [if_pos keeps]
    intro rs r values rs' hr heq
    obtain ⟨elems, s, helems, hvalues⟩ := bind_eq_ok heq
    cases hvalues
    obtain ⟨bs, r', hbs, hr', rfl⟩ := mirrors_many mirrors n.toNat rs r elems rs' hr helems
    exact ⟨_, r', hbs, hr', rfl⟩
  | none =>
    have hstring : t = Ggml.typeString := by
      by_contra hne
      rw [Ggml.elemSize, if_neg hne, hscalar] at hsize
      cases hsize
    refine ⟨_, readOne_string hstring, ?_⟩
    dsimp only
    rw [if_pos keeps]
    have one : Mirrors At (fun s v => v = Value.string s) c.readGGUFString
        (do return .string (← readString)) := by
      intro rs r s rs' hr heq
      obtain ⟨b, r', hb, hr', rfl⟩ := mirrors_readString order version rs r s rs' hr heq
      exact ⟨_, r', bind_of_ok hb _, hr', rfl⟩
    intro rs r values rs' hr heq
    obtain ⟨elems, s, helems, hvalues⟩ := bind_eq_ok heq
    cases hvalues
    obtain ⟨bs, r', hbs, hr', rfl⟩ := mirrors_many one n.toNat rs r elems rs' hr helems
    exact ⟨_, r', hbs, hr', rfl⟩

theorem newArray_ok {size : Nat} {n : Int} (keeps : c.Keeps n) {rs rs' : Ggml.Source} {u : Unit}
    (h : c.newArray size n rs = .ok u rs') : rs' = rs ∧ 0 ≤ n := by
  rw [Ggml.Container.newArray, if_pos keeps] at h
  exact (check_ok h).imp_right And.left

theorem mirrors_readArray (order : c.order = .littleEndian) (version : c.version ≠ 1)
    (all : c.maxArraySize < 0) :
    Mirrors At (fun v w => kept v = some w) c.readGGUFArray readArray := by
  rw [Ggml.Container.readGGUFArray, readArray]
  refine (mirrors_readUint32 order).bind ?_
  rintro _ t rfl
  refine (mirrors_readUint64 order).bind ?_
  rintro _ n rfl
  cases hsize : Ggml.elemSize t with
  | none =>
    intro rs r v rs' _ heq
    cases heq
  | some size =>
    have keeps : c.Keeps (Ggml.int n) := .inl all
    obtain ⟨read, hread, mirrors⟩ := mirrors_arrayData order version hsize keeps
    rw [hread]
    dsimp only
    refine Mirrors.after (fun _ _ _ => newArray_ok keeps) fun _ hn => ?_
    rw [int_toNat hn] at mirrors
    exact mirrors.map fun values elems h => by rw [h]; rfl

theorem mirrors_readValue (order : c.order = .littleEndian) (version : c.version ≠ 1)
    (all : c.maxArraySize < 0) (t : UInt32) :
    Mirrors At (fun v w => kept v = some w) (c.readValue t) (readValue t) := by
  rw [Ggml.Container.readValue, readValue]
  by_cases harray : t = typeArray
  · rw [if_pos harray, if_pos harray]
    exact mirrors_readArray order version all
  · rw [if_neg harray, if_neg harray]
    by_cases hstring : t = Ggml.typeString
    · rw [if_pos hstring, readOne_string hstring]
      exact (mirrors_readString order version).map fun s s' h => by rw [h]; rfl
    · rw [if_neg hstring]
      cases hscalar : Ggml.scalar t with
      | none =>
        intro rs r v rs' _ heq
        cases heq
      | some wv =>
        obtain ⟨width, value⟩ := wv
        obtain ⟨read, hread, mirrors⟩ := mirrors_scalar order hscalar
        rw [hread]
        intro rs r v rs' hr heq
        obtain ⟨n, s, hn, hv⟩ := bind_eq_ok heq
        cases hv
        obtain ⟨w, r', hw, hr', rfl⟩ := mirrors rs r n rs' hr hn
        exact ⟨_, r', hw, hr', rfl⟩

theorem mirrors_readKeyValue (order : c.order = .littleEndian) (version : c.version ≠ 1)
    (all : c.maxArraySize < 0) :
    Mirrors At (fun kv k => k = keyValueOf kv) c.readKeyValue readKeyValue := by
  refine (mirrors_readString order version).bind ?_
  rintro _ key rfl
  refine (mirrors_readUint32 order).bind ?_
  rintro _ t rfl
  exact (mirrors_readValue order version all t).map fun v w h => by rw [keyValueOf, h]

theorem mirrors_readTensor (order : c.order = .littleEndian) (version : c.version ≠ 1) :
    Mirrors At (fun t info => info = tensorInfoOf t) c.readTensor readTensor := by
  refine (mirrors_failing _ (mirrors_readString order version)).bind ?_
  rintro _ name rfl
  refine (mirrors_failing _ (mirrors_readUint32 order)).bind ?_
  rintro _ dims rfl
  refine Mirrors.after (fun _ _ _ => check_ok) fun _ _ => ?_
  have shape : Mirrors At (fun ns ms => ms = ns) (repeated c.readUint64 dims.toNat)
      (readMany readUint64 dims.toNat) := by
    have := mirrors_many (f := id) (mirrors_readUint64 order) dims.toNat
    simpa only [List.map_id] using this
  refine (mirrors_failing _ shape).bind ?_
  rintro _ ns rfl
  refine (mirrors_failing _ (mirrors_readUint32 order)).bind ?_
  rintro _ kind rfl
  exact (mirrors_failing _ (mirrors_readUint64 order)).map fun offset _ h => by rw [h]; rfl

end

/-! ### Files -/

/-- The alignment that is asked for, or that of a file that asks for none. -/
def Contents.alignment (c : Contents) : Int64 :=
  let alignment := Value.int (c.keyValue (ascii "general.alignment")).value
  if alignment = 0 then 32 else alignment

/-- The reader at a source. -/
def view (rs : Ggml.Source) : Reader := ⟨rs.rest, rs.pos⟩

theorem readFull_view {n : Nat} {rs rs' : Ggml.Source} {b : Text} (h : Ggml.readFull n rs = .ok b rs') :
    readFull n (view rs) = .ok b (view rs') := by
  obtain ⟨_, _, hread, rfl, rfl, -⟩ := mirrors_readFull n rs (view rs) b rs' rfl h
  exact hread

/-- What comes in one piece there comes in two here. -/
theorem readFull_split {n m : Nat} {rs rs' : Ggml.Source} {b : Text}
    (h : Ggml.readFull (n + m) rs = .ok b rs') :
    ∃ r, readFull n (view rs) = .ok (b.take n) r ∧ readFull m r = .ok (b.drop n) (view rs') := by
  by_cases hlen : n + m ≤ rs.rest.length
  · cases (Ggml.readFull_ok hlen).symm.trans h
    have hn : n ≤ rs.rest.length := by omega
    have hm : m ≤ (rs.rest.drop n).length := by rw [List.length_drop]; omega
    have hend : view { rs with pos := rs.pos + (n + m) } = ⟨(rs.rest.drop n).drop m, rs.pos + n + m⟩ := by
      simp only [view, ReadSeeker.rest, List.drop_drop, Nat.add_assoc]
    rw [List.take_take, Nat.min_eq_left (Nat.le_add_right ..), List.drop_take, Nat.add_sub_cancel_left, hend]
    exact ⟨⟨rs.rest.drop n, rs.pos + n⟩, if_pos hn, if_pos hm⟩
  · obtain ⟨e, rs'', herr⟩ := Ggml.readFull_error hlen
    cases herr.symm.trans h

/-- The magic, the version and the counts. -/
theorem readStart_ok {magic version counts : Text} {rs₀ rs₁ rs₂ rs₃ : Ggml.Source}
    (hmagic : Ggml.readFull 4 rs₀ = .ok magic rs₁) (hversion : Ggml.readFull 4 rs₁ = .ok version rs₂)
    (hcounts : Ggml.readFull 16 rs₂ = .ok counts rs₃) (hgguf : magic ≠ ascii "gguf")
    (hlate : ¬UInt32.ofNat (littleEndian version) < 2) :
    readStart (view rs₀) =
      .ok (.ofNat (littleEndian (counts.take 8)), .ofNat (littleEndian (counts.drop 8))) (view rs₃) := by
  obtain ⟨r, htensors, hkeyValues⟩ := readFull_split (n := 8) (m := 8) hcounts
  have hu32 : readUint32 (view rs₁) = .ok (.ofNat (littleEndian version)) (view rs₂) := by
    rw [readUint32, readNat, bind_assoc, bind_of_ok (readFull_view hversion)]
    rfl
  have hu64 {b : Text} {r r' : Reader} (h : readFull 8 r = .ok b r') :
      readUint64 r = .ok (.ofNat (littleEndian b)) r' := by
    rw [readUint64, readNat, bind_assoc, bind_of_ok h]
    rfl
  rw [readStart, bind_of_ok (readFull_view hmagic)]
  simp only [if_neg hgguf]
  rw [bind_of_ok hu32]
  simp only [if_neg hlate]
  rw [bind_of_ok (hu64 htensors), bind_of_ok (hu64 hkeyValues)]
  rfl

theorem seekCurrent_pos {rs rs' : Ggml.Source} {n : Int64} (h : Ggml.seekCurrent 0 rs = .ok n rs') :
    n = .ofNat rs.pos := by
  by_cases hpos : 0 ≤ wrap64 rs.pos
  · rw [Ggml.seekCurrent, Int64.toInt_zero, Ggml.seek_zero, if_pos hpos] at h
    rw [← (EStateM.Result.ok.inj h).1, ← Int64.toInt_inj, Int64.toInt_ofNat', Int64.toInt_ofNat',
      Int.toNat_of_nonneg hpos]
    exact Int.bmod_bmod
  · cases (Ggml.seekCurrent_error hpos).symm.trans h

theorem ggufPadding_ok {offset alignment padding : Int64} {rs rs' : Ggml.Source}
    (h : Ggml.ggufPadding offset alignment rs = .ok padding rs') :
    alignment ≠ 0 ∧ padding = (alignment - offset % alignment) % alignment := by
  obtain ⟨_, _, hcheck, h⟩ := bind_eq_ok h
  cases h
  exact ⟨(check_ok hcheck).2, rfl⟩

/-- The data begin behind the header, where the alignment says. -/
theorem decodeData_ok {kv : Ggml.KV} {tensors : List Ggml.Tensor} {parameters : UInt64}
    {rs rs' : Ggml.Source} {m : Ggml.Model} (h : Ggml.decodeData kv tensors parameters rs = .ok m rs') :
    m.kv = kv ∧ m.tensors = tensors ∧
      m.tensorOffset = (align rs.pos kv.alignment.toUInt64.toInt64).toUInt64 := by
  obtain ⟨offset, rs₁, hoffset, h⟩ := bind_eq_ok h
  obtain ⟨padding, rs₂, hpadding, h⟩ := bind_eq_ok h
  obtain ⟨_, rs₃, -, h⟩ := bind_eq_ok h
  cases h
  obtain ⟨hne, rfl⟩ := ggufPadding_ok hpadding
  rw [seekCurrent_pos hoffset, align]
  dsimp only
  rw [if_neg hne]
  exact ⟨rfl, rfl, rfl⟩

/-- A header here says what the model says there. Of a key that comes twice the model has the last value,
and the data begin at the same place if the alignment is the same. -/
structure Agrees (c : Contents) (m : Ggml.Model) : Prop where
  values : ∀ key, key ≠ ascii "general.parameter_count" →
    (m.kv.lookup key).map kept = (c.keyValues.reverse.find? (·.key = key)).map KeyValue.value
  tensors : c.tensors = m.tensors.map tensorInfoOf
  offset : c.alignment = m.kv.alignment.toUInt64.toInt64 → c.offset.toUInt64 = m.tensorOffset

theorem magic_gguf {magic : Text} (h : littleEndian magic = Ggml.magicLE) : magic ≠ ascii "gguf" := by
  rintro rfl
  exact absurd h (by decide)

theorem byteOrder_little {magic : Nat} {rs rs' : Ggml.Source}
    (h : Ggml.byteOrder magic rs = .ok .littleEndian rs') : magic = Ggml.magicLE ∧ rs' = rs := by
  rw [Ggml.byteOrder] at h
  split_ifs at h with hle
  · cases h
    exact ⟨hle, rfl⟩
  · cases h
  · cases h

/-- The last value of a key. -/
theorem find?_keyValues (keyValues : List (Text × Ggml.Value)) (key : Text) :
    ((keyValues.reverse.find? fun kv => kv.1 = key).map Prod.snd).map kept =
      ((keyValues.map keyValueOf).reverse.find? (·.key = key)).map KeyValue.value := by
  rw [← List.map_reverse, List.find?_map, Option.map_map, Option.map_map]
  rfl

/-- The header that has been read when the tensors have been. -/
def contentsAt (keyValues : List KeyValue) (tensors : List TensorInfo) (r : Reader) : Contents :=
  let contents : Contents := { keyValues, tensors, offset := 0 }
  { contents with
    offset := align r.offset (Value.int (contents.keyValue (ascii "general.alignment")).value) }

theorem contentsAt_offset (keyValues : List KeyValue) (tensors : List TensorInfo) (r : Reader) :
    (contentsAt keyValues tensors r).offset = align r.offset (contentsAt keyValues tensors r).alignment := by
  have hsame : (contentsAt keyValues tensors r).alignment =
      Contents.alignment { keyValues, tensors, offset := 0 } := rfl
  rw [hsame, contentsAt, Contents.alignment, align, align]
  dsimp only
  split_ifs <;> rfl

/-- The header behind the counts. -/
theorem readHeader_of_decode {c : Ggml.Container} (order : c.order = .littleEndian) (version : c.version ≠ 1)
    (all : c.maxArraySize < 0) {rs rs' : Ggml.Source} {m : Ggml.Model} (h : c.decode rs = .ok m rs') :
    ∃ keyValues tensors r r', readMany readKeyValue c.numKV.toNat (view rs) = .ok keyValues r ∧
      readMany readTensor c.numTensor.toNat r = .ok tensors r' ∧
      Agrees (contentsAt keyValues tensors r') m := by
  obtain ⟨keyValues, rs₁, hkeyValues, h⟩ := bind_eq_ok h
  obtain ⟨tensors, rs₂, htensors, h⟩ := bind_eq_ok h
  obtain ⟨hkv, htold, hoffset⟩ := decodeData_ok h
  obtain ⟨_, _, hread, rfl, rfl⟩ := mirrors_many (mirrors_readKeyValue order version all) _ rs (view rs)
    keyValues rs₁ rfl hkeyValues
  obtain ⟨_, _, hread', rfl, rfl⟩ := mirrors_many (mirrors_readTensor order version) _ rs₁ (view rs₁)
    tensors rs₂ rfl htensors
  refine ⟨_, _, _, _, hread, hread', ?_, ?_, ?_⟩
  · intro key hkey
    rw [hkv, AList.lookup_insert_ne hkey, lookup_assign, AList.lookup_empty, Option.or_none]
    exact find?_keyValues keyValues key
  · rw [htold]
    rfl
  · intro halign
    rw [hoffset, contentsAt_offset, halign, hkv]

/-- What `Decode` accepts can be read here. -/
theorem readContents_of_decode {bytes : Text} {ggml : Ggml.GGML}
    (h : Ggml.decodeFile bytes (-1) = .ok ggml) (order : ggml.container.order = .littleEndian)
    (version : 2 ≤ ggml.container.version) :
    ∃ c r, readContents ⟨bytes, 0⟩ = .ok c r ∧ Agrees c ggml.model := by
  rw [Ggml.decodeFile] at h
  split at h <;> cases h
  rename_i rs' hdecode
  obtain ⟨magic, rs₁, hmagic, hdecode⟩ := bind_eq_ok hdecode
  obtain ⟨order', rs₂, horder, hdecode⟩ := bind_eq_ok hdecode
  obtain ⟨⟨c, m⟩, rs₃, hcontainer, hdecode⟩ := bind_eq_ok hdecode
  obtain ⟨length, rs₄, -, hdecode⟩ := bind_eq_ok hdecode
  cases hdecode
  obtain ⟨v, rs₅, hversion, hcontainer⟩ := bind_eq_ok hcontainer
  obtain ⟨counts, rs₆, hcounts, hcontainer⟩ := bind_eq_ok hcontainer
  obtain ⟨m', rs₇, hc, hcontainer⟩ := bind_eq_ok hcontainer
  cases hcontainer
  obtain rfl : order' = .littleEndian := order
  obtain ⟨hmagicLE, rfl⟩ := byteOrder_little horder
  have hlate : ¬UInt32.ofNat (littleEndian v) < 2 := UInt32.not_lt.mpr version
  have hversion1 : UInt32.ofNat (littleEndian v) ≠ 1 := by
    intro h1
    rw [h1] at hlate
    exact hlate (by decide)
  have hwidth : (if UInt32.ofNat (Ggml.ByteOrder.nat .littleEndian v) = 1 then 4 else 8) = 8 := if_neg hversion1
  simp only [hwidth] at hc hcounts
  have hstart := readStart_ok hmagic hversion hcounts (magic_gguf hmagicLE) hlate
  obtain ⟨keyValues, tensors, r, r', hkeyValues, htensors, agrees⟩ :=
    readHeader_of_decode rfl hversion1 (show (-1 : Int) < 0 by decide) hc
  refine ⟨contentsAt keyValues tensors r', r', ?_, agrees⟩
  have hview : view ⟨bytes, 0⟩ = ⟨bytes, 0⟩ := rfl
  rw [hview] at hstart
  rw [readContents, bind_of_ok hstart]
  refine (bind_of_ok hkeyValues _).trans ((bind_of_ok htensors _).trans ?_)
  rfl

/-- Where a header can be read, the file answers all calls from it. -/
theorem open_answers {bytes : Text} {c : Contents} {r : Reader} (h : readContents ⟨bytes, 0⟩ = .ok c r) :
    ∃ f, openFile bytes = .ok f ∧ ∀ calls : List Call,
      answers fileMethods.call { file := f } calls = answers contentsMethods.call { file := c } calls := by
  obtain ⟨f, middle, last, hopen, layout, early⟩ := open_early h
  exact ⟨f, hopen, (simulates layout).answers_eq ⟨rfl, rfl, .inl early, by simp⟩⟩

/-- The byte order and the version. -/
def kindOf : Except Ggml.Stop Ggml.GGML → Option (Ggml.ByteOrder × UInt32)
  | .ok ggml => some (ggml.container.order, ggml.container.version)
  | .error _ => none

section

open Ggml

variable {kv : Metadata} {ts : List TensorSource} {placed : List (TensorSource × Nat)} {rest : Text}

/-- What is read of some bytes there is read of them here. -/
theorem mirrors_at {α β : Type} {V : α → β → Prop} {x : Decoding α} {y : Read β} {b : Text} {a : α}
    (mirrors : Mirrors At V x y) (h : Library.Reads x b a) (rest : Text) (n : Nat) :
    ∃ v, y ⟨b ++ rest, n⟩ = .ok v ⟨rest, n + b.length⟩ ∧ V a v := by
  have hlen : (List.replicate n (0 : UInt8)).length = n := List.length_replicate
  have hrest : ReadSeeker.rest ⟨List.replicate n 0 ++ (b ++ rest), n⟩ = b ++ rest := List.drop_left' hlen
  obtain ⟨v, r, hv, hr, hav⟩ := mirrors ⟨List.replicate n 0 ++ (b ++ rest), n⟩ ⟨b ++ rest, n⟩ a _
    (by rw [At, hrest]) (h _ rest hrest)
  refine ⟨v, ?_, hav⟩
  rw [hv, hr, ReadSeeker.rest_past hrest]

theorem readFull_front (b rest : Text) (n : Nat) :
    readFull b.length ⟨b ++ rest, n⟩ = .ok b ⟨rest, n + b.length⟩ := by
  have hle : b.length ≤ (b ++ rest).length := by rw [List.length_append]; omega
  rw [readFull, if_pos hle, List.take_left, List.drop_left]

theorem readNat_digits {width n : Nat} (h : n < 256 ^ width) (rest : Text) (offset : Nat) :
    readNat width ⟨digits width n ++ rest, offset⟩ = .ok n ⟨rest, offset + width⟩ := by
  have hread := readFull_front (digits width n) rest offset
  rw [length_digits] at hread
  rw [readNat, bind_of_ok hread]
  exact congrArg (EStateM.Result.ok · _) (littleEndian_digits h)

/-- The magic, the version and the counts of a file that has been written. -/
theorem readStart_written {n m : Nat} (hn : n < 2 ^ 64) (hm : m < 2 ^ 64) (rest : Text) :
    readStart ⟨ascii "GGUF" ++ (digits 4 3 ++ (digits 8 n ++ (digits 8 m ++ rest))), 0⟩ =
      .ok (.ofNat n, .ofNat m) ⟨rest, 24⟩ := by
  have hmagic : readFull 4 ⟨ascii "GGUF" ++ (digits 4 3 ++ (digits 8 n ++ (digits 8 m ++ rest))), 0⟩ =
      .ok (ascii "GGUF") ⟨digits 4 3 ++ (digits 8 n ++ (digits 8 m ++ rest)), 4⟩ :=
    readFull_front (ascii "GGUF") _ 0
  have hversion := readNat_digits (show 3 < 256 ^ 4 by decide)
    (digits 8 n ++ (digits 8 m ++ rest)) 4
  have htensors := readNat_digits (show n < 256 ^ 8 from hn) (digits 8 m ++ rest) 8
  have hkeyValues := readNat_digits (show m < 256 ^ 8 from hm) rest 16
  rw [readStart, bind_of_ok hmagic]
  simp only [if_neg (show ascii "GGUF" ≠ ascii "gguf" by decide)]
  rw [readUint32, bind_assoc]
  refine (bind_of_ok hversion _).trans ?_
  rw [pure_bind]
  simp only [if_neg (show ¬UInt32.ofNat 3 < 2 by decide)]
  rw [readUint64, bind_assoc, bind_of_ok htensors, pure_bind, bind_assoc, bind_of_ok hkeyValues, pure_bind]
  rfl

/-- The header of a file that has been written. -/
theorem readContents_written (typed : ∀ e ∈ kv.entries, e.2.value.isSome = true)
    (hts : placed.map Prod.fst = ts) (hkv : kv.entries.length < 2 ^ 64) (hlen : ts.length < 2 ^ 64)
    (shapes : ∀ t ∈ ts, t.shape.length < 2 ^ 32) (rest : Text) :
    readContents ⟨header kv (offsets placed) ++ rest, 0⟩ =
      .ok (contentsAt ((kv.sorted.map pair).map keyValueOf) ((told placed).map tensorInfoOf)
        ⟨rest, (header kv (offsets placed)).length⟩) ⟨rest, (header kv (offsets placed)).length⟩ := by
  have hcount : (offsets placed).length = ts.length := by
    rw [offsets, List.length_map, ← hts, List.length_map]
  have hversion : (containerOf kv ts).version ≠ 1 := show (3 : UInt32) ≠ 1 by decide
  obtain ⟨_, hkeyValues, rfl⟩ := mirrors_at (mirrors_many (mirrors_readKeyValue (c := containerOf kv ts) rfl
    hversion (show (-1 : Int) < 0 by decide)) _) (reads_keyValues ts typed hkv)
    ((offsets placed).flatMap tensorBytes ++ rest) 24
  obtain ⟨_, htensors, rfl⟩ := mirrors_at (mirrors_many (mirrors_readTensor (c := containerOf kv ts) rfl
    hversion) _) (reads_tensors kv hts hlen shapes) rest (24 + (kv.sorted.flatMap keyValueBytes).length)
  have hfile : header kv (offsets placed) ++ rest = ascii "GGUF" ++ (digits 4 3 ++ (digits 8 ts.length ++
      (digits 8 kv.entries.length ++ (kv.sorted.flatMap keyValueBytes ++
        ((offsets placed).flatMap tensorBytes ++ rest))))) := by
    rw [header, hcount]
    simp only [List.append_assoc]
  have hend : (header kv (offsets placed)).length = 24 + (kv.sorted.flatMap keyValueBytes).length +
      ((offsets placed).flatMap tensorBytes).length := by
    rw [header]
    simp only [List.length_append, length_digits, show (ascii "GGUF").length = 4 from rfl]
    omega
  rw [hfile, readContents, bind_of_ok (readStart_written hlen hkv _), hend]
  exact (bind_of_ok hkeyValues _).trans ((bind_of_ok htensors _).trans rfl)

theorem lookup_written (kv : Metadata) (typed : ∀ e ∈ kv.entries, e.2.value.isSome = true)
    (tensors : List TensorInfo) (r : Reader) (key : Text) :
    ((contentsAt ((kv.sorted.map pair).map keyValueOf) tensors r).lookup key).value =
      (kv.lookup key).bind fun e => e.value.bind kept := by
  have perm : kv.entries.Perm kv.sorted := (List.mergeSort_perm ..).symm
  have found : kv.sorted.find? (fun e => e.1.1 = key) = kv.entries.find? fun e => e.1.1 = key :=
    find?_eq_of_perm perm kv.nodup key
  have hfind : ((kv.sorted.map pair).map keyValueOf).find? (·.key = key) =
      (kv.entries.find? fun e => e.1.1 = key).map fun e => keyValueOf (pair e) := by
    rw [List.map_map, List.find?_map, ← found]
    rfl
  rw [Contents.lookup, contentsAt, hfind, Metadata.lookup]
  cases hentry : kv.entries.find? fun e => e.1.1 = key with
  | none => rfl
  | some e =>
    obtain ⟨value, hvalue⟩ := Option.isSome_iff_exists.mp (typed e (List.mem_of_find?_eq_some hentry))
    simp [keyValueOf, pair, hvalue]

/-- `Int` of what `WriteGGUF` writes: no number that it writes is signed. -/
theorem int_written (e : Entry) : Value.int (e.value.bind kept) = 0 := by
  cases e <;> rfl

theorem counts_le_header (kv : Metadata) (placed : List (TensorSource × Nat)) :
    kv.entries.length ≤ (header kv (offsets placed)).length ∧
      placed.length ≤ (header kv (offsets placed)).length := by
  have hkvs := le_flatMap_length fun e (_ : e ∈ kv.sorted) => keyValueBytes_ne_nil e
  have hinfos := le_flatMap_length fun t (_ : t ∈ offsets placed) => tensorBytes_ne_nil t
  rw [Metadata.sorted, List.length_mergeSort] at hkvs
  rw [offsets, List.length_map] at hinfos
  simp only [header, List.length_append, Metadata.sorted, offsets]
  omega

/-- What is opened is what was written. -/
structure Opens (kv : Metadata) (ts : List TensorSource) (c : Contents) : Prop where
  values : ∀ key, (c.lookup key).value = (kv.lookup key).bind fun e => e.value.bind kept
  tensors : c.tensors.map (fun t => (t.name, t.type, t.shape)) = ts.map fun t => (t.name.1, t.kind, t.shape)

end

/-- How long the header is that `WriteGGUF` writes for the sorted tensors `ts`. -/
def headerLength (kv : Ggml.Metadata) (ts : List Ggml.TensorSource) : Nat :=
  (Ggml.header kv (Ggml.offsets (Ggml.placeAt kv.alignment.toNat 0 ts))).length

/-- A file that has been written can be opened and has the key values and the tensors that were written.
The data are where the alignment of the file puts them, and are looked for where an alignment to 32 does. -/
theorem writeGGUFFile_opens {sort : Ggml.Arrangement Ggml.TensorSource}
    {schedule : Ggml.Arrangement (Ggml.TensorSource × UInt64)} {kv : Ggml.Metadata}
    {ts : List Ggml.TensorSource} {file : Ggml.File} (shapes : ∀ t ∈ ts, t.shape.length < 2 ^ 32)
    (h : Ggml.writeGGUFFile sort schedule kv ts {} = .ok () file)
    (short : file.content.length + kv.alignment.toNat ≤ 2 ^ 63) :
    ∃ f c, openFile file.content = .ok f ∧
      (∀ calls : List Call, answers fileMethods.call { file := f } calls =
        answers contentsMethods.call { file := c } calls) ∧
      Opens kv (sort.apply ts) c ∧
      c.offset = .ofNat (alignUp 32 (headerLength kv (sort.apply ts))) ∧
      List.Forall₂ (fun (t : TensorInfo) (source : Ggml.TensorSource) =>
        (file.content.drop (alignUp kv.alignment.toNat (headerLength kv (sort.apply ts)) +
          t.offset.toNat)).take source.data.length = source.data) c.tensors (sort.apply ts) := by
  have w := Ggml.writeGGUFFile_places h short
  have hfst := Ggml.map_fst_placeAt kv.alignment.toNat 0 (sort.apply ts)
  rw [headerLength]
  generalize hplaced : Ggml.placeAt kv.alignment.toNat 0 (sort.apply ts) = placed at w hfst
  obtain ⟨rest, hfile⟩ := w.header
  have hpos := w.alignment
  have hlen := congrArg List.length hfile
  rw [List.length_append] at hlen
  obtain ⟨hkvs, hinfos⟩ := counts_le_header kv placed
  have htensors : (sort.apply ts).length = placed.length := by rw [← hfst, List.length_map]
  have hread := readContents_written w.typed hfst (by omega) (by omega)
    (fun t ht => shapes t ((sort.perm ts).mem_iff.mp ht)) rest
  rw [hfile] at hread
  obtain ⟨f, hopen, hcalls⟩ := open_answers hread
  have values := lookup_written kv w.typed ((Ggml.told placed).map tensorInfoOf)
    ⟨rest, (Ggml.header kv (Ggml.offsets placed)).length⟩
  refine ⟨f, _, hopen, hcalls, ⟨values, ?_⟩, ?_, ?_⟩
  · rw [← hfst, contentsAt, Ggml.told, List.map_map, List.map_map, List.map_map]
    rfl
  · have hint : Value.int ((contentsAt ((kv.sorted.map Ggml.pair).map keyValueOf)
        ((Ggml.told placed).map tensorInfoOf)
          ⟨rest, (Ggml.header kv (Ggml.offsets placed)).length⟩).lookup (ascii "general.alignment")).value = 0 := by
      rw [values]
      cases kv.lookup (ascii "general.alignment") with
      | none => rfl
      | some e => exact int_written e
    have hgeneral : isGeneral (ascii "general.alignment") := by decide
    have hkey : (contentsAt ((kv.sorted.map Ggml.pair).map keyValueOf) ((Ggml.told placed).map tensorInfoOf)
        ⟨rest, (Ggml.header kv (Ggml.offsets placed)).length⟩).alignment = 32 := by
      rw [Contents.alignment, Contents.keyValue, if_pos hgeneral, hint]
      rfl
    rw [contentsAt_offset, hkey]
    have hlt : (Ggml.header kv (Ggml.offsets placed)).length < 2 ^ 63 := by omega
    exact Ggml.add_padding_ofNat (by decide) (by decide) hlt
  · rw [← hfst]
    refine List.forall₂_map_right_iff.mpr (List.forall₂_map_left_iff.mpr (List.forall₂_map_left_iff.mpr
      (List.forall₂_same.mpr fun p hp => ?_)))
    have hoffset : (UInt64.ofNat p.2).toNat = p.2 := by
      have := w.bound.2 p hp
      exact UInt64.toNat_ofNat_of_lt' (by rw [UInt64.size]; omega)
    have hdata := w.data p hp
    rw [← hoffset] at hdata
    exact hdata

theorem alignedNumber_opens : ∃ file,
    Ggml.writeGGUFFile Ggml.asGiven Ggml.asGiven Ggml.alignedNumber [Ggml.number] {} = .ok () file ∧
      ∃ f c, openFile file.content = .ok f ∧
        (∀ calls : List Call, answers fileMethods.call { file := f } calls =
          answers contentsMethods.call { file := c } calls) ∧
        Opens Ggml.alignedNumber [Ggml.number] c ∧
        c.offset = .ofNat (alignUp 32 (headerLength Ggml.alignedNumber [Ggml.number])) ∧
        List.Forall₂ (fun (t : TensorInfo) (source : Ggml.TensorSource) =>
          (file.content.drop (alignUp 8 (headerLength Ggml.alignedNumber [Ggml.number]) +
            t.offset.toNat)).take source.data.length = source.data) c.tensors [Ggml.number] := by
  have hsorted : Ggml.alignedNumber.sorted = Ggml.alignedNumber.entries := List.mergeSort_singleton _
  have hwrite : (Ggml.contentOf (Ggml.writeGGUFFile Ggml.asGiven Ggml.asGiven Ggml.alignedNumber
      [Ggml.number] {})).map List.length = some 100 := by
    rw [Ggml.writeGGUFFile, Ggml.writeHeader, hsorted]
    decide +kernel
  rcases hresult : Ggml.writeGGUFFile Ggml.asGiven Ggml.asGiven Ggml.alignedNumber [Ggml.number] {} with
    ⟨⟨⟩, file⟩ | ⟨e, file⟩
  · rw [hresult] at hwrite
    have hlen : file.content.length = 100 := Option.some.inj hwrite
    exact ⟨file, rfl, writeGGUFFile_opens (by decide) hresult (by rw [hlen]; decide)⟩
  · rw [hresult] at hwrite
    cases hwrite

end Ecco9.Gguf
