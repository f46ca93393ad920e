import Ecco9.Ggml.Write

/-! What `WriteGGUF` leaves in the file when it succeeds, and that its key values and tensors are read back
as they were. -/

namespace Ecco9.Ggml

open Ecco9.Library

/-! ### Numbers and strings -/

theorem littleEndian_digits {width n : Nat} (h : n < 256 ^ width) :
    Gguf.littleEndian (digits width n) = n := by
  induction width generalizing n with
  | zero =>
    rw [Nat.pow_zero, Nat.lt_one_iff] at h
    rw [h]
    rfl
  | succ width ih =>
    rw [Nat.pow_succ] at h
    rw [digits, Gguf.littleEndian, ih (Nat.div_lt_of_lt_mul (by omega)), UInt8.toNat_ofNat']
    omega

theorem reads_readFull (b : Text) : Reads (readFull b.length) b b := by
  intro rs rest h
  have hle : b.length ≤ rs.rest.length := by rw [h, List.length_append]; omega
  rw [readFull_ok hle, h, List.take_left]

theorem reads_failing {α : Type} {x : Decoding α} {b : Text} {a : α} (what : String) (h : Reads x b a) :
    Reads (failing what x) b a := fun rs rest hrest => by rw [failing, h rs rest hrest]

theorem reads_check {p : Prop} [Decidable p] (h : p) : Reads (check p : Decoding Unit) [] () := by
  rw [check, if_pos h]
  exact reads_pure ()

theorem reads_makeBuffer {length : Int} (hpos : 0 ≤ length) (hle : length ≤ maxAlloc) :
    Reads (makeBuffer length) [] () := by
  rw [makeBuffer]
  split
  · exact reads_check ⟨hpos, by simpa using hle⟩
  · exact reads_check hpos

/-- A length that there can be in memory is not cut off. -/
theorem int_ofNat {n : Nat} (h : n ≤ maxAlloc) : int (.ofNat n) = n := by
  rw [maxAlloc] at h
  rw [int, UInt64.toInt64_ofNat', Int64.toInt_ofNat']
  exact Int.bmod_eq_of_le (by rw [Int64.size]; omega) (by rw [Int64.size]; omega)

namespace Container

variable {c : Container}

theorem reads_readNat (order : c.order = .littleEndian) {width n : Nat} (h : n < 256 ^ width) :
    Reads (c.readNat width) (digits width n) n := by
  have hread := (reads_readFull (digits width n)).map c.order.nat
  rw [length_digits, order, ByteOrder.nat, littleEndian_digits h] at hread
  rw [readNat, order]
  exact hread

theorem reads_readUint32 (order : c.order = .littleEndian) (n : UInt32) :
    Reads c.readUint32 (digits 4 n.toNat) n := by
  have h := (reads_readNat order (show n.toNat < 256 ^ 4 from n.toNat_lt)).map UInt32.ofNat
  rwa [UInt32.ofNat_toNat] at h

theorem reads_readUint64 (order : c.order = .littleEndian) (n : UInt64) :
    Reads c.readUint64 (digits 8 n.toNat) n := by
  have h := (reads_readNat order (show n.toNat < 256 ^ 8 from n.toNat_lt)).map UInt64.ofNat
  rwa [UInt64.ofNat_toNat] at h

theorem reads_length (order : c.order = .littleEndian) {n : Nat} (h : n ≤ maxAlloc) :
    Reads c.readUint64 (digits 8 n) (.ofNat n) := by
  have hn : (UInt64.ofNat n).toNat = n := by
    rw [maxAlloc] at h
    exact UInt64.toNat_ofNat_of_lt' (by rw [UInt64.size]; omega)
  have hread := reads_readUint64 order (.ofNat n)
  rwa [hn] at hread

theorem reads_readGGUFString (order : c.order = .littleEndian) (version : c.version ≠ 1) (s : GoString) :
    Reads c.readGGUFString (digits 8 s.1.length ++ s.1) s.1 := by
  rw [readGGUFString, if_neg version]
  refine (reads_length order s.2).bind ?_
  rw [int_ofNat s.2]
  exact (reads_makeBuffer (Int.natCast_nonneg _) (Int.ofNat_le.mpr s.2)).bind (reads_readFull s.1)

/-! ### Values -/

theorem reads_scalars {γ : Type} (order : c.order = .littleEndian) {t : UInt32} {width : Nat}
    {value : Nat → Gguf.Value} (hscalar : scalar t = some (width, value)) (l : List γ)
    (keeps : c.Keeps l.length) (bits : γ → Nat) (of : γ → Gguf.Value) (hbits : ∀ a, bits a < 256 ^ width)
    (hvalue : ∀ a, value (bits a) = of a) :
    Reads (c.readGGUFArrayData t l.length) (l.flatMap fun a => digits width (bits a)) (some (l.map of)) := by
  rw [readGGUFArrayData, hscalar]
  dsimp only
  have hreads := reads_repeated (l := l) fun a _ => reads_readNat order (hbits a)
  refine hreads.then ?_
  rw [if_pos keeps, List.map_map]
  have hmap : l.map (value ∘ bits) = l.map of := List.map_congr_left fun a _ => hvalue a
  rw [hmap]
  exact reads_pure _

theorem reads_items (order : c.order = .littleEndian) (version : c.version ≠ 1) (items : Items)
    (keeps : c.Keeps items.values.length) :
    Reads (c.readGGUFArrayData items.type items.values.length) items.bytes (some items.values) := by
  cases items with
  | int32s l =>
    rw [Items.values, List.length_map] at keeps ⊢
    exact reads_scalars order rfl l keeps _ _ (fun n => n.toUInt32.toNat_lt) fun n => by
      rw [UInt32.ofNat_toNat, Int32.toInt32_toUInt32]
  | uint32s l =>
    rw [Items.values, List.length_map] at keeps ⊢
    exact reads_scalars order rfl l keeps _ _ (fun n => n.toNat_lt) fun n => by rw [UInt32.ofNat_toNat]
  | float32s l =>
    rw [Items.values, List.length_map] at keeps ⊢
    exact reads_scalars order rfl l keeps _ _ (fun n => n.toNat_lt) fun n => by rw [UInt32.ofNat_toNat]
  | bools l =>
    rw [Items.values, List.length_map] at keeps ⊢
    exact reads_scalars order rfl l keeps _ _ (fun b => by cases b <;> decide) fun b => by cases b <;> rfl
  | strings l =>
    rw [Items.values, List.length_map] at keeps ⊢
    rw [readGGUFArrayData, show scalar (Items.type (.strings l)) = none from rfl]
    dsimp only
    rw [if_pos keeps]
    have hreads := reads_repeated (l := l) fun s _ => reads_readGGUFString order version s
    refine hreads.then ?_
    rw [List.map_map]
    exact reads_pure _

end Container

/-! ### Key values and tensors -/

namespace Entry

/-- The type of the value, as it is written. -/
def type : Entry → UInt32
  | .uint32 _ | .fileType _ => 4
  | .uint64 _ => 10
  | .float32 _ => 6
  | .bool _ => 7
  | .string _ => typeString
  | .items _ => Gguf.typeArray
  | .improper => 0

/-- The value behind its type, as it is written. -/
def bytes : Entry → Text
  | .uint32 n | .fileType n => digits 4 n.toNat
  | .uint64 n => digits 8 n.toNat
  | .float32 bits => digits 4 bits.toNat
  | .bool b => digits 1 b.toNat
  | .string s => digits 8 s.1.length ++ s.1
  | .items l => digits 4 l.1.type.toNat ++ (digits 8 l.1.values.length ++ l.1.bytes)
  | .improper => []

/-- The value that is read back; of what is not written there is none. -/
def value : Entry → Option Value
  | .uint32 n | .fileType n => some (.plain (.uint32 n))
  | .uint64 n => some (.plain (.uint64 n))
  | .float32 bits => some (.plain (.float32 bits))
  | .bool b => some (.plain (.bool b))
  | .string s => some (.plain (.string s.1))
  | .items l => some (.array l.1.type l.1.values.length (some l.1.values))
  | .improper => none

end Entry

/-- A key value, as it is written. -/
def keyValueBytes (e : GoString × Entry) : Text :=
  (digits 8 e.1.1.length ++ e.1.1) ++ (digits 4 e.2.type.toNat ++ e.2.bytes)

/-- A tensor, as it is told of at an offset. -/
def tensorBytes (t : TensorSource × UInt64) : Text :=
  (digits 8 t.1.name.1.length ++ t.1.name.1) ++ (digits 4 (UInt32.ofNat t.1.shape.length).toNat ++
    (t.1.shape.flatMap (fun n => digits 8 n.toNat) ++ (digits 4 t.1.kind.toNat ++ digits 8 t.2.toNat)))

namespace Container

variable {c : Container}

theorem reads_scalar (order : c.order = .littleEndian) {t : UInt32} {width : Nat}
    {value : Nat → Gguf.Value} (hscalar : scalar t = some (width, value)) (harray : t ≠ Gguf.typeArray)
    (hstring : t ≠ typeString) {n : Nat} (hn : n < 256 ^ width) :
    Reads (c.readValue t) (digits width n) (.plain (value n)) := by
  rw [readValue, if_neg harray, if_neg hstring, hscalar]
  exact (reads_readNat order hn).map fun n => Value.plain (value n)

theorem reads_readValue (order : c.order = .littleEndian) (version : c.version ≠ 1)
    (keeps : c.maxArraySize < 0) {v : Entry} {value : Value} (h : v.value = some value) :
    Reads (c.readValue v.type) v.bytes value := by
  cases v with
  | uint32 n | fileType n =>
    cases h
    have hreads := reads_scalar order (t := 4) rfl (by decide) (by decide) n.toNat_lt
    rwa [UInt32.ofNat_toNat] at hreads
  | uint64 n =>
    cases h
    have hreads := reads_scalar order (t := 10) rfl (by decide) (by decide) n.toNat_lt
    rwa [UInt64.ofNat_toNat] at hreads
  | float32 bits =>
    cases h
    have hreads := reads_scalar order (t := 6) rfl (by decide) (by decide) bits.toNat_lt
    rwa [UInt32.ofNat_toNat] at hreads
  | bool b =>
    cases h
    have hreads := reads_scalar order (t := 7) (n := b.toNat) rfl (by decide) (by decide)
      (by cases b <;> decide)
    cases b <;> exact hreads
  | string s =>
    cases h
    exact (reads_readGGUFString order version s).map fun s => Value.plain (.string s)
  | items l =>
    cases h
    have hsize : l.1.values.length ≤ l.1.values.length * l.1.elemSize :=
      Nat.le_mul_of_pos_right _ l.1.elemSize_pos
    have hlen : l.1.values.length ≤ maxAlloc := hsize.trans l.2
    have hkeeps : c.Keeps l.1.values.length := .inl keeps
    rw [Entry.type, readValue, if_pos rfl, readGGUFArray]
    refine (reads_readUint32 order l.1.type).bind ((reads_length order hlen).bind ?_)
    rw [l.1.elemSize_type, int_ofNat hlen]
    dsimp only
    have hnew : Reads (c.newArray l.1.elemSize l.1.values.length) [] () := by
      rw [newArray, if_pos hkeeps]
      exact reads_check ⟨Int.natCast_nonneg _, by exact_mod_cast l.2⟩
    exact hnew.bind ((reads_items order version l.1 hkeeps).map fun values =>
      Value.array l.1.type l.1.values.length values)
  | improper => cases h

theorem reads_readKeyValue (order : c.order = .littleEndian) (version : c.version ≠ 1)
    (keeps : c.maxArraySize < 0) {e : GoString × Entry} {value : Value} (h : e.2.value = some value) :
    Reads c.readKeyValue (keyValueBytes e) (e.1.1, value) :=
  (reads_readGGUFString order version e.1).bind ((reads_readUint32 order e.2.type).bind
    ((reads_readValue order version keeps h).map fun v => (e.1.1, v)))

theorem reads_readTensor (order : c.order = .littleEndian) (version : c.version ≠ 1)
    {t : TensorSource × UInt64} (shape : t.1.shape.length < 2 ^ 32) :
    Reads c.readTensor (tensorBytes t) (t.1.tensor t.2) := by
  have hdims : (UInt32.ofNat t.1.shape.length).toNat = t.1.shape.length := UInt32.toNat_ofNat_of_lt' shape
  refine (reads_failing _ (reads_readGGUFString order version t.1.name)).bind
    ((reads_failing _ (reads_readUint32 order _)).bind ?_)
  have hslice : Reads (makeSlice 8 (UInt32.ofNat t.1.shape.length).toNat) [] () := by
    refine reads_check ⟨Int.natCast_nonneg _, ?_⟩
    rw [hdims, maxAlloc]
    omega
  refine hslice.bind ?_
  rw [hdims]
  have hshape := reads_repeated (l := t.1.shape) fun n _ => reads_readUint64 order n
  rw [List.map_id'] at hshape
  exact (reads_failing _ hshape).bind ((reads_failing _ (reads_readUint32 order _)).bind
    ((reads_failing _ (reads_readUint64 order t.2)).map fun offset =>
      Tensor.mk t.1.name.1 t.1.kind offset t.1.shape))

end Container

/-! ### What is in the file -/

/-! ### One behind the other -/

def File.append (f : File) (b : Text) : File := ⟨f.content ++ b, f.pos + b.length⟩

section

variable {α β : Type} {x : Writing α} {p p' : α → Prop} {b b' : Text}

/-- At the end of a file the bytes are written, and something holds of the result, if it succeeds. -/
def Appends (x : Writing α) (p : α → Prop) (b : Text) : Prop :=
  ∀ f a f', f.pos = f.content.length → x f = .ok a f' → p a ∧ f' = f.append b

theorem Appends.bind {y : α → Writing β} {q : β → Prop} (hx : Appends x p b)
    (hy : ∀ a, p a → Appends (y a) q b') : Appends (x >>= y) q (b ++ b') := by
  intro f c f' hpos h
  obtain ⟨a, f₁, hres, h⟩ := bind_eq_ok h
  obtain ⟨hp, rfl⟩ := hx f a f₁ hpos hres
  obtain ⟨hq, rfl⟩ := hy a hp (f.append b) c f' (by simp [File.append, hpos]) h
  exact ⟨hq, by simp [File.append, Nat.add_assoc]⟩

theorem Appends.imp (hx : Appends x p b) (h : ∀ a, p a → p' a) : Appends x p' b :=
  fun f a f' hpos hres => (hx f a f' hpos hres).imp_left (h a)

theorem appends_pure {a : α} (h : p a) : Appends (pure a) p [] := by
  intro f c f' hpos hres
  cases hres
  exact ⟨h, by simp [File.append]⟩

theorem appends_throw (e : WriteStop) (p : α → Prop) (b : Text) : Appends (throw e) p b :=
  fun f a f' hpos h => by cases h

theorem appends_write (b : Text) : Appends (write b) (fun _ => True) b := by
  intro f u f' hpos h
  unfold write at h
  split at h <;> cases h
  exact ⟨trivial, by rw [hpos, writeAt_end, File.append, hpos]⟩

theorem appends_forM {γ : Type} {f : γ → Writing Unit} {q : γ → Prop} {bytes : γ → Text}
    (h : ∀ c, Appends (f c) (fun _ => q c) (bytes c)) (l : List γ) :
    Appends (l.forM f) (fun _ => ∀ c ∈ l, q c) (l.flatMap bytes) := by
  induction l with
  | nil => exact appends_pure nofun
  | cons c l ih => exact (h c).bind fun _ hc => ih.imp fun _ hl => List.forall_mem_cons.mpr ⟨hc, hl⟩

end

/-! ### Key values and tensors -/

theorem appends_ggufWriteKV (e : GoString × Entry) :
    Appends (ggufWriteKV e.1 e.2) (fun _ => e.2.value.isSome = true) (keyValueBytes e) := by
  obtain ⟨k, v⟩ := e
  have hkey {p : Unit → Prop} {b : Text} {x : Writing Unit} (h : Appends x p b) :
      Appends (do writeNat 8 k.1.length; write k.1; x) p ((digits 8 k.1.length ++ k.1) ++ b) := by
    rw [List.append_assoc]
    exact (appends_write _).bind fun _ _ => (appends_write _).bind fun _ _ => h
  have hnumber (t : UInt32) (width n : Nat) :
      Appends (writeGGUF t width n) (fun _ => True) (digits 4 t.toNat ++ digits width n) :=
    (appends_write _).bind fun _ _ => appends_write _
  cases v with
  | uint32 n | fileType n => exact hkey ((hnumber 4 4 n.toNat).imp fun _ _ => rfl)
  | uint64 n => exact hkey ((hnumber 10 8 n.toNat).imp fun _ _ => rfl)
  | float32 bits => exact hkey ((hnumber 6 4 bits.toNat).imp fun _ _ => rfl)
  | bool b => exact hkey ((hnumber 7 1 b.toNat).imp fun _ _ => rfl)
  | string s =>
    have h : Appends (writeGGUFString s) (fun _ => True)
        (digits 4 typeString.toNat ++ (digits 8 s.1.length ++ s.1)) :=
      (appends_write _).bind fun _ _ => (appends_write _).bind fun _ _ => appends_write _
    exact hkey (h.imp fun _ _ => rfl)
  | items l =>
    have h : Appends (writeGGUFArray l.1) (fun _ => True) (digits 4 Gguf.typeArray.toNat ++
        (digits 4 l.1.type.toNat ++ (digits 8 l.1.values.length ++ l.1.bytes))) :=
      (appends_write _).bind fun _ _ => (appends_write _).bind fun _ _ => (appends_write _).bind fun _ _ =>
        appends_write _
    exact hkey (h.imp fun _ _ => rfl)
  | improper => exact hkey (appends_throw _ _ _)

theorem appends_ggufWriteTensorInfo (t : TensorSource) (offset : UInt64) :
    Appends (ggufWriteTensorInfo t offset) (fun _ => True) (tensorBytes (t, offset)) := by
  have hshape := (appends_forM (fun n : UInt64 => appends_write (digits 8 n.toNat)) t.shape).imp
    fun _ _ => trivial
  rw [tensorBytes, List.append_assoc]
  exact (appends_write _).bind fun _ _ => (appends_write _).bind fun _ _ => (appends_write _).bind fun _ _ =>
    hshape.bind fun _ _ => (appends_write _).bind fun _ _ => appends_write _

def padding (offset align : Int64) : Int64 := (align - offset % align) % align

theorem ggufPadding_eq (offset align : Int64) (rs : Source) : ggufPadding offset align rs =
    if align ≠ 0 then .ok (padding offset align) rs else .error .panic rs := by
  unfold ggufPadding check
  split_ifs <;> rfl

theorem appends_paddingFor (offset align : Int64) :
    Appends (paddingFor offset align) (fun p => align ≠ 0 ∧ p = padding offset align) [] := by
  rw [paddingFor, ggufPadding_eq]
  split_ifs with hne
  · exact appends_pure ⟨hne, rfl⟩
  · exact appends_throw _ _ _

/-- The offsets of the tensors. -/
def place (alignment : Int64) : UInt64 → List TensorSource → List (TensorSource × UInt64)
  | _, [] => []
  | s, t :: ts =>
    (t, s) :: place alignment (s + t.size + (padding (s + t.size).toInt64 alignment).toUInt64) ts

theorem appends_writeTensorInfos (alignment : Int64) (s : UInt64) (ts : List TensorSource) :
    Appends (writeTensorInfos alignment s ts) (fun placed => placed = place alignment s ts)
      ((place alignment s ts).flatMap tensorBytes) := by
  induction ts generalizing s with
  | nil => exact appends_pure rfl
  | cons t ts ih =>
    rw [writeTensorInfos, place, List.flatMap_cons]
    refine (appends_ggufWriteTensorInfo t s).bind fun _ _ => ?_
    refine (appends_paddingFor _ alignment).bind fun p hp => ?_
    obtain ⟨-, rfl⟩ := hp
    have h := (ih (s + t.size + (padding (s + t.size).toInt64 alignment).toUInt64)).bind
      fun placed hplaced => appends_pure (p := fun all => all = (t, s) :: place alignment
        (s + t.size + (padding (s + t.size).toInt64 alignment).toUInt64) ts) (congrArg ((t, s) :: ·) hplaced)
    rwa [List.append_nil] at h

/-! ### The header -/

/-- All that is in front of the data. -/
def header (kv : Metadata) (ts : List (TensorSource × UInt64)) : Text :=
  ascii "GGUF" ++ (digits 4 3 ++ ((digits 8 ts.length ++ digits 8 kv.entries.length) ++
    (kv.sorted.flatMap keyValueBytes ++ ts.flatMap tensorBytes)))

/-- The parts of the jobs that there is something to write of. -/
def parts (jobs : List (Int64 × Text)) : List (Nat × Text) :=
  (jobs.filter fun j => j.2 ≠ []).map fun j => (j.1.toInt.toNat, j.2)

theorem forM_writeTo {jobs : List (Int64 × Text)} {f f' : File} {u : PUnit}
    (h : jobs.forM (fun j => writeTo j.1 j.2) f = .ok u f') :
    (∀ j ∈ jobs, j.2 ≠ [] → 0 ≤ j.1) ∧ f'.content = writeAll 0 (parts jobs) f.content := by
  induction jobs generalizing f with
  | nil =>
    cases h
    exact ⟨nofun, rfl⟩
  | cons j jobs ih =>
    obtain ⟨⟨⟩, f₁, hj, hjobs⟩ := bind_eq_ok h
    obtain ⟨hall, hcontent⟩ := ih hjobs
    replace hj : writeTo j.1 j.2 f = .ok () f₁ := hj
    unfold writeTo at hj
    by_cases hempty : j.2 = []
    · rw [if_pos hempty] at hj
      cases hj
      refine ⟨List.forall_mem_cons.mpr ⟨fun hne => absurd hempty hne, hall⟩, ?_⟩
      rw [hcontent, parts, parts, List.filter_cons_of_neg (by simpa using hempty)]
    · rw [if_neg hempty] at hj
      split at hj
      · cases hj
      · rename_i hpos
        split at hj <;> cases hj
        refine ⟨List.forall_mem_cons.mpr ⟨fun _ => by simpa using hpos, hall⟩, ?_⟩
        rw [hcontent, parts, parts, List.filter_cons_of_pos (by simpa using hempty)]
        rfl

/-- The jobs of `WriteGGUF`. -/
def jobsOf (kv : Metadata) (placed : List (TensorSource × UInt64)) : List (Int64 × Text) :=
  let offset : Int64 := .ofNat (header kv placed).length
  placed.map fun t => (offset + padding offset kv.alignment.toUInt64.toInt64 + t.2.toInt64, t.1.data)

theorem length_place (alignment : Int64) (s : UInt64) (ts : List TensorSource) :
    (place alignment s ts).length = ts.length := by
  induction ts generalizing s with
  | nil => rfl
  | cons t ts ih => rw [place, List.length_cons, ih, List.length_cons]

theorem appends_writeHeader (sort : Arrangement TensorSource) (kv : Metadata) (ts : List TensorSource) :
    let placed := place kv.alignment.toUInt64.toInt64 0 (sort.apply ts)
    Appends (writeHeader sort kv ts) (fun all => all = placed ∧ ∀ e ∈ kv.entries, e.2.value.isSome = true)
      (header kv placed) := by
  intro placed
  have hlen : placed.length = ts.length := (length_place ..).trans (sort.perm ts).length_eq
  rw [header, hlen, List.append_assoc]
  refine (appends_write _).bind fun _ _ => (appends_write _).bind fun _ _ => (appends_write _).bind fun _ _ =>
    (appends_write _).bind fun _ _ => ?_
  refine (appends_forM appends_ggufWriteKV kv.sorted).bind fun _ hall => ?_
  refine (appends_writeTensorInfos _ 0 (sort.apply ts)).imp fun all hplaced => ⟨hplaced, fun e he => ?_⟩
  exact hall e ((List.mergeSort_perm ..).mem_iff.mpr he)

/-- `WriteGGUF` has written the header, and the data behind it. -/
theorem writeGGUFFile_written {sort : Arrangement TensorSource}
    {schedule : Arrangement (TensorSource × UInt64)} {kv : Metadata} {ts : List TensorSource} {f : File}
    {placed : List (TensorSource × UInt64)}
    (hplaced : placed = place kv.alignment.toUInt64.toInt64 0 (sort.apply ts))
    (h : writeGGUFFile sort schedule kv ts {} = .ok () f) :
    kv.alignment.toUInt64.toInt64 ≠ 0 ∧ (∀ e ∈ kv.entries, e.2.value.isSome = true) ∧
      ∃ jobs, jobs.Perm (jobsOf kv placed) ∧ (∀ j ∈ jobs, j.2 ≠ [] → 0 ≤ j.1) ∧
        f.content = writeAll 0 (parts jobs) (header kv placed) := by
  obtain ⟨all, f₁, hheader, h⟩ := bind_eq_ok h
  obtain ⟨⟨rfl, typed⟩, rfl⟩ := appends_writeHeader sort kv ts {} all f₁ rfl hheader
  rw [← hplaced] at h
  obtain ⟨offset, f₂, hhere, h⟩ := bind_eq_ok h
  cases hhere
  obtain ⟨p, f₃, hpadding, h⟩ := bind_eq_ok h
  obtain ⟨⟨hne, rfl⟩, hsame⟩ := appends_paddingFor _ _ _ p f₃ (by simp [File.append]) hpadding
  have hend : f₃ = ⟨header kv placed, (header kv placed).length⟩ := by simpa [File.append] using hsame
  subst hend
  have hpos : (({} : File).append (header kv placed)).pos = (header kv placed).length := Nat.zero_add _
  rw [hpos] at h
  let job (t : TensorSource × UInt64) : Int64 × Text :=
    (.ofNat (header kv placed).length + padding (.ofNat (header kv placed).length)
      kv.alignment.toUInt64.toInt64 + t.2.toInt64, t.1.data)
  have hjobs : ((schedule.apply placed).map job).forM (fun j => writeTo j.1 j.2)
      ⟨header kv placed, (header kv placed).length⟩ = .ok () f :=
    (congrFun (List.forM_map (f := fun j : Int64 × Text => writeTo j.1 j.2)) _).trans h
  obtain ⟨nonneg, hcontent⟩ := forM_writeTo hjobs
  exact ⟨hne, typed, _, (schedule.perm placed).map job, nonneg, hcontent⟩

end Ecco9.Ggml
