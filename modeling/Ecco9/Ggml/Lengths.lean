import Ecco9.Ggml.Decode

/-! Which model files `Decode` panics on. -/

namespace Ecco9.Ggml

open Ecco9.Library

/-! ### What a file declares

A file is looked through from its start; where it ends, or has a type that there is not, there is nothing
more to be asked of it. -/

def bytes (n : Nat) (post : Text → Source → Prop) (rs : Source) : Prop :=
  n ≤ rs.rest.length → post (rs.rest.take n) { rs with pos := rs.pos + n }

/-- The source behind a string that is not kept; what there is of it, if it is not all there. -/
def pastString (order : ByteOrder) (rs : Source) : Source :=
  if 8 ≤ rs.rest.length then
    let size := (int (.ofNat (order.nat (rs.rest.take 8)))).toNat
    { rs with pos := rs.pos + 8 + min size (rs.rest.length - 8) }
  else { rs with pos := rs.pos + rs.rest.length }

namespace Container

variable (c : Container)

def number (width : Nat) (post : Nat → Source → Prop) : Source → Prop :=
  bytes width fun b => post (c.order.nat b)

def uint32 (post : UInt32 → Source → Prop) : Source → Prop := c.number 4 fun n => post (.ofNat n)

def uint64 (post : UInt64 → Source → Prop) : Source → Prop := c.number 8 fun n => post (.ofNat n)

/-- A string can have the length: with the null of version 1 it is not empty. -/
def InRange (length : Int) : Prop := if c.version = 1 then 0 < length else 0 ≤ length ∧ length ≤ maxAlloc

def string (post : Text → Source → Prop) : Source → Prop :=
  c.uint64 fun n rs => c.InRange (int n) ∧
    bytes (int n).toNat (fun b => post (if c.version = 1 then b.dropLast else b)) rs

/-- The elements of an array, if it is kept, or else what is passed over. -/
def elements (t : UInt32) (n : Int) (post : Option (List Gguf.Value) → Source → Prop) : Source → Prop :=
  match scalar t with
  | some (width, value) => eachTurn (c.number width) n.toNat fun elems =>
    post (if c.Keeps n then some (elems.map value) else none)
  | none =>
    if c.Keeps n then
      eachTurn c.string n.toNat fun elems => post (some (elems.map Gguf.Value.string))
    else eachTurn (fun post rs => post () (pastString c.order rs)) n.toNat fun _ => post none

/-- An array that is kept can have as many elements as it has. -/
def array (post : Value → Source → Prop) : Source → Prop :=
  c.uint32 fun t => c.uint64 fun n rs => ∀ size ∈ elemSize t,
    (c.Keeps (int n) → 0 ≤ int n ∧ int n * size ≤ maxAlloc) ∧
      c.elements t (int n) (fun values => post (.array t (int n) values)) rs

def value (t : UInt32) (post : Value → Source → Prop) : Source → Prop :=
  if t = Gguf.typeArray then c.array post
  else if t = typeString then c.string fun s => post (.plain (.string s))
  else fun rs => ∀ v ∈ scalar t, c.number v.1 (fun n => post (.plain (v.2 n))) rs

def keyValue (post : Text × Value → Source → Prop) : Source → Prop :=
  c.string fun k => c.uint32 fun t => c.value t fun v => post (k, v)

def tensor (post : Tensor → Source → Prop) : Source → Prop :=
  c.string fun name => c.uint32 fun dims => eachTurn c.uint64 dims.toNat fun shape =>
    c.uint32 fun kind => c.uint64 fun offset => post { name, kind, offset, shape }

/-- All lengths are in range, and the alignment is not zero, which is the last that the file has. -/
def Fits : Source → Prop :=
  eachTurn c.keyValue c.numKV.toNat fun keyValues => eachTurn c.tensor c.numTensor.toNat fun _ rs =>
    -- as long as the header is not
    0 ≤ wrap64 rs.pos →
      ∀ kv ∈ keyValues.reverse.find? (·.1 = ascii "general.alignment"), kv.2 ≠ .plain (.uint32 0)

end Container

/-- What a file of a byte order says of itself, if it says it. -/
def FitsIn (order : ByteOrder) (maxArraySize : Int) : Source → Prop :=
  bytes 4 fun b =>
    let version : UInt32 := .ofNat (order.nat b)
    let width := if version = 1 then 4 else 8
    bytes (2 * width) fun counts =>
      Container.Fits
        { order, version, maxArraySize
          numTensor := .ofNat (order.nat (counts.take width))
          numKV := .ofNat (order.nat (counts.drop width)) }

/-- The lengths that a file declares are in range, as far as it goes. -/
def Fits (file : Text) (maxArraySize : Int) : Prop :=
  bytes 4 (fun magic rs =>
    (Gguf.littleEndian magic = magicLE → FitsIn .littleEndian maxArraySize rs) ∧
      (Gguf.littleEndian magic = magicBE → FitsIn .bigEndian maxArraySize rs)) ⟨file, 0⟩

/-! ### What is read where there is no panic -/

/-- A decoding may end in an error. -/
def Stop.Harmless (stop : Stop) : Prop := stop ≠ .panic

section

variable {α : Type}

theorem harmless_error (e : DecodeError) : (Stop.error e).Harmless := nofun

theorem wp_check (p : Prop) [Decidable p] (post : Unit → Source → Prop) (rs : Source) :
    wp (check p) Stop.Harmless post rs ↔ p ∧ post () rs := by
  rw [check, wp_ite]
  split
  · rename_i h
    rw [wp_pure, and_iff_right h]
  · rename_i h
    rw [wp_throw]
    exact iff_of_false (fun hharmless => hharmless rfl) fun hp => h hp.1

theorem wp_readFull (n : Nat) (post : Text → Source → Prop) (rs : Source) :
    wp (readFull n) Stop.Harmless post rs ↔ bytes n post rs := by
  by_cases h : n ≤ rs.rest.length
  · rw [wp_of_ok (readFull_ok h), bytes, imp_iff_right h]
  · obtain ⟨e, rs', herr⟩ := readFull_error h
    rw [wp_of_error herr]
    exact iff_of_true (harmless_error _) fun hle => absurd hle h

theorem wp_copyN (n : Int) (post : Text → Source → Prop) (rs : Source) :
    wp (copyN n) Stop.Harmless post rs ↔ bytes n.toNat post rs := by
  by_cases h : n.toNat ≤ rs.rest.length
  · rw [wp_of_ok (copyN_ok h), bytes, imp_iff_right h]
  · obtain ⟨e, rs', herr⟩ := copyN_error h
    rw [wp_of_error herr]
    exact iff_of_true (harmless_error _) fun hle => absurd hle h

theorem wp_failing (what : String) {x : Decoding α} {pre : (α → Source → Prop) → Source → Prop}
    (h : ∀ post rs, wp x Stop.Harmless post rs ↔ pre post rs) (post : α → Source → Prop) (rs : Source) :
    wp (failing what x) Stop.Harmless post rs ↔ pre post rs := by
  rw [← h]
  cases hx : x rs with
  | ok a rs' =>
    rw [wp_of_ok hx]
    exact wp_of_ok (by rw [failing, hx]) post
  | error stop rs' =>
    rw [wp_of_error hx]
    cases stop with
    | error e =>
      rw [wp_of_error (show failing what x rs = .error (.error (.failed what e)) rs' by rw [failing, hx])]
      exact iff_of_true (harmless_error _) (harmless_error _)
    | panic => exact wp_of_error (by rw [failing, hx]) post

theorem wp_truncate (b : Text) (n : Int) (post : Text → Source → Prop) (rs : Source) :
    wp (truncate b n) Stop.Harmless post rs ↔ (0 ≤ n ∧ n ≤ b.length) ∧ post (b.take n.toNat) rs := by
  rw [truncate, wp_bind, wp_check, wp_pure]

theorem wp_makeBuffer (length : Int) (post : Unit → Source → Prop) (rs : Source) :
    wp (makeBuffer length) Stop.Harmless post rs ↔ (0 ≤ length ∧ length ≤ maxAlloc) ∧ post () rs := by
  rw [makeBuffer, wp_ite, makeSlice, wp_check, wp_check]
  split
  · simp
  · rename_i hscratch
    refine and_congr_left fun _ => (and_iff_left ?_).symm
    simp only [scratchSize, maxAlloc] at hscratch ⊢
    omega

theorem bytes_congr {n : Nat} {post post' : Text → Source → Prop} {rs : Source}
    (h : ∀ b rs, b.length = n → (post b rs ↔ post' b rs)) : bytes n post rs ↔ bytes n post' rs :=
  imp_congr_right fun hle => h _ _ (List.length_take_of_le hle)

end

namespace Container

variable {c : Container}

theorem wp_readNat (width : Nat) (post : Nat → Source → Prop) (rs : Source) :
    wp (c.readNat width) Stop.Harmless post rs ↔ c.number width post rs :=
  wp_seq (wp_readFull width) (fun _ _ => wp_pure ..) rs

theorem wp_readUint32 (post : UInt32 → Source → Prop) (rs : Source) :
    wp c.readUint32 Stop.Harmless post rs ↔ c.uint32 post rs :=
  wp_seq (wp_readNat 4) (fun _ _ => wp_pure ..) rs

theorem wp_readUint64 (post : UInt64 → Source → Prop) (rs : Source) :
    wp c.readUint64 Stop.Harmless post rs ↔ c.uint64 post rs :=
  wp_seq (wp_readNat 8) (fun _ _ => wp_pure ..) rs

theorem wp_readGGUFString (post : Text → Source → Prop) (rs : Source) :
    wp c.readGGUFString Stop.Harmless post rs ↔ c.string post rs := by
  rw [readGGUFString]
  by_cases hversion : c.version = 1
  · rw [if_pos hversion]
    refine wp_seq wp_readUint64 (fun n rs => ?_) rs
    rw [wp_bind, wp_copyN, InRange, if_pos hversion]
    by_cases hpos : 0 < int n
    · rw [and_iff_right hpos]
      refine bytes_congr fun b rs hlen => ?_
      have hrange : (0 : Int) ≤ b.length - 1 ∧ (b.length : Int) - 1 ≤ b.length := by omega
      rw [wp_truncate, and_iff_right hrange, if_pos hversion, List.dropLast_eq_take]
      rw [show ((b.length : Int) - 1).toNat = b.length - 1 by omega]
    · -- nothing is copied, and there is no null to be cut off
      refine iff_of_false (fun h => ?_) fun h => hpos h.1
      have hnone := ((wp_truncate ..).mp (h (by omega))).1.1
      rw [List.length_take] at hnone
      omega
  · rw [if_neg hversion]
    refine wp_seq wp_readUint64 (fun n rs => ?_) rs
    rw [InRange, if_neg hversion, wp_bind, wp_makeBuffer, wp_readFull]
    exact and_congr_right fun _ => bytes_congr fun b rs _ => by rw [if_neg hversion]

/-- A string that is not kept is passed over, whatever its length. -/
theorem ignoring_discardGGUFString (rs : Source) :
    ignoring c.discardGGUFString rs = .ok () (pastString c.order rs) := by
  have hrest (n : Nat) : (ReadSeeker.rest { rs with pos := rs.pos + n }).length = rs.rest.length - n := by
    simp [ReadSeeker.rest, Nat.sub_add_eq]
  rw [ignoring, discardGGUFString, pastString]
  simp only [bind, EStateM.bind, readUint64, readNat, readFull, copyN, pure, EStateM.pure]
  by_cases h : 8 ≤ rs.rest.length
  · simp only [if_pos h, hrest]
    split_ifs with hsize
    · rw [Nat.min_eq_left hsize]
    · rw [Nat.min_eq_right (Nat.le_of_not_le hsize)]
  · simp only [if_neg h]

theorem wp_readGGUFArrayData (t : UInt32) (n : Int) (post : Option (List Gguf.Value) → Source → Prop)
    (rs : Source) : wp (c.readGGUFArrayData t n) Stop.Harmless post rs ↔ c.elements t n post rs := by
  rw [readGGUFArrayData, elements]
  cases scalar t with
  | some v => exact wp_seq (wp_repeated (wp_readNat v.1) n.toNat) (fun _ _ => wp_pure ..) rs
  | none =>
    dsimp only
    rw [wp_ite]
    split
    · exact wp_seq (wp_repeated wp_readGGUFString n.toNat) (fun _ _ => wp_pure ..) rs
    · refine wp_seq (wp_repeated (fun post rs => ?_) n.toNat) (fun _ _ => wp_pure ..) rs
      exact wp_of_ok (ignoring_discardGGUFString rs) post

theorem wp_newArray (size : Nat) (n : Int) (post : Unit → Source → Prop) (rs : Source) :
    wp (c.newArray size n) Stop.Harmless post rs ↔
      (c.Keeps n → 0 ≤ n ∧ n * size ≤ maxAlloc) ∧ post () rs := by
  rw [newArray, wp_ite, makeSlice, wp_check]
  split
  · rename_i hkeeps
    rw [imp_iff_right hkeeps]
  · rename_i hkeeps
    rw [wp_pure]
    exact (and_iff_right fun h => absurd h hkeeps).symm

theorem wp_readGGUFArray (post : Value → Source → Prop) (rs : Source) :
    wp c.readGGUFArray Stop.Harmless post rs ↔ c.array post rs := by
  refine wp_seq wp_readUint32 (fun t => wp_seq wp_readUint64 fun n rs => ?_) rs
  cases elemSize t with
  | none => exact (wp_throw ..).trans (iff_of_true (harmless_error _) nofun)
  | some size =>
    refine (wp_seq (wp_newArray size (int n)) (fun _ => wp_seq (wp_readGGUFArrayData t (int n))
      fun _ _ => wp_pure ..) rs).trans ?_
    exact ⟨fun h size hsize => by cases hsize; exact h, fun h => h size rfl⟩

theorem wp_readValue (t : UInt32) (post : Value → Source → Prop) (rs : Source) :
    wp (c.readValue t) Stop.Harmless post rs ↔ c.value t post rs := by
  rw [readValue, value]
  by_cases harray : t = Gguf.typeArray
  · rw [if_pos harray, if_pos harray, wp_readGGUFArray]
  rw [if_neg harray, if_neg harray]
  by_cases hstring : t = typeString
  · rw [if_pos hstring, if_pos hstring]
    exact wp_seq wp_readGGUFString (fun _ _ => wp_pure ..) rs
  rw [if_neg hstring, if_neg hstring]
  cases scalar t with
  | none => exact (wp_throw ..).trans (iff_of_true (harmless_error _) nofun)
  | some v =>
    refine (wp_seq (wp_readNat v.1) (fun _ _ => wp_pure ..) rs).trans ?_
    exact ⟨fun h v hv => by cases hv; exact h, fun h => h v rfl⟩

theorem wp_readKeyValue (post : Text × Value → Source → Prop) (rs : Source) :
    wp c.readKeyValue Stop.Harmless post rs ↔ c.keyValue post rs :=
  wp_seq wp_readGGUFString (fun _ => wp_seq wp_readUint32 fun t => wp_seq (wp_readValue t) fun _ _ =>
    wp_pure ..) rs

theorem wp_readTensor (post : Tensor → Source → Prop) (rs : Source) :
    wp c.readTensor Stop.Harmless post rs ↔ c.tensor post rs := by
  refine wp_seq (wp_failing _ wp_readGGUFString) (fun name => wp_seq (wp_failing _ wp_readUint32)
    fun dims rs => ?_) rs
  have hdims : (0 : Int) ≤ dims.toNat ∧ (dims.toNat : Int) * (8 : Nat) ≤ maxAlloc := by
    have := dims.toNat_lt
    simp only [maxAlloc]
    omega
  rw [wp_bind, makeSlice, wp_check, and_iff_right hdims]
  exact wp_seq (wp_failing _ (wp_repeated wp_readUint64 _)) (fun shape =>
    wp_seq (wp_failing _ wp_readUint32) fun kind => wp_seq (wp_failing _ wp_readUint64) fun _ _ => wp_pure ..) rs

end Container

/-- The last of the key values counts, and no other is of the same key. -/
theorem alignment_assign (keyValues : List (Text × Value)) (v : Value) :
    KV.alignment ((assign Prod.fst Prod.snd keyValues ∅).insert (ascii "general.parameter_count") v) ≠ 0 ↔
      ∀ kv ∈ keyValues.reverse.find? (·.1 = ascii "general.alignment"), kv.2 ≠ .plain (.uint32 0) := by
  rw [KV.alignment, KV.uint, AList.lookup_insert_ne (by decide), lookup_assign]
  cases keyValues.reverse.find? fun kv => decide (kv.1 = ascii "general.alignment") with
  | none => simp
  | some kv =>
    suffices h : kv.2.uint32.getD 32 ≠ 0 ↔ kv.2 ≠ .plain (.uint32 0) by simpa using h
    cases kv.2 with
    | array t size values => simp [Value.uint32]
    | plain v => cases v <;> simp [Value.uint32]

theorem toInt64_eq_zero (n : UInt32) : n.toUInt64.toInt64 = 0 ↔ n = 0 := by
  refine ⟨fun h => UInt32.toUInt64_inj.mp ?_, fun h => by rw [h]; rfl⟩
  exact (UInt64.toUInt64_toInt64 _).symm.trans (congrArg Int64.toUInt64 h)

theorem wp_seekCurrent (offset : Int64) (rs : Source) :
    wp (seekCurrent offset) Stop.Harmless (fun _ _ => True) rs := by
  refine ⟨fun _ _ _ => trivial, fun e rs' he => ?_⟩
  unfold seekCurrent at he
  split at he <;> cases he
  exact harmless_error _

theorem wp_ggufPadding (offset align : Int64) (post : Int64 → Source → Prop) (rs : Source) :
    wp (ggufPadding offset align) Stop.Harmless post rs ↔
      align ≠ 0 ∧ post ((align - offset % align) % align) rs := by
  rw [ggufPadding, wp_bind, wp_check, wp_pure]

theorem wp_seekTensor {alignment : Int64} (h : alignment ≠ 0) (t : Tensor) (rs : Source) :
    wp (seekTensor alignment t) Stop.Harmless (fun _ _ => True) rs := by
  have seeks (what : String) (offset : Int64) (rs : Source) :
      wp (failing what (seekCurrent offset)) Stop.Harmless (fun _ _ => True) rs :=
    (wp_failing what (fun _ _ => Iff.rfl) _ rs).mpr (wp_seekCurrent offset rs)
  refine wp_then (seeks _ 0 rs) fun offset rs => ?_
  refine wp_then ((wp_ggufPadding ..).mpr ⟨h, trivial⟩) fun padding rs => ?_
  exact wp_then (seeks _ padding rs) fun _ rs => wp_then (seeks _ _ rs) fun _ _ => (wp_pure ..).mpr trivial

theorem seek_zero (rs : Source) : rs.seek 0 1 true =
    if 0 ≤ wrap64 rs.pos then (some (wrap64 rs.pos).toNat, { rs with pos := (wrap64 rs.pos).toNat })
    else (none, rs) := by
  rw [ReadSeeker.seek, show rs.target 0 1 = some (wrap64 (rs.pos + 0)) from rfl, add_zero]
  by_cases h : 0 ≤ wrap64 rs.pos
  · rw [if_pos h]
    exact if_pos ⟨rfl, h⟩
  · rw [if_neg h]
    exact if_neg fun hboth => h hboth.2

/-- Where the source is can be told, as long as there is such a position. -/
theorem seekCurrent_ok {rs : Source} (h : 0 ≤ wrap64 rs.pos) : ∃ n rs', seekCurrent 0 rs = .ok n rs' := by
  have hseek := seek_zero rs
  rw [if_pos h] at hseek
  exact ⟨_, _, by rw [seekCurrent, show (0 : Int64).toInt = 0 from rfl, hseek]⟩

theorem seekCurrent_error {rs : Source} (h : ¬0 ≤ wrap64 rs.pos) :
    seekCurrent 0 rs = .error (.error .seek) rs := by
  rw [seekCurrent, show (0 : Int64).toInt = 0 from rfl, seek_zero, if_neg h]

theorem wp_decodeData (kv : KV) (tensors : List Tensor) (parameters : UInt64) (rs : Source) :
    wp (decodeData kv tensors parameters) Stop.Harmless (fun _ _ => True) rs ↔
      (0 ≤ wrap64 rs.pos → kv.alignment ≠ 0) := by
  rw [decodeData, wp_bind]
  have tail (offset : Int64) (rs : Source) :
      wp (ggufPadding offset kv.alignment.toUInt64.toInt64 >>= fun padding =>
        tensors.forM (seekTensor kv.alignment.toUInt64.toInt64) >>= fun _ =>
          return { kv, tensors, parameters, tensorOffset := (offset + padding).toUInt64 : Model })
        Stop.Harmless (fun _ _ => True) rs ↔ kv.alignment ≠ 0 := by
    rw [wp_bind, wp_ggufPadding, ne_eq, toInt64_eq_zero]
    refine and_iff_left_of_imp fun h => ?_
    refine wp_then (wp_forM (fun t rs => wp_seekTensor ?_ t rs) tensors rs) fun _ _ => (wp_pure ..).mpr trivial
    rwa [ne_eq, toInt64_eq_zero]
  by_cases hpos : 0 ≤ wrap64 rs.pos
  · obtain ⟨n, rs', hseek⟩ := seekCurrent_ok hpos
    rw [wp_of_ok hseek, imp_iff_right hpos]
    exact tail n rs'
  · rw [wp_of_error (seekCurrent_error hpos)]
    exact iff_of_true (harmless_error _) fun h => absurd h hpos

theorem Container.wp_decode (c : Container) (rs : Source) :
    wp c.decode Stop.Harmless (fun _ _ => True) rs ↔ c.Fits rs := by
  rw [Container.decode, Fits]
  refine wp_seq (wp_repeated wp_readKeyValue _) (fun keyValues => wp_seq (wp_repeated wp_readTensor _)
    fun tensors rs => ?_) rs
  rw [wp_decodeData, alignment_assign]

theorem wp_decodeContainer (order : ByteOrder) (maxArraySize : Int) (rs : Source) :
    wp (decodeContainer order maxArraySize) Stop.Harmless (fun _ _ => True) rs ↔
      FitsIn order maxArraySize rs := by
  refine wp_seq (wp_readFull 4) (fun b => wp_seq (wp_readFull _) fun counts rs => ?_) rs
  rw [wp_bind, ← Container.wp_decode]
  exact wp_congr fun _ _ => wp_pure ..

/-- `Decode` panics just on the files that declare a length that is out of range, or the alignment
zero. -/
theorem decodeFile_fits (file : Text) (maxArraySize : Int) :
    decodeFile file maxArraySize ≠ .error .panic ↔ Fits file maxArraySize := by
  have hdecode : wp (decode maxArraySize) Stop.Harmless (fun _ _ => True) ⟨file, 0⟩ ↔
      Fits file maxArraySize := by
    refine wp_seq (wp_readFull 4) (fun magic rs => ?_) _
    have tail (order : ByteOrder) :
        wp (decodeContainer order maxArraySize >>= fun decoded => seekCurrent 0 >>= fun length =>
            pure ({ container := decoded.1, model := decoded.2, length } : GGML))
          Stop.Harmless (fun _ _ => True) rs ↔
        FitsIn order maxArraySize rs := by
      rw [wp_bind, ← wp_decodeContainer]
      exact wp_congr fun _ rs => iff_of_true
        (wp_then (wp_seekCurrent 0 rs) fun _ _ => (wp_pure ..).mpr trivial) trivial
    rw [byteOrder]
    by_cases hle : Gguf.littleEndian magic = magicLE
    · have hbe : Gguf.littleEndian magic ≠ magicBE := by rw [hle]; decide
      rw [if_pos hle, imp_iff_right hle, and_iff_left fun h => absurd h hbe, wp_bind, wp_pure]
      exact tail .littleEndian
    rw [if_neg hle, and_iff_right fun h => absurd h hle]
    by_cases hbe : Gguf.littleEndian magic = magicBE
    · rw [if_pos hbe, imp_iff_right hbe, wp_bind, wp_pure]
      exact tail .bigEndian
    · rw [if_neg hbe, wp_bind, wp_throw]
      exact iff_of_true (harmless_error _) fun h => absurd h hbe
  rw [← hdecode, decodeFile]
  cases h : decode maxArraySize ⟨file, 0⟩ with
  | ok ggml rs =>
    rw [wp_of_ok h]
    exact iff_of_true nofun trivial
  | error stop rs =>
    rw [wp_of_error h]
    exact not_congr (by simp)

/-- A file of version 3 with the alignment zero. -/
def zeroAlignment : Text :=
  ascii "GGUF" ++ [3, 0, 0, 0] ++ [0, 0, 0, 0, 0, 0, 0, 0] ++ [1, 0, 0, 0, 0, 0, 0, 0] ++
    [17, 0, 0, 0, 0, 0, 0, 0] ++ ascii "general.alignment" ++ [4, 0, 0, 0] ++ [0, 0, 0, 0]

/-- A file of version 1 with a key that does not even have the null at its end. -/
def emptyKey : Text :=
  ascii "GGUF" ++ [1, 0, 0, 0] ++ [0, 0, 0, 0] ++ [1, 0, 0, 0] ++ [0, 0, 0, 0, 0, 0, 0, 0]

/-- A file of version 3 with a key of a negative length. -/
def negativeKey : Text :=
  ascii "GGUF" ++ [3, 0, 0, 0] ++ [0, 0, 0, 0, 0, 0, 0, 0] ++ [1, 0, 0, 0, 0, 0, 0, 0] ++
    [0, 0, 0, 0, 0, 0, 0, 128]

theorem lengths_panic : decodeFile zeroAlignment 0 = .error .panic ∧
    decodeFile emptyKey 0 = .error .panic ∧ decodeFile negativeKey 0 = .error .panic := ⟨rfl, rfl, rfl⟩

end Ecco9.Ggml
