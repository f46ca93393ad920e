import Ecco9.Blob.CheckWriter
import Ecco9.Library.Codecs
import Ecco9.Library.Cuts
import Ecco9.Library.Decimal
import Ecco9.Library.Search

/-! Blobs that are written in chunks, in any order (`server/internal/cache/blob/chunked.go`), the chunks of
a layer that a registry lists, and the texts that record which of them are there
(`server/internal/client/ollama/registry.go`). -/

namespace Ecco9.Blob

open Ecco9.Library

/-! ### Chunks -/

/-- A range of a blob; `stop` is its last byte. -/
structure Chunk where
  start : Nat
  stop : Int
  deriving DecidableEq

/-- No chunk ends more than one byte before it starts. -/
def Chunk.size (c : Chunk) : Nat := (c.stop - c.start + 1).toNat

def Chunk.Has (c : Chunk) (i : Nat) : Prop := c.start ≤ i ∧ i < c.start + c.size

structure Chunksum where
  chunk : Chunk
  digest : Digest
  deriving DecidableEq

/-- `strconv.ParseInt` in base ten and 64 bits. -/
def parseInt (s : Text) : Option Int :=
  let (negative, digits) := match s with
    | 0x2D :: s => (true, s)
    | 0x2B :: s => (false, s)
    | s => (false, s)
  if digits = [] ∨ digits.any (fun b => b < 0x30 || 0x39 < b) then none
  else
    let n : Nat := digits.foldl (fun n b => 10 * n + (b.toNat - 0x30)) 0
    if negative then (if n ≤ 2 ^ 63 then some (-n) else none)
    else if n < 2 ^ 63 then some n
    else none

def parseChunk (s : Text) : Option Chunk :=
  match cut [0x2D] s with
  | none => none
  | some (startPart, endPart) =>
    match parseInt startPart, parseInt endPart with
    -- what stands before the first `-` has no sign that makes it negative
    | some (.ofNat start), some stop => if start > stop then none else some ⟨start, stop⟩
    | _, _ => none

/-- The chunks that are listed in `words`, up to where they cannot be read. -/
def readChunksums : List Text → List Chunksum
  | digest :: range :: words =>
    match parseDigest digest, parseChunk range with
    | some digest, some chunk => ⟨chunk, digest⟩ :: readChunksums words
    | _, _ => []
  | _ => []

example : readChunksums [ascii "sha256-" ++ List.replicate 64 0x61, ascii "5-9", ascii "x"] =
    [⟨⟨5, 9⟩, ⟨List.replicate 32 0xAA, rfl⟩⟩] := by decide

/-- What a chunk holds of a blob. -/
def Chunk.slice (c : Chunk) (content : Bytes) : Bytes := (content.drop c.start).take c.size

/-- The chunks make up the blob, and have the digests of what they hold of it. -/
structure Partitions (sum256 : Bytes → Digest) (content : Bytes) (chunks : List Chunksum) : Prop where
  tiles : ∃ ordered : List Chunksum, ordered.Perm chunks ∧
    Tiles 0 (ordered.map fun cs => (cs.chunk.start, cs.chunk.size)) content.length
  digest : ∀ cs ∈ chunks, sum256 (cs.chunk.slice content) = cs.digest

theorem Partitions.sum {sum256 : Bytes → Digest} {content : Bytes} {chunks : List Chunksum}
    (h : Partitions sum256 content chunks) :
    (chunks.map fun cs => cs.chunk.size).sum = content.length := by
  obtain ⟨ordered, perm, tiles⟩ := h.tiles
  rw [← (perm.map _).sum_eq, ← tiles.sum, Nat.zero_add, List.map_map]
  rfl

theorem Partitions.within {sum256 : Bytes → Digest} {content : Bytes} {chunks : List Chunksum}
    (h : Partitions sum256 content chunks) {cs : Chunksum} (hcs : cs ∈ chunks) :
    cs.chunk.start + cs.chunk.size ≤ content.length := by
  obtain ⟨ordered, perm, tiles⟩ := h.tiles
  obtain ⟨n, hn⟩ := List.mem_iff_getElem?.mp (perm.mem_iff.mpr hcs)
  exact tiles.part_le (by rw [List.getElem?_map, hn, Option.map_some])

theorem Partitions.cover {sum256 : Bytes → Digest} {content : Bytes} {chunks : List Chunksum}
    (h : Partitions sum256 content chunks) {i : Nat} (hi : i < content.length) :
    ∃ cs ∈ chunks, cs.chunk.Has i := by
  obtain ⟨ordered, perm, tiles⟩ := h.tiles
  obtain ⟨n, o, z, hn, hlo, hhi⟩ := tiles.cover (Nat.zero_le i) hi
  rw [List.getElem?_map] at hn
  obtain ⟨cs, hcs, heq⟩ := Option.map_eq_some_iff.mp hn
  cases heq
  exact ⟨cs, perm.mem_iff.mp (List.mem_of_getElem? hcs), hlo, hhi⟩

theorem Chunk.Has.slice {c : Chunk} {content : Bytes} {k : Nat} (hk : k < c.size) :
    (c.slice content)[k]? = content[c.start + k]? := by
  rw [Chunk.slice, List.getElem?_take_of_lt hk, List.getElem?_drop]

/-! ### Records -/

def hexDigit (n : Nat) : UInt8 := UInt8.ofNat (if n < 10 then 0x30 + n else 0x57 + n)

def hexByte (b : UInt8) : Text := [hexDigit (b.toNat / 16), hexDigit (b.toNat % 16)]

/-- `Digest.String` -/
def Digest.text (d : Digest) : Text := ascii "sha256:" ++ d.sum.flatMap hexByte

/-- `%d` -/
def intText (i : Int) : Text := if i < 0 then 0x2D :: decimal i.natAbs else decimal i.natAbs

/-- The text that records that a chunk of a layer is there. -/
def cacheKey (layer : Digest) (cs : Chunksum) : Text :=
  ascii "v1 pull chunksum " ++ layer.text ++ 0x20 :: cs.digest.text ++ 0x20 ::
    decimal cs.chunk.start ++ 0x2D :: intText cs.chunk.stop

theorem hexByte_injective {a b : UInt8} (h : hexByte a = hexByte b) : a = b := by
  have digit {x y : Nat} (hx : x < 16) (hy : y < 16) (h : hexDigit x = hexDigit y) : x = y := by
    have := congrArg UInt8.toNat h
    simp only [hexDigit, UInt8.toNat_ofNat'] at this
    split at this <;> split at this <;> omega
  simp only [hexByte, List.cons.injEq, and_true] at h
  have ha := a.toNat_lt
  have hb := b.toNat_lt
  have hhigh := digit (by omega) (by omega) h.1
  have hlow := digit (by omega) (by omega) h.2
  exact UInt8.toNat_inj.mp (by omega)

theorem flatMap_hexByte_append {s t : Bytes} {r r' : Text} (hlen : s.length = t.length)
    (h : s.flatMap hexByte ++ r = t.flatMap hexByte ++ r') : s = t ∧ r = r' := by
  induction s generalizing t with
  | nil =>
    obtain rfl := List.length_eq_zero_iff.mp hlen.symm
    exact ⟨rfl, h⟩
  | cons a s ih =>
    cases t with
    | nil => cases hlen
    | cons b t =>
      rw [List.flatMap_cons, List.flatMap_cons, List.append_assoc, List.append_assoc] at h
      obtain ⟨hbyte, hrest⟩ := List.append_inj h rfl
      obtain ⟨rfl, hr⟩ := ih (Nat.succ.inj hlen) hrest
      exact ⟨by rw [hexByte_injective hbyte], hr⟩

theorem Digest.text_append {d e : Digest} {r r' : Text} (h : d.text ++ r = e.text ++ r') :
    d = e ∧ r = r' := by
  rw [Digest.text, Digest.text, List.append_assoc, List.append_assoc] at h
  obtain ⟨hsum, hrest⟩ := flatMap_hexByte_append (d.length_sum.trans e.length_sum.symm)
    (List.append_cancel_left h)
  obtain ⟨sum, _⟩ := d
  exact ⟨by cases hsum; rfl, hrest⟩

theorem not_isDigit_minus : ¬IsDigit 0x2D := fun h => absurd h.1 (by decide)

theorem intText_injective {i j : Int} (h : intText i = intText j) : i = j := by
  have mixed {n : Nat} {t : Text} (h : decimal n = 0x2D :: t) : False := by
    have : IsDigit 0x2D := isDigit_of_mem_decimal (h ▸ List.mem_cons_self)
    exact not_isDigit_minus this
  rw [intText, intText] at h
  split at h <;> split at h
  · have := decimal_injective (List.tail_eq_of_cons_eq h)
    omega
  · exact (mixed h.symm).elim
  · exact (mixed h).elim
  · have := decimal_injective h
    omega

/-- A record tells which chunk of which layer it is about. -/
theorem cacheKey_injective {d d' : Digest} {cs cs' : Chunksum} (h : cacheKey d cs = cacheKey d' cs') :
    d = d' ∧ cs = cs' := by
  simp only [cacheKey, List.append_assoc, List.cons_append] at h
  obtain ⟨hlayer, hrest⟩ := Digest.text_append (List.append_cancel_left h)
  obtain ⟨hdigest, hrest⟩ := Digest.text_append (List.tail_eq_of_cons_eq hrest)
  obtain ⟨hstart, hstop⟩ := decimal_append_inj not_isDigit_minus (List.tail_eq_of_cons_eq hrest)
  obtain ⟨⟨start, stop⟩, digest⟩ := cs
  obtain ⟨⟨start', stop'⟩, digest'⟩ := cs'
  obtain rfl : digest = digest' := hdigest
  obtain rfl : start = start' := hstart
  obtain rfl : stop = stop' := intText_injective hstop
  exact ⟨hlayer, rfl⟩

theorem head_cacheKey (d : Digest) (cs : Chunksum) : (cacheKey d cs).head? = some 0x76 := rfl

/-! ### Files -/

/-- A blob that is opened for writing is there. -/
def DiskCache.create (c : DiskCache) (d : Digest) : DiskCache :=
  c.setBlob d (some ((c.blobs d).getD []))

/-- `WriteAt`; what is skipped is filled with zeros. -/
def DiskCache.writeAt (c : DiskCache) (d : Digest) (offset : Nat) (p : Bytes) : DiskCache :=
  c.setBlob d (some (Library.writeAt 0 ((c.blobs d).getD []) offset p))

def DiskCache.byte (c : DiskCache) (d : Digest) (i : Nat) : Option UInt8 := (c.blobs d).bind (·[i]?)

section

variable {c : DiskCache} {d d' : Digest} {offset i : Nat} {p : Bytes} {x : UInt8}

@[simp] theorem DiskCache.setBlob_self (c : DiskCache) (d : Digest) (file : Option Bytes) :
    (c.setBlob d file).blobs d = file := if_pos rfl

theorem DiskCache.setBlob_of_ne (h : d' ≠ d) (file : Option Bytes) :
    (c.setBlob d file).blobs d' = c.blobs d' := if_neg h

/-- A blob is written as it was read. -/
theorem DiskCache.put_text (sum256 : Bytes → Digest) (c : DiskCache) (t : Bytes) :
    c.put sum256 (sum256 t) ⟨t, true⟩ t.length = (c.setBlob (sum256 t)
      (if ∃ b, c.blobs (sum256 t) = some b ∧ b.length = t.length then c.blobs (sum256 t) else some t),
      true) := by
  rw [DiskCache.put, copyNamedFile]
  split_ifs with hsame hzero
  · rfl
  · rw [List.length_eq_zero_iff.mp hzero]
  · rfl
  · rename_i hno
    exact absurd ⟨rfl, rfl, rfl⟩ hno

@[simp] theorem DiskCache.byte_create : (c.create d).byte d' i = c.byte d' i := by
  rw [byte, byte, create]
  by_cases h : d' = d
  · subst h
    rw [setBlob_self]
    cases c.blobs d' <;> rfl
  · rw [setBlob_of_ne h]

@[simp] theorem DiskCache.get_create : (c.create d).get d' = c.get d' := by
  rw [get, get, create]
  by_cases h : d' = d
  · subst h
    rw [setBlob_self]
    cases c.blobs d' <;> rfl
  · rw [setBlob_of_ne h]

theorem DiskCache.byte_writeAt_of_ne (h : d' ≠ d) : (c.writeAt d offset p).byte d' i = c.byte d' i := by
  rw [byte, writeAt, setBlob_of_ne h, byte]

theorem DiskCache.byte_writeAt_within (hlo : offset ≤ i) (hhi : i < offset + p.length) :
    (c.writeAt d offset p).byte d i = p[i - offset]? := by
  rw [byte, writeAt, setBlob_self, Option.bind_some, getElem?_writeAt_within hlo hhi]

theorem DiskCache.byte_writeAt_beside (hx : c.byte d i = some x)
    (h : i < offset ∨ offset + p.length ≤ i) : (c.writeAt d offset p).byte d i = some x := by
  obtain ⟨b, hb, hbx⟩ := Option.bind_eq_some_iff.mp hx
  obtain ⟨hi, -⟩ := List.getElem?_eq_some_iff.mp hbx
  rw [byte, writeAt, setBlob_self, Option.bind_some, hb, Option.getD_some,
    getElem?_writeAt hi h, hbx]

end

end Ecco9.Blob
