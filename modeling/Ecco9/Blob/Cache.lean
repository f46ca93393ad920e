import Ecco9.Library.Chars
import Mathlib.Algebra.Group.Nat.Defs

/-! Names of models and digests (`server/internal/internal/names/name.go`, `digest.go`), and the disk cache
of `server/internal/cache/blob/cache.go`: blobs under their digests and manifests under their names. -/

namespace Ecco9.Blob

section

open Ecco9.Library

/-! ### Digests -/

/-- A SHA-256 sum. -/
structure Digest where
  sum : List UInt8
  length_sum : sum.length = 32
  deriving DecidableEq

def fromHexChar (c : UInt8) : Option UInt8 :=
  if 0x30 ≤ c ∧ c ≤ 0x39 then some (c - 0x30)
  else if 0x61 ≤ c ∧ c ≤ 0x66 then some (c - 0x61 + 10)
  else if 0x41 ≤ c ∧ c ≤ 0x46 then some (c - 0x41 + 10)
  else none

/-- `hex.Decode`, for a text of even length. -/
def decodeHex : Text → Option (List UInt8)
  | a :: b :: s =>
    match fromHexChar a, fromHexChar b, decodeHex s with
    | some x, some y, some bytes => some ((x * 16 + y) :: bytes)
    | _, _, _ => none
  | [] => some []
  | [_] => none

theorem length_decodeHex {s : Text} {bytes : List UInt8} (h : decodeHex s = some bytes) :
    bytes.length * 2 = s.length := by
  fun_induction decodeHex s generalizing bytes with
  | case1 a b s x y rest hrest hx hy ih =>
    obtain rfl := Option.some.inj h
    rw [List.length_cons, List.length_cons, List.length_cons, ← ih hrest]
    omega
  | case2 => cases h
  | case3 =>
    obtain rfl := Option.some.inj h
    rfl
  | case4 => cases h

/-- `ParseDigest`. -/
def parseDigest (s : Text) : Option Digest :=
  match s.findIdx? fun c => c = 0x3A ∨ c = 0x2D with
  | none => none
  | some i =>
    if h : s.take i = ascii "sha256" ∧ (s.drop (i + 1)).length = 64 then
      match hd : decodeHex (s.drop (i + 1)) with
      | some sum => some ⟨sum, by have := length_decodeHex hd; omega⟩
      | none => none
    else none

/-! ### Names -/

structure Name where
  h : Text := []
  n : Text := []
  m : Text := []
  t : Text := []
  deriving DecidableEq

/-- `cutLastAny`: what stands before and after the last byte of this kind. -/
def cutLast (p : UInt8 → Bool) : Text → Option (Text × UInt8 × Text)
  | [] => none
  | b :: s =>
    match cutLast p s with
    | some (before, c, after) => some (b :: before, c, after)
    | none => if p b then some ([], b, s) else none

def maxNameLength : Nat := 350 + 1 + 80 + 1 + 80 + 1 + 80

/-- The loop of `Parse`: each `:` gives a tag, of which the first one stays, until a `/` is met. -/
def parseFrom : Nat → Text → Name → Name
  | 0, _, name => name
  | fuel + 1, s, name =>
    match cutLast (fun c => c = 0x2F ∨ c = 0x3A) s with
    | none => { name with m := s }
    | some (before, c, tail) =>
      if c = 0x3A then parseFrom fuel before { name with t := tail }
      else
        match cutLast (fun c => c = 0x2F) before with
        | none => { name with h := [], n := before, m := tail }
        | some (h, _, n) => { name with h, n, m := tail }

def parse (s : Text) : Name :=
  if s.length > maxNameLength then {} else parseFrom (s.length + 1) s {}

inductive PartKind
  | host | nspace | model | tag
  deriving DecidableEq

def isAlphanumericOrUnderscore (c : UInt8) : Bool :=
  decide (0x41 ≤ c ∧ c ≤ 0x5A) || decide (0x61 ≤ c ∧ c ≤ 0x7A) || decide (0x30 ≤ c ∧ c ≤ 0x39) ||
    decide (c = 0x5F)

def isPartByte (kind : PartKind) (c : UInt8) : Bool :=
  if c = 0x5F ∨ c = 0x2D then true
  else if c = 0x2E then kind ≠ .nspace
  else if c = 0x3A then kind = .host
  else isAlphanumericOrUnderscore c

/-- `isValidPart`; the bytes of a rune beyond ASCII are refused at the first of them. -/
def isValidPart (kind : PartKind) (s : Text) : Bool :=
  decide (s.length ≤ if kind = .host then 350 else 80) &&
    match s with
    | [] => true
    | c :: s => isAlphanumericOrUnderscore c && s.all (isPartByte kind)

def Name.isValid (name : Name) : Bool :=
  (name.h = [] || isValidPart .host name.h) && (name.n = [] || isValidPart .nspace name.n) &&
    (name.t = [] || isValidPart .tag name.t) && name.m ≠ [] && isValidPart .model name.m

def Name.isFullyQualified (name : Name) : Bool :=
  name.isValid && name.h ≠ [] && name.n ≠ [] && name.m ≠ [] && name.t ≠ []

/-! ### Paths -/

/-- A path below `manifests`, of four parts. -/
structure Path where
  h : Text
  n : Text
  m : Text
  t : Text
  deriving DecidableEq

def Path.parts (p : Path) : List Text := [p.h, p.n, p.m, p.t]

def Path.text (p : Path) : Text :=
  ascii "manifests" ++ p.parts.flatMap fun part => 0x2F :: part

/-- `nameToPath`; no part of a valid name is changed when they are joined. -/
def nameToPath (name : Text) : Option Path :=
  let n := parse name
  if n.isFullyQualified then some ⟨n.h, n.n, n.m, n.t⟩ else none

/-- The runes that fold to a letter of ASCII; no other rune matches a byte of a valid name. -/
def foldRune (r : Nat) : Nat :=
  if r = 0x212A then 0x6B
  else if r = 0x17F then 0x73
  else if 0x41 ≤ r ∧ r ≤ 0x5A then r + 0x20
  else r

def fold (s : Text) : List Nat := (runes s).map foldRune

/-- `strings.EqualFold`, where one side is a path of a valid name. -/
def equalFold (s t : Text) : Bool := decide (fold s = fold t)

/-- `splitNameDigest`. -/
def splitNameDigest (s : Text) : Text × Text :=
  match cutLast (fun c => c = 0x40) s with
  | none => (s, [])
  | some (name, _, digest) => (name, digest)

theorem cutLast_of_all {p : UInt8 → Bool} {s : Text} (h : ∀ b ∈ s, p b = false) :
    cutLast p s = none := by
  induction s with
  | nil => rfl
  | cons b s ih => simp [cutLast, ih fun x hx => h x (by simp [hx]), h b (by simp)]

/-- A name without `@` is resolved as it is. -/
@[simp] theorem splitNameDigest_plain {s : Text} (h : 0x40 ∉ s) : splitNameDigest s = (s, []) := by
  have hall (b : UInt8) (hb : b ∈ s) : decide (b = 0x40) = false := by
    rw [decide_eq_false_iff_not]
    rintro rfl
    exact h hb
  rw [splitNameDigest, cutLast_of_all hall]

/-- `s`, as `Resolve` reads it, names the same model as `t`, up to case. -/
def SameName (s t : Text) : Prop :=
  ∃ name p q, splitNameDigest s = (name, []) ∧ nameToPath name = some p ∧ nameToPath t = some q ∧
    equalFold p.text q.text = true

theorem equalFold_iff {s t : Text} : equalFold s t = true ↔ fold s = fold t := decide_eq_true_iff

theorem SameName.refl {s : Text} {p : Path} (h : 0x40 ∉ s) (hp : nameToPath s = some p) :
    SameName s s :=
  ⟨s, p, p, splitNameDigest_plain h, hp, hp, equalFold_iff.mpr rfl⟩

end

section

open Ecco9.Library

abbrev Bytes := List UInt8

/-- The files of the cache, the manifests in the order in which they are listed. -/
structure DiskCache where
  blobs : Digest → Option Bytes := fun _ => none
  manifests : List (Path × Bytes) := []

/-- What is read from an `io.Reader`: the bytes, and whether they end without an error. -/
structure Reader where
  bytes : Bytes
  ends : Bool := true

section

-- SHA-256
variable (sum256 : Bytes → Digest)

/-- `copyNamedFile` for a file that holds `old`: what it holds afterwards, and whether all went well.
What is written to a file that is shorter replaces it all, when it succeeds. -/
def copyNamedFile (old : Option Bytes) (file : Reader) (out : Digest) (size : Nat) :
    Option Bytes × Bool :=
  if ∃ b, old = some b ∧ b.length = size then (old, true)
  else if size = 0 then (some [], true)
  -- `checkWriter` lets the last byte through only where the sum is the one that is expected
  else if file.ends ∧ file.bytes.length = size ∧ sum256 file.bytes = out then
    (some file.bytes, true)
  else (some [], false)

def DiskCache.setBlob (c : DiskCache) (d : Digest) (file : Option Bytes) : DiskCache :=
  { c with blobs := fun d' => if d' = d then file else c.blobs d' }

def DiskCache.put (c : DiskCache) (d : Digest) (r : Reader) (size : Nat) : DiskCache × Bool :=
  let (file, ok) := copyNamedFile sum256 (c.blobs d) r d size
  (c.setBlob d file, ok)

/-- `Get`: the size of the blob. -/
def DiskCache.get (c : DiskCache) (d : Digest) : Option Nat :=
  match c.blobs d with
  | some (b :: bytes) => some (b :: bytes).length
  | _ => none

/-! ### Manifests -/

/-- The first manifest that matches the name, or the one that would. -/
def DiskCache.manifestPath (c : DiskCache) (name : Text) : Option Path :=
  match nameToPath name with
  | none => none
  | some maybe =>
    match c.manifests.find? fun l => equalFold maybe.text l.1.text with
    | some (l, _) => some l
    | none => some maybe

def DiskCache.manifest (c : DiskCache) (p : Path) : Option Bytes :=
  (c.manifests.find? fun l => l.1 = p).map (·.2)

/-- A new file, at its place in the order of the listing. -/
def insertFile (p : Path) (file : Bytes) : List (Path × Bytes) → List (Path × Bytes)
  | [] => [(p, file)]
  | l :: files =>
    if p.parts < l.1.parts then (p, file) :: l :: files else l :: insertFile p file files

def writeFile (p : Path) (file : Bytes) (files : List (Path × Bytes)) : List (Path × Bytes) :=
  if files.any fun l => l.1 = p then files.map fun l => if l.1 = p then (p, file) else l
  else insertFile p file files

def DiskCache.setManifest (c : DiskCache) (p : Path) (file : Option Bytes) : DiskCache :=
  match file with
  | some file => { c with manifests := writeFile p file c.manifests }
  | none => c

def readLimit : Nat := 2 ^ 20

/-- `Resolve`. The manifest is put among the blobs on the way. -/
def DiskCache.resolve (c : DiskCache) (name : Text) : DiskCache × Option Digest :=
  match splitNameDigest name with
  | (name, []) =>
    match c.manifestPath name with
    | none => (c, none)
    | some p =>
      match c.manifest p with
      | none => (c, none)
      | some file =>
        let data := file.take readLimit
        let d := sum256 data
        match c.put sum256 d ⟨data, true⟩ data.length with
        | (c, true) => (c, some d)
        | (c, false) => (c, none)
  | (_, digest) => (c, parseDigest digest)

def DiskCache.link (c : DiskCache) (name : Text) (d : Digest) : DiskCache × Bool :=
  match c.manifestPath name with
  | none => (c, false)
  | some p =>
    match c.blobs d with
    | none => (c, false)
    | some blob =>
      let (file, ok) := copyNamedFile sum256 (c.manifest p) ⟨blob, true⟩ d blob.length
      (c.setManifest p file, ok)

def DiskCache.unlink (c : DiskCache) (name : Text) : DiskCache × Bool :=
  match c.manifestPath name with
  | none => (c, false)
  | some p =>
    ({ c with manifests := c.manifests.filter fun l => l.1 ≠ p }, (c.manifest p).isSome)

inductive Op
  | put (d : Digest) (r : Reader) (size : Nat)
  | link (name : Text) (d : Digest)
  | unlink (name : Text)
  | resolve (name : Text)

def Op.apply (c : DiskCache) : Op → DiskCache
  | put d r size => (c.put sum256 d r size).1
  | link name d => (c.link sum256 name d).1
  | unlink name => (c.unlink name).1
  | resolve name => (c.resolve sum256 name).1

def DiskCache.run (c : DiskCache) (ops : List Op) : DiskCache := ops.foldl (Op.apply sum256) c

end

end

end Ecco9.Blob
