import Ecco9.Blob.Cache

/-! How `copyNamedFile` writes a blob while it reads it: the bytes go into the file itself, through a
`checkWriter` that lets the last of them pass only when the sum is the one that is expected. -/

namespace Ecco9.Blob

open Ecco9.Library

/-- What the system does with a file: whether it can be opened and closed, and how many bytes of it can
be written before a write fails. Truncating and removing it succeed. -/
structure Disk where
  opens : Bool := true
  room : Option Nat := none
  closes : Bool := true

/-- What is read at a time, and whether it ends without an error. -/
structure ChunkReader where
  chunks : List Bytes
  ends : Bool := true

def ChunkReader.whole (r : ChunkReader) : Reader := ⟨r.chunks.flatten, r.ends⟩

/-- `h` is all that was hashed, `f` the contents of the file and `n` the offset in it. -/
structure CheckWriter where
  size : Nat
  d : Digest
  f : Bytes
  h : Bytes := []
  n : Nat := 0
  err : Bool := false

/-- A file with `p` written at an offset. -/
def overwrite (f : Bytes) (offset : Nat) (p : Bytes) : Bytes :=
  f.take offset ++ p ++ f.drop (offset + p.length)

def Disk.takes (disk : Disk) (offset : Nat) (p : Bytes) : Nat :=
  match disk.room with
  | none => p.length
  | some room => min p.length (room - offset)

/-- What a file holds when it has been opened, `O_TRUNC` where it was too long. -/
def keptOf (size : Nat) : Option Bytes → Bytes
  | none => []
  | some b => if b.length > size then [] else b

section
variable (sum256 : Bytes → Digest) (disk : Disk)

/-- The writer, how much it wrote, and whether all went well. -/
def CheckWriter.write (w : CheckWriter) (p : Bytes) : CheckWriter × Nat × Bool :=
  if w.err then (w, 0, false)
  else
    let w := { w with h := w.h ++ p }
    let nextSize := w.n + p.length
    if nextSize = w.size ∧ sum256 w.h ≠ w.d then ({ w with err := true }, 0, false)
    else if nextSize > w.size then ({ w with err := true }, 0, false)
    else
      let n := disk.takes w.n p
      ({ w with f := overwrite w.f w.n (p.take n), n := w.n + n, err := n < p.length }, n,
        n = p.length)

/-- `io.Copy`. -/
def CheckWriter.copy (ends : Bool) (w : CheckWriter) : List Bytes → CheckWriter × Nat × Bool
  | [] => (w, 0, ends)
  | p :: chunks =>
    if p = [] then w.copy ends chunks
    else
      match w.write sum256 disk p with
      | (w, n, false) => (w, n, false)
      | (w, n, true) =>
        if n ≠ p.length then (w, n, false)
        else
          let (w, m, ok) := w.copy ends chunks
          (w, n + m, ok)

/-- `copyNamedFile` for a file that holds `old`, as it goes through the writer. -/
def copyChunks (old : Option Bytes) (file : ChunkReader) (out : Digest) (size : Nat) :
    Option Bytes × Bool :=
  if old.map List.length = some size then (old, true)
  else if !disk.opens then (old, false)
  else
    let f := keptOf size old
    if size = 0 then (some f, true)
    else
      match CheckWriter.copy sum256 disk file.ends { d := out, size, f } file.chunks with
      | (_, _, false) => (some [], false)
      | (w, n, true) =>
        if n < size then (some [], false)
        else if !disk.closes then (none, false)
        else (some w.f, true)

/-- `Put`, as it goes through the writer. -/
def DiskCache.putChunks (c : DiskCache) (d : Digest) (r : ChunkReader) (size : Nat) :
    DiskCache × Bool :=
  let (file, ok) := copyChunks sum256 disk (c.blobs d) r d size
  (c.setBlob d file, ok)

end

section
variable {sum256 : Bytes → Digest} {disk : Disk}

/-! ### Writing -/

/-- The file holds what was hashed, and behind it what it held before; when it has its size, the sum is
right. -/
structure CheckWriter.Holds (sum256 : Bytes → Digest) (w : CheckWriter) (old : Bytes) : Prop where
  err : w.err = false
  n : w.n = w.h.length
  f : w.f = w.h ++ old.drop w.h.length
  le : w.n ≤ w.size
  sum : w.n = w.size → sum256 w.h = w.d

theorem overwrite_behind (h old p : Bytes) :
    overwrite (h ++ old.drop h.length) h.length p = h ++ p ++ old.drop (h ++ p).length := by
  rw [overwrite, List.take_left, ← List.drop_drop, List.drop_left, List.drop_drop, List.length_append]

theorem CheckWriter.Holds.write {w w' : CheckWriter} {old p : Bytes} {n : Nat}
    (holds : w.Holds sum256 old) (h : w.write sum256 disk p = (w', n, true)) :
    w'.Holds sum256 old ∧ w'.h = w.h ++ p ∧ n = p.length ∧ w'.size = w.size ∧ w'.d = w.d := by
  rw [CheckWriter.write, holds.err, if_neg Bool.false_ne_true] at h
  dsimp only at h
  split_ifs at h with hsum hsize
  · cases h
  · cases h
  · rw [Prod.mk.injEq, Prod.mk.injEq, decide_eq_true_eq] at h
    obtain ⟨rfl, rfl, htakes⟩ := h
    rw [htakes, List.take_length]
    refine ⟨⟨?_, ?_, ?_, ?_, ?_⟩, rfl, rfl, rfl, rfl⟩
    · simp
    · rw [holds.n, List.length_append]
    · rw [holds.f, holds.n, overwrite_behind]
    · exact Nat.le_of_not_lt hsize
    · intro hlast
      by_contra hne
      exact hsum ⟨hlast, hne⟩

theorem CheckWriter.Holds.copy {w w' : CheckWriter} {old : Bytes} {chunks : List Bytes} {ends : Bool}
    {n : Nat} (holds : w.Holds sum256 old)
    (h : w.copy sum256 disk ends chunks = (w', n, true)) :
    ends = true ∧ w'.Holds sum256 old ∧ w'.h = w.h ++ chunks.flatten ∧ n = chunks.flatten.length ∧
      w'.size = w.size ∧ w'.d = w.d := by
  induction chunks generalizing w n with
  | nil =>
    cases h
    exact ⟨rfl, holds, by simp, rfl, rfl, rfl⟩
  | cons p chunks ih =>
    rw [CheckWriter.copy] at h
    by_cases hp : p = []
    · rw [if_pos hp] at h
      rw [hp]
      exact ih holds h
    · rw [if_neg hp] at h
      rcases hwrite : w.write sum256 disk p with ⟨w₁, n₁, ok⟩
      rw [hwrite] at h
      cases ok with
      | false => cases h
      | true =>
        obtain ⟨holds₁, hh, rfl, hsize, hd⟩ := holds.write hwrite
        dsimp only at h
        rw [if_neg (not_not.mpr rfl)] at h
        rcases hcopy : w₁.copy sum256 disk ends chunks with ⟨w₂, n₂, ok⟩
        rw [hcopy] at h
        cases h
        obtain ⟨hends, holds₂, hh₂, rfl, hsize₂, hd₂⟩ := ih holds₁ hcopy
        refine ⟨hends, holds₂, ?_, ?_, hsize₂.trans hsize, hd₂.trans hd⟩
        · rw [hh₂, hh, List.flatten_cons, List.append_assoc]
        · rw [List.flatten_cons, List.length_append]

/-- What the writer has when it starts. -/
theorem holds_start {size : Nat} (hsize : 0 < size) (d : Digest) (f : Bytes) :
    CheckWriter.Holds sum256 { d, size, f } f where
  err := rfl
  n := rfl
  f := rfl
  le := Nat.zero_le _
  sum := fun h => absurd h (Nat.ne_of_lt hsize)

/-! ### The file that is written -/

/-- What is written to a file of another size: all of what was read, with the right sum; or nothing
is left. -/
inductive Copied (sum256 : Bytes → Digest) (disk : Disk) (old : Option Bytes) (file : ChunkReader)
    (out : Digest) (size : Nat) : Option Bytes → Bool → Prop
  | closed : disk.opens = false → Copied sum256 disk old file out size old false
  | empty : disk.opens = true → size = 0 → Copied sum256 disk old file out size (some []) true
  | failed : disk.opens = true → 0 < size → Copied sum256 disk old file out size (some []) false
  | removed : disk.opens = true → disk.closes = false →
      Copied sum256 disk old file out size none false
  | written : disk.opens = true → 0 < size → file.ends = true → file.chunks.flatten.length = size →
      sum256 file.chunks.flatten = out →
      Copied sum256 disk old file out size (some file.chunks.flatten) true

theorem copyChunks_copied {old f' : Option Bytes} {file : ChunkReader} {out : Digest} {size : Nat}
    {ok : Bool} (hold : ∀ b, old = some b → b.length ≠ size)
    (h : copyChunks sum256 disk old file out size = (f', ok)) :
    Copied sum256 disk old file out size f' ok := by
  have hsize : old.map List.length ≠ some size := by
    intro heq
    obtain ⟨b, hb, hlen⟩ := Option.map_eq_some_iff.mp heq
    exact hold b hb hlen
  have hkept : (keptOf size old).length ≤ size ∧ (size = 0 → keptOf size old = []) := by
    cases old with
    | none => exact ⟨Nat.zero_le _, fun _ => rfl⟩
    | some b =>
      have hb := hold b rfl
      rw [keptOf]
      split_ifs with hlong
      · exact ⟨Nat.zero_le _, fun _ => rfl⟩
      · exact ⟨Nat.le_of_not_lt hlong, fun hzero => absurd hzero (by omega)⟩
  rw [copyChunks, if_neg hsize] at h
  cases hopens : disk.opens with
  | false =>
    rw [hopens] at h
    cases h
    exact .closed hopens
  | true =>
    rw [hopens, if_neg (by decide)] at h
    dsimp only at h
    by_cases hzero : size = 0
    · rw [if_pos hzero, hkept.2 hzero] at h
      cases h
      exact .empty hopens hzero
    · have hpos := Nat.pos_of_ne_zero hzero
      rw [if_neg hzero] at h
      rcases hcopy : CheckWriter.copy sum256 disk file.ends { d := out, size, f := keptOf size old }
        file.chunks with ⟨w, n, ok'⟩
      rw [hcopy] at h
      cases ok' with
      | false =>
        cases h
        exact .failed hopens hpos
      | true =>
        obtain ⟨hends, holds, hh, rfl, hsize', hd⟩ := (holds_start hpos out _).copy hcopy
        rw [List.nil_append] at hh
        dsimp only at h hsize' hd
        by_cases hshort : file.chunks.flatten.length < size
        · rw [if_pos hshort] at h
          cases h
          exact .failed hopens hpos
        · rw [if_neg hshort] at h
          have hn := holds.n
          have hle := holds.le
          rw [hh] at hn
          have hfull : w.n = w.size := by omega
          have hf : w.f = file.chunks.flatten := by
            rw [holds.f, hh, List.drop_eq_nil_of_le (by omega), List.append_nil]
          have hsum := holds.sum hfull
          rw [hh, hd] at hsum
          cases hcloses : disk.closes with
          | false =>
            rw [hcloses] at h
            cases h
            exact .removed hopens hcloses
          | true =>
            rw [hcloses, if_neg (by decide), hf] at h
            cases h
            exact .written hopens hpos hends (by omega) hsum

/-! ### Files that can always be written -/

theorem CheckWriter.Holds.write_whole {w : CheckWriter} {old p rest : Bytes}
    (holds : w.Holds sum256 old) (hlen : (w.h ++ p ++ rest).length = w.size)
    (hsum : sum256 (w.h ++ p ++ rest) = w.d) : ∃ w', w.write sum256 {} p = (w', p.length, true) := by
  have hn := holds.n
  simp only [List.length_append] at hlen
  refine ⟨{ w with
    h := w.h ++ p, f := overwrite w.f w.n p, n := w.n + p.length, err := false }, ?_⟩
  have hnot : ¬(w.n + p.length = w.size ∧ sum256 (w.h ++ p) ≠ w.d) := by
    rintro ⟨hlast, hne⟩
    have hrest : rest = [] := List.eq_nil_of_length_eq_zero (by omega)
    rw [hrest, List.append_nil] at hsum
    exact hne hsum
  rw [CheckWriter.write, holds.err, if_neg Bool.false_ne_true]
  dsimp only
  rw [if_neg hnot, if_neg (by omega), Disk.takes]
  simp

theorem CheckWriter.Holds.copy_whole {w : CheckWriter} {old : Bytes} {chunks : List Bytes}
    (holds : w.Holds sum256 old) (hlen : (w.h ++ chunks.flatten).length = w.size)
    (hsum : sum256 (w.h ++ chunks.flatten) = w.d) :
    (w.copy sum256 {} true chunks).2.2 = true := by
  induction chunks generalizing w with
  | nil => rfl
  | cons p chunks ih =>
    rw [CheckWriter.copy]
    rw [List.flatten_cons, ← List.append_assoc] at hlen hsum
    by_cases hp : p = []
    · rw [hp, List.append_nil] at hlen hsum
      rw [if_pos hp]
      exact ih holds hlen hsum
    · obtain ⟨w₁, hwrite⟩ := holds.write_whole hlen hsum
      obtain ⟨holds₁, hh, -, hsize, hd⟩ := holds.write hwrite
      rw [if_neg hp, hwrite]
      dsimp only
      rw [if_neg (not_not.mpr rfl)]
      exact ih holds₁ (by rw [hh, hsize, hlen]) (by rw [hh, hd, hsum])

/-- A blob that is read without an error, with its size and its sum, is written. -/
theorem copyChunks_whole {old : Option Bytes} {file : ChunkReader} {out : Digest} {size : Nat}
    (hold : ∀ b, old = some b → b.length ≠ size) (hpos : 0 < size) (hends : file.ends = true)
    (hlen : file.chunks.flatten.length = size) (hsum : sum256 file.chunks.flatten = out) :
    (copyChunks sum256 {} old file out size).2 = true := by
  have hsize : old.map List.length ≠ some size := by
    intro heq
    obtain ⟨b, hb, hlen⟩ := Option.map_eq_some_iff.mp heq
    exact hold b hb hlen
  have holds : CheckWriter.Holds sum256 { d := out, size, f := keptOf size old } _ :=
    holds_start hpos out _
  have hok := holds.copy_whole hlen hsum
  rw [copyChunks, if_neg hsize, if_neg (by decide), hends]
  dsimp only
  rw [if_neg (Nat.ne_of_gt hpos)]
  rcases hcopy : CheckWriter.copy sum256 {} true { d := out, size, f := keptOf size old }
    file.chunks with ⟨w, n, ok⟩
  rw [hcopy] at hok
  obtain rfl : ok = true := hok
  obtain ⟨-, -, -, rfl, -, -⟩ := holds.copy hcopy
  dsimp only
  rw [if_neg (by omega), if_neg (by decide)]

/-- Then only the whole of what is read counts. -/
theorem copyChunks_eq (old : Option Bytes) (file : ChunkReader) (out : Digest) (size : Nat) :
    copyChunks sum256 {} old file out size = copyNamedFile sum256 old file.whole out size := by
  rw [copyNamedFile]
  by_cases hsame : ∃ b, old = some b ∧ b.length = size
  · rw [if_pos hsame, copyChunks, if_pos (Option.map_eq_some_iff.mpr hsame)]
  · have hold : ∀ b, old = some b → b.length ≠ size := fun b hb hlen => hsame ⟨b, hb, hlen⟩
    rw [if_neg hsame]
    rcases hcopied : copyChunks sum256 {} old file out size with ⟨f', ok⟩
    cases copyChunks_copied hold hcopied with
    | closed hopens => cases hopens
    | empty _ hzero => rw [if_pos hzero]
    | removed _ hcloses => cases hcloses
    | written _ hpos hends hlen hsum =>
      rw [if_neg (Nat.ne_of_gt hpos), ChunkReader.whole, if_pos ⟨hends, hlen, hsum⟩]
    | failed _ hpos =>
      rw [if_neg (Nat.ne_of_gt hpos), ChunkReader.whole, if_neg]
      rintro ⟨hends, hlen, hsum⟩
      have hok := copyChunks_whole hold hpos hends hlen hsum
      rw [hcopied] at hok
      cases hok

/-! ### Blobs -/

theorem putChunks_eq (c : DiskCache) (d : Digest) (r : ChunkReader) (size : Nat) :
    c.putChunks sum256 {} d r size = c.put sum256 d r.whole size := by
  rw [DiskCache.putChunks, copyChunks_eq, DiskCache.put]

/-- A blob that was put has its size and its sum; one that was not has another size, or is not there.
What is found afterwards was summed, unless the file could not be opened and is as it was. -/
theorem put_integrity {c c' : DiskCache} {d : Digest} {r : ChunkReader} {size : Nat} {ok : Bool}
    (hold : ∀ b, c.blobs d = some b → b.length ≠ size)
    (h : c.putChunks sum256 disk d r size = (c', ok)) :
    (ok = true → ∃ b, c'.blobs d = some b ∧ b.length = size ∧ (0 < size → sum256 b = d)) ∧
    (ok = false → ∀ b, c'.blobs d = some b → b.length ≠ size) ∧
    ∀ n, c'.get d = some n → (∃ b, c'.blobs d = some b ∧ b.length = n ∧ sum256 b = d) ∨
      disk.opens = false ∧ c'.blobs d = c.blobs d := by
  rw [DiskCache.putChunks] at h
  rcases hcopied : copyChunks sum256 disk (c.blobs d) r d size with ⟨f', ok'⟩
  rw [hcopied] at h
  obtain ⟨rfl, rfl⟩ := Prod.mk.inj h
  have hfile : (c.setBlob d f').blobs d = f' := if_pos rfl
  rw [DiskCache.get, hfile]
  cases copyChunks_copied hold hcopied with
  | closed hopens =>
    exact ⟨Bool.noConfusion, fun _ => hold, fun _ _ => .inr ⟨hopens, rfl⟩⟩
  | empty _ hzero =>
    refine ⟨fun _ => ⟨[], rfl, hzero.symm, fun hpos => absurd hzero (Nat.ne_of_gt hpos)⟩, Bool.noConfusion, ?_⟩
    intro n hget
    cases hget
  | removed _ _ =>
    refine ⟨Bool.noConfusion, fun _ b hb => ?_, fun n hget => ?_⟩
    · cases hb
    · cases hget
  | failed _ hpos =>
    refine ⟨Bool.noConfusion, fun _ b hb hlen => ?_, fun n hget => ?_⟩
    · cases hb
      exact Nat.ne_of_lt hpos hlen
    · cases hget
  | written _ _ _ hlen hsum =>
    refine ⟨fun _ => ⟨_, rfl, hlen, fun _ => hsum⟩, Bool.noConfusion, fun n hget => .inl ?_⟩
    refine ⟨_, rfl, ?_, hsum⟩
    generalize r.chunks.flatten = bytes at hget
    cases bytes with
    | nil => cases hget
    | cons b bytes =>
      cases hget
      rfl

end

/-- The sums of the text `x` and of the empty one. -/
def sumsOfX (data : Bytes) : Digest :=
  let sum := if data = ascii "x" then
      ascii "sha256:2d711642b726b04401627ca9fbac32f5c8530fb1903cc4db02258717921a4881"
    else ascii "sha256:e3b0c44298fc1c149afbf4c8996fb92427ae41e4649b934ca495991b7852b855"
  (parseDigest sum).getD ⟨List.replicate 32 1, rfl⟩

/-- A file that is too long for the text `x`. -/
def longer : DiskCache where
  blobs := fun d => if d = sumsOfX (ascii "x") then some (ascii "yyy") else none

theorem put_over_longer : ∃ c', longer.putChunks sumsOfX {} (sumsOfX (ascii "x"))
      ⟨[[], ascii "x"], true⟩ 1 = (c', true) ∧
    ∃ b, c'.blobs (sumsOfX (ascii "x")) = some b ∧ b.length = 1 ∧
      sumsOfX b = sumsOfX (ascii "x") := by
  refine ⟨_, rfl, ?_⟩
  have hold : ∀ b, longer.blobs (sumsOfX (ascii "x")) = some b → b.length ≠ 1 := by
    have hblob : longer.blobs (sumsOfX (ascii "x")) = some (ascii "yyy") := by simp [longer]
    intro b hb
    obtain rfl := Option.some.inj (hblob.symm.trans hb)
    decide
  have put : longer.putChunks sumsOfX {} (sumsOfX (ascii "x")) ⟨[[], ascii "x"], true⟩ 1 =
    (_, true) := rfl
  obtain ⟨b, hb, hlen, hsum⟩ := (put_integrity hold put).1 rfl
  exact ⟨b, hb, hlen, hsum Nat.one_pos⟩

/-- No bytes are put under the sum of another text. -/
theorem put_zero_unsummed : ¬ ∀ (sum256 : Bytes → Digest) (c c' : DiskCache) (d : Digest)
    (r : ChunkReader) (size : Nat) (ok : Bool), (∀ b, c.blobs d = some b → b.length ≠ size) →
    c.putChunks sum256 {} d r size = (c', ok) →
      (ok = true → ∃ b, c'.blobs d = some b ∧ b.length = size ∧ sum256 b = d) ∧
      (ok = false → ∀ b, c'.blobs d = some b → b.length ≠ size) := by
  intro h
  obtain ⟨b, hb, -, hsum⟩ := (h sumsOfX {} _ (sumsOfX (ascii "x")) ⟨[ascii "x"], true⟩ 0 true
    (fun b hb => by cases hb) rfl).1 rfl
  have hempty : b = [] := by
    have hfile : some [] = some b := hb
    cases hfile
    rfl
  rw [hempty] at hsum
  revert hsum
  decide

end Ecco9.Blob
