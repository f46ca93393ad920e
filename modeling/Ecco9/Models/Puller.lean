import Ecco9.Library.Utf8
import Mathlib.Data.List.Basic

/-! The blob store and `Puller.Pull` of `org/ecco9-models/models`: a stream that fails is gone on with
from where it stands, by a `Put` that begins anew. -/

universe u

namespace Ecco9.Models

open Ecco9.Library

/-! ### Streams -/

/-- What one `Read` of a stream brings, and whether it fails, be it in the stream or when what was
read is written to the disk. -/
structure Read where
  bytes : Text
  fails : Bool := false
  deriving DecidableEq

/-- What is still to be read of a stream. Behind the last `Read` it is at its end. -/
abbrev Reader := List Read

def Reader.bytes (r : Reader) : Text := r.flatMap Read.bytes

/-- `io.Copy`: what was copied, what is left of the stream, and whether its end was reached. -/
def copy : Reader → Text × Reader × Bool
  | [] => ([], [], true)
  | item :: r =>
    if item.fails then (item.bytes, r, false)
    else
      let (bytes, rest, ok) := copy r
      (item.bytes ++ bytes, rest, ok)

/-! ### The blob store -/

/-- What the disk does in one `Put`: the temporary file can be created, and it can be closed and
renamed. -/
structure Disk where
  creates : Bool := true
  renames : Bool := true
  deriving DecidableEq

structure FSStore (D : Type u) where
  blobs : D → Option Text := fun _ => none

structure Layer (D : Type u) where
  mediaType : Text
  digest : D
  size : Nat
  deriving DecidableEq

structure Manifest (D : Type u) where
  name : Text
  config : Layer D
  layers : List (Layer D)
  labels : List (Text × Text) := []
  deriving DecidableEq

/-- The layers that a manifest refers to. -/
def Manifest.all (m : Manifest D) : List (Layer D) := m.layers ++ [m.config]

/-- The manifests, one for a name, and the blobs. -/
structure Registry (D : Type u) where
  manifests : List (Manifest D) := []
  store : FSStore D := {}

/-- The manifest that `Register` and `Pull` make of one blob. -/
def newManifest (name : Text) (digest : D) (size : Nat) (labels : List (Text × Text)) :
    Manifest D where
  name := name
  config := ⟨ascii "application/vnd.ollama.image.config", digest, size⟩
  layers := [⟨ascii "application/vnd.ollama.image.model", digest, size⟩]
  labels := labels

def Registry.get (r : Registry D) (name : Text) : Option (Manifest D) :=
  r.manifests.find? fun m => m.name = name

/-- `r.manifests[m.Name] = m` -/
def Registry.setManifest (r : Registry D) (m : Manifest D) : Registry D :=
  { r with manifests := m :: r.manifests.filter fun m' => m'.name ≠ m.name }

section

variable {D : Type u} [DecidableEq D]
-- SHA-256
variable (sum256 : Text → D)

def FSStore.set (s : FSStore D) (digest : D) (blob : Option Text) : FSStore D :=
  ⟨fun d => if d = digest then blob else s.blobs d⟩

/-- `Put`: the digest and the size, and what is left of the stream. -/
def FSStore.put (s : FSStore D) (disk : Disk) (r : Reader) :
    FSStore D × Reader × Option (D × Nat) :=
  if disk.creates then
    match copy r with
    | (bytes, rest, true) =>
      if disk.renames then
        (s.set (sum256 bytes) (some bytes), rest, some (sum256 bytes, bytes.length))
      else (s, rest, none)
    | (_, rest, false) => (s, rest, none)
  else (s, r, none)

/-! ### Pulling -/

/-- One attempt of `Pull`: the disk, and whether the context ends while the next attempt is waited
for. -/
structure Attempt where
  disk : Disk := {}
  cancelled : Bool := false
  deriving DecidableEq

/-- The loop of `Pull`: the first attempt, and the ones that are allowed after it. -/
def FSStore.putAgain (s : FSStore D) (r : Reader) (attempt : Attempt) :
    List Attempt → FSStore D × Option (D × Nat)
  | [] =>
    let (s, _, put) := s.put sum256 attempt.disk r
    (s, put)
  | retry :: retries =>
    match s.put sum256 attempt.disk r with
    | (s, _, some put) => (s, some put)
    | (s, rest, none) =>
      if attempt.cancelled then (s, none) else s.putAgain rest retry retries

/-- `Pull`, where `stream` is what `Fetch` returns, and whether it returns `nil`. -/
def Registry.pull (r : Registry D) (name : Text) (stream : Option Reader) (attempt : Attempt)
    (retries : List Attempt) : Registry D × Bool :=
  match stream with
  | none => (r, false)
  | some stream =>
    match r.store.putAgain sum256 stream attempt retries with
    | (store, none) => ({ r with store }, false)
    | (store, some (digest, size)) =>
      let r := { r with store }
      match r.get name with
      | some _ => (r, true)
      | none =>
        (r.setManifest (newManifest name digest size [(ascii "format", ascii "gguf")]), true)

end

/-! ### What an attempt takes of the stream -/

def Attempt.goesThrough (a : Attempt) (r : Reader) : Bool :=
  a.disk.creates && (copy r).2.2 && a.disk.renames

def Attempt.taken (a : Attempt) (r : Reader) : Text := if a.disk.creates then (copy r).1 else []

def Attempt.rest (a : Attempt) (r : Reader) : Reader := if a.disk.creates then (copy r).2.1 else r

/-- The bytes that are taken from the stream before the attempt that goes through, if there is one. -/
def lost (r : Reader) (a : Attempt) : List Attempt → Option Text
  | [] => if a.goesThrough r then some [] else none
  | a' :: retries =>
    if a.goesThrough r then some []
    else if a.cancelled then none
    else (lost (a.rest r) a' retries).map (a.taken r ++ ·)

/-- No attempt that fails takes a byte from the stream when a later one goes through. -/
def Undisturbed (stream : Reader) (a : Attempt) (retries : List Attempt) : Prop :=
  ∀ taken, lost stream a retries = some taken → taken = []

theorem copy_rest {r : Reader} (h : (copy r).2.2 = true) : (copy r).2.1 = [] := by
  induction r with
  | nil => rfl
  | cons item r ih =>
    rw [copy] at h ⊢
    split
    · rename_i fails
      rw [if_pos fails] at h
      cases h
    · rename_i reads
      rw [if_neg reads] at h
      exact ih h

theorem copy_bytes (r : Reader) : (copy r).1 ++ Reader.bytes (copy r).2.1 = r.bytes := by
  induction r with
  | nil => rfl
  | cons item r ih =>
    rw [copy]
    split
    · rfl
    · change item.bytes ++ (copy r).1 ++ _ = item.bytes ++ Reader.bytes r
      rw [← ih]
      exact List.append_assoc ..

theorem Attempt.taken_rest (a : Attempt) (r : Reader) : a.taken r ++ (a.rest r).bytes = r.bytes := by
  rw [taken, rest]
  split
  · exact copy_bytes r
  · rfl

theorem Attempt.goesThrough_copy {a : Attempt} {r : Reader} (h : a.goesThrough r = true) :
    (copy r).1 = r.bytes := by
  simp only [goesThrough, Bool.and_eq_true] at h
  have all := copy_bytes r
  rwa [copy_rest h.1.2, Reader.bytes, List.flatMap_nil, List.append_nil] at all

section

variable {D : Type u} [DecidableEq D] {sum256 : Text → D}

theorem FSStore.put_eq (s : FSStore D) (a : Attempt) (r : Reader) :
    s.put sum256 a.disk r =
      if a.goesThrough r then
        (s.set (sum256 r.bytes) (some r.bytes), a.rest r, some (sum256 r.bytes, r.bytes.length))
      else (s, a.rest r, none) := by
  cases through : a.goesThrough r with
  | true =>
    have all := Attempt.goesThrough_copy through
    simp only [Attempt.goesThrough, Bool.and_eq_true] at through
    obtain ⟨⟨creates, ends⟩, renames⟩ := through
    rw [put, if_pos creates, if_pos rfl, Attempt.rest, if_pos creates, ← all]
    generalize copy r = copied at ends ⊢
    obtain ⟨bytes, rest, ok⟩ := copied
    obtain rfl : ok = true := ends
    exact if_pos renames
  | false =>
    rw [put, if_neg Bool.false_ne_true, Attempt.rest]
    simp only [Attempt.goesThrough] at through
    split
    · rename_i creates
      rw [creates, Bool.true_and] at through
      generalize copy r = copied at through ⊢
      obtain ⟨bytes, rest, ok⟩ := copied
      cases ok with
      | false => rfl
      | true =>
        have fixed : a.disk.renames = false := through
        exact if_neg (Bool.eq_false_iff.mp fixed)
    · rfl

theorem lost_isPrefix {r : Reader} {a : Attempt} {retries : List Attempt} {taken : Text}
    (h : lost r a retries = some taken) : taken <+: r.bytes := by
  induction retries generalizing r a taken with
  | nil =>
    rw [lost] at h
    split at h <;> cases h
    exact List.nil_prefix
  | cons a' retries ih =>
    rw [lost] at h
    split at h
    · cases h
      exact List.nil_prefix
    · split at h
      · cases h
      · obtain ⟨later, hlater, rfl⟩ := Option.map_eq_some_iff.mp h
        rw [← a.taken_rest r]
        exact List.prefix_append_right_inj _ |>.mpr (ih hlater)

/-- What is put in the end is what the attempts before have left of the stream. -/
theorem FSStore.putAgain_eq (s : FSStore D) (r : Reader) (a : Attempt) (retries : List Attempt) :
    s.putAgain sum256 r a retries =
      match lost r a retries with
      | none => (s, none)
      | some taken =>
        let bytes := r.bytes.drop taken.length
        (s.set (sum256 bytes) (some bytes), some (sum256 bytes, bytes.length)) := by
  induction retries generalizing r a with
  | nil =>
    rw [putAgain, put_eq, lost]
    cases a.goesThrough r <;> rfl
  | cons a' retries ih =>
    rw [putAgain, put_eq, lost]
    cases a.goesThrough r with
    | true => rfl
    | false =>
      rw [if_neg Bool.false_ne_true, if_neg Bool.false_ne_true]
      dsimp only
      cases a.cancelled with
      | true => rfl
      | false =>
        rw [if_neg Bool.false_ne_true, if_neg Bool.false_ne_true, ih]
        cases lost (a.rest r) a' retries with
        | none => rfl
        | some taken =>
          dsimp only [Option.map_some]
          rw [← a.taken_rest r, List.length_append, ← List.drop_drop, List.drop_left]

/-! ### Integrity -/

@[simp] theorem FSStore.set_blobs (s : FSStore D) (d : D) (blob : Option Text) (d' : D) :
    (s.set d blob).blobs d' = if d' = d then blob else s.blobs d' := rfl

omit [DecidableEq D] in
@[simp] theorem Registry.get_setManifest (r : Registry D) (m : Manifest D) :
    (r.setManifest m).get m.name = some m := by
  simp [setManifest, get]

/-- What a pull of a new name that is given the stream `fetched` leaves behind. -/
structure Integrity (sum256 : Text → D) (r r' : Registry D) (ok : Bool) (name : Text)
    (fetched : Option Reader) : Prop where
  pulled : ok = true → ∃ stream m, fetched = some stream ∧ r'.get name = some m ∧
    ∀ l ∈ m.all, l.digest = sum256 stream.bytes ∧ l.size = stream.bytes.length ∧
      r'.store.blobs l.digest = some stream.bytes
  failed : ok = false → r'.manifests = r.manifests

omit [DecidableEq D] in
theorem mem_all_newManifest {name : Text} {digest : D} {size : Nat} {labels : List (Text × Text)}
    {l : Layer D} (h : l ∈ (newManifest name digest size labels).all) :
    l.digest = digest ∧ l.size = size := by
  simp only [Manifest.all, newManifest, List.cons_append, List.nil_append, List.mem_cons,
    List.not_mem_nil, or_false] at h
  rcases h with rfl | rfl <;> exact ⟨rfl, rfl⟩

/-- A pull of a new name keeps the whole stream, and nothing when it fails, exactly when no attempt
that fails takes a byte from it. -/
theorem Registry.pull_integrity_iff {r : Registry D} {name : Text} (new : r.get name = none)
    (fetched : Option Reader) (a : Attempt) (retries : List Attempt) :
    Integrity sum256 r (r.pull sum256 name fetched a retries).1
      (r.pull sum256 name fetched a retries).2 name fetched ↔
    ∀ stream, fetched = some stream → Undisturbed stream a retries := by
  -- a pull that fails does as it is told
  have fails (r' : Registry D) (same : r'.manifests = r.manifests) :
      Integrity sum256 r r' false name fetched := by
    constructor
    · intro h
      cases h
    · exact fun _ => same
  cases fetched with
  | none => exact iff_of_true (fails r rfl) (by simp)
  | some stream =>
    simp only [Option.some.injEq, forall_eq']
    rw [pull]
    dsimp only
    rw [FSStore.putAgain_eq, Undisturbed]
    cases hlost : lost stream a retries with
    | none => exact iff_of_true (fails _ rfl) (by simp)
    | some taken =>
      have whole := (lost_isPrefix hlost).length_le
      have fresh (store : FSStore D) : get { r with store } name = none := new
      simp only [fresh, Option.some.injEq, forall_eq']
      constructor
      · rintro ⟨pulled, -⟩
        obtain ⟨_, m, hstream, hget, hall⟩ := pulled rfl
        cases hstream
        obtain rfl := Option.some.inj ((get_setManifest _ (newManifest name ..)).symm.trans hget)
        have blob := (hall _ (List.mem_append_right _ List.mem_cons_self)).2.2
        have kept : stream.bytes.drop taken.length = stream.bytes := by
          simpa [setManifest, newManifest] using blob
        have hlen := congrArg List.length kept
        rw [List.length_drop] at hlen
        exact List.length_eq_zero_iff.mp (by omega)
      · rintro rfl
        refine ⟨fun _ => ⟨stream, _, rfl, get_setManifest .., ?_⟩, by simp⟩
        intro l hl
        obtain ⟨hdigest, hsize⟩ := mem_all_newManifest hl
        simp [setManifest, hdigest, hsize]

/-- A stream that fails between its two bytes. -/
def failsOnce : Reader := [⟨[1], true⟩, ⟨[2], false⟩]

/-- The second attempt stores what follows. -/
theorem failsOnce_shifted : ¬Integrity id {} (Registry.pull id {} (ascii "m") failsOnce {} [{}]).1
    (Registry.pull id {} (ascii "m") failsOnce {} [{}]).2 (ascii "m") failsOnce := by
  intro h
  obtain ⟨stream, m, hstream, hget, hall⟩ := h.pulled rfl
  cases hstream
  have hm : (Registry.pull id {} (ascii "m") failsOnce {} [{}]).1.get (ascii "m") =
      some (newManifest (ascii "m") [2] 1 [(ascii "format", ascii "gguf")]) := rfl
  obtain rfl := Option.some.inj (hget.symm.trans hm)
  exact absurd (hall _ List.mem_cons_self).1 (by decide)

/-- A stream whose first attempt finds no place on the disk. -/
theorem twoBytes_whole : Integrity id {} (Registry.pull id {} (ascii "m")
    (some [⟨[1], false⟩, ⟨[2], false⟩]) ⟨⟨false, true⟩, false⟩ [{}]).1 (Registry.pull id {} (ascii "m")
    (some [⟨[1], false⟩, ⟨[2], false⟩]) ⟨⟨false, true⟩, false⟩ [{}]).2 (ascii "m")
    (some [⟨[1], false⟩, ⟨[2], false⟩]) := by
  refine (Registry.pull_integrity_iff rfl _ _ _).mpr ?_
  intro stream hstream taken htaken
  cases hstream
  cases htaken
  rfl

end

end Ecco9.Models
