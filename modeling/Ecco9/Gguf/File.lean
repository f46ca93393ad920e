import Ecco9.Gguf.Reading
import Ecco9.Library.Runs
import Mathlib.Data.List.Basic

/-! `fs/gguf/lazy.go`: a sequence that is read as far as it is asked for. `File` of `fs/gguf/gguf.go`: its key
values and tensor infos are read from the file only so far, and the answers are those of a file that has
been read once. -/

namespace Ecco9.Gguf

/-- `lazy[T]`, with the place of its coroutine: how many have been read, and whether it has returned. -/
structure Lazy (T : Type) where
  count : UInt64
  index : Nat := 0
  done : Bool := false
  values : List T := []

/-- What reads the next element, if it can be read, and `successFunc`. -/
structure Source (σ T : Type) where
  fn : σ → Option T × σ
  success : σ → σ

/-- A count, as `int`. -/
def int (n : UInt64) : Int := n.toInt64.toInt

namespace Lazy

variable {σ T : Type} (S : Source σ T)

/-- The coroutine runs up to its next `yield`, or returns. -/
def next (g : Lazy T) (s : σ) : Option T × Lazy T × σ :=
  if g.done then (none, g, s)
  else if g.index < g.count.toNat then
    match S.fn s with
    | (none, s) => (none, { g with done := true }, s)
    | (some t, s) => (some t, { g with index := g.index + 1, values := g.values ++ [t] }, s)
  else (none, { g with done := true }, S.success s)

variable {S} in
theorem next_some {g g' : Lazy T} {s s' : σ} {t : T} (h : g.next S s = (some t, g', s')) :
    g.index < g.count.toNat ∧ g'.count = g.count ∧ g'.index = g.index + 1 := by
  unfold next at h
  split_ifs at h with hdone hindex
  · cases h
  · split at h
    · cases h
    · cases h
      exact ⟨hindex, rfl, rfl⟩
  · cases h

/-- Elements are drawn until one is found. -/
def seek (p : T → Bool) (g : Lazy T) (s : σ) : Option T × Lazy T × σ :=
  match _h : g.next S s with
  | (none, g', s') => (none, g', s')
  | (some t, g', s') => if p t then (some t, g', s') else seek p g' s'
termination_by g.count.toNat - g.index
decreasing_by
  obtain ⟨hlt, hcount, hindex⟩ := next_some ‹_›
  rw [hcount, hindex]
  omega

/-- `rest`: all the others are drawn. -/
def rest (g : Lazy T) (s : σ) : Lazy T × σ := (g.seek S (fun _ => false) s).2

/-- One turn of the loop of `All`: an element that has been read, or the next one. -/
def item (i : Nat) (g : Lazy T) (s : σ) : Option T × Lazy T × σ :=
  if (i : Int) < int g.count then
    match g.values[i]? with
    | some t => (some t, g, s)
    | none => g.next S s
  else (none, g, s)

end Lazy

/-! ### Sequences that can be read to their end -/

/-- Elements read one after another. -/
inductive Reads {σ T : Type} (fn : σ → Option T × σ) : σ → List T → σ → Prop
  | nil {s} : Reads fn s [] s
  | cons {s s' e t ts} : fn s = (some t, s') → Reads fn s' ts e → Reads fn s (t :: ts) e

section
variable {σ T : Type} {S : Source σ T} {all : List T} {e s : σ} {g : Lazy T}

/-- A front of the elements has been read, and the others come next. -/
structure Drawn (S : Source σ T) (all : List T) (e : σ) (g : Lazy T) (s : σ) : Prop where
  done : g.done = false
  index : g.index = g.values.length
  count : g.count.toNat = all.length
  rest : ∃ ts, all = g.values ++ ts ∧ Reads S.fn s ts e

structure Finished (all : List T) (g : Lazy T) : Prop where
  done : g.done = true
  count : g.count.toNat = all.length
  values : g.values = all

theorem Finished.next (h : Finished all g) : g.next S s = (none, g, s) := if_pos h.done

/-- The next element is drawn, or there is none. -/
theorem Drawn.next (h : Drawn S all e g s) :
    (∃ t g' s', g.next S s = (some t, g', s') ∧ Drawn S all e g' s' ∧
      g'.values = g.values ++ [t] ∧ g'.count = g.count) ∨
    (s = e ∧ g.values = all ∧ ∃ g', g.next S s = (none, g', S.success e) ∧ Finished all g' ∧
      g'.count = g.count) := by
  obtain ⟨ts, hall, hreads⟩ := h.rest
  have hcount := h.count
  rw [hall, List.length_append] at hcount
  unfold Lazy.next
  rw [if_neg (by simp [h.done])]
  cases hreads with
  | nil =>
    rw [List.length_nil] at hcount
    have hvalues : g.values = all := by rw [hall, List.append_nil]
    rw [if_neg (by rw [h.index]; omega)]
    exact .inr ⟨rfl, hvalues, _, rfl, ⟨rfl, h.count, hvalues⟩, rfl⟩
  | @cons _ s' _ t ts hfn hrest =>
    rw [List.length_cons] at hcount
    rw [if_pos (by rw [h.index]; omega), hfn]
    refine .inl ⟨t, _, s', rfl, ⟨h.done, ?_, h.count, ts, ?_, hrest⟩, rfl, rfl⟩
    · rw [h.index, List.length_append, List.length_singleton]
    · rw [hall, List.append_assoc, List.singleton_append]

theorem Lazy.seek_none {p : T → Bool} {g' : Lazy T} {s' : σ} (h : g.next S s = (none, g', s')) :
    g.seek S p s = (none, g', s') := by
  rw [Lazy.seek]
  split
  · rename_i heq
    exact heq.symm.trans h
  · rename_i heq
    rw [heq] at h
    cases h

theorem Lazy.seek_some {p : T → Bool} {t : T} {g' : Lazy T} {s' : σ}
    (h : g.next S s = (some t, g', s')) :
    g.seek S p s = if p t then (some t, g', s') else g'.seek S p s' := by
  rw [Lazy.seek]
  split
  · rename_i heq
    rw [heq] at h
    cases h
  · rename_i heq
    rw [heq] at h
    cases h
    rfl

theorem Finished.seek (h : Finished all g) (p : T → Bool) : g.seek S p s = (none, g, s) :=
  Lazy.seek_none h.next

/-- What is sought is the first of the others. -/
theorem Drawn.seek (h : Drawn S all e g s) (p : T → Bool) :
    ∃ g' s', g.seek S p s = ((all.drop g.values.length).find? p, g', s') ∧
      g.values <+: g'.values ∧ g'.count = g.count ∧
      ((all.drop g.values.length).find? p ≠ none ∧ Drawn S all e g' s' ∨
        (all.drop g.values.length).find? p = none ∧ s' = S.success e ∧ Finished all g') := by
  obtain ⟨ts, hall, -⟩ := h.rest
  have hdrop : all.drop g.values.length = ts := by rw [hall, List.drop_left]
  rw [hdrop]
  induction ts generalizing g s with
  | nil =>
    rcases h.next with ⟨t, g', s', -, drawn, hvalues, -⟩ | ⟨-, hvalues, g', hnext, finished, hcount⟩
    · obtain ⟨ts, hall', -⟩ := drawn.rest
      rw [hvalues, hall, List.append_assoc] at hall'
      cases List.append_cancel_left hall'
    · refine ⟨g', _, Lazy.seek_none hnext, ?_, hcount, .inr ⟨rfl, rfl, finished⟩⟩
      exact ⟨[], by rw [List.append_nil, finished.values, hvalues]⟩
  | cons u ts ih =>
    rcases h.next with ⟨t, g', s', hnext, drawn, hvalues, hcount⟩ | ⟨-, hvalues, -⟩
    · have htail : all = g'.values ++ ts := by
        obtain ⟨ts', hall', -⟩ := drawn.rest
        rw [hvalues, hall, List.append_assoc] at hall'
        obtain ⟨rfl, rfl⟩ := List.cons.inj (List.append_cancel_left hall')
        rw [hvalues, hall, List.append_assoc, List.singleton_append]
      obtain rfl : u = t := by
        rw [hvalues, hall, List.append_assoc] at htail
        exact (List.cons.inj (List.append_cancel_left htail)).1
      rw [Lazy.seek_some hnext]
      by_cases hp : p u = true
      · rw [if_pos hp, List.find?_cons_of_pos hp]
        exact ⟨g', s', rfl, hvalues ▸ List.prefix_append .., hcount, .inl ⟨by simp, drawn⟩⟩
      · rw [if_neg hp, List.find?_cons_of_neg hp]
        obtain ⟨g'', s'', hseek, hfront, hcount', hrest⟩ := ih drawn htail (by
          rw [htail, List.drop_left])
        refine ⟨g'', s'', hseek, ?_, hcount'.trans hcount, hrest⟩
        exact (hvalues ▸ List.prefix_append ..).trans hfront
    · rw [hvalues] at hall
      cases List.append_cancel_left ((List.append_nil _).trans hall)

/-- `rest` leaves nothing. -/
theorem Drawn.drain (h : Drawn S all e g s) :
    ∃ g', g.rest S s = (g', S.success e) ∧ Finished all g' ∧ g'.count = g.count := by
  obtain ⟨g', s', hseek, -, hcount, ⟨hfound, -⟩ | ⟨-, rfl, finished⟩⟩ := h.seek fun _ => false
  · exact absurd (List.find?_eq_none.mpr (by simp)) hfound
  · exact ⟨g', by rw [Lazy.rest, hseek], finished, hcount⟩

theorem Finished.drain (h : Finished all g) : g.rest S s = (g, s) := by
  rw [Lazy.rest, h.seek]

/-- A front and the first of the others. -/
theorem find?_front {front : List T} (h : front <+: all) (p : T → Bool) :
    all.find? p = (front.find? p).or ((all.drop front.length).find? p) := by
  obtain ⟨ts, rfl⟩ := h
  rw [List.drop_left, List.find?_append]

theorem Drawn.front (h : Drawn S all e g s) : g.values <+: all := by
  obtain ⟨ts, rfl, -⟩ := h.rest
  exact List.prefix_append ..

theorem getElem?_front {front : List T} (h : front <+: all) {i : Nat} {t : T}
    (hi : front[i]? = some t) : all[i]? = some t := by
  obtain ⟨ts, rfl⟩ := h
  obtain ⟨hlt, -⟩ := List.getElem?_eq_some_iff.mp hi
  rwa [List.getElem?_append_left hlt]

theorem int_le (n : UInt64) : int n ≤ n.toNat := by
  have h : int n = n.toBitVec.toInt := rfl
  rw [h, BitVec.toInt_eq_toNat_cond]
  split
  · exact Int.le_refl _
  · have := n.toBitVec.isLt
    change (n.toNat : Int) - _ ≤ n.toNat
    omega

/-- The element at a place, of as many as there are. -/
def itemOf (all : List T) (count : UInt64) (i : Nat) : Option T :=
  if (i : Int) < int count then all[i]? else none

theorem itemOf_some {all : List T} {count : UInt64} {i : Nat} {t : T}
    (h : itemOf all count i = some t) : all[i]? = some t := by
  unfold itemOf at h
  split_ifs at h
  exact h

/-- A turn of the loop of `All` at a place that has been reached: the element there, or the end. -/
theorem Drawn.item (h : Drawn S all e g s) {i : Nat} (hi : i ≤ g.values.length) :
    ∃ g' s', g.item S i s = (itemOf all g.count i, g', s') ∧ Drawn S all e g' s' ∧
      g.values <+: g'.values ∧ g'.count = g.count ∧
      (itemOf all g.count i ≠ none → i < g'.values.length) := by
  unfold Lazy.item itemOf
  by_cases hcount : (i : Int) < int g.count
  · rw [if_pos hcount, if_pos hcount]
    rcases Nat.lt_or_eq_of_le hi with hlt | rfl
    · have hget : all[i]? = some g.values[i] :=
        getElem?_front h.front (List.getElem?_eq_getElem hlt)
      rw [List.getElem?_eq_getElem hlt, hget]
      exact ⟨g, s, rfl, h, List.prefix_refl _, rfl, fun _ => hlt⟩
    · rw [List.getElem?_eq_none (Nat.le_refl _)]
      rcases h.next with ⟨t, g', s', hnext, drawn, hvalues, hsame⟩ | ⟨-, hvalues, -⟩
      · have hlast : g'.values[g.values.length]? = some t := by rw [hvalues]; simp
        have hget := getElem?_front drawn.front hlast
        rw [hget]
        refine ⟨g', s', hnext, drawn, hvalues ▸ List.prefix_append .., hsame, fun _ => ?_⟩
        rw [hvalues, List.length_append]
        exact Nat.lt_succ_self _
      · have hle := int_le g.count
        rw [h.count, ← hvalues] at hle
        omega
  · rw [if_neg hcount, if_neg hcount]
    exact ⟨g, s, rfl, h, List.prefix_refl _, rfl, fun hne => absurd rfl hne⟩

theorem Finished.item (h : Finished all g) (i : Nat) :
    g.item S i s = (itemOf all g.count i, g, s) := by
  unfold Lazy.item itemOf
  split_ifs
  · rw [h.values]
    cases all[i]? with
    | none => exact h.next
    | some t => rfl
  · rfl

end

open Ecco9.Library

/-! ### Files -/

/-- What the tensor infos are read from: the reader, and the key values before them. -/
structure Header where
  reader : Reader
  keyValues : Lazy KeyValue
  offset : Int64 := 0

structure File where
  header : Header
  tensors : Lazy TensorInfo

/-- What is read, or nothing. -/
def attempt {α : Type} (read : Read α) (r : Reader) : Option α × Reader :=
  match read r with
  | .ok a r => (some a, r)
  | .error _ r => (none, r)

def keySource : Source Reader KeyValue where
  fn := attempt readKeyValue
  success r := r

/-- A key, with the architecture of the file before it if it is not one of all files. -/
def isGeneral (key : Text) : Prop := ascii "general." <+: key ∨ ascii "tokenizer." <+: key

instance (key : Text) : Decidable (isGeneral key) := inferInstanceAs (Decidable (_ ∨ _))

/-- Where the data begins. -/
def align (offset : Nat) (alignment : Int64) : Int64 :=
  let offset : Int64 := .ofNat offset
  let alignment := if alignment = 0 then 32 else alignment
  offset + (alignment - offset % alignment) % alignment

namespace Header

/-- `KeyValue`, for a whole key. -/
def lookup (h : Header) (key : Text) : KeyValue × Header :=
  match h.keyValues.values.find? (·.key = key) with
  | some keyValue => (keyValue, h)
  | none =>
    let (keyValue, keyValues, reader) := h.keyValues.seek keySource (·.key = key) h.reader
    (keyValue.getD {}, { h with keyValues, reader })

def keyValue (h : Header) (key : Text) : KeyValue × Header :=
  if isGeneral key then h.lookup key
  else
    let (architecture, h) := h.lookup (ascii "general.architecture")
    h.lookup (Value.text architecture.value ++ ascii "." ++ key)

/-- All key values are read. -/
def restKeyValues (h : Header) : Header :=
  let (keyValues, reader) := h.keyValues.rest keySource h.reader
  { h with keyValues, reader }

end Header

def tensorSource : Source Header TensorInfo where
  fn h :=
    let (tensor, reader) := attempt readTensor h.reader
    (tensor, { h with reader })
  success h :=
    let offset := h.reader.offset
    let (alignment, h) := h.keyValue (ascii "general.alignment")
    { h with offset := align offset (Value.int alignment.value) }

/-- A part of a file. -/
structure Section where
  off : Int64
  n : Int64

namespace File

def keyValue (f : File) (key : Text) : KeyValue × File :=
  let (keyValue, header) := f.header.keyValue key
  (keyValue, { f with header })

def restKeyValues (f : File) : File := { f with header := f.header.restKeyValues }

def tensorInfo (f : File) (name : Text) : TensorInfo × File :=
  match f.tensors.values.find? (·.name = name) with
  | some tensor => (tensor, f)
  | none =>
    let f := f.restKeyValues
    let (tensor, tensors, header) := f.tensors.seek tensorSource (·.name = name) f.header
    (tensor.getD {}, { header, tensors })

def restTensors (f : File) : File :=
  let (tensors, header) := f.tensors.rest tensorSource f.header
  { header, tensors }

def tensorReader (f : File) (name : Text) : Except Text (TensorInfo × Section) × File :=
  let (t, f) := f.tensorInfo name
  if t.numBytes = 0 then (.error (ascii "tensor " ++ name ++ ascii " not found"), f)
  else
    let f := f.restTensors
    (.ok (t, ⟨f.header.offset + t.offset.toInt64, t.numBytes⟩), f)

end File

/-- The magic and the version, and the counts of the tensors and of the key values. -/
def readStart : Read (UInt64 × UInt64) := do
  let magic ← readFull 4
  if magic = ascii "gguf" then throw (.unsupportedFile magic)
  let version ← readUint32
  if version < 2 then throw (.unsupportedVersion version)
  let tensors ← readUint64
  let keyValues ← readUint64
  return (tensors, keyValues)

/-- `Open` -/
def openFile (bytes : Text) : Except ReadError File :=
  match readStart ⟨bytes, 0⟩ with
  | .ok (tensors, keyValues) reader =>
    .ok { header := { reader, keyValues := { count := keyValues } }, tensors := { count := tensors } }
  | .error e _ => .error e

/-! ### Calls -/

inductive Kind
  | keyValues
  | tensors
  deriving DecidableEq

/-- Calls of a client; it may range over the sequences it has been given, over several at a time and
over each again, and need not go to the end. -/
inductive Call
  | keyValue (key : Text)
  | keyValues
  | numKeyValues
  | tensorInfo (name : Text)
  | tensorInfos
  | numTensors
  | tensorReader (name : Text)
  | again (range : Nat)
  | advance (range : Nat)

inductive Answer
  | keyValue (keyValue : KeyValue)
  | tensorInfo (tensor : TensorInfo)
  | number (n : Int)
  | reader (reader : Except Text (TensorInfo × Section))
  | range (range : Nat)
  | keyValueAt (i : Nat) (keyValue : KeyValue)
  | tensorAt (i : Nat) (tensor : TensorInfo)
  | ended

/-- The methods of a file, and one turn of the loops over its key values and its tensors. -/
structure Methods (F : Type) where
  keyValue : F → Text → KeyValue × F
  numKeyValues : F → Int
  keyValueAt : F → Nat → Option KeyValue × F
  tensorInfo : F → Text → TensorInfo × F
  tensorInfos : F → F
  numTensors : F → Int
  tensorAt : F → Nat → Option TensorInfo × F
  tensorReader : F → Text → Except Text (TensorInfo × Section) × F

/-- A loop over a sequence, and its next index unless it has ended. -/
structure Range where
  kind : Kind
  index : Option Nat := some 0

structure Client (F : Type) where
  file : F
  ranges : List Range := []

namespace Methods

variable {F : Type} (M : Methods F)

/-- A loop goes on. -/
def advance (c : Client F) (j : Nat) : Answer × Client F :=
  match c.ranges[j]? with
  | some ⟨.keyValues, some i⟩ =>
    match M.keyValueAt c.file i with
    | (some keyValue, file) =>
      (.keyValueAt i keyValue, ⟨file, c.ranges.set j ⟨.keyValues, some (i + 1)⟩⟩)
    | (none, file) => (.ended, ⟨file, c.ranges.set j ⟨.keyValues, none⟩⟩)
  | some ⟨.tensors, some i⟩ =>
    match M.tensorAt c.file i with
    | (some tensor, file) => (.tensorAt i tensor, ⟨file, c.ranges.set j ⟨.tensors, some (i + 1)⟩⟩)
    | (none, file) => (.ended, ⟨file, c.ranges.set j ⟨.tensors, none⟩⟩)
  | _ => (.ended, c)

def call (c : Client F) : Call → Answer × Client F
  | .keyValue key =>
    let (keyValue, file) := M.keyValue c.file key
    (.keyValue keyValue, { c with file })
  | .keyValues => (.range c.ranges.length, { c with ranges := c.ranges ++ [{ kind := .keyValues }] })
  | .numKeyValues => (.number (M.numKeyValues c.file), c)
  | .tensorInfo name =>
    let (tensor, file) := M.tensorInfo c.file name
    (.tensorInfo tensor, { c with file })
  | .tensorInfos =>
    (.range c.ranges.length,
      ⟨M.tensorInfos c.file, c.ranges ++ [{ kind := .tensors }]⟩)
  | .numTensors => (.number (M.numTensors c.file), c)
  | .tensorReader name =>
    let (reader, file) := M.tensorReader c.file name
    (.reader reader, { c with file })
  | .again j =>
    match c.ranges[j]? with
    | some range => (.range c.ranges.length, { c with ranges := c.ranges ++ [{ kind := range.kind }] })
    | none => (.ended, c)
  | .advance j => M.advance c j

end Methods

/-- The methods as they are. -/
def fileMethods : Methods File where
  keyValue := File.keyValue
  numKeyValues f := int f.header.keyValues.count
  keyValueAt f i :=
    let (keyValue, keyValues, reader) := f.header.keyValues.item keySource i f.header.reader
    (keyValue, { f with header := { f.header with keyValues, reader } })
  tensorInfo := File.tensorInfo
  tensorInfos := File.restKeyValues
  numTensors f := int f.tensors.count
  tensorAt f i :=
    let (tensor, tensors, header) := f.tensors.item tensorSource i f.header
    (tensor, { header, tensors })
  tensorReader := File.tensorReader

/-! ### Files that are read at once -/

/-- A header that has been read. -/
structure Contents where
  keyValues : List KeyValue
  tensors : List TensorInfo
  offset : Int64

namespace Contents

def lookup (c : Contents) (key : Text) : KeyValue := (c.keyValues.find? (·.key = key)).getD {}

def keyValue (c : Contents) (key : Text) : KeyValue :=
  if isGeneral key then c.lookup key
  else c.lookup (Value.text (c.lookup (ascii "general.architecture")).value ++ ascii "." ++ key)

def tensorInfo (c : Contents) (name : Text) : TensorInfo := (c.tensors.find? (·.name = name)).getD {}

def tensorReader (c : Contents) (name : Text) : Except Text (TensorInfo × Section) :=
  let t := c.tensorInfo name
  if t.numBytes = 0 then .error (ascii "tensor " ++ name ++ ascii " not found")
  else .ok (t, ⟨c.offset + t.offset.toInt64, t.numBytes⟩)

end Contents

/-- The methods of a header that has been read: nothing changes any more. -/
def contentsMethods : Methods Contents where
  keyValue c key := (c.keyValue key, c)
  numKeyValues c := int (.ofNat c.keyValues.length)
  keyValueAt c i := (itemOf c.keyValues (.ofNat c.keyValues.length) i, c)
  tensorInfo c name := (c.tensorInfo name, c)
  tensorInfos c := c
  numTensors c := int (.ofNat c.tensors.length)
  tensorAt c i := (itemOf c.tensors (.ofNat c.tensors.length) i, c)
  tensorReader c name := (c.tensorReader name, c)

/-- A header is read once, in the order of the file. -/
def readContents : Read Contents := do
  let (tensors, keyValues) ← readStart
  let keyValues ← readMany readKeyValue keyValues.toNat
  let tensors ← readMany readTensor tensors.toNat
  let reader ← get
  let contents : Contents := { keyValues, tensors, offset := 0 }
  return { contents with
    offset := align reader.offset (Value.int (contents.keyValue (ascii "general.alignment")).value) }

end Ecco9.Gguf
