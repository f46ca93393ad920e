import Ecco9.Gguf.File

/-! What is asked of a file is answered as by a header that has been read at once. -/

namespace Ecco9.Gguf

open Ecco9.Library

/-! ### Where a file has been read to -/

section
variable (c : Contents) (middle last : Reader)

/-- The key values have been read in part, or all of them. -/
def Leads (h : Header) : Prop :=
  Drawn keySource c.keyValues middle h.keyValues h.reader ∨
    Finished c.keyValues h.keyValues ∧ h.reader = middle

/-- No tensor has been read. -/
structure Early (f : File) : Prop where
  header : Leads c middle f.header
  tensors : f.tensors = { count := f.tensors.count }
  count : f.tensors.count.toNat = c.tensors.length

/-- All key values have been read, and the tensors in part or all of them. -/
def Late (f : File) : Prop :=
  (∃ e, e.reader = last ∧ Finished c.keyValues e.keyValues ∧
    Drawn tensorSource c.tensors e f.tensors f.header) ∨
  Finished c.keyValues f.header.keyValues ∧ Finished c.tensors f.tensors ∧
    f.header.offset = c.offset

def Sound (f : File) : Prop := Early c middle f ∨ Late c last f

/-- What lies behind the key values. -/
structure Layout : Prop where
  tensors : Reads (attempt readTensor) middle c.tensors last
  offset : c.offset = align last.offset (Value.int (c.keyValue (ascii "general.alignment")).value)

/-- A step of a file: it is read on, and never back. -/
structure Moves (f f' : File) : Prop where
  sound : Sound c middle last f'
  keyValues : f.header.keyValues.values.length ≤ f'.header.keyValues.values.length
  tensors : f.tensors.values.length ≤ f'.tensors.values.length
  late : Late c last f → Late c last f'

end

section
variable {c : Contents} {middle last : Reader} {h : Header} {f : File}

/-! ### Key values -/

theorem lookup_finished (finished : Finished c.keyValues h.keyValues) (key : Text) :
    h.lookup key = (c.lookup key, h) := by
  rw [Header.lookup, Contents.lookup, finished.values]
  cases c.keyValues.find? (·.key = key) with
  | some kv => rfl
  | none =>
    have hseek := finished.seek (S := keySource) (s := h.reader) fun kv => decide (kv.key = key)
    simp only [hseek, Option.getD_none]

theorem keyValue_finished (finished : Finished c.keyValues h.keyValues) (key : Text) :
    h.keyValue key = (c.keyValue key, h) := by
  rw [Header.keyValue, Contents.keyValue, lookup_finished finished, lookup_finished finished]
  split_ifs
  · rfl
  · dsimp only
    rw [lookup_finished finished]

/-- The header is read on, and never back. -/
structure HeaderMoves (c : Contents) (middle : Reader) (h h' : Header) : Prop where
  leads : Leads c middle h'
  values : h.keyValues.values.length ≤ h'.keyValues.values.length

theorem Leads.lookup (leads : Leads c middle h) (key : Text) :
    ∃ h', h.lookup key = (c.lookup key, h') ∧ HeaderMoves c middle h h' := by
  rcases leads with drawn | ⟨finished, hreader⟩
  · rw [Header.lookup, Contents.lookup, find?_front drawn.front]
    cases h.keyValues.values.find? (·.key = key) with
    | some kv => exact ⟨h, rfl, .inl drawn, Nat.le_refl _⟩
    | none =>
      obtain ⟨g, r, hseek, hfront, -, hrest⟩ := drawn.seek (·.key = key)
      dsimp only
      rw [hseek]
      refine ⟨_, rfl, ?_, hfront.length_le⟩
      rcases hrest with ⟨-, drawn'⟩ | ⟨-, rfl, finished⟩
      · exact .inl drawn'
      · exact .inr ⟨finished, rfl⟩
  · exact ⟨h, lookup_finished finished key, .inr ⟨finished, hreader⟩, Nat.le_refl _⟩

theorem Leads.keyValue (leads : Leads c middle h) (key : Text) :
    ∃ h', h.keyValue key = (c.keyValue key, h') ∧ HeaderMoves c middle h h' := by
  rw [Header.keyValue, Contents.keyValue]
  split_ifs
  · exact leads.lookup key
  · obtain ⟨h₁, hfirst, moves⟩ := leads.lookup (ascii "general.architecture")
    rw [hfirst]
    obtain ⟨h₂, hsecond, moves'⟩ := moves.leads.lookup
      (Value.text (c.lookup (ascii "general.architecture")).value ++ ascii "." ++ key)
    exact ⟨h₂, hsecond, moves'.leads, Nat.le_trans moves.values moves'.values⟩

theorem Leads.drain (leads : Leads c middle h) :
    Finished c.keyValues h.restKeyValues.keyValues ∧ h.restKeyValues.reader = middle := by
  rw [Header.restKeyValues]
  rcases leads with drawn | ⟨finished, hreader⟩
  · obtain ⟨g, hrest, finished, -⟩ := drawn.drain
    rw [hrest]
    exact ⟨finished, rfl⟩
  · rw [finished.drain]
    exact ⟨finished, hreader⟩

theorem drain_finished (finished : Finished c.keyValues h.keyValues) : h.restKeyValues = h := by
  rw [Header.restKeyValues, finished.drain]

/-! ### Tensors -/

theorem Reads.header {r r' : Reader} {ts : List TensorInfo} (reads : Reads (attempt readTensor) r ts r')
    {h : Header} (hr : h.reader = r) : Reads tensorSource.fn h ts { h with reader := r' } := by
  induction reads generalizing h with
  | nil =>
    subst hr
    exact .nil
  | @cons s s' e t ts hfn _ ih =>
    subst hr
    have hstep : tensorSource.fn h = (some t, { h with reader := s' }) := by
      rw [tensorSource]
      dsimp only
      rw [hfn]
    exact .cons hstep (@ih { h with reader := s' } rfl)

theorem Reads.keyValues {h e : Header} {ts : List TensorInfo} (reads : Reads tensorSource.fn h ts e) :
    h.keyValues = e.keyValues := by
  induction reads with
  | nil => rfl
  | cons hfn _ ih =>
    rw [← ih]
    exact congrArg (fun p => p.2.keyValues) hfn

theorem Late.keyValues (late : Late c last f) : Finished c.keyValues f.header.keyValues := by
  rcases late with ⟨e, -, finished, drawn⟩ | ⟨finished, -⟩
  · obtain ⟨ts, -, reads⟩ := drawn.rest
    rwa [reads.keyValues]
  · exact finished

/-- When all tensors have been read, the place of the data is known. -/
theorem Layout.success (layout : Layout c middle last) {e : Header} (hreader : e.reader = last)
    (finished : Finished c.keyValues e.keyValues) :
    tensorSource.success e = { e with offset := c.offset } := by
  rw [tensorSource]
  dsimp only
  rw [keyValue_finished finished, hreader, layout.offset]

theorem Early.late (early : Early c middle f) (layout : Layout c middle last) :
    Late c last f.restKeyValues := by
  obtain ⟨finished, hreader⟩ := early.header.drain
  have reads := layout.tensors.header hreader
  have hf : f.restKeyValues.tensors = { count := f.tensors.count } := early.tensors
  refine .inl ⟨{ f.header.restKeyValues with reader := last }, rfl, finished, ?_, ?_, ?_, c.tensors,
    ?_, reads⟩
  · rw [hf]
  · rw [hf]
    rfl
  · rw [hf]
    exact early.count
  · rw [hf]
    rfl

theorem Late.sound (late : Late c last f) : Sound c middle last f := .inr late

/-- All key values have been read before any tensor is. -/
theorem Sound.drain (sound : Sound c middle last f) (layout : Layout c middle last) :
    Late c last f.restKeyValues ∧ Moves c middle last f f.restKeyValues := by
  rcases sound with early | late
  · have late := early.late layout
    refine ⟨late, .inr late, ?_, Nat.le_refl _, fun _ => late⟩
    rw [late.keyValues.values]
    rcases early.header with drawn | ⟨finished, -⟩
    · exact drawn.front.length_le
    · exact Nat.le_of_eq (congrArg List.length finished.values)
  · have hsame : f.restKeyValues = f := by rw [File.restKeyValues, drain_finished late.keyValues]
    rw [hsame]
    exact ⟨late, .inr late, Nat.le_refl _, Nat.le_refl _, id⟩

theorem Sound.keyValue (sound : Sound c middle last f) (key : Text) :
    ∃ f', f.keyValue key = (c.keyValue key, f') ∧ Moves c middle last f f' := by
  rw [File.keyValue]
  by_cases late : Late c last f
  · rw [keyValue_finished late.keyValues]
    exact ⟨f, rfl, .inr late, Nat.le_refl _, Nat.le_refl _, id⟩
  · have early : Early c middle f := sound.resolve_right late
    obtain ⟨h', hkey, moves⟩ := early.header.keyValue key
    rw [hkey]
    exact ⟨_, rfl, .inl ⟨moves.leads, early.tensors, early.count⟩, moves.values, Nat.le_refl _,
      fun h => absurd h late⟩

theorem Sound.count (sound : Sound c middle last f) :
    f.header.keyValues.count = .ofNat c.keyValues.length ∧
      f.tensors.count = .ofNat c.tensors.length := by
  have hof {n : UInt64} {k : Nat} (h : n.toNat = k) : n = .ofNat k := by
    rw [← h, UInt64.ofNat_toNat]
  rcases sound with early | late
  · refine ⟨hof ?_, hof early.count⟩
    rcases early.header with drawn | ⟨finished, -⟩
    · exact drawn.count
    · exact finished.count
  · refine ⟨hof late.keyValues.count, hof ?_⟩
    rcases late with ⟨e, -, -, drawn⟩ | ⟨-, finished, -⟩
    · exact drawn.count
    · exact finished.count

theorem Sound.keyValueAt (sound : Sound c middle last f) {i : Nat}
    (hi : i ≤ f.header.keyValues.values.length) :
    ∃ f', fileMethods.keyValueAt f i =
        (itemOf c.keyValues (.ofNat c.keyValues.length) i, f') ∧ Moves c middle last f f' ∧
      (itemOf c.keyValues (.ofNat c.keyValues.length) i ≠ none →
        i < f'.header.keyValues.values.length) := by
  have hcount := sound.count.1
  have hfinished (finished : Finished c.keyValues f.header.keyValues) :
      ∃ f', fileMethods.keyValueAt f i =
          (itemOf c.keyValues (.ofNat c.keyValues.length) i, f') ∧ Moves c middle last f f' ∧
        (itemOf c.keyValues (.ofNat c.keyValues.length) i ≠ none →
          i < f'.header.keyValues.values.length) := by
    rw [fileMethods]
    dsimp only
    rw [finished.item, hcount]
    refine ⟨f, rfl, ⟨sound, Nat.le_refl _, Nat.le_refl _, id⟩, fun hne => ?_⟩
    obtain ⟨kv, hkv⟩ := Option.ne_none_iff_exists'.mp hne
    rw [finished.values]
    exact (List.getElem?_eq_some_iff.mp (itemOf_some hkv)).1
  by_cases late : Late c last f
  · exact hfinished late.keyValues
  · have early : Early c middle f := sound.resolve_right late
    rcases early.header with drawn | ⟨finished, -⟩
    · rw [fileMethods]
      dsimp only
      obtain ⟨g, r, hitem, drawn', hfront, -, hlt⟩ := drawn.item hi
      rw [hcount] at hitem hlt
      rw [hitem]
      exact ⟨_, rfl, ⟨.inl ⟨.inl drawn', early.tensors, early.count⟩, hfront.length_le, Nat.le_refl _,
        fun h => absurd h late⟩, hlt⟩
    · exact hfinished finished

/-! ### Tensors -/

theorem Late.values (late : Late c last f) : f.tensors.values <+: c.tensors := by
  rcases late with ⟨e, -, -, drawn⟩ | ⟨-, finished, -⟩
  · exact drawn.front
  · exact ⟨[], by rw [List.append_nil, finished.values]⟩

theorem Late.tensorAt (late : Late c last f) {i : Nat} (hi : i ≤ f.tensors.values.length) :
    ∃ f', fileMethods.tensorAt f i = (itemOf c.tensors (.ofNat c.tensors.length) i, f') ∧
      Moves c middle last f f' ∧
      (itemOf c.tensors (.ofNat c.tensors.length) i ≠ none → i < f'.tensors.values.length) := by
  have sound : Sound c middle last f := late.sound
  have hcount := sound.count.2
  rw [fileMethods]
  dsimp only
  rcases late with ⟨e, hreader, hkeys, drawn⟩ | ⟨hkeys, finished, hoffset⟩
  · obtain ⟨g, h', hitem, drawn', hfront, -, hlt⟩ := drawn.item hi
    rw [hcount] at hitem hlt
    rw [hitem]
    have late' : Late c last ⟨h', g⟩ := .inl ⟨e, hreader, hkeys, drawn'⟩
    have late : Late c last f := .inl ⟨e, hreader, hkeys, drawn⟩
    refine ⟨_, rfl, ⟨.inr late', ?_, hfront.length_le, fun _ => late'⟩, hlt⟩
    exact Nat.le_of_eq (congrArg List.length
      (late.keyValues.values.trans late'.keyValues.values.symm))
  · have late : Late c last f := .inr ⟨hkeys, finished, hoffset⟩
    rw [finished.item, hcount]
    refine ⟨f, rfl, ⟨.inr late, Nat.le_refl _, Nat.le_refl _, id⟩, fun hne => ?_⟩
    obtain ⟨t, ht⟩ := Option.ne_none_iff_exists'.mp hne
    rw [finished.values]
    exact (List.getElem?_eq_some_iff.mp (itemOf_some ht)).1

theorem Moves.trans {f' f'' : File} (moves : Moves c middle last f f')
    (moves' : Moves c middle last f' f'') : Moves c middle last f f'' where
  sound := moves'.sound
  keyValues := Nat.le_trans moves.keyValues moves'.keyValues
  tensors := Nat.le_trans moves.tensors moves'.tensors
  late h := moves'.late (moves.late h)

/-- What is sought among the tensors is the first of its name. -/
theorem Late.seek (late : Late c last f) (layout : Layout c middle last) (p : TensorInfo → Bool) :
    ∃ g h, f.tensors.seek tensorSource p f.header =
        ((c.tensors.drop f.tensors.values.length).find? p, g, h) ∧
      Moves c middle last f ⟨h, g⟩ ∧
      ((c.tensors.drop f.tensors.values.length).find? p = none →
        Finished c.tensors g ∧ h.offset = c.offset) := by
  rcases late with ⟨e, hreader, hkeys, drawn⟩ | ⟨hkeys, finished, hoffset⟩
  · have late : Late c last f := .inl ⟨e, hreader, hkeys, drawn⟩
    obtain ⟨g, h', hseek, hfront, -, ⟨hfound, drawn'⟩ | ⟨hnone, rfl, finished⟩⟩ := drawn.seek p
    · have late' : Late c last ⟨h', g⟩ := .inl ⟨e, hreader, hkeys, drawn'⟩
      refine ⟨g, h', hseek, ⟨.inr late', ?_, hfront.length_le, fun _ => late'⟩,
        fun hnone => absurd hnone hfound⟩
      exact Nat.le_of_eq (congrArg List.length
        (late.keyValues.values.trans late'.keyValues.values.symm))
    · rw [layout.success hreader hkeys] at hseek
      have late' : Late c last ⟨{ e with offset := c.offset }, g⟩ := .inr ⟨hkeys, finished, rfl⟩
      refine ⟨g, _, hseek, ⟨.inr late', ?_, hfront.length_le, fun _ => late'⟩,
        fun _ => ⟨finished, rfl⟩⟩
      exact Nat.le_of_eq (congrArg List.length
        (late.keyValues.values.trans late'.keyValues.values.symm))
  · have late : Late c last f := .inr ⟨hkeys, finished, hoffset⟩
    refine ⟨f.tensors, f.header, ?_, ⟨.inr late, Nat.le_refl _, Nat.le_refl _, id⟩,
      fun _ => ⟨finished, hoffset⟩⟩
    rw [finished.seek, finished.values, List.drop_length]
    rfl

theorem Sound.tensorInfo (sound : Sound c middle last f) (layout : Layout c middle last)
    (name : Text) :
    ∃ f', f.tensorInfo name = (c.tensorInfo name, f') ∧ Moves c middle last f f' ∧
      Late c last f' := by
  rw [File.tensorInfo, Contents.tensorInfo]
  cases hfind : f.tensors.values.find? (·.name = name) with
  | some t =>
    have late : Late c last f := by
      refine sound.resolve_left fun early => ?_
      rw [early.tensors] at hfind
      cases hfind
    rw [find?_front late.values, hfind]
    exact ⟨f, rfl, ⟨sound, Nat.le_refl _, Nat.le_refl _, id⟩, late⟩
  | none =>
    obtain ⟨late, moves⟩ := sound.drain layout
    obtain ⟨g, h, hseek, moves', -⟩ := late.seek layout (·.name = name)
    have hfront := find?_front late.values (·.name = name)
    rw [show f.restKeyValues.tensors = f.tensors from rfl, hfind, Option.none_or] at hfront
    dsimp only
    rw [hseek, hfront]
    exact ⟨_, rfl, moves.trans moves', moves'.late late⟩

theorem Late.drain (late : Late c last f) (layout : Layout c middle last) :
    f.restTensors.header.offset = c.offset ∧ Moves c middle last f f.restTensors := by
  obtain ⟨g, h, hseek, moves, hnone⟩ := late.seek layout fun _ => false
  have hrest : f.restTensors = ⟨h, g⟩ := by rw [File.restTensors, Lazy.rest, hseek]
  rw [hrest]
  exact ⟨(hnone (List.find?_eq_none.mpr (by simp))).2, moves⟩

theorem Sound.tensorReader (sound : Sound c middle last f) (layout : Layout c middle last)
    (name : Text) :
    ∃ f', f.tensorReader name = (c.tensorReader name, f') ∧ Moves c middle last f f' := by
  obtain ⟨f₁, hinfo, moves, late⟩ := sound.tensorInfo layout name
  rw [File.tensorReader, Contents.tensorReader, hinfo]
  dsimp only
  by_cases hbytes : (c.tensorInfo name).numBytes = 0
  · rw [if_pos hbytes, if_pos hbytes]
    exact ⟨f₁, rfl, moves⟩
  · obtain ⟨hoffset, moves'⟩ := late.drain layout
    rw [if_neg hbytes, if_neg hbytes, hoffset]
    exact ⟨_, rfl, moves.trans moves'⟩

/-! ### Clients -/

/-- A loop is at an element that has been read, or at the one after them. -/
def Range.Within (c : Contents) (last : Reader) (f : File) (r : Range) : Prop :=
  match r.kind with
  | .keyValues => ∀ i, r.index = some i → i ≤ f.header.keyValues.values.length
  | .tensors => Late c last f ∧ ∀ i, r.index = some i → i ≤ f.tensors.values.length

theorem Range.Within.moves {r : Range} {f' : File} (within : r.Within c last f)
    (moves : Moves c middle last f f') : r.Within c last f' := by
  obtain ⟨kind, index⟩ := r
  cases kind with
  | keyValues => exact fun i hi => Nat.le_trans (within i hi) moves.keyValues
  | tensors => exact ⟨moves.late within.1, fun i hi => Nat.le_trans (within.2 i hi) moves.tensors⟩

/-- Clients that have been answered alike. -/
structure Alike (c : Contents) (middle last : Reader) (a : Client File) (b : Client Contents) :
    Prop where
  file : b.file = c
  ranges : a.ranges = b.ranges
  sound : Sound c middle last a.file
  within : ∀ r ∈ a.ranges, r.Within c last a.file

theorem Alike.moves {a : Client File} {b : Client Contents} (alike : Alike c middle last a b)
    {f : File} (moves : Moves c middle last a.file f) :
    Alike c middle last { a with file := f } b where
  file := alike.file
  ranges := alike.ranges
  sound := moves.sound
  within r hr := (alike.within r hr).moves moves

/-- Another loop begins. -/
theorem Alike.push {a : Client File} {b : Client Contents} (alike : Alike c middle last a b)
    {r : Range} (hr : r.Within c last a.file) :
    Alike c middle last { a with ranges := a.ranges ++ [r] } { b with ranges := b.ranges ++ [r] } where
  file := alike.file
  ranges := congrArg (· ++ [r]) alike.ranges
  sound := alike.sound
  within := List.forall_mem_append.mpr ⟨alike.within, by simpa using hr⟩

/-- A loop goes on. -/
theorem Alike.set {a : Client File} {b : Client Contents} (alike : Alike c middle last a b)
    {r : Range} (hr : r.Within c last a.file) (j : Nat) :
    Alike c middle last { a with ranges := a.ranges.set j r } { b with ranges := b.ranges.set j r } where
  file := alike.file
  ranges := congrArg (·.set j r) alike.ranges
  sound := alike.sound
  within x hx := by
    rcases List.mem_or_eq_of_mem_set hx with hx | rfl
    · exact alike.within x hx
    · exact hr

/-- A loop over the key values that has ended. -/
theorem within_ended : Range.Within c last f ⟨.keyValues, none⟩ := by
  intro i hi
  cases hi

theorem Alike.advance {a : Client File} {b : Client Contents} (alike : Alike c middle last a b)
    (j : Nat) : (fileMethods.advance a j).1 = (contentsMethods.advance b j).1 ∧
      Alike c middle last (fileMethods.advance a j).2 (contentsMethods.advance b j).2 := by
  obtain ⟨file, ranges⟩ := b
  obtain rfl : file = c := alike.file
  obtain rfl : a.ranges = ranges := alike.ranges
  rw [Methods.advance, Methods.advance]
  cases hrange : a.ranges[j]? with
  | none => exact ⟨rfl, alike⟩
  | some r =>
    have within := alike.within r (List.mem_of_getElem? hrange)
    obtain ⟨kind, index⟩ := r
    cases index with
    | none =>
      cases kind
      · exact ⟨rfl, alike⟩
      · exact ⟨rfl, alike⟩
    | some i =>
      cases kind with
      | keyValues =>
        obtain ⟨f', hitem, moves, hlt⟩ := alike.sound.keyValueAt (within i rfl)
        have halike := alike.moves moves
        dsimp only
        rw [hitem, contentsMethods]
        dsimp only
        cases hanswer : itemOf file.keyValues (.ofNat file.keyValues.length) i with
        | none => exact ⟨rfl, halike.set within_ended j⟩
        | some kv =>
          refine ⟨rfl, halike.set (r := ⟨.keyValues, some (i + 1)⟩) ?_ j⟩
          intro k hk
          cases hk
          exact hlt (by rw [hanswer]; exact Option.some_ne_none kv)
      | tensors =>
        obtain ⟨f', hitem, moves, hlt⟩ := within.1.tensorAt (within.2 i rfl)
        have halike := alike.moves moves
        have late := moves.late within.1
        dsimp only
        rw [hitem, contentsMethods]
        dsimp only
        cases hanswer : itemOf file.tensors (.ofNat file.tensors.length) i with
        | none =>
          refine ⟨rfl, halike.set (r := ⟨.tensors, none⟩) ⟨late, ?_⟩ j⟩
          intro k hk
          cases hk
        | some t =>
          refine ⟨rfl, halike.set (r := ⟨.tensors, some (i + 1)⟩) ⟨late, ?_⟩ j⟩
          intro k hk
          cases hk
          exact hlt (by rw [hanswer]; exact Option.some_ne_none t)

/-- The file and the header that has been read answer alike. -/
theorem call_alike (layout : Layout c middle last) {a : Client File} {b : Client Contents}
    (alike : Alike c middle last a b) (i : Call) :
    (fileMethods.call a i).1 = (contentsMethods.call b i).1 ∧
      Alike c middle last (fileMethods.call a i).2 (contentsMethods.call b i).2 := by
  obtain ⟨file, ranges⟩ := b
  obtain rfl : file = c := alike.file
  obtain rfl : a.ranges = ranges := alike.ranges
  have hkeyValues (f : File) : Range.Within file last f { kind := .keyValues } := by
    intro i hi
    cases hi
    exact Nat.zero_le _
  have htensors {f : File} (late : Late file last f) :
      Range.Within file last f { kind := .tensors } := by
    refine ⟨late, fun i hi => ?_⟩
    cases hi
    exact Nat.zero_le _
  cases i with
  | keyValue key =>
    obtain ⟨f', hkey, moves⟩ := alike.sound.keyValue key
    have hkey : fileMethods.keyValue a.file key = _ := hkey
    simp only [Methods.call, hkey]
    exact ⟨rfl, alike.moves moves⟩
  | keyValues => exact ⟨rfl, alike.push (hkeyValues a.file)⟩
  | numKeyValues =>
    exact ⟨congrArg (fun n => Answer.number (int n)) alike.sound.count.1, alike⟩
  | tensorInfo name =>
    obtain ⟨f', hinfo, moves, -⟩ := alike.sound.tensorInfo layout name
    have hinfo : fileMethods.tensorInfo a.file name = _ := hinfo
    simp only [Methods.call, hinfo]
    exact ⟨rfl, alike.moves moves⟩
  | tensorInfos =>
    obtain ⟨late, moves⟩ := alike.sound.drain layout
    exact ⟨rfl, (alike.moves moves).push (htensors late)⟩
  | numTensors =>
    exact ⟨congrArg (fun n => Answer.number (int n)) alike.sound.count.2, alike⟩
  | tensorReader name =>
    obtain ⟨f', hreader, moves⟩ := alike.sound.tensorReader layout name
    have hreader : fileMethods.tensorReader a.file name = _ := hreader
    simp only [Methods.call, hreader]
    exact ⟨rfl, alike.moves moves⟩
  | again j =>
    rw [Methods.call, Methods.call]
    dsimp only
    cases hrange : a.ranges[j]? with
    | none => exact ⟨rfl, alike⟩
    | some r =>
      have within := alike.within r (List.mem_of_getElem? hrange)
      obtain ⟨kind, index⟩ := r
      cases kind with
      | keyValues => exact ⟨rfl, alike.push (hkeyValues a.file)⟩
      | tensors => exact ⟨rfl, alike.push (htensors within.1)⟩
  | advance j => exact alike.advance j

theorem simulates (layout : Layout c middle last) :
    Simulates fileMethods.call contentsMethods.call (Alike c middle last) where
  answer alike i := (call_alike layout alike i).1
  next alike i := (call_alike layout alike i).2

end

/-! ### Opening -/

theorem reads_of_readMany {α : Type} {read : Read α} {n : Nat} {r r' : Reader} {as : List α}
    (h : readMany read n r = .ok as r') : as.length = n ∧ Reads (attempt read) r as r' := by
  induction n generalizing r as with
  | zero =>
    cases h
    exact ⟨rfl, .nil⟩
  | succ n ih =>
    rw [readMany] at h
    simp only [bind, EStateM.bind, pure, EStateM.pure] at h
    cases hread : read r with
    | error e s =>
      rw [hread] at h
      cases h
    | ok a s =>
      rw [hread] at h
      dsimp only at h
      cases hrest : readMany read n s with
      | error e s' =>
        rw [hrest] at h
        cases h
      | ok rest s' =>
        rw [hrest] at h
        cases h
        obtain ⟨hlen, reads⟩ := ih hrest
        refine ⟨congrArg (· + 1) hlen, .cons ?_ reads⟩
        rw [attempt, hread]

theorem open_early {bytes : Text} {c : Contents} {r : Reader}
    (h : readContents ⟨bytes, 0⟩ = .ok c r) :
    ∃ f middle last, openFile bytes = .ok f ∧ Layout c middle last ∧ Early c middle f := by
  rw [readContents] at h
  simp only [bind, EStateM.bind] at h
  rw [openFile]
  cases hstart : readStart ⟨bytes, 0⟩ with
  | error e s =>
    rw [hstart] at h
    cases h
  | ok counts s =>
    rw [hstart] at h
    dsimp only at h
    cases hkeys : readMany readKeyValue counts.2.toNat s with
    | error e s' =>
      rw [hkeys] at h
      cases h
    | ok keyValues s' =>
      rw [hkeys] at h
      dsimp only at h
      cases htensors : readMany readTensor counts.1.toNat s' with
      | error e s'' =>
        rw [htensors] at h
        cases h
      | ok tensors s'' =>
        rw [htensors] at h
        cases h
        obtain ⟨hkeyCount, hkeyReads⟩ := reads_of_readMany hkeys
        obtain ⟨htensorCount, htensorReads⟩ := reads_of_readMany htensors
        refine ⟨_, s', _, rfl, ⟨htensorReads, rfl⟩, ?_⟩
        exact ⟨.inl ⟨rfl, rfl, hkeyCount.symm, keyValues, rfl, hkeyReads⟩, rfl, htensorCount.symm⟩

/-- A file whose header can be read answers every sequence of calls as the header does that has been read
once. -/
theorem lazy_agrees {bytes : Text} {c : Contents} {r : Reader} (h : readContents ⟨bytes, 0⟩ = .ok c r) :
    ∃ f, openFile bytes = .ok f ∧ ∀ calls : List Call,
      answers fileMethods.call { file := f } calls =
        answers contentsMethods.call { file := c } calls := by
  obtain ⟨f, middle, last, hopen, layout, early⟩ := open_early h
  refine ⟨f, hopen, fun calls => (simulates layout).answers_eq ?_ calls⟩
  exact ⟨rfl, rfl, .inl early, by simp⟩

/-- A file with the architecture and one tensor of two numbers. -/
def tinyFile : Text :=
  ascii "GGUF" ++ [3, 0, 0, 0] ++ [1, 0, 0, 0, 0, 0, 0, 0] ++ [1, 0, 0, 0, 0, 0, 0, 0] ++
    [20, 0, 0, 0, 0, 0, 0, 0] ++ ascii "general.architecture" ++ [8, 0, 0, 0] ++
    [5, 0, 0, 0, 0, 0, 0, 0] ++ ascii "llama" ++
    [1, 0, 0, 0, 0, 0, 0, 0] ++ ascii "t" ++ [1, 0, 0, 0] ++ [2, 0, 0, 0, 0, 0, 0, 0] ++
    [0, 0, 0, 0] ++ [0, 0, 0, 0, 0, 0, 0, 0]

def tinyContents : Contents where
  keyValues := [{ key := ascii "general.architecture", value := some (.string (ascii "llama")) }]
  tensors := [{ name := ascii "t", offset := 0, shape := [2], type := 0 }]
  offset := 128

theorem tinyFile_agrees : ∃ f, openFile tinyFile = .ok f ∧ ∀ calls : List Call,
    answers fileMethods.call { file := f } calls =
      answers contentsMethods.call { file := tinyContents } calls :=
  lazy_agrees (show readContents ⟨tinyFile, 0⟩ = .ok tinyContents ⟨[], 102⟩ from rfl)

end Ecco9.Gguf
