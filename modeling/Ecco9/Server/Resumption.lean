import Ecco9.Library.Runs
import Ecco9.Library.Cuts
import Ecco9.Server.Download

/-! An attempt that returns nil leaves the whole blob, and an undisturbed attempt returns nil, as long
as no attempt stops while the part files are being made, rewritten or removed. -/

namespace Ecco9.Server.Download

open Ecco9.Library

section

variable (content : Nat → UInt8)

/-- The byte at `x` is in the file `-partial`. -/
def Has (d : Disk) (x : Nat) : Prop :=
  ∃ f, d.data = some f ∧ x < f.size ∧ f.byte x = content x

/-- The bytes of a part up to `count` are in the file. -/
def HasPart (d : Disk) (offset count : Nat) : Prop :=
  ∀ x, offset ≤ x → x < offset + count → Has content d x

/-- The part files are those of the parts of `shape`, with no more counted than there is. -/
structure Matches (d : Disk) (shape : List (Nat × Nat)) : Prop where
  mem : ∀ n, n ∈ d.parts ↔ n < shape.length
  part : ∀ (n o z : Nat), shape[n]? = some (o, z) → ∃ c ≤ z,
    d.parts.lookup n = some (some ⟨n, o, z, c⟩) ∧ HasPart content d o c

variable (contentLength : Nat)

/-- What there is between attempts. -/
def Rest (d : Disk) : Prop :=
  (∀ n, n ∉ d.parts) ∨ ∃ shape, Tiles 0 shape contentLength ∧ Matches content d shape

/-- In the loop of `Prepare`. -/
structure Creating (d : Disk) (offset size : Nat) (parts : List Part) (opened : Bool) : Prop where
  tiles : Tiles 0 (parts.map fun p => (p.offset, p.size)) offset
  bound : offset ≤ contentLength
  size_pos : 0 < size
  fits : opened = true → offset + size ≤ contentLength
  fresh : ∀ (n : Nat) (p : Part), parts[n]? = some p → p.n = n ∧ p.completed = 0
  mem : ∀ n, n ∈ d.parts ↔ n < parts.length + opened.toNat
  files : ∀ (n : Nat) (p : Part), parts[n]? = some p → d.parts.lookup n = some (some p)

/-- The parts in memory are those of the part files. -/
structure Prepared (d : Disk) (total : Nat) (parts : List Part) : Prop where
  total : total = contentLength
  parts : ∃ shape, Tiles 0 shape contentLength ∧ Matches content d shape ∧
    (parts.map (·.n)).Perm (List.range shape.length) ∧
    ∀ p ∈ parts, d.parts.lookup p.n = some (some p)

/-- The bytes that the download of a part has in the file. -/
def Stage.count (p : Part) : Stage → Nat
  | .copied k => p.completed + k
  | _ => p.completed

/-- One part that is downloaded, and its part file. -/
structure Loads (d : Disk) (shape : List (Nat × Nat)) (w : Worker) : Prop where
  shape : shape[w.1.n]? = some (w.1.offset, w.1.size)
  le : w.2.count w.1 ≤ w.1.size
  bytes : HasPart content d w.1.offset (w.2.count w.1)
  file : w.2 ≠ .opened → ∃ c ≤ w.1.completed,
    d.parts.lookup w.1.n = some (some ⟨w.1.n, w.1.offset, w.1.size, c⟩)

structure Loading (d : Disk) (shape : List (Nat × Nat)) (workers : List Worker) : Prop where
  tiles : Tiles 0 shape contentLength
  data : d.data.isSome
  mem : ∀ n, n ∈ d.parts ↔ n < shape.length
  perm : (workers.map (·.1.n)).Perm (List.range shape.length)
  loads : ∀ w ∈ workers, Loads content d shape w

structure Removing (d : Disk) (count i : Nat) : Prop where
  data : d.data.isSome
  whole : ∀ x < contentLength, Has content d x
  le : i ≤ count
  mem : ∀ n, n ∈ d.parts ↔ i ≤ n ∧ n < count
  -- before the first is removed
  rest : i = 0 → Rest content contentLength d

def Invariant (s : State) : Prop :=
  match s.phase with
  | .idle => Rest content contentLength s.disk
  | .creating offset size parts opened => Creating contentLength s.disk offset size parts opened
  | .prepared total parts => Prepared content contentLength s.disk total parts
  | .opened total parts =>
    Prepared content contentLength s.disk total parts ∧ s.disk.data.isSome
  | .loading workers => ∃ shape, Loading content contentLength s.disk shape workers
  | .removing count i => Removing content contentLength s.disk count i
  | .removed => s.disk.data.isSome ∧ (∀ x < contentLength, Has content s.disk x) ∧
    ∀ n, n ∉ s.disk.parts
  | .done => (∀ n, n ∉ s.disk.parts) ∧
    ∃ f, s.disk.blob = some f ∧ Complete content contentLength f

end

section

variable {content : Nat → UInt8} {contentLength : Nat} {d d' : Disk} {s t : State} {x : Nat}

theorem Has.write (h : Has content d x) (offset n : Nat) :
    Has content { d with data := d.data.map (·.write content offset n) } x := by
  obtain ⟨f, hf, hx, hb⟩ := h
  refine ⟨f.write content offset n, by rw [hf, Option.map_some], ?_, ?_⟩
  · unfold File.write
    split
    · exact hx
    · exact Nat.lt_of_lt_of_le hx (Nat.le_max_left ..)
  · by_cases hin : offset ≤ x ∧ x < offset + n
    · exact if_pos hin
    · exact (if_neg hin).trans hb

theorem has_written (data : d.data.isSome) {offset n : Nat} (hlo : offset ≤ x)
    (hhi : x < offset + n) :
    Has content { d with data := d.data.map (·.write content offset n) } x := by
  obtain ⟨f, hf⟩ := Option.isSome_iff_exists.mp data
  refine ⟨f.write content offset n, by rw [hf, Option.map_some], ?_, ?_⟩
  · have hn : n ≠ 0 := by omega
    rw [File.write, if_neg hn]
    exact Nat.lt_of_lt_of_le hhi (Nat.le_max_right ..)
  · exact if_pos ⟨hlo, hhi⟩

theorem Has.truncate (h : Has content d x) {total : Nat} (hx : x < total) :
    Has content { d with data := d.data.map (·.truncate total) } x := by
  obtain ⟨f, hf, hsize, hb⟩ := h
  exact ⟨f.truncate total, by rw [hf, Option.map_some], hx, (if_pos ⟨hx, hsize⟩).trans hb⟩

theorem Has.open (h : Has content d x) :
    Has content { d with data := some (d.data.getD {}) } x := by
  obtain ⟨f, hf, hx⟩ := h
  exact ⟨f, by rw [hf, Option.getD_some], hx⟩

theorem HasPart.mono {offset c c' : Nat} (h : HasPart content d offset c) (hc : c' ≤ c) :
    HasPart content d offset c' := fun x hlo hhi => h x hlo (by omega)

theorem complete_of_has (whole : ∀ x < contentLength, Has content d x) {f : File}
    (hf : d.data = some f) : Complete content contentLength f := by
  have at_ : ∀ x < contentLength, x < f.size ∧ f.byte x = content x := by
    intro x hx
    obtain ⟨f', hf', h⟩ := whole x hx
    cases hf.symm.trans hf'
    exact h
  constructor
  · by_cases h : contentLength = 0
    · omega
    · have := (at_ (contentLength - 1) (by omega)).1
      omega
  · exact fun x hx => (at_ x hx).2

theorem getElem?_snoc {α : Type} {l : List α} {a b : α} {n : Nat} (h : (l ++ [a])[n]? = some b) :
    l[n]? = some b ∨ n = l.length ∧ b = a := by
  rcases Nat.lt_trichotomy n l.length with hn | hn | hn
  · exact .inl ((List.getElem?_append_left hn).symm.trans h)
  · refine .inr ⟨hn, ?_⟩
    rw [hn, List.getElem?_append_right (Nat.le_refl _), Nat.sub_self] at h
    exact (Option.some.inj h).symm
  · rw [List.getElem?_eq_none (by simp; omega)] at h
    cases h

/-! ### Reading the part files -/

theorem mapM_parts {g : Nat → Option Part} {l : List Nat} (h : ∀ n ∈ l, ∃ p, g n = some p ∧ p.n = n) :
    ∃ parts, l.mapM g = some parts ∧ parts.map (·.n) = l ∧ ∀ p ∈ parts, g p.n = some p := by
  induction l with
  | nil => exact ⟨[], rfl, rfl, fun p hp => nomatch hp⟩
  | cons n l ih =>
    obtain ⟨p, hp, hn⟩ := h n List.mem_cons_self
    obtain ⟨parts, hparts, hmap, hget⟩ := ih fun m hm => h m (List.mem_cons_of_mem _ hm)
    refine ⟨p :: parts, by simp [List.mapM_cons, hp, hparts], by simp [hn, hmap], ?_⟩
    intro q hq
    rcases List.mem_cons.mp hq with rfl | hq
    · rw [hn, hp]
    · exact hget q hq

theorem glob_perm (d : Disk) : d.glob.Perm d.parts.keys := List.perm_insertionSort ..

theorem Matches.glob_perm {shape : List (Nat × Nat)} (h : Matches content d shape) :
    d.glob.Perm (List.range shape.length) := by
  refine (Download.glob_perm d).trans ?_
  rw [List.perm_ext_iff_of_nodup d.parts.keys_nodup List.nodup_range]
  intro n
  rw [← AList.mem_keys, h.mem, List.mem_range]

/-- The parts that are read are those of the part files. -/
theorem Matches.readParts {shape : List (Nat × Nat)} (h : Matches content d shape) :
    ∃ parts, d.readParts = some parts ∧ (parts.map (·.n)).Perm (List.range shape.length) ∧
      ∀ p ∈ parts, d.parts.lookup p.n = some (some p) := by
  have hget : ∀ n ∈ d.glob, ∃ p, (d.parts.lookup n).join = some p ∧ p.n = n := by
    intro n hn
    have hlt : n < shape.length := List.mem_range.mp (h.glob_perm.mem_iff.mp hn)
    obtain ⟨c, -, hl, -⟩ := h.part n _ _ (List.getElem?_eq_getElem hlt)
    exact ⟨_, by rw [hl]; rfl, rfl⟩
  obtain ⟨parts, hparts, hmap, hlook⟩ := mapM_parts hget
  exact ⟨parts, hparts, hmap ▸ h.glob_perm, fun p hp => Option.join_eq_some_iff.mp (hlook p hp)⟩

theorem Matches.shape_of_lookup {shape : List (Nat × Nat)} {p : Part} (h : Matches content d shape)
    (hp : d.parts.lookup p.n = some (some p)) :
    shape[p.n]? = some (p.offset, p.size) ∧ p.completed ≤ p.size ∧
      HasPart content d p.offset p.completed := by
  have hmem : p.n ∈ d.parts := AList.lookup_isSome.mp (by rw [hp]; rfl)
  obtain ⟨⟨o, z⟩, hn⟩ : ∃ e, shape[p.n]? = some e :=
    ⟨_, List.getElem?_eq_getElem ((h.mem _).mp hmem)⟩
  obtain ⟨c, hc, hl, hbytes⟩ := h.part _ _ _ hn
  obtain ⟨n, offset, size, completed⟩ := p
  cases hp.symm.trans hl
  exact ⟨hn, hc, hbytes⟩

/-- The sizes that `Prepare` adds up. -/
theorem sum_sizes {shape : List (Nat × Nat)} {parts : List Part}
    (perm : (parts.map (·.n)).Perm (List.range shape.length))
    (sizes : ∀ p ∈ parts, shape[p.n]? = some (p.offset, p.size)) :
    (parts.map (·.size)).sum = (shape.map (·.2)).sum := by
  let sizeOf : Nat → Nat := fun n => (shape[n]?.getD (0, 0)).2
  have hparts : parts.map (·.size) = (parts.map (·.n)).map sizeOf := by
    rw [List.map_map]
    refine List.map_congr_left fun p hp => ?_
    simp [sizeOf, sizes p hp]
  have hshape : (List.range shape.length).map sizeOf = shape.map (·.2) := by
    refine List.ext_getElem (by simp) fun n h₁ h₂ => ?_
    have hn : n < shape.length := by simpa using h₁
    simp [sizeOf, hn]
  rw [hparts, ← hshape]
  exact (perm.map sizeOf).sum_eq

theorem Matches.prepared {shape : List (Nat × Nat)} {parts : List Part}
    (tiles : Tiles 0 shape contentLength) (h : Matches content d shape)
    (perm : (parts.map (·.n)).Perm (List.range shape.length))
    (files : ∀ p ∈ parts, d.parts.lookup p.n = some (some p)) :
    Prepared content contentLength d (parts.map (·.size)).sum parts where
  total := by
    rw [sum_sizes perm fun p hp => (h.shape_of_lookup (files p hp)).1]
    exact (Nat.zero_add _).symm.trans tiles.sum
  parts := ⟨shape, tiles, h, perm, files⟩

/-! ### What one step keeps -/

theorem Rest.start_cases (h : Rest content contentLength s.disk) :
    (start contentLength s = ⟨s.disk, .creating 0 (partSize contentLength) [] false⟩ ∧
      Creating contentLength s.disk 0 (partSize contentLength) [] false) ∨
    ∃ total parts, start contentLength s = ⟨s.disk, .prepared total parts⟩ ∧
      Prepared content contentLength s.disk total parts := by
  have creating : (∀ n, n ∉ s.disk.parts) →
      Creating contentLength s.disk 0 (partSize contentLength) [] false := fun hnone => {
    tiles := rfl
    bound := Nat.zero_le _
    size_pos := partSize_pos _
    fits := nofun
    fresh := nofun
    mem n := by simpa using hnone n
    files := nofun
  }
  rcases h with hnone | ⟨shape, tiles, matched⟩
  · have hkeys : s.disk.parts.keys = [] :=
      List.eq_nil_iff_forall_not_mem.mpr fun n hn => hnone n (AList.mem_keys.mpr hn)
    have hglob : s.disk.glob = [] := (hkeys ▸ glob_perm s.disk).eq_nil
    have hread : s.disk.readParts = some [] := by
      rw [Disk.readParts, hglob]
      rfl
    exact .inl ⟨by rw [Download.start, hread], creating hnone⟩
  · obtain ⟨parts, hread, perm, files⟩ := matched.readParts
    cases parts with
    | nil =>
      refine .inl ⟨by rw [Download.start, hread], creating fun n hn => ?_⟩
      have hlen : 0 = shape.length := by simpa using perm.length_eq
      exact absurd ((matched.mem n).mp hn) (by omega)
    | cons p parts =>
      exact .inr ⟨_, _, by rw [Download.start, hread], matched.prepared tiles perm files⟩

theorem Rest.start (h : Rest content contentLength s.disk) :
    Invariant content contentLength (start contentLength s) := by
  rcases h.start_cases with ⟨heq, h⟩ | ⟨total, parts, heq, h⟩
  · rw [heq]
    exact h
  · rw [heq]
    exact h

theorem hasPart_zero (content : Nat → UInt8) (d : Disk) (offset : Nat) : HasPart content d offset 0 :=
  fun x hlo hhi => absurd hhi (by omega)

/-- All part files are made. -/
theorem Creating.prepared {offset size : Nat} {parts : List Part}
    (h : Creating contentLength d offset size parts false) (all : contentLength ≤ offset) :
    Prepared content contentLength d contentLength parts where
  total := rfl
  parts := by
    refine ⟨parts.map fun p => (p.offset, p.size), ?_, ⟨fun n => ?_, fun n o z hn => ?_⟩, ?_, ?_⟩
    · exact Nat.le_antisymm h.bound all ▸ h.tiles
    · rw [h.mem, List.length_map]
      rfl
    · rw [List.getElem?_map, Option.map_eq_some_iff] at hn
      obtain ⟨p, hp, heq⟩ := hn
      cases heq
      obtain ⟨hpn, hpc⟩ := h.fresh n p hp
      refine ⟨0, Nat.zero_le _, ?_, hasPart_zero _ _ _⟩
      rw [h.files n p hp, ← hpn, ← hpc]
    · rw [List.length_map]
      refine List.Perm.of_eq (List.ext_getElem (by simp) fun n h₁ h₂ => ?_)
      have hn : n < parts.length := by simpa using h₁
      simpa using (h.fresh n _ (List.getElem?_eq_getElem hn)).1
    · intro p hp
      obtain ⟨n, hn⟩ := List.mem_iff_getElem?.mp hp
      rw [(h.fresh n p hn).1]
      exact h.files n p hn

theorem Creating.make {offset size : Nat} {parts : List Part} {opened : Bool}
    (h : Creating contentLength d offset size parts opened) :
    Invariant content contentLength (make contentLength d offset size parts opened) := by
  have other : ∀ (part : Option Part) (n : Nat) (p : Part), parts[n]? = some p →
      (d.setPart parts.length part).parts.lookup n = some (some p) := by
    intro part n p hp
    have hlt : n < parts.length := (List.getElem?_eq_some_iff.mp hp).1
    exact (AList.lookup_insert_ne (by omega)).trans (h.files n p hp)
  cases opened with
  | false =>
    unfold Download.make
    by_cases more : offset < contentLength
    · have hpos := h.size_pos
      rw [if_pos more]
      exact {
        tiles := h.tiles
        bound := h.bound
        size_pos := by split <;> omega
        fits _ := by split <;> omega
        fresh := h.fresh
        mem n := by
          refine (AList.mem_insert _).trans ?_
          rw [h.mem]
          simp only [Bool.toNat_false, Bool.toNat_true]
          omega
        files := other none
      }
    · rw [if_neg more]
      exact h.prepared (by omega)
  | true =>
    have hfits := h.fits rfl
    exact {
      tiles := by
        rw [List.map_append]
        exact h.tiles.snoc size
      bound := hfits
      size_pos := h.size_pos
      fits := nofun
      fresh n p hp := by
        rcases getElem?_snoc hp with hp | ⟨rfl, rfl⟩
        · exact h.fresh n p hp
        · exact ⟨rfl, rfl⟩
      mem n := by
        refine (AList.mem_insert _).trans ?_
        rw [h.mem, List.length_append]
        simp only [Bool.toNat_true, Bool.toNat_false, List.length_singleton]
        omega
      files n p hp := by
        rcases getElem?_snoc hp with hp | ⟨rfl, rfl⟩
        · exact other _ n p hp
        · exact AList.lookup_insert _
    }

theorem Prepared.rest {total : Nat} {parts : List Part}
    (h : Prepared content contentLength d total parts) : Rest content contentLength d :=
  .inr (let ⟨shape, tiles, matched, _⟩ := h.parts; ⟨shape, tiles, matched⟩)

/-- The part files stay, and no byte of a part is lost. -/
theorem Matches.mono {shape : List (Nat × Nat)} (tiles : Tiles 0 shape contentLength)
    (h : Matches content d shape) (parts : d'.parts = d.parts)
    (has : ∀ x < contentLength, Has content d x → Has content d' x) : Matches content d' shape where
  mem n := by rw [parts, h.mem]
  part n o z hn := by
    obtain ⟨c, hc, hl, hbytes⟩ := h.part n o z hn
    have hle := tiles.part_le hn
    exact ⟨c, hc, parts ▸ hl, fun x hlo hhi => has x (by omega) (hbytes x hlo hhi)⟩

theorem Prepared.mono {total : Nat} {parts : List Part}
    (h : Prepared content contentLength d total parts) (files : d'.parts = d.parts)
    (has : ∀ x < contentLength, Has content d x → Has content d' x) :
    Prepared content contentLength d' total parts where
  total := h.total
  parts := by
    obtain ⟨shape, tiles, matched, perm, hfiles⟩ := h.parts
    exact ⟨shape, tiles, matched.mono tiles files has, perm, files ▸ hfiles⟩

theorem Prepared.loading {total : Nat} {parts : List Part}
    (h : Prepared content contentLength d total parts) (data : d.data.isSome) :
    ∃ shape, Loading content contentLength d shape (parts.map (·, .ready)) := by
  obtain ⟨shape, tiles, matched, perm, files⟩ := h.parts
  refine ⟨shape, tiles, data, matched.mem, by simpa [Function.comp_def] using perm, ?_⟩
  intro w hw
  obtain ⟨p, hp, rfl⟩ := List.mem_map.mp hw
  obtain ⟨hshape, hle, hbytes⟩ := matched.shape_of_lookup (files p hp)
  exact ⟨hshape, hle, hbytes, fun _ => ⟨p.completed, Nat.le_refl _, files p hp⟩⟩

/-- What is counted in the part files is there. -/
theorem Loading.matches {shape : List (Nat × Nat)} {workers : List Worker}
    (h : Loading content contentLength d shape workers) (closed : ∀ w ∈ workers, w.2 ≠ .opened) :
    Matches content d shape where
  mem := h.mem
  part n o z hn := by
    have hlt : n < shape.length := (List.getElem?_eq_some_iff.mp hn).1
    obtain ⟨w, hw, rfl⟩ := List.mem_map.mp (h.perm.mem_iff.mpr (List.mem_range.mpr hlt))
    have loads := h.loads w hw
    obtain ⟨c, hc, hfile⟩ := loads.file (closed w hw)
    cases hn.symm.trans loads.shape
    have hcount : c ≤ w.2.count w.1 := by
      unfold Stage.count
      split <;> omega
    exact ⟨c, hcount.trans loads.le, hfile, loads.bytes.mono hcount⟩

theorem Loads.mono {shape : List (Nat × Nat)} {w : Worker} (h : Loads content d shape w)
    (has : ∀ x, Has content d x → Has content d' x)
    (file : d'.parts.lookup w.1.n = d.parts.lookup w.1.n) : Loads content d' shape w where
  shape := h.shape
  le := h.le
  bytes x hlo hhi := has x (h.bytes x hlo hhi)
  file hopen := by
    rw [file]
    exact h.file hopen

/-- One worker changes, and no file of the others. -/
theorem Loading.set {shape : List (Nat × Nat)} {workers : List Worker} {i : Nat} {w w' : Worker}
    (h : Loading content contentLength d shape workers) (hi : workers[i]? = some w)
    (same : w'.1.n = w.1.n) (data : d'.data.isSome)
    (mem : ∀ n, n ∈ d'.parts ↔ n ∈ d.parts) (has : ∀ x, Has content d x → Has content d' x)
    (files : ∀ n, n ≠ w.1.n → d'.parts.lookup n = d.parts.lookup n)
    (loads : Loads content d' shape w') :
    Loading content contentLength d' shape (workers.set i w') where
  tiles := h.tiles
  data := data
  mem n := (mem n).trans (h.mem n)
  perm := by
    obtain ⟨hlt, hw⟩ := List.getElem?_eq_some_iff.mp hi
    have hset : (workers.set i w').map (·.1.n) = workers.map (·.1.n) := by
      have hlt' : i < (workers.map (·.1.n)).length := by simpa using hlt
      have hn : w'.1.n = (workers.map (·.1.n))[i] := by rw [List.getElem_map, hw, same]
      rw [List.map_set, hn, List.set_getElem_self]
    rw [hset]
    exact h.perm
  loads v hv := by
    obtain ⟨j, hj⟩ := List.mem_iff_getElem?.mp hv
    obtain ⟨hlt, -⟩ := List.getElem?_eq_some_iff.mp hi
    by_cases hij : i = j
    · subst hij
      rw [List.getElem?_set_self hlt] at hj
      cases hj
      exact loads
    · rw [List.getElem?_set_ne hij] at hj
      refine (h.loads v (List.mem_of_getElem? hj)).mono has (files _ fun heq => hij ?_)
      -- two workers have different parts
      have two : (workers.map (·.1.n))[i]? = (workers.map (·.1.n))[j]? := by simp [hi, hj, heq]
      exact (List.getElem?_inj (by simpa using hlt) (h.perm.nodup_iff.mpr List.nodup_range)).mp two

theorem Stage.count_of_received {p : Part} {stage : Stage} {k : Nat}
    (h : stage.received = some k) : stage.count p = p.completed + k := by
  cases stage with
  | ready | copied =>
    cases h
    rfl
  | advanced | opened => cases h

theorem mem_setPart {n m : Nat} {part : Option Part} (hn : n ∈ d.parts) :
    m ∈ (d.setPart n part).parts ↔ m ∈ d.parts := by
  refine (AList.mem_insert _).trans ⟨fun h => ?_, .inr⟩
  rcases h with rfl | h
  · exact hn
  · exact h

/-- A step of the download of a part. -/
theorem Loading.load {shape : List (Nat × Nat)} {workers : List Worker} {i : Nat} {p : Part}
    {stage : Stage} {w : Worker} {lab : Label}
    (h : Loading content contentLength d shape workers) (hi : workers[i]? = some (p, stage))
    (hload : load content d p stage lab = some (d', w)) :
    Loading content contentLength d' shape (workers.set i w) := by
  have loads := h.loads _ (List.mem_of_getElem? hi)
  have hp : p.n ∈ d.parts :=
    (h.mem _).mpr (List.getElem?_eq_some_iff.mp loads.shape).1
  have others : ∀ (part : Option Part) (n : Nat), n ≠ p.n →
      (d.setPart p.n part).parts.lookup n = d.parts.lookup n :=
    fun part n hn => AList.lookup_insert_ne hn
  revert hload
  fun_cases Download.load content d p stage lab
  all_goals intro hload
  case case1 j n =>
    obtain ⟨k, hk, hload⟩ := Option.bind_eq_some_iff.mp hload
    have hcount := Stage.count_of_received (p := p) hk
    split at hload
    case isFalse => cases hload
    case isTrue fits =>
      cases hload
      refine h.set hi rfl (by simpa using h.data) (fun n => .rfl) (fun x hx => hx.write ..)
        (fun n hn => rfl) ⟨loads.shape, by simpa [Stage.count, Nat.add_assoc] using fits,
          ?_, ?_⟩
      · intro x hlo hhi
        by_cases hx : x < p.offset + (p.completed + k)
        · exact (loads.bytes x hlo (hcount ▸ hx)).write ..
        · simp only [Stage.count] at hhi
          exact has_written h.data (by omega) (by omega)
      · intro _
        refine loads.file fun hopen => ?_
        rw [show stage = .opened from hopen] at hk
        cases hk
  case case2 =>
    obtain ⟨k, hk, heq⟩ := Option.map_eq_some_iff.mp hload
    cases heq
    have hle : p.completed ≤ stage.count p := by
      rw [Stage.count_of_received hk]
      omega
    refine h.set hi rfl h.data (fun n => .rfl) (fun x hx => hx) (fun n hn => rfl)
      ⟨loads.shape, hle.trans loads.le, loads.bytes.mono hle, fun _ => loads.file fun hopen => ?_⟩
    rw [show stage = .opened from hopen] at hk
    cases hk
  case case3 k =>
    cases hload
    refine h.set hi rfl h.data (fun n => .rfl) (fun x hx => hx) (fun n hn => rfl)
      ⟨loads.shape, loads.le, loads.bytes, fun _ => ?_⟩
    obtain ⟨c, hc, hfile⟩ := loads.file (by simp)
    exact ⟨c, hc.trans (Nat.le_add_right ..), hfile⟩
  case case5 =>
    cases hload
    exact h.set hi rfl h.data (fun n => mem_setPart hp) (fun x hx => hx) (others none)
      ⟨loads.shape, loads.le, loads.bytes, fun hopen => absurd rfl hopen⟩
  case case7 =>
    cases hload
    exact h.set hi rfl h.data (fun n => mem_setPart hp) (fun x hx => hx) (others _)
      ⟨loads.shape, loads.le, loads.bytes,
        fun _ => ⟨p.completed, Nat.le_refl _, AList.lookup_insert _⟩⟩
  all_goals cases hload

/-- When all parts are downloaded, all bytes are there. -/
theorem Loading.join {shape : List (Nat × Nat)} {workers : List Worker}
    (h : Loading content contentLength d shape workers)
    (all : ∀ w ∈ workers, w.2 = .ready ∧ w.1.completed = w.1.size) :
    Removing content contentLength d workers.length 0 := by
  have length : workers.length = shape.length := by simpa using h.perm.length_eq
  exact {
    data := h.data
    whole x hx := by
      obtain ⟨n, o, z, hn, hlo, hhi⟩ := h.tiles.cover (Nat.zero_le x) hx
      have hlt : n < shape.length := (List.getElem?_eq_some_iff.mp hn).1
      obtain ⟨w, hw, rfl⟩ := List.mem_map.mp (h.perm.mem_iff.mpr (List.mem_range.mpr hlt))
      obtain ⟨hready, hcompleted⟩ := all w hw
      have loads := h.loads w hw
      cases hn.symm.trans loads.shape
      refine loads.bytes x hlo ?_
      rw [hready, Stage.count, hcompleted]
      · exact hhi
      · nofun
    le := Nat.zero_le _
    mem n := by
      rw [h.mem, length]
      omega
    rest _ := .inr ⟨shape, h.tiles, h.matches fun w hw hopen => by
      rw [(all w hw).1] at hopen
      cases hopen⟩
  }

theorem Removing.remove {count i : Nat} (h : Removing content contentLength d count i)
    (more : i < count) :
    i ∈ d.parts ∧ Removing content contentLength { d with parts := d.parts.erase i } count (i + 1) := by
  refine ⟨(h.mem i).mpr ⟨Nat.le_refl _, more⟩, h.data, h.whole, more, fun n => ?_, nofun⟩
  refine AList.mem_erase.trans ?_
  rw [h.mem]
  omega

/-- An attempt that stops at a good point leaves what the next can go on with. -/
theorem Invariant.halt (h : Invariant content contentLength s)
    (resumable : Resumable contentLength s.phase) : Rest content contentLength s.disk := by
  obtain ⟨d, phase⟩ := s
  cases phase with
  | idle => exact h
  | creating offset size parts opened =>
    obtain ⟨rfl, hparts⟩ := resumable
    have h : Creating contentLength d offset size parts false := h
    rcases hparts with rfl | all
    · refine .inl fun n hn => ?_
      exact absurd ((h.mem n).mp hn) (Nat.not_lt_zero n)
    · exact (h.prepared all).rest
  | prepared total parts => exact Prepared.rest h
  | opened total parts => exact Prepared.rest h.1
  | loading workers =>
    obtain ⟨shape, h⟩ := h
    exact .inr ⟨shape, h.tiles, h.matches resumable⟩
  | removing count i =>
    have h : Removing content contentLength d count i := h
    rcases resumable with rfl | rfl
    · exact h.rest rfl
    · refine .inl fun n hn => ?_
      have := (h.mem n).mp hn
      omega
  | removed => exact .inl h.2.2
  | done => exact .inl h.1

/-- What one step keeps. -/
theorem step_keeps_invariant (lab : Label) (h : Invariant content contentLength s)
    (safe : lab = .halt → Resumable contentLength s.phase)
    (hstep : step content contentLength s lab = some t) : Invariant content contentLength t := by
  revert hstep
  fun_cases step content contentLength s lab
  all_goals intro hstep
  case case1 hphase =>
    simp only [Invariant, hphase] at h
    cases hstep
    exact h.start
  case case2 hphase =>
    simp only [Invariant, hphase] at h
    cases hstep
    exact Rest.start (.inl h.1)
  case case5 =>
    cases hstep
    exact h.halt (safe rfl)
  case case6 hphase =>
    simp only [Invariant, hphase] at h
    cases hstep
    exact h.make
  case case7 hphase =>
    simp only [Invariant, hphase] at h
    cases hstep
    exact ⟨h.mono rfl fun x _ hx => hx.open, rfl⟩
  case case8 hphase =>
    simp only [Invariant, hphase] at h
    obtain ⟨h, data⟩ := h
    cases hstep
    exact Prepared.loading (h.mono rfl fun x hlt hx => hx.truncate (h.total ▸ hlt))
      (by simpa using data)
  case case9 hphase =>
    simp only [Invariant, hphase] at h
    cases hstep
    exact h.1.loading h.2
  case case10 hphase all =>
    simp only [Invariant, hphase] at h
    obtain ⟨shape, h⟩ := h
    cases hstep
    refine h.join fun w hw => ?_
    simpa using List.all_eq_true.mp all w hw
  case case12 hphase _ _ =>
    simp only [Invariant, hphase] at h
    obtain ⟨shape, h⟩ := h
    obtain ⟨i, -, hstep⟩ := Option.bind_eq_some_iff.mp hstep
    obtain ⟨⟨p, stage⟩, hi, hstep⟩ := Option.bind_eq_some_iff.mp hstep
    obtain ⟨⟨d, w⟩, hload, rfl⟩ := Option.map_eq_some_iff.mp hstep
    exact ⟨shape, h.load hi hload⟩
  case case13 hphase more _ =>
    simp only [Invariant, hphase] at h
    cases hstep
    exact (h.remove more).2
  case case14 hphase more missing =>
    simp only [Invariant, hphase] at h
    exact absurd (h.remove more).1 missing
  case case15 hphase last =>
    simp only [Invariant, hphase] at h
    cases hstep
    refine ⟨h.data, h.whole, fun n hn => ?_⟩
    have := (h.mem n).mp hn
    omega
  case case16 hphase f hf =>
    simp only [Invariant, hphase] at h
    cases hstep
    exact ⟨h.2.2, f, rfl, complete_of_has h.2.1 hf⟩
  case case17 hphase hdata =>
    simp only [Invariant, hphase] at h
    rw [hdata] at h
    cases h.1
  all_goals cases hstep

/-! ### An undisturbed attempt -/

/-- An undisturbed attempt can return nil from here. -/
def Returns (content : Nat → UInt8) (contentLength : Nat) (s : State) : Prop :=
  ∃ t, Relation.ReflTransGen (UndisturbedStep content contentLength) s t ∧ t.phase = .done

theorem Returns.step (lab : Label) (h : step content contentLength s lab = some t)
    (undisturbed : Undisturbed lab) (returns : Returns content contentLength t) :
    Returns content contentLength s := by
  obtain ⟨u, run, done⟩ := returns
  exact ⟨u, .head ⟨lab, h, undisturbed⟩ run, done⟩

theorem returns_removed (data : d.data.isSome) : Returns content contentLength ⟨d, .removed⟩ := by
  obtain ⟨f, hf⟩ := Option.isSome_iff_exists.mp data
  have hstep : Download.step content contentLength ⟨d, .removed⟩ .rename =
      some ⟨{ d with data := none, blob := some f }, .done⟩ := by
    simp only [Download.step, hf]
  exact Returns.step _ hstep trivial ⟨_, .refl, rfl⟩

theorem Removing.returns {count i : Nat} (h : Removing content contentLength d count i) :
    Returns content contentLength ⟨d, .removing count i⟩ := by
  -- over the part files that are left
  induction hn : count - i generalizing d i with
  | zero =>
    have last : ¬i < count := by omega
    exact Returns.step .remove (by simp only [Download.step, if_neg last]) trivial
      (returns_removed h.data)
  | succ n ih =>
    have more : i < count := by omega
    obtain ⟨hi, h'⟩ := h.remove more
    exact Returns.step .remove
      (by simp only [Download.step, if_pos more, if_pos hi]) trivial (ih h' (by omega))

/-- What a download of a part has still to do. -/
def weight (w : Worker) : Nat :=
  8 * (w.1.size - w.2.count w.1) +
    match w.2 with
    | .ready => 0
    | .opened => 1
    | .advanced => 2
    | .copied _ => 3

theorem sum_set_lt {l : List Worker} {i : Nat} {w w' : Worker} (hi : l[i]? = some w)
    (hlt : weight w' < weight w) : ((l.set i w').map weight).sum < (l.map weight).sum := by
  induction l generalizing i with
  | nil => cases hi
  | cons v l ih =>
    cases i with
    | zero =>
      cases hi
      simpa using hlt
    | succ i =>
      have := ih hi
      simpa using this

/-- A download of a part that is not over can do something. -/
theorem Loads.progress {shape : List (Nat × Nat)} {p : Part} {stage : Stage} (i : Nat)
    (h : Loads content d shape (p, stage)) (busy : weight (p, stage) ≠ 0) :
    ∃ lab d' w, lab.worker = some i ∧ Undisturbed lab ∧
      load content d p stage lab = some (d', w) ∧ weight w < weight (p, stage) := by
  have hle := h.le
  cases stage with
  | ready =>
    simp only [weight, Stage.count] at busy hle
    refine ⟨.copy i (p.size - p.completed), _, _, rfl, trivial,
      if_pos (by simp only [Nat.add_zero]; omega), ?_⟩
    simp only [weight, Stage.count]
    omega
  | copied k =>
    simp only [Stage.count] at hle
    by_cases rest : p.completed + k = p.size
    · refine ⟨.advance i, _, _, rfl, trivial, rfl, ?_⟩
      simp only [weight, Stage.count]
      omega
    · refine ⟨.copy i (p.size - p.completed - k), _, _, rfl, trivial,
        if_pos (by omega), ?_⟩
      simp only [weight, Stage.count]
      omega
  | advanced =>
    refine ⟨.openPart i, _, _, rfl, trivial, rfl, ?_⟩
    simp only [weight, Stage.count]
    omega
  | opened =>
    refine ⟨.writePart i, _, _, rfl, trivial, rfl, ?_⟩
    simp only [weight, Stage.count]
    omega

theorem step_load {workers : List Worker} {i : Nat} {p : Part} {stage : Stage} {w : Worker}
    {lab : Label} (hlab : lab.worker = some i) (hi : workers[i]? = some (p, stage))
    (hload : load content d p stage lab = some (d', w)) :
    step content contentLength ⟨d, .loading workers⟩ lab =
      some ⟨d', .loading (workers.set i w)⟩ := by
  cases lab <;> cases hlab <;> simp [step, Label.worker, hi, hload]

theorem Loading.returns {shape : List (Nat × Nat)} {workers : List Worker}
    (h : Loading content contentLength d shape workers) :
    Returns content contentLength ⟨d, .loading workers⟩ := by
  induction hn : (workers.map weight).sum using Nat.strongRecOn generalizing d workers with
  | _ n ih =>
    by_cases idle : ∀ w ∈ workers, weight w = 0
    · have all : ∀ w ∈ workers, w.2 = .ready ∧ w.1.completed = w.1.size := by
        intro w hw
        have hle := (h.loads w hw).le
        have hw := idle w hw
        obtain ⟨p, stage⟩ := w
        cases stage with
        | ready =>
          simp only [weight, Stage.count] at hw hle
          exact ⟨rfl, show p.completed = p.size by omega⟩
        | copied | advanced | opened => simp [weight] at hw
      refine Returns.step .join ?_ trivial (h.join all).returns
      have hall : (workers.all fun w => decide (w.2 = .ready ∧ w.1.completed = w.1.size)) = true :=
        List.all_eq_true.mpr fun w hw => decide_eq_true (all w hw)
      exact if_pos hall
    · simp only [not_forall] at idle
      obtain ⟨⟨p, stage⟩, hw, busy⟩ := idle
      obtain ⟨i, hi⟩ := List.mem_iff_getElem?.mp hw
      obtain ⟨lab, d', w, hlab, undisturbed, hload, hlt⟩ := (h.loads _ hw).progress i busy
      exact Returns.step _ (step_load hlab hi hload) undisturbed
        (ih _ (hn ▸ sum_set_lt hi hlt) (h.load hi hload) rfl)

theorem Prepared.returns_opened {total : Nat} {parts : List Part}
    (h : Prepared content contentLength d total parts) (data : d.data.isSome) :
    Returns content contentLength ⟨d, .opened total parts⟩ := by
  have h' : Prepared content contentLength { d with data := d.data.map (·.truncate total) } total
      parts := h.mono rfl fun x hlt hx => hx.truncate (h.total ▸ hlt)
  obtain ⟨shape, loading⟩ := h'.loading (by simpa using data)
  exact Returns.step .truncate rfl trivial loading.returns

theorem Prepared.returns {total : Nat} {parts : List Part}
    (h : Prepared content contentLength d total parts) :
    Returns content contentLength ⟨d, .prepared total parts⟩ :=
  Returns.step .open rfl trivial
    (Prepared.returns_opened (h.mono rfl fun _ _ hx => hx.open) rfl)

theorem Creating.returns {offset size : Nat} {parts : List Part} {opened : Bool}
    (h : Creating contentLength d offset size parts opened) :
    Returns content contentLength ⟨d, .creating offset size parts opened⟩ := by
  -- over what is left to make, twice, since a part file takes two operations
  induction hn : 2 * (contentLength - offset) + (!opened).toNat using Nat.strongRecOn
    generalizing d offset size parts opened with
  | _ n ih =>
    have kept : Invariant content contentLength (Download.make contentLength d offset size parts opened) :=
      h.make
    refine Returns.step .make rfl trivial ?_
    cases opened with
    | false =>
      unfold Download.make at kept ⊢
      by_cases more : offset < contentLength
      · rw [if_pos more] at kept ⊢
        refine ih _ ?_ kept rfl
        rw [← hn]
        exact Nat.lt_succ_self _
      · rw [if_neg more] at kept ⊢
        exact Prepared.returns kept
    | true =>
      refine ih _ ?_ kept rfl
      have hpos := h.size_pos
      have hfits := h.fits rfl
      simp only [Bool.not_true, Bool.not_false, Bool.toNat_false, Bool.toNat_true] at hn ⊢
      omega

theorem Rest.returns (h : Rest content contentLength s.disk) (idle : s.phase = .idle) :
    Returns content contentLength s := by
  have hstep : step content contentLength s .start =
      some (Download.start contentLength s) := by
    simp only [step, idle]
  refine Returns.step _ hstep trivial ?_
  rcases h.start_cases with ⟨heq, h⟩ | ⟨total, parts, heq, h⟩
  · rw [heq]
    exact h.returns
  · rw [heq]
    exact h.returns

/-- As long as attempts stop only at good points, an attempt that returns nil leaves the whole blob,
and whenever none is in progress, an undisturbed attempt can return nil. -/
theorem run_resumes (run : Relation.ReflTransGen (SafeStep content contentLength) {} t) :
    (t.phase = .done → ∃ f, t.disk.blob = some f ∧ Complete content contentLength f) ∧
      (t.phase = .idle → Returns content contentLength t) := by
  have invariant : Invariant content contentLength t := by
    refine run_invariant ?_ run ?_
    · rintro s t hs ⟨lab, hstep, safe⟩
      exact step_keeps_invariant lab hs safe hstep
    · exact Or.inl fun n => AList.notMem_empty n
  constructor
  · intro done
    simp only [Invariant, done] at invariant
    exact invariant.2
  · intro idle
    refine Rest.returns ?_ idle
    simpa only [Invariant, idle] using invariant

theorem safe_of_run {labels : List Label} (h : Download.run content contentLength s labels = some t)
    (steady : ∀ lab ∈ labels, lab ≠ .halt) :
    Relation.ReflTransGen (SafeStep content contentLength) s t := by
  induction labels generalizing s with
  | nil =>
    cases h
    exact .refl
  | cons lab labels ih =>
    rw [Download.run, List.foldlM_cons, Option.bind_eq_bind, Option.bind_eq_some_iff] at h
    obtain ⟨u, hu, h⟩ := h
    exact .head ⟨lab, hu, fun halt => absurd halt (steady lab List.mem_cons_self)⟩
      (ih h fun lab hlab => steady lab (List.mem_cons_of_mem _ hlab))

end

/-- One attempt in one part, from its first file to the blob. -/
def onePart (n : Nat) : List Label :=
  [.open, .truncate, .copy 0 n, .advance 0, .openPart 0, .writePart 0, .join, .remove, .remove,
    .rename]

/-- A blob of three bytes, downloaded in two chunks with a stall between them. -/
theorem three_bytes : ∃ (t : State) (f : File), t.phase = .done ∧ t.disk.blob = some f ∧
    Complete (fun x => x.toUInt8) 3 f := by
  have hrun : ∃ t, run (fun x => x.toUInt8) 3 {} ([.start, .make, .make, .make, .open, .truncate,
      .copy 0 2, .advance 0, .openPart 0, .writePart 0, .copy 0 1, .advance 0, .openPart 0,
      .writePart 0, .join, .remove, .remove, .rename]) = some t ∧ t.phase = .done := ⟨_, rfl, rfl⟩
  obtain ⟨t, hrun, done⟩ := hrun
  obtain ⟨f, hf, complete⟩ := (run_resumes (safe_of_run hrun (by simp))).1 done
  exact ⟨t, f, done, hf, complete⟩

/-- A blob of more than one part; the first attempt stops when it has made one part file, and the
second takes this part for the whole. -/
theorem second_part_lost : ∃ t, run (fun _ => 7) 100000001 {}
      ([.start, .make, .make, .halt, .start] ++ onePart 100000000) = some t ∧ t.phase = .done ∧
    ∀ f, t.disk.blob = some f → ¬Complete (fun _ => 7) 100000001 f := by
  refine ⟨_, rfl, rfl, ?_⟩
  rintro f hf ⟨hsize, -⟩
  cases hf
  revert hsize
  decide

end Ecco9.Server.Download
