import Ecco9.Client.Integrity

/-! A pull that returns `nil` leaves every layer of its manifest in the cache, whatever the pulls before it
did, as long as no blob is taken to be there by its size before all of it is. -/

namespace Ecco9.Client

open Ecco9.Library Ecco9.Blob

section

variable (sum256 : Bytes → Digest) (unmarshal : Bytes → Option (List Layer × Option Layer))
  (content : Digest → Bytes) (texts : Set Bytes)

/-! ### A pull that is running -/

/-- The manifests that were pulled and their layers. -/
def Settled (pulled : List Manifest) (t : Bytes) : Prop :=
  ∃ m ∈ pulled, t = m.data ∨ ∃ l ∈ m.all, t = content l.digest

structure Writing (c : DiskCache) (pulled : List Manifest) (x : Download) : Prop where
  listed : Listed sum256 content texts x.layer x.cs
  le : x.h.length ≤ x.cs.chunk.size
  summed : x.h.length = x.cs.chunk.size → x.h ≠ [] → sum256 x.h = x.cs.digest ∧ x.h ∈ texts
  written : ∀ k < x.h.length, x.h[k]? = (content x.layer.digest)[x.cs.chunk.start + k]? →
    Holds content c x.layer.digest (x.cs.chunk.start + k)
  fresh : x.validated = false → ∀ t, Settled content pulled t → sum256 t ≠ x.layer.digest
  kept : x.validated = true → ∀ i < x.layer.size, Kept sum256 texts c pulled x.layer.digest i

def TurnSound (c : DiskCache) (pulled : List Manifest) (m : Manifest) : Turn → Prop
  | .next => True
  | .missing l => l ∈ m.all
  | .chunks l validated todo => l ∈ m.all ∧ (∀ cs ∈ todo, Listed sum256 content texts l cs) ∧
      (validated = false → ∀ t, Settled content pulled t → sum256 t ≠ l.digest) ∧
      (validated = true → ∀ i < l.size, Kept sum256 texts c pulled l.digest i)

def Turn.owed : Turn → Nat
  | .next => 0
  | .missing l => l.size
  | .chunks _ _ todo => (todo.map fun cs => cs.chunk.size).sum

def Download.owed (x : Download) : Nat := if x.validated then 0 else x.cs.chunk.size - x.h.length

/-- How many bytes may still be counted. -/
def Pull.owed (p : Pull) : Nat :=
  (p.todo.map Layer.size).sum + p.turn.owed + (p.downloads.map Download.owed).sum

/-- The loop has not come to the byte yet. -/
def Pull.Ahead (p : Pull) (l : Layer) (i : Nat) : Prop :=
  l ∈ p.todo ∨ p.turn = .missing l ∨
    ∃ validated todo, p.turn = .chunks l validated todo ∧ ∃ cs ∈ todo, cs.chunk.Has i

def Accounted (c : DiskCache) (pulled : List Manifest) (p : Pull) (l : Layer) (i : Nat) : Prop :=
  p.Ahead l i ∨ Kept sum256 texts c pulled l.digest i ∨ ∃ x ∈ p.downloads, x.Covers l.digest i

structure Running (c : DiskCache) (pulled : List Manifest) (p : Pull) : Prop where
  data : p.m.data ∈ texts
  json : (unmarshal p.m.data).isSome
  expected : p.m.expected < 2 ^ 64
  honest : ∀ l ∈ p.m.all, l.Honest sum256 content texts
  plain : ∀ l ∈ p.m.all, ∀ d cs, content l.digest ≠ cacheKey d cs
  todo : ∀ l ∈ p.todo, l ∈ p.m.all
  turn : TurnSound sum256 content texts c pulled p.m p.turn
  downloads : ∀ x ∈ p.downloads, x.layer ∈ p.m.all ∧ Writing sum256 content texts c pulled x
  files : ∀ l ∈ p.m.all, l ∈ p.todo ∨ p.turn = .missing l ∨ (c.blobs l.digest).isSome
  le : p.completed + p.owed ≤ p.m.expected
  -- where nothing failed and nothing was left out, every byte is there, or is still to come
  accounted : p.failed = false → p.completed + p.owed = p.m.expected → ∀ l ∈ p.m.all, ∀ i < l.size,
    Accounted sum256 texts c pulled p l i

structure Invariant (s : State) : Prop where
  sound : Sound sum256 content texts s.cache
  settled : ∀ t, Settled content s.pulled t → t ∈ texts ∧ s.cache.blobs (sum256 t) = some t
  honest : ∀ m ∈ s.pulled, ∀ l ∈ m.all, l.Honest sum256 content texts
  running : ∀ p, s.pull = some p → Running sum256 unmarshal content texts s.cache s.pulled p

end

section

variable {sum256 : Bytes → Digest} {unmarshal : Bytes → Option (List Layer × Option Layer)}
  {content : Digest → Bytes} {texts : Set Bytes} {c c' : DiskCache} {pulled : List Manifest}
  {s : State} {p : Pull} {x : Download} {d : Digest} {i : Nat}

/-! ### What a step keeps -/

/-- Every byte that was recorded, or put with a manifest, is there. -/
theorem Kept.holds (inj : Set.InjOn sum256 texts) (sound : Sound sum256 content texts c)
    (settled : ∀ t, Settled content pulled t → t ∈ texts ∧ c.blobs (sum256 t) = some t)
    (h : Kept sum256 texts c pulled d i) (genuine : Genuine sum256 content texts d)
    (hi : i < (content d).length) : Holds content c d i := by
  rcases h with ⟨m, hm, hd⟩ | h
  · obtain ⟨ht, hblob⟩ := settled m.data ⟨m, hm, .inl rfl⟩
    have hcontent := genuine.eq inj ht hd
    rw [hd, hcontent] at hblob
    refine ⟨(content d)[i], List.getElem?_eq_getElem hi, ?_⟩
    rw [DiskCache.byte, hblob, Option.bind_some, List.getElem?_eq_getElem hi]
  · exact (sound.recorded d i h).2

/-- A download whose sum was right has written its chunk. -/
theorem Writing.holds (inj : Set.InjOn sum256 texts) (sound : Sound sum256 content texts c)
    (settled : ∀ t, Settled content pulled t → t ∈ texts ∧ c.blobs (sum256 t) = some t)
    (h : Writing sum256 content texts c pulled x) (honest : x.layer.Honest sum256 content texts)
    (done : x.Done) (hi : x.cs.chunk.Has i) : Holds content c x.layer.digest i := by
  have within := h.listed.within
  obtain ⟨hlo, hhi⟩ := hi
  rcases done with hvalid | hlen
  · exact (h.kept hvalid i (by omega)).holds inj sound settled honest.genuine
      (by rw [honest.size]; omega)
  · obtain ⟨k, rfl⟩ : ∃ k, i = x.cs.chunk.start + k := ⟨i - x.cs.chunk.start, by omega⟩
    have hk : k < x.cs.chunk.size := by omega
    have hne : x.h ≠ [] := List.ne_nil_of_length_pos (by omega)
    obtain ⟨hsum, htext⟩ := h.summed hlen hne
    have hslice := inj htext h.listed.slice (hsum.trans h.listed.digest.symm)
    refine h.written k (by omega) ?_
    rw [hslice, Chunk.Has.slice hk]

theorem Writing.mono (grows : Grows c c') (h : Writing sum256 content texts c pulled x)
    (holds : ∀ k < x.h.length, x.h[k]? = (content x.layer.digest)[x.cs.chunk.start + k]? →
      Holds content c x.layer.digest (x.cs.chunk.start + k) →
      Holds content c' x.layer.digest (x.cs.chunk.start + k)) :
    Writing sum256 content texts c' pulled x :=
  { h with
    written := fun k hk heq => holds k hk heq (h.written k hk heq)
    kept := fun hvalid i hi => (h.kept hvalid i hi).mono grows }

theorem TurnSound.mono {m : Manifest} {turn : Turn} (grows : Grows c c')
    (h : TurnSound sum256 content texts c pulled m turn) :
    TurnSound sum256 content texts c' pulled m turn := by
  cases turn with
  | next => trivial
  | missing l => exact h
  | chunks l validated todo =>
    obtain ⟨hl, hlisted, hfresh, hkept⟩ := h
    exact ⟨hl, hlisted, hfresh, fun hvalid i hi => (hkept hvalid i hi).mono grows⟩

theorem Accounted.mono {l : Layer} (grows : Grows c c') (h : Accounted sum256 texts c pulled p l i) :
    Accounted sum256 texts c' pulled p l i := h.imp_right (Or.imp_left (Kept.mono grows))

/-- The cache changes beside a pull. -/
theorem Running.mono (grows : Grows c c')
    (holds : ∀ d i, Genuine sum256 content texts d → Holds content c d i → Holds content c' d i)
    (h : Running sum256 unmarshal content texts c pulled p) :
    Running sum256 unmarshal content texts c' pulled p :=
  { h with
    turn := h.turn.mono grows
    downloads := fun x hx => ⟨(h.downloads x hx).1, (h.downloads x hx).2.mono grows fun _ _ _ =>
      holds _ _ (h.honest _ (h.downloads x hx).1).genuine⟩
    files := fun l hl => (h.files l hl).imp_right (Or.imp_right (grows.blobs _))
    accounted := fun hfailed heq l hl i hi => (h.accounted hfailed heq l hl i hi).mono grows }

theorem Invariant.of_pull {pull : Option Pull} (h : Invariant sum256 unmarshal content texts s)
    (running : ∀ p, pull = some p → Running sum256 unmarshal content texts s.cache s.pulled p) :
    Invariant sum256 unmarshal content texts { s with pull } :=
  { h with running }

/-! ### The loop -/

theorem Invariant.start (h : Invariant sum256 unmarshal content texts s) {name : Text} {data : Bytes} {threshold : Nat}
    (served : Served sum256 unmarshal content texts s (.pull name data threshold))
    (safe : Safe sum256 unmarshal content texts s (.pull name data threshold)) :
    Invariant sum256 unmarshal content texts (s.start unmarshal name data threshold) := by
  rw [State.start]
  split
  · exact h
  · rename_i layers config hjson
    split_ifs
    · exact h
    · refine h.of_pull fun p hp => ?_
      obtain rfl := Option.some.inj hp
      obtain ⟨hexpected, hplain⟩ := safe layers config hjson
      exact
        { data := served.1
          json := by rw [hjson]; rfl
          expected := hexpected
          honest := served.2 layers config hjson
          plain := hplain
          todo := fun _ => id
          turn := trivial
          downloads := by simp
          files := fun _ => .inl
          le := by simp [Pull.owed, Turn.owed, Manifest.expected]
          accounted := fun _ _ _ hl _ _ => .inl (.inl hl) }

theorem Invariant.layer (h : Invariant sum256 unmarshal content texts s) (hpull : s.pull = some p)
    (safe : Safe sum256 unmarshal content texts s .layer) :
    Invariant sum256 unmarshal content texts (s.layer p) := by
  have run := h.running p hpull
  rw [State.layer]
  split
  · rename_i l todo hturn htodo
    have hl : l ∈ p.m.all := run.todo l (htodo ▸ List.mem_cons_self)
    have rest : ∀ l' ∈ todo, l' ∈ p.m.all := fun l' hl' => run.todo l' (htodo ▸ List.mem_cons_of_mem l hl')
    have owed : p.owed = l.size + (todo.map Layer.size).sum + (p.downloads.map Download.owed).sum := by
      rw [Pull.owed, hturn, htodo, List.map_cons, List.sum_cons, Turn.owed, Nat.add_zero]
    have le := run.le
    split_ifs with hget
    · refine h.of_pull fun p' hp' => ?_
      obtain rfl := Option.some.inj hp'
      refine { run with todo := rest, files := ?_, le := ?_, accounted := ?_ }
      · intro l' hl'
        rcases run.files l' hl' with hmem | hfile
        · rcases List.mem_cons.mp (htodo ▸ hmem) with rfl | hmem
          · obtain ⟨b, hb, -⟩ := isSome_get_iff.mp (by rw [hget]; rfl)
            exact .inr (.inr (by rw [hb]; rfl))
          · exact .inl hmem
        · exact .inr hfile
      · simp only [Pull.owed, hturn, Turn.owed]
        omega
      · intro hfailed heq l' hl' i hi
        have heq' : p.completed + p.owed = p.m.expected := by
          simp only [Pull.owed, hturn, Turn.owed] at heq
          omega
        rcases run.accounted hfailed heq' l' hl' i hi with (hmem | hahead) | hthere
        · rcases List.mem_cons.mp (htodo ▸ hmem) with rfl | hmem
          · exact .inr (safe p l' todo hpull hturn htodo hget i hi)
          · exact .inl (.inl hmem)
        · exact .inl (.inr hahead)
        · exact .inr hthere
    · refine h.of_pull fun p' hp' => ?_
      obtain rfl := Option.some.inj hp'
      refine { run with todo := rest, turn := hl, files := ?_, le := ?_, accounted := ?_ }
      · intro l' hl'
        rcases run.files l' hl' with hmem | hmissing | hfile
        · rcases List.mem_cons.mp (htodo ▸ hmem) with rfl | hmem
          · exact .inr (.inl rfl)
          · exact .inl hmem
        · rw [hturn] at hmissing
          cases hmissing
        · exact .inr (.inr hfile)
      · simp only [Pull.owed, Turn.owed]
        omega
      · intro hfailed heq l' hl' i hi
        have heq' : p.completed + p.owed = p.m.expected := by
          simp only [Pull.owed, Turn.owed] at heq
          omega
        rcases run.accounted hfailed heq' l' hl' i hi with (hmem | hahead) | hthere
        · rcases List.mem_cons.mp (htodo ▸ hmem) with rfl | hmem
          · exact .inl (.inr (.inl rfl))
          · exact .inl (.inl hmem)
        · simp [hturn] at hahead
        · exact .inr hthere
  · exact h

/-- The chunks that the loop goes through are those of the layer, or the first of them. -/
theorem chunksums_partition {l : Layer} {threshold : Nat} {words : List Text}
    (honest : l.Honest sum256 content texts)
    (served : threshold ≤ l.size →
      ∃ rest, Partitions sum256 (content l.digest) (readChunksums words ++ rest)) :
    ∃ rest, Partitions sum256 (content l.digest) (chunksums threshold l words ++ rest) := by
  rw [chunksums]
  split_ifs with hsmall
  · have hsize : (⟨0, (l.size : Int) - 1⟩ : Chunk).size = l.size := by
      rw [Chunk.size]
      dsimp only
      omega
    refine ⟨[], ⟨_, List.Perm.refl _, ?_⟩, ?_⟩
    · rw [List.append_nil, List.map_singleton, hsize, ← honest.size]
      exact ⟨rfl, Nat.zero_add _⟩
    · intro cs hcs
      obtain rfl := List.mem_singleton.mp hcs
      rw [Chunk.slice, hsize, List.drop_zero, List.take_of_length_le honest.size.le]
      exact honest.genuine.2
  · exact served (Nat.le_of_not_lt hsmall)

theorem Partitions.front {content : Bytes} {chunks rest : List Chunksum}
    (h : Partitions sum256 content (chunks ++ rest)) :
    (chunks.map fun cs => cs.chunk.size).sum ≤ content.length ∧
      ((chunks.map fun cs => cs.chunk.size).sum = content.length →
        ∀ i < content.length, ∃ cs ∈ chunks, cs.chunk.Has i) := by
  have hsum := h.sum
  rw [List.map_append, List.sum_append] at hsum
  refine ⟨by omega, fun heq i hi => ?_⟩
  obtain ⟨cs, hcs, hi⟩ := h.cover hi
  rcases List.mem_append.mp hcs with hcs | hcs
  · exact ⟨cs, hcs, hi⟩
  · -- what was cut off is empty
    have : cs.chunk.size ≤ (rest.map fun cs => cs.chunk.size).sum :=
      List.le_sum_of_mem (List.mem_map_of_mem hcs)
    obtain ⟨hlo, hhi⟩ := hi
    omega

/-- The chunks of a layer have been listed; `c'` is the cache with its blob open. -/
theorem Running.open (run : Running sum256 unmarshal content texts c pulled p) {l : Layer}
    (hturn : p.turn = .missing l) (grows : Grows c c')
    (holds : ∀ d i, Genuine sum256 content texts d → Holds content c d i → Holds content c' d i)
    (file : (c'.blobs l.digest).isSome) {validated : Bool} {words : List Text}
    (served : p.threshold ≤ l.size →
      ∃ rest, Partitions sum256 (content l.digest) (readChunksums words ++ rest))
    (known : ∀ cs ∈ chunksums p.threshold l words,
      cs.chunk.slice (content l.digest) ∈ texts ∧ cacheKey l.digest cs ∈ texts)
    (fresh : validated = false → ∀ t, Settled content pulled t → sum256 t ≠ l.digest)
    (kept : validated = true → ∀ i < l.size, Kept sum256 texts c' pulled l.digest i) :
    Running sum256 unmarshal content texts c' pulled
      { p with turn := .chunks l validated (chunksums p.threshold l words) } := by
  have hl : l ∈ p.m.all := by
    have := run.turn
    rwa [hturn] at this
  have honest := run.honest l hl
  obtain ⟨rest, parts⟩ := chunksums_partition honest served
  obtain ⟨hsum, hcover⟩ := Partitions.front parts
  rw [honest.size] at hsum hcover
  have listed : ∀ cs ∈ chunksums p.threshold l words, Listed sum256 content texts l cs := by
    intro cs hcs
    have hmem := List.mem_append_left rest hcs
    exact
      { within := honest.size ▸ parts.within hmem
        digest := parts.digest cs hmem
        slice := (known cs hcs).1
        key := (known cs hcs).2 }
  have le := run.le
  have owed : p.owed = (p.todo.map Layer.size).sum + l.size + (p.downloads.map Download.owed).sum := by
    rw [Pull.owed, hturn, Turn.owed]
  have run' := run.mono grows holds
  refine { run' with turn := ⟨hl, listed, fresh, kept⟩, files := ?_, le := ?_, accounted := ?_ }
  · intro l' hl'
    rcases run'.files l' hl' with hmem | hmissing | hfile
    · exact .inl hmem
    · obtain rfl : l = l' := Turn.missing.inj (hturn.symm.trans hmissing)
      exact .inr (.inr file)
    · exact .inr (.inr hfile)
  · simp only [Pull.owed, Turn.owed]
    omega
  · intro hfailed heq l' hl' i hi
    simp only [Pull.owed, Turn.owed] at heq
    have all : ((chunksums p.threshold l words).map fun cs => cs.chunk.size).sum = l.size := by omega
    rcases run'.accounted hfailed (by omega) l' hl' i hi with (hmem | hmissing | hahead) | hthere
    · exact .inl (.inl hmem)
    · obtain rfl : l = l' := Turn.missing.inj (hturn.symm.trans hmissing)
      exact .inl (.inr (.inr ⟨validated, _, rfl, hcover all i hi⟩))
    · simp [hturn] at hahead
    · exact .inr hthere

theorem Invariant.open (inj : Set.InjOn sum256 texts)
    (h : Invariant sum256 unmarshal content texts s) (hpull : s.pull = some p) {words : List Text}
    (served : Served sum256 unmarshal content texts s (.open words))
    (safe : Safe sum256 unmarshal content texts s (.open words)) :
    Invariant sum256 unmarshal content texts (s.open p words) := by
  have run := h.running p hpull
  rw [State.open]
  split
  · rename_i l hturn
    have hl : l ∈ p.m.all := by
      have := run.turn
      rwa [hturn] at this
    have honest := run.honest l hl
    obtain ⟨hserved, known⟩ := served p l hpull hturn
    split_ifs with hfull
    · refine h.of_pull fun p' hp' => ?_
      obtain rfl := Option.some.inj hp'
      have file : (s.cache.blobs l.digest).isSome := by
        obtain ⟨b, hb, -⟩ := Option.map_eq_some_iff.mp hfull
        rw [hb]
        rfl
      exact run.open hturn (.refl _) (fun _ _ _ => id) file hserved known
        (fun h => absurd h.symm Bool.false_ne_true) fun _ => safe p l hpull hturn hfull
    · have file : ((s.cache.create l.digest).blobs l.digest).isSome := by
        rw [DiskCache.create, DiskCache.setBlob_self]
        rfl
      have fresh : ∀ t, Settled content s.pulled t → sum256 t ≠ l.digest := by
        intro t ht hd
        obtain ⟨htext, hblob⟩ := h.settled t ht
        rw [hd, honest.genuine.eq inj htext hd] at hblob
        exact hfull (by rw [hblob, Option.map_some, honest.size])
      refine ⟨h.sound.create l.digest, fun t ht => ⟨(h.settled t ht).1, ?_⟩, h.honest, ?_⟩
      · have hblob := (h.settled t ht).2
        dsimp only
        rw [create_of_some (by rw [hblob]; rfl), hblob]
      · intro p' hp'
        obtain rfl := Option.some.inj hp'
        exact run.open hturn (grows_create _ _) (fun _ _ _ => Holds.create) file hserved known
          (fun _ => fresh) fun h => absurd h Bool.false_ne_true
  · exact h

theorem Invariant.chunk (h : Invariant sum256 unmarshal content texts s) (hpull : s.pull = some p) :
    Invariant sum256 unmarshal content texts (s.chunk sum256 p) := by
  have run := h.running p hpull
  have le := run.le
  rw [State.chunk]
  split
  · rename_i l validated hturn
    refine h.of_pull fun p' hp' => ?_
    obtain rfl := Option.some.inj hp'
    have owed : p.owed = (p.todo.map Layer.size).sum + (p.downloads.map Download.owed).sum := by
      simp [Pull.owed, hturn, Turn.owed]
    refine { run with turn := trivial, files := ?_, le := ?_, accounted := ?_ }
    · intro l' hl'
      simpa [hturn] using run.files l' hl'
    · simp only [Pull.owed, Turn.owed]
      omega
    · intro hfailed heq l' hl' i hi
      simp only [Pull.owed, Turn.owed] at heq
      rcases run.accounted hfailed (by omega) l' hl' i hi with (hmem | hahead) | hthere
      · exact .inl (.inl hmem)
      · rcases hahead with hmissing | ⟨v, todo, hchunks, hcs⟩
        · simp [hturn] at hmissing
        · rw [hturn] at hchunks
          cases hchunks
          simp at hcs
      · exact .inr hthere
  · rename_i l validated cs todo hturn
    have turn := run.turn
    rw [hturn] at turn
    obtain ⟨hl, hlisted, hfresh, hkept⟩ := turn
    have rest : TurnSound sum256 content texts s.cache s.pulled p.m (.chunks l validated todo) :=
      ⟨hl, fun cs' hcs' => hlisted cs' (List.mem_cons_of_mem cs hcs'), hfresh, hkept⟩
    have owed : p.owed = (p.todo.map Layer.size).sum + (cs.chunk.size +
        (todo.map fun cs => cs.chunk.size).sum) + (p.downloads.map Download.owed).sum := by
      rw [Pull.owed, hturn, Turn.owed, List.map_cons, List.sum_cons]
    have files : ∀ l' ∈ p.m.all, l' ∈ p.todo ∨ Turn.chunks l validated todo = .missing l' ∨
        (s.cache.blobs l'.digest).isSome := by
      intro l' hl'
      simpa [hturn] using run.files l' hl'
    -- a byte that was still to come is in this chunk, or still to come
    have ahead : ∀ l' i, p.Ahead l' i → l' = l ∧ cs.chunk.Has i ∨ l' ∈ p.todo ∨
        ∃ v todo', Turn.chunks l validated todo = .chunks l' v todo' ∧ ∃ cs ∈ todo', cs.chunk.Has i := by
      rintro l' i (hmem | hmissing | ⟨v, todo', hchunks, cs', hcs', hi⟩)
      · exact .inr (.inl hmem)
      · simp [hturn] at hmissing
      · rw [hturn] at hchunks
        cases hchunks
        rcases List.mem_cons.mp hcs' with rfl | hcs'
        · exact .inl ⟨rfl, hi⟩
        · exact .inr (.inr ⟨_, _, rfl, cs', hcs', hi⟩)
    dsimp only
    split_ifs with hrecord
    · refine h.of_pull fun p' hp' => ?_
      obtain rfl := Option.some.inj hp'
      refine { run with turn := rest, files, le := ?_, accounted := ?_ }
      · simp only [Pull.owed, Turn.owed]
        omega
      · intro hfailed heq l' hl' i hi
        simp only [Pull.owed, Turn.owed] at heq
        rcases run.accounted hfailed (by omega) l' hl' i hi with hahead | hthere
        · rcases ahead l' i hahead with ⟨rfl, hi⟩ | hmem | hchunks
          · have key := (hlisted cs List.mem_cons_self).key
            exact .inr (.inl (.inr ⟨cs, key, hrecord, hi⟩))
          · exact .inl (.inl hmem)
          · exact .inl (.inr (.inr hchunks))
        · exact .inr hthere
    · refine h.of_pull fun p' hp' => ?_
      obtain rfl := Option.some.inj hp'
      have new : Writing sum256 content texts s.cache s.pulled { layer := l, cs, validated } :=
        { listed := hlisted cs List.mem_cons_self
          le := Nat.zero_le _
          summed := fun _ hne => absurd rfl hne
          written := fun k hk => absurd hk (Nat.not_lt_zero k)
          fresh := hfresh
          kept := hkept }
      have downloads : ∀ x ∈ p.downloads ++ [{ layer := l, cs, validated }],
          x.layer ∈ p.m.all ∧ Writing sum256 content texts s.cache s.pulled x := by
        intro x hx
        rcases List.mem_append.mp hx with hx | hx
        · exact run.downloads x hx
        · obtain rfl := List.mem_singleton.mp hx
          exact ⟨hl, new⟩
      have owes : ({ layer := l, cs, validated } : Download).owed =
          if validated then 0 else cs.chunk.size := rfl
      refine { run with turn := rest, files, downloads, le := ?_, accounted := ?_ }
      · simp only [Pull.owed, Turn.owed, List.map_append, List.sum_append, List.map_singleton,
          List.sum_singleton, owes]
        split_ifs <;> omega
      · intro hfailed heq l' hl' i hi
        simp only [Pull.owed, Turn.owed, List.map_append, List.sum_append, List.map_singleton,
          List.sum_singleton, owes] at heq
        -- of the chunk of a blob that was taken to be whole nothing is counted
        have counted : validated = true → cs.chunk.size = 0 := by
          rintro rfl
          rw [if_pos rfl] at heq
          omega
        have heq' : p.completed + p.owed = p.m.expected := by
          split_ifs at heq with hv
          · have := counted hv
            omega
          · omega
        rcases run.accounted hfailed heq' l' hl' i hi with hahead | hkept' | ⟨x, hx, hcovers⟩
        · rcases ahead l' i hahead with ⟨rfl, hin⟩ | hmem | hchunks
          · refine .inr (.inr ⟨_, List.mem_append_right _ List.mem_cons_self, ?_, rfl, hin⟩)
            by_contra hv
            have hzero := counted (by simpa using hv)
            obtain ⟨hlo, hhi⟩ := hin
            omega
          · exact .inl (.inl hmem)
          · exact .inl (.inr (.inr hchunks))
        · exact .inr (.inl hkept')
        · exact .inr (.inr ⟨x, List.mem_append_left _ hx, hcovers⟩)
  · exact h

/-! ### Downloads -/

theorem owed_eraseIdx {l : List Download} (hx : l[i]? = some x) :
    (l.map Download.owed).sum = x.owed + ((l.eraseIdx i).map Download.owed).sum := by
  obtain ⟨before, after, rfl, herase, -, -⟩ := exists_party_erase hx
  rw [herase]
  simp only [List.map_append, List.map_cons, List.sum_append, List.sum_cons]
  omega

/-- A download fails, with some bytes of its chunk counted. -/
theorem Running.failed (run : Running sum256 unmarshal content texts c pulled p)
    (hx : p.downloads[i]? = some x) {n : Nat} (hn : n ≤ x.owed) :
    Running sum256 unmarshal content texts c pulled
      { p with completed := p.completed + n, downloads := p.downloads.eraseIdx i, failed := true } := by
  have le := run.le
  have owed := owed_eraseIdx hx
  refine { run with downloads := ?_, le := ?_, accounted := nofun }
  · exact fun y hy => run.downloads y (List.mem_of_mem_eraseIdx hy)
  · simp only [Pull.owed] at le ⊢
    omega

theorem Invariant.fail (h : Invariant sum256 unmarshal content texts s) (hpull : s.pull = some p)
    (i : Nat) : Invariant sum256 unmarshal content texts (s.fail p i) := by
  rw [State.fail]
  split
  · exact h
  · rename_i x hx
    split_ifs
    · refine h.of_pull fun p' hp' => ?_
      obtain rfl := Option.some.inj hp'
      exact (h.running p hpull).failed hx (Nat.zero_le _)
    · exact h

theorem Invariant.record (inj : Set.InjOn sum256 texts)
    (h : Invariant sum256 unmarshal content texts s) (hpull : s.pull = some p) (i : Nat) :
    Invariant sum256 unmarshal content texts (s.record sum256 p i) := by
  have run := h.running p hpull
  rw [State.record]
  split
  · exact h
  · rename_i x hx
    split_ifs with hdone
    · obtain ⟨hl, writing⟩ := run.downloads x (List.mem_of_getElem? hx)
      have honest := run.honest _ hl
      have hkey := writing.listed.key
      have hne : cacheKey x.layer.digest x.cs ≠ [] := fun hnil => by
        have := head_cacheKey x.layer.digest x.cs
        rw [hnil] at this
        cases this
      have grows := grows_put sum256 s.cache hne
      have recorded : ((s.cache.put sum256 (sum256 (cacheKey x.layer.digest x.cs))
          ⟨cacheKey x.layer.digest x.cs, true⟩ (cacheKey x.layer.digest x.cs).length).1.get
            (sum256 (cacheKey x.layer.digest x.cs))).isSome := by
        rw [isSome_get_iff]
        rcases put_blobs_self sum256 s.cache (cacheKey x.layer.digest x.cs) with
          heq | ⟨⟨b, hb, hlen⟩, heq⟩
        · exact ⟨_, heq, hne⟩
        · exact ⟨b, heq.trans hb, fun hnil => hne (List.length_eq_zero_iff.mp (by rw [← hlen, hnil]; rfl))⟩
      have run' := run.mono grows fun _ _ genuine => Holds.put inj hkey genuine
      have owed := owed_eraseIdx hx
      have none : x.owed = 0 := by
        rw [Download.owed]
        rcases hdone with hvalid | hlen
        · rw [if_pos hvalid]
        · rw [hlen, Nat.sub_self, ite_self]
      have le := run'.le
      have hok : (s.cache.put sum256 (sum256 (cacheKey x.layer.digest x.cs))
          ⟨cacheKey x.layer.digest x.cs, true⟩ (cacheKey x.layer.digest x.cs).length).2 = true := by
        rw [DiskCache.put_text]
      refine ⟨h.sound.put inj hkey ?_, fun t ht => ⟨(h.settled t ht).1, ?_⟩, h.honest, ?_⟩
      · intro d cs i heq hi
        obtain ⟨rfl, rfl⟩ := cacheKey_injective heq
        exact ⟨honest.genuine, writing.holds inj h.sound h.settled honest hdone hi⟩
      · exact put_settled inj (h.settled t ht).1 hkey (h.settled t ht).2
      · intro p' hp'
        obtain rfl := Option.some.inj hp'
        refine { run' with downloads := ?_, le := ?_, accounted := ?_ }
        · exact fun y hy => run'.downloads y (List.mem_of_mem_eraseIdx hy)
        · simp only [Pull.owed] at le ⊢
          omega
        · intro hfailed heq l hl' j hj
          rw [hok, Bool.not_true, Bool.or_false] at hfailed
          simp only [Pull.owed] at heq
          have heq' : p.completed + p.owed = p.m.expected := by
            rw [Pull.owed]
            omega
          rcases run'.accounted hfailed heq' l hl' j hj with hahead | hkept | ⟨y, hy, hcovers⟩
          · exact .inl hahead
          · exact .inr (.inl hkept)
          · obtain ⟨before, after, hsplit, herase, -, -⟩ := exists_party_erase hx
            rw [hsplit, List.mem_append, List.mem_cons] at hy
            rcases hy with hy | rfl | hy
            · exact .inr (.inr ⟨y, by rw [herase]; exact List.mem_append_left _ hy, hcovers⟩)
            · obtain ⟨-, hd, hin⟩ := hcovers
              refine .inr (.inl (.inr ?_))
              rw [← hd]
              exact ⟨y.cs, hkey, recorded, hin⟩
            · exact .inr (.inr ⟨y, by rw [herase]; exact List.mem_append_right _ hy, hcovers⟩)
    · exact h

theorem Download.write_some {bytes : Bytes} {y : Download} (h : x.write sum256 bytes = some y) :
    y = { x with h := x.h ++ bytes } ∧ (x.h ++ bytes).length ≤ x.cs.chunk.size ∧
      ((x.h ++ bytes).length = x.cs.chunk.size → sum256 (x.h ++ bytes) = x.cs.digest) := by
  rw [Download.write] at h
  split_ifs at h with hsum hlong
  refine ⟨(Option.some.inj h).symm, Nat.le_of_not_lt hlong, fun hlen => ?_⟩
  by_contra hne
  exact hsum ⟨hlen, hne⟩

/-- A download goes on writing its chunk. -/
theorem Writing.write (h : Writing sum256 content texts c pulled x) (hvalid : x.validated = false)
    {bytes : Bytes} (le : (x.h ++ bytes).length ≤ x.cs.chunk.size)
    (sum : (x.h ++ bytes).length = x.cs.chunk.size →
      sum256 (x.h ++ bytes) = x.cs.digest ∧ x.h ++ bytes ∈ texts) :
    Writing sum256 content texts
      (c.writeAt x.layer.digest (x.cs.chunk.start + x.h.length) bytes) pulled
      { x with h := x.h ++ bytes } := by
  refine
    { listed := h.listed
      le
      summed := fun hlen _ => sum hlen
      written := ?_
      fresh := h.fresh
      kept := fun hv => by cases hvalid.symm.trans hv }
  intro k hk heq
  dsimp only at hk heq ⊢
  by_cases hold : k < x.h.length
  · rw [List.getElem?_append_left hold] at heq
    exact (h.written k hold heq).writeAt fun _ hlo _ => absurd hlo (by omega)
  · rw [List.getElem?_append_right (by omega)] at heq
    rw [List.length_append] at hk
    have hbyte : k - x.h.length < bytes.length := by omega
    rw [List.getElem?_eq_getElem hbyte] at heq
    refine ⟨_, heq.symm, ?_⟩
    rw [DiskCache.byte_writeAt_within (by omega) (by omega),
      show x.cs.chunk.start + k - (x.cs.chunk.start + x.h.length) = k - x.h.length by omega,
      List.getElem?_eq_getElem hbyte]

theorem Invariant.read (inj : Set.InjOn sum256 texts)
    (h : Invariant sum256 unmarshal content texts s) (hpull : s.pull = some p) {bytes : Bytes}
    (served : Served sum256 unmarshal content texts s (.read i bytes))
    (safe : Safe sum256 unmarshal content texts s (.read i bytes)) :
    Invariant sum256 unmarshal content texts (s.read sum256 p i bytes) := by
  have run := h.running p hpull
  rw [State.read]
  split
  · exact h
  · rename_i x hx
    obtain ⟨hl, writing⟩ := run.downloads x (List.mem_of_getElem? hx)
    have honest := run.honest _ hl
    split_ifs with hidle
    · exact h
    · simp only [not_or, Bool.not_eq_true] at hidle
      obtain ⟨hvalid, hne, hlen⟩ := hidle
      have owes : x.owed = x.cs.chunk.size - x.h.length := by
        rw [Download.owed, hvalid, if_neg Bool.false_ne_true]
      dsimp only
      split
      · refine h.of_pull fun p' hp' => ?_
        obtain rfl := Option.some.inj hp'
        exact run.failed hx (by omega)
      · rename_i y hy
        obtain ⟨rfl, hle, hsum⟩ := Download.write_some hy
        have within := writing.listed.within
        have grows := grows_writeAt s.cache x.layer.digest (x.cs.chunk.start + x.h.length) hne
        have right := safe p x hpull hx
        have new := writing.write hvalid hle fun heq => ⟨hsum heq, served p x hpull hx heq⟩
        obtain ⟨before, after, hsplit, -, hset, hothers⟩ := exists_party_erase hx
        rw [List.length_append] at hle
        refine ⟨?_, fun t ht => ⟨(h.settled t ht).1, ?_⟩, h.honest, ?_⟩
        · refine h.sound.writeAt inj honest.genuine (run.plain _ hl) (by rw [honest.size]; omega) ?_
          exact fun k hk hrecorded => right k hk (.inl hrecorded)
        · dsimp only
          rw [DiskCache.writeAt, DiskCache.setBlob_of_ne (writing.fresh hvalid t ht)]
          exact (h.settled t ht).2
        · intro p' hp'
          obtain rfl := Option.some.inj hp'
          have others : ∀ y ∈ before ++ after, y.layer ∈ p.m.all ∧ Writing sum256 content texts
              (s.cache.writeAt x.layer.digest (x.cs.chunk.start + x.h.length) bytes) s.pulled y := by
            intro y hy
            obtain ⟨j, hji, hj⟩ := hothers y hy
            obtain ⟨hl', writing'⟩ := run.downloads y (List.mem_of_getElem? hj)
            refine ⟨hl', writing'.mono grows fun k hk _ holds => holds.writeAt fun hd hlo hhi => ?_⟩
            have := right (y.cs.chunk.start + k - (x.cs.chunk.start + x.h.length)) (by omega)
              (.inr ⟨j, y, hji, hj, hd, by omega, by omega⟩)
            rw [this, hd]
            congr 1
            omega
          have owed := owed_eraseIdx hx
          have le := run.le
          have owes' : ({ x with h := x.h ++ bytes } : Download).owed + bytes.length = x.owed := by
            rw [owes, Download.owed, hvalid, if_neg Bool.false_ne_true, List.length_append]
            dsimp only
            omega
          have place : ((p.downloads.set i { x with h := x.h ++ bytes }).map Download.owed).sum +
              bytes.length = (p.downloads.map Download.owed).sum := by
            rw [hset, hsplit]
            simp only [List.map_append, List.map_cons, List.sum_append, List.sum_cons]
            omega
          refine
            { run with
              turn := run.turn.mono grows
              downloads := ?_
              files := fun l hl => (run.files l hl).imp_right (Or.imp_right (grows.blobs _))
              le := ?_
              accounted := ?_ }
          · dsimp only
            rw [hset]
            intro y hy
            rcases List.mem_append.mp hy with hy | hy
            · exact others y (List.mem_append_left _ hy)
            · rcases List.mem_cons.mp hy with rfl | hy
              · exact ⟨hl, new⟩
              · exact others y (List.mem_append_right _ hy)
          · simp only [Pull.owed] at le ⊢
            omega
          · intro hfailed heq l hl' j hj
            simp only [Pull.owed] at heq
            rcases run.accounted hfailed (by rw [Pull.owed]; omega) l hl' j hj with
              hahead | hkept | ⟨y, hy, hcovers⟩
            · exact .inl hahead
            · exact .inr (.inl (hkept.mono grows))
            · refine .inr (.inr ?_)
              dsimp only
              rw [hset]
              rw [hsplit, List.mem_append, List.mem_cons] at hy
              rcases hy with hy | rfl | hy
              · exact ⟨y, List.mem_append_left _ hy, hcovers⟩
              · exact ⟨_, List.mem_append_right _ List.mem_cons_self, hcovers⟩
              · exact ⟨y, List.mem_append_right _ (List.mem_cons_of_mem _ hy), hcovers⟩

/-! ### The end of a pull -/

theorem blob_of_holds (sound : Sound sum256 content texts c) (genuine : Genuine sum256 content texts d)
    (file : (c.blobs d).isSome) (holds : ∀ i < (content d).length, Holds content c d i) :
    c.blobs d = some (content d) := by
  obtain ⟨b, hb⟩ := Option.isSome_iff_exists.mp file
  rw [hb]
  refine congrArg some (List.ext_getElem? fun i => ?_)
  by_cases hi : i < (content d).length
  · obtain ⟨x, hx, hbyte⟩ := holds i hi
    rw [DiskCache.byte, hb, Option.bind_some] at hbyte
    rw [hbyte, hx]
  · have short := sound.short d b genuine hb
    rw [List.getElem?_eq_none (by omega), List.getElem?_eq_none (by omega)]

theorem link_blobs (c : DiskCache) (name : Text) (d : Digest) :
    (c.link sum256 name d).1.blobs = c.blobs := by
  rw [DiskCache.link]
  split
  · rfl
  · split
    · rfl
    · rename_i path _ _ blob _
      rcases copyNamedFile sum256 (c.manifest path) ⟨blob, true⟩ d blob.length with ⟨file, ok⟩
      cases file <;> rfl

theorem Sound.of_blobs (sound : Sound sum256 content texts c) (h : c'.blobs = c.blobs) :
    Sound sum256 content texts c' := by
  have same : ∀ d i, Recorded sum256 texts c' d i → Recorded sum256 texts c d i := by
    rintro d i ⟨cs, hkey, hget, hi⟩
    exact ⟨cs, hkey, by rwa [DiskCache.get, h] at hget, hi⟩
  constructor
  · intro d b genuine hb
    rw [h] at hb
    exact sound.short d b genuine hb
  · intro d i hrecorded
    obtain ⟨genuine, x, hx, hbyte⟩ := sound.recorded d i (same d i hrecorded)
    exact ⟨genuine, x, hx, by rw [DiskCache.byte, h]; exact hbyte⟩

/-- All layers are there when all bytes have been counted. -/
theorem Running.layers (inj : Set.InjOn sum256 texts) (sound : Sound sum256 content texts c)
    (settled : ∀ t, Settled content pulled t → t ∈ texts ∧ c.blobs (sum256 t) = some t)
    (run : Running sum256 unmarshal content texts c pulled p) (hturn : p.turn = .next)
    (htodo : p.todo = []) (hdownloads : p.downloads = []) (hfailed : p.failed = false)
    (hcount : p.completed % 2 ^ 64 = p.m.expected % 2 ^ 64) :
    ∀ l ∈ p.m.all, c.blobs l.digest = some (content l.digest) := by
  have owed : p.owed = 0 := by
    rw [Pull.owed, hturn, htodo, hdownloads]
    rfl
  have le := run.le
  rw [Nat.mod_eq_of_lt run.expected, Nat.mod_eq_of_lt (by have := run.expected; omega)] at hcount
  intro l hl
  have honest := run.honest l hl
  refine blob_of_holds sound honest.genuine ?_ fun i hi => ?_
  · simpa [hturn, htodo] using run.files l hl
  · rw [honest.size] at hi
    have := run.accounted hfailed (by omega) l hl i hi
    simp only [Accounted, Pull.Ahead, hturn, htodo, hdownloads, List.not_mem_nil, false_and,
      exists_false, or_false, false_or, reduceCtorEq] at this
    exact this.holds inj sound settled honest.genuine (by rw [honest.size]; exact hi)

/-- A manifest that is put is there, also where a blob was there before. -/
theorem manifest_put (inj : Set.InjOn sum256 texts) (sound : Sound sum256 content texts c)
    (settled : ∀ t, Settled content pulled t → t ∈ texts ∧ c.blobs (sum256 t) = some t) {t : Bytes}
    (ht : t ∈ texts) (hne : t ≠ [])
    (safe : (c.blobs (sum256 t)).map List.length = some t.length →
      ∀ i < t.length, Kept sum256 texts c pulled (sum256 t) i) :
    (c.put sum256 (sum256 t) ⟨t, true⟩ t.length).1.blobs (sum256 t) = some t := by
  rcases put_blobs_self sum256 c t with heq | ⟨⟨b, hb, hlen⟩, heq⟩
  · exact heq
  · rw [heq]
    have kept := safe (by rw [hb, Option.map_some, hlen])
    by_cases hput : ∃ m ∈ pulled, sum256 m.data = sum256 t
    · obtain ⟨m, hm, hsum⟩ := hput
      obtain ⟨htext, hblob⟩ := settled m.data ⟨m, hm, .inl rfl⟩
      rw [inj htext ht hsum] at hblob
      exact hblob
    · have recorded : ∀ i < t.length, Genuine sum256 content texts (sum256 t) ∧
          Holds content c (sum256 t) i :=
        fun i hi => sound.recorded _ i ((kept i hi).resolve_left hput)
      have genuine := (recorded 0 (List.length_pos_iff.mpr hne)).1
      have hcontent := genuine.eq inj ht rfl
      have hlen' := congrArg List.length hcontent
      have hblob := blob_of_holds sound genuine (by rw [hb]; rfl) fun i hi =>
        (recorded i (by omega)).2
      rw [hblob, ← hcontent]

/-- No record is a manifest, which is JSON. -/
theorem Running.data_ne (run : Running sum256 unmarshal content texts c pulled p)
    (json : ∀ data, data = [] ∨ data.head? = some 0x76 → unmarshal data = none) :
    p.m.data ≠ [] ∧ ∀ d cs, p.m.data ≠ cacheKey d cs := by
  have some := run.json
  refine ⟨fun hnil => ?_, fun d cs hkey => ?_⟩
  · rw [json _ (.inl hnil)] at some
    cases some
  · rw [json _ (.inr (by rw [hkey, head_cacheKey]))] at some
    cases some

theorem Invariant.finish (inj : Set.InjOn sum256 texts)
    (json : ∀ data, data = [] ∨ data.head? = some 0x76 → unmarshal data = none)
    (h : Invariant sum256 unmarshal content texts s) (hpull : s.pull = some p)
    (safe : Safe sum256 unmarshal content texts s .finish) :
    Invariant sum256 unmarshal content texts (s.finish sum256 p) := by
  have run := h.running p hpull
  obtain ⟨hne, plain⟩ := run.data_ne json
  rw [State.finish]
  split
  · rename_i hturn htodo hdownloads
    split_ifs with hfailed hcount
    · exact h.of_pull nofun
    · exact h.of_pull nofun
    · have layers := run.layers inj h.sound h.settled hturn htodo hdownloads
        (by simpa using hfailed) (by simpa using hcount)
      have blob := manifest_put inj h.sound h.settled run.data hne
        (safe p hpull hturn htodo hdownloads)
      have sound := h.sound.put inj run.data fun d cs i heq => absurd heq (plain d cs)
      have keeps : ∀ t ∈ texts, s.cache.blobs (sum256 t) = some t →
          (s.cache.put sum256 (sum256 p.m.data) ⟨p.m.data, true⟩ p.m.data.length).1.blobs
            (sum256 t) = some t := fun t ht => put_settled inj ht run.data
      dsimp only
      rcases hput : s.cache.put sum256 (sum256 p.m.data) ⟨p.m.data, true⟩ p.m.data.length with
        ⟨cache, ok⟩
      rw [hput] at blob sound keeps
      obtain rfl : ok = true := by
        rw [DiskCache.put_text] at hput
        exact (Prod.mk.inj hput).2.symm
      dsimp only
      rcases hlink : cache.link sum256 p.m.name (sum256 p.m.data) with ⟨cache', ok⟩
      have same : cache'.blobs = cache.blobs := by
        rw [← link_blobs cache p.m.name (sum256 p.m.data), hlink]
      have before : ∀ t, Settled content s.pulled t → t ∈ texts ∧ cache'.blobs (sum256 t) = some t := by
        intro t ht
        obtain ⟨htext, hblob⟩ := h.settled t ht
        exact ⟨htext, by rw [same]; exact keeps t htext hblob⟩
      cases ok with
      | false => exact ⟨sound.of_blobs same, before, h.honest, nofun⟩
      | true =>
        refine ⟨sound.of_blobs same, ?_, ?_, nofun⟩
        · rintro t ⟨m, hm, ht⟩
          rcases List.mem_cons.mp hm with rfl | hm
          · rcases ht with rfl | ⟨l, hl, rfl⟩
            · exact ⟨run.data, by rw [same]; exact blob⟩
            · obtain ⟨htext, hsum⟩ := (run.honest l hl).genuine
              refine ⟨htext, ?_⟩
              rw [same]
              exact keeps _ htext (by rw [hsum]; exact layers l hl)
          · exact before t ⟨m, hm, ht⟩
        · intro m hm l hl
          rcases List.mem_cons.mp hm with rfl | hm
          · exact run.honest l hl
          · exact h.honest m hm l hl
  · exact h

/-! ### Runs -/

/-- The cache holds the layers of every manifest for which a pull returned `nil`. -/
def State.Whole (sum256 : Bytes → Digest) (s : State) : Prop :=
  ∀ m ∈ s.pulled, ∀ l ∈ m.all,
    ∃ b, s.cache.blobs l.digest = some b ∧ b.length = l.size ∧ sum256 b = l.digest

theorem Invariant.whole (h : Invariant sum256 unmarshal content texts s) : s.Whole sum256 := by
  intro m hm l hl
  have honest := h.honest m hm l hl
  obtain ⟨-, hblob⟩ := h.settled _ ⟨m, hm, .inr ⟨l, hl, rfl⟩⟩
  rw [honest.genuine.2] at hblob
  exact ⟨_, hblob, honest.size, honest.genuine.2⟩

theorem sound_empty : Sound sum256 content texts {} := by
  constructor
  · intro d b _ hb
    cases hb
  · rintro d i ⟨cs, -, hget, -⟩
    cases hget

theorem invariant_init : Invariant sum256 unmarshal content texts {} where
  sound := sound_empty
  settled := fun _ ⟨_, hm, _⟩ => absurd hm List.not_mem_nil
  honest := fun _ hm => absurd hm List.not_mem_nil
  running := nofun

theorem Invariant.step (inj : Set.InjOn sum256 texts)
    (json : ∀ data, data = [] ∨ data.head? = some 0x76 → unmarshal data = none)
    (h : Invariant sum256 unmarshal content texts s) (e : Event)
    (served : Served sum256 unmarshal content texts s e)
    (safe : Safe sum256 unmarshal content texts s e) :
    Invariant sum256 unmarshal content texts (s.step sum256 unmarshal e) := by
  unfold State.step
  cases hpull : s.pull with
  | none =>
    cases e with
    | pull name data threshold => exact h.start served safe
    | _ => exact h
  | some p =>
    cases e with
    | pull => exact h
    | layer => exact h.layer hpull safe
    | «open» words => exact h.open inj hpull served safe
    | chunk => exact h.chunk hpull
    | read i bytes => exact h.read inj hpull served safe
    | fail i => exact h.fail hpull i
    | record i => exact h.record inj hpull i
    | finish => exact h.finish inj json hpull safe

end

/-! ### A layer of two chunks -/

/-- A sum that tells short texts and the records of the two chunks apart. -/
def tailSum (data : Bytes) : Digest := ⟨(data.reverse ++ List.replicate 32 0).take 32, by simp⟩

def twoBytes : Layer := ⟨tailSum (ascii "ab"), 2⟩

def firstChunk : Chunksum := ⟨⟨0, 0⟩, tailSum (ascii "a")⟩

def lastChunk : Chunksum := ⟨⟨1, 1⟩, tailSum (ascii "b")⟩

def readTwoBytes (data : Bytes) : Option (List Layer × Option Layer) :=
  if data = ascii "{}" then some ([twoBytes], none) else none

def twoBytesOf (_ : Digest) : Bytes := ascii "ab"

def twoBytesTexts : List Bytes := [ascii "{}", ascii "ab", ascii "a", ascii "b",
  cacheKey twoBytes.digest firstChunk, cacheKey twoBytes.digest lastChunk]

def twoBytesWords : List Text := [firstChunk.digest.text, ascii "0-0", lastChunk.digest.text, ascii "1-1"]

/-- A pull up to where both chunks are downloaded. -/
def begun : List Event :=
  [.pull (ascii "h/n/m:t") (ascii "{}") 0, .layer, .open twoBytesWords, .chunk, .chunk, .chunk]

/-- The last chunk is downloaded and the first one is not; the pull that is tried again finds a blob of
the right size. -/
def lastChunkOnly : List Event := begun ++ [.read 1 (ascii "b"), .fail 0, .record 0, .finish,
  .pull (ascii "h/n/m:t") (ascii "{}") 0, .layer, .finish]

def bothChunks : List Event := begun ++
  [.read 0 (ascii "a"), .record 0, .read 0 (ascii "b"), .record 0, .finish]

theorem tailSum_injOn : Set.InjOn tailSum {t | t ∈ twoBytesTexts} := by
  have : ∀ t ∈ twoBytesTexts, ∀ u ∈ twoBytesTexts, tailSum t = tailSum u → t = u := by decide +kernel
  exact fun t ht u hu => this t ht u hu

theorem readTwoBytes_json (data : Bytes) (h : data = [] ∨ data.head? = some 0x76) :
    readTwoBytes data = none := by
  rw [readTwoBytes, if_neg]
  rintro rfl
  revert h
  decide

theorem served_twoBytes (s : State) : Served tailSum readTwoBytes twoBytesOf {t | t ∈ twoBytesTexts} s
    (.pull (ascii "h/n/m:t") (ascii "{}") 0) := by
  refine ⟨List.mem_cons_self, fun layers config h l hl => ?_⟩
  cases (show some ([twoBytes], none) = some (layers, config) from h)
  obtain rfl := List.mem_singleton.mp hl
  exact ⟨⟨List.mem_cons_of_mem _ List.mem_cons_self, rfl⟩, rfl⟩

/-- What the pull is when it opens the blob. -/
def opening : Pull where
  m := ⟨ascii "h/n/m:t", ascii "{}", [twoBytes], none⟩
  threshold := 0
  todo := []
  turn := .missing twoBytes

theorem served_opening {s : State} (hpull : s.pull = some opening) :
    Served tailSum readTwoBytes twoBytesOf {t | t ∈ twoBytesTexts} s (.open twoBytesWords) := by
  intro p l hp hl
  obtain rfl := Option.some.inj (hpull.symm.trans hp)
  obtain rfl := Turn.missing.inj hl
  have read : readChunksums twoBytesWords = [firstChunk, lastChunk] := by decide +kernel
  have parts : Partitions tailSum (ascii "ab") [firstChunk, lastChunk] :=
    ⟨⟨_, List.Perm.refl _, rfl, rfl, rfl⟩, by decide⟩
  have known : ∀ cs ∈ [firstChunk, lastChunk], cs.chunk.slice (ascii "ab") ∈ twoBytesTexts ∧
      cacheKey twoBytes.digest cs ∈ twoBytesTexts := by decide +kernel
  refine ⟨fun _ => ⟨[], by rw [read]; exact parts⟩, fun cs hcs => known cs ?_⟩
  rwa [chunksums, if_neg (by decide), read] at hcs

theorem served_reading {s : State} {i : Nat} {x : Download} {bytes : Bytes}
    (hx : (s.pull.bind fun p => p.downloads[i]?) = some x) (h : x.h ++ bytes ∈ twoBytesTexts) :
    Served tailSum readTwoBytes twoBytesOf {t | t ∈ twoBytesTexts} s (.read i bytes) := by
  intro p y hp hy _
  rw [hp, Option.bind_some, hy] at hx
  obtain rfl := Option.some.inj hx
  exact h

theorem served_lastChunkOnly : Along (State.step tailSum readTwoBytes)
    (Served tailSum readTwoBytes twoBytesOf {t | t ∈ twoBytesTexts}) {} lastChunkOnly :=
  ⟨served_twoBytes _, trivial, served_opening rfl, trivial, trivial, trivial,
    served_reading (x := ⟨twoBytes, lastChunk, false, []⟩) rfl (by simp [twoBytesTexts]), trivial,
    trivial, trivial, served_twoBytes _, trivial, trivial, trivial⟩

theorem served_bothChunks : Along (State.step tailSum readTwoBytes)
    (Served tailSum readTwoBytes twoBytesOf {t | t ∈ twoBytesTexts}) {} bothChunks := by
  refine ⟨served_twoBytes _, trivial, served_opening rfl, trivial, trivial, trivial, ?_, trivial, ?_, trivial,
    trivial, trivial⟩
  · exact served_reading (x := ⟨twoBytes, firstChunk, false, []⟩) rfl (by simp [twoBytesTexts])
  · exact served_reading (x := ⟨twoBytes, lastChunk, false, []⟩) (by decide +kernel)
      (by simp [twoBytesTexts])

theorem safe_twoBytes (s : State) : Safe tailSum readTwoBytes twoBytesOf {t | t ∈ twoBytesTexts} s
    (.pull (ascii "h/n/m:t") (ascii "{}") 0) := by
  intro layers config h
  cases (show some ([twoBytes], none) = some (layers, config) from h)
  refine ⟨by decide, fun l _ d cs heq => ?_⟩
  have head : (ascii "ab").head? = some 0x76 := (congrArg List.head? heq).trans (head_cacheKey d cs)
  revert head
  decide

theorem safe_reading {s : State} {i : Nat} {x : Download} {bytes : Bytes}
    (hx : (s.pull.bind fun p => p.downloads[i]?) = some x)
    (h : ∀ k < bytes.length, bytes[k]? = (ascii "ab")[x.cs.chunk.start + x.h.length + k]?) :
    Safe tailSum readTwoBytes twoBytesOf {t | t ∈ twoBytesTexts} s (.read i bytes) := by
  intro p y hp hy k hk _
  rw [hp, Option.bind_some, hy] at hx
  obtain rfl := Option.some.inj hx
  exact h k hk

theorem safe_finishing {s : State}
    (h : (s.pull.bind fun p => s.cache.blobs (tailSum p.m.data)) = none) :
    Safe tailSum readTwoBytes twoBytesOf {t | t ∈ twoBytesTexts} s .finish := by
  intro p hp _ _ _ hfull
  rw [hp, Option.bind_some] at h
  rw [h] at hfull
  cases hfull

end Ecco9.Client
