import Ecco9.Client.Pull
import Mathlib.Data.Set.Function

/-! What the cache holds of a layer, through pulls that fail and pulls that are tried again: its blob, the
records of its chunks, and the size by which the blob is taken to be whole. -/

namespace Ecco9.Client

open Ecco9.Library Ecco9.Blob

section

-- SHA-256, what a manifest says, the bytes of the layers, and the texts that are hashed
variable (sum256 : Bytes → Digest) (unmarshal : Bytes → Option (List Layer × Option Layer))
  (content : Digest → Bytes) (texts : Set Bytes)

/-! ### What the registry serves -/

/-- `content` has the digest. -/
def Genuine (d : Digest) : Prop := content d ∈ texts ∧ sum256 (content d) = d

structure Layer.Honest (l : Layer) : Prop where
  genuine : Genuine sum256 content texts l.digest
  size : (content l.digest).length = l.size

/-- A chunk that is listed of a layer. -/
structure Listed (l : Layer) (cs : Chunksum) : Prop where
  within : cs.chunk.start + cs.chunk.size ≤ l.size
  digest : sum256 (cs.chunk.slice (content l.digest)) = cs.digest
  slice : cs.chunk.slice (content l.digest) ∈ texts
  key : cacheKey l.digest cs ∈ texts

/-- The registry names the digest and the size of each layer, and lists chunks that make it up, or the
first of them; what is hashed on the way is among `texts`. -/
def Served (s : State) : Event → Prop
  | .pull name data _ => data ∈ texts ∧ ∀ layers config, unmarshal data = some (layers, config) →
      ∀ l ∈ Manifest.all { name, data, layers, config }, l.Honest sum256 content texts
  | .open words => ∀ p l, s.pull = some p → p.turn = .missing l →
      (p.threshold ≤ l.size →
        ∃ rest, Partitions sum256 (content l.digest) (readChunksums words ++ rest)) ∧
      ∀ cs ∈ chunksums p.threshold l words,
        cs.chunk.slice (content l.digest) ∈ texts ∧ cacheKey l.digest cs ∈ texts
  | .read i bytes => ∀ p x, s.pull = some p → p.downloads[i]? = some x →
      (x.h ++ bytes).length = x.cs.chunk.size → x.h ++ bytes ∈ texts
  | _ => True

/-! ### What is where it belongs -/

/-- The blob has this byte of the layer. -/
def Holds (c : DiskCache) (d : Digest) (i : Nat) : Prop :=
  ∃ x, (content d)[i]? = some x ∧ c.byte d i = some x

/-- The byte is in a chunk that is recorded. -/
def Recorded (c : DiskCache) (d : Digest) (i : Nat) : Prop :=
  ∃ cs, cacheKey d cs ∈ texts ∧ (c.get (sum256 (cacheKey d cs))).isSome ∧ cs.chunk.Has i

/-- The byte was recorded, or put with a manifest. -/
def Kept (c : DiskCache) (pulled : List Manifest) (d : Digest) (i : Nat) : Prop :=
  (∃ m ∈ pulled, sum256 m.data = d) ∨ Recorded sum256 texts c d i

/-- The byte is in the chunk that is downloaded. -/
def Download.Covers (x : Download) (d : Digest) (i : Nat) : Prop :=
  x.validated = false ∧ x.layer.digest = d ∧ x.cs.chunk.Has i

/-- The download has written the byte. -/
def Download.Wrote (x : Download) (d : Digest) (i : Nat) : Prop :=
  x.layer.digest = d ∧ x.cs.chunk.start ≤ i ∧ i < x.cs.chunk.start + x.h.length

/-- No layer is the text of a record; a blob is taken to be there by its size only when all its bytes
were recorded, or are being downloaded; and no wrong byte is written over one that is recorded or that
another download has written. -/
def Safe (s : State) : Event → Prop
  | .pull name data _ => ∀ layers config, unmarshal data = some (layers, config) →
      let m : Manifest := { name, data, layers, config }
      m.expected < 2 ^ 64 ∧ ∀ l ∈ m.all, ∀ d cs, content l.digest ≠ cacheKey d cs
  | .layer => ∀ p l todo, s.pull = some p → p.turn = .next → p.todo = l :: todo →
      s.cache.get l.digest = some l.size → ∀ i < l.size,
        Kept sum256 texts s.cache s.pulled l.digest i ∨ ∃ x ∈ p.downloads, x.Covers l.digest i
  | .open _ => ∀ p l, s.pull = some p → p.turn = .missing l →
      (s.cache.blobs l.digest).map List.length = some l.size → ∀ i < l.size,
        Kept sum256 texts s.cache s.pulled l.digest i
  | .read i bytes => ∀ p x, s.pull = some p → p.downloads[i]? = some x →
      ∀ k < bytes.length, (Recorded sum256 texts s.cache x.layer.digest (x.cs.chunk.start + x.h.length + k) ∨
          ∃ j y, j ≠ i ∧ p.downloads[j]? = some y ∧
            y.Wrote x.layer.digest (x.cs.chunk.start + x.h.length + k)) →
        bytes[k]? = (content x.layer.digest)[x.cs.chunk.start + x.h.length + k]?
  | .finish => ∀ p, s.pull = some p → p.turn = .next → p.todo = [] → p.downloads = [] →
      (s.cache.blobs (sum256 p.m.data)).map List.length = some p.m.data.length →
        ∀ i < p.m.data.length, Kept sum256 texts s.cache s.pulled (sum256 p.m.data) i
  | _ => True

/-! ### The cache -/

/-- No blob is longer than it should be, and what is recorded is there. -/
structure Sound (c : DiskCache) : Prop where
  short : ∀ d b, Genuine sum256 content texts d → c.blobs d = some b → b.length ≤ (content d).length
  recorded : ∀ d i, Recorded sum256 texts c d i →
    Genuine sum256 content texts d ∧ Holds content c d i

/-- What is in the cache stays there. -/
structure Grows (c c' : DiskCache) : Prop where
  blobs : ∀ d, (c.blobs d).isSome → (c'.blobs d).isSome
  get : ∀ d, (c.get d).isSome → (c'.get d).isSome

end

section

variable {sum256 : Bytes → Digest} {unmarshal : Bytes → Option (List Layer × Option Layer)}
  {content : Digest → Bytes} {texts : Set Bytes} {c c' : DiskCache} {pulled : List Manifest}
  {d d' : Digest} {t p : Bytes} {i offset : Nat}

theorem Genuine.eq (inj : Set.InjOn sum256 texts) (h : Genuine sum256 content texts d) (ht : t ∈ texts)
    (heq : sum256 t = d) : t = content d :=
  inj ht h.1 (heq.trans h.2.symm)

theorem Grows.refl (c : DiskCache) : Grows c c := ⟨fun _ => id, fun _ => id⟩

theorem Recorded.mono (grows : Grows c c') (h : Recorded sum256 texts c d i) :
    Recorded sum256 texts c' d i := by
  obtain ⟨cs, hkey, hget, hi⟩ := h
  exact ⟨cs, hkey, grows.get _ hget, hi⟩

theorem Kept.mono (grows : Grows c c') (h : Kept sum256 texts c pulled d i) :
    Kept sum256 texts c' pulled d i := h.imp_right (Recorded.mono grows)

theorem isSome_get_iff : (c.get d).isSome ↔ ∃ b, c.blobs d = some b ∧ b ≠ [] := by
  rw [DiskCache.get]
  split
  · rename_i b bytes h
    exact iff_of_true rfl ⟨_, h, List.cons_ne_nil b bytes⟩
  · rename_i hnone
    refine iff_of_false (by simp) ?_
    rintro ⟨b, hb, hne⟩
    obtain ⟨x, bytes, rfl⟩ := List.exists_cons_of_ne_nil hne
    exact hnone x bytes hb

/-! Putting a text under its own digest -/

theorem put_blobs_ne (h : d ≠ sum256 t) :
    (c.put sum256 (sum256 t) ⟨t, true⟩ t.length).1.blobs d = c.blobs d := by
  rw [DiskCache.put_text, DiskCache.setBlob_of_ne h]

theorem put_blobs_self (sum256 : Bytes → Digest) (c : DiskCache) (t : Bytes) :
    (c.put sum256 (sum256 t) ⟨t, true⟩ t.length).1.blobs (sum256 t) = some t ∨
      (∃ b, c.blobs (sum256 t) = some b ∧ b.length = t.length) ∧
        (c.put sum256 (sum256 t) ⟨t, true⟩ t.length).1.blobs (sum256 t) = c.blobs (sum256 t) := by
  rw [DiskCache.put_text, DiskCache.setBlob_self]
  split_ifs with hsame
  · exact .inr ⟨hsame, rfl⟩
  · exact .inl rfl

theorem grows_put (sum256 : Bytes → Digest) (c : DiskCache) (ht : t ≠ []) :
    Grows c (c.put sum256 (sum256 t) ⟨t, true⟩ t.length).1 := by
  constructor
  · intro d hd
    by_cases h : d = sum256 t
    · subst h
      rcases put_blobs_self sum256 c t with heq | ⟨-, heq⟩ <;> rw [heq]
      · rfl
      · exact hd
    · rwa [put_blobs_ne h]
  · intro d hd
    rw [isSome_get_iff] at hd ⊢
    by_cases h : d = sum256 t
    · subst h
      rcases put_blobs_self sum256 c t with heq | ⟨-, heq⟩ <;> rw [heq]
      · exact ⟨t, rfl, ht⟩
      · exact hd
    · rwa [put_blobs_ne h]

theorem Holds.put (inj : Set.InjOn sum256 texts) (ht : t ∈ texts)
    (genuine : Genuine sum256 content texts d) (h : Holds content c d i) :
    Holds content (c.put sum256 (sum256 t) ⟨t, true⟩ t.length).1 d i := by
  obtain ⟨x, hx, hbyte⟩ := h
  refine ⟨x, hx, ?_⟩
  rw [DiskCache.byte] at hbyte ⊢
  by_cases hd : d = sum256 t
  · have hcontent := genuine.eq inj ht hd.symm
    subst hd
    rcases put_blobs_self sum256 c t with heq | ⟨-, heq⟩ <;> rw [heq]
    · rw [Option.bind_some, hcontent, hx]
    · exact hbyte
  · rwa [put_blobs_ne hd]

theorem Sound.put (inj : Set.InjOn sum256 texts) (sound : Sound sum256 content texts c)
    (ht : t ∈ texts) (hkey : ∀ d cs i, t = cacheKey d cs → cs.chunk.Has i →
      Genuine sum256 content texts d ∧ Holds content c d i) :
    Sound sum256 content texts (c.put sum256 (sum256 t) ⟨t, true⟩ t.length).1 := by
  constructor
  · intro d b genuine hb
    by_cases hd : d = sum256 t
    · have hcontent := genuine.eq inj ht hd.symm
      subst hd
      rcases put_blobs_self sum256 c t with heq | ⟨-, heq⟩ <;> rw [heq] at hb
      · obtain rfl := Option.some.inj hb
        rw [← hcontent]
      · exact sound.short _ b genuine hb
    · rw [put_blobs_ne hd] at hb
      exact sound.short d b genuine hb
  · rintro d i ⟨cs, hcs, hget, hi⟩
    have holds : Genuine sum256 content texts d ∧ Holds content c d i := by
      by_cases hd : sum256 (cacheKey d cs) = sum256 t
      · exact hkey d cs i (inj hcs ht hd).symm hi
      · refine sound.recorded d i ⟨cs, hcs, ?_, hi⟩
        rw [isSome_get_iff] at hget ⊢
        rwa [put_blobs_ne hd] at hget
    exact ⟨holds.1, holds.2.put inj ht holds.1⟩

theorem put_settled (inj : Set.InjOn sum256 texts) {u : Bytes} (hu : u ∈ texts) (ht : t ∈ texts)
    (h : c.blobs (sum256 u) = some u) :
    (c.put sum256 (sum256 t) ⟨t, true⟩ t.length).1.blobs (sum256 u) = some u := by
  by_cases hd : sum256 u = sum256 t
  · obtain rfl := inj hu ht hd
    rcases put_blobs_self sum256 c u with heq | ⟨-, heq⟩ <;> rw [heq]
    exact h
  · rwa [put_blobs_ne hd]

/-! Opening a blob -/

theorem create_of_some (h : (c.blobs d).isSome) : (c.create d').blobs d = c.blobs d := by
  rw [DiskCache.create]
  by_cases hd : d = d'
  · subst hd
    obtain ⟨b, hb⟩ := Option.isSome_iff_exists.mp h
    rw [DiskCache.setBlob_self, hb, Option.getD_some]
  · rw [DiskCache.setBlob_of_ne hd]

theorem grows_create (c : DiskCache) (d : Digest) : Grows c (c.create d) := by
  constructor
  · intro d' h
    rwa [create_of_some h]
  · intro d' h
    rwa [DiskCache.get_create]

theorem Holds.create (h : Holds content c d i) : Holds content (c.create d') d i := by
  obtain ⟨x, hx, hbyte⟩ := h
  exact ⟨x, hx, by rwa [DiskCache.byte_create]⟩

theorem Sound.create (sound : Sound sum256 content texts c) (d : Digest) :
    Sound sum256 content texts (c.create d) := by
  constructor
  · intro d' b genuine hb
    cases hold : c.blobs d' with
    | some old =>
      rw [create_of_some (by rw [hold]; rfl)] at hb
      exact sound.short d' b genuine hb
    | none =>
      rw [DiskCache.create] at hb
      by_cases hd : d' = d
      · subst hd
        rw [DiskCache.setBlob_self, hold, Option.getD_none] at hb
        obtain rfl := Option.some.inj hb
        exact Nat.zero_le _
      · rw [DiskCache.setBlob_of_ne hd, hold] at hb
        cases hb
  · rintro d' i ⟨cs, hcs, hget, hi⟩
    rw [DiskCache.get_create] at hget
    obtain ⟨genuine, holds⟩ := sound.recorded d' i ⟨cs, hcs, hget, hi⟩
    exact ⟨genuine, holds.create⟩

/-! Writing into a blob -/

theorem grows_writeAt (c : DiskCache) (d : Digest) (offset : Nat) (hp : p ≠ []) :
    Grows c (c.writeAt d offset p) := by
  constructor
  · intro d' h
    rw [DiskCache.writeAt]
    by_cases hd : d' = d
    · rw [hd, DiskCache.setBlob_self]
      rfl
    · rwa [DiskCache.setBlob_of_ne hd]
  · intro d' h
    rw [isSome_get_iff] at h ⊢
    rw [DiskCache.writeAt]
    by_cases hd : d' = d
    · refine ⟨_, by rw [hd, DiskCache.setBlob_self], fun hnil => ?_⟩
      have hlen := congrArg List.length hnil
      rw [length_writeAt, List.length_nil] at hlen
      have := List.length_pos_iff.mpr hp
      omega
    · rwa [DiskCache.setBlob_of_ne hd]

theorem Holds.writeAt (h : Holds content c d i) (right : d = d' → offset ≤ i → i < offset + p.length →
    p[i - offset]? = (content d)[i]?) : Holds content (c.writeAt d' offset p) d i := by
  obtain ⟨x, hx, hbyte⟩ := h
  refine ⟨x, hx, ?_⟩
  by_cases hd : d = d'
  · subst hd
    by_cases hin : offset ≤ i ∧ i < offset + p.length
    · rw [DiskCache.byte_writeAt_within hin.1 hin.2, right rfl hin.1 hin.2, hx]
    · exact DiskCache.byte_writeAt_beside hbyte (by omega)
  · rwa [DiskCache.byte_writeAt_of_ne hd]

theorem Sound.writeAt (inj : Set.InjOn sum256 texts) (sound : Sound sum256 content texts c)
    (genuine : Genuine sum256 content texts d) (plain : ∀ d' cs, content d ≠ cacheKey d' cs)
    (within : offset + p.length ≤ (content d).length)
    (right : ∀ k < p.length, Recorded sum256 texts c d (offset + k) →
      p[k]? = (content d)[offset + k]?) :
    Sound sum256 content texts (c.writeAt d offset p) := by
  constructor
  · intro d' b genuine' hb
    rw [DiskCache.writeAt] at hb
    by_cases hd : d' = d
    · subst hd
      rw [DiskCache.setBlob_self] at hb
      obtain rfl := Option.some.inj hb
      rw [length_writeAt]
      refine max_le ?_ within
      cases hold : c.blobs d' with
      | none => exact Nat.zero_le _
      | some old => exact sound.short d' old genuine hold
    · rw [DiskCache.setBlob_of_ne hd] at hb
      exact sound.short d' b genuine' hb
  · rintro d' i ⟨cs, hcs, hget, hi⟩
    have hd : sum256 (cacheKey d' cs) ≠ d := fun heq => plain d' cs (genuine.eq inj hcs heq).symm
    rw [isSome_get_iff, DiskCache.writeAt, DiskCache.setBlob_of_ne hd, ← isSome_get_iff] at hget
    have before : Recorded sum256 texts c d' i := ⟨cs, hcs, hget, hi⟩
    obtain ⟨genuine', holds⟩ := sound.recorded d' i before
    refine ⟨genuine', holds.writeAt fun heq hlo hhi => ?_⟩
    subst heq
    have hsum : offset + (i - offset) = i := by omega
    have := right (i - offset) (by omega) (by rwa [hsum])
    rwa [hsum] at this

end

end Ecco9.Client
