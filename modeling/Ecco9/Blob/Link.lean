import Ecco9.Blob.Cache

/-! What a name resolves to after `Link`. -/

namespace Ecco9.Blob

open Ecco9.Library

variable {sum256 : Bytes → Digest}

/-! ### Files by their paths -/

/-- The first of the files whose path matches. -/
def firstMatch (q : Path) (files : List (Path × Bytes)) : Option Path :=
  (files.find? fun l => equalFold q.text l.1.text).map (·.1)

def fileAt (p : Path) (files : List (Path × Bytes)) : Option Bytes :=
  (files.find? fun l => l.1 = p).map (·.2)

theorem DiskCache.manifestPath_eq (c : DiskCache) (name : Text) : c.manifestPath name =
    (nameToPath name).map fun q => (firstMatch q c.manifests).getD q := by
  unfold manifestPath firstMatch
  cases nameToPath name with
  | none => rfl
  | some q =>
    rw [Option.map_some]
    cases h : c.manifests.find? fun l => equalFold q.text l.1.text with
    | none => simp [h]
    | some l => simp [h]

theorem of_find (pred : Path → Bool) {files : List (Path × Bytes)} {l : Path × Bytes}
    (h : files.find? (fun l => pred l.1) = some l) : pred l.1 = true := by
  have := List.find?_some h
  exact this

theorem equalFold_of_firstMatch {q p : Path} {files : List (Path × Bytes)}
    (h : firstMatch q files = some p) : equalFold q.text p.text = true := by
  obtain ⟨l, hl, rfl⟩ := Option.map_eq_some_iff.mp h
  exact of_find (fun p => equalFold q.text p.text) hl

theorem firstMatch_congr {q q' : Path} (h : equalFold q.text q'.text = true)
    (files : List (Path × Bytes)) : firstMatch q files = firstMatch q' files := by
  have : (fun l : Path × Bytes => equalFold q.text l.1.text) =
      fun l => equalFold q'.text l.1.text := by
    funext l
    rw [equalFold, equalFold, equalFold_iff.mp h]
  rw [firstMatch, firstMatch, this]

theorem firstMatch_none_of_mem {q p : Path} {file : Bytes} {files : List (Path × Bytes)}
    (h : firstMatch q files = none) (hmem : (p, file) ∈ files) :
    equalFold q.text p.text = false := by
  rw [firstMatch, Option.map_eq_none_iff, List.find?_eq_none] at h
  simpa using h (p, file) hmem

/-- A file that is replaced keeps its place. -/
theorem find_replace (pred : Path → Bool) (p : Path) (file : Bytes) (files : List (Path × Bytes)) :
    ((files.map fun l => if l.1 = p then (p, file) else l).find? fun l => pred l.1) =
      (files.find? fun l => pred l.1).map fun l => if l.1 = p then (p, file) else l := by
  have same (l : Path × Bytes) : (if l.1 = p then (p, file) else l).1 = l.1 := by
    split
    · rename_i h
      exact h.symm
    · rfl
  rw [List.find?_map]
  congr 2
  funext l
  exact congrArg pred (same l)

theorem find_insertFile (pred : Path → Bool) (p : Path) (file : Bytes)
    (files : List (Path × Bytes)) (h : pred p = true → ∀ l ∈ files, pred l.1 = false) :
    (insertFile p file files).find? (fun l => pred l.1) =
      if pred p then some (p, file) else files.find? fun l => pred l.1 := by
  induction files with
  | nil => cases hp : pred p <;> simp [insertFile, hp]
  | cons l files ih =>
    have ih := ih fun hp x hx => h hp x (by simp [hx])
    cases hp : pred p with
    | true =>
      have hl := h hp l (by simp)
      rw [hp] at ih
      rw [insertFile]
      split
      · simp [hp]
      · simpa [hl] using ih
    | false =>
      rw [hp] at ih
      rw [insertFile]
      split
      · simp [hp]
      · rw [List.find?_cons, List.find?_cons, ih]
        rfl

/-- The path that `Link` writes to: the one that the name has in the cache. -/
structure Target (files : List (Path × Bytes)) (q p : Path) : Prop where
  path : (firstMatch q files).getD q = p
  same : equalFold q.text p.text = true

theorem target_of (files : List (Path × Bytes)) (q : Path) :
    Target files q ((firstMatch q files).getD q) := by
  refine ⟨rfl, ?_⟩
  cases h : firstMatch q files with
  | none => exact equalFold_iff.mpr rfl
  | some p => exact equalFold_of_firstMatch h

/-- What a write does to the paths that are found, and to what is at a path. -/
structure Written (files files' : List (Path × Bytes)) (q p : Path) (file : Bytes) : Prop where
  here : firstMatch q files' = some p
  other : ∀ q', equalFold q'.text q.text = false → firstMatch q' files' = firstMatch q' files
  file : fileAt p files' = some file
  frame : ∀ p', p' ≠ p → fileAt p' files' = fileAt p' files

theorem Target.written {files : List (Path × Bytes)} {q p : Path} (target : Target files q p)
    (file : Bytes) : Written files (writeFile p file files) q p file := by
  have fold := equalFold_iff.mp target.same
  have elsewhere {q' : Path} (h : equalFold q'.text q.text = false) :
      equalFold q'.text p.text = false := by
    rw [equalFold, ← fold]
    exact h
  unfold writeFile
  split
  · -- the file that is found is replaced
    rename_i hany
    obtain ⟨l, hl, hlp⟩ := List.any_eq_true.mp hany
    obtain rfl : l.1 = p := of_decide_eq_true hlp
    have hmatch : firstMatch q files = some l.1 := by
      cases h : firstMatch q files with
      | none =>
        have := firstMatch_none_of_mem h (show (l.1, l.2) ∈ files from hl)
        rw [target.same] at this
        cases this
      | some p' =>
        have := target.path
        rw [h] at this
        rw [← this]
        rfl
    have keep (q' : Path) : firstMatch q' (files.map fun x => if x.1 = l.1 then (l.1, file) else x) =
        firstMatch q' files := by
      rw [firstMatch, find_replace (fun p => equalFold q'.text p.text), Option.map_map, firstMatch]
      congr 1
      funext x
      rw [Function.comp_apply]
      split
      · rename_i h
        exact h.symm
      · rfl
    refine ⟨?_, fun q' _ => keep q', ?_, ?_⟩
    · rw [keep, hmatch]
    · have hfind : ∃ x, files.find? (fun x => decide (x.1 = l.1)) = some x := by
        cases h : files.find? fun x => decide (x.1 = l.1) with
        | none =>
          rw [List.find?_eq_none] at h
          exact absurd (decide_eq_true rfl) (h l hl)
        | some x => exact ⟨x, rfl⟩
      obtain ⟨x, hx⟩ := hfind
      rw [fileAt, find_replace (fun p => decide (p = l.1)), hx, Option.map_some, Option.map_some,
        if_pos (of_decide_eq_true (of_find (fun p => decide (p = l.1)) hx))]
    · intro p' hp'
      rw [fileAt, find_replace (fun p => decide (p = p')), Option.map_map, fileAt]
      cases hx : files.find? fun x => decide (x.1 = p') with
      | none => rfl
      | some x =>
        have hxp : x.1 = p' := of_decide_eq_true (of_find (fun p => decide (p = p')) hx)
        simp [hxp, hp']
  · -- no file matches the name
    rename_i hany
    have hnot (l : Path × Bytes) (hl : l ∈ files) : l.1 ≠ p := by
      rintro rfl
      exact hany (List.any_eq_true.mpr ⟨l, hl, decide_eq_true rfl⟩)
    have hnone : firstMatch q files = none := by
      cases h : firstMatch q files with
      | none => rfl
      | some p' =>
        obtain ⟨l, hl, rfl⟩ := Option.map_eq_some_iff.mp h
        have := target.path
        rw [h] at this
        exact absurd this (hnot l (List.mem_of_find?_eq_some hl))
    obtain rfl : q = p := by
      have := target.path
      rwa [hnone] at this
    refine ⟨?_, ?_, ?_, ?_⟩
    · rw [firstMatch, find_insertFile (fun p => equalFold q.text p.text), target.same, if_pos rfl]
      · rfl
      · intro _ l hl
        exact firstMatch_none_of_mem hnone hl
    · intro q' hq'
      rw [firstMatch, find_insertFile (fun p => equalFold q'.text p.text), hq', if_neg (by simp)]
      · rfl
      · intro h
        rw [hq'] at h
        cases h
    · rw [fileAt, find_insertFile (fun p => decide (p = q)), decide_eq_true rfl, if_pos rfl]
      · rfl
      · intro _ l hl
        exact decide_eq_false (hnot l hl)
    · intro p' hp'
      have hfalse : decide (q = p') = false := decide_eq_false (Ne.symm hp')
      rw [fileAt, find_insertFile (fun p => decide (p = p')), hfalse, if_neg (by simp)]
      · rfl
      · intro h
        rw [hfalse] at h
        cases h

/-! ### What is resolved -/

/-- The file of a manifest, as it is found under a name. -/
def manifestOf (files : List (Path × Bytes)) (q : Path) : Option Bytes :=
  fileAt ((firstMatch q files).getD q) files

/-- What has been read of a manifest is put among the blobs without fail. -/
theorem DiskCache.put_sum (c : DiskCache) (data : Bytes) :
    (c.put sum256 (sum256 data) ⟨data, true⟩ data.length).2 = true := by
  unfold put copyNamedFile
  dsimp only
  split
  · rfl
  · split
    · rfl
    · rw [if_pos ⟨rfl, rfl, rfl⟩]

theorem DiskCache.resolve_plain (c : DiskCache) {name s : Text}
    (h : splitNameDigest s = (name, [])) : (c.resolve sum256 s).2 =
      (nameToPath name).bind fun q =>
        (manifestOf c.manifests q).map fun file => sum256 (file.take readLimit) := by
  unfold resolve
  rw [h]
  dsimp only
  rw [manifestPath_eq]
  cases nameToPath name with
  | none => rfl
  | some q =>
    simp only [Option.map_some, Option.bind_some, manifestOf, manifest, fileAt]
    cases c.manifests.find? fun l => l.1 = (firstMatch q c.manifests).getD q with
    | none => rfl
    | some l =>
      simp only [Option.map_some]
      have hput : (c.put sum256 _ _ _).2 = true := c.put_sum (l.2.take readLimit)
      split
      · rfl
      · rename_i hfail
        rw [hfail] at hput
        cases hput

theorem DiskCache.resolve_digest (c c' : DiskCache) {s name digest : Text}
    (h : splitNameDigest s = (name, digest)) (hne : digest ≠ []) :
    (c'.resolve sum256 s).2 = (c.resolve sum256 s).2 := by
  unfold resolve
  rw [h]
  cases digest with
  | nil => exact absurd rfl hne
  | cons => rfl

theorem Written.manifestOf_same {files files' : List (Path × Bytes)} {q p q' : Path} {file : Bytes}
    (written : Written files files' q p file) (h : equalFold q'.text q.text = true) :
    manifestOf files' q' = some file := by
  rw [manifestOf, firstMatch_congr h, written.here]
  exact written.file

theorem Written.manifestOf_other {files files' : List (Path × Bytes)} {q p q' : Path} {file : Bytes}
    (written : Written files files' q p file) (target : Target files q p)
    (h : equalFold q'.text q.text = false) : manifestOf files' q' = manifestOf files q' := by
  rw [manifestOf, written.other q' h]
  apply written.frame
  intro heq
  -- the path of another name is not the one that was written
  have hfold : equalFold q'.text p.text = true := by
    rw [← heq]
    exact (target_of files q').same
  rw [equalFold, ← equalFold_iff.mp target.same] at hfold
  rw [equalFold, hfold] at h
  cases h

/-- `Link` copies the blob, or leaves a manifest of the same size as it is. -/
theorem copyNamedFile_link {old file : Option Bytes} {blob : Bytes} {d : Digest}
    (h : copyNamedFile sum256 old ⟨blob, true⟩ d blob.length = (file, true)) :
    (∃ b, old = some b ∧ b.length = blob.length ∧ file = some b) ∨
      (∀ b, old = some b → b.length ≠ blob.length) ∧ file = some blob := by
  unfold copyNamedFile at h
  split at h
  · rename_i hold
    obtain ⟨b, rfl, hlen⟩ := hold
    exact .inl ⟨b, rfl, hlen, (Prod.mk.inj h).1.symm⟩
  · rename_i hold
    refine .inr ⟨fun b hb hlen => hold ⟨b, hb, hlen⟩, ?_⟩
    split at h
    · rename_i hzero
      rw [List.length_eq_zero_iff.mp hzero]
      exact (Prod.mk.inj h).1.symm
    · split at h
      · exact (Prod.mk.inj h).1.symm
      · cases (Prod.mk.inj h).2

/-- The manifest that has the name is of another size than the blob, whose first MiB has the digest;
or it resolves to the digest already. -/
def DiskCache.LinkTakes (sum256 : Bytes → Digest) (c : DiskCache) (name : Text) (d : Digest) : Prop :=
  ∀ q blob, nameToPath name = some q → c.blobs d = some blob →
    (∃ old, manifestOf c.manifests q = some old ∧ old.length = blob.length ∧
      sum256 (old.take readLimit) = d) ∨
    (∀ old, manifestOf c.manifests q = some old → old.length ≠ blob.length) ∧
      sum256 (blob.take readLimit) = d

theorem DiskCache.link_some {c c' : DiskCache} {name : Text} {d : Digest}
    (h : c.link sum256 name d = (c', true)) : ∃ q p blob file, nameToPath name = some q ∧
      c.blobs d = some blob ∧ Target c.manifests q p ∧
      Written c.manifests c'.manifests q p file ∧
      ((∃ old, manifestOf c.manifests q = some old ∧ old.length = blob.length ∧ file = old) ∨
        (∀ old, manifestOf c.manifests q = some old → old.length ≠ blob.length) ∧
          file = blob) := by
  unfold link at h
  rw [manifestPath_eq] at h
  cases hq : nameToPath name with
  | none =>
    rw [hq] at h
    cases (Prod.mk.inj h).2
  | some q =>
    rw [hq] at h
    simp only [Option.map_some] at h
    cases hd : c.blobs d with
    | none =>
      rw [hd] at h
      cases (Prod.mk.inj h).2
    | some blob =>
      rw [hd] at h
      have hmanifest : c.manifest ((firstMatch q c.manifests).getD q) = manifestOf c.manifests q :=
        rfl
      have target := target_of c.manifests q
      dsimp only at h
      rw [hmanifest] at h
      rcases hcopied : copyNamedFile sum256 (manifestOf c.manifests q) ⟨blob, true⟩ d blob.length with
        ⟨file, ok⟩
      rw [hcopied] at h
      obtain ⟨rfl, rfl⟩ := Prod.mk.inj h
      rcases copyNamedFile_link hcopied with ⟨old, hold, hlen, rfl⟩ | ⟨hold, rfl⟩
      · exact ⟨q, _, blob, old, rfl, rfl, target, target.written old, .inl ⟨old, hold, hlen, rfl⟩⟩
      · exact ⟨q, _, blob, blob, rfl, rfl, target, target.written blob, .inr ⟨hold, rfl⟩⟩

/-- In every state, so after any operations: what is linked is what resolves, exactly where `Link`
takes it; the names that differ resolve as before. -/
theorem link_resolves {c c' : DiskCache} {name : Text} {d : Digest} (valid : 0x40 ∉ name)
    (h : c.link sum256 name d = (c', true)) :
    ((∀ m, SameName m name → (c'.resolve sum256 m).2 = some d) ↔ c.LinkTakes sum256 name d) ∧
      ∀ m, ¬SameName m name → (c'.resolve sum256 m).2 = (c.resolve sum256 m).2 := by
  obtain ⟨q, p, blob, file, hq, hblob, target, written, hfile⟩ := DiskCache.link_some h
  have here (m : Text) (hm : SameName m name) :
      (c'.resolve sum256 m).2 = some (sum256 (file.take readLimit)) := by
    obtain ⟨s, q', q'', hsplit, hq', hq'', hfold⟩ := hm
    obtain rfl : q = q'' := Option.some.inj (hq.symm.trans hq'')
    rw [c'.resolve_plain hsplit, hq', Option.bind_some, written.manifestOf_same hfold,
      Option.map_some]
  refine ⟨⟨?_, ?_⟩, ?_⟩
  · intro hall q' blob' hq' hblob'
    obtain rfl : q = q' := Option.some.inj (hq.symm.trans hq')
    obtain rfl : blob = blob' := Option.some.inj (hblob.symm.trans hblob')
    have hd : sum256 (file.take readLimit) = d := by
      have := hall name (.refl valid hq)
      rw [here name (.refl valid hq)] at this
      exact Option.some.inj this
    rcases hfile with ⟨old, hold, hlen, rfl⟩ | ⟨hold, rfl⟩
    · exact .inl ⟨file, hold, hlen, hd⟩
    · exact .inr ⟨hold, hd⟩
  · intro takes m hm
    rw [here m hm]
    congr 1
    rcases takes q blob hq hblob with ⟨old, hold, hlen, hd⟩ | ⟨hold, hd⟩
    · rcases hfile with ⟨old', hold', -, rfl⟩ | ⟨hnone, -⟩
      · obtain rfl : old = file := Option.some.inj (hold.symm.trans hold')
        exact hd
      · exact absurd hlen (hnone old hold)
    · rcases hfile with ⟨old', hold', hlen', -⟩ | ⟨-, rfl⟩
      · exact absurd hlen' (hold old' hold')
      · exact hd
  · intro m hm
    rcases hsplit : splitNameDigest m with ⟨s, digest⟩
    by_cases hne : digest = []
    · subst hne
      rw [c'.resolve_plain hsplit, c.resolve_plain hsplit]
      cases hq' : nameToPath s with
      | none => rfl
      | some q' =>
        have hfold : equalFold q'.text q.text = false := by
          rw [Bool.eq_false_iff]
          exact fun hfold => hm ⟨s, q', q, hsplit, hq', hq, hfold⟩
        rw [Option.bind_some, Option.bind_some, written.manifestOf_other target hfold]
    · exact c.resolve_digest c' hsplit hne

/-! ### Two blobs of one size -/

/-- The sums of the texts `1` and `2`. -/
def sumsOfDigits (data : Bytes) : Digest :=
  let sum := if data = ascii "1" then
      ascii "sha256:6b86b273ff34fce19d6b804eff5a3f5747ada4eaa22f1d49c01e52ddb7875b4b"
    else ascii "sha256:d4735e3a265e16eee03f59718b9b5d03019c07d8b6c51f90da3a666eec13ab35"
  (parseDigest sum).getD ⟨List.replicate 32 0, rfl⟩

/-- Both are blobs, and the name is linked to the first. -/
def linkedOnce : List Op :=
  [.put (sumsOfDigits (ascii "1")) ⟨ascii "1", true⟩ 1,
    .put (sumsOfDigits (ascii "2")) ⟨ascii "2", true⟩ 1,
    .link (ascii "h/n/m:t") (sumsOfDigits (ascii "1"))]

/-- Linked to the second, the name still resolves to the first. -/
theorem relinked_resolves_old : ∃ c', (DiskCache.run sumsOfDigits {} linkedOnce).link sumsOfDigits
      (ascii "h/n/m:t") (sumsOfDigits (ascii "2")) = (c', true) ∧
    SameName (ascii "h/n/m:t") (ascii "h/n/m:t") ∧
    (c'.resolve sumsOfDigits (ascii "h/n/m:t")).2 = some (sumsOfDigits (ascii "1")) ∧
    sumsOfDigits (ascii "1") ≠ sumsOfDigits (ascii "2") := by
  refine ⟨_, rfl, .refl (by decide) rfl, ?_, ?_⟩
  · decide
  · decide

/-- A name in other case is linked to the first blob. -/
theorem linked_resolves : ∃ c', (DiskCache.run sumsOfDigits {} linkedOnce).link sumsOfDigits
      (ascii "H/N/M:T") (sumsOfDigits (ascii "1")) = (c', true) ∧
    ((∀ m, SameName m (ascii "H/N/M:T") →
        (c'.resolve sumsOfDigits m).2 = some (sumsOfDigits (ascii "1"))) ↔
      (DiskCache.run sumsOfDigits {} linkedOnce).LinkTakes sumsOfDigits (ascii "H/N/M:T")
        (sumsOfDigits (ascii "1"))) ∧
    ∀ m, ¬SameName m (ascii "H/N/M:T") → (c'.resolve sumsOfDigits m).2 =
      ((DiskCache.run sumsOfDigits {} linkedOnce).resolve sumsOfDigits m).2 :=
  ⟨_, rfl, link_resolves (by decide) rfl⟩

end Ecco9.Blob
