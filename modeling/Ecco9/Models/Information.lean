import Ecco9.Library.Assignments
import Ecco9.Library.Sorting
import Ecco9.Models.Registry

/-! What `Register`, `Get` and `List` of `org/ecco9-models/models/registry.go` tell of a model: the one
as it detects the format, the others by the label. -/

namespace Ecco9.Models

open Ecco9.Library

structure ModelInfo (D : Type) where
  name : Text
  digest : D
  sizeBytes : Nat
  format : Text
  labels : List (Text × Text)
  modifiedAtUnix : Int
  deriving DecidableEq

/-- The registry, with the times in nanoseconds at which its manifests were made. -/
structure Catalogue (D : Type) where
  registry : Registry D := {}
  created : Text → Int := fun _ => 0

inductive Request (D : Type)
  | register (name : Text) (blob : Reader) (labels : List (Text × Text)) (disk : Disk) (now : Int)
  /-- where the disk removes the blobs of some digests only -/
  | delete (name : Text) (removes : D → Bool)
  | get (name : Text)
  | list

/-- `UnixMilli` -/
def unixMilli (t : Int) : Int := t / 1000000

section

variable {D : Type} [DecidableEq D]
-- SHA-256, and how a digest is written
variable (sum256 : Text → D) (text : D → Text)

/-- `Digest` -/
def Manifest.digest (m : Manifest D) : D :=
  sum256 (m.name ++ text m.config.digest ++ m.layers.flatMap fun l => text l.digest)

def infoLocked (m : Manifest D) (created : Int) (format : Text) (size : Nat) : ModelInfo D where
  name := m.name
  digest := m.digest sum256 text
  sizeBytes := size
  format := format
  labels := m.labels
  modifiedAtUnix := unixMilli created

namespace Catalogue

def register (c : Catalogue D) (name : Text) (blob : Reader) (labels : List (Text × Text)) (disk : Disk)
    (now : Int) : Catalogue D × Option (ModelInfo D) :=
  match c.registry.get name with
  | some _ => (c, none)
  | none =>
    let (head, rest) := peek blob 4
    match detectFormat head with
    | none => (c, none)
    | some format =>
      match c.registry.store.put sum256 disk ({ bytes := head } :: rest) with
      | (store, _, none) => ({ c with registry := { c.registry with store } }, none)
      | (store, _, some (digest, size)) =>
        let m := newManifest name digest size labels
        ({ registry := { c.registry with store }.setManifest m
           created := fun n => if n = name then now else c.created n },
          some (infoLocked sum256 text m now format size))

/-- The label of the format, when there is one. -/
def labelled (labels : List (Text × Text)) : Text :=
  (labels.lookup (ascii "format")).getD (ascii "gguf")

/-- The information that `Get` makes of a manifest. -/
def infoFor (c : Catalogue D) (m : Manifest D) : ModelInfo D :=
  let (format, size) :=
    match m.layers with
    | [] => (ascii "gguf", 0)
    | l :: _ => (labelled m.labels, l.size)
  infoLocked sum256 text m (c.created m.name) format size

def get (c : Catalogue D) (name : Text) : Option (Manifest D × ModelInfo D) :=
  (c.registry.get name).map fun m => (m, c.infoFor sum256 text m)

/-- The information that `List` makes of a manifest. -/
def entry (c : Catalogue D) (m : Manifest D) : ModelInfo D :=
  let size :=
    match m.layers with
    | [] => 0
    | l :: _ => l.size
  infoLocked sum256 text m (c.created m.name) (labelled m.labels) size

def list (S : SortFunc) (c : Catalogue D) : List (ModelInfo D) :=
  S.slice (fun a b => a.name < b.name) (c.registry.manifests.map (c.entry sum256 text))

def delete (c : Catalogue D) (name : Text) (removes : D → Bool) : Catalogue D :=
  match c.registry.delete name with
  | none => c
  | some (r, digests) =>
    let store := (digests.filter removes).foldl (fun store d => store.set d none) r.store
    { c with registry := { r with store } }

def step (c : Catalogue D) : Request D → Catalogue D
  | .register name blob labels disk now => (c.register sum256 text name blob labels disk now).1
  | .delete name removes => c.delete name removes
  | .get _ => c
  | .list => c

/-- What `Get` and `List` tell of a name is this and nothing else. -/
def Tells (S : SortFunc) (c : Catalogue D) (name : Text) (info : ModelInfo D) : Prop :=
  (c.get sum256 text name).map Prod.snd = some info ∧
    (c.list sum256 text S).filter (fun i => i.name = name) = [info]

end Catalogue

/-- A request that leaves the model of a name where it is. -/
def Request.Keeps (name : Text) : Request D → Prop
  | .delete name' _ => name' ≠ name
  | _ => True

end

/-! ### While a model is registered -/

section

variable {D : Type} [DecidableEq D] {sum256 : Text → D} {text : D → Text} {c : Catalogue D} {m : Manifest D}

/-- The names of the manifests are distinct. -/
def Registry.Distinct (r : Registry D) : Prop := (r.manifests.map Manifest.name).Nodup

omit [DecidableEq D] in
theorem Registry.get_spec {r : Registry D} {name : Text} (h : r.get name = some m) :
    m ∈ r.manifests ∧ m.name = name :=
  ⟨List.mem_of_find?_eq_some h, by simpa using List.find?_some h⟩

omit [DecidableEq D] in
theorem Registry.get_filter {l : List (Manifest D)} {name name' : Text} (h : name ≠ name') :
    ((l.filter fun m => m.name ≠ name').find? fun m => m.name = name) =
      l.find? fun m => m.name = name := by
  rw [List.find?_filter]
  congr 1
  funext m
  by_cases hm : m.name = name
  · simp [hm, h]
  · simp [hm]

omit [DecidableEq D] in
theorem Registry.get_setManifest_of_ne (r : Registry D) {m : Manifest D} {name : Text}
    (h : name ≠ m.name) : (r.setManifest m).get name = r.get name := by
  unfold Registry.setManifest Registry.get
  rw [List.find?_cons_of_neg (by simpa using Ne.symm h), Registry.get_filter h]

omit [DecidableEq D] in
theorem Registry.Distinct.setManifest {r : Registry D} (h : r.Distinct) (m : Manifest D) :
    (r.setManifest m).Distinct := by
  refine List.nodup_cons.mpr ⟨fun hmem => ?_, h.sublist (List.filter_sublist.map _)⟩
  obtain ⟨m', hm', heq⟩ := List.mem_map.mp hmem
  have hne := (List.mem_filter.mp hm').2
  rw [decide_eq_true_eq] at hne
  exact hne heq

theorem Registry.delete_spec {r r' : Registry D} {name : Text} {digests : List D}
    (h : r.delete name = some (r', digests)) :
    r'.manifests = r.manifests.filter fun m => m.name ≠ name := by
  unfold Registry.delete at h
  split at h
  · cases h
  · obtain ⟨rfl, -⟩ := Prod.mk.inj (Option.some.inj h)
    rfl

namespace Catalogue

/-- The manifest of a name, and when it was made. -/
def Has (c : Catalogue D) (name : Text) (m : Manifest D) (now : Int) : Prop :=
  c.registry.get name = some m ∧ c.created name = now

variable (sum256 text) in
/-- What `Register` leaves: nothing new, or a manifest of a name that had none. -/
theorem register_cases (c : Catalogue D) (name : Text) (blob : Reader) (labels : List (Text × Text))
    (disk : Disk) (now : Int) :
    (∃ store, c.register sum256 text name blob labels disk now =
        ({ c with registry := { c.registry with store } }, none)) ∨
      ∃ store format digest size, c.registry.get name = none ∧
        detectFormat (peek blob 4).1 = some format ∧
        c.register sum256 text name blob labels disk now =
          ({ registry := { c.registry with store }.setManifest (newManifest name digest size labels)
             created := fun n => if n = name then now else c.created n },
            some (infoLocked sum256 text (newManifest name digest size labels) now format size)) := by
  rw [register]
  cases hget : c.registry.get name with
  | some m => exact .inl ⟨c.registry.store, rfl⟩
  | none =>
    cases hformat : detectFormat (peek blob 4).1 with
    | none =>
      refine .inl ⟨c.registry.store, ?_⟩
      simp only [hformat]
    | some format =>
      simp only [hformat]
      obtain ⟨store, rest, put⟩ :=
        c.registry.store.put sum256 disk ({ bytes := (peek blob 4).1 } :: (peek blob 4).2)
      cases put with
      | none => exact .inl ⟨store, rfl⟩
      | some put => exact .inr ⟨store, format, put.1, put.2, trivial, rfl, rfl⟩

variable (sum256 text) in
theorem distinct_step (h : c.registry.Distinct) (e : Request D) :
    (c.step sum256 text e).registry.Distinct := by
  cases e with
  | register name blob labels disk now =>
    rw [step]
    rcases c.register_cases sum256 text name blob labels disk now with
      ⟨store, hregister⟩ | ⟨store, format, digest, size, -, -, hregister⟩
    · rw [hregister]
      exact h
    · rw [hregister]
      exact Registry.Distinct.setManifest (r := { c.registry with store }) h _
  | delete name removes =>
    rw [step, delete]
    cases hdelete : c.registry.delete name with
    | none => exact h
    | some deleted =>
      unfold Registry.Distinct
      rw [Registry.delete_spec hdelete]
      exact h.sublist (List.filter_sublist.map _)
  | get name => exact h
  | list => exact h

theorem Has.step {name : Text} {now : Int} (h : c.Has name m now) {e : Request D} (keeps : e.Keeps name) :
    (c.step sum256 text e).Has name m now := by
  cases e with
  | register name' blob labels disk now' =>
    rw [Catalogue.step]
    rcases c.register_cases sum256 text name' blob labels disk now' with
      ⟨store, hregister⟩ | ⟨store, format, digest, size, hnew, -, hregister⟩
    · rw [hregister]
      exact h
    · have hne : name ≠ name' := by
        rintro rfl
        rw [h.1] at hnew
        cases hnew
      rw [hregister]
      refine ⟨(Registry.get_setManifest_of_ne _ hne).trans h.1, ?_⟩
      rw [← h.2]
      exact if_neg hne
  | delete name' removes =>
    rw [Catalogue.step, delete]
    cases hdelete : c.registry.delete name' with
    | none => exact h
    | some deleted =>
      refine ⟨?_, h.2⟩
      unfold Registry.get
      rw [Registry.delete_spec hdelete, Registry.get_filter (Ne.symm keeps)]
      exact h.1
  | get name' => exact h
  | list => exact h

theorem distinct_run (es : List (Request D)) (h : c.registry.Distinct) :
    (es.foldl (step sum256 text) c).registry.Distinct := by
  induction es generalizing c with
  | nil => exact h
  | cons e es ih => exact ih (distinct_step sum256 text h e)

theorem Has.run {name : Text} {now : Int} (es : List (Request D)) (keeps : ∀ e ∈ es, e.Keeps name)
    (h : c.Has name m now) : (es.foldl (Catalogue.step sum256 text) c).Has name m now := by
  induction es generalizing c with
  | nil => exact h
  | cons e es ih =>
    exact ih (fun e he => keeps e (List.mem_cons_of_mem _ he)) (h.step (keeps e List.mem_cons_self))

omit [DecidableEq D] in
/-- `Get` and `List` tell of a manifest what its label says. -/
theorem tells_iff (S : SortFunc) {name : Text} {now : Int} {digest : D} {size : Nat}
    {labels : List (Text × Text)} (distinct : c.registry.Distinct)
    (has : c.Has name (newManifest name digest size labels) now) (info : ModelInfo D) :
    c.Tells sum256 text S name info ↔
      infoLocked sum256 text (newManifest name digest size labels) now (labelled labels) size = info := by
  have hget : (c.get sum256 text name).map Prod.snd =
      some (infoLocked sum256 text (newManifest name digest size labels) now (labelled labels) size) := by
    rw [get, has.1, ← has.2]
    rfl
  have hlist : (c.list sum256 text S).filter (fun i => i.name = name) =
      [infoLocked sum256 text (newManifest name digest size labels) now (labelled labels) size] := by
    refine List.perm_singleton.mp (((S.slice_perm ..).filter _).trans (.of_eq ?_))
    have one := filter_key distinct (Registry.get_spec has.1).1
    rw [List.filter_map, ← has.2]
    exact congrArg (List.map (c.entry sum256 text)) one
  rw [Tells, hget, hlist]
  simp

omit [DecidableEq D] in
theorem infoLocked_inj {format format' : Text} {now : Int} {size : Nat} :
    infoLocked sum256 text m now format size = infoLocked sum256 text m now format' size ↔
      format = format' :=
  ⟨congrArg ModelInfo.format, fun h => h ▸ rfl⟩

variable (sum256 text) in
/-- What `Register` has told of a model `Get` and `List` tell as long as it is registered, just when the
format that is detected is the one that the label says. -/
theorem registered_tells (S : SortFunc) (blobs : FSStore D) (before after : List (Request D))
    (name : Text) (blob : Reader) (labels : List (Text × Text)) (disk : Disk) (now : Int)
    {c c' : Catalogue D} {info : ModelInfo D}
    (run : before.foldl (step sum256 text) { registry := { store := blobs } } = c)
    (registered : c.register sum256 text name blob labels disk now = (c', some info))
    (keeps : ∀ e ∈ after, e.Keeps name) :
    (after.foldl (step sum256 text) c').Tells sum256 text S name info ↔
      detectFormat (peek blob 4).1 = some (labelled labels) := by
  have there : c.registry.Distinct := run ▸ distinct_run before List.nodup_nil
  have there' := distinct_step sum256 text there (.register name blob labels disk now)
  rw [step, registered] at there'
  rcases c.register_cases sum256 text name blob labels disk now with
    ⟨store, hregister⟩ | ⟨store, format, digest, size, -, hformat, hregister⟩
  · rw [registered] at hregister
    cases hregister
  · rw [registered] at hregister
    obtain ⟨rfl, hinfo⟩ := Prod.mk.inj hregister
    obtain rfl := Option.some.inj hinfo
    rw [tells_iff S (distinct_run after there')
      (Has.run after keeps ⟨Registry.get_setManifest _ _, if_pos rfl⟩), infoLocked_inj, hformat,
      Option.some_inj]
    exact eq_comm

/-- A model in the format that its label says. -/
theorem gguf_tells : ∃ c' info, ({} : Catalogue Text).register id id (ascii "a") [⟨gguf, false⟩]
      [(ascii "format", ascii "gguf")] {} 0 = (c', some info) ∧
    ([.get (ascii "a"), .list].foldl (step id id) c').Tells id id stableSort (ascii "a") info := by
  refine ⟨_, _, rfl, ?_⟩
  refine (registered_tells id id stableSort {} [] [.get (ascii "a"), .list] (ascii "a") [⟨gguf, false⟩]
    [(ascii "format", ascii "gguf")] {} 0 rfl rfl ?_).mpr rfl
  rintro e (_ | ⟨_, _ | ⟨_, _ | _⟩⟩) <;> trivial

/-- The service labels every upload `gguf`, whatever it is. -/
theorem safetensors_told : ∃ c' info, ({} : Catalogue Text).register id id (ascii "a")
      [⟨[8, 0, 0, 0], false⟩] [(ascii "format", ascii "gguf")] {} 0 = (c', some info) ∧
    info.format = ascii "safetensors" ∧
    (c'.get id id (ascii "a")).map (·.2.format) = some (ascii "gguf") ∧
    ¬c'.Tells id id stableSort (ascii "a") info := by
  refine ⟨_, _, rfl, rfl, rfl, fun h => ?_⟩
  exact absurd (congrArg (Option.map ModelInfo.format) h.1) (by decide)

end Catalogue

end

end Ecco9.Models
