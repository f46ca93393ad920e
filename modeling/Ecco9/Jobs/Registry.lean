import Ecco9.Jobs.Slots
import Ecco9.Library.Utf8

/-! The models of `org/ecco9-runner/runner/registry.go`: `Load` is two locked sections with the call of
the backend between them. -/

namespace Ecco9.Jobs

open Ecco9.Library

inductive ServerStatus
  | statusLoadingModel
  | statusReady
  | statusError
  | statusUnloaded
  deriving DecidableEq

structure LoadedModel where
  key : Nat
  path : Text
  contextSize : Int
  status : ServerStatus := .statusLoadingModel
  cache : Option (KVCache Nat) := none
  deriving DecidableEq

/-- `fmt.Sprintf("model-%d", key)` -/
def LoadedModel.id (m : LoadedModel) : Text := ascii "model-" ++ ascii (toString m.key)

/-- How far a `Load` is. -/
inductive LoadPhase
  | calling
  | loaded
  | failed
  deriving DecidableEq

structure Load where
  key : Nat
  path : Text
  contextSize : Int
  phase : LoadPhase := .calling
  deriving DecidableEq

/-- The models of the registry, and the loads in progress. -/
structure Registry where
  models : List LoadedModel := []
  nextID : Nat := 0
  loads : List Load := []
  deriving DecidableEq

inductive RegistryEvent
  | load (path : Text) (contextSize : Int)
  /-- the backend's `Load` returns -/
  | backend (load : Load) (ok : Bool)
  /-- the second section of a `Load` -/
  | finish (load : Load)
  | unload (modelID : Text)
  /-- `Get` or, without an id, the first of `List` returns this model to `process` -/
  | find (idOrPath : Option Text) (model : LoadedModel)
  deriving DecidableEq

namespace Registry

/-- Whether a model of this path is there already. -/
def registered (r : Registry) (path : Text) : Bool :=
  r.models.any fun m => m.path = path && m.status ≠ .statusUnloaded

def named (idOrPath : Option Text) (m : LoadedModel) : Bool :=
  match idOrPath with
  | none => true
  | some s => m.id = s || m.path = s

def setStatus (m : LoadedModel) (load : Load) : LoadedModel :=
  if m.key = load.key then
    match load.phase with
    | .failed => { m with status := .statusError }
    | _ => { m with status := .statusReady, cache := some (.new load.contextSize 8) }
  else m

def step (r : Registry) : RegistryEvent → Option Registry
  | .load path contextSize =>
    if r.registered path then some r
    else
      let key := r.nextID + 1
      some {
        models := r.models ++ [{ key, path, contextSize }]
        nextID := key
        loads := { key, path, contextSize } :: r.loads }
  | .backend load ok =>
    if load ∈ r.loads ∧ load.phase = .calling then
      some { r with
        loads := { load with phase := if ok then .loaded else .failed } :: r.loads.erase load }
    else none
  | .finish load =>
    if load ∈ r.loads ∧ load.phase ≠ .calling then
      some { r with models := r.models.map (setStatus · load), loads := r.loads.erase load }
    else none
  | .unload modelID => some { r with models := r.models.filter fun m => m.id ≠ modelID }
  | .find idOrPath model => if model ∈ r.models ∧ named idOrPath model then some r else none

/-- What the registry keeps to in every state. -/
structure Sound (r : Registry) : Prop where
  /-- An entry is of a load in progress, or of one that has completed. -/
  entries : ∀ m ∈ r.models, m.status = .statusLoadingModel ∧
      (∃ load ∈ r.loads, load.key = m.key ∧ load.path = m.path) ∨
    m.status = .statusReady ∧ m.cache.isSome
  /-- There is one entry for a path. -/
  single : (r.models.map (·.path)).Nodup

/-- What it keeps to at a step. -/
structure Keeps (r : Registry) (e : RegistryEvent) (r' : Registry) : Prop where
  /-- A load that fails leaves no entry. -/
  failed : ∀ load, e = .finish load → load.phase = .failed → ∀ m ∈ r'.models, m.key ≠ load.key
  /-- A load is only refused while another one of its path is in progress or has completed. -/
  refused : ∀ path contextSize, e = .load path contextSize → r.registered path = true →
    (∃ load ∈ r.loads, load.path = path) ∨ ∃ m ∈ r.models, m.path = path ∧ m.status = .statusReady
  /-- What `process` finds has a cache. -/
  found : ∀ idOrPath model, e = .find idOrPath model → model.cache.isSome

/-- A load only fails when its entry has been unloaded, and nothing is looked up that would find an
entry whose load is in progress. -/
def Careful (r : Registry) : RegistryEvent → Prop
  | .finish load => load.phase = .failed → ∀ m ∈ r.models, m.key ≠ load.key
  | .find idOrPath _ => ∀ m ∈ r.models, named idOrPath m → m.status ≠ .statusLoadingModel
  | _ => True

def CarefulStep (r r' : Registry) : Prop := ∃ e, r.Careful e ∧ r.step e = some r'

variable {r r' : Registry} {e : RegistryEvent}

theorem registered_iff (r : Registry) (path : Text) :
    r.registered path = true ↔ ∃ m ∈ r.models, m.path = path ∧ m.status ≠ .statusUnloaded := by
  simp [registered]

@[simp] theorem setStatus_key (m : LoadedModel) (load : Load) : (setStatus m load).key = m.key := by
  unfold setStatus
  split
  · split <;> rfl
  · rfl

@[simp] theorem setStatus_path (m : LoadedModel) (load : Load) : (setStatus m load).path = m.path := by
  unfold setStatus
  split
  · split <;> rfl
  · rfl

/-- A path without an entry gets one. -/
theorem Sound.load (h : Sound r) {path : Text} (hnew : r.registered path = false) (key : Nat)
    (contextSize : Int) : Sound {
      models := r.models ++ [{ key, path, contextSize }]
      nextID := key
      loads := { key, path, contextSize } :: r.loads } where
  entries m hm := by
    rcases List.mem_append.mp hm with hm | hm
    · rcases h.entries m hm with ⟨hstatus, load, hload, heq⟩ | hready
      · exact .inl ⟨hstatus, load, List.mem_cons_of_mem _ hload, heq⟩
      · exact .inr hready
    · obtain rfl := List.mem_singleton.mp hm
      exact .inl ⟨rfl, _, List.mem_cons_self, rfl, rfl⟩
  single := by
    rw [List.map_append, List.map_singleton]
    refine List.nodup_append.mpr ⟨h.single, List.pairwise_singleton .., ?_⟩
    rintro _ hmem _ hpath rfl
    obtain ⟨m, hm, hmpath⟩ := List.mem_map.mp hmem
    have hstatus : m.status ≠ .statusUnloaded := by
      rcases h.entries m hm with ⟨hstatus, -⟩ | ⟨hstatus, -⟩
      · rw [hstatus]
        nofun
      · rw [hstatus]
        nofun
    have hregistered := (r.registered_iff path).mpr
      ⟨m, hm, hmpath.trans (List.mem_singleton.mp hpath), hstatus⟩
    rw [hnew] at hregistered
    cases hregistered

/-- The call of the backend changes no entry. -/
theorem Sound.backend (h : Sound r) {load : Load} (phase : LoadPhase) :
    Sound { r with loads := { load with phase } :: r.loads.erase load } where
  entries m hm := by
    rcases h.entries m hm with ⟨hstatus, other, hother, hkey, hpath⟩ | hready
    · refine .inl ⟨hstatus, ?_⟩
      by_cases heq : other = load
      · subst heq
        exact ⟨_, List.mem_cons_self, hkey, hpath⟩
      · exact ⟨other, List.mem_cons_of_mem _ ((List.mem_erase_of_ne heq).mpr hother), hkey, hpath⟩
    · exact .inr hready
  single := h.single

/-- The entry of a load that has completed is ready; one that has failed has none. -/
theorem Sound.finish (h : Sound r) {load : Load}
    (careful : load.phase = .failed → ∀ m ∈ r.models, m.key ≠ load.key) :
    Sound { r with models := r.models.map (setStatus · load), loads := r.loads.erase load } where
  entries m' hm' := by
    obtain ⟨m, hm, rfl⟩ := List.mem_map.mp hm'
    by_cases hkey : m.key = load.key
    · refine .inr ?_
      unfold setStatus
      rw [if_pos hkey]
      split
      · rename_i hfailed
        exact absurd hkey (careful hfailed m hm)
      · exact ⟨rfl, rfl⟩
    · have hsame : setStatus m load = m := if_neg hkey
      rw [hsame]
      rcases h.entries m hm with ⟨hstatus, other, hother, hkey', hpath⟩ | hready
      · have hne : other ≠ load := by
          rintro rfl
          exact hkey hkey'.symm
        exact .inl ⟨hstatus, other, (List.mem_erase_of_ne hne).mpr hother, hkey', hpath⟩
      · exact .inr hready
  single := by
    rw [List.map_map]
    have hpaths : (fun m => LoadedModel.path m) ∘ (setStatus · load) = LoadedModel.path := by
      funext m
      exact setStatus_path m load
    rw [hpaths]
    exact h.single

theorem Sound.unload (h : Sound r) (modelID : Text) :
    Sound { r with models := r.models.filter fun m => m.id ≠ modelID } where
  entries m hm := h.entries m (List.mem_filter.mp hm).1
  single := h.single.sublist (List.filter_sublist.map _)

theorem Sound.step (h : Sound r) (next : CarefulStep r r') : Sound r' := by
  obtain ⟨e, careful, hstep⟩ := next
  cases e with
  | load path contextSize =>
    rw [Registry.step] at hstep
    split at hstep
    · cases hstep
      exact h
    · rename_i hnew
      cases hstep
      exact h.load (Bool.eq_false_iff.mpr hnew) _ contextSize
  | backend load ok =>
    rw [Registry.step, Option.ite_none_right_eq_some] at hstep
    obtain ⟨-, heq⟩ := hstep
    cases heq
    exact h.backend _
  | finish load =>
    rw [Registry.step, Option.ite_none_right_eq_some] at hstep
    obtain ⟨-, heq⟩ := hstep
    cases heq
    exact h.finish careful
  | unload modelID =>
    cases hstep
    exact h.unload modelID
  | find idOrPath model =>
    rw [Registry.step, Option.ite_none_right_eq_some] at hstep
    obtain ⟨-, heq⟩ := hstep
    cases heq
    exact h

theorem Sound.keeps (h : Sound r) (careful : r.Careful e) (next : r.step e = some r') :
    Keeps r e r' where
  failed := by
    rintro load rfl hfailed m' hm'
    rw [Registry.step, Option.ite_none_right_eq_some] at next
    obtain ⟨-, heq⟩ := next
    cases heq
    obtain ⟨m, hm, rfl⟩ := List.mem_map.mp hm'
    rw [setStatus_key]
    exact careful hfailed m hm
  refused := by
    rintro path contextSize rfl hregistered
    obtain ⟨m, hm, hpath, -⟩ := (r.registered_iff path).mp hregistered
    rcases h.entries m hm with ⟨-, load, hload, -, hloadPath⟩ | ⟨hready, -⟩
    · exact .inl ⟨load, hload, hloadPath.trans hpath⟩
    · exact .inr ⟨m, hm, hpath, hready⟩
  found := by
    rintro idOrPath model rfl
    rw [Registry.step, Option.ite_none_right_eq_some] at next
    obtain ⟨⟨hm, hnamed⟩, -⟩ := next
    rcases h.entries model hm with ⟨hloading, -⟩ | ⟨-, hcache⟩
    · exact absurd hloading (careful model hm hnamed)
    · exact hcache

/-- In every run in which no load fails under its entry and no lookup comes upon a load in progress,
loads leave entries or nothing, and lookups find a cache. -/
theorem run_keeps_registry (run : Relation.ReflTransGen CarefulStep {} r) :
    Sound r ∧ ∀ e r', r.Careful e → r.step e = some r' → Keeps r e r' := by
  have sound : Sound r := run_invariant (fun _ _ h next => h.step next) run ⟨nofun, List.nodup_nil⟩
  exact ⟨sound, fun _ _ careful next => sound.keeps careful next⟩

/-- A registry with one model, loaded. -/
def oneModel : Registry where
  models := [{
    key := 1
    path := ascii "m"
    contextSize := 0
    status := .statusReady
    cache := some (.new 0 8) }]
  nextID := 1

theorem oneModel_keeps : Sound oneModel ∧
    ∀ e r', oneModel.Careful e → oneModel.step e = some r' → Keeps oneModel e r' := by
  have run : Relation.ReflTransGen CarefulStep {} oneModel :=
    .head ⟨.load (ascii "m") 0, trivial, rfl⟩
      (.head ⟨.backend ⟨1, ascii "m", 0, .calling⟩ true, trivial, rfl⟩
        (.head ⟨.finish ⟨1, ascii "m", 0, .loaded⟩, nofun, rfl⟩ .refl))
  exact run_keeps_registry run

/-- The entry of a load that failed stays, and refuses the next one. -/
theorem failed_refuses : ∃ r,
    [.load (ascii "m") 0, .backend ⟨1, ascii "m", 0, .calling⟩ false,
      .finish ⟨1, ascii "m", 0, .failed⟩].foldlM step {} = some r ∧
        ¬ Keeps r (.load (ascii "m") 0) r := by
  refine ⟨_, rfl, fun h => ?_⟩
  rcases h.refused (ascii "m") 0 rfl (by decide) with ⟨load, hload, -⟩ | ⟨m, hm, -, hready⟩
  · cases hload
  · obtain rfl := List.mem_singleton.mp hm
    exact absurd hready (by decide)

end Registry

end Ecco9.Jobs
