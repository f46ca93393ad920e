import Ecco9.Library.Runs

/-! The checkpoints of `org/ecco9-reservoir/reservoir/pipeline.go`: the trainer gives out the versions,
and keeps its counter when it is loaded with the weights of an older one. -/

universe u v

namespace Ecco9.Reservoir

open Ecco9.Library

/-- `float64` -/
structure Float64 (R : Type u) where
  add : R → R → R
  sub : R → R → R
  mul : R → R → R
  div : R → R → R
  ofNat : Nat → R
  nan : R
  isNaN : R → Bool
  le : R → R → Bool

abbrev Weights (R : Type u) := List (List R)

structure Checkpoint (R : Type u) where
  version : Nat
  weights : Weights R
  samples : Nat
  trainError : R
  /-- the error on the held-out samples, when it was validated -/
  heldOutMSE : Option R := none
  deriving DecidableEq

structure ValidationSample (R : Type u) where
  input : List R
  target : List R
  deriving DecidableEq

/-- What `TrainSample` changes of the trainer besides the matrix of the RLS. -/
structure OnlineTrainer (R : Type u) (ρ : Type v) where
  reservoir : ρ
  w : Weights R
  samplesTrained : Nat := 0
  lastError : R
  version : Nat := 0

structure TrainingPipeline (R : Type u) (ρ : Type v) where
  trainer : OnlineTrainer R ρ
  checkpoints : List (Checkpoint R) := []
  latest : Nat := 0
  deployed : Nat := 0
  maxValidationMSE : R

section

variable {R : Type u} {ρ : Type v} (f : Float64 R)
-- `EchoStateReservoir.Update`, which returns the state it has come to
variable (update : ρ → List R → ρ × List R)

/-! ### The trainer -/

/-- `TrainSample`, with the weights and the error that it comes to. -/
def OnlineTrainer.trainSample (t : OnlineTrainer R ρ) (reservoir : ρ) (w : Weights R) (lastError : R) :
    OnlineTrainer R ρ :=
  { reservoir, w, lastError, samplesTrained := t.samplesTrained + 1, version := t.version + 1 }

def OnlineTrainer.loadWeights (t : OnlineTrainer R ρ) (weights : Weights R) (samples : Nat)
    (lastError : R) (version : Nat) : OnlineTrainer R ρ :=
  { t with
    w := weights
    samplesTrained := samples
    lastError
    version := if version > t.version then version else t.version }

def dot (a b : List R) : R :=
  (a.zip b).foldl (fun s x => f.add s (f.mul x.1 x.2)) (f.ofNat 0)

def OnlineTrainer.predictWith (t : OnlineTrainer R ρ) (weights : Weights R) (input : List R) :
    OnlineTrainer R ρ × List R :=
  let (reservoir, state) := update t.reservoir input
  let phi := state ++ [f.ofNat 1]
  ({ t with reservoir }, weights.map fun row => dot f row phi)

/-- The loop of `heldOutMSE`, from the sum and the number of the errors so far. -/
def heldOutErrors (weights : Weights R) (t : OnlineTrainer R ρ) :
    List (ValidationSample R) → (sum : R) → (n : Nat) → OnlineTrainer R ρ × R × Nat
  | [], sum, n => (t, sum, n)
  | s :: heldOut, sum, n =>
    let (t, pred) := t.predictWith f update weights s.input
    if pred.length ≠ s.target.length then heldOutErrors weights t heldOut sum n
    else
      let errors := (s.target.zip pred).map fun x => f.sub x.1 x.2
      heldOutErrors weights t heldOut (errors.foldl (fun sum d => f.add sum (f.mul d d)) sum)
        (n + errors.length)

def heldOutMSE (weights : Weights R) (t : OnlineTrainer R ρ) (heldOut : List (ValidationSample R)) :
    OnlineTrainer R ρ × R :=
  match heldOutErrors f update weights t heldOut (f.ofNat 0) 0 with
  | (t, _, 0) => (t, f.nan)
  | (t, sum, n) => (t, f.div sum (f.ofNat n))

/-! ### The pipeline -/

namespace TrainingPipeline

def get (p : TrainingPipeline R ρ) (version : Nat) : Option (Checkpoint R) :=
  p.checkpoints.find? fun cp => cp.version = version

/-- `p.checkpoints[cp.Version] = cp` -/
def set (p : TrainingPipeline R ρ) (cp : Checkpoint R) : TrainingPipeline R ρ :=
  { p with checkpoints := cp :: p.checkpoints.filter fun cp' => cp'.version ≠ cp.version }

def checkpoint (p : TrainingPipeline R ρ) : TrainingPipeline R ρ × Checkpoint R :=
  let t := p.trainer
  let cp : Checkpoint R := ⟨t.version, t.w, t.samplesTrained, t.lastError, none⟩
  let first := p.checkpoints.isEmpty
  ({ p.set cp with
    latest := t.version
    deployed := if first then t.version else p.deployed }, cp)

/-- Whether an error is within the gate of `Validate`. -/
def promotes (p : TrainingPipeline R ρ) (heldOut : List (ValidationSample R)) (mse : R) : Bool :=
  !heldOut.isEmpty && !f.isNaN mse && f.le mse p.maxValidationMSE

def validate (p : TrainingPipeline R ρ) (version : Nat) (heldOut : List (ValidationSample R)) :
    TrainingPipeline R ρ × Option (Checkpoint R) :=
  match p.get version with
  | none => (p, none)
  | some cp =>
    let (trainer, mse) := heldOutMSE f update cp.weights p.trainer heldOut
    let cp := { cp with heldOutMSE := some mse }
    ({ p.set cp with
      trainer
      deployed := if p.promotes f heldOut mse then version else p.deployed }, some cp)

def reload (p : TrainingPipeline R ρ) (version : Nat) : TrainingPipeline R ρ × Bool :=
  match p.get version with
  | none => (p, false)
  | some cp =>
    ({ p with trainer := p.trainer.loadWeights cp.weights cp.samples cp.trainError cp.version }, true)

end TrainingPipeline

/-! ### Runs -/

inductive Event (R : Type u) (ρ : Type v)
  | train (reservoir : ρ) (w : Weights R) (lastError : R)
  | checkpoint
  | validate (version : Nat) (heldOut : List (ValidationSample R))
  | reload (version : Nat)

/-- The pipeline, and what has been seen of it. -/
structure History (R : Type u) (ρ : Type v) where
  pipeline : TrainingPipeline R ρ
  /-- the versions and the weights that the trainer has had -/
  states : List (Nat × Weights R)
  /-- what `Checkpoint` has returned, the last one first -/
  returned : List (Nat × Weights R) := []
  /-- the weights that passed `Validate` -/
  passed : List (Weights R) := []

def start (t : OnlineTrainer R ρ) (maxValidationMSE : R) : History R ρ where
  pipeline := { trainer := t, maxValidationMSE }
  states := [(t.version, t.w)]

/-- The pipeline after a step that may have changed the weights. -/
def History.see (h : History R ρ) (p : TrainingPipeline R ρ) : History R ρ :=
  { h with pipeline := p, states := (p.trainer.version, p.trainer.w) :: h.states }

def History.step (h : History R ρ) : Event R ρ → History R ρ
  | .train reservoir w lastError =>
    h.see { h.pipeline with trainer := h.pipeline.trainer.trainSample reservoir w lastError }
  | .checkpoint =>
    let (pipeline, cp) := h.pipeline.checkpoint
    { h with pipeline, returned := (cp.version, cp.weights) :: h.returned }
  | .validate version heldOut =>
    match h.pipeline.validate f update version heldOut with
    | (pipeline, none) => { h with pipeline }
    | (pipeline, some cp) =>
      { h with
        pipeline
        passed := if cp.heldOutMSE.any (h.pipeline.promotes f heldOut) then cp.weights :: h.passed
          else h.passed }
  | .reload version => h.see (h.pipeline.reload version).1

def History.run (h : History R ρ) (es : List (Event R ρ)) : History R ρ :=
  es.foldl (History.step f update) h

end

/-! ### What is kept of the checkpoints -/

variable {R : Type u} {ρ : Type v} {f : Float64 R} {update : ρ → List R → ρ × List R}
variable {h : History R ρ}

/-- A checkpoint that was returned is stored as it was, and the deployed one is the first one or has
passed the gate. -/
structure Stored (h : History R ρ) : Prop where
  immutable : ∀ v w, (v, w) ∈ h.returned → ∃ cp, h.pipeline.get v = some cp ∧ cp.weights = w
  deployed : h.returned ≠ [] → ∃ cp, h.pipeline.get h.pipeline.deployed = some cp ∧
    ((∃ v, h.returned.getLast? = some (v, cp.weights)) ∨ cp.weights ∈ h.passed)

structure Kept (h : History R ρ) : Prop extends Stored h where
  distinct : ∀ v w w', (v, w) ∈ h.states → (v, w') ∈ h.states → w = w'

/-- A checkpoint of a version that is stored already has the weights that are stored. -/
def FreshCheckpoint (h : History R ρ) : Event R ρ → Prop
  | .checkpoint => ∀ cp, h.pipeline.get h.pipeline.trainer.version = some cp →
      cp.weights = h.pipeline.trainer.w
  | _ => True

/-- A reload loads the weights that the trainer has. -/
def IdleReload (h : History R ρ) : Event R ρ → Prop
  | .reload version => ∀ cp, h.pipeline.get version = some cp → cp.weights = h.pipeline.trainer.w
  | _ => True

/-- What is in the pipeline has been seen. -/
structure Seen (h : History R ρ) : Prop where
  trainer : (h.pipeline.trainer.version, h.pipeline.trainer.w) ∈ h.states
  le : ∀ s ∈ h.states, s.1 ≤ h.pipeline.trainer.version
  stored : ∀ cp ∈ h.pipeline.checkpoints, (cp.version, cp.weights) ∈ h.states
  empty : h.returned = [] ↔ h.pipeline.checkpoints = []

theorem TrainingPipeline.mem_of_get {p : TrainingPipeline R ρ} {v : Nat} {cp : Checkpoint R}
    (h : p.get v = some cp) : cp ∈ p.checkpoints ∧ cp.version = v :=
  ⟨List.mem_of_find?_eq_some h, by simpa using List.find?_some h⟩

theorem TrainingPipeline.get_set (p : TrainingPipeline R ρ) (cp : Checkpoint R) (v : Nat) :
    (p.set cp).get v = if v = cp.version then some cp else p.get v := by
  rw [get, set, List.find?_cons]
  split
  · rename_i heq
    rw [if_pos (of_decide_eq_true heq).symm]
  · rename_i hne
    have hne : cp.version ≠ v := of_decide_eq_false hne
    rw [if_neg (Ne.symm hne), List.find?_filter, get]
    congr 1
    funext cp'
    by_cases heq : cp'.version = v
    · simp [heq, Ne.symm hne]
    · simp [heq]

@[simp] theorem TrainingPipeline.set_trainer (p : TrainingPipeline R ρ) (cp : Checkpoint R) :
    (p.set cp).trainer = p.trainer := rfl

theorem TrainingPipeline.mem_set {p : TrainingPipeline R ρ} {cp cp' : Checkpoint R}
    (h : cp' ∈ (p.set cp).checkpoints) : cp' = cp ∨ cp' ∈ p.checkpoints := by
  rcases List.mem_cons.mp h with rfl | h
  · exact .inl rfl
  · exact .inr (List.mem_of_mem_filter h)

/-! ### Validation -/

variable (f update) in
theorem heldOutErrors_trainer (weights : Weights R) (heldOut : List (ValidationSample R))
    (t : OnlineTrainer R ρ) (sum : R) (n : Nat) :
    (heldOutErrors f update weights t heldOut sum n).1.version = t.version ∧
      (heldOutErrors f update weights t heldOut sum n).1.w = t.w := by
  induction heldOut generalizing t sum n with
  | nil => exact ⟨rfl, rfl⟩
  | cons s heldOut ih =>
    rw [heldOutErrors]
    dsimp only
    split
    · exact ih ..
    · exact ih ..

variable (f update) in
/-- Scoring a checkpoint leaves the version and the weights of the trainer alone. -/
theorem heldOutMSE_trainer (weights : Weights R) (t : OnlineTrainer R ρ)
    (heldOut : List (ValidationSample R)) :
    (heldOutMSE f update weights t heldOut).1.version = t.version ∧
      (heldOutMSE f update weights t heldOut).1.w = t.w := by
  have same := heldOutErrors_trainer f update weights heldOut t (f.ofNat 0) 0
  rw [heldOutMSE]
  split
  · rename_i heq
    rwa [heq] at same
  · rename_i heq
    rwa [heq] at same

variable (f update) in
theorem History.step_validate (h : History R ρ) (version : Nat)
    (heldOut : List (ValidationSample R)) :
    h.pipeline.get version = none ∧ h.step f update (.validate version heldOut) = h ∨
    ∃ cp mse trainer, h.pipeline.get version = some cp ∧
      trainer.version = h.pipeline.trainer.version ∧ trainer.w = h.pipeline.trainer.w ∧
      h.step f update (.validate version heldOut) =
        { h with
          pipeline := { h.pipeline.set { cp with heldOutMSE := some mse } with
            trainer
            deployed := if h.pipeline.promotes f heldOut mse then version else h.pipeline.deployed }
          passed := if h.pipeline.promotes f heldOut mse then cp.weights :: h.passed
            else h.passed } := by
  cases hget : h.pipeline.get version with
  | none =>
    refine .inl ⟨rfl, ?_⟩
    simp only [step, TrainingPipeline.validate, hget]
  | some cp =>
    obtain ⟨hversion, hw⟩ :=
      heldOutMSE_trainer f update cp.weights h.pipeline.trainer heldOut
    refine .inr ⟨cp, (heldOutMSE f update cp.weights h.pipeline.trainer heldOut).2, _, rfl, hversion,
      hw, ?_⟩
    simp only [step, TrainingPipeline.validate, hget, Option.any_some]

theorem Seen.start (t : OnlineTrainer R ρ) (maxValidationMSE : R) :
    Seen (start t maxValidationMSE) where
  trainer := List.mem_cons_self
  le s hs := by
    obtain rfl := List.mem_singleton.mp hs
    exact Nat.le_refl _
  stored := by simp [Reservoir.start]
  empty := by simp [Reservoir.start]

theorem Seen.step (seen : Seen h) (e : Event R ρ) : Seen (h.step f update e) := by
  cases e with
  | train reservoir w lastError =>
    refine ⟨List.mem_cons_self, fun s hs => ?_, fun cp hcp =>
      List.mem_cons_of_mem _ (seen.stored cp hcp), seen.empty⟩
    rcases List.mem_cons.mp hs with rfl | hs
    · exact Nat.le_refl _
    · exact Nat.le_succ_of_le (seen.le s hs)
  | checkpoint =>
    refine ⟨seen.trainer, seen.le, fun cp hcp => ?_, iff_of_false (List.cons_ne_nil _ _) (List.cons_ne_nil _ _)⟩
    rcases TrainingPipeline.mem_set hcp with rfl | hcp
    · exact seen.trainer
    · exact seen.stored cp hcp
  | validate version heldOut =>
    rcases h.step_validate f update version heldOut with
      ⟨-, heq⟩ | ⟨cp, mse, trainer, hget, hversion, hw, heq⟩
    · rwa [heq]
    · rw [heq]
      have hne := List.ne_nil_of_mem (TrainingPipeline.mem_of_get hget).1
      refine ⟨?_, fun s hs => ?_, fun cp' hcp' => ?_,
        iff_of_false (mt seen.empty.mp hne) (List.cons_ne_nil _ _)⟩
      · change (trainer.version, trainer.w) ∈ h.states
        rw [hversion, hw]
        exact seen.trainer
      · change s.1 ≤ trainer.version
        rw [hversion]
        exact seen.le s hs
      · rcases TrainingPipeline.mem_set hcp' with rfl | hcp'
        · exact seen.stored cp (TrainingPipeline.mem_of_get hget).1
        · exact seen.stored cp' hcp'
  | reload version =>
    rw [History.step, TrainingPipeline.reload]
    cases hget : h.pipeline.get version with
    | none =>
      refine ⟨List.mem_cons_self, fun s hs => ?_, fun cp hcp =>
        List.mem_cons_of_mem _ (seen.stored cp hcp), seen.empty⟩
      rcases List.mem_cons.mp hs with rfl | hs
      · exact Nat.le_refl _
      · exact seen.le s hs
    | some cp =>
      refine ⟨List.mem_cons_self, fun s hs => ?_, fun cp hcp =>
        List.mem_cons_of_mem _ (seen.stored cp hcp), seen.empty⟩
      rcases List.mem_cons.mp hs with rfl | hs
      · exact Nat.le_refl _
      · have hle := seen.le s hs
        simp only [History.see, OnlineTrainer.loadWeights]
        split
        · omega
        · exact hle

variable (f update) in
/-- The trainer keeps its version when it is reloaded. -/
theorem Seen.reload (seen : Seen h) {version : Nat} {cp : Checkpoint R}
    (hget : h.pipeline.get version = some cp) :
    (h.step f update (.reload version)).pipeline.trainer.version = h.pipeline.trainer.version ∧
      (h.step f update (.reload version)).pipeline.trainer.w = cp.weights := by
  have hle := seen.le _ (seen.stored cp (TrainingPipeline.mem_of_get hget).1)
  simp only [History.step, TrainingPipeline.reload, hget, History.see, OnlineTrainer.loadWeights]
  exact ⟨if_neg (Nat.not_lt.mpr hle), trivial⟩

/-! ### What a step keeps -/

theorem Stored.start (t : OnlineTrainer R ρ) (maxValidationMSE : R) :
    Stored (start t maxValidationMSE) :=
  ⟨by simp [Reservoir.start], by simp [Reservoir.start]⟩

/-- A step that leaves the checkpoints alone. -/
theorem Stored.congr {h' : History R ρ} (stored : Stored h)
    (checkpoints : h'.pipeline.checkpoints = h.pipeline.checkpoints)
    (deployed : h'.pipeline.deployed = h.pipeline.deployed) (returned : h'.returned = h.returned)
    (passed : h'.passed = h.passed) : Stored h' := by
  have hget (v : Nat) : h'.pipeline.get v = h.pipeline.get v := by
    rw [TrainingPipeline.get, checkpoints, TrainingPipeline.get]
  constructor
  · simp only [returned, hget]
    exact stored.immutable
  · simp only [returned, hget, deployed, passed]
    exact stored.deployed

/-- The weights that are stored under a version, when a checkpoint with these weights is set. -/
theorem TrainingPipeline.get_set_weights {p : TrainingPipeline R ρ} (cp : Checkpoint R) {v : Nat}
    {w : Weights R} (same : ∀ cp', p.get cp.version = some cp' → cp'.weights = cp.weights)
    (hget : ∃ cp', p.get v = some cp' ∧ cp'.weights = w) :
    ∃ cp', (p.set cp).get v = some cp' ∧ cp'.weights = w := by
  obtain ⟨cp', hget, rfl⟩ := hget
  rw [get_set]
  split
  · rename_i heq
    exact ⟨cp, rfl, (same cp' (heq ▸ hget)).symm⟩
  · exact ⟨cp', hget, rfl⟩

theorem Stored.step (stored : Stored h) (seen : Seen h) {e : Event R ρ} (fresh : FreshCheckpoint h e) :
    Stored (h.step f update e) := by
  cases e with
  | train reservoir w lastError => exact stored.congr rfl rfl rfl rfl
  | reload version =>
    have same (p : TrainingPipeline R ρ) (hp : p = (h.pipeline.reload version).1) :
        p.checkpoints = h.pipeline.checkpoints ∧ p.deployed = h.pipeline.deployed := by
      rw [hp, TrainingPipeline.reload]
      split <;> exact ⟨rfl, rfl⟩
    exact stored.congr (same _ rfl).1 (same _ rfl).2 rfl rfl
  | checkpoint =>
    constructor
    case immutable =>
      intro v w hmem
      rcases List.mem_cons.mp hmem with heq | hmem
      · cases heq
        exact ⟨_, (TrainingPipeline.get_set ..).trans (if_pos rfl), rfl⟩
      · exact TrainingPipeline.get_set_weights h.pipeline.checkpoint.2 fresh (stored.immutable v w hmem)
    case deployed =>
      intro _
      cases hnil : h.pipeline.checkpoints with
      | nil =>
        -- the first one becomes the baseline
        have hdeployed : (h.step f update .checkpoint).pipeline.deployed =
            h.pipeline.trainer.version := by
          simp [History.step, TrainingPipeline.checkpoint, hnil]
        have hreturned : (h.step f update .checkpoint).returned =
            [(h.pipeline.trainer.version, h.pipeline.trainer.w)] := by
          simp [History.step, TrainingPipeline.checkpoint, seen.empty.mpr hnil]
        rw [hdeployed, hreturned]
        exact ⟨_, (TrainingPipeline.get_set ..).trans (if_pos rfl), .inl ⟨_, rfl⟩⟩
      | cons cp cps =>
        have hne : h.returned ≠ [] := fun hnone => List.cons_ne_nil cp cps
          (hnil.symm.trans (seen.empty.mp hnone))
        have hdeployed : (h.step f update .checkpoint).pipeline.deployed = h.pipeline.deployed := by
          simp [History.step, TrainingPipeline.checkpoint, hnil]
        obtain ⟨cp₀, hget, hfrom⟩ := stored.deployed hne
        obtain ⟨cp', hget', hw⟩ := TrainingPipeline.get_set_weights h.pipeline.checkpoint.2 fresh
          ⟨cp₀, hget, rfl⟩
        rw [hdeployed]
        refine ⟨cp', hget', ?_⟩
        rw [hw]
        refine hfrom.imp_left fun ⟨v, hlast⟩ => ⟨v, ?_⟩
        exact (List.getLast?_cons_of_ne_nil hne).trans hlast
  | validate version heldOut =>
    rcases h.step_validate f update version heldOut with
      ⟨-, heq⟩ | ⟨cp, mse, trainer, hget, -, -, heq⟩
    · rwa [heq]
    · rw [heq]
      obtain ⟨hmem, rfl⟩ := TrainingPipeline.mem_of_get hget
      have same (cp' : Checkpoint R) (hget' : h.pipeline.get cp.version = some cp') :
          cp'.weights = cp.weights := by
        rw [Option.some.inj (hget.symm.trans hget')]
      constructor
      case immutable =>
        intro v w hvw
        exact TrainingPipeline.get_set_weights { cp with heldOutMSE := some mse } same
          (stored.immutable v w hvw)
      case deployed =>
        intro hne
        cases hpass : h.pipeline.promotes f heldOut mse with
        | true =>
          refine ⟨_, (TrainingPipeline.get_set ..).trans (if_pos rfl), .inr ?_⟩
          exact List.mem_cons_self
        | false =>
          obtain ⟨cp₀, hget₀, hfrom⟩ := stored.deployed hne
          obtain ⟨cp', hget', hw⟩ := TrainingPipeline.get_set_weights
            { cp with heldOutMSE := some mse } same ⟨cp₀, hget₀, rfl⟩
          refine ⟨cp', hget', ?_⟩
          rw [hw]
          exact hfrom

theorem Kept.start (t : OnlineTrainer R ρ) (maxValidationMSE : R) :
    Kept (start t maxValidationMSE) where
  toStored := .start t maxValidationMSE
  distinct v w w' hw hw' := by
    cases List.mem_singleton.mp hw
    cases List.mem_singleton.mp hw'
    rfl

/-- The trainer has the weights that are stored under its version. -/
theorem Kept.fresh (kept : Kept h) (seen : Seen h) (e : Event R ρ) : FreshCheckpoint h e := by
  cases e with
  | checkpoint =>
    intro cp hget
    obtain ⟨hmem, hversion⟩ := TrainingPipeline.mem_of_get hget
    have hstored := seen.stored cp hmem
    rw [hversion] at hstored
    exact kept.distinct _ _ _ hstored seen.trainer
  | _ => trivial

theorem Kept.step (kept : Kept h) (seen : Seen h) {e : Event R ρ} (idle : IdleReload h e) :
    Kept (h.step f update e) := by
  refine ⟨kept.toStored.step seen (kept.fresh seen e), ?_⟩
  -- a state that has been seen already
  have again (p : TrainingPipeline R ρ) (hp : (p.trainer.version, p.trainer.w) ∈ h.states) (v : Nat)
      (w w' : Weights R) (hw : (v, w) ∈ (h.see p).states) (hw' : (v, w') ∈ (h.see p).states) :
      w = w' := by
    have old {s : Nat × Weights R} (hs : s ∈ (h.see p).states) : s ∈ h.states := by
      rcases List.mem_cons.mp hs with rfl | hs
      · exact hp
      · exact hs
    exact kept.distinct v w w' (old hw) (old hw')
  cases e with
  | train reservoir w lastError =>
    intro v w₁ w₂ h₁ h₂
    have newer {w' : Weights R} (hmem : (h.pipeline.trainer.version + 1, w') ∈ h.states) : False :=
      absurd (seen.le _ hmem) (Nat.not_le.mpr (Nat.lt_succ_self _))
    rcases List.mem_cons.mp h₁ with h₁ | h₁ <;> rcases List.mem_cons.mp h₂ with h₂ | h₂
    · cases h₁
      cases h₂
      rfl
    · cases h₁
      exact (newer h₂).elim
    · cases h₂
      exact (newer h₁).elim
    · exact kept.distinct v w₁ w₂ h₁ h₂
  | checkpoint => exact kept.distinct
  | validate version heldOut =>
    rcases h.step_validate f update version heldOut with
      ⟨-, heq⟩ | ⟨cp, mse, trainer, -, -, -, heq⟩
    · rw [heq]
      exact kept.distinct
    · rw [heq]
      exact kept.distinct
  | reload version =>
    refine again _ ?_
    cases hget : h.pipeline.get version with
    | none =>
      rw [TrainingPipeline.reload, hget]
      exact seen.trainer
    | some cp =>
      obtain ⟨hversion, hw⟩ := seen.reload f update hget
      have hsame : (h.step f update (.reload version)).pipeline = (h.pipeline.reload version).1 := rfl
      rw [← hsame, hversion, hw, idle cp hget]
      exact seen.trainer

variable (f update) in
theorem History.states_step (h : History R ρ) (e : Event R ρ) :
    h.states ⊆ (h.step f update e).states := by
  cases e with
  | train => exact List.subset_cons_self ..
  | checkpoint => exact List.Subset.refl _
  | validate version heldOut =>
    rcases h.step_validate f update version heldOut with
      ⟨-, heq⟩ | ⟨cp, mse, trainer, -, -, -, heq⟩
    · rw [heq]
      exact List.Subset.refl _
    · rw [heq]
      exact List.Subset.refl _
  | reload => exact List.subset_cons_self ..

variable (f update) in
theorem History.states_run (h : History R ρ) (es : List (Event R ρ)) :
    h.states ⊆ (h.run f update es).states := by
  induction es generalizing h with
  | nil => exact List.Subset.refl _
  | cons e es ih => exact List.Subset.trans (h.states_step f update e) (ih _)

/-- Where versions stand for one weight state each, no reload has changed the weights. -/
theorem Seen.idle {es : List (Event R ρ)} (seen : Seen h) (kept : Kept (h.run f update es)) :
    Along (History.step f update) IdleReload h es := by
  induction es generalizing h with
  | nil => trivial
  | cons e es ih =>
    refine ⟨?_, ih (seen.step e) kept⟩
    cases e with
    | reload version =>
      intro cp hget
      obtain ⟨hversion, hw⟩ := seen.reload f update hget
      have after : (h.pipeline.trainer.version, cp.weights) ∈
          (h.step f update (.reload version)).states := by
        rw [← hversion, ← hw]
        exact List.mem_cons_self
      have hall := (h.step f update (.reload version)).states_run f update es
      exact kept.distinct _ _ _ (hall after) (hall (h.states_step f update _ seen.trainer))
    | _ => trivial

/-- In every run, the checkpoints are immutable, a version stands for one weight state, and what is
deployed is the first checkpoint or has passed the gate, exactly when each reload loads the weights
that the trainer has. -/
theorem run_kept_iff (t : OnlineTrainer R ρ) (maxValidationMSE : R) (es : List (Event R ρ)) :
    Kept ((start t maxValidationMSE).run f update es) ↔
      Along (History.step f update) IdleReload (start t maxValidationMSE) es := by
  constructor
  · exact (Seen.start t maxValidationMSE).idle
  · intro idle
    have both := idle.foldl (I := fun h => Seen h ∧ Kept h)
      (fun h e ⟨seen, kept⟩ hidle => ⟨seen.step e, kept.step seen hidle⟩)
      ⟨.start t maxValidationMSE, .start t maxValidationMSE⟩
    exact both.2

def integers : Float64 Int :=
  ⟨(· + ·), (· - ·), (· * ·), (· / ·), Int.ofNat, 0, fun _ => false, fun a b => decide (a ≤ b)⟩

/-- The weights of version 1 are loaded again and stored under version 2. -/
theorem reloaded_overwritten : ¬Kept ((start (R := Int) ⟨(), [[0]], 0, 0, 0⟩ 0).run integers
    (fun r input => (r, input)) [.train () [[1]] 0, .checkpoint, .train () [[2]] 0, .checkpoint,
      .reload 1, .checkpoint]) := by
  intro kept
  obtain ⟨cp, hget, hw⟩ := kept.immutable 2 [[2]] (by decide)
  have hstored : ((start (R := Int) ⟨(), [[0]], 0, 0, 0⟩ 0).run integers (fun r input => (r, input))
      [.train () [[1]] 0, .checkpoint, .train () [[2]] 0, .checkpoint, .reload 1,
        .checkpoint]).pipeline.get 2 = some ⟨2, [[1]], 1, 0, none⟩ := rfl
  obtain rfl := Option.some.inj (hstored.symm.trans hget)
  exact absurd hw (by decide)

end Ecco9.Reservoir
