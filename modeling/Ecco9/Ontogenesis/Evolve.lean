import Ecco9.Ontogenesis.Engine
import Mathlib.Logic.Relation

/-! Any number of `SubmitGenome`, `ObserveTrainingMetrics` and `Evolve` calls: a step is a locked
section of one of them, or what `Evolve` does of its own between two sections. -/

namespace Ecco9.Ontogenesis

open Ecco9.Library

/-- What is drawn for one child. -/
structure Breeding (R : Type) where
  first : Nat → Nat
  second : Nat → Nat
  crosses : Nat → R
  mutates : Nat → R
  norms : Nat → R
  now : Nat

/-- An `Evolve` call: its generation, and the next one as far as it is bred. -/
structure Evolving (R : Type) where
  job : Text
  populationSize : Nat
  generations : Nat
  mutationRate : R
  gen : Nat := 0
  pop : List (Genome R)
  next : Option (List (Genome R)) := none
  best : Option (Genome R) := none
  deriving DecidableEq

/-- The engine and the `Evolve` calls in progress. -/
structure System (R : Type) where
  engine : Engine R
  evolving : List (Evolving R) := []
  deriving DecidableEq

/-- What an `Evolve` does between its first and its last section. -/
inductive Action (R : Type)
  | rank
  | child (b : Breeding R)
  | endGeneration

inductive Event (R : Type)
  | submit (g : Genome R) (now : Nat)
  | observe (tm : TrainingMetrics R) (now : Nat)
  | evolve (populationSize generations : Nat) (mutationRate : R) (now : Nat) (draws : Nat → Nat → R)
  | act (v : Evolving R) (a : Action R)
  | publish (v : Evolving R)

/-- An operation, without what is drawn in it. -/
inductive Request (R : Type)
  | submit (g : Genome R)
  | observe (tm : TrainingMetrics R)
  | evolve (populationSize generations : Nat) (mutationRate : R)

def Event.request : Event R → Option (Request R)
  | .submit g _ => some (.submit g)
  | .observe tm _ => some (.observe tm)
  | .evolve populationSize generations mutationRate _ _ =>
    some (.evolve populationSize generations mutationRate)
  | .act .. => none
  | .publish _ => none

section

variable {R : Type} (f : Float64 R) (S : SortFunc)

def Engine.setJob (e : Engine R) (id : Text) (g : EvolutionJob R → EvolutionJob R) : Engine R :=
  { e with jobs := e.jobs.map fun job => if job.id = id then g job else job }

/-- The first section of `Evolve`. -/
def Engine.seed (e : Engine R) (populationSize generations : Nat) (mutationRate : R) (now : Nat)
    (draws : Nat → Nat → R) : Engine R × Evolving R :=
  let counter := e.counter + 1
  let job := makeID (ascii "evolve") now counter
  let fill := populationSize - e.population.length
  ({ e with counter, jobs := e.jobs ++ [{ id := job, running := true, generations }] },
    { job, populationSize, generations, mutationRate
      pop := e.population ++ (List.range fill).map fun i => randomGenome f (draws i) })

def evaluate (g : Genome R) : Genome R := { g with fitness := fitnessOf f g.genes }

def rankAll (pop : List (Genome R)) : List (Genome R) :=
  S.slice (fun a b => f.lt b.fitness a.fitness) (pop.map (evaluate f))

/-- A child, without its id. -/
def breed (pop : List (Genome R)) (mutationRate : R) (b : Breeding R) : Option (Genome R) :=
  match tournamentSelect f pop ((List.range 3).map b.first),
    tournamentSelect f pop ((List.range 3).map b.second) with
  | some p1, some p2 =>
    let child := p1.crossover f p2 b.crosses
    let child := if f.lt f.zero mutationRate then { child with mutationRate } else child
    some (child.mutate f b.mutates b.norms)
  -- the method is called on `nil`
  | _, _ => none

/-- One turn of the loops of `Evolve`. -/
def Evolving.act (e : Engine R) (v : Evolving R) : Action R → Option (Engine R × Evolving R)
  | .rank =>
    match v.next, rankAll f S v.pop with
    | none, best :: rest =>
      if v.gen < v.generations then some (e, { v with pop := best :: rest, next := some [best] })
      else none
    | _, _ => none
  | .child b =>
    match v.next, breed f v.pop v.mutationRate b with
    | some next, some child =>
      if next.length < v.populationSize then
        let counter := e.counter + 1
        let child := { child with id := makeID (ascii "genome") b.now counter }
        some ({ e with counter }, { v with next := some (next ++ [child]) })
      else none
    | _, _ => none
  | .endGeneration =>
    match v.next with
    | some (best :: rest) =>
      if v.populationSize ≤ (best :: rest).length then
        some (e.setJob v.job fun job =>
            { job with currentGeneration := v.gen + 1, best := some best },
          { v with pop := best :: rest, gen := v.gen + 1, next := none, best := some best })
      else none
    | _ => none

/-- The last section of `Evolve`. -/
def Evolving.publish (e : Engine R) (v : Evolving R) : Option (Engine R) :=
  match v.next, v.best with
  | none, some best =>
    if v.gen = v.generations then
      let e := e.setJob v.job fun job => { job with running := false }
      some (({ e with population := v.pop }.nudge f best.fitness).updateActualization f)
    else none
  | _, _ => none

variable [DecidableEq R]

def System.step (s : System R) : Event R → Option (System R)
  | .submit g now => some { s with engine := s.engine.submitGenome f g now }
  | .observe tm now => some { s with engine := s.engine.observeTrainingMetrics f tm now }
  | .evolve populationSize generations mutationRate now draws =>
    let (engine, v) := s.engine.seed f populationSize generations mutationRate now draws
    some ⟨engine, v :: s.evolving⟩
  | .act v a =>
    if v ∈ s.evolving then
      (v.act f S s.engine a).map fun (engine, v') => ⟨engine, v' :: s.evolving.erase v⟩
    else none
  | .publish v =>
    if v ∈ s.evolving then
      (v.publish f s.engine).map fun engine => ⟨engine, s.evolving.erase v⟩
    else none

/-! ### One operation after another -/

/-- What one operation does when no other one is in progress. -/
def Performs (e : Engine R) : Request R → Engine R → Prop
  | .submit g, e' => ∃ now, e' = e.submitGenome f g now
  | .observe tm, e' => ∃ now, e' = e.observeTrainingMetrics f tm now
  | .evolve populationSize generations mutationRate, e' =>
    ∃ now draws e₁ v, Relation.ReflTransGen
        (fun (x y : Engine R × Evolving R) => ∃ a, x.2.act f S x.1 a = some y)
        (e.seed f populationSize generations mutationRate now draws) (e₁, v) ∧
      v.publish f e₁ = some e'

/-- What operations do one after another, for some of what is drawn in them. -/
def Serial (e : Engine R) : List (Request R) → Engine R → Prop
  | [], e' => e' = e
  | r :: rs, e' => ∃ e₁, Performs f S e r e₁ ∧ Serial e₁ rs e'

/-- Nothing is added to the population, and no other one takes its place, while an `Evolve` is in
progress. -/
def System.Careful (s : System R) : Event R → Prop
  | .submit .. => s.evolving = []
  | .observe .. => s.evolving = []
  | .publish v => s.evolving.erase v = []
  | _ => True

/-- A run in which every step is careful. -/
inductive CarefulRun : System R → List (Event R) → System R → Prop
  | nil (s : System R) : CarefulRun s [] s
  | cons {s s' t : System R} {e : Event R} {es : List (Event R)} (careful : s.Careful e)
      (step : s.step f S e = some s') (run : CarefulRun s' es t) : CarefulRun s (e :: es) t

end

section

variable {R : Type} {f : Float64 R} {S : SortFunc} [DecidableEq R] {s s' t : System R}

/-! ### Runs are serial -/

/-- Two calls of `Evolve` at once never end. -/
theorem CarefulRun.stuck {es : List (Event R)} (run : CarefulRun f S s es t)
    (two : 2 ≤ s.evolving.length) : t.evolving ≠ [] := by
  induction run with
  | nil s =>
    intro hnil
    rw [hnil] at two
    cases two
  | @cons s s' t e es careful step run ih =>
    apply ih
    cases e with
    | submit g now =>
      rw [show s.evolving = [] from careful] at two
      cases two
    | observe tm now =>
      rw [show s.evolving = [] from careful] at two
      cases two
    | evolve populationSize generations mutationRate now draws =>
      cases step
      exact Nat.le_succ_of_le two
    | act v a =>
      simp only [System.step] at step
      split at step
      case isFalse => cases step
      case isTrue hv =>
        obtain ⟨r, -, rfl⟩ := Option.map_eq_some_iff.mp step
        have hlen := List.length_erase_of_mem hv
        simp only [List.length_cons]
        omega
    | publish v =>
      simp only [System.step] at step
      split at step
      case isFalse => cases step
      case isTrue hv =>
        have hlen := List.length_erase_of_mem hv
        rw [show s.evolving.erase v = [] from careful, List.length_nil] at hlen
        omega

/-- What is left of an `Evolve`, from `v` on. -/
def Finishes (f : Float64 R) (S : SortFunc) (e : Engine R) (v : Evolving R) (e' : Engine R) : Prop :=
  ∃ e₁ v₁, Relation.ReflTransGen
      (fun (x y : Engine R × Evolving R) => ∃ a, x.2.act f S x.1 a = some y) (e, v) (e₁, v₁) ∧
    v₁.publish f e₁ = some e'

/-- A run does its operations one after another, when no `Evolve` is in progress and when one is. -/
theorem CarefulRun.serial_from {es : List (Event R)} (run : CarefulRun f S s es t)
    (done : t.evolving = []) :
    (s.evolving = [] → Serial f S s.engine (es.filterMap Event.request) t.engine) ∧
    ∀ v, s.evolving = [v] → ∃ e', Finishes f S s.engine v e' ∧
      Serial f S e' (es.filterMap Event.request) t.engine := by
  induction run with
  | nil s =>
    refine ⟨fun _ => rfl, fun v hv => ?_⟩
    rw [done] at hv
    cases hv
  | @cons s s' t e es careful step run ih =>
    obtain ⟨ihIdle, ihOne⟩ := ih done
    cases e with
    | submit g now =>
      cases step
      refine ⟨fun idle => ⟨_, ⟨now, rfl⟩, ihIdle idle⟩, fun v hv => ?_⟩
      rw [show s.evolving = [] from careful] at hv
      cases hv
    | observe tm now =>
      cases step
      refine ⟨fun idle => ⟨_, ⟨now, rfl⟩, ihIdle idle⟩, fun v hv => ?_⟩
      rw [show s.evolving = [] from careful] at hv
      cases hv
    | evolve populationSize generations mutationRate now draws =>
      cases step
      constructor
      · intro idle
        obtain ⟨e', ⟨e₁, v₁, acts, published⟩, rest⟩ := ihOne _ (by rw [idle])
        exact ⟨e', ⟨now, draws, e₁, v₁, acts, published⟩, rest⟩
      · intro v hv
        refine absurd done (run.stuck ?_)
        rw [List.length_cons, hv]
        exact Nat.le_refl _
    | act v a =>
      simp only [System.step] at step
      split at step
      case isFalse => cases step
      case isTrue hv =>
        obtain ⟨r, hact, rfl⟩ := Option.map_eq_some_iff.mp step
        constructor
        · intro idle
          rw [idle] at hv
          cases hv
        · intro v₀ hone
          rw [hone] at hv
          obtain rfl := List.mem_singleton.mp hv
          obtain ⟨e', ⟨e₁, v₁, acts, published⟩, rest⟩ := ihOne r.2 (by rw [hone]; simp)
          exact ⟨e', ⟨e₁, v₁, .head ⟨a, hact⟩ acts, published⟩, rest⟩
    | publish v =>
      simp only [System.step] at step
      split at step
      case isFalse => cases step
      case isTrue hv =>
        obtain ⟨e', hpublish, rfl⟩ := Option.map_eq_some_iff.mp step
        constructor
        · intro idle
          rw [idle] at hv
          cases hv
        · intro v₀ hone
          rw [hone] at hv
          obtain rfl := List.mem_singleton.mp hv
          exact ⟨e', ⟨_, _, .refl, hpublish⟩, ihIdle careful⟩

/-! ### The fittest genome -/

/-- The same genome, perhaps evaluated anew. -/
def Same (x g : Genome R) : Prop := x = { g with fitness := x.fitness }

instance {R : Type} [DecidableEq R] (x g : Genome R) : Decidable (Same x g) :=
  inferInstanceAs (Decidable (_ = _))

/-- All genomes there are, also those that only an `Evolve` in progress knows. -/
def System.present (s : System R) : List (Genome R) :=
  s.engine.population ++ s.evolving.flatMap fun v => v.pop ++ v.next.getD []

/-- `g` is strictly fitter than all of them. -/
def Fittest (f : Float64 R) (g : Genome R) (pop : List (Genome R)) : Prop :=
  ∀ x ∈ pop, Same x g ∨ f.lt (fitnessOf f x.genes) (fitnessOf f g.genes) = true

instance {R : Type} [DecidableEq R] (f : Float64 R) (g : Genome R) (pop : List (Genome R)) :
    Decidable (Fittest f g pop) := inferInstanceAs (Decidable (∀ x ∈ pop, _))

/-- `g` is strictly fitter than all other genomes, in every state of a run. -/
def Dominates (f : Float64 R) (S : SortFunc) (g : Genome R) : System R → List (Event R) → Prop
  | s, [] => Fittest f g s.present
  | s, e :: es => Fittest f g s.present ∧ ∀ s', s.step f S e = some s' → Dominates f S g s' es

omit [DecidableEq R] in
theorem Same.evaluate {x g : Genome R} (h : Same x g) : Same (evaluate f x) g := by
  rw [Same] at h
  rw [h]
  rfl

omit [DecidableEq R] in
theorem Same.genes {x g : Genome R} (h : Same x g) : x.genes = g.genes := by
  rw [Same] at h
  rw [h]

omit [DecidableEq R] in
/-- Where two fitnesses compare, none is a NaN. -/
theorem Fittest.isNaN {g w : Genome R} {pop : List (Genome R)} (h : Fittest f g pop)
    (hg : f.isNaN (fitnessOf f g.genes) = false) (hw : w ∈ pop) :
    f.isNaN (fitnessOf f w.genes) = false := by
  rcases h w hw with same | hlt
  · rw [same.genes]
    exact hg
  · exact (f.isNaN_of_lt _ _ hlt).1

omit [DecidableEq R] in
/-- The fittest genome is ranked first. -/
theorem Fittest.rankAll {g best : Genome R} {pop rest : List (Genome R)} (h : Fittest f g pop)
    (hg : ∃ x ∈ pop, Same x g) (hrank : rankAll f S pop = best :: rest) : Same best g := by
  have perm : (best :: rest).Perm (pop.map (evaluate f)) := hrank ▸ S.slice_perm ..
  have number {y z w : Genome R} (hy : y ∈ pop.map (evaluate f)) (hz : z ∈ pop.map (evaluate f))
      (hw : w ∈ pop.map (evaluate f)) (hlt : f.lt y.fitness z.fitness = true) :
      f.isNaN w.fitness = false := by
    obtain ⟨z', hz', rfl⟩ := List.mem_map.mp hz
    obtain ⟨w', hw', rfl⟩ := List.mem_map.mp hw
    refine h.isNaN ?_ hw'
    rcases h z' hz' with same | hgt
    · rw [← same.genes]
      exact (f.isNaN_of_lt _ _ hlt).2
    · exact (f.isNaN_of_lt _ _ hgt).2
  have ordered : (best :: rest).Pairwise fun a b => f.lt a.fitness b.fitness = false := by
    rw [← hrank]
    refine S.slice_ordered (fun a _ b _ hab => f.lt_asymm _ _ hab) fun a ha b hb c hc hca => ?_
    exact (f.lt_cotrans _ _ _ (number ha hc hb hca) hca)
  obtain ⟨x, hx, same⟩ := hg
  have hmem : evaluate f x ∈ best :: rest := perm.mem_iff.mpr (List.mem_map_of_mem hx)
  obtain ⟨y, hy, rfl⟩ := List.mem_map.mp (perm.mem_iff.mp List.mem_cons_self)
  rcases h y hy with hsame | hlt
  · exact hsame.evaluate
  · rcases List.mem_cons.mp hmem with heq | hmem
    · rw [← heq]
      exact same.evaluate
    · have hle : f.lt (fitnessOf f y.genes) (fitnessOf f x.genes) = false :=
        List.rel_of_pairwise_cons ordered hmem
      rw [same.genes, hlt] at hle
      cases hle

/-- Wherever an `Evolve` or the engine has genomes, `g` is one of them. -/
structure Kept (g : Genome R) (s : System R) : Prop where
  population : ∃ x ∈ s.engine.population, Same x g
  pop : ∀ v ∈ s.evolving, ∃ x ∈ v.pop, Same x g
  next : ∀ v ∈ s.evolving, ∀ next, v.next = some next → ∃ x ∈ next, Same x g

omit [DecidableEq R] in
theorem exists_append {g : Genome R} {pop : List (Genome R)} (h : ∃ x ∈ pop, Same x g)
    (more : List (Genome R)) : ∃ x ∈ pop ++ more, Same x g :=
  h.imp fun _ hx => ⟨List.mem_append_left _ hx.1, hx.2⟩

omit [DecidableEq R] in
/-- What a turn of `Evolve` leaves of the engine's population, and of its own. -/
theorem Evolving.act_kept {g : Genome R} {e e' : Engine R} {v v' : Evolving R} {a : Action R}
    (h : v.act f S e a = some (e', v')) (fittest : Fittest f g v.pop)
    (pop : ∃ x ∈ v.pop, Same x g) (next : ∀ l, v.next = some l → ∃ x ∈ l, Same x g) :
    e'.population = e.population ∧ (∃ x ∈ v'.pop, Same x g) ∧
      ∀ l, v'.next = some l → ∃ x ∈ l, Same x g := by
  cases a with
  | rank =>
    simp only [Evolving.act] at h
    split at h
    case h_2 => cases h
    case h_1 best rest hnext hrank =>
      split at h
      case isFalse => cases h
      case isTrue =>
        cases h
        have same := fittest.rankAll pop hrank
        refine ⟨rfl, ⟨best, List.mem_cons_self, same⟩, fun l hl => ?_⟩
        cases hl
        exact ⟨best, List.mem_cons_self, same⟩
  | child b =>
    simp only [Evolving.act] at h
    split at h
    case h_2 => cases h
    case h_1 old child hnext hchild =>
      split at h
      case isFalse => cases h
      case isTrue =>
        cases h
        refine ⟨rfl, pop, fun l hl => ?_⟩
        cases hl
        exact exists_append (next old hnext) _
  | endGeneration =>
    simp only [Evolving.act] at h
    split at h
    case h_2 => cases h
    case h_1 best rest hnext =>
      split at h
      case isFalse => cases h
      case isTrue =>
        cases h
        refine ⟨rfl, next _ hnext, fun l hl => ?_⟩
        cases hl

/-- Elitism: a step keeps the fittest genome there is. -/
theorem System.step_kept {g : Genome R} {e : Event R} (h : s.step f S e = some s')
    (fittest : Fittest f g s.present) (kept : Kept g s) : Kept g s' := by
  have fittestOf {v : Evolving R} (hv : v ∈ s.evolving) : Fittest f g v.pop := fun x hx =>
    fittest x (List.mem_append_right _ (List.mem_flatMap.mpr ⟨v, hv, List.mem_append_left _ hx⟩))
  cases e with
  | submit g' now =>
    cases h
    exact ⟨exists_append kept.population _, kept.pop, kept.next⟩
  | observe tm now =>
    cases h
    exact ⟨exists_append kept.population _, kept.pop, kept.next⟩
  | evolve populationSize generations mutationRate now draws =>
    cases h
    refine ⟨kept.population, fun v hv => ?_, fun v hv l hl => ?_⟩
    · rcases List.mem_cons.mp hv with rfl | hv
      · exact exists_append kept.population _
      · exact kept.pop v hv
    · rcases List.mem_cons.mp hv with rfl | hv
      · cases hl
      · exact kept.next v hv l hl
  | act v a =>
    simp only [System.step] at h
    split at h
    case isFalse => cases h
    case isTrue hv =>
      obtain ⟨r, hact, rfl⟩ := Option.map_eq_some_iff.mp h
      obtain ⟨hpopulation, hpop, hnext⟩ :=
        Evolving.act_kept hact (fittestOf hv) (kept.pop v hv) (kept.next v hv)
      refine ⟨?_, fun w hw => ?_, fun w hw l hl => ?_⟩
      · simp only [hpopulation]
        exact kept.population
      · rcases List.mem_cons.mp hw with rfl | hw
        · exact hpop
        · exact kept.pop w (List.mem_of_mem_erase hw)
      · rcases List.mem_cons.mp hw with rfl | hw
        · exact hnext l hl
        · exact kept.next w (List.mem_of_mem_erase hw) l hl
  | publish v =>
    simp only [System.step] at h
    split at h
    case isFalse => cases h
    case isTrue hv =>
      obtain ⟨e', hpublish, rfl⟩ := Option.map_eq_some_iff.mp h
      refine ⟨?_, fun w hw => kept.pop w (List.mem_of_mem_erase hw),
        fun w hw => kept.next w (List.mem_of_mem_erase hw)⟩
      simp only [Evolving.publish] at hpublish
      split at hpublish
      case h_2 => cases hpublish
      case h_1 best hnext hbest =>
        split at hpublish
        case isFalse => cases hpublish
        case isTrue =>
          cases hpublish
          exact kept.pop v hv

/-- What is the fittest genome all along is there at the end. -/
theorem CarefulRun.kept {es : List (Event R)} {g : Genome R} (run : CarefulRun f S s es t)
    (dominates : Dominates f S g s es) (kept : Kept g s) : Kept g t := by
  induction run with
  | nil s => exact kept
  | cons careful step run ih =>
    exact ih (dominates.2 _ step) (System.step_kept step dominates.1 kept)

/-- What a run does after a part of it. -/
theorem CarefulRun.rest {pre post : List (Event R)} (run : CarefulRun f S s (pre ++ post) t)
    (first : CarefulRun f S s pre s') : CarefulRun f S s' post t := by
  induction first with
  | nil s => exact run
  | cons _ step _ ih =>
    cases run with
    | cons _ step' run =>
      rw [step] at step'
      cases step'
      exact ih run

/-- A genome that is submitted while no `Evolve` is in progress. -/
theorem CarefulRun.submitted {g g' : Genome R} {now : Nat} {post : List (Event R)}
    (run : CarefulRun f S s (.submit g now :: post) t)
    (added : (s.engine.submitGenome f g now).population = s.engine.population ++ [g'])
    (dominates : Dominates f S g' { s with engine := s.engine.submitGenome f g now } post) :
    ∃ x ∈ t.engine.population, Same x g' := by
  cases run with
  | cons careful step run =>
    cases step
    refine (run.kept dominates ⟨⟨g', ?_, rfl⟩, fun v hv => ?_, fun v hv => ?_⟩).population
    · rw [added]
      simp
    · rw [show s.evolving = [] from careful] at hv
      cases hv
    · rw [show s.evolving = [] from careful] at hv
      cases hv

/-- When no other operation falls between the two ends of an `Evolve`, what comes out is what the
operations make of the engine one after another, and of the submitted genomes the fittest is left. -/
theorem evolve_serial {es : List (Event R)} (run : CarefulRun f S s es t)
    (idle : s.evolving = []) (done : t.evolving = []) :
    Serial f S s.engine (es.filterMap Event.request) t.engine ∧
      ∀ pre g now post s₁ g', es = pre ++ .submit g now :: post → CarefulRun f S s pre s₁ →
        (s₁.engine.submitGenome f g now).population = s₁.engine.population ++ [g'] →
        Dominates f S g' { s₁ with engine := s₁.engine.submitGenome f g now } post →
        ∃ x ∈ t.engine.population, Same x g' := by
  refine ⟨(run.serial_from done).1 idle, ?_⟩
  rintro pre g now post s₁ g' rfl first added dominates
  exact (run.rest first).submitted added dominates

end

/-! ### An `Evolve` that a submission falls into -/

/-- Whole numbers, as a simple instance. -/
def whole : Float64 Int where
  add := (· + ·)
  sub := (· - ·)
  mul := (· * ·)
  div := (· / ·)
  sqrt v := v
  max := max
  min := min
  ofDecimal digits _ := digits
  lt a b := decide (a < b)
  isZero v := v == 0
  isNaN _ := false
  lt_asymm a b h := by
    have := of_decide_eq_true h
    exact decide_eq_false (by omega)
  lt_cotrans a b c _ h := by
    have := of_decide_eq_true h
    simp only [decide_eq_true_eq]
    omega
  isNaN_of_lt _ _ _ := ⟨rfl, rfl⟩

def fresh : System Int where
  engine := { evolutionary := 0, actualization := 0, purpose := 0, fragmentation := 0 }

def apt : Genome Int where
  id := ascii "apt"
  genes := [(ascii "leak_rate", 5)]
  fitness := 0
  mutationRate := 1
  mutationStrength := 1

/-- An `Evolve` of one generation in a population of one, as it begins and in its last two states. -/
def System.begun (s : System Int) : Evolving Int := (s.engine.seed whole 1 1 0 0 fun _ _ => 0).2

def Evolving.ranked (v : Evolving Int) (x : Genome Int) : Evolving Int :=
  { v with pop := [evaluate whole x], next := some [evaluate whole x] }

def Evolving.bred (v : Evolving Int) (x : Genome Int) : Evolving Int :=
  { v with pop := [evaluate whole x], gen := 1, best := some (evaluate whole x) }

/-- What is ranked in a population of one. -/
theorem System.step_rank {v : Evolving Int} {x : Genome Int} {e : Engine Int} (pop : v.pop = [x])
    (next : v.next = none) (gen : v.gen < v.generations) :
    System.step whole stableSort ⟨e, [v]⟩ (.act v .rank) = some ⟨e, [v.ranked x]⟩ := by
  have hrank : rankAll whole stableSort v.pop = [evaluate whole x] := by
    rw [pop]
    exact SortFunc.slice_singleton ..
  have hact : v.act whole stableSort e .rank = some (e, v.ranked x) := by
    simp only [Evolving.act, next, hrank, if_pos gen]
    rfl
  simp only [System.step, List.mem_singleton, if_true, hact, Option.map_some]
  rw [List.erase_cons_head]

/-- An `Evolve` that begins in `s`, in a population of which `x` is all. -/
def System.evolution (s : System Int) (x : Genome Int) : List (Event Int) :=
  [.act s.begun .rank, .act (s.begun.ranked x) .endGeneration, .publish (s.begun.bred x)]

/-- The genome that stands for none. -/
def chance : Genome Int := randomGenome whole fun _ => 0

def seeded : System Int := ⟨(fresh.engine.seed whole 1 1 0 0 fun _ _ => 0).1, [fresh.begun]⟩

def joined : System Int := { seeded with engine := seeded.engine.submitGenome whole apt 0 }

/-- The last turn of the `Evolve` into which `apt` falls. -/
def turned : System Int where
  engine := joined.engine.setJob fresh.begun.job fun job =>
    { job with currentGeneration := 1, best := some (evaluate whole chance) }
  evolving := [fresh.begun.bred chance]

theorem joined_rank : joined.step whole stableSort (.act fresh.begun .rank) =
    some { joined with evolving := [fresh.begun.ranked chance] } :=
  System.step_rank rfl rfl (by decide)

def overlapped : List (Event Int) :=
  [.evolve 1 1 0 0 fun _ _ => 0, .submit apt 0] ++ fresh.evolution chance

/-- A genome that is submitted between the two ends of an `Evolve` is lost, however fit it is. -/
theorem submitted_lost : ∃ s₁ t, fresh.evolving = [] ∧
    (overlapped.take 1).foldlM (System.step whole stableSort) fresh = some s₁ ∧
    (s₁.engine.submitGenome whole apt 0).population = s₁.engine.population ++ [apt] ∧
    Dominates whole stableSort apt { s₁ with engine := s₁.engine.submitGenome whole apt 0 }
      (overlapped.drop 2) ∧
    overlapped.foldlM (System.step whole stableSort) fresh = some t ∧ t.evolving = [] ∧
    ¬∃ x ∈ t.engine.population, Same x apt := by
  have hend : System.step whole stableSort { joined with evolving := [fresh.begun.ranked chance] }
      (.act (fresh.begun.ranked chance) .endGeneration) = some turned := rfl
  obtain ⟨t, hpublish, hevolving, hpopulation⟩ : ∃ t,
      turned.step whole stableSort (.publish (fresh.begun.bred chance)) = some t ∧ t.evolving = [] ∧
        t.engine.population = [evaluate whole chance] := ⟨_, rfl, rfl, rfl⟩
  have run : overlapped.foldlM (System.step whole stableSort) fresh = some t := by
    change (joined.step whole stableSort (.act fresh.begun .rank) >>= _) = _
    rw [joined_rank]
    exact hpublish
  refine ⟨seeded, t, rfl, rfl, rfl, ⟨by decide, fun s h => ?_⟩, run, hevolving, ?_⟩
  · obtain rfl := Option.some.inj (joined_rank.symm.trans h)
    refine ⟨by decide, fun s h => ?_⟩
    obtain rfl := Option.some.inj (hend.symm.trans h)
    refine ⟨by decide, fun s h => ?_⟩
    obtain rfl := Option.some.inj (hpublish.symm.trans h)
    change Fittest whole apt (_ ++ _)
    rw [hpopulation, hevolving]
    decide
  · rw [hpopulation]
    decide

/-- The engine with `apt` alone. -/
def sole : System Int := { fresh with engine := fresh.engine.submitGenome whole apt 0 }

/-- A genome that is submitted before an `Evolve` is there after it. -/
theorem submitted_kept : ∃ t, CarefulRun whole stableSort fresh
      (.submit apt 0 :: .evolve 1 1 0 0 (fun _ _ => 0) :: sole.evolution apt) t ∧
    Serial whole stableSort fresh.engine [.submit apt, .evolve 1 1 0] t.engine ∧
    ∃ x ∈ t.engine.population, Same x apt := by
  let s₁ : System Int := ⟨(sole.engine.seed whole 1 1 0 0 fun _ _ => 0).1, [sole.begun]⟩
  let s₂ : System Int := { s₁ with evolving := [sole.begun.ranked apt] }
  let s₃ : System Int :=
    ⟨s₁.engine.setJob sole.begun.job fun job =>
        { job with currentGeneration := 1, best := some (evaluate whole apt) }, [sole.begun.bred apt]⟩
  have hrank : s₁.step whole stableSort (.act sole.begun .rank) = some s₂ :=
    System.step_rank rfl rfl (by decide)
  have hend : s₂.step whole stableSort (.act (sole.begun.ranked apt) .endGeneration) = some s₃ := rfl
  obtain ⟨t, hpublish, hevolving, hpopulation⟩ : ∃ t,
      s₃.step whole stableSort (.publish (sole.begun.bred apt)) = some t ∧ t.evolving = [] ∧
        t.engine.population = [evaluate whole apt] := ⟨_, rfl, rfl, rfl⟩
  have run : CarefulRun whole stableSort fresh
      (.submit apt 0 :: .evolve 1 1 0 0 (fun _ _ => 0) :: sole.evolution apt) t :=
    .cons rfl rfl <| .cons trivial rfl <| .cons trivial hrank <| .cons trivial hend <|
      .cons rfl hpublish <| .nil t
  have dominates : Dominates whole stableSort apt sole
      (.evolve 1 1 0 0 (fun _ _ => 0) :: sole.evolution apt) := by
    refine ⟨by decide, fun s h => ?_⟩
    obtain rfl : s₁ = s := Option.some.inj h
    refine ⟨by decide, fun s h => ?_⟩
    obtain rfl := Option.some.inj (hrank.symm.trans h)
    refine ⟨by decide, fun s h => ?_⟩
    obtain rfl := Option.some.inj (hend.symm.trans h)
    refine ⟨by decide, fun s h => ?_⟩
    obtain rfl := Option.some.inj (hpublish.symm.trans h)
    change Fittest whole apt (_ ++ _)
    rw [hpopulation, hevolving]
    decide
  obtain ⟨serial, kept⟩ := evolve_serial run rfl hevolving
  exact ⟨t, run, serial, kept [] apt 0 _ fresh apt rfl (.nil _) rfl dominates⟩

end Ecco9.Ontogenesis
