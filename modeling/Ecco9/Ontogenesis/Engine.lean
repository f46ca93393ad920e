import Ecco9.Library.Sorting
import Ecco9.Library.Utf8

/-! The engine of `org/ecco9-ontogenesis/ontogenesis/engine.go`: a population that `Evolve` copies,
breeds without the mutex, and puts in the place of what there is by then. -/

namespace Ecco9.Ontogenesis

open Ecco9.Library

/-- `float64`, with what IEEE 754 says of its order. -/
structure Float64 (R : Type) where
  add : R → R → R
  sub : R → R → R
  mul : R → R → R
  div : R → R → R
  sqrt : R → R
  max : R → R → R
  min : R → R → R
  /-- the constant of these digits, so many of which stand behind the point -/
  ofDecimal : (digits places : Nat) → R
  lt : R → R → Bool
  isZero : R → Bool
  isNaN : R → Bool
  lt_asymm : ∀ a b, lt a b = true → lt b a = false
  lt_cotrans : ∀ a b c, isNaN b = false → lt a c = true → lt a b = true ∨ lt b c = true
  isNaN_of_lt : ∀ a b, lt a b = true → isNaN a = false ∧ isNaN b = false

/-- The genes are in the order in which they are ranged over. -/
structure Genome (R : Type) where
  id : Text
  genes : List (Text × R)
  fitness : R
  generation : Nat := 0
  mutationRate : R
  mutationStrength : R
  parentIDs : List Text := []
  deriving DecidableEq

structure EvolutionJob (R : Type) where
  id : Text
  running : Bool
  currentGeneration : Nat := 0
  generations : Nat
  best : Option (Genome R) := none
  deriving DecidableEq

structure TrainingMetrics (R : Type) where
  lastError : R
  heldOutMSE : R
  spectralRadius : R
  inputScaling : R
  leakRate : R
  forgettingFactor : R

structure Engine (R : Type) where
  population : List (Genome R) := []
  jobs : List (EvolutionJob R) := []
  /-- `entelechy.Evolutionary` -/
  evolutionary : R
  actualization : R
  purpose : R
  fragmentation : R
  counter : Nat := 0
  deriving DecidableEq

/-- `fmt.Sprintf("kind-%d-%d", time.Now().Unix(), e.counter)` -/
def makeID (kind : Text) (now counter : Nat) : Text :=
  kind ++ ascii "-" ++ ascii (toString now) ++ ascii "-" ++ ascii (toString counter)

section

variable {R : Type} (f : Float64 R)

def Float64.zero : R := f.ofDecimal 0 0

def Float64.one : R := f.ofDecimal 1 0

def clamp01 (v : R) : R := f.max f.zero (f.min f.one v)

/-! ### Genomes -/

def Genome.gene (g : Genome R) (key : Text) : Option R := g.genes.lookup key

/-- `Mutate`, with a number and a normal one drawn for each gene. -/
def Genome.mutate (g : Genome R) (draw norm : Nat → R) : Genome R :=
  { g with
    genes := g.genes.mapIdx fun i (key, v) =>
      (key, if f.lt (draw i) g.mutationRate then f.add v (f.mul (norm i) g.mutationStrength) else v) }

/-- `Crossover`, with a number drawn for each gene. -/
def Genome.crossover (g other : Genome R) (draw : Nat → R) : Genome R where
  id := []
  genes := g.genes.mapIdx fun i (key, v) =>
    (key, if f.lt (draw i) (f.ofDecimal 5 1) then v else (other.gene key).getD v)
  fitness := f.zero
  generation := Nat.max g.generation other.generation + 1
  mutationRate := f.div (f.add g.mutationRate other.mutationRate) (f.ofDecimal 2 0)
  mutationStrength := f.div (f.add g.mutationStrength other.mutationStrength) (f.ofDecimal 2 0)
  parentIDs := [g.id, other.id]

def fitnessOf (genes : List (Text × R)) : R :=
  if genes = [] then f.zero
  else
    let totalError := genes.foldl
      (fun sum (_, v) =>
        let diff := f.sub v (f.ofDecimal 5 1)
        f.add sum (f.mul diff diff))
      f.zero
    f.div f.one (f.add f.one (f.sqrt totalError))

/-- `tournamentSelect`, among the genomes that are drawn. -/
def tournamentSelect (pop : List (Genome R)) (picks : List Nat) : Option (Genome R) :=
  (picks.foldl
    (fun (best : Option (Genome R) × R) pick =>
      match pop[pick % pop.length]? with
      | none => best
      | some g => if f.lt best.2 g.fitness then (some g, g.fitness) else best)
    (none, f.sub f.zero f.one)).1

def geneNames : List Text :=
  [ascii "spectral_radius", ascii "input_scaling", ascii "leak_rate", ascii "threshold",
    ascii "learning_rate", ascii "density"]

/-- `randomGenome(6)`, with the numbers that are drawn. -/
def randomGenome (draw : Nat → R) : Genome R where
  id := []
  genes := geneNames.mapIdx fun i name => (name, draw i)
  fitness := f.zero
  mutationRate := f.ofDecimal 1 1
  mutationStrength := f.ofDecimal 5 2

/-! ### The engine -/

def Engine.submitGenome (e : Engine R) (g : Genome R) (now : Nat) : Engine R :=
  let counter := e.counter + 1
  let genome := { g with
    id := if g.id = [] then makeID (ascii "genome") now counter else g.id
    mutationRate := if f.isZero g.mutationRate then f.ofDecimal 1 1 else g.mutationRate
    mutationStrength := if f.isZero g.mutationStrength then f.ofDecimal 5 2 else g.mutationStrength }
  { e with counter, population := e.population ++ [genome] }

/-- How the evolutionary dimension follows a fitness. -/
def Engine.nudge (e : Engine R) (fitness : R) : Engine R :=
  { e with
    evolutionary := clamp01 f
      (f.add (f.mul (f.ofDecimal 9 1) e.evolutionary) (f.mul (f.ofDecimal 1 1) fitness)) }

def TrainingMetrics.genome (tm : TrainingMetrics R) (id : Text) : Genome R where
  id := id
  genes := [(ascii "spectral_radius", clamp01 f tm.spectralRadius),
    (ascii "input_scaling", clamp01 f tm.inputScaling), (ascii "leak_rate", clamp01 f tm.leakRate),
    (ascii "learning_rate", clamp01 f tm.forgettingFactor),
    (ascii "train_error", clamp01 f tm.lastError)]
  fitness :=
    if f.isNaN tm.heldOutMSE || f.lt tm.heldOutMSE f.zero then
      f.div f.one (f.add f.one tm.lastError)
    else
      f.div f.one (f.add f.one (f.mul (f.ofDecimal 5 1) (f.add tm.lastError tm.heldOutMSE)))
  mutationRate := f.ofDecimal 1 1
  mutationStrength := f.ofDecimal 5 2

def Engine.observeTrainingMetrics (e : Engine R) (tm : TrainingMetrics R) (now : Nat) : Engine R :=
  let counter := e.counter + 1
  let g := tm.genome f (makeID (ascii "training") now counter)
  { e with counter, population := e.population ++ [g] }.nudge f g.fitness

def Engine.updateActualization (e : Engine R) : Engine R :=
  let dA := f.sub
    (f.mul (f.mul (f.ofDecimal 1 1) e.purpose) (f.sub f.one e.actualization))
    (f.mul (f.ofDecimal 5 2) e.fragmentation)
  { e with actualization := clamp01 f (f.add e.actualization (f.mul dA f.one)) }

end

end Ecco9.Ontogenesis
