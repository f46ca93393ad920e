import Ecco9.Ontogenesis.Evolve
import Mathlib.Algebra.Order.Field.Basic
import Mathlib.Analysis.Real.Sqrt
import Mathlib.Tactic.Positivity

/-! An `Evolve` from its first section to its last, and the crossing of two genomes, of
`org/ecco9-ontogenesis/ontogenesis/engine.go`. -/

namespace Ecco9.Ontogenesis

open Ecco9.Library

/-! ### Crossing -/

section

variable {R : Type}

/-- What a key has after every gene was set to some value by its place, its key and its value. -/
theorem lookup_mapIdx (h : Nat → Text → R → R) (l : List (Text × R)) (key : Text) :
    l.lookup key = none ∧ (l.mapIdx fun i (k, v) => (k, h i k v)).lookup key = none ∨
      ∃ i v, l.lookup key = some v ∧
        (l.mapIdx fun i (k, v) => (k, h i k v)).lookup key = some (h i key v) := by
  induction l generalizing h with
  | nil => exact .inl ⟨rfl, rfl⟩
  | cons gene l ih =>
    obtain ⟨k, v⟩ := gene
    rw [List.mapIdx_cons, List.lookup_cons, List.lookup_cons]
    by_cases hk : key = k
    · subst hk
      exact .inr ⟨0, v, by simp, by simp⟩
    · have hne : (key == k) = false := by simpa using hk
      rw [hne]
      rcases ih fun i => h (i + 1) with absent | ⟨i, w, hw, hmap⟩
      · exact .inl absent
      · exact .inr ⟨i + 1, w, hw, hmap⟩

/-- What is wanted of the child of two genomes. -/
def Unites (g other child : Genome R) : Prop :=
  (∀ key, (child.gene key).isSome ↔ (g.gene key).isSome ∨ (other.gene key).isSome) ∧
    ∀ key v, child.gene key = some v → g.gene key = some v ∨ other.gene key = some v

/-- The child has the genes of its first parent. -/
theorem gene_crossover (f : Float64 R) (g other : Genome R) (draw : Nat → R) (key : Text) :
    g.gene key = none ∧ (g.crossover f other draw).gene key = none ∨
      ∃ v w, g.gene key = some v ∧ (g.crossover f other draw).gene key = some w ∧
        (w = v ∨ other.gene key = some w) := by
  rcases lookup_mapIdx (fun i key v =>
    if f.lt (draw i) (f.ofDecimal 5 1) then v else (other.gene key).getD v) g.genes key with
    absent | ⟨i, v, hv, hchild⟩
  · exact .inl absent
  · refine .inr ⟨v, _, hv, hchild, ?_⟩
    split
    · exact .inl rfl
    · cases hother : other.gene key with
      | none => exact .inl rfl
      | some w => exact .inr rfl

/-- The child has the union of the genes just when the second parent has none that the first lacks. -/
theorem crossover_unites (f : Float64 R) (g other : Genome R) (draw : Nat → R) :
    Unites g other (g.crossover f other draw) ↔
      ∀ key, (other.gene key).isSome → (g.gene key).isSome := by
  constructor
  · intro h key hkey
    have hchild := (h.1 key).mpr (.inr hkey)
    rcases gene_crossover f g other draw key with ⟨-, hnone⟩ | ⟨v, w, hv, -, -⟩
    · rw [hnone] at hchild
      cases hchild
    · rw [hv]
      rfl
  · intro h
    refine ⟨fun key => ?_, fun key v hchild => ?_⟩
    · rcases gene_crossover f g other draw key with ⟨hnone, hchild⟩ | ⟨v, w, hv, hchild, -⟩
      · have hother : (other.gene key).isSome = false := by
          by_contra hne
          have first := h key (Bool.not_eq_false _ ▸ hne)
          rw [hnone] at first
          cases first
        simp [hnone, hchild, hother]
      · simp [hv, hchild]
    · rcases gene_crossover f g other draw key with ⟨-, hnone⟩ | ⟨v', w, hv, hw, hfrom⟩
      · rw [hnone] at hchild
        cases hchild
      · obtain rfl := Option.some.inj (hw.symm.trans hchild)
        rcases hfrom with rfl | hother
        · exact .inl hv
        · exact .inr hother

/-- A gene that only the second parent has is lost. -/
theorem second_lost : ¬Unites { apt with genes := [] } apt
    (({ apt with genes := [] } : Genome Int).crossover whole apt fun _ => 0) := by
  intro h
  exact absurd ((h.1 (ascii "leak_rate")).mpr (.inr (by decide))) (by decide)

end

/-! ### A whole `Evolve` -/

section

variable {R : Type} (f : Float64 R) (S : SortFunc)

/-- The loop that breeds so many children: every turn checks that there is room for one, and the end of
the generation that there is none left. -/
def Evolving.breedChildren (choices : Nat → Breeding R) :
    Nat → Engine R → Evolving R → Option (Engine R × Evolving R)
  | 0, e, v => some (e, v)
  | n + 1, e, v =>
    match v.act f S e (.child (choices n)) with
    | none => none
    | some (e, v) => breedChildren choices n e v

/-- One turn of the loop over the generations. -/
def Evolving.generation (choices : Nat → Breeding R) (e : Engine R) (v : Evolving R) :
    Option (Engine R × Evolving R) :=
  match v.act f S e .rank with
  | none => none
  | some (e, v) =>
    match v.breedChildren f S choices (v.populationSize - 1) e with
    | none => none
    | some (e, v) => v.act f S e .endGeneration

/-- So many turns of the loop, with what there is behind each. -/
def Evolving.turns (choices : Nat → Nat → Breeding R) :
    Nat → Engine R → Evolving R → Option (List (Engine R × Evolving R) × Engine R × Evolving R)
  | 0, e, v => some ([], e, v)
  | n + 1, e, v =>
    match v.generation f S (choices n) e with
    | none => none
    | some (e, v) => (turns choices n e v).map fun (later, last) => ((e, v) :: later, last)

/-- `Evolve`, with its generations; `none` where it fails on `nil` or on an index. -/
def Engine.evolve (e : Engine R) (populationSize generations : Nat) (mutationRate : R) (now : Nat)
    (draws : Nat → Nat → R) (choices : Nat → Nat → Breeding R) :
    Option (List (Engine R × Evolving R) × Engine R) :=
  let (e, v) := e.seed f populationSize generations mutationRate now draws
  match v.turns f S choices generations e with
  | none => none
  | some (turns, e, v) => (v.publish f e).map fun e => (turns, e)

end

/-! ### Exact numbers -/

section

variable {K : Type} [Field K] [LinearOrder K]

/-- The operations of a field, with what stands for the square root. -/
def ofField (sqrt : K → K) : Float64 K where
  add := (· + ·)
  sub := (· - ·)
  mul := (· * ·)
  div := (· / ·)
  sqrt := sqrt
  max := max
  min := min
  ofDecimal digits places := digits / 10 ^ places
  lt a b := decide (a < b)
  isZero v := decide (v = 0)
  isNaN _ := false
  lt_asymm a b h := decide_eq_false (lt_asymm (of_decide_eq_true h))
  lt_cotrans a b c _ h := by
    simp only [decide_eq_true_eq] at h ⊢
    exact (lt_or_ge a b).imp_right fun hba => lt_of_le_of_lt hba h
  isNaN_of_lt _ _ _ := ⟨rfl, rfl⟩

variable {sqrt : K → K} {S : SortFunc} {e : Engine K} {v : Evolving K}

@[simp] theorem ofField_zero (sqrt : K → K) : (ofField sqrt).zero = 0 := by simp [Float64.zero, ofField]

@[simp] theorem ofField_one (sqrt : K → K) : (ofField sqrt).one = 1 := by simp [Float64.one, ofField]

@[simp] theorem ofField_lt (sqrt : K → K) (a b : K) : (ofField sqrt).lt a b = decide (a < b) := rfl

/-! ### Elitism -/

/-- The fitness of a genome. -/
def fit (sqrt : K → K) (g : Genome K) : K := fitnessOf (ofField sqrt) g.genes

/-- A generation that follows another: the best genome is one of the highest fitness of the generation
before, and no genome of that was fitter than all there are now. -/
structure Succeeds (sqrt : K → K) (v v' : Evolving K) : Prop where
  selected : ∃ x ∈ v.pop, v'.best = some (evaluate (ofField sqrt) x) ∧ ∀ y ∈ v.pop, fit sqrt y ≤ fit sqrt x
  kept : ∃ x ∈ v'.pop, ∀ y ∈ v.pop, fit sqrt y ≤ fit sqrt x

/-- The job of an `Evolve` shows its best genome. -/
structure Shows (e : Engine K) (v : Evolving K) : Prop where
  there : ∃ job ∈ e.jobs, job.id = v.job
  shown : ∀ job ∈ e.jobs, job.id = v.job → job.best = v.best ∧ job.currentGeneration = v.gen

variable (sqrt S) in
/-- Sorting puts a genome of the highest fitness first. -/
theorem rankAll_spec {pop : List (Genome K)} (hpop : pop ≠ []) :
    ∃ x best rest, rankAll (ofField sqrt) S pop = best :: rest ∧ x ∈ pop ∧ best = evaluate (ofField sqrt) x ∧
      (∀ y ∈ pop, fit sqrt y ≤ fit sqrt x) ∧ ∀ y ∈ best :: rest, y.fitness = fit sqrt y := by
  have perm : (rankAll (ofField sqrt) S pop).Perm (pop.map (evaluate (ofField sqrt))) := S.slice_perm ..
  have ordered : (rankAll (ofField sqrt) S pop).Pairwise fun a b => ¬a.fitness < b.fitness := by
    refine (S.slice_ordered (fun a _ b _ h => ?_) fun a _ b _ c _ h => ?_).imp fun {a b} h => ?_
    · exact (ofField sqrt).lt_asymm _ _ h
    · exact (ofField sqrt).lt_cotrans _ _ _ rfl h
    · exact of_decide_eq_false h
  cases hrank : rankAll (ofField sqrt) S pop with
  | nil =>
    rw [hrank] at perm
    have hnil := List.map_eq_nil_iff.mp (List.nil_perm.mp perm)
    exact absurd hnil hpop
  | cons best rest =>
    rw [hrank] at perm ordered
    have evaluated : ∀ y ∈ best :: rest, ∃ x ∈ pop, evaluate (ofField sqrt) x = y := fun y hy =>
      List.mem_map.mp (perm.mem_iff.mp hy)
    obtain ⟨x, hx, rfl⟩ := evaluated best List.mem_cons_self
    refine ⟨x, _, rest, rfl, hx, rfl, fun y hy => ?_, fun y hy => ?_⟩
    · have hmem := perm.mem_iff.mpr (List.mem_map_of_mem hy)
      rcases List.mem_cons.mp hmem with heq | hmem
      · exact le_of_eq (congrArg Genome.fitness heq)
      · exact not_lt.mp (List.rel_of_pairwise_cons ordered hmem)
    · obtain ⟨x', -, rfl⟩ := evaluated y hy
      rfl

/-- Between two generations, with a population to breed from. -/
structure Between (e : Engine K) (v : Evolving K) : Prop where
  next : v.next = none
  pop : v.pop ≠ []
  size : 1 ≤ v.populationSize
  job : ∃ job ∈ e.jobs, job.id = v.job

omit [Field K] [LinearOrder K] in
theorem shows_setJob (there : ∃ job ∈ e.jobs, job.id = v.job) {v' : Evolving K} (hjob' : v'.job = v.job)
    {best : Genome K} (hbest : v'.best = some best) {gen : Nat} (hgen : v'.gen = gen) :
    Shows (e.setJob v.job fun job => { job with currentGeneration := gen, best := some best }) v' := by
  constructor
  · obtain ⟨job, hjob, hid⟩ := there
    exact ⟨_, List.mem_map_of_mem hjob, by rw [if_pos hid]; exact hid.trans hjob'.symm⟩
  · intro job hjob hid
    obtain ⟨old, hold, rfl⟩ := List.mem_map.mp hjob
    by_cases heq : old.id = v.job
    · rw [if_pos heq]
      exact ⟨hbest.symm, hgen.symm⟩
    · rw [if_neg heq] at hid
      exact absurd (hid.trans hjob') heq

omit [Field K] [LinearOrder K] in
theorem between_seed (f : Float64 K) (e : Engine K) {populationSize : Nat} (hsize : 1 ≤ populationSize)
    (generations : Nat) (mutationRate : K) (now : Nat) (draws : Nat → Nat → K) :
    Between (e.seed f populationSize generations mutationRate now draws).1
      (e.seed f populationSize generations mutationRate now draws).2 where
  next := rfl
  pop h := by
    have len : (e.seed f populationSize generations mutationRate now draws).2.pop.length =
        e.population.length + (populationSize - e.population.length) := by
      simp [Engine.seed]
    rw [h, List.length_nil] at len
    omega
  size := hsize
  job := ⟨_, List.mem_append_right _ (List.mem_singleton_self _), rfl⟩

/-! ### Every generation -/

variable [IsStrictOrderedRing K]

theorem unit_div {x : K} (h : 0 ≤ x) : 0 ≤ 1 / (1 + x) ∧ 1 / (1 + x) ≤ 1 :=
  ⟨by positivity, (div_le_one (by positivity)).mpr (le_add_of_nonneg_right h)⟩

/-- The fitness is a number from 0 to 1. -/
theorem fitnessOf_mem (hsqrt : ∀ v, 0 ≤ sqrt v) (genes : List (Text × K)) :
    0 ≤ fitnessOf (ofField sqrt) genes ∧ fitnessOf (ofField sqrt) genes ≤ 1 := by
  rw [fitnessOf]
  split
  · rw [ofField_zero]
    exact ⟨le_refl 0, zero_le_one⟩
  · rw [ofField_one]
    exact unit_div (hsqrt _)

variable (sqrt) in
/-- Among genomes of a fitness from 0 on one is selected. -/
theorem tournamentSelect_isSome {pop : List (Genome K)} (hpop : pop ≠ [])
    (nonneg : ∀ g ∈ pop, 0 ≤ g.fitness) {picks : List Nat} (hpicks : picks ≠ []) :
    (tournamentSelect (ofField sqrt) pop picks).isSome := by
  obtain ⟨pick, picks, rfl⟩ := List.exists_cons_of_ne_nil hpicks
  have hlt : pick % pop.length < pop.length := Nat.mod_lt _ (List.length_pos_iff.mpr hpop)
  have below : (ofField sqrt).sub (ofField sqrt).zero (ofField sqrt).one < pop[pick % pop.length].fitness := by
    rw [ofField_zero, ofField_one]
    exact lt_of_lt_of_le (by simp [ofField]) (nonneg _ (List.getElem_mem hlt))
  rw [tournamentSelect, List.foldl_cons]
  refine List.foldlRecOn (motive := fun best : Option (Genome K) × K => best.1.isSome) picks _ ?_ ?_
  · simp only [List.getElem?_eq_getElem hlt, ofField_lt, decide_eq_true below, if_true]
    rfl
  · intro best h pick _
    split
    · exact h
    · split
      · rfl
      · exact h

variable (sqrt) in
theorem breed_isSome {pop : List (Genome K)} (hpop : pop ≠ []) (nonneg : ∀ g ∈ pop, 0 ≤ g.fitness)
    (mutationRate : K) (b : Breeding K) : (breed (ofField sqrt) pop mutationRate b).isSome := by
  obtain ⟨p1, h1⟩ := Option.isSome_iff_exists.mp (tournamentSelect_isSome sqrt hpop nonneg
    (show (List.range 3).map b.first ≠ [] by simp))
  obtain ⟨p2, h2⟩ := Option.isSome_iff_exists.mp (tournamentSelect_isSome sqrt hpop nonneg
    (show (List.range 3).map b.second ≠ [] by simp))
  rw [breed, h1, h2]
  rfl

/-- The loop of the children comes to its end. -/
theorem breedChildren_spec (hsqrt : ∀ v, 0 ≤ sqrt v) {best : Genome K} {rest : List (Genome K)}
    (evaluated : ∀ y ∈ best :: rest, y.fitness = fit sqrt y) (choices : Nat → Breeding K) (n : Nat)
    {children : List (Genome K)} (e : Engine K) (hpop : v.pop = best :: rest)
    (hnext : v.next = some (best :: children)) (hn : children.length + n + 1 = v.populationSize) :
    ∃ e' children', v.breedChildren (ofField sqrt) S choices n e =
        some (e', { v with next := some (best :: children') }) ∧
      children'.length + 1 = v.populationSize ∧ e'.jobs = e.jobs := by
  induction n generalizing e v children with
  | zero =>
    refine ⟨e, children, ?_, by omega, rfl⟩
    rw [Evolving.breedChildren, ← hnext]
  | succ n ih =>
    have nonneg : ∀ g ∈ v.pop, 0 ≤ g.fitness := fun g hg => by
      rw [evaluated g (hpop ▸ hg)]
      exact (fitnessOf_mem hsqrt _).1
    obtain ⟨child, hchild⟩ := Option.isSome_iff_exists.mp
      (breed_isSome sqrt (hpop ▸ List.cons_ne_nil _ _) nonneg v.mutationRate (choices n))
    have hlt : (best :: children).length < v.populationSize := by
      rw [List.length_cons]
      omega
    rw [Evolving.breedChildren, Evolving.act, hnext, hchild]
    simp only [if_pos hlt]
    let named := { child with id := makeID (ascii "genome") (choices n).now (e.counter + 1) }
    exact ih (v := { v with next := some (best :: (children ++ [named])) })
      { e with counter := e.counter + 1 } hpop rfl
      (by rw [List.length_append, List.length_singleton]; dsimp only; omega)

/-- One generation goes through, and the fittest genome is handed on. -/
theorem generation_spec (hsqrt : ∀ v, 0 ≤ sqrt v) (between : Between e v) (hgen : v.gen < v.generations)
    (choices : Nat → Breeding K) :
    ∃ e' v', v.generation (ofField sqrt) S choices e = some (e', v') ∧ Between e' v' ∧
      Succeeds sqrt v v' ∧ Shows e' v' ∧ v'.pop.length = v.populationSize ∧
      v'.populationSize = v.populationSize ∧ v'.generations = v.generations ∧ v'.gen = v.gen + 1 := by
  obtain ⟨x, best, rest, hrank, hx, rfl, fittest, evaluated⟩ :=
    rankAll_spec sqrt S between.pop
  obtain ⟨e₁, children, hloop, hlen, hjobs⟩ := breedChildren_spec (S := S) hsqrt evaluated choices
    (v.populationSize - 1)
    (v := { v with pop := _, next := some [evaluate (ofField sqrt) x] }) e rfl rfl
    (by have := between.size; simp only [List.length_nil]; omega)
  dsimp only at hloop hlen
  have hend : v.populationSize ≤ (evaluate (ofField sqrt) x :: children).length := by
    rw [List.length_cons]
    omega
  have there : ∃ job ∈ e₁.jobs, job.id = v.job := hjobs ▸ between.job
  let v' : Evolving K := { v with
    pop := evaluate (ofField sqrt) x :: children
    gen := v.gen + 1
    next := none
    best := some (evaluate (ofField sqrt) x) }
  have shows := shows_setJob there (show v'.job = v.job from rfl) rfl rfl
  rw [Evolving.generation, Evolving.act, between.next, hrank]
  simp only [if_pos hgen, hloop, Evolving.act, if_pos hend]
  exact ⟨_, v', rfl, ⟨rfl, List.cons_ne_nil _ _, between.size, shows.there⟩,
    ⟨⟨x, hx, rfl, fittest⟩, ⟨_, List.mem_cons_self, fittest⟩⟩, shows, hlen, rfl, rfl, rfl⟩

/-- So do all of them. -/
theorem turns_spec (hsqrt : ∀ v, 0 ≤ sqrt v) (choices : Nat → Nat → Breeding K) (n : Nat)
    (between : Between e v) (hgen : v.gen + n = v.generations) :
    ∃ turns e' v', v.turns (ofField sqrt) S choices n e = some (turns, e', v') ∧ turns.length = n ∧
      List.IsChain (Succeeds sqrt) (v :: turns.map Prod.snd) ∧
      (∀ turn ∈ turns, turn.2.pop.length = v.populationSize ∧ Shows turn.1 turn.2) ∧
      v'.next = none ∧ v'.gen = v.generations ∧ v'.generations = v.generations ∧
      (v' = v ∧ n = 0 ∨ v'.best.isSome ∧ v'.pop.length = v.populationSize) := by
  induction n generalizing e v with
  | zero =>
    exact ⟨[], e, v, rfl, rfl, .singleton v, by simp, between.next, by omega, rfl, .inl ⟨rfl, rfl⟩⟩
  | succ n ih =>
    obtain ⟨e₁, v₁, hturn, between₁, succeeds, shows, hlen, hsize, hgenerations, hgen₁⟩ :=
      generation_spec (S := S) hsqrt between (by omega) (choices n)
    obtain ⟨turns, e', v', hturns, hcount, chain, all, hnext, hlast, hsame, hbest⟩ :=
      ih between₁ (by omega)
    refine ⟨(e₁, v₁) :: turns, e', v', ?_, by simp [hcount], .cons_cons succeeds chain, ?_, hnext,
      hlast.trans hgenerations, hsame.trans hgenerations, .inr ?_⟩
    · rw [Evolving.turns, hturn]
      simp only [hturns, Option.map_some]
    · rintro turn (_ | ⟨_, hmem⟩)
      · exact ⟨hlen, shows⟩
      · exact hsize ▸ all turn hmem
    · rcases hbest with ⟨rfl, -⟩ | hbest
      · obtain ⟨x, -, hx, -⟩ := succeeds.selected
        exact ⟨by rw [hx]; rfl, hlen⟩
      · exact hsize ▸ hbest

/-- An `Evolve` comes to its end, whatever it begins with and whatever is drawn in it: every generation
has the size that was asked for, and none is less fit than the one before. -/
theorem evolve_elitist (hsqrt : ∀ v, 0 ≤ sqrt v) (S : SortFunc) (e : Engine K)
    {populationSize generations : Nat} (hsize : 1 ≤ populationSize) (hgenerations : 1 ≤ generations)
    (mutationRate : K) (now : Nat) (draws : Nat → Nat → K) (choices : Nat → Nat → Breeding K) :
    ∃ turns e', e.evolve (ofField sqrt) S populationSize generations mutationRate now draws choices =
        some (turns, e') ∧
      turns.length = generations ∧
      (∀ turn ∈ turns, turn.2.pop.length = populationSize ∧ Shows turn.1 turn.2) ∧
      List.IsChain (Succeeds sqrt)
        ((e.seed (ofField sqrt) populationSize generations mutationRate now draws).2 ::
          turns.map Prod.snd) ∧
      e'.population.length = populationSize := by
  have between := between_seed (ofField sqrt) e hsize generations mutationRate now draws
  obtain ⟨turns, e₁, v, hturns, hcount, chain, all, hnext, hgen, hsame, hlast⟩ :=
    turns_spec (S := S) hsqrt choices generations between (Nat.zero_add _)
  obtain ⟨hbest, hlen⟩ := hlast.resolve_left fun h => by omega
  obtain ⟨best, hbest⟩ := Option.isSome_iff_exists.mp hbest
  rw [Engine.evolve]
  simp only [hturns, Evolving.publish, hnext, hbest, if_pos (hgen.trans hsame.symm), Option.map_some]
  exact ⟨turns, _, rfl, hcount, all, chain, hlen⟩

end

/-- `NewEngine`, after three genomes were submitted. -/
noncomputable def submitted : Engine ℝ where
  population := [⟨ascii "a", [], 0, 0, 0, 0, []⟩, ⟨ascii "b", [(ascii "leak_rate", 1)], 0, 0, 0, 0, []⟩,
    ⟨ascii "c", [(ascii "density", 0)], 0, 0, 0, 0, []⟩]
  evolutionary := 1
  actualization := 0
  purpose := 1
  fragmentation := 0

/-- More genomes than the population is to have. -/
theorem submitted_elitist : ∃ turns e', submitted.evolve (ofField Real.sqrt) stableSort 2 5 (1 / 10) 0
      (fun _ _ => 1 / 2) (fun _ _ => ⟨id, id, fun _ => 0, fun _ => 0, fun _ => 1, 0⟩) = some (turns, e') ∧
    turns.length = 5 ∧ e'.population.length = 2 := by
  obtain ⟨turns, e', h, hcount, -, -, hlen⟩ := evolve_elitist Real.sqrt_nonneg stableSort submitted
    (show 1 ≤ 2 by decide) (show 1 ≤ 5 by decide) (1 / 10) 0 (fun _ _ => 1 / 2)
    (fun _ _ => ⟨id, id, fun _ => 0, fun _ => 0, fun _ => 1, 0⟩)
  exact ⟨turns, e', h, hcount, hlen⟩

end Ecco9.Ontogenesis
