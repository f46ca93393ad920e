import Mathlib.Data.List.Nodup
import Mathlib.Data.List.Perm.Subperm
import Mathlib.Order.Lattice.Nat

/-! Breadth-first search from one point, to a depth: it lists what is within that many hops, by distance. -/

universe u

namespace Ecco9.Library

variable {α : Type u}

/-- So many hops lead from one point to another. -/
inductive Hops (r : α → α → Prop) (start : α) : Nat → α → Prop
  | refl : Hops r start 0 start
  | tail {n : Nat} {x y : α} : Hops r start n x → r x y → Hops r start (n + 1) y

/-- The least number of hops, for what can be reached. -/
noncomputable def distance (r : α → α → Prop) (start x : α) : Nat := sInf {n | Hops r start n x}

/-- A list has what is within so many hops, each once and the nearer first. -/
structure Explores (r : α → α → Prop) (start : α) (maxDepth : Nat) (out : List α) : Prop where
  nodup : out.Nodup
  mem_iff : ∀ x, x ∈ out ↔ ∃ n ≤ maxDepth, Hops r start n x
  sorted : out.Pairwise fun x y => distance r start x ≤ distance r start y

section Distance

variable {r : α → α → Prop} {start x : α} {n : Nat}

theorem distance_le (h : Hops r start n x) : distance r start x ≤ n := Nat.sInf_le h

theorem hops_distance (h : Hops r start n x) : Hops r start (distance r start x) x :=
  Nat.sInf_mem (s := {n | Hops r start n x}) ⟨n, h⟩

end Distance

/-- What a list of what comes next leads to. -/
abbrev LeadsTo (next : α → List α) (x y : α) : Prop := y ∈ next x

/-- A search: what was met, what is still to be visited at which depth, and what was visited. -/
structure Search (α : Type u) where
  visited : List α
  queue : List (α × Nat)
  output : List α

namespace Search

variable {next : α → List α} {maxDepth : Nat} {start : α} {s : Search α}

section Run

variable [DecidableEq α]

def push (depth : Nat) (s : Search α) (y : α) : Search α :=
  if y ∈ s.visited then s else { s with visited := s.visited ++ [y], queue := s.queue ++ [(y, depth)] }

theorem push_of_mem {y : α} (h : y ∈ s.visited) (depth : Nat) : s.push depth y = s := if_pos h

theorem push_of_not_mem {y : α} (h : y ∉ s.visited) (depth : Nat) : s.push depth y =
    { s with visited := s.visited ++ [y], queue := s.queue ++ [(y, depth)] } := if_neg h

/-- The number bounds the turns. -/
def run (next : α → List α) (maxDepth : Nat) : Nat → Search α → Option (List α)
  | 0, _ => none
  | n + 1, s =>
    match s.queue with
    | [] => some s.output
    | (x, depth) :: queue =>
      if maxDepth < depth then run next maxDepth n { s with queue }
      else run next maxDepth n ((next x).foldl (push (depth + 1)) { s with queue, output := s.output ++ [x] })

theorem foldl_push (depth : Nat) (ys : List α) (s : Search α) :
    ∃ new : List α, new.Nodup ∧ (∀ y, y ∈ new ↔ y ∈ ys ∧ y ∉ s.visited) ∧
      ys.foldl (push depth) s =
        { s with visited := s.visited ++ new, queue := s.queue ++ new.map fun y => (y, depth) } := by
  induction ys generalizing s with
  | nil => exact ⟨[], List.nodup_nil, by simp, by simp⟩
  | cons y ys ih =>
    rw [List.foldl_cons]
    by_cases hy : y ∈ s.visited
    · rw [push_of_mem hy]
      obtain ⟨new, nodup, mem, heq⟩ := ih s
      refine ⟨new, nodup, fun z => ?_, heq⟩
      rw [mem, List.mem_cons]
      refine ⟨fun h => ⟨.inr h.1, h.2⟩, fun h => ⟨h.1.resolve_left ?_, h.2⟩⟩
      rintro rfl
      exact h.2 hy
    · rw [push_of_not_mem hy]
      obtain ⟨new, nodup, mem, heq⟩ :=
        ih { s with visited := s.visited ++ [y], queue := s.queue ++ [(y, depth)] }
      have hnew : y ∉ new := fun h => ((mem y).mp h).2 (by simp)
      refine ⟨y :: new, List.nodup_cons.mpr ⟨hnew, nodup⟩, fun z => ?_, ?_⟩
      · rw [List.mem_cons, mem, List.mem_cons, List.mem_append, List.mem_singleton]
        by_cases hz : z = y
        · simp [hz, hy]
        · simp [hz]
      · rw [heq]
        simp

end Run

/-- A search on its way: the depth of what is queued is its distance, and nothing was missed so far. -/
structure Inv (next : α → List α) (maxDepth : Nat) (start : α) (s : Search α) : Prop where
  nodup : (s.output ++ s.queue.map Prod.fst).Nodup
  visited : ∀ x, x ∈ s.visited ↔ x ∈ s.output ∨ x ∈ s.queue.map Prod.fst
  origin : start ∈ s.visited
  queued : ∀ p ∈ s.queue, Hops (LeadsTo next) start p.2 p.1 ∧
    distance (LeadsTo next) start p.1 = p.2
  output : ∀ x ∈ s.output, ∃ n ≤ maxDepth, Hops (LeadsTo next) start n x
  sorted : (s.output.map (distance (LeadsTo next) start) ++ s.queue.map Prod.snd).Pairwise (· ≤ ·)
  spread : ∀ p ∈ s.queue, ∀ q ∈ s.queue, q.2 ≤ p.2 + 1
  closed : ∀ x ∈ s.output, ∀ y ∈ next x, y ∈ s.visited

theorem Inv.init (next : α → List α) (maxDepth : Nat) (start : α) :
    Inv next maxDepth start ⟨[start], [(start, 0)], []⟩ where
  nodup := List.nodup_singleton start
  visited x := by simp
  origin := List.mem_singleton_self start
  queued p hp := by
    obtain rfl := List.mem_singleton.mp hp
    exact ⟨.refl, Nat.le_zero.mp (distance_le .refl)⟩
  output := nofun
  sorted := List.pairwise_singleton ..
  spread p hp q hq := by
    obtain rfl := List.mem_singleton.mp hp
    obtain rfl := List.mem_singleton.mp hq
    exact Nat.le_succ _
  closed := nofun

namespace Inv

/-- What was not met yet has a way to it through something in the queue. -/
theorem met (h : Inv next maxDepth start s) {n : Nat} {y : α}
    (hops : Hops (LeadsTo next) start n y) : y ∈ s.visited ∨ ∃ p ∈ s.queue, p.2 < n := by
  induction hops with
  | refl => exact .inl h.origin
  | @tail n x y hops hxy ih =>
    rcases ih with hx | ⟨p, hp, hlt⟩
    · rcases (h.visited x).mp hx with hx | hx
      · exact .inl (h.closed x hx y hxy)
      · obtain ⟨p, hp, rfl⟩ := List.mem_map.mp hx
        have hle := distance_le hops
        rw [(h.queued p hp).2] at hle
        exact .inr ⟨p, hp, Nat.lt_succ_of_le hle⟩
    · exact .inr ⟨p, hp, Nat.lt_succ_of_lt hlt⟩

theorem head_le {x : α} {depth : Nat} {queue : List (α × Nat)} (h : Inv next maxDepth start s)
    (hqueue : s.queue = (x, depth) :: queue) : ∀ p ∈ s.queue, depth ≤ p.2 := by
  have sorted := (List.pairwise_append.mp h.sorted).2.1
  rw [hqueue, List.map_cons, List.pairwise_cons] at sorted
  intro p hp
  rw [hqueue] at hp
  rcases List.mem_cons.mp hp with rfl | hp
  · exact Nat.le_refl _
  · exact sorted.1 p.2 (List.mem_map_of_mem hp)

/-- All that is queued lies as deep as the head, or one hop deeper. -/
theorem queue_depth {x : α} {depth : Nat} {queue : List (α × Nat)} (h : Inv next maxDepth start s)
    (hqueue : s.queue = (x, depth) :: queue) : ∀ p ∈ queue, depth ≤ p.2 ∧ p.2 ≤ depth + 1 := by
  intro p hp
  have hmem : p ∈ s.queue := hqueue ▸ List.mem_cons_of_mem _ hp
  exact ⟨h.head_le hqueue p hmem, h.spread (x, depth) (hqueue ▸ List.mem_cons_self) p hmem⟩

/-- What the head of the queue leads to first is one hop farther than the head. -/
theorem distance_new {x y : α} {depth : Nat} {queue : List (α × Nat)} (h : Inv next maxDepth start s)
    (hqueue : s.queue = (x, depth) :: queue) (hxy : y ∈ next x) (hnew : y ∉ s.visited) :
    Hops (LeadsTo next) start (depth + 1) y ∧ distance (LeadsTo next) start y = depth + 1 := by
  have hhead : (x, depth) ∈ s.queue := hqueue ▸ List.mem_cons_self
  have hops : Hops (LeadsTo next) start (depth + 1) y := .tail (h.queued _ hhead).1 hxy
  refine ⟨hops, Nat.le_antisymm (distance_le hops) (Nat.succ_le_of_lt ?_)⟩
  rcases h.met (hops_distance hops) with hmet | ⟨p, hp, hlt⟩
  · exact absurd hmet hnew
  · exact Nat.lt_of_le_of_lt (h.head_le hqueue p hp) hlt

/-- Where what is queued lies too deep, all within the depth was visited. -/
theorem explores (h : Inv next maxDepth start s) (hdeep : ∀ p ∈ s.queue, maxDepth < p.2) :
    Explores (LeadsTo next) start maxDepth s.output where
  nodup := (List.nodup_append.mp h.nodup).1
  mem_iff x := by
    refine ⟨h.output x, fun ⟨n, hn, hops⟩ => ?_⟩
    rcases h.met hops with hx | ⟨p, hp, hlt⟩
    · rcases (h.visited x).mp hx with hx | hx
      · exact hx
      · obtain ⟨p, hp, rfl⟩ := List.mem_map.mp hx
        have hle := distance_le hops
        have hlt := hdeep p hp
        rw [(h.queued p hp).2] at hle
        omega
    · have := hdeep p hp
      omega
  sorted := List.pairwise_map.mp (List.pairwise_append.mp h.sorted).1

theorem expand [DecidableEq α] {x : α} {depth : Nat} {queue : List (α × Nat)} (h : Inv next maxDepth start s)
    (hqueue : s.queue = (x, depth) :: queue) (hle : depth ≤ maxDepth) :
    Inv next maxDepth start
      ((next x).foldl (push (depth + 1)) { s with queue, output := s.output ++ [x] }) := by
  obtain ⟨new, nodup, mem, heq⟩ := foldl_push (depth + 1) (next x) { s with queue, output := s.output ++ [x] }
  have hmap : (new.map fun y => (y, depth + 1)).map Prod.fst = new := by
    rw [List.map_map]
    exact List.map_id new
  have hsplit : s.queue.map Prod.fst = x :: queue.map Prod.fst := by rw [hqueue, List.map_cons]
  have hhead : (x, depth) ∈ s.queue := hqueue ▸ List.mem_cons_self
  have hqueued := h.queued _ hhead
  have hrest {p : α × Nat} (hp : p ∈ queue) : p ∈ s.queue := hqueue ▸ List.mem_cons_of_mem _ hp
  have hnew (y : α) (hy : y ∈ new) : Hops (LeadsTo next) start (depth + 1) y ∧
      distance (LeadsTo next) start y = depth + 1 :=
    h.distance_new hqueue ((mem y).mp hy).1 ((mem y).mp hy).2
  have hmem (p : α × Nat) (hp : p ∈ queue ++ new.map fun y => (y, depth + 1)) :
      depth ≤ p.2 ∧ p.2 ≤ depth + 1 := by
    rcases List.mem_append.mp hp with hp | hp
    · exact h.queue_depth hqueue p hp
    · obtain ⟨y, -, rfl⟩ := List.mem_map.mp hp
      exact ⟨Nat.le_succ _, Nat.le_refl _⟩
  rw [heq]
  constructor
  case nodup =>
    have hold := h.nodup
    rw [hsplit] at hold
    have hlist : s.output ++ [x] ++ (queue ++ new.map fun y => (y, depth + 1)).map Prod.fst =
        s.output ++ x :: queue.map Prod.fst ++ new := by
      rw [List.map_append, hmap, List.append_assoc, List.append_assoc]
      rfl
    rw [hlist]
    refine List.nodup_append.mpr ⟨hold, nodup, fun y hy z hz => ?_⟩
    rintro rfl
    rw [← hsplit, List.mem_append] at hy
    exact ((mem y).mp hz).2 ((h.visited y).mpr hy)
  case visited =>
    intro y
    simp only [List.map_append, hmap, List.mem_append, h.visited, hsplit, List.mem_cons]
    tauto
  case origin =>
    exact List.mem_append_left _ h.origin
  case queued =>
    intro p hp
    rcases List.mem_append.mp hp with hp | hp
    · exact h.queued p (hrest hp)
    · obtain ⟨y, hy, rfl⟩ := List.mem_map.mp hp
      exact hnew y hy
  case output =>
    intro y hy
    rcases List.mem_append.mp hy with hy | hy
    · exact h.output y hy
    · obtain rfl := List.mem_singleton.mp hy
      exact ⟨depth, hle, hqueued.1⟩
  case sorted =>
    have hold := h.sorted
    rw [hqueue, List.map_cons] at hold
    have hlist : (s.output ++ [x]).map (distance (LeadsTo next) start) ++
          (queue ++ new.map fun y => (y, depth + 1)).map Prod.snd =
        s.output.map (distance (LeadsTo next) start) ++ depth :: queue.map Prod.snd ++
          List.replicate new.length (depth + 1) := by
      simp [hqueued.2, Function.comp_def, List.map_const']
    rw [hlist]
    refine List.pairwise_append.mpr ⟨hold, List.pairwise_replicate_of_refl, fun a ha b hb => ?_⟩
    rw [List.eq_of_mem_replicate hb]
    rcases List.mem_append.mp ha with ha | ha
    · exact Nat.le_succ_of_le ((List.pairwise_append.mp hold).2.2 a ha depth List.mem_cons_self)
    · rcases List.mem_cons.mp ha with rfl | ha
      · exact Nat.le_succ _
      · obtain ⟨p, hp, rfl⟩ := List.mem_map.mp ha
        exact (h.queue_depth hqueue p hp).2
  case spread =>
    intro p hp q hq
    have := hmem p hp
    have := hmem q hq
    omega
  case closed =>
    intro y hy z hz
    rcases List.mem_append.mp hy with hy | hy
    · exact List.mem_append_left _ (h.closed y hy z hz)
    · obtain rfl := List.mem_singleton.mp hy
      by_cases hvisited : z ∈ s.visited
      · exact List.mem_append_left _ hvisited
      · exact List.mem_append_right _ ((mem z).mpr ⟨hz, hvisited⟩)

/-- What a search met lies in a set that no hop leaves. -/
theorem length_le {U : List α} (h : Inv next maxDepth start s) (hstart : start ∈ U)
    (hclosed : ∀ x ∈ U, ∀ y ∈ next x, y ∈ U) : s.output.length + s.queue.length ≤ U.length := by
  have hin {n : Nat} {x : α} (hops : Hops (LeadsTo next) start n x) : x ∈ U := by
    induction hops with
    | refl => exact hstart
    | @tail n x y _ hxy ih => exact hclosed x ih y hxy
  have hsub : s.output ++ s.queue.map Prod.fst ⊆ U := by
    intro x hx
    rcases List.mem_append.mp hx with hx | hx
    · obtain ⟨n, -, hops⟩ := h.output x hx
      exact hin hops
    · obtain ⟨p, hp, rfl⟩ := List.mem_map.mp hx
      exact hin (h.queued p hp).1
  have hle := (h.nodup.subperm hsub).length_le
  rwa [List.length_append, List.length_map] at hle

end Inv

variable [DecidableEq α]

theorem run_deep {n : Nat} (hdeep : ∀ p ∈ s.queue, maxDepth < p.2) (hn : s.queue.length < n) :
    run next maxDepth n s = some s.output := by
  induction n generalizing s with
  | zero => exact absurd hn (Nat.not_lt_zero _)
  | succ n ih =>
    rw [run]
    cases hqueue : s.queue with
    | nil => rfl
    | cons p queue =>
      rw [hqueue] at hdeep hn
      dsimp only
      rw [if_pos (hdeep p List.mem_cons_self)]
      exact ih (fun q hq => hdeep q (List.mem_cons_of_mem _ hq)) (Nat.lt_of_succ_lt_succ hn)

theorem Inv.run {U : List α} (h : Inv next maxDepth start s) (hstart : start ∈ U)
    (hclosed : ∀ x ∈ U, ∀ y ∈ next x, y ∈ U) {n : Nat} (hn : U.length < n + s.output.length) :
    ∃ out, Search.run next maxDepth n s = some out ∧ Explores (LeadsTo next) start maxDepth out := by
  induction n generalizing s with
  | zero =>
    have := h.length_le hstart hclosed
    omega
  | succ n ih =>
    cases hqueue : s.queue with
    | nil =>
      refine ⟨s.output, ?_, h.explores (by simp [hqueue])⟩
      rw [Search.run, hqueue]
    | cons p queue =>
      obtain ⟨x, depth⟩ := p
      by_cases hle : depth ≤ maxDepth
      · rw [Search.run, hqueue]
        dsimp only
        rw [if_neg (Nat.not_lt.mpr hle)]
        refine ih (h.expand hqueue hle) ?_
        obtain ⟨new, -, -, heq⟩ := foldl_push (depth + 1) (next x)
          { s with queue, output := s.output ++ [x] }
        rw [heq, List.length_append, List.length_singleton]
        omega
      · have hdeep : ∀ p ∈ s.queue, maxDepth < p.2 := fun p hp =>
          Nat.lt_of_lt_of_le (Nat.not_le.mp hle) (h.head_le hqueue p hp)
        have hlen := h.length_le hstart hclosed
        exact ⟨s.output, run_deep hdeep (by omega), h.explores hdeep⟩

/-- A search with a turn for everything that there is finds what is within the depth. -/
theorem run_explores (maxDepth : Nat) {U : List α} (hstart : start ∈ U)
    (hclosed : ∀ x ∈ U, ∀ y ∈ next x, y ∈ U) : ∃ out, run next maxDepth (U.length + 1) ⟨[start], [(start, 0)], []⟩ = some out ∧
      Explores (LeadsTo next) start maxDepth out :=
  (Inv.init next maxDepth start).run hstart hclosed (Nat.lt_succ_self _)

end Search

end Ecco9.Library
