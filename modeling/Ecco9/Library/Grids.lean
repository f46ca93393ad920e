import Mathlib.Data.List.Perm.Basic
import Mathlib.Data.List.Range
import Mathlib.Data.List.Sort
import Mathlib.Algebra.BigOperators.Group.List.Lemmas

/-! Grids that are cut into rectangles, and rows that are gathered by a list of indices. -/

universe u v w

namespace Ecco9.Library

/-! ### Cuts of a range -/

/-- The least number of parts of size `s` that cover `n`. -/
def ceilDiv (n s : Nat) : Nat := (n + s - 1) / s

theorem le_ceilDiv_mul (n : Nat) {s : Nat} (hs : 0 < s) : n ≤ ceilDiv n s * s := by
  have hdiv := Nat.div_add_mod (n + s - 1) s
  have hmod := Nat.mod_lt (n + s - 1) hs
  rw [ceilDiv, Nat.mul_comm]
  omega

theorem ceilDiv_mul (n : Nat) {s : Nat} (hs : 0 < s) : ceilDiv (n * s) s = n := by
  rw [ceilDiv, Nat.add_sub_assoc hs, Nat.mul_comm, Nat.mul_add_div hs, Nat.div_eq_of_lt (by omega),
    Nat.add_zero]

theorem mul_lt_of_lt_ceilDiv {n s k : Nat} (hs : 0 < s) (hk : k < ceilDiv n s) : k * s < n := by
  have hle : (k + 1) * s ≤ n + s - 1 := (Nat.le_div_iff_mul_le hs).mp hk
  rw [Nat.succ_mul] at hle
  omega

/-- The `k`-th part of a range that is cut into parts of size `s`; the last one may be shorter. -/
def part (n s k : Nat) : List Nat := List.range' (k * s) (min (k * s + s) n - k * s)

theorem mem_part {n s k i : Nat} (hs : 0 < s) : i ∈ part n s k ↔ i < n ∧ i / s = k := by
  rw [part, List.mem_range'_1, Nat.div_eq_iff hs]
  omega

theorem part_mul {n s k : Nat} (hk : k < n) : part (n * s) s k = (List.range s).map (k * s + ·) := by
  have hle : (k + 1) * s ≤ n * s := Nat.mul_le_mul_right s hk
  rw [Nat.succ_mul] at hle
  rw [part, Nat.min_eq_left hle, Nat.add_sub_cancel_left, List.range'_eq_map_range]

theorem flatMap_part_fits (n s k : Nat) :
    (List.range k).flatMap (part n s) = List.range (min (k * s) n) := by
  induction k with
  | zero => rw [Nat.zero_mul, Nat.zero_min]; rfl
  | succ k ih =>
    rw [List.range_succ, List.flatMap_append, ih, List.flatMap_singleton, part, Nat.succ_mul,
      List.range_eq_range', List.range_eq_range']
    rcases Nat.le_total (k * s) n with hle | hle
    · have happend := @List.range'_append_1 0 (k * s) (min (k * s + s) n - k * s)
      rw [Nat.zero_add] at happend
      rw [Nat.min_eq_left hle, happend]
      congr 1
      omega
    · rw [Nat.min_eq_right hle, Nat.min_eq_right (by omega),
        Nat.sub_eq_zero_of_le (by omega : n ≤ k * s), List.range'_zero, List.append_nil]

/-- The parts of a range make it up. -/
theorem flatMap_part (n : Nat) {s : Nat} (hs : 0 < s) :
    (List.range (ceilDiv n s)).flatMap (part n s) = List.range n := by
  rw [flatMap_part_fits, Nat.min_eq_right (le_ceilDiv_mul n hs)]

/-! ### Cuts of a grid -/

section Grid

variable {α : Type u} {β : Type v} {γ : Type w}

theorem flatMap_comm (l : List α) (l' : List β) (f : α → β → List γ) :
    (l.flatMap fun x => l'.flatMap (f x)).Perm (l'.flatMap fun y => l.flatMap fun x => f x y) := by
  induction l' with
  | nil => simp
  | cons y l' ih =>
    simp only [List.flatMap_cons]
    exact (List.flatMap_append_perm l _ _).symm.trans (ih.append_left _)

/-- The cells of a rectangle, row by row. -/
def cells (rows cols : List Nat) (f : Nat → Nat → α) : List α :=
  rows.flatMap fun h => cols.map (f h)

theorem mem_cells {rows cols : List Nat} {f : Nat → Nat → α} {x : α} :
    x ∈ cells rows cols f ↔ ∃ h ∈ rows, ∃ w ∈ cols, f h w = x := by
  simp only [cells, List.mem_flatMap, List.mem_map]

theorem length_cells (rows cols : List Nat) (f : Nat → Nat → α) :
    (cells rows cols f).length = rows.length * cols.length := by
  induction rows with
  | nil => rw [List.length_nil, Nat.zero_mul]; rfl
  | cons h rows ih =>
    rw [cells, List.flatMap_cons, ← cells, List.length_append, ih, List.length_map, List.length_cons,
      Nat.succ_mul, Nat.add_comm]

theorem map_cells (rows cols : List Nat) (f : Nat → Nat → α) (g : α → β) :
    (cells rows cols f).map g = cells rows cols fun h w => g (f h w) := by
  rw [cells, List.map_flatMap]
  simp only [List.map_map]
  rfl

/-- The rectangles of a grid of `a` rows and `b` columns make it up. -/
theorem cells_perm (a b : Nat) {s : Nat} (hs : 0 < s) (f : Nat → Nat → α) :
    ((List.range (ceilDiv a s)).flatMap fun i => (List.range (ceilDiv b s)).flatMap fun j =>
      cells (part a s i) (part b s j) f).Perm (cells (List.range a) (List.range b) f) := by
  have hrow (i : Nat) : ((List.range (ceilDiv b s)).flatMap fun j =>
      cells (part a s i) (part b s j) f).Perm (cells (part a s i) (List.range b) f) := by
    refine (flatMap_comm _ _ fun j h => (part b s j).map (f h)).trans ?_
    refine List.Perm.of_eq (List.flatMap_congr fun h _ => ?_)
    rw [← List.map_flatMap, flatMap_part b hs]
  refine (List.Perm.flatMap_left _ fun i _ => hrow i).trans (List.Perm.of_eq ?_)
  simp only [cells]
  rw [← List.flatMap_assoc, flatMap_part a hs]

theorem cells_map (rows cols : List Nat) (g g' : Nat → Nat) (f : Nat → Nat → α) :
    cells (rows.map g) (cols.map g') f = cells rows cols fun h w => f (g h) (g' w) := by
  simp only [cells, List.flatMap_map, List.map_map]
  rfl

/-- Squares of side `s` make up a grid of `a` times `b` of them. -/
theorem cells_mul_perm (a b : Nat) {s : Nat} (hs : 0 < s) (f : Nat → Nat → α) :
    ((List.range a).flatMap fun i => (List.range b).flatMap fun j =>
      cells (List.range s) (List.range s) fun h w => f (i * s + h) (j * s + w)).Perm
    (cells (List.range (a * s)) (List.range (b * s)) f) := by
  have hperm := cells_perm (a * s) (b * s) hs f
  rw [ceilDiv_mul a hs, ceilDiv_mul b hs] at hperm
  refine (List.Perm.of_eq ?_).trans hperm
  refine List.flatMap_congr fun i hi => List.flatMap_congr fun j hj => ?_
  rw [part_mul (List.mem_range.mp hi), part_mul (List.mem_range.mp hj), cells_map]

/-- Cells that are numbered row by row. -/
theorem cells_number (a b : Nat) :
    cells (List.range a) (List.range b) (fun h w => h * b + w) = List.range (a * b) := by
  induction a with
  | zero => rw [Nat.zero_mul]; rfl
  | succ a ih =>
    rw [cells, List.range_succ, List.flatMap_append, ← cells, ih, List.flatMap_singleton, Nat.succ_mul,
      List.range_add]

end Grid

/-! ### Gathered rows -/

section Gather

variable {α : Type u}

def row (rows : List α) (i : Int) : Option α := if 0 ≤ i then rows[i.toNat]? else none

/-- The rows that the indices name, if there are all of them. -/
def gather (rows : List α) (index : List Int) : Option (List α) := index.mapM (row rows)

/-- The whole numbers below `n`. -/
def indices (n : Nat) : List Int := (List.range n).map Int.ofNat

/-- Positions that put the entries of `index` in increasing order. -/
def IsArgsort (index positions : List Int) : Prop :=
  positions.Perm (indices index.length) ∧
    ∃ sorted, gather index positions = some sorted ∧ sorted.Pairwise (· ≤ ·)

theorem row_natCast (rows : List α) (i : Nat) : row rows (Int.ofNat i) = rows[i]? :=
  if_pos (Int.natCast_nonneg i)

theorem gather_eq_some {rows l : List α} {index : List Int} :
    gather rows index = some l ↔ index.map (row rows) = l.map some := by
  induction index generalizing l with
  | nil =>
    rw [gather, List.mapM_nil, List.map_nil]
    constructor
    · intro h
      rw [← Option.some.inj h, List.map_nil]
    · intro h
      exact congrArg some (List.map_eq_nil_iff.mp h.symm).symm
  | cons i index ih =>
    rw [gather, List.mapM_cons, ← gather]
    cases l with
    | nil =>
      cases row rows i with
      | none => simp
      | some a => cases gather rows index <;> simp
    | cons b l =>
      rw [List.map_cons, List.map_cons, List.cons.injEq, ← ih]
      cases row rows i with
      | none => simp
      | some a => cases gather rows index <;> simp

theorem gather_indices (rows : List α) : gather rows (indices rows.length) = some rows := by
  rw [gather_eq_some, indices, List.map_map]
  refine List.ext_getElem? fun i => ?_
  rw [List.getElem?_map, List.getElem?_map]
  by_cases hi : i < rows.length
  · rw [List.getElem?_range hi, List.getElem?_eq_getElem hi]
    exact congrArg some ((row_natCast rows i).trans (List.getElem?_eq_getElem hi))
  · rw [List.getElem?_eq_none (by rwa [List.length_range, ← Nat.not_lt]),
      List.getElem?_eq_none (Nat.not_lt.mp hi)]
    rfl

theorem exists_gather {rows : List α} {index : List Int}
    (h : ∀ i ∈ index, i ∈ indices rows.length) : ∃ l, gather rows index = some l := by
  induction index with
  | nil => exact ⟨[], rfl⟩
  | cons i index ih =>
    obtain ⟨l, hl⟩ := ih fun j hj => h j (List.mem_cons_of_mem i hj)
    obtain ⟨k, hk, rfl⟩ := List.mem_map.mp (h i List.mem_cons_self)
    have hlt := List.mem_range.mp hk
    refine ⟨rows[k] :: l, ?_⟩
    rw [gather_eq_some] at hl ⊢
    rw [List.map_cons, List.map_cons, hl, row_natCast, List.getElem?_eq_getElem hlt]

/-- Rows that are gathered twice are those of the gathered indices. -/
theorem gather_gather {rows l : List α} {index positions found : List Int}
    (h : gather rows index = some l) (hfound : gather index positions = some found) :
    gather l positions = gather rows found := by
  rw [gather_eq_some] at h hfound
  have hrow (p : Int) : row l p = (row index p).bind (row rows) := by
    rw [row, row]
    split
    · have hget := congrArg (fun l => l[p.toNat]?) h
      simp only [List.getElem?_map] at hget
      cases hindex : index[p.toNat]? with
      | none =>
        rw [hindex, Option.map_none, eq_comm, Option.map_eq_none_iff] at hget
        exact hget
      | some i =>
        rw [hindex, Option.map_some] at hget
        cases hl : l[p.toNat]? with
        | none => rw [hl] at hget; cases hget
        | some a =>
          rw [hl] at hget
          exact (Option.some.inj hget).symm
    · rfl
  have heq : positions.map (row l) = found.map (row rows) := by
    rw [List.map_congr_left fun p _ => hrow p]
    have hbind := congrArg (List.map fun i : Option Int => i.bind (row rows)) hfound
    rwa [List.map_map, List.map_map] at hbind
  have hiff (out : List α) : gather l positions = some out ↔ gather rows found = some out := by
    rw [gather_eq_some, gather_eq_some, heq]
  cases hout : gather rows found with
  | some out => exact (hiff out).mpr hout
  | none =>
    cases hout' : gather l positions with
    | none => rfl
    | some out => rw [(hiff out).mp hout'] at hout; cases hout

theorem gather_perm {rows l l' : List α} {index index' : List Int} (hperm : index.Perm index')
    (h : gather rows index = some l) (h' : gather rows index' = some l') : l.Perm l' := by
  rw [gather_eq_some] at h h'
  have hmap := hperm.map (row rows)
  rw [h, h'] at hmap
  have hfilter := hmap.filterMap id
  simpa only [List.filterMap_map, Function.id_comp, List.filterMap_some] using hfilter

theorem indices_pairwise (n : Nat) : (indices n).Pairwise (· ≤ ·) :=
  List.pairwise_map.mpr (List.pairwise_lt_range.imp fun h => Int.ofNat_le.mpr (Nat.le_of_lt h))

theorem exists_argsort (index : List Int) : ∃ positions, IsArgsort index positions := by
  let entries := index.zipIdx.mergeSort fun a b => decide (a.1 ≤ b.1)
  have hperm : entries.Perm index.zipIdx := List.mergeSort_perm ..
  refine ⟨entries.map fun e => Int.ofNat e.2, ?_, entries.map (·.1), ?_, ?_⟩
  · refine (hperm.map _).trans (List.Perm.of_eq ?_)
    rw [indices, List.range_eq_range', ← List.zipIdx_map_snd 0 index, List.map_map]
    rfl
  · rw [gather_eq_some, List.map_map, List.map_map]
    refine List.map_congr_left fun e he => ?_
    exact (row_natCast index e.2).trans (List.mem_zipIdx_iff_getElem?.mp (hperm.mem_iff.mp he))
  · have hsorted : entries.Pairwise fun a b => decide (a.1 ≤ b.1) = true :=
      List.pairwise_mergeSort (fun a b c hab hbc => by grind) (fun a b => by grind) _
    exact List.pairwise_map.mpr (hsorted.imp fun h => of_decide_eq_true h)

/-- Gathering by an index that names every row once, and then by its argsort, changes nothing. -/
theorem gather_argsort {rows : List α} {index positions : List Int}
    (hindex : index.Perm (indices rows.length)) (hsort : IsArgsort index positions) :
    (gather rows index).bind (gather · positions) = some rows := by
  obtain ⟨hpositions, found, hfound, hsorted⟩ := hsort
  obtain ⟨l, hl⟩ := exists_gather fun i hi => hindex.mem_iff.mp hi
  have hperm : found.Perm (indices rows.length) :=
    (gather_perm hpositions hfound (gather_indices index)).trans hindex
  have heq : found = indices rows.length := hperm.eq_of_pairwise' hsorted (indices_pairwise _)
  rw [hl, Option.bind_some, gather_gather hl hfound, heq, gather_indices]

end Gather

end Ecco9.Library
