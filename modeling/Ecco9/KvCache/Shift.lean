import Ecco9.KvCache.Reachable

/-! Which key rows `shift` rotates, and by how much, for any split of the range into batches. -/

universe u

namespace Ecco9.KvCache

open Ecco9.Library

/-- The key row of a cell in a layer that has tensors. -/
def Causal.keyRow (c : Causal κ) (l j : Nat) : Option κ := (c.tensors.getD l none).map (·.key j)

/-- What `shift` makes of a row that it hands to `shiftFn`. -/
def Causal.turned (c : Causal κ) (fn : ShiftFn κ) (seq beginIndex offset : Int) (l j : Nat)
    (row : κ) : κ :=
  fn.rotate l row (if (c.cell j).shifts seq beginIndex then offset else 0)

/-- Cell `j` is between two cells of a batch that are to be shifted, or is one of them. -/
def Causal.Spanned (c : Causal κ) (seq beginIndex : Int) (start size j : Nat) : Prop :=
  (∃ i, i ≤ j ∧ start ≤ i ∧ i < start + size ∧ (c.cell i).shifts seq beginIndex) ∧
    ∃ k, j ≤ k ∧ start ≤ k ∧ k < start + size ∧ (c.cell k).shifts seq beginIndex

theorem head?_le_iff {l : List Nat} (sorted : l.Pairwise (· < ·)) {first : Nat}
    (h : l.head? = some first) (j : Nat) : first ≤ j ↔ ∃ i ∈ l, i ≤ j := by
  obtain ⟨rest, rfl⟩ := List.head?_eq_some_iff.mp h
  constructor
  · exact fun hle => ⟨first, List.mem_cons_self, hle⟩
  · rintro ⟨i, hi, hle⟩
    rcases List.mem_cons.mp hi with rfl | hi
    · exact hle
    · exact (Nat.le_of_lt (List.rel_of_pairwise_cons sorted hi)).trans hle

theorem le_getLast?_iff {l : List Nat} (sorted : l.Pairwise (· < ·)) {last : Nat}
    (h : l.getLast? = some last) (j : Nat) : j ≤ last ↔ ∃ k ∈ l, j ≤ k := by
  obtain ⟨rest, rfl⟩ := List.getLast?_eq_some_iff.mp h
  constructor
  · exact fun hle => ⟨last, List.mem_append_right _ List.mem_cons_self, hle⟩
  · rintro ⟨k, hk, hle⟩
    rcases List.mem_append.mp hk with hk | hk
    · have hlt := (List.pairwise_append.mp sorted).2.2 k hk last List.mem_cons_self
      exact hle.trans (Nat.le_of_lt hlt)
    · rwa [List.mem_singleton.mp hk] at hle

/-! ### One batch -/

theorem Causal.keyRow_mapIdx (c : Causal κ) (f : Nat → LayerTensors κ → LayerTensors κ)
    (l j : Nat) : ({ c with tensors := c.tensors.mapIdx fun l t => t.map (f l) } : Causal κ).keyRow l j =
      (c.tensors.getD l none).map fun t => (f l t).key j := by
  simp only [keyRow, List.getD_eq_getElem?_getD, List.getElem?_mapIdx]
  cases c.tensors[l]? with
  | none => rfl
  | some t => cases t <;> rfl

theorem Causal.shiftBatch_keyRow {c c' : Causal κ} {fn : ShiftFn κ} {seq beginIndex offset : Int}
    {start size : Nat} (h : c.shiftBatch fn seq beginIndex offset start size = some c')
    (l j : Nat) :
    (c.Spanned seq beginIndex start size j →
      c'.keyRow l j = (c.keyRow l j).map (c.turned fn seq beginIndex offset l j)) ∧
    (¬c.Spanned seq beginIndex start size j → c'.keyRow l j = c.keyRow l j) := by
  unfold shiftBatch at h
  dsimp only at h
  generalize hhits : (List.range' start size).filter
    (fun i => (c.cell i).shifts seq beginIndex) = hits at h
  have mem (i : Nat) : i ∈ hits ↔
      start ≤ i ∧ i < start + size ∧ (c.cell i).shifts seq beginIndex := by
    rw [← hhits, List.mem_filter, List.mem_range'_1, and_assoc]
  have sorted : hits.Pairwise (· < ·) := hhits ▸ (List.pairwise_lt_range' 1).filter _
  split at h
  · rename_i first last hfirst hlast
    have spanned : first ≤ j ∧ j ≤ last ↔ c.Spanned seq beginIndex start size j := by
      rw [head?_le_iff sorted hfirst, le_getLast?_iff sorted hlast]
      simp only [mem, Spanned, and_comm, and_left_comm]
    split at h
    · cases h
    · obtain rfl := Option.some.inj h
      rw [keyRow_mapIdx c (fun l t => { t with key := fun j => _ }), ← spanned, keyRow]
      constructor
      · intro hin
        cases c.tensors.getD l none with
        | none => rfl
        | some t => exact congrArg some (if_pos hin)
      · intro hout
        cases c.tensors.getD l none with
        | none => rfl
        | some t => exact congrArg some (if_neg hout)
  · rename_i hnone
    obtain rfl := Option.some.inj h
    refine ⟨?_, fun _ => rfl⟩
    rintro ⟨⟨i, -, hlo, hhi, hi⟩, -⟩
    -- with a cell to be shifted, there are a first and a last
    have hne : hits ≠ [] := List.ne_nil_of_mem ((mem i).mpr ⟨hlo, hhi, hi⟩)
    exact (hnone _ _ (List.head?_eq_some_head hne) (List.getLast?_eq_some_getLast hne)).elim

/-! ### All batches -/

theorem Causal.Spanned.congr {c c' : Causal κ} (cells : c'.cells = c.cells) {seq beginIndex : Int}
    {start size j : Nat} :
    c'.Spanned seq beginIndex start size j ↔ c.Spanned seq beginIndex start size j := by
  simp only [Spanned, cell, cells]

theorem Causal.turned_congr {c c' : Causal κ} (cells : c'.cells = c.cells) (fn : ShiftFn κ)
    (seq beginIndex offset : Int) (l j : Nat) :
    c'.turned fn seq beginIndex offset l j = c.turned fn seq beginIndex offset l j := by
  funext row
  unfold turned cell
  rw [cells]

/-- The batch of `shift` with number `k`. -/
def Causal.SpannedBy (c : Causal κ) (seq beginIndex : Int) (r : CellRange) (j k : Nat) : Prop :=
  c.Spanned seq beginIndex (r.min + k * c.maxBatch)
    (Nat.min (r.max + 1 - (r.min + k * c.maxBatch)) c.maxBatch) j

/-- Batches do not overlap. -/
theorem Causal.SpannedBy.unique {c : Causal κ} {seq beginIndex : Int} {r : CellRange} {j k : Nat}
    (h : c.SpannedBy seq beginIndex r j k) : (j - r.min) / c.maxBatch = k := by
  obtain ⟨⟨i, hij, hlo, hhi, -⟩, i', hji', -, hhi', -⟩ := h
  have hsize : Nat.min (r.max + 1 - (r.min + k * c.maxBatch)) c.maxBatch ≤ c.maxBatch :=
    Nat.min_le_right ..
  refine Nat.div_eq_of_lt_le (by omega) ?_
  rw [Nat.succ_mul]
  omega

theorem Causal.shiftBatches_keyRow {c : Causal κ} {fn : ShiftFn κ} {seq beginIndex offset : Int}
    {r : CellRange} {ks : List Nat} (nodup : ks.Nodup)
    (h : (c.shiftBatches fn seq beginIndex offset r ks).2 = none) (l j : Nat) :
    ((∃ k ∈ ks, c.SpannedBy seq beginIndex r j k) →
      (c.shiftBatches fn seq beginIndex offset r ks).1.keyRow l j =
        (c.keyRow l j).map (c.turned fn seq beginIndex offset l j)) ∧
    ((¬∃ k ∈ ks, c.SpannedBy seq beginIndex r j k) →
      (c.shiftBatches fn seq beginIndex offset r ks).1.keyRow l j = c.keyRow l j) := by
  induction ks generalizing c with
  | nil =>
    constructor
    · rintro ⟨k, hk, -⟩
      cases hk
    · exact fun _ => rfl
  | cons k ks ih =>
    simp only [shiftBatches] at h ⊢
    cases hbatch : c.shiftBatch fn seq beginIndex offset (r.min + k * c.maxBatch)
        (Nat.min (r.max + 1 - (r.min + k * c.maxBatch)) c.maxBatch) with
    | none =>
      rw [hbatch] at h
      cases h
    | some c₁ =>
      rw [hbatch] at h
      dsimp only at h ⊢
      obtain ⟨hnotMem, nodup⟩ := List.nodup_cons.mp nodup
      have setup := shiftBatch_setup hbatch
      have cells : c₁.cells = c.cells := by rw [setup]
      have maxBatch : c₁.maxBatch = c.maxBatch := by rw [setup]
      have spanned (k : Nat) :
          c₁.SpannedBy seq beginIndex r j k ↔ c.SpannedBy seq beginIndex r j k := by
        rw [SpannedBy, maxBatch]
        exact Spanned.congr cells
      obtain ⟨ihin, ihout⟩ := ih nodup h
      simp only [spanned, turned_congr cells] at ihin ihout
      obtain ⟨hin, hout⟩ := shiftBatch_keyRow hbatch l j
      by_cases hk : c.SpannedBy seq beginIndex r j k
      · have rest : ¬∃ k ∈ ks, c.SpannedBy seq beginIndex r j k := by
          rintro ⟨k', hk', h'⟩
          rw [← hk.unique, h'.unique] at hnotMem
          exact hnotMem hk'
        refine ⟨fun _ => (ihout rest).trans (hin hk), fun hnone => ?_⟩
        exact absurd ⟨k, List.mem_cons_self, hk⟩ hnone
      · constructor
        · rintro ⟨k', hk', h'⟩
          rcases List.mem_cons.mp hk' with rfl | hk'
          · exact absurd h' hk
          · rw [ihin ⟨k', hk', h'⟩, hout hk]
        · intro hnone
          have rest : ¬∃ k ∈ ks, c.SpannedBy seq beginIndex r j k := by
            rintro ⟨k', hk', h'⟩
            exact hnone ⟨k', List.mem_cons_of_mem _ hk', h'⟩
          rw [ihout rest, hout hk]

/-- Cell `j` lies between two cells that are to be shifted in one batch, where the batches are
counted from cell `first`, or is one of them. -/
def Causal.Turns (c : Causal κ) (seq beginIndex : Int) (first j : Nat) : Prop :=
  ∃ i k, i ≤ j ∧ j ≤ k ∧ (c.cell i).shifts seq beginIndex ∧ (c.cell k).shifts seq beginIndex ∧
    (i - first) / c.maxBatch = (k - first) / c.maxBatch

theorem Causal.turns_iff {c : Causal κ} (hbatch : 0 < c.maxBatch) {seq beginIndex : Int}
    {r : CellRange} (has : ∀ i, (c.cell i).shifts seq beginIndex → r.Has i) (j : Nat) :
    (∃ k ∈ List.range ((r.max + 1 - r.min + c.maxBatch - 1) / c.maxBatch),
      c.SpannedBy seq beginIndex r j k) ↔ c.Turns seq beginIndex r.min j := by
  constructor
  · rintro ⟨k, -, ⟨i, hij, hlo, hhi, hi⟩, i', hji', hlo', hhi', hi'⟩
    have hsize : Nat.min (r.max + 1 - (r.min + k * c.maxBatch)) c.maxBatch ≤ c.maxBatch :=
    Nat.min_le_right ..
    have quotient (x : Nat) (h : r.min + k * c.maxBatch ≤ x)
        (h' : x < r.min + k * c.maxBatch + c.maxBatch) : (x - r.min) / c.maxBatch = k := by
      refine Nat.div_eq_of_lt_le (by omega) ?_
      rw [Nat.succ_mul]
      omega
    refine ⟨i, i', hij, hji', hi, hi', ?_⟩
    rw [quotient i hlo (by omega), quotient i' hlo' (by omega)]
  · rintro ⟨i, i', hij, hji', hi, hi', heq⟩
    obtain ⟨hmin, hmax⟩ := has i hi
    obtain ⟨hmin', hmax'⟩ := has i' hi'
    have bound (x : Nat) : (x - r.min) / c.maxBatch * c.maxBatch ≤ x - r.min ∧
        x - r.min < (x - r.min) / c.maxBatch * c.maxBatch + c.maxBatch := by
      have hdiv := Nat.div_add_mod' (x - r.min) c.maxBatch
      have hmod := Nat.mod_lt (x - r.min) hbatch
      omega
    have hlo := bound i
    have hhi := bound i'
    rw [← heq] at hhi
    generalize hk : (i - r.min) / c.maxBatch = k at hlo hhi
    have fits (x : Nat) (h : x ≤ r.max) (h' : x - r.min < k * c.maxBatch + c.maxBatch)
        (hx : r.min ≤ x) : x < r.min + k * c.maxBatch +
          Nat.min (r.max + 1 - (r.min + k * c.maxBatch)) c.maxBatch := by
      change x < _ + min _ _
      omega
    refine ⟨k, ?_, ⟨i, hij, by omega, fits i hmax hlo.2 hmin, hi⟩, i', hji', by omega,
      fits i' hmax' hhi.2 hmin', hi'⟩
    rw [List.mem_range, Nat.lt_iff_add_one_le, Nat.le_div_iff_mul_le hbatch, Nat.succ_mul]
    omega

/-- Where `shift` succeeds, exactly the rows of the cells that it shifts and those between them in a
batch have gone through `shiftFn`, each once. -/
theorem Causal.shift_keyRow {c : Causal κ} (hbatch : 0 < c.maxBatch) {fn : ShiftFn κ}
    (hfn : c.shiftFn = some fn) {seq beginIndex offset : Int} {r : CellRange}
    (hr : c.cellRanges seq = some r) (has : ∀ i, (c.cell i).shifts seq beginIndex → r.Has i)
    (h : (c.shift seq beginIndex offset).2 = none) (l j : Nat) :
    (c.Turns seq beginIndex r.min j → (c.shift seq beginIndex offset).1.keyRow l j =
      (c.keyRow l j).map (c.turned fn seq beginIndex offset l j)) ∧
    (¬c.Turns seq beginIndex r.min j →
      (c.shift seq beginIndex offset).1.keyRow l j = c.keyRow l j) := by
  unfold shift at h ⊢
  simp only [hfn, hr, Option.getD_some] at h ⊢
  rw [← turns_iff hbatch has]
  exact shiftBatches_keyRow List.nodup_range h l j

end Ecco9.KvCache
