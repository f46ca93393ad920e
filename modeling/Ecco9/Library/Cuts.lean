import Mathlib.Algebra.BigOperators.Group.List.Basic
import Mathlib.Algebra.GroupWithZero.Nat
import Mathlib.Algebra.Order.BigOperators.Group.List
import Mathlib.Algebra.Order.Ring.Rat
import Mathlib.Tactic.Linarith

/-! Cumulative sums, and which of them is the first above a value; intervals, each an offset and a size,
that follow each other without a gap. -/

namespace Ecco9.Library

section

theorem take_sum_le (l : List Nat) (j : Nat) : (l.take j).sum ≤ l.sum := by
  conv_rhs => rw [← List.take_append_drop j l, List.sum_append]
  exact Nat.le_add_right ..

/-- Every number below the sum of a list is at one of its elements. -/
theorem exists_take_sum {l : List Nat} {k : Nat} (h : k < l.sum) :
    ∃ j, (l.take j).sum ≤ k ∧ k < (l.take (j + 1)).sum := by
  induction l generalizing k with
  | nil => simp at h
  | cons x l ih =>
    by_cases hx : k < x
    · exact ⟨0, by simp, by simpa using hx⟩
    · rw [List.sum_cons] at h
      obtain ⟨j, hlo, hhi⟩ := ih (k := k - x) (by omega)
      refine ⟨j + 1, ?_, ?_⟩
      · rw [List.take_succ_cons, List.sum_cons]
        omega
      · rw [List.take_succ_cons, List.sum_cons]
        omega

/-- The sums of the first elements, over `acc`. -/
def cumulative (acc : ℚ) : List ℚ → List ℚ
  | [] => []
  | x :: l => (acc + x) :: cumulative (acc + x) l

@[simp] theorem length_cumulative (acc : ℚ) (l : List ℚ) : (cumulative acc l).length = l.length := by
  induction l generalizing acc with
  | nil => rfl
  | cons x l ih => simp [cumulative, ih]

/-- The first sum above `r` is the one at the end of the interval that `r` lies in. -/
theorem findIdx?_cumulative {l : List ℚ} {acc r : ℚ} {j : Nat} (nonneg : ∀ x ∈ l, 0 ≤ x)
    (le : acc ≤ r) : (cumulative acc l).findIdx? (fun f => r < f) = some j ↔
      acc + (l.take j).sum ≤ r ∧ r < acc + (l.take (j + 1)).sum := by
  induction l generalizing acc j with
  | nil =>
    simp only [cumulative, List.findIdx?_nil, List.take_nil, List.sum_nil, add_zero, reduceCtorEq,
      false_iff]
    rintro ⟨-, h⟩
    exact absurd h (not_lt.mpr le)
  | cons x l ih =>
    have hx : 0 ≤ x := nonneg x List.mem_cons_self
    have hl : ∀ y ∈ l, 0 ≤ y := fun y hy => nonneg y (List.mem_cons_of_mem _ hy)
    rw [cumulative, List.findIdx?_cons]
    by_cases h : r < acc + x
    · simp only [h, decide_true, ↓reduceIte, Option.some.injEq]
      constructor
      · rintro rfl
        simpa using ⟨le, h⟩
      · rintro ⟨hj, -⟩
        cases j with
        | zero => rfl
        | succ j =>
          have htake : 0 ≤ (l.take j).sum := List.sum_nonneg fun y hy => hl y (List.mem_of_mem_take hy)
          rw [List.take_succ_cons, List.sum_cons] at hj
          linarith
    · have hle : acc + x ≤ r := not_lt.mp h
      simp only [h, decide_false, Bool.false_eq_true, ↓reduceIte, Option.map_eq_some_iff]
      cases j with
      | zero =>
        constructor
        · rintro ⟨k, -, hk⟩
          cases hk
        · rintro ⟨-, hr⟩
          simp only [zero_add, List.take_succ_cons, List.take_zero, List.sum_cons, List.sum_nil,
            add_zero] at hr
          exact absurd hr h
      | succ j =>
        have hsum : ∀ k, acc + ((x :: l).take (k + 1)).sum = acc + x + (l.take k).sum := fun k => by
          rw [List.take_succ_cons, List.sum_cons, add_assoc]
        rw [hsum, hsum, ← ih hl hle]
        constructor
        · rintro ⟨k, hk, heq⟩
          cases heq
          exact hk
        · exact fun hk => ⟨j, hk, rfl⟩

end

section

/-- The intervals of `shape` follow each other from `lo` to `hi`. -/
def Tiles (lo : Nat) (shape : List (Nat × Nat)) (hi : Nat) : Prop :=
  match shape with
  | [] => lo = hi
  | (offset, size) :: rest => offset = lo ∧ Tiles (lo + size) rest hi

variable {shape : List (Nat × Nat)} {lo hi n o z x : Nat}

theorem Tiles.snoc (h : Tiles lo shape hi) (size : Nat) :
    Tiles lo (shape ++ [(hi, size)]) (hi + size) := by
  induction shape generalizing lo with
  | nil =>
    cases h
    exact ⟨rfl, rfl⟩
  | cons p shape ih => exact ⟨h.1, ih h.2⟩

theorem Tiles.sum (h : Tiles lo shape hi) : lo + (shape.map (·.2)).sum = hi := by
  induction shape generalizing lo with
  | nil => exact h
  | cons p shape ih =>
    rw [List.map_cons, List.sum_cons, ← Nat.add_assoc]
    exact ih h.2

theorem Tiles.le (h : Tiles lo shape hi) : lo ≤ hi := h.sum ▸ Nat.le_add_right ..

theorem Tiles.part_le (h : Tiles lo shape hi) (hn : shape[n]? = some (o, z)) : o + z ≤ hi := by
  induction shape generalizing lo n with
  | nil => cases hn
  | cons p shape ih =>
    cases n with
    | zero =>
      cases hn
      exact h.1 ▸ h.2.le
    | succ n => exact ih h.2 hn

/-- Every point is in an interval. -/
theorem Tiles.cover (h : Tiles lo shape hi) (hlo : lo ≤ x) (hhi : x < hi) :
    ∃ (n o z : Nat), shape[n]? = some (o, z) ∧ o ≤ x ∧ x < o + z := by
  induction shape generalizing lo with
  | nil =>
    cases h
    omega
  | cons p shape ih =>
    obtain ⟨o, z⟩ := p
    obtain ⟨rfl, h⟩ := h
    by_cases hx : x < o + z
    · exact ⟨0, o, z, rfl, hlo, hx⟩
    · obtain ⟨n, o', z', hn, hin⟩ := ih h (by omega)
      exact ⟨n + 1, o', z', hn, hin⟩

end

end Ecco9.Library
