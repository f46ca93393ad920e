import Mathlib.Algebra.BigOperators.Group.Multiset.Basic
import Mathlib.Algebra.Order.BigOperators.Group.Multiset
import Mathlib.Algebra.BigOperators.Group.Finset.Basic
import Mathlib.Logic.Equiv.Basic
import Mathlib.Algebra.Order.Group.Multiset

/-! Stores whose slots carry a label and hold a row.  The contents of such a store are the labels of
its used slots together with the rows they hold, wherever the slots lie. -/

universe u v

namespace Ecco9.Library

variable {α : Type u} {β : Type v}

/-- The rows of a block of `length` slots copied over another one; all are read before any is
written. -/
def blockCopy (src dst length : Nat) (row : Nat → β) : Nat → β := fun j =>
  if dst ≤ j ∧ j < dst + length then row (src + (j - dst)) else row j

theorem blockCopy_inside {src dst length j : Nat} (row : Nat → β) (lo : dst ≤ j)
    (hi : j < dst + length) : blockCopy src dst length row j = row (src + (j - dst)) :=
  if_pos ⟨lo, hi⟩

theorem blockCopy_outside {src dst length j : Nat} (row : Nat → β)
    (h : j < dst ∨ dst + length ≤ j) : blockCopy src dst length row j = row j :=
  if_neg (by omega)

/-- What slot `i` adds to the contents. -/
def slot (used : α → Bool) (label : Nat → α) (row : Nat → β) (i : Nat) : Multiset (α × β) :=
  if used (label i) then {(label i, row i)} else 0

def contents (used : α → Bool) (n : Nat) (label : Nat → α) (row : Nat → β) :
    Multiset (α × β) := ∑ i ∈ Finset.range n, slot used label row i

theorem mem_contents {used : α → Bool} {n : Nat} {label : Nat → α} {row : Nat → β} {e : α × β} :
    e ∈ contents used n label row ↔ ∃ i < n, used (label i) ∧ e = (label i, row i) := by
  simp only [contents, Multiset.mem_sum, Finset.mem_range, slot]
  refine exists_congr fun i => and_congr_right fun _ => ?_
  split <;> simp_all

/-- Rearranging the slots leaves the contents alone. -/
theorem contents_reindex {used : α → Bool} {n : Nat} {label label' : Nat → α} {row row' : Nat → β}
    (σ : Equiv.Perm Nat) (range : ∀ i, σ i < n ↔ i < n)
    (h : ∀ i < n, slot used label' row' i = slot used label row (σ i)) :
    contents used n label' row' = contents used n label row := by
  apply Finset.sum_equiv σ
  · intro i
    simp [range]
  · intro i hi
    exact h i (Finset.mem_range.mp hi)

/-- A quantity of the labels, summed over the contents. -/
theorem sum_contents (used : α → Bool) (n : Nat) (label : Nat → α) (row : Nat → β) (size : α → Nat)
    (unused : ∀ a, used a = false → size a = 0) :
    ((contents used n label row).map (fun e => size e.1)).sum =
      ∑ i ∈ Finset.range n, size (label i) := by
  have total := map_sum (Multiset.sumAddMonoidHom.comp
    (Multiset.mapAddMonoidHom fun e : α × β => size e.1)) (slot used label row) (Finset.range n)
  simp only [AddMonoidHom.comp_apply, Multiset.coe_mapAddMonoidHom,
    Multiset.coe_sumAddMonoidHom] at total
  rw [contents, total]
  refine Finset.sum_congr rfl fun i _ => ?_
  simp only [slot]
  cases h : used (label i) with
  | true => simp
  | false => simp [unused _ h]

theorem contents_congr {used : α → Bool} {n : Nat} {label label' : Nat → α} {row row' : Nat → β}
    (hl : ∀ i < n, label' i = label i) (hr : ∀ i < n, used (label i) → row' i = row i) :
    contents used n label' row' = contents used n label row := by
  refine Finset.sum_congr rfl fun i hi => ?_
  have hi := Finset.mem_range.mp hi
  simp only [slot, hl i hi]
  split
  · rw [hr i hi ‹_›]
  · rfl

end Ecco9.Library
