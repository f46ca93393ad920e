import Mathlib.Data.List.Nodup
import Mathlib.Data.Finset.Card
import Mathlib.Order.Interval.Finset.Nat

/-! Lists whose entries carry increasing numbers, behind some that carry none. -/

universe u

namespace Ecco9.Library

variable {α : Type u}

/-- Entries without a number, which is 0, and then numbers in increasing order. -/
def Ascending (l : List (α × Nat)) : Prop := l.Pairwise fun a b => a.2 < b.2 ∨ a.2 = 0 ∧ b.2 = 0

theorem Ascending.sublist {l l' : List (α × Nat)} (h : Ascending l) (hsub : l'.Sublist l) :
    Ascending l' := List.Pairwise.sublist hsub h

theorem ascending_zero (l : List α) : Ascending (l.map fun a => (a, 0)) :=
  List.pairwise_of_forall_mem_list fun a ha b hb => by
    obtain ⟨x, -, rfl⟩ := List.mem_map.mp ha
    obtain ⟨y, -, rfl⟩ := List.mem_map.mp hb
    exact .inr ⟨rfl, rfl⟩

theorem Ascending.snoc {l : List (α × Nat)} (h : Ascending l) {c : Nat} (bound : ∀ e ∈ l, e.2 ≤ c)
    (a : α) : Ascending (l ++ [(a, c + 1)]) := by
  refine List.pairwise_append.mpr ⟨h, List.pairwise_singleton _ _, ?_⟩
  intro e he b hb
  rw [List.mem_singleton.mp hb]
  exact .inl (Nat.lt_succ_of_le (bound e he))

/-- The entries from number `d` on are the last ones. -/
theorem Ascending.split {l : List (α × Nat)} (h : Ascending l) (d : Nat) :
    l.filter (fun e => decide (e.2 < d)) ++ l.filter (fun e => decide (d ≤ e.2)) = l := by
  induction l with
  | nil => rfl
  | cons x l ih =>
    obtain ⟨hx, hl⟩ := List.pairwise_cons.mp h
    by_cases hd : x.2 < d
    · rw [List.filter_cons_of_pos (by simpa using hd), List.filter_cons_of_neg (by simpa using hd),
        List.cons_append, ih hl]
    · have later : ∀ e ∈ l, d ≤ e.2 := by
        intro e he
        have := hx e he
        omega
      have hnone : l.filter (fun e => decide (e.2 < d)) = [] :=
        List.filter_eq_nil_iff.mpr fun e he => by
          have := later e he
          simpa using this
      rw [List.filter_cons_of_neg (by simpa using hd), hnone, List.nil_append]
      refine List.filter_eq_self.mpr fun e he => ?_
      rcases List.mem_cons.mp he with rfl | he
      · simpa using hd
      · simpa using later e he

section Counts

variable {l : List (α × Nat)} {c d : Nat}

/-- There are as many entries from `d` on as numbers, just when no number is missing. -/
theorem Ascending.count (h : Ascending l) (bound : ∀ e ∈ l, e.2 ≤ c) (hd : 1 ≤ d) :
    (l.filter fun e => decide (d ≤ e.2)).length ≤ c + 1 - d ∧
      ((l.filter fun e => decide (d ≤ e.2)).length = c + 1 - d ↔
        ∀ n, d ≤ n → n ≤ c → ∃ e ∈ l, e.2 = n) := by
  generalize hnumbers : (l.filter fun e => decide (d ≤ e.2)).map (·.2) = numbers
  have hlen : (l.filter fun e => decide (d ≤ e.2)).length = numbers.length := by
    rw [← hnumbers, List.length_map]
  have hmem (n : Nat) : n ∈ numbers ↔ d ≤ n ∧ ∃ e ∈ l, e.2 = n := by
    rw [← hnumbers, List.mem_map]
    constructor
    · rintro ⟨e, he, rfl⟩
      obtain ⟨he, hde⟩ := List.mem_filter.mp he
      exact ⟨of_decide_eq_true hde, e, he, rfl⟩
    · rintro ⟨hdn, e, he, rfl⟩
      exact ⟨e, List.mem_filter.mpr ⟨he, decide_eq_true hdn⟩, rfl⟩
  have hnodup : numbers.Nodup := by
    rw [← hnumbers, List.Nodup, List.pairwise_map]
    refine ((h.sublist List.filter_sublist).imp_of_mem ?_)
    intro a b ha hb hab heq
    have ha := of_decide_eq_true (List.mem_filter.mp ha).2
    omega
  have hsub : numbers.toFinset ⊆ Finset.Icc d c := by
    intro n hn
    obtain ⟨hdn, e, he, rfl⟩ := (hmem n).mp (List.mem_toFinset.mp hn)
    exact Finset.mem_Icc.mpr ⟨hdn, bound e he⟩
  have hcard : numbers.toFinset.card = numbers.length := List.toFinset_card_of_nodup hnodup
  rw [hlen, ← hcard, ← Nat.card_Icc]
  refine ⟨Finset.card_le_card hsub, ?_, ?_⟩
  · intro heq n hdn hnc
    have hall := Finset.eq_of_subset_of_card_le hsub heq.ge
    have hn : n ∈ numbers.toFinset := by
      rw [hall]
      exact Finset.mem_Icc.mpr ⟨hdn, hnc⟩
    exact ((hmem n).mp (List.mem_toFinset.mp hn)).2
  · intro hall
    refine congrArg _ (Finset.Subset.antisymm hsub fun n hn => ?_)
    obtain ⟨hdn, hnc⟩ := Finset.mem_Icc.mp hn
    exact List.mem_toFinset.mpr ((hmem n).mpr ⟨hdn, hall n hdn hnc⟩)

/-- Taking as many entries off the end as there are numbers from `d` on leaves the entries before
`d`, just when no number is missing. -/
theorem Ascending.take_iff (h : Ascending l) (bound : ∀ e ∈ l, e.2 ≤ c) (hd : 1 ≤ d) :
    (c + 1 - d ≤ l.length ∧ (l.map Prod.fst).take (l.length - (c + 1 - d)) =
        (l.filter fun e => decide (e.2 < d)).map Prod.fst) ↔
      ∀ n, d ≤ n → n ≤ c → ∃ e ∈ l, e.2 = n := by
  obtain ⟨hle, hiff⟩ := h.count bound hd
  have hsplit := h.split d
  have hlen := congrArg List.length hsplit
  rw [List.length_append] at hlen
  rw [← hiff]
  constructor
  · rintro ⟨hfits, heq⟩
    have := congrArg List.length heq
    rw [List.length_take, List.length_map, List.length_map] at this
    omega
  · intro heq
    refine ⟨by omega, ?_⟩
    have hfront : l.length - (c + 1 - d) = (l.filter fun e => decide (e.2 < d)).length := by omega
    rw [hfront, ← List.map_take]
    refine congrArg _ ?_
    calc l.take (l.filter fun e => decide (e.2 < d)).length
      _ = (l.filter (fun e => decide (e.2 < d)) ++ l.filter fun e => decide (d ≤ e.2)).take
          (l.filter fun e => decide (e.2 < d)).length := by rw [hsplit]
      _ = l.filter fun e => decide (e.2 < d) := List.take_left

end Counts

end Ecco9.Library
