import Mathlib.Algebra.BigOperators.Group.List.Basic
import Mathlib.Algebra.Order.BigOperators.Group.List
import Mathlib.Data.List.AList
import Mathlib.Data.List.Nodup
import Mathlib.Data.List.Sort

/-! Maps after a list of assignments, sorted keys that are their own positions, and maps as lists of entries
that carry their key, with sums over them. -/

universe u v w

namespace Ecco9.Library

section Assign

variable {α : Type u} {κ : Type v} {β : Type w} [DecidableEq κ]

/-- The map after assigning, for each of the entries in turn, a value to its key. -/
def assign (key : α → κ) (val : α → β) (l : List α) (m : AList fun _ : κ => β) :
    AList fun _ : κ => β :=
  l.foldl (fun m a => m.insert (key a) (val a)) m

/-- The last entry of a key counts. -/
theorem lookup_assign (key : α → κ) (val : α → β) (l : List α) (m : AList fun _ : κ => β) (k : κ) :
    (assign key val l m).lookup k =
      ((l.reverse.find? fun a => key a = k).map val).or (m.lookup k) := by
  induction l generalizing m with
  | nil => rfl
  | cons a l ih =>
    rw [assign, List.foldl_cons, ← assign, ih, List.reverse_cons, List.find?_append]
    cases l.reverse.find? fun a => key a = k with
    | some b => rfl
    | none =>
      by_cases hk : key a = k
      · subst hk
        simp
      · rw [AList.lookup_insert_ne (Ne.symm hk)]
        simp [hk]

/-- Where the keys are distinct the order of the entries does not count. -/
theorem find?_eq_of_perm {key : α → κ} {l l' : List α} (h : l.Perm l') (distinct : (l.map key).Nodup)
    (k : κ) : (l'.find? fun a => key a = k) = l.find? fun a => key a = k := by
  cases hfind : l.find? fun a => key a = k with
  | none =>
    exact List.find?_eq_none.mpr fun a ha => List.find?_eq_none.mp hfind a (h.mem_iff.mpr ha)
  | some a =>
    have ha := List.mem_of_find?_eq_some hfind
    have hk : key a = k := by simpa using List.find?_some hfind
    cases hfind' : l'.find? fun a => key a = k with
    | none =>
      exact absurd (decide_eq_true hk) (List.find?_eq_none.mp hfind' a (h.mem_iff.mp ha))
    | some b =>
      have hb := h.mem_iff.mpr (List.mem_of_find?_eq_some hfind')
      have hk' : key b = k := by simpa using List.find?_some hfind'
      rw [List.inj_on_of_nodup_map distinct hb ha (hk'.trans hk.symm)]

/-- Where the keys are distinct, one entry has a key. -/
theorem filter_key {key : α → κ} {l : List α} {a : α} (distinct : (l.map key).Nodup) (h : a ∈ l) :
    (l.filter fun b => key b = key a) = [a] := by
  induction l with
  | nil => cases h
  | cons b l ih =>
    obtain ⟨fresh, distinct⟩ := List.nodup_cons.mp distinct
    rcases List.mem_cons.mp h with rfl | h
    · rw [List.filter_cons_of_pos (by simp), List.cons_inj_right, List.filter_eq_nil_iff]
      intro c hc same
      rw [decide_eq_true_eq] at same
      exact fresh (same ▸ List.mem_map_of_mem hc)
    · have hne : key b ≠ key a := fun same => fresh (same ▸ List.mem_map_of_mem h)
      rw [List.filter_cons_of_neg (by simpa using hne), ih distinct h]

end Assign

/-! ### Whole numbers without a gap -/

/-- With a number all those from the first one to it are there. -/
def NoGaps (b : Int) (l : List Int) : Prop := ∀ k ∈ l, b ≤ k ∧ ∀ j, b ≤ j → j < k → j ∈ l

theorem NoGaps.congr {b : Int} {l l' : List Int} (hmem : ∀ k, k ∈ l ↔ k ∈ l') :
    NoGaps b l ↔ NoGaps b l' := by
  simp only [NoGaps, hmem]

/-- In increasing order such numbers are their own positions. -/
theorem NoGaps.eq_range {b : Int} {l : List Int} (h : NoGaps b l) (hsorted : l.Pairwise (· < ·)) :
    l = (List.range l.length).map fun i : Nat => b + i := by
  induction l generalizing b with
  | nil => rfl
  | cons k l ih =>
    obtain ⟨hk, hl⟩ := List.pairwise_cons.mp hsorted
    have hfirst : k = b := by
      by_contra hne
      have hbk : b < k := by have := (h k List.mem_cons_self).1; omega
      rcases List.mem_cons.mp ((h k List.mem_cons_self).2 b (Int.le_refl b) hbk) with heq | hmem
      · exact hne heq.symm
      · exact Int.lt_asymm hbk (hk b hmem)
    have hrest : NoGaps (b + 1) l := by
      intro j hj
      have hlow := hk j hj
      refine ⟨by omega, fun i hbi hij => ?_⟩
      rcases List.mem_cons.mp ((h j (List.mem_cons_of_mem k hj)).2 i (by omega) hij) with heq | hmem
      · omega
      · exact hmem
    have heq := ih hrest hl
    rw [List.length_cons, List.range_succ_eq_map, List.map_cons, List.map_map]
    refine congrArg₂ List.cons (by omega) (heq.trans (List.map_congr_left fun i _ => ?_))
    simp only [Function.comp_apply, Nat.succ_eq_add_one, Int.natCast_add, Int.natCast_one]
    omega

/-- Increasing numbers that are all below their count have no gap. -/
theorem noGaps_of_lt_length {b : Int} {l : List Int} (hsorted : l.Pairwise (· < ·))
    (hl : ∀ k ∈ l, b ≤ k ∧ k < b + l.length) : NoGaps b l := by
  induction l generalizing b with
  | nil => exact fun k hk => absurd hk List.not_mem_nil
  | cons k l ih =>
    obtain ⟨hk, hsorted⟩ := List.pairwise_cons.mp hsorted
    have hkb := hl k List.mem_cons_self
    have hrest : NoGaps (b + 1) l := by
      refine ih hsorted fun j hj => ?_
      have hlow := hk j hj
      have hj := hl j (List.mem_cons_of_mem k hj)
      rw [List.length_cons] at hj
      omega
    have heq := hrest.eq_range hsorted
    have hfirst : k = b := by
      cases l with
      | nil =>
        rw [List.length_singleton] at hkb
        omega
      | cons j l =>
        rw [List.length_cons, List.range_succ_eq_map, List.map_cons] at heq
        have hlow := hk j List.mem_cons_self
        have hj := (List.cons.inj heq).1
        omega
    intro j hj
    refine ⟨(hl j hj).1, fun i hbi hij => ?_⟩
    rcases List.mem_cons.mp hj with rfl | hj
    · omega
    · by_cases hib : i = b
      · rw [hib, hfirst]
        exact List.mem_cons_self
      · exact List.mem_cons_of_mem k ((hrest j hj).2 i (by omega) hij)

/-- The sorted keys of a map. -/
def sortedKeys {β : Type w} (m : AList fun _ : Int => β) : List Int :=
  m.keys.mergeSort fun a b => decide (a ≤ b)

theorem length_sortedKeys {β : Type w} (m : AList fun _ : Int => β) :
    (sortedKeys m).length = m.keys.length := List.length_mergeSort _

theorem mem_sortedKeys {β : Type w} {m : AList fun _ : Int => β} {k : Int} :
    k ∈ sortedKeys m ↔ (m.lookup k).isSome := by
  rw [sortedKeys, (List.mergeSort_perm ..).mem_iff, AList.lookup_isSome, AList.mem_keys]

theorem sortedKeys_pairwise {β : Type w} (m : AList fun _ : Int => β) :
    (sortedKeys m).Pairwise (· < ·) := by
  have hle : (sortedKeys m).Pairwise fun a b => decide (a ≤ b) = true :=
    List.pairwise_mergeSort (fun a b c hab hbc => by grind) (fun a b => by grind) m.keys
  have hne : (sortedKeys m).Pairwise (· ≠ ·) :=
    ((List.mergeSort_perm m.keys _).nodup_iff).mpr m.keys_nodup
  exact (hle.and hne).imp fun h => lt_of_le_of_ne (of_decide_eq_true h.1) h.2

end Ecco9.Library

namespace Ecco9.Library.Keyed

variable {α : Type u} {κ : Type v} [DecidableEq κ] {key : α → κ} {a b : α} {k : κ} {l : List α}

section

variable (key)

def lookup (k : κ) (l : List α) : Option α := l.find? fun a => key a = k

/-- The entry in place of the one with its key, or at the end. -/
def put (a : α) : List α → List α
  | [] => [a]
  | b :: l => if key b = key a then a :: l else b :: put a l

def remove (k : κ) (l : List α) : List α := l.filter fun a => key a ≠ k

end

/-! ### Entries -/

theorem lookup_cons (b : α) (l : List α) :
    lookup key k (b :: l) = if key b = k then some b else lookup key k l := by
  rw [lookup, List.find?_cons]
  by_cases h : key b = k <;> simp [h, lookup]

theorem mem_of_lookup (h : lookup key k l = some a) : a ∈ l ∧ key a = k :=
  ⟨List.mem_of_find?_eq_some h, by simpa using List.find?_some h⟩

theorem lookup_eq_none : lookup key k l = none ↔ k ∉ l.map key := by
  rw [lookup, List.find?_eq_none]
  simp

theorem lookup_isSome : (lookup key k l).isSome ↔ k ∈ l.map key := by
  rw [← not_iff_not, ← lookup_eq_none, Bool.not_eq_true, Option.isSome_eq_false_iff,
    Option.isNone_iff_eq_none]

theorem lookup_of_mem (distinct : (l.map key).Nodup) (h : a ∈ l) : lookup key (key a) l = some a := by
  obtain ⟨b, hb⟩ := Option.isSome_iff_exists.mp (lookup_isSome.mpr (List.mem_map_of_mem (f := key) h))
  obtain ⟨hmem, hkey⟩ := mem_of_lookup hb
  rw [hb, List.inj_on_of_nodup_map distinct hmem h hkey]

theorem lookup_put (a : α) (k : κ) (l : List α) :
    lookup key k (put key a l) = if key a = k then some a else lookup key k l := by
  induction l with
  | nil => rw [put, lookup_cons]
  | cons b l ih =>
    rw [put]
    by_cases hb : key b = key a
    · rw [if_pos hb, lookup_cons, lookup_cons, hb]
      split_ifs <;> rfl
    · rw [if_neg hb, lookup_cons, lookup_cons, ih]
      by_cases ha : key a = k
      · rw [if_pos ha, if_pos ha, if_neg (ha ▸ hb)]
      · rw [if_neg ha, if_neg ha]

theorem mem_put (h : b ∈ put key a l) : b = a ∨ b ∈ l := by
  induction l with
  | nil => exact .inl (List.mem_singleton.mp h)
  | cons c l ih =>
    rw [put] at h
    split_ifs at h
    · exact (List.mem_cons.mp h).imp_right (List.mem_cons_of_mem c)
    · rcases List.mem_cons.mp h with rfl | h
      · exact .inr List.mem_cons_self
      · exact (ih h).imp_right (List.mem_cons_of_mem c)

theorem keys_put_old (h : key a ∈ l.map key) : (put key a l).map key = l.map key := by
  induction l with
  | nil => cases h
  | cons b l ih =>
    rw [put]
    split_ifs with hb
    · rw [List.map_cons, List.map_cons, hb]
    · rw [List.map_cons, List.map_cons, ih ((List.mem_cons.mp h).resolve_left (Ne.symm hb))]

theorem put_new (h : key a ∉ l.map key) : put key a l = l ++ [a] := by
  induction l with
  | nil => rfl
  | cons b l ih =>
    rw [List.map_cons, List.mem_cons, not_or] at h
    rw [put, if_neg (Ne.symm h.1), ih h.2, List.cons_append]

theorem distinct_put (a : α) (distinct : (l.map key).Nodup) : ((put key a l).map key).Nodup := by
  by_cases h : key a ∈ l.map key
  · rwa [keys_put_old h]
  · rw [put_new h, List.map_append, List.map_singleton]
    exact distinct.append (List.nodup_singleton _) (List.disjoint_singleton.mpr h)

theorem mem_remove : b ∈ remove key k l ↔ b ∈ l ∧ key b ≠ k := by
  simp [remove]

theorem lookup_remove (k k' : κ) (l : List α) :
    lookup key k' (remove key k l) = if k' = k then none else lookup key k' l := by
  rw [lookup, remove, List.find?_filter]
  split_ifs with h
  · rw [List.find?_eq_none]
    intro a _ ha
    simp only [decide_not, Bool.decide_and, Bool.and_eq_true, Bool.not_eq_true', decide_eq_false_iff_not,
      decide_eq_true_eq] at ha
    exact ha.1 (ha.2.trans h)
  · refine congrArg (l.find? ·) (funext fun a => ?_)
    by_cases ha : key a = k'
    · simp [ha, h]
    · simp [ha]

/-! ### Sums -/

section

variable (key) {M : Type w} [AddCommMonoid M] (f : α → M)

/-- The new entry counts instead of the one with its key. -/
theorem sum_put (a : α) (l : List α) :
    ((put key a l).map f).sum + ((lookup key (key a) l).map f).getD 0 = (l.map f).sum + f a := by
  induction l with
  | nil => simp [put, lookup]
  | cons b l ih =>
    rw [put]
    by_cases hb : key b = key a
    · rw [if_pos hb, lookup_cons, if_pos hb]
      simp only [List.map_cons, List.sum_cons, Option.map_some, Option.getD_some]
      rw [add_comm, add_comm (f a), add_assoc]
    · rw [if_neg hb, lookup_cons, if_neg hb]
      simp only [List.map_cons, List.sum_cons]
      rw [add_assoc, add_assoc]
      exact congrArg (f b + ·) ih

end

end Ecco9.Library.Keyed
