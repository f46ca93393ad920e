import Mathlib.Data.List.Basic
import Mathlib.Data.List.DropRight
import Mathlib.Data.List.Infix

/-! Lists without what they begin and end with, and lists cut at the last element with a property. -/

universe u

namespace Ecco9.Library

section

variable {α : Type}

def trim (p : α → Bool) (s : List α) : List α := (s.dropWhile p).rdropWhile p

theorem dropWhile_of_head {p : α → Bool} {a : α} {s : List α} (ha : p a = false) :
    (a :: s).dropWhile p = a :: s := List.dropWhile_cons_of_neg (by simp [ha])

theorem rdropWhile_cons {p : α → Bool} {a : α} {s : List α} (ha : p a = false) :
    (a :: s).rdropWhile p = a :: s.rdropWhile p := by
  induction s using List.reverseRecOn with
  | nil => simp [List.rdropWhile, ha]
  | append_singleton s b ih =>
    rw [← List.cons_append, List.rdropWhile_concat, List.rdropWhile_concat]
    split_ifs
    · exact ih
    · rfl

theorem rdropWhile_append {p : α → Bool} {s : List α} (h : ∀ a ∈ s, p a = false) (t : List α) :
    (s ++ t).rdropWhile p = s ++ t.rdropWhile p := by
  induction s with
  | nil => rfl
  | cons a s ih =>
    rw [List.cons_append, rdropWhile_cons (h a (by simp)), ih fun b hb => h b (by simp [hb]),
      List.cons_append]

theorem rdropWhile_eq_self {p : α → Bool} {s : List α} {a : α} (ha : p a = false) :
    (s ++ [a]).rdropWhile p = s ++ [a] := List.rdropWhile_concat_neg _ _ _ (by simp [ha])

theorem rdropWhile_spec (p : α → Bool) (s : List α) :
    ∃ back, s = s.rdropWhile p ++ back ∧ ∀ a ∈ back, p a = true := by
  refine ⟨(s.reverse.takeWhile p).reverse, ?_, ?_⟩
  · rw [List.rdropWhile, ← List.reverse_append, List.takeWhile_append_dropWhile,
      List.reverse_reverse]
  · intro a ha
    exact List.mem_takeWhile_imp (List.mem_reverse.mp ha)

theorem rdropWhile_back {p : α → Bool} {back : List α} (h : ∀ a ∈ back, p a = true) (s : List α) :
    (s ++ back).rdropWhile p = s.rdropWhile p := by
  rw [List.rdropWhile, List.reverse_append,
    List.dropWhile_append_of_pos fun a ha => h a (List.mem_reverse.mp ha), List.rdropWhile]

@[simp] theorem trim_nil (p : α → Bool) : trim p [] = [] := rfl

theorem length_trim_le (p : α → Bool) (s : List α) : (trim p s).length ≤ s.length :=
  (List.rdropWhile_prefix ..).length_le.trans (List.dropWhile_suffix p).length_le

theorem mem_of_mem_trim {p : α → Bool} {s : List α} {a : α} (h : a ∈ trim p s) : a ∈ s :=
  (List.dropWhile_suffix p).subset ((List.rdropWhile_prefix ..).subset h)

theorem trim_of_head {p : α → Bool} {a : α} {s : List α} (ha : p a = false) :
    trim p (a :: s) = a :: s.rdropWhile p := by
  rw [trim, dropWhile_of_head ha, rdropWhile_cons ha]

/-- A list is what is dropped in front, and then what is trimmed to begins it. -/
theorem trim_spec (p : α → Bool) (s : List α) :
    ∃ front rest, s = front ++ rest ∧ (∀ a ∈ front, p a = true) ∧ trim p s = rest.rdropWhile p ∧
      ∀ a, rest.head? = some a → p a = false := by
  refine ⟨s.takeWhile p, s.dropWhile p, List.takeWhile_append_dropWhile.symm, ?_, rfl, ?_⟩
  · intro a ha
    exact List.mem_takeWhile_imp ha
  · intro a ha
    cases hd : s.dropWhile p with
    | nil =>
      rw [hd] at ha
      cases ha
    | cons b t =>
      rw [hd] at ha
      cases ha
      have := List.head_dropWhile_not p (l := s) (by rw [hd]; exact List.cons_ne_nil _ _)
      simpa [hd] using this

theorem trim_front {p : α → Bool} {front : List α} (h : ∀ a ∈ front, p a = true) (s : List α) :
    trim p (front ++ s) = trim p s := by
  rw [trim, List.dropWhile_append_of_pos h, trim]

theorem trim_eq_nil {p : α → Bool} {s : List α} (h : ∀ a ∈ s, p a = true) : trim p s = [] := by
  have hfront := trim_front h []
  rwa [List.append_nil] at hfront

/-- A string put before a longer one, with a character within that it has not, is not its beginning
again. -/
theorem not_shifted {front s rest tail : List α} {a : α} (hne : front ≠ []) (ha : a ∉ front) :
    ¬front ++ s ++ rest <+: s ++ a :: tail := by
  induction hn : s.length using Nat.strongRecOn generalizing s with
  | ind n ih =>
    intro h
    rcases Nat.lt_or_ge s.length front.length with hlt | hge
    · -- the character stands within the front
      obtain ⟨t, ht⟩ := h
      rw [List.append_assoc, List.append_assoc] at ht
      have hmem := congrArg (fun l => l[s.length]?) ht
      simp only [List.getElem?_append_left hlt, List.getElem?_append_right (Nat.le_refl _),
        Nat.sub_self, List.getElem?_cons_zero] at hmem
      exact ha (List.mem_of_getElem? hmem)
    · have hfront : front <+: s := by
        refine List.prefix_of_prefix_length_le ?_ (List.prefix_append s (a :: tail)) hge
        exact ((List.prefix_append front s).trans (List.prefix_append _ rest)).trans h
      obtain ⟨t, rfl⟩ := hfront
      have hpos := List.length_pos_iff.mpr hne
      rw [List.length_append] at hn
      refine ih t.length (by omega) rfl ?_
      rw [List.append_assoc front, List.append_assoc, List.append_assoc,
        List.prefix_append_right_inj] at h
      rwa [List.append_assoc]

end

section

variable {α : Type u} {p : α → Bool} {s before after : List α} {c : α}

/-- What stands before the last such element, the element, and what stands after it. -/
def cutLast (p : α → Bool) : List α → Option (List α × α × List α)
  | [] => none
  | a :: s =>
    match cutLast p s with
    | some (before, c, after) => some (a :: before, c, after)
    | none => if p a then some ([], a, s) else none

theorem cutLast_eq_none : cutLast p s = none ↔ ∀ a ∈ s, p a = false := by
  induction s with
  | nil => simp [cutLast]
  | cons a s ih =>
    rw [cutLast, List.forall_mem_cons]
    cases h : cutLast p s with
    | none =>
      have hs := ih.mp h
      cases ha : p a with
      | false => simpa using hs
      | true => simp
    | some r =>
      simp only [reduceCtorEq, false_iff, not_and]
      intro _ hs
      rw [ih.mpr hs] at h
      cases h

theorem cutLast_append (hc : p c = true) (hafter : ∀ a ∈ after, p a = false) (before : List α) :
    cutLast p (before ++ c :: after) = some (before, c, after) := by
  induction before with
  | nil => rw [List.nil_append, cutLast, cutLast_eq_none.mpr hafter, if_pos hc]
  | cons a before ih => rw [List.cons_append, cutLast, ih]

theorem cutLast_eq_some : cutLast p s = some (before, c, after) ↔
    s = before ++ c :: after ∧ p c = true ∧ ∀ a ∈ after, p a = false := by
  constructor
  · intro h
    induction s generalizing before with
    | nil => cases h
    | cons a s ih =>
      rw [cutLast] at h
      split at h
      · rename_i before' c' after' heq
        simp only [Option.some.injEq, Prod.mk.injEq] at h
        obtain ⟨rfl, rfl, rfl⟩ := h
        obtain ⟨rfl, hc, hafter⟩ := ih heq
        exact ⟨rfl, hc, hafter⟩
      · rename_i heq
        split at h
        · rename_i ha
          simp only [Option.some.injEq, Prod.mk.injEq] at h
          obtain ⟨rfl, rfl, rfl⟩ := h
          exact ⟨rfl, ha, cutLast_eq_none.mp heq⟩
        · cases h
  · rintro ⟨rfl, hc, hafter⟩
    exact cutLast_append hc hafter before

end

end Ecco9.Library
