import Mathlib.Data.List.Forall2
import Mathlib.Tactic.Common

/-! Lists of constants and variables, matched against lists of values. -/

universe u

namespace Ecco9.Library

abbrev Binding (α : Type u) := α → Option α

variable {α : Type u} {isVar : α → Bool} {a o : α} {as os : List α}

section

variable (isVar : α → Bool)

/-- The list with what its variables are bound to. -/
def substitute (b : Binding α) : List α → Option (List α)
  | [] => some []
  | a :: as =>
    match if isVar a then b a else some a, substitute b as with
    | some o, some os => some (o :: os)
    | _, _ => none

/-- The instance of a list under an assignment. -/
def instantiate (σ : α → α) (as : List α) : List α := as.map fun a => if isVar a then σ a else a

/-- An assignment, for the variables of a list. -/
def restrict [DecidableEq α] (σ : α → α) (as : List α) : Binding α :=
  fun v => if isVar v ∧ v ∈ as then some (σ v) else none

/-- Of the values opposite to a variable, the last. -/
def lastBinding [DecidableEq α] : List α → List α → Binding α
  | a :: as, o :: os => fun v => (lastBinding as os v).or (if isVar a ∧ v = a then some o else none)
  | _, _ => fun _ => none

/-- The constants are opposite to themselves. -/
def Agree (as os : List α) : Prop := List.Forall₂ (fun a o => isVar a ∨ a = o) as os

/-- No variable is opposite to two values. -/
def Consistent (as os : List α) : Prop :=
  ∀ v x y, isVar v → (v, x) ∈ as.zip os → (v, y) ∈ as.zip os → x = y

end

instance [DecidableEq α] : Decidable (Agree isVar as os) := inferInstanceAs (Decidable (List.Forall₂ _ as os))

theorem agree_nil : Agree isVar [] ([] : List α) := .nil

theorem agree_cons : Agree isVar (a :: as) (o :: os) ↔ (isVar a ∨ a = o) ∧ Agree isVar as os :=
  List.forall₂_cons

theorem agree_length (h : Agree isVar as os) : as.length = os.length := List.Forall₂.length_eq h

theorem agree_instantiate (σ : α → α) (as : List α) : Agree isVar as (instantiate isVar σ as) := by
  refine List.forall₂_map_right_iff.mpr (List.forall₂_same.mpr fun a _ => ?_)
  cases hvar : isVar a
  · exact .inr rfl
  · exact .inl rfl

/-- Binding the variables gives the values back when no variable is opposite to two of them. -/
theorem substitute_eq_some {b : Binding α} (h : Agree isVar as os)
    (hb : ∀ v x, isVar v → (v, x) ∈ as.zip os → b v = some x) : substitute isVar b as = some os := by
  induction h with
  | nil => rfl
  | @cons a o as os hao _ ih =>
    have hrest : substitute isVar b as = some os :=
      ih fun v x hvar hmem => hb v x hvar (List.mem_cons_of_mem _ hmem)
    have hfirst : (if isVar a then b a else some a) = some o := by
      split
      · rename_i hvar
        exact hb a o hvar List.mem_cons_self
      · rename_i hvar
        rw [hao.resolve_left hvar]
    rw [substitute, hfirst, hrest]

theorem consistent_of_nodup (h : (as.filter isVar).Nodup) : Consistent isVar as os := by
  induction as generalizing os with
  | nil => intro v x y _ hx; simp at hx
  | cons a as ih =>
    cases os with
    | nil => intro v x y _ hx; simp at hx
    | cons o os =>
      have hrest : (as.filter isVar).Nodup :=
        h.sublist ((List.sublist_cons_self a as).filter isVar)
      have hfresh {v x : α} (hvar : isVar v) (hx : (v, x) ∈ as.zip os) : v ≠ a := by
        rintro rfl
        rw [List.filter_cons_of_pos hvar, List.nodup_cons] at h
        exact h.1 (List.mem_filter.mpr ⟨(List.of_mem_zip hx).1, hvar⟩)
      intro v x y hvar hx hy
      rw [List.zip_cons_cons, List.mem_cons, Prod.mk.injEq] at hx hy
      rcases hx with ⟨rfl, rfl⟩ | hx
      · rcases hy with ⟨-, rfl⟩ | hy
        · rfl
        · exact absurd rfl (hfresh hvar hy)
      · rcases hy with ⟨rfl, rfl⟩ | hy
        · exact absurd rfl (hfresh hvar hx)
        · exact ih hrest v x y hvar hx hy

section LastBinding

variable [DecidableEq α]

theorem lastBinding_mem {v x : α} (h : lastBinding isVar as os v = some x) :
    isVar v ∧ (v, x) ∈ as.zip os := by
  fun_induction lastBinding isVar as os with
  | case1 a as o os ih =>
    rw [List.zip_cons_cons, List.mem_cons]
    dsimp only at h
    cases hrest : lastBinding isVar as os v with
    | some y =>
      rw [hrest, Option.some_or] at h
      exact (ih (hrest.trans h)).imp_right .inr
    | none =>
      rw [hrest, Option.none_or, Option.ite_none_right_eq_some] at h
      obtain ⟨⟨hvar, rfl⟩, heq⟩ := h
      exact ⟨hvar, .inl (congrArg (Prod.mk v) (Option.some.inj heq).symm)⟩
  | case2 => cases h

theorem lastBinding_isSome {v : α} (hvar : isVar v) (hlen : as.length = os.length) (hv : v ∈ as) :
    (lastBinding isVar as os v).isSome := by
  fun_induction lastBinding isVar as os with
  | case1 a as o os ih =>
    rw [Option.isSome_or, Bool.or_eq_true]
    rcases List.mem_cons.mp hv with rfl | hv
    · exact .inr (by simp [hvar])
    · exact .inl (ih (Nat.succ.inj hlen) hv)
  | case2 as os hcons =>
    cases as with
    | nil => cases hv
    | cons a as =>
      cases os with
      | nil => cases hlen
      | cons o os => exact absurd rfl (hcons a as o os rfl)

theorem substitute_lastBinding (h : Agree isVar as os) (hone : Consistent isVar as os) :
    substitute isVar (lastBinding isVar as os) as = some os := by
  refine substitute_eq_some h fun v x hvar hmem => ?_
  obtain ⟨y, hy⟩ := Option.isSome_iff_exists.mp
    (lastBinding_isSome hvar (agree_length h) (List.of_mem_zip hmem).1)
  rw [hy, hone v x y hvar hmem (lastBinding_mem hy).2]

/-- What the variables of an instance are opposite to is the assignment. -/
theorem lastBinding_instantiate (σ : α → α) (as : List α) :
    lastBinding isVar as (instantiate isVar σ as) = restrict isVar σ as := by
  funext v
  have hzip {x : α} (hvar : isVar v) (hmem : (v, x) ∈ as.zip (instantiate isVar σ as)) : x = σ v := by
    rw [instantiate, List.zip_map_right] at hmem
    obtain ⟨⟨w, w'⟩, hw, heq⟩ := List.mem_map.mp hmem
    obtain ⟨rfl, rfl⟩ := Prod.mk.inj heq
    obtain rfl : w = w' := List.forall₂_zip (List.forall₂_refl as) hw
    exact if_pos hvar
  rw [restrict]
  split
  · rename_i hv
    obtain ⟨x, hx⟩ := Option.isSome_iff_exists.mp
      (lastBinding_isSome hv.1 (agree_length (agree_instantiate σ as)) hv.2)
    rw [hx, hzip hv.1 (lastBinding_mem hx).2]
  · rename_i hv
    refine Option.eq_none_iff_forall_ne_some.mpr fun x hx => hv ?_
    exact ⟨(lastBinding_mem hx).1, (List.of_mem_zip (lastBinding_mem hx).2).1⟩

end LastBinding

end Ecco9.Library
