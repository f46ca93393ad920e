import Mathlib.Data.Multiset.Basic
import Mathlib.Order.Lattice

/-! Queues that somebody else keeps: what they hold, and that what comes out was in them. -/

namespace Ecco9.Library

structure Queue (C : Type) where
  Carrier : Type
  empty : Carrier
  push : Carrier → C → Carrier
  pop : Carrier → Option (C × Carrier)
  elems : Carrier → Multiset C
  elems_empty : elems empty = 0
  elems_push : ∀ h c, elems (push h c) = c ::ₘ elems h
  pop_none : ∀ h, pop h = none → elems h = 0
  pop_some : ∀ h c h', pop h = some (c, h') → elems h = c ::ₘ elems h'

namespace Queue

variable {C : Type} (Q : Queue C)

/-- What comes out comes before all that stays. -/
def PopsLeast (le : C → C → Prop) : Prop :=
  ∀ h c h', Q.pop h = some (c, h') → ∀ x ∈ Q.elems h', le c x

def pushSome (h : Q.Carrier) : Option C → Q.Carrier
  | none => h
  | some c => Q.push h c

@[simp] theorem mem_push {h : Q.Carrier} {c x : C} :
    x ∈ Q.elems (Q.push h c) ↔ x = c ∨ x ∈ Q.elems h := by
  rw [Q.elems_push, Multiset.mem_cons]

@[simp] theorem mem_pushSome {h : Q.Carrier} {c : Option C} {x : C} :
    x ∈ Q.elems (Q.pushSome h c) ↔ c = some x ∨ x ∈ Q.elems h := by
  cases c with
  | none => simp [pushSome]
  | some c => simp [pushSome, eq_comm]

theorem card_pushSome_le (h : Q.Carrier) (c : Option C) :
    Multiset.card (Q.elems (Q.pushSome h c)) ≤ Multiset.card (Q.elems h) + 1 := by
  cases c with
  | none => exact Nat.le_succ _
  | some c => rw [pushSome, Q.elems_push, Multiset.card_cons]

theorem mem_pop {h h' : Q.Carrier} {c x : C} (hpop : Q.pop h = some (c, h')) :
    x ∈ Q.elems h ↔ x = c ∨ x ∈ Q.elems h' := by
  rw [Q.pop_some h c h' hpop, Multiset.mem_cons]

theorem card_pop {h h' : Q.Carrier} {c : C} (hpop : Q.pop h = some (c, h')) :
    Multiset.card (Q.elems h) = Multiset.card (Q.elems h') + 1 := by
  rw [Q.pop_some h c h' hpop, Multiset.card_cons]

end Queue

/-- A list from which the first of the least elements comes out. -/
def takeLeast {C K : Type} [LinearOrder K] (key : C → K) : List C → Option (C × List C)
  | [] => none
  | c :: cs =>
    match takeLeast key cs with
    | none => some (c, [])
    | some (d, ds) => if key d < key c then some (d, c :: ds) else some (c, cs)

theorem takeLeast_some {C K : Type} [LinearOrder K] {key : C → K} {cs ds : List C} {d : C}
    (h : takeLeast key cs = some (d, ds)) :
    (cs : Multiset C) = d ::ₘ (ds : Multiset C) ∧ ∀ x ∈ ds, key d ≤ key x := by
  induction cs generalizing d ds with
  | nil => cases h
  | cons c cs ih =>
    rw [takeLeast] at h
    cases hrest : takeLeast key cs with
    | none =>
      rw [hrest] at h
      cases h
      cases cs with
      | nil => simp
      | cons c' cs =>
        rw [takeLeast] at hrest
        split at hrest
        · cases hrest
        · split at hrest <;> cases hrest
    | some de =>
      obtain ⟨e, es⟩ := de
      obtain ⟨heq, hle⟩ := ih hrest
      rw [hrest] at h
      dsimp only at h
      split at h
      · rename_i hlt
        cases h
        refine ⟨?_, ?_⟩
        · rw [← Multiset.cons_coe, ← Multiset.cons_coe, heq, Multiset.cons_swap]
        · intro x hx
          rcases List.mem_cons.mp hx with rfl | hx
          · exact hlt.le
          · exact hle x hx
      · rename_i hlt
        cases h
        refine ⟨(Multiset.cons_coe ..).symm, ?_⟩
        intro x hx
        have hx : x ∈ (cs : Multiset C) := hx
        rw [heq, Multiset.mem_cons] at hx
        rcases hx with rfl | hx
        · exact le_of_not_gt hlt
        · exact (le_of_not_gt hlt).trans (hle x hx)

theorem takeLeast_none {C K : Type} [LinearOrder K] {key : C → K} {cs : List C}
    (h : takeLeast key cs = none) : cs = [] := by
  cases cs with
  | nil => rfl
  | cons c cs =>
    rw [takeLeast] at h
    split at h
    · cases h
    · split at h <;> cases h

/-- The queue that is a list; `push` puts where an element is put. -/
def Queue.ofList {C K : Type} [LinearOrder K] (key : C → K) (push : List C → C → List C)
    (hpush : ∀ cs c, (push cs c).Perm (c :: cs)) : Queue C where
  Carrier := List C
  empty := []
  push := push
  pop := takeLeast key
  elems cs := (cs : Multiset C)
  elems_empty := rfl
  elems_push cs c := by
    rw [Multiset.cons_coe]
    exact Multiset.coe_eq_coe.mpr (hpush cs c)
  pop_none h hpop := by
    rw [takeLeast_none hpop]
    rfl
  pop_some h c h' hpop := (takeLeast_some hpop).1

theorem Queue.ofList_popsLeast {C K : Type} [LinearOrder K] (key : C → K)
    (push : List C → C → List C) (hpush : ∀ cs c, (push cs c).Perm (c :: cs)) :
    (Queue.ofList key push hpush).PopsLeast fun c d => key c ≤ key d :=
  fun _ _ _ hpop x hx => (takeLeast_some hpop).2 x hx

end Ecco9.Library
