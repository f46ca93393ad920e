import Mathlib.Data.List.Nodup
import Mathlib.Logic.Function.Basic
import Mathlib.Logic.Relation

/-! Finite trees with a root, given by the children of each node. -/

universe u

namespace Ecco9.Library

variable {α : Type u}

structure Rooted (root : α) (nodes : List α) (children : α → List α) : Prop where
  distinct : nodes.Nodup
  rootMem : root ∈ nodes
  inside : ∀ a, ∀ b ∈ children a, a ∈ nodes ∧ b ∈ nodes
  once : ∀ a, (children a).Nodup
  unique : ∀ a a' b, b ∈ children a → b ∈ children a' → a = a'
  orphan : ∀ a, root ∉ children a
  reached : ∀ b ∈ nodes, Relation.ReflTransGen (fun a b => b ∈ children a) root b

variable {root a b : α} {nodes : List α} {children : α → List α}

theorem rooted_singleton (root : α) : Rooted root [root] fun _ => [] where
  distinct := List.nodup_singleton root
  rootMem := List.mem_singleton.mpr rfl
  inside _ _ h := absurd h List.not_mem_nil
  once _ := List.nodup_nil
  unique _ _ _ h := absurd h List.not_mem_nil
  orphan _ := List.not_mem_nil
  reached b h := by
    rw [List.mem_singleton.mp h]

/-- A new leaf. -/
theorem Rooted.graft [DecidableEq α] (h : Rooted root nodes children) (ha : a ∈ nodes)
    (hb : b ∉ nodes) :
    Rooted root (nodes ++ [b]) (Function.update children a (children a ++ [b])) := by
  have hmem {x y : α} : y ∈ Function.update children a (children a ++ [b]) x ↔
      y ∈ children x ∨ x = a ∧ y = b := by
    by_cases hx : x = a
    · subst hx
      simp
    · simp [hx]
  have hfresh {x : α} : b ∉ children x := fun hx => hb (h.inside x b hx).2
  constructor
  · exact h.distinct.append (List.nodup_singleton b) (List.disjoint_singleton.mpr hb)
  · exact List.mem_append_left _ h.rootMem
  · intro x y hy
    rcases hmem.mp hy with hy | ⟨rfl, rfl⟩
    · exact (h.inside x y hy).imp (List.mem_append_left _) (List.mem_append_left _)
    · exact ⟨List.mem_append_left _ ha, List.mem_append_right _ List.mem_cons_self⟩
  · intro x
    by_cases hx : x = a
    · rw [hx, Function.update_self]
      exact (h.once a).append (List.nodup_singleton b) (List.disjoint_singleton.mpr hfresh)
    · rw [Function.update_of_ne hx]
      exact h.once x
  · intro x x' y hy hy'
    rcases hmem.mp hy with hold | ⟨hx, hyb⟩
    · rcases hmem.mp hy' with hold' | ⟨-, hyb⟩
      · exact h.unique x x' y hold hold'
      · exact absurd (hyb ▸ hold) hfresh
    · rcases hmem.mp hy' with hold' | ⟨hx', -⟩
      · exact absurd (hyb ▸ hold') hfresh
      · exact hx.trans hx'.symm
  · intro x hx
    rcases hmem.mp hx with hx | ⟨-, rfl⟩
    · exact h.orphan x hx
    · exact hb h.rootMem
  · have grown {y : α} (hy : y ∈ nodes) : Relation.ReflTransGen
        (fun x y => y ∈ Function.update children a (children a ++ [b]) x) root y :=
      (h.reached y hy).lift id fun x y hxy => hmem.mpr (.inl hxy)
    intro y hy
    rcases List.mem_append.mp hy with hy | hy
    · exact grown hy
    · rw [List.mem_singleton.mp hy]
      exact (grown ha).tail (hmem.mpr (.inr ⟨rfl, rfl⟩))

end Ecco9.Library
