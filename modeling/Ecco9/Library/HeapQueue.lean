import Ecco9.Library.Heaps
import Ecco9.Library.Queue

/-! A heap as a queue: what comes out is before nothing that stays. A heap of what is due at some time,
ordered by priority and only then by time: what comes out when the first is due, and when that is what
is wanted. -/

namespace Ecco9.Library.Heaps

section

variable {C : Type} {less : C → C → Bool} {h h' : Array C} {x : C}

theorem root_of_pop (hp : pop less h = some (x, h')) : h[0]? = some x := by
  cases hroot : h[0]? with
  | none =>
    have hempty : h = #[] :=
      Array.eq_empty_of_size_eq_zero (Nat.le_zero.mp (Array.getElem?_eq_none_iff.mp hroot))
    subst hempty
    have hnone : pop less (#[] : Array C) = none := by simp [pop, down, Array.swapIfInBounds]
    rw [hnone] at hp
    cases hp
  | some y =>
    obtain ⟨h'', hp', -⟩ := pop_spec less hroot
    rw [hp] at hp'
    cases hp'
    rfl

theorem pop_perm (hp : pop less h = some (x, h')) : h.toList.Perm (x :: h'.toList) := by
  obtain ⟨h'', hp', perm⟩ := pop_spec less (root_of_pop hp)
  rw [hp] at hp'
  cases hp'
  exact perm

theorem pop_eq_none (hp : pop less h = none) : h = #[] := by
  apply Array.eq_empty_of_size_eq_zero
  by_contra hne
  have hroot : h[0]? = some h[0] := Array.getElem?_eq_getElem (Nat.pos_of_ne_zero hne)
  obtain ⟨h', hp', -⟩ := pop_spec less hroot
  rw [hp] at hp'
  cases hp'

variable (o : HeapOrder less fun _ => True)

def popHeap (h : { h : Array C // Heap less h }) : Option (C × { h : Array C // Heap less h }) :=
  match hp : pop less h.1 with
  | none => none
  | some (x, h') =>
    some (x, ⟨h', (pop_heap o h.2 (fun _ _ => trivial) (root_of_pop hp) hp).1⟩)

theorem popHeap_eq_some {h h' : { h : Array C // Heap less h }} (hp : popHeap o h = some (x, h')) :
    pop less h.1 = some (x, h'.1) := by
  unfold popHeap at hp
  split at hp
  · cases hp
  · rename_i y h'' heq
    cases hp
    exact heq

theorem popHeap_eq_none {h : { h : Array C // Heap less h }} (hp : popHeap o h = none) :
    h.1 = #[] := by
  unfold popHeap at hp
  split at hp
  · rename_i heq
    exact pop_eq_none heq
  · cases hp

def queue : Queue C where
  Carrier := { h : Array C // Heap less h }
  empty := ⟨#[], fun _ _ hlt => absurd hlt (Nat.not_lt_zero _)⟩
  push h x := ⟨push less h.1 x, push_heap o h.2 x fun _ _ => trivial⟩
  pop := popHeap o
  elems h := (h.1.toList : Multiset C)
  elems_empty := rfl
  elems_push h x := by
    rw [Multiset.cons_coe, Multiset.coe_eq_coe]
    refine (push_perm less h.1 x).toList.trans ?_
    rw [Array.toList_push]
    exact List.perm_append_comm
  pop_none h hp := by
    rw [popHeap_eq_none o hp]
    rfl
  pop_some h x h' hp := Multiset.coe_eq_coe.mpr (pop_perm (popHeap_eq_some o hp))

theorem queue_popsLeast : (queue o).PopsLeast fun c d => less d c = false := by
  intro h c h' hp d hd
  have hpop := popHeap_eq_some o hp
  have hmem : d ∈ h'.1 := Array.mem_toList_iff.mp hd
  exact (pop_heap o h.2 (fun _ _ => trivial) (root_of_pop hpop) hpop).2 d hmem

end

section

variable {α : Type} (priority due : α → Int)

/-- Of a higher priority, or of the same and due earlier. -/
def before (a b : α) : Bool :=
  if priority a ≠ priority b then priority a > priority b else due a < due b

/-- The first is taken out when it is due. -/
def popDue (h : Array α) (now : Int) : Option (α × Array α) :=
  match h[0]? with
  | none => none
  | some e => if now < due e then none else pop (before priority due) h

/-- What is wanted of a queue: nothing comes out when nothing is due, and else what is due and of the
highest priority. -/
def Answers (h h' : Array α) (now : Int) : Option α → Prop
  | none => h' = h ∧ ∀ e ∈ h, now < due e
  | some e => due e ≤ now ∧ (∀ d ∈ h, due d ≤ now → priority d ≤ priority e) ∧
    h.toList.Perm (e :: h'.toList)

/-- Nothing that is not yet due is of a higher priority than all that is. -/
def Unblocked (h : Array α) (now : Int) : Prop :=
  (∃ d ∈ h, due d ≤ now) → ∃ e ∈ h, due e ≤ now ∧ ∀ d ∈ h, priority d ≤ priority e

section

variable {priority due : α → Int} {h h' : Array α} {now : Int} {e : α}

theorem before_iff {a b : α} : before priority due a b = true ↔
    priority b < priority a ∨ priority a = priority b ∧ due a < due b := by
  unfold before
  split <;> rw [decide_eq_true_eq] <;> omega

theorem before_eq_false {a b : α} : before priority due a b = false ↔
    priority a < priority b ∨ priority a = priority b ∧ due b ≤ due a := by
  rw [← Bool.not_eq_true, before_iff]
  omega

variable (priority due) in
theorem before_order : HeapOrder (before priority due) fun _ => True where
  asymm h := by
    rw [before_iff] at h
    rw [before_eq_false]
    omega
  trans _ hyx hzy := by
    rw [before_eq_false] at *
    omega

/-- Nothing is before the first, and it is due as soon as anything of its priority is. -/
theorem first_before (heap : Heap (before priority due) h) (first : h[0]? = some e) :
    ∀ d ∈ h, priority d < priority e ∨ priority d = priority e ∧ due e ≤ due d := by
  intro d hd
  obtain ⟨k, hk, rfl⟩ := Array.mem_iff_getElem.mp hd
  have least := root_least (before_order priority due) heap (fun _ _ => trivial) k hk
  rw [lessAt, Array.getElem?_eq_getElem hk, first] at least
  exact before_eq_false.mp least

theorem popDue_empty (empty : h[0]? = none) : popDue priority due h now = none := by
  rw [popDue, empty]

theorem popDue_early (first : h[0]? = some e) (early : now < due e) :
    popDue priority due h now = none := by
  rw [popDue, first]
  exact if_pos early

theorem popDue_due (first : h[0]? = some e) (is_due : due e ≤ now) :
    ∃ h', popDue priority due h now = some (e, h') ∧ h.toList.Perm (e :: h'.toList) := by
  obtain ⟨h', hpop, perm⟩ := pop_spec (before priority due) first
  refine ⟨h', ?_, perm⟩
  rw [popDue, first]
  exact (if_neg (by omega)).trans hpop

theorem popDue_heap (heap : Heap (before priority due) h) (hpop : popDue priority due h now = some (e, h')) :
    Heap (before priority due) h' := by
  rw [popDue] at hpop
  split at hpop
  · cases hpop
  · split at hpop
    · cases hpop
    · exact (pop_heap (before_order priority due) heap (fun _ _ => trivial) (root_of_pop hpop) hpop).1

theorem popDue_perm (hpop : popDue priority due h now = some (e, h')) :
    h.toList.Perm (e :: h'.toList) := by
  rw [popDue] at hpop
  split at hpop
  · cases hpop
  · split at hpop
    · cases hpop
    · exact pop_perm hpop

variable (priority due) in
/-- A heap answers as is wanted just when nothing that is due is kept behind what is not. -/
theorem answers_iff (heap : Heap (before priority due) h) (now : Int) :
    Answers priority due h ((popDue priority due h now).elim h Prod.snd) now
        ((popDue priority due h now).map Prod.fst) ↔ Unblocked priority due h now := by
  cases first : h[0]? with
  | none =>
    have empty : ∀ d, d ∉ h := by
      intro d hd
      obtain ⟨k, hk, -⟩ := Array.mem_iff_getElem.mp hd
      have := Array.getElem?_eq_none_iff.mp first
      omega
    rw [popDue_empty first]
    refine iff_of_true ⟨rfl, fun d hd => absurd hd (empty d)⟩ ?_
    rintro ⟨d, hd, -⟩
    exact absurd hd (empty d)
  | some e =>
    have least := first_before heap first
    have there : e ∈ h := Array.mem_of_getElem? first
    by_cases early : now < due e
    · rw [popDue_early first early]
      constructor
      · rintro ⟨-, none_due⟩ ⟨d, hd, is_due⟩
        have := none_due d hd
        omega
      · refine fun unblocked => ⟨rfl, fun d hd => ?_⟩
        by_contra is_due
        obtain ⟨d', hd', is_due', highest⟩ := unblocked ⟨d, hd, by omega⟩
        have := highest e there
        have := least d' hd'
        omega
    · obtain ⟨h', hpop, perm⟩ := popDue_due first (Int.not_lt.mp early)
      have highest : ∀ d ∈ h, priority d ≤ priority e := fun d hd => by
        have := least d hd
        omega
      rw [hpop]
      exact iff_of_true ⟨Int.not_lt.mp early, fun d hd _ => highest d hd, perm⟩
        fun _ => ⟨e, there, Int.not_lt.mp early, highest⟩

end

end

end Ecco9.Library.Heaps
