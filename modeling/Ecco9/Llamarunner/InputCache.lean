import Ecco9.Llamarunner.Cells
import Ecco9.Runner.Lineage

/-! The input cache of `runner/llamarunner/cache.go`, over the cells of the KV cache: how a prompt is
loaded into a slot, or into a fork of one, and how a slot that is full is shifted. -/

namespace Ecco9.Llamarunner

open Ecco9.Library Ecco9.Runner

variable {E : Type}

structure InputCacheSlot (E : Type) where
  id : Int
  inputs : List (Input E) := []
  inUse : Bool := false
  lastUsed : Nat := 0

structure InputCache (E : Type) where
  numCtx : Nat
  slots : List (InputCacheSlot E)
  multiUserCache : Bool
  /-- the KV cache of the context `lc` -/
  cells : List (Cell E) := []
  /-- the clock, `time.Now` -/
  now : Nat := 1

def InputCache.slot (c : InputCache E) (i : Nat) : InputCacheSlot E := c.slots.getD i { id := i }

def InputCache.setSlot (c : InputCache E) (i : Nat) (s : InputCacheSlot E) : InputCache E :=
  { c with slots := c.slots.set i s }

def InputCache.setInputs (c : InputCache E) (i : Nat) (inputs : List (Input E)) : InputCache E :=
  c.setSlot i { c.slot i with inputs }

def newInputCache (E : Type) (kvSize numSlots : Nat) (multiUserCache : Bool) :
    Option (InputCache E) :=
  let numCtx := kvSize / numSlots
  if numCtx < 1 then none
  else
    let slots := (List.range numSlots).map fun i : Nat => { id := i }
    some { numCtx, slots, multiUserCache }

section

variable [DecidableEq E]

def countCommonPrefix : List (Input E) → List (Input E) → Nat
  | a :: as, b :: bs => if a = b then countCommonPrefix as bs + 1 else 0
  | _, _ => 0

/-! ### Choosing a slot -/

/-- One turn of the loop of `findLongestCacheSlot`: the longest prefix so far, and its slot. -/
def longer (prompt : List (Input E)) (longest : Option (Nat × Nat)) (s : InputCacheSlot E × Nat) :
    Option (Nat × Nat) :=
  if s.1.inUse then longest
  else if ∀ l ∈ longest, l.2 < countCommonPrefix s.1.inputs prompt then
    some (s.2, countCommonPrefix s.1.inputs prompt)
  else longest

def InputCache.findLongestCacheSlot (c : InputCache E) (prompt : List (Input E)) :
    Option (Nat × Nat) :=
  c.slots.zipIdx.foldl (longer prompt) none

structure Best where
  longest : Option (Nat × Nat) := none
  oldest : Nat
  oldestSlot : Option Nat := none

/-- One turn of the loop of `findBestCacheSlot`. -/
def Best.visit (prompt : List (Input E)) (b : Best) (s : InputCacheSlot E × Nat) : Best :=
  let count := countCommonPrefix s.1.inputs prompt
  let longest := if ∀ l ∈ b.longest, l.2 < count then some (s.2, count) else b.longest
  if s.1.lastUsed < b.oldest ∧ !s.1.inUse then ⟨longest, s.1.lastUsed, some s.2⟩
  else { b with longest }

/-- `oldestSlot` becomes a copy of the first `longest` inputs of `longestSlot`. -/
def InputCache.fork (c : InputCache E) (m : Memory E) (longestSlot oldestSlot longest : Nat) :
    InputCache E :=
  let src := (c.slot longestSlot).id
  let dst := (c.slot oldestSlot).id
  { c.setInputs oldestSlot ((c.slot longestSlot).inputs.take longest) with
    cells := seqCp src dst 0 longest (m.kvCacheSeqRm c.cells dst 0 (-1)).1 }

/-- `findBestCacheSlot`; `none` where it fails or dereferences a slot that it did not find. -/
def InputCache.findBestCacheSlot (c : InputCache E) (m : Memory E) (prompt : List (Input E)) :
    Option (InputCache E × Nat × Nat) :=
  let best := c.slots.zipIdx.foldl (Best.visit prompt) { oldest := c.now }
  match best.longest with
  | none => none
  | some (longestSlot, longest) =>
    if longest = (c.slot longestSlot).inputs.length ∧ !(c.slot longestSlot).inUse then
      some (c, longestSlot, longest)
    else
      match best.oldestSlot with
      | none => none
      | some oldestSlot =>
        if (c.slot oldestSlot).inUse then none
        else if longest > 0 ∧ longestSlot ≠ oldestSlot then
          some (c.fork m longestSlot oldestSlot longest, oldestSlot, longest)
        else some (c, oldestSlot, longest)

/-- The slot for a prompt, and the length of the prefix that it shares with it. -/
def InputCache.findCacheSlot (c : InputCache E) (m : Memory E) (prompt : List (Input E)) :
    Option (InputCache E × Nat × Nat) :=
  if c.multiUserCache then c.findBestCacheSlot m prompt
  else (c.findLongestCacheSlot prompt).map fun found => (c, found)

/-- Removes what the slot holds from `numPast` on, or all of it where that is refused. -/
def InputCache.truncate (c : InputCache E) (m : Memory E) (i numPast : Nat) : InputCache E × Nat :=
  match m.kvCacheSeqRm c.cells (c.slot i).id numPast (-1) with
  | (cells, true) => ({ c with cells }, numPast)
  | (cells, false) => ({ c with cells := (m.kvCacheSeqRm cells (c.slot i).id 0 (-1)).1 }, 0)

/-- `LoadCacheSlot`: the slot, and the inputs that remain to be processed. -/
def InputCache.loadCacheSlot (c : InputCache E) (m : Memory E) (prompt : List (Input E))
    (cachePrompt : Bool) : Option (InputCache E × Nat × List (Input E)) :=
  match c.findCacheSlot m prompt with
  | none => none
  | some (c, i, numPast) =>
    let numPast := if cachePrompt then numPast else 0
    let c := { c.setSlot i { c.slot i with inUse := true, lastUsed := c.now + 1 } with
      now := c.now + 2 }
    -- one input is left to sample from
    let numPast := if numPast = prompt.length then numPast - 1 else numPast
    let (c, numPast) := c.truncate m i numPast
    some (c.setInputs i (prompt.take numPast), i, prompt.drop numPast)

end

/-- `ShiftCacheSlot`; `none` where a slice is out of range. -/
def InputCache.shiftCacheSlot (c : InputCache E) (m : Memory E) (i numKeep : Nat) :
    Option (InputCache E × ShiftEnd (Input E)) :=
  (m.context.ops.shiftCacheSlot {} c.numCtx c.cells (c.slot i).id (c.slot i).inputs numKeep).map
    fun r => ({ c.setInputs i r.inputs with cells := r.cache }, r.result)

/-! ### Slots -/

theorem InputCache.slot_eq {c : InputCache E} {i : Nat} {s : InputCacheSlot E}
    (h : c.slots[i]? = some s) : c.slot i = s := by
  rw [slot, List.getD_eq_getElem?_getD, h, Option.getD_some]

theorem InputCache.setInputs_eq {c : InputCache E} {i : Nat} {s : InputCacheSlot E}
    (h : c.slots[i]? = some s) (inputs : List (Input E)) :
    c.setInputs i inputs = { c with slots := c.slots.set i { s with inputs } } := by
  rw [setInputs, slot_eq h, setSlot]

theorem getElem?_set_some {slots : List (InputCacheSlot E)} {i : Nat} {s : InputCacheSlot E}
    (h : slots[i]? = some s) (t : InputCacheSlot E) : (slots.set i t)[i]? = some t :=
  List.getElem?_set_self (List.getElem?_eq_some_iff.mp h).1

theorem take_countCommonPrefix [DecidableEq E] (a b : List (Input E)) :
    a.take (countCommonPrefix a b) = b.take (countCommonPrefix a b) ∧
      countCommonPrefix a b ≤ a.length ∧ countCommonPrefix a b ≤ b.length := by
  induction a generalizing b with
  | nil => cases b <;> simp [countCommonPrefix]
  | cons x a ih =>
    cases b with
    | nil => simp [countCommonPrefix]
    | cons y b =>
      rw [countCommonPrefix]
      split
      · rename_i heq
        obtain ⟨htake, ha, hb⟩ := ih b
        subst heq
        rw [List.take_succ_cons, List.take_succ_cons, htake]
        exact ⟨rfl, Nat.succ_le_succ ha, Nat.succ_le_succ hb⟩
      · simp

/-! ### Inputs at their positions -/

/-- The inputs at the positions from `n` on. -/
def indexedFrom (n : Nat) : List (Input E) → Multiset (Int × Input E)
  | [] => 0
  | a :: l => ((n : Int), a) ::ₘ indexedFrom (n + 1) l

/-- The inputs at the positions from 0 on. -/
def indexed (l : List (Input E)) : Multiset (Int × Input E) := indexedFrom 0 l

theorem indexedFrom_append (n : Nat) (l l' : List (Input E)) :
    indexedFrom n (l ++ l') = indexedFrom n l + indexedFrom (n + l.length) l' := by
  induction l generalizing n with
  | nil => exact (zero_add _).symm
  | cons a l ih =>
    rw [List.cons_append, indexedFrom, ih, indexedFrom, Multiset.cons_add, List.length_cons,
      Nat.add_right_comm, Nat.add_assoc]

theorem bounds_of_mem_indexedFrom {n : Nat} {l : List (Input E)} {x : Int × Input E}
    (h : x ∈ indexedFrom n l) : (n : Int) ≤ x.1 ∧ x.1 < n + l.length := by
  induction l generalizing n with
  | nil => exact absurd h (Multiset.notMem_zero x)
  | cons a l ih =>
    rw [List.length_cons]
    rcases Multiset.mem_cons.mp h with rfl | h
    · dsimp only
      omega
    · have := ih h
      omega

theorem indexed_filter (l : List (Input E)) (n : Nat) :
    (indexed l).filter (fun x => x.1 < (n : Int)) = indexed (l.take n) := by
  conv_lhs => rw [← List.take_append_drop n l]
  rw [indexed, indexedFrom_append, Multiset.filter_add, Multiset.filter_eq_self.mpr,
    Multiset.filter_eq_nil.mpr, add_zero, indexed]
  · intro x hx
    have := (bounds_of_mem_indexedFrom hx).1
    rw [List.length_take] at this
    have hlen : (l.drop n).length ≠ 0 := by
      intro hzero
      rw [List.length_eq_zero_iff.mp hzero] at hx
      exact Multiset.notMem_zero x hx
    rw [List.length_drop] at hlen
    omega
  · intro x hx
    have := (bounds_of_mem_indexedFrom hx).2
    rw [List.length_take] at this
    omega

theorem indexedFrom_shifted {b e n : Nat} (hbe : b ≤ e) (hen : e ≤ n) (l : List (Input E)) :
    (indexedFrom n l).bind (renumbered b e) = indexedFrom (n - (e - b)) l := by
  induction l generalizing n with
  | nil => rfl
  | cons a l ih =>
    rw [indexedFrom, Multiset.cons_bind, ih (by omega), renumbered, if_neg (by dsimp only; omega),
      if_neg (by dsimp only; omega), indexedFrom, Multiset.singleton_add, Nat.sub_add_comm (by omega)]
    congr 2
    dsimp only
    omega

/-- A shift of the positions is one of the inputs. -/
theorem indexed_renumbered {l : List (Input E)} {b d : Nat} (h : b + d ≤ l.length) :
    (indexed l).bind (renumbered b (b + d)) = indexed (keepAround l b d) := by
  have hsplit : l = l.take b ++ ((l.drop b).take d ++ l.drop (b + d)) := by
    rw [← List.drop_drop, List.take_append_drop, List.take_append_drop]
  have hb : (l.take b).length = b := List.length_take_of_le (by omega)
  have hd : ((l.drop b).take d).length = d := List.length_take_of_le (by rw [List.length_drop]; omega)
  have hfront : (indexedFrom 0 (l.take b)).bind (renumbered b (b + d)) = indexedFrom 0 (l.take b) := by
    refine (Multiset.bind_congr (g := fun x => {x}) fun x hx => ?_).trans ?_
    · have := (bounds_of_mem_indexedFrom hx).2
      rw [renumbered, if_pos (by omega)]
    · rw [Multiset.bind_singleton, Multiset.map_id']
  have hmiddle : (indexedFrom b ((l.drop b).take d)).bind (renumbered b (b + d)) = 0 := by
    refine (Multiset.bind_congr (g := fun _ => 0) fun x hx => ?_).trans (Multiset.bind_zero _)
    have := bounds_of_mem_indexedFrom hx
    rw [renumbered, if_neg (by omega), if_pos (by omega)]
  rw [keepAround, indexed, indexed]
  conv_lhs => rw [hsplit]
  rw [indexedFrom_append, indexedFrom_append, indexedFrom_append, hb, hd, Nat.zero_add,
    Multiset.add_bind, Multiset.add_bind, hfront, hmiddle, zero_add,
    indexedFrom_shifted (Nat.le_add_right b d) (Nat.le_refl _)]
  congr 2
  omega

end Ecco9.Llamarunner
