import Ecco9.Library.ArrayLists
import Ecco9.Runner.Finish
import Ecco9.Runner.KvState

/-! `ShiftCacheSlot` of both runners, down to the slices it takes, over what it asks of the KV
cache. -/

namespace Ecco9.Runner

open Ecco9.Library Ecco9.KvCache

/-! ### One slot -/

/-- What `ShiftCacheSlot` asks of the KV cache: to drop the positions from `beginIndex` up to
`endIndex` and move what follows down, of so many inputs; and to drop everything. -/
structure ShiftOps (K : Type) where
  remove : K → (id : Int) → (beginIndex endIndex inputLen : Nat) → K × Bool
  clear : K → (id : Int) → K

inductive ShiftEnd (α : Type)
  | ok
  /-- `ErrReprocessInputs` -/
  | reprocess (inputs : List α)
  /-- "unable to shift context - keep exceeds context" -/
  | keepExceeds
  deriving DecidableEq

structure Shifted (K α : Type) where
  cache : K
  inputs : List α
  result : ShiftEnd α

variable {K α : Type}

/-- The inputs that `ErrReprocessInputs` carries, in a new array of zeros. -/
def preserved (zero : α) (inputs : List α) (numKeep discard : Nat) : Option (List α) := do
  if discard > inputs.length then none
  let newInputs := List.replicate (inputs.length - discard) zero
  let newInputs ← copyTo newInputs 0 numKeep (← slice inputs 0 numKeep)
  copyTo newInputs numKeep newInputs.length (← slice inputs (numKeep + discard) inputs.length)

/-- The inputs of the slot, moved down in place. -/
def movedInputs (inputs : List α) (numKeep discard : Nat) : Option (List α) := do
  let moved ← moveDown discard (inputs.length - (numKeep + discard)) (numKeep + discard) inputs
  if discard > inputs.length then none
  slice moved 0 (inputs.length - discard)

/-- `ShiftCacheSlot`; `none` where a slice is out of range. -/
def ShiftOps.shiftCacheSlot (ops : ShiftOps K) (zero : α) (numCtx : Nat) (cache : K) (id : Int)
    (inputs : List α) (numKeep : Nat) : Option (Shifted K α) :=
  if numKeep ≥ numCtx then some ⟨cache, inputs, .keepExceeds⟩
  else
    let discard := shiftDiscard numCtx inputs.length numKeep
    if discard = 0 then some ⟨cache, inputs, .ok⟩
    else
      match ops.remove cache id numKeep (numKeep + discard) inputs.length with
      | (cache, true) => (movedInputs inputs numKeep discard).map fun inputs => ⟨cache, inputs, .ok⟩
      | (cache, false) => (preserved zero inputs numKeep discard).map fun newInputs =>
          ⟨ops.clear cache id, [], .reprocess newInputs⟩

/-! ### The two runners -/

/-- `runner/ollamarunner/cache.go`, over a causal cache. -/
def ollamaOps (κ : Type) : ShiftOps (Causal κ) where
  remove c id beginIndex endIndex _ :=
    let removed := c.remove id beginIndex endIndex
    (removed.1, removed.2.isNone)
  clear c id := (c.remove id 0 maxInt32).1

/-- What `runner/llamarunner/cache.go` calls of the llama.cpp context. -/
structure LlamaContext (K : Type) where
  kvCacheCanShift : K → Bool
  kvCacheSeqRm : K → (seqId p0 p1 : Int) → K × Bool
  kvCacheSeqAdd : K → (seqId p0 p1 delta : Int) → K

def LlamaContext.ops (lc : LlamaContext K) : ShiftOps K where
  remove cache id beginIndex endIndex inputLen :=
    if lc.kvCacheCanShift cache then
      match lc.kvCacheSeqRm cache id beginIndex endIndex with
      | (cache, false) => (cache, false)
      | (cache, true) =>
        (lc.kvCacheSeqAdd cache id endIndex inputLen (beginIndex - endIndex), true)
    else (cache, false)
  clear cache id := (lc.kvCacheSeqRm cache id 0 (-1)).1

/-! ### Slices -/

/-- The inputs without the `discard` ones that follow the first `numKeep`. -/
def keepAround (inputs : List α) (numKeep discard : Nat) : List α :=
  inputs.take numKeep ++ inputs.drop (numKeep + discard)

theorem movedInputs_eq {inputs : List α} {numKeep discard : Nat}
    (h : numKeep + discard ≤ inputs.length) :
    movedInputs inputs numKeep discard = some (keepAround inputs numKeep discard) := by
  obtain ⟨moved, hmove, hslice⟩ := moveDown_end (Nat.le_add_left discard numKeep) h
  have hlen : ¬discard > inputs.length := by omega
  rw [Nat.add_sub_cancel] at hslice
  simp only [movedInputs, hmove, Option.bind_eq_bind, Option.bind_some, if_neg hlen]
  exact hslice

theorem preserved_eq (zero : α) {inputs : List α} {numKeep discard : Nat}
    (h : numKeep + discard ≤ inputs.length) :
    preserved zero inputs numKeep discard = some (keepAround inputs numKeep discard) := by
  have hlen : ¬discard > inputs.length := by omega
  have hkeep : (inputs.take numKeep).length = numKeep := List.length_take_of_le (by omega)
  have first : copyTo (List.replicate (inputs.length - discard) zero) 0 numKeep
      (inputs.take numKeep) = some (inputs.take numKeep ++
        List.replicate (inputs.length - discard - numKeep) zero) := by
    rw [copyTo_fill (Nat.zero_le _) (by rw [List.length_replicate]; omega) hkeep, List.take_zero,
      List.nil_append, List.drop_replicate]
  have length : (inputs.take numKeep ++
      List.replicate (inputs.length - discard - numKeep) zero).length = inputs.length - discard := by
    rw [List.length_append, hkeep, List.length_replicate]
    omega
  have second : copyTo (inputs.take numKeep ++
      List.replicate (inputs.length - discard - numKeep) zero) numKeep (inputs.length - discard)
      (inputs.drop (numKeep + discard)) = some (keepAround inputs numKeep discard) := by
    rw [copyTo_fill (by omega) length.ge (by rw [List.length_drop]; omega),
      List.take_left' hkeep, List.drop_of_length_le length.le, List.append_nil]
    rfl
  simp only [preserved, if_neg hlen, slice_front (by omega : numKeep ≤ inputs.length), first,
    slice_back h, length, second, Option.bind_eq_bind, Option.bind_some]

/-! ### Renumbering -/

/-- What is left of an entry at a position, when `[b, e)` is dropped. -/
def renumbered {β : Type} (b e : Nat) (x : Int × β) : Multiset (Int × β) :=
  if x.1 < b then {x} else if x.1 < e then 0 else {(x.1 - (e - b), x.2)}

/-- What `ShiftCacheSlot` relies on of a KV cache that holds entries at positions. -/
structure ShiftOps.Renumbers {β : Type} (ops : ShiftOps K) (held : K → Int → Multiset (Int × β)) :
    Prop where
  remove : ∀ cache id (b e n : Nat), b ≤ e → (n : Int) ≤ maxInt32 → e ≤ n →
    (∀ x ∈ held cache id, 0 ≤ x.1 ∧ x.1 < n) → (ops.remove cache id b e n).2 = true →
    held (ops.remove cache id b e n).1 id = (held cache id).bind (renumbered b e)
  clear : ∀ cache id (b e n : Nat), b ≤ e → (n : Int) ≤ maxInt32 → e ≤ n →
    (∀ x ∈ held cache id, 0 ≤ x.1 ∧ x.1 < n) → (ops.remove cache id b e n).2 = false →
    held (ops.clear (ops.remove cache id b e n).1 id) id = 0

/-- The positions that are held are in step with the inputs again. -/
theorem renumbered_keepAround {β : Type} {inputs : List α} {numKeep discard : Nat}
    (h : numKeep + discard ≤ inputs.length) {p : Nat} {x : β} {q : Int} {y : β}
    (hy : (q, y) ∈ renumbered numKeep (numKeep + discard) ((p : Int), x)) :
    y = x ∧ 0 ≤ q ∧ (keepAround inputs numKeep discard)[q.toNat]? = inputs[p]? := by
  have hkeep : (inputs.take numKeep).length = numKeep := List.length_take_of_le (by omega)
  rw [renumbered] at hy
  rw [keepAround, List.getElem?_append, hkeep]
  split at hy
  · rename_i hlt
    obtain ⟨rfl, rfl⟩ := Prod.mk.inj (Multiset.mem_singleton.mp hy)
    refine ⟨rfl, Int.natCast_nonneg p, ?_⟩
    rw [Int.toNat_natCast, if_pos (by omega), List.getElem?_take_of_lt (by omega)]
  · split at hy
    · cases hy
    · obtain ⟨rfl, rfl⟩ := Prod.mk.inj (Multiset.mem_singleton.mp hy)
      dsimp only at *
      refine ⟨rfl, by omega, ?_⟩
      rw [if_neg (by omega), List.getElem?_drop]
      congr 1
      omega

/-! ### The causal cache -/

theorem positions_of_held {κ β : Type} {c : Causal κ} {id : Int} {row : Nat → β} {n : Nat}
    (hn : (n : Int) ≤ maxInt32) (h : ∀ x ∈ held c.cells id row, 0 ≤ x.1 ∧ x.1 < n) :
    c.Positions id := by
  intro j hj
  have := h _ (mem_held hj)
  exact ⟨this.1, lt_of_lt_of_le this.2 hn⟩

theorem removedEntry_eq {β : Type} {b e n : Nat} (hbe : b ≤ e) (hn : (n : Int) ≤ maxInt32) (he : e ≤ n)
    {x : Int × β} (h0 : 0 ≤ x.1) (hlt : x.1 < n) :
    removedEntry (b : Int) e (removeOffset b e) x = renumbered b e x := by
  unfold maxInt32 at hn
  rw [removedEntry, renumbered]
  by_cases hlow : x.1 < b
  · rw [if_neg (by omega), if_neg (by omega), if_pos hlow]
  · rw [if_neg hlow]
    by_cases hin : x.1 < e
    · rw [if_pos ⟨by omega, hin⟩, if_pos hin]
    · have hoff : removeOffset (b : Int) e = b - e := by
        rw [removeOffset, if_pos (by unfold maxInt32; omega)]
        exact sub32_of_range (by omega) (by omega)
      rw [if_neg fun h => hin h.2, if_pos (by omega), if_neg hin, hoff,
        add32_of_range (by omega) (by omega)]
      congr 2
      omega

theorem ollamaOps_renumbers {κ β : Type} (row : Nat → β) :
    (ollamaOps κ).Renumbers fun c id => held c.cells id row where
  remove := by
    intro c id b e n hbe hn he hheld hok
    have hremove : (c.remove id b e).2 = none := Option.isNone_iff_eq_none.mp hok
    refine (Causal.held_remove hremove row).trans (Multiset.bind_congr fun x hx => ?_)
    exact removedEntry_eq hbe hn he (hheld x hx).1 (hheld x hx).2
  clear := by
    intro c id b e n hbe hn he hheld _
    have positions := (positions_of_held hn hheld).remove (Int.natCast_nonneg b)
      (Int.ofNat_le.mpr hbe)
    exact (held_clear positions row).2

/-! ### The llama.cpp context -/

/-- What `llama.h` says of the calls, where `held` is what is stored for a sequence at positions. -/
structure LlamaContext.Documented {β : Type} (lc : LlamaContext K)
    (held : K → Int → Multiset (Int × β)) : Prop where
  positions : ∀ cache id, ∀ x ∈ held cache id, 0 ≤ x.1
  /-- "Removes all tokens that belong to the specified sequence and have positions in [p0, p1)" -/
  seqRm : ∀ cache id p0 p1, 0 ≤ p0 → (lc.kvCacheSeqRm cache id p0 p1).2 = true →
    held (lc.kvCacheSeqRm cache id p0 p1).1 id =
      (held cache id).filter fun x => ¬(p0 ≤ x.1 ∧ (p1 < 0 ∨ x.1 < p1))
  /-- "Removing a whole sequence never fails" -/
  whole : ∀ cache id, (lc.kvCacheSeqRm cache id 0 (-1)).2 = true
  /-- "Adds relative position "delta" to all tokens that belong to the specified sequence and have
  positions in [p0, p1)" -/
  seqAdd : ∀ cache id p0 p1 delta, 0 ≤ p0 → 0 ≤ p1 →
    (∀ x ∈ held cache id, p0 ≤ x.1 → x.1 < p1 → 0 ≤ x.1 + delta) →
    held (lc.kvCacheSeqAdd cache id p0 p1 delta) id =
      (held cache id).map fun x => if p0 ≤ x.1 ∧ x.1 < p1 then (x.1 + delta, x.2) else x

theorem filter_map_renumbered {β : Type} {b e n : Nat} (hbe : b ≤ e) (entries : Multiset (Int × β))
    (h : ∀ x ∈ entries, 0 ≤ x.1 ∧ x.1 < n) :
    ((entries.filter fun x => ¬((b : Int) ≤ x.1 ∧ ((e : Int) < 0 ∨ x.1 < (e : Int)))).map fun x =>
      if (e : Int) ≤ x.1 ∧ x.1 < (n : Int) then (x.1 + ((b : Int) - e), x.2) else x) =
        entries.bind (renumbered b e) := by
  induction entries using Multiset.induction_on with
  | empty => rfl
  | cons x entries ih =>
    rw [Multiset.cons_bind, ← ih fun y hy => h y (Multiset.mem_cons_of_mem hy), renumbered]
    obtain ⟨h0, hlt⟩ := h x (Multiset.mem_cons_self x entries)
    by_cases hlow : x.1 < b
    · rw [Multiset.filter_cons_of_pos _ (by omega), Multiset.map_cons, if_neg (by omega),
        if_pos hlow, Multiset.singleton_add]
    · rw [if_neg hlow]
      by_cases hin : x.1 < e
      · rw [Multiset.filter_cons_of_neg _ (by omega), if_pos hin, zero_add]
      · rw [Multiset.filter_cons_of_pos _ (by omega), Multiset.map_cons, if_pos (by omega),
          if_neg hin, Multiset.singleton_add]
        congr 2
        omega

theorem LlamaContext.Documented.renumbers {β : Type} {lc : LlamaContext K}
    {held : K → Int → Multiset (Int × β)} (documented : lc.Documented held) :
    lc.ops.Renumbers held where
  remove := by
    intro cache id b e n hbe hn he hheld hok
    simp only [ops] at hok ⊢
    split at hok
    case isFalse => cases hok
    case isTrue hshift =>
      split at hok
      · cases hok
      · rename_i cache' hrm
        have hremoved := documented.seqRm cache id b e (Int.natCast_nonneg b) (by rw [hrm])
        rw [hrm] at hremoved
        have hadd := documented.seqAdd cache' id e n (b - e) (Int.natCast_nonneg e)
          (Int.natCast_nonneg n) (fun x hx hle _ => by
            rw [hremoved] at hx
            have := hheld x (Multiset.mem_of_mem_filter hx)
            omega)
        rw [if_pos hshift]
        refine hadd.trans ?_
        rw [hremoved]
        exact filter_map_renumbered hbe (held cache id) hheld
  clear := by
    intro cache id b e n hbe hn he hheld _
    have hclear := documented.seqRm (lc.ops.remove cache id b e n).1 id 0 (-1) (Int.le_refl 0)
      (documented.whole _ id)
    refine hclear.trans (Multiset.filter_eq_nil.mpr fun x hx => ?_)
    have := documented.positions _ id x hx
    omega

/-! ### The slot and the cache in step -/

/-- How `ShiftCacheSlot` may end, for a slot with `inputs`. -/
structure ShiftedTo {β : Type} (ops : ShiftOps K) (held : K → Int → Multiset (Int × β)) (numCtx : Nat)
    (cache : K) (id : Int) (inputs : List α) (numKeep discard : Nat) (r : Shifted K α) : Prop where
  nothing : discard = 0 → r = ⟨cache, inputs, .ok⟩
  removed : discard ≠ 0 →
    (ops.remove cache id numKeep (numKeep + discard) inputs.length).2 = true →
    r.result = .ok ∧ r.inputs = keepAround inputs numKeep discard ∧
      r.inputs.length + Nat.max ((numCtx - numKeep) / 2) 1 ≤ numCtx ∧
      held r.cache id = (held cache id).bind (renumbered numKeep (numKeep + discard)) ∧
      ∀ (p : Nat) (x : β) (q : Int) (y : β),
        (q, y) ∈ renumbered numKeep (numKeep + discard) ((p : Int), x) →
        y = x ∧ 0 ≤ q ∧ r.inputs[q.toNat]? = inputs[p]?
  failed : discard ≠ 0 →
    (ops.remove cache id numKeep (numKeep + discard) inputs.length).2 = false →
    r.result = .reprocess (keepAround inputs numKeep discard) ∧ r.inputs = [] ∧ held r.cache id = 0

theorem ShiftOps.Renumbers.shiftedTo {β : Type} {ops : ShiftOps K}
    {held : K → Int → Multiset (Int × β)} (renumbers : ops.Renumbers held) (zero : α)
    {numCtx numKeep : Nat} {inputs : List α} (hkeep : numKeep < numCtx)
    (hmax : (inputs.length : Int) ≤ maxInt32) {cache : K} {id : Int}
    (hheld : ∀ x ∈ held cache id, 0 ≤ x.1 ∧ x.1 < inputs.length) :
    ∃ r, ops.shiftCacheSlot zero numCtx cache id inputs numKeep = some r ∧
      ShiftedTo ops held numCtx cache id inputs numKeep
        (shiftDiscard numCtx inputs.length numKeep) r := by
  have bounds := shiftDiscard_bounds hkeep inputs.length
  unfold shiftCacheSlot
  rw [if_neg (Nat.not_le.mpr hkeep)]
  dsimp only
  generalize shiftDiscard numCtx inputs.length numKeep = discard at bounds ⊢
  by_cases hzero : discard = 0
  · rw [if_pos hzero]
    exact ⟨_, rfl, fun _ => rfl, fun h => absurd hzero h, fun h => absurd hzero h⟩
  · rw [if_neg hzero]
    obtain ⟨hend, hfree⟩ := bounds hzero
    have hbe : numKeep ≤ numKeep + discard := Nat.le_add_right _ _
    have hremoved := renumbers.remove cache id numKeep _ _ hbe hmax hend hheld
    have hcleared := renumbers.clear cache id numKeep _ _ hbe hmax hend hheld
    cases hremove : ops.remove cache id numKeep (numKeep + discard) inputs.length with
    | mk cache' ok =>
      rw [hremove] at hremoved hcleared
      cases ok with
      | true =>
        refine ⟨⟨cache', keepAround inputs numKeep discard, .ok⟩, ?_, fun h => absurd h hzero,
          fun _ _ => ⟨rfl, rfl, ?_, hremoved rfl, fun p x q y hy => renumbered_keepAround hend hy⟩,
          fun _ h => ?_⟩
        · dsimp only
          rw [movedInputs_eq hend]
          rfl
        · dsimp only
          rw [keepAround, List.length_append, List.length_take, List.length_drop]
          omega
        · rw [hremove] at h
          cases h
      | false =>
        refine ⟨⟨ops.clear cache' id, [], .reprocess (keepAround inputs numKeep discard)⟩, ?_,
          fun h => absurd h hzero, fun _ h => ?_, fun _ _ => ⟨rfl, rfl, hcleared rfl⟩⟩
        · dsimp only
          rw [preserved_eq zero hend]
          rfl
        · rw [hremove] at h
          cases h

/-- In both runners `ShiftCacheSlot` stays within its slices, and the inputs of the slot stay in step
with the KV cache, if nothing is held behind them. -/
theorem shiftCacheSlot_inStep (zero : α) {numCtx numKeep : Nat} (inputs : List α)
    (hkeep : numKeep < numCtx) (hlen : inputs.length ≤ numCtx) (hmax : (numCtx : Int) ≤ maxInt32) :
    (∀ (κ β : Type) (c : Causal κ) (id : Int) (row : Nat → β),
      (∀ x ∈ held c.cells id row, 0 ≤ x.1 ∧ x.1 < inputs.length) →
      ∃ r, (ollamaOps κ).shiftCacheSlot zero numCtx c id inputs numKeep = some r ∧
        ShiftedTo (ollamaOps κ) (fun c id => held c.cells id row) numCtx c id inputs numKeep
          (shiftDiscard numCtx inputs.length numKeep) r) ∧
    ∀ (K β : Type) (lc : LlamaContext K) (held : K → Int → Multiset (Int × β)),
      lc.Documented held → ∀ cache id,
      (∀ x ∈ held cache id, 0 ≤ x.1 ∧ x.1 < inputs.length) →
      ∃ r, lc.ops.shiftCacheSlot zero numCtx cache id inputs numKeep = some r ∧
        ShiftedTo lc.ops held numCtx cache id inputs numKeep
          (shiftDiscard numCtx inputs.length numKeep) r := by
  have hmax' : (inputs.length : Int) ≤ maxInt32 := le_trans (Int.ofNat_le.mpr hlen) hmax
  exact ⟨fun κ β c id row hheld => (ollamaOps_renumbers row).shiftedTo zero hkeep hmax' hheld,
    fun K β lc held documented cache id hheld =>
      documented.renumbers.shiftedTo zero hkeep hmax' hheld⟩

/-! ### The model of the input cache -/

/-- A KV cache of the runner, with what `ShiftCacheSlot` asks of it. -/
def KvOps.shiftOps (ops : KvOps K) : ShiftOps K where
  remove cache id beginIndex endIndex _ := ops.remove cache id beginIndex endIndex
  clear cache id := (ops.remove cache id 0 maxInt32).1

def ShiftEnd.toResult : ShiftEnd Input → ShiftResult
  | .ok => .ok
  | .reprocess inputs => .reprocess inputs
  | .keepExceeds => .error

/-- The shift of the input cache, which takes the inputs that are kept at once, is the one in place. -/
theorem InputCache.shiftCacheSlot_inPlace {c : InputCache K} {i : Nat} (hi : i < c.slots.length)
    (ops : KvOps K) (zero : Input) (numKeep : Nat) : ∃ r,
      ops.shiftOps.shiftCacheSlot zero c.numCtx c.cache (c.slot i).id (c.slot i).inputs numKeep =
        some r ∧
      c.shiftCacheSlot ops i numKeep =
        ({ c.setInputs i r.inputs with cache := r.cache }, r.result.toResult) := by
  have same : { c.setInputs i (c.slot i).inputs with cache := c.cache } = c :=
    InputCache.setInputs_eq hi
  unfold InputCache.shiftCacheSlot ShiftOps.shiftCacheSlot
  by_cases hkeep : numKeep ≥ c.numCtx
  · rw [if_pos hkeep, if_pos hkeep]
    exact ⟨_, rfl, by rw [same]; rfl⟩
  · rw [if_neg hkeep, if_neg hkeep]
    have bounds := shiftDiscard_bounds (Nat.not_le.mp hkeep) (c.slot i).inputs.length
    dsimp only
    generalize shiftDiscard c.numCtx (c.slot i).inputs.length numKeep = discard at bounds ⊢
    by_cases hzero : discard = 0
    · rw [if_pos hzero, if_pos hzero]
      exact ⟨_, rfl, by rw [same]; rfl⟩
    · rw [if_neg hzero, if_neg hzero]
      obtain ⟨hend, -⟩ := bounds hzero
      have hremove : ops.shiftOps.remove c.cache (c.slot i).id numKeep (numKeep + discard)
          (c.slot i).inputs.length = ops.remove c.cache (c.slot i).id numKeep (numKeep + discard) := rfl
      rw [hremove]
      cases ops.remove c.cache (c.slot i).id numKeep (numKeep + discard) with
      | mk cache ok =>
        cases ok with
        | true =>
          dsimp only
          rw [movedInputs_eq hend]
          exact ⟨_, rfl, rfl⟩
        | false =>
          dsimp only
          rw [preserved_eq zero hend]
          exact ⟨_, rfl, rfl⟩

theorem oneSlot_inPlace :
    let ops : KvOps Nat := ⟨fun _ _ _ => true, fun k _ _ _ => (k + 1, k = 1), fun k _ _ _ => k, fun k _ => (k, true)⟩
    let c : InputCache Nat := ⟨4, [{ id := 0, inputs := [1, 2, 3, 4].map (⟨·, none, 0, 0⟩) }], false, 1, 1⟩
    ∃ r, ops.shiftOps.shiftCacheSlot ⟨0, none, 0, 0⟩ 4 1 0 (c.slot 0).inputs 1 = some r ∧
      c.shiftCacheSlot ops 0 1 = ({ c.setInputs 0 r.inputs with cache := r.cache }, r.result.toResult) :=
  InputCache.shiftCacheSlot_inPlace (c := ⟨4, [{ id := 0, inputs := _ }], false, 1, 1⟩) (i := 0) Nat.one_pos _ _ 1

/-! ### Four inputs -/

/-- A context that holds positions of one sequence. -/
def positionsContext : LlamaContext (List Nat) where
  kvCacheCanShift _ := true
  kvCacheSeqRm cache _ p0 p1 :=
    (cache.filter fun p : Nat => !(decide (p0 ≤ p) && (decide (p1 < 0) || decide (p < p1))), true)
  kvCacheSeqAdd cache _ p0 p1 delta :=
    cache.map fun p : Nat => if p0 ≤ p ∧ p < p1 then ((p : Int) + delta).toNat else p

def positionsHeld (cache : List Nat) (_ : Int) : Multiset (Int × Unit) :=
  ↑(cache.map fun p : Nat => ((p : Int), ()))

theorem positionsContext_documented : positionsContext.Documented positionsHeld where
  positions cache id x hx := by
    obtain ⟨p, -, rfl⟩ := List.mem_map.mp (Multiset.mem_coe.mp hx)
    exact Int.natCast_nonneg p
  seqRm cache id p0 p1 _ _ := by
    rw [positionsHeld, positionsHeld, Multiset.filter_coe, List.filter_map]
    congr 2
    apply List.filter_congr
    intro p _
    rw [Bool.eq_iff_iff]
    simp
  whole _ _ := rfl
  seqAdd cache id p0 p1 delta _ _ h := by
    rw [positionsHeld, positionsHeld, Multiset.map_coe, positionsContext, List.map_map, List.map_map]
    congr 1
    apply List.map_congr_left
    intro p hp
    have := h ((p : Int), ()) (Multiset.mem_coe.mpr (List.mem_map_of_mem hp))
    simp only [Function.comp]
    split
    · rename_i hin
      rw [Int.toNat_of_nonneg (this hin.1 hin.2)]
    · rfl

/-- A full slot is shifted by one llama.cpp context, and reprocessed by a causal cache that cannot
shift. -/
theorem fourInputs_inStep :
    (∃ r, positionsContext.ops.shiftCacheSlot 0 4 [0, 1, 2, 3] 0 [10, 11, 12, 13] 1 = some r ∧
      r.inputs = [10, 12, 13]) ∧
    ∃ r, (ollamaOps Unit).shiftCacheSlot 0 4
        { newCausalCache none with cells := [⟨0, [0]⟩, ⟨1, [0]⟩, ⟨2, [0]⟩, ⟨3, [0]⟩] } 0
        [10, 11, 12, 13] 1 = some r ∧ r.result = .reprocess [10, 12, 13] := by
  obtain ⟨ollama, llama⟩ := shiftCacheSlot_inStep 0 [10, 11, 12, 13]
    (show 1 < 4 by decide) (by decide) (by decide)
  obtain ⟨r, hr, shifted⟩ := llama (List Nat) Unit positionsContext positionsHeld
    positionsContext_documented [0, 1, 2, 3] 0 (by decide)
  obtain ⟨r', hr', shifted'⟩ := ollama Unit Unit
    { newCausalCache none with cells := [⟨0, [0]⟩, ⟨1, [0]⟩, ⟨2, [0]⟩, ⟨3, [0]⟩] } 0 (fun _ => ())
    (by decide)
  exact ⟨⟨r, hr, (shifted.removed (by decide) rfl).2.1⟩, r', hr', (shifted'.failed (by decide) rfl).1⟩

end Ecco9.Runner
