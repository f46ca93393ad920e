import Ecco9.Runner.Shift
import Mathlib.Data.Finset.Erase

/-! The KV cache of llama.cpp as `runner/llamarunner` uses it: cells that may belong to several
sequences at once, as in `llama_kv_cache_unified`. -/

namespace Ecco9.Llamarunner

open Ecco9.Library Ecco9.Runner

/-- A token, or the embedding of an image. -/
structure Input (E : Type) where
  token : Int := 0
  embed : Option E := none
  deriving DecidableEq

/-- A cell that is in use: the sequences it belongs to, its position in them, and what was decoded. -/
structure Cell (E : Type) where
  seqId : Finset Int
  pos : Nat
  input : Input E

variable {E : Type}

/-! ### The operations -/

/-- A position between `p0` and `p1`, where a negative `p1` is infinite. -/
def Within (p0 p1 : Int) (pos : Nat) : Prop := p0 ≤ pos ∧ (p1 < 0 ∨ pos < p1)

instance (p0 p1 : Int) (pos : Nat) : Decidable (Within p0 p1 pos) :=
  inferInstanceAs (Decidable (_ ∧ _))

def Cell.remove (seqId p0 p1 : Int) (c : Cell E) : Option (Cell E) :=
  if Within p0 p1 c.pos ∧ seqId ∈ c.seqId then
    if c.seqId.erase seqId = ∅ then none else some { c with seqId := c.seqId.erase seqId }
  else some c

def seqRm (seqId p0 p1 : Int) (cells : List (Cell E)) : List (Cell E) :=
  cells.filterMap (Cell.remove seqId p0 p1)

def Cell.assign (seqIdSrc seqIdDst p0 p1 : Int) (c : Cell E) : Option (Cell E) :=
  if seqIdSrc ∈ c.seqId ∧ Within p0 p1 c.pos then some { c with seqId := insert seqIdDst c.seqId }
  else some c

def seqCp (seqIdSrc seqIdDst p0 p1 : Int) (cells : List (Cell E)) : List (Cell E) :=
  if seqIdSrc = seqIdDst then cells else cells.filterMap (Cell.assign seqIdSrc seqIdDst p0 p1)

/-- A cell that would get a negative position is free again. -/
def Cell.add (seqId p0 p1 delta : Int) (c : Cell E) : Option (Cell E) :=
  if seqId ∈ c.seqId ∧ Within p0 p1 c.pos then
    if (c.pos : Int) + delta < 0 then none else some { c with pos := ((c.pos : Int) + delta).toNat }
  else some c

def seqAdd (seqId p0 p1 delta : Int) (cells : List (Cell E)) : List (Cell E) :=
  if delta = 0 ∨ p0 = p1 then cells else cells.filterMap (Cell.add seqId p0 p1 delta)

/-- What kind of memory a model has: whether it can be shifted, and which parts of a sequence it
refuses to remove. -/
structure Memory (E : Type) where
  canShift : Bool
  refuses : List (Cell E) → (seqId p0 p1 : Int) → Bool
  /-- "Removing a whole sequence never fails" -/
  whole : ∀ cells seqId, refuses cells seqId 0 (-1) = false

def Memory.kvCacheSeqRm (m : Memory E) (cells : List (Cell E)) (seqId p0 p1 : Int) :
    List (Cell E) × Bool :=
  if m.refuses cells seqId p0 p1 then (cells, false) else (seqRm seqId p0 p1 cells, true)

def Memory.context (m : Memory E) : LlamaContext (List (Cell E)) where
  kvCacheCanShift _ := m.canShift
  kvCacheSeqRm := m.kvCacheSeqRm
  kvCacheSeqAdd cells seqId p0 p1 delta := seqAdd seqId p0 p1 delta cells

/-! ### What a sequence holds -/

def Cell.held (id : Int) (c : Cell E) : Multiset (Int × Input E) :=
  if id ∈ c.seqId then {((c.pos : Int), c.input)} else 0

/-- The inputs that are stored for a sequence, with their positions. -/
def held (cells : List (Cell E)) (id : Int) : Multiset (Int × Input E) :=
  (cells.map (Cell.held id)).sum

@[simp] theorem held_nil (id : Int) : held ([] : List (Cell E)) id = 0 := rfl

@[simp] theorem held_cons (c : Cell E) (cells : List (Cell E)) (id : Int) :
    held (c :: cells) id = c.held id + held cells id := rfl

theorem held_append (cells cells' : List (Cell E)) (id : Int) :
    held (cells ++ cells') id = held cells id + held cells' id := by
  rw [held, held, held, List.map_append, List.sum_append]

theorem mem_held {cells : List (Cell E)} {id : Int} {x : Int × Input E} :
    x ∈ held cells id ↔ ∃ c ∈ cells, id ∈ c.seqId ∧ x = ((c.pos : Int), c.input) := by
  induction cells with
  | nil => simp
  | cons c cells ih => by_cases h : id ∈ c.seqId <;> simp [Cell.held, h, ih]

/-- An operation that treats each cell for itself. -/
theorem held_filterMap {f : Cell E → Option (Cell E)} {id id' : Int}
    {k : Int × Input E → Multiset (Int × Input E)} {cells : List (Cell E)}
    (h : ∀ c ∈ cells, ((f c).elim 0 (Cell.held id)) = (c.held id').bind k) :
    held (cells.filterMap f) id = (held cells id').bind k := by
  induction cells with
  | nil => rfl
  | cons c cells ih =>
    have hc := h c (List.mem_cons_self ..)
    rw [held_cons, Multiset.add_bind, ← hc, ← ih fun c hc => h c (List.mem_cons_of_mem _ hc),
      List.filterMap_cons]
    cases f c with
    | none => exact (zero_add _).symm
    | some c' => rfl

theorem held_filterMap_same {f : Cell E → Option (Cell E)} {id : Int} {cells : List (Cell E)}
    (h : ∀ c ∈ cells, ((f c).elim 0 (Cell.held id)) = c.held id) :
    held (cells.filterMap f) id = held cells id := by
  have hbind (s : Multiset (Int × Input E)) : s.bind (fun x => {x}) = s := by
    rw [Multiset.bind_singleton, Multiset.map_id']
  rw [held_filterMap (k := fun x => {x}) (fun c hc => (h c hc).trans (hbind _).symm), hbind]

theorem held_seqRm (cells : List (Cell E)) {id p0 p1 : Int} :
    held (seqRm id p0 p1 cells) id =
      (held cells id).filter fun x => ¬(p0 ≤ x.1 ∧ (p1 < 0 ∨ x.1 < p1)) := by
  rw [Multiset.filter_eq_bind]
  refine held_filterMap fun c _ => ?_
  by_cases hid : id ∈ c.seqId
  · by_cases hpos : Within p0 p1 c.pos
    · have hpos' : p0 ≤ (c.pos : Int) ∧ (p1 < 0 ∨ (c.pos : Int) < p1) := hpos
      rw [Cell.remove, if_pos ⟨hpos, hid⟩, Cell.held, if_pos hid, Multiset.singleton_bind,
        if_neg (not_not_intro hpos')]
      by_cases hlast : c.seqId.erase id = ∅
      · rw [if_pos hlast]
        rfl
      · rw [if_neg hlast]
        simp [Cell.held]
    · have hpos' : ¬(p0 ≤ (c.pos : Int) ∧ (p1 < 0 ∨ (c.pos : Int) < p1)) := hpos
      rw [Cell.remove, if_neg fun h => hpos h.1]
      simp only [Cell.held, if_pos hid, Option.elim, Multiset.singleton_bind, if_pos hpos']
  · rw [Cell.remove, if_neg fun h => hid h.2]
    simp [Cell.held, hid]

theorem held_seqRm_other (cells : List (Cell E)) {id id' : Int} (h : id' ≠ id) (p0 p1 : Int) :
    held (seqRm id p0 p1 cells) id' = held cells id' := by
  refine held_filterMap_same fun c _ => ?_
  rw [Cell.remove]
  split
  · split
    · rename_i hlast
      have hnot : id' ∉ c.seqId := fun hmem =>
        Finset.notMem_empty id' (hlast ▸ Finset.mem_erase.mpr ⟨h, hmem⟩)
      simp [Cell.held, hnot]
    · simp [Cell.held, Finset.mem_erase, h]
  · rfl

theorem held_seqCp (cells : List (Cell E)) {src dst : Int} (h : src ≠ dst) (hdst : held cells dst = 0)
    (p0 p1 : Int) : held (seqCp src dst p0 p1 cells) dst =
      (held cells src).filter fun x => p0 ≤ x.1 ∧ (p1 < 0 ∨ x.1 < p1) := by
  rw [seqCp, if_neg h, Multiset.filter_eq_bind]
  refine held_filterMap fun c hc => ?_
  have hnot : dst ∉ c.seqId := fun hmem =>
    Multiset.notMem_zero _ (hdst ▸ mem_held.mpr ⟨c, hc, hmem, rfl⟩)
  by_cases hsrc : src ∈ c.seqId
  · by_cases hpos : Within p0 p1 c.pos
    · have hpos' : p0 ≤ (c.pos : Int) ∧ (p1 < 0 ∨ (c.pos : Int) < p1) := hpos
      rw [Cell.assign, if_pos ⟨hsrc, hpos⟩]
      simp [Cell.held, hsrc, hpos']
    · have hpos' : ¬(p0 ≤ (c.pos : Int) ∧ (p1 < 0 ∨ (c.pos : Int) < p1)) := hpos
      rw [Cell.assign, if_neg fun h => hpos h.2]
      simp only [Cell.held, if_pos hsrc, if_neg hnot, Option.elim, Multiset.singleton_bind, if_neg hpos']
  · rw [Cell.assign, if_neg fun h => hsrc h.1]
    simp [Cell.held, hsrc, hnot]

theorem held_seqCp_other (cells : List (Cell E)) {dst id : Int} (h : id ≠ dst) (src p0 p1 : Int) :
    held (seqCp src dst p0 p1 cells) id = held cells id := by
  rw [seqCp]
  split
  · rfl
  · refine held_filterMap_same fun c _ => ?_
    rw [Cell.assign]
    split
    · simp [Cell.held, Finset.mem_insert, h]
    · rfl

theorem held_seqAdd (cells : List (Cell E)) {id p0 p1 delta : Int} (hp1 : 0 ≤ p1)
    (h : ∀ x ∈ held cells id, p0 ≤ x.1 → x.1 < p1 → 0 ≤ x.1 + delta) :
    held (seqAdd id p0 p1 delta cells) id =
      (held cells id).map fun x => if p0 ≤ x.1 ∧ x.1 < p1 then (x.1 + delta, x.2) else x := by
  rw [seqAdd]
  split
  · rename_i hnone
    refine (Multiset.map_congr rfl fun x _ => ?_).trans (Multiset.map_id _) |>.symm
    split
    · rcases hnone with rfl | rfl
      · rw [add_zero]
        rfl
      · omega
    · rfl
  · rw [← Multiset.bind_singleton]
    refine held_filterMap fun c hc => ?_
    by_cases hid : id ∈ c.seqId
    · by_cases hpos : Within p0 p1 c.pos
      · have hpos' : p0 ≤ (c.pos : Int) ∧ (c.pos : Int) < p1 := ⟨hpos.1, hpos.2.resolve_left (by omega)⟩
        have hge := h _ (mem_held.mpr ⟨c, hc, hid, rfl⟩) hpos'.1 hpos'.2
        dsimp only at hge
        rw [Cell.add, if_pos ⟨hid, hpos⟩, if_neg (by omega)]
        simp [Cell.held, hid, hpos', hge]
      · have hpos' : ¬(p0 ≤ (c.pos : Int) ∧ (c.pos : Int) < p1) := fun h => hpos ⟨h.1, .inr h.2⟩
        rw [Cell.add, if_neg fun h => hpos h.2]
        simp only [Cell.held, if_pos hid, Option.elim, Multiset.singleton_bind, if_neg hpos']
    · rw [Cell.add, if_neg fun h => hid h.1]
      simp [Cell.held, hid]

/-! ### Cells of one sequence only -/

/-- No cell belongs to two sequences. -/
def Unshared (cells : List (Cell E)) : Prop :=
  ∀ c ∈ cells, ∀ id ∈ c.seqId, ∀ id' ∈ c.seqId, id = id'

theorem Unshared.filterMap {f : Cell E → Option (Cell E)} {cells : List (Cell E)} (h : Unshared cells)
    (hf : ∀ c c', f c = some c' → c'.seqId ⊆ c.seqId) : Unshared (cells.filterMap f) := by
  intro c' hc' id hid id' hid'
  obtain ⟨c, hc, hfc⟩ := List.mem_filterMap.mp hc'
  exact h c hc id (hf c c' hfc hid) id' (hf c c' hfc hid')

theorem Unshared.seqRm {cells : List (Cell E)} (h : Unshared cells) (id p0 p1 : Int) :
    Unshared (seqRm id p0 p1 cells) := by
  refine h.filterMap fun c c' hc => ?_
  rw [Cell.remove] at hc
  split at hc
  · split at hc
    · cases hc
    · cases hc
      exact Finset.erase_subset ..
  · cases hc
    exact Finset.Subset.refl _

theorem Unshared.seqAdd {cells : List (Cell E)} (h : Unshared cells) (id p0 p1 delta : Int) :
    Unshared (seqAdd id p0 p1 delta cells) := by
  rw [Llamarunner.seqAdd]
  split
  · exact h
  · refine h.filterMap fun c c' hc => ?_
    rw [Cell.add] at hc
    split at hc
    · split at hc
      · cases hc
      · cases hc
        exact Finset.Subset.refl _
    · cases hc
      exact Finset.Subset.refl _

/-- Cells that are not shared move for their own sequence only. -/
theorem held_seqAdd_other {cells : List (Cell E)} (h : Unshared cells) {id id' : Int} (hne : id' ≠ id)
    (p0 p1 delta : Int) : held (seqAdd id p0 p1 delta cells) id' = held cells id' := by
  rw [seqAdd]
  split
  · rfl
  · refine held_filterMap_same fun c hc => ?_
    rw [Cell.add]
    split
    · rename_i hin
      have hnot : id' ∉ c.seqId := fun hmem => hne (h c hc id' hmem id hin.1)
      split <;> simp [Cell.held, hnot]
    · rfl

/-! ### The documented behaviour -/

theorem Memory.documented (m : Memory E) : m.context.Documented (held (E := E)) where
  positions cells id x hx := by
    obtain ⟨c, _, _, rfl⟩ := mem_held.mp hx
    exact Int.natCast_nonneg c.pos
  seqRm cells id p0 p1 _ hok := by
    simp only [context, kvCacheSeqRm] at hok ⊢
    split at hok
    · cases hok
    · rename_i hrefuses
      rw [if_neg hrefuses]
      exact held_seqRm cells
  whole cells id := by
    simp only [context, kvCacheSeqRm]
    rw [if_neg]
    rw [m.whole cells id]
    exact Bool.false_ne_true
  seqAdd cells id p0 p1 delta _ hp1 h := held_seqAdd cells hp1 h

end Ecco9.Llamarunner
