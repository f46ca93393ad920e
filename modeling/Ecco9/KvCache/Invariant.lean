import Ecco9.KvCache.Mask
import Ecco9.KvCache.Held

/-! What holds of the cells and their ranges after any operations, also failed ones, and what
`StartForward` writes over. -/

universe u

namespace Ecco9.KvCache

open Ecco9.Library

inductive CacheOp
  | startForward (batch : Batch) (reserve : Bool) (maxGraphNodes : Int)
  | copyPrefix (srcSeq dstSeq len : Int)
  | remove (seq beginIndex endIndex : Int)

def Causal.apply (c : Causal κ) : CacheOp → Causal κ × Option CacheErr
  | .startForward batch reserve maxGraphNodes => c.startForward batch reserve maxGraphNodes
  | .copyPrefix srcSeq dstSeq len => (c.copyPrefix srcSeq dstSeq len, none)
  | .remove seq beginIndex endIndex => c.remove seq beginIndex endIndex

/-- The cache after some operations, whether they fail or not. -/
def Causal.after (c : Causal κ) (ops : List CacheOp) : Causal κ :=
  ops.foldl (fun c op => (c.apply op).1) c

/-! ### No sequence twice -/

def Causal.Distinct (c : Causal κ) : Prop := ∀ j, (c.cell j).sequences.Nodup

theorem Causal.Distinct.congr {c : Causal κ} {c' : Causal ρ} (distinct : c.Distinct)
    (cells : c'.cells = c.cells) : c'.Distinct := by
  intro j
  rw [Causal.cell, cells]
  exact distinct j

theorem Causal.Distinct.trimmed {c w : Causal κ} (distinct : c.Distinct)
    (cell : ∀ j, w.cell j = c.trimAll (c.cell j)) : w.Distinct := by
  intro j
  rw [cell]
  exact (distinct j).sublist (c.trimAll_sublist _)

theorem Causal.Distinct.defrag {c : Causal κ} (distinct : c.Distinct) (maxGraphNodes : Int) :
    (c.defrag maxGraphNodes).Distinct := by
  intro j
  rw [defrag_cell]
  refine List.Nodup.sublist (c.trimAll_sublist _) ?_
  rcases getD_mem_or (applyPairs c.cells (fillings c.cells)) j with h | h
  · rcases mem_applyPairs h with h | h
    · obtain ⟨i, hi, heq⟩ := List.mem_iff_getElem.mp h
      have := distinct i
      rw [Causal.cell, List.getD_eq_getElem?_getD, List.getElem?_eq_getElem hi, heq] at this
      exact this
    · rw [h]
      exact List.nodup_nil
  · rw [h]
    exact List.nodup_nil

theorem Causal.Distinct.copyPrefix {c : Causal κ} (distinct : c.Distinct)
    (srcSeq dstSeq len : Int) : (c.copyPrefix srcSeq dstSeq len).Distinct := by
  intro j
  rw [copyPrefix_cell]
  have here := distinct j
  generalize c.cell j = cell at here
  unfold copyCell
  -- `dstSeq` is not in the cell to which it is added
  have deleted : (if cell.sequences.contains dstSeq then cell.delete dstSeq else
      cell).sequences.Nodup ∧ dstSeq ∉ (if cell.sequences.contains dstSeq then cell.delete dstSeq else
      cell).sequences := by
    split
    · exact ⟨here.filter _, fun h => (CacheCell.mem_delete.mp h).2 rfl⟩
    · rename_i hnot
      exact ⟨here, fun h => hnot (List.contains_iff_mem.mpr h)⟩
  generalize (if cell.sequences.contains dstSeq then cell.delete dstSeq else cell) = cell'
    at deleted
  dsimp only
  split
  · exact deleted.1.append (List.nodup_singleton _) (by simpa using deleted.2)
  · exact deleted.1

theorem removedCell_sublist (seq beginIndex endIndex offset : Int) (cell : CacheCell) :
    List.Sublist (removedCell seq beginIndex endIndex offset cell).sequences cell.sequences := by
  unfold removedCell
  split
  · split
    · exact List.filter_sublist
    · split <;> exact List.Sublist.refl _
  · exact List.Sublist.refl _

theorem Causal.Distinct.remove {c : Causal κ} (distinct : c.Distinct)
    (seq beginIndex endIndex : Int) : (c.remove seq beginIndex endIndex).1.Distinct := by
  intro j
  rw [Causal.cell, remove_cells]
  rcases removeCells_cell seq beginIndex endIndex (removeOffset beginIndex endIndex) c.cells 0
    newRange j with ⟨h, -⟩ | ⟨-, h⟩
  · rw [h]
    exact (distinct j).sublist (removedCell_sublist ..)
  · rw [h]
    exact distinct j

/-! ### Storing a batch -/

/-- From `c` to `c'` a batch of `n` tokens is written, only over cells that are free. -/
structure Causal.WritesFree (c c' : Causal κ) (n : Nat) : Prop where
  length : c'.cells.length = c.cells.length
  fits : c'.curLoc + n ≤ c.cells.length
  free : ∀ j, c'.curLoc ≤ j → j < c'.curLoc + n → (c.cell j).free
  rest : ∀ j, ¬(c'.curLoc ≤ j ∧ j < c'.curLoc + n) → c'.cell j = c.cell j

/-- Where `prepare` finds room, the cells are free. -/
theorem Causal.prepare_free {c : Causal κ} (ranged : c.Ranged) (batch : Batch)
    (maxGraphNodes : Int) (h : (c.prepare batch maxGraphNodes).2 = none) (j : Nat)
    (hlo : (c.prepare batch maxGraphNodes).1.curLoc ≤ j)
    (hhi : j < (c.prepare batch maxGraphNodes).1.curLoc + batch.positions.length) :
    ((c.prepare batch maxGraphNodes).1.cell j).free := by
  have prepared := (prepare_spec ranged batch maxGraphNodes).2.2 h
  rw [← prepared.size] at hhi
  revert h hlo hhi
  rw [prepare_eq]
  dsimp only
  split
  · rename_i loc hloc
    intro _ hlo hhi
    exact (findStartLoc_some hloc).2 j hlo hhi
  · split
    · rename_i loc hloc
      intro _ hlo hhi
      exact (findStartLoc_some hloc).2 j hlo hhi
    · intro h
      cases h

theorem Causal.startForward_writes {c c' : Causal κ} (ranged : c.Ranged) {batch : Batch}
    {maxGraphNodes : Int} (h : c.startForward batch false maxGraphNodes = (c', none)) :
    (c.prepare batch maxGraphNodes).1.WritesFree c' batch.positions.length := by
  have free := prepare_free ranged batch maxGraphNodes
  have hprepared := (prepare_spec ranged batch maxGraphNodes).2.2
  rw [startForward, if_neg Bool.false_ne_true] at h
  split at h
  · cases h
  · rename_i c₁ heq
    rw [heq] at free hprepared ⊢
    obtain ⟨rfl, -⟩ := Prod.mk.inj h
    have prepared := hprepared rfl
    have stored := prepared.stored
    have hloc : c₁.storeBatch.buildMask.curLoc = c₁.curLoc := by
      rw [buildMask_same, stored.setup]
    have hcell (j : Nat) : c₁.storeBatch.buildMask.cell j = c₁.storeBatch.cell j := by
      rw [buildMask_same]
      rfl
    refine ⟨?_, ?_, ?_, ?_⟩
    · rw [buildMask_same]
      exact stored.length
    · rw [hloc]
      exact prepared.fits
    · rw [hloc]
      exact free rfl
    · intro j hj
      rw [hloc] at hj
      rw [hcell]
      rcases stored.cell j with h | ⟨e, he, rfl⟩
      · exact h
      · exfalso
        have hlt := zipIdx_fits he
        rw [List.length_zip, prepared.positions] at hlt
        have hle : e.2 < batch.positions.length := Nat.lt_of_lt_of_le hlt (Nat.min_le_left _ _)
        exact hj ⟨Nat.le_add_right _ _, Nat.add_lt_add_left hle _⟩

theorem Causal.Distinct.storeToken {c : Causal κ} (distinct : c.Distinct) (i : Nat)
    (pos seq : Int) : (c.storeToken i pos seq).Distinct := by
  intro j
  simp only [cell, Causal.storeToken, List.getD_eq_getElem?_getD, List.getElem?_set]
  split
  · split
    · exact List.nodup_singleton seq
    · exact List.nodup_nil
  · rw [← List.getD_eq_getElem?_getD]
    exact distinct j

theorem Causal.Distinct.storeBatch {c : Causal κ} (distinct : c.Distinct) :
    c.storeBatch.Distinct :=
  List.foldlRecOn (motive := Causal.Distinct) _ _ distinct
    fun _ h e _ => h.storeToken e.2 e.1.1 e.1.2

theorem Causal.Distinct.prepare {c : Causal κ} (distinct : c.Distinct) (ranged : c.Ranged)
    (batch : Batch) (maxGraphNodes : Int) : (c.prepare batch maxGraphNodes).1.Distinct := by
  have here : (c.withBatch batch).Distinct := distinct.congr rfl
  have hranged : (c.withBatch batch).Ranged := ranged.congr rfl rfl
  have slid := here.trimmed (updateSlidingWindow_cell hranged.covered)
  rw [prepare_eq]
  dsimp only
  split
  · exact slid.congr rfl
  · have moved := slid.defrag maxGraphNodes
    split
    · exact moved.congr rfl
    · exact moved.congr rfl

theorem Causal.Distinct.startForward {c : Causal κ} (distinct : c.Distinct) (ranged : c.Ranged)
    (batch : Batch) (reserve : Bool) (maxGraphNodes : Int) :
    (c.startForward batch reserve maxGraphNodes).1.Distinct := by
  have prepared := distinct.prepare ranged batch maxGraphNodes
  unfold Causal.startForward
  split
  · rw [buildMask_same]
    exact distinct.congr rfl
  · split
    · rename_i heq
      rwa [heq] at prepared
    · rename_i heq
      rw [heq] at prepared
      rw [buildMask_same]
      exact prepared.storeBatch.congr rfl

/-! ### A cache without cells -/

/-- Without cells every range is empty. -/
def Causal.Hollow (c : Causal κ) : Prop :=
  c.cells = [] → ∀ s r, c.cellRanges s = some r → r = newRange

theorem Causal.Hollow.congr {c : Causal κ} {c' : Causal ρ} (hollow : c.Hollow)
    (cells : c'.cells = c.cells) (ranges : c'.cellRanges = c.cellRanges) : c'.Hollow := by
  intro hnil s r hr
  rw [cells] at hnil
  rw [ranges] at hr
  exact hollow hnil s r hr

theorem Causal.Hollow.slideSeq {c : Causal κ} (hollow : c.Hollow) (seq pos : Int) :
    (c.slideSeq seq pos).Hollow := by
  unfold Causal.slideSeq
  split
  · exact hollow
  · rename_i oldRange _
    intro hnil s r hr
    have hcells : c.cells = [] := by simpa using hnil
    dsimp only at hr
    by_cases hs : s = seq
    · subst hs
      rw [Function.update_self, Option.some.injEq] at hr
      rw [← hr]
      have none (i : Nat) : (c.cell i).sequences.contains s = false := by
        rw [cell, hcells]
        rfl
      simp only [none, List.filter_false, List.filter_nil, List.foldl_nil]
    · rw [Function.update_of_ne hs] at hr
      exact hollow hcells s r hr

theorem Causal.Hollow.updateSlidingWindow {c : Causal κ} (hollow : c.Hollow) :
    c.updateSlidingWindow.Hollow := by
  unfold Causal.updateSlidingWindow
  dsimp only
  split
  · exact hollow.congr rfl rfl
  · refine List.foldlRecOn (motive := Causal.Hollow) _ _ (hollow.congr rfl rfl) ?_
    intro c h seq _
    split
    · exact h
    · exact h.slideSeq seq _

theorem Causal.Hollow.prepare {c : Causal κ} (hollow : c.Hollow) (batch : Batch)
    (maxGraphNodes : Int) : (c.prepare batch maxGraphNodes).1.Hollow := by
  have slid : (c.withBatch batch).updateSlidingWindow.Hollow :=
    Hollow.updateSlidingWindow (hollow.congr rfl rfl)
  have moved : ((c.withBatch batch).updateSlidingWindow.defrag maxGraphNodes).Hollow := by
    rw [defrag_eq]
    apply Hollow.updateSlidingWindow
    intro hnil s r hr
    obtain ⟨old, -, rfl⟩ := Option.map_eq_some_iff.mp hr
    change rangeOf (Causal.moved _ maxGraphNodes).cells s = newRange
    rw [hnil]
    rfl
  rw [prepare_eq]
  dsimp only
  split
  · exact slid.congr rfl rfl
  · split
    · exact moved.congr rfl rfl
    · exact moved.congr rfl rfl

/-- Without cells there is no room for any batch. -/
theorem Causal.prepare_hollow {c : Causal κ} (ranged : c.Ranged) (hnil : c.cells = [])
    (batch : Batch) (maxGraphNodes : Int) : (c.prepare batch maxGraphNodes).2 ≠ none := by
  obtain ⟨ready, -, sizes⟩ := updateSlidingWindow_withBatch ranged batch
  have none_of {w : Causal κ} (h : w.sizes = c.sizes) : w.findStartLoc = none := by
    have hlen : w.cells.length = c.cells.length := congrArg (·.length) h
    rw [hnil, List.length_nil, List.length_eq_zero_iff] at hlen
    rw [findStartLoc, hlen]
    rfl
  rw [prepare_eq]
  dsimp only
  rw [none_of sizes]
  dsimp only
  rw [none_of ((defrag_sizes ready.ranged maxGraphNodes).trans sizes)]
  intro h
  cases h

theorem Causal.Hollow.startForward {c : Causal κ} (hollow : c.Hollow) (ranged : c.Ranged)
    (batch : Batch) (reserve : Bool) (maxGraphNodes : Int) :
    (c.startForward batch reserve maxGraphNodes).1.Hollow := by
  have prepared := hollow.prepare batch maxGraphNodes
  obtain ⟨-, hsizes, hprepared⟩ := prepare_spec ranged batch maxGraphNodes
  have full := fun hnil => prepare_hollow ranged hnil batch maxGraphNodes
  unfold Causal.startForward
  split
  · rw [buildMask_same]
    exact hollow.congr rfl rfl
  · split
    · rename_i heq
      rwa [heq] at prepared
    · rename_i c₁ heq
      rw [heq] at hsizes hprepared full
      rw [buildMask_same]
      intro hnil
      have hlen := (hprepared rfl).stored.length
      rw [show c₁.storeBatch.cells = [] from hnil] at hlen
      have hlen' : c₁.cells.length = c.cells.length := congrArg (·.length) hsizes
      exact absurd rfl (full (List.length_eq_zero_iff.mp (hlen'.symm.trans hlen.symm)))

theorem Causal.Hollow.copyPrefix {c : Causal κ} (hollow : c.Hollow) (srcSeq dstSeq len : Int) :
    (c.copyPrefix srcSeq dstSeq len).Hollow := by
  intro hnil s r hr
  have hcells : c.cells = [] := List.map_eq_nil_iff.mp hnil
  simp only [Causal.copyPrefix] at hr
  by_cases hs : s = dstSeq
  · subst hs
    rw [Function.update_self, Option.some.injEq] at hr
    rw [← hr, hcells]
    rfl
  · rw [Function.update_of_ne hs] at hr
    exact hollow hcells s r hr

theorem Causal.Hollow.remove {c : Causal κ} (hollow : c.Hollow) (seq beginIndex endIndex : Int) :
    (c.remove seq beginIndex endIndex).1.Hollow := by
  intro hnil s r hr
  have hcells : c.cells = [] := by
    rw [← List.length_eq_zero_iff, ← c.remove_length seq beginIndex endIndex, hnil]
    rfl
  rw [remove_eq, hcells] at hr
  simp only [removeCells, Bool.false_eq_true, if_false, if_true] at hr
  by_cases hs : s = seq
  · subst hs
    rw [Function.update_self] at hr
    cases hr
  · rw [Function.update_of_ne hs] at hr
    exact hollow hcells s r hr

/-! ### Runs -/

/-- The ranges know where each sequence is, and no cell lists a sequence twice. -/
structure Causal.Represented (c : Causal κ) : Prop where
  has : ∀ j, ∀ s ∈ (c.cell j).sequences, ∃ r, c.cellRanges s = some r ∧ r.min ≤ j ∧ j ≤ r.max
  inside : ∀ s r, c.cellRanges s = some r → r.max < r.min ∨ r.max < c.cells.length
  distinct : ∀ j, (c.cell j).sequences.Nodup

/-- What every operation keeps. -/
structure Causal.Tidy (c : Causal κ) : Prop where
  ranged : c.Ranged
  distinct : c.Distinct
  hollow : c.Hollow

theorem Causal.Tidy.represented {c : Causal κ} (tidy : c.Tidy) : c.Represented where
  has j s hs := tidy.ranged.has hs
  inside := by
    intro s r hr
    have hmax := tidy.ranged.bounded s r hr
    cases hlen : c.cells.length with
    | zero =>
      obtain rfl := tidy.hollow (List.length_eq_zero_iff.mp hlen) s r hr
      exact .inl (by decide)
    | succ n => exact .inr (by omega)
  distinct := tidy.distinct

theorem Causal.init_tidy {c c₀ : Causal κ} {config : CacheConfig}
    {maxSequences capacity maxBatch : Nat}
    (h : c.init config maxSequences capacity maxBatch = some c₀) : c₀.Tidy := by
  simp only [init, Option.ite_none_left_eq_some] at h
  obtain ⟨-, h⟩ := h
  obtain rfl := Option.some.inj h
  have free (n j : Nat) : (List.replicate n ({} : CacheCell)).getD j {} = {} := by
    rcases getD_mem_or (List.replicate n {}) j with h | h
    · exact List.eq_of_mem_replicate h
    · exact h
  refine ⟨ranged_of_has ?_ ?_, ?_, ?_⟩
  · intro j s hs
    rw [cell, free] at hs
    cases hs
  · intro s r hr
    cases hr
  · intro j
    rw [cell, free]
    exact List.nodup_nil
  · intro _ s r hr
    cases hr

theorem Causal.Tidy.apply {c : Causal κ} (tidy : c.Tidy) (op : CacheOp) : (c.apply op).1.Tidy := by
  cases op with
  | startForward batch reserve maxGraphNodes =>
    exact ⟨(startForward_keeps tidy.ranged batch reserve maxGraphNodes).1,
      tidy.distinct.startForward tidy.ranged batch reserve maxGraphNodes,
      tidy.hollow.startForward tidy.ranged batch reserve maxGraphNodes⟩
  | copyPrefix srcSeq dstSeq len =>
    exact ⟨copyPrefix_ranged tidy.ranged srcSeq dstSeq len,
      tidy.distinct.copyPrefix srcSeq dstSeq len, tidy.hollow.copyPrefix srcSeq dstSeq len⟩
  | remove seq beginIndex endIndex =>
    exact ⟨(remove_keeps tidy.ranged seq beginIndex endIndex).1,
      tidy.distinct.remove seq beginIndex endIndex, tidy.hollow.remove seq beginIndex endIndex⟩

theorem Causal.Tidy.after {c : Causal κ} (tidy : c.Tidy) (ops : List CacheOp) :
    (c.after ops).Tidy :=
  List.foldlRecOn (motive := Causal.Tidy) _ _ tidy fun _ h op _ => h.apply op

/-- After any operations the ranges are right, and a batch that is then stored is written over free
cells only. -/
theorem Causal.after_represented {c c₀ : Causal κ} {config : CacheConfig}
    {maxSequences capacity maxBatch : Nat}
    (h : c.init config maxSequences capacity maxBatch = some c₀) (ops : List CacheOp) :
    (c₀.after ops).Represented ∧ ∀ batch maxGraphNodes c',
      (c₀.after ops).startForward batch false maxGraphNodes = (c', none) →
        ((c₀.after ops).prepare batch maxGraphNodes).1.WritesFree c' batch.positions.length := by
  have tidy := (init_tidy h).after ops
  exact ⟨tidy.represented, fun _ _ _ hstart => startForward_writes tidy.ranged hstart⟩

/-- Three tokens, two of them copied, one of these removed again. -/
theorem slidingTwo_represented :
    (slidingTwo.after [.startForward ⟨[0, 1, 2], [0, 0, 0]⟩ false 100,
      .copyPrefix 0 1 2, .remove 0 1 2]).Represented := by
  have init : (newSWACache 2 none).init ⟨4, 8⟩ 1 8 4 = some slidingTwo := rfl
  exact (Causal.after_represented init _).1

end Ecco9.KvCache
