import Ecco9.KvCache.Resume
import Ecco9.KvCache.Shift

/-! What `Remove` and `CopyPrefix` do to the other sequences, also where `Remove` fails and is tried
again, and what they do to the sequence itself. -/

universe u

namespace Ecco9.KvCache

open Ecco9.Library

/-! ### Runs -/

/-- The steps of a cache whose positions are indices of inputs, which stay below the mark for the
end of a sequence. -/
inductive IndexStep : Causal κ → Causal κ → Prop
  | startForward {c : Causal κ} (batch reserve maxGraphNodes) : batch.Valid →
      (∀ p ∈ batch.positions, p < maxInt32) →
      IndexStep c (c.startForward batch reserve maxGraphNodes).1
  | copyPrefix {c : Causal κ} (srcSeq dstSeq len) : srcSeq ≠ dstSeq →
      IndexStep c (c.copyPrefix srcSeq dstSeq len)
  | remove {c : Causal κ} (seq beginIndex endIndex) : 0 ≤ beginIndex → beginIndex ≤ endIndex →
      IndexStep c (c.remove seq beginIndex endIndex).1
  | defrag {c : Causal κ} (maxGraphNodes) : IndexStep c (c.defrag maxGraphNodes)
  | setCausal {c : Causal κ} (ctx except) : IndexStep c (c.setCausal ctx except)
  | setLayer {c : Causal κ} (layer) : IndexStep c (c.setLayer layer)
  | put {c : Causal κ} (zero key value) : IndexStep c (c.put zero key value)

theorem IndexStep.cacheStep {c c' : Causal κ} (step : IndexStep c c') : CacheStep c c' := by
  cases step with
  | startForward batch reserve maxGraphNodes valid _ => exact .startForward _ _ _ valid
  | copyPrefix srcSeq dstSeq len hne => exact .copyPrefix _ _ _ hne
  | remove seq beginIndex endIndex => exact .remove _ _ _
  | defrag maxGraphNodes => exact .defrag _
  | setCausal ctx except => exact .setCausal _ _
  | setLayer layer => exact .setLayer _
  | put zero key value => exact .put _ _ _

/-- The positions of every sequence are those of inputs. -/
def Causal.InRange (c : Causal κ) : Prop := ∀ seq, c.Positions seq

theorem Causal.InRange.draws {c c' : Causal κ} (h : c.InRange) (draws : Draws c.cells c'.cells) :
    c'.InRange := by
  obtain ⟨f, -, hf⟩ := draws
  intro seq j hseq
  obtain ⟨hold, hpos⟩ := hf j seq hseq
  rw [cell, hpos]
  exact h seq (f j) hold

theorem Causal.InRange.startForward {c : Causal κ} (h : c.InRange) (ranged : c.Ranged)
    {batch : Batch} (valid : batch.Valid) (bound : ∀ p ∈ batch.positions, p < maxInt32)
    (reserve : Bool) (maxGraphNodes : Int) :
    (c.startForward batch reserve maxGraphNodes).1.InRange := by
  cases reserve with
  | true => exact h
  | false =>
    have positions (seq p : Int) (hp : c.HasPos seq p) : 0 ≤ p ∧ p < maxInt32 := by
      obtain ⟨j, hseq, rfl⟩ := hasPos_iff.mp hp
      exact h seq j hseq
    intro seq j hseq
    have hp := hasPos_iff.mpr ⟨j, hseq, rfl⟩
    by_cases hfull : (c.startForward batch false maxGraphNodes).2 = none
    · rcases (hasPos_startForward ranged valid.sequences hfull _ _).mp hp with
        ⟨hp, -⟩ | ⟨k, hk, -, hp⟩
      · exact positions _ _ hp
      · have hmem : batch.positions.getD k 0 ∈ batch.positions := by simp [hk]
        rw [← hp]
        exact ⟨(valid.positions _ hmem).1, bound _ hmem⟩
    · exact positions _ _ ((hasPos_startForward_full ranged hfull _ _).mp hp).1

theorem Causal.InRange.remove {c : Causal κ} (h : c.InRange) {seq beginIndex endIndex : Int}
    (h0 : 0 ≤ beginIndex) (hle : beginIndex ≤ endIndex) :
    (c.remove seq beginIndex endIndex).1.InRange := by
  intro s j hs
  by_cases hseq : s = seq
  · subst hseq
    exact (h s).remove h0 hle j hs
  · rw [cell, remove_cells] at hs ⊢
    rcases removeCells_cell seq beginIndex endIndex (removeOffset beginIndex endIndex) c.cells 0
      newRange j with ⟨heq, own⟩ | ⟨-, heq⟩
    · rw [heq] at hs ⊢
      have hold := (removedCell_sublist ..).subset hs
      have hpos : (removedCell seq beginIndex endIndex (removeOffset beginIndex endIndex)
          (c.cells.getD j {})).pos = (c.cells.getD j {}).pos := by
        unfold removedCell
        split
        · rename_i hmem
          split
          · rfl
          · split
            · rename_i hge
              exact absurd (own hmem (hle.trans hge) hge s hold) hseq
            · rfl
        · rfl
      rw [hpos]
      exact h s j hold
    · rw [heq] at hs ⊢
      exact h s j hs

theorem IndexStep.inRange {c c' : Causal κ} (step : IndexStep c c') (ranged : c.Ranged)
    (h : c.InRange) : c'.InRange := by
  cases step with
  | startForward batch reserve maxGraphNodes valid bound =>
    exact h.startForward ranged valid bound reserve maxGraphNodes
  | copyPrefix srcSeq dstSeq len _ =>
    intro seq j hseq
    rw [Causal.copyPrefix_cell] at hseq ⊢
    rw [copyCell_pos]
    by_cases hdst : seq = dstSeq
    · subst hdst
      exact h srcSeq j (mem_copyCell_dst hseq)
    · rcases copyCell_mem hseq with hseq | ⟨hold, -⟩
      · exact absurd hseq hdst
      · exact h seq j hold
  | remove seq beginIndex endIndex h0 hle => exact h.remove h0 hle
  | defrag maxGraphNodes =>
    refine h.draws (Draws.trans (.applyPairs (fills_fillings _) (Nat.le_refl _)) (.of_cell ?_))
    intro j s hs
    have hcell := c.defrag_cell maxGraphNodes j
    rw [Causal.cell] at hcell
    rw [hcell] at hs ⊢
    exact ⟨(c.trimAll_sublist _).subset hs, c.trimAll_pos _⟩
  | setCausal ctx except =>
    unfold Causal.setCausal
    split
    · exact h
    · dsimp only
      split
      · rw [Causal.buildMask_same]
        exact h
      · exact h
  | setLayer layer => exact h
  | put zero key value => exact h

/-- The largest batch is set by `Init`. -/
theorem IndexStep.maxBatch {c c' : Causal κ} (step : IndexStep c c') (ranged : c.Ranged) :
    c'.maxBatch = c.maxBatch := by
  have mask (c : Causal κ) : c.buildMask.maxBatch = c.maxBatch := by rw [Causal.buildMask_same]
  have window {c : Causal κ} (covered : c.Covered) :
      c.updateSlidingWindow.maxBatch = c.maxBatch := by
    rw [(Causal.updateSlidingWindow_setup covered).1]
  have moved (c : Causal κ) (n : Int) : (c.defrag n).maxBatch = c.maxBatch := by
    rw [Causal.defrag_eq, window (Causal.covered_moved c n)]
    rfl
  cases step with
  | startForward batch reserve maxGraphNodes _ _ =>
    have hwindow : (c.withBatch batch).updateSlidingWindow.maxBatch = c.maxBatch :=
      window (ranged.congr rfl rfl : (c.withBatch batch).Ranged).covered
    have hprepare : (c.prepare batch maxGraphNodes).1.maxBatch = c.maxBatch := by
      rw [Causal.prepare_eq]
      dsimp only
      split
      · exact hwindow
      · split <;> exact (moved _ _).trans hwindow
    have hprepared := (Causal.prepare_spec ranged batch maxGraphNodes).2.2
    unfold Causal.startForward
    split
    · exact mask _
    · split
      · rename_i heq
        rw [heq] at hprepare
        exact hprepare
      · rename_i heq
        rw [heq] at hprepare hprepared
        rw [mask, (hprepared rfl).stored.setup]
        exact hprepare
  | copyPrefix srcSeq dstSeq len _ => rfl
  | remove seq beginIndex endIndex _ _ =>
    rw [Causal.remove_eq]
    dsimp only
    split
    · rfl
    · split
      · rfl
      · split
        · rw [Causal.shift_setup]
        · rfl
  | defrag maxGraphNodes => exact moved c maxGraphNodes
  | setCausal ctx except =>
    unfold Causal.setCausal
    split
    · rfl
    · dsimp only
      split
      · exact mask _
      · rfl
  | setLayer layer => rfl
  | put zero key value => rfl

/-- The caches that runs reach, with batches of at least one token. -/
inductive Causal.Run : Causal κ → Prop
  | run {c c₀ c' : Causal κ} (config maxSequences capacity maxBatch) : Variant c → 0 < maxBatch →
      c.init config maxSequences capacity maxBatch = some c₀ →
      Relation.ReflTransGen IndexStep c₀ c' → Run c'

/-- What every run keeps. -/
structure Causal.Sound (c : Causal κ) : Prop where
  ranged : c.Ranged
  inRange : c.InRange
  maxBatch : 0 < c.maxBatch

theorem Causal.Run.sound {c : Causal κ} (reached : c.Run) : c.Sound := by
  cases reached with
  | run config maxSequences capacity maxBatch variant hbatch hinit run =>
    refine run_invariant (fun c c' (sound : c.Sound) step => ?_) run ?_
    · refine ⟨(step.cacheStep.keeps sound.ranged).1, step.inRange sound.ranged sound.inRange, ?_⟩
      rw [step.maxBatch sound.ranged]
      exact sound.maxBatch
    · have ranged := (variant.init hinit).2
      simp only [init, Option.ite_none_left_eq_some] at hinit
      obtain rfl := Option.some.inj hinit.2
      refine ⟨ranged, fun seq j hseq => ?_, hbatch⟩
      have free (n : Nat) : (List.replicate n ({} : CacheCell)).getD j {} = {} := by
        rcases getD_mem_or (List.replicate n {}) j with h | h
        · exact List.eq_of_mem_replicate h
        · exact h
      rw [cell, free] at hseq
      cases hseq

/-! ### The range that `Remove` leaves -/

/-- `Remove` does not take the cell from its sequence. -/
def CacheCell.keeps (cell : CacheCell) (seq beginIndex endIndex : Int) : Bool :=
  cell.sequences.contains seq && !decide (cell.pos ≥ beginIndex ∧ cell.pos < endIndex)

/-- The range of the cells that `Remove` leaves to the sequence. -/
def keptRange (seq beginIndex endIndex : Int) (cells : List CacheCell) (i : Nat) (r : CellRange) :
    CellRange :=
  (((cells.zipIdx i).filter fun p => p.1.keeps seq beginIndex endIndex).map (·.2)).foldl
    CellRange.extend r

theorem removeCells_range {seq beginIndex endIndex offset : Int} {cells : List CacheCell} {i : Nat}
    {r : CellRange} (h : (removeCells seq beginIndex endIndex offset cells i r).2.2 = false) :
    (removeCells seq beginIndex endIndex offset cells i r).2.1 =
      keptRange seq beginIndex endIndex cells i r := by
  induction cells generalizing i r with
  | nil => rfl
  | cons cell cells ih =>
    have kept (h : cell.keeps seq beginIndex endIndex = true) :
        keptRange seq beginIndex endIndex (cell :: cells) i r =
          keptRange seq beginIndex endIndex cells (i + 1) (r.extend i) := by
      simp [keptRange, List.zipIdx_cons, h]
    have taken (h : cell.keeps seq beginIndex endIndex = false) :
        keptRange seq beginIndex endIndex (cell :: cells) i r =
          keptRange seq beginIndex endIndex cells (i + 1) r := by
      simp [keptRange, List.zipIdx_cons, h]
    rw [removeCells] at h ⊢
    split
    · rename_i hmem
      rw [if_pos hmem] at h
      split
      · rename_i hin
        rw [if_pos hin] at h
        rw [taken (by simp [CacheCell.keeps, hin])]
        exact ih h
      · rename_i hout
        rw [if_neg hout] at h
        rw [kept (by simp only [CacheCell.keeps, hmem, hout, decide_false]; rfl)]
        split
        · rename_i hge
          rw [if_pos hge] at h
          split
          · rename_i hshared
            rw [if_pos hshared] at h
            cases h
          · rename_i hown
            rw [if_neg hown] at h
            exact ih h
        · rename_i hlt
          rw [if_neg hlt] at h
          exact ih h
    · rename_i hmem
      rw [if_neg hmem] at h
      rw [taken (by simp only [CacheCell.keeps, Bool.not_eq_true _ ▸ hmem]; rfl)]
      exact ih h

theorem keptRange_has {seq beginIndex endIndex : Int} {c : Causal κ} {j : Nat}
    (h : (c.cell j).keeps seq beginIndex endIndex = true) :
    (keptRange seq beginIndex endIndex c.cells 0 newRange).Has j := by
  have hmem : seq ∈ (c.cell j).sequences :=
    List.contains_iff_mem.mp (Bool.and_eq_true_iff.mp h).1
  have hj := lt_of_mem_cell hmem
  refine CellRange.has_foldl (List.mem_map.mpr ⟨(c.cell j, j), List.mem_filter.mpr ⟨?_, h⟩, rfl⟩) _
  rw [List.mem_zipIdx_iff_getElem?, Causal.cell, List.getD_eq_getElem?_getD, List.getElem?_eq_getElem hj]
  rfl

/-- Only a cell that would have to be moved and is shared stops the loop. -/
theorem removeCells_own {seq beginIndex endIndex offset : Int} {cells : List CacheCell}
    (own : ∀ cell ∈ cells, cell.shifts seq endIndex = true → ∀ s ∈ cell.sequences, s = seq) (i : Nat)
    (r : CellRange) : (removeCells seq beginIndex endIndex offset cells i r).2.2 = false := by
  induction cells generalizing i r with
  | nil => rfl
  | cons cell cells ih =>
    have rest := ih fun cell' h => own cell' (List.mem_cons_of_mem _ h)
    rw [removeCells]
    split
    · rename_i hmem
      split
      · exact rest _ _
      · split
        · rename_i hge
          have hany : cell.sequences.any (· ≠ seq) = false := by
            rw [List.any_eq_false]
            intro s hs
            have hshifts : cell.shifts seq endIndex = true :=
              Bool.and_eq_true_iff.mpr ⟨hmem, decide_eq_true hge⟩
            simpa using own cell List.mem_cons_self hshifts s hs
          rw [if_neg (by simp only [hany, Bool.false_eq_true, not_false_eq_true])]
          exact rest _ _
        · exact rest _ _
    · exact rest _ _

/-! ### Which rows `Remove` rotates -/

/-- The first cell that `Remove` leaves to the sequence, from which `shift` counts its batches. -/
def Causal.firstKept (c : Causal κ) (seq beginIndex endIndex : Int) : Nat :=
  (keptRange seq beginIndex endIndex c.cells 0 newRange).min

theorem CacheCell.shifts_iff {cell : CacheCell} {seq beginIndex : Int} :
    cell.shifts seq beginIndex = true ↔ seq ∈ cell.sequences ∧ beginIndex ≤ cell.pos := by
  rw [CacheCell.shifts, Bool.and_eq_true, List.contains_iff_mem, decide_eq_true_iff]

theorem CacheCell.keeps_of_shifts {cell : CacheCell} {seq beginIndex endIndex : Int}
    (h : cell.shifts seq endIndex = true) : cell.keeps seq beginIndex endIndex = true := by
  obtain ⟨hmem, hge⟩ := shifts_iff.mp h
  rw [keeps, Bool.and_eq_true, List.contains_iff_mem, Bool.not_eq_true', decide_eq_false_iff_not]
  exact ⟨hmem, fun hin => by omega⟩

theorem removeOffset_eq {beginIndex endIndex : Int} (h0 : 0 ≤ beginIndex)
    (hle : beginIndex ≤ endIndex) (hlt : endIndex < maxInt32) :
    removeOffset beginIndex endIndex = beginIndex - endIndex := by
  unfold maxInt32 at hlt
  rw [removeOffset, if_pos (by unfold maxInt32; omega)]
  exact sub32_of_range (by omega) (by omega)

section Remove

variable {c : Causal κ} {seq beginIndex endIndex : Int}

/-- Cells that are moved are not shared, where `Remove` gets to move them all. -/
theorem Causal.own_of_remove (hle : beginIndex ≤ endIndex)
    (h : (removeCells seq beginIndex endIndex (removeOffset beginIndex endIndex) c.cells 0
      newRange).2.2 = false) (j : Nat) (hj : (c.cell j).shifts seq endIndex = true) :
    ∀ s ∈ (c.cell j).sequences, s = seq := by
  obtain ⟨hmem, hge⟩ := CacheCell.shifts_iff.mp hj
  rcases removeCells_cell seq beginIndex endIndex (removeOffset beginIndex endIndex) c.cells 0
    newRange j with ⟨-, own⟩ | ⟨hshared, -⟩
  · exact own hmem (hle.trans hge) hge
  · rw [h] at hshared
    cases hshared

/-- After the loop of `Remove` the cells to be shifted are those it has moved. -/
theorem Causal.shifts_removed (inRange : c.InRange) (h0 : 0 ≤ beginIndex)
    (hle : beginIndex ≤ endIndex) (hlt : endIndex < maxInt32)
    (h : (removeCells seq beginIndex endIndex (removeOffset beginIndex endIndex) c.cells 0
      newRange).2.2 = false) (j : Nat) :
    ((removeCells seq beginIndex endIndex (removeOffset beginIndex endIndex) c.cells 0
      newRange).1.getD j {}).shifts seq beginIndex = (c.cell j).shifts seq endIndex := by
  rcases removeCells_cell seq beginIndex endIndex (removeOffset beginIndex endIndex) c.cells 0
    newRange j with ⟨heq, -⟩ | ⟨hshared, -⟩
  · rw [heq, Bool.eq_iff_iff, CacheCell.shifts_iff, CacheCell.shifts_iff]
    have hcell : c.cells.getD j {} = c.cell j := rfl
    rw [hcell, removedCell, removeOffset_eq h0 hle hlt]
    split
    · rename_i hmem
      obtain ⟨hpos, hmax⟩ := inRange seq j hmem
      split
      · rename_i hin
        rw [CacheCell.mem_delete]
        constructor
        · exact fun h => absurd rfl h.1.2
        · exact fun h => absurd h.2 (by omega)
      · split
        · rename_i hge
          unfold maxInt32 at hmax hlt
          dsimp only
          rw [add32_of_range (by omega) (by omega)]
          exact and_congr_right fun _ => by omega
        · exact and_congr_right fun _ => by omega
    · rename_i hmem
      exact ⟨fun h => absurd h.1 hmem, fun h => absurd h.1 hmem⟩
  · rw [h] at hshared
    cases hshared

theorem Causal.shiftBatches_error (c : Causal κ) (fn : ShiftFn κ) (seq beginIndex offset : Int)
    (r : CellRange) (ks : List Nat) :
    (c.shiftBatches fn seq beginIndex offset r ks).2 = none ∨
      (c.shiftBatches fn seq beginIndex offset r ks).2 = some .shiftFailed := by
  induction ks generalizing c with
  | nil => exact .inl rfl
  | cons k ks ih =>
    rw [shiftBatches]
    split
    · exact .inr rfl
    · exact ih _

/-- `shift` on the cells `c₁` that the loop of `Remove` makes of those of `c`. -/
theorem Causal.shift_removed {c₁ : Causal κ} (hbatch : 0 < c.maxBatch)
    (setup : c₁ = { c with cells := c₁.cells, cellRanges := c₁.cellRanges })
    (shifts : ∀ i, (c₁.cell i).shifts seq beginIndex = (c.cell i).shifts seq endIndex)
    {r : CellRange} (hr : c₁.cellRanges seq = some r)
    (has : ∀ i, (c.cell i).shifts seq endIndex = true → r.Has i) {offset : Int}
    (hne : (c₁.shift seq beginIndex offset).2 ≠ some .shiftFailed) (l j : Nat) :
    (∃ fn, c.shiftFn = some fn ∧ (c₁.shift seq beginIndex offset).2 = none ∧
      c.Turns seq endIndex r.min j ∧ (c₁.shift seq beginIndex offset).1.keyRow l j =
        (c.keyRow l j).map (c.turned fn seq endIndex offset l j)) ∨
    (c₁.shift seq beginIndex offset).1.keyRow l j = c.keyRow l j ∧
      ((c₁.shift seq beginIndex offset).2 = none → ¬c.Turns seq endIndex r.min j) := by
  have hfn : c₁.shiftFn = c.shiftFn := by rw [setup]
  have hmaxBatch : c₁.maxBatch = c.maxBatch := by rw [setup]
  have hrow : c₁.keyRow l j = c.keyRow l j := by
    rw [setup]
    rfl
  have turns : c₁.Turns seq beginIndex r.min j ↔ c.Turns seq endIndex r.min j := by
    simp only [Turns, shifts, hmaxBatch]
  cases hfn' : c.shiftFn with
  | none =>
    have hshift : c₁.shift seq beginIndex offset = (c₁, some .notSupported) := by
      rw [shift, hfn, hfn']
    rw [hshift]
    exact .inr ⟨hrow, nofun⟩
  | some fn =>
    have hok : (c₁.shift seq beginIndex offset).2 = none := by
      have herror : (c₁.shift seq beginIndex offset).2 = none ∨
          (c₁.shift seq beginIndex offset).2 = some .shiftFailed := by
        rw [shift, hfn, hfn']
        exact shiftBatches_error ..
      exact herror.resolve_right hne
    obtain ⟨hin, hout⟩ := shift_keyRow (hmaxBatch ▸ hbatch) (hfn.trans hfn') hr
      (fun i hi => has i (shifts i ▸ hi)) hok l j
    rw [turns, hrow] at hin hout
    by_cases hturns : c.Turns seq endIndex r.min j
    · refine .inl ⟨fn, rfl, hok, hturns, (hin hturns).trans ?_⟩
      unfold turned
      rw [shifts]
    · exact .inr ⟨hout hturns, fun _ => hturns⟩

/-- The rows after `Remove`: where it gets to shift, those of the cells that it moves and of the
cells between them in a batch have gone through `shiftFn` once, the others are as they were. -/
theorem Causal.remove_keyRow (sound : c.Sound) (h0 : 0 ≤ beginIndex) (hle : beginIndex ≤ endIndex)
    (hmax : endIndex ≤ maxInt32)
    (hne : (c.remove seq beginIndex endIndex).2 ≠ some .shiftFailed) (l j : Nat) :
    (∃ fn, c.shiftFn = some fn ∧ (c.remove seq beginIndex endIndex).2 = none ∧
      c.Turns seq endIndex (c.firstKept seq beginIndex endIndex) j ∧
      (c.remove seq beginIndex endIndex).1.keyRow l j =
        (c.keyRow l j).map (c.turned fn seq endIndex (beginIndex - endIndex) l j)) ∨
    (c.remove seq beginIndex endIndex).1.keyRow l j = c.keyRow l j ∧
      ((c.remove seq beginIndex endIndex).2 = none →
        ¬c.Turns seq endIndex (c.firstKept seq beginIndex endIndex) j) := by
  rw [remove_eq] at hne ⊢
  dsimp only at hne ⊢
  split at hne
  · rename_i hshared
    simp only [hshared, if_true]
    exact .inr ⟨rfl, nofun⟩
  · rename_i hshared
    rw [Bool.not_eq_true] at hshared
    simp only [hshared, Bool.false_eq_true, if_false]
    have hrange := removeCells_range hshared
    split at hne
    · rename_i hempty
      simp only [hempty, if_true]
      refine .inr ⟨rfl, fun _ => ?_⟩
      rintro ⟨i, -, -, -, hi, -⟩
      have has : (keptRange seq beginIndex endIndex c.cells 0 newRange).Has i :=
        keptRange_has (CacheCell.keeps_of_shifts hi)
      rw [← hrange, hempty] at has
      exact CellRange.not_has_newRange i has
    · rename_i hkept
      simp only [hkept, if_false]
      split at hne
      · rename_i hend
        rw [if_pos hend]
        have hlt : endIndex < maxInt32 := by omega
        have hbegin : add32 endIndex (removeOffset beginIndex endIndex) = beginIndex := by
          unfold maxInt32 at hlt
          rw [removeOffset_eq h0 hle hlt, add32_of_range (by omega) (by omega)]
          omega
        rw [hbegin] at hne ⊢
        have has (i : Nat) (hi : (c.cell i).shifts seq endIndex = true) :
            (removeCells seq beginIndex endIndex (removeOffset beginIndex endIndex) c.cells 0
              newRange).2.1.Has i := by
          rw [hrange]
          exact keptRange_has (CacheCell.keeps_of_shifts hi)
        rw [firstKept, ← hrange, ← removeOffset_eq h0 hle hlt]
        refine shift_removed sound.maxBatch rfl ?_ (Function.update_self ..) has hne l j
        exact shifts_removed sound.inRange h0 hle hlt hshared
      · rename_i hend
        rw [if_neg hend]
        refine .inr ⟨rfl, fun _ => ?_⟩
        rintro ⟨i, -, -, -, hi, -⟩
        obtain ⟨hmem, hge⟩ := CacheCell.shifts_iff.mp hi
        have := (sound.inRange seq i hmem).2
        rw [ne_eq, Decidable.not_not] at hend
        omega

end Remove

/-! ### Isolation -/

/-- The sequence holds the same cells, at the same positions and with the same key rows. -/
structure Causal.HoldsSame (c c' : Causal κ) (s : Int) : Prop where
  mem : ∀ j, s ∈ (c'.cell j).sequences ↔ s ∈ (c.cell j).sequences
  pos : ∀ j, s ∈ (c.cell j).sequences → (c'.cell j).pos = (c.cell j).pos
  key : ∀ j, s ∈ (c.cell j).sequences → ∀ l, c'.keyRow l j = c.keyRow l j

theorem Causal.HoldsSame.trans {c c' c'' : Causal κ} {s : Int} (h : c.HoldsSame c' s)
    (h' : c'.HoldsSame c'' s) : c.HoldsSame c'' s where
  mem j := (h'.mem j).trans (h.mem j)
  pos j hs := (h'.pos j ((h.mem j).mpr hs)).trans (h.pos j hs)
  key j hs l := (h'.key j ((h.mem j).mpr hs) l).trans (h.key j hs l)

/-- The sequence has lost the positions from `beginIndex` on and before `endIndex`; those behind
have moved up, and their keys have been rotated once. -/
structure Causal.Cut (c c' : Causal κ) (seq beginIndex endIndex : Int) : Prop where
  mem : ∀ j, seq ∈ (c'.cell j).sequences ↔ seq ∈ (c.cell j).sequences ∧
    ((c.cell j).pos < beginIndex ∨ endIndex ≤ (c.cell j).pos)
  below : ∀ j, seq ∈ (c.cell j).sequences → (c.cell j).pos < beginIndex →
    (c'.cell j).pos = (c.cell j).pos ∧ ∀ l, c'.keyRow l j = c.keyRow l j
  above : ∀ j, seq ∈ (c.cell j).sequences → endIndex ≤ (c.cell j).pos →
    (c'.cell j).pos = (c.cell j).pos + (beginIndex - endIndex) ∧
      ∃ fn, c.shiftFn = some fn ∧ ∀ l, c'.keyRow l j =
        (c.keyRow l j).map fun row => fn.rotate l row (beginIndex - endIndex)

/-- `dstSeq` holds what `srcSeq` holds at positions before `len`. -/
structure Causal.Prefixed (c c' : Causal κ) (srcSeq dstSeq len : Int) : Prop where
  mem : ∀ j, dstSeq ∈ (c'.cell j).sequences ↔
    srcSeq ∈ (c.cell j).sequences ∧ (c.cell j).pos < len
  pos : ∀ j, (c'.cell j).pos = (c.cell j).pos
  key : ∀ l j, c'.keyRow l j = c.keyRow l j

/-- `Remove` and, from the same state, `CopyPrefix` change one sequence only, as they should. -/
structure Causal.Isolates (c : Causal κ) (seq beginIndex endIndex : Int) : Prop where
  others : ∀ s, s ≠ seq → c.HoldsSame (c.remove seq beginIndex endIndex).1 s
  retry : ((c.remove seq beginIndex endIndex).1.remove seq 0 maxInt32).2 = none
  retried : ∀ s, s ≠ seq →
    c.HoldsSame ((c.remove seq beginIndex endIndex).1.remove seq 0 maxInt32).1 s
  cut : (c.remove seq beginIndex endIndex).2 = none →
    c.Cut (c.remove seq beginIndex endIndex).1 seq beginIndex endIndex
  copied : ∀ srcSeq dstSeq len, srcSeq ≠ dstSeq →
    (∀ s, s ≠ dstSeq → c.HoldsSame (c.copyPrefix srcSeq dstSeq len) s) ∧
      c.Prefixed (c.copyPrefix srcSeq dstSeq len) srcSeq dstSeq len

/-- Where `Remove` gets to shift, `shiftFn` leaves the rows that others or the rest of the sequence
hold between the cells of a batch as they are at the offset `0`. -/
def Causal.KeepsBetween (c : Causal κ) (seq beginIndex endIndex : Int) : Prop :=
  ∀ fn, c.shiftFn = some fn →
    (∀ j, (c.cell j).shifts seq endIndex = true → ∀ s ∈ (c.cell j).sequences, s = seq) →
    ∀ j, c.Turns seq endIndex (c.firstKept seq beginIndex endIndex) j →
      (c.cell j).shifts seq endIndex = false →
      (∃ s ∈ (c.cell j).sequences, s ≠ seq ∨ (c.cell j).pos < beginIndex) →
      ∀ l row, c.keyRow l j = some row → fn.rotate l row 0 = row

section Isolation

variable {c : Causal κ} {seq beginIndex endIndex : Int}

theorem removedCell_mem_other {s : Int} (hs : s ≠ seq) (offset : Int) (cell : CacheCell) :
    s ∈ (removedCell seq beginIndex endIndex offset cell).sequences ↔ s ∈ cell.sequences := by
  unfold removedCell
  split
  · split
    · simp [CacheCell.mem_delete, hs]
    · split <;> rfl
  · rfl

/-- The cells of the other sequences, whatever comes of `Remove`. -/
theorem Causal.remove_cell_other (hle : beginIndex ≤ endIndex) {s : Int} (hs : s ≠ seq) (j : Nat) :
    (s ∈ ((c.remove seq beginIndex endIndex).1.cell j).sequences ↔ s ∈ (c.cell j).sequences) ∧
      (s ∈ (c.cell j).sequences →
        ((c.remove seq beginIndex endIndex).1.cell j).pos = (c.cell j).pos) := by
  have hcell : c.cells.getD j {} = c.cell j := rfl
  rw [cell, remove_cells]
  rcases removeCells_cell seq beginIndex endIndex (removeOffset beginIndex endIndex) c.cells 0
    newRange j with ⟨heq, own⟩ | ⟨-, heq⟩
  · rw [heq, hcell]
    rw [hcell] at own
    refine ⟨removedCell_mem_other hs _ _, fun hmem => ?_⟩
    unfold removedCell
    split
    · rename_i hseq
      split
      · rfl
      · split
        · rename_i hge
          exact absurd (own hseq (hle.trans hge) hge s hmem) hs
        · rfl
    · rfl
  · rw [heq, hcell]
    exact ⟨Iff.rfl, fun _ => rfl⟩

/-- Up to the end, no row is rotated. -/
theorem Causal.remove_end_keyRow (l j : Nat) :
    (c.remove seq beginIndex maxInt32).1.keyRow l j = c.keyRow l j := by
  rw [remove_eq]
  dsimp only
  split
  · rfl
  · split
    · rfl
    · rw [if_neg (by simp)]
      rfl

/-- The cells of the sequence after a `Remove` that succeeds. -/
theorem Causal.remove_cell_own (h : (c.remove seq beginIndex endIndex).2 = none) (j : Nat) :
    (c.remove seq beginIndex endIndex).1.cell j =
      removedCell seq beginIndex endIndex (removeOffset beginIndex endIndex) (c.cell j) := by
  rw [cell, remove_cells]
  rcases removeCells_cell seq beginIndex endIndex (removeOffset beginIndex endIndex) c.cells 0
    newRange j with ⟨heq, -⟩ | ⟨hshared, -⟩
  · exact heq
  · rw [remove_shared h] at hshared
    cases hshared

theorem Causal.isolates_copy (srcSeq dstSeq len : Int) (hne : srcSeq ≠ dstSeq) :
    (∀ s, s ≠ dstSeq → c.HoldsSame (c.copyPrefix srcSeq dstSeq len) s) ∧
      c.Prefixed (c.copyPrefix srcSeq dstSeq len) srcSeq dstSeq len := by
  have pos (j : Nat) : ((c.copyPrefix srcSeq dstSeq len).cell j).pos = (c.cell j).pos := by
    rw [copyPrefix_cell, copyCell_pos]
  refine ⟨fun s hs => ⟨fun j => ?_, fun j _ => pos j, fun _ _ _ => rfl⟩,
    ⟨fun j => ?_, pos, fun _ _ => rfl⟩⟩
  · rw [copyPrefix_cell]
    unfold copyCell
    dsimp only
    split <;> split <;> simp [CacheCell.mem_delete, hs]
  · rw [copyPrefix_cell]
    unfold copyCell
    dsimp only
    split
    · split <;> simp_all [CacheCell.mem_delete]
    · split <;> simp_all

theorem Causal.cut_mem (h : (c.remove seq beginIndex endIndex).2 = none) (j : Nat) :
    seq ∈ ((c.remove seq beginIndex endIndex).1.cell j).sequences ↔ seq ∈ (c.cell j).sequences ∧
      ((c.cell j).pos < beginIndex ∨ endIndex ≤ (c.cell j).pos) := by
  rw [remove_cell_own h]
  unfold removedCell
  split
  · rename_i hmem
    split
    · simp [CacheCell.mem_delete]
      omega
    · split
      · exact ⟨fun _ => ⟨hmem, by omega⟩, fun _ => hmem⟩
      · exact ⟨fun _ => ⟨hmem, by omega⟩, fun _ => hmem⟩
  · rename_i hmem
    exact ⟨fun h => absurd h hmem, fun h => absurd h.1 hmem⟩

theorem Causal.cut_below_pos (hle : beginIndex ≤ endIndex)
    (h : (c.remove seq beginIndex endIndex).2 = none) {j : Nat}
    (hpos : (c.cell j).pos < beginIndex) :
    ((c.remove seq beginIndex endIndex).1.cell j).pos = (c.cell j).pos := by
  rw [remove_cell_own h]
  unfold removedCell
  split
  · rw [if_neg (by omega), if_neg (by omega)]
  · rfl

theorem Causal.cut_above_pos (inRange : c.InRange) (h0 : 0 ≤ beginIndex)
    (hle : beginIndex ≤ endIndex) (h : (c.remove seq beginIndex endIndex).2 = none) {j : Nat}
    (hmem : seq ∈ (c.cell j).sequences) (hpos : endIndex ≤ (c.cell j).pos) :
    ((c.remove seq beginIndex endIndex).1.cell j).pos =
      (c.cell j).pos + (beginIndex - endIndex) := by
  have hmax := (inRange seq j hmem).2
  rw [remove_cell_own h, removedCell, if_pos hmem, if_neg (by omega), if_pos hpos,
    removeOffset_eq h0 hle (by omega)]
  unfold maxInt32 at hmax
  exact add32_of_range (by omega) (by omega)

/-- The cell of a moved position is handed to `shiftFn`. -/
theorem Causal.turns_of_shifts (first : Nat) {j : Nat} (h : (c.cell j).shifts seq endIndex = true) :
    c.Turns seq endIndex first j :=
  ⟨j, j, Nat.le_refl j, Nat.le_refl j, h, h, rfl⟩

/-- A row that is held and not to be rotated stays as it is. -/
theorem Causal.KeepsBetween.keyRow (keeps : c.KeepsBetween seq beginIndex endIndex)
    (sound : c.Sound) (h0 : 0 ≤ beginIndex) (hle : beginIndex ≤ endIndex)
    (hmax : endIndex ≤ maxInt32)
    (hne : (c.remove seq beginIndex endIndex).2 ≠ some .shiftFailed) {j : Nat} {s : Int}
    (hs : s ∈ (c.cell j).sequences) (hheld : s ≠ seq ∨ (c.cell j).pos < beginIndex) (l : Nat) :
    (c.remove seq beginIndex endIndex).1.keyRow l j = c.keyRow l j := by
  rcases remove_keyRow sound h0 hle hmax hne l j with ⟨fn, hfn, hok, hturns, hrow⟩ | ⟨hrow, -⟩
  · have own := own_of_remove hle (remove_shared hok)
    have hstill : (c.cell j).shifts seq endIndex = false := by
      rw [← Bool.not_eq_true]
      intro hshifts
      rcases hheld with hother | hlt
      · exact hother (own j hshifts s hs)
      · have := (CacheCell.shifts_iff.mp hshifts).2
        omega
    rw [hrow]
    cases hkey : c.keyRow l j with
    | none => rfl
    | some row =>
      rw [Option.map_some, turned, hstill, if_neg Bool.false_ne_true,
        keeps fn hfn own j hturns hstill ⟨s, hs, hheld⟩ l row hkey]
  · exact hrow

/-- Where only `shiftFn` could still fail, nothing does. -/
theorem Causal.remove_ok {fn : ShiftFn κ} (hfn : c.shiftFn = some fn)
    (own : ∀ j, (c.cell j).shifts seq endIndex = true → ∀ s ∈ (c.cell j).sequences, s = seq)
    (hne : (c.remove seq beginIndex endIndex).2 ≠ some .shiftFailed) :
    (c.remove seq beginIndex endIndex).2 = none := by
  have owned : ∀ cell ∈ c.cells, cell.shifts seq endIndex = true →
      ∀ s ∈ cell.sequences, s = seq := by
    intro cell hcell
    obtain ⟨j, hj, rfl⟩ := List.mem_iff_getElem.mp hcell
    have hj' := own j
    rwa [Causal.cell, List.getD_eq_getElem?_getD, List.getElem?_eq_getElem hj] at hj'
  have hshared : (removeCells seq beginIndex endIndex (removeOffset beginIndex endIndex) c.cells 0
      newRange).2.2 = false := removeCells_own owned 0 newRange
  rw [remove_eq] at hne ⊢
  dsimp only at hne ⊢
  rw [hshared, if_neg Bool.false_ne_true] at hne ⊢
  split at hne
  · rename_i hempty
    rw [if_pos hempty]
  · rename_i hkept
    rw [if_neg hkept]
    split at hne
    · rename_i hend
      rw [if_pos hend]
      rw [shift, hfn] at hne ⊢
      exact (shiftBatches_error ..).resolve_right hne
    · rename_i hend
      rw [if_neg hend]

/-- `Remove` and `CopyPrefix` leave the other sequences alone and do to their own what they should,
also where `Remove` fails and is tried again, exactly if `shiftFn` leaves the rows between those that
are to be rotated as they are. -/
theorem Causal.isolates_iff (reached : c.Run) (h0 : 0 ≤ beginIndex) (hle : beginIndex ≤ endIndex)
    (hmax : endIndex ≤ maxInt32)
    (hne : (c.remove seq beginIndex endIndex).2 ≠ some .shiftFailed) :
    c.Isolates seq beginIndex endIndex ↔ c.KeepsBetween seq beginIndex endIndex := by
  have sound := reached.sound
  constructor
  · intro isolates fn hfn own j hturns hstill ⟨s, hs, hheld⟩ l row hkey
    have hok := remove_ok hfn own hne
    have hsame : (c.remove seq beginIndex endIndex).1.keyRow l j = c.keyRow l j := by
      by_cases hseq : s = seq
      · subst hseq
        exact ((isolates.cut hok).below j hs (hheld.resolve_left (absurd rfl))).2 l
      · exact (isolates.others s hseq).key j hs l
    rcases remove_keyRow sound h0 hle hmax hne l j with ⟨fn', hfn', -, -, hrow⟩ | ⟨-, hnot⟩
    · obtain rfl : fn' = fn := Option.some.inj (hfn'.symm.trans hfn)
      rw [hrow, hkey, Option.map_some, turned, hstill, if_neg Bool.false_ne_true] at hsame
      exact Option.some.inj hsame
    · exact absurd hturns (hnot hok)
  · intro keeps
    have inRange : (c.remove seq beginIndex endIndex).1.InRange := sound.inRange.remove h0 hle
    have others (s : Int) (hs : s ≠ seq) : c.HoldsSame (c.remove seq beginIndex endIndex).1 s :=
      ⟨fun j => (remove_cell_other hle hs j).1, fun j => (remove_cell_other hle hs j).2,
        fun j hmem l => keeps.keyRow sound h0 hle hmax hne hmem (.inl hs) l⟩
    refine ⟨others, (inRange seq).remove_ok 0, fun s hs => (others s hs).trans ?_, fun hok => ?_,
      isolates_copy⟩
    · exact ⟨fun j => (remove_cell_other (by decide) hs j).1,
        fun j => (remove_cell_other (by decide) hs j).2, fun j _ l => remove_end_keyRow l j⟩
    · refine ⟨cut_mem hok, fun j hmem hpos => ⟨cut_below_pos hle hok hpos, fun l =>
        keeps.keyRow sound h0 hle hmax hne hmem (.inr hpos) l⟩, fun j hmem hpos =>
        ⟨cut_above_pos sound.inRange h0 hle hok hmem hpos, ?_⟩⟩
      have hshifts := CacheCell.shifts_iff.mpr ⟨hmem, hpos⟩
      have hturns := turns_of_shifts (c.firstKept seq beginIndex endIndex) hshifts
      obtain ⟨fn, hfn⟩ : ∃ fn, c.shiftFn = some fn := by
        rcases remove_keyRow sound h0 hle hmax hne 0 j with ⟨fn, hfn, -⟩ | ⟨-, hnot⟩
        · exact ⟨fn, hfn⟩
        · exact absurd hturns (hnot hok)
      refine ⟨fn, hfn, fun l => ?_⟩
      rcases remove_keyRow sound h0 hle hmax hne l j with ⟨fn', hfn', -, -, hrow⟩ | ⟨-, hnot⟩
      · obtain rfl : fn' = fn := Option.some.inj (hfn'.symm.trans hfn)
        rw [hrow]
        congr 1
        funext row
        rw [turned, if_pos hshifts]
      · exact absurd hturns (hnot hok)

end Isolation

/-- Three tokens of a sequence, with one of another before the last. -/
def interleaved (fn : ShiftFn κ) (zero : κ) (row : Nat → κ) : Causal κ :=
  ((((newCausalCache (some fn)).init ⟨1, 1⟩ 2 8 4).getD (newCausalCache none)).startForward
    ⟨[0, 1, 0, 2], [0, 0, 1, 0]⟩ false 100).1.put zero row row

theorem interleaved_run (fn : ShiftFn κ) (zero : κ) (row : Nat → κ) :
    (interleaved fn zero row).Run :=
  .run ⟨1, 1⟩ 2 8 4 (.causal (some fn)) (by decide) rfl <|
    .head (.startForward _ _ _ ⟨by decide, by decide, by decide⟩ (by decide)) <|
    .single (.put zero row row)

/-- A row as the angle that it is rotated by, with plain rotary embeddings. -/
def rope : ShiftFn Int where
  rotate _ row offset := row + offset
  fails _ := false

theorem interleaved_isolates : (interleaved rope 0 fun j => j).Isolates 0 0 1 := by
  refine (Causal.isolates_iff (interleaved_run ..) (by decide) (by decide) (by decide)
    (by decide)).mpr ?_
  intro fn hfn own j hturns hstill hheld l row hkey
  obtain rfl : rope = fn := Option.some.inj hfn
  exact Int.add_zero row

/-- A row as its angle and how many times it is scaled, with embeddings that also scale. -/
def yarn : ShiftFn (Int × Nat) where
  rotate _ row offset := (row.1 + offset, row.2 + 1)
  fails _ := false

/-- The token of the other sequence is scaled once more when the last one is moved. -/
theorem yarn_scales_other : ¬ ∀ (c : Causal (Int × Nat)) (seq beginIndex endIndex : Int), c.Run →
    0 ≤ beginIndex → beginIndex ≤ endIndex → endIndex ≤ maxInt32 →
    (c.remove seq beginIndex endIndex).2 ≠ some .shiftFailed →
    c.Isolates seq beginIndex endIndex := by
  intro claim
  have isolates := claim (interleaved yarn (0, 0) fun j => (j, 1)) 0 0 1 (interleaved_run ..)
    (by decide) (by decide) (by decide) (by decide)
  have hkey := (isolates.others 1 (by decide)).key 2 (by decide) 0
  exact absurd hkey (by decide)

end Ecco9.KvCache
