import Ecco9.KvCache.Alignment
import Ecco9.KvCache.Isolation

/-! `WrapperCache`: several caches that take the same batches, and what is left of a batch that one
of them has no room for. -/

universe u

namespace Ecco9.KvCache

open Ecco9.Library

structure WrapperCache (κ : Type u) where
  caches : List (Causal κ)
  curType : Nat := 0

/-- Removes a batch again, token by token. -/
def Causal.unwind (c : Causal κ) (batch : Batch) : Causal κ :=
  (batch.sequences.zip batch.positions).foldl (fun c e => (c.remove e.1 e.2 maxInt32).1) c

/-- The loop of `StartForward` over the caches, with those that have taken the batch. -/
def startForwardFrom (batch : Batch) (reserve : Bool) (maxGraphNodes : Int)
    (done : List (Causal κ)) : List (Causal κ) → List (Causal κ) × Option CacheErr
  | [] => (done, none)
  | c :: cs =>
    match c.startForward batch reserve maxGraphNodes with
    | (c, some err) => (done.map (·.unwind batch) ++ c :: cs, some err)
    | (c, none) => startForwardFrom batch reserve maxGraphNodes (done ++ [c]) cs

def WrapperCache.startForward (w : WrapperCache κ) (batch : Batch) (reserve : Bool)
    (maxGraphNodes : Int) : WrapperCache κ × Option CacheErr :=
  match startForwardFrom batch reserve maxGraphNodes [] w.caches with
  | (caches, some err) => ({ w with caches }, some err)
  | (caches, none) => ({ caches, curType := 0 }, none)

/-! ### Taking a batch back -/

section Unwind

variable {c : Causal κ} {batch : Batch}

theorem Causal.remove_end_cell {seq : Int}
    (below : ∀ j, seq ∈ (c.cell j).sequences → (c.cell j).pos < maxInt32) (beginIndex : Int)
    (j : Nat) : (c.remove seq beginIndex maxInt32).1.cell j =
      if beginIndex ≤ (c.cell j).pos then (c.cell j).delete seq else c.cell j := by
  rw [remove_cell_own (remove_end_ok below beginIndex), removedCell]
  by_cases hmem : seq ∈ (c.cell j).sequences
  · have hlt := below j hmem
    rw [if_pos hmem]
    by_cases hle : beginIndex ≤ (c.cell j).pos
    · rw [if_pos ⟨hle, hlt⟩, if_pos hle]
    · rw [if_neg fun h => hle h.1, if_neg (by omega), if_neg hle]
  · rw [if_neg hmem, CacheCell.delete_of_notMem hmem, ite_self]

theorem Causal.remove_end_tensors (c : Causal κ) (seq beginIndex : Int) :
    (c.remove seq beginIndex maxInt32).1.tensors = c.tensors := by
  rw [remove_eq]
  dsimp only
  split
  · rfl
  · split
    · rfl
    · rw [if_neg (by simp)]

theorem Causal.unwind_tensors (c : Causal κ) (batch : Batch) :
    (c.unwind batch).tensors = c.tensors := by
  unfold unwind
  induction batch.sequences.zip batch.positions generalizing c with
  | nil => rfl
  | cons e es ih => exact (ih _).trans (c.remove_end_tensors e.1 e.2)

/-- A batch is taken out of a sequence from its lowest position on. -/
theorem Causal.unwind_cell
    (below : ∀ s ∈ batch.sequences, ∀ j, s ∈ (c.cell j).sequences → (c.cell j).pos < maxInt32)
    (j : Nat) : ((c.unwind batch).cell j).pos = (c.cell j).pos ∧
      ∀ s, s ∈ ((c.unwind batch).cell j).sequences ↔ s ∈ (c.cell j).sequences ∧
        ∀ e ∈ batch.sequences.zip batch.positions, e.1 = s → (c.cell j).pos < e.2 := by
  replace below : ∀ e ∈ batch.sequences.zip batch.positions, ∀ j,
      e.1 ∈ (c.cell j).sequences → (c.cell j).pos < maxInt32 :=
    fun e he => below e.1 (List.of_mem_zip he).1
  unfold unwind
  generalize batch.sequences.zip batch.positions = es at below ⊢
  induction es generalizing c with
  | nil => exact ⟨rfl, fun s => ⟨fun h => ⟨h, nofun⟩, fun h => h.1⟩⟩
  | cons e es ih =>
    have removed := remove_end_cell (below e List.mem_cons_self) e.2
    have pos (i : Nat) : ((c.remove e.1 e.2 maxInt32).1.cell i).pos = (c.cell i).pos := by
      rw [removed]
      split <;> rfl
    have mem (i : Nat) (s : Int) : s ∈ ((c.remove e.1 e.2 maxInt32).1.cell i).sequences ↔
        s ∈ (c.cell i).sequences ∧ (e.1 = s → (c.cell i).pos < e.2) := by
      rw [removed]
      split
      · rename_i hle
        rw [CacheCell.mem_delete]
        refine and_congr_right fun _ => ⟨fun hne heq => absurd heq.symm hne, ?_⟩
        rintro hlt rfl
        exact absurd (hlt rfl) (Int.not_lt.mpr hle)
      · rename_i hlt
        exact ⟨fun h => ⟨h, fun _ => Int.not_le.mp hlt⟩, fun h => h.1⟩
    obtain ⟨hpos, hmem⟩ := ih (c := (c.remove e.1 e.2 maxInt32).1) fun e' he' i h => by
      rw [pos]
      exact below e' (List.mem_cons_of_mem _ he') i ((mem i _).mp h).1
    rw [List.foldl_cons]
    refine ⟨hpos.trans (pos j), fun s => ?_⟩
    rw [hmem, mem, pos, List.forall_mem_cons, and_assoc]

/-- The last position cannot be removed. -/
theorem Causal.hasPos_unwind_max (s : Int) (h : c.HasPos s maxInt32) :
    (c.unwind batch).HasPos s maxInt32 := by
  unfold unwind
  induction batch.sequences.zip batch.positions generalizing c with
  | nil => exact h
  | cons e es ih =>
    apply ih
    obtain ⟨j, hs, hp⟩ := hasPos_iff.mp h
    refine hasPos_iff.mpr ⟨j, ?_⟩
    rcases remove_cell (c := c) e.1 e.2 j with hcell | hcell
    · rw [hcell, removedCell]
      split
      · rw [if_neg (by omega), if_pos (by omega)]
        refine ⟨hs, ?_⟩
        dsimp only
        rw [hp]
        decide
      · exact ⟨hs, hp⟩
    · rw [hcell]
      exact ⟨hs, hp⟩

/-- The tokens of the batch come after everything their sequences hold. -/
def Causal.Appends (c : Causal κ) (batch : Batch) : Prop :=
  ∀ e ∈ batch.sequences.zip batch.positions, ∀ p, c.HasPos e.1 p → p < e.2

theorem Causal.Contiguous.appends (contiguous : c.Contiguous batch) : c.Appends batch := by
  intro e he p hp
  obtain ⟨k, hk, rfl⟩ := List.mem_iff_getElem.mp he
  rw [List.length_zip] at hk
  have hnext := contiguous.next k (by omega)
  have hlt := hp.lt
  have h1 : k < batch.sequences.length := by omega
  have h2 : k < batch.positions.length := by omega
  simp only [List.getElem_zip] at hlt ⊢
  simp only [List.getD_eq_getElem?_getD, List.getElem?_eq_getElem h1,
    List.getElem?_eq_getElem h2, Option.getD_some] at hnext
  omega

theorem mem_zip_of_lt (valid : batch.Valid) {k : Nat} (hk : k < batch.positions.length) :
    (batch.sequences.getD k 0, batch.positions.getD k 0) ∈
      batch.sequences.zip batch.positions := by
  have hk' : k < batch.sequences.length := valid.sequences ▸ hk
  rw [List.mem_iff_getElem]
  exact ⟨k, by rw [List.length_zip]; omega, by simp [hk, hk']⟩

/-- A batch that is stored and taken back leaves what `StartForward` had prepared for it. -/
theorem Causal.unwound_cell (ranged : c.Ranged) (valid : batch.Valid) (appends : c.Appends batch)
    (bounded : ∀ p ∈ batch.positions, p < maxInt32) {maxGraphNodes : Int}
    (h : (c.startForward batch false maxGraphNodes).2 = none) (j : Nat) (s : Int) :
    (s ∈ (((c.startForward batch false maxGraphNodes).1.unwind batch).cell j).sequences ↔
        s ∈ ((c.prepare batch maxGraphNodes).1.cell j).sequences) ∧
      (s ∈ ((c.prepare batch maxGraphNodes).1.cell j).sequences →
        (((c.startForward batch false maxGraphNodes).1.unwind batch).cell j).pos =
          ((c.prepare batch maxGraphNodes).1.cell j).pos) := by
  have stored := startForward_cell ranged valid.sequences h
  have free {j : Nat} {s : Int} := prepare_curLoc_free (j := j) (s := s) ranged
    (prepare_of_startForward h)
  have old {j : Nat} (hs : s ∈ ((c.prepare batch maxGraphNodes).1.cell j).sequences)
      (e : Int × Int) (he : e ∈ batch.sequences.zip batch.positions) (heq : e.1 = s) :
      ((c.prepare batch maxGraphNodes).1.cell j).pos < e.2 := by
    subst heq
    exact appends e he _
      ((hasPos_prepare ranged batch maxGraphNodes _ _).mp (hasPos_iff.mpr ⟨j, hs, rfl⟩)).1
  have below : ∀ s ∈ batch.sequences, ∀ j,
      s ∈ ((c.startForward batch false maxGraphNodes).1.cell j).sequences →
      ((c.startForward batch false maxGraphNodes).1.cell j).pos < maxInt32 := by
    intro s' hs' j hmem
    rw [stored, storedCell] at hmem ⊢
    split at hmem
    · rename_i hin
      rw [if_pos hin]
      exact bounded _ (by simp [show j - (c.prepare batch maxGraphNodes).1.curLoc <
        batch.positions.length by omega])
    · rename_i hout
      rw [if_neg hout]
      obtain ⟨k, hk, rfl⟩ := List.mem_iff_getElem.mp hs'
      have hk' : k < batch.positions.length := valid.sequences ▸ hk
      have he := mem_zip_of_lt valid hk'
      rw [List.getD_eq_getElem?_getD, List.getElem?_eq_getElem hk, Option.getD_some] at he
      have hp := (hasPos_prepare ranged batch maxGraphNodes _ _).mp
        (hasPos_iff.mpr ⟨j, hmem, rfl⟩)
      refine (appends _ he _ hp.1).trans (bounded _ ?_)
      exact (List.of_mem_zip he).2
  obtain ⟨hpos, hmem⟩ := unwind_cell below j
  rw [hmem, hpos, stored, storedCell]
  split
  · rename_i hin
    -- the cell holds a token of the batch, and held none before
    have hnot : s ∉ ((c.prepare batch maxGraphNodes).1.cell j).sequences := fun hs => free hs hin
    refine ⟨⟨fun hs => ?_, fun hs => absurd hs hnot⟩, fun hs => absurd hs hnot⟩
    have he := mem_zip_of_lt valid (k := j - (c.prepare batch maxGraphNodes).1.curLoc) (by omega)
    exact absurd (hs.2 _ he (List.mem_singleton.mp hs.1).symm) (lt_irrefl _)
  · exact ⟨⟨fun hs => hs.1, fun hs => ⟨hs, old hs⟩⟩, fun _ => rfl⟩

end Unwind

/-! ### What the sequences still see -/

/-- The window of the lowest position of a sequence in the batch; every position of a sequence that
is not in the batch. -/
def Causal.inWindow (c : Causal κ) (batch : Batch) (seq p : Int) : Prop :=
  ∀ low ∈ (c.withBatch batch).lowestPos seq, sub32 low c.swaWindowSize ≤ p

instance (c : Causal κ) (batch : Batch) (seq : Int) : DecidablePred (c.inWindow batch seq) :=
  fun _ => inferInstanceAs (Decidable (∀ _ ∈ Causal.lowestPos _ _, _))

/-- A sequence holds the same positions in both caches, as far as `Q` goes, and in every layer the
same rows at them. -/
structure Causal.SameHeld (c c' : Causal κ) (Q : Int → Prop) [DecidablePred Q] (seq : Int) :
    Prop where
  positions : heldIn Q c'.cells seq (fun _ => ()) = heldIn Q c.cells seq fun _ => ()
  rows : List.Forall₂ (Option.Rel fun t t' =>
    heldIn Q c'.cells seq t'.key = heldIn Q c.cells seq t.key ∧
      heldIn Q c'.cells seq t'.value = heldIn Q c.cells seq t.value) c.tensors c'.tensors

/-- Nothing of the batch is left, and every sequence sees what it saw before. -/
structure Causal.Restored (c c' : Causal κ) (batch : Batch) : Prop where
  gone : ∀ e ∈ batch.sequences.zip batch.positions, ¬c'.HasPos e.1 e.2
  held : ∀ seq, c.SameHeld c' (c.inWindow batch seq) seq

/-- The batch needs no defragmentation, or one that leaves the rows in the windows at their
positions. -/
def Causal.KeepsRows (c : Causal κ) (batch : Batch) : Prop :=
  (c.withBatch batch).updateSlidingWindow.findStartLoc = none → ∀ seq,
    Aligned (c.inWindow batch seq) (c.withBatch batch).updateSlidingWindow.cells seq

section Prepare

variable {c : Causal κ} {batch : Batch}

theorem Causal.SameHeld.congr {c c' c'' : Causal κ} {Q : Int → Prop} [DecidablePred Q] {seq : Int}
    (htensors : c''.tensors = c'.tensors)
    (hcell : ∀ j, (seq ∈ (c''.cell j).sequences ↔ seq ∈ (c'.cell j).sequences) ∧
      (seq ∈ (c'.cell j).sequences → (c''.cell j).pos = (c'.cell j).pos)) :
    c.SameHeld c'' Q seq ↔ c.SameHeld c' Q seq := by
  have hmem (j : Nat) : seq ∈ (c''.cell j).sequences ∧ Q (c''.cell j).pos ↔
      seq ∈ (c'.cell j).sequences ∧ Q (c'.cell j).pos := by
    rw [(hcell j).1]
    exact and_congr_right fun h => by rw [(hcell j).2 h]
  have hpos (j : Nat) (h : seq ∈ (c'.cell j).sequences) := (hcell j).2 h
  have hunit : heldIn Q c''.cells seq (fun _ => ()) = heldIn Q c'.cells seq fun _ => () :=
    heldIn_congr hmem fun j h _ => ⟨hpos j h, rfl⟩
  have hrow (row : Nat → κ) : heldIn Q c''.cells seq row = heldIn Q c'.cells seq row :=
    heldIn_congr hmem fun j h _ => ⟨hpos j h, rfl⟩
  constructor
  · rintro ⟨positions, rows⟩
    rw [hunit] at positions
    simp only [htensors, hrow] at rows
    exact ⟨positions, rows⟩
  · rintro ⟨positions, rows⟩
    refine ⟨hunit.trans positions, ?_⟩
    simp only [htensors, hrow]
    exact rows

/-- What the window deletes lies outside it. -/
theorem Causal.heldIn_slid (ranged : c.Ranged) (valid : c.sizes.Valid) (hbatch : batch.Valid)
    (seq : Int) (row : Nat → ρ) :
    heldIn (c.inWindow batch seq) (c.withBatch batch).updateSlidingWindow.cells seq row =
      heldIn (c.inWindow batch seq) c.cells seq row := by
  have here : (c.withBatch batch).Ranged := ranged.congr rfl rfl
  have hcell (i : Nat) : (c.withBatch batch).updateSlidingWindow.cells.getD i {} =
      (c.withBatch batch).trimAll (c.cells.getD i {}) := updateSlidingWindow_cell here.covered i
  apply heldIn_congr
  · intro i
    rw [hcell, trimAll_pos]
    refine and_congr_left fun hQ => ?_
    by_cases hmem : c.swaMemorySize = maxInt32
    · rw [trimAll, if_pos (show (c.withBatch batch).swaMemorySize = maxInt32 from hmem)]
    · refine (mem_trimAll (show (c.withBatch batch).swaMemorySize ≠ maxInt32 from hmem)
        (here.tracked i seq)).trans (and_iff_left fun low hlow => ?_)
      obtain ⟨h0, hmax⟩ := hbatch.positions low (List.of_mem_zip (lowestPos_mem hlow)).2
      have hwindow : sub32 low c.swaWindowSize ≤ (c.cells.getD i {}).pos := hQ low hlow
      have h1 : 0 ≤ c.swaWindowSize := valid.window
      have h2 : c.swaWindowSize ≤ c.swaMemorySize := valid.memory
      have h3 : c.swaMemorySize ≤ maxInt32 := valid.memory_le
      change sub32 low c.swaMemorySize ≤ (c.cells.getD i {}).pos
      unfold maxInt32 at *
      rw [sub32_of_range (by omega) (by omega)] at hwindow ⊢
      omega
  · intro i _ _
    rw [hcell, trimAll_pos]
    exact ⟨rfl, rfl⟩

theorem copyAll_const {ρ : Type*} (ms : List Move) (x : ρ) :
    copyAll ms (fun _ => x) = fun _ => x :=
  copyAll_comp ms (fun _ => x) id

/-- The tensors are of no account for the window. -/
theorem Causal.updateSlidingWindow_withTensors (c : Causal κ)
    (tensors : List (Option (LayerTensors ρ))) :
    (c.withTensors tensors).updateSlidingWindow = c.updateSlidingWindow.withTensors tensors := by
  have hslide (seqs : List Int) (c : Causal κ) :
      (c.withTensors tensors).slideAll seqs = (c.slideAll seqs).withTensors tensors := by
    induction seqs generalizing c with
    | nil => rfl
    | cons seq seqs ih =>
      refine Eq.trans ?_ (ih _)
      unfold slideAll
      rw [List.foldl_cons]
      congr 1
      dsimp only
      rw [show (c.withTensors tensors).lowestPos seq = c.lowestPos seq from rfl]
      cases c.lowestPos seq with
      | none => rfl
      | some pos =>
        dsimp only [slideSeq]
        rw [show (c.withTensors tensors).cellRanges seq = c.cellRanges seq from rfl]
        cases c.cellRanges seq <;> rfl
  unfold updateSlidingWindow
  dsimp only
  by_cases hmem : c.swaMemorySize = maxInt32
  · rw [if_pos hmem, if_pos (show (c.withTensors tensors).swaMemorySize = maxInt32 from hmem)]
    rfl
  · rw [if_neg hmem, if_neg (show (c.withTensors tensors).swaMemorySize ≠ maxInt32 from hmem)]
    exact hslide _ { c with curCellRange := newRange }

theorem Causal.prepare_of_some {loc : Nat} (maxGraphNodes : Int)
    (h : (c.withBatch batch).updateSlidingWindow.findStartLoc = some loc) :
    (c.prepare batch maxGraphNodes).1.cells = (c.withBatch batch).updateSlidingWindow.cells ∧
      (c.prepare batch maxGraphNodes).1.tensors =
        (c.withBatch batch).updateSlidingWindow.tensors := by
  rw [prepare_eq]
  dsimp only
  rw [h]
  exact ⟨rfl, rfl⟩

theorem Causal.prepare_of_none (maxGraphNodes : Int)
    (h : (c.withBatch batch).updateSlidingWindow.findStartLoc = none) :
    (c.prepare batch maxGraphNodes).1.cells =
        ((c.withBatch batch).updateSlidingWindow.defrag maxGraphNodes).cells ∧
      (c.prepare batch maxGraphNodes).1.tensors =
        ((c.withBatch batch).updateSlidingWindow.defrag maxGraphNodes).tensors := by
  rw [prepare_eq]
  dsimp only
  rw [h]
  dsimp only
  split <;> exact ⟨rfl, rfl⟩

/-- Preparing for a batch leaves every sequence what it sees, if the moves keep the rows. -/
theorem Causal.prepare_same {ρ : Type} {c : Causal ρ} (ranged : c.Ranged) (valid : c.sizes.Valid)
    (hbatch : batch.Valid) (keeps : c.KeepsRows batch) (maxGraphNodes : Int) (seq : Int) :
    c.SameHeld (c.prepare batch maxGraphNodes).1 (c.inWindow batch seq) seq := by
  have here : (c.withBatch batch).Ranged := ranged.congr rfl rfl
  have settled := updateSlidingWindow_settled here
  have slid {ρ : Type} := heldIn_slid (ρ := ρ) ranged valid hbatch seq
  have tensors : (c.withBatch batch).updateSlidingWindow.tensors = c.tensors := by
    rw [(updateSlidingWindow_setup here.covered).1]
    rfl
  cases hloc : (c.withBatch batch).updateSlidingWindow.findStartLoc with
  | some loc =>
    obtain ⟨hcells, htensors⟩ := prepare_of_some maxGraphNodes hloc
    constructor
    · rw [hcells, slid]
    · rw [hcells, htensors, tensors, List.forall₂_same]
      rintro (_ | t) _
      · exact .none
      · exact .some ⟨slid _, slid _⟩
  | none =>
    have moved {ρ : Type} := heldIn_arranged_iff.mp (keeps hloc seq) ρ
    obtain ⟨hcells, htensors⟩ := prepare_of_none maxGraphNodes hloc
    rw [defrag_cells settled] at hcells
    change _ = arranged _ at hcells
    rw [defrag_tensors, tensors] at htensors
    constructor
    · have hunit := moved fun _ => ()
      rw [copyAll_const] at hunit
      rw [hcells, hunit, slid]
    · rw [hcells, htensors, List.forall₂_map_right_iff, List.forall₂_same]
      rintro (_ | t) _
      · exact .none
      · exact .some ⟨(moved _).trans (slid _), (moved _).trans (slid _)⟩

/-- Only then, whatever rows are stored. -/
theorem Causal.keepsRows_of_same (ranged : c.Ranged) (valid : c.sizes.Valid)
    (hbatch : batch.Valid) (maxGraphNodes : Int)
    (same : ∀ (ρ : Type) (row : Nat → ρ) (seq : Int),
      (c.withTensors [some ⟨row, row⟩]).SameHeld
        ((c.withTensors [some ⟨row, row⟩]).prepare batch maxGraphNodes).1
        (c.inWindow batch seq) seq) : c.KeepsRows batch := by
  intro hloc seq
  rw [heldIn_arranged_iff]
  intro ρ row
  have rows := (same ρ row seq).rows
  have here : (c.withBatch batch).Ranged := ranged.congr rfl rfl
  have settled : ((c.withBatch batch).updateSlidingWindow.withTensors
      [some (⟨row, row⟩ : LayerTensors ρ)]).WindowSettled := updateSlidingWindow_settled here
  have slid := heldIn_slid ranged valid hbatch seq row
  have window : ((c.withTensors [some (⟨row, row⟩ : LayerTensors ρ)]).withBatch
      batch).updateSlidingWindow =
        (c.withBatch batch).updateSlidingWindow.withTensors [some ⟨row, row⟩] :=
    updateSlidingWindow_withTensors (c.withBatch batch) _
  have hloc' : ((c.withTensors [some (⟨row, row⟩ : LayerTensors ρ)]).withBatch
      batch).updateSlidingWindow.findStartLoc = none := by
    rw [window]
    exact hloc
  obtain ⟨hcells, htensors⟩ := prepare_of_none maxGraphNodes hloc'
  rw [window, defrag_cells settled] at hcells
  rw [window, defrag_tensors] at htensors
  rw [hcells, htensors] at rows
  cases rows with
  | cons head _ => cases head with
    | some h => exact h.1.trans slid.symm

end Prepare

/-! ### One cache -/

/-- Once the window has moved on, the free cells are enough for the batch. -/
def Causal.HasRoom (c : Causal κ) (batch : Batch) : Prop :=
  (usedCells (c.withBatch batch).updateSlidingWindow.cells).card + batch.positions.length ≤
    c.cells.length

section Cache

variable {c : Causal κ} {batch : Batch}

theorem Causal.startForward_error (c : Causal κ) (batch : Batch) (maxGraphNodes : Int) :
    (c.startForward batch false maxGraphNodes).2 = (c.prepare batch maxGraphNodes).2 := by
  rw [startForward, if_neg Bool.false_ne_true]
  split <;> simp [*]

theorem Causal.startForward_tensors (c : Causal κ) (batch : Batch) (maxGraphNodes : Int) :
    (c.startForward batch false maxGraphNodes).1.tensors =
      (c.prepare batch maxGraphNodes).1.tensors := by
  rw [startForward, if_neg Bool.false_ne_true]
  split
  · rename_i heq
    rw [heq]
  · rename_i c₁ heq
    have setup := (storeTokens_setup c₁ (c₁.curPositions.zip c₁.curSequences).zipIdx).1
    rw [heq, buildMask_same]
    change c₁.storeBatch.tensors = c₁.tensors
    rw [storeBatch, setup]

theorem Causal.hasRoom_iff (ranged : c.Ranged) (hbatch : batch.Valid) (maxGraphNodes : Int) :
    (c.startForward batch false maxGraphNodes).2 = none ↔ c.HasRoom batch := by
  rw [startForward_error]
  exact prepare_none_iff ranged hbatch.nonempty maxGraphNodes

theorem Causal.startForward_full {maxGraphNodes : Int}
    (h : (c.startForward batch false maxGraphNodes).2 ≠ none) :
    (c.startForward batch false maxGraphNodes).1 = (c.prepare batch maxGraphNodes).1 := by
  rw [startForward, if_neg Bool.false_ne_true] at h ⊢
  split at h
  · rename_i heq
    rw [heq]
  · exact absurd rfl h

/-- The cache is restored where it cannot take the batch. -/
theorem Causal.restored_full_iff (ranged : c.Ranged) (appends : c.Appends batch)
    {maxGraphNodes : Int} (h : (c.startForward batch false maxGraphNodes).2 ≠ none) :
    c.Restored (c.startForward batch false maxGraphNodes).1 batch ↔
      ∀ seq, c.SameHeld (c.prepare batch maxGraphNodes).1 (c.inWindow batch seq) seq := by
  have gone : ∀ e ∈ batch.sequences.zip batch.positions,
      ¬(c.startForward batch false maxGraphNodes).1.HasPos e.1 e.2 := by
    intro e he hp
    have hold := ((hasPos_startForward_full ranged h _ _).mp hp).1
    exact absurd (appends e he _ hold) (lt_irrefl _)
  rw [startForward_full h] at gone ⊢
  exact ⟨fun restored => restored.held, fun held => ⟨gone, held⟩⟩

/-- A cache that has taken the batch is restored by taking it back, except for the last position. -/
theorem Causal.restored_room_iff (ranged : c.Ranged) (hbatch : batch.Valid)
    (appends : c.Appends batch) {maxGraphNodes : Int}
    (h : (c.startForward batch false maxGraphNodes).2 = none) :
    c.Restored ((c.startForward batch false maxGraphNodes).1.unwind batch) batch ↔
      (∀ p ∈ batch.positions, p < maxInt32) ∧
        ∀ seq, c.SameHeld (c.prepare batch maxGraphNodes).1 (c.inWindow batch seq) seq := by
  have tensors : ((c.startForward batch false maxGraphNodes).1.unwind batch).tensors =
      (c.prepare batch maxGraphNodes).1.tensors := by
    rw [unwind_tensors, startForward_tensors]
  have congr (bounded : ∀ p ∈ batch.positions, p < maxInt32) (seq : Int) :=
    SameHeld.congr (c := c) (Q := c.inWindow batch seq) tensors fun j =>
      unwound_cell ranged hbatch appends bounded h j seq
  constructor
  · intro restored
    have bounded : ∀ p ∈ batch.positions, p < maxInt32 := by
      intro p hp
      obtain ⟨k, hk, rfl⟩ := List.mem_iff_getElem.mp hp
      have hmem := mem_zip_of_lt hbatch hk
      have hgone := restored.gone _ hmem
      have hmax := (hbatch.positions _ hp).2
      have hget : batch.positions.getD k 0 = batch.positions[k] := by simp [hk]
      refine lt_of_le_of_ne hmax fun heq => hgone ?_
      dsimp only
      rw [hget, heq]
      apply hasPos_unwind_max
      refine (hasPos_startForward ranged hbatch.sequences h _ _).mpr (.inr ⟨k, hk, rfl, ?_⟩)
      rw [hget, heq]
    exact ⟨bounded, fun seq => (congr bounded seq).mp (restored.held seq)⟩
  · rintro ⟨bounded, held⟩
    refine ⟨fun e he hp => ?_, fun seq => (congr bounded seq).mpr (held seq)⟩
    obtain ⟨j, hmem, hpos⟩ := hasPos_iff.mp hp
    obtain ⟨hold, heq⟩ := unwound_cell ranged hbatch appends bounded h j e.1
    have hprepared := (hasPos_prepare ranged batch maxGraphNodes e.1 e.2).mp
      (hasPos_iff.mpr ⟨j, hold.mp hmem, (heq (hold.mp hmem)).symm.trans hpos⟩)
    exact absurd (appends e he _ hprepared.1) (lt_irrefl _)

end Cache

/-! ### All caches -/

/-- `StartForward` gets to the caches in order, up to the first that has no room. Those keep their
rows, and where one is taken back the batch does not reach the last position. -/
def KeepsRowsFrom (batch : Batch) : List (Causal κ) → Prop
  | [] => True
  | c :: cs => c.KeepsRows batch ∧
      (c.HasRoom batch → (∀ p ∈ batch.positions, p < maxInt32) ∧ KeepsRowsFrom batch cs)

/-- The same caches over other tensors. -/
def WrapperCache.withTensors (w : WrapperCache κ)
    (tensors : Nat → List (Option (LayerTensors ρ))) : WrapperCache ρ where
  caches := w.caches.mapIdx fun i c => c.withTensors (tensors i)
  curType := w.curType

/-- Where `StartForward` fails it restores every cache, whatever rows are stored. -/
def WrapperCache.Restores (w : WrapperCache κ) (batch : Batch) (reserve : Bool)
    (maxGraphNodes : Int) : Prop :=
  ∀ (ρ : Type) (tensors : Nat → List (Option (LayerTensors ρ))),
    (∀ c ∈ (w.withTensors tensors).caches, 1 ≤ c.layers) →
      List.Forall₂ (fun c c' => c.Restored c' batch) (w.withTensors tensors).caches
        ((w.withTensors tensors).startForward batch reserve maxGraphNodes).1.caches

/-- What a `StartForward` that fails makes of the caches it gets to and of the others. -/
def unwound (batch : Batch) (maxGraphNodes : Int) : List (Causal κ) → List (Causal κ)
  | [] => []
  | c :: cs =>
    match c.startForward batch false maxGraphNodes with
    | (c, some _) => c :: cs
    | (c, none) => c.unwind batch :: unwound batch maxGraphNodes cs

section All

variable {batch : Batch} {maxGraphNodes : Int}

theorem startForwardFrom_fails (done cs : List (Causal κ))
    (h : (startForwardFrom batch false maxGraphNodes done cs).2 ≠ none) :
    (startForwardFrom batch false maxGraphNodes done cs).1 =
      done.map (·.unwind batch) ++ unwound batch maxGraphNodes cs := by
  induction cs generalizing done with
  | nil => exact absurd rfl h
  | cons c cs ih =>
    rw [startForwardFrom] at h ⊢
    rw [unwound]
    split at h
    · rfl
    · rw [ih _ h]
      simp

theorem startForwardFrom_ok_iff (hbatch : batch.Valid) (done : List (Causal κ))
    {cs : List (Causal κ)} (ranged : ∀ c ∈ cs, c.Ranged) :
    (startForwardFrom batch false maxGraphNodes done cs).2 = none ↔
      ∀ c ∈ cs, c.HasRoom batch := by
  induction cs generalizing done with
  | nil => simp [startForwardFrom]
  | cons c cs ih =>
    have hroom := Causal.hasRoom_iff (ranged c List.mem_cons_self) hbatch maxGraphNodes
    rw [startForwardFrom, List.forall_mem_cons, ← hroom]
    split
    · rename_i heq
      simp [heq]
    · rename_i c' heq
      rw [heq, ih _ fun b hb => ranged b (List.mem_cons_of_mem _ hb)]
      simp

theorem startForwardFrom_reserve (done cs : List (Causal κ)) :
    (startForwardFrom batch true maxGraphNodes done cs).2 = none := by
  induction cs generalizing done with
  | nil => rfl
  | cons c cs ih => exact ih _

theorem unwound_room {c : Causal κ} (h : (c.startForward batch false maxGraphNodes).2 = none)
    (cs : List (Causal κ)) : unwound batch maxGraphNodes (c :: cs) =
      (c.startForward batch false maxGraphNodes).1.unwind batch ::
        unwound batch maxGraphNodes cs := by
  rw [unwound]
  split
  · rename_i heq
    rw [heq] at h
    cases h
  · rename_i heq
    rw [heq]

theorem unwound_full {c : Causal κ} (h : (c.startForward batch false maxGraphNodes).2 ≠ none)
    (cs : List (Causal κ)) : unwound batch maxGraphNodes (c :: cs) =
      (c.startForward batch false maxGraphNodes).1 :: cs := by
  rw [unwound]
  split
  · rename_i heq
    rw [heq]
  · rename_i heq
    rw [heq] at h
    exact absurd rfl h

theorem Causal.Appends.restored {c : Causal κ} (appends : c.Appends batch) :
    c.Restored c batch where
  gone e he hp := absurd (appends e he _ hp) (lt_irrefl _)
  held _ := ⟨rfl, List.forall₂_same.mpr fun t _ => by
    cases t with
    | none => exact .none
    | some t => exact .some ⟨rfl, rfl⟩⟩

/-- What `StartForward` needs of a cache, and every run gives. -/
structure Causal.Takes (c : Causal κ) (batch : Batch) : Prop where
  ranged : c.Ranged
  sizes : c.sizes.Valid
  appends : c.Appends batch

theorem forall₂_restored {ρ : Type} {cs : List (Causal ρ)} (hbatch : batch.Valid)
    (takes : ∀ c ∈ cs, c.Takes batch) (keeps : KeepsRowsFrom batch cs)
    (fails : ¬∀ c ∈ cs, c.HasRoom batch) :
    List.Forall₂ (fun c c' => c.Restored c' batch) cs (unwound batch maxGraphNodes cs) := by
  induction cs with
  | nil => exact absurd nofun fails
  | cons c cs ih =>
    obtain ⟨ranged, sizes, appends⟩ := takes c List.mem_cons_self
    have takes' (b : Causal ρ) (hb : b ∈ cs) := takes b (List.mem_cons_of_mem _ hb)
    have same := Causal.prepare_same ranged sizes hbatch keeps.1 maxGraphNodes
    have hroom := Causal.hasRoom_iff ranged hbatch maxGraphNodes
    by_cases room : c.HasRoom batch
    · have h := hroom.mpr room
      obtain ⟨bounded, keeps'⟩ := keeps.2 room
      rw [List.forall_mem_cons, not_and] at fails
      rw [unwound_room h]
      exact .cons ((Causal.restored_room_iff ranged hbatch appends h).mpr ⟨bounded, same⟩)
        (ih takes' keeps' (fails room))
    · have h : (c.startForward batch false maxGraphNodes).2 ≠ none := fun h => room (hroom.mp h)
      rw [unwound_full h]
      exact .cons ((Causal.restored_full_iff ranged appends h).mpr same)
        (List.forall₂_same.mpr fun b hb => (takes' b hb).appends.restored)

theorem Causal.keepsRows_withTensors {c : Causal κ} {tensors : List (Option (LayerTensors ρ))} :
    (c.withTensors tensors).KeepsRows batch ↔ c.KeepsRows batch := by
  unfold KeepsRows
  rw [show (c.withTensors tensors).withBatch batch = (c.withBatch batch).withTensors tensors
    from rfl, updateSlidingWindow_withTensors]
  exact Iff.rfl

theorem Causal.hasRoom_withTensors {c : Causal κ} {tensors : List (Option (LayerTensors ρ))} :
    (c.withTensors tensors).HasRoom batch ↔ c.HasRoom batch := by
  unfold HasRoom
  rw [show (c.withTensors tensors).withBatch batch = (c.withBatch batch).withTensors tensors
    from rfl, updateSlidingWindow_withTensors]
  exact Iff.rfl

theorem Causal.Takes.withTensors {c : Causal κ} (takes : c.Takes batch)
    (tensors : List (Option (LayerTensors ρ))) : (c.withTensors tensors).Takes batch :=
  ⟨takes.ranged.congr rfl rfl, takes.sizes, takes.appends⟩

theorem keepsRowsFrom_withTensors {cs : List (Causal κ)}
    {tensors : Nat → List (Option (LayerTensors ρ))} : KeepsRowsFrom batch
      (cs.mapIdx fun i c => c.withTensors (tensors i)) ↔ KeepsRowsFrom batch cs := by
  induction cs generalizing tensors with
  | nil => exact Iff.rfl
  | cons c cs ih =>
    rw [List.mapIdx_cons, KeepsRowsFrom, KeepsRowsFrom, Causal.keepsRows_withTensors,
      Causal.hasRoom_withTensors, ih]

theorem keepsRowsFrom_of_restored {cs : List (Causal κ)} (hbatch : batch.Valid)
    (takes : ∀ c ∈ cs, c.Takes batch)
    (restored : ∀ (ρ : Type) (row : Nat → ρ), List.Forall₂ (fun c c' => c.Restored c' batch)
      (cs.map fun c => c.withTensors [some ⟨row, row⟩])
      (unwound batch maxGraphNodes (cs.map fun c => c.withTensors [some ⟨row, row⟩]))) :
    KeepsRowsFrom batch cs := by
  induction cs with
  | nil => trivial
  | cons c cs ih =>
    have here := takes c List.mem_cons_self
    have hroom {ρ : Type} (row : Nat → ρ) := Causal.hasRoom_iff
      (here.withTensors [some (⟨row, row⟩ : LayerTensors ρ)]).ranged hbatch maxGraphNodes
    simp only [Causal.hasRoom_withTensors] at hroom
    simp only [List.map_cons] at restored
    by_cases room : c.HasRoom batch
    · have h {ρ : Type} (row : Nat → ρ) := (hroom row).mpr room
      have parts (ρ : Type) (row : Nat → ρ) := restored ρ row
      simp only [unwound_room (h _), List.forall₂_cons] at parts
      have held (ρ : Type) (row : Nat → ρ) := (Causal.restored_room_iff
        (here.withTensors [some ⟨row, row⟩]).ranged hbatch
        (here.withTensors [some ⟨row, row⟩]).appends (h row)).mp (parts ρ row).1
      refine ⟨Causal.keepsRows_of_same here.ranged here.sizes hbatch maxGraphNodes
        fun ρ row => (held ρ row).2, fun _ => ⟨(held Unit fun _ => ()).1, ?_⟩⟩
      exact ih (fun b hb => takes b (List.mem_cons_of_mem _ hb)) fun ρ row => (parts ρ row).2
    · have h {ρ : Type} (row : Nat → ρ) : ((c.withTensors
          [some (⟨row, row⟩ : LayerTensors ρ)]).startForward batch false maxGraphNodes).2 ≠ none :=
        fun h => room ((hroom row).mp h)
      have parts (ρ : Type) (row : Nat → ρ) := restored ρ row
      simp only [unwound_full (h _), List.forall₂_cons] at parts
      refine ⟨Causal.keepsRows_of_same here.ranged here.sizes hbatch maxGraphNodes
        fun ρ row => ?_, fun hr => absurd hr room⟩
      exact (Causal.restored_full_iff (here.withTensors [some ⟨row, row⟩]).ranged
        (here.withTensors [some ⟨row, row⟩]).appends (h row)).mp (parts ρ row).1

theorem WrapperCache.startForward_caches (w : WrapperCache κ) (reserve : Bool) :
    (w.startForward batch reserve maxGraphNodes).1.caches =
        (startForwardFrom batch reserve maxGraphNodes [] w.caches).1 ∧
      (w.startForward batch reserve maxGraphNodes).2 =
        (startForwardFrom batch reserve maxGraphNodes [] w.caches).2 := by
  unfold startForward
  split <;> simp [*]

/-- A `StartForward` that fails leaves every sequence what it saw, exactly if each cache it gets to
either needs no defragmentation or keeps the rows of the windows in it, and no batch that is taken
back reaches the last position. -/
theorem WrapperCache.restores_iff {w : WrapperCache κ} (reached : ∀ c ∈ w.caches, c.Reachable)
    (hbatch : batch.Valid) (appends : ∀ c ∈ w.caches, c.Appends batch) {reserve : Bool}
    (fails : (w.startForward batch reserve maxGraphNodes).2 ≠ none) :
    w.Restores batch reserve maxGraphNodes ↔ KeepsRowsFrom batch w.caches := by
  have takes (c : Causal κ) (hc : c ∈ w.caches) : c.Takes batch :=
    ⟨(reached c hc).keeps.2, (reached c hc).keeps.1, appends c hc⟩
  rw [(w.startForward_caches reserve).2] at fails
  cases reserve with
  | true => exact absurd (startForwardFrom_reserve [] w.caches) fails
  | false =>
    rw [Ne, startForwardFrom_ok_iff hbatch [] fun c hc => (takes c hc).ranged] at fails
    have takes' {ρ : Type} (tensors : Nat → List (Option (LayerTensors ρ))) :
        ∀ c ∈ (w.withTensors tensors).caches, c.Takes batch := by
      intro c hc
      obtain ⟨i, hi, rfl⟩ := List.mem_mapIdx.mp hc
      exact (takes _ (List.getElem_mem hi)).withTensors _
    have fails' {ρ : Type} (tensors : Nat → List (Option (LayerTensors ρ))) :
        ¬∀ c ∈ (w.withTensors tensors).caches, c.HasRoom batch := by
      intro h
      refine fails fun c hc => ?_
      obtain ⟨i, hi, rfl⟩ := List.mem_iff_getElem.mp hc
      exact Causal.hasRoom_withTensors.mp (h _ (List.mem_mapIdx.mpr ⟨i, hi, rfl⟩))
    have result {ρ : Type} (tensors : Nat → List (Option (LayerTensors ρ))) :
        ((w.withTensors tensors).startForward batch false maxGraphNodes).1.caches =
          unwound batch maxGraphNodes (w.withTensors tensors).caches := by
      rw [(startForward_caches _ false).1]
      refine startForwardFrom_fails [] _ fun h => fails' tensors ?_
      exact (startForwardFrom_ok_iff hbatch [] fun c hc => (takes' tensors c hc).ranged).mp h
    constructor
    · intro restores
      have restored (ρ : Type) (row : Nat → ρ) : List.Forall₂ (fun c c' => c.Restored c' batch)
          (w.caches.map fun c => c.withTensors [some ⟨row, row⟩])
          (unwound batch maxGraphNodes
            (w.caches.map fun c => c.withTensors [some ⟨row, row⟩])) := by
        have hcaches : (w.withTensors fun _ => [some (⟨row, row⟩ : LayerTensors ρ)]).caches =
            w.caches.map fun c => c.withTensors [some ⟨row, row⟩] :=
          List.ext_getElem? fun i => by simp [withTensors]
        rw [← hcaches, ← result]
        refine restores ρ _ fun c hc => ?_
        rw [hcaches] at hc
        obtain ⟨b, -, rfl⟩ := List.mem_map.mp hc
        exact Nat.le_refl 1
      exact keepsRowsFrom_of_restored hbatch takes restored
    · intro keeps ρ tensors _
      rw [result]
      exact forall₂_restored hbatch (takes' tensors) (keepsRowsFrom_withTensors.mpr keeps)
        (fails' tensors)

end All

/-- Two tokens in a plain cache. -/
def plainTwo (capacity : Nat) : Causal Nat :=
  (((newCausalCache none).init ⟨1, 1⟩ 1 capacity 4).getD (newCausalCache none)).startForward
    ⟨[0, 1], [0, 0]⟩ false 8 |>.1

/-- The first cache takes three tokens more, the second does not. -/
theorem plainTwo_restores : (⟨[plainTwo 8, plainTwo 4], 0⟩ : WrapperCache Nat).Restores
    ⟨[2, 3, 4], [0, 0, 0]⟩ false 8 := by
  have two : Batch.Valid ⟨[0, 1], [0, 0]⟩ := ⟨by decide, by decide, by decide⟩
  refine (WrapperCache.restores_iff ?_ ⟨by decide, by decide, by decide⟩ ?_ (by decide)).mpr ?_
  · exact List.forall_mem_cons.mpr
      ⟨.run ⟨1, 1⟩ 1 8 4 (.causal none) rfl (.single (.startForward _ false 8 two)),
        List.forall_mem_singleton.mpr
          (.run ⟨1, 1⟩ 1 4 4 (.causal none) rfl (.single (.startForward _ false 8 two)))⟩
  · exact List.forall_mem_cons.mpr ⟨Causal.Contiguous.appends ⟨rfl, by decide, by decide⟩,
      List.forall_mem_singleton.mpr (Causal.Contiguous.appends ⟨rfl, by decide, by decide⟩)⟩
  · exact ⟨fun hloc => absurd hloc (by decide), fun _ =>
      ⟨by decide, fun _ _ _ hseq _ => ⟨hseq, rfl⟩, fun _ => ⟨by decide, trivial⟩⟩⟩

/-- Two tokens of sequence 0 stored behind two of sequence 1, which are removed again. -/
def frontRemoved : Causal Nat :=
  let c := ((newCausalCache none).init ⟨1, 1⟩ 1 4 4).getD (newCausalCache none)
  let c := (c.startForward ⟨[0, 1], [1, 1]⟩ false 8).1
  let c := (c.startForward ⟨[0, 1], [0, 0]⟩ false 8).1
  let c := (c.setLayer 0).put 0 (fun j => j + 1) fun j => j + 1
  (c.remove 1 0 maxInt32).1

theorem frontRemoved_reachable : frontRemoved.Reachable :=
  .run ⟨1, 1⟩ 1 4 4 (.causal none) rfl <|
    .head (.startForward ⟨[0, 1], [1, 1]⟩ false 8 ⟨by decide, by decide, by decide⟩) <|
    .head (.startForward ⟨[0, 1], [0, 0]⟩ false 8 ⟨by decide, by decide, by decide⟩) <|
    .head (.setLayer 0) <|
    .head (.put 0 (fun j => j + 1) fun j => j + 1) <|
    .single (.remove 1 0 maxInt32)

/-- Three tokens find no room, and the search for it swaps the rows of sequence 0. -/
theorem failed_swaps : ¬ ∀ (w : WrapperCache Nat) (batch : Batch) (reserve : Bool)
    (maxGraphNodes : Int), (∀ c ∈ w.caches, c.Reachable) → batch.Valid →
    (∀ c ∈ w.caches, c.Contiguous batch) → (w.startForward batch reserve maxGraphNodes).2 ≠ none →
      List.Forall₂ (fun c c' => c.Restored c' batch) w.caches
        (w.startForward batch reserve maxGraphNodes).1.caches := by
  intro h
  have restored := h ⟨[frontRemoved], 0⟩ ⟨[0, 1, 2], [1, 1, 1]⟩ false 8
    (List.forall_mem_singleton.mpr frontRemoved_reachable) ⟨by simp, rfl, by decide⟩
    (List.forall_mem_singleton.mpr ⟨rfl, by decide, by decide⟩) (by decide)
  cases restored with
  | cons head _ =>
    have rows := (head.held 0).rows
    cases rows with
    | cons head _ => cases head with
      | some same =>
        have hkey := same.1
        revert hkey
        decide

end Ecco9.KvCache
