import Ecco9.KvCache.Capacity

/-! `CanResume`: when a sequence that is cut back still has the window of the token that comes
next. -/

universe u

namespace Ecco9.KvCache

open Ecco9.Library

/-! ### Positions -/

/-- The sequence holds the position. -/
def Causal.HasPos (c : Causal κ) (seq p : Int) : Prop :=
  ∃ cell ∈ c.cells, seq ∈ cell.sequences ∧ cell.pos = p

instance (c : Causal κ) (seq p : Int) : Decidable (c.HasPos seq p) :=
  inferInstanceAs (Decidable (∃ _ ∈ _, _))

theorem Causal.hasPos_iff {c : Causal κ} {seq p : Int} :
    c.HasPos seq p ↔ ∃ j, seq ∈ (c.cell j).sequences ∧ (c.cell j).pos = p := by
  constructor
  · rintro ⟨cell, hcell, hseq, hp⟩
    obtain ⟨j, hj, rfl⟩ := List.mem_iff_getElem.mp hcell
    have hget : c.cell j = c.cells[j] := by
      rw [Causal.cell, List.getD_eq_getElem?_getD, List.getElem?_eq_getElem hj, Option.getD_some]
    exact ⟨j, by rwa [hget], by rwa [hget]⟩
  · rintro ⟨j, hseq, hp⟩
    have hj := lt_of_mem_cell hseq
    have hget : c.cell j = c.cells[j] := by
      rw [Causal.cell, List.getD_eq_getElem?_getD, List.getElem?_eq_getElem hj, Option.getD_some]
    exact ⟨c.cells[j], List.getElem_mem hj, by rwa [← hget], by rwa [← hget]⟩

/-- How many positions have been stored for a sequence, those that are evicted by now too. -/
def Causal.numStored (c : Causal κ) (seq : Int) : Int :=
  (c.cells.filter (·.sequences.contains seq)).foldl (fun n cell => max n (cell.pos + 1)) 0

theorem foldl_max_spec {α : Type*} (f : α → Int) (l : List α) (n : Int) :
    n ≤ l.foldl (fun n a => max n (f a)) n ∧ (∀ a ∈ l, f a ≤ l.foldl (fun n a => max n (f a)) n) ∧
      (l.foldl (fun n a => max n (f a)) n = n ∨
        ∃ a ∈ l, l.foldl (fun n a => max n (f a)) n = f a) := by
  induction l generalizing n with
  | nil => exact ⟨Int.le_refl _, nofun, .inl rfl⟩
  | cons a l ih =>
    obtain ⟨hle, hall, hsome⟩ := ih (max n (f a))
    rw [List.foldl_cons]
    refine ⟨(Int.le_max_left ..).trans hle, ?_, ?_⟩
    · intro b hb
      rcases List.mem_cons.mp hb with rfl | hb
      · exact (Int.le_max_right ..).trans hle
      · exact hall b hb
    · rcases hsome with h | ⟨b, hb, h⟩
      · rw [h]
        rcases Int.le_total n (f a) with hna | hna
        · exact .inr ⟨a, by simp, by rw [Int.max_eq_right hna]⟩
        · exact .inl (Int.max_eq_left hna)
      · exact .inr ⟨b, by simp [hb], h⟩

theorem Causal.HasPos.lt {c : Causal κ} {seq p : Int} (h : c.HasPos seq p) :
    p < c.numStored seq := by
  obtain ⟨cell, hcell, hseq, rfl⟩ := h
  have hmem : cell ∈ c.cells.filter (·.sequences.contains seq) :=
    List.mem_filter.mpr ⟨hcell, by simpa using hseq⟩
  have := (foldl_max_spec (fun cell : CacheCell => cell.pos + 1) _ 0).2.1 cell hmem
  unfold numStored
  omega

theorem Causal.numStored_cases (c : Causal κ) (seq : Int) :
    c.numStored seq = 0 ∨ ∃ p, c.HasPos seq p ∧ c.numStored seq = p + 1 := by
  rcases (foldl_max_spec (fun cell : CacheCell => cell.pos + 1)
    (c.cells.filter (·.sequences.contains seq)) 0).2.2 with h | ⟨cell, hcell, h⟩
  · exact .inl h
  · obtain ⟨hcell, hseq⟩ := List.mem_filter.mp hcell
    exact .inr ⟨cell.pos, ⟨cell, hcell, by simpa using hseq, rfl⟩, h⟩

theorem Causal.numStored_nonneg (c : Causal κ) (seq : Int) : 0 ≤ c.numStored seq :=
  (foldl_max_spec (fun cell : CacheCell => cell.pos + 1) _ 0).1

theorem Causal.numStored_mono {c c' : Causal κ} {seq seq' : Int}
    (h : ∀ p, c'.HasPos seq' p → c.HasPos seq p) : c'.numStored seq' ≤ c.numStored seq := by
  rcases c'.numStored_cases seq' with h' | ⟨p, hp, h'⟩
  · rw [h']
    exact c.numStored_nonneg seq
  · rw [h']
    exact (h p hp).lt

/-- The memory before the last position of a sequence is held, with that position. -/
def Causal.Reaches (c : Causal κ) (seq : Int) : Prop :=
  ∀ p, 0 ≤ p → c.numStored seq - 1 - c.swaMemorySize ≤ p → p < c.numStored seq → c.HasPos seq p

theorem Causal.Reaches.congr {c c' : Causal κ} {seq : Int} (reaches : c.Reaches seq)
    (hmemory : c'.swaMemorySize = c.swaMemorySize) (h : ∀ p, c'.HasPos seq p ↔ c.HasPos seq p) :
    c'.Reaches seq := by
  have hnum : c'.numStored seq = c.numStored seq :=
    Int.le_antisymm (numStored_mono fun p => (h p).mp) (numStored_mono fun p => (h p).mpr)
  intro p h0 hlo hhi
  rw [hnum] at hlo hhi
  rw [hmemory] at hlo
  exact (h p).mpr (reaches p h0 hlo hhi)

/-- Positions are 32-bit integers that are not negative. -/
def Causal.Bounded (c : Causal κ) : Prop := ∀ seq p, c.HasPos seq p → 0 ≤ p ∧ p ≤ maxInt32

/-! ### What the operations do to the positions -/

theorem Causal.hasPos_copyPrefix_other {c : Causal κ} (srcSeq len : Int) {dstSeq seq : Int}
    (h : seq ≠ dstSeq) (p : Int) :
    (c.copyPrefix srcSeq dstSeq len).HasPos seq p ↔ c.HasPos seq p := by
  rw [hasPos_iff, hasPos_iff]
  refine exists_congr fun j => ?_
  rw [copyPrefix_cell, copyCell_pos]
  refine and_congr_left fun _ => ?_
  unfold copyCell
  dsimp only
  split <;> split <;> simp [CacheCell.mem_delete, h]

theorem Causal.hasPos_copyPrefix_dst {c : Causal κ} {srcSeq dstSeq len p : Int}
    (h : (c.copyPrefix srcSeq dstSeq len).HasPos dstSeq p) : c.HasPos srcSeq p := by
  rw [hasPos_iff] at h ⊢
  obtain ⟨j, hseq, hp⟩ := h
  rw [copyPrefix_cell] at hseq hp
  rw [copyCell_pos] at hp
  exact ⟨j, mem_copyCell_dst hseq, hp⟩

/-- Up to the end, nothing is moved. -/
theorem removedCell_pos {c : Causal κ} (bounded : c.Bounded) (seq beginIndex : Int) (j : Nat) :
    (removedCell seq beginIndex maxInt32 0 (c.cell j)).pos = (c.cell j).pos := by
  unfold removedCell
  split
  · rename_i hseq
    split
    · rfl
    · split
      · rename_i hge
        have hle := bounded seq _ (Causal.hasPos_iff.mpr ⟨j, hseq, rfl⟩)
        have heq : (c.cell j).pos = maxInt32 := by omega
        dsimp only
        rw [heq]
        decide
      · rfl
  · rfl

theorem Causal.remove_cell {c : Causal κ} (seq beginIndex : Int) (j : Nat) :
    (c.remove seq beginIndex maxInt32).1.cell j = removedCell seq beginIndex maxInt32 0 (c.cell j) ∨
      (c.remove seq beginIndex maxInt32).1.cell j = c.cell j := by
  have hoff : removeOffset beginIndex maxInt32 = 0 := if_neg (by simp)
  rw [cell, remove_cells, hoff]
  rcases removeCells_cell seq beginIndex maxInt32 0 c.cells 0 newRange j with ⟨h, -⟩ | ⟨-, h⟩
  · exact .inl h
  · exact .inr h

theorem Causal.hasPos_of_remove {c : Causal κ} (bounded : c.Bounded) {seq beginIndex s p : Int}
    (h : (c.remove seq beginIndex maxInt32).1.HasPos s p) : c.HasPos s p := by
  rw [hasPos_iff] at h ⊢
  obtain ⟨j, hs, hp⟩ := h
  refine ⟨j, ?_⟩
  rcases remove_cell (c := c) seq beginIndex j with hcell | hcell
  · rw [hcell] at hs hp
    rw [removedCell_pos bounded] at hp
    exact ⟨(removedCell_sublist ..).subset hs, hp⟩
  · rw [hcell] at hs hp
    exact ⟨hs, hp⟩

theorem Causal.hasPos_remove {c : Causal κ} (bounded : c.Bounded) {seq beginIndex s p : Int}
    (h : c.HasPos s p) (hother : s ≠ seq ∨ p < beginIndex) :
    (c.remove seq beginIndex maxInt32).1.HasPos s p := by
  rw [hasPos_iff] at h ⊢
  obtain ⟨j, hs, hp⟩ := h
  refine ⟨j, ?_⟩
  rcases remove_cell (c := c) seq beginIndex j with hcell | hcell
  · rw [hcell, removedCell_pos bounded]
    refine ⟨?_, hp⟩
    unfold removedCell
    split
    · split
      · rename_i hcut
        refine CacheCell.mem_delete.mpr ⟨hs, ?_⟩
        rcases hother with hother | hother
        · exact hother
        · omega
      · split <;> exact hs
    · exact hs
  · rw [hcell]
    exact ⟨hs, hp⟩

theorem Causal.hasPos_of_entries {c c' : Causal κ}
    (h : entries c'.cells (fun _ => ()) = entries c.cells fun _ => ()) (seq p : Int) :
    c'.HasPos seq p ↔ c.HasPos seq p := by
  have key (c : Causal κ) : c.HasPos seq p ↔
      ∃ e ∈ entries c.cells (fun _ => ()), seq ∈ e.1.sequences ∧ e.1.pos = p := by
    rw [hasPos_iff]
    constructor
    · rintro ⟨j, hseq, hp⟩
      have hused : (!(c.cells.getD j {}).free) = true := by
        rw [Bool.not_eq_true']
        exact used_of_mem hseq
      exact ⟨(c.cell j, ()), mem_contents.mpr ⟨j, lt_of_mem_cell hseq, hused, rfl⟩, hseq, hp⟩
    · rintro ⟨e, he, hseq, hp⟩
      obtain ⟨j, -, -, rfl⟩ := mem_contents.mp he
      exact ⟨j, hseq, hp⟩
  rw [key, key, h]

/-- A position that falls out of the memory when the batch comes. -/
def Causal.Evicted (c : Causal κ) (batch : Batch) (seq p : Int) : Prop :=
  c.swaMemorySize ≠ maxInt32 ∧ ∃ low, (c.withBatch batch).lowestPos seq = some low ∧
    p < sub32 low c.swaMemorySize

theorem Causal.hasPos_prepare {c : Causal κ} (ranged : c.Ranged) (batch : Batch)
    (maxGraphNodes : Int) (seq p : Int) :
    (c.prepare batch maxGraphNodes).1.HasPos seq p ↔
      c.HasPos seq p ∧ ¬c.Evicted batch seq p := by
  have here : (c.withBatch batch).Ranged := ranged.congr rfl rfl
  have slid : (c.withBatch batch).updateSlidingWindow.HasPos seq p ↔
      c.HasPos seq p ∧ ¬c.Evicted batch seq p := by
    rw [hasPos_iff, hasPos_iff, ← exists_and_right]
    refine exists_congr fun j => ?_
    rw [updateSlidingWindow_cell here.covered, trimAll_pos]
    by_cases hmem : c.swaMemorySize = maxInt32
    · rw [trimAll, if_pos (show (c.withBatch batch).swaMemorySize = maxInt32 from hmem)]
      have : ¬c.Evicted batch seq p := fun h => h.1 hmem
      simp only [this, not_false_eq_true, and_true]
      exact Iff.rfl
    · rw [mem_trimAll (show (c.withBatch batch).swaMemorySize ≠ maxInt32 from hmem) (here.tracked j seq)]
      have hkeep : (∀ low, (c.withBatch batch).lowestPos seq = some low →
          sub32 low c.swaMemorySize ≤ p) ↔ ¬c.Evicted batch seq p := by
        constructor
        · rintro keep ⟨-, low, hlow, hlt⟩
          exact absurd (keep low hlow) (by omega)
        · intro hev low hlow
          by_contra hlt
          exact hev ⟨hmem, low, hlow, by omega⟩
      constructor
      · rintro ⟨⟨hseq, keep⟩, rfl⟩
        exact ⟨⟨hseq, rfl⟩, hkeep.mp keep⟩
      · rintro ⟨⟨hseq, rfl⟩, hev⟩
        exact ⟨⟨hseq, hkeep.mpr hev⟩, rfl⟩
  have settled := updateSlidingWindow_settled here
  have moved := hasPos_of_entries ((entries_defrag settled maxGraphNodes fun _ => ()).trans
    (entries_applyPairs (fills_fillings _) (Nat.le_refl _))) seq p
  rw [prepare_eq]
  dsimp only
  split
  · exact slid
  · split <;> exact moved.trans slid

theorem Causal.prepare_curLoc_free {c : Causal κ} (ranged : c.Ranged) {batch : Batch}
    {maxGraphNodes : Int} (h : (c.prepare batch maxGraphNodes).2 = none) {j : Nat} {s : Int}
    (hj : s ∈ ((c.prepare batch maxGraphNodes).1.cell j).sequences) :
    ¬((c.prepare batch maxGraphNodes).1.curLoc ≤ j ∧
      j < (c.prepare batch maxGraphNodes).1.curLoc + batch.positions.length) := by
  intro hin
  have hfree := prepare_free ranged batch maxGraphNodes h j hin.1 hin.2
  rw [used_of_mem hj] at hfree
  cases hfree

/-- Where there is room, the batch is stored in the cells found. -/
theorem Causal.startForward_cell {c : Causal κ} (ranged : c.Ranged) {batch : Batch}
    (hlen : batch.sequences.length = batch.positions.length) {maxGraphNodes : Int}
    (h : (c.startForward batch false maxGraphNodes).2 = none) (i : Nat) :
    (c.startForward batch false maxGraphNodes).1.cell i =
      storedCell batch (c.prepare batch maxGraphNodes).1.curLoc
        (c.prepare batch maxGraphNodes).1.cell i := by
  have hprepared := (prepare_spec ranged batch maxGraphNodes).2.2
  rw [startForward, if_neg Bool.false_ne_true] at h ⊢
  split at h
  · cases h
  · rename_i c₁ heq
    rw [heq] at hprepared ⊢
    have prepared := hprepared rfl
    have hzip : (c₁.curPositions.zip c₁.curSequences).length = batch.positions.length := by
      rw [prepared.positions, prepared.sequences, List.length_zip, hlen, Nat.min_self]
    dsimp only
    rw [buildMask_same]
    refine (c₁.storeTokens_cell (c₁.curPositions.zip c₁.curSequences) 0
      (by rw [hzip]; exact prepared.fits) i).trans ?_
    rw [hzip, storedCell, Nat.add_zero]
    by_cases hi : c₁.curLoc ≤ i ∧ i < c₁.curLoc + batch.positions.length
    · rw [if_pos hi, if_pos hi, prepared.positions, prepared.sequences]
      have h1 : i - c₁.curLoc < batch.positions.length := by omega
      have h2 : i - c₁.curLoc < batch.sequences.length := by omega
      simp [h1, h2]
    · rw [if_neg hi, if_neg hi]

/-- `StartForward` finds room when `prepare` does. -/
theorem Causal.prepare_of_startForward {c : Causal κ} {batch : Batch} {maxGraphNodes : Int}
    (h : (c.startForward batch false maxGraphNodes).2 = none) :
    (c.prepare batch maxGraphNodes).2 = none := by
  rw [startForward, if_neg Bool.false_ne_true] at h
  split at h
  · cases h
  · rename_i heq
    rw [heq]

/-- A batch that finds room is held in full, besides what is not evicted. -/
theorem Causal.hasPos_startForward {c : Causal κ} (ranged : c.Ranged) {batch : Batch}
    (hlen : batch.sequences.length = batch.positions.length) {maxGraphNodes : Int}
    (h : (c.startForward batch false maxGraphNodes).2 = none) (seq p : Int) :
    (c.startForward batch false maxGraphNodes).1.HasPos seq p ↔
      (c.HasPos seq p ∧ ¬c.Evicted batch seq p) ∨
        ∃ k < batch.positions.length,
          batch.sequences.getD k 0 = seq ∧ batch.positions.getD k 0 = p := by
  have hcell := startForward_cell ranged hlen h
  have free {j : Nat} {s : Int} := prepare_curLoc_free (j := j) (s := s) ranged
    (prepare_of_startForward h)
  rw [← hasPos_prepare ranged batch maxGraphNodes seq p, hasPos_iff, hasPos_iff]
  constructor
  · rintro ⟨j, hseq, hp⟩
    rw [hcell, storedCell] at hseq hp
    split at hseq
    · rename_i hin
      rw [if_pos hin] at hp
      exact .inr ⟨_, by omega, (List.mem_singleton.mp hseq).symm, hp⟩
    · rename_i hout
      rw [if_neg hout] at hp
      exact .inl ⟨j, hseq, hp⟩
  · rintro (⟨j, hseq, hp⟩ | ⟨k, hk, rfl, rfl⟩)
    · refine ⟨j, ?_⟩
      rw [hcell, storedCell, if_neg (free hseq)]
      exact ⟨hseq, hp⟩
    · refine ⟨(c.prepare batch maxGraphNodes).1.curLoc + k, ?_⟩
      rw [hcell, storedCell, if_pos (by omega), Nat.add_sub_cancel_left]
      exact ⟨List.mem_singleton.mpr rfl, rfl⟩

theorem Causal.hasPos_startForward_full {c : Causal κ} (ranged : c.Ranged) {batch : Batch}
    {maxGraphNodes : Int} (h : (c.startForward batch false maxGraphNodes).2 ≠ none) (seq p : Int) :
    (c.startForward batch false maxGraphNodes).1.HasPos seq p ↔
      c.HasPos seq p ∧ ¬c.Evicted batch seq p := by
  rw [← hasPos_prepare ranged batch maxGraphNodes]
  rw [startForward, if_neg Bool.false_ne_true] at h ⊢
  split at h
  · rename_i heq
    rw [heq]
  · exact absurd rfl h

/-! ### Batches that go on where their sequences end -/

/-- The tokens of a sequence in the batch take the next positions, in order. -/
structure Causal.Contiguous (c : Causal κ) (batch : Batch) : Prop where
  length : batch.sequences.length = batch.positions.length
  next : ∀ k < batch.positions.length, batch.positions.getD k 0 =
    c.numStored (batch.sequences.getD k 0) + (batch.sequences.take k).count (batch.sequences.getD k 0)
  bounded : ∀ k < batch.positions.length, batch.positions.getD k 0 ≤ maxInt32

theorem exists_count {l : List Int} {s : Int} {m : Nat} (h : m < l.count s) :
    ∃ k < l.length, l.getD k 0 = s ∧ (l.take k).count s = m := by
  induction l generalizing m with
  | nil => simp at h
  | cons a l ih =>
    by_cases ha : a = s
    · subst ha
      cases m with
      | zero => exact ⟨0, by simp, rfl, rfl⟩
      | succ m =>
        rw [List.count_cons_self] at h
        obtain ⟨k, hk, hget, hcount⟩ := ih (m := m) (by omega)
        refine ⟨k + 1, by simpa using hk, hget, ?_⟩
        rw [List.take_succ_cons, List.count_cons_self, hcount]
    · rw [List.count_cons_of_ne ha] at h
      obtain ⟨k, hk, hget, hcount⟩ := ih h
      refine ⟨k + 1, by simpa using hk, hget, ?_⟩
      rw [List.take_succ_cons, List.count_cons_of_ne ha, hcount]

theorem Causal.Contiguous.lowest {c : Causal κ} {batch : Batch} (contiguous : c.Contiguous batch)
    {seq low : Int} (h : (c.withBatch batch).lowestPos seq = some low) :
    ∃ k < batch.positions.length,
      batch.sequences.getD k 0 = seq ∧ batch.positions.getD k 0 = low := by
  have hlow : (seq, low) ∈ batch.sequences.zip batch.positions := lowestPos_mem h
  obtain ⟨k, hk, hget⟩ := List.mem_iff_getElem.mp hlow
  have hlen : (batch.sequences.zip batch.positions).length = batch.positions.length := by
    rw [List.length_zip, contiguous.length, Nat.min_self]
  have hk' : k < batch.positions.length := hlen ▸ hk
  have hmem := mem_batch contiguous.length hk'
  rw [List.getElem?_eq_getElem hk] at hmem
  have hpair := (Option.some.inj hmem).symm.trans hget
  exact ⟨k, hk', (Prod.mk.inj hpair).1, (Prod.mk.inj hpair).2⟩

theorem Causal.Contiguous.not_evicted {c : Causal κ} (valid : c.sizes.Valid) {batch : Batch}
    (contiguous : c.Contiguous batch) {seq p n : Int} (hn : ∀ k < batch.positions.length,
      batch.sequences.getD k 0 = seq → batch.positions.getD k 0 < n)
    (hp : n - 1 - c.swaMemorySize ≤ p) : ¬c.Evicted batch seq p := by
  rintro ⟨-, low, hlow, hlt⟩
  obtain ⟨k, hk, hseq, hpos⟩ := contiguous.lowest hlow
  have hmax := contiguous.bounded k hk
  have hnext := contiguous.next k hk
  have hnonneg := c.numStored_nonneg (batch.sequences.getD k 0)
  have hmemory : 0 ≤ c.swaMemorySize := valid.window.trans valid.memory
  have hmemory_le : c.swaMemorySize ≤ maxInt32 := valid.memory_le
  have := hn k hk hseq
  rw [hpos] at this hmax hnext
  rw [sub32_of_range (by unfold maxInt32 at *; omega) (by unfold maxInt32 at *; omega)] at hlt
  omega

/-- What a run keeps. -/
structure Causal.Resumable (z : Sizes) (c : Causal κ) : Prop where
  ranged : c.Ranged
  sizes : c.sizes = z
  bounded : c.Bounded
  reaches : ∀ seq, c.Reaches seq

theorem Causal.Contiguous.reaches {c : Causal κ} (ranged : c.Ranged) (valid : c.sizes.Valid)
    (reaches : ∀ seq, c.Reaches seq) {batch : Batch} (contiguous : c.Contiguous batch)
    {maxGraphNodes : Int} (h : (c.startForward batch false maxGraphNodes).2 = none) (seq : Int) :
    (c.startForward batch false maxGraphNodes).1.Reaches seq := by
  have held := hasPos_startForward ranged contiguous.length h seq
  have hmemory : (c.startForward batch false maxGraphNodes).1.swaMemorySize = c.swaMemorySize :=
    congrArg (·.memory) (startForward_keeps ranged batch false maxGraphNodes).2
  generalize (c.startForward batch false maxGraphNodes).1 = c' at held hmemory
  have hbatch {k : Nat} (hk : k < batch.positions.length) (hseq : batch.sequences.getD k 0 = seq) :
      batch.positions.getD k 0 < c'.numStored seq := ((held _).mpr (.inr ⟨k, hk, hseq, rfl⟩)).lt
  intro p h0 hlo hhi
  rw [hmemory] at hlo
  refine (held p).mpr ?_
  rcases Int.lt_or_le p (c.numStored seq) with hold | hnew
  · -- the sequence held it before, and its last position has not come down
    have hle : c.numStored seq ≤ c'.numStored seq := by
      rcases c.numStored_cases seq with hzero | ⟨q, hq, hnum⟩
      · rw [hzero]
        exact c'.numStored_nonneg seq
      · by_cases hev : c.Evicted batch seq q
        · obtain ⟨-, low, hlow, -⟩ := hev
          obtain ⟨k, hk, hseq, hpos⟩ := contiguous.lowest hlow
          have hnext := contiguous.next k hk
          have := hbatch hk hseq
          rw [hseq] at hnext
          omega
        · have := ((held q).mpr (.inl ⟨hq, hev⟩)).lt
          omega
    exact .inl ⟨reaches seq p h0 (by omega) hold,
      contiguous.not_evicted valid (fun k hk hseq => hbatch hk hseq) hlo⟩
  · -- it is one of the batch
    have hcount : p - c.numStored seq < batch.sequences.count seq := by
      rcases c'.numStored_cases seq with hzero | ⟨q, hq, hnum⟩
      · omega
      · rcases (held q).mp hq with ⟨hq, -⟩ | ⟨k, hk, hseq, hpos⟩
        · have := hq.lt
          omega
        · have hnext := contiguous.next k hk
          have hlt : (batch.sequences.take k).count seq < batch.sequences.count seq := by
            have hk' : k < batch.sequences.length := contiguous.length ▸ hk
            have hget : batch.sequences[k] = seq := by
              rw [← hseq, List.getD_eq_getElem?_getD, List.getElem?_eq_getElem hk', Option.getD_some]
            conv_rhs => rw [← List.take_append_drop k batch.sequences, List.count_append,
              List.drop_eq_getElem_cons hk', hget, List.count_cons_self]
            omega
          rw [hseq] at hnext
          omega
    have hnat : (p - c.numStored seq).toNat < batch.sequences.count seq := by omega
    obtain ⟨k, hk, hseq, htake⟩ := exists_count hnat
    have hk' : k < batch.positions.length := contiguous.length ▸ hk
    have hnext := contiguous.next k hk'
    rw [hseq, htake] at hnext
    exact .inr ⟨k, hk', hseq, by omega⟩

/-! ### Runs -/

/-- Every operation of a run, in the cache that it comes to. -/
def Causal.Along (P : Causal κ → CacheOp → Prop) : Causal κ → List CacheOp → Prop
  | _, [] => True
  | c, op :: ops => P c op ∧ Along P (c.apply op).1 ops

/-- Batches go on where their sequences end, and removals go up to the end. -/
def CacheOp.Continuing (c : Causal κ) : CacheOp → Prop
  | startForward batch reserve _ => reserve = false ∧ c.Contiguous batch
  | copyPrefix _ _ _ => True
  | remove _ _ endIndex => endIndex = maxInt32

/-- A sequence that is cut back, or is not extended although the window has moved, still has the
memory before the position it ends at. -/
def CacheOp.KeepsMemory (c : Causal κ) : CacheOp → Prop
  | startForward batch reserve maxGraphNodes =>
    (c.startForward batch reserve maxGraphNodes).2 = none ∨
      ∀ seq ∈ batch.sequences, (c.startForward batch reserve maxGraphNodes).1.Reaches seq
  | copyPrefix srcSeq dstSeq len => (c.copyPrefix srcSeq dstSeq len).Reaches dstSeq
  | remove seq beginIndex endIndex => (c.remove seq beginIndex endIndex).1.Reaches seq

theorem Causal.Resumable.startForward {z : Sizes} {c : Causal κ} (valid : z.Valid)
    (resumable : c.Resumable z) {batch : Batch} (contiguous : c.Contiguous batch)
    {maxGraphNodes : Int} (keeps : (CacheOp.startForward batch false maxGraphNodes).KeepsMemory c) :
    (c.startForward batch false maxGraphNodes).1.Resumable z := by
  have ranged := resumable.ranged
  obtain ⟨hranged, hsizes⟩ := startForward_keeps ranged batch false maxGraphNodes
  refine ⟨hranged, hsizes.trans resumable.sizes, ?_, ?_⟩
  · intro seq p hp
    by_cases h : (c.startForward batch false maxGraphNodes).2 = none
    · rcases (hasPos_startForward ranged contiguous.length h seq p).mp hp with hp | ⟨k, hk, hseq, hpos⟩
      · exact resumable.bounded seq p hp.1
      · have hnext := contiguous.next k hk
        have hmax := contiguous.bounded k hk
        have := c.numStored_nonneg (batch.sequences.getD k 0)
        omega
    · exact resumable.bounded seq p ((hasPos_startForward_full ranged h seq p).mp hp).1
  · intro seq
    by_cases h : (c.startForward batch false maxGraphNodes).2 = none
    · exact contiguous.reaches ranged (resumable.sizes ▸ valid) resumable.reaches h seq
    · by_cases hseq : seq ∈ batch.sequences
      · exact keeps.resolve_left h seq hseq
      · refine (resumable.reaches seq).congr (congrArg (·.memory) hsizes) fun p => ?_
        rw [hasPos_startForward_full ranged h]
        refine and_iff_left ?_
        rintro ⟨-, low, hlow, -⟩
        exact hseq (mem_of_lowestPos hlow)

theorem Causal.Resumable.apply {z : Sizes} {c : Causal κ} (valid : z.Valid)
    (resumable : c.Resumable z) {op : CacheOp} (continuing : op.Continuing c)
    (keeps : op.KeepsMemory c) : (c.apply op).1.Resumable z := by
  have ranged := resumable.ranged
  have sizes := (apply_sizes ranged op).trans resumable.sizes
  have memory : (c.apply op).1.swaMemorySize = c.swaMemorySize :=
    congrArg (·.memory) (apply_sizes ranged op)
  cases op with
  | startForward batch reserve maxGraphNodes =>
    obtain ⟨rfl, contiguous⟩ := continuing
    exact resumable.startForward valid contiguous keeps
  | copyPrefix srcSeq dstSeq len =>
    refine ⟨copyPrefix_ranged ranged srcSeq dstSeq len, sizes, ?_, ?_⟩
    · intro seq p hp
      by_cases hseq : seq = dstSeq
      · subst hseq
        exact resumable.bounded srcSeq p (hasPos_copyPrefix_dst hp)
      · exact resumable.bounded seq p ((hasPos_copyPrefix_other srcSeq len hseq p).mp hp)
    · intro seq
      by_cases hseq : seq = dstSeq
      · subst hseq
        exact keeps
      · exact (resumable.reaches seq).congr memory (hasPos_copyPrefix_other srcSeq len hseq)
  | remove seq beginIndex endIndex =>
    obtain rfl : endIndex = maxInt32 := continuing
    refine ⟨(remove_keeps ranged seq beginIndex maxInt32).1, sizes, ?_, ?_⟩
    · intro s p hp
      exact resumable.bounded s p (hasPos_of_remove resumable.bounded hp)
    · intro s
      by_cases hs : s = seq
      · subst hs
        exact keeps
      · refine (resumable.reaches s).congr memory fun p => ?_
        exact ⟨hasPos_of_remove resumable.bounded,
          fun hp => hasPos_remove resumable.bounded hp (.inl hs)⟩

theorem Causal.Resumable.after {z : Sizes} {c : Causal κ} (valid : z.Valid)
    (resumable : c.Resumable z) {ops : List CacheOp} (continuing : c.Along CacheOp.Continuing ops)
    (keeps : c.Along CacheOp.KeepsMemory ops) : (c.after ops).Resumable z := by
  induction ops generalizing c with
  | nil => exact resumable
  | cons op ops ih =>
    exact ih (resumable.apply valid continuing.1 keeps.1) continuing.2 keeps.2

theorem Causal.init_resumable {c c₀ : Causal κ} (variant : Variant c) {config : CacheConfig}
    {maxSequences capacity maxBatch : Nat}
    (h : c.init config maxSequences capacity maxBatch = some c₀) :
    c₀.Resumable c₀.sizes ∧ c₀.swaWindowSize ≠ 0 := by
  have ranged := (variant.init h).2
  simp only [init, Option.ite_none_left_eq_some] at h
  obtain ⟨-, h⟩ := h
  have hcells : ∃ n, c₀.cells = List.replicate n {} := ⟨_, by rw [← Option.some.inj h]⟩
  obtain ⟨n, hcells⟩ := hcells
  have free (seq p : Int) : ¬c₀.HasPos seq p := by
    rintro ⟨cell, hcell, hseq, -⟩
    rw [hcells] at hcell
    rw [List.eq_of_mem_replicate hcell] at hseq
    cases hseq
  refine ⟨⟨ranged, rfl, fun seq p hp => absurd hp (free seq p), ?_⟩, ?_⟩
  · intro seq p h0 _ hlt
    rcases c₀.numStored_cases seq with hzero | ⟨q, hq, -⟩
    · omega
    · exact absurd hq (free seq q)
  · rw [← Option.some.inj h]
    dsimp only
    split
    · decide
    · assumption

/-! ### Resuming -/

/-- `CanResume` looks at the highest position alone. -/
theorem Causal.canResume_starts {c : Causal κ} (ranged : c.Ranged) (bounded : c.Bounded)
    {seq pos : Int} (resume : c.canResume seq pos = true) (finite : c.swaMemorySize ≠ maxInt32) :
    ∃ last, last ≤ maxInt32 ∧ (∀ p, c.HasPos seq p → p ≤ last) ∧
      max 0 (sub32 last c.swaMemorySize) ≤ max 0 (sub32 pos c.swaWindowSize) := by
  rw [canResume, if_neg finite] at resume
  split at resume
  · cases resume
  · rename_i r hr
    have spec := foldl_max_spec (fun i => (c.cell i).pos)
      (r.indices.filter fun i => (c.cell i).sequences.contains seq) (-1)
    dsimp only at resume
    split at resume
    · cases resume
    · refine ⟨_, ?_, ?_, of_decide_eq_true resume⟩
      · rcases spec.2.2 with h | ⟨i, hi, h⟩
        · rw [h]
          decide
        · rw [h]
          have hseq := (List.mem_filter.mp hi).2
          exact (bounded seq _ (hasPos_iff.mpr ⟨i, by simpa using hseq, rfl⟩)).2
      · intro p hp
        obtain ⟨i, hseq, rfl⟩ := hasPos_iff.mp hp
        refine spec.2.1 i (List.mem_filter.mpr ⟨?_, by simpa using hseq⟩)
        exact CellRange.mem_indices.mpr (ranged.covered i seq hseq r hr)

theorem Causal.Resumable.window {z : Sizes} {c : Causal κ} (valid : z.Valid)
    (resumable : c.Resumable z) (hwindow : z.window ≠ 0) {seq pos : Int}
    (hpos : pos ≤ c.numStored seq) (resume : c.canResume seq pos = true) {p : Int}
    (hlo : max 0 (pos - c.swaWindowSize) ≤ p) (hhi : p < pos) : c.HasPos seq p := by
  have bounded := resumable.bounded
  obtain ⟨ranged, rfl, -, reaches⟩ := resumable
  have hwindow0 : 0 ≤ c.swaWindowSize := valid.window
  have hwindow' : c.swaWindowSize ≠ 0 := hwindow
  have hmemory : c.swaWindowSize ≤ c.swaMemorySize := valid.memory
  have hmax : c.swaMemorySize ≤ maxInt32 := valid.memory_le
  have hnum : c.numStored seq ≤ maxInt32 + 1 := by
    rcases c.numStored_cases seq with h | ⟨q, hq, h⟩
    · rw [h]
      decide
    · have := (bounded seq q hq).2
      omega
  refine reaches seq p (by omega) ?_ (by omega)
  by_cases finite : c.swaMemorySize = maxInt32
  · omega
  · obtain ⟨last, hlast, hall, hle⟩ := canResume_starts ranged bounded resume finite
    rcases c.numStored_cases seq with h | ⟨q, hq, h⟩
    · omega
    · have := hall q hq
      have := (bounded seq q hq).1
      rw [sub32_of_range (by unfold maxInt32 at *; omega) (by unfold maxInt32 at *; omega),
        sub32_of_range (by unfold maxInt32 at *; omega) (by unfold maxInt32 at *; omega)] at hle
      omega

/-- After a run that cuts no sequence back to where its memory is gone, what `CanResume` admits has
its window after `Remove`. -/
theorem Causal.canResume_window {c c₀ : Causal κ} (variant : Variant c) {config : CacheConfig}
    {maxSequences capacity maxBatch : Nat}
    (h : c.init config maxSequences capacity maxBatch = some c₀) {ops : List CacheOp}
    (continuing : c₀.Along CacheOp.Continuing ops) (keeps : c₀.Along CacheOp.KeepsMemory ops)
    {seq pos : Int} (hpos : pos ≤ (c₀.after ops).numStored seq)
    (resume : (c₀.after ops).canResume seq pos = true) :
    ∀ p, max 0 (pos - (c₀.after ops).swaWindowSize) ≤ p → p < pos →
      ((c₀.after ops).remove seq pos maxInt32).1.HasPos seq p := by
  obtain ⟨start, hwindow⟩ := init_resumable variant h
  have valid := (variant.init h).1
  have resumable := start.after valid continuing keeps
  intro p hlo hhi
  exact hasPos_remove resumable.bounded (resumable.window valid hwindow hpos resume hlo hhi)
    (.inr hhi)

def fiveTokens : List CacheOp :=
  [.startForward ⟨[0, 1, 2], [0, 0, 0]⟩ false 100, .startForward ⟨[3], [0]⟩ false 100,
    .startForward ⟨[4], [0]⟩ false 100]

theorem fiveTokens_continuing : slidingTwo.Along CacheOp.Continuing fiveTokens := by
  refine ⟨⟨rfl, ?_⟩, ⟨rfl, ?_⟩, ⟨rfl, ?_⟩, trivial⟩
  · exact ⟨by decide, by decide, by decide⟩
  · exact ⟨by decide, by decide, by decide⟩
  · exact ⟨by decide, by decide, by decide⟩

theorem fiveTokens_window : ((slidingTwo.after fiveTokens).remove 0 4 maxInt32).1.HasPos 0 2 ∧
    ((slidingTwo.after fiveTokens).remove 0 4 maxInt32).1.HasPos 0 3 := by
  have init : (newSWACache 2 none).init ⟨4, 8⟩ 1 8 4 = some slidingTwo := rfl
  have window (p : Int) (lo : max 0 (4 - (slidingTwo.after fiveTokens).swaWindowSize) ≤ p)
      (hi : p < 4) : ((slidingTwo.after fiveTokens).remove 0 4 maxInt32).1.HasPos 0 p :=
    Causal.canResume_window (.swa 2 none (by decide) (by decide)) init fiveTokens_continuing
      ⟨.inl (by decide), .inl (by decide), .inl (by decide), trivial⟩ (by decide) (by decide) p lo hi
  exact ⟨window 2 (by decide) (by decide), window 3 (by decide) (by decide)⟩

/-- Cut back twice: the first time the window is there, the second time it is not. -/
theorem fiveTokens_cut_twice :
    slidingTwo.Along CacheOp.Continuing (fiveTokens ++ [.remove 0 4 maxInt32]) ∧
      (slidingTwo.after fiveTokens).canResume 0 4 = true ∧
      3 ≤ (slidingTwo.after (fiveTokens ++ [.remove 0 4 maxInt32])).numStored 0 ∧
      (slidingTwo.after (fiveTokens ++ [.remove 0 4 maxInt32])).canResume 0 3 = true ∧
      ((slidingTwo.after (fiveTokens ++ [.remove 0 4 maxInt32])).remove 0 3 maxInt32).2 = none ∧
      (slidingTwo.after (fiveTokens ++ [.remove 0 4 maxInt32])).swaWindowSize = 2 ∧
      ¬((slidingTwo.after (fiveTokens ++ [.remove 0 4 maxInt32])).remove 0 3 maxInt32).1.HasPos
        0 1 := by
  refine ⟨?_, by decide, by decide, by decide, by decide, by decide, by decide⟩
  refine ⟨⟨rfl, ?_⟩, ⟨rfl, ?_⟩, ⟨rfl, ?_⟩, rfl, trivial⟩
  · exact ⟨by decide, by decide, by decide⟩
  · exact ⟨by decide, by decide, by decide⟩
  · exact ⟨by decide, by decide, by decide⟩

end Ecco9.KvCache
