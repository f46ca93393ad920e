import Ecco9.KvCache.Reachable

/-! The mask built for a batch against the whole cache. -/

universe u

namespace Ecco9.KvCache

open Ecco9.Library

/-! ### Runs of the cache -/

/-- The caches the constructors make. -/
inductive Variant : Causal κ → Prop
  | causal (shift) : Variant (newCausalCache shift)
  | swa (window shift) : 0 ≤ window → window ≤ maxInt32 → Variant (newSWACache window shift)
  | swaMem (window memory shift) : 0 ≤ window → window ≤ maxInt32 → memory ≤ maxInt32 →
      Variant (newSWAMemCache window memory shift)
  | chunked (chunk shift) : 0 ≤ chunk → chunk ≤ maxInt32 →
      Variant (newChunkedAttentionCache chunk shift)

inductive CacheStep : Causal κ → Causal κ → Prop
  | startForward {c : Causal κ} (batch reserve maxGraphNodes) : batch.Valid →
      CacheStep c (c.startForward batch reserve maxGraphNodes).1
  | copyPrefix {c : Causal κ} (srcSeq dstSeq len) : srcSeq ≠ dstSeq →
      CacheStep c (c.copyPrefix srcSeq dstSeq len)
  | remove {c : Causal κ} (seq beginIndex endIndex) :
      CacheStep c (c.remove seq beginIndex endIndex).1
  | defrag {c : Causal κ} (maxGraphNodes) : CacheStep c (c.defrag maxGraphNodes)
  | setCausal {c : Causal κ} (ctx except) : CacheStep c (c.setCausal ctx except)
  | setLayer {c : Causal κ} (layer) : CacheStep c (c.setLayer layer)
  | put {c : Causal κ} (zero key value) : CacheStep c (c.put zero key value)

inductive Causal.Reachable : Causal κ → Prop
  | run {c c₀ c' : Causal κ} (config maxSequences capacity maxBatch) : Variant c →
      c.init config maxSequences capacity maxBatch = some c₀ →
      Relation.ReflTransGen CacheStep c₀ c' → Reachable c'

/-! ### Padding -/

theorem dvd_roundUp (length pad : Nat) : pad ∣ roundUp length pad := Nat.dvd_mul_left _ _

theorem le_roundUp (length : Nat) {pad : Nat} (h : 0 < pad) : length ≤ roundUp length pad := by
  have := Nat.lt_div_mul_add (a := length + pad - 1) h
  unfold roundUp
  omega

theorem roundUp_le {length n pad : Nat} (hpad : 0 < pad) (hdvd : pad ∣ n) (h : length ≤ n) :
    roundUp length pad ≤ n := by
  obtain ⟨k, rfl⟩ := hdvd
  rw [roundUp, Nat.mul_comm]
  apply Nat.mul_le_mul_left
  rw [Nat.div_le_iff_le_mul_add_pred hpad]
  omega

theorem roundDown_le (length pad : Nat) : roundDown length pad ≤ length :=
  Nat.div_mul_le_self length pad

theorem CellRange.Has.pad {r : CellRange} {j p : Nat} (h : r.Has j) (hp : 0 < p) :
    (r.pad p).Has j := by
  have := le_roundUp (r.max + 1) hp
  have h2 := h.2
  refine ⟨(roundDown_le _ _).trans h.1, ?_⟩
  change j ≤ roundUp (r.max + 1) p - 1
  omega

theorem CellRange.pad_max_lt {r : CellRange} {n p : Nat} (hp : 0 < p) (hdvd : p ∣ n)
    (h : r.max < n) : (r.pad p).max < n := by
  have := roundUp_le hp hdvd (show r.max + 1 ≤ n from h)
  change roundUp (r.max + 1) p - 1 < n
  omega

/-! ### The sizes stay valid -/

theorem Causal.buildMask_same (c : Causal κ) : c.buildMask = { c with
    curCellRange := c.curCellRange.pad c.config.cachePadding, curMask := c.buildMask.curMask } := by
  unfold buildMask
  dsimp only
  split <;> rfl

theorem Causal.buildMask_sizes (c : Causal κ) : c.buildMask.sizes = c.sizes := by
  rw [buildMask_same]
  rfl

theorem Causal.buildMask_ranged {c : Causal κ} (ranged : c.Ranged) : c.buildMask.Ranged := by
  rw [buildMask_same]
  exact ranged.congr rfl rfl

theorem Variant.init {c c₀ : Causal κ} (variant : Variant c) {config : CacheConfig}
    {maxSequences capacity maxBatch : Nat}
    (h : c.init config maxSequences capacity maxBatch = some c₀) :
    c₀.sizes.Valid ∧ c₀.Ranged := by
  have bounds : 0 ≤ c.swaWindowSize ∧ c.swaWindowSize ≤ maxInt32 ∧ c.swaMemorySize ≤ maxInt32 ∧
      c.chunkSize ≤ maxInt32 := by
    have hmax : (0 : Int) ≤ maxInt32 := by decide
    cases variant with
    | causal => exact ⟨Int.le_refl _, hmax, hmax, hmax⟩
    | swa _ _ h1 h2 => exact ⟨h1, h2, hmax, hmax⟩
    | swaMem _ _ _ h1 h2 h3 => exact ⟨h1, h2, h3, hmax⟩
    | chunked _ _ _ h2 => exact ⟨Int.le_refl _, hmax, hmax, h2⟩
  obtain ⟨w1, w2, m2, ch⟩ := bounds
  simp only [Causal.init, Option.ite_none_left_eq_some] at h
  obtain ⟨hmem, heq⟩ := h
  obtain rfl := Option.some.inj heq
  constructor
  · constructor
    · simp only [Causal.sizes]
      split <;> omega
    · simp only [Causal.sizes]
      split <;> omega
    · simp only [Causal.sizes, List.length_replicate]
      exact dvd_roundUp _ _
    · simp only [Causal.sizes]
      split
      · decide
      · exact w1
    · exact Int.not_lt.mp hmem
    · simp only [Causal.sizes]
      repeat' split
      all_goals first | exact Int.le_refl _ | assumption
    · exact ch
  · apply Causal.ranged_of_has
    · intro j s hs
      have hcell (n : Nat) : (List.replicate n ({} : CacheCell)).getD j {} = {} := by
        rw [List.getD_eq_getElem?_getD, List.getElem?_replicate]
        split <;> rfl
      rw [Causal.cell, hcell] at hs
      cases hs
    · intro s r hr
      cases hr

theorem Causal.Prepared.sizes {c : Causal κ} {batch : Batch} (prepared : c.Prepared batch) :
    c.storeBatch.sizes = c.sizes :=
  prepared.stored.setup.sizes prepared.stored.length

theorem Causal.startForward_keeps {c : Causal κ} (ranged : c.Ranged) (batch : Batch)
    (reserve : Bool) (maxGraphNodes : Int) :
    (c.startForward batch reserve maxGraphNodes).1.Ranged ∧
      (c.startForward batch reserve maxGraphNodes).1.sizes = c.sizes := by
  unfold Causal.startForward
  split
  · dsimp only
    refine ⟨Causal.buildMask_ranged ?_, Causal.buildMask_sizes _⟩
    exact ranged.congr rfl rfl
  · obtain ⟨hranged, hsizes, hprepared⟩ := Causal.prepare_spec ranged batch maxGraphNodes
    split
    · rename_i c₁ err heq
      rw [heq] at hranged hsizes
      exact ⟨hranged, hsizes⟩
    · rename_i c₁ heq
      rw [heq] at hsizes hprepared
      have prepared := hprepared rfl
      refine ⟨Causal.buildMask_ranged prepared.stored.ranged, ?_⟩
      exact (Causal.buildMask_sizes _).trans (prepared.sizes.trans hsizes)

theorem Causal.copyPrefix_sizes (c : Causal κ) (srcSeq dstSeq len : Int) :
    (c.copyPrefix srcSeq dstSeq len).sizes = c.sizes := by
  simp [Causal.copyPrefix, Causal.sizes]

theorem CacheStep.keeps {c c' : Causal κ} (step : CacheStep c c') (ranged : c.Ranged) :
    c'.Ranged ∧ c'.sizes = c.sizes := by
  cases step with
  | startForward batch reserve maxGraphNodes _ =>
    exact Causal.startForward_keeps ranged batch reserve maxGraphNodes
  | copyPrefix srcSeq dstSeq len _ =>
    exact ⟨Causal.copyPrefix_ranged ranged srcSeq dstSeq len,
      Causal.copyPrefix_sizes c srcSeq dstSeq len⟩
  | remove seq beginIndex endIndex => exact Causal.remove_keeps ranged seq beginIndex endIndex
  | defrag maxGraphNodes =>
    exact ⟨(Causal.defrag_ready ranged maxGraphNodes).ranged,
      Causal.defrag_sizes ranged maxGraphNodes⟩
  | setCausal ctx except =>
    unfold Causal.setCausal
    split
    · exact ⟨ranged, rfl⟩
    · dsimp only
      split
      · exact ⟨Causal.buildMask_ranged (ranged.congr rfl rfl), Causal.buildMask_sizes _⟩
      · exact ⟨ranged.congr rfl rfl, rfl⟩
  | setLayer layer => exact ⟨ranged.congr rfl rfl, rfl⟩
  | put zero key value => exact ⟨ranged.congr rfl rfl, rfl⟩

theorem Causal.Reachable.keeps {c : Causal κ} (reachable : c.Reachable) :
    c.sizes.Valid ∧ c.Ranged := by
  cases reachable with
  | run config maxSequences capacity maxBatch variant hinit run =>
    apply run_invariant (I := fun c : Causal κ => c.sizes.Valid ∧ c.Ranged) _ run
      (variant.init hinit)
    rintro c c' ⟨valid, ranged⟩ step
    obtain ⟨hranged, hsizes⟩ := step.keeps ranged
    rw [hsizes]
    exact ⟨valid, hranged⟩

/-! ### What the mask leaves visible -/

/-- Row `i` of the mask leaves cell `j` unmasked. -/
def Causal.Unmasked (c : Causal κ) (i j : Nat) : Prop :=
  c.curCellRange.Has j ∧ ((c.curMask.getD i []).getD (j - c.curCellRange.min) true) = false

/-- Cell `j` is one that token `i` of the batch should see, wherever it lies in the cache. -/
structure Causal.Visible (c : Causal κ) (batch : Batch) (i j : Nat) : Prop where
  cell : j < c.cells.length
  sequence : batch.sequences.getD i 0 ∈ (c.cell j).sequences
  causal : i ∈ c.except ∨ (c.cell j).pos ≤ batch.positions.getD i 0
  window : batch.positions.getD i 0 - c.swaWindowSize ≤ (c.cell j).pos
  chunk : 0 < c.chunkSize →
    batch.positions.getD i 0 - (batch.positions.getD i 0).tmod c.chunkSize ≤ (c.cell j).pos

/-- A cache whose mask fits the batch; `unpadded` is the range before padding. -/
structure Causal.Masks (c : Causal κ) (batch : Batch) (unpadded : CellRange) : Prop where
  rows : c.curMask.length = roundUp batch.positions.length c.config.maskBatchPadding
  columns : ∀ row ∈ c.curMask, row.length = c.curCellRange.max + 1 - c.curCellRange.min
  range : c.curCellRange.max < c.cells.length
  visible : ∀ i < batch.positions.length, ∀ j, c.Unmasked i j ↔ c.Visible batch i j
  padRows : ∀ i, batch.positions.length ≤ i → ∀ j, ¬c.Unmasked i j
  padColumns : ∀ i j, ¬unpadded.Has j → ¬c.Unmasked i j

/-- The range of the batch holds everything its tokens should see. -/
structure Causal.BatchReady (c : Causal κ) (batch : Batch) (unpadded : CellRange) : Prop where
  valid : c.sizes.Valid
  reserve : c.curReserve = false
  size : c.curBatchSize = batch.positions.length
  positions : c.curPositions = batch.positions
  sequences : c.curSequences = batch.sequences
  curMax : c.curCellRange.max < c.cells.length
  padding : ∀ j, unpadded.Has j → c.curCellRange.Has j
  reach : ∀ i < batch.positions.length, ∀ j, batch.sequences.getD i 0 ∈ (c.cell j).sequences →
    batch.positions.getD i 0 - c.swaWindowSize ≤ (c.cell j).pos → unpadded.Has j

theorem Causal.masked_iff {c : Causal κ} {batch : Batch} {unpadded : CellRange}
    (ready : c.BatchReady batch unpadded) (hbatch : batch.Valid) {i j : Nat}
    (hi : i < batch.positions.length) (hj : j < c.cells.length) :
    c.masked i j = false ↔ c.Visible batch i j := by
  have hpos := hbatch.positions (batch.positions.getD i 0) (by simp [hi])
  have hwin := ready.valid.window
  have hmem := ready.valid.memory
  have hmax := ready.valid.memory_le
  have hchunk := ready.valid.chunk
  simp only [Causal.sizes] at hwin hmem hmax hchunk
  unfold maxInt32 at hpos hmax hchunk
  simp only [masked, ready.positions, ready.sequences, Bool.or_eq_false_iff,
    Bool.and_eq_false_iff, Bool.not_eq_false', decide_eq_false_iff_not,
    List.contains_iff_mem]
  rw [sub32_of_range (b := c.swaWindowSize) (by omega) (by omega)]
  have htmod (h : 0 < c.chunkSize) : sub32 (batch.positions.getD i 0)
      ((batch.positions.getD i 0).tmod c.chunkSize) =
        batch.positions.getD i 0 - (batch.positions.getD i 0).tmod c.chunkSize := by
    have h1 := Int.tmod_nonneg c.chunkSize hpos.1
    have h2 := Int.tmod_lt_of_pos (batch.positions.getD i 0) h
    exact sub32_of_range (by omega) (by omega)
  constructor
  · rintro ⟨⟨⟨hseq, hcausal⟩, hch⟩, hw⟩
    refine ⟨hj, hseq, ?_, by omega, ?_⟩
    · rcases hcausal with h | h
      · exact .inl h
      · exact .inr (by omega)
    · intro h
      rcases hch with hneg | hge
      · exact absurd h hneg
      · rw [htmod h] at hge
        omega
  · rintro ⟨-, hseq, hcausal, hw, hch⟩
    refine ⟨⟨⟨hseq, ?_⟩, ?_⟩, by omega⟩
    · rcases hcausal with h | h
      · exact .inl h
      · exact .inr (by omega)
    · by_cases h : 0 < c.chunkSize
      · refine .inr ?_
        rw [htmod h]
        have := hch h
        omega
      · exact .inl h

theorem CellRange.getD_indices {r : CellRange} {j : Nat} (h : r.Has j) {f : Nat → Bool} :
    (r.indices.map f).getD (j - r.min) true = f j := by
  have h1 := h.1
  have h2 := h.2
  rw [List.getD_eq_getElem?_getD, List.getElem?_map, indices, List.getElem?_range']
  · rw [show r.min + 1 * (j - r.min) = j by omega]
    rfl
  · omega

theorem Causal.BatchReady.pad {c : Causal κ} {batch : Batch} {unpadded : CellRange}
    (ready : c.BatchReady batch unpadded) : c.buildMask.BatchReady batch unpadded := by
  have hpad := ready.valid.cachePadding
  have range := CellRange.pad_max_lt hpad ready.valid.padded ready.curMax
  have has (j : Nat) (h : unpadded.Has j) : (c.curCellRange.pad c.config.cachePadding).Has j :=
    (ready.padding j h).pad hpad
  rw [buildMask_same]
  exact ⟨ready.valid, ready.reserve, ready.size, ready.positions, ready.sequences, range, has,
    ready.reach⟩

theorem Causal.buildMask_curMask {c : Causal κ} (h : c.curReserve = false) :
    c.buildMask.curMask = (List.range (roundUp c.curBatchSize c.config.maskBatchPadding)).map
      fun i => c.buildMask.curCellRange.indices.map fun j =>
        if i < c.curBatchSize then c.masked i j else true := by
  unfold buildMask
  dsimp only
  rw [if_neg (by rw [h]; exact Bool.false_ne_true)]
  rfl

theorem Causal.buildMask_unmasked {c : Causal κ} (h : c.curReserve = false)
    (hpad : 0 < c.config.maskBatchPadding) {i j : Nat} : c.buildMask.Unmasked i j ↔
      i < c.curBatchSize ∧ c.buildMask.curCellRange.Has j ∧ c.masked i j = false := by
  have hround := le_roundUp c.curBatchSize hpad
  rw [Unmasked, buildMask_curMask h, List.getD_eq_getElem?_getD (i := i), List.getElem?_map]
  by_cases hi : i < roundUp c.curBatchSize c.config.maskBatchPadding
  · rw [List.getElem?_range hi, Option.map_some, Option.getD_some]
    by_cases hj : c.buildMask.curCellRange.Has j
    · rw [CellRange.getD_indices hj]
      by_cases hsize : i < c.curBatchSize
      · simp [hj, hsize]
      · simp [hsize]
    · simp [hj]
  · rw [List.getElem?_eq_none (by simpa using hi)]
    simp only [Option.map_none, Option.getD_none, List.getD_nil, Bool.true_eq_false, and_false,
      false_iff]
    omega

theorem Causal.BatchReady.masks {c : Causal κ} {batch : Batch} {unpadded : CellRange}
    (ready : c.BatchReady batch unpadded) (hbatch : batch.Valid) :
    c.buildMask.Masks batch unpadded := by
  have padded := ready.pad
  have unmasked {i j : Nat} := buildMask_unmasked (i := i) (j := j) ready.reserve
    ready.valid.maskBatchPadding
  rw [ready.size] at unmasked
  have masked_iff {i j : Nat} (hi : i < batch.positions.length) (hj : j < c.cells.length) :
      c.masked i j = false ↔ c.buildMask.Visible batch i j := by
    rw [Causal.masked_iff ready hbatch hi hj, buildMask_same]
    exact ⟨fun ⟨h1, h2, h3, h4, h5⟩ => ⟨h1, h2, h3, h4, h5⟩,
      fun ⟨h1, h2, h3, h4, h5⟩ => ⟨h1, h2, h3, h4, h5⟩⟩
  have lt_of_has {j : Nat} (h : c.buildMask.curCellRange.Has j) : j < c.cells.length := by
    have h1 := padded.curMax
    have h2 := h.2
    have cells : c.buildMask.cells = c.cells := by rw [buildMask_same]
    rw [cells] at h1
    exact h2.trans_lt h1
  have visible (i : Nat) (hi : i < batch.positions.length) (j : Nat) :
      c.buildMask.Unmasked i j ↔ c.buildMask.Visible batch i j := by
    rw [unmasked]
    constructor
    · rintro ⟨-, hj, hmask⟩
      exact (masked_iff hi (lt_of_has hj)).mp hmask
    · intro h
      have hj := padded.padding j (padded.reach i hi j h.sequence h.window)
      exact ⟨hi, hj, (masked_iff hi (lt_of_has hj)).mpr h⟩
  refine ⟨?_, ?_, padded.curMax, visible, ?_, ?_⟩
  · rw [buildMask_curMask ready.reserve, List.length_map, List.length_range, ready.size, buildMask_same]
  · intro row hrow
    rw [buildMask_curMask ready.reserve] at hrow
    obtain ⟨i, -, rfl⟩ := List.mem_map.mp hrow
    rw [List.length_map, CellRange.indices, List.length_range']
  · intro i hi j h
    exact Nat.not_lt.mpr hi (unmasked.mp h).1
  · intro i j hj h
    have hi := (unmasked.mp h).1
    have hvis := (visible i hi j).mp h
    exact hj (padded.reach i hi j hvis.sequence hvis.window)

theorem Causal.BatchReady.setCausal {c : Causal κ} {batch : Batch} {unpadded : CellRange}
    (ready : c.BatchReady batch unpadded) (except : List Nat) :
    (c.setCausal true except).BatchReady batch unpadded := by
  unfold Causal.setCausal
  split
  · exact ready
  · apply Causal.BatchReady.pad
    exact ⟨ready.valid, ready.reserve, ready.size, ready.positions, ready.sequences, ready.curMax,
      ready.padding, ready.reach⟩

theorem Causal.BatchReady.setCausal_masks {c : Causal κ} {batch : Batch} {unpadded : CellRange}
    (ready : c.BatchReady batch unpadded) (hbatch : batch.Valid) (masks : c.Masks batch unpadded)
    (except : List Nat) : (c.setCausal true except).Masks batch unpadded := by
  unfold Causal.setCausal
  split
  · exact masks
  · apply Causal.BatchReady.masks _ hbatch
    exact ⟨ready.valid, ready.reserve, ready.size, ready.positions, ready.sequences, ready.curMax,
      ready.padding, ready.reach⟩

/-! ### The batch of `StartForward` -/

theorem getD_zip_mem {l₁ l₂ : List Int} (h : l₁.length = l₂.length) {i : Nat} (hi : i < l₁.length) :
    (l₁.getD i 0, l₂.getD i 0) ∈ l₁.zip l₂ := by
  rw [List.mem_iff_getElem]
  refine ⟨i, by simp [← h, hi], ?_⟩
  simp [hi, h ▸ hi]

theorem Causal.Prepared.ready' {c : Causal κ} {batch : Batch} (prepared : c.Prepared batch)
    (valid : c.sizes.Valid) (hbatch : batch.Valid) :
    c.storeBatch.BatchReady batch c.storeBatch.curCellRange := by
  have stored := prepared.stored
  have nonempty := List.length_pos_iff.mpr hbatch.nonempty
  have fits := prepared.fits
  have hwin : c.storeBatch.swaWindowSize = c.swaWindowSize := by rw [stored.setup]
  refine ⟨?_, ?_, ?_, ?_, ?_, ?_, fun _ h => h, ?_⟩
  · rwa [prepared.sizes]
  · rw [stored.setup]
    exact prepared.reserve
  · rw [stored.setup]
    exact prepared.size
  · rw [stored.setup]
    exact prepared.positions
  · rw [stored.setup]
    exact prepared.sequences
  · have := stored.curMax
    rw [stored.length]
    omega
  · intro i hi j hseq hpos
    rcases stored.cell j with hold | ⟨e, he, rfl⟩
    · -- an older cell, which the window of the lowest position has reached
      rw [hold] at hseq hpos
      apply stored.has
      have hmem : (batch.sequences.getD i 0, batch.positions.getD i 0) ∈
          c.curSequences.zip c.curPositions := by
        rw [prepared.sequences, prepared.positions]
        exact getD_zip_mem hbatch.sequences (by rwa [hbatch.sequences])
      obtain ⟨low, hlow, hle⟩ := lowestPos_le hmem
      have hrange := hbatch.positions (batch.positions.getD i 0) (by simp [hi])
      have hlowpos := lowestPos_mem hlow
      rw [prepared.sequences, prepared.positions] at hlowpos
      have hlow0 := hbatch.positions low (List.of_mem_zip hlowpos).2
      have h1 := valid.window
      have h2 := valid.memory
      have h3 := valid.memory_le
      simp only [Causal.sizes] at h1 h2 h3
      rw [hwin] at hpos
      unfold maxInt32 at hrange hlow0 h3
      apply prepared.ready.sees _ (List.of_mem_zip hmem).1 j hseq low hlow
      rw [sub32_of_range (by omega) (by omega)]
      omega
    · exact stored.new e he

/-- After a successful `StartForward`, whatever `SetCausal` excepts, each token of the batch sees
exactly the cells of the whole cache that it should. -/
theorem Causal.Reachable.startForward_masks {c c' : Causal κ} (reachable : c.Reachable)
    {batch : Batch} (hbatch : batch.Valid) {maxGraphNodes : Int}
    (h : c.startForward batch false maxGraphNodes = (c', none)) (excepts : List (List Nat)) :
    (excepts.foldl (fun c except => c.setCausal true except) c').Masks batch
      (c.prepare batch maxGraphNodes).1.storeBatch.curCellRange := by
  obtain ⟨valid, ranged⟩ := reachable.keeps
  obtain ⟨-, hsizes, hprepared⟩ := prepare_spec ranged batch maxGraphNodes
  rw [startForward, if_neg Bool.false_ne_true] at h
  split at h
  · cases h
  · rename_i c₁ heq
    rw [heq] at hsizes hprepared ⊢
    obtain ⟨rfl, -⟩ := Prod.mk.inj h
    have ready := (hprepared rfl).ready' (by rwa [hsizes]) hbatch
    have start : c₁.storeBatch.buildMask.BatchReady batch c₁.storeBatch.curCellRange ∧
        c₁.storeBatch.buildMask.Masks batch c₁.storeBatch.curCellRange :=
      ⟨ready.pad, ready.masks hbatch⟩
    revert start
    generalize c₁.storeBatch.buildMask = c''
    intro start
    induction excepts generalizing c'' with
    | nil => exact start.2
    | cons except excepts ih =>
      apply ih
      exact ⟨start.1.setCausal except, start.1.setCausal_masks hbatch start.2 except⟩

/-- A sliding window over two positions, in a cache padded to four cells. -/
def slidingTwo : Causal Nat :=
  ((newSWACache 2 none).init ⟨4, 8⟩ 1 8 4).getD (newSWACache 2 none)

/-- The fourth token of a sequence, when the first three have been stored. -/
theorem slidingTwo_masks :
    (([[0]] : List (List Nat)).foldl (fun c except => c.setCausal true except)
      ((slidingTwo.startForward ⟨[0, 1, 2], [0, 0, 0]⟩ false 100).1.startForward ⟨[3], [0]⟩ false
        100).1).Masks ⟨[3], [0]⟩
      ((slidingTwo.startForward ⟨[0, 1, 2], [0, 0, 0]⟩ false 100).1.prepare ⟨[3], [0]⟩
        100).1.storeBatch.curCellRange := by
  have three : Batch.Valid ⟨[0, 1, 2], [0, 0, 0]⟩ := ⟨by decide, by decide, by decide⟩
  have reachable : (slidingTwo.startForward ⟨[0, 1, 2], [0, 0, 0]⟩ false 100).1.Reachable := by
    have init : (newSWACache 2 none).init ⟨4, 8⟩ 1 8 4 = some slidingTwo := rfl
    exact .run _ _ _ _ (.swa 2 none (by decide) (by decide)) init
      (.single (.startForward _ false 100 three))
  apply reachable.startForward_masks ⟨by decide, by decide, by decide⟩
  exact Prod.ext rfl (by decide)

end Ecco9.KvCache
