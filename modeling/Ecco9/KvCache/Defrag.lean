import Ecco9.KvCache.Causal

/-! What `defrag` does to the cells and to the rows.

The loop fills the holes at the front of the cache, in order, with the cells in use at the back,
last one first.  `fillPairs` lists these fillings and `mergePairs` the blocks the loop copies for
them. -/

universe u

namespace Ecco9.KvCache

open Ecco9.Library

/-- The fillings `(dst, src)` for the holes among `dsts`, with cells taken from `src` downwards. -/
def fillPairs (cells : List CacheCell) : Nat → List Nat → List (Nat × Nat)
  | _, [] => []
  | src, dst :: dsts =>
    if dst < src then
      if (cells.getD dst {}).free then
        match findSrc cells dst src with
        | some s => (dst, s) :: fillPairs cells (s - 1) dsts
        | none => []
      else fillPairs cells src dsts
    else []

def applyPair (cells : List CacheCell) (p : Nat × Nat) : List CacheCell :=
  (cells.set p.1 (cells.getD p.2 {})).set p.2 {}

def applyPairs (cells : List CacheCell) (ps : List (Nat × Nat)) : List CacheCell :=
  ps.foldl applyPair cells

/-- The filling `p` extends the block `m` downwards at its source and upwards at its target. -/
def Move.joins (m : Move) (p : Nat × Nat) : Prop := p.2 + m.length = m.src ∧ p.1 = m.dst + m.length

instance (m : Move) (p : Nat × Nat) : Decidable (m.joins p) := inferInstanceAs (Decidable (_ ∧ _))

/-- The blocks copied for a list of fillings, after a block that is still held back. -/
def mergePairs : Option Move → List (Nat × Nat) → List Move
  | none, [] => []
  | some m, [] => [m]
  | none, p :: ps => mergePairs (some ⟨p.2, p.1, 1⟩) ps
  | some m, p :: ps =>
    if m.joins p then mergePairs (some ⟨p.2, m.dst, m.length + 1⟩) ps
    else m :: mergePairs (some ⟨p.2, p.1, 1⟩) ps

/-! ### The search for a source -/

theorem findSrc_some {cells : List CacheCell} {dst src s : Nat}
    (h : findSrc cells dst src = some s) :
    dst < s ∧ s ≤ src ∧ (cells.getD s {}).free = false ∧
      ∀ i, s < i → i ≤ src → (cells.getD i {}).free = true := by
  induction src with
  | zero => simp [findSrc] at h
  | succ src ih =>
    simp only [findSrc] at h
    split at h
    · split at h
      · rename_i hfree
        obtain ⟨h1, h2, h3, h4⟩ := ih h
        refine ⟨h1, by omega, h3, fun i hi hi' => ?_⟩
        by_cases hlast : i = src + 1
        · rwa [hlast]
        · exact h4 i hi (by omega)
      · rename_i hgt hfree
        obtain rfl := Option.some.inj h
        exact ⟨hgt, Nat.le_refl _, by simpa using hfree, fun i _ _ => by omega⟩
    · cases h

theorem findSrc_congr {cells cells' : List CacheCell} {dst src : Nat}
    (h : ∀ i, dst < i → i ≤ src → (cells'.getD i {}).free = (cells.getD i {}).free) :
    findSrc cells' dst src = findSrc cells dst src := by
  induction src with
  | zero => rfl
  | succ src ih =>
    simp only [findSrc]
    split
    · rw [h (src + 1) ‹_› (Nat.le_refl _), ih fun i hi hi' => h i hi (by omega)]
    · rfl

theorem fillPairs_congr {cells cells' : List CacheCell} {src lo : Nat} {dsts : List Nat}
    (hlo : ∀ d ∈ dsts, lo ≤ d)
    (h : ∀ i, lo ≤ i → i ≤ src → (cells'.getD i {}).free = (cells.getD i {}).free) :
    fillPairs cells' src dsts = fillPairs cells src dsts := by
  induction dsts generalizing src with
  | nil => rfl
  | cons dst dsts ih =>
    have hd := hlo dst (by simp)
    have hrest : ∀ d ∈ dsts, lo ≤ d := fun d hd => hlo d (by simp [hd])
    simp only [fillPairs]
    split
    · rw [h dst hd (by omega), findSrc_congr fun i hi hi' => h i (by omega) hi']
      split
      · split
        · rename_i s hs
          rw [ih hrest fun i hi hi' => h i hi (by have := (findSrc_some hs).2.1; omega)]
        · rfl
      · exact ih hrest h
    · rfl

/-- A free cell at the source end is passed over. -/
theorem fillPairs_free_src {cells : List CacheCell} {src : Nat} {dsts : List Nat}
    (sorted : dsts.Pairwise (· < ·)) (hfree : (cells.getD src {}).free = true) :
    fillPairs cells src dsts = fillPairs cells (src - 1) dsts := by
  cases src with
  | zero => rfl
  | succ src =>
    induction dsts with
    | nil => rfl
    | cons dst dsts ih =>
      have hsorted := List.pairwise_cons.mp sorted
      simp only [fillPairs, Nat.add_sub_cancel]
      by_cases hlt : dst < src
      · rw [if_pos hlt, if_pos (by omega : dst < src + 1)]
        split
        · rw [findSrc, if_pos (by omega : src + 1 > dst), if_pos hfree]
        · exact ih hsorted.2
      · rw [if_neg hlt]
        split
        · split
          · -- only `src + 1` itself lies above the hole, and it is free
            have : findSrc cells dst (src + 1) = none := by
              by_contra hne
              obtain ⟨s, hs⟩ := Option.ne_none_iff_exists'.mp hne
              obtain ⟨h1, h2, h3, -⟩ := findSrc_some hs
              obtain rfl : s = src + 1 := by omega
              rw [hfree] at h3
              cases h3
            rw [this]
          · cases dsts with
            | nil => rfl
            | cons d ds =>
              have := hsorted.1 d (by simp)
              simp only [fillPairs]
              rw [if_neg (by omega)]
        · rfl

/-- What the fillings look like: each hole is free and each source in use, holes ascend, sources
descend, and no cell in use is passed over. -/
def Fills (cells : List CacheCell) : Nat → Nat → List (Nat × Nat) → Prop
  | _, _, [] => True
  | lo, hi, (d, s) :: ps =>
    lo ≤ d ∧ d < s ∧ s < hi ∧ (cells.getD d {}).free = true ∧ (cells.getD s {}).free = false ∧
      (∀ i, s < i → i < hi → (cells.getD i {}).free = true) ∧ Fills cells (d + 1) s ps

theorem Fills.mono {cells : List CacheCell} {lo lo' hi : Nat} {ps : List (Nat × Nat)}
    (hlo : lo' ≤ lo) (h : Fills cells lo hi ps) : Fills cells lo' hi ps := by
  cases ps with
  | nil => trivial
  | cons p ps => exact ⟨Nat.le_trans hlo h.1, h.2⟩

theorem fills_fillPairs (cells : List CacheCell) (src lo n : Nat) :
    Fills cells lo (src + 1) (fillPairs cells src (List.range' lo n)) := by
  induction n generalizing src lo with
  | zero => trivial
  | succ n ih =>
    simp only [List.range'_succ, fillPairs]
    split
    · split
      · split
        · rename_i s hs
          obtain ⟨h1, h2, h3, h4⟩ := findSrc_some hs
          refine ⟨Nat.le_refl _, h1, by omega, ‹_›, h3, fun i hi hi' => h4 i hi (by omega), ?_⟩
          have := ih (s - 1) (lo + 1)
          rwa [Nat.sub_add_cancel (by omega : 1 ≤ s)] at this
        · trivial
      · exact Fills.mono (Nat.le_succ _) (ih src (lo + 1))
    · trivial

theorem fillPairs_ge {cells : List CacheCell} {src lo n : Nat} (h : src ≤ lo) :
    fillPairs cells src (List.range' lo n) = [] := by
  cases n with
  | zero => rfl
  | succ n => simp [List.range'_succ, fillPairs, Nat.not_lt.mpr h]

/-! ### The loop -/

theorem compute_append (ts : List (Option (LayerTensors κ))) (g g' : List Move) :
    compute ts (g ++ g') = compute (compute ts g) g' := List.foldl_append

/-- The block that the loop holds back. -/
def DefragState.pending (s : DefragState κ) : Option Move :=
  if s.pendingLen = 0 then none else some ⟨s.pendingSrc, s.pendingDst, s.pendingLen⟩

/-- The tensors once every copy is computed: those in the graph, the block held back and the
fillings `ps` still to come. -/
def DefragState.settle (s : DefragState κ) (ps : List (Nat × Nat)) :
    List (Option (LayerTensors κ)) := KvCache.compute s.tensors (s.graph ++ mergePairs s.pending ps)

theorem DefragState.settle_compute (s : DefragState κ) (ps : List (Nat × Nat)) :
    s.compute.settle ps = s.settle ps := by
  change KvCache.compute (KvCache.compute s.tensors s.graph) ([] ++ mergePairs s.pending ps) = _
  rw [List.nil_append, ← compute_append]
  rfl

theorem DefragState.settle_fill (s : DefragState κ) (dst src : Nat) (ps : List (Nat × Nat)) :
    (s.fill dst src).settle ps = s.settle ((dst, src) :: ps) := by
  simp only [DefragState.fill, DefragState.settle, DefragState.pending]
  by_cases hlen : s.pendingLen = 0
  · simp [hlen, mergePairs]
  · rw [if_pos (Nat.pos_of_ne_zero hlen)]
    by_cases hjoin : src + s.pendingLen = s.pendingSrc ∧ dst = s.pendingDst + s.pendingLen
    · simp [hlen, hjoin, mergePairs, Move.joins]
    · simp [hlen, hjoin, mergePairs, Move.joins, DefragState.moveCells]

@[simp] theorem DefragState.fill_cells (s : DefragState κ) (dst src : Nat) :
    (s.fill dst src).cells = applyPair s.cells (dst, src) := by
  simp only [DefragState.fill, applyPair]
  split
  · split <;> rfl
  · rfl

@[simp] theorem DefragState.fill_src (s : DefragState κ) (dst src : Nat) :
    (s.fill dst src).src = src := by
  simp only [DefragState.fill]
  split
  · split <;> rfl
  · rfl

/-- `moves` counts the blocks of the current graph. -/
def DefragState.Counted (s : DefragState κ) : Prop := s.moves = s.graph.length

theorem DefragState.Counted.compute {s : DefragState κ} : s.compute.Counted := rfl

theorem DefragState.Counted.moveCells {s : DefragState κ} (h : s.Counted) :
    s.moveCells.Counted := by
  simp only [Counted, DefragState.moveCells, List.length_append, List.length_singleton] at h ⊢
  omega

theorem DefragState.Counted.fill {s : DefragState κ} (h : s.Counted) (dst src : Nat) :
    (s.fill dst src).Counted := by
  have hmove := Counted.moveCells h
  simp only [DefragState.fill]
  split
  · split
    · exact h
    · exact hmove
  · exact h

/-- One turn of the loop, with the fillings `ps` it adds. -/
structure DefragState.Turn (s s' : DefragState κ) (ps : List (Nat × Nat)) : Prop where
  cells : s'.cells = applyPairs s.cells ps
  settle : ∀ qs, s'.settle qs = s.settle (ps ++ qs)
  counted : s.Counted → s'.Counted

theorem DefragState.Turn.refl (s : DefragState κ) : s.Turn s [] :=
  ⟨rfl, fun _ => rfl, id⟩

theorem DefragState.Turn.trans {s s' s'' : DefragState κ} {ps qs : List (Nat × Nat)}
    (h : s.Turn s' ps) (h' : s'.Turn s'' qs) : s.Turn s'' (ps ++ qs) where
  cells := by rw [h'.cells, h.cells, applyPairs, applyPairs, applyPairs, List.foldl_append]
  settle := by
    intro rs
    rw [h'.settle, h.settle, List.append_assoc]
  counted := fun hc => h'.counted (h.counted hc)

theorem DefragState.Turn.flush {s s' : DefragState κ} {ps : List (Nat × Nat)} (maxMoves : Int)
    (h : s.Turn s' ps) : s.Turn (if s'.moves ≥ maxMoves then s'.compute else s') ps := by
  split
  · exact ⟨h.cells, fun qs => by rw [settle_compute, h.settle], fun _ => Counted.compute⟩
  · exact h

theorem DefragState.turn_fill (s : DefragState κ) (dst src : Nat) :
    s.Turn (s.fill dst src) [(dst, src)] :=
  ⟨fill_cells s dst src, settle_fill s dst src, fun h => h.fill dst src⟩

theorem free_applyPair_src (cells : List CacheCell) (dst src : Nat) :
    ((applyPair cells (dst, src)).getD src {}).free = true := by
  simp only [applyPair, List.getD_eq_getElem?_getD, List.getElem?_set]
  split
  · split <;> rfl
  · contradiction

theorem getD_applyPair_of_ne {cells : List CacheCell} {dst src i : Nat} (hd : i ≠ dst)
    (hs : i ≠ src) : (applyPair cells (dst, src)).getD i {} = cells.getD i {} := by
  simp only [applyPair, List.getD_eq_getElem?_getD]
  rw [List.getElem?_set_ne (Ne.symm hs), List.getElem?_set_ne (Ne.symm hd)]

/-- The fillings that remain after the first one. -/
theorem fillPairs_applyPair {cells : List CacheCell} {dst src n : Nat} :
    fillPairs (applyPair cells (dst, src)) src (List.range' (dst + 1) n) =
      fillPairs cells (src - 1) (List.range' (dst + 1) n) := by
  have ascending : (List.range' (dst + 1) n).Pairwise (· < ·) := List.pairwise_lt_range'
  rw [fillPairs_free_src ascending (free_applyPair_src cells dst src)]
  cases src with
  | zero => rw [fillPairs_ge (Nat.zero_le _), fillPairs_ge (Nat.zero_le _)]
  | succ src =>
    refine fillPairs_congr (?_ : ∀ d ∈ _, dst + 1 ≤ d) ?_
    · intro d hd
      simp only [List.mem_range'] at hd
      omega
    · intro i hi hi'
      rw [getD_applyPair_of_ne (by omega) (by omega)]

theorem DefragState.turn_loop (maxMoves : Int) (s : DefragState κ) (dst n : Nat) :
    s.Turn ((List.range' dst n).foldl
      (fun s dst => if dst < s.src then s.step maxMoves dst else s) s)
      (fillPairs s.cells s.src (List.range' dst n)) := by
  induction n generalizing s dst with
  | zero => exact .refl s
  | succ n ih =>
    simp only [List.range'_succ, List.foldl_cons, fillPairs]
    by_cases hlt : dst < s.src
    · rw [if_pos hlt, if_pos hlt, DefragState.step]
      by_cases hfree : (s.cells.getD dst {}).free = true
      · rw [if_pos hfree, if_pos hfree]
        cases hsrc : findSrc s.cells dst s.src with
        | none =>
          -- no cell in use is left: `src` falls to `dst` and the loop is over
          have hstop : s.Turn { s with src := dst } [] := ⟨rfl, fun _ => rfl, id⟩
          have := (hstop.flush maxMoves).trans (ih _ (dst + 1))
          rwa [fillPairs_ge] at this
          split <;> exact Nat.le_succ dst
        | some src =>
          have hfill := ((s.turn_fill dst src).flush maxMoves).trans (ih _ (dst + 1))
          have hrest : fillPairs
              (if (s.fill dst src).moves ≥ maxMoves then (s.fill dst src).compute
                else s.fill dst src).cells
              (if (s.fill dst src).moves ≥ maxMoves then (s.fill dst src).compute
                else s.fill dst src).src (List.range' (dst + 1) n) =
              fillPairs s.cells (src - 1) (List.range' (dst + 1) n) := by
            rw [← fillPairs_applyPair]
            split
            · simp [DefragState.compute]
            · simp
          rwa [hrest] at hfill
      · rw [if_neg hfree, if_neg hfree]
        have := ((Turn.refl s).flush maxMoves).trans (ih _ (dst + 1))
        refine cast ?_ this
        congr 1
        split <;> rfl
    · rw [if_neg hlt, if_neg hlt]
      have := ih s (dst + 1)
      rwa [fillPairs_ge (by omega)] at this

/-! ### The fillings of the whole cache -/

def holes (cells : List CacheCell) : List Nat :=
  (List.range cells.length).filter fun i => (cells.getD i {}).free

/-- The cells in use before `n`, last one first. -/
def usedBelow (cells : List CacheCell) (n : Nat) : List Nat :=
  ((List.range n).filter fun i => !(cells.getD i {}).free).reverse

/-- Each hole with the cell that is moved into it: the first hole gets the last cell in use, the
second hole the last but one, as long as the hole lies before the cell. -/
def fillings (cells : List CacheCell) : List (Nat × Nat) :=
  ((holes cells).zip (usedBelow cells cells.length)).takeWhile fun p => p.1 < p.2

theorem usedBelow_succ (cells : List CacheCell) (n : Nat) :
    usedBelow cells (n + 1) =
      if (cells.getD n {}).free then usedBelow cells n else n :: usedBelow cells n := by
  simp only [usedBelow, List.range_succ, List.filter_append, List.reverse_append]
  cases hfree : (cells.getD n {}).free <;> simp [-List.getD_eq_getElem?_getD, hfree]

theorem usedBelow_lt {cells : List CacheCell} {n s : Nat} (h : s ∈ usedBelow cells n) : s < n := by
  simp only [usedBelow, List.mem_reverse, List.mem_filter, List.mem_range] at h
  exact h.1

theorem usedBelow_tail {cells : List CacheCell} {n s : Nat} {us : List Nat}
    (h : usedBelow cells n = s :: us) : us = usedBelow cells s := by
  induction n with
  | zero => cases h
  | succ n ih =>
    rw [usedBelow_succ] at h
    split at h
    · exact ih h
    · obtain ⟨rfl, rfl⟩ := List.cons.inj h
      rfl

theorem findSrc_eq (cells : List CacheCell) (dst src : Nat) :
    findSrc cells dst src = (usedBelow cells (src + 1)).head?.filter (dst < ·) := by
  induction src with
  | zero =>
    have none_above : ∀ s ∈ (usedBelow cells (0 + 1)).head?, ¬(decide (dst < s)) = true := by
      intro s hs
      have := usedBelow_lt (List.mem_of_mem_head? hs)
      rw [decide_eq_true_eq]
      omega
    exact (Option.filter_eq_none_iff.mpr none_above).symm
  | succ src ih =>
    rw [findSrc, usedBelow_succ, ih]
    split
    · rename_i hgt
      split
      · rfl
      · simp [Option.filter, hgt]
    · rename_i hle
      rw [eq_comm, Option.filter_eq_none_iff]
      intro s hs
      have hmem : s ∈ usedBelow cells (src + 1 + 1) := by
        rw [usedBelow_succ]
        exact List.mem_of_mem_head? hs
      have := usedBelow_lt hmem
      rw [decide_eq_true_eq]
      omega

/-- Nothing is taken once the next hole is not before the next cell in use. -/
theorem takeWhile_zip_usedBelow {cells : List CacheCell} {src : Nat} {ds : List Nat}
    (h : ∀ d ∈ ds, src ≤ d) :
    (ds.zip (usedBelow cells (src + 1))).takeWhile (fun p => decide (p.1 < p.2)) = [] := by
  cases ds with
  | nil => rfl
  | cons d ds =>
    cases hu : usedBelow cells (src + 1) with
    | nil => rfl
    | cons s us =>
      have hmem : s ∈ usedBelow cells (src + 1) := by
        rw [hu]
        exact List.mem_cons_self
      have hs := usedBelow_lt hmem
      have hd := h d (List.mem_cons_self ..)
      rw [List.zip_cons_cons, List.takeWhile_cons_of_neg]
      rw [decide_eq_true_eq]
      omega

theorem fillPairs_eq (cells : List CacheCell) (src lo n : Nat) :
    fillPairs cells src (List.range' lo n) =
      (((List.range' lo n).filter fun i => (cells.getD i {}).free).zip
        (usedBelow cells (src + 1))).takeWhile fun p => p.1 < p.2 := by
  induction n generalizing src lo with
  | zero => rfl
  | succ n ih =>
    rw [List.range'_succ, fillPairs]
    split
    · split
      · rename_i hlt hfree
        rw [List.filter_cons, if_pos hfree, findSrc_eq]
        cases hu : usedBelow cells (src + 1) with
        | nil => simp
        | cons s us =>
          by_cases hgt : lo < s
          · rw [List.zip_cons_cons, List.takeWhile_cons_of_pos (by simpa using hgt),
              usedBelow_tail hu]
            have := ih (s - 1) (lo + 1)
            rw [Nat.sub_add_cancel (by omega : 1 ≤ s)] at this
            simp [Option.filter, hgt, this]
          · simp [Option.filter, hgt]
      · rename_i hlt hfree
        rw [List.filter_cons, if_neg hfree]
        exact ih src (lo + 1)
    · rename_i hge
      rw [takeWhile_zip_usedBelow]
      intro d hd
      have := (List.mem_filter.mp hd).1
      rw [← List.range'_succ, List.mem_range'_1] at this
      omega

theorem fillings_eq (cells : List CacheCell) :
    fillings cells = fillPairs cells (cells.length - 1) (List.range cells.length) := by
  cases cells with
  | nil => rfl
  | cons cell cells =>
    rw [List.range_eq_range', fillPairs_eq, fillings, holes, List.range_eq_range']
    rfl

@[simp] theorem DefragState.finish_cells (s : DefragState κ) : s.finish.cells = s.cells := by
  simp only [DefragState.finish]
  split <;> split <;> rfl

theorem DefragState.finish_tensors {s : DefragState κ} (h : s.Counted) :
    s.finish.tensors = s.settle [] := by
  have flushed (t : DefragState κ) (ht : t.Counted) :
      (if t.moves > 0 then t.compute else t).tensors = KvCache.compute t.tensors t.graph := by
    split
    · rfl
    · -- nothing was added to the last context
      have hgraph : t.graph = [] := by
        apply List.eq_nil_of_length_eq_zero
        unfold Counted at ht
        omega
      rw [hgraph]
      rfl
  simp only [DefragState.finish, DefragState.settle, DefragState.pending]
  by_cases hlen : s.pendingLen = 0
  · rw [if_neg (by omega : ¬s.pendingLen > 0), if_pos hlen, flushed s h, mergePairs,
      List.append_nil]
  · rw [if_pos (Nat.pos_of_ne_zero hlen : s.pendingLen > 0), if_neg hlen, flushed _ h.moveCells]
    rfl

theorem Causal.turn_defrag (c : Causal κ) (maxGraphNodes : Int) :
    let s : DefragState κ := { cells := c.cells, src := c.cells.length - 1, tensors := c.tensors }
    s.Turn (s.loop (maxMoves maxGraphNodes c.layers) c.cells.length) (fillings c.cells) := by
  intro s
  have turn := s.turn_loop (maxMoves maxGraphNodes c.layers) 0 c.cells.length
  rwa [← List.range_eq_range', ← fillings_eq] at turn

theorem Causal.defragCells_cells (c : Causal κ) (maxGraphNodes : Int) :
    (c.defragCells maxGraphNodes).cells = applyPairs c.cells (fillings c.cells) := by
  rw [Causal.defragCells, DefragState.finish_cells]
  exact (c.turn_defrag maxGraphNodes).cells

theorem Causal.defragCells_tensors (c : Causal κ) (maxGraphNodes : Int) :
    (c.defragCells maxGraphNodes).tensors =
      compute c.tensors (mergePairs none (fillings c.cells)) := by
  have turn := c.turn_defrag maxGraphNodes
  rw [Causal.defragCells, DefragState.finish_tensors (turn.counted rfl)]
  have := turn.settle []
  rwa [List.append_nil] at this

end Ecco9.KvCache
