import Ecco9.KvCache.Capacity

/-! Which positions of a sequence keep their rows when `defrag` moves the cells. -/

universe u

namespace Ecco9.KvCache

open Ecco9.Library

/-! ### What is held at some positions -/

/-- The cells of a sequence at the positions for which `Q` holds. -/
def cellsAt (Q : Int → Prop) [DecidablePred Q] (cells : List CacheCell) (seq : Int) : Finset Nat :=
  (Finset.range cells.length).filter fun i =>
    seq ∈ (cells.getD i {}).sequences ∧ Q (cells.getD i {}).pos

/-- The positions of a sequence for which `Q` holds, each with its row. -/
def heldIn (Q : Int → Prop) [DecidablePred Q] (cells : List CacheCell) (seq : Int)
    (row : Nat → κ) : Multiset (Int × κ) :=
  (cellsAt Q cells seq).val.map fun i => ((cells.getD i {}).pos, row i)

variable {Q : Int → Prop} [DecidablePred Q] {cells cells' : List CacheCell} {seq : Int}

theorem mem_cellsAt {i : Nat} : i ∈ cellsAt Q cells seq ↔
    seq ∈ (cells.getD i {}).sequences ∧ Q (cells.getD i {}).pos := by
  rw [cellsAt, Finset.mem_filter, Finset.mem_range]
  exact and_iff_right_of_imp fun h => lt_of_mem_cell h.1

theorem contents_eq_map {α β : Type*} (used : α → Bool) (n : Nat) (label : Nat → α)
    (row : Nat → β) : contents used n label row =
      ((Finset.range n).filter fun i => used (label i)).val.map fun i => (label i, row i) := by
  unfold contents slot
  rw [← Finset.sum_filter, ← Multiset.sum_map_singleton (Multiset.map _ _), Multiset.map_map]
  rfl

/-- What is held follows from the contents. -/
theorem heldIn_eq (row : Nat → κ) : heldIn Q cells seq row =
    ((entries cells row).filter fun e => seq ∈ e.1.sequences ∧ Q e.1.pos).map
      fun e => (e.1.pos, e.2) := by
  rw [entries, contents_eq_map, Multiset.filter_map, Multiset.map_map, heldIn, cellsAt,
    ← Finset.filter_val, Finset.filter_filter]
  congr 2
  refine Finset.filter_congr fun i _ => ⟨fun h => ⟨?_, h⟩, fun h => h.2⟩
  rw [CacheCell.free, Bool.not_eq_true', List.isEmpty_eq_false_iff]
  exact List.ne_nil_of_mem h.1

theorem heldIn_congr {row row' : Nat → κ}
    (hmem : ∀ i, seq ∈ (cells'.getD i {}).sequences ∧ Q (cells'.getD i {}).pos ↔
      seq ∈ (cells.getD i {}).sequences ∧ Q (cells.getD i {}).pos)
    (h : ∀ i, seq ∈ (cells.getD i {}).sequences → Q (cells.getD i {}).pos →
      (cells'.getD i {}).pos = (cells.getD i {}).pos ∧ row' i = row i) :
    heldIn Q cells' seq row' = heldIn Q cells seq row := by
  have hcells : cellsAt Q cells' seq = cellsAt Q cells seq := by
    ext i
    rw [mem_cellsAt, mem_cellsAt]
    exact hmem i
  rw [heldIn, heldIn, hcells]
  refine Multiset.map_congr rfl fun i hi => ?_
  obtain ⟨hseq, hQ⟩ := mem_cellsAt.mp hi
  obtain ⟨hpos, hrow⟩ := h i hseq hQ
  rw [hpos, hrow]

/-! ### Where rows come from -/

/-- The cells after the moves of `defrag`. -/
def arranged (cells : List CacheCell) : List CacheCell := applyPairs cells (fillings cells)

/-- The cell whose row is at cell `i` after `defrag`. -/
def origin (cells : List CacheCell) : Nat → Nat := copyAll (mergePairs none (fillings cells)) id

theorem copyAll_comp {ρ : Type*} (ms : List Move) (f : κ → ρ) (row : Nat → κ) :
    copyAll ms (f ∘ row) = f ∘ copyAll ms row := by
  induction ms generalizing row with
  | nil => rfl
  | cons m ms ih =>
    have hcopy : m.copy (f ∘ row) = f ∘ m.copy row := by
      funext j
      simp only [Move.copy, blockCopy, Function.comp_apply]
      split <;> rfl
    rw [copyAll, List.foldl_cons, hcopy]
    exact ih _

theorem copyAll_origin (cells : List CacheCell) (row : Nat → κ) (i : Nat) :
    copyAll (mergePairs none (fillings cells)) row i = row (origin cells i) :=
  congrFun (copyAll_comp (mergePairs none (fillings cells)) row id) i

/-- A row is copied with a block or stays where it is. -/
theorem copyAll_cases {lo hi : Nat} {ms : List Move} (blocks : Blocks lo hi ms) (row : Nat → κ)
    (i : Nat) : (∃ m ∈ ms, ∃ t < m.length, i = m.dst + t ∧ copyAll ms row i = row (m.src + t)) ∨
      (∀ m ∈ ms, ¬(m.dst ≤ i ∧ i < m.dst + m.length)) ∧ copyAll ms row i = row i := by
  by_cases h : ∃ m ∈ ms, m.dst ≤ i ∧ i < m.dst + m.length
  · obtain ⟨m, hm, hle, hlt⟩ := h
    refine .inl ⟨m, hm, i - m.dst, by omega, by omega, ?_⟩
    have hcopied := (copyAll_dst blocks hm (t := i - m.dst) (by omega) row).1
    rwa [show m.dst + (i - m.dst) = i by omega] at hcopied
  · have hout : ∀ m ∈ ms, ¬(m.dst ≤ i ∧ i < m.dst + m.length) := fun m hm hin => h ⟨m, hm, hin⟩
    refine .inr ⟨hout, ?_⟩
    clear blocks h
    induction ms generalizing row with
    | nil => rfl
    | cons m ms ih =>
      rw [copyAll, List.foldl_cons]
      refine (ih (m.copy row) fun m' h => hout m' (List.mem_cons_of_mem _ h)).trans ?_
      have := hout m List.mem_cons_self
      exact blockCopy_outside row (by omega)

/-- Blocks have different sources. -/
theorem Blocks.src_inj {lo hi : Nat} {ms : List Move} (blocks : Blocks lo hi ms) {m m' : Move}
    (hm : m ∈ ms) (hm' : m' ∈ ms) {t t' : Nat} (ht : t < m.length) (ht' : t' < m'.length)
    (h : m.src + t = m'.src + t') : m.dst + t = m'.dst + t' := by
  have below {lo hi : Nat} {ms : List Move} (blocks : Blocks lo hi ms) {m : Move} (hm : m ∈ ms) :
      m.src + m.length ≤ hi := by
    induction ms generalizing lo hi with
    | nil => cases hm
    | cons b ms ih =>
      obtain ⟨-, -, h3, rest⟩ := blocks
      rcases List.mem_cons.mp hm with rfl | hm
      · exact h3
      · exact (ih rest hm).trans (by omega)
  induction ms generalizing lo hi with
  | nil => cases hm
  | cons b ms ih =>
    obtain ⟨-, -, -, rest⟩ := blocks
    rcases List.mem_cons.mp hm with rfl | later
    · rcases List.mem_cons.mp hm' with rfl | later'
      · omega
      · have := below rest later'
        omega
    · rcases List.mem_cons.mp hm' with rfl | later'
      · have := below rest later
        omega
      · exact ih rest later later'

theorem mergePairs_src {m : Move} {pending : Option Move} {ps : List (Nat × Nat)}
    (hm : m ∈ mergePairs pending ps) :
    (∃ p ∈ ps, p.2 = m.src) ∨ ∃ m' ∈ pending, m'.src = m.src := by
  induction pending, ps using mergePairs.induct with
  | case1 => cases hm
  | case2 m' => exact .inr ⟨m, by simpa [mergePairs, eq_comm] using hm, rfl⟩
  | case3 p ps ih =>
    rw [mergePairs] at hm
    rcases ih hm with ⟨q, hq, heq⟩ | ⟨m', hm', heq⟩
    · exact .inl ⟨q, List.mem_cons_of_mem _ hq, heq⟩
    · obtain rfl := Option.some.inj hm'
      exact .inl ⟨p, List.mem_cons_self, heq⟩
  | case4 m' p ps hjoin ih =>
    rw [mergePairs, if_pos hjoin] at hm
    rcases ih hm with ⟨q, hq, heq⟩ | ⟨m'', hm', heq⟩
    · exact .inl ⟨q, List.mem_cons_of_mem _ hq, heq⟩
    · obtain rfl := Option.some.inj hm'
      exact .inl ⟨p, List.mem_cons_self, heq⟩
  | case5 m' p ps hjoin ih =>
    rw [mergePairs, if_neg hjoin] at hm
    rcases List.mem_cons.mp hm with rfl | hm
    · exact .inr ⟨m, rfl, rfl⟩
    · rcases ih hm with ⟨q, hq, heq⟩ | ⟨m'', hm', heq⟩
      · exact .inl ⟨q, List.mem_cons_of_mem _ hq, heq⟩
      · obtain rfl := Option.some.inj hm'
        exact .inl ⟨p, List.mem_cons_self, heq⟩

/-- The fillings take every cell in use from the end down to their last source. -/
theorem Fills.takes {lo hi : Nat} {ps : List (Nat × Nat)} (fills : Fills cells lo hi ps)
    {p : Nat × Nat} (hp : p ∈ ps) {k : Nat} (hk : p.2 ≤ k) (hk' : k < hi)
    (used : (cells.getD k {}).free = false) : ∃ q ∈ ps, q.2 = k := by
  induction ps generalizing lo hi with
  | nil => cases hp
  | cons q ps ih =>
    obtain ⟨-, -, h3, -, -, gap, rest⟩ := fills
    rcases Nat.lt_trichotomy k q.2 with hlt | heq | hgt
    · rcases List.mem_cons.mp hp with rfl | hp
      · omega
      · obtain ⟨q', hq', heq⟩ := ih rest hp hlt
        exact ⟨q', List.mem_cons_of_mem _ hq', heq⟩
    · exact ⟨q, List.mem_cons_self, heq.symm⟩
    · rw [gap k hgt hk'] at used
      cases used

/-- A cell that is taken is free afterwards. -/
theorem Fills.free_src {lo hi : Nat} {ps : List (Nat × Nat)} (fills : Fills cells lo hi ps)
    {p : Nat × Nat} (hp : p ∈ ps) : ((applyPairs cells ps).getD p.2 {}).free = true := by
  induction ps generalizing cells lo hi with
  | nil => cases hp
  | cons q ps ih =>
    have tail := fills.tail
    rcases List.mem_cons.mp hp with rfl | hp
    · change ((applyPairs (applyPair cells p) ps).getD p.2 {}).free = true
      rw [getD_applyPairs_outside tail (.inr (Nat.le_refl _))]
      exact free_applyPair_src cells p.1 p.2
    · exact ih tail hp

/-! ### Exactly when the rows stay with their positions -/

/-- Each cell that holds a position for which `Q` holds gets the row of a cell that held the same
sequence at the same position. -/
def Aligned (Q : Int → Prop) (cells : List CacheCell) (seq : Int) : Prop :=
  ∀ i, seq ∈ ((arranged cells).getD i {}).sequences → Q ((arranged cells).getD i {}).pos →
    seq ∈ (cells.getD (origin cells i) {}).sequences ∧
      (cells.getD (origin cells i) {}).pos = ((arranged cells).getD i {}).pos

/-- Two cells in use never have the row of one cell in use. -/
theorem origin_inj {i i' : Nat} (hi : ((arranged cells).getD i {}).free = false)
    (hi' : ((arranged cells).getD i' {}).free = false)
    (used : (cells.getD (origin cells i) {}).free = false)
    (h : origin cells i = origin cells i') : i = i' := by
  have fills := fills_fillings cells
  have blocks := fills.blocks
  -- a row that is copied from a cell in use leaves that cell free
  have apart {m : Move} (hm : m ∈ mergePairs none (fillings cells)) {t : Nat} (ht : t < m.length)
      {k : Nat} (hk : ((arranged cells).getD k {}).free = false) (heq : m.src + t = k)
      (hused : (cells.getD (m.src + t) {}).free = false) : False := by
    rcases mergePairs_src hm with ⟨p, hp, hsrc⟩ | ⟨m', hm', -⟩
    · have hlt := lt_of_used hused
      obtain ⟨q, hq, hqsrc⟩ := fills.takes hp (show p.2 ≤ m.src + t by omega) hlt hused
      have hfree := fills.free_src hq
      rw [hqsrc, heq] at hfree
      rw [arranged, hfree] at hk
      cases hk
    · cases hm'
  rw [origin] at used h
  rcases copyAll_cases blocks id i with ⟨m, hm, t, ht, rfl, horigin⟩ | ⟨-, horigin⟩
  · rw [horigin] at used h
    rcases copyAll_cases blocks id i' with ⟨m', hm', t', ht', rfl, horigin'⟩ | ⟨-, horigin'⟩
    · rw [horigin'] at h
      exact blocks.src_inj hm hm' ht ht' h
    · rw [horigin'] at h
      exact (apart hm ht hi' h used).elim
  · rw [horigin] at used h
    rcases copyAll_cases blocks id i' with ⟨m', hm', t', ht', rfl, horigin'⟩ | ⟨-, horigin'⟩
    · rw [horigin'] at h
      have h' : m'.src + t' = i := h.symm
      exact (apart hm' ht' hi h' (by rw [h']; exact used)).elim
    · rw [horigin'] at h
      exact h

theorem card_cellsAt_arranged :
    (cellsAt Q (arranged cells) seq).card = (cellsAt Q cells seq).card := by
  have h : heldIn Q (arranged cells) seq (fun _ => ()) = heldIn Q cells seq fun _ => () := by
    rw [heldIn_eq, heldIn_eq, arranged, entries_applyPairs (fills_fillings cells) (Nat.le_refl _)]
  have hcard := congrArg Multiset.card h
  rwa [heldIn, heldIn, Multiset.card_map, Multiset.card_map] at hcard

/-- The moves of `defrag` keep the rows of a sequence at the positions for which `Q` holds, whatever
they are, exactly if they are aligned there. -/
theorem heldIn_arranged_iff : Aligned Q cells seq ↔ ∀ (ρ : Type) (row : Nat → ρ),
    heldIn Q (arranged cells) seq (copyAll (mergePairs none (fillings cells)) row) =
      heldIn Q cells seq row := by
  constructor
  · intro aligned ρ row
    have maps : ∀ i ∈ cellsAt Q (arranged cells) seq, origin cells i ∈ cellsAt Q cells seq := by
      intro i hi
      obtain ⟨hseq, hQ⟩ := mem_cellsAt.mp hi
      obtain ⟨hmem, hpos⟩ := aligned i hseq hQ
      exact mem_cellsAt.mpr ⟨hmem, hpos ▸ hQ⟩
    have inj : Set.InjOn (origin cells) (cellsAt Q (arranged cells) seq) := by
      intro i hi i' hi' heq
      exact origin_inj (used_of_mem (mem_cellsAt.mp hi).1)
        (used_of_mem (mem_cellsAt.mp hi').1)
        (used_of_mem (mem_cellsAt.mp (maps i hi)).1) heq
    have image : (cellsAt Q (arranged cells) seq).image (origin cells) = cellsAt Q cells seq := by
      refine Finset.eq_of_subset_of_card_le (Finset.image_subset_iff.mpr maps) ?_
      rw [Finset.card_image_of_injOn inj, card_cellsAt_arranged]
    rw [heldIn, heldIn, ← image, Finset.image_val_of_injOn inj, Multiset.map_map]
    refine Multiset.map_congr rfl fun i hi => ?_
    obtain ⟨hseq, hQ⟩ := mem_cellsAt.mp hi
    rw [copyAll_origin, Function.comp_apply, (aligned i hseq hQ).2]
  · intro h i hseq hQ
    -- with the numbers of the cells as rows
    have hmem : (((arranged cells).getD i {}).pos, origin cells i) ∈ heldIn Q cells seq id := by
      rw [← h Nat id]
      exact Multiset.mem_map.mpr ⟨i, mem_cellsAt.mpr ⟨hseq, hQ⟩, rfl⟩
    obtain ⟨k, hk, heq⟩ := Multiset.mem_map.mp hmem
    obtain ⟨hpos, rfl⟩ := Prod.mk.inj heq
    exact ⟨(mem_cellsAt.mp hk).1, hpos⟩

end Ecco9.KvCache
