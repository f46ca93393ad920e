import Ecco9.KvCache.Defrag

/-! Where the rows end up: the blocks copied by `defrag` against the cells it moves. -/

universe u

namespace Ecco9.KvCache

open Ecco9.Library

/-- The cells in use, each with the row stored at it. -/
def entries (cells : List CacheCell) (row : Nat → κ) : Multiset (CacheCell × κ) :=
  contents (fun cell => !cell.free) cells.length (fun i => cells.getD i {}) row

def copyAll (ms : List Move) (row : Nat → κ) : Nat → κ := ms.foldl (fun row m => m.copy row) row

/-- No filling is copied to the wrong cell.  Fillings next to each other on both sides are copied
as one block, which exchanges their rows: this goes unnoticed only when the two cells agree.  The
block must not grow to a third filling, since it would reach over a free cell. -/
def SwapsHarmless (cells : List CacheCell) : List (Nat × Nat) → Prop
  | (d, s) :: (d', s') :: ps =>
    if d' = d + 1 ∧ s' + 1 = s then
      cells.getD s {} = cells.getD s' {} ∧ (∀ p ∈ ps.head?, ¬(p.2 + 2 = s' ∧ p.1 = d + 2)) ∧
        SwapsHarmless cells ps
    else SwapsHarmless cells ((d', s') :: ps)
  | _ => True

theorem Fills.congr {cells cells' : List CacheCell} {lo hi : Nat} {ps : List (Nat × Nat)}
    (h : ∀ i, lo ≤ i → i < hi → cells'.getD i {} = cells.getD i {}) (fills : Fills cells lo hi ps) :
    Fills cells' lo hi ps := by
  induction ps generalizing lo hi with
  | nil => trivial
  | cons p ps ih =>
    obtain ⟨h1, h2, h3, h4, h5, h6, h7⟩ := fills
    refine ⟨h1, h2, h3, ?_, ?_, ?_, ?_⟩
    · rwa [h p.1 h1 (by omega)]
    · rwa [h p.2 (by omega) h3]
    · intro i hi hi'
      rw [h i (by omega) hi']
      exact h6 i hi hi'
    · apply ih _ h7
      intro i hi hi'
      exact h i (by omega) (by omega)

theorem SwapsHarmless.congr {cells cells' : List CacheCell} {lo hi : Nat} {ps : List (Nat × Nat)}
    (h : ∀ i, lo ≤ i → i < hi → cells'.getD i {} = cells.getD i {}) (fills : Fills cells lo hi ps)
    (harmless : SwapsHarmless cells ps) : SwapsHarmless cells' ps := by
  induction ps using SwapsHarmless.induct generalizing lo hi with
  | case1 d s d' s' ps hadj ih =>
    rw [SwapsHarmless, if_pos hadj] at harmless ⊢
    obtain ⟨h1, h2, h3, h4, h5, h6, h1', h2', h3', h4', h5', h6', rest⟩ := fills
    refine ⟨?_, harmless.2.1, ih ?_ rest harmless.2.2⟩
    · rw [h s (by omega) h3, h s' (by omega) (by omega)]
      exact harmless.1
    · intro i hi hi'
      exact h i (by omega) (by omega)
  | case2 d s d' s' ps hadj ih =>
    rw [SwapsHarmless, if_neg hadj] at harmless ⊢
    refine ih ?_ fills.2.2.2.2.2.2 harmless
    have := fills.2.2.1
    have := fills.1
    intro i hi hi'
    exact h i (by omega) (by omega)
  | case3 ps hps =>
    rw [SwapsHarmless]
    · trivial
    · exact hps

theorem Fills.bounds {cells : List CacheCell} {lo hi : Nat} {ps : List (Nat × Nat)}
    (fills : Fills cells lo hi ps) {p : Nat × Nat} (hp : p ∈ ps) :
    lo ≤ p.1 ∧ p.1 < p.2 ∧ p.2 < hi := by
  induction ps generalizing lo hi with
  | nil => cases hp
  | cons q ps ih =>
    obtain ⟨h1, h2, h3, -, -, -, rest⟩ := fills
    rcases List.mem_cons.mp hp with rfl | hp
    · exact ⟨h1, h2, h3⟩
    · obtain ⟨r1, r2, r3⟩ := ih rest hp
      exact ⟨by omega, r2, by omega⟩

/-! ### Cells -/

@[simp] theorem applyPair_length (cells : List CacheCell) (p : Nat × Nat) :
    (applyPair cells p).length = cells.length := by simp [applyPair]

@[simp] theorem applyPairs_length (cells : List CacheCell) (ps : List (Nat × Nat)) :
    (applyPairs cells ps).length = cells.length := by
  induction ps generalizing cells with
  | nil => rfl
  | cons p ps ih =>
    rw [applyPairs, List.foldl_cons]
    exact (ih _).trans (applyPair_length cells p)

theorem getD_applyPair_dst {cells : List CacheCell} {d s : Nat} (hds : d < s)
    (hs : s < cells.length) : (applyPair cells (d, s)).getD d {} = cells.getD s {} := by
  simp only [applyPair, List.getD_eq_getElem?_getD]
  rw [List.getElem?_set_ne (by omega), List.getElem?_set_self (by omega)]
  rfl

theorem getD_applyPair_src {cells : List CacheCell} {d s : Nat} (hs : s < cells.length) :
    (applyPair cells (d, s)).getD s {} = {} := by
  simp only [applyPair, List.getD_eq_getElem?_getD]
  rw [List.getElem?_set_self (by simpa using hs)]
  rfl

theorem Fills.tail {cells : List CacheCell} {lo hi d s : Nat} {ps : List (Nat × Nat)}
    (fills : Fills cells lo hi ((d, s) :: ps)) : Fills (applyPair cells (d, s)) (d + 1) s ps := by
  apply Fills.congr _ fills.2.2.2.2.2.2
  intro i hi hi'
  exact getD_applyPair_of_ne (by omega) (by omega)

theorem getD_applyPairs_outside {cells : List CacheCell} {lo hi i : Nat} {ps : List (Nat × Nat)}
    (fills : Fills cells lo hi ps) (h : i < lo ∨ hi ≤ i) :
    (applyPairs cells ps).getD i {} = cells.getD i {} := by
  induction ps generalizing cells lo hi with
  | nil => rfl
  | cons p ps ih =>
    have h1 := fills.1
    have h2 := fills.2.1
    have h3 := fills.2.2.1
    rw [applyPairs, List.foldl_cons]
    exact (ih fills.tail (by omega)).trans (getD_applyPair_of_ne (by omega) (by omega))

/-- Each hole has received the cell that was meant for it. -/
theorem getD_applyPairs_dst {cells : List CacheCell} {lo hi : Nat} {ps : List (Nat × Nat)}
    (fills : Fills cells lo hi ps) (hlen : hi ≤ cells.length) {p : Nat × Nat} (hp : p ∈ ps) :
    (applyPairs cells ps).getD p.1 {} = cells.getD p.2 {} ∧
      (cells.getD p.2 {}).free = false ∧ p.1 < cells.length := by
  induction ps generalizing cells lo hi with
  | nil => cases hp
  | cons q ps ih =>
    have h2 := fills.2.1
    have h3 := fills.2.2.1
    have h5 := fills.2.2.2.2.1
    rw [applyPairs, List.foldl_cons]
    rcases List.mem_cons.mp hp with rfl | hp
    · refine ⟨?_, h5, by omega⟩
      rw [← getD_applyPair_dst h2 (by omega)]
      exact getD_applyPairs_outside fills.tail (by omega)
    · have := ih fills.tail (by rw [applyPair_length]; omega) hp
      obtain ⟨h1', h2', h3'⟩ := Fills.bounds fills.2.2.2.2.2.2 hp
      rw [getD_applyPair_of_ne (by omega) (by omega), applyPair_length] at this
      exact this

/-! ### Rows -/

/-- Blocks whose targets ascend, whose sources descend, and which all lie between `lo` and `hi`,
the targets below the sources. -/
def Blocks : Nat → Nat → List Move → Prop
  | _, _, [] => True
  | lo, hi, m :: ms =>
    lo ≤ m.dst ∧ m.dst + m.length ≤ m.src ∧ m.src + m.length ≤ hi ∧
      Blocks (m.dst + m.length) m.src ms

theorem Fills.blocks_pending {cells : List CacheCell} {lo hi : Nat} {m : Move}
    {ps : List (Nat × Nat)} (hlo : lo ≤ m.dst) (hpos : 1 ≤ m.length)
    (hmid : m.dst + m.length ≤ m.src) (hhi : m.src + m.length ≤ hi)
    (fills : Fills cells (m.dst + m.length) m.src ps) : Blocks lo hi (mergePairs (some m) ps) := by
  induction ps generalizing lo hi m with
  | nil => exact ⟨hlo, hmid, hhi, trivial⟩
  | cons p ps ih =>
    obtain ⟨h1, h2, h3, -, -, -, rest⟩ := fills
    rw [mergePairs]
    split
    · rename_i hjoin
      unfold Move.joins at hjoin
      apply ih (m := ⟨p.2, m.dst, m.length + 1⟩)
      · exact hlo
      · exact Nat.le_add_left _ _
      · change m.dst + (m.length + 1) ≤ p.2
        omega
      · change p.2 + (m.length + 1) ≤ hi
        omega
      · rwa [hjoin.2] at rest
    · refine ⟨hlo, hmid, hhi, ih (m := ⟨p.2, p.1, 1⟩) h1 (Nat.le_refl _) h2 h3 rest⟩

theorem Fills.blocks {cells : List CacheCell} {lo hi : Nat} {ps : List (Nat × Nat)}
    (fills : Fills cells lo hi ps) : Blocks lo hi (mergePairs none ps) := by
  cases ps with
  | nil => trivial
  | cons p ps =>
    obtain ⟨h1, h2, h3, -, -, -, rest⟩ := fills
    exact Fills.blocks_pending (m := ⟨p.2, p.1, 1⟩) h1 (Nat.le_refl _) h2 h3 rest

theorem copyAll_outside {lo hi i : Nat} {ms : List Move} (blocks : Blocks lo hi ms)
    (h : i < lo ∨ hi ≤ i) (row : Nat → κ) : copyAll ms row i = row i := by
  induction ms generalizing lo hi row with
  | nil => rfl
  | cons m ms ih =>
    obtain ⟨h1, h2, h3, rest⟩ := blocks
    rw [copyAll, List.foldl_cons]
    exact (ih rest (by omega) _).trans (blockCopy_outside row (by omega))

/-- Each block arrives as it was, whatever else is copied. -/
theorem copyAll_dst {lo hi t : Nat} {ms : List Move} (blocks : Blocks lo hi ms) {m : Move}
    (hm : m ∈ ms) (ht : t < m.length) (row : Nat → κ) :
    copyAll ms row (m.dst + t) = row (m.src + t) ∧ lo ≤ m.dst ∧ m.dst + m.length ≤ m.src := by
  induction ms generalizing lo hi row with
  | nil => cases hm
  | cons b ms ih =>
    obtain ⟨h1, h2, h3, rest⟩ := blocks
    rw [copyAll, List.foldl_cons]
    rcases List.mem_cons.mp hm with rfl | hm
    · refine ⟨(copyAll_outside rest (by omega) _).trans ?_, h1, h2⟩
      rw [Move.copy, blockCopy_inside row (by omega) (by omega)]
      congr 1
      omega
    · obtain ⟨heq, hlo, hmid⟩ := ih rest hm (b.copy row)
      refine ⟨heq.trans (blockCopy_outside row ?_), by omega, hmid⟩
      omega

theorem mergePairs_dst {m : Move} {pending : Option Move} {ps : List (Nat × Nat)}
    (hm : m ∈ mergePairs pending ps) {t : Nat} (ht : t < m.length) :
    (∃ p ∈ ps, p.1 = m.dst + t) ∨
      ∃ m' ∈ pending, ∃ t' < m'.length, m'.dst + t' = m.dst + t := by
  induction pending, ps using mergePairs.induct with
  | case1 => cases hm
  | case2 m' =>
    obtain rfl := List.mem_singleton.mp hm
    exact .inr ⟨m, rfl, t, ht, rfl⟩
  | case3 p ps ih =>
    rw [mergePairs] at hm
    rcases ih hm with ⟨q, hq, heq⟩ | ⟨m', hm', t', ht', heq⟩
    · exact .inl ⟨q, by simp [hq], heq⟩
    · obtain rfl := Option.some.inj hm'
      refine .inl ⟨p, by simp, ?_⟩
      change p.1 + t' = m.dst + t at heq
      change t' < 1 at ht'
      omega
  | case4 m' p ps hjoin ih =>
    rw [mergePairs, if_pos hjoin] at hm
    rcases ih hm with ⟨q, hq, heq⟩ | ⟨m'', hm', t', ht', heq⟩
    · exact .inl ⟨q, by simp [hq], heq⟩
    · obtain rfl := Option.some.inj hm'
      by_cases hlast : t' < m'.length
      · exact .inr ⟨m', rfl, t', hlast, heq⟩
      · refine .inl ⟨p, by simp, ?_⟩
        change m'.dst + t' = m.dst + t at heq
        change t' < m'.length + 1 at ht'
        rw [hjoin.2]
        omega
  | case5 m' p ps hjoin ih =>
    rw [mergePairs, if_neg hjoin] at hm
    rcases List.mem_cons.mp hm with rfl | hm
    · exact .inr ⟨m, rfl, t, ht, rfl⟩
    · rcases ih hm with ⟨q, hq, heq⟩ | ⟨m'', hm', t', ht', heq⟩
      · exact .inl ⟨q, by simp [hq], heq⟩
      · obtain rfl := Option.some.inj hm'
        refine .inl ⟨p, by simp, ?_⟩
        change p.1 + t' = m.dst + t at heq
        change t' < 1 at ht'
        omega

/-! ### Harmless fillings keep the contents -/

theorem entries_single {cells : List CacheCell} {d s : Nat} (hds : d < s) (hs : s < cells.length)
    (hfree : (cells.getD d {}).free = true) (row : Nat → κ) :
    entries (applyPair cells (d, s)) (blockCopy s d 1 row) = entries cells row := by
  simp only [entries, applyPair_length]
  apply contents_reindex (Equiv.swap d s)
  · intro i
    by_cases hd : i = d
    · rw [hd, Equiv.swap_apply_left]
      omega
    · by_cases hs' : i = s
      · rw [hs', Equiv.swap_apply_right]
        omega
      · rw [Equiv.swap_apply_of_ne_of_ne hd hs']
  · intro i _
    simp only [slot]
    by_cases hd : i = d
    · rw [hd, Equiv.swap_apply_left, getD_applyPair_dst hds hs,
        blockCopy_inside row (Nat.le_refl _) (Nat.lt_succ_self _), Nat.sub_self, Nat.add_zero]
    · by_cases hs' : i = s
      · rw [hs', Equiv.swap_apply_right, getD_applyPair_src hs, hfree]
        rfl
      · rw [Equiv.swap_apply_of_ne_of_ne hd hs', getD_applyPair_of_ne hd hs',
          blockCopy_outside row (by omega)]

/-- Two cells that agree may be exchanged before they are moved. -/
theorem applyPair_exchange {cells : List CacheCell} {d d' s s' : Nat} (hss : s ≠ s')
    (h1 : d < s) (h2 : d' < s) (h3 : d < s') (h4 : d' < s')
    (heq : cells.getD s {} = cells.getD s' {}) :
    applyPair (applyPair cells (d, s)) (d', s') = applyPair (applyPair cells (d, s')) (d', s) := by
  have src (i j k : Nat) (hj : k ≠ j) (hi : k ≠ i) :
      (applyPair cells (i, j)).getD k {} = cells.getD k {} := getD_applyPair_of_ne hi hj
  rw [applyPair, src d s s' (Ne.symm hss) (by omega), applyPair.eq_1 (applyPair cells (d, s')),
    src d s' s hss (by omega)]
  simp only [applyPair, heq]
  apply List.ext_getElem?
  intro i
  simp only [List.getElem?_set, List.length_set]
  split_ifs <;> first | rfl | omega

theorem entries_double {cells : List CacheCell} {d s' : Nat} (hds : d + 1 < s')
    (hs : s' + 1 < cells.length) (hfree : (cells.getD d {}).free = true)
    (hfree' : (cells.getD (d + 1) {}).free = true)
    (heq : cells.getD (s' + 1) {} = cells.getD s' {}) (row : Nat → κ) :
    entries (applyPair (applyPair cells (d, s' + 1)) (d + 1, s')) (blockCopy s' d 2 row) =
      entries cells row := by
  rw [applyPair_exchange (by omega) (by omega) (by omega) (by omega) (by omega) heq]
  have hrow : blockCopy s' d 2 row = blockCopy (s' + 1) (d + 1) 1 (blockCopy s' d 1 row) := by
    funext j
    simp only [blockCopy]
    split_ifs <;> first | rfl | omega | (congr 1; omega)
  rw [hrow, entries_single (by omega) (by rw [applyPair_length]; omega) _ _,
    entries_single (by omega) (by omega) hfree]
  rwa [getD_applyPair_of_ne (by omega) (by omega)]

/-- A block that no filling extends is copied before anything else. -/
theorem mergePairs_some {m : Move} {ps : List (Nat × Nat)} (h : ∀ p ∈ ps.head?, ¬m.joins p) :
    mergePairs (some m) ps = m :: mergePairs none ps := by
  cases ps with
  | nil => rfl
  | cons p ps => exact if_neg (h p rfl)

theorem mergePairs_apart {d s d' s' : Nat} {ps : List (Nat × Nat)}
    (h : ¬(d' = d + 1 ∧ s' + 1 = s)) :
    mergePairs none ((d, s) :: (d', s') :: ps) =
      ⟨s, d, 1⟩ :: mergePairs none ((d', s') :: ps) := by
  apply mergePairs_some
  intro p hp hjoin
  obtain rfl : (d', s') = p := by simpa using hp
  exact h ⟨hjoin.2, hjoin.1⟩

theorem mergePairs_adjacent (d s' : Nat) (ps : List (Nat × Nat)) :
    mergePairs none ((d, s' + 1) :: (d + 1, s') :: ps) = mergePairs (some ⟨s', d, 2⟩) ps :=
  if_pos ⟨rfl, rfl⟩

theorem entries_mergePairs {cells : List CacheCell} {lo hi : Nat} {ps : List (Nat × Nat)}
    (fills : Fills cells lo hi ps) (hlen : hi ≤ cells.length) (harmless : SwapsHarmless cells ps)
    (row : Nat → κ) :
    entries (applyPairs cells ps) (copyAll (mergePairs none ps) row) = entries cells row := by
  induction ps using SwapsHarmless.induct generalizing cells lo hi row with
  | case1 d s d' s' ps hadj ih =>
    rw [SwapsHarmless, if_pos hadj] at harmless
    obtain ⟨rfl, rfl⟩ := hadj
    obtain ⟨heq, hthird, hrest⟩ := harmless
    have fills' := fills.tail
    obtain ⟨h1, h2, h3, h4, h5, h6, h1', h2', h3', h4', h5', h6', rest⟩ := fills
    rw [mergePairs_adjacent, mergePairs_some hthird, ← entries_double h2' (by omega) h4 h4' heq row]
    apply ih fills'.tail
    · simp only [applyPair_length]
      omega
    · apply SwapsHarmless.congr _ rest hrest
      intro i hi hi'
      rw [getD_applyPair_of_ne (by omega) (by omega), getD_applyPair_of_ne (by omega) (by omega)]
  | case2 d s d' s' ps hadj ih =>
    rw [SwapsHarmless, if_neg hadj] at harmless
    have fills' := fills.tail
    obtain ⟨h1, h2, h3, h4, h5, h6, rest⟩ := fills
    rw [mergePairs_apart hadj, ← entries_single h2 (by omega) h4 row]
    apply ih fills'
    · rw [applyPair_length]
      omega
    · apply SwapsHarmless.congr _ rest harmless
      intro i hi hi'
      rw [getD_applyPair_of_ne (by omega) (by omega)]
  | case3 ps hps =>
    rcases ps with - | ⟨⟨d, s⟩, - | ⟨q, ps⟩⟩
    · rfl
    · have := fills.2.2.1
      exact entries_single fills.2.1 (by omega) fills.2.2.2.1 row
    · exact absurd rfl (hps d s q.1 q.2 ps)

/-! ### Fillings that keep the contents are harmless -/

/-- A block that has grown past two fillings reaches over a free cell. -/
theorem exists_free_of_long {cells : List CacheCell} {m : Move} {ps : List (Nat × Nat)}
    (hlen : 2 ≤ m.length) (hfree : (cells.getD (m.src + 1) {}).free = true) {lo : Nat}
    (fills : Fills cells lo m.src ps) :
    ∃ m' ∈ mergePairs (some m) ps, 2 ≤ m'.length ∧
      (cells.getD (m'.src + 1) {}).free = true := by
  induction ps generalizing m lo with
  | nil => exact ⟨m, by simp [mergePairs], hlen, hfree⟩
  | cons p ps ih =>
    obtain ⟨-, -, h3, -, -, gap, rest⟩ := fills
    rw [mergePairs]
    split
    · rename_i hjoin
      apply ih (m := ⟨p.2, m.dst, m.length + 1⟩) (Nat.le_succ_of_le hlen) _ rest
      apply gap
      · exact Nat.lt_succ_self _
      · have := hjoin.1
        change p.2 + 1 < m.src
        omega
    · exact ⟨m, by simp, hlen, hfree⟩

theorem harmless_of_faithful {cells : List CacheCell} {lo hi : Nat} {ps : List (Nat × Nat)}
    (fills : Fills cells lo hi ps) (target : Nat → CacheCell)
    (htarget : ∀ p ∈ ps, target p.1 = cells.getD p.2 {})
    (faithful : ∀ m ∈ mergePairs none ps, ∀ t < m.length,
      (cells.getD (m.src + t) {}).free = false ∧
        cells.getD (m.src + t) {} = target (m.dst + t)) :
    SwapsHarmless cells ps := by
  induction ps using SwapsHarmless.induct generalizing lo hi with
  | case1 d s d' s' ps hadj ih =>
    obtain ⟨rfl, rfl⟩ := hadj
    obtain ⟨h1, h2, h3, h4, h5, h6, h1', h2', h3', h4', h5', h6', rest⟩ := fills
    rw [SwapsHarmless, if_pos ⟨rfl, rfl⟩]
    rw [mergePairs_adjacent] at faithful
    have hthird : ∀ p ∈ ps.head?, ¬(p.2 + 2 = s' ∧ p.1 = d + 2) := by
      intro p hp hjoin
      cases ps with
      | nil => cases hp
      | cons q ps =>
        obtain rfl : q = p := by simpa using hp
        rw [mergePairs, if_pos (show Move.joins ⟨s', d, 2⟩ q from hjoin)] at faithful
        obtain ⟨-, -, -, -, -, gap, rest'⟩ := rest
        obtain ⟨m, hm, hlong, hfree⟩ := exists_free_of_long (m := ⟨q.2, d, 3⟩) (by simp)
          (gap (q.2 + 1) (Nat.lt_succ_self _) (by omega)) rest'
        rw [(faithful m hm 1 hlong).1] at hfree
        cases hfree
    rw [mergePairs_some hthird] at faithful
    refine ⟨?_, hthird, ih rest ?_ ?_⟩
    · have := (faithful _ (List.mem_cons_self ..) 0 (by simp)).2
      exact (htarget (d, s' + 1) (by simp)).symm.trans this.symm
    · intro p hp
      exact htarget p (by simp [hp])
    · intro m hm
      exact faithful m (List.mem_cons_of_mem _ hm)
  | case2 d s d' s' ps hadj ih =>
    rw [SwapsHarmless, if_neg hadj]
    rw [mergePairs_apart hadj] at faithful
    apply ih fills.2.2.2.2.2.2
    · intro p hp
      exact htarget p (List.mem_cons_of_mem _ hp)
    · intro m hm
      exact faithful m (List.mem_cons_of_mem _ hm)
  | case3 ps hps =>
    rw [SwapsHarmless]
    · trivial
    · exact hps

/-- If every row stays with its cell, also when each row is the number of its cell, the fillings
are harmless. -/
theorem harmless_of_entries {cells : List CacheCell} {lo hi : Nat} {ps : List (Nat × Nat)}
    (fills : Fills cells lo hi ps) (hlen : hi ≤ cells.length)
    (h : entries (applyPairs cells ps) (copyAll (mergePairs none ps) id) = entries cells id) :
    SwapsHarmless cells ps := by
  apply harmless_of_faithful fills fun i => (applyPairs cells ps).getD i {}
  · intro p hp
    exact (getD_applyPairs_dst fills hlen hp).1
  · intro m hm t ht
    rcases mergePairs_dst hm ht with ⟨p, hp, hdst⟩ | ⟨m', hm', -⟩
    · obtain ⟨hcell, hused, hrange⟩ := getD_applyPairs_dst fills hlen hp
      obtain ⟨hrow, -, -⟩ := copyAll_dst fills.blocks hm ht id
      rw [hdst] at hcell hrange
      have hmem : ((applyPairs cells ps).getD (m.dst + t) {}, m.src + t) ∈ entries cells id := by
        rw [← h, entries, mem_contents]
        refine ⟨m.dst + t, by simpa using hrange, ?_, by rw [hrow]; rfl⟩
        rw [hcell, hused]
        rfl
      obtain ⟨i, hi, hi', heq⟩ := mem_contents.mp hmem
      obtain ⟨hcell', rfl⟩ := Prod.mk.inj heq
      exact ⟨by simpa using hi', hcell'.symm⟩
    · cases hm'

theorem fills_fillings (cells : List CacheCell) :
    Fills cells 0 cells.length (fillings cells) := by
  cases cells with
  | nil => trivial
  | cons cell cells =>
    have := fills_fillPairs (cell :: cells) cells.length 0 (cells.length + 1)
    rw [← List.range_eq_range'] at this
    rw [fillings_eq]
    exact this

end Ecco9.KvCache
