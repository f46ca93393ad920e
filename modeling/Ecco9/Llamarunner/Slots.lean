import Ecco9.Llamarunner.InputCache

/-! The slots of the input cache and the KV cache in step: what `LoadCacheSlot` and `ShiftCacheSlot` of
`runner/llamarunner/cache.go` leave behind. -/

namespace Ecco9.Llamarunner

open Ecco9.Library Ecco9.Runner

variable {E : Type}

/-! ### In step -/

/-- The KV cache stores the inputs of the slot at their positions, and nothing behind them while it is
in use. -/
structure InputCacheSlot.Sound (cells : List (Cell E)) (now i : Nat) (s : InputCacheSlot E) : Prop where
  id : s.id = i
  lastUsed : s.lastUsed < now
  front : (held cells i).filter (fun x => x.1 < (s.inputs.length : Int)) = indexed s.inputs
  within : s.inUse = true → ∀ x ∈ held cells i, x.1 < (s.inputs.length : Int)

/-- Where positions can be shifted, no cell is shared. -/
structure InputCache.Sound (m : Memory E) (c : InputCache E) : Prop where
  slots : ∀ (i : Nat) (s : InputCacheSlot E), c.slots[i]? = some s → s.Sound c.cells c.now i
  unshared : m.canShift = true → c.multiUserCache = false ∧ Unshared c.cells

theorem InputCacheSlot.Sound.exact {cells : List (Cell E)} {now i : Nat} {s : InputCacheSlot E}
    (h : s.Sound cells now i) (hused : s.inUse = true) : held cells i = indexed s.inputs := by
  rw [← h.front, Multiset.filter_eq_self.mpr (h.within hused)]

theorem InputCacheSlot.Sound.of_exact {cells : List (Cell E)} {now i : Nat} {s : InputCacheSlot E}
    (hid : s.id = i) (hnow : s.lastUsed < now) (h : held cells i = indexed s.inputs) :
    s.Sound cells now i where
  id := hid
  lastUsed := hnow
  front := by rw [h, indexed_filter, List.take_length]
  within _ x hx := by
    rw [h] at hx
    have := (bounds_of_mem_indexedFrom hx).2
    omega

/-- One slot and what is stored for it are replaced. -/
theorem InputCache.Sound.set {m : Memory E} {c c' : InputCache E} (sound : c.Sound m) {i : Nat}
    {s : InputCacheSlot E} (hslots : c'.slots = c.slots.set i s) (hs : s.Sound c'.cells c'.now i)
    (hnow : c.now ≤ c'.now) (others : ∀ j : Nat, j ≠ i → held c'.cells j = held c.cells j)
    (unshared : m.canShift = true → c'.multiUserCache = false ∧ Unshared c'.cells) : c'.Sound m := by
  refine ⟨fun j t ht => ?_, unshared⟩
  rw [hslots, List.getElem?_set] at ht
  split at ht
  · rename_i hij
    subst hij
    split at ht
    · cases ht
      exact hs
    · cases ht
  · rename_i hij
    have old := sound.slots j t ht
    have hheld := others j fun h => hij h.symm
    exact ⟨old.id, old.lastUsed.trans_le hnow, by rw [hheld]; exact old.front, by
      rw [hheld]; exact old.within⟩

/-! ### What is removed -/

theorem kvCacheSeqRm_other (m : Memory E) (cells : List (Cell E)) {id id' : Int} (h : id' ≠ id)
    (p0 p1 : Int) : held (m.kvCacheSeqRm cells id p0 p1).1 id' = held cells id' := by
  rw [Memory.kvCacheSeqRm]
  split
  · rfl
  · exact held_seqRm_other cells h p0 p1

theorem Unshared.kvCacheSeqRm {cells : List (Cell E)} (h : Unshared cells) (m : Memory E)
    (id p0 p1 : Int) : Unshared (m.kvCacheSeqRm cells id p0 p1).1 := by
  rw [Memory.kvCacheSeqRm]
  split
  · exact h
  · exact h.seqRm id p0 p1

theorem held_whole (m : Memory E) (cells : List (Cell E)) (id : Int) :
    held (m.kvCacheSeqRm cells id 0 (-1)).1 id = 0 := by
  rw [Memory.kvCacheSeqRm, m.whole, if_neg Bool.false_ne_true, held_seqRm, Multiset.filter_eq_nil]
  intro x hx
  have := m.documented.positions cells id x hx
  omega

/-- What `SeqRm` from `n` on leaves. -/
theorem held_from (cells : List (Cell E)) (id : Int) (n : Nat) :
    held (seqRm id n (-1) cells) id = (held cells id).filter fun x => x.1 < (n : Int) := by
  rw [held_seqRm]
  refine Multiset.filter_congr fun x _ => ?_
  omega

/-! ### The search for a slot -/

section

variable [DecidableEq E]

theorem longer_fold {prompt : List (Input E)} {l : List (InputCacheSlot E × Nat)}
    {start : Option (Nat × Nat)} {r : Nat × Nat} (h : l.foldl (longer prompt) start = some r) :
    start = some r ∨
      ∃ s ∈ l, s.1.inUse = false ∧ r = (s.2, countCommonPrefix s.1.inputs prompt) := by
  induction l generalizing start with
  | nil => exact .inl h
  | cons s l ih =>
    rcases ih h with hstart | ⟨t, ht, hfree, hr⟩
    · rw [longer] at hstart
      split at hstart
      · exact .inl hstart
      · rename_i hfree
        split at hstart
        · exact .inr ⟨s, List.mem_cons_self .., Bool.eq_false_of_not_eq_true hfree,
            (Option.some.inj hstart).symm⟩
        · exact .inl hstart
    · exact .inr ⟨t, List.mem_cons_of_mem _ ht, hfree, hr⟩

theorem longer_isSome (prompt : List (Input E)) {l : List (InputCacheSlot E × Nat)}
    {start : Option (Nat × Nat)} (h : start.isSome = true ∨ ∃ s ∈ l, s.1.inUse = false) :
    (l.foldl (longer prompt) start).isSome = true := by
  induction l generalizing start with
  | nil => exact h.resolve_right fun ⟨_, hs, _⟩ => absurd hs List.not_mem_nil
  | cons s l ih =>
    refine ih ?_
    rw [longer]
    rcases h with hstart | ⟨t, ht, hfree⟩
    · left
      split
      · exact hstart
      · split
        · rfl
        · exact hstart
    · rcases List.mem_cons.mp ht with rfl | ht
      · left
        rw [if_neg (by rw [hfree]; exact Bool.false_ne_true)]
        cases start with
        | none => rfl
        | some l => split <;> rfl
      · exact .inr ⟨t, ht, hfree⟩

/-- What the loop of `findBestCacheSlot` has found among the slots `l`. -/
structure Best.Found (prompt : List (Input E)) (l : List (InputCacheSlot E × Nat)) (b : Best) :
    Prop where
  longest : ∀ r ∈ b.longest, ∃ s ∈ l, r = (s.2, countCommonPrefix s.1.inputs prompt)
  oldestSlot : ∀ j ∈ b.oldestSlot, ∃ s ∈ l, s.1.inUse = false ∧ s.2 = j

theorem Best.found (prompt : List (Input E)) (l : List (InputCacheSlot E × Nat)) (oldest : Nat) :
    Best.Found prompt l (l.foldl (Best.visit prompt) { oldest }) := by
  refine List.foldlRecOn l _ ⟨fun r hr => absurd hr (by simp), fun j hj => absurd hj (by simp)⟩
    fun b found s hs => ?_
  have hlongest : ∀ r, r ∈ (if ∀ l ∈ b.longest, l.2 < countCommonPrefix s.1.inputs prompt then
      some (s.2, countCommonPrefix s.1.inputs prompt) else b.longest) →
      ∃ s ∈ l, r = (s.2, countCommonPrefix s.1.inputs prompt) := by
    intro r hr
    split at hr
    · exact ⟨s, hs, (Option.some.inj hr).symm⟩
    · exact found.longest r hr
  unfold Best.visit
  dsimp only
  split
  · rename_i holder
    refine ⟨hlongest, fun j hj => ⟨s, hs, ?_, Option.some.inj hj⟩⟩
    simpa using holder.2
  · exact ⟨hlongest, found.oldestSlot⟩

theorem Best.longest_isSome (prompt : List (Input E)) {l : List (InputCacheSlot E × Nat)} {b : Best}
    (h : b.longest.isSome = true ∨ l ≠ []) :
    (l.foldl (Best.visit prompt) b).longest.isSome = true := by
  induction l generalizing b with
  | nil => exact h.resolve_right fun hne => hne rfl
  | cons s l ih =>
    refine ih (.inl ?_)
    have : (if ∀ l ∈ b.longest, l.2 < countCommonPrefix s.1.inputs prompt then
        some (s.2, countCommonPrefix s.1.inputs prompt) else b.longest).isSome = true := by
      cases b.longest with
      | none => rfl
      | some l => split <;> rfl
    unfold Best.visit
    dsimp only
    split <;> exact this

theorem Best.oldestSlot_isSome (prompt : List (Input E)) {l : List (InputCacheSlot E × Nat)}
    {b : Best} (h : b.oldestSlot.isSome = true ∨
      ∃ s ∈ l, s.1.inUse = false ∧ s.1.lastUsed < b.oldest) :
    (l.foldl (Best.visit prompt) b).oldestSlot.isSome = true := by
  induction l generalizing b with
  | nil => exact h.resolve_right fun ⟨_, hs, _⟩ => absurd hs List.not_mem_nil
  | cons s l ih =>
    refine ih ?_
    unfold Best.visit
    dsimp only
    split
    · exact .inl rfl
    · rename_i hkeep
      rcases h with hstart | ⟨t, ht, hfree, holder⟩
      · exact .inl hstart
      · rcases List.mem_cons.mp ht with rfl | ht
        · exact absurd ⟨holder, by rw [hfree]; rfl⟩ hkeep
        · exact .inr ⟨t, ht, hfree, holder⟩

/-- The slot that a search found, and the state it left for `LoadCacheSlot`. -/
structure Found (m : Memory E) (c : InputCache E) (prompt : List (Input E)) (c' : InputCache E)
    (i numPast : Nat) : Prop where
  free : ∃ s, c.slots[i]? = some s ∧ s.inUse = false
  same : c'.numCtx = c.numCtx ∧ c'.multiUserCache = c.multiUserCache ∧ c'.now = c.now
  set : ∀ t, c'.slots.set i t = c.slots.set i t
  slot : (c'.slot i).id = i
  le : numPast ≤ prompt.length
  front : (held c'.cells i).filter (fun x => x.1 < (numPast : Int)) = indexed (prompt.take numPast)
  others : ∀ j : Nat, j ≠ i → held c'.cells j = held c.cells j
  unshared : m.canShift = true → c'.multiUserCache = false ∧ Unshared c'.cells

/-- The prefix that a slot shares with the prompt is stored for it. -/
theorem InputCacheSlot.Sound.common {cells : List (Cell E)} {now i : Nat} {s : InputCacheSlot E}
    (h : s.Sound cells now i) (prompt : List (Input E)) :
    (held cells i).filter (fun x => x.1 < (countCommonPrefix s.inputs prompt : Int)) =
      indexed (prompt.take (countCommonPrefix s.inputs prompt)) := by
  obtain ⟨htake, hle, _⟩ := take_countCommonPrefix s.inputs prompt
  rw [← htake, ← indexed_filter, ← h.front, Multiset.filter_filter]
  refine Multiset.filter_congr fun x _ => ?_
  omega

theorem InputCache.Sound.found {m : Memory E} {c : InputCache E} (sound : c.Sound m) {i : Nat}
    {s : InputCacheSlot E} (h : c.slots[i]? = some s) (hfree : s.inUse = false)
    (prompt : List (Input E)) : Found m c prompt c i (countCommonPrefix s.inputs prompt) where
  free := ⟨s, h, hfree⟩
  same := ⟨rfl, rfl, rfl⟩
  set _ := rfl
  slot := by rw [slot_eq h, (sound.slots i s h).id]
  le := (take_countCommonPrefix s.inputs prompt).2.2
  front := (sound.slots i s h).common prompt
  others _ _ := rfl
  unshared := sound.unshared

/-- A copy of the front of one slot's inputs, in place of what another slot held. -/
theorem InputCache.Sound.forked {m : Memory E} {c : InputCache E} (sound : c.Sound m)
    (hmulti : c.multiUserCache = true) {i j : Nat} {s t : InputCacheSlot E}
    (hs : c.slots[i]? = some s) (ht : c.slots[j]? = some t) (hfree : t.inUse = false) (hne : i ≠ j)
    (prompt : List (Input E)) : Found m c prompt (c.fork m i j (countCommonPrefix s.inputs prompt)) j
      (countCommonPrefix s.inputs prompt) := by
  have hi := (sound.slots i s hs).id
  have hj := (sound.slots j t ht).id
  have hne' : (i : Int) ≠ j := fun h => hne (Int.ofNat.inj h)
  have hcells : (c.fork m i j (countCommonPrefix s.inputs prompt)).cells =
      seqCp i j 0 (countCommonPrefix s.inputs prompt) (m.kvCacheSeqRm c.cells j 0 (-1)).1 := by
    rw [fork, slot_eq hs, slot_eq ht, hi, hj]
  have hslots : (c.fork m i j (countCommonPrefix s.inputs prompt)).slots =
      c.slots.set j { t with inputs := s.inputs.take (countCommonPrefix s.inputs prompt) } := by
    rw [fork, slot_eq hs, setInputs_eq ht]
  have hempty := held_whole m c.cells j
  refine ⟨⟨t, ht, hfree⟩, ⟨rfl, rfl, rfl⟩, fun x => ?_, ?_,
    (take_countCommonPrefix s.inputs prompt).2.2, ?_, fun k hk => ?_, fun hshift => ?_⟩
  · rw [hslots, List.set_set]
  · rw [slot_eq (by rw [hslots]; exact getElem?_set_some ht _)]
    exact hj
  · rw [hcells, held_seqCp _ hne' hempty, kvCacheSeqRm_other m c.cells hne',
      ← (sound.slots i s hs).common prompt, Multiset.filter_filter]
    refine Multiset.filter_congr fun x hx => ?_
    have := m.documented.positions c.cells i x hx
    omega
  · have hk' : (k : Int) ≠ j := fun h => hk (Int.ofNat.inj h)
    rw [hcells, held_seqCp_other _ hk', kvCacheSeqRm_other m c.cells hk']
  · exact absurd hmulti (by rw [(sound.unshared hshift).1]; exact Bool.false_ne_true)

theorem InputCache.Sound.findCacheSlot {m : Memory E} {c : InputCache E} (sound : c.Sound m)
    (hfree : ∃ s ∈ c.slots, s.inUse = false) (prompt : List (Input E)) :
    ∃ c' i numPast, c.findCacheSlot m prompt = some (c', i, numPast) ∧
      Found m c prompt c' i numPast := by
  obtain ⟨s, hs, hfree⟩ := hfree
  obtain ⟨j, hj⟩ := List.mem_iff_getElem?.mp hs
  have hmem : (s, j) ∈ c.slots.zipIdx := List.mk_mem_zipIdx_iff_getElem?.mpr hj
  rw [InputCache.findCacheSlot]
  by_cases hmulti : c.multiUserCache = true
  · rw [if_pos hmulti, findBestCacheSlot]
    have found := Best.found prompt c.slots.zipIdx c.now
    have hlongest := Best.longest_isSome prompt (b := { oldest := c.now })
      (.inr (List.ne_nil_of_mem hmem))
    have holdest := Best.oldestSlot_isSome prompt (b := { oldest := c.now })
      (.inr ⟨_, hmem, hfree, (sound.slots j s hj).lastUsed⟩)
    generalize c.slots.zipIdx.foldl (Best.visit prompt) { oldest := c.now } = best at *
    obtain ⟨longest, hlongest⟩ := Option.isSome_iff_exists.mp hlongest
    obtain ⟨oldestSlot, holdest⟩ := Option.isSome_iff_exists.mp holdest
    obtain ⟨⟨t, i⟩, ht, rfl⟩ := found.longest longest hlongest
    obtain ⟨⟨u, k⟩, hu, hufree, rfl⟩ := found.oldestSlot oldestSlot holdest
    have ht : c.slots[i]? = some t := List.mk_mem_zipIdx_iff_getElem?.mp ht
    have hu : c.slots[k]? = some u := List.mk_mem_zipIdx_iff_getElem?.mp hu
    dsimp only at hufree hlongest holdest
    simp only [hlongest, holdest, slot_eq ht, slot_eq hu]
    split
    · rename_i hwhole
      exact ⟨_, _, _, rfl, sound.found ht (by simpa using hwhole.2) prompt⟩
    · rw [if_neg (by rw [hufree]; exact Bool.false_ne_true)]
      split
      · rename_i hfork
        exact ⟨_, _, _, rfl, sound.forked hmulti ht hu hufree hfork.2 prompt⟩
      · rename_i hsame
        refine ⟨_, _, _, rfl, ?_⟩
        by_cases hik : i = k
        · subst hik
          cases ht.symm.trans hu
          exact sound.found ht hufree prompt
        · have hzero : countCommonPrefix t.inputs prompt = 0 := by
            by_contra hpos
            exact hsame ⟨Nat.pos_of_ne_zero hpos, hik⟩
          rw [hzero]
          have base := sound.found hu hufree prompt
          refine { base with le := Nat.zero_le _, front := ?_ }
          rw [List.take_zero]
          refine Multiset.filter_eq_nil.mpr fun x hx => ?_
          have := m.documented.positions c.cells k x hx
          omega
  · rw [if_neg hmulti]
    have hsome : (c.slots.zipIdx.foldl (longer prompt) none).isSome = true :=
      longer_isSome prompt (.inr ⟨_, hmem, hfree⟩)
    obtain ⟨r, hr⟩ := Option.isSome_iff_exists.mp hsome
    obtain ⟨⟨t, i⟩, ht, htfree, rfl⟩ := (longer_fold hr).resolve_left (Option.some_ne_none _).symm
    have ht : c.slots[i]? = some t := List.mk_mem_zipIdx_iff_getElem?.mp ht
    rw [findLongestCacheSlot, hr]
    exact ⟨_, _, _, rfl, sound.found ht htfree prompt⟩

/-! ### Loading a slot -/

omit [DecidableEq E] in
/-- Where the removal is refused, everything is removed. -/
theorem InputCache.truncate_front {m : Memory E} {c : InputCache E} {i n : Nat} {l : List (Input E)}
    (hid : (c.slot i).id = i)
    (front : (held c.cells i).filter (fun x => x.1 < (n : Int)) = indexed (l.take n)) :
    ∃ cells k, c.truncate m i n = ({ c with cells }, k) ∧ k ≤ n ∧ held cells i = indexed (l.take k) ∧
      (∀ j : Nat, j ≠ i → held cells j = held c.cells j) ∧ (Unshared c.cells → Unshared cells) := by
  have hother (j : Nat) (hj : j ≠ i) : (j : Int) ≠ i := fun h => hj (Int.ofNat.inj h)
  rw [truncate, hid]
  cases hrefuses : m.refuses c.cells i n (-1) with
  | true =>
    have hrm : m.kvCacheSeqRm c.cells i n (-1) = (c.cells, false) := by
      rw [Memory.kvCacheSeqRm, if_pos hrefuses]
    rw [hrm]
    refine ⟨_, 0, rfl, Nat.zero_le _, held_whole m c.cells i, fun j hj => ?_, fun h => ?_⟩
    · exact kvCacheSeqRm_other m c.cells (hother j hj) _ _
    · exact h.kvCacheSeqRm m i 0 (-1)
  | false =>
    have hrm : m.kvCacheSeqRm c.cells i n (-1) = (seqRm i n (-1) c.cells, true) := by
      rw [Memory.kvCacheSeqRm, if_neg (by rw [hrefuses]; exact Bool.false_ne_true)]
    rw [hrm]
    refine ⟨_, n, rfl, Nat.le_refl n, (held_from c.cells i n).trans front, fun j hj => ?_, fun h => ?_⟩
    · exact held_seqRm_other c.cells (hother j hj) _ _
    · exact h.seqRm i n (-1)

/-- The state after a prompt has been loaded into slot `i`, which was free. -/
structure Loaded (m : Memory E) (c : InputCache E) (prompt : List (Input E)) (c' : InputCache E)
    (i : Nat) (rest : List (Input E)) : Prop where
  free : ∃ s, c.slots[i]? = some s ∧ s.inUse = false
  slots : ∃ n lastUsed, n < prompt.length ∧ rest = prompt.drop n ∧
    c'.slots = c.slots.set i ⟨i, prompt.take n, true, lastUsed⟩
  sound : c'.Sound m
  numCtx : c'.numCtx = c.numCtx

/-- With a slot that is not in use, a prompt is loaded. -/
theorem InputCache.Sound.loadCacheSlot {m : Memory E} {c : InputCache E} (sound : c.Sound m)
    (hfree : ∃ s ∈ c.slots, s.inUse = false) {prompt : List (Input E)} (hprompt : prompt ≠ [])
    (cachePrompt : Bool) : ∃ c' i rest, c.loadCacheSlot m prompt cachePrompt = some (c', i, rest) ∧
      Loaded m c prompt c' i rest := by
  obtain ⟨c₁, i, numPast, hfind, found⟩ := sound.findCacheSlot hfree prompt
  obtain ⟨s, hs, hsfree⟩ := found.free
  obtain ⟨hctx, hmulti, hnow⟩ := found.same
  have hlen := List.length_pos_iff.mpr hprompt
  rw [InputCache.loadCacheSlot, hfind]
  dsimp only
  generalize hn : (if (if cachePrompt then numPast else 0) = prompt.length then
    (if cachePrompt then numPast else 0) - 1 else if cachePrompt then numPast else 0) = n
  have hle : n ≤ numPast ∧ n < prompt.length := by
    have := found.le
    subst hn
    split <;> split <;> omega
  have front : (held c₁.cells i).filter (fun x => x.1 < (n : Int)) = indexed (prompt.take n) := by
    have htake := indexed_filter (prompt.take numPast) n
    rw [List.take_take, Nat.min_eq_left hle.1] at htake
    rw [← htake, ← found.front, Multiset.filter_filter]
    refine Multiset.filter_congr fun x _ => ?_
    omega
  let t : InputCacheSlot E := { c₁.slot i with inUse := true, lastUsed := c₁.now + 1 }
  have hset (x : InputCacheSlot E) : (c₁.slots.set i t).set i x = c.slots.set i x := by
    rw [List.set_set, found.set]
  have ht : (c₁.slots.set i t)[i]? = some t := by
    rw [found.set]
    exact getElem?_set_some hs t
  obtain ⟨cells, k, htruncate, hk, hheld, others, hunshared⟩ := truncate_front (m := m)
    (c := { c₁.setSlot i t with now := c₁.now + 2 }) (l := prompt) (n := n)
    (by rw [slot_eq ht]; exact found.slot) front
  rw [htruncate]
  have hslots : ({ c₁.setSlot i t with cells, now := c₁.now + 2 } : InputCache E).setInputs i
      (prompt.take k) = { c₁ with
        slots := c.slots.set i ⟨i, prompt.take k, true, c₁.now + 1⟩, cells, now := c₁.now + 2 } := by
    rw [setInputs_eq (s := t) ht]
    dsimp only [setSlot]
    rw [hset, ← found.slot]
  refine ⟨_, i, _, rfl, ⟨s, hs, hsfree⟩, ⟨k, c₁.now + 1, hk.trans_lt hle.2, rfl, ?_⟩, ?_, ?_⟩
  · exact congrArg InputCache.slots hslots
  · have hsound : (⟨i, prompt.take k, true, c₁.now + 1⟩ : InputCacheSlot E).Sound cells (c₁.now + 2) i :=
      .of_exact rfl (Nat.lt_succ_self _) hheld
    refine (congrArg (InputCache.Sound m) hslots).mpr (sound.set rfl hsound ?_ (fun j hj => ?_)
      fun hshift => ?_)
    · exact hnow ▸ Nat.le_add_right ..
    · exact (others j hj).trans (found.others j hj)
    · exact (found.unshared hshift).imp id hunshared
  · exact (congrArg InputCache.numCtx hslots).trans hctx

end

/-! ### Shifting a slot -/

theorem remove_eq (m : Memory E) (cells : List (Cell E)) (id : Int) (b e n : Nat) :
    m.context.ops.remove cells id b e n =
      if m.canShift = true then
        let removed := m.kvCacheSeqRm cells id b e
        (if removed.2 = true then seqAdd id e n (b - e) removed.1 else removed.1, removed.2)
      else (cells, false) := by
  unfold LlamaContext.ops
  by_cases hshift : m.canShift = true
  · rw [if_pos hshift]
    refine (if_pos hshift).trans ?_
    rw [show m.context.kvCacheSeqRm = m.kvCacheSeqRm from rfl]
    rcases m.kvCacheSeqRm cells id b e with ⟨cells', _ | _⟩ <;> rfl
  · rw [if_neg hshift]
    exact if_neg hshift

theorem remove_other {m : Memory E} {cells : List (Cell E)}
    (unshared : m.canShift = true → Unshared cells) {id id' : Int} (h : id' ≠ id) (b e n : Nat) :
    held (m.context.ops.remove cells id b e n).1 id' = held cells id' ∧
      (Unshared cells → Unshared (m.context.ops.remove cells id b e n).1) := by
  rw [remove_eq]
  by_cases hshift : m.canShift = true
  · have hrm := kvCacheSeqRm_other m cells h b e
    have hkeep := (unshared hshift).kvCacheSeqRm m id b e
    rw [if_pos hshift]
    dsimp only
    split
    · exact ⟨(held_seqAdd_other hkeep h e n (b - e)).trans hrm, fun _ => hkeep.seqAdd id e n (b - e)⟩
    · exact ⟨hrm, fun _ => hkeep⟩
  · rw [if_neg hshift]
    exact ⟨rfl, fun h => h⟩

theorem shiftCacheSlot_other {m : Memory E} {cells : List (Cell E)}
    (unshared : m.canShift = true → Unshared cells) {id id' : Int} (h : id' ≠ id)
    {numCtx numKeep : Nat} {inputs : List (Input E)} {r : Shifted (List (Cell E)) (Input E)}
    (hr : m.context.ops.shiftCacheSlot {} numCtx cells id inputs numKeep = some r) :
    held r.cache id' = held cells id' ∧ (Unshared cells → Unshared r.cache) := by
  unfold ShiftOps.shiftCacheSlot at hr
  split at hr
  · cases hr
    exact ⟨rfl, fun h => h⟩
  · dsimp only at hr
    split at hr
    · cases hr
      exact ⟨rfl, fun h => h⟩
    · have hremove := remove_other unshared h numKeep
        (numKeep + shiftDiscard numCtx inputs.length numKeep) inputs.length
      split at hr <;> rename_i cells' hcells <;> rw [hcells] at hremove <;>
        obtain ⟨l, _, rfl⟩ := Option.map_eq_some_iff.mp hr
      · exact hremove
      · exact ⟨(kvCacheSeqRm_other m cells' h 0 (-1)).trans hremove.1,
          fun hun => (hremove.2 hun).kvCacheSeqRm m id 0 (-1)⟩

/-- How a slot in use that is full is shifted: `d` of its inputs are dropped. -/
inductive ShiftEnds (c c' : InputCache E) (i numKeep d : Nat) (s : InputCacheSlot E) :
    ShiftEnd (Input E) → Prop
  | ok (slots : c'.slots = c.slots.set i { s with inputs := keepAround s.inputs numKeep d }) :
      ShiftEnds c c' i numKeep d s .ok
  | reprocess (slots : c'.slots = c.slots.set i { s with inputs := [] }) :
      ShiftEnds c c' i numKeep d s (.reprocess (keepAround s.inputs numKeep d))

theorem InputCache.Sound.shiftCacheSlot {m : Memory E} {c : InputCache E} (sound : c.Sound m)
    {i numKeep : Nat} {s : InputCacheSlot E} (hs : c.slots[i]? = some s) (hused : s.inUse = true)
    (hkeep : numKeep < c.numCtx) (hmax : (c.numCtx : Int) ≤ maxInt32)
    (hfull : s.inputs.length = c.numCtx) :
    ∃ c' d r, c.shiftCacheSlot m i numKeep = some (c', r) ∧ 0 < d ∧ numKeep + d ≤ s.inputs.length ∧
      ShiftEnds c c' i numKeep d s r ∧ c'.Sound m ∧ c'.numCtx = c.numCtx := by
  have hslot := sound.slots i s hs
  have hexact := hslot.exact hused
  have hbounds : ∀ x ∈ held c.cells i, 0 ≤ x.1 ∧ x.1 < s.inputs.length := fun x hx =>
    ⟨m.documented.positions c.cells i x hx, hslot.within hused x hx⟩
  obtain ⟨r, hr, shifted⟩ := m.documented.renumbers.shiftedTo ({} : Input E) hkeep
    (hfull ▸ hmax) hbounds
  have hd : shiftDiscard c.numCtx s.inputs.length numKeep ≠ 0 := by
    have hpos : 1 ≤ Nat.max ((c.numCtx - numKeep) / 2) 1 := Nat.le_max_right ..
    unfold shiftDiscard
    dsimp only
    omega
  have hend := (shiftDiscard_bounds hkeep s.inputs.length hd).1
  generalize shiftDiscard c.numCtx s.inputs.length numKeep = d at *
  have hunshared (h : m.canShift = true) := (sound.unshared h).2
  have hresult : c.shiftCacheSlot m i numKeep =
      some ({ c with slots := c.slots.set i { s with inputs := r.inputs }, cells := r.cache }, r.result) := by
    rw [InputCache.shiftCacheSlot, slot_eq hs, hslot.id, hr, Option.map_some, setInputs_eq hs,
      hslot.id]
  have hsound (inputs : List (Input E)) (h : held r.cache i = indexed inputs) :
      ({ c with slots := c.slots.set i { s with inputs }, cells := r.cache } : InputCache E).Sound m := by
    refine sound.set rfl (.of_exact hslot.id hslot.lastUsed h) (Nat.le_refl _) (fun j hj => ?_)
      fun hshift => ?_
    · exact (shiftCacheSlot_other hunshared (fun h => hj (Int.ofNat.inj h)) hr).1
    · exact (sound.unshared hshift).imp id (shiftCacheSlot_other hunshared
        (show ((i : Int) + 1) ≠ i by omega) hr).2
  cases hok : (m.context.ops.remove c.cells i numKeep (numKeep + d) s.inputs.length).2 with
  | true =>
    obtain ⟨hres, hinputs, _, hheld, _⟩ := shifted.removed hd hok
    refine ⟨_, d, _, hresult, Nat.pos_of_ne_zero hd, hend, ?_, ?_, rfl⟩
    · rw [hres, hinputs]
      exact .ok rfl
    · refine hsound r.inputs ?_
      rw [hheld, hexact, indexed_renumbered hend, hinputs]
  | false =>
    obtain ⟨hres, hinputs, hheld⟩ := shifted.failed hd hok
    refine ⟨_, d, _, hresult, Nat.pos_of_ne_zero hd, hend, ?_, ?_, rfl⟩
    · rw [hres, hinputs]
      exact .reprocess rfl
    · refine hsound r.inputs ?_
      rw [hheld, hinputs]
      rfl

end Ecco9.Llamarunner
