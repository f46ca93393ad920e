import Ecco9.Llamarunner.Slots

/-! Whole runs of the input cache of `runner/llamarunner/cache.go`: what `runner/llamarunner/runner.go` does with
it under the server's mutex, in any order. -/

namespace Ecco9.Llamarunner

open Ecco9.Library Ecco9.Runner

variable {E : Type}

/-! ### What the runner does -/

/-- `NewSequence`, for the inputs of a prompt: those that are processed, and how many of them a shift
keeps. It fails where there are none. -/
def newSequence (numCtx : Nat) (addBOSToken : Bool) (inputs : List (Input E)) (numKeep : Int) :
    Option (List (Input E) × Nat) :=
  if inputs.length = 0 then none
  else
    let numKeep := if numKeep < 0 then inputs.length else numKeep.toNat
    let numKeep := if addBOSToken then numKeep + 1 else numKeep
    -- at least one input can be discarded by a shift
    let numKeep := min numKeep (numCtx - 1)
    if inputs.length > numCtx then
      some (inputs.take numKeep ++ inputs.drop (numKeep + (inputs.length - numCtx)), numKeep)
    else some (inputs, numKeep)

/-- `Decode` has stored the pending inputs of a sequence with slot `i` behind those of the slot, and
`processBatch` notes it. -/
def InputCache.decode (c : InputCache E) (i : Nat) (pendingInputs : List (Input E)) : InputCache E :=
  let s := c.slot i
  { c.setInputs i (s.inputs ++ pendingInputs) with
    cells := c.cells ++ pendingInputs.zipIdx.map fun x => ⟨{s.id}, s.inputs.length + x.2, x.1⟩ }

/-- A sequence has ended: `n` inputs stay where a stop was hit, and the slot is given back. -/
def InputCache.release (c : InputCache E) (i n : Nat) : InputCache E :=
  c.setSlot i { c.slot i with inputs := (c.slot i).inputs.take n, inUse := false }

inductive CacheOp (E : Type)
  | load (inputs : List (Input E)) (numKeep : Int) (cachePrompt : Bool)
  | shift (i numKeep : Nat)
  | decode (i : Nat) (pendingInputs : List (Input E))
  | release (i n : Nat)

/-- One step; `none` where the runner does not take it, and where it fails. A request waits until a
sequence, and with it a slot, is free. A slot is shifted when it is full, for a sequence that keeps less
than the context. -/
def CacheOp.step [DecidableEq E] (m : Memory E) (addBOSToken : Bool) (c : InputCache E) :
    CacheOp E → Option (InputCache E)
  | .load inputs numKeep cachePrompt =>
    match newSequence c.numCtx addBOSToken inputs numKeep with
    | none => none
    | some (prompt, _) =>
      if ∃ s ∈ c.slots, s.inUse = false then (c.loadCacheSlot m prompt cachePrompt).map (·.1) else none
  | .shift i numKeep =>
    if i < c.slots.length ∧ (c.slot i).inUse ∧ (c.slot i).inputs.length + 1 > c.numCtx ∧
        numKeep < c.numCtx then
      (c.shiftCacheSlot m i numKeep).map (·.1)
    else none
  | .decode i pendingInputs =>
    if i < c.slots.length ∧ (c.slot i).inUse ∧
        (c.slot i).inputs.length + pendingInputs.length ≤ c.numCtx then
      some (c.decode i pendingInputs)
    else none
  | .release i n =>
    if i < c.slots.length ∧ (c.slot i).inUse then some (c.release i n) else none

structure Config where
  kvSize : Nat
  parallel : Nat
  multiUserCache : Bool
  addBOSToken : Bool

def run [DecidableEq E] (m : Memory E) (config : Config) (ops : List (CacheOp E)) :
    Option (InputCache E) :=
  (newInputCache E config.kvSize config.parallel config.multiUserCache).bind fun c =>
    ops.foldlM (CacheOp.step m config.addBOSToken) c

/-! ### One step -/

section

variable {m : Memory E} {c c' : InputCache E} {i : Nat} {s : InputCacheSlot E}

theorem InputCache.getElem?_slot (h : i < c.slots.length) : c.slots[i]? = some (c.slot i) := by
  rw [slot, List.getD_eq_getElem?_getD, List.getElem?_eq_getElem h, Option.getD_some]

/-- The cells of inputs that stand behind `n` others belong to one sequence. -/
theorem held_placed (id id' : Int) (n : Nat) (l : List (Input E)) :
    held (l.zipIdx.map fun x => (⟨{id'}, n + x.2, x.1⟩ : Cell E)) id =
      if id = id' then indexedFrom n l else 0 := by
  have general (k : Nat) : held ((l.zipIdx k).map fun x => (⟨{id'}, n + x.2, x.1⟩ : Cell E)) id =
      if id = id' then indexedFrom (n + k) l else 0 := by
    induction l generalizing k with
    | nil => rw [List.zipIdx_nil, List.map_nil, held_nil, indexedFrom, ite_self]
    | cons a l ih =>
      rw [List.zipIdx_cons, List.map_cons, held_cons, ih, Cell.held, indexedFrom]
      by_cases h : id = id'
      · rw [if_pos (Finset.mem_singleton.mpr h), if_pos h, if_pos h, Multiset.singleton_add,
          Nat.add_assoc]
      · rw [if_neg fun hmem => h (Finset.mem_singleton.mp hmem), if_neg h, if_neg h, add_zero]
  exact general 0

theorem InputCache.Sound.decode (sound : c.Sound m) (hs : c.slots[i]? = some s) (hused : s.inUse = true)
    (pendingInputs : List (Input E)) : (c.decode i pendingInputs).Sound m := by
  have hslot := sound.slots i s hs
  have hcells : (c.decode i pendingInputs).cells = c.cells ++
      pendingInputs.zipIdx.map fun x => ⟨{(i : Int)}, s.inputs.length + x.2, x.1⟩ := by
    rw [InputCache.decode, slot_eq hs, hslot.id]
  have hslots : (c.decode i pendingInputs).slots =
      c.slots.set i { s with inputs := s.inputs ++ pendingInputs } := by
    rw [InputCache.decode, slot_eq hs, setInputs_eq hs]
  refine sound.set hslots (.of_exact hslot.id hslot.lastUsed ?_) (Nat.le_refl _) (fun j hj => ?_)
    fun hshift => (sound.unshared hshift).imp id fun unshared => ?_
  · rw [hcells, held_append, hslot.exact hused, held_placed, if_pos rfl, indexed, indexed,
      indexedFrom_append, Nat.zero_add]
  · have hother : (j : Int) ≠ i := fun h => hj (Int.ofNat.inj h)
    rw [hcells, held_append, held_placed, if_neg hother, add_zero]
  · rw [hcells]
    intro cell hcell
    rcases List.mem_append.mp hcell with hold | hnew
    · exact unshared cell hold
    · obtain ⟨x, _, rfl⟩ := List.mem_map.mp hnew
      intro id hid id' hid'
      rw [Finset.mem_singleton.mp hid, Finset.mem_singleton.mp hid']

/-- What is stored for a slot that is given back may be more than its inputs. -/
theorem InputCache.Sound.release (sound : c.Sound m) (hs : c.slots[i]? = some s) (n : Nat) :
    (c.release i n).Sound m := by
  have hslot := sound.slots i s hs
  have hslots : (c.release i n).slots =
      c.slots.set i { s with inputs := s.inputs.take n, inUse := false } := by
    rw [InputCache.release, slot_eq hs, setSlot]
  refine sound.set hslots ⟨hslot.id, hslot.lastUsed, ?_, fun h => absurd h Bool.false_ne_true⟩
    (Nat.le_refl _) (fun _ _ => rfl) sound.unshared
  have htake := indexed_filter s.inputs (s.inputs.take n).length
  rw [← hslot.front, Multiset.filter_filter, List.length_take, ← List.take_eq_take_min] at htake
  refine Eq.trans (Multiset.filter_congr fun x _ => ?_) htake
  dsimp only
  rw [List.length_take]
  omega

/-- The slots keep to the context. -/
def InputCache.Fits (c : InputCache E) : Prop :=
  ∀ (i : Nat) (s : InputCacheSlot E), c.slots[i]? = some s → s.inputs.length ≤ c.numCtx

theorem InputCache.Fits.set (fits : c.Fits) (hctx : c'.numCtx = c.numCtx)
    (hslots : c'.slots = c.slots.set i s) (hs : s.inputs.length ≤ c.numCtx) : c'.Fits := by
  intro j t ht
  rw [hslots, List.getElem?_set] at ht
  rw [hctx]
  split at ht
  · split at ht
    · cases ht
      exact hs
    · cases ht
  · exact fits j t ht

/-- A prompt is cut to the context, and something of it can be discarded later. -/
theorem newSequence_admissible {numCtx : Nat} (hctx : 0 < numCtx) {addBOSToken : Bool}
    {inputs prompt : List (Input E)} {numKeep : Int} {keep : Nat}
    (h : newSequence numCtx addBOSToken inputs numKeep = some (prompt, keep)) :
    prompt ≠ [] ∧ prompt.length ≤ numCtx ∧ keep < numCtx := by
  unfold newSequence at h
  split at h
  · cases h
  · rename_i hne
    dsimp only at h
    generalize (if addBOSToken = true then (if numKeep < 0 then inputs.length else numKeep.toNat) + 1
      else if numKeep < 0 then inputs.length else numKeep.toNat) = k at h
    have hk : min k (numCtx - 1) < numCtx := by omega
    split at h
    · obtain ⟨rfl, rfl⟩ := Prod.mk.inj (Option.some.inj h)
      have hlen : (inputs.take (min k (numCtx - 1)) ++
          inputs.drop (min k (numCtx - 1) + (inputs.length - numCtx))).length = numCtx := by
        rw [List.length_append, List.length_take, List.length_drop]
        omega
      exact ⟨List.length_pos_iff.mp (hctx.trans_eq hlen.symm), hlen.le, hk⟩
    · obtain ⟨rfl, rfl⟩ := Prod.mk.inj (Option.some.inj h)
      exact ⟨fun hnil => hne (by rw [hnil]; rfl), by omega, hk⟩

theorem CacheOp.step_sound [DecidableEq E] (sound : c.Sound m) (fits : c.Fits) (hpos : 0 < c.numCtx)
    (hmax : (c.numCtx : Int) ≤ maxInt32) {addBOSToken : Bool} {op : CacheOp E}
    (h : op.step m addBOSToken c = some c') : c'.Sound m ∧ c'.Fits ∧ c'.numCtx = c.numCtx := by
  cases op with
  | load inputs numKeep cachePrompt =>
    rw [CacheOp.step] at h
    split at h
    · cases h
    · rename_i prompt keep hseq
      obtain ⟨hprompt, hlen, _⟩ := newSequence_admissible hpos hseq
      obtain ⟨hfree, h⟩ := Option.ite_none_right_eq_some.mp h
      obtain ⟨⟨c', i, rest⟩, hload, rfl⟩ := Option.map_eq_some_iff.mp h
      obtain ⟨c₁, i₁, rest₁, hload₁, loaded⟩ := sound.loadCacheSlot hfree hprompt cachePrompt
      cases hload.symm.trans hload₁
      obtain ⟨n, lastUsed, _, _, hslots⟩ := loaded.slots
      refine ⟨loaded.sound, fits.set loaded.numCtx hslots ?_, loaded.numCtx⟩
      exact (List.length_take_le' ..).trans hlen
  | shift i numKeep =>
    obtain ⟨⟨hi, hused, hfull, hkeep⟩, h⟩ := Option.ite_none_right_eq_some.mp h
    obtain ⟨⟨c', r⟩, hshift, rfl⟩ := Option.map_eq_some_iff.mp h
    have hs := InputCache.getElem?_slot hi
    obtain ⟨c₁, d, r₁, hshift₁, _, hend, ends, hsound, hctx⟩ := sound.shiftCacheSlot hs hused hkeep hmax
      (Nat.le_antisymm (fits i _ hs) (Nat.le_of_lt_succ hfull))
    cases hshift.symm.trans hshift₁
    refine ⟨hsound, ?_, hctx⟩
    cases ends with
    | ok hslots =>
      refine fits.set hctx hslots ?_
      have := fits i _ hs
      dsimp only
      rw [keepAround, List.length_append, List.length_take, List.length_drop]
      omega
    | reprocess hslots => exact fits.set hctx hslots (Nat.zero_le _)
  | decode i pendingInputs =>
    obtain ⟨⟨hi, hused, hroom⟩, h⟩ := Option.ite_none_right_eq_some.mp h
    obtain rfl := Option.some.inj h
    have hs := InputCache.getElem?_slot hi
    refine ⟨sound.decode hs hused pendingInputs, ?_, rfl⟩
    refine fits.set rfl rfl (Eq.trans_le ?_ hroom)
    exact List.length_append
  | release i n =>
    obtain ⟨⟨hi, hused⟩, h⟩ := Option.ite_none_right_eq_some.mp h
    obtain rfl := Option.some.inj h
    have hs := InputCache.getElem?_slot hi
    refine ⟨sound.release hs n, fits.set rfl rfl ?_, rfl⟩
    exact (List.length_take_le' ..).trans (fits i _ hs)

/-! ### Runs -/

theorem newInputCache_sound {kvSize numSlots : Nat} {multiUserCache : Bool}
    (apart : multiUserCache = false ∨ m.canShift = false)
    (h : newInputCache E kvSize numSlots multiUserCache = some c) :
    c.Sound m ∧ c.Fits ∧ 0 < c.numCtx ∧ c.numCtx = kvSize / numSlots := by
  unfold newInputCache at h
  dsimp only at h
  split at h
  · cases h
  · rename_i hctx
    obtain rfl := Option.some.inj h
    have hslots (i : Nat) (s : InputCacheSlot E)
        (hs : ((List.range numSlots).map fun i : Nat => ({ id := i } : InputCacheSlot E))[i]? = some s) :
        s = { id := i } := by
      obtain ⟨k, hk, rfl⟩ := (List.getElem?_map ..).symm.trans hs |> Option.map_eq_some_iff.mp
      rw [(List.getElem?_eq_some_iff.mp hk).2.symm, List.getElem_range]
    refine ⟨⟨fun i s hs => ?_, fun hshift => ⟨?_, fun _ hc => absurd hc List.not_mem_nil⟩⟩, fun i s hs => ?_,
      Nat.lt_of_not_le fun hle => hctx (Nat.lt_succ_of_le hle), rfl⟩
    · rw [hslots i s hs]
      exact .of_exact rfl Nat.one_pos rfl
    · exact apart.resolve_right fun hno => Bool.false_ne_true (hno.symm.trans hshift)
    · rw [hslots i s hs]
      exact Nat.zero_le _

variable {config : Config}

/-- Where positions cannot be shifted while cells are shared: after every run the KV cache stores for each
slot in use exactly its inputs, at their positions, and for a free slot at least those; a request gets a
free slot, with the part of its prompt that is stored; and a full slot can be shifted. -/
theorem run_inStep [DecidableEq E] (apart : config.multiUserCache = false ∨ m.canShift = false)
    (small : ((config.kvSize / config.parallel : Nat) : Int) ≤ maxInt32) {ops : List (CacheOp E)}
    (h : run m config ops = some c) : c.Sound m ∧
    (∀ inputs numKeep cachePrompt prompt keep,
      newSequence c.numCtx config.addBOSToken inputs numKeep = some (prompt, keep) →
      (∃ s ∈ c.slots, s.inUse = false) → ∃ c' i rest,
        c.loadCacheSlot m prompt cachePrompt = some (c', i, rest) ∧ Loaded m c prompt c' i rest) ∧
    ∀ (i : Nat) s numKeep, c.slots[i]? = some s → s.inUse = true → s.inputs.length + 1 > c.numCtx →
      numKeep < c.numCtx → ∃ c' d r, c.shiftCacheSlot m i numKeep = some (c', r) ∧ 0 < d ∧
        numKeep + d ≤ s.inputs.length ∧ ShiftEnds c c' i numKeep d s r ∧ c'.Sound m := by
  obtain ⟨c₀, hnew, hrun⟩ := Option.bind_eq_some_iff.mp h
  obtain ⟨sound₀, fits₀, hpos₀, hctx₀⟩ := newInputCache_sound apart hnew
  obtain ⟨sound, fits, hctx⟩ := foldlM_invariant (I := fun c : InputCache E => c.Sound m ∧ c.Fits ∧
    c.numCtx = c₀.numCtx) (fun c c' op _ ⟨sound, fits, hctx⟩ hstep => by
      obtain ⟨sound', fits', hctx'⟩ := op.step_sound sound fits (hctx ▸ hpos₀)
        (by rw [hctx, hctx₀]; exact small) hstep
      exact ⟨sound', fits', hctx'.trans hctx⟩) hrun ⟨sound₀, fits₀, rfl⟩
  refine ⟨sound, fun inputs numKeep cachePrompt prompt keep hseq hfree => ?_,
    fun i s numKeep hs hused hfull hkeep => ?_⟩
  · have hprompt := (newSequence_admissible (hctx ▸ hpos₀) hseq).1
    exact sound.loadCacheSlot hfree hprompt cachePrompt
  · obtain ⟨c', d, r, hshift, hd, hend, ends, hsound, _⟩ := sound.shiftCacheSlot hs hused hkeep
      (by rw [hctx, hctx₀]; exact small) (Nat.le_antisymm (fits i s hs) (Nat.le_of_lt_succ hfull))
    exact ⟨c', d, r, hshift, hd, hend, ends, hsound⟩

/-! ### A fork that is shifted -/

/-- `llama_kv_cache_unified`, which refuses no removal. -/
def unified : Memory Nat where
  canShift := true
  refuses _ _ _ _ := false
  whole _ _ := rfl

def oneSlot : Config where
  kvSize := 4
  parallel := 1
  multiUserCache := false
  addBOSToken := false

/-- A token, an image and a token, and as many answers as need a shift. -/
def tokenAndImage : List (CacheOp Nat) :=
  [.load [{ token := 1 }, { embed := some 5 }, { token := 3 }] 1 true,
    .decode 0 [{ token := 1 }], .decode 0 [{ embed := some 5 }], .decode 0 [{ token := 3 }],
    .decode 0 [{ token := 7 }], .shift 0 1, .decode 0 [{ token := 7 }], .release 0 3,
    .load [{ token := 1 }, { token := 3 }, { token := 8 }] (-1) true]

theorem tokenAndImage_inStep : ∃ c, run unified oneSlot tokenAndImage = some c ∧ c.Sound unified ∧
    (∀ inputs numKeep cachePrompt prompt keep,
      newSequence c.numCtx oneSlot.addBOSToken inputs numKeep = some (prompt, keep) →
      (∃ s ∈ c.slots, s.inUse = false) → ∃ c' i rest,
        c.loadCacheSlot unified prompt cachePrompt = some (c', i, rest) ∧ Loaded unified c prompt c' i rest) ∧
    ∀ (i : Nat) s numKeep, c.slots[i]? = some s → s.inUse = true → s.inputs.length + 1 > c.numCtx →
      numKeep < c.numCtx → ∃ c' d r, c.shiftCacheSlot unified i numKeep = some (c', r) ∧ 0 < d ∧
        numKeep + d ≤ s.inputs.length ∧ ShiftEnds c c' i numKeep d s r ∧ c'.Sound unified := by
  have hsome : (run unified oneSlot tokenAndImage).isSome = true := by decide +kernel
  obtain ⟨c, hc⟩ := Option.isSome_iff_exists.mp hsome
  exact ⟨c, hc, run_inStep (.inl rfl) (by decide) hc⟩

/-- The second prompt is loaded into a fork of the first one's slot, and both contexts are shifted. -/
def forkedAndShifted : List (CacheOp Nat) :=
  [.load [{ token := 1 }, { token := 2 }, { token := 3 }] 1 true,
    .decode 0 [{ token := 1 }, { token := 2 }, { token := 3 }],
    .load [{ token := 1 }, { token := 2 }, { token := 3 }, { token := 4 }] 1 true,
    .decode 0 [{ token := 7 }], .decode 1 [{ token := 4 }], .shift 0 1, .shift 1 1]

-- The first shift moves the cells that are shared for both slots, and the second one loses an input.
example : (run unified ⟨8, 2, true, false⟩ forkedAndShifted).map (fun c =>
    ((held c.cells 1).card, (c.slot 1).inputs.length)) = some (2, 3) := by
  decide +kernel

end

end Ecco9.Llamarunner
