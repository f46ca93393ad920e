import Ecco9.Runner.Slots

/-! What one sequence adds to a batch. -/

universe u

namespace Ecco9.Runner

open Ecco9.Library

/-! ### Room in the context -/

theorem InputCache.makeRoom_yes {c c' : InputCache K} {ops : KvOps K} {seq : Sequence}
    {minBatch : Nat} (h : c.makeRoom ops seq minBatch = .yes c') :
    c' = c ∧ (c.slot seq.cache).inputs.length + seq.pendingInputs.length + minBatch ≤ c.numCtx ∨
      seq.pendingInputs = [] ∧ (c.slot seq.cache).inputs.length + minBatch > c.numCtx ∧
        c.shiftCacheSlot ops seq.cache seq.numKeep = (c', .ok) := by
  unfold makeRoom at h
  split at h
  · rename_i hover
    split at h
    · cases h
    · rename_i hpending
      have hpending : seq.pendingInputs = [] := by simpa using hpending
      rw [hpending, List.length_nil, Nat.add_zero] at hover
      split at h
      · rename_i heq
        obtain rfl := Room.yes.inj h
        exact .inr ⟨hpending, hover, heq⟩
      · cases h
      · cases h
  · obtain rfl := Room.yes.inj h
    exact .inl ⟨rfl, by omega⟩

theorem InputCache.makeRoom_requeued {c c' : InputCache K} {ops : KvOps K} {seq : Sequence}
    {minBatch : Nat} {retained : List Input}
    (h : c.makeRoom ops seq minBatch = .requeued c' retained) :
    seq.pendingInputs = [] ∧ (c.slot seq.cache).inputs.length + minBatch > c.numCtx ∧
      c.shiftCacheSlot ops seq.cache seq.numKeep = (c', .reprocess retained) := by
  unfold makeRoom at h
  split at h
  · rename_i hover
    split at h
    · cases h
    · rename_i hpending
      have hpending : seq.pendingInputs = [] := by simpa using hpending
      rw [hpending, List.length_nil, Nat.add_zero] at hover
      split at h
      · cases h
      · rename_i heq
        obtain ⟨rfl, rfl⟩ := Room.requeued.inj h
        exact ⟨hpending, hover, heq⟩
      · cases h
  · cases h

theorem InputCache.makeRoom_fits {c : InputCache K} {seq : Sequence} {minBatch : Nat}
    (h : (c.slot seq.cache).inputs.length + seq.pendingInputs.length + minBatch ≤ c.numCtx)
    (ops : KvOps K) : c.makeRoom ops seq minBatch = .yes c := by
  unfold makeRoom
  rw [if_neg (by omega)]

theorem InputCache.slot_cache (c : InputCache K) (kv : K) (k : Nat) :
    ({ c with cache := kv } : InputCache K).slot k = c.slot k := rfl

theorem InputCache.slot_setInputs_self {c : InputCache K} {i : Nat} (hi : i < c.slots.length)
    (inputs : List Input) : (c.setInputs i inputs).slot i = { c.slot i with inputs } := by
  rw [slot_setInputs, if_pos ⟨rfl, hi⟩]

theorem InputCache.slot_setInputs_of_ne (c : InputCache K) {i k : Nat} (hk : k ≠ i)
    (inputs : List Input) : (c.setInputs i inputs).slot k = c.slot k := by
  rw [slot_setInputs, if_neg (fun h => hk h.1)]

theorem InputCache.shiftCacheSlot_other (c : InputCache K) (ops : KvOps K) (i numKeep : Nat)
    {k : Nat} (hk : k ≠ i) : (c.shiftCacheSlot ops i numKeep).1.slot k = c.slot k := by
  unfold shiftCacheSlot
  split
  · rfl
  · dsimp only
    split
    · rfl
    · split <;> exact slot_setInputs_of_ne c hk _

theorem targetFree_le {numCtx numKeep : Nat} (hkeep : numKeep < numCtx) :
    Nat.max ((numCtx - numKeep) / 2) 1 ≤ numCtx - numKeep :=
  Nat.max_le.mpr ⟨Nat.div_le_self _ _, by omega⟩

theorem targetFree_pos (numCtx numKeep : Nat) : 1 ≤ Nat.max ((numCtx - numKeep) / 2) 1 :=
  Nat.le_max_right _ _

/-- What a shift discards lies within the inputs, and there is so much room without it. -/
theorem shiftDiscard_bounds {numCtx numKeep : Nat} (hkeep : numKeep < numCtx) (len : Nat)
    (h : shiftDiscard numCtx len numKeep ≠ 0) :
    numKeep + shiftDiscard numCtx len numKeep ≤ len ∧
      len - shiftDiscard numCtx len numKeep + Nat.max ((numCtx - numKeep) / 2) 1 ≤ numCtx := by
  have hfree := targetFree_le hkeep
  unfold shiftDiscard at h ⊢
  dsimp only at h ⊢
  omega

/-- The inputs that a shift keeps. -/
def shiftKept (numCtx numKeep : Nat) (inputs : List Input) : List Input :=
  keepInputs inputs numKeep (shiftDiscard numCtx inputs.length numKeep)

theorem InputCache.shiftCacheSlot_ok {c c' : InputCache K} {ops : KvOps K} {i numKeep : Nat}
    (hi : i < c.slots.length) (h : c.shiftCacheSlot ops i numKeep = (c', .ok)) :
    c' = c ∧ shiftDiscard c.numCtx (c.slot i).inputs.length numKeep = 0 ∨
      (c'.slot i).inputs = shiftKept c.numCtx numKeep (c.slot i).inputs := by
  unfold shiftCacheSlot at h
  split at h
  · cases h
  · dsimp only at h
    split at h
    · rename_i hdiscard
      exact .inl ⟨(Prod.mk.inj h).1.symm, hdiscard⟩
    · split at h
      · obtain ⟨rfl, -⟩ := Prod.mk.inj h
        refine .inr ?_
        rw [slot_cache, slot_setInputs_self hi]
        rfl
      · cases (Prod.mk.inj h).2

theorem InputCache.shiftCacheSlot_reprocess {c c' : InputCache K} {ops : KvOps K} {i numKeep : Nat}
    {retained : List Input} (hi : i < c.slots.length)
    (h : c.shiftCacheSlot ops i numKeep = (c', .reprocess retained)) :
    (c'.slot i).inputs = [] ∧ retained = shiftKept c.numCtx numKeep (c.slot i).inputs := by
  unfold shiftCacheSlot at h
  split at h
  · cases h
  · dsimp only at h
    split at h
    · cases (Prod.mk.inj h).2
    · split at h
      · cases (Prod.mk.inj h).2
      · obtain ⟨rfl, hretained⟩ := Prod.mk.inj h
        refine ⟨?_, (ShiftResult.reprocess.inj hretained).symm⟩
        rw [slot_cache, slot_setInputs_self hi]

/-! ### Entries -/

/-- The entries of inputs that follow each other from position `start` on. -/
def entriesFrom (id : Int) (start : Nat) (inputs : List Input) : List BatchEntry :=
  (inputs.zipIdx start).map fun e => ⟨e.1, e.2, id⟩

@[simp] theorem entriesFrom_nil (id : Int) (start : Nat) : entriesFrom id start [] = [] := rfl

theorem entriesFrom_snoc (id : Int) (start : Nat) (inputs : List Input) (inp : Input) :
    entriesFrom id start (inputs ++ [inp]) =
      entriesFrom id start inputs ++ [⟨inp, start + inputs.length, id⟩] := by
  simp [entriesFrom, List.zipIdx_append]

@[simp] theorem entriesFrom_input (id : Int) (start : Nat) (inputs : List Input) :
    (entriesFrom id start inputs).map (·.input) = inputs := by
  rw [entriesFrom, List.map_map]
  exact List.zipIdx_map_fst start inputs

@[simp] theorem entriesFrom_length (id : Int) (start : Nat) (inputs : List Input) :
    (entriesFrom id start inputs).length = inputs.length := by simp [entriesFrom]

/-- The inputs that a sequence has put into the batch. -/
def pendingEntries (slot : InputCacheSlot) (pending : List Input) : List BatchEntry :=
  entriesFrom slot.id slot.inputs.length pending

theorem ForwardBatch.push_some {b b' : ForwardBatch} {env : Env} {slot : InputCacheSlot}
    {pending : Nat} {inp : Input} {last : Bool} (h : b.push env slot pending inp last = some b') :
    b'.entries = b.entries ++ [⟨inp, slot.inputs.length + pending, slot.id⟩] ∧
      b'.outputs = if last then b.outputs ++ [b.entries.length] else b.outputs := by
  unfold push at h
  dsimp only at h
  split at h
  · obtain rfl := Option.some.inj h
    exact ⟨rfl, rfl⟩
  · split at h
    · cases h
    · obtain rfl := Option.some.inj h
      exact ⟨rfl, rfl⟩

/-! ### The loop over the inputs of a sequence -/

/-- What the loop can have changed. -/
structure Added (ops : KvOps K) (b : Building K) (seq : Sequence) (b' : Building K)
    (seq' : Sequence) : Prop where
  server : b'.server = { b.server with cache := b'.server.cache }
  sameUse : b.server.cache.SameUse b'.server.cache
  other : ∀ k, k ≠ seq.cache → b'.server.cache.slot k = b.server.cache.slot k
  rest : seq' = { seq with
    inputs := seq'.inputs, pendingInputs := seq'.pendingInputs, iBatch := seq'.iBatch }
  outputs : b.batch.outputs <+: b'.batch.outputs
  entries : ∀ done,
    b.batch.entries = done ++ pendingEntries (b.server.cache.slot seq.cache) seq.pendingInputs →
      b'.batch.entries =
        done ++ pendingEntries (b'.server.cache.slot seq.cache) seq'.pendingInputs
  /-- the cache changes by shifts only -/
  shifts : ∀ I : InputCache K → Prop,
    (∀ c, I c → I (c.shiftCacheSlot ops seq.cache seq.numKeep).1) →
      I b.server.cache → I b'.server.cache

theorem Added.refl (ops : KvOps K) (b : Building K) (seq : Sequence) : Added ops b seq b seq :=
  ⟨rfl, .refl _, fun _ _ => rfl, rfl, List.prefix_refl _, fun _ h => h, fun _ _ h => h⟩

theorem Added.trans {ops : KvOps K} {b b' b'' : Building K} {seq seq' seq'' : Sequence}
    (h : Added ops b seq b' seq') (h' : Added ops b' seq' b'' seq'') :
    Added ops b seq b'' seq'' := by
  have hcache : seq'.cache = seq.cache := by rw [h.rest]
  have hkeep : seq'.numKeep = seq.numKeep := by rw [h.rest]
  refine ⟨?_, h.sameUse.trans h'.sameUse, ?_, ?_, h.outputs.trans h'.outputs, ?_, ?_⟩
  · rw [h'.server, h.server]
  · intro k hk
    rw [h'.other k (by rwa [hcache]), h.other k hk]
  · rw [h'.rest, h.rest]
  · intro done hdone
    have := h'.entries done
    rw [hcache] at this
    exact this (h.entries done hdone)
  · intro I keep hI
    have := h'.shifts I
    rw [hcache, hkeep] at this
    exact this keep (h.shifts I keep hI)

/-- A shift while nothing is pending. -/
theorem Added.shift {ops : KvOps K} {b : Building K} {seq : Sequence}
    (hpending : seq.pendingInputs = []) {cache : InputCache K} {result : ShiftResult}
    (h : b.server.cache.shiftCacheSlot ops seq.cache seq.numKeep = (cache, result))
    (requeued : List (Nat × List Input)) (inputs : List Input) :
    Added ops b seq { b with server := { b.server with cache }, requeued }
      { seq with inputs } := by
  have hcache : cache = (b.server.cache.shiftCacheSlot ops seq.cache seq.numKeep).1 := by rw [h]
  refine ⟨rfl, ?_, ?_, rfl, List.prefix_refl _, ?_, ?_⟩
  · rw [hcache]
    exact InputCache.sameUse_shiftCacheSlot _ ops _ _
  · intro k hk
    rw [hcache]
    exact InputCache.shiftCacheSlot_other _ ops _ _ hk
  · intro done hdone
    rw [hpending] at hdone
    rw [hpending]
    exact hdone
  · intro I keep hI
    rw [hcache]
    exact keep _ hI

theorem Added.push {ops : KvOps K} {env : Env} {b : Building K} {seq : Sequence} {inp : Input}
    {last : Bool} {batch : ForwardBatch} {iBatch : Nat}
    (h : b.batch.push env (b.server.cache.slot seq.cache) seq.pendingInputs.length inp last =
      some batch) :
    Added ops b seq { b with batch }
      { seq with iBatch, pendingInputs := seq.pendingInputs ++ [inp] } := by
  obtain ⟨hentries, houtputs⟩ := ForwardBatch.push_some h
  refine ⟨rfl, .refl _, fun _ _ => rfl, rfl, ?_, ?_, fun _ _ h => h⟩
  · change b.batch.outputs <+: batch.outputs
    rw [houtputs]
    split
    · exact List.prefix_append ..
    · exact List.prefix_refl _
  · intro done hdone
    change batch.entries = _
    rw [hentries, hdone]
    simp only [pendingEntries, entriesFrom_snoc, List.append_assoc]

theorem Building.added_addInputs {ops : KvOps K} {env : Env} {seqIdx : Nat} {todo : List Input}
    {i batchSize : Nat} {b b' : Building K} {seq seq' : Sequence}
    (h : Building.addInputs ops env seqIdx todo i batchSize b seq = some (b', seq')) :
    Added ops b seq b' seq' := by
  induction todo generalizing i batchSize b seq with
  | nil =>
    obtain ⟨rfl, rfl⟩ := Prod.mk.inj (Option.some.inj h)
    exact .refl ops b seq
  | cons inp todo ih =>
    rw [addInputs] at h
    dsimp only at h
    generalize (if 1 + inp.sameBatch > batchSize then 1 + inp.sameBatch else batchSize) = size at h
    split at h
    · obtain ⟨rfl, rfl⟩ := Prod.mk.inj (Option.some.inj h)
      exact ⟨rfl, .refl _, fun _ _ => rfl, rfl, List.prefix_refl _, fun _ h => h, fun _ _ h => h⟩
    · split at h
      · obtain ⟨rfl, rfl⟩ := Prod.mk.inj (Option.some.inj h)
        exact .refl ops b seq
      · cases h
      · rename_i cache retained hroom
        obtain ⟨hpending, -, hshift⟩ := InputCache.makeRoom_requeued hroom
        exact (Added.shift hpending hshift _ _).trans (ih h)
      · rename_i cache hroom
        split at h
        · cases h
        · rename_i batch hpush
          rcases InputCache.makeRoom_yes hroom with ⟨rfl, -⟩ | ⟨hpending, -, hshift⟩
          · exact (Added.push hpush).trans (ih h)
          · have shift := Added.shift hpending hshift b.requeued seq.inputs
            exact shift.trans ((Added.push (b := { b with server := { b.server with cache } })
              hpush).trans (ih h))

/-- After a shift there is room for one more input. -/
theorem InputCache.shiftCacheSlot_lt {c c' : InputCache K} {ops : KvOps K} {i numKeep : Nat}
    (hi : i < c.slots.length) (h : c.shiftCacheSlot ops i numKeep = (c', .ok)) :
    (c'.slot i).inputs.length < c'.numCtx := by
  unfold shiftCacheSlot at h
  split at h
  · cases h
  · rename_i hkeep
    have h1 := targetFree_pos c.numCtx numKeep
    have h2 := targetFree_le (Nat.not_le.mp hkeep)
    dsimp only [shiftDiscard] at h
    split at h
    · obtain ⟨rfl, -⟩ := Prod.mk.inj h
      omega
    · split at h
      · obtain ⟨rfl, -⟩ := Prod.mk.inj h
        rw [slot_cache, slot_setInputs_self hi]
        change (keepInputs _ _ _).length < c.numCtx
        rw [keepInputs, List.length_append, List.length_take, List.length_drop]
        omega
      · cases (Prod.mk.inj h).2

/-- What a sequence has in its slot and in the batch is within its context. -/
theorem Building.addInputs_room {ops : KvOps K} {env : Env} {seqIdx : Nat} {todo : List Input}
    {i batchSize : Nat} {b b' : Building K} {seq seq' : Sequence}
    (h : Building.addInputs ops env seqIdx todo i batchSize b seq = some (b', seq'))
    (hi : seq.cache < b.server.cache.slots.length)
    (room : (b.server.cache.slot seq.cache).inputs.length + seq.pendingInputs.length ≤
      b.server.cache.numCtx) :
    (b'.server.cache.slot seq.cache).inputs.length + seq'.pendingInputs.length ≤
      b'.server.cache.numCtx := by
  induction todo generalizing i batchSize b seq with
  | nil =>
    obtain ⟨rfl, rfl⟩ := Prod.mk.inj (Option.some.inj h)
    exact room
  | cons inp todo ih =>
    rw [addInputs] at h
    dsimp only at h
    generalize (if 1 + inp.sameBatch > batchSize then 1 + inp.sameBatch else batchSize) = size at h
    split at h
    · obtain ⟨rfl, rfl⟩ := Prod.mk.inj (Option.some.inj h)
      exact room
    · split at h
      · obtain ⟨rfl, rfl⟩ := Prod.mk.inj (Option.some.inj h)
        exact room
      · cases h
      · rename_i cache retained hmake
        obtain ⟨hpending, -, hshift⟩ := InputCache.makeRoom_requeued hmake
        have use := b.server.cache.sameUse_shiftCacheSlot ops seq.cache seq.numKeep
        rw [hshift] at use
        have hlen : seq.cache < cache.slots.length := by rw [use.length]; exact hi
        have rest := ih h
        dsimp only at rest
        apply rest hlen
        rw [(InputCache.shiftCacheSlot_reprocess hi hshift).1, hpending]
        exact Nat.zero_le _
      · rename_i cache hmake
        split at h
        · cases h
        · have hroom : cache.slots.length = b.server.cache.slots.length ∧
              (cache.slot seq.cache).inputs.length + seq.pendingInputs.length < cache.numCtx := by
            rcases InputCache.makeRoom_yes hmake with ⟨rfl, hle⟩ | ⟨hpending, -, hshift⟩
            · exact ⟨rfl, by omega⟩
            · have use := b.server.cache.sameUse_shiftCacheSlot ops seq.cache seq.numKeep
              rw [hshift] at use
              rw [hpending]
              exact ⟨use.length, InputCache.shiftCacheSlot_lt hi hshift⟩
          have hlen : seq.cache < cache.slots.length := by rw [hroom.1]; exact hi
          have rest := ih h
          dsimp only at rest
          apply rest hlen
          rw [List.length_append, List.length_singleton]
          have := hroom.2
          omega

/-- The batch stays within every bound that holds for the server's batch size and for each group of
inputs. -/
theorem Building.addInputs_le {ops : KvOps K} {env : Env} {seqIdx bound : Nat} {todo : List Input}
    {i batchSize : Nat} {b b' : Building K} {seq seq' : Sequence}
    (h : Building.addInputs ops env seqIdx todo i batchSize b seq = some (b', seq'))
    (hsize : batchSize ≤ bound) (htodo : ∀ inp ∈ todo, 1 + inp.sameBatch ≤ bound)
    (hb : b.batch.entries.length ≤ bound) : b'.batch.entries.length ≤ bound := by
  induction todo generalizing i batchSize b seq with
  | nil =>
    obtain ⟨rfl, rfl⟩ := Prod.mk.inj (Option.some.inj h)
    exact hb
  | cons inp todo ih =>
    have hinp := htodo inp (by simp)
    have hrest : ∀ inp ∈ todo, 1 + inp.sameBatch ≤ bound := fun inp h => htodo inp (by simp [h])
    rw [addInputs] at h
    dsimp only at h
    have hsize' : (if 1 + inp.sameBatch > batchSize then 1 + inp.sameBatch else batchSize) ≤
        bound := by
      split <;> assumption
    generalize (if 1 + inp.sameBatch > batchSize then 1 + inp.sameBatch else batchSize) = size
      at h hsize'
    split at h
    · obtain ⟨rfl, rfl⟩ := Prod.mk.inj (Option.some.inj h)
      exact hb
    · rename_i hfull
      split at h
      · obtain ⟨rfl, rfl⟩ := Prod.mk.inj (Option.some.inj h)
        exact hb
      · cases h
      · exact ih h hsize' hrest hb
      · split at h
        · cases h
        · rename_i batch hpush
          apply ih h hsize' hrest
          dsimp only
          rw [(ForwardBatch.push_some hpush).1, List.length_append, List.length_singleton]
          omega

end Ecco9.Runner
