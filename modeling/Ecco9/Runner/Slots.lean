import Ecco9.Library.Runs
import Ecco9.Runner.Server
import Mathlib.Data.Finset.Card
import Mathlib.Data.Finset.Range

/-! Which slot belongs to which sequence. -/

universe u

namespace Ecco9.Runner

open Ecco9.Library

/-! ### Slots and sequences -/

theorem InputCache.slot_setSlot (c : InputCache K) (i : Nat) (f : InputCacheSlot → InputCacheSlot)
    (j : Nat) : (c.setSlot i f).slot j =
      if j = i ∧ i < c.slots.length then f (c.slot i) else c.slot j := by
  simp only [slot, setSlot, List.getD_eq_getElem?_getD, List.getElem?_modify]
  by_cases hj : i = j
  · subst hj
    by_cases hi : i < c.slots.length
    · simp [hi]
    · simp [hi]
  · simp [hj, Ne.symm hj]

theorem InputCache.slot_setInputs (c : InputCache K) (i : Nat) (inputs : List Input) (j : Nat) :
    (c.setInputs i inputs).slot j =
      if j = i ∧ i < c.slots.length then { c.slot i with inputs } else c.slot j :=
  c.slot_setSlot i _ j

@[simp] theorem InputCache.setSlot_length (c : InputCache K) (i : Nat)
    (f : InputCacheSlot → InputCacheSlot) :
    (c.setSlot i f).slots.length = c.slots.length := List.length_modify ..

theorem Server.seq_eq_some {s : Server K} {i : Nat} {seq : Sequence} :
    s.seq i = some seq ↔ s.seqs[i]? = some (some seq) := by
  simp [Server.seq, Option.join_eq_some_iff]

theorem Server.lt_of_seq {s : Server K} {i : Nat} {seq : Sequence} (h : s.seq i = some seq) :
    i < s.seqs.length := by
  rw [seq_eq_some, List.getElem?_eq_some_iff] at h
  exact h.1

theorem Server.seq_setSeq (s : Server K) (i : Nat) (x : Option Sequence) (j : Nat) :
    (s.setSeq i x).seq j = if j = i ∧ i < s.seqs.length then x else s.seq j := by
  simp only [Server.seq, Server.setSeq, List.getElem?_set]
  by_cases hj : i = j
  · subst hj
    by_cases hi : i < s.seqs.length
    · simp [hi]
    · simp [hi]
  · simp [hj, Ne.symm hj]

@[simp] theorem Server.setSeq_length (s : Server K) (i : Nat) (x : Option Sequence) :
    (s.setSeq i x).seqs.length = s.seqs.length := List.length_set

@[simp] theorem Server.setSeq_cache (s : Server K) (i : Nat) (x : Option Sequence) :
    (s.setSeq i x).cache = s.cache := rfl

theorem Server.seq_setSeq_self {s : Server K} {i : Nat} (h : i < s.seqs.length)
    (x : Option Sequence) : (s.setSeq i x).seq i = x := by
  rw [seq_setSeq, if_pos ⟨rfl, h⟩]

theorem Server.seq_setSeq_of_ne (s : Server K) {i j : Nat} (h : j ≠ i) (x : Option Sequence) :
    (s.setSeq i x).seq j = s.seq j := by
  rw [seq_setSeq, if_neg (fun hj => h hj.1)]

/-! ### The assignment -/

/-- Every sequence has a slot of its own, which is in use. -/
structure Server.Assigned (s : Server K) : Prop where
  length : s.cache.slots.length = s.seqs.length
  id : ∀ k < s.cache.slots.length, (s.cache.slot k).id = k
  slot : ∀ i seq, s.seq i = some seq →
    seq.cache < s.cache.slots.length ∧ (s.cache.slot seq.cache).inUse = true
  own : ∀ i j seq seq', s.seq i = some seq → s.seq j = some seq' → seq.cache = seq'.cache → i = j
  clock : ∀ k < s.cache.slots.length, (s.cache.slot k).lastUsed < s.cache.now
  active_le : s.active ≤ s.acquired
  acquired_le : s.acquired ≤ s.seqs.length

/-- Only slots of sequences are in use. -/
def Server.Used (s : Server K) : Prop :=
  ∀ k < s.cache.slots.length, (s.cache.slot k).inUse = true →
    ∃ i seq, s.seq i = some seq ∧ seq.cache = k

/-- The slots agree but for the inputs of some. -/
structure InputCache.SameUse (c c' : InputCache K) : Prop where
  length : c'.slots.length = c.slots.length
  numCtx : c'.numCtx = c.numCtx
  now : c'.now = c.now
  id : ∀ k, (c'.slot k).id = (c.slot k).id
  inUse : ∀ k, (c'.slot k).inUse = (c.slot k).inUse
  lastUsed : ∀ k, (c'.slot k).lastUsed = (c.slot k).lastUsed

theorem InputCache.SameUse.refl (c : InputCache K) : c.SameUse c :=
  ⟨rfl, rfl, rfl, fun _ => rfl, fun _ => rfl, fun _ => rfl⟩

theorem InputCache.SameUse.trans {c c' c'' : InputCache K} (h : c.SameUse c')
    (h' : c'.SameUse c'') : c.SameUse c'' where
  length := h'.length.trans h.length
  numCtx := h'.numCtx.trans h.numCtx
  now := h'.now.trans h.now
  id k := (h'.id k).trans (h.id k)
  inUse k := (h'.inUse k).trans (h.inUse k)
  lastUsed k := (h'.lastUsed k).trans (h.lastUsed k)

theorem InputCache.sameUse_setInputs (c : InputCache K) (i : Nat) (inputs : List Input) (kv : K) :
    c.SameUse { c.setInputs i inputs with cache := kv } := by
  have use (k : Nat) : ∃ inputs', ({ c.setInputs i inputs with cache := kv } : InputCache K).slot k =
      { c.slot k with inputs := inputs' } := by
    change ∃ inputs', (c.setInputs i inputs).slot k = _
    rw [slot_setInputs]
    split
    · rename_i h
      rw [h.1]
      exact ⟨inputs, rfl⟩
    · exact ⟨(c.slot k).inputs, rfl⟩
  refine ⟨by simp [setInputs], rfl, rfl, ?_, ?_, ?_⟩
  all_goals
    intro k
    obtain ⟨inputs', h⟩ := use k
    rw [h]

theorem InputCache.sameUse_shiftCacheSlot (c : InputCache K) (ops : KvOps K) (i numKeep : Nat) :
    c.SameUse (c.shiftCacheSlot ops i numKeep).1 := by
  unfold shiftCacheSlot
  split
  · exact .refl c
  · dsimp only
    split
    · exact .refl c
    · split
      · exact c.sameUse_setInputs i _ _
      · exact c.sameUse_setInputs i _ _

/-- Nothing about the assignment has changed. -/
structure Server.SameUse (s s' : Server K) : Prop where
  cache : s.cache.SameUse s'.cache
  length : s'.seqs.length = s.seqs.length
  seq : ∀ i, (s'.seq i).map (·.cache) = (s.seq i).map (·.cache)
  acquired : s'.acquired = s.acquired

theorem Server.SameUse.trans {s s' s'' : Server K} (h : s.SameUse s') (h' : s'.SameUse s'') :
    s.SameUse s'' :=
  ⟨h.cache.trans h'.cache, h'.length.trans h.length, fun i => (h'.seq i).trans (h.seq i),
    h'.acquired.trans h.acquired⟩

theorem Server.SameUse.some {s s' : Server K} (h : s.SameUse s') {i : Nat} {seq' : Sequence}
    (hs : s'.seq i = some seq') : ∃ seq, s.seq i = some seq ∧ seq.cache = seq'.cache := by
  have := h.seq i
  rw [hs] at this
  obtain ⟨seq, hseq, hcache⟩ := Option.map_eq_some_iff.mp this.symm
  exact ⟨seq, hseq, hcache⟩

/-- Only the KV cache has changed. -/
theorem Server.sameUse_cache (s : Server K) (cache : K) :
    s.SameUse { s with cache := { s.cache with cache } } :=
  ⟨⟨rfl, rfl, rfl, fun _ => rfl, fun _ => rfl, fun _ => rfl⟩, rfl, fun _ => rfl, rfl⟩

theorem Server.sameUse_setSeq {s : Server K} {i : Nat} {seq seq' : Sequence}
    (h : s.seq i = some seq) (hcache : seq'.cache = seq.cache) :
    s.SameUse (s.setSeq i (some seq')) := by
  refine ⟨.refl _, by simp, ?_, rfl⟩
  intro j
  rw [seq_setSeq]
  split
  · rename_i hj
    rw [hj.1, h, Option.map_some, Option.map_some, hcache]
  · rfl

/-- How many sequences there are, counted by index. -/
theorem Server.active_eq (s : Server K) :
    s.active = ((Finset.range s.seqs.length).filter fun i => (s.seq i).isSome).card := by
  unfold active Server.seq
  induction s.seqs using List.reverseRecOn with
  | nil => rfl
  | append_singleton seqs x ih =>
    rw [List.countP_append, ih, List.length_append, List.length_singleton, Finset.range_add_one,
      Finset.filter_insert]
    have same : (Finset.range seqs.length).filter (fun i => ((seqs ++ [x])[i]?).join.isSome) =
        (Finset.range seqs.length).filter fun i => (seqs[i]?).join.isSome := by
      apply Finset.filter_congr
      intro i hi
      rw [List.getElem?_append_left (Finset.mem_range.mp hi)]
    rw [same]
    cases x with
    | none => simp
    | some seq => simp

theorem Server.SameUse.active {s s' : Server K} (h : s.SameUse s') : s'.active = s.active := by
  rw [active_eq, active_eq, h.length]
  congr 1
  apply Finset.filter_congr
  intro i _
  have := congrArg Option.isSome (h.seq i)
  rw [Option.isSome_map, Option.isSome_map] at this
  rw [this]

theorem Server.Assigned.congr {s s' : Server K} (assigned : s.Assigned) (h : s.SameUse s') :
    s'.Assigned where
  length := by rw [h.cache.length, h.length, assigned.length]
  id := by
    intro k hk
    rw [h.cache.length] at hk
    rw [h.cache.id, assigned.id k hk]
  slot := by
    intro i seq' hs
    obtain ⟨seq, hseq, hcache⟩ := h.some hs
    rw [h.cache.length, h.cache.inUse, ← hcache]
    exact assigned.slot i seq hseq
  own := by
    intro i j seq₁ seq₂ h₁ h₂ heq
    obtain ⟨seq₁', h₁', hc₁⟩ := h.some h₁
    obtain ⟨seq₂', h₂', hc₂⟩ := h.some h₂
    exact assigned.own i j seq₁' seq₂' h₁' h₂' (by rw [hc₁, hc₂, heq])
  clock := by
    intro k hk
    rw [h.cache.length] at hk
    rw [h.cache.lastUsed, h.cache.now]
    exact assigned.clock k hk
  active_le := by
    rw [h.active, h.acquired]
    exact assigned.active_le
  acquired_le := by
    rw [h.acquired, h.length]
    exact assigned.acquired_le

theorem Server.Used.congr {s s' : Server K} (used : s.Used) (h : s.SameUse s') : s'.Used := by
  intro k hk huse
  rw [h.cache.length] at hk
  rw [h.cache.inUse] at huse
  obtain ⟨i, seq, hseq, rfl⟩ := used k hk huse
  have := h.seq i
  rw [hseq] at this
  obtain ⟨seq', hseq', hcache⟩ := Option.map_eq_some_iff.mp this
  exact ⟨i, seq', hseq', hcache⟩

theorem Server.removeSequence_eq {s : Server K} {i : Nat} {seq : Sequence}
    (h : s.seq i = some seq) (env : Env) (reason : DoneReason) :
    (s.removeSequence env i reason).seqs = s.seqs.set i none ∧
      (s.removeSequence env i reason).cache =
        s.cache.setSlot seq.cache (fun slot => { slot with inUse := false }) ∧
      (s.removeSequence env i reason).acquired = s.acquired - 1 := by
  unfold removeSequence
  rw [h]
  exact ⟨rfl, rfl, rfl⟩

@[simp] theorem Server.removeSequence_batchSize (s : Server K) (env : Env) (i : Nat)
    (reason : DoneReason) : (s.removeSequence env i reason).batchSize = s.batchSize := by
  unfold removeSequence
  split <;> rfl

theorem Server.removeSequence_seq {s : Server K} {i : Nat} {seq : Sequence}
    (h : s.seq i = some seq) (env : Env) (reason : DoneReason) (j : Nat) :
    (s.removeSequence env i reason).seq j = if j = i then none else s.seq j := by
  have := s.seq_setSeq i none j
  simp only [Server.seq, setSeq, (removeSequence_eq h env reason).1] at this ⊢
  rw [this]
  by_cases hj : j = i
  · rw [if_pos ⟨hj, lt_of_seq h⟩, if_pos hj]
  · rw [if_neg (fun h => hj h.1), if_neg hj]

theorem Server.removeSequence_active {s : Server K} {i : Nat} {seq : Sequence}
    (h : s.seq i = some seq) (env : Env) (reason : DoneReason) :
    (s.removeSequence env i reason).active + 1 = s.active := by
  have hi := lt_of_seq h
  have mem : i ∈ (Finset.range s.seqs.length).filter fun i => (s.seq i).isSome := by
    rw [Finset.mem_filter, Finset.mem_range, h]
    exact ⟨hi, rfl⟩
  rw [active_eq, active_eq, (removeSequence_eq h env reason).1, List.length_set,
    ← Finset.card_erase_add_one mem]
  congr 2
  ext j
  rw [Finset.mem_erase, Finset.mem_filter, Finset.mem_filter, removeSequence_seq h]
  by_cases hj : j = i
  · simp [hj]
  · simp [hj]

theorem Server.removeSequence_slot {s : Server K} {i : Nat} {seq : Sequence}
    (h : s.seq i = some seq) (hk : seq.cache < s.cache.slots.length) (env : Env)
    (reason : DoneReason) (k : Nat) : (s.removeSequence env i reason).cache.slot k =
      if k = seq.cache then { s.cache.slot k with inUse := false } else s.cache.slot k := by
  rw [(removeSequence_eq h env reason).2.1, InputCache.slot_setSlot]
  by_cases hk' : k = seq.cache
  · rw [if_pos ⟨hk', hk⟩, if_pos hk', hk']
  · rw [if_neg (fun h => hk' h.1), if_neg hk']

theorem Server.Assigned.removeSequence {s : Server K} (assigned : s.Assigned) {i : Nat}
    {seq : Sequence} (h : s.seq i = some seq) (env : Env) (reason : DoneReason) :
    (s.removeSequence env i reason).Assigned := by
  obtain ⟨hseqs, hcache, hacquired⟩ := removeSequence_eq h env reason
  have hseq := removeSequence_seq h env reason
  have hactive := removeSequence_active h env reason
  have old {j : Nat} {seq' : Sequence} (hj : (s.removeSequence env i reason).seq j = some seq') :
      j ≠ i ∧ s.seq j = some seq' := by
    rw [hseq] at hj
    split at hj
    · cases hj
    · exact ⟨‹_›, hj⟩
  have slot := Server.removeSequence_slot h (assigned.slot i seq h).1 env reason
  have hlen : (s.removeSequence env i reason).cache.slots.length = s.cache.slots.length := by
    rw [hcache, InputCache.setSlot_length]
  refine ⟨?_, ?_, ?_, ?_, ?_, ?_, ?_⟩
  · rw [hlen, hseqs, List.length_set, assigned.length]
  · intro k hk
    rw [hlen] at hk
    rw [slot]
    split <;> exact assigned.id k hk
  · intro j seq' hj
    obtain ⟨hji, hj⟩ := old hj
    rw [hlen, slot, if_neg]
    · exact assigned.slot j seq' hj
    · intro heq
      exact hji (assigned.own j i seq' seq hj h heq)
  · intro j₁ j₂ seq₁ seq₂ h₁ h₂
    exact assigned.own j₁ j₂ seq₁ seq₂ (old h₁).2 (old h₂).2
  · intro k hk
    rw [hlen] at hk
    have := assigned.clock k hk
    rw [slot, hcache]
    split <;> exact this
  · rw [hacquired]
    have := assigned.active_le
    omega
  · rw [hacquired, hseqs, List.length_set]
    have := assigned.acquired_le
    omega

theorem Server.Used.removeSequence {s : Server K} (used : s.Used) {i : Nat} {seq : Sequence}
    (h : s.seq i = some seq) (hk : seq.cache < s.cache.slots.length) (env : Env)
    (reason : DoneReason) : (s.removeSequence env i reason).Used := by
  intro k hlt huse
  rw [(removeSequence_eq h env reason).2.1, InputCache.setSlot_length] at hlt
  rw [removeSequence_slot h hk] at huse
  split at huse
  · cases huse
  · rename_i hne
    obtain ⟨j, seq', hj, rfl⟩ := used k hlt huse
    refine ⟨j, seq', ?_, rfl⟩
    rw [removeSequence_seq h, if_neg]
    · exact hj
    · rintro rfl
      rw [h] at hj
      exact hne (by rw [Option.some.inj hj])

/-- As many slots are in use as there are sequences. -/
theorem Server.Assigned.count {s : Server K} (assigned : s.Assigned) (used : s.Used) :
    s.cache.slots.countP (·.inUse) = s.active := by
  have slots : s.cache.slots.countP (·.inUse) =
      ((Finset.range s.cache.slots.length).filter fun k => (s.cache.slot k).inUse).card := by
    unfold InputCache.slot
    induction s.cache.slots using List.reverseRecOn with
    | nil => rfl
    | append_singleton slots x ih =>
      rw [List.countP_append, ih, List.length_append, List.length_singleton, Finset.range_add_one,
        Finset.filter_insert]
      have same : (Finset.range slots.length).filter
          (fun i => ((slots ++ [x]).getD i { id := i }).inUse) =
          (Finset.range slots.length).filter fun i => (slots.getD i { id := i }).inUse := by
        apply Finset.filter_congr
        intro i hi
        rw [List.getD_eq_getElem?_getD, List.getElem?_append_left (Finset.mem_range.mp hi),
          ← List.getD_eq_getElem?_getD]
      rw [same]
      cases hx : x.inUse with
      | false => simp [hx]
      | true => simp [hx]
  rw [slots, active_eq]
  symm
  apply Finset.card_bij fun i _ => ((s.seq i).map (·.cache)).getD 0
  · intro i hi
    obtain ⟨seq, hseq⟩ := Option.isSome_iff_exists.mp (Finset.mem_filter.mp hi).2
    rw [hseq, Finset.mem_filter, Finset.mem_range]
    exact assigned.slot i seq hseq
  · intro i hi j hj heq
    obtain ⟨seq, hseq⟩ := Option.isSome_iff_exists.mp (Finset.mem_filter.mp hi).2
    obtain ⟨seq', hseq'⟩ := Option.isSome_iff_exists.mp (Finset.mem_filter.mp hj).2
    rw [hseq, hseq'] at heq
    exact assigned.own i j seq seq' hseq hseq' heq
  · intro k hk
    obtain ⟨hk, huse⟩ := Finset.mem_filter.mp hk
    obtain ⟨i, seq, hseq, rfl⟩ := used k (Finset.mem_range.mp hk) huse
    refine ⟨i, ?_, by rw [hseq]; rfl⟩
    rw [Finset.mem_filter, Finset.mem_range, hseq]
    exact ⟨lt_of_seq hseq, rfl⟩

end Ecco9.Runner
