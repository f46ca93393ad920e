import Ecco9.Runner.Serve
import Ecco9.Runner.KvState

/-! The inputs of every slot agree with what the KV cache holds for it. -/

universe u

namespace Ecco9.Runner

open Ecco9.Library Ecco9.KvCache

/-- `dst` is `src`, or was copied from it, maybe in several steps. -/
def Origin (copies : List (Int × Int)) : Int → Int → Prop :=
  Relation.ReflTransGen fun src dst => (src, dst) ∈ copies

theorem Origin.mono {copies copies' : List (Int × Int)} (h : ∀ e ∈ copies, e ∈ copies')
    {src dst : Int} (origin : Origin copies src dst) : Origin copies' src dst :=
  Relation.ReflTransGen.mono (fun a b he => h (a, b) he) _ _ origin

/-- The first rows were computed for `inputs`, for the sequence itself or one it was copied from. -/
def Computed (copies : List (Int × Int)) (id : Int) (rows : List Row) (inputs : List Input) :
    Prop :=
  ∀ (p : Nat) (inp : Input), inputs[p]? = some inp → ∃ e : BatchEntry, rows[p]? = some (some e) ∧
    e.input.same inp = true ∧ Origin copies e.sequence id

theorem Computed.length_le {copies : List (Int × Int)} {id : Int} {rows : List Row}
    {inputs : List Input} (h : Computed copies id rows inputs) : inputs.length ≤ rows.length := by
  by_contra hlt
  have hlast : rows.length < inputs.length := Nat.not_le.mp hlt
  obtain ⟨e, he, -⟩ := h rows.length _ (List.getElem?_eq_getElem hlast)
  rw [List.getElem?_eq_none (Nat.le_refl _)] at he
  cases he

theorem Computed.left {copies : List (Int × Int)} {id : Int} {rows : List Row}
    {inputs inputs' : List Input} (h : Computed copies id rows inputs) (hpre : inputs' <+: inputs) :
    Computed copies id rows inputs' := by
  obtain ⟨tail, rfl⟩ := hpre
  intro p inp hp
  apply h p inp
  rwa [List.getElem?_append_left (List.getElem?_eq_some_iff.mp hp).1]

theorem Computed.mono {copies copies' : List (Int × Int)} (hsub : ∀ e ∈ copies, e ∈ copies')
    {id : Int} {rows : List Row} {inputs : List Input} (h : Computed copies id rows inputs) :
    Computed copies' id rows inputs := by
  intro p inp hp
  obtain ⟨e, he, hsame, origin⟩ := h p inp hp
  exact ⟨e, he, hsame, origin.mono hsub⟩

/-- Removing a range from both. -/
theorem Computed.remove {copies : List (Int × Int)} {id : Int} {rows : List Row}
    {inputs : List Input} (h : Computed copies id rows inputs) {b e : Nat} (hbe : b ≤ e)
    (he : e ≤ inputs.length) : Computed copies id (rows.take b ++ rows.drop e)
      (inputs.take b ++ inputs.drop e) := by
  have hle := h.length_le
  have hb : (inputs.take b).length = b := List.length_take_of_le (hbe.trans he)
  have hb' : (rows.take b).length = b := List.length_take_of_le ((hbe.trans he).trans hle)
  intro p inp hp
  rw [List.getElem?_append, hb] at hp
  rw [List.getElem?_append, hb']
  split at hp
  · rename_i hlt
    rw [if_pos hlt, List.getElem?_take_of_lt hlt]
    rw [List.getElem?_take_of_lt hlt] at hp
    exact h p inp hp
  · rename_i hge
    rw [if_neg hge, List.getElem?_drop]
    rw [List.getElem?_drop] at hp
    exact h _ inp hp

/-- The entries of a batch follow the rows that were there. -/
theorem Computed.append {copies : List (Int × Int)} {id : Int} {rows : List Row}
    {inputs : List Input} (h : Computed copies id rows inputs) (hlen : rows.length = inputs.length)
    (start : Nat) (pending : List Input) :
    Computed copies id (rows ++ (entriesFrom id start pending).map some) (inputs ++ pending) := by
  intro p inp hp
  rw [List.getElem?_append] at hp
  rw [List.getElem?_append]
  split at hp
  · rename_i hlt
    rw [if_pos (hlen ▸ hlt)]
    exact h p inp hp
  · rename_i hge
    rw [if_neg (hlen ▸ hge), hlen]
    refine ⟨⟨inp, start + (p - inputs.length), id⟩, ?_, ?_, .refl⟩
    · rw [List.getElem?_map, entriesFrom, List.getElem?_map, List.getElem?_zipIdx, hp]
      rfl
    · simp [Input.same]

/-! ### The agreement -/

/-- The inputs of slot `k` and the rows held for it. -/
structure SlotAgrees (c : InputCache KvState) (k : Nat) (rows : List Row) : Prop where
  holds : Holds c.cache.causal k rows
  length_le : rows.length ≤ c.numCtx
  computed : Computed c.cache.copies k rows (c.slot k).inputs
  used : (c.slot k).inUse = true → rows.length = (c.slot k).inputs.length

structure CacheAgrees (layers : Nat) (c : InputCache KvState) : Prop where
  plain : c.cache.causal.Plain
  layered : Layered layers c.cache.causal
  numCtx : (c.numCtx : Int) ≤ maxInt32
  id : ∀ k < c.slots.length, (c.slot k).id = k
  slot : ∀ k < c.slots.length, ∃ rows, SlotAgrees c k rows

theorem Layered.remove {layers : Nat} {c : Causal Row} (h : Layered layers c) (plain : c.Plain)
    (seq beginIndex endIndex : Int) : Layered layers (c.remove seq beginIndex endIndex).1 := by
  rw [Layered, (plain.remove seq beginIndex endIndex).1]
  rcases h with ⟨hnil, hfree⟩ | h
  · refine .inl ⟨hnil, ?_⟩
    intro j
    have free := hfree j
    rw [CacheCell.free, List.isEmpty_iff] at free ⊢
    rw [List.eq_nil_iff_forall_not_mem]
    intro s hs
    rw [Causal.cell, Causal.remove_cells] at hs
    have := (removeCells_spec ..).mem j s hs
    rw [Causal.cell] at free
    rw [free] at this
    cases this
  · exact .inr h

/-- A slot whose part of the cache is left alone. -/
theorem SlotAgrees.congr {c c' : InputCache KvState} {k : Nat} {rows : List Row}
    (h : SlotAgrees c k rows) (hnum : c'.numCtx = c.numCtx)
    (hcopies : ∀ e ∈ c.cache.copies, e ∈ c'.cache.copies)
    (same : SameHeld c.cache.causal c'.cache.causal k) (hslot : c'.slot k = c.slot k) :
    SlotAgrees c' k rows := by
  refine ⟨h.holds.congr same, hnum ▸ h.length_le, ?_, ?_⟩
  · rw [hslot]
    exact h.computed.mono hcopies
  · rw [hslot]
    exact h.used

theorem CacheAgrees.shift {layers : Nat} {maxGraphNodes : Int} {c : InputCache KvState}
    (agrees : CacheAgrees layers c) {i : Nat} (hi : i < c.slots.length) (numKeep : Nat) :
    CacheAgrees layers (c.shiftCacheSlot (causalOps layers maxGraphNodes) i numKeep).1 := by
  obtain ⟨rows, here⟩ := agrees.slot i hi
  have hid := agrees.id i hi
  have hrows : (rows.length : Int) ≤ maxInt32 := by
    have := here.length_le
    have := agrees.numCtx
    omega
  have use := c.sameUse_shiftCacheSlot (causalOps layers maxGraphNodes) i numKeep
  have other {k : Nat} (hk : k ≠ i) :=
    c.shiftCacheSlot_other (causalOps layers maxGraphNodes) i numKeep hk
  -- what is left to show, once the KV cache and the inputs of the slot are known
  have assemble {kv : Causal Row} {inputs : List Input} {rows' : List Row} (plain : kv.Plain)
      (layered : Layered layers kv)
      (same : ∀ k : Nat, k ≠ i → SameHeld c.cache.causal kv k)
      (holds : Holds kv i rows') (hle : rows'.length ≤ c.numCtx)
      (computed : Computed c.cache.copies i rows' inputs)
      (hused : (c.slot i).inUse = true → rows'.length = inputs.length) :
      CacheAgrees layers { c.setInputs i inputs with cache := { c.cache with causal := kv } } := by
    have slotSelf := c.slot_setInputs_self hi inputs
    refine ⟨plain, layered, agrees.numCtx, ?_, ?_⟩
    · intro k hk
      have hk : k < c.slots.length := by simpa [InputCache.setInputs] using hk
      exact ((c.sameUse_setInputs i inputs c.cache).id k).trans (agrees.id k hk)
    · intro k hk
      have hk : k < c.slots.length := by simpa [InputCache.setInputs] using hk
      by_cases hki : k = i
      · subst hki
        refine ⟨rows', holds, hle, ?_, ?_⟩
        · rw [InputCache.slot_cache, slotSelf]
          exact computed
        · rw [InputCache.slot_cache, slotSelf]
          exact hused
      · obtain ⟨rows₀, h₀⟩ := agrees.slot k hk
        exact ⟨rows₀, h₀.congr rfl (fun _ h => h) (same k hki) (c.slot_setInputs_of_ne hki inputs)⟩
  unfold InputCache.shiftCacheSlot
  split
  · exact agrees
  · rename_i hkeep
    dsimp only
    split
    · exact agrees
    · rename_i hdiscard
      have hend := (shiftDiscard_bounds (Nat.not_le.mp hkeep) _ hdiscard).1
      have hle := here.computed.length_le
      generalize shiftDiscard c.numCtx (c.slot i).inputs.length numKeep = discard
        at hdiscard hend
      have hbe : numKeep ≤ numKeep + discard := Nat.le_add_right _ _
      have hcast : (numKeep : Int) + (discard : Int) = ((numKeep + discard : Nat) : Int) := by
        push_cast
        rfl
      rw [hid, hcast]
      have removed := agrees.plain.remove i numKeep ((numKeep + discard : Nat) : Int)
      have bounds := (here.holds.bounds hrows).remove (Int.natCast_nonneg numKeep)
        (by exact_mod_cast hbe : (numKeep : Int) ≤ ((numKeep + discard : Nat) : Int))
      have others (k : Nat) (hk : k ≠ i) : SameHeld c.cache.causal
          (c.cache.causal.remove i numKeep ((numKeep + discard : Nat) : Int)).1 k :=
        sameHeld_remove agrees.plain (by exact_mod_cast hk) (by exact_mod_cast hbe)
      cases hremove : c.cache.causal.remove i numKeep ((numKeep + discard : Nat) : Int) with
      | mk kv err =>
        rw [hremove] at removed bounds others
        simp only [causalOps, hremove]
        cases err with
        | none =>
          have ok : (c.cache.causal.remove i numKeep ((numKeep + discard : Nat) : Int)).2 =
            none := by rw [hremove]
          have holds := here.holds.remove agrees.plain hrows hbe (by omega) ok
          rw [hremove] at holds
          refine assemble removed.2 ?_ others holds ?_ ?_ ?_
          · have := agrees.layered.remove agrees.plain i numKeep ((numKeep + discard : Nat) : Int)
            rwa [hremove] at this
          · rw [List.length_append, List.length_take, List.length_drop]
            have := here.length_le
            omega
          · exact here.computed.remove hbe hend
          · intro huse
            have := here.used huse
            simp only [keepInputs, List.length_append, List.length_take, List.length_drop, this]
        | some err =>
          obtain ⟨ok, holds⟩ := Holds.clear bounds
          have cleared := removed.2.remove i 0 maxInt32
          refine assemble cleared.2 ?_ ?_ holds (Nat.zero_le _) ?_ (fun _ => rfl)
          · refine Layered.remove ?_ removed.2 _ _ _
            have := agrees.layered.remove agrees.plain i numKeep ((numKeep + discard : Nat) : Int)
            rwa [hremove] at this
          · intro k hk
            refine (others k hk).trans (sameHeld_remove removed.2 (by exact_mod_cast hk) ?_)
            decide
          · intro p inp hp
            cases hp

/-! ### Building a batch -/

theorem CacheAgrees.release {layers : Nat} {c : InputCache KvState} (agrees : CacheAgrees layers c)
    (i : Nat) : CacheAgrees layers (c.setSlot i fun slot => { slot with inUse := false }) := by
  have slot (k : Nat) : (c.setSlot i fun slot => { slot with inUse := false }).slot k = c.slot k ∨
      (c.setSlot i fun slot => { slot with inUse := false }).slot k =
        { c.slot k with inUse := false } := by
    rw [c.slot_setSlot]
    split
    · rename_i h
      rw [h.1]
      exact .inr rfl
    · exact .inl rfl
  refine ⟨agrees.plain, agrees.layered, agrees.numCtx, ?_, ?_⟩
  · intro k hk
    rw [InputCache.setSlot_length] at hk
    rcases slot k with h | h
    · rw [h]
      exact agrees.id k hk
    · rw [h]
      exact agrees.id k hk
  · intro k hk
    rw [InputCache.setSlot_length] at hk
    obtain ⟨rows, here⟩ := agrees.slot k hk
    refine ⟨rows, here.holds, here.length_le, ?_, ?_⟩
    · rcases slot k with h | h
      · rw [h]
        exact here.computed
      · rw [h]
        exact here.computed
    · rcases slot k with h | h
      · rw [h]
        exact here.used
      · rw [h]
        intro huse
        cases huse

/-- While a batch is built: the agreement, and room for what is pending. -/
structure BuildAgrees (layers : Nat) (b : Building KvState) : Prop where
  cache : CacheAgrees layers b.server.cache
  room : ∀ i seq, b.server.seq i = some seq →
    (b.server.cache.slot seq.cache).inputs.length + seq.pendingInputs.length ≤
      b.server.cache.numCtx

theorem BuildAgrees.visit {layers : Nat} {maxGraphNodes : Int} {env : Env} {i : Nat}
    {b b' : Building KvState} (agrees : BuildAgrees layers b) (assigned : b.server.Assigned)
    (idle : ∀ seq, b.server.seq i = some seq → seq.pendingInputs = [])
    (h : b.visit (causalOps layers maxGraphNodes) env i = some b') : BuildAgrees layers b' := by
  rcases Building.visit_some h with ⟨-, rfl⟩ | ⟨seq, hs, rfl⟩ | ⟨seq, seq', turn⟩
  · exact agrees
  · have eqs := Server.removeSequence_eq hs env .length
    have visited := Building.removed_visited env assigned hs
    constructor
    · change CacheAgrees layers (b.server.removeSequence env i .length).cache
      rw [eqs.2.1]
      exact agrees.cache.release _
    · intro j seq' hs'
      have hji : j ≠ i := by
        rintro rfl
        dsimp only at hs'
        rw [Server.removeSequence_seq hs, if_pos rfl] at hs'
        cases hs'
      have old := hs'
      rw [visited.seq j hji] at old
      rw [visited.slot j seq' hji old, visited.numCtx]
      exact agrees.room j seq' old
  · have visited := turn.visited assigned (idle seq turn.before)
    have before := turn.before
    have after := turn.after
    obtain ⟨b₁, hadd, rfl⟩ := turn.building
    have added := Building.added_addInputs hadd
    have hlt := (assigned.slot i seq before).1
    constructor
    · have := added.shifts
        (fun c => CacheAgrees layers c ∧ c.slots.length = b.server.cache.slots.length) (by
          rintro c ⟨hc, hlen⟩
          exact ⟨hc.shift (by rw [hlen]; exact hlt) _,
            (c.sameUse_shiftCacheSlot _ _ _).length.trans hlen⟩) ⟨agrees.cache, rfl⟩
      exact this.1
    · intro j seq'' hs''
      by_cases hji : j = i
      · subst hji
        rw [after] at hs''
        obtain rfl := Option.some.inj hs''
        have hcache : seq'.cache = seq.cache := by rw [added.rest]
        have := Building.addInputs_room hadd hlt (agrees.room j seq before)
        change (b₁.server.cache.slot seq'.cache).inputs.length + seq'.pendingInputs.length ≤ _
        rw [hcache]
        exact this
      · have old := hs''
        rw [visited.seq j hji] at old
        rw [visited.slot j seq'' hji old, visited.numCtx]
        exact agrees.room j seq'' old

theorem CacheAgrees.buildBatch {layers : Nat} {maxGraphNodes : Int} {env : Env}
    {s : Server KvState} {b : Building KvState} (agrees : CacheAgrees layers s.cache)
    (assigned : s.Assigned) (idle : ∀ i seq, s.seq i = some seq → seq.pendingInputs = [])
    (h : s.buildBatch (causalOps layers maxGraphNodes) env = some b) :
    BuildAgrees layers b ∧ Built s s.order b := by
  have start : BuildAgrees layers { server := s } := by
    refine ⟨agrees, ?_⟩
    intro i seq hs
    obtain ⟨rows, here⟩ := agrees.slot _ (assigned.slot i seq hs).1
    rw [idle i seq hs, List.length_nil]
    exact here.computed.length_le.trans here.length_le
  obtain ⟨nextSeq, b₁, rfl, built, hI⟩ := Server.buildBatch_invariant
    (I := fun _ b => BuildAgrees layers b) assigned idle start (by
      intro done i b b' built hi hI hvisit
      refine hI.visit built.assigned ?_ hvisit
      intro seq hs
      rw [(built.fresh i hi).1] at hs
      exact idle i seq hs) h
  have same : b₁.server.SameUse { b₁.server with nextSeq } :=
    ⟨.refl _, rfl, fun _ => rfl, rfl⟩
  exact ⟨⟨hI.cache, hI.room⟩, built.assigned.congr same, built.length, built.batchSize,
    built.numCtx, built.fresh, built.old, built.pending, built.owner⟩

/-! ### A batch -/

/-- The inputs of slot `k` with those that its sequence has in the batch. -/
inductive SlotInputs (s : Server KvState) (k : Nat) : List Input → Prop
  | idle : (∀ i seq, s.seq i = some seq → seq.cache ≠ k) →
      SlotInputs s k (s.cache.slot k).inputs
  | batch (i : Nat) (seq : Sequence) : s.seq i = some seq → seq.cache = k →
      SlotInputs s k ((s.cache.slot k).inputs ++ seq.pendingInputs)

/-- Each slot after `Forward`, before its inputs are updated. -/
theorem BuildAgrees.forwarded {layers : Nat} {s : Server KvState} {b : Building KvState}
    {kv : KvState} (agrees : BuildAgrees layers b) (built : Built s s.order b)
    (forwarded : Forwarded layers b.server.cache.cache kv b.batch) {k : Nat}
    (hk : k < b.server.cache.slots.length) : ∃ rows inputs, SlotInputs b.server k inputs ∧
      Holds kv.causal k rows ∧ rows.length ≤ b.server.cache.numCtx ∧
      Computed kv.copies k rows inputs ∧
      ((b.server.cache.slot k).inUse = true → rows.length = inputs.length) := by
  obtain ⟨rows, here⟩ := agrees.cache.slot k hk
  by_cases howned : ∃ i seq, b.server.seq i = some seq ∧ seq.cache = k
  · obtain ⟨i, seq, hs, rfl⟩ := howned
    have huse := (built.assigned.slot i seq hs).2
    have hlen := here.used huse
    have hof := built.pending i seq hs
    rw [pendingEntries, built.assigned.slot_id hs] at hof
    refine ⟨_, _, .batch i seq hs rfl,
      forwarded.holds _ rows seq.pendingInputs here.holds (by rw [hof, hlen]), ?_, ?_, ?_⟩
    · rw [hof, List.length_append, List.length_map, entriesFrom_length, hlen]
      exact agrees.room i seq hs
    · rw [hof, forwarded.copies]
      exact here.computed.append hlen _ _
    · intro _
      rw [hof, List.length_append, List.length_map, entriesFrom_length, hlen, List.length_append]
  · have hnot : ∀ i seq, b.server.seq i = some seq → seq.cache ≠ k :=
      fun i seq hs heq => howned ⟨i, seq, hs, heq⟩
    have hof : b.batch.of k = [] := by
      rw [ForwardBatch.of, List.filter_eq_nil_iff]
      intro e he
      obtain ⟨i, seq, hs, heq⟩ := built.owner e he
      rw [decide_eq_true_eq, heq]
      exact_mod_cast hnot i seq hs
    have holds := forwarded.holds k rows [] here.holds (by rw [hof]; rfl)
    rw [hof, List.map_nil, List.append_nil] at holds
    refine ⟨rows, _, .idle hnot, holds, here.length_le, ?_, here.used⟩
    rw [forwarded.copies]
    exact here.computed

/-- Building a batch from `s` does not lead to a defragmentation that mixes up rows. -/
def Undisturbed (layers : Nat) (maxGraphNodes : Int) (s : Server KvState) (env : Env) : Prop :=
  ∀ b, s.buildBatch (causalOps layers maxGraphNodes) env = some b → b.batch.entries ≠ [] →
    b.server.cache.cache.causal.Undisturbed b.batch.entries.length

theorem CacheAgrees.processBatch {layers : Nat} {maxGraphNodes : Int} {env : Env}
    {s : Server KvState} {p : Processed KvState} (agrees : CacheAgrees layers s.cache)
    (assigned : s.Assigned) (used : s.Used)
    (idle : ∀ i seq, s.seq i = some seq → seq.pendingInputs = [])
    (undisturbed : Undisturbed layers maxGraphNodes s env)
    (h : Processes (causalOps layers maxGraphNodes) env s p) :
    CacheAgrees layers p.server.cache ∧ p.server.Assigned ∧ p.server.Used ∧
      ∀ i seq, p.server.seq i = some seq → seq.pendingInputs = [] := by
  obtain ⟨building, built⟩ := agrees.buildBatch assigned idle h.building
  have usedB := Server.buildBatch_used assigned idle used h.building
  cases h with
  | empty hbuild hempty hserver hsampled =>
    rw [hserver]
    refine ⟨building.cache, built.assigned, usedB, ?_⟩
    intro i seq hs
    have := built.pending i seq hs
    rw [ForwardBatch.of, hempty, pendingEntries] at this
    have := congrArg List.length this
    rw [entriesFrom_length] at this
    exact List.length_eq_zero_iff.mp this.symm
  | forward kv t f hbuild hne hforward ht hfold hserver hsampled =>
    have forwarded := KvState.forward_ok building.cache.plain building.cache.layered hne
      (undisturbed _ hbuild hne) hforward
    have same : p.building.server.SameUse t := by
      rw [ht]
      exact Server.sameUse_cache _ _
    have assignedT := built.assigned.congr same
    obtain ⟨finished, usedAfter⟩ := Server.finished_visits assignedT List.nodup_range hfold
    have usedF := usedAfter (usedB.congr same)
    have seqs (i : Nat) : t.seq i = p.building.server.seq i := by rw [ht]; rfl
    have slots (k : Nat) : t.cache.slot k = p.building.server.cache.slot k := by rw [ht]; rfl
    have hkv : f.server.cache.cache = kv := by rw [finished.cache, ht]
    have hnum : f.server.cache.numCtx = p.building.server.cache.numCtx := by
      rw [finished.numCtx, ht]
    have hlen : f.server.cache.slots.length = p.building.server.cache.slots.length := by
      rw [finished.slots, ht]
    -- a sequence that goes on has had its turn
    have went (i : Nat) (seq' : Sequence) (hs' : f.server.seq i = some seq') :
        ∃ seq, Went t f i seq seq' := by
      apply finished.went i ?_ seq' hs'
      rw [List.mem_range, ← finished.length]
      exact Server.lt_of_seq hs'
    rw [hserver]
    refine ⟨⟨?_, ?_, ?_, finished.assigned.id, ?_⟩, finished.assigned, usedF, ?_⟩
    · rw [hkv]
      exact forwarded.plain
    · rw [hkv]
      exact forwarded.layered
    · rw [hnum]
      exact building.cache.numCtx
    · intro k hk
      rw [hlen] at hk
      obtain ⟨rows, inputs, hinputs, holds, hle, computed, hused⟩ :=
        building.forwarded built forwarded hk
      refine ⟨rows, by rw [hkv]; exact holds, by rw [hnum]; exact hle, ?_, ?_⟩
      · rw [hkv]
        apply computed.left
        rcases finished.kept k with hsame | ⟨i, seq, -, hs, hcache, hpre⟩
        · rw [hsame, slots]
          cases hinputs with
          | idle => exact List.prefix_refl _
          | batch => exact List.prefix_append ..
        · rw [seqs] at hs
          rw [slots] at hpre
          cases hinputs with
          | idle hnot => exact absurd hcache (hnot i seq hs)
          | batch j seq' hs' hcache' =>
            obtain rfl := built.assigned.own i j seq seq' hs hs' (hcache.trans hcache'.symm)
            rw [hs] at hs'
            obtain rfl := Option.some.inj hs'
            exact hpre
      · intro huse
        obtain ⟨i, seq', hs', rfl⟩ := usedF k (by rw [hlen]; exact hk) huse
        obtain ⟨seq, went⟩ := went i seq' hs'
        have here := went.here
        rw [seqs] at here
        have hslot := went.slot
        rw [slots, ← went.cache] at hslot
        rw [hslot, hused]
        · cases hinputs with
          | idle hnot => exact absurd went.cache.symm (hnot i seq here)
          | batch j seq₁ hs₁ hcache₁ =>
            obtain rfl := built.assigned.own i j seq seq₁ here hs₁ (went.cache.symm.trans hcache₁.symm)
            rw [here] at hs₁
            obtain rfl := Option.some.inj hs₁
            rfl
        · rw [went.cache]
          exact (built.assigned.slot i seq here).2
    · intro i seq' hs'
      obtain ⟨seq, went⟩ := went i seq' hs'
      exact went.pending

end Ecco9.Runner
