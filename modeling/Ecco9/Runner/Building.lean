import Ecco9.Runner.Queue
import Mathlib.Data.Nat.ModEq
import Mathlib.Data.List.NodupEquivFin
import Mathlib.Data.Finset.Dedup

/-! A batch, built from all sequences in turn. -/

universe u

namespace Ecco9.Runner

open Ecco9.Library

/-! ### The order -/

theorem Server.order_nodup (s : Server K) : s.order.Nodup := by
  refine List.Nodup.map_on ?_ List.nodup_range
  intro k hk k' hk' h
  rw [List.mem_range] at hk hk'
  exact Nat.ModEq.eq_of_lt_of_lt (Nat.ModEq.add_left_cancel' s.nextSeq h) hk hk'

theorem Server.mem_order {s : Server K} {i : Nat} : i ∈ s.order ↔ i < s.seqs.length := by
  have sub : s.order.toFinset ⊆ Finset.range s.seqs.length := by
    intro i hi
    obtain ⟨k, hk, rfl⟩ := List.mem_map.mp (List.mem_toFinset.mp hi)
    rw [List.mem_range] at hk
    rw [Finset.mem_range]
    exact Nat.mod_lt _ (by omega)
  have card : (Finset.range s.seqs.length).card ≤ s.order.toFinset.card := by
    rw [List.toFinset_card_of_nodup s.order_nodup, Finset.card_range, order, List.length_map,
      List.length_range]
  have := Finset.eq_of_subset_of_card_le sub card
  rw [← List.mem_toFinset, this, Finset.mem_range]

/-! ### Entries by sequence -/

/-- The entries of one sequence of the KV cache. -/
def ForwardBatch.of (b : ForwardBatch) (id : Int) : List BatchEntry :=
  b.entries.filter fun e => decide (e.sequence = id)

theorem filter_pendingEntries (slot : InputCacheSlot) (pending : List Input) (id : Int) :
    (pendingEntries slot pending).filter (fun e => decide (e.sequence = id)) =
      if slot.id = id then pendingEntries slot pending else [] := by
  have all : ∀ e ∈ pendingEntries slot pending, e.sequence = slot.id := by
    intro e he
    obtain ⟨x, -, rfl⟩ := List.mem_map.mp he
    rfl
  split
  · rename_i h
    rw [List.filter_eq_self]
    intro e he
    rw [decide_eq_true_eq, all e he, h]
  · rename_i h
    rw [List.filter_eq_nil_iff]
    intro e he
    rw [decide_eq_true_eq, all e he]
    exact h

/-! ### One turn -/

/-- The sequence as the loop over its inputs leaves it, without the inputs that are pending. -/
def Sequence.taken (seq : Sequence) : Sequence :=
  { seq with inputs := seq.inputs.drop seq.pendingInputs.length }

/-- A turn in which the sequence is looked at and put back. -/
structure Turn (ops : KvOps K) (env : Env) (i : Nat) (b b' : Building K) (seq seq' : Sequence) :
    Prop where
  before : b.server.seq i = some seq
  after : b'.server.seq i = some seq'.taken
  building : ∃ b₁, Building.addInputs ops env i seq.inputs 0 b.server.batchSize b seq =
      some (b₁, seq') ∧
    b' = { b₁ with server := Server.setSeq b₁.server i (some seq'.taken) }

theorem Building.visit_some {ops : KvOps K} {env : Env} {i : Nat} {b b' : Building K}
    (h : b.visit ops env i = some b') :
    b.server.seq i = none ∧ b' = b ∨
      (∃ seq, b.server.seq i = some seq ∧
        b' = { b with server := b.server.removeSequence env i .length }) ∨
      ∃ seq seq', Turn ops env i b b' seq seq' := by
  unfold visit at h
  split at h
  · rename_i hnone
    exact .inl ⟨hnone, (Option.some.inj h).symm⟩
  · rename_i seq hseq
    split at h
    · exact .inr (.inl ⟨seq, hseq, (Option.some.inj h).symm⟩)
    · split at h
      · cases h
      · rename_i b₁ seq' hadd
        obtain rfl := Option.some.inj h
        refine .inr (.inr ⟨seq, seq', hseq, ?_, b₁, hadd, rfl⟩)
        have hlt := Server.lt_of_seq hseq
        have hlen : b₁.server.seqs.length = b.server.seqs.length := by
          rw [(added_addInputs hadd).server]
        exact Server.seq_setSeq_self (by omega) _

/-- What a turn leaves of the other sequences, and of the batch built before it. -/
structure Visited (i : Nat) (b b' : Building K) : Prop where
  assigned : b'.server.Assigned
  length : b'.server.seqs.length = b.server.seqs.length
  batchSize : b'.server.batchSize = b.server.batchSize
  numCtx : b'.server.cache.numCtx = b.server.cache.numCtx
  seq : ∀ j, j ≠ i → b'.server.seq j = b.server.seq j
  slot : ∀ j seq, j ≠ i → b.server.seq j = some seq →
    b'.server.cache.slot seq.cache = b.server.cache.slot seq.cache
  removed : b'.server.seq i = none → b'.batch.entries = b.batch.entries
  kept : ∀ seq', b'.server.seq i = some seq' → (∃ seq, b.server.seq i = some seq ∧
    seq.cache = seq'.cache) ∧ b'.batch.entries = b.batch.entries ++
      pendingEntries (b'.server.cache.slot seq'.cache) seq'.pendingInputs
  outputs : b.batch.outputs <+: b'.batch.outputs

theorem Turn.visited {ops : KvOps K} {env : Env} {i : Nat} {b b' : Building K} {seq seq' : Sequence}
    (turn : Turn ops env i b b' seq seq') (assigned : b.server.Assigned)
    (hpending : seq.pendingInputs = []) : Visited i b b' := by
  have before := turn.before
  have after := turn.after
  obtain ⟨b₁, hadd, rfl⟩ := turn.building
  have added := Building.added_addInputs hadd
  have hcache : seq'.cache = seq.cache := by rw [added.rest]
  have hseq₁ (j : Nat) : b₁.server.seq j = b.server.seq j := by
    rw [added.server]
    rfl
  have hlen : b₁.server.seqs.length = b.server.seqs.length := by rw [added.server]
  have use : b.server.SameUse b₁.server := by
    refine ⟨added.sameUse, hlen, ?_, ?_⟩
    · intro j
      rw [hseq₁]
    · rw [added.server]
  refine ⟨?_, ?_, ?_, added.sameUse.numCtx, ?_, ?_, ?_, ?_, added.outputs⟩
  · have here : b₁.server.seq i = some seq := by
      rw [hseq₁]
      exact before
    exact assigned.congr (use.trans (Server.sameUse_setSeq here hcache))
  · rw [← hlen]
    exact Server.setSeq_length ..
  · change b₁.server.batchSize = _
    rw [added.server]
  · intro j hj
    rw [← hseq₁ j]
    exact Server.seq_setSeq_of_ne _ hj _
  · intro j seq'' hj hs
    apply added.other
    intro heq
    exact hj (assigned.own j i seq'' seq hs before heq)
  · intro h
    rw [after] at h
    cases h
  · intro seq'' hs
    rw [after] at hs
    obtain rfl := Option.some.inj hs
    refine ⟨⟨seq, before, hcache.symm⟩, ?_⟩
    have hentries := added.entries b.batch.entries (by
      rw [hpending, pendingEntries, entriesFrom_nil, List.append_nil])
    rw [hentries, ← hcache]
    rfl

theorem Building.removed_visited (env : Env) {i : Nat} {b : Building K} {seq : Sequence}
    (assigned : b.server.Assigned) (h : b.server.seq i = some seq) :
    Visited i b { b with server := b.server.removeSequence env i .length } := by
  have hseq := Server.removeSequence_seq h env .length
  have eqs := Server.removeSequence_eq h env .length
  have gone : (b.server.removeSequence env i .length).seq i = none := by rw [hseq, if_pos rfl]
  refine ⟨assigned.removeSequence h env .length, ?_, ?_, ?_, ?_, ?_, fun _ => rfl, ?_,
    List.prefix_refl _⟩
  · rw [eqs.1, List.length_set]
  · simp only [Server.removeSequence, h, Server.setSeq]
  · rw [eqs.2.1]
    rfl
  · intro j hj
    rw [hseq, if_neg hj]
  · intro j seq' hj hs
    rw [eqs.2.1, InputCache.slot_setSlot, if_neg]
    rintro ⟨heq, -⟩
    exact hj (assigned.own j i seq' seq hs h heq)
  · intro seq' hs
    rw [gone] at hs
    cases hs

/-! ### The batch and the sequences -/

/-- The batch holds exactly what the sequences have pending. -/
structure Built (s : Server K) (done : List Nat) (b : Building K) : Prop where
  assigned : b.server.Assigned
  length : b.server.seqs.length = s.seqs.length
  batchSize : b.server.batchSize = s.batchSize
  numCtx : b.server.cache.numCtx = s.cache.numCtx
  fresh : ∀ i, i ∉ done → b.server.seq i = s.seq i ∧ ∀ seq, s.seq i = some seq →
    b.server.cache.slot seq.cache = s.cache.slot seq.cache
  old : ∀ i seq', b.server.seq i = some seq' → ∃ seq, s.seq i = some seq ∧ seq.cache = seq'.cache
  pending : ∀ i seq, b.server.seq i = some seq → b.batch.of seq.cache =
    pendingEntries (b.server.cache.slot seq.cache) seq.pendingInputs
  owner : ∀ e ∈ b.batch.entries, ∃ i seq, b.server.seq i = some seq ∧ e.sequence = seq.cache

theorem Server.Assigned.slot_id {s : Server K} (assigned : s.Assigned) {i : Nat} {seq : Sequence}
    (h : s.seq i = some seq) : (s.cache.slot seq.cache).id = seq.cache :=
  assigned.id _ (assigned.slot i seq h).1

theorem Built.start {s : Server K} (assigned : s.Assigned)
    (idle : ∀ i seq, s.seq i = some seq → seq.pendingInputs = []) :
    Built s [] { server := s } := by
  refine ⟨assigned, rfl, rfl, rfl, fun i _ => ⟨rfl, fun _ _ => rfl⟩,
    fun _ seq h => ⟨seq, h, rfl⟩, ?_, ?_⟩
  · intro i seq hs
    rw [idle i seq hs]
    rfl
  · intro e he
    cases he

theorem Built.visited {s : Server K} {done : List Nat} {b b' : Building K} {i : Nat}
    (built : Built s done b) (visited : Visited i b b')
    (idle : ∀ seq, b.server.seq i = some seq → seq.pendingInputs = []) (hi : i ∉ done) :
    Built s (done ++ [i]) b' := by
  have none_of (seq : Sequence) (hs : b.server.seq i = some seq) : b.batch.of seq.cache = [] := by
    rw [built.pending i seq hs, idle seq hs]
    rfl
  -- what the turn adds belongs to its sequence
  have added (j : Nat) (seq : Sequence) (hs : b'.server.seq j = some seq) (hj : j ≠ i) :
      b'.batch.of seq.cache = b.batch.of seq.cache := by
    cases hnew : b'.server.seq i with
    | none => rw [ForwardBatch.of, visited.removed hnew, ForwardBatch.of]
    | some seq' =>
      obtain ⟨-, hentries⟩ := visited.kept seq' hnew
      rw [ForwardBatch.of, hentries, List.filter_append, filter_pendingEntries, if_neg,
        List.append_nil, ForwardBatch.of]
      rw [visited.assigned.slot_id hnew]
      intro heq
      exact hj (visited.assigned.own i j seq' seq hnew hs (by exact_mod_cast heq)).symm
  refine ⟨visited.assigned, visited.length.trans built.length,
    visited.batchSize.trans built.batchSize, visited.numCtx.trans built.numCtx, ?_, ?_, ?_, ?_⟩
  · intro j hj
    have hji : j ≠ i := by
      rintro rfl
      exact hj (by simp)
    obtain ⟨hseq, hslot⟩ := built.fresh j fun h => hj (by simp [h])
    refine ⟨(visited.seq j hji).trans hseq, ?_⟩
    intro seq hs
    rw [visited.slot j seq hji (hseq.trans hs), hslot seq hs]
  · intro j seq' hs
    by_cases hji : j = i
    · subst hji
      obtain ⟨⟨seq, hseq, hcache⟩, -⟩ := visited.kept seq' hs
      obtain ⟨seq₀, hseq₀, hcache₀⟩ := built.old j seq hseq
      exact ⟨seq₀, hseq₀, hcache₀.trans hcache⟩
    · rw [visited.seq j hji] at hs
      exact built.old j seq' hs
  · intro j seq' hs
    by_cases hji : j = i
    · subst hji
      obtain ⟨⟨seq, hseq, hcache⟩, hentries⟩ := visited.kept seq' hs
      have := none_of seq hseq
      rw [ForwardBatch.of, hcache] at this
      rw [ForwardBatch.of, hentries, List.filter_append, this, filter_pendingEntries,
        if_pos (visited.assigned.slot_id hs), List.nil_append]
    · rw [added j seq' hs hji]
      rw [visited.seq j hji] at hs
      rw [visited.slot j seq' hji hs, built.pending j seq' hs]
  · intro e he
    have old (he : e ∈ b.batch.entries) :
        ∃ j seq, b'.server.seq j = some seq ∧ e.sequence = seq.cache := by
      obtain ⟨j, seq, hs, heq⟩ := built.owner e he
      by_cases hji : j = i
      · subst hji
        have := none_of seq hs
        rw [ForwardBatch.of, List.filter_eq_nil_iff] at this
        exact absurd (decide_eq_true heq) (this e he)
      · refine ⟨j, seq, ?_, heq⟩
        rw [visited.seq j hji]
        exact hs
    cases hnew : b'.server.seq i with
    | none =>
      rw [visited.removed hnew] at he
      exact old he
    | some seq' =>
      rw [(visited.kept seq' hnew).2, List.mem_append] at he
      rcases he with he | he
      · exact old he
      · obtain ⟨x, -, rfl⟩ := List.mem_map.mp he
        exact ⟨i, seq', hnew, visited.assigned.slot_id hnew⟩

theorem Built.skip {s : Server K} {done : List Nat} {b : Building K} {i : Nat}
    (built : Built s done b) : Built s (done ++ [i]) b :=
  { built with fresh := fun j hj => built.fresh j fun h => hj (by simp [h]) }

theorem Built.visit {ops : KvOps K} {env : Env} {s : Server K} {done : List Nat}
    {b b' : Building K} {i : Nat} (built : Built s done b)
    (idle : ∀ i seq, s.seq i = some seq → seq.pendingInputs = []) (hi : i ∉ done)
    (h : b.visit ops env i = some b') : Built s (done ++ [i]) b' := by
  have idle' (seq : Sequence) (hs : b.server.seq i = some seq) : seq.pendingInputs = [] := by
    rw [(built.fresh i hi).1] at hs
    exact idle i seq hs
  rcases Building.visit_some h with ⟨-, rfl⟩ | ⟨seq, hs, rfl⟩ | ⟨seq, seq', turn⟩
  · exact built.skip
  · exact built.visited (Building.removed_visited env built.assigned hs) idle' hi
  · exact built.visited (turn.visited built.assigned (idle' seq turn.before)) idle' hi

theorem not_mem_done {l done todo : List Nat} {a : Nat} (h : l.Nodup) (hl : l = done ++ a :: todo) :
    a ∉ done := by
  rw [hl] at h
  exact fun ha => (List.nodup_append.mp h).2.2 a ha a (by simp) rfl

/-- An invariant of the turns, for a batch that is built from a server without pending inputs. -/
theorem Server.buildBatch_invariant {ops : KvOps K} {env : Env} {s : Server K} {b : Building K}
    (assigned : s.Assigned) (idle : ∀ i seq, s.seq i = some seq → seq.pendingInputs = [])
    {I : List Nat → Building K → Prop} (start : I [] { server := s })
    (keep : ∀ done i b b', Built s done b → i ∉ done → I done b → b.visit ops env i = some b' →
      I (done ++ [i]) b')
    (h : s.buildBatch ops env = some b) :
    ∃ nextSeq b₁, b = { b₁ with server := { b₁.server with nextSeq } } ∧ Built s s.order b₁ ∧
      I s.order b₁ := by
  unfold buildBatch at h
  split at h
  · cases h
  · rename_i b₁ hfold
    obtain rfl := Option.some.inj h
    refine ⟨_, b₁, rfl, ?_⟩
    refine foldlM_progress (I := fun done b => Built s done b ∧ I done b) ?_ hfold
      ⟨.start assigned idle, start⟩
    rintro done a todo b b' hl ⟨built, hI⟩ hvisit
    have ha := not_mem_done s.order_nodup hl
    exact ⟨built.visit idle ha hvisit, keep done a b b' built ha hI hvisit⟩

end Ecco9.Runner
