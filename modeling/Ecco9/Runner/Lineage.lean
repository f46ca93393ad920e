import Ecco9.Library.Numbered
import Ecco9.Runner.Serve
import Ecco9.Runner.Shift
import Ecco9.Runner.StopStream

/-! Which inputs of a sequence its slot still has, over runs of the server: every sampled token has a
number, and a shift of the slot discards some of them. -/

universe u

namespace Ecco9.Runner

open Ecco9.Library

/-! ### What shifts leave of a list -/

section Around

variable {α β : Type}

theorem keepAround_zero (l : List α) (numKeep : Nat) : keepAround l numKeep 0 = l := by
  rw [keepAround, Nat.add_zero, List.take_append_drop]

/-- Two shifts discard what one does. -/
theorem keepAround_keepAround (l : List α) (numKeep d e : Nat) :
    keepAround (keepAround l numKeep d) numKeep e = keepAround l numKeep (d + e) := by
  unfold keepAround
  by_cases hlen : numKeep ≤ l.length
  · have hfront : (l.take numKeep).length = numKeep := List.length_take_of_le hlen
    have hdrop : (l.take numKeep ++ l.drop (numKeep + d)).drop numKeep =
        (l.take numKeep).drop numKeep ++ l.drop (numKeep + d) :=
      List.drop_append_of_le_length hfront.ge
    rw [List.take_left' hfront, ← List.drop_drop, hdrop, List.drop_of_length_le hfront.le,
      List.nil_append, List.drop_drop, Nat.add_assoc]
  · have hend {n : Nat} : l.drop (numKeep + n) = [] := List.drop_of_length_le (by omega)
    have hall : l.take numKeep = l := List.take_of_length_le (by omega)
    rw [hend, hend, hall, List.append_nil, hall, hend, List.append_nil]

/-- How much was discarded shows in the length. -/
theorem keepAround_length (l : List α) (numKeep d : Nat) :
    keepAround l numKeep (l.length - (keepAround l numKeep d).length) = keepAround l numKeep d := by
  have hlen : (keepAround l numKeep d).length =
      min numKeep l.length + (l.length - (numKeep + d)) := by
    rw [keepAround, List.length_append, List.length_take, List.length_drop]
  rw [hlen]
  by_cases hd : numKeep + d ≤ l.length
  · congr 1
    omega
  · have hend : l.drop (numKeep + d) = [] := List.drop_of_length_le (by omega)
    have hrest : l.drop (numKeep + (l.length - (min numKeep l.length +
        (l.length - (numKeep + d))))) = [] := List.drop_of_length_le (by omega)
    rw [keepAround, keepAround, hend, hrest]

theorem keepAround_append {l : List α} {numKeep d : Nat} (h : numKeep + d ≤ l.length) (l' : List α) :
    keepAround (l ++ l') numKeep d = keepAround l numKeep d ++ l' := by
  rw [keepAround, keepAround, List.take_append_of_le_length (by omega),
    List.drop_append_of_le_length h, List.append_assoc]

theorem keepAround_map (f : α → β) (l : List α) (numKeep d : Nat) :
    (keepAround l numKeep d).map f = keepAround (l.map f) numKeep d := by
  rw [keepAround, keepAround, List.map_append, List.map_take, List.map_drop]

theorem keepAround_sublist (l : List α) (numKeep d : Nat) : (keepAround l numKeep d).Sublist l := by
  have h : (l.take numKeep ++ l.drop (numKeep + d)).Sublist (l.take numKeep ++ l.drop numKeep) := by
    rw [← List.drop_drop]
    exact (List.drop_sublist _ _).append_left _
  rwa [List.take_append_drop] at h

end Around

/-! ### The shifts of a batch -/

theorem InputCache.shiftCacheSlot_keep {c c' : InputCache K} {ops : KvOps K} {i numKeep : Nat}
    {r : ShiftResult} (h : c.shiftCacheSlot ops i numKeep = (c', r)) (hr : r ≠ .error) :
    numKeep < c.numCtx := by
  by_contra hge
  rw [shiftCacheSlot, if_pos (Nat.not_lt.mp hge)] at h
  exact hr (Prod.mk.inj h).2.symm

theorem shiftKept_append {numCtx numKeep : Nat} (hkeep : numKeep < numCtx)
    (inputs queue : List Input) : ∃ d, shiftKept numCtx numKeep inputs ++ queue = keepAround (inputs ++ queue) numKeep d := by
  have bounds := shiftDiscard_bounds hkeep inputs.length
  by_cases hzero : shiftDiscard numCtx inputs.length numKeep = 0
  · refine ⟨0, ?_⟩
    rw [keepAround_zero, shiftKept, hzero]
    exact congrArg (· ++ queue) (keepAround_zero inputs numKeep)
  · exact ⟨_, (keepAround_append (bounds hzero).1 queue).symm⟩

/-- Of the inputs of a slot and a queue behind them, the loop over a queue discards some that follow
the first `numKeep`. -/
theorem Building.addInputs_around {ops : KvOps K} {env : Env} {seqIdx : Nat} {todo : List Input}
    {i batchSize : Nat} {b b' : Building K} {seq seq' : Sequence}
    (h : Building.addInputs ops env seqIdx todo i batchSize b seq = some (b', seq'))
    (hslot : seq.cache < b.server.cache.slots.length) :
    ∃ d, (b'.server.cache.slot seq.cache).inputs ++ seq'.inputs =
      keepAround ((b.server.cache.slot seq.cache).inputs ++ seq.inputs) seq.numKeep d := by
  induction todo generalizing i batchSize b seq with
  | nil =>
    obtain ⟨rfl, rfl⟩ := Prod.mk.inj (Option.some.inj h)
    exact ⟨0, (keepAround_zero _ _).symm⟩
  | cons inp todo ih =>
    rw [addInputs] at h
    dsimp only at h
    generalize (if 1 + inp.sameBatch > batchSize then 1 + inp.sameBatch else batchSize) = size at h
    split at h
    · obtain ⟨rfl, rfl⟩ := Prod.mk.inj (Option.some.inj h)
      exact ⟨0, (keepAround_zero _ _).symm⟩
    · split at h
      · obtain ⟨rfl, rfl⟩ := Prod.mk.inj (Option.some.inj h)
        exact ⟨0, (keepAround_zero _ _).symm⟩
      · cases h
      · rename_i cache retained hmake
        obtain ⟨-, -, hshift⟩ := InputCache.makeRoom_requeued hmake
        have use := b.server.cache.sameUse_shiftCacheSlot ops seq.cache seq.numKeep
        rw [hshift] at use
        obtain ⟨hempty, hretained⟩ := InputCache.shiftCacheSlot_reprocess hslot hshift
        have hkeep := InputCache.shiftCacheSlot_keep hshift (by simp)
        obtain ⟨d, hd⟩ := shiftKept_append hkeep (b.server.cache.slot seq.cache).inputs seq.inputs
        obtain ⟨e, he⟩ := ih h (by rw [use.length]; exact hslot)
        refine ⟨d + e, ?_⟩
        dsimp only at he
        rw [hempty, List.nil_append, hretained, hd, keepAround_keepAround] at he
        exact he
      · rename_i cache hmake
        split at h
        · cases h
        · have shifted : cache.slots.length = b.server.cache.slots.length ∧
              ∃ d, (cache.slot seq.cache).inputs ++ seq.inputs = keepAround
                ((b.server.cache.slot seq.cache).inputs ++ seq.inputs) seq.numKeep d := by
            rcases InputCache.makeRoom_yes hmake with ⟨rfl, -⟩ | ⟨-, -, hshift⟩
            · exact ⟨rfl, 0, (keepAround_zero _ _).symm⟩
            · have use := b.server.cache.sameUse_shiftCacheSlot ops seq.cache seq.numKeep
              rw [hshift] at use
              refine ⟨use.length, ?_⟩
              rcases InputCache.shiftCacheSlot_ok hslot hshift with ⟨rfl, -⟩ | hkept
              · exact ⟨0, (keepAround_zero _ _).symm⟩
              · rw [hkept]
                exact shiftKept_append (InputCache.shiftCacheSlot_keep hshift (by simp)) _ _
          obtain ⟨hlen, d, hd⟩ := shifted
          obtain ⟨e, he⟩ := ih h (by rw [hlen]; exact hslot)
          refine ⟨d + e, ?_⟩
          dsimp only at he
          rw [hd, keepAround_keepAround] at he
          exact he

/-! ### The lineage of a sequence -/

/-- What became of the inputs of a sequence since its prompt was loaded. -/
structure Lineage where
  /-- the inputs of its slot and then of its queue; the tokens sampled for it have the numbers from 1
  on, the inputs of its prompt have 0 -/
  line : List (Input × Nat) := []
  /-- the pieces of the tokens sampled, in order -/
  pieces : List Text := []

/-- The lineage of each sequence, by its index. -/
def Lineages := Nat → Lineage

/-- How many inputs of sequence `i` the shifts of a batch discarded. -/
def Building.discarded (s : Server K) (b : Building K) (i : Nat) : Nat :=
  match s.seq i, b.server.seq i with
  | some seq, some seq' =>
    ((s.cache.slot seq.cache).inputs ++ seq.inputs).length -
      ((b.server.cache.slot seq'.cache).inputs ++ seq'.pendingInputs ++ seq'.inputs).length
  | _, _ => 0

/-- The line of sequence `i` once the batch `b` is built: a shift discards what follows the first
`numKeep` inputs. -/
def Building.line (s : Server K) (b : Building K) (i : Nat) (l : Lineage) : List (Input × Nat) :=
  match s.seq i with
  | some seq => keepAround l.line seq.numKeep (b.discarded s i)
  | none => l.line

def Lineages.completion (h : Lineages) (s : Server K) (i : Nat) : Lineages := fun j =>
  if j = i then
    match s.seq i with
    | some seq => { line := ((s.cache.slot seq.cache).inputs ++ seq.inputs).map fun inp => (inp, 0) }
    | none => h j
  else h j

def Lineages.processBatch (h : Lineages) (env : Env) (s : Server K) (p : Processed K) : Lineages :=
  fun i =>
    let sampled := sampledFor i p.sampled
    { line := p.building.line s i (h i) ++ sampled.zipIdx ((h i).pieces.length + 1)
      pieces := (h i).pieces ++ sampled.filterMap fun inp => env.decode inp.token }

/-- One step of a run, with the lineages in place of the progress. -/
def Event.follow (ops : KvOps K) (r : Server K × Lineages) : Event → Option (Server K × Lineages)
  | acquire => r.1.acquire.map fun s => (s, r.2)
  | completion seq =>
    if r.1.active < r.1.acquired then
      match r.1.completion ops seq with
      | (s, some i) => some (s, r.2.completion s i)
      | (s, none) => some (s, r.2)
    else none
  | processBatch env =>
    if r.1.active = 0 then none
    else (r.1.processBatch ops env).map fun p => (p.server, r.2.processBatch env r.1 p)

/-- A run with the lineages of the sequences. -/
def runLines (ops : KvOps K) (cache : K) (kvSize parallel batchSize : Nat) (multiUserCache : Bool)
    (events : List Event) : Option (Server K × Lineages) :=
  match newInputCache cache kvSize parallel multiUserCache with
  | none => none
  | some c => events.foldlM (Event.follow ops) (newServer c parallel batchSize, fun _ => {})

/-- A step is the same with the lineages and with the progress. -/
theorem Event.follow_step {ops : KvOps K} {s s' : Server K} {h h' : Lineages} {e : Event}
    (hstep : e.follow ops (s, h) = some (s', h')) (g : History) :
    ∃ g', e.step ops (s, g) = some (s', g') := by
  cases e with
  | acquire =>
    obtain ⟨t, ht, heq⟩ := Option.map_eq_some_iff.mp hstep
    obtain ⟨rfl, -⟩ := Prod.mk.inj heq
    exact ⟨g, Option.map_eq_some_iff.mpr ⟨t, ht, rfl⟩⟩
  | completion seq =>
    rw [follow] at hstep
    rw [step]
    dsimp only at hstep ⊢
    by_cases hactive : s.active < s.acquired
    · rw [if_pos hactive] at hstep ⊢
      generalize s.completion ops seq = completed at hstep ⊢
      obtain ⟨t, _ | i⟩ := completed
      · obtain ⟨rfl, -⟩ := Prod.mk.inj (Option.some.inj hstep)
        exact ⟨_, rfl⟩
      · obtain ⟨rfl, -⟩ := Prod.mk.inj (Option.some.inj hstep)
        exact ⟨_, rfl⟩
    · rw [if_neg hactive] at hstep
      cases hstep
  | processBatch env =>
    rw [follow] at hstep
    rw [step]
    dsimp only at hstep ⊢
    by_cases hactive : s.active = 0
    · rw [if_pos hactive] at hstep
      cases hstep
    · rw [if_neg hactive] at hstep ⊢
      obtain ⟨p, hp, heq⟩ := Option.map_eq_some_iff.mp hstep
      obtain ⟨rfl, -⟩ := Prod.mk.inj heq
      exact ⟨_, Option.map_eq_some_iff.mpr ⟨p, hp, rfl⟩⟩

/-! ### The line and the slot -/

/-- The lineage of a sequence agrees with the inputs it has, and with the pieces held back. -/
structure Lineage.Tracks (l : Lineage) (inputs : List Input) (pending : List Text) : Prop where
  inputs : l.line.map Prod.fst = inputs
  ascending : Ascending l.line
  bound : ∀ e ∈ l.line, e.2 ≤ l.pieces.length
  held : pending <:+ l.pieces

/-- Every sequence has a lineage that agrees with its slot and its queue. -/
def Server.Lined (s : Server K) (h : Lineages) : Prop := ∀ i seq, s.seq i = some seq →
  (h i).Tracks ((s.cache.slot seq.cache).inputs ++ seq.inputs) seq.pendingResponses

/-- Of the inputs of a sequence, a batch discards some that follow the first `numKeep`. -/
structure Rebuilt (s : Server K) (b : Building K) (i : Nat) (seq seq' : Sequence) : Prop where
  cache : seq'.cache = seq.cache
  stream : seq'.toStream = seq.toStream
  inputs : ∃ d, (b.server.cache.slot seq.cache).inputs ++ seq'.pendingInputs ++ seq'.inputs =
    keepAround ((s.cache.slot seq.cache).inputs ++ seq.inputs) seq.numKeep d

theorem Turn.rebuilt {ops : KvOps K} {env : Env} {s : Server K} {i : Nat} {b b' : Building K}
    {seq seq' : Sequence} (turn : Turn ops env i b b' seq seq') (ready : s.Ready)
    (assigned : b.server.Assigned) (hs : s.seq i = some seq)
    (hnum : b.server.cache.numCtx = s.cache.numCtx)
    (hslot : b.server.cache.slot seq.cache = s.cache.slot seq.cache) :
    Rebuilt s b' i seq seq'.taken := by
  have before := turn.before
  obtain ⟨b₁, hadd, rfl⟩ := turn.building
  have hlt := (assigned.slot i seq before).1
  have hkeep : seq.numKeep < b.server.cache.numCtx := by
    rw [hnum]
    exact ready.numKeep i seq hs
  have fits : Fits b.server.cache.numCtx (b.server.cache.slot seq.cache).inputs seq.inputs := by
    rw [hnum, hslot]
    exact ready.fits i seq hs
  have added := Building.added_addInputs hadd
  obtain ⟨retained, taken⟩ := Building.taken hadd hlt (ready.idle i seq hs) hkeep fits
  obtain ⟨tail, htail⟩ := taken.front
  have hsplit : seq'.pendingInputs ++ seq'.inputs.drop seq'.pendingInputs.length = seq'.inputs := by
    rw [← htail, List.drop_left]
  obtain ⟨d, hd⟩ := Building.addInputs_around hadd hlt
  refine ⟨?_, ?_, d, ?_⟩
  · rw [added.rest]
    rfl
  · rw [added.rest]
    rfl
  · change (b₁.server.cache.slot seq.cache).inputs ++ seq'.pendingInputs ++
      seq'.inputs.drop seq'.pendingInputs.length = _
    rw [List.append_assoc, hsplit, hd, hslot]

theorem Rebuilt.other {s : Server K} {b b' : Building K} {i j : Nat} {seq seq' : Sequence}
    (h : Rebuilt s b j seq seq') (visited : Visited i b b') (hji : j ≠ i)
    (hs : b.server.seq j = some seq') : Rebuilt s b' j seq seq' := by
  have hslot := visited.slot j seq' hji hs
  rw [h.cache] at hslot
  refine ⟨h.cache, h.stream, ?_⟩
  rw [hslot]
  exact h.inputs

theorem Server.Ready.rebuilt {ops : KvOps K} {env : Env} {s : Server K} {b : Building K}
    (ready : s.Ready) (h : s.buildBatch ops env = some b) {i : Nat} {seq seq' : Sequence}
    (hs : s.seq i = some seq) (hs' : b.server.seq i = some seq') : Rebuilt s b i seq seq' := by
  obtain ⟨nextSeq, b₁, rfl, built, hI⟩ := Server.buildBatch_invariant
    (I := fun done b => ∀ i ∈ done, ∀ seq seq', s.seq i = some seq → b.server.seq i = some seq' →
      Rebuilt s b i seq seq') ready.assigned ready.idle (by simp) (by
      rintro done i b b' built hi hI hvisit j hj seq seq' hs hs'
      obtain ⟨hseq, hslot⟩ := built.fresh i hi
      have mem (hji : j ≠ i) : j ∈ done := by
        rcases List.mem_append.mp hj with hj | hj
        · exact hj
        · exact absurd (List.mem_singleton.mp hj) hji
      have earlier (visited : Visited i b b') (hji : j ≠ i) : Rebuilt s b' j seq seq' := by
        rw [visited.seq j hji] at hs'
        exact (hI j (mem hji) seq seq' hs hs').other visited hji hs'
      rcases Building.visit_some hvisit with ⟨hnone, rfl⟩ | ⟨seq₀, hs₀, rfl⟩ | ⟨seq₀, seq₁, turn⟩
      · by_cases hji : j = i
        · subst hji
          rw [hnone] at hs'
          cases hs'
        · exact hI j (mem hji) seq seq' hs hs'
      · by_cases hji : j = i
        · subst hji
          rw [Server.removeSequence_seq hs₀, if_pos rfl] at hs'
          cases hs'
        · exact earlier (Building.removed_visited env built.assigned hs₀) hji
      · have before := turn.before
        rw [hseq] at before
        by_cases hji : j = i
        · subst hji
          rw [before] at hs
          obtain rfl := Option.some.inj hs
          rw [turn.after] at hs'
          obtain rfl := Option.some.inj hs'
          exact turn.rebuilt ready built.assigned before built.numCtx (hslot _ before)
        · exact earlier (turn.visited built.assigned (ready.idle i seq₀ before)) hji) h
  have := hI i (Server.mem_order.mpr (Server.lt_of_seq hs)) seq seq' hs hs'
  exact ⟨this.cache, this.stream, this.inputs⟩

/-- The line of a sequence in a batch holds what is in its slot, in the batch and in its queue. -/
theorem Lineage.Tracks.rebuilt {s : Server K} {b : Building K} {i : Nat} {seq seq' : Sequence}
    {l : Lineage} {pending : List Text}
    (h : l.Tracks ((s.cache.slot seq.cache).inputs ++ seq.inputs) pending)
    (rebuilt : Rebuilt s b i seq seq') (hs : s.seq i = some seq) (hs' : b.server.seq i = some seq') :
    (b.line s i l).map Prod.fst =
        (b.server.cache.slot seq'.cache).inputs ++ seq'.pendingInputs ++ seq'.inputs ∧
      (b.line s i l).Sublist l.line := by
  have hline : b.line s i l = keepAround l.line seq.numKeep
      (((s.cache.slot seq.cache).inputs ++ seq.inputs).length -
        ((b.server.cache.slot seq'.cache).inputs ++ seq'.pendingInputs ++ seq'.inputs).length) := by
    rw [Building.line, hs]
    dsimp only
    rw [Building.discarded, hs, hs']
  rw [hline]
  refine ⟨?_, keepAround_sublist ..⟩
  obtain ⟨d, hd⟩ := rebuilt.inputs
  rw [keepAround_map, h.inputs, rebuilt.cache, hd, keepAround_length]

/-! ### The pieces -/

/-- A piece that is taken is held back with those before it, or everything is sent. -/
theorem Stream.addPiece_pending {s s' : Stream} {piece : Text} {quit : Bool}
    (h : s.addPiece piece quit = .more s') :
    s'.pendingResponses = s.pendingResponses ++ [piece] ∨ s'.pendingResponses = [] := by
  unfold addPiece at h
  dsimp only at h
  split at h
  · cases h
  · split at h
    · obtain rfl := PieceResult.more.inj h
      exact .inl rfl
    · split at h
      · obtain rfl := PieceResult.more.inj h
        exact .inl rfl
      · split at h
        · rename_i t hflush
          obtain rfl := PieceResult.more.inj h
          have := Stream.flushPending_pending
            { s with pendingResponses := s.pendingResponses ++ [piece] } quit
          rw [hflush] at this
          exact .inr this
        · cases h

/-- What becomes of the pieces of a sequence that goes on, of which `sampled` was sampled. -/
inductive Speaks (env : Env) (i : Nat) (stream stream' : Stream) (sampled : List Input) : Prop
  | silent : sampled = [] → stream' = stream → Speaks env i stream stream' sampled
  | said (token : Int) (piece : Text) : sampled = [{ token := token }] →
      env.decode token = some piece → stream.addPiece piece (env.quit i) = .more stream' →
      Speaks env i stream stream' sampled

theorem Finishing.visit_speaks {env : Env} {outputs : List Nat} {f f' : Finishing K} {i : Nat}
    {seq seq' : Sequence} (h : f.visit env outputs i = some f') (hs : f.server.seq i = some seq)
    (hs' : f'.server.seq i = some seq') :
    ∃ sampled, f'.sampled = f.sampled ++ sampled.map (fun inp => (i, inp)) ∧
      Speaks env i seq.toStream seq'.toStream sampled := by
  have hi := Server.lt_of_seq hs
  -- a sequence that was removed does not go on
  have gone {s : Server K} (hlen : s.seqs.length = f.server.seqs.length) (x : Sequence)
      (cache : InputCache K) (reason : DoneReason) : Server.seq (Server.removeSequence
        { s.setSeq i (some x) with cache } env i reason) i ≠ some seq' := by
    have here : Server.seq { s.setSeq i (some x) with cache } i = some x :=
      Server.seq_setSeq_self (by rw [hlen]; exact hi) _
    rw [Server.removeSequence_seq here, if_pos rfl]
    exact Option.some_ne_none _ |>.symm
  have fed : (f.server.fed i seq).seqs.length = f.server.seqs.length := Server.setSeq_length ..
  rw [visit, hs] at h
  dsimp only at h
  split at h
  · obtain rfl := Option.some.inj h
    rw [Server.seq_setSeq_self (by exact hi)] at hs'
    obtain rfl := Option.some.inj hs'
    exact ⟨[], (List.append_nil _).symm, .silent rfl rfl⟩
  · split at h
    · obtain rfl := Option.some.inj h
      exact absurd hs' (gone fed _ _ _)
    · rw [sample] at h
      dsimp only at h
      split at h
      · split at h
        · cases h
        · split at h
          · obtain rfl := Option.some.inj h
            exact absurd hs' (gone fed _ _ _)
          · split at h
            · cases h
            · rename_i token _ _ _ piece hdecode
              split at h
              · rename_i stream hpiece
                obtain rfl := Option.some.inj h
                rw [Server.seq_setSeq_self (by simp only [Server.setSeq_length]; exact hi)] at hs'
                obtain rfl := Option.some.inj hs'
                exact ⟨[{ token := token }], rfl, .said token piece rfl hdecode hpiece⟩
              · obtain rfl := Option.some.inj h
                exact absurd hs' (gone (by simp only [Server.setSeq_length]) _ _ _)
              · split at h
                · cases h
                · obtain rfl := Option.some.inj h
                  exact absurd hs' (gone (by simp only [Server.setSeq_length]) _ _ _)
      · cases h

theorem sampledFor_pairs (i : Nat) (sampled : List Input) :
    sampledFor i (sampled.map fun inp => (i, inp)) = sampled := by
  have all : (sampled.map fun inp => (i, inp)).filter (fun e => decide (e.1 = i)) =
      sampled.map fun inp => (i, inp) := by
    refine List.filter_eq_self.mpr fun e he => ?_
    obtain ⟨inp, -, rfl⟩ := List.mem_map.mp he
    exact decide_eq_true rfl
  rw [sampledFor, all, List.map_map]
  exact List.map_id _

/-- What the loop after `Forward` does with the pieces of the sequences that go on. -/
theorem Server.visits_speak {env : Env} {outputs l : List Nat} {s : Server K} {f : Finishing K}
    (assigned : s.Assigned) (nodup : l.Nodup)
    (h : l.foldlM (Finishing.visit env outputs) { server := s } = some f) :
    ∀ i ∈ l, ∀ seq', f.server.seq i = some seq' → ∃ seq, s.seq i = some seq ∧
      Speaks env i seq.toStream seq'.toStream (sampledFor i f.sampled) := by
  refine (Server.visits_invariant assigned nodup (I := fun done f => ∀ i ∈ done, ∀ seq',
    f.server.seq i = some seq' → ∃ seq, s.seq i = some seq ∧
      Speaks env i seq.toStream seq'.toStream (sampledFor i f.sampled)) (by simp) ?_ h).2
  intro done i f f' finished hi hI hvisit j hj seq' hs'
  have mem (hji : j ≠ i) : j ∈ done := by
    rcases List.mem_append.mp hj with hj | hj
    · exact hj
    · exact absurd (List.mem_singleton.mp hj) hji
  obtain ⟨hseq, hnone, -⟩ := finished.fresh i hi
  cases hs : f.server.seq i with
  | none =>
    rw [Finishing.visit_none hvisit hs] at hs' ⊢
    by_cases hji : j = i
    · subst hji
      rw [hs] at hs'
      cases hs'
    · exact hI j (mem hji) seq' hs'
  | some seq =>
    by_cases hji : j = i
    · subst hji
      obtain ⟨sampled, hsampled, speaks⟩ := Finishing.visit_speaks hvisit hs hs'
      refine ⟨seq, by rw [← hseq, hs], ?_⟩
      rw [hsampled, sampledFor_append, hnone, List.nil_append, sampledFor_pairs]
      exact speaks
    · have turned := (Finishing.visit_some hvisit hs finished.assigned).turned hs finished.assigned
      rw [turned.other j hji] at hs'
      rw [turned.sampledFor_other hji]
      exact hI j (mem hji) seq' hs'

/-! ### A batch -/

/-- The lineage of a sequence that goes on agrees with it again. -/
theorem Lineage.Tracks.spoken {env : Env} {i : Nat} {l : Lineage} {stream stream' : Stream}
    {line : List (Input × Nat)} {inputs : List Input} {sampled : List Input}
    (h : l.Tracks inputs stream.pendingResponses) {inputs' : List Input}
    (hinputs : line.map Prod.fst = inputs') (hline : line.Sublist l.line)
    (speaks : Speaks env i stream stream' sampled) :
    Lineage.Tracks { line := line ++ sampled.zipIdx (l.pieces.length + 1)
                     pieces := l.pieces ++ sampled.filterMap fun inp => env.decode inp.token }
      (inputs' ++ sampled) stream'.pendingResponses := by
  have ascending := h.ascending.sublist hline
  have bound : ∀ e ∈ line, e.2 ≤ l.pieces.length := fun e he => h.bound e (hline.subset he)
  cases speaks with
  | silent hnil hstream =>
    subst hnil hstream
    refine ⟨?_, ?_, ?_, ?_⟩
    · simpa using hinputs
    · simpa using ascending
    · simpa using bound
    · simpa using h.held
  | said token piece hone hdecode hpiece =>
    subst hone
    have hpieces : [({ token := token } : Input)].filterMap (fun inp => env.decode inp.token) =
        [piece] := by
      simp [hdecode]
    refine ⟨?_, ascending.snoc bound _, ?_, ?_⟩
    · rw [List.map_append, hinputs]
      rfl
    all_goals dsimp only; rw [hpieces]
    · rw [List.length_append, List.length_singleton]
      intro e he
      rcases List.mem_append.mp he with he | he
      · exact Nat.le_succ_of_le (bound e he)
      · rw [List.mem_singleton.mp he]
    · rcases Stream.addPiece_pending hpiece with heq | heq
      · rw [heq]
        obtain ⟨front, hfront⟩ := h.held
        exact ⟨front, by rw [← List.append_assoc, hfront]⟩
      · rw [heq]
        exact List.nil_suffix

theorem Server.Ready.speaks {ops : KvOps K} {env : Env} {s : Server K} {p : Processed K}
    (ready : s.Ready) (hp : Processes ops env s p) {i : Nat} {seq' : Sequence}
    (hs' : p.server.seq i = some seq') : ∃ seq, p.building.server.seq i = some seq ∧
      Speaks env i seq.toStream seq'.toStream (sampledFor i p.sampled) := by
  cases hp with
  | empty hbuild hempty hserver hsampled =>
    rw [hserver] at hs'
    rw [hsampled]
    exact ⟨seq', hs', .silent rfl rfl⟩
  | forward cache t f hbuild hne hforward ht hfold hserver hsampled =>
    have assigned : t.Assigned := by
      rw [ht]
      exact (ready.submits hbuild).2.assigned.congr (Server.sameUse_cache _ cache)
    rw [hserver] at hs'
    have hi : i ∈ List.range t.seqs.length := by
      rw [List.mem_range, ← (Server.finished_visits assigned List.nodup_range hfold).1.length]
      exact Server.lt_of_seq hs'
    obtain ⟨seq, hs, speaks⟩ := Server.visits_speak assigned List.nodup_range hfold i hi seq' hs'
    rw [ht] at hs
    rw [hsampled]
    exact ⟨seq, hs, speaks⟩

theorem Server.Lined.processBatch {ops : KvOps K} {env : Env} {s : Server K} {h : Lineages}
    {p : Processed K} (lined : s.Lined h) (ready : s.Ready) (hp : Processes ops env s p) :
    p.server.Lined (h.processBatch env s p) := by
  intro i seq' hs'
  obtain ⟨seq, hs⟩ := (ready.renewed hp).old i seq' hs'
  obtain ⟨seq₁, hs₁, speaks⟩ := ready.speaks hp hs'
  obtain ⟨submitted, rest, advanced⟩ := ready.advanced hp hs
  obtain ⟨hcache, -, -, -, hinputs, hslot, -⟩ := advanced.goesOn seq' hs'
  obtain ⟨hcache₁, -, hrest, hsubmitted⟩ := (advanced.submission.of_seq hs₁).seq hs₁
  have rebuilt := ready.rebuilt hp.building hs hs₁
  have tracks := lined i seq hs
  obtain ⟨hline, hsub⟩ := tracks.rebuilt rebuilt hs hs₁
  rw [← rebuilt.stream] at tracks
  have spoken := tracks.spoken hline hsub speaks
  rw [hcache₁, hrest, hsubmitted, List.append_assoc] at spoken
  rw [hcache, hslot, hinputs]
  exact spoken

theorem Server.Lined.completed {ops : KvOps K} {s s' : Server K} {h : Lineages} {seq : Sequence}
    {i : Option Nat} (lined : s.Lined h) (assigned : s.Assigned) (hempty : seq.pendingResponses = [])
    (hc : Completed ops s seq s' i) :
    s'.Lined (match i with | some i => h.completion s' i | none => h) := by
  have other {cache : InputCache K} {k : Nat} (occupied : Occupied s.cache cache k) {j : Nat}
      {seq' : Sequence} (hs' : s.seq j = some seq') :
      (h j).Tracks ((cache.slot seq'.cache).inputs ++ seq'.inputs) seq'.pendingResponses := by
    have hne : seq'.cache ≠ k := by
      rintro rfl
      have := (assigned.slot j seq' hs').2
      rw [occupied.free] at this
      cases this
    rw [occupied.other _ hne]
    exact lined j seq' hs'
  cases hc with
  | full => exact lined
  | failed cache hload =>
    rcases InputCache.loadCacheSlot_none hload with ⟨rfl, -⟩ | ⟨k, occupied, -⟩
    · exact lined
    · exact fun j seq' hs' => other occupied hs'
  | loaded i k cache rest hi hnone loaded =>
    have here : Server.seq (Server.setSeq { s with cache } i
        (some { seq with cache := k, inputs := rest })) i =
          some { seq with cache := k, inputs := rest } := Server.seq_setSeq_self hi _
    intro j seq' hs'
    dsimp only
    by_cases hj : j = i
    · subst hj
      rw [Lineages.completion, if_pos rfl, hs']
      rw [here] at hs'
      obtain rfl := Option.some.inj hs'
      refine ⟨?_, ascending_zero _, ?_, ?_⟩
      · rw [List.map_map]
        exact List.map_id _
      · intro e he
        obtain ⟨inp, -, rfl⟩ := List.mem_map.mp he
        exact Nat.zero_le _
      · dsimp only
        rw [hempty]
    · rw [Lineages.completion, if_neg hj]
      rw [Server.seq_setSeq_of_ne _ hj] at hs'
      exact other loaded.occupied hs'

/-! ### Runs -/

theorem Event.follow_lined {ops : KvOps K} {r r' : Server K × Lineages} {e : Event}
    (h : e.follow ops r = some r') (ready : r.1.Ready) (lined : r.1.Lined r.2)
    (he : ∀ seq, e = .completion seq → seq.inputs ≠ [] ∧ seq.pendingResponses = []) :
    r'.1.Lined r'.2 := by
  cases e with
  | acquire =>
    obtain ⟨s', hs', rfl⟩ := Option.map_eq_some_iff.mp h
    unfold Server.acquire at hs'
    split at hs'
    · obtain rfl := Option.some.inj hs'
      exact lined
    · cases hs'
  | completion seq =>
    obtain ⟨hne, hempty⟩ := he seq rfl
    rw [follow] at h
    split at h
    · split at h
      · rename_i s' i hcompletion
        obtain rfl := Option.some.inj h
        exact lined.completed ready.assigned hempty (Server.completion_completed hne hcompletion)
      · rename_i s' hcompletion
        obtain rfl := Option.some.inj h
        exact lined.completed ready.assigned hempty (Server.completion_completed hne hcompletion)
    · cases h
  | processBatch env =>
    rw [follow] at h
    split at h
    · cases h
    · obtain ⟨p, hp, rfl⟩ := Option.map_eq_some_iff.mp h
      exact lined.processBatch ready (Server.processBatch_some hp)

/-- In every run, every sequence has a lineage that agrees with its slot and its queue. -/
theorem runLines_lined {ops : KvOps K} {cache : K} {kvSize parallel batchSize : Nat}
    {multiUserCache : Bool} {events : List Event} {s : Server K} {h : Lineages}
    (hrun : runLines ops cache kvSize parallel batchSize multiUserCache events = some (s, h))
    (admissible : ∀ seq, .completion seq ∈ events → Admissible (kvSize / parallel) seq)
    (empty : ∀ seq, .completion seq ∈ events → seq.pendingResponses = []) :
    s.Ready ∧ s.Lined h := by
  unfold runLines at hrun
  split at hrun
  · cases hrun
  · rename_i c hc
    obtain ⟨ready, accounted, hnum⟩ := Server.new_keeps hc batchSize
    have kept : ∃ g, (s.Ready ∧ Accounted s g ∧ s.cache.numCtx = kvSize / parallel) ∧ s.Lined h := by
      refine foldlM_invariant (I := fun r : Server K × Lineages => ∃ g, (r.1.Ready ∧
        Accounted r.1 g ∧ r.1.cache.numCtx = kvSize / parallel) ∧ r.1.Lined r.2) ?_ hrun
        ⟨_, ⟨ready, accounted, hnum⟩, ?_⟩
      · rintro ⟨t, l⟩ ⟨t', l'⟩ e hmem ⟨g, ⟨ready, accounted, hnum⟩, lined⟩ hstep
        obtain ⟨g', hg'⟩ := Event.follow_step hstep g
        have keeps := Event.step_keeps hg' (by
          rintro seq rfl
          rw [hnum]
          exact admissible seq hmem) ready accounted
        rw [hnum] at keeps
        refine ⟨g', keeps, Event.follow_lined hstep ready lined ?_⟩
        rintro seq rfl
        exact ⟨(admissible seq hmem).nonempty, empty seq hmem⟩
      · intro i seq hs
        rw [Server.seq, newServer, List.getElem?_replicate] at hs
        split at hs <;> cases hs
    obtain ⟨g, ⟨ready, -⟩, lined⟩ := kept
    exact ⟨ready, lined⟩

end Ecco9.Runner
