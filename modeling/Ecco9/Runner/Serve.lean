import Ecco9.Runner.Finish
import Ecco9.Runner.Load

/-! Runs of the server: requests that come in and batches that are processed, in any order. -/

universe u

namespace Ecco9.Runner

open Ecco9.Library

/-! ### Requests -/

theorem Server.setSeq_active {s : Server K} {i : Nat} (hi : i < s.seqs.length) (h : s.seq i = none)
    (seq : Sequence) : (s.setSeq i (some seq)).active = s.active + 1 := by
  have mem : i ∉ (Finset.range s.seqs.length).filter fun i => (s.seq i).isSome := by
    rw [Finset.mem_filter, h]
    simp
  rw [active_eq, active_eq, setSeq_length, ← Finset.card_insert_of_notMem mem]
  congr 1
  ext j
  rw [Finset.mem_insert, Finset.mem_filter, Finset.mem_filter, seq_setSeq]
  by_cases hj : j = i
  · subst hj
    simp [hi]
  · simp [hj]

theorem Server.Assigned.occupied {s : Server K} {c : InputCache K} {k : Nat}
    (assigned : s.Assigned) (occupied : Occupied s.cache c k) :
    Server.Assigned { s with cache := c } where
  length := occupied.length.trans assigned.length
  id := by
    intro j hj
    rw [occupied.length] at hj
    by_cases hjk : j = k
    · subst hjk
      exact occupied.id.trans (assigned.id j hj)
    · exact (congrArg (·.id) (occupied.other j hjk)).trans (assigned.id j hj)
  slot := by
    intro i seq hs
    obtain ⟨hlt, huse⟩ := assigned.slot i seq hs
    refine ⟨occupied.length ▸ hlt, ?_⟩
    by_cases hik : seq.cache = k
    · rw [hik]
      exact occupied.inUse
    · exact (congrArg (·.inUse) (occupied.other _ hik)).trans huse
  own := assigned.own
  clock := by
    intro j hj
    rw [occupied.length] at hj
    change (c.slot j).lastUsed < c.now
    rw [occupied.now]
    by_cases hjk : j = k
    · rw [hjk, occupied.lastUsed]
      omega
    · rw [occupied.other j hjk]
      have := assigned.clock j hj
      omega
  active_le := assigned.active_le
  acquired_le := assigned.acquired_le

/-- A sequence gets a slot that has come into use for it. -/
theorem Server.Assigned.setSeq {s : Server K} {i : Nat} {seq : Sequence} (assigned : s.Assigned)
    (hi : i < s.seqs.length) (hnone : s.seq i = none) (hlt : seq.cache < s.cache.slots.length)
    (huse : (s.cache.slot seq.cache).inUse = true)
    (own : ∀ j seq', s.seq j = some seq' → seq'.cache ≠ seq.cache)
    (hactive : s.active < s.acquired) : (s.setSeq i (some seq)).Assigned := by
  have cases_of {j : Nat} {seq' : Sequence} (h : (s.setSeq i (some seq)).seq j = some seq') :
      j = i ∧ seq' = seq ∨ s.seq j = some seq' := by
    by_cases hj : j = i
    · subst hj
      rw [seq_setSeq_self hi] at h
      exact .inl ⟨rfl, (Option.some.inj h).symm⟩
    · rw [seq_setSeq_of_ne _ hj] at h
      exact .inr h
  refine ⟨?_, assigned.id, ?_, ?_, assigned.clock, ?_, ?_⟩
  · rw [setSeq_length]
    exact assigned.length
  · intro j seq' h
    rcases cases_of h with ⟨-, rfl⟩ | h
    · exact ⟨hlt, huse⟩
    · exact assigned.slot j seq' h
  · intro j j' seq₁ seq₂ h₁ h₂ heq
    rcases cases_of h₁ with ⟨rfl, rfl⟩ | g₁
    · rcases cases_of h₂ with ⟨rfl, rfl⟩ | g₂
      · rfl
      · exact absurd heq.symm (own j' seq₂ g₂)
    · rcases cases_of h₂ with ⟨rfl, rfl⟩ | g₂
      · exact absurd heq (own j seq₁ g₁)
      · exact assigned.own j j' seq₁ seq₂ g₁ g₂ heq
  · rw [setSeq_active hi hnone]
    exact hactive
  · rw [setSeq_length]
    exact assigned.acquired_le

theorem Server.Assigned.withAcquired {s : Server K} {n : Nat} (assigned : s.Assigned)
    (h1 : s.active ≤ n) (h2 : n ≤ s.seqs.length) : Server.Assigned { s with acquired := n } :=
  { assigned with active_le := h1, acquired_le := h2 }

/-- The requests that get as far as a slot: all groups of the prompt are complete, and it is within
the context. -/
def Complete : List Input → Prop
  | [] => True
  | inp :: inputs => inp.sameBatch ≤ inputs.length ∧ Complete inputs

instance : (inputs : List Input) → Decidable (Complete inputs)
  | [] => .isTrue trivial
  | inp :: inputs =>
    have := instDecidableComplete inputs
    inferInstanceAs (Decidable (inp.sameBatch ≤ inputs.length ∧ Complete inputs))

theorem Complete.fitsAt {numCtx : Nat} {inputs : List Input} (h : Complete inputs)
    (hlen : inputs.length ≤ numCtx) : FitsAt numCtx inputs := by
  induction inputs generalizing numCtx with
  | nil => simp [FitsAt]
  | cons inp inputs ih =>
    rw [List.length_cons] at hlen
    intro p x hp
    cases p with
    | zero =>
      obtain rfl : inp = x := by simpa using hp
      have := h.1
      omega
    | succ p =>
      have hle : inputs.length ≤ numCtx - 1 := by omega
      have := ih h.2 hle p x (by simpa using hp)
      omega

/-- A sequence as `NewSequence` makes it for a context of `numCtx`. -/
structure Admissible (numCtx : Nat) (seq : Sequence) : Prop where
  pending : seq.pendingInputs = []
  nonempty : seq.inputs ≠ []
  length_le : seq.inputs.length ≤ numCtx
  numKeep : seq.numKeep < numCtx
  complete : Complete seq.inputs

instance (numCtx : Nat) (seq : Sequence) : Decidable (Admissible numCtx seq) :=
  decidable_of_iff (seq.pendingInputs = [] ∧ seq.inputs ≠ [] ∧ seq.inputs.length ≤ numCtx ∧
      seq.numKeep < numCtx ∧ Complete seq.inputs)
    ⟨fun ⟨h1, h2, h3, h4, h5⟩ => ⟨h1, h2, h3, h4, h5⟩, fun ⟨h1, h2, h3, h4, h5⟩ =>
      ⟨h1, h2, h3, h4, h5⟩⟩

theorem Server.seq_of_findIdx? {s : Server K} {i : Nat}
    (h : s.seqs.findIdx? Option.isNone = some i) : i < s.seqs.length ∧ s.seq i = none := by
  obtain ⟨hlt, hnone, -⟩ := List.findIdx?_eq_some_iff_getElem.mp h
  refine ⟨hlt, ?_⟩
  rw [Server.seq, List.getElem?_eq_getElem hlt]
  exact Option.isNone_iff_eq_none.mp hnone

/-- What `completion` does: it fails, with the place given back, or loads the prompt into a slot. -/
inductive Completed (ops : KvOps K) (s : Server K) (seq : Sequence) : Server K → Option Nat → Prop
  | full : s.seqs.findIdx? Option.isNone = none →
      Completed ops s seq { s with acquired := s.acquired - 1 } none
  | failed (cache : InputCache K) : s.cache.loadCacheSlot ops seq.inputs = (cache, none) →
      Completed ops s seq { s with cache, acquired := s.acquired - 1 } none
  | loaded (i k : Nat) (cache : InputCache K) (rest : List Input) : i < s.seqs.length →
      s.seq i = none → Loaded ops s.cache cache seq.inputs k rest →
      Completed ops s seq (Server.setSeq { s with cache } i
        (some { seq with cache := k, inputs := rest })) (some i)

theorem Server.completion_completed {ops : KvOps K} {s s' : Server K} {seq : Sequence}
    {i : Option Nat} (hne : seq.inputs ≠ []) (h : s.completion ops seq = (s', i)) :
    Completed ops s seq s' i := by
  unfold completion at h
  split at h
  · rename_i hfull
    obtain ⟨rfl, rfl⟩ := Prod.mk.inj h
    exact .full hfull
  · rename_i i hfind
    obtain ⟨hlt, hnone⟩ := seq_of_findIdx? hfind
    split at h
    · rename_i cache hload
      obtain ⟨rfl, rfl⟩ := Prod.mk.inj h
      exact .failed cache hload
    · rename_i cache k rest hload
      obtain ⟨rfl, rfl⟩ := Prod.mk.inj h
      exact .loaded i k cache rest hlt hnone (InputCache.loadCacheSlot_some hne hload)

theorem Completed.numCtx {ops : KvOps K} {s s' : Server K} {seq : Sequence} {i : Option Nat}
    (h : Completed ops s seq s' i) : s'.cache.numCtx = s.cache.numCtx := by
  cases h with
  | full => rfl
  | failed cache hload =>
    rcases InputCache.loadCacheSlot_none hload with ⟨rfl, -⟩ | ⟨k, occupied, -⟩
    · rfl
    · exact occupied.numCtx
  | loaded i k cache rest hi hnone loaded => exact loaded.occupied.numCtx

/-! ### Ready for the next batch -/

theorem Server.Ready.occupied {s : Server K} {c : InputCache K} {k : Nat} (ready : s.Ready)
    (occupied : Occupied s.cache c k) : Server.Ready { s with cache := c } := by
  refine ⟨ready.assigned.occupied occupied, ready.idle, ready.queued, ?_, ?_⟩
  · intro i seq hs
    change _ < c.numCtx
    rw [occupied.numCtx]
    exact ready.numKeep i seq hs
  · intro i seq hs
    have hne : seq.cache ≠ k := by
      rintro rfl
      have := (ready.assigned.slot i seq hs).2
      rw [occupied.free] at this
      cases this
    change Fits c.numCtx (c.slot seq.cache).inputs seq.inputs
    rw [occupied.numCtx, occupied.other _ hne]
    exact ready.fits i seq hs

theorem Server.Ready.withAcquired {s : Server K} {n : Nat} (ready : s.Ready)
    (h1 : s.active ≤ n) (h2 : n ≤ s.seqs.length) : Server.Ready { s with acquired := n } :=
  { ready with assigned := ready.assigned.withAcquired h1 h2 }

theorem Server.Ready.setSeq {s : Server K} {i : Nat} {seq : Sequence} (ready : s.Ready)
    (assigned : (s.setSeq i (some seq)).Assigned) (hpending : seq.pendingInputs = [])
    (hne : seq.inputs ≠ []) (hkeep : seq.numKeep < s.cache.numCtx)
    (fits : Fits s.cache.numCtx (s.cache.slot seq.cache).inputs seq.inputs) :
    (s.setSeq i (some seq)).Ready := by
  have cases_of {j : Nat} {seq' : Sequence} (h : (s.setSeq i (some seq)).seq j = some seq') :
      seq' = seq ∨ s.seq j = some seq' := by
    rw [seq_setSeq] at h
    split at h
    · exact .inl (Option.some.inj h).symm
    · exact .inr h
  refine ⟨assigned, ?_, ?_, ?_, ?_⟩
  all_goals
    intro j seq' h
    rcases cases_of h with rfl | h
  · exact hpending
  · exact ready.idle j seq' h
  · exact hne
  · exact ready.queued j seq' h
  · exact hkeep
  · exact ready.numKeep j seq' h
  · exact fits
  · exact ready.fits j seq' h

/-- The sequence whose prompt is loaded gets a slot of its own. -/
theorem Loaded.assigned {ops : KvOps K} {s : Server K} {cache : InputCache K}
    {prompt rest : List Input} {i k : Nat} (loaded : Loaded ops s.cache cache prompt k rest)
    (assigned : s.Assigned) (hi : i < s.seqs.length) (hnone : s.seq i = none)
    (hactive : s.active < s.acquired) (seq : Sequence) : Server.Assigned (Server.setSeq
      { s with cache } i (some { seq with cache := k, inputs := rest })) := by
  have occupied := loaded.occupied
  refine Server.Assigned.setSeq (assigned.occupied occupied) hi hnone
    (occupied.length ▸ occupied.lt) occupied.inUse ?_ hactive
  intro j seq' hs heq
  have := (assigned.slot j seq' hs).2
  rw [heq] at this
  dsimp only at this
  rw [occupied.free] at this
  cases this

theorem Server.Ready.completed {ops : KvOps K} {s s' : Server K} {seq : Sequence} {i : Option Nat}
    (ready : s.Ready) (admissible : Admissible s.cache.numCtx seq) (hactive : s.active < s.acquired)
    (h : Completed ops s seq s' i) : s'.Ready := by
  have hle := ready.assigned.acquired_le
  cases h with
  | full => exact ready.withAcquired (by omega) (by omega)
  | failed cache hload =>
    rcases InputCache.loadCacheSlot_none hload with ⟨rfl, -⟩ | ⟨k, occupied, -⟩
    · exact ready.withAcquired (by omega) (by omega)
    · have h1 : s.active ≤ s.acquired - 1 := by omega
      have h2 : s.acquired - 1 ≤ s.seqs.length := by omega
      exact (ready.occupied occupied).withAcquired h1 h2
  | loaded i k cache rest hi hnone loaded =>
    have occupied := loaded.occupied
    obtain ⟨n, hn, hinputs, hrest, -⟩ := loaded.resumed
    have here := ready.occupied occupied
    have assigned := loaded.assigned ready.assigned hi hnone hactive seq
    refine here.setSeq assigned admissible.pending ?_ ?_ ?_
    · rw [hrest]
      intro hnil
      have := congrArg List.length hnil
      rw [List.length_drop, List.length_nil] at this
      omega
    · change _ < cache.numCtx
      rw [occupied.numCtx]
      exact admissible.numKeep
    · change Fits cache.numCtx (cache.slot k).inputs rest
      rw [occupied.numCtx, hinputs, hrest]
      refine .inl ?_
      rw [List.take_append_drop]
      exact admissible.complete.fitsAt admissible.length_le

/-! ### A batch -/

/-- A batch is built, and when there is anything in it, it goes through `Forward` and the loop after
it. -/
inductive Processes (ops : KvOps K) (env : Env) (s : Server K) (p : Processed K) : Prop
  | empty : s.buildBatch ops env = some p.building → p.building.batch.entries = [] →
      p.server = p.building.server → p.sampled = [] → Processes ops env s p
  | forward (cache : K) (t : Server K) (f : Finishing K) :
      s.buildBatch ops env = some p.building → p.building.batch.entries ≠ [] →
      ops.forward p.building.server.cache.cache p.building.batch = (cache, true) →
      t = { p.building.server with cache := { p.building.server.cache with cache } } →
      (List.range t.seqs.length).foldlM (Finishing.visit env p.building.batch.outputs)
        { server := t } = some f →
      p.server = f.server → p.sampled = f.sampled → Processes ops env s p

theorem Server.processBatch_some {ops : KvOps K} {env : Env} {s : Server K} {p : Processed K}
    (h : s.processBatch ops env = some p) : Processes ops env s p := by
  unfold processBatch at h
  split at h
  · cases h
  · rename_i b hbuild
    split at h
    · rename_i hlen
      obtain rfl := Option.some.inj h
      exact .empty hbuild (List.length_eq_zero_iff.mp hlen) rfl rfl
    · rename_i hlen
      split at h
      · cases h
      · rename_i cache hforward
        dsimp only at h
        split at h
        · cases h
        · rename_i f hfold
          obtain rfl := Option.some.inj h
          have hne : b.batch.entries ≠ [] := fun hnil => hlen (List.length_eq_zero_iff.mpr hnil)
          exact .forward cache _ f hbuild hne hforward rfl hfold rfl rfl

theorem Processes.building {ops : KvOps K} {env : Env} {s : Server K} {p : Processed K}
    (h : Processes ops env s p) : s.buildBatch ops env = some p.building := by
  cases h with
  | empty h => exact h
  | forward _ _ _ h => exact h

/-- What a batch and the loop after it do to the sequence `seq` at `i`. -/
structure Advanced (s : Server K) (p : Processed K) (i : Nat) (seq : Sequence)
    (submitted rest : List Input) : Prop where
  submission : Submission p.building i seq submitted rest
  /-- where the sequence goes on, its queue is what was not submitted and what was sampled -/
  goesOn : ∀ seq', p.server.seq i = some seq' → seq'.cache = seq.cache ∧
    seq'.numKeep = seq.numKeep ∧ seq'.pendingInputs = [] ∧ seq'.inputs ≠ [] ∧
    seq'.inputs = rest ++ sampledFor i p.sampled ∧
    (p.server.cache.slot seq.cache).inputs =
      (p.building.server.cache.slot seq.cache).inputs ++ submitted ∧
    Fits p.server.cache.numCtx (p.server.cache.slot seq.cache).inputs seq'.inputs
  sampled : sampledFor i p.sampled ≠ [] → rest = []

theorem Fits.snoc {numCtx : Nat} {inputs : List Input} (h : Fits numCtx inputs []) (token : Int) :
    Fits numCtx inputs [{ token := token }] := by
  rcases h with h | ⟨-, inp, h, -⟩
  · rw [List.append_nil] at h
    exact .inr ⟨h, _, rfl, rfl⟩
  · cases h

theorem Kept.seq {b : Building K} {i : Nat} {seq seq' seq₁ : Sequence}
    {submitted rest : List Input} (kept : Kept b i seq seq' submitted rest)
    (h : b.server.seq i = some seq₁) : seq₁.cache = seq.cache ∧ seq₁.numKeep = seq.numKeep ∧
      seq₁.inputs = rest ∧ seq₁.pendingInputs = submitted := by
  rw [kept.here] at h
  obtain rfl := Option.some.inj h
  rw [kept.eq]
  exact ⟨rfl, rfl, rfl, rfl⟩

/-- The sequence is in the batch, if it still is there. -/
theorem Submission.of_seq {b : Building K} {i : Nat} {seq seq₁ : Sequence}
    {submitted rest : List Input} (hsub : Submission b i seq submitted rest)
    (h : b.server.seq i = some seq₁) : Kept b i seq seq₁ submitted rest := by
  rcases hsub.kept with ⟨seq', kept⟩ | ⟨hnone, -⟩
  · have := kept.here
    rw [h] at this
    obtain rfl := Option.some.inj this
    exact kept
  · rw [h] at hnone
    cases hnone

theorem mem_of_sampledFor {i : Nat} {sampled : List (Nat × Input)} (h : sampledFor i sampled ≠ []) :
    ∃ e ∈ sampled, e.1 = i := by
  obtain ⟨inp, hinp⟩ := List.exists_mem_of_ne_nil _ h
  obtain ⟨e, he, -⟩ := List.mem_map.mp hinp
  obtain ⟨hmem, heq⟩ := List.mem_filter.mp he
  exact ⟨e, hmem, of_decide_eq_true heq⟩

theorem Server.Ready.advanced {ops : KvOps K} {env : Env} {s : Server K} {p : Processed K}
    (ready : s.Ready) (h : Processes ops env s p) {i : Nat} {seq : Sequence}
    (hs : s.seq i = some seq) : ∃ submitted rest, Advanced s p i seq submitted rest := by
  obtain ⟨submits, built⟩ := ready.submits h.building
  obtain ⟨submitted, rest, hsub⟩ := submits.submission i seq hs
  cases h with
  | empty hbuild hempty hserver hsampled =>
    refine ⟨submitted, rest, hsub, ?_, fun h => absurd (by rw [hsampled]; rfl) h⟩
    rw [hsampled, hserver]
    intro seq' hs'
    have kept := hsub.of_seq hs'
    obtain ⟨hcache, hkeep, hinputs, hpending⟩ := kept.seq hs'
    -- there is nothing in the batch, of this sequence either
    have hnil : submitted = [] := by
      have := hsub.entries
      rw [ForwardBatch.of, hempty] at this
      have := congrArg List.length this
      rw [entriesFrom_length] at this
      exact List.length_eq_zero_iff.mp this.symm
    have hrest : rest ≠ [] := by
      intro hrest
      have := hsub.queue
      rw [hrest, hnil, List.append_nil, List.append_eq_nil_iff] at this
      exact ready.queued i seq hs this.2
    refine ⟨hcache, hkeep, by rw [hpending, hnil], by rw [hinputs]; exact hrest, ?_, ?_, ?_⟩
    · rw [hinputs]
      exact (List.append_nil rest).symm
    · rw [hnil, List.append_nil]
    · have := kept.fits
      rw [hnil, List.append_nil] at this
      rw [hinputs]
      exact this
  | forward cache t f hbuild hne hforward ht hfold hserver hsampled =>
    have assigned : t.Assigned := by
      rw [ht]
      exact built.assigned.congr (Server.sameUse_cache _ cache)
    have finished := (Server.finished_visits assigned List.nodup_range hfold).1
    have seqs (j : Nat) : t.seq j = p.building.server.seq j := by rw [ht]; rfl
    have slots (k : Nat) : t.cache.slot k = p.building.server.cache.slot k := by rw [ht]; rfl
    refine ⟨submitted, rest, hsub, ?_, ?_⟩
    all_goals rw [hsampled]
    · rw [hserver]
      intro seq' hs'
      have hi : i ∈ List.range t.seqs.length := by
        rw [List.mem_range, ← finished.length]
        exact Server.lt_of_seq hs'
      obtain ⟨seq₁, went⟩ := finished.went i hi seq' hs'
      have here := went.here
      rw [seqs] at here
      have kept := hsub.of_seq here
      obtain ⟨hcache, hkeep, hinputs, hpending⟩ := kept.seq here
      have hslot := went.slot
      rw [hcache, slots, hpending] at hslot
      have hnum : f.server.cache.numCtx = p.building.server.cache.numCtx := by
        rw [finished.numCtx, ht]
      have hfits := kept.fits
      refine ⟨went.cache.trans hcache, went.numKeep.trans hkeep, went.pending, ?_, ?_, hslot, ?_⟩
      all_goals rcases went.inputs with ⟨hne, heq, hnone⟩ | ⟨hempty, token, heq, hone⟩
      · rw [heq]
        exact hne
      · rw [heq]
        exact List.cons_ne_nil _ _
      · rw [heq, hinputs, hnone, List.append_nil]
      · rw [heq, hone, ← hinputs, hempty, List.nil_append]
      · rw [heq, hinputs, hslot, hnum]
        exact hfits
      · rw [← hinputs, hempty] at hfits
        rw [heq, hslot, hnum]
        exact hfits.snoc token
    · intro hne
      obtain ⟨e, he, rfl⟩ := mem_of_sampledFor hne
      obtain ⟨seq₁, here, hempty⟩ := finished.sampled e he
      rw [seqs] at here
      rw [← ((hsub.of_seq here).seq here).2.2.1, hempty]

/-- What a batch does to the server as a whole. -/
structure Renewed (s s' : Server K) : Prop where
  assigned : s'.Assigned
  used : s.Used → s'.Used
  length : s'.seqs.length = s.seqs.length
  batchSize : s'.batchSize = s.batchSize
  numCtx : s'.cache.numCtx = s.cache.numCtx
  old : ∀ i seq', s'.seq i = some seq' → ∃ seq, s.seq i = some seq

theorem Building.visit_used {ops : KvOps K} {env : Env} {i : Nat} {b b' : Building K}
    (h : b.visit ops env i = some b') (assigned : b.server.Assigned) (used : b.server.Used) :
    b'.server.Used := by
  rcases visit_some h with ⟨-, rfl⟩ | ⟨seq, hs, rfl⟩ | ⟨seq, seq', turn⟩
  · exact used
  · exact used.removeSequence hs (assigned.slot i seq hs).1 env .length
  · have before := turn.before
    obtain ⟨b₁, hadd, rfl⟩ := turn.building
    have added := added_addInputs hadd
    have here : b₁.server.seq i = some seq := by
      rw [added.server]
      exact before
    have same : b.server.SameUse b₁.server := by
      refine ⟨added.sameUse, by rw [added.server], ?_, by rw [added.server]⟩
      intro j
      rw [added.server]
      rfl
    exact used.congr (same.trans (Server.sameUse_setSeq here (by rw [added.rest]; rfl)))

theorem Server.buildBatch_used {ops : KvOps K} {env : Env} {s : Server K} {b : Building K}
    (assigned : s.Assigned) (idle : ∀ i seq, s.seq i = some seq → seq.pendingInputs = [])
    (used : s.Used) (h : s.buildBatch ops env = some b) : b.server.Used := by
  obtain ⟨nextSeq, b₁, heq, -, hI⟩ := Server.buildBatch_invariant
    (I := fun _ b => b.server.Used) assigned idle used
    (fun done i b b' built _ hI hvisit => Building.visit_used hvisit built.assigned hI) h
  rw [heq]
  exact hI

theorem Server.Ready.renewed {ops : KvOps K} {env : Env} {s : Server K} {p : Processed K}
    (ready : s.Ready) (h : Processes ops env s p) : Renewed s p.server := by
  obtain ⟨-, built⟩ := ready.submits h.building
  have used (hused : s.Used) : p.building.server.Used :=
    Server.buildBatch_used ready.assigned ready.idle hused h.building
  have old (i : Nat) (seq' : Sequence) (hs : p.building.server.seq i = some seq') :
      ∃ seq, s.seq i = some seq := by
    obtain ⟨seq, hseq, -⟩ := built.old i seq' hs
    exact ⟨seq, hseq⟩
  cases h with
  | empty hbuild hempty hserver hsampled =>
    rw [hserver]
    exact ⟨built.assigned, used, built.length, built.batchSize, built.numCtx, old⟩
  | forward cache t f hbuild hne hforward ht hfold hserver hsampled =>
    have same : p.building.server.SameUse t := by
      rw [ht]
      exact Server.sameUse_cache _ cache
    obtain ⟨finished, usedAfter⟩ := Server.finished_visits (built.assigned.congr same)
      List.nodup_range hfold
    rw [hserver]
    refine ⟨finished.assigned, ?_, ?_, ?_, ?_, ?_⟩
    · exact fun hused => usedAfter ((used hused).congr same)
    · rw [finished.length, same.length, built.length]
    · rw [finished.batchSize, ht]
      exact built.batchSize
    · rw [finished.numCtx, same.cache.numCtx, built.numCtx]
    · intro i seq' hs
      have hi : i ∈ List.range t.seqs.length := by
        rw [List.mem_range, ← finished.length]
        exact Server.lt_of_seq hs
      obtain ⟨seq₁, went⟩ := finished.went i hi seq' hs
      have here := went.here
      rw [ht] at here
      exact old i seq₁ here

theorem Server.Ready.processes {ops : KvOps K} {env : Env} {s : Server K} {p : Processed K}
    (ready : s.Ready) (h : Processes ops env s p) : p.server.Ready := by
  have renewed := ready.renewed h
  refine ⟨renewed.assigned, ?_, ?_, ?_, ?_⟩
  all_goals
    intro i seq' hs'
    obtain ⟨seq, hs⟩ := renewed.old i seq' hs'
    obtain ⟨submitted, rest, advanced⟩ := ready.advanced h hs
    obtain ⟨hcache, hkeep, hpending, hne, -, -, hfits⟩ := advanced.goesOn seq' hs'
  · exact hpending
  · exact hne
  · rw [hkeep, renewed.numCtx]
    exact ready.numKeep i seq hs
  · rw [hcache]
    exact hfits

/-! ### Runs -/

/-- The inputs of a sequence since its prompt was loaded. -/
structure Progress where
  loaded : List Input := []
  /-- sampled for it, in order -/
  sampled : List Input := []
  /-- put in front of its queue again, because its slot could not be shifted -/
  requeued : List Input := []
  /-- everything that was queued, in the order in which its turn comes -/
  queued : List Input := []
  /-- what batches had of it -/
  submitted : List Input := []
  deriving DecidableEq

def Progress.batch (h : Progress) (requeued submitted sampled : List Input) : Progress where
  loaded := h.loaded
  sampled := h.sampled ++ sampled
  requeued := h.requeued ++ requeued
  queued := h.queued.take h.submitted.length ++ requeued ++ h.queued.drop h.submitted.length ++
    sampled
  submitted := h.submitted ++ submitted

/-- The progress of each sequence, by its index. -/
def History := Nat → Progress

def History.completion (h : History) (s : Server K) (i : Nat) : History := fun j =>
  if j = i then
    match s.seq i with
    | some seq => { loaded := seq.inputs, queued := seq.inputs }
    | none => h j
  else h j

/-- What the batch holds of the sequence that was at `i` in `s`. -/
def Building.submittedFor (s : Server K) (b : Building K) (i : Nat) : List Input :=
  match s.seq i with
  | some seq => (b.batch.of seq.cache).map (·.input)
  | none => []

def History.processBatch (h : History) (s : Server K) (p : Processed K) : History := fun i =>
  (h i).batch (requeuedFor i p.building.requeued) (p.building.submittedFor s i) (sampledFor i p.sampled)

def newServer (cache : InputCache K) (parallel batchSize : Nat) : Server K :=
  { seqs := List.replicate parallel none, cache, batchSize }

inductive Event
  | acquire
  | completion (seq : Sequence)
  | processBatch (env : Env)

/-- One step of a run; `none` where it cannot be taken, or the server ends. -/
def Event.step (ops : KvOps K) (r : Server K × History) : Event → Option (Server K × History)
  | acquire => r.1.acquire.map fun s => (s, r.2)
  | completion seq =>
    if r.1.active < r.1.acquired then
      match r.1.completion ops seq with
      | (s, some i) => some (s, r.2.completion s i)
      | (s, none) => some (s, r.2)
    else none
  | processBatch env =>
    if r.1.active = 0 then none
    else (r.1.processBatch ops env).map fun p => (p.server, r.2.processBatch r.1 p)

/-- A run of a server with `parallel` places from its start on. -/
def run (ops : KvOps K) (cache : K) (kvSize parallel batchSize : Nat) (multiUserCache : Bool)
    (events : List Event) : Option (Server K × History) :=
  match newInputCache cache kvSize parallel multiUserCache with
  | none => none
  | some c => events.foldlM (Event.step ops) (newServer c parallel batchSize, fun _ => {})

/-- Every input that was queued is either submitted, in order, or still queued. -/
structure Accounted (s : Server K) (h : History) : Prop where
  live : ∀ i seq, s.seq i = some seq → (h i).submitted ++ seq.inputs = (h i).queued
  ended : ∀ i, (h i).submitted <+: (h i).queued
  queued : ∀ i, (h i).requeued = [] → (h i).queued = (h i).loaded ++ (h i).sampled

theorem Progress.batch_prefix {h : Progress} (hpre : h.submitted <+: h.queued)
    (requeued sampled : List Input) :
    (h.batch requeued [] sampled).submitted <+: (h.batch requeued [] sampled).queued := by
  obtain ⟨tail, htail⟩ := hpre
  rw [batch, ← htail, List.take_left, List.append_nil, List.append_assoc, List.append_assoc]
  exact List.prefix_append ..

theorem Progress.batch_queued {h : Progress} {inputs requeued submitted rest : List Input}
    (hlive : h.submitted ++ inputs = h.queued) (hqueue : requeued ++ inputs = submitted ++ rest)
    (sampled : List Input) : (h.batch requeued submitted sampled).queued =
      (h.batch requeued submitted sampled).submitted ++ (rest ++ sampled) := by
  rw [batch, ← hlive, List.take_left, List.drop_left, List.append_assoc h.submitted, hqueue]
  simp

theorem Submission.submittedFor {s : Server K} {b : Building K} {i : Nat} {seq : Sequence}
    {submitted rest : List Input} (hsub : Submission b i seq submitted rest)
    (hs : s.seq i = some seq) : b.submittedFor s i = submitted := by
  rw [Building.submittedFor, hs]
  dsimp only
  rw [hsub.entries]
  exact entriesFrom_input ..

theorem Accounted.processBatch {ops : KvOps K} {env : Env} {s : Server K} {h : History}
    {p : Processed K} (accounted : Accounted s h) (ready : s.Ready) (hp : Processes ops env s p) :
    Accounted p.server (h.processBatch s p) := by
  refine ⟨?_, ?_, ?_⟩
  · intro i seq' hs'
    obtain ⟨seq, hs⟩ := (ready.renewed hp).old i seq' hs'
    obtain ⟨submitted, rest, advanced⟩ := ready.advanced hp hs
    have hsub := advanced.submission
    have hinputs := (advanced.goesOn seq' hs').2.2.2.2.1
    rw [History.processBatch, hsub.submittedFor hs, hinputs]
    exact (Progress.batch_queued (accounted.live i seq hs) hsub.queue _).symm
  · intro i
    rw [History.processBatch]
    cases hs : s.seq i with
    | none =>
      have hnone : p.building.submittedFor s i = [] := by rw [Building.submittedFor, hs]
      rw [hnone]
      exact Progress.batch_prefix (accounted.ended i) _ _
    | some seq =>
      obtain ⟨submitted, rest, advanced⟩ := ready.advanced hp hs
      have hsub := advanced.submission
      rw [hsub.submittedFor hs, Progress.batch_queued (accounted.live i seq hs) hsub.queue]
      exact List.prefix_append ..
  · intro i hnil
    rw [History.processBatch, Progress.batch, List.append_eq_nil_iff] at hnil
    rw [History.processBatch, Progress.batch]
    dsimp only
    rw [hnil.2, List.append_nil, List.take_append_drop, accounted.queued i hnil.1,
      List.append_assoc]

theorem Accounted.completed {ops : KvOps K} {s s' : Server K} {h : History} {seq : Sequence}
    {i : Option Nat} (accounted : Accounted s h) (hc : Completed ops s seq s' i) :
    Accounted s' (match i with | some i => h.completion s' i | none => h) := by
  cases hc with
  | full => exact ⟨accounted.live, accounted.ended, accounted.queued⟩
  | failed cache => exact ⟨accounted.live, accounted.ended, accounted.queued⟩
  | loaded i k cache rest hi hnone loaded =>
    have here : Server.seq (Server.setSeq { s with cache } i
        (some { seq with cache := k, inputs := rest })) i =
          some { seq with cache := k, inputs := rest } := Server.seq_setSeq_self hi _
    have new : h.completion (Server.setSeq { s with cache } i
        (some { seq with cache := k, inputs := rest })) i i = { loaded := rest, queued := rest } := by
      rw [History.completion, if_pos rfl, here]
    have old (j : Nat) (hj : j ≠ i) : h.completion (Server.setSeq { s with cache } i
        (some { seq with cache := k, inputs := rest })) i j = h j := by
      rw [History.completion, if_neg hj]
    dsimp only
    refine ⟨?_, ?_, ?_⟩
    · intro j seq' hs'
      by_cases hj : j = i
      · subst hj
        rw [here] at hs'
        obtain rfl := Option.some.inj hs'
        rw [new]
        rfl
      · rw [Server.seq_setSeq_of_ne _ hj] at hs'
        rw [old j hj]
        exact accounted.live j seq' hs'
    · intro j
      by_cases hj : j = i
      · subst hj
        rw [new]
        exact List.nil_prefix
      · rw [old j hj]
        exact accounted.ended j
    · intro j
      by_cases hj : j = i
      · subst hj
        rw [new]
        intro _
        exact (List.append_nil rest).symm
      · rw [old j hj]
        exact accounted.queued j

theorem Server.new_ready (c : InputCache K) (parallel batchSize : Nat)
    (hlen : c.slots.length = parallel) (hid : ∀ k < parallel, (c.slot k).id = k)
    (hclock : ∀ k < parallel, (c.slot k).lastUsed < c.now) :
    (newServer c parallel batchSize).Ready := by
  have none (i : Nat) : (newServer c parallel batchSize).seq i = none := by
    rw [Server.seq, newServer, List.getElem?_replicate]
    split <;> rfl
  have never {i : Nat} {seq : Sequence} (h : (newServer c parallel batchSize).seq i = some seq) :
      False := by
    rw [none] at h
    cases h
  have active : (newServer c parallel batchSize).active = 0 := by
    rw [Server.active_eq, Finset.card_eq_zero, Finset.filter_eq_empty_iff]
    intro i _
    rw [none]
    simp
  refine ⟨⟨?_, ?_, fun _ _ h => (never h).elim, fun _ _ _ _ h => (never h).elim, ?_, ?_, ?_⟩,
    fun _ _ h => (never h).elim, fun _ _ h => (never h).elim, fun _ _ h => (never h).elim,
    fun _ _ h => (never h).elim⟩
  · exact hlen.trans List.length_replicate.symm
  · intro k hk
    exact hid k (hlen ▸ hk)
  · intro k hk
    exact hclock k (hlen ▸ hk)
  · rw [active]
    exact Nat.zero_le _
  · exact Nat.zero_le _

theorem newInputCache_some {cache : K} {kvSize numSlots : Nat} {multiUserCache : Bool}
    {c : InputCache K} (h : newInputCache cache kvSize numSlots multiUserCache = some c) :
    c.slots.length = numSlots ∧ c.cache = cache ∧ c.numCtx = kvSize / numSlots ∧ c.now = 1 ∧
      ∀ k < numSlots, c.slot k = { id := k } := by
  unfold newInputCache at h
  dsimp only at h
  split at h
  · cases h
  · obtain rfl := Option.some.inj h
    refine ⟨by simp, rfl, rfl, rfl, ?_⟩
    intro k hk
    simp [InputCache.slot, hk]

/-- What every step of a run keeps. -/
theorem Event.step_keeps {ops : KvOps K} {r r' : Server K × History} {e : Event}
    (h : e.step ops r = some r') (he : ∀ seq, e = .completion seq → Admissible r.1.cache.numCtx seq)
    (ready : r.1.Ready) (accounted : Accounted r.1 r.2) :
    r'.1.Ready ∧ Accounted r'.1 r'.2 ∧ r'.1.cache.numCtx = r.1.cache.numCtx := by
  cases e with
  | acquire =>
    obtain ⟨s', hs', rfl⟩ := Option.map_eq_some_iff.mp h
    unfold Server.acquire at hs'
    split at hs'
    · rename_i hlt
      obtain rfl := Option.some.inj hs'
      have hle := ready.assigned.active_le
      exact ⟨ready.withAcquired (by omega) hlt,
        ⟨accounted.live, accounted.ended, accounted.queued⟩, rfl⟩
    · cases hs'
  | completion seq =>
    rw [step] at h
    split at h
    · rename_i hactive
      have admissible := he seq rfl
      split at h
      · rename_i s' i hcompletion
        obtain rfl := Option.some.inj h
        have completed := Server.completion_completed admissible.nonempty hcompletion
        exact ⟨ready.completed admissible hactive completed, accounted.completed completed,
          completed.numCtx⟩
      · rename_i s' hcompletion
        obtain rfl := Option.some.inj h
        have completed := Server.completion_completed admissible.nonempty hcompletion
        exact ⟨ready.completed admissible hactive completed, accounted.completed completed,
          completed.numCtx⟩
    · cases h
  | processBatch env =>
    rw [step] at h
    split at h
    · cases h
    · obtain ⟨p, hp, rfl⟩ := Option.map_eq_some_iff.mp h
      have processes := Server.processBatch_some hp
      exact ⟨ready.processes processes, accounted.processBatch ready processes,
        (ready.renewed processes).numCtx⟩

theorem Server.new_keeps {cache : K} {kvSize parallel : Nat} {multiUserCache : Bool}
    {c : InputCache K} (hc : newInputCache cache kvSize parallel multiUserCache = some c)
    (batchSize : Nat) : (newServer c parallel batchSize).Ready ∧
      Accounted (newServer c parallel batchSize) (fun _ => {}) ∧ c.numCtx = kvSize / parallel := by
  obtain ⟨hlen, -, hnum, hnow, hslot⟩ := newInputCache_some hc
  refine ⟨Server.new_ready c parallel batchSize hlen ?_ ?_, ?_, hnum⟩
  · intro k hk
    rw [hslot k hk]
  · intro k hk
    rw [hslot k hk, hnow]
    exact Nat.one_pos
  · refine ⟨?_, fun _ => List.nil_prefix, fun _ _ => rfl⟩
    intro i seq hs
    rw [Server.seq, newServer, List.getElem?_replicate] at hs
    split at hs <;> cases hs

theorem run_keeps {ops : KvOps K} {cache : K} {kvSize parallel batchSize : Nat}
    {multiUserCache : Bool} {events : List Event} {s : Server K} {h : History}
    (hrun : run ops cache kvSize parallel batchSize multiUserCache events = some (s, h))
    (admissible : ∀ seq, .completion seq ∈ events → Admissible (kvSize / parallel) seq) :
    s.Ready ∧ Accounted s h ∧ s.cache.numCtx = kvSize / parallel := by
  unfold run at hrun
  split at hrun
  · cases hrun
  · rename_i c hc
    refine foldlM_invariant (I := fun r => r.1.Ready ∧ Accounted r.1 r.2 ∧
      r.1.cache.numCtx = kvSize / parallel) ?_ hrun (Server.new_keeps hc batchSize)
    rintro r r' e hmem ⟨ready, accounted, hnum⟩ hstep
    have := Event.step_keeps hstep (by
      rintro seq rfl
      rw [hnum]
      exact admissible seq hmem) ready accounted
    rw [hnum] at this
    exact this

/-- What a batch submits of the sequences of `s`. -/
structure Server.Serves (s : Server K) (b : Building K) : Prop where
  length_le : b.batch.entries.length ≤ max s.batchSize (1 + s.largestSameBatch)
  owner : ∀ e ∈ b.batch.entries, ∃ i seq, s.seq i = some seq ∧ e.sequence = seq.cache
  /-- each input at its index among the inputs of the slot and those pending -/
  entries : ∀ i seq, s.seq i = some seq → b.batch.of seq.cache = entriesFrom seq.cache
    (b.server.cache.slot seq.cache).inputs.length (b.submittedFor s i)
  /-- the next inputs of the queue -/
  queue : ∀ i seq, s.seq i = some seq →
    b.submittedFor s i <+: requeuedFor i b.requeued ++ seq.inputs
  pending : ∀ i seq', b.server.seq i = some seq' → seq'.pendingInputs = b.submittedFor s i
  /-- whole groups -/
  whole : ∀ i seq, s.seq i = some seq → Grouped 0 seq.inputs → ∀ (p : Nat) (inp : Input),
    (b.submittedFor s i)[p]? = some inp → p + inp.sameBatch < (b.submittedFor s i).length
  /-- a sequence with nothing left is sampled from the output of its own last input -/
  output : ∀ i seq', b.server.seq i = some seq' → seq'.inputs = [] →
    ∃ e, b.batch.outputs[seq'.iBatch]? = some e ∧ LastIndex b.batch seq'.cache e

theorem Server.Ready.serves {ops : KvOps K} {env : Env} {s : Server K} {b : Building K}
    (ready : s.Ready) (h : s.buildBatch ops env = some b) : s.Serves b := by
  obtain ⟨submits, built⟩ := ready.submits h
  have sub (i : Nat) (seq : Sequence) (hs : s.seq i = some seq) :
      ∃ rest, Submission b i seq (b.submittedFor s i) rest := by
    obtain ⟨submitted, rest, hsub⟩ := submits.submission i seq hs
    rw [hsub.submittedFor hs]
    exact ⟨rest, hsub⟩
  refine ⟨submits.length_le, ?_, ?_, ?_, ?_, ?_, ?_⟩
  · intro e he
    obtain ⟨i, seq', hs', heq⟩ := built.owner e he
    obtain ⟨seq, hs, hcache⟩ := built.old i seq' hs'
    exact ⟨i, seq, hs, by rw [heq, hcache]⟩
  · intro i seq hs
    obtain ⟨rest, hsub⟩ := sub i seq hs
    exact hsub.entries
  · intro i seq hs
    obtain ⟨rest, hsub⟩ := sub i seq hs
    rw [hsub.queue]
    exact List.prefix_append ..
  · intro i seq' hs'
    obtain ⟨seq, hs, -⟩ := built.old i seq' hs'
    obtain ⟨rest, hsub⟩ := sub i seq hs
    exact ((hsub.of_seq hs').seq hs').2.2.2
  · intro i seq hs
    obtain ⟨rest, hsub⟩ := sub i seq hs
    exact hsub.whole
  · intro i seq' hs' hempty
    obtain ⟨seq, hs, hcache⟩ := built.old i seq' hs'
    obtain ⟨rest, hsub⟩ := sub i seq hs
    have hrest := ((hsub.of_seq hs').seq hs').2.2.1
    rw [hempty] at hrest
    rw [← hcache]
    exact hsub.output hrest.symm seq' hs'

/-- In every run each input is submitted once and in order, where inputs that are put in front of a
queue again count as queued again; and every batch is as it should be. -/
theorem run_submits {ops : KvOps K} {cache : K} {kvSize parallel batchSize : Nat}
    {multiUserCache : Bool} {events : List Event} {s : Server K} {h : History}
    (hrun : run ops cache kvSize parallel batchSize multiUserCache events = some (s, h))
    (admissible : ∀ seq, .completion seq ∈ events → Admissible (kvSize / parallel) seq) :
    Accounted s h ∧ ∀ env b, s.buildBatch ops env = some b → s.Serves b := by
  obtain ⟨ready, accounted, -⟩ := run_keeps hrun admissible
  exact ⟨accounted, fun _ _ hb => ready.serves hb⟩

/-! ### Inputs that are submitted again -/

/-- A KV cache that can only be cleared as a whole. -/
def allOrNothing : KvOps Unit where
  canResume _ _ _ := true
  remove _ _ _ endIndex := ((), decide (endIndex = maxInt32))
  copyPrefix _ _ _ _ := ()
  forward _ _ := ((), true)

/-- Every token sampled is 9. -/
def nines : Env where
  getMultimodal _ := none
  sample _ _ := some 9
  isEOS _ := false
  decode _ := some []
  quit _ := false
  quitAtEnd _ := false

def request (inputs : List Input) : Sequence :=
  { stop := [], inputs, numPredict := -1, numKeep := 0 }

/-- A prompt that fills the context, and the batches until its first token is submitted. -/
def fullContext : List Event :=
  [.acquire, .completion (request [{ token := 1 }, { token := 2 }]), .processBatch nines,
    .processBatch nines, .processBatch nines]

/-- A prompt that ends before its last group does. -/
def cutGroup : List Event :=
  [.acquire, .completion (request [{ token := 1 }, { token := 2 }, { token := 3 }, { token := 4 },
    { token := 5, sameBatch := 2 }, { token := 6 }]), .processBatch nines, .processBatch nines]

/-- Token 2 is submitted twice once the slot cannot be shifted; and where the last group is cut,
token 6 is submitted in place of those that were put in front of it. -/
theorem submitted_again :
    (∃ r, run allOrNothing () 2 1 8 false fullContext = some r ∧ r.2 0 =
      { loaded := [{ token := 1 }, { token := 2 }], sampled := [{ token := 9 }, { token := 9 }]
        requeued := [{ token := 2 }]
        queued := [{ token := 1 }, { token := 2 }, { token := 2 }, { token := 9 }, { token := 9 }]
        submitted := [{ token := 1 }, { token := 2 }, { token := 2 }, { token := 9 }] } ∧
      ¬ (r.2 0).submitted <+: (r.2 0).loaded ++ (r.2 0).sampled) ∧
    ∃ r, run allOrNothing () 6 1 8 false cutGroup = some r ∧
      ¬ (r.2 0).submitted <+: (r.2 0).queued := by
  refine ⟨⟨_, rfl, ?_, ?_⟩, _, rfl, ?_⟩
  · decide
  · decide
  · decide

theorem fullContext_submits : ∃ r, run allOrNothing () 2 1 8 false fullContext = some r ∧
    Accounted r.1 r.2 ∧
      ∀ env b, r.1.buildBatch allOrNothing env = some b → r.1.Serves b := by
  obtain ⟨r, hr⟩ : ∃ r, run allOrNothing () 2 1 8 false fullContext = some r := ⟨_, rfl⟩
  refine ⟨r, hr, run_submits hr ?_⟩
  intro seq hseq
  simp only [fullContext, List.mem_cons, List.not_mem_nil, reduceCtorEq, or_false, false_or,
    Event.completion.injEq] at hseq
  subst hseq
  decide

end Ecco9.Runner
