import Ecco9.Runner.Building

/-! What a batch submits of each sequence's queue. -/

universe u

namespace Ecco9.Runner

open Ecco9.Library

/-- The sequences of a server between two batches. -/
structure Server.Ready (s : Server K) : Prop where
  assigned : s.Assigned
  idle : ∀ i seq, s.seq i = some seq → seq.pendingInputs = []
  queued : ∀ i seq, s.seq i = some seq → seq.inputs ≠ []
  numKeep : ∀ i seq, s.seq i = some seq → seq.numKeep < s.cache.numCtx
  fits : ∀ i seq, s.seq i = some seq →
    Fits s.cache.numCtx (s.cache.slot seq.cache).inputs seq.inputs

/-- The inputs that were put in front of the queue of sequence `i` again. -/
def requeuedFor (i : Nat) (requeued : List (Nat × List Input)) : List Input :=
  (requeued.filter fun e => decide (e.1 = i)).flatMap (·.2)

@[simp] theorem requeuedFor_append (i : Nat) (r r' : List (Nat × List Input)) :
    requeuedFor i (r ++ r') = requeuedFor i r ++ requeuedFor i r' := by
  simp [requeuedFor]

theorem requeuedFor_one (i j : Nat) (inputs : List Input) :
    requeuedFor i [(j, inputs)] = if j = i then inputs else [] := by
  by_cases h : j = i
  · simp [requeuedFor, h]
  · simp [requeuedFor, h]

/-- The sequence as it is in the batch, when its turn did not end it. -/
structure Kept (b : Building K) (i : Nat) (seq seq' : Sequence) (submitted rest : List Input) :
    Prop where
  here : b.server.seq i = some seq'
  eq : seq' = { seq with inputs := rest, pendingInputs := submitted, iBatch := seq'.iBatch }
  fits : Fits b.server.cache.numCtx
    ((b.server.cache.slot seq.cache).inputs ++ submitted) rest

/-- `e` is the index of the last entry of `id` in the batch. -/
structure LastIndex (b : ForwardBatch) (id : Int) (e : Nat) : Prop where
  lt : e < b.entries.length
  own : ∀ x, b.entries[e]? = some x → x.sequence = id
  last : ∀ e' x, e < e' → b.entries[e']? = some x → x.sequence ≠ id

/-- What the batch `b` submits of sequence `i`, whose turn found it as `seq`. -/
structure Submission (b : Building K) (i : Nat) (seq : Sequence) (submitted rest : List Input) :
    Prop where
  /-- the entries, each at the position it has behind the inputs of the slot -/
  entries : b.batch.of seq.cache =
    entriesFrom seq.cache (b.server.cache.slot seq.cache).inputs.length submitted
  /-- the front of the queue, in order -/
  queue : requeuedFor i b.requeued ++ seq.inputs = submitted ++ rest
  whole : Grouped 0 seq.inputs → ∀ (p : Nat) (inp : Input), submitted[p]? = some inp →
    p + inp.sameBatch < submitted.length
  kept : (∃ seq', Kept b i seq seq' submitted rest) ∨
    b.server.seq i = none ∧ submitted = [] ∧ requeuedFor i b.requeued = []
  /-- the output of a sequence without further inputs is that of its last one -/
  output : rest = [] → ∀ seq', b.server.seq i = some seq' →
    ∃ e, b.batch.outputs[seq'.iBatch]? = some e ∧ LastIndex b.batch seq.cache e

theorem LastIndex.append {b b' : ForwardBatch} {id : Int} {e : Nat} (h : LastIndex b id e)
    {new : List BatchEntry} (hentries : b'.entries = b.entries ++ new)
    (hnew : ∀ x ∈ new, x.sequence ≠ id) : LastIndex b' id e := by
  refine ⟨?_, ?_, ?_⟩
  · rw [hentries, List.length_append]
    exact Nat.lt_add_right _ h.lt
  · intro x hx
    rw [hentries, List.getElem?_append_left h.lt] at hx
    exact h.own x hx
  · intro e' x hlt hx
    rw [hentries, List.getElem?_append] at hx
    split at hx
    · exact h.last e' x hlt hx
    · exact hnew x (List.mem_of_getElem? hx)

theorem lastIndex_entriesFrom {b : ForwardBatch} {done : List BatchEntry} {id : Int} {start : Nat}
    {submitted : List Input} (h : b.entries = done ++ entriesFrom id start submitted)
    (hne : submitted ≠ []) : LastIndex b id (b.entries.length - 1) := by
  have hpos := List.length_pos_iff.mpr hne
  have hlen : b.entries.length = done.length + submitted.length := by
    rw [h, List.length_append, entriesFrom_length]
  refine ⟨by omega, ?_, ?_⟩
  · intro x hx
    rw [h, List.getElem?_append_right (by rw [← h]; omega)] at hx
    obtain ⟨y, -, rfl⟩ := List.mem_map.mp (List.mem_of_getElem? hx)
    rfl
  · intro e' x hlt hx
    have := (List.getElem?_eq_some_iff.mp hx).1
    omega

/-- The turns of other sequences leave a submission as it is. -/
theorem Submission.other {b b' : Building K} {i j : Nat} {seq : Sequence}
    {submitted rest : List Input} (h : Submission b i seq submitted rest)
    (visited : Visited j b b') (hij : i ≠ j)
    (hslot : b'.server.cache.slot seq.cache = b.server.cache.slot seq.cache)
    (hown : ∀ k seq', b'.server.seq k = some seq' → k ≠ i → seq'.cache ≠ seq.cache)
    (hrequeued : requeuedFor i b'.requeued = requeuedFor i b.requeued) :
    Submission b' i seq submitted rest := by
  have hseq : b'.server.seq i = b.server.seq i := visited.seq i hij
  have grown : ∃ new, b'.batch.entries = b.batch.entries ++ new ∧
      ∀ x ∈ new, x.sequence ≠ (seq.cache : Int) := by
    cases hnew : b'.server.seq j with
    | none => exact ⟨[], by rw [visited.removed hnew, List.append_nil], by simp⟩
    | some seq' =>
      refine ⟨_, (visited.kept seq' hnew).2, ?_⟩
      intro x hx heq
      obtain ⟨y, -, rfl⟩ := List.mem_map.mp hx
      have hid := visited.assigned.slot_id hnew
      dsimp only at heq
      rw [hid] at heq
      exact hown j seq' hnew (Ne.symm hij) (by exact_mod_cast heq)
  obtain ⟨new, hentries, hnew⟩ := grown
  have hof : b'.batch.of seq.cache = b.batch.of seq.cache := by
    rw [ForwardBatch.of, hentries, List.filter_append, ForwardBatch.of]
    have : new.filter (fun e => decide (e.sequence = (seq.cache : Int))) = [] := by
      rw [List.filter_eq_nil_iff]
      intro x hx
      rw [decide_eq_true_eq]
      exact hnew x hx
    rw [this, List.append_nil]
  refine ⟨?_, ?_, h.whole, ?_, ?_⟩
  · rw [hof, hslot]
    exact h.entries
  · rw [hrequeued]
    exact h.queue
  · rcases h.kept with ⟨seq', hkept⟩ | ⟨h1, h2, h3⟩
    · refine .inl ⟨seq', by rw [hseq]; exact hkept.here, hkept.eq, ?_⟩
      rw [visited.numCtx, hslot]
      exact hkept.fits
    · exact .inr ⟨by rw [hseq, h1], h2, by rw [hrequeued, h3]⟩
  · intro hrest seq' hs
    rw [hseq] at hs
    obtain ⟨e, he, hlast⟩ := h.output hrest seq' hs
    refine ⟨e, ?_, hlast.append hentries hnew⟩
    obtain ⟨more, hmore⟩ := visited.outputs
    rw [← hmore, List.getElem?_append_left (List.getElem?_eq_some_iff.mp he).1]
    exact he

/-- What the turn of a sequence submits of it. -/
theorem Turn.submission {ops : KvOps K} {env : Env} {i : Nat} {b b' : Building K}
    {seq seq' : Sequence} (turn : Turn ops env i b b' seq seq') (assigned : b.server.Assigned)
    (idle : seq.pendingInputs = []) (queued : seq.inputs ≠ [])
    (hkeep : seq.numKeep < b.server.cache.numCtx)
    (fits : Fits b.server.cache.numCtx (b.server.cache.slot seq.cache).inputs seq.inputs)
    (hof : b.batch.of seq.cache = []) (hrequeued : requeuedFor i b.requeued = []) :
    ∃ submitted rest, Submission b' i seq submitted rest := by
  have visited := turn.visited assigned idle
  have before := turn.before
  have after := turn.after
  obtain ⟨b₁, hadd, rfl⟩ := turn.building
  have added := Building.added_addInputs hadd
  obtain ⟨retained, taken⟩ := Building.taken hadd (assigned.slot i seq before).1 idle hkeep fits
  have hcache : seq'.cache = seq.cache := by rw [added.rest]
  have hnum : b₁.server.cache.numCtx = b.server.cache.numCtx := added.sameUse.numCtx
  have hentries : b₁.batch.entries = b.batch.entries ++
      entriesFrom seq.cache (b₁.server.cache.slot seq.cache).inputs.length seq'.pendingInputs := by
    have := added.entries b.batch.entries (by
      rw [idle, pendingEntries, entriesFrom_nil, List.append_nil])
    rw [this, pendingEntries, added.sameUse.id, assigned.slot_id before]
  have hretained : requeuedFor i b₁.requeued = retained := by
    rcases taken.requeued with ⟨heq, hnil⟩ | ⟨heq, -⟩
    · rw [heq, hrequeued, hnil]
    · rw [heq, requeuedFor_append, hrequeued, requeuedFor_one, if_pos rfl, List.nil_append]
  have hsplit : seq'.pendingInputs ++ seq'.inputs.drop seq'.pendingInputs.length =
      seq'.inputs := by
    obtain ⟨tail, htail⟩ := taken.front
    rw [← htail, List.drop_left]
  refine ⟨seq'.pendingInputs, seq'.inputs.drop seq'.pendingInputs.length, ?_, ?_, ?_,
    .inl ⟨_, after, ?_, ?_⟩, ?_⟩
  · have old : b.batch.entries.filter (fun e => decide (e.sequence = (seq.cache : Int))) = [] := hof
    have new := filter_pendingEntries (b₁.server.cache.slot seq.cache) seq'.pendingInputs seq.cache
    rw [pendingEntries, added.sameUse.id, assigned.slot_id before, if_pos rfl] at new
    change b₁.batch.of seq.cache = _
    rw [ForwardBatch.of, hentries, List.filter_append, old, new, List.nil_append]
    rfl
  · change requeuedFor i b₁.requeued ++ seq.inputs = _
    rw [hretained, hsplit, taken.inputs]
  · intro hgroup
    rcases taken.requeued with ⟨-, hnil⟩ | ⟨-, hnil⟩
    · have hwhole := hgroup
      have hinputs := taken.inputs
      rw [hnil, List.nil_append] at hinputs
      rw [← hinputs, ← hsplit] at hwhole
      exact (hwhole.whole (taken.whole hgroup)).2
    · intro p inp hp
      rw [hnil] at hp
      cases hp
  · rw [added.rest]
    rfl
  · change Fits b₁.server.cache.numCtx ((b₁.server.cache.slot seq.cache).inputs ++ _) _
    rw [hnum]
    by_cases hnil : seq'.pendingInputs = []
    · rw [hnil, List.append_nil, List.length_nil, List.drop_zero]
      exact taken.fits
    · refine .inl ?_
      rw [List.append_assoc, hsplit]
      exact taken.fitsAt hnil
  · intro hrest seq'' hs
    rw [after] at hs
    obtain rfl := Option.some.inj hs
    have hlen : seq'.inputs.length ≤ seq'.pendingInputs.length := by
      have := congrArg List.length hrest
      rw [List.length_drop, List.length_nil] at this
      omega
    have hne : seq'.pendingInputs ≠ [] := by
      intro hnil
      have h0 : seq'.inputs = [] := by
        rw [hnil, List.length_nil] at hlen
        exact List.length_eq_zero_iff.mp (by omega)
      rw [taken.inputs, List.append_eq_nil_iff] at h0
      exact queued h0.2
    have hle := taken.front.length_le
    refine ⟨_, taken.output hne (by omega), ?_⟩
    have := lastIndex_entriesFrom (b := b₁.batch) hentries hne
    exact this

/-- Every turn made so far has submitted the front of its sequence's queue. -/
structure Submitting (s : Server K) (done : List Nat) (b : Building K) : Prop where
  submission : ∀ i ∈ done, ∀ seq, s.seq i = some seq →
    ∃ submitted rest, Submission b i seq submitted rest
  fresh : ∀ i, i ∉ done → requeuedFor i b.requeued = []

theorem Building.requeued_visit {ops : KvOps K} {env : Env} {i j : Nat} {b b' : Building K}
    {seq seq' : Sequence} (turn : Turn ops env i b b' seq seq') (assigned : b.server.Assigned)
    (idle : seq.pendingInputs = []) (hkeep : seq.numKeep < b.server.cache.numCtx)
    (fits : Fits b.server.cache.numCtx (b.server.cache.slot seq.cache).inputs seq.inputs)
    (hj : j ≠ i) : requeuedFor j b'.requeued = requeuedFor j b.requeued := by
  have before := turn.before
  obtain ⟨b₁, hadd, rfl⟩ := turn.building
  obtain ⟨retained, taken⟩ := Building.taken hadd (assigned.slot i seq before).1 idle hkeep fits
  change requeuedFor j b₁.requeued = _
  rcases taken.requeued with ⟨heq, -⟩ | ⟨heq, -⟩
  · rw [heq]
  · rw [heq, requeuedFor_append, requeuedFor_one, if_neg (Ne.symm hj), List.append_nil]

theorem Submitting.visit {ops : KvOps K} {env : Env} {s : Server K} (ready : s.Ready)
    {done : List Nat} {b b' : Building K} {i : Nat} (built : Built s done b) (hi : i ∉ done)
    (h : Submitting s done b) (hvisit : b.visit ops env i = some b') :
    Submitting s (done ++ [i]) b' := by
  have built' := built.visit ready.idle hi hvisit
  obtain ⟨hseq, hslot⟩ := built.fresh i hi
  have done_of {j : Nat} (hj : j ∈ done ++ [i]) (hji : j ≠ i) : j ∈ done := by
    rcases List.mem_append.mp hj with hj | hj
    · exact hj
    · exact absurd (List.mem_singleton.mp hj) hji
  -- the submissions of the turns before are left alone
  have earlier (visited : Visited i b b')
      (hrequeued : ∀ j, j ≠ i → requeuedFor j b'.requeued = requeuedFor j b.requeued)
      {j : Nat} (hj : j ∈ done) (hji : j ≠ i) {seq : Sequence} (hs : s.seq j = some seq) :
      ∃ submitted rest, Submission b' j seq submitted rest := by
    obtain ⟨submitted, rest, hsub⟩ := h.submission j hj seq hs
    have hown (k : Nat) (seq' : Sequence) (hk : b'.server.seq k = some seq') (hkj : k ≠ j) :
        seq'.cache ≠ seq.cache := by
      obtain ⟨seq₀, hs₀, hcache⟩ := built'.old k seq' hk
      rw [← hcache]
      exact fun heq => hkj (ready.assigned.own k j seq₀ seq hs₀ hs heq)
    refine ⟨submitted, rest, hsub.other visited hji ?_ hown (hrequeued j hji)⟩
    -- its slot is not the one of the turn, also when the sequence itself is gone
    rcases Building.visit_some hvisit with ⟨-, rfl⟩ | ⟨seq', hs', rfl⟩ | ⟨seq', seq'', turn⟩
    · rfl
    · rw [(Server.removeSequence_eq hs' env .length).2.1, InputCache.slot_setSlot, if_neg]
      rintro ⟨heq, -⟩
      rw [hseq] at hs'
      exact hji (ready.assigned.own j i seq seq' hs hs' heq)
    · have before := turn.before
      obtain ⟨b₁, hadd, rfl⟩ := turn.building
      apply (Building.added_addInputs hadd).other
      intro heq
      rw [hseq] at before
      exact hji (ready.assigned.own j i seq seq' hs before heq)
  have fresh (hrequeued : ∀ j, j ≠ i → requeuedFor j b'.requeued = requeuedFor j b.requeued)
      (j : Nat) (hj : j ∉ done ++ [i]) : requeuedFor j b'.requeued = [] := by
    rw [hrequeued j fun heq => hj (by simp [heq])]
    exact h.fresh j fun hj' => hj (by simp [hj'])
  rcases Building.visit_some hvisit with ⟨hnone, rfl⟩ | ⟨seq, hs, rfl⟩ | ⟨seq, seq', turn⟩
  · refine ⟨?_, fresh fun _ _ => rfl⟩
    intro j hj seq hs
    by_cases hji : j = i
    · subst hji
      rw [hseq, hs] at hnone
      cases hnone
    · exact h.submission j (done_of hj hji) seq hs
  · have visited := Building.removed_visited env built.assigned hs
    refine ⟨?_, fresh fun _ _ => rfl⟩
    intro j hj seq₀ hs₀
    by_cases hji : j = i
    · subst hji
      have hsame : seq₀ = seq := by
        rw [hseq, hs₀] at hs
        exact Option.some.inj hs
      subst hsame
      have hgone : (b.server.removeSequence env j .length).seq j = none := by
        rw [Server.removeSequence_seq hs, if_pos rfl]
      refine ⟨[], seq₀.inputs, ?_, ?_, ?_, .inr ⟨hgone, rfl, h.fresh j hi⟩, ?_⟩
      · change b.batch.of _ = _
        rw [built.pending j seq₀ hs, ready.idle j seq₀ hs₀]
        rfl
      · change requeuedFor j b.requeued ++ _ = _
        rw [h.fresh j hi]
      · intro _ p inp hp
        cases hp
      · intro _ seq' hs'
        rw [hgone] at hs'
        cases hs'
    · exact earlier visited (fun _ _ => rfl) (done_of hj hji) hji hs₀
  · have before := turn.before
    have hs₀ : s.seq i = some seq := by rw [← hseq, before]
    have idle := ready.idle i seq hs₀
    have hkeep : seq.numKeep < b.server.cache.numCtx := by
      rw [built.numCtx]
      exact ready.numKeep i seq hs₀
    have hfits : Fits b.server.cache.numCtx (b.server.cache.slot seq.cache).inputs seq.inputs := by
      rw [built.numCtx, hslot seq hs₀]
      exact ready.fits i seq hs₀
    have visited := turn.visited built.assigned idle
    have hrequeued (j : Nat) (hji : j ≠ i) :
        requeuedFor j b'.requeued = requeuedFor j b.requeued :=
      Building.requeued_visit turn built.assigned idle hkeep hfits hji
    refine ⟨?_, fresh hrequeued⟩
    intro j hj seq₀ hsj
    by_cases hji : j = i
    · subst hji
      have hsame : seq₀ = seq := by
        rw [hs₀] at hsj
        exact (Option.some.inj hsj).symm
      subst hsame
      have hof : b.batch.of seq₀.cache = [] := by
        rw [built.pending j seq₀ before, idle]
        rfl
      exact turn.submission built.assigned idle (ready.queued j seq₀ hs₀) hkeep hfits hof
        (h.fresh j hi)
    · exact earlier visited hrequeued (done_of hj hji) hji hsj

/-! ### The size of a batch -/

theorem Building.visit_le {ops : KvOps K} {env : Env} {i bound : Nat} {b b' : Building K}
    (h : b.visit ops env i = some b') (hsize : b.server.batchSize ≤ bound)
    (hseq : ∀ seq, b.server.seq i = some seq → ∀ inp ∈ seq.inputs, 1 + inp.sameBatch ≤ bound)
    (hb : b.batch.entries.length ≤ bound) : b'.batch.entries.length ≤ bound := by
  rcases visit_some h with ⟨-, rfl⟩ | ⟨seq, hs, rfl⟩ | ⟨seq, seq', turn⟩
  · exact hb
  · exact hb
  · have before := turn.before
    obtain ⟨b₁, hadd, rfl⟩ := turn.building
    have := addInputs_le hadd hsize (hseq seq before) hb
    exact this

def Server.largestSameBatch (s : Server K) : Nat :=
  ((s.seqs.filterMap id).flatMap fun seq => seq.inputs.map (·.sameBatch)).foldr max 0

theorem le_foldr_max {l : List Nat} {a : Nat} (h : a ∈ l) : a ≤ l.foldr max 0 := by
  induction l with
  | nil => cases h
  | cons x l ih =>
    rw [List.foldr_cons]
    rcases List.mem_cons.mp h with rfl | h
    · exact Nat.le_max_left _ _
    · exact (ih h).trans (Nat.le_max_right _ _)

theorem Server.sameBatch_le {s : Server K} {i : Nat} {seq : Sequence} (h : s.seq i = some seq)
    {inp : Input} (hinp : inp ∈ seq.inputs) : inp.sameBatch ≤ s.largestSameBatch := by
  apply le_foldr_max
  rw [List.mem_flatMap]
  refine ⟨seq, ?_, List.mem_map_of_mem hinp⟩
  rw [List.mem_filterMap]
  rw [seq_eq_some] at h
  exact ⟨some seq, List.mem_of_getElem? h, rfl⟩

/-- What a batch holds of the sequences of `s`. -/
structure Server.Submits (s : Server K) (b : Building K) : Prop where
  length_le : b.batch.entries.length ≤ max s.batchSize (1 + s.largestSameBatch)
  submission : ∀ i seq, s.seq i = some seq → ∃ submitted rest, Submission b i seq submitted rest

theorem Server.Ready.submits {ops : KvOps K} {env : Env} {s : Server K} {b : Building K}
    (ready : s.Ready) (h : s.buildBatch ops env = some b) :
    s.Submits b ∧ Built s s.order b := by
  have submitting := Server.buildBatch_invariant (I := fun done b => Submitting s done b ∧
    b.batch.entries.length ≤ max s.batchSize (1 + s.largestSameBatch)) ready.assigned ready.idle
    ⟨⟨by simp, fun _ _ => rfl⟩, Nat.zero_le _⟩ (by
      rintro done i b b' built hi ⟨hsub, hle⟩ hvisit
      refine ⟨hsub.visit ready built hi hvisit, Building.visit_le hvisit ?_ ?_ hle⟩
      · rw [built.batchSize]
        exact Nat.le_max_left _ _
      · intro seq hs inp hinp
        rw [(built.fresh i hi).1] at hs
        have := Server.sameBatch_le hs hinp
        omega) h
  obtain ⟨nextSeq, b₁, rfl, built, hsub, hle⟩ := submitting
  constructor
  · refine ⟨hle, ?_⟩
    intro i seq hs
    obtain ⟨submitted, rest, hsub⟩ :=
      hsub.submission i (Server.mem_order.mpr (Server.lt_of_seq hs)) seq hs
    refine ⟨submitted, rest, hsub.entries, hsub.queue, hsub.whole, ?_, hsub.output⟩
    rcases hsub.kept with ⟨seq', hkept⟩ | hgone
    · exact .inl ⟨seq', hkept.here, hkept.eq, hkept.fits⟩
    · exact .inr hgone
  · have same : b₁.server.SameUse { b₁.server with nextSeq } :=
      ⟨.refl _, rfl, fun _ => rfl, rfl⟩
    exact ⟨built.assigned.congr same, built.length, built.batchSize, built.numCtx, built.fresh,
      built.old, built.pending, built.owner⟩

end Ecco9.Runner
