import Ecco9.Runner.Submit

/-! What becomes of the sequences after `Forward`. -/

universe u

namespace Ecco9.Runner

open Ecco9.Library

/-- The server after the pending inputs of a sequence are counted as cached. -/
def Server.fed (s : Server K) (i : Nat) (seq : Sequence) : Server K :=
  let cache := s.cache.setInputs seq.cache
    ((s.cache.slot seq.cache).inputs ++ seq.pendingInputs)
  Server.setSeq { s with cache } i (some { seq with pendingInputs := [] })

@[simp] theorem Server.seq_withCache (s : Server K) (cache : InputCache K) (i : Nat) :
    Server.seq { s with cache } i = s.seq i := rfl

theorem Server.sameUse_setInputs (s : Server K) (k : Nat) (inputs : List Input) :
    s.SameUse { s with cache := s.cache.setInputs k inputs } :=
  ⟨s.cache.sameUse_setInputs k inputs s.cache.cache, rfl, fun _ => rfl, rfl⟩

theorem Server.sameUse_fed {s : Server K} {i : Nat} {seq : Sequence} (h : s.seq i = some seq) :
    s.SameUse (s.fed i seq) :=
  (s.sameUse_setInputs _ _).trans (sameUse_setSeq ((s.seq_withCache _ i).trans h) rfl)

/-- The sequence once a token is sampled for it. -/
def Sequence.sampled (seq : Sequence) (token : Int) (stream : Stream) : Sequence :=
  { seq with
    toStream := stream, inputs := [{ token := token }], pendingInputs := []
    numPredicted := seq.numPredicted + 1 }

/-- How the turn of a sequence after `Forward` ends. -/
inductive Ending (env : Env) (i : Nat) (f f' : Finishing K) (seq : Sequence) : Prop
  | waits : seq.inputs ≠ [] → f'.server = f.server.fed i seq → f'.sampled = f.sampled →
      Ending env i f f' seq
  | goesOn (seq' : Sequence) (token : Int) : seq.inputs = [] →
      f'.server = (f.server.fed i seq).setSeq i (some seq') → seq'.cache = seq.cache →
      seq'.pendingInputs = [] → seq'.inputs = [{ token := token }] →
      seq'.numKeep = seq.numKeep → f'.sampled = f.sampled ++ [(i, { token := token })] →
      Ending env i f f' seq
  | ends (seq' : Sequence) (reason : DoneReason) (inputs : List Input) : seq.inputs = [] →
      seq'.cache = seq.cache →
      inputs <+: (f.server.cache.slot seq.cache).inputs ++ seq.pendingInputs →
      f'.server = { (f.server.fed i seq).setSeq i (some seq') with
        cache := (f.server.fed i seq).cache.setInputs seq.cache inputs }.removeSequence env i
          reason →
      (f'.sampled = f.sampled ∨ ∃ inp, f'.sampled = f.sampled ++ [(i, inp)]) →
      Ending env i f f' seq

@[simp] theorem Server.setSeq_setSeq (s : Server K) (i : Nat) (x y : Option Sequence) :
    (s.setSeq i x).setSeq i y = s.setSeq i y := by
  simp [setSeq]

theorem InputCache.setInputs_eq {c : InputCache K} {k : Nat} (hk : k < c.slots.length) :
    c.setInputs k (c.slot k).inputs = c := by
  have : c.slots.modify k (fun s => { s with inputs := (c.slot k).inputs }) = c.slots := by
    apply List.ext_getElem?
    intro j
    rw [List.getElem?_modify]
    split
    · rename_i h
      subst h
      simp [slot, hk]
    · simp
  rw [setInputs, setSlot, this]

theorem InputCache.setInputs_setInputs (c : InputCache K) (k : Nat) (l l' : List Input) :
    (c.setInputs k l).setInputs k l' = c.setInputs k l' := by
  simp only [setInputs, setSlot, List.modify_modify_eq]
  rfl

theorem inputsAtStop_isPrefix {inputs out : List Input} {origLen newLen : Nat} {cut : Bool}
    (h : inputsAtStop inputs origLen newLen cut = some out) : out <+: inputs := by
  unfold inputsAtStop at h
  dsimp only at h
  generalize (origLen - newLen + if cut || origLen = newLen then 1 else 0) = n at h
  split at h
  · cases h
  · obtain rfl := Option.some.inj h
    exact List.take_prefix ..

theorem Finishing.visit_none {env : Env} {outputs : List Nat} {f f' : Finishing K} {i : Nat}
    (h : f.visit env outputs i = some f') (hnone : f.server.seq i = none) : f' = f := by
  rw [visit, hnone] at h
  exact (Option.some.inj h).symm

/-- Removing a sequence, with the slot's inputs written as they are. -/
theorem Server.fed_self (s : Server K) (i : Nat) (seq seq' : Sequence) :
    (s.fed i seq).setSeq i (some seq') = { (s.fed i seq).setSeq i (some seq') with
      cache := (s.fed i seq).cache.setInputs seq.cache
        ((s.cache.slot seq.cache).inputs ++ seq.pendingInputs) } := by
  have : (s.fed i seq).cache = (s.fed i seq).cache.setInputs seq.cache
      ((s.cache.slot seq.cache).inputs ++ seq.pendingInputs) := by
    change s.cache.setInputs _ _ = (s.cache.setInputs _ _).setInputs _ _
    rw [InputCache.setInputs_setInputs]
  rw [← this]
  rfl

theorem Finishing.visit_some {env : Env} {outputs : List Nat} {f f' : Finishing K} {i : Nat}
    {seq : Sequence} (h : f.visit env outputs i = some f') (hs : f.server.seq i = some seq)
    (assigned : f.server.Assigned) : Ending env i f f' seq := by
  have hk := (assigned.slot i seq hs).1
  have fedSlot : ((f.server.fed i seq).cache.slot seq.cache).inputs =
      (f.server.cache.slot seq.cache).inputs ++ seq.pendingInputs := by
    change ((f.server.cache.setInputs _ _).slot _).inputs = _
    rw [InputCache.slot_setInputs_self hk]
  rw [visit, hs] at h
  dsimp only at h
  have ends (hempty : seq.inputs = []) (seq' : Sequence) (reason : DoneReason)
      (hcache : seq'.cache = seq.cache)
      (hserver : f'.server = ((f.server.fed i seq).setSeq i (some seq')).removeSequence env i
        reason)
      (hsampled : f'.sampled = f.sampled ∨ ∃ inp, f'.sampled = f.sampled ++ [(i, inp)]) :
      Ending env i f f' seq := by
    refine .ends seq' reason _ hempty hcache (List.prefix_refl _) ?_ hsampled
    rw [hserver, Server.fed_self]
  split at h
  · rename_i hne
    obtain rfl := Option.some.inj h
    exact .waits (fun h => hne (by simp [h])) rfl rfl
  · rename_i hempty
    have hempty : seq.inputs = [] := by simpa using hempty
    split at h
    · obtain rfl := Option.some.inj h
      exact ends hempty { seq with pendingInputs := [], numPredicted := seq.numPredicted + 1 } .stop
        rfl rfl (.inl rfl)
    · rw [Finishing.sample] at h
      dsimp only at h
      split at h
      · split at h
        · cases h
        · rename_i token htoken
          split at h
          · obtain rfl := Option.some.inj h
            exact ends hempty { seq with pendingInputs := [], numPredicted := seq.numPredicted + 1 }
              .stop rfl rfl (.inl rfl)
          · split at h
            · cases h
            · split at h
              · rename_i stream hpiece
                obtain rfl := Option.some.inj h
                exact .goesOn (seq.sampled token stream) token hempty (Server.setSeq_setSeq ..) rfl
                  rfl rfl rfl rfl
              · rename_i stream hpiece
                obtain rfl := Option.some.inj h
                refine ends hempty (seq.sampled token stream) .connectionClosed rfl ?_ (.inr ⟨_, rfl⟩)
                dsimp only
                rw [Server.setSeq_setSeq]
                rfl
              · rename_i stream origLen cut hpiece
                split at h
                · cases h
                · rename_i inputs hinputs
                  obtain rfl := Option.some.inj h
                  have hpre := inputsAtStop_isPrefix hinputs
                  refine .ends (seq.sampled token stream) .stop inputs hempty rfl ?_ ?_ (.inr ⟨_, rfl⟩)
                  · rw [← fedSlot]
                    exact hpre
                  · dsimp only
                    rw [Server.setSeq_setSeq]
                    rfl
      · cases h

/-! ### One turn -/

/-- What has been sampled for sequence `i`. -/
def sampledFor (i : Nat) (sampled : List (Nat × Input)) : List Input :=
  (sampled.filter fun e => decide (e.1 = i)).map (·.2)

@[simp] theorem sampledFor_append (i : Nat) (l l' : List (Nat × Input)) :
    sampledFor i (l ++ l') = sampledFor i l ++ sampledFor i l' := by
  simp [sampledFor]

theorem sampledFor_one (i j : Nat) (inp : Input) :
    sampledFor i [(j, inp)] = if j = i then [inp] else [] := by
  by_cases h : j = i
  · simp [sampledFor, h]
  · simp [sampledFor, h]

/-- What the turns after `Forward` leave of a sequence that goes on. -/
structure Went (s : Server K) (f : Finishing K) (i : Nat) (seq seq' : Sequence) : Prop where
  here : s.seq i = some seq
  cache : seq'.cache = seq.cache
  numKeep : seq'.numKeep = seq.numKeep
  pending : seq'.pendingInputs = []
  slot : (f.server.cache.slot seq.cache).inputs =
    (s.cache.slot seq.cache).inputs ++ seq.pendingInputs
  inputs : seq.inputs ≠ [] ∧ seq'.inputs = seq.inputs ∧ sampledFor i f.sampled = [] ∨
    seq.inputs = [] ∧ ∃ token : Int, seq'.inputs = [{ token := token }] ∧
      sampledFor i f.sampled = [{ token := token }]

/-- The server `s` after the turns `done` of the loop that follows `Forward`. -/
structure Finished (s : Server K) (done : List Nat) (f : Finishing K) : Prop where
  assigned : f.server.Assigned
  length : f.server.seqs.length = s.seqs.length
  batchSize : f.server.batchSize = s.batchSize
  numCtx : f.server.cache.numCtx = s.cache.numCtx
  multiUserCache : f.server.cache.multiUserCache = s.cache.multiUserCache
  slots : f.server.cache.slots.length = s.cache.slots.length
  cache : f.server.cache.cache = s.cache.cache
  fresh : ∀ i, i ∉ done → f.server.seq i = s.seq i ∧ sampledFor i f.sampled = [] ∧
    ∀ seq, s.seq i = some seq → f.server.cache.slot seq.cache = s.cache.slot seq.cache
  went : ∀ i ∈ done, ∀ seq', f.server.seq i = some seq' → ∃ seq, Went s f i seq seq'
  kept : ∀ k, (f.server.cache.slot k).inputs = (s.cache.slot k).inputs ∨
    ∃ i seq, i ∈ done ∧ s.seq i = some seq ∧ seq.cache = k ∧
      (f.server.cache.slot k).inputs <+: (s.cache.slot k).inputs ++ seq.pendingInputs
  sampled : ∀ e ∈ f.sampled, ∃ seq, s.seq e.1 = some seq ∧ seq.inputs = []

/-- What one turn changes of the rest, and of the slot of its sequence. -/
structure Turned (i : Nat) (f f' : Finishing K) (seq : Sequence) : Prop where
  assigned : f'.server.Assigned
  used : f.server.Used → f'.server.Used
  length : f'.server.seqs.length = f.server.seqs.length
  batchSize : f'.server.batchSize = f.server.batchSize
  numCtx : f'.server.cache.numCtx = f.server.cache.numCtx
  multiUserCache : f'.server.cache.multiUserCache = f.server.cache.multiUserCache
  slots : f'.server.cache.slots.length = f.server.cache.slots.length
  cache : f'.server.cache.cache = f.server.cache.cache
  other : ∀ j, j ≠ i → f'.server.seq j = f.server.seq j
  slot : ∀ k, k ≠ seq.cache → f'.server.cache.slot k = f.server.cache.slot k
  inputs : (f'.server.cache.slot seq.cache).inputs <+:
    (f.server.cache.slot seq.cache).inputs ++ seq.pendingInputs
  sampled : f'.sampled = f.sampled ∨ seq.inputs = [] ∧ ∃ inp, f'.sampled = f.sampled ++ [(i, inp)]
  went : ∀ seq', f'.server.seq i = some seq' → seq'.cache = seq.cache ∧
    seq'.numKeep = seq.numKeep ∧ seq'.pendingInputs = [] ∧
    (f'.server.cache.slot seq.cache).inputs =
      (f.server.cache.slot seq.cache).inputs ++ seq.pendingInputs ∧
    (seq.inputs ≠ [] ∧ seq'.inputs = seq.inputs ∧ f'.sampled = f.sampled ∨
      seq.inputs = [] ∧ ∃ token : Int, seq'.inputs = [{ token := token }] ∧
        f'.sampled = f.sampled ++ [(i, { token := token })])

theorem Server.fed_seq {s : Server K} {i : Nat} {seq : Sequence} (h : s.seq i = some seq) :
    (s.fed i seq).seq i = some { seq with pendingInputs := [] } :=
  Server.seq_setSeq_self (lt_of_seq h) _

theorem Server.fed_slot {s : Server K} (i : Nat) {seq : Sequence}
    (hk : seq.cache < s.cache.slots.length) (k : Nat) : (s.fed i seq).cache.slot k =
      if k = seq.cache then { s.cache.slot k with
        inputs := (s.cache.slot k).inputs ++ seq.pendingInputs } else s.cache.slot k := by
  change (s.cache.setInputs _ _).slot k = _
  rw [InputCache.slot_setInputs]
  by_cases h : k = seq.cache
  · rw [if_pos ⟨h, hk⟩, if_pos h, h]
  · rw [if_neg fun h' => h h'.1, if_neg h]

theorem Ending.turned {env : Env} {i : Nat} {f f' : Finishing K} {seq : Sequence}
    (h : Ending env i f f' seq) (hs : f.server.seq i = some seq) (assigned : f.server.Assigned) :
    Turned i f f' seq := by
  have hk := (assigned.slot i seq hs).1
  have hi := Server.lt_of_seq hs
  have use := Server.sameUse_fed hs
  have fedSeq := Server.fed_seq hs
  have fedSlot := Server.fed_slot i hk
  have fedSelf := fedSlot seq.cache
  rw [if_pos rfl] at fedSelf
  have fedOther (j : Nat) (hj : j ≠ i) : (f.server.fed i seq).seq j = f.server.seq j :=
    Server.seq_setSeq_of_ne _ hj _
  cases h with
  | waits hne hserver hsampled =>
    refine ⟨?_, ?_, ?_, ?_, ?_, ?_, ?_, ?_, ?_, ?_, ?_, .inl hsampled, ?_⟩
    all_goals rw [hserver]
    · exact assigned.congr use
    · exact fun used => used.congr use
    · exact use.length
    · rfl
    · exact use.cache.numCtx
    · rfl
    · exact use.cache.length
    · rfl
    · exact fedOther
    · intro k hne
      rw [fedSlot, if_neg hne]
    · rw [fedSelf]
    · intro seq' hs'
      rw [fedSeq] at hs'
      obtain rfl := Option.some.inj hs'
      exact ⟨rfl, rfl, rfl, by rw [fedSelf], .inl ⟨hne, rfl, hsampled⟩⟩
  | goesOn seq' token hempty hserver hcache hpending hinputs hkeep hsampled =>
    have use' : f.server.SameUse ((f.server.fed i seq).setSeq i (some seq')) :=
      use.trans (Server.sameUse_setSeq fedSeq hcache)
    refine ⟨?_, ?_, ?_, ?_, ?_, ?_, ?_, ?_, ?_, ?_, ?_, .inr ⟨hempty, _, hsampled⟩, ?_⟩
    all_goals rw [hserver]
    · exact assigned.congr use'
    · exact fun used => used.congr use'
    · exact use'.length
    · rfl
    · exact use'.cache.numCtx
    · rfl
    · exact use'.cache.length
    · rfl
    · intro j hj
      exact (Server.seq_setSeq_of_ne _ hj _).trans (fedOther j hj)
    · intro k hne
      rw [Server.setSeq_cache, fedSlot, if_neg hne]
    · rw [Server.setSeq_cache, fedSelf]
    · intro seq'' hs'
      rw [Server.seq_setSeq_self (Server.lt_of_seq fedSeq)] at hs'
      obtain rfl := Option.some.inj hs'
      refine ⟨hcache, hkeep, hpending, ?_, .inr ⟨hempty, token, hinputs, hsampled⟩⟩
      rw [Server.setSeq_cache, fedSelf]
  | ends seq' reason inputs hempty hcache hpre hserver hsampled =>
    have put : (f.server.fed i seq).SameUse ((f.server.fed i seq).setSeq i (some seq')) :=
      Server.sameUse_setSeq fedSeq hcache
    have use' := (use.trans put).trans (Server.sameUse_setInputs _ seq.cache inputs)
    have hs' : Server.seq { (f.server.fed i seq).setSeq i (some seq') with
        cache := (f.server.fed i seq).cache.setInputs seq.cache inputs } i = some seq' :=
      Server.seq_setSeq_self (Server.lt_of_seq fedSeq) _
    have assigned' := assigned.congr use'
    have hk' := (assigned'.slot i seq' hs').1
    have gone := Server.removeSequence_seq hs' env reason
    have eqs := Server.removeSequence_eq hs' env reason
    have slot := Server.removeSequence_slot hs' hk' env reason
    have selfSlot (k : Nat) : ((f.server.fed i seq).cache.setInputs seq.cache inputs).slot k =
        if k = seq.cache then { (f.server.fed i seq).cache.slot k with inputs } else
          (f.server.fed i seq).cache.slot k := by
      rw [InputCache.slot_setInputs]
      by_cases h : k = seq.cache
      · rw [if_pos ⟨h, by rw [use.cache.length]; exact hk⟩, if_pos h, h]
      · rw [if_neg fun h' => h h'.1, if_neg h]
    refine ⟨?_, ?_, ?_, ?_, ?_, ?_, ?_, ?_, ?_, ?_, ?_, ?_, ?_⟩
    · rw [hserver]
      exact assigned'.removeSequence hs' env reason
    · rw [hserver]
      exact fun used => (used.congr use').removeSequence hs' hk' env reason
    · rw [hserver, eqs.1, List.length_set]
      exact use'.length
    · rw [hserver, Server.removeSequence_batchSize]
      rfl
    · rw [hserver, eqs.2.1]
      exact use'.cache.numCtx
    · rw [hserver, eqs.2.1]
      rfl
    · rw [hserver, eqs.2.1, InputCache.setSlot_length]
      exact use'.cache.length
    · rw [hserver, eqs.2.1]
      rfl
    · intro j hj
      rw [hserver, gone, if_neg hj]
      exact (Server.seq_setSeq_of_ne _ hj _).trans (fedOther j hj)
    · intro k hne
      rw [hserver, slot, hcache, if_neg hne, selfSlot, if_neg hne, fedSlot, if_neg hne]
    · rw [hserver, slot, hcache, if_pos rfl, selfSlot, if_pos rfl]
      exact hpre
    · rcases hsampled with h | h
      · exact .inl h
      · exact .inr ⟨hempty, h⟩
    · intro seq'' hs''
      rw [hserver, gone, if_pos rfl] at hs''
      cases hs''

/-! ### All turns -/

theorem Finished.start {s : Server K} (assigned : s.Assigned) : Finished s [] { server := s } :=
  ⟨assigned, rfl, rfl, rfl, rfl, rfl, rfl, fun _ _ => ⟨rfl, rfl, fun _ _ => rfl⟩, by simp,
    fun _ => .inl rfl, by simp⟩

theorem Turned.sampledFor_other {i j : Nat} {f f' : Finishing K} {seq : Sequence}
    (turned : Turned i f f' seq) (hj : j ≠ i) :
    sampledFor j f'.sampled = sampledFor j f.sampled := by
  rcases turned.sampled with h | ⟨-, inp, h⟩
  · rw [h]
  · rw [h, sampledFor_append, sampledFor_one, if_neg (Ne.symm hj), List.append_nil]

theorem Finished.skip {s : Server K} {done : List Nat} {f : Finishing K} {i : Nat}
    (finished : Finished s done f) (hnone : f.server.seq i = none) :
    Finished s (done ++ [i]) f :=
  { finished with
    fresh := fun j hj => finished.fresh j fun h => hj (by simp [h])
    went := by
      intro j hj seq' hs
      rcases List.mem_append.mp hj with hj | hj
      · exact finished.went j hj seq' hs
      · rw [List.mem_singleton.mp hj, hnone] at hs
        cases hs
    kept := by
      intro k
      rcases finished.kept k with h | ⟨j, seq, hj, hrest⟩
      · exact .inl h
      · exact .inr ⟨j, seq, by simp [hj], hrest⟩ }

theorem Finished.turned {s : Server K} {done : List Nat} {f f' : Finishing K} {i : Nat}
    {seq : Sequence} (finished : Finished s done f) (turned : Turned i f f' seq)
    (assigned : s.Assigned) (hs : s.seq i = some seq) (hi : i ∉ done) :
    Finished s (done ++ [i]) f' := by
  obtain ⟨hseq, hsampled, hslot⟩ := finished.fresh i hi
  have slotSelf := hslot seq hs
  have ne_of {j : Nat} (hj : j ∉ done ++ [i]) : j ∉ done ∧ j ≠ i := by simpa using hj
  refine ⟨turned.assigned, turned.length.trans finished.length,
    turned.batchSize.trans finished.batchSize, turned.numCtx.trans finished.numCtx,
    turned.multiUserCache.trans finished.multiUserCache, turned.slots.trans finished.slots,
    turned.cache.trans finished.cache, ?_, ?_, ?_, ?_⟩
  · intro j hj
    obtain ⟨hj, hji⟩ := ne_of hj
    obtain ⟨hseq', hsampled', hslot'⟩ := finished.fresh j hj
    refine ⟨(turned.other j hji).trans hseq', (turned.sampledFor_other hji).trans hsampled', ?_⟩
    intro seq' hs'
    rw [turned.slot, hslot' seq' hs']
    intro heq
    exact hji (assigned.own j i seq' seq hs' hs heq)
  · intro j hj seq' hs'
    by_cases hji : j = i
    · subst hji
      obtain ⟨hcache, hkeep, hpending, hinputs, hwent⟩ := turned.went seq' hs'
      refine ⟨seq, hs, hcache, hkeep, hpending, ?_, ?_⟩
      · rw [hinputs, slotSelf]
      · rcases hwent with ⟨hne, heq, hf⟩ | ⟨hempty, token, heq, hf⟩
        · exact .inl ⟨hne, heq, by rw [hf, hsampled]⟩
        · refine .inr ⟨hempty, token, heq, ?_⟩
          rw [hf, sampledFor_append, hsampled, sampledFor_one, if_pos rfl, List.nil_append]
    · have hj : j ∈ done := by
        rcases List.mem_append.mp hj with hj | hj
        · exact hj
        · exact absurd (List.mem_singleton.mp hj) hji
      rw [turned.other j hji] at hs'
      obtain ⟨seq₀, went⟩ := finished.went j hj seq' hs'
      refine ⟨seq₀, went.here, went.cache, went.numKeep, went.pending, ?_, ?_⟩
      · rw [turned.slot, went.slot]
        intro heq
        exact hji (assigned.own j i seq₀ seq went.here hs heq)
      · rw [turned.sampledFor_other hji]
        exact went.inputs
  · intro k
    by_cases hk : k = seq.cache
    · subst hk
      refine .inr ⟨i, seq, by simp, hs, rfl, ?_⟩
      rw [← slotSelf]
      exact turned.inputs
    · rw [turned.slot k hk]
      rcases finished.kept k with h | ⟨j, seq', hj, hrest⟩
      · exact .inl h
      · exact .inr ⟨j, seq', by simp [hj], hrest⟩
  · intro e he
    rcases turned.sampled with h | ⟨hempty, inp, h⟩
    · rw [h] at he
      exact finished.sampled e he
    · rw [h] at he
      rcases List.mem_append.mp he with he | he
      · exact finished.sampled e he
      · rw [List.mem_singleton.mp he]
        exact ⟨seq, hs, hempty⟩

theorem Finished.visit {env : Env} {outputs done : List Nat} {s : Server K} {f f' : Finishing K}
    {i : Nat} (finished : Finished s done f) (assigned : s.Assigned) (hi : i ∉ done)
    (h : f.visit env outputs i = some f') : Finished s (done ++ [i]) f' := by
  cases hs : f.server.seq i with
  | none =>
    rw [Finishing.visit_none h hs]
    exact finished.skip hs
  | some seq =>
    have turned := (Finishing.visit_some h hs finished.assigned).turned hs finished.assigned
    refine finished.turned turned assigned ?_ hi
    rw [← (finished.fresh i hi).1]
    exact hs

/-- An invariant of the turns of the loop after `Forward`. -/
theorem Server.visits_invariant {env : Env} {outputs l : List Nat} {s : Server K} {f : Finishing K}
    (assigned : s.Assigned) (nodup : l.Nodup) {I : List Nat → Finishing K → Prop}
    (start : I [] { server := s })
    (keep : ∀ done i f f', Finished s done f → i ∉ done → I done f →
      f.visit env outputs i = some f' → I (done ++ [i]) f')
    (h : l.foldlM (Finishing.visit env outputs) { server := s } = some f) :
    Finished s l f ∧ I l f := by
  refine foldlM_progress (I := fun done f => Finished s done f ∧ I done f) ?_ h
    ⟨.start assigned, start⟩
  rintro done i todo f f' hl ⟨finished, hI⟩ hvisit
  have hi := not_mem_done nodup hl
  exact ⟨finished.visit assigned hi hvisit, keep done i f f' finished hi hI hvisit⟩

/-- The loop after `Forward`, over a server whose sequences may have inputs pending. -/
theorem Server.finished_visits {env : Env} {outputs l : List Nat} {s : Server K} {f : Finishing K}
    (assigned : s.Assigned) (nodup : l.Nodup)
    (h : l.foldlM (Finishing.visit env outputs) { server := s } = some f) :
    Finished s l f ∧ (s.Used → f.server.Used) := by
  refine Server.visits_invariant assigned nodup (I := fun _ f => s.Used → f.server.Used) id ?_ h
  intro done i f f' finished hi used hvisit
  cases hs : f.server.seq i with
  | none =>
    rw [Finishing.visit_none hvisit hs]
    exact used
  | some seq =>
    have turned := (Finishing.visit_some hvisit hs finished.assigned).turned hs finished.assigned
    exact fun h => turned.used (used h)

end Ecco9.Runner
