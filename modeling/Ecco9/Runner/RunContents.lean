import Ecco9.Runner.Contents

/-! Runs of the server over a plain causal cache: whatever was loaded, batched, shifted and removed
before, a prompt is loaded over exactly the rows of its own inputs, which are those the slot keeps. -/

universe u

namespace Ecco9.Runner

open Ecco9.Library Ecco9.KvCache

theorem Input.same_trans {a b c : Input} (h : a.same b = true) (h' : b.same c = true) :
    a.same c = true := by
  simp only [Input.same, Bool.and_eq_true, decide_eq_true_eq] at h h' ⊢
  exact ⟨h.1.trans h'.1, h.2.trans h'.2⟩

/-- Rows computed for inputs serve for a prompt as far as these have a prefix in common. -/
theorem Computed.take {copies copies' : List (Int × Int)} {id id' : Int} {rows : List Row}
    {inputs prompt : List Input} (h : Computed copies id rows inputs)
    (origin : ∀ src, Origin copies src id → Origin copies' src id') {n : Nat}
    (hn : n ≤ countCommonPrefix inputs prompt) :
    Computed copies' id' (rows.take n) (prompt.take n) := by
  intro p inp hp
  have hlt : p < n := by
    by_contra hge
    rw [List.getElem?_take, if_neg hge] at hp
    cases hp
  rw [List.getElem?_take_of_lt hlt] at hp ⊢
  obtain ⟨x, y, hx, hy, hsame⟩ := same_of_lt_countCommonPrefix (Nat.lt_of_lt_of_le hlt hn)
  obtain ⟨e, he, hes, ho⟩ := h p x hx
  rw [hp] at hy
  obtain rfl := Option.some.inj hy
  exact ⟨e, he, Input.same_trans hes hsame, origin _ ho⟩

/-- What removing from the cache `kv` needs to know about it, and what it leaves of `c`'s. -/
structure Reusable (layers : Nat) (c : InputCache KvState) (i : Nat) (rows : List Row)
    (kv : KvState) : Prop where
  plain : kv.causal.Plain
  layered : Layered layers kv.causal
  holds : Holds kv.causal i rows
  length_le : (rows.length : Int) ≤ maxInt32
  other : ∀ k : Nat, k ≠ i → SameHeld c.cache.causal kv.causal k
  copies : ∀ e ∈ c.cache.copies, e ∈ kv.copies

theorem Layered.copyPrefix {layers : Nat} {c : Causal Row} (h : Layered layers c)
    (srcSeq dstSeq len : Int) : Layered layers (c.copyPrefix srcSeq dstSeq len) := by
  rcases h with ⟨hnil, hfree⟩ | h
  · refine .inl ⟨hnil, ?_⟩
    intro j
    have free := hfree j
    rw [CacheCell.free, List.isEmpty_iff] at free
    rw [Causal.copyPrefix_cell, CacheCell.free, List.isEmpty_iff, Causal.copyCell]
    simp [free]
  · exact .inr h

theorem CacheAgrees.own {layers : Nat} {c : InputCache KvState} (agrees : CacheAgrees layers c)
    {i : Nat} {rows : List Row} (here : SlotAgrees c i rows) :
    Reusable layers c i rows c.cache := by
  refine ⟨agrees.plain, agrees.layered, here.holds, ?_, fun _ _ => .refl _ _, fun _ h => h⟩
  have := here.length_le
  have := agrees.numCtx
  omega

theorem CacheAgrees.forked {layers : Nat} {maxGraphNodes : Int} {c : InputCache KvState}
    (agrees : CacheAgrees layers c) {i j : Nat} {rows : List Row} (here : SlotAgrees c j rows)
    (hne : j ≠ i) (m : Nat) : Reusable layers c i (rows.take m)
      ((causalOps layers maxGraphNodes).copyPrefix c.cache j i m) := by
  have hne' : (j : Int) ≠ i := by exact_mod_cast hne
  refine ⟨agrees.plain.congr rfl rfl, agrees.layered.copyPrefix _ _ _,
    here.holds.copyPrefix hne' m, ?_, ?_, fun _ h => List.mem_append_left _ h⟩
  · have := here.length_le
    have := agrees.numCtx
    have := List.length_take_le' m rows
    omega
  · intro k hk
    exact sameHeld_copyPrefix _ (by exact_mod_cast hk)

theorem Source.reusable {layers : Nat} {maxGraphNodes : Int} {c : InputCache KvState}
    (agrees : CacheAgrees layers c) {i : Nat} (hi : i < c.slots.length) {kv : KvState}
    (source : Source (causalOps layers maxGraphNodes) c i kv) :
    ∃ rows, Reusable layers c i rows kv := by
  cases source with
  | own =>
    obtain ⟨rows, here⟩ := agrees.slot i hi
    exact ⟨rows, agrees.own here⟩
  | forked j m hj hne =>
    obtain ⟨rows, here⟩ := agrees.slot j hj
    rw [agrees.id j hj, agrees.id i hi]
    exact ⟨rows.take m, agrees.forked here hne m⟩

/-- Removing from some position on never fails. -/
theorem Reusable.remove_ok {layers : Nat} {maxGraphNodes : Int} {c : InputCache KvState} {i : Nat}
    {rows : List Row} {kv : KvState} (h : Reusable layers c i rows kv) (n : Nat) :
    ((causalOps layers maxGraphNodes).remove kv i n maxInt32).2 = true := by
  have ok := (h.holds.bounds h.length_le).remove_ok n
  change (kv.causal.remove i n maxInt32).2.isNone = true
  rw [ok]
  rfl

theorem Reusable.cleared {layers : Nat} {maxGraphNodes : Int} {c : InputCache KvState} {i n : Nat}
    {rows : List Row} {kv kv' : KvState} (h : Reusable layers c i rows kv)
    (hn : n ≤ rows.length) (cleared : Cleared (causalOps layers maxGraphNodes) kv i n kv') :
    Reusable layers c i (rows.take n) kv' ∧ kv'.copies = kv.copies := by
  have hlen := h.length_le
  have htop : ((2147483647 : Nat) : Int) = maxInt32 := rfl
  cases cleared with
  | part _ _ hremove =>
    have hkv : kv' = { kv with causal := (kv.causal.remove i n maxInt32).1 } :=
      (congrArg (·.1) hremove).symm
    have ok := (h.holds.bounds hlen).remove_ok n
    have removed := h.plain.remove i n maxInt32
    subst hkv
    refine ⟨⟨removed.2, h.layered.remove h.plain _ _ _, ?_, ?_, ?_, h.copies⟩, rfl⟩
    · rw [← htop] at ok hlen ⊢
      have := h.holds.remove h.plain hlen (b := n) (e := 2147483647) (by omega) (le_of_eq htop) ok
      rwa [List.drop_eq_nil_of_le (by omega), List.append_nil] at this
    · have := List.length_take_le' n rows
      omega
    · intro k hk
      refine (h.other k hk).trans (sameHeld_remove h.plain (by exact_mod_cast hk) ?_)
      rw [← htop] at hlen ⊢
      omega
  | all m _ hfail =>
    rw [h.remove_ok m] at hfail
    cases hfail

/-! ### A load -/

/-- A prompt is loaded into a free slot, which holds exactly the rows of the inputs it keeps, and
the slots in use are as before. -/
structure LoadsWell (c c' : InputCache KvState) (prompt : List Input) (i : Nat)
    (rest : List Input) : Prop where
  free : i < c.slots.length ∧ (c.slot i).inUse = false
  prompt : (c'.slot i).inputs ++ rest = prompt
  rest : rest ≠ []
  holds : ∃ rows, rows.length = (c'.slot i).inputs.length ∧
    Holds c'.cache.causal (c'.slot i).id rows ∧
    Computed c'.cache.copies (c'.slot i).id rows (c'.slot i).inputs
  others : ∀ k < c.slots.length, (c.slot k).inUse = true →
    c'.slot k = c.slot k ∧ SameHeld c.cache.causal c'.cache.causal (c.slot k).id

theorem Loaded.reused {layers : Nat} {maxGraphNodes : Int} {c c' : InputCache KvState}
    {prompt rest : List Input} {i : Nat} (agrees : CacheAgrees layers c)
    (loaded : Loaded (causalOps layers maxGraphNodes) c c' prompt i rest) :
    ∃ n < prompt.length, (c'.slot i).inputs = prompt.take n ∧ rest = prompt.drop n ∧
      ∃ rows, rows.length = n ∧ rows.length ≤ c.numCtx ∧ Reusable layers c i rows c'.cache ∧
        Computed c'.cache.copies i rows (prompt.take n) := by
  have hi := loaded.occupied.lt
  obtain ⟨n, hn, hinputs, hrest, resumed⟩ := loaded.resumed
  refine ⟨n, hn, hinputs, hrest, ?_⟩
  generalize c'.cache = kv at resumed
  cases resumed with
  | own _ hle cleared =>
    obtain ⟨rows, here⟩ := agrees.slot i hi
    rw [agrees.id i hi] at cleared
    have hrows : n ≤ rows.length :=
      hle.trans ((countCommonPrefix_le_left _ _).trans here.computed.length_le)
    obtain ⟨reusable, hcopies⟩ := (agrees.own here).cleared hrows cleared
    have hlen : (rows.take n).length = n := List.length_take_of_le hrows
    refine ⟨rows.take n, hlen, ?_, reusable, ?_⟩
    · rw [hlen]
      exact hrows.trans here.length_le
    · rw [hcopies]
      exact here.computed.take (fun _ h => h) hle
  | forked j m _ hj hne hm hle cleared =>
    obtain ⟨rows, here⟩ := agrees.slot j hj
    rw [agrees.id i hi, agrees.id j hj] at cleared
    have hrows : m ≤ rows.length := by
      rw [hm]
      exact (countCommonPrefix_le_left _ _).trans here.computed.length_le
    have hlenM : (rows.take m).length = m := List.length_take_of_le hrows
    obtain ⟨reusable, hcopies⟩ := (agrees.forked here hne m).cleared (by rw [hlenM]; exact hle)
      cleared
    rw [List.take_take, Nat.min_eq_left hle] at reusable
    have hlen : (rows.take n).length = n := List.length_take_of_le (hle.trans hrows)
    refine ⟨rows.take n, hlen, ?_, reusable, ?_⟩
    · rw [hlen]
      exact (hle.trans hrows).trans here.length_le
    · rw [hcopies]
      refine here.computed.take ?_ (hle.trans hm.le)
      intro src origin
      refine (origin.mono fun _ h => List.mem_append_left _ h).tail ?_
      exact List.mem_append_right _ (List.mem_singleton.mpr rfl)

theorem CacheAgrees.loaded {layers : Nat} {maxGraphNodes : Int} {c c' : InputCache KvState}
    {prompt rest : List Input} {i : Nat} (agrees : CacheAgrees layers c)
    (loaded : Loaded (causalOps layers maxGraphNodes) c c' prompt i rest) :
    CacheAgrees layers c' ∧ LoadsWell c c' prompt i rest := by
  have occupied := loaded.occupied
  obtain ⟨n, hn, hinputs, hrest, rows, hlen, hle, reusable, computed⟩ := loaded.reused agrees
  have hid : (c'.slot i).id = i := occupied.id.trans (agrees.id i occupied.lt)
  have hsize : rows.length = (c'.slot i).inputs.length := by
    rw [hinputs, List.length_take, hlen]
    omega
  constructor
  · refine ⟨reusable.plain, reusable.layered, ?_, ?_, ?_⟩
    · rw [occupied.numCtx]
      exact agrees.numCtx
    · intro k hk
      rw [occupied.length] at hk
      by_cases hki : k = i
      · rw [hki]
        exact hid
      · rw [occupied.other k hki]
        exact agrees.id k hk
    · intro k hk
      rw [occupied.length] at hk
      by_cases hki : k = i
      · subst hki
        refine ⟨rows, reusable.holds, ?_, ?_, fun _ => hsize⟩
        · rw [occupied.numCtx]
          exact hle
        · rw [hinputs]
          exact computed
      · obtain ⟨rows', here⟩ := agrees.slot k hk
        exact ⟨rows', here.congr occupied.numCtx reusable.copies (reusable.other k hki)
          (occupied.other k hki)⟩
  · refine ⟨⟨occupied.lt, occupied.free⟩, ?_, ?_, ⟨rows, hsize, ?_, ?_⟩, ?_⟩
    · rw [hinputs, hrest, List.take_append_drop]
    · rw [hrest]
      intro hnil
      have := congrArg List.length hnil
      rw [List.length_drop, List.length_nil] at this
      omega
    · rw [hid]
      exact reusable.holds
    · rw [hid, hinputs]
      exact computed
    · intro k hk huse
      have hki : k ≠ i := by
        rintro rfl
        rw [occupied.free] at huse
        cases huse
      rw [agrees.id k hk]
      exact ⟨occupied.other k hki, reusable.other k hki⟩

/-- While a slot is free, a prompt is loaded. -/
theorem CacheAgrees.load {layers : Nat} (maxGraphNodes : Int) {c : InputCache KvState}
    (agrees : CacheAgrees layers c)
    (clock : ∀ k < c.slots.length, (c.slot k).lastUsed < c.now)
    (free : ∃ k < c.slots.length, (c.slot k).inUse = false) {prompt : List Input}
    (hprompt : prompt ≠ []) : ∃ c' i rest,
      c.loadCacheSlot (causalOps layers maxGraphNodes) prompt = (c', some (i, rest)) ∧
        LoadsWell c c' prompt i rest := by
  cases h : c.loadCacheSlot (causalOps layers maxGraphNodes) prompt with
  | mk c' found =>
    cases found with
    | some found =>
      obtain ⟨i, rest⟩ := found
      exact ⟨c', i, rest, rfl, (agrees.loaded (InputCache.loadCacheSlot_some hprompt h)).2⟩
    | none =>
      exfalso
      rcases InputCache.loadCacheSlot_none h with ⟨-, hall⟩ | ⟨i, occupied, kv, source, n, hfail⟩
      · obtain ⟨k, hk, hfree⟩ := free
        rw [hall clock k hk] at hfree
        cases hfree
      · obtain ⟨rows, reusable⟩ := source.reusable agrees occupied.lt
        rw [agrees.id i occupied.lt, reusable.remove_ok n] at hfail
        cases hfail

/-! ### Runs -/

/-- The causal cache of a model. Rotating a row does not change what it was computed for; without
`shift` the model cannot rotate at all. -/
def plainCache (shift : Option (Nat → Bool)) : Causal Row :=
  newCausalCache (shift.map fun fails => { rotate := fun _ row _ => row, fails })

theorem plainCache_init {shift : Option (Nat → Bool)} {config : CacheConfig}
    {maxSequences capacity maxBatch : Nat} {causal : Causal Row}
    (h : (plainCache shift).init config maxSequences capacity maxBatch = some causal) :
    causal.Plain ∧ causal.tensors = [] ∧ ∀ j, (causal.cell j).free = true := by
  simp only [Causal.init, Option.ite_none_left_eq_some] at h
  obtain ⟨-, h⟩ := h
  obtain rfl := Option.some.inj h
  refine ⟨⟨?_, ?_⟩, rfl, ?_⟩
  · simp [plainCache, newCausalCache]
  · intro fn hfn l x offset
    obtain ⟨fails, -, rfl⟩ := Option.map_eq_some_iff.mp hfn
    rfl
  · intro j
    rw [Causal.cell]
    rcases getD_mem_or _ j with h | h
    · rw [List.eq_of_mem_replicate h]
      rfl
    · rw [h]
      rfl

theorem Holds.empty {c : Causal Row} (h : ∀ j, (c.cell j).free = true) (id : Int) :
    Holds c id [] :=
  ⟨held_of_free h id _, fun _ _ => held_of_free h id _, fun _ _ => held_of_free h id _⟩

theorem CacheAgrees.new {shift : Option (Nat → Bool)} {config : CacheConfig}
    {maxSequences capacity maxBatch kvSize parallel : Nat} {multiUserCache : Bool}
    {causal : Causal Row} {c : InputCache KvState} (layers : Nat)
    (hinit : (plainCache shift).init config maxSequences capacity maxBatch = some causal)
    (hsize : (kvSize : Int) ≤ maxInt32)
    (hc : newInputCache { causal } kvSize parallel multiUserCache = some c) :
    CacheAgrees layers c := by
  obtain ⟨plain, htensors, hfree⟩ := plainCache_init hinit
  obtain ⟨hlen, hcache, hnum, -, hslot⟩ := newInputCache_some hc
  refine ⟨?_, ?_, ?_, ?_, ?_⟩
  · rw [hcache]
    exact plain
  · rw [hcache]
    exact .inl ⟨htensors, hfree⟩
  · rw [hnum]
    have := Nat.div_le_self kvSize parallel
    omega
  · intro k hk
    rw [hslot k (hlen ▸ hk)]
  · intro k hk
    rw [hlen] at hk
    refine ⟨[], ?_, Nat.zero_le _, ?_, ?_⟩
    · rw [hcache]
      exact Holds.empty hfree k
    · rw [hslot k hk]
      intro p inp hp
      cases hp
    · rw [hslot k hk]
      exact fun _ => rfl

/-! ### What a run keeps -/

/-- What holds between the steps of a run. -/
structure Server.Agrees (layers : Nat) (s : Server KvState) : Prop where
  cache : CacheAgrees layers s.cache
  assigned : s.Assigned
  used : s.Used
  idle : ∀ i seq, s.seq i = some seq → seq.pendingInputs = []

theorem Server.Agrees.withAcquired {layers n : Nat} {s : Server KvState} (agrees : s.Agrees layers)
    (h1 : s.active ≤ n) (h2 : n ≤ s.seqs.length) : Server.Agrees layers { s with acquired := n } :=
  ⟨agrees.cache, agrees.assigned.withAcquired h1 h2, agrees.used, agrees.idle⟩

/-- While a place is left, so is a slot. -/
theorem Server.Agrees.free {layers : Nat} {s : Server KvState} (agrees : s.Agrees layers)
    (hactive : s.active < s.acquired) :
    ∃ k < s.cache.slots.length, (s.cache.slot k).inUse = false := by
  by_contra hnot
  have all : ∀ slot ∈ s.cache.slots, slot.inUse = true := by
    intro slot hmem
    obtain ⟨k, hk, rfl⟩ := List.mem_iff_getElem.mp hmem
    by_contra huse
    refine hnot ⟨k, hk, ?_⟩
    have here : s.cache.slot k = s.cache.slots[k] := by simp [InputCache.slot, hk]
    rw [here]
    exact Bool.eq_false_iff.mpr huse
  have hcount := agrees.assigned.count agrees.used
  rw [List.countP_eq_length.mpr all, agrees.assigned.length] at hcount
  have := agrees.assigned.acquired_le
  omega

/-- Every prompt is loaded for which there is a place. -/
theorem Server.Agrees.loads {layers : Nat} (maxGraphNodes : Int) {s : Server KvState}
    (agrees : s.Agrees layers) (hactive : s.active < s.acquired) {prompt : List Input}
    (hprompt : prompt ≠ []) : ∃ c' i rest,
      s.cache.loadCacheSlot (causalOps layers maxGraphNodes) prompt = (c', some (i, rest)) ∧
        LoadsWell s.cache c' prompt i rest :=
  agrees.cache.load maxGraphNodes agrees.assigned.clock (agrees.free hactive) hprompt

theorem Server.Agrees.completed {layers : Nat} {maxGraphNodes : Int} {s s' : Server KvState}
    {seq : Sequence} {i : Option Nat} (agrees : s.Agrees layers)
    (hpending : seq.pendingInputs = []) (hne : seq.inputs ≠ []) (hactive : s.active < s.acquired)
    (h : Completed (causalOps layers maxGraphNodes) s seq s' i) : s'.Agrees layers := by
  have hle := agrees.assigned.acquired_le
  cases h with
  | full => exact agrees.withAcquired (by omega) (by omega)
  | failed cache hload =>
    -- there is a free slot, and nothing fails
    obtain ⟨c', k, rest, hok, -⟩ := agrees.loads maxGraphNodes hactive hne
    rw [hload] at hok
    cases (Prod.mk.inj hok).2
  | loaded i k cache rest hi hnone loaded =>
    have occupied := loaded.occupied
    have here : Server.seq (Server.setSeq { s with cache } i
        (some { seq with cache := k, inputs := rest })) i =
          some { seq with cache := k, inputs := rest } := Server.seq_setSeq_self hi _
    refine ⟨(agrees.cache.loaded loaded).1, loaded.assigned agrees.assigned hi hnone hactive seq,
      ?_, ?_⟩
    · intro k' hk' huse
      by_cases hkk : k' = k
      · exact ⟨i, _, here, hkk.symm⟩
      · change (cache.slot k').inUse = true at huse
        rw [occupied.other k' hkk] at huse
        have hlt : k' < s.cache.slots.length := occupied.length ▸ hk'
        obtain ⟨j, seq', hs', hcache⟩ := agrees.used k' hlt huse
        have hji : j ≠ i := by
          rintro rfl
          rw [hnone] at hs'
          cases hs'
        exact ⟨j, seq', (Server.seq_setSeq_of_ne _ hji _).trans hs', hcache⟩
    · intro j seq' hs'
      by_cases hji : j = i
      · rw [hji, here] at hs'
        obtain rfl := Option.some.inj hs'
        exact hpending
      · rw [Server.seq_setSeq_of_ne _ hji] at hs'
        exact agrees.idle j seq' hs'

theorem Event.step_agrees {layers : Nat} {maxGraphNodes : Int} {r r' : Server KvState × History}
    {e : Event} (h : e.step (causalOps layers maxGraphNodes) r = some r')
    (request : ∀ seq, e = .completion seq → seq.pendingInputs = [] ∧ seq.inputs ≠ [])
    (undisturbed : ∀ env, e = .processBatch env → Undisturbed layers maxGraphNodes r.1 env)
    (agrees : r.1.Agrees layers) : r'.1.Agrees layers := by
  cases e with
  | acquire =>
    obtain ⟨s', hs', rfl⟩ := Option.map_eq_some_iff.mp h
    unfold Server.acquire at hs'
    split at hs'
    · rename_i hlt
      obtain rfl := Option.some.inj hs'
      have hle := agrees.assigned.active_le
      exact agrees.withAcquired (by omega) hlt
    · cases hs'
  | completion seq =>
    obtain ⟨hpending, hne⟩ := request seq rfl
    rw [step] at h
    split at h
    · rename_i hactive
      split at h
      all_goals
        rename_i hcompletion
        obtain rfl := Option.some.inj h
        exact agrees.completed hpending hne hactive (Server.completion_completed hne hcompletion)
    · cases h
  | processBatch env =>
    rw [step] at h
    split at h
    · cases h
    · obtain ⟨p, hp, rfl⟩ := Option.map_eq_some_iff.mp h
      obtain ⟨cache, assigned, used, idle⟩ := agrees.cache.processBatch agrees.assigned agrees.used
        agrees.idle (undisturbed env rfl) (Server.processBatch_some hp)
      exact ⟨cache, assigned, used, idle⟩

/-- In the run of `events`, no batch leads to a defragmentation that mixes up rows. -/
def UndisturbedRun (layers : Nat) (maxGraphNodes : Int) (cache : KvState)
    (kvSize parallel batchSize : Nat) (multiUserCache : Bool) (events : List Event) : Prop :=
  ∀ before env after r, events = before ++ .processBatch env :: after →
    run (causalOps layers maxGraphNodes) cache kvSize parallel batchSize multiUserCache before =
      some r → Undisturbed layers maxGraphNodes r.1 env

section Runs

variable {shift : Option (Nat → Bool)} {config : CacheConfig} {kvSize parallel batchSize : Nat}
  {causal : Causal Row} {layers : Nat} {maxGraphNodes : Int} {multiUserCache : Bool}
  {events : List Event} {s : Server KvState} {h : History}

theorem run_agrees
    (hinit : (plainCache shift).init config parallel (kvSize / parallel) batchSize = some causal)
    (hsize : (kvSize : Int) ≤ maxInt32)
    (hrun : run (causalOps layers maxGraphNodes) { causal } kvSize parallel batchSize multiUserCache
      events = some (s, h))
    (requests : ∀ seq, .completion seq ∈ events → seq.pendingInputs = [] ∧ seq.inputs ≠ [])
    (undisturbed : UndisturbedRun layers maxGraphNodes { causal } kvSize parallel batchSize
      multiUserCache events) : s.Agrees layers := by
  rw [UndisturbedRun] at undisturbed
  unfold run at hrun undisturbed
  split at hrun
  · cases hrun
  · rename_i c hc
    obtain ⟨hlen, -, -, hnow, hslot⟩ := newInputCache_some hc
    rw [hc] at undisturbed
    dsimp only at undisturbed
    have keeps := foldlM_progress (I := fun done r =>
      done.foldlM (Event.step (causalOps layers maxGraphNodes))
        (newServer c parallel batchSize, fun _ => {}) = some r ∧ r.1.Agrees layers) ?_ hrun ?_
    · exact keeps.2
    · rintro done e todo r r' hevents ⟨hdone, agrees⟩ hstep
      refine ⟨?_, ?_⟩
      · rw [List.foldlM_append, hdone]
        simpa using hstep
      · refine Event.step_agrees hstep ?_ ?_ agrees
        · rintro seq rfl
          exact requests seq (by simp [hevents])
        · rintro env rfl
          exact undisturbed done env todo r hevents hdone
    · have ready := Server.new_ready c parallel batchSize hlen (fun k hk => by rw [hslot k hk])
        (fun k hk => by rw [hslot k hk, hnow]; exact Nat.one_pos)
      refine ⟨rfl, CacheAgrees.new layers hinit hsize hc, ready.assigned, ?_, ready.idle⟩
      intro k hk huse
      change (c.slot k).inUse = true at huse
      rw [hslot k (hlen ▸ hk)] at huse
      cases huse

/-- After every run in which no defragmentation mixes up rows, the slots in use are those of the
sequences, and a prompt that gets a place is loaded over the rows of its own inputs. -/
theorem run_loads
    (hinit : (plainCache shift).init config parallel (kvSize / parallel) batchSize = some causal)
    (hsize : (kvSize : Int) ≤ maxInt32)
    (hrun : run (causalOps layers maxGraphNodes) { causal } kvSize parallel batchSize multiUserCache
      events = some (s, h))
    (requests : ∀ seq, .completion seq ∈ events → seq.pendingInputs = [] ∧ seq.inputs ≠ [])
    (undisturbed : UndisturbedRun layers maxGraphNodes { causal } kvSize parallel batchSize
      multiUserCache events) :
    s.cache.slots.countP (·.inUse) = s.active ∧
      ∀ prompt ≠ [], s.active < s.acquired → ∃ c' i rest,
        s.cache.loadCacheSlot (causalOps layers maxGraphNodes) prompt = (c', some (i, rest)) ∧
          LoadsWell s.cache c' prompt i rest := by
  have agrees := run_agrees hinit hsize hrun requests undisturbed
  exact ⟨agrees.assigned.count agrees.used, fun _ hprompt hactive =>
    agrees.loads maxGraphNodes hactive hprompt⟩

end Runs

/-! ### A run that mixes up rows -/

/-- A model that ends every sequence at once. -/
def endings : Env := { nines with isEOS _ := true }

def tokens (prompt : List Int) : List Input := prompt.map fun token => { token }

def complete (prompt : List Int) : List Event := [.acquire, .completion (request (tokens prompt))]

/-- A prompt that is answered, and a place for the next one. -/
def oneAnswer : List Event := complete [10, 11] ++ [.processBatch endings, .acquire]

theorem oneAnswer_loads : ∃ causal r, (plainCache none).init ⟨1, 1⟩ 2 (8 / 2) 8 = some causal ∧
    run (causalOps 1 8) { causal } 8 2 8 false oneAnswer = some r ∧ r.1.active < r.1.acquired ∧
      r.1.cache.slots.countP (·.inUse) = r.1.active ∧
      ∀ prompt ≠ [], r.1.active < r.1.acquired → ∃ c' i rest,
        r.1.cache.loadCacheSlot (causalOps 1 8) prompt = (c', some (i, rest)) ∧
          LoadsWell r.1.cache c' prompt i rest := by
  obtain ⟨causal, hinit⟩ : ∃ causal, (plainCache none).init ⟨1, 1⟩ 2 (8 / 2) 8 = some causal :=
    ⟨_, rfl⟩
  obtain ⟨r, hr, hplace⟩ : ∃ r, run (causalOps 1 8) { causal } 8 2 8 false oneAnswer = some r ∧
      r.1.active < r.1.acquired := by
    obtain rfl := Option.some.inj hinit
    exact ⟨_, rfl, by decide⟩
  refine ⟨causal, r, hinit, hr, hplace, run_loads hinit (by decide) hr ?_ ?_⟩
  · intro seq hseq
    simp only [oneAnswer, complete, List.mem_append, List.mem_cons, List.not_mem_nil, reduceCtorEq,
      or_false, false_or, Event.completion.injEq] at hseq
    subst hseq
    decide
  · intro before env after r' hevents hrun b hb _
    have hbefore : before = complete [10, 11] ∧ env = endings := by
      rcases before with _ | ⟨_, _ | ⟨_, _ | ⟨_, _ | ⟨_, before⟩⟩⟩⟩
      all_goals simp [oneAnswer, complete] at hevents
      · simp [complete, hevents]
    obtain ⟨rfl, rfl⟩ := hbefore
    obtain rfl := Option.some.inj hinit
    obtain rfl := Option.some.inj hrun
    obtain rfl := Option.some.inj hb
    exact .inl (by decide)

/-- The third prompt has the cells of the second one moved to the front, two of them as a block. -/
def thirdPrompt : List Event :=
  complete [10, 11] ++ complete [20, 21, 22, 23] ++ [.processBatch endings] ++
    complete [30, 31, 32, 33] ++ [.processBatch endings, .acquire]

theorem Holds.row {c : Causal Row} {id : Int} {rows : List Row} (h : Holds c id rows)
    {t : LayerTensors Row} (ht : some t ∈ c.tensors) {p : Nat} {row : Row}
    (hheld : ((p : Int), row) ∈ held c.cells id t.key) : rows[p]? = some row := by
  have hmem := h.key t ht
  rw [HeldIs] at hmem
  rw [hmem, Multiset.mem_coe] at hheld
  obtain ⟨p', -, hpos, hrow⟩ := mem_rowsFrom hheld
  obtain rfl : p = p' := by omega
  exact hrow

/-- When the second prompt is sent again, the row at position 2 is that of another token. -/
theorem thirdPrompt_mixes : ∃ causal r, (plainCache none).init ⟨1, 1⟩ 2 (8 / 2) 8 = some causal ∧
    run (causalOps 1 8) { causal } 8 2 8 false thirdPrompt = some r ∧ r.1.active < r.1.acquired ∧
      ¬∃ c' i rest, r.1.cache.loadCacheSlot (causalOps 1 8) (tokens [20, 21, 22, 23]) =
        (c', some (i, rest)) ∧ LoadsWell r.1.cache c' (tokens [20, 21, 22, 23]) i rest := by
  refine ⟨_, _, rfl, rfl, by decide, ?_⟩
  rintro ⟨c', i, rest, hload, well⟩
  obtain ⟨rfl, hfound⟩ := Prod.mk.inj hload
  obtain ⟨rfl, rfl⟩ := Prod.mk.inj (Option.some.inj hfound)
  obtain ⟨rows, -, holds, computed⟩ := well.holds
  have hrow : rows[2]? = some (some ⟨{ token := 23 }, 3, 1⟩) :=
    holds.row (p := 2) List.mem_cons_self (by decide)
  obtain ⟨e, he, hsame, -⟩ := computed 2 { token := 22 } (by decide)
  rw [hrow] at he
  obtain rfl := Option.some.inj (Option.some.inj he)
  revert hsame
  decide

end Ecco9.Runner
