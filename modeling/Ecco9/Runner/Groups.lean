import Ecco9.Runner.Serve

/-! Prompts whose inputs form groups, and where `LoadCacheSlot` lets such a prompt go on: it compares
inputs one by one, and knows nothing of the groups. -/

universe u

namespace Ecco9.Runner

open Ecco9.Library

/-- The first `n` inputs end strictly inside a group. -/
def Inside (inputs : List Input) (n : Nat) : Prop :=
  ∃ (p : Nat) (inp : Input), inputs[p]? = some inp ∧ p < n ∧ n ≤ p + inp.sameBatch

theorem not_inside_zero (inputs : List Input) : ¬Inside inputs 0 := by
  rintro ⟨p, inp, -, hp, -⟩
  exact Nat.not_lt_zero p hp

/-- Inputs of which the last group needs more end inside it. -/
theorem inside_of_needAfter {need : Nat} {taken : List Input} (rest : List Input)
    (h : needAfter need taken ≠ 0) :
    need = taken.length + needAfter need taken ∨ Inside (taken ++ rest) taken.length := by
  induction taken generalizing need with
  | nil => exact .inl (Nat.zero_add _).symm
  | cons inp taken ih =>
    have later (hin : Inside (taken ++ rest) taken.length) :
        Inside (inp :: taken ++ rest) (inp :: taken).length := by
      obtain ⟨p, x, hx, hlt, hle⟩ := hin
      refine ⟨p + 1, x, hx, Nat.succ_lt_succ hlt, ?_⟩
      rw [List.length_cons]
      omega
    cases need with
    | zero =>
      rw [needAfter] at h
      rcases ih h with heq | hin
      · refine .inr ⟨0, inp, rfl, Nat.succ_pos _, ?_⟩
        rw [List.length_cons]
        omega
      · exact .inr (later hin)
    | succ need =>
      rw [needAfter] at h ⊢
      rcases ih h with heq | hin
      · left
        rw [List.length_cons]
        omega
      · exact .inr (later hin)

/-- What follows a boundary consists of whole groups. -/
theorem Grouped.drop {inputs : List Input} (h : Grouped 0 inputs) {n : Nat}
    (hn : ¬Inside inputs n) (hlen : n ≤ inputs.length) : Grouped 0 (inputs.drop n) := by
  have hsplit := List.take_append_drop n inputs
  rw [← hsplit] at h hn
  have htaken : (inputs.take n).length = n := List.length_take_of_le hlen
  have hgrouped := h.append
  by_cases hzero : needAfter 0 (inputs.take n) = 0
  · rwa [hzero] at hgrouped
  · rcases inside_of_needAfter (inputs.drop n) hzero with heq | hin
    · omega
    · rw [htaken] at hin
      exact absurd hin hn

/-- The inputs of a group are all there. -/
theorem Grouped.complete {inputs : List Input} (h : Grouped 0 inputs) {p : Nat} {inp : Input}
    (hp : inputs[p]? = some inp) : p + inp.sameBatch < inputs.length := by
  rw [← List.append_nil inputs] at h
  exact (h.whole h.append).2 p inp hp

theorem Grouped.not_inside_of_le {inputs : List Input} (h : Grouped 0 inputs) {n : Nat}
    (hn : inputs.length ≤ n) : ¬Inside inputs n := by
  rintro ⟨p, inp, hp, -, hle⟩
  have := h.complete hp
  omega

/-- A batch that takes whole groups from the front of what follows a boundary ends at one. -/
theorem not_inside_append {done taken rest : List Input} (hdone : ¬Inside (done ++ (taken ++ rest))
    done.length) (htaken : ∀ (p : Nat) (inp : Input), taken[p]? = some inp →
      p + inp.sameBatch < taken.length) :
    ¬Inside (done ++ (taken ++ rest)) (done.length + taken.length) := by
  rintro ⟨p, inp, hp, hlt, hle⟩
  by_cases h : p < done.length
  · exact hdone ⟨p, inp, hp, h, by omega⟩
  · rw [List.getElem?_append_right (by omega), List.getElem?_append_left (by omega)] at hp
    have := htaken _ _ hp
    omega

theorem Grouped.of_append {need : Nat} {inputs inputs' : List Input} (h : Grouped need inputs)
    (h' : Grouped 0 inputs') : Grouped need (inputs ++ inputs') := by
  induction inputs generalizing need with
  | nil =>
    rw [Grouped] at h
    subst h
    exact h'
  | cons inp inputs ih =>
    cases need with
    | zero => exact ih h
    | succ need => exact ⟨h.1, ih h.2⟩

/-- Inputs without groups of their own are as good as a group that needs them. -/
theorem Grouped.of_plain {inputs : List Input} (h : ∀ inp ∈ inputs, inp.sameBatch = 0) {n : Nat}
    (hn : n ≤ inputs.length) : Grouped n inputs := by
  induction inputs generalizing n with
  | nil => exact Nat.le_zero.mp hn
  | cons inp inputs ih =>
    have hinp := h inp (by simp)
    have hrest (x : Input) (hx : x ∈ inputs) : x.sameBatch = 0 := h x (by simp [hx])
    rw [List.length_cons] at hn
    cases n with
    | zero =>
      rw [Grouped, hinp]
      exact ih hrest (Nat.zero_le _)
    | succ n => exact ⟨by omega, ih hrest (by omega)⟩

/-! ### The groups of `gemma3` -/

namespace Gemma3

/-- What `PostTokenize` puts in the place of an image: a text token leads the group, and the input
with the hash of the image is the third. `dim` is the number of rows of the image's tensor, at least
one. -/
def imageInputs (dim : Nat) (inp : Input) : List Input :=
  [{ token := 108, sameBatch := dim + 3 }, -- "\n\n"
    { token := 255999 }, -- <start_of_image>
    { token := 0, multimodal := inp.multimodal, multimodalHash := inp.multimodalHash }] ++
  List.replicate (dim - 1) { token := 0 } ++
  [{ token := 256000 }, -- <end_of_image>
    { token := 108 }]

def postTokenize (dim : Nat → Nat) (inputs : List Input) : List Input :=
  inputs.flatMap fun inp =>
    match inp.multimodal with
    | none => [inp]
    | some handle => imageInputs (dim handle) inp

theorem imageInputs_grouped {dim : Nat} (hdim : 0 < dim) (inp : Input) :
    Grouped 0 (imageInputs dim inp) := by
  have plain : ∀ x ∈ (imageInputs dim inp).tail, x.sameBatch = 0 := by
    intro x hx
    simp only [imageInputs, List.cons_append, List.nil_append, List.tail_cons, List.mem_cons,
      List.mem_append, List.mem_replicate, List.not_mem_nil, or_false] at hx
    rcases hx with rfl | rfl | ⟨-, rfl⟩ | rfl | rfl
    all_goals rfl
  have hlen : dim + 3 ≤ (imageInputs dim inp).tail.length := by
    simp only [imageInputs, List.cons_append, List.nil_append, List.tail_cons, List.length_cons,
      List.length_append, List.length_replicate, List.length_nil]
    omega
  exact Grouped.of_plain plain hlen

/-- The inputs of a prompt as they are tokenized have no groups; those of `PostTokenize` do. -/
theorem postTokenize_grouped {dim : Nat → Nat} (hdim : ∀ handle, 0 < dim handle)
    {inputs : List Input} (h : ∀ inp ∈ inputs, inp.sameBatch = 0) :
    Grouped 0 (postTokenize dim inputs) := by
  induction inputs with
  | nil => rfl
  | cons inp inputs ih =>
    have rest := ih fun x hx => h x (by simp [hx])
    rw [postTokenize, List.flatMap_cons]
    refine Grouped.of_append ?_ rest
    split
    · exact Grouped.of_plain (by simpa using h inp (by simp)) (Nat.zero_le _)
    · exact imageInputs_grouped (hdim _) inp

end Gemma3

/-! ### Where a loaded prompt goes on -/

/-- The longest prefix of the prompt that one of the slots holds. -/
def longestPrefix (prompt : List Input) (slots : List InputCacheSlot) : Nat :=
  (slots.map fun s => countCommonPrefix s.inputs prompt).foldr max 0

/-- What the slots hold of the prompt: all of them with `multiUserCache`, where a prefix is copied,
otherwise those not in use. -/
def InputCache.agreed (c : InputCache K) (prompt : List Input) : Nat :=
  longestPrefix prompt (if c.multiUserCache then c.slots else c.slots.filter fun s => !s.inUse)

/-- Where the prompt goes on, if the KV cache does not object: one input is left to sample from. -/
def InputCache.resumeAt (c : InputCache K) (prompt : List Input) : Nat :=
  if c.agreed prompt = prompt.length then c.agreed prompt - 1 else c.agreed prompt

/-- The KV cache does not resume at this place, or does not remove what follows it. -/
def InputCache.declines (c : InputCache K) (ops : KvOps K) (prompt : List Input) : Bool :=
  let n := c.resumeAt prompt
  match c.findSlot ops prompt with
  | (_, none) => false
  | (c, some (i, _)) => (decide (n > 0) && !ops.canResume c.cache (c.slot i).id n) ||
      !(ops.remove c.cache (c.slot i).id n maxInt32).2

def InputCache.ResumesAtBoundary (c : InputCache K) (ops : KvOps K) (prompt : List Input) : Prop :=
  ¬Inside prompt (c.resumeAt prompt) ∨ c.declines ops prompt = true

/-- The best count so far, `0` before the first slot. -/
def bestCount (longest : Option (Nat × Nat)) : Nat := longest.elim 0 (·.2)

theorem bestCount_step (longest : Option (Nat × Nat)) (i count : Nat) :
    bestCount (if ∀ l ∈ longest, l.2 < count then some (i, count) else longest) =
      max (bestCount longest) count := by
  cases longest with
  | none => simp [bestCount]
  | some l =>
    by_cases h : l.2 < count
    · simp [bestCount, h, h.le]
    · simp [bestCount, h, Nat.le_of_not_lt h]

theorem findLongestFrom_count (prompt : List Input) (slots : List InputCacheSlot) (i : Nat)
    (longest : Option (Nat × Nat)) : bestCount (findLongestFrom prompt slots i longest) =
      max (bestCount longest) (longestPrefix prompt (slots.filter fun s => !s.inUse)) := by
  induction slots generalizing i longest with
  | nil => simp [findLongestFrom, longestPrefix]
  | cons s slots ih =>
    rw [findLongestFrom]
    split
    · rename_i huse
      rw [ih, List.filter_cons_of_neg (by simp [huse])]
    · rename_i huse
      rw [ih, bestCount_step, List.filter_cons_of_pos (by simp [huse]), longestPrefix,
        longestPrefix, List.map_cons, List.foldr_cons, Nat.max_assoc]

theorem findBestFrom_count (prompt : List Input) (slots : List InputCacheSlot) (i : Nat)
    (longest : Option (Nat × Nat)) (oldest : Nat) (oldestSlot : Option Nat) :
    bestCount (findBestFrom prompt slots i longest oldest oldestSlot).1 =
      max (bestCount longest) (longestPrefix prompt slots) := by
  induction slots generalizing i longest oldest oldestSlot with
  | nil => simp [findBestFrom, longestPrefix]
  | cons s slots ih =>
    have step (oldest : Nat) (oldestSlot : Option Nat) :
        bestCount (findBestFrom prompt slots (i + 1)
          (if ∀ l ∈ longest, l.2 < countCommonPrefix s.inputs prompt then
            some (i, countCommonPrefix s.inputs prompt) else longest) oldest oldestSlot).1 =
          max (bestCount longest) (longestPrefix prompt (s :: slots)) := by
      rw [ih, bestCount_step, Nat.max_assoc]
      rfl
    rw [findBestFrom]
    split
    · exact step _ _
    · exact step _ _

theorem InputCache.findSlot_count {c c' : InputCache K} {ops : KvOps K} {prompt : List Input}
    {i n : Nat} (h : c.findSlot ops prompt = (c', some (i, n))) : n = c.agreed prompt := by
  unfold findSlot at h
  rw [agreed]
  split at h
  · rename_i hmulti
    rw [if_pos hmulti]
    have count := findBestFrom_count prompt c.slots 0 none c.now none
    unfold findBestCacheSlot at h
    split at h
    · cases (Prod.mk.inj h).2
    · rename_i longestSlot longest oldestSlot hbest
      have hlongest : longest = longestPrefix prompt c.slots := by
        simpa [hbest, bestCount] using count
      rw [← hlongest]
      split at h
      · exact (Prod.mk.inj (Option.some.inj (Prod.mk.inj h).2)).2.symm
      · split at h
        · cases (Prod.mk.inj h).2
        · split at h
          · cases (Prod.mk.inj h).2
          · split at h
            · exact (Prod.mk.inj (Option.some.inj (Prod.mk.inj h).2)).2.symm
            · exact (Prod.mk.inj (Option.some.inj (Prod.mk.inj h).2)).2.symm
  · rename_i hmulti
    rw [if_neg hmulti]
    have count := findLongestFrom_count prompt c.slots 0 none
    have hfind : findLongestFrom prompt c.slots 0 none = some (i, n) := (Prod.mk.inj h).2
    simpa [hfind, bestCount] using count

theorem InputCache.truncate_numPast {c c' : InputCache K} {ops : KvOps K} {i numPast n : Nat}
    (h : c.truncate ops i numPast = (c', some n)) :
    n = if (decide (numPast > 0) && !ops.canResume c.cache (c.slot i).id numPast) ||
      !(ops.remove c.cache (c.slot i).id numPast maxInt32).2 then 0 else numPast := by
  unfold truncate at h
  dsimp only at h
  by_cases hresume : numPast > 0 ∧ (!ops.canResume c.cache (c.slot i).id numPast) = true
  · rw [if_pos hresume] at h
    rw [if_pos (by simp [hresume.1, hresume.2])]
    split at h
    · exact (Option.some.inj (Prod.mk.inj h).2).symm
    · split at h
      · exact (Option.some.inj (Prod.mk.inj h).2).symm
      · cases (Prod.mk.inj h).2
  · rw [if_neg hresume] at h
    have hfalse : (decide (numPast > 0) && !ops.canResume c.cache (c.slot i).id numPast) = false := by
      simpa using hresume
    rw [hfalse, Bool.false_or]
    split at h
    · rename_i hremove
      rw [hremove]
      exact (Option.some.inj (Prod.mk.inj h).2).symm
    · rename_i hremove
      rw [hremove]
      split at h
      · exact (Option.some.inj (Prod.mk.inj h).2).symm
      · cases (Prod.mk.inj h).2

/-- What remains of the prompt, by what the slots held before. -/
theorem InputCache.loadCacheSlot_rest {c c' : InputCache K} {ops : KvOps K}
    {prompt rest : List Input} {i : Nat}
    (h : c.loadCacheSlot ops prompt = (c', some (i, rest))) :
    rest = prompt.drop (if c.declines ops prompt then 0 else c.resumeAt prompt) := by
  unfold loadCacheSlot at h
  split at h
  · cases (Prod.mk.inj h).2
  · rename_i c₁ i₁ numPast hfind
    dsimp only at h
    have hcount := findSlot_count hfind
    have hresume : (if numPast = prompt.length then numPast - 1 else numPast) =
        c.resumeAt prompt := by
      rw [hcount, resumeAt]
    rw [hresume] at h
    split at h
    · cases (Prod.mk.inj h).2
    · rename_i c₂ n htruncate
      obtain ⟨-, hin⟩ := Prod.mk.inj h
      obtain ⟨rfl, rfl⟩ := Prod.mk.inj (Option.some.inj hin)
      have hn := truncate_numPast (c := c₁.use i₁) htruncate
      rw [id_use] at hn
      rw [hn, declines, hfind]
      rfl

theorem InputCache.resumeAt_le (c : InputCache K) (prompt : List Input) :
    c.resumeAt prompt ≤ prompt.length := by
  have bound (slots : List InputCacheSlot) : longestPrefix prompt slots ≤ prompt.length := by
    induction slots with
    | nil => exact Nat.zero_le _
    | cons s slots ih => exact Nat.max_le.mpr ⟨countCommonPrefix_le_right _ _, ih⟩
  have hle : c.agreed prompt ≤ prompt.length := bound _
  rw [resumeAt]
  split
  · omega
  · exact hle

/-- The remaining inputs begin at the boundary of a group exactly where the slots' longest prefix of
the prompt ends at one, or the KV cache declines to go on from there. -/
theorem InputCache.loadCacheSlot_boundary {c c' : InputCache K} {ops : KvOps K}
    {prompt rest : List Input} {i : Nat}
    (h : c.loadCacheSlot ops prompt = (c', some (i, rest))) :
    ¬Inside prompt (prompt.length - rest.length) ↔ c.ResumesAtBoundary ops prompt := by
  have hrest := loadCacheSlot_rest h
  have hle := c.resumeAt_le prompt
  rw [ResumesAtBoundary]
  cases hdeclines : c.declines ops prompt with
  | true =>
    rw [hdeclines, if_pos rfl, List.drop_zero] at hrest
    rw [hrest, Nat.sub_self]
    simp [not_inside_zero]
  | false =>
    rw [hdeclines, if_neg (by simp)] at hrest
    rw [hrest, List.length_drop, Nat.sub_sub_self hle]
    simp

/-! ### Batches of whole groups -/

/-- A sequence whose queue fits into the context with all that its slot holds is taken from without
a shift of the slot. -/
def TakenInPlace (s : Server K) (b : Building K) : Prop :=
  ∀ i seq, s.seq i = some seq →
    FitsAt s.cache.numCtx ((s.cache.slot seq.cache).inputs ++ seq.inputs) →
      requeuedFor i b.requeued = [] ∧
        (b.server.cache.slot seq.cache).inputs = (s.cache.slot seq.cache).inputs

theorem TakenInPlace.visit {ops : KvOps K} {env : Env} {s : Server K} (ready : s.Ready)
    {done : List Nat} {b b' : Building K} {j : Nat} (built : Built s done b) (hj : j ∉ done)
    (h : TakenInPlace s b) (hvisit : b.visit ops env j = some b') : TakenInPlace s b' := by
  intro i seq hs hfits
  obtain ⟨hrequeued, hslot⟩ := h i seq hs hfits
  obtain ⟨hseq, hfresh⟩ := built.fresh j hj
  rcases Building.visit_some hvisit with ⟨-, rfl⟩ | ⟨seq', hs', rfl⟩ | ⟨seq', seq'', turn⟩
  · exact ⟨hrequeued, hslot⟩
  · refine ⟨hrequeued, ?_⟩
    rw [(Server.removeSequence_eq hs' env .length).2.1, InputCache.slot_setSlot]
    split
    · rename_i heq
      rw [← hslot, heq.1]
    · exact hslot
  · have before := turn.before
    rw [hseq] at before
    have hkeep : seq'.numKeep < b.server.cache.numCtx := by
      rw [built.numCtx]
      exact ready.numKeep j seq' before
    have hfits' : Fits b.server.cache.numCtx (b.server.cache.slot seq'.cache).inputs
        seq'.inputs := by
      rw [built.numCtx, hfresh seq' before]
      exact ready.fits j seq' before
    by_cases hij : i = j
    · subst hij
      obtain rfl : seq = seq' := Option.some.inj (hs.symm.trans before)
      have idle := ready.idle i seq hs
      obtain ⟨b₁, hadd, rfl⟩ := turn.building
      have takes := Building.takesFront hadd (by simp [idle]) (by simp [idle])
        (by rw [built.numCtx, hslot]; exact hfits) (fun hne => absurd idle hne)
        (by rw [idle]; exact fun h => absurd rfl h)
      refine ⟨?_, ?_⟩
      · change requeuedFor i b₁.requeued = []
        rw [takes.requeued, hrequeued]
      · change (b₁.server.cache.slot seq.cache).inputs = _
        rw [takes.server, hslot]
    · refine ⟨?_, ?_⟩
      · rw [Building.requeued_visit turn built.assigned (ready.idle j seq' before) hkeep hfits' hij,
          hrequeued]
      · obtain ⟨b₁, hadd, rfl⟩ := turn.building
        have other := (Building.added_addInputs hadd).other seq.cache fun heq =>
          hij (ready.assigned.own i j seq seq' hs before heq)
        exact (congrArg (·.inputs) other).trans hslot

theorem Server.Ready.takenInPlace {ops : KvOps K} {env : Env} {s : Server K} {b : Building K}
    (ready : s.Ready) (h : s.buildBatch ops env = some b) : TakenInPlace s b := by
  obtain ⟨nextSeq, b₁, rfl, -, taken⟩ := Server.buildBatch_invariant
    (I := fun _ b => TakenInPlace s b) ready.assigned ready.idle (fun _ _ _ _ => ⟨rfl, rfl⟩)
    (fun _ _ _ _ built hi h hvisit => h.visit ready built hi hvisit) h
  exact taken

/-- What was submitted of each loaded prompt ends at the boundary of a group; so each group that
remained to be evaluated is within one batch. -/
structure Unbroken (s : Server K) (h : History) : Prop where
  grouped : ∀ i, Grouped 0 (h i).loaded
  boundary : ∀ i, ¬Inside (h i).loaded (h i).submitted.length
  live : ∀ i seq, s.seq i = some seq → (h i).submitted.length < (h i).loaded.length →
    (h i).submitted ++ seq.inputs = (h i).loaded ∧
      FitsAt s.cache.numCtx ((s.cache.slot seq.cache).inputs ++ seq.inputs)

theorem Unbroken.processBatch {ops : KvOps K} {env : Env} {s : Server K} {h : History}
    {p : Processed K} (unbroken : Unbroken s h) (ready : s.Ready) (hp : Processes ops env s p) :
    Unbroken p.server (h.processBatch s p) := by
  have renewed := ready.renewed hp
  have hloaded (i : Nat) : (h.processBatch s p i).loaded = (h i).loaded := rfl
  have hsubmitted (i : Nat) : (h.processBatch s p i).submitted =
      (h i).submitted ++ p.building.submittedFor s i := rfl
  -- a prompt that is all submitted has no boundary left to miss
  have past {i n : Nat} (hle : (h i).loaded.length ≤ n) : ¬Inside (h i).loaded n :=
    (unbroken.grouped i).not_inside_of_le hle
  -- what the batch takes of a prompt, and what is left of it
  have taken {i : Nat} {seq : Sequence} (hs : s.seq i = some seq)
      (hlt : (h i).submitted.length < (h i).loaded.length) : ∃ rest,
        Advanced s p i seq (p.building.submittedFor s i) rest ∧
        (h i).loaded = (h i).submitted ++ (p.building.submittedFor s i ++ rest) := by
    obtain ⟨submitted, rest, advanced⟩ := ready.advanced hp hs
    obtain ⟨hqueue, hfits⟩ := unbroken.live i seq hs hlt
    have hsub := advanced.submission.queue
    rw [(ready.takenInPlace hp.building i seq hs hfits).1, List.nil_append] at hsub
    rw [advanced.submission.submittedFor hs]
    exact ⟨rest, advanced, by rw [← hqueue, hsub]⟩
  refine ⟨unbroken.grouped, ?_, ?_⟩
  · intro i
    rw [hloaded, hsubmitted, List.length_append]
    rcases Nat.lt_or_ge (h i).submitted.length (h i).loaded.length with hlt | hge
    · cases hs : s.seq i with
      | none =>
        have hnone : p.building.submittedFor s i = [] := by rw [Building.submittedFor, hs]
        rw [hnone, List.length_nil, Nat.add_zero]
        exact unbroken.boundary i
      | some seq =>
        obtain ⟨rest, advanced, heq⟩ := taken hs hlt
        have hboundary := unbroken.boundary i
        have hgrouped := (unbroken.grouped i).drop hboundary hlt.le
        rw [← (unbroken.live i seq hs hlt).1, List.drop_left] at hgrouped
        rw [heq] at hboundary ⊢
        exact not_inside_append hboundary (advanced.submission.whole hgrouped)
    · exact past (by omega)
  · intro i seq' hs' hlt
    rw [hloaded, hsubmitted, List.length_append] at hlt
    obtain ⟨seq, hs⟩ := renewed.old i seq' hs'
    obtain ⟨rest, advanced, heq⟩ := taken hs (by omega)
    obtain ⟨hcache, -, -, -, hinputs, hslot, -⟩ := advanced.goesOn seq' hs'
    have hrest : rest ≠ [] := by
      rintro rfl
      rw [heq, List.append_nil, List.length_append] at hlt
      omega
    have hsampled : sampledFor i p.sampled = [] := by
      by_contra hne
      exact hrest (advanced.sampled hne)
    rw [hsampled, List.append_nil] at hinputs
    obtain ⟨hqueue, hfits⟩ := unbroken.live i seq hs (by omega)
    refine ⟨?_, ?_⟩
    · rw [hloaded, hsubmitted, hinputs, heq, List.append_assoc]
    · have hseq : seq.inputs = p.building.submittedFor s i ++ rest := by
        rw [heq] at hqueue
        exact List.append_cancel_left hqueue
      rw [hcache, hslot, hinputs, renewed.numCtx,
        (ready.takenInPlace hp.building i seq hs hfits).2, List.append_assoc, ← hseq]
      exact hfits

theorem Unbroken.occupied {s : Server K} {h : History} {c : InputCache K} {k n : Nat}
    (unbroken : Unbroken s h) (ready : s.Ready) (occupied : Occupied s.cache c k) :
    Unbroken { s with cache := c, acquired := n } h := by
  refine ⟨unbroken.grouped, unbroken.boundary, ?_⟩
  intro i seq hs hlt
  have hne : seq.cache ≠ k := by
    rintro rfl
    have := (ready.assigned.slot i seq hs).2
    rw [occupied.free] at this
    cases this
  dsimp only
  rw [occupied.numCtx, occupied.other _ hne]
  exact unbroken.live i seq hs hlt

theorem Server.completion_loads {ops : KvOps K} {s s' : Server K} {seq : Sequence} {i : Nat}
    (h : s.completion ops seq = (s', some i)) : i < s.seqs.length ∧ s.seq i = none ∧
      ∃ cache k rest, s.cache.loadCacheSlot ops seq.inputs = (cache, some (k, rest)) ∧
        s' = Server.setSeq { s with cache } i (some { seq with cache := k, inputs := rest }) := by
  unfold completion at h
  split at h
  · cases (Prod.mk.inj h).2
  · rename_i j hfind
    obtain ⟨hlt, hnone⟩ := seq_of_findIdx? hfind
    split at h
    · cases (Prod.mk.inj h).2
    · rename_i cache k rest hload
      obtain ⟨rfl, hj⟩ := Prod.mk.inj h
      obtain rfl := Option.some.inj hj
      exact ⟨hlt, hnone, cache, k, rest, hload, rfl⟩

theorem Unbroken.loaded {ops : KvOps K} {s s' : Server K} {h : History} {seq : Sequence} {i : Nat}
    (unbroken : Unbroken s h) (ready : s.Ready) (admissible : Admissible s.cache.numCtx seq)
    (grouped : Grouped 0 seq.inputs) (boundary : s.cache.ResumesAtBoundary ops seq.inputs)
    (hc : s.completion ops seq = (s', some i)) : Unbroken s' (h.completion s' i) := by
  obtain ⟨hi, hnone, cache, k, rest, hload, rfl⟩ := Server.completion_loads hc
  have loaded := InputCache.loadCacheSlot_some admissible.nonempty hload
  have occupied := loaded.occupied
  obtain ⟨n, hn, hslot, hrest, -⟩ := loaded.resumed
  have hgroups : Grouped 0 rest := by
    have hinside := (InputCache.loadCacheSlot_boundary hload).mpr boundary
    rw [hrest, List.length_drop, Nat.sub_sub_self hn.le] at hinside
    rw [hrest]
    exact grouped.drop hinside hn.le
  have here : Server.seq (Server.setSeq { s with cache } i
      (some { seq with cache := k, inputs := rest })) i =
        some { seq with cache := k, inputs := rest } := Server.seq_setSeq_self hi _
  have new : h.completion (Server.setSeq { s with cache } i
      (some { seq with cache := k, inputs := rest })) i i = { loaded := rest, queued := rest } := by
    rw [History.completion, if_pos rfl, here]
  have old (j : Nat) (hj : j ≠ i) : h.completion (Server.setSeq { s with cache } i
      (some { seq with cache := k, inputs := rest })) i j = h j := by
    rw [History.completion, if_neg hj]
  have before : Unbroken { s with cache } h := unbroken.occupied (n := s.acquired) ready occupied
  refine ⟨?_, ?_, ?_⟩
  · intro j
    by_cases hj : j = i
    · rw [hj, new]
      exact hgroups
    · rw [old j hj]
      exact before.grouped j
  · intro j
    by_cases hj : j = i
    · rw [hj, new]
      exact not_inside_zero rest
    · rw [old j hj]
      exact before.boundary j
  · intro j seq' hs'
    by_cases hj : j = i
    · subst hj
      rw [here] at hs'
      obtain rfl := Option.some.inj hs'
      rw [new]
      intro _
      refine ⟨rfl, ?_⟩
      change FitsAt cache.numCtx ((cache.slot k).inputs ++ rest)
      rw [hslot, hrest, List.take_append_drop, occupied.numCtx]
      exact admissible.complete.fitsAt admissible.length_le
    · rw [Server.seq_setSeq_of_ne _ hj] at hs'
      rw [old j hj]
      exact before.live j seq' hs'

theorem Unbroken.step {ops : KvOps K} {r r' : Server K × History} {e : Event}
    (h : e.step ops r = some r') (unbroken : Unbroken r.1 r.2) (ready : r.1.Ready)
    (he : ∀ seq, e = .completion seq → Admissible r.1.cache.numCtx seq ∧ Grouped 0 seq.inputs ∧
      r.1.cache.ResumesAtBoundary ops seq.inputs) : Unbroken r'.1 r'.2 := by
  cases e with
  | acquire =>
    obtain ⟨s', hs', rfl⟩ := Option.map_eq_some_iff.mp h
    unfold Server.acquire at hs'
    split at hs'
    · obtain rfl := Option.some.inj hs'
      exact ⟨unbroken.grouped, unbroken.boundary, unbroken.live⟩
    · cases hs'
  | completion seq =>
    obtain ⟨admissible, grouped, boundary⟩ := he seq rfl
    rw [Event.step] at h
    split at h
    · split at h
      · rename_i s' i hcompletion
        obtain rfl := Option.some.inj h
        exact unbroken.loaded ready admissible grouped boundary hcompletion
      · rename_i s' hcompletion
        obtain rfl := Option.some.inj h
        cases Server.completion_completed admissible.nonempty hcompletion with
        | full => exact ⟨unbroken.grouped, unbroken.boundary, unbroken.live⟩
        | failed cache hload =>
          rcases InputCache.loadCacheSlot_none hload with ⟨rfl, -⟩ | ⟨k, occupied, -⟩
          · exact ⟨unbroken.grouped, unbroken.boundary, unbroken.live⟩
          · exact unbroken.occupied ready occupied
    · cases h
  | processBatch env =>
    rw [Event.step] at h
    split at h
    · cases h
    · obtain ⟨p, hp, rfl⟩ := Option.map_eq_some_iff.mp h
      exact unbroken.processBatch ready (Server.processBatch_some hp)

/-- Every prompt that is loaded in the run goes on at the boundary of a group, or from its start. -/
def ResumesAtBoundaries (ops : KvOps K) (cache : K) (kvSize parallel batchSize : Nat)
    (multiUserCache : Bool) (events : List Event) : Prop :=
  ∀ earlier seq later r, events = earlier ++ .completion seq :: later →
    run ops cache kvSize parallel batchSize multiUserCache earlier = some r →
    r.1.cache.ResumesAtBoundary ops seq.inputs

theorem run_unbroken {ops : KvOps K} {cache : K} {kvSize parallel batchSize : Nat}
    {multiUserCache : Bool} {events : List Event} {s : Server K} {h : History}
    (hrun : run ops cache kvSize parallel batchSize multiUserCache events = some (s, h))
    (admissible : ∀ seq, .completion seq ∈ events →
      Admissible (kvSize / parallel) seq ∧ Grouped 0 seq.inputs)
    (boundaries : ResumesAtBoundaries ops cache kvSize parallel batchSize multiUserCache events) :
    Unbroken s h := by
  have hstart := hrun
  unfold run at hstart
  split at hstart
  · cases hstart
  · rename_i c hc
    have prefix_run {earlier later : List Event} (hl : events = earlier ++ later)
        {r : Server K × History}
        (h : earlier.foldlM (Event.step ops) (newServer c parallel batchSize, fun _ => {}) = some r) :
        run ops cache kvSize parallel batchSize multiUserCache earlier = some r ∧ r.1.Ready ∧
          r.1.cache.numCtx = kvSize / parallel := by
      have hearlier : run ops cache kvSize parallel batchSize multiUserCache earlier = some r := by
        rw [run, hc]
        exact h
      obtain ⟨ready, -, hnum⟩ := run_keeps hearlier fun seq hseq =>
        (admissible seq (by rw [hl]; simp [hseq])).1
      exact ⟨hearlier, ready, hnum⟩
    refine (foldlM_progress (I := fun done r =>
      done.foldlM (Event.step ops) (newServer c parallel batchSize, fun _ => {}) = some r ∧
        Unbroken r.1 r.2) ?_ hstart ⟨rfl, ?_⟩).2
    · rintro done e later r r' hl ⟨hdone, unbroken⟩ hstep
      obtain ⟨hearlier, ready, hnum⟩ := prefix_run hl hdone
      refine ⟨?_, unbroken.step hstep ready ?_⟩
      · rw [List.foldlM_append, hdone]
        simpa using hstep
      · rintro seq rfl
        obtain ⟨hadm, hgrouped⟩ := admissible seq (by rw [hl]; simp)
        rw [hnum]
        exact ⟨hadm, hgrouped, boundaries done seq later r hl hearlier⟩
    · refine ⟨fun _ => rfl, fun _ => not_inside_zero _, ?_⟩
      intro i seq hs
      rw [Server.seq, newServer, List.getElem?_replicate] at hs
      split at hs <;> cases hs

/-- In every run a loaded prompt goes on at the boundary of a group exactly under this condition; and
where all do, each group that is evaluated again is evaluated within one batch. -/
theorem run_groups {ops : KvOps K} {cache : K} {kvSize parallel batchSize : Nat}
    {multiUserCache : Bool} {events : List Event} {s : Server K} {h : History}
    (hrun : run ops cache kvSize parallel batchSize multiUserCache events = some (s, h))
    (admissible : ∀ seq, .completion seq ∈ events →
      Admissible (kvSize / parallel) seq ∧ Grouped 0 seq.inputs) :
    (∀ earlier seq later r c i rest, events = earlier ++ .completion seq :: later →
      run ops cache kvSize parallel batchSize multiUserCache earlier = some r →
      r.1.cache.loadCacheSlot ops seq.inputs = (c, some (i, rest)) →
      (¬Inside seq.inputs (seq.inputs.length - rest.length) ↔
        r.1.cache.ResumesAtBoundary ops seq.inputs)) ∧
    (ResumesAtBoundaries ops cache kvSize parallel batchSize multiUserCache events →
      ∀ i, Grouped 0 (h i).loaded ∧ ¬Inside (h i).loaded (h i).submitted.length) := by
  refine ⟨fun _ _ _ _ _ _ _ _ _ hload => InputCache.loadCacheSlot_boundary hload, ?_⟩
  intro boundaries i
  have unbroken := run_unbroken hrun admissible boundaries
  exact ⟨unbroken.grouped i, unbroken.boundary i⟩

/-! ### Two images -/

/-- All images are known to the runner, and every token sampled is 9. -/
def sees : Env := { nines with getMultimodal := some }

/-- The prompt of `gemma3` for an image with this hash, between two tokens of text. -/
def imagePrompt (hash : Nat) : List Input :=
  Gemma3.postTokenize (fun _ => 2)
    [{ token := 2 }, { token := 0, multimodal := some 0, multimodalHash := hash }, { token := 5 }]

/-- One prompt is loaded and evaluated, and its sequence ends. -/
def oneImage : List Event :=
  [.acquire, .completion { request (imagePrompt 7) with numPredict := 1 }, .processBatch sees,
    .processBatch sees]

/-- The prompt with another image agrees with it up to the third input of the group. -/
theorem otherImage_inside : ∃ r c rest,
    run allOrNothing () 16 1 8 false oneImage = some r ∧
    r.1.cache.loadCacheSlot allOrNothing (imagePrompt 8) = (c, some (0, rest)) ∧
    rest.length = 5 ∧ Inside (imagePrompt 8) ((imagePrompt 8).length - rest.length) := by
  refine ⟨_, _, _, rfl, rfl, by decide, ?_⟩
  exact ⟨1, { token := 108, sameBatch := 5 }, rfl, by decide, by decide⟩

theorem oneImage_groups : ∃ r, run allOrNothing () 16 1 8 false oneImage = some r ∧
    (∀ earlier seq later r' c i rest, oneImage = earlier ++ .completion seq :: later →
      run allOrNothing () 16 1 8 false earlier = some r' →
      r'.1.cache.loadCacheSlot allOrNothing seq.inputs = (c, some (i, rest)) →
      (¬Inside seq.inputs (seq.inputs.length - rest.length) ↔
        r'.1.cache.ResumesAtBoundary allOrNothing seq.inputs)) ∧
    (ResumesAtBoundaries allOrNothing () 16 1 8 false oneImage →
      ∀ i, Grouped 0 (r.2 i).loaded ∧ ¬Inside (r.2 i).loaded (r.2 i).submitted.length) := by
  obtain ⟨r, hr⟩ : ∃ r, run allOrNothing () 16 1 8 false oneImage = some r := ⟨_, rfl⟩
  refine ⟨r, hr, run_groups hr ?_⟩
  intro seq hseq
  simp only [oneImage, List.mem_cons, List.not_mem_nil, reduceCtorEq, or_false, false_or,
    Event.completion.injEq] at hseq
  subst hseq
  refine ⟨by decide, Gemma3.postTokenize_grouped (fun _ => Nat.two_pos) ?_⟩
  simp

end Ecco9.Runner
