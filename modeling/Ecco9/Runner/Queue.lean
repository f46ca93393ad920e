import Ecco9.Runner.Batch

/-! The queue of a sequence: what goes into a batch is its front, whole groups at a time. -/

universe u

namespace Ecco9.Runner

open Ecco9.Library

/-! ### Groups -/

/-- How many inputs must still follow in the same batch after `inputs`, when `need` had to. -/
def needAfter : Nat → List Input → Nat
  | need, [] => need
  | 0, inp :: inputs => needAfter inp.sameBatch inputs
  | need + 1, _ :: inputs => needAfter need inputs

/-- The inputs consist of groups, after the `need` ones that end a group: an input and the
`sameBatch` ones after it; groups within a group end with it at the latest. -/
def Grouped : Nat → List Input → Prop
  | need, [] => need = 0
  | 0, inp :: inputs => Grouped inp.sameBatch inputs
  | need + 1, inp :: inputs => inp.sameBatch ≤ need ∧ Grouped need inputs

theorem needAfter_snoc_zero {need : Nat} {inputs : List Input} (h : needAfter need inputs = 0)
    (inp : Input) : needAfter need (inputs ++ [inp]) = inp.sameBatch := by
  induction inputs generalizing need with
  | nil =>
    rw [needAfter] at h
    subst h
    rfl
  | cons x inputs ih =>
    cases need with
    | zero => exact ih h
    | succ need => exact ih h

theorem needAfter_snoc_succ {need n : Nat} {inputs : List Input} (h : needAfter need inputs = n + 1)
    (inp : Input) : needAfter need (inputs ++ [inp]) = n := by
  induction inputs generalizing need with
  | nil =>
    rw [needAfter] at h
    subst h
    rfl
  | cons x inputs ih =>
    cases need with
    | zero => exact ih h
    | succ need => exact ih h

theorem Grouped.append {need : Nat} {taken rest : List Input} (h : Grouped need (taken ++ rest)) :
    Grouped (needAfter need taken) rest := by
  induction taken generalizing need with
  | nil => exact h
  | cons inp taken ih =>
    cases need with
    | zero => exact ih h
    | succ need => exact ih h.2

/-- No group is cut: the inputs after each input that belong to it are there. -/
theorem Grouped.whole {need : Nat} {taken rest : List Input} (h : Grouped need (taken ++ rest))
    (hneed : needAfter need taken = 0) :
    need ≤ taken.length ∧ ∀ (p : Nat) (inp : Input), taken[p]? = some inp →
      p + inp.sameBatch < taken.length := by
  induction taken generalizing need with
  | nil =>
    rw [needAfter] at hneed
    exact ⟨hneed.le, by simp⟩
  | cons x taken ih =>
    have step {n : Nat} (hg : Grouped n (taken ++ rest)) (hn : needAfter n taken = 0)
        (hx : x.sameBatch ≤ n) : n ≤ taken.length ∧ ∀ (p : Nat) (inp : Input),
          (x :: taken)[p]? = some inp → p + inp.sameBatch < (x :: taken).length := by
      obtain ⟨hlen, hall⟩ := ih hg hn
      refine ⟨hlen, ?_⟩
      intro p inp hp
      rw [List.length_cons]
      cases p with
      | zero =>
        obtain rfl : x = inp := by simpa using hp
        omega
      | succ p =>
        have := hall p inp (by simpa using hp)
        omega
    cases need with
    | zero =>
      obtain ⟨-, hall⟩ := step h hneed (Nat.le_refl _)
      exact ⟨Nat.zero_le _, hall⟩
    | succ need =>
      obtain ⟨hlen, hall⟩ := step h.2 hneed h.1
      exact ⟨by rw [List.length_cons]; omega, hall⟩

/-! ### Inputs that fit into the context -/

/-- Each input fits into the context together with those that must be in its batch. -/
def FitsAt (numCtx : Nat) (inputs : List Input) : Prop :=
  ∀ (p : Nat) (inp : Input), inputs[p]? = some inp → p + 1 + inp.sameBatch ≤ numCtx

theorem FitsAt.keepInputs {numCtx : Nat} {l : List Input} (h : FitsAt numCtx l)
    (numKeep discard : Nat) : FitsAt numCtx (keepInputs l numKeep discard) := by
  intro p inp hp
  rw [Runner.keepInputs, List.getElem?_append] at hp
  split at hp
  · rw [List.getElem?_take] at hp
    split at hp
    · exact h p inp hp
    · cases hp
  · rename_i hge
    rw [List.getElem?_drop] at hp
    have := h _ inp hp
    rw [List.length_take] at hge this
    omega

theorem FitsAt.snoc {numCtx : Nat} {l : List Input} (h : FitsAt numCtx l) {inp : Input}
    (hinp : l.length + 1 + inp.sameBatch ≤ numCtx) : FitsAt numCtx (l ++ [inp]) := by
  intro p inp' hp
  rw [List.getElem?_append] at hp
  split at hp
  · exact h p inp' hp
  · have hlt := (List.getElem?_eq_some_iff.mp hp).1
    have hval := (List.getElem?_eq_some_iff.mp hp).2
    rw [List.length_singleton] at hlt
    obtain rfl : inp = inp' := by
      rw [← hval]
      simp
    omega

theorem shiftKept_length {numCtx numKeep : Nat} {inputs : List Input} (hkeep : numKeep < numCtx)
    (hlen : numCtx ≤ inputs.length) : (shiftKept numCtx numKeep inputs).length < numCtx := by
  simp only [shiftKept, keepInputs, shiftDiscard, List.length_append, List.length_take,
    List.length_drop]
  have h1 := targetFree_pos numCtx numKeep
  have h2 := targetFree_le hkeep
  omega

theorem shiftDiscard_pos {numCtx numKeep len : Nat} (hlen : numCtx ≤ len) :
    shiftDiscard numCtx len numKeep ≠ 0 := by
  have h1 := targetFree_pos numCtx numKeep
  unfold shiftDiscard
  dsimp only
  omega

/-- The queue of a sequence over the inputs of its slot: all of it fits, or it is one sampled token,
for which room is made when its turn comes. -/
def Fits (numCtx : Nat) (slotInputs queue : List Input) : Prop :=
  FitsAt numCtx (slotInputs ++ queue) ∨
    FitsAt numCtx slotInputs ∧ ∃ inp : Input, queue = [inp] ∧ inp.sameBatch = 0

/-! ### The front of the queue -/

/-- The last input of the sequence's queue is in the batch, and its index is at `iBatch`. -/
def LastOutput (b : Building K) (seq : Sequence) : Prop :=
  seq.pendingInputs ≠ [] → seq.inputs.length = seq.pendingInputs.length →
    b.batch.outputs[seq.iBatch]? = some (b.batch.entries.length - 1)

/-- What the loop takes from a queue that fits as a whole. -/
structure TakesFront (b : Building K) (seq : Sequence) (b' : Building K) (seq' : Sequence) : Prop
    where
  server : b'.server = b.server
  requeued : b'.requeued = b.requeued
  inputs : seq'.inputs = seq.inputs
  front : seq'.pendingInputs <+: seq.inputs
  output : LastOutput b' seq'
  whole : Grouped 0 seq.inputs → needAfter 0 seq'.pendingInputs = 0

theorem Building.takesFront {ops : KvOps K} {env : Env} {seqIdx : Nat} {todo : List Input}
    {i batchSize : Nat} {b b' : Building K} {seq seq' : Sequence}
    (h : Building.addInputs ops env seqIdx todo i batchSize b seq = some (b', seq'))
    (hqueue : seq.inputs = seq.pendingInputs ++ todo) (hi : i = seq.pendingInputs.length)
    (fits : FitsAt b.server.cache.numCtx ((b.server.cache.slot seq.cache).inputs ++ seq.inputs))
    (output : LastOutput b seq)
    (room : needAfter 0 seq.pendingInputs ≠ 0 →
      b.batch.entries.length + needAfter 0 seq.pendingInputs ≤ batchSize) :
    TakesFront b seq b' seq' := by
  induction todo generalizing i batchSize b seq with
  | nil =>
    obtain ⟨rfl, rfl⟩ := Prod.mk.inj (Option.some.inj h)
    rw [List.append_nil] at hqueue
    refine ⟨rfl, rfl, rfl, by rw [hqueue], output, ?_⟩
    intro hgroup
    rw [hqueue, ← List.append_nil seq.pendingInputs] at hgroup
    exact hgroup.append
  | cons inp todo ih =>
    have hroom : b.server.cache.makeRoom ops seq (1 + inp.sameBatch) = .yes b.server.cache := by
      apply InputCache.makeRoom_fits
      have := fits ((b.server.cache.slot seq.cache).inputs.length + seq.pendingInputs.length) inp
        (by rw [hqueue, List.getElem?_append_right (by omega)]; simp)
      omega
    rw [addInputs] at h
    dsimp only at h
    have hsize1 : 1 + inp.sameBatch ≤
        if 1 + inp.sameBatch > batchSize then 1 + inp.sameBatch else batchSize := by
      split <;> omega
    have hsize2 : batchSize ≤
        if 1 + inp.sameBatch > batchSize then 1 + inp.sameBatch else batchSize := by
      split <;> omega
    generalize (if 1 + inp.sameBatch > batchSize then 1 + inp.sameBatch else batchSize) = size
      at h hsize1 hsize2
    have need (hgroup : Grouped 0 seq.inputs) {n : Nat}
        (hn : needAfter 0 seq.pendingInputs = n + 1) : inp.sameBatch ≤ n := by
      rw [hqueue] at hgroup
      have := hgroup.append
      rw [hn] at this
      exact this.1
    split at h
    · rename_i hfull
      obtain ⟨rfl, rfl⟩ := Prod.mk.inj (Option.some.inj h)
      refine ⟨rfl, rfl, rfl, by rw [hqueue]; exact List.prefix_append .., output, ?_⟩
      intro hgroup
      by_contra hne
      obtain ⟨n, hn⟩ := Nat.exists_eq_succ_of_ne_zero hne
      have := need hgroup hn
      have := room hne
      omega
    · rename_i hfull
      rw [hroom] at h
      dsimp only at h
      split at h
      · cases h
      · rename_i batch hpush
        obtain ⟨hentries, houtputs⟩ := ForwardBatch.push_some hpush
        have rest := ih h (by simp [hqueue]) (by simp [hi]) fits
          (by
            intro _ hlen
            dsimp only at hlen ⊢
            rw [houtputs, hentries, if_pos (by
              rw [decide_eq_true_eq, hlen, hi, List.length_append, List.length_singleton])]
            simp)
          (by
            dsimp only
            rw [hentries, List.length_append, List.length_singleton]
            intro _
            cases hn : needAfter 0 seq.pendingInputs with
            | zero =>
              rw [needAfter_snoc_zero hn]
              omega
            | succ n =>
              rw [needAfter_snoc_succ hn]
              have := room (by omega)
              omega)
        exact ⟨rest.server, rest.requeued, rest.inputs, rest.front, rest.output, rest.whole⟩

/-- What a sequence's turn takes from its queue. `retained` are inputs of its slot that were put in
front of the queue again, after which nothing is taken in this turn. -/
structure Taken (seqIdx : Nat) (b : Building K) (seq : Sequence) (b' : Building K)
    (seq' : Sequence) (retained : List Input) : Prop where
  inputs : seq'.inputs = retained ++ seq.inputs
  front : seq'.pendingInputs <+: seq'.inputs
  requeued : b'.requeued = b.requeued ∧ retained = [] ∨
    b'.requeued = b.requeued ++ [(seqIdx, retained)] ∧ seq'.pendingInputs = []
  output : LastOutput b' seq'
  whole : Grouped 0 seq.inputs → needAfter 0 seq'.pendingInputs = 0
  fits : Fits b.server.cache.numCtx (b'.server.cache.slot seq.cache).inputs seq'.inputs
  fitsAt : seq'.pendingInputs ≠ [] →
    FitsAt b.server.cache.numCtx ((b'.server.cache.slot seq.cache).inputs ++ seq'.inputs)

theorem Taken.of_takesFront {seqIdx : Nat} {b b' : Building K} {seq seq' : Sequence}
    (fits : FitsAt b.server.cache.numCtx ((b.server.cache.slot seq.cache).inputs ++ seq.inputs))
    (h : TakesFront b seq b' seq') : Taken seqIdx b seq b' seq' [] where
  inputs := h.inputs
  front := by
    rw [h.inputs]
    exact h.front
  requeued := .inl ⟨h.requeued, rfl⟩
  output := h.output
  whole := h.whole
  fits := by
    rw [h.server, h.inputs]
    exact .inl fits
  fitsAt := by
    rw [h.server, h.inputs]
    exact fun _ => fits

theorem Building.taken {ops : KvOps K} {env : Env} {seqIdx batchSize : Nat} {b b' : Building K}
    {seq seq' : Sequence}
    (h : Building.addInputs ops env seqIdx seq.inputs 0 batchSize b seq = some (b', seq'))
    (hslot : seq.cache < b.server.cache.slots.length) (hpending : seq.pendingInputs = [])
    (hkeep : seq.numKeep < b.server.cache.numCtx)
    (fits : Fits b.server.cache.numCtx (b.server.cache.slot seq.cache).inputs seq.inputs) :
    ∃ retained, Taken seqIdx b seq b' seq' retained := by
  have output {b : Building K} : LastOutput b seq := fun hne => absurd hpending hne
  rcases fits with fitsAt | ⟨fitsSlot, inp, hinp, h0⟩
  · exact ⟨[], .of_takesFront fitsAt (takesFront h (by simp [hpending]) (by simp [hpending]) fitsAt
      output (by rw [hpending]; exact fun h => absurd rfl h))⟩
  · by_cases hroom : (b.server.cache.slot seq.cache).inputs.length + 1 ≤ b.server.cache.numCtx
    · -- the token fits without a shift
      have fitsAt : FitsAt b.server.cache.numCtx
          ((b.server.cache.slot seq.cache).inputs ++ seq.inputs) := by
        rw [hinp]
        exact fitsSlot.snoc (by omega)
      exact ⟨[], .of_takesFront fitsAt (takesFront h (by simp [hpending]) (by simp [hpending])
        fitsAt output (by rw [hpending]; exact fun h => absurd rfl h))⟩
    · have hlen : b.server.cache.numCtx ≤ (b.server.cache.slot seq.cache).inputs.length := by omega
      have kept := fitsSlot.keepInputs seq.numKeep
        (shiftDiscard b.server.cache.numCtx (b.server.cache.slot seq.cache).inputs.length
          seq.numKeep)
      have keptLength := shiftKept_length hkeep hlen
      have keptFits : FitsAt b.server.cache.numCtx (shiftKept b.server.cache.numCtx seq.numKeep
          (b.server.cache.slot seq.cache).inputs ++ [inp]) := by
        apply kept.snoc
        change (shiftKept b.server.cache.numCtx seq.numKeep
          (b.server.cache.slot seq.cache).inputs).length + 1 + inp.sameBatch ≤ _
        omega
      rw [hinp, addInputs] at h
      dsimp only at h
      generalize (if 1 + inp.sameBatch > batchSize then 1 + inp.sameBatch else batchSize) = size
        at h
      split at h
      · obtain ⟨rfl, rfl⟩ := Prod.mk.inj (Option.some.inj h)
        refine ⟨[], rfl, ?_, .inl ⟨rfl, rfl⟩, output, ?_, .inr ⟨fitsSlot, inp, hinp, h0⟩, ?_⟩
        · rw [hpending]
          exact List.nil_prefix
        · intro _
          rw [hpending]
          rfl
        · exact fun hne => absurd hpending hne
      · split at h
        · rename_i hfull
          obtain ⟨rfl, rfl⟩ := Prod.mk.inj (Option.some.inj h)
          refine ⟨[], rfl, ?_, .inl ⟨rfl, rfl⟩, output, ?_, .inr ⟨fitsSlot, inp, hinp, h0⟩, ?_⟩
          · rw [hpending]
            exact List.nil_prefix
          · intro _
            rw [hpending]
            rfl
          · exact fun hne => absurd hpending hne
        · cases h
        · -- the context is processed again
          rename_i cache retained hmake
          obtain ⟨-, -, hshift⟩ := InputCache.makeRoom_requeued hmake
          obtain ⟨hempty, hretained⟩ := InputCache.shiftCacheSlot_reprocess hslot hshift
          rw [addInputs] at h
          obtain ⟨rfl, rfl⟩ := Prod.mk.inj (Option.some.inj h)
          refine ⟨retained, rfl, ?_, .inr ⟨rfl, hpending⟩, ?_, ?_, .inl ?_, ?_⟩
          · rw [hpending]
            exact List.nil_prefix
          · exact fun hne => absurd hpending hne
          · intro _
            rw [hpending]
            rfl
          · change FitsAt _ ((cache.slot seq.cache).inputs ++ (retained ++ seq.inputs))
            rw [hempty, List.nil_append, hretained, hinp]
            exact keptFits
          · exact fun hne => absurd hpending hne
        · rename_i cache hmake
          have hslotInputs : (cache.slot seq.cache).inputs = shiftKept b.server.cache.numCtx
              seq.numKeep (b.server.cache.slot seq.cache).inputs := by
            rcases InputCache.makeRoom_yes hmake with ⟨-, hle⟩ | ⟨-, -, hshift⟩
            · rw [hpending, List.length_nil] at hle
              omega
            · rcases InputCache.shiftCacheSlot_ok hslot hshift with ⟨-, hzero⟩ | hkept
              · exact absurd hzero (shiftDiscard_pos hlen)
              · exact hkept
          have fitsAt : FitsAt b.server.cache.numCtx
              ((cache.slot seq.cache).inputs ++ seq.inputs) := by
            rw [hslotInputs, hinp]
            exact keptFits
          split at h
          · cases h
          · rename_i batch hpush
            obtain ⟨hentries, houtputs⟩ := ForwardBatch.push_some hpush
            rw [addInputs] at h
            obtain ⟨rfl, rfl⟩ := Prod.mk.inj (Option.some.inj h)
            refine ⟨[], rfl, ?_, .inl ⟨rfl, rfl⟩, ?_, ?_, .inl fitsAt, fun _ => fitsAt⟩
            · simp [hpending, hinp]
            · intro _ _
              dsimp only
              rw [houtputs, hentries, if_pos (by simp [hinp])]
              simp
            · intro _
              dsimp only
              rw [hpending]
              exact h0

end Ecco9.Runner
