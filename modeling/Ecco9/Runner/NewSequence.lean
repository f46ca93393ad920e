import Ecco9.Runner.Groups

/-! `NewSequence`, which shortens a prompt that is longer than the context and cuts no group. -/

namespace Ecco9.Runner

open Ecco9.Library

inductive NewSequenceError
  /-- "no input provided" -/
  | noInput
  /-- "SameBatch may not be specified within numKeep" -/
  | sameBatch (index numKeep sameBatch : Nat)
  /-- "entire prompt removed by truncation" -/
  | removed
  deriving DecidableEq

structure NewSequenceParams where
  numPredict : Int
  stop : List Text
  numKeep : Int
  embedding : Bool := false

/-- The loop over the inputs from `i` on, `sameBatch` of which still belong to a group. -/
def findPromptStart (numKeep : Nat) :
    List Input → (i sameBatch promptStart : Nat) → Except NewSequenceError Nat
  | [], _, _, promptStart => .ok promptStart
  | inp :: inputs, i, sameBatch, promptStart =>
    if sameBatch = 0 ∧ promptStart = i then .ok promptStart
    else
      let promptStart := if sameBatch > 0 ∧ promptStart = i then promptStart + 1 else promptStart
      if inp.sameBatch ≠ 0 then
        if i < numKeep then .error (.sameBatch i numKeep inp.sameBatch)
        else findPromptStart numKeep inputs (i + 1) inp.sameBatch promptStart
      else findPromptStart numKeep inputs (i + 1) (sameBatch - 1) promptStart

/-- At least one input can be discarded in a shift. -/
def keptOf (numCtx : Nat) (inputs : List Input) (numKeep : Int) : Nat :=
  Nat.min (if numKeep < 0 then inputs.length else numKeep.toNat) (numCtx - 1)

def newSequence (numCtx : Nat) (inputs : List Input) (params : NewSequenceParams) :
    Except NewSequenceError Sequence :=
  let numKeep := keptOf numCtx inputs params.numKeep
  let sequence (inputs : List Input) : Sequence :=
    { inputs, numKeep, numPredict := params.numPredict, stop := params.stop
      embeddingOnly := params.embedding }
  if inputs = [] then .error .noInput
  else if inputs.length > numCtx then
    match findPromptStart numKeep inputs 0 0 (numKeep + (inputs.length - numCtx)) with
    | .error e => .error e
    | .ok promptStart =>
      if promptStart ≥ inputs.length then .error .removed
      else .ok (sequence (inputs.take numKeep ++ inputs.drop promptStart))
  else .ok (sequence inputs)

/-! ### Groups that do not overlap -/

/-- The inputs consist of groups that do not overlap, after the `need` ones that end a group. -/
def Layout : Nat → List Input → Prop
  | need, [] => need = 0
  | 0, inp :: inputs => Layout inp.sameBatch inputs
  | need + 1, inp :: inputs => inp.sameBatch = 0 ∧ Layout need inputs

instance : (need : Nat) → (inputs : List Input) → Decidable (Layout need inputs)
  | 0, [] => inferInstanceAs (Decidable (0 = 0))
  | need + 1, [] => inferInstanceAs (Decidable (need + 1 = 0))
  | 0, inp :: inputs => instDecidableLayout inp.sameBatch inputs
  | need + 1, inp :: inputs =>
    have := instDecidableLayout need inputs
    inferInstanceAs (Decidable (inp.sameBatch = 0 ∧ Layout need inputs))

/-- How many inputs of a group follow `inp`. -/
def needNext (need : Nat) (inp : Input) : Nat :=
  if inp.sameBatch ≠ 0 then inp.sameBatch else need - 1

theorem Layout.tail {need : Nat} {inp : Input} {inputs : List Input}
    (h : Layout need (inp :: inputs)) : Layout (needNext need inp) inputs := by
  cases need with
  | zero =>
    rw [needNext]
    split
    · exact h
    · rename_i hzero
      rw [Layout, Decidable.not_not.mp hzero] at h
      exact h
  | succ need =>
    obtain ⟨hzero, h⟩ := h
    rw [needNext, if_neg (by simp [hzero])]
    exact h

/-- A place strictly inside a group, the first one of which has begun before. -/
def InsideAfter (need : Nat) (inputs : List Input) (n : Nat) : Prop := n < need ∨ Inside inputs n

theorem inside_cons {inp : Input} {inputs : List Input} {n : Nat} :
    Inside (inp :: inputs) (n + 1) ↔ n < inp.sameBatch ∨ Inside inputs n := by
  constructor
  · rintro ⟨p, x, hx, hlt, hle⟩
    cases p with
    | zero =>
      obtain rfl : inp = x := by simpa using hx
      exact .inl (by omega)
    | succ p => exact .inr ⟨p, x, hx, by omega, by omega⟩
  · rintro (hlt | ⟨p, x, hx, hlt, hle⟩)
    · exact ⟨0, inp, rfl, Nat.succ_pos _, by omega⟩
    · exact ⟨p + 1, x, hx, by omega, by omega⟩

theorem Layout.insideAfter_succ {need : Nat} {inp : Input} {inputs : List Input}
    (h : Layout need (inp :: inputs)) {n : Nat} :
    InsideAfter need (inp :: inputs) (n + 1) ↔ InsideAfter (needNext need inp) inputs n := by
  rw [InsideAfter, InsideAfter, inside_cons, ← or_assoc]
  refine or_congr_left ?_
  cases need with
  | zero =>
    rw [needNext]
    split <;> omega
  | succ need =>
    obtain ⟨hzero, -⟩ := h
    rw [needNext, if_neg (by simp [hzero])]
    omega

/-! ### The loop -/

/-- The first place from `start` on that is not inside a group. -/
structure FirstOutside (need : Nat) (inputs : List Input) (start n : Nat) : Prop where
  ge : start ≤ n
  outside : ¬InsideAfter need inputs n
  first : ∀ m, start ≤ m → m < n → InsideAfter need inputs m

theorem FirstOutside.cons {need : Nat} {inp : Input} {inputs : List Input} {start n : Nat}
    (layout : Layout need (inp :: inputs)) (hstart : start = 0 → need ≠ 0)
    (h : FirstOutside (needNext need inp) inputs (start - 1) n) :
    FirstOutside need (inp :: inputs) start (n + 1) where
  ge := by
    have := h.ge
    omega
  outside := fun hin => h.outside (layout.insideAfter_succ.mp hin)
  first := by
    intro m hle hlt
    cases m with
    | zero =>
      have := hstart (Nat.le_zero.mp hle)
      exact .inl (by omega)
    | succ m => exact layout.insideAfter_succ.mpr (h.first m (by omega) (by omega))

theorem findPromptStart_cons {numKeep need i start : Nat} {inp : Input} {inputs : List Input}
    (h : start = 0 → need ≠ 0) :
    findPromptStart numKeep (inp :: inputs) i need (i + start) =
      if inp.sameBatch ≠ 0 ∧ i < numKeep then .error (.sameBatch i numKeep inp.sameBatch)
      else findPromptStart numKeep inputs (i + 1) (needNext need inp) (i + 1 + (start - 1)) := by
  have moved : (if need > 0 ∧ i + start = i then i + start + 1 else i + start) =
      i + 1 + (start - 1) := by
    split <;> omega
  rw [findPromptStart, if_neg (by omega)]
  dsimp only
  rw [moved, needNext]
  by_cases hgroup : inp.sameBatch ≠ 0
  · rw [if_pos hgroup, if_pos hgroup]
    by_cases hkeep : i < numKeep
    · rw [if_pos hkeep, if_pos ⟨hgroup, hkeep⟩]
    · rw [if_neg hkeep, if_neg fun h => hkeep h.2]
  · rw [if_neg hgroup, if_neg hgroup, if_neg fun h => hgroup h.1]

theorem findPromptStart_ok {inputs : List Input} (numKeep need i start : Nat)
    (layout : Layout need inputs) (hstart : start ≤ inputs.length)
    (plain : ∀ p inp, inputs[p]? = some inp → i + p < numKeep → inp.sameBatch = 0) :
    ∃ n, findPromptStart numKeep inputs i need (i + start) = .ok (i + n) ∧
      FirstOutside need inputs start n := by
  induction inputs generalizing need i start with
  | nil =>
    obtain rfl : need = 0 := layout
    obtain rfl : start = 0 := Nat.le_zero.mp hstart
    refine ⟨0, rfl, Nat.le_refl _, ?_, fun m _ hm => absurd hm (Nat.not_lt_zero m)⟩
    rintro (h | h)
    · cases h
    · exact not_inside_zero [] h
  | cons inp inputs ih =>
    by_cases hstop : need = 0 ∧ start = 0
    · obtain ⟨rfl, rfl⟩ := hstop
      refine ⟨0, by simp [findPromptStart], Nat.le_refl _, ?_,
        fun m _ hm => absurd hm (Nat.not_lt_zero m)⟩
      rintro (h | h)
      · cases h
      · exact not_inside_zero _ h
    · have hgo : start = 0 → need ≠ 0 := fun hs hn => hstop ⟨hn, hs⟩
      obtain ⟨n, hn, first⟩ := ih (needNext need inp) (i + 1) (start - 1) layout.tail
        (by rw [List.length_cons] at hstart; omega)
        (fun p x hx hlt => plain (p + 1) x hx (by omega))
      refine ⟨n + 1, ?_, first.cons layout hgo⟩
      rw [findPromptStart_cons hgo, if_neg, hn, Nat.add_right_comm, Nat.add_assoc]
      rintro ⟨hgroup, hlt⟩
      exact hgroup (plain 0 inp rfl hlt)

/-- The first group that starts before `numKeep` is refused. -/
theorem findPromptStart_error {p : Nat} {inp : Input} {inputs : List Input}
    (numKeep need i start : Nat) (hp : inputs[p]? = some inp) (hlt : i + p < numKeep) (hgroup : inp.sameBatch ≠ 0)
    (hkeep : numKeep ≤ i + start) : ∃ q x, inputs[q]? = some x ∧ i + q < numKeep ∧
      x.sameBatch ≠ 0 ∧ findPromptStart numKeep inputs i need (i + start) =
        .error (.sameBatch (i + q) numKeep x.sameBatch) := by
  induction inputs generalizing need i start p with
  | nil => cases hp
  | cons y inputs ih =>
    rw [findPromptStart_cons (by omega)]
    by_cases hy : y.sameBatch ≠ 0
    · exact ⟨0, y, rfl, by omega, hy, by rw [if_pos ⟨hy, by omega⟩]; rfl⟩
    · cases p with
      | zero =>
        obtain rfl : y = inp := by simpa using hp
        exact absurd hgroup hy
      | succ p =>
        obtain ⟨q, x, hx, hq, hsame, heq⟩ := ih (needNext need y) (i + 1) (start - 1) hp (by omega)
          (by omega)
        refine ⟨q + 1, x, hx, by omega, hsame, ?_⟩
        rw [if_neg fun h => hy h.1, heq, Nat.add_right_comm, Nat.add_assoc]

theorem findPromptStart_ge {numKeep need i start n : Nat} {inputs : List Input}
    (h : findPromptStart numKeep inputs i need (i + start) = .ok n) : i + start ≤ n := by
  induction inputs generalizing need i start with
  | nil =>
    obtain rfl := Except.ok.inj h
    exact Nat.le_refl _
  | cons inp inputs ih =>
    by_cases hgo : start = 0 → need ≠ 0
    · rw [findPromptStart_cons hgo] at h
      split at h
      · cases h
      · have := ih h
        omega
    · rw [findPromptStart, if_pos (by omega)] at h
      obtain rfl := Except.ok.inj h
      exact Nat.le_refl _

/-! ### Prompts that are shortened -/

theorem keptOf_lt {numCtx : Nat} (hctx : 0 < numCtx) (inputs : List Input) (numKeep : Int) :
    keptOf numCtx inputs numKeep < numCtx := by
  have : keptOf numCtx inputs numKeep ≤ numCtx - 1 := Nat.min_le_right ..
  omega

/-- A group starts before `numKeep`. -/
def KeepsGroup (inputs : List Input) (numKeep : Nat) : Prop :=
  ∃ p inp, inputs[p]? = some inp ∧ p < numKeep ∧ inp.sameBatch ≠ 0

theorem plain_take {inputs : List Input} {numKeep : Nat} (h : ¬KeepsGroup inputs numKeep) :
    ∀ inp ∈ inputs.take numKeep, inp.sameBatch = 0 := by
  intro inp hinp
  obtain ⟨p, hp⟩ := List.mem_iff_getElem?.mp hinp
  rw [List.getElem?_take] at hp
  split at hp
  · rename_i hlt
    by_contra hsame
    exact h ⟨p, inp, hp, hlt, hsame⟩
  · cases hp

theorem Layout.of_plain_append {inputs rest : List Input} (plain : ∀ inp ∈ inputs, inp.sameBatch = 0)
    (h : Layout 0 rest) : Layout 0 (inputs ++ rest) := by
  induction inputs with
  | nil => exact h
  | cons inp inputs ih =>
    rw [List.cons_append, Layout, plain inp List.mem_cons_self]
    exact ih fun x hx => plain x (List.mem_cons_of_mem _ hx)

theorem Layout.drop {need : Nat} {inputs : List Input} (h : Layout need inputs) {n : Nat}
    (hn : ¬InsideAfter need inputs n) : Layout 0 (inputs.drop n) := by
  induction inputs generalizing need n with
  | nil =>
    rw [List.drop_nil]
    rfl
  | cons inp inputs ih =>
    cases n with
    | zero =>
      obtain rfl : need = 0 := by
        by_contra hne
        exact hn (.inl (by omega))
      exact h
    | succ n => exact ih h.tail fun hin => hn (h.insideAfter_succ.mpr hin)

theorem FirstOutside.isLeast {inputs : List Input} {start n : Nat}
    (h : FirstOutside 0 inputs start n) : IsLeast {n | start ≤ n ∧ ¬Inside inputs n} n := by
  refine ⟨⟨h.ge, fun hin => h.outside (.inr hin)⟩, fun m hm => ?_⟩
  by_contra hlt
  rcases h.first m hm.1 (by omega) with hneed | hin
  · cases hneed
  · exact hm.2 hin

/-- A prompt that is too long is cut at the end of a group, as early as possible, or refused. -/
theorem newSequence_truncates {numCtx : Nat} {inputs : List Input} (params : NewSequenceParams)
    (hctx : 0 < numCtx) (hlen : numCtx < inputs.length) (layout : Layout 0 inputs) :
    ∃ promptStart,
      IsLeast {n | keptOf numCtx inputs params.numKeep + (inputs.length - numCtx) ≤ n ∧
        ¬Inside inputs n} promptStart ∧
      ((∃ e, newSequence numCtx inputs params = .error e) ↔
        KeepsGroup inputs (keptOf numCtx inputs params.numKeep) ∨ inputs.length ≤ promptStart) ∧
      ∀ seq, newSequence numCtx inputs params = .ok seq →
        seq.inputs = inputs.take (keptOf numCtx inputs params.numKeep) ++ inputs.drop promptStart ∧
        1 ≤ seq.inputs.length ∧ seq.inputs.length ≤ numCtx ∧ Layout 0 seq.inputs := by
  have hkeep := keptOf_lt hctx inputs params.numKeep
  generalize hk : keptOf numCtx inputs params.numKeep = numKeep at hkeep
  have hne : inputs ≠ [] := by
    rintro rfl
    cases hlen
  have hnew : newSequence numCtx inputs params =
      match findPromptStart numKeep inputs 0 0 (numKeep + (inputs.length - numCtx)) with
      | .error e => .error e
      | .ok promptStart =>
        if promptStart ≥ inputs.length then .error .removed
        else .ok { inputs := inputs.take numKeep ++ inputs.drop promptStart, numKeep
                   numPredict := params.numPredict, stop := params.stop
                   embeddingOnly := params.embedding } := by
    rw [newSequence, if_neg hne, if_pos hlen, hk]
  have hstart : numKeep + (inputs.length - numCtx) ≤ inputs.length := by omega
  by_cases hgroup : KeepsGroup inputs numKeep
  · obtain ⟨n, -, first⟩ := findPromptStart_ok 0 0 0 _ layout hstart
      fun p inp _ hlt => absurd hlt (Nat.not_lt_zero _)
    obtain ⟨p, inp, hp, hlt, hsame⟩ := hgroup
    obtain ⟨q, x, -, -, -, herror⟩ := findPromptStart_error numKeep 0 0
      (numKeep + (inputs.length - numCtx)) hp (by omega) hsame (by omega)
    rw [Nat.zero_add, Nat.zero_add] at herror
    rw [herror] at hnew
    refine ⟨n, first.isLeast, ⟨fun _ => .inl ⟨p, inp, hp, hlt, hsame⟩, fun _ => ⟨_, hnew⟩⟩, ?_⟩
    intro seq hseq
    rw [hnew] at hseq
    cases hseq
  · have plain (p : Nat) (inp : Input) (hp : inputs[p]? = some inp) (hlt : p < numKeep) :
        inp.sameBatch = 0 := by
      by_contra hsame
      exact hgroup ⟨p, inp, hp, hlt, hsame⟩
    obtain ⟨n, hn, first⟩ := findPromptStart_ok numKeep 0 0 _ layout hstart
      fun p inp hp hlt => plain p inp hp (Nat.zero_add p ▸ hlt)
    rw [Nat.zero_add, Nat.zero_add] at hn
    rw [hn] at hnew
    dsimp only at hnew
    have hge := first.ge
    refine ⟨n, first.isLeast, ?_, fun seq hseq => ?_⟩
    · by_cases hall : n ≥ inputs.length
      · rw [if_pos hall] at hnew
        exact ⟨fun _ => .inr hall, fun _ => ⟨_, hnew⟩⟩
      · rw [if_neg hall] at hnew
        refine ⟨?_, ?_⟩
        · rintro ⟨e, he⟩
          rw [hnew] at he
          cases he
        · rintro (h | h)
          · exact absurd h hgroup
          · exact absurd h hall
    · rw [hnew] at hseq
      split at hseq
      · cases hseq
      · rename_i hlt
        obtain rfl := Except.ok.inj hseq
        refine ⟨rfl, ?_, ?_, .of_plain_append (plain_take hgroup) (layout.drop first.outside)⟩
        all_goals
          rw [List.length_append, List.length_take, List.length_drop]
          omega

theorem Complete.drop {inputs : List Input} (h : Complete inputs) (n : Nat) :
    Complete (inputs.drop n) := by
  induction inputs generalizing n with
  | nil =>
    rw [List.drop_nil]
    exact h
  | cons inp inputs ih =>
    cases n with
    | zero => exact h
    | succ n => exact ih h.2 n

theorem Complete.of_plain_append {inputs rest : List Input}
    (plain : ∀ inp ∈ inputs, inp.sameBatch = 0) (h : Complete rest) : Complete (inputs ++ rest) := by
  induction inputs with
  | nil => exact h
  | cons inp inputs ih =>
    refine ⟨?_, ih fun x hx => plain x (List.mem_cons_of_mem _ hx)⟩
    rw [plain inp List.mem_cons_self]
    exact Nat.zero_le _

/-- What `NewSequence` makes can be queued: a prompt whose groups are complete, in its context. -/
theorem newSequence_admissible {numCtx : Nat} {inputs : List Input} {params : NewSequenceParams}
    {seq : Sequence} (hctx : 0 < numCtx) (complete : Complete inputs)
    (h : newSequence numCtx inputs params = .ok seq) : Admissible numCtx seq := by
  have hkeep := keptOf_lt hctx inputs params.numKeep
  rw [newSequence] at h
  generalize keptOf numCtx inputs params.numKeep = numKeep at h hkeep
  dsimp only at h
  split at h
  · cases h
  · rename_i hne
    split at h
    · rename_i hlen
      split at h
      · cases h
      · rename_i promptStart hstart
        rw [← Nat.zero_add (numKeep + _)] at hstart
        have hge := findPromptStart_ge hstart
        have hgroup : ¬KeepsGroup inputs numKeep := by
          rintro ⟨p, inp, hp, hlt, hsame⟩
          obtain ⟨q, x, -, -, -, herror⟩ := findPromptStart_error numKeep 0 0
            (numKeep + (inputs.length - numCtx)) hp (by omega) hsame (by omega)
          rw [hstart] at herror
          cases herror
        split at h
        · cases h
        · rename_i hlt
          obtain rfl := Except.ok.inj h
          have length : (inputs.take numKeep ++ inputs.drop promptStart).length =
              numKeep + (inputs.length - promptStart) := by
            rw [List.length_append, List.length_take, List.length_drop]
            omega
          refine ⟨rfl, ?_, ?_, hkeep, .of_plain_append (plain_take hgroup) (complete.drop _)⟩
          · refine List.length_pos_iff.mp ?_
            rw [length]
            omega
          · rw [length]
            omega
    · rename_i hlen
      obtain rfl := Except.ok.inj h
      exact ⟨rfl, hne, by simpa using hlen, hkeep, complete⟩

/-- Five inputs for a context of four, where the cut falls into a group: all of the group goes. -/
def fiveInputs : List Input :=
  [{ token := 1 }, { token := 2, sameBatch := 1 }, { token := 3 }, { token := 4 }, { token := 5 }]

theorem fiveInputs_truncated : ∃ promptStart,
    IsLeast {n | keptOf 4 fiveInputs 1 + (fiveInputs.length - 4) ≤ n ∧ ¬Inside fiveInputs n}
      promptStart ∧
    ∀ seq, newSequence 4 fiveInputs { numPredict := 1, stop := [], numKeep := 1 } = .ok seq →
      seq.inputs = fiveInputs.take 1 ++ fiveInputs.drop promptStart ∧ seq.inputs.length ≤ 4 := by
  obtain ⟨promptStart, least, -, kept⟩ := newSequence_truncates
    { numPredict := 1, stop := [], numKeep := 1 } (show 0 < 4 by decide)
    (show 4 < fiveInputs.length by decide) (by decide)
  exact ⟨promptStart, least, fun seq hseq => ⟨(kept seq hseq).1, (kept seq hseq).2.2.1⟩⟩

end Ecco9.Runner
