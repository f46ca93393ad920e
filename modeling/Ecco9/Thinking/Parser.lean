import Ecco9.Library.Search
import Ecco9.Library.Space

/-! `thinking/parser.go`: the thinking of a model, told from its answer by a pair of tags. -/

namespace Ecco9.Thinking

open Ecco9.Library

inductive ThinkingState : Type
  | lookingForOpening
  | thinkingStartedEatingWhitespace
  | thinking
  | thinkingDoneEatingWhitespace
  | thinkingDone
  deriving DecidableEq

structure Parser where
  state : ThinkingState := .lookingForOpening
  openingTag : Text
  closingTag : Text
  acc : Text := []
  deriving DecidableEq

/-- The thinking and the remaining content returned by a call. -/
structure Returned where
  thinking : Text := []
  remaining : Text := []
  deriving DecidableEq

def Returned.append (a b : Returned) : Returned :=
  ⟨a.thinking ++ b.thinking, a.remaining ++ b.remaining⟩

/-- `eat`; the last component is true iff we should continue eating. -/
def Parser.eat (s : Parser) : Parser × Returned × Bool :=
  match s.state with
  | .lookingForOpening =>
    let trimmed := trimLeft s.acc
    if s.openingTag <+: trimmed then
      let after := trimLeft (s.openingTag.intercalate (split s.openingTag trimmed).tail)
      if after = [] then
        ({ s with acc := after, state := .thinkingStartedEatingWhitespace }, {}, true)
      else ({ s with acc := after, state := .thinking }, {}, true)
    else if trimmed <+: s.openingTag then (s, {}, false)
    else if trimmed = [] then (s, {}, false)
    else
      -- `acc` is returned, and stays
      ({ s with state := .thinkingDone }, { remaining := s.acc }, false)
  | .thinkingStartedEatingWhitespace =>
    let trimmed := trimLeft s.acc
    if trimmed = [] then ({ s with acc := [] }, {}, false)
    else ({ s with acc := trimmed, state := .thinking }, {}, true)
  | .thinking =>
    if (cut s.closingTag s.acc).isSome then
      let pieces := split s.closingTag s.acc
      let remaining := trimLeft (s.closingTag.intercalate pieces.tail)
      let state := if remaining = [] then .thinkingDoneEatingWhitespace else .thinkingDone
      ({ s with acc := [], state }, ⟨pieces.headD [], remaining⟩, false)
    else
      let overlapLen := overlap s.acc s.closingTag
      if overlapLen > 0 then
        ({ s with acc := s.acc.drop (s.acc.length - overlapLen) },
          { thinking := s.acc.take (s.acc.length - overlapLen) }, false)
      else ({ s with acc := [] }, { thinking := s.acc }, false)
  | .thinkingDoneEatingWhitespace =>
    let trimmed := trimLeft s.acc
    let state := if trimmed = [] then s.state else .thinkingDone
    ({ s with acc := [], state }, { remaining := trimmed }, false)
  | .thinkingDone => ({ s with acc := [] }, { remaining := s.acc }, false)

/-- The loop of `AddContent`. -/
def Parser.eatAll : Nat → Parser → Parser × Returned
  | 0, s => (s, {})
  | n + 1, s =>
    match s.eat with
    | (s, r, false) => (s, r)
    | (s, r, true) =>
      let (s, r') := s.eatAll n
      (s, r.append r')

/-- `AddContent`. Eating goes on only into a later state, so that five rounds are enough. -/
def Parser.addContent (s : Parser) (content : Text) : Parser × Returned :=
  { s with acc := s.acc ++ content }.eatAll 5

/-- All that a stream of chunks makes the parser return. -/
def Parser.addContents (s : Parser) : List Text → Parser × Returned
  | [] => (s, {})
  | content :: contents =>
    let (s, r) := s.addContent content
    let (s, r') := s.addContents contents
    (s, r.append r')

/-! ### The rounds of one call -/

def ThinkingState.rank : ThinkingState → Nat
  | .lookingForOpening => 0
  | .thinkingStartedEatingWhitespace => 1
  | .thinking => 2
  | .thinkingDoneEatingWhitespace => 3
  | .thinkingDone => 4

theorem eat_rank {s : Parser} (h : s.eat.2.2 = true) : s.state.rank < s.eat.1.state.rank := by
  unfold Parser.eat at h ⊢
  cases hs : s.state with
  | lookingForOpening =>
    rw [hs] at h
    dsimp only at h ⊢
    split at h
    · rename_i hopen
      rw [if_pos hopen]
      split <;> exact Nat.zero_lt_succ _
    · split at h
      · cases h
      · split at h <;> cases h
  | thinkingStartedEatingWhitespace =>
    rw [hs] at h
    dsimp only at h ⊢
    split at h
    · cases h
    · rename_i htrim
      rw [if_neg htrim]
      exact Nat.lt_succ_self 1
  | thinking =>
    rw [hs] at h
    dsimp only at h
    split at h
    · cases h
    · split at h <;> cases h
  | thinkingDoneEatingWhitespace =>
    rw [hs] at h
    cases h
  | thinkingDone =>
    rw [hs] at h
    cases h

theorem rank_le (state : ThinkingState) : state.rank ≤ 4 := by
  cases state <;> decide

/-- The rounds allowed are never used up. -/
theorem eatAll_enough (s : Parser) {n m : Nat} (hn : 5 ≤ n + s.state.rank)
    (hm : 5 ≤ m + s.state.rank) : s.eatAll n = s.eatAll m := by
  induction n generalizing s m with
  | zero =>
    have := rank_le s.state
    omega
  | succ n ih =>
    cases m with
    | zero =>
      have := rank_le s.state
      omega
    | succ m =>
      rw [Parser.eatAll, Parser.eatAll]
      have hrank := eat_rank (s := s)
      generalize s.eat = e at hrank
      obtain ⟨s', r, more⟩ := e
      cases more with
      | false => rfl
      | true =>
        have hrank : s.state.rank < s'.state.rank := hrank rfl
        dsimp only
        rw [ih s' (m := m) (by omega) (by omega)]

theorem eatAll_of_stop {s s' : Parser} {r : Returned} (h : s.eat = (s', r, false)) (n : Nat) :
    s.eatAll (n + 1) = (s', r) := by
  rw [Parser.eatAll, h]

/-! ### Streams without thinking -/

theorem addContent_done {s : Parser} (h : s.state = .thinkingDone) (content : Text) :
    s.addContent content = ({ s with acc := [] }, { remaining := s.acc ++ content }) := by
  apply eatAll_of_stop
  simp only [Parser.eat, h]

theorem addContents_done {s : Parser} (h : s.state = .thinkingDone) (contents : List Text) :
    (s.addContents contents).2 =
      { remaining := if contents = [] then [] else s.acc ++ contents.flatten } := by
  induction contents generalizing s with
  | nil => rfl
  | cons content contents ih =>
    have hrest := ih (s := { s with acc := [] }) h
    rw [Parser.addContents, addContent_done h]
    dsimp only
    rw [hrest]
    cases contents with
    | nil => simp [Returned.append]
    | cons c cs => simp [Returned.append]

section
variable {s : Parser} (looking : s.state = .lookingForOpening)
include looking

theorem addContent_waits {content : Text}
    (hopen : ¬s.openingTag <+: trimLeft (s.acc ++ content))
    (hwait : trimLeft (s.acc ++ content) <+: s.openingTag) :
    s.addContent content = ({ s with acc := s.acc ++ content }, {}) := by
  apply eatAll_of_stop
  simp only [Parser.eat, looking, if_neg hopen, if_pos hwait]

theorem addContent_skips {content : Text}
    (hopen : ¬s.openingTag <+: trimLeft (s.acc ++ content))
    (hskip : ¬trimLeft (s.acc ++ content) <+: s.openingTag) :
    s.addContent content = ({ s with acc := s.acc ++ content, state := .thinkingDone },
      { remaining := s.acc ++ content }) := by
  have hne : trimLeft (s.acc ++ content) ≠ [] := by
    intro h
    rw [h] at hskip
    exact hskip List.nil_prefix
  apply eatAll_of_stop
  simp only [Parser.eat, looking, if_neg hopen, if_neg hskip, if_neg hne]

end

theorem trimLeft_mono {s t tag : Text} (valid : utf8Valid s) (h : trimLeft s ≠ [])
    (hp : trimLeft (s ++ t) <+: tag) : trimLeft s <+: tag := by
  rw [trimLeft_append valid h] at hp
  exact (List.prefix_append ..).trans hp

/-- The parser that is still looking decides within some chunk that there is no thinking; what it
has by then is returned again with the next. -/
theorem addContents_skips {s : Parser} (looking : s.state = .lookingForOpening)
    {contents : List Text} (acc : utf8Valid s.acc) (valid : ∀ c ∈ contents, utf8Valid c)
    (waits : trimLeft s.acc <+: s.openingTag)
    (hopen : ¬s.openingTag <+: trimLeft (s.acc ++ contents.flatten))
    (hskip : ¬trimLeft (s.acc ++ contents.flatten) <+: s.openingTag) :
    (s.addContents contents).2.thinking = [] ∧
      ((s.addContents contents).2.remaining = s.acc ++ contents.flatten ↔
        trimLeft (s.acc ++ contents.dropLast.flatten) <+: s.openingTag) := by
  induction contents generalizing s with
  | nil =>
    rw [List.flatten_nil, List.append_nil] at hskip
    exact absurd waits hskip
  | cons content contents ih =>
    rw [List.flatten_cons, ← List.append_assoc] at hopen hskip ⊢
    have acc' : utf8Valid (s.acc ++ content) := by
      rw [utf8Valid_append acc]
      exact valid content (by simp)
    have hopen' : ¬s.openingTag <+: trimLeft (s.acc ++ content) := by
      intro h
      by_cases hblank : trimLeft (s.acc ++ content) = []
      · rw [hblank, List.prefix_nil] at h
        rw [h] at hopen
        exact hopen List.nil_prefix
      · rw [trimLeft_append acc' hblank] at hopen
        exact hopen (h.trans (List.prefix_append ..))
    by_cases hwait : trimLeft (s.acc ++ content) <+: s.openingTag
    · -- not decided yet
      have hlast : contents ≠ [] := by
        rintro rfl
        rw [List.flatten_nil, List.append_nil] at hskip
        exact hskip hwait
      have hrest := ih (s := { s with acc := s.acc ++ content }) looking acc'
        (fun c hc => valid c (by simp [hc])) hwait hopen hskip
      rw [Parser.addContents, addContent_waits looking hopen' hwait,
        List.dropLast_cons_of_ne_nil hlast, List.flatten_cons, ← List.append_assoc]
      simpa [Returned.append] using hrest
    · rw [Parser.addContents, addContent_skips looking hopen' hwait]
      dsimp only
      rw [addContents_done rfl]
      refine ⟨rfl, ?_⟩
      cases contents with
      | nil => simpa [Returned.append] using waits
      | cons c cs =>
        have hne : trimLeft (s.acc ++ content) ≠ [] := by
          intro h
          rw [h] at hwait
          exact hwait List.nil_prefix
        have hacc : s.acc ++ content ≠ [] := by
          intro h
          rw [h] at hne
          exact hne rfl
        rw [List.dropLast_cons_of_ne_nil (List.cons_ne_nil c cs)]
        constructor
        · intro h
          -- twice what was accumulated
          exfalso
          have hpos := List.length_pos_iff.mpr hacc
          have := congrArg List.length h
          simp only [Returned.append, reduceCtorEq, if_false, List.length_append] at this hpos
          omega
        · intro h
          rw [List.flatten_cons, ← List.append_assoc] at h
          exact absurd (trimLeft_mono acc' hne h) hwait

/-- Without thinking the text comes back as it is iff nothing but the last chunk tells that there
is none. -/
theorem addContents_without_thinking {openingTag closingTag : Text} {contents : List Text}
    (valid : ∀ c ∈ contents, utf8Valid c)
    (hopen : ¬openingTag <+: trimLeft contents.flatten)
    (hskip : ¬trimLeft contents.flatten <+: openingTag) :
    (({ openingTag, closingTag } : Parser).addContents contents).2 =
        ⟨[], contents.flatten⟩ ↔
      trimLeft contents.dropLast.flatten <+: openingTag := by
  have h := addContents_skips (s := { openingTag, closingTag }) rfl rfl valid List.nil_prefix
    hopen hskip
  dsimp only [List.nil_append] at h
  rw [← h.2]
  constructor
  · intro heq
    rw [heq]
  · intro heq
    rw [← heq, Returned.mk.injEq]
    exact ⟨h.1, rfl⟩

/-- The one chunk of "hello" comes back. -/
theorem hello_once :
    (({ openingTag := ascii "<think>", closingTag := ascii "</think>" } : Parser).addContents
        [ascii "hello"]).2 = ⟨[], [ascii "hello"].flatten⟩ ↔
      trimLeft ([ascii "hello"] : List Text).dropLast.flatten <+: ascii "<think>" :=
  addContents_without_thinking (by decide) (by decide) (by decide)

/-- Of two chunks the first comes back twice. -/
theorem hello_twice :
    (∀ c ∈ [ascii "hello", ascii " world"], utf8Valid c) ∧
      ¬ascii "<think>" <+: trimLeft [ascii "hello", ascii " world"].flatten ∧
      ¬trimLeft [ascii "hello", ascii " world"].flatten <+: ascii "<think>" ∧
      (({ openingTag := ascii "<think>", closingTag := ascii "</think>" } : Parser).addContents
        [ascii "hello", ascii " world"]).2 = ⟨[], ascii "hellohello world"⟩ ∧
      ascii "hellohello world" ≠ [ascii "hello", ascii " world"].flatten := by
  decide

end Ecco9.Thinking
