import Ecco9.Library.Search
import Ecco9.Library.Fields

/-! `HarmonyParser` in `server/harmonyparser.go`: the messages of a model that answers in the harmony
format, as events. -/

namespace Ecco9.Harmony

open Ecco9.Library

inductive HarmonyParserState : Type
  | lookingForMessageStart
  | parsingHeader
  | parsingContent
  deriving DecidableEq

structure HarmonyHeader where
  role : Text := []
  channel : Text := []
  recipient : Text := []
  deriving DecidableEq

inductive HarmonyEvent : Type
  | messageStart
  | headerComplete (header : HarmonyHeader)
  | contentEmitted (content : Text)
  | messageEnd
  deriving DecidableEq

structure HarmonyParser where
  state : HarmonyParserState := .lookingForMessageStart
  messageStartTag : Text
  messageEndTag : Text
  headerEndTag : Text
  acc : Text := []
  lifetimeAcc : Text := []
  deriving DecidableEq

/-- The first token is the role, unless it names a recipient; the recipient may be the second. -/
def parseTokens (channel : Text) : List Text → HarmonyHeader
  | [] => { channel }
  | first :: tokens =>
    let header : HarmonyHeader :=
      if ascii "to=" <+: first then { role := ascii "tool", channel, recipient := first.drop 3 }
      else { role := first, channel }
    match tokens with
    | [] => header
    | token :: _ =>
      if header.recipient = [] ∧ ascii "to=" <+: token then
        { header with recipient := token.drop 3 }
      else header

def parseHeader (raw : Text) : HarmonyHeader :=
  -- `<|constrain|>` is to be a token of its own
  let raw :=
    match cut (ascii "<|constrain|>") raw with
    | some (before, after) => trimSpace (before ++ ascii " <|constrain|>" ++ after)
    | none => raw
  match cut (ascii "<|channel|>") raw with
  | some (before, after) =>
    let channel := untilSpace after
    parseTokens channel (fields (trimSpace (before ++ after.drop channel.length)))
  | none => parseTokens [] (fields raw)

def emit (content : Text) : List HarmonyEvent :=
  if content = [] then [] else [.contentEmitted content]

/-- `eat`; the last component is true iff we should continue eating. -/
def HarmonyParser.eat (s : HarmonyParser) : HarmonyParser × List HarmonyEvent × Bool :=
  match s.state with
  | .lookingForMessageStart =>
    match cut s.messageStartTag s.acc with
    | some (_, after) => ({ s with acc := after, state := .parsingHeader }, [.messageStart], true)
    | none => (s, [], false)
  | .parsingHeader =>
    match cut s.headerEndTag s.acc with
    | some (header, after) =>
      ({ s with acc := after, state := .parsingContent }, [.headerComplete (parseHeader header)],
        true)
    | none => (s, [], false)
  | .parsingContent =>
    match cut s.messageEndTag s.acc with
    | some (content, after) =>
      ({ s with acc := after, state := .lookingForMessageStart }, emit content ++ [.messageEnd],
        true)
    | none =>
      let overlapLen := overlap s.acc s.messageEndTag
      if overlapLen > 0 then
        ({ s with acc := s.acc.drop (s.acc.length - overlapLen) },
          emit (s.acc.take (s.acc.length - overlapLen)), false)
      else if s.acc = [] then (s, [], false)
      else ({ s with acc := [] }, [.contentEmitted s.acc], false)

/-- The loop of `AddContent`. -/
def HarmonyParser.eatAll : Nat → HarmonyParser → HarmonyParser × List HarmonyEvent
  | 0, s => (s, [])
  | n + 1, s =>
    match s.eat with
    | (s, events, false) => (s, events)
    | (s, events, true) =>
      let (s, newEvents) := s.eatAll n
      (s, events ++ newEvents)

def HarmonyParser.receive (s : HarmonyParser) (content : Text) : HarmonyParser :=
  { s with lifetimeAcc := s.lifetimeAcc ++ content, acc := s.acc ++ content }

/-- Each round but the last takes a tag off what is accumulated. -/
def HarmonyParser.settle (s : HarmonyParser) : HarmonyParser × List HarmonyEvent :=
  s.eatAll (s.acc.length + 1)

def HarmonyParser.addContent (s : HarmonyParser) (content : Text) :
    HarmonyParser × List HarmonyEvent :=
  (s.receive content).settle

def HarmonyParser.addContents (s : HarmonyParser) : List Text → HarmonyParser × List HarmonyEvent
  | [] => (s, [])
  | content :: contents =>
    let (s, events) := s.addContent content
    let (s, newEvents) := s.addContents contents
    (s, events ++ newEvents)

def prependContent (c : Text) : List HarmonyEvent → List HarmonyEvent
  | .contentEmitted c' :: events => .contentEmitted (c ++ c') :: events
  | events => .contentEmitted c :: events

/-- Adjacent contents as one. -/
def mergeContent : List HarmonyEvent → List HarmonyEvent
  | [] => []
  | .contentEmitted c :: events => prependContent c (mergeContent events)
  | event :: events => event :: mergeContent events

/-! ### Merging -/

theorem mergeContent_append {events newEvents newEvents' : List HarmonyEvent}
    (h : mergeContent newEvents = mergeContent newEvents') :
    mergeContent (events ++ newEvents) = mergeContent (events ++ newEvents') := by
  induction events with
  | nil => exact h
  | cons event events ih =>
    cases event with
    | contentEmitted c => rw [List.cons_append, List.cons_append, mergeContent, mergeContent, ih]
    | messageStart => exact congrArg (.messageStart :: ·) ih
    | headerComplete header => exact congrArg (.headerComplete header :: ·) ih
    | messageEnd => exact congrArg (.messageEnd :: ·) ih

theorem prependContent_append (a b : Text) (events : List HarmonyEvent) :
    prependContent a (prependContent b events) = prependContent (a ++ b) events := by
  cases events with
  | nil => rfl
  | cons event events =>
    cases event with
    | contentEmitted c => simp only [prependContent, List.append_assoc]
    | _ => rfl

theorem mergeContent_emit (a b : Text) (events : List HarmonyEvent) :
    mergeContent (emit a ++ (emit b ++ events)) = mergeContent (emit (a ++ b) ++ events) := by
  unfold emit
  by_cases ha : a = []
  · simp [ha]
  · by_cases hb : b = []
    · simp [hb]
    · simp only [ha, hb, List.append_eq_nil_iff, and_self, if_false, List.cons_append,
        List.nil_append, mergeContent, prependContent_append]

/-! ### Rounds -/

structure HarmonyParser.Tagged (s : HarmonyParser) : Prop where
  messageStart : s.messageStartTag ≠ []
  messageEnd : s.messageEndTag ≠ []
  headerEnd : s.headerEndTag ≠ []

section
variable {s : HarmonyParser}

theorem eat_ends (hs : s.state = .parsingContent) {content after : Text}
    (h : cut s.messageEndTag s.acc = some (content, after)) :
    s.eat = ({ s with acc := after, state := .lookingForMessageStart },
      emit content ++ [.messageEnd], true) := by
  simp only [HarmonyParser.eat, hs, h]

/-- The part of the end tag at the end is held, if only none. -/
theorem eat_holds (hs : s.state = .parsingContent) (h : cut s.messageEndTag s.acc = none) :
    s.eat = ({ s with acc := s.acc.drop (s.acc.length - overlap s.acc s.messageEndTag) },
      emit (s.acc.take (s.acc.length - overlap s.acc s.messageEndTag)), false) := by
  simp only [HarmonyParser.eat, hs, h]
  split
  · rfl
  · rename_i hzero
    rw [Nat.eq_zero_of_not_pos hzero, Nat.sub_zero, List.drop_length, List.take_length, emit]
    split
    · rename_i hacc
      rw [← hacc, ← hs]
    · rfl

/-- A round that goes on has found a tag, and finds it with more text behind. -/
theorem eat_goes_on (tags : s.Tagged) (h : s.eat.2.2 = true) :
    s.eat.1.acc.length < s.acc.length ∧ s.eat.1.Tagged ∧
      ∀ content, (s.receive content).eat = (s.eat.1.receive content, s.eat.2.1, true) := by
  unfold HarmonyParser.eat at h
  cases hs : s.state with
  | lookingForMessageStart =>
    cases hcut : cut s.messageStartTag s.acc with
    | none => simp [hs, hcut] at h
    | some ba =>
      have heat : s.eat = ({ s with acc := ba.2, state := .parsingHeader }, [.messageStart], true) := by
        simp only [HarmonyParser.eat, hs, hcut]
      rw [heat]
      refine ⟨cut_isSome_length tags.messageStart hcut, ⟨tags.1, tags.2, tags.3⟩, ?_⟩
      intro content
      simp only [HarmonyParser.eat, HarmonyParser.receive, hs, cut_append hcut]
  | parsingHeader =>
    cases hcut : cut s.headerEndTag s.acc with
    | none => simp [hs, hcut] at h
    | some ba =>
      have heat : s.eat = ({ s with acc := ba.2, state := .parsingContent },
          [.headerComplete (parseHeader ba.1)], true) := by
        simp only [HarmonyParser.eat, hs, hcut]
      rw [heat]
      refine ⟨cut_isSome_length tags.headerEnd hcut, ⟨tags.1, tags.2, tags.3⟩, ?_⟩
      intro content
      simp only [HarmonyParser.eat, HarmonyParser.receive, hs, cut_append hcut]
  | parsingContent =>
    cases hcut : cut s.messageEndTag s.acc with
    | none =>
      have := eat_holds hs hcut
      rw [HarmonyParser.eat] at this
      rw [this] at h
      cases h
    | some ba =>
      rw [eat_ends hs hcut]
      refine ⟨cut_isSome_length tags.messageEnd hcut, ⟨tags.1, tags.2, tags.3⟩, ?_⟩
      intro content
      rw [eat_ends (s := s.receive content) hs (cut_append hcut content)]
      rfl

end

/-- The rounds allowed are never used up. -/
theorem eatAll_enough {s : HarmonyParser} (tags : s.Tagged) {n m : Nat} (hn : s.acc.length < n)
    (hm : s.acc.length < m) : s.eatAll n = s.eatAll m := by
  induction n generalizing s m with
  | zero => omega
  | succ n ih =>
    cases m with
    | zero => omega
    | succ m =>
      rw [HarmonyParser.eatAll, HarmonyParser.eatAll]
      have hgo := eat_goes_on tags
      generalize s.eat = e at hgo
      obtain ⟨s', events, more⟩ := e
      cases more with
      | false => rfl
      | true =>
        obtain ⟨hlen, tags', -⟩ := hgo rfl
        dsimp only at hlen tags' ⊢
        rw [ih tags' (m := m) (by omega) (by omega)]

theorem settle_stops {s s' : HarmonyParser} {events : List HarmonyEvent}
    (h : s.eat = (s', events, false)) : s.settle = (s', events) := by
  rw [HarmonyParser.settle, HarmonyParser.eatAll, h]

theorem settle_goes_on {s s' : HarmonyParser} (tags : s.Tagged) {events : List HarmonyEvent}
    (h : s.eat = (s', events, true)) : s.settle = (s'.settle.1, events ++ s'.settle.2) := by
  obtain ⟨hlen, tags', -⟩ := eat_goes_on tags (by rw [h])
  rw [h] at hlen tags'
  rw [HarmonyParser.settle, HarmonyParser.eatAll, h]
  dsimp only
  rw [HarmonyParser.settle, eatAll_enough tags' hlen (Nat.lt_succ_self _)]

theorem eat_tagged {s : HarmonyParser} (tags : s.Tagged) : s.eat.1.Tagged := by
  unfold HarmonyParser.eat
  cases s.state with
  | lookingForMessageStart =>
    dsimp only
    split <;> exact ⟨tags.1, tags.2, tags.3⟩
  | parsingHeader =>
    dsimp only
    split <;> exact ⟨tags.1, tags.2, tags.3⟩
  | parsingContent =>
    dsimp only
    split
    · exact ⟨tags.1, tags.2, tags.3⟩
    · split_ifs <;> exact ⟨tags.1, tags.2, tags.3⟩

theorem settle_tagged {s : HarmonyParser} (tags : s.Tagged) : s.settle.1.Tagged := by
  induction hn : s.acc.length using Nat.strong_induction_on generalizing s with
  | _ n ih =>
    have tags' := eat_tagged tags
    have hgo := eat_goes_on tags
    generalize heat : s.eat = e at tags' hgo
    obtain ⟨s', events, more⟩ := e
    cases more with
    | false =>
      rw [settle_stops heat]
      exact tags'
    | true =>
      rw [settle_goes_on tags heat]
      exact ih s'.acc.length (by rw [← hn]; exact (hgo rfl).1) tags' rfl

end Ecco9.Harmony
