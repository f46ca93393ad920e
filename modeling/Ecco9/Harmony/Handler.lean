import Ecco9.Harmony.Parser

/-! `HarmonyMessageHandler` in `server/harmonyparser.go`, and that neither it nor the parser it feeds
can tell how a text was cut into chunks. -/

namespace Ecco9.Harmony

open Ecco9.Library

inductive HarmonyMessageState : Type
  | normal
  | thinking
  | toolCalling
  deriving DecidableEq

structure HarmonyMessageHandler where
  state : HarmonyMessageState := .normal
  harmonyParser : HarmonyParser :=
    { messageStartTag := ascii "<|start|>"
      messageEndTag := ascii "<|end|>"
      headerEndTag := ascii "<|message|>" }
  deriving DecidableEq

structure HarmonyToolCallAccumulator where
  currentToolName : Option Text := none
  deriving DecidableEq

def HarmonyToolCallAccumulator.setToolName (a : HarmonyToolCallAccumulator) (toolName : Text) :
    HarmonyToolCallAccumulator :=
  { a with currentToolName := some toolName }

/-- The strings that `AddContent` returns. -/
structure Contents where
  content : Text := []
  thinking : Text := []
  toolContent : Text := []
  deriving DecidableEq

def Contents.append (a b : Contents) : Contents :=
  ⟨a.content ++ b.content, a.thinking ++ b.thinking, a.toolContent ++ b.toolContent⟩

/-- The variables of the loop over the events. -/
structure Handling where
  state : HarmonyMessageState
  toolParser : HarmonyToolCallAccumulator
  out : Contents := {}
  deriving DecidableEq

def Handling.handle (h : Handling) : HarmonyEvent → Handling
  | .messageStart => h
  | .headerComplete header =>
    if header.channel = ascii "analysis" then
      if header.recipient ≠ [] then
        { h with state := .toolCalling, toolParser := h.toolParser.setToolName header.recipient }
      else { h with state := .thinking }
    else if header.channel = ascii "commentary" then
      if header.recipient ≠ [] then
        { h with state := .toolCalling, toolParser := h.toolParser.setToolName header.recipient }
      else { h with state := .normal }
    else if header.channel = ascii "final" then { h with state := .normal }
    else h
  | .contentEmitted c =>
    match h.state with
    | .normal => { h with out := h.out.append { content := c } }
    | .thinking => { h with out := h.out.append { thinking := c } }
    | .toolCalling => { h with out := h.out.append { toolContent := c } }
  | .messageEnd => { h with state := .normal }

def HarmonyMessageHandler.addContent (h : HarmonyMessageHandler) (content : Text)
    (toolParser : HarmonyToolCallAccumulator) :
    HarmonyMessageHandler × HarmonyToolCallAccumulator × Contents :=
  let (harmonyParser, events) := h.harmonyParser.addContent content
  let handling := events.foldl Handling.handle { state := h.state, toolParser }
  ({ state := handling.state, harmonyParser }, handling.toolParser, handling.out)

/-- All that a stream of chunks makes the handler return. -/
def HarmonyMessageHandler.addContents (h : HarmonyMessageHandler)
    (toolParser : HarmonyToolCallAccumulator) :
    List Text → HarmonyMessageHandler × HarmonyToolCallAccumulator × Contents
  | [] => (h, toolParser, {})
  | content :: contents =>
    let (h, toolParser, out) := h.addContent content toolParser
    let (h, toolParser, out') := h.addContents toolParser contents
    (h, toolParser, out.append out')

/-! ### Chunks of the parser -/

/-- Content that cannot be part of an end tag may be emitted before more text is seen. -/
theorem settle_clear {s : HarmonyParser} (tags : s.Tagged) (hs : s.state = .parsingContent)
    {e : Text} (clear : Clear s.messageEndTag e s.acc) :
    ({ s with acc := e ++ s.acc } : HarmonyParser).settle.1 = s.settle.1 ∧
      mergeContent ({ s with acc := e ++ s.acc } : HarmonyParser).settle.2 =
        mergeContent (emit e ++ s.settle.2) := by
  have tags' : ({ s with acc := e ++ s.acc } : HarmonyParser).Tagged := ⟨tags.1, tags.2, tags.3⟩
  have hcut := clear.cut_append
  cases hacc : cut s.messageEndTag s.acc with
  | some ba =>
    obtain ⟨content, after⟩ := ba
    rw [hacc, Option.map_some] at hcut
    have heat := eat_ends hs hacc
    have heat' := eat_ends (s := { s with acc := e ++ s.acc }) hs hcut
    rw [settle_goes_on tags heat, settle_goes_on tags' heat']
    refine ⟨rfl, ?_⟩
    rw [List.append_assoc, List.append_assoc, mergeContent_emit]
  | none =>
    rw [hacc, Option.map_none] at hcut
    have heat := eat_holds hs hacc
    have heat' := eat_holds (s := { s with acc := e ++ s.acc }) hs hcut
    rw [settle_stops heat, settle_stops heat']
    dsimp only
    have hle := overlap_le s.acc s.messageEndTag
    have hlen : (e ++ s.acc).length - overlap (e ++ s.acc) s.messageEndTag =
        e.length + (s.acc.length - overlap s.acc s.messageEndTag) := by
      rw [clear.overlap_append, List.length_append]
      omega
    rw [hlen, List.drop_length_add_append, List.take_length_add_append]
    refine ⟨rfl, ?_⟩
    have := mergeContent_emit e (s.acc.take (s.acc.length - overlap s.acc s.messageEndTag)) []
    rw [List.append_nil, List.append_nil] at this
    exact this.symm

/-- It makes no difference whether the parser settles before more text is received. -/
theorem settle_receive {s : HarmonyParser} (tags : s.Tagged) (content : Text) :
    (s.receive content).settle.1 = (s.settle.1.receive content).settle.1 ∧
      mergeContent (s.receive content).settle.2 =
        mergeContent (s.settle.2 ++ (s.settle.1.receive content).settle.2) := by
  induction hn : s.acc.length using Nat.strong_induction_on generalizing s with
  | _ n ih =>
    have hgo := eat_goes_on tags
    generalize heat : s.eat = e at hgo
    obtain ⟨s', events, more⟩ := e
    cases more with
    | true =>
      obtain ⟨hlen, tags', hreceive⟩ := hgo rfl
      have tagsr : (s.receive content).Tagged := ⟨tags.1, tags.2, tags.3⟩
      obtain ⟨hstate, hevents⟩ := ih s'.acc.length (by rw [← hn]; exact hlen) tags' rfl
      rw [settle_goes_on tags heat, settle_goes_on tagsr (hreceive content)]
      refine ⟨hstate, ?_⟩
      rw [List.append_assoc]
      exact mergeContent_append hevents
    | false =>
      rw [settle_stops heat]
      cases hs : s.state with
      | lookingForMessageStart =>
        cases hcut : cut s.messageStartTag s.acc <;>
          simp only [HarmonyParser.eat, hs, hcut, Prod.mk.injEq, Bool.true_eq_false, and_false] at heat
        obtain ⟨rfl, rfl, -⟩ := heat
        exact ⟨rfl, rfl⟩
      | parsingHeader =>
        cases hcut : cut s.headerEndTag s.acc <;>
          simp only [HarmonyParser.eat, hs, hcut, Prod.mk.injEq, Bool.true_eq_false, and_false] at heat
        obtain ⟨rfl, rfl, -⟩ := heat
        exact ⟨rfl, rfl⟩
      | parsingContent =>
        cases hcut : cut s.messageEndTag s.acc with
        | some ba => simp [eat_ends hs hcut] at heat
        | none =>
          rw [eat_holds hs hcut] at heat
          cases heat
          have hheld := (clear_overlap hcut).append content
          have hsplit := List.take_append_drop (s.acc.length - overlap s.acc s.messageEndTag) s.acc
          have hclear := settle_clear (s := HarmonyParser.receive
            { s with acc := s.acc.drop (s.acc.length - overlap s.acc s.messageEndTag) } content)
            ⟨tags.1, tags.2, tags.3⟩ hs hheld
          simp only [HarmonyParser.receive, ← List.append_assoc, hsplit] at hclear
          exact hclear

theorem addContents_cons {s : HarmonyParser} (tags : s.Tagged) (content : Text)
    (contents : List Text) :
    (s.addContents (content :: contents)).1 = (s.addContent (content ++ contents.flatten)).1 ∧
      mergeContent (s.addContents (content :: contents)).2 =
        mergeContent (s.addContent (content ++ contents.flatten)).2 := by
  induction contents generalizing s content with
  | nil => simp [HarmonyParser.addContents]
  | cons next contents ih =>
    have tags' : (s.addContent content).1.Tagged :=
      settle_tagged (s := s.receive content) ⟨tags.1, tags.2, tags.3⟩
    obtain ⟨hstate, hevents⟩ := ih tags' next
    obtain ⟨hstate', hevents'⟩ := settle_receive (s := s.receive content) ⟨tags.1, tags.2, tags.3⟩
      (next ++ contents.flatten)
    have hreceive : (s.receive content).receive (next ++ contents.flatten) =
        s.receive (content ++ (next :: contents).flatten) := by
      simp [HarmonyParser.receive]
    rw [HarmonyParser.addContents]
    dsimp only
    rw [hstate, HarmonyParser.addContent, HarmonyParser.addContent, HarmonyParser.addContent,
      ← hreceive, hstate', hevents']
    exact ⟨rfl, mergeContent_append hevents⟩

/-- From a text that has just begun, what the parser makes of it depends on the text alone. -/
theorem addContents_flatten {s : HarmonyParser} (tags : s.Tagged)
    (hs : s.state = .lookingForMessageStart) (hacc : s.acc = []) (contents : List Text) :
    (s.addContents contents).1 = (s.addContent contents.flatten).1 ∧
      mergeContent (s.addContents contents).2 =
        mergeContent (s.addContent contents.flatten).2 := by
  cases contents with
  | cons content contents => exact addContents_cons tags content contents
  | nil =>
    have hreceive : s.receive [] = s := by
      simp [HarmonyParser.receive]
    have hcut : cut s.messageStartTag s.acc = none := by
      rw [hacc, cut, if_neg tags.messageStart]
    have heat : s.eat = (s, [], false) := by
      simp only [HarmonyParser.eat, hs, hcut]
    rw [List.flatten_nil, HarmonyParser.addContent, hreceive, settle_stops heat]
    exact ⟨rfl, rfl⟩

/-! ### Chunks of the handler -/

theorem Contents.append_assoc (a b c : Contents) :
    (a.append b).append c = a.append (b.append c) := by
  simp [Contents.append]

@[simp] theorem Contents.append_empty (a : Contents) : a.append {} = a := by
  simp [Contents.append]

@[simp] theorem Contents.empty_append (a : Contents) : Contents.append {} a = a := by
  simp [Contents.append]

def Handling.prepend (out : Contents) (h : Handling) : Handling := { h with out := out.append h.out }

theorem handle_prepend (out : Contents) (h : Handling) (event : HarmonyEvent) :
    (h.prepend out).handle event = (h.handle event).prepend out := by
  cases event with
  | messageStart => rfl
  | messageEnd => rfl
  | headerComplete header =>
    unfold Handling.handle
    dsimp only
    split_ifs <;> rfl
  | contentEmitted c =>
    unfold Handling.handle Handling.prepend
    cases h.state <;> simp only [Contents.append_assoc]

theorem foldl_handle_prepend (out : Contents) (h : Handling) (events : List HarmonyEvent) :
    events.foldl Handling.handle (h.prepend out) = (events.foldl Handling.handle h).prepend out := by
  induction events generalizing h with
  | nil => rfl
  | cons event events ih => rw [List.foldl_cons, List.foldl_cons, handle_prepend, ih]

theorem handle_content (h : Handling) (a b : Text) :
    (h.handle (.contentEmitted a)).handle (.contentEmitted b) =
      h.handle (.contentEmitted (a ++ b)) := by
  cases hs : h.state <;> simp [Handling.handle, hs, Contents.append]

theorem foldl_handle_prependContent (h : Handling) (c : Text) (events : List HarmonyEvent) :
    (prependContent c events).foldl Handling.handle h =
      events.foldl Handling.handle (h.handle (.contentEmitted c)) := by
  cases events with
  | nil => rfl
  | cons event events =>
    cases event with
    | contentEmitted c' =>
      rw [prependContent, List.foldl_cons, List.foldl_cons, handle_content]
    | _ => rfl

/-- The handler cannot tell merged contents from the contents. -/
theorem foldl_handle_mergeContent (h : Handling) (events : List HarmonyEvent) :
    (mergeContent events).foldl Handling.handle h = events.foldl Handling.handle h := by
  induction events generalizing h with
  | nil => rfl
  | cons event events ih =>
    cases event with
    | contentEmitted c => rw [mergeContent, foldl_handle_prependContent, ih, List.foldl_cons]
    | _ => exact ih _

theorem handler_addContents (h : HarmonyMessageHandler) (toolParser : HarmonyToolCallAccumulator)
    (contents : List Text) :
    h.addContents toolParser contents =
      let handling := (h.harmonyParser.addContents contents).2.foldl Handling.handle
        { state := h.state, toolParser }
      ({ state := handling.state, harmonyParser := (h.harmonyParser.addContents contents).1 },
        handling.toolParser, handling.out) := by
  induction contents generalizing h toolParser with
  | nil => rfl
  | cons content contents ih =>
    rw [HarmonyMessageHandler.addContents, HarmonyMessageHandler.addContent,
      HarmonyParser.addContents]
    dsimp only
    rw [ih, List.foldl_append]
    generalize (h.harmonyParser.addContent content).2.foldl Handling.handle
      { state := h.state, toolParser } = first
    have hprepend := foldl_handle_prepend first.out
      { state := first.state, toolParser := first.toolParser }
      ((h.harmonyParser.addContent content).1.addContents contents).2
    rw [Handling.prepend, Contents.append_empty] at hprepend
    rw [hprepend]
    rfl

end Ecco9.Harmony
