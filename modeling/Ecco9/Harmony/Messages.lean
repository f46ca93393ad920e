import Ecco9.Harmony.Handler

/-! What becomes of well-formed messages in the harmony format. -/

namespace Ecco9.Harmony

open Ecco9.Library

/-- A message as a model writes it. White space stands in front of the recipient, and may stand in
front of the channel tag and at the end of the header. -/
structure Message where
  role : Text
  recipient : Option Text
  /-- whether the recipient comes before the channel tag -/
  recipientFirst : Bool
  channel : Option Text
  gap : Text
  channelGap : Text
  endGap : Text
  body : Text

namespace Message

def target (m : Message) : Text :=
  match m.recipient with
  | none => []
  | some recipient => m.gap ++ (ascii "to=" ++ recipient)

/-- The header up to the channel tag. -/
def front (m : Message) : Text :=
  m.role ++ ((if m.recipientFirst then m.target else []) ++ m.channelGap)

/-- The header behind the channel. -/
def rest (m : Message) : Text := (if m.recipientFirst then [] else m.target) ++ m.endGap

def header (m : Message) : Text :=
  match m.channel with
  | none => m.front ++ m.rest
  | some channel => m.front ++ ascii "<|channel|>" ++ (channel ++ m.rest)

def text (m : Message) : Text :=
  ascii "<|start|>" ++ (m.header ++ ascii "<|message|>" ++ (m.body ++ ascii "<|end|>"))

structure WellFormed (m : Message) : Prop where
  role : m.role ≠ [] ∧ IsWord m.role ∧ ¬ascii "to=" <+: m.role
  recipient : ∀ recipient ∈ m.recipient, recipient ≠ [] ∧ IsWord recipient
  channel : ∀ channel ∈ m.channel, IsWord channel
  gap : m.gap ≠ [] ∧ trimLeft m.gap = []
  channelGap : trimLeft m.channelGap = []
  endGap : trimLeft m.endGap = []
  /-- no tags in the header but its own -/
  header_plain : cut (ascii "<|message|>") m.header = none
  header_token : cut (ascii "<|constrain|>") m.header = none
  front_plain : cut (ascii "<|channel|>") (m.front ++ if m.channel = none then m.rest else []) = none
  body : cut (ascii "<|end|>") m.body = none

/-- What the header says. -/
def parsed (m : Message) : HarmonyHeader :=
  { role := m.role, channel := m.channel.getD [], recipient := m.recipient.getD [] }

inductive Destination : Type
  | thinking
  | toolContent
  | content
  deriving DecidableEq

/-- Where the body belongs. -/
def destination (m : Message) : Destination :=
  if m.recipient = none then
    if m.channel = some (ascii "analysis") then .thinking else .content
  else if m.channel = some (ascii "analysis") ∨ m.channel = some (ascii "commentary") then
    .toolContent
  else .content

def events (m : Message) : List HarmonyEvent :=
  [.messageStart, .headerComplete m.parsed] ++ (emit m.body ++ [.messageEnd])

end Message

/-- The bodies for one destination, in order. -/
def bodies (messages : List Message) (destination : Message.Destination) : Text :=
  (messages.filter fun m => m.destination = destination).flatMap Message.body

/-! ### The header -/

theorem leadingSpace_cons {b : UInt8} (h : ∀ w ∈ spaces, w.head? ≠ some b) (s : Text) :
    leadingSpace (b :: s) = none := by
  rw [leadingSpace_eq_none]
  intro w hw hfront
  obtain ⟨a, w, rfl⟩ := List.exists_cons_of_ne_nil (spaces_ne_nil w hw)
  obtain ⟨rfl, -⟩ := List.cons_prefix_cons.mp hfront
  exact h _ hw rfl

theorem isWord_to {s : Text} (h : IsWord s) : IsWord (ascii "to=" ++ s) := by
  have hto : ascii "to=" = [0x74, 0x6F, 0x3D] := by decide
  rw [hto]
  simp only [List.cons_append, List.nil_append]
  rw [IsWord, untilSpace, leadingSpace_cons (by decide), untilSpace, leadingSpace_cons (by decide),
    untilSpace, leadingSpace_cons (by decide)]
  simp [show untilSpace s = s from h]

theorem starts_to (s : Text) : Starts (ascii "to=" ++ s) := by
  have hto : ascii "to=" = 0x74 :: ascii "o=" := by decide
  rw [hto, List.cons_append, Starts]
  decide

theorem untilSpace_blanks {s t : Text} (hs : trimLeft s = []) (ht : untilSpace t = []) :
    untilSpace (s ++ t) = [] := by
  by_cases h : s = []
  · rw [h]
    exact ht
  · exact untilSpace_blank hs t h

theorem fields_blanks {s : Text} (hs : trimLeft s = []) (t : Text) :
    fields (s ++ t) = fields t := by
  rw [← fields_trimLeft, trimLeft_blank hs, fields_trimLeft]

/-- What stands behind the first word of a header. -/
structure Tail (t : Text) (tokens : List Text) : Prop where
  starts : Starts t
  ends : untilSpace t = []
  fields : fields t = tokens

theorem tail_blank {s : Text} (hs : trimLeft s = []) : Tail s [] where
  starts := starts_blank hs
  ends := by
    have := untilSpace_blanks hs (t := []) rfl
    rwa [List.append_nil] at this
  fields := fields_blank hs

theorem tail_token {b w b' : Text} (hb : b ≠ [] ∧ trimLeft b = []) (hw : w ≠ [] ∧ IsWord w)
    (hstart : Starts w) (hb' : trimLeft b' = []) : Tail (b ++ (w ++ b')) [w] where
  starts := (starts_blank hb.2).append (hstart.append (starts_blank hb'))
  ends := untilSpace_blank hb.2 _ hb.1
  fields := by
    have htail := tail_blank hb'
    rw [fields_blanks hb.2, fields_word hw.2 hw.1 htail.starts htail.ends, htail.fields]

theorem blank_append {s t : Text} (hs : trimLeft s = []) (ht : trimLeft t = []) :
    trimLeft (s ++ t) = [] := by
  rw [trimLeft_blank hs, ht]

section
variable {m : Message} (wf : m.WellFormed)
include wf

theorem Message.WellFormed.tail :
    Tail ((if m.recipientFirst then m.target else []) ++ m.channelGap ++ m.rest)
      (m.recipient.map (ascii "to=" ++ ·)).toList := by
  have hblank := blank_append wf.channelGap wf.endGap
  unfold Message.rest Message.target
  cases hr : m.recipient with
  | none =>
    simp only [ite_self, List.nil_append]
    exact tail_blank hblank
  | some recipient =>
    obtain ⟨hne, hword⟩ := wf.recipient recipient hr
    have hto : ascii "to=" ++ recipient ≠ [] ∧ IsWord (ascii "to=" ++ recipient) :=
      ⟨by simp [hne], isWord_to hword⟩
    have hstart := starts_to recipient
    cases m.recipientFirst with
    | true =>
      have htail := tail_token wf.gap hto hstart hblank
      simpa only [if_true, List.append_assoc, List.nil_append, Option.map_some,
        Option.toList_some] using htail
    | false =>
      have hgap : m.channelGap ++ m.gap ≠ [] ∧ trimLeft (m.channelGap ++ m.gap) = [] :=
        ⟨by simp [wf.gap.1], blank_append wf.channelGap wf.gap.2⟩
      have htail := tail_token hgap hto hstart wf.endGap
      simpa only [Bool.false_eq_true, if_false, List.append_assoc, List.nil_append,
        Option.map_some, Option.toList_some] using htail

theorem Message.WellFormed.rest_ends : Starts m.rest ∧ untilSpace m.rest = [] := by
  unfold Message.rest Message.target
  cases hr : m.recipient with
  | none =>
    simp only [ite_self, List.nil_append]
    exact ⟨(tail_blank wf.endGap).starts, (tail_blank wf.endGap).ends⟩
  | some recipient =>
    cases m.recipientFirst with
    | true => exact ⟨(tail_blank wf.endGap).starts, (tail_blank wf.endGap).ends⟩
    | false =>
      obtain ⟨hne, hword⟩ := wf.recipient recipient hr
      have htail := tail_token wf.gap ⟨by simp [hne], isWord_to hword⟩
        (starts_to recipient) wf.endGap
      rw [← List.append_assoc] at htail
      exact ⟨htail.starts, htail.ends⟩

theorem Message.WellFormed.fields :
    fields (m.front ++ m.rest) = m.role :: (m.recipient.map (ascii "to=" ++ ·)).toList := by
  have htail := wf.tail
  rw [Message.front, List.append_assoc,
    fields_word wf.role.2.1 wf.role.1 htail.starts htail.ends, htail.fields]

theorem Message.WellFormed.parseTokens (channel : Text) :
    parseTokens channel (m.role :: (m.recipient.map (ascii "to=" ++ ·)).toList) =
      { role := m.role, channel, recipient := m.recipient.getD [] } := by
  cases m.recipient with
  | none => simp only [Harmony.parseTokens, Option.map_none, Option.toList_none, wf.role.2.2,
      if_false, Option.getD_none]
  | some recipient =>
    have hdrop : (ascii "to=" ++ recipient).drop 3 = recipient := List.drop_left' (by decide)
    have hfront : ascii "to=" <+: ascii "to=" ++ recipient := List.prefix_append ..
    simp only [Harmony.parseTokens, Option.map_some, Option.toList_some, Option.getD_some,
      wf.role.2.2, if_false, hfront, hdrop, and_self, if_true]

/-- Each header is parsed to its role, channel and recipient. -/
theorem Message.WellFormed.parseHeader : parseHeader m.header = m.parsed := by
  have hfront := wf.front_plain
  have htoken := wf.header_token
  rw [Harmony.parseHeader, htoken]
  dsimp only
  unfold Message.header
  unfold Message.parsed
  cases hc : m.channel with
  | none =>
    rw [hc, if_pos rfl] at hfront
    rw [hfront, wf.fields]
    exact wf.parseTokens []
  | some channel =>
    rw [hc, if_neg (by simp), List.append_nil] at hfront
    have hcut : cut (ascii "<|channel|>") (m.front ++ ascii "<|channel|>" ++ (channel ++ m.rest)) =
        some (m.front, channel ++ m.rest) := cut_borderless (by decide) hfront _
    obtain ⟨hstart, hend⟩ := wf.rest_ends
    have huntil : untilSpace (channel ++ m.rest) = channel := by
      rw [untilSpace_append (wf.channel channel hc) hstart, hend, List.append_nil]
    dsimp only
    rw [hcut]
    dsimp only
    rw [huntil, List.drop_left, fields_trimSpace, wf.fields]
    exact wf.parseTokens channel

end

/-! ### The events of messages -/

/-- The parser of a handler, in some state. -/
def harmonyParser (state : HarmonyParserState) (acc lifetimeAcc : Text) : HarmonyParser :=
  { state
    messageStartTag := ascii "<|start|>"
    messageEndTag := ascii "<|end|>"
    headerEndTag := ascii "<|message|>"
    acc
    lifetimeAcc }

theorem harmonyParser_tagged (state : HarmonyParserState) (acc lifetimeAcc : Text) :
    (harmonyParser state acc lifetimeAcc).Tagged where
  messageStart := by
    show ascii "<|start|>" ≠ []
    decide
  messageEnd := by
    show ascii "<|end|>" ≠ []
    decide
  headerEnd := by
    show ascii "<|message|>" ≠ []
    decide

theorem settle_message {m : Message} (wf : m.WellFormed) (after lifetimeAcc : Text) :
    (harmonyParser .lookingForMessageStart (m.text ++ after) lifetimeAcc).settle =
      ((harmonyParser .lookingForMessageStart after lifetimeAcc).settle.1,
        m.events ++ (harmonyParser .lookingForMessageStart after lifetimeAcc).settle.2) := by
  -- the three tags of the message, in turn
  have hstart : cut (ascii "<|start|>") (m.text ++ after) =
      some ([], m.header ++ ascii "<|message|>" ++ (m.body ++ ascii "<|end|>" ++ after)) := by
    rw [Message.text, List.append_assoc, cut_front (List.prefix_append ..), List.drop_left]
    simp only [List.append_assoc]
  have hheader : cut (ascii "<|message|>")
      (m.header ++ ascii "<|message|>" ++ (m.body ++ ascii "<|end|>" ++ after)) =
        some (m.header, m.body ++ ascii "<|end|>" ++ after) :=
    cut_borderless (by decide) wf.header_plain _
  have hbody : cut (ascii "<|end|>") (m.body ++ ascii "<|end|>" ++ after) = some (m.body, after) :=
    cut_borderless (by decide) wf.body _
  generalize m.body ++ ascii "<|end|>" ++ after = content at hstart hheader hbody
  generalize m.header ++ ascii "<|message|>" ++ content = header at hstart hheader
  have heat₁ : (harmonyParser .lookingForMessageStart (m.text ++ after) lifetimeAcc).eat =
      (harmonyParser .parsingHeader header lifetimeAcc, [.messageStart], true) := by
    simp only [HarmonyParser.eat, harmonyParser, hstart]
  have heat₂ : (harmonyParser .parsingHeader header lifetimeAcc).eat =
      (harmonyParser .parsingContent content lifetimeAcc, [.headerComplete m.parsed], true) := by
    simp only [HarmonyParser.eat, harmonyParser, hheader, wf.parseHeader]
  have heat₃ : (harmonyParser .parsingContent content lifetimeAcc).eat =
      (harmonyParser .lookingForMessageStart after lifetimeAcc, emit m.body ++ [.messageEnd],
        true) := by
    simp only [HarmonyParser.eat, harmonyParser, hbody]
  rw [settle_goes_on (harmonyParser_tagged ..) heat₁, settle_goes_on (harmonyParser_tagged ..) heat₂,
    settle_goes_on (harmonyParser_tagged ..) heat₃]
  simp only [Message.events, List.append_assoc, List.cons_append, List.nil_append]

theorem settle_empty (lifetimeAcc : Text) :
    (harmonyParser .lookingForMessageStart [] lifetimeAcc).settle =
      (harmonyParser .lookingForMessageStart [] lifetimeAcc, []) := by
  apply settle_stops
  have hcut : cut (ascii "<|start|>") [] = none := by decide
  simp only [HarmonyParser.eat, harmonyParser, hcut]

theorem settle_messages {messages : List Message} (wf : ∀ m ∈ messages, m.WellFormed)
    (lifetimeAcc : Text) :
    (harmonyParser .lookingForMessageStart (messages.flatMap Message.text) lifetimeAcc).settle =
      (harmonyParser .lookingForMessageStart [] lifetimeAcc, messages.flatMap Message.events) := by
  induction messages with
  | nil => exact settle_empty lifetimeAcc
  | cons m messages ih =>
    rw [List.flatMap_cons, settle_message (wf m (by simp)), ih fun m hm => wf m (by simp [hm]),
      List.flatMap_cons]

/-! ### The contents of messages -/

theorem handle_emit (h : Handling) (c : Text) :
    (emit c).foldl Handling.handle h = h.handle (.contentEmitted c) := by
  unfold emit
  split
  · rename_i hc
    rw [hc]
    obtain ⟨state, toolParser, out⟩ := h
    cases state <;> simp [Handling.handle, Contents.append]
  · rfl

/-- Where the state that a header leads to sends the body. -/
def HarmonyMessageState.destination : HarmonyMessageState → Message.Destination
  | .normal => .content
  | .thinking => .thinking
  | .toolCalling => .toolContent

def Contents.of (destination : Message.Destination) (c : Text) : Contents :=
  match destination with
  | .content => { content := c }
  | .thinking => { thinking := c }
  | .toolContent => { toolContent := c }

theorem handle_header {m : Message} (wf : m.WellFormed) (toolParser : HarmonyToolCallAccumulator)
    (out : Contents) :
    let h := Handling.handle ⟨.normal, toolParser, out⟩ (.headerComplete m.parsed)
    h.state.destination = m.destination ∧ h.out = out := by
  have hrecipient : m.recipient.getD [] = [] ↔ m.recipient = none := by
    cases hr : m.recipient with
    | none => simp
    | some recipient => simp [(wf.recipient recipient hr).1]
  have hchannel {c : Text} (hc : c ≠ []) : m.channel.getD [] = c ↔ m.channel = some c := by
    cases m.channel with
    | none => simp [hc.symm]
    | some channel => simp
  unfold Handling.handle Message.parsed Message.destination
  simp only [ne_eq, hrecipient, hchannel (by decide : ascii "analysis" ≠ []),
    hchannel (by decide : ascii "commentary" ≠ [])]
  split_ifs <;> simp_all [HarmonyMessageState.destination]

theorem handle_message {m : Message} (wf : m.WellFormed) (toolParser : HarmonyToolCallAccumulator)
    (out : Contents) :
    ∃ toolParser', m.events.foldl Handling.handle ⟨.normal, toolParser, out⟩ =
      ⟨.normal, toolParser', out.append (Contents.of m.destination m.body)⟩ := by
  obtain ⟨hstate, hout⟩ := handle_header wf toolParser out
  rw [Message.events, List.foldl_append, List.foldl_append, handle_emit]
  simp only [List.foldl_cons, List.foldl_nil]
  generalize hh : Handling.handle (Handling.handle ⟨.normal, toolParser, out⟩ .messageStart)
    (.headerComplete m.parsed) = h
  rw [Handling.handle] at hh
  rw [hh] at hstate hout
  refine ⟨h.toolParser, ?_⟩
  rw [← hstate, ← hout]
  obtain ⟨state, toolParser', out'⟩ := h
  cases state <;> rfl

theorem handle_messages {messages : List Message} (wf : ∀ m ∈ messages, m.WellFormed)
    (toolParser : HarmonyToolCallAccumulator) (out : Contents) :
    ∃ toolParser', (messages.flatMap Message.events).foldl Handling.handle
        ⟨.normal, toolParser, out⟩ =
      ⟨.normal, toolParser', out.append
        ⟨bodies messages .content, bodies messages .thinking, bodies messages .toolContent⟩⟩ := by
  induction messages generalizing toolParser out with
  | nil => exact ⟨toolParser, by simp [bodies, Contents.append]⟩
  | cons m messages ih =>
    obtain ⟨toolParser₁, hfirst⟩ := handle_message (wf m (by simp)) toolParser out
    obtain ⟨toolParser₂, hrest⟩ := ih (fun m hm => wf m (by simp [hm])) toolParser₁
      (out.append (Contents.of m.destination m.body))
    refine ⟨toolParser₂, ?_⟩
    rw [List.flatMap_cons, List.foldl_append, hfirst, hrest, Contents.append_assoc]
    unfold bodies
    cases hd : m.destination <;>
      simp [hd, Contents.of, Contents.append]

theorem mergeContent_events (messages : List Message) :
    mergeContent (messages.flatMap Message.events) = messages.flatMap Message.events := by
  induction messages with
  | nil => rfl
  | cons m messages ih =>
    rw [List.flatMap_cons, Message.events]
    by_cases hbody : m.body = []
    · simp [emit, hbody, mergeContent, ih]
    · simp [emit, hbody, mergeContent, prependContent, ih]

/-- What the harmony parser and its handler make of a text does not depend on how it is cut into
chunks; of messages they make their headers and bodies. -/
theorem addContents_text :
    (∀ s : HarmonyParser, s.Tagged → s.state = .lookingForMessageStart → s.acc = [] →
      ∀ contents contents' : List Text, contents.flatten = contents'.flatten →
        mergeContent (s.addContents contents).2 = mergeContent (s.addContents contents').2) ∧
    (∀ (toolParser : HarmonyToolCallAccumulator) (contents contents' : List Text),
      contents.flatten = contents'.flatten →
        ({} : HarmonyMessageHandler).addContents toolParser contents =
          ({} : HarmonyMessageHandler).addContents toolParser contents') ∧
    (∀ (toolParser : HarmonyToolCallAccumulator) (messages : List Message),
      (∀ m ∈ messages, m.WellFormed) →
        ∀ contents : List Text, contents.flatten = messages.flatMap Message.text →
          mergeContent (({} : HarmonyMessageHandler).harmonyParser.addContents contents).2 =
              messages.flatMap Message.events ∧
            (({} : HarmonyMessageHandler).addContents toolParser contents).2.2 =
              ⟨bodies messages .content, bodies messages .thinking,
                bodies messages .toolContent⟩) := by
  have hparser : ({} : HarmonyMessageHandler).harmonyParser.Tagged :=
    harmonyParser_tagged .lookingForMessageStart [] []
  refine ⟨?_, ?_, ?_⟩
  · intro s tags hs hacc contents contents' h
    rw [(addContents_flatten tags hs hacc contents).2, h,
      ← (addContents_flatten tags hs hacc contents').2]
  · intro toolParser contents contents' h
    obtain ⟨hstate, hevents⟩ := addContents_flatten hparser rfl rfl contents
    obtain ⟨hstate', hevents'⟩ := addContents_flatten hparser rfl rfl contents'
    rw [handler_addContents, handler_addContents, ← foldl_handle_mergeContent, hevents, h,
      ← hevents', foldl_handle_mergeContent, hstate, h, ← hstate']
  · intro toolParser messages wf contents h
    have hevents := (addContents_flatten hparser rfl rfl contents).2
    have hsettle := settle_messages wf (messages.flatMap Message.text)
    have hadd : ({} : HarmonyMessageHandler).harmonyParser.addContent
        (messages.flatMap Message.text) =
      (harmonyParser .lookingForMessageStart (messages.flatMap Message.text)
        (messages.flatMap Message.text)).settle := rfl
    rw [h, hadd, hsettle] at hevents
    dsimp only at hevents
    refine ⟨hevents.trans (mergeContent_events messages), ?_⟩
    obtain ⟨toolParser', hhandle⟩ := handle_messages wf toolParser {}
    rw [handler_addContents, ← foldl_handle_mergeContent, hevents, foldl_handle_mergeContent]
    dsimp only
    rw [hhandle, Contents.empty_append]

/-- A thought and a tool call. -/
def thoughtAndCall : List Message :=
  [{ role := ascii "assistant", recipient := none, recipientFirst := false
     channel := some (ascii "analysis"), gap := ascii " ", channelGap := [], endGap := []
     body := ascii "hm" },
   { role := ascii "assistant", recipient := some (ascii "functions.calc"), recipientFirst := false
     channel := some (ascii "commentary"), gap := ascii " ", channelGap := [], endGap := []
     body := ascii "2<|en" }]

theorem thoughtAndCall_wellFormed : ∀ m ∈ thoughtAndCall, m.WellFormed := by
  intro m hm
  simp only [thoughtAndCall, List.mem_cons, List.not_mem_nil, or_false] at hm
  rcases hm with rfl | rfl
  · exact ⟨by decide, by simp, by rintro _ ⟨⟩; decide, by decide, by decide, by decide, by decide,
      by decide, by decide, by decide⟩
  · exact ⟨by decide, by rintro _ ⟨⟩; decide, by rintro _ ⟨⟩; decide, by decide, by decide,
      by decide, by decide, by decide, by decide, by decide⟩

/-- The two messages byte by byte, with the first parser and a handler. -/
theorem thoughtAndCall_bytes :
    mergeContent (({} : HarmonyMessageHandler).harmonyParser.addContents
        ((thoughtAndCall.flatMap Message.text).map ([·]))).2 =
      thoughtAndCall.flatMap Message.events ∧
    (({} : HarmonyMessageHandler).addContents {}
        ((thoughtAndCall.flatMap Message.text).map ([·]))).2.2 =
      ⟨bodies thoughtAndCall .content, bodies thoughtAndCall .thinking,
        bodies thoughtAndCall .toolContent⟩ :=
  addContents_text.2.2 {} thoughtAndCall thoughtAndCall_wellFormed _ (by
    rw [← List.flatMap_def]
    exact List.flatMap_singleton' _)

end Ecco9.Harmony
