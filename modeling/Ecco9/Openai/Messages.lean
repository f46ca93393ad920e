import Ecco9.Library.Runs
import Ecco9.Library.Blocks
import Ecco9.Tools.Parser
import Mathlib.Data.List.ModifyLast

/-! `fromChatRequest` of `openai/openai.go`: the request of a chat in the terms of `api`. How the
arguments of a tool call and base64 are decoded are parameters. -/

namespace Ecco9.Openai

open Ecco9.Library
open Ecco9.Tools (Json Object)

inductive Failure
  /-- a nil pointer is dereferenced -/
  | panic
  | error (message : Text)

/-- What is read of a tool call. -/
structure ToolCall where
  id : Text
  name : Text
  arguments : Text

structure Message where
  role : Text
  content : Json
  reasoning : Text := []
  /-- none are not the same as an empty list -/
  toolCalls : Option (List ToolCall) := none
  name : Text := []
  toolCallID : Text := []

/-- A format with the schema of its `json_schema`. -/
structure ResponseFormat where
  type : Text
  jsonSchema : Option Text := none

structure ChatCompletionRequest (F T : Type) where
  model : Text
  messages : List Message
  stream : Bool := false
  maxTokens : Option Int := none
  seed : Option Int := none
  stop : Json := .null
  temperature : Option F := none
  frequencyPenalty : Option F := none
  presencePenalty : Option F := none
  topP : Option F := none
  responseFormat : Option ResponseFormat := none
  tools : List T := []
  /-- the pointer to a `Reasoning`, and in it the one to its `Effort` -/
  reasoning : Option (Option Text) := none

structure ApiToolCall (A : Type) where
  name : Text
  arguments : A

structure ApiMessage (A : Type) where
  role : Text
  content : Text := []
  thinking : Text := []
  images : List Text := []
  toolCalls : List (ApiToolCall A) := []
  toolName : Text := []

inductive OptionValue (F : Type)
  | strings (l : List Text)
  | int (n : Int)
  | float (x : F)
  | string (s : Text)

structure ApiChatRequest (A F T : Type) where
  model : Text
  messages : List (ApiMessage A)
  format : Text
  options : List (Text × OptionValue F)
  stream : Bool
  tools : List T
  think : Option Text

/-- The tool calls of a message, as one ranges over them. -/
def Message.calls (msg : Message) : List ToolCall := msg.toolCalls.getD []

/-- Lower case, as far as it can give one of the names that it is compared with. -/
def toLower (s : Text) : Text := s.map fun b => if 65 ≤ b ∧ b ≤ 90 then b + 32 else b

/-- `%T` -/
def typeName : Json → Text
  | .null => ascii "<nil>"
  | .bool _ => ascii "bool"
  | .number _ => ascii "float64"
  | .string _ => ascii "string"
  | .array _ => ascii "[]interface \x7b\x7d"
  | .object _ => ascii "map[string]interface \x7b\x7d"

def nameFromToolCallID (messages : List Message) (toolCallID : Text) : Text :=
  match messages.reverse.findSome? fun msg => msg.calls.find? fun tc => tc.id = toolCallID with
  | some tc => tc.name
  | none => []

/-- `toolName` of a message, among all. -/
def Message.toolName (msg : Message) (messages : List Message) : Text :=
  if toLower msg.role = ascii "tool" then
    if msg.name = [] ∧ msg.toolCallID ≠ [] then nameFromToolCallID messages msg.toolCallID else msg.name
  else []

/-! ### The parts of a content -/

def stringAt (obj : Object) (key : Text) : Option Text :=
  match obj.lookup key with
  | some (.string s) => some s
  | _ => none

def imageURL (data : Object) : Option Text :=
  match data.lookup (ascii "image_url") with
  | some (.object urlMap) => stringAt urlMap (ascii "url")
  | _ => stringAt data (ascii "image_url")

/-- What follows the prefix of one of the types. -/
def imageData (url : Text) : Option Text :=
  [ascii "jpeg", ascii "jpg", ascii "png", ascii "webp"].findSome? fun t =>
    (ascii "data:image/" ++ t ++ ascii ";base64,").isPrefixOf? url

def invalidFormat : Failure := .error (ascii "invalid message format")

section

variable {A F T : Type} (unmarshal : Text → Option A) (decodeString : Text → Option Text)

def fromPart (role : Text) : Json → Except Failure (ApiMessage A)
  | .object data =>
    match data.lookup (ascii "type") with
    | some (.string type) =>
      if type = ascii "text" then
        match stringAt data (ascii "text") with
        | some text => .ok { role, content := text }
        | none => .error invalidFormat
      else if type = ascii "image_url" then
        match imageURL data with
        | some url =>
          match imageData url with
          | some url =>
            match decodeString url with
            | some img => .ok { role, images := [img] }
            | none => .error invalidFormat
          | none => .error (.error (ascii "invalid image input"))
        | none => .error invalidFormat
      else .error invalidFormat
    | _ => .error invalidFormat
  | _ => .error invalidFormat

def fromToolCall (tc : ToolCall) : Except Failure (ApiToolCall A) :=
  match unmarshal tc.arguments with
  | some arguments => .ok { name := tc.name, arguments }
  | none => .error (.error (ascii "invalid tool call arguments"))

def fromCompletionToolCall (toolCalls : List ToolCall) : Except Failure (List (ApiToolCall A)) :=
  toolCalls.mapM (fromToolCall unmarshal)

/-- The message that is the last one gets the tool calls of a message. -/
def ApiMessage.patch (m : ApiMessage A) (toolCalls : List (ApiToolCall A)) (toolName reasoning : Text) :
    ApiMessage A :=
  { m with
    toolCalls
    toolName := if toolName ≠ [] then toolName else m.toolName
    thinking := reasoning }

/-- One turn of the loop over the messages of the request. -/
def fromMessage (all : List Message) (messages : List (ApiMessage A)) (msg : Message) :
    Except Failure (List (ApiMessage A)) :=
  match msg.content with
  | .string content => do
    let toolCalls ← fromCompletionToolCall unmarshal msg.calls
    return messages ++
      [{ role := msg.role, content, thinking := msg.reasoning, toolCalls, toolName := msg.toolName all }]
  | .array content => do
    let messages := messages ++ (← content.mapM (fromPart decodeString msg.role))
    if messages.length > 0 ∧ msg.calls.length > 0 then
      let toolCalls ← fromCompletionToolCall unmarshal msg.calls
      return messages.modifyLast (·.patch toolCalls (msg.toolName all) msg.reasoning)
    else
      return messages
  | content =>
    match msg.toolCalls with
    | none => .error (.error (ascii "invalid message content type: " ++ typeName content))
    | some toolCalls => do
      let toolCalls ← fromCompletionToolCall unmarshal toolCalls
      return messages ++ [{ role := msg.role, thinking := msg.reasoning, toolCalls }]

/-! ### The other fields -/

/-- The option `stop`; what is not a string is left out of a list. -/
def stopOption : Json → Option (OptionValue F)
  | .string stop => some (.strings [stop])
  | .array stop => some (.strings (stop.filterMap fun s =>
    match s with
    | .string str => some str
    | _ => none))
  | _ => none

/-- `*r.Reasoning.Effort`, of a request with a `Reasoning`. -/
def effort : Option (Option Text) → Except Failure (Option Text)
  | none => .ok none
  | some none => .error .panic
  | some (some value) => .ok (some value)

/-- The options that are set, with the number 1. -/
def fromOptions (one : F) (r : ChatCompletionRequest F T) (reasoning : Option Text) :
    List (Text × OptionValue F) :=
  let options : List (Option (Text × OptionValue F)) :=
    [(stopOption r.stop).map fun stop => (ascii "stop", stop),
      r.maxTokens.map fun n => (ascii "num_predict", .int n),
      some (ascii "temperature", .float (r.temperature.getD one)),
      r.seed.map fun n => (ascii "seed", .int n),
      r.frequencyPenalty.map fun x => (ascii "frequency_penalty", .float x),
      r.presencePenalty.map fun x => (ascii "presence_penalty", .float x),
      some (ascii "top_p", .float (r.topP.getD one)),
      reasoning.map fun value => (ascii "reasoning", .string value)]
  options.filterMap id

/-- The format is empty when there is none. -/
def fromFormat : Option ResponseFormat → Text
  | none => []
  | some format =>
    let type := toLower (trimSpace format.type)
    if type = ascii "json_object" then ascii "\"json\""
    else if type = ascii "json_schema" then format.jsonSchema.getD []
    else []

def fromChatRequest (one : F) (r : ChatCompletionRequest F T) :
    Except Failure (ApiChatRequest A F T) := do
  let messages ← r.messages.foldlM (fromMessage unmarshal decodeString r.messages) []
  let think ← effort r.reasoning
  return {
    model := r.model
    messages
    format := fromFormat r.responseFormat
    options := fromOptions one r think
    stream := r.stream
    tools := r.tools
    think }

/-! ### What is wanted of a request -/

def ApiMessage.said (m : ApiMessage A) : Text × Text × List Text := (m.role, m.content, m.images)

/-- The messages say what the content says. -/
def Said (msg : Message) (block : List (ApiMessage A)) : Prop :=
  match msg.content with
  | .string content => block.map ApiMessage.said = [(msg.role, content, [])]
  -- nothing is to be said, with a message or without one
  | .array [] => ∀ m ∈ block, m.said = (msg.role, [], [])
  | .array (c :: content) => ∃ parts : List (ApiMessage A),
    (c :: content).mapM (fromPart decodeString msg.role) = .ok parts ∧
      block.map ApiMessage.said = parts.map ApiMessage.said
  | _ => block.map ApiMessage.said = [(msg.role, [], [])]

/-- What is wanted of the messages for a message. -/
structure Block (all : List Message) (msg : Message) (block : List (ApiMessage A)) : Prop where
  said : Said decodeString msg block
  calls : ∃ calls, fromCompletionToolCall unmarshal msg.calls = .ok calls ∧
    Once calls (block.map (·.toolCalls))
  thinking : Once msg.reasoning (block.map (·.thinking))
  toolName : Once (msg.toolName all) (block.map (·.toolName))
  /-- One part that is a text is as good as the text. -/
  alike : ∀ data text, msg.content = .array [.object data] →
    data.lookup (ascii "type") = some (.string (ascii "text")) →
    stringAt data (ascii "text") = some text →
    fromMessage unmarshal decodeString all [] { msg with content := .string text } = .ok block

/-- There is an error, or a block for each message. -/
def Translates (one : F) (r : ChatCompletionRequest F T) : Prop :=
  match fromChatRequest unmarshal decodeString one r with
  | .ok req => ∃ blocks, req.messages = blocks.flatten ∧
    List.Forall₂ (Block unmarshal decodeString r.messages) r.messages blocks
  | .error (.error _) => True
  | .error .panic => False

def BadArguments (msg : Message) : Prop := ∃ tc ∈ msg.calls, unmarshal tc.arguments = none

/-- A message is refused; the tool calls of an empty array only where there are messages before. -/
def Refused (started : Prop) (msg : Message) : Prop :=
  match msg.content with
  | .string _ => BadArguments unmarshal msg
  | .array content =>
    (∃ c ∈ content, ∃ e, (fromPart decodeString msg.role c : Except Failure (ApiMessage A)) = .error e) ∨
      (started ∨ content ≠ []) ∧ BadArguments unmarshal msg
  | _ => msg.toolCalls = none ∨ BadArguments unmarshal msg

def Refuses : Prop → List Message → Prop
  | _, [] => False
  | started, msg :: msgs =>
    Refused unmarshal decodeString started msg ∨ Refuses (started ∨ msg.content ≠ .array []) msgs

/-- Nothing of the message is left out or gets to the messages of another one. -/
def Kept (all : List Message) (msg : Message) : Prop :=
  match msg.content with
  | .string _ => True
  | .array content =>
    (msg.calls ≠ [] → content ≠ []) ∧ (msg.calls = [] → msg.reasoning = [] ∧ msg.toolName all = [])
  | _ => msg.toolName all = []

/-- The number of messages for a message. -/
def Message.size (msg : Message) : Nat :=
  match msg.content with
  | .array content => content.length
  | _ => 1

end

/-! ### One message -/

section

variable {A : Type} {unmarshal : Text → Option A} {decodeString : Text → Option Text}
  {all : List Message} {msg : Message}

theorem fromCompletionToolCall_spec (unmarshal : Text → Option A) (msg : Message) :
    (¬BadArguments unmarshal msg ∧ ∃ calls, fromCompletionToolCall unmarshal msg.calls = .ok calls ∧
        calls.length = msg.calls.length) ∨
      BadArguments unmarshal msg ∧
        ∃ text, fromCompletionToolCall unmarshal msg.calls = .error (.error text) := by
  rcases mapM_spec (fromToolCall unmarshal) msg.calls with ⟨calls, h, hall⟩ | ⟨tc, htc, e, herr, h⟩
  · refine .inl ⟨?_, calls, h, hall.length_eq.symm⟩
    rintro ⟨tc, htc, hbad⟩
    obtain ⟨call, hcall⟩ := exists_of_forall₂ hall htc
    rw [fromToolCall, hbad] at hcall
    cases hcall
  · rw [fromToolCall] at herr
    split at herr
    · cases herr
    · rename_i hbad
      cases herr
      exact .inr ⟨⟨tc, htc, hbad⟩, _, h⟩

/-- A part gives a message that has nothing but what it says, or an error. -/
theorem fromPart_spec (decodeString : Text → Option Text) (role : Text) (c : Json) :
    (∃ text, fromPart (A := A) decodeString role c = .error (.error text)) ∨
      ∃ content images, fromPart (A := A) decodeString role c = .ok { role, content, images } := by
  unfold fromPart invalidFormat
  repeat' split
  all_goals first | exact .inl ⟨_, rfl⟩ | exact .inr ⟨_, _, rfl⟩

theorem fromParts_plain {role : Text} {content : List Json} {parts : List (ApiMessage A)}
    (h : List.Forall₂ (fun c m => fromPart decodeString role c = .ok m) content parts) :
    ∀ m ∈ parts, m.thinking = [] ∧ m.toolCalls = [] ∧ m.toolName = [] := by
  induction h with
  | nil => simp
  | @cons c m content parts hm _ ih =>
    rintro m' (_ | ⟨_, hm'⟩)
    · rcases fromPart_spec (A := A) decodeString role c with ⟨text, h⟩ | ⟨text, images, h⟩
      · cases hm.symm.trans h
      · cases hm.symm.trans h
        exact ⟨rfl, rfl, rfl⟩
    · exact ih m' hm'

theorem fromPart_text {data : Object} {text : Text} (role : Text)
    (htype : data.lookup (ascii "type") = some (.string (ascii "text")))
    (htext : stringAt data (ascii "text") = some text) :
    fromPart (A := A) decodeString role (.object data) = .ok { role, content := text } := by
  rw [fromPart, htype, htext]
  rfl

/-- The message for one with a text. -/
def ofText (msg : Message) (all : List Message) (content : Text) (toolCalls : List (ApiToolCall A)) :
    ApiMessage A :=
  { role := msg.role, content, thinking := msg.reasoning, toolCalls, toolName := msg.toolName all }

theorem fromMessage_text {content : Text} {toolCalls : List (ApiToolCall A)}
    (hcalls : fromCompletionToolCall unmarshal msg.calls = .ok toolCalls) (messages : List (ApiMessage A)) :
    fromMessage unmarshal decodeString all messages { msg with content := .string content } =
      .ok (messages ++ [ofText msg all content toolCalls]) := by
  change (fromCompletionToolCall unmarshal msg.calls >>= _) = _
  rw [hcalls]
  rfl

theorem block_text {content : Text} {toolCalls : List (ApiToolCall A)}
    (hcontent : msg.content = .string content)
    (hcalls : fromCompletionToolCall unmarshal msg.calls = .ok toolCalls) :
    Block unmarshal decodeString all msg [ofText msg all content toolCalls] where
  said := by
    rw [Said, hcontent]
    rfl
  calls := ⟨toolCalls, hcalls, once_singleton _⟩
  thinking := once_singleton _
  toolName := once_singleton _
  alike := by
    intro data text harray
    cases hcontent.symm.trans harray

/-- The parts of a content. -/
structure Parts (decodeString : Text → Option Text) (msg : Message) (content : List Json)
    (parts : List (ApiMessage A)) : Prop where
  array : msg.content = .array content
  each : List.Forall₂ (fun c m => fromPart decodeString msg.role c = .ok m) content parts

theorem Parts.said {content : List Json} {parts block : List (ApiMessage A)}
    (h : Parts decodeString msg content parts)
    (hsaid : block.map ApiMessage.said = parts.map ApiMessage.said) : Said decodeString msg block := by
  rw [Said, h.array]
  have hparts := mapM_of_forall₂ h.each
  cases content with
  | cons c content => exact ⟨parts, hparts, hsaid⟩
  | nil =>
    obtain rfl := List.forall₂_nil_left_iff.mp h.each
    obtain rfl := List.map_eq_nil_iff.mp hsaid
    simp

/-- One text part gives one message. -/
theorem Parts.text {content : List Json} {parts : List (ApiMessage A)} {data : Object} {text : Text}
    (h : Parts decodeString msg content parts) (harray : msg.content = .array [.object data])
    (htype : data.lookup (ascii "type") = some (.string (ascii "text")))
    (htext : stringAt data (ascii "text") = some text) :
    parts = [{ role := msg.role, content := text }] := by
  obtain rfl : content = [.object data] := by
    injection h.array.symm.trans harray
  obtain ⟨m, rest, hm, hrest, rfl⟩ := List.forall₂_cons_left_iff.mp h.each
  obtain rfl := List.forall₂_nil_left_iff.mp hrest
  cases (fromPart_text msg.role htype htext).symm.trans hm
  rfl

/-- Without tool calls the parts are all there is. -/
theorem block_parts {content : List Json} {parts : List (ApiMessage A)}
    (h : Parts decodeString msg content parts) (hcalls : msg.calls = []) :
    Block unmarshal decodeString all msg parts ↔ msg.reasoning = [] ∧ msg.toolName all = [] := by
  have plain := fromParts_plain h.each
  have none_thinks : ∀ y ∈ parts.map (·.thinking), y = [] :=
    List.forall_mem_map.mpr fun m hm => (plain m hm).1
  have none_calls : ∀ y ∈ parts.map (·.toolCalls), y = [] :=
    List.forall_mem_map.mpr fun m hm => (plain m hm).2.1
  have none_named : ∀ y ∈ parts.map (·.toolName), y = [] :=
    List.forall_mem_map.mpr fun m hm => (plain m hm).2.2
  have hempty : fromCompletionToolCall unmarshal msg.calls = .ok [] := by
    rw [hcalls]
    rfl
  constructor
  · intro block
    exact ⟨(once_of_empty none_thinks).mp block.thinking, (once_of_empty none_named).mp block.toolName⟩
  · rintro ⟨hreasoning, hname⟩
    refine ⟨h.said rfl, ⟨[], hempty, (once_of_empty none_calls).mpr rfl⟩,
      (once_of_empty none_thinks).mpr hreasoning, (once_of_empty none_named).mpr hname, ?_⟩
    intro data text harray htype htext
    rw [fromMessage_text hempty, h.text harray htype htext, ofText, hreasoning, hname]
    rfl

/-- With tool calls the last part gets what the message has. -/
theorem block_patched {content : List Json} {init : List (ApiMessage A)} {last : ApiMessage A}
    {toolCalls : List (ApiToolCall A)} (h : Parts decodeString msg content (init ++ [last]))
    (hcalls : fromCompletionToolCall unmarshal msg.calls = .ok toolCalls) :
    Block unmarshal decodeString all msg
      (init ++ [last.patch toolCalls (msg.toolName all) msg.reasoning]) := by
  have plain := fromParts_plain h.each
  have plain_init : ∀ m ∈ init, m.thinking = [] ∧ m.toolCalls = [] ∧ m.toolName = [] :=
    fun m hm => plain m (List.mem_append_left _ hm)
  have hpatch : last.patch toolCalls (msg.toolName all) msg.reasoning =
      { last with toolCalls, toolName := msg.toolName all, thinking := msg.reasoning } := by
    have hlast := (plain last (by simp)).2.2
    rw [ApiMessage.patch, hlast]
    split
    · rfl
    · rename_i hnone
      rw [not_not.mp hnone]
  rw [hpatch]
  refine ⟨h.said ?_, ⟨toolCalls, hcalls, ?_⟩, ?_, ?_, ?_⟩
  · rw [List.map_append, List.map_append]
    rfl
  · rw [List.map_append]
    exact once_append (List.forall_mem_map.mpr fun m hm => (plain_init m hm).2.1) toolCalls
  · rw [List.map_append]
    exact once_append (List.forall_mem_map.mpr fun m hm => (plain_init m hm).1) msg.reasoning
  · rw [List.map_append]
    exact once_append (List.forall_mem_map.mpr fun m hm => (plain_init m hm).2.2) (msg.toolName all)
  · intro data text harray htype htext
    have hparts : init ++ [last] = [] ++ [{ role := msg.role, content := text }] :=
      h.text harray htype htext
    obtain ⟨rfl, hlast⟩ := List.append_inj' hparts rfl
    cases hlast
    rw [fromMessage_text hcalls]
    rfl

/-- Without a content the tool name is left out. -/
theorem block_other {toolCalls : List (ApiToolCall A)} (hstring : ∀ s, msg.content ≠ .string s)
    (harray : ∀ l, msg.content ≠ .array l)
    (hcalls : fromCompletionToolCall unmarshal msg.calls = .ok toolCalls) :
    Block unmarshal decodeString all msg [{ role := msg.role, thinking := msg.reasoning, toolCalls }] ↔
      msg.toolName all = [] := by
  constructor
  · intro block
    exact (once_of_empty (l := [[]]) (by simp)).mp block.toolName
  · intro hname
    refine ⟨?_, ⟨toolCalls, hcalls, once_singleton _⟩, once_singleton _,
      (once_of_empty (l := [[]]) (by simp)).mpr hname, fun data text h => absurd h (harray _)⟩
    rw [Said]
    split
    · rename_i h
      exact absurd h (hstring _)
    · rename_i h
      exact absurd h (harray _)
    · rename_i h
      exact absurd h (harray _)
    · rfl

/-- With an empty array the tool calls get to the message before, or nowhere. -/
def Stray (msg : Message) : Prop := msg.content = .array [] ∧ msg.calls ≠ []

theorem length_modifyLast (f : ApiMessage A → ApiMessage A) (l : List (ApiMessage A)) :
    (l.modifyLast f).length = l.length := by
  rcases List.eq_nil_or_concat l with rfl | ⟨init, last, rfl⟩
  · rfl
  · rw [List.concat_eq_append, List.modifyLast_concat, List.length_append, List.length_append]
    rfl

/-- What one turn of the loop gives: an error, or so many more messages, that are the block of the
message but for what is left out of it. -/
inductive Turn (unmarshal : Text → Option A) (decodeString : Text → Option Text) (all : List Message)
    (messages : List (ApiMessage A)) (msg : Message) : Prop
  | refused (text : Text) (refused : Refused unmarshal decodeString (messages ≠ []) msg)
      (h : fromMessage unmarshal decodeString all messages msg = .error (.error text))
  | done (out : List (ApiMessage A)) (accepted : ¬Refused unmarshal decodeString (messages ≠ []) msg)
      (h : fromMessage unmarshal decodeString all messages msg = .ok out)
      (length : out.length = messages.length + msg.size)
      (block : ¬Stray msg → ∃ block, out = messages ++ block ∧
        (Block unmarshal decodeString all msg block ↔ Kept all msg))

theorem turn_string {content : Text} (hcontent : msg.content = .string content)
    (messages : List (ApiMessage A)) : Turn unmarshal decodeString all messages msg := by
  have hrefused : Refused unmarshal decodeString (messages ≠ []) msg ↔ BadArguments unmarshal msg := by
    rw [Refused, hcontent]
  rcases fromCompletionToolCall_spec unmarshal msg with ⟨good, calls, hcalls, -⟩ | ⟨bad, text, hcalls⟩
  · refine .done (messages ++ [ofText msg all content calls]) (mt hrefused.mp good) ?_ ?_ fun _ =>
      ⟨_, rfl, fun _ => ?_, fun _ => block_text hcontent hcalls⟩
    · rw [fromMessage, hcontent]
      simp only [hcalls]
      rfl
    · rw [List.length_append, Message.size, hcontent]
      rfl
    · rw [Kept, hcontent]
      trivial
  · refine .refused text (hrefused.mpr bad) ?_
    rw [fromMessage, hcontent]
    simp only [hcalls]
    rfl

theorem turn_array {content : List Json} (hcontent : msg.content = .array content)
    (messages : List (ApiMessage A)) : Turn unmarshal decodeString all messages msg := by
  have hrefused : Refused unmarshal decodeString (messages ≠ []) msg ↔
      (∃ c ∈ content, ∃ e, (fromPart decodeString msg.role c : Except Failure (ApiMessage A)) = .error e) ∨
        (messages ≠ [] ∨ content ≠ []) ∧ BadArguments unmarshal msg := by
    rw [Refused, hcontent]
  have hkept : Kept all msg ↔ (msg.calls ≠ [] → content ≠ []) ∧
      (msg.calls = [] → msg.reasoning = [] ∧ msg.toolName all = []) := by
    rw [Kept, hcontent]
  have hsize : msg.size = content.length := by
    rw [Message.size, hcontent]
  rcases mapM_spec (fromPart (A := A) decodeString msg.role) content with
    ⟨parts, hparts, each⟩ | ⟨c, hc, e, herr, hparts⟩
  case inr =>
    rcases fromPart_spec (A := A) decodeString msg.role c with
      ⟨text, h⟩ | ⟨text, images, h⟩
    · cases herr.symm.trans h
      refine .refused text (hrefused.mpr (.inl ⟨c, hc, _, h⟩)) ?_
      rw [fromMessage, hcontent]
      simp only [hparts]
      rfl
    · cases herr.symm.trans h
  case inl =>
    have readable : ¬∃ c ∈ content, ∃ e,
        (fromPart decodeString msg.role c : Except Failure (ApiMessage A)) = .error e := by
      rintro ⟨c, hc, e, herr⟩
      obtain ⟨m, hm⟩ := exists_of_forall₂ each hc
      cases herr.symm.trans hm
    have hturn : fromMessage unmarshal decodeString all messages msg =
        if (messages ++ parts).length > 0 ∧ msg.calls.length > 0 then
          (fromCompletionToolCall unmarshal msg.calls).map fun toolCalls =>
            (messages ++ parts).modifyLast (·.patch toolCalls (msg.toolName all) msg.reasoning)
        else .ok (messages ++ parts) := by
      rw [fromMessage, hcontent]
      simp only [hparts]
      rfl
    have hlen : (messages ++ parts).length = messages.length + msg.size := by
      rw [List.length_append, hsize, each.length_eq]
    have hempty : messages ++ parts ≠ [] ↔ messages ≠ [] ∨ content ≠ [] := by
      rw [← List.length_pos_iff, ← List.length_pos_iff, ← List.length_pos_iff, List.length_append,
        each.length_eq]
      omega
    by_cases hnone : msg.calls = []
    · -- without tool calls nothing is patched
      rw [if_neg fun h => by simp [hnone] at h] at hturn
      refine .done _ ?_ hturn hlen fun _ => ⟨parts, rfl, ?_⟩
      · rintro refused
        rcases hrefused.mp refused with unreadable | ⟨-, tc, htc, -⟩
        · exact readable unreadable
        · rw [hnone] at htc
          cases htc
      · rw [block_parts ⟨hcontent, each⟩ hnone, hkept]
        exact ⟨fun h => ⟨fun hcalls => absurd hnone hcalls, fun _ => h⟩, fun h => h.2 hnone⟩
    have hcallsPos := List.length_pos_iff.mpr hnone
    by_cases hthere : messages ++ parts = []
    · -- there is no message to patch
      rw [if_neg fun h => by simp [hthere] at h] at hturn
      have hcontentNil : content = [] := by
        by_contra hne
        exact hempty.mpr (.inr hne) hthere
      refine .done _ ?_ hturn hlen fun hstray => absurd ⟨hcontentNil ▸ hcontent, hnone⟩ hstray
      intro refused
      rcases hrefused.mp refused with unreadable | ⟨started, -⟩
      · exact readable unreadable
      · exact hempty.mpr started hthere
    rw [if_pos ⟨List.length_pos_iff.mpr hthere, hcallsPos⟩] at hturn
    rcases fromCompletionToolCall_spec unmarshal msg with ⟨good, calls, hcalls, -⟩ | ⟨bad, text, hcalls⟩
    · simp only [hcalls, Except.map] at hturn
      refine .done _ ?_ hturn ((length_modifyLast _ _).trans hlen) fun hstray => ?_
      · intro refused
        rcases hrefused.mp refused with unreadable | ⟨-, bad⟩
        · exact readable unreadable
        · exact good bad
      · have hcontentNe : content ≠ [] := fun hnil => hstray ⟨hnil ▸ hcontent, hnone⟩
        rcases List.eq_nil_or_concat parts with rfl | ⟨init, last, rfl⟩
        · exact absurd (List.forall₂_nil_right_iff.mp each) hcontentNe
        rw [List.concat_eq_append] at each ⊢
        refine ⟨init ++ [last.patch calls (msg.toolName all) msg.reasoning], ?_, ?_⟩
        · rw [← List.append_assoc, List.modifyLast_concat, List.append_assoc]
        · exact ⟨fun _ => hkept.mpr ⟨fun _ => hcontentNe, fun h => absurd h hnone⟩,
            fun _ => block_patched ⟨hcontent, each⟩ hcalls⟩
    · rw [hcalls] at hturn
      exact .refused text (hrefused.mpr (.inr ⟨hempty.mp hthere, bad⟩)) hturn

theorem turn_other (hstring : ∀ s, msg.content ≠ .string s) (harray : ∀ l, msg.content ≠ .array l)
    (messages : List (ApiMessage A)) : Turn unmarshal decodeString all messages msg := by
  have hrefused : Refused unmarshal decodeString (messages ≠ []) msg ↔
      msg.toolCalls = none ∨ BadArguments unmarshal msg := by
    rw [Refused]
    split
    · exact absurd ‹_› (hstring _)
    · exact absurd ‹_› (harray _)
    · exact Iff.rfl
  have hkept : Kept all msg ↔ msg.toolName all = [] := by
    rw [Kept]
    split
    · exact absurd ‹_› (hstring _)
    · exact absurd ‹_› (harray _)
    · exact Iff.rfl
  have hsize : msg.size = 1 := by
    rw [Message.size]
    split
    · exact absurd ‹_› (harray _)
    · rfl
  have hturn : fromMessage unmarshal decodeString all messages msg =
      match msg.toolCalls with
      | none => .error (.error (ascii "invalid message content type: " ++ typeName msg.content))
      | some _ => (fromCompletionToolCall unmarshal msg.calls).map fun toolCalls =>
        messages ++ [{ role := msg.role, thinking := msg.reasoning, toolCalls }] := by
    rw [fromMessage]
    split
    · exact absurd ‹_› (hstring _)
    · exact absurd ‹_› (harray _)
    · cases htools : msg.toolCalls with
      | none => rfl
      | some toolCalls =>
        rw [Message.calls, htools]
        rfl
  cases htools : msg.toolCalls with
  | none =>
    rw [htools] at hturn
    exact .refused _ (hrefused.mpr (.inl htools)) hturn
  | some toolCalls =>
    rw [htools] at hturn
    rcases fromCompletionToolCall_spec unmarshal msg with ⟨good, calls, hcalls, -⟩ | ⟨bad, text, hcalls⟩
    · simp only [hcalls, Except.map] at hturn
      refine .done _ ?_ hturn ?_ fun _ => ⟨_, rfl, ?_⟩
      · intro refused
        rcases hrefused.mp refused with hnil | bad
        · cases htools.symm.trans hnil
        · exact good bad
      · rw [List.length_append, hsize]
        rfl
      · rw [hkept]
        exact block_other hstring harray hcalls
    · simp only [hcalls, Except.map] at hturn
      exact .refused text (hrefused.mpr (.inr bad)) hturn

theorem turn_spec (unmarshal : Text → Option A) (decodeString : Text → Option Text) (all : List Message)
    (messages : List (ApiMessage A)) (msg : Message) :
    Turn unmarshal decodeString all messages msg := by
  cases hcontent : msg.content with
  | string content => exact turn_string hcontent messages
  | array content => exact turn_array hcontent messages
  | _ => exact turn_other (by simp [hcontent]) (by simp [hcontent]) messages

/-! ### All messages -/

theorem size_eq_zero : msg.size = 0 ↔ msg.content = .array [] := by
  rw [Message.size]
  split
  · rename_i content h
    rw [h, List.length_eq_zero_iff, Json.array.injEq]
  · rename_i h
    exact ⟨fun h => by simp at h, fun hnil => absurd hnil (h _)⟩

theorem Kept.not_stray (h : Kept all msg) : ¬Stray msg := by
  rintro ⟨hcontent, hcalls⟩
  rw [Kept, hcontent] at h
  exact h.1 hcalls rfl

theorem Block.size_le {block : List (ApiMessage A)} (h : Block unmarshal decodeString all msg block) :
    msg.size ≤ block.length := by
  have hsaid := h.said
  rw [Said] at hsaid
  rw [Message.size]
  cases hcontent : msg.content with
  | array content =>
    cases content with
    | nil => exact Nat.zero_le _
    | cons c content =>
      rw [hcontent] at hsaid
      obtain ⟨parts, hparts, hmap⟩ := hsaid
      have hlen := congrArg List.length hmap
      rw [List.length_map, List.length_map, ← (forall₂_of_mapM hparts).length_eq] at hlen
      exact hlen.ge
  | _ =>
    rw [hcontent] at hsaid
    have hlen := congrArg List.length hsaid
    rw [List.length_map] at hlen
    exact hlen.ge

/-- The loop gives an error, or as many messages as are needed, which are blocks for the messages but for
what is left out of them. -/
theorem fromMessages_spec (unmarshal : Text → Option A) (decodeString : Text → Option Text)
    (all msgs : List Message) (messages : List (ApiMessage A)) :
    (Refuses unmarshal decodeString (messages ≠ []) msgs ∧
        ∃ text, msgs.foldlM (fromMessage unmarshal decodeString all) messages = .error (.error text)) ∨
      ¬Refuses unmarshal decodeString (messages ≠ []) msgs ∧
        ∃ out, msgs.foldlM (fromMessage unmarshal decodeString all) messages = .ok out ∧
          out.length = messages.length + (msgs.map Message.size).sum ∧
          ((∀ msg ∈ msgs, ¬Stray msg) → ∃ blocks, out = messages ++ blocks.flatten ∧
            List.Forall₂ (fun msg block => block.length = msg.size) msgs blocks ∧
            List.Forall₂ (fun msg block => Block unmarshal decodeString all msg block ↔ Kept all msg)
              msgs blocks) := by
  induction msgs generalizing messages with
  | nil => exact .inr ⟨id, messages, rfl, rfl, fun _ => ⟨[], by simp, .nil, .nil⟩⟩
  | cons msg msgs ih =>
    rw [List.foldlM_cons]
    rcases turn_spec unmarshal decodeString all messages msg with
      ⟨text, refused, h⟩ | ⟨out, accepted, h, length, block⟩
    · rw [h]
      exact .inl ⟨.inl refused, text, rfl⟩
    · have hstarted : (messages ≠ [] ∨ msg.content ≠ .array []) = (out ≠ []) := by
        rw [← List.length_pos_iff, ← List.length_pos_iff, length, Ne, ← size_eq_zero]
        exact propext (by omega)
      rw [h, Refuses, hstarted]
      rcases ih out with ⟨refused, text, herr⟩ | ⟨accepted', out', hout', length', blocks⟩
      · exact .inl ⟨.inr refused, text, herr⟩
      · refine .inr ⟨not_or.mpr ⟨accepted, accepted'⟩, out', hout', ?_, fun hstray => ?_⟩
        · rw [length', length, List.map_cons, List.sum_cons, Nat.add_assoc]
        · obtain ⟨own, rfl, hown⟩ := block (hstray msg List.mem_cons_self)
          obtain ⟨rest, rfl, hlens, hrest⟩ := blocks fun m hm => hstray m (List.mem_cons_of_mem _ hm)
          rw [List.length_append] at length
          exact ⟨own :: rest, by simp, .cons (Nat.add_left_cancel length) hlens, .cons hown hrest⟩

theorem calls_of_nil (h : Block unmarshal decodeString all msg []) : msg.calls = [] := by
  obtain ⟨calls, hcalls, once⟩ := h.calls
  obtain rfl := (once_of_empty (l := []) (by simp)).mp once
  exact List.forall₂_nil_right_iff.mp (forall₂_of_mapM hcalls)

/-- Where the loop goes through, there are blocks just when nothing is left out. -/
theorem blocks_iff {msgs : List Message} {out : List (ApiMessage A)}
    (length : out.length = (msgs.map Message.size).sum)
    (own : (∀ msg ∈ msgs, ¬Stray msg) → ∃ blocks, out = blocks.flatten ∧
      List.Forall₂ (fun msg block => block.length = msg.size) msgs blocks ∧
      List.Forall₂ (fun msg block => Block unmarshal decodeString all msg block ↔ Kept all msg) msgs
        blocks) :
    (∃ blocks, out = blocks.flatten ∧ List.Forall₂ (Block unmarshal decodeString all) msgs blocks) ↔
      ∀ msg ∈ msgs, Kept all msg := by
  constructor
  · rintro ⟨blocks, rfl, hblocks⟩
    -- no block has more messages than it needs, so that an empty array has none
    have hlens := forall₂_length_eq (hblocks.imp fun _ _ h => h.size_le) length
    have strays : ∀ msg ∈ msgs, ¬Stray msg := by
      rintro msg hmsg ⟨hcontent, hcalls⟩
      have hboth := List.Forall₂.mp (S := fun msg block => Block unmarshal decodeString all msg block ∧
        block.length = msg.size) (fun _ _ => And.intro) hblocks hlens
      obtain ⟨block, hblock, hlen⟩ := exists_of_forall₂ hboth hmsg
      rw [size_eq_zero.mpr hcontent, List.length_eq_zero_iff] at hlen
      exact hcalls (calls_of_nil (hlen ▸ hblock))
    obtain ⟨blocks', hflat, hlens', hown⟩ := own strays
    obtain rfl := eq_of_flatten_eq hlens hlens' hflat
    intro msg hmsg
    obtain ⟨-, kept⟩ := exists_of_forall₂ (List.Forall₂.mp (S := fun msg _ => Kept all msg)
      (fun _ _ h => h.mp) hown hblocks) hmsg
    exact kept
  · intro hkept
    obtain ⟨blocks, hflat, -, hown⟩ := own fun msg hmsg => (hkept msg hmsg).not_stray
    refine ⟨blocks, hflat, List.forall₂_iff_get.mpr ⟨hown.length_eq, fun i hi hi' => ?_⟩⟩
    exact ((List.forall₂_iff_get.mp hown).2 i hi hi').mpr (hkept _ (List.get_mem ..))

theorem effort_spec (reasoning : Option (Option Text)) :
    effort reasoning = .error .panic ∧ reasoning = some none ∨
      (∃ think, effort reasoning = .ok think) ∧ reasoning ≠ some none := by
  match reasoning with
  | none => exact .inr ⟨⟨none, rfl⟩, by simp⟩
  | some none => exact .inl ⟨rfl, rfl⟩
  | some (some value) => exact .inr ⟨⟨some value, rfl⟩, by simp⟩

end

section

variable {A F T : Type} (unmarshal : Text → Option A) (decodeString : Text → Option Text)

/-- A request is refused for one of its messages, or it is translated message by message just when its
`Reasoning` has an `Effort` and all that its messages have is kept. -/
theorem fromChatRequest_translates (one : F) (r : ChatCompletionRequest F T) :
    Translates unmarshal decodeString one r ↔ Refuses unmarshal decodeString False r.messages ∨
      r.reasoning ≠ some none ∧ ∀ msg ∈ r.messages, Kept r.messages msg := by
  have hempty : (([] : List (ApiMessage A)) ≠ []) = False := by simp
  have spec := fromMessages_spec unmarshal decodeString r.messages r.messages []
  rw [hempty] at spec
  rcases spec with ⟨refused, text, herr⟩ | ⟨accepted, out, hout, length, own⟩
  · refine iff_of_true ?_ (.inl refused)
    rw [Translates, fromChatRequest, herr]
    trivial
  · rw [or_iff_right accepted, Translates, fromChatRequest, hout]
    rw [List.length_nil, Nat.zero_add] at length
    simp only [List.nil_append] at own
    rcases effort_spec r.reasoning with ⟨h, hnone⟩ | ⟨⟨think, h⟩, hsome⟩
    · rw [h]
      exact iff_of_false id fun hr => hr.1 hnone
    · rw [h, and_iff_right hsome]
      exact blocks_iff length own

end

/-- An answer of a tool, in one part. -/
def answer : ChatCompletionRequest Unit Unit where
  model := ascii "m"
  messages := [{
    role := ascii "tool"
    content := .array [.object [(ascii "type", .string (ascii "text")), (ascii "text", .string (ascii "5"))]]
    name := ascii "add" }]

/-- The name of the tool is lost. -/
theorem name_lost : ¬Translates (fun _ => some ()) (fun _ => none) () answer := by
  rintro ⟨blocks, hflat, hblocks⟩
  obtain ⟨block, rest, hblock, hrest, rfl⟩ := List.forall₂_cons_left_iff.mp hblocks
  obtain rfl := List.forall₂_nil_left_iff.mp hrest
  obtain rfl : [_] = block := hflat.trans (List.append_nil block)
  exact absurd hblock.toolName (by decide)

end Ecco9.Openai
