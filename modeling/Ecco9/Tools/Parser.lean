import Ecco9.Library.Search
import Ecco9.Library.Fields

/-! `tools/tools.go`: tool calls in the text of a model. How JSON is decoded is a parameter, as is the
order in which the entries of a decoded object are ranged over. -/

namespace Ecco9.Tools

open Ecco9.Library

inductive Json
  | null
  | bool (b : Bool)
  | number (text : Text)
  | string (s : Text)
  | array (items : List Json)
  | object (entries : List (Text × Json))

abbrev Object := List (Text × Json)

/-- The name is all that is looked at of a tool. -/
structure Tool where
  name : Text
  deriving DecidableEq

structure ToolCall where
  name : Text
  arguments : Object
  index : Nat

/-! ### Arguments -/

/-- The object under a key. -/
def objectAt (obj : Object) (key : Text) : Option Object :=
  match obj.lookup key with
  | some (.object o) => some o
  | _ => none

/-- The arguments of an object with a name; it may have none. -/
def namedArguments (obj : Object) : Option Object :=
  (objectAt obj (ascii "arguments")).or (objectAt obj (ascii "parameters"))

def hasName (obj : Object) : Bool := (obj.lookup (ascii "name")).isSome

mutual

def findInEntries : List (Text × Json) → Option (Option Object)
  | [] => none
  | (_, v) :: entries =>
    match findInValue v with
    | some found => some found
    | none => findInEntries entries

def findInValue : Json → Option (Option Object)
  | .object child =>
    if hasName child then some (namedArguments child) else findInEntries child
  | .array items => findInItems items
  | _ => none

def findInItems : List Json → Option (Option Object)
  | [] => none
  | .object child :: items =>
    match if hasName child then some (namedArguments child) else findInEntries child with
    | some found => some found
    | none => findInItems items
  | _ :: items => findInItems items

end

/-- The first object with a name, within an object. -/
def findObject (obj : Object) : Option (Option Object) :=
  if hasName obj then some (namedArguments obj) else findInEntries obj

section
variable (unmarshal : Text → Option Object)

/-- The loop of `findArguments`: the place, how many braces are open, where the first of them
stands. -/
def findArgumentsFrom (buffer : Text) (i braces : Nat) (start : Option Nat) :
    Text → Option (Option Object × Nat)
  | [] => none
  | c :: rest =>
    if c = 0x7B then
      findArgumentsFrom buffer (i + 1) (braces + 1) (if braces = 0 then some i else start) rest
    else if c = 0x7D ∧ 0 < braces then
      match if braces = 1 then start else none with
      | none => findArgumentsFrom buffer (i + 1) (braces - 1) start rest
      | some first =>
        match unmarshal ((buffer.take (i + 1)).drop first) with
        | none => findArgumentsFrom buffer (i + 1) 0 none rest
        | some data => some ((findObject data).getD (some data), i)
    else findArgumentsFrom buffer (i + 1) braces start rest

/-- The arguments, unless there are none, and where their object ends. -/
def findArguments (buffer : Text) : Option (Option Object × Nat) :=
  findArgumentsFrom unmarshal buffer 0 0 none buffer

end

/-! ### Tools -/

/-- The buffer ends with a part of the name of a tool. -/
def endsInName (tools : List Tool) (buf : Text) : Prop :=
  ∃ i < buf.length, ∃ t ∈ tools, (buf.drop i).length < t.name.length ∧ buf.drop i <+: t.name

instance (tools : List Tool) (buf : Text) : Decidable (endsInName tools buf) :=
  inferInstanceAs (Decidable (∃ i < _, ∃ t ∈ _, _))

/-- The better of two tools that were found: the one that stands first, or the longer one. -/
def better (found : Option (Tool × Nat)) (t : Tool) (pos : Nat) : Option (Tool × Nat) :=
  match found with
  | none => some (t, pos)
  | some (f, start) =>
    if pos > start ∨ pos = start ∧ t.name.length ≤ f.name.length then some (f, start)
    else some (t, pos)

def findToolFrom (buf : Text) (found : Option (Tool × Nat)) (t : Tool) : Option (Tool × Nat) :=
  match cut t.name buf with
  | none => found
  | some (before, _) => better found t before.length

/-- The tool, and where its name ends. -/
def findTool (tools : List Tool) (buf : Text) : Option (Tool × Nat) :=
  if buf = [] ∨ endsInName tools buf then none
  else (tools.foldl (findToolFrom buf) none).map fun (t, start) => (t, start + t.name.length)

/-! ### The parser -/

inductive ToolsState
  | lookingForTag
  | toolCalling
  | done
  deriving DecidableEq

structure Parser where
  tag : Text
  tools : List Tool
  state : ToolsState := .lookingForTag
  buffer : Text := []
  n : Nat := 0

namespace Parser

section
variable (unmarshal : Text → Option Object)

/-- Where the tag begins, and whether the whole of it is there. -/
def findTag (p : Parser) : Option (Nat × Bool) :=
  match cut p.tag p.buffer with
  | some (before, _) => some (before.length, true)
  | none =>
    let i := overlap p.buffer p.tag
    if 0 < i then some (p.buffer.length - i, false) else none

def parseToolCall (p : Parser) : Option (ToolCall × Parser) :=
  match findTool p.tools p.buffer with
  | none => none
  | some (tool, last) =>
    match findArguments unmarshal p.buffer with
    | some (some args, i) =>
      some (⟨tool.name, args, p.n⟩, { p with n := p.n + 1, buffer := p.buffer.drop (max i last) })
    | _ => none

/-- Tool calls, as long as there are any; each takes something off the buffer. -/
def parseToolCalls : Nat → Parser → List ToolCall × Parser
  | 0, p => ([], p)
  | n + 1, p =>
    match p.parseToolCall unmarshal with
    | none => ([], p)
    | some (call, p) =>
      let (calls, p) := parseToolCalls n p
      (call :: calls, p)

/-- The loop of `done`. -/
def doneFrom (opening closing : UInt8) : Int → Text → Bool
  | _, [] => false
  | count, c :: rest =>
    if c = opening then doneFrom opening closing (count + 1) rest
    else if c = closing then
      if count - 1 = 0 then true else doneFrom opening closing (count - 1) rest
    else doneFrom opening closing count rest

def braceTag : Text := ascii "\x7b"

def bracketTag : Text := ascii "["

def done (p : Parser) : Bool :=
  if p.tag = braceTag then doneFrom 0x7B 0x7D 0 p.buffer
  else if p.tag = bracketTag then doneFrom 0x5B 0x5D 0 p.buffer
  else false

/-- The part of `Add` behind the tag. -/
def call (p : Parser) (content : Text) : List ToolCall × Text × Parser :=
  let (calls, p) := p.parseToolCalls unmarshal p.buffer.length
  if p.done then (calls, p.buffer, { p with state := .done, buffer := [] })
  else (calls, content, p)

def add (p : Parser) (s : Text) : List ToolCall × Text × Parser :=
  match p.state with
  | .done => ([], s, p)
  | .toolCalling => call unmarshal { p with buffer := p.buffer ++ s } []
  | .lookingForTag =>
    let p := { p with buffer := p.buffer ++ s }
    let (content, p, found) :=
      match p.findTag with
      | none => (p.buffer, { p with buffer := [] }, false)
      | some (i, found) => (p.buffer.take i, { p with buffer := p.buffer.drop i }, found)
    if (p.tag = braceTag ∨ p.tag = bracketTag) ∧ trimSpace content ≠ [] then
      ([], content ++ p.buffer, { p with state := .done })
    else if found then call unmarshal { p with state := .toolCalling } content
    else ([], content, p)

def content (p : Parser) : Text :=
  if p.n > 0 then []
  else if p.tag = braceTag ∨ p.tag = bracketTag then p.buffer
  else []

/-- A stream: the calls, and the content with what `Content` returns at the end. -/
def stream (p : Parser) : List Text → List ToolCall × Text
  | [] => ([], p.content)
  | s :: chunks =>
    let (calls, content, p) := p.add unmarshal s
    let (calls', content') := p.stream chunks
    (calls ++ calls', content ++ content')

end

end Parser

end Ecco9.Tools
