import Ecco9.Library.Search
import Ecco9.Library.Trim

/-! `parser/parser.go`: a Modelfile is read rune by rune, and written command by command. -/

namespace Ecco9.Parser

open Ecco9.Library

abbrev Str := List Char

/-! ### Runes -/

def isAlpha (r : Char) : Bool :=
  decide ('a'.toNat ≤ r.toNat ∧ r.toNat ≤ 'z'.toNat ∨ 'A'.toNat ≤ r.toNat ∧ r.toNat ≤ 'Z'.toNat)

def isNumber (r : Char) : Bool := decide ('0'.toNat ≤ r.toNat ∧ r.toNat ≤ '9'.toNat)

def isSpace (r : Char) : Bool := decide (r = ' ' ∨ r = '\t')

def isNewline (r : Char) : Bool := decide (r = '\r' ∨ r = '\n')

/-- `unicode.IsSpace`. -/
def isWhite (r : Char) : Bool :=
  let n := r.toNat
  decide (0x09 ≤ n ∧ n ≤ 0x0D ∨ n = 0x20 ∨ n = 0x85 ∨ n = 0xA0 ∨ n = 0x1680 ∨
    0x2000 ≤ n ∧ n ≤ 0x200A ∨ n = 0x2028 ∨ n = 0x2029 ∨ n = 0x202F ∨ n = 0x205F ∨ n = 0x3000)

/-- `strconv.IsPrint`: which runes are printable is for Unicode to say, but for ASCII. -/
structure PrintTable where
  isPrint : Char → Bool
  ascii : ∀ r, r.toNat < 0x80 → (isPrint r = true ↔ 0x20 ≤ r.toNat ∧ r.toNat ≤ 0x7E)

def trimSpace (s : Str) : Str := trim isWhite s

/-! ### Quotes -/

def tripleQuote : Str := ['"', '"', '"']

def quote (s : Str) : Str :=
  if '\n' ∈ s ∨ [' '] <+: s ∨ [' '] <:+ s then
    if '"' ∈ s then tripleQuote ++ s ++ tripleQuote else ['"'] ++ s ++ ['"']
  else s

/-- Without a result where a quote is not closed. Lengths may be those of runes: only strings of
quotes are short enough for them to matter. -/
def unquote (s : Str) : Option Str :=
  if tripleQuote <+: s then
    if 6 ≤ s.length ∧ tripleQuote <:+ s then some ((s.drop 3).take (s.length - 6)) else none
  else if ['"'] <+: s then
    if 2 ≤ s.length ∧ ['"'] <:+ s then some ((s.drop 1).take (s.length - 2)) else none
  else some s

/-! ### Commands -/

structure Command where
  name : Str
  args : Str
  deriving DecidableEq

structure Modelfile where
  commands : List Command
  deriving DecidableEq

namespace Command

/-- `String`. -/
def string (c : Command) : Str :=
  if c.name = "model".toList then "FROM ".toList ++ c.args
  else if c.name ∈ ["license".toList, "template".toList, "system".toList, "adapter".toList] then
    c.name.map Char.toUpper ++ " ".toList ++ quote c.args
  else if c.name = "message".toList then
    let (role, message) := (cut ": ".toList c.args).getD (c.args, [])
    "MESSAGE ".toList ++ role ++ " ".toList ++ quote message
  else "PARAMETER ".toList ++ c.name ++ " ".toList ++ quote c.args

end Command

def Modelfile.string (f : Modelfile) : Str := f.commands.flatMap fun cmd => cmd.string ++ ['\n']

/-! ### Parsing -/

inductive State
  | nil
  | name
  | value
  | parameter
  | message
  | comment
  deriving DecidableEq

inductive RuneError
  | invalidCommand
  | unexpectedEOF

/-- Errors of `ParseFile`: the texts of those with a line, and what was read of an unfinished word. -/
inductive Error
  | unexpectedEOF (read : Option Str)
  | parser (lineNumber : Nat) (msg : String)
  | missingFrom
  deriving DecidableEq

def errInvalidMessageRole : String :=
  "message role must be one of \"system\", \"user\", or \"assistant\""

def errInvalidCommand : String :=
  "command must be one of \"from\", \"license\", \"template\", \"system\", \"adapter\", \"parameter\", or \"message\""

/-- The name in lower case; a name with other than ASCII letters is not a command in either case. -/
def toLower (s : Str) : Str := s.map Char.toLower

def isValidMessageRole (role : Str) : Prop :=
  role ∈ ["system".toList, "user".toList, "assistant".toList]

instance (role : Str) : Decidable (isValidMessageRole role) :=
  inferInstanceAs (Decidable (role ∈ _))

def isValidCommand (cmd : Str) : Prop :=
  toLower cmd ∈ ["from".toList, "license".toList, "template".toList, "system".toList,
    "adapter".toList, "parameter".toList, "message".toList]

instance (cmd : Str) : Decidable (isValidCommand cmd) :=
  inferInstanceAs (Decidable (_ ∈ _))

/-- No rune, where the source has the rune 0. -/
def noRune : Char := '\x00'

def parseRuneForState (r : Char) : State → Except RuneError (State × Char)
  | .nil =>
    if r = '#' then .ok (.comment, noRune)
    else if isSpace r || isNewline r then .ok (.nil, noRune)
    else .ok (.name, r)
  | .name =>
    if isAlpha r then .ok (.name, r)
    else if isSpace r then .ok (.value, noRune)
    else .error .invalidCommand
  | .value => if isNewline r || isSpace r then .ok (.nil, r) else .ok (.value, r)
  | .parameter =>
    if isAlpha r || isNumber r || r = '_' then .ok (.parameter, r)
    else if isSpace r then .ok (.value, noRune)
    else .error .unexpectedEOF
  | .message =>
    if isAlpha r then .ok (.message, r)
    else if isSpace r then .ok (.value, noRune)
    else .error .unexpectedEOF
  | .comment => if isNewline r then .ok (.nil, noRune) else .ok (.comment, noRune)

structure ParseState where
  cmd : Command := ⟨[], []⟩
  curr : State := .nil
  currLine : Nat := 1
  b : Str := []
  role : Str := []
  commands : List Command := []
  deriving DecidableEq

namespace ParseState

/-- The arguments of the command whose value has been read. -/
def withRole (p : ParseState) (s : Str) : Str :=
  if p.role ≠ [] then p.role ++ ": ".toList ++ s else s

def write (T : PrintTable) (p : ParseState) (r : Char) : ParseState :=
  if T.isPrint r then { p with b := p.b ++ [r] } else p

/-- The next state, with an empty buffer. -/
def enter (T : PrintTable) (p : ParseState) (next : State) (r : Char) : ParseState :=
  write T { p with b := [], curr := next } r

/-- A change of state, some of which are redirected. -/
def leave (T : PrintTable) (p : ParseState) (next : State) (r : Char) : Except Error ParseState :=
  match p.curr with
  | .name =>
    if ¬isValidCommand p.b then .error (.parser p.currLine errInvalidCommand)
    else
      let s := toLower p.b
      if s = "from".toList then
        .ok (enter T { p with cmd := { p.cmd with name := "model".toList } } next r)
      else if s = "parameter".toList then .ok (enter T p .parameter r)
      else if s = "message".toList then
        .ok (enter T { p with cmd := { p.cmd with name := s } } .message r)
      else .ok (enter T { p with cmd := { p.cmd with name := s } } next r)
  | .parameter => .ok (enter T { p with cmd := { p.cmd with name := p.b } } next r)
  | .message =>
    if ¬isValidMessageRole p.b then .error (.parser p.currLine errInvalidMessageRole)
    else .ok (enter T { p with role := p.b } next r)
  | .comment | .nil => .ok (enter T p next r)
  | .value =>
    match unquote (trimSpace p.b) with
    | none => .ok { p with b := p.b ++ [r] }
    | some s =>
      if isSpace r then .ok { p with b := p.b ++ [r] }
      else
        let cmd := { p.cmd with args := p.withRole s }
        .ok (enter T { p with cmd, role := [], commands := p.commands ++ [cmd] } next r)

/-- One rune. -/
def step (T : PrintTable) (p : ParseState) (r : Char) : Except Error ParseState :=
  let p := if isNewline r then { p with currLine := p.currLine + 1 } else p
  match parseRuneForState r p.curr with
  | .error .unexpectedEOF => .error (.unexpectedEOF (some p.b))
  | .error .invalidCommand => .error (.parser p.currLine errInvalidCommand)
  | .ok (next, r) => if next ≠ p.curr then leave T p next r else .ok (write T p r)

def run (T : PrintTable) : ParseState → Str → Except Error ParseState
  | p, [] => .ok p
  | p, r :: s => (step T p r).bind (run T · s)

/-- What is left at the end. -/
def flush (p : ParseState) : Except Error (List Command) :=
  match p.curr with
  | .comment | .nil => .ok p.commands
  | .value =>
    match unquote (trimSpace p.b) with
    | none => .error (.unexpectedEOF none)
    | some s => .ok (p.commands ++ [{ p.cmd with args := p.withRole s }])
  | _ => .error (.unexpectedEOF none)

end ParseState

def parseCommands (T : PrintTable) (p : ParseState) (s : Str) : Except Error (List Command) :=
  (p.run T s).bind ParseState.flush

def parseRunes (T : PrintTable) (s : Str) : Except Error Modelfile :=
  (parseCommands T {} s).bind fun commands =>
    if ∃ cmd ∈ commands, cmd.name = "model".toList then .ok ⟨commands⟩ else .error .missingFrom

/-- A string as bytes. -/
def utf8 (s : Str) : List UInt8 := (String.ofList s).toUTF8.data.toList

/-- What decodes the bytes of a file: UTF-16 with a byte order mark, and UTF-8, which it returns as
it is unless there is a mark in front. -/
structure Decoder where
  runes : List UInt8 → Str
  runes_utf8 : ∀ s : Str, s.head? ≠ some '\uFEFF' → runes (utf8 s) = s

def parseFile (D : Decoder) (T : PrintTable) (text : List UInt8) : Except Error Modelfile :=
  parseRunes T (D.runes text)

/-- `String`, as bytes. -/
def Modelfile.text (f : Modelfile) : List UInt8 := utf8 f.string

end Ecco9.Parser
