import Ecco9.Parser.RoundTrip
import Mathlib.Data.List.Forall2

/-! The lines of a Modelfile, by the words that introduce them, and the commands they become. -/

namespace Ecco9.Parser

open Ecco9.Library

/-! ### Lines -/

/-- The text of a value: no line of it but the last ends it. -/
structure Value (T : PrintTable) (t v : Str) : Prop where
  unclosed : Unclosed (kept T t)
  unquoted : unquote (trimSpace (kept T t)) = some v

/-- The word of an instruction, in whatever case it is written. -/
structure Heading (T : PrintTable) (x word : Str) : Prop where
  opening : Opening x
  valid : isValidCommand (x.filter T.isPrint)
  lower : toLower (x.filter T.isPrint) = word

/-- What stands between the word and the value, with the name and the role it says. -/
inductive Lead : Str → Str → Str → Str → Prop
  | from : Lead "from".toList [] "model".toList []
  | parameter {k r} : (∀ a ∈ k, IsWordRune a) → isSpace r = true →
      Lead "parameter".toList (k ++ [r]) k []
  | message {role r} : isValidMessageRole role → isSpace r = true →
      Lead "message".toList (role ++ [r]) "message".toList role
  | other {word} : word ∈ listedNames → Lead word [] word []

structure Instruction (T : PrintTable) where
  heading : Str
  word : Str
  blank : Char
  front : Str
  name : Str
  role : Str
  value : Str
  arg : Str
  isHeading : Heading T heading word
  isBlank : isSpace blank = true
  isLead : Lead word front name role
  isValue : Value T value arg

namespace Instruction

variable {T : PrintTable}

/-- What stands behind the word and its blank. -/
def behind (i : Instruction T) : Str := i.front ++ i.value

def text (i : Instruction T) : Str := i.heading ++ i.blank :: i.behind

def command (i : Instruction T) : Command where
  name := i.name
  args := if i.role ≠ [] then i.role ++ ": ".toList ++ i.arg else i.arg

end Instruction

/-- Texts of whole lines. -/
inductive Lines (T : PrintTable) : Str → List (Instruction T) → Prop
  | nil : Lines T [] []
  | blank {s is r} : Lines T s is → isSpace r = true ∨ isNewline r = true → Lines T (s ++ [r]) is
  | comment {s is c r} : Lines T s is → (∀ a ∈ c, isNewline a = false) → isNewline r = true →
      Lines T (s ++ ('#' :: c ++ [r])) is
  | instruction {s is r} (i : Instruction T) : Lines T s is → isNewline r = true →
      Lines T (s ++ (i.text ++ [r])) (is ++ [i])

/-- Texts of lines the last of which need not end. -/
inductive Contents (T : PrintTable) : Str → List (Instruction T) → Prop
  | lines {s is} : Lines T s is → Contents T s is
  | comment {s is c} : Lines T s is → (∀ a ∈ c, isNewline a = false) → Contents T (s ++ '#' :: c) is
  | instruction {s is} (i : Instruction T) : Lines T s is → Contents T (s ++ i.text) (is ++ [i])

/-! ### Lines are read as commands -/

section
variable {T : PrintTable} {p : ParseState}

theorem ParseState.run_trans {q : ParseState} {s : Str} (h : p.run T s = .ok q) (t : Str) :
    p.run T (s ++ t) = q.run T t := by
  rw [run_append, h]
  rfl

theorem ParseState.run_single {q : ParseState} {r : Char} (h : p.step T r = .ok q) :
    p.run T [r] = .ok q := run_cons h []

theorem run_commented {c : Str} (hcurr : p.curr = .comment) (h : ∀ a ∈ c, isNewline a = false) :
    p.run T c = .ok p := by
  induction c with
  | nil => rfl
  | cons a c ih =>
    rw [ParseState.run_cons (ParseState.step_commented hcurr (h a (by simp)))]
    exact ih fun a ha => h a (by simp [ha])

theorem listed_word {word : Str} (h : word ∈ listedNames) :
    word ≠ "from".toList ∧ word ≠ "parameter".toList ∧ word ≠ "message".toList :=
  (listed_upper word h).2.2.2

/-- The word of an instruction and what stands between it and the value. -/
theorem run_lead (ready : Ready p) {x word front name role : Str} {r : Char}
    (hx : Heading T x word) (hr : isSpace r = true) (lead : Lead word front name role) :
    p.run T (x ++ r :: front) =
      .ok { p with cmd := { p.cmd with name }, curr := .value, b := [], role } := by
  have hrun := ParseState.run_heading (T := T) ready.curr hx.opening hr hx.valid
  have hsplit : x ++ r :: front = (x ++ [r]) ++ front := by simp
  rw [hsplit, ParseState.run_trans hrun]
  obtain ⟨-, -, hlower⟩ := hx
  rw [ParseState.command]
  dsimp only
  rw [hlower]
  cases lead with
  | «from» =>
    rw [if_pos rfl]
    exact congrArg (fun role => Except.ok { p with
      cmd := { p.cmd with name := "model".toList }, curr := .value, b := [], role }) ready.role
  | parameter hk hr' =>
    rw [if_neg (by decide), if_pos rfl, ParseState.run_trans (ParseState.run_parameter rfl hk),
      ParseState.run_single (ParseState.step_parameter_space rfl hr')]
    exact congrArg (fun role => Except.ok { p with
      cmd := { p.cmd with name }, curr := .value, b := [], role }) ready.role
  | message hrole hr' =>
    rw [if_neg (by decide), if_neg (by decide), if_pos rfl,
      ParseState.run_trans (ParseState.run_word (.inr rfl) (alpha_of_role hrole)),
      ParseState.run_single (ParseState.step_message_space rfl hr' hrole)]
    rfl
  | other hword =>
    obtain ⟨hfrom, hparameter, hmessage⟩ := listed_word hword
    rw [if_neg hfrom, if_neg hparameter, if_neg hmessage]
    exact congrArg (fun role => Except.ok { p with
      cmd := { p.cmd with name := word }, curr := .value, b := [], role }) ready.role

/-- An instruction, but for the end of its line. -/
theorem run_instruction (ready : Ready p) (i : Instruction T) :
    ∃ n, p.run T i.text = .ok { p with
      cmd := { p.cmd with name := i.name }, curr := .value, currLine := n, b := kept T i.value,
      role := i.role } := by
  have hlead := run_lead ready i.isHeading i.isBlank i.isLead
  obtain ⟨n, hvalue⟩ := ParseState.run_value (T := T) (t := i.value)
    (p := { p with cmd := { p.cmd with name := i.name }, curr := .value, b := [], role := i.role })
    rfl fun u r w huw hr => i.isValue.unclosed (kept T u) r (kept T w) (by
      rw [huw, kept_append]
      congr 1
      exact List.filter_cons_of_pos (by simp [Writable, hr])) hr
  refine ⟨n, ?_⟩
  have hsplit : i.text = (i.heading ++ i.blank :: i.front) ++ i.value := by
    simp [Instruction.text, Instruction.behind]
  rw [hsplit, ParseState.run_trans hlead, hvalue]
  rfl

/-- Whole lines leave the parser between two commands. -/
theorem Lines.run {s : Str} {is : List (Instruction T)} (h : Lines T s is) :
    ∃ p, ParseState.run T {} s = .ok p ∧ Ready p ∧ p.commands = is.map Instruction.command := by
  induction h with
  | nil => exact ⟨{}, rfl, ⟨rfl, rfl⟩, rfl⟩
  | blank _ hr ih =>
    obtain ⟨p, hrun, ready, hcs⟩ := ih
    obtain ⟨n, hstep⟩ := ParseState.step_blank (T := T) ready.curr hr
    have hwhole := (ParseState.run_trans hrun _).trans (ParseState.run_single hstep)
    exact ⟨_, hwhole, ⟨ready.curr, ready.role⟩, hcs⟩
  | comment _ hc hr ih =>
    obtain ⟨p, hrun, ready, hcs⟩ := ih
    have hopen := ParseState.step_comment (T := T) ready.curr
    have hend := ParseState.step_comment_end (T := T)
      (p := { p with curr := .comment, b := [] }) rfl hr
    have hline := (ParseState.run_trans (run_commented rfl hc) _).trans (ParseState.run_single hend)
    have hwhole := (ParseState.run_trans hrun _).trans ((ParseState.run_cons hopen _).trans hline)
    exact ⟨_, hwhole, ⟨rfl, ready.role⟩, hcs⟩
  | instruction i _ hr ih =>
    obtain ⟨p, hrun, ready, hcs⟩ := ih
    obtain ⟨n, hvalue⟩ := run_instruction ready i
    have hclose := ParseState.step_close (T := T) (p := { p with
      cmd := { p.cmd with name := i.name }, curr := .value, currLine := n, b := kept T i.value,
      role := i.role }) rfl hr i.isValue.unquoted
    have hline := (ParseState.run_trans hvalue _).trans (ParseState.run_single hclose)
    refine ⟨_, (ParseState.run_trans hrun _).trans hline, ⟨rfl, rfl⟩, ?_⟩
    rw [List.map_append, ← hcs]
    rfl

/-- A text of instructions is read as their commands. -/
theorem Contents.read {s : Str} {is : List (Instruction T)} (h : Contents T s is) :
    parseCommands T {} s = .ok (is.map Instruction.command) := by
  cases h with
  | lines h =>
    obtain ⟨p, hrun, ready, hcs⟩ := h.run
    rw [parseCommands, hrun]
    change p.flush = _
    rw [ParseState.flush, ready.curr, hcs]
  | comment h hc =>
    obtain ⟨p, hrun, ready, hcs⟩ := h.run
    have hopen := ParseState.step_comment (T := T) ready.curr
    rw [parseCommands, ParseState.run_trans hrun, ParseState.run_cons hopen,
      run_commented rfl hc, ← hcs]
    rfl
  | instruction i h =>
    obtain ⟨p, hrun, ready, hcs⟩ := h.run
    obtain ⟨n, hvalue⟩ := run_instruction ready i
    rw [ParseState.parseCommands_append hrun, parseCommands, hvalue, List.map_append, ← hcs]
    simp only [Except.bind, ParseState.flush, i.isValue.unquoted]
    rfl

/-! ### Commands are read from lines -/

/-- What has been read since the last line that is whole. -/
def Part (T : PrintTable) (p : ParseState) (t : Str) : Prop :=
  match p.curr with
  | .nil => t = []
  | .comment => ∃ c, t = '#' :: c ∧ ∀ a ∈ c, isNewline a = false
  | .name => Opening t ∧ p.b = t.filter T.isPrint
  | .parameter => ∃ x r, t = x ++ r :: p.b ∧ Heading T x "parameter".toList ∧ isSpace r = true ∧
      ∀ a ∈ p.b, IsWordRune a
  | .message => ∃ x r, t = x ++ r :: p.b ∧ Heading T x "message".toList ∧ isSpace r = true ∧
      p.cmd.name = "message".toList
  | .value => ∃ x r word front u, t = x ++ r :: (front ++ u) ∧ Heading T x word ∧
      isSpace r = true ∧ Lead word front p.cmd.name p.role ∧ p.b = kept T u ∧ Unclosed p.b

structure Has (T : PrintTable) (s : Str) (p : ParseState) (is : List (Instruction T)) : Prop where
  text : ∃ front t, s = front ++ t ∧ Lines T front is ∧ Part T p t
  commands : p.commands = is.map Instruction.command
  role : p.curr ≠ .value → p.role = []

theorem Part.word {t : Str} (hx : Opening t) (hb : p.b = t.filter T.isPrint)
    (hvalid : isValidCommand p.b) (hrole : p.role = []) {r : Char} (hr : isSpace r = true) :
    Part T p.command (t ++ [r]) := by
  have heading : Heading T t (toLower p.b) := by
    rw [hb] at hvalid ⊢
    exact ⟨hx, hvalid, rfl⟩
  have hvalue {name : Str} (lead : Lead (toLower p.b) [] name []) :
      Part T { p with cmd := { p.cmd with name }, curr := .value, b := [] } (t ++ [r]) := by
    have lead : Lead (toLower p.b) [] name p.role := by rwa [hrole]
    exact ⟨t, r, _, [], [], rfl, heading, hr, lead, rfl, unclosed_nil⟩
  unfold ParseState.command
  split_ifs with hfrom hparameter hmessage
  · rw [hfrom] at hvalue
    exact hvalue .from
  · exact ⟨t, r, rfl, hparameter ▸ heading, hr, by simp⟩
  · exact ⟨t, r, rfl, hmessage ▸ heading, hr, hmessage⟩
  · refine hvalue (.other ?_)
    simp only [isValidCommand, List.mem_cons, hfrom, hparameter, hmessage, List.not_mem_nil,
      or_false, false_or] at hvalid
    simpa only [listedNames, List.mem_cons, List.not_mem_nil, or_false] using hvalid

/-- A value that can be unquoted makes what has been read an instruction. -/
theorem Part.instruction {t v : Str} (part : Part T p t) (hcurr : p.curr = .value)
    (hv : unquote (trimSpace p.b) = some v) :
    ∃ i : Instruction T, i.text = t ∧ i.command =
      { p.cmd with args := if p.role ≠ [] then p.role ++ ": ".toList ++ v else v } := by
  rw [Part] at part
  simp only [hcurr] at part
  obtain ⟨x, a, word, front, u, rfl, hx, ha, hlead, hb, hunclosed⟩ := part
  rw [hb] at hv hunclosed
  exact ⟨⟨x, word, a, front, _, _, u, v, hx, ha, hlead, ⟨hunclosed, hv⟩⟩, rfl, rfl⟩

theorem command_commands : p.command.commands = p.commands := by
  unfold ParseState.command
  split_ifs <;> rfl

theorem command_role : p.command.role = p.role := by
  unfold ParseState.command
  split_ifs <;> rfl

theorem Has.step {s : Str} {p' : ParseState} {is : List (Instruction T)} {r : Char}
    (has : Has T s p is) (h : p.step T r = .ok p') : ∃ is', Has T (s ++ [r]) p' is' := by
  obtain ⟨⟨front, t, rfl, hlines, part⟩, hcs, hrole⟩ := has
  rw [Part] at part
  rw [List.append_assoc]
  obtain ⟨n, ⟨hcurr, ⟨hr, rfl⟩ | ⟨rfl, rfl⟩ | ⟨⟨hhash, hspace, hline⟩, rfl⟩⟩ |
    ⟨hcurr, ⟨hr, rfl⟩ | ⟨hr, rfl⟩⟩ | ⟨hcurr, ⟨hr, rfl⟩ | ⟨⟨hr, hvalid⟩, rfl⟩⟩ |
    ⟨hcurr, ⟨hr, rfl⟩ | ⟨hr, rfl⟩⟩ | ⟨hcurr, ⟨-, rfl⟩ | ⟨hr, hvalid, rfl⟩⟩ |
    ⟨hcurr, ⟨hr, rfl⟩ | ⟨hopen, hr, rfl⟩ | ⟨hr, s, hs, rfl⟩⟩⟩ := ParseState.step_cases h <;>
    rw [hcurr] at part <;> dsimp only at part
  · subst part
    refine ⟨is, ⟨_, [], (List.append_nil _).symm, .blank hlines hr, ?_⟩, hcs, hrole⟩
    rw [Part]
    simp only [hcurr]
  · subst part
    exact ⟨is, ⟨front, _, rfl, hlines, [], rfl, by simp⟩, hcs, fun _ => hrole (by simp [hcurr])⟩
  · subst part
    rw [ParseState.enter_eq]
    exact ⟨is, ⟨front, _, rfl, hlines, ⟨r, [], rfl, hhash, hspace, hline, by simp⟩, rfl⟩, hcs,
      fun _ => hrole (by simp [hcurr])⟩
  · obtain ⟨c, rfl, hc⟩ := part
    refine ⟨is, ⟨front, _, rfl, hlines, ?_⟩, hcs, hrole⟩
    rw [Part]
    simp only [hcurr]
    exact ⟨c ++ [r], rfl, List.forall_mem_append.mpr ⟨hc, by simpa⟩⟩
  · obtain ⟨c, rfl, hc⟩ := part
    exact ⟨is, ⟨_, [], (List.append_nil _).symm, .comment hlines hc hr, rfl⟩, hcs,
      fun _ => hrole (by simp [hcurr])⟩
  · obtain ⟨⟨a, w, rfl, hhash, hspace, hline, hw⟩, hb⟩ := part
    refine ⟨is, ⟨front, _, rfl, hlines, ?_⟩, hcs, hrole⟩
    rw [Part]
    simp only [hcurr]
    refine ⟨⟨a, w ++ [r], rfl, hhash, hspace, hline, List.forall_mem_append.mpr ⟨hw, by simpa⟩⟩, ?_⟩
    rw [List.filter_append, ← hb, filter_alpha (w := [r]) (by simpa)]
  · have hnone := hrole (by simp [hcurr])
    refine ⟨is, ⟨front, _, rfl, hlines, ?_⟩, command_commands.trans hcs,
      fun _ => command_role.trans hnone⟩
    exact Part.word (p := { p with currLine := n }) part.1 part.2 hvalid hnone hr
  · obtain ⟨x, a, rfl, hx, ha, hword⟩ := part
    refine ⟨is, ⟨front, _, rfl, hlines, ?_⟩, hcs, hrole⟩
    rw [Part]
    simp only [hcurr]
    exact ⟨x, a, by simp, hx, ha, List.forall_mem_append.mpr ⟨hword, by simpa⟩⟩
  · obtain ⟨x, a, rfl, hx, ha, hword⟩ := part
    have hnone := hrole (by simp [hcurr])
    refine ⟨is, ⟨front, _, rfl, hlines, x, a, _, p.b ++ [r], [], by simp, hx, ha, ?_, rfl,
      unclosed_nil⟩, hcs, fun _ => hnone⟩
    rw [hnone]
    exact .parameter hword hr
  · obtain ⟨x, a, rfl, hx, ha, hname⟩ := part
    refine ⟨is, ⟨front, _, rfl, hlines, ?_⟩, hcs, hrole⟩
    rw [Part]
    simp only [hcurr]
    exact ⟨x, a, by simp, hx, ha, hname⟩
  · obtain ⟨x, a, rfl, hx, ha, hname⟩ := part
    refine ⟨is, ⟨front, _, rfl, hlines, x, a, _, p.b ++ [r], [], by simp, hx, ha, ?_, rfl,
      unclosed_nil⟩, hcs, fun h => absurd rfl h⟩
    dsimp only
    rw [hname]
    exact .message hvalid hr
  · obtain ⟨x, a, word, lead, u, rfl, hx, ha, hlead, hb, hunclosed⟩ := part
    refine ⟨is, ⟨front, _, rfl, hlines, ?_⟩, hcs, hrole⟩
    rw [Part]
    simp only [hcurr]
    refine ⟨x, a, word, lead, u ++ [r], by simp, hx, ha, hlead, ?_, hunclosed⟩
    rw [kept_append, hb, kept, kept, List.filter_cons_of_neg (by simpa), List.filter_nil,
      List.append_nil]
  · obtain ⟨x, a, word, lead, u, rfl, hx, ha, hlead, hb, hunclosed⟩ := part
    refine ⟨is, ⟨front, _, rfl, hlines, ?_⟩, hcs, hrole⟩
    rw [Part]
    simp only [hcurr]
    refine ⟨x, a, word, lead, u ++ [r], by simp, hx, ha, hlead, ?_, unclosed_concat hunclosed hopen⟩
    rw [kept_append, hb, kept_of_writable (t := [r]) (by simpa)]
  · obtain ⟨i, rfl, hi⟩ := Part.instruction (p := p) (by rw [Part, hcurr]; exact part) hcurr hs
    refine ⟨is ++ [i], ⟨_, [], (List.append_nil _).symm, .instruction i hlines hr, rfl⟩, ?_,
      fun _ => rfl⟩
    rw [List.map_append, List.map_singleton, hi, ← hcs]
    rfl

theorem has_start : Has T [] {} [] where
  text := ⟨[], [], rfl, .nil, rfl⟩
  commands := rfl
  role _ := rfl

theorem Has.run {s t : Str} {p' : ParseState} {is : List (Instruction T)} (has : Has T s p is)
    (h : p.run T t = .ok p') : ∃ is', Has T (s ++ t) p' is' := by
  induction t generalizing s p is with
  | nil =>
    cases h
    exact ⟨is, by rwa [List.append_nil]⟩
  | cons r t ih =>
    cases hstep : p.step T r with
    | error e =>
      rw [ParseState.run, hstep] at h
      cases h
    | ok q =>
      rw [ParseState.run_cons hstep] at h
      obtain ⟨is', has'⟩ := has.step hstep
      obtain ⟨is'', has''⟩ := ih has' h
      exact ⟨is'', by rwa [List.append_assoc] at has''⟩

theorem Has.flush {s : Str} {cs : List Command} {is : List (Instruction T)} (has : Has T s p is)
    (h : p.flush = .ok cs) : ∃ is', Contents T s is' ∧ is'.map Instruction.command = cs := by
  obtain ⟨⟨front, t, rfl, hlines, part⟩, hcs, -⟩ := has
  unfold ParseState.flush at h
  cases hcurr : p.curr with
  | nil =>
    rw [Part] at part
    simp only [hcurr, Except.ok.injEq] at h part
    subst part h
    exact ⟨is, by rw [List.append_nil]; exact .lines hlines, hcs.symm⟩
  | comment =>
    rw [Part] at part
    simp only [hcurr, Except.ok.injEq] at h part
    obtain ⟨c, rfl, hc⟩ := part
    exact ⟨is, .comment hlines hc, hcs.symm.trans h⟩
  | value =>
    simp only [hcurr] at h
    cases hs : unquote (trimSpace p.b) with
    | none =>
      rw [hs] at h
      cases h
    | some v =>
      rw [hs] at h
      obtain ⟨i, rfl, hi⟩ := part.instruction hcurr hs
      refine ⟨is ++ [i], .instruction i hlines, ?_⟩
      rw [List.map_append, List.map_singleton, hi, ← hcs]
      exact Except.ok.inj h
  | name => simp [hcurr] at h
  | parameter => simp [hcurr] at h
  | message => simp [hcurr] at h

/-- Whatever is read is a text of instructions. -/
theorem exists_contents {s : Str} {cs : List Command} (h : parseCommands T {} s = .ok cs) :
    ∃ is, Contents T s is ∧ is.map Instruction.command = cs := by
  cases hrun : ParseState.run T {} s with
  | error e =>
    rw [parseCommands, hrun] at h
    cases h
  | ok p =>
    rw [parseCommands, hrun] at h
    obtain ⟨is, has⟩ := has_start.run hrun
    exact has.flush h

end

/-! ### Classes -/

/-- The cases that `CreateRequest` knows of. -/
inductive Kind
  | model
  | adapter
  | template
  | system
  | license
  | message
  | parameter
  deriving DecidableEq

def kindOf (name : Str) : Kind :=
  if name = "model".toList then .model
  else if name = "adapter".toList then .adapter
  else if name = "template".toList then .template
  else if name = "system".toList then .system
  else if name = "license".toList then .license
  else if name = "message".toList then .message
  else .parameter

theorem kindOf_eq_model {name : Str} : kindOf name = .model ↔ name = "model".toList := by
  unfold kindOf
  by_cases h : name = "model".toList
  · rw [if_pos h]
    exact iff_of_true rfl h
  · rw [if_neg h]
    split_ifs <;> exact iff_of_false (by decide) h

/-- The case that a command goes to. -/
def Command.kind (c : Command) : Kind := kindOf c.name

section
variable {T : PrintTable}

namespace Instruction

/-- What the word of the instruction says. -/
def kind (i : Instruction T) : Kind :=
  if i.word = "from".toList then .model
  else if i.word = "parameter".toList then .parameter
  else kindOf i.word

/-- The line is `PARAMETER k v`, with any blanks between. -/
structure Asks (i : Instruction T) (k v : Str) : Prop where
  word : i.word = "parameter".toList
  named : k ≠ []
  name : ∀ a ∈ k, isSpace a = false ∧ isNewline a = false
  value : ∃ blanks r u, i.behind = blanks ++ (k ++ r :: u) ∧ (∀ a ∈ blanks, isSpace a = true) ∧
    isSpace r = true ∧ unquote (trimSpace (kept T u)) = some v

/-- A parameter is named as no instruction is, and by what stands directly behind one blank. -/
def Clear (i : Instruction T) : Prop :=
  i.word = "parameter".toList →
    kindOf i.name = .parameter ∧ ∀ k v, i.Asks k v → i.name ≠ []

end Instruction

/-- A text that is read has its instructions in their classes, its parameters with their names and
values, and `FROM` is missing if none of the instructions is. -/
structure KeepsClasses (D : Decoder) (T : PrintTable) (text : List UInt8) : Prop where
  commands : ∀ f, parseFile D T text = .ok f →
    (∃ is, Contents T (D.runes text) is) ∧ ∀ is, Contents T (D.runes text) is →
      List.Forall₂ (fun i c => c.kind = i.kind ∧ ∀ k v, i.Asks k v → c = ⟨k, v⟩) is f.commands
  missing : parseFile D T text = .error .missingFrom ↔
    ∃ is, Contents T (D.runes text) is ∧ ∀ i ∈ is, i.kind ≠ .model

/-- What stands before the first blank. -/
theorem before_blank {x y s t : Str} {a b : Char} (hx : ∀ c ∈ x, isSpace c = false)
    (hy : ∀ c ∈ y, isSpace c = false) (ha : isSpace a = true) (hb : isSpace b = true)
    (h : x ++ a :: s = y ++ b :: t) : x = y ∧ s = t := by
  have htake := congrArg (List.takeWhile fun c => !isSpace c) h
  rw [List.takeWhile_append_of_pos fun c hc => by simp [hx c hc],
    List.takeWhile_append_of_pos fun c hc => by simp [hy c hc],
    List.takeWhile_cons_of_neg (by simpa), List.takeWhile_cons_of_neg (by simpa),
    List.append_nil, List.append_nil] at htake
  rw [htake] at h
  exact ⟨htake, (List.cons.inj (List.append_cancel_left h)).2⟩

theorem Lead.of_parameter {word front name role : Str} (lead : Lead word front name role)
    (h : word = "parameter".toList) :
    ∃ r, front = name ++ [r] ∧ (∀ a ∈ name, IsWordRune a) ∧ isSpace r = true ∧ role = [] := by
  cases lead with
  | «from» => exact absurd h (by decide)
  | parameter hk hr => exact ⟨_, rfl, hk, hr, rfl⟩
  | message => exact absurd h (by decide)
  | other hword => exact absurd h (listed_word hword).2.1

theorem Lead.kind {word front name role : Str} (lead : Lead word front name role)
    (h : word ≠ "parameter".toList) :
    kindOf name = if word = "from".toList then .model else kindOf word := by
  cases lead with
  | «from» =>
    rw [if_pos rfl]
    exact kindOf_eq_model.mpr rfl
  | parameter => exact absurd rfl h
  | message => rw [if_neg (by decide)]
  | other hword => rw [if_neg (listed_word hword).1]

namespace Instruction

theorem kind_command {i : Instruction T} (h : i.word ≠ "parameter".toList) :
    i.command.kind = i.kind := by
  have hkind := i.isLead.kind h
  rw [Command.kind, command, hkind, kind, if_neg h]

theorem kind_parameter {i : Instruction T} (h : i.word = "parameter".toList) :
    i.kind = .parameter := by
  rw [kind, if_neg (by rw [h]; decide), if_pos h]

/-- A name without a blank before it is the one that is asked for. -/
theorem Asks.command {i : Instruction T} {k v : Str} (asks : i.Asks k v) (hne : i.name ≠ []) :
    i.command = ⟨k, v⟩ := by
  obtain ⟨b, hfront, hword, hb, hrole⟩ := i.isLead.of_parameter asks.word
  obtain ⟨blanks, r, u, hsplit, hblanks, hr, hv⟩ := asks.value
  rw [behind, hfront, List.append_assoc] at hsplit
  have hnil : blanks = [] := by
    cases blanks with
    | nil => rfl
    | cons a blanks =>
      obtain ⟨c, name, hname⟩ := List.exists_cons_of_ne_nil hne
      rw [hname] at hsplit hword
      obtain rfl := (List.cons.inj hsplit).1
      have hspace := hblanks c (by simp)
      rw [(hword c (by simp)).isSpace] at hspace
      cases hspace
  rw [hnil, List.nil_append] at hsplit
  obtain ⟨hname, rfl⟩ := before_blank (fun a ha => (hword a ha).isSpace)
    (fun a ha => (asks.name a ha).1) hb hr hsplit
  have harg := Option.some.inj (i.isValue.unquoted.symm.trans hv)
  rw [Instruction.command, hrole, hname, harg]
  rfl

end Instruction

theorem parseRunes_eq {s : Str} {is : List (Instruction T)} (h : Contents T s is) :
    parseRunes T s = if ∃ i ∈ is, i.name = "model".toList then
      .ok ⟨is.map Instruction.command⟩ else .error .missingFrom := by
  rw [parseRunes, h.read]
  simp only [Except.bind, List.mem_map, exists_exists_and_eq_and]
  rfl

theorem leave_error {p : ParseState} {next : State} {r : Char} {e : Error}
    (h : p.leave T next r = .error e) : e ≠ .missingFrom := by
  rintro rfl
  unfold ParseState.leave at h
  cases hcurr : p.curr <;> simp only [hcurr] at h
  case name =>
    split_ifs at h
    cases h
  case message =>
    split_ifs at h
    cases h
  case value =>
    split at h
    · cases h
    · split_ifs at h
  all_goals cases h

theorem step_error {p : ParseState} {r : Char} {e : Error} (h : p.step T r = .error e) :
    e ≠ .missingFrom := by
  rintro rfl
  unfold ParseState.step at h
  dsimp only at h
  split at h
  · cases h
  · cases h
  · split_ifs at h
    · exact leave_error h rfl
    · exact leave_error h rfl

theorem parseCommands_error {p : ParseState} {s : Str} {e : Error}
    (h : parseCommands T p s = .error e) : e ≠ .missingFrom := by
  induction s generalizing p with
  | nil =>
    have h : p.flush = .error e := h
    rintro rfl
    unfold ParseState.flush at h
    split at h
    · cases h
    · cases h
    · split at h <;> cases h
    · cases h
  | cons r s ih =>
    cases hstep : p.step T r with
    | error e' =>
      rw [parseCommands, ParseState.run, hstep] at h
      obtain rfl := Except.error.inj h
      exact step_error hstep
    | ok q =>
      rw [ParseState.parseCommands_cons hstep] at h
      exact ih h

/-- What is read, or only misses `FROM`, is a text of instructions. -/
theorem contents_of_read {D : Decoder} {text : List UInt8} {x : Except Error Modelfile}
    (h : parseFile D T text = x) (hx : ∀ e, x = .error e → e = .missingFrom) :
    ∃ is, Contents T (D.runes text) is := by
  cases hs : parseCommands T {} (D.runes text) with
  | error e =>
    rw [parseFile, parseRunes, hs] at h
    exact absurd (hx e h.symm) (parseCommands_error hs)
  | ok cs =>
    obtain ⟨is, his, -⟩ := exists_contents hs
    exact ⟨is, his⟩

theorem name_of_from {i : Instruction T} (h : i.kind = .model) : i.name = "model".toList := by
  have hword : i.word ≠ "parameter".toList := by
    intro hword
    rw [Instruction.kind_parameter hword] at h
    cases h
  exact kindOf_eq_model.mp ((Instruction.kind_command hword).trans h)

/-- A text keeps its classes iff each of its parameters is named as no instruction is and has one blank
before its name, or no line of it is `FROM` or `PARAMETER model`. -/
theorem parseFile_keepsClasses (D : Decoder) (T : PrintTable) (text : List UInt8) :
    KeepsClasses D T text ↔ ∀ is, Contents T (D.runes text) is →
      (∀ i ∈ is, i.Clear) ∨ ∀ i ∈ is, i.name ≠ "model".toList := by
  constructor
  · intro keeps is his
    have hparse := parseRunes_eq his
    rw [← parseFile] at hparse
    split_ifs at hparse with hmodel
    · refine .inl fun i hi hword => ?_
      have hclasses := (keeps.commands _ hparse).2 is his
      rw [List.forall₂_map_right_iff, List.forall₂_same] at hclasses
      obtain ⟨hkind, hasks⟩ := hclasses i hi
      refine ⟨?_, fun k v asks hnil => asks.named ?_⟩
      · exact hkind.trans (Instruction.kind_parameter hword)
      · exact (congrArg Command.name (hasks k v asks)).symm.trans hnil
    · exact .inr fun i hi hname => hmodel ⟨i, hi, hname⟩
  · intro hclear
    have hmissing {is : List (Instruction T)} (his : Contents T (D.runes text) is)
        (hfrom : ∀ i ∈ is, i.kind ≠ .model) : parseFile D T text = .error .missingFrom := by
      have hno : ¬∃ i ∈ is, i.name = "model".toList := by
        rintro ⟨i, hi, hname⟩
        rcases hclear is his with hall | hall
        · by_cases hword : i.word = "parameter".toList
          · have hkind := (hall i hi hword).1
            rw [kindOf_eq_model.mpr hname] at hkind
            cases hkind
          · exact hfrom i hi ((Instruction.kind_command hword).symm.trans (kindOf_eq_model.mpr hname))
        · exact hall i hi hname
      rw [parseFile, parseRunes_eq his, if_neg hno]
    refine ⟨?_, ?_, ?_⟩
    · intro f hf
      obtain ⟨is, his⟩ := contents_of_read hf (by simp)
      refine ⟨⟨is, his⟩, fun is his => ?_⟩
      rw [parseFile, parseRunes_eq his] at hf
      split_ifs at hf with hmodel
      obtain rfl := Except.ok.inj hf
      obtain ⟨j, hj, hname⟩ := hmodel
      have hall := (hclear is his).resolve_right fun hnone => hnone j hj hname
      rw [List.forall₂_map_right_iff, List.forall₂_same]
      intro i hi
      refine ⟨?_, fun k v asks => asks.command ((hall i hi asks.word).2 k v asks)⟩
      by_cases hword : i.word = "parameter".toList
      · exact (hall i hi hword).1.trans (Instruction.kind_parameter hword).symm
      · exact Instruction.kind_command hword
    · intro hf
      obtain ⟨is, his⟩ := contents_of_read hf (by simp)
      refine ⟨is, his, fun i hi hkind => ?_⟩
      rw [parseFile, parseRunes_eq his, if_pos ⟨i, hi, name_of_from hkind⟩] at hf
      cases hf
    · rintro ⟨is, his, hfrom⟩
      exact hmissing his hfrom

end

/-- What holds of all runes of a text is decided along the text, not over all runes there are. -/
instance (priority := 2000) {p : Char → Prop} [DecidablePred p] (s : Str) :
    Decidable (∀ a ∈ s, p a) := List.decidableBAll p s

/-- A parameter that is named `model` is read as `FROM`. -/
theorem parameterModel_misread :
    parseFile plainDecoder asciiTable (utf8 "PARAMETER model x".toList) =
        .ok ⟨[⟨"model".toList, "x".toList⟩]⟩ ∧
      ¬KeepsClasses plainDecoder asciiTable (utf8 "PARAMETER model x".toList) := by
  have hread : parseFile plainDecoder asciiTable (utf8 "PARAMETER model x".toList) =
      .ok ⟨[⟨"model".toList, "x".toList⟩]⟩ := by
    rw [parseFile, plainDecoder.runes_utf8 _ (by decide)]
    decide +kernel
  refine ⟨hread, fun keeps => ?_⟩
  have hrunes : plainDecoder.runes (utf8 "PARAMETER model x".toList) =
      "PARAMETER model x".toList := plainDecoder.runes_utf8 _ (by decide)
  let i : Instruction asciiTable := {
    heading := "PARAMETER".toList
    word := "parameter".toList
    blank := ' '
    front := "model".toList ++ [' ']
    name := "model".toList
    role := []
    value := "x".toList
    arg := "x".toList
    isHeading := ⟨opening_of_alpha (by decide) (by decide), by decide, by decide⟩
    isBlank := by decide
    isLead := .parameter (by decide) (by decide)
    isValue := ⟨unclosed_line (by decide), by decide⟩ }
  have his : Contents asciiTable (plainDecoder.runes (utf8 "PARAMETER model x".toList)) [i] := by
    rw [hrunes]
    exact .instruction i .nil
  have hclasses := (keeps.commands _ hread).2 _ his
  cases hclasses with
  | cons h _ => exact absurd h.1 (by decide)

example : parseRunes asciiTable "FROM a\nPARAMETER  top_k 1".toList =
    .ok ⟨[⟨"model".toList, "a".toList⟩, ⟨[], "top_k 1".toList⟩]⟩ := by decide +kernel

end Ecco9.Parser
