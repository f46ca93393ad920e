import Ecco9.Parser.Runs

/-! When a Modelfile is read again as it was written. -/

namespace Ecco9.Parser

open Ecco9.Library

/-- What `String` writes so that it is read again. -/
def Printable (c : Command) : Prop :=
  if c.name = "model".toList then Bare c.args
  else if c.name = "message".toList then
    ∃ role s, isValidMessageRole role ∧ c.args = role ++ ": ".toList ++ s ∧
      (NeedsQuote s ∨ Bare s)
  else NeedsQuote c.args ∨ Bare c.args

/-- Between two commands. -/
structure Ready (p : ParseState) : Prop where
  curr : p.curr = .nil
  role : p.role = []

/-! ### Quoted values -/

section
variable {T : PrintTable}

theorem quote_eq (s : Str) : quote s =
    if NeedsQuote s then
      if '"' ∈ s then tripleQuote ++ s ++ tripleQuote else ['"'] ++ s ++ ['"']
    else s := rfl

theorem quote_read {s : Str} (hseal : Sealed s) (h : NeedsQuote s ∨ Bare s) :
    Unclosed (quote s) ∧ unquote (trimSpace (quote s)) = some s := by
  by_cases hneeds : NeedsQuote s
  · rw [quote_eq, if_pos hneeds]
    split_ifs with hquote
    · rw [trimSpace_quoted (by simp [tripleQuote]) (by simp [tripleQuote])]
      exact ⟨unclosed_triple hseal, unquote_triple s⟩
    · rw [trimSpace_quoted (by simp) (by simp)]
      refine ⟨unclosed_single hquote, unquote_single ?_⟩
      -- the value is not empty, and begins with no quote
      rintro ⟨t, ht⟩
      cases s with
      | nil => simp [NeedsQuote] at hneeds
      | cons a s =>
        simp only [tripleQuote, List.cons_append, List.nil_append, List.cons.injEq] at ht
        exact hquote (by simp [← ht.2.1])
  · have hbare := h.resolve_left hneeds
    rw [quote_eq, if_neg hneeds]
    exact ⟨hbare.unclosed, hbare.unquote⟩

theorem writable_quote {s : Str} (h : ∀ r ∈ s, Writable T r) : ∀ r ∈ quote s, Writable T r := by
  have hquote : Writable T '"' := .inl isPrint_quote
  unfold quote
  split_ifs
  · intro r hr
    simp only [tripleQuote, List.mem_append, List.mem_cons, List.not_mem_nil, or_false] at hr
    rcases hr with (hr | hr) | hr
    · rcases hr with rfl | rfl | rfl <;> exact hquote
    · exact h r hr
    · rcases hr with rfl | rfl | rfl <;> exact hquote
  · intro r hr
    simp only [List.mem_append, List.mem_cons, List.not_mem_nil, or_false] at hr
    rcases hr with (rfl | hr) | rfl
    · exact hquote
    · exact h r hr
    · exact hquote
  · exact h

/-! ### Printed commands -/

def listedNames : List Str :=
  ["license".toList, "template".toList, "system".toList, "adapter".toList]

theorem listed_upper : ∀ name ∈ listedNames, (∀ r ∈ name.map Char.toUpper, isAlpha r = true) ∧
    isValidCommand (name.map Char.toUpper) ∧ toLower (name.map Char.toUpper) = name ∧
    name ≠ "from".toList ∧ name ≠ "parameter".toList ∧ name ≠ "message".toList := by
  have halpha : listedNames.all fun name => (name.map Char.toUpper).all isAlpha := by decide
  have hnames : ∀ name ∈ listedNames, isValidCommand (name.map Char.toUpper) ∧
      toLower (name.map Char.toUpper) = name ∧ name ≠ "from".toList ∧
      name ≠ "parameter".toList ∧ name ≠ "message".toList := by decide
  exact fun name h => ⟨List.all_eq_true.mp (List.all_eq_true.mp halpha name h), hnames name h⟩

theorem string_model {c : Command} (h : c.name = "model".toList) :
    c.string = "FROM ".toList ++ c.args := if_pos h

theorem string_listed {c : Command} (h : c.name ∈ listedNames) :
    c.string = c.name.map Char.toUpper ++ " ".toList ++ quote c.args := by
  have hmodel : c.name ≠ "model".toList := by
    intro heq
    rw [heq] at h
    revert h
    decide
  rw [Command.string, if_neg hmodel]
  exact if_pos h

theorem string_message {c : Command} (h : c.name = "message".toList) :
    c.string = "MESSAGE ".toList ++ ((cut ": ".toList c.args).getD (c.args, [])).1 ++ " ".toList ++
      quote ((cut ": ".toList c.args).getD (c.args, [])).2 := by
  rw [Command.string, if_neg (by rw [h]; decide), if_neg (by rw [h]; decide), if_pos h]

theorem string_parameter {c : Command} (h : c.name ≠ "model".toList) (h' : c.name ∉ listedNames)
    (h'' : c.name ≠ "message".toList) :
    c.string = "PARAMETER ".toList ++ c.name ++ " ".toList ++ quote c.args := by
  rw [Command.string, if_neg h]
  refine (if_neg h').trans ?_
  rw [if_neg h'']

/-- How a command that is no message is printed and read up to its value. -/
theorem string_lead {c : Command} (hname : ∀ r ∈ c.name, IsWordRune r)
    (hmessage : c.name ≠ "message".toList) :
    ∃ lead, c.string = lead ++ (if c.name = "model".toList then c.args else quote c.args) ∧
      (∀ r ∈ lead, Writable T r) ∧ ∀ p, Ready p → p.run T lead =
        .ok { p with cmd := { p.cmd with name := c.name }, curr := .value, b := [] } := by
  have hword : ∀ r ∈ "FROM ".toList ++ "PARAMETER ".toList, Writable T r :=
    fun r hr => .inl (T.of_all (by decide) r hr)
  have hspace : Writable T ' ' := .inr (.inl (by decide))
  by_cases hmodel : c.name = "model".toList
  · refine ⟨"FROM ".toList, by rw [string_model hmodel, if_pos hmodel],
      fun r hr => hword r (List.mem_append_left _ hr), ?_⟩
    intro p ready
    have hrun := ParseState.run_command (T := T) (w := "FROM".toList) ready.curr
      (List.all_eq_true.mp (by decide)) (by decide)
    rw [if_pos (by decide)] at hrun
    rw [hmodel]
    exact hrun
  · rw [if_neg hmodel]
    by_cases hlisted : c.name ∈ listedNames
    · obtain ⟨halpha, hvalid, hlower, hne, hne', hne''⟩ := listed_upper c.name hlisted
      refine ⟨c.name.map Char.toUpper ++ " ".toList, string_listed hlisted, ?_, ?_⟩
      · intro r hr
        rcases List.mem_append.mp hr with hr | hr
        · exact .inl (IsWordRune.isPrint (.inl (halpha r hr)))
        · rwa [List.mem_singleton.mp hr]
      · intro p ready
        have hrun := ParseState.run_command (T := T) (p := p) ready.curr halpha hvalid
        rw [hlower, if_neg hne, if_neg hne', if_neg hne''] at hrun
        exact hrun
    · refine ⟨"PARAMETER ".toList ++ c.name ++ " ".toList,
        string_parameter hmodel hlisted hmessage, ?_, ?_⟩
      · intro r hr
        simp only [List.mem_append] at hr
        rcases hr with (hr | hr) | hr
        · exact hword r (List.mem_append_right _ hr)
        · exact .inl (hname r hr).isPrint
        · rwa [List.mem_singleton.mp hr]
      · intro p ready
        have hrun := ParseState.run_command (T := T) (w := "PARAMETER".toList) ready.curr
          (List.all_eq_true.mp (by decide)) (by decide)
        rw [if_neg (by decide), if_pos (by decide)] at hrun
        have hparameter := ParseState.run_parameter (T := T)
          (p := { p with curr := .parameter, b := [] }) rfl hname
        have hend := ParseState.step_parameter_space (T := T)
          (p := { p with curr := .parameter, b := c.name }) (r := ' ') rfl (by decide)
        rw [List.append_assoc, ParseState.run_append]
        refine (congrArg (Except.bind · _) hrun).trans ?_
        refine (ParseState.run_append ..).trans ?_
        refine (congrArg (Except.bind · _) hparameter).trans ?_
        exact ParseState.run_cons hend []

/-- The name of a message and its role. -/
theorem run_message {p : ParseState} (ready : Ready p) :
    p.run T "MESSAGE ".toList =
      .ok { p with cmd := { p.cmd with name := "message".toList }, curr := .message, b := [] } := by
  have hrun := ParseState.run_command (T := T) (w := "MESSAGE".toList) ready.curr
    (List.all_eq_true.mp (by decide)) (by decide)
  rw [if_neg (by decide), if_neg (by decide), if_pos (by decide)] at hrun
  exact hrun

theorem run_role {p : ParseState} (hcurr : p.curr = .message) (hb : p.b = []) {role : Str}
    (h : isValidMessageRole role) :
    p.run T (role ++ " ".toList) = .ok { p with role, curr := .value, b := [] } := by
  have hword := ParseState.run_word (T := T) (.inr hcurr) (alpha_of_role h)
  rw [hb, List.nil_append] at hword
  have hend := ParseState.step_message_space (T := T) (p := { p with b := role }) (r := ' ') hcurr
    (by decide) h
  rw [ParseState.run_append, hword]
  exact ParseState.run_cons hend []

theorem cut_role {role : Str} (h : isValidMessageRole role) (s : Str) :
    cut ": ".toList (role ++ ": ".toList ++ s) = some (role, s) := by
  have hborder : ∀ k < ": ".toList.length, 0 < k → ¬": ".toList.drop k <+: ": ".toList := by decide
  refine cut_borderless hborder ?_ s
  revert role
  unfold isValidMessageRole
  decide

/-- A command that `String` writes properly is read again, up to the end of its line. -/
theorem read_command {c : Command} {p : ParseState} (made : Made T c) (h : Printable c)
    (ready : Ready p) : ∃ n, p.run T (c.string ++ ['\n']) =
      .ok { cmd := c, curr := .nil, currLine := n, b := [], role := [],
            commands := p.commands ++ [c] } := by
  by_cases hmessage : c.name = "message".toList
  · have hmodel : c.name ≠ "model".toList := by
      rw [hmessage]
      decide
    rw [Printable, if_neg hmodel, if_pos hmessage] at h
    obtain ⟨role, s, hrole, hargs, hquote⟩ := h
    have hseal : Sealed s := by
      rcases made.value with hseal | ⟨role', s', -, hrole', hargs', hseal⟩
      · rw [hargs] at hseal
        exact hseal.right
      · have hcut := cut_role hrole s
        rw [← hargs, hargs', cut_role hrole'] at hcut
        cases hcut
        exact hseal
    obtain ⟨hopen, hread⟩ := quote_read hseal hquote
    have hw : ∀ r ∈ quote s, Writable T r :=
      writable_quote fun r hr => made.args r (by rw [hargs]; simp [hr])
    have hlead := run_role (T := T)
      (p := { p with cmd := { p.cmd with name := "message".toList }, curr := .message, b := [] })
      rfl rfl hrole
    obtain ⟨n, hvalue⟩ := ParseState.run_quoted_closed (p := { p with
      cmd := { p.cmd with name := "message".toList }, curr := .value, b := [], role })
      rfl rfl hw hopen hread
    refine ⟨n, ?_⟩
    rw [string_message hmessage, hargs, cut_role hrole, Option.getD_some]
    dsimp only
    rw [List.append_assoc _ (quote s), List.append_assoc, List.append_assoc, ← List.append_assoc role,
      ParseState.run_append, run_message ready]
    refine (ParseState.run_append ..).trans ?_
    rw [hlead]
    refine hvalue.trans ?_
    obtain ⟨name, args⟩ := c
    obtain rfl := hmessage
    obtain rfl := hargs
    have hne : role ≠ [] := by
      rintro rfl
      revert hrole
      decide
    simp only [ParseState.close, ParseState.withRole, ne_eq, hne, not_false_eq_true, if_true]
  · obtain ⟨lead, hstring, -, hrun⟩ := string_lead (T := T) made.name hmessage
    have hseal : Sealed c.args := by
      rcases made.value with hseal | ⟨-, -, hname, -⟩
      · exact hseal
      · exact absurd hname hmessage
    have hvalue : Unclosed (if c.name = "model".toList then c.args else quote c.args) ∧
        unquote (trimSpace (if c.name = "model".toList then c.args else quote c.args)) =
          some c.args := by
      rw [Printable, if_neg hmessage] at h
      split_ifs at h ⊢
      · exact ⟨h.unclosed, h.unquote⟩
      · exact quote_read hseal h
    have hw : ∀ r ∈ if c.name = "model".toList then c.args else quote c.args, Writable T r := by
      split_ifs
      · exact made.args
      · exact writable_quote made.args
    obtain ⟨n, hclosed⟩ := ParseState.run_quoted_closed
      (p := { p with cmd := { p.cmd with name := c.name }, curr := .value, b := [] }) rfl rfl hw
      hvalue.1 hvalue.2
    refine ⟨n, ?_⟩
    rw [hstring, List.append_assoc, ParseState.run_append, hrun p ready]
    refine hclosed.trans ?_
    simp [ParseState.close, ParseState.withRole, ready.role]

theorem writable_string {c : Command} (made : Made T c) : ∀ r ∈ c.string, Writable T r := by
  by_cases hmessage : c.name = "message".toList
  · have hparts : ∀ r, r ∈ ((cut ": ".toList c.args).getD (c.args, [])).1 ∨
        r ∈ ((cut ": ".toList c.args).getD (c.args, [])).2 → r ∈ c.args := by
      intro r hr
      cases hcut : cut ": ".toList c.args with
      | none =>
        rw [hcut] at hr
        simpa using hr
      | some parts =>
        rw [hcut] at hr
        rw [cut_eq hcut]
        simp only [Option.getD_some] at hr
        simp only [List.mem_append]
        tauto
    have hword : ∀ r ∈ "MESSAGE ".toList ++ " ".toList, Writable T r :=
      fun r hr => .inl (T.of_all (by decide) r hr)
    rw [string_message hmessage]
    intro r hr
    simp only [List.mem_append] at hr
    rcases hr with ((hr | hr) | hr) | hr
    · exact hword r (List.mem_append_left _ hr)
    · exact made.args r (hparts r (.inl hr))
    · exact hword r (List.mem_append_right _ hr)
    · exact writable_quote (fun r hr => made.args r (hparts r (.inr hr))) r hr
  · obtain ⟨lead, hstring, hlead, -⟩ := string_lead (T := T) made.name hmessage
    rw [hstring]
    intro r hr
    rcases List.mem_append.mp hr with hr | hr
    · exact hlead r hr
    · split_ifs at hr
      · exact made.args r hr
      · exact writable_quote made.args r hr

theorem command_unique {cs ds : List Command} {c d : Command} (h : cs ++ [c] <+: ds)
    (h' : cs ++ [d] <+: ds) : c = d := by
  have hle : cs ++ [c] <+: cs ++ [d] := List.prefix_of_prefix_length_le h h' (by simp)
  have heq := hle.eq_of_length (by simp)
  simpa using heq

/-- A command that is read again is one that `String` writes properly. -/
theorem printable_of_read {c : Command} {p : ParseState} {rest : Str} {cs : List Command}
    (made : Made T c) (ready : Ready p) (hrest : ∀ r ∈ rest, Writable T r)
    (h : parseCommands T p (c.string ++ '\n' :: rest) = .ok cs) (hcs : p.commands ++ [c] <+: cs) :
    Printable c := by
  have hline : Writable T '\n' := .inr (.inr (by decide))
  have hback {s : Str} (hs : ∀ r ∈ s, Writable T r) : ∀ r ∈ s ++ '\n' :: rest, Writable T r := by
    intro r hr
    simp only [List.mem_append, List.mem_cons] at hr
    rcases hr with hr | rfl | hr
    · exact hs r hr
    · exact hline
    · exact hrest r hr
  by_cases hmessage : c.name = "message".toList
  · have hstring := string_message hmessage
    have hwrite := hback (writable_string made)
    generalize hcut : (cut ": ".toList c.args).getD (c.args, []) = parts at hstring
    rw [hstring] at h hwrite
    rw [List.append_assoc, List.append_assoc, List.append_assoc,
      ParseState.parseCommands_append (run_message ready)] at h
    obtain ⟨role, r, u, n, hu, hr, hrole, hparse⟩ := ParseState.message_cases rfl h
    rw [List.nil_append] at hrole
    have hw : ∀ a ∈ u, Writable T a := by
      intro a ha
      apply hwrite
      rw [List.append_assoc, List.append_assoc, List.append_assoc, hu]
      simp [ha]
    obtain ⟨t, s, ht, hopen, hs, hvalue⟩ :=
      ParseState.value_cases rfl hw unclosed_nil hparse
    have hc := command_unique hcs hvalue
    have hne : role ≠ [] := by
      rintro rfl
      revert hrole
      decide
    have hargs : c.args = role ++ ": ".toList ++ s := by
      rw [hc]
      exact if_pos hne
    -- the role and the value are those that were written
    rw [hargs, cut_role hrole, Option.getD_some] at hcut
    obtain rfl := hcut
    have hu : ' ' :: (quote s ++ '\n' :: rest) = r :: u := by
      exact List.append_cancel_left hu
    obtain ⟨rfl, rfl⟩ := List.cons.inj hu
    rw [Printable, if_neg (by rw [hmessage]; decide), if_pos hmessage]
    refine ⟨role, s, hrole, hargs, ?_⟩
    by_cases hneeds : NeedsQuote s
    · exact .inl hneeds
    · rw [quote_eq, if_neg hneeds] at ht
      exact .inr (bare_of_unquote (by decide) ht hopen hs)
  · obtain ⟨lead, hstring, -, hrun⟩ := string_lead (T := T) made.name hmessage
    rw [hstring, List.append_assoc, ParseState.parseCommands_append (hrun p ready)] at h
    have hw : ∀ r ∈ if c.name = "model".toList then c.args else quote c.args, Writable T r := by
      split_ifs
      · exact made.args
      · exact writable_quote made.args
    obtain ⟨t, s, ht, hopen, hs, hvalue⟩ :=
      ParseState.value_cases rfl (hback hw) unclosed_nil h
    have hc := congrArg Command.args (command_unique hcs hvalue)
    simp only [ParseState.withRole, ready.role, ne_eq, not_true_eq_false, if_false] at hc
    rw [← hc] at hs
    rw [Printable, if_neg hmessage]
    have hbare (hsame : (if c.name = "model".toList then c.args else quote c.args) = c.args) :
        Bare c.args := by
      rw [hsame] at ht
      exact bare_of_unquote (by decide) ht hopen hs
    split_ifs with hmodel
    · exact hbare (if_pos hmodel)
    · by_cases hneeds : NeedsQuote c.args
      · exact .inl hneeds
      · exact .inr (hbare (by rw [if_neg hmodel, quote_eq, if_neg hneeds]))

/-! ### Whole files -/

theorem parseCommands_print {p : ParseState} (ready : Ready p) {cs : List Command}
    (made : ∀ c ∈ cs, Made T c) :
    parseCommands T p (cs.flatMap fun c => c.string ++ ['\n']) = .ok (p.commands ++ cs) ↔
      ∀ c ∈ cs, Printable c := by
  induction cs generalizing p with
  | nil =>
    have hflush : p.flush = .ok p.commands := by rw [ParseState.flush, ready.curr]
    rw [List.append_nil]
    exact iff_of_true hflush (by simp)
  | cons c cs ih =>
    have hc := made c (by simp)
    have hcs : ∀ d ∈ cs, Made T d := fun d hd => made d (by simp [hd])
    have hwrite : ∀ r ∈ cs.flatMap fun c => c.string ++ ['\n'], Writable T r := by
      intro r hr
      obtain ⟨d, hd, hr⟩ := List.mem_flatMap.mp hr
      rcases List.mem_append.mp hr with hr | hr
      · exact writable_string (hcs d hd) r hr
      · rw [List.mem_singleton.mp hr]
        exact .inr (.inr (by decide))
    have hnext (hprint : Printable c) :
        parseCommands T p ((c :: cs).flatMap fun c => c.string ++ ['\n']) =
            .ok (p.commands ++ c :: cs) ↔ ∀ d ∈ cs, Printable d := by
      obtain ⟨n, hrun⟩ := read_command hc hprint ready
      have hrest := @ih { cmd := c, currLine := n, commands := p.commands ++ [c] } ⟨rfl, rfl⟩ hcs
      rw [List.append_assoc] at hrest
      rw [List.flatMap_cons, ParseState.parseCommands_append hrun]
      exact hrest
    rw [List.forall_mem_cons]
    constructor
    · intro h
      have hprint : Printable c := by
        have hread := h
        rw [List.flatMap_cons, List.append_assoc] at hread
        exact printable_of_read hc ready hwrite hread ⟨cs, by simp⟩
      exact ⟨hprint, (hnext hprint).mp h⟩
    · rintro ⟨hprint, hrest⟩
      exact (hnext hprint).mpr hrest

theorem parseRunes_string {s : Str} {f : Modelfile} (h : parseRunes T s = .ok f) :
    parseRunes T f.string = .ok f ↔ ∀ c ∈ f.commands, Printable c := by
  obtain ⟨commands⟩ := f
  cases hs : parseCommands T {} s with
  | error e =>
    rw [parseRunes, hs] at h
    cases h
  | ok cs =>
    rw [parseRunes, hs] at h
    simp only [Except.bind] at h
    split_ifs at h with hmodel
    cases h
    rw [← parseCommands_print (p := {}) ⟨rfl, rfl⟩ (tidy_start.parseCommands hs), parseRunes]
    change (parseCommands T {} (commands.flatMap fun cmd => cmd.string ++ ['\n'])).bind _ = _ ↔ _
    cases hcs : parseCommands T {} (commands.flatMap fun cmd => cmd.string ++ ['\n']) with
    | error e => simp [Except.bind]
    | ok ds =>
      simp only [Except.bind, List.nil_append, Except.ok.injEq]
      split_ifs with hds
      · simp
      · constructor
        · nofun
        · rintro rfl
          exact absurd hmodel hds

theorem string_head (c : Command) : ∃ a s, c.string = a :: s ∧ isAlpha a = true := by
  by_cases hmodel : c.name = "model".toList
  · exact ⟨'F', _, string_model hmodel, by decide⟩
  · by_cases hlisted : c.name ∈ listedNames
    · obtain ⟨halpha, hvalid, -⟩ := listed_upper c.name hlisted
      obtain ⟨a, w, hw⟩ := List.exists_cons_of_ne_nil (l := c.name.map Char.toUpper) (by
        intro hnil
        rw [hnil] at hvalid
        revert hvalid
        decide)
      refine ⟨a, w ++ " ".toList ++ quote c.args, ?_, halpha a (by simp [hw])⟩
      rw [string_listed hlisted, hw]
      rfl
    · by_cases hmessage : c.name = "message".toList
      · exact ⟨'M', _, string_message hmessage, by decide⟩
      · exact ⟨'P', _, string_parameter hmodel hlisted hmessage, by decide⟩

/-- What is printed begins with no byte order mark. -/
theorem head?_string (f : Modelfile) : f.string.head? ≠ some '\uFEFF' := by
  unfold Modelfile.string
  cases f.commands with
  | nil => simp
  | cons c cs =>
    obtain ⟨a, s, hs, ha⟩ := string_head c
    rw [List.flatMap_cons, hs, List.cons_append, List.cons_append, List.head?_cons]
    intro heq
    rw [Option.some.inj heq] at ha
    revert ha
    decide

/-- A Modelfile is parsed to the commands it was printed from iff none of them has a value that is
printed in such a way that it ends too soon, too late or without a part of it. -/
theorem parseFile_text {D : Decoder} {text : List UInt8} {f : Modelfile}
    (h : parseFile D T text = .ok f) :
    parseFile D T f.text = .ok f ↔ ∀ c ∈ f.commands, Printable c := by
  rw [parseFile, Modelfile.text, D.runes_utf8 _ (head?_string f)]
  exact parseRunes_string h

end

/-- The decoder of text that is UTF-8. -/
def plainDecoder : Decoder where
  runes t := ((String.fromUTF8? ⟨t.toArray⟩).getD "").toList
  runes_utf8 s _ := by
    have hbytes : (⟨(utf8 s).toArray⟩ : ByteArray) = s.utf8Encode := by
      rw [utf8, Array.toArray_toList]
      rfl
    have hdecode : String.fromUTF8? s.utf8Encode = some (String.ofList s) :=
      dif_pos ByteArray.isValidUTF8_utf8Encode
    rw [hbytes, hdecode, Option.getD_some, String.toList_ofList]

def asciiTable : PrintTable where
  isPrint r := decide (0x20 ≤ r.toNat ∧ r.toNat ≤ 0x7E)
  ascii _ _ := decide_eq_true_iff

def twoLines : Modelfile :=
  ⟨[⟨"model".toList, "a".toList⟩, ⟨"system".toList, "one\ntwo".toList⟩]⟩

theorem twoLines_read :
    parseFile plainDecoder asciiTable twoLines.text = .ok twoLines ↔
      ∀ c ∈ twoLines.commands, Printable c :=
  parseFile_text (show parseFile plainDecoder asciiTable
    (utf8 "FROM a\nSYSTEM \"one\ntwo\"".toList) = .ok twoLines by
      rw [parseFile, plainDecoder.runes_utf8 _ (by decide)]
      decide +kernel)

def quotedHello : Modelfile :=
  ⟨[⟨"model".toList, "a".toList⟩, ⟨"system".toList, "\"hello\" he said".toList⟩]⟩

/-- A value that begins with a quote is printed without any others. -/
theorem quotedHello_not_read :
    parseFile plainDecoder asciiTable
        (utf8 "FROM a\nSYSTEM \"\"\"\"hello\" he said\"\"\"".toList) = .ok quotedHello ∧
      parseFile plainDecoder asciiTable quotedHello.text = .error (.unexpectedEOF none) := by
  rw [parseFile, parseFile, Modelfile.text, plainDecoder.runes_utf8 _ (by decide),
    plainDecoder.runes_utf8 _ (head?_string _)]
  decide +kernel

end Ecco9.Parser
