import Ecco9.Parser.Values

/-! What one rune does to the state of the parser, and what a word or a value does; what a parsed Modelfile
is made of. -/

namespace Ecco9.Parser

section

open Ecco9.Library

/-! ### Runes -/

section
variable {T : PrintTable} {r : Char}

theorem PrintTable.of_ascii (h : 0x20 ≤ r.toNat) (h' : r.toNat ≤ 0x7E) : T.isPrint r = true :=
  (T.ascii r (by omega)).mpr ⟨h, h'⟩

theorem PrintTable.of_all {s : Str} (h : s.all fun r => 0x20 ≤ r.toNat ∧ r.toNat ≤ 0x7E) (r : Char)
    (hr : r ∈ s) : T.isPrint r = true := by
  have := of_decide_eq_true (List.all_eq_true.mp h r hr)
  exact T.of_ascii this.1 this.2

theorem PrintTable.not_of_control (h : r.toNat < 0x20) : T.isPrint r = false := by
  by_contra hp
  have := (T.ascii r (by omega)).mp (by simpa using hp)
  omega

@[simp] theorem isPrint_noRune : T.isPrint noRune = false := T.not_of_control (by decide)

@[simp] theorem isPrint_quote : T.isPrint '"' = true := T.of_ascii (by decide) (by decide)

theorem isPrint_newline (h : isNewline r = true) : T.isPrint r = false := by
  rw [isNewline, decide_eq_true_iff] at h
  rcases h with rfl | rfl <;> exact T.not_of_control (by decide)

theorem isAlpha_iff : isAlpha r = true ↔
    'a'.toNat ≤ r.toNat ∧ r.toNat ≤ 'z'.toNat ∨ 'A'.toNat ≤ r.toNat ∧ r.toNat ≤ 'Z'.toNat :=
  decide_eq_true_iff

theorem isNumber_iff : isNumber r = true ↔ '0'.toNat ≤ r.toNat ∧ r.toNat ≤ '9'.toNat :=
  decide_eq_true_iff

/-- What a name is made of. -/
def IsWordRune (r : Char) : Prop := isAlpha r = true ∨ isNumber r = true ∨ r = '_'

instance (r : Char) : Decidable (IsWordRune r) := inferInstanceAs (Decidable (_ ∨ _))

theorem IsWordRune.range (h : IsWordRune r) : 0x30 ≤ r.toNat ∧ r.toNat ≤ 0x7A := by
  rcases h with h | h | rfl
  · have := isAlpha_iff.mp h
    simp only [Char.reduceToNat] at this
    omega
  · have := isNumber_iff.mp h
    simp only [Char.reduceToNat] at this
    omega
  · decide

theorem IsWordRune.isPrint (h : IsWordRune r) : T.isPrint r = true := by
  have := h.range
  exact T.of_ascii (by omega) (by omega)

theorem IsWordRune.isSpace (h : IsWordRune r) : isSpace r = false := by
  have := h.range
  rw [Parser.isSpace, decide_eq_false_iff_not]
  rintro (rfl | rfl) <;> simp at this

theorem IsWordRune.isNewline (h : IsWordRune r) : isNewline r = false := by
  have := h.range
  rw [Parser.isNewline, decide_eq_false_iff_not]
  rintro (rfl | rfl) <;> simp at this

theorem not_isAlpha_of_isSpace (h : isSpace r = true) : isAlpha r = false := by
  rw [isSpace, decide_eq_true_iff] at h
  rcases h with rfl | rfl <;> decide

theorem not_isNewline_of_isSpace (h : isSpace r = true) : isNewline r = false := by
  rw [isSpace, decide_eq_true_iff] at h
  rcases h with rfl | rfl <;> decide

/-- What values are made of. -/
def Writable (T : PrintTable) (r : Char) : Prop :=
  T.isPrint r = true ∨ isSpace r = true ∨ isNewline r = true

instance (T : PrintTable) (r : Char) : Decidable (Writable T r) :=
  inferInstanceAs (Decidable (_ ∨ _))

/-- What is kept of a value. -/
def kept (T : PrintTable) (t : Str) : Str := t.filter (Writable T ·)

theorem kept_of_writable {t : Str} (h : ∀ r ∈ t, Writable T r) : kept T t = t :=
  List.filter_eq_self.mpr fun r hr => decide_eq_true (h r hr)

@[simp] theorem kept_append (t u : Str) : kept T (t ++ u) = kept T t ++ kept T u :=
  List.filter_append ..

/-- The runes of the word of an instruction: the first may be any that begins no comment. -/
def Opening (x : Str) : Prop :=
  ∃ r w, x = r :: w ∧ r ≠ '#' ∧ isSpace r = false ∧ isNewline r = false ∧
    ∀ a ∈ w, isAlpha a = true

theorem opening_of_alpha {x : Str} (hne : x ≠ []) (h : ∀ a ∈ x, isAlpha a = true) : Opening x := by
  cases x with
  | nil => exact absurd rfl hne
  | cons r w =>
    have hr := h r (by simp)
    have hword : IsWordRune r := .inl hr
    refine ⟨r, w, rfl, ?_, hword.isSpace, hword.isNewline, fun a ha => h a (by simp [ha])⟩
    rintro rfl
    cases hr

theorem filter_alpha {w : Str} (h : ∀ a ∈ w, isAlpha a = true) : w.filter T.isPrint = w :=
  List.filter_eq_self.mpr fun a ha => IsWordRune.isPrint (.inl (h a ha))

end

namespace ParseState

section
variable {T : PrintTable} {p p' : ParseState} {r : Char}

@[simp] theorem write_curr : (write T p r).curr = p.curr := by unfold write; split <;> rfl

@[simp] theorem write_cmd : (write T p r).cmd = p.cmd := by unfold write; split <;> rfl

@[simp] theorem write_role : (write T p r).role = p.role := by unfold write; split <;> rfl

@[simp] theorem write_commands : (write T p r).commands = p.commands := by
  unfold write; split <;> rfl

theorem write_print (h : T.isPrint r = true) : write T p r = { p with b := p.b ++ [r] } := if_pos h

theorem write_not (h : T.isPrint r = false) : write T p r = p := if_neg (by simp [h])

theorem enter_eq (next : State) :
    enter T p next r = { p with b := [r].filter T.isPrint, curr := next } := by
  unfold enter write
  by_cases hr : T.isPrint r = true
  · simp [hr]
  · simp [hr]

theorem enter_not {next : State} (h : T.isPrint r = false) :
    enter T p next r = { p with b := [], curr := next } := write_not h

/-! ### One rune -/

/-- The state after a command has ended. -/
def close (p : ParseState) (s : Str) (line : Nat) : ParseState where
  cmd := { p.cmd with args := p.withRole s }
  curr := .nil
  currLine := line
  b := []
  role := []
  commands := p.commands ++ [{ p.cmd with args := p.withRole s }]

section
variable (hcurr : p.curr = .value)
include hcurr

theorem step_value (hr : Writable T r)
    (hopen : isNewline r = true → unquote (trimSpace p.b) = none) :
    ∃ n, p.step T r = .ok { p with b := p.b ++ [r], currLine := n } := by
  unfold step
  by_cases hn : isNewline r = true
  · refine ⟨p.currLine + 1, ?_⟩
    simp only [hn, if_true, hcurr, parseRuneForState, Bool.true_or, ne_eq, reduceCtorEq,
      not_false_eq_true, leave, hopen hn]
  · refine ⟨p.currLine, ?_⟩
    rw [Bool.not_eq_true] at hn
    by_cases hs : isSpace r = true
    · simp only [hn, Bool.false_eq_true, if_false, hcurr, parseRuneForState, hs, Bool.or_true,
        if_true, ne_eq, reduceCtorEq, not_false_eq_true, leave]
      split <;> rfl
    · have hp : T.isPrint r = true := by
        rcases hr with hp | hs' | hn'
        · exact hp
        · exact absurd hs' hs
        · rw [hn] at hn'
          cases hn'
      rw [Bool.not_eq_true] at hs
      simp only [hn, Bool.false_eq_true, if_false, hcurr, parseRuneForState, hs, Bool.or_false,
        ne_eq, not_true_eq_false, write_print hp]

theorem step_dropped (hr : ¬Writable T r) : p.step T r = .ok p := by
  simp only [Writable, not_or, Bool.not_eq_true] at hr
  unfold step
  simp only [hr.2.2, hr.2.1, Bool.false_eq_true, if_false, hcurr, parseRuneForState,
    Bool.or_false, ne_eq, not_true_eq_false, write_not hr.1]

theorem step_close (hr : isNewline r = true) {s : Str} (hs : unquote (trimSpace p.b) = some s) :
    p.step T r = .ok (p.close s (p.currLine + 1)) := by
  have hspace : isSpace r = false := by
    rw [isNewline, decide_eq_true_iff] at hr
    rcases hr with rfl | rfl <;> rfl
  unfold step
  simp only [hr, if_true, hcurr, parseRuneForState, Bool.true_or, ne_eq, reduceCtorEq,
    not_false_eq_true, leave, hs, hspace, Bool.false_eq_true, if_false,
    enter_not (isPrint_newline hr)]
  rfl

end

theorem step_word (hcurr : p.curr = .name ∨ p.curr = .message) (hr : isAlpha r = true) :
    p.step T r = .ok { p with b := p.b ++ [r] } := by
  have hword : IsWordRune r := .inl hr
  unfold step
  rcases hcurr with hcurr | hcurr <;>
    simp only [hword.isNewline, Bool.false_eq_true, if_false, hcurr, parseRuneForState, hr,
      if_true, ne_eq, not_true_eq_false, write_print hword.isPrint]

theorem step_first (hcurr : p.curr = .nil) (hhash : r ≠ '#') (hspace : isSpace r = false)
    (hline : isNewline r = false) : p.step T r = .ok (enter T p .name r) := by
  unfold step
  simp only [hline, hspace, Bool.false_eq_true, if_false, hcurr, parseRuneForState, hhash,
    Bool.or_false, ne_eq, reduceCtorEq, not_false_eq_true, if_true, leave]

theorem step_blank (hcurr : p.curr = .nil) (hr : isSpace r = true ∨ isNewline r = true) :
    ∃ n, p.step T r = .ok { p with currLine := n } := by
  have hhash : r ≠ '#' := by
    rintro rfl
    rcases hr with hr | hr <;> cases hr
  by_cases hn : isNewline r = true
  · refine ⟨p.currLine + 1, ?_⟩
    unfold step
    simp only [hn, hcurr, parseRuneForState, hhash, Bool.or_true, if_false, if_true, ne_eq,
      not_true_eq_false, write_not isPrint_noRune]
  · have hspace : isSpace r = true := hr.resolve_right hn
    have hstep : p.step T r = .ok p := by
      unfold step
      simp only [hn, hspace, Bool.true_or, Bool.false_eq_true, if_false, hcurr, parseRuneForState,
        hhash, if_true, ne_eq, not_true_eq_false, write_not isPrint_noRune]
    exact ⟨p.currLine, hstep⟩

theorem step_comment (hcurr : p.curr = .nil) :
    p.step T '#' = .ok { p with curr := .comment, b := [] } := by
  unfold step
  simp [hcurr, parseRuneForState, leave, enter_not, isNewline]

theorem step_commented (hcurr : p.curr = .comment) (hr : isNewline r = false) :
    p.step T r = .ok p := by
  unfold step
  simp [hcurr, parseRuneForState, write_not, hr]

theorem step_comment_end (hcurr : p.curr = .comment) (hr : isNewline r = true) :
    p.step T r = .ok { p with curr := .nil, currLine := p.currLine + 1, b := [] } := by
  unfold step
  simp [hcurr, parseRuneForState, leave, enter_not, hr]

theorem step_parameter (hcurr : p.curr = .parameter) (hr : IsWordRune r) :
    p.step T r = .ok { p with b := p.b ++ [r] } := by
  have hword : (isAlpha r || isNumber r || decide (r = '_')) = true := by
    rcases hr with hr | hr | hr <;> simp [hr]
  unfold step
  simp only [hr.isNewline, Bool.false_eq_true, if_false, hcurr, parseRuneForState, hword,
    if_true, ne_eq, not_true_eq_false, write_print hr.isPrint]

/-- The space behind the name of a parameter. -/
theorem step_parameter_space (hcurr : p.curr = .parameter) (hr : isSpace r = true) :
    p.step T r = .ok { p with cmd := { p.cmd with name := p.b }, curr := .value, b := [] } := by
  have hword : (isAlpha r || isNumber r || decide (r = '_')) = false := by
    rw [Bool.eq_false_iff]
    intro h
    have hword : IsWordRune r := by simpa [IsWordRune, or_assoc] using h
    rw [hword.isSpace] at hr
    cases hr
  unfold step
  simp only [not_isNewline_of_isSpace hr, Bool.false_eq_true, if_false, hcurr, parseRuneForState,
    hword, hr, if_true, ne_eq, reduceCtorEq, not_false_eq_true, leave, enter_not isPrint_noRune]

/-- The space behind a role. -/
theorem step_message_space (hcurr : p.curr = .message) (hr : isSpace r = true)
    (hrole : isValidMessageRole p.b) :
    p.step T r = .ok { p with role := p.b, curr := .value, b := [] } := by
  unfold step
  simp [hcurr, parseRuneForState, leave, enter_not, not_isNewline_of_isSpace hr,
    not_isAlpha_of_isSpace hr, hr, hrole]

theorem step_name_space (hcurr : p.curr = .name) (hr : isSpace r = true)
    (hvalid : isValidCommand p.b) :
    p.step T r = .ok
      (if toLower p.b = "from".toList then
        { p with cmd := { p.cmd with name := "model".toList }, curr := .value, b := [] }
      else if toLower p.b = "parameter".toList then { p with curr := .parameter, b := [] }
      else if toLower p.b = "message".toList then
        { p with cmd := { p.cmd with name := toLower p.b }, curr := .message, b := [] }
      else { p with cmd := { p.cmd with name := toLower p.b }, curr := .value, b := [] }) := by
  unfold step
  simp only [not_isNewline_of_isSpace hr, Bool.false_eq_true, if_false, hcurr, parseRuneForState,
    not_isAlpha_of_isSpace hr, hr, if_true, ne_eq, reduceCtorEq, not_false_eq_true, leave, hvalid, not_true_eq_false,
    enter_not isPrint_noRune]
  split_ifs <;> rfl

end

/-- The state after the name of a command. -/
def command (p : ParseState) : ParseState :=
  if toLower p.b = "from".toList then
    { p with cmd := { p.cmd with name := "model".toList }, curr := .value, b := [] }
  else if toLower p.b = "parameter".toList then { p with curr := .parameter, b := [] }
  else if toLower p.b = "message".toList then
    { p with cmd := { p.cmd with name := toLower p.b }, curr := .message, b := [] }
  else { p with cmd := { p.cmd with name := toLower p.b }, curr := .value, b := [] }

/-- What one rune can do, but for the line that is counted. -/
theorem step_cases {T : PrintTable} {p p' : ParseState} {r : Char} (h : p.step T r = .ok p') :
    ∃ n, p.curr = .nil ∧ ((isSpace r = true ∨ isNewline r = true) ∧ p' = { p with currLine := n } ∨
        r = '#' ∧ p' = { p with curr := .comment, currLine := n, b := [] } ∨
        (r ≠ '#' ∧ isSpace r = false ∧ isNewline r = false) ∧
          p' = enter T { p with currLine := n } .name r) ∨
      p.curr = .comment ∧ (isNewline r = false ∧ p' = { p with currLine := n } ∨
        isNewline r = true ∧ p' = { p with curr := .nil, currLine := n, b := [] }) ∨
      p.curr = .name ∧ (isAlpha r = true ∧ p' = { p with currLine := n, b := p.b ++ [r] } ∨
        (isSpace r = true ∧ isValidCommand p.b) ∧ p' = command { p with currLine := n }) ∨
      p.curr = .parameter ∧ (IsWordRune r ∧ p' = { p with currLine := n, b := p.b ++ [r] } ∨
        isSpace r = true ∧
          p' = { p with cmd := { p.cmd with name := p.b }, curr := .value, currLine := n, b := [] }) ∨
      p.curr = .message ∧ (isAlpha r = true ∧ p' = { p with currLine := n, b := p.b ++ [r] } ∨
        isSpace r = true ∧ isValidMessageRole p.b ∧
          p' = { p with curr := .value, currLine := n, b := [], role := p.b }) ∨
      p.curr = .value ∧ (¬Writable T r ∧ p' = { p with currLine := n } ∨
        (isNewline r = true → unquote (trimSpace p.b) = none) ∧ Writable T r ∧
          p' = { p with currLine := n, b := p.b ++ [r] } ∨
        isNewline r = true ∧ ∃ s, unquote (trimSpace p.b) = some s ∧ p' = p.close s n) := by
  refine ⟨if isNewline r = true then p.currLine + 1 else p.currLine, ?_⟩
  have hline : (if isNewline r = true then { p with currLine := p.currLine + 1 } else p) =
      { p with currLine := if isNewline r = true then p.currLine + 1 else p.currLine } := by
    split_ifs <;> rfl
  unfold step at h
  rw [hline] at h
  generalize (if isNewline r = true then p.currLine + 1 else p.currLine) = n at h ⊢
  dsimp only at h
  cases hcurr : p.curr with
  | nil =>
    refine .inl ⟨rfl, ?_⟩
    simp only [hcurr, parseRuneForState] at h
    by_cases hhash : r = '#'
    · simp only [hhash, if_true, ne_eq, reduceCtorEq, not_false_eq_true, leave,
        enter_not isPrint_noRune, Except.ok.injEq] at h
      exact .inr (.inl ⟨hhash, h.symm⟩)
    · by_cases hblank : (isSpace r || isNewline r) = true
      · simp only [hhash, hblank, if_false, if_true, ne_eq, not_true_eq_false,
          write_not isPrint_noRune, Except.ok.injEq] at h
        exact .inl ⟨by rwa [Bool.or_eq_true] at hblank, h.symm⟩
      · simp only [hhash, hblank, Bool.false_eq_true, if_false, ne_eq, reduceCtorEq,
          not_false_eq_true, if_true, leave, Except.ok.injEq] at h
        rw [Bool.not_eq_true, Bool.or_eq_false_iff] at hblank
        exact .inr (.inr ⟨⟨hhash, hblank⟩, h.symm⟩)
  | comment =>
    refine .inr (.inl ⟨rfl, ?_⟩)
    simp only [hcurr, parseRuneForState] at h
    by_cases hn : isNewline r = true
    · simp only [hn, if_true, ne_eq, reduceCtorEq, not_false_eq_true, leave,
        enter_not isPrint_noRune, Except.ok.injEq] at h
      exact .inr ⟨hn, h.symm⟩
    · simp only [hn, Bool.false_eq_true, if_false, ne_eq, not_true_eq_false,
        write_not isPrint_noRune, Except.ok.injEq] at h
      exact .inl ⟨by simpa using hn, h.symm⟩
  | name =>
    refine .inr (.inr (.inl ⟨rfl, ?_⟩))
    simp only [hcurr, parseRuneForState] at h
    by_cases ha : isAlpha r = true
    · simp only [ha, if_true, ne_eq, not_true_eq_false, if_false,
        write_print (IsWordRune.isPrint (.inl ha)), Except.ok.injEq] at h
      exact .inl ⟨ha, h.symm⟩
    · by_cases hs : isSpace r = true
      · by_cases hvalid : isValidCommand p.b
        · refine .inr ⟨⟨hs, hvalid⟩, ?_⟩
          simp only [ha, hs, Bool.false_eq_true, if_false, if_true, ne_eq, reduceCtorEq,
            not_false_eq_true, leave, hvalid, not_true_eq_false,
            enter_not isPrint_noRune] at h
          unfold command
          split_ifs at h ⊢ <;> exact (Except.ok.inj h).symm
        · simp [ha, hs, leave, hvalid] at h
      · simp [ha, hs] at h
  | parameter =>
    refine .inr (.inr (.inr (.inl ⟨rfl, ?_⟩)))
    simp only [hcurr, parseRuneForState] at h
    by_cases hword : (isAlpha r || isNumber r || decide (r = '_')) = true
    · have hw : IsWordRune r := by simpa [IsWordRune, or_assoc] using hword
      simp only [hword, if_true, ne_eq, not_true_eq_false, if_false, write_print hw.isPrint,
        Except.ok.injEq] at h
      exact .inl ⟨hw, h.symm⟩
    · by_cases hs : isSpace r = true
      · simp only [hword, hs, Bool.false_eq_true, if_false, if_true, ne_eq, reduceCtorEq,
          not_false_eq_true, leave, enter_not isPrint_noRune, Except.ok.injEq] at h
        exact .inr ⟨hs, h.symm⟩
      · simp only [hword, hs, Bool.false_eq_true, if_false, reduceCtorEq] at h
  | message =>
    refine .inr (.inr (.inr (.inr (.inl ⟨rfl, ?_⟩))))
    simp only [hcurr, parseRuneForState] at h
    by_cases ha : isAlpha r = true
    · simp only [ha, if_true, ne_eq, not_true_eq_false, if_false,
        write_print (IsWordRune.isPrint (.inl ha)), Except.ok.injEq] at h
      exact .inl ⟨ha, h.symm⟩
    · by_cases hs : isSpace r = true
      · by_cases hvalid : isValidMessageRole p.b
        · simp only [ha, hs, Bool.false_eq_true, if_false, if_true, ne_eq, reduceCtorEq,
            not_false_eq_true, leave, hvalid, not_true_eq_false,
            enter_not isPrint_noRune, Except.ok.injEq] at h
          exact .inr ⟨hs, hvalid, h.symm⟩
        · simp [ha, hs, leave, hvalid] at h
      · simp [ha, hs] at h
  | value =>
    refine .inr (.inr (.inr (.inr (.inr ⟨rfl, ?_⟩))))
    simp only [hcurr, parseRuneForState] at h
    by_cases hblank : (isNewline r || isSpace r) = true
    · simp only [hblank, if_true, ne_eq, reduceCtorEq, not_false_eq_true, leave] at h
      have hwrite : Writable T r := by
        rw [Bool.or_eq_true] at hblank
        exact .inr hblank.symm
      cases hs : unquote (trimSpace p.b) with
      | none =>
        simp only [hs, Except.ok.injEq] at h
        exact .inr (.inl ⟨fun _ => rfl, hwrite, h.symm⟩)
      | some s =>
        by_cases hspace : isSpace r = true
        · simp only [hs, hspace, if_true, Except.ok.injEq] at h
          refine .inr (.inl ⟨fun hn => ?_, hwrite, h.symm⟩)
          rw [not_isNewline_of_isSpace hspace] at hn
          cases hn
        · have hn : isNewline r = true := by simpa [hspace] using hblank
          simp only [hs, hspace, Bool.false_eq_true, if_false, enter_not (isPrint_newline hn),
            Except.ok.injEq] at h
          exact .inr (.inr ⟨hn, s, rfl, h.symm⟩)
    · simp only [hblank, Bool.false_eq_true, if_false, ne_eq, not_true_eq_false,
        Except.ok.injEq] at h
      rw [Bool.not_eq_true, Bool.or_eq_false_iff] at hblank
      by_cases hp : T.isPrint r = true
      · rw [write_print hp] at h
        refine .inr (.inl ⟨fun hn => ?_, .inl hp, h.symm⟩)
        rw [hblank.1] at hn
        cases hn
      · rw [write_not (by simpa using hp)] at h
        refine .inl ⟨?_, h.symm⟩
        rintro (hprint | hspace | hline)
        · exact hp hprint
        · exact absurd hspace (by simp [hblank.2])
        · exact absurd hline (by simp [hblank.1])

/-! ### Several runes -/

section
variable {T : PrintTable} {p : ParseState}

theorem run_append (s t : Str) : p.run T (s ++ t) = (p.run T s).bind (run T · t) := by
  induction s generalizing p with
  | nil => rfl
  | cons r s ih =>
    rw [List.cons_append, run, run]
    cases hstep : p.step T r with
    | error e => rfl
    | ok p' => exact ih

theorem run_cons {p' : ParseState} {r : Char} (h : p.step T r = .ok p') (s : Str) :
    p.run T (r :: s) = p'.run T s := by
  rw [run, h]
  rfl

theorem parseCommands_append {p' : ParseState} {s : Str} (h : p.run T s = .ok p') (t : Str) :
    parseCommands T p (s ++ t) = parseCommands T p' t := by
  rw [parseCommands, run_append, h]
  rfl

theorem parseCommands_cons {p' : ParseState} {r : Char} (h : p.step T r = .ok p') (s : Str) :
    parseCommands T p (r :: s) = parseCommands T p' s := by
  rw [parseCommands, run_cons h]
  rfl

theorem run_word {w : Str} (hcurr : p.curr = .name ∨ p.curr = .message)
    (hw : ∀ r ∈ w, isAlpha r = true) : p.run T w = .ok { p with b := p.b ++ w } := by
  induction w generalizing p with
  | nil => simp [run]
  | cons r w ih =>
    have hrest := @ih { p with b := p.b ++ [r] } hcurr fun a ha => hw a (by simp [ha])
    rw [run_cons (step_word hcurr (hw r (by simp))), hrest]
    simp

theorem run_parameter {w : Str} (hcurr : p.curr = .parameter) (hw : ∀ r ∈ w, IsWordRune r) :
    p.run T w = .ok { p with b := p.b ++ w } := by
  induction w generalizing p with
  | nil => simp [run]
  | cons r w ih =>
    have hrest := @ih { p with b := p.b ++ [r] } hcurr fun a ha => hw a (by simp [ha])
    rw [run_cons (step_parameter hcurr (hw r (by simp))), hrest]
    simp

/-- The name of a command, and the space behind it. -/
theorem run_heading {x : Str} {r : Char} (hcurr : p.curr = .nil) (hx : Opening x)
    (hr : isSpace r = true) (hvalid : isValidCommand (x.filter T.isPrint)) :
    p.run T (x ++ [r]) = .ok { p with b := x.filter T.isPrint }.command := by
  obtain ⟨a, w, rfl, hhash, hspace, hline, hw⟩ := hx
  have hname := run_word (T := T) (p := { p with curr := .name, b := [a].filter T.isPrint })
    (.inl rfl) hw
  have hfilter : (a :: w).filter T.isPrint = [a].filter T.isPrint ++ w := by
    rw [← List.singleton_append, List.filter_append, filter_alpha hw]
  rw [hfilter] at hvalid ⊢
  have hend := step_name_space (T := T)
    (p := { p with curr := .name, b := [a].filter T.isPrint ++ w }) rfl hr hvalid
  rw [List.cons_append, run_cons (step_first hcurr hhash hspace hline), enter_eq, run_append, hname]
  exact run_cons hend []

theorem run_command {w : Str} (hcurr : p.curr = .nil) (hw : ∀ r ∈ w, isAlpha r = true)
    (hvalid : isValidCommand w) :
    p.run T (w ++ [' ']) = .ok
      (if toLower w = "from".toList then
        { p with cmd := { p.cmd with name := "model".toList }, curr := .value, b := [] }
      else if toLower w = "parameter".toList then { p with curr := .parameter, b := [] }
      else if toLower w = "message".toList then
        { p with cmd := { p.cmd with name := toLower w }, curr := .message, b := [] }
      else { p with cmd := { p.cmd with name := toLower w }, curr := .value, b := [] }) := by
  have hne : w ≠ [] := by
    rintro rfl
    exact absurd hvalid (by decide)
  have hrun := run_heading (T := T) hcurr (opening_of_alpha hne hw) (show isSpace ' ' = true by decide)
  rw [filter_alpha hw] at hrun
  exact hrun hvalid

/-- A value is read to its end. -/
theorem run_value {t : Str} (hcurr : p.curr = .value)
    (hopen : ∀ u r w, t = u ++ r :: w → isNewline r = true →
      unquote (trimSpace (p.b ++ kept T u)) = none) :
    ∃ n, p.run T t = .ok { p with b := p.b ++ kept T t, currLine := n } := by
  induction t generalizing p with
  | nil => exact ⟨p.currLine, by simp [run, kept]⟩
  | cons r t ih =>
    by_cases hr : Writable T r
    · have hkept : ∀ u, kept T (r :: u) = r :: kept T u := fun u => List.filter_cons_of_pos (by simpa)
      have hfirst : isNewline r = true → unquote (trimSpace p.b) = none := by
        intro hline
        simpa [kept] using hopen [] r t rfl hline
      obtain ⟨n, hstep⟩ := step_value hcurr hr hfirst
      obtain ⟨m, hrun⟩ := ih (p := { p with b := p.b ++ [r], currLine := n }) hcurr
        fun u a w huw ha => by
          have hnone := hopen (r :: u) a w (by rw [huw]; rfl) ha
          simpa [hkept] using hnone
      refine ⟨m, ?_⟩
      rw [run_cons hstep, hrun, hkept]
      simp
    · have hkept : ∀ u, kept T (r :: u) = kept T u := fun u => List.filter_cons_of_neg (by simpa)
      obtain ⟨m, hrun⟩ := ih hcurr fun u a w huw ha => by
        have hnone := hopen (r :: u) a w (by rw [huw]; rfl) ha
        rwa [hkept] at hnone
      refine ⟨m, ?_⟩
      rw [run_cons (step_dropped hcurr hr), hrun, hkept]

/-- A value and the end of its line. -/
theorem run_quoted_closed {t s : Str} (hcurr : p.curr = .value) (hb : p.b = [])
    (hw : ∀ r ∈ t, Writable T r) (hopen : Unclosed t) (hs : unquote (trimSpace t) = some s) :
    ∃ n, p.run T (t ++ ['\n']) = .ok (p.close s n) := by
  obtain ⟨n, hrun⟩ := run_value (T := T) (p := p) (t := t) hcurr fun u r w huw hr => by
    rw [hb, kept_of_writable fun a ha => hw a (by simp [huw, ha])]
    exact hopen u r w huw hr
  rw [hb, kept_of_writable hw, List.nil_append] at hrun
  have hclose := step_close (T := T) (p := { p with b := t, currLine := n }) hcurr
    (show isNewline '\n' = true by decide) hs
  refine ⟨n + 1, ?_⟩
  rw [run_append, hrun]
  exact run_cons hclose []

/-! ### What was read -/

/-- Commands stay. -/
theorem commands_kept {s : Str} {cs : List Command} (h : parseCommands T p s = .ok cs) :
    p.commands <+: cs := by
  induction s generalizing p with
  | nil =>
    have h : p.flush = .ok cs := h
    unfold flush at h
    split at h
    · cases h
      exact List.prefix_refl _
    · cases h
      exact List.prefix_refl _
    · split at h <;> cases h
      exact List.prefix_append ..
    · cases h
  | cons r s ih =>
    cases hstep : p.step T r with
    | error e =>
      rw [parseCommands, run, hstep] at h
      cases h
    | ok p' =>
      rw [parseCommands_cons hstep] at h
      refine List.IsPrefix.trans ?_ (ih h)
      obtain ⟨n, ⟨-, ⟨-, rfl⟩ | ⟨-, rfl⟩ | ⟨-, rfl⟩⟩ | ⟨-, ⟨-, rfl⟩ | ⟨-, rfl⟩⟩ |
        ⟨-, ⟨-, rfl⟩ | ⟨-, rfl⟩⟩ | ⟨-, ⟨-, rfl⟩ | ⟨-, rfl⟩⟩ | ⟨-, ⟨-, rfl⟩ | ⟨-, -, rfl⟩⟩ |
        ⟨-, ⟨-, rfl⟩ | ⟨-, -, rfl⟩ | ⟨-, s, -, rfl⟩⟩⟩ := step_cases hstep
      all_goals try exact List.prefix_refl _
      · rw [enter, write_commands]
      · unfold command
        split_ifs <;> exact List.prefix_refl _
      · exact List.prefix_append ..

/-- A value ends where its line does not leave it open, or with the text. -/
theorem value_cases {t : Str} {cs : List Command} (hcurr : p.curr = .value)
    (hw : ∀ r ∈ t, Writable T r) (hb : Unclosed p.b) (h : parseCommands T p t = .ok cs) :
    ∃ u s, u <+: t ∧ Unclosed (p.b ++ u) ∧ unquote (trimSpace (p.b ++ u)) = some s ∧
      p.commands ++ [{ p.cmd with args := p.withRole s }] <+: cs := by
  induction t generalizing p with
  | nil =>
    have h : p.flush = .ok cs := h
    unfold flush at h
    simp only [hcurr] at h
    cases hs : unquote (trimSpace p.b) with
    | none =>
      rw [hs] at h
      cases h
    | some s =>
      rw [hs] at h
      cases h
      refine ⟨[], s, List.prefix_refl _, ?_, ?_, List.prefix_refl _⟩
      · rwa [List.append_nil]
      · rwa [List.append_nil]
  | cons r t ih =>
    by_cases hend : isNewline r = true → unquote (trimSpace p.b) = none
    · obtain ⟨n, hstep⟩ := step_value hcurr (hw r (by simp)) hend
      rw [parseCommands_cons hstep] at h
      obtain ⟨u, s, hu, hopen, hs, hcs⟩ := @ih { p with b := p.b ++ [r], currLine := n } hcurr
        (fun a ha => hw a (by simp [ha])) (unclosed_concat hb hend) h
      have happend : p.b ++ [r] ++ u = p.b ++ r :: u := by simp
      dsimp only at hopen hs
      rw [happend] at hopen hs
      exact ⟨r :: u, s, List.cons_prefix_cons.mpr ⟨rfl, hu⟩, hopen, hs, hcs⟩
    · rw [Classical.not_imp] at hend
      obtain ⟨s, hs⟩ := Option.ne_none_iff_exists'.mp hend.2
      rw [parseCommands_cons (step_close hcurr hend.1 hs)] at h
      refine ⟨[], s, List.nil_prefix, ?_, ?_, commands_kept h⟩
      · rwa [List.append_nil]
      · rwa [List.append_nil]

/-- A message has a role. -/
theorem message_cases {t : Str} {cs : List Command} (hcurr : p.curr = .message)
    (h : parseCommands T p t = .ok cs) :
    ∃ role r u n, t = role ++ r :: u ∧ isSpace r = true ∧ isValidMessageRole (p.b ++ role) ∧
      parseCommands T
        { p with curr := .value, currLine := n, b := [], role := p.b ++ role } u = .ok cs := by
  induction t generalizing p with
  | nil =>
    have h : p.flush = .ok cs := h
    rw [flush, hcurr] at h
    cases h
  | cons r t ih =>
    cases hstep : p.step T r with
    | error e =>
      rw [parseCommands, run, hstep] at h
      cases h
    | ok p' =>
      rw [parseCommands_cons hstep] at h
      obtain ⟨n, ⟨hc, -⟩ | ⟨hc, -⟩ | ⟨hc, -⟩ | ⟨hc, -⟩ | ⟨-, ⟨-, rfl⟩ | ⟨hspace, hrole, rfl⟩⟩ |
        ⟨hc, -⟩⟩ := step_cases hstep
      all_goals try exact absurd (hcurr.symm.trans hc) (by simp)
      · obtain ⟨role, a, u, m, rfl, ha, hrole, hrest⟩ :=
          @ih { p with currLine := n, b := p.b ++ [r] } hcurr h
        refine ⟨r :: role, a, u, m, rfl, ha, ?_, ?_⟩
        · simpa using hrole
        · simpa using hrest
      · exact ⟨[], r, t, n, rfl, hspace, by simpa using hrole, by simpa using h⟩

end

end ParseState

end

section

open Ecco9.Library

/-- A command as the parser makes it. -/
structure Made (T : PrintTable) (c : Command) : Prop where
  name : ∀ r ∈ c.name, IsWordRune r
  args : ∀ r ∈ c.args, Writable T r
  value : Sealed c.args ∨ ∃ role s, c.name = "message".toList ∧ isValidMessageRole role ∧
    c.args = role ++ ": ".toList ++ s ∧ Sealed s

/-- What holds of the state after every rune. -/
structure Tidy (T : PrintTable) (p : ParseState) : Prop where
  commands : ∀ c ∈ p.commands, Made T c
  name : p.curr = .value ∨ p.curr = .message → ∀ r ∈ p.cmd.name, IsWordRune r
  role : p.role = [] ∨
    p.curr = .value ∧ p.cmd.name = "message".toList ∧ isValidMessageRole p.role
  message : p.curr = .message → p.cmd.name = "message".toList
  parameter : p.curr = .parameter → ∀ r ∈ p.b, IsWordRune r
  value : p.curr = .value → (∀ r ∈ p.b, Writable T r) ∧ Unclosed p.b

section
variable {T : PrintTable}

theorem word_of_command {name : Str} (h : name ∈ ["from".toList, "license".toList,
    "template".toList, "system".toList, "adapter".toList, "parameter".toList,
    "message".toList]) : ∀ r ∈ name, IsWordRune r := by
  have hall : ["from".toList, "license".toList, "template".toList, "system".toList,
    "adapter".toList, "parameter".toList, "message".toList].all (·.all isAlpha) := by decide
  exact fun r hr => .inl (List.all_eq_true.mp (List.all_eq_true.mp hall name h) r hr)

theorem word_of_model : ∀ r ∈ "model".toList, IsWordRune r :=
  fun r hr => .inl (List.all_eq_true.mp (by decide) r hr)

theorem alpha_of_role {role : Str} (h : isValidMessageRole role) :
    ∀ r ∈ role, isAlpha r = true := by
  have hall : ["system".toList, "user".toList, "assistant".toList].all (·.all isAlpha) := by decide
  exact List.all_eq_true.mp (List.all_eq_true.mp hall role h)

theorem writable_of_mem_trim {t : Str} (h : ∀ r ∈ t, Writable T r) {s : Str}
    (hs : unquote (trimSpace t) = some s) : ∀ r ∈ s, Writable T r := by
  have hsub : ∀ r ∈ s, r ∈ trimSpace t := by
    rcases unquote_eq_some hs with ⟨-, rfl⟩ | hsame | ⟨-, hsame⟩
    · exact fun r hr => hr
    · rw [hsame]
      intro r hr
      simp [hr]
    · rw [hsame]
      intro r hr
      simp [hr]
  exact fun r hr => h r (mem_of_mem_trim (hsub r hr))

/-- The command that a value ends is well made. -/
theorem Tidy.made {p : ParseState} (tidy : Tidy T p) (hcurr : p.curr = .value) {s : Str}
    (hs : unquote (trimSpace p.b) = some s) : Made T { p.cmd with args := p.withRole s } := by
  obtain ⟨hw, hopen⟩ := tidy.value hcurr
  have hseal := sealed_of_unquote hopen hs
  have hwrite := writable_of_mem_trim hw hs
  unfold ParseState.withRole
  refine ⟨tidy.name (.inl hcurr), ?_, ?_⟩
  · split_ifs with hrole
    · obtain ⟨-, -, hvalid⟩ := tidy.role.resolve_left hrole
      intro r hr
      simp only [List.mem_append] at hr
      rcases hr with (hr | hr) | hr
      · exact .inl (IsWordRune.isPrint (.inl (alpha_of_role hvalid r hr)))
      · exact .inl (T.of_all (by decide) r hr)
      · exact hwrite r hr
    · exact hwrite
  · split_ifs with hrole
    · obtain ⟨-, hname, hvalid⟩ := tidy.role.resolve_left hrole
      exact .inr ⟨p.role, s, hname, hvalid, rfl, hseal⟩
    · exact .inl hseal

theorem Tidy.command {p : ParseState} (tidy : Tidy T p) (hcurr : p.curr = .name)
    (hvalid : isValidCommand p.b) : Tidy T p.command := by
  have hrole : p.role = [] := tidy.role.resolve_right (by simp [hcurr])
  have hword := word_of_command hvalid
  unfold ParseState.command
  split_ifs with hfrom hparameter hmessage
  · exact ⟨tidy.commands, fun _ => word_of_model, .inl hrole, nofun, nofun,
      fun _ => ⟨nofun, unclosed_nil⟩⟩
  · exact ⟨tidy.commands, nofun, .inl hrole, nofun, fun _ => nofun, nofun⟩
  · exact ⟨tidy.commands, fun _ => hword, .inl hrole, fun _ => hmessage, nofun, nofun⟩
  · exact ⟨tidy.commands, fun _ => hword, .inl hrole, nofun, nofun, fun _ => ⟨nofun, unclosed_nil⟩⟩

theorem Tidy.step {p p' : ParseState} {r : Char} (tidy : Tidy T p) (h : p.step T r = .ok p') :
    Tidy T p' := by
  have hrole (hcurr : p.curr ≠ .value) : p.role = [] := tidy.role.resolve_right fun h => hcurr h.1
  obtain ⟨n, ⟨hcurr, ⟨-, rfl⟩ | ⟨-, rfl⟩ | ⟨-, rfl⟩⟩ | ⟨hcurr, ⟨-, rfl⟩ | ⟨-, rfl⟩⟩ |
    ⟨hcurr, ⟨-, rfl⟩ | ⟨⟨-, hvalid⟩, rfl⟩⟩ | ⟨hcurr, ⟨hr, rfl⟩ | ⟨-, rfl⟩⟩ |
    ⟨hcurr, ⟨-, rfl⟩ | ⟨-, hvalid, rfl⟩⟩ |
    ⟨hcurr, ⟨-, rfl⟩ | ⟨hopen, hr, rfl⟩ | ⟨-, s, hs, rfl⟩⟩⟩ := ParseState.step_cases h
  · exact ⟨tidy.commands, tidy.name, tidy.role, tidy.message, tidy.parameter, tidy.value⟩
  · exact ⟨tidy.commands, by simp, .inl (hrole (by simp [hcurr])), by simp, by simp, by simp⟩
  · exact ⟨by simpa [ParseState.enter] using tidy.commands, by simp [ParseState.enter],
      .inl (by simpa [ParseState.enter] using hrole (by simp [hcurr])), by simp [ParseState.enter],
      by simp [ParseState.enter], by simp [ParseState.enter]⟩
  · exact ⟨tidy.commands, tidy.name, tidy.role, tidy.message, tidy.parameter, tidy.value⟩
  · exact ⟨tidy.commands, by simp, .inl (hrole (by simp [hcurr])), by simp, by simp, by simp⟩
  · exact ⟨tidy.commands, tidy.name, tidy.role, tidy.message, by simp [hcurr], by simp [hcurr]⟩
  · have hline : Tidy T { p with currLine := n } :=
      ⟨tidy.commands, tidy.name, tidy.role, tidy.message, tidy.parameter, tidy.value⟩
    exact hline.command hcurr hvalid
  · refine ⟨tidy.commands, tidy.name, tidy.role, tidy.message, ?_, by simp [hcurr]⟩
    intro _ a ha
    rcases List.mem_append.mp ha with ha | ha
    · exact tidy.parameter hcurr a ha
    · rwa [List.mem_singleton.mp ha]
  · exact ⟨tidy.commands, fun _ => tidy.parameter hcurr, .inl (hrole (by simp [hcurr])), by simp,
      by simp, fun _ => ⟨by simp, unclosed_nil⟩⟩
  · exact ⟨tidy.commands, tidy.name, tidy.role, tidy.message, by simp [hcurr], by simp [hcurr]⟩
  · exact ⟨tidy.commands, fun _ => tidy.name (.inr hcurr),
      .inr ⟨rfl, tidy.message hcurr, hvalid⟩, by simp, by simp, fun _ => ⟨by simp, unclosed_nil⟩⟩
  · exact ⟨tidy.commands, tidy.name, tidy.role, tidy.message, tidy.parameter, tidy.value⟩
  · refine ⟨tidy.commands, tidy.name, tidy.role, tidy.message, by simp [hcurr], fun _ => ⟨?_, ?_⟩⟩
    · intro a ha
      rcases List.mem_append.mp ha with ha | ha
      · exact (tidy.value hcurr).1 a ha
      · rwa [List.mem_singleton.mp ha]
    · exact unclosed_concat (tidy.value hcurr).2 hopen
  · refine ⟨?_, by simp [ParseState.close], .inl rfl, by simp [ParseState.close],
      by simp [ParseState.close], by simp [ParseState.close]⟩
    intro c hc
    rcases List.mem_append.mp hc with hc | hc
    · exact tidy.commands c hc
    · rw [List.mem_singleton.mp hc]
      exact tidy.made hcurr hs

/-- Parsing makes only such commands. -/
theorem Tidy.parseCommands {p : ParseState} {s : Str} {cs : List Command} (tidy : Tidy T p)
    (h : parseCommands T p s = .ok cs) : ∀ c ∈ cs, Made T c := by
  induction s generalizing p with
  | nil =>
    have h : p.flush = .ok cs := h
    unfold ParseState.flush at h
    split at h
    · cases h
      exact tidy.commands
    · cases h
      exact tidy.commands
    · rename_i hcurr
      split at h
      · cases h
      · rename_i s hs
        cases h
        intro c hc
        rcases List.mem_append.mp hc with hc | hc
        · exact tidy.commands c hc
        · rw [List.mem_singleton.mp hc]
          exact tidy.made hcurr hs
    · cases h
  | cons r s ih =>
    cases hstep : p.step T r with
    | error e =>
      rw [Parser.parseCommands, ParseState.run, hstep] at h
      cases h
    | ok p' =>
      rw [ParseState.parseCommands_cons hstep] at h
      exact ih (tidy.step hstep) h

theorem tidy_start : Tidy T {} :=
  ⟨nofun, nofun, .inl rfl, nofun, nofun, nofun⟩

end

end

end Ecco9.Parser
