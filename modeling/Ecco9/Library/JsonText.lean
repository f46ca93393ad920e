import Ecco9.Library.Utf8

/-! JSON as text: its grammar, and the braces that are open between two bytes of it. -/

namespace Ecco9.Library

/-! ### The grammar -/

/-- What holds of all bytes of a text is decided along the text, not over all bytes there are. -/
instance (priority := 2000) {p : UInt8 → Prop} [DecidablePred p] (s : Text) :
    Decidable (∀ c ∈ s, p c) := List.decidableBAll p s

def isBlank (c : UInt8) : Prop := c = 0x20 ∨ c = 0x09 ∨ c = 0x0A ∨ c = 0x0D

instance (c : UInt8) : Decidable (isBlank c) := inferInstanceAs (Decidable (_ ∨ _))

def isDigit (c : UInt8) : Prop := 0x30 ≤ c ∧ c ≤ 0x39

instance (c : UInt8) : Decidable (isDigit c) := inferInstanceAs (Decidable (_ ∧ _))

def isHex (c : UInt8) : Prop := isDigit c ∨ 0x41 ≤ c ∧ c ≤ 0x46 ∨ 0x61 ≤ c ∧ c ≤ 0x66

instance (c : UInt8) : Decidable (isHex c) := inferInstanceAs (Decidable (_ ∨ _))

def Blank (s : Text) : Prop := ∀ c ∈ s, isBlank c

instance (s : Text) : Decidable (Blank s) := List.decidableBAll isBlank s

def Digits (s : Text) : Prop := s ≠ [] ∧ ∀ c ∈ s, isDigit c

inductive Fraction : Text → Prop
  | none : Fraction []
  | some {s} : Digits s → Fraction (0x2E :: s)

inductive Exponent : Text → Prop
  | none : Exponent []
  | some {e sign s} : e = 0x65 ∨ e = 0x45 → sign ∈ [[], [0x2B], [0x2D]] → Digits s →
      Exponent (e :: (sign ++ s))

/-- No digit follows a zero in front. -/
inductive Number : Text → Prop
  | of {sign int frac exp} : sign ∈ [[], [0x2D]] → Digits int → (int.head? = some 0x30 → int = [0x30]) →
      Fraction frac → Exponent exp → Number (sign ++ (int ++ (frac ++ exp)))

/-- What stands between the quotes of a string. -/
inductive Chars : Text → Prop
  | nil : Chars []
  | char {c s} : 0x20 ≤ c → c ≠ 0x22 → c ≠ 0x5C → Chars s → Chars (c :: s)
  | escape {c s} : c ∈ ascii "\"\\/bfnrt" → Chars s → Chars (0x5C :: c :: s)
  | code {a b c d s} : isHex a → isHex b → isHex c → isHex d → Chars s →
      Chars (0x5C :: 0x75 :: a :: b :: c :: d :: s)

def quoted (s : Text) : Text := 0x22 :: (s ++ [0x22])

inductive JsonPart
  | value
  | item
  | items
  | member
  | members

/-- The texts of each part of the grammar; an item is a value with white space around it. -/
inductive JsonText : JsonPart → Text → Prop
  | literal {s} : s ∈ [ascii "true", ascii "false", ascii "null"] → JsonText .value s
  | number {s} : Number s → JsonText .value s
  | string {s} : Chars s → JsonText .value (quoted s)
  | emptyArray {s} : Blank s → JsonText .value (0x5B :: (s ++ [0x5D]))
  | array {s} : JsonText .items s → JsonText .value (0x5B :: (s ++ [0x5D]))
  | emptyObject {s} : Blank s → JsonText .value (0x7B :: (s ++ [0x7D]))
  | object {s} : JsonText .members s → JsonText .value (0x7B :: (s ++ [0x7D]))
  | item {a s b} : Blank a → JsonText .value s → Blank b → JsonText .item (a ++ (s ++ b))
  | lastItem {s} : JsonText .item s → JsonText .items s
  | items {s t} : JsonText .item s → JsonText .items t → JsonText .items (s ++ 0x2C :: t)
  | member {a k b s} : Blank a → Chars k → Blank b → JsonText .item s →
      JsonText .member (a ++ (quoted k ++ (b ++ 0x3A :: s)))
  | lastMember {s} : JsonText .member s → JsonText .members s
  | members {s t} : JsonText .member s → JsonText .members t → JsonText .members (s ++ 0x2C :: t)

inductive ObjectText : Text → Prop
  | empty {s} : Blank s → ObjectText (0x7B :: (s ++ [0x7D]))
  | members {s} : JsonText .members s → ObjectText (0x7B :: (s ++ [0x7D]))

theorem ObjectText.value {s : Text} (h : ObjectText s) : JsonText .value s := by
  cases h with
  | empty hblank => exact .emptyObject hblank
  | members hmembers => exact .object hmembers

theorem JsonText.alone {s : Text} (h : JsonText .value s) : JsonText .item s := by
  have := JsonText.item (a := []) (b := []) (by decide) h (by decide)
  rwa [List.nil_append, List.append_nil] at this

theorem chars_plain {s : Text} (h : ∀ c ∈ s, 0x20 ≤ c ∧ c ≠ 0x22 ∧ c ≠ 0x5C) : Chars s := by
  induction s with
  | nil => exact .nil
  | cons c s ih =>
    obtain ⟨hspace, hquote, hescape⟩ := h c List.mem_cons_self
    exact .char hspace hquote hescape (ih fun x hx => h x (List.mem_cons_of_mem c hx))

/-- A member without white space. -/
theorem Chars.member {k s : Text} (hk : Chars k) (h : JsonText .value s) :
    JsonText .member (quoted k ++ 0x3A :: s) :=
  .member (a := []) (b := []) (by decide) hk (by decide) h.alone

/-! ### Braces outside of strings -/

inductive Lexing
  | outside
  | string
  | escaped
  deriving DecidableEq

/-- Where a byte leads, and the braces that are open behind it, those in strings not counted. No
brace is closed that is not open, nothing is escaped outside of a string, and no brace is. -/
def lexByte : Lexing × Nat → UInt8 → Option (Lexing × Nat)
  | (.outside, d), c =>
    if c = 0x22 then some (.string, d)
    else if c = 0x5C then none
    else if c = 0x7B then some (.outside, d + 1)
    else if c = 0x7D then if d = 0 then none else some (.outside, d - 1)
    else some (.outside, d)
  | (.string, d), c =>
    if c = 0x22 then some (.outside, d)
    else if c = 0x5C then some (.escaped, d)
    else some (.string, d)
  | (.escaped, d), c => if c = 0x7B then none else some (.string, d)

def lex (place : Lexing × Nat) (s : Text) : Option (Lexing × Nat) := s.foldlM lexByte place

/-- As many braces are open behind the text as before it, and no string is. -/
def Neutral (s : Text) : Prop := ∀ d, lex (.outside, d) s = some (.outside, d)

section Lex

variable {s t : Text} {m m' : Lexing} {d d' : Nat}

theorem lex_append (place : Lexing × Nat) (s t : Text) :
    lex place (s ++ t) = (lex place s).bind fun next => lex next t := List.foldlM_append ..

theorem lex_cons (place : Lexing × Nat) (c : UInt8) (s : Text) :
    lex place (c :: s) = (lexByte place c).bind fun next => lex next s := List.foldlM_cons ..

theorem lexByte_open {c : UInt8} (h : lexByte (m, d) c = some (m', d')) (k : Nat) :
    lexByte (m, d + k) c = some (m', d' + k) := by
  cases m with
  | outside =>
    rw [lexByte] at h ⊢
    split_ifs at h ⊢ <;> cases h
    · rfl
    · rw [Nat.add_right_comm]
    · omega
    · rw [Nat.sub_add_comm (by omega)]
    · rfl
  | string =>
    rw [lexByte] at h ⊢
    split_ifs at h ⊢ <;> cases h <;> rfl
  | escaped =>
    rw [lexByte] at h ⊢
    split_ifs at h ⊢
    cases h
    rfl

/-- More braces that are open before a text stay open. -/
theorem lex_open (h : lex (m, d) s = some (m', d')) (k : Nat) :
    lex (m, d + k) s = some (m', d' + k) := by
  induction s generalizing m d with
  | nil =>
    cases h
    rfl
  | cons c s ih =>
    rw [lex_cons] at h ⊢
    obtain ⟨⟨m₁, d₁⟩, hbyte, hrest⟩ := Option.bind_eq_some_iff.mp h
    rw [lexByte_open hbyte k]
    exact ih hrest

/-- A text that can be read from outside and from within a string: one reading is within its strings
where the other is outside of them. -/
theorem lex_dual {a b : Lexing × Nat} {e : Nat}
    (hmode : m = .outside ∧ m' = .string ∨ m = .string ∧ m' = .outside)
    (h : lex (m, d) s = some a) (h' : lex (m', e) s = some b) :
    a.1 = .outside ∧ b.1 = .string ∨ a.1 = .string ∧ b.1 = .outside := by
  induction s generalizing m m' d e with
  | nil =>
    cases h
    cases h'
    exact hmode
  | cons c s ih =>
    rw [lex_cons] at h h'
    obtain ⟨⟨m₁, d₁⟩, hbyte, hrest⟩ := Option.bind_eq_some_iff.mp h
    obtain ⟨⟨m₂, d₂⟩, hbyte', hrest'⟩ := Option.bind_eq_some_iff.mp h'
    refine ih ?_ hrest hrest'
    rcases hmode with ⟨rfl, rfl⟩ | ⟨rfl, rfl⟩
    all_goals
      rw [lexByte] at hbyte
      rw [lexByte] at hbyte'
      split_ifs at hbyte hbyte' <;> cases hbyte <;> cases hbyte' <;> simp

theorem Neutral.append (h : Neutral s) (h' : Neutral t) : Neutral (s ++ t) := by
  intro d
  rw [lex_append, h d]
  exact h' d

theorem Neutral.braces (h : Neutral s) : Neutral (0x7B :: (s ++ [0x7D])) := by
  intro d
  rw [lex_cons, lexByte, if_neg (by decide), if_neg (by decide), if_pos rfl, Option.bind_some,
    lex_append, h]
  rfl

theorem neutral_plain (h : ∀ c ∈ s, c ≠ 0x22 ∧ c ≠ 0x5C ∧ c ≠ 0x7B ∧ c ≠ 0x7D) : Neutral s := by
  intro d
  induction s with
  | nil => rfl
  | cons c s ih =>
    obtain ⟨hquote, hescape, hopen, hclose⟩ := h c List.mem_cons_self
    rw [lex_cons, lexByte, if_neg hquote, if_neg hescape, if_neg hopen, if_neg hclose,
      Option.bind_some]
    exact ih fun x hx => h x (List.mem_cons_of_mem c hx)

theorem lex_char {c : UInt8} (hquote : c ≠ 0x22) (hescape : c ≠ 0x5C) :
    lex (.string, d) (c :: s) = lex (.string, d) s := by
  rw [lex_cons, lexByte, if_neg hquote, if_neg hescape]
  rfl

theorem lex_escape {c : UInt8} (hopen : c ≠ 0x7B) :
    lex (.string, d) (0x5C :: c :: s) = lex (.string, d) s := by
  rw [lex_cons, lexByte, if_neg (by decide), if_pos rfl, Option.bind_some, lex_cons, lexByte,
    if_neg hopen]
  rfl

theorem isHex.plain {c : UInt8} (h : isHex c) :
    c ≠ 0x22 ∧ c ≠ 0x5C ∧ c ≠ 0x7B ∧ c ≠ 0x7D := by
  refine ⟨?_, ?_, ?_, ?_⟩ <;> (rintro rfl; revert h; decide)

theorem lex_chars (h : Chars s) (d : Nat) : lex (.string, d) s = some (.string, d) := by
  induction h with
  | nil => rfl
  | char _ hquote hescape _ ih => rw [lex_char hquote hescape, ih]
  | escape hc _ ih =>
    rw [lex_escape, ih]
    rintro rfl
    revert hc
    decide
  | code ha hb hc hd _ ih =>
    rw [lex_escape (by decide), lex_char ha.plain.1 ha.plain.2.1, lex_char hb.plain.1 hb.plain.2.1,
      lex_char hc.plain.1 hc.plain.2.1, lex_char hd.plain.1 hd.plain.2.1, ih]

theorem Chars.neutral (h : Chars s) : Neutral (quoted s) := by
  intro d
  rw [quoted, lex_cons, lexByte, if_pos rfl, Option.bind_some, lex_append, lex_chars h]
  rfl

theorem Blank.neutral (h : Blank s) : Neutral s := by
  refine neutral_plain fun c hc => ?_
  rcases h c hc with rfl | rfl | rfl | rfl <;> decide

theorem Digits.plain (h : Digits s) : ∀ c ∈ s, c ≠ 0x22 ∧ c ≠ 0x5C ∧ c ≠ 0x7B ∧ c ≠ 0x7D :=
  fun c hc => isHex.plain (.inl (h.2 c hc))

theorem Number.neutral (h : Number s) : Neutral s := by
  obtain ⟨hsign, hint, -, hfrac, hexp⟩ := h
  refine .append ?_ (.append (neutral_plain hint.plain) (.append ?_ ?_))
  · simp only [List.mem_cons, List.not_mem_nil, or_false] at hsign
    rcases hsign with rfl | rfl <;> exact neutral_plain (by decide)
  · cases hfrac with
    | none => exact neutral_plain (by decide)
    | some hdigits =>
      exact .append (s := [0x2E]) (neutral_plain (by decide)) (neutral_plain hdigits.plain)
  · cases hexp with
    | none => exact neutral_plain (by decide)
    | @some e sign s he hsign hdigits =>
      have hfirst : Neutral [e] := by
        rcases he with rfl | rfl <;> exact neutral_plain (by decide)
      refine hfirst.append (.append ?_ (neutral_plain hdigits.plain))
      simp only [List.mem_cons, List.not_mem_nil, or_false] at hsign
      rcases hsign with rfl | rfl | rfl <;> exact neutral_plain (by decide)

/-- A byte between texts. -/
theorem Neutral.between {c : UInt8} (h : Neutral s) (h' : Neutral t)
    (hc : c ≠ 0x22 ∧ c ≠ 0x5C ∧ c ≠ 0x7B ∧ c ≠ 0x7D) : Neutral (s ++ c :: t) :=
  h.append (.append (s := [c]) (neutral_plain (by simpa using hc)) h')

/-- A byte around a text. -/
theorem Neutral.around {a b : UInt8} (h : Neutral s)
    (ha : a ≠ 0x22 ∧ a ≠ 0x5C ∧ a ≠ 0x7B ∧ a ≠ 0x7D)
    (hb : b ≠ 0x22 ∧ b ≠ 0x5C ∧ b ≠ 0x7B ∧ b ≠ 0x7D) : Neutral (a :: (s ++ [b])) :=
  .append (s := [a]) (neutral_plain (by simpa using ha)) (h.append (neutral_plain (by simpa using hb)))

theorem JsonText.neutral {part : JsonPart} (h : JsonText part s) : Neutral s := by
  induction h with
  | literal hs =>
    refine neutral_plain ?_
    simp only [List.mem_cons, List.not_mem_nil, or_false] at hs
    rcases hs with rfl | rfl | rfl <;> decide
  | number hs => exact hs.neutral
  | string hs => exact hs.neutral
  | emptyArray hs => exact hs.neutral.around (by decide) (by decide)
  | array _ ih => exact ih.around (by decide) (by decide)
  | emptyObject hs => exact hs.neutral.braces
  | object _ ih => exact ih.braces
  | item ha _ hb ih => exact ha.neutral.append (ih.append hb.neutral)
  | lastItem _ ih => exact ih
  | items _ _ ih ih' => exact ih.between ih' (by decide)
  | member ha hk hb _ ih =>
    exact ha.neutral.append (hk.neutral.append (hb.neutral.between ih (by decide)))
  | lastMember _ ih => exact ih
  | members _ _ ih ih' => exact ih.between ih' (by decide)

/-! ### Objects -/

theorem ObjectText.braces (h : ObjectText s) : ∃ inner, s = 0x7B :: (inner ++ [0x7D]) ∧ Neutral inner := by
  cases h with
  | empty hs => exact ⟨_, rfl, hs.neutral⟩
  | members hs => exact ⟨_, rfl, hs.neutral⟩

/-- No end of an object is an object, unless it is all of it. -/
theorem ObjectText.whole {u : Text} (h : ObjectText (u ++ 0x7B :: t)) (ht : Neutral (0x7B :: t)) :
    u = [] := by
  obtain ⟨inner, heq, hinner⟩ := h.braces
  cases u with
  | nil => rfl
  | cons c u =>
    exfalso
    rw [List.cons_append, List.cons.injEq] at heq
    obtain ⟨rfl, heq⟩ := heq
    -- the front of what is in the braces leaves some of them open
    have hfront : u <+: inner := by
      refine List.prefix_of_prefix_length_le ⟨_, heq⟩ ⟨[0x7D], rfl⟩ ?_
      have := congrArg List.length heq
      simp only [List.length_append, List.length_cons, List.length_nil] at this
      omega
    obtain ⟨rest, rfl⟩ := hfront
    have hzero := hinner 0
    rw [lex_append] at hzero
    obtain ⟨⟨m, k⟩, hu, -⟩ := Option.bind_eq_some_iff.mp hzero
    have hone : lex (.outside, 1) (u ++ 0x7B :: t) = some (.outside, 0) := by
      rw [heq, lex_append, hinner 1]
      rfl
    have hopen : lex (.outside, 0 + 1) u = some (m, k + 1) := lex_open hu 1
    rw [lex_append, hopen, Option.bind_some] at hone
    cases m with
    | outside =>
      rw [ht (k + 1)] at hone
      cases hone
    | string =>
      have := lex_dual (.inr ⟨rfl, rfl⟩) hone (ht 0)
      simp only [reduceCtorEq, and_false, and_true, or_self] at this
    | escaped =>
      rw [lex_cons, lexByte, if_pos rfl] at hone
      cases hone

end Lex

end Ecco9.Library
