import Ecco9.Scheme.Reader

/-! The printer of `core/scheme/metamodel.go`, and which of what it prints the reader reads back. -/

namespace Ecco9.Scheme

open Ecco9.Library

variable {N : Type}

section

variable (showNumber : N → Text)

def Atom.print : Atom N → Text
  | .symbol name => name
  | .number value => showNumber value
  | .string value => quoted value
  | .boolean value => if value then ascii "#t" else ascii "#f"

namespace Datum

mutual

def print : Datum N → Text
  | .atom a => a.print showNumber
  | .nil => ascii "()"
  | .cons car cdr => lparen :: [blank].intercalate (car.print :: cdr.parts) ++ [rparen]

/-- What is printed of the rest of a list. -/
def parts : Datum N → List Text
  | .atom a => [ascii ".", a.print showNumber]
  | .nil => []
  | .cons car cdr => car.print :: cdr.parts

end

mutual

/-- The tokens that are meant. -/
def tokens : Datum N → List Text
  | .atom a => [a.print showNumber]
  | .nil => [[lparen], [rparen]]
  | .cons car cdr => [lparen] :: (car.tokens ++ cdr.inner) ++ [[rparen]]

def inner : Datum N → List Text
  | .atom a => [ascii ".", a.print showNumber]
  | .nil => []
  | .cons car cdr => car.tokens ++ cdr.inner

end

end Datum

end

def Datum.isList : Datum N → Bool
  | .atom _ => false
  | _ => true

def Datum.elements : Datum N → List (Datum N)
  | .cons car cdr => car :: cdr.elements
  | _ => []

/-- A name that is one token, and neither of the booleans. -/
structure IsName (name : Text) : Prop where
  ne_nil : name ≠ []
  solid : Solid name
  no_quote : quote ∉ name
  not_true : name ≠ ascii "#t"
  not_false : name ≠ ascii "#f"

def Atom.Plain : Atom N → Prop
  | .symbol name => IsName name
  | .number _ => False
  | .string value => quote ∉ value
  | .boolean _ => True

/-- Booleans, strings, symbols and the proper lists of such values. -/
def Datum.Plain : Datum N → Prop
  | .atom a => a.Plain
  | .nil => True
  | .cons car cdr => car.Plain ∧ cdr.Plain ∧ cdr.isList = true

/-- What is printed is one token, which is not read as a number. -/
def Atom.Kept (convertFloat : Text → Option N) : Atom N → Prop
  | .symbol name => convertFloat (floatToken name) = none
  | .string value => Solid value
  | _ => True

variable {convertFloat : Text → Option N} (showNumber : N → Text)

/-! ### Atoms -/

theorem isWord_quote {s : Text} (h : IsWord s) : IsWord (quote :: s) := by
  have hnone : leadingSpace (quote :: s) = none := leadingSpace_eq_none.mpr fun w hw hfront => by
    have hspaces : ∀ w ∈ spaces, w.head? ≠ some quote := by decide
    cases w with
    | nil => exact spaces_ne_nil [] hw rfl
    | cons b w =>
      obtain ⟨rfl, -⟩ := List.cons_prefix_cons.mp hfront
      exact hspaces _ hw rfl
  rw [IsWord, untilSpace, hnone, h]
  rfl

/-- Quotes cut nothing, and they keep nothing from being cut. -/
theorem solid_quoted {s : Text} : Solid (quoted s) ↔ Solid s := by
  constructor
  · intro h
    refine ⟨(leadingSpace_of_word h.word).2.of_append, fun hmem => h.no_lparen ?_,
      fun hmem => h.no_rparen ?_⟩
    · simp [quoted, hmem]
    · simp [quoted, hmem]
  · intro h
    refine ⟨?_, ?_, ?_⟩
    · exact isWord_quote (h.word.append (by decide) (by decide))
    · simp [quoted, h.no_lparen, show lparen ≠ quote by decide]
    · simp [quoted, h.no_rparen, show rparen ≠ quote by decide]

theorem Atom.solid_print {a : Atom N} (plain : a.Plain) (kept : a.Kept convertFloat) :
    Solid (a.print showNumber) ∧ a.print showNumber ≠ [] := by
  cases a with
  | symbol name =>
    have isName : IsName name := plain
    exact ⟨isName.solid, isName.ne_nil⟩
  | number value => exact plain.elim
  | string value => exact ⟨solid_quoted.mpr kept, List.cons_ne_nil _ _⟩
  | boolean value =>
    have hsolid (s : Text) (hs : s = ascii "#t" ∨ s = ascii "#f") : Solid s ∧ s ≠ [] := by
      rcases hs with rfl | rfl
      · exact ⟨⟨by decide, by decide, by decide⟩, by decide⟩
      · exact ⟨⟨by decide, by decide, by decide⟩, by decide⟩
    refine hsolid _ ?_
    cases value
    · exact .inr rfl
    · exact .inl rfl

theorem parseAtom_print (empty : convertFloat [] = none) {a : Atom N} (plain : a.Plain)
    (kept : a.Kept convertFloat) : parseAtom convertFloat (a.print showNumber) = some a := by
  cases a with
  | symbol name =>
    have isName : IsName name := plain
    have hscan : convertFloat (floatToken name) = none := kept
    have hquote : ¬(name.head? = some quote ∧ name.getLast? = some quote) :=
      fun h => isName.no_quote (List.mem_of_head? h.1)
    rw [Atom.print, parseAtom, if_neg isName.not_true, if_neg isName.not_false, hscan]
    exact if_neg hquote
  | number value => exact plain.elim
  | string value =>
    have hscan : convertFloat (floatToken (quoted value)) = none := by
      rwa [quoted, List.cons_append, floatToken_of_head (by decide)]
    have hne (t : Text) (ht : t.head? ≠ some quote) : quoted value ≠ t := fun heq => ht (heq ▸ rfl)
    have hquotes : (quoted value).head? = some quote ∧ (quoted value).getLast? = some quote :=
      ⟨rfl, List.getLast?_concat⟩
    have hlen : ¬(quoted value).length < 2 := by simp [quoted]
    have hslice : ((quoted value).take ((quoted value).length - 1)).drop 1 = value := by simp [quoted]
    rw [Atom.print, parseAtom, if_neg (hne _ (by decide)), if_neg (hne _ (by decide)), hscan]
    dsimp only
    rw [if_pos hquotes, if_neg hlen, hslice]
  | boolean value => cases value <;> rfl

/-! ### What is printed, and what is read of it -/

theorem intercalate_cons (s : Text) (ss : List Text) :
    [blank].intercalate (s :: ss) = s ++ ss.flatMap (blank :: ·) := by
  induction ss generalizing s with
  | nil => simp [List.intercalate]
  | cons t ss ih =>
    rw [List.flatMap_cons, List.cons_append, ← ih t]
    simp [List.intercalate]

theorem tokenize_print {d : Datum N} (plain : d.Plain) (h : ∀ a ∈ d.atoms, a.Kept convertFloat) :
    tokenize (d.print showNumber) = d.tokens showNumber ∧ (d.isList = true → ∀ s,
      tokenize (s ++ (d.parts showNumber).flatMap (blank :: ·)) = tokenize s ++ d.inner showNumber) := by
  induction d with
  | atom a =>
    obtain ⟨hsolid, hne⟩ := Atom.solid_print showNumber plain (h a List.mem_cons_self)
    exact ⟨hsolid.tokenize hne, nofun⟩
  | nil =>
    have hnil : tokenize (ascii "()") = [[lparen], [rparen]] := by decide
    exact ⟨hnil, fun _ s => by simp [Datum.parts, Datum.inner]⟩
  | cons car cdr ihcar ihcdr =>
    obtain ⟨hcar, hcdr, hlist⟩ := plain
    obtain ⟨ihcar, -⟩ := ihcar hcar fun a ha => h a (List.mem_append_left _ ha)
    have ihcdr := (ihcdr hcdr fun a ha => h a (List.mem_append_right _ ha)).2 hlist
    constructor
    · have hopen (s : Text) : tokenize (lparen :: s) = [lparen] :: tokenize s :=
        tokenize_paren (.inl rfl) [] s
      have hclose (s : Text) : tokenize (s ++ [rparen]) = tokenize s ++ [[rparen]] :=
        tokenize_paren (.inr rfl) s []
      rw [Datum.print, intercalate_cons, List.cons_append, hopen, hclose, ihcdr, ihcar]
      rfl
    · intro _ s
      rw [Datum.parts, List.flatMap_cons, ← List.append_assoc, ihcdr, tokenize_blank, ihcar, Datum.inner,
        List.append_assoc]

theorem tokens_cons {d : Datum N} (plain : d.Plain) (h : ∀ a ∈ d.atoms, a.Kept convertFloat) :
    ∃ token tokens, d.tokens showNumber = token :: tokens ∧ token ≠ [rparen] := by
  cases d with
  | atom a =>
    refine ⟨_, [], rfl, fun heq => ?_⟩
    have hsolid := (Atom.solid_print showNumber plain (h a List.mem_cons_self)).1
    exact hsolid.no_rparen (heq ▸ List.mem_cons_self)
  | nil => exact ⟨_, _, rfl, by decide⟩
  | cons car cdr => exact ⟨_, _, rfl, by decide⟩

theorem listToCons_elements {d : Datum N} (h : d.Plain) (hlist : d.isList = true) :
    listToCons d.elements = d := by
  induction d with
  | atom a => cases hlist
  | nil => rfl
  | cons car cdr _ ih => exact congrArg (Datum.cons car) (ih h.2.1 h.2.2)

/-- The reader finds a value in its tokens, whatever follows them. -/
theorem parseExpr_tokens (empty : convertFloat [] = none) {d : Datum N} (plain : d.Plain)
    (h : ∀ a ∈ d.atoms, a.Kept convertFloat) :
    (∀ n rest, 2 * (d.tokens showNumber).length ≤ n →
      parseExpr convertFloat n (d.tokens showNumber ++ rest) = .value (d, rest)) ∧
    (d.isList = true → ∀ n front rest, 2 * (d.inner showNumber).length + 1 ≤ n →
      parseList convertFloat n front (d.inner showNumber ++ [rparen] :: rest) =
        .value (listToCons (front ++ d.elements), rest)) := by
  induction d with
  | atom a =>
    refine ⟨fun n rest hn => ?_, nofun⟩
    obtain ⟨n, rfl⟩ : ∃ m, n = m + 1 := Nat.exists_eq_add_one.mpr (lt_of_lt_of_le (by simp [Datum.tokens]) hn)
    have hsolid := (Atom.solid_print showNumber plain (h a List.mem_cons_self)).1
    have hl : a.print showNumber ≠ [lparen] := fun heq => hsolid.no_lparen (heq ▸ List.mem_cons_self)
    have hr : a.print showNumber ≠ [rparen] := fun heq => hsolid.no_rparen (heq ▸ List.mem_cons_self)
    have hparse := parseAtom_print showNumber empty plain (h a List.mem_cons_self)
    rw [Datum.tokens, List.singleton_append, parseExpr, if_neg hl, if_neg hr, hparse]
  | nil =>
    constructor
    · intro n rest hn
      obtain ⟨n, rfl⟩ := Nat.exists_eq_add_of_le hn
      rw [Nat.add_comm]
      rfl
    · intro _ n front rest hn
      obtain ⟨n, rfl⟩ := Nat.exists_eq_add_of_le hn
      rw [Nat.add_comm]
      simp [Datum.inner, Datum.elements, parseList]
  | cons car cdr ihcar ihcdr =>
    obtain ⟨hcar, hcdr, hlist⟩ := plain
    have hkept : ∀ a ∈ car.atoms, a.Kept convertFloat := fun a ha => h a (List.mem_append_left _ ha)
    obtain ⟨ihcar, -⟩ := ihcar hcar hkept
    have ihcdr := (ihcdr hcdr fun a ha => h a (List.mem_append_right _ ha)).2 hlist
    have hinner (n : Nat) (front : List (Datum N)) (rest : List Text)
        (hn : 2 * (car.tokens showNumber ++ cdr.inner showNumber).length + 1 ≤ n) :
        parseList convertFloat n front (car.tokens showNumber ++ cdr.inner showNumber ++ [rparen] :: rest) =
          .value (listToCons (front ++ car :: cdr.elements), rest) := by
      obtain ⟨token, tokens, htokens, hne⟩ := tokens_cons showNumber hcar hkept
      obtain ⟨n, rfl⟩ : ∃ m, n = m + 1 := Nat.exists_eq_add_one.mpr (by omega)
      have hcons := congrArg List.length htokens
      rw [List.length_append] at hn
      rw [List.length_cons] at hcons
      have hread := ihcar n (cdr.inner showNumber ++ [rparen] :: rest) (by omega)
      rw [htokens, List.cons_append] at hread
      rw [List.append_assoc, htokens, List.cons_append, parseList, if_neg hne, hread, Reading.bind]
      dsimp only
      rw [ihcdr n _ rest (by omega), List.append_assoc]
      rfl
    refine ⟨fun n rest hn => ?_, fun _ => hinner⟩
    obtain ⟨n, rfl⟩ : ∃ m, n = m + 1 := Nat.exists_eq_add_one.mpr (lt_of_lt_of_le (by simp [Datum.tokens]) hn)
    rw [Datum.tokens] at hn ⊢
    simp only [List.length_append, List.length_cons, List.length_nil, List.cons_append, List.append_assoc,
      List.nil_append] at hn ⊢
    rw [parseExpr, if_pos rfl, ← List.append_assoc, hinner n [] rest (by rw [List.length_append]; omega)]
    exact congrArg (fun d => Reading.value (Datum.cons car d, rest)) (listToCons_elements hcdr hlist)

theorem parse_print_iff (empty : convertFloat [] = none) {v : Datum N} (plain : v.Plain) :
    parse convertFloat (v.print showNumber) = .value v ↔ ∀ a ∈ v.atoms, a.Kept convertFloat := by
  constructor
  · intro heq a ha
    have h := readsText empty (v.print showNumber)
    rw [heq] at h
    obtain ⟨token, htoken, hparse⟩ := h.2 a ha
    cases a with
    | symbol name => exact parseAtom_symbol hparse
    | string s =>
      obtain rfl := parseAtom_string hparse
      obtain hl | hr | hsolid := mem_tokenize htoken
      · exact absurd hl (by simp [quoted])
      · exact absurd hr (by simp [quoted])
      · exact solid_quoted.mp hsolid
    | number value => trivial
    | boolean value => trivial
  · intro h
    have htokens := (tokenize_print showNumber plain h).1
    obtain ⟨token, tokens, hcons, -⟩ := tokens_cons showNumber plain h
    have hne : v.tokens showNumber ≠ [] := hcons ▸ List.cons_ne_nil _ _
    have hread := (parseExpr_tokens showNumber empty plain h).1
      (2 * (v.tokens showNumber).length + 1) [] (Nat.le_succ _)
    rw [List.append_nil] at hread
    rw [parse, htokens]
    dsimp only
    rw [if_neg hne, hread]
    rfl

theorem parse_returns_iff (empty : convertFloat [] = none) (expr : Text) :
    ((∃ v, parse convertFloat expr = .value v) ∨ ∃ message, parse convertFloat expr = .error message) ↔
      [quote] ∉ firstExpr (tokenize expr) := by
  have h := readsText empty expr
  cases hr : parse convertFloat expr with
  | value v =>
    rw [hr] at h
    exact iff_of_true (.inl ⟨v, rfl⟩) h.1
  | error message =>
    rw [hr] at h
    exact iff_of_true (.inr ⟨message, rfl⟩) h
  | panics =>
    rw [hr] at h
    exact iff_of_false (by simp) (not_not.mpr h)
  | unfinished =>
    rw [hr] at h
    exact h.elim

/-- The reader returns but for a quote that is alone, and it reads back what is printed but for strings
that white space or parentheses cut, and symbols that are scanned as numbers. -/
theorem read_printed (empty : convertFloat [] = none) :
    (∀ expr, ((∃ v, parse convertFloat expr = .value v) ∨
      ∃ message, parse convertFloat expr = .error message) ↔ [quote] ∉ firstExpr (tokenize expr)) ∧
    ∀ v : Datum N, v.Plain →
      (parse convertFloat (v.print showNumber) = .value v ↔ ∀ a ∈ v.atoms, a.Kept convertFloat) :=
  ⟨parse_returns_iff empty, fun _ plain => parse_print_iff showNumber empty plain⟩

theorem read_printed_list :
    let v : Datum Nat := .cons (.atom (.symbol (ascii "f"))) (.cons (.atom (.string (ascii "a")))
      (.cons (.cons (.atom (.boolean true)) .nil) .nil))
    parse (fun _ => none) (v.print fun _ => []) = .value v := by
  have hname : IsName (ascii "f") :=
    ⟨by decide, ⟨by decide, by decide, by decide⟩, by decide, by decide, by decide⟩
  have hstring : quote ∉ ascii "a" := by decide
  refine ((read_printed (fun _ => []) rfl).2 _ ?_).mpr ?_
  · exact ⟨hname, ⟨hstring, ⟨⟨trivial, trivial, rfl⟩, trivial, rfl⟩, rfl⟩, rfl⟩
  · intro a ha
    rcases List.mem_cons.mp ha with rfl | ha
    · rfl
    rcases List.mem_cons.mp ha with rfl | ha
    · exact ⟨by decide, by decide, by decide⟩
    obtain rfl := List.mem_singleton.mp ha
    trivial

/-- A quote alone is sliced from its second byte to its first, and a string with a blank becomes two
symbols, of which the first is read. -/
theorem cut_strings : (¬∀ expr, (∃ v : Datum Nat, parse (fun _ => none) expr = .value v) ∨
      ∃ message, parse (fun _ => none : Text → Option Nat) expr = .error message) ∧
    ¬∀ v : Datum Nat, v.Plain → (∀ name, .symbol name ∈ v.atoms → floatToken name = []) →
      parse (fun _ => none) (v.print fun _ => []) = .value v := by
  constructor
  · intro claim
    exact (parse_returns_iff rfl [quote]).mp (claim [quote]) (by decide)
  · intro claim
    have hstring : quote ∉ ascii "a b" := by decide
    have hnone (name : Text) (hname : Atom.symbol name ∈ [(.string (ascii "a b") : Atom Nat)]) :
        floatToken name = [] := absurd (List.mem_singleton.mp hname) (by simp)
    have hplain : Datum.Plain (.atom (.string (ascii "a b") : Atom Nat)) := hstring
    have hkept : Solid (ascii "a b") :=
      (parse_print_iff _ rfl hplain).mp (claim _ hplain hnone) _ List.mem_cons_self
    exact absurd hkept.word (by decide)

end Ecco9.Scheme
