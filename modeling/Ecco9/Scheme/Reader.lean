import Ecco9.Library.Fields
import Ecco9.Library.Replace
import Ecco9.Library.Decimal

/-! The reader of `core/scheme/metamodel.go` on the bytes of an expression, and what it reads. -/

namespace Ecco9.Scheme

open Ecco9.Library

/-- A value that the reader makes of a token. -/
inductive Atom (N : Type)
  | symbol (name : Text)
  | number (value : N)
  | string (value : Text)
  | boolean (value : Bool)
  deriving DecidableEq

inductive Datum (N : Type)
  | atom (a : Atom N)
  | nil
  | cons (car cdr : Datum N)
  deriving DecidableEq

/-- What comes of reading. It panics where a slice is out of bounds. -/
inductive Reading (α : Type)
  | value (a : α)
  | error (message : String)
  | panics
  | unfinished
  deriving DecidableEq

def Reading.bind {α β : Type} (f : α → Reading β) : Reading α → Reading β
  | value a => f a
  | error message => error message
  | panics => panics
  | unfinished => unfinished

def lparen : UInt8 := 40
def rparen : UInt8 := 41
def quote : UInt8 := 34
def blank : UInt8 := 32

def tokenize (expr : Text) : List Text :=
  fields (replaceAll [rparen] [blank, rparen, blank] (replaceAll [lparen] [blank, lparen, blank] expr))

variable {N : Type}

def listToCons (elements : List (Datum N)) : Datum N := elements.foldr .cons .nil

section

variable (convertFloat : Text → Option N)

/-- A token that is no parenthesis; `none` where the quotes of a string are the same byte. -/
def parseAtom (token : Text) : Option (Atom N) :=
  if token = ascii "#t" then some (.boolean true)
  else if token = ascii "#f" then some (.boolean false)
  else
    match convertFloat (floatToken token) with
    | some num => some (.number num)
    | none =>
      if token.head? = some quote ∧ token.getLast? = some quote then
        if token.length < 2 then none else some (.string ((token.take (token.length - 1)).drop 1))
      else some (.symbol token)

mutual

def parseExpr : Nat → List Text → Reading (Datum N × List Text)
  | 0, _ => .unfinished
  | _ + 1, [] => .error "unexpected end of input"
  | n + 1, token :: tokens =>
    if token = [lparen] then parseList n [] tokens
    else if token = [rparen] then .error "unexpected )"
    else
      match parseAtom convertFloat token with
      | some a => .value (.atom a, tokens)
      | none => .panics

def parseList : Nat → List (Datum N) → List Text → Reading (Datum N × List Text)
  | 0, _, _ => .unfinished
  | _ + 1, _, [] => .error "unclosed list"
  | n + 1, elements, token :: tokens =>
    if token = [rparen] then .value (listToCons elements, tokens)
    else (parseExpr n (token :: tokens)).bind fun (expr, rest) => parseList n (elements ++ [expr]) rest

end

def parse (expr : Text) : Reading (Datum N) :=
  let tokens := tokenize expr
  if tokens = [] then .value .nil
  else (parseExpr convertFloat (2 * tokens.length + 1) tokens).bind fun (value, _) => .value value

end

/-- The tokens up to the end of the lists that are open. -/
def inside : Nat → List Text → List Text
  | 0, _ => []
  | _ + 1, [] => []
  | depth + 1, token :: tokens =>
    token ::
      inside (if token = [lparen] then depth + 2 else if token = [rparen] then depth else depth + 1) tokens

/-- The tokens of the expression that comes first. -/
def firstExpr : List Text → List Text
  | [] => []
  | token :: tokens => token :: inside (if token = [lparen] then 1 else 0) tokens

/-! ### Tokens -/

/-- Text that white space and parentheses do not cut. -/
structure Solid (s : Text) : Prop where
  word : IsWord s
  no_lparen : lparen ∉ s
  no_rparen : rparen ∉ s

def pad (b : UInt8) : Text := if b = lparen ∨ b = rparen then [blank, b, blank] else [b]

theorem tokenize_eq (s : Text) : tokenize s = fields (s.flatMap pad) := by
  rw [tokenize, replaceAll_singleton, replaceAll_singleton, List.flatMap_assoc]
  congr 1
  refine List.flatMap_congr fun b _ => ?_
  by_cases hl : b = lparen
  · subst hl
    rfl
  · by_cases hr : b = rparen
    · subst hr
      rfl
    · simp [pad, hl, hr]

theorem tokenize_blank (s t : Text) : tokenize (s ++ blank :: t) = tokenize s ++ tokenize t := by
  simp only [tokenize_eq, List.flatMap_append, List.flatMap_cons]
  exact fields_space _ _

theorem tokenize_paren {b : UInt8} (h : b = lparen ∨ b = rparen) (s t : Text) :
    tokenize (s ++ b :: t) = tokenize s ++ [b] :: tokenize t := by
  have hword : IsWord [b] := by
    rcases h with rfl | rfl <;> decide
  simp only [tokenize_eq, List.flatMap_append, List.flatMap_cons, pad, if_pos h]
  have hsplit : [blank, b, blank] ++ t.flatMap pad = blank :: ([b] ++ blank :: t.flatMap pad) := rfl
  rw [hsplit, blank, fields_space, fields_space, fields_self hword (List.cons_ne_nil b [])]
  rfl

theorem flatMap_pad {s : Text} (hl : lparen ∉ s) (hr : rparen ∉ s) : s.flatMap pad = s := by
  have heq : s.flatMap pad = s.flatMap fun b => [b] := List.flatMap_congr fun b hb => by
    refine if_neg ?_
    rintro (rfl | rfl)
    · exact hl hb
    · exact hr hb
  rw [heq, List.flatMap_singleton']

theorem Solid.tokenize {s : Text} (h : Solid s) (hne : s ≠ []) : tokenize s = [s] := by
  rw [tokenize_eq, flatMap_pad h.no_lparen h.no_rparen, fields_self h.word hne]

/-- A token is a parenthesis, or nothing cuts it. -/
theorem mem_tokenize {s t : Text} (h : t ∈ Scheme.tokenize s) : t = [lparen] ∨ t = [rparen] ∨ Solid t := by
  induction hn : s.length using Nat.strong_induction_on generalizing s with
  | _ n ih =>
    have hcut {b : UInt8} (hb : b = lparen ∨ b = rparen) (hmem : b ∈ s) :
        t = [lparen] ∨ t = [rparen] ∨ Solid t := by
      obtain ⟨front, back, rfl⟩ := List.append_of_mem hmem
      rw [List.length_append, List.length_cons] at hn
      rw [tokenize_paren hb, List.mem_append, List.mem_cons] at h
      rcases h with h | rfl | h
      · exact ih front.length (by omega) h rfl
      · rcases hb with rfl | rfl
        · exact .inl rfl
        · exact .inr (.inl rfl)
      · exact ih back.length (by omega) h rfl
    by_cases hl : lparen ∈ s
    · exact hcut (.inl rfl) hl
    by_cases hr : rparen ∈ s
    · exact hcut (.inr rfl) hr
    rw [tokenize_eq, flatMap_pad hl hr] at h
    obtain ⟨hword, -, hwithin⟩ := mem_fields h
    exact .inr (.inr ⟨hword, fun hmem => hl (hwithin.subset hmem), fun hmem => hr (hwithin.subset hmem)⟩)

/-! ### What is read -/

def Datum.atoms : Datum N → List (Atom N)
  | .atom a => [a]
  | .nil => []
  | .cons car cdr => car.atoms ++ cdr.atoms

def quoted (s : Text) : Text := quote :: s ++ [quote]

theorem atoms_listToCons (elements : List (Datum N)) :
    (listToCons elements).atoms = elements.flatMap Datum.atoms := by
  induction elements with
  | nil => rfl
  | cons e elements ih =>
    rw [List.flatMap_cons, ← ih]
    rfl

section

variable {convertFloat : Text → Option N}

theorem parseAtom_lone (empty : convertFloat [] = none) : parseAtom convertFloat [quote] = none := by
  have hscan : convertFloat (floatToken [quote]) = none := by rwa [floatToken_of_head (by decide)]
  rw [parseAtom, if_neg (by decide), if_neg (by decide), hscan]
  rfl

theorem eq_quoted {token : Text} (h : token.head? = some quote ∧ token.getLast? = some quote)
    (hlen : 2 ≤ token.length) : quoted ((token.take (token.length - 1)).drop 1) = token := by
  obtain ⟨s, rfl⟩ := List.head?_eq_some_iff.mp h.1
  obtain ⟨t, ht⟩ := List.getLast?_eq_some_iff.mp h.2
  cases t with
  | nil =>
    rw [ht] at hlen
    exact absurd hlen (by decide)
  | cons b t =>
    obtain ⟨rfl, rfl⟩ := List.cons.inj ht
    simp [quoted]

/-- What a token becomes. -/
theorem parseAtom_cases (convertFloat : Text → Option N) (token : Text) :
    (∃ value, parseAtom convertFloat token = some (.boolean value)) ∨
    (∃ num, parseAtom convertFloat token = some (.number num)) ∨
    (token.head? = some quote ∧ token.length < 2 ∧ parseAtom convertFloat token = none) ∨
    (∃ value, quoted value = token ∧ parseAtom convertFloat token = some (.string value)) ∨
    (convertFloat (floatToken token) = none ∧ parseAtom convertFloat token = some (.symbol token)) := by
  unfold parseAtom
  split
  · exact .inl ⟨true, rfl⟩
  split
  · exact .inl ⟨false, rfl⟩
  split
  · rename_i num _
    exact .inr (.inl ⟨num, rfl⟩)
  rename_i hscan
  split
  · rename_i hquotes
    split
    · rename_i hlen
      exact .inr (.inr (.inl ⟨hquotes.1, hlen, rfl⟩))
    · rename_i hlen
      exact .inr (.inr (.inr (.inl ⟨_, eq_quoted hquotes (not_lt.mp hlen), rfl⟩)))
  · exact .inr (.inr (.inr (.inr ⟨hscan, rfl⟩)))

/-- The slice is out of bounds for a quote that is alone, and for that only. -/
theorem parseAtom_eq_none (empty : convertFloat [] = none) {token : Text} :
    parseAtom convertFloat token = none ↔ token = [quote] := by
  refine ⟨fun h => ?_, fun h => h ▸ parseAtom_lone empty⟩
  obtain ⟨_, heq⟩ | ⟨_, heq⟩ | ⟨hquote, hlen, -⟩ | ⟨_, -, heq⟩ | ⟨-, heq⟩ :=
    parseAtom_cases convertFloat token
  · cases heq.symm.trans h
  · cases heq.symm.trans h
  · obtain ⟨s, rfl⟩ := List.head?_eq_some_iff.mp hquote
    cases s with
    | nil => rfl
    | cons b s => exact absurd hlen (by simp)
  · cases heq.symm.trans h
  · cases heq.symm.trans h

theorem parseAtom_string {token s : Text} (h : parseAtom convertFloat token = some (.string s)) :
    quoted s = token := by
  obtain ⟨_, heq⟩ | ⟨_, heq⟩ | ⟨-, -, heq⟩ | ⟨_, htoken, heq⟩ | ⟨-, heq⟩ := parseAtom_cases convertFloat token
  · cases heq.symm.trans h
  · cases heq.symm.trans h
  · cases heq.symm.trans h
  · cases heq.symm.trans h
    exact htoken
  · cases heq.symm.trans h

theorem parseAtom_symbol {token name : Text} (h : parseAtom convertFloat token = some (.symbol name)) :
    convertFloat (floatToken name) = none := by
  obtain ⟨_, heq⟩ | ⟨_, heq⟩ | ⟨-, -, heq⟩ | ⟨_, -, heq⟩ | ⟨hscan, heq⟩ := parseAtom_cases convertFloat token
  · cases heq.symm.trans h
  · cases heq.symm.trans h
  · cases heq.symm.trans h
  · cases heq.symm.trans h
  · cases heq.symm.trans h
    exact hscan

/-- An expression has been read, of the tokens at the front. -/
structure Front (convertFloat : Text → Option N) (tokens used rest : List Text) (v : Datum N) : Prop where
  tokens_eq : tokens = used ++ rest
  ne_nil : used ≠ []
  first : firstExpr tokens = used
  inside : ∀ depth, inside (depth + 1) tokens = used ++ inside (depth + 1) rest
  clean : [quote] ∉ used
  atoms : ∀ a ∈ v.atoms, ∃ token ∈ used, parseAtom convertFloat token = some a

/-- A list has been read to its end. -/
structure ListFront (convertFloat : Text → Option N) (elements : List (Datum N))
    (tokens used rest : List Text) (v : Datum N) : Prop where
  tokens_eq : tokens = used ++ rest
  inside : ∀ depth, inside (depth + 1) tokens = used ++ inside depth rest
  clean : [quote] ∉ used
  atoms : ∀ a ∈ v.atoms, (∃ e ∈ elements, a ∈ e.atoms) ∨
    ∃ token ∈ used, parseAtom convertFloat token = some a

def Reads (convertFloat : Text → Option N) (tokens : List Text) : Reading (Datum N × List Text) → Prop
  | .value (v, rest) => ∃ used, Front convertFloat tokens used rest v
  | .error _ => [quote] ∉ firstExpr tokens ∧
      (tokens.head? ≠ some [rparen] → ∀ depth, [quote] ∉ inside (depth + 1) tokens)
  | .panics => [quote] ∈ firstExpr tokens ∧ ∀ depth, [quote] ∈ inside (depth + 1) tokens
  | .unfinished => False

def ReadsList (convertFloat : Text → Option N) (elements : List (Datum N)) (tokens : List Text) :
    Reading (Datum N × List Text) → Prop
  | .value (v, rest) => ∃ used, ListFront convertFloat elements tokens used rest v
  | .error _ => ∀ depth, [quote] ∉ inside (depth + 1) tokens
  | .panics => ∀ depth, [quote] ∈ inside (depth + 1) tokens
  | .unfinished => False

@[simp] theorem inside_zero (tokens : List Text) : inside 0 tokens = [] := by
  cases tokens <;> rfl

theorem inside_lparen (depth : Nat) (tokens : List Text) :
    inside (depth + 1) ([lparen] :: tokens) = [lparen] :: inside (depth + 2) tokens := rfl

theorem inside_rparen (depth : Nat) (tokens : List Text) :
    inside (depth + 1) ([rparen] :: tokens) = [rparen] :: inside depth tokens := rfl

theorem inside_atom {token : Text} (hl : token ≠ [lparen]) (hr : token ≠ [rparen]) (depth : Nat)
    (tokens : List Text) : inside (depth + 1) (token :: tokens) = token :: inside (depth + 1) tokens := by
  rw [inside, if_neg hl, if_neg hr]

theorem firstExpr_atom {token : Text} (hl : token ≠ [lparen]) (tokens : List Text) :
    firstExpr (token :: tokens) = [token] := by
  rw [firstExpr, if_neg hl, inside_zero]

/-- A list in parentheses is an expression. -/
theorem Reads.paren {tokens : List Text} {r : Reading (Datum N × List Text)}
    (h : ReadsList convertFloat [] tokens r) : Reads convertFloat ([lparen] :: tokens) r := by
  cases r with
  | value p =>
    obtain ⟨used, h⟩ := h
    refine ⟨[lparen] :: used, congrArg _ h.tokens_eq, List.cons_ne_nil _ _, ?_, fun depth => ?_, ?_, ?_⟩
    · have hinside := h.inside 0
      rw [inside_zero, List.append_nil] at hinside
      exact congrArg _ hinside
    · rw [inside_lparen, h.inside (depth + 1)]
      rfl
    · exact List.not_mem_cons_of_ne_of_not_mem (by decide) h.clean
    · intro a ha
      obtain ⟨e, he, -⟩ | ⟨token, htoken, hparse⟩ := h.atoms a ha
      · cases he
      · exact ⟨token, List.mem_cons_of_mem _ htoken, hparse⟩
  | error message =>
    refine ⟨?_, fun _ depth => ?_⟩
    · exact List.not_mem_cons_of_ne_of_not_mem (by decide) (h 0)
    · exact List.not_mem_cons_of_ne_of_not_mem (by decide) (h (depth + 1))
  | panics => exact ⟨List.mem_cons_of_mem _ (h 0), fun depth => List.mem_cons_of_mem _ (h (depth + 1))⟩
  | unfinished => exact h

theorem Reads.atom (empty : convertFloat [] = none) {token : Text} (hl : token ≠ [lparen])
    (hr : token ≠ [rparen]) (tokens : List Text) : Reads convertFloat (token :: tokens)
      (match parseAtom convertFloat token with
        | some a => .value (Datum.atom a, tokens)
        | none => .panics) := by
  cases h : parseAtom convertFloat token with
  | none =>
    obtain rfl := (parseAtom_eq_none empty).mp h
    refine ⟨?_, fun depth => ?_⟩
    · exact List.mem_cons_self
    · rw [inside_atom hl hr]
      exact List.mem_cons_self
  | some a =>
    refine ⟨[token], rfl, List.cons_ne_nil _ _, firstExpr_atom hl tokens,
      fun depth => inside_atom hl hr depth tokens, ?_, ?_⟩
    · intro hmem
      rw [(parseAtom_eq_none empty).mpr (List.mem_singleton.mp hmem).symm] at h
      cases h
    · intro b hb
      obtain rfl := List.mem_singleton.mp hb
      exact ⟨token, List.mem_cons_self, h⟩

/-- A list goes on behind an expression in it. -/
theorem ReadsList.bind {elements : List (Datum N)} {tokens : List Text}
    {r : Reading (Datum N × List Text)} {f : Datum N × List Text → Reading (Datum N × List Text)}
    (h : Reads convertFloat tokens r) (hopen : tokens.head? ≠ some [rparen])
    (hf : ∀ e rest, rest.length < tokens.length →
      ReadsList convertFloat (elements ++ [e]) rest (f (e, rest))) :
    ReadsList convertFloat elements tokens (r.bind f) := by
  cases r with
  | error message => exact h.2 hopen
  | panics => exact h.2
  | unfinished => exact h
  | value p =>
    obtain ⟨e, rest⟩ := p
    obtain ⟨used, h⟩ := h
    have hshort : rest.length < tokens.length := by
      have hpos := List.length_pos_iff.mpr h.ne_nil
      rw [h.tokens_eq, List.length_append]
      omega
    have hrest := hf e rest hshort
    rw [Reading.bind]
    cases hr : f (e, rest) with
    | unfinished =>
      rw [hr] at hrest
      exact hrest
    | error message =>
      rw [hr] at hrest
      intro depth hmem
      rw [h.inside, List.mem_append] at hmem
      exact hmem.elim h.clean (hrest depth)
    | panics =>
      rw [hr] at hrest
      intro depth
      rw [h.inside]
      exact List.mem_append_right _ (hrest depth)
    | value p =>
      rw [hr] at hrest
      obtain ⟨used', hrest⟩ := hrest
      refine ⟨used ++ used', ?_, fun depth => ?_, ?_, fun a ha => ?_⟩
      · rw [h.tokens_eq, List.append_assoc, ← hrest.tokens_eq]
      · rw [h.inside, hrest.inside, List.append_assoc]
      · exact fun hmem => (List.mem_append.mp hmem).elim h.clean hrest.clean
      · obtain ⟨e', he', ha⟩ | ⟨token, htoken, hparse⟩ := hrest.atoms a ha
        · rw [List.mem_append, List.mem_singleton] at he'
          obtain he' | rfl := he'
          · exact .inl ⟨e', he', ha⟩
          · obtain ⟨token, htoken, hparse⟩ := h.atoms a ha
            exact .inr ⟨token, List.mem_append_left _ htoken, hparse⟩
        · exact .inr ⟨token, List.mem_append_right _ htoken, hparse⟩

/-- What the two functions of the reader make of the tokens, which it never runs out of steps for. -/
theorem reads (empty : convertFloat [] = none) (n : Nat) :
    (∀ tokens : List Text, 2 * tokens.length + 1 ≤ n →
        Reads convertFloat tokens (parseExpr convertFloat n tokens)) ∧
      ∀ (elements : List (Datum N)) (tokens : List Text), 2 * tokens.length + 2 ≤ n →
        ReadsList convertFloat elements tokens (parseList convertFloat n elements tokens) := by
  induction n with
  | zero => exact ⟨fun _ h => absurd h (by omega), fun _ _ h => absurd h (by omega)⟩
  | succ n ih =>
    constructor
    · intro tokens hn
      cases tokens with
      | nil => exact ⟨List.not_mem_nil, fun _ _ => List.not_mem_nil⟩
      | cons token tokens =>
        rw [List.length_cons] at hn
        rw [parseExpr]
        split
        · rename_i hl
          exact hl ▸ Reads.paren (ih.2 [] tokens (by omega))
        · rename_i hl
          split
          · rename_i hr
            subst hr
            refine ⟨?_, fun hopen => absurd rfl hopen⟩
            rw [firstExpr_atom hl]
            decide
          · rename_i hr
            exact .atom empty hl hr tokens
    · intro elements tokens hn
      cases tokens with
      | nil => exact fun _ => List.not_mem_nil
      | cons token tokens =>
        rw [parseList]
        split
        · rename_i hr
          subst hr
          refine ⟨[[rparen]], rfl, fun depth => inside_rparen depth tokens, by decide, fun a ha => .inl ?_⟩
          rw [atoms_listToCons] at ha
          exact List.mem_flatMap.mp ha
        · rename_i hr
          refine .bind (ih.1 _ (by omega)) (fun heq => hr (Option.some.inj heq)) fun e rest hshort => ?_
          exact ih.2 _ rest (by omega)

/-- What may come of an expression. -/
def ReadsText (convertFloat : Text → Option N) (expr : Text) : Reading (Datum N) → Prop
  | .value v => [quote] ∉ firstExpr (tokenize expr) ∧
      ∀ a ∈ v.atoms, ∃ token ∈ tokenize expr, parseAtom convertFloat token = some a
  | .error _ => [quote] ∉ firstExpr (tokenize expr)
  | .panics => [quote] ∈ firstExpr (tokenize expr)
  | .unfinished => False

theorem readsText (empty : convertFloat [] = none) (expr : Text) :
    ReadsText convertFloat expr (parse convertFloat expr) := by
  rw [parse]
  split
  · rename_i hnil
    refine ⟨?_, fun a ha => nomatch ha⟩
    rw [hnil]
    exact List.not_mem_nil
  · have h := (reads empty _).1 (tokenize expr) (Nat.le_refl _)
    cases hr : parseExpr convertFloat (2 * (tokenize expr).length + 1) (tokenize expr) with
    | error message =>
      rw [hr] at h
      exact h.1
    | panics =>
      rw [hr] at h
      exact h.1
    | unfinished =>
      rw [hr] at h
      exact h
    | value p =>
      rw [hr] at h
      obtain ⟨used, h⟩ := h
      refine ⟨h.first ▸ h.clean, fun a ha => ?_⟩
      obtain ⟨token, htoken, hparse⟩ := h.atoms a ha
      exact ⟨token, h.tokens_eq ▸ List.mem_append_left _ htoken, hparse⟩

end

end Ecco9.Scheme
