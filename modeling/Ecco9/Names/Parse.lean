import Ecco9.Library.Trim
import Ecco9.Library.Utf8
import Mathlib.Tactic.NormNum

/-! `Parse`, `IsValid` and `String` of `server/internal/internal/names/name.go`: which strings are taken for
names, and which of them are written as documented. -/

namespace Ecco9.Names

open Ecco9.Library

/-- `MaxNameLength`, of `<host>/<namespace>/<model>:<tag>` -/
def maxNameLength : Nat := 350 + 1 + 80 + 1 + 80 + 1 + 80

structure Name where
  h : Text := []
  n : Text := []
  m : Text := []
  t : Text := []
  deriving DecidableEq

inductive Part
  | partHost
  | partNamespace
  | partModel
  | partTag
  deriving DecidableEq

def isAlphanumericOrUnderscore (c : UInt8) : Bool :=
  (65 ≤ c && c ≤ 90) || (97 ≤ c && c ≤ 122) || (48 ≤ c && c ≤ 57) || c = 95

def slash : UInt8 := 47

def colon : UInt8 := 58

/-- The bytes that the loop of `isValidPart` accepts after the first. -/
def isPartByte (kind : Part) (c : UInt8) : Bool :=
  if c = 95 ∨ c = 45 then true
  else if c = 46 then kind ≠ .partNamespace
  else if c = colon then kind = .partHost
  else isAlphanumericOrUnderscore c

def maxLength (kind : Part) : Nat := if kind = .partHost then 350 else 80

/-- The loop goes over runes, but a byte that starts a longer one is refused. -/
def isValidPart (kind : Part) (s : Text) : Bool :=
  s.length ≤ maxLength kind &&
    match s with
    | [] => true
    | c :: s => isAlphanumericOrUnderscore c && s.all (isPartByte kind)

namespace Name

def isValid (n : Name) : Bool :=
  (n.h = [] || isValidPart .partHost n.h) && (n.n = [] || isValidPart .partNamespace n.n) &&
    (n.t = [] || isValidPart .partTag n.t) && (n.m ≠ [] && isValidPart .partModel n.m)

def toText (n : Name) : Text :=
  (if n.h = [] then [] else n.h ++ [slash]) ++ (if n.n = [] then [] else n.n ++ [slash]) ++ n.m ++
    if n.t = [] then [] else colon :: n.t

end Name

def isSeparator (c : UInt8) : Bool := c = slash || c = colon

def isSlash (c : UInt8) : Bool := c = slash

/-- `cutLastAny` at a slash: without one, all of it comes after. -/
def cutSlash (s : Text) : Text × Text :=
  match cutLast isSlash s with
  | some (before, _, after) => (before, after)
  | none => ([], s)

/-- The loop of `Parse`, with at most as many cuts as there are bytes. -/
def parseFrom : Nat → Text → Name → Name
  | 0, s, n => { n with m := s }
  | k + 1, s, n =>
    match cutLast isSeparator s with
    | some (s, c, tail) =>
      if c = colon then parseFrom k s { n with t := tail }
      else { n with h := (cutSlash s).1, n := (cutSlash s).2, m := tail }
    | none => { n with m := s }

def parse (s : Text) : Name :=
  if s.length > maxNameLength then {} else parseFrom s.length s {}

/-! ### The grammar -/

/-- The pattern and the length of a part: it starts with a letter, a digit or an underscore. -/
def IsPart (kind : Part) (s : Text) : Prop :=
  s.length ≤ maxLength kind ∧ ∃ c l, s = c :: l ∧ isAlphanumericOrUnderscore c = true ∧
    ∀ b ∈ l, isPartByte kind b = true

/-- A way to write a name: the host and the namespace before it, the model, and what colons follow
it. -/
structure Spelling where
  front : Option (Option Text × Text)
  model : Text
  tags : List Text

def Spelling.frontText (w : Spelling) : Text :=
  match w.front with
  | none => []
  | some (none, n) => n ++ [slash]
  | some (some h, n) => h ++ slash :: n ++ [slash]

def Spelling.text (w : Spelling) : Text :=
  w.frontText ++ w.model ++ w.tags.flatMap fun t => colon :: t

/-- The form that the documentation of `Parse` gives. -/
structure Spelling.Documented (w : Spelling) : Prop where
  partHost : ∀ h n, w.front = some (some h, n) → IsPart .partHost h
  partNamespace : ∀ h n, w.front = some (h, n) → IsPart .partNamespace n
  partModel : IsPart .partModel w.model
  partTag : ∀ t ∈ w.tags, IsPart .partTag t
  tags : w.tags.length ≤ 1

/-- The form is kept but for separators without a part: the host, the namespace or the tag is empty,
or another colon follows the tag. -/
structure Spelling.Surplus (w : Spelling) : Prop where
  partHost : ∀ h n, w.front = some (some h, n) → h = [] ∨ IsPart .partHost h
  partNamespace : ∀ h n, w.front = some (h, n) → n = [] ∨ IsPart .partNamespace n
  partModel : IsPart .partModel w.model
  partTag : ∀ t ∈ w.tags.head?, t = [] ∨ IsPart .partTag t
  cuts : ∀ t ∈ w.tags, ∀ c ∈ t, isSeparator c = false
  length : w.text.length ≤ maxNameLength
  surplus : (∃ n, w.front = some (some [], n)) ∨ (∃ h, w.front = some (h, [])) ∨
    w.tags.head? = some [] ∨ 2 ≤ w.tags.length

def Documented (s : Text) : Prop := ∃ w : Spelling, w.Documented ∧ w.text = s

def Surplus (s : Text) : Prop := ∃ w : Spelling, w.Surplus ∧ w.text = s

/-! ### What is a name -/

theorem isPart_iff {kind : Part} {s : Text} :
    IsPart kind s ↔ s ≠ [] ∧ isValidPart kind s = true := by
  cases s with
  | nil =>
    constructor
    · rintro ⟨-, c, l, h, -⟩
      cases h
    · exact fun h => absurd rfl h.1
  | cons c s =>
    simp only [IsPart, isValidPart, Bool.and_eq_true, decide_eq_true_eq, List.all_eq_true, ne_eq,
      reduceCtorEq, not_false_eq_true, true_and, List.cons.injEq]
    constructor
    · rintro ⟨hlen, c', l, ⟨rfl, rfl⟩, hc, hl⟩
      exact ⟨hlen, hc, hl⟩
    · rintro ⟨hlen, hc, hl⟩
      exact ⟨hlen, c, s, ⟨rfl, rfl⟩, hc, hl⟩

theorem Name.isValid_iff {n : Name} : n.isValid = true ↔
    (n.h = [] ∨ IsPart .partHost n.h) ∧ (n.n = [] ∨ IsPart .partNamespace n.n) ∧
      (n.t = [] ∨ IsPart .partTag n.t) ∧ IsPart .partModel n.m := by
  have hpart : ∀ kind s, (s = [] ∨ isValidPart kind s = true) ↔ s = [] ∨ IsPart kind s := by
    intro kind s
    rw [isPart_iff]
    tauto
  simp only [Name.isValid, Bool.and_eq_true, Bool.or_eq_true, decide_eq_true_eq, hpart,
    isPart_iff (s := n.m), and_assoc]

theorem not_slash_of_alphanumeric {c : UInt8} (h : isAlphanumericOrUnderscore c = true) :
    isSeparator c = false := by
  rw [Bool.eq_false_iff]
  intro hsep
  simp only [isSeparator, Bool.or_eq_true, decide_eq_true_eq] at hsep
  rcases hsep with rfl | rfl
  · exact absurd h (by decide)
  · exact absurd h (by decide)

/-- A part has no slash, and a colon only if it is a host. -/
theorem IsPart.clear {kind : Part} {s : Text} (h : IsPart kind s) :
    ∀ c ∈ s, isSlash c = false ∧ (kind ≠ .partHost → isSeparator c = false) := by
  obtain ⟨-, a, l, rfl, ha, hl⟩ := h
  have hslash : ∀ c, isSeparator c = false → isSlash c = false := by
    intro c hc
    simp only [isSeparator, Bool.or_eq_false_iff] at hc
    exact hc.1
  intro c hc
  rcases List.mem_cons.mp hc with rfl | hc
  · have := not_slash_of_alphanumeric ha
    exact ⟨hslash c this, fun _ => this⟩
  · have hbyte := hl c hc
    constructor
    · rw [Bool.eq_false_iff]
      intro h
      obtain rfl : c = slash := by simpa [isSlash] using h
      revert hbyte
      cases kind <;> decide
    · intro hkind
      rw [Bool.eq_false_iff]
      intro hsep
      simp only [isSeparator, Bool.or_eq_true, decide_eq_true_eq] at hsep
      rcases hsep with rfl | rfl
      · revert hbyte
        cases kind <;> decide
      · revert hbyte hkind
        cases kind <;> decide

/-! ### What is parsed -/

namespace Spelling

def host (w : Spelling) : Text :=
  match w.front with
  | some (some h, _) => h
  | _ => []

def space (w : Spelling) : Text :=
  match w.front with
  | some (_, n) => n
  | none => []

def tag (w : Spelling) : Text := w.tags.head?.getD []

/-- Where the separators are is where the string is cut. -/
structure Clear (w : Spelling) : Prop where
  front : ∀ h n, w.front = some (h, n) → ∀ c ∈ n, isSlash c = false
  model : ∀ c ∈ w.model, isSeparator c = false
  tags : ∀ t ∈ w.tags, ∀ c ∈ t, isSeparator c = false

end Spelling

theorem parseFrom_clear {s : Text} (h : ∀ c ∈ s, isSeparator c = false) (k : Nat) (n : Name) :
    parseFrom k s n = { n with m := s } := by
  cases k with
  | zero => rfl
  | succ k => rw [parseFrom, cutLast_eq_none.mpr h]

theorem parseFrom_slash {m : Text} (h : ∀ c ∈ m, isSeparator c = false) (k : Nat) (s : Text)
    (n : Name) : parseFrom (k + 1) (s ++ slash :: m) n =
      { n with h := (cutSlash s).1, n := (cutSlash s).2, m } := by
  rw [parseFrom, cutLast_append (by decide) h]
  exact if_neg (by decide)

theorem parseFrom_tags {tags : List Text} (h : ∀ t ∈ tags, ∀ c ∈ t, isSeparator c = false)
    (s : Text) (n : Name) {k : Nat}
    (hk : (s ++ tags.flatMap fun t => colon :: t).length ≤ k) :
    ∃ k', s.length ≤ k' ∧ parseFrom k (s ++ tags.flatMap fun t => colon :: t) n =
      parseFrom k' s { n with t := tags.head?.getD n.t } := by
  induction tags using List.reverseRecOn generalizing n k with
  | nil => exact ⟨k, by simpa using hk, by simp⟩
  | append_singleton tags t ih =>
    have ht : ∀ c ∈ t, isSeparator c = false := h t (by simp)
    have htags : ∀ t ∈ tags, ∀ c ∈ t, isSeparator c = false := fun t ht => h t (by simp [ht])
    have htext : s ++ (tags ++ [t]).flatMap (fun t => colon :: t) =
        (s ++ tags.flatMap fun t => colon :: t) ++ colon :: t := by simp
    rw [htext] at hk ⊢
    rw [List.length_append, List.length_cons] at hk
    obtain ⟨k, rfl⟩ : ∃ k', k = k' + 1 := ⟨k - 1, by omega⟩
    obtain ⟨k', hk', heq⟩ := ih htags { n with t } (k := k) (by omega)
    refine ⟨k', hk', ?_⟩
    rw [parseFrom, cutLast_append (by decide) ht]
    refine (if_pos rfl).trans (heq.trans ?_)
    cases tags <;> rfl

namespace Spelling

variable {w : Spelling}

theorem Clear.parse (h : w.Clear) (hlen : w.text.length ≤ maxNameLength) :
    parse w.text = ⟨w.host, w.space, w.model, w.tag⟩ := by
  rw [Names.parse, if_neg (by omega)]
  have htext : w.text = (w.frontText ++ w.model) ++ w.tags.flatMap fun t => colon :: t := rfl
  obtain ⟨k, hk, heq⟩ := parseFrom_tags h.tags (w.frontText ++ w.model) {}
    (k := w.text.length) (by rw [← htext])
  rw [← htext] at heq
  rw [heq]
  unfold frontText at hk ⊢
  unfold host space tag
  cases hfront : w.front with
  | none =>
    rw [hfront] at hk
    exact parseFrom_clear h.model k _
  | some front =>
    rw [hfront] at hk
    obtain ⟨host, n⟩ := front
    cases host with
    | none =>
      obtain ⟨k, rfl⟩ : ∃ k', k = k' + 1 := ⟨k - 1, by simp at hk; omega⟩
      have hn : cutLast isSlash n = none := cutLast_eq_none.mpr (h.front none n hfront)
      have hsplit : n ++ [slash] ++ w.model = n ++ slash :: w.model := by simp
      dsimp only
      rw [hsplit, parseFrom_slash h.model, cutSlash, hn]
    | some host =>
      obtain ⟨k, rfl⟩ : ∃ k', k = k' + 1 := ⟨k - 1, by simp at hk; omega⟩
      have hn : cutLast isSlash (host ++ slash :: n) = some (host, slash, n) :=
        cutLast_append (by decide) (h.front (some host) n hfront) host
      have hsplit : host ++ slash :: n ++ [slash] ++ w.model =
          (host ++ slash :: n) ++ slash :: w.model := by simp
      dsimp only
      rw [hsplit, parseFrom_slash h.model, cutSlash, hn]

/-- Every string is some name's spelling. -/
theorem exists_text (s : Text) : ∃ w : Spelling, w.Clear ∧ w.text = s := by
  induction hlen : s.length using Nat.strong_induction_on generalizing s with
  | _ len ih =>
    cases hcut : cutLast isSeparator s with
    | none =>
      refine ⟨⟨none, s, []⟩, ⟨nofun, cutLast_eq_none.mp hcut, nofun⟩, ?_⟩
      simp [text, frontText]
    | some r =>
      obtain ⟨before, c, after⟩ := r
      obtain ⟨rfl, hc, hafter⟩ := cutLast_eq_some.mp hcut
      simp only [isSeparator, Bool.or_eq_true, decide_eq_true_eq] at hc
      rcases hc with rfl | rfl
      · cases hslash : cutLast isSlash before with
        | none =>
          refine ⟨⟨some (none, before), after, []⟩, ⟨?_, hafter, nofun⟩, ?_⟩
          · rintro h n heq
            cases heq
            exact cutLast_eq_none.mp hslash
          · simp [text, frontText]
        | some r =>
          obtain ⟨h, c, n⟩ := r
          obtain ⟨rfl, hc, hn⟩ := cutLast_eq_some.mp hslash
          obtain rfl : c = slash := by simpa [isSlash] using hc
          refine ⟨⟨some (some h, n), after, []⟩, ⟨?_, hafter, nofun⟩, ?_⟩
          · rintro h' n' heq
            cases heq
            exact hn
          · simp [text, frontText]
      · rw [List.length_append, List.length_cons] at hlen
        obtain ⟨w, hw, rfl⟩ := ih before.length (by omega) before rfl
        refine ⟨{ w with tags := w.tags ++ [after] }, ⟨hw.front, hw.model, ?_⟩, ?_⟩
        · intro t ht
          rcases List.mem_append.mp ht with ht | ht
          · exact hw.tags t ht
          · exact List.mem_singleton.mp ht ▸ hafter
        · simp [text, frontText]

/-! ### What is documented -/

theorem Documented.clear (h : w.Documented) : w.Clear where
  front host n heq c hc := ((h.partNamespace host n heq).clear c hc).1
  model c hc := (h.partModel.clear c hc).2 (by decide)
  tags t ht c hc := ((h.partTag t ht).clear c hc).2 (by decide)

theorem length_frontText : w.frontText.length =
    match w.front with
    | none => 0
    | some (none, n) => n.length + 1
    | some (some h, n) => h.length + 1 + (n.length + 1) := by
  obtain ⟨_ | ⟨_ | h, n⟩, m, tags⟩ := w
  · rfl
  · simp [frontText]
  · simp +arith [frontText]

theorem Documented.length_le (h : w.Documented) : w.text.length ≤ maxNameLength := by
  have hmodel : w.model.length ≤ 80 := h.partModel.1
  have hfront : w.frontText.length ≤ 350 + 1 + (80 + 1) := by
    rw [length_frontText]
    split
    · omega
    · rename_i n heq
      have : n.length ≤ 80 := (h.partNamespace _ _ heq).1
      omega
    · rename_i host n heq
      have : n.length ≤ 80 := (h.partNamespace _ _ heq).1
      have : host.length ≤ 350 := (h.partHost _ _ heq).1
      omega
  have htags : (w.tags.flatMap fun t => colon :: t).length ≤ 1 + 80 := by
    have hone := h.tags
    have hpart := h.partTag
    cases htags : w.tags with
    | nil => simp
    | cons t rest =>
      rw [htags] at hone hpart
      obtain rfl : rest = [] := by simpa using hone
      have : t.length ≤ 80 := (hpart t (by simp)).1
      rw [List.flatMap_singleton, List.length_cons]
      omega
  rw [text, List.length_append, List.length_append, maxNameLength]
  omega

theorem Documented.toText (h : w.Documented) :
    Name.toText ⟨w.host, w.space, w.model, w.tag⟩ = w.text := by
  have hne : ∀ kind s, IsPart kind s → s ≠ [] := fun kind s hs => (isPart_iff.mp hs).1
  have htag : (if w.tag = [] then [] else colon :: w.tag) = w.tags.flatMap fun t => colon :: t := by
    have hone := h.tags
    have hpart := h.partTag
    unfold tag
    cases htags : w.tags with
    | nil => rfl
    | cons t rest =>
      rw [htags] at hone hpart
      obtain rfl : rest = [] := by simpa using hone
      have := hne _ t (hpart t (by simp))
      simp [this]
  simp only [Name.toText, htag, text]
  congr 2
  unfold host space frontText
  cases hfront : w.front with
  | none => rfl
  | some front =>
    obtain ⟨host, n⟩ := front
    have hn := hne _ n (h.partNamespace host n hfront)
    cases host with
    | none => simp [hn]
    | some host =>
      have hh := hne _ host (h.partHost host n hfront)
      simp [hn, hh]

theorem Documented.valid (h : w.Documented) :
    (Name.mk w.host w.space w.model w.tag).isValid = true := by
  refine Name.isValid_iff.mpr ⟨?_, ?_, ?_, h.partModel⟩
  · unfold host
    split
    · rename_i heq
      exact .inr (h.partHost _ _ heq)
    · exact .inl rfl
  · unfold space
    split
    · rename_i heq
      exact .inr (h.partNamespace _ _ heq)
    · exact .inl rfl
  · unfold tag
    have hpart := h.partTag
    cases htags : w.tags with
    | nil => exact .inl rfl
    | cons t rest =>
      rw [htags] at hpart
      exact .inr (hpart t (by simp))

/-! ### What is accepted and not documented -/

theorem Surplus.clear (h : w.Surplus) : w.Clear where
  front host n heq c hc := by
    rcases h.partNamespace host n heq with rfl | hn
    · cases hc
    · exact (hn.clear c hc).1
  model c hc := (h.partModel.clear c hc).2 (by decide)
  tags := h.cuts

theorem Surplus.valid (h : w.Surplus) :
    (Name.mk w.host w.space w.model w.tag).isValid = true := by
  refine Name.isValid_iff.mpr ⟨?_, ?_, ?_, h.partModel⟩
  · unfold host
    split
    · rename_i heq
      exact h.partHost _ _ heq
    · exact .inl rfl
  · unfold space
    split
    · rename_i heq
      exact h.partNamespace _ _ heq
    · exact .inl rfl
  · unfold tag
    have htag := h.partTag
    cases htags : w.tags.head? with
    | none => exact .inl rfl
    | some t =>
      rw [htags] at htag
      exact htag t rfl

/-- What a part and its separator take when the name is written again. -/
theorem length_written (part : Text) (c : UInt8) :
    (if part = [] then [] else part ++ [c]).length ≤ part.length + 1 ∧
      (part = [] → (if part = [] then [] else part ++ [c]).length < part.length + 1) := by
  split
  · rename_i h
    exact ⟨Nat.zero_le _, fun _ => Nat.succ_pos _⟩
  · rename_i h
    exact ⟨by simp, fun hnil => absurd hnil h⟩

/-- Without the surplus separators the name is shorter. -/
theorem Surplus.toText_ne (h : w.Surplus) :
    Name.toText ⟨w.host, w.space, w.model, w.tag⟩ ≠ w.text := by
  suffices (Name.toText ⟨w.host, w.space, w.model, w.tag⟩).length < w.text.length by
    intro heq
    rw [heq] at this
    exact Nat.lt_irrefl _ this
  have hfront : (if w.host = [] then [] else w.host ++ [slash]).length +
      (if w.space = [] then [] else w.space ++ [slash]).length ≤ w.frontText.length ∧
        ((∃ n, w.front = some (some [], n)) ∨ (∃ h, w.front = some (h, [])) →
          (if w.host = [] then [] else w.host ++ [slash]).length +
            (if w.space = [] then [] else w.space ++ [slash]).length < w.frontText.length) := by
    rw [length_frontText]
    unfold host space
    cases hfront : w.front with
    | none => simp
    | some front =>
      obtain ⟨host, n⟩ := front
      obtain ⟨hn, hn'⟩ := length_written n slash
      cases host with
      | none =>
        dsimp only
        refine ⟨by simpa using hn, ?_⟩
        rintro (⟨n', heq⟩ | ⟨h', heq⟩)
        · cases heq
        · cases heq
          simp
      | some host =>
        obtain ⟨hh, hh'⟩ := length_written host slash
        dsimp only
        refine ⟨Nat.add_le_add hh hn, ?_⟩
        rintro (⟨n', heq⟩ | ⟨h', heq⟩)
        · cases heq
          exact Nat.add_lt_add_of_lt_of_le (hh' rfl) hn
        · cases heq
          exact Nat.add_lt_add_of_le_of_lt hh (hn' rfl)
  have htags : (if w.tag = [] then [] else colon :: w.tag).length ≤
      (w.tags.flatMap fun t => colon :: t).length ∧
        (w.tags.head? = some [] ∨ 2 ≤ w.tags.length →
          (if w.tag = [] then [] else colon :: w.tag).length <
            (w.tags.flatMap fun t => colon :: t).length) := by
    unfold tag
    cases htags : w.tags with
    | nil => simp
    | cons t rest =>
      rw [List.flatMap_cons, List.length_append, List.head?_cons, Option.getD_some]
      have hrest : 2 ≤ (t :: rest).length → 0 < (rest.flatMap fun t => colon :: t).length := by
        cases rest with
        | nil => simp
        | cons t' rest => simp
      split
      · simp
      · rename_i hne
        refine ⟨Nat.le_add_right _ _, ?_⟩
        rintro (hnil | htwo)
        · exact absurd (Option.some.inj hnil) hne
        · exact Nat.lt_add_of_pos_right (hrest htwo)
  have hsurplus := h.surplus
  simp only [Name.toText, text, List.length_append] at hfront htags ⊢
  rcases hsurplus with hhost | hspace | hsurplus
  · have := hfront.2 (.inl hhost)
    omega
  · have := hfront.2 (.inr hspace)
    omega
  · have := htags.2 hsurplus
    omega

/-- A name that is accepted has the documented form, or separators too many. -/
theorem Clear.documented_or_surplus (h : w.Clear) (hlen : w.text.length ≤ maxNameLength)
    (valid : (Name.mk w.host w.space w.model w.tag).isValid = true) :
    w.Documented ∨ w.Surplus := by
  obtain ⟨hhost, hspace, htag, hmodel⟩ := Name.isValid_iff.mp valid
  have partHost : ∀ h n, w.front = some (some h, n) → h = [] ∨ IsPart .partHost h := by
    intro host n heq
    simpa only [Spelling.host, heq] using hhost
  have partNamespace : ∀ h n, w.front = some (h, n) → n = [] ∨ IsPart .partNamespace n := by
    intro host n heq
    simpa only [Spelling.space, heq] using hspace
  have partTag : ∀ t ∈ w.tags.head?, t = [] ∨ IsPart .partTag t := by
    intro t ht
    simpa only [Spelling.tag, Option.mem_def.mp ht, Option.getD_some] using htag
  by_cases hsurplus : (∃ n, w.front = some (some [], n)) ∨ (∃ h, w.front = some (h, [])) ∨
      w.tags.head? = some [] ∨ 2 ≤ w.tags.length
  · exact .inr ⟨partHost, partNamespace, hmodel, partTag, h.tags, hlen, hsurplus⟩
  · simp only [not_or, not_exists] at hsurplus
    obtain ⟨hnoHost, hnoSpace, hnoTag, hone⟩ := hsurplus
    refine .inl ⟨?_, ?_, hmodel, ?_, by omega⟩
    · intro host n heq
      exact (partHost host n heq).resolve_left fun hnil => hnoHost n (hnil ▸ heq)
    · intro host n heq
      exact (partNamespace host n heq).resolve_left fun hnil => hnoSpace host (hnil ▸ heq)
    · intro t ht
      have hhead : w.tags.head? = some t := by
        cases htags : w.tags with
        | nil =>
          rw [htags] at ht
          cases ht
        | cons a rest =>
          rw [htags] at ht hone
          obtain rfl : rest = [] := by
            cases rest with
            | nil => rfl
            | cons b rest => exact absurd (by simp) hone
          rw [List.mem_singleton.mp ht]
          rfl
      exact (partTag t hhead).resolve_left fun hnil => hnoTag (hnil ▸ hhead)

end Spelling

/-- Without surplus separators the documented strings are the accepted ones, each the text of the
name that it is parsed to. -/
theorem parse_documented (s : Text) :
    (¬ Surplus s ↔ ((parse s).isValid = true ↔ Documented s) ∧
      ((parse s).isValid = true → (parse s).toText = s)) ∧
    ∀ s', ¬ Surplus s → ¬ Surplus s' → (parse s).isValid = true → parse s = parse s' → s = s' := by
  have documented : ∀ s, Documented s → (parse s).isValid = true ∧ (parse s).toText = s := by
    rintro _ ⟨w, hw, rfl⟩
    rw [hw.clear.parse hw.length_le]
    exact ⟨hw.valid, hw.toText⟩
  have accepted : ∀ s, (parse s).isValid = true → Documented s ∨ Surplus s := by
    intro s hvalid
    obtain ⟨w, hw, rfl⟩ := Spelling.exists_text s
    have hlen : w.text.length ≤ maxNameLength := by
      by_contra hlong
      rw [parse, if_pos (by omega)] at hvalid
      exact absurd hvalid (by decide)
    rw [hw.parse hlen] at hvalid
    exact (hw.documented_or_surplus hlen hvalid).imp (⟨w, ·, rfl⟩) (⟨w, ·, rfl⟩)
  have keep : ∀ s, ¬ Surplus s → (parse s).isValid = true → (parse s).toText = s :=
    fun s hs hvalid => (documented s ((accepted s hvalid).resolve_right hs)).2
  refine ⟨⟨fun hs => ⟨⟨fun hvalid => (accepted s hvalid).resolve_right hs,
    fun h => (documented s h).1⟩, keep s hs⟩, ?_⟩, ?_⟩
  · rintro ⟨-, htext⟩ ⟨w, hw, rfl⟩
    rw [hw.clear.parse hw.length] at htext
    exact hw.toText_ne (htext hw.valid)
  · intro s' hs hs' hvalid heq
    rw [← keep s hs hvalid, heq]
    exact keep s' hs' (heq ▸ hvalid)

theorem second_tag_dropped : ¬ ∀ s, ((parse s).isValid = true ↔ Documented s) ∧
    ((parse s).isValid = true → (parse s).toText = s) := by
  intro h
  exact absurd ((h (ascii "m:a:b")).2 (by decide)) (by decide)

end Ecco9.Names
