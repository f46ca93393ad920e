import Ecco9.Library.Fields
import Ecco9.Library.Search
import Ecco9.Library.Substitution

/-! Pattern matching over the links of an atom space, which binds a variable to the last of the targets
that it is opposite to. -/

namespace Ecco9.AtomSpace

open Ecco9.Library

/-- A link, as far as a pattern is matched with it. -/
structure TypedLink where
  type : Text
  outgoing : List Text
  deriving DecidableEq, Repr

/-- A clause: a type of links, and ids of atoms or variables. -/
structure Clause where
  linkType : Text
  atoms : List Text
  deriving DecidableEq, Repr

structure Pattern where
  vars : Text → Bool := fun _ => false
  clauses : List Clause

structure QueryResult where
  bindings : List (Binding Text)
  count : Nat

def dollar : UInt8 := 36

namespace Pattern

variable (p : Pattern)

def isVariable (patternAtom : Text) : Bool := p.vars patternAtom || patternAtom.head? == some dollar

/-- The loop over the atoms of a clause and the targets of a link. -/
def bind (binding : Binding Text) : List Text → List Text → Option (Binding Text)
  | patternAtom :: atoms, target :: outgoing =>
    if p.isVariable patternAtom then bind (Function.update binding patternAtom (some target)) atoms outgoing
    else if target ≠ patternAtom then none
    else bind binding atoms outgoing
  | _, _ => some binding

def matchLink (clause : Clause) (link : TypedLink) : Option (Binding Text) :=
  if link.type ≠ clause.linkType ∨ link.outgoing.length ≠ clause.atoms.length then none
  else p.bind (fun _ => none) clause.atoms link.outgoing

/-- `Match`, which goes over the links anew for each clause, in the order `order`. -/
def matchLinks (order : Nat → List TypedLink) : QueryResult :=
  let bindings := p.clauses.zipIdx.flatMap fun (clause, i) => (order i).filterMap (p.matchLink clause)
  { bindings, count := bindings.length }

end Pattern

/-! ### Queries -/

def parseClause (raw : Text) : Option Clause :=
  match cut (ascii "(") (trimSpace raw) with
  | none => none
  | some (linkType, args) =>
    if (trimSpace raw).getLast? = some 41 then
      some { linkType := trimSpace linkType, atoms := (args.dropLast.splitOn 44).map trimSpace }
    else none

def parsePattern (query : Text) : Pattern :=
  let clauses := (query.splitOn 59).filterMap parseClause
  { vars arg := clauses.any fun clause => clause.atoms.contains arg && arg.head? == some dollar
    clauses }

/-- In a query the variables are what begins with a dollar sign. -/
theorem isVariable_parsePattern (query a : Text) :
    (parsePattern query).isVariable a = (a.head? == some dollar) := by
  rw [Pattern.isVariable]
  cases hdollar : a.head? == some dollar with
  | true => exact Bool.or_true _
  | false =>
    simp only [parsePattern, hdollar, Bool.and_false, Bool.or_false]
    exact List.any_eq_false.mpr fun _ _ => nofun

example : (parsePattern (ascii "not a clause; InheritanceLink($x, animal)")).clauses =
    [⟨ascii "InheritanceLink", [ascii "$x", ascii "animal"]⟩] := by decide +kernel

/-! ### What is bound -/

namespace Pattern

variable {p : Pattern} {links : List TypedLink} {order : Nat → List TypedLink} {b : Binding Text}

theorem bind_eq {atoms outgoing : List Text} (binding : Binding Text)
    (hlen : atoms.length = outgoing.length) : p.bind binding atoms outgoing =
      if Agree p.isVariable atoms outgoing then
        some fun v => (lastBinding p.isVariable atoms outgoing v).or (binding v)
      else none := by
  fun_induction bind p binding atoms outgoing with
  | case1 binding a atoms target outgoing hvar ih =>
    rw [ih (Nat.succ.inj hlen)]
    simp only [agree_cons, hvar, true_or, true_and, lastBinding]
    congr 2
    funext v
    rw [Option.or_assoc]
    by_cases hv : v = a <;> simp [hv]
  | case2 binding a atoms target outgoing hvar hne =>
    rw [if_neg]
    rintro h
    exact hne ((agree_cons.mp h).1.resolve_left hvar).symm
  | case3 binding a atoms target outgoing hvar heq ih =>
    obtain rfl : target = a := not_not.mp heq
    rw [ih (Nat.succ.inj hlen)]
    simp only [agree_cons, or_true, true_and, lastBinding, hvar, false_and, if_false, Option.or_none,
      Bool.false_eq_true]
  | case4 atoms binding outgoing hcons =>
    cases atoms with
    | nil =>
      obtain rfl : outgoing = [] := List.eq_nil_of_length_eq_zero hlen.symm
      rw [if_pos agree_nil]
      rfl
    | cons a atoms =>
      cases outgoing with
      | nil => cases hlen
      | cons target outgoing => exact absurd rfl (hcons a atoms target outgoing rfl)

/-- A link has the type of a clause, and its constants in their places. -/
structure Fits (p : Pattern) (c : Clause) (l : TypedLink) : Prop where
  type : l.type = c.linkType
  agree : Agree p.isVariable c.atoms l.outgoing

theorem matchLink_eq_some {c : Clause} {l : TypedLink} :
    p.matchLink c l = some b ↔ p.Fits c l ∧ b = lastBinding p.isVariable c.atoms l.outgoing := by
  rw [matchLink]
  split
  · rename_i hne
    refine ⟨nofun, fun ⟨h, _⟩ => ?_⟩
    exact absurd hne (by simp [h.type, (agree_length h.agree).symm])
  · rename_i h
    obtain ⟨htype, hlen⟩ := not_or.mp h
    rw [bind_eq _ (not_not.mp hlen).symm, Option.ite_none_right_eq_some]
    simp only [Option.or_none, Option.some.injEq]
    exact ⟨fun ⟨agree, heq⟩ => ⟨⟨not_not.mp htype, agree⟩, heq.symm⟩, fun ⟨h, heq⟩ => ⟨h.agree, heq.symm⟩⟩

theorem mem_matchLinks (perm : ∀ i, (order i).Perm links) : b ∈ (p.matchLinks order).bindings ↔
    ∃ c ∈ p.clauses, ∃ l ∈ links, p.Fits c l ∧ b = lastBinding p.isVariable c.atoms l.outgoing := by
  simp only [matchLinks, List.mem_flatMap, List.mem_filterMap, matchLink_eq_some, Prod.exists]
  constructor
  · rintro ⟨c, i, hc, l, hl, h⟩
    exact ⟨c, List.fst_mem_of_mem_zipIdx hc, l, (perm i).mem_iff.mp hl, h⟩
  · rintro ⟨c, hc, l, hl, h⟩
    obtain ⟨i, hi⟩ := List.getElem?_of_mem hc
    exact ⟨c, i, List.mk_mem_zipIdx_iff_getElem?.mpr hi, l, (perm i).mem_iff.mpr hl, h⟩

/-- A clause of the pattern becomes a link of the space. -/
def Covers (p : Pattern) (links : List TypedLink) (b : Binding Text) : Prop :=
  ∃ c ∈ p.clauses, ∃ l ∈ links, l.type = c.linkType ∧ substitute p.isVariable b c.atoms = some l.outgoing

def Sound (p : Pattern) (links : List TypedLink) (r : QueryResult) : Prop :=
  ∀ b ∈ r.bindings, p.Covers links b

def Complete (p : Pattern) (links : List TypedLink) (r : QueryResult) : Prop :=
  ∀ c ∈ p.clauses, ∀ l ∈ links, ∀ σ, l.type = c.linkType → instantiate p.isVariable σ c.atoms = l.outgoing →
    restrict p.isVariable σ c.atoms ∈ r.bindings

/-- A link that fits a clause has one target for each variable, or else some clause becomes a link with
the last target for each. -/
def Meets (p : Pattern) (links : List TypedLink) : Prop :=
  ∀ c ∈ p.clauses, ∀ l ∈ links, p.Fits c l → Consistent p.isVariable c.atoms l.outgoing ∨
    p.Covers links (lastBinding p.isVariable c.atoms l.outgoing)

theorem complete_matchLinks (perm : ∀ i, (order i).Perm links) :
    p.Complete links (p.matchLinks order) := by
  intro c hc l hl σ htype hinstance
  refine (mem_matchLinks perm).mpr ⟨c, hc, l, hl, ⟨htype, ?_⟩, ?_⟩
  · exact hinstance ▸ agree_instantiate σ c.atoms
  · rw [← hinstance, lastBinding_instantiate]

theorem sound_iff (perm : ∀ i, (order i).Perm links) :
    p.Sound links (p.matchLinks order) ↔ p.Meets links := by
  constructor
  · intro sound c hc l hl fits
    exact .inr (sound _ ((mem_matchLinks perm).mpr ⟨c, hc, l, hl, fits, rfl⟩))
  · intro meets b hb
    obtain ⟨c, hc, l, hl, fits, rfl⟩ := (mem_matchLinks perm).mp hb
    obtain hone | hcovers := meets c hc l hl fits
    · exact ⟨c, hc, l, hl, fits.type, substitute_lastBinding fits.agree hone⟩
    · exact hcovers

/-- A query that has no variable twice in a clause gets what is asked for. -/
theorem sound_parsePattern (perm : ∀ i, (order i).Perm links) {query : Text}
    (h : ∀ c ∈ (parsePattern query).clauses, (c.atoms.filter fun a => a.head? == some dollar).Nodup) :
    (parsePattern query).Sound links ((parsePattern query).matchLinks order) := by
  refine (sound_iff perm).mpr fun c hc l _ _ => .inl ?_
  refine consistent_of_nodup ?_
  rw [funext (isVariable_parsePattern query)]
  exact h c hc

theorem sound_parsePattern_animals :
    let p := parsePattern (ascii "InheritanceLink($x, animal)")
    let links : List TypedLink := [⟨ascii "InheritanceLink", [ascii "cat", ascii "animal"]⟩]
    p.Sound links (p.matchLinks fun _ => links) :=
  sound_parsePattern (fun _ => .refl _) (by decide)

/-- What comes back are the instances of the clauses, but for a variable that is opposite to two targets. -/
theorem matchLinks_instances (perm : ∀ i, (order i).Perm links) :
    p.Complete links (p.matchLinks order) ∧
      (p.Sound links (p.matchLinks order) ∧ p.Complete links (p.matchLinks order) ↔ p.Meets links) :=
  ⟨complete_matchLinks perm, (and_iff_left (complete_matchLinks perm)).trans (sound_iff perm)⟩

theorem matchLinks_instances_animals :
    let p : Pattern := { clauses := [⟨ascii "InheritanceLink", [ascii "$x", ascii "animal"]⟩] }
    let links : List TypedLink := [⟨ascii "InheritanceLink", [ascii "cat", ascii "animal"]⟩,
      ⟨ascii "InheritanceLink", [ascii "dog", ascii "animal"]⟩]
    p.Complete links (p.matchLinks fun _ => links.reverse) ∧
      (p.Sound links (p.matchLinks fun _ => links.reverse) ∧
        p.Complete links (p.matchLinks fun _ => links.reverse) ↔ p.Meets links) :=
  matchLinks_instances fun _ => List.reverse_perm _

/-- `InheritanceLink($x, $x)` comes back with `b` for a link from `a` to `b`. -/
theorem repeated_variable : ¬∀ (p : Pattern) (links : List TypedLink) (order : Nat → List TypedLink),
    (∀ i, (order i).Perm links) →
      p.Sound links (p.matchLinks order) ∧ p.Complete links (p.matchLinks order) := by
  intro claim
  obtain ⟨sound, -⟩ := claim { clauses := [⟨ascii "InheritanceLink", [ascii "$x", ascii "$x"]⟩] }
    [⟨ascii "InheritanceLink", [ascii "a", ascii "b"]⟩] _ fun _ => .rfl
  obtain ⟨c, hc, l, hl, -, heq⟩ := sound _ ((mem_matchLinks fun _ => .rfl).mpr
    ⟨_, List.mem_singleton_self _, _, List.mem_singleton_self _, ⟨rfl, by decide⟩, rfl⟩)
  obtain rfl := List.mem_singleton.mp hc
  obtain rfl := List.mem_singleton.mp hl
  exact absurd heq (by decide)

end Pattern

end Ecco9.AtomSpace
