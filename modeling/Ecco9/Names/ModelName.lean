import Ecco9.Library.Trim
import Ecco9.Library.Paths
import Ecco9.Library.Search
import Ecco9.Library.Chars
import Ecco9.Names.Parse

/-! Model names of `types/model/name.go`. -/

namespace Ecco9.ModelName

open Ecco9.Library
open Ecco9.Names (isAlphanumericOrUnderscore slash colon)

def missingPart : Text := ascii "!MISSING!"

def defaultHost : Text := ascii "registry.ollama.ai"

def defaultNamespace : Text := ascii "library"

def defaultTag : Text := ascii "latest"

inductive PartKind
  | kindHost
  | kindNamespace
  | kindModel
  | kindTag
  | kindDigest
  deriving DecidableEq

structure Name where
  host : Text := []
  ns : Text := []
  model : Text := []
  tag : Text := []
  deriving DecidableEq

def defaultName : Name := { host := defaultHost, ns := defaultNamespace, tag := defaultTag }

/-! ### Valid parts -/

def isValidLen (kind : PartKind) (s : Text) : Bool :=
  match kind with
  | .kindHost => s.length ≥ 1 && s.length ≤ 350
  | _ => s.length ≥ 1 && s.length ≤ 80

def isPartByte (kind : PartKind) (c : UInt8) : Bool :=
  if c = 95 ∨ c = 45 then true
  else if c = 46 then kind ≠ .kindNamespace
  else if c = colon then kind = .kindHost || kind = .kindDigest
  else isAlphanumericOrUnderscore c

/-- The loop goes over runes, but a byte that starts a longer one is refused. -/
def isValidPart (kind : PartKind) (s : Text) : Bool :=
  isValidLen kind s &&
    match s with
    | [] => true
    | c :: s => isAlphanumericOrUnderscore c && s.all (isPartByte kind)

def Name.isFullyQualified (n : Name) : Bool :=
  isValidPart .kindHost n.host && isValidPart .kindNamespace n.ns && isValidPart .kindModel n.model &&
    isValidPart .kindTag n.tag

/-! ### Parsing -/

/-- `strings.LastIndex` of one byte -/
def lastIndex (s : Text) (sep : UInt8) : Int :=
  match Library.cutLast (· = sep) s with
  | some (before, _, _) => before.length
  | none => -1

def cutLast (s : Text) (sep : UInt8) : Text × Text × Bool :=
  match Library.cutLast (· = sep) s with
  | some (before, _, after) => (before, after, true)
  | none => (s, [], false)

/-- `cmp.Or` -/
def or (a b : Text) : Text := if a = [] then b else a

def cutPromised (s : Text) (sep : UInt8) : Text × Text × Bool :=
  match cutLast s sep with
  | (before, after, true) => (or before missingPart, or after missingPart, true)
  | (before, after, false) => (before, after, false)

/-- The host, after the scheme if there is one. -/
def cutScheme (s : Text) : Text :=
  match cut (ascii "://") s with
  | some (_, host) => host
  | none => s

def parseNameBare (s : Text) : Name :=
  let (s, tag) :=
    if lastIndex s colon > lastIndex s slash then
      let (before, tag, _) := cutPromised s colon
      (before, tag)
    else (s, [])
  match cutPromised s slash with
  | (s, _, false) => { model := s, tag }
  | (s, model, true) =>
    match cutPromised s slash with
    | (s, _, false) => { ns := s, model, tag }
    | (s, ns, true) => { host := cutScheme s, ns, model, tag }

def merge (a b : Name) : Name :=
  { a with host := or a.host b.host, ns := or a.ns b.ns, tag := or a.tag b.tag }

def parseName (s : Text) : Name := merge (parseNameBare s) defaultName

def parseNameFromFilepath (s : Text) : Name :=
  match s.splitOn pathSeparator with
  | [host, ns, model, tag] =>
    let n : Name := { host, ns, model, tag }
    if n.isFullyQualified then n else {}
  | _ => {}

/-! ### Printing -/

/-- The rune that `strings.EqualFold` has for all that fold to an ASCII letter. Of the others none is
in a part that is valid. -/
def foldRune (r : Nat) : Nat :=
  if 65 ≤ r ∧ r ≤ 90 then r + 32 else if r = 0x17F then 115 else if r = 0x212A then 107 else r

def equalFold (s t : Text) : Bool := (runes s).map foldRune = (runes t).map foldRune

namespace Name

def toText (n : Name) : Text :=
  (if n.host = [] then [] else n.host ++ [slash]) ++ (if n.ns = [] then [] else n.ns ++ [slash]) ++
    n.model ++ if n.tag = [] then [] else colon :: n.tag

def displayShortest (n : Name) : Text :=
  (if !equalFold n.host defaultHost then n.host ++ slash :: n.ns ++ [slash]
    else if !equalFold n.ns defaultNamespace then n.ns ++ [slash]
    else []) ++ n.model ++ colon :: n.tag

/-- `none` where it panics. -/
def filepath (n : Name) : Option Text :=
  if n.isFullyQualified then some (joinPath [n.host, n.ns, n.model, n.tag]) else none

def equalFold (n o : Name) : Bool :=
  ModelName.equalFold n.host o.host && ModelName.equalFold n.ns o.ns &&
    ModelName.equalFold n.model o.model && ModelName.equalFold n.tag o.tag

end Name

/-! ### What a valid part is -/

structure IsPart (kind : PartKind) (s : Text) : Prop where
  ne_nil : s ≠ []
  slash : slash ∉ s
  colon : kind ≠ .kindHost → kind ≠ .kindDigest → colon ∉ s
  head : ∀ c ∈ s.head?, isAlphanumericOrUnderscore c = true

theorem isPart_of_valid {kind : PartKind} {s : Text} (h : isValidPart kind s = true) :
    IsPart kind s := by
  cases s with
  | nil => cases kind <;> exact absurd h (by decide)
  | cons c s =>
    simp only [isValidPart, Bool.and_eq_true, List.all_eq_true] at h
    obtain ⟨-, hc, hs⟩ := h
    refine ⟨List.cons_ne_nil c s, ?_, ?_, ?_⟩
    · intro hmem
      rcases List.mem_cons.mp hmem with rfl | hmem
      · exact absurd hc (by decide)
      · have := hs _ hmem
        revert this
        cases kind <;> decide
    · intro hhost hdigest hmem
      rcases List.mem_cons.mp hmem with rfl | hmem
      · exact absurd hc (by decide)
      · have := hs _ hmem
        revert this hhost hdigest
        cases kind <;> decide
    · intro a ha
      cases ha
      exact hc

theorem IsPart.pathElem {kind : PartKind} {s : Text} (h : IsPart kind s) : IsPathElem s where
  ne_nil := h.ne_nil
  ne_dot := by
    rintro rfl
    exact absurd (h.head _ rfl) (by decide)
  ne_dots := by
    rintro rfl
    exact absurd (h.head _ rfl) (by decide)
  clear := h.slash

/-- The parts of a name that is fully qualified. -/
structure Name.Valid (n : Name) : Prop where
  host : IsPart .kindHost n.host
  ns : IsPart .kindNamespace n.ns
  model : IsPart .kindModel n.model
  tag : IsPart .kindTag n.tag

theorem Name.valid_of_fullyQualified {n : Name} (h : n.isFullyQualified = true) : n.Valid := by
  simp only [Name.isFullyQualified, Bool.and_eq_true] at h
  obtain ⟨⟨⟨hhost, hns⟩, hmodel⟩, htag⟩ := h
  exact ⟨isPart_of_valid hhost, isPart_of_valid hns, isPart_of_valid hmodel, isPart_of_valid htag⟩

/-! ### Cutting what is printed -/

theorem cutPromised_append {before after : Text} {sep : UInt8} (hbefore : before ≠ [])
    (hafter : after ≠ []) (clear : sep ∉ after) :
    cutPromised (before ++ sep :: after) sep = (before, after, true) := by
  have hcut : Library.cutLast (· = sep) (before ++ sep :: after) = some (before, sep, after) :=
    cutLast_append (by simp) (fun a ha => by
      rw [decide_eq_false_iff_not]
      rintro rfl
      exact clear ha) before
  simp only [cutPromised, cutLast, hcut, or, if_neg hbefore, if_neg hafter]

theorem cutPromised_clear {s : Text} {sep : UInt8} (clear : sep ∉ s) :
    cutPromised s sep = (s, [], false) := by
  have hcut : Library.cutLast (· = sep) s = none := cutLast_eq_none.mpr fun a ha => by
    rw [decide_eq_false_iff_not]
    rintro rfl
    exact clear ha
  simp only [cutPromised, cutLast, hcut]

theorem lastIndex_lt {s tag : Text} (hcolon : colon ∉ tag) (hslash : slash ∉ tag) :
    lastIndex (s ++ colon :: tag) colon > lastIndex (s ++ colon :: tag) slash := by
  have hcut : Library.cutLast (· = colon) (s ++ colon :: tag) = some (s, colon, tag) :=
    cutLast_append (by decide) (fun a ha => by
      rw [decide_eq_false_iff_not]
      rintro rfl
      exact hcolon ha) s
  have hindex : lastIndex (s ++ colon :: tag) colon = s.length := by rw [lastIndex, hcut]
  rw [hindex]
  unfold lastIndex
  split
  · rename_i before c after heq
    obtain ⟨happend, hc, -⟩ := cutLast_eq_some.mp heq
    obtain rfl : c = slash := by simpa using hc
    by_contra hge
    have hmem : slash ∈ colon :: tag := by
      have hget : (s ++ colon :: tag)[before.length]? = some slash := by
        rw [happend]
        simp
      rw [List.getElem?_append_right (by omega)] at hget
      exact List.mem_of_getElem? hget
    rcases List.mem_cons.mp hmem with h | h
    · exact absurd h (by decide)
    · exact hslash h
  · omega

theorem cutScheme_clear {s : Text} (h : slash ∉ s) : cutScheme s = s := by
  unfold cutScheme
  split
  · rename_i before host heq
    refine absurd ?_ h
    rw [cut_eq heq]
    simp [ascii, slash]
  · rfl

theorem parseNameBare_model {model tag : Text} (hmodel : IsPart .kindModel model)
    (htag : IsPart .kindTag tag) :
    parseNameBare (model ++ colon :: tag) = { model, tag } := by
  have hcolon := htag.colon (by decide) (by decide)
  rw [parseNameBare, if_pos (lastIndex_lt hcolon htag.slash),
    cutPromised_append hmodel.ne_nil htag.ne_nil hcolon]
  dsimp only
  rw [cutPromised_clear hmodel.slash]

theorem parseNameBare_namespace {ns model tag : Text} (hns : IsPart .kindNamespace ns)
    (hmodel : IsPart .kindModel model) (htag : IsPart .kindTag tag) :
    parseNameBare (ns ++ slash :: model ++ colon :: tag) = { ns, model, tag } := by
  have hcolon := htag.colon (by decide) (by decide)
  rw [parseNameBare, if_pos (lastIndex_lt hcolon htag.slash),
    cutPromised_append (by simp) htag.ne_nil hcolon]
  dsimp only
  rw [cutPromised_append hns.ne_nil hmodel.ne_nil hmodel.slash]
  dsimp only
  rw [cutPromised_clear hns.slash]

theorem parseNameBare_host {host ns model tag : Text} (hhost : IsPart .kindHost host)
    (hns : IsPart .kindNamespace ns) (hmodel : IsPart .kindModel model)
    (htag : IsPart .kindTag tag) :
    parseNameBare (host ++ slash :: ns ++ slash :: model ++ colon :: tag) =
      { host, ns, model, tag } := by
  have hcolon := htag.colon (by decide) (by decide)
  rw [parseNameBare, if_pos (lastIndex_lt hcolon htag.slash),
    cutPromised_append (by simp) htag.ne_nil hcolon]
  dsimp only
  rw [cutPromised_append (by simp) hmodel.ne_nil hmodel.slash]
  dsimp only
  rw [cutPromised_append hhost.ne_nil hns.ne_nil hns.slash]
  dsimp only
  rw [cutScheme_clear hhost.slash]

/-! ### Round trips -/

namespace Name

variable {n : Name}

theorem Valid.parseNameBare (h : n.Valid) : parseNameBare n.toText = n := by
  rw [toText, if_neg h.host.ne_nil, if_neg h.ns.ne_nil, if_neg h.tag.ne_nil]
  simpa using parseNameBare_host h.host h.ns h.model h.tag

theorem equalFold_refl (s : Text) : ModelName.equalFold s s = true := by simp [ModelName.equalFold]

theorem equalFold_comm (s t : Text) : ModelName.equalFold s t = ModelName.equalFold t s := by
  simp only [ModelName.equalFold, eq_comm]

theorem Valid.parseName (h : n.Valid) :
    (parseName n.displayShortest).equalFold n = true := by
  have hor : ∀ s t, s ≠ [] → ModelName.or s t = s := fun s t hs => if_neg hs
  have hnil : ∀ t, ModelName.or [] t = t := fun t => if_pos rfl
  rw [displayShortest, ModelName.parseName]
  cases hhost : ModelName.equalFold n.host defaultHost with
  | false =>
    have hparse := parseNameBare_host h.host h.ns h.model h.tag
    rw [Bool.not_false, if_pos rfl]
    simp only [List.append_assoc, List.cons_append, List.nil_append] at hparse ⊢
    rw [hparse]
    simp [merge, Name.equalFold, hor _ _ h.host.ne_nil, hor _ _ h.ns.ne_nil, hor _ _ h.tag.ne_nil,
      equalFold_refl]
  | true =>
    rw [Bool.not_true, if_neg Bool.false_ne_true]
    cases hns : ModelName.equalFold n.ns defaultNamespace with
    | false =>
      have hparse := parseNameBare_namespace h.ns h.model h.tag
      rw [Bool.not_false, if_pos rfl]
      simp only [List.append_assoc, List.cons_append, List.nil_append] at hparse ⊢
      rw [hparse]
      simp [merge, Name.equalFold, defaultName, hnil, hor _ _ h.ns.ne_nil, hor _ _ h.tag.ne_nil,
        equalFold_refl, equalFold_comm defaultHost, hhost]
    | true =>
      rw [Bool.not_true, if_neg Bool.false_ne_true, List.nil_append,
        parseNameBare_model h.model h.tag]
      simp [merge, Name.equalFold, defaultName, hnil, hor _ _ h.tag.ne_nil, equalFold_refl,
        equalFold_comm defaultHost, equalFold_comm defaultNamespace, hhost, hns]

theorem Valid.parseNameFromFilepath (h : n.Valid) (qualified : n.isFullyQualified = true) :
    ∃ path, n.filepath = some path ∧ parseNameFromFilepath path = n := by
  have helems : ∀ s ∈ [n.host, n.ns, n.model, n.tag], IsPathElem s := by
    simp only [List.forall_mem_cons, List.not_mem_nil, false_imp_iff, implies_true, and_true]
    exact ⟨h.host.pathElem, h.ns.pathElem, h.model.pathElem, h.tag.pathElem⟩
  refine ⟨_, if_pos qualified, ?_⟩
  rw [ModelName.parseNameFromFilepath, joinPath_eq (by simp) helems,
    List.splitOn_intercalate _ (fun s hs => (helems s hs).clear) (by simp)]
  exact if_pos qualified

end Name

theorem name_roundTrip (n : Name) (qualified : n.isFullyQualified = true) :
    parseNameBare n.toText = n ∧
      (∃ path, n.filepath = some path ∧ parseNameFromFilepath path = n) ∧
        (parseName n.displayShortest).equalFold n = true := by
  have h := Name.valid_of_fullyQualified qualified
  exact ⟨h.parseNameBare, h.parseNameFromFilepath qualified, h.parseName⟩

def localName : Name :=
  { host := ascii "localhost:5000", ns := ascii "Library", model := ascii "m.x", tag := ascii "Q4" }

theorem localName_roundTrip : parseNameBare localName.toText = localName ∧
    (∃ path, localName.filepath = some path ∧ parseNameFromFilepath path = localName) ∧
      (parseName localName.displayShortest).equalFold localName = true :=
  name_roundTrip localName (by decide)

end Ecco9.ModelName
