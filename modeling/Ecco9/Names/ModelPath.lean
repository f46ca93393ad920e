import Ecco9.Library.Replace
import Ecco9.Names.ModelName

/-! The model paths of `server/modelpath.go`, and when they are read as model names are. -/

namespace Ecco9.ModelName

open Ecco9.Library
open Ecco9.Names (slash colon)

structure ModelPath where
  protocolScheme : Text := ascii "https"
  registry : Text := defaultHost
  ns : Text := defaultNamespace
  repository : Text := []
  tag : Text := defaultTag
  deriving DecidableEq

namespace ModelPath

/-- The switch over the number of parts. -/
def ofParts (protocolScheme : Text) : List Text → ModelPath
  | [registry, ns, repository] => { protocolScheme, registry, ns, repository }
  | [ns, repository] => { protocolScheme, ns, repository }
  | [repository] => { protocolScheme, repository }
  | _ => { protocolScheme }

def cutTag (mp : ModelPath) : ModelPath :=
  match cut [colon] mp.repository with
  | some (repository, tag) => { mp with repository, tag }
  | none => mp

/-- Without a result the error is `fs.ErrNotExist`; `models` is the directory of the models. -/
def getManifestPath (models : Text) (mp : ModelPath) : Option Text := do
  let name : Name := { host := mp.registry, ns := mp.ns, model := mp.repository, tag := mp.tag }
  if name.isFullyQualified then
    return joinPath [models, ascii "manifests", ← name.filepath]
  else none

end ModelPath

def parseModelPath (name : Text) : ModelPath :=
  let (scheme, name) := (cut (ascii "://") name).getD (ascii "https", name)
  (ModelPath.ofParts scheme ((replaceAll [pathSeparator] [slash] name).splitOn slash)).cutTag

/-- The path has the parts of the name and leads to its manifest. -/
structure Agrees (models : Text) (n : Name) (mp : ModelPath) : Prop where
  host : mp.registry = n.host
  ns : mp.ns = n.ns
  model : mp.repository = n.model
  tag : mp.tag = n.tag
  manifest : ∃ path, n.filepath = some path ∧
    mp.getManifestPath models = some (joinPath [models, ascii "manifests", path])

/-- A scheme with no host behind it. -/
def EmptyHost (s : Text) : Prop := ∃ scheme rest, cut (ascii "://") s = some (scheme, slash :: rest)

/-! ### Reading a path -/

section Paths

variable {models s host ns model tag : Text} {n : Name}

theorem replaceAll_self (c : UInt8) (s : Text) : replaceAll [c] [c] s = s := by
  induction s with
  | nil => rfl
  | cons b s ih =>
    by_cases hb : b = c
    · subst hb
      calc replaceAll [b] [b] ([b] ++ s) = [b] ++ replaceAll [b] [b] s :=
            replaceAll_front (List.cons_ne_nil b []) [b] s
        _ = b :: s := by rw [ih, List.singleton_append]
    · have hfront : ∀ i < [b].length, ¬[c] <+: ([b] ++ s).drop i := by
        intro i hi h
        obtain rfl : i = 0 := Nat.lt_one_iff.mp hi
        exact hb (List.cons_prefix_cons.mp h).1.symm
      calc replaceAll [c] [c] ([b] ++ s) = [b] ++ replaceAll [c] [c] s := replaceAll_skip [c] hfront
        _ = b :: s := by rw [ih, List.singleton_append]

theorem cut_byte_none {c : UInt8} (h : c ∉ s) : cut [c] s = none := by
  cases hcut : cut [c] s with
  | none => rfl
  | some parts =>
    refine absurd ?_ h
    rw [cut_eq hcut]
    exact List.mem_append_left _ (List.mem_append_right _ List.mem_cons_self)

theorem cut_byte {c : UInt8} (h : c ∉ s) (t : Text) : cut [c] (s ++ c :: t) = some (s, t) := by
  rw [List.append_cons]
  refine cut_borderless (fun k hk hpos => ?_) (cut_byte_none h) t
  rw [List.length_singleton] at hk
  omega

/-- The tag of a name with the colon in front of it. -/
def tagText (tag : Text) : Text := if tag = [] then [] else colon :: tag

theorem slash_tagText (h : slash ∉ tag) : slash ∉ tagText tag := by
  unfold tagText
  split
  · exact List.not_mem_nil
  · rw [List.mem_cons, not_or]
    exact ⟨by decide, h⟩

theorem cutTag_tagText (mp : ModelPath) (hmodel : colon ∉ model)
    (hmp : mp.repository = model ++ tagText tag) :
    mp.cutTag = { mp with repository := model, tag := or tag mp.tag } := by
  unfold ModelPath.cutTag tagText or at *
  split at hmp
  · rename_i htag
    rw [List.append_nil] at hmp
    rw [hmp, cut_byte_none hmodel, if_pos htag, ← hmp]
  · rename_i htag
    rw [hmp, cut_byte hmodel, if_neg htag]

end Paths

/-! ### The forms of a valid name -/

/-- What is read of a name behind its tag. -/
def parseParts (s tag : Text) : Name :=
  match cutPromised s slash with
  | (s, _, false) => { model := s, tag }
  | (s, model, true) =>
    match cutPromised s slash with
    | (s, _, false) => { ns := s, model, tag }
    | (s, ns, true) => { host := cutScheme s, ns, model, tag }

section Forms

variable {s tag : Text} {sep : UInt8} {kind : PartKind}

theorem cutPromised_cases (s : Text) (sep : UInt8) : sep ∉ s ∧ cutPromised s sep = (s, [], false) ∨
    ∃ before after, s = before ++ sep :: after ∧ sep ∉ after ∧
      cutPromised s sep = (or before missingPart, or after missingPart, true) := by
  cases hcut : Library.cutLast (· = sep) s with
  | none =>
    have hclear : sep ∉ s := fun h => by simpa using cutLast_eq_none.mp hcut sep h
    exact .inl ⟨hclear, cutPromised_clear hclear⟩
  | some parts =>
    obtain ⟨before, c, after⟩ := parts
    obtain ⟨rfl, hc, hafter⟩ := cutLast_eq_some.mp hcut
    obtain rfl : c = sep := by simpa using hc
    refine .inr ⟨before, after, rfl, fun h => by simpa using hafter c h, ?_⟩
    simp only [cutPromised, cutLast, hcut]

theorem not_isPart_missingPart : ¬IsPart kind missingPart := fun h =>
  absurd (h.head 33 rfl) (by decide)

/-- A valid part has been there. -/
theorem IsPart.of_or (h : IsPart kind (or s missingPart)) : or s missingPart = s ∧ s ≠ [] := by
  unfold or at h ⊢
  split at h
  · exact absurd h not_isPart_missingPart
  · exact ⟨if_neg ‹_›, ‹_›⟩

theorem or_of_ne {a b : Text} (h : a ≠ []) : or a b = a := if_neg h

theorem or_missingPart_ne (s : Text) : or s missingPart ≠ [] := by
  unfold or
  split
  · decide
  · assumption

theorem IsPart.clear_of_or {d : Text} (h : IsPart kind (or s d)) : Names.slash ∉ s := by
  unfold or at h
  split at h
  · rename_i hs
    rw [hs]
    exact List.not_mem_nil
  · exact h.slash

/-- Where the parts of a name stand in a text that ends with `t`. -/
inductive Form (n : Name) (t : Text) : Text → Prop
  | model : n.ns = [] → n.host = [] → Form n t (n.model ++ t)
  | ns : n.ns ≠ [] → n.host = [] → Form n t (n.ns ++ slash :: (n.model ++ t))
  | host (rest : Text) : n.ns ≠ [] → rest ≠ [] → n.host = cutScheme rest →
    Form n t (rest ++ slash :: (n.ns ++ slash :: (n.model ++ t)))

theorem Form.append {n : Name} (h : Form n [] s) (t : Text) : Form n t (s ++ t) := by
  cases h with
  | model hns hhost =>
    rw [List.append_nil]
    exact .model hns hhost
  | ns hns hhost =>
    rw [List.append_nil, List.append_assoc]
    exact .ns hns hhost
  | host rest hns hrest hhost =>
    simpa using Form.host (t := t) rest hns hrest hhost

theorem parseParts_form (h : (merge (parseParts s tag) defaultName).Valid) :
    Form (parseParts s tag) [] s ∧ (parseParts s tag).tag = tag := by
  have hmodel : IsPart .kindModel (parseParts s tag).model := h.model
  have hns : IsPart .kindNamespace (or (parseParts s tag).ns defaultNamespace) := h.ns
  have hhost : IsPart .kindHost (or (parseParts s tag).host defaultHost) := h.host
  clear h
  unfold parseParts at *
  rcases cutPromised_cases s slash with ⟨-, hcut⟩ | ⟨before, model, rfl, -, hcut⟩
  · simp only [hcut] at *
    have hform := Form.model (n := { model := s, tag }) (t := []) rfl rfl
    rw [List.append_nil] at hform
    exact ⟨hform, trivial⟩
  · simp only [hcut] at *
    rcases cutPromised_cases (or before missingPart) slash with ⟨-, hcut'⟩ | ⟨rest, ns, heq, -, hcut'⟩
    · simp only [hcut'] at *
      rw [or_of_ne (or_missingPart_ne before)] at hns
      obtain ⟨hbefore, hne⟩ := hns.of_or
      have hform := Form.ns (n := { ns := before, model, tag }) (t := []) hne rfl
      rw [List.append_nil] at hform
      rw [hbefore, hmodel.of_or.1]
      exact ⟨hform, trivial⟩
    · simp only [hcut'] at *
      rw [or_of_ne (or_missingPart_ne ns)] at hns
      have hbefore : or before missingPart = before := by
        unfold or at heq ⊢
        split at heq
        · exact absurd (heq ▸ List.mem_append_right rest List.mem_cons_self) (by decide)
        · exact if_neg ‹_›
      have hrest : rest ≠ [] := by
        rintro rfl
        exact absurd hhost not_isPart_missingPart
      rw [hbefore] at heq
      rw [or_of_ne hrest, hns.of_or.1, hmodel.of_or.1, heq, List.append_assoc]
      have hform := Form.host (n := { host := cutScheme rest, ns, model, tag }) (t := []) rest
        hns.of_or.2 hrest rfl
      rw [List.append_nil] at hform
      exact ⟨hform, trivial⟩

/-- The parts of a valid name stand in its text as they are read from it. -/
theorem form_of_valid (h : (parseName s).Valid) :
    Form (parseNameBare s) (tagText (parseNameBare s).tag) s := by
  have hparts : parseNameBare s = if lastIndex s colon > lastIndex s slash then
      parseParts (cutPromised s colon).1 (cutPromised s colon).2.1 else parseParts s [] := by
    by_cases hlast : lastIndex s colon > lastIndex s slash
    · rw [parseNameBare, if_pos hlast, if_pos hlast]
      rfl
    · rw [parseNameBare, if_neg hlast, if_neg hlast]
      rfl
  rw [parseName, hparts] at h
  rw [hparts]
  split at h
  · rename_i hlast
    rw [if_pos hlast]
    rcases cutPromised_cases s colon with ⟨hclear, hcut⟩ | ⟨before, after, rfl, -, hcut⟩
    · have hindex : lastIndex s colon = -1 := by
        have hnone : Library.cutLast (· = colon) s = none := cutLast_eq_none.mpr fun a ha => by
          rw [decide_eq_false_iff_not]
          rintro rfl
          exact hclear ha
        rw [lastIndex, hnone]
      rw [hindex] at hlast
      unfold lastIndex at hlast
      split at hlast <;> omega
    · simp only [hcut] at h ⊢
      obtain ⟨hform, htag⟩ := parseParts_form h
      have htag' : IsPart .kindTag (or (or after missingPart) defaultTag) := htag ▸ h.tag
      rw [or_of_ne (or_missingPart_ne after)] at htag'
      have hbefore : or before missingPart = before := by
        by_contra hne
        have hmissing : or before missingPart = missingPart := by
          unfold or at hne ⊢
          split
          · rfl
          · exact absurd (if_neg ‹_›) hne
        rw [hmissing] at h
        exact not_isPart_missingPart h.model
      rw [hbefore] at hform htag ⊢
      rw [htag, htag'.of_or.1, tagText, if_neg htag'.of_or.2]
      rw [htag'.of_or.1] at hform
      exact hform.append (colon :: after)
  · rename_i hlast
    rw [if_neg hlast]
    obtain ⟨hform, htag⟩ := parseParts_form h
    rw [htag]
    exact hform

/-! ### Agreement -/

theorem splitOn_clear {s : Text} (h : slash ∉ s) : s.splitOn slash = [s] :=
  List.splitOnP_eq_singleton fun b hb => by
    rw [beq_eq_false_iff_ne]
    rintro rfl
    exact h hb

theorem splitOn_slash {s : Text} (h : slash ∉ s) (t : Text) :
    (s ++ slash :: t).splitOn slash = s :: t.splitOn slash := by
  have hsplit := List.splitOnP_append_cons (p := (· == slash)) s t (beq_self_eq_true slash)
  have hs : s.splitOnP (· == slash) = [s] := splitOn_clear h
  rw [hs] at hsplit
  exact hsplit

/-- A scheme has an empty part behind it. -/
theorem cut_scheme_none {s : Text} (h : [] ∉ (s.splitOn slash).tail) : cut (ascii "://") s = none := by
  cases hcut : cut (ascii "://") s with
  | none => rfl
  | some parts =>
    obtain ⟨before, after⟩ := parts
    have heq : s = (before ++ [colon]) ++ slash :: ([] ++ slash :: after) := by
      rw [cut_eq hcut, List.append_assoc, List.append_assoc]
      rfl
    have hsplit : s.splitOn slash = (before ++ [colon]).splitOn slash ++ [] :: after.splitOn slash := by
      rw [← splitOn_slash List.not_mem_nil after, heq]
      exact List.splitOnP_append_cons (p := (· == slash)) _ _ (beq_self_eq_true slash)
    refine absurd ?_ h
    have hne : (before ++ [colon]).splitOn slash ≠ [] := List.splitOnP_ne_nil _ _
    rw [hsplit, List.tail_append_of_ne_nil hne]
    exact List.mem_append_right _ List.mem_cons_self

theorem parseModelPath_of_none {s : Text} (h : cut (ascii "://") s = none) :
    parseModelPath s = (ModelPath.ofParts (ascii "https") (s.splitOn slash)).cutTag := by
  rw [parseModelPath, h]
  exact congrArg (fun t => (ModelPath.ofParts _ (List.splitOn slash t)).cutTag) (replaceAll_self slash s)

theorem parseModelPath_of_some {s scheme rest : Text} (h : cut (ascii "://") s = some (scheme, rest)) :
    parseModelPath s = (ModelPath.ofParts scheme (rest.splitOn slash)).cutTag := by
  rw [parseModelPath, h]
  exact congrArg (fun t => (ModelPath.ofParts _ (List.splitOn slash t)).cutTag)
    (replaceAll_self slash rest)

theorem empty_none {s : Text} (h : cut (ascii "://") s = none) : ¬EmptyHost s := by
  rintro ⟨scheme, rest, hcut⟩
  rw [h] at hcut
  exact absurd hcut (Option.some_ne_none _).symm

theorem emptyHost_iff {s scheme host t : Text} (h : cut (ascii "://") s = some (scheme, host ++ slash :: t))
    (clear : slash ∉ host) : EmptyHost s ↔ host = [] := by
  constructor
  · rintro ⟨scheme', after, hafter⟩
    rw [h, Option.some.injEq, Prod.mk.injEq] at hafter
    cases host with
    | nil => rfl
    | cons b host =>
      obtain ⟨rfl, -⟩ := List.cons.inj hafter.2
      exact absurd List.mem_cons_self clear
  · rintro rfl
    exact ⟨scheme, t, h⟩

theorem agrees_iff {models : Text} {n : Name} (qualified : n.isFullyQualified = true) {mp : ModelPath}
    (hns : mp.ns = n.ns) (hmodel : mp.repository = n.model) (htag : mp.tag = n.tag) :
    Agrees models n mp ↔ mp.registry = n.host := by
  refine ⟨fun h => h.host, fun hhost => ⟨hhost, hns, hmodel, htag, _, if_pos qualified, ?_⟩⟩
  rw [ModelPath.getManifestPath, hhost, hns, hmodel, htag, if_pos qualified, Name.filepath,
    if_pos qualified]
  rfl

/-- On every valid name the two parsers agree, unless there is a scheme with no host behind it. -/
theorem parseModelPath_agrees (models s : Text) (valid : (parseName s).isFullyQualified = true) :
    Agrees models (parseName s) (parseModelPath s) ↔ ¬EmptyHost s := by
  have h := Name.valid_of_fullyQualified valid
  have hform := form_of_valid h
  rw [parseName] at valid h ⊢
  generalize parseNameBare s = n at valid h hform ⊢
  have hclear : slash ∉ n.model ++ tagText n.tag := by
    rw [List.mem_append, not_or]
    exact ⟨h.model.slash, slash_tagText (IsPart.clear_of_or h.tag)⟩
  have hne : n.model ++ tagText n.tag ≠ [] := List.append_ne_nil_of_left_ne_nil h.model.ne_nil _
  have hcutTag (mp : ModelPath) (hmp : mp.repository = n.model ++ tagText n.tag) :=
    cutTag_tagText mp (h.model.colon (by decide) (by decide)) hmp
  cases hform with
  | model hns hhost =>
    have hsplit := splitOn_clear hclear
    have hcut : cut (ascii "://") (n.model ++ tagText n.tag) = none := by
      refine cut_scheme_none ?_
      rw [hsplit]
      exact List.not_mem_nil
    rw [parseModelPath_of_none hcut, hsplit, hcutTag _ rfl]
    refine iff_of_true ((agrees_iff valid ?_ rfl rfl).mpr ?_) ?_
    · exact (congrArg (or · defaultNamespace) hns).symm
    · exact (congrArg (or · defaultHost) hhost).symm
    · exact empty_none hcut
  | ns hns hhost =>
    have hslash : slash ∉ n.ns := IsPart.clear_of_or h.ns
    have hsplit : (n.ns ++ slash :: (n.model ++ tagText n.tag)).splitOn slash =
        [n.ns, n.model ++ tagText n.tag] := by
      rw [splitOn_slash hslash, splitOn_clear hclear]
    have hcut : cut (ascii "://") (n.ns ++ slash :: (n.model ++ tagText n.tag)) = none := by
      refine cut_scheme_none ?_
      rw [hsplit]
      simpa using hne
    rw [parseModelPath_of_none hcut, hsplit, hcutTag _ rfl]
    refine iff_of_true ((agrees_iff valid ?_ rfl rfl).mpr ?_) ?_
    · exact (or_of_ne hns).symm
    · exact (congrArg (or · defaultHost) hhost).symm
    · exact empty_none hcut
  | host rest hns hrest hhost =>
    have hslash : slash ∉ n.ns := IsPart.clear_of_or h.ns
    have hhostClear : slash ∉ n.host := IsPart.clear_of_or h.host
    have hsplit : (n.host ++ slash :: (n.ns ++ slash :: (n.model ++ tagText n.tag))).splitOn slash =
        [n.host, n.ns, n.model ++ tagText n.tag] := by
      rw [splitOn_slash hhostClear, splitOn_slash hslash, splitOn_clear hclear]
    cases hcut : cut (ascii "://") rest with
    | none =>
      obtain rfl : rest = n.host := by rw [hhost, cutScheme, hcut]
      have hwhole : cut (ascii "://") (n.host ++ slash :: (n.ns ++ slash :: (n.model ++ tagText n.tag))) =
          none := by
        refine cut_scheme_none ?_
        rw [hsplit]
        simpa [hns] using hne
      rw [parseModelPath_of_none hwhole, hsplit, hcutTag _ rfl]
      refine iff_of_true ((agrees_iff valid ?_ rfl rfl).mpr ?_) (empty_none hwhole)
      · exact (or_of_ne hns).symm
      · exact (or_of_ne hrest).symm
    | some parts =>
      obtain ⟨scheme, host⟩ := parts
      obtain rfl : host = n.host := by rw [hhost, cutScheme, hcut]
      have hwhole := cut_append hcut (slash :: (n.ns ++ slash :: (n.model ++ tagText n.tag)))
      rw [parseModelPath_of_some hwhole, hsplit, hcutTag _ rfl, agrees_iff valid (or_of_ne hns).symm rfl rfl]
      rw [emptyHost_iff hwhole hhostClear]
      change n.host = or n.host defaultHost ↔ _
      by_cases hempty : n.host = []
      · rw [hempty]
        exact iff_of_false (by decide) (not_not_intro rfl)
      · exact iff_of_true (or_of_ne hempty).symm hempty

/-- A port, a scheme and a tag. -/
theorem portedPath_agrees : (parseName (ascii "http://host:80/n/m:t")).isFullyQualified = true ∧
    (Agrees (ascii "/models") (parseName (ascii "http://host:80/n/m:t"))
      (parseModelPath (ascii "http://host:80/n/m:t")) ↔ ¬EmptyHost (ascii "http://host:80/n/m:t")) :=
  ⟨by decide +kernel, parseModelPath_agrees _ _ (by decide +kernel)⟩

/-- Behind `http://` the one parser falls back to the default host, the other takes the empty one. -/
theorem emptyHost_disagrees : ¬∀ models s, (parseName s).isFullyQualified = true →
    Agrees models (parseName s) (parseModelPath s) := by
  intro h
  have hhost := (h (ascii "/models") (ascii "http:///n/m") (by decide +kernel)).host
  exact absurd hhost (by decide +kernel)

end Forms

end Ecco9.ModelName
