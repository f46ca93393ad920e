import Ecco9.Library.Search
import Ecco9.Library.Utf8
import Mathlib.Data.List.Nodup

/-! The challenge of a registry, in the header `WWW-Authenticate`: `getValue` and
`parseRegistryChallenge` of `server/images.go`. -/

namespace Ecco9.Server

open Ecco9.Library

structure RegistryChallenge where
  realm : Text
  service : Text
  scope : Text
  deriving DecidableEq

/-- The loop of `getValue`: how far it is to a quote that ends the header or has a comma behind it. -/
def endOfValue : Text → Nat
  | [] => 0
  | c :: rest => if c = 34 ∧ rest.head?.all (· = 44) then 0 else endOfValue rest + 1

/-- What follows `key=` and one more byte, up to the end of the value; slices out of range panic. -/
def getValue (header key : Text) : Option Text :=
  match cut (key ++ ascii "=") header with
  | none => some []
  | some (before, _) =>
    let startIdx := before.length + (key.length + 2)
    let endIdx := startIdx + endOfValue (header.drop startIdx)
    if endIdx ≤ header.length then some ((header.take endIdx).drop startIdx) else none

/-- `strings.TrimPrefix` -/
def trimPrefix (s front : Text) : Text := if front <+: s then s.drop front.length else s

/-- Without a result there is a panic. -/
def parseRegistryChallenge (authStr : Text) : Option RegistryChallenge := do
  let authStr := trimPrefix authStr (ascii "Bearer ")
  let realm ← getValue authStr (ascii "realm")
  let service ← getValue authStr (ascii "service")
  let scope ← getValue authStr (ascii "scope")
  return { realm, service, scope }

/-! ### Headers -/

/-- `key="value"` -/
def param (e : Text × Text) : Text := e.1 ++ ascii "=\x22" ++ e.2 ++ ascii "\x22"

/-- `key1="value1",key2="value2",...` -/
def paramList (entries : List (Text × Text)) : Text := (ascii ",").intercalate (entries.map param)

structure AuthParams (entries : List (Text × Text)) : Prop where
  name : ∀ e ∈ entries, 61 ∉ e.1 ∧ 34 ∉ e.1
  value : ∀ e ∈ entries, 34 ∉ e.2
  distinct : (entries.map (·.1)).Nodup

/-- There is no panic, and from a list of parameters the values of the three keys are read. -/
def ParsesRight (authStr : Text) : Prop :=
  ∃ challenge, parseRegistryChallenge authStr = some challenge ∧
    ∀ entries, AuthParams entries → trimPrefix authStr (ascii "Bearer ") = paramList entries →
      ∀ realm service scope, (ascii "realm", realm) ∈ entries → (ascii "service", service) ∈ entries →
        (ascii "scope", scope) ∈ entries → challenge = { realm, service, scope }

/-- The header ends where the key is first found. -/
def EndsAt (header key : Text) : Prop := ∃ before, cut (key ++ ascii "=") header = some (before, [])

/-- `value` stands at the first mention of the key: it is the value of the first parameter whose name ends
in the key, or, where a value in front of it contains `key=`, the rest of that behind one more byte. A
mention that ends its value is read on into the next parameter. -/
def FirstHolds (key : Text) : List (Text × Text) → Text → Prop
  | [], _ => False
  | e :: rest, value =>
    if key <:+ e.1 then e.2 = value
    else
      match cut (key ++ ascii "=") e.2 with
      | none => FirstHolds key rest value
      | some (_, _ :: after) => after = value
      | some (_, []) => ∃ name next later, rest = (name, 44 :: next) :: later ∧
          value = ascii "," ++ name ++ ascii "="

/-- A name that is looked for. -/
structure Key (key : Text) : Prop where
  ne_nil : key ≠ []
  equals : 61 ∉ key
  quote : 34 ∉ key
  comma : 44 ∉ key

theorem key_realm : Key (ascii "realm") := ⟨by decide, by decide, by decide, by decide⟩

theorem key_service : Key (ascii "service") := ⟨by decide, by decide, by decide, by decide⟩

theorem key_scope : Key (ascii "scope") := ⟨by decide, by decide, by decide, by decide⟩

/-! ### One value -/

section Value

variable {header key value rest : Text}

theorem endOfValue_le (s : Text) : endOfValue s ≤ s.length := by
  induction s with
  | nil => exact Nat.le_refl 0
  | cons c s ih =>
    rw [endOfValue]
    split
    · exact Nat.zero_le _
    · exact Nat.succ_le_succ ih

theorem endOfValue_skip (hvalue : 34 ∉ value) (s : Text) :
    endOfValue (value ++ s) = value.length + endOfValue s := by
  induction value with
  | nil => exact (Nat.zero_add _).symm
  | cons c value ih =>
    have hc : c ≠ 34 := fun h => hvalue (h ▸ List.mem_cons_self)
    rw [List.cons_append, endOfValue, if_neg fun h => hc h.1,
      ih fun hmem => hvalue (List.mem_cons_of_mem c hmem), List.length_cons]
    omega

/-- What may follow the quote that closes a value. -/
def EndsValue (rest : Text) : Prop := rest.head?.all (· = 44) = true

theorem take_endOfValue (hvalue : 34 ∉ value) (hrest : EndsValue rest) :
    (value ++ 34 :: rest).take (endOfValue (value ++ 34 :: rest)) = value := by
  rw [endOfValue_skip hvalue, endOfValue, if_pos ⟨rfl, hrest⟩, Nat.add_zero, List.take_append_length]

theorem quote_mem_take (hvalue : 34 ∉ value) (hrest : ¬EndsValue rest) :
    34 ∈ (value ++ 34 :: rest).take (endOfValue (value ++ 34 :: rest)) := by
  rw [endOfValue_skip hvalue, endOfValue, if_neg fun h => hrest h.2, List.take_length_add_append,
    List.take_succ_cons]
  exact List.mem_append_right value List.mem_cons_self

theorem getValue_eq (header key : Text) : getValue header key =
    match cut (key ++ ascii "=") header with
    | none => some []
    | some (_, []) => none
    | some (_, _ :: after) => some (after.take (endOfValue after)) := by
  rw [getValue]
  cases hcut : cut (key ++ ascii "=") header with
  | none => rfl
  | some parts =>
    obtain ⟨before, after⟩ := parts
    have hlen := congrArg List.length (cut_eq hcut)
    simp only [List.length_append, show (ascii "=").length = 1 from rfl] at hlen
    cases after with
    | nil =>
      rw [List.length_nil] at hlen
      exact if_neg (by omega)
    | cons c after =>
      have hdrop : header.drop (before.length + (key.length + 2)) = after := by
        rw [cut_eq hcut]
        have hstart : before.length + (key.length + 2) =
            (before ++ (key ++ ascii "=") ++ [c]).length := by
          simp only [List.length_append, show (ascii "=").length = 1 from rfl, List.length_singleton]
          omega
        rw [hstart, List.append_cons (before ++ (key ++ ascii "=")) c after, List.drop_append_length]
      have hle := endOfValue_le after
      rw [List.length_cons] at hlen
      simp only [hdrop]
      rw [if_pos (by omega), List.drop_take, hdrop, Nat.add_sub_cancel_left]

/-- The slice is out of range just where the header ends with the key. -/
theorem getValue_eq_none : getValue header key = none ↔ EndsAt header key := by
  rw [getValue_eq, EndsAt]
  cases cut (key ++ ascii "=") header with
  | none => simp
  | some parts =>
    obtain ⟨before, after⟩ := parts
    cases after <;> simp

/-- What is in front of a delimiter does not count when the key is not found there. -/
theorem getValue_delimited {d : UInt8} (hd : d ∉ key ++ ascii "=") (hnone : cut (key ++ ascii "=") value = none)
    (rest : Text) : getValue (value ++ d :: rest) key = getValue rest key := by
  rw [getValue_eq, getValue_eq, cut_delimited hd, hnone]
  cases cut (key ++ ascii "=") rest with
  | none => rfl
  | some parts =>
    obtain ⟨before, after⟩ := parts
    cases after <;> rfl

end Value

/-! ### A list of parameters -/

section Params

variable {key name value tail : Text}

theorem Key.pattern_quote (h : Key key) : 34 ∉ key ++ ascii "=" := by
  rw [List.mem_append, not_or]
  exact ⟨h.quote, by decide⟩

theorem Key.pattern_comma (h : Key key) : 44 ∉ key ++ ascii "=" := by
  rw [List.mem_append, not_or]
  exact ⟨h.comma, by decide⟩

/-- In a name the key is found at the end or not at all. -/
theorem cut_name (key : Text) (hname : 61 ∉ name) : cut (key ++ ascii "=") (name ++ ascii "=") =
    if key <:+ name then some (name.take (name.length - key.length), []) else none := by
  split
  · rename_i hsuffix
    obtain ⟨front, rfl⟩ := hsuffix
    have hkey : 61 ∉ key := fun h => hname (List.mem_append_right front h)
    have hnone : cut (key ++ ascii "=") front = none := by
      cases hcut : cut (key ++ ascii "=") front with
      | none => rfl
      | some parts =>
        have hmem : 61 ∈ front := by
          rw [cut_eq hcut]
          exact List.mem_append_left _ (List.mem_append_right _ (List.mem_append_right _ (by decide)))
        exact absurd (List.mem_append_left key hmem) hname
    have hcut := cut_borderless (border_delimited hkey) hnone []
    rw [List.append_nil, ← List.append_assoc] at hcut
    rw [List.length_append, Nat.add_sub_cancel, List.take_append_length]
    exact hcut
  · rename_i hsuffix
    cases hcut : cut (key ++ ascii "=") (name ++ ascii "=") with
    | none => rfl
    | some parts =>
      obtain ⟨before, after⟩ := parts
      have heq := cut_eq hcut
      rcases List.eq_nil_or_concat after with rfl | ⟨inner, last, rfl⟩
      · rw [List.append_nil, ← List.append_assoc] at heq
        exact absurd ⟨before, (List.append_inj_left' heq rfl).symm⟩ hsuffix
      · rw [List.concat_eq_append, ← List.append_assoc] at heq
        have hmem : 61 ∈ name := by
          rw [List.append_inj_left' heq rfl]
          exact List.mem_append_left _ (List.mem_append_right _ (List.mem_append_right _ (by decide)))
        exact absurd hmem hname

/-- A parameter and what follows it: the key is at the end of the name, or in the value, or later. -/
theorem getValue_param (hkey : Key key) (hname : 61 ∉ name) (hvalue : 34 ∉ value) (htail : EndsValue tail) :
    getValue (param (name, value) ++ tail) key =
      if key <:+ name then some value
      else
        match cut (key ++ ascii "=") value with
        | none => getValue tail key
        | some (_, []) => some (tail.take (endOfValue tail))
        | some (_, _ :: after) => some after := by
  have hparam : param (name, value) ++ tail = (name ++ ascii "=") ++ 34 :: (value ++ 34 :: tail) := by
    simp [param, ascii]
  have hcutName := cut_name key hname
  rw [hparam]
  split
  · rename_i hsuffix
    rw [if_pos hsuffix] at hcutName
    rw [getValue_eq, cut_delimited hkey.pattern_quote, hcutName]
    exact congrArg some (take_endOfValue hvalue htail)
  · rename_i hsuffix
    rw [if_neg hsuffix] at hcutName
    rw [getValue_delimited hkey.pattern_quote hcutName]
    cases hcut : cut (key ++ ascii "=") value with
    | none => exact getValue_delimited hkey.pattern_quote hcut tail
    | some parts =>
      obtain ⟨before, after⟩ := parts
      rw [getValue_eq, cut_delimited hkey.pattern_quote, hcut]
      cases after with
      | nil => rfl
      | cons c after =>
        have hafter : 34 ∉ after := by
          intro hmem
          refine hvalue ?_
          rw [cut_eq hcut]
          exact List.mem_append_right _ (List.mem_cons_of_mem c hmem)
        exact congrArg some (take_endOfValue hafter htail)

/-- What follows the first parameter. -/
def paramTail : List (Text × Text) → Text
  | [] => []
  | e :: rest => 44 :: paramList (e :: rest)

theorem paramList_cons (e : Text × Text) (rest : List (Text × Text)) :
    paramList (e :: rest) = param e ++ paramTail rest := by
  cases rest with
  | nil => simp [paramList, paramTail]
  | cons e' rest => simp [paramList, paramTail, ascii]

theorem endsValue_paramTail (rest : List (Text × Text)) : EndsValue (paramTail rest) := by
  cases rest <;> rfl

/-- A value behind a comma is read up to the first quote with a comma behind it. -/
theorem take_endOfValue_crossing {v : Text} (hname : 34 ∉ name) (hv : 34 ∉ v) :
    (44 :: (param (name, value) ++ tail)).take (endOfValue (44 :: (param (name, value) ++ tail))) = v ↔
      (∃ next, value = 44 :: next) ∧ v = ascii "," ++ name ++ ascii "=" := by
  have hsplit : 44 :: (param (name, value) ++ tail) =
      (ascii "," ++ name ++ ascii "=") ++ 34 :: (value ++ 34 :: tail) := by
    simp [param, ascii]
  have hfront : 34 ∉ ascii "," ++ name ++ ascii "=" := by
    simp only [List.mem_append, not_or]
    exact ⟨⟨by decide, hname⟩, by decide⟩
  rw [hsplit]
  by_cases hcomma : EndsValue (value ++ 34 :: tail)
  · rw [take_endOfValue hfront hcomma]
    cases value with
    | nil => exact absurd hcomma (by simp [EndsValue])
    | cons c next =>
      have hc : c = 44 := by simpa [EndsValue] using hcomma
      exact ⟨fun h => ⟨⟨next, hc ▸ rfl⟩, h.symm⟩, fun h => h.2.symm⟩
  · refine ⟨fun h => absurd ?_ hv, ?_⟩
    · rw [← h]
      exact quote_mem_take hfront hcomma
    · rintro ⟨⟨next, rfl⟩, -⟩
      exact absurd rfl hcomma

/-- In a list that has the key, a text without quotes is the result just when it is found first. -/
theorem getValue_paramList {v : Text} (hkey : Key key) (hv : 34 ∉ v) {entries : List (Text × Text)}
    (hname : ∀ e ∈ entries, 61 ∉ e.1 ∧ 34 ∉ e.1) (hvalue : ∀ e ∈ entries, 34 ∉ e.2)
    (hmem : key ∈ entries.map (·.1)) :
    getValue (paramList entries) key = some v ↔ FirstHolds key entries v := by
  induction entries with
  | nil => cases hmem
  | cons e rest ih =>
    obtain ⟨hfirst, hnames⟩ := List.forall_mem_cons.mp hname
    obtain ⟨hquote, hvalues⟩ := List.forall_mem_cons.mp hvalue
    rw [paramList_cons, getValue_param hkey hfirst.1 hquote (endsValue_paramTail rest), FirstHolds]
    split
    · exact Option.some_inj
    · rename_i hsuffix
      have hrest : key ∈ rest.map (·.1) := by
        rcases List.mem_cons.mp hmem with rfl | hrest
        · exact absurd List.suffix_rfl hsuffix
        · exact hrest
      -- the key is behind this parameter, so something follows it
      cases rest with
      | nil => cases hrest
      | cons e' later =>
        cases cut (key ++ ascii "=") e.2 with
        | none =>
          have hempty : cut (key ++ ascii "=") [] = none := if_neg (by simp [hkey.ne_nil])
          exact (iff_of_eq (congrArg (· = some v)
            (getValue_delimited hkey.pattern_comma hempty _))).trans (ih hnames hvalues hrest)
        | some parts =>
          obtain ⟨before, after⟩ := parts
          cases after with
          | cons c after => exact Option.some_inj
          | nil =>
            have hnext := (hnames e' List.mem_cons_self).2
            dsimp only
            rw [Option.some_inj, paramTail, paramList_cons, take_endOfValue_crossing hnext hv]
            constructor
            · rintro ⟨⟨next, hnext⟩, hv⟩
              exact ⟨e'.1, next, later, by rw [← hnext], hv⟩
            · rintro ⟨name, next, later, heq, hv⟩
              obtain ⟨rfl, -⟩ := List.cons_eq_cons.mp heq
              exact ⟨⟨next, rfl⟩, hv⟩

/-- A parameter that no name and no value in front of it mentions is found. -/
theorem firstHolds_of_own {earlier later : List (Text × Text)}
    (hname : ∀ e ∈ earlier, ¬key <:+ e.1) (hvalue : ∀ e ∈ earlier, cut (key ++ ascii "=") e.2 = none) :
    FirstHolds key (earlier ++ (key, value) :: later) value := by
  induction earlier with
  | nil =>
    rw [List.nil_append, FirstHolds, if_pos List.suffix_rfl]
  | cons e earlier ih =>
    obtain ⟨hfirst, hnames⟩ := List.forall_mem_cons.mp hname
    obtain ⟨hnone, hvalues⟩ := List.forall_mem_cons.mp hvalue
    rw [List.cons_append, FirstHolds, if_neg hfirst, hnone]
    exact ih hnames hvalues

end Params

/-! ### The three values -/

/-- The names that are looked for. -/
def challengeKeys : List Text := [ascii "realm", ascii "service", ascii "scope"]

theorem key_of_mem {key : Text} (h : key ∈ challengeKeys) : Key key := by
  simp only [challengeKeys, List.mem_cons, List.not_mem_nil, or_false] at h
  rcases h with rfl | rfl | rfl
  · exact key_realm
  · exact key_service
  · exact key_scope

theorem parseRegistryChallenge_eq_some {authStr : Text} {challenge : RegistryChallenge} :
    parseRegistryChallenge authStr = some challenge ↔
      getValue (trimPrefix authStr (ascii "Bearer ")) (ascii "realm") = some challenge.realm ∧
      getValue (trimPrefix authStr (ascii "Bearer ")) (ascii "service") = some challenge.service ∧
      getValue (trimPrefix authStr (ascii "Bearer ")) (ascii "scope") = some challenge.scope := by
  obtain ⟨realm, service, scope⟩ := challenge
  simp [parseRegistryChallenge, Option.bind_eq_some_iff]

/-- In a list with all three keys, each is found first where its value is. -/
def FoundInList (header : Text) : Prop :=
  ∀ entries, AuthParams entries → header = paramList entries →
    (∀ key ∈ challengeKeys, key ∈ entries.map (·.1)) →
      ∀ key ∈ challengeKeys, ∀ value, (key, value) ∈ entries → FirstHolds key entries value

theorem AuthParams.getValue {entries : List (Text × Text)} {key value : Text} (h : AuthParams entries)
    (hkey : key ∈ challengeKeys) (hmem : (key, value) ∈ entries) :
    getValue (paramList entries) key = some value ↔ FirstHolds key entries value :=
  getValue_paramList (key_of_mem hkey) (h.value _ hmem) h.name h.value
    (List.mem_map_of_mem (f := (·.1)) hmem)

theorem exists_mem_of_key {entries : List (Text × Text)} {key : Text} (h : key ∈ entries.map (·.1)) :
    ∃ value, (key, value) ∈ entries := by
  obtain ⟨⟨_, value⟩, hmem, rfl⟩ := List.mem_map.mp h
  exact ⟨value, hmem⟩

theorem challengeKeys_of_mem {P : Text → Prop} : (∀ key ∈ challengeKeys, P key) ↔
    P (ascii "realm") ∧ P (ascii "service") ∧ P (ascii "scope") := by
  simp [challengeKeys]

/-- The three values are read without a panic from every list of parameters just where no key ends the
header and each key is first found where its value is. -/
theorem parseRegistryChallenge_right (authStr : Text) : ParsesRight authStr ↔
    (∀ key ∈ challengeKeys, ¬EndsAt (trimPrefix authStr (ascii "Bearer ")) key) ∧
      FoundInList (trimPrefix authStr (ascii "Bearer ")) := by
  simp only [ParsesRight, parseRegistryChallenge_eq_some]
  generalize trimPrefix authStr (ascii "Bearer ") = header
  constructor
  · rintro ⟨challenge, ⟨hrealm, hservice, hscope⟩, hright⟩
    constructor
    · simp only [challengeKeys_of_mem, ← getValue_eq_none, hrealm, hservice, hscope]
      simp
    · rintro entries hentries rfl hkeys
      obtain ⟨⟨realm, hr⟩, ⟨service, hs⟩, ⟨scope, hc⟩⟩ := challengeKeys_of_mem.mp fun key hkey =>
        exists_mem_of_key (hkeys key hkey)
      refine challengeKeys_of_mem.mpr ⟨fun value hvalue => ?_, fun value hvalue => ?_, fun value hvalue => ?_⟩
      · rw [← hentries.getValue (by decide) hvalue, hrealm, hright entries hentries rfl _ _ _ hvalue hs hc]
      · rw [← hentries.getValue (by decide) hvalue, hservice, hright entries hentries rfl _ _ _ hr hvalue hc]
      · rw [← hentries.getValue (by decide) hvalue, hscope, hright entries hentries rfl _ _ _ hr hs hvalue]
  · rintro ⟨hends, hfound⟩
    simp only [challengeKeys_of_mem, ← getValue_eq_none, ← ne_eq, Option.ne_none_iff_exists'] at hends
    obtain ⟨⟨realm, hrealm⟩, ⟨service, hservice⟩, ⟨scope, hscope⟩⟩ := hends
    refine ⟨⟨realm, service, scope⟩, ⟨hrealm, hservice, hscope⟩, ?_⟩
    rintro entries hentries rfl realm' service' scope' hr hs hc
    have hkeys : ∀ key ∈ challengeKeys, key ∈ entries.map (·.1) := challengeKeys_of_mem.mpr
      ⟨List.mem_map_of_mem hr, List.mem_map_of_mem hs, List.mem_map_of_mem hc⟩
    obtain ⟨hrealmFound, hserviceFound, hscopeFound⟩ :=
      challengeKeys_of_mem.mp (hfound entries hentries rfl hkeys)
    have hrealm' := (hentries.getValue (by decide) hr).mpr (hrealmFound realm' hr)
    have hservice' := (hentries.getValue (by decide) hs).mpr (hserviceFound service' hs)
    have hscope' := (hentries.getValue (by decide) hc).mpr (hscopeFound scope' hc)
    rw [Option.some_inj.mp (hrealm.symm.trans hrealm'), Option.some_inj.mp (hservice.symm.trans hservice'),
      Option.some_inj.mp (hscope.symm.trans hscope')]

/-- A header that ends behind `realm=`, and a value that contains it in front of the key. -/
theorem parseRegistryChallenge_wrong : ¬ParsesRight (ascii "Bearer realm=") ∧
    ¬ParsesRight (ascii "Bearer service=\x22realm=b\x22,realm=\x22a\x22,scope=\x22s\x22") := by
  constructor
  · rintro ⟨challenge, hparse, -⟩
    cases hparse
  · rintro ⟨challenge, hparse, hright⟩
    have hlist := hright [(ascii "service", ascii "realm=b"), (ascii "realm", ascii "a"),
      (ascii "scope", ascii "s")] ⟨by decide, by decide, by decide⟩ (by decide) (ascii "a")
      (ascii "realm=b") (ascii "s") (by decide) (by decide) (by decide)
    rw [hlist] at hparse
    exact absurd hparse (by decide)

end Ecco9.Server
