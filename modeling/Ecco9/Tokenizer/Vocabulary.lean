import Ecco9.Library.Search
import Ecco9.Library.Chars
import Mathlib.Algebra.GroupWithZero.Nat

/-! `model/vocabulary.go`, and how both tokenizers cut a text at the special tokens. -/

namespace Ecco9.Tokenizer

open Ecco9.Library

def tokenTypeControl : Int := 3

def tokenTypeUserDefined : Int := 4

/-- The last place where a list holds `s`, as in a map made from the list. -/
def lastIndex : List Text → Text → Option Nat
  | [], _ => none
  | value :: values, s =>
    match lastIndex values s with
    | some i => some (i + 1)
    | none => if value = s then some 0 else none

structure Vocabulary where
  values : List Text
  types : List Int
  merges : List Text := []
  bos : List Nat := []
  eos : List Nat := []
  addBOS : Bool := false
  addEOS : Bool := false

namespace Vocabulary

/-- `Encode`, without a token instead of -1. -/
def encode (v : Vocabulary) (s : Text) : Option Nat := lastIndex v.values s

def decode (v : Vocabulary) (id : Nat) : Text := v.values.getD id []

def specialVocabulary (v : Vocabulary) : List Text :=
  ((v.values.zip v.types).filter fun (_, type) =>
    type = tokenTypeControl ∨ type = tokenTypeUserDefined).map Prod.fst

/-- `Merge`, without a rank instead of -1. -/
def merge (v : Vocabulary) (left right : Text) : Option Nat :=
  lastIndex v.merges (left ++ ascii " " ++ right)

def addSpecials (v : Vocabulary) (ids : List Nat) : List Nat :=
  let ids := if v.addBOS then v.bos.take 1 ++ ids else ids
  if v.addEOS then ids ++ v.eos.take 1 else ids

end Vocabulary

/-- A piece of the text, with its token when it is a special token. -/
structure Fragment where
  value : Text
  ids : List Nat := []
  deriving DecidableEq

/-- The loop of `Encode` over the fragments, for one special token; it does not end when the token is
empty and there is text, then the rounds run out. -/
def splitSpecial (special : Text) (id : Nat) : Nat → List Fragment → Option (List Fragment)
  | _, [] => some []
  | 0, _ => none
  | n + 1, frag :: fragments =>
    if frag.ids ≠ [] then (splitSpecial special id n fragments).map (frag :: ·)
    else
      match cut special frag.value with
      | none => (splitSpecial special id n fragments).map (frag :: ·)
      | some (before, after) =>
        (splitSpecial special id n
          ((if after = [] then [] else [{ value := after }]) ++ fragments)).map
            ((if before = [] then [] else [{ value := before }]) ++
              { value := special, ids := [id] } :: ·)

def splitSpecials (v : Vocabulary) (rounds : Nat) :
    List Text → List Fragment → Option (List Fragment)
  | [], fragments => some fragments
  | special :: specials, fragments =>
    (splitSpecial special ((v.encode special).getD 0) rounds fragments).bind
      (splitSpecials v rounds specials)

/-- The fragments of a text, after all special tokens. -/
def fragments (v : Vocabulary) (rounds : Nat) (s : Text) : Option (List Fragment) :=
  splitSpecials v rounds v.specialVocabulary [{ value := s }]

/-! ### Tokens -/

theorem lastIndex_eq_some {values : List Text} {s : Text} {i : Nat}
    (h : lastIndex values s = some i) : values.getD i [] = s ∧ i < values.length := by
  induction values generalizing i with
  | nil => cases h
  | cons value values ih =>
    rw [lastIndex] at h
    split at h
    · rename_i j hj
      cases h
      exact ⟨(ih hj).1, Nat.succ_lt_succ (ih hj).2⟩
    · split_ifs at h with hvalue
      cases h
      exact ⟨hvalue, Nat.zero_lt_succ _⟩

theorem lastIndex_isSome {values : List Text} {s : Text} :
    (lastIndex values s).isSome ↔ s ∈ values := by
  induction values with
  | nil => simp [lastIndex]
  | cons value values ih =>
    rw [lastIndex, List.mem_cons]
    cases h : lastIndex values s with
    | some i => simp [← ih, h]
    | none =>
      rw [h] at ih
      have hnot : s ∉ values := fun hs => by simpa using ih.mpr hs
      simp only [hnot, or_false]
      split_ifs with hvalue
      · simp [hvalue]
      · simp [Ne.symm hvalue]

theorem Vocabulary.decode_encode {v : Vocabulary} {s : Text} {id : Nat}
    (h : v.encode s = some id) : v.decode id = s :=
  (lastIndex_eq_some h).1

theorem mem_specialVocabulary {v : Vocabulary} {s : Text} (h : s ∈ v.specialVocabulary) :
    s ∈ v.values := by
  rw [Vocabulary.specialVocabulary, List.mem_map] at h
  obtain ⟨⟨value, type⟩, hmem, rfl⟩ := h
  exact List.of_mem_zip (List.mem_of_mem_filter hmem) |>.1

/-! ### Fragments -/

/-- A fragment is plain text or the value of a token. -/
def Fragment.Of (v : Vocabulary) (f : Fragment) : Prop :=
  f.ids = [] ∨ ∃ id, f.ids = [id] ∧ v.decode id = f.value ∧ f.value ∈ v.specialVocabulary

/-- What holds of the special token and of what stands around it holds of all fragments. -/
theorem splitSpecial_all {P : Fragment → Prop} {special : Text} {id : Nat}
    (hspecial : P { value := special, ids := [id] })
    (hcut : ∀ value before after, P { value := value } →
      cut special value = some (before, after) → P { value := before } ∧ P { value := after })
    {n : Nat} {fs fs' : List Fragment} (hfs : ∀ f ∈ fs, P f)
    (h : splitSpecial special id n fs = some fs') : ∀ f ∈ fs', P f := by
  induction n generalizing fs fs' with
  | zero =>
    cases fs with
    | nil =>
      cases h
      exact hfs
    | cons f fs => cases h
  | succ n ih =>
    cases fs with
    | nil =>
      cases h
      exact hfs
    | cons f fs =>
      have hf := hfs f (by simp)
      have hrest : ∀ f ∈ fs, P f := fun g hg => hfs g (by simp [hg])
      have hkeep (h : (splitSpecial special id n fs).map (f :: ·) = some fs') : ∀ f ∈ fs', P f := by
        obtain ⟨gs, hgs, rfl⟩ := Option.map_eq_some_iff.mp h
        intro g hg
        rcases List.mem_cons.mp hg with rfl | hg
        · exact hf
        · exact ih hrest hgs g hg
      rw [splitSpecial] at h
      split_ifs at h with hids
      · exact hkeep h
      · split at h
        · exact hkeep h
        · rename_i before after hbefore
          obtain ⟨gs, hgs, rfl⟩ := Option.map_eq_some_iff.mp h
          rw [not_not] at hids
          obtain ⟨value, ids⟩ := f
          subst hids
          obtain ⟨hP, hP'⟩ := hcut value before after hf hbefore
          have hone {t : Text} (ht : P { value := t }) :
              ∀ f ∈ if t = [] then [] else [({ value := t } : Fragment)], P f := by
            intro g hg
            split_ifs at hg
            · cases hg
            · rwa [List.mem_singleton.mp hg]
          intro g hg
          rcases List.mem_append.mp hg with hg | hg
          · exact hone hP g hg
          · rcases List.mem_cons.mp hg with rfl | hg
            · exact hspecial
            · refine ih (fun g hg => ?_) hgs g hg
              rcases List.mem_append.mp hg with hg | hg
              · exact hone hP' g hg
              · exact hrest g hg

theorem splitSpecials_all {v : Vocabulary} {P : Fragment → Prop} {rounds : Nat}
    {specials : List Text}
    (hspecial : ∀ special ∈ specials,
      P { value := special, ids := [(v.encode special).getD 0] })
    (hcut : ∀ special ∈ specials, ∀ value before after, P { value := value } →
      cut special value = some (before, after) → P { value := before } ∧ P { value := after })
    {fs fs' : List Fragment} (hfs : ∀ f ∈ fs, P f)
    (h : splitSpecials v rounds specials fs = some fs') : ∀ f ∈ fs', P f := by
  induction specials generalizing fs with
  | nil =>
    cases h
    exact hfs
  | cons special specials ih =>
    rw [splitSpecials, Option.bind_eq_some_iff] at h
    obtain ⟨gs, hgs, hrest⟩ := h
    have hgs := splitSpecial_all (hspecial special (by simp)) (hcut special (by simp)) hfs hgs
    exact ih (fun s hs => hspecial s (by simp [hs])) (fun s hs => hcut s (by simp [hs])) hgs hrest

theorem splitSpecial_flat {special : Text} {id n : Nat} {fs fs' : List Fragment}
    (h : splitSpecial special id n fs = some fs') :
    fs'.flatMap Fragment.value = fs.flatMap Fragment.value := by
  induction n generalizing fs fs' with
  | zero =>
    cases fs with
    | nil =>
      cases h
      rfl
    | cons f fs => cases h
  | succ n ih =>
    cases fs with
    | nil =>
      cases h
      rfl
    | cons f fs =>
      have hkeep (h : (splitSpecial special id n fs).map (f :: ·) = some fs') :
          fs'.flatMap Fragment.value = (f :: fs).flatMap Fragment.value := by
        obtain ⟨gs, hgs, rfl⟩ := Option.map_eq_some_iff.mp h
        rw [List.flatMap_cons, List.flatMap_cons, ih hgs]
      have hone (t : Text) : (if t = [] then [] else [({ value := t } : Fragment)]).flatMap
          Fragment.value = t := by
        split_ifs with ht
        · rw [ht]
          rfl
        · simp
      rw [splitSpecial] at h
      split_ifs at h
      · exact hkeep h
      · split at h
        · exact hkeep h
        · rename_i before after hcut
          obtain ⟨gs, hgs, rfl⟩ := Option.map_eq_some_iff.mp h
          rw [List.flatMap_append, List.flatMap_cons, ih hgs, List.flatMap_append, hone, hone,
            List.flatMap_cons, cut_eq hcut]
          simp only [List.append_assoc]

theorem splitSpecials_flat {v : Vocabulary} {rounds : Nat} {specials : List Text}
    {fs fs' : List Fragment} (h : splitSpecials v rounds specials fs = some fs') :
    fs'.flatMap Fragment.value = fs.flatMap Fragment.value := by
  induction specials generalizing fs with
  | nil =>
    cases h
    rfl
  | cons special specials ih =>
    rw [splitSpecials, Option.bind_eq_some_iff] at h
    obtain ⟨gs, hgs, hrest⟩ := h
    rw [ih hrest, splitSpecial_flat hgs]

theorem fragment_of_special {v : Vocabulary} {special : Text}
    (hspecial : special ∈ v.specialVocabulary) :
    Fragment.Of v { value := special, ids := [(v.encode special).getD 0] } := by
  obtain ⟨id, hid⟩ := Option.isSome_iff_exists.mp
    (lastIndex_isSome.mpr (mem_specialVocabulary hspecial))
  have hid : v.encode special = some id := hid
  refine .inr ⟨id, by rw [hid, Option.getD_some], Vocabulary.decode_encode hid, hspecial⟩

/-- The fragments make up the text. -/
theorem fragments_spec {v : Vocabulary} {rounds : Nat} {s : Text} {fs : List Fragment}
    (h : fragments v rounds s = some fs) :
    fs.flatMap Fragment.value = s ∧ ∀ f ∈ fs, f.Of v := by
  refine ⟨?_, ?_⟩
  · rw [splitSpecials_flat h]
    simp
  · refine splitSpecials_all (fun special hspecial => fragment_of_special hspecial) ?_ ?_ h
    · intro _ _ _ _ _ _ _
      exact ⟨.inl rfl, .inl rfl⟩
    · intro f hf
      rw [List.mem_singleton.mp hf]
      exact .inl rfl

/-- A valid text stays valid where valid tokens are cut out of it. -/
theorem fragments_valid {v : Vocabulary} {rounds : Nat} {s : Text} {fs : List Fragment}
    (hs : utf8Valid s)
    (hspecial : ∀ special ∈ v.specialVocabulary, special ≠ [] ∧ utf8Valid special)
    (h : fragments v rounds s = some fs) : ∀ f ∈ fs, utf8Valid f.value := by
  refine splitSpecials_all (P := fun f => utf8Valid f.value)
    (fun special hmem => (hspecial special hmem).2) ?_ ?_ h
  · intro special hmem value before after hvalue hcut
    obtain ⟨hne, hvalid⟩ := hspecial special hmem
    rw [cut_eq hcut] at hvalue
    have hbefore : utf8Valid before := by
      refine utf8Valid_left (IsText.left (t := after) ?_) hvalid hne
      rw [IsText, utf8Valid_iff.mp hvalue]
      rfl
    refine ⟨hbefore, ?_⟩
    rw [List.append_assoc, utf8Valid_append hbefore, utf8Valid_append hvalid] at hvalue
    exact hvalue
  · intro f hf
    rw [List.mem_singleton.mp hf]
    exact hs

/-! ### What is left of the text -/

/-- The text left by the loop for a token does not hold the token. -/
theorem splitSpecial_clear {special : Text} (hne : special ≠ []) {id n : Nat}
    {fs fs' : List Fragment} (h : splitSpecial special id n fs = some fs') :
    ∀ f ∈ fs', f.ids = [] → cut special f.value = none := by
  induction n generalizing fs fs' with
  | zero =>
    cases fs with
    | nil =>
      cases h
      exact fun f hf => absurd hf List.not_mem_nil
    | cons f fs => cases h
  | succ n ih =>
    cases fs with
    | nil =>
      cases h
      exact fun f hf => absurd hf List.not_mem_nil
    | cons f fs =>
      have hkeep (hf : f.ids = [] → cut special f.value = none)
          (h : (splitSpecial special id n fs).map (f :: ·) = some fs') :
          ∀ f ∈ fs', f.ids = [] → cut special f.value = none := by
        obtain ⟨gs, hgs, rfl⟩ := Option.map_eq_some_iff.mp h
        exact List.forall_mem_cons.mpr ⟨hf, ih hgs⟩
      rw [splitSpecial] at h
      split_ifs at h with hids
      · exact hkeep (fun hnil => absurd hnil hids) h
      · cases hcut : cut special f.value with
        | none =>
          rw [hcut] at h
          exact hkeep (fun _ => hcut) h
        | some parts =>
          obtain ⟨before, after⟩ := parts
          rw [hcut] at h
          obtain ⟨gs, hgs, rfl⟩ := Option.map_eq_some_iff.mp h
          intro g hg hnil
          rcases List.mem_append.mp hg with hg | hg
          · split_ifs at hg
            · cases hg
            · rw [List.mem_singleton.mp hg]
              exact cut_before hne hcut
          · rcases List.mem_cons.mp hg with rfl | hg
            · cases hnil
            · exact ih hgs g hg hnil

/-- A text that does not hold a token is only ever cut into such texts. -/
theorem splitSpecials_clear {v : Vocabulary} {rounds : Nat} {specials : List Text}
    (hne : ∀ special ∈ specials, special ≠ []) {fs fs' : List Fragment}
    (h : splitSpecials v rounds specials fs = some fs') :
    ∀ special ∈ specials, ∀ f ∈ fs', f.ids = [] → cut special f.value = none := by
  induction specials generalizing fs with
  | nil => exact fun special hspecial => absurd hspecial List.not_mem_nil
  | cons special specials ih =>
    rw [splitSpecials, Option.bind_eq_some_iff] at h
    obtain ⟨gs, hgs, hrest⟩ := h
    refine List.forall_mem_cons.mpr ⟨?_, ih (fun s hs => hne s (List.mem_cons_of_mem _ hs)) hrest⟩
    refine splitSpecials_all (P := fun f => f.ids = [] → cut special f.value = none)
      (fun _ _ hnil => absurd hnil (List.cons_ne_nil _ _)) (fun other _ value before after hvalue hcut => ?_)
      (splitSpecial_clear (hne special List.mem_cons_self) hgs) hrest
    have hclear := hvalue rfl
    rw [cut_eq hcut, List.append_assoc] at hclear
    refine ⟨fun _ => cut_front_none hclear, fun _ => cut_suffix_none ?_ hclear⟩
    exact (List.suffix_append other after).trans (List.suffix_append before _)

/-! ### Rounds -/

theorem splitSpecial_mono {special : Text} {id n m : Nat} {fs fs' : List Fragment} (hnm : n ≤ m)
    (h : splitSpecial special id n fs = some fs') : splitSpecial special id m fs = some fs' := by
  induction n generalizing m fs fs' with
  | zero =>
    cases fs with
    | nil => cases m <;> exact h
    | cons f fs => cases h
  | succ n ih =>
    cases m with
    | zero => omega
    | succ m =>
      have hnm := Nat.le_of_succ_le_succ hnm
      cases fs with
      | nil => exact h
      | cons f fs =>
        rw [splitSpecial] at h ⊢
        split_ifs at h ⊢
        · obtain ⟨gs, hgs, rfl⟩ := Option.map_eq_some_iff.mp h
          rw [ih hnm hgs, Option.map_some]
        · split at h
          · obtain ⟨gs, hgs, rfl⟩ := Option.map_eq_some_iff.mp h
            rw [ih hnm hgs, Option.map_some]
          · obtain ⟨gs, hgs, rfl⟩ := Option.map_eq_some_iff.mp h
            rw [ih hnm hgs, Option.map_some]

/-- The text that is still to be looked at. -/
def weight (fs : List Fragment) : Nat := (fs.map fun f => f.value.length + 1).sum

theorem splitSpecial_total {special : Text} (hne : special ≠ []) (id : Nat) {n : Nat}
    {fs : List Fragment} (hn : weight fs ≤ n) : (splitSpecial special id n fs).isSome := by
  induction n generalizing fs with
  | zero =>
    cases fs with
    | nil => rfl
    | cons f fs =>
      simp only [weight, List.map_cons, List.sum_cons] at hn
      omega
  | succ n ih =>
    cases fs with
    | nil => rfl
    | cons f fs =>
      simp only [weight, List.map_cons, List.sum_cons] at hn
      have hrest := @ih fs (by
        rw [weight]
        omega)
      rw [splitSpecial]
      split_ifs
      · rwa [Option.isSome_map]
      · split
        · rwa [Option.isSome_map]
        · rename_i before after hcut
          rw [Option.isSome_map]
          have hshort := cut_isSome_length hne hcut
          apply ih
          simp only [weight, List.map_append, List.sum_append]
          split_ifs
          · simp only [List.map_nil, List.sum_nil]
            omega
          · simp only [List.map_cons, List.map_nil, List.sum_cons, List.sum_nil]
            omega

theorem splitSpecials_mono {v : Vocabulary} {specials : List Text} {n m : Nat}
    {fs fs' : List Fragment} (hnm : n ≤ m) (h : splitSpecials v n specials fs = some fs') :
    splitSpecials v m specials fs = some fs' := by
  induction specials generalizing fs with
  | nil => exact h
  | cons special specials ih =>
    rw [splitSpecials, Option.bind_eq_some_iff] at h ⊢
    obtain ⟨gs, hgs, hrest⟩ := h
    exact ⟨gs, splitSpecial_mono hnm hgs, ih hrest⟩

/-- The loops end when no special token is empty. -/
theorem fragments_total {v : Vocabulary} (hne : ∀ special ∈ v.specialVocabulary, special ≠ [])
    (s : Text) : ∃ rounds fs, fragments v rounds s = some fs := by
  have hall (specials : List Text) (fs : List Fragment) (hne : ∀ special ∈ specials, special ≠ []) :
      ∃ rounds fs', splitSpecials v rounds specials fs = some fs' := by
    induction specials generalizing fs with
    | nil => exact ⟨0, fs, rfl⟩
    | cons special specials ih =>
      obtain ⟨gs, hgs⟩ := Option.isSome_iff_exists.mp
        (splitSpecial_total (hne special (by simp)) ((v.encode special).getD 0) (Nat.le_refl (weight fs)))
      obtain ⟨rounds, fs', hfs'⟩ := ih gs fun s hs => hne s (by simp [hs])
      refine ⟨max (weight fs) rounds, fs', ?_⟩
      rw [splitSpecials, splitSpecial_mono (Nat.le_max_left ..) hgs, Option.bind_some]
      exact splitSpecials_mono (Nat.le_max_right ..) hfs'
  exact hall _ _ hne

/-- A fragment is one special token, with its id, or text in which none stands. -/
structure Fragment.Split (v : Vocabulary) (f : Fragment) : Prop where
  special : f.ids ≠ [] →
    f.value ∈ v.specialVocabulary ∧ ∃ id, v.encode f.value = some id ∧ f.ids = [id]
  text : f.ids = [] → ∀ special ∈ v.specialVocabulary, ∀ k, ¬special <+: f.value.drop k

theorem fragments_special {v : Vocabulary} {rounds : Nat} {s : Text} {fs : List Fragment}
    (h : fragments v rounds s = some fs) : ∀ f ∈ fs, f.ids ≠ [] →
      f.value ∈ v.specialVocabulary ∧ ∃ id, v.encode f.value = some id ∧ f.ids = [id] := by
  refine splitSpecials_all (P := fun f => f.ids ≠ [] → f.value ∈ v.specialVocabulary ∧
    ∃ id, v.encode f.value = some id ∧ f.ids = [id]) (fun special hspecial _ => ?_)
    (fun _ _ _ _ _ _ _ => ⟨fun h => absurd rfl h, fun h => absurd rfl h⟩) (fun f hf h => ?_) h
  · obtain ⟨id, hid⟩ := Option.isSome_iff_exists.mp
      (lastIndex_isSome.mpr (mem_specialVocabulary hspecial))
    have hid : v.encode special = some id := hid
    exact ⟨hspecial, id, hid, by rw [hid, Option.getD_some]⟩
  · rw [List.mem_singleton.mp hf] at h
    exact absurd rfl h

/-- The loops end, the fragments make up the text, and no special token is left in it. -/
theorem fragments_split (v : Vocabulary) (hne : ∀ special ∈ v.specialVocabulary, special ≠ [])
    (s : Text) : ∃ rounds fs, (∀ n, rounds ≤ n → fragments v n s = some fs) ∧
      fs.flatMap Fragment.value = s ∧ ∀ f ∈ fs, f.Split v := by
  obtain ⟨rounds, fs, hfs⟩ := fragments_total hne s
  refine ⟨rounds, fs, fun n hn => splitSpecials_mono hn hfs, (fragments_spec hfs).1, ?_⟩
  intro f hf
  exact ⟨fragments_special hfs f hf, fun hnil special hspecial =>
    cut_eq_none (splitSpecials_clear hne hfs special hspecial f hf hnil)⟩

/-- Tokens that overlap, one within another. -/
def overlapping : Vocabulary where
  values := [ascii "<s>", ascii "<s><t>", ascii "x", ascii "><"]
  types := [3, 3, 1, 4]

theorem overlapping_split : (∀ special ∈ overlapping.specialVocabulary, special ≠ []) ∧
    ∃ rounds fs, (∀ n, rounds ≤ n → fragments overlapping n (ascii "x<s><t><") = some fs) ∧
      fs.flatMap Fragment.value = ascii "x<s><t><" ∧ ∀ f ∈ fs, f.Split overlapping :=
  ⟨by decide, fragments_split overlapping (by decide) (ascii "x<s><t><")⟩

example : fragments overlapping 20 (ascii "x<s><t><") =
    some [⟨ascii "x", []⟩, ⟨ascii "<s>", [0]⟩, ⟨ascii "<t", []⟩, ⟨ascii "><", [3]⟩] := by
  decide +kernel

end Ecco9.Tokenizer
