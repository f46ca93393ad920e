import Ecco9.Library.Assignments
import Ecco9.Library.Decimal
import Ecco9.Tokenizer.Vocabulary

/-! The vocabulary that is made from a `tokenizer.json`: `convert/tokenizer.go`, and its padding in
`convert/convert.go`. -/

namespace Ecco9.Convert

open Ecco9.Library

def tokenTypeNormal : Int := 1

def tokenTypeControl : Int := 3

def tokenTypeUserDefined : Int := 4

/-- `token` -/
structure Token where
  id : Int := 0
  content : Text := []
  special : Bool := false
  userDefined : Bool := false

/-- `tokenizer`; the entries of `vocab` are those of a map, in the order in which it is ranged over. -/
structure Tokenizer where
  addedTokens : List Token
  vocab : List (Text × Int)
  nodup : (vocab.map (·.1)).Nodup

structure Vocabulary where
  model : Text
  tokens : List Text
  scores : List Float32
  types : List Int

def Token.type (token : Token) : Int :=
  if token.special then tokenTypeControl
  else if token.userDefined then tokenTypeUserDefined
  else tokenTypeNormal

/-- The map `tokens`. -/
def Tokenizer.tokens (t : Tokenizer) : AList fun _ : Int => Token :=
  assign (·.id) (fun token => { token with userDefined := true }) t.addedTokens
    (assign (·.2) (fun e => { id := e.2, content := e.1 }) t.vocab ∅)

/-- A key that the map does not have gives the token without content. -/
def parseVocabularyFromTokenizer (t : Tokenizer) : Vocabulary :=
  let sorted := (sortedKeys t.tokens).map fun k => (t.tokens.lookup k).getD {}
  {
    model := ascii "gpt2"
    tokens := sorted.map (·.content)
    scores := sorted.map fun token => Float32.ofInt token.id
    types := sorted.map Token.type
  }

/-- `[PAD%d]` -/
def padToken (i : Nat) : Text := ascii "[PAD" ++ decimal i ++ ascii "]"

/-- The padding of `ConvertModel`, for the `vocabSize` of the model; it is 0 when it is not set. -/
def Vocabulary.pad (v : Vocabulary) (vocabSize : Nat) : Vocabulary :=
  let missing := vocabSize - v.tokens.length
  { v with
    tokens := v.tokens ++ (List.range missing).map padToken
    scores := v.scores ++ List.replicate missing (-1)
    types := v.types ++ List.replicate missing tokenTypeUserDefined }

/-! ### The tokens of the ids -/

/-- Content and type of the token that has this id: the last added token with it, or else the entry of
the vocabulary. -/
def Tokenizer.tokenOf (t : Tokenizer) (id : Int) : Option (Text × Int) :=
  match t.addedTokens.reverse.find? fun token => token.id = id with
  | some token => some (token.content, if token.special then tokenTypeControl else tokenTypeUserDefined)
  | none => (t.vocab.find? fun e => e.2 = id).map fun e => (e.1, tokenTypeNormal)

def Tokenizer.ids (t : Tokenizer) : List Int := t.vocab.map (·.2) ++ t.addedTokens.map (·.id)

/-- At the index of every id there is its token. -/
def KeepsIds (t : Tokenizer) (v : Vocabulary) : Prop :=
  ∀ id token, t.tokenOf id = some token → ∃ i : Nat, (i : Int) = id ∧
    v.tokens[i]? = some token.1 ∧ v.types[i]? = some token.2

section Ids

variable {t : Tokenizer} {v : Vocabulary}

theorem Tokenizer.tokenOf_isSome {id : Int} : (t.tokenOf id).isSome ↔ id ∈ t.ids := by
  rw [tokenOf, ids, List.mem_append, List.mem_map, List.mem_map]
  cases hadded : t.addedTokens.reverse.find? fun token => token.id = id with
  | some token =>
    have hid : token.id = id := by simpa using List.find?_some hadded
    exact iff_of_true rfl (.inr ⟨token, List.mem_reverse.mp (List.mem_of_find?_eq_some hadded), hid⟩)
  | none =>
    have hnone : ¬∃ token ∈ t.addedTokens, token.id = id := by
      rintro ⟨token, hmem, hid⟩
      exact List.find?_eq_none.mp hadded token (List.mem_reverse.mpr hmem) (decide_eq_true hid)
    rw [or_iff_left hnone, Option.isSome_map, List.find?_isSome]
    simp only [decide_eq_true_eq]

/-- The map holds the token of every id. -/
theorem Tokenizer.lookup_tokens (distinct : (t.vocab.map (·.2)).Nodup) (id : Int) :
    (t.tokens.lookup id).map (fun token => (token.content, token.type)) = t.tokenOf id := by
  rw [tokens, lookup_assign, lookup_assign,
    find?_eq_of_perm (List.reverse_perm t.vocab).symm distinct, tokenOf]
  cases t.addedTokens.reverse.find? fun token => token.id = id with
  | some token => cases hspecial : token.special <;> simp [Token.type, hspecial]
  | none =>
    cases t.vocab.find? fun e => e.2 = id with
    | some e => rfl
    | none => rfl

theorem Tokenizer.mem_sortedKeys (distinct : (t.vocab.map (·.2)).Nodup) {id : Int} :
    id ∈ sortedKeys t.tokens ↔ id ∈ t.ids := by
  rw [Library.mem_sortedKeys, ← tokenOf_isSome, ← lookup_tokens distinct, Option.isSome_map]

theorem parse_at (distinct : (t.vocab.map (·.2)).Nodup) {i : Nat} {id : Int} {token : Text × Int}
    (hkey : (sortedKeys t.tokens)[i]? = some id) (htoken : t.tokenOf id = some token) :
    (parseVocabularyFromTokenizer t).tokens[i]? = some token.1 ∧
      (parseVocabularyFromTokenizer t).types[i]? = some token.2 := by
  rw [← Tokenizer.lookup_tokens distinct] at htoken
  obtain ⟨found, hfound, rfl⟩ := Option.map_eq_some_iff.mp htoken
  simp only [parseVocabularyFromTokenizer, List.getElem?_map, hkey, Option.map_some, hfound,
    Option.getD_some, and_self]

theorem parse_length : (parseVocabularyFromTokenizer t).tokens.length = t.tokens.keys.length := by
  rw [parseVocabularyFromTokenizer, List.length_map, List.length_map, length_sortedKeys]

/-- The vocabulary does not depend on the order in which the map of the file is ranged over. -/
theorem parse_perm {t' : Tokenizer} (hvocab : t.vocab.Perm t'.vocab)
    (hadded : t.addedTokens = t'.addedTokens) (distinct : (t.vocab.map (·.2)).Nodup) :
    parseVocabularyFromTokenizer t = parseVocabularyFromTokenizer t' := by
  have hlookup (k : Int) : t.tokens.lookup k = t'.tokens.lookup k := by
    have hperm : t.vocab.reverse.Perm t'.vocab.reverse :=
      (List.reverse_perm _).trans (hvocab.trans (List.reverse_perm _).symm)
    have hdistinct : (t.vocab.reverse.map (·.2)).Nodup := by
      rw [List.map_reverse]
      exact List.nodup_reverse.mpr distinct
    rw [Tokenizer.tokens, Tokenizer.tokens, lookup_assign, lookup_assign, lookup_assign,
      lookup_assign, hadded, find?_eq_of_perm hperm hdistinct]
  have hkeys : sortedKeys t.tokens = sortedKeys t'.tokens :=
    (sortedKeys_pairwise _).eq_of_mem_iff (sortedKeys_pairwise _) fun k => by
      rw [Library.mem_sortedKeys, Library.mem_sortedKeys, hlookup]
  simp only [parseVocabularyFromTokenizer, hkeys, hlookup]

theorem KeepsIds.lt_length (h : KeepsIds t v) {id : Int} (hid : id ∈ t.ids) :
    0 ≤ id ∧ id < v.tokens.length := by
  obtain ⟨token, htoken⟩ := Option.isSome_iff_exists.mp (Tokenizer.tokenOf_isSome.mpr hid)
  obtain ⟨i, rfl, hi, -⟩ := h id token htoken
  have hlt := (List.getElem?_eq_some_iff.mp hi).1
  omega

theorem KeepsIds.pad (h : KeepsIds t v) (vocabSize : Nat) : KeepsIds t (v.pad vocabSize) := by
  intro id token htoken
  obtain ⟨i, hi, hcontent, htype⟩ := h id token htoken
  refine ⟨i, hi, ?_, ?_⟩
  · exact (List.getElem?_append_left (List.getElem?_eq_some_iff.mp hcontent).1).trans hcontent
  · exact (List.getElem?_append_left (List.getElem?_eq_some_iff.mp htype).1).trans htype

/-- At run time such an id stands for the content of its token. -/
theorem KeepsIds.decode (h : KeepsIds t v) {m : Ecco9.Tokenizer.Vocabulary} (hm : m.values = v.tokens)
    {id : Nat} {token : Text × Int} (htoken : t.tokenOf id = some token) : m.decode id = token.1 := by
  obtain ⟨i, hi, hcontent, -⟩ := h id token htoken
  obtain rfl := Int.ofNat.inj hi
  rw [Ecco9.Tokenizer.Vocabulary.decode, hm, List.getD_eq_getElem?_getD, hcontent, Option.getD_some]

/-- The ids are kept just when they are the numbers from 0 on, without a gap. -/
theorem vocabulary_keeps_ids (distinct : (t.vocab.map (·.2)).Nodup) :
    KeepsIds t (parseVocabularyFromTokenizer t) ↔ NoGaps 0 t.ids := by
  have hids : NoGaps 0 (sortedKeys t.tokens) ↔ NoGaps 0 t.ids :=
    NoGaps.congr fun _ => Tokenizer.mem_sortedKeys distinct
  rw [← hids]
  constructor
  · intro h
    refine noGaps_of_lt_length (sortedKeys_pairwise _) fun id hid => ?_
    have hbound := h.lt_length ((Tokenizer.mem_sortedKeys distinct).mp hid)
    rw [parse_length, ← length_sortedKeys] at hbound
    omega
  · intro h id token htoken
    have hid : id ∈ sortedKeys t.tokens := (Tokenizer.mem_sortedKeys distinct).mpr
      (Tokenizer.tokenOf_isSome.mp (Option.isSome_iff_exists.mpr ⟨token, htoken⟩))
    have hrange := h.eq_range (sortedKeys_pairwise _)
    obtain ⟨i, hi, hget⟩ := List.mem_iff_getElem.mp hid
    have hkey : (sortedKeys t.tokens)[i]? = some id := List.getElem?_eq_some_iff.mpr ⟨hi, hget⟩
    refine ⟨i, ?_, parse_at distinct hkey htoken⟩
    rw [hrange, List.getElem?_map, List.getElem?_range hi] at hkey
    exact (Int.zero_add _).symm.trans (Option.some.inj hkey)

end Ids

/-- A vocabulary of two tokens, of which an added one replaces the second, and one more. -/
def smallTokenizer (id : Int) : Tokenizer where
  addedTokens := [
    { id := 1, content := ascii "</s>", special := true },
    { id, content := ascii "<t>" }
  ]
  vocab := [(ascii "b", 1), (ascii "a", 0)]
  nodup := by decide

theorem smallTokenizer_ids (id : Int) : (smallTokenizer id).ids = [1, 0, 1, id] := rfl

theorem smallTokenizer_keeps : KeepsIds (smallTokenizer 2)
    (parseVocabularyFromTokenizer (smallTokenizer 2)) := by
  refine (vocabulary_keeps_ids (by decide)).mpr ?_
  rw [smallTokenizer_ids]
  intro k hk
  simp only [List.mem_cons, List.not_mem_nil, or_false] at hk ⊢
  exact ⟨by omega, fun j hj hjk => by omega⟩

theorem smallTokenizer_perm : parseVocabularyFromTokenizer (smallTokenizer 2) =
    parseVocabularyFromTokenizer { smallTokenizer 2 with
      vocab := [(ascii "a", 0), (ascii "b", 1)], nodup := by decide } :=
  parse_perm (.swap ..) rfl (by decide)

/-- There are three tokens, and the one with the id 3 is the last of them. -/
theorem smallTokenizer_gap : ((smallTokenizer 3).vocab.map (·.2)).Nodup ∧
    ¬KeepsIds (smallTokenizer 3) (parseVocabularyFromTokenizer (smallTokenizer 3)) := by
  refine ⟨by decide, fun h => ?_⟩
  have hid : 3 ∈ (smallTokenizer 3).ids := by decide
  have hbound := (h.lt_length hid).2
  rw [parse_length] at hbound
  revert hbound
  decide

end Ecco9.Convert
