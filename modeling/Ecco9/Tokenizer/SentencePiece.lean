import Ecco9.Library.BestMerge
import Ecco9.Library.Floats
import Ecco9.Library.HeapQueue
import Ecco9.Library.Replace
import Ecco9.Tokenizer.BytePairEncoding
import Mathlib.Data.Prod.Lex

/-! `model/sentencepiece.go`, first with the scores and the queue of the candidates as parameters: nothing
there depends on the order in which they are merged. Then the loop of `Encode` that merges, with the heap
it has: the pieces of a text are those that come of merging the pair with the highest score, the leftmost
of several. -/

namespace Ecco9.Tokenizer

section

open Ecco9.Library
open LinkedRuns (Rules Candidate Node Waiting Live node)

/-- U+2581, which stands for the space. -/
def spmWhitespaceSep : Text := [0xE2, 0x96, 0x81]

def space : Text := [0x20]

structure SentencePieceModel (S : Type) where
  vocab : Vocabulary
  scores : Nat → S

def hexDigit (n : Nat) : UInt8 := UInt8.ofNat (if n < 10 then 0x30 + n else 0x37 + n)

/-- The token `<0x%02X>` of a byte. -/
def byteToken (b : UInt8) : Text :=
  ascii "<0x" ++ [hexDigit (b.toNat / 16), hexDigit (b.toNat % 16)] ++ ascii ">"

def hexValue (c : UInt8) : Option Nat :=
  let c := c.toNat
  if 0x30 ≤ c ∧ c ≤ 0x39 then some (c - 0x30)
  else if 0x61 ≤ c ∧ c ≤ 0x66 then some (c - 0x57)
  else if 0x41 ≤ c ∧ c ≤ 0x46 then some (c - 0x37)
  else none

/-- `ParseUint` of four characters the first two of which are `0x`, for any base; an underscore may
stand behind them. -/
def parseUint : Text → Option Nat
  | [_, _, c₁, c₂] =>
    if c₁ = 0x5F then hexValue c₂
    else (hexValue c₁).bind fun x => (hexValue c₂).map fun y => 16 * x + y
  | _ => none

/-- The hex byte that could not be parsed. -/
structure ParseError where
  digits : Text
  deriving DecidableEq

def LooksLikeByte (data : Text) : Prop :=
  data.length = 6 ∧ ascii "<0x" <+: data ∧ ascii ">" <:+ data

instance (data : Text) : Decidable (LooksLikeByte data) :=
  inferInstanceAs (Decidable (_ ∧ _ ∧ _))

/-- What `Decode` writes for a token. -/
def decodeToken (value : Text) : Except ParseError Text :=
  let data := replaceAll spmWhitespaceSep space value
  if LooksLikeByte data then
    match parseUint ((data.drop 1).take 4) with
    | some byteVal => .ok [UInt8.ofNat byteVal]
    | none => .error ⟨(data.drop 1).take 4⟩
  else .ok data

/-- Two runs may be merged if what they make is a token, as long as they have the size they had. -/
def pieceRules {S : Type} (spm : SentencePieceModel S) : Rules Text (S × Nat) where
  pairwise left right :=
    (spm.vocab.encode (left.flatten ++ right.flatten)).map fun id =>
      (spm.scores id, left.flatten.length + right.flatten.length)
  accepts key left right := decide (left.flatten.length + right.flatten.length = key.2)

namespace SentencePieceModel

section
variable {S : Type} (spm : SentencePieceModel S) (Q : Queue (Candidate (S × Nat)))

/-- The token of a run, or those of its bytes. -/
def encodeRun (token : Text) : List Nat :=
  match spm.vocab.encode token with
  | some id => [id]
  | none => token.filterMap fun b => spm.vocab.encode (byteToken b)

def encodeFragment (frag : Fragment) : List Nat :=
  if frag.ids ≠ [] then frag.ids
  else
    let text := replaceAll space spmWhitespaceSep frag.value
    match spm.vocab.encode text with
    | some id => [id]
    | none =>
      (LinkedRuns.runs (LinkedRuns.mergeAll (pieceRules spm) Q ((chars text).map ([·])))).flatMap
        fun r => spm.encodeRun r.flatten

def encode (rounds : Nat) (s : Text) (addSpecial : Bool) : Option (List Nat) :=
  (fragments spm.vocab rounds s).map fun fragments =>
    let ids := fragments.flatMap (spm.encodeFragment Q)
    if addSpecial ∧ ids ≠ [] then spm.vocab.addSpecials ids else ids

def decode : List Nat → Except ParseError Text
  | [] => .ok []
  | id :: ids => do
    let data ← decodeToken (spm.vocab.decode id)
    let rest ← decode ids
    return data ++ rest

end

end SentencePieceModel

/-! ### Tokens of bytes -/

theorem decodeToken_byteToken (b : UInt8) : decodeToken (byteToken b) = .ok [b] := by
  revert b
  apply forall_byte
  decide +kernel

section
variable {S : Type} {spm : SentencePieceModel S}

theorem decode_cons {id : Nat} {ids : List Nat} {s t : Text}
    (hs : decodeToken (spm.vocab.decode id) = .ok s) (ht : spm.decode ids = .ok t) :
    spm.decode (id :: ids) = .ok (s ++ t) := by
  rw [SentencePieceModel.decode, hs, ht]
  rfl

theorem decode_one {id : Nat} {s : Text} (hs : decodeToken (spm.vocab.decode id) = .ok s) :
    spm.decode [id] = .ok s := by
  have h : spm.decode [id] = .ok (s ++ []) := decode_cons hs rfl
  rwa [List.append_nil] at h

theorem spm_decode_append {ids ids' : List Nat} {s t : Text} (hs : spm.decode ids = .ok s)
    (ht : spm.decode ids' = .ok t) : spm.decode (ids ++ ids') = .ok (s ++ t) := by
  induction ids generalizing s with
  | nil =>
    cases hs
    exact ht
  | cons id ids ih =>
    rw [SentencePieceModel.decode] at hs
    cases hid : decodeToken (spm.vocab.decode id) with
    | error e =>
      rw [hid] at hs
      cases hs
    | ok data =>
      cases hids : spm.decode ids with
      | error e =>
        rw [hid, hids] at hs
        cases hs
      | ok rest =>
        rw [hid, hids] at hs
        cases hs
        rw [List.append_assoc]
        exact decode_cons hid (ih hids)

theorem spm_decode_flatMap {α : Type} {l : List α} {f : α → List Nat} {g : α → Text}
    (h : ∀ a ∈ l, spm.decode (f a) = .ok (g a)) : spm.decode (l.flatMap f) = .ok (l.flatMap g) := by
  induction l with
  | nil => rfl
  | cons a l ih =>
    rw [List.flatMap_cons, List.flatMap_cons]
    exact spm_decode_append (h a (by simp)) (ih fun b hb => h b (by simp [hb]))

/-- The tokens of its bytes stand for any string. -/
theorem decode_bytes (hbytes : ∀ b, byteToken b ∈ spm.vocab.values) (s : Text) :
    spm.decode (s.filterMap fun b => spm.vocab.encode (byteToken b)) = .ok s := by
  induction s with
  | nil => rfl
  | cons b s ih =>
    obtain ⟨id, hid⟩ := Option.isSome_iff_exists.mp (lastIndex_isSome.mpr (hbytes b))
    have hid : spm.vocab.encode (byteToken b) = some id := hid
    rw [List.filterMap_cons]
    simp only [hid]
    refine decode_cons (s := [b]) ?_ ih
    rw [Vocabulary.decode_encode hid, decodeToken_byteToken]

end

/-! ### Merging -/

/-- A run is a token, or one character. -/
theorem mergeAll_pieceRules {S : Type} (spm : SentencePieceModel S)
    (Q : Queue (Candidate (S × Nat))) (cs : List Text) :
    (LinkedRuns.runs (LinkedRuns.mergeAll (pieceRules spm) Q (cs.map ([·])))).flatten = cs ∧
      ∀ r ∈ LinkedRuns.runs (LinkedRuns.mergeAll (pieceRules spm) Q (cs.map ([·]))),
        r.flatten ∈ spm.vocab.values ∨ ∃ c, r = [c] := by
  have hne : ∀ r ∈ cs.map ([·]), r ≠ [] := by simp
  obtain ⟨_, _, hP, _⟩ := LinkedRuns.mergeAll_spec (R := pieceRules spm) (Q := Q)
    (P := fun ms _ => (LinkedRuns.runs ms).flatten = cs ∧
      ∀ r ∈ LinkedRuns.runs ms, r.flatten ∈ spm.vocab.values ∨ ∃ c, r = [c]) (by
    intro ms h ms' h' waiting ⟨hflat, hmem⟩ hturn
    rcases LinkedRuns.runs_turn waiting hturn with hsame | ⟨L, x, y, rest, y', key, hruns, hruns', hy', hkey, hacc⟩
    · rw [hsame]
      exact ⟨hflat, hmem⟩
    · rw [hruns] at hflat hmem
      rw [hruns']
      refine ⟨by simpa using hflat, ?_⟩
      -- as long as it was, the second run is what it was
      have hvalue : (x ++ y).flatten ∈ spm.vocab.values := by
        obtain ⟨id, hid, rfl⟩ := Option.map_eq_some_iff.mp hkey
        obtain ⟨z, rfl⟩ := hy'
        rw [pieceRules, decide_eq_true_iff] at hacc
        have hz : z.flatten = [] := by
          apply List.eq_nil_of_length_eq_zero
          rw [List.flatten_append, List.length_append] at hacc
          dsimp only at hacc
          omega
        rw [List.flatten_append, List.flatten_append, hz, List.append_nil]
        exact lastIndex_isSome.mp (Option.isSome_iff_exists.mpr ⟨id, hid⟩)
      intro r hr
      simp only [List.mem_append, List.mem_cons] at hr hmem
      rcases hr with hr | rfl | hr
      · exact hmem r (.inl hr)
      · exact .inl hvalue
      · exact hmem r (.inr (.inr (.inr hr)))) hne (by
    rw [LinkedRuns.runs_start hne]
    refine ⟨?_, ?_⟩
    · rw [← List.flatMap_def]
      exact List.flatMap_singleton' _
    · intro r hr
      obtain ⟨c, -, rfl⟩ := List.mem_map.mp hr
      exact .inr ⟨c, rfl⟩)
  exact hP

/-! ### Spaces -/

def mark (c : Text) : Text := if c = space then spmWhitespaceSep else c

def unmark (c : Text) : Text := if c = spmWhitespaceSep then space else c

theorem isChar_space : IsChar space := by decide

theorem isChar_spmWhitespaceSep : IsChar spmWhitespaceSep := by decide

theorem isChar_mark {c : Text} (h : IsChar c) : IsChar (mark c) := by
  unfold mark
  split_ifs
  · exact isChar_spmWhitespaceSep
  · exact h

theorem unmark_mark {c : Text} (h : c ≠ spmWhitespaceSep) : unmark (mark c) = c := by
  by_cases hc : c = space
  · rw [mark, if_pos hc, unmark, if_pos rfl, hc]
  · rw [mark, if_neg hc, unmark, if_neg h]

theorem replaceAll_space {s : Text} (h : utf8Valid s) :
    replaceAll space spmWhitespaceSep s = ((chars s).map mark).flatten := by
  conv_lhs => rw [← flatten_chars h]
  rw [replaceAll_chars isChar_space _ (isChar_of_mem_chars h), List.flatMap_def]
  rfl

theorem replaceAll_sep {cs : List Text} (h : ∀ c ∈ cs, IsChar c) :
    replaceAll spmWhitespaceSep space cs.flatten = cs.flatMap unmark :=
  replaceAll_chars isChar_spmWhitespaceSep _ h

theorem flatMap_unmark {cs : List Text} (h : spmWhitespaceSep ∉ cs) :
    cs.flatMap unmark = cs.flatten := by
  rw [List.flatten_eq_flatMap]
  apply List.flatMap_congr
  intro c hc
  refine if_neg ?_
  rintro rfl
  exact h hc

theorem flatMap_unmark_mark {cs : List Text} (h : spmWhitespaceSep ∉ cs) :
    (cs.map mark).flatMap unmark = cs.flatten := by
  rw [List.flatMap_map, List.flatten_eq_flatMap]
  apply List.flatMap_congr
  intro c hc
  apply unmark_mark
  rintro rfl
  exact h hc

/-! ### Whole texts -/

section
variable {S : Type} {spm : SentencePieceModel S} {Q : Queue (Candidate (S × Nat))} {s : Text}
  (hsep : ¬spmWhitespaceSep <:+: s) (hbytes : ∀ b, byteToken b ∈ spm.vocab.values)
  (hspace : spmWhitespaceSep ∈ spm.vocab.values ∨ 0x20 ∉ s)
  (hlooks : ∀ value ∈ spm.vocab.values, LooksLikeByte (replaceAll spmWhitespaceSep space value) →
    ¬replaceAll spmWhitespaceSep space value <:+: s)

include hsep in
theorem sep_notMem_chars {t : Text} (hvalid : utf8Valid t) (ht : t <:+: s) :
    spmWhitespaceSep ∉ chars t := by
  intro hmem
  apply hsep
  refine List.IsInfix.trans ?_ ht
  rw [← flatten_chars hvalid]
  obtain ⟨l, r, hlr⟩ := List.append_of_mem hmem
  exact ⟨l.flatten, r.flatten, by rw [hlr]; simp⟩

include hlooks in
/-- A token within the text does not look like a byte. -/
theorem decodeToken_within {cs : List Text} (hchars : ∀ c ∈ cs, IsChar c)
    (hvalue : cs.flatten ∈ spm.vocab.values) (hwithin : cs.flatMap unmark <:+: s) :
    decodeToken cs.flatten = .ok (cs.flatMap unmark) := by
  have hreplace := replaceAll_sep hchars
  rw [decodeToken, hreplace]
  refine if_neg fun hlook => ?_
  rw [← hreplace] at hlook hwithin
  exact hlooks _ hvalue hlook hwithin

include hbytes hlooks in
theorem decode_encodeRun {r : List Text} (hchars : ∀ c ∈ r, IsChar c)
    (hrun : r.flatten ∈ spm.vocab.values ∨ ∃ c, r = [c])
    (hsingle : spmWhitespaceSep ∈ spm.vocab.values ∨ spmWhitespaceSep ∉ r)
    (hwithin : r.flatMap unmark <:+: s) :
    spm.decode (spm.encodeRun r.flatten) = .ok (r.flatMap unmark) := by
  rw [SentencePieceModel.encodeRun]
  cases hid : spm.vocab.encode r.flatten with
  | some id =>
    have hvalue := lastIndex_isSome.mp (Option.isSome_iff_exists.mpr ⟨id, hid⟩)
    refine decode_one ?_
    rw [Vocabulary.decode_encode hid, decodeToken_within hlooks hchars hvalue hwithin]
  | none =>
    have hvalue : r.flatten ∉ spm.vocab.values := by
      intro hmem
      have := lastIndex_isSome.mpr hmem
      rw [← Vocabulary.encode, hid] at this
      cases this
    obtain ⟨c, rfl⟩ := hrun.resolve_left hvalue
    have hc : c ≠ spmWhitespaceSep := by
      rintro rfl
      rcases hsingle with hmem | hnot
      · rw [List.flatten_singleton] at hvalue
        exact hvalue hmem
      · simp at hnot
    have hbytes := decode_bytes hbytes [c].flatten
    rw [hbytes, List.flatten_singleton, List.flatMap_singleton, unmark, if_neg hc]

include hsep hbytes hspace hlooks

theorem spm_decode_encodeFragment {f : Fragment} (hof : f.Of spm.vocab) (hvalid : utf8Valid f.value)
    (hwithin : f.value <:+: s) : spm.decode (spm.encodeFragment Q f) = .ok f.value := by
  have hchars := isChar_of_mem_chars hvalid
  have hnot := sep_notMem_chars hsep hvalid hwithin
  have hunmark := flatMap_unmark_mark hnot
  rw [flatten_chars hvalid] at hunmark
  rw [SentencePieceModel.encodeFragment]
  split_ifs with hids
  · obtain ⟨id, hid, hvalue, hspecial⟩ := hof.resolve_left hids
    have hself : (chars f.value).flatMap unmark = f.value := by
      rw [flatMap_unmark hnot, flatten_chars hvalid]
    have htoken := decodeToken_within hlooks hchars
      (by rw [flatten_chars hvalid]; exact mem_specialVocabulary hspecial) (by rwa [hself])
    rw [flatten_chars hvalid, hself] at htoken
    rw [hid]
    refine decode_one ?_
    rw [hvalue, htoken]
  · have hmarked : ∀ c ∈ (chars f.value).map mark, IsChar c := by
      intro c hc
      obtain ⟨d, hd, rfl⟩ := List.mem_map.mp hc
      exact isChar_mark (hchars d hd)
    dsimp only
    rw [replaceAll_space hvalid]
    cases hid : spm.vocab.encode ((chars f.value).map mark).flatten with
    | some id =>
      have hvalue := lastIndex_isSome.mp (Option.isSome_iff_exists.mpr ⟨id, hid⟩)
      refine decode_one ?_
      rw [Vocabulary.decode_encode hid,
        decodeToken_within hlooks hmarked hvalue (by rwa [hunmark]), hunmark]
    | none =>
      dsimp only
      rw [chars_flatten hmarked]
      obtain ⟨hflat, hruns⟩ := mergeAll_pieceRules spm Q ((chars f.value).map mark)
      generalize LinkedRuns.runs (LinkedRuns.mergeAll (pieceRules spm) Q
        (((chars f.value).map mark).map ([·]))) = runs at hflat hruns
      have hdecode : ∀ r ∈ runs, spm.decode (spm.encodeRun r.flatten) = .ok (r.flatMap unmark) := by
        intro r hr
        have hmem : ∀ c ∈ r, c ∈ (chars f.value).map mark := by
          intro c hc
          rw [← hflat]
          exact List.mem_flatten.mpr ⟨r, hr, hc⟩
        refine decode_encodeRun hbytes hlooks (fun c hc => hmarked c (hmem c hc)) (hruns r hr) ?_ ?_
        · refine hspace.imp_right fun hblank hc => ?_
          -- where there is no space, nothing is marked
          obtain ⟨d, hd, hsepd⟩ := List.mem_map.mp (hmem _ hc)
          unfold mark at hsepd
          split_ifs at hsepd with hd'
          · apply hblank
            apply hwithin.subset
            rw [← flatten_chars hvalid]
            exact List.mem_flatten.mpr ⟨d, hd, by rw [hd']; exact List.mem_singleton.mpr rfl⟩
          · exact hnot (hsepd ▸ hd)
        · obtain ⟨l, t, hlt⟩ := List.append_of_mem hr
          refine List.IsInfix.trans ?_ hwithin
          rw [← hunmark, ← hflat, hlt]
          exact ⟨l.flatten.flatMap unmark, t.flatten.flatMap unmark, by simp⟩
      rw [spm_decode_flatMap hdecode, ← hunmark, ← hflat, List.flatten_eq_flatMap, List.flatMap_assoc]
      rfl

/-- Text comes back, as long as nothing in it looks like the token of a byte. -/
theorem spm_decode_encode (hs : utf8Valid s)
    (hspecial : ∀ special ∈ spm.vocab.specialVocabulary, special ≠ [] ∧ utf8Valid special) :
    ∃ rounds ids, spm.encode Q rounds s false = some ids ∧ spm.decode ids = .ok s := by
  obtain ⟨rounds, fs, hfs⟩ := fragments_total (fun t ht => (hspecial t ht).1) s
  refine ⟨rounds, fs.flatMap (spm.encodeFragment Q), ?_, ?_⟩
  · rw [SentencePieceModel.encode, hfs]
    simp
  · obtain ⟨hflat, hof⟩ := fragments_spec hfs
    have hvalid := fragments_valid hs hspecial hfs
    have hdecode : ∀ f ∈ fs, spm.decode (spm.encodeFragment Q f) = .ok f.value := by
      intro f hf
      refine spm_decode_encodeFragment hsep hbytes hspace hlooks (hof f hf) (hvalid f hf) ?_
      obtain ⟨l, t, hlt⟩ := List.append_of_mem hf
      rw [← hflat, hlt]
      exact ⟨l.flatMap Fragment.value, t.flatMap Fragment.value, by simp⟩
    rw [spm_decode_flatMap hdecode, hflat]

end

/-! ### Bytes as pieces -/

/-- The highest score first, and from left to right. -/
def scoreHeap : Queue (Candidate (Int × Nat)) :=
  Queue.ofList (fun c => toLex (-c.key.1, c.a)) (fun cs c => c :: cs) fun _ _ => List.Perm.refl _

/-- The tokens of all bytes, and some pieces. -/
def bytesAnd (pieces : List Text) : SentencePieceModel Int where
  vocab :=
    { values := (List.range 256).map (fun n => byteToken (UInt8.ofNat n)) ++ pieces
      types := List.replicate 256 6 ++ pieces.map fun _ => 1 }
  scores _ := 0

theorem byteToken_mem_bytesAnd (pieces : List Text) (b : UInt8) :
    byteToken b ∈ (bytesAnd pieces).vocab.values :=
  List.mem_append_left _
    (List.mem_map.mpr ⟨b.toNat, List.mem_range.mpr b.toNat_lt, by rw [UInt8.ofNat_toNat]⟩)

theorem ah_so_comes_back :
    ∃ rounds ids,
      (bytesAnd [spmWhitespaceSep, ascii "ah"]).encode scoreHeap rounds (ascii "ah so") false =
        some ids ∧
      (bytesAnd [spmWhitespaceSep, ascii "ah"]).decode ids = .ok (ascii "ah so") :=
  spm_decode_encode (by decide) (byteToken_mem_bytesAnd _) (.inl (by decide +kernel))
    (by decide +kernel) (by decide) (by decide +kernel)

theorem encode_bytesAnd {pieces : List Text}
    (h : (bytesAnd pieces).vocab.specialVocabulary = []) (rounds : Nat) (s : Text) :
    (bytesAnd pieces).encode scoreHeap rounds s false =
      some ((bytesAnd pieces).encodeFragment scoreHeap { value := s }) := by
  rw [SentencePieceModel.encode, fragments, h, splitSpecials, Option.map_some]
  simp

/-- Text that looks like the token of a byte is decoded to the byte; a space that is no piece comes
back as what stands for it, and a byte that is no character as the replacement. -/
theorem token_in_text :
    (∀ pieces b, byteToken b ∈ (bytesAnd pieces).vocab.values) ∧
      ¬spmWhitespaceSep <:+: ascii "<0x41>" ∧
      (∀ rounds, (bytesAnd [spmWhitespaceSep]).encode scoreHeap rounds (ascii "<0x41>") false =
        some [0x41]) ∧
      (bytesAnd [spmWhitespaceSep]).decode [0x41] = .ok (ascii "A") ∧
      (∀ rounds, (bytesAnd []).encode scoreHeap rounds (ascii " ") false =
        some [0xE2, 0x96, 0x81]) ∧
      (bytesAnd []).decode [0xE2, 0x96, 0x81] = .ok spmWhitespaceSep ∧
      (∀ rounds, (bytesAnd [spmWhitespaceSep]).encode scoreHeap rounds [0xFF] false =
        some [0xEF, 0xBF, 0xBD]) ∧
      (bytesAnd [spmWhitespaceSep]).decode [0xEF, 0xBF, 0xBD] = .ok replacement := by
  have hnone : (bytesAnd [spmWhitespaceSep]).vocab.specialVocabulary = [] := by decide +kernel
  have hnone' : (bytesAnd []).vocab.specialVocabulary = [] := by decide +kernel
  refine ⟨byteToken_mem_bytesAnd, by decide, ?_, by decide +kernel, ?_, by decide +kernel, ?_,
    by decide +kernel⟩
  · intro rounds
    rw [encode_bytesAnd hnone]
    decide +kernel
  · intro rounds
    rw [encode_bytesAnd hnone']
    decide +kernel
  · intro rounds
    rw [encode_bytesAnd hnone]
    decide +kernel

end

section

open Ecco9.Library
open LinkedRuns (Rules Candidate Node Live node)

/-- A score is a number, so that of two scores one is higher or they are equal. -/
abbrev Score := { x : Float32 // x.isNaN = false }

/-- `Less` -/
def queueLess (c d : Candidate (Score × Nat)) : Bool :=
  decide (c.key.1.1 > d.key.1.1) || (c.key.1.1 == d.key.1.1 && decide (c.a < d.a))

/-- The score is higher. -/
def higher (k k' : Score × Nat) : Bool := decide (k.1.1 > k'.1.1)

theorem higher_order : HeapOrder higher fun _ => True where
  asymm h := by
    rw [higher, decide_eq_true_iff] at h
    rw [higher, decide_eq_false_iff_not]
    exact lt_asymm_float h
  trans {x y z} _ hyx hzy := by
    rw [higher, decide_eq_false_iff_not] at hyx hzy ⊢
    exact not_lt_trans y.1.2 hzy hyx

theorem queueLess_eq (c d : Candidate (Score × Nat)) :
    queueLess c d = LinkedRuns.precedes higher c d := by
  rw [queueLess, LinkedRuns.precedes, higher, higher]
  by_cases hcd : c.key.1.1 > d.key.1.1
  · rw [decide_eq_true hcd, Bool.true_or, Bool.true_or]
  · have hbeq := beq_iff c.key.1.2 d.key.1.2
    rw [decide_eq_false hcd, Bool.false_or, Bool.false_or]
    congr 1
    rw [Bool.eq_iff_iff, hbeq, Bool.not_eq_true', decide_eq_false_iff_not]
    exact ⟨fun h => h.1, fun h => ⟨h, hcd⟩⟩

theorem queueLess_order : HeapOrder queueLess fun _ => True := by
  have heq : queueLess = LinkedRuns.precedes higher := by
    funext c d
    exact queueLess_eq c d
  rw [heq]
  exact LinkedRuns.precedes_order higher_order

/-- The heap of the candidates. -/
def pieceQueue : Queue (Candidate (Score × Nat)) := Heaps.queue queueLess_order

theorem pieceQueue_popsLeast :
    pieceQueue.PopsLeast fun c d => LinkedRuns.precedes higher d c = false := by
  intro h c h' hpop d hd
  rw [← queueLess_eq]
  exact Heaps.queue_popsLeast queueLess_order h c h' hpop d hd

/-- A candidate is what it was made for if it still has its size. -/
theorem pieceRules_exact {S : Type} (spm : SentencePieceModel S) :
    (pieceRules spm).Exact (· ≠ []) where
  grown x y y' key hne hy hkey hacc := by
    obtain ⟨id, -, rfl⟩ := Option.map_eq_some_iff.mp hkey
    rw [pieceRules, decide_eq_true_iff] at hacc
    exact LinkedRuns.eq_of_isPrefix hne hy (Nat.add_left_cancel hacc.symm)
  same x y key hkey := by
    obtain ⟨id, -, rfl⟩ := Option.map_eq_some_iff.mp hkey
    exact decide_eq_true rfl

/-- The runs of the characters of a text, each of its own. -/
def singles (text : Text) : List (List Text) := (chars text).map ([·])

def pieces (spm : SentencePieceModel Score) (text : Text) : List (List Text) :=
  LinkedRuns.runs (LinkedRuns.mergeAll (pieceRules spm) pieceQueue (singles text))

/-- The pieces are what is left when the pair with the highest score, among those that make a token, is
merged again and again, the leftmost of several. The loop ends with no candidate left, and each of its
turns joins two neighbours that are what their candidate was made for, or passes over a candidate that
is not any more. -/
theorem pieces_reference (spm : SentencePieceModel Score) (text : Text) :
    (∀ result, LinkedRuns.Merged (pieceRules spm) higher (singles text) result ↔
      result = pieces spm text) ∧
    (∃ h, Relation.ReflTransGen (LinkedRuns.Turns (pieceRules spm) pieceQueue)
        (LinkedRuns.begun (pieceRules spm) pieceQueue (singles text))
        (LinkedRuns.mergeAll (pieceRules spm) pieceQueue (singles text), h) ∧
      LinkedRuns.turn (pieceRules spm) pieceQueue
        (LinkedRuns.mergeAll (pieceRules spm) pieceQueue (singles text)) h = none) ∧
    ∀ s t, Relation.ReflTransGen (LinkedRuns.Turns (pieceRules spm) pieceQueue)
        (LinkedRuns.begun (pieceRules spm) pieceQueue (singles text)) s →
      LinkedRuns.Turns (pieceRules spm) pieceQueue s t →
      ∃ c h₁, pieceQueue.pop s.2 = some (c, h₁) ∧
        (LinkedRuns.TakenUp (pieceRules spm) pieceQueue (singles text) s t c ∨
          t = (s.1, h₁) ∧ ¬(Live s.1 c.a ∧ Live s.1 c.b ∧
            (pieceRules spm).pairwise (node s.1 c.a).runes (node s.1 c.b).runes = some c.key)) := by
  have exact := pieceRules_exact spm
  have hne : ∀ r ∈ singles text, r ≠ [] := by simp [singles]
  have hgood : ∀ c ∈ (singles text).flatten, c ≠ [] := by
    intro c hc
    rw [singles, ← List.flatMap_def, List.flatMap_singleton'] at hc
    exact chars_ne_nil c hc
  obtain ⟨hmerged, hend⟩ := LinkedRuns.mergeAll_merged exact (fun key => higher_order.irrefl key)
    pieceQueue_popsLeast hne hgood
  refine ⟨fun result => ⟨fun h => h.unique hmerged, fun h => h ▸ hmerged⟩, hend, ?_⟩
  intro s t run hturn
  obtain ⟨c, h₁, hpop, ⟨taken, -⟩ | stale⟩ := LinkedRuns.turn_exact exact hne hgood run hturn
  · exact ⟨c, h₁, hpop, .inl taken⟩
  · exact ⟨c, h₁, hpop, .inr stale⟩

end

end Ecco9.Tokenizer
