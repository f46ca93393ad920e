import Ecco9.Library.Merging
import Ecco9.Tokenizer.Vocabulary

/-! `model/bytepairencoding.go`. The regular expression that cuts text into pieces and the heap of
the pairs are other people's code, and parameters here. -/

namespace Ecco9.Tokenizer

open Ecco9.Library
open LinkedRuns (Rules Candidate Node Waiting Live node runsBefore)

structure BytePairEncoding where
  split : Text → List Text
  vocab : Vocabulary

/-- The rune that a byte is written as. -/
def mapByte (b : UInt8) : Nat :=
  let r := b.toNat
  if r = 0x00ad then 0x0143
  else if r ≤ 0x0020 then r + 0x0100
  else if r ≥ 0x007e ∧ r ≤ 0x00a0 then r + 0x00a2
  else r

/-- The bytes that `Decode` writes for a rune. -/
def unmapRune (r : Nat) : Text :=
  if r = 0x0100 then []
  else
    let r :=
      if r = 0x0143 then 0x00ad
      else if r > 0x0100 ∧ r ≤ 0x0120 then r - 0x0100
      else if r > 0x0120 ∧ r ≤ 0x0142 then r - 0x00a2
      else r
    [UInt8.ofNat r]

/-- A pair of runs has a rank and a value. It is merged if they still have the value, and that is in
the vocabulary. -/
def pairRules (v : Vocabulary) : Rules Text (Nat × Text) where
  pairwise left right :=
    (v.merge left.flatten right.flatten).map fun rank => (rank, left.flatten ++ right.flatten)
  accepts key left right :=
    decide (left.flatten ++ right.flatten = key.2) && (v.encode key.2).isSome

namespace BytePairEncoding

section
variable (bpe : BytePairEncoding) (Q : Queue (Candidate (Nat × Text)))

/-- The tokens of a piece of text. -/
def encodeSplit (split : Text) : List Nat :=
  let sb := split.flatMap fun b => encodeRune (mapByte b)
  match bpe.vocab.encode sb with
  | some id => [id]
  | none =>
    (LinkedRuns.runs
      (LinkedRuns.mergeAll (pairRules bpe.vocab) Q ((chars sb).map ([·])))).filterMap
        fun r => bpe.vocab.encode r.flatten

def encodeFragment (frag : Fragment) : List Nat :=
  if frag.ids ≠ [] then frag.ids else (bpe.split frag.value).flatMap (bpe.encodeSplit Q)

def encode (rounds : Nat) (s : Text) (addSpecial : Bool) : Option (List Nat) :=
  (fragments bpe.vocab rounds s).map fun fragments =>
    let ids := fragments.flatMap (bpe.encodeFragment Q)
    if addSpecial ∧ ids ≠ [] then bpe.vocab.addSpecials ids else ids

def decode (ids : List Nat) : Text :=
  ids.flatMap fun id => (runes (bpe.vocab.decode id)).flatMap unmapRune

end

end BytePairEncoding

/-- The bytes that `Decode` makes of a string of the vocabulary. -/
def decodeValue (value : Text) : Text := (runes value).flatMap unmapRune

/-! ### Bytes and runes -/

theorem forall_byte {p : UInt8 → Prop} (h : ∀ n < 256, p (UInt8.ofNat n)) (b : UInt8) : p b := by
  have := h b.toNat b.toNat_lt
  rwa [UInt8.ofNat_toNat] at this

theorem isChar_mapByte (b : UInt8) : IsChar (encodeRune (mapByte b)) := by
  revert b
  apply forall_byte
  decide +kernel

/-- The tilde is written as the space is. -/
def blankTilde (b : UInt8) : UInt8 := if b = 0x7E then 0x20 else b

theorem unmapRune_mapByte (b : UInt8) (hb : b ≠ 0) :
    unmapRune (runeValue (encodeRune (mapByte b))) = [blankTilde b] := by
  revert b
  apply forall_byte
  decide +kernel

theorem decodeValue_flatten {cs : List Text} (h : ∀ c ∈ cs, IsChar c) :
    decodeValue cs.flatten = cs.flatMap fun c => unmapRune (runeValue c) := by
  rw [decodeValue, runes, chars_flatten h, List.flatMap_map]

/-! ### One piece of text -/

theorem pairRules_accepts {v : Vocabulary} {key : Nat × Text} {left right : List Text}
    (h : (pairRules v).accepts key left right = true) :
    left.flatten ++ right.flatten = key.2 ∧ key.2 ∈ v.values := by
  rw [pairRules, Bool.and_eq_true, decide_eq_true_iff] at h
  exact ⟨h.1, lastIndex_isSome.mp h.2⟩

/-- All runs are in the vocabulary, and make up the text. -/
theorem mergeAll_pairRules (v : Vocabulary) (Q : Queue (Candidate (Nat × Text))) {cs : List Text}
    (hcs : ∀ c ∈ cs, c ∈ v.values) :
    (LinkedRuns.runs (LinkedRuns.mergeAll (pairRules v) Q (cs.map ([·])))).flatten = cs ∧
      ∀ r ∈ LinkedRuns.runs (LinkedRuns.mergeAll (pairRules v) Q (cs.map ([·]))),
        r.flatten ∈ v.values := by
  have hne : ∀ r ∈ cs.map ([·]), r ≠ [] := by simp
  obtain ⟨_, _, hP, _⟩ := LinkedRuns.mergeAll_spec (R := pairRules v) (Q := Q)
    (P := fun ms _ => (LinkedRuns.runs ms).flatten = cs ∧
      ∀ r ∈ LinkedRuns.runs ms, r.flatten ∈ v.values) (by
    intro ms h ms' h' waiting ⟨hflat, hmem⟩ hturn
    rcases LinkedRuns.runs_turn waiting hturn with hsame | ⟨L, x, y, rest, y', key, hruns, hruns', -, -, hacc⟩
    · rw [hsame]
      exact ⟨hflat, hmem⟩
    · obtain ⟨hkey, hvalue⟩ := pairRules_accepts hacc
      rw [hruns] at hflat hmem
      rw [hruns']
      refine ⟨by simpa using hflat, ?_⟩
      intro r hr
      simp only [List.mem_append, List.mem_cons] at hr hmem
      rcases hr with hr | rfl | hr
      · exact hmem r (.inl hr)
      · rwa [List.flatten_append, hkey]
      · exact hmem r (.inr (.inr (.inr hr)))) hne (by
    rw [LinkedRuns.runs_start hne]
    refine ⟨?_, ?_⟩
    · rw [← List.flatMap_def]
      exact List.flatMap_singleton' _
    · intro r hr
      obtain ⟨c, hc, rfl⟩ := List.mem_map.mp hr
      simpa using hcs c hc)
  exact hP

section
variable {bpe : BytePairEncoding} {Q : Queue (Candidate (Nat × Text))}

theorem decode_singleton (id : Nat) :
    bpe.decode [id] = decodeValue (bpe.vocab.decode id) := by
  simp [BytePairEncoding.decode, decodeValue]

theorem decode_append (ids ids' : List Nat) :
    bpe.decode (ids ++ ids') = bpe.decode ids ++ bpe.decode ids' :=
  List.flatMap_append ..

theorem decode_flatMap {α : Type} (l : List α) (f : α → List Nat) :
    bpe.decode (l.flatMap f) = l.flatMap fun a => bpe.decode (f a) := by
  induction l with
  | nil => rfl
  | cons a l ih => rw [List.flatMap_cons, decode_append, ih, List.flatMap_cons]

/-- Runs of the vocabulary decode to what they are made of. -/
theorem decode_runs {rs : List (List Text)} (hvalues : ∀ r ∈ rs, r.flatten ∈ bpe.vocab.values)
    (hchars : ∀ r ∈ rs, ∀ c ∈ r, IsChar c) :
    bpe.decode (rs.filterMap fun r => bpe.vocab.encode r.flatten) =
      rs.flatten.flatMap fun c => unmapRune (runeValue c) := by
  induction rs with
  | nil => rfl
  | cons r rs ih =>
    obtain ⟨id, hid⟩ := Option.isSome_iff_exists.mp (lastIndex_isSome.mpr (hvalues r (by simp)))
    have hid : bpe.vocab.encode r.flatten = some id := hid
    have hrest := ih (fun s hs => hvalues s (by simp [hs])) fun s hs => hchars s (by simp [hs])
    rw [List.filterMap_cons]
    simp only [hid]
    rw [← List.singleton_append, decode_append, decode_singleton, Vocabulary.decode_encode hid, decodeValue_flatten (hchars r (by simp)), hrest,
      List.flatten_cons, List.flatMap_append]

theorem decode_encodeSplit (hbytes : ∀ b, encodeRune (mapByte b) ∈ bpe.vocab.values)
    {split : Text} (hnul : 0 ∉ split) :
    bpe.decode (bpe.encodeSplit Q split) = split.map blankTilde := by
  have hchar : ∀ c ∈ split.map fun b => encodeRune (mapByte b), IsChar c := by
    intro c hc
    obtain ⟨b, -, rfl⟩ := List.mem_map.mp hc
    exact isChar_mapByte b
  have hvalues : ∀ c ∈ split.map fun b => encodeRune (mapByte b), c ∈ bpe.vocab.values := by
    intro c hc
    obtain ⟨b, -, rfl⟩ := List.mem_map.mp hc
    exact hbytes b
  have hunmap : (split.map fun b => encodeRune (mapByte b)).flatMap
      (fun c => unmapRune (runeValue c)) = split.map blankTilde := by
    induction split with
    | nil => rfl
    | cons b split ih =>
      rw [List.mem_cons, not_or] at hnul
      have hrest := ih hnul.2 (fun c hc => hchar c (by simp [hc])) fun c hc => hvalues c (by simp [hc])
      rw [List.map_cons, List.flatMap_cons, unmapRune_mapByte b (Ne.symm hnul.1), hrest,
        List.map_cons, List.singleton_append]
  rw [BytePairEncoding.encodeSplit, List.flatMap_def]
  generalize split.map (fun b => encodeRune (mapByte b)) = cs at hchar hvalues hunmap
  cases hid : bpe.vocab.encode cs.flatten with
  | some id =>
    dsimp only
    rw [decode_singleton, Vocabulary.decode_encode hid, decodeValue_flatten hchar, hunmap]
  | none =>
    dsimp only
    rw [chars_flatten hchar]
    obtain ⟨hflat, hmem⟩ := mergeAll_pairRules bpe.vocab Q hvalues
    rw [decode_runs hmem, hflat, hunmap]
    intro r hr c hc
    apply hchar
    rw [← hflat]
    exact List.mem_flatten_of_mem hr hc

end

/-! ### The values of special tokens -/

theorem length_unmapRune_le (r : Nat) : (unmapRune r).length ≤ 1 := by
  unfold unmapRune
  split_ifs <;> simp

theorem decodeValue_of_width {s : Text} {w : Nat} (h : charWidth s = some w) :
    decodeValue s = unmapRune (runeValue (s.take w)) ++ decodeValue (s.drop w) := by
  rw [decodeValue, runes, chars_of_width h, List.map_cons, List.flatMap_cons]
  rfl

theorem decodeValue_of_none {b : UInt8} {s : Text} (h : charWidth (b :: s) = none) :
    decodeValue (b :: s) = 0xFD :: decodeValue s := by
  rw [decodeValue, runes, chars_of_none h, List.map_cons, List.flatMap_cons,
    show unmapRune (runeValue replacement) = [0xFD] by decide, List.singleton_append]
  rfl

theorem length_decodeValue_le (s : Text) : (decodeValue s).length ≤ s.length := by
  induction hn : s.length using Nat.strongRecOn generalizing s with
  | ind n ih =>
    cases s with
    | nil => exact Nat.zero_le _
    | cons b s =>
      cases hw : charWidth (b :: s) with
      | none =>
        have := ih s.length (by rw [← hn]; exact Nat.lt_succ_self _) s rfl
        rw [decodeValue_of_none hw, List.length_cons, ← hn, List.length_cons]
        omega
      | some w =>
        have hpos := charWidth_pos hw
        have hlen : ((b :: s).drop w).length = (b :: s).length - w := List.length_drop
        have hrest := ih _ (by rw [hlen, ← hn]; simp only [List.length_cons]; omega)
          ((b :: s).drop w) rfl
        have hone := length_unmapRune_le (runeValue ((b :: s).take w))
        rw [decodeValue_of_width hw, List.length_append, ← hn]
        simp only [List.length_cons] at hlen hrest ⊢
        omega

theorem charWidth_ascii {b : UInt8} (hb : b.toNat < 0x80) (s : Text) :
    charWidth (b :: s) = some 1 := by
  have hlead : Utf8.lead b.toNat = some Utf8.start := by
    rw [Utf8.lead, if_pos hb]
  have hvalid : utf8Valid [b] := by
    rw [utf8Valid_iff, Utf8.run, Utf8.step, if_pos (by rfl), hlead]
    rfl
  rw [charWidth, hlead]
  exact if_pos hvalid

theorem unmapRune_ascii {b : UInt8} (hb : b.toNat < 0x80) : unmapRune b.toNat = [b] := by
  rw [unmapRune, if_neg (by omega), if_neg (by omega), if_neg (by omega), if_neg (by omega)]
  simp only [UInt8.ofNat_toNat]

/-- A value comes back if it is ASCII (or has bytes FD, which the replacement of an invalid byte
happens to end up as). -/
theorem decodeValue_eq_iff (s : Text) :
    decodeValue s = s ↔ ∀ b ∈ s, b.toNat < 0x80 ∨ b = 0xFD := by
  induction hn : s.length using Nat.strongRecOn generalizing s with
  | ind n ih =>
    cases s with
    | nil => simp [decodeValue, runes]
    | cons b s =>
      have hrest := ih s.length (by rw [← hn]; exact Nat.lt_succ_self _) s rfl
      rw [List.forall_mem_cons, ← hrest]
      by_cases hb : b.toNat < 0x80
      · have hw := charWidth_ascii hb s
        rw [decodeValue_of_width hw]
        simp only [List.take_succ_cons, List.take_zero, List.drop_succ_cons, List.drop_zero,
          runeValue, unmapRune_ascii hb, List.singleton_append, List.cons.injEq, true_and, hb,
          true_or]
      · cases hw : charWidth (b :: s) with
        | none =>
          rw [decodeValue_of_none hw, List.cons.injEq]
          simp only [hb, false_or, eq_comm]
        | some w =>
          -- several bytes, for which at most one comes back
          have hlong : 2 ≤ w ∧ b ≠ 0xFD := by
            rw [charWidth] at hw
            cases hlead : Utf8.lead b.toNat with
            | none =>
              rw [hlead] at hw
              cases hw
            | some st =>
              rw [hlead] at hw
              dsimp only at hw
              split_ifs at hw
              refine ⟨?_, ?_⟩
              · have howed : st.owed ≠ 0 := by
                  intro hzero
                  rw [Utf8.lead, if_neg hb] at hlead
                  split_ifs at hlead <;> cases hlead <;> simp at hzero
                have := Option.some.inj hw
                omega
              · rintro rfl
                cases hlead
          have hle := charWidth_le hw
          have hdrop := length_decodeValue_le ((b :: s).drop w)
          have hone := length_unmapRune_le (runeValue ((b :: s).take w))
          constructor
          · intro h
            exfalso
            have hlen := congrArg List.length h
            rw [decodeValue_of_width hw, List.length_append] at hlen
            rw [List.length_drop] at hdrop
            simp only [List.length_cons] at hlen hdrop hle
            omega
          · rintro ⟨h | h, -⟩
            · exact absurd h hb
            · exact absurd h hlong.2

/-! ### Whole texts -/

/-- Plain text without tildes, or a special token of ASCII characters. -/
def Fragment.Survives (f : Fragment) : Prop :=
  if f.ids = [] then 0x7E ∉ f.value else ∀ b ∈ f.value, b.toNat < 0x80 ∨ b = 0xFD

theorem map_blankTilde_eq_iff (s : Text) : s.map blankTilde = s ↔ 0x7E ∉ s := by
  induction s with
  | nil => simp
  | cons b s ih =>
    rw [List.map_cons, List.cons.injEq, ih, List.mem_cons, not_or]
    refine and_congr_left fun _ => ?_
    unfold blankTilde
    split_ifs with hb
    · simp [hb]
    · simp [Ne.symm hb]

theorem flatMap_eq_iff {α β : Type} {l : List α} {f g : α → List β}
    (h : ∀ a ∈ l, (f a).length ≤ (g a).length) :
    l.flatMap f = l.flatMap g ↔ ∀ a ∈ l, f a = g a := by
  induction l with
  | nil => simp
  | cons a l ih =>
    have ha := h a (by simp)
    have hl : ∀ b ∈ l, (f b).length ≤ (g b).length := fun b hb => h b (by simp [hb])
    have hle : (l.flatMap f).length ≤ (l.flatMap g).length := by
      clear ih h ha
      induction l with
      | nil => exact Nat.le_refl _
      | cons b l ih =>
        have := hl b (by simp)
        have := ih fun c hc => hl c (by simp [hc])
        rw [List.flatMap_cons, List.flatMap_cons, List.length_append, List.length_append]
        omega
    rw [List.flatMap_cons, List.flatMap_cons, List.forall_mem_cons, ← ih hl]
    constructor
    · intro heq
      have hlen := congrArg List.length heq
      rw [List.length_append, List.length_append] at hlen
      exact List.append_inj heq (by omega)
    · rintro ⟨h₁, h₂⟩
      rw [h₁, h₂]

section
variable {bpe : BytePairEncoding} {Q : Queue (Candidate (Nat × Text))}
  (hsplit : ∀ s, (bpe.split s).flatten = s)
  (hbytes : ∀ b, encodeRune (mapByte b) ∈ bpe.vocab.values)
include hsplit hbytes

theorem decode_encodeFragment {f : Fragment} (hf : f.Of bpe.vocab) (hnul : 0 ∉ f.value) :
    bpe.decode (bpe.encodeFragment Q f) =
      if f.ids = [] then f.value.map blankTilde else decodeValue f.value := by
  rw [BytePairEncoding.encodeFragment]
  by_cases hids : f.ids = []
  · rw [if_neg (by simpa using hids), if_pos hids, decode_flatMap]
    have hpieces : ∀ p ∈ bpe.split f.value, bpe.decode (bpe.encodeSplit Q p) = p.map blankTilde := by
      intro p hp
      apply decode_encodeSplit hbytes
      intro hzero
      rw [← hsplit f.value] at hnul
      exact hnul (List.mem_flatten_of_mem hp hzero)
    rw [List.flatMap_congr hpieces, List.flatMap_def, ← List.map_flatten, hsplit]
  · rw [if_pos hids, if_neg hids]
    obtain ⟨id, hid, hvalue, -⟩ := hf.resolve_left hids
    rw [hid, decode_singleton, hvalue]

/-- A text is decoded to itself iff its special tokens are ASCII and no tilde stands outside of
them; they must not be empty, or the text is not encoded at all. -/
theorem decode_encode_iff {s : Text} (hnul : 0 ∉ s) :
    (∃ rounds ids, bpe.encode Q rounds s false = some ids ∧ bpe.decode ids = s) ↔
      ∃ rounds fs, fragments bpe.vocab rounds s = some fs ∧ ∀ f ∈ fs, f.Survives := by
  have hone {rounds : Nat} {fs : List Fragment} (hfs : fragments bpe.vocab rounds s = some fs) :
      bpe.decode (fs.flatMap (bpe.encodeFragment Q)) = s ↔ ∀ f ∈ fs, f.Survives := by
    obtain ⟨hflat, hof⟩ := fragments_spec hfs
    have hdecode : ∀ f ∈ fs, bpe.decode (bpe.encodeFragment Q f) =
        if f.ids = [] then f.value.map blankTilde else decodeValue f.value := by
      intro f hf
      apply decode_encodeFragment hsplit hbytes (hof f hf)
      intro hzero
      rw [← hflat] at hnul
      exact hnul (List.mem_flatMap.mpr ⟨f, hf, hzero⟩)
    conv_lhs => rw [← hflat]
    rw [decode_flatMap, List.flatMap_congr hdecode, flatMap_eq_iff]
    · refine forall₂_congr fun f _ => ?_
      unfold Fragment.Survives
      split_ifs
      · exact map_blankTilde_eq_iff f.value
      · exact decodeValue_eq_iff f.value
    · intro f _
      split_ifs
      · rw [List.length_map]
      · exact length_decodeValue_le f.value
  constructor
  · rintro ⟨rounds, ids, hencode, hdecode⟩
    rw [BytePairEncoding.encode, Option.map_eq_some_iff] at hencode
    obtain ⟨fs, hfs, hids⟩ := hencode
    simp only [Bool.false_eq_true, false_and, if_false] at hids
    rw [← hids] at hdecode
    exact ⟨rounds, fs, hfs, (hone hfs).mp hdecode⟩
  · rintro ⟨rounds, fs, hfs, hsurvive⟩
    refine ⟨rounds, fs.flatMap (bpe.encodeFragment Q), ?_, (hone hfs).mpr hsurvive⟩
    rw [BytePairEncoding.encode, hfs]
    simp

end

/-- A vocabulary of single bytes, with text as one piece. -/
def byteLevel : BytePairEncoding where
  split s := [s]
  vocab :=
    { values := (List.range 256).map fun n => encodeRune (mapByte (UInt8.ofNat n))
      types := List.replicate 256 1 }

theorem byteLevel_split (s : Text) : (byteLevel.split s).flatten = s := List.append_nil s

theorem mem_byteLevel (b : UInt8) : encodeRune (mapByte b) ∈ byteLevel.vocab.values :=
  List.mem_map.mpr ⟨b.toNat, List.mem_range.mpr b.toNat_lt, by rw [UInt8.ofNat_toNat]⟩

/-- A heap of pairs, as a list. -/
def listHeap : Queue (Candidate (Nat × Text)) :=
  Queue.ofList (fun c => c.key.1) (fun cs c => cs ++ [c]) fun _ _ => List.perm_append_singleton ..

theorem hi_survives :
    (∃ rounds ids, byteLevel.encode listHeap rounds (ascii "hi") false = some ids ∧
      byteLevel.decode ids = ascii "hi") ↔
    ∃ rounds fs, fragments byteLevel.vocab rounds (ascii "hi") = some fs ∧
      ∀ f ∈ fs, f.Survives :=
  decode_encode_iff byteLevel_split mem_byteLevel (by decide)

/-- The tilde is encoded as the space is, and decoded to it. -/
theorem tilde_becomes_space :
    utf8Valid [0x7E] ∧ 0 ∉ ([0x7E] : Text) ∧ (∀ s, (byteLevel.split s).flatten = s) ∧
      (∀ b, encodeRune (mapByte b) ∈ byteLevel.vocab.values) ∧
      (∀ rounds, byteLevel.encode listHeap rounds [0x7E] false = some [126]) ∧
      byteLevel.decode [126] = [0x20] := by
  refine ⟨by decide, by decide, byteLevel_split, mem_byteLevel, ?_, by decide +kernel⟩
  intro rounds
  have hspecial : byteLevel.vocab.specialVocabulary = [] := by decide +kernel
  rw [BytePairEncoding.encode, fragments, hspecial, splitSpecials, Option.map_some]
  decide +kernel

end Ecco9.Tokenizer
