import Ecco9.Library.Assignments
import Ecco9.Library.Replace
import Ecco9.Library.Search

/-! Several strings replaced one after another, each in all that the others have left, and when that is the
same as to replace them in one pass. -/

namespace Ecco9.Library

/-- What one pass finds: a byte that stays, or a string that is replaced. -/
inductive Piece
  | byte (b : UInt8)
  | word (old : Text)
  deriving DecidableEq

/-- The number says how much of the last string is still to be dropped. -/
def piecesFrom (olds : List Text) : Nat → Text → List Piece
  | _, [] => []
  | k + 1, _ :: s => piecesFrom olds k s
  | 0, b :: s =>
    match olds.find? fun old => old <+: b :: s with
    | some old => .word old :: piecesFrom olds (old.length - 1) s
    | none => .byte b :: piecesFrom olds 0 s

def pieces (olds : List Text) (s : Text) : List Piece := piecesFrom olds 0 s

/-- What a piece is when the strings in `done` are replaced. -/
def Piece.fill (done : List (Text × Text)) : Piece → Text
  | byte b => [b]
  | word old => ((Keyed.lookup Prod.fst old done).map Prod.snd).getD old

def fill (done : List (Text × Text)) (ps : List Piece) : Text := ps.flatMap (Piece.fill done)

/-- What stands between the pieces that are `old`. -/
def parts (done : List (Text × Text)) (old : Text) : List Piece → List Text
  | [] => [[]]
  | p :: ps =>
    if p = .word old then [] :: parts done old ps
    else (parts done old ps).modifyHead (p.fill done ++ ·)

/-- `old` begins nowhere but in the pieces that it is. -/
def Only (done : List (Text × Text)) (old : Text) : List Piece → Prop
  | [] => True
  | p :: ps =>
    (p ≠ .word old → ∀ j < (p.fill done).length, ¬old <+: (fill done (p :: ps)).drop j) ∧
      Only done old ps

instance decidableOnly (done : List (Text × Text)) (old : Text) : DecidablePred (Only done old)
  | [] => .isTrue trivial
  | _ :: ps => @instDecidableAnd _ _ inferInstance (decidableOnly done old ps)

def oneByOne (pairs : List (Text × Text)) (s : Text) : Text :=
  pairs.foldl (fun s p => replaceAll p.1 p.2 s) s

/-! ### Pieces -/

theorem fill_cons (done : List (Text × Text)) (p : Piece) (ps : List Piece) :
    fill done (p :: ps) = p.fill done ++ fill done ps := List.flatMap_cons

/-- Before anything is replaced the pieces are the text. -/
theorem fill_piecesFrom {olds : List Text} (holds : [] ∉ olds) (k : Nat) (s : Text) :
    fill [] (piecesFrom olds k s) = s.drop k := by
  induction s generalizing k with
  | nil => rw [piecesFrom, List.drop_nil, fill, List.flatMap_nil]
  | cons b s ih =>
    cases k with
    | succ k => rw [piecesFrom, ih, List.drop_succ_cons]
    | zero =>
      rw [piecesFrom]
      cases hfind : olds.find? fun old => old <+: b :: s with
      | none =>
        dsimp only
        rw [fill_cons, ih]
        rfl
      | some old =>
        have hfits := List.find?_some hfind
        rw [decide_eq_true_eq] at hfits
        obtain ⟨rest, hrest⟩ := hfits
        obtain ⟨c, old, rfl⟩ : ∃ c old', old = c :: old' :=
          List.exists_cons_of_ne_nil fun h => holds (h ▸ List.mem_of_find?_eq_some hfind)
        rw [List.cons_append, List.cons.injEq] at hrest
        obtain ⟨rfl, rfl⟩ := hrest
        dsimp only
        rw [fill_cons, ih, List.length_cons, Nat.add_sub_cancel, List.drop_left]
        rfl

/-- When all are replaced the pieces are what one pass makes of the text. -/
theorem fill_eq_replacerFrom {pairs : List (Text × Text)} (distinct : (pairs.map Prod.fst).Nodup)
    (k : Nat) (s : Text) : fill pairs (piecesFrom (pairs.map Prod.fst) k s) = replacerFrom pairs k s := by
  induction s generalizing k with
  | nil => rw [piecesFrom, replacerFrom, fill, List.flatMap_nil]
  | cons b s ih =>
    cases k with
    | succ k => rw [piecesFrom, ih, replacerFrom]
    | zero =>
      rw [piecesFrom, replacerFrom, List.find?_map]
      dsimp only [Function.comp_def]
      cases hfind : pairs.find? fun p => p.1 <+: b :: s with
      | none =>
        dsimp only [Option.map_none]
        rw [fill_cons, ih]
        rfl
      | some p =>
        dsimp only [Option.map_some]
        rw [fill_cons, ih, Piece.fill, Keyed.lookup_of_mem distinct (List.mem_of_find?_eq_some hfind)]
        rfl

theorem fill_perm {done done' : List (Text × Text)} (perm : done.Perm done')
    (distinct : (done.map Prod.fst).Nodup) (ps : List Piece) : fill done ps = fill done' ps := by
  refine congrArg (ps.flatMap ·) (funext fun p => ?_)
  cases p with
  | byte b => rfl
  | word old => rw [Piece.fill, Piece.fill, Keyed.lookup, Keyed.lookup, find?_eq_of_perm perm distinct]

section

variable {done : List (Text × Text)} {old new : Text} {p : Piece}

theorem fill_word (fresh : old ∉ done.map Prod.fst) : (Piece.word old).fill done = old := by
  rw [Piece.fill, Keyed.lookup_eq_none.mpr fresh]
  rfl

theorem fill_word_done (fresh : old ∉ done.map Prod.fst) :
    (Piece.word old).fill (done ++ [(old, new)]) = new := by
  rw [← Keyed.lookup_eq_none] at fresh
  rw [Keyed.lookup] at fresh
  rw [Piece.fill, Keyed.lookup, List.find?_append, fresh]
  simp

theorem fill_other (h : p ≠ .word old) : p.fill (done ++ [(old, new)]) = p.fill done := by
  cases p with
  | byte b => rfl
  | word o =>
    have hne : old ≠ o := fun heq => h (heq ▸ rfl)
    rw [Piece.fill, Piece.fill, Keyed.lookup, Keyed.lookup, List.find?_append,
      List.find?_cons_of_neg (by simpa using hne), List.find?_nil, Option.or_none]

theorem modifyHead_append_inj {α : Type} {x : List α} {l m : List (List α)}
    (h : l.modifyHead (x ++ ·) = m.modifyHead (x ++ ·)) : l = m := by
  cases l <;> cases m <;> simp_all

theorem parts_ne_nil (done : List (Text × Text)) (old : Text) (ps : List Piece) :
    parts done old ps ≠ [] := by
  induction ps with
  | nil => exact List.cons_ne_nil _ _
  | cons p ps ih =>
    rw [parts]
    split_ifs
    · exact List.cons_ne_nil _ _
    · rwa [ne_eq, List.modifyHead_eq_nil_iff]

/-- A string is found at its own pieces if and only if it begins nowhere else. -/
theorem split_fill_iff (hold : old ≠ []) (fresh : old ∉ done.map Prod.fst) (ps : List Piece) :
    split old (fill done ps) = parts done old ps ↔ Only done old ps := by
  induction ps with
  | nil =>
    refine iff_of_true ?_ trivial
    rw [fill, List.flatMap_nil, split_eq hold, cut, if_neg hold]
    rfl
  | cons p ps ih =>
    rw [fill_cons, parts, Only]
    by_cases h : p = .word old
    · rw [if_pos h, h, fill_word fresh, split_front hold, List.cons_inj_right, ih]
      exact ⟨fun only => ⟨fun hne => absurd rfl hne, only⟩, fun only => only.2⟩
    · rw [if_neg h, fill_cons]
      constructor
      · intro hsplit
        have hskip := not_prefix_of_split hold (parts_ne_nil done old ps) hsplit
        rw [split_skip hold _ hskip] at hsplit
        exact ⟨fun _ => hskip, ih.mp (modifyHead_append_inj hsplit)⟩
      · rintro ⟨hskip, only⟩
        rw [split_skip hold _ (hskip h), ih.mpr only]

/-- Replacing puts the new string where the old one is cut out. -/
theorem replaceAll_eq_intercalate (hold : old ≠ []) (new s : Text) :
    replaceAll old new s = new.intercalate (split old s) := by
  induction hn : s.length using Nat.strong_induction_on generalizing s with
  | _ n ih =>
    rw [split_eq hold]
    cases hcut : cut old s with
    | none =>
      have hskip := replaceAll_skip (t := []) new fun i (_ : i < s.length) => by
        rw [List.append_nil]
        exact cut_eq_none hcut i
      rw [List.append_nil, replaceAll_nil, List.append_nil] at hskip
      rw [hskip, List.intercalate_singleton]
    | some ba =>
      obtain ⟨before, after⟩ := ba
      have hlength := cut_isSome_length hold hcut
      have hskip : ∀ i < before.length, ¬old <+: (before ++ (old ++ after)).drop i := by
        intro i hi hfits
        rw [← List.append_assoc, ← cut_eq hcut] at hfits
        obtain ⟨before', after', heq, hle⟩ := cut_first hfits
        rw [hcut] at heq
        cases heq
        omega
      have hafter := ih after.length (by omega) after rfl
      obtain ⟨x, l, hx⟩ : ∃ x l, split old after = x :: l := by
        rw [split_eq hold]
        cases cut old after <;> exact ⟨_, _, rfl⟩
      dsimp only
      rw [hx] at hafter ⊢
      rw [cut_eq hcut, List.append_assoc, replaceAll_skip new hskip, replaceAll_front hold, hafter,
        List.intercalate_cons_cons, List.append_assoc]

theorem intercalate_parts (fresh : old ∉ done.map Prod.fst) (ps : List Piece) :
    new.intercalate (parts done old ps) = fill (done ++ [(old, new)]) ps := by
  induction ps with
  | nil => rfl
  | cons p ps ih =>
    obtain ⟨x, l, hx⟩ := List.exists_cons_of_ne_nil (parts_ne_nil done old ps)
    rw [parts, fill_cons, ← ih, hx]
    by_cases h : p = .word old
    · rw [if_pos h, h, fill_word_done fresh, List.intercalate_cons_cons, List.nil_append]
    · rw [if_neg h, fill_other h, List.modifyHead_cons]
      cases l <;> simp [List.intercalate]

/-- Where a string begins only in its own pieces, replacing it fills them in. -/
theorem replaceAll_fill (hold : old ≠ []) (fresh : old ∉ done.map Prod.fst) {ps : List Piece}
    (only : Only done old ps) : replaceAll old new (fill done ps) = fill (done ++ [(old, new)]) ps := by
  rw [replaceAll_eq_intercalate hold, (split_fill_iff hold fresh ps).mpr only, intercalate_parts fresh]

/-! ### One after another -/

section

variable {ε : Type} {f : ε → Text × Text} {entries : List ε} {ps : List Piece}

theorem oneByOne_append (done : List (Text × Text)) (p : Text × Text) (s : Text) :
    oneByOne (done ++ [p]) s = replaceAll p.1 p.2 (oneByOne done s) := by
  rw [oneByOne, List.foldl_append]
  rfl

/-- If each string begins only in its own pieces by the time it is replaced, all are filled in. -/
theorem oneByOne_fill (holds : ∀ e ∈ entries, (f e).1 ≠ [])
    (distinct : (entries.map fun e => (f e).1).Nodup)
    (only : ∀ done e rest, entries = done ++ e :: rest → Only (done.map f) (f e).1 ps) :
    oneByOne (entries.map f) (fill [] ps) = fill (entries.map f) ps := by
  induction entries using List.reverseRecOn with
  | nil => rfl
  | append_singleton done e ih =>
    rw [List.map_append, List.map_singleton, List.nodup_append] at distinct
    have fresh : (f e).1 ∉ (done.map f).map Prod.fst := by
      rw [List.map_map]
      exact fun h => distinct.2.2 _ h _ List.mem_cons_self rfl
    have hdone := ih (fun e he => holds e (List.mem_append_left _ he)) distinct.1
      fun done' e' rest heq => only done' e' (rest ++ [e]) (by
        rw [heq, List.append_assoc, List.cons_append])
    have hold := holds e (List.mem_append_right _ List.mem_cons_self)
    rw [List.map_append, List.map_singleton, oneByOne_append, hdone,
      replaceAll_fill hold fresh (only done e [] rfl)]

theorem fresh_of_perm {done rest : List ε} {e : ε} (distinct : (entries.map fun e => (f e).1).Nodup)
    (perm : (done ++ e :: rest).Perm entries) :
    (f e).1 ∉ (done.map f).map Prod.fst ∧ (done.map fun e => (f e).1).Nodup := by
  have := (perm.map fun e => (f e).1).nodup_iff.mpr distinct
  rw [List.map_append, List.map_cons, List.nodup_append] at this
  refine ⟨?_, this.1⟩
  rw [List.map_map]
  exact fun h => this.2.2 _ h _ List.mem_cons_self rfl

/-- In every order of the entries the strings are found at the places where one pass finds them, if and only
if none of them begins at another place by the time it is replaced; then all come to what one pass makes. -/
theorem oneByOne_iff (holds : ∀ e ∈ entries, (f e).1 ≠ [])
    (distinct : (entries.map fun e => (f e).1).Nodup) (s : Text) :
    (∀ order : List ε, order.Perm entries →
      oneByOne (order.map f) s = replacer (entries.map f) s ∧
      ∀ done e rest, order = done ++ e :: rest → split (f e).1 (oneByOne (done.map f) s) =
        parts (done.map f) (f e).1 (pieces (entries.map fun e => (f e).1) s)) ↔
    ∀ done e rest, (done ++ e :: rest).Perm entries →
      Only (done.map f) (f e).1 (pieces (entries.map fun e => (f e).1) s) := by
  have start : fill [] (pieces (entries.map fun e => (f e).1) s) = s := by
    refine fill_piecesFrom (fun h => ?_) 0 s
    obtain ⟨e, he, heq⟩ := List.mem_map.mp h
    exact holds e he heq
  -- the text so far, if each string up to here began only in its own pieces
  have sofar {done rest : List ε} {e : ε} (perm : (done ++ e :: rest).Perm entries)
      (only : ∀ done' e' rest', done = done' ++ e' :: rest' →
        Only (done'.map f) (f e').1 (pieces (entries.map fun e => (f e).1) s)) :
      oneByOne (done.map f) s = fill (done.map f) (pieces (entries.map fun e => (f e).1) s) := by
    have hfill := oneByOne_fill (fun e he => holds e (perm.subset (List.mem_append_left _ he)))
      (fresh_of_perm distinct perm).2 only
    rwa [start] at hfill
  have found {done rest : List ε} {e : ε} (perm : (done ++ e :: rest).Perm entries) :=
    split_fill_iff (holds e (perm.subset (List.mem_append_right _ List.mem_cons_self)))
      (fresh_of_perm distinct perm).1 (pieces (entries.map fun e => (f e).1) s)
  constructor
  · intro once done e rest perm
    induction hn : done.length using Nat.strong_induction_on generalizing done e rest with
    | _ n ih =>
      have hdone := sofar perm fun done' e' rest' heq => by
        refine ih done'.length ?_ done' e' (rest' ++ e :: rest) ?_ rfl
        · rw [← hn, heq, List.length_append, List.length_cons]
          omega
        · rwa [heq, List.append_assoc, List.cons_append] at perm
      have hsplit := (once _ perm).2 done e rest rfl
      rw [hdone] at hsplit
      exact (found perm).mp hsplit
  · intro only order perm
    constructor
    · have hdistinct := (perm.map fun e => (f e).1).nodup_iff.mpr distinct
      have hfill := oneByOne_fill (fun e he => holds e (perm.subset he)) hdistinct
        fun done e rest heq => only done e rest (heq ▸ perm)
      have hpairs : (entries.map fun e => (f e).1) = (entries.map f).map Prod.fst :=
        (List.map_map (f := f) (g := Prod.fst)).symm
      rw [start] at hfill
      rw [hfill, fill_perm (perm.map f) (by rwa [List.map_map]), hpairs, pieces,
        fill_eq_replacerFrom (hpairs ▸ distinct), replacer]
    · rintro done e rest rfl
      rw [sofar perm fun done' e' rest' heq => only done' e' (rest' ++ e :: rest) (by
        rwa [heq, List.append_assoc, List.cons_append] at perm)]
      exact (found perm).mpr (only done e rest perm)

end

end

end Ecco9.Library
