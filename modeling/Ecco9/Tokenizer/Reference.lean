import Ecco9.Tokenizer.BytePairEncoding
import Mathlib.Logic.Relation
import Mathlib.Data.Prod.Lex
import Ecco9.Library.Runs

/-! Byte pair encoding without candidates: again and again the leftmost of the pairs with the lowest
rank is merged. What the heap of `Encode` makes of a piece of text, compared with that. -/

namespace Ecco9.Tokenizer

open Ecco9.Library
open LinkedRuns (Rules Candidate Node Waiting Live node runsBefore)

abbrev Run := List Text

section
variable (v : Vocabulary)

/-- The rank of two runs that may be merged: the merge is known, and its value is a token. -/
def mergeRank (x y : Run) : Option Nat :=
  if (v.encode (x.flatten ++ y.flatten)).isSome then v.merge x.flatten y.flatten else none

def minRank : Option Nat → Option Nat → Option Nat
  | some a, some b => some (min a b)
  | some a, none => some a
  | none, b => b

def lowestRank : List Run → Option Nat
  | x :: y :: rest => minRank (mergeRank v x y) (lowestRank (y :: rest))
  | _ => none

/-- The leftmost pair of the rank is merged. -/
def mergeLeftmost (rank : Nat) : List Run → List Run
  | x :: y :: rest =>
    if mergeRank v x y = some rank then (x ++ y) :: rest
    else x :: mergeLeftmost rank (y :: rest)
  | runs => runs

def referenceFrom : Nat → List Run → List Run
  | 0, runs => runs
  | n + 1, runs =>
    match lowestRank v runs with
    | none => runs
    | some rank => referenceFrom n (mergeLeftmost v rank runs)

/-- Merges until none is possible; each leaves one run less. -/
def reference (runs : List Run) : List Run := referenceFrom v runs.length runs

end

/-! ### Lowest ranks -/

section
variable {v : Vocabulary}

theorem minRank_eq_some {a b : Option Nat} {n : Nat} :
    minRank a b = some n ↔
      (a = some n ∨ b = some n) ∧ (∀ m, a = some m → n ≤ m) ∧ ∀ m, b = some m → n ≤ m := by
  cases a with
  | none =>
    cases b with
    | none => simp [minRank]
    | some b =>
      simp only [minRank, Option.some.injEq, reduceCtorEq, false_or, false_implies, implies_true,
        true_and]
      exact ⟨fun h => ⟨h, fun m hm => by omega⟩, fun h => h.1⟩
  | some a =>
    cases b with
    | none =>
      simp only [minRank, Option.some.injEq, reduceCtorEq, or_false, false_implies, implies_true,
        and_true]
      exact ⟨fun h => ⟨h, fun m hm => by omega⟩, fun h => h.1⟩
    | some b =>
      simp only [minRank, Option.some.injEq]
      constructor
      · rintro rfl
        refine ⟨?_, fun m hm => by omega, fun m hm => by omega⟩
        omega
      · rintro ⟨h, ha, hb⟩
        have := ha a rfl
        have := hb b rfl
        omega

theorem minRank_eq_none {a b : Option Nat} : minRank a b = none ↔ a = none ∧ b = none := by
  cases a <;> cases b <;> simp [minRank]

/-- Two runs stand next to each other. -/
def Beside (runs L : List Run) (x y : Run) : Prop := ∃ R, runs = L ++ x :: y :: R

theorem lowestRank_eq_none {runs : List Run} :
    lowestRank v runs = none ↔ ∀ L x y, Beside runs L x y → mergeRank v x y = none := by
  induction runs with
  | nil =>
    refine ⟨?_, fun _ => rfl⟩
    rintro - L x y ⟨R, hR⟩
    simp at hR
  | cons x runs ih =>
    cases runs with
    | nil =>
      refine ⟨?_, fun _ => rfl⟩
      rintro - L x' y ⟨R, hR⟩
      have := congrArg List.length hR
      simp at this
      omega
    | cons y rest =>
      rw [lowestRank, minRank_eq_none, ih]
      constructor
      · rintro ⟨hfirst, hrest⟩ L x' y' ⟨R, hR⟩
        cases L with
        | nil =>
          cases hR
          exact hfirst
        | cons l L =>
          rw [List.cons_append] at hR
          exact hrest L x' y' ⟨R, (List.cons.inj hR).2⟩
      · intro h
        refine ⟨h [] x y ⟨rest, rfl⟩, ?_⟩
        rintro L x' y' ⟨R, hR⟩
        exact h (x :: L) x' y' ⟨R, by rw [hR]; rfl⟩

/-- The rank of a pair is the lowest if no pair has a lower one. -/
theorem lowestRank_of_beside {runs L : List Run} {x y : Run} {rank : Nat}
    (h : Beside runs L x y) (hrank : mergeRank v x y = some rank)
    (hle : ∀ L x y m, Beside runs L x y → mergeRank v x y = some m → rank ≤ m) :
    lowestRank v runs = some rank := by
  induction runs generalizing L with
  | nil =>
    obtain ⟨R, hR⟩ := h
    simp at hR
  | cons z runs ih =>
    obtain ⟨R, hR⟩ := h
    have hle' (L x y m) (hb : Beside runs L x y) (hm : mergeRank v x y = some m) : rank ≤ m := by
      obtain ⟨R, hR⟩ := hb
      exact hle (z :: L) x y m ⟨R, by rw [hR]; rfl⟩ hm
    cases runs with
    | nil =>
      have := congrArg List.length hR
      simp at this
      omega
    | cons w rest =>
      rw [lowestRank, minRank_eq_some]
      refine ⟨?_, fun m hm => hle [] z w m ⟨rest, rfl⟩ hm, ?_⟩
      · cases L with
        | nil =>
          cases hR
          exact .inl hrank
        | cons l L =>
          rw [List.cons_append] at hR
          exact .inr (ih ⟨R, (List.cons.inj hR).2⟩ hle')
      · intro m hm
        by_contra hlt
        -- the lowest rank of the rest is the rank of one of its pairs
        have hpair : ∃ L x y, Beside (w :: rest) L x y ∧ mergeRank v x y = some m := by
          clear ih hle hle' hR hlt
          induction rest generalizing w with
          | nil => cases hm
          | cons u rest ih =>
            rw [lowestRank, minRank_eq_some] at hm
            rcases hm.1 with hm | hm
            · exact ⟨[], w, u, ⟨rest, rfl⟩, hm⟩
            · obtain ⟨L, x, y, ⟨R, hR⟩, hxy⟩ := ih u hm
              exact ⟨w :: L, x, y, ⟨R, by rw [hR]; rfl⟩, hxy⟩
        obtain ⟨L', x', y', hb, hxy⟩ := hpair
        exact hlt (hle' L' x' y' m hb hxy)

theorem mergeLeftmost_of_beside {L R : List Run} {x y : Run} {rank : Nat}
    (hrank : mergeRank v x y = some rank)
    (hleft : ∀ L' x' y', Beside (L ++ x :: y :: R) L' x' y' → L'.length < L.length →
      mergeRank v x' y' ≠ some rank) :
    mergeLeftmost v rank (L ++ x :: y :: R) = L ++ (x ++ y) :: R := by
  induction L with
  | nil =>
    rw [List.nil_append, mergeLeftmost, if_pos hrank]
    rfl
  | cons l L ih =>
    have hrest := ih fun L' x' y' ⟨R', hR'⟩ hlt => hleft (l :: L') x' y'
      ⟨R', by rw [List.cons_append, hR']; rfl⟩ (Nat.succ_lt_succ hlt)
    cases L with
    | nil =>
      have hfirst := hleft [] l x ⟨y :: R, rfl⟩ (Nat.zero_lt_succ _)
      rw [List.nil_append] at hrest
      rw [List.cons_append, List.nil_append, mergeLeftmost, if_neg hfirst, hrest]
      rfl
    | cons l' L =>
      have hfirst := hleft [] l l' ⟨L ++ x :: y :: R, rfl⟩ (Nat.zero_lt_succ _)
      rw [List.cons_append] at hrest
      rw [List.cons_append, List.cons_append, mergeLeftmost, if_neg hfirst, hrest]
      rfl

theorem referenceFrom_none {n : Nat} {runs : List Run} (h : lowestRank v runs = none) :
    referenceFrom v n runs = runs := by
  cases n with
  | zero => rfl
  | succ n => rw [referenceFrom, h]

/-- One merge of the leftmost pair with the lowest rank. -/
theorem reference_merge {L R : List Run} {x y : Run} {rank : Nat}
    (hrank : mergeRank v x y = some rank)
    (hle : ∀ L' x' y' m, Beside (L ++ x :: y :: R) L' x' y' → mergeRank v x' y' = some m → rank ≤ m)
    (hleft : ∀ L' x' y', Beside (L ++ x :: y :: R) L' x' y' → L'.length < L.length →
      mergeRank v x' y' ≠ some rank) :
    reference v (L ++ x :: y :: R) = reference v (L ++ (x ++ y) :: R) := by
  have hlen : (L ++ x :: y :: R).length = (L ++ (x ++ y) :: R).length + 1 := by
    simp only [List.length_append, List.length_cons]
    omega
  rw [reference, hlen, referenceFrom, lowestRank_of_beside ⟨R, rfl⟩ hrank hle]
  dsimp only
  rw [mergeLeftmost_of_beside hrank hleft, reference]

end

/-! ### The heap -/

section
variable (v : Vocabulary) (Q : Queue (Candidate (Nat × Text)))

def Turn (s t : List (Node Text) × Q.Carrier) : Prop :=
  LinkedRuns.turn (pairRules v) Q s.1 s.2 = some t

/-- No pair of the same rank stands before the pair that is merged. -/
def MergesLeftmost (ms : List (Node Text)) (h : Q.Carrier) : Prop :=
  ∀ c h', Q.pop h = some (c, h') → Live ms c.a → Live ms c.b →
    (pairRules v).accepts c.key (node ms c.a).runes (node ms c.b).runes = true →
    ∀ L x y, Beside (LinkedRuns.runs ms) L x y → mergeRank v x y = some c.key.1 →
      (runsBefore ms c.a).length ≤ L.length

/-- The heap breaks ties from left to right, as far as the pairs that are merged go. -/
def Orderly (cs : List Text) : Prop :=
  let ms := LinkedRuns.start (cs.map ([·]))
  ∀ s, Relation.ReflTransGen (Turn v Q) (ms, LinkedRuns.startQueue (pairRules v) Q ms) s →
    MergesLeftmost v Q s.1 s.2

end

section
variable {v : Vocabulary} {Q : Queue (Candidate (Nat × Text))}

theorem mergeRank_eq_some {x y : Run} {rank : Nat} :
    mergeRank v x y = some rank ↔
      v.merge x.flatten y.flatten = some rank ∧ (v.encode (x.flatten ++ y.flatten)).isSome := by
  unfold mergeRank
  split_ifs with h
  · simp [h]
  · simp [h]

theorem Beside.candidate {ms : List (Node Text)} {h : Q.Carrier} {L : List Run} {x y : Run}
    {rank : Nat} (waiting : Waiting (pairRules v) Q ms h)
    (hb : Beside (LinkedRuns.runs ms) L x y) (hrank : mergeRank v x y = some rank) :
    ∃ c ∈ Q.elems h, c.key.1 = rank ∧ runsBefore ms c.a = L := by
  obtain ⟨R, hR⟩ := hb
  obtain ⟨a, ha, hn, rfl, rfl, hL⟩ := waiting.linked.of_runs hR
  obtain ⟨hmerge, hvalue⟩ := mergeRank_eq_some.mp hrank
  have hacc : (pairRules v).accepts
      (rank, (node ms a).runes.flatten ++ (node ms (node ms a).n).runes.flatten)
      (node ms a).runes (node ms (node ms a).n).runes = true := by
    rw [pairRules, Bool.and_eq_true, decide_eq_true_iff]
    exact ⟨rfl, hvalue⟩
  have hpair : (pairRules v).pairwise (node ms a).runes (node ms (node ms a).n).runes =
      some (rank, (node ms a).runes.flatten ++ (node ms (node ms a).n).runes.flatten) := by
    exact Option.map_eq_some_iff.mpr ⟨rank, hmerge, rfl⟩
  exact ⟨_, waiting.complete a ha hn _ hpair hacc, rfl, hL⟩

/-- A turn does not change what there is to come of the runs. -/
theorem reference_turn (hQ : Q.PopsLeast fun c d => c.key.1 ≤ d.key.1)
    {ms ms' : List (Node Text)} {h h' : Q.Carrier} (waiting : Waiting (pairRules v) Q ms h)
    (hne : ∀ c ∈ (LinkedRuns.runs ms).flatten, c ≠ []) (hleft : MergesLeftmost v Q ms h)
    (hturn : LinkedRuns.turn (pairRules v) Q ms h = some (ms', h')) :
    reference v (LinkedRuns.runs ms') = reference v (LinkedRuns.runs ms) := by
  obtain ⟨c, h₁, hpop, ⟨rfl, -, -⟩ | ⟨ha, hb, hacc, rfl, -⟩⟩ := LinkedRuns.turn_cases hturn
  · rfl
  · have hc := (Q.mem_pop hpop).mpr (.inl rfl)
    obtain ⟨R, hruns, hruns'⟩ :=
      LinkedRuns.runs_join waiting.linked ha hb (waiting.next c hc ha hb)
    -- the pair still is the one that was put into the heap
    have hrank : mergeRank v (node ms c.a).runes (node ms c.b).runes = some c.key.1 := by
      obtain ⟨y, hy, hkey⟩ := waiting.made c hc ha hb
      obtain ⟨rank, hmerge, hkey⟩ := Option.map_eq_some_iff.mp hkey
      rw [pairRules, Bool.and_eq_true, decide_eq_true_iff] at hacc
      have hsame : y = (node ms c.b).runes := by
        refine LinkedRuns.eq_of_isPrefix (fun d hd => hne d ?_) hy ?_
        · rw [hruns]
          simp [hd]
        · have hval := hacc.1
          rw [← hkey] at hval
          rw [List.append_cancel_left hval]
      rw [mergeRank_eq_some, ← hsame, hmerge, ← hkey]
      rw [← hsame] at hacc
      exact ⟨rfl, by rw [hacc.1]; exact hacc.2⟩
    have hlowest : ∀ L x y m, Beside (LinkedRuns.runs ms) L x y → mergeRank v x y = some m →
        c.key.1 ≤ m := by
      intro L x y m hbeside hm
      obtain ⟨d, hd, rfl, -⟩ := hbeside.candidate waiting hm
      rcases (Q.mem_pop hpop).mp hd with rfl | hd
      · exact Nat.le_refl _
      · exact hQ h c h₁ hpop d hd
    have hfirst := hleft c h₁ hpop ha hb hacc
    rw [hruns] at hlowest hfirst
    rw [hruns, hruns']
    refine (reference_merge hrank hlowest ?_).symm
    intro L x y hbeside hlt hm
    have := hfirst L x y hbeside hm
    omega

/-- When all pairs have had their turn, nothing is left to merge. -/
theorem reference_mergeAll (hQ : Q.PopsLeast fun c d => c.key.1 ≤ d.key.1) {cs : List Text}
    (hne : ∀ c ∈ cs, c ≠ []) (horderly : Orderly v Q cs) :
    LinkedRuns.runs (LinkedRuns.mergeAll (pairRules v) Q (cs.map ([·]))) =
      reference v (cs.map ([·])) := by
  have hruns : ∀ r ∈ cs.map ([·]), r ≠ [] := by simp
  have hstart := LinkedRuns.runs_start hruns
  have hflat : (cs.map ([·])).flatten = cs := by
    rw [← List.flatMap_def]
    exact List.flatMap_singleton' _
  obtain ⟨h, waiting, ⟨-, -, hsame⟩, hempty⟩ :=
    LinkedRuns.mergeAll_spec (R := pairRules v) (Q := Q)
    (P := fun ms h =>
      Relation.ReflTransGen (Turn v Q) (LinkedRuns.start (cs.map ([·])),
        LinkedRuns.startQueue (pairRules v) Q (LinkedRuns.start (cs.map ([·])))) (ms, h) ∧
      (LinkedRuns.runs ms).flatten = cs ∧
      reference v (LinkedRuns.runs ms) = reference v (cs.map ([·]))) (by
    rintro ms h ms' h' waiting ⟨hreach, hcs, href⟩ hturn
    refine ⟨hreach.tail hturn, ?_, ?_⟩
    · rcases LinkedRuns.runs_turn waiting hturn with heq | ⟨L, x, y, rest, -, -, heq, heq', -, -, -⟩
      · rw [heq, hcs]
      · rw [heq] at hcs
        rw [heq', ← hcs]
        simp
    · rw [reference_turn hQ waiting (by rwa [hcs]) (horderly _ hreach) hturn, href]) hruns
    ⟨.refl, by rw [hstart, hflat], by rw [hstart]⟩
  rw [← hsame, reference]
  refine (referenceFrom_none (lowestRank_eq_none.mpr ?_)).symm
  intro L x y hb
  cases hrank : mergeRank v x y with
  | none => rfl
  | some rank =>
    obtain ⟨c, hc, -⟩ := hb.candidate waiting hrank
    rw [hempty] at hc
    exact absurd hc (Multiset.notMem_zero c)

/-- A heap that compares where pairs of the same rank stand is orderly. -/
theorem orderly_of_popsLeast
    (hQ : Q.PopsLeast fun c d => c.key.1 < d.key.1 ∨ c.key.1 = d.key.1 ∧ c.a ≤ d.a)
    (cs : List Text) : Orderly v Q cs := by
  intro s hreach c h₁ hpop ha hb hacc L x y hbeside hrank
  have waiting : Waiting (pairRules v) Q s.1 s.2 := by
    have hne : ∀ r ∈ cs.map ([·]), r ≠ [] := by simp
    exact run_invariant (I := fun (s : List (Node Text) × Q.Carrier) => Waiting (pairRules v) Q s.1 s.2)
      (fun _ _ hs hst => hs.turn hst) hreach (LinkedRuns.waiting_start hne)
  obtain ⟨d, hd, hkey, rfl⟩ := hbeside.candidate waiting hrank
  have hle : c.a ≤ d.a := by
    rcases (Q.mem_pop hpop).mp hd with rfl | hd
    · exact Nat.le_refl _
    · rcases hQ s.2 c h₁ hpop d hd with hlt | ⟨-, hle⟩
      · omega
      · exact hle
  unfold runsBefore
  apply List.Sublist.length_le
  apply List.Sublist.filter
  exact List.take_sublist_take_left hle

end

/-- A piece of text that is a token is that token; any other is what the reference makes of it, if
ties are broken from left to right. -/
theorem encodeSplit_eq_reference {bpe : BytePairEncoding} {Q : Queue (Candidate (Nat × Text))}
    (hQ : Q.PopsLeast fun c d => c.key.1 ≤ d.key.1) (split : Text) :
    let sb := split.flatMap fun b => encodeRune (mapByte b)
    (∀ id, bpe.vocab.encode sb = some id → bpe.encodeSplit Q split = [id]) ∧
      (bpe.vocab.encode sb = none → Orderly bpe.vocab Q (chars sb) →
        bpe.encodeSplit Q split =
          (reference bpe.vocab ((chars sb).map ([·]))).filterMap
            fun r => bpe.vocab.encode r.flatten) := by
  refine ⟨?_, ?_⟩
  · intro id hid
    rw [BytePairEncoding.encodeSplit]
    simp only [hid]
  · intro hnone horderly
    rw [BytePairEncoding.encodeSplit]
    simp only [hnone]
    rw [reference_mergeAll hQ chars_ne_nil horderly]

/-! ### Heaps -/

/-- A heap that compares where pairs of the same rank stand. -/
def leftHeap : Queue (Candidate (Nat × Text)) :=
  Queue.ofList (fun c => toLex (c.key.1, c.a)) (fun cs c => c :: cs) fun _ _ => List.Perm.refl _

theorem leftHeap_popsLeft :
    leftHeap.PopsLeast fun c d => c.key.1 < d.key.1 ∨ c.key.1 = d.key.1 ∧ c.a ≤ d.a := by
  intro h c h' hpop d hd
  exact (Prod.Lex.toLex_le_toLex ..).mp (Queue.ofList_popsLeast _ _ _ h c h' hpop d hd)

theorem leftHeap_popsLeast : leftHeap.PopsLeast fun c d => c.key.1 ≤ d.key.1 := by
  intro h c h' hpop d hd
  rcases leftHeap_popsLeft h c h' hpop d hd with hlt | ⟨heq, -⟩
  · exact hlt.le
  · exact heq.le

/-- A heap from which the pair that was put in last comes out among those of the same rank. -/
def lastHeap : Queue (Candidate (Nat × Text)) :=
  Queue.ofList (fun c => c.key.1) (fun cs c => c :: cs) fun _ _ => List.Perm.refl _

theorem lastHeap_popsLeast : lastHeap.PopsLeast fun c d => c.key.1 ≤ d.key.1 :=
  Queue.ofList_popsLeast _ _ _

def doubleA : BytePairEncoding where
  split s := [s]
  vocab := { values := [ascii "a", ascii "aa"], types := [1, 1], merges := [ascii "a a"] }

/-- A token that no merge makes. -/
def wordAb : BytePairEncoding where
  split s := [s]
  vocab := { values := [ascii "a", ascii "b", ascii "ab"], types := [1, 1, 1] }

theorem aaa_from_the_left :
    doubleA.encodeSplit leftHeap (ascii "aaa") =
      (reference doubleA.vocab ((chars (ascii "aaa")).map ([·]))).filterMap
        fun r => doubleA.vocab.encode r.flatten :=
  (encodeSplit_eq_reference leftHeap_popsLeast (ascii "aaa")).2 (by decide +kernel)
    (orderly_of_popsLeast leftHeap_popsLeft _)

/-- A heap may hand out the right one of two pairs; and a token need not be what its merges make. -/
theorem aaa_from_the_right :
    lastHeap.PopsLeast (fun c d => c.key.1 ≤ d.key.1) ∧ doubleA.vocab.merges.Nodup ∧
      doubleA.encodeSplit lastHeap (ascii "aaa") = [0, 1] ∧
      ((reference doubleA.vocab ((chars (ascii "aaa")).map ([·]))).filterMap
        fun r => doubleA.vocab.encode r.flatten) = [1, 0] ∧
      wordAb.encodeSplit lastHeap (ascii "ab") = [2] ∧
      ((reference wordAb.vocab ((chars (ascii "ab")).map ([·]))).filterMap
        fun r => wordAb.vocab.encode r.flatten) = [0, 1] :=
  ⟨lastHeap_popsLeast, by decide, by decide +kernel, by decide +kernel, by decide +kernel,
    by decide +kernel⟩

end Ecco9.Tokenizer
