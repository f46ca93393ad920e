import Mathlib.Data.List.Infix

/-! Separators in a sequence that arrives piece by piece: where one first occurs, and how much of the end
must be held back because one may have begun there; and where a pattern is found in a text of parts that
are kept apart by delimiters. -/

namespace Ecco9.Library

section

variable {α : Type}

/-- Whatever follows `e ++ a`, no `sep` begins inside of `e`. -/
def Clear (sep : List α) : (e a : List α) → Prop
  | [], _ => True
  | x :: e, a => (¬sep <+: x :: e ++ a ∧ ¬x :: e ++ a <+: sep) ∧ Clear sep e a

theorem clear_iff {sep e a : List α} :
    Clear sep e a ↔ ∀ i < e.length, ¬sep <+: (e ++ a).drop i ∧ ¬(e ++ a).drop i <+: sep := by
  induction e with
  | nil => exact ⟨fun _ i hi => absurd hi (Nat.not_lt_zero i), fun _ => trivial⟩
  | cons x e ih =>
    rw [Clear, ih]
    constructor
    · intro h i hi
      cases i with
      | zero => exact h.1
      | succ i => exact h.2 i (Nat.lt_of_succ_lt_succ hi)
    · intro h
      exact ⟨h 0 (Nat.zero_lt_succ _), fun i hi => h (i + 1) (Nat.succ_lt_succ hi)⟩

theorem Clear.append {sep e a : List α} (h : Clear sep e a) (t : List α) :
    Clear sep e (a ++ t) := by
  induction e with
  | nil => trivial
  | cons x e ih =>
    refine ⟨⟨?_, ?_⟩, ih h.2⟩
    · intro hp
      have hp' : x :: e ++ a <+: x :: e ++ (a ++ t) := by
        rw [← List.append_assoc]
        exact List.prefix_append ..
      rcases Nat.le_total sep.length (x :: e ++ a).length with hle | hle
      · exact h.1.1 (List.prefix_of_prefix_length_le hp hp' hle)
      · exact h.1.2 (List.prefix_of_prefix_length_le hp' hp hle)
    · intro hp
      rw [← List.append_assoc] at hp
      exact h.1.2 ((List.prefix_append ..).trans hp)

theorem Clear.trans {sep e e' a : List α} (h : Clear sep e (e' ++ a)) (h' : Clear sep e' a) :
    Clear sep (e ++ e') a := by
  induction e with
  | nil => exact h'
  | cons x e ih =>
    refine ⟨?_, ih h.2⟩
    simpa using h.1

variable [DecidableEq α]

/-- What stands before and after the first occurrence of `sep`. -/
def cut (sep : List α) : List α → Option (List α × List α)
  | [] => if sep = [] then some ([], []) else none
  | a :: s =>
    if sep <+: a :: s then some ([], (a :: s).drop sep.length)
    else (cut sep s).map fun (before, after) => (a :: before, after)

def splitFrom (sep : List α) : Nat → List α → List (List α)
  | 0, s => [s]
  | n + 1, s =>
    match cut sep s with
    | none => [s]
    | some (before, after) => before :: splitFrom sep n after

/-- The pieces between the occurrences of a nonempty `sep`. -/
def split (sep s : List α) : List (List α) := splitFrom sep s.length s

def overlapFrom (s delim : List α) : Nat → Nat
  | 0 => 0
  | i + 1 => if delim.take (i + 1) <:+ s then i + 1 else overlapFrom s delim i

/-- The longest overlap between a suffix of `s` and a prefix of `delim`. -/
def overlap (s delim : List α) : Nat := overlapFrom s delim (min delim.length s.length)

/-! ### Cutting -/

theorem cut_eq {sep s before after : List α} (h : cut sep s = some (before, after)) :
    s = before ++ sep ++ after := by
  induction s generalizing before with
  | nil =>
    rw [cut] at h
    split at h
    · rename_i hsep
      cases h
      rw [hsep]
      rfl
    · cases h
  | cons a s ih =>
    rw [cut] at h
    split at h
    · rename_i hfront
      cases h
      exact List.prefix_iff_eq_append.mp hfront |>.symm
    · obtain ⟨⟨b, c⟩, hcut, heq⟩ := Option.map_eq_some_iff.mp h
      cases heq
      rw [ih hcut]
      rfl

theorem cut_front {sep s : List α} (h : sep <+: s) : cut sep s = some ([], s.drop sep.length) := by
  cases s with
  | nil =>
    obtain rfl := List.prefix_nil.mp h
    rfl
  | cons a s => rw [cut, if_pos h]

/-- More text behind the separator does not move it. -/
theorem cut_append {sep s before after : List α} (h : cut sep s = some (before, after))
    (t : List α) : cut sep (s ++ t) = some (before, after ++ t) := by
  induction s generalizing before with
  | nil =>
    rw [cut] at h
    split at h
    · rename_i hsep
      cases h
      rw [hsep, cut_front (List.nil_prefix)]
      rfl
    · cases h
  | cons a s ih =>
    rw [cut] at h
    split at h
    · rename_i hfront
      cases h
      rw [cut_front (hfront.trans (List.prefix_append ..)),
        List.drop_append_of_le_length hfront.length_le]
    · rename_i hfront
      obtain ⟨⟨b, c⟩, hcut, heq⟩ := Option.map_eq_some_iff.mp h
      cases heq
      have hlen : sep.length ≤ (a :: s).length := by
        have := congrArg List.length (cut_eq hcut)
        simp only [List.length_append, List.length_cons] at this ⊢
        omega
      have hlong : ¬sep <+: a :: (s ++ t) := fun hp =>
        hfront (List.prefix_of_prefix_length_le hp (List.prefix_append (a :: s) t) hlen)
      rw [List.cons_append, cut, if_neg hlong, ih hcut]
      rfl

/-- Where the separator first occurs is not told by what stands before. -/
theorem cut_drop {sep s b before after : List α} (h : cut sep (s ++ b) = some (s ++ before, after)) :
    cut sep b = some (before, after) := by
  induction s with
  | nil => exact h
  | cons a s ih =>
    rw [List.cons_append, cut] at h
    split at h
    · cases h
    · obtain ⟨⟨x, y⟩, hcut, heq⟩ := Option.map_eq_some_iff.mp h
      cases heq
      exact ih hcut

theorem cut_eq_none {sep s : List α} (h : cut sep s = none) (i : Nat) : ¬sep <+: s.drop i := by
  induction s generalizing i with
  | nil =>
    rw [cut] at h
    split at h
    · cases h
    · rename_i hsep
      rw [List.drop_nil, List.prefix_nil]
      exact hsep
  | cons a s ih =>
    rw [cut] at h
    split at h
    · cases h
    · rename_i hfront
      cases i with
      | zero => exact hfront
      | succ i => exact ih (Option.map_eq_none_iff.mp h) i

theorem cut_suffix_none {sep s t : List α} (hst : s <:+ t) (h : cut sep t = none) :
    cut sep s = none := by
  obtain ⟨l, rfl⟩ := hst
  cases hcut : cut sep s with
  | none => rfl
  | some parts =>
    obtain ⟨before, after⟩ := parts
    refine absurd ⟨after, ?_⟩ (cut_eq_none h (l.length + before.length))
    rw [← List.drop_drop, List.drop_left, cut_eq hcut, List.append_assoc, List.drop_left]

theorem cut_front_none {sep s e : List α} (h : cut sep (s ++ e) = none) : cut sep s = none := by
  cases hcut : cut sep s with
  | none => rfl
  | some parts =>
    rw [cut_append hcut] at h
    cases h

/-- The first occurrence is the one found. -/
theorem cut_first {sep s : List α} {k : Nat} (h : sep <+: s.drop k) :
    ∃ before after, cut sep s = some (before, after) ∧ before.length ≤ k := by
  cases hcut : cut sep s with
  | none => exact absurd h (cut_eq_none hcut k)
  | some parts =>
    refine ⟨parts.1, parts.2, rfl, ?_⟩
    induction s generalizing k parts with
    | nil =>
      have := congrArg List.length (cut_eq hcut)
      simp only [List.length_nil, List.length_append] at this
      omega
    | cons c s ih =>
      rw [cut] at hcut
      split at hcut
      · cases hcut
        exact Nat.zero_le k
      · rename_i hfront
        cases k with
        | zero => exact absurd h hfront
        | succ k =>
          obtain ⟨parts', hcut', heq⟩ := Option.map_eq_some_iff.mp hcut
          subst heq
          have := ih h parts' hcut'
          simp only [List.length_cons]
          omega

theorem cut_here {sep s before after : List α} (h : cut sep s = some (before, after)) :
    sep <+: s.drop before.length := by
  rw [cut_eq h, List.append_assoc, List.drop_left]
  exact List.prefix_append ..

/-- The separator does not stand before its first occurrence. -/
theorem cut_before {sep s before after : List α} (hsep : sep ≠ [])
    (h : cut sep s = some (before, after)) : cut sep before = none := by
  cases hcut : cut sep before with
  | none => rfl
  | some parts =>
    obtain ⟨first, rest⟩ := parts
    have hpos := List.length_pos_iff.mpr hsep
    have hearlier : cut sep s = some (first, rest ++ (sep ++ after)) := by
      rw [cut_eq h, List.append_assoc]
      exact cut_append hcut _
    obtain ⟨-, hrest⟩ := Prod.mk.inj (Option.some.inj (h.symm.trans hearlier))
    have := congrArg List.length hrest
    simp only [List.length_append] at this
    omega

/-- A separator that does not overlap with itself is found where it was put. -/
theorem cut_borderless {sep front : List α}
    (border : ∀ k < sep.length, 0 < k → ¬sep.drop k <+: sep) (h : cut sep front = none)
    (rest : List α) : cut sep (front ++ sep ++ rest) = some (front, rest) := by
  induction front with
  | nil => rw [List.nil_append, cut_front (List.prefix_append ..), List.drop_left]
  | cons a front ih =>
    have hnot := cut_eq_none h 0
    rw [List.drop_zero] at hnot
    rw [cut, if_neg hnot, Option.map_eq_none_iff] at h
    have hlong : ¬sep <+: a :: (front ++ sep ++ rest) := by
      intro hp
      have hfront : a :: front <+: a :: (front ++ sep ++ rest) := by
        rw [List.append_assoc]
        exact List.prefix_append (a :: front) _
      rcases Nat.lt_or_ge (a :: front).length sep.length with hlt | hle
      · obtain ⟨r, hr⟩ := List.prefix_of_prefix_length_le hfront hp hlt.le
        have hdrop : sep.drop (a :: front).length = r := by rw [← hr, List.drop_left]
        have hr' : r <+: sep ++ rest := by
          rw [← hr, List.append_assoc, ← List.cons_append] at hp
          rw [← List.prefix_append_right_inj (a :: front)]
          rwa [hr] at hp ⊢
        refine border _ hlt (Nat.zero_lt_succ _) (hdrop ▸ ?_)
        refine List.prefix_of_prefix_length_le hr' (List.prefix_append ..) ?_
        rw [← hdrop, List.length_drop]
        exact Nat.sub_le ..
      · exact hnot (List.prefix_of_prefix_length_le hp hfront hle)
    rw [List.cons_append, List.cons_append, cut, if_neg hlong, ih h]
    rfl

theorem cut_isSome_length {sep s before after : List α} (hsep : sep ≠ [])
    (h : cut sep s = some (before, after)) : after.length < s.length := by
  have := List.length_pos_iff.mpr hsep
  rw [cut_eq h, List.length_append, List.length_append]
  omega

/-! ### Splitting and joining -/

theorem join_splitFrom (sep : List α) (n : Nat) (s : List α) :
    sep.intercalate (splitFrom sep n s) = s := by
  induction n generalizing s with
  | zero => simp [splitFrom, List.intercalate]
  | succ n ih =>
    rw [splitFrom]
    cases hcut : cut sep s with
    | none => simp [List.intercalate]
    | some ba =>
      obtain ⟨before, after⟩ := ba
      have hrest : ∃ x xs, splitFrom sep n after = x :: xs := by
        cases n with
        | zero => exact ⟨_, _, rfl⟩
        | succ n =>
          rw [splitFrom]
          split <;> exact ⟨_, _, rfl⟩
      obtain ⟨x, xs, hx⟩ := hrest
      have hjoin := ih after
      dsimp only
      rw [hx] at hjoin ⊢
      rw [List.intercalate_cons_cons, hjoin, cut_eq hcut]

theorem split_of_cut {sep s before after : List α} (hsep : sep ≠ [])
    (h : cut sep s = some (before, after)) :
    (split sep s).head? = some before ∧ sep.intercalate (split sep s).tail = after := by
  rw [split]
  have hlen : s.length = s.length - 1 + 1 := by
    have := cut_isSome_length hsep h
    omega
  rw [hlen, splitFrom, h]
  exact ⟨rfl, join_splitFrom ..⟩

theorem splitFrom_congr {sep : List α} (hsep : sep ≠ []) (n m : Nat) {s : List α} (hn : s.length ≤ n)
    (hm : s.length ≤ m) : splitFrom sep n s = splitFrom sep m s := by
  induction n generalizing m s with
  | zero =>
    obtain rfl := List.length_eq_zero_iff.mp (Nat.le_zero.mp hn)
    cases m with
    | zero => rfl
    | succ m => rw [splitFrom, splitFrom, cut, if_neg hsep]
  | succ n ih =>
    cases m with
    | zero =>
      obtain rfl := List.length_eq_zero_iff.mp (Nat.le_zero.mp hm)
      rw [splitFrom, splitFrom, cut, if_neg hsep]
    | succ m =>
      rw [splitFrom, splitFrom]
      cases hcut : cut sep s with
      | none => rfl
      | some ba =>
        have := cut_isSome_length hsep hcut
        exact congrArg (ba.1 :: ·) (ih m (by omega) (by omega))

theorem split_eq {sep : List α} (hsep : sep ≠ []) (s : List α) : split sep s =
    match cut sep s with
    | none => [s]
    | some (before, after) => before :: split sep after := by
  rw [split, splitFrom_congr hsep s.length (s.length + 1) (Nat.le_refl _) (Nat.le_succ _), splitFrom]
  cases hcut : cut sep s with
  | none => rfl
  | some ba =>
    have := cut_isSome_length hsep hcut
    exact congrArg (ba.1 :: ·) (splitFrom_congr hsep s.length ba.2.length (by omega) (Nat.le_refl _))

theorem split_front {sep : List α} (hsep : sep ≠ []) (s : List α) :
    split sep (sep ++ s) = [] :: split sep s := by
  rw [split_eq hsep, cut_front (List.prefix_append ..), List.drop_left]

/-- A part in which the separator does not begin is a part of the first piece. -/
theorem split_skip {sep x : List α} (hsep : sep ≠ []) (s : List α)
    (h : ∀ j < x.length, ¬sep <+: (x ++ s).drop j) :
    split sep (x ++ s) = (split sep s).modifyHead (x ++ ·) := by
  induction x with
  | nil =>
    rw [List.nil_append]
    cases split sep s <;> rfl
  | cons a x ih =>
    have hfirst : ¬sep <+: a :: (x ++ s) := h 0 (Nat.zero_lt_succ _)
    have hrest := ih fun j hj => h (j + 1) (Nat.succ_lt_succ hj)
    have hcons : split sep (a :: (x ++ s)) = (split sep (x ++ s)).modifyHead (a :: ·) := by
      rw [split_eq hsep, split_eq hsep (x ++ s), cut, if_neg hfirst]
      cases cut sep (x ++ s) <;> rfl
    rw [List.cons_append, hcons, hrest, List.modifyHead_modifyHead]
    rfl

/-- Where the first piece begins with a part, the separator does not begin in it. -/
theorem not_prefix_of_split {sep x s : List α} (hsep : sep ≠ []) {l : List (List α)} (hl : l ≠ [])
    (h : split sep (x ++ s) = l.modifyHead (x ++ ·)) : ∀ j < x.length, ¬sep <+: (x ++ s).drop j := by
  intro j hj hfits
  obtain ⟨before, after, hcut, hle⟩ := cut_first hfits
  obtain ⟨y, l, rfl⟩ := List.exists_cons_of_ne_nil hl
  rw [split_eq hsep, hcut, List.modifyHead_cons] at h
  have := congrArg List.length (List.cons.inj h).1
  rw [List.length_append] at this
  omega

/-! ### The overlap -/

theorem overlapFrom_spec (s delim : List α) (n : Nat) :
    overlapFrom s delim n ≤ n ∧ delim.take (overlapFrom s delim n) <:+ s ∧
      ∀ j ≤ n, delim.take j <:+ s → j ≤ overlapFrom s delim n := by
  induction n with
  | zero => exact ⟨Nat.le_refl _, List.nil_suffix, fun j hj _ => hj⟩
  | succ n ih =>
    rw [overlapFrom]
    split
    · rename_i hsuffix
      exact ⟨Nat.le_refl _, hsuffix, fun j hj _ => hj⟩
    · rename_i hsuffix
      refine ⟨Nat.le_succ_of_le ih.1, ih.2.1, ?_⟩
      intro j hj hj'
      rcases Nat.lt_or_eq_of_le hj with hj | rfl
      · exact ih.2.2 j (Nat.lt_succ_iff.mp hj) hj'
      · exact absurd hj' hsuffix

theorem overlap_le (s delim : List α) : overlap s delim ≤ min delim.length s.length :=
  (overlapFrom_spec s delim _).1

theorem overlap_suffix (s delim : List α) : delim.take (overlap s delim) <:+ s :=
  (overlapFrom_spec s delim _).2.1

theorem le_overlap {s delim : List α} {j : Nat} (hj : j ≤ delim.length)
    (h : delim.take j <:+ s) : j ≤ overlap s delim := by
  have hlen := h.length_le
  rw [List.length_take_of_le hj] at hlen
  exact (overlapFrom_spec s delim _).2.2 j (by omega) h

/-! ### What cannot be the beginning of a separator any more -/

theorem Clear.cut_append {sep e a : List α} (h : Clear sep e a) :
    cut sep (e ++ a) = (cut sep a).map fun (before, after) => (e ++ before, after) := by
  induction e with
  | nil => simp
  | cons x e ih =>
    rw [List.cons_append, cut, if_neg (by exact h.1.1), ih h.2, Option.map_map]
    rfl

theorem Clear.overlap_append {sep e a : List α} (h : Clear sep e a) :
    overlap (e ++ a) sep = overlap a sep := by
  apply Nat.le_antisymm
  · have hle := overlap_le (e ++ a) sep
    have hsuffix := overlap_suffix (e ++ a) sep
    generalize overlap (e ++ a) sep = k at hle hsuffix
    have hk : k ≤ a.length := by
      by_contra hk
      -- the suffix would begin inside of `e`
      rw [List.length_append] at hle
      have hdrop := List.suffix_iff_eq_drop.mp hsuffix
      rw [List.length_take_of_le (by omega), List.length_append] at hdrop
      apply (clear_iff.mp h (e.length + a.length - k) (by omega)).2
      rw [← hdrop]
      exact List.take_prefix ..
    refine le_overlap (by omega) ?_
    apply List.suffix_of_suffix_length_le hsuffix (List.suffix_append ..)
    rw [List.length_take_of_le (by omega)]
    exact hk
  · have hle := overlap_le a sep
    exact le_overlap (by omega) ((overlap_suffix a sep).trans (List.suffix_append ..))

/-- Without a separator, everything before the overlap is clear of it. -/
theorem clear_overlap {sep s : List α} (h : cut sep s = none) :
    Clear sep (s.take (s.length - overlap s sep)) (s.drop (s.length - overlap s sep)) := by
  rw [clear_iff, List.take_append_drop]
  intro i hi
  refine ⟨cut_eq_none h i, ?_⟩
  intro hp
  rw [List.length_take] at hi
  have hlen := hp.length_le
  have hj : (s.drop i).length ≤ overlap s sep := by
    apply le_overlap hlen
    rw [← List.prefix_iff_eq_take.mp hp]
    exact List.drop_suffix ..
  rw [List.length_drop] at hj
  omega

end

section

variable {α : Type} {pat x y : List α} {d : α}

/-- A pattern without the delimiter is in front of it. -/
theorem prefix_of_delimited (hd : d ∉ pat) (h : pat <+: x ++ d :: y) : pat <+: x := by
  rcases Nat.lt_or_ge x.length pat.length with hlt | hle
  · obtain ⟨rest, hrest⟩ := List.prefix_of_prefix_length_le (List.prefix_append x (d :: y)) h hlt.le
    rw [← hrest, List.prefix_append_right_inj] at h
    cases rest with
    | nil =>
      rw [List.append_nil] at hrest
      exact absurd hlt (by rw [hrest]; exact Nat.lt_irrefl _)
    | cons c rest =>
      obtain rfl := (List.cons_prefix_cons.mp h).1
      exact absurd (hrest ▸ List.mem_append_right x List.mem_cons_self) hd
  · exact List.prefix_of_prefix_length_le h (List.prefix_append ..) hle

/-- A pattern that ends with its only delimiter ends with the first one of the text. -/
theorem eq_of_delimited_prefix {word : List α} (hword : d ∉ word) (hx : d ∉ x)
    (h : word ++ [d] <+: x ++ d :: y) : word = x := by
  have hprefix : word <+: x := prefix_of_delimited hword ((List.prefix_append word [d]).trans h)
  obtain ⟨rest, rfl⟩ := hprefix
  rw [List.append_assoc, List.prefix_append_right_inj] at h
  cases rest with
  | nil => exact (List.append_nil word).symm
  | cons c rest =>
    obtain rfl := (List.cons_prefix_cons.mp h).1
    exact absurd (List.mem_append_right word List.mem_cons_self) hx

/-- A pattern whose last element is only there does not overlap with itself. -/
theorem border_delimited {word : List α} (hword : d ∉ word) (k : Nat) (hk : k < (word ++ [d]).length)
    (hpos : 0 < k) : ¬(word ++ [d]).drop k <+: word ++ [d] := by
  intro h
  rw [List.length_append, List.length_singleton] at hk
  rw [List.drop_append_of_le_length (by omega)] at h
  have hdrop : d ∉ word.drop k := fun hmem => hword (List.mem_of_mem_drop hmem)
  have heq := eq_of_delimited_prefix hdrop hword h
  have hlen := congrArg List.length heq
  rw [List.length_drop] at hlen
  have hnil : word = [] := List.length_eq_zero_iff.mp (by omega)
  rw [hnil, List.length_nil] at hk
  omega

variable [DecidableEq α]

/-- No occurrence begins in the first part. -/
theorem cut_skip (h : ∀ t, t <:+ x → t ≠ [] → ¬pat <+: t ++ y) :
    cut pat (x ++ y) = (cut pat y).map fun (before, after) => (x ++ before, after) := by
  induction x with
  | nil => simp
  | cons a x ih =>
    have hfront : ¬pat <+: a :: (x ++ y) := h (a :: x) List.suffix_rfl (List.cons_ne_nil a x)
    have hrest := ih fun t ht => h t (ht.trans (List.suffix_cons a x))
    rw [List.cons_append, cut, if_neg hfront, hrest, Option.map_map]
    rfl

/-- In front of a delimiter that is not in the pattern, the pattern is found or skipped. -/
theorem cut_delimited (hd : d ∉ pat) (y : List α) : cut pat (x ++ d :: y) =
    match cut pat x with
    | some (before, after) => some (before, after ++ d :: y)
    | none => (cut pat y).map fun (before, after) => (x ++ d :: before, after) := by
  cases hcut : cut pat x with
  | some parts => exact cut_append hcut _
  | none =>
    have hskip := @cut_skip α pat (x ++ [d]) y _ ?_
    · rw [List.append_assoc] at hskip
      simpa using hskip
    · intro t ht hne hp
      rcases List.suffix_concat_iff.mp ht with rfl | ⟨u, rfl, hu⟩
      · exact hne rfl
      · rw [List.append_assoc] at hp
        have hfound := prefix_of_delimited hd hp
        rw [List.suffix_iff_eq_drop] at hu
        exact cut_eq_none hcut _ (hu ▸ hfound)

end

end Ecco9.Library
