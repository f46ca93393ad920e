import Ecco9.Library.Chars
import Ecco9.Library.Utf8
import Mathlib.Data.List.Infix

/-! Every occurrence of a string replaced, from left to right; in text, one character by another. Several
strings replaced in one pass, as `strings.Replacer` does it: at each place the first pair that fits is
taken, and what it has replaced is not looked at again. -/

namespace Ecco9.Library

section

section
variable {α : Type} [DecidableEq α]

/-- The number says how much of the last occurrence is still to be dropped. -/
def replaceFrom (old new : List α) : Nat → List α → List α
  | _, [] => []
  | k + 1, _ :: s => replaceFrom old new k s
  | 0, a :: s =>
    if old <+: a :: s then new ++ replaceFrom old new (old.length - 1) s
    else a :: replaceFrom old new 0 s

/-- What is replaced must not be empty. -/
def replaceAll (old new s : List α) : List α := replaceFrom old new 0 s

@[simp] theorem replaceAll_nil (old new : List α) : replaceAll old new [] = [] := rfl

theorem replaceFrom_drop (old new : List α) (k : Nat) (s : List α) :
    replaceFrom old new k s = replaceAll old new (s.drop k) := by
  induction s generalizing k with
  | nil => simp [replaceFrom]
  | cons a s ih =>
    cases k with
    | zero => rfl
    | succ k => rw [replaceFrom, ih, List.drop_succ_cons]

theorem replaceAll_front {old : List α} (hold : old ≠ []) (new s : List α) :
    replaceAll old new (old ++ s) = new ++ replaceAll old new s := by
  obtain ⟨a, old, rfl⟩ := List.exists_cons_of_ne_nil hold
  have hfront : a :: old <+: a :: (old ++ s) := ⟨s, rfl⟩
  have hdrop : (old ++ s).drop ((a :: old).length - 1) = s := by
    rw [List.length_cons, Nat.add_sub_cancel, List.drop_left]
  rw [List.cons_append, replaceAll, replaceFrom, if_pos hfront,
    replaceFrom_drop, hdrop]

theorem replaceAll_singleton (a : α) (new s : List α) :
    replaceAll [a] new s = s.flatMap fun b => if b = a then new else [b] := by
  induction s with
  | nil => rfl
  | cons b s ih =>
    rw [List.flatMap_cons, ← ih, replaceAll, replaceFrom]
    by_cases hb : b = a
    · rw [if_pos hb, if_pos (by simp [hb])]
      rfl
    · rw [if_neg hb, if_neg (by simp [Ne.symm hb])]
      rfl

theorem replaceAll_skip {old c t : List α} (new : List α)
    (h : ∀ i < c.length, ¬old <+: (c ++ t).drop i) :
    replaceAll old new (c ++ t) = c ++ replaceAll old new t := by
  induction c with
  | nil => rfl
  | cons a c ih =>
    have hfirst : ¬old <+: a :: (c ++ t) := h 0 (Nat.zero_lt_succ _)
    have hrest := ih fun i hi => h (i + 1) (Nat.succ_lt_succ hi)
    rw [List.cons_append, replaceAll, replaceFrom, if_neg hfirst, ← replaceAll, hrest,
      List.cons_append]

end

/-! ### Characters -/

theorem Utf8.run_continuation {st : Utf8.State} {s : Text} (h : Utf8.run st s = some Utf8.start)
    (howed : st.owed = s.length) (hlo : 0x80 ≤ st.lo) (hhi : st.hi ≤ 0xBF) :
    ∀ b ∈ s, 0x80 ≤ b.toNat ∧ b.toNat ≤ 0xBF := by
  induction s generalizing st with
  | nil => simp
  | cons b s ih =>
    rw [Utf8.run, Utf8.step, if_neg (by rw [howed]; exact Nat.succ_ne_zero _)] at h
    split_ifs at h with hb
    · rw [Option.bind_some] at h
      have hrest := ih h (by rw [howed]; rfl) (Nat.le_refl _) (Nat.le_refl _)
      intro x hx
      rcases List.mem_cons.mp hx with rfl | hx
      · exact ⟨hlo.trans hb.1, hb.2.trans hhi⟩
      · exact hrest x hx
    · cases h

/-- A character begins with a byte that continues none. -/
theorem IsChar.head {b : UInt8} {c : Text} (h : IsChar (b :: c)) :
    b.toNat < 0x80 ∨ 0xBF < b.toNat := by
  rw [IsChar, charWidth] at h
  by_contra hb
  rw [not_or, Nat.not_lt, Nat.not_lt] at hb
  have hlead : Utf8.lead b.toNat = none := by
    rw [Utf8.lead, if_neg (by omega), if_pos (by omega)]
  rw [hlead] at h
  cases h

theorem IsChar.continuation {b : UInt8} {c : Text} (h : IsChar (b :: c)) :
    ∀ x ∈ c, 0x80 ≤ x.toNat ∧ x.toNat ≤ 0xBF := by
  rw [IsChar, charWidth] at h
  cases hlead : Utf8.lead b.toNat with
  | none =>
    rw [hlead] at h
    cases h
  | some st =>
    rw [hlead] at h
    dsimp only at h
    split_ifs at h with hvalid
    have howed : st.owed = c.length := by simpa using Option.some.inj h
    have hrun : Utf8.run Utf8.start [b] = some st := by
      rw [Utf8.run, Utf8.step, if_pos (by rfl), hlead]
      rfl
    rw [howed, List.take_succ_cons, List.take_length, utf8Valid_iff, Utf8.run, Utf8.step,
      if_pos (by rfl), hlead, Option.bind_some] at hvalid
    rcases Utf8.run_state hrun with rfl | ⟨-, hlo, hhi⟩
    · have hc : c = [] := List.length_eq_zero_iff.mp howed.symm
      simp [hc]
    · exact Utf8.run_continuation hvalid howed hlo hhi

/-- A string that starts with two characters starts with one. -/
theorem IsChar.eq_of_append {c d s t : Text} (hc : IsChar c) (hd : IsChar d)
    (h : c ++ s = d ++ t) : c = d := by
  have hlen : some c.length = some d.length := by
    rw [← charWidth_append hc s, h, charWidth_append hd t]
  exact List.append_inj_left h (Option.some.inj hlen)

theorem not_char_drop {c d : Text} (hc : IsChar c) (hd : IsChar d) (hne : c ≠ d) (t : Text) {i : Nat}
    (hi : i < d.length) : ¬c <+: (d ++ t).drop i := by
  rintro ⟨s, hs⟩
  cases i with
  | zero => exact hne (hc.eq_of_append hd hs)
  | succ i =>
    obtain ⟨x, c, rfl⟩ := List.exists_cons_of_ne_nil hc.ne_nil
    obtain ⟨b, d, rfl⟩ := List.exists_cons_of_ne_nil hd.ne_nil
    rw [List.length_cons] at hi
    rw [List.cons_append, List.cons_append, List.drop_succ_cons,
      List.drop_append_of_le_length (by omega)] at hs
    -- within a character no other one begins
    have hmem : x ∈ d := by
      have hdrop := List.drop_eq_getElem_cons (Nat.lt_of_succ_lt_succ hi)
      rw [hdrop, List.cons_append] at hs
      rw [(List.cons.inj hs).1]
      exact List.getElem_mem _
    have := hd.continuation x hmem
    have := hc.head
    omega

/-- One character of a text is replaced. -/
theorem replaceAll_chars {mark : Text} (hmark : IsChar mark) (new : Text) {cs : List Text}
    (h : ∀ c ∈ cs, IsChar c) :
    replaceAll mark new cs.flatten = cs.flatMap fun c => if c = mark then new else c := by
  induction cs with
  | nil => rfl
  | cons c cs ih =>
    have hrest := ih fun d hd => h d (by simp [hd])
    rw [List.flatten_cons, List.flatMap_cons, ← hrest]
    split_ifs with hc
    · rw [hc, replaceAll_front hmark.ne_nil]
    · exact replaceAll_skip new fun i hi => not_char_drop hmark (h c (by simp)) (Ne.symm hc) _ hi

theorem isChar_take {s : Text} {w : Nat} (h : charWidth s = some w) : IsChar (s.take w) := by
  have hle := charWidth_le h
  cases s with
  | nil => cases h
  | cons b s =>
    have hpos := charWidth_pos h
    rw [charWidth] at h
    cases hlead : Utf8.lead b.toNat with
    | none =>
      rw [hlead] at h
      cases h
    | some st =>
      rw [hlead] at h
      dsimp only at h
      split_ifs at h with hvalid
      obtain rfl := Option.some.inj h
      rw [IsChar, List.length_take, Nat.min_eq_left hle, List.take_succ_cons, charWidth, hlead]
      dsimp only
      rw [List.take_succ_cons] at hvalid
      rw [List.take_succ_cons, List.take_take, Nat.min_self, if_pos hvalid]

theorem isChar_of_mem_chars {s : Text} (h : utf8Valid s) : ∀ c ∈ chars s, IsChar c := by
  induction hn : s.length using Nat.strongRecOn generalizing s with
  | ind n ih =>
    by_cases hs : s = []
    · simp [hs]
    · obtain ⟨w, hw, hle, hvalid⟩ := charWidth_of_valid h hs
      have hpos := charWidth_pos hw
      rw [chars_of_width hw]
      intro c hc
      rcases List.mem_cons.mp hc with rfl | hc
      · exact isChar_take hw
      · exact ih (s.drop w).length (by rw [List.length_drop]; omega) hvalid rfl c hc

end

section

/-- The number says how much of the last occurrence is still to be dropped. -/
def replacerFrom (pairs : List (Text × Text)) : Nat → Text → Text
  | _, [] => []
  | k + 1, _ :: s => replacerFrom pairs k s
  | 0, b :: s =>
    match pairs.find? fun p => p.1 <+: b :: s with
    | some (old, new) => new ++ replacerFrom pairs (old.length - 1) s
    | none => b :: replacerFrom pairs 0 s

/-- What is replaced must not be empty. -/
def replacer (pairs : List (Text × Text)) (s : Text) : Text := replacerFrom pairs 0 s

variable {pairs : List (Text × Text)}

@[simp] theorem replacer_nil : replacer pairs [] = [] := rfl

theorem replacerFrom_drop (k : Nat) (s : Text) :
    replacerFrom pairs k s = replacer pairs (s.drop k) := by
  induction s generalizing k with
  | nil => rw [replacerFrom, List.drop_nil, replacer_nil]
  | cons b s ih =>
    cases k with
    | zero => rfl
    | succ k => rw [replacerFrom, ih, List.drop_succ_cons]

theorem replacer_front {old new t : Text} (hold : old ≠ [])
    (h : pairs.find? (fun p => p.1 <+: old ++ t) = some (old, new)) :
    replacer pairs (old ++ t) = new ++ replacer pairs t := by
  obtain ⟨b, old, rfl⟩ := List.exists_cons_of_ne_nil hold
  have hdrop : (old ++ t).drop ((b :: old).length - 1) = t := by
    rw [List.length_cons, Nat.add_sub_cancel, List.drop_left]
  rw [List.cons_append] at h ⊢
  rw [replacer, replacerFrom, h]
  dsimp only
  rw [replacerFrom_drop, hdrop]

theorem replacer_cons {b : UInt8} {t : Text} (h : ∀ p ∈ pairs, ¬p.1 <+: b :: t) :
    replacer pairs (b :: t) = b :: replacer pairs t := by
  have hnone : pairs.find? (fun p => p.1 <+: b :: t) = none :=
    List.find?_eq_none.mpr fun p hp hfits => h p hp (of_decide_eq_true hfits)
  rw [replacer, replacerFrom, hnone]
  rfl

/-- Bytes with which nothing begins that is replaced are kept. -/
theorem replacer_keep {c : Text} (h : ∀ b ∈ c, ∀ p ∈ pairs, ∃ a old, p.1 = a :: old ∧ a ≠ b)
    (t : Text) : replacer pairs (c ++ t) = c ++ replacer pairs t := by
  induction c with
  | nil => rfl
  | cons b c ih =>
    have hb : ∀ p ∈ pairs, ¬p.1 <+: b :: (c ++ t) := by
      intro p hp hfits
      obtain ⟨a, old, heq, hne⟩ := h b List.mem_cons_self p hp
      rw [heq, List.cons_prefix_cons] at hfits
      exact hne hfits.1
    rw [List.cons_append, replacer_cons hb, ih fun x hx => h x (List.mem_cons_of_mem _ hx)]
    rfl

end

end Ecco9.Library
