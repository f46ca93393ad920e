import Ecco9.Parser.Modelfile

/-! Values in quotes: what ends a value, and which values are read as they were written. -/

namespace Ecco9.Parser

open Ecco9.Library

/-- No line of the text but the last one ends the value. -/
def Unclosed (t : Str) : Prop :=
  ∀ u r w, t = u ++ r :: w → isNewline r = true → unquote (trimSpace u) = none

/-- No line ends in three quotes, but for white space. -/
def Sealed (s : Str) : Prop :=
  ∀ u r w, s = u ++ r :: w → isNewline r = true → ¬tripleQuote <:+ u.rdropWhile isWhite

/-- What is read as it is without quotes. -/
structure Bare (s : Str) : Prop where
  trimmed : trimSpace s = s
  line : ∀ r ∈ s, isNewline r = false
  unquoted : ¬['"'] <+: s

def NeedsQuote (s : Str) : Prop := '\n' ∈ s ∨ [' '] <+: s ∨ [' '] <:+ s

instance (s : Str) : Decidable (NeedsQuote s) := inferInstanceAs (Decidable (_ ∨ _))

@[simp] theorem isWhite_quote : isWhite '"' = false := by decide

@[simp] theorem isNewline_quote : isNewline '"' = false := by decide

theorem unclosed_concat {b : Str} {r : Char} (hb : Unclosed b)
    (hr : isNewline r = true → unquote (trimSpace b) = none) : Unclosed (b ++ [r]) := by
  intro u a w huw ha
  rcases List.eq_nil_or_concat w with rfl | ⟨w, c, rfl⟩
  · obtain ⟨rfl, hlast⟩ := List.append_inj' huw rfl
    obtain rfl := (List.cons.inj hlast).1
    exact hr ha
  · rw [List.concat_eq_append, ← List.cons_append, ← List.append_assoc] at huw
    obtain ⟨rfl, -⟩ := List.append_inj' huw rfl
    exact hb u a w rfl ha

theorem unclosed_nil : Unclosed [] := by
  rintro u r w huw -
  simp at huw

theorem unclosed_line {t : Str} (h : ∀ r ∈ t, isNewline r = false) : Unclosed t := by
  rintro u r w rfl hr
  rw [h r (by simp)] at hr
  cases hr

/-! ### Quotes -/

theorem unquote_bare {s : Str} (h : ¬['"'] <+: s) : unquote s = some s := by
  have htriple : ¬tripleQuote <+: s := fun ht => h (.trans ⟨['"', '"'], rfl⟩ ht)
  rw [unquote, if_neg htriple, if_neg h]

theorem unquote_triple (s : Str) : unquote (tripleQuote ++ s ++ tripleQuote) = some s := by
  rw [unquote, if_pos (by rw [List.append_assoc]; exact List.prefix_append ..),
    if_pos ⟨by simp [tripleQuote], List.suffix_append ..⟩]
  simp [tripleQuote]

theorem unquote_single {s : Str} (h : ¬tripleQuote <+: ['"'] ++ s ++ ['"']) :
    unquote (['"'] ++ s ++ ['"']) = some s := by
  rw [unquote, if_neg h, if_pos ⟨s ++ ['"'], by simp⟩, if_pos ⟨by simp, List.suffix_append ..⟩]
  simp

/-- What stands in quotes. -/
theorem unquote_eq_some {x s : Str} (h : unquote x = some s) :
    ¬['"'] <+: x ∧ s = x ∨
      x = tripleQuote ++ s ++ tripleQuote ∨
      ¬tripleQuote <+: x ∧ x = ['"'] ++ s ++ ['"'] := by
  have hwithin (q : Str) (hfront : q <+: x) (hback : q <:+ x) (hlen : 2 * q.length ≤ x.length) :
      x = q ++ (x.drop q.length).take (x.length - 2 * q.length) ++ q := by
    obtain ⟨y, rfl⟩ := hfront
    have hy : q <:+ y := by
      rw [List.length_append] at hlen
      exact List.suffix_of_suffix_length_le hback (List.suffix_append ..) (by omega)
    obtain ⟨z, rfl⟩ := hy
    rw [List.drop_left, List.length_append, List.length_append]
    have hz : q.length + (z.length + q.length) - 2 * q.length = z.length := by omega
    rw [hz, List.take_left, List.append_assoc]
  unfold unquote at h
  split_ifs at h with htriple hback hone hback
  · obtain rfl := Option.some.inj h
    exact .inr (.inl (hwithin tripleQuote htriple hback.2 hback.1))
  · obtain rfl := Option.some.inj h
    exact .inr (.inr ⟨htriple, hwithin ['"'] hone hback.2 hback.1⟩)
  · exact .inl ⟨hone, (Option.some.inj h).symm⟩

/-- A quote that is not closed. -/
theorem unquote_eq_none {x : Str} (h : unquote x = none) : ['"'] <+: x := by
  by_contra hx
  rw [unquote_bare hx] at h
  cases h

/-- The value of an open line begins with a quote. -/
theorem quote_of_open {u : Str} (h : unquote (trimSpace u) = none) :
    ∃ front v, u = front ++ '"' :: v ∧ ∀ r ∈ front, isWhite r = true := by
  obtain ⟨front, rest, rfl, hfront, htrim, -⟩ := trim_spec isWhite u
  have hquote := unquote_eq_none h
  rw [trimSpace, htrim] at hquote
  obtain ⟨v, rfl⟩ := hquote.trans (List.rdropWhile_prefix ..)
  exact ⟨front, v, rfl, hfront⟩

theorem trimSpace_quote {front : Str} (h : ∀ r ∈ front, isWhite r = true) (v : Str) :
    trimSpace (front ++ '"' :: v) = '"' :: v.rdropWhile isWhite := by
  rw [trimSpace, trim_front h, trim_of_head isWhite_quote]

/-! ### Values without quotes -/

theorem prefix_cons_cases {s t rest : Str} {r : Char} (h : t <+: s ++ r :: rest) :
    t <+: s ∨ ∃ y, t = s ++ r :: y := by
  have hs : s ++ [r] <+: s ++ r :: rest := ⟨rest, by simp⟩
  rcases List.prefix_or_prefix_of_prefix h hs with hle | ⟨y, rfl⟩
  · rcases List.prefix_concat_iff.mp hle with rfl | hle
    · exact .inr ⟨[], rfl⟩
    · exact .inl hle
  · exact .inr ⟨y, by simp⟩

/-- A value within its own quotes. -/
theorem not_quoted_again {q s t rest : Str} {r : Char} (hr : isNewline r = true)
    (ht : t <+: s ++ r :: rest) (hopen : Unclosed t) (hq : ∀ a ∈ q, a = '"') (hne : q ≠ []) :
    trimSpace t ≠ q ++ s ++ q := by
  intro hsame
  have hlen := length_trim_le isWhite t
  rw [← trimSpace, hsame, List.length_append, List.length_append] at hlen
  have hpos := List.length_pos_iff.mpr hne
  rcases prefix_cons_cases ht with hshort | ⟨y, rfl⟩
  · have := hshort.length_le
    omega
  · obtain ⟨front, v, rfl, hfront⟩ := quote_of_open (hopen s r y rfl hr)
    have htrim := trimSpace_quote hfront (v ++ r :: y)
    have hshift : (q ++ front) ++ '"' :: v ++ q <+: '"' :: v ++ r :: y := by
      have hback : ('"' :: v.append (r :: y)).rdropWhile isWhite <+: '"' :: v ++ r :: y :=
        List.rdropWhile_prefix ..
      rw [rdropWhile_cons isWhite_quote] at hback
      rw [List.append_assoc, List.cons_append, htrim] at hsame
      rw [List.append_assoc q front, ← hsame]
      exact hback
    refine not_shifted (by simp [hne]) ?_ hshift
    rw [List.mem_append, not_or]
    refine ⟨?_, ?_⟩
    · intro hmem
      rw [hq r hmem] at hr
      cases hr
    · -- a line of white space alone is not open
      intro hmem
      obtain ⟨a, b, rfl⟩ := List.append_of_mem hmem
      have hnone := hopen a r (b ++ '"' :: v ++ r :: y) (by simp) hr
      rw [trimSpace, trim_eq_nil fun c hc => hfront c (by simp [hc])] at hnone
      cases hnone

/-- What is read of a value without quotes is not the value, unless it is bare. -/
theorem bare_of_unquote {s t rest : Str} {r : Char} (hr : isNewline r = true)
    (ht : t <+: s ++ r :: rest) (hopen : Unclosed t) (hs : unquote (trimSpace t) = some s) :
    Bare s := by
  rcases unquote_eq_some hs with ⟨hquote, hsame⟩ | hsame | ⟨-, hsame⟩
  · have hline : ∀ r ∈ t, isNewline r = false := by
      intro r hr
      by_contra hnl
      obtain ⟨u, w, rfl⟩ := List.append_of_mem hr
      obtain ⟨front, v, rfl, hfront⟩ := quote_of_open (hopen u r w rfl (by simpa using hnl))
      rw [List.append_assoc, List.cons_append, trimSpace_quote hfront] at hquote
      exact hquote ⟨_, rfl⟩
    have hshort : t <+: s := by
      rcases prefix_cons_cases ht with hshort | ⟨y, rfl⟩
      · exact hshort
      · rw [hline r (by simp)] at hr
        cases hr
    have heq : t = s := by
      refine hshort.eq_of_length (Nat.le_antisymm hshort.length_le ?_)
      conv_lhs => rw [hsame]
      exact length_trim_le isWhite t
    subst heq
    exact ⟨hsame.symm, hline, by rwa [← hsame] at hquote⟩
  · exact absurd hsame (not_quoted_again hr ht hopen (by simp [tripleQuote]) (by simp [tripleQuote]))
  · exact absurd hsame (not_quoted_again hr ht hopen (by simp) (by simp))

theorem Bare.unclosed {s : Str} (h : Bare s) : Unclosed s := by
  rintro u r w rfl hr
  rw [h.line r (by simp)] at hr
  cases hr

theorem Bare.unquote {s : Str} (h : Bare s) : unquote (trimSpace s) = some s := by
  rw [h.trimmed, unquote_bare h.unquoted]

/-! ### Values in quotes -/

theorem trimSpace_quoted {q : Str} (hq : ∀ a ∈ q, a = '"') (hne : q ≠ []) (s : Str) :
    trimSpace (q ++ s ++ q) = q ++ s ++ q := by
  obtain ⟨a, q', rfl⟩ := List.exists_cons_of_ne_nil hne
  obtain rfl := hq a (by simp)
  have hlast : ∃ l, '"' :: q' = l ++ ['"'] := by
    refine ⟨('"' :: q').dropLast, ?_⟩
    conv_lhs => rw [← List.dropLast_append_getLast (List.cons_ne_nil '"' q')]
    rw [hq _ (List.getLast_mem _)]
  obtain ⟨l, hl⟩ := hlast
  conv_lhs => rw [List.cons_append, List.cons_append, trimSpace, trim_of_head isWhite_quote,
    ← rdropWhile_cons isWhite_quote, ← List.cons_append, ← List.cons_append]
  rw [hl, ← List.append_assoc, rdropWhile_eq_self isWhite_quote]

/-- A line within quotes begins with the quotes. -/
theorem open_line {q s u w : Str} {r : Char} (hq : ∀ a ∈ q, a = '"')
    (h : q ++ s ++ q = u ++ r :: w) (hr : isNewline r = true) :
    ∃ u' w', u = q ++ u' ∧ s = u' ++ r :: w' := by
  have hnot : r ∉ q := by
    intro hmem
    rw [hq r hmem] at hr
    cases hr
  have hfront : q <+: u := by
    have hu : u <+: q ++ s ++ q := ⟨_, h.symm⟩
    have hq' : q <+: q ++ s ++ q := ⟨s ++ q, by simp⟩
    rcases List.prefix_or_prefix_of_prefix hu hq' with ⟨y, rfl⟩ | hle
    · cases y with
      | nil => exact ⟨[], by simp⟩
      | cons a y =>
        rw [List.append_assoc, List.append_assoc, List.append_cancel_left_eq, List.cons_append,
          List.cons.injEq] at h
        exact absurd (by simp [h.1]) hnot
    · exact hle
  obtain ⟨u', rfl⟩ := hfront
  rw [List.append_assoc, List.append_assoc, List.append_cancel_left_eq] at h
  rcases List.append_eq_append_iff.mp h with ⟨a, hu, hw⟩ | ⟨a, hs, hw⟩
  · -- the line would end in the quotes behind
    exact absurd (by rw [hw]; simp) hnot
  · cases a with
    | nil =>
      rw [List.nil_append] at hw
      exact absurd (by rw [← hw]; simp) hnot
    | cons b a =>
      rw [List.cons_append, List.cons.injEq] at hw
      obtain ⟨rfl, -⟩ := hw
      exact ⟨u', a, rfl, hs⟩

theorem unclosed_single {s : Str} (h : '"' ∉ s) : Unclosed (['"'] ++ s ++ ['"']) := by
  intro u r w huw hr
  obtain ⟨u', w', rfl, rfl⟩ := open_line (by simp) huw hr
  have hrest : '"' ∉ u'.rdropWhile isWhite := by
    intro hmem
    exact h (List.mem_append_left _ ((List.rdropWhile_prefix ..).subset hmem))
  have htrim : trimSpace (['"'] ++ u') = '"' :: u'.rdropWhile isWhite :=
    trim_of_head isWhite_quote
  rw [htrim, unquote]
  generalize u'.rdropWhile isWhite = v at hrest
  have htriple : ¬tripleQuote <+: '"' :: v := by
    rintro ⟨t, ht⟩
    simp only [tripleQuote, List.cons_append, List.cons.injEq, true_and] at ht
    exact hrest (by rw [← ht]; simp)
  have hback : ¬(2 ≤ ('"' :: v).length ∧ ['"'] <:+ '"' :: v) := by
    rintro ⟨hlen, t, ht⟩
    cases t with
    | nil =>
      obtain ⟨-, rfl⟩ := List.cons.inj ht
      simp at hlen
    | cons a t =>
      obtain ⟨-, rfl⟩ := List.cons.inj ht
      exact hrest (by simp)
  rw [if_neg htriple, if_pos ⟨v, rfl⟩, if_neg hback]

theorem unclosed_triple {s : Str} (h : Sealed s) : Unclosed (tripleQuote ++ s ++ tripleQuote) := by
  intro u r w huw hr
  obtain ⟨u', w', rfl, rfl⟩ := open_line (by simp [tripleQuote]) huw hr
  have htrim : trimSpace (tripleQuote ++ u') = tripleQuote ++ u'.rdropWhile isWhite := by
    rw [← rdropWhile_append (by simp [tripleQuote])]
    exact (trim_of_head isWhite_quote).trans (rdropWhile_cons isWhite_quote).symm
  have hback : ¬(6 ≤ (tripleQuote ++ u'.rdropWhile isWhite).length ∧
      tripleQuote <:+ tripleQuote ++ u'.rdropWhile isWhite) := by
    rintro ⟨hlen, hsuffix⟩
    refine h u' r w' rfl hr (List.suffix_of_suffix_length_le hsuffix (List.suffix_append ..) ?_)
    simp only [tripleQuote, List.length_append, List.length_cons, List.length_nil] at hlen ⊢
    omega
  rw [htrim, unquote, if_pos (List.prefix_append ..), if_neg hback]

/-- The value of a text that ends with it is sealed. -/
theorem sealed_of_unquote {t s : Str} (hopen : Unclosed t) (hs : unquote (trimSpace t) = some s) :
    Sealed s := by
  obtain ⟨front, rest, rfl, hfront, htrim, hhead⟩ := trim_spec isWhite t
  rw [← trimSpace] at htrim
  obtain ⟨back, hback⟩ := List.rdropWhile_prefix isWhite (l := rest)
  rw [← htrim] at hback
  rintro u r w rfl hr hends
  -- the line, as it was read
  have hline {q : Str} (hq : trimSpace (front ++ rest) = q ++ (u ++ r :: w) ++ q)
      (hquote : ∀ a ∈ q, a = '"') (hne : q ≠ []) :
      unquote (q ++ u.rdropWhile isWhite) = none := by
    have hnone := hopen (front ++ (q ++ u)) r (w ++ q ++ back) (by rw [← hback, hq]; simp) hr
    rw [trimSpace, trim_front hfront] at hnone
    obtain ⟨a, q', rfl⟩ := List.exists_cons_of_ne_nil hne
    obtain rfl := hquote a (by simp)
    rw [List.cons_append, trim_of_head isWhite_quote, rdropWhile_append] at hnone
    · exact hnone
    · intro a ha
      rw [hquote a (by simp [ha])]
      rfl
  rcases unquote_eq_some hs with ⟨hquote, hsame⟩ | hsame | ⟨htriple, hsame⟩
  · -- without quotes there is one line only
    have hnone := hopen (front ++ u) r (w ++ back) (by rw [← hback, ← hsame]; simp) hr
    rw [trimSpace, trim_front hfront] at hnone
    cases u with
    | nil => cases hnone
    | cons c u =>
      have hc : isWhite c = false := hhead c (by rw [← hback, ← hsame]; rfl)
      rw [trim_of_head hc] at hnone
      obtain ⟨v, hv⟩ := unquote_eq_none hnone
      obtain ⟨rfl, -⟩ := List.cons.inj hv
      exact hquote ⟨u ++ r :: w, hsame⟩
  · have hnone := hline hsame (by simp [tripleQuote]) (by simp [tripleQuote])
    have hlen := hends.length_le
    rw [unquote, if_pos (List.prefix_append ..), if_pos] at hnone
    · cases hnone
    · refine ⟨?_, hends.trans (List.suffix_append ..)⟩
      simp only [tripleQuote, List.length_append, List.length_cons, List.length_nil] at hlen ⊢
      omega
  · have hnone := hline hsame (by simp) (by simp)
    have hlen := hends.length_le
    have htriple' : ¬tripleQuote <+: ['"'] ++ u.rdropWhile isWhite := by
      intro h
      apply htriple
      rw [hsame]
      refine h.trans ?_
      rw [List.append_assoc, List.prefix_append_right_inj]
      exact (List.rdropWhile_prefix ..).trans ⟨r :: w ++ ['"'], by simp⟩
    rw [unquote, if_neg htriple', if_pos (List.prefix_append ..), if_pos] at hnone
    · cases hnone
    · refine ⟨?_, .trans ⟨['"', '"'], rfl⟩ (hends.trans (List.suffix_append ..))⟩
      simp only [tripleQuote, List.length_append, List.length_cons, List.length_nil] at hlen ⊢
      omega

theorem Sealed.right {s t : Str} (h : Sealed (s ++ t)) : Sealed t := by
  intro u r w huw hr hends
  refine h (s ++ u) r w (by rw [huw]; simp) hr ?_
  -- what stands before the line does not matter to its end
  obtain ⟨back, hu, hback⟩ := rdropWhile_spec isWhite u
  obtain ⟨y, hy⟩ := hends
  have hlast : u.rdropWhile isWhite = (y ++ ['"', '"']) ++ ['"'] := by
    rw [← hy]
    simp [tripleQuote]
  conv_rhs => rw [hu, ← List.append_assoc, rdropWhile_back hback, hlast, ← List.append_assoc,
    rdropWhile_eq_self isWhite_quote]
  exact ⟨s ++ y, by simp [tripleQuote]⟩

end Ecco9.Parser
