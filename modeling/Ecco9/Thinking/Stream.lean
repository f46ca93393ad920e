import Ecco9.Thinking.Parser

/-! What the thinking parser has returned of a stream with thinking. -/

namespace Ecco9.Thinking

open Ecco9.Library

/-- What the parser knows of the `text` it was given, having returned `r`. -/
def Follows (s : Parser) (text : Text) (r : Returned) : Prop :=
  match s.state with
  | .lookingForOpening => s.acc = text ∧ r = {}
  | .thinkingStartedEatingWhitespace =>
    ∃ w, trimLeft text = s.openingTag ++ w ∧ trimLeft w = trimLeft s.acc ∧ r = {}
  | .thinking =>
    ∃ w, trimLeft text = s.openingTag ++ w ∧ trimLeft w ≠ [] ∧
      trimLeft w = r.thinking ++ s.acc ∧ Clear s.closingTag r.thinking s.acc ∧ r.remaining = []
  | .thinkingDoneEatingWhitespace =>
    ∃ w after, trimLeft text = s.openingTag ++ w ∧
      cut s.closingTag (trimLeft w) = some (r.thinking, after) ∧
      trimLeft after = trimLeft s.acc ∧ r.remaining = []
  | .thinkingDone =>
    ∃ w after, trimLeft text = s.openingTag ++ w ∧
      cut s.closingTag (trimLeft w) = some (r.thinking, after) ∧
      trimLeft after = r.remaining ++ s.acc ∧ r.remaining ≠ []

/-- Nothing that the parser holds can be decided. -/
def Settled (s : Parser) : Prop :=
  match s.state with
  | .lookingForOpening => ¬s.openingTag <+: trimLeft s.acc
  | .thinking => cut s.closingTag s.acc = none
  | _ => s.acc = []

/-- Tags of whole characters, that do not start with white space. -/
structure Parser.Tagged (s : Parser) : Prop where
  opening : s.openingTag ≠ []
  closing : s.closingTag ≠ []
  opening_valid : utf8Valid s.openingTag
  closing_valid : utf8Valid s.closingTag
  opening_solid : leadingSpace s.openingTag = none
  closing_solid : leadingSpace s.closingTag = none

/-! ### One more chunk -/

theorem valid_of_tagged {s : Parser} (tags : s.Tagged) {text w : Text} (valid : utf8Valid text)
    (h : trimLeft text = s.openingTag ++ w) : utf8Valid w := by
  have htrim := utf8Valid_trimLeft valid
  rwa [h, utf8Valid_append tags.opening_valid] at htrim

theorem valid_of_cut {tag s before after : Text} (htag : utf8Valid tag) (hne : tag ≠ [])
    (valid : utf8Valid s) (h : cut tag s = some (before, after)) :
    utf8Valid before ∧ utf8Valid after := by
  have htext : IsText (before ++ tag) := by
    apply IsText.left (t := after)
    rw [← cut_eq h, IsText, utf8Valid_iff.mp valid]
    rfl
  have hbefore := utf8Valid_left htext htag hne
  refine ⟨hbefore, ?_⟩
  rwa [cut_eq h, List.append_assoc, utf8Valid_append hbefore, utf8Valid_append htag] at valid

theorem Follows.receive {s : Parser} {text : Text} {r : Returned} (h : Follows s text r)
    (settled : Settled s) (tags : s.Tagged) (valid : utf8Valid text) (chunk : Text) :
    Follows { s with acc := s.acc ++ chunk } (text ++ chunk) r := by
  have hopened {w : Text} (hw : trimLeft text = s.openingTag ++ w) :
      trimLeft (text ++ chunk) = s.openingTag ++ (w ++ chunk) := by
    rw [trimLeft_append valid (by simp [hw, tags.opening]), hw, List.append_assoc]
  unfold Follows at h ⊢
  unfold Settled at settled
  cases hs : s.state with
  | lookingForOpening =>
    rw [hs] at h
    obtain ⟨hacc, hr⟩ := h
    exact ⟨by rw [hacc], hr⟩
  | thinkingStartedEatingWhitespace =>
    rw [hs] at h settled
    obtain ⟨w, hw, htrim, hr⟩ := h
    refine ⟨w ++ chunk, hopened hw, ?_, hr⟩
    rw [settled] at htrim ⊢
    rw [trimLeft_blank htrim, List.nil_append]
  | thinking =>
    rw [hs] at h
    obtain ⟨w, hw, hne, htrim, hclear, hr⟩ := h
    have happend := trimLeft_append (valid_of_tagged tags valid hw) hne chunk
    refine ⟨w ++ chunk, hopened hw, ?_, ?_, hclear.append chunk, hr⟩
    · simp [happend, hne]
    · rw [happend, htrim, List.append_assoc]
  | thinkingDoneEatingWhitespace =>
    rw [hs] at h settled
    obtain ⟨w, after, hw, hcut, htrim, hr⟩ := h
    have hne : trimLeft w ≠ [] := by
      simp [cut_eq hcut, tags.closing]
    refine ⟨w ++ chunk, after ++ chunk, hopened hw, ?_, ?_, hr⟩
    · rw [trimLeft_append (valid_of_tagged tags valid hw) hne]
      exact cut_append hcut chunk
    · rw [settled] at htrim ⊢
      rw [trimLeft_blank htrim, List.nil_append]
  | thinkingDone =>
    rw [hs] at h
    obtain ⟨w, after, hw, hcut, htrim, hr⟩ := h
    have hvalid := valid_of_tagged tags valid hw
    have hne : trimLeft w ≠ [] := by
      simp [cut_eq hcut, tags.closing]
    have hafter := (valid_of_cut tags.closing_valid tags.closing (utf8Valid_trimLeft hvalid) hcut).2
    refine ⟨w ++ chunk, after ++ chunk, hopened hw, ?_, ?_, hr⟩
    · rw [trimLeft_append hvalid hne]
      exact cut_append hcut chunk
    · rw [trimLeft_append hafter (by simp [htrim, hr]), htrim, List.append_assoc]

/-! ### One round -/

section
variable {s : Parser}

theorem eat_opens (hs : s.state = .lookingForOpening) (hne : s.openingTag ≠ []) {w : Text}
    (hw : trimLeft s.acc = s.openingTag ++ w) :
    s.eat = ({ s with
        acc := trimLeft w
        state := if trimLeft w = [] then .thinkingStartedEatingWhitespace else .thinking },
      {}, true) := by
  have hopen : s.openingTag <+: trimLeft s.acc := ⟨w, hw.symm⟩
  have hjoin := (split_of_cut hne (cut_front hopen)).2
  rw [hw, List.drop_left] at hjoin
  simp only [Parser.eat, hs]
  rw [if_pos hopen, hw, hjoin]
  split <;> rfl

theorem eat_closes (hs : s.state = .thinking) (hne : s.closingTag ≠ []) {before after : Text}
    (h : cut s.closingTag s.acc = some (before, after)) :
    s.eat = ({ s with
        acc := []
        state := if trimLeft after = [] then .thinkingDoneEatingWhitespace else .thinkingDone },
      ⟨before, trimLeft after⟩, false) := by
  obtain ⟨hhead, hjoin⟩ := split_of_cut hne h
  simp only [Parser.eat, hs]
  rw [h, hjoin, List.headD_eq_head?_getD, hhead]
  rfl

/-- The part of the closing tag at the end is held, if only none. -/
theorem eat_holds (hs : s.state = .thinking) (h : cut s.closingTag s.acc = none) :
    s.eat = ({ s with acc := s.acc.drop (s.acc.length - overlap s.acc s.closingTag) },
      { thinking := s.acc.take (s.acc.length - overlap s.acc s.closingTag) }, false) := by
  simp only [Parser.eat, hs]
  rw [h, if_neg (by simp)]
  split
  · rfl
  · rename_i hzero
    rw [Nat.eq_zero_of_not_pos hzero, Nat.sub_zero, List.drop_length, List.take_length]

end

/-- Whatever follows, what the text starts with may still be the opening tag. -/
def MayOpen (openingTag text : Text) : Prop :=
  openingTag <+: trimLeft text ∨ trimLeft text <+: openingTag

theorem Follows.eat_looking {s : Parser} (hs : s.state = .lookingForOpening) {text : Text}
    {r : Returned} (h : Follows s text r) (tags : s.Tagged) (opens : MayOpen s.openingTag text) :
    Follows s.eat.1 text (r.append s.eat.2.1) ∧ (s.eat.2.2 = false → Settled s.eat.1) := by
  rw [Follows, hs] at h
  obtain ⟨rfl, rfl⟩ := h
  by_cases hopen : s.openingTag <+: trimLeft s.acc
  · obtain ⟨w, hw⟩ := hopen
    rw [eat_opens hs tags.opening hw.symm]
    refine ⟨?_, fun h => by cases h⟩
    unfold Follows
    dsimp only
    split_ifs with hblank
    · exact ⟨w, hw.symm, by rw [hblank]; rfl, rfl⟩
    · exact ⟨w, hw.symm, hblank, rfl, trivial, rfl⟩
  · have heat : s.eat = (s, {}, false) := by
      simp only [Parser.eat, hs, if_neg hopen, if_pos (opens.resolve_left hopen)]
    rw [heat, Follows, Settled, hs]
    exact ⟨⟨rfl, rfl⟩, fun _ => hopen⟩

theorem Follows.eat_thinking {s : Parser} (hs : s.state = .thinking) {text : Text}
    {r : Returned} (h : Follows s text r) (tags : s.Tagged) :
    Follows s.eat.1 text (r.append s.eat.2.1) ∧ (s.eat.2.2 = false → Settled s.eat.1) := by
  rw [Follows, hs] at h
  obtain ⟨w, hw, hsolid, htrim, hclear, hr⟩ := h
  have hcut := hclear.cut_append
  rw [← htrim] at hcut
  cases hacc : cut s.closingTag s.acc with
  | some ba =>
    obtain ⟨before, after⟩ := ba
    rw [hacc, Option.map_some] at hcut
    rw [eat_closes hs tags.closing hacc]
    unfold Follows Settled Returned.append
    dsimp only
    split_ifs with hblank
    · exact ⟨⟨w, after, hw, hcut, hblank, by rw [hr, hblank]; rfl⟩, fun _ => rfl⟩
    · exact ⟨⟨w, after, hw, hcut, by rw [hr, List.append_nil]; rfl, by rw [hr]; exact hblank⟩,
        fun _ => rfl⟩
  | none =>
    have hheld := clear_overlap hacc
    have hsplit := List.take_append_drop (s.acc.length - overlap s.acc s.closingTag) s.acc
    have hnone := hheld.cut_append
    rw [hsplit, hacc, eq_comm, Option.map_eq_none_iff] at hnone
    rw [eat_holds hs hacc, Follows, Settled]
    dsimp only
    rw [hs]
    refine ⟨⟨w, hw, hsolid, ?_, ?_, ?_⟩, fun _ => hnone⟩
    · rw [htrim, Returned.append, List.append_assoc, hsplit]
    · refine Clear.trans ?_ hheld
      rwa [hsplit]
    · rw [Returned.append, hr]
      rfl

theorem Follows.eat {s : Parser} {text : Text} {r : Returned} (h : Follows s text r)
    (tags : s.Tagged) (opens : MayOpen s.openingTag text) :
    Follows s.eat.1 text (r.append s.eat.2.1) ∧ (s.eat.2.2 = false → Settled s.eat.1) := by
  cases hs : s.state with
  | lookingForOpening => exact h.eat_looking hs tags opens
  | thinking => exact h.eat_thinking hs tags
  | thinkingStartedEatingWhitespace =>
    rw [Follows, hs] at h
    obtain ⟨w, hw, htrim, rfl⟩ := h
    unfold Parser.eat
    rw [hs]
    dsimp only
    split
    · rename_i hblank
      exact ⟨⟨w, hw, htrim.trans hblank, rfl⟩, fun _ => rfl⟩
    · rename_i hsolid
      rw [← htrim] at hsolid ⊢
      exact ⟨⟨w, hw, hsolid, rfl, trivial, rfl⟩, fun h => by cases h⟩
  | thinkingDoneEatingWhitespace =>
    rw [Follows, hs] at h
    obtain ⟨w, after, hw, hcut, htrim, hr⟩ := h
    unfold Parser.eat Follows Settled Returned.append
    rw [hs]
    dsimp only
    rw [hr, List.append_nil]
    split_ifs with hblank
    · exact ⟨⟨w, after, hw, hcut, htrim.trans hblank, hblank⟩, fun _ => rfl⟩
    · exact ⟨⟨w, after, hw, hcut, htrim.trans (List.append_nil _).symm, hblank⟩, fun _ => rfl⟩
  | thinkingDone =>
    rw [Follows, hs] at h
    obtain ⟨w, after, hw, hcut, htrim, hr⟩ := h
    unfold Parser.eat Follows Settled Returned.append
    rw [hs]
    dsimp only
    rw [List.append_nil, List.append_nil]
    exact ⟨⟨w, after, hw, hcut, htrim, by simp [hr]⟩, fun _ => rfl⟩

/-! ### Whole calls and streams -/

theorem eat_openingTag (s : Parser) : s.eat.1.openingTag = s.openingTag := by
  unfold Parser.eat
  cases s.state <;> dsimp only <;> split_ifs <;> rfl

theorem eat_closingTag (s : Parser) : s.eat.1.closingTag = s.closingTag := by
  unfold Parser.eat
  cases s.state <;> dsimp only <;> split_ifs <;> rfl

theorem Parser.Tagged.congr {s s' : Parser} (tags : s.Tagged)
    (opening : s'.openingTag = s.openingTag) (closing : s'.closingTag = s.closingTag) :
    s'.Tagged where
  opening := by rw [opening]; exact tags.opening
  closing := by rw [closing]; exact tags.closing
  opening_valid := by rw [opening]; exact tags.opening_valid
  closing_valid := by rw [closing]; exact tags.closing_valid
  opening_solid := by rw [opening]; exact tags.opening_solid
  closing_solid := by rw [closing]; exact tags.closing_solid

theorem Returned.append_assoc (a b c : Returned) :
    (a.append b).append c = a.append (b.append c) := by
  simp [Returned.append]

@[simp] theorem Returned.append_empty (a : Returned) : a.append {} = a := by
  simp [Returned.append]

@[simp] theorem Returned.empty_append (a : Returned) : Returned.append {} a = a := by
  simp [Returned.append]

/-- The parser `s'` that has returned `r` of the `text` received by one with the tags of `s`. -/
structure Kept (s s' : Parser) (text : Text) (r : Returned) : Prop where
  follows : Follows s' text r
  settled : Settled s'
  opening : s'.openingTag = s.openingTag
  closing : s'.closingTag = s.closingTag

theorem Follows.eatAll {s : Parser} {text : Text} {r : Returned} (h : Follows s text r)
    (tags : s.Tagged) (opens : MayOpen s.openingTag text) {n : Nat} (hn : 5 ≤ n + s.state.rank) :
    Kept s (s.eatAll n).1 text (r.append (s.eatAll n).2) := by
  induction n generalizing s r with
  | zero =>
    have := rank_le s.state
    omega
  | succ n ih =>
    have hstep := h.eat tags opens
    have hrank := eat_rank (s := s)
    have hopening := eat_openingTag s
    have hclosing := eat_closingTag s
    rw [Parser.eatAll]
    generalize s.eat = e at hstep hrank hopening hclosing
    obtain ⟨s', r', more⟩ := e
    cases more with
    | false => exact ⟨hstep.1, hstep.2 rfl, hopening, hclosing⟩
    | true =>
      have hrank : s.state.rank < s'.state.rank := hrank rfl
      have hopening : s'.openingTag = s.openingTag := hopening
      have hclosing : s'.closingTag = s.closingTag := hclosing
      have hrest := ih hstep.1 (tags.congr hopening hclosing) (by rwa [hopening])
        (by dsimp only; omega)
      rw [Returned.append_assoc] at hrest
      exact ⟨hrest.follows, hrest.settled, hrest.opening.trans hopening,
        hrest.closing.trans hclosing⟩

theorem Kept.addContent {s s' : Parser} {text : Text} {r : Returned} (h : Kept s s' text r)
    (tags : s.Tagged) (valid : utf8Valid text) {chunk : Text}
    (opens : MayOpen s.openingTag (text ++ chunk)) :
    Kept s (s'.addContent chunk).1 (text ++ chunk) (r.append (s'.addContent chunk).2) := by
  have tags' := tags.congr h.opening h.closing
  have hreceive := h.follows.receive h.settled tags' valid chunk
  have hkept := hreceive.eatAll (tags'.congr rfl rfl) (by rwa [h.opening]) (n := 5)
    (Nat.le_add_right ..)
  exact ⟨hkept.follows, hkept.settled, hkept.opening.trans h.opening,
    hkept.closing.trans h.closing⟩

theorem Kept.addContents {s s' : Parser} {text : Text} {r : Returned} (h : Kept s s' text r)
    (tags : s.Tagged) (valid : utf8Valid text) {chunks : List Text}
    (hchunks : ∀ c ∈ chunks, utf8Valid c)
    (opens : ∀ t, utf8Valid t → t <+: text ++ chunks.flatten → MayOpen s.openingTag t) :
    Kept s (s'.addContents chunks).1 (text ++ chunks.flatten)
      (r.append (s'.addContents chunks).2) := by
  induction chunks generalizing s' text r with
  | nil =>
    simp only [Parser.addContents, List.flatten_nil, List.append_nil, Returned.append_empty]
    exact h
  | cons chunk chunks ih =>
    rw [List.flatten_cons, ← List.append_assoc] at opens ⊢
    have hvalid : utf8Valid (text ++ chunk) := by
      rw [utf8Valid_append valid]
      exact hchunks chunk (by simp)
    have hone := h.addContent tags valid (opens _ hvalid (List.prefix_append ..))
    have hrest := ih hone hvalid (fun c hc => hchunks c (by simp [hc])) opens
    rwa [Returned.append_assoc] at hrest

theorem addContents_append (s : Parser) (xs ys : List Text) :
    s.addContents (xs ++ ys) =
      (((s.addContents xs).1.addContents ys).1,
        (s.addContents xs).2.append ((s.addContents xs).1.addContents ys).2) := by
  induction xs generalizing s with
  | nil => simp [Parser.addContents]
  | cons x xs ih =>
    simp only [List.cons_append, Parser.addContents, ih, Returned.append_assoc]

/-! ### Streams with thinking -/

/-- A stream `ws ++ openingTag ++ t ++ closingTag ++ c`, the closing tag being the first. -/
structure Thought (openingTag closingTag ws t c : Text) : Prop where
  blank : trimLeft ws = []
  first : cut closingTag (t ++ closingTag ++ c) = some (t, c)
  valid : utf8Valid (ws ++ openingTag ++ (t ++ closingTag ++ c))

section
variable {s : Parser} (tags : s.Tagged) {ws t c : Text}
  (thought : Thought s.openingTag s.closingTag ws t c)
include tags thought

theorem Thought.trim :
    trimLeft (ws ++ s.openingTag ++ (t ++ s.closingTag ++ c)) =
      s.openingTag ++ (t ++ s.closingTag ++ c) := by
  rw [List.append_assoc, trimLeft_blank thought.blank]
  exact trimLeft_none (leadingSpace_extend tags.opening_valid tags.opening tags.opening_solid _)

theorem Thought.opens {text : Text} (valid : utf8Valid text)
    (h : text <+: ws ++ s.openingTag ++ (t ++ s.closingTag ++ c)) : MayOpen s.openingTag text := by
  obtain ⟨rest, hrest⟩ := h
  by_cases hblank : trimLeft text = []
  · exact .inr (hblank ▸ List.nil_prefix)
  · have htrim := thought.trim tags
    rw [← hrest, trimLeft_append valid hblank] at htrim
    rcases Nat.le_total s.openingTag.length (trimLeft text).length with hle | hle
    · exact .inl (List.prefix_of_prefix_length_le ⟨_, htrim.symm⟩ (List.prefix_append ..) hle)
    · exact .inr (List.prefix_of_prefix_length_le (List.prefix_append ..) ⟨_, htrim.symm⟩ hle)

theorem Thought.cut_trim :
    cut s.closingTag (trimLeft (t ++ s.closingTag ++ c)) = some (trimLeft t, c) := by
  have hvalid := utf8Valid_trimLeft thought.valid
  rw [thought.trim tags, utf8Valid_append tags.opening_valid] at hvalid
  have ht := (valid_of_cut tags.closing_valid tags.closing hvalid thought.first).1
  have htrim : trimLeft (t ++ s.closingTag ++ c) = trimLeft t ++ s.closingTag ++ c := by
    rw [List.append_assoc, List.append_assoc]
    by_cases hblank : trimLeft t = []
    · rw [trimLeft_blank hblank, hblank, List.nil_append]
      exact trimLeft_none
        (leadingSpace_extend tags.closing_valid tags.closing tags.closing_solid _)
    · exact trimLeft_append ht hblank _
  obtain ⟨x, hx⟩ := trimLeft_suffix t
  have hfirst : cut s.closingTag (x ++ (trimLeft t ++ s.closingTag ++ c)) =
      some (x ++ trimLeft t, c) := by
    simpa only [← List.append_assoc, hx] using thought.first
  rw [htrim]
  exact cut_drop hfirst

/-- At the end of the stream the parser has returned the thinking and the content. -/
theorem Thought.returned {s' : Parser} {r : Returned}
    (h : Kept s s' (ws ++ s.openingTag ++ (t ++ s.closingTag ++ c)) r) :
    r = ⟨trimLeft t, trimLeft c⟩ := by
  have hcut := thought.cut_trim tags
  have htrim := thought.trim tags
  obtain ⟨hfollows, hsettled, hopening, hclosing⟩ := h
  unfold Follows at hfollows
  unfold Settled at hsettled
  rw [hopening, hclosing, htrim] at hfollows
  rw [hopening, hclosing] at hsettled
  cases hs : s'.state with
  | lookingForOpening =>
    rw [hs] at hfollows hsettled
    rw [hfollows.1, htrim] at hsettled
    exact absurd (List.prefix_append ..) hsettled
  | thinkingStartedEatingWhitespace =>
    rw [hs] at hfollows hsettled
    obtain ⟨w, hw, hblank, -⟩ := hfollows
    rw [← List.append_cancel_left hw, hsettled, trimLeft_nil] at hblank
    rw [hblank, cut, if_neg tags.closing] at hcut
    cases hcut
  | thinking =>
    rw [hs] at hfollows hsettled
    obtain ⟨w, hw, -, heq, hclear, -⟩ := hfollows
    rw [← List.append_cancel_left hw] at heq
    rw [heq, hclear.cut_append, hsettled] at hcut
    cases hcut
  | thinkingDoneEatingWhitespace =>
    rw [hs] at hfollows hsettled
    obtain ⟨w, after, hw, hthinking, hblank, hr⟩ := hfollows
    rw [← List.append_cancel_left hw, hcut] at hthinking
    obtain ⟨hthought, rfl⟩ := Prod.mk.inj (Option.some.inj hthinking)
    rw [hsettled, trimLeft_nil] at hblank
    rw [hthought, hblank, ← hr]
  | thinkingDone =>
    rw [hs] at hfollows hsettled
    obtain ⟨w, after, hw, hthinking, hremaining, -⟩ := hfollows
    rw [← List.append_cancel_left hw, hcut] at hthinking
    obtain ⟨hthought, rfl⟩ := Prod.mk.inj (Option.some.inj hthinking)
    rw [hthought, hremaining, hsettled, List.append_nil]

end

theorem addContents_thought {s : Parser} (tags : s.Tagged) (hs : s.state = .lookingForOpening)
    (hacc : s.acc = []) {ws t c : Text} (thought : Thought s.openingTag s.closingTag ws t c)
    {chunks : List Text} (hchunks : ∀ x ∈ chunks, utf8Valid x)
    (h : chunks.flatten = ws ++ s.openingTag ++ (t ++ s.closingTag ++ c)) :
    (s.addContents chunks).2 = ⟨trimLeft t, trimLeft c⟩ := by
  have hstart : Kept s s [] {} := by
    refine ⟨?_, ?_, rfl, rfl⟩
    · rw [Follows, hs]
      exact ⟨hacc, rfl⟩
    · rw [Settled, hs]
      dsimp only
      rw [hacc, trimLeft_nil, List.prefix_nil]
      exact tags.opening
  have hkept := hstart.addContents tags rfl hchunks
    (fun t valid ht => thought.opens tags valid (by rwa [List.nil_append, h] at ht))
  rw [List.nil_append, h, Returned.empty_append] at hkept
  exact thought.returned tags hkept

/-- Of every prefix of a stream with thinking the parser returns a prefix of the thinking and of the
content, of the whole stream all of them; white space in front of either is left out. -/
theorem addContents_with_thinking {openingTag closingTag ws t c : Text}
    (opening : openingTag ≠ []) (closing : closingTag ≠ [])
    (opening_valid : utf8Valid openingTag) (closing_valid : utf8Valid closingTag)
    (opening_solid : leadingSpace openingTag = none)
    (closing_solid : leadingSpace closingTag = none)
    (thought : Thought openingTag closingTag ws t c) {chunks : List Text}
    (hchunks : ∀ x ∈ chunks, utf8Valid x)
    (h : chunks.flatten <+: ws ++ openingTag ++ (t ++ closingTag ++ c)) :
    let r := (({ openingTag, closingTag } : Parser).addContents chunks).2
    r.thinking <+: trimLeft t ∧ r.remaining <+: trimLeft c ∧
      (chunks.flatten = ws ++ openingTag ++ (t ++ closingTag ++ c) →
        r = ⟨trimLeft t, trimLeft c⟩) := by
  intro r
  have tags : ({ openingTag, closingTag } : Parser).Tagged :=
    ⟨opening, closing, opening_valid, closing_valid, opening_solid, closing_solid⟩
  obtain ⟨rest, hrest⟩ := h
  have hflat : utf8Valid chunks.flatten := by
    clear hrest r
    induction chunks with
    | nil => rfl
    | cons x xs ih =>
      rw [List.flatten_cons, utf8Valid_append (hchunks x (by simp))]
      exact ih fun y hy => hchunks y (by simp [hy])
  have hvalid : utf8Valid rest := by
    have := thought.valid
    rwa [← hrest, utf8Valid_append hflat] at this
  -- the stream goes on with the rest of the text
  have hwhole : (({ openingTag, closingTag } : Parser).addContents (chunks ++ [rest])).2 =
      ⟨trimLeft t, trimLeft c⟩ := addContents_thought tags rfl rfl thought
    (by
      intro x hx
      rcases List.mem_append.mp hx with hx | hx
      · exact hchunks x hx
      · rwa [List.mem_singleton.mp hx])
    (by simpa using hrest)
  rw [addContents_append] at hwhole
  exact ⟨⟨_, congrArg Returned.thinking hwhole⟩, ⟨_, congrArg Returned.remaining hwhole⟩,
    addContents_thought tags rfl rfl thought hchunks⟩

/-- Chunks that cut both tags. -/
theorem because_answer :
    let chunks := [ascii " <th", ascii "ink> be", ascii "cause</", ascii "think> yes"]
    let r := (({ openingTag := ascii "<think>", closingTag := ascii "</think>" } : Parser).addContents
      chunks).2
    r.thinking <+: trimLeft (ascii " because") ∧ r.remaining <+: trimLeft (ascii " yes") ∧
      (chunks.flatten = ascii " " ++ ascii "<think>" ++
          (ascii " because" ++ ascii "</think>" ++ ascii " yes") →
        r = ⟨trimLeft (ascii " because"), trimLeft (ascii " yes")⟩) :=
  addContents_with_thinking (by decide) (by decide) (by decide) (by decide) (by decide) (by decide)
    ⟨by decide, by decide, by decide⟩ (by decide) (by decide)

/-- An opening tag that is half a character is taken for the beginning of white space. -/
theorem half_tag_skipped :
    leadingSpace [0xC2] = none ∧ leadingSpace (ascii ">") = none ∧
      trimLeft ([] : Text) = [] ∧
      cut (ascii ">") ([0xA0, 0x78] ++ ascii ">" ++ ascii "yes") =
        some ([0xA0, 0x78], ascii "yes") ∧
      utf8Valid [0xC2, 0xA0, 0x78, 0x3E, 0x79, 0x65, 0x73] ∧
      [[0xC2, 0xA0, 0x78, 0x3E, 0x79, 0x65, 0x73]].flatten =
        [] ++ [0xC2] ++ ([0xA0, 0x78] ++ ascii ">" ++ ascii "yes") ∧
      (({ openingTag := [0xC2], closingTag := ascii ">" } : Parser).addContents
        [[0xC2, 0xA0, 0x78, 0x3E, 0x79, 0x65, 0x73]]).2 ≠
          ⟨trimLeft [0xA0, 0x78], trimLeft (ascii "yes")⟩ := by
  decide

end Ecco9.Thinking
