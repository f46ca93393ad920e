import Ecco9.Tools.Calls

/-! What the parser makes of a stream, and when that does not depend on how the stream is cut. -/

namespace Ecco9.Tools

open Ecco9.Library

namespace Parser

section
variable {unmarshal : Text → Option Object} {p q : Parser}

/-- The tags that may be something else than tags. -/
def Bracketed (p : Parser) : Prop := p.tag = braceTag ∨ p.tag = bracketTag

instance (p : Parser) : Decidable p.Bracketed := inferInstanceAs (Decidable (_ ∨ _))

/-- What a parser that has found its tag may come to, as it is given text and takes calls off it. -/
inductive Reads (unmarshal : Text → Option Object) (p : Parser) : Text → Parser → Prop
  | start : Reads unmarshal p [] p
  | text {s q} (e : Text) : Reads unmarshal p s q → Reads unmarshal p (s ++ e) (q.extend e)
  | call {s q q' c} : Reads unmarshal p s q → q.parseToolCall unmarshal = some (c, q') →
      Reads unmarshal p s q'

/-- The brackets of what is left in the buffer never balance. -/
def NeverDone (unmarshal : Text → Option Object) (p : Parser) (text : Text) : Prop :=
  ∀ s q, s <+: text → Reads unmarshal p s q → q.done = false

theorem Reads.trans {s t : Text} {q' : Parser} (h : Reads unmarshal p s q)
    (h' : Reads unmarshal q t q') : Reads unmarshal p (s ++ t) q' := by
  induction h' with
  | start => rwa [List.append_nil]
  | text e _ ih =>
    rw [← List.append_assoc]
    exact ih.text e
  | call _ hcall ih => exact ih.call hcall

theorem Drains.reads {cs : List ToolCall} (h : Drains unmarshal p cs q) :
    Reads unmarshal p [] q := by
  induction h with
  | stop => exact .start
  | call hcall _ ih => exact (Reads.start.call hcall).trans ih

theorem Reads.extend (e : Text) : Reads unmarshal p e (p.extend e) := Reads.start.text e

theorem done_plain (h : ¬p.Bracketed) : p.done = false := by
  rw [Bracketed, not_or] at h
  rw [done, if_neg h.1, if_neg h.2]

theorem content_plain (h : ¬p.Bracketed) : p.content = [] := by
  rw [content]
  split_ifs
  · rfl
  · rename_i hb
    exact absurd hb h
  · rfl

theorem content_empty (h : p.buffer = []) : p.content = [] := by
  rw [content, h]
  split_ifs <;> rfl

theorem content_bracketed (h : p.Bracketed) (hn : p.n = 0) : p.content = p.buffer := by
  rw [content, if_neg (by omega)]
  exact if_pos h

theorem exists_drains (unmarshal : Text → Option Object) (p : Parser) : ∃ cs q, Drains unmarshal p cs q :=
  ⟨_, _, drains_parseToolCalls (Nat.le_refl _)⟩

theorem call_eq {cs : List ToolCall} (h : Drains unmarshal p cs q) (content : Text) :
    p.call unmarshal content =
      if q.done then (cs, q.buffer, { q with state := .done, buffer := [] })
      else (cs, content, q) := by
  obtain ⟨rfl, rfl⟩ := h.unique (drains_parseToolCalls (Nat.le_refl _))
  rfl

theorem drains_nameless (h : ∀ t ∈ p.tools, cut t.name p.buffer = none) :
    Drains unmarshal p [] p :=
  .stop (by rw [parseToolCall, findTool_none h])

theorem drains_empty (h : p.buffer = []) : Drains unmarshal p [] p :=
  .stop (by rw [parseToolCall, findTool, if_pos (.inl h)])

/-- The calls of a chunk, and of what comes after it, are those of the whole. -/
theorem Drains.chunk {s rest : Text} {cs cs₁ : List ToolCall} {q₁ : Parser}
    (h : Drains unmarshal (p.extend (s ++ rest)) cs q) (h₁ : Drains unmarshal (p.extend s) cs₁ q₁)
    (hwhole : Whole p.tools (p.buffer ++ (s ++ rest))) :
    Whole q₁.tools (q₁.buffer ++ rest) ∧
      ∃ cs₂, cs = cs₁ ++ cs₂ ∧ Drains unmarshal (q₁.extend rest) cs₂ q := by
  obtain ⟨⟨l, hl⟩, htools, -, -⟩ := h₁.kept
  obtain ⟨cs₂, q₂, h₂⟩ := exists_drains unmarshal (q₁.extend rest)
  rw [← List.append_assoc] at hwhole
  have hextend : (p.extend s).extend rest = p.extend (s ++ rest) := by
    rw [Parser.extend, Parser.extend, Parser.extend, List.append_assoc]
  have hall := h₁.extend hwhole h₂
  rw [hextend] at hall
  obtain ⟨rfl, rfl⟩ := h.unique hall
  refine ⟨?_, cs₂, rfl, h₂⟩
  rw [htools]
  refine hwhole.suffix ⟨l, ?_⟩
  rw [← List.append_assoc, hl]
  rfl

/-- The parser when it has its tag, and nothing else yet. -/
def calling (p : Parser) : Parser := { p with state := .toolCalling, buffer := [] }

theorem add_calling (h : p.state = .toolCalling) (s : Text) :
    p.add unmarshal s = (p.extend s).call unmarshal [] := by
  obtain ⟨tag, tools, state, buffer, n⟩ := p
  subst h
  rfl

theorem stream_done (h : p.state = .done) (chunks : List Text) :
    p.stream unmarshal chunks = ([], chunks.flatten ++ p.content) := by
  induction chunks with
  | nil => rfl
  | cons s chunks ih =>
    rw [stream, add, h]
    dsimp only
    rw [ih, List.flatten_cons, List.append_assoc]
    rfl

/-! ### Behind the tag -/

theorem stream_calling {chunks : List Text} (hstate : p.state = .toolCalling)
    (hdrained : p.parseToolCall unmarshal = none)
    (hwhole : Whole p.tools (p.buffer ++ chunks.flatten))
    (hdone : NeverDone unmarshal p chunks.flatten) {cs : List ToolCall}
    (h : Drains unmarshal (p.extend chunks.flatten) cs q) :
    p.stream unmarshal chunks = (cs, q.content) := by
  induction chunks generalizing p cs q with
  | nil =>
    have hsame : p.extend [] = p := by
      rw [extend, List.append_nil]
    rw [List.flatten_nil, hsame] at h
    obtain ⟨rfl, rfl⟩ := h.unique (.stop hdrained)
    rfl
  | cons s chunks ih =>
    rw [List.flatten_cons] at h hwhole
    obtain ⟨cs₁, q₁, h₁⟩ := exists_drains unmarshal (p.extend s)
    obtain ⟨hwhole₁, cs₂, rfl, h₂⟩ := h.chunk h₁ hwhole
    have hreads : Reads unmarshal p s q₁ := by
      have := (Reads.extend s).trans h₁.reads
      rwa [List.append_nil] at this
    have hfalse : q₁.done = false := hdone s q₁ ⟨chunks.flatten, rfl⟩ hreads
    have hadd : p.add unmarshal s = (cs₁, [], q₁) := by
      rw [add_calling hstate, call_eq h₁, if_neg (by simp [hfalse])]
    have hrest := ih (h₁.kept.2.2.2.trans hstate) h₁.drained hwhole₁
      (fun t r ht hr => hdone (s ++ t) r (by
        rw [List.flatten_cons]
        exact (List.prefix_append_right_inj s).mpr ht) (hreads.trans hr)) h₂
    rw [stream, hadd]
    dsimp only
    rw [hrest]
    rfl

/-! ### The tag -/

theorem add_found {s before after : Text} (hstate : p.state = .lookingForTag)
    (hcut : cut p.tag (p.buffer ++ s) = some (before, after))
    (hblank : p.Bracketed → trimSpace before = []) :
    p.add unmarshal s =
      ({ p with state := .toolCalling, buffer := p.tag ++ after } : Parser).call unmarshal
        before := by
  have htake : (p.buffer ++ s).take before.length = before := by
    rw [cut_eq hcut, List.append_assoc, List.take_left]
  have hdrop : (p.buffer ++ s).drop before.length = p.tag ++ after := by
    rw [cut_eq hcut, List.append_assoc, List.drop_left]
  have hno : ¬((p.tag = braceTag ∨ p.tag = bracketTag) ∧ trimSpace before ≠ []) :=
    fun h => h.2 (hblank h.1)
  rw [add, hstate]
  simp only [findTag, hcut, htake, hdrop, hno, if_false, if_true]

/-- A bracket with text before it. -/
theorem add_behind {s before after : Text} (hstate : p.state = .lookingForTag)
    (hcut : cut p.tag (p.buffer ++ s) = some (before, after))
    (hblank : p.Bracketed ∧ trimSpace before ≠ []) :
    p.add unmarshal s = ([], before ++ (p.tag ++ after),
      { p with state := .done, buffer := p.tag ++ after }) := by
  have htake : (p.buffer ++ s).take before.length = before := by
    rw [cut_eq hcut, List.append_assoc, List.take_left]
  have hdrop : (p.buffer ++ s).drop before.length = p.tag ++ after := by
    rw [cut_eq hcut, List.append_assoc, List.drop_left]
  have hyes : (p.tag = braceTag ∨ p.tag = bracketTag) ∧ trimSpace before ≠ [] := hblank
  rw [add, hstate]
  simp only [findTag, hcut, htake, hdrop, hyes, ne_eq, not_false_eq_true, and_self, if_true]

theorem add_missing {s : Text} (hstate : p.state = .lookingForTag)
    (hcut : cut p.tag (p.buffer ++ s) = none) {e a : Text}
    (he : (p.buffer ++ s).take ((p.buffer ++ s).length - overlap (p.buffer ++ s) p.tag) = e)
    (ha : (p.buffer ++ s).drop ((p.buffer ++ s).length - overlap (p.buffer ++ s) p.tag) = a) :
    p.add unmarshal s =
      if p.Bracketed ∧ trimSpace e ≠ [] then
        ([], e ++ a, { p with state := .done, buffer := a })
      else ([], e, { p with buffer := a }) := by
  rw [add, hstate]
  simp only [findTag, hcut]
  by_cases hpos : 0 < overlap (p.buffer ++ s) p.tag
  · simp only [hpos, if_true, he, ha, Bool.false_eq_true, if_false]
    rfl
  · have hzero : overlap (p.buffer ++ s) p.tag = 0 := by omega
    rw [hzero, Nat.sub_zero, List.take_length] at he
    rw [hzero, Nat.sub_zero, List.drop_length] at ha
    subst he ha
    simp only [hpos, if_false, Bool.false_eq_true]
    rfl

/-- What is kept of a buffer without the tag. -/
theorem clear_kept {s tag : Text} (hcut : cut tag s = none) {e a : Text}
    (he : s.take (s.length - overlap s tag) = e) (ha : s.drop (s.length - overlap s tag) = a) :
    s = e ++ a ∧ Clear tag e a ∧ cut tag a = none ∧ overlap a tag = a.length := by
  have hclear := clear_overlap hcut
  have hsplit : s = e ++ a := by rw [← he, ← ha, List.take_append_drop]
  have hle := overlap_le s tag
  rw [he, ha] at hclear
  refine ⟨hsplit, hclear, ?_, ?_⟩
  · rw [hsplit, hclear.cut_append, Option.map_eq_none_iff] at hcut
    exact hcut
  · rw [← hclear.overlap_append, ← hsplit, ← ha, List.length_drop]
    omega

/-- The tag is found behind what is not kept. -/
theorem cut_kept {s rest tag before after : Text} (hcut₁ : cut tag s = none) {e a : Text}
    (he : s.take (s.length - overlap s tag) = e) (ha : s.drop (s.length - overlap s tag) = a)
    (hcut : cut tag (s ++ rest) = some (before, after)) :
    ∃ before', before = e ++ before' ∧ cut tag (a ++ rest) = some (before', after) := by
  obtain ⟨hsplit, hclear, -, -⟩ := clear_kept hcut₁ he ha
  rw [hsplit, List.append_assoc, (hclear.append rest).cut_append, Option.map_eq_some_iff] at hcut
  obtain ⟨⟨before', after'⟩, hcut', hparts⟩ := hcut
  obtain ⟨rfl, rfl⟩ := Prod.mk.injEq .. ▸ hparts
  exact ⟨before', rfl, hcut'⟩

/-- A tag in nothing but what is kept. -/
theorem cut_nothing {buffer tag before after : Text} (hkept : cut tag buffer = none ∨ buffer = [])
    (hcut : cut tag buffer = some (before, after)) : before = [] ∧ tag ++ after = [] := by
  rcases hkept with hnone | rfl
  · rw [hnone] at hcut
    cases hcut
  · have hnil := cut_eq hcut
    rw [List.append_assoc, List.nil_eq, List.append_eq_nil_iff] at hnil
    exact hnil

/-! ### Streams -/

theorem single_overlap {s tag : Text} (htag : tag.length = 1) (hcut : cut tag s = none) :
    overlap s tag = 0 := by
  have hle := overlap_le s tag
  have hsuffix := overlap_suffix s tag
  by_contra hne
  have hone : overlap s tag = tag.length := by omega
  rw [hone, List.take_length] at hsuffix
  obtain ⟨l, rfl⟩ := hsuffix
  refine cut_eq_none hcut l.length ?_
  rw [List.drop_left]

theorem Bracketed.length (h : p.Bracketed) : p.tag.length = 1 := by
  rcases h with h | h <;> rw [h] <;> rfl

/-- A chunk without the tag. -/
theorem stream_missing {s : Text} {chunks : List Text} (hstate : p.state = .lookingForTag) (hb : p.Bracketed)
    (hbuffer : p.buffer = []) (hcut : cut p.tag s = none) :
    p.stream unmarshal (s :: chunks) =
      if trimSpace s ≠ [] then ([], s ++ chunks.flatten)
      else ((p.stream unmarshal chunks).1, s ++ (p.stream unmarshal chunks).2) := by
  have hall : p.buffer ++ s = s := by rw [hbuffer, List.nil_append]
  have hzero := single_overlap hb.length hcut
  have hadd := @add_missing unmarshal p s hstate (hall.symm ▸ hcut) s []
    (by rw [hall, hzero, Nat.sub_zero, List.take_length])
    (by rw [hall, hzero, Nat.sub_zero, List.drop_length])
  rw [stream, hadd]
  by_cases hblank : trimSpace s = []
  · have hsame : { p with buffer := [] } = p := by rw [← hbuffer]
    rw [if_neg fun h => h.2 hblank, if_neg fun h => h hblank]
    dsimp only
    rw [hsame, List.nil_append]
  · rw [if_pos ⟨hb, hblank⟩, if_pos hblank]
    dsimp only
    rw [stream_done rfl, content_empty rfl, List.append_nil, List.append_nil, List.append_nil]

/-- A bracket that is missing: all of it is content. -/
theorem stream_bracketless {chunks : List Text} (hstate : p.state = .lookingForTag)
    (hb : p.Bracketed) (hbuffer : p.buffer = []) (hcut : cut p.tag chunks.flatten = none) :
    p.stream unmarshal chunks = ([], chunks.flatten) := by
  induction chunks with
  | nil =>
    rw [stream, content_empty hbuffer]
    rfl
  | cons s chunks ih =>
    rw [List.flatten_cons] at hcut ⊢
    rw [stream_missing hstate hb hbuffer (cut_front_none hcut),
      ih (cut_suffix_none (List.suffix_append ..) hcut), ite_self]

/-- A tag that is missing: what may be its beginning is lost. -/
theorem stream_tagless {chunks : List Text} (hstate : p.state = .lookingForTag)
    (hb : ¬p.Bracketed) (hkept : overlap p.buffer p.tag = p.buffer.length)
    (hcut : cut p.tag (p.buffer ++ chunks.flatten) = none) :
    p.stream unmarshal chunks =
      ([], (p.buffer ++ chunks.flatten).take
        ((p.buffer ++ chunks.flatten).length - overlap (p.buffer ++ chunks.flatten) p.tag)) := by
  induction chunks generalizing p with
  | nil =>
    rw [List.flatten_nil, List.append_nil, hkept, Nat.sub_self, stream, content_plain hb]
    rfl
  | cons s chunks ih =>
    rw [List.flatten_cons, ← List.append_assoc] at hcut ⊢
    have hcut₁ := cut_front_none hcut
    generalize he : (p.buffer ++ s).take ((p.buffer ++ s).length - overlap (p.buffer ++ s) p.tag) = e
    generalize ha : (p.buffer ++ s).drop ((p.buffer ++ s).length - overlap (p.buffer ++ s) p.tag) = a
    obtain ⟨hsplit, hclear, -, hover⟩ := clear_kept hcut₁ he ha
    have hclear' := hclear.append chunks.flatten
    rw [hsplit, List.append_assoc] at hcut ⊢
    rw [hclear'.cut_append, Option.map_eq_none_iff] at hcut
    rw [stream, add_missing hstate hcut₁ he ha, if_neg (fun h => hb h.1)]
    dsimp only
    rw [ih (p := { p with buffer := a }) hstate hb hover hcut, hclear'.overlap_append]
    have hle := overlap_le (a ++ chunks.flatten) p.tag
    have hlen : (e ++ (a ++ chunks.flatten)).length - overlap (a ++ chunks.flatten) p.tag =
        e.length + ((a ++ chunks.flatten).length - overlap (a ++ chunks.flatten) p.tag) := by
      rw [List.length_append]
      omega
    rw [hlen, List.take_length_add_append]
    rfl

/-- The tag, and the calls behind it. -/
theorem stream_tag {chunks : List Text} {before after : Text} {cs : List ToolCall}
    (hstate : p.state = .lookingForTag) (hkept : cut p.tag p.buffer = none ∨ p.buffer = [])
    (hcut : cut p.tag (p.buffer ++ chunks.flatten) = some (before, after))
    (hblank : p.Bracketed → ∀ b ∈ before, [b] ∈ spaces)
    (hwhole : Whole p.tools (p.tag ++ after))
    (hdone : NeverDone unmarshal p.calling (p.tag ++ after))
    (h : Drains unmarshal (p.calling.extend (p.tag ++ after)) cs q) :
    p.stream unmarshal chunks = (cs, before ++ q.content) := by
  induction chunks generalizing p before after with
  | nil =>
    rw [List.flatten_nil, List.append_nil] at hcut
    obtain ⟨rfl, hnil⟩ := cut_nothing hkept hcut
    have hbuffer : p.buffer = [] := by rw [cut_eq hcut, List.nil_append, hnil]
    rw [hnil] at h
    obtain ⟨rfl, rfl⟩ := h.unique (drains_empty rfl)
    rw [stream, content_empty hbuffer, content_empty rfl]
    rfl
  | cons s chunks ih =>
    rw [List.flatten_cons, ← List.append_assoc] at hcut
    cases hcut₁ : cut p.tag (p.buffer ++ s) with
    | some parts =>
      obtain ⟨b, a⟩ := parts
      rw [cut_append hcut₁] at hcut
      obtain ⟨rfl, rfl⟩ := Prod.mk.injEq .. ▸ Option.some.inj hcut
      obtain ⟨cs₁, q₁, h₁⟩ := exists_drains unmarshal (p.calling.extend (p.tag ++ a))
      have hfalse : q₁.done = false := by
        refine hdone (p.tag ++ a) q₁ ?_ ?_
        · rw [← List.append_assoc]
          exact List.prefix_append ..
        · have := (Reads.extend (p := p.calling) (p.tag ++ a)).trans h₁.reads
          rwa [List.append_nil] at this
      have hflat : ((p.tag ++ a) :: chunks).flatten = p.tag ++ (a ++ chunks.flatten) := by
        rw [List.flatten_cons, List.append_assoc]
      have hcalls : p.calling.stream unmarshal ((p.tag ++ a) :: chunks) = (cs, q.content) := by
        refine stream_calling rfl (drains_empty rfl).drained ?_ ?_ ?_
        · rwa [hflat]
        · rwa [hflat]
        · rwa [hflat]
      have hbefore : p.add unmarshal s = (cs₁, b, q₁) := by
        rw [add_found hstate hcut₁ fun hb => trimSpace_blank (hblank hb)]
        exact (call_eq h₁ b).trans (if_neg (by simp [hfalse]))
      rw [stream, add_calling rfl, call_eq h₁, if_neg (by simp [hfalse])] at hcalls
      rw [stream, hbefore]
      dsimp only at hcalls ⊢
      rw [Prod.mk.injEq, List.nil_append] at hcalls
      rw [hcalls.1, hcalls.2]
    | none =>
      generalize he : (p.buffer ++ s).take ((p.buffer ++ s).length - overlap (p.buffer ++ s) p.tag) = e
      generalize ha : (p.buffer ++ s).drop ((p.buffer ++ s).length - overlap (p.buffer ++ s) p.tag) = a
      obtain ⟨-, -, hnone, -⟩ := clear_kept hcut₁ he ha
      obtain ⟨before', rfl, hcut'⟩ := cut_kept hcut₁ he ha hcut
      have hno : ¬(p.Bracketed ∧ trimSpace e ≠ []) := fun hb =>
        hb.2 (trimSpace_blank fun b hmem => hblank hb.1 b (by simp [hmem]))
      have hrest := ih (p := { p with buffer := a }) hstate (.inl hnone) hcut'
        (fun hb b hmem => hblank hb b (by simp [hmem])) hwhole hdone h
      rw [stream, add_missing hstate hcut₁ he ha, if_neg hno]
      dsimp only
      rw [hrest, List.append_assoc]
      rfl

/-! ### Brackets that are no calls -/

theorem stream_nameless {chunks : List Text} (hstate : p.state = .toolCalling)
    (hb : p.Bracketed) (hn : p.n = 0)
    (hnames : ∀ t ∈ p.tools, cut t.name (p.buffer ++ chunks.flatten) = none) :
    p.stream unmarshal chunks = ([], p.buffer ++ chunks.flatten) := by
  induction chunks generalizing p with
  | nil => rw [List.flatten_nil, List.append_nil, stream, content_bracketed hb hn]
  | cons s chunks ih =>
    rw [List.flatten_cons, ← List.append_assoc] at hnames ⊢
    have hstop : Drains unmarshal (p.extend s) [] (p.extend s) :=
      drains_nameless fun t ht => cut_front_none (hnames t ht)
    rw [stream, add_calling hstate, call_eq hstop]
    cases (p.extend s).done with
    | true =>
      rw [if_pos rfl]
      dsimp only
      rw [stream_done rfl, content_empty rfl]
      simp [extend]
    | false =>
      rw [if_neg (by simp)]
      dsimp only
      rw [ih (p := p.extend s) hstate hb hn hnames]
      rfl

/-- The bracket comes first. -/
theorem stream_bracket {chunks : List Text} (hstate : p.state = .lookingForTag)
    (hb : p.Bracketed) (hn : p.n = 0) (hbuffer : p.buffer = []) (hfront : p.tag <+: chunks.flatten)
    (hnames : ∀ t ∈ p.tools, cut t.name chunks.flatten = none) :
    p.stream unmarshal chunks = ([], chunks.flatten) := by
  have hlen := hb.length
  induction chunks with
  | nil =>
    rw [List.prefix_nil.mp hfront] at hlen
    cases hlen
  | cons s chunks ih =>
    by_cases hs : s = []
    · have hmissing : cut p.tag (p.buffer ++ s) = none := by
        rw [hbuffer, hs, List.nil_append, cut, if_neg]
        intro htag
        rw [htag] at hlen
        cases hlen
      have hadd := @add_missing unmarshal p s hstate hmissing (e := []) (a := [])
        (by simp [hbuffer, hs]) (by simp [hbuffer, hs])
      have hsame : { p with buffer := [] } = p := by rw [← hbuffer]
      rw [hs, List.flatten_cons, List.nil_append] at hfront hnames ⊢
      rw [stream, ← hs, hadd, if_neg (fun h => h.2 rfl)]
      dsimp only
      rw [hsame, ih hfront hnames]
      rfl
    · have htag : p.tag <+: s := by
        refine List.prefix_of_prefix_length_le hfront ⟨chunks.flatten, rfl⟩ ?_
        have := List.length_pos_iff.mpr hs
        omega
      have hcut : cut p.tag (p.buffer ++ s) = some ([], s.drop p.tag.length) := by
        rw [hbuffer]
        exact cut_front htag
      have hall : p.tag ++ s.drop p.tag.length = s := (cut_eq (cut_front htag)).symm
      have hfirst : p.add unmarshal s = p.calling.add unmarshal s := by
        rw [add_found hstate hcut fun _ => rfl, add_calling rfl, hall]
        rfl
      have hcalls : p.calling.stream unmarshal (s :: chunks) = ([], (s :: chunks).flatten) :=
        stream_nameless rfl hb hn hnames
      rw [stream, hfirst]
      exact hcalls

/-! ### Chunks -/

/-- What comes of a text does not depend on the chunks: a tag that is a bracket has white space
before it, and is either first, with no name behind it, or its brackets never balance; and the text
does not end within a name. -/
def Settled (unmarshal : Text → Option Object) (p : Parser) (text : Text) : Prop :=
  ∀ before after, cut p.tag text = some (before, after) →
    Whole p.tools (p.tag ++ after) ∧ (p.Bracketed → (∀ b ∈ before, [b] ∈ spaces) ∧
      NeverDone unmarshal p.calling (p.tag ++ after)) ∨
    p.Bracketed ∧ before = [] ∧ ∀ t ∈ p.tools, cut t.name text = none

theorem neverDone_plain (h : ¬p.Bracketed) (text : Text) : NeverDone unmarshal p.calling text := by
  intro s q _ hreads
  have htag : q.tag = p.tag := by
    induction hreads with
    | start => rfl
    | text _ _ ih => exact ih (List.prefix_append ..|>.trans ‹_›)
    | call _ hcall ih =>
      obtain ⟨k, -, -, -, -, htag, -⟩ := parseToolCall_length hcall
      exact htag.trans (ih ‹_›)
  refine done_plain ?_
  rwa [Bracketed, htag]

end

section
variable (unmarshal : Text → Option Object) (tools : List Tool) (tag : Text)

/-- `NewParserWithTag`. -/
def newParserWithTag : Parser := { tag, tools }

end

/-- Knows one object. -/
def unmarshalOne (s : Text) : Option Object :=
  if s = ascii "\x7b\"a\":1\x7d" then some [(ascii "a", .number (ascii "1"))] else none

def getWith (tag : String) : Parser := newParserWithTag [⟨ascii "get"⟩] (ascii tag)

def said (p : Parser) (chunks : List String) : List Text × Text :=
  let (calls, content) := p.stream unmarshalOne (chunks.map ascii)
  (calls.map (·.name), content)

example : said (getWith "<t>") ["hi <", "t>ge", "t \x7b\"a\":1\x7d"] =
    ([ascii "get"], ascii "hi ") := by decide +kernel

end Parser

end Ecco9.Tools
