import Ecco9.Tools.Chunks

/-! What is returned of a text without calls, when the tag is a bracket. -/

namespace Ecco9.Tools

open Ecco9.Library

namespace Parser

section
variable {unmarshal : Text → Option Object} {p q : Parser}

/-- The brackets of a text balance somewhere. -/
def closed (tag text : Text) : Bool := ({ tag, tools := [], buffer := text } : Parser).done

/-- Each chunk up to the one with the tag is white space, or the tag comes first in its chunk, or
there is white space before it and its brackets stay open. -/
def Keeps (tag : Text) : List Text → Prop
  | [] => True
  | s :: chunks =>
    match cut tag s with
    | none => trimSpace s ≠ [] ∨ Keeps tag chunks
    | some (before, after) =>
      before = [] ∨ trimSpace before = [] ∧ closed tag (tag ++ after) = false

/-- A call whose calls are none leaves the buffer as it is. -/
theorem call_none {content : Text} (h : (p.call unmarshal content).1 = []) :
    p.call unmarshal content =
      if p.done then ([], p.buffer, { p with state := .done, buffer := [] }) else ([], content, p) := by
  obtain ⟨cs, q, hdrains⟩ := exists_drains unmarshal p
  have hcall := call_eq hdrains content
  have hcs : cs = [] := by
    rw [← h, hcall]
    split <;> rfl
  subst hcs
  cases hdrains with
  | stop _ => exact hcall

/-- Behind the tag all of the text comes back. -/
theorem content_calling {chunks : List Text} (hstate : p.state = .toolCalling)
    (hb : p.Bracketed) (hn : p.n = 0) (hcalls : (p.stream unmarshal chunks).1 = []) :
    (p.stream unmarshal chunks).2 = p.buffer ++ chunks.flatten := by
  induction chunks generalizing p with
  | nil => rw [List.flatten_nil, List.append_nil, stream, content_bracketed hb hn]
  | cons s chunks ih =>
    rw [stream, add_calling hstate] at hcalls ⊢
    have hnone := call_none (List.append_eq_nil_iff.mp hcalls).1
    rw [hnone] at hcalls ⊢
    rw [List.flatten_cons, ← List.append_assoc]
    cases hdone : (p.extend s).done with
    | true =>
      rw [if_pos rfl]
      dsimp only
      rw [stream_done rfl, content_empty rfl, List.append_nil]
      rfl
    | false =>
      rw [hdone, if_neg Bool.false_ne_true] at hcalls
      rw [if_neg Bool.false_ne_true]
      exact ih (p := p.extend s) hstate hb hn hcalls

/-! ### The chunk with the tag -/

section
variable {s before after : Text} {chunks : List Text}

/-- Text before the tag: it is given back with the tag, which stays in the buffer as well. -/
theorem content_behind (hstate : p.state = .lookingForTag) (hb : p.Bracketed) (hn : p.n = 0)
    (hcut : cut p.tag (p.buffer ++ s) = some (before, after)) (hblank : trimSpace before ≠ []) :
    (p.stream unmarshal (s :: chunks)).2 =
      before ++ (p.tag ++ after) ++ chunks.flatten ++ (p.tag ++ after) := by
  have hleft : ({ p with state := .done, buffer := p.tag ++ after } : Parser).content =
      p.tag ++ after := content_bracketed hb hn
  rw [stream, add_behind hstate hcut ⟨hb, hblank⟩]
  dsimp only
  rw [stream_done rfl, hleft]
  exact (List.append_assoc ..).symm

/-- White space before the tag is lost when the brackets balance at once. -/
theorem content_blank (hstate : p.state = .lookingForTag) (hb : p.Bracketed) (hn : p.n = 0)
    (hcut : cut p.tag (p.buffer ++ s) = some (before, after)) (hblank : trimSpace before = [])
    (hcalls : (p.stream unmarshal (s :: chunks)).1 = []) :
    (p.stream unmarshal (s :: chunks)).2 =
      (if closed p.tag (p.tag ++ after) then [] else before) ++
        (p.tag ++ after ++ chunks.flatten) := by
  rw [stream, add_found hstate hcut fun _ => hblank] at hcalls ⊢
  generalize hq : ({ p with state := .toolCalling, buffer := p.tag ++ after } : Parser) = q
    at hcalls ⊢
  have hclosed : closed p.tag (p.tag ++ after) = q.done := by rw [← hq]; rfl
  have hbuffer : q.buffer = p.tag ++ after := by rw [← hq]
  have hnone := call_none (List.append_eq_nil_iff.mp hcalls).1
  rw [hnone] at hcalls ⊢
  rw [hclosed, ← hbuffer]
  cases hdone : q.done with
  | true =>
    rw [if_pos rfl, if_pos rfl]
    dsimp only
    rw [stream_done rfl, content_empty rfl, List.append_nil]
    rfl
  | false =>
    rw [hdone, if_neg Bool.false_ne_true] at hcalls
    rw [if_neg Bool.false_ne_true, if_neg Bool.false_ne_true]
    have hrest : (q.stream unmarshal chunks).2 = q.buffer ++ chunks.flatten := by
      refine content_calling ?_ ?_ ?_ hcalls
      · rw [← hq]
      · rw [← hq]
        exact hb
      · rw [← hq]
        exact hn
    dsimp only
    rw [hrest]

end

/-! ### Streams without calls -/

theorem content_kept {chunks : List Text} (hstate : p.state = .lookingForTag) (hb : p.Bracketed)
    (hn : p.n = 0) (hbuffer : p.buffer = []) (hcalls : (p.stream unmarshal chunks).1 = []) :
    (p.stream unmarshal chunks).2 = chunks.flatten ↔ Keeps p.tag chunks := by
  induction chunks with
  | nil =>
    rw [stream, content_empty hbuffer]
    exact iff_of_true rfl trivial
  | cons s chunks ih =>
    rw [Keeps, List.flatten_cons]
    cases hcut : cut p.tag s with
    | none =>
      rw [stream_missing hstate hb hbuffer hcut] at hcalls ⊢
      dsimp only
      by_cases hblank : trimSpace s = []
      · rw [if_neg fun h => h hblank] at hcalls ⊢
        dsimp only at hcalls ⊢
        rw [List.append_cancel_left_eq, ih hcalls]
        exact ⟨.inr, fun h => h.resolve_left fun hne => hne hblank⟩
      · rw [if_pos hblank]
        exact iff_of_true rfl (.inl hblank)
    | some parts =>
      obtain ⟨before, after⟩ := parts
      have hcut' : cut p.tag (p.buffer ++ s) = some (before, after) := by
        rw [hbuffer, List.nil_append, hcut]
      have hs : s = before ++ (p.tag ++ after) := by rw [cut_eq hcut, List.append_assoc]
      dsimp only
      by_cases hblank : trimSpace before = []
      · rw [content_blank hstate hb hn hcut' hblank hcalls, hs, List.append_assoc before]
        rw [List.append_cancel_right_eq]
        cases closed p.tag (p.tag ++ after) with
        | true =>
          rw [if_pos rfl]
          exact ⟨fun h => .inl h.symm, fun h => (h.resolve_right fun h => Bool.noConfusion h.2).symm⟩
        | false => exact iff_of_true rfl (.inr ⟨hblank, rfl⟩)
      · rw [content_behind hstate hb hn hcut' hblank, ← hs]
        have htag : p.tag ≠ [] := List.length_pos_iff.mp (by rw [hb.length]; decide)
        refine iff_of_false ?_ ?_
        · simp [htag]
        · rintro (rfl | ⟨h, -⟩)
          · exact hblank rfl
          · exact hblank h

end

/-- The content is the text, when there are no calls, if and only if the chunk with the tag is as
it should be. -/
theorem content_keeps (unmarshal : Text → Option Object) (tools : List Tool) (tag : Text)
    (chunks : List Text) (hb : tag = braceTag ∨ tag = bracketTag)
    (hcalls : ((newParserWithTag tools tag).stream unmarshal chunks).1 = []) :
    ((newParserWithTag tools tag).stream unmarshal chunks).2 = chunks.flatten ↔ Keeps tag chunks :=
  content_kept rfl hb rfl rfl hcalls

/-- White space in a chunk of its own. -/
theorem blank_keeps :
    ((newParserWithTag [⟨ascii "get"⟩] braceTag).stream unmarshalOne
        [ascii " ", ascii "\x7b\"x\":1\x7d"]).2 = ascii " \x7b\"x\":1\x7d" ∧
      Keeps braceTag [ascii " ", ascii "\x7b\"x\":1\x7d"] := by
  have content : ((newParserWithTag [⟨ascii "get"⟩] braceTag).stream unmarshalOne
      [ascii " ", ascii "\x7b\"x\":1\x7d"]).2 = ascii " \x7b\"x\":1\x7d" := by decide +kernel
  exact ⟨content, (content_keeps unmarshalOne [⟨ascii "get"⟩] braceTag _ (.inl rfl)
    (by decide +kernel)).mp content⟩

/-- White space that is in the chunk of the bracket is lost, and with text in it the bracket is
given back twice. -/
theorem content_lost : ¬ ∀ (unmarshal : Text → Option Object) (tools : List Tool) (tag : Text)
    (chunks : List Text), tag = braceTag ∨ tag = bracketTag →
    ((newParserWithTag tools tag).stream unmarshal chunks).1 = [] →
      ((newParserWithTag tools tag).stream unmarshal chunks).2 = chunks.flatten := by
  intro h
  have := h unmarshalOne [⟨ascii "get"⟩] braceTag [ascii " \x7b\"x\":1\x7d"] (.inl rfl)
    (by decide +kernel)
  revert this
  decide +kernel

end Parser

end Ecco9.Tools
