import Ecco9.Runner.StopStream

/-! Generated text in which no stop string occurs. -/

namespace Ecco9.Runner

open Ecco9.Library

/-- At most the beginning of one character. -/
def Beginning (s : Text) : Prop :=
  IsText s ∧ ∀ n, 0 < n → n ≤ s.length → utf8Valid (s.take n) = false

/-- The longest valid part of a text lacks at most the beginning of one character. -/
theorem cutBack_rest {s : Text} (text : IsText s) : ∃ rest, s = cutBack s ++ rest ∧ Beginning rest := by
  obtain ⟨rest, hrest⟩ := cutBack_isPrefix s
  have valid := cutBack_valid s
  refine ⟨rest, hrest.symm, ?_, fun n hpos hle => ?_⟩
  · rwa [← hrest, IsText.append valid] at text
  · by_contra hvalid
    rw [Bool.not_eq_false] at hvalid
    have hcut := congrArg cutBack hrest
    rw [cutBack_append valid, ← List.take_append_drop n rest, cutBack_append hvalid] at hcut
    have hlen := congrArg List.length hcut
    rw [List.length_append, List.length_append, List.length_take] at hlen
    omega

/-! ### Whole characters -/

/-- All strings sent are valid. -/
def Stream.Whole (s : Stream) : Prop := ∀ r ∈ s.responses, utf8Valid r

theorem Stream.Whole.flushPending {s : Stream} (h : s.Whole) (quit : Bool) :
    (s.flushPending quit).1.Whole := by
  unfold Stream.flushPending
  dsimp only
  split
  · exact h
  · split
    · exact h
    · intro r hr
      rcases List.mem_append.mp hr with hr | hr
      · exact h r hr
      · rw [List.mem_singleton.mp hr]
        exact cutBack_valid _

/-- The stream that a piece leaves behind. -/
def PieceResult.stream : PieceResult → Stream
  | .stopped s _ _ => s
  | .closed s => s
  | .more s => s

theorem Stream.Whole.addPiece {s : Stream} (h : s.Whole) (piece : Text) (quit : Bool) :
    (s.addPiece piece quit).stream.Whole := by
  have held : Stream.Whole { s with pendingResponses := s.pendingResponses ++ [piece] } := h
  unfold Stream.addPiece
  dsimp only
  split
  · exact h
  · split
    · exact h
    · split
      · exact h
      · split
        all_goals
          rename_i heq
          have := held.flushPending quit
          rwa [heq] at this

theorem Stream.Whole.generate {s : Stream} (h : s.Whole) (quit : Bool)
    (pieces : List (Text × Bool)) : (s.generate quit pieces).1.Whole := by
  induction pieces generalizing s with
  | nil => exact h.flushPending quit
  | cons e pieces ih =>
    have whole := h.addPiece e.1 e.2
    rw [Stream.generate]
    split
    all_goals
      rename_i heq
      rw [heq] at whole
    · exact whole.flushPending quit
    · exact whole.flushPending quit
    · exact ih whole

/-! ### The whole text -/

theorem Stream.flushPending_open (s : Stream) : (s.flushPending false).2 = true := by
  unfold flushPending
  dsimp only
  split <;> rfl

/-- Without a stop, and while nothing is refused, generation goes on. -/
theorem Stream.addPiece_open (s : Stream) (piece : Text)
    (h : findStop (s.pendingResponses ++ [piece]).flatten s.stop = none) :
    ∃ s', s.addPiece piece false = .more s' := by
  unfold addPiece
  dsimp only
  rw [h]
  dsimp only
  split
  · exact ⟨_, rfl⟩
  · split
    · exact ⟨_, rfl⟩
    · split
      · exact ⟨_, rfl⟩
      · rename_i heq
        have := flushPending_open { s with pendingResponses := s.pendingResponses ++ [piece] }
        rw [heq] at this
        cases this

/-- While nothing is refused, text in which no stop occurs is generated to its end, and all of it is
sent but for an unfinished character. -/
theorem Stream.generate_open {s : Stream} {stops : List Text} {done held : Text}
    (hs : s.Holds stops done held) (hstops : ∀ stop ∈ stops, stop ≠ []) {pieces : List (Text × Bool)}
    (text : IsText (done ++ (held ++ (pieces.map (·.1)).flatten)))
    (no_stop : ∀ stop ∈ stops, ∀ i, ¬OccursAt (held ++ (pieces.map (·.1)).flatten) stop i)
    (taken : ∀ e ∈ pieces, e.2 = false) : (s.generate false pieces).2 = (pieces.map (·.1)).flatten ∧
      (s.generate false pieces).1.responses.flatten =
        cutBack (done ++ (held ++ (pieces.map (·.1)).flatten)) := by
  induction pieces generalizing s done held with
  | nil =>
    refine ⟨rfl, ?_⟩
    rw [generate, flushPending_responses, hs.responses, hs.pending, List.map_nil, List.flatten_nil,
      List.append_nil, cutBack_append hs.whole]
  | cons e pieces ih =>
    obtain ⟨piece, refused⟩ := e
    obtain rfl : refused = false := taken (piece, refused) List.mem_cons_self
    rw [List.map_cons, List.flatten_cons] at text no_stop ⊢
    rw [← List.append_assoc held] at text no_stop ⊢
    have clear : findStop (held ++ piece) stops = none := by
      rw [findStop_eq_none hstops]
      intro stop hstop i hocc
      exact no_stop stop hstop i (hocc.of_isPrefix (List.prefix_append ..))
    obtain ⟨s', hmore⟩ := addPiece_open s piece (by
      rw [hs.stop, List.flatten_append, hs.pending]
      simpa using clear)
    have hheld : IsText (held ++ piece) := by
      rw [IsText.append hs.whole] at text
      exact text.left
    have later : ∀ e ∈ pieces, e.2 = false := fun e he => taken e (List.mem_cons_of_mem _ he)
    have step (done' held' : Text) (hs' : s'.Holds stops done' held')
        (heq : done' ++ held' = done ++ (held ++ piece)) (hsuffix : held' <:+ held ++ piece) :
        (s'.generate false pieces).2 = (pieces.map (·.1)).flatten ∧
          (s'.generate false pieces).1.responses.flatten =
            cutBack (done ++ (held ++ piece ++ (pieces.map (·.1)).flatten)) := by
      have assoc : done' ++ (held' ++ (pieces.map (·.1)).flatten) =
          done ++ (held ++ piece ++ (pieces.map (·.1)).flatten) := by
        rw [← List.append_assoc, heq, List.append_assoc]
      rw [← assoc] at text ⊢
      obtain ⟨sent, hsent⟩ := hsuffix
      refine ih hs' text (fun stop hstop i hocc => no_stop stop hstop (sent.length + i) ?_) later
      rw [OccursAt, ← hsent, List.append_assoc, List.drop_length_add_append]
      exact hocc
    rw [generate, hmore]
    dsimp only
    rcases addPiece_more hs hstops hheld hmore with hs' | hs'
    · obtain ⟨htext, hout⟩ := step _ _ hs' rfl (List.suffix_refl _)
      exact ⟨by rw [htext], hout⟩
    · obtain ⟨htext, hout⟩ := step _ _ hs' (List.append_nil _) (List.nil_suffix)
      exact ⟨by rw [htext], hout⟩

/-- Whatever is sent is valid; and while nothing is refused, all of the text is generated and sent, but
for an unfinished character at its end. -/
theorem Stream.generate_loses_nothing (stops : List Text) (pieces : List (Text × Bool)) (quit : Bool)
    (text : IsText (pieces.map (·.1)).flatten)
    (no_stop : ∀ stop ∈ stops, contains (pieces.map (·.1)).flatten stop = false) :
    (∀ r ∈ (Stream.generate { stop := stops } quit pieces).1.responses, utf8Valid r) ∧
    ((∀ e ∈ pieces, e.2 = false) → quit = false →
      (Stream.generate { stop := stops } quit pieces).2 = (pieces.map (·.1)).flatten ∧
      (∃ rest, (pieces.map (·.1)).flatten =
        (Stream.generate { stop := stops } quit pieces).1.responses.flatten ++ rest ∧
          Beginning rest) ∧
      (utf8Valid (pieces.map (·.1)).flatten →
        (Stream.generate { stop := stops } quit pieces).1.responses.flatten =
          (pieces.map (·.1)).flatten)) := by
  have hstops : ∀ stop ∈ stops, stop ≠ [] := by
    rintro stop hstop rfl
    have first : index (pieces.map (·.1)).flatten [] = some 0 :=
      index_eq_some.mpr ⟨Nat.zero_le _, List.nil_prefix, fun j hj => absurd hj (Nat.not_lt_zero j)⟩
    have := no_stop [] hstop
    rw [contains, first] at this
    cases this
  have whole : Stream.Whole { stop := stops } := by
    intro r hr
    cases hr
  refine ⟨whole.generate quit pieces, fun taken hquit => ?_⟩
  subst hquit
  have start : Stream.Holds { stop := stops } stops [] [] :=
    ⟨rfl, rfl, rfl, rfl, sealed_nil stops, findStop_nil hstops⟩
  obtain ⟨htext, hout⟩ := generate_open start hstops text (fun stop hstop i hocc => by
    have := no_stop stop hstop
    rw [← Bool.not_eq_true, contains_iff (hstops stop hstop)] at this
    exact this ⟨i, hocc⟩) taken
  rw [List.nil_append, List.nil_append] at hout
  refine ⟨htext, ?_, fun valid => ?_⟩
  · rw [hout]
    exact cutBack_rest text
  · rw [hout, cutBack_of_valid valid]

/-- An euro sign in three pieces, the first of which is held back for the stop `"ab"` too. -/
theorem euro_whole : (Stream.generate { stop := [[0x61, 0x62]] } false
    [([0x61], false), ([0xE2, 0x82], false), ([0xAC], false)]).1.responses.flatten =
      [0x61, 0xE2, 0x82, 0xAC] :=
  ((Stream.generate_loses_nothing [[0x61, 0x62]]
    [([0x61], false), ([0xE2, 0x82], false), ([0xAC], false)] false (by decide) (by decide)).2
    (by decide) rfl).2.2 (by decide)

end Ecco9.Runner
