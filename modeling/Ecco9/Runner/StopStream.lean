import Ecco9.Runner.Stop

/-! What is sent of a generated text, against the first place where a stop string occurs. -/

namespace Ecco9.Runner

open Ecco9.Library

/-- No stop begins in `done`, whatever text follows. -/
def Sealed (stops : List Text) (done : Text) : Prop :=
  ∀ t, ∀ stop ∈ stops, ∀ i,
    OccursAt (done ++ t) stop i ↔ done.length ≤ i ∧ OccursAt t stop (i - done.length)

theorem sealed_nil (stops : List Text) : Sealed stops [] := by
  intro t stop _ i
  simp

theorem Sealed.append {stops : List Text} {done s : Text} (h : Sealed stops done)
    (hno : ∀ stop ∈ stops, ∀ i, ¬OccursAt s stop i)
    (hsuffix : containsStopSuffix s stops = false) : Sealed stops (done ++ s) := by
  intro t stop hstop i
  rw [List.append_assoc, h _ stop hstop, occursAt_append (hno stop hstop)
    (containsStopSuffix_eq_false.mp hsuffix stop hstop), List.length_append]
  constructor
  · rintro ⟨h1, h2, h3⟩
    refine ⟨by omega, ?_⟩
    rwa [show i - (done.length + s.length) = i - done.length - s.length by omega]
  · rintro ⟨h1, h2⟩
    refine ⟨by omega, by omega, ?_⟩
    rwa [show i - done.length - s.length = i - (done.length + s.length) by omega]

theorem Sealed.contains {stops : List Text} {done : Text} (h : Sealed stops done)
    (hstops : ∀ stop ∈ stops, stop ≠ []) {stop : Text} (hstop : stop ∈ stops) (s : Text) :
    contains (done ++ s) stop = contains s stop := by
  rw [Bool.eq_iff_iff, contains_iff (hstops stop hstop), contains_iff (hstops stop hstop)]
  constructor
  · rintro ⟨i, hi⟩
    exact ⟨_, ((h s stop hstop i).mp hi).2⟩
  · rintro ⟨i, hi⟩
    refine ⟨done.length + i, (h s stop hstop _).mpr ⟨Nat.le_add_right .., ?_⟩⟩
    rwa [Nat.add_sub_cancel_left]

theorem Sealed.findStop {stops : List Text} {done : Text} (h : Sealed stops done)
    (hstops : ∀ stop ∈ stops, stop ≠ []) (s : Text) :
    findStop (done ++ s) stops = findStop s stops := by
  have same (l : List Text) (hl : l ⊆ stops) : l.find? (fun stop => Runner.contains (done ++ s) stop) =
      l.find? fun stop => Runner.contains s stop := by
    induction l with
    | nil => rfl
    | cons stop l ih =>
      rw [List.find?_cons, List.find?_cons, h.contains hstops (hl (by simp)),
        ih fun x hx => hl (by simp [hx])]
  exact same stops (List.Subset.refl _)

theorem Sealed.index {stops : List Text} {done s stop : Text} (h : Sealed stops done)
    (hstop : stop ∈ stops) {i : Nat} (hi : index s stop = some i) :
    index (done ++ s) stop = some (done.length + i) := by
  obtain ⟨hle, hocc, hfirst⟩ := index_eq_some.mp hi
  refine index_eq_some.mpr ⟨by rw [List.length_append]; omega, ?_, ?_⟩
  · refine (h s stop hstop _).mpr ⟨Nat.le_add_right .., ?_⟩
    rwa [Nat.add_sub_cancel_left]
  · intro j hj hocc'
    obtain ⟨hge, hocc'⟩ := (h s stop hstop j).mp hocc'
    exact hfirst (j - done.length) (by omega) hocc'

/-! ### Flushing -/

theorem Stream.flushPending_responses (s : Stream) :
    (s.flushPending false).1.responses.flatten =
      s.responses.flatten ++ cutBack s.pendingResponses.flatten := by
  unfold flushPending
  dsimp only
  split
  · rename_i h
    rw [h, List.append_nil]
  · rw [if_neg Bool.false_ne_true]
    simp

@[simp] theorem Stream.flushPending_pending (s : Stream) (quit : Bool) :
    (s.flushPending quit).1.pendingResponses = [] := by
  unfold flushPending
  dsimp only
  split
  · rfl
  · split <;> rfl

@[simp] theorem Stream.flushPending_stop (s : Stream) (quit : Bool) :
    (s.flushPending quit).1.stop = s.stop := by
  unfold flushPending
  dsimp only
  split
  · rfl
  · split <;> rfl

theorem Stream.flushPending_refused {s : Stream} {quit : Bool} (h : (s.flushPending quit).2 = false) :
    (s.flushPending quit).1.responses = s.responses := by
  unfold flushPending at h ⊢
  dsimp only at h ⊢
  split at h
  · cases h
  · split at h
    · rename_i hjoined hquit
      rw [if_neg hjoined, if_pos hquit]
    · cases h

theorem Stream.flushPending_taken {s : Stream} {quit : Bool} (h : (s.flushPending quit).2 = true) :
    (s.flushPending quit).1 = (s.flushPending false).1 := by
  cases quit with
  | false => rfl
  | true =>
    unfold flushPending at h ⊢
    dsimp only at h ⊢
    split at h
    · rename_i hjoined
      rw [if_pos hjoined, if_pos hjoined]
    · cases h

theorem findStop_nil {stops : List Text} (hstops : ∀ stop ∈ stops, stop ≠ []) :
    findStop [] stops = none := by
  rw [findStop_eq_none hstops]
  intro stop hstop i hocc
  have hle := hocc.le (hstops stop hstop)
  have hpos := List.length_pos_iff.mpr (hstops stop hstop)
  rw [List.length_nil] at hle
  omega

/-! ### Generation -/

/-- The stream while `done` has been sent and `held` is held back. -/
structure Stream.Holds (s : Stream) (stops : List Text) (done held : Text) : Prop where
  stop : s.stop = stops
  responses : s.responses.flatten = done
  pending : s.pendingResponses.flatten = held
  whole : utf8Valid done
  no_stop : Sealed stops done
  clear : findStop held stops = none

/-- Text without a stop is sent at most, other text up to the stop that `FindStop` finds. -/
def SentUpToStop (stops : List Text) (text sent : Text) : Prop :=
  match findStop text stops with
  | none => sent <+: text
  | some stop => ∃ i, index text stop = some i ∧ sent = cutBack (text.take i)

theorem findStop_some {s : Text} {stops : List Text} {stop : Text} (h : findStop s stops = some stop) :
    stop ∈ stops ∧ ∃ i, index s stop = some i :=
  by
  have hfound : contains s stop = true := List.find?_some (p := contains s) h
  exact ⟨List.mem_of_find?_eq_some h, Option.isSome_iff_exists.mp hfound⟩

theorem Stream.addPiece_stopped {s : Stream} {stops : List Text} {done held : Text}
    (hs : s.Holds stops done held) (hstops : ∀ stop ∈ stops, stop ≠ []) (piece : Text) (quit : Bool)
    {s' : Stream} {n : Nat} {cut : Bool} (h : s.addPiece piece quit = .stopped s' n cut) :
    SentUpToStop stops (done ++ (held ++ piece)) (s'.flushPending false).1.responses.flatten := by
  have hjoin : (s.pendingResponses ++ [piece]).flatten = held ++ piece := by
    simp [hs.pending]
  rw [addPiece] at h
  dsimp only at h
  rw [hjoin, hs.stop] at h
  split at h
  · rename_i stop hfind
    obtain ⟨hmem, i, hi⟩ := findStop_some hfind
    obtain ⟨rfl, -, -⟩ := PieceResult.stopped.inj h
    have htrunc := truncateStop_flatten (by rwa [hjoin] : index _ stop = some i)
    rw [SentUpToStop, hs.no_stop.findStop hstops, hfind]
    refine ⟨done.length + i, hs.no_stop.index hmem hi, ?_⟩
    rw [flushPending_responses, htrunc, hjoin, hs.responses, List.take_length_add_append,
      cutBack_append hs.whole]
  · split at h
    · cases h
    · split at h
      · cases h
      · split at h <;> cases h

theorem Stream.addPiece_more {s : Stream} {stops : List Text} {done held : Text}
    (hs : s.Holds stops done held) (hstops : ∀ stop ∈ stops, stop ≠ []) {piece : Text}
    (text : IsText (held ++ piece)) {quit : Bool} {s' : Stream} (h : s.addPiece piece quit = .more s') :
    s'.Holds stops done (held ++ piece) ∨ s'.Holds stops (done ++ (held ++ piece)) [] := by
  have hstop := hs.stop
  subst hstop
  have hjoin : (s.pendingResponses ++ [piece]).flatten = held ++ piece := by
    simp [hs.pending]
  have held' (hnone : findStop (held ++ piece) s.stop = none) :
      ({ s with pendingResponses := s.pendingResponses ++ [piece] } : Stream).Holds s.stop done
        (held ++ piece) :=
    ⟨hs.stop, hs.responses, hjoin, hs.whole, hs.no_stop, hnone⟩
  rw [addPiece] at h
  dsimp only at h
  rw [hjoin] at h
  split at h
  · cases h
  · rename_i hnone
    have hno := (findStop_eq_none hstops).mp hnone
    split at h
    · obtain rfl := PieceResult.more.inj h
      exact .inl (held' hnone)
    · split at h
      · obtain rfl := PieceResult.more.inj h
        exact .inl (held' hnone)
      · -- the pending text is sent whole
        rename_i hsuffix hcomplete
        have whole := utf8Valid_of_complete text (by simpa using hcomplete)
        have hsent := flushPending_responses
          { s with pendingResponses := s.pendingResponses ++ [piece] }
        rw [hjoin, cutBack_of_valid whole, hs.responses] at hsent
        split at h
        · rename_i s₁ heq
          obtain rfl := PieceResult.more.inj h
          have hs' : s₁ = (Stream.flushPending
              { s with pendingResponses := s.pendingResponses ++ [piece] } false).1 := by
            rw [← flushPending_taken (by rw [heq]), heq]
          refine .inr ⟨?_, ?_, ?_, ?_, ?_, findStop_nil hstops⟩
          · rw [hs', flushPending_stop]
          · rw [hs']
            exact hsent
          · rw [hs', flushPending_pending]
            rfl
          · rwa [utf8Valid_append hs.whole]
          · exact hs.no_stop.append hno (by simpa using hsuffix)
        · cases h

theorem Stream.addPiece_closed {s : Stream} {stops : List Text} {done held : Text}
    (hs : s.Holds stops done held) {piece : Text} {quit : Bool} {s' : Stream}
    (h : s.addPiece piece quit = .closed s') : findStop (held ++ piece) stops = none ∧
      s'.responses.flatten = done ∧ s'.pendingResponses = [] := by
  have hjoin : (s.pendingResponses ++ [piece]).flatten = held ++ piece := by
    simp [hs.pending]
  have hstop := hs.stop
  subst hstop
  rw [addPiece] at h
  dsimp only at h
  rw [hjoin] at h
  split at h
  · cases h
  · rename_i hnone
    split at h
    · cases h
    · split at h
      · cases h
      · split at h
        · cases h
        · rename_i s₁ heq
          obtain rfl := PieceResult.closed.inj h
          have hs' : s₁ = (Stream.flushPending
              { s with pendingResponses := s.pendingResponses ++ [piece] } quit).1 := by rw [heq]
          refine ⟨hnone, ?_, ?_⟩
          · rw [hs', flushPending_refused (by rw [heq])]
            exact hs.responses
          · rw [hs', flushPending_pending]

theorem Stream.generate_sent {s : Stream} {stops : List Text} {done held : Text}
    (hs : s.Holds stops done held) (hstops : ∀ stop ∈ stops, stop ≠ [])
    {pieces : List (Text × Bool)}
    (text : IsText (done ++ (held ++ (s.generate false pieces).2))) :
    SentUpToStop stops (done ++ (held ++ (s.generate false pieces).2))
      (s.generate false pieces).1.responses.flatten := by
  induction pieces generalizing s done held with
  | nil =>
    rw [generate, List.append_nil, SentUpToStop, hs.no_stop.findStop hstops, hs.clear,
      flushPending_responses, hs.responses, hs.pending]
    exact List.prefix_append_right_inj done |>.mpr (cutBack_isPrefix held)
  | cons e pieces ih =>
    obtain ⟨piece, refused⟩ := e
    rw [generate] at text ⊢
    cases hpiece : s.addPiece piece refused with
    | stopped s' n cut =>
      rw [hpiece] at text
      exact addPiece_stopped hs hstops piece refused hpiece
    | closed s' =>
      obtain ⟨hnone, hdone, hpending⟩ := addPiece_closed hs hpiece
      dsimp only
      rw [SentUpToStop, hs.no_stop.findStop hstops, hnone, flushPending_responses, hdone, hpending]
      exact (List.append_nil done).symm ▸ List.prefix_append ..
    | more s' =>
      rw [hpiece] at text
      dsimp only at text ⊢
      have hheld : IsText (held ++ piece) := by
        rw [IsText.append hs.whole, ← List.append_assoc] at text
        exact text.left
      rcases addPiece_more hs hstops hheld hpiece with hs' | hs'
      · rw [← List.append_assoc held piece] at text ⊢
        exact ih hs' text
      · have assoc : done ++ (held ++ (piece ++ (s'.generate false pieces).2)) =
            (done ++ (held ++ piece)) ++ ([] ++ (s'.generate false pieces).2) := by simp
        rw [assoc] at text ⊢
        exact ih hs' text

/-! ### The earliest stop -/

/-- The earliest position at which any stop occurs. -/
def Earliest (stops : List Text) (text : Text) (i : Nat) : Prop :=
  (∃ stop ∈ stops, OccursAt text stop i) ∧ ∀ j < i, ∀ stop ∈ stops, ¬OccursAt text stop j

/-- What is sent of a generated text ends right before the earliest stop. -/
structure EndsBeforeStop (stops : List Text) (text sent : Text) : Prop where
  no_stop : ∀ stop ∈ stops, contains sent stop = false
  before : ∀ i, Earliest stops text i → sent = cutBack (text.take i)

/-- No character of the text ends after the earliest stop and up to the occurrence of the first
listed stop that occurs. If the stops are whole characters, the latter is then the earliest. -/
def FirstListedFirst (stops : List Text) (text : Text) : Prop :=
  ∀ stop, findStop text stops = some stop → ∀ n, index text stop = some n →
    ∀ i, Earliest stops text i → ∀ k, i < k → k ≤ n → utf8Valid (text.take k) = false

theorem OccursAt.of_isPrefix {s t stop : Text} (h : s <+: t) {i : Nat} (hocc : OccursAt s stop i) :
    OccursAt t stop i := hocc.trans (h.drop i)

/-- Nothing that lies before the earliest stop contains a stop. -/
theorem no_stop_of_isPrefix {stops : List Text} (hstops : ∀ stop ∈ stops, stop ≠ []) {text s : Text}
    {n : Nat} (h : s <+: text.take n) (hno : ∀ j < n, ∀ stop ∈ stops, ¬OccursAt text stop j) :
    ∀ stop ∈ stops, contains s stop = false := by
  intro stop hstop
  rw [← Bool.not_eq_true, contains_iff (hstops stop hstop)]
  rintro ⟨j, hj⟩
  have hle := hj.le (hstops stop hstop)
  have hpos := List.length_pos_iff.mpr (hstops stop hstop)
  have hlen := h.length_le
  rw [List.length_take] at hlen
  exact hno j (by omega) stop hstop (hj.of_isPrefix (h.trans (List.take_prefix ..)))

/-- If the text before the stop can still be sent and the generated text is UTF-8, perhaps but for
an unfinished character at its end, then the text sent ends before the earliest stop exactly when
the first listed stop is the first to occur. -/
theorem Stream.generate_endsBeforeStop_iff {stops : List Text} (hstops : ∀ stop ∈ stops, stop ≠ [])
    {pieces : List (Text × Bool)}
    (text : IsText (Stream.generate { stop := stops } false pieces).2) :
    EndsBeforeStop stops (Stream.generate { stop := stops } false pieces).2
        (Stream.generate { stop := stops } false pieces).1.responses.flatten ↔
      FirstListedFirst stops (Stream.generate { stop := stops } false pieces).2 := by
  have start : Stream.Holds { stop := stops } stops [] [] :=
    ⟨rfl, rfl, rfl, rfl, sealed_nil stops, findStop_nil hstops⟩
  have sent := generate_sent start hstops text
  rw [List.nil_append, List.nil_append] at sent
  generalize (Stream.generate { stop := stops } false pieces).2 = G at sent ⊢
  generalize (Stream.generate { stop := stops } false pieces).1.responses.flatten = out at sent ⊢
  rw [SentUpToStop] at sent
  split at sent
  · rename_i hnone
    have hno := (findStop_eq_none hstops).mp hnone
    constructor
    · intro _ stop hstop
      rw [hnone] at hstop
      cases hstop
    · intro _
      constructor
      · apply no_stop_of_isPrefix hstops (n := G.length)
        · rwa [List.take_length]
        · intro j _ stop hstop
          exact hno stop hstop j
      · rintro i ⟨⟨stop, hstop, hocc⟩, -⟩
        exact absurd hocc (hno stop hstop i)
  · rename_i stop hsome
    obtain ⟨hmem, -⟩ := findStop_some hsome
    obtain ⟨n, hn, rfl⟩ := sent
    obtain ⟨hle, hocc, -⟩ := index_eq_some.mp hn
    have cuts {i : Nat} (hi : Earliest stops G i) :
        cutBack (G.take n) = cutBack (G.take i) ↔
          ∀ k, i < k → k ≤ n → utf8Valid (G.take k) = false := by
      have hin : i ≤ n := by
        by_contra hlt
        exact hi.2 n (by omega) stop hmem hocc
      rw [cutBack_take hle, cutBack_take (hin.trans hle), cutTo_eq_iff hin hle]
    constructor
    · intro h stop' hstop' n' hn' i hi
      rw [hsome] at hstop'
      obtain rfl := Option.some.inj hstop'
      rw [hn] at hn'
      obtain rfl := Option.some.inj hn'
      exact (cuts hi).mp (h.before i hi)
    · intro h
      have before (i : Nat) (hi : Earliest stops G i) : cutBack (G.take n) = cutBack (G.take i) :=
        (cuts hi).mpr (h stop hsome n hn i hi)
      refine ⟨?_, before⟩
      classical
      have hex : ∃ i, ∃ stop ∈ stops, OccursAt G stop i := ⟨n, stop, hmem, hocc⟩
      have hfirst : Earliest stops G (Nat.find hex) := by
        refine ⟨Nat.find_spec hex, ?_⟩
        intro j hj stop hstop hocc
        exact Nat.find_min hex hj ⟨stop, hstop, hocc⟩
      rw [before _ hfirst]
      exact no_stop_of_isPrefix hstops (cutBack_isPrefix _) hfirst.2

/-- The stops `"b"` and `"a"` when the one piece `"xayb"` is generated. -/
theorem generate_late_stop : ¬EndsBeforeStop [[0x62], [0x61]]
    (Stream.generate { stop := [[0x62], [0x61]] } false [([0x78, 0x61, 0x79, 0x62], false)]).2
    (Stream.generate { stop := [[0x62], [0x61]] } false
      [([0x78, 0x61, 0x79, 0x62], false)]).1.responses.flatten := by
  intro h
  have := h.no_stop [0x61] (by simp)
  revert this
  decide

/-- The stops `"b"` and `"a"` when the pieces `"xa"` and `"yb"` are generated. -/
theorem generate_early_stop : EndsBeforeStop [[0x62], [0x61]]
    (Stream.generate { stop := [[0x62], [0x61]] } false
      [([0x78, 0x61], false), ([0x79, 0x62], false)]).2
    (Stream.generate { stop := [[0x62], [0x61]] } false
      [([0x78, 0x61], false), ([0x79, 0x62], false)]).1.responses.flatten := by
  apply (Stream.generate_endsBeforeStop_iff (by decide) (by decide)).mpr
  intro stop hstop n hn i hi k hk hkn
  obtain rfl : stop = [0x61] := by
    have : findStop (Stream.generate { stop := [[0x62], [0x61]] } false
      [([0x78, 0x61], false), ([0x79, 0x62], false)]).2 [[0x62], [0x61]] = some [0x61] := by decide
    rw [this] at hstop
    exact (Option.some.inj hstop).symm
  have hn' : index (Stream.generate { stop := [[0x62], [0x61]] } false
      [([0x78, 0x61], false), ([0x79, 0x62], false)]).2 [0x61] = some 1 := by decide
  rw [hn'] at hn
  obtain rfl := Option.some.inj hn
  obtain rfl : i = 0 := by omega
  obtain ⟨stop, hstop, hocc⟩ := hi.1
  exfalso
  revert stop
  decide

end Ecco9.Runner
