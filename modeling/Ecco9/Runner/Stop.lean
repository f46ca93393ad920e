import Ecco9.Library.Utf8
import Mathlib.Data.List.Infix
import Mathlib.Order.Nat
import Mathlib.Data.Nat.Find
import Mathlib.Algebra.GroupWithZero.Nat

/-! Stop strings: `runner/common/stop.go`, and the responses of a sequence as `processBatch` and
`flushPending` in `runner/ollamarunner/runner.go` handle them. -/

namespace Ecco9.Runner

open Ecco9.Library

/-! ### `stop.go` -/

/-- `strings.Index`. -/
def index (s stop : Text) : Option Nat :=
  (List.range (s.length + 1)).find? fun i => stop.isPrefixOf (s.drop i)

/-- `strings.Contains`. -/
def contains (s stop : Text) : Bool := (index s stop).isSome

def findStop (sequence : Text) (stops : List Text) : Option Text :=
  stops.find? fun stop => contains sequence stop

def containsStopSuffix (sequence : Text) (stops : List Text) : Bool :=
  stops.any fun stop =>
    (List.range' 1 stop.length).any fun i => (stop.take i).isSuffixOf sequence

/-- The loop of `TruncateStop` that splits `joined` into pieces of the original lengths. -/
def splitPieces (joined : Text) : List Nat → (start : Nat) → List Text × Bool
  | [], _ => ([], false)
  | length :: lengths, start =>
    if start ≥ joined.length then ([], false)
    else if start + length > joined.length then
      let (result, _) := splitPieces joined lengths joined.length
      (joined.drop start :: result, true)
    else
      let (result, tokenTruncated) := splitPieces joined lengths (start + length)
      ((joined.drop start).take length :: result, tokenTruncated)

def truncateStop (pieces : List Text) (stop : Text) : List Text × Bool :=
  match index pieces.flatten stop with
  | none => (pieces, false)
  | some i => splitPieces (pieces.flatten.take i) (pieces.map List.length) 0

/-- The loop of `IncompleteUnicode`, over the bytes from the last one back. -/
def incompleteFrom : (i : Nat) → Text → Bool
  | _, [] => false
  | i, c :: rest =>
    if i ≥ 5 then false
    else if c &&& 0xc0 = 0x80 then incompleteFrom (i + 1) rest
    else if c &&& 0xe0 = 0xc0 then decide (i < 2)
    else if c &&& 0xf0 = 0xe0 then decide (i < 3)
    else if c &&& 0xf8 = 0xf0 then decide (i < 4)
    else false

def incompleteUnicode (token : Text) : Bool := incompleteFrom 1 token.reverse

/-! ### The responses of a sequence -/

/-- What a `Sequence` knows of its text; `responses` are the strings sent so far. -/
structure Stream where
  pendingResponses : List Text := []
  responses : List Text := []
  stop : List Text

/-- `flushPending`; with `quit` the connection is closed and the send refused. -/
def Stream.flushPending (s : Stream) (quit : Bool) : Stream × Bool :=
  let joined := cutBack s.pendingResponses.flatten
  let s := { s with pendingResponses := [] }
  if joined = [] then (s, true)
  else if quit then (s, false)
  else ({ s with responses := s.responses ++ [joined] }, true)

inductive PieceResult
  /-- a stop was hit: the pieces left, their number before, and whether one was cut -/
  | stopped (s : Stream) (origLen : Nat) (tokenTruncated : Bool)
  | closed (s : Stream)
  | more (s : Stream)

/-- What `processBatch` does with the piece of a sampled token. -/
def Stream.addPiece (s : Stream) (piece : Text) (quit : Bool) : PieceResult :=
  let s := { s with pendingResponses := s.pendingResponses ++ [piece] }
  let sequence := s.pendingResponses.flatten
  match findStop sequence s.stop with
  | some stop =>
    let (pendingResponses, tokenTruncated) := truncateStop s.pendingResponses stop
    .stopped { s with pendingResponses } s.pendingResponses.length tokenTruncated
  | none =>
    if containsStopSuffix sequence s.stop then .more s
    else if incompleteUnicode sequence then .more s
    else
      match s.flushPending quit with
      | (s, true) => .more s
      | (s, false) => .closed s

/-- Generation from a list of pieces, until it ends: the stream after `removeSequence`, and the
text generated. Each piece comes with whether a send fails after it; `quit` is for the last. -/
def Stream.generate (s : Stream) (quit : Bool) : List (Text × Bool) → Stream × Text
  | [] => ((s.flushPending quit).1, [])
  | (piece, refused) :: pieces =>
    match s.addPiece piece refused with
    | .stopped s _ _ => ((s.flushPending quit).1, piece)
    | .closed s => ((s.flushPending quit).1, piece)
    | .more s =>
      let (s, text) := s.generate quit pieces
      (s, piece ++ text)

/-! ### Searching -/

/-- `stop` begins at byte `i`. -/
def OccursAt (s stop : Text) (i : Nat) : Prop := stop <+: s.drop i

instance (s stop : Text) (i : Nat) : Decidable (OccursAt s stop i) :=
  inferInstanceAs (Decidable (stop <+: s.drop i))

theorem OccursAt.le {s stop : Text} (hstop : stop ≠ []) {i : Nat} (h : OccursAt s stop i) :
    i + stop.length ≤ s.length := by
  have hlen := List.IsPrefix.length_le h
  have hpos := List.length_pos_iff.mpr hstop
  rw [List.length_drop] at hlen
  omega

theorem index_eq_some {s stop : Text} {i : Nat} :
    index s stop = some i ↔ i ≤ s.length ∧ OccursAt s stop i ∧ ∀ j < i, ¬OccursAt s stop j := by
  simp only [index, List.find?_range_eq_some, List.isPrefixOf_iff_prefix, List.mem_range,
    Bool.not_eq_true', Nat.lt_succ_iff, OccursAt]
  constructor
  · rintro ⟨h1, h2, h3⟩
    refine ⟨h2, h1, ?_⟩
    intro j hj h
    have := h3 j hj
    rw [← List.isPrefixOf_iff_prefix, this] at h
    cases h
  · rintro ⟨h1, h2, h3⟩
    refine ⟨h2, h1, ?_⟩
    intro j hj
    have := h3 j hj
    rwa [← List.isPrefixOf_iff_prefix, Bool.not_eq_true] at this

theorem contains_iff {s stop : Text} (hstop : stop ≠ []) :
    contains s stop = true ↔ ∃ i, OccursAt s stop i := by
  rw [contains, Option.isSome_iff_exists]
  constructor
  · rintro ⟨i, h⟩
    exact ⟨i, (index_eq_some.mp h).2.1⟩
  · rintro ⟨i, h⟩
    classical
    have hex : ∃ i, OccursAt s stop i := ⟨i, h⟩
    have hfirst := Nat.find_spec hex
    refine ⟨Nat.find hex, index_eq_some.mpr ⟨?_, hfirst, fun j hj => Nat.find_min hex hj⟩⟩
    have := hfirst.le hstop
    omega

/-- In longer text, nothing more occurs than what begins in the new part, once the old part neither
contains the stop nor ends with the beginning of it. -/
theorem occursAt_append {s t : Text} {stop : Text} (hno : ∀ i, ¬OccursAt s stop i)
    (hsuffix : ∀ i, 1 ≤ i → i ≤ stop.length → ¬stop.take i <:+ s) {i : Nat} :
    OccursAt (s ++ t) stop i ↔ s.length ≤ i ∧ OccursAt t stop (i - s.length) := by
  by_cases hi : s.length ≤ i
  · simp only [OccursAt, hi, true_and]
    rw [List.drop_append, List.drop_eq_nil_of_le hi, List.nil_append]
  · simp only [hi, false_and, iff_false]
    intro h
    have hdrop : (s ++ t).drop i = s.drop i ++ t := List.drop_append_of_le_length (by omega)
    rw [OccursAt, hdrop] at h
    rcases Nat.le_total stop.length (s.drop i).length with hle | hle
    · -- inside the old part
      exact hno i (List.prefix_of_prefix_length_le h (List.prefix_append ..) hle)
    · -- across the seam
      have hcut : s.drop i <+: stop :=
        List.prefix_of_prefix_length_le (List.prefix_append ..) h hle
      have hlen : (s.drop i).length = s.length - i := List.length_drop
      apply hsuffix (s.drop i).length (by omega) hle
      rw [List.prefix_iff_eq_take.mp hcut |>.symm]
      exact List.drop_suffix i s

theorem containsStopSuffix_eq_false {s : Text} {stops : List Text} :
    containsStopSuffix s stops = false ↔
      ∀ stop ∈ stops, ∀ i, 1 ≤ i → i ≤ stop.length → ¬stop.take i <:+ s := by
  simp only [containsStopSuffix, List.any_eq_false, List.mem_range'_1, Bool.not_eq_true,
    List.isSuffixOf_iff_suffix, and_imp]
  constructor
  · intro h stop hstop i h1 hi
    exact h stop hstop i h1 (by omega)
  · intro h stop hstop i h1 hi
    exact h stop hstop i h1 (by omega)

theorem findStop_eq_none {s : Text} {stops : List Text} (hstops : ∀ stop ∈ stops, stop ≠ []) :
    findStop s stops = none ↔ ∀ stop ∈ stops, ∀ i, ¬OccursAt s stop i := by
  rw [findStop, List.find?_eq_none]
  refine forall₂_congr fun stop hstop => ?_
  rw [contains_iff (hstops stop hstop), not_exists]

/-! ### Truncation -/

theorem splitPieces_flatten (joined : Text) (lengths : List Nat) (start : Nat)
    (h : joined.length ≤ start + lengths.sum) :
    (splitPieces joined lengths start).1.flatten = joined.drop start := by
  induction lengths generalizing start with
  | nil =>
    rw [List.sum_nil, Nat.add_zero] at h
    rw [splitPieces, List.drop_eq_nil_of_le h]
    rfl
  | cons length lengths ih =>
    rw [List.sum_cons] at h
    rw [splitPieces]
    split
    · rename_i hge
      rw [List.drop_eq_nil_of_le hge]
      rfl
    · split
      · have hrest := ih joined.length (Nat.le_add_right ..)
        simp only [List.flatten_cons]
        rw [hrest, List.drop_length, List.append_nil]
      · have hrest := ih (start + length) (by omega)
        simp only [List.flatten_cons]
        rw [hrest, ← List.drop_drop, List.take_append_drop]

theorem truncateStop_flatten {pieces : List Text} {stop : Text} {i : Nat}
    (h : index pieces.flatten stop = some i) :
    (truncateStop pieces stop).1.flatten = pieces.flatten.take i := by
  rw [truncateStop, h]
  dsimp only
  rw [splitPieces_flatten, List.drop_zero]
  rw [Nat.zero_add, ← List.length_flatten]
  exact List.length_take_le' i _

/-! ### Incomplete characters -/

theorem forall_byte {p : UInt8 → Prop} (h : ∀ n < 256, p (UInt8.ofNat n)) (c : UInt8) : p c := by
  have := h c.toNat c.toNat_lt
  rwa [UInt8.ofNat_toNat] at this

theorem cont_mask (c : UInt8) : c &&& 0xc0 = 0x80 ↔ 0x80 ≤ c.toNat ∧ c.toNat ≤ 0xBF := by
  revert c
  apply forall_byte
  decide +kernel

theorem lead2_mask (c : UInt8) : c &&& 0xe0 = 0xc0 ↔ 0xC0 ≤ c.toNat ∧ c.toNat ≤ 0xDF := by
  revert c
  apply forall_byte
  decide +kernel

theorem lead3_mask (c : UInt8) : c &&& 0xf0 = 0xe0 ↔ 0xE0 ≤ c.toNat ∧ c.toNat ≤ 0xEF := by
  revert c
  apply forall_byte
  decide +kernel

theorem lead4_mask (c : UInt8) : c &&& 0xf8 = 0xf0 ↔ 0xF0 ≤ c.toNat ∧ c.toNat ≤ 0xF7 := by
  revert c
  apply forall_byte
  decide +kernel

theorem lead_cases {b : Nat} {st : Utf8.State} (h : Utf8.lead b = some st) :
    st = Utf8.start ∨ (0xC2 ≤ b ∧ b ≤ 0xDF ∧ st.owed = 1 ∨ 0xE0 ≤ b ∧ b ≤ 0xEF ∧ st.owed = 2 ∨
      0xF0 ≤ b ∧ b ≤ 0xF4 ∧ st.owed = 3) ∧ 0x80 ≤ st.lo ∧ st.hi ≤ 0xBF := by
  unfold Utf8.lead at h
  split at h
  · exact .inl (Option.some.inj h).symm
  · split at h
    · cases h
    · refine .inr ?_
      split at h
      · obtain rfl := Option.some.inj h
        exact ⟨.inl ⟨by omega, by omega, rfl⟩, Nat.le_refl _, Nat.le_refl _⟩
      · split at h
        · obtain rfl := Option.some.inj h
          refine ⟨.inr (.inl ⟨by omega, by omega, rfl⟩), ?_, ?_⟩
          · dsimp only
            split <;> omega
          · dsimp only
            split <;> omega
        · split at h
          · obtain rfl := Option.some.inj h
            refine ⟨.inr (.inr ⟨by omega, by omega, rfl⟩), ?_, ?_⟩
            · dsimp only
              split <;> omega
            · dsimp only
              split <;> omega
          · cases h

/-- What `IncompleteUnicode` makes of a first byte. -/
theorem incompleteFrom_lead {c : UInt8} {st : Utf8.State} (h : Utf8.lead c.toNat = some st)
    (owed : st.owed ≠ 0) {i : Nat} (hi : i < 5) (rest : Text) :
    incompleteFrom i (c :: rest) = decide (i < st.owed + 1) := by
  simp only [incompleteFrom, cont_mask, lead2_mask, lead3_mask, lead4_mask]
  rcases lead_cases h with rfl | ⟨⟨h1, h2, h3⟩ | ⟨h1, h2, h3⟩ | ⟨h1, h2, h3⟩, -⟩
  · exact absurd rfl owed
  · rw [if_neg (by omega), if_neg (by omega), if_pos (by omega), h3]
  · rw [if_neg (by omega), if_neg (by omega), if_neg (by omega), if_pos (by omega), h3]
  · rw [if_neg (by omega), if_neg (by omega), if_neg (by omega), if_neg (by omega),
      if_pos (by omega), h3]

theorem incompleteFrom_conts {conts rest : Text} {i : Nat}
    (h : ∀ c ∈ conts, 0x80 ≤ c.toNat ∧ c.toNat ≤ 0xBF) (hi : i + conts.length ≤ 5) :
    incompleteFrom i (conts ++ rest) = incompleteFrom (i + conts.length) rest := by
  induction conts generalizing i with
  | nil => rfl
  | cons c conts ih =>
    rw [List.length_cons] at hi ⊢
    rw [List.cons_append, incompleteFrom, if_neg (by omega),
      if_pos ((cont_mask c).mpr (h c (by simp))), ih (fun c hc => h c (by simp [hc])) (by omega)]
    congr 1
    omega

/-- The beginning of a character at the end of a string. -/
structure Unfinished (s : Text) (st : Utf8.State) (before : Text) (c : UInt8) (conts : Text) :
    Prop where
  eq : s = before ++ c :: conts
  cont : ∀ b ∈ conts, 0x80 ≤ b.toNat ∧ b.toNat ≤ 0xBF
  lead : ∃ first, Utf8.lead c.toNat = some first ∧ first.owed = conts.length + st.owed
  owed : st.owed ≠ 0
  range : 0x80 ≤ st.lo ∧ st.hi ≤ 0xBF

theorem unfinished_of_run {s : Text} {st : Utf8.State} (h : Utf8.run Utf8.start s = some st) :
    st = Utf8.start ∨ ∃ before c conts, Unfinished s st before c conts := by
  induction s using List.reverseRecOn generalizing st with
  | nil => exact .inl (Option.some.inj h).symm
  | append_singleton s b ih =>
    rw [Utf8.run_snoc, Option.bind_eq_some_iff] at h
    obtain ⟨st', hst', hstep⟩ := h
    rcases ih hst' with rfl | ⟨before, c, conts, old⟩
    · -- a new character
      have hlead : Utf8.lead b.toNat = some st := hstep
      rcases lead_cases hlead with h | ⟨hlen, hrange⟩
      · exact .inl h
      · exact .inr ⟨s, b, [], rfl, by simp, ⟨st, hlead, by simp⟩, by omega, hrange⟩
    · rw [Utf8.step, if_neg old.owed] at hstep
      split at hstep
      · rename_i hb
        obtain rfl := Option.some.inj hstep
        by_cases hlast : st'.owed - 1 = 0
        · rw [hlast]
          exact .inl rfl
        · refine .inr ⟨before, c, conts ++ [b], ?_, ?_, ?_, hlast, Nat.le_refl _, Nat.le_refl _⟩
          · rw [old.eq, List.append_assoc, List.cons_append]
          · intro x hx
            rcases List.mem_append.mp hx with hx | hx
            · exact old.cont x hx
            · obtain rfl := List.mem_singleton.mp hx
              exact ⟨old.range.1.trans hb.1, hb.2.trans old.range.2⟩
          · obtain ⟨first, hfirst, hlen⟩ := old.lead
            refine ⟨first, hfirst, ?_⟩
            rw [hlen, List.length_append, List.length_singleton]
            have := old.owed
            dsimp only
            omega
      · cases hstep

/-- Text that is not held back as incomplete consists of whole characters. -/
theorem utf8Valid_of_complete {s : Text} (text : IsText s) (h : incompleteUnicode s = false) :
    utf8Valid s := by
  obtain ⟨st, hst⟩ := Option.isSome_iff_exists.mp text
  rcases unfinished_of_run hst with rfl | ⟨before, c, conts, un⟩
  · exact utf8Valid_iff.mpr hst
  · exfalso
    obtain ⟨first, hfirst, hlen⟩ := un.lead
    have howed := un.owed
    have hfirst3 : first.owed ≤ 3 := by
      rcases lead_cases hfirst with rfl | h
      · exact Nat.zero_le _
      · omega
    have hrev : s.reverse = conts.reverse ++ c :: before.reverse := by
      rw [un.eq, List.reverse_append, List.reverse_cons, List.append_assoc]
      rfl
    have hlen' : conts.reverse.length = conts.length := List.length_reverse
    rw [incompleteUnicode, hrev, incompleteFrom_conts (by simpa using un.cont) (by omega),
      incompleteFrom_lead hfirst (by omega) (by omega), hlen', decide_eq_false_iff_not] at h
    omega

end Ecco9.Runner
