import Ecco9.Library.Utf8

/-! The trace context of `org/ecco9-sdk-go/middleware/tracing.go`, as its header writes it. -/

namespace Ecco9.Middleware

open Ecco9.Library

structure TraceContext where
  traceID : Text
  spanID : Text
  flags : Text
  deriving DecidableEq

/-- The byte `-`. -/
def dash : UInt8 := 45

/-- A digit or one of the letters from `a` to `f`. -/
def IsLowerHex (c : UInt8) : Prop := 48 ≤ c ∧ c ≤ 57 ∨ 97 ≤ c ∧ c ≤ 102

instance (c : UInt8) : Decidable (IsLowerHex c) := inferInstanceAs (Decidable (_ ∨ _))

def isLowerHex (s : Text) : Bool := s.all (IsLowerHex ·) && decide (s.length > 0)

namespace TraceContext

def valid (tc : TraceContext) : Bool :=
  tc.traceID.length = 32 && tc.spanID.length = 16 && tc.flags.length = 2

def traceparent (tc : TraceContext) : Text :=
  ascii "00-" ++ tc.traceID ++ ascii "-" ++ tc.spanID ++ ascii "-" ++ tc.flags

end TraceContext

def parseTraceparent (s : Text) : Option TraceContext :=
  if s.length ≠ 55 ∨ s[2]? ≠ some dash ∨ s[35]? ≠ some dash ∨ s[52]? ≠ some dash then none
  else
    let tc : TraceContext :=
      ⟨(s.take 35).drop 3, (s.take 52).drop 36, (s.take 55).drop 53⟩
    if !isLowerHex tc.traceID || !isLowerHex tc.spanID || !isLowerHex tc.flags then none else some tc

/-! ### What is parsed -/

/-- Every field is of lower-case hexadecimal digits. -/
def TraceContext.LowerHex (tc : TraceContext) : Prop :=
  ∀ c ∈ tc.traceID ++ tc.spanID ++ tc.flags, IsLowerHex c

instance (tc : TraceContext) : Decidable tc.LowerHex := inferInstanceAs (Decidable (∀ c ∈ _, _))

/-- The header of a context in a version. -/
def TraceContext.header (version : Text) (tc : TraceContext) : Text :=
  version ++ (dash :: tc.traceID ++ (dash :: tc.spanID ++ (dash :: tc.flags)))

section

variable {s : Text}

theorem take_succ_of_getElem? {i : Nat} {c : UInt8} (h : s[i]? = some c) :
    s.take (i + 1) = s.take i ++ [c] := by
  rw [List.take_add_one, h]
  rfl

theorem take_append_slice {i j : Nat} (h : i ≤ j) : s.take j = s.take i ++ (s.take j).drop i := by
  have split := List.take_append_drop i (s.take j)
  rwa [List.take_take, Nat.min_eq_left h, eq_comm] at split

/-- A text of the length of a header, cut at its three dashes. -/
theorem eq_header (len : s.length = 55) (h2 : s[2]? = some dash) (h35 : s[35]? = some dash)
    (h52 : s[52]? = some dash) : s = TraceContext.header (s.take 2)
      ⟨(s.take 35).drop 3, (s.take 52).drop 36, (s.take 55).drop 53⟩ := by
  calc s
      = s.take 55 := by rw [← len, List.take_length]
    _ = s.take 2 ++ [dash] ++ (s.take 35).drop 3 ++ [dash] ++ (s.take 52).drop 36 ++ [dash] ++
          (s.take 55).drop 53 := by
      rw [← take_succ_of_getElem? h2, ← take_append_slice (by decide), ← take_succ_of_getElem? h35,
        ← take_append_slice (by decide), ← take_succ_of_getElem? h52, ← take_append_slice (by decide)]
    _ = _ := by simp [TraceContext.header]

theorem isLowerHex_iff : isLowerHex s = true ↔ (∀ c ∈ s, IsLowerHex c) ∧ 0 < s.length := by
  simp [isLowerHex]

end

namespace TraceContext

variable {version : Text} {tc : TraceContext}

theorem valid_iff : tc.valid = true ↔
    tc.traceID.length = 32 ∧ tc.spanID.length = 16 ∧ tc.flags.length = 2 := by
  simp [valid, and_assoc]

theorem traceparent_eq (tc : TraceContext) : tc.traceparent = tc.header (ascii "00") := by
  have zeros : ascii "00-" = ascii "00" ++ [dash] := rfl
  have hyphen : ascii "-" = [dash] := rfl
  simp [traceparent, header, zeros, hyphen]

theorem getElem?_between (a : Text) (c : UInt8) (b : Text) {i : Nat} (hi : a.length = i) :
    (a ++ c :: b)[i]? = some c := by
  subst hi
  simp

/-- Where the dashes of a header stand. -/
theorem header_dashes (hversion : version.length = 2) (valid : tc.valid = true) :
    (tc.header version).length = 55 ∧ (tc.header version)[2]? = some dash ∧
      (tc.header version)[35]? = some dash ∧ (tc.header version)[52]? = some dash := by
  obtain ⟨htrace, hspan, hflags⟩ := valid_iff.mp valid
  refine ⟨by simp [header, hversion, htrace, hspan, hflags], getElem?_between version _ _ hversion,
    ?_, ?_⟩
  · have h := getElem?_between (version ++ dash :: tc.traceID) dash (tc.spanID ++ dash :: tc.flags)
      (i := 35) (by simp [hversion, htrace])
    simpa [header] using h
  · have h := getElem?_between (version ++ dash :: tc.traceID ++ dash :: tc.spanID) dash tc.flags
      (i := 52) (by simp [hversion, htrace, hspan])
    simpa [header] using h

theorem header_inj {version' : Text} {tc' : TraceContext} (hversion : version.length = version'.length)
    (valid : tc.valid = true) (valid' : tc'.valid = true)
    (h : tc.header version = tc'.header version') : version = version' ∧ tc = tc' := by
  obtain ⟨htrace, hspan, -⟩ := valid_iff.mp valid
  obtain ⟨htrace', hspan', -⟩ := valid_iff.mp valid'
  obtain ⟨hv, afterVersion⟩ := List.append_inj h hversion
  obtain ⟨trace, afterTrace⟩ :=
    List.append_inj (List.cons.inj afterVersion).2 (htrace.trans htrace'.symm)
  obtain ⟨span, afterSpan⟩ := List.append_inj (List.cons.inj afterTrace).2 (hspan.trans hspan'.symm)
  refine ⟨hv, ?_⟩
  cases tc
  cases tc'
  exact TraceContext.mk.injEq .. |>.mpr ⟨trace, span, (List.cons.inj afterSpan).2⟩

end TraceContext

/-- A header is parsed just when it is one of a context of lower-case digits, in any version. -/
theorem parseTraceparent_eq_some {s : Text} {tc : TraceContext} : parseTraceparent s = some tc ↔
    ∃ version, version.length = 2 ∧ s = tc.header version ∧ tc.valid = true ∧ tc.LowerHex := by
  constructor
  · intro h
    rw [parseTraceparent] at h
    split at h
    case isTrue => cases h
    case isFalse form =>
      simp only [not_or, not_not] at form
      obtain ⟨len, h2, h35, h52⟩ := form
      dsimp only at h
      split at h
      case isTrue => cases h
      case isFalse digits =>
        simp only [Bool.or_eq_true, Bool.not_eq_true', not_or, Bool.not_eq_false, isLowerHex_iff] at digits
        obtain ⟨⟨⟨htrace, -⟩, hspan, -⟩, hflags, -⟩ := digits
        obtain rfl := Option.some.inj h
        refine ⟨s.take 2, by simp [len], eq_header len h2 h35 h52,
          TraceContext.valid_iff.mpr (by simp [len]), ?_⟩
        simp only [TraceContext.LowerHex, List.mem_append]
        rintro c ((hc | hc) | hc)
        · exact htrace c hc
        · exact hspan c hc
        · exact hflags c hc
  · rintro ⟨version, hversion, rfl, valid, digits⟩
    obtain ⟨len, h2, h35, h52⟩ := TraceContext.header_dashes hversion valid
    have cut := eq_header len h2 h35 h52
    obtain ⟨-, same⟩ := TraceContext.header_inj (by simp [hversion, len]) valid
      (TraceContext.valid_iff.mpr (by simp [len])) cut
    obtain ⟨htrace, hspan, hflags⟩ := TraceContext.valid_iff.mp valid
    rw [parseTraceparent, if_neg, ← same, if_neg]
    rotate_left
    · rintro (h | h | h | h)
      exacts [h len, h h2, h h35, h h52]
    simp only [Bool.or_eq_true, Bool.not_eq_true', not_or, Bool.not_eq_false, isLowerHex_iff]
    refine ⟨⟨⟨fun c hc => digits c ?_, by omega⟩, fun c hc => digits c ?_, by omega⟩,
      fun c hc => digits c ?_, by omega⟩ <;> simp [hc]

/-- What is parsed is formatted as it was but for the version, which is not looked at. -/
theorem traceparent_round_trip :
    (∀ s, (parseTraceparent s).isSome ↔ ∃ version tc, version.length = 2 ∧
      s = TraceContext.header version tc ∧ tc.valid = true ∧ tc.LowerHex) ∧
    (∀ s tc, parseTraceparent s = some tc → tc.traceparent = ascii "00" ++ s.drop 2 ∧
      (tc.traceparent = s ↔ s.take 2 = ascii "00")) ∧
    ∀ tc : TraceContext, tc.valid = true → tc.LowerHex → parseTraceparent tc.traceparent = some tc := by
  refine ⟨fun s => ?_, fun s tc h => ?_, fun tc valid digits => ?_⟩
  · rw [Option.isSome_iff_exists]
    constructor
    · rintro ⟨tc, h⟩
      obtain ⟨version, h⟩ := parseTraceparent_eq_some.mp h
      exact ⟨version, tc, h⟩
    · rintro ⟨version, tc, h⟩
      exact ⟨tc, parseTraceparent_eq_some.mpr ⟨version, h⟩⟩
  · obtain ⟨version, hversion, rfl, -⟩ := parseTraceparent_eq_some.mp h
    rw [tc.traceparent_eq, TraceContext.header, TraceContext.header, ← hversion, List.drop_left,
      List.take_left]
    refine ⟨rfl, ?_⟩
    rw [List.append_left_inj]
    exact eq_comm
  · exact parseTraceparent_eq_some.mpr ⟨ascii "00", rfl, tc.traceparent_eq, valid, digits⟩

/-- A header of version 1 is parsed, and is formatted as one of version 0. -/
theorem version_dropped : ∃ s tc, parseTraceparent s = some tc ∧ s.take 2 = ascii "01" ∧
    tc.traceparent ≠ s :=
  ⟨ascii "01-0123456789abcdef0123456789abcdef-0123456789abcdef-01",
    ⟨ascii "0123456789abcdef0123456789abcdef", ascii "0123456789abcdef", ascii "01"⟩, by decide +kernel⟩

end Ecco9.Middleware
