import Ecco9.Library.Decimal
import Ecco9.Library.JsonText
import Mathlib.Algebra.Order.Floor.Ring
import Mathlib.Data.Rat.Floor
import Mathlib.Tactic.Linarith
import Mathlib.Tactic.NormNum

/-! The durations of `api/types.go`, as JSON reads and writes them. -/

namespace Ecco9.Api

open Ecco9.Library

/-- What `encoding/json` decodes into an `any`. A number is the value of its `float64`, which is finite;
of all else there is the type. -/
inductive Any
  | number (t : ℚ)
  | string (s : Text)
  | other (type : Text)

/-- What `encoding/json`, `time` and the machine do. -/
structure Codec where
  unmarshal : Text → Except Text Any
  /-- `Duration.String` -/
  string : Int64 → Text
  parseDuration : Text → Except Text Int64
  /-- `int(t)` of a `float64` -/
  int : ℚ → Int64

def second : Int64 := 1000000000

def minute : Int64 := 60 * second

namespace Codec

def marshalJSON (c : Codec) (d : Int64) : Text :=
  if d < 0 then ascii "-1" else quoted (c.string d)

/-- The duration after the call, and the error if there is one. -/
def unmarshalJSON (c : Codec) (d : Int64) (b : Text) : Int64 × Option Text :=
  match c.unmarshal b with
  | .error err => (d, some err)
  | .ok (.number t) => if t < 0 then (Int64.maxValue, none) else (c.int t * second, none)
  | .ok (.string t) =>
    match c.parseDuration t with
    | .error err => (0, some err)
    | .ok d => if d < 0 then (Int64.maxValue, none) else (d, none)
  | .ok (.other type) => (5 * minute, some (ascii "Unsupported type: '" ++ type ++ ascii "'"))

/-- Between quotes it stands for itself. -/
def Plain (s : Text) : Prop := utf8Valid s ∧ ∀ c ∈ s, 0x20 ≤ c ∧ c ≠ 0x22 ∧ c ≠ 0x5C

/-- What the packages say of themselves, and that `ParseDuration` reads what `String` writes. -/
structure Documented (c : Codec) : Prop where
  quoted : ∀ s, Plain s → c.unmarshal (quoted s) = .ok (.string s)
  decimal : ∀ n : Nat, n < 9007199254740992 → c.unmarshal (decimal n) = .ok (.number n)
  plain : ∀ d, 0 ≤ d → Plain (c.string d)
  parse : ∀ d, 0 ≤ d → c.parseDuration (c.string d) = .ok d
  int : ∀ t : ℚ, 0 ≤ t → t < 9223372036854775808 → (c.int t).toInt = ⌊t⌋

/-- Up to `t` the numbers give durations that are not negative and grow with them. -/
def MonotoneTo (c : Codec) (t : ℚ) : Prop :=
  ∀ b₁ b₂ t₁ t₂, c.unmarshal b₁ = .ok (.number t₁) → c.unmarshal b₂ = .ok (.number t₂) →
    0 ≤ t₁ → t₁ ≤ t₂ → t₂ ≤ t → ∀ d, ∃ d₁ d₂, c.unmarshalJSON d b₁ = (d₁, none) ∧
      c.unmarshalJSON d b₂ = (d₂, none) ∧ 0 ≤ d₁ ∧ d₁ ≤ d₂

/-! ### Reading -/

section Reading

variable {c : Codec} {b : Text} {d : Int64} {t : ℚ}

theorem unmarshalJSON_number (h : c.unmarshal b = .ok (.number t)) (ht : 0 ≤ t) (d : Int64) :
    c.unmarshalJSON d b = (c.int t * second, none) := by
  rw [unmarshalJSON, h]
  exact if_neg (not_lt.mpr ht)

theorem Documented.roundTrip (doc : c.Documented) (old : Int64) (hd : 0 ≤ d) :
    c.unmarshalJSON old (c.marshalJSON d) = (d, none) := by
  have hneg : ¬d < 0 := Int64.not_lt.mpr hd
  rw [marshalJSON, if_neg hneg, unmarshalJSON, doc.quoted _ (doc.plain d hd)]
  dsimp only
  rw [doc.parse d hd]
  exact if_neg hneg

/-- No more seconds than this fit into a duration. -/
theorem Documented.toInt_seconds (doc : c.Documented) (hpos : 0 ≤ t) (ht : t < 9223372037) :
    (c.int t * second).toInt = ⌊t⌋ * 1000000000 := by
  have hfloor : 0 ≤ ⌊t⌋ := Int.floor_nonneg.mpr hpos
  have hlt : ⌊t⌋ < 9223372037 := Int.floor_lt.mpr (by exact_mod_cast ht)
  rw [Int64.toInt_mul, doc.int t hpos (by linarith)]
  have hsecond : second.toInt = 1000000000 := by decide
  rw [hsecond]
  exact Int.bmod_eq_of_le (by omega) (by omega)

theorem Documented.seconds_overflow (doc : c.Documented) : c.int 9223372037 * second < 0 := by
  rw [Int64.lt_iff_toInt_lt, Int64.toInt_mul, doc.int _ (by norm_num) (by norm_num)]
  have hfloor : ⌊(9223372037 : ℚ)⌋ = 9223372037 := Int.floor_ofNat 9223372037
  rw [hfloor]
  decide

theorem Documented.monotoneTo (doc : c.Documented) (hpos : 0 ≤ t) : c.MonotoneTo t ↔ t < 9223372037 := by
  constructor
  · intro hmono
    by_contra hge
    have hread : c.unmarshal (Library.decimal 9223372037) = .ok (.number 9223372037) :=
      doc.decimal 9223372037 (by norm_num)
    obtain ⟨d₁, d₂, hd₁, -, hd, -⟩ :=
      hmono _ _ _ _ hread hread (by norm_num) le_rfl (not_lt.mp hge) 0
    rw [unmarshalJSON_number hread (by norm_num), Prod.mk.injEq] at hd₁
    rw [← hd₁.1] at hd
    exact Int64.not_lt.mpr hd doc.seconds_overflow
  · intro hlt b₁ b₂ t₁ t₂ h₁ h₂ hpos₁ hle hle₂ d
    have hsecond : (0 : ℤ) ≤ 1000000000 := by norm_num
    refine ⟨_, _, unmarshalJSON_number h₁ hpos₁ d, unmarshalJSON_number h₂ (hpos₁.trans hle) d, ?_, ?_⟩
    · rw [Int64.le_iff_toInt_le, doc.toInt_seconds hpos₁ (by linarith), Int64.toInt_zero]
      exact Int.mul_nonneg (Int.floor_nonneg.mpr hpos₁) hsecond
    · rw [Int64.le_iff_toInt_le, doc.toInt_seconds hpos₁ (by linarith),
        doc.toInt_seconds (hpos₁.trans hle) (by linarith)]
      exact Int.mul_le_mul_of_nonneg_right (Int.floor_le_floor hle) hsecond

end Reading

/-- What is written is read again, and the numbers are read in their order as long as their seconds fit
into 64 bits. -/
theorem duration_json (c : Codec) (doc : c.Documented) :
    (∀ old d : Int64, 0 ≤ d → c.unmarshalJSON old (c.marshalJSON d) = (d, none)) ∧
      ∀ t : ℚ, 0 ≤ t → (c.MonotoneTo t ↔ t < 9223372037) :=
  ⟨fun old _ hd => doc.roundTrip old hd, fun _ ht => doc.monotoneTo ht⟩

/-! ### Durations in nanoseconds -/

def digits (s : Text) : Nat := Nat.ofDigitChars 10 (s.map fun b => Char.ofNat b.toNat) 0

theorem digits_decimal (n : Nat) : digits (Library.decimal n) = n := by
  rw [digits, chars_decimal, Nat.ofDigitChars_ten_toDigits]

/-- Strings without escapes, numbers without sign and fraction, and durations below a microsecond. -/
def nanoseconds : Codec where
  unmarshal
    | 0x22 :: s => .ok (.string s.dropLast)
    | s => .ok (.number (digits s))
  string d := Library.decimal d.toInt.toNat ++ ascii "ns"
  parseDuration s := .ok (Int64.ofNat (digits s.dropLast.dropLast))
  int t := Int64.ofInt ⌊t⌋

theorem nanoseconds_documented : nanoseconds.Documented where
  quoted s _ := congrArg (fun t => Except.ok (Any.string t)) List.dropLast_concat
  decimal n _ := by
    have hnumber : nanoseconds.unmarshal (Library.decimal n) =
        .ok (.number (digits (Library.decimal n))) := by
      unfold nanoseconds
      dsimp only
      split
      · rename_i s heq
        have hdigit := isDigit_of_mem_decimal (heq ▸ List.mem_cons_self)
        exact absurd hdigit.1 (by decide)
      · rfl
    rw [hnumber, digits_decimal]
  plain d _ := by
    have hbyte : ∀ b ∈ Library.decimal d.toInt.toNat ++ ascii "ns",
        0x20 ≤ b.toNat ∧ b.toNat < 0x80 ∧ b.toNat ≠ 0x22 ∧ b.toNat ≠ 0x5C := by
      intro b hb
      rcases List.mem_append.mp hb with hb | hb
      · obtain ⟨hlow, hhigh⟩ := isDigit_of_mem_decimal hb
        omega
      · have hns : b = 110 ∨ b = 115 := by simpa [ascii] using hb
        rcases hns with rfl | rfl <;> decide
    refine ⟨utf8Valid_low fun b hb => (hbyte b hb).2.1, fun b hb => ?_⟩
    obtain ⟨hlow, -, hquote, hslash⟩ := hbyte b hb
    refine ⟨UInt8.le_iff_toNat_le.mpr hlow, ?_, ?_⟩
    · rintro rfl
      exact hquote rfl
    · rintro rfl
      exact hslash rfl
  parse d hd := by
    have hdrop : (Library.decimal d.toInt.toNat ++ ascii "ns").dropLast.dropLast =
        Library.decimal d.toInt.toNat := by
      rw [show ascii "ns" = [110] ++ [115] from rfl, ← List.append_assoc, List.dropLast_concat,
        List.dropLast_concat]
    have hnat : (d.toInt.toNat : ℤ) = d.toInt := Int.toNat_of_nonneg (by
      rwa [Int64.le_iff_toInt_le, Int64.toInt_zero] at hd)
    change Except.ok (Int64.ofNat (digits
      (Library.decimal d.toInt.toNat ++ ascii "ns").dropLast.dropLast)) = Except.ok d
    rw [hdrop, digits_decimal, ← Int64.ofInt_eq_ofNat, hnat, Int64.ofInt_toInt]
  int t hpos ht := by
    have hfloor : 0 ≤ ⌊t⌋ := Int.floor_nonneg.mpr hpos
    have hlt : ⌊t⌋ < 9223372036854775808 := Int.floor_lt.mpr (by exact_mod_cast ht)
    exact Int64.toInt_ofInt_of_le (by omega) (by omega)

theorem nanoseconds_json : nanoseconds.unmarshalJSON 0 (nanoseconds.marshalJSON 500) = (500, none) ∧
    (nanoseconds.MonotoneTo 300 ↔ (300 : ℚ) < 9223372037) :=
  have ⟨hround, hmono⟩ := duration_json nanoseconds nanoseconds_documented
  ⟨hround 0 500 (by decide), hmono 300 (by norm_num)⟩

/-- A number of seconds is read as a duration that is over already. -/
theorem seconds_negative : ¬∀ c : Codec, c.Documented → ∀ b t, c.unmarshal b = .ok (.number t) →
    0 ≤ t → ∀ d, 0 ≤ (c.unmarshalJSON d b).1 := by
  intro h
  have hread := nanoseconds_documented.decimal 9223372037 (by norm_num)
  have hpos := h nanoseconds nanoseconds_documented _ _ hread (by norm_num) 0
  rw [unmarshalJSON_number hread (by norm_num)] at hpos
  exact Int64.not_lt.mpr hpos nanoseconds_documented.seconds_overflow

end Codec

end Ecco9.Api
