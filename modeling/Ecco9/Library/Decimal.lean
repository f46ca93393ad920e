import Ecco9.Library.Utf8
import Mathlib.Data.List.Basic

/-! Numbers in decimal digits, and texts in which they stand; the floating-point number at the front of a
text, as `fmt` takes it to have it converted. -/

namespace Ecco9.Library

section

/-- `%d` of a number that is not negative -/
def decimal (n : Nat) : Text := (Nat.toDigits 10 n).map fun c => c.toNat.toUInt8

theorem utf8Valid_low {s : Text} (h : ∀ b ∈ s, b.toNat < 0x80) : utf8Valid s := by
  induction s with
  | nil => rfl
  | cons b s ih =>
    obtain ⟨hb, hs⟩ := List.forall_mem_cons.mp h
    have hchar : utf8Valid [b] := by
      rw [utf8Valid_iff, Utf8.run, Utf8.step, if_pos (by rfl), Utf8.lead, if_pos hb]
      rfl
    rw [← List.singleton_append, utf8Valid_append hchar]
    exact ih hs

def IsDigit (b : UInt8) : Prop := 48 ≤ b.toNat ∧ b.toNat ≤ 57

theorem char_digit {n : Nat} {c : Char} (h : c ∈ Nat.toDigits 10 n) :
    48 ≤ c.toNat ∧ c.toNat ≤ 57 := by
  have hdigit := Nat.isDigit_of_mem_toDigits (by decide) (Nat.le_refl 10) h
  rw [Char.isDigit, Bool.and_eq_true, decide_eq_true_eq, decide_eq_true_eq] at hdigit
  exact hdigit

theorem isDigit_of_mem_decimal {n : Nat} {b : UInt8} (h : b ∈ decimal n) : IsDigit b := by
  obtain ⟨c, hc, rfl⟩ := List.mem_map.mp h
  have hdigit := char_digit hc
  have hbyte : c.toNat.toUInt8.toNat = c.toNat := Nat.mod_eq_of_lt (by omega)
  rw [IsDigit, hbyte]
  exact hdigit

theorem chars_decimal (n : Nat) :
    (decimal n).map (fun b => Char.ofNat b.toNat) = Nat.toDigits 10 n := by
  rw [decimal, List.map_map]
  refine (List.map_congr_left fun c hc => ?_).trans (List.map_id _)
  have hdigit := char_digit hc
  have hbyte : c.toNat.toUInt8.toNat = c.toNat := Nat.mod_eq_of_lt (by omega)
  rw [Function.comp_apply, hbyte, Char.ofNat_toNat, id]

theorem decimal_injective {a b : Nat} (h : decimal a = decimal b) : a = b := by
  rw [← Nat.ofDigitChars_ten_toDigits (n := a), ← chars_decimal, h, chars_decimal,
    Nat.ofDigitChars_ten_toDigits]

/-- Where a number ends at a byte that is no digit, the number and what follows are known. -/
theorem append_stop_inj {p : UInt8 → Prop} {a b s t : Text} {c : UInt8} (ha : ∀ x ∈ a, p x)
    (hb : ∀ x ∈ b, p x) (hc : ¬p c) (h : a ++ c :: s = b ++ c :: t) : a = b ∧ s = t := by
  induction a generalizing b with
  | nil =>
    cases b with
    | nil => exact ⟨rfl, List.tail_eq_of_cons_eq h⟩
    | cons x b =>
      have : c = x := List.head_eq_of_cons_eq h
      exact absurd (hb x List.mem_cons_self) (this ▸ hc)
  | cons x a ih =>
    cases b with
    | nil =>
      have : x = c := List.head_eq_of_cons_eq h
      exact absurd (ha x List.mem_cons_self) (this ▸ hc)
    | cons y b =>
      obtain ⟨rfl, htail⟩ := List.cons.inj h
      obtain ⟨rfl, rfl⟩ := ih (fun z hz => ha z (List.mem_cons_of_mem _ hz))
        (fun z hz => hb z (List.mem_cons_of_mem _ hz)) htail
      exact ⟨rfl, rfl⟩

theorem decimal_append_inj {a b : Nat} {s t : Text} {c : UInt8} (hc : ¬IsDigit c)
    (h : decimal a ++ c :: s = decimal b ++ c :: t) : a = b ∧ s = t := by
  obtain ⟨hnumber, hrest⟩ := append_stop_inj (fun _ => isDigit_of_mem_decimal)
    (fun _ => isDigit_of_mem_decimal) hc h
  exact ⟨decimal_injective hnumber, hrest⟩

theorem append_left_lt_iff (a : Text) {s t : Text} : a ++ s < a ++ t ↔ s < t := by
  induction a with
  | nil => rfl
  | cons x a ih => rw [List.cons_append, List.cons_append, List.cons_lt_cons_self, ih]

/-- Behind a byte that comes before those of both, what follows does not count for the order. -/
theorem append_lt_append {a b s t : Text} {c : UInt8} (ha : ∀ x ∈ a, c < x) (hb : ∀ x ∈ b, c < x)
    (hne : a ≠ b) : a ++ c :: s < b ++ c :: t ↔ a < b := by
  induction a generalizing b with
  | nil =>
    cases b with
    | nil => exact absurd rfl hne
    | cons y b =>
      simp [List.cons_lt_cons_iff, hb y List.mem_cons_self]
  | cons x a ih =>
    cases b with
    | nil =>
      have hx := ha x List.mem_cons_self
      have hnot : ¬ x < c := fun h => UInt8.lt_irrefl _ (UInt8.lt_trans h hx)
      have hne' : x ≠ c := fun h => UInt8.lt_irrefl _ (h ▸ hx)
      simp [List.cons_lt_cons_iff, hnot, hne']
    | cons y b =>
      by_cases hxy : x = y
      · subst hxy
        have hne' : a ≠ b := fun h => hne (h ▸ rfl)
        rw [List.cons_append, List.cons_append, List.cons_lt_cons_self, List.cons_lt_cons_self]
        exact ih (fun z hz => ha z (List.mem_cons_of_mem _ hz))
          (fun z hz => hb z (List.mem_cons_of_mem _ hz)) hne'
      · simp [List.cons_lt_cons_iff, hxy]

end

section

/-- What was taken of a text, and what is left of it. -/
structure Scanner where
  buf : Text
  rest : Text

namespace Scanner

/-- One of the characters, if it is next. -/
def accept (chars : Text) (s : Scanner) : Bool × Scanner :=
  match s.rest with
  | [] => (false, s)
  | b :: rest => if chars.contains b then (true, ⟨s.buf ++ [b], rest⟩) else (false, s)

/-- One after the other; what was taken before one is missing stays taken. -/
def acceptEach : List Text → Scanner → Bool × Scanner
  | [], s => (true, s)
  | chars :: more, s =>
    match s.accept chars with
    | (true, s) => acceptEach more s
    | (false, s) => (false, s)

def acceptRun (chars : Text) (s : Scanner) : Scanner :=
  ⟨s.buf ++ s.rest.takeWhile chars.contains, s.rest.dropWhile chars.contains⟩

end Scanner

/-- It need not be a number: that is for the conversion to see. -/
def floatToken (token : Text) : Text :=
  let (nan, s) := Scanner.acceptEach [ascii "nN", ascii "aA", ascii "nN"] ⟨[], token⟩
  if nan then s.buf else
  let (_, s) := s.accept (ascii "+-")
  let (inf, s) := s.acceptEach [ascii "iI", ascii "nN", ascii "fF"]
  if inf then s.buf else
  let (hex, s) := s.acceptEach [ascii "0", ascii "xX"]
  let digits := if hex then ascii "0123456789aAbBcCdDeEfF_" else ascii "0123456789_"
  let exp := if hex then ascii "pP" else ascii "eEpP"
  let s := s.acceptRun digits
  let (period, s) := s.accept (ascii ".")
  let s := if period then s.acceptRun digits else s
  let (exponent, s) := s.accept exp
  let s := if exponent then (s.accept (ascii "+-")).2.acceptRun (ascii "0123456789_") else s
  s.buf

example : floatToken (ascii "-1.5e3x") = ascii "-1.5e3" := by decide

/-- What a token may begin with for anything to be taken of it. -/
def floatStarts : Text := ascii "nN+-iI0123456789_.eEpP"

theorem accept_of_head {chars : Text} {b : UInt8} (h : chars.contains b = false) (s : Text) :
    Scanner.accept chars ⟨[], b :: s⟩ = (false, ⟨[], b :: s⟩) := by
  simp only [Scanner.accept, h, Bool.false_eq_true, if_false]

theorem floatToken_of_head {b : UInt8} (h : floatStarts.contains b = false) (s : Text) :
    floatToken (b :: s) = [] := by
  have hchars (chars : Text) (hsub : chars ⊆ floatStarts) : chars.contains b = false := by
    rw [← Bool.not_eq_true, List.contains_iff_mem] at h ⊢
    exact fun hb => h (hsub hb)
  have haccept (chars : Text) (hsub : chars ⊆ floatStarts) := accept_of_head (hchars chars hsub) s
  have hrun : (b :: s).takeWhile (ascii "0123456789_").contains = [] := by
    rw [List.takeWhile_cons, hchars _ (by decide)]
    rfl
  have hrest : (b :: s).dropWhile (ascii "0123456789_").contains = b :: s := by
    rw [List.dropWhile_cons, hchars _ (by decide)]
    rfl
  simp only [floatToken, Scanner.acceptEach, Scanner.acceptRun, haccept (ascii "nN") (by decide),
    haccept (ascii "+-") (by decide), haccept (ascii "iI") (by decide), haccept (ascii "0") (by decide),
    haccept (ascii ".") (by decide), haccept (ascii "eEpP") (by decide), hrun, hrest, Bool.false_eq_true,
    if_false, List.append_nil]

end

end Ecco9.Library
