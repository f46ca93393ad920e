import Ecco9.Library.Utf8
import Mathlib.Data.List.Infix

/-! White space in UTF-8 text. -/

namespace Ecco9.Library

/-- The white space characters, in UTF-8. -/
def spaces : List Text :=
  [[0x09], [0x0A], [0x0B], [0x0C], [0x0D], [0x20], [0xC2, 0x85], [0xC2, 0xA0], [0xE1, 0x9A, 0x80],
    [0xE2, 0x80, 0x80], [0xE2, 0x80, 0x81], [0xE2, 0x80, 0x82], [0xE2, 0x80, 0x83],
    [0xE2, 0x80, 0x84], [0xE2, 0x80, 0x85], [0xE2, 0x80, 0x86], [0xE2, 0x80, 0x87],
    [0xE2, 0x80, 0x88], [0xE2, 0x80, 0x89], [0xE2, 0x80, 0x8A], [0xE2, 0x80, 0xA8],
    [0xE2, 0x80, 0xA9], [0xE2, 0x80, 0xAF], [0xE2, 0x81, 0x9F], [0xE3, 0x80, 0x80]]

/-- The white space character that `s` starts with. -/
def leadingSpace (s : Text) : Option Text := spaces.find? fun w => w.isPrefixOf s

def trimLeftFrom : Nat → Text → Text
  | 0, s => s
  | n + 1, s =>
    match leadingSpace s with
    | none => s
    | some w => trimLeftFrom n (s.drop w.length)

/-- Without the white space it starts with. -/
def trimLeft (s : Text) : Text := trimLeftFrom s.length s

/-! ### Single characters -/

theorem spaces_ne_nil : ∀ w ∈ spaces, w ≠ [] := by decide

theorem spaces_valid : ∀ w ∈ spaces, utf8Valid w = true := by decide

theorem spaces_whole : ∀ w ∈ spaces, ∀ k < w.length, 0 < k → utf8Valid (w.take k) = false := by
  decide

theorem spaces_unique : ∀ w ∈ spaces, ∀ v ∈ spaces, w <+: v → w = v := by decide

theorem leadingSpace_eq_some {s w : Text} (h : leadingSpace s = some w) : w ∈ spaces ∧ w <+: s := by
  refine ⟨List.mem_of_find?_eq_some h, ?_⟩
  simpa only [List.isPrefixOf_iff_prefix] using List.find?_some h

theorem leadingSpace_eq_none {s : Text} : leadingSpace s = none ↔ ∀ w ∈ spaces, ¬w <+: s := by
  simp only [leadingSpace, List.find?_eq_none, List.isPrefixOf_iff_prefix]

@[simp] theorem leadingSpace_nil : leadingSpace [] = none := rfl

theorem leadingSpace_append {w : Text} (hw : w ∈ spaces) (s : Text) :
    leadingSpace (w ++ s) = some w := by
  cases h : leadingSpace (w ++ s) with
  | none => exact absurd (List.prefix_append ..) (leadingSpace_eq_none.mp h w hw)
  | some v =>
    obtain ⟨hv, hfront⟩ := leadingSpace_eq_some h
    rcases Nat.le_total v.length w.length with hle | hle
    · rw [spaces_unique v hv w hw (List.prefix_of_prefix_length_le hfront (List.prefix_append ..) hle)]
    · rw [spaces_unique w hw v hv (List.prefix_of_prefix_length_le (List.prefix_append ..) hfront hle)]

/-- Whole characters that do not begin with white space do not with more behind them. -/
theorem leadingSpace_extend {s : Text} (valid : utf8Valid s) (hs : s ≠ [])
    (h : leadingSpace s = none) (t : Text) : leadingSpace (s ++ t) = none := by
  rw [leadingSpace_eq_none] at h ⊢
  intro w hw hfront
  rcases Nat.lt_or_ge s.length w.length with hlt | hle
  · have hs' : s <+: w := List.prefix_of_prefix_length_le (List.prefix_append ..) hfront hlt.le
    have := spaces_whole w hw s.length hlt (List.length_pos_iff.mpr hs)
    rw [← List.prefix_iff_eq_take.mp hs', valid] at this
    cases this
  · exact h w hw (List.prefix_of_prefix_length_le hfront (List.prefix_append ..) hle)

/-! ### Trimming -/

theorem trimLeftFrom_append {w : Text} (hw : w ∈ spaces) (n : Nat) (s : Text) :
    trimLeftFrom (n + 1) (w ++ s) = trimLeftFrom n s := by
  rw [trimLeftFrom, leadingSpace_append hw]
  dsimp only
  rw [List.drop_left]

theorem trimLeftFrom_none {s : Text} (h : leadingSpace s = none) (n : Nat) :
    trimLeftFrom n s = s := by
  cases n with
  | zero => rfl
  | succ n => rw [trimLeftFrom, h]

theorem trimLeftFrom_eq {n m : Nat} {s : Text} (hn : s.length ≤ n) (hm : s.length ≤ m) :
    trimLeftFrom n s = trimLeftFrom m s := by
  induction n generalizing m s with
  | zero =>
    obtain rfl := List.length_eq_zero_iff.mp (Nat.le_zero.mp hn)
    rw [trimLeftFrom_none rfl, trimLeftFrom_none rfl]
  | succ n ih =>
    cases h : leadingSpace s with
    | none => rw [trimLeftFrom_none h, trimLeftFrom_none h]
    | some w =>
      obtain ⟨hw, r, rfl⟩ := leadingSpace_eq_some h
      have hpos := List.length_pos_iff.mpr (spaces_ne_nil w hw)
      rw [List.length_append] at hn hm
      cases m with
      | zero => omega
      | succ m =>
        rw [trimLeftFrom_append hw, trimLeftFrom_append hw]
        exact ih (by omega) (by omega)

@[simp] theorem trimLeft_nil : trimLeft [] = [] := rfl

theorem trimLeft_none {s : Text} (h : leadingSpace s = none) : trimLeft s = s :=
  trimLeftFrom_none h _

theorem trimLeft_space {w : Text} (hw : w ∈ spaces) (s : Text) :
    trimLeft (w ++ s) = trimLeft s := by
  have hpos := List.length_pos_iff.mpr (spaces_ne_nil w hw)
  have hlen : (w ++ s).length = w.length - 1 + s.length + 1 := by
    rw [List.length_append]
    omega
  rw [trimLeft, hlen, trimLeftFrom_append hw]
  exact trimLeftFrom_eq (by omega) (Nat.le_refl _)

/-- Text is white space in front of text that does not start with any. -/
theorem trim_induction {motive : Text → Prop}
    (none : ∀ s, leadingSpace s = none → motive s)
    (space : ∀ w ∈ spaces, ∀ s, motive s → motive (w ++ s)) (s : Text) : motive s := by
  induction hn : s.length using Nat.strong_induction_on generalizing s with
  | _ n ih =>
    cases h : leadingSpace s with
    | none => exact none s h
    | some w =>
      obtain ⟨hw, r, rfl⟩ := leadingSpace_eq_some h
      have hpos := List.length_pos_iff.mpr (spaces_ne_nil w hw)
      rw [List.length_append] at hn
      exact space w hw r (ih r.length (by omega) r rfl)

theorem leadingSpace_trimLeft (s : Text) : leadingSpace (trimLeft s) = none := by
  induction s using trim_induction with
  | none s h => rwa [trimLeft_none h]
  | space w hw s ih => rwa [trimLeft_space hw]

@[simp] theorem trimLeft_trimLeft (s : Text) : trimLeft (trimLeft s) = trimLeft s :=
  trimLeft_none (leadingSpace_trimLeft s)

theorem trimLeft_suffix (s : Text) : trimLeft s <:+ s := by
  induction s using trim_induction with
  | none s h => rw [trimLeft_none h]
  | space w hw s ih =>
    rw [trimLeft_space hw]
    exact ih.trans (List.suffix_append ..)

theorem trimLeft_front (s : Text) : ∃ l, l ++ trimLeft s = s ∧ trimLeft l = [] := by
  induction s using trim_induction with
  | none s hs => exact ⟨[], by rw [trimLeft_none hs]; rfl, rfl⟩
  | space w hw s ih =>
    obtain ⟨l, hl, hblank⟩ := ih
    exact ⟨w ++ l, by rw [trimLeft_space hw, List.append_assoc, hl], by rw [trimLeft_space hw, hblank]⟩

theorem trimLeft_blank {s : Text} (h : trimLeft s = []) (t : Text) :
    trimLeft (s ++ t) = trimLeft t := by
  induction s using trim_induction with
  | none s hs =>
    rw [trimLeft_none hs] at h
    rw [h, List.nil_append]
  | space w hw s ih =>
    rw [trimLeft_space hw] at h
    rw [List.append_assoc, trimLeft_space hw, ih h]

theorem utf8Valid_trimLeft {s : Text} (h : utf8Valid s) : utf8Valid (trimLeft s) := by
  induction s using trim_induction with
  | none s hs => rwa [trimLeft_none hs]
  | space w hw s ih =>
    rw [trimLeft_space hw]
    rw [utf8Valid_append (spaces_valid w hw)] at h
    exact ih h

theorem trimLeft_append {s : Text} (valid : utf8Valid s) (h : trimLeft s ≠ []) (t : Text) :
    trimLeft (s ++ t) = trimLeft s ++ t := by
  induction s using trim_induction with
  | none s hs =>
    rw [trimLeft_none hs] at h ⊢
    exact trimLeft_none (leadingSpace_extend valid h hs t)
  | space w hw s ih =>
    rw [trimLeft_space hw] at h ⊢
    rw [utf8Valid_append (spaces_valid w hw)] at valid
    rw [List.append_assoc, trimLeft_space hw, ih valid h]

end Ecco9.Library
