import Ecco9.Library.Utf8

/-! The characters of a byte string, each as the bytes it is written with. A byte that belongs to no
character stands for the replacement character. -/

namespace Ecco9.Library

/-- U+FFFD. -/
def replacement : Text := [0xEF, 0xBF, 0xBD]

/-- The length of the character that a string starts with. -/
def charWidth : Text → Option Nat
  | [] => none
  | b :: s =>
    match Utf8.lead b.toNat with
    | none => none
    | some st =>
      if utf8Valid ((b :: s).take (st.owed + 1)) then some (st.owed + 1) else none

def charsFrom : Nat → Text → List Text
  | 0, _ => []
  | n + 1, s =>
    if s = [] then []
    else
      match charWidth s with
      | some w => s.take w :: charsFrom n (s.drop w)
      | none => replacement :: charsFrom n (s.drop 1)

/-- The characters of a string. -/
def chars (s : Text) : List Text := charsFrom s.length s

/-- The code point that a character stands for. -/
def runeValue : Text → Nat
  | [b₀] => b₀.toNat
  | [b₀, b₁] => b₀.toNat % 32 * 64 + b₁.toNat % 64
  | [b₀, b₁, b₂] => b₀.toNat % 16 * 4096 + b₁.toNat % 64 * 64 + b₂.toNat % 64
  | [b₀, b₁, b₂, b₃] =>
    b₀.toNat % 8 * 262144 + b₁.toNat % 64 * 4096 + b₂.toNat % 64 * 64 + b₃.toNat % 64
  | _ => 0

/-- The code points of a string. -/
def runes (s : Text) : List Nat := (chars s).map runeValue

/-- The bytes of a code point. -/
def encodeRune (r : Nat) : Text :=
  if r < 0x80 then [UInt8.ofNat r]
  else if r < 0x800 then [UInt8.ofNat (0xC0 + r / 64), UInt8.ofNat (0x80 + r % 64)]
  else if r < 0x10000 then
    [UInt8.ofNat (0xE0 + r / 4096), UInt8.ofNat (0x80 + r / 64 % 64), UInt8.ofNat (0x80 + r % 64)]
  else
    [UInt8.ofNat (0xF0 + r / 262144), UInt8.ofNat (0x80 + r / 4096 % 64),
      UInt8.ofNat (0x80 + r / 64 % 64), UInt8.ofNat (0x80 + r % 64)]

/-- One whole character. -/
def IsChar (c : Text) : Prop := charWidth c = some c.length

instance (c : Text) : Decidable (IsChar c) :=
  inferInstanceAs (Decidable (charWidth c = some c.length))

/-! ### One character -/

theorem charWidth_pos {s : Text} {w : Nat} (h : charWidth s = some w) : 0 < w := by
  cases s with
  | nil => cases h
  | cons b s =>
    rw [charWidth] at h
    split at h
    · cases h
    · split_ifs at h
      cases h
      exact Nat.succ_pos _

theorem IsChar.ne_nil {c : Text} (h : IsChar c) : c ≠ [] := by
  rintro rfl
  cases h

theorem charWidth_append {c : Text} (h : IsChar c) (t : Text) :
    charWidth (c ++ t) = some c.length := by
  obtain ⟨b, c, rfl⟩ := List.exists_cons_of_ne_nil h.ne_nil
  rw [IsChar, charWidth] at h
  rw [List.cons_append, charWidth]
  cases hlead : Utf8.lead b.toNat with
  | none =>
    rw [hlead] at h
    cases h
  | some st =>
    rw [hlead] at h
    dsimp only at h ⊢
    split_ifs at h with hvalid
    have hlen := Option.some.inj h
    have htake : (b :: (c ++ t)).take (st.owed + 1) = (b :: c).take (st.owed + 1) := by
      rw [hlen, ← List.cons_append, List.take_left, List.take_length]
    rw [htake, if_pos hvalid, h]

theorem charsFrom_eq {n m : Nat} {s : Text} (hn : s.length ≤ n) (hm : s.length ≤ m) :
    charsFrom n s = charsFrom m s := by
  induction n generalizing m s with
  | zero =>
    obtain rfl := List.length_eq_zero_iff.mp (Nat.le_zero.mp hn)
    cases m <;> rfl
  | succ n ih =>
    cases m with
    | zero =>
      obtain rfl := List.length_eq_zero_iff.mp (Nat.le_zero.mp hm)
      rfl
    | succ m =>
      rw [charsFrom, charsFrom]
      split_ifs with hs
      · rfl
      · have hpos := List.length_pos_iff.mpr hs
        split
        · rename_i w hw
          have := charWidth_pos hw
          rw [ih (m := m) (by rw [List.length_drop]; omega) (by rw [List.length_drop]; omega)]
        · rw [ih (m := m) (by rw [List.length_drop]; omega) (by rw [List.length_drop]; omega)]

@[simp] theorem chars_nil : chars [] = [] := rfl

theorem chars_of_width {s : Text} {w : Nat} (h : charWidth s = some w) :
    chars s = s.take w :: chars (s.drop w) := by
  cases s with
  | nil => cases h
  | cons b s =>
    have hpos := charWidth_pos h
    rw [chars, List.length_cons, charsFrom, if_neg (List.cons_ne_nil b s), h, chars]
    dsimp only
    rw [charsFrom_eq (m := ((b :: s).drop w).length) _ (Nat.le_refl _)]
    rw [List.length_drop, List.length_cons]
    omega

theorem chars_of_none {b : UInt8} {s : Text} (h : charWidth (b :: s) = none) :
    chars (b :: s) = replacement :: chars s := by
  rw [chars, List.length_cons, charsFrom, if_neg (List.cons_ne_nil b s), h, chars]
  rfl

theorem chars_append {c : Text} (h : IsChar c) (t : Text) : chars (c ++ t) = c :: chars t := by
  rw [chars_of_width (charWidth_append h t), List.take_left, List.drop_left]

/-- A string is made of its characters. -/
theorem chars_flatten {cs : List Text} (h : ∀ c ∈ cs, IsChar c) : chars cs.flatten = cs := by
  induction cs with
  | nil => rfl
  | cons c cs ih =>
    rw [List.flatten_cons, chars_append (h c (by simp)), ih fun d hd => h d (by simp [hd])]

/-! ### Strings of whole characters -/

theorem Utf8.run_owed {st : Utf8.State} {s : Text} (h : Utf8.run st s = some Utf8.start)
    (howed : st.owed = 0 → st = Utf8.start) :
    Utf8.run st (s.take st.owed) = some Utf8.start ∧
      Utf8.run Utf8.start (s.drop st.owed) = some Utf8.start ∧ st.owed ≤ s.length := by
  induction hn : st.owed generalizing st s with
  | zero =>
    obtain rfl := howed hn
    exact ⟨rfl, h, Nat.zero_le _⟩
  | succ n ih =>
    cases s with
    | nil =>
      obtain rfl := Option.some.inj h
      cases hn
    | cons b s =>
      rw [Utf8.run] at h
      obtain ⟨st', hstep, hrun⟩ := Option.bind_eq_some_iff.mp h
      have hst' : st'.owed = n ∧ (st'.owed = 0 → st' = Utf8.start) := by
        rw [Utf8.step, if_neg (by omega)] at hstep
        split_ifs at hstep
        obtain rfl := Option.some.inj hstep
        refine ⟨by dsimp only; omega, ?_⟩
        intro hzero
        dsimp only at hzero
        rw [hzero]
        rfl
      obtain ⟨htake, hdrop, hlen⟩ := ih hrun hst'.2 hst'.1
      rw [List.take_succ_cons, List.drop_succ_cons, List.length_cons, Utf8.run, hstep,
        Option.bind_some]
      exact ⟨htake, hdrop, Nat.succ_le_succ hlen⟩

theorem Utf8.lead_owed {b : UInt8} {st : Utf8.State} (h : Utf8.lead b.toNat = some st)
    (hzero : st.owed = 0) : st = Utf8.start := by
  have hfirst : Utf8.run Utf8.start [b] = some st := by
    rw [Utf8.run, Utf8.step, if_pos (by rfl), h]
    rfl
  exact (Utf8.run_state hfirst).resolve_right fun h => h.1 hzero

theorem charWidth_le {s : Text} {w : Nat} (h : charWidth s = some w) : w ≤ s.length := by
  cases s with
  | nil => cases h
  | cons b s =>
    rw [charWidth] at h
    cases hlead : Utf8.lead b.toNat with
    | none =>
      rw [hlead] at h
      cases h
    | some st =>
      rw [hlead] at h
      dsimp only at h
      split_ifs at h with hvalid
      rw [List.take_succ_cons, utf8Valid_iff, Utf8.run, Utf8.step, if_pos (by rfl), hlead,
        Option.bind_some] at hvalid
      obtain ⟨-, -, hlen⟩ := Utf8.run_owed hvalid (Utf8.lead_owed hlead)
      rw [List.length_take] at hlen
      have := Option.some.inj h
      rw [List.length_cons]
      omega

theorem charWidth_of_valid {s : Text} (h : utf8Valid s) (hs : s ≠ []) :
    ∃ w, charWidth s = some w ∧ w ≤ s.length ∧ utf8Valid (s.drop w) := by
  obtain ⟨b, s, rfl⟩ := List.exists_cons_of_ne_nil hs
  have hrun := utf8Valid_iff.mp h
  rw [Utf8.run, Utf8.step, if_pos (by rfl)] at hrun
  obtain ⟨st, hlead, hrun⟩ := Option.bind_eq_some_iff.mp hrun
  obtain ⟨htake, hdrop, hlen⟩ := Utf8.run_owed hrun (Utf8.lead_owed hlead)
  refine ⟨st.owed + 1, ?_, Nat.succ_le_succ hlen, ?_⟩
  · have hvalid : utf8Valid ((b :: s).take (st.owed + 1)) := by
      rw [List.take_succ_cons, utf8Valid_iff, Utf8.run, Utf8.step, if_pos (by rfl), hlead,
        Option.bind_some, htake]
    rw [charWidth, hlead]
    dsimp only
    rw [if_pos hvalid]
  · rw [List.drop_succ_cons]
    exact utf8Valid_iff.mpr hdrop

/-- What a valid string is made of. -/
theorem flatten_chars {s : Text} (h : utf8Valid s) : (chars s).flatten = s := by
  induction hn : s.length using Nat.strongRecOn generalizing s with
  | ind n ih =>
    by_cases hs : s = []
    · rw [hs]
      rfl
    · obtain ⟨w, hw, hle, hvalid⟩ := charWidth_of_valid h hs
      have hpos := charWidth_pos hw
      rw [chars_of_width hw, List.flatten_cons,
        ih (s.drop w).length (by rw [List.length_drop]; omega) hvalid rfl, List.take_append_drop]

theorem chars_ne_nil {s : Text} : ∀ c ∈ chars s, c ≠ [] := by
  induction hn : s.length using Nat.strongRecOn generalizing s with
  | ind n ih =>
    cases s with
    | nil => simp
    | cons b s =>
      intro c hc
      cases hw : charWidth (b :: s) with
      | none =>
        rw [chars_of_none hw] at hc
        rcases List.mem_cons.mp hc with rfl | hc
        · decide
        · exact ih s.length (by rw [← hn]; simp) rfl c hc
      | some w =>
        have hpos := charWidth_pos hw
        rw [chars_of_width hw] at hc
        rcases List.mem_cons.mp hc with rfl | hc
        · rw [Ne, List.take_eq_nil_iff]
          rintro (hzero | hnil)
          · omega
          · cases hnil
        · exact ih _ (by rw [← hn, List.length_drop, List.length_cons]; omega) rfl c hc

end Ecco9.Library
