import Mathlib.Data.List.Basic
import Mathlib.Data.List.Induction

/-! UTF-8 as an automaton over bytes: which sequences are valid, and which are the beginning of a
valid one. -/

namespace Ecco9.Library

abbrev Text := List UInt8

/-- The bytes of a string of ASCII characters. -/
def ascii (s : String) : Text := s.toList.map fun c => c.toNat.toUInt8

namespace Utf8

/-- How many continuation bytes are owed, and the range the next of them must lie in. -/
structure State where
  owed : Nat
  lo : Nat
  hi : Nat
  deriving DecidableEq

def start : State := ⟨0, 0x80, 0xBF⟩

/-- The state after the first byte of a character. -/
def lead (b : Nat) : Option State :=
  if b < 0x80 then some start
  else if b < 0xC2 then none
  else if b < 0xE0 then some ⟨1, 0x80, 0xBF⟩
  else if b < 0xF0 then
    some ⟨2, if b = 0xE0 then 0xA0 else 0x80, if b = 0xED then 0x9F else 0xBF⟩
  else if b < 0xF5 then
    some ⟨3, if b = 0xF0 then 0x90 else 0x80, if b = 0xF4 then 0x8F else 0xBF⟩
  else none

def step (st : State) (b : UInt8) : Option State :=
  if st.owed = 0 then lead b.toNat
  else if st.lo ≤ b.toNat ∧ b.toNat ≤ st.hi then some ⟨st.owed - 1, 0x80, 0xBF⟩
  else none

def run : State → Text → Option State
  | st, [] => some st
  | st, b :: s => (step st b).bind (run · s)

end Utf8

/-- Whether a string consists of whole characters. -/
def utf8Valid (s : Text) : Bool := decide (Utf8.run Utf8.start s = some Utf8.start)

/-- The string is valid so far: whole characters, and at most the beginning of another. -/
def IsText (s : Text) : Prop := (Utf8.run Utf8.start s).isSome

instance (s : Text) : Decidable (IsText s) :=
  inferInstanceAs (Decidable ((Utf8.run Utf8.start s).isSome = true))

/-- The longest prefix of `s` of at most `n` bytes that is valid. -/
def cutTo (s : Text) : Nat → Text
  | 0 => []
  | n + 1 => if utf8Valid (s.take (n + 1)) then s.take (n + 1) else cutTo s n

def cutBack (s : Text) : Text := cutTo s s.length

namespace Utf8

theorem run_append (st : State) (s t : Text) :
    run st (s ++ t) = (run st s).bind (run · t) := by
  induction s generalizing st with
  | nil => rfl
  | cons b s ih =>
    rw [List.cons_append, run, run]
    cases step st b with
    | none => rfl
    | some st' => exact ih st'

theorem run_snoc (st : State) (s : Text) (b : UInt8) :
    run st (s ++ [b]) = (run st s).bind (step · b) := by
  rw [run_append]
  congr 1
  funext st'
  rw [run]
  cases step st' b <;> rfl

end Utf8

theorem utf8Valid_iff {s : Text} : utf8Valid s = true ↔ Utf8.run Utf8.start s = some Utf8.start :=
  decide_eq_true_iff

@[simp] theorem utf8Valid_nil : utf8Valid [] = true := rfl

theorem utf8Valid_append {s : Text} (h : utf8Valid s) (t : Text) :
    utf8Valid (s ++ t) = utf8Valid t := by
  unfold utf8Valid
  rw [Utf8.run_append, utf8Valid_iff.mp h, Option.bind_some]

theorem IsText.append {s : Text} (h : utf8Valid s) {t : Text} : IsText (s ++ t) ↔ IsText t := by
  unfold IsText
  rw [Utf8.run_append, utf8Valid_iff.mp h, Option.bind_some]

theorem IsText.left {s t : Text} (h : IsText (s ++ t)) : IsText s := by
  unfold IsText at h ⊢
  rw [Utf8.run_append] at h
  cases hs : Utf8.run Utf8.start s with
  | none =>
    rw [hs] at h
    cases h
  | some st => rfl

/-- Between two bytes of a string a character is complete, or goes on with a byte that cannot be the
first of one. -/
theorem Utf8.run_state {s : Text} {st : Utf8.State} (h : Utf8.run Utf8.start s = some st) :
    st = Utf8.start ∨ st.owed ≠ 0 ∧ 0x80 ≤ st.lo ∧ st.hi ≤ 0xBF := by
  induction s using List.reverseRecOn generalizing st with
  | nil => exact .inl (Option.some.inj h).symm
  | append_singleton s b ih =>
    rw [Utf8.run_snoc, Option.bind_eq_some_iff] at h
    obtain ⟨st', hst', hstep⟩ := h
    rcases ih hst' with rfl | ⟨howed, -, -⟩
    · rw [Utf8.step, if_pos (by rfl), Utf8.lead] at hstep
      split at hstep
      · exact .inl (Option.some.inj hstep).symm
      · split at hstep
        · cases hstep
        · refine .inr ?_
          split at hstep
          · obtain rfl := Option.some.inj hstep
            decide
          · split at hstep
            · obtain rfl := Option.some.inj hstep
              refine ⟨by simp, ?_, ?_⟩ <;> dsimp only <;> split <;> omega
            · split at hstep
              · obtain rfl := Option.some.inj hstep
                refine ⟨by simp, ?_, ?_⟩ <;> dsimp only <;> split <;> omega
              · cases hstep
    · rw [Utf8.step, if_neg howed] at hstep
      split at hstep
      · obtain rfl := Option.some.inj hstep
        by_cases hlast : st'.owed - 1 = 0
        · rw [hlast]
          exact .inl rfl
        · exact .inr ⟨hlast, Nat.le_refl _, Nat.le_refl _⟩
      · cases hstep

/-- In front of whole characters there are whole characters. -/
theorem utf8Valid_left {s t : Text} (h : IsText (s ++ t)) (ht : utf8Valid t) (hne : t ≠ []) :
    utf8Valid s := by
  obtain ⟨b, t, rfl⟩ := List.exists_cons_of_ne_nil hne
  obtain ⟨st, hst⟩ := Option.isSome_iff_exists.mp h.left
  rcases Utf8.run_state hst with rfl | ⟨howed, hlo, hhi⟩
  · exact utf8Valid_iff.mpr hst
  · exfalso
    rw [IsText, Utf8.run_append, hst, Option.bind_some, Utf8.run, Utf8.step, if_neg howed] at h
    rw [utf8Valid_iff, Utf8.run, Utf8.step, if_pos (by rfl), Utf8.lead] at ht
    split at h
    · rename_i hb
      rw [if_neg (by omega), if_pos (by omega)] at ht
      cases ht
    · cases h

/-! ### The longest valid prefix -/

theorem cutTo_isPrefix (s : Text) (n : Nat) : ∃ k ≤ n, cutTo s n = s.take k ∧ utf8Valid (s.take k) := by
  induction n with
  | zero => exact ⟨0, Nat.le_refl _, rfl, rfl⟩
  | succ n ih =>
    rw [cutTo]
    split
    · exact ⟨n + 1, Nat.le_refl _, rfl, ‹_›⟩
    · obtain ⟨k, hk, h⟩ := ih
      exact ⟨k, Nat.le_succ_of_le hk, h⟩

theorem cutBack_isPrefix (s : Text) : cutBack s <+: s := by
  obtain ⟨k, -, h, -⟩ := cutTo_isPrefix s s.length
  rw [cutBack, h]
  exact List.take_prefix k s

theorem cutBack_valid (s : Text) : utf8Valid (cutBack s) := by
  obtain ⟨k, -, h, hvalid⟩ := cutTo_isPrefix s s.length
  rwa [cutBack, h]

theorem cutTo_append {s : Text} (h : utf8Valid s) (t : Text) (n : Nat) :
    cutTo (s ++ t) (s.length + n) = s ++ cutTo t n := by
  induction n with
  | zero =>
    rw [Nat.add_zero, cutTo, List.append_nil]
    cases hs : s.length with
    | zero => rw [List.length_eq_zero_iff.mp hs, cutTo]
    | succ m => rw [cutTo, ← hs, List.take_left, if_pos h]
  | succ n ih =>
    rw [← Nat.add_assoc, cutTo, Nat.add_assoc, List.take_length_add_append, utf8Valid_append h,
      cutTo, ih]
    split <;> rfl

theorem cutBack_append {s : Text} (h : utf8Valid s) (t : Text) :
    cutBack (s ++ t) = s ++ cutBack t := by
  rw [cutBack, List.length_append, cutTo_append h, cutBack]

@[simp] theorem cutBack_nil : cutBack [] = [] := rfl

theorem cutBack_of_valid {s : Text} (h : utf8Valid s) : cutBack s = s := by
  have := cutBack_append h []
  rwa [List.append_nil, cutBack_nil, List.append_nil] at this

/-- Two cuts of one string agree when no character ends between them. -/
theorem cutTo_eq_iff {s : Text} {m n : Nat} (hmn : m ≤ n) (hn : n ≤ s.length) :
    cutTo s n = cutTo s m ↔ ∀ k, m < k → k ≤ n → utf8Valid (s.take k) = false := by
  induction n with
  | zero =>
    obtain rfl := Nat.le_zero.mp hmn
    exact ⟨fun _ k hk hk' => by omega, fun _ => rfl⟩
  | succ n ih =>
    rcases Nat.lt_or_eq_of_le hmn with hlt | rfl
    · have ih := ih (Nat.lt_succ_iff.mp hlt) (Nat.le_of_succ_le hn)
      rw [cutTo]
      split
      · rename_i hvalid
        constructor
        · intro heq
          obtain ⟨k, hk, htake, -⟩ := cutTo_isPrefix s m
          rw [htake] at heq
          have := congrArg List.length heq
          rw [List.length_take, List.length_take] at this
          omega
        · intro h
          rw [h (n + 1) hlt (Nat.le_refl _)] at hvalid
          cases hvalid
      · rename_i hinvalid
        rw [ih]
        constructor
        · intro h k hk hk'
          rcases Nat.lt_or_eq_of_le hk' with hk' | rfl
          · exact h k hk (Nat.lt_succ_iff.mp hk')
          · simpa using hinvalid
        · intro h k hk hk'
          exact h k hk (Nat.le_succ_of_le hk')
    · exact ⟨fun _ k hk hk' => by omega, fun _ => rfl⟩

theorem cutTo_take {s : Text} {m n : Nat} (h : n ≤ m) : cutTo (s.take m) n = cutTo s n := by
  induction n with
  | zero => rfl
  | succ n ih =>
    rw [cutTo, cutTo, List.take_take, Nat.min_eq_left h, ih (Nat.le_of_succ_le h)]

theorem cutBack_take {s : Text} {n : Nat} (h : n ≤ s.length) : cutBack (s.take n) = cutTo s n := by
  rw [cutBack, List.length_take, Nat.min_eq_left h, cutTo_take (Nat.le_refl n)]

end Ecco9.Library
