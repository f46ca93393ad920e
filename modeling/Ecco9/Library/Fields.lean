import Ecco9.Library.Space

/-! The words of a text, as white space separates them. -/

namespace Ecco9.Library

def trimRightFrom : Nat → Text → Text
  | 0, s => s
  | n + 1, s =>
    match spaces.find? fun w => w.isSuffixOf s with
    | none => s
    | some w => trimRightFrom n (s.take (s.length - w.length))

def trimRight (s : Text) : Text := trimRightFrom s.length s

def trimSpace (s : Text) : Text := trimRight (trimLeft s)

/-- What stands before the first white space. No white space begins inside a character, so that
single bytes can be passed over. -/
def untilSpace : Text → Text
  | [] => []
  | b :: s => if (leadingSpace (b :: s)).isSome then [] else b :: untilSpace s

def fieldsFrom : Nat → Text → List Text
  | 0, _ => []
  | n + 1, s =>
    let s := trimLeft s
    if s = [] then []
    else untilSpace s :: fieldsFrom n (s.drop (untilSpace s).length)

/-- The words that are not white space. -/
def fields (s : Text) : List Text := fieldsFrom s.length s

/-- Text without white space. -/
def IsWord (s : Text) : Prop := untilSpace s = s

instance (s : Text) : Decidable (IsWord s) := inferInstanceAs (Decidable (untilSpace s = s))

/-- `s` does not begin inside of a character. -/
def Starts : Text → Prop
  | [] => True
  | b :: _ => ¬(0x80 ≤ b.toNat ∧ b.toNat ≤ 0xBF)

instance (s : Text) : Decidable (Starts s) := by
  cases s <;> unfold Starts <;> infer_instance

/-! ### Words -/

theorem spaces_tail : ∀ w ∈ spaces, ∀ b ∈ w.tail, 0x80 ≤ b.toNat ∧ b.toNat ≤ 0xBF := by decide +kernel

theorem leadingSpace_starts {s t : Text} (hs : s ≠ []) (h : leadingSpace s = none)
    (ht : Starts t) : leadingSpace (s ++ t) = none := by
  rw [leadingSpace_eq_none] at h ⊢
  intro w hw hfront
  rcases Nat.lt_or_ge s.length w.length with hlt | hle
  · obtain ⟨r, hr⟩ : s <+: w :=
      List.prefix_of_prefix_length_le (List.prefix_append ..) hfront hlt.le
    subst hr
    have hr : r <+: t := (List.prefix_append_right_inj s).mp hfront
    obtain ⟨a, s, rfl⟩ := List.exists_cons_of_ne_nil hs
    cases r with
    | nil => simp at hlt
    | cons b r =>
      obtain ⟨t, rfl⟩ := hr
      exact ht (spaces_tail _ hw b (by simp))
  · exact h w hw (List.prefix_of_prefix_length_le hfront (List.prefix_append ..) hle)

theorem leadingSpace_of_word {b : UInt8} {s : Text} (h : IsWord (b :: s)) :
    leadingSpace (b :: s) = none ∧ IsWord s := by
  rw [IsWord, untilSpace] at h
  split at h
  · cases h
  · rename_i hspace
    exact ⟨by simpa using hspace, (List.cons.inj h).2⟩

theorem untilSpace_append {s t : Text} (hs : IsWord s) (ht : Starts t) :
    untilSpace (s ++ t) = s ++ untilSpace t := by
  induction s with
  | nil => rfl
  | cons b s ih =>
    obtain ⟨hspace, hword⟩ := leadingSpace_of_word hs
    have hnone := leadingSpace_starts (List.cons_ne_nil b s) hspace ht
    rw [List.cons_append] at hnone
    rw [List.cons_append, untilSpace, hnone, ih hword]
    rfl

theorem IsWord.append {s t : Text} (hs : IsWord s) (ht : IsWord t) (hstart : Starts t) : IsWord (s ++ t) := by
  rw [IsWord, untilSpace_append hs hstart, ht]

theorem IsWord.of_append {s t : Text} (h : IsWord (s ++ t)) : IsWord s := by
  induction s with
  | nil => rfl
  | cons b s ih =>
    obtain ⟨hspace, hword⟩ := leadingSpace_of_word h
    have hnone : leadingSpace (b :: s) = none := leadingSpace_eq_none.mpr fun w hw hfront =>
      leadingSpace_eq_none.mp hspace w hw (hfront.trans (List.prefix_append (b :: s) t))
    rw [IsWord, untilSpace, hnone, ih hword]
    rfl

theorem spaces_starts : ∀ w ∈ spaces, Starts w := by decide

theorem Starts.append {s t : Text} (hs : Starts s) (ht : Starts t) : Starts (s ++ t) := by
  cases s with
  | nil => exact ht
  | cons b s => exact hs

theorem starts_blank {s : Text} (h : trimLeft s = []) : Starts s := by
  induction s using trim_induction with
  | none s hs =>
    rw [trimLeft_none hs] at h
    rw [h]
    trivial
  | space w hw s ih =>
    rw [trimLeft_space hw] at h
    exact (spaces_starts w hw).append (ih h)

theorem untilSpace_blank {s : Text} (h : trimLeft s = []) (t : Text) (hs : s ≠ []) :
    untilSpace (s ++ t) = [] := by
  cases hspace : leadingSpace s with
  | none =>
    rw [trimLeft_none hspace] at h
    exact absurd h hs
  | some w =>
    obtain ⟨hw, r, rfl⟩ := leadingSpace_eq_some hspace
    have := leadingSpace_append hw (r ++ t)
    rw [List.append_assoc]
    obtain ⟨b, w, rfl⟩ := List.exists_cons_of_ne_nil (spaces_ne_nil w hw)
    rw [List.cons_append] at this
    rw [List.cons_append, untilSpace, this]
    rfl

/-! ### Fields -/

theorem length_untilSpace_le (s : Text) : (untilSpace s).length ≤ s.length := by
  induction s with
  | nil => exact Nat.le_refl _
  | cons b s ih =>
    rw [untilSpace]
    split
    · exact Nat.zero_le _
    · exact Nat.succ_le_succ ih

theorem untilSpace_ne_nil {s : Text} (hs : s ≠ []) (h : leadingSpace s = none) :
    untilSpace s ≠ [] := by
  obtain ⟨b, s, rfl⟩ := List.exists_cons_of_ne_nil hs
  rw [untilSpace, h]
  simp

theorem fieldsFrom_eq {n m : Nat} {s : Text} (hn : s.length ≤ n) (hm : s.length ≤ m) :
    fieldsFrom n s = fieldsFrom m s := by
  induction n generalizing m s with
  | zero =>
    obtain rfl := List.length_eq_zero_iff.mp (Nat.le_zero.mp hn)
    cases m <;> rfl
  | succ n ih =>
    cases m with
    | zero =>
      obtain rfl := List.length_eq_zero_iff.mp (Nat.le_zero.mp hm)
      rfl
    | succ m =>
      rw [fieldsFrom, fieldsFrom]
      split
      · rfl
      · rename_i hne
        have hpos := List.length_pos_iff.mpr (untilSpace_ne_nil hne (leadingSpace_trimLeft s))
        have hle := (trimLeft_suffix s).length_le
        have hshort : ((trimLeft s).drop (untilSpace (trimLeft s)).length).length < s.length := by
          rw [List.length_drop]
          have := length_untilSpace_le (trimLeft s)
          omega
        rw [ih (m := m) (by omega) (by omega)]

theorem fields_blank {s : Text} (h : trimLeft s = []) : fields s = [] := by
  rw [fields]
  cases s.length with
  | zero => rfl
  | succ n =>
    rw [fieldsFrom, if_pos h]

theorem fields_trimLeft (s : Text) : fields (trimLeft s) = fields s := by
  by_cases h : trimLeft s = []
  · rw [h, fields_blank h]
    rfl
  · rw [fields, fieldsFrom_eq (Nat.le_refl _) (trimLeft_suffix s).length_le, fields]
    cases s with
    | nil => exact absurd rfl h
    | cons b s =>
      rw [List.length_cons, fieldsFrom, fieldsFrom, trimLeft_trimLeft]

/-- A word, and what follows it. -/
theorem fields_word {s t : Text} (hs : IsWord s) (hne : s ≠ []) (ht : Starts t)
    (hend : untilSpace t = []) : fields (s ++ t) = s :: fields t := by
  have hsolid : leadingSpace (s ++ t) = none := by
    obtain ⟨b, s, rfl⟩ := List.exists_cons_of_ne_nil hne
    exact leadingSpace_starts hne (leadingSpace_of_word hs).1 ht
  have huntil : untilSpace (s ++ t) = s := by
    rw [untilSpace_append hs ht, hend, List.append_nil]
  have hpos := List.length_pos_iff.mpr hne
  have hlen : (s ++ t).length = s.length - 1 + t.length + 1 := by
    rw [List.length_append]
    omega
  rw [fields, hlen, fieldsFrom, trimLeft_none hsolid, if_neg (by simp [hne]), huntil, List.drop_left, fields]
  congr 1
  exact fieldsFrom_eq (by omega) (Nat.le_refl _)

/-! ### Trimming on the right -/

theorem trimRightFrom_blank (n : Nat) (s : Text) :
    ∃ t, s = trimRightFrom n s ++ t ∧ trimLeft t = [] := by
  induction n generalizing s with
  | zero => exact ⟨[], by rw [trimRightFrom, List.append_nil], rfl⟩
  | succ n ih =>
    rw [trimRightFrom]
    split
    · exact ⟨[], by rw [List.append_nil], rfl⟩
    · rename_i w hfind
      have hw := List.mem_of_find?_eq_some hfind
      obtain ⟨r, rfl⟩ : w <:+ s := by
        simpa only [List.isSuffixOf_iff_suffix] using List.find?_some hfind
      obtain ⟨t, ht, hblank⟩ := ih r
      have htake : (r ++ w).take ((r ++ w).length - w.length) = r := by
        rw [List.length_append, Nat.add_sub_cancel, List.take_left]
      refine ⟨t ++ w, ?_, ?_⟩
      · rw [htake, ← List.append_assoc, ← ht]
      · rw [trimLeft_blank hblank]
        have := trimLeft_space hw []
        rwa [List.append_nil] at this

theorem trimSpace_blank {s : Text} (h : ∀ b ∈ s, [b] ∈ spaces) : trimSpace s = [] := by
  have hleft : trimLeft s = [] := by
    induction s with
    | nil => rfl
    | cons b s ih =>
      rw [← List.singleton_append, trimLeft_space (h b (by simp))]
      exact ih fun c hc => h c (by simp [hc])
  rw [trimSpace, hleft]
  rfl

/-- The first word of a text, and what follows it. -/
theorem untilSpace_split (s : Text) :
    ∃ r, s = untilSpace s ++ r ∧ IsWord (untilSpace s) ∧ Starts r ∧ untilSpace r = [] := by
  induction s with
  | nil => exact ⟨[], rfl, rfl, trivial, rfl⟩
  | cons b s ih =>
    rw [untilSpace]
    split
    · rename_i hspace
      obtain ⟨w, hw⟩ := Option.isSome_iff_exists.mp hspace
      obtain ⟨hmem, r, hr⟩ := leadingSpace_eq_some hw
      refine ⟨b :: s, rfl, rfl, ?_, ?_⟩
      · rw [← hr]
        have hstart := spaces_starts w hmem
        obtain ⟨a, w, rfl⟩ := List.exists_cons_of_ne_nil (spaces_ne_nil w hmem)
        exact hstart
      · rw [untilSpace, if_pos hspace]
    · rename_i hspace
      obtain ⟨r, hr, hword, hstart, hend⟩ := ih
      refine ⟨r, by rw [List.cons_append, ← hr], ?_, hstart, hend⟩
      have hnone : leadingSpace (b :: untilSpace s) = none := by
        rw [leadingSpace_eq_none]
        intro w hw hfront
        have hnone : leadingSpace (b :: s) = none := by simpa using hspace
        refine leadingSpace_eq_none.mp hnone w hw (hfront.trans ⟨r, ?_⟩)
        rw [List.cons_append, ← hr]
      rw [IsWord, untilSpace, hnone]
      exact congrArg (b :: ·) hword

theorem untilSpace_append_nil {s t : Text} (hs : untilSpace s = []) (ht : untilSpace t = []) :
    untilSpace (s ++ t) = [] := by
  cases s with
  | nil => exact ht
  | cons b s =>
    rw [untilSpace] at hs
    split at hs
    · rename_i hspace
      obtain ⟨w, hw⟩ := Option.isSome_iff_exists.mp hspace
      obtain ⟨hmem, v, hv⟩ := leadingSpace_eq_some hw
      have hfront : leadingSpace (b :: (s ++ t)) = some w := by
        rw [← List.cons_append, ← hv, List.append_assoc]
        exact leadingSpace_append hmem (v ++ t)
      rw [List.cons_append, untilSpace, hfront]
      rfl
    · cases hs

/-- Where white space begins, the words before it end. -/
theorem fields_append {t : Text} (ht : Starts t) (hend : untilSpace t = []) (s : Text) :
    fields (s ++ t) = fields s ++ fields t := by
  induction hn : s.length using Nat.strong_induction_on generalizing s with
  | _ n ih =>
    obtain ⟨l, hl, hblank⟩ := trimLeft_front s
    have hleft : fields (s ++ t) = fields (trimLeft s ++ t) := by
      rw [← fields_trimLeft, ← fields_trimLeft (trimLeft s ++ t)]
      conv_lhs => rw [← hl, List.append_assoc, trimLeft_blank hblank]
    by_cases h : trimLeft s = []
    · rw [hleft, h, fields_blank h]
      rfl
    · obtain ⟨r, hr, hword, hstart, hspace⟩ := untilSpace_split (trimLeft s)
      have hne := untilSpace_ne_nil h (leadingSpace_trimLeft s)
      have hlen := congrArg List.length hr
      have hpos := List.length_pos_iff.mpr hne
      have hle := (trimLeft_suffix s).length_le
      rw [List.length_append] at hlen
      rw [hleft, ← fields_trimLeft s, hr, List.append_assoc,
        fields_word hword hne (hstart.append ht) (untilSpace_append_nil hspace hend),
        fields_word hword hne hstart hspace, ih r.length (by omega) r rfl, List.cons_append]

theorem fields_append_blank {t : Text} (ht : trimLeft t = []) (s : Text) :
    fields (s ++ t) = fields s := by
  have hend : untilSpace t = [] := by
    by_cases hne : t = []
    · rw [hne]
      rfl
    · have := untilSpace_blank ht [] hne
      rwa [List.append_nil] at this
  rw [fields_append (starts_blank ht) hend, fields_blank ht, List.append_nil]

theorem fields_space (s t : Text) : fields (s ++ 0x20 :: t) = fields s ++ fields t := by
  have hspace : leadingSpace (0x20 :: t) = some [0x20] := leadingSpace_append (w := [0x20]) (by decide) t
  have hstart : Starts (0x20 :: t) := by
    change ¬_
    decide
  have hend : untilSpace (0x20 :: t) = [] := by
    rw [untilSpace, hspace]
    rfl
  rw [fields_append hstart hend, ← fields_trimLeft (0x20 :: t), ← fields_trimLeft t,
    ← trimLeft_space (w := [0x20]) (by decide) t]
  rfl

theorem fields_self {w : Text} (hw : IsWord w) (hne : w ≠ []) : fields w = [w] := by
  have h := fields_word (t := []) hw hne trivial rfl
  rwa [List.append_nil] at h

/-- What the words of a text are. -/
theorem mem_fields {s w : Text} (h : w ∈ fields s) : IsWord w ∧ w ≠ [] ∧ w <:+: s := by
  induction hn : s.length using Nat.strong_induction_on generalizing s with
  | _ n ih =>
    by_cases hblank : trimLeft s = []
    · rw [fields_blank hblank] at h
      cases h
    · obtain ⟨r, hr, hword, hstart, hspace⟩ := untilSpace_split (trimLeft s)
      have hne := untilSpace_ne_nil hblank (leadingSpace_trimLeft s)
      have hlen := congrArg List.length hr
      have hpos := List.length_pos_iff.mpr hne
      have hle := (trimLeft_suffix s).length_le
      rw [List.length_append] at hlen
      rw [← fields_trimLeft, hr, fields_word hword hne hstart hspace, List.mem_cons] at h
      rcases h with rfl | h
      · refine ⟨hword, hne, List.IsInfix.trans ?_ (trimLeft_suffix s).isInfix⟩
        exact ⟨[], r, hr.symm⟩
      · obtain ⟨hword, hne, hwithin⟩ := ih r.length (by omega) h rfl
        refine ⟨hword, hne, (hwithin.trans ?_).trans (trimLeft_suffix s).isInfix⟩
        exact ⟨untilSpace (trimLeft s), [], by rw [List.append_nil, ← hr]⟩

theorem fields_trimSpace (s : Text) : fields (trimSpace s) = fields s := by
  obtain ⟨r, hr, hblank⟩ := trimRightFrom_blank (trimLeft s).length (trimLeft s)
  rw [← fields_trimLeft s]
  conv_rhs => rw [hr]
  rw [fields_append_blank hblank]
  rfl

end Ecco9.Library
