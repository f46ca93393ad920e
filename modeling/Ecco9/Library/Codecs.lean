import Ecco9.Library.Preconditions
import Ecco9.Library.Readers
import Mathlib.Data.List.Forall2
import Mathlib.Tactic.Ring

/-! Readers of a source that give back what was written to it, and files that are written to at any
place. -/

namespace Ecco9.Library

/-! ### Reading -/

section

variable {ε α β γ : Type} {x : EStateM ε (ReadSeeker α) β} {b b' : List α} {a : β}

/-- Wherever the elements come next, they are read, and give the value. -/
def Reads (x : EStateM ε (ReadSeeker α) β) (b : List α) (a : β) : Prop :=
  ∀ rs rest, ReadSeeker.rest rs = b ++ rest → x rs = .ok a { rs with pos := rs.pos + b.length }

theorem ReadSeeker.rest_past {rs : ReadSeeker α} {rest : List α} (h : rs.rest = b ++ rest) :
    ReadSeeker.rest { rs with pos := rs.pos + b.length } = rest := by
  rw [ReadSeeker.rest, ← List.drop_drop]
  exact (congrArg (List.drop b.length) h).trans List.drop_left

/-- They are read where they stand in a file. -/
theorem Reads.at {file front rest : List α} (h : Reads x b a) (hfile : file = front ++ (b ++ rest)) :
    x ⟨file, front.length⟩ = .ok a ⟨file, (front ++ b).length⟩ := by
  rw [h ⟨file, front.length⟩ rest, List.length_append]
  rw [ReadSeeker.rest, hfile]
  exact List.drop_left

theorem reads_pure (a : β) : Reads (pure a : EStateM ε (ReadSeeker α) β) [] a := fun _ _ _ => rfl

theorem Reads.bind {f : β → EStateM ε (ReadSeeker α) γ} {c : γ} (hx : Reads x b a)
    (hf : Reads (f a) b' c) : Reads (x >>= f) (b ++ b') c := by
  intro rs rest h
  rw [List.append_assoc] at h
  rw [bind_of_ok (hx rs _ h), hf _ rest (ReadSeeker.rest_past h), List.length_append, Nat.add_assoc]

/-- What follows takes nothing. -/
theorem Reads.then {f : β → EStateM ε (ReadSeeker α) γ} {c : γ} (hx : Reads x b a)
    (hf : Reads (f a) [] c) : Reads (x >>= f) b c := by
  have h := hx.bind hf
  rwa [List.append_nil] at h

theorem Reads.map (hx : Reads x b a) (f : β → γ) : Reads (do return f (← x)) b (f a) :=
  hx.then (reads_pure _)

theorem Reads.repeated {bs : List (List α)} {as : List β} (h : List.Forall₂ (Reads x) bs as) :
    Reads (Library.repeated x as.length) bs.flatten as := by
  induction h with
  | nil => exact reads_pure []
  | cons hb _ ih => exact hb.bind (ih.then (reads_pure _))

/-- Each is read as it was written. -/
theorem reads_repeated {bytes : γ → List α} {value : γ → β} {l : List γ}
    (h : ∀ c ∈ l, Reads x (bytes c) (value c)) :
    Reads (Library.repeated x l.length) (l.flatMap bytes) (l.map value) := by
  have hall : List.Forall₂ (Reads x) (l.map bytes) (l.map value) := by
    rw [List.forall₂_map_left_iff, List.forall₂_map_right_iff]
    exact List.forall₂_same.mpr h
  have hreads := Reads.repeated hall
  rwa [List.length_map, ← List.flatMap_def] at hreads

end

/-! ### Numbers -/

/-- The digits of a number to the base 256, from the last on. -/
def digits : Nat → Nat → List UInt8
  | 0, _ => []
  | width + 1, n => .ofNat n :: digits width (n / 256)

@[simp] theorem length_digits (width n : Nat) : (digits width n).length = width := by
  induction width generalizing n with
  | zero => rfl
  | succ width ih => rw [digits, List.length_cons, ih]

/-! ### Alignment -/

/-- The next multiple. -/
def alignUp (a n : Nat) : Nat := n + (a - n % a) % a

section

variable {a b n : Nat}

theorem dvd_alignUp (ha : 0 < a) (n : Nat) : a ∣ alignUp a n := by
  have hlt := Nat.mod_lt n ha
  rw [alignUp]
  by_cases h : n % a = 0
  · rw [h, Nat.sub_zero, Nat.mod_self, Nat.add_zero]
    exact Nat.dvd_of_mod_eq_zero h
  · rw [Nat.mod_eq_of_lt (by omega)]
    refine ⟨n / a + 1, ?_⟩
    have := Nat.div_add_mod n a
    rw [Nat.mul_add, Nat.mul_one]
    omega

theorem le_alignUp (a n : Nat) : n ≤ alignUp a n := Nat.le_add_right ..

theorem alignUp_lt (ha : 0 < a) (n : Nat) : alignUp a n < n + a := Nat.add_lt_add_left (Nat.mod_lt _ ha) n

theorem alignUp_of_dvd (h : a ∣ n) : alignUp a n = n := by
  rw [alignUp, Nat.mod_eq_zero_of_dvd h, Nat.sub_zero, Nat.mod_self, Nat.add_zero]

theorem alignUp_add (h : a ∣ b) (n : Nat) : alignUp a (b + n) = b + alignUp a n := by
  obtain ⟨k, rfl⟩ := h
  rw [alignUp, alignUp, Nat.mul_add_mod, Nat.add_assoc]

end

/-! ### Writing -/

section

variable {α : Type}

/-- A file with elements at a place; what was not there is filled up. -/
def writeAt (fill : α) (l : List α) (offset : Nat) (p : List α) : List α :=
  l.take offset ++ List.replicate (offset - l.length) fill ++ p ++ l.drop (offset + p.length)

variable {fill : α} {l p : List α} {offset i : Nat}

theorem writeAt_end : writeAt fill l l.length p = l ++ p := by
  rw [writeAt, List.take_length, Nat.sub_self, List.drop_eq_nil_of_le (Nat.le_add_right ..)]
  simp

theorem length_writeAt : (writeAt fill l offset p).length = max l.length (offset + p.length) := by
  simp only [writeAt, List.length_append, List.length_take, List.length_replicate, List.length_drop]
  omega

/-- The elements are there. -/
theorem slice_writeAt : ((writeAt fill l offset p).drop offset).take p.length = p := by
  have hfront : (l.take offset ++ List.replicate (offset - l.length) fill).length = offset := by
    rw [List.length_append, List.length_take, List.length_replicate]
    omega
  rw [writeAt, List.append_assoc, List.drop_left' hfront, List.take_left]

theorem getElem?_writeAt_within (hlo : offset ≤ i) (hhi : i < offset + p.length) :
    (writeAt fill l offset p)[i]? = p[i - offset]? := by
  have hfront : (l.take offset ++ List.replicate (offset - l.length) fill).length = offset := by
    rw [List.length_append, List.length_take, List.length_replicate]
    omega
  rw [writeAt, List.append_assoc, List.getElem?_append_right (by omega), hfront,
    List.getElem?_append_left (by omega)]

/-- Elsewhere the file is as it was. -/
theorem getElem?_writeAt (hi : i < l.length) (h : i < offset ∨ offset + p.length ≤ i) :
    (writeAt fill l offset p)[i]? = l[i]? := by
  have hfront : (l.take offset ++ List.replicate (offset - l.length) fill).length = offset := by
    rw [List.length_append, List.length_take, List.length_replicate]
    omega
  rw [writeAt, List.append_assoc]
  rcases h with hbefore | hbehind
  · rw [List.getElem?_append_left (by omega), List.getElem?_append_left (by rw [List.length_take]; omega),
      List.getElem?_take_of_lt hbefore]
  · rw [List.getElem?_append_right (by omega), List.getElem?_append_right (by omega), List.getElem?_drop, hfront]
    congr 1
    omega

theorem slice_writeAt_other {o n : Nat} (hn : o + n ≤ l.length) (h : o + n ≤ offset ∨ offset + p.length ≤ o) :
    ((writeAt fill l offset p).drop o).take n = (l.drop o).take n := by
  refine List.ext_getElem? fun i => ?_
  rw [List.getElem?_take, List.getElem?_take]
  split
  · rw [List.getElem?_drop, List.getElem?_drop, getElem?_writeAt (by omega) (by omega)]
  · rfl

/-- All parts are written, in turn. -/
def writeAll (fill : α) (parts : List (Nat × List α)) (l : List α) : List α :=
  parts.foldl (fun l p => writeAt fill l p.1 p.2) l

variable {parts : List (Nat × List α)}

theorem le_length_writeAll (fill : α) (parts : List (Nat × List α)) (l : List α) :
    l.length ≤ (writeAll fill parts l).length := by
  induction parts generalizing l with
  | nil => exact Nat.le_refl _
  | cons p parts ih =>
    refine Nat.le_trans ?_ (ih _)
    rw [length_writeAt]
    exact Nat.le_max_left ..

theorem part_le_length_writeAll {part : Nat × List α} (h : part ∈ parts) :
    part.1 + part.2.length ≤ (writeAll fill parts l).length := by
  induction parts generalizing l with
  | nil => cases h
  | cons p parts ih =>
    rcases List.mem_cons.mp h with rfl | h
    · refine Nat.le_trans ?_ (le_length_writeAll fill parts _)
      rw [length_writeAt]
      exact Nat.le_max_right ..
    · exact ih h

theorem slice_writeAll_other {o n : Nat} (hn : o + n ≤ l.length)
    (h : ∀ p ∈ parts, o + n ≤ p.1 ∨ p.1 + p.2.length ≤ o) :
    ((writeAll fill parts l).drop o).take n = (l.drop o).take n := by
  induction parts generalizing l with
  | nil => rfl
  | cons p parts ih =>
    have hle : o + n ≤ (writeAt fill l p.1 p.2).length := by
      rw [length_writeAt]
      exact hn.trans (Nat.le_max_left ..)
    exact (ih hle fun q hq => h q (List.mem_cons_of_mem _ hq)).trans
      (slice_writeAt_other hn (h p List.mem_cons_self))

/-- Parts that do not overlap are all there in the end. -/
theorem slice_writeAll
    (apart : parts.Pairwise fun p q => p.1 + p.2.length ≤ q.1 ∨ q.1 + q.2.length ≤ p.1)
    {part : Nat × List α} (h : part ∈ parts) :
    ((writeAll fill parts l).drop part.1).take part.2.length = part.2 := by
  induction parts generalizing l with
  | nil => cases h
  | cons p parts ih =>
    obtain ⟨hp, apart⟩ := List.pairwise_cons.mp apart
    rcases List.mem_cons.mp h with rfl | h
    · refine (slice_writeAll_other ?_ hp).trans slice_writeAt
      rw [length_writeAt]
      exact Nat.le_max_right ..
    · exact ih apart h

end

end Ecco9.Library
