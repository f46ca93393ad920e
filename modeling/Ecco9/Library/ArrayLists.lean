import Mathlib.Data.List.Basic

/-! Lists behind an interface of positions, as containers of other packages have them.

Slices of an array: parts of it, copies into it, and elements that are moved within it. -/

namespace Ecco9.Library

section

/-- A position may be out of range: nothing is read there, and of what is written there only the
positions in range and the first one behind them are said. -/
structure ArrayList (α : Type) where
  Carrier : Type
  empty : Carrier
  size : Carrier → Int
  get : Carrier → Int → Option α
  add : Carrier → α → Carrier
  insert : Carrier → Int → α → Carrier
  set : Carrier → Int → α → Carrier
  remove : Carrier → Int → Carrier
  clear : Carrier → Carrier
  elems : Carrier → List α
  elems_empty : elems empty = []
  size_eq : ∀ l, size l = (elems l).length
  get_eq : ∀ l (n : Nat), get l n = (elems l)[n]?
  elems_add : ∀ l a, elems (add l a) = elems l ++ [a]
  elems_insert : ∀ l a, ∀ n ≤ (elems l).length, elems (insert l n a) = (elems l).insertIdx n a
  elems_set : ∀ l a, ∀ n < (elems l).length, elems (set l n a) = (elems l).set n a
  elems_remove : ∀ l, ∀ n < (elems l).length, elems (remove l n) = (elems l).eraseIdx n
  elems_clear : ∀ l, elems (clear l) = []

namespace ArrayList

variable {α : Type}

/-- Lists themselves; out of range nothing happens, but behind the last position an element is added. -/
def lists (α : Type) : ArrayList α where
  Carrier := List α
  empty := []
  size l := l.length
  get l i := if 0 ≤ i then l[i.toNat]? else none
  add l a := l ++ [a]
  insert l i a := if 0 ≤ i then l.insertIdx i.toNat a else l
  set l i a := if i = l.length then l ++ [a] else if 0 ≤ i then l.set i.toNat a else l
  remove l i := if 0 ≤ i then l.eraseIdx i.toNat else l
  clear _ := []
  elems l := l
  elems_empty := rfl
  size_eq _ := rfl
  get_eq _ n := if_pos (Int.natCast_nonneg n)
  elems_add _ _ := rfl
  elems_insert _ _ n _ := if_pos (Int.natCast_nonneg n)
  elems_set _ _ n hn := (if_neg (fun h => absurd (Int.ofNat.inj h) (Nat.ne_of_lt hn))).trans
    (if_pos (Int.natCast_nonneg n))
  elems_remove _ n _ := if_pos (Int.natCast_nonneg n)
  elems_clear _ := rfl

variable (L : ArrayList α) {l : L.Carrier} {before after : List α} {a : α}

theorem get_at (h : L.elems l = before ++ a :: after) : L.get l before.length = some a := by
  rw [L.get_eq, h, List.getElem?_append_right (Nat.le_refl _), Nat.sub_self, List.getElem?_cons_zero]

theorem elems_insert_at (h : L.elems l = before ++ after) (a : α) :
    L.elems (L.insert l before.length a) = before ++ a :: after := by
  have hle : before.length ≤ (L.elems l).length := by rw [h, List.length_append]; omega
  rw [L.elems_insert l a _ hle, h]
  clear h hle
  induction before with
  | nil => exact List.insertIdx_zero
  | cons b before ih => exact congrArg (b :: ·) ih

theorem elems_remove_at (h : L.elems l = before ++ a :: after) :
    L.elems (L.remove l before.length) = before ++ after := by
  have hlt : before.length < (L.elems l).length := by
    rw [h, List.length_append, List.length_cons]
    omega
  rw [L.elems_remove l _ hlt, h, List.eraseIdx_append_of_length_le (Nat.le_refl _), Nat.sub_self,
    List.eraseIdx_cons_zero]

end ArrayList

end

section

variable {α : Type}

/-- `l[lo:hi]`; `none` where it is out of range. -/
def slice (l : List α) (lo hi : Nat) : Option (List α) :=
  if lo ≤ hi ∧ hi ≤ l.length then some ((l.take hi).drop lo) else none

/-- `copy(dst[lo:hi], src)` -/
def copyTo (dst : List α) (lo hi : Nat) (src : List α) : Option (List α) :=
  if lo ≤ hi ∧ hi ≤ dst.length then
    some (dst.take lo ++ src.take (hi - lo) ++ dst.drop (lo + Nat.min (hi - lo) src.length))
  else none

/-- The loop that sets `l[i-d] = l[i]` for `n` indices from `i` on. -/
def moveDown (d : Nat) : (n i : Nat) → List α → Option (List α)
  | 0, _, l => some l
  | n + 1, i, l =>
    match l[i]? with
    | none => none
    | some x => if d ≤ i ∧ i - d < l.length then moveDown d n (i + 1) (l.set (i - d) x) else none

theorem slice_eq {l : List α} {lo hi : Nat} (hle : lo ≤ hi) (hhi : hi ≤ l.length) :
    slice l lo hi = some ((l.take hi).drop lo) := if_pos ⟨hle, hhi⟩

theorem slice_front {l : List α} {n : Nat} (h : n ≤ l.length) : slice l 0 n = some (l.take n) :=
  slice_eq (Nat.zero_le n) h

theorem slice_back {l : List α} {n : Nat} (h : n ≤ l.length) :
    slice l n l.length = some (l.drop n) := by
  rw [slice_eq h (Nat.le_refl _), List.take_length]

/-- A copy that fills its part of the array. -/
theorem copyTo_fill {dst src : List α} {lo hi : Nat} (hle : lo ≤ hi) (hhi : hi ≤ dst.length)
    (hsrc : src.length = hi - lo) : copyTo dst lo hi src = some (dst.take lo ++ src ++ dst.drop hi) := by
  have hmin : lo + Nat.min (hi - lo) src.length = hi := by
    rw [hsrc]
    exact (congrArg (lo + ·) (Nat.min_self _)).trans (by omega)
  rw [copyTo, if_pos ⟨hle, hhi⟩, hmin, ← hsrc, List.take_length]

/-- Every element is read before it is overwritten. -/
theorem moveDown_spec {d n i : Nat} {l : List α} (hd : d ≤ i) (hn : i + n ≤ l.length) :
    ∃ l', moveDown d n i l = some l' ∧ l'.length = l.length ∧
      ∀ j, l'[j]? = if i - d ≤ j ∧ j < i - d + n then l[j + d]? else l[j]? := by
  induction n generalizing i l with
  | zero =>
    refine ⟨l, rfl, rfl, fun j => ?_⟩
    rw [if_neg (by omega)]
  | succ n ih =>
    have hi : i < l.length := by omega
    obtain ⟨l', hmove, hlen, hget⟩ := ih (i := i + 1) (l := l.set (i - d) l[i]) (by omega)
      (by rw [List.length_set]; omega)
    rw [List.length_set] at hlen
    refine ⟨l', ?_, hlen, fun j => ?_⟩
    · rw [moveDown, List.getElem?_eq_getElem hi]
      dsimp only
      rw [if_pos ⟨hd, by omega⟩, hmove]
    · rw [hget, List.getElem?_set, List.getElem?_set]
      by_cases hlater : i + 1 - d ≤ j ∧ j < i + 1 - d + n
      · -- what is read lies behind what has been written
        rw [if_pos hlater, if_neg (by omega), if_pos (by omega)]
      · rw [if_neg hlater]
        by_cases hj : i - d = j
        · rw [if_pos hj, if_pos (by omega), if_pos (by omega), ← hj, Nat.sub_add_cancel hd,
            List.getElem?_eq_getElem hi]
        · rw [if_neg hj, if_neg (by omega)]

/-- The elements from `i` to the end, moved down by `d`. -/
theorem moveDown_end {d i : Nat} {l : List α} (hd : d ≤ i) (hi : i ≤ l.length) :
    ∃ l', moveDown d (l.length - i) i l = some l' ∧
      slice l' 0 (l.length - d) = some (l.take (i - d) ++ l.drop i) := by
  obtain ⟨l', hmove, hlen, hget⟩ := moveDown_spec (n := l.length - i) (l := l) hd (by omega)
  refine ⟨l', hmove, ?_⟩
  rw [slice_front (by omega)]
  congr 1
  apply List.ext_getElem?
  intro j
  rw [List.getElem?_append, List.length_take_of_le (by omega), List.getElem?_drop]
  by_cases hlow : j < i - d
  · rw [if_pos hlow, List.getElem?_take_of_lt hlow, List.getElem?_take_of_lt (by omega), hget,
      if_neg (by omega)]
  · rw [if_neg hlow]
    by_cases hend : j < l.length - d
    · rw [List.getElem?_take_of_lt hend, hget, if_pos (by omega)]
      congr 1
      omega
    · rw [List.getElem?_eq_none (by rw [List.length_take]; omega),
        List.getElem?_eq_none (by omega)]

end

end Ecco9.Library
