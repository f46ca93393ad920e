import Mathlib.Algebra.GroupWithZero.Nat
import Mathlib.Data.List.Basic
import Mathlib.Data.List.Flatten
import Mathlib.Data.List.Forall2

/-! Arrays that consist of blocks of one length, and loops that fill them block by block. -/

universe u v

namespace Ecco9.Library

variable {α : Type u} {β : Type v}

/-! ### Places in blocks -/

section Places

variable {f : β → List α} {n : Nat} {l : List β}

theorem length_flatMap_blocks (h : ∀ b ∈ l, (f b).length = n) : (l.flatMap f).length = l.length * n := by
  induction l with
  | nil => rw [List.length_nil, Nat.zero_mul]; rfl
  | cons b l ih =>
    rw [List.flatMap_cons, List.length_append, h b List.mem_cons_self,
      ih fun x hx => h x (List.mem_cons_of_mem b hx), List.length_cons, Nat.succ_mul, Nat.add_comm]

theorem drop_flatMap_blocks (h : ∀ b ∈ l, (f b).length = n) (k : Nat) :
    (l.flatMap f).drop (k * n) = (l.drop k).flatMap f := by
  induction l generalizing k with
  | nil => simp
  | cons b l ih =>
    cases k with
    | zero => rw [Nat.zero_mul, List.drop_zero, List.drop_zero]
    | succ k =>
      have hb := h b List.mem_cons_self
      rw [List.flatMap_cons, Nat.succ_mul, Nat.add_comm, ← hb, List.drop_length_add_append, hb,
        List.drop_succ_cons, ih fun x hx => h x (List.mem_cons_of_mem b hx)]

/-- A slice within one block. -/
theorem slice_blocks (h : ∀ b ∈ l, (f b).length = n) {k r t : Nat} {b : β} (hk : l[k]? = some b)
    (ht : r + t ≤ n) : ((l.flatMap f).drop (k * n + r)).take t = ((f b).drop r).take t := by
  obtain ⟨hlt, rfl⟩ := List.getElem?_eq_some_iff.mp hk
  have hlen := h _ (List.getElem_mem hlt)
  rw [← List.drop_drop, drop_flatMap_blocks h, List.drop_eq_getElem_cons hlt, List.flatMap_cons,
    List.drop_append_of_le_length (by omega), List.take_append_of_le_length]
  rw [List.length_drop]
  omega

theorem getElem?_blocks (h : ∀ b ∈ l, (f b).length = n) {k r : Nat} {b : β} (hk : l[k]? = some b)
    (hr : r < n) : (l.flatMap f)[k * n + r]? = (f b)[r]? := by
  obtain ⟨hlt, rfl⟩ := List.getElem?_eq_some_iff.mp hk
  have hlen := h _ (List.getElem_mem hlt)
  rw [← List.getElem?_drop, drop_flatMap_blocks h, List.drop_eq_getElem_cons hlt, List.flatMap_cons,
    List.getElem?_append_left (by omega)]

theorem flatMap_range_length {g : Nat → List α} (h : ∀ (k : Nat) (b : β), l[k]? = some b → g k = f b) :
    (List.range l.length).flatMap g = l.flatMap f := by
  have hmap : (List.range l.length).map g = l.map f := by
    refine List.ext_getElem? fun k => ?_
    rw [List.getElem?_map, List.getElem?_map]
    by_cases hk : k < l.length
    · rw [List.getElem?_range hk, List.getElem?_eq_getElem hk]
      exact congrArg some (h k _ (List.getElem?_eq_getElem hk))
    · rw [List.getElem?_eq_none (by rwa [List.length_range, ← Nat.not_lt]),
        List.getElem?_eq_none (Nat.not_lt.mp hk)]
      rfl
  rw [List.flatMap_def, List.flatMap_def, hmap]

/-- Every place is in some block. -/
theorem exists_place {m n i : Nat} (h : i < m * n) : ∃ k < m, ∃ r < n, i = k * n + r := by
  have hn : 0 < n := Nat.pos_of_mul_pos_left (Nat.lt_of_le_of_lt (Nat.zero_le i) h)
  exact ⟨i / n, (Nat.div_lt_iff_lt_mul hn).mpr h, i % n, Nat.mod_lt i hn, (Nat.div_add_mod' i n).symm⟩

theorem place_lt {m n k r : Nat} (hk : k < m) (hr : r < n) : k * n + r < m * n := by
  have hle : (k + 1) * n ≤ m * n := Nat.mul_le_mul_right n hk
  rw [Nat.succ_mul] at hle
  omega

end Places

/-! ### Loops over blocks -/

section Loops

variable {step : List α → β → Option (List α)} {f : β → List α → List α}

/-- The items of a loop write to adjacent blocks. -/
def Adjacent (offset : β → Nat) (size start : Nat) (l : List β) : Prop :=
  l.map offset = List.range' start l.length size

theorem Adjacent.cons {offset : β → Nat} {size start : Nat} {b : β} {l : List β} (h : Adjacent offset size start (b :: l)) :
    offset b = start ∧ Adjacent offset size (start + size) l := by
  rw [Adjacent, List.map_cons, List.length_cons, List.range'_succ] at h
  exact List.cons.inj h

/-- A loop each of whose rounds changes its own block only, when what is before it satisfies an
invariant, changes all the blocks. -/
theorem foldlM_blocks (offset : β → Nat) (size : Nat) (Before : List α → Prop) {l : List β}
    (hsize : ∀ b ∈ l, ∀ old, old.length = size → (f b old).length = size)
    (hstep : ∀ b ∈ l, ∀ before old after, Before before → before.length = offset b →
      old.length = size → step (before ++ old ++ after) b = some (before ++ f b old ++ after))
    (hbefore : ∀ b ∈ l, ∀ before old, Before before → Before (before ++ f b old))
    {before : List α} (hinit : Before before) (hadjacent : Adjacent offset size before.length l)
    {olds : List (List α)} (hlen : olds.length = l.length) (holds : ∀ old ∈ olds, old.length = size)
    (after : List α) : l.foldlM step (before ++ olds.flatten ++ after) =
      some (before ++ (List.zipWith f l olds).flatten ++ after) := by
  induction l generalizing before olds with
  | nil =>
    rw [List.length_eq_zero_iff.mp hlen]
    rfl
  | cons b l ih =>
    cases olds with
    | nil => cases hlen
    | cons old olds =>
      obtain ⟨hoffset, hadjacent⟩ := hadjacent.cons
      have hold := holds old List.mem_cons_self
      have hnew := hsize b List.mem_cons_self old hold
      have hround := hstep b List.mem_cons_self before old (olds.flatten ++ after) hinit hoffset.symm hold
      have hrest := ih (fun x hx => hsize x (List.mem_cons_of_mem b hx))
        (fun x hx => hstep x (List.mem_cons_of_mem b hx))
        (fun x hx => hbefore x (List.mem_cons_of_mem b hx)) (hbefore b List.mem_cons_self before old hinit)
        (by rwa [List.length_append, hnew]) (Nat.succ.inj hlen)
        fun x hx => holds x (List.mem_cons_of_mem old hx)
      have hassoc : before ++ (old ++ olds.flatten) ++ after = before ++ old ++ (olds.flatten ++ after) := by
        simp only [List.append_assoc]
      rw [List.flatten_cons, hassoc, List.foldlM_cons, hround]
      change List.foldlM step (before ++ f b old ++ (olds.flatten ++ after)) l = _
      rw [← List.append_assoc, hrest, List.zipWith_cons_cons, List.flatten_cons]
      simp only [List.append_assoc]

/-- Any array of the right length consists of blocks. -/
theorem exists_blocks {size : Nat} {l : List α} {n : Nat} (h : l.length = n * size) : ∃ olds : List (List α),
    olds.length = n ∧ (∀ old ∈ olds, old.length = size) ∧ l = olds.flatten := by
  induction n generalizing l with
  | zero =>
    rw [Nat.zero_mul] at h
    exact ⟨[], rfl, fun _ hold => absurd hold List.not_mem_nil, List.length_eq_zero_iff.mp h⟩
  | succ n ih =>
    rw [Nat.succ_mul] at h
    obtain ⟨olds, hlen, holds, hflatten⟩ := ih (by rw [List.length_drop]; omega : (l.drop size).length = n * size)
    refine ⟨l.take size :: olds, congrArg Nat.succ hlen, fun old hold => ?_, ?_⟩
    · rcases List.mem_cons.mp hold with rfl | hold
      · rw [List.length_take]
        omega
      · exact holds old hold
    · rw [List.flatten_cons, ← hflatten, List.take_append_drop]

theorem zipWith_left (g : β → List α) {l : List β} {olds : List (List α)} (hlen : olds.length = l.length) :
    List.zipWith (fun b _ => g b) l olds = l.map g := by
  induction l generalizing olds with
  | nil => rfl
  | cons b l ih =>
    cases olds with
    | nil => cases hlen
    | cons old olds => rw [List.zipWith_cons_cons, List.map_cons, ih (Nat.succ.inj hlen)]

theorem exists_of_mem_zipWith {l : List β} {olds : List (List α)} {new : List α}
    (h : new ∈ List.zipWith f l olds) : ∃ b ∈ l, ∃ old ∈ olds, new = f b old := by
  induction l generalizing olds with
  | nil => exact absurd h List.not_mem_nil
  | cons b l ih =>
    cases olds with
    | nil => exact absurd h List.not_mem_nil
    | cons old olds =>
      rcases List.mem_cons.mp h with rfl | h
      · exact ⟨b, List.mem_cons_self, old, List.mem_cons_self, rfl⟩
      · obtain ⟨b', hb', old', hold', rfl⟩ := ih h
        exact ⟨b', List.mem_cons_of_mem b hb', old', List.mem_cons_of_mem old hold', rfl⟩

/-- Two loops over the same blocks, of which the second one leaves nothing of what was there. -/
theorem zipWith_zipWith_left {f' : β → List α → List α} (g : β → List α) {l : List β}
    {olds : List (List α)} (hlen : olds.length = l.length)
    (h : ∀ b ∈ l, ∀ old ∈ olds, f' b (f b old) = g b) :
    List.zipWith f' l (List.zipWith f l olds) = l.map g := by
  induction l generalizing olds with
  | nil => rfl
  | cons b l ih =>
    cases olds with
    | nil => cases hlen
    | cons old olds =>
      have hrest := ih (Nat.succ.inj hlen) fun x hx o ho =>
        h x (List.mem_cons_of_mem b hx) o (List.mem_cons_of_mem old ho)
      rw [List.zipWith_cons_cons, List.zipWith_cons_cons, List.map_cons, hrest,
        h b List.mem_cons_self old List.mem_cons_self]

/-- The loop fills the blocks, whatever is there. -/
theorem foldlM_fill (offset : β → Nat) (size : Nat) (Before : List α → Prop) {g : β → List α} {l : List β}
    (hsize : ∀ b ∈ l, (g b).length = size)
    (hstep : ∀ b ∈ l, ∀ before old after, Before before → before.length = offset b →
      old.length = size → step (before ++ old ++ after) b = some (before ++ g b ++ after))
    (hbefore : ∀ b ∈ l, ∀ before, Before before → Before (before ++ g b))
    {before : List α} (hinit : Before before) (hadjacent : Adjacent offset size before.length l)
    {old : List α} (hold : old.length = l.length * size) (after : List α) :
    l.foldlM step (before ++ old ++ after) = some (before ++ l.flatMap g ++ after) := by
  obtain ⟨olds, hlen, holds, rfl⟩ := exists_blocks hold
  rw [foldlM_blocks offset size Before (fun b hb _ _ => hsize b hb) hstep (fun b hb before _ => hbefore b hb before) hinit
    hadjacent hlen holds, zipWith_left g hlen, List.flatMap_def]

/-- The same for a loop that cannot fail. -/
theorem foldl_blocks (offset : β → Nat) (size : Nat) {step : List α → β → List α} {l : List β}
    (hsize : ∀ b ∈ l, ∀ old, old.length = size → (f b old).length = size)
    (hstep : ∀ b ∈ l, ∀ before old after, before.length = offset b → old.length = size →
      step (before ++ old ++ after) b = before ++ f b old ++ after)
    {before : List α} (hadjacent : Adjacent offset size before.length l)
    {olds : List (List α)} (hlen : olds.length = l.length) (holds : ∀ old ∈ olds, old.length = size)
    (after : List α) : l.foldl step (before ++ olds.flatten ++ after) =
      before ++ (List.zipWith f l olds).flatten ++ after := by
  have hloop := @foldlM_blocks α β (fun r b => pure (step r b)) f offset size (fun _ => True) l hsize
    (fun b hb before old after _ hoffset hold => congrArg some (hstep b hb before old after hoffset hold))
    (fun _ _ _ _ _ => trivial) before trivial hadjacent olds hlen holds after
  rw [List.foldlM_pure] at hloop
  exact Option.some.inj hloop

theorem foldl_fill (offset : β → Nat) (size : Nat) {step : List α → β → List α} {g : β → List α}
    {l : List β}
    (hsize : ∀ b ∈ l, (g b).length = size)
    (hstep : ∀ b ∈ l, ∀ before old after, before.length = offset b → old.length = size →
      step (before ++ old ++ after) b = before ++ g b ++ after)
    {before : List α} (hadjacent : Adjacent offset size before.length l)
    {old : List α} (hold : old.length = l.length * size) (after : List α) :
    l.foldl step (before ++ old ++ after) = before ++ l.flatMap g ++ after := by
  obtain ⟨olds, hlen, holds, rfl⟩ := exists_blocks hold
  rw [foldl_blocks offset size (fun b hb _ _ => hsize b hb) hstep hadjacent hlen holds, zipWith_left g hlen,
    List.flatMap_def]

theorem adjacent_range' (base size c n : Nat) :
    Adjacent (fun i => base + i * size) size (base + c * size) (List.range' c n) := by
  rw [Adjacent, List.length_range']
  induction n generalizing c with
  | zero => rfl
  | succ n ih =>
    rw [List.range'_succ, List.map_cons, List.range'_succ, ih, Nat.succ_mul, Nat.add_assoc]

theorem adjacent_range (base size n : Nat) :
    Adjacent (fun i => base + i * size) size base (List.range n) := by
  have h := adjacent_range' base size 0 n
  rwa [Nat.zero_mul, Nat.add_zero, ← List.range_eq_range'] at h

theorem adjacent_zipIdx (size : Nat) (l : List β) :
    Adjacent (fun e : β × Nat => e.2 * size) size 0 l.zipIdx := by
  have hrange := adjacent_range 0 size l.length
  simp only [Adjacent, Nat.zero_add, List.length_range, List.length_zipIdx] at hrange ⊢
  rw [← hrange, List.range_eq_range', ← List.zipIdx_map_snd 0 l, List.map_map]
  rfl

end Loops

/-! ### Blocks for the elements of a list -/

section

variable {size : β → Nat} {l : List β} {blocks : List (List α)}

theorem sum_le_length_flatten (h : List.Forall₂ (fun b block => size b ≤ block.length) l blocks) :
    (l.map size).sum ≤ blocks.flatten.length := by
  induction h with
  | nil => exact Nat.le_refl _
  | cons hb _ ih =>
    rw [List.map_cons, List.sum_cons, List.flatten_cons, List.length_append]
    exact Nat.add_le_add hb ih

/-- Where there is no more than the blocks need, none is longer than it needs to be. -/
theorem forall₂_length_eq (h : List.Forall₂ (fun b block => size b ≤ block.length) l blocks)
    (hlen : blocks.flatten.length = (l.map size).sum) :
    List.Forall₂ (fun b block => block.length = size b) l blocks := by
  induction h with
  | nil => exact .nil
  | cons hb hall ih =>
    have hle := sum_le_length_flatten hall
    rw [List.map_cons, List.sum_cons, List.flatten_cons, List.length_append] at hlen
    exact .cons (by omega) (ih (by omega))

theorem eq_of_flatten_eq {blocks' : List (List α)}
    (h : List.Forall₂ (fun b block => block.length = size b) l blocks)
    (h' : List.Forall₂ (fun b block => block.length = size b) l blocks')
    (hflat : blocks.flatten = blocks'.flatten) : blocks = blocks' := by
  induction h generalizing blocks' with
  | nil => exact (List.forall₂_nil_left_iff.mp h').symm
  | cons hb _ ih =>
    obtain ⟨block', rest, hb', hrest, rfl⟩ := List.forall₂_cons_left_iff.mp h'
    obtain ⟨rfl, hflat'⟩ := List.append_inj hflat (hb.trans hb'.symm)
    rw [ih hrest hflat']

end

/-! ### Lists of which at most one is not empty -/

/-- The list is there once, and nothing else; nothing is there when it is empty. -/
def Once (x : List α) (l : List (List α)) : Prop :=
  (l.filter fun y => !y.isEmpty) = [x].filter fun y => !y.isEmpty

instance [DecidableEq α] (x : List α) (l : List (List α)) : Decidable (Once x l) :=
  inferInstanceAs (Decidable (_ = _))

section

variable {x : List α} {l : List (List α)}

theorem filter_of_empty (h : ∀ y ∈ l, y = []) : (l.filter fun y => !y.isEmpty) = [] :=
  List.filter_eq_nil_iff.mpr fun y hy => by simp [h y hy]

theorem once_append (h : ∀ y ∈ l, y = []) (x : List α) : Once x (l ++ [x]) := by
  rw [Once, List.filter_append, filter_of_empty h, List.nil_append]

theorem once_singleton (x : List α) : Once x [x] := rfl

theorem once_of_empty (h : ∀ y ∈ l, y = []) : Once x l ↔ x = [] := by
  rw [Once, filter_of_empty h]
  cases x <;> simp

end

end Ecco9.Library
