import Mathlib.Data.List.Forall2
import Mathlib.Data.List.Sort
import Mathlib.Data.List.TakeWhile

/-! Sorting by a comparison function and binary search, as the package `slices` documents them; two sorted
forms of a list agree in every place, up to elements that are taken as equal. -/

namespace Ecco9.Library

section

/-- `cmp` orders the elements of a list, those that it takes as equal being interchangeable. -/
structure StrictWeak {α : Type} (cmp : α → α → Int) (l : List α) : Prop where
  asymm : ∀ a ∈ l, ∀ b ∈ l, cmp a b < 0 → ¬cmp b a < 0
  trans : ∀ a ∈ l, ∀ b ∈ l, ∀ c ∈ l, ¬cmp b a < 0 → ¬cmp c b < 0 → ¬cmp c a < 0

/-- `slices.SortFunc`. The order of equal elements is left open, and so is all order when `cmp` is
no ordering. -/
structure SortFunc where
  sort : {α : Type} → (α → α → Int) → List α → List α
  perm : ∀ {α : Type} (cmp : α → α → Int) (l : List α), (sort cmp l).Perm l
  ordered : ∀ {α : Type} {cmp : α → α → Int} {l : List α}, StrictWeak cmp l →
    (sort cmp l).Pairwise fun a b => ¬cmp b a < 0

/-- `sort.Slice` -/
def SortFunc.slice (S : SortFunc) {α : Type} (less : α → α → Bool) (l : List α) : List α :=
  S.sort (fun a b => if less a b then -1 else 0) l

theorem SortFunc.slice_perm (S : SortFunc) {α : Type} (less : α → α → Bool) (l : List α) :
    (S.slice less l).Perm l := S.perm _ l

theorem SortFunc.slice_singleton (S : SortFunc) {α : Type} (less : α → α → Bool) (a : α) :
    S.slice less [a] = [a] := List.perm_singleton.mp (S.slice_perm less [a])

theorem SortFunc.slice_ordered (S : SortFunc) {α : Type} {less : α → α → Bool} {l : List α}
    (asymm : ∀ a ∈ l, ∀ b ∈ l, less a b = true → less b a = false)
    (cotrans : ∀ a ∈ l, ∀ b ∈ l, ∀ c ∈ l, less c a = true → less b a = true ∨ less c b = true) :
    (S.slice less l).Pairwise fun a b => less b a = false := by
  have neg (a b : α) : (if less a b then (-1 : Int) else 0) < 0 ↔ less a b = true := by
    cases less a b <;> simp
  refine (S.ordered ⟨fun a ha b hb hab => ?_, fun a ha b hb c hc hba hcb hca => ?_⟩).imp ?_
  · rw [neg] at hab ⊢
    rw [asymm a ha b hb hab]
    exact Bool.false_ne_true
  · rw [neg] at hba hcb hca
    exact (cotrans a ha b hb c hc hca).elim hba hcb
  · intro a b hab
    rw [neg] at hab
    exact Bool.eq_false_iff.mpr hab

/-- A sort that leaves equal elements as they were. -/
def stableSort : SortFunc where
  sort cmp l := (l.attach.mergeSort fun a b => decide (¬cmp b.1 a.1 < 0)).map (·.1)
  perm cmp l := by
    have := (List.mergeSort_perm l.attach fun a b => decide (¬cmp b.1 a.1 < 0)).map (·.1)
    rwa [List.attach_map_subtype_val] at this
  ordered {α cmp l} h := by
    rw [List.pairwise_map]
    refine (List.pairwise_mergeSort (fun a b c hab hbc => ?_) (fun a b => ?_) l.attach).imp ?_
    · exact decide_eq_true
        (h.trans a a.2 b b.2 c c.2 (of_decide_eq_true hab) (of_decide_eq_true hbc))
    · have := h.asymm b b.2 a a.2
      simp only [Bool.or_eq_true, decide_eq_true_eq]
      omega
    · exact fun hab => of_decide_eq_true hab

/-- A sort that puts one element after the other in its place. -/
def insertionSort : SortFunc where
  sort cmp l := (l.attach.insertionSort fun a b => ¬cmp b.1 a.1 < 0).map (·.1)
  perm cmp l := by
    have := (List.perm_insertionSort (fun a b => ¬cmp b.1 a.1 < 0) l.attach).map (·.1)
    rwa [List.attach_map_subtype_val] at this
  ordered {α cmp l} h := by
    have : Std.Total fun a b : { x // x ∈ l } => ¬cmp b.1 a.1 < 0 :=
      ⟨fun a b => by have := h.asymm b b.2 a a.2; omega⟩
    have : IsTrans { x // x ∈ l } fun a b => ¬cmp b.1 a.1 < 0 :=
      ⟨fun a b c hab hbc => h.trans a a.2 b b.2 c c.2 hab hbc⟩
    exact List.pairwise_map.mpr (List.pairwise_insertionSort _ l.attach)

/-- Any element can be the first of those with its key. -/
theorem exists_ordered_first {α β : Type} [DecidableEq α] [LinearOrder β] (key : α → β) {l : List α} {a : α}
    (ha : a ∈ l) : ∃ before after, (before ++ a :: after).Perm l ∧
      ((before ++ a :: after).map key).Pairwise (· ≤ ·) ∧ ∀ b ∈ before, key b < key a := by
  have : Std.Total fun b c => key b ≤ key c := ⟨fun _ _ => le_total _ _⟩
  have : IsTrans α fun b c => key b ≤ key c := ⟨fun _ _ _ => le_trans⟩
  have perm := (List.perm_insertionSort (fun b c => key b ≤ key c) (a :: l.erase a)).trans
    (List.perm_cons_erase ha).symm
  have ordered := List.pairwise_insertionSort (fun b c => key b ≤ key c) (a :: l.erase a)
  rw [List.insertionSort_cons_eq_take_drop] at perm ordered
  refine ⟨_, _, perm, List.pairwise_map.mpr ordered, fun b hb => ?_⟩
  have hb := List.mem_takeWhile_imp hb
  exact not_le.mp (of_decide_eq_true hb)

/-- The loop of `slices.BinarySearchFunc` between `i` and `j`, where `below` says that the comparison
with the target is negative. -/
def searchFrom (below : α → Bool) (l : List α) (i j : Nat) : Nat :=
  if i < j then
    if l[(i + j) / 2]?.any below then searchFrom below l ((i + j) / 2 + 1) j
    else searchFrom below l i ((i + j) / 2)
  else i
termination_by j - i

def binarySearchFunc (below : α → Bool) (l : List α) : Nat := searchFrom below l 0 l.length

/-- The element before the place found is below the target, and the one at it is not. -/
theorem searchFrom_spec (below : α → Bool) (l : List α) {i j : Nat} (hij : i ≤ j)
    (lo : i = 0 ∨ l[i - 1]?.any below = true) (hi : l[j]?.any below = false) :
    (searchFrom below l i j = 0 ∨ l[searchFrom below l i j - 1]?.any below = true) ∧
      l[searchFrom below l i j]?.any below = false := by
  induction i, j using searchFrom.induct below l with
  | case1 i j hlt mid ih =>
    rw [searchFrom, if_pos hlt, if_pos mid]
    exact ih (by omega) (.inr mid) hi
  | case2 i j hlt mid ih =>
    rw [searchFrom, if_pos hlt, if_neg mid]
    exact ih (by omega) lo (by simpa using mid)
  | case3 i j hlt =>
    rw [searchFrom, if_neg hlt]
    obtain rfl : i = j := by omega
    exact ⟨lo, hi⟩

theorem binarySearchFunc_spec (below : α → Bool) (l : List α) :
    (binarySearchFunc below l = 0 ∨ l[binarySearchFunc below l - 1]?.any below = true) ∧
      l[binarySearchFunc below l]?.any below = false :=
  searchFrom_spec below l (Nat.zero_le _) (.inl rfl) (by simp)

end

section

variable {α : Type} {cmp : α → α → Int} {ts l m : List α} {a b : α}

/-- How many elements come before `a`. -/
def placeOf (cmp : α → α → Int) (ts : List α) (a : α) : Nat := ts.countP fun b => cmp b a < 0

namespace StrictWeak

theorem placeOf_le (h : StrictWeak cmp ts) (ha : a ∈ ts) (hb : b ∈ ts) (hab : ¬cmp b a < 0) :
    placeOf cmp ts a ≤ placeOf cmp ts b := by
  refine List.countP_mono_left fun c hc hca => ?_
  rw [decide_eq_true_eq] at hca ⊢
  by_contra hcb
  exact h.trans a ha b hb c hc hab hcb hca

theorem placeOf_lt (h : StrictWeak cmp ts) (ha : a ∈ ts) (hb : b ∈ ts) (hab : cmp a b < 0) :
    placeOf cmp ts a < placeOf cmp ts b := by
  obtain ⟨front, back, rfl⟩ := List.append_of_mem ha
  have hself : ¬cmp a a < 0 := fun haa => h.asymm a ha a ha haa haa
  have hle (rest : List α) (hrest : rest ⊆ front ++ a :: back) :
      (rest.countP fun c => cmp c a < 0) ≤ rest.countP fun c => cmp c b < 0 := by
    refine List.countP_mono_left fun c hc hca => ?_
    rw [decide_eq_true_eq] at hca ⊢
    by_contra hcb
    exact h.trans a ha b hb c (hrest hc) (h.asymm a ha b hb hab) hcb hca
  have hfront := hle front (List.subset_append_left ..)
  have hback := hle back fun c hc => List.mem_append_right _ (List.mem_cons_of_mem _ hc)
  rw [placeOf, placeOf, List.countP_append, List.countP_append,
    List.countP_cons_of_neg (by simpa using hself), List.countP_cons_of_pos (by simpa using hab)]
  omega

theorem map_placeOf_sorted (h : StrictWeak cmp ts) (perm : l.Perm ts)
    (sorted : l.Pairwise fun a b => ¬cmp b a < 0) : (l.map (placeOf cmp ts)).Pairwise (· ≤ ·) := by
  refine List.pairwise_map.mpr (sorted.imp_of_mem fun ha hb hab => ?_)
  exact h.placeOf_le (perm.subset ha) (perm.subset hb) hab

theorem pointwise (h : StrictWeak cmp ts) (hl : l.Perm ts) (hm : m.Perm ts)
    (sl : l.Pairwise fun a b => ¬cmp b a < 0) (sm : m.Pairwise fun a b => ¬cmp b a < 0) :
    List.Forall₂ (fun a b => ¬cmp a b < 0 ∧ ¬cmp b a < 0) l m := by
  have hmap : l.map (placeOf cmp ts) = m.map (placeOf cmp ts) :=
    List.Perm.eq_of_pairwise' (h.map_placeOf_sorted hl sl) (h.map_placeOf_sorted hm sm)
      ((hl.trans hm.symm).map _)
  refine List.forall₂_iff_zip.mpr ⟨(hl.trans hm.symm).length_eq, fun {a b} hab => ?_⟩
  obtain ⟨hal, hbm⟩ := List.of_mem_zip hab
  have hplace : placeOf cmp ts a = placeOf cmp ts b := by
    have hforall : List.Forall₂ (· = ·) (l.map (placeOf cmp ts)) (m.map (placeOf cmp ts)) := by
      rw [hmap, List.forall₂_eq_eq_eq]
    rw [List.forall₂_map_left_iff, List.forall₂_map_right_iff] at hforall
    exact List.forall₂_zip hforall hab
  exact ⟨fun hlt => absurd hplace (Nat.ne_of_lt (h.placeOf_lt (hl.subset hal) (hm.subset hbm) hlt)),
    fun hlt => absurd hplace (Nat.ne_of_gt (h.placeOf_lt (hm.subset hbm) (hl.subset hal) hlt))⟩

end StrictWeak

end

/-! ### Bubble sort by falling keys -/

section

variable {α β : Type} [LinearOrder β] (key : α → β)

/-- One pass over the first `k` pairs of neighbours. -/
def bubble : Nat → List α → List α
  | k + 1, a :: b :: l => if key a < key b then b :: bubble k (a :: l) else a :: bubble k (b :: l)
  | _, l => l

def bubbleSort (l : List α) : List α :=
  (List.range (l.length - 1)).foldl (fun sorted i => bubble key (l.length - i - 1) sorted) l

theorem bubble_perm (k : Nat) (l : List α) : (bubble key k l).Perm l := by
  induction k, l using bubble.induct key with
  | case1 k a b l h ih =>
    rw [bubble, if_pos h]
    exact (ih.cons b).trans (.swap ..)
  | case2 k a b l h ih =>
    rw [bubble, if_neg h]
    exact ih.cons a
  | case3 k l h => rw [bubble.eq_2 key k l h]

/-- Only neighbours that are out of order change places. -/
theorem bubble_pairwise {R : α → α → Prop} (swap : ∀ a b, key a < key b → R b a) (k : Nat) {l : List α}
    (h : l.Pairwise R) : (bubble key k l).Pairwise R := by
  induction k, l using bubble.induct key with
  | case1 k a b l hlt ih =>
    rw [List.pairwise_cons, List.pairwise_cons] at h
    rw [bubble, if_pos hlt, List.pairwise_cons]
    refine ⟨fun c hc => ?_, ih (List.pairwise_cons.mpr
      ⟨fun c hc => h.1 c (List.mem_cons_of_mem _ hc), h.2.2⟩)⟩
    rcases List.mem_cons.mp ((bubble_perm key k _).subset hc) with rfl | hc
    · exact swap c b hlt
    · exact h.2.1 c hc
  | case2 k a b l hlt ih =>
    rw [List.pairwise_cons] at h
    rw [bubble, if_neg hlt, List.pairwise_cons]
    exact ⟨fun c hc => h.1 c ((bubble_perm key k _).subset hc), ih h.2⟩
  | case3 k l hnot => rwa [bubble.eq_2 key k l hnot]

/-- A pass leaves the least of what it went over behind the rest of it. -/
theorem bubble_least (k : Nat) {front : List α} (back : List α) (h : front.length = k + 1) :
    ∃ rest c, bubble key k (front ++ back) = rest ++ c :: back ∧ (rest ++ [c]).Perm front ∧
      ∀ a ∈ front, key c ≤ key a := by
  induction k generalizing front with
  | zero =>
    obtain ⟨c, rfl⟩ := List.length_eq_one_iff.mp h
    refine ⟨[], c, ?_, .refl _, fun a ha => (congrArg key (List.mem_singleton.mp ha)).ge⟩
    cases back <;> rfl
  | succ k ih =>
    obtain ⟨a, b, l, rfl⟩ : ∃ a b l, front = a :: b :: l := by
      match front, h with
      | a :: b :: l, _ => exact ⟨a, b, l, rfl⟩
    have ha : (a :: l).length = k + 1 := Nat.succ.inj h
    have hb : (b :: l).length = k + 1 := Nat.succ.inj h
    rw [List.cons_append, List.cons_append, bubble]
    split_ifs with hlt
    · obtain ⟨rest, c, heq, perm, hc⟩ := ih ha
      rw [List.cons_append] at heq
      refine ⟨b :: rest, c, by rw [heq, List.cons_append], (perm.cons b).trans (.swap ..), ?_⟩
      have hca := hc a List.mem_cons_self
      intro x hx
      rcases List.mem_cons.mp hx with rfl | hx
      · exact hca
      · rcases List.mem_cons.mp hx with rfl | hx
        · exact hca.trans hlt.le
        · exact hc x (List.mem_cons_of_mem _ hx)
    · obtain ⟨rest, c, heq, perm, hc⟩ := ih hb
      rw [List.cons_append] at heq
      refine ⟨a :: rest, c, by rw [heq, List.cons_append], perm.cons a, fun x hx => ?_⟩
      rcases List.mem_cons.mp hx with rfl | hx
      · exact (hc b List.mem_cons_self).trans (not_lt.mp hlt)
      · exact hc x hx

theorem bubbleSort_perm (l : List α) : (bubbleSort key l).Perm l :=
  List.foldlRecOn (motive := fun sorted : List α => sorted.Perm l) _ _ (.refl _)
    fun _ h _ _ => (bubble_perm key _ _).trans h

/-- After `i` passes the last `i` are in order, and least. -/
theorem bubbleSort_passes (l : List α) (i : Nat) (hi : i ≤ l.length) :
    ∃ front back, (List.range i).foldl (fun sorted i => bubble key (l.length - i - 1) sorted) l =
        front ++ back ∧ front.length + i = l.length ∧ back.Pairwise (fun a b => key b ≤ key a) ∧
      ∀ a ∈ front, ∀ b ∈ back, key b ≤ key a := by
  induction i with
  | zero => exact ⟨l, [], (List.append_nil l).symm, rfl, .nil, fun _ _ => nofun⟩
  | succ i ih =>
    obtain ⟨front, back, heq, hlength, ordered, hle⟩ := ih (by omega)
    obtain ⟨rest, c, hpass, perm, hc⟩ := bubble_least key (l.length - i - 1) back
      (show front.length = l.length - i - 1 + 1 by omega)
    have hrest := perm.length_eq
    rw [List.length_append, List.length_singleton] at hrest
    refine ⟨rest, c :: back, ?_, by omega, List.pairwise_cons.mpr ⟨?_, ordered⟩, fun a ha b hb => ?_⟩
    · rw [List.range_succ, List.foldl_append, heq]
      exact hpass
    · exact hle c (perm.subset (List.mem_append_right _ List.mem_cons_self))
    · have ha := perm.subset (List.mem_append_left _ ha)
      rcases List.mem_cons.mp hb with rfl | hb
      · exact hc a ha
      · exact hle a ha b hb

theorem bubbleSort_ordered (l : List α) : (bubbleSort key l).Pairwise fun a b => key b ≤ key a := by
  obtain ⟨front, back, heq, hlength, ordered, hle⟩ := bubbleSort_passes key l (l.length - 1) (by omega)
  rw [bubbleSort, heq]
  refine List.pairwise_append.mpr ⟨?_, ordered, hle⟩
  match front, hlength with
  | [], _ => exact .nil
  | [a], _ => exact List.pairwise_singleton _ a
  | _ :: _ :: _, hlength =>
    simp only [List.length_cons] at hlength
    omega

/-- What is equal stays in its order. -/
theorem bubbleSort_stable {l : List α} {R : α → α → Prop} (h : l.Pairwise R) :
    (bubbleSort key l).Pairwise fun a b => key b < key a ∨ key b = key a ∧ R a b := by
  have start : l.Pairwise fun a b => key b = key a → R a b := by
    refine h.imp ?_
    intro a b hab _
    exact hab
  have kept : (bubbleSort key l).Pairwise fun a b => key b = key a → R a b :=
    List.foldlRecOn (motive := fun sorted : List α => sorted.Pairwise fun a b => key b = key a → R a b)
      _ _ start fun _ h _ _ => bubble_pairwise key (fun _ _ hlt heq => absurd heq hlt.ne) _ h
  refine ((bubbleSort_ordered key l).and kept).imp fun {a b} hab => ?_
  exact hab.1.lt_or_eq.imp_right fun heq => ⟨heq, hab.2 heq⟩

end

end Ecco9.Library
