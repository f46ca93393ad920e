import Mathlib.Data.Int.Init

/-! Binary heaps on an array, as `container/heap` keeps them: the root is before none of the others,
and what is pushed and popped is what is there. The order need only be one on the elements that are
`good`. -/

namespace Ecco9.Library

structure HeapOrder {α : Type u} (less : α → α → Bool) (good : α → Prop) : Prop where
  asymm : ∀ {x y : α}, less x y = true → less y x = false
  trans : ∀ {x y z : α}, good y → less y x = false → less z y = false → less z x = false

theorem HeapOrder.irrefl {less : α → α → Bool} (o : HeapOrder less good) (x : α) : less x x = false := by
  cases h : less x x with
  | false => rfl
  | true => exact h ▸ o.asymm h

namespace Heaps

variable {α : Type u} (less : α → α → Bool) (h : Array α)

/-- `Less(i, j)` -/
def lessAt (i j : Nat) : Bool :=
  match h[i]?, h[j]? with
  | some x, some y => less x y
  | _, _ => false

/-- The child of `i` that `down` compares, when the left one is there. -/
def child (i n : Nat) : Nat :=
  if 2 * i + 2 < n ∧ lessAt less h (2 * i + 2) (2 * i + 1) then 2 * i + 2 else 2 * i + 1

def down (h : Array α) (i n : Nat) : Array α :=
  if 2 * i + 1 < n then
    if lessAt less h (child less h i n) i then
      down (h.swapIfInBounds i (child less h i n)) (child less h i n) n
    else h
  else h
termination_by n - i
decreasing_by
  unfold child
  split <;> omega

def up (h : Array α) (j : Nat) : Array α :=
  if (j - 1) / 2 = j ∨ lessAt less h j ((j - 1) / 2) = false then h
  else up (h.swapIfInBounds ((j - 1) / 2) j) ((j - 1) / 2)
termination_by j

/-- The loop of `Init`, at the indices below `i`. -/
def initBelow (h : Array α) : Nat → Array α
  | 0 => h
  | i + 1 => initBelow (down less h i h.size) i

def init : Array α := initBelow less h (h.size / 2)

def push (x : α) : Array α := up less (h.push x) h.size

def pop : Option (α × Array α) :=
  let n := h.size - 1
  let h' := down less (h.swapIfInBounds 0 n) 0 n
  h'.back?.map (·, h'.pop)

/-- Every element is before none of its children, among the first `n` and with a parent at `lo` or
above. -/
def Heaped (lo n : Nat) : Prop :=
  ∀ c, 0 < c → c < n → lo ≤ (c - 1) / 2 → lessAt less h c ((c - 1) / 2) = false

abbrev Heap : Prop := Heaped less h 0 h.size

variable {less h}

theorem swap_perm (h : Array α) (i j : Nat) : (h.swapIfInBounds i j).Perm h := by
  rw [Array.swapIfInBounds_def]
  split
  · split
    · exact Array.swap_perm ..
    · exact .rfl
  · exact .rfl

theorem down_perm (less : α → α → Bool) (h : Array α) (i n : Nat) : (down less h i n).Perm h := by
  induction h, i using down.induct less (n := n) with
  | case1 h i left less ih =>
    rw [down, if_pos left, if_pos less]
    exact ih.trans (swap_perm ..)
  | case2 h i left less => rw [down, if_pos left, if_neg less]
  | case3 h i left => rw [down, if_neg left]

theorem up_perm (h : Array α) (j : Nat) : (up less h j).Perm h := by
  induction h, j using up.induct less with
  | case1 h j stop => rw [up, if_pos stop]
  | case2 h j step ih =>
    rw [up, if_neg step]
    exact ih.trans (swap_perm ..)

theorem initBelow_perm (h : Array α) (i : Nat) : (initBelow less h i).Perm h := by
  induction i generalizing h with
  | zero => exact .rfl
  | succ i ih => exact (ih _).trans (down_perm ..)

theorem init_perm (less : α → α → Bool) (h : Array α) : (init less h).Perm h := initBelow_perm ..

theorem push_perm (less : α → α → Bool) (h : Array α) (x : α) : (push less h x).Perm (h.push x) := up_perm ..

/-- Where the element that a swap puts at `k` was. -/
def swapped (i j k : Nat) : Nat := if k = i then j else if k = j then i else k

@[simp] theorem swapped_left (i j : Nat) : swapped i j i = j := if_pos rfl

@[simp] theorem swapped_right (i j : Nat) : swapped i j j = i := by
  unfold swapped
  split
  · assumption
  · exact if_pos rfl

theorem swapped_of_ne (hi : k ≠ i) (hj : k ≠ j) : swapped i j k = k := by
  rw [swapped, if_neg hi, if_neg hj]

theorem getElem?_swap {h : Array α} (hi : i < h.size) (hj : j < h.size) (k : Nat) :
    (h.swapIfInBounds i j)[k]? = h[swapped i j k]? := by
  unfold swapped
  by_cases hk : k < h.size
  · rw [Array.getElem?_eq_getElem (by simpa using hk), Array.getElem_swapIfInBounds]
    split
    case isTrue left => simp [left.1, hj]
    case isFalse left =>
      split
      case isTrue right =>
        rw [if_neg fun e => left ⟨e, hj⟩, if_pos right.1, Array.getElem?_eq_getElem hi]
      case isFalse right =>
        simp [show k ≠ i from fun e => left ⟨e, hj⟩, show k ≠ j from fun e => right ⟨e, hi⟩, hk]
  · rw [if_neg (by omega), if_neg (by omega)]
    simp [hk]

theorem lessAt_swap {h : Array α} (hi : i < h.size) (hj : j < h.size) (a b : Nat) :
    lessAt less (h.swapIfInBounds i j) a b = lessAt less h (swapped i j a) (swapped i j b) := by
  simp only [lessAt, getElem?_swap hi hj]

theorem lessAt_good {good : α → Prop} (all : ∀ x ∈ h, good x) (hj : j < h.size) :
    ∃ x, h[j]? = some x ∧ good x :=
  ⟨h[j], Array.getElem?_eq_getElem hj, all _ (Array.getElem_mem hj)⟩

section Order

variable {good : α → Prop} (o : HeapOrder less good)
include o

theorem lessAt_irrefl (i : Nat) : lessAt less h i i = false := by
  unfold lessAt
  cases h[i]? with
  | none => rfl
  | some x => exact o.irrefl x

theorem lessAt_asymm {i j : Nat} (hij : lessAt less h i j = true) : lessAt less h j i = false := by
  unfold lessAt at *
  cases hi : h[i]? with
  | none => cases h[j]? <;> rfl
  | some x =>
    cases hj : h[j]? with
    | none => rfl
    | some y =>
      rw [hi, hj] at hij
      exact o.asymm hij

theorem lessAt_trans (all : ∀ x ∈ h, good x) (hj : j < h.size) (hji : lessAt less h j i = false)
    (hkj : lessAt less h k j = false) : lessAt less h k i = false := by
  obtain ⟨y, hy, hgood⟩ := lessAt_good all hj
  unfold lessAt at *
  rw [hy] at hji hkj
  cases hi : h[i]? with
  | none => cases h[k]? <;> rfl
  | some x =>
    cases hk : h[k]? with
    | none => rfl
    | some z =>
      rw [hi] at hji
      rw [hk] at hkj
      exact o.trans hgood hji hkj

/-- The child that is compared is before no other child. -/
theorem child_least (n : Nat) (hc : 0 < c) (hn : c < n) (hci : (c - 1) / 2 = i) :
    lessAt less h c (child less h i n) = false := by
  unfold child
  obtain rfl | rfl : c = 2 * i + 1 ∨ c = 2 * i + 2 := by omega
  · split
    case isTrue right => exact lessAt_asymm o right.2
    case isFalse right => exact lessAt_irrefl o _
  · split
    case isTrue right => exact lessAt_irrefl o _
    case isFalse right => simpa [hn] using right

end Order

theorem child_cases (less : α → α → Bool) (h : Array α) (left : 2 * i + 1 < n) :
    child less h i n < n ∧ (child less h i n - 1) / 2 = i ∧ i < child less h i n := by
  unfold child
  split <;> omega

/-- All is in order but for the children of `i`, and these are not before the parent of `i`. -/
structure DownReady (less : α → α → Bool) (h : Array α) (lo i n : Nat) : Prop where
  except : ∀ c, 0 < c → c < n → lo ≤ (c - 1) / 2 → (c - 1) / 2 ≠ i →
    lessAt less h c ((c - 1) / 2) = false
  grand : 0 < i → lo ≤ (i - 1) / 2 → ∀ c, 0 < c → c < n → (c - 1) / 2 = i →
    lessAt less h c ((i - 1) / 2) = false

/-- All is in order but for `j` and its parent, and the children of `j` are not before that
parent. -/
structure UpReady (less : α → α → Bool) (h : Array α) (j : Nat) : Prop where
  except : ∀ c, 0 < c → c < h.size → c ≠ j → lessAt less h c ((c - 1) / 2) = false
  grand : 0 < j → ∀ c, 0 < c → c < h.size → (c - 1) / 2 = j →
    lessAt less h c ((j - 1) / 2) = false

section Sifts

variable {good : α → Prop} (o : HeapOrder less good)
include o

theorem DownReady.move {lo i j n : Nat} (r : DownReady less h lo i n) (hn : n ≤ h.size)
    (hj : j < n) (hij : i < j) (hji : (j - 1) / 2 = i) (hlo : lo ≤ i)
    (least : ∀ c, 0 < c → c < n → (c - 1) / 2 = i → lessAt less h c j = false)
    (before : lessAt less h j i = true) :
    DownReady less (h.swapIfInBounds i j) lo j n := by
  constructor
  · intro c hc hcn hcl hcj
    rw [lessAt_swap (by omega) (by omega)]
    by_cases hcj' : c = j
    · subst hcj'
      rw [hji, swapped_left, swapped_right]
      exact lessAt_asymm o before
    by_cases hci : (c - 1) / 2 = i
    · rw [hci, swapped_left, swapped_of_ne (by omega) hcj']
      exact least c hc hcn hci
    rw [swapped_of_ne hci hcj]
    by_cases hc' : c = i
    · subst hc'
      rw [swapped_left]
      exact r.grand hc hcl j (by omega) hj hji
    · rw [swapped_of_ne hc' hcj']
      exact r.except c hc hcn hcl hci
  · intro _ _ c hc hcn hcj
    rw [lessAt_swap (by omega) (by omega), hji, swapped_left, swapped_of_ne (by omega) (by omega),
      ← hcj]
    exact r.except c hc hcn (by omega) (by omega)

theorem down_heaped (h : Array α) (i : Nat) {lo n : Nat} (r : DownReady less h lo i n)
    (hn : n ≤ h.size) (hlo : lo ≤ i) (all : ∀ x ∈ h, good x) :
    Heaped less (down less h i n) lo n := by
  induction h, i using down.induct less (n := n) with
  | case1 h i left before ih =>
    rw [down, if_pos left, if_pos before]
    obtain ⟨hc, hp, hlt⟩ := child_cases less h left
    have perm := swap_perm h i (child less h i n)
    exact ih (r.move o hn hc hlt hp hlo (fun c => child_least o n) before) (by simpa using hn)
      (by omega) fun x hx => all x (perm.mem_iff.mp hx)
  | case2 h i left before =>
    rw [down, if_pos left, if_neg before]
    intro c hc hcn hcl
    by_cases hci : (c - 1) / 2 = i
    · obtain ⟨hcn', -, -⟩ := child_cases less h left
      rw [hci]
      exact lessAt_trans o all (by omega) (by simpa using before) (child_least o n hc hcn hci)
    · exact r.except c hc hcn hcl hci
  | case3 h i left =>
    rw [down, if_neg left]
    intro c hc hcn hcl
    exact r.except c hc hcn hcl (by omega)

theorem UpReady.move {j : Nat} (r : UpReady less h j) (hj : j < h.size) (hj0 : 0 < j)
    (all : ∀ x ∈ h, good x) (before : lessAt less h j ((j - 1) / 2) = true) :
    UpReady less (h.swapIfInBounds ((j - 1) / 2) j) ((j - 1) / 2) := by
  generalize hi : (j - 1) / 2 = i at before
  constructor
  · intro c hc hcn hci
    rw [Array.size_swapIfInBounds] at hcn
    rw [lessAt_swap (by omega) hj]
    by_cases hcj : c = j
    · subst hcj
      rw [hi, swapped_left, swapped_right]
      exact lessAt_asymm o before
    rw [swapped_of_ne hci hcj]
    by_cases hpj : (c - 1) / 2 = j
    · rw [hpj, swapped_right, ← hi]
      exact r.grand hj0 c hc hcn hpj
    by_cases hpi : (c - 1) / 2 = i
    · rw [hpi, swapped_left]
      have hc' := r.except c hc hcn hcj
      rw [hpi] at hc'
      exact lessAt_trans o all (by omega) (lessAt_asymm o before) hc'
    · rw [swapped_of_ne hpi hpj]
      exact r.except c hc hcn hcj
  · intro hi0 c hc hcn hci
    rw [Array.size_swapIfInBounds] at hcn
    have hroot := r.except i hi0 (by omega) (by omega)
    rw [lessAt_swap (by omega) hj, swapped_of_ne (k := (i - 1) / 2) (by omega) (by omega)]
    by_cases hcj : c = j
    · subst hcj
      rw [swapped_right]
      exact hroot
    · rw [swapped_of_ne (by omega) hcj]
      have hc' := r.except c hc hcn hcj
      rw [hci] at hc'
      exact lessAt_trans o all (by omega) hroot hc'

theorem up_heap (h : Array α) (j : Nat) (r : UpReady less h j) (hj : j < h.size)
    (all : ∀ x ∈ h, good x) : Heap less (up less h j) := by
  induction h, j using up.induct less with
  | case1 h j stop =>
    rw [up, if_pos stop]
    intro c hc hcn _
    by_cases hcj : c = j
    · subst hcj
      rcases stop with stop | stop
      · omega
      · exact stop
    · exact r.except c hc hcn hcj
  | case2 h j step ih =>
    rw [up, if_neg step]
    obtain ⟨hne, before⟩ := not_or.mp step
    have perm := swap_perm h ((j - 1) / 2) j
    exact ih (r.move o hj (by omega) all (by simpa using before)) (by simp; omega)
      fun x hx => all x (perm.mem_iff.mp hx)

theorem initBelow_heap (h : Array α) (i : Nat) (start : Heaped less h i h.size)
    (all : ∀ x ∈ h, good x) : Heap less (initBelow less h i) := by
  induction i generalizing h with
  | zero => exact start
  | succ i ih =>
    have perm := down_perm less h i h.size
    have ready : DownReady less h i i h.size :=
      ⟨fun c hc hcn hcl hci => start c hc hcn (by omega), fun _ _ => by omega⟩
    refine ih _ ?_ fun x hx => all x (perm.mem_iff.mp hx)
    rw [perm.size_eq]
    exact down_heaped o h i ready (by omega) (by omega) all

theorem init_heap (h : Array α) (all : ∀ x ∈ h, good x) : Heap less (init less h) :=
  initBelow_heap o h _ (fun c hc hcn hcl => by omega) all

theorem push_heap {h : Array α} (heap : Heap less h) (x : α) (all : ∀ y ∈ h.push x, good y) :
    Heap less (push less h x) := by
  refine up_heap o _ _ ⟨fun c hc hcn hci => ?_, fun hpos c hc hcn hci => ?_⟩ (by simp) all
  · rw [Array.size_push] at hcn
    have old := heap c hc (by omega) (by omega)
    simpa [lessAt, Array.getElem?_push, show c ≠ h.size by omega,
      show (c - 1) / 2 ≠ h.size by omega] using old
  · rw [Array.size_push] at hcn
    omega

/-- No element is before the root. -/
theorem root_least (heap : Heap less h) (all : ∀ x ∈ h, good x) (k : Nat) (hk : k < h.size) :
    lessAt less h k 0 = false := by
  induction k using Nat.strongRecOn with
  | ind k ih =>
    by_cases hk0 : k = 0
    · subst hk0
      exact lessAt_irrefl o 0
    · have above := ih ((k - 1) / 2) (by omega) (by omega)
      exact lessAt_trans o all (by omega) above (heap k (by omega) hk (by omega))

end Sifts

theorem down_above (h : Array α) (i : Nat) {n : Nat} (hn : n ≤ h.size) (hk : n ≤ k) :
    (down less h i n)[k]? = h[k]? := by
  induction h, i using down.induct less (n := n) with
  | case1 h i left before ih =>
    rw [down, if_pos left, if_pos before]
    obtain ⟨hc, -, hlt⟩ := child_cases less h left
    rw [ih (by simpa using hn), getElem?_swap (by omega) (by omega),
      swapped_of_ne (by omega) (by omega)]
  | case2 h i left before => rw [down, if_pos left, if_neg before]
  | case3 h i left => rw [down, if_neg left]

theorem back_pop_perm {h : Array α} (hx : h.back? = some x) :
    h.toList.Perm (x :: h.pop.toList) := by
  obtain ⟨front, rfl⟩ := Array.back?_eq_some_iff.mp hx
  simp

theorem pop_spec (less : α → α → Bool) {h : Array α} (hx : h[0]? = some x) :
    ∃ h', pop less h = some (x, h') ∧ h.toList.Perm (x :: h'.toList) := by
  have hpos : 0 < h.size := by
    obtain ⟨hlt, -⟩ := Array.getElem?_eq_some_iff.mp hx
    exact hlt
  have perm := (down_perm less (h.swapIfInBounds 0 (h.size - 1)) 0 (h.size - 1)).trans
    (swap_perm h 0 (h.size - 1))
  have hback : (down less (h.swapIfInBounds 0 (h.size - 1)) 0 (h.size - 1)).back? = some x := by
    rw [Array.back?_eq_getElem?, perm.size_eq, down_above _ _ (by simp) (Nat.le_refl _),
      getElem?_swap hpos (by omega), swapped_right, hx]
  exact ⟨_, by simp [pop, hback], perm.symm.toList.trans (back_pop_perm hback)⟩

theorem pop_heap {good : α → Prop} (o : HeapOrder less good) (heap : Heap less h)
    (all : ∀ y ∈ h, good y) (hx : h[0]? = some x) (hp : pop less h = some (x, h')) :
    Heap less h' ∧ ∀ y ∈ h', less y x = false := by
  obtain ⟨hpos, -⟩ := Array.getElem?_eq_some_iff.mp hx
  have perm := swap_perm h 0 (h.size - 1)
  have ready : DownReady less (h.swapIfInBounds 0 (h.size - 1)) 0 0 (h.size - 1) := by
    constructor
    · intro c hc hcn hcl hci
      rw [lessAt_swap hpos (by omega), swapped_of_ne (by omega) (by omega),
        swapped_of_ne hci (by omega)]
      exact heap c hc (by omega) hcl
    · omega
  have sifted := down_heaped o _ _ ready (by simp) (Nat.le_refl 0)
    fun y hy => all y (perm.mem_iff.mp hy)
  have size := (down_perm less (h.swapIfInBounds 0 (h.size - 1)) 0 (h.size - 1)).size_eq
  rw [perm.size_eq] at size
  obtain ⟨y, hback, heq⟩ := Option.map_eq_some_iff.mp hp
  cases heq
  constructor
  · intro c hc hcn hcl
    rw [Array.size_pop, size] at hcn
    have old := sifted c hc hcn hcl
    unfold lessAt at *
    rwa [Array.getElem?_pop, Array.getElem?_pop, size, if_pos hcn, if_pos (by omega)]
  · intro z hz
    have hz' : z ∈ h := by
      obtain ⟨h'', hp'', perm'⟩ := pop_spec less hx
      rw [hp] at hp''
      cases hp''
      exact Array.mem_toList_iff.mp
        (perm'.symm.subset (List.mem_cons_of_mem _ (Array.mem_toList_iff.mpr hz)))
    obtain ⟨k, hk, rfl⟩ := Array.mem_iff_getElem.mp hz'
    have := root_least o heap all k hk
    simpa [lessAt, hx, hk] using this

end Heaps

end Ecco9.Library
