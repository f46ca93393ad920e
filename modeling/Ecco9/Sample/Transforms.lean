import Ecco9.Library.Floats
import Ecco9.Library.Heaps
import Ecco9.Library.Sorting

/-! The transformations of `sample/transforms.go`. A `float32` is Lean's. Where the source would index
out of range, the model gives `none`. `topK` keeps the largest of the logits. -/

namespace Ecco9.Sample

open Ecco9.Library

structure Token where
  id : Int
  value : Float32
  deriving DecidableEq

/-- `float32(math.Exp(float64(x)))` -/
structure Exponential where
  exp : Float32 → Float32
  exp_isNaN : ∀ {x}, x.isNaN = true → (exp x).isNaN = true
  exp_negInf : IsZero (exp negInf)

def temperature (ts : List Token) (temp : Float32) : List Token :=
  ts.map fun t => { t with value := t.value / max temp 1e-7 }

def maxLogit (ts : List Token) : Float32 :=
  ts.foldl (fun m t => if m < t.value then t.value else m) negInf

def sumValues (ts : List Token) : Float32 := ts.foldl (fun sum t => sum + t.value) 0

def softmax (E : Exponential) (ts : List Token) : List Token :=
  let exps := ts.map fun t => { t with value := E.exp (t.value - maxLogit ts) }
  exps.map fun t => { t with value := t.value / sumValues exps }

/-- `Less` of the `tokenHeap` -/
def less (a b : Token) : Bool := a.value < b.value

/-- The order in which `topK` sorts. -/
def descending (a b : Token) : Int :=
  if a.value < b.value then 1 else if b.value < a.value then -1 else 0

/-- The loop of `topK` over the tokens after the first `k`. -/
def grow (h : Array Token) : List Token → Option (Array Token)
  | [] => some h
  | t :: ts => do
    let root ← h[0]?
    if root.value < t.value then
      let (_, h) ← Heaps.pop less h
      grow (Heaps.push less h t) ts
    else grow h ts

/-- The last loop of `topK`, which fills `result` from its end. -/
def drain (h : Array Token) (result : List Token) : Nat → Option (List Token)
  | 0 => some result
  | k + 1 => do
    let (t, h) ← Heaps.pop less h
    drain h (t :: result) k

def topK (S : SortFunc) (ts : List Token) (k : Int) : Option (List Token) :=
  if ts.length ≤ k ∨ k ≤ 0 then some (S.sort descending ts)
  else do
    let h ← grow (Heaps.init less (ts.take k.toNat).toArray) (ts.drop k.toNat)
    drain h [] k.toNat

/-- The loop of `topP`. -/
def topPFrom (p sum : Float32) : List Token → List Token
  | [] => []
  | t :: ts => if p < sum + t.value then [t] else t :: topPFrom p (sum + t.value) ts

def topP (ts : List Token) (p : Float32) : List Token := if p == 1 then ts else topPFrom p 0 ts

def minP (ts : List Token) (p : Float32) : Option (List Token) := do
  let first ← ts[0]?
  return ts.takeWhile fun t => ¬t.value < first.value * p

theorem less_order : HeapOrder less (fun t => t.value.isNaN = false) where
  asymm h := by
    simp only [less, decide_eq_true_eq, decide_eq_false_iff_not] at *
    exact lt_asymm_float h
  trans := by
    intro x y z hy hyx hzy
    simp only [less, decide_eq_false_iff_not] at *
    exact not_lt_trans hy hyx hzy

@[simp] theorem descending_neg {a b : Token} : descending a b < 0 ↔ b.value < a.value := by
  unfold descending
  split
  case isTrue h => simpa using lt_asymm_float h
  case isFalse => split <;> simp [*]

theorem descending_weak {ts : List Token} (h : ∀ t ∈ ts, t.value.isNaN = false) :
    StrictWeak descending ts where
  asymm a _ b _ hab := by
    rw [descending_neg] at *
    exact lt_asymm_float hab
  trans a _ b hb c _ hba hcb := by
    rw [descending_neg] at *
    exact fun hac => not_lt_trans (h b hb) hcb hba hac

/-- No value is above one that stands before it. -/
abbrev Descending (ts : List Token) : Prop := ts.Pairwise fun a b => ¬a.value < b.value

theorem topPFrom_isPrefixOf (p sum : Float32) (ts : List Token) : topPFrom p sum ts <+: ts := by
  induction ts generalizing sum with
  | nil => exact List.prefix_rfl
  | cons t ts ih =>
    unfold topPFrom
    split
    · exact ⟨ts, rfl⟩
    · exact List.cons_prefix_cons.mpr ⟨rfl, ih _⟩

theorem topP_isPrefixOf (ts : List Token) (p : Float32) : topP ts p <+: ts := by
  unfold topP
  split
  · exact List.prefix_rfl
  · exact topPFrom_isPrefixOf ..

theorem minP_isPrefixOf {ts ts' : List Token} {p : Float32} (h : minP ts p = some ts') :
    ts' <+: ts := by
  simp only [minP, Option.bind_eq_bind, Option.pure_def, Option.bind_eq_some_iff] at h
  obtain ⟨first, -, h⟩ := h
  cases h
  exact List.takeWhile_prefix _

abbrev NoNaN (ts : List Token) : Prop := ∀ t ∈ ts, t.value.isNaN = false

/-- What a replaced root keeps, the loop of `topK` keeps. -/
theorem grow_invariant {P : Array Token → Prop} (ts : List Token) {h : Array Token}
    (pos : 0 < h.size) (start : P h)
    (step : ∀ {h root h' t}, t ∈ ts → P h → h[0]? = some root → root.value < t.value →
      Heaps.pop less h = some (root, h') → P (Heaps.push less h' t)) :
    ∃ h', grow h ts = some h' ∧ P h' ∧ h'.size = h.size := by
  induction ts generalizing h with
  | nil => exact ⟨h, rfl, start, rfl⟩
  | cons t ts ih =>
    have hroot : h[0]? = some h[0] := Array.getElem?_eq_getElem pos
    unfold grow
    simp only [hroot, Option.bind_eq_bind, Option.bind_some]
    split
    case isTrue above =>
      obtain ⟨h', hpop, perm⟩ := Heaps.pop_spec less hroot
      have size : (Heaps.push less h' t).size = h.size := by
        have := perm.length_eq
        simp only [Array.length_toList, List.length_cons] at this
        rw [(Heaps.push_perm less h' t).size_eq, Array.size_push, this]
      simp only [hpop, Option.bind_some]
      rw [← size]
      exact ih (by omega) (step List.mem_cons_self start hroot above hpop)
        fun ht => step (List.mem_cons_of_mem _ ht)
    case isFalse => exact ih pos start fun ht => step (List.mem_cons_of_mem _ ht)

theorem drain_perm (h : Array Token) (result : List Token) {k : Nat} (hk : h.size = k) :
    ∃ l, drain h result k = some l ∧ l.Perm (h.toList ++ result) := by
  induction k generalizing h result with
  | zero => exact ⟨result, rfl, by simp [Array.size_eq_zero_iff.mp hk]⟩
  | succ k ih =>
    obtain ⟨h', hpop, perm⟩ :=
      Heaps.pop_spec less (Array.getElem?_eq_getElem (show 0 < h.size by omega))
    have size : h'.size = k := by simpa [hk] using perm.length_eq.symm
    obtain ⟨l, hl, perm'⟩ := ih h' (h[0] :: result) size
    refine ⟨l, by simp [drain, hpop, hl], perm'.trans ?_⟩
    exact List.perm_middle.trans (perm.symm.append_right result)

theorem drain_descending {h : Array Token} {result l : List Token} {k : Nat} (hk : h.size = k)
    (heap : Heaps.Heap less h) (all : NoNaN h.toList) (sorted : Descending result)
    (above : ∀ y ∈ h, ∀ b ∈ result, ¬y.value < b.value) (hl : drain h result k = some l) :
    Descending l := by
  induction k generalizing h result with
  | zero =>
    cases hl
    exact sorted
  | succ k ih =>
    have hroot : h[0]? = some h[0] := Array.getElem?_eq_getElem (by omega)
    obtain ⟨h', hpop, perm⟩ := Heaps.pop_spec less hroot
    obtain ⟨heap', least⟩ := Heaps.pop_heap less_order heap 
      (fun y hy => all y (Array.mem_toList_iff.mpr hy)) hroot hpop
    have sub : ∀ y ∈ h', y ∈ h := fun y hy => Array.mem_toList_iff.mp
      (perm.symm.subset (List.mem_cons_of_mem _ (Array.mem_toList_iff.mpr hy)))
    simp only [drain, hpop, Option.bind_eq_bind, Option.bind_some] at hl
    refine ih (by simpa [hk] using perm.length_eq.symm) heap'
      (fun y hy => all y (Array.mem_toList_iff.mpr (sub y (Array.mem_toList_iff.mp hy))))
      (List.pairwise_cons.mpr ⟨above _ (Array.getElem_mem _), sorted⟩) ?_ hl
    intro y hy b hb
    rcases List.mem_cons.mp hb with rfl | hb
    · simpa [less] using least y hy
    · exact above y (sub y hy) b hb

/-- Either a `NaN` is in the heap, or the heap is in order. -/
def Sound (h : Array Token) : Prop :=
  (∃ t ∈ h, t.value.isNaN = true) ∨ Heaps.Heap less h ∧ ∀ t ∈ h, t.value.isNaN = false

theorem init_sound (h : Array Token) : Sound (Heaps.init less h) := by
  have perm := Heaps.init_perm less h
  by_cases nan : ∃ t ∈ h, t.value.isNaN = true
  · obtain ⟨t, ht, nan⟩ := nan
    exact .inl ⟨t, perm.mem_iff.mpr ht, nan⟩
  · have all : ∀ t ∈ h, t.value.isNaN = false :=
      fun t ht => Bool.eq_false_iff.mpr fun e => nan ⟨t, ht, e⟩
    exact .inr ⟨Heaps.init_heap less_order h all, fun t ht => all t (perm.mem_iff.mp ht)⟩

/-- A `NaN` at the root is not below any value and so is never replaced, and one that comes later is
above none. -/
theorem replace_sound {h h' : Array Token} {root t : Token} (sound : Sound h)
    (hroot : h[0]? = some root) (above : root.value < t.value)
    (hpop : Heaps.pop less h = some (root, h')) : Sound (Heaps.push less h' t) := by
  obtain ⟨h'', hpop', perm⟩ := Heaps.pop_spec less hroot
  rw [hpop] at hpop'
  cases hpop'
  have pushed := Heaps.push_perm less h' t
  rcases sound with ⟨u, hu, nan⟩ | ⟨heap, all⟩
  · refine .inl ⟨u, pushed.mem_iff.mpr ?_, nan⟩
    rcases List.mem_cons.mp (perm.subset (Array.mem_toList_iff.mpr hu)) with rfl | hu
    · exact absurd nan (Bool.eq_false_iff.mp (isNaN_of_lt_left above))
    · exact Array.mem_push_of_mem _ (Array.mem_toList_iff.mp hu)
  · have rest : ∀ y ∈ h'.push t, y.value.isNaN = false := by
      intro y hy
      rcases Array.mem_push.mp hy with hy | rfl
      · exact all y (Array.mem_toList_iff.mp
          (perm.symm.subset (List.mem_cons_of_mem _ (Array.mem_toList_iff.mpr hy))))
      · exact isNaN_of_lt_right above
    obtain ⟨heap', -⟩ := Heaps.pop_heap less_order heap all hroot hpop
    exact .inr ⟨Heaps.push_heap less_order heap' t rest,
      fun y hy => rest y (pushed.mem_iff.mp hy)⟩

theorem replace_mem {h h' : Array Token} {root t y : Token} (hroot : h[0]? = some root)
    (hpop : Heaps.pop less h = some (root, h')) (hy : y ∈ Heaps.push less h' t) :
    y ∈ h ∨ y = t := by
  obtain ⟨h'', hpop', perm⟩ := Heaps.pop_spec less hroot
  rw [hpop] at hpop'
  cases hpop'
  refine (Array.mem_push.mp ((Heaps.push_perm less h' t).mem_iff.mp hy)).imp_left fun hy => ?_
  exact Array.mem_toList_iff.mp
    (perm.symm.subset (List.mem_cons_of_mem _ (Array.mem_toList_iff.mpr hy)))

/-- The tokens that `topK` keeps are in descending order if none of them is `NaN`. -/
theorem topK_spec (S : SortFunc) (ts : List Token) (k : Int) :
    ∃ l, topK S ts k = some l ∧ l ⊆ ts ∧ (NoNaN l → Descending l) := by
  unfold topK
  split
  case isTrue =>
    refine ⟨_, rfl, (S.perm descending ts).subset, fun clean => ?_⟩
    have := S.ordered (descending_weak fun t ht => clean t ((S.perm descending ts).mem_iff.mpr ht))
    exact this.imp fun h => by simpa using h
  case isFalse small =>
    rw [not_or] at small
    have perm := Heaps.init_perm less (ts.take k.toNat).toArray
    have size : (Heaps.init less (ts.take k.toNat).toArray).size = k.toNat := by
      rw [perm.size_eq, List.size_toArray, List.length_take]
      omega
    have start : (∀ t ∈ Heaps.init less (ts.take k.toNat).toArray, t ∈ ts) ∧
        Sound (Heaps.init less (ts.take k.toNat).toArray) :=
      ⟨fun t ht => List.mem_of_mem_take (by simpa using perm.mem_iff.mp ht), init_sound _⟩
    obtain ⟨h, hgrow, ⟨sub, sound⟩, hsize⟩ := grow_invariant
      (P := fun h => (∀ t ∈ h, t ∈ ts) ∧ Sound h) (ts.drop k.toNat) (by omega) start
      fun ht sound hroot above hpop =>
        ⟨fun y hy => (replace_mem hroot hpop hy).elim (sound.1 y)
          fun hyt => hyt ▸ List.mem_of_mem_drop ht, replace_sound sound.2 hroot above hpop⟩
    rw [size] at hsize
    obtain ⟨l, hdrain, permL⟩ := drain_perm h [] hsize
    rw [List.append_nil] at permL
    refine ⟨l, by simp [hgrow, hdrain], fun t ht => sub t (by simpa using permL.subset ht), ?_⟩
    intro clean
    rcases sound with ⟨t, ht, nan⟩ | ⟨heap, all⟩
    · have := clean t (permL.symm.subset (by simpa using ht))
      exact absurd nan (Bool.eq_false_iff.mp this)
    · exact drain_descending hsize heap (fun t ht => all t (by simpa using ht)) List.Pairwise.nil
        (by simp) hdrain

theorem foldl_add_isNaN (ts : List Token) (sum : Float32)
    (h : sum.isNaN = true ∨ ∃ t ∈ ts, t.value.isNaN = true) :
    (ts.foldl (fun sum t => sum + t.value) sum).isNaN = true := by
  induction ts generalizing sum with
  | nil => simpa using h
  | cons t ts ih =>
    apply ih
    rcases h with h | ⟨u, hu, h⟩
    · exact .inl (add_isNaN (.inl h))
    · rcases List.mem_cons.mp hu with rfl | hu
      · exact .inl (add_isNaN (.inr h))
      · exact .inr ⟨u, hu, h⟩

/-- A `NaN` among the logits makes every probability one. -/
theorem softmax_isNaN (E : Exponential) {ts : List Token} {t u : Token} (ht : t ∈ ts)
    (nan : (t.value - maxLogit ts).isNaN = true) (hu : u ∈ softmax E ts) :
    u.value.isNaN = true := by
  obtain ⟨v, -, rfl⟩ := List.mem_map.mp hu
  refine div_isNaN (.inr (foldl_add_isNaN _ _ (.inr ?_)))
  exact ⟨_, List.mem_map.mpr ⟨t, ht, rfl⟩, E.exp_isNaN nan⟩

theorem maxLogit_negInf {ts : List Token} (h : ∀ t ∈ ts, t.value = negInf) :
    maxLogit ts = negInf := by
  unfold maxLogit
  induction ts with
  | nil => rfl
  | cons t ts ih =>
    have ht := h t List.mem_cons_self
    simp only [List.foldl_cons, ht, ite_self]
    exact ih fun u hu => h u (List.mem_cons_of_mem _ hu)

theorem softmax_getElem? (E : Exponential) {ts : List Token} {t : Token} {i : Nat}
    (ht : ts[i]? = some t) :
    ∃ sum, (softmax E ts)[i]? = some ⟨t.id, E.exp (t.value - maxLogit ts) / sum⟩ :=
  ⟨_, by simp [softmax, ht]; rfl⟩

/-! ### `topK` -/

variable {ts l dropped : List Token} {h h' : Array Token} {root t : Token}

/-- The heap with the tokens that were dropped: none of these is above one that is kept. -/
structure Kept (h : Array Token) (dropped : List Token) : Prop where
  heap : Heaps.Heap less h
  clean : NoNaN h.toList
  above : ∀ a ∈ h, ∀ d ∈ dropped, ¬a.value < d.value

theorem Kept.root_least (kept : Kept h dropped) (hroot : h[0]? = some root) :
    root.value.isNaN = false ∧ ∀ a ∈ h, ¬a.value < root.value := by
  have hclean : ∀ y ∈ h, y.value.isNaN = false := fun y hy => kept.clean y (Array.mem_toList_iff.mpr hy)
  have hmem : root ∈ h := Array.mem_of_getElem? hroot
  obtain ⟨h', hpop, perm⟩ := Heaps.pop_spec less hroot
  obtain ⟨-, least⟩ := Heaps.pop_heap less_order kept.heap hclean hroot hpop
  refine ⟨hclean root hmem, fun a ha => ?_⟩
  rcases List.mem_cons.mp (perm.subset (Array.mem_toList_iff.mpr ha)) with rfl | ha
  · exact fun hlt => lt_asymm_float hlt hlt
  · simpa [less] using least a (Array.mem_toList_iff.mp ha)

/-- A token that is not above the root is dropped. -/
theorem Kept.drop (kept : Kept h dropped) (hroot : h[0]? = some root) (hle : ¬root.value < t.value) :
    Kept h (t :: dropped) := by
  obtain ⟨hclean, hleast⟩ := kept.root_least hroot
  refine ⟨kept.heap, kept.clean, fun a ha d hd => ?_⟩
  rcases List.mem_cons.mp hd with rfl | hd
  · exact fun hlt => not_lt_trans hclean hle (hleast a ha) hlt
  · exact kept.above a ha d hd

/-- One that is above the root takes its place. -/
theorem Kept.replace (kept : Kept h dropped) (hroot : h[0]? = some root) (hlt : root.value < t.value)
    (hpop : Heaps.pop less h = some (root, h')) : Kept (Heaps.push less h' t) (root :: dropped) := by
  obtain ⟨hclean, hleast⟩ := kept.root_least hroot
  have hgood : ∀ y ∈ h, y.value.isNaN = false := fun y hy => kept.clean y (Array.mem_toList_iff.mpr hy)
  have hmem (y : Token) (hy : y ∈ Heaps.push less h' t) : y ∈ h ∨ y = t := replace_mem hroot hpop hy
  have hpushed (y : Token) (hy : y ∈ Heaps.push less h' t) : y.value.isNaN = false := by
    rcases hmem y hy with hy | rfl
    · exact hgood y hy
    · exact isNaN_of_lt_right hlt
  obtain ⟨heap', -⟩ := Heaps.pop_heap less_order kept.heap hgood hroot hpop
  refine ⟨Heaps.push_heap less_order heap' t fun y hy => hpushed y ?_, fun y hy => hpushed y ?_, ?_⟩
  · exact (Heaps.push_perm less h' t).mem_iff.mpr hy
  · exact Array.mem_toList_iff.mp hy
  intro a ha d hd
  have hroot' : ¬a.value < root.value := by
    rcases hmem a ha with ha | rfl
    · exact hleast a ha
    · exact lt_asymm_float hlt
  rcases List.mem_cons.mp hd with rfl | hd
  · exact hroot'
  · exact not_lt_trans hclean (kept.above root (Array.mem_of_getElem? hroot) d hd) hroot'

/-- With every token that comes, one is dropped. -/
theorem grow_kept (ts : List Token) (pos : 0 < h.size) (kept : Kept h dropped) :
    ∃ h' dropped', grow h ts = some h' ∧ Kept h' dropped' ∧ h'.size = h.size ∧
      (h'.toList ++ dropped').Perm (h.toList ++ (dropped ++ ts)) := by
  induction ts generalizing h dropped with
  | nil =>
    rw [List.append_nil]
    exact ⟨h, dropped, rfl, kept, rfl, .rfl⟩
  | cons t ts ih =>
    have hroot : h[0]? = some h[0] := Array.getElem?_eq_getElem pos
    unfold grow
    simp only [hroot, Option.bind_eq_bind, Option.bind_some]
    split
    case isTrue above =>
      obtain ⟨h₁, hpop, perm⟩ := Heaps.pop_spec less hroot
      have pushed := (Heaps.push_perm less h₁ t).toList
      rw [Array.toList_push] at pushed
      have size : (Heaps.push less h₁ t).size = h.size := by
        rw [← Array.length_toList, ← Array.length_toList, pushed.length_eq, perm.length_eq,
          List.length_append, List.length_singleton, List.length_cons]
      simp only [hpop, Option.bind_some]
      obtain ⟨h', dropped', hgrow, kept', hsize, hperm⟩ := ih (by omega) (kept.replace hroot above hpop)
      refine ⟨h', dropped', hgrow, kept', hsize.trans size, hperm.trans ?_⟩
      refine (pushed.append_right _).trans (List.perm_iff_count.mpr fun a => ?_)
      have hcount := perm.count_eq a
      simp only [List.count_append, List.count_cons, List.count_nil] at hcount ⊢
      omega
    case isFalse hle =>
      obtain ⟨h', dropped', hgrow, kept', hsize, hperm⟩ := ih pos (kept.drop hroot hle)
      refine ⟨h', dropped', hgrow, kept', hsize, hperm.trans (List.Perm.append_left _ ?_)⟩
      exact List.perm_middle.symm

/-- The heap of the first tokens. -/
theorem init_kept (clean : NoNaN ts) (k : Nat) : Kept (Heaps.init less (ts.take k).toArray) [] := by
  have hgood : ∀ t ∈ (ts.take k).toArray, t.value.isNaN = false :=
    fun t ht => clean t (List.mem_of_mem_take (List.mem_toArray.mp ht))
  refine ⟨Heaps.init_heap less_order _ hgood, fun t ht => hgood t ?_, nofun⟩
  exact (Heaps.init_perm less _).mem_iff.mp (Array.mem_toList_iff.mp ht)

/-- What `topK` returns and what it leaves out are the tokens there were. -/
theorem topK_kept (S : SortFunc) (clean : NoNaN ts) (k : Int) :
    ∃ l rest, topK S ts k = some l ∧ (l ++ rest).Perm ts ∧ Descending l ∧
      (∀ a ∈ l, ∀ d ∈ rest, ¬a.value < d.value) ∧
      l.length = if 0 < k ∧ k < ts.length then k.toNat else ts.length := by
  have hweak := descending_weak clean
  unfold topK
  split
  case isTrue hall =>
    refine ⟨_, [], rfl, ?_, (S.ordered hweak).imp fun h => by simpa using h, nofun, ?_⟩
    · rw [List.append_nil]
      exact S.perm descending ts
    · rw [if_neg (by omega)]
      exact (S.perm descending ts).length_eq
  case isFalse hsome =>
    rw [not_or] at hsome
    have size : (Heaps.init less (ts.take k.toNat).toArray).size = k.toNat := by
      rw [(Heaps.init_perm less _).size_eq, List.size_toArray, List.length_take]
      omega
    obtain ⟨h, rest, hgrow, kept, hsize, perm⟩ := grow_kept (ts.drop k.toNat) (by omega)
      (init_kept clean k.toNat)
    rw [size] at hsize
    obtain ⟨l, hdrain, permL⟩ := drain_perm h [] hsize
    rw [List.append_nil] at permL
    have hinit : (Heaps.init less (ts.take k.toNat).toArray).toList.Perm (ts.take k.toNat) :=
      (Heaps.init_perm less _).toList
    refine ⟨l, rest, by simp [hgrow, hdrain], ?_, ?_, ?_, ?_⟩
    · refine (permL.append_right rest).trans (perm.trans ?_)
      rw [List.nil_append]
      exact (hinit.append_right _).trans (List.Perm.of_eq (List.take_append_drop k.toNat ts))
    · exact drain_descending hsize kept.heap kept.clean List.Pairwise.nil (by simp) hdrain
    · exact fun a ha => kept.above a (Array.mem_toList_iff.mp (permL.subset ha))
    · rw [if_pos (by omega), permL.length_eq, Array.length_toList, hsize]

/-- `topK` returns tokens of the list, each of them once, in descending order, and their values are the
first ones of the list in any descending order. -/
theorem topK_largest (S : SortFunc) (ts : List Token) (k : Int) (clean : NoNaN ts) :
    ∃ l rest, topK S ts k = some l ∧ (l ++ rest).Perm ts ∧ Descending l ∧
      l.length = (if 0 < k ∧ k < ts.length then k.toNat else ts.length) ∧
      ∀ sorted : List Token, sorted.Perm ts → Descending sorted →
        List.Forall₂ (fun a b => a.value == b.value) l (sorted.take l.length) := by
  obtain ⟨l, rest, htop, perm, hdesc, habove, hlen⟩ := topK_kept S clean k
  refine ⟨l, rest, htop, perm, hdesc, hlen, fun sorted hsorted hdesc' => ?_⟩
  have hclean (t : Token) (ht : t ∈ rest) : t.value.isNaN = false :=
    clean t (perm.subset (List.mem_append_right l ht))
  have hweak := descending_weak clean
  -- the tokens that were left out, in order behind those that were returned
  have hwhole : (l ++ S.sort descending rest).Pairwise fun a b => ¬descending b a < 0 := by
    refine List.pairwise_append.mpr ⟨hdesc.imp fun h => by simpa using h,
      S.ordered (descending_weak hclean), fun a ha d hd => ?_⟩
    have hle := habove a ha d ((S.perm descending rest).subset hd)
    simpa using hle
  have hpoint := hweak.pointwise (((S.perm descending rest).append_left l).trans perm) hsorted hwhole
    (hdesc'.imp fun h => by simpa using h)
  have hfront := List.forall₂_take l.length hpoint
  rw [List.take_left] at hfront
  refine List.forall₂_iff_zip.mpr ⟨hfront.length_eq, fun {a b} hab => ?_⟩
  obtain ⟨hba, hab'⟩ := List.forall₂_zip hfront hab
  obtain ⟨ha, hb⟩ := List.of_mem_zip hab
  have ha' := clean a (perm.subset (List.mem_append_left rest ha))
  have hb' := clean b (hsorted.subset (List.mem_of_mem_take hb))
  rw [descending_neg] at hba hab'
  exact (beq_iff ha' hb').mpr ⟨hab', hba⟩

theorem topK_largest_two : ∃ l rest, topK stableSort [⟨0, 1⟩, ⟨1, 3⟩, ⟨2, 2⟩] 2 = some l ∧
    (l ++ rest).Perm [⟨0, 1⟩, ⟨1, 3⟩, ⟨2, 2⟩] ∧ Descending l ∧
      l.length = (if 0 < (2 : Int) ∧ 2 < (3 : Int) then 2 else 3) ∧
      ∀ sorted : List Token, sorted.Perm [⟨0, 1⟩, ⟨1, 3⟩, ⟨2, 2⟩] → Descending sorted →
        List.Forall₂ (fun a b => a.value == b.value) l (sorted.take l.length) :=
  topK_largest stableSort _ 2 (by decide)

end Ecco9.Sample
