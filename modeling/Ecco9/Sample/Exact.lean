import Ecco9.Library.Sorting
import Mathlib.Algebra.BigOperators.Group.List.Basic
import Mathlib.Algebra.Order.BigOperators.Group.List
import Mathlib.Algebra.Order.Field.Basic
import Mathlib.Algebra.Order.Ring.Rat
import Mathlib.Tactic.Linarith
import Mathlib.Tactic.NormNum

/-! The last part of `sample` in `sample/samplers.go`, from the probabilities on, in exact arithmetic. -/

namespace Ecco9.Sample.Exact

open Ecco9.Library

structure Token (F : Type) where
  id : Int
  value : F

variable {F : Type} [Field F]

/-- The values replaced by their sums so far. -/
def cumulate (sum : F) : List (Token F) → List (Token F)
  | [] => []
  | t :: ts => { t with value := sum + t.value } :: cumulate (sum + t.value) ts

/-- The sum of the first `n` values. -/
def cum (ts : List (Token F)) (n : Nat) : F := ((ts.take n).map Token.value).sum

theorem length_cumulate (sum : F) (ts : List (Token F)) : (cumulate sum ts).length = ts.length := by
  induction ts generalizing sum with
  | nil => rfl
  | cons t ts ih => rw [cumulate, List.length_cons, ih, List.length_cons]

theorem cumulate_getElem? (sum : F) (ts : List (Token F)) (i : Nat) :
    (cumulate sum ts)[i]? = ts[i]?.map fun t => { t with value := sum + cum ts (i + 1) } := by
  induction ts generalizing sum i with
  | nil => rfl
  | cons t ts ih =>
    cases i with
    | zero => simp [cumulate, cum]
    | succ i =>
      rw [cumulate, List.getElem?_cons_succ, ih, List.getElem?_cons_succ, cum, cum, List.take_succ_cons,
        List.map_cons, List.sum_cons, add_assoc]

theorem cum_succ {ts : List (Token F)} {t : Token F} {i : Nat} (h : ts[i]? = some t) : cum ts (i + 1) = cum ts i + t.value := by
  rw [cum, cum, List.take_add_one, h]
  simp

variable [LinearOrder F]

/-- The loop of `topP`. -/
def topPFrom (p sum : F) : List (Token F) → List (Token F)
  | [] => []
  | t :: ts => if p < sum + t.value then [t] else t :: topPFrom p (sum + t.value) ts

def topP (ts : List (Token F)) (p : F) : List (Token F) := if p = 1 then ts else topPFrom p 0 ts

def minP (ts : List (Token F)) (p : F) : Option (List (Token F)) := do
  let first ← ts[0]?
  return ts.takeWhile fun t => ¬t.value < first.value * p

/-- The tokens that are left by `topP` and `minP`. -/
def left (ts : List (Token F)) (p q : F) : Option (List (Token F)) := minP (topP ts p) q

/-- Where the search for `r` times the total ends. -/
def search (tokens : List (Token F)) (r : F) : Option Nat := do
  let last ← (cumulate 0 tokens).getLast?
  return binarySearchFunc (fun t => decide (t.value < r * last.value)) (cumulate 0 tokens)

/-- What is returned has the sum up to it as its value. -/
def sample (ts : List (Token F)) (p q r : F) : Option (Token F) := do
  let tokens ← left ts p q
  let idx ← search tokens r
  (cumulate 0 tokens)[idx]?

/-- What stands behind `softmax`: probabilities in descending order. -/
structure Probabilities (ts : List (Token F)) : Prop where
  descending : ts.Pairwise fun a b => b.value ≤ a.value
  nonneg : ∀ t ∈ ts, 0 ≤ t.value
  pos : 0 < (ts.map Token.value).sum

section Cuts

variable {ts : List (Token F)} {t : Token F}

theorem topPFrom_isPrefixOf (p sum : F) (ts : List (Token F)) : topPFrom p sum ts <+: ts := by
  induction ts generalizing sum with
  | nil => exact List.prefix_rfl
  | cons t ts ih =>
    unfold topPFrom
    split
    · exact ⟨ts, rfl⟩
    · exact List.cons_prefix_cons.mpr ⟨rfl, ih _⟩

theorem topP_isPrefixOf (ts : List (Token F)) (p : F) : topP ts p <+: ts := by
  unfold topP
  split
  · exact List.prefix_rfl
  · exact topPFrom_isPrefixOf ..

/-- The first token stays. -/
theorem topP_cons (t : Token F) (ts : List (Token F)) (p : F) : ∃ front, topP (t :: ts) p = t :: front := by
  unfold topP topPFrom
  split
  · exact ⟨ts, rfl⟩
  · split
    · exact ⟨[], rfl⟩
    · exact ⟨_, rfl⟩

variable [IsStrictOrderedRing F]

theorem minP_cons (hpos : 0 ≤ t.value) {q : F} (hq : q ≤ 1) (ts : List (Token F)) :
    ∃ mid, minP (t :: ts) q = some (t :: mid) ∧ mid <+: ts := by
  have hfirst : ¬t.value < t.value * q := not_lt.mpr (mul_le_of_le_one_right hpos hq)
  refine ⟨ts.takeWhile fun u => ¬u.value < t.value * q, ?_, List.takeWhile_prefix _⟩
  exact congrArg some (List.takeWhile_cons_of_pos (by simpa using hfirst))

theorem Probabilities.head (h : Probabilities (t :: ts)) : 0 < t.value := by
  by_contra hle
  have hall : ∀ x ∈ (t :: ts).map Token.value, x ≤ 0 := by
    intro x hx
    obtain ⟨u, hu, rfl⟩ := List.mem_map.mp hx
    rcases List.mem_cons.mp hu with rfl | hu
    · exact not_lt.mp hle
    · exact ((List.pairwise_cons.mp h.descending).1 u hu).trans (not_lt.mp hle)
  exact absurd h.pos (not_lt.mpr ((List.sum_le_card_nsmul _ 0 hall).trans_eq (nsmul_zero _)))

/-- A list from which one is chosen: the first value is positive and none is negative. -/
structure Weighted (ts : List (Token F)) : Prop where
  nonneg : ∀ t ∈ ts, 0 ≤ t.value
  head : ∃ t ∈ ts[0]?, 0 < t.value

theorem Weighted.total (h : Weighted ts) : 0 < cum ts ts.length := by
  obtain ⟨t, ht, hpos⟩ := h.head
  cases ts with
  | nil => exact absurd ht (by simp)
  | cons u ts =>
    obtain rfl : u = t := by simpa using ht
    have hrest : 0 ≤ (ts.map Token.value).sum := List.sum_nonneg fun x hx => by
      obtain ⟨v, hv, rfl⟩ := List.mem_map.mp hx
      exact h.nonneg v (List.mem_cons_of_mem _ hv)
    rw [cum, List.take_length, List.map_cons, List.sum_cons]
    exact add_pos_of_pos_of_nonneg hpos hrest

/-- The search ends inside the list, at a token of positive weight around whose sum the target is. -/
theorem Weighted.search (h : Weighted ts) {r : F} (hr : 0 ≤ r) (hr1 : r < 1) :
    ∃ i t, Exact.search ts r = some i ∧ ts[i]? = some t ∧ 0 < t.value ∧
      cum ts i ≤ r * cum ts ts.length ∧ r * cum ts ts.length ≤ cum ts (i + 1) := by
  have htotal := h.total
  have hlt : r * cum ts ts.length < cum ts ts.length := mul_lt_of_lt_one_left htotal hr1
  have hge : 0 ≤ r * cum ts ts.length := mul_nonneg hr (le_of_lt htotal)
  obtain ⟨first, hfirst, hpos⟩ := h.head
  have hlen : 0 < ts.length := (List.getElem?_eq_some_iff.mp hfirst).1
  have hlast : (cumulate 0 ts).getLast? = ts[ts.length - 1]?.map fun t =>
      { t with value := cum ts ts.length } := by
    rw [List.getLast?_eq_getElem?, length_cumulate, cumulate_getElem?, Nat.sub_add_cancel hlen, zero_add]
  have hget : ts[ts.length - 1]? = some ts[ts.length - 1] := List.getElem?_eq_getElem _
  rw [hget, Option.map_some] at hlast
  obtain ⟨hbelow, habove⟩ := binarySearchFunc_spec
    (fun t : Token F => decide (t.value < r * cum ts ts.length)) (cumulate 0 ts)
  have hsearch : Exact.search ts r = some (binarySearchFunc
      (fun t : Token F => decide (t.value < r * cum ts ts.length)) (cumulate 0 ts)) := by
    rw [Exact.search, hlast]
    rfl
  generalize binarySearchFunc _ (cumulate 0 ts) = i at hbelow habove hsearch
  have hany (j : Nat) : (cumulate 0 ts)[j]?.any (fun t => decide (t.value < r * cum ts ts.length)) = true ↔
      j < ts.length ∧ cum ts (j + 1) < r * cum ts ts.length := by
    rw [cumulate_getElem?]
    by_cases hj : j < ts.length
    · simp [hj]
    · simp [hj]
  rw [hany] at hbelow
  rw [Bool.eq_false_iff, ne_eq, hany] at habove
  have hi : i < ts.length := by
    by_contra hge
    rcases hbelow with rfl | ⟨hlt', hcum⟩
    · exact hge hlen
    · have heq : i - 1 + 1 = ts.length := by omega
      rw [heq] at hcum
      exact lt_asymm hcum hlt
  have hle : r * cum ts ts.length ≤ cum ts (i + 1) := not_lt.mp fun hcum => habove ⟨hi, hcum⟩
  have hsucc := cum_succ (List.getElem?_eq_getElem hi)
  refine ⟨i, ts[i], hsearch, List.getElem?_eq_getElem hi, ?_⟩
  rcases hbelow with rfl | ⟨-, hcum⟩
  · rw [List.getElem?_eq_getElem hi] at hfirst
    obtain rfl := Option.some.inj hfirst
    exact ⟨hpos, hge, hle⟩
  · cases i with
    | zero => exact absurd hcum (not_lt.mpr hle)
    | succ i =>
      refine ⟨?_, le_of_lt hcum, hle⟩
      rw [Nat.add_sub_cancel] at hcum
      linarith

end Cuts

/-- Both cuts leave the first tokens, and one of them that has a positive probability is chosen: the
target lies between the sum before it and the sum up to it. -/
theorem sample_exact [IsStrictOrderedRing F] (ts : List (Token F)) (h : Probabilities ts) (p q r : F)
    (hq : q ≤ 1) (hr : 0 ≤ r ∧ r < 1) :
    topP ts p ≠ [] ∧ topP ts p <+: ts ∧ ∃ mid i t, left ts p q = some mid ∧ mid ≠ [] ∧
      mid <+: topP ts p ∧ search mid r = some i ∧ mid[i]? = some t ∧ 0 < t.value ∧
      sample ts p q r = some { t with value := cum mid (i + 1) } ∧
      cum mid i ≤ r * cum mid mid.length ∧ r * cum mid mid.length ≤ cum mid (i + 1) := by
  cases ts with
  | nil => exact absurd h.pos (lt_irrefl 0)
  | cons t ts =>
    obtain ⟨front, hfront⟩ := topP_cons t ts p
    obtain ⟨mid, hmid, hsub⟩ := minP_cons (le_of_lt h.head) hq front
    have hprefix := topP_isPrefixOf (t :: ts) p
    rw [hfront] at hprefix ⊢
    have hleft : left (t :: ts) p q = some (t :: mid) := by rw [left, hfront, hmid]
    have hcut : t :: mid <+: t :: front := List.cons_prefix_cons.mpr ⟨rfl, hsub⟩
    have hweighted : Weighted (t :: mid) :=
      ⟨fun u hu => h.nonneg u ((hcut.trans hprefix).subset hu), t, rfl, h.head⟩
    obtain ⟨i, u, hsearch, hget, hpos, hlow, hhigh⟩ := hweighted.search hr.1 hr.2
    refine ⟨List.cons_ne_nil t front, hprefix, t :: mid, i, u, hleft, List.cons_ne_nil t mid, hcut,
      hsearch, hget, hpos, ?_, hlow, hhigh⟩
    rw [sample, hleft, Option.bind_eq_bind, Option.bind_some, hsearch, Option.bind_eq_bind,
      Option.bind_some, cumulate_getElem?, hget, zero_add]
    rfl

def threeTokens : List (Token ℚ) := [⟨7, 3 / 4⟩, ⟨2, 1 / 4⟩, ⟨5, 0⟩]

theorem threeTokens_sample : topP threeTokens (9 / 10) ≠ [] ∧ topP threeTokens (9 / 10) <+: threeTokens ∧
    ∃ mid i t, left threeTokens (9 / 10) (1 / 10) = some mid ∧ mid ≠ [] ∧
      mid <+: topP threeTokens (9 / 10) ∧ search mid 0 = some i ∧ mid[i]? = some t ∧ 0 < t.value ∧
      sample threeTokens (9 / 10) (1 / 10) 0 = some { t with value := cum mid (i + 1) } ∧
      cum mid i ≤ 0 * cum mid mid.length ∧ 0 * cum mid mid.length ≤ cum mid (i + 1) := by
  have h : Probabilities threeTokens :=
    { descending := by norm_num [threeTokens]
      nonneg := by norm_num [threeTokens]
      pos := by norm_num [threeTokens] }
  exact sample_exact threeTokens h (9 / 10) (1 / 10) 0 (by norm_num) (by norm_num)

end Ecco9.Sample.Exact
