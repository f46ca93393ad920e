import Mathlib.Algebra.Order.Field.Basic
import Mathlib.Data.List.Basic
import Mathlib.Tactic.Linarith
import Mathlib.Tactic.Ring

/-! Token buckets that are refilled when a token is asked for, and what they grant. -/

universe u

namespace Ecco9.Library

variable {F : Type u} [Field F] [LinearOrder F]

structure Bucket (F : Type u) where
  tokens : F
  last : F

namespace Bucket

variable (capacity rate : F)

/-- The tokens at the time `now`. -/
def refill (b : Bucket F) (now : F) : F := min capacity (b.tokens + (now - b.last) * rate)

/-- The bucket after a token was asked for, and whether it was granted. -/
def take (b : Bucket F) (now : F) : Bucket F × Bool :=
  let tokens := b.refill capacity rate now
  if tokens < 1 then (⟨tokens, now⟩, false) else (⟨tokens - 1, now⟩, true)

/-- The tokens at a time behind the grants, the latest first: they flow at the rate, up to the capacity,
and each grant takes one. -/
def level : List F → F → F
  | [], _ => capacity
  | g :: grants, now => min capacity (level grants g - 1 + (now - g) * rate)

end Bucket

/-- The times of the calls that were granted, the latest first. -/
def granted (calls : List (F × Bool)) : List F := ((calls.filter Prod.snd).map Prod.fst).reverse

/-- How many calls were granted from one time to another. -/
def grants (calls : List (F × Bool)) (a b : F) : Nat := calls.countP fun c => c.2 && a ≤ c.1 && c.1 ≤ b

/-- What calls of a bucket get: in every window no more than its capacity and what flows in, and each of
them just when there is a token by then. -/
structure Obeys (capacity rate : F) (calls : List (F × Bool)) : Prop where
  window : ∀ a T, 0 ≤ T → (grants calls a (a + T) : F) ≤ capacity + T * rate
  decided : ∀ front t ok back, calls = front ++ (t, ok) :: back →
    (ok = false ↔ Bucket.level capacity rate (granted front) t < 1)

/-- The bucket after the calls so far. -/
structure Bucket.Accounts (capacity rate : F) (b : Bucket F) (calls : List (F × Bool)) : Prop where
  nonneg : 0 ≤ b.tokens
  le_capacity : b.tokens ≤ capacity
  past : ∀ c ∈ calls, c.1 ≤ b.last
  level : ∀ t, b.last ≤ t → b.refill capacity rate t = Bucket.level capacity rate (granted calls) t
  /-- The grants from `a` on and the tokens left are what there was and has flowed in since. -/
  spent : ∀ a, a ≤ b.last → (grants calls a b.last : F) + b.tokens ≤ capacity + (b.last - a) * rate
  obeys : Obeys capacity rate calls

section Calls

variable {calls : List (F × Bool)} {now a t : F} {ok : Bool}

omit [Field F] [LinearOrder F] in
theorem granted_true (calls : List (F × Bool)) (now : F) :
    granted (calls ++ [(now, true)]) = now :: granted calls := by
  simp [granted]

omit [Field F] [LinearOrder F] in
theorem granted_false (calls : List (F × Bool)) (now : F) :
    granted (calls ++ [(now, false)]) = granted calls := by
  simp [granted]

omit [Field F] in
theorem grants_append (calls : List (F × Bool)) (now : F) (ok : Bool) (a b : F) :
    grants (calls ++ [(now, ok)]) a b = grants calls a b + if ok ∧ a ≤ now ∧ now ≤ b then 1 else 0 := by
  rw [grants, List.countP_append, List.countP_singleton]
  simp only [Bool.and_eq_true, decide_eq_true_eq, and_assoc]
  rfl

omit [Field F] in
theorem grants_past {last : F} (past : ∀ c ∈ calls, c.1 ≤ last) (a b : F) :
    grants calls a b ≤ grants calls a last := by
  refine List.countP_mono_left fun c hc h => ?_
  rw [Bool.and_eq_true, Bool.and_eq_true, decide_eq_true_eq, decide_eq_true_eq] at h ⊢
  exact ⟨h.1, past c hc⟩

omit [Field F] in
theorem grants_none {last : F} (past : ∀ c ∈ calls, c.1 ≤ last) (h : last < a) (b : F) :
    grants calls a b = 0 := by
  refine List.countP_eq_zero.mpr fun c hc hcount => ?_
  rw [Bool.and_eq_true, Bool.and_eq_true, decide_eq_true_eq] at hcount
  exact not_lt_of_ge (hcount.1.2.trans (past c hc)) h

end Calls

namespace Bucket

variable {capacity rate : F} {b : Bucket F} {calls : List (F × Bool)} {now t : F}

theorem take_refused (h : b.refill capacity rate now < 1) :
    b.take capacity rate now = (⟨b.refill capacity rate now, now⟩, false) := if_pos h

theorem take_granted (h : ¬b.refill capacity rate now < 1) :
    b.take capacity rate now = (⟨b.refill capacity rate now - 1, now⟩, true) := if_neg h

theorem Accounts.start (hcap : 0 ≤ capacity) (start : F) [IsStrictOrderedRing F] (hrate : 0 ≤ rate) :
    Accounts capacity rate ⟨capacity, start⟩ [] where
  nonneg := hcap
  le_capacity := le_rfl
  past := nofun
  level t ht := min_eq_left (by
    have hflow : 0 ≤ (t - start) * rate := mul_nonneg (sub_nonneg.mpr ht) hrate
    dsimp only
    linarith)
  spent a ha := by
    have hflow : 0 ≤ (start - a) * rate := mul_nonneg (sub_nonneg.mpr ha) hrate
    simpa [grants] using hflow
  obeys :=
    { window := fun a T hT => by
        have hflow : 0 ≤ T * rate := mul_nonneg hT hrate
        simp only [grants, List.countP_nil, Nat.cast_zero]
        linarith
      decided := fun front t ok back h => absurd h (by simp) }

namespace Accounts

theorem decided (h : Accounts capacity rate b calls) (hnow : b.last ≤ now) :
    (b.take capacity rate now).2 = false ↔ Bucket.level capacity rate (granted calls) now < 1 := by
  rw [← h.level now hnow]
  by_cases hlt : b.refill capacity rate now < 1
  · rw [take_refused hlt]
    exact iff_of_true rfl hlt
  · rw [take_granted hlt]
    exact iff_of_false Bool.false_ne_true.symm hlt

theorem take_past (h : Accounts capacity rate b calls) (hnow : b.last ≤ now) (ok : Bool) :
    ∀ c ∈ calls ++ [(now, ok)], c.1 ≤ now := by
  intro c hc
  rcases List.mem_append.mp hc with hc | hc
  · exact (h.past c hc).trans hnow
  · rw [List.mem_singleton.mp hc]

theorem take_decided (h : Accounts capacity rate b calls) (hnow : b.last ≤ now) {ok : Bool}
    (hok : (b.take capacity rate now).2 = ok) {front t ok' back}
    (hsplit : calls ++ [(now, ok)] = front ++ (t, ok') :: back) :
    ok' = false ↔ Bucket.level capacity rate (granted front) t < 1 := by
  rcases List.eq_nil_or_concat back with rfl | ⟨back, c, rfl⟩
  · obtain ⟨rfl, hlast⟩ := List.append_inj' hsplit rfl
    obtain ⟨rfl, rfl⟩ : now = t ∧ ok = ok' := by simpa using hlast
    rw [← hok]
    exact h.decided hnow
  · rw [List.concat_eq_append, ← List.cons_append, ← List.append_assoc] at hsplit
    exact h.obeys.decided _ _ _ _ (List.append_inj' hsplit rfl).1

variable [IsStrictOrderedRing F]

theorem refill_nonneg (h : Accounts capacity rate b calls) (hrate : 0 ≤ rate) (hnow : b.last ≤ now) :
    0 ≤ b.refill capacity rate now := by
  have hflow : 0 ≤ (now - b.last) * rate := mul_nonneg (sub_nonneg.mpr hnow) hrate
  have htokens := h.nonneg
  have hcap := h.le_capacity
  exact le_min (by linarith) (by linarith)

theorem spent_refill (h : Accounts capacity rate b calls) (hrate : 0 ≤ rate) {a : F} (ha : a ≤ now) :
    (grants calls a now : F) + b.refill capacity rate now ≤ capacity + (now - a) * rate := by
  rcases le_or_gt a b.last with hle | hlt
  · have hcount : (grants calls a now : F) ≤ grants calls a b.last :=
      Nat.cast_le.mpr (grants_past h.past a now)
    have hrefill : b.refill capacity rate now ≤ b.tokens + (now - b.last) * rate := min_le_right ..
    have hspent := h.spent a hle
    linarith
  · have hflow : 0 ≤ (now - a) * rate := mul_nonneg (sub_nonneg.mpr ha) hrate
    have hrefill : b.refill capacity rate now ≤ capacity := min_le_left ..
    rw [grants_none h.past hlt, Nat.cast_zero]
    linarith

/-- What has flowed in by two times is what has flowed in by the later one. -/
theorem refill_refill (hrate : 0 ≤ rate) (ht : now ≤ t) :
    refill capacity rate ⟨b.refill capacity rate now, now⟩ t = b.refill capacity rate t := by
  have hflow : 0 ≤ (t - now) * rate := mul_nonneg (sub_nonneg.mpr ht) hrate
  have hcap : min capacity (capacity + (t - now) * rate) = capacity := min_eq_left (by linarith)
  have htime : b.tokens + (now - b.last) * rate + (t - now) * rate = b.tokens + (t - b.last) * rate := by
    ring
  unfold refill
  dsimp only
  rw [← min_add_add_right, ← min_assoc, hcap, htime]

theorem of_refused (h : Accounts capacity rate b calls) (hrate : 0 ≤ rate) (hnow : b.last ≤ now)
    (hlt : b.refill capacity rate now < 1) :
    Accounts capacity rate ⟨b.refill capacity rate now, now⟩ (calls ++ [(now, false)]) := by
  have hgrants (a t : F) : grants (calls ++ [(now, false)]) a t = grants calls a t := by
    rw [grants_append, if_neg (by simp), Nat.add_zero]
  exact
    { nonneg := h.refill_nonneg hrate hnow
      le_capacity := min_le_left ..
      past := h.take_past hnow false
      level := fun t ht => by
        rw [refill_refill hrate ht, granted_false]
        exact h.level t (hnow.trans ht)
      spent := fun a ha => by
        rw [hgrants]
        exact h.spent_refill hrate ha
      obeys :=
        { window := fun a T hT => by
            rw [hgrants]
            exact h.obeys.window a T hT
          decided := fun front t ok back hsplit =>
            h.take_decided hnow (congrArg Prod.snd (take_refused hlt)) hsplit } }

theorem of_granted (h : Accounts capacity rate b calls) (hrate : 0 ≤ rate) (hnow : b.last ≤ now)
    (hge : ¬b.refill capacity rate now < 1) :
    Accounts capacity rate ⟨b.refill capacity rate now - 1, now⟩ (calls ++ [(now, true)]) := by
  have hone : 1 ≤ b.refill capacity rate now := not_lt.mp hge
  have hcap : b.refill capacity rate now ≤ capacity := min_le_left ..
  have hlevel := h.level now hnow
  exact
    { nonneg := sub_nonneg.mpr hone
      le_capacity := by
        dsimp only
        linarith
      past := h.take_past hnow true
      level := fun t ht => by
        rw [granted_true, Bucket.level, ← hlevel, refill]
      spent := fun a ha => by
        have hspent := h.spent_refill hrate ha
        rw [grants_append, if_pos ⟨rfl, ha, le_rfl⟩, Nat.cast_add, Nat.cast_one]
        dsimp only
        linarith
      obeys :=
        { window := fun a T hT => by
            rw [grants_append]
            split
            · rename_i hin
              have hspent := h.spent_refill hrate hin.2.1
              have hcount : (grants calls a (a + T) : F) ≤ grants calls a now := Nat.cast_le.mpr
                (grants_past (fun c hc => (h.past c hc).trans hnow) a (a + T))
              have hflow : (now - a) * rate ≤ T * rate :=
                mul_le_mul_of_nonneg_right (by linarith [hin.2.2]) hrate
              rw [Nat.cast_add, Nat.cast_one]
              linarith
            · rw [Nat.add_zero]
              exact h.obeys.window a T hT
          decided := fun front t ok back hsplit =>
            h.take_decided hnow (congrArg Prod.snd (take_granted hge)) hsplit } }

/-- Every call is accounted for. -/
theorem take (h : Accounts capacity rate b calls) (hrate : 0 ≤ rate) (hnow : b.last ≤ now) :
    Accounts capacity rate (b.take capacity rate now).1
      (calls ++ [(now, (b.take capacity rate now).2)]) := by
  by_cases hlt : b.refill capacity rate now < 1
  · rw [take_refused hlt]
    exact h.of_refused hrate hnow hlt
  · rw [take_granted hlt]
    exact h.of_granted hrate hnow hlt

end Accounts

end Bucket

end Ecco9.Library
