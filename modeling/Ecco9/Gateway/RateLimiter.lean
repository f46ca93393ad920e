import Ecco9.Library.TokenBucket
import Mathlib.Algebra.Order.Ring.Rat
import Mathlib.Algebra.Field.Rat

/-! The rate limiters of `org/ecco9-llm-gateway/gateway/breaker.go` and
`org/ecco9-gateway/gateway/gateway.go`, in exact arithmetic and with the seconds of the clock. -/

universe u

namespace Ecco9.Gateway

open Ecco9.Library

/-- What both kinds of bucket do when they are asked: the tokens after that, and the answer. -/
def spend (tokens capacity rate last now : ℚ) : ℚ × Bool :=
  let tokens := tokens + (now - last) * rate
  let tokens := if tokens > capacity then capacity else tokens
  if tokens < 1 then (tokens, false) else (tokens - 1, true)

theorem spend_eq (tokens capacity rate last now : ℚ) :
    (Bucket.mk (spend tokens capacity rate last now).1 now, (spend tokens capacity rate last now).2) =
      Bucket.take capacity rate ⟨tokens, last⟩ now := by
  have hmin : (if tokens + (now - last) * rate > capacity then capacity
      else tokens + (now - last) * rate) = Bucket.refill capacity rate ⟨tokens, last⟩ now := by
    rw [Bucket.refill, min_def_lt]
  rw [spend, Bucket.take, hmin]
  split <;> rfl

/-! ### One limit for all -/

structure RateLimiter where
  rate : ℚ
  capacity : ℚ
  tokens : ℚ
  last : ℚ

/-- `Allow` -/
def RateLimiter.allow (l : RateLimiter) (now : ℚ) : RateLimiter × Bool :=
  let (tokens, ok) := spend l.tokens l.capacity l.rate l.last now
  ({ l with
      tokens
      last := now }, ok)

def newRateLimiter (requestsPerMinute : Int) (now : ℚ) : RateLimiter :=
  let requestsPerMinute := if requestsPerMinute ≤ 0 then 1073741824 else requestsPerMinute
  { rate := requestsPerMinute / 60
    capacity := requestsPerMinute
    tokens := requestsPerMinute
    last := now }

/-- A call at the time `t`, behind the calls so far and their answers. -/
def RateLimiter.call (s : RateLimiter × List (ℚ × Bool)) (t : ℚ) : RateLimiter × List (ℚ × Bool) :=
  ((s.1.allow t).1, s.2 ++ [(t, (s.1.allow t).2)])

/-- Calls at the times `ts` of a limiter that is made at the time `start`. -/
def RateLimiter.run (requestsPerMinute : Int) (start : ℚ) (ts : List ℚ) :
    RateLimiter × List (ℚ × Bool) := ts.foldl call (newRateLimiter requestsPerMinute start, [])

/-! ### A limit for each client -/

structure TokenBucket where
  tokens : ℚ
  max : ℚ
  rate : ℚ
  last : ℚ

def newTokenBucket (rate burst now : ℚ) : TokenBucket := { tokens := burst, max := burst, rate, last := now }

def TokenBucket.allow (b : TokenBucket) (now : ℚ) : TokenBucket × Bool :=
  let (tokens, ok) := spend b.tokens b.max b.rate b.last now
  ({ b with
      tokens
      last := now }, ok)

structure KeyedLimiter (Key : Type u) where
  bps : Key → Option TokenBucket := fun _ => none
  rate : ℚ
  burst : ℚ

/-- The two locked parts of `allow`: the bucket is looked up, and then it is asked. Between them others
may come. -/
inductive Part (Key : Type u)
  | lookup (key : Key) (now : ℚ)
  | ask (key : Key) (now : ℚ)

def Part.now {Key : Type u} : Part Key → ℚ
  | .lookup _ now => now
  | .ask _ now => now

namespace KeyedLimiter

variable {Key : Type u} [DecidableEq Key]

def set (l : KeyedLimiter Key) (key : Key) (b : TokenBucket) : KeyedLimiter Key :=
  { l with bps := fun k => if k = key then some b else l.bps k }

@[simp] theorem set_same (l : KeyedLimiter Key) (key : Key) (b : TokenBucket) :
    (l.set key b).bps key = some b := if_pos rfl

theorem set_other (l : KeyedLimiter Key) {key k : Key} (h : k ≠ key) (b : TokenBucket) :
    (l.set key b).bps k = l.bps k := if_neg h

/-- The limiter and the calls that were answered so far; nobody asks a bucket that was not looked up. -/
def step (s : KeyedLimiter Key × List (Key × ℚ × Bool)) :
    Part Key → Option (KeyedLimiter Key × List (Key × ℚ × Bool))
  | .lookup key now =>
    match s.1.bps key with
    | some _ => some s
    | none => some (s.1.set key (newTokenBucket s.1.rate s.1.burst now), s.2)
  | .ask key now =>
    match s.1.bps key with
    | some b => some (s.1.set key (b.allow now).1, s.2 ++ [(key, now, (b.allow now).2)])
    | none => none

def run (rate burst : ℚ) (parts : List (Part Key)) :
    Option (KeyedLimiter Key × List (Key × ℚ × Bool)) := parts.foldlM step ({ rate, burst }, [])

/-- The calls of one client. -/
def callsOf (key : Key) (calls : List (Key × ℚ × Bool)) : List (ℚ × Bool) :=
  (calls.filter fun c => c.1 = key).map Prod.snd

theorem callsOf_append (key k : Key) (calls : List (Key × ℚ × Bool)) (c : ℚ × Bool) :
    callsOf key (calls ++ [(k, c)]) = callsOf key calls ++ if k = key then [c] else [] := by
  rw [callsOf, List.filter_append, List.map_append, callsOf]
  by_cases h : k = key <;> simp [h]

end KeyedLimiter

/-! ### What they grant -/

namespace RateLimiter

/-- The limiter accounts for the calls so far. -/
structure Keeps (capacity rate : ℚ) (s : RateLimiter × List (ℚ × Bool)) : Prop where
  capacity_eq : s.1.capacity = capacity
  rate_eq : s.1.rate = rate
  accounts : Bucket.Accounts capacity rate ⟨s.1.tokens, s.1.last⟩ s.2

variable {capacity rate : ℚ} {s : RateLimiter × List (ℚ × Bool)}

theorem Keeps.call (h : Keeps capacity rate s) (hrate : 0 ≤ rate) {t : ℚ} (ht : s.1.last ≤ t) :
    Keeps capacity rate (RateLimiter.call s t) := by
  have htake := h.accounts.take hrate ht
  rw [← spend_eq, ← h.capacity_eq, ← h.rate_eq] at htake
  refine ⟨h.capacity_eq, h.rate_eq, ?_⟩
  rw [← h.capacity_eq, ← h.rate_eq]
  exact htake

theorem Keeps.calls (h : Keeps capacity rate s) (hrate : 0 ≤ rate) {ts : List ℚ}
    (sorted : (s.1.last :: ts).Pairwise (· ≤ ·)) : Keeps capacity rate (ts.foldl RateLimiter.call s) := by
  induction ts generalizing s with
  | nil => exact h
  | cons t ts ih =>
    obtain ⟨hlast, hsorted⟩ := List.pairwise_cons.mp sorted
    exact ih (h.call hrate (hlast t List.mem_cons_self)) hsorted

end RateLimiter

namespace KeyedLimiter

variable {Key : Type u} [DecidableEq Key] {burst rate now : ℚ}
  {s s' : KeyedLimiter Key × List (Key × ℚ × Bool)} {key k : Key} {b : TokenBucket}

/-- A bucket accounts for the calls of its client. -/
structure Fair (burst rate now : ℚ) (b : TokenBucket) (calls : List (ℚ × Bool)) : Prop where
  max_eq : b.max = burst
  rate_eq : b.rate = rate
  last_le : b.last ≤ now
  accounts : Bucket.Accounts burst rate ⟨b.tokens, b.last⟩ calls

/-- Every bucket accounts for the calls of its client, and no other client has called. -/
structure Keeps (burst rate now : ℚ) (s : KeyedLimiter Key × List (Key × ℚ × Bool)) : Prop where
  burst_eq : s.1.burst = burst
  rate_eq : s.1.rate = rate
  absent : ∀ key, s.1.bps key = none → callsOf key s.2 = []
  bucket : ∀ key b, s.1.bps key = some b → Fair burst rate now b (callsOf key s.2)

theorem Fair.later {calls : List (ℚ × Bool)} (h : Fair burst rate now b calls) {t : ℚ} (ht : now ≤ t) :
    Fair burst rate t b calls := ⟨h.max_eq, h.rate_eq, h.last_le.trans ht, h.accounts⟩

theorem Fair.allow {calls : List (ℚ × Bool)} (h : Fair burst rate now b calls) (hrate : 0 ≤ rate) {t : ℚ}
    (ht : now ≤ t) : Fair burst rate t (b.allow t).1 (calls ++ [(t, (b.allow t).2)]) := by
  have htake := h.accounts.take hrate (h.last_le.trans ht)
  rw [← spend_eq, ← h.max_eq, ← h.rate_eq] at htake
  refine ⟨h.max_eq, h.rate_eq, le_rfl, ?_⟩
  rw [← h.max_eq, ← h.rate_eq]
  exact htake

/-- A step that touches one client only. -/
theorem Keeps.set (h : Keeps burst rate now s) {t : ℚ} (ht : now ≤ t) {calls : List (Key × ℚ × Bool)}
    (hothers : ∀ k, k ≠ key → callsOf k calls = callsOf k s.2)
    (hkey : Fair burst rate t b (callsOf key calls)) : Keeps burst rate t (s.1.set key b, calls) where
  burst_eq := h.burst_eq
  rate_eq := h.rate_eq
  absent k hk := by
    change (s.1.set key b).bps k = none at hk
    by_cases heq : k = key
    · rw [heq, set_same] at hk
      exact absurd hk (Option.some_ne_none b)
    · rw [set_other s.1 heq] at hk
      exact (hothers k heq).trans (h.absent k hk)
  bucket k b' hb' := by
    change (s.1.set key b).bps k = some b' at hb'
    by_cases heq : k = key
    · rw [heq, set_same] at hb'
      obtain rfl := Option.some.inj hb'
      rw [heq]
      exact hkey
    · rw [set_other s.1 heq] at hb'
      have hfair := (h.bucket k b' hb').later ht
      rw [← hothers k heq] at hfair
      exact hfair

theorem Keeps.step (h : Keeps burst rate now s) (hrate : 0 ≤ rate) (hburst : 0 ≤ burst)
    {part : Part Key} (hnow : now ≤ part.now) (hstep : KeyedLimiter.step s part = some s') :
    Keeps burst rate part.now s' := by
  cases part with
  | lookup key t =>
    rw [KeyedLimiter.step] at hstep
    split at hstep
    · obtain rfl := Option.some.inj hstep
      exact ⟨h.burst_eq, h.rate_eq, h.absent, fun k b hb => (h.bucket k b hb).later hnow⟩
    · rename_i hnone
      obtain rfl := Option.some.inj hstep
      refine h.set hnow (fun k _ => rfl) ?_
      rw [h.absent key hnone, h.burst_eq, h.rate_eq]
      exact ⟨rfl, rfl, le_rfl, Bucket.Accounts.start hburst t hrate⟩
  | ask key t =>
    rw [KeyedLimiter.step] at hstep
    split at hstep
    · rename_i b hb
      obtain rfl := Option.some.inj hstep
      refine h.set hnow (fun k hk => ?_) ?_
      · rw [callsOf_append, if_neg (Ne.symm hk), List.append_nil]
      · rw [callsOf_append, if_pos rfl]
        exact (h.bucket key b hb).allow hrate hnow
    · exact absurd hstep (Option.some_ne_none s').symm

theorem Keeps.run (h : Keeps burst rate now s) (hrate : 0 ≤ rate) (hburst : 0 ≤ burst)
    {parts : List (Part Key)} (sorted : (now :: parts.map Part.now).Pairwise (· ≤ ·))
    (hrun : parts.foldlM KeyedLimiter.step s = some s') : ∃ t, Keeps burst rate t s' := by
  induction parts generalizing s now with
  | nil =>
    obtain rfl := Option.some.inj hrun
    exact ⟨now, h⟩
  | cons part parts ih =>
    rw [List.foldlM_cons, Option.bind_eq_bind, Option.bind_eq_some_iff] at hrun
    obtain ⟨s₁, hs₁, hrun⟩ := hrun
    rw [List.map_cons] at sorted
    obtain ⟨hlast, hsorted⟩ := List.pairwise_cons.mp sorted
    exact ih (h.step hrate hburst (hlast part.now List.mem_cons_self) hs₁) hsorted hrun

end KeyedLimiter

/-- In every window the limiter lets through no more than `n` and what flows in, its tokens stay within
`n`, and it refuses just when less than one token is there; and so does the limiter of the clients for
each of them, whatever the others do. -/
theorem limiters_obey (n : Int) (hn : 0 < n) (start : ℚ) (ts : List ℚ)
    (sorted : (start :: ts).Pairwise (· ≤ ·)) {Key : Type u} [DecidableEq Key] (rate burst : ℚ)
    (hrate : 0 ≤ rate) (hburst : 1 ≤ burst) (parts : List (Part Key))
    (psorted : (parts.map Part.now).Pairwise (· ≤ ·)) :
    (Obeys (n : ℚ) (n / 60) (RateLimiter.run n start ts).2 ∧ 0 ≤ (RateLimiter.run n start ts).1.tokens ∧
      (RateLimiter.run n start ts).1.tokens ≤ n) ∧
    ∀ s, KeyedLimiter.run rate burst parts = some s → ∀ key,
      Obeys burst rate (KeyedLimiter.callsOf key s.2) ∧
        ∀ b, s.1.bps key = some b → 0 ≤ b.tokens ∧ b.tokens ≤ burst := by
  have hpos : (0 : ℚ) ≤ n := Int.cast_nonneg (le_of_lt hn)
  have hflow : (0 : ℚ) ≤ n / 60 := div_nonneg hpos (by norm_num)
  constructor
  · have hnew : RateLimiter.Keeps n (n / 60) (newRateLimiter n start, []) := by
      rw [newRateLimiter, if_neg (not_le.mpr hn)]
      exact ⟨rfl, rfl, Bucket.Accounts.start hpos start hflow⟩
    have hkeeps := hnew.calls hflow sorted
    exact ⟨hkeeps.accounts.obeys, hkeeps.accounts.nonneg, hkeeps.accounts.le_capacity⟩
  · intro s hrun key
    have hcap : (0 : ℚ) ≤ burst := zero_le_one.trans hburst
    obtain ⟨t, hkeeps⟩ : ∃ t, KeyedLimiter.Keeps burst rate t s := by
      have hnew (now : ℚ) : KeyedLimiter.Keeps burst rate now (({ rate, burst }, []) :
          KeyedLimiter Key × List (Key × ℚ × Bool)) := ⟨rfl, rfl, fun _ _ => rfl, nofun⟩
      cases parts with
      | nil => exact (hnew 0).run hrate hcap (List.pairwise_singleton _ _) hrun
      | cons part parts =>
        refine (hnew part.now).run hrate hcap (List.pairwise_cons.mpr ⟨fun t ht => ?_, psorted⟩) hrun
        rcases List.mem_cons.mp ht with rfl | ht
        · exact le_rfl
        · exact (List.pairwise_cons.mp psorted).1 t ht
    cases hb : s.1.bps key with
    | none =>
      rw [hkeeps.absent key hb]
      exact ⟨(Bucket.Accounts.start hcap 0 hrate).obeys, nofun⟩
    | some b =>
      have hfair := (hkeeps.bucket key b hb).accounts
      refine ⟨hfair.obeys, fun b' hb' => ?_⟩
      obtain rfl := Option.some.inj hb'
      exact ⟨hfair.nonneg, hfair.le_capacity⟩

theorem limiters_obey_twice :
    (Obeys ((1 : Int) : ℚ) ((1 : Int) / 60) (RateLimiter.run 1 0 [1, 2]).2 ∧
      0 ≤ (RateLimiter.run 1 0 [1, 2]).1.tokens ∧ (RateLimiter.run 1 0 [1, 2]).1.tokens ≤ ((1 : Int) : ℚ)) ∧
    ∀ s, KeyedLimiter.run 100 200 [.lookup true 0, .ask true 1, .lookup false 1, .ask false 2] = some s →
      ∀ key, Obeys 200 100 (KeyedLimiter.callsOf key s.2) ∧
        ∀ b, s.1.bps key = some b → 0 ≤ b.tokens ∧ b.tokens ≤ 200 :=
  limiters_obey 1 (by decide) 0 [1, 2] (by norm_num) 100 200 (by norm_num) (by norm_num)
    [.lookup true 0, .ask true 1, .lookup false 1, .ask false 2] (by norm_num [Part.now])

end Ecco9.Gateway
