import Mathlib.Data.List.Count
import Mathlib.Tactic.Common
import Ecco9.Library.Runs

/-! The circuit breaker of `org/ecco9-sdk-go/middleware/breaker.go`, which is also that of
`org/ecco9-llm-gateway/gateway/breaker.go`. Every method holds the mutex. -/

namespace Ecco9.Middleware

inductive BreakerState
  | stateClosed
  | stateOpen
  | stateHalfOpen
  deriving DecidableEq

structure CircuitBreaker where
  state : BreakerState := .stateClosed
  consecutiveFails : Int := 0
  openedAt : Nat := 0
  failureThreshold : Int
  resetTimeout : Int
  deriving DecidableEq

namespace CircuitBreaker

/-- Whether `ResetTimeout` has elapsed since `openedAt`. -/
def elapsed (b : CircuitBreaker) (now : Nat) : Bool := (now : Int) - b.openedAt ≥ b.resetTimeout

def allow (b : CircuitBreaker) (now : Nat) : CircuitBreaker × Bool :=
  if b.state = .stateOpen then
    if b.elapsed now then ({ b with state := .stateHalfOpen }, true) else (b, false)
  else (b, true)

def recordSuccess (b : CircuitBreaker) : CircuitBreaker :=
  { b with consecutiveFails := 0, state := .stateClosed }

def tripLocked (b : CircuitBreaker) (now : Nat) : CircuitBreaker :=
  { b with state := .stateOpen, openedAt := now }

def recordFailure (b : CircuitBreaker) (now : Nat) : CircuitBreaker :=
  if b.state = .stateHalfOpen then b.tripLocked now
  else
    let b := { b with consecutiveFails := b.consecutiveFails + 1 }
    if b.consecutiveFails ≥ b.failureThreshold then b.tripLocked now else b

end CircuitBreaker

/-! ### Requests -/

/-- A request that was let through: how often the breaker had opened by then, and whether it was let
through by a breaker that was not closed. -/
structure Request where
  openings : Nat
  probe : Bool
  deriving DecidableEq

/-- The breaker with the clock, how often it has opened, and the requests that have no result yet. -/
structure System where
  breaker : CircuitBreaker
  now : Nat := 0
  openings : Nat := 0
  inFlight : List Request := []
  deriving DecidableEq

def System.start (failureThreshold resetTimeout : Int) : System :=
  { breaker := { failureThreshold, resetTimeout } }

inductive Event
  | advance (d : Nat)
  | allow
  | success (r : Request)
  | failure (r : Request)
  deriving DecidableEq

namespace System

def letThrough (s : System) : System :=
  match s.breaker.allow s.now with
  | (breaker, true) =>
    { s with
      breaker
      inFlight := ⟨s.openings, s.breaker.state ≠ .stateClosed⟩ :: s.inFlight }
  | (breaker, false) => { s with breaker }

/-- The result of a request; the breaker may open by it. -/
def report (s : System) (r : Request) (breaker : CircuitBreaker) : System :=
  { s with
    breaker
    openings := if s.breaker.state ≠ .stateOpen ∧ breaker.state = .stateOpen then s.openings + 1
      else s.openings
    inFlight := s.inFlight.erase r }

def step (s : System) : Event → Option System
  | .advance d => some { s with now := s.now + d }
  | .allow => some s.letThrough
  | .success r => if r ∈ s.inFlight then some (s.report r s.breaker.recordSuccess) else none
  | .failure r => if r ∈ s.inFlight then some (s.report r (s.breaker.recordFailure s.now)) else none

/-- What the breaker keeps to at a step. -/
structure Keeps (s : System) (e : Event) (s' : System) : Prop where
  /-- Nothing is let through while it is open and its timeout has not elapsed. -/
  refuses : e = .allow → s.breaker.state = .stateOpen → s.breaker.elapsed s.now = false →
    s'.inFlight = s.inFlight
  /-- After that one request is let through until its own result. -/
  single : e = .allow → s.breaker.state ≠ .stateClosed → s'.inFlight ≠ s.inFlight →
    ∀ r ∈ s.inFlight, r.probe = false
  /-- A request that was let through before it opened does not close it. -/
  late : ∀ r, e = .success r ∨ e = .failure r → r.openings < s.openings →
    s.breaker.state ≠ .stateClosed → s'.breaker.state ≠ .stateClosed

/-- While it is half-open nothing but the result of the request that was let through since it opened
comes, and while it is open no success. -/
def Orderly (s : System) : Event → Prop
  | .advance _ => True
  | .allow => s.breaker.state ≠ .stateHalfOpen
  | .success r => s.breaker.state ≠ .stateClosed → r.openings = s.openings
  | .failure r => s.breaker.state = .stateHalfOpen → r.openings = s.openings

def OrderlyStep (s s' : System) : Prop := ∃ e, s.Orderly e ∧ s.step e = some s'

/-! ### What is in flight -/

/-- What is in flight in each state. A probe is in flight when the breaker is half-open only, and is
then the only request let through since it opened. -/
structure Probing (s : System) : Prop where
  le : ∀ r ∈ s.inFlight, r.openings ≤ s.openings
  probe : ∀ r ∈ s.inFlight, r.probe = true → s.breaker.state = .stateHalfOpen
  opened : s.breaker.state = .stateOpen → ∀ r ∈ s.inFlight, r.openings < s.openings
  halfOpen : s.breaker.state = .stateHalfOpen → ∃ others, (∀ r ∈ others,
    r.openings < s.openings ∧ r.probe = false) ∧ s.inFlight.Perm (⟨s.openings, true⟩ :: others)

variable {s s' : System}

theorem Probing.letThrough (h : Probing s) (orderly : s.breaker.state ≠ .stateHalfOpen) :
    Probing s.letThrough := by
  cases hstate : s.breaker.state with
  | stateHalfOpen => exact absurd hstate orderly
  | stateClosed =>
    have heq : s.letThrough = { s with inFlight := ⟨s.openings, false⟩ :: s.inFlight } := by
      simp [System.letThrough, CircuitBreaker.allow, hstate]
    rw [heq]
    refine ⟨?_, ?_, fun hopen => ?_, fun hhalf => ?_⟩
    · exact List.forall_mem_cons.mpr ⟨Nat.le_refl _, h.le⟩
    · exact List.forall_mem_cons.mpr ⟨nofun, h.probe⟩
    · rw [hstate] at hopen
      cases hopen
    · rw [hstate] at hhalf
      cases hhalf
  | stateOpen =>
    cases helapsed : s.breaker.elapsed s.now with
    | false =>
      have heq : s.letThrough = s := by simp [System.letThrough, CircuitBreaker.allow, hstate, helapsed]
      rw [heq]
      exact h
    | true =>
      have heq : s.letThrough = { s with
          breaker := { s.breaker with state := .stateHalfOpen }
          inFlight := ⟨s.openings, true⟩ :: s.inFlight } := by
        simp [System.letThrough, CircuitBreaker.allow, hstate, helapsed]
      rw [heq]
      refine ⟨?_, fun _ _ _ => rfl, nofun, fun _ => ⟨s.inFlight, ?_, .refl _⟩⟩
      · exact List.forall_mem_cons.mpr ⟨Nat.le_refl _, h.le⟩
      · intro r hr
        refine ⟨h.opened hstate r hr, ?_⟩
        rw [Bool.eq_false_iff]
        intro hprobe
        have := h.probe r hr hprobe
        rw [hstate] at this
        cases this

/-- The result of the probe leaves nothing in flight that was let through since the breaker opened. -/
theorem Probing.erase_probe (h : Probing s) (hhalf : s.breaker.state = .stateHalfOpen)
    {r : Request} (hr : r ∈ s.inFlight) (hopenings : r.openings = s.openings) :
    ∀ r' ∈ s.inFlight.erase r, r'.openings < s.openings ∧ r'.probe = false := by
  obtain ⟨others, hothers, hperm⟩ := h.halfOpen hhalf
  have hprobe : r = ⟨s.openings, true⟩ := by
    rcases List.mem_cons.mp (hperm.mem_iff.mp hr) with heq | hmem
    · exact heq
    · have := (hothers r hmem).1
      omega
  intro r' hr'
  have hrest : (s.inFlight.erase r).Perm others := by
    have := hperm.erase r
    rwa [hprobe, List.erase_cons_head, ← hprobe] at this
  exact hothers r' (hrest.mem_iff.mp hr')

theorem Probing.success (h : Probing s) {r : Request} (hr : r ∈ s.inFlight)
    (orderly : s.Orderly (.success r)) : Probing (s.report r s.breaker.recordSuccess) := by
  have hrest : ∀ r' ∈ s.inFlight.erase r, r'.openings ≤ s.openings ∧ r'.probe = false := by
    intro r' hr'
    have hmem := List.mem_of_mem_erase hr'
    refine ⟨h.le r' hmem, ?_⟩
    rw [Bool.eq_false_iff]
    intro hprobe
    have hhalf := h.probe r' hmem hprobe
    have hclosed : s.breaker.state ≠ .stateClosed := by
      rw [hhalf]
      nofun
    have := (h.erase_probe hhalf hr (orderly hclosed) r' hr').2
    rw [hprobe] at this
    cases this
  refine ⟨?_, ?_, nofun, nofun⟩
  · intro r' hr'
    simp only [System.report, CircuitBreaker.recordSuccess, reduceCtorEq, and_false, if_false]
    exact (hrest r' hr').1
  · intro r' hr' hprobe
    have := (hrest r' hr').2
    rw [hprobe] at this
    cases this

theorem recordFailure_state (b : CircuitBreaker) (now : Nat) :
    (b.recordFailure now).state = .stateOpen ∨
      (b.recordFailure now).state = b.state ∧ b.state ≠ .stateHalfOpen := by
  unfold CircuitBreaker.recordFailure
  split
  · exact .inl rfl
  · rename_i hstate
    dsimp only
    split
    · exact .inl rfl
    · exact .inr ⟨rfl, hstate⟩

theorem Probing.failure (h : Probing s) {r : Request} (hr : r ∈ s.inFlight)
    (orderly : s.Orderly (.failure r)) :
    Probing (s.report r (s.breaker.recordFailure s.now)) := by
  have hmem : ∀ r' ∈ s.inFlight.erase r, r' ∈ s.inFlight := fun r' hr' => List.mem_of_mem_erase hr'
  rcases recordFailure_state s.breaker s.now with hopen | ⟨hsame, hhalf⟩
  · -- it is open: what is in flight was let through before
    have hlt : ∀ r' ∈ s.inFlight.erase r,
        r'.openings < (s.report r (s.breaker.recordFailure s.now)).openings := by
      intro r' hr'
      simp only [System.report, hopen, and_true]
      split
      · exact Nat.lt_succ_of_le (h.le r' (hmem r' hr'))
      · rename_i hstate
        exact h.opened (not_not.mp hstate) r' (hmem r' hr')
    have hprobe : ∀ r' ∈ s.inFlight.erase r, r'.probe = false := by
      intro r' hr'
      rw [Bool.eq_false_iff]
      intro hprobe
      have hhalf := h.probe r' (hmem r' hr') hprobe
      have := (h.erase_probe hhalf hr (orderly hhalf) r' hr').2
      rw [hprobe] at this
      cases this
    refine ⟨fun r' hr' => Nat.le_of_lt (hlt r' hr'), ?_, fun _ => hlt, ?_⟩
    · intro r' hr' htrue
      have := hprobe r' hr'
      rw [htrue] at this
      cases this
    · intro hstate
      rw [System.report, hopen] at hstate
      cases hstate
  · -- the state is the same
    have hopenings : (s.report r (s.breaker.recordFailure s.now)).openings = s.openings := by
      simp only [System.report, hsame]
      exact if_neg fun h => h.1 h.2
    refine ⟨?_, ?_, ?_, ?_⟩
    · intro r' hr'
      rw [hopenings]
      exact h.le r' (hmem r' hr')
    · intro r' hr' hprobe
      exact absurd (h.probe r' (hmem r' hr') hprobe) hhalf
    · intro hstate r' hr'
      rw [hopenings]
      exact h.opened (hsame ▸ hstate) r' (hmem r' hr')
    · intro hstate
      exact absurd (hsame ▸ hstate) hhalf

theorem Probing.step (h : Probing s) (next : OrderlyStep s s') : Probing s' := by
  obtain ⟨e, orderly, hstep⟩ := next
  cases e with
  | advance d =>
    cases hstep
    exact ⟨h.le, h.probe, h.opened, h.halfOpen⟩
  | allow =>
    cases hstep
    exact h.letThrough orderly
  | success r =>
    rw [System.step, Option.ite_none_right_eq_some] at hstep
    obtain ⟨hr, heq⟩ := hstep
    cases heq
    exact h.success hr orderly
  | failure r =>
    rw [System.step, Option.ite_none_right_eq_some] at hstep
    obtain ⟨hr, heq⟩ := hstep
    cases heq
    exact h.failure hr orderly

theorem probing_run {failureThreshold resetTimeout : Int}
    (run : Relation.ReflTransGen OrderlyStep (start failureThreshold resetTimeout) s) :
    Probing s :=
  Library.run_invariant (fun _ _ h next => h.step next) run ⟨nofun, nofun, nofun, nofun⟩

/-! ### What it keeps to -/

theorem Probing.keeps (h : Probing s) {e : Event} (orderly : s.Orderly e)
    (next : s.step e = some s') : Keeps s e s' where
  refuses := by
    rintro rfl hstate helapsed
    cases next
    simp [System.letThrough, CircuitBreaker.allow, hstate, helapsed]
  single := by
    rintro rfl - - r hr
    rw [Bool.eq_false_iff]
    intro hprobe
    exact orderly (h.probe r hr hprobe)
  late := by
    rintro r (rfl | rfl) hlt hstate
    · have := orderly hstate
      omega
    · rw [System.step, Option.ite_none_right_eq_some] at next
      obtain ⟨-, heq⟩ := next
      cases heq
      rcases recordFailure_state s.breaker s.now with hopen | ⟨hsame, -⟩
      · rw [System.report, hopen]
        nofun
      · rw [System.report, hsame]
        exact hstate

/-- In every orderly run the breaker lets nothing through before its timeout, one request after it,
and is not closed by an earlier one. -/
theorem run_keeps_protocol {failureThreshold resetTimeout : Int}
    (run : Relation.ReflTransGen OrderlyStep (start failureThreshold resetTimeout) s) :
    (s.inFlight.countP (·.probe)) ≤ 1 ∧
      ∀ e s', s.Orderly e → s.step e = some s' → Keeps s e s' := by
  have h := probing_run run
  refine ⟨?_, fun e s' orderly next => h.keeps orderly next⟩
  by_cases hhalf : s.breaker.state = .stateHalfOpen
  · obtain ⟨others, hothers, hperm⟩ := h.halfOpen hhalf
    have hnone : others.countP (·.probe) = 0 :=
      List.countP_eq_zero.mpr fun r hr => by simp [(hothers r hr).2]
    rw [hperm.countP_eq, List.countP_cons, hnone]
    exact Nat.le_refl 1
  · have hnone : s.inFlight.countP (·.probe) = 0 :=
      List.countP_eq_zero.mpr fun r hr hprobe => hhalf (h.probe r hr hprobe)
    omega

/-- A breaker that opened at the first failure and has let a request through after its timeout. -/
def probed : System where
  breaker := {
    state := .stateHalfOpen
    consecutiveFails := 1
    failureThreshold := 1
    resetTimeout := 30
  }
  now := 30
  openings := 1
  inFlight := [⟨1, true⟩]

theorem probed_keeps : (probed.inFlight.countP (·.probe)) ≤ 1 ∧
    ∀ e s', probed.Orderly e → probed.step e = some s' → Keeps probed e s' := by
  have run : Relation.ReflTransGen OrderlyStep (start 1 30) probed := by
    refine .head ⟨.allow, nofun, rfl⟩ (.head ⟨.failure ⟨0, false⟩, nofun, rfl⟩
      (.head ⟨.advance 30, trivial, rfl⟩ (.head ⟨.allow, nofun, ?_⟩ .refl)))
    decide
  exact run_keeps_protocol run

/-- While its request has no result, the half-open breaker lets another one through. -/
theorem second_probe : ∃ s s',
    [.allow, .failure ⟨0, false⟩, .advance 30, .allow].foldlM System.step (start 1 30) = some s ∧
      s.step .allow = some s' ∧ ¬ Keeps s .allow s' := by
  refine ⟨probed, probed.letThrough, by decide, rfl, fun h => ?_⟩
  exact absurd (h.single rfl (by decide) (by decide) ⟨1, true⟩ (by decide)) (by decide)

end System

end Ecco9.Middleware
