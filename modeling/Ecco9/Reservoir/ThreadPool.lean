import Ecco9.Library.Runs
import Mathlib.Data.List.Count

/-! The workers of `org/ecco9-reservoir/reservoir/threadpool.go` before `Close`: they are stopped by
`nil` jobs in the queue of the others. A step is one send or receive, or one turn of a loop of
`SetWorkers`. -/

universe u

namespace Ecco9.Reservoir

open Ecco9.Library

inductive Doing (J : Type u)
  /-- before the worker counts itself in `activeWorkers` -/
  | starting
  | waiting
  | running (job : J)
  deriving DecidableEq

def Doing.started : Doing J → Bool
  | .starting => false
  | _ => true

structure Worker (J : Type u) where
  id : Nat
  doing : Doing J := .starting
  deriving DecidableEq

/-- A `SetWorkers` that holds the mutex, with its clamped target; it owes a `nil` for a worker that it
has counted out. -/
structure Setting where
  target : Int
  owes : Bool := false
  deriving DecidableEq

/-- The controller with its workers, and what was sent and received of jobs. -/
structure ThreadPoolController (J : Type u) where
  workers : Int := 0
  min : Int
  max : Int
  jobs : List (Option J) := []
  activeWorkers : Int := 0
  setting : Option Setting := none
  spawned : Nat := 0
  live : List (Worker J) := []
  submitted : List J := []
  taken : List (Nat × J) := []

inductive PoolEvent (J : Type u)
  | setWorkers (target : Int)
  | grow
  | shrink
  | signal
  | unlock
  | submit (job : J)
  | start (w : Worker J)
  | receive (w : Worker J)
  | finish (w : Worker J)

/-- The capacity of the queue. -/
def jobsCapacity : Nat := 1024

namespace ThreadPoolController

section

variable {J : Type u}

/-- `NewThreadPoolController`, in its call of `SetWorkers`. -/
def new (minWorkers maxWorkers : Int) : ThreadPoolController J :=
  let min := if minWorkers < 1 then 1 else minWorkers
  { min
    max := if maxWorkers < min then min else maxWorkers
    setting := some ⟨min, false⟩ }

/-- The target that `SetWorkers` goes to. -/
def clamp (c : ThreadPoolController J) (target : Int) : Int :=
  let target := if target < c.min then c.min else target
  if target > c.max then c.max else target

variable [DecidableEq J]

/-- A worker goes on to do something else. -/
def turn (c : ThreadPoolController J) (w : Worker J) (doing : Doing J) : ThreadPoolController J :=
  { c with live := { w with doing } :: c.live.erase w }

def step (c : ThreadPoolController J) : PoolEvent J → Option (ThreadPoolController J)
  | .setWorkers target =>
    match c.setting with
    | none => some { c with setting := some ⟨c.clamp target, false⟩ }
    | some _ => none
  | .grow =>
    match c.setting with
    | some ⟨target, false⟩ =>
      if c.workers < target then
        some { c with
          workers := c.workers + 1
          spawned := c.spawned + 1
          live := { id := c.spawned } :: c.live }
      else none
    | _ => none
  | .shrink =>
    match c.setting with
    | some ⟨target, false⟩ =>
      if c.workers > target then
        some { c with workers := c.workers - 1, setting := some ⟨target, true⟩ }
      else none
    | _ => none
  | .signal =>
    match c.setting with
    | some ⟨target, true⟩ =>
      if c.jobs.length < jobsCapacity then
        some { c with jobs := c.jobs ++ [none], setting := some ⟨target, false⟩ }
      else none
    | _ => none
  | .unlock =>
    match c.setting with
    | some ⟨target, false⟩ => if c.workers = target then some { c with setting := none } else none
    | _ => none
  | .submit job =>
    if c.jobs.length < jobsCapacity then
      some { c with jobs := c.jobs ++ [some job], submitted := c.submitted ++ [job] }
    else none
  | .start w =>
    if w ∈ c.live ∧ w.doing = .starting then
      some { c.turn w .waiting with activeWorkers := c.activeWorkers + 1 }
    else none
  | .receive w =>
    if w ∈ c.live ∧ w.doing = .waiting then
      match c.jobs with
      | [] => none
      | none :: jobs =>
        some { c with jobs, live := c.live.erase w, activeWorkers := c.activeWorkers - 1 }
      | some job :: jobs =>
        some { c.turn w (.running job) with jobs, taken := c.taken ++ [(w.id, job)] }
    else none
  | .finish w =>
    match w.doing with
    | .running _ => if w ∈ c.live then some (c.turn w .waiting) else none
    | _ => none

end

/-! ### What holds between the steps -/

section

variable {J : Type u} {c c' : ThreadPoolController J}

/-- The stop signals in the queue. -/
def signals (c : ThreadPoolController J) : Nat := c.jobs.countP Option.isNone

/-- The jobs in the queue. -/
def queued (c : ThreadPoolController J) : List J := c.jobs.filterMap id

/-- The workers that have counted themselves. -/
def started (c : ThreadPoolController J) : Nat := c.live.countP fun w => w.doing.started

structure Balanced (c : ThreadPoolController J) : Prop where
  bounds : 1 ≤ c.min ∧ c.min ≤ c.max
  /-- A worker that is counted out has its signal in the queue, or it is owed. -/
  balance : (c.live.length : Int) - c.signals =
    c.workers + if c.setting.any Setting.owes then 1 else 0
  target : ∀ s, c.setting = some s → c.min ≤ s.target ∧ s.target ≤ c.max
  range : c.setting = none → c.min ≤ c.workers ∧ c.workers ≤ c.max
  ordered : c.submitted = c.taken.map Prod.snd ++ c.queued
  active : c.activeWorkers = c.started

theorem balanced_new (minWorkers maxWorkers : Int) :
    (new minWorkers maxWorkers : ThreadPoolController J).Balanced := by
  refine ⟨?_, rfl, ?_, nofun, rfl, rfl⟩
  · simp only [new]
    constructor <;> split <;> omega
  · rintro s ⟨⟩
    simp only [new]
    constructor
    · exact Int.le_refl _
    · split <;> omega

variable [DecidableEq J]

@[simp] theorem turn_jobs (c : ThreadPoolController J) (w : Worker J) (doing : Doing J) :
    (c.turn w doing).jobs = c.jobs := rfl

theorem length_turn {w : Worker J} (h : w ∈ c.live) (doing : Doing J) :
    (c.turn w doing).live.length = c.live.length := by
  rw [turn, List.length_cons, List.length_erase_of_mem h]
  have := List.length_pos_of_mem h
  omega

theorem started_erase {w : Worker J} (h : w ∈ c.live) :
    c.started = (c.live.erase w).countP (fun w => w.doing.started) +
      if w.doing.started then 1 else 0 := by
  rw [started, (List.perm_cons_erase h).countP_eq, List.countP_cons]

theorem started_turn {w : Worker J} (h : w ∈ c.live) (doing : Doing J) :
    (c.turn w doing).started + (if w.doing.started then 1 else 0) =
      c.started + if doing.started then 1 else 0 := by
  rw [started_erase h, started, turn, List.countP_cons]
  dsimp only
  omega

omit [DecidableEq J] in
theorem clamp_mem (h : c.min ≤ c.max) (target : Int) :
    c.min ≤ c.clamp target ∧ c.clamp target ≤ c.max := by
  unfold clamp
  dsimp only
  split <;> split <;> omega

omit [DecidableEq J] in
theorem Balanced.free (h : c.Balanced) {target : Int} (setting : c.setting = some ⟨target, false⟩) :
    (c.live.length : Int) - c.signals = c.workers := by
  have balance := h.balance
  rw [setting] at balance
  exact balance.trans (Int.add_zero _)

omit [DecidableEq J] in
theorem Balanced.owing (h : c.Balanced) {target : Int} (setting : c.setting = some ⟨target, true⟩) :
    (c.live.length : Int) - c.signals = c.workers + 1 := by
  have balance := h.balance
  rw [setting] at balance
  exact balance

/-- A worker goes on to do something else, and counts itself when it starts. -/
theorem Balanced.turn (h : c.Balanced) {w : Worker J} (there : w ∈ c.live) (doing : Doing J) {active : Int}
    (counts : active + (if w.doing.started then 1 else 0 : Nat) =
      c.activeWorkers + (if doing.started then 1 else 0 : Nat)) :
    Balanced { c.turn w doing with activeWorkers := active } := by
  obtain ⟨bounds, balance, target, range, ordered, activeWorkers⟩ := h
  refine ⟨bounds, ?_, target, range, ordered, ?_⟩
  · rw [← length_turn there doing] at balance
    exact balance
  · have count := started_turn there doing
    change active = ((c.turn w doing).started : Int)
    rw [activeWorkers] at counts
    omega

omit [DecidableEq J] in
/-- The job at the front is taken. -/
theorem Balanced.take (h : c.Balanced) {job : J} {jobs : List (Option J)}
    (hjobs : c.jobs = some job :: jobs) (id : Nat) :
    Balanced { c with jobs, taken := c.taken ++ [(id, job)] } := by
  obtain ⟨bounds, balance, target, range, ordered, active⟩ := h
  refine ⟨bounds, ?_, target, range, ?_, active⟩
  · rw [signals, hjobs, List.countP_cons] at balance
    exact balance
  · change c.submitted = (c.taken ++ [(id, job)]).map Prod.snd ++ jobs.filterMap (fun job => job)
    rw [ordered, queued, hjobs]
    simp

/-- The signal at the front stops the worker that receives it. -/
theorem Balanced.stop (h : c.Balanced) {w : Worker J} (there : w ∈ c.live) (started : w.doing.started)
    {jobs : List (Option J)} (hjobs : c.jobs = none :: jobs) :
    Balanced { c with jobs, live := c.live.erase w, activeWorkers := c.activeWorkers - 1 } := by
  obtain ⟨bounds, balance, target, range, ordered, active⟩ := h
  refine ⟨bounds, ?_, target, range, ?_, ?_⟩
  · have length := List.length_erase_of_mem there
    have pos := List.length_pos_of_mem there
    have signal : c.signals = List.countP Option.isNone jobs + 1 := by
      rw [signals, hjobs, List.countP_cons]
      rfl
    change ((c.live.erase w).length : Int) - (List.countP Option.isNone jobs : Nat) =
      c.workers + if c.setting.any Setting.owes then 1 else 0
    rw [signal] at balance
    omega
  · rw [ordered, queued, hjobs]
    rfl
  · have count : c.started = (c.live.erase w).countP (fun w => w.doing.started) + 1 := by
      rw [started_erase there, if_pos started]
    change c.activeWorkers - 1 = (((c.live.erase w).countP fun w => w.doing.started : Nat) : Int)
    rw [active, count, Int.natCast_add]
    exact Int.add_sub_cancel _ 1

theorem Balanced.step (h : c.Balanced) {e : PoolEvent J} (hstep : c.step e = some c') :
    c'.Balanced := by
  cases e with
  | setWorkers t =>
    simp only [ThreadPoolController.step] at hstep
    split at hstep <;> cases hstep
    rename_i idle
    have balance := h.balance
    rw [idle] at balance
    refine ⟨h.bounds, balance, ?_, nofun, h.ordered, h.active⟩
    rintro s ⟨⟩
    exact clamp_mem h.bounds.2 t
  | grow =>
    simp only [ThreadPoolController.step] at hstep
    split at hstep
    case h_2 => cases hstep
    case h_1 t setting =>
      split at hstep <;> cases hstep
      have balance := h.free setting
      refine ⟨h.bounds, ?_, h.target, fun idle => ?_, h.ordered, ?_⟩
      · simp only [setting, Option.any_some, List.length_cons]
        change ((c.live.length + 1 : Nat) : Int) - c.signals = c.workers + 1 + 0
        omega
      · rw [setting] at idle
        cases idle
      · rw [h.active, started, started, List.countP_cons]
        rfl
  | shrink =>
    simp only [ThreadPoolController.step] at hstep
    split at hstep
    case h_2 => cases hstep
    case h_1 t setting =>
      split at hstep <;> cases hstep
      have balance := h.free setting
      have within := h.target _ setting
      refine ⟨h.bounds, ?_, ?_, nofun, h.ordered, h.active⟩
      · change (c.live.length : Int) - c.signals = c.workers - 1 + 1
        omega
      · rintro s ⟨⟩
        exact within
  | signal =>
    simp only [ThreadPoolController.step] at hstep
    split at hstep
    case h_2 => cases hstep
    case h_1 t setting =>
      split at hstep <;> cases hstep
      have balance := h.owing setting
      have within := h.target _ setting
      refine ⟨h.bounds, ?_, ?_, nofun, ?_, h.active⟩
      · change (c.live.length : Int) - (List.countP Option.isNone (c.jobs ++ [none]) : Nat) =
          c.workers + 0
        rw [List.countP_append]
        change (c.live.length : Int) - ((c.signals + 1 : Nat) : Int) = c.workers + 0
        omega
      · rintro s ⟨⟩
        exact within
      · simpa [queued] using h.ordered
  | unlock =>
    simp only [ThreadPoolController.step] at hstep
    split at hstep
    case h_2 => cases hstep
    case h_1 t setting =>
      split at hstep <;> cases hstep
      rename_i reached
      have balance := h.free setting
      have within := h.target _ setting
      exact ⟨h.bounds, balance.trans (Int.add_zero _).symm, nofun, fun _ => reached ▸ within, h.ordered,
        h.active⟩
  | submit job =>
    simp only [ThreadPoolController.step] at hstep
    split at hstep <;> cases hstep
    refine ⟨h.bounds, ?_, h.target, h.range, ?_, h.active⟩
    · simpa [signals] using h.balance
    · simp [queued, h.ordered]
  | start w =>
    simp only [ThreadPoolController.step] at hstep
    split at hstep <;> cases hstep
    rename_i ready
    exact h.turn ready.1 .waiting (by rw [ready.2]; simp [Doing.started])
  | receive w =>
    simp only [ThreadPoolController.step] at hstep
    split at hstep
    case isFalse => cases hstep
    case isTrue ready =>
      split at hstep
      case h_1 => cases hstep
      case h_2 jobs hjobs =>
        cases hstep
        exact h.stop ready.1 (by rw [ready.2]; rfl) hjobs
      case h_3 job jobs hjobs =>
        cases hstep
        exact (h.turn ready.1 (.running job) (by rw [ready.2]; rfl)).take hjobs w.id
  | finish w =>
    simp only [ThreadPoolController.step] at hstep
    split at hstep
    case h_2 => cases hstep
    case h_1 job running =>
      split at hstep <;> cases hstep
      rename_i there
      exact h.turn there .waiting (by rw [running]; rfl)

/-- Whatever the order of the steps: between the calls of `SetWorkers` the workers less the signals are
as many as are recorded, and a job that was submitted is queued or taken once, in its place. -/
theorem run_balanced {minWorkers maxWorkers : Int} {events : List (PoolEvent J)}
    (run : events.foldlM ThreadPoolController.step (new minWorkers maxWorkers) = some c) :
    (c.setting = none → (c.live.length : Int) - c.signals = c.workers ∧
        c.min ≤ c.workers ∧ c.workers ≤ c.max ∧ 1 ≤ c.workers) ∧
      c.submitted = c.taken.map Prod.snd ++ c.queued := by
  have balanced := foldlM_invariant (fun _ _ _ _ h hstep => h.step hstep) run
    (balanced_new minWorkers maxWorkers)
  refine ⟨fun idle => ?_, balanced.ordered⟩
  have balance := balanced.balance
  have range := balanced.range idle
  rw [idle] at balance
  exact ⟨by simpa using balance, range.1, range.2, Int.le_trans balanced.bounds.1 range.1⟩

end

/-- A worker is added, takes a job, and the signal that stops one goes to the worker that came first. -/
def resized : List (PoolEvent Nat) :=
  [.grow, .unlock, .submit 7, .setWorkers 2, .grow, .unlock, .start ⟨0, .starting⟩,
    .start ⟨1, .starting⟩, .receive ⟨1, .waiting⟩, .setWorkers (-3), .shrink, .submit 8, .signal, .unlock,
    .finish ⟨1, .running 7⟩, .receive ⟨1, .waiting⟩, .receive ⟨0, .waiting⟩]

theorem resized_balanced :
    ∃ c, resized.foldlM step (new 1 3) = some c ∧
      (c.setting = none → (c.live.length : Int) - c.signals = c.workers ∧
        c.min ≤ c.workers ∧ c.workers ≤ c.max ∧ 1 ≤ c.workers) ∧
      c.submitted = c.taken.map Prod.snd ++ c.queued := by
  obtain ⟨c, run⟩ : ∃ c, resized.foldlM step (new 1 3) = some c :=
    Option.isSome_iff_exists.1 (by decide)
  exact ⟨c, run, run_balanced run⟩

end ThreadPoolController

end Ecco9.Reservoir
