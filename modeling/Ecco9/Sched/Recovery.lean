import Ecco9.Library.Runs

/-! `waitForVRAMRecovery` in `server/sched.go`: the goroutine that reads the free memory of the GPUs,
and the channel on which it tells `processCompleted` that it has finished. -/

namespace Ecco9.Sched.Recovery

open Ecco9.Library

inductive Library
  | cpu
  | metal
  | cuda
  | other
  deriving DecidableEq

/-- What a runner waits with: its GPUs and its estimate, and what the system will answer. A reading is
the free memory of each GPU; `clock` is the time of the check after each tick. -/
structure Wait where
  gpus : List Library
  windows : Bool
  estimatedVRAM : UInt64
  gpusBefore : List UInt64
  gpusNow : Nat → List UInt64
  start : Nat
  clock : Nat → Nat

/-- `5 * time.Second`, in nanoseconds -/
def timeout : Nat := 5 * 1_000_000_000

namespace Wait

variable (w : Wait)

/-- CPU and Metal need no checking, and on Windows only CUDA can be checked. -/
def noWait : Bool :=
  match w.gpus with
  | [] => true
  | g :: rest =>
    rest = [] && (g = .cpu || g = .metal) || w.windows && g ≠ .cuda

def freeMemoryBefore : UInt64 := w.gpusBefore.foldl (· + ·) 0

def freeMemoryNow (i : Nat) : UInt64 := (w.gpusNow i).foldl (· + ·) 0

/-- `time.Now().After(expiresAt)` -/
def expired (i : Nat) : Bool := w.clock i > w.start + timeout

/-- The check that about 80% of the estimate is free again. The difference is one of unsigned numbers. -/
def converged (i : Nat) : Bool :=
  (w.freeMemoryNow i - w.freeMemoryBefore).toFloat32 > w.estimatedVRAM.toFloat32 * 0.8

/-- More than 80% of the estimate is free again, as integers. -/
def Recovered (i : Nat) : Prop :=
  4 * (w.estimatedVRAM.toNat : Int) <
    5 * ((w.freeMemoryNow i).toNat - (w.freeMemoryBefore.toNat : Int))

instance (i : Nat) : Decidable (w.Recovered i) := inferInstanceAs (Decidable (_ < _))

end Wait

inductive Send
  | immediate
  | timeout (tick : Nat)
  | converged (tick : Nat)
  deriving DecidableEq

/-- Where the goroutine is: before a tick, about to send, about to read, or at its end. -/
inductive Phase
  | ticking
  | timedOut
  | reading
  | converged
  | returned
  deriving DecidableEq

/-- The goroutine, the channel, which has room for one value, and the receiver, which takes one. -/
structure State where
  phase : Phase
  tick : Nat := 0
  taken : Nat := 0
  sends : List Send := []
  full : Bool := false
  received : Bool := false

/-- The state in which the channel is returned. -/
def waitForVRAMRecovery (w : Wait) : State :=
  if w.noWait then { phase := .returned, sends := [.immediate], full := true }
  else { phase := .ticking }

/-- A send waits until there is room. -/
def State.send (s : State) (v : Send) (phase : Phase) : Option State :=
  if s.full then none else some { s with phase, sends := s.sends ++ [v], full := true }

/-- The goroutine reads the free memory, and goes on to the next tick if it is not enough. -/
def State.read (w : Wait) (s : State) : State :=
  if w.converged s.tick then { s with phase := .converged, taken := s.taken + 1 }
  else { s with phase := .ticking, taken := s.taken + 1, tick := s.tick + 1 }

/-- What the goroutine does next. Behind the timeout it goes on to read. -/
def goroutine (w : Wait) (s : State) : Option State :=
  match s.phase with
  | .ticking => some { s with phase := if w.expired s.tick then .timedOut else .reading }
  | .timedOut => s.send (.timeout s.tick) .reading
  | .reading => some (s.read w)
  | .converged => s.send (.converged s.tick) .returned
  | .returned => none

/-- `<-finished` in `processCompleted` -/
def receive (s : State) : Option State :=
  if s.full ∧ ¬s.received then some { s with full := false, received := true } else none

def Step (w : Wait) (s t : State) : Prop := goroutine w s = some t ∨ receive s = some t

def Run (w : Wait) : State → State → Prop := Relation.ReflTransGen (Step w)

def Reachable (w : Wait) (s : State) : Prop := Run w (waitForVRAMRecovery w) s

/-- In whatever order goroutine and receiver go on: it sends, it never sends again, it takes no reading
after it has sent, and when it sends before the timeout the memory has been freed. -/
structure Settles (w : Wait) : Prop where
  sends : ∀ s, Reachable w s → ∃ t, Run w s t ∧ t.sends ≠ []
  once : ∀ s, Reachable w s → s.sends.length ≤ 1
  stops : ∀ s t, Reachable w s → s.sends ≠ [] → Run w s t → t.taken = s.taken
  recovered : ∀ s, Reachable w s → ∀ i, .converged i ∈ s.sends → w.expired i = false → w.Recovered i

/-- The first reading that passes the check comes before the timeout. -/
structure First (w : Wait) (c : Nat) : Prop where
  unexpired : ∀ i ≤ c, w.expired i = false
  before : ∀ i < c, w.converged i = false
  converged : w.converged c = true

/-- While nothing has been sent. -/
structure Waiting (w : Wait) (s : State) : Prop where
  sends : s.sends = []
  full : s.full = false
  before : ∀ i < s.tick, w.expired i = false ∧ w.converged i = false
  reading : s.phase = .reading → w.expired s.tick = false
  timedOut : s.phase = .timedOut → w.expired s.tick = true
  converged : s.phase = .converged → w.expired s.tick = false ∧ w.converged s.tick = true
  running : s.phase ≠ .returned

/-- After it has sent because the reading of tick `c` passed. -/
structure Done (c : Nat) (s : State) : Prop where
  phase : s.phase = .returned
  sends : s.sends = [.converged c]

variable {w : Wait} {s t : State}

theorem State.send_eq {v : Send} {phase : Phase} (hfull : s.full = false) :
    s.send v phase = some { s with phase, sends := s.sends ++ [v], full := true } := by
  rw [send, hfull]
  rfl

theorem State.read_taken (w : Wait) (s : State) : (s.read w).taken = s.taken + 1 := by
  unfold read
  split
  · rfl
  · rfl

theorem State.read_sends (w : Wait) (s : State) : (s.read w).sends = s.sends := by
  unfold read
  split
  · rfl
  · rfl

theorem step_reading (hphase : s.phase = .reading) : Step w s (s.read w) := by
  left
  unfold goroutine
  rw [hphase]

theorem receive_none (hfull : s.full = false) : receive s = none := by
  rw [receive, hfull]
  rfl

/-- What a step does while nothing has been sent: it goes on waiting, it sends because a reading
passed and is at its end, or it sends because of the timeout and goes on to read. -/
theorem Waiting.step (h : Waiting w s) (hstep : Step w s t) : Waiting w t ∨
    (First w s.tick ∧ Done s.tick t) ∨
      (w.expired s.tick = true ∧ t.phase = .reading ∧ t.sends ≠ []) := by
  have hgo : goroutine w s = some t :=
    hstep.resolve_right (by rw [receive_none h.full]; exact nofun)
  unfold goroutine at hgo
  cases hphase : s.phase with
  | ticking =>
    rw [hphase] at hgo
    obtain rfl := Option.some.inj hgo
    left
    cases hexpired : w.expired s.tick with
    | true =>
      exact { h with
        reading := nofun
        timedOut := fun _ => hexpired
        converged := nofun
        running := nofun
      }
    | false =>
      exact { h with
        reading := fun _ => hexpired
        timedOut := nofun
        converged := nofun
        running := nofun
      }
  | timedOut =>
    rw [hphase] at hgo
    dsimp only at hgo
    rw [State.send_eq h.full] at hgo
    obtain rfl := Option.some.inj hgo
    exact .inr (.inr ⟨h.timedOut hphase, rfl, List.append_ne_nil_of_right_ne_nil _ nofun⟩)
  | reading =>
    have hunexpired := h.reading hphase
    rw [hphase] at hgo
    obtain rfl := Option.some.inj hgo
    left
    unfold State.read
    split
    · rename_i hconverged
      exact { h with
        reading := nofun
        timedOut := nofun
        converged := fun _ => ⟨hunexpired, hconverged⟩
        running := nofun
      }
    · rename_i hconverged
      refine { h with
        before := fun i hi => ?_
        reading := nofun
        timedOut := nofun
        converged := nofun
        running := nofun
      }
      rcases Nat.lt_or_eq_of_le (Nat.le_of_lt_succ hi) with hlt | rfl
      · exact h.before i hlt
      · exact ⟨hunexpired, Bool.eq_false_iff.mpr hconverged⟩
  | converged =>
    obtain ⟨hunexpired, hconverged⟩ := h.converged hphase
    rw [hphase] at hgo
    dsimp only at hgo
    rw [State.send_eq h.full] at hgo
    obtain rfl := Option.some.inj hgo
    refine .inr (.inl ⟨⟨fun i hi => ?_, fun i hi => (h.before i hi).2, hconverged⟩, rfl, ?_⟩)
    · rcases Nat.lt_or_eq_of_le hi with hlt | rfl
      · exact (h.before i hlt).1
      · exact hunexpired
    · dsimp only
      rw [h.sends]
      rfl
  | returned => exact absurd hphase h.running

/-- After the end only the receiver goes on. -/
theorem step_returned (hphase : s.phase = .returned) (hstep : Step w s t) :
    t.phase = .returned ∧ t.sends = s.sends ∧ t.taken = s.taken := by
  rcases hstep with hgo | hreceive
  · unfold goroutine at hgo
    rw [hphase] at hgo
    cases hgo
  · unfold receive at hreceive
    split at hreceive
    · obtain rfl := Option.some.inj hreceive
      exact ⟨hphase, rfl, rfl⟩
    · cases hreceive

theorem run_returned (hphase : s.phase = .returned) (run : Run w s t) :
    t.phase = .returned ∧ t.sends = s.sends ∧ t.taken = s.taken := by
  refine run_invariant (I := fun t => t.phase = .returned ∧ t.sends = s.sends ∧ t.taken = s.taken)
    (fun t u ht hstep => ?_) run ⟨hphase, rfl, rfl⟩
  obtain ⟨hu, hsends, htaken⟩ := step_returned ht.1 hstep
  exact ⟨hu, hsends.trans ht.2.1, htaken.trans ht.2.2⟩

theorem start_waiting (hwait : w.noWait = false) : Waiting w (waitForVRAMRecovery w) := by
  rw [waitForVRAMRecovery, hwait]
  exact {
    sends := rfl
    full := rfl
    before := nofun
    reading := nofun
    timedOut := nofun
    converged := nofun
    running := nofun
  }

/-- Before the first reading that passes, the ticks are those that have not passed. -/
theorem First.tick_le {c : Nat} (first : First w c) (h : Waiting w s) : s.tick ≤ c := by
  by_contra hlt
  have hbefore := (h.before c (Nat.lt_of_not_le hlt)).2
  rw [first.converged] at hbefore
  cases hbefore

theorem First.eq {c c' : Nat} (first : First w c) (first' : First w c') : c = c' := by
  rcases Nat.lt_trichotomy c c' with hlt | heq | hlt
  · have hbefore := first'.before c hlt
    rw [first.converged] at hbefore
    cases hbefore
  · exact heq
  · have hbefore := first.before c' hlt
    rw [first'.converged] at hbefore
    cases hbefore

/-- Where a reading passes in time, every state is one before the only send or at the end. -/
theorem First.reachable {c : Nat} (first : First w c) (hwait : w.noWait = false)
    (h : Reachable w s) : Waiting w s ∨ Done c s := by
  refine run_invariant (I := fun s => Waiting w s ∨ Done c s) (fun s t hs hstep => ?_) h
    (.inl (start_waiting hwait))
  rcases hs with hs | hs
  · rcases hs.step hstep with ht | ⟨first', ht⟩ | ⟨hexpired, -⟩
    · exact .inl ht
    · exact .inr (first'.eq first ▸ ht)
    · rw [first.unexpired _ (first.tick_le hs)] at hexpired
      cases hexpired
  · obtain ⟨hphase, hsends, -⟩ := step_returned hs.phase hstep
    exact .inr ⟨hphase, hsends.trans hs.sends⟩

theorem Waiting.of_step (h : Waiting w s) (hstep : Step w s t) (hsends : t.sends = []) :
    Waiting w t := by
  rcases h.step hstep with ht | ⟨-, ht⟩ | ⟨-, -, hsent⟩
  · exact ht
  · rw [ht.sends] at hsends
    cases hsends
  · exact absurd hsends hsent

theorem Waiting.send (h : Waiting w s) (hphase : s.phase = .converged) :
    ∃ t, Run w s t ∧ t.sends ≠ [] := by
  refine ⟨{ s with phase := .returned, sends := s.sends ++ [.converged s.tick], full := true },
    .single (.inl ?_), List.append_ne_nil_of_right_ne_nil _ nofun⟩
  unfold goroutine
  rw [hphase]
  exact State.send_eq h.full

/-- The goroutine comes to the reading that passes: the induction is on the ticks before it. -/
theorem First.progress {c : Nat} (first : First w c) (h : Waiting w s) :
    ∃ t, Run w s t ∧ t.sends ≠ [] := by
  induction hd : c - s.tick using Nat.strongRecOn generalizing s with
  | ind d ih =>
    have read : ∀ u, Waiting w u → u.tick = s.tick → u.phase = .reading →
        ∃ t, Run w u t ∧ t.sends ≠ [] := by
      intro u hu htick hphase
      have hstep : Step w u (u.read w) := step_reading hphase
      have hnext := hu.of_step hstep ((u.read_sends w).trans hu.sends)
      suffices hsent : ∃ t, Run w (u.read w) t ∧ t.sends ≠ [] by
        obtain ⟨t, run, hsends⟩ := hsent
        exact ⟨t, .head hstep run, hsends⟩
      unfold State.read at hnext ⊢
      split
      · rename_i hconverged
        rw [if_pos hconverged] at hnext
        exact hnext.send rfl
      · rename_i hconverged
        rw [if_neg hconverged] at hnext
        have hle := first.tick_le hnext
        dsimp only at hle
        exact ih (c - (u.tick + 1)) (by omega) hnext rfl
    have hunexpired := first.unexpired _ (first.tick_le h)
    cases hphase : s.phase with
    | ticking =>
      have hstep : Step w s { s with phase := .reading } := by
        left
        unfold goroutine
        rw [hphase]
        dsimp only
        rw [hunexpired]
        rfl
      obtain ⟨t, run, hsends⟩ := read _ (h.of_step hstep h.sends) rfl rfl
      exact ⟨t, .head hstep run, hsends⟩
    | timedOut =>
      rw [h.timedOut hphase] at hunexpired
      cases hunexpired
    | reading => exact read s h rfl hphase
    | converged => exact h.send hphase
    | returned => exact absurd hphase h.running

theorem First.settles {c : Nat} (first : First w c) (hwait : w.noWait = false)
    (hrecovered : w.Recovered c) : Settles w where
  sends s hs := by
    rcases first.reachable hwait hs with h | h
    · exact first.progress h
    · exact ⟨s, .refl, by rw [h.sends]; exact List.cons_ne_nil _ _⟩
  once s hs := by
    rcases first.reachable hwait hs with h | h
    · rw [h.sends]
      exact Nat.zero_le 1
    · rw [h.sends]
      exact Nat.le_refl 1
  stops s t hs hsent run := by
    rcases first.reachable hwait hs with h | h
    · exact absurd h.sends hsent
    · exact (run_returned h.phase run).2.2
  recovered s hs i hi _ := by
    rcases first.reachable hwait hs with h | h
    · rw [h.sends] at hi
      cases hi
    · rw [h.sends, List.mem_singleton] at hi
      cases hi
      exact hrecovered

theorem settles_of_noWait (hwait : w.noWait = true) : Settles w := by
  have hend : ∀ s, Reachable w s →
      s.phase = .returned ∧ s.sends = [.immediate] ∧ s.taken = 0 := by
    intro s hs
    rw [Reachable, waitForVRAMRecovery, hwait] at hs
    exact run_returned rfl hs
  exact {
    sends := fun s hs => ⟨s, .refl, by rw [(hend s hs).2.1]; exact List.cons_ne_nil _ _⟩
    once := fun s hs => by
      rw [(hend s hs).2.1]
      exact Nat.le_refl 1
    stops := fun s t hs _ run => (run_returned (hend s hs).1 run).2.2
    recovered := fun s hs i hi _ => by
      rw [(hend s hs).2.1, List.mem_singleton] at hi
      cases hi
  }

/-- A send at the timeout is followed by a reading. -/
theorem Settles.not_reading (h : Settles w) (hs : Reachable w s) (hphase : s.phase = .reading) :
    s.sends = [] := by
  by_contra hsent
  have htaken := h.stops s _ hs hsent (.single (step_reading hphase))
  rw [State.read_taken] at htaken
  exact absurd htaken (Nat.succ_ne_self _)

/-- Where it settles, a send is one because a reading passed in time. -/
theorem Settles.reachable (h : Settles w) (hwait : w.noWait = false) (hs : Reachable w s) :
    Waiting w s ∨ ∃ c, First w c ∧ Done c s := by
  refine (run_invariant (I := fun s => Reachable w s ∧ (Waiting w s ∨ ∃ c, First w c ∧ Done c s))
    (fun s t hs hstep => ?_) hs ⟨.refl, .inl (start_waiting hwait)⟩).2
  have ht : Reachable w t := hs.1.tail hstep
  refine ⟨ht, ?_⟩
  rcases hs.2 with hs | ⟨c, first, hs⟩
  · rcases hs.step hstep with hnext | ⟨first, hdone⟩ | ⟨-, hphase, hsent⟩
    · exact .inl hnext
    · exact .inr ⟨_, first, hdone⟩
    · exact absurd (h.not_reading ht hphase) hsent
  · obtain ⟨hphase, hsends, -⟩ := step_returned hs.phase hstep
    exact .inr ⟨c, first, hphase, hsends.trans hs.sends⟩

theorem Settles.first (h : Settles w) :
    w.noWait = true ∨ ∃ c, First w c ∧ w.Recovered c := by
  cases hwait : w.noWait with
  | true => exact .inl rfl
  | false =>
    obtain ⟨t, run, hsent⟩ := h.sends _ .refl
    rcases h.reachable hwait run with ht | ⟨c, first, ht⟩
    · exact absurd ht.sends hsent
    · refine .inr ⟨c, first, h.recovered t run c ?_ (first.unexpired c (Nat.le_refl c))⟩
      rw [ht.sends]
      exact List.mem_singleton_self _

/-- The wait settles exactly when there is nothing to wait for, or the first reading that passes the
check comes before the timeout and has as much memory freed as the check is meant to find. -/
theorem settles_iff (w : Wait) : Settles w ↔
    w.noWait = true ∨ ∃ c, First w c ∧ w.Recovered c := by
  refine ⟨Settles.first, ?_⟩
  rintro (hwait | ⟨c, first, hrecovered⟩)
  · exact settles_of_noWait hwait
  · cases hwait : w.noWait with
    | true => exact settles_of_noWait hwait
    | false => exact first.settles hwait hrecovered

def gibibyte : UInt64 := 1_073_741_824

/-- A runner of 8 GiB on one GPU of which 1 GiB is free, and every 250 ms the same reading. -/
def steady (free : UInt64) : Wait where
  gpus := [.cuda]
  windows := false
  estimatedVRAM := 8 * gibibyte
  gpusBefore := [gibibyte]
  gpusNow := fun _ => [free]
  start := 0
  clock := fun i => (i + 1) * 250_000_000

/-- Memory that is not freed is waited for behind the timeout; memory of which a byte less is free is
taken for freed. -/
theorem steady_not_settles : ¬Settles (steady gibibyte) ∧ ¬Settles (steady (gibibyte - 1)) := by
  constructor
  · intro h
    rcases h.first with hwait | ⟨c, first, -⟩
    · cases hwait
    · have hnever : (steady gibibyte).converged c = false := by
        change (steady gibibyte).converged 0 = false
        decide
      rw [first.converged] at hnever
      cases hnever
  · intro h
    rcases h.first with hwait | ⟨c, -, hrecovered⟩
    · cases hwait
    · have hless : ¬(steady (gibibyte - 1)).Recovered 0 := by decide
      exact hless hrecovered

end Ecco9.Sched.Recovery
